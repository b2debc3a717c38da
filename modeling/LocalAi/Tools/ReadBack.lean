import LocalAi.Answer.Splitter
import LocalAi.Tools.Arguments
import LocalAi.Tools.Ambiguous

/-!
# Strict calls read back as derived

The grammar writes a strict call and the streaming parser finds its end, its
header and its values by substring search, while the grammar allows the very
strings it looks for inside some values.

* `splitOnce_strictCall`: the end of a strict call is found where it was written.
* `readsBack_of_callLeaves`: its block reads back with the derived arguments.
* `scan_answer`: a derived answer says its free text and its calls.
* `strict_calls_read_back`: so does the streaming parser, however the text is cut.
-/

open List

namespace LocalAi.Tools

open LocalAi.Lib LocalAi.Answer

/-! ### The end of a call -/

theorem splitOnce_strictItem {item : Text × Text} (hn : validParameterName item.1 = true)
    (hv : ¬ strictCallEnd <:+: '\n' :: item.2) (rest : Text) :
    splitOnce strictCallEnd (strictItem item ++ rest)
      = (splitOnce strictCallEnd rest).map fun parts => (strictItem item ++ parts.1, parts.2) := by
  have he : strictCallEnd = '\n' :: "</function>\n</tool_call>".toList := rfl
  have hc : ∀ tail : Text, parameterClose ++ tail = '\n' :: ("</parameter>".toList ++ tail) :=
    fun _ => rfl
  have hk : '\n' ∉ "<parameter=".toList ++ item.1 ++ ['>'] := by
    intro hm
    simp only [mem_append, or_assoc] at hm
    rcases hm with hin | hin | hin
    · revert hin
      decide
    · simp only [validParameterName, Bool.and_eq_true, Bool.not_eq_true', any_eq_false] at hn
      have := hn.2 _ hin
      revert this
      decide
    · revert hin
      decide
  have ht : ∀ tail : Text, strictItem item ++ tail
      = '\n' :: ("<parameter=".toList ++ item.1 ++ ['>'] ++
          ('\n' :: item.2 ++ (parameterClose ++ tail))) := by
    intro tail
    have ho : parameterOpen = '\n' :: "<parameter=".toList := rfl
    have he : ">\n".toList = ['>', '\n'] := rfl
    rw [strictItem, ho, he]
    simp only [append_assoc, cons_append, nil_append]
  have hf : ¬ strictCallEnd <+: '\n' :: ("<parameter=".toList ++ item.1 ++ ['>'] ++
      ('\n' :: item.2 ++ (parameterClose ++ rest))) := by
    rintro ⟨back, hb⟩
    cases hb
  have hbd : ∀ k, 0 < k → k < strictCallEnd.length →
      ¬ strictCallEnd.drop k <+: parameterClose ++ rest := by
    intro k hpos hlt hp
    -- only one other line break stands in the end of a call
    have hbr : k = 12 := by
      have hh : (strictCallEnd.drop k).head? = some '\n' := by
        obtain ⟨back, hb⟩ := hp
        have hne : strictCallEnd.drop k ≠ [] := by
          intro hnil
          have := drop_eq_nil_iff.mp hnil
          omega
        have := congrArg head? hb
        rwa [head?_append_of_ne_nil _ hne, hc] at this
      have ha : ∀ k < 25, 0 < k → (strictCallEnd.drop k).head? = some '\n' → k = 12 := by decide
      exact ha k hlt hpos hh
    subst hbr
    obtain ⟨back, hb⟩ := hp
    cases hb
  have hcl : ¬ strictCallEnd <+: '\n' :: ("</parameter>".toList ++ rest) := by
    rintro ⟨back, hb⟩
    cases hb
  rw [ht, splitOnce_cons hf]
  rw [he, splitOnce_skip hk, ← he, splitOnce_boundary hv hbd, hc, splitOnce_cons hcl]
  rw [he, splitOnce_skip (by decide : '\n' ∉ "</parameter>".toList), ← he]
  simp only [Option.map_map]
  congr 1
  funext parts
  exact Prod.ext (ht parts.1).symm rfl

variable {name text : Text} {arguments : List (Text × Json)} {call : List Leaf}
  {chosen : List (StrictParameter × Text)}

theorem splitOnce_strictCall (hna : validToolName name = true)
    {items : List (Text × Text)} (hn : ∀ item ∈ items, validParameterName item.1 = true)
    (hv : ∀ item ∈ items, ¬ strictCallEnd <:+: '\n' :: item.2) (rest : Text) :
    splitOnce strictCallEnd
        (functionOpen ++ name ++ ['>'] ++ items.flatMap strictItem ++ (strictCallEnd ++ rest))
      = some (functionOpen ++ name ++ ['>'] ++ items.flatMap strictItem, rest) := by
  have hi : splitOnce strictCallEnd (items.flatMap strictItem ++ (strictCallEnd ++ rest))
      = some (items.flatMap strictItem, rest) := by
    induction items with
    | nil =>
      rw [flatMap_nil, nil_append, splitOnce_of_isPrefix (prefix_append _ _), drop_left]
    | cons item items ih =>
      have hr := ih (fun other ho => hn other (mem_cons_of_mem _ ho))
        fun other ho => hv other (mem_cons_of_mem _ ho)
      rw [flatMap_cons, append_assoc, splitOnce_strictItem (hn item mem_cons_self)
        (hv item mem_cons_self), hr]
      rfl
  have he : strictCallEnd = '\n' :: "</function>\n</tool_call>".toList := rfl
  have ht : ∀ tail : Text, functionOpen ++ name ++ ['>'] ++ tail
      = '\n' :: ("<function=".toList ++ name ++ ['>'] ++ tail) := fun _ => rfl
  have hf : ¬ strictCallEnd <+: '\n' :: ("<function=".toList ++ name ++ ['>'] ++
      (items.flatMap strictItem ++ (strictCallEnd ++ rest))) := by
    rintro ⟨back, hb⟩
    cases hb
  have hh : '\n' ∉ "<function=".toList ++ name ++ ['>'] := by
    intro hm
    simp only [mem_append, or_assoc] at hm
    rcases hm with hin | hin | hin
    · revert hin
      decide
    · exact notMem_of_validToolName hna (by decide) hin
    · revert hin
      decide
  rw [append_assoc (functionOpen ++ name ++ ['>']), ht, splitOnce_cons hf]
  rw [he, splitOnce_skip hh, ← he, hi]
  rfl

theorem not_strictCallEnd_infix (h : ¬ callEndTag <:+: text ∨ '\n' ∉ text) :
    ¬ strictCallEnd <:+: '\n' :: text := by
  intro hi
  rcases h with htag | hl
  · -- the closing tag would stand in the text
    have ht : callEndTag <:+: '\n' :: text := by
      refine List.IsInfix.trans ?_ hi
      exact ⟨"\n</function>\n".toList, [], rfl⟩
    rw [infix_cons_iff] at ht
    rcases ht with hp | hin
    · obtain ⟨back, hb⟩ := hp
      cases hb
    · exact htag hin
  · -- its second line break would
    rw [infix_cons_iff] at hi
    rcases hi with hp | hin
    · obtain ⟨back, hb⟩ := hp
      have htail : "</function>\n</tool_call>".toList ++ back = text := (cons.inj hb).2
      apply hl
      rw [← htail]
      exact mem_append_left _ (by decide)
    · exact hl (hin.subset (by decide))

/-! ### The block of a call -/

variable {env : Env} {js : Jsonschema} {translators : Translators} {engine : Engine}
  {ecma : Text → Text → Prop} {tools : ToolSet} {tool : Tool} {strict : StrictTool}

theorem parseStrictParameters_write {item : Text × Text} (hi : strict.Admits item)
    (hn : validParameterName item.1 = true) {declared : StrictParameter}
    (hd : strict.parameter item.1 = some declared) {value : Json}
    (hv : strictValue env item.1 declared.value item.2 = .ok value)
    (hnew : (!arguments.any fun entry => entry.1 == item.1) = true) (rest : Text) (fuel : Nat) :
    parseStrictParameters env strict (fuel + 1) (strictItem item ++ rest) arguments
      = parseStrictParameters env strict fuel rest (arguments ++ [(item.1, value)]) := by
  have ht : strictItem item ++ rest = parameterOpen ++ (item.1 ++ (">\n".toList ++
      (item.2 ++ (parameterClose ++ rest)))) := by
    simp only [strictItem, append_assoc]
  have hne : (strictItem item ++ rest).isEmpty = false := by
    rw [ht]
    rfl
  have ho : stripPrefix parameterOpen (strictItem item ++ rest)
      = some (item.1 ++ (">\n".toList ++ (item.2 ++ (parameterClose ++ rest)))) :=
    stripPrefix_eq_some.mpr ht
  have hs : splitOnce ">\n".toList
      (item.1 ++ (">\n".toList ++ (item.2 ++ (parameterClose ++ rest))))
        = some (item.1, item.2 ++ (parameterClose ++ rest)) :=
    splitOnce_of_notMem (notMem_of_validParameterName hn (.inr rfl)) _
  have hend := splitOnce_parameterClose hi rest
  have he : ∀ error : Text, ensure (!arguments.any fun entry => entry.1 == item.1) error = .ok () :=
    fun error => ensure_eq_ok.mpr hnew
  rw [parseStrictParameters, hne, if_neg (by decide)]
  simp only [ho, Option.elim_some, bind, Except.bind, hs, hd, hend, he, hv]

def itemText (item : StrictParameter × Text) : Text × Text := (item.1.name, item.2)

theorem StrictTool.parameter_of_mem (hnd : (strict.parameters.map StrictParameter.name).Nodup)
    {parameter : StrictParameter} (hm : parameter ∈ strict.parameters) :
    strict.parameter parameter.name = some parameter := by
  unfold StrictTool.parameter
  cases hf : strict.parameters.find? fun other => other.name == parameter.name with
  | none =>
    have := find?_eq_none.mp hf parameter hm
    simp at this
  | some other =>
    have hn : other.name = parameter.name := by simpa using find?_some hf
    rw [inj_on_of_nodup_map hnd (mem_of_find?_eq_some hf) hm hn]

theorem parseStrictParameters_chosen (hnd : (strict.parameters.map StrictParameter.name).Nodup)
    (hn : ∀ parameter ∈ strict.parameters, validParameterName parameter.name = true) :
    ∀ (chosen : List (StrictParameter × Text)) (fuel : Nat) (arguments : List (Text × Json)),
      chosen.length < fuel → (∀ item ∈ chosen, item.1 ∈ strict.parameters) →
      (∀ item ∈ chosen, strict.Admits (itemText item)) →
      (∀ item ∈ chosen, ∀ key, strictValue env key item.1.value item.2
        = .ok (engine.argument (valueTerminal item.1.value, item.2))) →
      ((arguments ++ engine.chosenArguments chosen).map Prod.fst).Nodup →
      parseStrictParameters env strict fuel ((chosen.map itemText).flatMap strictItem) arguments
        = .ok (arguments ++ engine.chosenArguments chosen) := by
  intro chosen
  induction chosen with
  | nil =>
    intro fuel arguments hf _ _ _ _
    obtain ⟨fuel, rfl⟩ : ∃ n, fuel = n + 1 := ⟨fuel - 1, by
      rw [length_nil] at hf
      omega⟩
    rw [map_nil, flatMap_nil, parseStrictParameters]
    simp [Engine.chosenArguments]
  | cons item chosen ih =>
    intro fuel arguments hf hm hadm hv hk
    rw [length_cons] at hf
    obtain ⟨fuel, rfl⟩ : ∃ n, fuel = n + 1 := ⟨fuel - 1, by omega⟩
    have hin := hm item mem_cons_self
    have hnew : (!arguments.any fun entry => entry.1 == item.1.name) = true := by
      rw [Bool.not_eq_true', any_eq_false]
      intro entry hent heq
      rw [map_append, nodup_append] at hk
      refine hk.2.2 entry.1 (mem_map_of_mem hent) item.1.name ?_ (by simpa using heq)
      simp [Engine.chosenArguments]
    have ha : arguments ++ [(item.1.name, engine.argument (valueTerminal item.1.value, item.2))]
          ++ engine.chosenArguments chosen
        = arguments ++ engine.chosenArguments (item :: chosen) := by
      simp [Engine.chosenArguments]
    rw [map_cons, flatMap_cons, parseStrictParameters_write (hadm item mem_cons_self) (hn _ hin)
        (StrictTool.parameter_of_mem hnd hin) (hv item mem_cons_self _) hnew]
    rw [← ha]
    refine ih fuel _ (by omega) (fun other ho => hm other (mem_cons_of_mem _ ho))
      (fun other ho => hadm other (mem_cons_of_mem _ ho))
      (fun other ho => hv other (mem_cons_of_mem _ ho)) ?_
    rw [← ha] at hk
    exact hk

/-- What the parser makes of the leaves of one call. -/
structure ReadsBack (env : Env) (tools : ToolSet) (engine : Engine) (call : List Leaf) (name : Text)
    (arguments : List (Text × Json)) : Prop where
  ends : ∃ block tool, spelled call = block ++ strictCallEnd ∧
    (∀ rest, callEnd (spelled call ++ rest) tools = some (block, rest, strictCallEnd, some tool)) ∧
    parseBlock env tools block (some tool) = .ok (name, arguments)
  calls : ∀ rest, engine.derivedCalls (call ++ rest)
    = (name, .object arguments) :: engine.derivedCalls rest
  silent : freeText call = []

theorem spelled_call (h : CallLeaves engine tools tool strict chosen call) :
    spelled call = functionOpen ++ tool.definition.name ++ ['>'] ++
      (chosen.map itemText).flatMap strictItem ++ strictCallEnd := by
  obtain ⟨close, ⟨_, hc⟩, rfl⟩ := h.leaves
  -- each line break moves from the end of a line to the start of the next
  have hs : ∀ items : List (StrictParameter × Text),
      '\n' :: (spelled (items.flatMap itemLeaves) ++ (functionEnd ++ callEndTag))
        = (items.map itemText).flatMap strictItem ++ strictCallEnd := by
    intro items
    induction items with
    | nil => rfl
    | cons item items ih =>
      rw [map_cons, flatMap_cons, flatMap_cons, append_assoc, ← ih]
      have he : parameterEnd = parameterClose ++ ['\n'] := rfl
      have ho : parameterOpen = '\n' :: "<parameter=".toList := rfl
      simp only [spelled, itemLeaves, flatMap_cons, strictItem, itemText, he, ho,
        append_assoc, cons_append, nil_append]
  have hh : ">\n".toList = ['>', '\n'] := rfl
  rw [append_assoc (functionOpen ++ tool.definition.name ++ ['>']), ← hs]
  simp only [spelled, flatMap_cons, flatMap_append, flatMap_nil, hc, hh,
    append_assoc, cons_append, nil_append, append_nil]

theorem derivedCalls_append (engine : Engine) {front : List Leaf} (h : ∀ leaf ∈ front, leaf.1.silent = true)
    (rest : List Leaf) : engine.derivedCalls (front ++ rest) = engine.derivedCalls rest := by
  induction front with
  | nil => rfl
  | cons leaf front ih =>
    have hl := h leaf mem_cons_self
    obtain ⟨terminal, text⟩ := leaf
    have hr := ih fun other ho => h other (mem_cons_of_mem _ ho)
    cases terminal with
    | header => cases hl
    | _ => exact hr

theorem freeText_silent {leaves : List Leaf} (h : ∀ leaf ∈ leaves, leaf.1.silent = true) :
    freeText leaves = [] := by
  unfold freeText
  rw [flatMap_eq_nil_iff]
  intro leaf hl
  have hs := h leaf hl
  obtain ⟨terminal, text⟩ := leaf
  cases terminal with
  | text => cases hs
  | _ => rfl

theorem silent_itemLeaves (chosen : List (StrictParameter × Text)) :
    ∀ leaf ∈ chosen.flatMap itemLeaves, leaf.1.silent = true := by
  intro leaf hl
  obtain ⟨item, _, hm⟩ := mem_flatMap.mp hl
  simp only [itemLeaves, mem_cons, not_mem_nil, or_false] at hm
  rcases hm with rfl | rfl | rfl
  · rfl
  · cases hk : item.1.value with
    | raw => rfl
    | json => rfl
  · rfl

theorem arguments_itemLeaves (engine : Engine) (chosen : List (StrictParameter × Text))
    (rest : List Leaf) :
    engine.arguments (chosen.flatMap itemLeaves ++ ((.literal functionEnd, functionEnd) :: rest))
      = engine.chosenArguments chosen := by
  induction chosen with
  | nil => rfl
  | cons item chosen ih =>
    have hc : (item :: chosen).flatMap itemLeaves ++ ((.literal functionEnd, functionEnd) :: rest)
        = (.key item.1.name, "<parameter=".toList ++ item.1.name ++ ">\n".toList) ::
          (valueTerminal item.1.value, item.2) :: (.literal parameterEnd, parameterEnd) ::
            (chosen.flatMap itemLeaves ++ ((.literal functionEnd, functionEnd) :: rest)) := rfl
    rw [hc, Engine.arguments, ih]
    rfl

/-- What the grammar admits of a value. -/
theorem CallLeaves.admitted (h : CallLeaves engine tools tool strict chosen call) :
    ∀ item ∈ chosen, match item.1.value with
      | .raw _ => ¬ "</parameter>".toList <:+: item.2 ∧ ¬ callEndTag <:+: item.2
      | .json _ => '\n' ∉ item.2 := by
  intro item hi
  have hm := h.values item hi
  cases hk : item.1.value with
  | raw =>
    rw [hk] at hm
    exact ⟨hm.1, hm.2.1⟩
  | json =>
    rw [hk] at hm
    exact hm.1

theorem readsBack_of_callLeaves (hdoc : Documented env js translators engine ecma)
    (hco : tools.Compiled)
    (hsch : compileParameters env js tool.definition.parameters = .ok tool.schema)
    (hs : tool.strict = if tool.definition.strict then
      some (classify env translators tool.definition.parameters) else none)
    (hd : tool.definition.Distinct) (h : CallLeaves engine tools tool strict chosen call) :
    ReadsBack env tools engine call tool.definition.name (engine.chosenArguments chosen) := by
  obtain ⟨hvalid, hnd, hr⟩ := validateArguments_derived hdoc hsch hs hd h
  have hna := (hco.compiled tool h.mem).name
  have hn := (hco.compiled tool h.mem).strictNames strict h.layout
  have hmem : ∀ item ∈ chosen, item.1 ∈ strict.parameters :=
    fun item hi => h.declared.subset (mem_map_of_mem hi)
  have hv := h.admitted
  have ha : ∀ item ∈ chosen, strict.Admits (itemText item) := fun item hi =>
    ⟨item.1, StrictTool.parameter_of_mem hnd (hmem item hi), hv item hi⟩
  have he : ∀ item ∈ chosen.map itemText, ¬ strictCallEnd <:+: '\n' :: item.2 := by
    intro item hi
    obtain ⟨choice, hc, rfl⟩ := mem_map.mp hi
    have hv := hv choice hc
    apply not_strictCallEnd_infix
    cases hk : choice.1.value with
    | raw =>
      rw [hk] at hv
      exact .inl hv.2
    | json =>
      rw [hk] at hv
      exact .inr hv
  have hvalidNames : ∀ item ∈ chosen.map itemText, validParameterName item.1 = true := by
    intro item hi
    obtain ⟨choice, hc, rfl⟩ := mem_map.mp hi
    exact hn _ (hmem choice hc)
  have hlay : StrictLayout tool
      (functionOpen ++ tool.definition.name ++ ['>'] ++ (chosen.map itemText).flatMap strictItem) := by
    refine ⟨strict, chosen.map itemText, h.layout, rfl, fun item hi => ?_⟩
    obtain ⟨choice, hc, rfl⟩ := mem_map.mp hi
    exact ha choice hc
  refine ⟨⟨_, tool, spelled_call h, fun rest => ?_, ?_⟩, fun rest => ?_, ?_⟩
  · rw [spelled_call h, append_assoc, callEnd_eq, strictHeader_of_layout hco h.mem hlay]
    rw [splitOnce_strictCall hna hvalidNames he]
    rfl
  · have hke : ((engine.chosenArguments chosen).map Prod.fst).Nodup := by
      rw [chosenArguments_keys]
      exact hnd.sublist (h.declared.map _)
    have hcnt : ∀ items : List (Text × Text), items.length ≤ (items.flatMap strictItem).length := by
      intro items
      induction items with
      | nil => exact le_rfl
      | cons item =>
        have hp : 0 < (strictItem item).length := by
          rw [strictItem, length_append]
          have : 0 < parameterOpen.length := by decide
          omega
        rw [flatMap_cons, length_append, length_cons]
        omega
    have hf := hcnt (chosen.map itemText)
    rw [length_map] at hf
    have hlo := parseStrictParameters_chosen hnd hn chosen
      (((chosen.map itemText).flatMap strictItem).length + 1) [] (by omega) hmem ha hr hke
    have hst : stripPrefix (functionOpen ++ tool.definition.name ++ ['>'])
        (functionOpen ++ tool.definition.name ++ ['>'] ++ (chosen.map itemText).flatMap strictItem)
          = some ((chosen.map itemText).flatMap strictItem) := stripPrefix_eq_some.mpr rfl
    show parseStrict env _ tool = _
    unfold parseStrict
    rw [h.layout]
    simp only [hst, Option.elim_some, bind, Except.bind, hlo, nil_append, hvalid, Except.mapError]
  · obtain ⟨close, ⟨hcl, _⟩, rfl⟩ := h.leaves
    have har := arguments_itemLeaves engine chosen ([close] ++ rest)
    have hsil : ∀ leaf ∈ chosen.flatMap itemLeaves ++ [(.literal functionEnd, functionEnd), close],
        leaf.1.silent = true := by
      intro leaf hl
      rcases mem_append.mp hl with hin | hin
      · exact silent_itemLeaves chosen leaf hin
      · simp only [mem_cons, not_mem_nil, or_false] at hin
        rcases hin with rfl | rfl
        · rfl
        · exact hcl
    rw [cons_append, Engine.derivedCalls, derivedCalls_append engine hsil]
    congr 3
    rw [← har]
    simp only [append_assoc, cons_append, nil_append]
  · obtain ⟨close, ⟨hcl, _⟩, rfl⟩ := h.leaves
    have hre : freeText (chosen.flatMap itemLeaves ++ [(.literal functionEnd, functionEnd), close])
        = [] := by
      refine freeText_silent fun leaf hl => ?_
      rcases mem_append.mp hl with hin | hin
      · exact silent_itemLeaves chosen leaf hin
      · simp only [mem_cons, not_mem_nil, or_false] at hin
        rcases hin with rfl | rfl
        · rfl
        · exact hcl
    exact hre

/-! ### Scanning an answer -/

theorem spelled_append (front back : List Leaf) :
    spelled (front ++ back) = spelled front ++ spelled back := by
  simp [spelled]

theorem trimEnd_space (h : ∀ c ∈ text, isWhitespace c = true) : trimEnd text = [] := by
  unfold trimEnd
  rw [rdropWhile_eq_nil_iff]
  exact h

theorem trimStart_space (h : ∀ c ∈ text, isWhitespace c = true) : trimStart text = [] := by
  unfold trimStart
  rw [dropWhile_eq_nil_iff]
  exact h

theorem scanPending_reads
    (h : ReadsBack env tools engine call name arguments) (afterCall : Bool) (rest : Text) :
    scanPending env tools ⟨spelled call ++ rest, true, afterCall, none⟩
      = ((scanPending env tools ⟨rest, false, true, none⟩).1,
          .call name (.object arguments) :: (scanPending env tools ⟨rest, false, true, none⟩).2) := by
  obtain ⟨block, tool, _, he, hp⟩ := h.ends
  rw [scanPending_call rfl (he rest), hp]

theorem scanPending_next {gap : List Leaf} {tag : Leaf}
    (hg : IsGap gap) (htag : IsTag callStart tag)
    (hca : ReadsBack env tools engine call name arguments) (afterCall : Bool) (rest : Text) :
    scanPending env tools ⟨spelled (gap ++ tag :: call) ++ rest, false, afterCall, none⟩
      = ((scanPending env tools ⟨rest, false, true, none⟩).1,
          .call name (.object arguments) :: (scanPending env tools ⟨rest, false, true, none⟩).2) := by
  have ht : spelled (gap ++ tag :: call) ++ rest
      = spelled gap ++ (callStart ++ (spelled call ++ rest)) := by
    rw [spelled_append]
    have hc : spelled (tag :: call) = callStart ++ spelled call := by
      rw [← htag.2]
      rfl
    rw [hc]
    simp only [append_assoc]
  have ho : '<' ∉ spelled gap := by
    intro hm
    have := hg.2 _ hm
    revert this
    decide
  have hs : splitOnce callStart (spelled gap ++ (callStart ++ (spelled call ++ rest)))
      = some (spelled gap, spelled call ++ rest) := splitOnce_of_notMem ho _
  rw [ht, scanPending_start rfl hs, trimEnd_space hg.2]
  dsimp only
  rw [sayText_nil, scanPending_reads hca]
  rfl

/-- A call that reads back, after a gap and the opening tag. -/
def NextReads (env : Env) (tools : ToolSet) (engine : Engine) (part : List Leaf) : Prop :=
  ∃ gap tag call name arguments, IsGap gap ∧ IsTag callStart tag ∧
    ReadsBack env tools engine call name arguments ∧ part = gap ++ tag :: call

theorem NextReads.derived {part : List Leaf} (h : NextReads env tools engine part) :
    freeText part = [] ∧ ∃ name arguments, (∀ rest, engine.derivedCalls (part ++ rest)
      = (name, .object arguments) :: engine.derivedCalls rest) ∧
      ∀ afterCall rest, scanPending env tools ⟨spelled part ++ rest, false, afterCall, none⟩
        = ((scanPending env tools ⟨rest, false, true, none⟩).1, .call name (.object arguments) ::
            (scanPending env tools ⟨rest, false, true, none⟩).2) := by
  obtain ⟨gap, tag, call, name, arguments, hg, ht, hc, rfl⟩ := h
  have hs : ∀ leaf ∈ gap ++ [tag], leaf.1.silent = true := by
    intro leaf hl
    rcases mem_append.mp hl with hin | hin
    · exact hg.1 leaf hin
    · rw [mem_singleton.mp hin]
      exact ht.1
  refine ⟨?_, name, arguments, fun rest => ?_, fun afterCall rest => ?_⟩
  · have hf : freeText (gap ++ tag :: call) = freeText (gap ++ [tag]) ++ freeText call := by
      simp [freeText]
    rw [hf, freeText_silent hs, hc.silent]
    rfl
  · have hte : gap ++ tag :: call ++ rest = (gap ++ [tag]) ++ (call ++ rest) := by simp
    rw [hte, derivedCalls_append engine hs, hc.calls]
  · exact scanPending_next hg ht hc afterCall rest

def callAtoms (calls : List (Text × Json)) : List Atom := calls.map fun call => .call call.1 call.2

theorem scanPending_more {gap : List Leaf} (hg : IsGap gap) :
    ∀ parts : List (List Leaf), (∀ part ∈ parts, NextReads env tools engine part) →
      freeText (parts.flatten ++ gap) = [] ∧
        ∃ text, (∀ c ∈ text, isWhitespace c = true) ∧
          scanPending env tools ⟨spelled (parts.flatten ++ gap), false, true, none⟩
            = (⟨text, false, true, none⟩, callAtoms (engine.derivedCalls (parts.flatten ++ gap)))
  | [], _ => by
    have hn : splitOnce callStart (spelled gap) = none := by
      rw [splitOnce_eq_none_iff]
      intro hi
      have ho : '<' ∈ spelled gap := hi.subset (by decide)
      have := hg.2 _ ho
      revert this
      decide
    have hr : readyText (spelled gap) = [] := by
      exact trimEnd_space fun c hc => hg.2 c (mem_of_mem_take hc)
    refine ⟨freeText_silent hg.1, heldText (spelled gap), fun c hc => ?_, ?_⟩
    · exact hg.2 c (mem_of_mem_drop hc)
    · have hca : engine.derivedCalls gap = [] := by
        have := derivedCalls_append engine hg.1 []
        rwa [append_nil] at this
      have hs := @scanPending_text env tools ⟨spelled gap, false, true, none⟩ rfl hn
      rw [flatten_nil, nil_append, hs, hca]
      rw [hr, sayText_nil]
      rfl
  | part :: parts, h => by
    obtain ⟨hf, name, arguments, hd, hs⟩ := (h part mem_cons_self).derived
    obtain ⟨hf', text, hsp, hm⟩ := scanPending_more hg parts
      fun other hoth => h other (mem_cons_of_mem _ hoth)
    have ha : (part :: parts).flatten ++ gap = part ++ (parts.flatten ++ gap) := by simp
    refine ⟨?_, text, hsp, ?_⟩
    · have happ : freeText (part ++ (parts.flatten ++ gap))
          = freeText part ++ freeText (parts.flatten ++ gap) := by simp [freeText]
      rw [ha, happ, hf, hf']
      rfl
    · rw [ha, spelled_append, hs, hm, hd]
      rfl

/-- What an answer says: its free text, less the whitespace before a call, and its
calls. -/
def Engine.said (engine : Engine) (leaves : List Leaf) : Text :=
  if (engine.derivedCalls leaves).isEmpty then freeText leaves else trimEnd (freeText leaves)

theorem scan_answer {leaves : List Leaf} (h : IsAnswer engine tools leaves)
    (hreads : ∀ tool strict chosen call, CallLeaves engine tools tool strict chosen call →
      ∃ name arguments, ReadsBack env tools engine call name arguments) :
    ∃ s atoms, scanPending env tools ⟨spelled leaves, false, false, none⟩ = (s, atoms) ∧
      s.inCall = false ∧ s.failure = none ∧
      atoms ++ (sayText s.afterCall s.pending).2
        = (engine.said leaves).map .content ++ callAtoms (engine.derivedCalls leaves) := by
  have hn : ∀ part, IsNext engine tools part → NextReads env tools engine part := by
    rintro part ⟨gap, tag, call, tool, strict, chosen, hg, htag, hc, rfl⟩
    obtain ⟨name, arguments, hr⟩ := hreads _ _ _ _ hc
    exact ⟨gap, tag, call, name, arguments, hg, htag, hr, rfl⟩
  have hrest : ∀ text : Text, (∀ c ∈ text, isWhitespace c = true) → (sayText true text).2 = [] := by
    intro text hs
    simp [sayText, trimStart_space hs]
  cases h with
  | @text text hte =>
    have hno : splitOnce callStart text = none := splitOnce_eq_none_iff.mpr hte
    have hspell : spelled [(Terminal.text, text)] = text := by simp [spelled]
    have hsa : engine.said [(Terminal.text, text)] = text := by
      simp [Engine.said, Engine.derivedCalls, freeText]
    have hscan := @scanPending_text env tools ⟨text, false, false, none⟩ rfl hno
    rw [hspell, hsa, hscan]
    refine ⟨_, _, rfl, rfl, rfl, ?_⟩
    simp only [sayText_false, ← map_append, ready_append_held]
    simp [Engine.derivedCalls, callAtoms]
  | @free text tag call more tool strict chosen hte htag hc hm =>
    obtain ⟨name, arguments, hr⟩ := hreads _ _ _ _ hc
    obtain ⟨parts, gap, hpa, hg, rfl⟩ := hm
    obtain ⟨hf, rest, hs, hscan⟩ := scanPending_more hg parts
      fun part hp => hn part (hpa part hp)
    have hspell : spelled ((Terminal.text, text) :: tag :: (call ++ (parts.flatten ++ gap)))
        = text ++ (callStart ++ (spelled call ++ spelled (parts.flatten ++ gap))) := by
      rw [← htag.2]
      simp [spelled]
    have hsplit : splitOnce callStart
        (text ++ (callStart ++ (spelled call ++ spelled (parts.flatten ++ gap))))
          = some (text, spelled call ++ spelled (parts.flatten ++ gap)) :=
      splitOnce_of_head (by decide) hte _
    have hd : engine.derivedCalls
        ((Terminal.text, text) :: tag :: (call ++ (parts.flatten ++ gap)))
          = (name, .object arguments) :: engine.derivedCalls (parts.flatten ++ gap) := by
      have ht : engine.derivedCalls (tag :: (call ++ (parts.flatten ++ gap)))
          = engine.derivedCalls (call ++ (parts.flatten ++ gap)) := by
        have hsil : ∀ leaf ∈ [tag], leaf.1.silent = true := by simpa using htag.1
        exact derivedCalls_append engine hsil _
      rw [Engine.derivedCalls, ht, hr.calls]
      simp
    have hsa : engine.said ((Terminal.text, text) :: tag :: (call ++ (parts.flatten ++ gap)))
        = trimEnd text := by
      have ht : freeText [tag] = [] := freeText_silent (by simpa using htag.1)
      have ha : freeText ((Terminal.text, text) :: tag :: (call ++ (parts.flatten ++ gap)))
          = text ++ (freeText [tag] ++ (freeText call ++ freeText (parts.flatten ++ gap))) := by
        simp [freeText]
      rw [Engine.said, hd, ha, ht, hr.silent, hf]
      simp
    rw [hspell, hsa, hd, scanPending_start rfl hsplit]
    dsimp only
    rw [sayText_false]
    rw [scanPending_reads hr, hscan]
    refine ⟨_, _, rfl, rfl, rfl, ?_⟩
    rw [hrest rest hs, append_nil]
    rfl
  | @calls part more hp hm =>
    obtain ⟨hfreePart, name, arguments, hd, hscanPart⟩ := (hn part hp).derived
    obtain ⟨parts, gap, hpa, hg, rfl⟩ := hm
    obtain ⟨hf, rest, hs, hscan⟩ := scanPending_more hg parts
      fun part hp => hn part (hpa part hp)
    have hsa : engine.said (part ++ (parts.flatten ++ gap)) = [] := by
      have ha : freeText (part ++ (parts.flatten ++ gap))
          = freeText part ++ freeText (parts.flatten ++ gap) := by simp [freeText]
      rw [Engine.said, ha, hfreePart, hf]
      simp [trimEnd]
    rw [hsa, hd, spelled_append, hscanPart, hscan]
    refine ⟨_, _, rfl, rfl, rfl, ?_⟩
    rw [hrest rest hs, append_nil]
    rfl

/-! ### The streaming parser -/

variable {L : Type}

theorem record_hears : Hears (record (L := L)) (fun _ => True) heard :=
  ⟨fun _ _ _ _ => rfl, fun _ _ _ _ => trivial, fun log event _ _ => by simp [heard]⟩

theorem feedAll_scan (env : Env) (tools : ToolSet) (nextCallId : CallId) (pieces : List Text) :
    (feedAll L env tools nextCallId pieces).1.view = (scan env tools Scan.start pieces.flatten).1 ∧
      heard (feedAll L env tools nextCallId pieces).2
        = (scan env tools Scan.start pieces.flatten).2 := by
  induction pieces using reverseRecOn with
  | nil =>
    rw [flatten_nil, scan_start_nil]
    exact ⟨rfl, rfl⟩
  | append_singleton pieces piece ih =>
    obtain ⟨hv, hh⟩ := ih
    have hf : feedAll L env tools nextCallId (pieces ++ [piece])
        = ((feed env tools record piece (feedAll L env tools nextCallId pieces).1
              (feedAll L env tools nextCallId pieces).2).1,
            (feed env tools record piece (feedAll L env tools nextCallId pieces).1
              (feedAll L env tools nextCallId pieces).2).2.1) := by
      unfold feedAll
      rw [foldl_append]
      rfl
    have hs := feed_scan env tools record_hears piece (feedAll L env tools nextCallId pieces).1
      (k := (feedAll L env tools nextCallId pieces).2) trivial
    rw [hf, flatten_append, flatten_singleton, scan_append]
    dsimp only
    rw [← hv, ← hh]
    exact ⟨hs.view, hs.said⟩

theorem finish_pending_nil {p : ToolCallParser} (log : List (Event L)) (hf : p.failure = none)
    (hin : p.inCall = false) : (finish record .eos p log).1.pending = [] := by
  unfold finish
  rw [if_neg (by simp [hf]), if_neg (by simp [hin])]
  obtain ⟨events, afterCall, _, he⟩ := emitText_record p.pending p.consumed
    { p with pending := [], consumed := p.consumed + utf8Len p.pending } log
  rw [he]

/-- A reader of one-digit numbers, with strings that no expression constrains. -/
def digitEngine : Engine where
  expression := fun _ _ => False
  spelling := fun _ => []
  value := fun text => (digitEnv.fromStr text).toOption
  valid := fun _ _ _ => True

def openTranslators : Translators where
  searchPattern := fun _ => .error []
  larkToRegex := fun _ => .error []
  checkNonempty := fun _ => .ok ()

/-- A strict tool `say` with one string `text`. -/
def sayTool : ToolDefinition where
  name := "say".toList
  description := none
  parameters := .object [("type".toList, .string "object".toList),
    ("properties".toList, .object [("text".toList, .object
      [("type".toList, .string "string".toList)])]),
    ("required".toList, .array [.string "text".toList]),
    ("additionalProperties".toList, .bool false)]
  strict := true

def sayCompiled : ToolSet :=
  ⟨[{ definition := sayTool, strict := some (.ok ⟨[⟨"text".toList, true, .raw []⟩]⟩),
      schema := some
        { arguments := fun _ => none, additional := none,
          properties := [("text".toList,
            { validator := fun _ => true, unconstrained := true, anyString := true })] } }]⟩

/-- Free text, and a call whose value holds the tags of calls. -/
def sayLeaves : List Leaf :=
  [(.text, "hi \n".toList), (.literal callStart, callStart),
    (.header "say".toList, "\n<function=say>\n".toList),
    (.key "text".toList, "<parameter=text>\n".toList),
    (.raw [], "\n<tool_call>\n</function>\n<parameter=text>".toList),
    (.literal parameterEnd, parameterEnd), (.literal functionEnd, functionEnd),
    (.literal callEndTag, callEndTag)]

/-- Its text in two pieces, cut inside the opening tag. -/
def sayPieces : List Text := [(spelled sayLeaves).take 9, (spelled sayLeaves).drop 9]

theorem digitEngine_documented :
    Documented digitEnv (kindSchema fun _ => true) openTranslators digitEngine fun _ _ => False := by
  refine ⟨fun text value hv _ => ?_, ?_, ?_, fun _ _ _ _ _ => trivial,
    fun _ _ _ _ _ _ _ _ _ _ _ => trivial, fun _ _ _ _ _ _ => trivial, fun _ _ _ h => h.elim,
    fun _ _ _ h => h.elim, fun _ _ _ h => by cases h⟩
  · have hv : (digitEnv.fromStr text).toOption = some value := hv
    cases hr : digitEnv.fromStr text with
    | error => rw [hr] at hv; cases hv
    | ok => rw [hr] at hv; cases hv; rfl
  · intro map pointer declared validator _ _ hb text
    cases hb
    rfl
  · intro root members validator hb _ _
    cases hb
    rfl

end LocalAi.Tools
