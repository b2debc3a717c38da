import LocalAi.Prompt.Render
import LocalAi.Tools.ReadBack

/-!
# Rendered calls are read back

A call of the history is written into the prompt in the layout that the model writes its own
calls in, without any escaping.  What the parser makes of it is the call again, unless a value
holds the end of a parameter or of a call.

* `Spells`: what the schema of a parameter has to say for a value to be read back.
* `rendered_call_reads_back`: the streaming parser, however the text is cut.
-/

open List

namespace LocalAi.Prompt

open LocalAi.Lib LocalAi.Tools LocalAi.Answer
open LocalAi.Engine (StopReason)
open History (Call checkCall)

/-! ### Values -/

def valueText : Json → Text
  | .string text => text
  | value => pythonJson value

def schemaOf (tools : ToolSet) (name key : Text) : Option Parameter :=
  ((tools.get name).bind Tool.schema).bind fun schema => schema.parameter key

/-- The schema of a parameter says which value its text is: a string's constrains it and accepts
it; any other value's, if it constrains it, accepts the value and not the text. -/
def Spells (schema : Option Parameter) : Json → Prop
  | .string text => ∃ parameter ∈ schema, parameter.unconstrained = false ∧
      parameter.validator (.string text) = true
  | value => ∀ parameter ∈ schema, parameter.unconstrained = true ∨
      parameter.validator (.string (pythonJson value)) = false ∧ parameter.validator value = true

/-- Neither the end of a parameter nor that of a call stands in `text`. -/
structure Untagged (text : Text) : Prop where
  parameter : ¬ "</parameter>".toList <:+: text
  call : ¬ callEndTag <:+: text

theorem convert_valueText {env : Env} {schema : Option Parameter} {value : Json}
    (hr : value.asStr = none → env.fromStr (pythonJson value) = .ok value)
    (h : Spells schema value) : convert env (valueText value) schema = value := by
  have ho : env.fromStr (pythonJson value) = .ok value → (∀ parameter ∈ schema, parameter.unconstrained = true ∨
      parameter.validator (.string (pythonJson value)) = false ∧ parameter.validator value = true) →
      convert env (pythonJson value) schema = value := by
    intro hr hs
    cases schema with
    | none => simp [convert, hr, Except.toOption]
    | some parameter =>
      by_cases hf : parameter.unconstrained = true
      · simp [convert, hr, Except.toOption, hf]
      · obtain ⟨ht, hv⟩ := (hs parameter rfl).resolve_left hf
        simp [convert, hr, Except.toOption, hf, ht, hv]
  cases value with
  | string =>
    obtain ⟨parameter, hs, hf, ha⟩ := h
    rw [Option.mem_def] at hs
    simp [convert, valueText, hs, hf, ha]
  | _ => exact ho (hr rfl) h

/-! ### Parameters -/

section Parameters

variable {env : Env} {tools : ToolSet} {name : Text}

theorem renderParameter_text (entry : Text × Json) : renderParameter entry =
    "<parameter=".toList ++ entry.1 ++ ">\n".toList ++ valueText entry.2 ++
      "\n</parameter>\n".toList := by
  obtain ⟨key, value⟩ := entry
  cases value <;> rfl

theorem renderParameter_eq (entry : Text × Json) : renderParameter entry =
    "<parameter=".toList ++ (entry.1 ++ '>' :: '\n' :: (valueText entry.2 ++
      '\n' :: ("</parameter>".toList ++ ['\n']))) := by
  have ho : ">\n".toList = ['>', '\n'] := rfl
  have hc : "\n</parameter>\n".toList = '\n' :: ("</parameter>".toList ++ ['\n']) := rfl
  rw [renderParameter_text, ho, hc]
  simp only [append_assoc, cons_append, nil_append]

theorem parseParameters_render {arguments : List (Text × Json)}
    (hn : ∀ entry ∈ arguments, validParameterName entry.1 = true)
    (hr : ∀ entry ∈ arguments, entry.2.asStr = none →
      env.fromStr (pythonJson entry.2) = .ok entry.2)
    (hs : ∀ entry ∈ arguments, Spells (schemaOf tools name entry.1) entry.2)
    (ht : ∀ entry ∈ arguments, Untagged (valueText entry.2)) (fuel : Nat)
    (hf : arguments.length < fuel) (front : List (Text × Json))
    (hnd : ((front ++ arguments).map Prod.fst).Nodup) :
    parseParameters env (tools.get name) fuel ('\n' :: arguments.flatMap renderParameter) front =
      .ok (front ++ arguments) := by
  induction arguments generalizing fuel front with
  | nil =>
    obtain ⟨fuel, rfl⟩ : ∃ n, fuel = n + 1 := ⟨fuel - 1, by omega⟩
    rw [append_nil]
    rfl
  | cons entry arguments ih =>
    obtain ⟨fuel, rfl⟩ : ∃ n, fuel = n + 1 := ⟨fuel - 1, by omega⟩
    rw [forall_mem_cons] at hn hr hs ht
    set rest := arguments.flatMap renderParameter with hre
    have hk : '>' ∉ entry.1 := by
      intro hm
      have hna := hn.1
      simp only [validParameterName, Bool.and_eq_true, Bool.not_eq_true', any_eq_false] at hna
      have := hna.2 _ hm
      revert this
      decide
    have hte : (entry :: arguments).flatMap renderParameter = "<parameter=".toList ++
        (entry.1 ++ '>' :: '\n' :: (valueText entry.2 ++
          '\n' :: ("</parameter>".toList ++ '\n' :: rest))) := by
      rw [flatMap_cons, ← hre, renderParameter_eq]
      simp only [append_assoc, cons_append, nil_append]
    have htr : trimStart ('\n' :: (entry :: arguments).flatMap renderParameter) =
        (entry :: arguments).flatMap renderParameter := by
      rw [hte]
      rfl
    have hsp : splitOnce "</parameter>".toList (valueText entry.2 ++
        '\n' :: ("</parameter>".toList ++ '\n' :: rest)) =
          some (valueText entry.2 ++ ['\n'], '\n' :: rest) := by
      rw [splitOnce_guard (by decide) (by decide) ht.1.parameter,
        splitOnce_of_isPrefix (prefix_append _ _), drop_left]
      rfl
    have hnew : front.any (fun other => other.1 == entry.1) = false := by
      rw [any_eq_false]
      intro other hoth heq
      rw [map_append, nodup_append] at hnd
      exact hnd.2.2 _ (mem_map_of_mem hoth) _ mem_cons_self (by simpa using heq)
    have hc : convert env (valueText entry.2) (schemaOf tools name entry.1) = entry.2 :=
      convert_valueText hr.1 hs.1
    have ho : stripPrefix "<parameter=".toList ((entry :: arguments).flatMap renderParameter) =
        some (entry.1 ++ '>' :: '\n' :: (valueText entry.2 ++
          '\n' :: ("</parameter>".toList ++ '\n' :: rest))) :=
      stripPrefix_eq_some.mpr hte
    have hna : splitOnce ['>'] (entry.1 ++ '>' :: '\n' :: (valueText entry.2 ++
        '\n' :: ("</parameter>".toList ++ '\n' :: rest))) = some (entry.1,
          '\n' :: (valueText entry.2 ++ '\n' :: ("</parameter>".toList ++ '\n' :: rest))) :=
      splitOnce_singleton_eq_some.mpr ⟨rfl, hk⟩
    have he : ∀ error : Text, ensure (!front.any fun other => other.1 == entry.1) error = .ok () :=
      fun error => ensure_eq_ok.mpr (by rw [hnew]; rfl)
    have hsk : ∀ text, skipNewline ('\n' :: text) = text := fun _ => rfl
    have hsch : ((tools.get name).bind Tool.schema).bind (fun schema => schema.parameter entry.1) =
        schemaOf tools name entry.1 := rfl
    have hnext := ih hn.2 hr.2 hs.2 ht.2 fuel
      (by rw [length_cons] at hf; omega) (front ++ [entry])
      (by rwa [append_assoc, singleton_append])
    rw [append_assoc, singleton_append] at hnext
    rw [parseParameters, htr, if_neg (by rw [hte]; exact Bool.false_ne_true)]
    simp only [ho, Option.elim_some, bind, Except.bind, hna, checkParameterName_eq_ok.mpr hn.1,
      hsk, hsp, he, dropNewline_concat, hsch, hc]
    exact hnext

end Parameters

/-! ### Blocks -/

/-- The block of a rendered call, between its tags. -/
def callBlock (name : Text) (arguments : List (Text × Json)) : Text :=
  functionOpen ++ (name ++ '>' :: '\n' :: (arguments.flatMap renderParameter ++ functionEnd))

theorem renderCall_eq {call : Call} {arguments : List (Text × Json)}
    (h : call.arguments = .object arguments) :
    renderCall call = callStart ++ (callBlock call.name arguments ++ callEndTag) := by
  have ho : "<tool_call>\n<function=".toList = callStart ++ functionOpen := rfl
  have hl : ">\n".toList = ['>', '\n'] := rfl
  have hc : "</function>\n</tool_call>".toList = functionEnd ++ callEndTag := rfl
  have hca : renderCall call = "<tool_call>\n<function=".toList ++ call.name ++ ">\n".toList ++
      arguments.flatMap renderParameter ++ "</function>\n</tool_call>".toList := by
    unfold renderCall
    rw [h]
  rw [hca, callBlock, ho, hl, hc]
  simp only [append_assoc, cons_append, nil_append]

theorem passes_renderParameter {entry : Text × Json} (hn : validParameterName entry.1 = true)
    (htag : ¬ callEndTag <:+: valueText entry.2) : Passes callEndTag (renderParameter entry) := by
  have hk : Passes callEndTag entry.1 :=
    .of_notMem (notMem_of_validParameterName hn (.inl rfl))
  have ho : Passes callEndTag "<parameter=".toList := .of_clash (by decide)
  have hl : Passes callEndTag ">\n".toList := .of_clash (by decide)
  have hc : Passes callEndTag "</parameter>\n".toList := .of_clash (by decide)
  have hv : Passes callEndTag (valueText entry.2 ++ ['\n']) :=
    .of_guard (by decide) (by decide) htag
  have ht : renderParameter entry = "<parameter=".toList ++ (entry.1 ++ (">\n".toList ++
      (valueText entry.2 ++ ['\n'] ++ "</parameter>\n".toList))) := by
    have ho : ">\n".toList = ['>', '\n'] := rfl
    have hc : "</parameter>\n".toList = "</parameter>".toList ++ ['\n'] := rfl
    rw [renderParameter_eq, ho, hc]
    simp only [append_assoc, cons_append, nil_append]
  rw [ht]
  exact ho.append (hk.append (hl.append (hv.append hc)))

section Blocks

variable {env : Env} {tools : ToolSet} {name : Text} {arguments : List (Text × Json)}

theorem checkCall_names {call : Call} (h : checkCall env tools call = .ok ())
    (ha : call.arguments = .object arguments) :
    validToolName call.name = true ∧ ∀ entry ∈ arguments, validParameterName entry.1 = true := by
  obtain ⟨_, hna, h⟩ := bind_eq_ok.mp h
  rw [ha] at h
  obtain ⟨_, hn, -⟩ := bind_eq_ok.mp h
  refine ⟨checkToolName_eq_ok.mp hna, ?_⟩
  clear * - hn
  induction arguments with
  | nil => exact fun entry he => absurd he not_mem_nil
  | cons entry arguments ih =>
    obtain ⟨_, he, hr⟩ := bind_eq_ok.mp hn
    exact forall_mem_cons.mpr ⟨checkParameterName_eq_ok.mp he, ih hr⟩

theorem callEnd_render (hn : validToolName name = true)
    (hf : ∀ tool, tools.get name = some tool → tool.strict = none)
    (hna : ∀ entry ∈ arguments, validParameterName entry.1 = true)
    (ht : ∀ entry ∈ arguments, Untagged (valueText entry.2)) (rest : Text) :
    callEnd (callBlock name arguments ++ (callEndTag ++ rest)) tools =
      some (callBlock name arguments, rest, callEndTag, none) := by
  have hh : strictHeader tools (callBlock name arguments ++ (callEndTag ++ rest)) = none := by
    have ho : stripPrefix functionOpen (callBlock name arguments ++ (callEndTag ++ rest)) =
        some (name ++ '>' :: ('\n' :: (arguments.flatMap renderParameter ++ functionEnd) ++
          (callEndTag ++ rest))) := by
      rw [stripPrefix_eq_some, callBlock]
      simp only [append_assoc, cons_append]
    unfold strictHeader
    split
    · rw [ho, Option.bind_some,
        splitOnce_singleton_eq_some.mpr ⟨rfl, notMem_of_validToolName hn (by decide)⟩]
      rw [Option.bind_some, Option.filter_eq_none_iff]
      intro tool hto
      rw [hf tool hto]
      exact Bool.false_ne_true
    · rfl
  have hp : Passes callEndTag (callBlock name arguments) := by
    have ho : Passes callEndTag functionOpen := .of_clash (by decide)
    have hn : Passes callEndTag name := .of_notMem (notMem_of_validToolName hn (by decide))
    have hl : Passes callEndTag ['>', '\n'] := .of_clash (by decide)
    have hc : Passes callEndTag functionEnd := .of_clash (by decide)
    have hpa : Passes callEndTag (arguments.flatMap renderParameter) :=
      .flatMap fun entry he => passes_renderParameter (hna entry he) (ht entry he).call
    exact ho.append (hn.append (hl.append (hpa.append hc)))
  rw [callEnd_eq, hh]
  rw [hp.splitOnce, Option.map_some]

theorem parseCall_render (hn : validToolName name = true)
    (hf : ∀ tool, tools.get name = some tool → tool.strict = none)
    (hnd : (arguments.map Prod.fst).Nodup)
    (hna : ∀ entry ∈ arguments, validParameterName entry.1 = true)
    (hr : ∀ entry ∈ arguments, entry.2.asStr = none →
      env.fromStr (pythonJson entry.2) = .ok entry.2)
    (hs : ∀ entry ∈ arguments, Spells (schemaOf tools name entry.1) entry.2)
    (hta : ∀ entry ∈ arguments, Untagged (valueText entry.2)) :
    parseCall env (callBlock name arguments) tools = .ok (name, arguments) := by
  set parameters := arguments.flatMap renderParameter with hp
  have htr : trim (callBlock name arguments) = "<function=".toList ++
      (name ++ '>' :: '\n' :: parameters ++ "</function>".toList) := by
    have hstart : trimStart (callBlock name arguments) = "<function=".toList ++
        (name ++ '>' :: '\n' :: parameters) ++ "</function>\n".toList := by
      have hte : callBlock name arguments = '\n' :: ("<function=".toList ++
          (name ++ '>' :: '\n' :: parameters) ++ "</function>\n".toList) := by
        have ho : functionOpen = '\n' :: "<function=".toList := rfl
        rw [callBlock, ho, ← hp]
        simp only [append_assoc, cons_append]
        rfl
      rw [hte]
      rfl
    rw [trim, hstart, (trimEnd_functionEnd _).2, append_assoc]
  have ho : stripPrefix "<function=".toList (trim (callBlock name arguments)) =
      some (name ++ '>' :: '\n' :: parameters ++ "</function>".toList) :=
    stripPrefix_eq_some.mpr htr
  have hsp : splitOnce ['>'] (name ++ '>' :: '\n' :: parameters ++ "</function>".toList) =
      some (name, '\n' :: parameters ++ "</function>".toList) := by
    rw [splitOnce_singleton_eq_some]
    refine ⟨?_, notMem_of_validToolName hn (by decide)⟩
    simp only [append_assoc, cons_append]
  have hc : stripSuffix "</function>".toList
      (trimEnd ('\n' :: parameters ++ "</function>".toList)) = some ('\n' :: parameters) := by
    rw [(trimEnd_functionEnd _).1]
    exact stripSuffix_eq_some.mpr rfl
  have hlen : arguments.length < ('\n' :: parameters).length + 1 := by
    have hle : arguments.length ≤ parameters.length := by
      rw [hp, length_flatMap]
      have hone : ∀ entry : Text × Json, 1 ≤ (renderParameter entry).length := by
        intro entry
        rw [renderParameter_eq, length_append]
        have : "<parameter=".toList.length = 11 := rfl
        omega
      clear * - hone
      induction arguments with
      | nil => exact le_rfl
      | cons entry =>
        rw [length_cons, map_cons, sum_cons]
        have := hone entry
        omega
    rw [length_cons]
    omega
  have hl := parseParameters_render hna hr hs hta _ hlen [] hnd
  rw [← hp, nil_append] at hl
  have hstrict : validateStrict env (tools.get name) name arguments = .ok () := by
    unfold validateStrict
    cases ht : tools.get name with
    | none => rfl
    | some tool => rw [Option.filter_some, hf tool ht]; rfl
  rw [parseCall]
  simp only [ho, Option.elim_some, bind, Except.bind, hsp, hc,
    checkToolName_eq_ok.mpr hn, hl, hstrict]

theorem scan_render {call : Call} (hc : checkCall env tools call = .ok ())
    (ha : call.arguments = .object arguments) (hnd : (arguments.map Prod.fst).Nodup)
    (hf : ∀ tool, tools.get call.name = some tool → tool.strict = none)
    (hr : ∀ entry ∈ arguments, entry.2.asStr = none →
      env.fromStr (pythonJson entry.2) = .ok entry.2)
    (hs : ∀ entry ∈ arguments, Spells (schemaOf tools call.name entry.1) entry.2)
    (ht : ∀ entry ∈ arguments, Untagged (valueText entry.2)) :
    scan env tools Scan.start (renderCall call) =
      (⟨[], false, true, none⟩, [.call call.name (.object arguments)]) := by
  obtain ⟨hna, hn⟩ := checkCall_names hc ha
  have hst : splitOnce callStart (renderCall call) =
      some ([], callBlock call.name arguments ++ callEndTag) := by
    rw [renderCall_eq ha, splitOnce_of_isPrefix (prefix_append _ _), drop_left]
  have he := callEnd_render hna hf hn ht []
  rw [append_nil] at he
  have hre := parseCall_render hna hf hnd hn hr hs ht
  have hno : splitOnce callStart ([] : Text) = none := rfl
  rw [scan_of_running rfl]
  rw [scanPending_start rfl hst]
  dsimp only
  rw [scanPending_call rfl he, parseBlock]
  rw [hre]
  rw [scanPending_text rfl hno]
  rfl

end Blocks

/-! ### The streaming parser -/

/-- **A rendered call is read back**, however its text is cut, when no value holds the end of a
parameter or of a call. -/
theorem rendered_call_reads_back {L : Type} {env : Env} {tools : ToolSet} {call : Call}
    {arguments : List (Text × Json)} (hcall : checkCall env tools call = .ok ())
    (harguments : call.arguments = .object arguments) (hnodup : (arguments.map Prod.fst).Nodup)
    (hfree : ∀ tool, tools.get call.name = some tool → tool.strict = none)
    (hreads : ∀ entry ∈ arguments, entry.2.asStr = none →
      env.fromStr (pythonJson entry.2) = .ok entry.2)
    (hspells : ∀ entry ∈ arguments, Spells (schemaOf tools call.name entry.1) entry.2)
    (htags : ∀ entry ∈ arguments, Untagged (valueText entry.2)) (nextCallId : CallId)
    (reason : StopReason) {pieces : List Text} (hpieces : pieces.flatten = renderCall call) :
    let fed := feedAll L env tools nextCallId pieces
    let out := finish record reason fed.1 fed.2
    out.1.failure = none ∧ visible out.2.1 = [.inr (call.name, .object arguments)] ∧
      toolCalls out.2.1 = [(call.name, .object arguments)] ∧ contentText out.2.1 = [] := by
  intro fed out
  obtain ⟨hv, hh⟩ := feedAll_scan (L := L) env tools nextCallId pieces
  rw [hpieces, scan_render hcall harguments hnodup hfree hreads hspells htags] at hv hh
  obtain ⟨hf, _, hsa⟩ := finish_scan record_hears reason fed.1 (k := fed.2) trivial
  have he : scanEnd reason fed.1.view = (none, []) := by
    rw [hv]
    rfl
  have hs : heard out.2.1 = [.call call.name (.object arguments)] := by
    rw [hsa, hh, he, append_nil]
  have hvis : visible out.2.1 = [.inr (call.name, .object arguments)] := by
    rw [visible_eq, hs]
    rfl
  refine ⟨by rw [hf, he], hvis, ?_, ?_⟩
  · rw [toolCalls_eq, hvis]
    rfl
  · rw [contentText_eq, hvis]
    rfl

/-- A text full of layout, and a number without a schema. -/
def layoutCall : Call :=
  ⟨"c".toList, "set".toList, .object
    [("k".toList, .string "\n <tool_call>\n</function>\n<parameter=k>\n\"".toList),
      ("n".toList, .number "7".toList)]⟩

theorem layout_reads_back :
    let fed := feedAll Unit digitEnv (setCompiled ["string"] fun value => value.asStr.isSome) 0
      [(renderCall layoutCall).take 30, (renderCall layoutCall).drop 30]
    let out := finish record .eos fed.1 fed.2
    out.1.failure = none ∧ visible out.2.1 = [.inr (layoutCall.name, layoutCall.arguments)] ∧
      toolCalls out.2.1 = [(layoutCall.name, layoutCall.arguments)] ∧
      contentText out.2.1 = [] := by
  refine rendered_call_reads_back (by decide) rfl (by decide) ?_ ?_ ?_ ?_ 0 .eos ?_
  · intro tool ht
    cases ht
    rfl
  · intro entry he hv
    simp only [mem_cons, not_mem_nil, or_false] at he
    rcases he with rfl | rfl
    · cases hv
    · rfl
  · intro entry he
    simp only [mem_cons, not_mem_nil, or_false] at he
    rcases he with rfl | rfl
    · exact ⟨_, rfl, rfl, rfl⟩
    · intro parameter hp
      cases hp
  · intro entry he
    simp only [mem_cons, not_mem_nil, or_false] at he
    rcases he with rfl | rfl
    · exact ⟨by decide, by decide⟩
    · exact ⟨by decide, by decide⟩
  · show _ ++ (_ ++ []) = _
    rw [append_nil, take_append_drop]

def tagEnv : Env where
  fromStr := fun text =>
    if text = "[\"</parameter>\"]".toList then .ok (.array [.string "</parameter>".toList])
    else .error []
  debug := quote

/-- An array that holds the end of a parameter. -/
def tagCall : Call :=
  ⟨"c".toList, "set".toList, .object [("k".toList, .array [.string "</parameter>".toList])]⟩

theorem tagged_array_lost : checkCall tagEnv (setCompiled allKinds fun _ => true) tagCall = .ok () ∧
      tagEnv.fromStr (pythonJson (.array [.string "</parameter>".toList])) =
        .ok (.array [.string "</parameter>".toList]) ∧
      Spells (schemaOf (setCompiled allKinds fun _ => true) tagCall.name "k".toList)
        (.array [.string "</parameter>".toList]) ∧
      toolCalls (finish record .eos
        (feedAll Unit tagEnv (setCompiled allKinds fun _ => true) 0 [renderCall tagCall]).1
        (feedAll Unit tagEnv (setCompiled allKinds fun _ => true) 0 [renderCall tagCall]).2).2.1 =
          [] := by
  refine ⟨by decide, rfl, ?_, rfl⟩
  intro parameter hp
  cases hp
  exact .inl rfl

end LocalAi.Prompt
