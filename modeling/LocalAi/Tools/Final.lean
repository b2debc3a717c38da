import LocalAi.Tools.Compile
import LocalAi.Tools.Pieces

/-!
# The pieces of a finished call

What `parse_call` and `parse_strict` make of a call, written as pieces, and the
certain pieces of the text they read.

* `parseParameters_certain`: a call of a non-strict tool has exactly the pieces
  of its arguments.
* `parseStrictParameters_certain`: a call in a strict tool's layout has a
  beginning of them.  It can be short: a JSON string may hold `</parameter>`.
-/

open List

namespace LocalAi.Tools

open LocalAi.Lib

def finalPiece (tool : Tool) (count : Nat) (key : Text) (value : Json) : Piece :=
  ⟨openJson count key ++ value.toText,
    if streamsText tool key = some true then value.asStr.map fun text => (key, text) else none⟩

def finalPieces (tool : Tool) (arguments : List (Text × Json)) : List Piece :=
  ⟨['\x7b'], none⟩ :: arguments.zipIdx.map fun entry =>
    finalPiece tool (entry.2 + 1) entry.1.1 entry.1.2

@[simp] theorem length_finalPieces (tool : Tool) (arguments : List (Text × Json)) :
    (finalPieces tool arguments).length = arguments.length + 1 := by
  simp [finalPieces]

theorem finalPieces_ne_nil (tool : Tool) (arguments : List (Text × Json)) :
    finalPieces tool arguments ≠ [] := by
  simp [finalPieces]

theorem finalPieces_concat (tool : Tool) (arguments : List (Text × Json)) (key : Text)
    (value : Json) : finalPieces tool (arguments ++ [(key, value)])
      = finalPieces tool arguments ++ [finalPiece tool (arguments.length + 1) key value] := by
  simp [finalPieces, zipIdx_append]

theorem finalPieces_isPrefix (tool : Tool) {before after : List (Text × Json)}
    (h : before <+: after) : finalPieces tool before <+: finalPieces tool after := by
  obtain ⟨more, rfl⟩ := h
  unfold finalPieces
  rw [zipIdx_append, map_append, ← cons_append]
  exact prefix_append _ _

theorem membersText_concat (arguments : List (Text × Json)) (key : Text) (value : Json) :
    membersText (arguments ++ [(key, value)])
      = membersText arguments ++ openJson (arguments.length + 1) key ++ value.toText := by
  induction arguments with
  | nil => simp [membersText, openJson]
  | cons entry arguments ih =>
    obtain ⟨key', value'⟩ := entry
    cases arguments with
    | nil => simp [membersText, openJson]
    | cons =>
      rw [cons_append, cons_append, membersText, ← cons_append, ih, membersText]
      simp [openJson]

theorem finalPieces_json (tool : Tool) (arguments : List (Text × Json)) :
    (finalPieces tool arguments).flatMap Piece.json = '\x7b' :: membersText arguments := by
  induction arguments using reverseRecOn with
  | nil => rfl
  | append_singleton arguments entry ih =>
    obtain ⟨key, value⟩ := entry
    rw [finalPieces_concat, flatMap_append, ih, membersText_concat]
    simp [finalPiece]

variable {arguments : List (Text × Json)} {key name : Text} {strict : StrictTool}
  {item : Text × Text}

theorem mem_finalPieces {tool : Tool} {piece : Piece} {text : Text}
    (h : piece ∈ finalPieces tool arguments) (ht : piece.text = some (key, text)) :
    (key, .string text) ∈ arguments := by
  rcases mem_cons.mp h with rfl | hm
  · cases ht
  · obtain ⟨⟨⟨key', value⟩, index⟩, hent, rfl⟩ := mem_map.mp hm
    simp only [finalPiece] at ht
    split at ht
    · obtain ⟨text', hs, heq⟩ := Option.map_eq_some_iff.mp ht
      cases heq
      have hv : value = .string text := by
        cases value with
        | string => cases hs; rfl
        | _ => cases hs
      rw [← hv]
      exact fst_mem_of_mem_zipIdx hent
    · cases ht

/-! ### Finished parameters -/

variable {env : Env} {tool : Tool}

variable {textMode : Bool} {value : Json} {next raw rest block : Text} {seen : List Text}
  {tools : ToolSet}

theorem written_finished {after : Text} (hh : parameterHeader rest = some (key, after))
    (hm : streamsText tool key = some textMode) (hv : validParameterName key = true)
    (hse : seen.contains key = false)
    (hs : splitOnce "</parameter>".toList (skipNewline after) = some (raw, next))
    (hval : finishedValue env tool key (dropNewline raw) = some value) :
    written env tool rest seen = .finished key (dropNewline raw) textMode value next := by
  have ha : after.isEmpty = false := by
    cases after with
    | nil => cases hs
    | cons => rfl
  unfold written
  simp only [hh, hm, hv, hse, ha, hs, hval, Bool.not_true, Bool.or_self,
    Bool.false_eq_true, if_false]

theorem written_refused {after : Text} (hh : parameterHeader rest = some (key, after))
    (hm : streamsText tool key = some textMode) (hv : validParameterName key = true)
    (hse : seen.contains key = false)
    (hs : splitOnce "</parameter>".toList (skipNewline after) = some (raw, next))
    (hval : finishedValue env tool key (dropNewline raw) = none) :
    written env tool rest seen = .refused key := by
  have ha : after.isEmpty = false := by
    cases after with
    | nil => cases hs
    | cons => rfl
  unfold written
  simp only [hh, hm, hv, hse, ha, hs, hval, Bool.not_true, Bool.or_self,
    Bool.false_eq_true, if_false]

theorem certainLoop_finished (hs : TextSound env tool)
    (h : written env tool rest seen = .finished key raw textMode value next) (fuel : Nat) :
    certainLoop env tool (fuel + 1) rest seen (finalPieces tool arguments)
      = certainLoop env tool fuel next (key :: seen)
          (finalPieces tool (arguments ++ [(key, value)])) := by
  obtain ⟨_, _, _, _, _, hm, hv⟩ := written_eq_finished h
  have ht : (if textMode = true then some (key, raw) else none)
      = (finalPiece tool (arguments.length + 1) key value).text := by
    cases textMode with
    | false => simp [finalPiece, hm]
    | true =>
      have hstr := hs key raw hm
      rw [hv] at hstr
      cases hstr
      simp [finalPiece, hm, Json.asStr]
  rw [certainLoop, h, finalPieces_concat]
  dsimp only
  rw [ht, length_finalPieces]
  rfl

theorem certainLoop_end (h : parameterHeader rest = none) (fuel : Nat)
    (seen : List Text) (pieces : List Piece) :
    certainLoop env tool fuel rest seen pieces = pieces := by
  cases fuel with
  | zero => rfl
  | succ =>
    rw [certainLoop, written, h]

/-! ### Calls of non-strict tools -/

theorem parameterHeader_functionEnd (h : trimStart rest = []) (tail : Text) :
    parameterHeader (rest ++ ("</function>".toList ++ tail)) = none := by
  have ht : trimStart (rest ++ ("</function>".toList ++ tail)) = "</function>".toList ++ tail := by
    unfold trimStart at h ⊢
    rw [dropWhile_append, h]
    rfl
  unfold parameterHeader
  rw [ht]
  rfl

theorem parseParameters_certain (hso : TextSound env tool) (hs : tool.strict = none) :
    ∀ (fuel : Nat) (rest : Text) (arguments result : List (Text × Json)) (tail : Text)
      (seen : List Text) (fuel' : Nat),
      parseParameters env (some tool) fuel rest arguments = .ok result →
      (∀ key, seen.contains key = arguments.any fun entry => entry.1 == key) →
      (rest ++ ("</function>".toList ++ tail)).length < fuel' →
      certainLoop env tool fuel' (rest ++ ("</function>".toList ++ tail)) seen
        (finalPieces tool arguments) = finalPieces tool result := by
  intro fuel
  induction fuel with
  | zero => intro rest arguments result tail seen fuel' h; cases h
  | succ fuel ih =>
    intro rest arguments result tail seen fuel' h hse hlt
    rw [parseParameters] at h
    split at h
    · next he =>
      cases h
      exact certainLoop_end (parameterHeader_functionEnd (isEmpty_iff.mp he) tail) _ _ _
    · obtain ⟨parameter, hp, h⟩ := bind_eq_ok.mp h
      obtain ⟨⟨key, after⟩, hk, h⟩ := bind_eq_ok.mp h
      obtain ⟨_, hn, h⟩ := bind_eq_ok.mp h
      obtain ⟨⟨raw, next⟩, hr, h⟩ := bind_eq_ok.mp h
      obtain ⟨_, hd, h⟩ := bind_eq_ok.mp h
      obtain ⟨fuel', rfl⟩ : ∃ n, fuel' = n + 1 := ⟨fuel' - 1, by omega⟩
      have hh : parameterHeader rest = some (key, after) :=
        Option.bind_eq_some_iff.mpr ⟨parameter, elim_eq_ok.mp hp, elim_eq_ok.mp hk⟩
      have hsp := elim_eq_ok.mp hr
      have ha : after ≠ [] := by
        rintro rfl
        cases hsp
      have hmo : splitOnce "</parameter>".toList
          (skipNewline (after ++ ("</function>".toList ++ tail)))
            = some (raw, next ++ ("</function>".toList ++ tail)) := by
        rw [skipNewline_append ha]
        exact splitOnce_append hsp _
      have hv : finishedValue env tool key (dropNewline raw)
          = some (convert env (dropNewline raw)
            ((Option.bind (some tool) Tool.schema).bind fun schema => schema.parameter key)) := by
        simp [finishedValue, hs]
      obtain ⟨textMode, hm⟩ : ∃ textMode, streamsText tool key = some textMode := by
        simp [streamsText, hs]
      have hnew : seen.contains key = false := by
        rw [hse]
        simpa only [Bool.not_eq_true'] using ensure_eq_ok.mp hd
      have hw := written_finished (parameterHeader_append hh _) hm
        (checkParameterName_eq_ok.mp hn) hnew hmo hv
      rw [certainLoop_finished hso hw]
      refine ih _ _ _ tail _ fuel' h ?_ ?_
      · intro other
        rw [contains_cons, hse, any_append]
        simp [Bool.or_comm, Bool.beq_comm]
      · have := written_length hw
        omega

theorem trimEnd_isPrefix (text : Text) : trimEnd text <+: text := rdropWhile_prefix _ _

theorem parseCall_eq_ok (h : parseCall env block tools = .ok (name, arguments)) :
    ∃ rest tail, functionHeader block = some (name, rest ++ ("</function>".toList ++ tail)) ∧
      parseParameters env (tools.get name) (rest.length + 1) rest [] = .ok arguments := by
  obtain ⟨body, hb, h⟩ := bind_eq_ok.mp h
  obtain ⟨⟨name', body₁⟩, hn, h⟩ := bind_eq_ok.mp h
  obtain ⟨rest, hr, h⟩ := bind_eq_ok.mp h
  obtain ⟨_, _, h⟩ := bind_eq_ok.mp h
  obtain ⟨arguments', ha, h⟩ := bind_eq_ok.mp h
  obtain ⟨_, _, h⟩ := bind_eq_ok.mp h
  cases h
  -- the text after the name, with the whitespace that was trimmed
  obtain ⟨space, hs⟩ := trimEnd_isPrefix (trimStart block)
  obtain ⟨space', hs'⟩ := trimEnd_isPrefix body₁
  refine ⟨rest, space' ++ space, ?_, ha⟩
  have ho : stripPrefix "<function=".toList (trimStart block) = some (body ++ space) := by
    rw [stripPrefix_eq_some, ← hs, ← append_assoc]
    congr 1
    exact stripPrefix_eq_some.mp (elim_eq_ok.mp hb)
  have ht : body₁ ++ space = rest ++ ("</function>".toList ++ (space' ++ space)) := by
    rw [← hs', stripSuffix_eq_some.mp (elim_eq_ok.mp hr)]
    simp only [append_assoc]
  rw [functionHeader, ho, Option.bind_some, ← ht]
  exact splitOnce_append (elim_eq_ok.mp hn) space

theorem parseCall_certain
    (h : parseCall env block tools = .ok (name, arguments)) (ht : tools.get name = some tool)
    (hs : tool.strict = none) (hso : TextSound env tool) (more : Text) :
    certain env (block ++ more) tools = some (name, finalPieces tool arguments) := by
  obtain ⟨rest, tail, hh, ha⟩ := parseCall_eq_ok h
  rw [ht] at ha
  have hte : rest ++ ("</function>".toList ++ tail) ++ more
      = rest ++ ("</function>".toList ++ (tail ++ more)) := by
    simp only [append_assoc]
  rw [certain, functionHeader_append hh more, hte]
  dsimp only
  rw [ht, Option.map_some]
  have hl := parseParameters_certain hso hs _ rest [] arguments (tail ++ more) []
    _ ha (fun _ => rfl) (Nat.lt_succ_self _)
  exact congrArg (fun pieces => some (name, pieces)) hl

theorem nodup_concat (value : Json) (hn : (!arguments.any fun entry => entry.1 == key) = true)
    (h : (arguments.map Prod.fst).Nodup) : ((arguments ++ [(key, value)]).map Prod.fst).Nodup := by
  rw [map_append, map_singleton, nodup_append]
  refine ⟨h, by simp, ?_⟩
  intro other ho key' hk heq
  obtain ⟨entry, hent, rfl⟩ := mem_map.mp ho
  rw [mem_singleton.mp hk] at heq
  have hin : (arguments.any fun entry => entry.1 == key) = true :=
    any_eq_true.mpr ⟨entry, hent, beq_iff_eq.mpr heq⟩
  rw [hin] at hn
  cases hn

theorem parseParameters_nodup {tool : Option Tool} :
    ∀ (fuel : Nat) (rest : Text) (arguments result : List (Text × Json)),
      parseParameters env tool fuel rest arguments = .ok result →
      (arguments.map Prod.fst).Nodup → (result.map Prod.fst).Nodup := by
  intro fuel
  induction fuel with
  | zero => intro rest arguments result h; cases h
  | succ fuel ih =>
    intro rest arguments result h hnd
    rw [parseParameters] at h
    split at h
    · cases h
      exact hnd
    · obtain ⟨parameter, _, h⟩ := bind_eq_ok.mp h
      obtain ⟨⟨key, after⟩, _, h⟩ := bind_eq_ok.mp h
      obtain ⟨_, _, h⟩ := bind_eq_ok.mp h
      obtain ⟨⟨raw, next⟩, _, h⟩ := bind_eq_ok.mp h
      obtain ⟨_, hd, h⟩ := bind_eq_ok.mp h
      exact ih _ _ _ h (nodup_concat _ (ensure_eq_ok.mp hd) hnd)

/-! ### Calls of strict tools -/

/-- One parameter in a strict tool's layout. -/
def strictItem (item : Text × Text) : Text :=
  parameterOpen ++ (item.1 ++ (">\n".toList ++ (item.2 ++ parameterClose)))

/-- A value the grammar admits: raw text without the tags that close it, or JSON
on one line. -/
def StrictTool.Admits (strict : StrictTool) (item : Text × Text) : Prop :=
  ∃ parameter, strict.parameter item.1 = some parameter ∧
    match parameter.value with
    | .raw _ => ¬ "</parameter>".toList <:+: item.2 ∧ ¬ callEndTag <:+: item.2
    | .json _ => '\n' ∉ item.2

def StrictLayout (tool : Tool) (block : Text) : Prop :=
  ∃ (strict : StrictTool) (items : List (Text × Text)), tool.strict = some (.ok strict) ∧
    block = functionOpen ++ tool.definition.name ++ ['>'] ++ items.flatMap strictItem ∧
    ∀ item ∈ items, strict.Admits item

def JsonCut (env : Env) : Prop :=
  ∀ before after value, '\n' ∉ before →
    env.fromStr (before ++ "</parameter>".toList ++ after) = .ok value →
    (env.fromStr before).toOption = none

theorem notMem_of_validParameterName (h : validParameterName key = true) {c : Char}
    (hc : c = '<' ∨ c = '>') : c ∉ key := by
  intro hm
  unfold validParameterName at h
  rw [Bool.and_eq_true, Bool.not_eq_true', Bool.not_eq_true', any_eq_false] at h
  have := h.2 c hm
  rcases hc with rfl | rfl <;> simp at this

theorem parameterHeader_open (hn : validParameterName key = true) (rest : Text) :
    parameterHeader (parameterOpen ++ (key ++ (">\n".toList ++ rest))) = some (key, '\n' :: rest) := by
  have ht : trimStart (parameterOpen ++ (key ++ (">\n".toList ++ rest)))
      = "<parameter=".toList ++ (key ++ (['>'] ++ '\n' :: rest)) := rfl
  have hs : ∀ text : Text, stripPrefix "<parameter=".toList ("<parameter=".toList ++ text)
      = some text := fun text => stripPrefix_eq_some.mpr rfl
  unfold parameterHeader
  rw [ht, hs, Option.bind_some]
  exact splitOnce_of_notMem (notMem_of_validParameterName hn (.inr rfl)) _

theorem parameterHeader_strictItem (hn : validParameterName item.1 = true) (rest : Text) :
    parameterHeader (strictItem item ++ rest)
      = some (item.1, '\n' :: (item.2 ++ (parameterClose ++ rest))) := by
  rw [strictItem]
  simp only [append_assoc]
  exact parameterHeader_open hn _

/-- Where `pieces` ends a raw value, or a JSON value without the tag. -/
theorem splitOnce_value {value : Text} (h : ¬ "</parameter>".toList <:+: value) (rest : Text) :
    splitOnce "</parameter>".toList (value ++ (parameterClose ++ rest))
      = some (value ++ ['\n'], rest) := by
  have hg := splitOnce_guard (by decide) (by decide : '\n' ∉ "</parameter>".toList) h
    ("</parameter>".toList ++ rest)
  have he : splitOnce "</parameter>".toList ("</parameter>".toList ++ rest) = some ([], rest) := by
    rw [splitOnce_of_isPrefix (prefix_append _ _), drop_left]
  rw [he] at hg
  exact hg

/-- Where `parse_strict` ends a value. -/
theorem splitOnce_parameterClose (h : strict.Admits item) (rest : Text) :
    splitOnce parameterClose (item.2 ++ (parameterClose ++ rest)) = some (item.2, rest) := by
  obtain ⟨parameter, _, hv⟩ := h
  cases hk : parameter.value with
  | raw =>
    rw [hk] at hv
    exact splitOnce_guarded (by decide) (by decide) hv.1 rest
  | json =>
    rw [hk] at hv
    exact splitOnce_of_notMem hv rest

theorem dropNewline_concat (text : Text) : dropNewline (text ++ ['\n']) = text := by
  rw [dropNewline, stripSuffix_eq_some.mpr rfl, Option.getD_some]

theorem dropNewline_of_notMem {text : Text} (h : '\n' ∉ text) : dropNewline text = text := by
  unfold dropNewline
  cases hs : stripSuffix ['\n'] text with
  | none => rfl
  | some =>
    refine absurd ?_ h
    rw [stripSuffix_eq_some.mp hs]
    simp

theorem parseStrictParameters_isPrefix :
    ∀ (fuel : Nat) (rest : Text) (arguments result : List (Text × Json)),
      parseStrictParameters env strict fuel rest arguments = .ok result →
      arguments <+: result ∧ ((arguments.map Prod.fst).Nodup → (result.map Prod.fst).Nodup) := by
  intro fuel
  induction fuel with
  | zero => intro rest arguments result h; cases h
  | succ fuel ih =>
    intro rest arguments result h
    rw [parseStrictParameters] at h
    split at h
    · cases h
      exact ⟨prefix_rfl, id⟩
    · obtain ⟨parameter, _, h⟩ := bind_eq_ok.mp h
      obtain ⟨⟨key, after⟩, _, h⟩ := bind_eq_ok.mp h
      obtain ⟨declared, _, h⟩ := bind_eq_ok.mp h
      obtain ⟨⟨raw, next⟩, _, h⟩ := bind_eq_ok.mp h
      obtain ⟨_, hd, h⟩ := bind_eq_ok.mp h
      obtain ⟨value, _, h⟩ := bind_eq_ok.mp h
      obtain ⟨hp, hnd⟩ := ih _ _ _ h
      exact ⟨(prefix_append _ _).trans hp,
        fun hold => hnd (nodup_concat _ (ensure_eq_ok.mp hd) hold)⟩

theorem parameterHeader_strictCallEnd (tail : Text) :
    parameterHeader (strictCallEnd ++ tail) = none := rfl

theorem written_strictItem (hcut : JsonCut env) (hs : tool.strict = some (.ok strict))
    (hi : strict.Admits item) (hn : validParameterName item.1 = true)
    (hse : seen.contains item.1 = false) {declared : StrictParameter}
    (hd : strict.parameter item.1 = some declared)
    (hv : strictValue env item.1 declared.value item.2 = .ok value) (rest : Text) :
    (∃ textMode, written env tool (strictItem item ++ rest) seen
        = .finished item.1 item.2 textMode value rest) ∨
      written env tool (strictItem item ++ rest) seen = .refused item.1 ∧
        streamsText tool item.1 = some false := by
  have hh := parameterHeader_strictItem hn rest
  have hsk : skipNewline ('\n' :: (item.2 ++ (parameterClose ++ rest)))
      = item.2 ++ (parameterClose ++ rest) := rfl
  -- without the tag inside, the value ends where the layout ends it
  have hp : ¬ "</parameter>".toList <:+: item.2 → ∀ textMode,
      streamsText tool item.1 = some textMode → finishedValue env tool item.1 item.2 = some value →
      written env tool (strictItem item ++ rest) seen
        = .finished item.1 item.2 textMode value rest := by
    intro hno textMode hm hf
    have hsp := splitOnce_value hno rest
    rw [← hsk] at hsp
    rw [← dropNewline_concat item.2] at hf
    have hw := written_finished hh hm hn hse hsp hf
    rwa [dropNewline_concat] at hw
  obtain ⟨parameter, hpar, ha⟩ := hi
  rw [hd] at hpar
  cases hpar
  cases hk : declared.value with
  | raw =>
    rw [hk] at ha hv
    have hm : streamsText tool item.1 = some true := by
      simp [streamsText, hs, hd, hk]
    cases hv
    refine .inl ⟨true, hp ha.1 true hm ?_⟩
    simp [finishedValue, hs, hd, hk]
  | json =>
    rw [hk] at ha hv
    have hm : streamsText tool item.1 = some false := by
      simp [streamsText, hs, hd, hk]
    have hr : env.fromStr item.2 = .ok value := mapError_eq_ok.mp hv
    have hf : ∀ text, finishedValue env tool item.1 text = (env.fromStr text).toOption := by
      intro text
      simp [finishedValue, hs, hd, hk]
    by_cases hin : "</parameter>".toList <:+: item.2
    · -- the tag inside a JSON string cuts it
      right
      refine ⟨?_, hm⟩
      cases hcutAt : splitOnce "</parameter>".toList item.2 with
      | none => exact absurd hin (splitOnce_eq_none_iff.mp hcutAt)
      | some cut =>
        obtain ⟨before, after⟩ := cut
        have ht := splitOnce_eq_some hcutAt
        have hl : '\n' ∉ before := by
          intro hmem
          apply ha
          rw [ht]
          simp [hmem]
        have hsp := splitOnce_append hcutAt (parameterClose ++ rest)
        rw [← hsk] at hsp
        refine written_refused hh hm hn hse hsp ?_
        rw [dropNewline_of_notMem hl, hf]
        rw [ht] at hr
        exact hcut before after value hl hr
    · refine .inl ⟨false, hp hin false hm ?_⟩
      rw [hf, hr]
      rfl

theorem parseStrictParameters_item (hi : strict.Admits item) (hn : validParameterName item.1 = true)
    {result : List (Text × Json)} {fuel : Nat}
    (h : parseStrictParameters env strict (fuel + 1) (strictItem item ++ rest) arguments
      = .ok result) : ∃ declared value, strict.parameter item.1 = some declared ∧
      strictValue env item.1 declared.value item.2 = .ok value ∧
      (!arguments.any fun entry => entry.1 == item.1) = true ∧
      parseStrictParameters env strict fuel rest (arguments ++ [(item.1, value)]) = .ok result := by
  have ht : strictItem item ++ rest = parameterOpen ++ (item.1 ++ (">\n".toList ++
      (item.2 ++ (parameterClose ++ rest)))) := by
    simp only [strictItem, append_assoc]
  have hne : (strictItem item ++ rest).isEmpty = false := by
    rw [ht]
    rfl
  rw [parseStrictParameters, hne, if_neg (by decide)] at h
  obtain ⟨parameter, hpar, h⟩ := bind_eq_ok.mp h
  obtain ⟨⟨key, after⟩, hk, h⟩ := bind_eq_ok.mp h
  have ho := stripPrefix_eq_some.mp (elim_eq_ok.mp hpar)
  rw [ht] at ho
  have hr := append_cancel_left ho
  have hs : splitOnce ">\n".toList parameter
      = some (item.1, item.2 ++ (parameterClose ++ rest)) := by
    rw [← hr]
    exact splitOnce_of_notMem (notMem_of_validParameterName hn (.inr rfl)) _
  have hp := elim_eq_ok.mp hk
  rw [hs] at hp
  cases hp
  obtain ⟨declared, hd, h⟩ := bind_eq_ok.mp h
  obtain ⟨⟨raw, next⟩, hraw, h⟩ := bind_eq_ok.mp h
  have hp := elim_eq_ok.mp hraw
  rw [splitOnce_parameterClose hi] at hp
  cases hp
  obtain ⟨_, hdup, h⟩ := bind_eq_ok.mp h
  obtain ⟨value, hv, h⟩ := bind_eq_ok.mp h
  exact ⟨declared, value, elim_eq_ok.mp hd, hv, ensure_eq_ok.mp hdup, h⟩

theorem StrictTool.parameter_eq_some {parameter : StrictParameter}
    (h : strict.parameter name = some parameter) :
    parameter ∈ strict.parameters ∧ parameter.name = name := by
  refine ⟨mem_of_find?_eq_some h, ?_⟩
  simpa using find?_some h

theorem StrictTool.Admits.validName (hi : strict.Admits item)
    (hn : ∀ parameter ∈ strict.parameters, validParameterName parameter.name = true) :
    validParameterName item.1 = true := by
  obtain ⟨parameter, hp, _⟩ := hi
  obtain ⟨hm, hna⟩ := StrictTool.parameter_eq_some hp
  rw [← hna]
  exact hn parameter hm

/-- The loop of `parse_strict` writes a beginning of the final pieces. -/
theorem parseStrictParameters_certain (hc : JsonCut env) (hso : TextSound env tool)
    (hs : tool.strict = some (.ok strict))
    (hna : ∀ parameter ∈ strict.parameters, validParameterName parameter.name = true) :
    ∀ (items : List (Text × Text)) (fuel fuel' : Nat) (arguments result : List (Text × Json))
      (seen : List Text) (tail : Text), (∀ item ∈ items, strict.Admits item) →
      parseStrictParameters env strict fuel (items.flatMap strictItem) arguments = .ok result →
      (∀ key, seen.contains key = arguments.any fun entry => entry.1 == key) →
      (items.flatMap strictItem ++ (strictCallEnd ++ tail)).length < fuel' →
      Grows (certainLoop env tool fuel' (items.flatMap strictItem ++ (strictCallEnd ++ tail)) seen
        (finalPieces tool arguments)) (finalPieces tool result) := by
  intro items
  induction items with
  | nil =>
    intro fuel fuel' arguments result seen tail _ h _ _
    have hp := (parseStrictParameters_isPrefix _ _ _ _ h).1
    rw [flatMap_nil, nil_append, certainLoop_end (parameterHeader_strictCallEnd tail)]
    exact .of_isPrefix (finalPieces_ne_nil _ _) (finalPieces_isPrefix tool hp)
  | cons item items ih =>
    intro fuel fuel' arguments result seen tail hitems h hse hlt
    have hi := hitems item mem_cons_self
    have hn := hi.validName hna
    obtain ⟨fuel', rfl⟩ : ∃ n, fuel' = n + 1 := ⟨fuel' - 1, by omega⟩
    cases fuel with
    | zero => cases h
    | succ fuel =>
      rw [flatMap_cons] at h
      obtain ⟨declared, value, hd, hv, hnew, h⟩ :=
        parseStrictParameters_item hi hn h
      have hnew' : seen.contains item.1 = false := by
        rw [hse]
        simpa only [Bool.not_eq_true'] using hnew
      rw [flatMap_cons, append_assoc] at hlt ⊢
      rcases written_strictItem hc hs hi hn hnew' hd hv
          (items.flatMap strictItem ++ (strictCallEnd ++ tail)) with
        ⟨textMode, hw⟩ | ⟨hw, hm⟩
      · rw [certainLoop_finished hso hw]
        refine ih fuel fuel' _ result _ tail
          (fun other ho => hitems other (mem_cons_of_mem _ ho)) h ?_ ?_
        · intro other
          rw [contains_cons, hse, any_append]
          simp [Bool.or_comm, Bool.beq_comm]
        · have := written_length hw
          omega
      · -- streaming stops at the opening of the value
        have hp := (parseStrictParameters_isPrefix _ _ _ _ h).1
        rw [certainLoop, hw]
        refine .of_last (.opening _ value.toText none fun _ => rfl) ?_
        have hf := finalPieces_isPrefix tool hp
        rw [finalPieces_concat, finalPiece, if_neg (by simp [hm])] at hf
        rw [length_finalPieces]
        exact hf

theorem notMem_of_validToolName (h : validToolName name = true) {c : Char}
    (hc : isNameChar c = false) : c ∉ name := by
  intro hm
  simp only [validToolName, Bool.and_eq_true, all_eq_true] at h
  rw [h.2 c hm] at hc
  cases hc

theorem functionHeader_strict (hn : validToolName name = true) (rest : Text) :
    functionHeader (functionOpen ++ name ++ ['>'] ++ rest) = some (name, rest) := by
  have hte : functionOpen ++ name ++ ['>'] ++ rest
      = '\n' :: ("<function=".toList ++ (name ++ (['>'] ++ rest))) := by
    have ho : functionOpen = '\n' :: "<function=".toList := rfl
    rw [ho]
    simp only [append_assoc, cons_append]
  have ht : trimStart (functionOpen ++ name ++ ['>'] ++ rest)
      = "<function=".toList ++ (name ++ (['>'] ++ rest)) := by
    rw [hte]
    rfl
  have hs : ∀ text : Text, stripPrefix "<function=".toList ("<function=".toList ++ text)
      = some text := fun text => stripPrefix_eq_some.mpr rfl
  unfold functionHeader
  rw [ht, hs, Option.bind_some]
  exact splitOnce_of_notMem (notMem_of_validToolName hn (by decide)) _

theorem parseStrict_eq_ok (h : parseStrict env block tool = .ok (name, arguments)) :
    name = tool.definition.name ∧ ∃ strict rest, tool.strict = some (.ok strict) ∧
      block = functionOpen ++ name ++ ['>'] ++ rest ∧
      parseStrictParameters env strict (rest.length + 1) rest [] = .ok arguments := by
  unfold parseStrict at h
  split at h
  · next strict hs =>
    obtain ⟨rest, hr, h⟩ := bind_eq_ok.mp h
    obtain ⟨arguments', ha, h⟩ := bind_eq_ok.mp h
    obtain ⟨_, _, h⟩ := bind_eq_ok.mp h
    cases h
    exact ⟨rfl, strict, rest, hs, stripPrefix_eq_some.mp (elim_eq_ok.mp hr), ha⟩
  · cases h

theorem parseStrict_certain (hcut : JsonCut env) (hso : TextSound env tool)
    (hc : tool.Compiled) (hl : StrictLayout tool block)
    (h : parseStrict env block tool = .ok (name, arguments)) (ht : tools.get name = some tool)
    (more : Text) :
    ∃ pieces, certain env (block ++ (strictCallEnd ++ more)) tools = some (name, pieces) ∧
      Grows pieces (finalPieces tool arguments) := by
  obtain ⟨strict, items, hs, hb, hi⟩ := hl
  obtain ⟨rfl, strict', rest, hs', hb', ha⟩ := parseStrict_eq_ok h
  rw [hs] at hs'
  cases hs'
  rw [hb] at hb'
  rw [← append_cancel_left hb'] at ha
  have hh : functionHeader (block ++ (strictCallEnd ++ more))
      = some (tool.definition.name, items.flatMap strictItem ++ (strictCallEnd ++ more)) := by
    rw [hb, append_assoc _ _ (strictCallEnd ++ more)]
    exact functionHeader_strict hc.name _
  rw [certain, hh]
  dsimp only
  rw [ht]
  refine ⟨_, rfl, ?_⟩
  exact parseStrictParameters_certain hcut hso hs (hc.strictNames strict hs)
    items _ _ [] arguments [] more hi ha (fun _ => rfl) (Nat.lt_succ_self _)

end LocalAi.Tools
