import LocalAi.Tools.Grammar

/-!
# The derivations of a tool policy

What the rules of `build` derive, as far as every call is to a strict tool.

* `CallLeaves`: one call: its header, the chosen parameters in declared order,
  the end of the function and the closing tag.
* `derives_call`: a call is to a tool of the set, with every required parameter.
* `derives_start`: an answer is free text, or calls with gaps between them.
-/

open List

namespace LocalAi.Tools

open LocalAi.Lib

/-- A leaf that is neither free text nor the header of a call. -/
def Terminal.silent : Terminal → Bool
  | .text | .header _ => false
  | _ => true

def itemLeaves (item : StrictParameter × Text) : List Leaf :=
  [(.key item.1.name, "<parameter=".toList ++ item.1.name ++ ">\n".toList),
    (valueTerminal item.1.value, item.2), (.literal parameterEnd, parameterEnd)]

def IsTag (tag : Text) (leaf : Leaf) : Prop := leaf.1.silent = true ∧ leaf.2 = tag

structure CallLeaves (engine : Engine) (tools : ToolSet) (tool : Tool) (strict : StrictTool)
    (chosen : List (StrictParameter × Text)) (call : List Leaf) : Prop where
  mem : tool ∈ tools.tools
  layout : tool.strict = some (.ok strict)
  declared : (chosen.map Prod.fst).Sublist strict.parameters
  required : ∀ parameter ∈ strict.parameters, parameter.required = true →
    parameter ∈ chosen.map Prod.fst
  values : ∀ item ∈ chosen, engine.Matches (valueTerminal item.1.value) item.2
  leaves : ∃ close, IsTag callEndTag close ∧
    call = (.header tool.definition.name, functionOpen ++ tool.definition.name ++ ">\n".toList) ::
      (chosen.flatMap itemLeaves ++ [(.literal functionEnd, functionEnd), close])

structure Engine.SpellsTags (engine : Engine) (tags : CallTags) : Prop where
  opening : ∀ id, tags.opening = some id → engine.spelling id = callStart
  closing : ∀ id, tags.closing = some id → engine.spelling id = callEndTag

section Rules

variable {engine : Engine} {tools : ToolSet} {callable : List Nat} {choice : ToolChoice}
  {parallel : Bool} {format : Option Json} {tags : CallTags} {leaves : List Leaf}

theorem derives_alternatives {rules : RuleName → Rule} {literal : Text} {special : Option Nat}
    (hs : ∀ id, special = some id → engine.spelling id = literal)
    (h : Derives rules engine.Matches (alternatives literal special) leaves) :
    ∃ leaf, IsTag literal leaf ∧ leaves = [leaf] := by
  unfold alternatives at h
  split at h
  · obtain ⟨text, ht, rfl⟩ := derives_term.mp h
    have ht : text = literal := ht
    exact ⟨_, ⟨rfl, ht⟩, rfl⟩
  · next id =>
    rcases derives_alt.mp h with h | h
    · obtain ⟨text, ht, rfl⟩ := derives_term.mp h
      have ht : text = literal := ht
      exact ⟨_, ⟨rfl, ht⟩, rfl⟩
    · obtain ⟨text, ht, rfl⟩ := derives_term.mp h
      have ht : text = engine.spelling id := ht
      exact ⟨_, ⟨rfl, ht.trans (hs id rfl)⟩, rfl⟩

theorem derives_parameterRule {rules : RuleName → Rule} {parameter : StrictParameter}
    (h : Derives rules engine.Matches (parameterRule parameter) leaves) :
    ∃ text, engine.Matches (valueTerminal parameter.value) text ∧
      leaves = itemLeaves (parameter, text) := by
  obtain ⟨key, rest, hkey, hr, rfl⟩ := derives_sequence_cons.mp h
  obtain ⟨value, rest', hv, hr', rfl⟩ := derives_sequence_cons.mp hr
  obtain ⟨close, none, hc, hn, rfl⟩ := derives_sequence_cons.mp hr'
  obtain ⟨keyText, hkeyText, rfl⟩ := derives_term.mp hkey
  obtain ⟨text, ht, rfl⟩ := derives_term.mp hv
  obtain ⟨closeText, hcloseText, rfl⟩ := derives_term.mp hc
  have hkeyText : keyText = "<parameter=".toList ++ parameter.name ++ ">\n".toList := hkeyText
  have hcloseText : closeText = parameterEnd := hcloseText
  rw [derives_sequence_nil.mp hn, hkeyText, hcloseText]
  exact ⟨text, ht, rfl⟩

theorem derives_parameters {rules : RuleName → Rule} {index : Nat} {tail : List Rule} :
    ∀ {declared : List (StrictParameter × Nat)} {leaves : List Leaf},
      (∀ entry ∈ declared, rules (.parameter index entry.2) = parameterRule entry.1) →
      Derives rules engine.Matches (Rhs.sequence (declared.map (parameterUse index) ++ tail)) leaves →
      ∃ (chosen : List (StrictParameter × Text)) (back : List Leaf),
        (chosen.map Prod.fst).Sublist (declared.map Prod.fst) ∧
        (∀ entry ∈ declared, entry.1.required = true → entry.1 ∈ chosen.map Prod.fst) ∧
        (∀ item ∈ chosen, engine.Matches (valueTerminal item.1.value) item.2) ∧
        Derives rules engine.Matches (Rhs.sequence tail) back ∧
        leaves = chosen.flatMap itemLeaves ++ back
  | [], leaves, _, h => ⟨[], leaves, by simp, by simp, by simp, h, rfl⟩
  | entry :: declared, leaves, hr, h => by
    obtain ⟨front, rest, hf, hrest, rfl⟩ := derives_sequence_cons.mp h
    obtain ⟨chosen, back, hsub, hreqd, hv, hb, rfl⟩ :=
      derives_parameters (fun other hoth => hr other (mem_cons_of_mem _ hoth)) hrest
    -- the parameter itself, or nothing where it is optional
    have hc : (∃ text, engine.Matches (valueTerminal entry.1.value) text ∧
        front = itemLeaves (entry.1, text)) ∨ front = [] ∧ entry.1.required = false := by
      have hru := hr entry mem_cons_self
      unfold parameterUse at hf
      split at hf
      · rw [derives_rule, hru] at hf
        exact .inl (derives_parameterRule hf)
      · next ho =>
        rcases derives_opt.mp hf with rfl | hs
        · exact .inr ⟨rfl, by simpa using ho⟩
        · rw [derives_rule, hru] at hs
          exact .inl (derives_parameterRule hs)
    rcases hc with ⟨text, ht, rfl⟩ | ⟨rfl, ho⟩
    · refine ⟨(entry.1, text) :: chosen, back, ?_, ?_, ?_, hb, by simp⟩
      · exact hsub.cons_cons entry.1
      · intro other hoth hreq
        rcases mem_cons.mp hoth with rfl | hm
        · exact mem_cons_self
        · exact mem_cons_of_mem _ (hreqd other hm hreq)
      · intro item hi
        rcases mem_cons.mp hi with rfl | hm
        · exact ht
        · exact hv item hm
    · refine ⟨chosen, back, hsub.cons _, ?_, hv, hb, rfl⟩
      intro other hoth hreq
      rcases mem_cons.mp hoth with rfl | hm
      · rw [ho] at hreq
        cases hreq
      · exact hreqd other hm hreq

theorem derives_call (htags : engine.SpellsTags tags) (hst : ∀ leaf ∈ leaves, leaf.1 ≠ .generic)
    (h : Derives (rules tools callable choice parallel format tags) engine.Matches
      (.rule .call) leaves) :
    ∃ tool strict chosen, CallLeaves engine tools tool strict chosen leaves := by
  obtain ⟨rule, hru, h⟩ := derives_oneOf.mp (derives_rule.mp h)
  obtain ⟨index, _, rfl⟩ := mem_map.mp hru
  have h : Derives (rules tools callable choice parallel format tags) engine.Matches
      (functionRule tools index) leaves := derives_rule.mp h
  unfold functionRule at h
  split at h
  · cases h
  · next tool ht =>
    split at h
    · -- a non-strict tool's call holds generic text
      exfalso
      obtain ⟨header, body, _, hb, rfl⟩ := derives_seq.mp h
      have hg : ∀ {back : Rule} {part : List Leaf},
          Derives (rules tools callable choice parallel format tags) engine.Matches
            (.seq (.term .generic) back) part → ∃ leaf ∈ part, leaf.1 = .generic := by
        intro back part hpa
        obtain ⟨first, rest, hfst, _, rfl⟩ := derives_seq.mp hpa
        obtain ⟨text, _, rfl⟩ := derives_term.mp hfst
        exact ⟨_, mem_cons_self, rfl⟩
      obtain ⟨leaf, hl, heq⟩ : ∃ leaf ∈ body, leaf.1 = Terminal.generic := by
        have hb := derives_rule.mp hb
        rw [rules] at hb
        split at hb
        · exact hg hb
        · rcases derives_alt.mp hb with hb | hb
          · exact hg hb
          · exact hg hb
      exact hst leaf (mem_append_right _ hl) heq
    · next strict hs =>
      obtain ⟨front, rest, hh, hrest, rfl⟩ := derives_sequence_cons.mp h
      obtain ⟨header, hheaderText, rfl⟩ := derives_term.mp hh
      have hp : ∀ entry ∈ strict.parameters.zipIdx,
          rules tools callable choice parallel format tags (.parameter index entry.2)
            = parameterRule entry.1 := by
        intro entry hent
        have hget := mem_zipIdx_iff_getElem?.mp hent
        simp [rules, parameterAt, ht, hs, hget]
      obtain ⟨chosen, back, hsub, hr, hv, hba, rfl⟩ :=
        derives_parameters hp hrest
      obtain ⟨functionLeaf, back', hfn, hba', rfl⟩ := derives_sequence_cons.mp hba
      obtain ⟨close, none, hc, hn, rfl⟩ := derives_sequence_cons.mp hba'
      obtain ⟨functionText, hfnText, rfl⟩ := derives_term.mp hfn
      obtain ⟨closeLeaf, htag, rfl⟩ := derives_alternatives htags.closing (derives_rule.mp hc)
      rw [zipIdx_map_fst] at hsub
      refine ⟨tool, strict, chosen, mem_of_getElem? ht, hs, hsub, ?_, hv, closeLeaf, htag, ?_⟩
      · intro parameter hp hreq
        obtain ⟨position, hpos⟩ := getElem?_of_mem hp
        exact hr (parameter, position) (mem_zipIdx_iff_getElem?.mpr hpos) hreq
      · have hh : header = functionOpen ++ tool.definition.name ++ ">\n".toList := hheaderText
        have hfnText : functionText = functionEnd := hfnText
        rw [derives_sequence_nil.mp hn, hh, hfnText]
        rfl
    · cases h

def IsGap (gap : List Leaf) : Prop :=
  (∀ leaf ∈ gap, leaf.1.silent = true) ∧ ∀ c ∈ spelled gap, isWhitespace c = true

theorem isGap_nil : IsGap [] := ⟨by simp, by simp [spelled]⟩

theorem derives_gap {rules : RuleName → Rule} {terminal : Terminal} (hsil : terminal.silent = true)
    (hs : ∀ text, engine.Matches terminal text → ∀ c ∈ text, isWhitespace c = true)
    (h : Derives rules engine.Matches (.opt (.term terminal)) leaves) : IsGap leaves := by
  rcases derives_opt.mp h with rfl | h
  · exact isGap_nil
  · obtain ⟨text, ht, rfl⟩ := derives_term.mp h
    refine ⟨by simpa using hsil, ?_⟩
    simpa [spelled] using hs text ht

theorem matches_gap {text : Text} (h : engine.Matches .gap text) :
    ∀ c ∈ text, isWhitespace c = true := by
  intro c hc
  have hg := h.2.2 c hc
  simp only [isGap, Bool.or_eq_true, beq_iff_eq] at hg
  rcases hg with ((rfl | rfl) | rfl) | rfl <;> decide

theorem matches_lead {text : Text} (h : engine.Matches .lead text) :
    ∀ c ∈ text, isWhitespace c = true := by
  intro c hc
  rw [h.2.2 c hc]
  decide

def IsNext (engine : Engine) (tools : ToolSet) (part : List Leaf) : Prop :=
  ∃ gap tag call tool strict chosen, IsGap gap ∧ IsTag callStart tag ∧
    CallLeaves engine tools tool strict chosen call ∧ part = gap ++ tag :: call

def IsMore (engine : Engine) (tools : ToolSet) (more : List Leaf) : Prop :=
  ∃ (parts : List (List Leaf)) (gap : List Leaf), (∀ part ∈ parts, IsNext engine tools part) ∧
    IsGap gap ∧ more = parts.flatten ++ gap

theorem derives_next (ht : engine.SpellsTags tags) {part : List Leaf}
    (hs : ∀ leaf ∈ part, leaf.1 ≠ .generic) {terminal : Terminal} (hsil : terminal.silent = true)
    (hsp : ∀ text, engine.Matches terminal text → ∀ c ∈ text, isWhitespace c = true)
    {tail : List Rule} (h : Derives (rules tools callable choice parallel format tags) engine.Matches
      (Rhs.sequence (.opt (.term terminal) :: .rule .opening :: .rule .call :: tail)) part) :
    ∃ front back, IsNext engine tools front ∧
      Derives (rules tools callable choice parallel format tags) engine.Matches
        (Rhs.sequence tail) back ∧ part = front ++ back := by
  obtain ⟨gap, rest, hg, hr, rfl⟩ := derives_sequence_cons.mp h
  obtain ⟨tagLeaves, rest', htag, hr', rfl⟩ := derives_sequence_cons.mp hr
  obtain ⟨call, back, hc, hb, rfl⟩ := derives_sequence_cons.mp hr'
  obtain ⟨tag, hisTag, rfl⟩ := derives_alternatives ht.opening (derives_rule.mp htag)
  obtain ⟨tool, strict, chosen, hl⟩ := derives_call ht (fun leaf hle => hs leaf (by simp [hle])) hc
  refine ⟨gap ++ tag :: call, back,
    ⟨gap, tag, call, tool, strict, chosen, derives_gap hsil hsp hg, hisTag, hl, rfl⟩,
    hb, by simp⟩

theorem derives_more (ht : engine.SpellsTags tags) {more : List Leaf}
    (hs : ∀ leaf ∈ more, leaf.1 ≠ .generic)
    (h : Derives (rules tools callable choice parallel format tags) engine.Matches
      (Rhs.sequence [moreCalls parallel]) more) : IsMore engine tools more := by
  obtain ⟨front, back, hf, hb, rfl⟩ := derives_sequence_cons.mp h
  rw [derives_sequence_nil.mp hb, append_nil] at hs ⊢
  unfold moreCalls at hf
  split at hf
  · obtain ⟨calls, gap, hc, hg, rfl⟩ := derives_seq.mp hf
    obtain ⟨parts, hparts, rfl⟩ := derives_star.mp hc
    refine ⟨parts, gap, fun part hp => ?_, derives_gap rfl (fun _ => matches_gap) hg, rfl⟩
    have hpartStrict : ∀ leaf ∈ part, leaf.1 ≠ .generic := by
      intro leaf hl
      exact hs leaf (mem_append_left _ (mem_flatten.mpr ⟨part, hp, hl⟩))
    obtain ⟨next, tail, hn, hta, rfl⟩ := derives_next ht hpartStrict rfl
      (fun _ => matches_gap) (hparts part hp)
    rw [derives_sequence_nil.mp hta, append_nil]
    exact hn
  · exact ⟨[], front, by simp, derives_gap rfl (fun _ => matches_gap) hf, rfl⟩

inductive IsAnswer (engine : Engine) (tools : ToolSet) : List Leaf → Prop
  | text {text : Text} (htext : ¬ callStart <:+: text) : IsAnswer engine tools [(.text, text)]
  | free {text : Text} {tag : Leaf} {call more : List Leaf} {tool : Tool} {strict : StrictTool}
      {chosen : List (StrictParameter × Text)} (htext : ¬ callStart <:+: text)
      (htag : IsTag callStart tag) (hcall : CallLeaves engine tools tool strict chosen call)
      (hmore : IsMore engine tools more) :
      IsAnswer engine tools ((.text, text) :: tag :: (call ++ more))
  | calls {part more : List Leaf} (hnext : IsNext engine tools part)
      (hmore : IsMore engine tools more) : IsAnswer engine tools (part ++ more)

theorem derives_pre (htags : engine.SpellsTags tags)
    (h : Derives (rules tools callable choice parallel format tags) engine.Matches
      (.rule .pre) leaves) : ∃ tag, IsTag callStart tag ∧
      (leaves = [tag] ∨ ∃ text, ¬ callStart <:+: text ∧ leaves = [(.text, text), tag]) := by
  have htagged : ∀ {id : Nat} {tagLeaves : List Leaf}, tags.opening = some id →
      Derives (rules tools callable choice parallel format tags) engine.Matches
        (.term (.token id)) tagLeaves → ∃ tag, IsTag callStart tag ∧ tagLeaves = [tag] := by
    intro id tagLeaves hid htok
    obtain ⟨text, ht, rfl⟩ := derives_term.mp htok
    have ht : text = engine.spelling id := ht
    exact ⟨_, ⟨rfl, ht.trans (htags.opening id hid)⟩, rfl⟩
  have hhd : ∀ {hdLeaves : List Leaf},
      Derives (rules tools callable choice parallel format tags) engine.Matches
        (.rule .hd) hdLeaves →
      ∃ tag, IsTag callStart tag ∧ ∃ text, ¬ callStart <:+: text ∧
        hdLeaves = [(.text, text), tag] := by
    intro hdLeaves hhd
    obtain ⟨front, back, hf, hb, rfl⟩ := derives_seq.mp (derives_rule.mp hhd)
    obtain ⟨text, ht, rfl⟩ := derives_term.mp hf
    obtain ⟨tagText, htag, rfl⟩ := derives_term.mp hb
    have htag : tagText = callStart := htag
    exact ⟨_, ⟨rfl, htag⟩, text, ht, rfl⟩
  have h := derives_rule.mp h
  rw [rules] at h
  split at h
  · obtain ⟨tag, htag, text, ht, rfl⟩ := hhd h
    exact ⟨tag, htag, .inr ⟨text, ht, rfl⟩⟩
  · next id hid =>
    obtain ⟨rule, hr, h⟩ := derives_oneOf.mp h
    simp only [mem_cons, not_mem_nil, or_false] at hr
    rcases hr with rfl | rfl | rfl
    · obtain ⟨tag, htag, text, ht, rfl⟩ := hhd h
      exact ⟨tag, htag, .inr ⟨text, ht, rfl⟩⟩
    · obtain ⟨front, back, hf, hb, rfl⟩ := derives_seq.mp h
      obtain ⟨text, ht, rfl⟩ := derives_term.mp hf
      obtain ⟨tag, htag, rfl⟩ := htagged hid hb
      exact ⟨tag, htag, .inr ⟨text, ht, rfl⟩⟩
    · obtain ⟨tag, htag, rfl⟩ := htagged hid h
      exact ⟨tag, htag, .inl rfl⟩

/-- **A derived answer is free text, or calls to strict tools** with gaps between
them, free text allowed before the first. -/
theorem derives_start (ht : engine.SpellsTags tags) (hs : ∀ leaf ∈ leaves, leaf.1 ≠ .generic)
    (h : Derives (rules tools callable choice parallel none tags) engine.Matches
      (.rule .start) leaves) : IsAnswer engine tools leaves := by
  have hte : ∀ {textLeaves : List Leaf},
      Derives (rules tools callable choice parallel none tags) engine.Matches
        (.term .text) textLeaves → IsAnswer engine tools textLeaves := by
    intro textLeaves hte
    obtain ⟨text, hf, rfl⟩ := derives_term.mp hte
    exact .text hf
  have hc : Derives (rules tools callable choice parallel none tags) engine.Matches
      (Rhs.sequence [.opt (.term .lead), .rule .opening, .rule .call, moreCalls parallel]) leaves →
      IsAnswer engine tools leaves := by
    intro h
    obtain ⟨front, back, hn, hb, rfl⟩ := derives_next ht hs rfl (fun _ => matches_lead) h
    exact .calls hn (derives_more ht (fun leaf hl => hs leaf (by simp [hl])) hb)
  have hf : Derives (rules tools callable choice parallel none tags) engine.Matches
      (.alt (.term .text) (Rhs.sequence [.rule .pre, .rule .call, moreCalls parallel])) leaves →
      IsAnswer engine tools leaves := by
    intro h
    rcases derives_alt.mp h with h | h
    · exact hte h
    · obtain ⟨pre, rest, hp, hr, rfl⟩ := derives_sequence_cons.mp h
      obtain ⟨call, more, hca, hm, rfl⟩ := derives_sequence_cons.mp hr
      obtain ⟨tool, strict, chosen, hle⟩ := derives_call ht
        (fun leaf hl => hs leaf (by simp [hl])) hca
      have hm := derives_more ht (fun leaf hl => hs leaf (by simp [hl])) hm
      obtain ⟨tag, htag, rfl | ⟨text, hno, rfl⟩⟩ := derives_pre ht hp
      · have hn : IsNext engine tools (tag :: call) :=
          ⟨[], tag, call, tool, strict, chosen, isGap_nil, htag, hle, rfl⟩
        rw [← append_assoc]
        exact .calls hn hm
      · have ha := IsAnswer.free hno htag hle hm
        exact ha
  have h := derives_rule.mp h
  rw [rules] at h
  cases choice with
  | none => exact hte h
  | auto => exact hf h
  | required => exact hc h
  | function => exact hc h
  | allowed allowed required =>
    cases required with
    | false => exact hf h
    | true => exact hc h

end Rules

end LocalAi.Tools
