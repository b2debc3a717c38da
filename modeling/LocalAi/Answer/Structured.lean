import LocalAi.Answer.Splitter
import LocalAi.Tools.Grammar

/-!
# Structured answers beside tools

A request with tools and a response format gets a grammar whose answer is a call
or, after a few newlines, one JSON text.  The splitter does not know which it
reads: it looks for calls in everything visible.

* `emitAll_plain`, `close_plain`: no call, no part of one, while the visible answer
  holds no opening tag.
* `scan_calls`: an opening tag in the visible answer is a call or a failure.
* `structured_answer_survives_iff`: the JSON text comes through exactly when it
  holds no opening tag.
-/

open List

namespace LocalAi.Answer

open LocalAi.Lib LocalAi.Tools LocalAi.Engine

variable {L K : Type}

/-- `event` is not a part of a call. -/
def Plain (event : Event L) : Prop := ∀ delta, event ≠ .toolCallDelta delta

/-! ### Without an opening tag -/

section Plain

variable {consumer : Consumer L K} {J : K → Prop}

theorem deliver_plain (hp : ∀ k event, Plain event → J k → J (consumer k event).1)
    {d : List (Spanned L) × K} {event : Event L} (hev : Plain event) (offset : Nat) (hd : J d.2) :
    J (deliver consumer d event offset).1.2 := by
  have hf : ∀ tokens : List L, J (consumer d.2 (.logprobs tokens)).1 := by
    intro tokens
    refine hp _ _ (fun delta h => ?_) hd
    cases h
  cases event with
  | content =>
    simp only [deliver]
    split
    · exact hp _ _ hev hd
    · split
      · exact hp _ _ hev (hf _)
      · exact hf _
  | toolCallDelta delta => exact absurd rfl (hev delta)
  | _ => exact hp _ _ hev hd

theorem plain_content (text : Text) : Plain (Event.content text : Event L) := by
  intro delta h
  cases h

theorem plain_reasoning (text : Text) : Plain (Event.reasoning text : Event L) := by
  intro delta h
  cases h

variable {I : K → Prop} {callback : Callback L K}

theorem emitText_plain
    (hp : ∀ k text offset, I k → I (callback k (.content text) offset).1) (text : Text)
    (offset : Nat) (p : ToolCallParser) {k : K} (hk : I k) :
    I (emitText callback text offset p k).2.1 := by
  unfold emitText
  generalize (if p.afterCall then trimStart text else text) = trimmed
  dsimp only
  split
  · exact hk
  · exact hp _ _ _ hk

theorem feed_plain (hp : ∀ k text offset, I k → I (callback k (.content text) offset).1) (env : Env)
    (set : ToolSet) {text : Text} {p : ToolCallParser} {k : K} (hf : p.failure = none)
    (hin : p.inCall = false) (hn : splitOnce callStart (p.pending ++ text) = none) (hk : I k) :
    I (feed env set callback text p k).2.1 := by
  unfold feed
  simp only [hf, Option.isSome_none, Bool.false_eq_true, if_false, feedLoop, hin, hn]
  split
  · exact hk
  · exact emitText_plain hp _ _ _ hk

theorem finish_plain
    (hp : ∀ k text offset, I k → I (callback k (.content text) offset).1) (reason : StopReason)
    {p : ToolCallParser} {k : K} (hin : p.inCall = false) (hk : I k) :
    I (Tools.finish callback reason p k).2.1 := by
  unfold Tools.finish
  split
  · exact hk
  · rw [if_neg (by simp [hin])]
    exact emitText_plain hp _ _ _ hk

theorem stopped_plain (hp : ∀ k event, Plain event → J k → J (consumer k event).1) (base : Nat) :
    ∀ (state : StopSequences × List (Spanned L) × K) (text : Text) (offset : Nat),
      Quiet state.1 ∧ J state.2.2 →
        Quiet (stopped consumer base state (.content text) offset).1.1 ∧
          J (stopped consumer base state (.content text) offset).1.2.2 := by
  rintro ⟨stop, d⟩ text offset ⟨hq, hd⟩
  simp only [stopped, hq.event]
  exact ⟨hq, deliver_plain hp (plain_content text) _ hd⟩

variable {said : K → List Atom} {env : Env} {set : ToolSet} {front : List Atom} {answer : Text}
  {s : EventSplitter L} {k : K}

/-- A visible answer without an opening tag leaves the parser outside calls, with an
end of it pending. -/
theorem scan_plain (env : Env) (set : ToolSet) {answer : Text} (hn : ¬ callStart <:+: answer) :
    scan env set Scan.start answer
      = (⟨heldText answer, false, false, none⟩, (readyText answer).map .content) := by
  rw [scan_of_running rfl, scanPending_text rfl (splitOnce_eq_none_iff.mpr hn)]
  rfl

theorem parser_plain (h : Answering env (some set) said front answer s k)
    (hn : ¬ callStart <:+: answer) : ∃ parser, s.tools = some (set, parser) ∧
      parser.failure = none ∧ parser.inCall = false ∧ parser.pending = heldText answer := by
  cases hs : s.tools with
  | none =>
    have hno := h.tools_none hs
    cases hno
  | some entry =>
    obtain ⟨set', parser⟩ := entry
    obtain ⟨hset, hv⟩ := h.tools_some hs
    cases hset
    rw [scan_plain env set hn] at hv
    refine ⟨parser, rfl, ?_, ?_, ?_⟩
    · exact congrArg Scan.failure hv
    · exact congrArg Scan.inCall hv
    · have hr := ToolCallParser.view_of_running (congrArg Scan.failure hv)
      rw [hr] at hv
      exact congrArg Scan.pending hv

theorem content_plain (hp : ∀ k event, Plain event → J k → J (consumer k event).1)
    (h : Answering env (some set) said front answer s k) (piece : Text)
    (hn : ¬ callStart <:+: answer ++ shown s.answerStarted piece) (hk : J k) :
    J (s.content env consumer piece k).2.1 := by
  have hb : ¬ callStart <:+: answer := fun h => hn (h.trans (prefix_append _ _).isInfix)
  obtain ⟨parser, hs, hf, hin, hpe⟩ := parser_plain h hb
  unfold EventSplitter.content
  generalize shown s.answerStarted piece = text at hn
  cases text with
  | nil => exact hk
  | cons c text =>
    simp only [isEmpty_cons, Bool.false_eq_true, if_false, hs]
    have hsp : splitOnce callStart (parser.pending ++ c :: text) = none := by
      rw [splitOnce_eq_none_iff, hpe]
      intro ht
      refine hn (ht.trans (List.IsSuffix.isInfix ⟨readyText answer, ?_⟩))
      rw [← append_assoc, ready_append_held]
    have hfed := feed_plain (I := fun state => Quiet state.1 ∧ J state.2.2)
      (stopped_plain hp (s.parsedFrom.getD (s.generated - utf8Len (c :: text)))) env set
      (k := (s.stop, s.logprobs, k)) hf hin hsp ⟨h.quiet, hk⟩
    exact hfed.2

variable {thinking : Bool} {text : Text}

theorem emit_plain (listens : Listens consumer said)
    (hpl : ∀ k event, Plain event → J k → J (consumer k event).1)
    (h : Split env thinking (some set) said text s k) (piece : Text) (logprobs : List L)
    (hn : ¬ callStart <:+: (parts thinking (text ++ piece)).2) (hk : J k) :
    J (s.emit env consumer piece logprobs k).2.1 := by
  unfold EventSplitter.emit
  dsimp only
  set s₁ : EventSplitter L :=
    { s with
      generated := s.generated + utf8Len piece,
      logprobs := if logprobs.isEmpty then s.logprobs
        else s.logprobs ++ [⟨s.generated, s.generated + utf8Len piece, logprobs⟩] }
  cases h with
  | answer before after hr hpe hp hs hans =>
    rw [if_pos (by simp [hr])]
    have hs₁ : s₁.answerStarted = (!thinking || !(shown (!thinking) after).isEmpty) :=
      hs
    refine content_plain hpl (hans.frame s₁ rfl rfl) piece ?_ hk
    rw [hs₁, ← shown_append]
    cases thinking with
    | false =>
      rw [if_neg (by simp)] at hp
      rw [hp.2]
      exact hn
    | true =>
      rw [if_pos rfl] at hp
      rw [parts, if_pos rfl, splitOnce_append hp piece] at hn
      exact hn
  | reasoning sent hth hr hs ht hb ho hans =>
    rw [if_neg (by simp [hr])]
    have hf : splitOnce thinkEnd (text ++ piece)
        = (splitOnce thinkEnd (s.pending ++ piece)).map fun found =>
            (sent ++ found.1, found.2) := by
      rw [ht, append_assoc]
      rw [ht] at hb ho
      exact splitOnce_of_overlap hb ho piece
    have hpe : s₁.pending = s.pending := rfl
    rw [hpe]
    cases hsp : splitOnce thinkEnd (s.pending ++ piece) with
    | some found =>
      obtain ⟨reasoning, rest⟩ := found
      rw [hsp, Option.map_some] at hf
      rw [parts, if_pos hth, hf] at hn
      set s₂ : EventSplitter L := { s₁ with pending := [], reasoning := false }
      have ha : ∀ k', said k' = said k ++ reasoning.map .reasoning → J k' →
          J (s₂.content env consumer rest k').2.1 := by
        intro k' hsa hk'
        refine content_plain hpl ((hans.frame s₂ rfl rfl).say hsa) rest ?_ hk'
        have hs₂ : s₂.answerStarted = false := hs
        rw [hs₂]
        exact hn
      cases reasoning with
      | nil => exact ha k (by simp) hk
      | cons =>
        simp only [isEmpty_cons, Bool.false_eq_true, if_false, listens.goes, if_true]
        exact ha _ (listens.said _ _) (hpl _ _ (plain_reasoning _) hk)
    | none =>
      dsimp only
      split
      · exact hk
      · exact hpl _ _ (plain_reasoning _) hk

theorem parts_isPrefix (thinking : Bool) (text more : Text) :
    (parts thinking text).2 <+: (parts thinking (text ++ more)).2 := by
  cases thinking with
  | false => exact prefix_append _ _
  | true =>
    simp only [parts, if_true]
    cases hs : splitOnce thinkEnd text with
    | none => exact nil_prefix
    | some found =>
      obtain ⟨before, after⟩ := found
      rw [splitOnce_append hs more]
      dsimp only
      rw [shown_append]
      exact prefix_append _ _

theorem emitAll_plain (listens : Listens consumer said)
    (hp : ∀ k event, Plain event → J k → J (consumer k event).1) :
    ∀ (pieces : List (Text × List L)) {text : Text} {s : EventSplitter L} {k : K},
      Split env thinking (some set) said text s k →
      ¬ callStart <:+: (parts thinking (text ++ pieces.flatMap Prod.fst)).2 → J k →
      J (EventSplitter.emitAll env consumer pieces s k).2
  | [], _, _, _, _, _, hk => hk
  | (piece, logprobs) :: pieces, text, s, k, h, hn, hk => by
    have ht : text ++ ((piece, logprobs) :: pieces).flatMap Prod.fst
        = (text ++ piece) ++ pieces.flatMap Prod.fst := by simp
    rw [ht] at hn
    have hb : ¬ callStart <:+: (parts thinking (text ++ piece)).2 :=
      fun htag => hn (htag.trans (parts_isPrefix _ _ _).isInfix)
    exact emitAll_plain listens hp pieces (emit_split listens h piece logprobs) hn
      (emit_plain listens hp h piece logprobs hb hk)

theorem finishAnswer_plain (hp : ∀ k event, Plain event → J k → J (consumer k event).1)
    (h : Answering env (some set) said front answer s k) (hn : ¬ callStart <:+: answer)
    (reason : StopReason) (hk : J k) : J (s.finishAnswer consumer reason k).2.1 := by
  obtain ⟨parser, hs, hf, hin, hpe⟩ := parser_plain h hn
  unfold EventSplitter.finishAnswer
  simp only [hs]
  have hd := finish_plain (I := fun state => Quiet state.1 ∧ J state.2.2)
    (stopped_plain hp (s.parsedFrom.getD s.generated)) reason (p := parser)
    (k := (s.stop, s.logprobs, k)) hin ⟨h.quiet, hk⟩
  split
  · simp only [hd.1.flush]
    exact hd.2
  · exact hd.2

theorem close_plain (listens : Listens consumer said)
    (hpl : ∀ k event, Plain event → J k → J (consumer k event).1)
    (h : Split env thinking (some set) said text s k)
    (hn : ¬ callStart <:+: (parts thinking text).2) (reason : StopReason) (hk : J k) :
    J (s.close consumer reason k).2.1 := by
  have hfin : ∀ reason, J (s.finish consumer reason k).2.1 := by
    intro reason
    unfold EventSplitter.finish
    cases h with
    | answer before after hr hpe hp hs ha =>
      rw [if_pos (by simp [hpe])]
      refine finishAnswer_plain hpl ha ?_ reason hk
      cases thinking with
      | false =>
        rw [if_neg (by simp)] at hp
        rw [hp.2]
        exact hn
      | true =>
        rw [if_pos rfl] at hp
        rw [parts, if_pos rfl, hp] at hn
        exact hn
    | reasoning sent hth hr hs hte hb ho ha =>
      have he := deliver_hears listens
      have hemp : ¬ callStart <:+: ([] : Text) := by decide
      split
      · exact finishAnswer_plain hpl ha hemp reason hk
      · simp only [hr, if_true, he.goes _ _ _ trivial]
        have hse : J (deliver consumer (s.logprobs, k) (.reasoning s.pending)
            (s.generated - utf8Len s.pending)).1.2 :=
          deliver_plain hpl (plain_reasoning s.pending) _ hk
        have hne := ha.say (he.said (s.logprobs, k) (.reasoning s.pending)
          (s.generated - utf8Len s.pending) trivial)
        have hf : ∀ s' : EventSplitter L, s'.stop = s.stop → s'.tools = s.tools →
            J (s'.finishAnswer consumer reason (deliver consumer (s.logprobs, k)
              (.reasoning s.pending) (s.generated - utf8Len s.pending)).1.2).2.1 :=
          fun s' hst ht =>
            finishAnswer_plain hpl (hne.frame s' hst ht) hemp reason hse
        exact hf _ rfl rfl
  unfold EventSplitter.close
  split
  · exact hk
  · split
    · exact hk
    · generalize (if reason = .stopped then .cancelled else reason) = reported
      dsimp only
      split
      · exact hfin reported
      · exact hfin reported

end Plain

/-! ### With an opening tag -/

theorem scanPending_calls {env : Env} {set : ToolSet} {s : Scan} (hin : s.inCall = true)
    (he : (scanEnd .eos (scanPending env set s).1).1 = none) :
    ∃ name arguments, Atom.call name arguments ∈ (scanPending env set s).2 := by
  cases hb : callEnd s.pending set with
  | none =>
    rw [scanPending_open hin hb, scanEnd] at he
    by_cases hf : s.failure.isSome
    · rw [if_pos hf] at he
      rw [show s.failure = none from he] at hf
      cases hf
    · rw [if_neg hf, if_pos hin] at he
      cases he
  | some found =>
    obtain ⟨block, rest, marker, strict⟩ := found
    rw [scanPending_call hin hb] at he ⊢
    cases hp : parseBlock env set block strict with
    | error =>
      rw [hp] at he
      cases he
    | ok call =>
      obtain ⟨name, arguments⟩ := call
      exact ⟨name, .object arguments, mem_cons_self⟩

theorem scan_calls {env : Env} {set : ToolSet} {answer : Text} (ht : callStart <:+: answer)
    (he : (scanEnd .eos (scan env set Scan.start answer).1).1 = none) :
    ∃ name arguments, Atom.call name arguments ∈ (scan env set Scan.start answer).2 := by
  rw [scan_of_running rfl] at he ⊢
  cases hs : splitOnce callStart (Scan.start.pending ++ answer) with
  | none => exact absurd ht (splitOnce_eq_none_iff.mp hs)
  | some found =>
    obtain ⟨text, rest⟩ := found
    rw [scanPending_start rfl hs] at he ⊢
    obtain ⟨name, arguments, hm⟩ := scanPending_calls rfl he
    exact ⟨name, arguments, mem_append_right _ hm⟩

/-! ### The JSON text of a final answer -/

def sansLead (text : Text) : Text := text.dropWhile (· == '\n')

theorem tag_sansLead {text : Text} : callStart <:+: sansLead text ↔ callStart <:+: text := by
  induction text with
  | nil => exact Iff.rfl
  | cons c text ih =>
    by_cases hc : c = '\n'
    · subst hc
      rw [show sansLead ('\n' :: text) = sansLead text from rfl, ih, infix_cons_iff]
      refine (or_iff_right fun hp => ?_).symm
      exact absurd (cons_prefix_cons.mp hp).1 (by decide)
    · rw [sansLead, dropWhile_cons_of_neg (by simpa using hc)]

theorem sansLead_append {lead : Text} (hl : ∀ c ∈ lead, c = '\n') (json : Text) :
    sansLead (lead ++ json) = sansLead json := by
  induction lead with
  | nil => rfl
  | cons c lead ih =>
    rw [hl c mem_cons_self]
    exact ih fun c' hc' => hl c' (mem_cons_of_mem _ hc')

theorem sansLead_shown (started : Bool) (text : Text) :
    sansLead (shown started text) = sansLead text := by
  cases started with
  | true => rfl
  | false => exact dropWhile_idempotent ..

/-- The grammar's final answer: a few newlines and a JSON text. -/
def finalLeaves (schema : Json) (lead json : Text) : List Leaf :=
  (if lead.isEmpty then [] else [(.lead, lead)]) ++ [(.final schema, json)]

theorem derives_final {engine : Tools.Engine} {schema : Json} {lead json : Text} {choice : ToolChoice}
    (hc : callRequired choice = false) (hl : lead = [] ∨ engine.Matches .lead lead)
    (hj : engine.Matches (.final schema) json) (tools : ToolSet) (callable : List Nat)
    (parallel : Bool) (tags : CallTags) :
    Derives (rules tools callable choice parallel (some schema) tags) engine.Matches
      (.rule .start) (finalLeaves schema lead json) := by
  have ha : Derives (rules tools callable choice parallel (some schema) tags) engine.Matches
      (.seq (.opt (.term .lead)) (.term (.final schema))) (finalLeaves schema lead json) := by
    refine .seq ?_ (.term hj)
    rcases hl with rfl | hl
    · exact .none
    · cases lead with
      | nil => exact .none
      | cons => exact .some (.term hl)
  apply derives_rule.mpr
  cases choice with
  | none => exact ha
  | auto => exact .left ha
  | required => cases hc
  | function => cases hc
  | allowed names needed =>
    cases needed with
    | false => exact .left ha
    | true => cases hc

theorem parts_final {thinking : Bool} {text reasoning answer : Text}
    (ht : if thinking then splitOnce thinkEnd text = some (reasoning, answer)
      else text = answer) : (parts thinking text).2 = shown (!thinking) answer := by
  cases thinking with
  | false =>
    rw [if_neg (by simp)] at ht
    rw [ht]
    rfl
  | true =>
    rw [if_pos rfl] at ht
    rw [parts, if_pos rfl, ht]
    rfl

theorem run_plain (env : Env) (thinking : Bool) (set : ToolSet) (nextCallId : CallId)
    (pieces : List (Text × List L))
    (hn : ¬ callStart <:+: (parts thinking (pieces.flatMap Prod.fst)).2) :
    let out := EventSplitter.run env thinking (some set) [] nextCallId pieces .eos
    out.2 = none ∧ (∀ event ∈ out.1, Plain event ∧ ∀ call, event ≠ .toolCall call) ∧
      contentText out.1 = (parts thinking (pieces.flatMap Prod.fst)).2 := by
  intro out
  have hh := run_heard env thinking (some set) nextCallId pieces .eos
  set text := pieces.flatMap Prod.fst
  have hsc := scan_plain env set hn
  have hs : spoken env thinking (some set) .eos text
      = ((parts thinking text).1.map .reasoning ++ (parts thinking text).2.map .content, none) := by
    rw [spoken]
    simp only [answered, ended, hsc, scanEnd, Option.isSome_none, Bool.false_eq_true, if_false,
      sayText_false, append_assoc, ← map_append, ready_append_held]
  rw [hs] at hh
  obtain ⟨hsa, hf⟩ := Prod.mk.inj hh
  have hv : visible out.1 = (parts thinking text).2.map .inl := by
    rw [visible_eq, hsa, filterMap_append]
    simp [seen, Function.comp_def]
  have listens : Listens (fun (log : List (Event L)) event => (log ++ [event], true)) heard :=
    ⟨fun _ _ => rfl, fun log event => by simp [heard]⟩
  have hp : ∀ (log : List (Event L)) (event : Event L), Plain event →
      (∀ e ∈ log, Plain e) → ∀ e ∈ log ++ [event], Plain e := by
    intro log event hev hl e he
    rcases mem_append.mp he with he | he
    · exact hl e he
    · rw [mem_singleton.mp he]
      exact hev
  have hnew : Split env thinking (some set) heard []
      (EventSplitter.new thinking (some set) [] nextCallId : EventSplitter L)
      ([] : List (Event L)) := new_split thinking (some set) nextCallId rfl
  have hem := emitAll_plain (J := fun log => ∀ e ∈ log, Plain e) listens hp pieces hnew
    hn (forall_mem_nil _)
  have hc : ∀ e ∈ out.1, Plain e :=
    close_plain (J := fun log => ∀ e ∈ log, Plain e) listens hp
      (emitAll_split listens pieces hnew) hn .eos hem
  refine ⟨hf, fun event hev => ⟨hc event hev, ?_⟩, ?_⟩
  · rintro call rfl
    have hm : (call.name, call.arguments) ∈ toolCalls out.1 :=
      mem_filterMap.mpr ⟨_, hev, rfl⟩
    rw [toolCalls_eq, hv] at hm
    simp at hm
  · rw [contentText_eq, hv]
    simp [Function.comp_def]

/-- An opening tag in a final answer is read as a call, or fails the answer. -/
theorem run_calls (env : Env) (thinking : Bool) (set : ToolSet) (nextCallId : CallId)
    (pieces : List (Text × List L))
    (ht : callStart <:+: (parts thinking (pieces.flatMap Prod.fst)).2) :
    let out := EventSplitter.run env thinking (some set) [] nextCallId pieces .eos
    out.2 ≠ none ∨ ∃ event ∈ out.1, ∃ call, event = .toolCall call := by
  intro out
  have hh := run_heard env thinking (some set) nextCallId pieces .eos
  obtain ⟨hs, hf⟩ := Prod.mk.inj hh
  by_cases hfa : out.2 = none
  · right
    obtain ⟨name, arguments, hm⟩ := scan_calls ht (hf.symm.trans hfa)
    have hsaidCall : Atom.call name arguments ∈ heard out.1 := by
      rw [hs]
      exact mem_append_left _ (mem_append_right _ hm)
    obtain ⟨event, hev, ha⟩ := mem_flatMap.mp hsaidCall
    cases event with
    | toolCall call => exact ⟨_, hev, call, rfl⟩
    | _ => simp [atoms] at ha
  · exact .inl hfa

/-- A structured answer that the grammar derives comes through the splitter as the
answer, in whatever pieces, exactly when its JSON text holds no opening tag. -/
theorem structured_answer_survives_iff {env : Env} {engine : Tools.Engine} {tools : ToolSet}
    {choice : ToolChoice} {parallel : Bool} {schema : Json} {tags : CallTags}
    {grammar : ToolGrammar} {thinking : Bool} {lead json reasoning : Text}
    (hchoice : callRequired choice = false)
    (hbuild : build env tools choice parallel (some schema) tags = .ok grammar)
    (hlead : lead = [] ∨ engine.Matches .lead lead) (hjson : engine.Matches (.final schema) json)
    (nextCallId : CallId) {pieces : List (Text × List L)}
    (htext : if thinking then splitOnce thinkEnd (pieces.flatMap Prod.fst)
        = some (reasoning, lead ++ json)
      else pieces.flatMap Prod.fst = lead ++ json) :
    let out := EventSplitter.run env thinking (some tools) [] nextCallId pieces .eos
    Derives grammar.rules engine.Matches (.rule .start) (finalLeaves schema lead json) ∧
      spelled (finalLeaves schema lead json) = lead ++ json ∧
      ((out.2 = none ∧ (∀ event ∈ out.1, Plain event ∧ ∀ call, event ≠ .toolCall call) ∧
          sansLead (contentText out.1) = sansLead json) ↔ ¬ callStart <:+: json) := by
  intro out
  have hn : ∀ c ∈ lead, c = '\n' := by
    rcases hlead with rfl | hm
    · exact nofun
    · exact hm.2.2
  have hs : sansLead (parts thinking (pieces.flatMap Prod.fst)).2 = sansLead json := by
    rw [parts_final htext, sansLead_shown, sansLead_append hn]
  have htag : callStart <:+: (parts thinking (pieces.flatMap Prod.fst)).2 ↔ callStart <:+: json := by
    rw [← tag_sansLead, hs, tag_sansLead]
  refine ⟨?_, ?_, ?_⟩
  · obtain ⟨callable, _, hr⟩ := bind_eq_ok.mp hbuild
    obtain ⟨parameters, _, hr⟩ := bind_eq_ok.mp hr
    cases hr
    exact derives_final hchoice hlead hjson tools callable parallel tags
  · cases lead with
    | nil => simp [finalLeaves, spelled]
    | cons => simp [finalLeaves, spelled]
  · constructor
    · rintro ⟨hf, he, _⟩ ht
      rcases run_calls env thinking tools nextCallId pieces (htag.mpr ht) with hfa | hc
      · exact hfa hf
      · obtain ⟨event, hev, call, hc⟩ := hc
        exact (he event hev).2 call hc
    · intro hno
      obtain ⟨hf, he, hco⟩ := run_plain env thinking tools nextCallId pieces
        (fun h => hno (htag.mp h))
      exact ⟨hf, he, by rw [hco, hs]⟩

/-! ### A string answer beside a tool -/

/-- JSON strings without quotes or backslashes. -/
def readString : Text → Option Json
  | '"' :: text =>
    if text.getLast? = some '"' ∧ text.dropLast.all (fun c => c != '"' && c != '\\') then
      some (.string text.dropLast)
    else none
  | _ => none

def stringEnv : Env where
  fromStr := fun text => (readString text).elim (.error "expected value".toList) .ok
  debug := quote

/-- Its strings are valid under `{"type": "string"}`. -/
def stringEngine : Tools.Engine where
  expression := fun _ _ => False
  spelling := fun _ => []
  value := readString
  valid := fun _ schema value => schema = .object [("type".toList, .string "string".toList)] ∧
    ∃ text, value = .string text

def stringSchema : Json := .object [("type".toList, .string "string".toList)]

def noteTools : ToolSet :=
  ⟨[{ definition := ⟨"note".toList, none, .object [], false⟩, schema := none, strict := none }]⟩

def noTags : CallTags := ⟨none, none⟩

theorem stringEngine_matches {json text : Text} (hr : readString json = some (.string text)) :
    stringEngine.Matches (.final stringSchema) json :=
  ⟨_, hr, rfl, text, rfl⟩

/-- A string that quotes the opening tag is valid JSON for its schema, and the
grammar derives it: the answer fails at its end. -/
theorem quoted_tag_fails_answer :
    Derives (rules noteTools [0] .auto true (some stringSchema) noTags) stringEngine.Matches
        (.rule .start) (finalLeaves stringSchema [] "\"<tool_call>\"".toList) ∧
      (EventSplitter.run (L := Unit) stringEnv false (some noteTools) [] 0
        [("\"<tool_call>\"".toList, [])] .eos).2 = some unfinishedCall :=
  ⟨derives_final rfl (.inl rfl) (stringEngine_matches rfl) noteTools [0] true noTags, by decide⟩

/-- A string without the tag comes through, here after its newlines and in two pieces. -/
theorem string_answer_survives :
    let out := EventSplitter.run (L := Unit) stringEnv true (some noteTools) [] 0
      [("so</think>\n\n\"<tool".toList, []), ("s>\"".toList, [])] .eos
    out.2 = none ∧ (∀ event ∈ out.1, Plain event ∧ ∀ call, event ≠ .toolCall call) ∧
      sansLead (contentText out.1) = "\"<tools>\"".toList := by
  intro out
  have hl : stringEngine.Matches .lead "\n\n".toList := by
    refine ⟨by decide, by decide, fun c hc => ?_⟩
    have ha : ("\n\n".toList.all fun c => decide (c = '\n')) = true := by decide
    exact of_decide_eq_true (all_eq_true.mp ha c hc)
  have hj : stringEngine.Matches (.final stringSchema) "\"<tools>\"".toList :=
    stringEngine_matches rfl
  have hs := @structured_answer_survives_iff Unit stringEnv stringEngine noteTools .auto true
    stringSchema noTags _ true "\n\n".toList "\"<tools>\"".toList "so".toList rfl rfl (.inr hl)
    hj 0 [("so</think>\n\n\"<tool".toList, []), ("s>\"".toList, [])] rfl
  exact hs.2.2.mpr (by decide)

end LocalAi.Answer
