import LocalAi.Tools.Scan
import Mathlib.Data.List.Chain

/-!
# Where the content of an answer stands

`ToolCallParser` reports content with its offset in everything fed.  Content is the input less
the calls and the whitespace around them.

* `ParserStep`: what one round of the parser's loop can do, and whom it tells.
* `feed_keeps`, `finish_keeps`: what every step keeps, the parser keeps.
* `Segment`: a part of the input: content, a call, or the whitespace beside one.
* `content_offsets_exact`: the segments make up the input, and content is reported where it is.
* `calls_in_one_piece`: nothing is reported between the deltas of a call and the call.
-/

open List

namespace LocalAi.Tools

open LocalAi.Lib LocalAi.Answer LocalAi.Engine

variable {L K : Type}

/-! ### Whitespace at the ends of a text -/

def Space (text : Text) : Prop := ∀ c ∈ text, isWhitespace c = true

theorem trimStart_split (text : Text) : ∃ lead, text = lead ++ trimStart text ∧ Space lead :=
  ⟨text.takeWhile isWhitespace, takeWhile_append_dropWhile.symm, fun _ hc => mem_takeWhile_imp hc⟩

theorem trimEnd_split (text : Text) : ∃ trail, text = trimEnd text ++ trail ∧ Space trail := by
  refine ⟨text.rtakeWhile isWhitespace, rdropWhile_append_rtakeWhile.symm, ?_⟩
  intro c hc
  exact mem_rtakeWhile_imp hc

/-! ### Steps of the parser -/

variable {offset : Nat}

section Steps

variable (env : Env) (tools : ToolSet) (callback : Callback L K)

inductive Told (text : Text) (offset : Nat) (p : ToolCallParser) (k : K) :
    ToolCallParser → K → Prop
  | silent (hspace : Space text) (hafter : text = [] ∨ p.afterCall = true) :
      Told text offset p k p k
  | content {lead body : Text} (htext : text = lead ++ body) (hspace : Space lead)
      (hafter : lead = [] ∨ p.afterCall = true) (hbody : body ≠ []) :
      Told text offset p k { p with afterCall := false }
        (callback k (.content body) (offset + utf8Len lead)).1

inductive ParserStep : ToolCallParser → K → ToolCallParser → K → Prop
  | counters {p : ToolCallParser} {k : K} (streamed : Streamed) (nextCallId : CallId)
      (hin : p.inCall = true) (hid : ∀ before, p.streamed = some before → streamed.id = before.id) :
      ParserStep p k { p with streamed := some streamed, nextCallId } k
  | delta {p : ToolCallParser} {k : K} (delta : ToolCallDelta) (hrunning : p.failure = none)
      (hin : p.inCall = true) (hid : p.streamed.map Streamed.id = some delta.id) :
      ParserStep p k p (callback k (.toolCallDelta delta) p.consumed).1
  | call {p : ToolCallParser} {k : K} {block rest marker name : Text} {strict : Option Tool}
      {arguments : List (Text × Json)} (id : CallId) (hrunning : p.failure = none)
      (hin : p.inCall = true) (hid : id = (p.streamed.map Streamed.id).getD p.nextCallId)
      (hend : callEnd p.pending tools = some (block, rest, marker, strict))
      (hparse : parseBlock env tools block strict = .ok (name, arguments)) :
      ParserStep p k { p with
          pending := rest, consumed := p.consumed + utf8Len (block ++ marker), inCall := false,
          afterCall := true, streamed := none, nextCallId := p.nextCallId + 1 }
        (callback k (.toolCall ⟨id, name, .object arguments⟩)
          (p.consumed + utf8Len (block ++ marker))).1
  | failed {p p' : ToolCallParser} {k : K} (hfailed : p'.failure.isSome) : ParserStep p k p' k
  | start {p p' : ToolCallParser} {k k' : K} {text rest : Text} (hrunning : p.failure = none)
      (hin : p.inCall = false) (hpending : p.pending = text ++ callStart ++ rest)
      (htold : Told callback (trimEnd text) p.consumed { p with
          pending := rest, consumed := p.consumed + utf8Len (text ++ callStart), inCall := true }
        k p' k') : ParserStep p k p' k'
  | text {p p' : ToolCallParser} {k k' : K} {text rest : Text} (hrunning : p.failure = none)
      (hin : p.inCall = false) (hpending : p.pending = text ++ rest)
      (htold : Told callback text p.consumed
        { p with pending := rest, consumed := p.consumed + utf8Len text } k p' k') :
      ParserStep p k p' k'

variable {env tools callback}

theorem emitText_told (text : Text) (offset : Nat) (p : ToolCallParser) (k : K) :
    Told callback text offset p k (emitText callback text offset p k).1
      (emitText callback text offset p k).2.1 := by
  obtain ⟨lead, ht, hs⟩ := trimStart_split text
  unfold emitText
  by_cases ha : p.afterCall = true
  · simp only [ha, if_true]
    split
    · next he =>
      rw [isEmpty_iff.mp he, append_nil] at ht
      exact .silent (ht ▸ hs) (.inr ha)
    · next hb =>
      have ho : offset + utf8Len text - utf8Len (trimStart text) = offset + utf8Len lead := by
        have hl : utf8Len text = utf8Len lead + utf8Len (trimStart text) := by
          rw [← utf8Len_append, ← ht]
        omega
      rw [ho]
      exact .content ht hs (.inr ha) (by simpa using hb)
  · simp only [if_neg ha]
    split
    · next he =>
      have hn := isEmpty_iff.mp he
      exact .silent (by simp [hn, Space]) (.inl hn)
    · next hb =>
      have ho : offset + utf8Len text - utf8Len text = offset + utf8Len [] := by simp
      rw [ho]
      exact .content rfl (by simp [Space]) (.inl rfl) (by simpa using hb)

variable {p : ToolCallParser}

variable {k : K}

theorem Told.same {text : Text} {p' : ToolCallParser} {k' : K}
    (h : Told callback text offset p k p' k') : ∃ after, p' = { p with afterCall := after } := by
  cases h with
  | silent => exact ⟨p.afterCall, rfl⟩
  | content => exact ⟨false, rfl⟩

theorem ParserStep.running {p' : ToolCallParser} {k' : K}
    (h : ParserStep env tools callback p k p' k') (hf : p'.failure = none) : p.failure = none := by
  cases h with
  | failed hs =>
    rw [hf] at hs
    cases hs
  | start hr => exact hr
  | text hr => exact hr
  | _ => exact hf

variable {I : ToolCallParser → K → Prop}

theorem sendPieces_keeps (hr : p.failure = none) (hin : p.inCall = true)
    (hs : ∀ {p k p' k'}, ParserStep env tools callback p k p' k' → I p k → I p' k') (last : Nat)
    (todo : List (Piece × Nat)) (streamed : Streamed)
    (hid : p.streamed.map Streamed.id = some streamed.id) (h : I p k) :
    I p (sendPieces callback last p.consumed todo streamed k).2.1 ∧
      (sendPieces callback last p.consumed todo streamed k).1.id = streamed.id := by
  induction todo generalizing streamed k with
  | nil => exact ⟨h, rfl⟩
  | cons entry rest ih =>
    obtain ⟨piece, index⟩ := entry
    rw [sendPieces]
    dsimp only
    generalize hn : (if index < last then _ else _ : Streamed) = next
    have hni : next.id = streamed.id := by
      rw [← hn]
      split <;> rfl
    rw [← hni] at hid ⊢
    split
    · exact ih next hid h
    · split
      · exact ih next hid (hs (.delta _ hr hin hid) h)
      · exact ⟨hs (.delta _ hr hin hid) h, rfl⟩

theorem counters_id {name : Text} {before : Streamed} (h : p.streamed = some before) :
    (p.counters name).1.id = before.id := by
  rw [ToolCallParser.counters, h]

theorem stream_keeps (hs : ∀ {p k p' k'}, ParserStep env tools callback p k p' k' → I p k → I p' k')
    (hr : p.failure = none) (hin : p.inCall = true) (h : I p k) :
    I (stream env tools callback p k).1 (stream env tools callback p k).2.1 := by
  unfold stream
  split
  · exact h
  · next name pieces _ =>
    -- the counters are the call's own before its deltas are sent, and are moved behind them
    have hb := hs (.counters (p.counters name).1 (p.counters name).2 hin fun _ => counters_id) h
    obtain ⟨hsent, hid⟩ := sendPieces_keeps (by exact hr) (by exact hin) hs (pieces.length - 1)
      (pieces.zipIdx.drop (p.counters name).1.piece) (p.counters name).1 rfl hb
    have hm : ∀ before, some (p.counters name).1 = some before → (p.counters name).1.id = before.id :=
      fun _ hst => congrArg Streamed.id (Option.some.inj hst)
    have he := hs (.counters _ (p.counters name).2 (by exact hin) fun before hst =>
      hid.trans (hm before hst)) hsent
    exact he

theorem feedLoop_keeps
    (hs : ∀ {p k p' k'}, ParserStep env tools callback p k p' k' → I p k → I p' k') (fuel : Nat)
    (hr : p.failure = none) (h : I p k) :
    I (feedLoop env tools callback fuel p k).1 (feedLoop env tools callback fuel p k).2.1 := by
  induction fuel generalizing p k with
  | zero => exact h
  | succ fuel ih =>
    rw [feedLoop]
    split
    · next hin =>
      split
      · exact stream_keeps hs hr hin h
      · next block rest marker strict hend =>
        dsimp only
        split
        · next name arguments hp =>
          have hc := hs (.call _ hr hin rfl hend hp) h
          split
          · exact ih hr hc
          · exact hc
        · exact hs (.failed rfl) h
    · next hin =>
      have hin' : p.inCall = false := by simpa using hin
      split
      · next text rest hst =>
        have ht : Told callback (trimEnd text) p.consumed { p with
              pending := rest, consumed := p.consumed + utf8Len (text ++ callStart),
              inCall := true } k _ _ := emitText_told _ _ _ _
        have he := hs (.start hr hin' (splitOnce_eq_some hst) ht) h
        obtain ⟨after, hsa⟩ := ht.same
        dsimp only
        split
        · exact ih (by rw [hsa]; exact hr) he
        · exact he
      · dsimp only
        split
        · exact h
        · exact hs (.text hr hin' (take_append_drop _ _).symm (emitText_told _ p.consumed _ k)) h

theorem feed_keeps
    (hs : ∀ {p k p' k'}, ParserStep env tools callback p k p' k' → I p k → I p' k') {text : Text}
    (hfa : p.failure.isSome → I p k)
    (h : p.failure = none → I { p with pending := p.pending ++ text } k) :
    I (feed env tools callback text p k).1 (feed env tools callback text p k).2.1 := by
  unfold feed
  split
  · next hf => exact hfa hf
  · next hf =>
    have hr : p.failure = none := by simpa using hf
    exact feedLoop_keeps hs _ hr (h hr)

/-- What `finish` can do: an open call fails at the model's own end and is dropped at any other;
held text is content. -/
theorem finish_keeps {reason : StopReason} (hf : ∀ p' : ToolCallParser, p'.failure.isSome → I p' k)
    (hd : p.inCall = true → reason ≠ .eos → I { p with
          consumed := p.consumed + utf8Len p.pending, pending := [], inCall := false,
          streamed := none } k)
    (ht : p.failure = none → p.inCall = false → ∀ p' k', Told callback p.pending p.consumed
      { p with pending := [], consumed := p.consumed + utf8Len p.pending } k p' k' → I p' k') :
    I (finish callback reason p k).1 (finish callback reason p k).2.1 := by
  unfold finish
  split
  · next hfa => exact hf p hfa
  · next hfa =>
    split
    · next hin =>
      split
      · exact hf _ rfl
      · next hr => exact hd hin hr
    · next hin =>
      exact ht (by simpa using hfa) (by simpa using hin) _ _ (emitText_told _ p.consumed _ k)

end Steps

/-! ### The segments of the input -/

inductive Segment
  | content (text : Text)
  | space (text : Text)
  | call (block marker name : Text) (arguments : List (Text × Json))
  | dropped (rest : Text)

namespace Segment

def text : Segment → Text
  | content text => text
  | space text => text
  | call block marker _ _ => callStart ++ block ++ marker
  | dropped rest => callStart ++ rest

def Ok (env : Env) (tools : ToolSet) : Segment → Prop
  | content text => text ≠ []
  | space text => Space text
  | call block marker name arguments => ∃ rest strict,
      callEnd (block ++ marker ++ rest) tools = some (block, rest, marker, strict) ∧
        parseBlock env tools block strict = .ok (name, arguments)
  | dropped _ => True

/-- Whether a call comes first; `before` is whether one follows. -/
def opens (before : Bool) : List Segment → Bool
  | [] => before
  | call .. :: _ => true
  | dropped _ :: _ => true
  | _ :: _ => false

/-- Whether a call comes last, whitespace aside; `after` is whether one precedes. -/
def ends : (after : Bool) → List Segment → Bool
  | after, [] => after
  | after, space _ :: rest => ends after rest
  | _, call .. :: rest => ends true rest
  | _, _ :: rest => ends false rest

/-- All whitespace is adjacent to a call. -/
def Spaced (before : Bool) : (after : Bool) → List Segment → Prop
  | _, [] => True
  | after, space _ :: rest => (after = true ∨ opens before rest = true) ∧ Spaced before after rest
  | _, call .. :: rest => Spaced before true rest
  | _, _ :: rest => Spaced before false rest

theorem ends_append (after : Bool) (a b : List Segment) :
    ends after (a ++ b) = ends (ends after a) b := by
  induction a generalizing after with
  | nil => rfl
  | cons segment a ih => cases segment <;> exact ih _

theorem opens_append (before : Bool) (a b : List Segment) :
    opens before (a ++ b) = opens (opens before b) a := by
  cases a with
  | nil => rfl
  | cons segment => cases segment <;> rfl

theorem spaced_append {before after : Bool} {a b : List Segment} :
    Spaced before after (a ++ b) ↔ Spaced (opens before b) after a ∧
      Spaced before (ends after a) b := by
  induction a generalizing after with
  | nil => simp [Spaced, ends]
  | cons segment a ih =>
    cases segment with
    | space => simp only [cons_append, Spaced, ends, ih, opens_append, and_assoc]
    | _ => exact ih

theorem Spaced.weaken {before after : Bool} {a : List Segment} (h : Spaced false after a) :
    Spaced before after a := by
  induction a generalizing after with
  | nil => trivial
  | cons segment a ih =>
    cases segment with
    | space =>
      refine ⟨h.1.imp_right fun ho => ?_, ih h.2⟩
      cases a with
      | nil => cases ho
      | cons next => cases next <;> exact ho
    | _ => exact ih h

def placed : (offset : Nat) → List Segment → List (Text × Nat)
  | _, [] => []
  | offset, content text :: rest => (text, offset) :: placed (offset + utf8Len text) rest
  | offset, segment :: rest => placed (offset + utf8Len segment.text) rest

theorem placed_append (offset : Nat) (a b : List Segment) :
    placed offset (a ++ b) = placed offset a ++ placed (offset + utf8Len (a.flatMap text)) b := by
  induction a generalizing offset with
  | nil => simp [placed]
  | cons segment a ih =>
    cases segment <;> simp only [cons_append, placed, ih, flatMap_cons, utf8Len_append,
      Nat.add_assoc, text]

theorem placed_exact {segments : List Segment} {entry : Text × Nat}
    (h : entry ∈ placed offset segments) : ∃ before after,
      segments.flatMap text = before ++ entry.1 ++ after ∧ offset + utf8Len before = entry.2 := by
  induction segments generalizing offset with
  | nil => cases h
  | cons segment segments ih =>
    have hr : ∀ offset', offset' = offset + utf8Len segment.text →
        entry ∈ placed offset' segments → ∃ before after,
          (segment :: segments).flatMap text = before ++ entry.1 ++ after ∧
            offset + utf8Len before = entry.2 := by
      rintro offset' rfl hm
      obtain ⟨before, after, ht, ho⟩ := ih hm
      exact ⟨segment.text ++ before, after, by simp [ht], by simp [← ho, Nat.add_assoc]⟩
    cases segment with
    | content =>
      rw [placed] at h
      rcases mem_cons.mp h with rfl | hm
      · exact ⟨[], segments.flatMap Segment.text, rfl, rfl⟩
      · exact hr _ rfl hm
    | _ =>
      rw [placed] at h
      · exact hr _ rfl h
      · exact nofun

theorem le_of_mem_placed {segments : List Segment} {entry : Text × Nat}
    (h : entry ∈ placed offset segments) : offset ≤ entry.2 := by
  obtain ⟨before, after, -, ho⟩ := placed_exact h
  omega

theorem placed_pairwise (offset : Nat) (segments : List Segment) :
    (placed offset segments).Pairwise fun a b => a.2 + utf8Len a.1 ≤ b.2 := by
  induction segments generalizing offset with
  | nil => exact .nil
  | cons segment segments ih =>
    cases segment with
    | content =>
      rw [placed]
      exact .cons (fun entry he => le_of_mem_placed he) (ih _)
    | _ =>
      rw [placed]
      · exact ih _
      · exact nofun

def calls (segments : List Segment) : List (Text × Json) :=
  segments.filterMap fun
    | call _ _ name arguments => some (name, .object arguments)
    | _ => none

end Segment

/-! ### What is reported of the segments -/

open Segment (placed ends opens Spaced)
open StopSequences (recorder recorder_apply)

/-- The content reported, with its offsets. -/
def reported (log : List (Event L × Nat)) : List (Text × Nat) :=
  log.filterMap fun
    | (.content text, offset) => some (text, offset)
    | _ => none

def made (log : List (Event L × Nat)) : List (Text × Json) :=
  log.filterMap fun
    | (.toolCall call, _) => some (call.name, call.arguments)
    | _ => none

/-- The input of an open call that is no longer pending. -/
def opened (inCall : Bool) : Text := if inCall then callStart else []

structure Account (env : Env) (tools : ToolSet) (input : Text) (p : ToolCallParser)
    (log : List (Event L × Nat)) (segments : List Segment) : Prop where
  input : input = segments.flatMap Segment.text ++ opened p.inCall ++ p.pending
  consumed : p.consumed = utf8Len (segments.flatMap Segment.text ++ opened p.inCall)
  contents : reported log = placed 0 segments
  calls : made log = Segment.calls segments
  spaced : Spaced p.inCall false segments
  after : p.inCall = false → p.afterCall = true → ends false segments = true
  ok : ∀ segment ∈ segments, segment.Ok env tools
  whole : ∀ rest, .dropped rest ∉ segments

section Account

variable {env : Env} {tools : ToolSet} {input : Text} {p p' : ToolCallParser}
  {log log' : List (Event L × Nat)} {segments : List Segment}

structure Adds (env : Env) (tools : ToolSet) (text : Text) (p p' : ToolCallParser)
    (log' : List (Event L × Nat)) (segments more : List Segment) : Prop where
  text : more.flatMap Segment.text = text
  contents : reported log' = placed 0 (segments ++ more)
  calls : made log' = Segment.calls (segments ++ more)
  spaced : ∀ before, Spaced before (ends false segments) more
  ok : ∀ segment ∈ more, segment.Ok env tools
  whole : ∀ rest, .dropped rest ∉ more
  same : ∃ after, p' = { p with afterCall := after } ∧
    (after = true → ends false (segments ++ more) = true)

theorem Told.adds {text : Text} (h : Told recorder text offset p log p' log')
    (ho : offset = utf8Len (segments.flatMap Segment.text))
    (hco : reported log = placed 0 segments) (hc : made log = Segment.calls segments)
    (ha : p.afterCall = true → ends false segments = true) :
    ∃ more, Adds env tools text p p' log' segments more := by
  cases h with
  | silent hs hsil =>
    by_cases hn : text = []
    · refine ⟨[], by simp [hn], by simpa using hco, by simpa using hc,
        fun _ => trivial, by simp, by simp, p.afterCall, rfl, by simpa using ha⟩
    · have he := ha (hsil.resolve_left hn)
      refine ⟨[.space text], by simp [Segment.text], ?_, ?_, fun _ => ⟨.inl he, trivial⟩,
        by simpa [Segment.Ok] using hs, by simp, p.afterCall, rfl, fun _ => ?_⟩
      · simpa [Segment.placed_append, placed] using hco
      · simpa [Segment.calls] using hc
      · rw [Segment.ends_append, he]
        rfl
  | @content lead body ht hs hl hb =>
    have hsa : reported (log ++ [(.content body, offset + utf8Len lead)]) =
        reported log ++ [(body, offset + utf8Len lead)] := by
      simp [reported]
    have hm : made (log ++ [(.content body, offset + utf8Len lead)]) = made log := by
      simp [made]
    by_cases hn : lead = []
    · subst hn
      refine ⟨[.content body], by simp [Segment.text, ht], ?_, ?_, fun _ => trivial,
        by simpa [Segment.Ok] using hb, by simp, false, rfl, by simp⟩
      · rw [recorder_apply, hsa, hco, Segment.placed_append, ho]
        simp [placed]
      · rw [recorder_apply, hm, hc]
        simp [Segment.calls]
    · have he := ha (hl.resolve_left hn)
      refine ⟨[.space lead, .content body], by simp [Segment.text, ht], ?_, ?_,
        fun _ => ⟨.inl he, trivial⟩, ?_, by simp, false, rfl, by simp⟩
      · rw [recorder_apply, hsa, hco, Segment.placed_append, ho]
        simp [placed, Segment.text]
      · rw [recorder_apply, hm, hc]
        simp [Segment.calls]
      · intro segment hseg
        simp only [mem_cons, not_mem_nil, or_false] at hseg
        rcases hseg with rfl | rfl
        · exact hs
        · exact hb

theorem Account.adds {text rest : Text} {inCall : Bool} {consumed : Nat}
    (h : Account env tools input p log segments) (hin : p.inCall = false)
    (ht : Told recorder text p.consumed { p with pending := rest, consumed, inCall } log p' log') :
    ∃ more, Adds env tools text { p with pending := rest, consumed, inCall } p' log' segments
      more := by
  refine ht.adds ?_ h.contents h.calls (h.after hin)
  rw [h.consumed, hin]
  simp [opened]

theorem Account.step (h : Account env tools input p log segments) (hf : p'.failure = none)
    (hst : ParserStep env tools recorder p log p' log') :
    ∃ segments', Account env tools input p' log' segments' := by
  cases hst with
  | counters =>
    exact ⟨segments, h.input, h.consumed, h.contents, h.calls, h.spaced, h.after, h.ok, h.whole⟩
  | delta =>
    exact ⟨segments, h.input, h.consumed, by simpa [reported] using h.contents,
      by simpa [made] using h.calls, h.spaced, h.after, h.ok, h.whole⟩
  | @call _ block rest marker name strict arguments id _ hin _ he hpa =>
    obtain ⟨hp, -⟩ := callEnd_eq_some he
    refine ⟨segments ++ [.call block marker name arguments], ?_, ?_, ?_, ?_, ?_, ?_, ?_, ?_⟩
    · simp [h.input, hin, hp, opened, Segment.text]
    · simp [h.consumed, hin, opened, Segment.text, Nat.add_assoc]
    · simpa [reported, Segment.placed_append, placed] using h.contents
    · simpa [made, Segment.calls] using h.calls
    · refine Segment.spaced_append.mpr ⟨?_, trivial⟩
      have hs := h.spaced
      rwa [hin] at hs
    · intro _ _
      rw [Segment.ends_append]
      rfl
    · rw [forall_mem_append]
      refine ⟨h.ok, fun segment hseg => ?_⟩
      rw [mem_singleton.mp hseg]
      exact ⟨rest, strict, hp ▸ he, hpa⟩
    · simpa using h.whole
  | failed hso =>
    rw [hf] at hso
    cases hso
  | @start _ _ _ text rest hrun hin hp ht =>
    obtain ⟨trail, hte, hsp⟩ := trimEnd_split text
    obtain ⟨more, ha⟩ := h.adds hin ht
    obtain ⟨after, rfl, haft⟩ := ha.same
    have hs : Spaced false false segments := hin ▸ h.spaced
    have hw : (segments ++ more ++ [Segment.space trail]).flatMap Segment.text =
        segments.flatMap Segment.text ++ text := by
      simp only [flatMap_append, ha.text, flatMap_singleton, Segment.text, append_assoc, ← hte]
    refine ⟨segments ++ more ++ [.space trail], ?_, ?_, ?_, ?_, ?_, ?_, ?_, ?_⟩
    · rw [hw]
      simp [h.input, hin, hp, opened]
    · rw [hw]
      simp [h.consumed, hin, opened]
    · rw [Segment.placed_append, ← ha.contents]
      simp [placed]
    · rw [ha.calls]
      simp [Segment.calls]
    · refine Segment.spaced_append.mpr ⟨?_, .inr rfl, trivial⟩
      exact Segment.spaced_append.mpr ⟨hs.weaken, ha.spaced _⟩
    · intro ho
      cases ho
    · rw [forall_mem_append, forall_mem_append]
      refine ⟨⟨h.ok, ha.ok⟩, fun segment hseg => ?_⟩
      rw [mem_singleton.mp hseg]
      exact hsp
    · intro r hr
      simp only [mem_append, mem_singleton] at hr
      rcases hr with (hr | hr) | hr
      · exact h.whole r hr
      · exact ha.whole r hr
      · cases hr
  | @text _ _ _ text rest hrun hin hp ht =>
    obtain ⟨more, ha⟩ := h.adds hin ht
    obtain ⟨after, rfl, haft⟩ := ha.same
    have hs : Spaced false false segments := hin ▸ h.spaced
    refine ⟨segments ++ more, ?_, ?_, ha.contents, ha.calls, ?_, fun _ => haft, ?_, ?_⟩
    · simp [h.input, hin, hp, opened, ha.text]
    · simp [h.consumed, hin, opened, ha.text]
    · refine Segment.spaced_append.mpr ⟨hs.weaken, ha.spaced _⟩
    · rw [forall_mem_append]
      exact ⟨h.ok, ha.ok⟩
    · intro r hr
      rcases mem_append.mp hr with hr | hr
      · exact h.whole r hr
      · exact ha.whole r hr

theorem feed_account (text : Text)
    (h : p.failure = none → ∃ segments, Account env tools input p log segments) :
    (feed env tools recorder text p log).1.failure = none →
      ∃ segments, Account env tools (input ++ text) (feed env tools recorder text p log).1
        (feed env tools recorder text p log).2.1 segments := by
  refine feed_keeps (I := fun p log => p.failure = none →
    ∃ segments, Account env tools (input ++ text) p log segments) ?_ ?_ ?_
  · intro p log p' log' hst hb hf
    obtain ⟨segments, ha⟩ := hb (hst.running hf)
    exact ha.step hf hst
  · intro hs hn
    rw [hn] at hs
    cases hs
  · intro hn _
    obtain ⟨segments, ha⟩ := h hn
    refine ⟨segments, ?_, ha.consumed, ha.contents, ha.calls, ha.spaced, ha.after, ha.ok, ha.whole⟩
    rw [ha.input, append_assoc]

/-- The whole input is cut into segments; only its end can be a call that was dropped. -/
structure Segmented (env : Env) (tools : ToolSet) (reason : StopReason) (input : Text)
    (log : List (Event L × Nat)) (segments : List Segment) : Prop where
  input : segments.flatMap Segment.text = input
  contents : reported log = placed 0 segments
  calls : made log = Segment.calls segments
  spaced : Spaced false false segments
  ok : ∀ segment ∈ segments, segment.Ok env tools
  dropped : ∀ front rest back, segments = front ++ .dropped rest :: back → back = [] ∧ reason ≠ .eos

theorem Account.segmented (h : Account env tools input p log segments) {reason : StopReason}
    (hin : p.inCall = false) (hp : p.pending = []) :
    Segmented env tools reason input log segments := by
  refine ⟨by simp [h.input, hin, hp, opened], h.contents, h.calls, hin ▸ h.spaced, h.ok, ?_⟩
  intro front rest back hs
  exact absurd (by simp [hs]) (h.whole rest)

theorem finish_segmented (reason : StopReason)
    (h : p.failure = none → ∃ segments, Account env tools input p log segments) :
    (finish recorder reason p log).1.failure = none →
      ∃ segments, Segmented env tools reason input (finish recorder reason p log).2.1 segments := by
  refine finish_keeps (I := fun p' log' => p'.failure = none →
    ∃ segments, Segmented env tools reason input log' segments) ?_ ?_ ?_
  · intro p' hso hn
    rw [hn] at hso
    cases hso
  · intro hin hrsn hn
    obtain ⟨segments, ha⟩ := h hn
    refine ⟨segments ++ [.dropped p.pending], ?_, ?_, ?_, ?_, ?_, ?_⟩
    · simp [ha.input, hin, opened, Segment.text]
    · simpa [Segment.placed_append, placed] using ha.contents
    · simpa [Segment.calls] using ha.calls
    · refine Segment.spaced_append.mpr ⟨?_, trivial⟩
      have hs := ha.spaced
      rwa [hin] at hs
    · rw [forall_mem_append]
      refine ⟨ha.ok, fun segment hseg => ?_⟩
      rw [mem_singleton.mp hseg]
      trivial
    · intro front rest back hsegs
      refine ⟨?_, hrsn⟩
      -- a dropped call before the last segment would be one of `segments`
      rcases eq_nil_or_concat back with hb | ⟨back', last, hb⟩
      · exact hb
      · rw [hb, concat_eq_append, ← cons_append, ← append_assoc] at hsegs
        have hf := (append_inj' hsegs rfl).1
        exact absurd (by simp [hf]) (ha.whole rest)
  · intro hrun hin p' log' ht hn
    have hst : ParserStep env tools recorder p log p' log' :=
      .text hrun hin (append_nil _).symm ht
    obtain ⟨segments, ha⟩ := h (hst.running hn)
    obtain ⟨segments', ha'⟩ := ha.step hn hst
    obtain ⟨after, rfl⟩ := ht.same
    exact ⟨segments', ha'.segmented hin rfl⟩

end Account

/-! ### Every answer -/

/-- The pieces of an answer parsed in order and finished, with everything reported. -/
def parsed (L : Type) (env : Env) (tools : ToolSet) (nextCallId : CallId) (pieces : List Text)
    (reason : StopReason) : ToolCallParser × List (Event L × Nat) :=
  let (p, log) := pieces.foldl (fun (p, log) piece =>
    let (p, log, _) := feed env tools recorder piece p log
    (p, log)) (ToolCallParser.new nextCallId, [])
  let (p, log, _) := finish recorder reason p log
  (p, log)

theorem foldl_account {env : Env} {tools : ToolSet} (pieces : List Text) {input : Text}
    {p : ToolCallParser} {log : List (Event L × Nat)}
    (h : p.failure = none → ∃ segments, Account env tools input p log segments) :
    let state := pieces.foldl (fun (p, log) piece =>
      let (p, log, _) := feed env tools recorder piece p log
      (p, log)) (p, log)
    state.1.failure = none →
      ∃ segments, Account env tools (input ++ pieces.flatten) state.1 state.2 segments := by
  induction pieces generalizing input p log with
  | nil => simpa using h
  | cons piece pieces ih =>
    have hr := ih (feed_account piece h)
    rw [append_assoc] at hr
    exact hr

theorem account_new (env : Env) (tools : ToolSet) (nextCallId : CallId) :
    Account env tools [] (ToolCallParser.new nextCallId) ([] : List (Event L × Nat)) [] :=
  ⟨rfl, rfl, rfl, rfl, trivial, by simp [ToolCallParser.new], by simp, by simp⟩

/-- **Content offsets are exact and nothing is lost.**  An answer that is parsed without a
failure is cut into segments: content, reported at its offset; calls, each up to the marker that
ended it; a call still open at an end that is not the model's own; and whitespace beside a call. -/
theorem content_offsets_exact (env : Env) (tools : ToolSet) (nextCallId : CallId)
    (pieces : List Text) (reason : StopReason)
    (h : (parsed L env tools nextCallId pieces reason).1.failure = none) :
    let log := (parsed L env tools nextCallId pieces reason).2
    (∀ entry ∈ reported log, ∃ before after,
      pieces.flatten = before ++ entry.1 ++ after ∧ utf8Len before = entry.2) ∧
    (reported log).Pairwise (fun a b => a.2 + utf8Len a.1 ≤ b.2) ∧
    ∃ segments, Segmented env tools reason pieces.flatten log segments := by
  have hf := foldl_account (L := L) pieces (fun _ => ⟨[], account_new env tools nextCallId⟩)
  obtain ⟨segments, hs⟩ := finish_segmented reason hf h
  rw [nil_append] at hs
  refine ⟨fun entry he => ?_, ?_, segments, hs⟩
  · obtain ⟨before, after, ht, ho⟩ :=
      Segment.placed_exact (hs.contents ▸ he)
    exact ⟨before, after, hs.input.symm.trans ht, by omega⟩
  · have hp := Segment.placed_pairwise 0 segments
    rw [← hs.contents] at hp
    exact hp

/-- Between the deltas of a call, and between them and that call, nothing is reported. -/
def Joins : Event L × Nat → Event L × Nat → Prop
  | (.toolCallDelta delta, _), (.toolCallDelta next, _) => next.id = delta.id
  | (.toolCallDelta delta, _), (.toolCall call, _) => call.id = delta.id
  | (.toolCallDelta _, _), _ => False
  | _, _ => True

structure Joined (p : ToolCallParser) (log : List (Event L × Nat)) : Prop where
  chain : log.IsChain Joins
  inCall : p.failure = none → ∀ delta offset,
    log.getLast? = some (.toolCallDelta delta, offset) →
      p.inCall = true ∧ p.streamed.map Streamed.id = some delta.id

section Joined

variable {p p' : ToolCallParser} {log log' : List (Event L × Nat)}

theorem Joined.told (h : Joined p log) (hf : p.failure = none) (hin : p.inCall = false)
    {text : Text} {offset : Nat} {q : ToolCallParser}
    (ht : Told recorder text offset q log p' log') : Joined p' log' := by
  have hl : ∀ delta offset, log.getLast? ≠ some (.toolCallDelta delta, offset) := by
    intro delta offset hl
    rw [(h.inCall hf delta offset hl).1] at hin
    cases hin
  cases ht with
  | silent => exact ⟨h.chain, fun _ delta offset hd => absurd hd (hl delta offset)⟩
  | content =>
    refine ⟨isChain_append.mpr ⟨h.chain, .singleton _, ?_⟩, fun _ delta offset hd => ?_⟩
    · intro entry he other ho
      cases ho
      cases entry with
      | mk event offset =>
        cases event with
        | toolCallDelta delta => exact absurd he (hl delta offset)
        | _ => trivial
    · rw [recorder_apply, getLast?_concat] at hd
      cases hd

theorem Joined.step {env : Env} {tools : ToolSet} (h : Joined p log)
    (hst : ParserStep env tools recorder p log p' log') : Joined p' log' := by
  cases hst with
  | counters streamed _ hin hid =>
    refine ⟨h.chain, fun hf delta offset hd => ⟨hin, ?_⟩⟩
    obtain ⟨before, hb, hi⟩ := Option.map_eq_some_iff.mp (h.inCall hf delta offset hd).2
    exact congrArg some ((hid before hb).trans hi)
  | delta delta hrun hin hid =>
    refine ⟨isChain_append.mpr ⟨h.chain, .singleton _, ?_⟩, fun _ other offset hd => ⟨hin, ?_⟩⟩
    · rintro ⟨event, offset⟩ he other ho
      cases ho
      cases event with
      | toolCallDelta before =>
        exact Option.some.inj (hid.symm.trans (h.inCall hrun before offset he).2)
      | _ => trivial
    · rw [recorder_apply, getLast?_concat] at hd
      cases hd
      exact hid
  | call id hrun _ hid =>
    refine ⟨isChain_append.mpr ⟨h.chain, .singleton _, ?_⟩, fun _ delta offset hd => ?_⟩
    · rintro ⟨event, offset⟩ he other ho
      cases ho
      cases event with
      | toolCallDelta before =>
        rw [hid, (h.inCall hrun before offset he).2]
        rfl
      | _ => trivial
    · rw [recorder_apply, getLast?_concat] at hd
      cases hd
  | failed hso =>
    refine ⟨h.chain, fun hn => ?_⟩
    rw [hn] at hso
    cases hso
  | start hrun hin _ ht => exact h.told hrun hin ht
  | text hrun hin _ ht => exact h.told hrun hin ht

/-- **A call is reported in one piece**: its deltas, then the call, and nothing between. -/
theorem calls_in_one_piece (env : Env) (tools : ToolSet) (nextCallId : CallId)
    (pieces : List Text) (reason : StopReason) :
    (parsed L env tools nextCallId pieces reason).2.IsChain Joins := by
  have hfo : ∀ (pieces : List Text) (p : ToolCallParser) (log : List (Event L × Nat)),
      Joined p log →
      let state := pieces.foldl (fun (p, log) piece =>
        let (p, log, _) := feed env tools recorder piece p log
        (p, log)) (p, log)
      Joined state.1 state.2 := by
    intro pieces
    induction pieces with
    | nil => exact fun _ _ h => h
    | cons piece pieces ih =>
      intro p log h
      exact ih _ _ (feed_keeps (I := Joined) (fun hst hj => hj.step hst) (fun _ => h)
        fun _ => ⟨h.chain, h.inCall⟩)
  have hj := hfo pieces (ToolCallParser.new nextCallId) [] ⟨.nil, fun _ _ _ hd => by cases hd⟩
  refine finish_keeps (I := fun _ (log : List (Event L × Nat)) => log.IsChain Joins)
    (fun _ _ => hj.chain) (fun _ _ => hj.chain) ?_
  exact fun hrun hin p' log' ht => (hj.told hrun hin ht).chain

end Joined

def wordEnv : Env where
  fromStr := fun _ => .error "expected value".toList
  debug := quote

def wordPieces : List Text :=
  ["Hi".toList, " \n<tool".toList, "_call>\n<function=f>\n</function>\n</tool_call>\n b".toList,
    "ye".toList]

theorem call_between_words_exact : (parsed Unit wordEnv ⟨[]⟩ 0 wordPieces .eos).1.failure = none ∧
      reported (parsed Unit wordEnv ⟨[]⟩ 0 wordPieces .eos).2 =
        [("Hi".toList, 0), ("b".toList, 55), ("ye".toList, 56)] ∧
      ∃ segments, Segmented wordEnv ⟨[]⟩ .eos wordPieces.flatten
        (parsed Unit wordEnv ⟨[]⟩ 0 wordPieces .eos).2 segments := by
  have hn : (parsed Unit wordEnv ⟨[]⟩ 0 wordPieces .eos).1.failure = none := by decide +kernel
  refine ⟨hn, by decide +kernel, ?_⟩
  exact (content_offsets_exact wordEnv ⟨[]⟩ 0 wordPieces .eos hn).2.2

end LocalAi.Tools
