import LocalAi.Answer.Splitter
import LocalAi.Lib.Bisect
import LocalAi.Tools.Offsets

/-!
# Log-probabilities travel with their text

Every generated piece may carry the log-probabilities of its tokens.  They go out before the
first content that holds some of the piece's text, and never for text that is not content.

* `spans`: the records of the pieces, with the text they belong to.
* `Sent`: what has been sent, and what is still queued.
* `deliver_content`: one content event takes the records of its text.
* `Ready`: the same behind the stop sequences, for content that arrives in order.
* `logprobs_with_their_text`: a whole run.
-/

open List

namespace LocalAi.Answer

open LocalAi.Lib LocalAi.Tools LocalAi.Engine

variable {L K : Type}

/-! ### Places in the generated text -/

def At (generated : Text) (offset : Nat) (text : Text) : Prop :=
  ∃ before after, generated = before ++ text ++ after ∧ utf8Len before = offset

section At

variable {generated : Text} {offset : Nat} {text : Text}

theorem append_inj_utf8 {a b c d : Text} (h : a ++ b = c ++ d) (hl : utf8Len a = utf8Len c) :
    a = c ∧ b = d := by
  induction a generalizing c with
  | nil => exact ⟨(eq_nil_of_utf8Len hl.symm).symm, by simpa [eq_nil_of_utf8Len hl.symm] using h⟩
  | cons x a ih =>
    cases c with
    | nil =>
      have hx := x.utf8Size_pos
      simp only [utf8Len_cons, utf8Len_nil] at hl
      omega
    | cons =>
      obtain ⟨rfl, ht⟩ := cons.inj h
      obtain ⟨rfl, hr⟩ := ih ht (by simpa using hl)
      exact ⟨rfl, hr⟩

theorem At.grow (h : At generated offset text) (more : Text) : At (generated ++ more) offset text := by
  obtain ⟨before, after, rfl, ho⟩ := h
  exact ⟨before, after ++ more, by simp, ho⟩

theorem At.le (h : At generated offset text) : offset + utf8Len text ≤ utf8Len generated := by
  obtain ⟨before, after, rfl, ho⟩ := h
  simp only [utf8Len_append]
  omega

theorem At.left {a b : Text} (h : At generated offset (a ++ b)) : At generated offset a := by
  obtain ⟨before, after, rfl, ho⟩ := h
  exact ⟨before, b ++ after, by simp, ho⟩

theorem At.right {a b : Text} (h : At generated offset (a ++ b)) :
    At generated (offset + utf8Len a) b := by
  obtain ⟨before, after, rfl, ho⟩ := h
  exact ⟨before ++ a, after, by simp, by simp [ho]⟩

theorem At.join {a b : Text} (ha : At generated offset a)
    (hb : At generated (offset + utf8Len a) b) : At generated offset (a ++ b) := by
  obtain ⟨before, after, rfl, ho⟩ := ha
  obtain ⟨before', after', heq, ho'⟩ := hb
  rw [append_assoc before'] at heq
  obtain ⟨rfl, rfl⟩ := append_inj_utf8 heq (by rw [utf8Len_append, ho, ho'])
  exact ⟨before, after', by simp, ho⟩

end At

/-! ### Records and content -/

def spans : (start : Nat) → List (Text × List L) → List (Spanned L)
  | _, [] => []
  | start, (piece, logprobs) :: rest =>
    (if logprobs.isEmpty then [] else [⟨start, start + utf8Len piece, logprobs⟩]) ++
      spans (start + utf8Len piece) rest

def Spanned.meets (span : Spanned L) (content : Text × Nat) : Bool :=
  decide (span.start < content.2 + utf8Len content.1) && decide (content.2 < span.stop)

/-- The records whose text is in part some content. -/
def met (all : List (Spanned L)) (contents : List (Text × Nat)) : List L :=
  (all.filter fun span => contents.any span.meets).flatMap Spanned.tokens

/-- What a consumer was sent, with its answers. -/
abbrev Log (L : Type) := List (Event L × Bool)

def logged (consumer : Consumer L K) : Consumer L (K × Log L) := fun (k, log) event =>
  let (k, go) := consumer k event
  ((k, log ++ [(event, go)]), go)

def delivered (log : Log L) : List L :=
  log.flatMap fun
    | (.logprobs tokens, _) => tokens
    | _ => []

def shownTexts (log : Log L) : List Text :=
  log.filterMap fun
    | (.content text, _) => some text
    | _ => none

def Takes (log : Log L) : Prop := ∀ tokens go, (.logprobs tokens, go) ∈ log → go = true

theorem Takes.left {a b : Log L} (h : Takes (a ++ b)) : Takes a := fun tokens go hm =>
  h tokens go (mem_append_left _ hm)

theorem delivered_append (a b : Log L) : delivered (a ++ b) = delivered a ++ delivered b :=
  flatMap_append

theorem shownTexts_append (a b : Log L) : shownTexts (a ++ b) = shownTexts a ++ shownTexts b :=
  filterMap_append

/-- Each content was sent after the records of its text and of the content before it. -/
def Early (all : List (Spanned L)) (contents : List (Text × Nat)) (log : Log L) : Prop :=
  ∀ front text go back, log = front ++ (.content text, go) :: back →
    delivered front = met all (contents.take ((shownTexts front).length + 1))

structure Sent (all : List (Spanned L)) (contents : List (Text × Nat)) (log : Log L) : Prop where
  shown : shownTexts log = contents.map Prod.fst
  records : delivered log = met all contents
  early : Early all contents log

section Sent

variable {all : List (Spanned L)} {contents : List (Text × Nat)} {log : Log L}

theorem Early.other (h : Early all contents log) {event : Event L}
    (hev : ∀ text, event ≠ .content text) (go : Bool) :
    Early all contents (log ++ [(event, go)]) := by
  intro front text go' back hlog
  rcases eq_nil_or_concat back with rfl | ⟨back', last, rfl⟩
  · obtain ⟨-, hl⟩ := append_inj' hlog rfl
    simp only [cons.injEq, Prod.mk.injEq] at hl
    exact absurd hl.1.1 (hev text)
  · rw [concat_eq_append, ← cons_append, ← append_assoc] at hlog
    exact h front text go' back' (append_inj' hlog rfl).1

theorem Early.content (h : Early all contents log) {content : Text × Nat}
    (hlen : (shownTexts log).length = contents.length)
    (hn : delivered log = met all (contents ++ [content])) (go : Bool) :
    Early all (contents ++ [content]) (log ++ [(.content content.1, go)]) := by
  intro front text go' back hl
  rcases eq_nil_or_concat back with rfl | ⟨back', last, rfl⟩
  · obtain ⟨rfl, -⟩ := append_inj' hl rfl
    rw [hlen, hn, take_of_length_le (by simp)]
  · rw [concat_eq_append, ← cons_append, ← append_assoc] at hl
    have hb := (append_inj' hl rfl).1
    have hlt : (shownTexts front).length + 1 ≤ contents.length := by
      rw [← hlen, hb, shownTexts_append, length_append]
      simp [shownTexts]
    rw [h front text go' back' hb, take_append_of_le_length hlt]

/-- An event that is neither content nor records. -/
def Bare (event : Event L) : Prop :=
  (∀ text, event ≠ .content text) ∧ ∀ tokens, event ≠ .logprobs tokens

theorem Sent.plain (h : Sent all contents log) {event : Event L} (hb : Bare event)
    (go : Bool) : Sent all contents (log ++ [(event, go)]) := by
  refine ⟨?_, ?_, h.early.other hb.1 go⟩
  · rw [shownTexts_append, h.shown]
    cases event with
    | content text => exact absurd rfl (hb.1 text)
    | _ => simp [shownTexts]
  · rw [delivered_append, h.records]
    cases event with
    | logprobs tokens => exact absurd rfl (hb.2 tokens)
    | _ => simp [delivered]

theorem Sent.bare (h : Sent all contents log) {content : Text × Nat}
    (hr : met all (contents ++ [content]) = met all contents) (go : Bool) :
    Sent all (contents ++ [content]) (log ++ [(.content content.1, go)]) := by
  refine ⟨?_, ?_, h.early.content (by rw [h.shown, length_map]) ?_ go⟩
  · rw [shownTexts_append, h.shown]
    simp [shownTexts]
  · rw [delivered_append, h.records, hr]
    simp [delivered]
  · rw [h.records, hr]

theorem Sent.content (h : Sent all contents log) {content : Text × Nat} {tokens : List L}
    (hr : met all (contents ++ [content]) = met all contents ++ tokens) (go go' : Bool) :
    Sent all (contents ++ [content])
      (log ++ [(.logprobs tokens, go)] ++ [(.content content.1, go')]) := by
  have hs : shownTexts (log ++ [(.logprobs tokens, go)]) = shownTexts log := by
    simp [shownTexts]
  have hn : delivered (log ++ [(.logprobs tokens, go)]) = met all (contents ++ [content]) := by
    rw [delivered_append, h.records, hr]
    simp [delivered]
  have hev : ∀ text, (.logprobs tokens : Event L) ≠ .content text := by simp
  have he := h.early.other hev go
  refine ⟨?_, ?_, he.content (by rw [hs, h.shown, length_map]) hn go'⟩
  · rw [shownTexts_append, hs, h.shown]
    simp [shownTexts]
  · rw [delivered_append, hn]
    simp [delivered]

theorem Sent.grow (h : Sent all contents log) {later : List (Spanned L)}
    (hl : ∀ span ∈ later, ∀ content ∈ contents, content.2 + utf8Len content.1 ≤ span.start) :
    Sent (all ++ later) contents log := by
  have hm : ∀ contents', (∀ content ∈ contents', content ∈ contents) →
      met (all ++ later) contents' = met all contents' := by
    intro contents' hsub
    have hn : (later.filter fun span => contents'.any span.meets) = [] := by
      rw [filter_eq_nil_iff]
      intro span hs
      rw [Bool.not_eq_true, any_eq_false]
      intro content hc
      have := hl span hs content (hsub content hc)
      simp only [Spanned.meets, Bool.and_eq_true, decide_eq_true_eq]
      omega
    simp [met, filter_append, hn]
  refine ⟨h.shown, by rw [h.records, hm _ fun _ h => h], ?_⟩
  intro front text go back hlog
  rw [h.early front text go back hlog, hm]
  exact fun content hc => mem_of_mem_take hc

end Sent

/-! ### The queue -/

/-- What is queued, when no content can start before `pos` any more.  `last` is the end of the
last content: records that start before it have been taken from the queue. -/
structure Queued (generated : Text) (all queue : List (Spanned L)) (pos last : Nat)
    (contents : List (Text × Nat)) (log : Log L) : Prop where
  sent : Sent all contents log
  exact : ∀ content ∈ contents, At generated content.2 content.1
  order : contents.Pairwise fun a b => a.2 + utf8Len a.1 ≤ b.2
  last_le : last ≤ pos
  ends : ∀ content ∈ contents, content.2 + utf8Len content.1 ≤ last
  last_eq : last = 0 ∨ ∃ content ∈ contents, content.2 + utf8Len content.1 = last
  sorted : all.Pairwise fun a b => a.start ≤ b.start
  bounded : ∀ span ∈ all, span.start ≤ utf8Len generated
  sub : queue.Sublist all
  taken : ∀ span ∈ queue, last ≤ span.start
  left : queue.filter (fun span => decide (pos < span.stop)) =
    all.filter fun span => decide (pos < span.stop) && decide (last ≤ span.start)

section Queued

variable {generated : Text} {all queue : List (Spanned L)} {pos last : Nat}
  {contents : List (Text × Nat)} {log : Log L}

theorem queued_new : Queued ([] : Text) ([] : List (Spanned L)) [] 0 0 [] [] :=
  ⟨⟨rfl, rfl, by intro front text go back h; simp at h⟩, by simp, .nil, le_rfl, by simp,
    .inl rfl, .nil, by simp, List.Sublist.refl _, by simp, rfl⟩

theorem Queued.advance (h : Queued generated all queue pos last contents log) {pos' : Nat}
    (hp : pos ≤ pos') : Queued generated all queue pos' last contents log := by
  have hc : ∀ l : List (Spanned L), l.filter (fun span => decide (pos' < span.stop)) =
      (l.filter fun span => decide (pos < span.stop)).filter
        fun span => decide (pos' < span.stop) := by
    intro l
    rw [filter_filter]
    refine filter_congr fun span _ => ?_
    rw [Bool.eq_iff_iff]
    simp only [Bool.and_eq_true, decide_eq_true_eq]
    omega
  refine { h with last_le := h.last_le.trans hp, left := ?_ }
  rw [hc, h.left, filter_filter]
  refine filter_congr fun span _ => ?_
  rw [Bool.eq_iff_iff]
  simp only [Bool.and_eq_true, decide_eq_true_eq]
  omega

theorem Queued.push (h : Queued generated all queue pos last contents log)
    (hp : pos ≤ utf8Len generated) (piece : Text) (logprobs : List L) :
    let new := if logprobs.isEmpty then []
      else [⟨utf8Len generated, utf8Len generated + utf8Len piece, logprobs⟩]
    Queued (generated ++ piece) (all ++ new) (queue ++ new) pos last contents log := by
  intro new
  have hst : ∀ span ∈ new, span.start = utf8Len generated := by
    intro span hs
    simp only [new] at hs
    split at hs
    · cases hs
    · rw [mem_singleton.mp hs]
  have hla := h.last_le
  refine ⟨h.sent.grow ?_, fun content hc => (h.exact content hc).grow piece, h.order,
    h.last_le, h.ends, h.last_eq, ?_, ?_, h.sub.append (List.Sublist.refl _), ?_, ?_⟩
  · intro span hs content hc
    have := h.ends content hc
    have := hst span hs
    omega
  · rw [pairwise_append]
    refine ⟨h.sorted, ?_, fun a ha b hb => ?_⟩
    · simp only [new]
      split <;> simp
    · rw [hst b hb]
      exact h.bounded a ha
  · rw [forall_mem_append]
    refine ⟨fun span hs => ?_, fun span hs => ?_⟩
    · have := h.bounded span hs
      rw [utf8Len_append]
      omega
    · rw [hst span hs, utf8Len_append]
      omega
  · rw [forall_mem_append]
    refine ⟨h.taken, fun span hs => ?_⟩
    have := hst span hs
    omega
  · rw [filter_append, filter_append, h.left]
    congr 1
    refine filter_congr fun span hs => ?_
    have hle : last ≤ span.start := by
      have := hst span hs
      omega
    simp [hle]

theorem Queued.plain (h : Queued generated all queue pos last contents log) {event : Event L}
    (hb : Bare event) (go : Bool) :
    Queued generated all queue pos last contents (log ++ [(event, go)]) :=
  { h with sent := h.sent.plain hb go }

/-- Records of text before `pos` are not needed. -/
theorem Queued.discard (h : Queued generated all queue pos last contents log) {bound : Nat}
    (hbd : bound ≤ pos) :
    Queued generated all (queue.dropWhile fun span => decide (span.stop ≤ bound)) pos last contents
      log := by
  have hsuf := dropWhile_suffix (l := queue) fun span => decide (span.stop ≤ bound)
  refine { h with sub := hsuf.sublist.trans h.sub, taken := ?_, left := ?_ }
  · intro span hs
    exact h.taken span (hsuf.subset hs)
  · rw [← h.left]
    conv_rhs => rw [← takeWhile_append_dropWhile
      (p := fun span : Spanned L => decide (span.stop ≤ bound)) (l := queue), filter_append]
    have hn : (queue.takeWhile fun span => decide (span.stop ≤ bound)).filter
        (fun span => decide (pos < span.stop)) = [] := by
      rw [filter_eq_nil_iff]
      intro span hs
      have hst : span.stop ≤ bound := by simpa using mem_takeWhile_imp hs
      simp only [decide_eq_true_eq]
      omega
    rw [hn, nil_append]

theorem Queued.met_append (h : Queued generated all queue pos last contents log) {text : Text}
    {offset : Nat} (hp : pos ≤ offset) :
    met all (contents ++ [(text, offset)]) = met all contents ++
      ((queue.filter fun span => decide (span.start < offset + utf8Len text)).filter
        fun span => decide (offset < span.stop)).flatMap Spanned.tokens := by
  have hq : (queue.filter fun span => decide (span.start < offset + utf8Len text)).filter
      (fun span => decide (offset < span.stop)) =
        (all.filter fun span => (contents ++ [(text, offset)]).any span.meets &&
          decide (last ≤ span.start)) := by
    rw [filter_comm, (h.advance hp).left, filter_filter]
    refine filter_congr fun span _ => ?_
    have hn : last ≤ span.start → contents.any span.meets = false := by
      intro hle
      rw [any_eq_false]
      intro content hc
      have := h.ends content hc
      simp only [Spanned.meets, Bool.and_eq_true, decide_eq_true_eq]
      omega
    rw [Bool.eq_iff_iff]
    simp only [any_append, any_cons, any_nil, Bool.or_false, Bool.and_eq_true,
      Bool.or_eq_true, decide_eq_true_eq, Spanned.meets]
    constructor
    · rintro ⟨hs, hst, hle⟩
      exact ⟨.inr ⟨hs, hst⟩, hle⟩
    · rintro ⟨hm | ⟨hs, hst⟩, hle⟩
      · rw [hn hle] at hm
        cases hm
      · exact ⟨hs, hst, hle⟩
  have hold : (all.filter fun span => contents.any span.meets) =
      all.filter fun span => (contents ++ [(text, offset)]).any span.meets &&
        decide (span.start < last) := by
    refine filter_congr fun span _ => ?_
    rw [Bool.eq_iff_iff]
    simp only [any_append, any_cons, any_nil, Bool.or_false, Bool.and_eq_true,
      Bool.or_eq_true, decide_eq_true_eq, any_eq_true, Spanned.meets]
    constructor
    · rintro ⟨content, hc, hs, hst⟩
      have := h.ends content hc
      exact ⟨.inl ⟨content, hc, hs, hst⟩, by omega⟩
    · rintro ⟨hm | ⟨hs, hst⟩, hlt⟩
      · exact hm
      · -- it starts in or before the last content, and goes on behind it
        obtain ⟨content, hc, he⟩ := h.last_eq.resolve_left (by omega)
        have := h.last_le
        exact ⟨content, hc, by omega, by omega⟩
  rw [met, filter_of_sorted h.sorted last, flatMap_append, ← hold, ← hq]
  rfl

theorem Queued.content (h : Queued generated all queue pos last contents log) {text : Text}
    {offset : Nat} (hp : pos ≤ offset) (hat : At generated offset text) {log' : Log L}
    (hs : Sent all (contents ++ [(text, offset)]) log') :
    Queued generated all (queue.filter fun span => decide (offset + utf8Len text ≤ span.start))
      (offset + utf8Len text) (offset + utf8Len text) (contents ++ [(text, offset)]) log' := by
  have hl := h.last_le
  refine ⟨hs, ?_, ?_, le_rfl, ?_, .inr ⟨_, mem_append_right _ mem_cons_self,
    rfl⟩, h.sorted, h.bounded, filter_sublist.trans h.sub, ?_, ?_⟩
  · rw [forall_mem_append]
    refine ⟨h.exact, fun content hc => ?_⟩
    rw [mem_singleton.mp hc]
    exact hat
  · rw [pairwise_append]
    refine ⟨h.order, by simp, fun a ha b hb => ?_⟩
    rw [mem_singleton.mp hb]
    have := h.ends a ha
    omega
  · rw [forall_mem_append]
    refine ⟨fun content hc => ?_, fun content hc => ?_⟩
    · have := h.ends content hc
      omega
    · rw [mem_singleton.mp hc]
  · intro span hsp
    simpa using (mem_filter.mp hsp).2
  · rw [filter_comm, (h.advance (hp.trans (Nat.le_add_right _ _))).left, filter_filter]
    refine filter_congr fun span _ => ?_
    rw [Bool.eq_iff_iff]
    simp only [Bool.and_eq_true, decide_eq_true_eq]
    omega

end Queued

/-! ### Sending content -/

/-- What is sent and queued, as long as no records are refused. -/
def Delivering (generated : Text) (all : List (Spanned L)) (pos : Nat)
    (d : List (Spanned L) × K × Log L) : Prop :=
  Takes d.2.2 → ∃ last contents, Queued generated all d.1 pos last contents d.2.2

section Delivering

variable {consumer : Consumer L K} {generated : Text} {all : List (Spanned L)} {pos : Nat}
  {d : List (Spanned L) × K × Log L}

theorem deliver_other (h : Delivering generated all pos d) {event : Event L} (hb : Bare event)
    (offset : Nat) : Delivering generated all pos (deliver (logged consumer) d event offset).1 := by
  have hd : (deliver (logged consumer) d event offset).1 =
      (d.1, (consumer d.2.1 event).1, d.2.2 ++ [(event, (consumer d.2.1 event).2)]) := by
    cases event with
    | content text => exact absurd rfl (hb.1 text)
    | _ => rfl
  rw [hd]
  intro ht
  obtain ⟨last, contents, hq⟩ := h ht.left
  exact ⟨last, contents, hq.plain hb _⟩

theorem deliver_content (h : Delivering generated all pos d) {text : Text} {offset : Nat}
    (hp : pos ≤ offset) (hat : At generated offset text) :
    Delivering generated all (offset + utf8Len text)
      (deliver (logged consumer) d (.content text) offset).1 := by
  obtain ⟨queue, k, log⟩ := d
  -- the log only grows, so the records before were taken as well
  have hk : ∀ {queue' : List (Spanned L)} {k' : K} {more : Log L},
      (Takes (log ++ more) → ∀ last contents, Queued generated all queue pos last contents log →
        ∃ last contents, Queued generated all queue' (offset + utf8Len text) last contents
          (log ++ more)) →
      Delivering generated all (offset + utf8Len text) (queue', k', log ++ more) := by
    intro queue' k' more hm ht
    obtain ⟨last, contents, hq⟩ := h ht.left
    exact hm ht last contents hq
  have hs : ∀ {last contents}, Queued generated all queue pos last contents log →
      queue.takeWhile (fun span => decide (span.start < offset + utf8Len text)) =
        queue.filter (fun span => decide (span.start < offset + utf8Len text)) ∧
      queue.dropWhile (fun span => decide (span.start < offset + utf8Len text)) =
        queue.filter fun span => decide (offset + utf8Len text ≤ span.start) :=
    fun hq => takeWhile_of_sorted (hq.sorted.sublist hq.sub) _
  simp only [deliver, List.span_eq_takeWhile_dropWhile, logged]
  split
  · next he =>
    refine hk fun _ last contents hq => ?_
    obtain ⟨hta, hd⟩ := hs hq
    rw [hta, List.isEmpty_iff] at he
    rw [hd]
    refine ⟨_, _, hq.content hp hat (hq.sent.bare ?_ _)⟩
    rw [hq.met_append hp, he, List.append_nil]
  · split
    · next hgo =>
      simp only [List.append_assoc]
      refine hk fun _ last contents hq => ?_
      obtain ⟨hta, hd⟩ := hs hq
      rw [hta, hd, ← List.append_assoc]
      exact ⟨_, _, hq.content hp hat (hq.sent.content (hq.met_append hp) _ _)⟩
    · next hgo =>
      refine hk fun ht => absurd ?_ hgo
      exact ht _ _ (List.mem_append_right _ List.mem_cons_self)

end Delivering

/-! ### Behind the stop sequences -/

/-- The stop sequences are ready for content from `pos` on; unless they are `fresh`, it has to
start there. -/
structure Ready (generated : Text) (all : List (Spanned L)) (pos : Nat) (fresh : Bool)
    (stop : StopSequences) (d : List (Spanned L) × K × Log L) : Prop where
  sent : ∃ low, low ≤ pos ∧ Delivering generated all low d ∧ (stop.held ≠ [] → low ≤ stop.heldFrom)
  held : stop.held ≠ [] → fresh = false ∧ At generated stop.heldFrom stop.held ∧
    stop.heldFrom + utf8Len stop.held = pos
  matched : stop.matched = true → stop.held = []
  sequences : stop.sequences = [] → stop.held = []

section Ready

variable (consumer : Consumer L K) {generated : Text} {all : List (Spanned L)} {pos : Nat}
  {fresh : Bool} {stop : StopSequences} {d : List (Spanned L) × K × Log L}

theorem Ready.free (h : Ready generated all pos fresh stop d) (hh : stop.held = []) {pos' : Nat}
    (hp : pos ≤ pos') (fresh' : Bool) : Ready generated all pos' fresh' stop d := by
  obtain ⟨low, hf, hs, hle⟩ := h.sent
  exact ⟨⟨low, hf.trans hp, hs, hle⟩, fun hne => absurd hh hne, h.matched, h.sequences⟩

theorem Ready.held_nil (h : Ready generated all pos true stop d) : stop.held = [] := by
  by_contra hne
  exact absurd (h.held hne).1 (by simp)

theorem Ready.flush (h : Ready generated all pos fresh stop d) :
    Ready generated all pos true (stop.flush (deliver (logged consumer)) d).1
      (stop.flush (deliver (logged consumer)) d).2.1 := by
  unfold StopSequences.flush
  split
  · next hemp => exact h.free (isEmpty_iff.mp hemp) le_rfl true
  · next hne =>
    have hne' : stop.held ≠ [] := by simpa using hne
    obtain ⟨low, -, hs, hle⟩ := h.sent
    obtain ⟨-, hat, hend⟩ := h.held hne'
    refine ⟨⟨_, hend.le, deliver_content hs (hle hne') hat, by simp⟩, by simp, by simp, by simp⟩

theorem Ready.content (h : Ready generated all pos fresh stop d) {text : Text} {offset : Nat}
    (hpos : pos ≤ offset) (hfr : fresh = true ∨ offset = pos) (hat : At generated offset text) :
    Ready generated all (offset + utf8Len text) false
      (stop.content (deliver (logged consumer)) text offset d).1
      (stop.content (deliver (logged consumer)) text offset d).2.1 := by
  unfold StopSequences.content
  split
  · next hm => exact h.free (h.matched hm) (by omega) false
  · split
    · next hnone =>
      obtain ⟨low, hf, hs, -⟩ := h.sent
      have hh := h.sequences (isEmpty_iff.mp hnone)
      refine ⟨⟨_, le_rfl, deliver_content hs (hf.trans hpos) hat, ?_⟩, ?_, ?_, ?_⟩
      · exact fun hne => absurd hh hne
      · exact fun hne => absurd hh hne
      · exact fun _ => hh
      · exact fun _ => hh
    · next hm hso =>
      have hso' : stop.sequences ≠ [] := by simpa using hso
      dsimp only
      -- the held text and the new one stand side by side
      obtain ⟨low, hf, hs, hle⟩ := h.sent
      have hj : low ≤ (if stop.held.isEmpty then offset else stop.heldFrom) ∧
          At generated (if stop.held.isEmpty then offset else stop.heldFrom) (stop.held ++ text) ∧
          (if stop.held.isEmpty then offset else stop.heldFrom) + utf8Len (stop.held ++ text) =
            offset + utf8Len text := by
        by_cases hh : stop.held = []
        · simp only [hh, isEmpty_nil, if_true, nil_append]
          exact ⟨hf.trans hpos, hat, trivial⟩
        · obtain ⟨hnot, hatheld, he⟩ := h.held hh
          have ho : offset = pos := hfr.resolve_left (by simp [hnot])
          have hb : stop.held.isEmpty = false := by simpa using hh
          simp only [hb, Bool.false_eq_true, if_false]
          refine ⟨hle hh, hatheld.join ?_, ?_⟩
          · rw [he, ← ho]
            exact hat
          · rw [utf8Len_append]
            omega
      generalize (if stop.held.isEmpty then offset else stop.heldFrom) = start at hj ⊢
      obtain ⟨hst, ha, he⟩ := hj
      have hp : ∀ n, At generated start ((stop.held ++ text).take n) ∧
          At generated (start + utf8Len ((stop.held ++ text).take n)) ((stop.held ++ text).drop n) ∧
          start + utf8Len ((stop.held ++ text).take n) + utf8Len ((stop.held ++ text).drop n) =
            offset + utf8Len text := by
        intro n
        have hw := (take_append_drop n (stop.held ++ text)).symm
        rw [hw] at ha
        have hl : utf8Len (stop.held ++ text) = utf8Len ((stop.held ++ text).take n) +
            utf8Len ((stop.held ++ text).drop n) := by
          rw [← utf8Len_append, ← hw]
        exact ⟨ha.left, ha.right, by omega⟩
      split
      · next cut hc =>
        obtain ⟨hattake, -, hl⟩ := hp cut
        unfold StopSequences.flush
        dsimp only
        split
        · next hemp =>
          have hn := isEmpty_iff.mp hemp
          exact ⟨⟨low, by omega, hs, fun hne => absurd hn hne⟩, fun hne => absurd hn hne,
            fun _ => hn, fun _ => hn⟩
        · exact ⟨⟨_, by omega, deliver_content hs hst hattake, by simp⟩, by simp, by simp,
            by simp⟩
      · obtain ⟨hattake, hatdrop, hl⟩ := hp ((stop.held ++ text).length -
          StopSequences.heldPartial stop.sequences (stop.held ++ text))
        split
        · exact ⟨⟨low, by omega, hs, fun _ => hst⟩, fun _ => ⟨rfl, ha, he⟩,
            fun hy => absurd hy hm, fun hn => absurd hn hso'⟩
        · refine ⟨⟨_, by omega, deliver_content hs hst hattake, fun _ => le_rfl⟩,
            fun _ => ⟨rfl, hatdrop, hl⟩, fun hy => absurd hy hm,
            fun hn => absurd hn hso'⟩

theorem Ready.other (h : Ready generated all pos fresh stop d) (event : Event L)
    (hb : Bare event) (offset : Nat) :
    Ready generated all pos true (stop.event (deliver (logged consumer)) event offset d).1
      (stop.event (deliver (logged consumer)) event offset d).2.1 := by
  have hev : stop.event (deliver (logged consumer)) event offset d =
      if stop.matched then (stop, d, false)
      else
        let (stop, d, go) := stop.flush (deliver (logged consumer)) d
        if go then
          let (d, go) := deliver (logged consumer) d event offset
          (stop, d, go)
        else (stop, d, false) := by
    cases event with
    | content text => exact absurd rfl (hb.1 text)
    | _ => rfl
  rw [hev]
  split
  · next hm => exact h.free (h.matched hm) le_rfl true
  · have hf : Ready generated all pos true (stop.flush (deliver (logged consumer)) d).1
        (stop.flush (deliver (logged consumer)) d).2.1 := h.flush consumer
    dsimp only
    split
    · obtain ⟨low, hfr, hs, hle⟩ := hf.sent
      exact ⟨⟨low, hfr, deliver_other hs hb offset, hle⟩, hf.held, hf.matched, hf.sequences⟩
    · exact hf

end Ready

/-! ### Behind the tool parser -/

structure Parsing (generated : Text) (all : List (Spanned L)) (base : Nat) (p : ToolCallParser)
    (state : StopSequences × List (Spanned L) × K × Log L) : Prop where
  ready : ∃ pos fresh, Ready generated all pos fresh state.1 state.2 ∧ pos ≤ utf8Len generated ∧
    (p.failure = none → pos ≤ base + p.consumed ∧
      (p.inCall = false → fresh = true ∨ pos = base + p.consumed ∧ p.afterCall = false))
  pending : p.failure = none → ∃ before, generated = before ++ p.pending ∧
    utf8Len before = base + p.consumed

section Parsing

variable {env : Env} {tools : ToolSet} {consumer : Consumer L K} {generated : Text}
  {all : List (Spanned L)} {base : Nat} {p p' : ToolCallParser}
  {state state' : StopSequences × List (Spanned L) × K × Log L}

theorem told_ready {text : Text} {offset pos : Nat} {fresh : Bool}
    (ht : Told (stopped (logged consumer) base) text offset p state p' state')
    (h : Ready generated all pos fresh state.1 state.2) (hp : pos ≤ base + offset)
    (hf : fresh = true ∨ pos = base + offset ∧ p.afterCall = false)
    (hat : At generated (base + offset) text) :
    ∃ pos fresh, Ready generated all pos fresh state'.1 state'.2 ∧
      pos ≤ base + offset + utf8Len text ∧
      (fresh = true ∨ pos = base + offset + utf8Len text ∧ p'.afterCall = false) := by
  cases ht with
  | silent hs ha =>
    refine ⟨pos, fresh, h, by omega, ?_⟩
    rcases ha with rfl | ha
    · simpa using hf
    · exact .inl (hf.resolve_right (by simp [ha]))
  | @content lead body hte hs ha hbo =>
    subst hte
    have ho : fresh = true ∨ base + (offset + utf8Len lead) = pos := by
      rcases hf with hf | ⟨hp, hn⟩
      · exact .inl hf
      · have hl : lead = [] := ha.resolve_right (by simp [hn])
        right
        rw [hl, utf8Len_nil]
        omega
    have hb : At generated (base + (offset + utf8Len lead)) body := by
      rw [← Nat.add_assoc]
      exact hat.right
    have hc := h.content consumer (by omega) ho hb
    refine ⟨_, false, hc, ?_, .inr ⟨?_, rfl⟩⟩
    · rw [utf8Len_append]
      omega
    · rw [utf8Len_append]
      omega

theorem Parsing.step (h : Parsing generated all base p state)
    (hst : ParserStep env tools (stopped (logged consumer) base) p state p' state') :
    Parsing generated all base p' state' := by
  obtain ⟨pos, fresh, hr, hle, hpl⟩ := h.ready
  cases hst with
  | counters => exact ⟨⟨pos, fresh, hr, hle, hpl⟩, h.pending⟩
  | delta delta =>
    have ho := hr.other consumer (.toolCallDelta delta) ⟨by simp, by simp⟩ (base + p.consumed)
    exact ⟨⟨pos, true, ho, hle, fun hn => ⟨(hpl hn).1, fun _ => .inl rfl⟩⟩, h.pending⟩
  | @call _ block rest marker name strict arguments id _ hin _ he hpa =>
    obtain ⟨hp, -⟩ := callEnd_eq_some he
    have ho := hr.other consumer (.toolCall ⟨id, name, .object arguments⟩)
      ⟨by simp, by simp⟩ (base + (p.consumed + utf8Len (block ++ marker)))
    refine ⟨⟨pos, true, ho, hle, fun hn => ⟨?_, fun _ => .inl rfl⟩⟩, fun hn => ?_⟩
    · have := (hpl hn).1
      show pos ≤ base + (p.consumed + utf8Len (block ++ marker))
      omega
    · obtain ⟨before, hg, hb⟩ := h.pending hn
      refine ⟨before ++ (block ++ marker), ?_, ?_⟩
      · rw [hg, hp]
        simp
      · rw [utf8Len_append, hb, Nat.add_assoc]
  | failed hso =>
    have hfa : p'.failure ≠ none := fun hn => by simp [hn] at hso
    exact ⟨⟨pos, fresh, hr, hle, fun hn => absurd hn hfa⟩, fun hn => absurd hn hfa⟩
  | @start _ _ _ text rest hrun hin hp ht =>
    obtain ⟨after, hs⟩ := ht.same
    obtain ⟨hpos, hf⟩ := hpl hrun
    obtain ⟨before, hg, hb⟩ := h.pending hrun
    obtain ⟨trail, hte, -⟩ := trimEnd_split text
    have hat : At generated (base + p.consumed) (trimEnd text) := by
      refine ⟨before, trail ++ callStart ++ rest, ?_, hb⟩
      rw [hg, hp]
      conv_lhs => rw [hte]
      simp
    obtain ⟨pos', fresh', hr', hle', -⟩ := told_ready ht hr hpos (hf hin) hat
    have hlen : utf8Len (trimEnd text) ≤ utf8Len text := by
      conv_rhs => rw [hte, utf8Len_append]
      omega
    have hbd := hat.le
    subst hs
    refine ⟨⟨pos', fresh', hr', by omega, fun _ => ⟨?_, fun hout => by cases hout⟩⟩,
      fun _ => ⟨before ++ (text ++ callStart), ?_, ?_⟩⟩
    · show pos' ≤ base + (p.consumed + utf8Len (text ++ callStart))
      rw [utf8Len_append]
      omega
    · rw [hg, hp]
      simp
    · rw [utf8Len_append, hb, Nat.add_assoc]
  | @text _ _ _ text rest hrun hin hp ht =>
    obtain ⟨after, hs⟩ := ht.same
    obtain ⟨hpos, hf⟩ := hpl hrun
    obtain ⟨before, hg, hb⟩ := h.pending hrun
    have hat : At generated (base + p.consumed) text :=
      ⟨before, rest, by rw [hg, hp, append_assoc], hb⟩
    obtain ⟨pos', fresh', hr', hle', hf'⟩ :=
      told_ready ht hr hpos (hf hin) hat
    have hbd := hat.le
    subst hs
    refine ⟨⟨pos', fresh', hr', by omega, fun _ => ⟨?_, fun _ => ?_⟩⟩,
      fun _ => ⟨before ++ text, ?_, ?_⟩⟩
    · show pos' ≤ base + (p.consumed + utf8Len text)
      omega
    · rwa [Nat.add_assoc] at hf'
    · rw [hg, hp, append_assoc]
    · rw [utf8Len_append, hb, Nat.add_assoc]

theorem feed_parsing {text : Text}
    (h : Parsing generated all base { p with pending := p.pending ++ text } state) :
    Parsing generated all base (feed env tools (stopped (logged consumer) base) text p state).1
      (feed env tools (stopped (logged consumer) base) text p state).2.1 := by
  refine feed_keeps (I := fun p state => Parsing generated all base p state)
    (fun hst hb => hb.step hst) (fun hs => ?_) fun _ => h
  have hf : p.failure ≠ none := fun hn => by simp [hn] at hs
  obtain ⟨pos, fresh, hr, hle, -⟩ := h.ready
  exact ⟨⟨pos, fresh, hr, hle, fun hn => absurd hn hf⟩, fun hn => absurd hn hf⟩

variable (consumer) in
theorem finish_parsing (reason : StopReason) (h : Parsing generated all base p state) :
    ∃ pos fresh, Ready generated all pos fresh
      (Tools.finish (stopped (logged consumer) base) reason p state).2.1.1
      (Tools.finish (stopped (logged consumer) base) reason p state).2.1.2 := by
  obtain ⟨pos, fresh, hr, -, hp⟩ := h.ready
  refine finish_keeps (I := fun _ (state : StopSequences × List (Spanned L) × K × Log L) =>
      ∃ pos fresh, Ready generated all pos fresh state.1 state.2)
    (fun _ _ => ⟨pos, fresh, hr⟩) (fun _ _ => ⟨pos, fresh, hr⟩) ?_
  intro hrun hin p' state' ht
  obtain ⟨hpos, hf⟩ := hp hrun
  obtain ⟨before, hg, hb⟩ := h.pending hrun
  have hat : At generated (base + p.consumed) p.pending :=
    ⟨before, [], by rw [hg, append_nil], hb⟩
  obtain ⟨pos', fresh', hr', -, -⟩ := told_ready ht hr hpos (hf hin) hat
  exact ⟨pos', fresh', hr'⟩

end Parsing

/-! ### The splitter -/

def pieceSpans (start : Nat) (piece : Text) (logprobs : List L) : List (Spanned L) :=
  if logprobs.isEmpty then [] else [⟨start, start + utf8Len piece, logprobs⟩]

section Push

variable {generated : Text} {all : List (Spanned L)} {pos : Nat} {fresh : Bool}
  {stop : StopSequences} {queue : List (Spanned L)} {k : K × Log L} {base : Nat}
  {p : ToolCallParser}

theorem Ready.push (h : Ready generated all pos fresh stop (queue, k))
    (hp : pos ≤ utf8Len generated) (piece : Text) (logprobs : List L) :
    Ready (generated ++ piece) (all ++ pieceSpans (utf8Len generated) piece logprobs) pos fresh stop
      (queue ++ pieceSpans (utf8Len generated) piece logprobs, k) := by
  obtain ⟨low, hf, hs, hle⟩ := h.sent
  refine ⟨⟨low, hf, fun ht => ?_, hle⟩, fun hne => ?_, h.matched, h.sequences⟩
  · obtain ⟨last, contents, hq⟩ := hs ht
    exact ⟨last, contents, hq.push (hf.trans hp) piece logprobs⟩
  · obtain ⟨hfr, hat, he⟩ := h.held hne
    exact ⟨hfr, hat.grow piece, he⟩

theorem Parsing.push (h : Parsing generated all base p (stop, queue, k)) (piece : Text)
    (logprobs : List L) :
    Parsing (generated ++ piece) (all ++ pieceSpans (utf8Len generated) piece logprobs) base
      { p with pending := p.pending ++ piece }
      (stop, queue ++ pieceSpans (utf8Len generated) piece logprobs, k) := by
  obtain ⟨pos, fresh, hr, hle, hp⟩ := h.ready
  refine ⟨⟨pos, fresh, hr.push hle piece logprobs, ?_, hp⟩, fun hn => ?_⟩
  · rw [utf8Len_append]
    omega
  · obtain ⟨before, hg, hb⟩ := h.pending hn
    exact ⟨before, by rw [hg, append_assoc], hb⟩

end Push

structure Unfed (p : ToolCallParser) : Prop where
  pending : p.pending = []
  consumed : p.consumed = 0

inductive Splitting (generated : Text) (all : List (Spanned L)) :
    EventSplitter L → K × Log L → Prop
  | waiting {s : EventSplitter L} {k : K × Log L} {pos : Nat} {before : Text}
      (hgenerated : s.generated = utf8Len generated) (hpending : generated = before ++ s.pending)
      (hidle : s.reasoning = false → s.pending = []) (hfrom : s.parsedFrom = none)
      (hparser : ∀ tools p, s.tools = some (tools, p) → Unfed p)
      (hready : Ready generated all pos true s.stop (s.logprobs, k))
      (hpos : pos ≤ utf8Len before) : Splitting generated all s k
  | content {s : EventSplitter L} {k : K × Log L} {pos : Nat} {fresh : Bool}
      (hgenerated : s.generated = utf8Len generated) (hpending : s.pending = [])
      (hreasoning : s.reasoning = false) (hstarted : s.answerStarted = true)
      (htools : s.tools = none) (hready : Ready generated all pos fresh s.stop (s.logprobs, k))
      (hpos : pos ≤ utf8Len generated) (hfresh : fresh = true ∨ pos = utf8Len generated) :
      Splitting generated all s k
  | parsing {s : EventSplitter L} {k : K × Log L} {base : Nat} {tools : ToolSet}
      {p : ToolCallParser} (hgenerated : s.generated = utf8Len generated)
      (hpending : s.pending = []) (hreasoning : s.reasoning = false)
      (hstarted : s.answerStarted = true) (hfrom : s.parsedFrom = some base)
      (htools : s.tools = some (tools, p))
      (hparsing : Parsing generated all base p (s.stop, s.logprobs, k)) : Splitting generated all s k

section Splitting

variable {env : Env} {consumer : Consumer L K} {generated : Text} {all : List (Spanned L)}
  {s : EventSplitter L} {k : K × Log L}

variable {queue : List (Spanned L)}

variable {stop : StopSequences}

theorem unfed_parsing {p : ToolCallParser} (hu : Unfed p) {pos base : Nat}
    {before text : Text} (hr : Ready generated all pos true stop (queue, k)) (hp : pos ≤ base)
    (hg : generated = before ++ text) (hb : utf8Len before = base) :
    Parsing generated all base { p with pending := p.pending ++ text } (stop, queue, k) := by
  refine ⟨⟨pos, true, hr, ?_, fun _ => ⟨?_, fun _ => .inl rfl⟩⟩, fun _ => ⟨before, ?_, ?_⟩⟩
  · rw [hg, utf8Len_append]
    omega
  · show pos ≤ base + p.consumed
    omega
  · rw [hu.pending, nil_append, hg]
  · show utf8Len before = base + p.consumed
    rw [hu.consumed, hb, Nat.add_zero]

theorem shown_split (started : Bool) (piece : Text) : ∃ lead, piece = lead ++ shown started piece := by
  unfold shown
  split
  · exact ⟨[], rfl⟩
  · exact ⟨piece.takeWhile (· == '\n'), takeWhile_append_dropWhile.symm⟩

theorem content_waiting {pos : Nat} {before piece : Text}
    (hg : s.generated = utf8Len generated) (hp : s.pending = [])
    (hre : s.reasoning = false) (hf : s.parsedFrom = none)
    (hpa : ∀ tools p, s.tools = some (tools, p) → Unfed p)
    (hr : Ready generated all pos true s.stop (s.logprobs, k))
    (hs : generated = before ++ piece) (hpos : pos ≤ utf8Len before) :
    Splitting generated all (s.content env (logged consumer) piece k).1
      (s.content env (logged consumer) piece k).2.1 := by
  obtain ⟨lead, hl⟩ := shown_split s.answerStarted piece
  unfold EventSplitter.content
  generalize shown s.answerStarted piece = text at hl
  have hgen : generated = before ++ lead ++ text := by rw [hs, hl, append_assoc]
  have ho : s.generated - utf8Len text = utf8Len (before ++ lead) := by
    rw [hg, hgen, utf8Len_append (before ++ lead)]
    omega
  have hle : pos ≤ utf8Len (before ++ lead) := by
    rw [utf8Len_append]
    omega
  dsimp only
  split
  · have hw : generated = generated ++ s.pending := by rw [hp, append_nil]
    refine .waiting hg hw (fun _ => hp) hf hpa hr ?_
    rw [hgen, utf8Len_append]
    omega
  · rw [hf, Option.getD_none, ho]
    split
    · next tools p ht =>
      exact .parsing hg hp hre rfl rfl rfl
        (feed_parsing (unfed_parsing (hpa tools p ht) hr hle hgen rfl))
    · next ht =>
      have hat : At generated (utf8Len (before ++ lead)) text := ⟨before ++ lead, [], by simp [hgen], rfl⟩
      have hc := hr.content consumer hle (.inl rfl) hat
      have he : utf8Len (before ++ lead) + utf8Len text = utf8Len generated := by
        rw [hgen, utf8Len_append (before ++ lead)]
      exact .content hg hp hre rfl ht hc he.le (.inr he)

def EventSplitter.queued (s : EventSplitter L) (piece : Text) (logprobs : List L) :
    EventSplitter L :=
  { s with
    generated := s.generated + utf8Len piece,
    logprobs := s.logprobs ++ pieceSpans s.generated piece logprobs }

theorem emit_eq (piece : Text) (logprobs : List L) (s : EventSplitter L) (k : K)
    (consumer : Consumer L K) : s.emit env consumer piece logprobs k =
      if !s.reasoning then (s.queued piece logprobs).content env consumer piece k
      else
        match splitOnce thinkEnd (s.pending ++ piece) with
        | some (reasoning, answer) =>
          let s := { s.queued piece logprobs with pending := [], reasoning := false }
          if reasoning.isEmpty then s.content env consumer answer k
          else
            let (k, go) := consumer k (.reasoning reasoning)
            if go then s.content env consumer answer k else (s, k, false)
        | none =>
          let pending := s.pending ++ piece
          let safe := floorPrefix (utf8Len pending - (utf8Len thinkEnd - 1)) pending
          if safe.isEmpty then ({ s.queued piece logprobs with pending }, k, true)
          else (s.queued piece logprobs).flushPrefix consumer safe (pending.drop safe.length) k := by
  have hq : s.queued piece logprobs = { s with
        generated := s.generated + utf8Len piece,
        logprobs := if logprobs.isEmpty then s.logprobs
          else s.logprobs ++ [⟨s.generated, s.generated + utf8Len piece, logprobs⟩] } := by
    unfold EventSplitter.queued pieceSpans
    split
    · rw [append_nil]
    · rfl
  rw [hq]
  rfl

theorem Ready.discard {pos bound : Nat}
    (h : Ready generated all pos true stop (queue, k)) (hp : pos ≤ bound) :
    Ready generated all bound true stop
      (queue.dropWhile fun span => decide (span.stop ≤ bound), k) := by
  obtain ⟨low, hf, hs, -⟩ := h.sent
  have hh := h.held_nil
  refine ⟨⟨bound, le_rfl, fun ht => ?_, fun hne => absurd hh hne⟩,
    fun hne => absurd hh hne, h.matched, h.sequences⟩
  obtain ⟨last, contents, hq⟩ := hs ht
  exact ⟨last, contents, (hq.advance (hf.trans hp)).discard le_rfl⟩

theorem Ready.said {pos : Nat} {fresh : Bool}
    (h : Ready generated all pos fresh stop (queue, k)) (text : Text) :
    Ready generated all pos fresh stop (queue, (logged consumer k (.reasoning text)).1) := by
  obtain ⟨low, hf, hs, hle⟩ := h.sent
  have hb : Bare (.reasoning text : Event L) := ⟨by simp, by simp⟩
  exact ⟨⟨low, hf, deliver_other hs hb 0, hle⟩, h.held, h.matched, h.sequences⟩

theorem content_content {pos : Nat} {fresh : Bool} (piece : Text) (logprobs : List L)
    (hg : s.generated = utf8Len generated) (hpe : s.pending = [])
    (hr : s.reasoning = false) (hs : s.answerStarted = true) (ht : s.tools = none)
    (hre : Ready generated all pos fresh s.stop (s.logprobs, k))
    (hpos : pos ≤ utf8Len generated) (hf : fresh = true ∨ pos = utf8Len generated) :
    Splitting (generated ++ piece) (all ++ pieceSpans (utf8Len generated) piece logprobs)
      ((s.queued piece logprobs).content env (logged consumer) piece k).1
      ((s.queued piece logprobs).content env (logged consumer) piece k).2.1 := by
  have hp := hre.push hpos piece logprobs
  have hl : s.generated + utf8Len piece = utf8Len (generated ++ piece) := by
    rw [utf8Len_append, hg]
  have hsh : shown (s.queued piece logprobs).answerStarted piece = piece := by
    simp only [EventSplitter.queued, shown, hs, if_true]
  have ho : (s.queued piece logprobs).generated - utf8Len piece = s.generated := by
    simp only [EventSplitter.queued]
    omega
  have hat : At (generated ++ piece) s.generated piece :=
    ⟨generated, [], by rw [append_nil], hg.symm⟩
  rw [← hg] at hp hpos hf ⊢
  have hc := hp.content consumer hpos (hf.imp_right Eq.symm) hat
  unfold EventSplitter.content
  rw [hsh]
  dsimp only
  rw [ho]
  split
  · next he =>
    have hn := isEmpty_iff.mp he
    refine .content hl hpe hr hs ht hp ?_ ?_
    · omega
    · rwa [← hl, hn, utf8Len_nil, Nat.add_zero]
  · simp only [EventSplitter.queued, ht]
    exact .content hl hpe hr rfl rfl hc hl.le (.inr hl)

theorem content_parsing {base : Nat} {tools : ToolSet} {p : ToolCallParser} (piece : Text)
    (logprobs : List L) (hg : s.generated = utf8Len generated) (hpe : s.pending = [])
    (hr : s.reasoning = false) (hs : s.answerStarted = true)
    (hf : s.parsedFrom = some base) (ht : s.tools = some (tools, p))
    (hpa : Parsing generated all base p (s.stop, s.logprobs, k)) :
    Splitting (generated ++ piece) (all ++ pieceSpans (utf8Len generated) piece logprobs)
      ((s.queued piece logprobs).content env (logged consumer) piece k).1
      ((s.queued piece logprobs).content env (logged consumer) piece k).2.1 := by
  have hp := hpa.push piece logprobs
  have hl : s.generated + utf8Len piece = utf8Len (generated ++ piece) := by
    rw [utf8Len_append, hg]
  have hsh : shown (s.queued piece logprobs).answerStarted piece = piece := by
    simp only [EventSplitter.queued, shown, hs, if_true]
  rw [← hg] at hp ⊢
  unfold EventSplitter.content
  rw [hsh]
  dsimp only
  split
  · next he =>
    have hn := isEmpty_iff.mp he
    have hsa : { p with pending := p.pending ++ piece } = p := by rw [hn, append_nil]
    rw [hsa] at hp
    exact .parsing hl hpe hr hs hf ht hp
  · simp only [EventSplitter.queued, ht, hf, Option.getD_some]
    exact .parsing hl hpe hr rfl rfl rfl (feed_parsing hp)

variable (env consumer) in
theorem emit_splitting (h : Splitting generated all s k) (piece : Text) (logprobs : List L) :
    Splitting (generated ++ piece) (all ++ pieceSpans (utf8Len generated) piece logprobs)
      (s.emit env (logged consumer) piece logprobs k).1
      (s.emit env (logged consumer) piece logprobs k).2.1 := by
  rw [emit_eq]
  cases h with
  | @waiting pos before hg hpe hi hf hp hready hpos =>
    have hle : pos ≤ utf8Len generated := by
      rw [hpe, utf8Len_append]
      omega
    have hl : s.generated + utf8Len piece = utf8Len (generated ++ piece) := by
      rw [utf8Len_append, hg]
    have hpu := hready.push hle piece logprobs
    have hw : generated ++ piece = before ++ (s.pending ++ piece) := by
      rw [← append_assoc, ← hpe]
    rw [← hg] at hpu ⊢
    split
    · next ha =>
      have hr : s.reasoning = false := by simpa using ha
      exact content_waiting hl (hi hr) hr hf hp hpu rfl hle
    · next hthinking =>
      have hr : s.reasoning = true := by simpa using hthinking
      split
      · next reasoning answer hthink =>
        have ha : generated ++ piece = before ++ (reasoning ++ thinkEnd) ++ answer := by
          rw [hw, splitOnce_eq_some hthink]
          simp only [append_assoc]
        have hpl : pos ≤ utf8Len (before ++ (reasoning ++ thinkEnd)) := by
          rw [utf8Len_append]
          omega
        dsimp only
        split
        · exact content_waiting hl rfl rfl hf hp hpu ha hpl
        · have hsa : Ready (generated ++ piece) (all ++ pieceSpans s.generated piece logprobs) pos
              true s.stop (s.logprobs ++ pieceSpans s.generated piece logprobs,
                (logged consumer k (.reasoning reasoning)).1) := hpu.said reasoning
          split
          · exact content_waiting hl rfl rfl hf hp hsa ha hpl
          · refine .waiting hl (append_nil _).symm (fun _ => rfl) hf hp hsa ?_
            rw [utf8Len_append]
            omega
      · dsimp only
        split
        · exact .waiting hl hw (fun hn => absurd (hr.symm.trans hn) (by decide))
            hf hp hpu hpos
        · generalize floorPrefix (utf8Len (s.pending ++ piece) - (utf8Len thinkEnd - 1))
            (s.pending ++ piece) = safe
          have hrest : generated ++ piece = before ++ (s.pending ++ piece).take safe.length ++
              (s.pending ++ piece).drop safe.length := by
            rw [append_assoc, take_append_drop, hw]
          have hse : (s.queued piece logprobs).generated -
              utf8Len ((s.pending ++ piece).drop safe.length) =
                utf8Len (before ++ (s.pending ++ piece).take safe.length) := by
            simp only [EventSplitter.queued, hl]
            rw [hrest, utf8Len_append (before ++ _)]
            omega
          simp only [EventSplitter.flushPrefix, hse]
          have hpl : pos ≤ utf8Len (before ++ (s.pending ++ piece).take safe.length) := by
            rw [utf8Len_append]
            omega
          exact .waiting hl hrest (fun hn => absurd (hr.symm.trans hn) (by decide))
            hf hp ((hpu.discard hpl).said safe) le_rfl
  | content hg hpe hr hs ht hready hpos hfr =>
    rw [hr]
    exact content_content piece logprobs hg hpe hr hs ht hready hpos hfr
  | parsing hg hpe hr hs hf ht hpa =>
    rw [hr]
    exact content_parsing piece logprobs hg hpe hr hs hf ht hpa

theorem Splitting.parts (h : Splitting generated all s k) :
    (∃ pos fresh, Ready generated all pos fresh s.stop (s.logprobs, k)) ∧
      ∀ tools p, s.tools = some (tools, p) →
        Parsing generated all (s.parsedFrom.getD s.generated) p (s.stop, s.logprobs, k) := by
  cases h with
  | @waiting pos before hg hpe hi hf hpa hr hpos =>
    refine ⟨⟨pos, true, hr⟩, fun tools p ht => ?_⟩
    have hle : pos ≤ utf8Len generated := by
      rw [hpe, utf8Len_append]
      omega
    have hu := unfed_parsing (hpa tools p ht) hr hle (append_nil _).symm rfl
    rw [append_nil] at hu
    rw [hf, Option.getD_none, hg]
    exact hu
  | content hg hpe hre hst ht hr =>
    exact ⟨⟨_, _, hr⟩, fun tools p hs => by simp [ht] at hs⟩
  | parsing hg hpe hre hst hf ht hp =>
    obtain ⟨pos, fresh, hr, -, -⟩ := hp.ready
    refine ⟨⟨pos, fresh, hr⟩, fun tools' p' hs => ?_⟩
    cases ht.symm.trans hs
    rw [hf]
    exact hp

variable (consumer) in
theorem finishAnswer_ready (h : Splitting generated all s k) (reason : StopReason) :
    ∃ pos fresh, Ready generated all pos fresh
      (s.finishAnswer (logged consumer) reason k).1.stop
      ((s.finishAnswer (logged consumer) reason k).1.logprobs,
        (s.finishAnswer (logged consumer) reason k).2.1) := by
  obtain ⟨⟨pos, fresh, hr⟩, hp⟩ := h.parts
  unfold EventSplitter.finishAnswer
  dsimp only
  split
  · next tools p ht =>
    obtain ⟨pos', fresh', hr'⟩ := finish_parsing consumer reason (hp tools p ht)
    split
    · exact ⟨pos', true, hr'.flush consumer⟩
    · exact ⟨pos', fresh', hr'⟩
  · exact ⟨pos, true, hr.flush consumer⟩

variable (consumer) in
theorem finish_ready (h : Splitting generated all s k) (reason : StopReason) :
    ∃ pos fresh, Ready generated all pos fresh
      (s.finish (logged consumer) reason k).1.stop
      ((s.finish (logged consumer) reason k).1.logprobs,
        (s.finish (logged consumer) reason k).2.1) := by
  unfold EventSplitter.finish
  split
  · exact finishAnswer_ready consumer h reason
  · next hpe =>
    have hne : s.pending ≠ [] := by simpa using hpe
    cases h with
    | @waiting pos before hg hw hi hf hp hr hpos =>
      have hre : s.reasoning = true := by
        by_contra hnot
        exact hne (hi (by simpa using hnot))
      have hle : pos ≤ utf8Len generated := by
        rw [hw, utf8Len_append]
        omega
      have hs : Ready generated all pos true s.stop
          (s.logprobs, (logged consumer k (.reasoning s.pending)).1) := hr.said s.pending
      simp only [hre, if_true, deliver]
      split
      · have hsp : Splitting generated all { s with pending := [], reasoning := true }
            (logged consumer k (.reasoning s.pending)).1 :=
          .waiting hg (append_nil _).symm (fun _ => rfl) hf hp hs hle
        exact finishAnswer_ready consumer hsp reason
      · exact ⟨pos, true, hs⟩
    | content _ hn => exact absurd hn hne
    | parsing _ hn => exact absurd hn hne

variable (consumer) in
theorem close_ready (h : Splitting generated all s k) (reason : StopReason) :
    ∃ pos fresh, Ready generated all pos fresh
      (s.close (logged consumer) reason k).1.stop
      ((s.close (logged consumer) reason k).1.logprobs,
        (s.close (logged consumer) reason k).2.1) := by
  unfold EventSplitter.close
  split
  · exact h.parts.1
  · split
    · exact h.parts.1
    · dsimp only
      generalize (if reason = .stopped then .cancelled else reason) = reason
      have hf := finish_ready consumer h reason
      split
      · exact hf
      · exact hf

variable (env consumer) in
theorem emitAll_splitting (pieces : List (Text × List L)) (h : Splitting generated all s k) :
    Splitting (generated ++ pieces.flatMap Prod.fst) (all ++ spans (utf8Len generated) pieces)
      (EventSplitter.emitAll env (logged consumer) pieces s k).1
      (EventSplitter.emitAll env (logged consumer) pieces s k).2 := by
  induction pieces generalizing generated all s k with
  | nil => simpa [spans, EventSplitter.emitAll] using h
  | cons entry pieces ih =>
    obtain ⟨piece, logprobs⟩ := entry
    have hr := ih (emit_splitting env consumer h piece logprobs)
    rw [append_assoc, append_assoc, utf8Len_append] at hr
    exact hr

theorem new_splitting (thinking : Bool) (tools : Option ToolSet) (stop : List Text)
    (nextCallId : CallId) (k : K) :
    Splitting [] [] (EventSplitter.new thinking tools stop nextCallId : EventSplitter L) (k, []) := by
  have hr : Ready [] [] 0 true (StopSequences.new stop)
      (([] : List (Spanned L)), k, ([] : Log L)) :=
    ⟨⟨0, le_rfl, fun _ => ⟨0, [], queued_new⟩, fun hne => absurd rfl hne⟩,
      fun hne => absurd rfl hne, fun _ => rfl, fun _ => rfl⟩
  refine .waiting rfl (append_nil _).symm (fun _ => rfl) rfl ?_ hr le_rfl
  intro set p ht
  obtain ⟨set', -, heq⟩ := Option.map_eq_some_iff.mp ht
  cases heq
  exact ⟨rfl, rfl⟩

end Splitting

/-! ### Whole runs -/

/-- What a consumer is sent for the generated `pieces`, with its answers. -/
def EventSplitter.log (env : Env) (consumer : Consumer L K) (k : K) (thinking : Bool)
    (tools : Option ToolSet) (stop : List Text) (nextCallId : CallId)
    (pieces : List (Text × List L)) (reason : StopReason) : Log L :=
  let (s, k) := emitAll env (logged consumer) pieces (new thinking tools stop nextCallId) (k, [])
  (s.close (logged consumer) reason k).2.1.2

/-- **Log-probabilities travel with their text.**  In a run whose consumer refuses no records,
the content stands in the generated text in order; the records sent are those of the pieces whose
text is in part content, in order and once each; and before each content those of its own text and
of the content before it have been sent. -/
theorem logprobs_with_their_text (env : Env) (consumer : Consumer L K) (k : K) (thinking : Bool)
    (tools : Option ToolSet) (stop : List Text) (nextCallId : CallId)
    (pieces : List (Text × List L)) (reason : StopReason) :
    let log := EventSplitter.log env consumer k thinking tools stop nextCallId pieces reason
    Takes log → ∃ contents : List (Text × Nat),
      shownTexts log = contents.map Prod.fst ∧
      (∀ content ∈ contents, At (pieces.flatMap Prod.fst) content.2 content.1) ∧
      contents.Pairwise (fun a b => a.2 + utf8Len a.1 ≤ b.2) ∧
      delivered log = met (spans 0 pieces) contents ∧
      Early (spans 0 pieces) contents log := by
  intro log ht
  have hs := emitAll_splitting env consumer pieces
    (new_splitting (L := L) thinking tools stop nextCallId k)
  rw [nil_append, nil_append, utf8Len_nil] at hs
  obtain ⟨pos, fresh, hr⟩ := close_ready consumer hs reason
  obtain ⟨low, -, hse, -⟩ := hr.sent
  obtain ⟨last, contents, hq⟩ := hse ht
  exact ⟨contents, hq.sent.shown, hq.exact, hq.order, hq.sent.records, hq.sent.early⟩

def takesAll : Consumer Nat Unit := fun k _ => (k, true)

def stoppedPieces : List (Text × List Nat) :=
  [("hm</think>\n\nHel".toList, [1]), ("lo E".toList, [2]), ("ND x".toList, [3])]

/-- Reasoning, an answer in two pieces and a stop sequence. -/
theorem stopped_answer_records :
    Takes (EventSplitter.log wordEnv takesAll () true none ["END".toList] 0 stoppedPieces .eos) ∧
      delivered (EventSplitter.log wordEnv takesAll () true none ["END".toList] 0 stoppedPieces
        .eos) = [1, 2] ∧
      ∃ contents, Early (spans 0 stoppedPieces) contents
        (EventSplitter.log wordEnv takesAll () true none ["END".toList] 0 stoppedPieces .eos) := by
  have ha : ∀ entry ∈ EventSplitter.log wordEnv takesAll () true none ["END".toList] 0
      stoppedPieces .eos, entry.2 = true := by decide +kernel
  have ht : Takes (EventSplitter.log wordEnv takesAll () true none ["END".toList] 0
      stoppedPieces .eos) := fun tokens go hm => ha _ hm
  obtain ⟨contents, -, -, -, -, he⟩ := logprobs_with_their_text wordEnv takesAll () true none
    ["END".toList] 0 stoppedPieces .eos ht
  exact ⟨ht, by decide +kernel, contents, he⟩

def takesNone : Consumer Nat Unit := fun k _ => (k, false)

theorem refused_records_sent :
    delivered (EventSplitter.log wordEnv takesNone () false none [] 0 [("a".toList, [1])] .eos) = [1] ∧
      shownTexts (EventSplitter.log wordEnv takesNone () false none [] 0 [("a".toList, [1])] .eos)
        = [] := by
  decide +kernel

end LocalAi.Answer
