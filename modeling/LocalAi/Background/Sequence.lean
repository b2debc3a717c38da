import LocalAi.Background.Journal
import Mathlib.Data.List.Infix

/-!
# Sequence numbers name one event

The events of a streamed response form one list that only grows: the lines a writer
has settled, then the events of the stored end.  A journal's file holds a start of
it, or, while its response is pending, lines that nobody was shown; subscribers stand
at a place of it, whichever way they came to its end.

* `Layout`: the whole lines of a file, and which of them are settled.
* `Layout.stream`: the events of the response so far.
* `derivedEnd_eq_drop`: the derived end is what the journal lacks.
* `Shape`: what holds of a journal, its writer and its subscribers.
* `Shape.step`, `Shape.run`: one step, and a run, keep it and only extend the stream.
* `sequence_numbers_name_one_event`.
-/

set_option linter.unusedSectionVars false

open List

namespace LocalAi.Background

open LocalAi.Lib

section Sequence

variable {α B O Sub : Type} (message : B → List Char) (f : LineFormat α (Event B O))

/-! ### The end of a response -/

variable {response : Response B} {epoch : Nat} {events entries : List (Event B O)} {w : Writer}
  {event : Event B O} {left : List α}

theorem terminalEvents_cases (he : response.status.pending = false) :
    (∃ last : Event B O, terminalEvents message response = [last] ∧ last.terminal = true) ∨
    ∃ first last : Event B O, terminalEvents message response = [first, last] ∧
      first.opensEnd = true ∧ first.terminal = false ∧ last.terminal = true := by
  obtain ⟨status, body⟩ := response
  cases status with
  | queued => cases he
  | inProgress => cases he
  | completed => exact .inl ⟨_, rfl, rfl⟩
  | incomplete => exact .inl ⟨_, rfl, rfl⟩
  | cancelled => exact .inl ⟨_, rfl, rfl⟩
  | failed => exact .inr ⟨_, _, rfl, rfl, rfl, rfl⟩

theorem Event.opensEnd_of_isOutput (h : event.isOutput = true) : event.opensEnd = false := by
  cases event with
  | output => rfl
  | error => cases h
  | final => cases h

theorem Event.terminal_of_isOutput (h : event.isOutput = true) : event.terminal = false := by
  cases event with
  | output => rfl
  | error => cases h
  | final => cases h

theorem derivedEnd_of_not_opensEnd [DecidableEq B] [DecidableEq O] {last : Option (Event B O)}
    (response : Response B) (hl : ∀ event, last = some event → event.opensEnd = false) :
    derivedEnd message last response = terminalEvents message response := by
  unfold derivedEnd
  cases last with
  | none => rfl
  | some event =>
    cases terminalEvents message response with
    | nil => rfl
    | cons =>
      have ho := hl event rfl
      simp [ho]

variable {k m : Nat} {p : Published} {entries' : List (Event B O)} {state : Subscriber α B O}
  {sub : Sub}

/-- Behind the events before the end, what is derived from the record is what a reader
has not read, unless it has read the end. -/
theorem derivedEnd_eq_drop [DecidableEq B] [DecidableEq O] {base : List (Event B O)}
    (hend : response.status.pending = false)
    (hb : ∀ event ∈ base, event.isOutput = true) (hk : base.length ≤ k)
    (hlen : k ≤ (base ++ terminalEvents message response).length)
    (ho : ∀ event, ((base ++ terminalEvents message response).take k).getLast? = some event →
      event.terminal = false) :
    derivedEnd message ((base ++ terminalEvents message response).take k).getLast? response
      = (base ++ terminalEvents message response).drop k := by
  obtain ⟨j, rfl⟩ := Nat.exists_eq_add_of_le hk
  rw [drop_append, take_append, take_of_length_le hk, drop_of_length_le hk,
    nil_append, Nat.add_sub_cancel_left]
  rw [take_append, take_of_length_le hk, Nat.add_sub_cancel_left] at ho
  rw [length_append] at hlen
  cases j with
  | zero =>
    rw [take_zero, append_nil, drop_zero]
    refine derivedEnd_of_not_opensEnd message response fun event hev => ?_
    exact Event.opensEnd_of_isOutput (hb event (mem_of_getLast? hev))
  | succ j =>
    obtain ⟨last, he, hl⟩ | ⟨first, last, he, hf, -, hl⟩ :=
      terminalEvents_cases (O := O) message hend
    · -- the only event of the end was read
      rw [he] at ho
      have ht := ho last (by simp)
      rw [hl] at ht
      cases ht
    · rw [he, length_cons, length_singleton] at hlen
      cases j with
      | zero => simp [derivedEnd, he, hf]
      | succ j =>
        have hj : j = 0 := by omega
        subst hj
        rw [he] at ho
        have ht := ho last (by simp)
        rw [hl] at ht
        cases ht

/-! ### The stream -/

def Journal.ending (s : Journal α B O Sub) : List (Event B O) :=
  match s.record with
  | none => []
  | some response => terminalEvents message response

/-- A file's whole lines, and those of them that stay before the end. -/
structure Layout (α B O : Type) where
  lines : List (Event B O)
  base : List (Event B O)
  tail : List α

def Layout.stream (l : Layout α B O) (s : Journal α B O Sub) : List (Event B O) :=
  l.base ++ s.ending message

def size (events : List (Event B O)) : Nat := (f.batch 0 events).length

/-- The frames of `events` behind a cursor. -/
def shown (after : Option Nat) (events : List (Event B O)) : List (Nat × List α) :=
  (events.zipIdx.map fun entry => (entry.2, f.render entry.2 entry.1)).filter
    fun frame => Subscriber.wanted after frame.1

theorem shown_take_succ (after : Option Nat) (hev : events[k]? = some event) :
    shown f after (events.take (k + 1))
      = if Subscriber.wanted after k then shown f after (events.take k) ++ [(k, f.render k event)]
        else shown f after (events.take k) := by
  have hlt := (List.getElem?_eq_some_iff.mp hev).1
  have hlen : (events.take k).length = k := by
    rw [length_take]
    omega
  rw [take_add_one, hev, Option.toList_some]
  simp only [shown, zipIdx_append, hlen, map_append, filter_append]
  by_cases hw : Subscriber.wanted after k
  · simp [hw]
  · simp [hw]

theorem getLast?_take_succ (hev : events[k]? = some event) :
    (events.take (k + 1)).getLast? = some event := by
  rw [take_add_one, hev, Option.toList_some, getLast?_append]
  rfl

/-! ### What holds of a journal -/

/-- What was published: the first `m` events, all in the file; of a job that settled
and left no torn lines, all events before the end. -/
structure Reaches (l : Layout α B O) (s : Journal α B O Sub) (p : Published) (m : Nat) : Prop where
  bytes : p.bytes = size f ((l.stream message s).take m)
  lines : m ≤ l.lines.length
  le : m ≤ (l.stream message s).length
  settled : p.settled = true → p.torn = false → s.record ≠ none ∧ l.base.length ≤ m

/-- A subscriber was sent what it wants of the events before its position. -/
structure Follows (l : Layout α B O) (s : Journal α B O Sub) (state : Subscriber α B O) : Prop where
  le : state.position ≤ (l.stream message s).length
  frames : state.frames = shown f state.after ((l.stream message s).take state.position)
  reader : (∀ sequence rest, state.progress ≠ .sending sequence rest) →
    state.reader = f.readerAt (l.stream message s) state.position ∧
    state.last = ((l.stream message s).take state.position).getLast?
  replay : state.progress = .reading → state.live = none → s.record ≠ none
  live : ∀ epoch, state.live = some epoch → state.progress = .reading → epoch < s.epoch ∧
    state.seen.bytes ≤ (s.published epoch).bytes ∧
    ∃ m, state.position ≤ m ∧ Reaches message f l s state.seen m
  drained : state.progress = .drained → s.record ≠ none ∧ l.base.length ≤ state.position ∧
    ∀ event, state.last = some event → event.terminal = false
  sending : ∀ sequence rest, state.progress = .sending sequence rest →
    s.record ≠ none ∧ rest = (l.stream message s).drop sequence

/-- A writer knows where the settled lines end, unless it left torn ones. -/
def Held (l : Layout α B O) (s : Journal α B O Sub) (w : Writer) : Duty B → Prop
  | .job epoch => s.record = none ∧ epoch < s.epoch ∧ w.next = l.base.length ∧
      w.bytes = size f l.base ∧ (w.torn = false → l.lines = l.base ∧ l.tail = []) ∧
      (w.broken = false → w.torn = false) ∧ s.published epoch = ⟨w.bytes, false, w.torn⟩
  | .ended epoch response => s.record = some response ∧ epoch < s.epoch ∧ l.lines = l.base ∧
      (w.torn = false → w.next = l.base.length ∧ w.bytes = size f l.base ∧ l.tail = []) ∧
      (w.broken = false → w.torn = false) ∧ s.published epoch = ⟨w.bytes, false, w.torn⟩
  | .done epoch => s.record ≠ none ∧ epoch < s.epoch ∧
      ((s.published epoch).torn = false →
        ∃ m, l.base.length ≤ m ∧ Reaches message f l s (s.published epoch) m)
  | .recovering response => s.record = some response ∧ s.epoch ≠ 0 ∧ l.lines = l.base ∧
      w.next = l.base.length ∧ w.bytes = size f l.base

structure Shape (l : Layout α B O) (s : Journal α B O Sub) : Prop where
  file : s.file = f.batch 0 l.lines ++ l.tail
  tail : f.stop ∉ l.tail
  output : ∀ event ∈ l.base, event.isOutput = true
  fresh : s.epoch = 0 → l.lines = [] ∧ l.tail = [] ∧ s.record = none
  pending : s.record = none → l.base <+: l.lines ∧ (∀ event ∈ l.lines, event.isOutput = true) ∧
    (s.writer = none → l.base = l.lines)
  ended : ∀ response, s.record = some response → response.status.pending = false ∧
    ∃ j, l.lines = l.base ++ (terminalEvents message response).take j
  writer : ∀ w duty, s.writer = some (w, duty) → Held message f l s w duty
  published : ∀ epoch < s.epoch, ∃ m, Reaches message f l s (s.published epoch) m
  subs : ∀ sub state, s.subs sub = some state → Follows message f l s state

/-- The stream only grows, and not behind its end. -/
structure Grows (l : Layout α B O) (s : Journal α B O Sub) (l' : Layout α B O)
    (t : Journal α B O Sub) : Prop where
  stream : l.stream message s <+: l'.stream message t
  lines : l.lines.length ≤ l'.lines.length
  record : ∀ response, s.record = some response → t.record = some response ∧ l'.base = l.base
  epoch : s.epoch ≤ t.epoch
  bytes : ∀ epoch < s.epoch, (s.published epoch).bytes ≤ (t.published epoch).bytes

variable {message f}
variable {l l' : Layout α B O} {s t : Journal α B O Sub}

theorem Grows.refl (l : Layout α B O) (s : Journal α B O Sub) : Grows message l s l s where
  stream := prefix_rfl
  lines := le_rfl
  record := fun _ h => ⟨h, rfl⟩
  epoch := le_rfl
  bytes := fun _ _ => le_rfl

theorem Grows.trans {l'' : Layout α B O} {u : Journal α B O Sub} (h : Grows message l s l' t)
    (h' : Grows message l' t l'' u) : Grows message l s l'' u where
  stream := h.stream.trans h'.stream
  lines := Nat.le_trans h.lines h'.lines
  record := fun response hs => by
    obtain ⟨ht, hb⟩ := h.record response hs
    obtain ⟨hu, hb'⟩ := h'.record response ht
    exact ⟨hu, hb'.trans hb⟩
  epoch := Nat.le_trans h.epoch h'.epoch
  bytes := fun epoch he =>
    Nat.le_trans (h.bytes epoch he) (h'.bytes epoch (Nat.lt_of_lt_of_le he h.epoch))

theorem Grows.take (h : Grows message l s l' t) (hk : k ≤ (l.stream message s).length) :
    (l'.stream message t).take k = (l.stream message s).take k := by
  obtain ⟨more, hm⟩ := h.stream
  rw [← hm, take_append_of_le_length hk]

theorem Grows.le (h : Grows message l s l' t) :
    (l.stream message s).length ≤ (l'.stream message t).length :=
  h.stream.length_le

theorem Grows.record_ne_none (h : Grows message l s l' t) (hs : s.record ≠ none) :
    t.record ≠ none ∧ l'.base = l.base ∧ l'.stream message t = l.stream message s := by
  obtain ⟨response, hr⟩ := Option.ne_none_iff_exists'.mp hs
  obtain ⟨ht, hb⟩ := h.record response hr
  refine ⟨by simp [ht], hb, ?_⟩
  simp only [Layout.stream, Journal.ending, hb, hr, ht]

theorem Reaches.grow (hp : Reaches message f l s p m)
    (h : Grows message l s l' t) : Reaches message f l' t p m where
  bytes := by rw [h.take hp.le, hp.bytes]
  lines := Nat.le_trans hp.lines h.lines
  le := Nat.le_trans hp.le h.le
  settled := fun hs hto => by
    obtain ⟨hr, hb⟩ := hp.settled hs hto
    obtain ⟨ht, hsa, -⟩ := h.record_ne_none hr
    exact ⟨ht, hsa ▸ hb⟩

theorem readerAt_congr
    (h : entries.take k = entries'.take k) : f.readerAt entries k = f.readerAt entries' k := by
  rw [LineFormat.readerAt, LineFormat.readerAt, h]

theorem Follows.grow (hs : Follows message f l s state)
    (h : Grows message l s l' t) : Follows message f l' t state where
  le := Nat.le_trans hs.le h.le
  frames := by rw [h.take hs.le, hs.frames]
  reader := fun hp => by
    obtain ⟨hr, hla⟩ := hs.reader hp
    rw [h.take hs.le, readerAt_congr (h.take hs.le)]
    exact ⟨hr, hla⟩
  replay := fun hp hl => (h.record_ne_none (hs.replay hp hl)).1
  live := fun epoch hl hp => by
    obtain ⟨he, hb, m, hm, hreach⟩ := hs.live epoch hl hp
    exact ⟨Nat.lt_of_lt_of_le he h.epoch, Nat.le_trans hb (h.bytes epoch he), m, hm, hreach.grow h⟩
  drained := fun hp => by
    obtain ⟨hrec, hba, ho⟩ := hs.drained hp
    obtain ⟨ht, hsa, -⟩ := h.record_ne_none hrec
    exact ⟨ht, hsa ▸ hba, ho⟩
  sending := fun sequence rest hp => by
    obtain ⟨hrec, hrest⟩ := hs.sending sequence rest hp
    obtain ⟨ht, -, hst⟩ := h.record_ne_none hrec
    exact ⟨ht, hst ▸ hrest⟩

def Leads (message : B → List Char) (f : LineFormat α (Event B O)) (l : Layout α B O)
    (s t : Journal α B O Sub) : Prop :=
  ∃ l' : Layout α B O, Shape message f l' t ∧ Grows message l s l' t

theorem Shape.leads (h : Shape message f l s) (l' : Layout α B O) (hg : Grows message l s l' t)
    (hsu : t.subs = s.subs) (hf : t.file = f.batch 0 l'.lines ++ l'.tail)
    (ht : f.stop ∉ l'.tail) (hout : ∀ event ∈ l'.base, event.isOutput = true) (he : t.epoch ≠ 0)
    (hp : t.record = none → l'.base <+: l'.lines ∧
      (∀ event ∈ l'.lines, event.isOutput = true) ∧ (t.writer = none → l'.base = l'.lines))
    (hend : ∀ response, t.record = some response → response.status.pending = false ∧
      ∃ j, l'.lines = l'.base ++ (terminalEvents message response).take j)
    (hwr : ∀ w duty, t.writer = some (w, duty) → Held message f l' t w duty)
    (hpub : ∀ epoch < t.epoch, (epoch < s.epoch ∧ t.published epoch = s.published epoch) ∨
      ∃ m, Reaches message f l' t (t.published epoch) m) : Leads message f l s t := by
  refine ⟨l', ⟨hf, ht, hout, fun hz => absurd hz he, hp, hend, hwr, fun epoch hlt => ?_,
    fun sub state hs => (h.subs sub state (hsu ▸ hs)).grow hg⟩, hg⟩
  obtain ⟨hold, hsa⟩ | hn := hpub epoch hlt
  · obtain ⟨m, hm⟩ := h.published epoch hold
    exact ⟨m, hsa ▸ hm.grow hg⟩
  · exact hn

/-! ### The steps of a writer -/

variable [DecidableEq α] [DecidableEq B] [DecidableEq O] [DecidableEq Sub]

theorem batch_append_left {base : List (Event B O)} (hl : left <+: f.batch base.length events) :
    ∃ j tail, f.batch 0 base ++ left = f.batch 0 (base ++ events.take j) ++ tail ∧ f.stop ∉ tail := by
  obtain ⟨j, -, tail, rfl, ht⟩ := f.batch_of_isPrefix hl
  refine ⟨j, tail, ?_, ht⟩
  rw [f.batch_append, Nat.zero_add, append_assoc]

theorem Shape.reopen (h : Shape message f l s) :
    s.reopen f = ⟨size f l.lines, l.lines.length, false, false⟩ := by
  rw [Journal.reopen, h.file, f.wholeLines_batch h.tail]
  simp only [LineFormat.readerAt, take_length, size]

theorem Shape.file_take (h : Shape message f l s) :
    s.file.take (size f l.lines) = f.batch 0 l.lines := by
  rw [h.file, size, take_left]

theorem Shape.not_terminal (h : Shape message f l s) (hr : s.record = none)
    {line : Event B O × List α} (hl : (f.wholeLines s.file).1.getLast? = some line) :
    line.1.terminal = false := by
  have hm := mem_of_getLast? hl
  rw [h.file, f.wholeLines_batch h.tail, mem_map] at hm
  obtain ⟨entry, hent, rfl⟩ := hm
  have hev : entry.1 ∈ l.lines := fst_mem_of_mem_zipIdx hent
  exact Event.terminal_of_isOutput ((h.pending hr).2.1 _ hev)

theorem ending_of_none (hr : s.record = none) : s.ending message = [] := by
  rw [Journal.ending, hr]

theorem ending_of_some (hr : s.record = some response) :
    s.ending message = terminalEvents message response := by
  rw [Journal.ending, hr]

theorem stream_of_none (hr : s.record = none) : l.stream message s = l.base := by
  rw [Layout.stream, ending_of_none hr, append_nil]

theorem stream_of_some (hr : s.record = some response) :
    l.stream message s = l.base ++ terminalEvents message response := by
  rw [Layout.stream, ending_of_some hr]

theorem Reaches.base (hl : l.base <+: l.lines) (hb : p.bytes = size f l.base)
    (hs : p.settled = true → p.torn = false → s.record ≠ none) :
    Reaches message f l s p l.base.length where
  bytes := by rw [Layout.stream, take_left, hb]
  lines := hl.length_le
  le := by
    rw [Layout.stream, length_append]
    omega
  settled := fun h h' => ⟨hs h h', le_rfl⟩

theorem Reaches.whole (hr : s.record = some response)
    (hl : l.lines = l.base ++ terminalEvents message response)
    (hb : p.bytes = size f (l.base ++ terminalEvents message response)) :
    Reaches message f l s p (l.base ++ terminalEvents message response).length where
  bytes := by rw [stream_of_some hr, take_length, hb]
  lines := by rw [hl]
  le := by rw [stream_of_some hr]
  settled := fun _ _ => by
    refine ⟨by simp [hr], ?_⟩
    rw [length_append]
    exact Nat.le_add_right _ _

/-- A step while the response is pending, and stays so: the settled lines grow. -/
theorem Grows.pending (hs : s.record = none) (ht : t.record = none) (hba : l.base <+: l'.base)
    (hl : l.lines.length ≤ l'.lines.length) (he : s.epoch ≤ t.epoch)
    (hb : ∀ epoch < s.epoch, (s.published epoch).bytes ≤ (t.published epoch).bytes) :
    Grows message l s l' t where
  stream := by rwa [stream_of_none hs, stream_of_none ht]
  lines := hl
  record := fun response h => by
    rw [hs] at h
    cases h
  epoch := he
  bytes := hb

theorem Grows.settle (hs : s.record = none) (hb : l.base <+: l'.base)
    (hl : l.lines.length ≤ l'.lines.length) (he : s.epoch = t.epoch)
    (hp : s.published = t.published) : Grows message l s l' t where
  stream := by
    rw [stream_of_none hs]
    exact hb.trans (prefix_append _ _)
  lines := hl
  record := fun response h => by
    rw [hs] at h
    cases h
  epoch := Nat.le_of_eq he
  bytes := fun epoch _ => by rw [hp]

theorem Grows.ended (hr : t.record = s.record) (hb : l'.base = l.base)
    (hl : l.lines.length ≤ l'.lines.length) (he : s.epoch = t.epoch)
    (hby : ∀ epoch < s.epoch, (s.published epoch).bytes ≤ (t.published epoch).bytes) :
    Grows message l s l' t where
  stream := by
    simp only [Layout.stream, Journal.ending, hr, hb]
    exact prefix_rfl
  lines := hl
  record := fun response h => ⟨hr.trans h, hb⟩
  epoch := Nat.le_of_eq he
  bytes := hby

theorem update_bytes {published : Nat → Published}
    (h : (published epoch).bytes ≤ p.bytes) (e : Nat) :
    (published e).bytes ≤ (Function.update published epoch p e).bytes := by
  by_cases he : e = epoch
  · rw [he, Function.update_self]
    exact h
  · rw [Function.update_of_ne he]

theorem publish_published (s : Journal α B O Sub) (epoch : Nat) (p : Published) :
    (s.publish epoch p).published epoch = p := by
  simp only [Journal.publish, Function.update_self]

theorem Reaches.update (hlt : ∀ e < t.epoch, e = epoch ∨ e < s.epoch)
    (hpub : t.published = Function.update s.published epoch p)
    (hp : ∃ m, Reaches message f l' t p m) (e : Nat) (he : e < t.epoch) :
    (e < s.epoch ∧ t.published e = s.published e) ∨
      ∃ m, Reaches message f l' t (t.published e) m := by
  by_cases heq : e = epoch
  · right
    rwa [hpub, heq, Function.update_self]
  · left
    refine ⟨(hlt e he).resolve_left heq, ?_⟩
    rw [hpub, Function.update_of_ne heq]

/-- A step that writes of the end of a response that ended. -/
theorem Shape.closes (h : Shape message f l s) (lines : List (Event B O)) (tail : List α)
    (hlines : ∃ j, lines = l.base ++ (terminalEvents message response).take j)
    (hrec : s.record = some response) (hr : t.record = s.record) (hsu : t.subs = s.subs)
    (hs : l.lines = l.base) (hf : t.file = f.batch 0 lines ++ tail) (ht : f.stop ∉ tail)
    (hep : s.epoch = t.epoch) (he : t.epoch ≠ 0)
    (hby : ∀ epoch < s.epoch, (s.published epoch).bytes ≤ (t.published epoch).bytes)
    (hwr : ∀ w duty, t.writer = some (w, duty) → Held message f ⟨lines, l.base, tail⟩ t w duty)
    (hpub : ∀ epoch < t.epoch, (epoch < s.epoch ∧ t.published epoch = s.published epoch) ∨
      ∃ m, Reaches message f ⟨lines, l.base, tail⟩ t (t.published epoch) m) :
    Leads message f l s t := by
  have hrt := hr.trans hrec
  refine h.leads ⟨lines, l.base, tail⟩ (.ended hr rfl ?_ hep hby) hsu hf ht h.output he
    (fun hn => ?_) (fun found hfound => ?_) hwr hpub
  · obtain ⟨j, rfl⟩ := hlines
    rw [hs, length_append]
    exact Nat.le_add_right _ _
  · rw [hrt] at hn
    cases hn
  · obtain rfl := Option.some.inj (hrt.symm.trans hfound)
    exact ⟨(h.ended response hrec).1, hlines⟩

/-- A step that leaves the response pending. -/
theorem Shape.works (h : Shape message f l s) (lines base : List (Event B O)) (tail : List α)
    (hs : s.record = none) (hr : t.record = none) (hsu : t.subs = s.subs)
    (hf : t.file = f.batch 0 lines ++ tail) (ht : f.stop ∉ tail) (hb : l.base <+: base)
    (hbl : base <+: lines) (hl : l.lines.length ≤ lines.length)
    (ho : ∀ event ∈ lines, event.isOutput = true) (hle : s.epoch ≤ t.epoch) (he : t.epoch ≠ 0)
    (hby : ∀ epoch < s.epoch, (s.published epoch).bytes ≤ (t.published epoch).bytes)
    (hn : t.writer = none → base = lines)
    (hwr : ∀ w duty, t.writer = some (w, duty) → Held message f ⟨lines, base, tail⟩ t w duty)
    (hpub : ∀ epoch < t.epoch, (epoch < s.epoch ∧ t.published epoch = s.published epoch) ∨
      ∃ m, Reaches message f ⟨lines, base, tail⟩ t (t.published epoch) m) :
    Leads message f l s t := by
  refine h.leads ⟨lines, base, tail⟩ (.pending hs hr hb hl hle hby) hsu hf ht
    (fun event hev => ho event (hbl.subset hev)) he (fun _ => ⟨hbl, ho, hn⟩)
    (fun response hres => ?_) hwr hpub
  rw [hr] at hres
  cases hres

theorem Shape.create (h : Shape message f l s) (hnew : s.epoch = 0) : Leads message f l s
      ({ s with writer := some (⟨0, 0, false, false⟩, .job 0), epoch := 1 }.publish 0
        ⟨0, false, false⟩) := by
  obtain ⟨hl, ht, hr⟩ := h.fresh hnew
  obtain ⟨hb, ho, -⟩ := h.pending hr
  have hn : l.base = [] := by simpa [hl] using hb
  refine h.works l.lines l.base l.tail hr hr rfl h.file h.tail prefix_rfl hb le_rfl ho
    (by rw [hnew]; exact Nat.zero_le _) Nat.one_ne_zero (fun e he => (by omega)) (fun hn => absurd hn (Option.some_ne_none _)) ?_ ?_
  · intro w duty hw
    cases hw
    refine ⟨hr, Nat.one_pos, by simp [hn], by simp [hn, size, LineFormat.batch],
      fun _ => ⟨by rw [hl, hn], ht⟩, fun _ => rfl, ?_⟩
    exact publish_published _ _ _
  · refine Reaches.update (s := s) (fun e he => .inl (Nat.lt_one_iff.mp he)) rfl
      ⟨_, Reaches.base hb (by simp [hn, size, LineFormat.batch])
        fun ht => absurd ht Bool.false_ne_true⟩

theorem Shape.resume (h : Shape message f l s) (hr : s.record = none) :
    Leads message f l s ({ s with
        file := s.file.take (s.reopen f).bytes
        writer := some (s.reopen f, .job s.epoch)
        epoch := s.epoch + 1 }.publish s.epoch ⟨(s.reopen f).bytes, false, false⟩) := by
  obtain ⟨hb, ho, -⟩ := h.pending hr
  rw [h.reopen]
  refine h.works l.lines l.lines [] hr hr rfl (by rw [append_nil]; exact h.file_take) not_mem_nil hb
    prefix_rfl le_rfl ho (Nat.le_succ _) (Nat.succ_ne_zero _) (fun e he => ?_) nofun ?_ ?_
  · refine Nat.le_of_eq (congrArg Published.bytes ?_)
    exact (Function.update_of_ne (Nat.ne_of_lt he) _ _).symm
  · intro w duty hw
    cases hw
    exact ⟨hr, Nat.lt_succ_self _, rfl, rfl, fun _ => ⟨rfl, rfl⟩, fun _ => rfl,
      publish_published _ _ _⟩
  · refine Reaches.update (s := s) (fun e he => ?_) rfl
      ⟨_, Reaches.base prefix_rfl rfl nofun⟩
    exact (Nat.lt_succ_iff_lt_or_eq.mp he).symm

theorem Shape.append (h : Shape message f l s) (hwr : s.writer = some (w, .job epoch))
    (hwh : w.broken = false) (ho : ∀ event ∈ events, event.isOutput = true) : Leads message f l s
      ((s.appended f w events (.job epoch)).publish epoch
        ⟨w.bytes + (f.batch w.next events).length, false, false⟩) := by
  obtain ⟨hr, hep, hn, hb, hl, ht, hp⟩ := h.writer _ _ hwr
  obtain ⟨hsa, hta⟩ := hl (ht hwh)
  have hs : size f (l.base ++ events) = w.bytes + (f.batch w.next events).length := by
    rw [size, f.batch_append, length_append, Nat.zero_add, hn, hb, size]
  refine h.works (l.base ++ events) (l.base ++ events) [] hr hr rfl ?_ not_mem_nil
    (prefix_append _ _) prefix_rfl ?_ (forall_mem_append.mpr ⟨h.output, ho⟩) le_rfl
    (Nat.ne_zero_of_lt hep) (fun e _ => update_bytes ?_ e) nofun ?_ ?_
  · show s.file ++ f.batch w.next events = f.batch 0 (l.base ++ events) ++ []
    rw [h.file, hsa, hta, hn, f.batch_append, Nat.zero_add, append_nil, append_nil]
  · rw [hsa, length_append]
    exact Nat.le_add_right _ _
  · rw [hp]
    exact Nat.le_add_right _ _
  · intro w' duty hw
    cases hw
    refine ⟨hr, hep, ?_, hs.symm, fun _ => ⟨rfl, rfl⟩, ht, ?_⟩
    · rw [length_append, hn]
    · rw [publish_published, ht hwh]
  · exact Reaches.update (s := s) (fun e he => .inr he) rfl
      ⟨_, Reaches.base prefix_rfl hs.symm nofun⟩

theorem torn_file {base : List (Event B O)} (hl : left <+: f.batch base.length events)
    (cut : Bool) :
    ∃ j tail, (if cut then (f.batch 0 base).take (size f base) else f.batch 0 base ++ left)
        = f.batch 0 (base ++ events.take j) ++ tail ∧
      f.stop ∉ tail ∧ (cut = true → events.take j = [] ∧ tail = []) := by
  cases cut with
  | false =>
    obtain ⟨j, tail, hf, ht⟩ := batch_append_left hl
    exact ⟨j, tail, hf, ht, nofun⟩
  | true =>
    refine ⟨0, [], ?_, not_mem_nil, fun _ => ⟨take_zero, rfl⟩⟩
    simp [size]

theorem Shape.appendFails (h : Shape message f l s) (cut : Bool)
    (hwr : s.writer = some (w, .job epoch)) (hwh : w.broken = false)
    (ho : ∀ event ∈ events, event.isOutput = true) (hl : left <+: f.batch w.next events) :
    Leads message f l s
      ((s.torn w left cut (.job epoch)).publish epoch ⟨w.bytes, false, !cut⟩) := by
  obtain ⟨hr, hep, hne, hb, hli, hto, hp⟩ := h.writer _ _ hwr
  obtain ⟨hs, ht⟩ := hli (hto hwh)
  rw [hne] at hl
  obtain ⟨j, tail, hf, hst, hcut⟩ := torn_file hl cut
  refine h.works (l.base ++ events.take j) l.base tail hr hr rfl ?_ hst prefix_rfl
    (prefix_append _ _) ?_
    (forall_mem_append.mpr ⟨h.output, fun event hev => ho event (mem_of_mem_take hev)⟩) le_rfl
    (Nat.ne_zero_of_lt hep) (fun e _ => update_bytes ?_ e) nofun ?_ ?_
  · show (if cut then s.file.take w.bytes else s.file ++ left) = _
    rw [h.file, hs, ht, hb, append_nil]
    exact hf
  · rw [hs, length_append]
    exact Nat.le_add_right _ _
  · rw [hp]
  · intro w' duty hw
    cases hw
    refine ⟨hr, hep, hne, hb, fun hc => ?_, nofun, publish_published _ _ _⟩
    obtain ⟨hn, ht'⟩ := hcut (by simpa using hc)
    exact ⟨by simp [hn], ht'⟩
  · exact Reaches.update (s := s) (fun e he => .inr he) rfl
      ⟨_, Reaches.base (prefix_append _ _) hb nofun⟩

variable {response : Response B}

theorem Shape.settle (h : Shape message f l s) {w : Writer} {epoch : Nat}
    (hwr : s.writer = some (w, .job epoch)) (hend : response.status.pending = false) :
    Leads message f l s
      { s with record := some response, writer := some (w, .ended epoch response) } := by
  obtain ⟨hrec, hep, hne, hb, hl, hto, hp⟩ := h.writer _ _ hwr
  obtain ⟨hba, ho, -⟩ := h.pending hrec
  refine h.leads ⟨l.lines, l.lines, l.tail⟩ (.settle hrec hba le_rfl rfl rfl) rfl h.file h.tail
    ho (Nat.ne_zero_of_lt hep) nofun ?_ ?_ fun e he => .inl ⟨he, rfl⟩
  · intro r hr
    cases hr
    exact ⟨hend, 0, by simp⟩
  · intro w' duty hw
    cases hw
    refine ⟨rfl, hep, rfl, fun hc => ?_, hto, hp⟩
    obtain ⟨hs, ht⟩ := hl hc
    rw [hs]
    exact ⟨hne, hb, ht⟩

theorem Shape.publishEnd (h : Shape message f l s)
    (hwr : s.writer = some (w, .ended epoch response)) (hwh : w.broken = false) :
    Leads message f l s
      ((s.appended f w (terminalEvents message response) (.done epoch)).publish epoch
        ⟨w.bytes + (f.batch w.next (terminalEvents message response)).length, false, false⟩) := by
  obtain ⟨hrec, hep, hs, hc, hto, hp⟩ := h.writer _ _ hwr
  obtain ⟨hn, hb, ht⟩ := hc (hto hwh)
  have hsi : size f (l.base ++ terminalEvents message response)
      = w.bytes + (f.batch w.next (terminalEvents message response)).length := by
    rw [size, f.batch_append, length_append, Nat.zero_add, hn, hb, size]
  have hreach : Reaches message f ⟨l.base ++ terminalEvents message response, l.base, []⟩
      ((s.appended f w (terminalEvents message response) (.done epoch)).publish epoch
        ⟨w.bytes + (f.batch w.next (terminalEvents message response)).length, false, false⟩)
      ⟨w.bytes + (f.batch w.next (terminalEvents message response)).length, false, false⟩
      (l.base ++ terminalEvents message response).length :=
    Reaches.whole hrec rfl hsi.symm
  refine h.closes (l.base ++ terminalEvents message response) [] ⟨_, by rw [take_length]⟩ hrec rfl
    rfl hs ?_ not_mem_nil rfl (Nat.ne_zero_of_lt hep) (fun e _ => update_bytes ?_ e) ?_
    (Reaches.update (s := s) (fun e he => .inr he) rfl ⟨_, hreach⟩)
  · show s.file ++ f.batch w.next _ = _
    rw [h.file, hs, ht, hn, f.batch_append, Nat.zero_add, append_nil, append_nil]
  · rw [hp]
    exact Nat.le_add_right _ _
  · intro w' duty hw
    cases hw
    refine ⟨?_, hep, fun _ => ⟨(l.base ++ terminalEvents message response).length, ?_, ?_⟩⟩
    · show s.record ≠ none
      rw [hrec]
      exact Option.some_ne_none _
    · rw [length_append]
      exact Nat.le_add_right _ _
    · rw [publish_published]
      exact hreach

theorem Shape.publishEndFails (h : Shape message f l s) (cut : Bool)
    (hwr : s.writer = some (w, .ended epoch response)) (hwh : w.broken = false)
    (hl : left <+: f.batch w.next (terminalEvents message response)) : Leads message f l s
      ((s.torn w left cut (.done epoch)).publish epoch ⟨w.bytes, false, !cut⟩) := by
  obtain ⟨hrec, hep, hs, hc, hto, hp⟩ := h.writer _ _ hwr
  obtain ⟨hn, hb, ht⟩ := hc (hto hwh)
  rw [hn] at hl
  obtain ⟨j, tail, hf, hst, -⟩ := torn_file hl cut
  have hreach : Reaches message f ⟨l.base ++ (terminalEvents message response).take j, l.base, tail⟩
      ((s.torn w left cut (.done epoch)).publish epoch ⟨w.bytes, false, !cut⟩)
      ⟨w.bytes, false, !cut⟩ l.base.length :=
    Reaches.base (prefix_append _ _) hb nofun
  refine h.closes _ tail ⟨j, rfl⟩ hrec rfl rfl hs ?_ hst rfl (Nat.ne_zero_of_lt hep)
    (fun e _ => update_bytes ?_ e) ?_
    (Reaches.update (s := s) (fun e he => .inr he) rfl ⟨_, hreach⟩)
  · show (if cut then s.file.take w.bytes else s.file ++ left) = _
    rw [h.file, hs, ht, hb, append_nil]
    exact hf
  · rw [hp]
  · intro w' duty hw
    cases hw
    have hne : s.record ≠ none := by simp [hrec]
    refine ⟨hne, hep, fun _ => ⟨l.base.length, le_rfl, ?_⟩⟩
    rw [publish_published]
    exact hreach

theorem Reaches.settle (h : Reaches message f l s p m)
    (hr : s.record ≠ none) (hb : p.torn = false → l.base.length ≤ m) :
    Reaches message f l s { p with settled := true } m :=
  ⟨h.bytes, h.lines, h.le, fun _ ht => ⟨hr, hb ht⟩⟩

theorem Shape.conclude (h : Shape message f l s) (hwr : s.writer = some (w, .done epoch) ∨
      ∃ response, s.writer = some (w, .ended epoch response) ∧ w.broken = true) :
    Leads message f l s
      ({ s with writer := none }.publish epoch { s.published epoch with settled := true }) := by
  obtain ⟨hne, hep, m, hr, hba⟩ : s.record ≠ none ∧ epoch < s.epoch ∧
      ∃ m, Reaches message f l s (s.published epoch) m ∧
        ((s.published epoch).torn = false → l.base.length ≤ m) := by
    obtain hd | ⟨response, hend, -⟩ := hwr
    · obtain ⟨hne, hep, hwh⟩ := h.writer _ _ hd
      cases ht : (s.published epoch).torn with
      | false =>
        obtain ⟨m, hm, hr⟩ := hwh ht
        exact ⟨hne, hep, m, hr, fun _ => hm⟩
      | true =>
        obtain ⟨m, hr⟩ := h.published epoch hep
        exact ⟨hne, hep, m, hr, nofun⟩
    · obtain ⟨hrec, hep, hs, hc, -, hp⟩ := h.writer _ _ hend
      refine ⟨by simp [hrec], hep, ?_⟩
      cases ht : w.torn with
      | false =>
        obtain ⟨-, hb, -⟩ := hc ht
        refine ⟨l.base.length, ?_, fun _ => le_rfl⟩
        refine Reaches.base (by rw [hs]) ?_ (fun _ _ => by simp [hrec])
        rw [hp]
        exact hb
      | true =>
        obtain ⟨m, hr⟩ := h.published epoch hep
        refine ⟨m, hr, fun hf => ?_⟩
        rw [hp, ht] at hf
        cases hf
  have hg : Grows message l s l
      ({ s with writer := none }.publish epoch { s.published epoch with settled := true }) := by
    refine .ended rfl rfl (Nat.le_refl _) rfl (fun e _ => update_bytes ?_ e)
    exact Nat.le_refl (s.published epoch).bytes
  exact h.leads l hg rfl h.file h.tail h.output (Nat.ne_zero_of_lt hep) (fun hn => absurd hn hne)
    h.ended nofun (Reaches.update (s := s) (fun e he => .inr he) rfl
      ⟨m, (hr.settle hne hba).grow hg⟩)

theorem Shape.recover (h : Shape message f l s) (hm : s.epoch ≠ 0) (hwr : s.writer = none)
    (hrec : s.record = none) (hend : response.status.pending = false) : Leads message f l s
      { s with record := some response, writer := some (s.reopen f, .recovering response) } := by
  obtain ⟨hb, -, hs⟩ := h.pending hrec
  have hl := hs hwr
  refine h.leads l (.settle hrec prefix_rfl le_rfl rfl rfl) rfl h.file h.tail h.output hm nofun ?_ ?_
    fun e he => .inl ⟨he, rfl⟩
  · intro r hr
    cases hr
    exact ⟨hend, 0, by simp [hl]⟩
  · intro w duty hw
    cases hw
    rw [h.reopen]
    exact ⟨rfl, hm, hl.symm, by rw [hl], by rw [hl]⟩

theorem Shape.endFile (h : Shape message f l s) (hrec : s.record = some response)
    (hm : s.epoch ≠ 0) (hsa : l.lines = l.base)
    (hl : left <+: f.batch l.base.length (terminalEvents message response)) :
    Leads message f l s { s with file := f.batch 0 l.base ++ left, writer := none } := by
  obtain ⟨j, tail, hf, hs⟩ := batch_append_left hl
  exact h.closes _ tail ⟨j, rfl⟩ hrec rfl rfl hsa hf hs rfl hm (fun _ _ => le_rfl) nofun
    fun e he => .inl ⟨he, rfl⟩

theorem Shape.sealFails (h : Shape message f l s) (hwr : s.writer = some (w, .recovering response))
    (hl : left <+: f.batch w.next (terminalEvents message response)) :
    Leads message f l s { s with file := s.file.take w.bytes ++ left, writer := none } := by
  obtain ⟨hr, hm, hs, hn, hb⟩ := h.writer _ _ hwr
  rw [hn] at hl
  have ht : s.file.take w.bytes = f.batch 0 l.base := by rw [hb, ← hs, h.file_take]
  rw [ht]
  exact h.endFile hr hm hs hl

theorem Shape.crashEnd (h : Shape message f l s) {w : Writer} {epoch : Nat}
    {left : List α} (hwr : s.writer = some (w, .ended epoch response))
    (hw : w.broken = false) (hl : left <+: f.batch w.next (terminalEvents message response)) :
    Leads message f l s { s with file := s.file ++ left, writer := none } := by
  obtain ⟨hr, he, hs, hc, ht, -⟩ := h.writer _ _ hwr
  obtain ⟨hn, -, hta⟩ := hc (ht hw)
  rw [hn] at hl
  have hf : s.file = f.batch 0 l.base := by rw [h.file, hs, hta, append_nil]
  rw [hf]
  exact h.endFile hr (Nat.ne_zero_of_lt he) hs hl

/-- A writer goes: the whole lines of a pending response's file are settled. -/
theorem Shape.gone (h : Shape message f l s) {duty : Duty B} (hwr : s.writer = some (w, duty)) :
    Leads message f l s { s with writer := none } := by
  have hm : s.epoch ≠ 0 := by
    have hh := h.writer _ _ hwr
    cases duty with
    | job => exact Nat.ne_zero_of_lt hh.2.1
    | ended => exact Nat.ne_zero_of_lt hh.2.1
    | done => exact Nat.ne_zero_of_lt hh.2.1
    | recovering => exact hh.2.1
  cases hr : s.record with
  | none =>
    obtain ⟨hb, ho, -⟩ := h.pending hr
    rw [← hr]
    exact h.works l.lines l.lines l.tail hr hr rfl h.file h.tail hb prefix_rfl le_rfl ho le_rfl hm
      (fun _ _ => le_rfl) (fun _ => rfl) nofun fun e he => .inl ⟨he, rfl⟩
  | some =>
    rw [← hr]
    refine h.leads l (.ended rfl rfl le_rfl rfl fun _ _ => le_rfl) rfl h.file h.tail h.output hm
      (fun hn => ?_) h.ended nofun fun e he => .inl ⟨he, rfl⟩
    rw [show s.record = none from hn] at hr
    cases hr

theorem Shape.crashJob (h : Shape message f l s) {w : Writer} {epoch : Nat}
    {events : List (Event B O)} {left : List α} (hwr : s.writer = some (w, .job epoch))
    (hwh : w.broken = false) (ho : ∀ event ∈ events, event.isOutput = true)
    (hl : left <+: f.batch w.next events) :
    Leads message f l s { s with file := s.file ++ left, writer := none } := by
  obtain ⟨hr, hep, hn, -, hli, hto, -⟩ := h.writer _ _ hwr
  obtain ⟨hs, ht⟩ := hli (hto hwh)
  rw [hn] at hl
  obtain ⟨j, tail, hf, hst⟩ := batch_append_left hl
  refine h.works (l.base ++ events.take j) (l.base ++ events.take j) tail hr hr rfl ?_ hst
    (prefix_append _ _) prefix_rfl ?_
    (forall_mem_append.mpr ⟨h.output, fun event hev => ho event (mem_of_mem_take hev)⟩) le_rfl
    (Nat.ne_zero_of_lt hep) (fun _ _ => le_rfl) (fun _ => rfl) nofun fun e he => .inl ⟨he, rfl⟩
  · show s.file ++ left = _
    rw [h.file, hs, ht, append_nil]
    exact hf
  · rw [hs, length_append]
    exact Nat.le_add_right _ _

/-! ### The steps of a subscriber -/

/-- What a reader may find: whole lines, those of the file first, and of a response that
ended only events of its stream. -/
theorem Shape.view (h : Shape message f l s) {view : List α} (hv : View message f s view) :
    ∃ lines tail, view = f.batch 0 lines ++ tail ∧ f.stop ∉ tail ∧ l.lines <+: lines ∧
      (s.record ≠ none → lines <+: l.stream message s ∧ l.base.length ≤ lines.length) := by
  have he : ∀ response j, s.record = some response →
      l.base ++ (terminalEvents message response).take j <+: l.stream message s ∧
        l.base.length ≤ (l.base ++ (terminalEvents message response).take j).length := by
    intro response j hr
    rw [stream_of_some hr, length_append]
    exact ⟨(prefix_append_right_inj _).mpr ( take_prefix _ _), Nat.le_add_right _ _⟩
  have hb : ∀ events, l.lines = l.base → l.lines <+: l.base ++ events := by
    intro events hs
    rw [hs]
    exact prefix_append _ _
  cases hv with
  | still =>
    refine ⟨l.lines, l.tail, h.file, h.tail, prefix_rfl, fun hne => ?_⟩
    obtain ⟨response, hr⟩ := Option.ne_none_iff_exists'.mp hne
    obtain ⟨-, j, hj⟩ := h.ended response hr
    rw [hj]
    exact he response j hr
  | job hwr hw _ hl =>
    obtain ⟨hrec, -, hn, -, hli, hto, -⟩ := h.writer _ _ hwr
    obtain ⟨hs, ht⟩ := hli (hto hw)
    rw [hn] at hl
    obtain ⟨j, tail, hf, hst⟩ := batch_append_left hl
    rw [h.file, ht, append_nil, show f.batch 0 l.lines = f.batch 0 l.base by rw [hs]]
    exact ⟨_, tail, hf, hst, hb _ hs, fun hne => absurd hrec hne⟩
  | ended hwr hw hl =>
    obtain ⟨hrec, -, hs, hc, hto, -⟩ := h.writer _ _ hwr
    obtain ⟨hn, -, ht⟩ := hc (hto hw)
    rw [hn] at hl
    obtain ⟨j, tail, hf, hst⟩ := batch_append_left hl
    rw [h.file, ht, append_nil, show f.batch 0 l.lines = f.batch 0 l.base by rw [hs]]
    exact ⟨_, tail, hf, hst, hb _ hs, fun _ => he _ j hrec⟩
  | recovering hwr hl =>
    obtain ⟨hrec, -, hs, hn, hby⟩ := h.writer _ _ hwr
    rw [hn] at hl
    obtain ⟨j, tail, hf, hst⟩ := batch_append_left hl
    have hta : s.file.take (size f l.base) = f.batch 0 l.base := by rw [← hs, h.file_take]
    rw [hby, hta]
    exact ⟨_, tail, hf, hst, hb _ hs, fun _ => he _ j hrec⟩

theorem Shape.take_lines (h : Shape message f l s) (hm : m ≤ l.lines.length)
    (hm' : m ≤ (l.stream message s).length) : l.lines.take m = (l.stream message s).take m := by
  cases hr : s.record with
  | none =>
    obtain ⟨⟨more, hmo⟩, -, -⟩ := h.pending hr
    rw [stream_of_none hr] at hm' ⊢
    rw [← hmo, take_append_of_le_length hm']
  | some response =>
    obtain ⟨-, j, hj⟩ := h.ended response hr
    have hp : l.lines <+: l.stream message s := by
      rw [hj, stream_of_some hr]
      exact (prefix_append_right_inj _).mpr ( take_prefix _ _)
    obtain ⟨more, hmo⟩ := hp
    rw [← hmo, take_append_of_le_length hm]

theorem getElem?_of_take (hk : k < m)
    (h : entries.take m = entries'.take m) : entries[k]? = entries'[k]? := by
  rw [← getElem?_take_of_lt hk, h, getElem?_take_of_lt hk]

theorem take_of_take (hk : k ≤ m)
    (h : entries.take m = entries'.take m) : entries.take k = entries'.take k := by
  rw [← Nat.min_eq_left hk, ← take_take, h, take_take]

theorem nextLine_of_take {lines : List (Event B O)} (hk : k < m) (hm : m ≤ lines.length)
    (h : lines.take m = entries.take m) (tail : List α) (limit : Option Nat)
    (hlim : ∀ bound, limit = some bound → bound = size f (entries.take m)) :
    ∃ event, entries[k]? = some event ∧
      f.nextLine (f.batch 0 lines ++ tail) limit (f.readerAt entries k)
        = (some (event, f.render k event), f.readerAt entries (k + 1)) := by
  have hlt : k < lines.length := by omega
  have hl : lines[k]? = some lines[k] := getElem?_eq_getElem hlt
  refine ⟨lines[k], (getElem?_of_take hk h).symm.trans hl, ?_⟩
  rw [readerAt_congr (take_of_take (Nat.le_of_lt hk) h).symm,
    readerAt_congr (take_of_take (show k + 1 ≤ m from hk) h).symm]
  refine f.nextLine_line hl tail (fun bound hbd => ?_)
  rw [hlim bound hbd, size, ← h]
  exact f.size_take_le lines hk

/-- A reading subscriber reads the next event of the stream, or there is none for it
to read; if none comes any more it has read all before the end. -/
theorem Shape.nextLine (h : Shape message f l s)
    (hs : Follows message f l s state) (hp : state.progress = .reading) {view : List α}
    (hv : View message f s view) : (∃ event, (l.stream message s)[state.position]? = some event ∧
      f.nextLine view state.limit state.reader = (some (event, f.render state.position event),
        f.readerAt (l.stream message s) (state.position + 1)) ∧
      ∀ epoch, state.live = some epoch →
        ∃ m, state.position + 1 ≤ m ∧ Reaches message f l s state.seen m) ∨
    (f.nextLine view state.limit state.reader = (none, state.reader) ∧
      (state.atEnd = true → s.record ≠ none ∧ l.base.length ≤ state.position)) := by
  obtain ⟨lines, tail, rfl, hta, hlines, hen⟩ := h.view hv
  obtain ⟨hre, -⟩ := hs.reader (by simp [hp])
  cases hl : state.live with
  | none =>
    have hlim : state.limit = none := by rw [Subscriber.limit, hl, Option.map_none]
    have hne := hs.replay hp hl
    obtain ⟨⟨more, hmo⟩, hba⟩ := hen hne
    by_cases hk : state.position < lines.length
    · left
      have ht : lines.take lines.length = (l.stream message s).take lines.length := by
        rw [← hmo, take_left, take_length]
      obtain ⟨event, hev, hn⟩ := nextLine_of_take hk le_rfl ht tail none nofun
      rw [hlim, hre]
      exact ⟨event, hev, hn, nofun⟩
    · right
      refine ⟨f.nextLine_end ?_, fun _ => ⟨hne, by omega⟩⟩
      rw [hlim, hre]
      refine f.stop_not_mem_drop hta ?_
      have hsi := f.size_take_le (l.stream message s) (show lines.length ≤ state.position by omega)
      rwa [← hmo, take_left, hmo] at hsi
  | some epoch =>
    have hlim : state.limit = some state.seen.bytes := by
      rw [Subscriber.limit, hl, Option.map_some]
    obtain ⟨-, -, m, hm, hr⟩ := hs.live epoch hl hp
    rcases Nat.lt_or_ge state.position m with hlt | hge
    · left
      have ht : lines.take m = (l.stream message s).take m := by
        obtain ⟨more, rfl⟩ := hlines
        rw [take_append_of_le_length hr.lines, h.take_lines hr.lines hr.le]
      have hlen : m ≤ lines.length := Nat.le_trans hr.lines hlines.length_le
      obtain ⟨event, hev, hn⟩ := nextLine_of_take hlt hlen ht tail
        (some state.seen.bytes) (fun bound hbd => by rw [← Option.some.inj hbd, hr.bytes])
      rw [hlim, hre]
      exact ⟨event, hev, hn, fun _ _ => ⟨m, hlt, hr⟩⟩
    · right
      have hpos : state.position = m := Nat.le_antisymm hm hge
      constructor
      · rw [hlim]
        refine f.nextLine_limit _ (Nat.le_of_eq ?_)
        rw [hre, hpos, hr.bytes]
        rfl
      · intro he
        rw [Subscriber.atEnd, hl] at he
        simp only [Bool.and_eq_true, Bool.not_eq_true'] at he
        rw [hpos]
        exact hr.settled he.1 he.2

theorem Shape.withSubs (h : Shape message f l s) {subs : Sub → Option (Subscriber α B O)}
    (hsu : ∀ sub state, subs sub = some state → Follows message f l s state) :
    Leads message f l s { s with subs := subs } := by
  have hg : Grows message l s l { s with subs := subs } :=
    .ended rfl rfl le_rfl rfl (fun _ _ => le_rfl)
  refine ⟨l, { h with writer := ?_, published := ?_, subs := ?_ }, hg⟩
  · intro w duty hw
    have hh := h.writer w duty hw
    cases duty with
    | job => exact hh
    | ended => exact hh
    | done =>
      obtain ⟨hne, he, hr⟩ := hh
      refine ⟨hne, he, fun ht => ?_⟩
      obtain ⟨m, hm, hp⟩ := hr ht
      exact ⟨m, hm, hp.grow hg⟩
    | recovering => exact hh
  · intro epoch he
    obtain ⟨m, hm⟩ := h.published epoch he
    exact ⟨m, hm.grow hg⟩
  · exact fun sub state hs => (hsu sub state hs).grow hg

theorem Shape.putSub (h : Shape message f l s) (sub : Sub)
    (hs : Follows message f l s state) : Leads message f l s (s.putSub sub state) := by
  refine h.withSubs fun name found hf => ?_
  obtain ⟨-, ⟨⟩⟩ | ⟨-, hf⟩ := Lib.update_eq_some hf
  · exact hs
  · exact h.subs name found hf

theorem Shape.leave (h : Shape message f l s) (sub : Sub) :
    Leads message f l s { s with subs := Function.update s.subs sub none } := by
  refine h.withSubs fun name found hf => ?_
  obtain ⟨-, ⟨⟩⟩ | ⟨-, hf⟩ := Lib.update_eq_some hf
  exact h.subs name found hf

theorem Follows.start {live after : Option Nat} (hr : live = none → s.record ≠ none)
    (hl : ∀ epoch, live = some epoch → epoch < s.epoch) :
    Follows message f l s ⟨live, after, ⟨0, false, false⟩, .start, none, .reading, []⟩ where
  le := Nat.zero_le _
  frames := rfl
  reader := fun _ => ⟨rfl, rfl⟩
  replay := fun _ h => hr h
  live := fun epoch h _ =>
    ⟨hl epoch h, Nat.zero_le _, 0, le_rfl, rfl, Nat.zero_le _, Nat.zero_le _, nofun⟩
  drained := fun h => by cases h
  sending := fun _ _ h => by cases h

theorem Shape.observe (h : Shape message f l s)
    (hsub : s.subs sub = some state) (hl : state.live = some epoch)
    (hpr : state.progress = .reading) :
    Leads message f l s (s.putSub sub { state with seen := s.published epoch }) := by
  have hs := h.subs sub state hsub
  obtain ⟨he, hb, m, hm, hr⟩ := hs.live epoch hl hpr
  obtain ⟨n, hp⟩ := h.published epoch he
  -- what is published only grows, so the lines read are among those published now
  have hn : state.position ≤ n := by
    refine f.le_of_size_take_le hs.le ?_
    have hle := f.size_take_le (l.stream message s) hm
    have hse := hr.bytes
    have hnow := hp.bytes
    rw [size] at hse hnow
    omega
  refine h.putSub sub { hs with live := ?_ }
  intro epoch' hl' _
  have heq : epoch = epoch' := Option.some.inj (hl.symm.trans hl')
  rw [← heq]
  exact ⟨he, le_rfl, n, hn, hp⟩

theorem sent_eq (hf : state.frames = shown f state.after (events.take k))
    (hev : events[k]? = some event) :
    state.sent k (f.render k event) = shown f state.after (events.take (k + 1)) := by
  rw [shown_take_succ f state.after hev, Subscriber.sent, hf]

theorem Subscriber.position_of_reading
    (h : ∀ sequence rest, state.progress ≠ .sending sequence rest) :
    state.position = state.reader.next := by
  rw [Subscriber.position]
  split
  · exact absurd ‹_› (h _ _)
  · rfl

theorem Shape.read (h : Shape message f l s) {view : List α}
    {text : List α} {r : LineFormat.Reader} (hsub : s.subs sub = some state)
    (hp : state.progress = .reading) (hv : View message f s view)
    (hl : f.nextLine view state.limit state.reader = (some (event, text), r)) :
    Leads message f l s (s.putSub sub { state with
        reader := r
        last := some event
        frames := state.sent state.reader.next text }) := by
  have hs := h.subs sub state hsub
  have hpos : state.position = state.reader.next :=
    Subscriber.position_of_reading (by simp [hp])
  obtain ⟨event', hev, hn, hli⟩ | ⟨hno, -⟩ := h.nextLine hs hp hv
  · rw [hl] at hn
    obtain ⟨⟨rfl, rfl⟩, rfl⟩ := hn
    have hnew : ({ state with
        reader := f.readerAt (l.stream message s) (state.position + 1)
        last := some event
        frames := state.sent state.reader.next (f.render state.position event) } :
          Subscriber α B O).position = state.position + 1 :=
      Subscriber.position_of_reading (by simp [hp])
    have hlt := (List.getElem?_eq_some_iff.mp hev).1
    refine h.putSub sub ⟨?_, ?_, fun _ => ?_, hs.replay, ?_, ?_, ?_⟩
    · rw [hnew]
      exact hlt
    · rw [hnew, ← hpos]
      exact sent_eq hs.frames hev
    · rw [hnew, getLast?_take_succ hev]
      exact ⟨rfl, rfl⟩
    · intro epoch he _
      obtain ⟨hlt', hb, -⟩ := hs.live epoch he hp
      rw [hnew]
      exact ⟨hlt', hb, hli epoch he⟩
    · intro hd
      rw [show state.progress = .drained from hd] at hp
      cases hp
    · intro sequence rest hse
      rw [show state.progress = .sending sequence rest from hse] at hp
      cases hp
  · rw [hl] at hno
    cases hno

theorem Shape.drain (h : Shape message f l s)
    {view : List α} (hsub : s.subs sub = some state) (hp : state.progress = .reading)
    (hv : View message f s view)
    (hre : (f.nextLine view state.limit state.reader).1 = none) (he : state.atEnd = true)
    (ho : ∀ event, state.last = some event → event.terminal = false) :
    Leads message f l s (s.putSub sub { state with progress := .drained }) := by
  have hs := h.subs sub state hsub
  have hpos : state.position = state.reader.next :=
    Subscriber.position_of_reading (by simp [hp])
  obtain ⟨event, -, hnext, -⟩ | ⟨-, hbef⟩ := h.nextLine hs hp hv
  · rw [hnext] at hre
    cases hre
  · obtain ⟨hne, hb⟩ := hbef he
    have hn : ({ state with progress := .drained } : Subscriber α B O).position
        = state.position := hpos.symm
    refine h.putSub sub ⟨?_, ?_, fun _ => ?_, nofun, nofun, ?_, nofun⟩
    · rw [hn]
      exact hs.le
    · rw [hn]
      exact hs.frames
    · rw [hn]
      exact hs.reader (by simp [hp])
    · rw [hn]
      exact fun _ => ⟨hne, hb, ho⟩

theorem Shape.derive (h : Shape message f l s) (hsub : s.subs sub = some state)
    (hp : state.progress = .drained) (hrec : s.record = some response) :
    Leads message f l s (s.putSub sub { state with
        progress := .sending state.reader.next (derivedEnd message state.last response) }) := by
  have hs := h.subs sub state hsub
  have hpos : state.position = state.reader.next :=
    Subscriber.position_of_reading (by simp [hp])
  obtain ⟨hne, hb, ho⟩ := hs.drained hp
  obtain ⟨-, hl⟩ := hs.reader (by simp [hp])
  have hle := hs.le
  have hrest : derivedEnd message state.last response
      = (l.stream message s).drop state.reader.next := by
    rw [hl] at ho ⊢
    rw [stream_of_some hrec] at ho hle ⊢
    rw [← hpos]
    exact derivedEnd_eq_drop message (h.ended response hrec).1 h.output hb hle ho
  refine h.putSub sub ⟨?_, ?_, fun hnot => absurd rfl (hnot _ _), nofun, nofun, nofun, ?_⟩
  · show state.reader.next ≤ _
    rw [← hpos]
    exact hle
  · show state.frames = shown f state.after ((l.stream message s).take state.reader.next)
    rw [← hpos]
    exact hs.frames
  · intro sequence rest hse
    cases hse
    exact ⟨hne, hrest⟩

theorem Shape.send (h : Shape message f l s)
    {sequence : Nat} {event : Event B O} {more : List (Event B O)} (hsub : s.subs sub = some state)
    (hp : state.progress = .sending sequence (event :: more)) :
    Leads message f l s (s.putSub sub { state with
        progress := .sending (sequence + 1) more
        frames := state.sent sequence (f.render sequence event) }) := by
  have hst := h.subs sub state hsub
  have hpos : state.position = sequence := by rw [Subscriber.position, hp]
  obtain ⟨hne, hre⟩ := hst.sending sequence _ hp
  have hev : (l.stream message s)[sequence]? = some event := by
    have hh := congrArg List.head? hre
    rw [head?_cons, head?_drop] at hh
    exact hh.symm
  have hm : more = (l.stream message s).drop (sequence + 1) := by
    rw [← tail_drop, ← hre, tail_cons]
  refine h.putSub sub ⟨?_, ?_, fun hnot => absurd rfl (hnot _ _), nofun, nofun, nofun, ?_⟩
  · exact (List.getElem?_eq_some_iff.mp hev).1
  · refine sent_eq ?_ hev
    rw [← hpos]
    exact hst.frames
  · intro _ _ hs
    cases hs
    exact ⟨hne, hm⟩

/-! ### Runs -/

theorem Shape.step (h : Shape message f l s) {a : Append B O Sub} (hst : Streaming message f s a t) :
    Leads message f l s t := by
  cases hst with
  | create hnew => exact h.create hnew
  | resume _ _ hpe => exact h.resume hpe
  | append hwr hw ho => exact h.append hwr hw ho
  | appendFails hwr hw ho hl => exact h.appendFails _ hwr hw ho hl
  | settle hwr he => exact h.settle hwr he
  | publishEnd hwr hw => exact h.publishEnd hwr hw
  | publishEndFails hwr hw hl => exact h.publishEndFails _ hwr hw hl
  | conclude hwr => exact h.conclude hwr
  | recover hm hwr hpe _ he => exact h.recover hm hwr hpe he
  | adopt _ hpe hla hov =>
    -- the lines of a pending response are all output
    rw [h.not_terminal hpe hla] at hov
    cases hov
  | sealEnd hwr => exact h.sealFails hwr prefix_rfl
  | sealFails hwr hl => exact h.sealFails hwr hl
  | @crashJob w _ _ left hwr ho hl hw =>
    cases hb : w.broken with
    | false => exact h.crashJob hwr hb ho hl
    | true =>
      rw [hw hb, append_nil]
      exact h.gone hwr
  | @crashEnd w _ _ left hwr hl hw =>
    cases hb : w.broken with
    | false => exact h.crashEnd hwr hb hl
    | true =>
      rw [hw hb, append_nil]
      exact h.gone hwr
  | crash hwr => exact h.gone hwr
  | subscribeLive =>
    refine h.putSub _ (Follows.start nofun (fun epoch hlive => ?_))
    rwa [← Option.some.inj hlive]
  | subscribeReplay _ he =>
    exact h.putSub _ (Follows.start (fun _ => he) nofun)
  | observe hs hlive hp => exact h.observe hs hlive hp
  | read hs hp hv hline => exact h.read hs hp hv hline
  | drain hs hp hv hr hend hopen =>
    exact h.drain hs hp hv hr hend hopen
  | derive hs hp hrec => exact h.derive hs hp hrec
  | send hs hp => exact h.send hs hp
  | leave => exact h.leave _

theorem Shape.start (h : (streams α B O Sub message f).start s) :
    Shape message f ⟨[], [], []⟩ s := by
  obtain ⟨hf, hr, hwr, he, hsu⟩ := h
  refine ⟨hf, not_mem_nil, nofun, fun _ => ⟨rfl, rfl, hr⟩,
    fun _ => ⟨prefix_rfl, nofun, fun _ => rfl⟩, ?_, ?_, ?_, ?_⟩
  · intro response hso
    rw [hr] at hso
    cases hso
  · intro w duty hw
    rw [hwr] at hw
    cases hw
  · intro epoch hlt
    rw [he] at hlt
    exact absurd hlt (Nat.not_lt_zero _)
  · intro sub state hs
    rw [hsu] at hs
    cases hs

theorem Shape.run (h : Shape message f l s) {actions : List (Append B O Sub)}
    (hr : (streams α B O Sub message f).Run s actions t) : Leads message f l s t := by
  induction hr with
  | refl => exact ⟨l, h, .refl l s⟩
  | tail prior next ih =>
    obtain ⟨lm, hm, hg⟩ := ih
    obtain ⟨lt, ht, hg'⟩ := hm.step next
    exact ⟨lt, ht, hg.trans hg'⟩

theorem shape_of_reachable (hs : (streams α B O Sub message f).Reachable s) :
    ∃ l : Layout α B O, Shape message f l s := by
  refine hs.invariant (I := fun s => ∃ l : Layout α B O, Shape message f l s) ?_ ?_
  · exact fun s hstart => ⟨_, Shape.start hstart⟩
  · intro s a t hl hstep
    obtain ⟨l, hl⟩ := hl
    obtain ⟨l', hl', -⟩ := hl.step hstep
    exact ⟨l', hl'⟩

theorem Follows.mem_frames (hs : Follows message f l s state)
    {n : Nat} {text : List α} (hm : (n, text) ∈ state.frames) :
    ∃ event, (l.stream message s)[n]? = some event ∧ text = f.render n event := by
  rw [hs.frames, shown, mem_filter, mem_map] at hm
  obtain ⟨⟨entry, he, heq⟩, -⟩ := hm
  rw [Prod.mk.injEq] at heq
  obtain ⟨rfl, rfl⟩ := heq
  refine ⟨entry.1, ?_, rfl⟩
  rw [mem_zipIdx_iff_getElem?, getElem?_take] at he
  split at he
  · exact he
  · cases he

theorem Shape.ends (h : Shape message f l s) {n : Nat} {event : Event B O}
    (hev : (l.stream message s)[n]? = some event) (hend : event.isOutput = false) :
    ∃ response, s.record = some response ∧ event ∈ terminalEvents message response := by
  have hm := mem_of_getElem? hev
  rw [Layout.stream, mem_append] at hm
  obtain hb | he := hm
  · rw [h.output event hb] at hend
    cases hend
  · cases hr : s.record with
    | none =>
      rw [ending_of_none hr] at he
      cases he
    | some response =>
      rw [ending_of_some hr] at he
      exact ⟨response, rfl, he⟩

/-- A reader's lines are numbered from zero without a gap.  At any two moments of a run
all subscribers were sent events of one list, each under its number: those behind its
cursor and before its position, so a number stands for one event.  An event that is no
output is of the end that is stored then. -/
theorem sequence_numbers_name_one_event {actions : List (Append B O Sub)}
    (hs : (streams α B O Sub message f).Reachable s)
    (hrun : (streams α B O Sub message f).Run s actions t) :
    (∀ view, View message f t view → ∀ i event text,
      (f.wholeLines view).1[i]? = some (event, text) → f.parse text = some (i, event)) ∧
    (∃ stream : List (Event B O), ∀ sub state, s.subs sub = some state ∨ t.subs sub = some state →
      state.position ≤ stream.length ∧
      state.frames = shown f state.after (stream.take state.position)) ∧
    (∀ sub state sub' state' n text text', s.subs sub = some state → t.subs sub' = some state' →
      (n, text) ∈ state.frames → (n, text') ∈ state'.frames → text = text') ∧
    ∀ sub state n event, t.subs sub = some state → (n, f.render n event) ∈ state.frames →
      event.isOutput = false →
      ∃ response, t.record = some response ∧ event ∈ terminalEvents message response := by
  obtain ⟨l, hl⟩ := shape_of_reachable hs
  obtain ⟨l', hl', hg⟩ := hl.run hrun
  have hf : ∀ sub state, s.subs sub = some state ∨ t.subs sub = some state →
      Follows message f l' t state := by
    rintro sub state (hsub | hsub)
    · have hst := hl.subs sub state hsub
      exact hst.grow hg
    · exact hl'.subs sub state hsub
  refine ⟨?_, ⟨l'.stream message t, fun sub state hsub => ?_⟩, ?_, ?_⟩
  · intro view _ i event text hli
    have hn := f.readLines_numbered view _ _ hli
    rwa [LineFormat.Reader.start, Nat.zero_add] at hn
  · have hst := hf sub state hsub
    exact ⟨hst.le, hst.frames⟩
  · intro sub state sub' state' n text text' hsub hsub' hm hm'
    obtain ⟨event, hev, rfl⟩ := (hf sub state (.inl hsub)).mem_frames hm
    obtain ⟨event', hev', rfl⟩ := (hf sub' state' (.inr hsub')).mem_frames hm'
    rw [hev] at hev'
    rw [Option.some.inj hev']
  · intro sub state n event hsub hm he
    obtain ⟨event', hev, hr⟩ := (hf sub state (.inr hsub)).mem_frames hm
    rw [f.render_injective hr] at he ⊢
    exact hl'.ends hev he

end Sequence

/-! ### A derived end -/

def marks : LineFormat (Option (Nat × Event Unit Unit)) (Event Unit Unit) where
  stop := none
  render := fun n event => [some (n, event)]
  parse := fun text =>
    match text with
    | [some entry] => some entry
    | _ => none
  parse_render := fun _ _ => rfl
  stop_not_mem := fun _ _ => by simp

/-- A response that nobody streams yet. -/
def unstreamed : Journal (Option (Nat × Event Unit Unit)) Unit Unit Unit where
  file := []
  record := none
  writer := none
  epoch := 0
  published := fun _ => ⟨0, false, false⟩
  subs := fun _ => none

/-- A job appends one event and stores its end, which it has not appended when a replay
sends it: the replay numbers it after the event it read. -/
theorem replay_numbers_the_end :
    ∃ s t : Journal (Option (Nat × Event Unit Unit)) Unit Unit Unit, ∃ state : Subscriber _ _ _,
      (streams _ Unit Unit Unit (fun _ => []) marks).Reachable s ∧ s.subs () = some state ∧
      state.frames = [(0, [some (0, .output ())])] ∧
      (streams _ Unit Unit Unit (fun _ => []) marks).Run s [.drain (), .derive (), .send ()] t ∧
      t.record = some ⟨.completed, ()⟩ ∧
      ∃ stream : List (Event Unit Unit), ∀ sub state, t.subs sub = some state →
        state.position = 2 ∧ state.frames = shown marks none (stream.take 2) := by
  let s₁ : Journal (Option (Nat × Event Unit Unit)) Unit Unit Unit :=
    { unstreamed with writer := some (⟨0, 0, false, false⟩, .job 0), epoch := 1 }.publish 0
      ⟨0, false, false⟩
  let s₂ := (s₁.appended marks ⟨0, 0, false, false⟩ [.output ()] (.job 0)).publish 0
    ⟨2, false, false⟩
  let s₃ := { s₂ with
    record := some ⟨.completed, ()⟩
    writer := some (⟨2, 1, false, false⟩, .ended 0 ⟨.completed, ()⟩) }
  let opened : Subscriber (Option (Nat × Event Unit Unit)) Unit Unit :=
    ⟨none, none, ⟨0, false, false⟩, .start, none, .reading, []⟩
  let state : Subscriber (Option (Nat × Event Unit Unit)) Unit Unit := { opened with
    reader := ⟨2, 1, false⟩
    last := some (.output ())
    frames := [(0, [some (0, .output ())])] }
  let s₄ := s₃.putSub () opened
  let s₅ := s₄.putSub () state
  let s₆ := s₅.putSub () { state with progress := .drained }
  let s₇ := s₆.putSub () { state with progress := .sending 1 [.final ⟨.completed, ()⟩] }
  let s₈ := s₇.putSub () { state with
    progress := .sending 2 []
    frames := [(0, [some (0, .output ())]), (1, [some (1, .final ⟨.completed, ()⟩)])] }
  have h₀ : (streams _ Unit Unit Unit (fun _ => []) marks).Reachable unstreamed :=
    .start ⟨rfl, rfl, rfl, rfl, fun _ => rfl⟩
  have h₁ := h₀.step (a := Append.create) (t := s₁) (.create rfl rfl)
  have h₂ := h₁.step (a := Append.append [.output ()]) (t := s₂)
    (.append rfl rfl (by simp [Event.isOutput]))
  have h₃ := h₂.step (a := Append.settle ⟨.completed, ()⟩) (t := s₃) (.settle rfl rfl)
  have h₄ := h₃.step (a := Append.subscribe () none) (t := s₄)
    (.subscribeReplay rfl (Option.some_ne_none _))
  have h₅ := h₄.step (a := Append.read ()) (t := s₅) (.read rfl rfl .still rfl)
  have hr : (streams _ Unit Unit Unit (fun _ => []) marks).Run s₅
      [.drain (), .derive (), .send ()] s₈ := by
    have h₆ : (streams _ Unit Unit Unit (fun _ => []) marks).Run s₅ [.drain ()] s₆ :=
      .tail (.refl _) (.drain rfl rfl .still rfl rfl (fun event h => by cases h; rfl))
    have h₇ : (streams _ Unit Unit Unit (fun _ => []) marks).Run s₅ [.drain (), .derive ()] s₇ :=
      .tail h₆ (@Streaming.derive _ _ _ _ _ _ _ _ _ _ s₆ () { state with progress := .drained }
        ⟨.completed, ()⟩ rfl rfl rfl)
    exact .tail h₇ (@Streaming.send _ _ _ _ _ _ _ _ _ _ s₇ ()
      { state with progress := .sending 1 [.final ⟨.completed, ()⟩] } 1 (.final ⟨.completed, ()⟩) []
      rfl rfl)
  obtain ⟨-, ⟨stream, hs⟩, -⟩ := sequence_numbers_name_one_event h₅ hr
  refine ⟨s₅, s₈, state, h₅, rfl, rfl, hr, rfl, stream, fun sub found hf => ?_⟩
  obtain ⟨-, hfr⟩ := hs sub found (.inr hf)
  cases hf
  exact ⟨rfl, hfr⟩

end LocalAi.Background
