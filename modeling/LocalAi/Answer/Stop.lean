import LocalAi.Tools.Json

/-!
# Stop sequences

`StopSequences` ends the visible answer at the first of the request's stop
sequences.  Content is held back while its end could still begin one.  The
consumer is a callback that may refuse an event.

* `heldPartial`: the longest end of the held text that begins a sequence.
* `stop_sequences_cut_iff`: the cut is the earliest occurrence of the whole text exactly when
  no piece boundary separates a sequence from one that starts before it.
-/

open List

namespace LocalAi.Answer

open LocalAi.Lib

variable {L K : Type}

/-- A consumer: it takes an event that starts at an offset of the generated
text, and says whether to go on. -/
abbrev Callback (L K : Type) := K → Event L → Nat → K × Bool

structure StopSequences where
  sequences : List Text
  held : Text
  heldFrom : Nat
  matched : Bool

namespace StopSequences

/-- `StopSequences::new`: empty sequences are dropped. -/
def new (sequences : List Text) : StopSequences :=
  { sequences := sequences.filter fun sequence => !sequence.isEmpty,
    held := [], heldFrom := 0, matched := false }

/-- The earliest occurrence of any of `sequences`. -/
def firstMatch (sequences : List Text) (text : Text) : Option Nat :=
  (sequences.filterMap fun sequence => find sequence text).min?

/-- The longest end of `held` that begins a sequence, in characters.  (The
source measures it in bytes; both are ends of `held`.) -/
def heldPartial (sequences : List Text) (held : Text) : Nat :=
  (sequences.map fun sequence => overlap sequence held).max?.getD 0

/-- Emit the held text, which no sequence can complete any more. -/
def flush (callback : Callback L K) (s : StopSequences) (k : K) : StopSequences × K × Bool :=
  if s.held.isEmpty then
    (s, k, true)
  else
    let (k, go) := callback k (.content s.held) s.heldFrom
    ({ s with held := [], heldFrom := s.heldFrom + utf8Len s.held }, k, go)

/-- Emit `text`, which starts at `offset`, holding back a possible start of a
sequence; at a match, emit only what precedes it and stop. -/
def content (callback : Callback L K) (text : Text) (offset : Nat) (s : StopSequences) (k : K) :
    StopSequences × K × Bool :=
  if s.matched then
    (s, k, false)
  else if s.sequences.isEmpty then
    let (k, go) := callback k (.content text) offset
    (s, k, go)
  else
    let s :=
      { s with
        heldFrom := if s.held.isEmpty then offset else s.heldFrom,
        held := s.held ++ text }
    match firstMatch s.sequences s.held with
    | some cut =>
      let (s, k, _) := flush callback { s with held := s.held.take cut, matched := true } k
      (s, k, false)
    | none =>
      let ready := s.held.length - heldPartial s.sequences s.held
      if ready = 0 then
        (s, k, true)
      else
        let text := s.held.take ready
        let (k, go) := callback k (.content text) s.heldFrom
        ({ s with held := s.held.drop ready, heldFrom := s.heldFrom + utf8Len text }, k, go)

/-- Any event but content releases what is held. -/
def event (callback : Callback L K) (event : Event L) (offset : Nat) (s : StopSequences) (k : K) :
    StopSequences × K × Bool :=
  match event with
  | .content text => content callback text offset s k
  | other =>
    if s.matched then
      (s, k, false)
    else
      let (s, k, go) := flush callback s k
      if go then
        let (k, go) := callback k other offset
        (s, k, go)
      else
        (s, k, false)

/-- A consumer that records every event with its offset and never refuses. -/
def recorder : Callback L (List (Event L × Nat)) := fun log event offset =>
  (log ++ [(event, offset)], true)

@[simp] theorem recorder_apply (log : List (Event L × Nat)) (event : Event L) (offset : Nat) :
    recorder log event offset = (log ++ [(event, offset)], true) := rfl

def runContent (callback : Callback L K) : List Text → Nat → StopSequences → K → StopSequences × K
  | [], _, s, k => (s, k)
  | piece :: pieces, offset, s, k =>
    let (s, k, _) := content callback piece offset s k
    runContent callback pieces (offset + utf8Len piece) s k

/-! ### The earliest match -/

variable {sequences : List Text}

variable {c : Nat} {pieces : List Text}

variable {text : Text}

theorem firstMatch_eq_some_iff : firstMatch sequences text = some c ↔
      (∃ sequence ∈ sequences, find sequence text = some c) ∧
        ∀ sequence ∈ sequences, ∀ j, find sequence text = some j → c ≤ j := by
  unfold firstMatch
  rw [min?_eq_some_iff]
  simp only [mem_filterMap]
  constructor
  · rintro ⟨hm, hle⟩
    exact ⟨hm, fun sequence hs j hj => hle j ⟨sequence, hs, hj⟩⟩
  · rintro ⟨hm, hle⟩
    exact ⟨hm, fun j ⟨sequence, hs, hj⟩ => hle sequence hs j hj⟩

theorem firstMatch_eq_none_iff :
    firstMatch sequences text = none ↔ ∀ sequence ∈ sequences, ¬ sequence <:+: text := by
  unfold firstMatch
  rw [min?_eq_none_iff, filterMap_eq_nil_iff]
  simp only [find_eq_none_iff]

theorem firstMatch_le_length (h : firstMatch sequences text = some c) : c ≤ text.length := by
  obtain ⟨⟨sequence, _, hf⟩, _⟩ := firstMatch_eq_some_iff.mp h
  obtain ⟨⟨before, after⟩, hs, rfl⟩ := Option.map_eq_some_iff.mp hf
  rw [splitOnce_eq_some hs]
  simp

theorem firstMatch_append (h : firstMatch sequences text = some c)
    (more : Text) : ∃ c', firstMatch sequences (text ++ more) = some c' ∧ c' ≤ c := by
  obtain ⟨⟨sequence, hmem, hf⟩, _⟩ := firstMatch_eq_some_iff.mp h
  have hf' := find_append hf more
  cases hm : firstMatch sequences (text ++ more) with
  | none =>
    have hn := firstMatch_eq_none_iff.mp hm sequence hmem
    rw [find_eq_none_iff.mpr hn] at hf'
    cases hf'
  | some c' => exact ⟨c', rfl, (firstMatch_eq_some_iff.mp hm).2 sequence hmem c hf'⟩

theorem firstMatch_shift {front held : Text} (hn : firstMatch sequences (front ++ held) = none)
    (ho : ∀ sequence ∈ sequences, overlap sequence (front ++ held) ≤ held.length) (more : Text) :
    firstMatch sequences (front ++ (held ++ more))
      = (firstMatch sequences (held ++ more)).map (front.length + ·) := by
  have hf : ∀ sequence ∈ sequences, find sequence (front ++ (held ++ more))
      = (find sequence (held ++ more)).map (front.length + ·) := by
    intro sequence hs
    rw [find, splitOnce_of_overlap (firstMatch_eq_none_iff.mp hn sequence hs)
      (ho sequence hs), find, Option.map_map, Option.map_map]
    congr 1
    funext parts
    simp
  cases hm : firstMatch sequences (held ++ more) with
  | none =>
    rw [Option.map_none, firstMatch_eq_none_iff]
    intro sequence hs
    rw [← find_eq_none_iff, hf sequence hs, find_eq_none_iff.mpr
      (firstMatch_eq_none_iff.mp hm sequence hs)]
    rfl
  | some =>
    rw [Option.map_some, firstMatch_eq_some_iff]
    obtain ⟨⟨sequence, hmem, hc⟩, hle⟩ := firstMatch_eq_some_iff.mp hm
    refine ⟨⟨sequence, hmem, by rw [hf sequence hmem, hc]; rfl⟩, ?_⟩
    intro sequence' hmem' j hj
    rw [hf sequence' hmem'] at hj
    obtain ⟨i, hi, rfl⟩ := Option.map_eq_some_iff.mp hj
    exact Nat.add_le_add_left (hle sequence' hmem' i hi) _

theorem le_heldPartial {held sequence : Text} (h : sequence ∈ sequences) :
    overlap sequence held ≤ heldPartial sequences held := by
  unfold heldPartial
  have hmem : overlap sequence held ∈ sequences.map fun sequence => overlap sequence held :=
    mem_map_of_mem h
  cases hm : (sequences.map fun sequence => overlap sequence held).max? with
  | none =>
    rw [max?_eq_none_iff] at hm
    rw [hm] at hmem
    cases hmem
  | some => exact (max?_eq_some_iff.mp hm).2 _ hmem

theorem heldPartial_le_length (sequences : List Text) (held : Text) :
    heldPartial sequences held ≤ held.length := by
  unfold heldPartial
  cases hm : (sequences.map fun sequence => overlap sequence held).max? with
  | none => exact Nat.zero_le _
  | some =>
    obtain ⟨sequence, _, rfl⟩ := mem_map.mp (max?_eq_some_iff.mp hm).1
    exact overlap_le_length sequence held

/-! ### What the consumer heard -/

def contentText (log : List (Event L × Nat)) : Text :=
  log.flatMap fun entry => match entry.1 with
    | .content text => text
    | _ => []

@[simp] theorem contentText_nil : contentText ([] : List (Event L × Nat)) = [] := rfl

@[simp] theorem contentText_append (a b : List (Event L × Nat)) :
    contentText (a ++ b) = contentText a ++ contentText b := by
  simp [contentText]

@[simp] theorem contentText_content (text : Text) (offset : Nat) :
    contentText [((.content text : Event L), offset)] = text := by
  simp [contentText]

/-- Every event is content that starts where the content before it ended. -/
def Placed (base : Nat) (log : List (Event L × Nat)) : Prop :=
  ∀ front event offset back, log = front ++ (event, offset) :: back →
    (∃ text, event = .content text) ∧ offset = base + utf8Len (contentText front)

theorem placed_nil (base : Nat) : Placed base ([] : List (Event L × Nat)) := by
  intro front event offset back h
  simp at h

theorem Placed.append {base : Nat} {log : List (Event L × Nat)} (h : Placed base log)
    (text : Text) {offset : Nat} (ho : offset = base + utf8Len (contentText log)) :
    Placed base (log ++ [(.content text, offset)]) := by
  intro front event offset' back heq
  rcases eq_nil_or_concat' back with rfl | ⟨back, last, rfl⟩
  · obtain ⟨rfl, hl⟩ := append_inj' heq rfl
    cases hl
    exact ⟨⟨text, rfl⟩, ho⟩
  · rw [← cons_append, ← append_assoc] at heq
    obtain ⟨hlog, -⟩ := append_inj' heq rfl
    exact h front event offset' back hlog

/-! ### One piece -/

/-- The sequences have not matched in `text`, which started at `base`: what is
held is an end of it that covers every beginning of a sequence. -/
structure Holding (sequences : List Text) (base : Nat) (text : Text) (s : StopSequences)
    (log : List (Event L × Nat)) : Prop where
  kept : s.sequences = sequences
  unmatched : s.matched = false
  split : contentText log ++ s.held = text
  noMatch : firstMatch sequences text = none
  covers : ∀ sequence ∈ sequences, overlap sequence text ≤ s.held.length
  placed : Placed base log
  heldFrom : s.held ≠ [] → s.heldFrom = base + utf8Len (contentText log)

/-- A sequence has matched and `text` is the whole answer. -/
structure Cut (base : Nat) (text : Text) (s : StopSequences) (log : List (Event L × Nat)) :
    Prop where
  matched : s.matched = true
  held : s.held = []
  answer : contentText log = text
  placed : Placed base log

variable {sequences : List Text} {base : Nat} {text : Text} {s : StopSequences}
  {log : List (Event L × Nat)}

theorem Cut.content (h : Cut base text s log) (piece : Text) (offset : Nat) :
    StopSequences.content recorder piece offset s log = (s, log, false) := by
  simp [StopSequences.content, h.matched]

theorem flush_recorder (hs : s.held ≠ []) : flush recorder s log
      = ({ s with held := [], heldFrom := s.heldFrom + utf8Len s.held },
        log ++ [(.content s.held, s.heldFrom)], true) := by
  simp [flush, hs, recorder]

theorem flush_of_nil {callback : Callback L K} {k : K} (hs : s.held = []) :
    flush callback s k = (s, k, true) := by
  simp [flush, hs]

/-- One piece of content.  Either a sequence now occurs, and the answer ends at
the earliest occurrence in everything that arrived, or the text is held on. -/
theorem Holding.content (h : Holding sequences base text s log) (hne : sequences ≠ [])
    (piece : Text) :
    let r := StopSequences.content recorder piece (base + utf8Len text) s log
    match firstMatch sequences (text ++ piece) with
    | some c => Cut base ((text ++ piece).take c) r.1 r.2.1
    | none => Holding sequences base (text ++ piece) r.1 r.2.1 := by
  intro r
  have hsh : firstMatch sequences (text ++ piece)
      = (firstMatch sequences (s.held ++ piece)).map ((contentText log).length + ·) := by
    have hn := h.noMatch
    have hc := h.covers
    rw [← h.split] at hn hc ⊢
    rw [append_assoc]
    exact firstMatch_shift hn hc piece
  -- where the held text starts once the piece has joined it
  obtain ⟨from_, hf⟩ : ∃ from_, from_
      = if s.held.isEmpty then base + utf8Len text else s.heldFrom := ⟨_, rfl⟩
  have hp : from_ = base + utf8Len (contentText log) := by
    by_cases hh : s.held = []
    · rw [hf, hh, ← h.split, hh, append_nil]
      rfl
    · rw [hf, if_neg (by simpa using hh)]
      exact h.heldFrom hh
  have hr : r = StopSequences.content recorder piece (base + utf8Len text) s log := rfl
  rw [StopSequences.content, if_neg (by simp [h.unmatched]), if_neg (by simp [h.kept, hne])] at hr
  rw [← hf, h.kept, h.unmatched] at hr
  have ht : ∀ n, contentText log ++ (s.held ++ piece).take n
      = (text ++ piece).take ((contentText log).length + n) := by
    intro n
    rw [← h.split, append_assoc, take_length_add_append]
  cases hm : firstMatch sequences (s.held ++ piece) with
  | some cut =>
    simp only [hm] at hr
    rw [hsh, hm, Option.map_some, hr]
    show Cut base ((text ++ piece).take ((contentText log).length + cut)) _ _
    rw [← ht]
    by_cases hnil : (s.held ++ piece).take cut = []
    · rw [flush_of_nil hnil]
      exact ⟨rfl, hnil, by simp [hnil], h.placed⟩
    · rw [flush_recorder hnil]
      exact ⟨rfl, rfl, by simp, h.placed.append _ hp⟩
  | none =>
    simp only [hm] at hr
    have hn : firstMatch sequences (text ++ piece) = none := by
      rw [hsh, hm]
      rfl
    have hc : ∀ sequence ∈ sequences,
        overlap sequence (text ++ piece) ≤ heldPartial sequences (s.held ++ piece) := by
      intro sequence hs
      have hcov := h.covers sequence hs
      have hne' : sequence ≠ [] := by
        rintro rfl
        exact firstMatch_eq_none_iff.mp h.noMatch _ hs ( nil_infix)
      rw [← h.split] at hcov ⊢
      rw [append_assoc, overlap_append hne' hcov]
      exact le_heldPartial hs
    have hl := heldPartial_le_length sequences (s.held ++ piece)
    rw [hn, hr]
    show Holding sequences base (text ++ piece) _ _
    split
    · next hz =>
      refine ⟨rfl, rfl, ?_, hn, ?_, h.placed, fun _ => hp⟩
      · rw [← h.split, append_assoc]
      · intro sequence hs
        have := hc sequence hs
        show overlap sequence (text ++ piece) ≤ (s.held ++ piece).length
        omega
    · refine ⟨rfl, rfl, ?_, hn, ?_, h.placed.append _ hp, fun _ => ?_⟩
      · rw [← h.split]
        simp
      · intro sequence hs
        have := hc sequence hs
        rw [length_drop]
        omega
      · simp [hp, Nat.add_assoc]

/-! ### All the pieces -/

/-- The answer as soon as a match is found in what has arrived, if ever. -/
def arrivedCut (sequences : List Text) (text : Text) : List Text → Option Text
  | [] => none
  | piece :: pieces =>
    match firstMatch sequences (text ++ piece) with
    | some c => some ((text ++ piece).take c)
    | none => arrivedCut sequences (text ++ piece) pieces

theorem Cut.run {pieces : List Text} (h : Cut base text s log) (offset : Nat) :
    runContent recorder pieces offset s log = (s, log) := by
  induction pieces generalizing offset with
  | nil => rfl
  | cons piece pieces ih =>
    rw [runContent, h.content]
    exact ih _

theorem Holding.run (h : Holding sequences base text s log) (hne : sequences ≠ [])
    (pieces : List Text) :
    let r := runContent recorder pieces (base + utf8Len text) s log
    match arrivedCut sequences text pieces with
    | some answer => Cut base answer r.1 r.2
    | none => Holding sequences base (text ++ pieces.flatten) r.1 r.2 := by
  induction pieces generalizing text s log with
  | nil => simpa [arrivedCut, runContent] using h
  | cons piece pieces ih =>
    have hs := h.content hne piece
    rcases hc : StopSequences.content recorder piece (base + utf8Len text) s log with ⟨s', log', go⟩
    rw [hc] at hs
    rw [runContent, hc]
    simp only [arrivedCut]
    cases hm : firstMatch sequences (text ++ piece) with
    | some =>
      rw [hm] at hs
      simp only [Cut.run hs]
      exact hs
    | none =>
      rw [hm] at hs
      have hr := ih hs
      simpa [Nat.add_assoc] using hr

theorem runContent_empty (hs : s.sequences = []) (hm : s.matched = false) (pieces : List Text)
    (hl : Placed base log) :
    let r := runContent recorder pieces (base + utf8Len (contentText log)) s log
    r.1 = s ∧ contentText r.2 = contentText log ++ pieces.flatten ∧ Placed base r.2 := by
  induction pieces generalizing log with
  | nil => simpa [runContent] using hl
  | cons piece pieces ih =>
    have hc : StopSequences.content recorder piece (base + utf8Len (contentText log)) s log
        = (s, log ++ [(.content piece, base + utf8Len (contentText log))], true) := by
      simp [StopSequences.content, hs, hm]
    have hr := ih (hl.append piece rfl)
    rw [runContent, hc]
    simpa [Nat.add_assoc] using hr

theorem runContent_append (callback : Callback L K) (first rest : List Text) (offset : Nat)
    (s : StopSequences) (k : K) : runContent callback (first ++ rest) offset s k
      = let (s, k) := runContent callback first offset s k
        runContent callback rest (offset + utf8Len first.flatten) s k := by
  induction first generalizing offset s k with
  | nil => simp [runContent]
  | cons piece first ih =>
    rw [cons_append, runContent, runContent]
    simp [ih, Nat.add_assoc]

theorem arrivedCut_eq_some {answer : Text} (hn : firstMatch sequences text = none)
    (h : arrivedCut sequences text pieces = some answer) :
    ∃ n c, firstMatch sequences (text ++ (pieces.take n).flatten) = some c ∧
      answer = (text ++ (pieces.take n).flatten).take c ∧
      ∀ m, m < n → firstMatch sequences (text ++ (pieces.take m).flatten) = none := by
  induction pieces generalizing text with
  | nil => cases h
  | cons piece pieces ih =>
    simp only [arrivedCut] at h
    cases hm : firstMatch sequences (text ++ piece) with
    | some c =>
      rw [hm] at h
      cases h
      refine ⟨1, c, by simpa using hm, by simp, ?_⟩
      intro m hlt
      obtain rfl : m = 0 := by omega
      simpa using hn
    | none =>
      rw [hm] at h
      obtain ⟨n, c, hc, ha, he⟩ := ih hm h
      refine ⟨n + 1, c, by simpa using hc, by simpa using ha, ?_⟩
      intro m hlt
      cases m with
      | zero => simpa using hn
      | succ m => simpa using he m (by omega)

theorem arrivedCut_eq_none (hn : firstMatch sequences text = none)
    (h : arrivedCut sequences text pieces = none) (n : Nat) :
    arrivedCut sequences text (pieces.take n) = none := by
  induction pieces generalizing text n with
  | nil => simpa using h
  | cons piece pieces ih =>
    cases n with
    | zero => rfl
    | succ n =>
      simp only [arrivedCut, take_succ_cons] at h ⊢
      cases hm : firstMatch sequences (text ++ piece) with
      | some =>
        rw [hm] at h
        cases h
      | none =>
        rw [hm] at h
        exact ih hm h n

/-! ### The whole answer -/

/-- All the content of an answer, then its end: `EventSplitter::close` flushes
what is held unless a sequence matched. -/
def answer (callback : Callback L K) (sequences pieces : List Text) (offset : Nat) (k : K) :
    StopSequences × K :=
  let (s, k) := runContent callback pieces offset (new sequences) k
  if s.matched then
    (s, k)
  else
    let (s, k, _) := flush callback s k
    (s, k)

/-- The text before the earliest occurrence of a sequence, or all of it. -/
def wholeCut (sequences : List Text) (text : Text) : Text :=
  match firstMatch (new sequences).sequences text with
  | some c => text.take c
  | none => text

variable (L) in
structure CutsAtFirst (sequences pieces : List Text) (base : Nat) : Prop where
  content : contentText (answer (recorder (L := L)) sequences pieces base []).2
    = wholeCut sequences pieces.flatten
  matched : (answer (recorder (L := L)) sequences pieces base []).1.matched
    = (firstMatch (new sequences).sequences pieces.flatten).isSome
  silent : ∀ n, (runContent (recorder (L := L)) (pieces.take n) base (new sequences)
      []).1.matched = true →
    (answer (recorder (L := L)) sequences pieces base []).2
      = (runContent (recorder (L := L)) (pieces.take n) base (new sequences) []).2
  placed : Placed base (answer (recorder (L := L)) sequences pieces base []).2

theorem holding_new (sequences : List Text) (base : Nat) :
    Holding (new sequences).sequences base [] (new sequences) ([] : List (Event L × Nat)) where
  kept := rfl
  unmatched := rfl
  split := rfl
  noMatch := by
    rw [firstMatch_eq_none_iff]
    intro sequence hs hin
    rw [infix_nil.mp hin] at hs
    simp [new] at hs
  covers sequence _ := overlap_le_length sequence []
  placed := placed_nil base
  heldFrom h := absurd rfl h

theorem cutsAtFirst_of_empty (hs : (new sequences).sequences = []) (pieces : List Text)
    (base : Nat) : CutsAtFirst L sequences pieces base := by
  have hr : ∀ pieces, _ := fun pieces =>
    runContent_empty hs rfl pieces (placed_nil (L := L) base)
  simp only [contentText_nil, utf8Len_nil, Nat.add_zero, nil_append] at hr
  have hfst : ∀ text, firstMatch (new sequences).sequences text = none := by
    intro text
    rw [hs]
    rfl
  obtain ⟨hst, ht, hp⟩ := hr pieces
  have ha : (answer (recorder (L := L)) sequences pieces base []).1 = new sequences ∧
      (answer (recorder (L := L)) sequences pieces base []).2
        = (runContent recorder pieces base (new sequences) []).2 := by
    have hf : ∀ log : List (Event L × Nat),
        flush recorder (new sequences) log = (new sequences, log, true) :=
      fun log => flush_of_nil rfl
    simp [answer, hst, hf, show (new sequences).matched = false from rfl]
  refine ⟨?_, ?_, ?_, ?_⟩
  · rw [ha.2, ht, wholeCut, hfst]
  · rw [ha.1, hfst]
    rfl
  · intro n hn
    rw [(hr (pieces.take n)).1] at hn
    cases hn
  · rw [ha.2]
    exact hp

theorem cutsAtFirst_of_none (hs : (new sequences).sequences ≠ [])
    (base : Nat) (h : arrivedCut (new sequences).sequences [] pieces = none) :
    CutsAtFirst L sequences pieces base := by
  have hnew := holding_new (L := L) sequences base
  have hold := hnew.run hs pieces
  simp only [h, nil_append, utf8Len_nil, Nat.add_zero] at hold
  obtain ⟨s, log, hr⟩ : ∃ s log, runContent (recorder (L := L)) pieces base (new sequences) []
    = (s, log) := ⟨_, _, rfl⟩
  rw [hr] at hold
  have hu : s.matched = false := hold.unmatched
  have ha : answer (recorder (L := L)) sequences pieces base []
      = ((flush recorder s log).1, (flush recorder s log).2.1) := by
    simp [answer, hr, hu]
  have hf : contentText (flush recorder s log).2.1 = pieces.flatten ∧
      (flush recorder s log).1.matched = false ∧ Placed base (flush recorder s log).2.1 := by
    by_cases hh : s.held = []
    · rw [flush_of_nil hh]
      exact ⟨by simpa [hh] using hold.split, hold.unmatched, hold.placed⟩
    · rw [flush_recorder hh]
      exact ⟨by simpa using hold.split, hold.unmatched, hold.placed.append _ (hold.heldFrom hh)⟩
  refine ⟨?_, ?_, ?_, ?_⟩
  · rw [ha, wholeCut, hold.noMatch]
    exact hf.1
  · rw [ha, hold.noMatch]
    exact hf.2.1
  · intro n hn
    have hp := hnew.run hs (pieces.take n)
    simp only [arrivedCut_eq_none hnew.noMatch h n, utf8Len_nil, Nat.add_zero] at hp
    rw [hp.unmatched] at hn
    cases hn
  · rw [ha]
    exact hf.2.2

theorem answer_of_cut (hs : (new sequences).sequences ≠ []) (base : Nat)
    {cut : Text} (h : arrivedCut (new sequences).sequences [] pieces = some cut) :
    let r := answer (recorder (L := L)) sequences pieces base []
    Cut base cut r.1 r.2 ∧
      ∀ n, (runContent (recorder (L := L)) (pieces.take n) base (new sequences) []).1.matched
          = true →
        r.2 = (runContent (recorder (L := L)) (pieces.take n) base (new sequences) []).2 := by
  intro r
  have hnew := holding_new (L := L) sequences base
  have hcut := hnew.run hs pieces
  simp only [h, utf8Len_nil, Nat.add_zero] at hcut
  have hr : r = runContent recorder pieces base (new sequences) [] := by
    simp only [r, answer, hcut.matched, if_true]
  rw [hr]
  refine ⟨hcut, ?_⟩
  intro n hn
  have hp := hnew.run hs (pieces.take n)
  simp only [utf8Len_nil, Nat.add_zero] at hp
  cases hc : arrivedCut (new sequences).sequences [] (pieces.take n) with
  | none =>
    rw [hc] at hp
    rw [hp.unmatched] at hn
    cases hn
  | some =>
    rw [hc] at hp
    conv_lhs => rw [← take_append_drop n pieces, runContent_append]
    exact congrArg Prod.snd (Cut.run hp _)

/-- **Where stop sequences cut.**  The answer is cut at the earliest occurrence
of a sequence in the whole text exactly when, at every piece boundary by which
one has occurred, the earliest so far is already the earliest of all. -/
theorem stop_sequences_cut_iff (sequences pieces : List Text) (base : Nat) :
    CutsAtFirst L sequences pieces base ↔
      ∀ n c, firstMatch (new sequences).sequences (pieces.take n).flatten = some c →
        firstMatch (new sequences).sequences pieces.flatten = some c := by
  have hsp : ∀ n, pieces.flatten = (pieces.take n).flatten ++ (pieces.drop n).flatten := by
    intro n
    rw [← flatten_append, take_append_drop]
  have hl : ∀ n c, firstMatch (new sequences).sequences (pieces.take n).flatten = some c →
      ∃ c', firstMatch (new sequences).sequences pieces.flatten = some c' ∧ c' ≤ c := by
    intro n c hc
    rw [hsp n]
    exact firstMatch_append hc _
  by_cases hs : (new sequences).sequences = []
  · refine ⟨fun _ n c hc => ?_, fun _ => cutsAtFirst_of_empty hs pieces base⟩
    rw [hs] at hc
    cases hc
  cases hcut : arrivedCut (new sequences).sequences [] pieces with
  | none =>
    have ha := cutsAtFirst_of_none (L := L) hs base hcut
    refine ⟨fun _ n c hc => ?_, fun _ => ha⟩
    have hold := (holding_new (L := L) sequences base).run hs pieces
    simp only [hcut, nil_append] at hold
    obtain ⟨c', hc', -⟩ := hl n c hc
    rw [hold.noMatch] at hc'
    cases hc'
  | some =>
    obtain ⟨hst, hsil⟩ := answer_of_cut (L := L) hs base hcut
    obtain ⟨k, c, hk, rfl, hearlier⟩ :=
      arrivedCut_eq_some (holding_new (L := L) sequences base).noMatch hcut
    simp only [nil_append] at hk hearlier hst
    obtain ⟨first, hf, hle⟩ := hl k c hk
    have hcl := firstMatch_le_length hk
    have hp : (pieces.take k).flatten.take c = pieces.flatten.take c := by
      rw [hsp k, take_append_of_le_length hcl]
    constructor
    · intro h n d hd
      -- both cuts are beginnings of the text, so they are at the same place
      have ht := hst.answer.symm.trans h.content
      rw [hp, wholeCut, hf] at ht
      have hlen := congrArg length ht
      have hfl := firstMatch_le_length hf
      have hfl' : c ≤ pieces.flatten.length := by
        rw [hsp k, length_append]
        omega
      simp only [length_take] at hlen
      have hcf : first = c := by omega
      have hkn : k ≤ n := by
        by_contra hlt
        rw [hearlier n (by omega)] at hd
        cases hd
      -- between the first match and the whole text the earliest match only moves forward
      obtain ⟨e, he, hed⟩ := hl n d hd
      obtain ⟨m, rfl⟩ := Nat.exists_eq_add_of_le hkn
      have hm : (pieces.take (k + m)).flatten
          = (pieces.take k).flatten ++ ((pieces.drop k).take m).flatten := by
        rw [← flatten_append, take_add]
      obtain ⟨d', hd', hdc⟩ := firstMatch_append hk ((pieces.drop k).take m).flatten
      rw [← hm, hd] at hd'
      cases hd'
      rw [hf] at he
      cases he
      rw [hf, show d = first by omega]
    · intro h
      have hc := h k c hk
      refine ⟨?_, ?_, hsil, hst.placed⟩
      · rw [hst.answer, hp, wholeCut, hc]
      · rw [hst.matched, hc]
        rfl

/-- `b` arrives inside `abcd` before `abcd` is complete: the answer is cut after
`a`, although the whole text starts with a stop sequence. -/
theorem stop_sequences_cut_late :
    ¬ CutsAtFirst Unit ["abcd".toList, "b".toList] ["ab".toList, "cd".toList] 0 := by
  intro h
  have hc := h.content
  revert hc
  decide

end StopSequences

end LocalAi.Answer
