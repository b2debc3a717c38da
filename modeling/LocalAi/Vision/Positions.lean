import LocalAi.Vision.Images

/-!
# Positions in order

The reference assigns positions by walking the prompt with a counter.

* `walk_eq`: behind any images, the walk and the closed form agree.
* `multimodal_positions`: the closed form, the offset of a run of text and the image rows
  agree with the walk.
-/

open List

namespace LocalAi.Vision

variable {F : Type}

/-! ### The walk with a counter -/

def imagePositions (span : ImageSpan F) (n : Nat) : List (Nat × Nat × Nat) :=
  (List.range span.tokens).map fun k => (n, n + k / span.cols, n + k % span.cols)

/-- The positions of the tokens from `position` on, at least `length` of them: `n` is the
counter and `spans` are the images still to come. -/
def walk : (length : Nat) → List (ImageSpan F) → (position n : Nat) → List (Nat × Nat × Nat)
  | 0, _, _, _ => []
  | length + 1, [], position, n => (n, n, n) :: walk length [] (position + 1) (n + 1)
  | length + 1, span :: spans, position, n =>
    if span.start = position then
      imagePositions span n ++ walk length spans span.stop (n + span.extent)
    else (n, n, n) :: walk length (span :: spans) (position + 1) (n + 1)

/-- Three positions as the kernel takes them. -/
def asRope (place : Nat × Nat × Nat) : UInt32 × UInt32 × UInt32 × UInt32 :=
  (.ofNat place.1, .ofNat place.2.1, .ofNat place.2.2, 0)

/-! ### The closed form without the 32-bit numbers -/

def PromptImages.place (images : PromptImages F) (position : Nat) : Nat × Nat × Nat :=
  match images.spanAt position with
  | some span =>
    let t0 := span.start - images.shrinkBefore span.start
    let k := position - span.start
    (t0, t0 + k / span.cols, t0 + k % span.cols)
  | none =>
    let p := position - images.shrinkBefore position
    (p, p, p)

theorem rope_eq (images : PromptImages F) (position : Nat) :
    images.rope position = asRope (images.place position) := by
  unfold PromptImages.rope PromptImages.place asRope
  cases images.spanAt position with
  | none => rfl
  | some => simp [UInt32.ofNat_add]

variable {span : ImageSpan F} {count start : Nat}

section Walk

variable {images : PromptImages F} {done left : List (ImageSpan F)} {position n : Nat}

structure Walked (images : PromptImages F) (done left : List (ImageSpan F)) (position n : Nat) :
    Prop where
  spans : images.spans = done ++ left
  behind : ∀ span ∈ done, span.stop ≤ position
  ahead : ∀ span ∈ left, position ≤ span.start
  counter : n + shrink done = position

theorem Walked.sized (h : Walked images done left position n) (hs : span ∈ left) : span.Sized :=
  images.ordered.sized span (by rw [h.spans]; exact mem_append_right _ hs)

theorem Walked.apart (h : Walked images done left position n) :
    left.Pairwise fun a b => a.stop ≤ b.start := by
  have := images.ordered.apart
  rw [h.spans] at this
  exact (pairwise_append.mp this).2.1

theorem Walked.parts (h : Walked images done left position n) : Parts position done left := by
  refine ⟨h.behind, fun span hs => ?_⟩
  have := h.ahead span hs
  have := (h.sized hs).start_lt
  omega

theorem Walked.place_text (h : Walked images done left position n)
    (hn : ∀ span ∈ left.head?, span.start ≠ position) : images.place position = (n, n, n) := by
  have hno : images.spanAt position = none := by
    rw [h.parts.spanAt h.spans, Option.filter_eq_none_iff]
    intro span hs
    have := h.ahead span (mem_of_mem_head? hs)
    have := hn span hs
    simp only [decide_eq_true_eq]
    omega
  have hp : position - images.shrinkBefore position = n := by
    rw [h.parts.shrinkBefore h.spans]
    have := h.counter
    omega
  simp only [PromptImages.place, hno, hp]

theorem Walked.place_image (h : Walked images done (span :: left) position n)
    (hs : span.start = position) {k : Nat} (hk : k < span.tokens) :
    images.place (position + k) = (n, n + k / span.cols, n + k % span.cols) := by
  have hp : Parts (position + k) done (span :: left) := by
    refine ⟨fun other ho => (h.behind other ho).trans (Nat.le_add_right _ _), ?_⟩
    have hsp : position + k < span.stop := by
      unfold ImageSpan.stop
      omega
    rw [forall_mem_cons]
    refine ⟨hsp, fun other ho => ?_⟩
    have := rel_of_pairwise_cons h.apart ho
    have := (h.sized (mem_cons_of_mem _ ho)).start_lt
    omega
  have hso : images.spanAt (position + k) = some span := by
    rw [hp.spanAt h.spans, head?_cons, Option.filter_some, if_pos]
    simp only [decide_eq_true_eq]
    omega
  have ht0 : span.start - images.shrinkBefore span.start = n := by
    rw [hs, h.parts.shrinkBefore h.spans]
    have := h.counter
    omega
  have hkth : position + k - span.start = k := by omega
  simp only [PromptImages.place, hso, ht0, hkth]

theorem Walked.text (h : Walked images done left position n)
    (hn : ∀ span ∈ left.head?, span.start ≠ position) :
    Walked images done left (position + 1) (n + 1) := by
  refine ⟨h.spans, fun span hs => (h.behind span hs).trans (Nat.le_succ _), ?_, ?_⟩
  · intro span hs
    cases left with
    | nil => simp at hs
    | cons first =>
      have hne := hn first (by simp)
      have hf := h.ahead first mem_cons_self
      rcases mem_cons.mp hs with rfl | hs
      · omega
      · have := rel_of_pairwise_cons h.apart hs
        have := (h.sized mem_cons_self).start_lt
        omega
  · have := h.counter
    omega

theorem Walked.image (h : Walked images done (span :: left) position n)
    (hstart : span.start = position) :
    Walked images (done ++ [span]) left span.stop (n + span.extent) := by
  have hs := h.sized mem_cons_self
  refine ⟨by simp [h.spans], ?_, fun other ho => rel_of_pairwise_cons h.apart ho, ?_⟩
  · intro other ho
    have hstop := hs.start_lt
    rcases mem_append.mp ho with ho | ho
    · have := h.behind other ho
      omega
    · rw [mem_singleton.mp ho]
  · have he := hs.extent_le
    have hsh : span.positionShrink = span.tokens - span.extent := rfl
    have hstop : span.stop = span.start + span.tokens := rfl
    have := h.counter
    rw [shrink_snoc]
    omega

theorem walk_eq {length : Nat} (h : Walked images done left position n) {i : Nat} (hi : i < length) :
    (walk length left position n)[i]? = some (images.place (position + i)) := by
  induction length generalizing done left position n i with
  | zero => omega
  | succ length ih =>
    -- text: the first token now, the others from the next position on
    have ht : (∀ span ∈ left.head?, span.start ≠ position) →
        ((n, n, n) :: walk length left (position + 1) (n + 1))[i]? =
          some (images.place (position + i)) := by
      intro hn
      cases i with
      | zero => simp [h.place_text hn]
      | succ =>
        rw [getElem?_cons_succ, ih (h.text hn) (by omega)]
        congr 2
        omega
    cases left with
    | nil => exact ht (by simp)
    | cons span =>
      rw [walk]
      split
      · next hs =>
        have hsi := h.sized mem_cons_self
        by_cases hk : i < span.tokens
        · rw [getElem?_append_left (by simpa [imagePositions] using hk), imagePositions,
            getElem?_map, getElem?_range hk, h.place_image hs hk]
          rfl
        · have hl : (imagePositions span n).length = span.tokens := by simp [imagePositions]
          have hp := Nat.pos_of_ne_zero hsi.tokens
          have hst : span.stop = span.start + span.tokens := rfl
          rw [getElem?_append_right (by omega), hl, ih (h.image hs) (by omega)]
          congr 2
          omega
      · next hs => exact ht (by simpa using hs)

theorem walked_start (images : PromptImages F) : Walked images [] images.spans 0 0 :=
  ⟨rfl, by simp, fun _ _ => Nat.zero_le _, rfl⟩

end Walk

/-! ### Runs of text and image rows -/

variable {images : PromptImages F}

theorem spanAt_eq_some {position : Nat} :
    images.spanAt position = some span ↔ span ∈ images.spans ∧ span.Holds position := by
  obtain ⟨done, left, hs, hp⟩ := exists_parts images position
  rw [hp.spanAt hs, Option.filter_eq_some_iff, decide_eq_true_eq]
  constructor
  · rintro ⟨hh, hstart⟩
    have hm : span ∈ left := mem_of_mem_head? hh
    exact ⟨by rw [hs]; exact mem_append_right _ hm, hstart, hp.left span hm⟩
  · rintro ⟨hm, hstart, hstop⟩
    refine ⟨?_, hstart⟩
    rw [hs] at hm
    rcases mem_append.mp hm with hd | hl
    · have := hp.done span hd
      omega
    · cases left with
      | nil => simp at hl
      | cons first =>
        rcases mem_cons.mp hl with rfl | hr
        · rfl
        · -- a later image starts behind the first one, which ends behind the position
          have ha := images.ordered.apart
          rw [hs] at ha
          have := rel_of_pairwise_cons (pairwise_append.mp ha).2.1 hr
          have := hp.left first mem_cons_self
          omega

theorem embedding_isSome (images : PromptImages F) (position : Nat) :
    (images.embedding position).isSome = true ↔ ∃ span ∈ images.spans, span.Holds position := by
  rw [PromptImages.embedding, Option.isSome_map, Option.isSome_iff_exists]
  simp only [spanAt_eq_some]

def PromptImages.TextOnly (images : PromptImages F) (start count : Nat) : Prop :=
  ∀ position, start ≤ position → position < start + count →
    ∀ span ∈ images.spans, ¬ span.Holds position

theorem textOnly_iff (hc : 1 ≤ count) : images.TextOnly start count ↔
      ∀ span ∈ images.spans, ¬ (span.start < start + count ∧ start < span.stop) := by
  constructor
  · rintro h span hs ⟨hstart, hstop⟩
    have hlt := (images.ordered.sized span hs).start_lt
    exact h (max start span.start) (Nat.le_max_left _ _) (by omega) span hs
      ⟨Nat.le_max_right _ _, by omega⟩
  · rintro h position hf hto span hs ⟨hstart, hstop⟩
    exact h span hs ⟨by omega, by omega⟩

theorem textOffset_eq_some (hc : 1 ≤ count) {offset : Int} :
    images.textOffset start count = some offset ↔
      images.TextOnly start count ∧ images.shrinkBefore start < 2 ^ 31 ∧
        offset = -(images.shrinkBefore start : Int) := by
  have ha : (images.spans.any fun span => decide (span.start < start + count) &&
      decide (start < span.stop)) = true ↔ ¬ images.TextOnly start count := by
    rw [textOnly_iff hc]
    simp
  unfold PromptImages.textOffset
  split
  · next hin => simp [ha.mp hin]
  · next hin =>
    have ht : images.TextOnly start count := not_not.mp fun h => hin (ha.mpr h)
    split
    · next hs =>
      rw [Option.some.injEq, eq_comm]
      exact ⟨fun h => ⟨ht, hs, h⟩, fun h => h.2.2⟩
    · next hs => exact ⟨nofun, fun h => absurd h.2.1 hs⟩

theorem place_text {position : Nat}
    (h : images.TextOnly start count) (hf : start ≤ position) (hto : position < start + count) :
    let q := position - images.shrinkBefore start
    images.place position = (q, q, q) := by
  obtain ⟨done, left, hsp, hp⟩ := exists_parts images start
  have hc := (textOnly_iff (by omega)).mp h
  have ha : ∀ span ∈ left, position < span.start := by
    intro span hs
    have hm : span ∈ images.spans := by rw [hsp]; exact mem_append_right _ hs
    by_contra hle
    exact hc span hm ⟨by omega, hp.left span hs⟩
  have hp' : Parts position done left := by
    refine ⟨fun span hs => (hp.done span hs).trans hf, fun span hs => ?_⟩
    have := ha span hs
    have := (images.ordered.sized span (by rw [hsp]; exact mem_append_right _ hs)).start_lt
    omega
  have hn : images.spanAt position = none := by
    rw [hp'.spanAt hsp, Option.filter_eq_none_iff]
    intro span hs
    have := ha span (mem_of_mem_head? hs)
    simp only [decide_eq_true_eq]
    omega
  simp only [PromptImages.place, hn, hp'.shrinkBefore hsp, hp.shrinkBefore hsp]

/-- **Multimodal positions follow the walk**, as 32-bit numbers whose sums wrap; a run of text has one
offset when the positions taken back before it fit an `i32`.  The sizes of rows, the ends of spans
and `start + count` are taken to fit a `usize`. -/
theorem multimodal_positions (images : PromptImages F) :
    (∀ length position, position < length →
      ∃ place, (walk length images.spans 0 0)[position]? = some place ∧
        images.rope position = asRope place) ∧
    ((∀ position, images.shrinkBefore position ≤ position) ∧
      ∀ span ∈ images.spans, span.extent ≤ span.tokens) ∧
    (∀ start count, 1 ≤ count →
      ((images.textOffset start count).isSome = true ↔
        images.TextOnly start count ∧ images.shrinkBefore start < 2 ^ 31) ∧
      ∀ offset, images.textOffset start count = some offset →
        ∀ position, start ≤ position → position < start + count →
          ∃ q : Nat, (q : Int) = position + offset ∧ images.rope position = asRope (q, q, q)) ∧
    ∀ position, (images.embedding position).isSome = true ↔
      ∃ span ∈ images.spans, span.Holds position := by
  refine ⟨fun length position hlt => ?_, ⟨images.shrinkBefore_le, fun span hs =>
    (images.ordered.sized span hs).extent_le⟩, fun start count hc => ⟨?_, ?_⟩,
    embedding_isSome images⟩
  · refine ⟨_, walk_eq (walked_start images) hlt, ?_⟩
    rw [rope_eq, Nat.zero_add]
  · simp [Option.isSome_iff_exists, textOffset_eq_some hc]
  · intro offset ho position hf hto
    obtain ⟨ht, -, rfl⟩ := (textOffset_eq_some hc).mp ho
    refine ⟨position - images.shrinkBefore start, ?_, ?_⟩
    · have := images.shrinkBefore_le start
      omega
    · rw [rope_eq, place_text ht hf hto]

/-- An image whose grid takes back more positions than an `i32` counts. -/
def hugeImage : ImageSpan Unit := ⟨0, 65536, 65536, List.replicate (65536 * 65536 * width) ()⟩

theorem huge_positions_wrap :
    (∃ images, PromptImages.new [hugeImage] = .ok images ∧ images.TextOnly (2 ^ 32) 1 ∧
      images.textOffset (2 ^ 32) 1 = none) ∧
    ∃ images : PromptImages Unit, PromptImages.new [] = .ok images ∧
      (walk (2 ^ 32 + 1) images.spans 0 0)[2 ^ 32]? = some (2 ^ 32, 2 ^ 32, 2 ^ 32) ∧
      images.rope (2 ^ 32) = (0, 0, 0, 0) := by
  have hv : validFrom 0 [hugeImage] = true := by
    rw [validFrom_iff]
    have ht : hugeImage.tokens = 65536 * 65536 := rfl
    refine ⟨?_, by simp, by simp⟩
    intro span hs
    rw [mem_singleton.mp hs]
    exact ⟨by rw [ht]; decide, by rw [ht]; exact length_replicate⟩
  refine ⟨⟨⟨[hugeImage], hv⟩, PromptImages.new_eq_ok.mpr rfl, ?_, ?_⟩,
    ⟨[], rfl⟩, PromptImages.new_eq_ok.mpr rfl, ?_, ?_⟩
  · intro position hf _ span hs hh
    rw [mem_singleton.mp hs] at hh
    have hst : hugeImage.stop = 4294967296 := rfl
    have := hh.2
    omega
  · rfl
  · rw [walk_eq (walked_start ⟨[], rfl⟩) (by decide)]
    rfl
  · rfl

end LocalAi.Vision
