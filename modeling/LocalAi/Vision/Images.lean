import LocalAi.Lib.Bisect
import LocalAi.Tools.Json

/-!
# The images of a prompt, by position

Every image of a prompt is a span of image tokens.  A token rotates by three positions: text
by one that counts on, an image by its rows and columns from where it starts, and the text
behind an image goes on after the longer side of its grid.

* `PromptImages.new`: the spans that make a prompt's images.
* `PromptImages.rope`: the rotary position in closed form, from the images before it.
* `Parts`: a position between the images that are over and those that are not, which says
  what every function here returns at it.

Sizes and positions are natural numbers; the rotary positions and the offset are the 32-bit
numbers of the source.
-/

open List

namespace LocalAi.Vision

open Lib (not_of_mem_dropWhile partitionPoint partitionPoint_split)

variable {F : Type}

/-- `WIDTH`: the values of one decoder input row. -/
def width : Nat := 5120

structure ImageSpan (F : Type) where
  start : Nat
  rows : Nat
  cols : Nat
  embedding : List F

namespace ImageSpan

def tokens (span : ImageSpan F) : Nat := span.rows * span.cols

/-- The position behind the image's last token. -/
def stop (span : ImageSpan F) : Nat := span.start + span.tokens

/-- The positions that the text behind the image goes on by. -/
def extent (span : ImageSpan F) : Nat := max span.rows span.cols

/-- How many positions the text behind this image resumes short of its token count. -/
def positionShrink (span : ImageSpan F) : Nat := span.tokens - span.extent

/-- Whether the token at `position` is one of the image's. -/
def Holds (span : ImageSpan F) (position : Nat) : Prop :=
  span.start ≤ position ∧ position < span.stop

instance (span : ImageSpan F) (position : Nat) : Decidable (span.Holds position) :=
  inferInstanceAs (Decidable (_ ∧ _))

end ImageSpan

/-- The check of `PromptImages::new`, where the spans before end at `stop`. -/
def validFrom (stop : Nat) : List (ImageSpan F) → Bool
  | [] => true
  | span :: spans =>
    !(span.start < stop || span.tokens = 0 || span.embedding.length ≠ span.tokens * width) &&
      validFrom span.stop spans

/-- The images of one sequence's prompt: ordered, disjoint, not empty, with all their rows. -/
structure PromptImages (F : Type) where
  spans : List (ImageSpan F)
  valid : validFrom 0 spans = true

namespace PromptImages

def new (spans : List (ImageSpan F)) : Except Text (PromptImages F) :=
  if h : validFrom 0 spans = true then .ok ⟨spans, h⟩
  else .error "invalid prompt image spans".toList

theorem new_eq_ok {spans : List (ImageSpan F)} {images : PromptImages F} :
    new spans = .ok images ↔ images.spans = spans := by
  unfold new
  constructor
  · intro h
    split at h
    · cases h
      rfl
    · cases h
  · rintro rfl
    rw [dif_pos images.valid]

def spanAt (images : PromptImages F) (position : Nat) : Option (ImageSpan F) :=
  let index := partitionPoint (fun span => span.stop ≤ position) images.spans
  (images.spans[index]?).filter fun span => span.start ≤ position

/-- The decoder input row of the image token at `position`. -/
def embedding (images : PromptImages F) (position : Nat) : Option (List F) :=
  (images.spanAt position).map fun span =>
    let row := position - span.start
    (span.embedding.drop (row * width)).take width

def shrinkBefore (images : PromptImages F) (position : Nat) : Nat :=
  ((images.spans.takeWhile fun span => span.stop ≤ position).map ImageSpan.positionShrink).sum

/-- The `(t, h, w, 0)` rotary position of the token at `position`. -/
def rope (images : PromptImages F) (position : Nat) : UInt32 × UInt32 × UInt32 × UInt32 :=
  match images.spanAt position with
  | some span =>
    let t0 := UInt32.ofNat (span.start - images.shrinkBefore span.start)
    let k := position - span.start
    (t0, t0 + UInt32.ofNat (k / span.cols), t0 + UInt32.ofNat (k % span.cols), 0)
  | none =>
    let p := UInt32.ofNat (position - images.shrinkBefore position)
    (p, p, p, 0)

/-- For `count` tokens from `start` that hold no image token, the offset every one of them
rotates by relative to its position. -/
def textOffset (images : PromptImages F) (start count : Nat) : Option Int :=
  if images.spans.any fun span => span.start < start + count && start < span.stop then none
  -- `i32::try_from`
  else if images.shrinkBefore start < 2 ^ 31 then some (-(images.shrinkBefore start : Int))
  else none

end PromptImages

/-! ### Valid spans -/

structure ImageSpan.Sized (span : ImageSpan F) : Prop where
  tokens : span.tokens ≠ 0
  embedding : span.embedding.length = span.tokens * width

theorem ImageSpan.Sized.extent_le {span : ImageSpan F} (h : span.Sized) :
    span.extent ≤ span.tokens := by
  have hne : span.rows * span.cols ≠ 0 := h.tokens
  have hr : 0 < span.rows := Nat.pos_of_ne_zero fun h0 => hne (by rw [h0, Nat.zero_mul])
  have hc : 0 < span.cols := Nat.pos_of_ne_zero fun h0 => hne (by rw [h0, Nat.mul_zero])
  exact max_le (Nat.le_mul_of_pos_right _ hc) (Nat.le_mul_of_pos_left _ hr)

theorem ImageSpan.Sized.start_lt {span : ImageSpan F} (h : span.Sized) :
    span.start < span.stop := by
  have := Nat.pos_of_ne_zero h.tokens
  unfold ImageSpan.stop
  omega

structure Ordered (stop : Nat) (spans : List (ImageSpan F)) : Prop where
  sized : ∀ span ∈ spans, span.Sized
  after : ∀ span ∈ spans, stop ≤ span.start
  apart : spans.Pairwise fun a b => a.stop ≤ b.start

theorem validFrom_iff {stop : Nat} {spans : List (ImageSpan F)} :
    validFrom stop spans = true ↔ Ordered stop spans := by
  induction spans generalizing stop with
  | nil => exact ⟨fun _ => ⟨by simp, by simp, .nil⟩, fun _ => rfl⟩
  | cons span spans ih =>
    rw [validFrom, Bool.and_eq_true, ih]
    simp only [Bool.not_eq_true', Bool.or_eq_false_iff, decide_eq_false_iff_not, Nat.not_lt,
      decide_not, Bool.not_eq_false', decide_eq_true_eq]
    constructor
    · rintro ⟨⟨⟨ha, ht⟩, hro⟩, hr⟩
      have hs : span.Sized := ⟨ht, hro⟩
      refine ⟨?_, ?_, pairwise_cons.mpr ⟨hr.after, hr.apart⟩⟩
      · rw [forall_mem_cons]
        exact ⟨hs, hr.sized⟩
      · rw [forall_mem_cons]
        refine ⟨ha, fun next hn => ?_⟩
        have := hr.after next hn
        have := hs.start_lt
        omega
    · intro h
      have hs := h.sized span mem_cons_self
      obtain ⟨ha, hap⟩ := pairwise_cons.mp h.apart
      exact ⟨⟨⟨h.after span mem_cons_self, hs.tokens⟩, hs.embedding⟩,
        fun next hn => h.sized next (mem_cons_of_mem _ hn), ha, hap⟩

theorem PromptImages.ordered (images : PromptImages F) : Ordered 0 images.spans :=
  validFrom_iff.mp images.valid

/-! ### A position between the images -/

/-- The images before `position`, and those that end behind it. -/
structure Parts (position : Nat) (done left : List (ImageSpan F)) : Prop where
  done : ∀ span ∈ done, span.stop ≤ position
  left : ∀ span ∈ left, position < span.stop

/-- Positions taken back by the images `done`. -/
def shrink (done : List (ImageSpan F)) : Nat := (done.map ImageSpan.positionShrink).sum

theorem shrink_snoc (done : List (ImageSpan F)) (span : ImageSpan F) :
    shrink (done ++ [span]) = shrink done + span.positionShrink := by
  simp [shrink]

section Parts

variable {images : PromptImages F} {done left : List (ImageSpan F)} {position : Nat}

theorem exists_parts (images : PromptImages F) (position : Nat) :
    ∃ done left, images.spans = done ++ left ∧ Parts position done left := by
  refine ⟨images.spans.takeWhile fun span => span.stop ≤ position,
    images.spans.dropWhile fun span => span.stop ≤ position,
    takeWhile_append_dropWhile.symm, fun span hs => ?_, fun span hs => ?_⟩
  · simpa using mem_takeWhile_imp hs
  · have hso : images.spans.Pairwise fun a b =>
        decide (b.stop ≤ position) = true → decide (a.stop ≤ position) = true := by
      refine images.ordered.apart.imp_of_mem fun {a b} _ hb hab hst => ?_
      have := (images.ordered.sized b hb).start_lt
      have := of_decide_eq_true hst
      exact decide_eq_true (by omega)
    simpa using not_of_mem_dropWhile hso hs

theorem Parts.spanAt (h : Parts position done left) (hsp : images.spans = done ++ left) :
    images.spanAt position = left.head?.filter fun span => span.start ≤ position := by
  have hp : partitionPoint (fun span : ImageSpan F => decide (span.stop ≤ position))
      (done ++ left) = done.length :=
    partitionPoint_split (fun span hs => by simpa using h.done span hs)
      fun span hs => by simpa using h.left span hs
  rw [PromptImages.spanAt, hsp, hp, getElem?_append_right le_rfl, Nat.sub_self, ← head?_eq_getElem?]

theorem Parts.shrinkBefore (h : Parts position done left) (hs : images.spans = done ++ left) :
    images.shrinkBefore position = shrink done := by
  rw [PromptImages.shrinkBefore, hs, takeWhile_append_of_pos
    fun span hsp => by simpa using h.done span hsp]
  have hst : left.takeWhile (fun span => decide (span.stop ≤ position)) = [] := by
    cases left with
    | nil => rfl
    | cons span =>
      have := h.left span mem_cons_self
      exact takeWhile_cons_of_neg (by simpa using this)
  rw [hst, append_nil, shrink]

end Parts

theorem shrink_le {done : List (ImageSpan F)} {stop position : Nat} (h : Ordered stop done)
    (hle : stop ≤ position) (hd : ∀ span ∈ done, span.stop ≤ position) :
    shrink done + stop ≤ position := by
  induction done generalizing stop with
  | nil => simpa [shrink] using hle
  | cons span done ih =>
    obtain ⟨haft, ha⟩ := pairwise_cons.mp h.apart
    have hr := ih ⟨fun next hn => h.sized next (mem_cons_of_mem _ hn), haft, ha⟩
      (hd span mem_cons_self) fun next hn => hd next (mem_cons_of_mem _ hn)
    have hstart := h.after span mem_cons_self
    have hsh : shrink (span :: done) = span.positionShrink + shrink done := by simp [shrink]
    have hsi : span.positionShrink ≤ span.tokens := Nat.sub_le _ _
    have hstop : span.stop = span.start + span.tokens := rfl
    omega

theorem PromptImages.shrinkBefore_le (images : PromptImages F) (position : Nat) :
    images.shrinkBefore position ≤ position := by
  obtain ⟨done, left, hs, hp⟩ := exists_parts images position
  have ho := images.ordered
  rw [hs] at ho
  have hd : Ordered 0 done :=
    ⟨fun span hsp => ho.sized span (mem_append_left _ hsp), fun _ _ => Nat.zero_le _,
      (pairwise_append.mp ho.apart).1⟩
  rw [hp.shrinkBefore hs]
  exact shrink_le hd (Nat.zero_le _) hp.done

end LocalAi.Vision
