import Mathlib.Data.List.TakeWhile
import LocalAi.Lib.Except

/-!
# Bisecting with a test that can fail

* `bisect`: the half-open interval `[low, high)` is halved until it is empty.
* `bisect_eq`: for a test that is false up to a point and true from it on, the result is
  that point.
* `partitionPoint`: where a partitioned list stops satisfying a predicate.
* `not_of_mem_dropWhile`: a list is split by a predicate whose elements come first.
* `takeWhile_of_sorted`, `filter_of_sorted`: a list in the order of a key is cut at a bound.
-/

open List

namespace LocalAi.Lib

variable {ε α : Type}

/-- The first place in `[low, high)` that `fits`, else `high`, when `fits` is monotone. -/
def bisect (fits : Nat → Except ε Bool) (low high : Nat) : Except ε Nat :=
  if low < high then do
    let fit ← fits (low + (high - low) / 2)
    if fit then bisect fits low (low + (high - low) / 2)
    else bisect fits (low + (high - low) / 2 + 1) high
  else pure low
termination_by high - low

theorem bisect_eq {fits : Nat → Except ε Bool} {low high n : Nat} (hlow : low ≤ n)
    (hh : n ≤ high) (hfi : ∀ i, low ≤ i → i < high → fits i = .ok (decide (n ≤ i))) :
    bisect fits low high = .ok n := by
  fun_induction bisect fits low high with
  | case1 low high hlt ihleft ihright =>
    rw [hfi _ (by omega) (by omega)]
    show (if decide (n ≤ low + (high - low) / 2) = true then _ else _) = _
    split
    · next hf =>
      have hf := of_decide_eq_true hf
      exact ihleft hlow hf fun i h1 h2 => hfi i h1 (by omega)
    · next hf =>
      have hf : ¬ n ≤ low + (high - low) / 2 := by simpa using hf
      exact ihright (by omega) hh fun i h1 h2 => hfi i (by omega) h2
  | case2 low high hlt =>
    have : low = n := by omega
    rw [this]
    rfl

/-! ### Partitioned lists -/

/-- The halving of `[low, high)`, which loses an element in every round. -/
def partitionLoop (p : α → Bool) (xs : List α) : (fuel low high : Nat) → Nat
  | 0, low, _ => low
  | fuel + 1, low, high =>
    if low < high then
      if xs[low + (high - low) / 2]?.any p then
        partitionLoop p xs fuel (low + (high - low) / 2 + 1) high
      else partitionLoop p xs fuel low (low + (high - low) / 2)
    else low

/-- `slice::partition_point`: the number of elements that satisfy `p`, when these come
first. -/
def partitionPoint (p : α → Bool) (xs : List α) : Nat := partitionLoop p xs xs.length 0 xs.length

variable {p : α → Bool}

theorem partitionLoop_eq {xs : List α} {n : Nat}
    (hp : ∀ i (hi : i < xs.length), p xs[i] = decide (i < n)) :
    ∀ {fuel low high : Nat}, high - low ≤ fuel → low ≤ n → n ≤ high → high ≤ xs.length →
      partitionLoop p xs fuel low high = n := by
  intro fuel
  induction fuel with
  | zero =>
    intro low high hf hl hh _
    rw [partitionLoop]
    omega
  | succ fuel ih =>
    intro low high hf hl hh hlen
    rw [partitionLoop]
    split
    · next hlt =>
      have hm : low + (high - low) / 2 < xs.length := by omega
      rw [getElem?_eq_getElem hm, Option.any_some, hp _ hm]
      split
      · next hin =>
        have hin := of_decide_eq_true hin
        exact ih (by omega) (by omega) hh hlen
      · next hin =>
        have hin : ¬ low + (high - low) / 2 < n := by simpa using hin
        exact ih (by omega) hl (by omega) (by omega)
    · omega

theorem partitionPoint_split {front back : List α} (hf : ∀ x ∈ front, p x = true)
    (hb : ∀ x ∈ back, p x = false) : partitionPoint p (front ++ back) = front.length := by
  refine partitionLoop_eq ?_ (by omega) (Nat.zero_le _) (by simp) le_rfl
  intro i hi
  by_cases hlt : i < front.length
  · rw [getElem_append_left hlt, hf _ (getElem_mem hlt), decide_eq_true hlt]
  · rw [getElem_append_right (by omega), hb _ (getElem_mem _), decide_eq_false hlt]

/-- When the elements that satisfy `p` come first, none is left behind them. -/
theorem not_of_mem_dropWhile {xs : List α}
    (h : xs.Pairwise fun a b => p b = true → p a = true) {x : α} (hx : x ∈ xs.dropWhile p) :
    p x = false := by
  cases hd : xs.dropWhile p with
  | nil => simp [hd] at hx
  | cons y =>
    have hy : p y = false := by
      have := head?_dropWhile_not p xs
      rw [hd] at this
      simpa using this
    have hs := h.sublist (dropWhile_sublist p)
    rw [hd] at hx hs
    rcases mem_cons.mp hx with rfl | hx
    · exact hy
    · cases hpx : p x with
      | false => rfl
      | true =>
        rw [rel_of_pairwise_cons hs hx hpx] at hy
        cases hy

/-! ### Lists in the order of a key -/

section Sorted

variable {f : α → Nat} {l : List α}

theorem takeWhile_of_sorted (h : l.Pairwise fun a b => f a ≤ f b) (n : Nat) :
    l.takeWhile (fun a => decide (f a < n)) = l.filter (fun a => decide (f a < n)) ∧
      l.dropWhile (fun a => decide (f a < n)) = l.filter fun a => decide (n ≤ f a) := by
  induction l with
  | nil => exact ⟨rfl, rfl⟩
  | cons a l ih =>
    obtain ⟨hle, hr⟩ := pairwise_cons.mp h
    by_cases ha : f a < n
    · have hnot : ¬ n ≤ f a := by omega
      simp [ha, hnot, ih hr]
    · have hall : ∀ b ∈ l, n ≤ f b := fun b hb => by
        have := hle b hb
        omega
      have hn : l.filter (fun b => decide (f b < n)) = [] := by
        rw [filter_eq_nil_iff]
        intro b hb
        have := hall b hb
        simpa using this
      have hs : l.filter (fun b => decide (n ≤ f b)) = l :=
        filter_eq_self.mpr fun b hb => by simpa using hall b hb
      have hle' : n ≤ f a := by omega
      simp [ha, hle', hn, hs]

/-- What satisfies `p`, in two parts. -/
theorem filter_of_sorted (h : l.Pairwise fun a b => f a ≤ f b) (n : Nat) (p : α → Bool) :
    l.filter p = l.filter (fun a => p a && decide (f a < n)) ++
      l.filter fun a => p a && decide (n ≤ f a) := by
  obtain ⟨ht, hd⟩ := takeWhile_of_sorted h n
  conv_lhs => rw [← takeWhile_append_dropWhile (p := fun a => decide (f a < n)) (l := l)]
  rw [ht, hd, filter_append, filter_filter, filter_filter]

end Sorted

end LocalAi.Lib
