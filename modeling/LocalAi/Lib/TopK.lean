import Mathlib.Data.List.Sort
import Mathlib.Data.Prod.Lex

/-!
# The first few of a list

The first `n` of a list by a key that tells its elements apart, and what may be forgotten on the
way to them: dropping everything but the first `n` of a part changes nothing.

* `Selection`: a partial selection, as a sort of the first part needs it.
* `best_of_split`: a sorted front that is not above the rest is the first `n`.
* `best_append`: forgetting all but the first `n` of a part.
* `foldl_best`: a loop that adds elements one by one and forgets some.
-/

open List

namespace LocalAi.Lib

variable {α β : Type} [LinearOrder β]

def byKey (key : α → β) (x y : α) : Bool := decide (key x ≤ key y)

def best (key : α → β) (n : Nat) (xs : List α) : List α := (xs.mergeSort (byKey key)).take n

def Ordered (key : α → β) (xs : List α) : Prop := xs.Pairwise fun x y => key x ≤ key y

/-- A partial selection around an index: it permutes the list so that nothing before the index has
a greater key than the element there, and nothing behind it a smaller one. -/
structure Selection (key : α → β) where
  select : (index : Nat) → List α → List α
  perm : ∀ index xs, (select index xs).Perm xs
  before : ∀ index xs, ∀ x ∈ (select index xs).take index, ∀ y ∈ (select index xs).drop index,
    key x ≤ key y
  behind : ∀ index xs x, (select index xs)[index]? = some x →
    ∀ y ∈ (select index xs).drop (index + 1), key x ≤ key y

variable {key : α → β} {n : Nat} {xs ys : List α}

theorem ordered_sort (xs : List α) : Ordered key (xs.mergeSort (byKey key)) := by
  have htr : ∀ x y z, byKey key x y = true → byKey key y z = true → byKey key x z = true := by
    intro x y z hxy hyz
    exact decide_eq_true ((of_decide_eq_true hxy).trans (of_decide_eq_true hyz))
  have ht : ∀ x y, (byKey key x y || byKey key y x) = true := by
    intro x y
    rw [Bool.or_eq_true]
    rcases le_total (key x) (key y) with hle | hle
    · exact Or.inl (decide_eq_true hle)
    · exact Or.inr (decide_eq_true hle)
  exact (pairwise_mergeSort htr ht xs).imp fun h => of_decide_eq_true h

theorem sort_perm (xs : List α) : (xs.mergeSort (byKey key)).Perm xs := mergeSort_perm _ _

theorem Ordered.eq (hk : Function.Injective key) (hxs : Ordered key xs) (hys : Ordered key ys)
    (h : xs.Perm ys) : xs = ys := by
  refine List.Perm.eq_of_pairwise (fun x y _ _ hxy hyx => ?_) hxs hys h
  exact hk (le_antisymm hxy hyx)

theorem Ordered.append (hxs : Ordered key xs) (hys : Ordered key ys)
    (h : ∀ x ∈ xs, ∀ y ∈ ys, key x ≤ key y) : Ordered key (xs ++ ys) :=
  pairwise_append.mpr ⟨hxs, hys, h⟩

theorem best_of_split {front : List α} (rest : List α) (hk : Function.Injective key)
    (hp : xs.Perm (front ++ rest)) (hf : Ordered key front)
    (hlen : front.length = min n xs.length) (hle : ∀ x ∈ front, ∀ y ∈ rest, key x ≤ key y) :
    best key n xs = front := by
  have hs : xs.mergeSort (byKey key) = front ++ rest.mergeSort (byKey key) := by
    refine (ordered_sort xs).eq hk ?_ ?_
    · refine hf.append (ordered_sort rest) fun x hx y hy => ?_
      exact hle x hx y ((sort_perm rest).mem_iff.mp hy)
    · exact (sort_perm xs).trans (hp.trans ((sort_perm rest).symm.append_left front))
  have ht := hp.length_eq
  rw [length_append] at ht
  unfold best
  rw [hs]
  by_cases hsh : xs.length < n
  · have hn : rest = [] := eq_nil_of_length_eq_zero (by omega)
    subst hn
    rw [mergeSort_nil, append_nil, take_of_length_le (by omega)]
  · have he : front.length = n := by omega
    rw [← he, take_left]

/-- What is left out is not below the first `n`. -/
theorem exists_rest (key : α → β) (n : Nat) (xs : List α) : ∃ rest,
    xs.Perm (best key n xs ++ rest) ∧ Ordered key (best key n xs) ∧
      (best key n xs).length = min n xs.length ∧
      ∀ x ∈ best key n xs, ∀ y ∈ rest, key x ≤ key y := by
  have hs : Ordered key (xs.mergeSort (byKey key)) := ordered_sort xs
  rw [← take_append_drop n (xs.mergeSort (byKey key))] at hs
  obtain ⟨hf, -, hle⟩ := pairwise_append.mp hs
  refine ⟨(xs.mergeSort (byKey key)).drop n, ?_, hf, ?_, hle⟩
  · unfold best
    rw [take_append_drop]
    exact (sort_perm xs).symm
  · unfold best
    rw [length_take, length_mergeSort]

theorem best_perm (hk : Function.Injective key) (h : xs.Perm ys) : best key n xs = best key n ys := by
  unfold best
  rw [(ordered_sort xs).eq hk (ordered_sort ys) ((sort_perm xs).trans (h.trans (sort_perm ys).symm))]

theorem best_append (hk : Function.Injective key) :
    best key n (best key n xs ++ ys) = best key n (xs ++ ys) := by
  obtain ⟨dropped, hxs, -, hl, hd⟩ := exists_rest key n xs
  obtain ⟨rest, hb, hs, hl', hr⟩ := exists_rest key n (best key n xs ++ ys)
  have ht := hxs.length_eq
  rw [length_append] at ht
  symm
  refine best_of_split (rest ++ dropped) hk ?_ hs ?_ ?_
  · have ha : (xs ++ ys).Perm (best key n xs ++ ys ++ dropped) := by
      refine (hxs.append_right ys).trans ?_
      rw [append_assoc, append_assoc]
      exact perm_append_comm.append_left _
    rw [← append_assoc]
    exact ha.trans (hb.append_right dropped)
  · rw [hl', length_append, length_append, hl]
    omega
  · intro x hx y hy
    rcases mem_append.mp hy with hy | hy
    · exact hr x hx y hy
    · -- `n` elements are not above `y`; if `x` were, they would all be among the first `n` with it
      by_contra hlt
      rw [not_le] at hlt
      have hf : (best key n xs).length = n := by
        have hp := length_pos_of_mem hy
        omega
      have hbe : (best key n xs).countP (fun z => decide (key z < key x)) = n := by
        refine (countP_eq_length.mpr fun z hz => ?_).trans hf
        exact decide_eq_true ((hd z hz y hy).trans_lt hlt)
      have hn : rest.countP (fun z => decide (key z < key x)) = 0 := by
        rw [countP_eq_zero]
        intro z hz
        simpa using hr x hx z hz
      have hc := hb.countP_eq (fun z => decide (key z < key x))
      rw [countP_append, countP_append, hbe, hn] at hc
      have hle : (best key n (best key n xs ++ ys)).countP (fun z => decide (key z < key x)) <
          (best key n (best key n xs ++ ys)).length := by
        refine lt_of_le_of_ne countP_le_length fun heq => ?_
        have hse := countP_eq_length.mp heq x hx
        simp at hse
      omega

theorem foldl_best {step : List α → α → List α} (hk : Function.Injective key)
    (hs : ∀ top x, best key n (step top x) = best key n (top ++ [x])) (top : List α) :
    best key n (xs.foldl step top) = best key n (top ++ xs) := by
  induction xs generalizing top with
  | nil => rw [foldl_nil, append_nil]
  | cons x xs ih =>
    rw [foldl_cons, ih, ← best_append hk, hs, best_append hk, append_assoc]
    rfl

def keepFirst (selection : Selection key) (n : Nat) (xs : List α) : List α :=
  let xs := if n < xs.length ∧ 0 < n then selection.select (n - 1) xs else xs
  (xs.take n).mergeSort (byKey key)

theorem keepFirst_eq (hk : Function.Injective key) (selection : Selection key) (hpos : 0 < n) :
    keepFirst selection n xs = best key n xs := by
  symm
  unfold keepFirst
  by_cases hl : n < xs.length ∧ 0 < n
  · rw [if_pos hl]
    have hp := selection.perm (n - 1) xs
    refine best_of_split ((selection.select (n - 1) xs).drop n) hk ?_ (ordered_sort _) ?_ ?_
    · refine hp.symm.trans ?_
      conv_lhs => rw [← take_append_drop n (selection.select (n - 1) xs)]
      exact (sort_perm _).symm.append_right _
    · rw [length_mergeSort, length_take, hp.length_eq]
    · intro x hx y hy
      have hm := (sort_perm _).mem_iff.mp hx
      have hs : (selection.select (n - 1) xs).take n =
          (selection.select (n - 1) xs).take (n - 1) ++
            ((selection.select (n - 1) xs)[n - 1]?).toList := by
        rw [← take_add_one]
        congr 1
        omega
      rw [hs] at hm
      have ho : n - 1 + 1 = n := by omega
      rcases mem_append.mp hm with hf | hn
      · refine selection.before (n - 1) xs x hf y ?_
        exact (drop_subset_drop_left _ (by omega)) hy
      · have hg := Option.mem_toList.mp hn
        refine selection.behind (n - 1) xs x hg y ?_
        rwa [ho]
  · rw [if_neg hl]
    refine best_of_split (xs.drop n) hk ?_ (ordered_sort _) ?_ ?_
    · conv_lhs => rw [← take_append_drop n xs]
      exact (sort_perm _).symm.append_right _
    · rw [length_mergeSort, length_take]
    · intro x _ y hy
      rw [drop_eq_nil_of_le (by omega)] at hy
      cases hy

def Selection.sort (key : α → β) : Selection key where
  select _ xs := xs.mergeSort (byKey key)
  perm _ xs := sort_perm xs
  before index xs := by
    have hsort : Ordered key (xs.mergeSort (byKey key)) := ordered_sort xs
    rw [← take_append_drop index (xs.mergeSort (byKey key))] at hsort
    exact (pairwise_append.mp hsort).2.2
  behind index xs x hx y hy := by
    have hsort : Ordered key (xs.mergeSort (byKey key)) := ordered_sort xs
    obtain ⟨hlt, hget⟩ := List.getElem?_eq_some_iff.mp hx
    rw [← take_append_drop index (xs.mergeSort (byKey key)), drop_eq_getElem_cons hlt,
      hget] at hsort
    exact (pairwise_cons.mp (pairwise_append.mp hsort).2.1).1 y hy

end LocalAi.Lib
