import Mathlib.Order.Interval.Finset.Nat
import Mathlib.Algebra.Order.BigOperators.Group.List
import Mathlib.Algebra.GroupWithZero.Nat

/-!
# Ranges of places

* `card_cells_of_apart`: ranges that are apart have as many places as their sizes add up to.
* `covered_of_apart`: where that is all places, every place is covered.
-/

namespace LocalAi.Lib

def Covers (range : Nat × Nat) (k : Nat) : Prop := range.1 ≤ k ∧ k < range.2

def Apart (r s : Nat × Nat) : Prop := ∀ k, ¬ (Covers r k ∧ Covers s k)

def sizes (ranges : List (Nat × Nat)) : Nat := (ranges.map fun range => range.2 - range.1).sum

theorem sizes_cons (range : Nat × Nat) (ranges : List (Nat × Nat)) :
    sizes (range :: ranges) = range.2 - range.1 + sizes ranges := rfl

def cells : List (Nat × Nat) → Finset Nat
  | [] => ∅
  | range :: ranges => Finset.Ico range.1 range.2 ∪ cells ranges

variable {ranges : List (Nat × Nat)}

theorem mem_cells {k : Nat} : k ∈ cells ranges ↔ ∃ range ∈ ranges, Covers range k := by
  induction ranges with
  | nil => simp [cells]
  | cons range ranges ih =>
    rw [cells, Finset.mem_union, Finset.mem_Ico, ih]
    simp only [List.exists_mem_cons_iff]
    rfl

theorem card_cells_of_apart (h : ranges.Pairwise Apart) : (cells ranges).card = sizes ranges := by
  induction ranges with
  | nil => rfl
  | cons range ranges ih =>
    obtain ⟨hrng, hr⟩ := List.pairwise_cons.mp h
    have hd : Disjoint (Finset.Ico range.1 range.2) (cells ranges) := by
      refine Finset.disjoint_left.mpr fun k hk hce => ?_
      obtain ⟨other, ho, hc⟩ := mem_cells.mp hce
      exact hrng other ho k ⟨Finset.mem_Ico.mp hk, hc⟩
    rw [cells, Finset.card_union_of_disjoint hd, Nat.card_Ico, ih hr, sizes_cons]

theorem cells_subset {n : Nat} (h : ∀ range ∈ ranges, range.2 ≤ n) :
    cells ranges ⊆ Finset.range n := by
  intro k hk
  obtain ⟨range, hr, hc⟩ := mem_cells.mp hk
  exact Finset.mem_range.mpr (Nat.lt_of_lt_of_le hc.2 (h range hr))

theorem covered_of_apart {n : Nat} (h : ranges.Pairwise Apart) (hle : ∀ range ∈ ranges, range.2 ≤ n)
    (hs : sizes ranges = n) {k : Nat} (hk : k < n) : ∃ range ∈ ranges, Covers range k := by
  have heq : cells ranges = Finset.range n := by
    refine Finset.eq_of_subset_of_card_le (cells_subset hle) ?_
    rw [Finset.card_range, card_cells_of_apart h, hs]
  exact mem_cells.mp (heq ▸ Finset.mem_range.mpr hk)

end LocalAi.Lib
