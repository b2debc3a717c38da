import Mathlib.Algebra.Order.Ring.Nat
import Mathlib.Algebra.Order.BigOperators.Group.List
import Mathlib.Data.List.Perm.Subperm

/-!
# A budget that members share

Members reserve parts of one budget, and each of them beside the first has a price.

* `Shares.join`, `Shares.leave`: who comes and who goes.
* `cap`: a number that is cut at a limit, as sums that saturate are.
-/

open List

namespace LocalAi.Lib

/-- Members that reserve `reserved` fit in `budget`, where each beside the first costs `price`. -/
def Shares (budget price : Nat) (reserved : List Nat) : Prop :=
  reserved.sum + (reserved.length - 1) * price ≤ budget

variable {budget price : Nat} {reserved kept : List Nat}

theorem Shares.nil : Shares budget price [] := by
  unfold Shares
  rw [sum_nil, length_nil, Nat.zero_sub, Nat.zero_mul]
  exact Nat.zero_le _

theorem Shares.alone {part : Nat} (h : part ≤ budget) : Shares budget price [part] := by
  unfold Shares
  rw [sum_singleton, length_singleton, Nat.sub_self, Nat.zero_mul]
  exact h

/-- **Who fits beside the members** joins them. -/
theorem Shares.join {part : Nat} (h : reserved.sum + part + reserved.length * price ≤ budget) :
    Shares budget price (reserved ++ [part]) := by
  unfold Shares
  rw [sum_append, sum_singleton, length_append, length_singleton, Nat.add_sub_cancel]
  exact h

/-- **Whoever stays** still fits. -/
theorem Shares.leave (h : Shares budget price reserved) (hk : kept.Subperm reserved) :
    Shares budget price kept := by
  obtain ⟨order, hp, hs⟩ := hk
  have hsum : kept.sum ≤ reserved.sum := by
    rw [← hp.sum_eq]
    exact hs.sum_le_sum fun _ _ => Nat.zero_le _
  have hl : kept.length - 1 ≤ reserved.length - 1 := by
    rw [← hp.length_eq]
    exact Nat.sub_le_sub_right hs.length_le 1
  have hpr := Nat.mul_le_mul_right price hl
  unfold Shares at h ⊢
  omega

/-! ### Sums that saturate -/

def cap (limit n : Nat) : Nat := min n limit

theorem cap_cap_add (limit a b : Nat) : cap limit (cap limit a + b) = cap limit (a + b) := by
  unfold cap
  omega

theorem cap_add_cap (limit a b : Nat) : cap limit (a + cap limit b) = cap limit (a + b) := by
  unfold cap
  omega

theorem foldl_cap {limit : Nat} (xs : List Nat) (start : Nat) :
    xs.foldl (fun total x => cap limit (total + x)) (cap limit start) =
      cap limit (start + xs.sum) := by
  induction xs generalizing start with
  | nil => rfl
  | cons x xs ih =>
    rw [foldl_cons, cap_cap_add, ih, sum_cons, Nat.add_assoc]

theorem cap_le_iff {limit n bound : Nat} (h : bound < limit) : cap limit n ≤ bound ↔ n ≤ bound := by
  unfold cap
  omega

end LocalAi.Lib
