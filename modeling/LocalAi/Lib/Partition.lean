import Mathlib.Data.List.Dedup
import Mathlib.Data.List.Sort
import Mathlib.Algebra.BigOperators.Group.List.Basic

/-!
# Rows by key and by interval

* `groupKeys`, `group`: the distinct keys of some rows in order, and the rows of a key.
* `sum_groups`: the sums of the groups add up to the sum of the rows.
* `Tiles`: intervals one after the other, none of them empty.
* `Tiles.sum`: the sums over the intervals add up to the sum over all of them.
-/

open List

namespace LocalAi.Lib

/-! ### Groups -/

section Groups

variable {α κ : Type} [DecidableEq κ]

def groupKeys (le : κ → κ → Bool) (key : α → κ) (rows : List α) : List κ :=
  (rows.map key).dedup.mergeSort le

def group (key : α → κ) (k : κ) (rows : List α) : List α := rows.filter fun row => key row = k

theorem nodup_groupKeys (le : κ → κ → Bool) (key : α → κ) (rows : List α) :
    (groupKeys le key rows).Nodup :=
  (mergeSort_perm _ le).nodup_iff.mpr (nodup_dedup _)

variable {key : α → κ}

variable {rows : List α}

theorem mem_groupKeys {le : κ → κ → Bool} {k : κ} :
    k ∈ groupKeys le key rows ↔ ∃ row ∈ rows, key row = k := by
  unfold groupKeys
  rw [mem_mergeSort, mem_dedup, mem_map]

theorem sum_filter_add {M : Type} [AddCommMonoid M] (p : α → Bool) (f : α → M) (rows : List α) :
    ((rows.filter p).map f).sum + ((rows.filter fun row => !p row).map f).sum =
      (rows.map f).sum := by
  rw [← sum_append, ← map_append]
  exact ((filter_append_perm p rows).map f).sum_eq

theorem sum_groups {M : Type} [AddCommMonoid M] {keys : List κ}
    (hnd : keys.Nodup) (hm : ∀ row ∈ rows, key row ∈ keys) (f : α → M) :
    (keys.map fun k => ((group key k rows).map f).sum).sum = (rows.map f).sum := by
  induction keys generalizing rows with
  | nil =>
    have hro : rows = [] := eq_nil_iff_forall_not_mem.mpr fun row hr => by
      cases hm row hr
    rw [hro]
    rfl
  | cons k keys ih =>
    obtain ⟨hk, hnd⟩ := nodup_cons.mp hnd
    have hre := @ih (rows.filter fun row => !decide (key row = k)) hnd fun row hr => by
      obtain ⟨hr, hne⟩ := mem_filter.mp hr
      rcases mem_cons.mp (hm row hr) with heq | hin
      · rw [heq, decide_eq_true rfl] at hne
        cases hne
      · exact hin
    have hs : ∀ k' ∈ keys,
        group key k' (rows.filter fun row => !decide (key row = k)) = group key k' rows := by
      intro k' hk'
      unfold group
      rw [filter_filter]
      refine filter_congr fun row _ => ?_
      by_cases hr : key row = k'
      · have hne : key row ≠ k := fun heq => hk (by rw [← heq, hr]; exact hk')
        rw [decide_eq_true hr, decide_eq_false hne]
        rfl
      · rw [decide_eq_false hr]
        rfl
    rw [map_congr_left fun k' hk' => by rw [hs k' hk']] at hre
    rw [map_cons, sum_cons, hre]
    exact sum_filter_add (fun row => decide (key row = k)) f rows

theorem length_filter_key {k : κ} (hnd : (rows.map key).Nodup)
    (hk : k ∈ rows.map key) : (rows.filter fun row => key row = k).length = 1 := by
  have hc := count_eq_one_of_mem hnd hk
  rw [count, countP_map, countP_eq_length_filter] at hc
  rw [← hc]
  refine congrArg length (filter_congr fun row _ => ?_)
  exact (beq_eq_decide _ _).symm

end Groups

theorem exists_forall₂ {α β : Type} {r : α → β → Prop} {xs : List α} (h : ∀ x ∈ xs, ∃ y, r x y) :
    ∃ ys, List.Forall₂ r xs ys := by
  induction xs with
  | nil => exact ⟨[], .nil⟩
  | cons x xs ih =>
    obtain ⟨y, hy⟩ := h x mem_cons_self
    obtain ⟨ys, hys⟩ := ih fun x hx => h x (mem_cons_of_mem _ hx)
    exact ⟨y :: ys, .cons hy hys⟩

theorem exists_of_forall₂ {α β : Type} {r : α → β → Prop} {xs : List α} {ys : List β}
    (h : List.Forall₂ r xs ys) {x : α} (hx : x ∈ xs) : ∃ y ∈ ys, r x y := by
  induction h with
  | nil => cases hx
  | cons hxy _ ih =>
    rcases mem_cons.mp hx with rfl | hm
    · exact ⟨_, mem_cons_self, hxy⟩
    · obtain ⟨y, hy, hr⟩ := ih hm
      exact ⟨y, mem_cons_of_mem _ hy, hr⟩

/-! ### Intervals -/

section Tilings

variable {α : Type} [LinearOrder α]

def Tiles (a : α) : List (α × α) → (b : α) → Prop
  | [], b => a = b
  | (x, y) :: rest, b => x = a ∧ x < y ∧ Tiles y rest b

def within (span : α × α) (t : α) : Bool := span.1 ≤ t && t < span.2

theorem within_iff {span : α × α} {t : α} : within span t = true ↔ span.1 ≤ t ∧ t < span.2 := by
  unfold within
  rw [Bool.and_eq_true, decide_eq_true_eq, decide_eq_true_eq]

variable {spans : List (α × α)}

variable {a b : α}

theorem Tiles.le (h : Tiles a spans b) : a ≤ b := by
  induction spans generalizing a with
  | nil => exact le_of_eq h
  | cons span rest ih =>
    obtain ⟨rfl, hlt, hr⟩ := h
    exact hlt.le.trans (ih hr)

theorem Tiles.mem (h : Tiles a spans b) {span : α × α} (hs : span ∈ spans) :
    a ≤ span.1 ∧ span.1 < span.2 ∧ span.2 ≤ b := by
  induction spans generalizing a with
  | nil => cases hs
  | cons first rest ih =>
    obtain ⟨rfl, hlt, hr⟩ := h
    rcases mem_cons.mp hs with rfl | hm
    · exact ⟨le_refl _, hlt, hr.le⟩
    · obtain ⟨hle, hs⟩ := ih hr hm
      exact ⟨hlt.le.trans hle, hs⟩

theorem Tiles.ends {spans : List (α × α)} (h : Tiles a spans b) (hne : spans ≠ []) :
    (∃ y, spans.head? = some (a, y)) ∧ ∃ x, spans.getLast? = some (x, b) := by
  induction spans generalizing a with
  | nil => exact absurd rfl hne
  | cons first rest ih =>
    obtain ⟨rfl, -, hr⟩ := h
    refine ⟨⟨first.2, rfl⟩, ?_⟩
    rcases eq_nil_or_concat rest with rfl | ⟨front, last, rfl⟩
    · rw [← show first.2 = b from hr]
      exact ⟨first.1, rfl⟩
    · obtain ⟨-, x, hl⟩ := ih hr (by simp)
      rw [getLast?_cons, hl]
      exact ⟨x, rfl⟩

theorem Tiles.exists_mem {a b t : α} (h : Tiles a spans b) (hat : a ≤ t) (htb : t < b) :
    ∃ span ∈ spans, within span t = true := by
  induction spans generalizing a with
  | nil =>
    rw [show a = b from h] at hat
    exact absurd htb (not_lt.mpr hat)
  | cons first rest ih =>
    obtain ⟨rfl, hlt, hr⟩ := h
    by_cases ht : t < first.2
    · exact ⟨first, mem_cons_self, within_iff.mpr ⟨hat, ht⟩⟩
    · obtain ⟨span, hs, hw⟩ := ih hr (not_lt.mp ht)
      exact ⟨span, mem_cons_of_mem _ hs, hw⟩

theorem Tiles.length_within {a b t : α} (h : Tiles a spans b) (hat : a ≤ t) (htb : t < b) :
    (spans.filter fun span => within span t).length = 1 := by
  induction spans generalizing a with
  | nil =>
    rw [show a = b from h] at hat
    exact absurd htb (not_lt.mpr hat)
  | cons first rest ih =>
    obtain ⟨rfl, hlt, hr⟩ := h
    rw [filter_cons]
    by_cases ht : t < first.2
    · have hn : (rest.filter fun span => within span t) = [] := by
        refine filter_eq_nil_iff.mpr fun span hs hw => ?_
        exact absurd ((hr.mem hs).1.trans (within_iff.mp hw).1) (not_le.mpr ht)
      rw [if_pos (within_iff.mpr ⟨hat, ht⟩), hn]
      rfl
    · rw [if_neg (fun hw => ht (within_iff.mp hw).2)]
      exact ih hr (not_lt.mp ht)

theorem Tiles.pairwise (h : Tiles a spans b) : spans.Pairwise fun s t => s.2 ≤ t.1 := by
  induction spans generalizing a with
  | nil => exact .nil
  | cons first rest ih =>
    obtain ⟨rfl, -, hr⟩ := h
    exact pairwise_cons.mpr ⟨fun span hs => (hr.mem hs).1, ih hr⟩

theorem Tiles.sum {ρ M : Type} [AddCommMonoid M] (h : Tiles a spans b) (time : ρ → α)
    (f : ρ → M) (rows : List ρ) :
    (spans.map fun span => ((rows.filter fun row => within span (time row)).map f).sum).sum =
      ((rows.filter fun row => within (a, b) (time row)).map f).sum := by
  induction spans generalizing a with
  | nil =>
    have hn : (rows.filter fun row => within (a, b) (time row)) = [] := by
      refine filter_eq_nil_iff.mpr fun row _ hrow => ?_
      obtain ⟨hat, htb⟩ := within_iff.mp hrow
      rw [show a = b from h] at hat
      exact absurd htb (not_lt.mpr hat)
    rw [hn]
    rfl
  | cons first rest ih =>
    obtain ⟨rfl, hlt, hr⟩ := h
    have hle := hr.le
    rw [map_cons, sum_cons, ih hr, ← sum_filter_add (fun row => decide (time row < first.2)) f
        (rows.filter fun row => within (first.1, b) (time row)),
      filter_filter, filter_filter]
    have hbef : (rows.filter fun row => within first (time row)) = rows.filter fun row =>
        decide (time row < first.2) && within (first.1, b) (time row) := by
      refine filter_congr fun row _ => Bool.eq_iff_iff.mpr ?_
      rw [Bool.and_eq_true, within_iff, within_iff, decide_eq_true_eq]
      exact ⟨fun ⟨hx, hy⟩ => ⟨hy, hx, hy.trans_le hle⟩, fun ⟨hy, hx, _⟩ => ⟨hx, hy⟩⟩
    have haft : (rows.filter fun row => within (first.2, b) (time row)) = rows.filter fun row =>
        (!decide (time row < first.2)) && within (first.1, b) (time row) := by
      refine filter_congr fun row _ => Bool.eq_iff_iff.mpr ?_
      rw [Bool.and_eq_true, within_iff, within_iff, Bool.not_eq_true', decide_eq_false_iff_not,
        not_lt]
      exact ⟨fun ⟨hy, hb⟩ => ⟨hy, hlt.le.trans hy, hb⟩, fun ⟨hy, _, hb⟩ => ⟨hy, hb⟩⟩
    rw [hbef, haft]

end Tilings

end LocalAi.Lib
