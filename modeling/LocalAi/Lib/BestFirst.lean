import Mathlib.Algebra.Order.BigOperators.Group.Finset
import Mathlib.Algebra.BigOperators.Group.Finset.Piecewise
import Mathlib.Data.Finset.Max

/-!
# Best-first search of a tree

Nodes are taken one by one, each the best of the children of those taken so far that are not taken
themselves.  Where no child is better than its parent, this takes the best nodes of the whole tree.

* `BestFirst`: the lists of nodes that are taken so.
* `BestFirst.parent_before`: a node is taken after its parent.
* `BestFirst.le_of_not_mem`: no node that is left is better than one that is taken.
* `BestFirst.sorted`: nodes are taken from the best on.
* `BestFirst.complete`: when none is left to take, all are taken.
* `BestFirst.optimal`: no other set of as many nodes has a greater total.
-/

open List

namespace LocalAi.Lib

open Relation (ReflTransGen)

section

variable {α β : Type} (child : α → α → Prop) (score : α → β) (root : α)

/-- A node that may be taken next: it is not taken, and its parent is. -/
def Fringe (taken : List α) (v : α) : Prop := v ∉ taken ∧ ∃ p ∈ taken, child p v

inductive BestFirst [LE β] : List α → Prop
  | root : BestFirst [root]
  | take {taken : List α} {v : α} (htaken : BestFirst taken) (hv : Fringe child taken v)
    (hbest : ∀ w, Fringe child taken w → score w ≤ score v) : BestFirst (taken ++ [v])

variable {child score root}

/-- On the way to a node that is not taken there is one that may be taken next. -/
theorem exists_fringe {taken : List α} (hr : root ∈ taken) {v : α}
    (hv : ReflTransGen child root v) (hl : v ∉ taken) :
    ∃ w, Fringe child taken w ∧ ReflTransGen child w v := by
  induction hv with
  | refl => exact absurd hr hl
  | @tail p v _ hc ih =>
    by_cases hp : p ∈ taken
    · exact ⟨v, ⟨hl, p, hp, hc⟩, .refl⟩
    · obtain ⟨w, hw, hpa⟩ := ih hp
      exact ⟨w, hw, hpa.tail hc⟩

variable [LinearOrder β] {taken : List α}

theorem BestFirst.root_mem (h : BestFirst child score root taken) : root ∈ taken := by
  induction h with
  | root => exact mem_singleton_self _
  | take _ _ _ ih => exact mem_append_left _ ih

theorem BestFirst.head (h : BestFirst child score root taken) : taken[0]? = some root := by
  induction h with
  | root => rfl
  | take _ _ _ ih => exact getElem?_append_left (List.getElem?_eq_some_iff.mp ih).1 ▸ ih

theorem BestFirst.parent_before (h : BestFirst child score root taken) {i : Nat} {v : α}
    (hpos : 0 < i) (hv : taken[i]? = some v) : ∃ j < i, ∃ p, taken[j]? = some p ∧ child p v := by
  induction h with
  | root =>
    rw [getElem?_eq_none (by rw [length_singleton]; exact hpos)] at hv
    cases hv
  | @take taken next _ hn _ ih =>
    obtain hlt | hge := Nat.lt_or_ge i taken.length
    · rw [getElem?_append_left hlt] at hv
      obtain ⟨j, hj, p, hp, hc⟩ := ih hv
      exact ⟨j, hj, p, by rw [getElem?_append_left (hj.trans hlt)]; exact hp, hc⟩
    · rw [getElem?_append_right hge] at hv
      obtain ⟨-, p, hp, hc⟩ := hn
      obtain ⟨j, hj, hget⟩ := getElem_of_mem hp
      obtain rfl := mem_singleton.mp (mem_of_getElem? hv)
      refine ⟨j, hj.trans_le hge, p, ?_, hc⟩
      rw [getElem?_append_left hj, getElem?_eq_getElem hj, hget]

theorem BestFirst.nodup (h : BestFirst child score root taken) : taken.Nodup := by
  induction h with
  | root => exact nodup_singleton _
  | take _ hv _ ih => exact nodup_append.mpr ⟨ih, nodup_singleton _, fun a ha b hb hab =>
      hv.1 (mem_singleton.mp hb ▸ hab ▸ ha)⟩

theorem BestFirst.reachable (h : BestFirst child score root taken) :
    ∀ v ∈ taken, ReflTransGen child root v := by
  induction h with
  | root =>
    intro v hv
    rw [mem_singleton.mp hv]
  | take _ hn _ ih =>
    intro v hv
    obtain hv | hv := mem_append.mp hv
    · exact ih v hv
    · obtain ⟨-, p, hp, hc⟩ := hn
      rw [mem_singleton.mp hv]
      exact (ih p hp).tail hc

theorem score_descends (hd : ∀ p v, child p v → score v ≤ score p) {w v : α}
    (h : ReflTransGen child w v) : score v ≤ score w := by
  induction h with
  | refl => exact le_rfl
  | tail _ hc ih => exact (hd _ _ hc).trans ih

theorem BestFirst.le_of_not_mem (hd : ∀ p v, child p v → score v ≤ score p)
    (h : BestFirst child score root taken) {v : α} (hv : ReflTransGen child root v)
    (hl : v ∉ taken) : ∀ u ∈ taken, score v ≤ score u := by
  induction h with
  | root =>
    intro u hu
    rw [mem_singleton.mp hu]
    exact score_descends hd hv
  | @take taken next ht hn hb ih =>
    intro u hu
    have hl' : v ∉ taken := fun hm => hl (mem_append_left _ hm)
    obtain hu | hu := mem_append.mp hu
    · exact ih hl' u hu
    · obtain ⟨w, hw, hp⟩ := exists_fringe ht.root_mem hv hl'
      rw [mem_singleton.mp hu]
      exact (score_descends hd hp).trans (hb w hw)

theorem BestFirst.sorted (hd : ∀ p v, child p v → score v ≤ score p)
    (h : BestFirst child score root taken) : taken.Pairwise fun u v => score v ≤ score u := by
  induction h with
  | root => exact pairwise_singleton _ _
  | @take taken next ht hn hb ih =>
    refine pairwise_append.mpr ⟨ih, pairwise_singleton _ _, fun u hu v hv => ?_⟩
    obtain ⟨hl, p, hp, hc⟩ := hn
    rw [mem_singleton.mp hv]
    exact ht.le_of_not_mem hd ((ht.reachable p hp).tail hc) hl u hu

theorem BestFirst.complete (h : BestFirst child score root taken)
    (hn : ∀ w, ¬Fringe child taken w) {v : α} (hv : ReflTransGen child root v) : v ∈ taken := by
  by_contra hl
  obtain ⟨w, hw, -⟩ := exists_fringe h.root_mem hv hl
  exact hn w hw

end

section

variable {α β : Type} [AddCommGroup β] [LinearOrder β] [IsOrderedAddMonoid β]
  {child : α → α → Prop} {score : α → β} {root : α} {taken : List α}

/-- Of two sets of as many elements, the one all of whose own elements are at least the other's own
has the greater total. -/
theorem sum_le_of_exchange [DecidableEq α] {S T : Finset α} (hc : S.card = T.card)
    (h : ∀ v ∈ S \ T, ∀ u ∈ T \ S, score v ≤ score u) : ∑ v ∈ S, score v ≤ ∑ u ∈ T, score u := by
  have ho : (S \ T).card = (T \ S).card := Finset.card_sdiff_comm hc
  have he : ∑ v ∈ S \ T, score v ≤ ∑ u ∈ T \ S, score u := by
    obtain hemp | hs := (T \ S).eq_empty_or_nonempty
    · rw [hemp, Finset.card_empty] at ho
      rw [hemp, Finset.card_eq_zero.mp ho]
    · obtain ⟨least, hl, hm⟩ := Finset.exists_min_image (T \ S) score hs
      calc ∑ v ∈ S \ T, score v
          ≤ (S \ T).card • score least :=
            Finset.sum_le_card_nsmul _ _ _ fun v hv => h v hv least hl
        _ = (T \ S).card • score least := by rw [ho]
        _ ≤ ∑ u ∈ T \ S, score u := Finset.card_nsmul_le_sum _ _ _ hm
  calc ∑ v ∈ S, score v
      = ∑ v ∈ S ∩ T, score v + ∑ v ∈ S \ T, score v := (Finset.sum_inter_add_sum_sdiff S T score).symm
    _ ≤ ∑ v ∈ T ∩ S, score v + ∑ u ∈ T \ S, score u := by
        rw [Finset.inter_comm]
        exact add_le_add_right he _
    _ = ∑ u ∈ T, score u := Finset.sum_inter_add_sum_sdiff T S score

theorem BestFirst.optimal (hd : ∀ p v, child p v → score v ≤ score p)
    (h : BestFirst child score root taken) {S : Finset α}
    (ht : ∀ v ∈ S, ReflTransGen child root v) (hc : S.card = taken.length) :
    ∑ v ∈ S, score v ≤ (taken.map score).sum := by
  classical
  rw [← sum_toFinset score h.nodup]
  refine sum_le_of_exchange (hc.trans (toFinset_card_of_nodup h.nodup).symm) ?_
  intro v hv u hu
  obtain ⟨hv, hl⟩ := Finset.mem_sdiff.mp hv
  have hu := (Finset.mem_sdiff.mp hu).1
  rw [mem_toFinset] at hl hu
  exact h.le_of_not_mem hd (ht v hv) hl u hu

end

end LocalAi.Lib
