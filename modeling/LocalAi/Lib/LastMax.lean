import Mathlib.Data.List.Induction
import Mathlib.Data.Prod.Lex

/-!
# The last maximum of a list

* `lastMax`: the last of the elements with the greatest key.
* `lastMax_eq_some`: nothing before it has a greater key, and everything after it a smaller one.
* `lastMax_filter`: the second of two keys decides among those with the greatest first one.
* `lastMax_zipIdx`: an index that breaks ties changes nothing.
-/

open List

namespace LocalAi.Lib

variable {α β γ : Type}

def lastMax [LE β] [DecidableLE β] (key : α → β) (xs : List α) : Option α :=
  xs.foldl (fun best x => some (best.elim x fun y => if key y ≤ key x then x else y)) none

section Order

variable [LinearOrder β] {key : α → β} {xs : List α} {x : α}

theorem lastMax_concat : lastMax key (xs ++ [x]) =
    some ((lastMax key xs).elim x fun y => if key y ≤ key x then x else y) := by
  unfold lastMax
  rw [foldl_append]
  rfl

theorem lastMax_eq_none : lastMax key xs = none ↔ xs = [] := by
  induction xs using reverseRecOn with
  | nil => exact ⟨fun _ => rfl, fun _ => rfl⟩
  | append_singleton => simp [lastMax_concat]

theorem lastMax_append {after : List α} (h : lastMax key xs = some x)
    (ha : ∀ y ∈ after, key y < key x) : lastMax key (xs ++ after) = some x := by
  induction after using reverseRecOn with
  | nil => rwa [append_nil]
  | append_singleton after y ih =>
    rw [forall_mem_append] at ha
    have hlt : key y < key x := ha.2 y (mem_singleton_self y)
    rw [← append_assoc, lastMax_concat, ih ha.1, Option.elim_some, if_neg (not_le.mpr hlt)]

theorem lastMax_mem (h : lastMax key xs = some x) : x ∈ xs := by
  induction xs using reverseRecOn generalizing x with
  | nil => cases h
  | append_singleton xs last ih =>
    rw [lastMax_concat] at h
    cases hm : lastMax key xs with
    | none =>
      rw [hm] at h
      cases h
      exact mem_append_right _ (mem_singleton_self last)
    | some y =>
      rw [hm, Option.elim_some] at h
      by_cases hle : key y ≤ key last
      · rw [if_pos hle] at h
        cases h
        exact mem_append_right _ (mem_singleton_self last)
      · rw [if_neg hle] at h
        cases h
        exact mem_append_left _ (ih hm)

theorem lastMax_of_split {before after : List α} (hb : ∀ y ∈ before, key y ≤ key x)
    (haft : ∀ y ∈ after, key y < key x) : lastMax key (before ++ x :: after) = some x := by
  have hl : lastMax key (before ++ [x]) = some x := by
    rw [lastMax_concat]
    cases hm : lastMax key before with
    | none => rfl
    | some y => rw [Option.elim_some, if_pos (hb y (lastMax_mem hm))]
  have happ : before ++ x :: after = (before ++ [x]) ++ after := by simp
  rw [happ]
  exact lastMax_append hl haft

theorem lastMax_eq_some : lastMax key xs = some x ↔ ∃ before after, xs = before ++ x :: after ∧
    (∀ y ∈ before, key y ≤ key x) ∧ ∀ y ∈ after, key y < key x := by
  constructor
  · intro h
    induction xs using reverseRecOn generalizing x with
    | nil => cases h
    | append_singleton xs last ih =>
      rw [lastMax_concat] at h
      cases hm : lastMax key xs with
      | none =>
        rw [hm, Option.elim_none] at h
        cases h
        exact ⟨[], [], by rw [lastMax_eq_none.mp hm], by simp, by simp⟩
      | some y =>
        rw [hm, Option.elim_some] at h
        obtain ⟨before, after, rfl, hb, ha⟩ := ih hm
        by_cases hle : key y ≤ key last
        · rw [if_pos hle] at h
          cases h
          refine ⟨before ++ y :: after, [], rfl, ?_, by simp⟩
          intro z hz
          rcases mem_append.mp hz with hz | hz
          · exact (hb z hz).trans hle
          · rcases mem_cons.mp hz with rfl | hz
            · exact hle
            · exact (ha z hz).le.trans hle
        · rw [if_neg hle] at h
          cases h
          refine ⟨before, after ++ [last], by rw [append_assoc]; rfl, hb, ?_⟩
          rw [forall_mem_append]
          exact ⟨ha, by simpa using hle⟩
  · rintro ⟨before, after, rfl, hb, ha⟩
    exact lastMax_of_split hb ha

theorem lastMax_le (h : lastMax key xs = some x) {y : α} (hy : y ∈ xs) : key y ≤ key x := by
  obtain ⟨before, after, rfl, hb, ha⟩ := lastMax_eq_some.mp h
  rcases mem_append.mp hy with hy | hy
  · exact hb y hy
  · rcases mem_cons.mp hy with rfl | hy
    · exact le_refl _
    · exact (ha y hy).le

theorem lastMax_map {f : γ → α} (zs : List γ) :
    lastMax key (zs.map f) = (lastMax (fun z => key (f z)) zs).map f := by
  induction zs using reverseRecOn with
  | nil => rfl
  | append_singleton zs z ih =>
    rw [map_append, map_singleton, lastMax_concat, lastMax_concat, ih]
    cases lastMax (fun z => key (f z)) zs with
    | none => rfl
    | some =>
      dsimp only [Option.map_some, Option.elim_some]
      split <;> rfl

theorem lastMax_congr {key' : α → β} (h : ∀ x ∈ xs, key x = key' x) :
    lastMax key xs = lastMax key' xs := by
  induction xs using reverseRecOn with
  | nil => rfl
  | append_singleton xs x ih =>
    rw [forall_mem_append] at h
    rw [lastMax_concat, lastMax_concat, ih h.1, h.2 x (mem_singleton_self x)]
    cases hm : lastMax key' xs with
    | none => rfl
    | some y => rw [Option.elim_some, Option.elim_some, h.1 y (lastMax_mem hm)]

theorem lastMax_zipIdx [LinearOrder γ] {indexed : α × Nat → γ}
    (h : ∀ x y i j, i < j → (indexed (x, i) ≤ indexed (y, j) ↔ key x ≤ key y)) :
    (lastMax indexed xs.zipIdx).map Prod.fst = lastMax key xs := by
  induction xs using reverseRecOn with
  | nil => rfl
  | append_singleton xs x ih =>
    rw [zipIdx_append, zipIdx_singleton, lastMax_concat, lastMax_concat, ← ih]
    cases hmax : lastMax indexed xs.zipIdx with
    | none => rfl
    | some y =>
      obtain ⟨y, j⟩ := y
      have hlt : j < xs.length := by
        have hmem := mem_zipIdx (lastMax_mem hmax)
        omega
      have hi := h y x j (0 + xs.length) (by omega)
      simp only [Option.elim_some, Option.map_some, hi]
      split <;> rfl

end Order

theorem lastMax_filter [LinearOrder β] [LinearOrder γ] {first : α → β} {second : α → γ}
    {xs : List α} {x : α} (h : lastMax (fun y => toLex (first y, second y)) xs = some x) :
    lastMax second (xs.filter fun y => decide (first y = first x)) = some x := by
  obtain ⟨before, after, rfl, hb, ha⟩ := lastMax_eq_some.mp h
  rw [filter_append, filter_cons_of_pos (by simp)]
  refine lastMax_of_split ?_ ?_
  · intro y hy
    obtain ⟨hm, heq⟩ := mem_filter.mp hy
    rcases Prod.Lex.toLex_le_toLex.mp (hb y hm) with hlt | ⟨-, hle⟩
    · exact absurd (of_decide_eq_true heq) hlt.ne
    · exact hle
  · intro y hy
    obtain ⟨hm, heq⟩ := mem_filter.mp hy
    rcases Prod.Lex.toLex_lt_toLex.mp (ha y hm) with hlt | ⟨-, hlt⟩
    · exact absurd (of_decide_eq_true heq) hlt.ne
    · exact hlt

theorem lastMax_first_le [LinearOrder β] [LinearOrder γ] {first : α → β} {second : α → γ}
    {xs : List α} {x y : α} (h : lastMax (fun y => toLex (first y, second y)) xs = some x)
    (hy : y ∈ xs) : first y ≤ first x := by
  rcases Prod.Lex.toLex_le_toLex.mp (lastMax_le h hy) with hlt | ⟨heq, -⟩
  · exact hlt.le
  · exact heq.le

end LocalAi.Lib
