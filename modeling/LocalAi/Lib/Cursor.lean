import Mathlib.Data.List.Pairwise
import Mathlib.Order.Lattice

/-!
# Walks by cursor

A collection is read in pages, each behind a cursor that the page before it left, while elements
come and go.

* `Behind`: behind a cursor, if there is one.
* `IsPage`: what a page of the elements behind a cursor is.
* `isPage_take`: the front of a sorted list is one.
* `Walked`: what a walk has shown of the elements that were there all along.
-/

open List

namespace LocalAi.Lib

variable {α β : Type} [LinearOrder β] {key : α → β}

def Behind (key : α → β) (cursor : Option β) (x : α) : Prop := ∀ c ∈ cursor, c < key x

/-- At most `n` of the elements of `p`, the first by their keys; `more` says that there are others. -/
structure IsPage (key : α → β) (p : α → Prop) (n : Nat) (data : List α) (more : Bool) : Prop where
  sorted : data.Pairwise fun x y => key x < key y
  sound : ∀ x ∈ data, p x
  rest : ∀ y, p y → y ∉ data → more = true ∧ ∀ x ∈ data, key x < key y
  full : more = true → data.length = n
  size : data.length ≤ n

theorem isPage_take {xs : List α} (h : xs.Pairwise fun x y => key x < key y) (n : Nat) :
    IsPage key (· ∈ xs) n (xs.take n) (decide (n < xs.length)) := by
  have hs := take_append_drop n xs
  refine ⟨h.sublist (take_sublist n xs), fun x hx => mem_of_mem_take hx,
    fun y hy hn => ?_, fun hm => ?_, length_take_le n xs⟩
  · have hd : y ∈ xs.drop n := by
      rw [← hs] at hy
      exact (mem_append.mp hy).resolve_left hn
    have hlt : 0 < (xs.drop n).length := length_pos_of_mem hd
    rw [length_drop] at hlt
    refine ⟨decide_eq_true (by omega), fun x hx => ?_⟩
    rw [← hs] at h
    exact (pairwise_append.mp h).2.2 x hx y hd
  · have hlt := of_decide_eq_true hm
    rw [length_take]
    omega

variable {data : List α}

theorem IsPage.congr {p q : α → Prop} {n : Nat} {more : Bool}
    (h : IsPage key p n data more) (hpq : ∀ x, p x ↔ q x) : IsPage key q n data more :=
  ⟨h.sorted, fun x hx => (hpq x).mp (h.sound x hx), fun y hy => h.rest y ((hpq y).mpr hy), h.full,
    h.size⟩

theorem le_last (h : data.Pairwise fun x y => key x < key y) {last : α}
    (hl : data.getLast? = some last) : ∀ x ∈ data, key x ≤ key last := by
  obtain ⟨front, rfl⟩ := getLast?_eq_some_iff.mp hl
  intro x hx
  rcases mem_append.mp hx with hm | hm
  · exact le_of_lt ((pairwise_append.mp h).2.2 x hm last (mem_singleton_self _))
  · rw [mem_singleton.mp hm]

structure Walked (key : α → β) (throughout : α → Prop) (start cursor : Option β) (shown : List α)
    (done : Bool) : Prop where
  sorted : shown.Pairwise fun x y => key x < key y
  behind : ∀ x ∈ shown, Behind key start x
  later : ∀ x, Behind key cursor x → Behind key start x
  upto : ∀ x ∈ shown, ∃ c ∈ cursor, key x ≤ c
  complete : ∀ x, throughout x → Behind key start x → x ∈ shown ∨ done = false ∧ Behind key cursor x

variable {throughout : α → Prop} {start cursor : Option β} {shown : List α} {done : Bool}

theorem Walked.init : Walked key throughout start start [] false :=
  ⟨List.Pairwise.nil, nofun, fun _ h => h, nofun, fun _ _ h => Or.inr ⟨rfl, h⟩⟩

theorem Walked.change {throughout' : α → Prop}
    (h : Walked key throughout start cursor shown done) (hs : ∀ x, throughout' x → throughout x) :
    Walked key throughout' start cursor shown done :=
  { h with complete := fun x hx => h.complete x (hs x hx) }

theorem Walked.page {p : α → Prop} {n : Nat} {more : Bool} {next : Option β}
    (h : Walked key throughout start cursor shown false) (hp : IsPage key p n data more)
    (hb : ∀ x, p x → Behind key cursor x) (ha : ∀ x, throughout x → Behind key cursor x → p x)
    (hn : data ≠ [] → next = data.getLast?.map key) (hst : data = [] → next = cursor)
    (hpos : 0 < n) : Walked key throughout start next (shown ++ data) (!more) := by
  have hcur : ∀ x ∈ shown, ∀ y ∈ data, key x < key y := by
    intro x hx y hy
    obtain ⟨c, hc, hle⟩ := h.upto x hx
    exact lt_of_le_of_lt hle (hb y (hp.sound y hy) c hc)
  cases hl : data.getLast? with
  | none =>
    have he : data = [] := getLast?_eq_none_iff.mp hl
    rw [hst he, he, append_nil]
    refine { h with complete := fun x hx hs => ?_ }
    rcases h.complete x hx hs with hm | ⟨-, hx'⟩
    · exact Or.inl hm
    · have hr := hp.rest x (ha x hx hx') (by rw [he]; exact not_mem_nil)
      have hf := hp.full hr.1
      rw [he] at hf
      exact absurd hf (Nat.ne_of_lt hpos)
  | some last =>
    have hlastMem : last ∈ data := mem_of_getLast? hl
    have hne : data ≠ [] := ne_nil_of_mem hlastMem
    have hle := le_last hp.sorted hl
    rw [hn hne, hl, Option.map_some]
    refine ⟨pairwise_append.mpr ⟨h.sorted, hp.sorted, hcur⟩, fun x hx => ?_,
      fun x hx => ?_, fun x hx => ⟨key last, rfl, ?_⟩, fun x hx hs => ?_⟩
    · rcases mem_append.mp hx with hm | hm
      · exact h.behind x hm
      · exact h.later x (hb x (hp.sound x hm))
    · refine h.later x fun c hc => ?_
      exact lt_trans (hb last (hp.sound last hlastMem) c hc) (hx _ rfl)
    · rcases mem_append.mp hx with hm | hm
      · exact le_of_lt (hcur x hm last hlastMem)
      · exact hle x hm
    · rcases h.complete x hx hs with hm | ⟨-, hx'⟩
      · exact Or.inl (mem_append_left _ hm)
      · by_cases hm : x ∈ data
        · exact Or.inl (mem_append_right _ hm)
        · obtain ⟨hmo, hlt⟩ := hp.rest x (ha x hx hx') hm
          refine Or.inr ⟨by rw [hmo]; rfl, fun c hc => ?_⟩
          cases hc
          exact hlt last hlastMem

end LocalAi.Lib
