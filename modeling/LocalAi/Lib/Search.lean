import Mathlib.Data.List.DropRight
import Mathlib.Data.List.Infix

/-!
# Searching a list that arrives in pieces

General facts about the first occurrence of a pattern and about the end of a
list that may still become one.

* `splitOnce`: the text before and after the first occurrence of a pattern.
* `overlap`: how much of the end of a list is a proper beginning of the pattern.
* `splitOnce_of_overlap`: what precedes the overlap can be forgotten when the
  list goes on: no occurrence starts there.
* `Passes`: a text in which no occurrence starts, whatever comes behind it.
* `rdropWhile_append_of_getLast`: trimming stops at a kept element.
-/

open List

namespace LocalAi.Lib

variable {α : Type} [DecidableEq α]

def splitOnce (pat : List α) : List α → Option (List α × List α)
  | [] => if pat.isEmpty then some ([], []) else none
  | x :: xs =>
    if pat.isPrefixOf (x :: xs) then
      some ([], (x :: xs).drop pat.length)
    else
      (splitOnce pat xs).map fun parts => (x :: parts.1, parts.2)

/-- Where `pat` first occurs. -/
def find (pat xs : List α) : Option Nat := (splitOnce pat xs).map fun parts => parts.1.length

def overlap (pat xs : List α) : Nat :=
  ((List.range pat.length).reverse.find? fun k => (pat.take k).isSuffixOf xs).getD 0

/-! ### First occurrences -/

variable {pat xs front before after : List α}

theorem splitOnce_eq_some (h : splitOnce pat xs = some (before, after)) :
    xs = before ++ pat ++ after := by
  induction xs generalizing before with
  | nil =>
    simp only [splitOnce] at h
    split at h
    · next hp =>
      cases h
      simpa using (isEmpty_iff.mp hp)
    · cases h
  | cons x xs ih =>
    simp only [splitOnce] at h
    split at h
    · next hp =>
      cases h
      exact (prefix_iff_eq_append.mp ( isPrefixOf_iff_prefix.mp hp)).symm
    · obtain ⟨⟨b, a⟩, hs, heq⟩ := Option.map_eq_some_iff.mp h
      cases heq
      simp [ih hs]

theorem splitOnce_first (h : splitOnce pat xs = some (before, after)) :
    ∀ i, i < before.length → ¬ pat <+: xs.drop i := by
  induction xs generalizing before with
  | nil =>
    simp only [splitOnce] at h
    split at h
    · cases h
      intro i hi
      cases hi
    · cases h
  | cons x xs ih =>
    simp only [splitOnce] at h
    split at h
    · cases h
      intro i hi
      cases hi
    · next hp =>
      obtain ⟨⟨b, a⟩, hs, heq⟩ := Option.map_eq_some_iff.mp h
      cases heq
      intro i hi
      cases i with
      | zero =>
        rw [drop_zero, ← isPrefixOf_iff_prefix]
        exact hp
      | succ i => exact ih hs i (by simpa using hi)

theorem splitOnce_append_of_forall (front rest : List α)
    (h : ∀ i, i < front.length → ¬ pat <+: (front ++ rest).drop i) : splitOnce pat (front ++ rest)
      = (splitOnce pat rest).map fun parts => (front ++ parts.1, parts.2) := by
  induction front with
  | nil => simp
  | cons x front ih =>
    have hx : ¬ pat.isPrefixOf (x :: (front ++ rest)) = true := by
      rw [ isPrefixOf_iff_prefix]
      exact h 0 (by simp)
    have hr := ih fun i hi => h (i + 1) (by simpa using hi)
    rw [cons_append, splitOnce, if_neg hx, hr, Option.map_map]
    rfl

theorem splitOnce_of_isPrefix (h : pat <+: xs) :
    splitOnce pat xs = some ([], xs.drop pat.length) := by
  cases xs with
  | nil => simp [splitOnce, prefix_nil.mp h]
  | cons => rw [splitOnce, if_pos ( isPrefixOf_iff_prefix.mpr h)]

/-- The decomposition at an occurrence with none before it is the one found. -/
theorem splitOnce_eq (h : ∀ i, i < before.length → ¬ pat <+: (before ++ (pat ++ after)).drop i) :
    splitOnce pat (before ++ (pat ++ after)) = some (before, after) := by
  rw [splitOnce_append_of_forall before _ h, splitOnce_of_isPrefix (prefix_append _ _)]
  simp

theorem splitOnce_eq_none_iff : splitOnce pat xs = none ↔ ¬ pat <:+: xs := by
  constructor
  · intro h hin
    induction xs with
    | nil =>
      rw [infix_nil.mp hin] at h
      simp [splitOnce] at h
    | cons x xs ih =>
      simp only [splitOnce] at h
      split at h
      · cases h
      · next hp =>
        rcases infix_cons_iff.mp hin with hpre | hin'
        · exact hp ( isPrefixOf_iff_prefix.mpr hpre)
        · exact ih (Option.map_eq_none_iff.mp h) hin'
  · intro h
    rcases hs : splitOnce pat xs with _ | ⟨before, after⟩
    · rfl
    · exact absurd ⟨before, after, (splitOnce_eq_some hs).symm⟩ h

theorem splitOnce_append (h : splitOnce pat xs = some (before, after)) (more : List α) :
    splitOnce pat (xs ++ more) = some (before, after ++ more) := by
  have hxs := splitOnce_eq_some h
  have hf := splitOnce_first h
  rw [show xs ++ more = before ++ (pat ++ (after ++ more)) by simp [hxs]]
  apply splitOnce_eq
  intro i hi hp
  -- an occurrence that starts earlier would end inside `xs`
  apply hf i hi
  have hle : i ≤ before.length := Nat.le_of_lt hi
  have hs : before.drop i ++ (pat ++ (after ++ more)) = (xs.drop i) ++ more := by
    rw [hxs, append_assoc, drop_append_of_le_length hle]
    simp
  rw [drop_append_of_le_length hle, hs] at hp
  refine prefix_of_prefix_length_le hp (prefix_append _ _) ?_
  rw [hxs]
  simp only [length_drop, length_append]
  omega

variable {c : α} {held : List α}

omit [DecidableEq α] in
/-- An element outside `pat` that follows a list without `pat` is never part of
an occurrence. -/
theorem not_prefix_of_guard (hc : c ∉ pat) (hf : ¬ pat <:+: front) (rest : List α) :
    ∀ i, i ≤ front.length → pat ≠ [] → ¬ pat <+: (front ++ c :: rest).drop i := by
  intro i hi hne hp
  rw [drop_append_of_le_length hi] at hp
  rcases Nat.lt_or_ge (front.drop i).length pat.length with hlo | hs
  · -- it would hold the guard
    apply hc
    have hg : pat[(front.drop i).length]? = some c := by
      obtain ⟨back, hb⟩ := hp
      have hl := congrArg (fun l : List α => l[(front.drop i).length]?) hb
      rw [getElem?_append_left hlo, getElem?_append_right le_rfl] at hl
      simpa using hl
    exact mem_of_getElem? hg
  · apply hf
    have hpat : pat <+: front.drop i :=
      prefix_of_prefix_length_le hp (prefix_append _ _) hs
    exact hpat.isInfix.trans (drop_suffix _ _).isInfix

theorem splitOnce_guard (hne : pat ≠ []) (hc : c ∉ pat) (hf : ¬ pat <:+: front) (rest : List α) :
    splitOnce pat (front ++ c :: rest)
      = (splitOnce pat rest).map fun parts => (front ++ c :: parts.1, parts.2) := by
  have h : splitOnce pat (front ++ [c] ++ rest)
      = (splitOnce pat rest).map fun parts => (front ++ [c] ++ parts.1, parts.2) := by
    apply splitOnce_append_of_forall
    intro i hi
    rw [append_assoc]
    rw [length_append, length_singleton] at hi
    exact not_prefix_of_guard hc hf rest i (by omega) hne
  simpa using h

/-- The first `c :: pat` after a list without `pat`. -/
theorem splitOnce_guarded (hne : pat ≠ []) (hc : c ∉ pat) (hf : ¬ pat <:+: front)
    (rest : List α) : splitOnce (c :: pat) (front ++ (c :: pat ++ rest)) = some (front, rest) := by
  apply splitOnce_eq
  intro i hi hp
  refine not_prefix_of_guard hc hf (pat ++ rest) (i + 1) (by omega) hne ?_
  obtain ⟨back, hb⟩ := hp
  have ht := congrArg (drop 1) hb
  rw [drop_drop] at ht
  exact ⟨back, by simpa using ht⟩

/-- The first `c :: pat` after a list without `c`. -/
theorem splitOnce_of_notMem (hf : c ∉ front) (rest : List α) :
    splitOnce (c :: pat) (front ++ (c :: pat ++ rest)) = some (front, rest) := by
  apply splitOnce_eq
  intro i hi hp
  apply hf
  obtain ⟨back, hb⟩ := hp
  have hh := congrArg head? hb
  rw [drop_append_of_le_length (Nat.le_of_lt hi)] at hh
  have hne : front.drop i ≠ [] := by
    intro hnil
    have := congrArg length hnil
    rw [length_drop, length_nil] at this
    omega
  rw [head?_append_of_ne_nil _ hne, cons_append, head?_cons] at hh
  exact mem_of_mem_drop (mem_of_head? hh.symm)

theorem splitOnce_cons {rest : List α} (h : ¬ pat <+: c :: rest) :
    splitOnce pat (c :: rest) = (splitOnce pat rest).map fun parts => (c :: parts.1, parts.2) := by
  refine splitOnce_append_of_forall [c] rest fun i hi => ?_
  have hz : i = 0 := by
    rw [length_singleton] at hi
    omega
  rw [hz]
  exact h

theorem splitOnce_skip (hf : c ∉ front) (rest : List α) : splitOnce (c :: pat) (front ++ rest)
      = (splitOnce (c :: pat) rest).map fun parts => (front ++ parts.1, parts.2) := by
  refine splitOnce_append_of_forall front rest fun i hi hp => hf ?_
  rw [drop_append_of_le_length (Nat.le_of_lt hi), drop_eq_getElem_cons hi] at hp
  obtain ⟨back, hb⟩ := hp
  have hh : c = front[i] := (cons.inj hb).1
  rw [hh]
  exact getElem_mem hi

/-- A list without the pattern is skipped, when no occurrence that starts in it can
go on behind it. -/
theorem splitOnce_boundary {rest : List α} (hf : ¬ pat <:+: front)
    (hr : ∀ k, 0 < k → k < pat.length → ¬ pat.drop k <+: rest) : splitOnce pat (front ++ rest)
      = (splitOnce pat rest).map fun parts => (front ++ parts.1, parts.2) := by
  refine splitOnce_append_of_forall front rest fun i hi hp => ?_
  rw [drop_append_of_le_length (Nat.le_of_lt hi)] at hp
  have hpos : 0 < (front.drop i).length := by
    rw [length_drop]
    omega
  rcases Nat.lt_or_ge (front.drop i).length pat.length with hl | hs
  · refine hr (front.drop i).length hpos hl ?_
    obtain ⟨back, hb⟩ := hp
    have hd := congrArg (drop (front.drop i).length) hb
    rw [drop_append_of_le_length (Nat.le_of_lt hl), drop_left] at hd
    exact ⟨back, hd⟩
  · have hpat : pat <+: front.drop i :=
      prefix_of_prefix_length_le hp (prefix_append _ _) hs
    exact hf (hpat.isInfix.trans (drop_suffix _ _).isInfix)

/-- The first occurrence after a list without the pattern, whose first element stands
nowhere else in it. -/
theorem splitOnce_of_head (hc : c ∉ pat) (hf : ¬ c :: pat <:+: front) (rest : List α) :
    splitOnce (c :: pat) (front ++ (c :: pat ++ rest)) = some (front, rest) := by
  rw [splitOnce_boundary hf, splitOnce_of_isPrefix (prefix_append _ _), drop_left]
  · simp
  · intro k hpos hlt hp
    obtain ⟨n, rfl⟩ : ∃ n, k = n + 1 := ⟨k - 1, by omega⟩
    rw [length_cons] at hlt
    rw [drop_succ_cons, drop_eq_getElem_cons (by omega)] at hp
    obtain ⟨back, hb⟩ := hp
    apply hc
    rw [← (cons.inj hb).1]
    exact getElem_mem _

theorem splitOnce_singleton_eq_none : splitOnce [c] xs = none ↔ c ∉ xs := by
  rw [splitOnce_eq_none_iff, singleton_infix_iff]

theorem splitOnce_singleton_eq_some :
    splitOnce [c] xs = some (before, after) ↔ xs = before ++ c :: after ∧ c ∉ before := by
  induction xs generalizing before with
  | nil => simp [splitOnce]
  | cons x xs ih =>
    rw [splitOnce]
    by_cases hx : c = x
    · rw [if_pos (by simp [hx])]
      cases before with
      | nil => simp [hx]
      | cons =>
        subst hx
        simp only [Option.some.injEq, Prod.mk.injEq, cons_append, cons.injEq, mem_cons, not_or]
        constructor
        · rintro ⟨h, -⟩
          cases h
        · rintro ⟨⟨h, -⟩, hne, -⟩
          exact absurd h hne
    · rw [if_neg (by simpa using hx)]
      cases before with
      | nil =>
        simp only [Option.map_eq_some_iff, Prod.mk.injEq, nil_append, cons.injEq]
        constructor
        · rintro ⟨_, -, h, -⟩
          cases h
        · rintro ⟨⟨h, -⟩, -⟩
          exact absurd h.symm hx
      | cons b before =>
        rw [Option.map_eq_some_iff]
        constructor
        · rintro ⟨⟨front, back⟩, hs, heq⟩
          cases heq
          obtain ⟨hxs, hf⟩ := ih.mp hs
          refine ⟨by rw [hxs, cons_append], ?_⟩
          simpa [mem_cons, not_or] using ⟨hx, hf⟩
        · rintro ⟨heq, hf⟩
          obtain ⟨rfl, hxs⟩ := cons.inj heq
          refine ⟨(before, after), ih.mpr ⟨hxs, ?_⟩, rfl⟩
          exact fun hm => hf (mem_cons_of_mem _ hm)

/-! ### Passing over a text -/

def Passes (pat front : List α) : Prop :=
  ∀ rest, splitOnce pat (front ++ rest) =
    (splitOnce pat rest).map fun parts => (front ++ parts.1, parts.2)

namespace Passes

variable {pat front back : List α}

theorem nil : Passes pat [] := by
  intro rest
  simp

theorem append (hf : Passes pat front) (hb : Passes pat back) : Passes pat (front ++ back) := by
  intro rest
  rw [append_assoc, hf, hb, Option.map_map]
  congr 1
  funext parts
  simp only [Function.comp_apply, append_assoc]

theorem flatMap {β : Type} {f : β → List α} {items : List β}
    (h : ∀ item ∈ items, Passes pat (f item)) : Passes pat (items.flatMap f) := by
  induction items with
  | nil => exact nil
  | cons item items ih =>
    rw [forall_mem_cons] at h
    rw [flatMap_cons]
    exact h.1.append (ih h.2)

theorem of_clash (h : ∀ i < front.length,
    ¬ front.drop i <+: pat ∧ ¬ pat <+: front.drop i) : Passes pat front := by
  refine fun rest => splitOnce_append_of_forall front rest fun i hi hp => ?_
  rw [drop_append_of_le_length (Nat.le_of_lt hi)] at hp
  have hd : front.drop i <+: front.drop i ++ rest := prefix_append _ _
  rcases prefix_or_prefix_of_prefix hp hd with hl | hs
  · exact (h i hi).2 hl
  · exact (h i hi).1 hs

theorem of_notMem (h : c ∉ front) : Passes (c :: pat) front := splitOnce_skip h

theorem of_guard (hne : pat ≠ []) (hc : c ∉ pat) (h : ¬ pat <:+: front) :
    Passes pat (front ++ [c]) := by
  intro rest
  rw [append_assoc, singleton_append, splitOnce_guard hne hc h]
  simp only [append_assoc, singleton_append]

theorem splitOnce (h : Passes pat front) (rest : List α) :
    splitOnce pat (front ++ (pat ++ rest)) = some (front, rest) := by
  rw [h, splitOnce_of_isPrefix (prefix_append _ _), drop_left]
  simp

end Passes

theorem find_append {i : Nat} (h : find pat xs = some i) (more : List α) :
    find pat (xs ++ more) = some i := by
  unfold find at h ⊢
  obtain ⟨⟨b, a⟩, hs, heq⟩ := Option.map_eq_some_iff.mp h
  rw [splitOnce_append hs more]
  simpa using heq

theorem find_eq_none_iff : find pat xs = none ↔ ¬ pat <:+: xs := by
  rw [find, Option.map_eq_none_iff, splitOnce_eq_none_iff]

/-! ### Overlaps -/

theorem overlap_suffix (pat xs : List α) : pat.take (overlap pat xs) <:+ xs := by
  unfold overlap
  cases h : (range pat.length).reverse.find? fun k => (pat.take k).isSuffixOf xs with
  | none => simp
  | some =>
    have hk := find?_some h
    exact isSuffixOf_iff_suffix.mp hk

theorem le_overlap {k : Nat} (hk : k < pat.length) (h : pat.take k <:+ xs) :
    k ≤ overlap pat xs := by
  unfold overlap
  cases hf : (range pat.length).reverse.find? fun k => (pat.take k).isSuffixOf xs with
  | none =>
    rw [find?_eq_none] at hf
    exact absurd (isSuffixOf_iff_suffix.mpr h) (hf k (by simpa using hk))
  | some m =>
    -- the search runs downwards, so nothing larger than `m` qualifies
    obtain ⟨_, front, back, hs, hn⟩ := find?_eq_some_iff_append.mp hf
    rw [Option.getD_some]
    by_contra hlt
    have hm : k ∈ front ++ m :: back := by
      rw [← hs]
      simpa using hk
    have hso : (front ++ m :: back).Pairwise (· > ·) := by
      rw [← hs, pairwise_reverse]
      exact pairwise_lt_range
    rcases mem_append.mp hm with hfr | hb
    · have := hn k hfr
      rw [Bool.not_eq_true'] at this
      rw [isSuffixOf_iff_suffix.mpr h] at this
      cases this
    · rcases mem_cons.mp hb with rfl | hb
      · exact hlt le_rfl
      · have hgt := (pairwise_append.mp hso).2.1
        have := rel_of_pairwise_cons hgt hb
        omega

theorem overlap_lt (hne : pat ≠ []) (xs : List α) : overlap pat xs < pat.length := by
  unfold overlap
  cases h : (range pat.length).reverse.find? fun k => (pat.take k).isSuffixOf xs with
  | none => exact length_pos_iff.mpr hne
  | some =>
    have := mem_of_find?_eq_some h
    simpa using this

theorem overlap_le_length (pat xs : List α) : overlap pat xs ≤ xs.length := by
  by_cases hne : pat = []
  · subst hne
    simp [overlap]
  · have hle := (overlap_suffix pat xs).length_le
    have hlt := overlap_lt hne xs
    rw [length_take] at hle
    omega

omit [DecidableEq α] in
/-- A beginning of `pat` that a longer list ends with, cut back to where the
shorter list ended. -/
theorem take_suffix_of_append {more : List α} {k : Nat} (hk : k ≤ pat.length)
    (h : pat.take k <:+ xs ++ more) (hlt : more.length ≤ k) :
    pat.take (k - more.length) <:+ xs := by
  obtain ⟨front, hf⟩ := h
  refine ⟨front, ?_⟩
  have hlen := congrArg length hf
  simp only [length_append, length_take, Nat.min_eq_left hk] at hlen
  have ht := congrArg (take xs.length) hf
  rw [take_append, take_left, take_of_length_le (by omega), take_take] at ht
  rw [← ht]
  congr 2
  omega

/-- **No occurrence starts before the overlap**, whatever follows. -/
theorem not_prefix_of_overlap (hn : ¬ pat <:+: front ++ held)
    (ho : overlap pat (front ++ held) ≤ held.length) (more : List α) :
    ∀ i, i < front.length → ¬ pat <+: (front ++ (held ++ more)).drop i := by
  intro i hi hp
  obtain ⟨back, hb⟩ := hp
  have hd : (front ++ (held ++ more)).drop i = (front ++ held).drop i ++ more := by
    rw [← append_assoc, drop_append_of_le_length (by simp; omega)]
  rw [hd] at hb
  rcases Nat.lt_or_ge ((front ++ held).drop i).length pat.length with hs | hl
  · -- the occurrence runs past the end: its beginning is an overlap
    have ht : pat.take ((front ++ held).drop i).length = (front ++ held).drop i := by
      have := congrArg (take ((front ++ held).drop i).length) hb
      rwa [take_append_of_le_length (Nat.le_of_lt hs), take_left] at this
    have hsuf : pat.take ((front ++ held).drop i).length <:+ front ++ held := by
      rw [ht]
      exact drop_suffix _ _
    have hm := le_overlap hs hsuf
    simp only [length_drop, length_append] at hm
    omega
  · apply hn
    have hp : pat <+: (front ++ held).drop i :=
      prefix_of_prefix_length_le ⟨back, hb⟩ (prefix_append _ _) hl
    exact hp.isInfix.trans (drop_suffix _ _).isInfix

theorem splitOnce_of_overlap (hn : ¬ pat <:+: front ++ held)
    (ho : overlap pat (front ++ held) ≤ held.length) (more : List α) :
    splitOnce pat (front ++ (held ++ more))
      = (splitOnce pat (held ++ more)).map fun parts => (front ++ parts.1, parts.2) :=
  splitOnce_append_of_forall front _ (not_prefix_of_overlap hn ho more)

theorem overlap_append (hne : pat ≠ [])
    (ho : overlap pat (front ++ held) ≤ held.length) (more : List α) :
    overlap pat (front ++ (held ++ more)) = overlap pat (held ++ more) := by
  apply Nat.le_antisymm
  · have hlt := overlap_lt hne (front ++ (held ++ more))
    have hs := overlap_suffix pat (front ++ (held ++ more))
    refine le_overlap hlt ?_
    rcases Nat.lt_or_ge (held ++ more).length (overlap pat (front ++ (held ++ more))) with
      hl | hsh
    · -- it would reach into the front, and so would the shorter list's overlap
      rw [length_append] at hl
      have hs' : pat.take (overlap pat (front ++ (held ++ more))) <:+ front ++ held ++ more := by
        rw [append_assoc]
        exact hs
      have hc := take_suffix_of_append (Nat.le_of_lt hlt) hs' (by omega)
      have := le_overlap (by omega) hc
      omega
    · refine suffix_of_suffix_length_le hs (suffix_append _ _) ?_
      rw [length_take]
      omega
  · refine le_overlap (overlap_lt hne _) ?_
    exact (overlap_suffix pat (held ++ more)).trans (suffix_append _ _)

theorem overlap_append_le (pat : List α) (hne : pat ≠ []) (xs more : List α) :
    overlap pat (xs ++ more) ≤ overlap pat xs + more.length := by
  rcases Nat.lt_or_ge (overlap pat (xs ++ more)) more.length with hlt | hge
  · omega
  · have hk := overlap_lt hne (xs ++ more)
    have hc := take_suffix_of_append (Nat.le_of_lt hk) (overlap_suffix pat (xs ++ more)) hge
    have := le_overlap (by omega) hc
    omega

/-- An occurrence that begins before the list ends, and ends after it, begins
within the overlap. -/
theorem length_sub_overlap_le {more : List α} (hn : ¬ pat <:+: xs)
    (h : xs ++ more = before ++ pat ++ after) : xs.length - overlap pat xs ≤ before.length := by
  rcases Nat.le_total xs.length before.length with hle | hge
  · omega
  · -- the list ends inside the occurrence
    obtain ⟨inner, hi⟩ : before <+: xs := by
      refine prefix_of_prefix_length_le ?_ (prefix_append xs more) hge
      rw [h, append_assoc]
      exact prefix_append _ _
    rw [← hi, append_assoc, append_assoc] at h
    have h' := append_cancel_left h
    have hs : inner.length < pat.length := by
      by_contra hlo
      apply hn
      have hp : pat <+: inner :=
        prefix_of_prefix_length_le ⟨after, h'.symm⟩ (prefix_append inner more) (by omega)
      rw [← hi]
      exact hp.isInfix.trans (suffix_append _ _).isInfix
    have ht : pat.take inner.length = inner := by
      have := congrArg (take inner.length) h'
      rwa [take_left, take_append_of_le_length (Nat.le_of_lt hs), eq_comm] at this
    have hsuf : pat.take inner.length <:+ xs := by
      rw [ht, ← hi]
      exact suffix_append _ _
    have hle := le_overlap hs hsuf
    have hlen := congrArg length hi
    rw [length_append] at hlen
    omega

/-! ### Trimming -/

omit [DecidableEq α] in
theorem rdropWhile_append_of_getLast {p : α → Bool} {front : List α}
    (h : ∀ x, front.getLast? = some x → p x = false) (rest : List α) :
    (front ++ rest).rdropWhile p = front ++ rest.rdropWhile p := by
  induction rest using reverseRecOn with
  | nil =>
    rw [append_nil, rdropWhile_nil, append_nil, rdropWhile_eq_self_iff]
    intro hne
    rw [h _ (getLast?_eq_getLast_of_ne_nil hne)]
    simp
  | append_singleton rest x ih =>
    rw [← append_assoc, rdropWhile_concat, rdropWhile_concat, ih]
    split <;> simp

omit [DecidableEq α] in
theorem getLast?_rdropWhile {p : α → Bool} {xs : List α} {x : α}
    (h : (xs.rdropWhile p).getLast? = some x) : p x = false := by
  have hne : xs.rdropWhile p ≠ [] := by
    intro hnil
    rw [hnil] at h
    cases h
  have hl := rdropWhile_last_not p xs hne
  rw [getLast?_eq_getLast_of_ne_nil hne] at h
  cases h
  simpa using hl

end LocalAi.Lib
