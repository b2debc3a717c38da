import Mathlib.Algebra.Order.Group.Defs
import Mathlib.Data.List.Basic
import Mathlib.Algebra.Group.Nat.Defs

/-!
# The reference tree of drafts

The best-first tree over a candidate lattice, in the order its rows are taken: of the candidates
whose parents are rows, the one with the best path score becomes the next row.

* `best?`: the first of the best candidates that are not taken.
* `buildTreeReference`: the tree of up to so many rows.

Scores lie in an ordered group in place of floats, and `calibrated`, which is computed in floating
point, is a parameter.
-/

open List

namespace LocalAi.Dflash

/-- The candidate lattice of one drafting pass, of any width: the tokens of each draft position, and
the conditional log probabilities of a position's candidates after each candidate of the one before
it. -/
structure DflashLattice (Q : Type) where
  slots : Nat
  slots_pos : 0 < slots
  cand : (position slot : Nat) → Nat
  condLogq : (position row : Nat) → List Q

structure DflashCalibration (F : Type) where
  alpha : Nat → F
  beta : Nat → F

structure TreeNode (Q G : Type) where
  /-- Parent row; -1 for the anchor. -/
  parent : Int
  depth : Nat
  slot : Nat
  token : Nat
  logQ : Q
  pathLogP : G

structure Entry (Q G : Type) where
  score : G
  logQ : Q
  parent : Nat
  slot : Nat
  depth : Nat
  taken : Bool

/-- `i32::try_from(n).unwrap_or(-1)`. -/
def toI32 (n : Nat) : Int := if n < 2 ^ 31 then n else -1

section

variable {Q F G : Type} [AddCommGroup G] [LinearOrder G] (calibrated : Q → F → F → G)
  (lattice : DflashLattice Q) (calibration : DflashCalibration F)

def push (parent : Nat) (score : G) (depth row : Nat) : List (Entry Q G) :=
  (lattice.condLogq (depth - 1) row).mapIdx fun c lq =>
    { score := score + calibrated lq (calibration.alpha depth) (calibration.beta depth)
      logQ := lq
      parent := parent
      slot := c
      depth := depth
      taken := false }

/-- A candidate replaces the best one so far if its score is greater. -/
def keepBest (best : Option (Nat × G)) (item : Entry Q G × Nat) : Option (Nat × G) :=
  match best with
  | some (index, score) =>
    if item.1.score ≤ score then some (index, score) else some (item.2, item.1.score)
  | none => some (item.2, item.1.score)

def best? (frontier : List (Entry Q G)) : Option Nat :=
  ((frontier.zipIdx.filter fun item => !item.1.taken).foldl keepBest none).map Prod.fst

/-- The best candidate, and where it stands. -/
def next? (frontier : List (Entry Q G)) : Option (Nat × Entry Q G) := do
  let best ← best? frontier
  let entry ← frontier[best]?
  some (best, entry)

def Entry.node (entry : Entry Q G) : TreeNode Q G where
  parent := toI32 entry.parent
  depth := entry.depth
  slot := entry.slot
  token := lattice.cand (entry.depth - 1) entry.slot
  logQ := entry.logQ
  pathLogP := entry.score

def grow : (left : Nat) → List (TreeNode Q G) → List (Entry Q G) → List (TreeNode Q G)
  | 0, nodes, _ => nodes
  | left + 1, nodes, frontier =>
    match next? frontier with
    | none => nodes
    | some (best, entry) =>
      let frontier := frontier.set best { entry with taken := true }
      let nodes := nodes ++ [entry.node lattice]
      let frontier :=
        if entry.depth < lattice.slots then
          frontier ++ push calibrated lattice calibration (nodes.length - 1) entry.score
            (entry.depth + 1) entry.slot
        else frontier
      grow left nodes frontier

def anchorNode [Zero Q] (anchor : Nat) : TreeNode Q G where
  parent := -1
  depth := 0
  slot := 0
  token := anchor
  logQ := 0
  pathLogP := 0

def buildTreeReference [Zero Q] (anchor maxRows : Nat) : List (TreeNode Q G) :=
  grow calibrated lattice calibration (maxRows - 1) [anchorNode anchor]
    (push calibrated lattice calibration 0 0 1 0)

end

/-! ### The best candidate -/

section

variable {Q G : Type}

variable {frontier : List (Entry Q G)}

theorem mem_untaken {item : Entry Q G × Nat} :
    item ∈ frontier.zipIdx.filter (fun item => !item.1.taken) ↔
      frontier[item.2]? = some item.1 ∧ item.1.taken = false := by
  rw [mem_filter, mem_zipIdx_iff_getElem?, Bool.not_eq_true']

variable [LinearOrder G]

theorem foldl_keepBest (items : List (Entry Q G × Nat)) : ∀ best,
    (items.foldl keepBest best = none ↔ best = none ∧ items = []) ∧
    ∀ index score, items.foldl keepBest best = some (index, score) →
      (best = some (index, score) ∨ ∃ item ∈ items, item.2 = index ∧ item.1.score = score) ∧
      (∀ item ∈ items, item.1.score ≤ score) ∧
      ∀ old, best = some old → old.2 ≤ score := by
  induction items with
  | nil =>
    intro best
    refine ⟨by simp, ?_⟩
    rintro index score ⟨⟩
    exact ⟨.inl rfl, fun _ h => (nomatch h), fun old h => by cases h; exact le_rfl⟩
  | cons item items ih =>
    intro best
    rw [foldl_cons]
    -- what one candidate does
    have hst : ∃ kept, keepBest best item = some kept ∧
        (best = some kept ∨ kept = (item.2, item.1.score)) ∧ item.1.score ≤ kept.2 ∧
        ∀ old, best = some old → old.2 ≤ kept.2 := by
      rcases best with _ | ⟨index, score⟩
      · exact ⟨_, rfl, .inr rfl, le_rfl, fun _ h => (nomatch h)⟩
      · by_cases hle : item.1.score ≤ score
        · refine ⟨(index, score), if_pos hle, .inl rfl, hle, ?_⟩
          rintro _ ⟨⟩
          exact le_rfl
        · refine ⟨(item.2, item.1.score), if_neg hle, .inr rfl, le_rfl, ?_⟩
          rintro _ ⟨⟩
          exact (not_le.mp hle).le
    obtain ⟨kept, hk, hf, hi, hold⟩ := hst
    obtain ⟨hn, hso⟩ := ih (keepBest best item)
    refine ⟨?_, ?_⟩
    · rw [hn, hk]
      simp
    · intro index score h
      obtain ⟨hw, ha, hb⟩ := hso index score h
      have hle := hb kept hk
      refine ⟨?_, ?_, fun old h => (hold old h).trans hle⟩
      · obtain hw | ⟨found, hfo, hsa⟩ := hw
        · rw [hk] at hw
          obtain rfl := Option.some.inj hw
          obtain hf | hf := hf
          · exact .inl hf
          · obtain ⟨hidx, hs⟩ := Prod.mk.inj hf
            exact .inr ⟨item, mem_cons_self, hidx.symm, hs.symm⟩
        · exact .inr ⟨found, mem_cons_of_mem _ hfo, hsa⟩
      · intro other ho
        obtain rfl | ho := mem_cons.mp ho
        · exact hi.trans hle
        · exact ha other ho

theorem next?_eq_some {best : Nat} {entry : Entry Q G} (h : next? frontier = some (best, entry)) :
    frontier[best]? = some entry ∧ entry.taken = false ∧
      ∀ other ∈ frontier, other.taken = false → other.score ≤ entry.score := by
  obtain ⟨index, hb, h⟩ := Option.bind_eq_some_iff.mp h
  obtain ⟨found, hf, h⟩ := Option.bind_eq_some_iff.mp h
  obtain ⟨rfl, rfl⟩ := Prod.mk.inj (Option.some.inj h)
  obtain ⟨⟨_, score⟩, hfo, rfl⟩ := Option.map_eq_some_iff.mp hb
  obtain ⟨hw, ha, -⟩ := (foldl_keepBest _ none).2 _ _ hfo
  obtain hno | ⟨item, hi, hidx, hs⟩ := hw
  · cases hno
  · obtain ⟨hg, ht⟩ := mem_untaken.mp hi
    rw [hidx] at hg
    obtain rfl := Option.some.inj (hg.symm.trans hf)
    refine ⟨hf, ht, fun other ho hfr => ?_⟩
    obtain ⟨k, hk⟩ := mem_iff_getElem?.mp ho
    rw [hs]
    exact ha (other, k) (mem_untaken.mpr ⟨hk, hfr⟩)

theorem next?_eq_none (h : next? frontier = none) : ∀ entry ∈ frontier, entry.taken = true := by
  intro entry he
  by_contra hfr
  obtain ⟨k, hk⟩ := mem_iff_getElem?.mp he
  have hm : (entry, k) ∈ frontier.zipIdx.filter fun item => !item.1.taken :=
    mem_untaken.mpr ⟨hk, Bool.not_eq_true _ ▸ hfr⟩
  cases hf : (frontier.zipIdx.filter fun item => !item.1.taken).foldl keepBest none with
  | none =>
    rw [((foldl_keepBest _ none).1.mp hf).2] at hm
    cases hm
  | some best =>
    obtain ⟨hw, -⟩ := (foldl_keepBest _ none).2 best.1 best.2 hf
    obtain hno | ⟨item, hi, hidx, -⟩ := hw
    · cases hno
    · have hg := (mem_untaken.mp hi).1
      rw [hidx] at hg
      rw [next?, best?, hf] at h
      simp [hg] at h

end

end LocalAi.Dflash
