import LocalAi.Dflash.Tree
import LocalAi.Lib.BestFirst
import Mathlib.Data.Nat.Digits.Defs

/-!
# Draft trees are optimal

A row of a draft tree is told by its path, the candidates taken from the anchor on.

* `Rows`: the rows and the frontier of a tree, as the paths taken determine them.
* `grow_rows`: the loop takes paths best first.
* `DraftTree`: what the rows are, their parents, scores and total.
* `best_first_optimal`: every tree is so, and a prefix of those of more rows.
-/

open List

namespace LocalAi.Dflash

open Lib (BestFirst Fringe)
open Relation (ReflTransGen)

/-- The candidates taken from the anchor on. -/
abbrev Path := List Nat

section

variable {Q F G : Type} [AddCommGroup G] (calibrated : Q → F → F → G)
  (lattice : DflashLattice Q) (calibration : DflashCalibration F)

/-! ### The lattice as a tree -/

/-- The conditional log probabilities of what may follow a path. -/
def following (path : Path) : List Q := lattice.condLogq path.length (path.getLastD 0)

/-- The paths that go on with one more candidate. -/
def Child (p v : Path) : Prop :=
  p.length < lattice.slots ∧ ∃ c < (following lattice p).length, v = p ++ [c]

def childPaths (p : Path) : List Path :=
  if p.length < lattice.slots then (List.range (following lattice p).length).map fun c => p ++ [c]
  else []

/-- What a candidate adds to the score of a path. -/
def increment (depth : Nat) (logQ : Q) : G :=
  calibrated logQ (calibration.alpha depth) (calibration.beta depth)

def lastLogQ? (path : Path) : Option Q := (following lattice path.dropLast)[path.getLastD 0]?

/-- The sum of what its candidates add, along a path. -/
def pathScore (path : Path) : G :=
  ((List.range path.length).map fun i =>
    ((lastLogQ? lattice (path.take (i + 1))).map (increment calibrated calibration (i + 1))).getD
      0).sum

variable {lattice}

variable {v : Path}

variable {p : Path} {taken paths : List Path} {anchor width : Nat}

theorem mem_childPaths : v ∈ childPaths lattice p ↔ Child lattice p v := by
  rw [childPaths, Child]
  split_ifs with h
  · rw [mem_map]
    constructor
    · rintro ⟨c, hc, rfl⟩
      exact ⟨h, c, mem_range.mp hc, rfl⟩
    · rintro ⟨-, c, hc, rfl⟩
      exact ⟨c, mem_range.mpr hc, rfl⟩
  · exact ⟨fun hv => (nomatch hv), fun hv => absurd hv.1 h⟩

theorem Child.dropLast (h : Child lattice p v) : v.dropLast = p := by
  obtain ⟨-, c, -, rfl⟩ := h
  exact dropLast_concat

theorem Child.ne_nil (h : Child lattice p v) : v ≠ [] := by
  obtain ⟨-, c, -, rfl⟩ := h
  exact concat_ne_nil c p

theorem Child.length (h : Child lattice p v) : v.length = p.length + 1 := by
  obtain ⟨-, c, -, rfl⟩ := h
  exact length_append

theorem childPaths_nodup (p : Path) : (childPaths lattice p).Nodup := by
  rw [childPaths]
  split_ifs
  · refine nodup_range.map fun a b hab => ?_
    simpa using hab
  · exact nodup_nil

theorem lastLogQ?_concat (p : Path) (c : Nat) :
    lastLogQ? lattice (p ++ [c]) = (following lattice p)[c]? := by
  rw [lastLogQ?, dropLast_concat, getLastD_concat]

theorem pathScore_concat (p : Path) (c : Nat) :
    pathScore calibrated lattice calibration (p ++ [c]) =
      pathScore calibrated lattice calibration p +
        ((following lattice p)[c]?.map (increment calibrated calibration (p.length + 1))).getD 0 := by
  rw [pathScore, length_append, length_singleton, range_succ, map_append,
    sum_append, map_singleton, sum_singleton,
    take_of_length_le (by rw [length_append]; exact le_rfl), lastLogQ?_concat, pathScore]
  congr 2
  refine map_congr_left fun i hi => ?_
  rw [take_append_of_le_length (Nat.succ_le_of_lt (mem_range.mp hi))]

theorem lastLogQ?_of_child (h : Child lattice p v) : ∃ logQ, lastLogQ? lattice v = some logQ ∧
      pathScore calibrated lattice calibration v =
        pathScore calibrated lattice calibration p +
          increment calibrated calibration v.length logQ := by
  have hl := h.length
  obtain ⟨-, c, hc, rfl⟩ := h
  refine ⟨(following lattice p)[c], ?_, ?_⟩
  · rw [lastLogQ?_concat, getElem?_eq_getElem hc]
  · rw [pathScore_concat, getElem?_eq_getElem hc, hl]
    rfl

/-! ### Rows and frontiers -/

theorem dropLast_mem [LinearOrder G]
    (h : BestFirst (Child lattice) (pathScore calibrated lattice calibration) [] taken)
    (hv : v ∈ taken) (hne : v ≠ []) : v.dropLast ∈ taken := by
  induction h with
  | root => exact absurd (mem_singleton.mp hv) hne
  | take _ hn _ ih =>
    obtain hv | hv := mem_append.mp hv
    · exact mem_append_left _ (ih hv)
    · obtain ⟨-, p, hp, hc⟩ := hn
      rw [mem_singleton.mp hv, hc.dropLast]
      exact mem_append_left _ hp

theorem candidates_nodup (h : taken.Nodup) : (taken.flatMap (childPaths lattice)).Nodup := by
  refine nodup_flatMap.mpr ⟨fun p _ => childPaths_nodup p, h.imp fun {p q} hpq => ?_⟩
  intro v hp hq
  exact hpq ((mem_childPaths.mp hp).dropLast.symm.trans (mem_childPaths.mp hq).dropLast)

variable (lattice) [Zero Q]

def entryOf (taken : List Path) (v : Path) : Entry Q G where
  score := pathScore calibrated lattice calibration v
  logQ := (lastLogQ? lattice v).getD 0
  parent := taken.idxOf v.dropLast
  slot := v.getLastD 0
  depth := v.length
  taken := decide (v ∈ taken)

def rowOf (anchor : Nat) (taken : List Path) (v : Path) : TreeNode Q G :=
  if v = [] then anchorNode anchor else (entryOf calibrated lattice calibration taken v).node lattice

structure Rows [LinearOrder G] (anchor : Nat) (taken : List Path) (nodes : List (TreeNode Q G))
    (frontier : List (Entry Q G)) : Prop where
  best : BestFirst (Child lattice) (pathScore calibrated lattice calibration) [] taken
  nodes : nodes = taken.map (rowOf calibrated lattice calibration anchor taken)
  frontier : frontier =
    (taken.flatMap (childPaths lattice)).map (entryOf calibrated lattice calibration taken)

variable {lattice}

theorem push_eq {taken : List Path} {v : Path} {index : Nat} (hi : taken.idxOf v = index)
    (hfr : ∀ c, v ++ [c] ∉ taken) (hs : v.length < lattice.slots) :
    push calibrated lattice calibration index (pathScore calibrated lattice calibration v)
        (v.length + 1) (v.getLastD 0) =
      (childPaths lattice v).map (entryOf calibrated lattice calibration taken) := by
  have hf : lattice.condLogq (v.length + 1 - 1) (v.getLastD 0) = following lattice v := rfl
  rw [push, childPaths, if_pos hs, map_map, hf]
  refine ext_getElem (by simp) fun c h₁ h₂ => ?_
  have hc : c < (following lattice v).length := by simpa using h₁
  rw [getElem_mapIdx, getElem_map, getElem_range, Function.comp_apply, entryOf,
    pathScore_concat, lastLogQ?_concat, getElem?_eq_getElem hc, dropLast_concat, hi,
    getLastD_concat, length_append]
  simp [hfr c, increment]

theorem Rows.start [LinearOrder G] (anchor : Nat) :
    Rows calibrated lattice calibration anchor [[]] [anchorNode anchor]
      (push calibrated lattice calibration 0 0 1 0) where
  best := .root
  nodes := rfl
  frontier := by
    rw [flatMap_singleton]
    exact @push_eq Q F G _ calibrated lattice calibration _ [[]] [] 0 rfl
      (fun c h => by simp at h) lattice.slots_pos

theorem entryOf_concat {w : Path} (hw : w.dropLast ∈ taken) :
    entryOf calibrated lattice calibration (taken ++ [v]) w =
      if w = v then { entryOf calibrated lattice calibration taken w with taken := true }
      else entryOf calibrated lattice calibration taken w := by
  rw [entryOf, idxOf_append_of_mem hw]
  split_ifs with h
  · simp [entryOf, h]
  · simp [entryOf, h]

theorem rowOf_concat {w : Path} (hw : w ≠ [] → w.dropLast ∈ taken) :
    rowOf calibrated lattice calibration anchor (taken ++ [v]) w =
      rowOf calibrated lattice calibration anchor taken w := by
  rw [rowOf, rowOf]
  split_ifs with h
  · rfl
  · rw [Entry.node, Entry.node, entryOf, idxOf_append_of_mem (hw h), entryOf]

theorem rowOf_pathLogP (anchor : Nat) (paths : List Path) (v : Path) :
    (rowOf calibrated lattice calibration anchor paths v).pathLogP =
      pathScore calibrated lattice calibration v := by
  rw [rowOf]
  split_ifs with h
  · rw [h]
    rfl
  · rfl

theorem rowOf_depth (anchor : Nat) (paths : List Path) (v : Path) :
    (rowOf calibrated lattice calibration anchor paths v).depth = v.length := by
  rw [rowOf]
  split_ifs with h
  · rw [h]
    rfl
  · rfl

theorem rowOf_slot (anchor : Nat) (paths : List Path) (v : Path) :
    (rowOf calibrated lattice calibration anchor paths v).slot = v.getLastD 0 := by
  rw [rowOf]
  split_ifs with h
  · rw [h]
    rfl
  · rfl

variable [LinearOrder G]

theorem Rows.take {anchor : Nat} {taken : List Path} {nodes : List (TreeNode Q G)}
    {frontier : List (Entry Q G)} {best : Nat} {entry : Entry Q G}
    (h : Rows calibrated lattice calibration anchor taken nodes frontier)
    (hn : next? frontier = some (best, entry)) :
    ∃ v, Rows calibrated lattice calibration anchor (taken ++ [v]) (nodes ++ [entry.node lattice])
      (if entry.depth < lattice.slots then
        frontier.set best { entry with taken := true } ++ push calibrated lattice calibration
          ((nodes ++ [entry.node lattice]).length - 1) entry.score (entry.depth + 1) entry.slot
      else frontier.set best { entry with taken := true }) := by
  obtain ⟨hg, hf, hbest⟩ := next?_eq_some hn
  rw [h.frontier, getElem?_map] at hg
  obtain ⟨v, hv, rfl⟩ := Option.map_eq_some_iff.mp hg
  have hl : v ∉ taken := of_decide_eq_false hf
  obtain ⟨p, hp, hchd⟩ := mem_flatMap.mp (mem_of_getElem? hv)
  rw [mem_childPaths] at hchd
  have hpar : v.dropLast ∈ taken := hchd.dropLast.symm ▸ hp
  have hparents : ∀ w ∈ taken, w ≠ [] → w.dropLast ∈ taken :=
    fun w hw => dropLast_mem calibrated calibration h.best hw
  refine ⟨v, h.best.take ⟨hl, p, hp, hchd⟩ ?_, ?_, ?_⟩
  · rintro w ⟨hw, q, hq, hwc⟩
    refine hbest (entryOf calibrated lattice calibration taken w) ?_ (decide_eq_false hw)
    rw [h.frontier]
    exact mem_map_of_mem (mem_flatMap.mpr ⟨q, hq, mem_childPaths.mpr hwc⟩)
  · rw [map_append, h.nodes]
    congr 1
    · exact map_congr_left fun w hw =>
        (rowOf_concat calibrated calibration (hparents w hw)).symm
    · rw [map_singleton, rowOf_concat calibrated calibration fun _ => hpar, rowOf,
        if_neg hchd.ne_nil]
  · have hset : frontier.set best
        { entryOf calibrated lattice calibration taken v with taken := true } =
        (taken.flatMap (childPaths lattice)).map
          (entryOf calibrated lattice calibration (taken ++ [v])) := by
      rw [h.frontier]
      refine ext_getElem (by simp) fun k h₁ h₂ => ?_
      have hk : k < (taken.flatMap (childPaths lattice)).length := by simpa using h₂
      obtain ⟨hbestlt, hb⟩ := List.getElem?_eq_some_iff.mp hv
      obtain ⟨q, hq, hqc⟩ := mem_flatMap.mp (getElem_mem hk)
      have hwp : (taken.flatMap (childPaths lattice))[k].dropLast ∈ taken := by
        rw [(mem_childPaths.mp hqc).dropLast]
        exact hq
      rw [getElem_set, getElem_map, getElem_map, entryOf_concat calibrated calibration hwp]
      by_cases hs : best = k
      · subst hs
        rw [if_pos rfl, if_pos hb, hb]
      · rw [if_neg hs, if_neg]
        intro hw
        exact hs ((candidates_nodup h.best.nodup).getElem_inj_iff.mp (hb.trans hw.symm))
    rw [hset, flatMap_append, flatMap_singleton, map_append]
    have hde : (entryOf calibrated lattice calibration taken v).depth = v.length := rfl
    rw [hde]
    split_ifs with hsl
    · congr 1
      refine push_eq calibrated calibration ?_ ?_ hsl
      · rw [idxOf_append_of_notMem hl, idxOf_cons_self, h.nodes, length_append, length_map]
        rfl
      · intro c hc
        obtain hc | hc := mem_append.mp hc
        · have hd := hparents _ hc (concat_ne_nil c v)
          rw [dropLast_concat] at hd
          exact hl hd
        · have hlen := congrArg List.length (mem_singleton.mp hc)
          simp at hlen
    · rw [childPaths, if_neg hsl, map_nil, append_nil]

/-! ### The loop -/

theorem grow_rows (left : Nat) : ∀ {taken : List Path}
    {nodes : List (TreeNode Q G)} {frontier : List (Entry Q G)},
    Rows calibrated lattice calibration anchor taken nodes frontier →
      ∃ all, BestFirst (Child lattice) (pathScore calibrated lattice calibration) [] all ∧
        grow calibrated lattice calibration left nodes frontier =
          all.map (rowOf calibrated lattice calibration anchor all) ∧
        all.length ≤ taken.length + left ∧
        (all.length < taken.length + left → ∀ w, ¬Fringe (Child lattice) all w) := by
  induction left with
  | zero =>
    intro taken nodes frontier h
    exact ⟨taken, h.best, h.nodes, le_rfl, fun hlt => absurd hlt (lt_irrefl _)⟩
  | succ left ih =>
    intro taken nodes frontier h
    rw [grow]
    cases hn : next? frontier with
    | none =>
      refine ⟨taken, h.best, h.nodes, Nat.le_add_right _ _, fun _ => ?_⟩
      rintro w ⟨hw, q, hq, hc⟩
      have ht := next?_eq_none hn (entryOf calibrated lattice calibration taken w) (by
        rw [h.frontier]
        exact mem_map_of_mem (mem_flatMap.mpr ⟨q, hq, mem_childPaths.mpr hc⟩))
      exact hw (of_decide_eq_true ht)
    | some =>
      obtain ⟨v, hv⟩ := h.take calibrated calibration hn
      obtain ⟨all, ha, hg, hle, he⟩ := ih hv
      rw [length_append, length_singleton] at hle he
      exact ⟨all, ha, hg, by omega, fun hlt => he (by omega)⟩

omit [Zero Q] in
theorem grow_isPrefix (left more : Nat) : ∀ (nodes : List (TreeNode Q G))
    (frontier : List (Entry Q G)), grow calibrated lattice calibration left nodes frontier <+:
      grow calibrated lattice calibration (left + more) nodes frontier := by
  induction left with
  | zero =>
    intro nodes frontier
    rw [Nat.zero_add, grow]
    induction more generalizing nodes frontier with
    | zero => exact prefix_rfl
    | succ more ih =>
      rw [grow]
      cases next? frontier with
      | none => exact prefix_rfl
      | some => exact (prefix_append _ _).trans (ih _ _)
  | succ left ih =>
    intro nodes frontier
    rw [Nat.succ_add, grow, grow]
    cases next? frontier with
    | none => exact prefix_rfl
    | some => exact ih _ _

/-! ### The whole tree -/

variable (lattice) in
/-- The paths of the lattice's whole tree. -/
def InTree (path : Path) : Prop := ReflTransGen (Child lattice) [] path

variable (lattice) in
/-- A part of the tree that holds the anchor, and with a path all that lead to it. -/
structure Subtree (paths : Finset Path) : Prop where
  anchor : [] ∈ paths
  parent : ∀ v ∈ paths, v ≠ [] → v.dropLast ∈ paths ∧ Child lattice v.dropLast v

omit [Zero Q] in
theorem Subtree.inTree {paths : Finset Path} (h : Subtree lattice paths) :
    ∀ (n : Nat), ∀ v ∈ paths, v.length = n → InTree lattice v := by
  intro n
  induction n with
  | zero =>
    intro v _ hl
    rw [eq_nil_of_length_eq_zero hl]
    exact .refl
  | succ n ih =>
    intro v hv hl
    have hne : v ≠ [] := ne_nil_of_length_eq_add_one hl
    obtain ⟨hp, hc⟩ := h.parent v hv hne
    exact (ih v.dropLast hp (by rw [length_dropLast, hl]; rfl)).tail hc

omit [Zero Q] in
/-- A path has no more candidates than there are positions, each of them one of so many. -/
theorem InTree.fits (hw : ∀ position row, (lattice.condLogq position row).length ≤ width)
    (hv : InTree lattice v) : v.length ≤ lattice.slots ∧ ∀ c ∈ v, c < width := by
  induction hv with
  | refl => exact ⟨Nat.zero_le _, fun c hc => (nomatch hc)⟩
  | tail _ hchd ih =>
    obtain ⟨hs, c, hc, rfl⟩ := hchd
    refine ⟨by rw [length_append]; exact hs, fun d hd => ?_⟩
    obtain hd | hd := mem_append.mp hd
    · exact ih.2 d hd
    · rw [mem_singleton.mp hd]
      exact hc.trans_le (hw _ _)

def pathNumber (width : Nat) (path : Path) : Nat := Nat.ofDigits (width + 1) (path.map (· + 1))

theorem pathNumber_digits (hw : 0 < width) {path : Path} (h : ∀ c ∈ path, c < width) :
    Nat.digits (width + 1) (pathNumber width path) = path.map (· + 1) := by
  refine Nat.digits_ofDigits _ (by omega) _ ?_ ?_
  · intro d hd
    obtain ⟨c, hc, rfl⟩ := mem_map.mp hd
    exact Nat.succ_lt_succ (h c hc)
  · intro hne
    rw [getLast_map]
    exact Nat.succ_ne_zero _

theorem pathNumber_lt {depth : Nat} (hw : 0 < width) {path : Path}
    (hlen : path.length ≤ depth) (h : ∀ c ∈ path, c < width) :
    pathNumber width path < (width + 1) ^ depth := by
  have hlt : pathNumber width path < (width + 1) ^ (path.map (· + 1)).length := by
    refine Nat.ofDigits_lt_base_pow_length (by omega) fun d hd => ?_
    obtain ⟨c, hc, rfl⟩ := mem_map.mp hd
    exact Nat.succ_lt_succ (h c hc)
  rw [length_map] at hlt
  exact hlt.trans_le (Nat.pow_le_pow_right (Nat.succ_pos _) hlen)

theorem length_le_of_nodup {depth : Nat} (hwi : 0 < width)
    (hnd : paths.Nodup) (h : ∀ v ∈ paths, v.length ≤ depth ∧ ∀ c ∈ v, c < width) :
    paths.length ≤ (width + 1) ^ depth := by
  have hnu : (paths.map (pathNumber width)).Nodup := by
    refine hnd.map_on fun v hv w hw hvw => ?_
    have hd := congrArg (Nat.digits (width + 1)) hvw
    rw [pathNumber_digits hwi (h v hv).2, pathNumber_digits hwi (h w hw).2] at hd
    exact map_injective_iff.mpr (add_left_injective 1) hd
  have hr : paths.map (pathNumber width) ⊆ range ((width + 1) ^ depth) := by
    intro n hn
    obtain ⟨v, hv, rfl⟩ := mem_map.mp hn
    exact mem_range.mpr (pathNumber_lt hwi (h v hv).1 (h v hv).2)
  have hle := (hnu.subperm hr).length_le
  rwa [length_map, length_range] at hle

/-! ### The tree that is built -/

def dflashSlots : Nat := 7

def dflashTopk : Nat := 16

variable (lattice) in
/-- A row that goes on from row `index`: one deeper, with a candidate that the lattice has after its
parent's. -/
structure GoesOn (index : Nat) (above node : TreeNode Q G) : Prop where
  parent : node.parent = toI32 index
  depth : node.depth = above.depth + 1
  logQ : (lattice.condLogq above.depth above.slot)[node.slot]? = some node.logQ
  token : node.token = lattice.cand above.depth node.slot
  pathLogP : node.pathLogP = above.pathLogP + increment calibrated calibration node.depth node.logQ

omit [LinearOrder G] in
theorem rowOf_goesOn (anchor : Nat) (paths : List Path) {v : Path} (h : Child lattice p v) :
    GoesOn calibrated lattice calibration (paths.idxOf p)
      (rowOf calibrated lattice calibration anchor paths p)
      (rowOf calibrated lattice calibration anchor paths v) := by
  obtain ⟨logQ, hl, hs⟩ := lastLogQ?_of_child calibrated calibration h
  have hr : rowOf calibrated lattice calibration anchor paths v =
      (entryOf calibrated lattice calibration paths v).node lattice := if_neg h.ne_nil
  have hlogQ : (rowOf calibrated lattice calibration anchor paths v).logQ = logQ := by
    rw [hr, Entry.node, entryOf, hl]
    rfl
  have hd (w : Path) : (rowOf calibrated lattice calibration anchor paths w).depth = w.length :=
    rowOf_depth calibrated calibration anchor paths w
  refine ⟨?_, ?_, ?_, ?_, ?_⟩
  · rw [hr, Entry.node, entryOf, h.dropLast]
  · rw [hd, hd, h.length]
  · rw [hlogQ, hd, rowOf_slot, rowOf_slot, ← hl, lastLogQ?, h.dropLast, following]
  · rw [hd, rowOf_slot, hr]
    show lattice.cand (v.length - 1) (v.getLastD 0) = _
    rw [h.length]
    rfl
  · rw [rowOf_pathLogP, rowOf_pathLogP, hd, hlogQ, hs]

variable (lattice) in
structure DraftTree (anchor maxRows : Nat) (rows : List (TreeNode Q G)) (paths : List Path) :
    Prop where
  length_le : rows.length ≤ maxRows
  whole : rows.length < maxRows → ∀ v, InTree lattice v → v ∈ paths
  length_eq : paths.length = rows.length
  nodup : paths.Nodup
  inTree : ∀ v ∈ paths, InTree lattice v
  anchor : rows[0]? = some (anchorNode anchor) ∧ paths[0]? = some []
  row : ∀ (i : Nat) node, 0 < i → rows[i]? = some node → ∃ j < i, ∃ above, rows[j]? = some above ∧
    GoesOn calibrated lattice calibration j above node ∧
    ∃ path, paths[j]? = some path ∧ paths[i]? = some (path ++ [node.slot])
  /-- A parent's row is an `i32` for as many rows as that, and for the lattice of the kernel. -/
  parent : maxRows ≤ 2 ^ 31 ∨ (lattice.slots ≤ dflashSlots ∧
    ∀ position row, (lattice.condLogq position row).length ≤ dflashTopk) →
    ∀ j < rows.length, toI32 j = j
  score : rows.map TreeNode.pathLogP = paths.map (pathScore calibrated lattice calibration)
  sorted : rows.Pairwise fun earlier later => later.pathLogP ≤ earlier.pathLogP
  optimal : IsGreatest
    {total | ∃ paths, Subtree lattice paths ∧ paths.card = rows.length ∧
      ∑ v ∈ paths, pathScore calibrated lattice calibration v = total}
    (rows.map TreeNode.pathLogP).sum

omit [Zero Q] in
theorem pathScore_le [IsOrderedAddMonoid G]
    (hd : ∀ position row, ∀ logQ ∈ lattice.condLogq position row,
      increment calibrated calibration (position + 1) logQ ≤ 0) (p v : Path)
    (h : Child lattice p v) :
    pathScore calibrated lattice calibration v ≤ pathScore calibrated lattice calibration p := by
  obtain ⟨logQ, hl, hs⟩ := lastLogQ?_of_child calibrated calibration h
  rw [lastLogQ?, h.dropLast] at hl
  rw [hs, h.length]
  exact add_le_of_nonpos_right (hd _ _ logQ (mem_of_getElem? hl))

theorem toI32_of_lt {n : Nat} (h : n < 2 ^ 31) : toI32 n = n := if_pos h

omit [Zero Q] in
theorem subtree_of_bestFirst
    (h : BestFirst (Child lattice) (pathScore calibrated lattice calibration) [] paths) :
    Subtree lattice paths.toFinset where
  anchor := mem_toFinset.mpr h.root_mem
  parent := by
    intro v hv hne
    rw [mem_toFinset] at hv ⊢
    have hp := dropLast_mem calibrated calibration h hv hne
    refine ⟨hp, ?_⟩
    obtain hr | ⟨p, -, hc⟩ := ReflTransGen.cases_tail (h.reachable v hv)
    · exact absurd hr hne
    · rw [hc.dropLast]
      exact hc

theorem draftTree_of_bestFirst [IsOrderedAddMonoid G]
    (hd : ∀ position row, ∀ logQ ∈ lattice.condLogq position row,
      increment calibrated calibration (position + 1) logQ ≤ 0) {maxRows : Nat}
    (h : BestFirst (Child lattice) (pathScore calibrated lattice calibration) [] paths)
    (hle : paths.length ≤ maxRows)
    (he : paths.length < maxRows → ∀ w, ¬Fringe (Child lattice) paths w) :
    DraftTree calibrated lattice calibration anchor maxRows
      (paths.map (rowOf calibrated lattice calibration anchor paths)) paths := by
  have hs : (paths.map (rowOf calibrated lattice calibration anchor paths)).map
      TreeNode.pathLogP = paths.map (pathScore calibrated lattice calibration) := by
    rw [map_map]
    exact map_congr_left fun v _ => rowOf_pathLogP calibrated calibration anchor paths v
  have hd := pathScore_le calibrated calibration hd
  refine ⟨?_, ?_, (length_map _).symm, h.nodup, h.reachable, ⟨?_, h.head⟩, ?_, ?_, hs, ?_, ?_, ?_⟩
  · rw [length_map]
    exact hle
  · intro hlt v hv
    rw [length_map] at hlt
    exact h.complete (he hlt) hv
  · rw [getElem?_map, h.head]
    rfl
  · intro i node hpos hn
    rw [getElem?_map] at hn
    obtain ⟨v, hv, rfl⟩ := Option.map_eq_some_iff.mp hn
    obtain ⟨j, hj, p, hp, hchd⟩ := h.parent_before hpos hv
    have hi : paths.idxOf p = j := by
      obtain ⟨hlt, hg⟩ := List.getElem?_eq_some_iff.mp hp
      rw [← hg]
      exact h.nodup.idxOf_getElem j hlt
    refine ⟨j, hj, rowOf calibrated lattice calibration anchor paths p, ?_, ?_, p, hp, ?_⟩
    · rw [getElem?_map, hp]
      rfl
    · exact hi ▸ rowOf_goesOn calibrated calibration anchor paths hchd
    · obtain ⟨-, c, -, rfl⟩ := hchd
      rw [rowOf_slot, getLastD_concat]
      exact hv
  · intro hf j hj
    rw [length_map] at hj
    refine toI32_of_lt (hj.trans_le ?_)
    obtain hf | ⟨hsl, ht⟩ := hf
    · exact hle.trans hf
    · have hpa : paths.length ≤ (dflashTopk + 1) ^ dflashSlots :=
        length_le_of_nodup (by decide) h.nodup fun v hv =>
          ⟨(InTree.fits ht (h.reachable v hv)).1.trans hsl, (InTree.fits ht (h.reachable v hv)).2⟩
      exact hpa.trans (by decide)
  · rw [pairwise_map]
    refine (h.sorted hd).imp fun {v w} hvw => ?_
    rw [rowOf_pathLogP, rowOf_pathLogP]
    exact hvw
  · refine ⟨paths.toFinset, subtree_of_bestFirst calibrated calibration h, ?_, ?_⟩
    · rw [toFinset_card_of_nodup h.nodup, length_map]
    · rw [hs, sum_toFinset _ h.nodup]
  · rintro total ⟨others, ho, hc, rfl⟩
    rw [length_map] at hc
    rw [hs]
    exact h.optimal hd (fun v hv => ho.inTree _ v hv rfl) hc

/-- **Draft trees are optimal.** When no candidate adds more than nothing to a score, the tree of up
to so many rows is a best one of as many, its scores from the greatest on, and a prefix of the trees
of up to more. -/
theorem best_first_optimal [IsOrderedAddMonoid G]
    (hdown : ∀ position row, ∀ logQ ∈ lattice.condLogq position row,
      calibrated logQ (calibration.alpha (position + 1)) (calibration.beta (position + 1)) ≤ 0)
    (anchor : Nat) : (∀ maxRows, 1 ≤ maxRows → ∃ paths,
      DraftTree calibrated lattice calibration anchor maxRows
        (buildTreeReference calibrated lattice calibration anchor maxRows) paths) ∧
    ∀ fewer more, fewer ≤ more →
      buildTreeReference calibrated lattice calibration anchor fewer <+:
        buildTreeReference calibrated lattice calibration anchor more := by
  constructor
  · intro maxRows hr
    have hs : Rows calibrated lattice calibration anchor [[]] [anchorNode anchor]
        (push calibrated lattice calibration 0 0 1 0) := Rows.start calibrated calibration anchor
    obtain ⟨paths, hp, ht, hle, he⟩ :=
      grow_rows calibrated calibration (maxRows - 1) hs
    have hl : [([] : Path)].length + (maxRows - 1) = maxRows := by
      rw [length_singleton]
      omega
    rw [hl] at hle he
    refine ⟨paths, ?_⟩
    rw [buildTreeReference, ht]
    exact draftTree_of_bestFirst calibrated calibration hdown hp hle he
  · intro fewer more hle
    have hm : more - 1 = fewer - 1 + (more - fewer - (1 - fewer)) := by omega
    rw [buildTreeReference, buildTreeReference, hm]
    exact grow_isPrefix calibrated calibration _ _ _ _

end

def twoByTwo : DflashLattice Int where
  slots := 2
  slots_pos := by decide
  cand position slot := 10 * position + slot
  condLogq _ _ := [-1, -2]

/-- The calibration that leaves log probabilities as they are. -/
def identityCalibration : DflashCalibration Int := ⟨fun _ => 0, fun _ => 1⟩

theorem two_by_two_optimal : (∀ maxRows, 1 ≤ maxRows → ∃ paths,
      DraftTree (fun logQ _ _ => logQ) twoByTwo identityCalibration 7 maxRows
        (buildTreeReference (fun logQ _ _ => logQ) twoByTwo identityCalibration 7 maxRows) paths) ∧
    ∀ fewer more, fewer ≤ more →
      buildTreeReference (fun logQ _ _ => logQ) twoByTwo identityCalibration 7 fewer <+:
        buildTreeReference (fun logQ _ _ => logQ) twoByTwo identityCalibration 7 more := by
  refine best_first_optimal (fun logQ _ _ => logQ) identityCalibration ?_ 7
  show ∀ _ _ : Nat, ∀ logQ ∈ [(-1 : Int), -2], logQ ≤ 0
  intro _ _
  decide

/-- Of two candidates as good, the one that came first is taken. -/
example : (buildTreeReference (fun logQ _ _ => logQ) twoByTwo identityCalibration 7 4).map
    (fun node => (node.parent, node.depth, node.slot, node.pathLogP)) =
      [(-1, 0, 0, 0), (0, 1, 0, -1), (0, 1, 1, -2), (1, 2, 0, -2)] := by decide

end LocalAi.Dflash
