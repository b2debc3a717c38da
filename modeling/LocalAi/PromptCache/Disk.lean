import Mathlib.Data.List.Perm.Basic
import LocalAi.Sampling.State
import Mathlib.Algebra.GroupWithZero.Nat

/-!
# The disk tier of the prompt cache

The index of one model directory lists its committed snapshots, oldest first.
Before a snapshot is written `admits` plays the trim that would follow; after it
is written `insert` records it and `evictOver` deletes until the budget holds.

* `nextVictim_tail`, `nextVictim_last`, `nextVictim_other`: which entry goes next,
  as seen by the newest one.
* `mem_evictionOrder_iff`: the newest entry is evicted exactly when shared
  boundaries that outrank it exceed the budget together with it.
* `admits_predicts_trim_iff`: `admits` and the trim judge the snapshot alike unless
  its tokens are stored under another name and that entry decides.
-/

set_option linter.unusedSectionVars false

open List

namespace LocalAi.PromptCache

open LocalAi.Sampling

/-- A committed snapshot, with the size the budget counts. -/
structure Indexed (Path : Type) where
  path : Path
  tokens : List Token
  bytes : Nat
  reusableBoundary : Bool

/-- A shared-prefix boundary `child` only barely extends boundary `parent`. -/
def barelyExtends (child parent : List Token) : Bool :=
  decide (parent.length < child.length) && decide (child.length - parent.length < parent.length) &&
    parent.isPrefixOf child

/-- `Iterator::rposition`. -/
def rposition {α : Type} (p : α → Bool) : List α → Option Nat
  | [] => none
  | x :: xs =>
    match rposition p xs with
    | some i => some (i + 1)
    | none => if p x then some 0 else none

/-- A boundary that barely extends another one of `entries`. -/
def nearDuplicate (entries : List (List Token × Bool)) (entry : List Token × Bool) : Bool :=
  entry.2 && entries.any fun other => other.2 && barelyExtends entry.1 other.1

/-- The oldest request tail, else the newest near-duplicate boundary, else the
oldest boundary. -/
def nextVictim (entries : List (List Token × Bool)) : Option Nat :=
  match entries.findIdx? fun entry => !entry.2 with
  | some position => some position
  | none =>
    match rposition (nearDuplicate entries) entries with
    | some position => some position
    | none => if entries.isEmpty then none else some 0

variable {Path : Type}

/-- What `nextVictim` sees of an entry. -/
def Indexed.view (entry : Indexed Path) : List Token × Bool := (entry.tokens, entry.reusableBoundary)

/-- The loop of `eviction_order` over the live indices; each turn takes one out, so
as many turns as there are entries are enough. -/
def evictionLoop (entry : Nat → Indexed Path) (budget : Nat) : Nat → List Nat → Nat → List Nat
  | 0, _, _ => []
  | fuel + 1, live, bytes =>
    if budget < bytes ∧ 1 < live.length then
      match nextVictim (live.map fun index => (entry index).view) with
      | none => []
      | some position =>
        let victim := live.getD position 0
        victim :: evictionLoop entry budget fuel (live.eraseIdx position)
          (bytes - (entry victim).bytes)
    else
      []

variable [DecidableEq Path] [Inhabited Path]

instance : Inhabited (Indexed Path) := ⟨⟨default, [], 0, false⟩⟩

def evictionOrder (entries : List (Indexed Path)) (budget : Nat) : List Nat :=
  evictionLoop (fun index => entries.getD index default) budget entries.length
    (List.range entries.length) (entries.map Indexed.bytes).sum

/-- The committed snapshots of one model directory, oldest first. -/
structure DiskIndex (Path : Type) where
  dir : Path
  entries : List (Indexed Path)

/-- Record a snapshot just committed at `path` as the newest; `metadata` is the size
the file system reports for it. -/
def DiskIndex.insert (index : DiskIndex Path) (path : Path) (tokens : List Token)
    (reusableBoundary : Bool) (metadata : Option Nat) : DiskIndex Path :=
  let kept := index.entries.filter fun entry => entry.path != path
  match metadata with
  | some bytes => { index with entries := kept ++ [⟨path, tokens, bytes, reusableBoundary⟩] }
  | none => { index with entries := kept }

/-- Whether a snapshot of `bytes` would survive the trim after its own store, and the
index after the entries were put back. -/
def DiskIndex.admits (index : DiskIndex Path) (tokens : List Token) (bytes : Nat)
    (reusableBoundary : Bool) (budget : Nat) : Bool × DiskIndex Path :=
  -- an entry with the same tokens is taken to be replaced by the store
  let same := index.entries.findIdx? fun entry => entry.tokens == tokens
  let replaced := same.bind fun i => index.entries[i]?
  let removed := same.elim index.entries index.entries.eraseIdx
  let entries := removed ++ [⟨default, tokens, bytes, reusableBoundary⟩]
  let candidate := entries.length - 1
  let admitted := !(evictionOrder entries budget).contains candidate
  let popped := entries.dropLast
  match same, replaced with
  | some i, some entry => (admitted, { index with entries := popped.insertIdx i entry })
  | _, _ => (admitted, { index with entries := popped })

/-- Delete snapshots until the total fits `budget`: the paths deleted, and the index
left. -/
def DiskIndex.evictOver (index : DiskIndex Path) (budget : Nat) : List Path × DiskIndex Path :=
  let order := evictionOrder index.entries budget
  let evicted := order.map fun i => (index.entries.getD i default).path
  let sorted := order.mergeSort fun a b => decide (a ≤ b)
  (evicted, { index with entries := sorted.reverse.foldl List.eraseIdx index.entries })

/-! ### The writer -/

/-- A snapshot to write: where, what, and the size its file will have
(`stored_bytes`). -/
structure StoreJob (Path : Type) where
  dir : Path
  tokens : List Token
  sessionId : Option String
  reusableBoundary : Bool
  budget : Nat
  storedBytes : Nat

/-- A snapshot the engine may restore from disk. -/
structure DiskEntry (Path : Type) where
  path : Path
  tokens : List Token
  sessionId : Option String
  reusableBoundary : Bool

structure Completion (ε Path : Type) where
  stored : Except ε (Option (DiskEntry Path))
  evicted : List Path

/-- The index a job is judged by: the one at hand if it is of the job's directory. -/
def StoreJob.index (discovered : DiskIndex Path) (job : StoreJob Path)
    (held : Option (DiskIndex Path)) : DiskIndex Path :=
  match held with
  | some index => if index.dir = job.dir then index else discovered
  | none => discovered

/-- `persist`: admission, store, then trim.  The file system gives the index of a
directory read anew (`discovered`), what the store came to (`stored`) and the size
of a file (`metadata`). -/
def persist {ε : Type} (discovered : DiskIndex Path) (stored : Except ε Path)
    (metadata : Path → Option Nat) (job : StoreJob Path) (held : Option (DiskIndex Path)) :
    (Completion ε Path × Nat) × DiskIndex Path :=
  let index := job.index discovered held
  match index.admits job.tokens job.storedBytes job.reusableBoundary job.budget with
  | (false, index) => ((⟨.ok none, []⟩, 0), index)
  | (true, index) =>
    match stored with
    | .error error =>
      let (evicted, index) := index.evictOver job.budget
      ((⟨.error error, evicted⟩, 0), index)
    | .ok path =>
      let index := index.insert path job.tokens job.reusableBoundary (metadata path)
      let (evicted, index) := index.evictOver job.budget
      ((⟨.ok (some ⟨path, job.tokens, job.sessionId, job.reusableBoundary⟩), evicted⟩,
        job.storedBytes), index)

/-! ### The next victim, seen by the newest entry -/

theorem rposition_lt {α : Type} {p : α → Bool} {xs : List α} {i : Nat}
    (h : rposition p xs = some i) : i < xs.length := by
  induction xs generalizing i with
  | nil => cases h
  | cons x xs ih =>
    rw [rposition] at h
    cases hr : rposition p xs with
    | some =>
      rw [hr] at h
      cases h
      exact Nat.succ_lt_succ (ih hr)
    | none =>
      rw [hr] at h
      by_cases hx : p x
      · rw [if_pos hx] at h
        cases h
        exact Nat.succ_pos _
      · rw [if_neg hx] at h
        cases h

theorem rposition_append_singleton {α : Type} (p : α → Bool) (xs : List α) (x : α) :
    rposition p (xs ++ [x]) = if p x then some xs.length else rposition p xs := by
  induction xs with
  | nil => simp [rposition]
  | cons y ys ih =>
    rw [cons_append, rposition, ih]
    by_cases hx : p x
    · simp [hx]
    · rw [if_neg hx, if_neg hx, rposition]

variable {others : List (List Token × Bool)} {budget candidate : Nat} {new : Indexed Path}

theorem nextVictim_tail (entry : List Token × Bool) (ht : ∃ other ∈ others, other.2 = false) :
    ∃ position, ∃ h : position < others.length,
      nextVictim (others ++ [entry]) = some position ∧ (others.get ⟨position, h⟩).2 = false := by
  have hs : (others.findIdx? fun entry => !entry.2).isSome := by
    rw [findIdx?_isSome]
    obtain ⟨other, hm, ht⟩ := ht
    exact any_eq_true.mpr ⟨other, hm, by rw [ht]; rfl⟩
  obtain ⟨position, hp⟩ := Option.isSome_iff_exists.mp hs
  obtain ⟨hlt, ht, _⟩ := findIdx?_eq_some_iff_getElem.mp hp
  refine ⟨position, hlt, ?_, by simpa using ht⟩
  rw [nextVictim, findIdx?_append, hp]
  rfl

/-- The newest entry itself: a tail behind boundaries, or a boundary that barely
extends another. -/
theorem nextVictim_last {entry : List Token × Bool} (ho : ∀ other ∈ others, other.2 = true)
    (hent : entry.2 = true → ∃ other ∈ others, barelyExtends entry.1 other.1 = true) :
    nextVictim (others ++ [entry]) = some others.length := by
  have hno : (others.findIdx? fun entry => !entry.2) = none := by
    rw [findIdx?_eq_none_iff]
    intro other hm
    rw [ho other hm]
    rfl
  rw [nextVictim, findIdx?_append, hno]
  cases hbd : entry.2 with
  | false => simp [hbd]
  | true =>
    obtain ⟨other, hm, hext⟩ := hent hbd
    have hn : nearDuplicate (others ++ [entry]) entry = true := by
      rw [nearDuplicate, hbd, Bool.true_and, any_eq_true]
      exact ⟨other, mem_append_left _ hm, by rw [ho other hm, hext]; rfl⟩
    simp [hbd, rposition_append_singleton, hn]

theorem barelyExtends_self (tokens : List Token) : barelyExtends tokens tokens = false := by
  simp [barelyExtends]

theorem nextVictim_other {entry : List Token × Bool}
    (ho : ∀ other ∈ others, other.2 = true) (he : entry.2 = true)
    (hf : ∀ other ∈ others, barelyExtends entry.1 other.1 = false) (hne : others ≠ []) :
    ∃ position, position < others.length ∧ nextVictim (others ++ [entry]) = some position := by
  have hno : ((others ++ [entry]).findIdx? fun entry => !entry.2) = none := by
    rw [findIdx?_eq_none_iff]
    intro other hm
    rcases mem_append.mp hm with hm | hm
    · rw [ho other hm]
      rfl
    · rw [mem_singleton.mp hm, he]
      rfl
  have hn : nearDuplicate (others ++ [entry]) entry = false := by
    rw [nearDuplicate, he, Bool.true_and, any_eq_false]
    intro other hm
    rcases mem_append.mp hm with hm | hm
    · rw [hf other hm, Bool.and_false]
      exact Bool.false_ne_true
    · rw [mem_singleton.mp hm, barelyExtends_self, Bool.and_false]
      exact Bool.false_ne_true
  rw [nextVictim, hno]
  simp only [rposition_append_singleton, hn, Bool.false_eq_true, if_false]
  cases hp : rposition (nearDuplicate (others ++ [entry])) others with
  | some position => exact ⟨position, rposition_lt hp, rfl⟩
  | none =>
    refine ⟨0, length_pos_iff.mpr hne, ?_⟩
    simp

/-! ### The eviction order, seen by the newest entry -/

/-- `entry` is kept before the newer `new`: a boundary, and for a new boundary one
that it barely extends. -/
def Indexed.Outranks (entry new : Indexed Path) : Prop :=
  entry.reusableBoundary = true ∧
    (new.reusableBoundary = true → barelyExtends new.tokens entry.tokens = true)

def boundaryBytes (entries : List (Indexed Path)) : Nat :=
  ((entries.filter Indexed.reusableBoundary).map Indexed.bytes).sum

/-- Beside `others` the newest entry `new` is over the budget: some boundary
outranks it, and the boundaries and it exceed `budget`. -/
def GivesWay (new : Indexed Path) (others : List (Indexed Path)) (budget : Nat) : Prop :=
  (∃ entry ∈ others, entry.Outranks new) ∧ budget < boundaryBytes others + new.bytes

theorem GivesWay.perm {others others' : List (Indexed Path)}
    (h : others.Perm others') : GivesWay new others budget ↔ GivesWay new others' budget := by
  have hb : boundaryBytes others = boundaryBytes others' :=
    ((h.filter _).map _).sum_nat
  rw [GivesWay, GivesWay, hb]
  refine and_congr_left fun _ => exists_congr fun entry => and_congr_left fun _ => ?_
  exact h.mem_iff

theorem givesWay_cons_tail {entry : Indexed Path} {others : List (Indexed Path)}
    (ht : entry.reusableBoundary = false) :
    GivesWay new (entry :: others) budget ↔ GivesWay new others budget := by
  have hb : boundaryBytes (entry :: others) = boundaryBytes others := by
    simp [boundaryBytes, ht]
  rw [GivesWay, GivesWay, hb]
  refine and_congr_left fun _ => ?_
  constructor
  · rintro ⟨other, hm, hr⟩
    rcases mem_cons.mp hm with rfl | hm
    · rw [hr.1] at ht
      cases ht
    · exact ⟨other, hm, hr⟩
  · rintro ⟨other, hm, hr⟩
    exact ⟨other, mem_cons_of_mem _ hm, hr⟩

theorem boundaryBytes_le (entries : List (Indexed Path)) :
    boundaryBytes entries ≤ (entries.map Indexed.bytes).sum := by
  induction entries with
  | nil => exact Nat.le_refl _
  | cons entry entries ih =>
    cases hbd : entry.reusableBoundary with
    | true =>
      simp only [boundaryBytes, filter_cons, hbd, if_true, map_cons, sum_cons] at ih ⊢
      omega
    | false =>
      simp only [boundaryBytes, filter_cons, hbd, Bool.false_eq_true, if_false,
        map_cons, sum_cons] at ih ⊢
      omega

theorem boundaryBytes_eq {entries : List (Indexed Path)}
    (ha : ∀ entry ∈ entries, entry.reusableBoundary = true) :
    boundaryBytes entries = (entries.map Indexed.bytes).sum := by
  rw [boundaryBytes, filter_eq_self.mpr ha]

theorem evictionLoop_other {entry : Nat → Indexed Path} {fuel : Nat} {others : List Nat}
    {position : Nat} (hc : candidate ∉ others) (hlt : position < others.length)
    (ho : budget < ((others ++ [candidate]).map fun i => (entry i).bytes).sum)
    (hv : nextVictim ((others ++ [candidate]).map fun i => (entry i).view) = some position) :
    candidate ∈ evictionLoop entry budget (fuel + 1) (others ++ [candidate])
        ((others ++ [candidate]).map fun i => (entry i).bytes).sum ↔
      candidate ∈ evictionLoop entry budget fuel (others.eraseIdx position ++ [candidate])
        ((others.eraseIdx position ++ [candidate]).map fun i => (entry i).bytes).sum := by
  have hm : 1 < (others ++ [candidate]).length := by
    rw [length_append, length_singleton]
    omega
  have hg : (others ++ [candidate]).getD position 0 = others[position] := by
    rw [getD_eq_getElem?_getD, getElem?_append_left hlt, getElem?_eq_getElem hlt]
    rfl
  have hs : ((others ++ [candidate]).map fun i => (entry i).bytes).sum
      - (entry others[position]).bytes
      = ((others.eraseIdx position ++ [candidate]).map fun i => (entry i).bytes).sum := by
    have hp := ((getElem_cons_eraseIdx_perm hlt).map fun i => (entry i).bytes).sum_nat
    simp only [map_cons, sum_cons, map_append, sum_append, map_nil, sum_nil] at hp ⊢
    omega
  have hne : candidate ≠ others[position] := fun h => hc (h ▸ getElem_mem hlt)
  rw [evictionLoop, if_pos ⟨ho, hm⟩, hv]
  simp only [hg, hs, eraseIdx_append_of_lt_length hlt, mem_cons, hne, false_or]

theorem evictionLoop_last {entry : Nat → Indexed Path} {fuel bytes : Nat} {others : List Nat}
    (hne : others ≠ []) (ho : budget < bytes)
    (hv : nextVictim ((others ++ [candidate]).map fun i => (entry i).view) = some others.length) :
    candidate ∈ evictionLoop entry budget (fuel + 1) (others ++ [candidate]) bytes := by
  have hm : 1 < (others ++ [candidate]).length := by
    have hp := length_pos_iff.mpr hne
    rw [length_append, length_singleton]
    omega
  have hg : (others ++ [candidate]).getD others.length 0 = candidate := by
    rw [getD_eq_getElem?_getD, getElem?_concat_length]
    rfl
  rw [evictionLoop, if_pos ⟨ho, hm⟩, hv]
  simp only [hg, mem_cons, true_or]

/-- The loop takes the newest entry out exactly when boundaries that outrank it
exceed the budget together with it. -/
theorem mem_evictionLoop_iff (entry : Nat → Indexed Path) (budget : Nat) :
    ∀ (fuel : Nat) (others : List Nat), others.length < fuel → candidate ∉ others →
      (candidate ∈ evictionLoop entry budget fuel (others ++ [candidate])
          ((others ++ [candidate]).map fun i => (entry i).bytes).sum ↔
        GivesWay (entry candidate) (others.map entry) budget) := by
  intro fuel
  induction fuel with
  | zero => exact fun _ h => absurd h (Nat.not_lt_zero _)
  | succ fuel ih =>
    intro others hfu hc
    have hv : (others ++ [candidate]).map (fun i => (entry i).view)
        = others.map (fun i => (entry i).view) ++ [(entry candidate).view] := by
      rw [map_append, map_singleton]
    have hby : ((others ++ [candidate]).map fun i => (entry i).bytes).sum
        = ((others.map entry).map Indexed.bytes).sum + (entry candidate).bytes := by
      simp [Function.comp_def]
    -- the turns that are not taken
    by_cases ho : budget < ((others ++ [candidate]).map fun i => (entry i).bytes).sum
    swap
    · rw [evictionLoop, if_neg fun h => ho h.1]
      refine iff_of_false not_mem_nil fun hg => ho ?_
      have hle := boundaryBytes_le (others.map entry)
      have hlt := hg.2
      omega
    by_cases hne : others = []
    · subst hne
      rw [evictionLoop, if_neg fun h => absurd h.2 (Nat.lt_irrefl 1)]
      refine iff_of_false not_mem_nil ?_
      rintro ⟨⟨_, hm, _⟩, _⟩
      cases hm
    -- another entry goes: without it the same boundaries outrank the newest
    have hoth : ∀ position (hlt : position < others.length),
        nextVictim ((others ++ [candidate]).map fun i => (entry i).view) = some position →
        (GivesWay (entry candidate) ((others.eraseIdx position).map entry) budget ↔
          GivesWay (entry candidate) (others.map entry) budget) →
        (candidate ∈ evictionLoop entry budget (fuel + 1) (others ++ [candidate])
            ((others ++ [candidate]).map fun i => (entry i).bytes).sum ↔
          GivesWay (entry candidate) (others.map entry) budget) := by
      intro position hlt hvic hs
      rw [evictionLoop_other hc hlt ho hvic, ← hs]
      refine ih _ ?_ fun hm => hc (mem_of_mem_eraseIdx hm)
      rw [length_eraseIdx_of_lt hlt]
      omega
    by_cases ht : ∃ other ∈ others.map fun i => (entry i).view, other.2 = false
    · obtain ⟨position, hlt, hvic, hv'⟩ := nextVictim_tail (entry candidate).view ht
      rw [length_map] at hlt
      refine hoth position hlt (hv ▸ hvic) ?_
      have hp := (getElem_cons_eraseIdx_perm hlt).map entry
      rw [← GivesWay.perm hp, map_cons, givesWay_cons_tail]
      simpa [Indexed.view] using hv'
    have hb : ∀ other ∈ others.map fun i => (entry i).view, other.2 = true := by
      intro other hm
      by_contra hf
      exact ht ⟨other, hm, Bool.not_eq_true _ ▸ hf⟩
    have ha : ∀ e ∈ others.map entry, e.reusableBoundary = true := by
      intro e hm
      obtain ⟨i, hi, rfl⟩ := mem_map.mp hm
      exact hb _ (mem_map.mpr ⟨i, hi, rfl⟩)
    by_cases hr : ∃ e ∈ others.map entry, e.Outranks (entry candidate)
    · -- every other is a boundary and one outranks the newest
      refine iff_of_true (evictionLoop_last hne ho ?_) ⟨hr, ?_⟩
      · rw [hv, nextVictim_last hb, length_map]
        intro hbd
        obtain ⟨e, hm, _, he⟩ := hr
        obtain ⟨i, hi, rfl⟩ := mem_map.mp hm
        exact ⟨(entry i).view, mem_map.mpr ⟨i, hi, rfl⟩, he hbd⟩
      · rw [boundaryBytes_eq ha, ← hby]
        exact ho
    · -- nothing outranks it, then or later
      have hbd : (entry candidate).reusableBoundary = true := by
        by_contra hf
        obtain ⟨i, hi⟩ := exists_mem_of_ne_nil others hne
        have hm : entry i ∈ others.map entry := mem_map.mpr ⟨i, hi, rfl⟩
        exact hr ⟨entry i, hm, ha _ hm, fun h => absurd h hf⟩
      have hfar : ∀ other ∈ others.map fun i => (entry i).view,
          barelyExtends (entry candidate).view.1 other.1 = false := by
        intro other hm
        obtain ⟨i, hi, rfl⟩ := mem_map.mp hm
        by_contra he
        have hin : entry i ∈ others.map entry := mem_map.mpr ⟨i, hi, rfl⟩
        exact hr ⟨entry i, hin, ha _ hin, fun _ => Bool.not_eq_false _ ▸ he⟩
      obtain ⟨position, hlt, hvic⟩ := nextVictim_other hb hbd hfar
        (fun h => hne (map_eq_nil_iff.mp h))
      rw [length_map] at hlt
      refine hoth position hlt (hv ▸ hvic) (iff_of_false ?_ fun h => hr h.1)
      rintro ⟨⟨e, hm, hout⟩, _⟩
      obtain ⟨i, hi, rfl⟩ := mem_map.mp hm
      exact hr ⟨entry i, mem_map.mpr ⟨i, mem_of_mem_eraseIdx hi, rfl⟩, hout⟩

theorem nextVictim_lt {entries : List (List Token × Bool)} {position : Nat}
    (h : nextVictim entries = some position) : position < entries.length := by
  rw [nextVictim] at h
  cases ht : entries.findIdx? fun entry => !entry.2 with
  | some =>
    rw [ht] at h
    cases h
    exact (findIdx?_eq_some_iff_getElem.mp ht).1
  | none =>
    rw [ht] at h
    cases hn : rposition (nearDuplicate entries) entries with
    | some =>
      simp only [hn] at h
      cases h
      exact rposition_lt hn
    | none =>
      simp only [hn] at h
      cases entries with
      | nil => cases h
      | cons =>
        cases h
        exact Nat.succ_pos _

theorem evictionLoop_subset (entry : Nat → Indexed Path) (budget : Nat) :
    ∀ (fuel : Nat) (live : List Nat) (bytes : Nat), evictionLoop entry budget fuel live bytes ⊆ live := by
  intro fuel
  induction fuel with
  | zero => exact fun live _ => nil_subset live
  | succ fuel ih =>
    intro live bytes index hm
    rw [evictionLoop] at hm
    by_cases ht : budget < bytes ∧ 1 < live.length
    · rw [if_pos ht] at hm
      cases hv : nextVictim (live.map fun i => (entry i).view) with
      | none =>
        rw [hv] at hm
        cases hm
      | some position =>
        have hlt : position < live.length := by
          have h := nextVictim_lt hv
          rwa [length_map] at h
        simp only [hv, mem_cons] at hm
        rcases hm with rfl | hm
        · rw [getD_eq_getElem?_getD, getElem?_eq_getElem hlt]
          exact getElem_mem hlt
        · exact mem_of_mem_eraseIdx (ih _ _ hm)
    · rw [if_neg ht] at hm
      cases hm

theorem map_getD_range (entries : List (Indexed Path)) :
    (range entries.length).map (fun i => entries.getD i default) = entries := by
  apply ext_getElem
  · simp
  · intro i h₁ h₂
    simp [getD_eq_getElem?_getD, getElem?_eq_getElem h₂]

theorem mem_evictionOrder_iff (others : List (Indexed Path)) (new : Indexed Path) (budget : Nat) :
    others.length ∈ evictionOrder (others ++ [new]) budget ↔ GivesWay new others budget := by
  have hl : (others ++ [new]).length = others.length + 1 := by simp
  have hs : ((others ++ [new]).map Indexed.bytes).sum
      = ((range others.length ++ [others.length]).map fun i =>
          ((others ++ [new]).getD i default).bytes).sum := by
    have hr : range others.length ++ [others.length]
        = range (others ++ [new]).length := by rw [hl, range_succ]
    rw [hr]
    conv_lhs => rw [← map_getD_range (others ++ [new])]
    rw [map_map]
    rfl
  have ho : (range others.length).map (fun i => (others ++ [new]).getD i default) = others := by
    conv_rhs => rw [← map_getD_range others]
    refine map_congr_left fun i hi => ?_
    rw [getD_eq_getElem?_getD, getElem?_append_left (mem_range.mp hi), ← getD_eq_getElem?_getD]
  have hn : (others ++ [new]).getD others.length default = new := by
    rw [getD_eq_getElem?_getD, getElem?_concat_length]
    rfl
  have hf : others.length ∉ range others.length := by simp
  have hm := mem_evictionLoop_iff (fun i => (others ++ [new]).getD i default) budget
    (others.length + 1) (range others.length) (by simp) hf
  rw [hn, ho] at hm
  rw [evictionOrder, hs, hl, range_succ]
  exact hm

/-! ### Admission against the trim -/

/-- What `admits` leaves beside the snapshot: the entries less the first with its
tokens. -/
def DiskIndex.counted (index : DiskIndex Path) (new : Indexed Path) : List (Indexed Path) :=
  index.entries.eraseP fun entry => entry.tokens == new.tokens

/-- What the store leaves beside the snapshot: the entries less the file of its
name. -/
def DiskIndex.kept (index : DiskIndex Path) (new : Indexed Path) : List (Indexed Path) :=
  index.entries.filter fun entry => entry.path != new.path

theorem admits_eq (index : DiskIndex Path) (new : Indexed Path) (budget : Nat) :
    index.admits new.tokens new.bytes new.reusableBoundary budget
      = (!(evictionOrder (index.counted new ++
          [⟨default, new.tokens, new.bytes, new.reusableBoundary⟩]) budget).contains
            (index.counted new).length, index) := by
  rw [DiskIndex.admits, DiskIndex.counted, eraseP_eq_eraseIdx]
  cases hs : index.entries.findIdx? fun entry => entry.tokens == new.tokens with
  | none => simp
  | some i =>
    have hlt : i < index.entries.length := (findIdx?_eq_some_iff_getElem.mp hs).1
    simp [hlt, insertIdx_eraseIdx_getElem hlt]

theorem admitted_iff (index : DiskIndex Path) (new : Indexed Path) (budget : Nat) :
    (index.admits new.tokens new.bytes new.reusableBoundary budget).1 = true ↔
      ¬ GivesWay new (index.counted new) budget := by
  rw [admits_eq]
  have hm := mem_evictionOrder_iff (index.counted new)
    ⟨default, new.tokens, new.bytes, new.reusableBoundary⟩ budget
  rw [Bool.not_eq_true', ← Bool.not_eq_true, contains_iff_mem, hm]
  rfl

/-- The trim after the store deletes the snapshot's file exactly when it evicts the
newest entry. -/
theorem path_mem_evicted_iff (index : DiskIndex Path) (new : Indexed Path) (budget : Nat) :
    new.path ∈ ((index.insert new.path new.tokens new.reusableBoundary
        (some new.bytes)).evictOver budget).1 ↔ GivesWay new (index.kept new) budget := by
  rw [← mem_evictionOrder_iff]
  show new.path ∈ (evictionOrder (index.kept new ++ [new]) budget).map
    (fun i => ((index.kept new ++ [new]).getD i default).path) ↔ _
  have hn : (index.kept new ++ [new]).getD (index.kept new).length default = new := by
    rw [getD_eq_getElem?_getD, getElem?_concat_length]
    rfl
  constructor
  · intro hm
    obtain ⟨i, hi, hp⟩ := mem_map.mp hm
    have hli := evictionLoop_subset _ _ _ _ _ hi
    rw [mem_range, length_append, length_singleton] at hli
    by_cases hl : i = (index.kept new).length
    · exact hl ▸ hi
    · -- an older entry has another path
      have hlt : i < (index.kept new).length := by omega
      rw [getD_eq_getElem?_getD, getElem?_append_left hlt,
        getElem?_eq_getElem hlt, Option.getD_some] at hp
      have hk := (mem_filter.mp (getElem_mem hlt)).2
      rw [hp] at hk
      simp at hk
  · intro hm
    exact mem_map.mpr ⟨_, hm, by rw [hn]⟩

/-- Names of files differ, and the names of snapshots stand for their contents. -/
theorem counted_eq_kept {entries : List (Indexed Path)} (hp : (entries.map Indexed.path).Nodup)
    (hc : ∀ entry ∈ entries, entry.path = new.path → entry.tokens = new.tokens)
    (hs : ∀ old, (entries.find? fun entry => entry.tokens == new.tokens) = some old →
      old.path = new.path) : (entries.eraseP fun entry => entry.tokens == new.tokens)
      = entries.filter fun entry => entry.path != new.path := by
  induction entries with
  | nil => rfl
  | cons entry entries ih =>
    rw [map_cons, nodup_cons] at hp
    rw [eraseP_cons, filter_cons]
    by_cases ht : entry.tokens = new.tokens
    · have hpa : entry.path = new.path := by
        apply hs
        rw [find?_cons_of_pos (by simp [ht])]
      have hr : entries.filter (fun entry => entry.path != new.path) = entries := by
        rw [filter_eq_self]
        intro other hm
        rw [bne_iff_ne]
        intro hoth
        exact hp.1 (mem_map.mpr ⟨other, hm, hoth.trans hpa.symm⟩)
      simp [ht, hpa, hr]
    · have hpa : entry.path ≠ new.path := fun h => ht (hc entry mem_cons_self h)
      have hta := ih hp.2 (fun other hm => hc other (mem_cons_of_mem _ hm)) (by
        intro old hold
        apply hs
        rw [find?_cons_of_neg (by simp [ht])]
        exact hold)
      have hd : (entry.tokens == new.tokens) = false := beq_eq_false_iff_ne.mpr ht
      simp [hd, hpa, hta]

/-- The tokens of the snapshot are stored under another name, and leaving that entry
out instead of the file of its own name decides whether it gives way. -/
def Misjudged (index : DiskIndex Path) (new : Indexed Path) (budget : Nat) : Prop :=
  ∃ old, (index.entries.find? fun entry => entry.tokens == new.tokens) = some old ∧
    old.path ≠ new.path ∧
    ¬ (GivesWay new (index.counted new) budget ↔ GivesWay new (index.kept new) budget)

theorem not_misjudged_iff {index : DiskIndex Path} (hp : (index.entries.map Indexed.path).Nodup)
    (hc : ∀ entry ∈ index.entries, entry.path = new.path → entry.tokens = new.tokens) :
    ¬ Misjudged index new budget ↔
      (GivesWay new (index.counted new) budget ↔ GivesWay new (index.kept new) budget) := by
  constructor
  · intro hn
    by_contra hd
    refine hd ?_
    rw [DiskIndex.counted, counted_eq_kept hp hc, DiskIndex.kept]
    intro old hold
    by_contra hpa
    exact hn ⟨old, hold, hpa, hd⟩
  · rintro hs ⟨old, _, _, hd⟩
    exact hd hs

/-- `admits` leaves the index as it was and predicts the trim after the store exactly
when no entry with the same tokens under another name decides; then a snapshot that
`persist` reports as stored is not among those it evicted. -/
theorem admits_predicts_trim_iff {index : DiskIndex Path} {new : Indexed Path} (budget : Nat)
    (hpaths : (index.entries.map Indexed.path).Nodup)
    (hcontent : ∀ entry ∈ index.entries, entry.path = new.path → entry.tokens = new.tokens) :
    let judged := index.admits new.tokens new.bytes new.reusableBoundary budget
    let trimmed := (index.insert new.path new.tokens new.reusableBoundary
      (some new.bytes)).evictOver budget
    judged.2 = index ∧
    ((judged.1 = true ↔ new.path ∉ trimmed.1) ↔ ¬ Misjudged index new budget) ∧
    (¬ Misjudged index new budget →
      ∀ (ε : Type) (discovered : DiskIndex Path) (held : Option (DiskIndex Path))
        (stored : Except ε Path) (metadata : Path → Option Nat) (job : StoreJob Path)
        (entry : DiskEntry Path),
      job.index discovered held = index → job.tokens = new.tokens →
      job.reusableBoundary = new.reusableBoundary → job.budget = budget →
      job.storedBytes = new.bytes → (∀ path, stored = .ok path → path = new.path) →
      metadata new.path = some new.bytes →
      (persist discovered stored metadata job held).1.1.stored = .ok (some entry) →
      entry.path ∉ (persist discovered stored metadata job held).1.1.evicted) := by
  intro judged trimmed
  have hp : (judged.1 = true ↔ new.path ∉ trimmed.1) ↔ ¬ Misjudged index new budget := by
    rw [not_misjudged_iff hpaths hcontent, admitted_iff, path_mem_evicted_iff]
    exact not_iff_not
  have hi : judged.2 = index := by rw [show judged = _ from admits_eq index new budget]
  refine ⟨hi, hp, ?_⟩
  intro hf ε discovered held stored metadata job entry hh ht hbd hb hby hpath hm hs
  have hj : index.admits job.tokens job.storedBytes job.reusableBoundary job.budget
      = (judged.1, index) := by
    rw [ht, hbd, hb, hby]
    exact Prod.ext rfl hi
  unfold persist at hs ⊢
  simp only [hh, hj] at hs ⊢
  cases ha : judged.1 with
  | false =>
    simp only [ha] at hs
    cases hs
  | true =>
    simp only [ha] at hs ⊢
    cases hr : stored with
    | error =>
      simp only [hr] at hs
      cases hs
    | ok path =>
      obtain rfl := hpath path hr
      simp only [hr] at hs ⊢
      cases hs
      rw [hm, ht, hbd, hb]
      exact (hp.mpr hf).mp ha

/-- A directory with one shared boundary. -/
def oneBoundary : DiskIndex Nat := ⟨0, [⟨1, [7], 5, true⟩]⟩

/-- A request tail with the boundary's tokens and another payload is admitted in its
place, stored beside it and deleted. -/
theorem admitted_then_evicted : (oneBoundary.admits [7] 5 false 8).1 = true ∧
      2 ∈ ((oneBoundary.insert 2 [7] false (some 5)).evictOver 8).1 := by
  decide

/-- A request tail after the boundary that the budget holds beside it. -/
theorem tail_admitted_and_kept : (oneBoundary.admits [7, 8] 5 false 12).2 = oneBoundary ∧
      (oneBoundary.admits [7, 8] 5 false 12).1 = true ∧
      2 ∉ ((oneBoundary.insert 2 [7, 8] false (some 5)).evictOver 12).1 := by
  have hc : ∀ entry ∈ oneBoundary.entries, entry.path = 2 → entry.tokens = [7, 8] := by
    intro entry hm hpa
    cases mem_singleton.mp hm
    cases hpa
  obtain ⟨hi, hp, _⟩ := @admits_predicts_trim_iff Nat _ _ oneBoundary
    ⟨2, [7, 8], 5, false⟩ 12 (by decide) hc
  have hf : ¬ Misjudged oneBoundary ⟨2, [7, 8], 5, false⟩ 12 := by
    rintro ⟨old, hold, _⟩
    cases hold
  have ha : (oneBoundary.admits [7, 8] 5 false 12).1 = true := by decide
  exact ⟨hi, ha, (hp.mpr hf).mp ha⟩

end LocalAi.PromptCache
