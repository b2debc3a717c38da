import Mathlib.Data.List.Sort
import LocalAi.PromptCache.Disk

/-!
# Whole eviction runs of the disk tier

`evictionOrder` is a loop over the indices still live; every turn looks at the live
entries anew.  `Evicts` is the loop as a run: one constructor a turn, with the guard
and the rule of the victim.

* `evictionLoop_evicts`: the loop with a turn for every live entry is a run to its end.
* `foldl_eraseIdx`: removing indices from the back removes exactly these.
* `eviction_policy`: the order and the trim by it.
* `index_is_directory`: after any jobs the index lists the files of the directory.
-/

set_option linter.unusedSectionVars false

open List

namespace LocalAi.PromptCache

open LocalAi.Sampling

variable {Path : Type}

/-! ### One victim -/

/-- Why `victim` goes when `live` is what is left: the first tail; no tail and the
last boundary that barely extends another; or neither and the first boundary. -/
inductive Chosen (entry : Nat → Indexed Path) (live : List Nat) (victim : Nat) : Prop
  | tail (hvictim : (entry victim).reusableBoundary = false)
      (holdest : live.find? (fun i => !(entry i).reusableBoundary) = some victim)
  | nearDuplicate (hboundaries : ∀ i ∈ live, (entry i).reusableBoundary = true)
      (hextends : ∃ parent ∈ live, barelyExtends (entry victim).tokens (entry parent).tokens = true)
  | age (hboundaries : ∀ i ∈ live, (entry i).reusableBoundary = true)
      (hfar : ∀ child ∈ live, ∀ parent ∈ live,
        barelyExtends (entry child).tokens (entry parent).tokens = false)
      (holdest : live.head? = some victim)

variable {α : Type} {victim : Nat}

theorem rposition_eq_none {p : α → Bool} {xs : List α} (h : rposition p xs = none) :
    ∀ x ∈ xs, p x = false := by
  induction xs with
  | nil => exact fun x hx => absurd hx not_mem_nil
  | cons y ys ih =>
    rw [rposition] at h
    cases hr : rposition p ys with
    | some =>
      rw [hr] at h
      cases h
    | none =>
      rw [hr] at h
      intro x hx
      rcases mem_cons.mp hx with rfl | hx
      · by_contra hp
        rw [Bool.not_eq_false] at hp
        simp [hp] at h
      · exact ih hr x hx

theorem rposition_getElem {p : α → Bool} {xs : List α} {i : Nat}
    (h : rposition p xs = some i) : ∃ x, xs[i]? = some x ∧ p x = true := by
  induction xs generalizing i with
  | nil => cases h
  | cons y ys ih =>
    rw [rposition] at h
    cases hr : rposition p ys with
    | some =>
      rw [hr] at h
      cases h
      obtain ⟨x, hx, hp⟩ := ih hr
      exact ⟨x, by rw [getElem?_cons_succ]; exact hx, hp⟩
    | none =>
      rw [hr] at h
      by_cases hp : p y
      · rw [if_pos hp] at h
        cases h
        exact ⟨y, rfl, hp⟩
      · rw [if_neg hp] at h
        cases h

variable {entry : Nat → Indexed Path}

variable {live : List Nat}

theorem nearDuplicate_map (i : Nat) (hb : ∀ i ∈ live, (entry i).reusableBoundary = true)
    (hi : (entry i).reusableBoundary = true) :
    nearDuplicate (live.map fun i => (entry i).view) (entry i).view = true ↔
      ∃ parent ∈ live, barelyExtends (entry i).tokens (entry parent).tokens = true := by
  simp only [nearDuplicate, Indexed.view, hi, Bool.true_and, any_map, any_eq_true,
    Function.comp_apply, Bool.and_eq_true]
  constructor
  · rintro ⟨parent, hp, _, he⟩
    exact ⟨parent, hp, he⟩
  · rintro ⟨parent, hp, he⟩
    exact ⟨parent, hp, hb parent hp, he⟩

/-- What `nextVictim` points at among the live entries. -/
theorem nextVictim_chosen {position : Nat}
    (h : nextVictim (live.map fun i => (entry i).view) = some position) :
    ∃ victim, live[position]? = some victim ∧ Chosen entry live victim := by
  have hlt : position < live.length := by
    have hlt := nextVictim_lt h
    rwa [length_map] at hlt
  refine ⟨live[position], getElem?_eq_getElem hlt, ?_⟩
  rw [nextVictim] at h
  cases ht : (live.map fun i => (entry i).view).findIdx? fun entry => !entry.2 with
  | some =>
    rw [ht] at h
    cases h
    rw [findIdx?_map] at ht
    have hf := findIdx?_eq_some_iff_getElem.mp ht
    obtain ⟨_, hvic, hbef⟩ := hf
    refine .tail (by simpa [Indexed.view] using hvic) ?_
    rw [find?_eq_some_iff_getElem]
    refine ⟨by simpa [Indexed.view] using hvic, position, hlt, rfl, ?_⟩
    intro j hj
    simpa [Indexed.view] using hbef j hj
  | none =>
    rw [ht] at h
    have hb : ∀ i ∈ live, (entry i).reusableBoundary = true := by
      intro i hi
      have hv := findIdx?_eq_none_iff.mp ht (entry i).view (mem_map_of_mem hi)
      simpa [Indexed.view] using hv
    cases hn : rposition (nearDuplicate (live.map fun i => (entry i).view))
        (live.map fun i => (entry i).view) with
    | some i =>
      simp only [hn] at h
      cases h
      obtain ⟨view, hv, hd⟩ := rposition_getElem hn
      rw [getElem?_map, getElem?_eq_getElem hlt] at hv
      cases hv
      exact .nearDuplicate hb ((nearDuplicate_map _ hb (hb _ (getElem_mem hlt))).mp hd)
    | none =>
      simp only [hn] at h
      cases live with
      | nil => cases h
      | cons =>
        cases h
        refine .age hb ?_ rfl
        intro child hc parent hp
        have hfar := rposition_eq_none hn (entry child).view (mem_map_of_mem hc)
        by_contra he
        rw [Bool.not_eq_false] at he
        rw [(nearDuplicate_map child hb (hb child hc)).mpr ⟨parent, hp, he⟩] at hfar
        cases hfar

theorem nextVictim_isSome {entries : List (List Token × Bool)} (h : entries ≠ []) :
    ∃ position, nextVictim entries = some position := by
  rw [nextVictim]
  cases entries.findIdx? fun entry => !entry.2 with
  | some i => exact ⟨i, rfl⟩
  | none =>
    cases rposition (nearDuplicate entries) entries with
    | some i => exact ⟨i, rfl⟩
    | none =>
      refine ⟨0, ?_⟩
      simp [h]

/-! ### A run of the loop -/

def liveBytes (entry : Nat → Indexed Path) (live : List Nat) : Nat :=
  (live.map fun i => (entry i).bytes).sum

inductive Evicts (entry : Nat → Indexed Path) (budget : Nat) :
    List Nat → List Nat → List Nat → Prop
  | stop {live : List Nat} (hguard : ¬ (budget < liveBytes entry live ∧ 1 < live.length)) :
      Evicts entry budget live [] live
  | turn {live order left : List Nat} {victim : Nat}
      (hguard : budget < liveBytes entry live ∧ 1 < live.length) (hlive : victim ∈ live)
      (hchosen : Chosen entry live victim)
      (hrest : Evicts entry budget (live.erase victim) order left) :
      Evicts entry budget live (victim :: order) left

theorem liveBytes_erase (h : victim ∈ live) :
    liveBytes entry live - (entry victim).bytes = liveBytes entry (live.erase victim) := by
  have hs := ((perm_cons_erase h).map fun i => (entry i).bytes).sum_nat
  rw [map_cons, sum_cons] at hs
  rw [liveBytes, hs, liveBytes]
  omega

theorem evictionLoop_evicts (entry : Nat → Indexed Path) (budget : Nat) :
    ∀ (fuel : Nat) (live : List Nat), live.Nodup → live.length ≤ fuel →
      ∃ left, Evicts entry budget live
        (evictionLoop entry budget fuel live (liveBytes entry live)) left := by
  intro fuel
  induction fuel with
  | zero =>
    intro live _ hf
    exact ⟨live, .stop (by omega)⟩
  | succ fuel ih =>
    intro live hnd hf
    rw [evictionLoop]
    by_cases hg : budget < liveBytes entry live ∧ 1 < live.length
    · rw [if_pos hg]
      obtain ⟨position, hp⟩ := @nextVictim_isSome (live.map fun i => (entry i).view) (by
        intro h
        rw [map_eq_nil_iff.mp h] at hg
        exact absurd hg.2 (by decide))
      obtain ⟨victim, hv, hc⟩ := nextVictim_chosen hp
      obtain ⟨hlt, rfl⟩ := List.getElem?_eq_some_iff.mp hv
      have hm : live[position] ∈ live := getElem_mem hlt
      have he : live.eraseIdx position = live.erase live[position] :=
        (List.Nodup.erase_getElem hnd position hlt).symm
      have hlen := length_erase_of_mem hm
      obtain ⟨left, hl⟩ := ih (live.erase live[position]) (hnd.erase _) (by omega)
      refine ⟨left, ?_⟩
      simp only [hp]
      rw [getD_eq_getElem?_getD, hv, Option.getD_some, liveBytes_erase hm, he]
      exact .turn hg hm hc hl
    · rw [if_neg hg]
      exact ⟨live, .stop hg⟩

theorem evictionLoop_more (entry : Nat → Indexed Path) (budget more : Nat) :
    ∀ (fuel : Nat) (live : List Nat) (bytes : Nat), live.length ≤ fuel →
      evictionLoop entry budget (fuel + more) live bytes
        = evictionLoop entry budget fuel live bytes := by
  intro fuel
  induction fuel with
  | zero =>
    intro live bytes hf
    have hg : ¬ (budget < bytes ∧ 1 < live.length) := by omega
    cases more with
    | zero => rfl
    | succ =>
      rw [Nat.zero_add, evictionLoop.eq_2, if_neg hg]
      rfl
  | succ fuel ih =>
    intro live bytes hf
    rw [Nat.add_right_comm, evictionLoop, evictionLoop]
    by_cases hg : budget < bytes ∧ 1 < live.length
    · rw [if_pos hg, if_pos hg]
      cases hv : nextVictim (live.map fun i => (entry i).view) with
      | none => rfl
      | some position =>
        have hlt := nextVictim_lt hv
        rw [length_map] at hlt
        have hlen := length_eraseIdx_add_one hlt
        simp only [ih (live.eraseIdx position) _ (by omega)]
    · rw [if_neg hg, if_neg hg]

def without (live gone : List Nat) : List Nat := live.filter fun i => !gone.contains i

theorem mem_without {live gone : List Nat} {i : Nat} :
    i ∈ without live gone ↔ i ∈ live ∧ i ∉ gone := by
  simp [without]

theorem without_nil (live : List Nat) : without live [] = live := by
  simp [without]

theorem without_cons {live gone : List Nat} (hnd : live.Nodup) :
    without live (victim :: gone) = without (live.erase victim) gone := by
  rw [hnd.erase_eq_filter, without, without, filter_filter]
  apply filter_congr
  intro i _
  rw [Bool.eq_iff_iff]
  simp [and_comm]

namespace Evicts

variable {entry : Nat → Indexed Path} {budget : Nat} {live order left : List Nat}

theorem subset (h : Evicts entry budget live order left) : order ⊆ live := by
  induction h with
  | stop => exact nil_subset _
  | turn _ hl _ _ ih =>
    intro i hi
    rcases mem_cons.mp hi with rfl | hi
    · exact hl
    · exact mem_of_mem_erase (ih hi)

theorem nodup (h : Evicts entry budget live order left) (hl : live.Nodup) : order.Nodup := by
  induction h with
  | stop => exact nodup_nil
  | turn _ _ _ hr ih =>
    rw [nodup_cons]
    exact ⟨fun hm => hl.not_mem_erase (hr.subset hm), ih (hl.erase _)⟩

theorem left_eq (h : Evicts entry budget live order left) (hl : live.Nodup) :
    left = without live order := by
  induction h with
  | stop => rw [without_nil]
  | turn _ _ _ _ ih => rw [ih (hl.erase _), without_cons hl]

/-- The run ends within the budget or with one entry, and never empties the list. -/
theorem fits (h : Evicts entry budget live order left) :
    (live ≠ [] → left ≠ []) ∧ (liveBytes entry left ≤ budget ∨ left.length ≤ 1) := by
  induction h with
  | stop =>
    refine ⟨id, ?_⟩
    omega
  | @turn live order left victim hg hl _ _ ih =>
    refine ⟨fun _ => ih.1 ?_, ih.2⟩
    -- two entries were live, so one is left for the next turn
    have hlen := length_erase_of_mem hl
    intro hn
    rw [hn, length_nil] at hlen
    omega

theorem chosen (h : Evicts entry budget live order left) (hl : live.Nodup)
    {before after : List Nat} (ho : order = before ++ victim :: after) :
    Chosen entry (without live before) victim := by
  induction h generalizing before with
  | stop => exact absurd ho.symm (by simp)
  | turn _ _ hc _ ih =>
    cases before with
    | nil =>
      cases ho
      rw [without_nil]
      exact hc
    | cons =>
      cases ho
      rw [without_cons hl]
      exact ih (hl.erase _) rfl

end Evicts

/-! ### The trim -/

/-- Indices removed from the back name the entries they named at the start. -/
theorem foldl_eraseIdx (f : Nat → α) :
    ∀ (gone live : List Nat), live.Nodup → gone.Pairwise (· > ·) →
      (∀ i ∈ gone, live[i]? = some i) → (∀ i ∈ gone, ∀ j ≤ i, live[j]? = some j) →
      gone.foldl List.eraseIdx (live.map f) = (without live gone).map f := by
  intro gone
  induction gone with
  | nil =>
    intro live _ _ _ _
    rw [without_nil]
    rfl
  | cons d gone ih =>
    intro live hl hs hat hb
    rw [pairwise_cons] at hs
    obtain ⟨hlt, hd⟩ := List.getElem?_eq_some_iff.mp (hat d mem_cons_self)
    have he : live.eraseIdx d = live.erase d := by
      have h := List.Nodup.erase_getElem hl d hlt
      rw [hd] at h
      exact h.symm
    have hk : ∀ j < d, (live.eraseIdx d)[j]? = some j := by
      intro j hj
      rw [getElem?_eraseIdx_of_lt hj]
      exact hb d mem_cons_self j (by omega)
    rw [foldl_cons, eraseIdx_map, without_cons hl, ← he]
    apply ih
    · rw [he]
      exact hl.erase d
    · exact hs.2
    · exact fun i hi => hk i (hs.1 i hi)
    · intro i hi j hj
      exact hk j (Nat.lt_of_le_of_lt hj (hs.1 i hi))

variable [DecidableEq Path] [Inhabited Path]

theorem evictOver_entries (index : DiskIndex Path) (budget : Nat)
    (hnd : (evictionOrder index.entries budget).Nodup)
    (hlt : ∀ i ∈ evictionOrder index.entries budget, i < index.entries.length) :
    (index.evictOver budget).2.entries =
      (without (range index.entries.length) (evictionOrder index.entries budget)).map
        fun i => index.entries.getD i default := by
  let order := evictionOrder index.entries budget
  let sorted := order.mergeSort fun a b => decide (a ≤ b)
  have hp : sorted.reverse.Perm order :=
    (reverse_perm _).trans (mergeSort_perm _ _)
  have hle : sorted.reverse.Pairwise (fun a b => b ≤ a) := by
    rw [pairwise_reverse]
    have h := @pairwise_mergeSort Nat (fun a b => decide (a ≤ b))
      (by simpa using fun a b c => Nat.le_trans) (by simpa using Nat.le_total) order
    simpa using h
  have hs : sorted.reverse.Pairwise (· > ·) := by
    refine hle.imp₂ ?_ (hp.nodup_iff.mpr hnd)
    intro a b hle hne
    omega
  have hr : ∀ j, j < index.entries.length →
      (range index.entries.length)[j]? = some j := fun j hj => getElem?_range hj
  have hf := foldl_eraseIdx (fun i => index.entries.getD i default) sorted.reverse
    (range index.entries.length) nodup_range hs
    (fun i hi => hr i (hlt i (hp.mem_iff.mp hi)))
    (fun i hi j hj => hr j (Nat.lt_of_le_of_lt hj (hlt i (hp.mem_iff.mp hi))))
  rw [map_getD_range] at hf
  have hw : without (range index.entries.length) sorted.reverse
      = without (range index.entries.length) order := by
    apply filter_congr
    intro i _
    rw [Bool.eq_iff_iff]
    simp [sorted]
  rw [hw] at hf
  exact hf

theorem evictionOrder_evicts (entries : List (Indexed Path)) (budget : Nat) :
    ∃ left, Evicts (fun i => entries.getD i default) budget (range entries.length)
      (evictionOrder entries budget) left := by
  have hb : (entries.map Indexed.bytes).sum
      = liveBytes (fun i => entries.getD i default) (range entries.length) := by
    conv_lhs => rw [← map_getD_range entries, map_map]
    rfl
  rw [evictionOrder, hb]
  exact evictionLoop_evicts _ budget _ _ nodup_range (by rw [length_range])

def remainingBytes (entries : List (Indexed Path)) (gone : List Nat) : Nat :=
  liveBytes (fun i => entries.getD i default) (without (List.range entries.length) gone)

/-- The whole trim.  The loop stops by itself: more turns change nothing.  It evicts
distinct entries, at least one stays, and what stays fits unless it is a single entry.
A boundary goes only after every tail, and one that barely extends no other live entry
only when no live entry barely extends another, as the oldest.  `evictOver` deletes the
files of these entries and keeps the others in their order. -/
theorem eviction_policy (index : DiskIndex Path) (budget : Nat) :
    let entries := index.entries
    let entry := fun i => entries.getD i default
    let all := range entries.length
    let order := evictionOrder entries budget
    (∀ more, evictionLoop entry budget (entries.length + more) all
      (entries.map Indexed.bytes).sum = order) ∧
    order.Nodup ∧ (∀ i ∈ order, i < entries.length) ∧
    (entries ≠ [] → without all order ≠ []) ∧
    (remainingBytes entries order ≤ budget ∨ (without all order).length = 1) ∧
    (∀ before victim after, order = before ++ victim :: after →
      (entry victim).reusableBoundary = true →
      (∀ i < entries.length, (entry i).reusableBoundary = false → i ∈ before) ∧
      ((∀ parent ∈ without all before,
          barelyExtends (entry victim).tokens (entry parent).tokens = false) →
        (∀ child ∈ without all before, ∀ parent ∈ without all before,
          barelyExtends (entry child).tokens (entry parent).tokens = false) ∧
        (without all before).head? = some victim)) ∧
    index.evictOver budget = (order.map fun i => (entry i).path,
      { index with entries := (without all order).map entry }) := by
  intro entries entry all order
  obtain ⟨left, hr⟩ := evictionOrder_evicts entries budget
  have ha : all.Nodup := nodup_range
  have hlt : ∀ i ∈ order, i < entries.length := fun i hi => mem_range.mp (hr.subset hi)
  have hl : left = without all order := hr.left_eq ha
  refine ⟨?_, hr.nodup ha, hlt, ?_, ?_, ?_, ?_⟩
  · exact fun more => evictionLoop_more entry budget more _ _ _ (by simp [all])
  · intro hne
    rw [← hl]
    refine hr.fits.1 ?_
    simpa using hne
  · rw [remainingBytes, ← hl]
    rcases hr.fits.2 with hf | hone
    · exact Or.inl hf
    · rcases Nat.le_one_iff_eq_zero_or_eq_one.mp hone with hz | hone
      · rw [length_eq_zero_iff.mp hz]
        exact Or.inl (Nat.zero_le _)
      · exact Or.inr hone
  · intro before victim after horder hbd
    have ht : (∀ i ∈ without all before, (entry i).reusableBoundary = true) →
        ∀ i < entries.length, (entry i).reusableBoundary = false → i ∈ before := by
      intro hb i hi hta
      by_contra hbef
      rw [hb i (mem_without.mpr ⟨mem_range.mpr hi, hbef⟩)] at hta
      cases hta
    cases hr.chosen ha horder with
    | tail hv => exact absurd hbd (by rw [hv]; decide)
    | nearDuplicate hb he =>
      refine ⟨ht hb, ?_⟩
      intro hn
      obtain ⟨parent, hp, he⟩ := he
      rw [hn parent hp] at he
      cases he
    | age hb hfar ho => exact ⟨ht hb, fun _ => ⟨hfar, ho⟩⟩
  · have hen := evictOver_entries index budget (hr.nodup ha) hlt
    rw [← hen]
    rfl

/-! ### The directory -/

variable {ε : Type} {index : DiskIndex Path}

/-- What the run of a job does to the files of the directory, oldest first: a file it commits
replaces the one of its name, and the files it evicts are deleted. -/
def Completion.leaves (completion : Completion ε Path) (size : Nat)
    (files : List (Indexed Path)) : List (Indexed Path) :=
  let files : List (Indexed Path) :=
    match completion.stored with
    | .ok (some ⟨path, tokens, _, boundary⟩) =>
      (files.filter fun file => file.path != path) ++ [⟨path, tokens, size, boundary⟩]
    | _ => files
  files.filter fun file => !completion.evicted.contains file.path

/-- A job of the directory, how its store goes and the size of the file that it commits. -/
structure JobRun (ε Path : Type) where
  job : StoreJob Path
  stored : Except ε Path
  size : Nat

def JobRun.run (files : List (Indexed Path)) (index : DiskIndex Path)
    (s : JobRun ε Path) : List (Indexed Path) × DiskIndex Path :=
  let (done, index) := persist index s.stored (fun _ => some s.size)
    { s.job with dir := index.dir } (some index)
  (done.1.leaves s.size files, index)

def runJobs (index : DiskIndex Path) (jobs : List (JobRun ε Path)) :
    List (Indexed Path) × DiskIndex Path :=
  jobs.foldl (fun (files, index) s => s.run files index) (index.entries, index)

/-- Removing the entries at their places is removing those of their names. -/
theorem evictOver_names (budget : Nat) (hp : (index.entries.map Indexed.path).Nodup) :
    (index.evictOver budget).2.entries =
      index.entries.filter fun entry => !(index.evictOver budget).1.contains entry.path := by
  obtain ⟨left, hr⟩ := evictionOrder_evicts index.entries budget
  rw [evictOver_entries index budget (hr.nodup nodup_range) fun i hi => mem_range.mp (hr.subset hi)]
  rw [← map_getD_range index.entries, map_map] at hp
  conv_rhs => rw [← map_getD_range index.entries, filter_map]
  refine congrArg _ (filter_congr fun i hi => ?_)
  rw [Bool.eq_iff_iff]
  simp only [DiskIndex.evictOver, Function.comp_apply, Bool.not_eq_true', ← Bool.not_eq_true,
    contains_iff_mem, mem_map]
  refine not_congr ⟨fun hm => ⟨i, hm, rfl⟩, ?_⟩
  rintro ⟨j, hj, hn⟩
  exact inj_on_of_nodup_map hp (hr.subset hj) hi hn ▸ hj

theorem JobRun.run_indexed (hp : (index.entries.map Indexed.path).Nodup) (s : JobRun ε Path) :
    (s.run index.entries index).2.entries = (s.run index.entries index).1 ∧
      ((s.run index.entries index).1.map Indexed.path).Nodup := by
  obtain ⟨job, stored, size⟩ := s
  obtain ⟨admitted, ha⟩ : ∃ admitted, index.admits job.tokens job.storedBytes
      job.reusableBoundary job.budget = (admitted, index) :=
    ⟨_, admits_eq index ⟨default, job.tokens, job.storedBytes, job.reusableBoundary⟩ _⟩
  simp only [JobRun.run, persist, StoreJob.index, if_true, ha]
  cases admitted with
  | false => simpa [Completion.leaves] using hp
  | true =>
    cases stored with
    | error => exact ⟨evictOver_names _ hp, hp.sublist (filter_sublist.map _)⟩
    | ok path =>
      have hn : ((index.insert path job.tokens job.reusableBoundary
          (some size)).entries.map Indexed.path).Nodup := by
        rw [DiskIndex.insert, map_append]
        refine nodup_append.mpr ⟨hp.sublist (filter_sublist.map _), nodup_singleton _, ?_⟩
        intro name hm other ho
        obtain ⟨file, hf, rfl⟩ := mem_map.mp hm
        rw [mem_singleton.mp ho]
        exact bne_iff_ne.mp (mem_filter.mp hf).2
      exact ⟨evictOver_names _ hn, hn.sublist (filter_sublist.map _)⟩

/-- **The index is the directory**: after any jobs its entries are the files, in their order. -/
theorem index_is_directory (index : DiskIndex Path)
    (hp : (index.entries.map Indexed.path).Nodup) (jobs : List (JobRun ε Path)) :
    (runJobs index jobs).2.entries = (runJobs index jobs).1 ∧
      ((runJobs index jobs).1.map Indexed.path).Nodup := by
  induction jobs generalizing index with
  | nil => exact ⟨rfl, hp⟩
  | cons s jobs ih =>
    obtain ⟨he, hn⟩ := s.run_indexed hp
    rw [← he] at hn
    have h := ih _ hn
    rw [runJobs, he] at h
    exact h

/-- A boundary that extends the one stored takes its name and its place. -/
theorem boundary_replaced :
    let after := @runJobs Nat _ _ Unit oneBoundary [⟨⟨0, [7, 8], none, true, 8, 6⟩, .ok 1, 6⟩]
    after.2.entries = after.1 :=
  (index_is_directory oneBoundary (by decide) _).1

end LocalAi.PromptCache
