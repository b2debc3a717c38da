import Mathlib.Algebra.BigOperators.Group.List.Basic
import Mathlib.Order.Nat
import LocalAi.Engine.Prefill
import Mathlib.Algebra.GroupWithZero.Nat

/-!
# Drafts of a batched step

Which sequences of a batched pass verify drafts, and how many, by a cost model in floating point.
The model says what pays; that the choice fits the pass does not rest on it.

* `rate`: the expected tokens per millisecond of a plan, and nothing past the row limit.
* `choose`: the greedy plan, its best prefix, and two rounds of revision.
* `Within`: a plan that the candidates allow and the pass can hold.
* `choose_within`: what is chosen fits, beside a prompt's chunk too.

The floating-point operations and comparisons are parameters, and nothing is assumed of them.
-/

open List

namespace LocalAi.Scheduler

open Engine (PromptPrefill foldRows)

/-- The operations of `f64` that the cost model uses. -/
class Floats (F : Type) extends Add F, Sub F, Mul F, Div F, NatCast F, OfScientific F where
  mulAdd : F → F → F → F
  greater : F → F → Bool
  totalCmp : F → F → Ordering

open Floats

section

variable {F : Type} [Floats F]

/-- Measured milliseconds of a batched pass, by stacked rows. -/
def passTable : List (Nat × F) :=
  [(1, 32.4), (2, 48.4), (3, 64.0), (4, 75.0), (5, 78.0), (6, 80.0), (7, 82.0), (8, 84.0),
    (10, 125.0), (12, 148.0), (16, 154.0), (24, 229.0), (32, 303.0), (64, 602.0)]

def headPassMs : F := 2.1

def headRowMs : F := 0.5

/-- Between two measurements, a line. -/
def passLoop (rows : Nat) (previous : Nat × F) : List (Nat × F) → Option F
  | [] => none
  | (place, ms) :: rest =>
    if rows ≤ place then
      if place = previous.1 then some ms
      else
        let fraction := ((rows - previous.1 : Nat) : F) / ((place - previous.1 : Nat) : F)
        some (mulAdd fraction (ms - previous.2) previous.2)
    else passLoop rows (place, ms) rest

def passMs (rows : Nat) : F :=
  let rows := max rows 1
  -- beyond the table, at the slope of its last two measurements
  (passLoop rows (1, 32.4) passTable).getD
    (602.0 + ((rows - 64 : Nat) : F) * (602.0 - 303.0) / ((64 - 32 : Nat) : F))

structure Candidate (F : Type) where
  depth : Nat
  acceptance : F
  draftMs : F
  /-- Drafted by the sequence's MTP head. -/
  head : Bool

/-- Expected accepted drafts of a chain. -/
def expected (acceptance : F) (depth : Nat) : F :=
  ((List.range depth).foldl
    (fun (sum : F × F) _ => (sum.1 + sum.2 * acceptance, sum.2 * acceptance)) (0.0, 1.0)).1

/-- What `rate` sums over the candidates. -/
structure Tally (F : Type) where
  tokens : F
  rows : Nat
  time : F
  headDepth : Nat

def Tally.add (tally : Tally F) : Option (Candidate F) × Nat → Tally F
  | (none, _) => tally
  | (some candidate, depth) =>
    if depth = 0 then tally
    else
      let time := tally.time + candidate.draftMs
      { tokens := tally.tokens + expected candidate.acceptance depth
        rows := tally.rows + depth
        time := if candidate.head then mulAdd (depth : F) headRowMs time else time
        headDepth := if candidate.head then max tally.headDepth depth else tally.headDepth }

def rate (sequences rows : Nat) (candidates : List (Option (Candidate F))) (plan : List Nat)
    (maxRows : Nat) : Option F :=
  let tally := (candidates.zip plan).foldl Tally.add ⟨(sequences : F), max rows sequences, 0.0, 0⟩
  let chunk := rows - sequences
  let prefill := if 0 < chunk then passMs chunk else 0.0
  if tally.rows ≤ maxRows then
    some (tally.tokens /
      mulAdd (tally.headDepth : F) headPassMs (passMs tally.rows - prefill + tally.time))
  else none

/-- A depth tried, and kept if its rate is greater than the best one so far. -/
def tryDepth (rate : List Nat → Option F) (plan : List Nat) (index : Nat)
    (best : Option (Nat × F)) (depth : Nat) : Option (Nat × F) :=
  match rate (plan.set index depth) with
  | some value =>
    if best.all fun kept => greater value kept.2 then some (depth, value) else best
  | none => best

def bestDepth (rate : List Nat → Option F) (plan : List Nat) (index depth least : Nat) :
    List Nat × Option F :=
  let best := (List.range' least (depth + 1 - least)).foldl (tryDepth rate plan index) none
  (plan.set index ((best.map Prod.fst).getD 0), best.map Prod.snd)

/-- The candidates that can draft, most expected tokens per row first. -/
def draftOrder (candidates : List (Option (Candidate F))) : List (Nat × Candidate F) :=
  let each (candidate : Candidate F) : F :=
    expected candidate.acceptance candidate.depth / (candidate.depth : F)
  (candidates.zipIdx.filterMap fun item => item.1.bind fun candidate =>
    if 0 < candidate.depth then some (item.2, candidate) else none).mergeSort
    fun a b => (totalCmp (each b.2) (each a.2)).isLE

/-- A candidate added at its best depth, and the best plan so far. -/
def addDrafts (rate : List Nat → Option F) (s : List Nat × F × List Nat)
    (item : Nat × Candidate F) : List Nat × F × List Nat :=
  let (plan, value) := bestDepth rate s.1 item.1 item.2.depth 1
  match value with
  | some value => if greater value s.2.1 then (plan, value, plan) else (plan, s.2)
  | none => (plan, s.2)

/-- Each choice revised, given the others. -/
def revise (rate : List Nat → Option F) (order : List (Nat × Candidate F)) (plan : List Nat) :
    List Nat :=
  order.foldl (fun plan item => (bestDepth rate plan item.1 item.2.depth 0).1) plan

def choose (sequences rows : Nat) (candidates : List (Option (Candidate F))) (maxRows : Nat) :
    List Nat :=
  let rate := fun plan => rate sequences rows candidates plan maxRows
  let order := draftOrder candidates
  let plan := List.replicate candidates.length 0
  let best := (order.foldl (addDrafts rate) (plan, (rate plan).getD 0.0, plan)).2.2
  revise rate order (revise rate order best)

/-- The rows of a step's batched pass: a seed for each sequence, a prompt's chunk, and the drafts. -/
def passRows (prefill : PromptPrefill) (promptLen maxBatchRows maxPrefillFold : Nat)
    (cancelled : Bool) (candidates : List (Option (Candidate F))) : Nat :=
  let seeds := candidates.length
  let fold := foldRows prefill promptLen seeds maxBatchRows maxPrefillFold cancelled
  let rows := seeds + fold.getD 0
  rows + (choose seeds rows candidates maxBatchRows).sum

end

/-! ### Plans that fit -/

variable {F : Type}

/-- A candidate drafts at most its depth, and an absent one nothing. -/
def Allows (candidate : Option (Candidate F)) (depth : Nat) : Prop :=
  depth ≤ (candidate.map Candidate.depth).getD 0

structure Within (rows maxRows : Nat) (candidates : List (Option (Candidate F)))
    (plan : List Nat) : Prop where
  allowed : List.Forall₂ Allows candidates plan
  fits : rows + plan.sum ≤ maxRows

variable {candidates : List (Option (Candidate F))} {candidate : Candidate F} {plan : List Nat}
  {sequences rows maxRows : Nat}

theorem allowed_zero (candidates : List (Option (Candidate F))) :
    List.Forall₂ Allows candidates (replicate candidates.length 0) := by
  induction candidates with
  | nil => exact .nil
  | cons candidate candidates ih => exact .cons (Nat.zero_le _) ih

theorem allowed_set (h : List.Forall₂ Allows candidates plan) {index depth : Nat}
    (hc : candidates[index]? = some (some candidate)) (hd : depth ≤ candidate.depth) :
    List.Forall₂ Allows candidates (plan.set index depth) := by
  induction h generalizing index with
  | nil => exact .nil
  | cons hf hr ih =>
    cases index with
    | zero =>
      cases hc
      exact .cons hd hr
    | succ => exact .cons hf (ih hc)

theorem sum_set_zero_le (plan : List Nat) (index : Nat) : (plan.set index 0).sum ≤ plan.sum := by
  induction plan generalizing index with
  | nil => exact le_rfl
  | cons depth plan ih =>
    cases index with
    | zero => simp
    | succ index =>
      have h := ih index
      simp only [set_cons_succ, sum_cons]
      omega

variable [Floats F]

theorem tally_rows (h : List.Forall₂ Allows candidates plan) (tally : Tally F) :
    ((candidates.zip plan).foldl Tally.add tally).rows = tally.rows + plan.sum := by
  induction h generalizing tally with
  | nil => rfl
  | @cons candidate depth candidates plan hf _ ih =>
    have ha : (tally.add (candidate, depth)).rows = tally.rows + depth := by
      cases candidate with
      | none =>
        have hz : depth = 0 := Nat.le_zero.mp hf
        rw [hz]
        rfl
      | some =>
        unfold Tally.add
        by_cases hz : depth = 0
        · simp [hz]
        · simp [hz]
    rw [zip_cons_cons, foldl_cons, ih, ha, sum_cons, Nat.add_assoc]

theorem fits_of_rate (h : List.Forall₂ Allows candidates plan) {value : F}
    (hr : rate sequences rows candidates plan maxRows = some value) :
    rows + plan.sum ≤ maxRows := by
  unfold rate at hr
  simp only [tally_rows h] at hr
  split at hr
  · next hle =>
    have hm := le_max_left rows sequences
    omega
  · cases hr

/-! ### The search keeps the plan within the pass -/

theorem tried (rate : List Nat → Option F) (plan : List Nat) (index : Nat) {most : Nat}
    (depths : List Nat) (hm : ∀ depth ∈ depths, depth ≤ most) (best : Option (Nat × F))
    (hb : ∀ kept ∈ best, kept.1 ≤ most ∧ rate (plan.set index kept.1) = some kept.2) :
    ∀ kept ∈ depths.foldl (tryDepth rate plan index) best,
      kept.1 ≤ most ∧ rate (plan.set index kept.1) = some kept.2 := by
  induction depths generalizing best with
  | nil => exact hb
  | cons depth depths ih =>
    have hd := hm depth (mem_cons_self ..)
    refine ih (fun d hmem => hm d (mem_cons_of_mem _ hmem)) _ ?_
    intro kept hk
    unfold tryDepth at hk
    split at hk
    · next value hv =>
      split at hk
      · cases hk
        exact ⟨hd, hv⟩
      · exact hb kept hk
    · exact hb kept hk

theorem Within.bestDepth (h : Within rows maxRows candidates plan) (sequences : Nat) {index : Nat}
    (hc : candidates[index]? = some (some candidate)) (least : Nat) :
    Within rows maxRows candidates (bestDepth
      (fun plan => rate sequences rows candidates plan maxRows) plan index candidate.depth
      least).1 := by
  have hra : ∀ depth ∈ range' least (candidate.depth + 1 - least), depth ≤ candidate.depth := by
    intro depth hd
    rw [mem_range'_1] at hd
    omega
  have ht := tried (fun plan => rate sequences rows candidates plan maxRows) plan index _ hra
    none (fun kept hk => by cases hk)
  unfold Scheduler.bestDepth
  cases hb : (range' least (candidate.depth + 1 - least)).foldl
      (tryDepth (fun plan => rate sequences rows candidates plan maxRows) plan index) none with
  | none =>
    -- no depth has a rate, so the candidate's drafts are dropped
    exact ⟨allowed_set h.allowed hc (Nat.zero_le _),
      Nat.le_trans (Nat.add_le_add_left (sum_set_zero_le plan index) rows) h.fits⟩
  | some kept =>
    obtain ⟨hle, hr⟩ := ht kept hb
    have ha := allowed_set h.allowed hc hle
    exact ⟨ha, fits_of_rate ha hr⟩

theorem mem_draftOrder {item : Nat × Candidate F} (h : item ∈ draftOrder candidates) :
    candidates[item.1]? = some (some item.2) := by
  obtain ⟨⟨slot, index⟩, hm, hi⟩ := mem_filterMap.mp ((mergeSort_perm _ _).subset h)
  cases slot with
  | none => cases hi
  | some =>
    simp only [Option.bind_some, Option.ite_none_right_eq_some, Option.some.injEq] at hi
    obtain ⟨_, rfl⟩ := hi
    exact mem_zipIdx_iff_getElem?.mp hm

/-- Both the plan and the best one so far stay within the pass. -/
theorem addDrafts_within {order : List (Nat × Candidate F)}
    (ho : ∀ item ∈ order, candidates[item.1]? = some (some item.2))
    {s : List Nat × F × List Nat} (hp : Within rows maxRows candidates s.1)
    (hb : Within rows maxRows candidates s.2.2) : Within rows maxRows candidates (order.foldl
      (addDrafts fun plan => rate sequences rows candidates plan maxRows) s).2.2 := by
  induction order generalizing s with
  | nil => exact hb
  | cons item order ih =>
    have hn := hp.bestDepth sequences (ho item (mem_cons_self ..)) 1
    have hr := fun i hi => ho i (mem_cons_of_mem _ hi)
    rw [foldl_cons]
    unfold addDrafts
    dsimp only
    split
    · split
      · exact ih hr hn hn
      · exact ih hr hn hb
    · exact ih hr hn hb

theorem revise_within {order : List (Nat × Candidate F)}
    (ho : ∀ item ∈ order, candidates[item.1]? = some (some item.2))
    (h : Within rows maxRows candidates plan) : Within rows maxRows candidates
      (revise (fun plan => rate sequences rows candidates plan maxRows) order plan) := by
  induction order generalizing plan with
  | nil => exact h
  | cons item order ih =>
    exact ih (fun i hi => ho i (mem_cons_of_mem _ hi))
      (h.bestDepth _ (ho item (mem_cons_self ..)) 0)

theorem choose_fits (sequences : Nat) (candidates : List (Option (Candidate F)))
    (h : rows ≤ maxRows) :
    Within rows maxRows candidates (choose sequences rows candidates maxRows) := by
  have hz : Within rows maxRows candidates (replicate candidates.length 0) :=
    ⟨allowed_zero candidates, by simpa using h⟩
  have ho : ∀ item ∈ draftOrder candidates, candidates[item.1]? = some (some item.2) :=
    fun item hi => mem_draftOrder hi
  exact revise_within ho (revise_within ho (addDrafts_within ho hz hz))

/-- A prompt's chunk leaves room for itself. -/
theorem foldRows_le {prefill : PromptPrefill} {promptLen seeds maxBatchRows maxPrefillFold : Nat}
    {cancelled : Bool} (h : seeds ≤ maxBatchRows) :
    seeds + (foldRows prefill promptLen seeds maxBatchRows maxPrefillFold cancelled).getD 0 ≤
      maxBatchRows := by
  unfold foldRows
  split
  · exact h
  split
  · exact h
  dsimp only
  split
  · rw [Option.getD_some]
    omega
  · exact h

/-- Every candidate drafts at most its depth, an absent one nothing, and the rows and the drafts
fit the pass; so does a step with a prompt's chunk in it. -/
theorem choose_within {F : Type} [Floats F] (candidates : List (Option (Candidate F))) :
    (∀ sequences rows maxRows, rows ≤ maxRows →
      List.Forall₂ Allows candidates (choose sequences rows candidates maxRows) ∧
      rows + (choose sequences rows candidates maxRows).sum ≤ maxRows) ∧
    ∀ prefill promptLen maxBatchRows maxPrefillFold cancelled, candidates.length ≤ maxBatchRows →
      passRows prefill promptLen maxBatchRows maxPrefillFold cancelled candidates ≤
        maxBatchRows := by
  refine ⟨fun sequences rows maxRows h => ?_, fun _ _ _ _ _ h => ?_⟩
  · have hf := choose_fits sequences candidates h
    exact ⟨hf.allowed, hf.fits⟩
  · exact (choose_fits _ candidates (foldRows_le h)).fits

end LocalAi.Scheduler
