import Mathlib.Data.List.Induction
import Mathlib.Order.Basic

/-!
# Interleaved prefill

A prompt is prefilled in segments of the engine's own and in chunks that ride in the decode
passes of other requests.  Both move one cursor, and on its way stand the milestones of the
prompt cache: the reusable boundary and the penultimate position.

* `planPrefill`, `PromptPrefill.plainRun`, `foldRows`: the plan and the chunks it allows.
* `advancePrompt`: a segment, in blocks that can be cancelled or fail.
* `Course`: a prefill that handles every milestone where it stands.
* `Exact`: a prefill on its course, and the effects that keep it there, whichever fails.
-/

namespace LocalAi.Engine

/-! ### The plan -/

structure ReuseBounds where
  lcp : Nat
  reusable : Nat
  snapshotReusable : Nat
  penultimate : Nat
  minimum : Nat

def ReuseBounds.new (lcp promptLen minimum : Nat) : ReuseBounds where
  lcp := lcp
  reusable := min lcp (promptLen - 1)
  snapshotReusable := promptLen - 1
  penultimate := promptLen - 1
  minimum := minimum

structure PromptPrefill where
  reused : Nat
  done : Nat
  boundary : Option Nat
  penultimate : Nat
  checkpointPenultimate : Bool
  penultimateReached : Bool
  /-- Where the pinned snapshot stands. -/
  snapshot : Option Nat
  persistedReusableBoundary : Bool

def planPrefill {Token : Type} (isEos : Token → Bool) (prompt : List Token) (bounds : ReuseBounds)
    (reused : Nat) : PromptPrefill :=
  let divergence := if bounds.minimum ≤ bounds.lcp ∧ reused < bounds.lcp ∧
    bounds.lcp ≤ bounds.penultimate then some bounds.lcp else none
  let systemBoundary := ((prompt.findIdx? isEos).map (· + 1)).filter fun position =>
    decide (bounds.minimum ≤ position) && decide (reused < position) &&
      decide (position ≤ bounds.penultimate)
  let boundary := divergence.or systemBoundary
  { reused, done := reused, boundary, penultimate := bounds.penultimate
    checkpointPenultimate := decide (boundary.getD reused < bounds.penultimate)
    penultimateReached := false, snapshot := none, persistedReusableBoundary := false }

namespace PromptPrefill

/-- Tokens that may be prefilled without reaching a milestone or the last token. -/
def plainRun (plan : PromptPrefill) (promptLen : Nat) : Nat :=
  if plan.boundary = some plan.done ∨
      (plan.done = plan.penultimate ∧ plan.penultimateReached = false) then 0
  else
    let target := match plan.boundary with
      | some boundary =>
        if plan.done < boundary then boundary
        else if plan.done < plan.penultimate then plan.penultimate else promptLen
      | none => if plan.done < plan.penultimate then plan.penultimate else promptLen
    min target (promptLen - 1) - plan.done

def advance (plan : PromptPrefill) (rows : Nat) : PromptPrefill :=
  { plan with done := plan.done + rows }

end PromptPrefill

def prefillFoldMin : Nat := 24

def prefillWholeDecoding : Nat := 128

def foldRows (plan : PromptPrefill) (promptLen seeds maxBatchRows maxPrefillFold : Nat)
    (cancelled : Bool) : Option Nat :=
  if promptLen - plan.reused ≤ prefillWholeDecoding ∨ cancelled then none
  else if plan.done = plan.reused then none
  else
    let run := plan.plainRun promptLen
    let chunk := (seeds + prefillFoldMin + 7) / 8 * 8 - seeds
    let limit := min maxBatchRows maxPrefillFold - seeds
    let rows := min (min chunk run) limit
    if 0 < rows then some rows else none

/-! ### The operations -/

inductive Milestone
  | boundary
  | penultimate
deriving DecidableEq

inductive PrefillEvent
  | handle (m : Milestone) (place : Nat)
  | checkpoint (place : Nat) (reusable : Bool)
  | persist (place : Nat)
  | pin (place : Nat)
  | rows (start stop : Nat) (folded : Bool)
  | finish (place : Nat)

structure Prefill where
  plan : PromptPrefill
  /-- The sequence's position in the model. -/
  position : Nat
  log : List PrefillEvent

def Prefill.record (s : Prefill) (event : PrefillEvent) : Prefill :=
  { s with log := s.log ++ [event] }

inductive Block
  | encoded
  | cancelled
  | failed

/-- What the model and the tiers of the cache answer during one call. -/
structure Answers where
  prefillRows : Nat
  prefillRows_pos : 0 < prefillRows
  /-- What becomes of the block at a position. -/
  block : Nat → Block
  maxPromptCheckpoints : Nat
  cachesSnapshots : Bool
  hostWouldKeep : Nat → Bool
  diskWouldKeep : Nat → Bool → Bool
  /-- Whether saving a checkpoint, a snapshot or a pin succeeds there. -/
  saves : PrefillEvent → Bool

inductive Outcome
  | complete
  | paused
  | failed
deriving DecidableEq

section Operations

variable (a : Answers)

def Prefill.save (s : Prefill) (event : PrefillEvent) : Prefill × Bool :=
  if a.saves event then (s.record event, true) else (s, false)

def savePromptCheckpoint (place : Nat) (reusable : Bool) (s : Prefill) : Prefill × Bool :=
  if a.maxPromptCheckpoints = 0 ∨ s.position ≠ place then (s, true)
  else s.save a (.checkpoint place reusable)

/-- The operator `?`: go on unless the effect failed. -/
def andThen (effect : Prefill × Bool) (next : Prefill → Prefill × Bool) : Prefill × Bool :=
  if effect.2 then next effect.1 else effect

def reachBoundary (s : Prefill) : Prefill × Bool :=
  let place := s.plan.done
  andThen (savePromptCheckpoint a place true
    { s.record (.handle .boundary place) with plan := { s.plan with boundary := none } }) fun s =>
  if a.cachesSnapshots then
    andThen (if a.hostWouldKeep place || a.diskWouldKeep place true then s.save a (.persist place)
      else (s, true)) fun s =>
    ({ s with plan := { s.plan with persistedReusableBoundary := true } }, true)
  else (s, true)

def reachPenultimate (s : Prefill) : Prefill × Bool :=
  let place := s.plan.done
  let s : Prefill :=
    { s.record (.handle .penultimate place) with plan := { s.plan with penultimateReached := true } }
  andThen (if s.plan.checkpointPenultimate ∧ 0 < a.maxPromptCheckpoints then
    savePromptCheckpoint a place false s else (s, true)) fun s =>
  let persistedHere := s.plan.persistedReusableBoundary && !s.plan.checkpointPenultimate
  if place ≠ 0 ∧ persistedHere = false ∧
      (a.hostWouldKeep place || a.diskWouldKeep place false) = true then
    andThen (s.save a (.pin place)) fun s =>
    ({ s with plan := { s.plan with snapshot := some place } }, true)
  else (s, true)

def finishPrompt (promptLen : Nat) (s : Prefill) : Prefill × Bool :=
  let s := s.record (.finish promptLen)
  if s.plan.checkpointPenultimate then (s, true) else savePromptCheckpoint a promptLen false s

def prefillBlocks : (fuel position stop : Nat) → Option Nat
  | 0, position, _ => some position
  | fuel + 1, position, stop =>
    if position < stop then
      match a.block position with
      | .encoded => prefillBlocks fuel (min (position + a.prefillRows) stop) stop
      | .cancelled => some position
      | .failed => none
    else some position

def settle (s : Prefill) : Prefill × Bool :=
  andThen (if s.plan.boundary = some s.plan.done then reachBoundary a s else (s, true)) fun s =>
  if s.plan.done = s.plan.penultimate ∧ s.plan.penultimateReached = false then reachPenultimate a s
  else (s, true)

def advanceLoop (promptLen : Nat) : (fuel : Nat) → Prefill → (budget : Nat) →
    Option (Prefill × Outcome)
  | 0, _, _ => none
  | fuel + 1, s, budget =>
    let settled := settle a s
    let s := settled.1
    if settled.2 = false then some (s, .failed)
    else if s.plan.done = promptLen then
      let finished := finishPrompt a promptLen s
      some (finished.1, if finished.2 then .complete else .failed)
    else if budget = 0 then some (s, .paused)
    else
      let target := match s.plan.boundary with
        | some boundary =>
          if s.plan.done < boundary then boundary
          else if s.plan.done < s.plan.penultimate then s.plan.penultimate else promptLen
        | none => if s.plan.done < s.plan.penultimate then s.plan.penultimate else promptLen
      let stop := min target (s.plan.done + budget)
      let before := s.position
      match prefillBlocks a (stop - s.plan.done) before (before + (stop - s.plan.done)) with
      | none => some (s, .failed)
      | some position =>
        let advanced := position - before
        let s : Prefill :=
          { s.record (.rows s.plan.done (s.plan.done + advanced) false) with
            plan := s.plan.advance advanced, position := position }
        if s.plan.done < stop then some (s, .paused)
        else advanceLoop promptLen fuel s (budget - advanced)

/-- `advance_prompt`: a round of the loop reaches a milestone or the end. -/
def advancePrompt (promptLen : Nat) (s : Prefill) (budget : Nat) : Option (Prefill × Outcome) :=
  advanceLoop a promptLen (promptLen - s.plan.done + 1) s budget

end Operations

/-- A chunk that rode in a batched pass. -/
def foldChunk (s : Prefill) (rows : Nat) : Prefill :=
  { s.record (.rows s.plan.done (s.plan.done + rows) true) with
    plan := s.plan.advance rows, position := s.position + rows }

/-! ### The course of a prefill -/

def PromptPrefill.place (plan : PromptPrefill) : Milestone → Option Nat
  | .boundary => plan.boundary
  | .penultimate => some plan.penultimate

def PrefillEvent.reach (done : Nat) : PrefillEvent → Nat
  | .rows _ stop _ => stop
  | _ => done

def reached (reused : Nat) (log : List PrefillEvent) : Nat := log.foldl PrefillEvent.reach reused

/-- What may happen at `done` after `log`: a milestone is handled at its place and for the first
time; rows never lead past a milestone that is not handled, and only a segment prefills the last
token; the end comes when everything is prefilled and handled. -/
def Fits (place : Milestone → Option Nat) (promptLen : Nat) (log : List PrefillEvent)
    (done : Nat) : PrefillEvent → Prop
  | .handle m p => p = done ∧ place m = some p ∧ ∀ q, .handle m q ∉ log
  | .checkpoint p _ | .persist p | .pin p => p = done
  | .rows start stop folded => start = done ∧ start ≤ stop ∧ stop ≤ promptLen ∧
      (folded = true → stop < promptLen) ∧ ∀ m p, place m = some p → stop ≤ p ∨ .handle m p ∈ log
  | .finish p => p = done ∧ p = promptLen ∧ ∀ m p, place m = some p → .handle m p ∈ log

inductive Course (place : Milestone → Option Nat) (promptLen reused : Nat) :
    List PrefillEvent → Nat → Prop
  | start : Course place promptLen reused [] reused
  | step {log : List PrefillEvent} {done : Nat} {event : PrefillEvent}
      (prior : Course place promptLen reused log done) (fits : Fits place promptLen log done event) :
      Course place promptLen reused (log ++ [event]) (event.reach done)

def PromptPrefill.owes (plan : PromptPrefill) : Milestone → Bool
  | .boundary => plan.boundary.isSome
  | .penultimate => !plan.penultimateReached

structure Exact (place : Milestone → Option Nat) (promptLen reused : Nat) (s : Prefill) : Prop where
  course : Course place promptLen reused s.log s.plan.done
  position : s.position = s.plan.done
  hpenultimate : place .penultimate = some s.plan.penultimate
  boundary : ∀ b, s.plan.boundary = some b → place .boundary = some b
  owed : ∀ m p, place m = some p → s.plan.owes m = true → s.plan.done ≤ p ∧ ∀ q, .handle m q ∉ s.log
  handled : ∀ m p, place m = some p → s.plan.owes m = false → .handle m p ∈ s.log

/-- The same plan, as far as milestones go. -/
structure PromptPrefill.Same (plan plan' : PromptPrefill) : Prop where
  done : plan'.done = plan.done
  boundary : plan'.boundary = plan.boundary
  penultimate : plan'.penultimate = plan.penultimate
  reached : plan'.penultimateReached = plan.penultimateReached

theorem PromptPrefill.Same.refl (plan : PromptPrefill) : plan.Same plan := ⟨rfl, rfl, rfl, rfl⟩

theorem PromptPrefill.Same.trans {plan plan' plan'' : PromptPrefill} (h : plan.Same plan')
    (h' : plan'.Same plan'') : plan.Same plan'' :=
  ⟨h'.done.trans h.done, h'.boundary.trans h.boundary, h'.penultimate.trans h.penultimate,
    h'.reached.trans h.reached⟩

theorem PromptPrefill.Same.owes {plan plan' : PromptPrefill} (h : plan.Same plan') (m : Milestone) :
    plan'.owes m = plan.owes m := by
  cases m with
  | boundary => simp only [PromptPrefill.owes, h.boundary]
  | penultimate => simp only [PromptPrefill.owes, h.reached]

def Settled (place : Milestone → Option Nat) (promptLen reused : Nat) (plan : PromptPrefill)
    (effect : Prefill × Bool) : Prop :=
  Exact place promptLen reused effect.1 ∧ plan.Same effect.1.plan

theorem Settled.andThen {place : Milestone → Option Nat} {promptLen reused : Nat}
    {plan : PromptPrefill} {effect : Prefill × Bool} {next : Prefill → Prefill × Bool}
    (h : Settled place promptLen reused plan effect)
    (hn : ∀ s, Exact place promptLen reused s → plan.Same s.plan →
      Settled place promptLen reused plan (next s)) :
    Settled place promptLen reused plan (andThen effect next) := by
  unfold Engine.andThen
  split
  · exact hn _ h.1 h.2
  · exact h

namespace Exact

variable {place : Milestone → Option Nat} {promptLen reused : Nat} {s : Prefill} {a : Answers}
  {plan : PromptPrefill}

theorem settled (h : Exact place promptLen reused s) (hs : plan.Same s.plan) (ok : Bool) :
    Settled place promptLen reused plan (s, ok) :=
  ⟨h, hs⟩

theorem record (h : Exact place promptLen reused s) {event : PrefillEvent}
    (hev : ∀ m p, event ≠ .handle m p)
    (hc : Course place promptLen reused (s.log ++ [event]) s.plan.done) :
    Exact place promptLen reused (s.record event) := by
  have hm : ∀ m p, .handle m p ∈ (s.record event).log ↔ .handle m p ∈ s.log := by
    intro m p
    show _ ∈ s.log ++ [event] ↔ _
    rw [List.mem_append, List.mem_singleton]
    exact ⟨fun h => h.resolve_right fun heq => hev m p heq.symm, .inl⟩
  refine ⟨hc, h.position, h.hpenultimate, h.boundary, ?_, ?_⟩
  · intro m p hp ho
    obtain ⟨hle, hn⟩ := h.owed m p hp ho
    exact ⟨hle, fun q hq => hn q ((hm m q).mp hq)⟩
  · intro m p hp ho
    exact (hm m p).mpr (h.handled m p hp ho)

theorem save (h : Exact place promptLen reused s) (hs : plan.Same s.plan) {event : PrefillEvent}
    (hev : ∀ m p, event ≠ .handle m p)
    (hc : Course place promptLen reused (s.log ++ [event]) s.plan.done) :
    Settled place promptLen reused plan (s.save a event) := by
  unfold Prefill.save
  split
  · exact (h.record hev hc).settled hs true
  · exact h.settled hs false

theorem savePromptCheckpoint (h : Exact place promptLen reused s) (hs : plan.Same s.plan)
    (reusable : Bool) :
    Settled place promptLen reused plan (savePromptCheckpoint a s.plan.done reusable s) := by
  unfold Engine.savePromptCheckpoint
  split
  · exact h.settled hs true
  · exact h.save hs (fun _ _ => PrefillEvent.noConfusion) (.step h.course rfl)

theorem same (h : Exact place promptLen reused s) (hs : s.plan.Same plan) :
    Exact place promptLen reused { s with plan := plan } := by
  refine ⟨?_, ?_, ?_, ?_, ?_, ?_⟩
  · show Course _ _ _ s.log plan.done
    rw [hs.done]
    exact h.course
  · show s.position = plan.done
    rw [hs.done]
    exact h.position
  · show _ = some plan.penultimate
    rw [hs.penultimate]
    exact h.hpenultimate
  · show ∀ b, plan.boundary = some b → _
    rw [hs.boundary]
    exact h.boundary
  · intro m p hp hm
    rw [hs.owes] at hm
    rw [hs.done]
    exact h.owed m p hp hm
  · intro m p hp hm
    rw [hs.owes] at hm
    exact h.handled m p hp hm

theorem handle (h : Exact place promptLen reused s) {m : Milestone}
    (hpl : place m = some s.plan.done) (hm : s.plan.owes m = true)
    (hd : plan.done = s.plan.done) (hpenultimate : plan.penultimate = s.plan.penultimate)
    (hbd : ∀ b, plan.boundary = some b → s.plan.boundary = some b)
    (ho : ∀ n, plan.owes n = if n = m then false else s.plan.owes n) :
    Exact place promptLen reused { s.record (.handle m s.plan.done) with plan := plan } := by
  have hnew := (h.owed m _ hpl hm).2
  have hmem : ∀ n p, .handle n p ∈ s.log ++ [.handle m s.plan.done] ↔
      .handle n p ∈ s.log ∨ n = m ∧ p = s.plan.done := by
    intro n p
    simp
  refine ⟨?_, ?_, ?_, fun b hb => h.boundary b (hbd b hb), ?_, ?_⟩
  · show Course _ _ _ (s.log ++ [_]) plan.done
    rw [hd]
    exact .step h.course ⟨rfl, hpl, hnew⟩
  · show s.position = plan.done
    rw [hd]
    exact h.position
  · show _ = some plan.penultimate
    rw [hpenultimate]
    exact h.hpenultimate
  · intro n p hn hp
    rw [ho] at hp
    split at hp
    · cases hp
    · next hne =>
      obtain ⟨hle, hno⟩ := h.owed n p hn hp
      refine ⟨by rw [← hd] at hle; exact hle, fun q hq => ?_⟩
      rcases (hmem n q).mp hq with hold | ⟨heq, _⟩
      · exact hno q hold
      · exact hne heq
  · intro n p hn hp
    rw [ho] at hp
    refine (hmem n p).mpr ?_
    split at hp
    · next heq =>
      subst heq
      rw [hpl] at hn
      exact .inr ⟨rfl, (Option.some.inj hn).symm⟩
    · exact .inl (h.handled n p hn hp)

theorem rows (h : Exact place promptLen reused s) (count : Nat) (folded : Bool)
    (hl : s.plan.done + count ≤ promptLen) (hf : folded = true → s.plan.done + count < promptLen)
    (hc : ∀ m p, place m = some p → s.plan.owes m = true → s.plan.done + count ≤ p) :
    Exact place promptLen reused { s.record (.rows s.plan.done (s.plan.done + count) folded) with
        plan := s.plan.advance count, position := s.position + count } := by
  have hmem : ∀ m p, .handle m p ∈ s.log ++ [.rows s.plan.done (s.plan.done + count) folded] ↔
      .handle m p ∈ s.log := by
    intro m p
    simp
  have ho : ∀ m, (s.plan.advance count).owes m = s.plan.owes m := fun m => by cases m <;> rfl
  refine ⟨?_, ?_, h.hpenultimate, h.boundary, ?_, ?_⟩
  · refine .step h.course ⟨rfl, Nat.le_add_right _ _, hl, hf, fun m p hp => ?_⟩
    by_cases hm : s.plan.owes m = true
    · exact .inl (hc m p hp hm)
    · exact .inr (h.handled m p hp (Bool.not_eq_true _ ▸ hm))
  · show s.position + count = s.plan.done + count
    rw [h.position]
  · intro m p hp hm
    rw [ho] at hm
    exact ⟨hc m p hp hm, fun q hq => (h.owed m p hp hm).2 q ((hmem m q).mp hq)⟩
  · intro m p hp hm
    rw [ho] at hm
    exact (hmem m p).mpr (h.handled m p hp hm)

theorem reachBoundary (h : Exact place promptLen reused s)
    (hat : s.plan.boundary = some s.plan.done) :
    Settled place promptLen reused { s.plan with boundary := none } (reachBoundary a s) := by
  have hst : Exact place promptLen reused
      { s.record (.handle .boundary s.plan.done) with plan := { s.plan with boundary := none } } :=
    h.handle (h.boundary _ hat) (by simp [PromptPrefill.owes, hat]) rfl rfl
      (fun b hb => by cases hb) fun n => by cases n <;> rfl
  refine (hst.savePromptCheckpoint (.refl _) true).andThen fun next hn hs => ?_
  have hd : s.plan.done = next.plan.done := hs.done.symm
  split
  · have hp : Settled place promptLen reused { s.plan with boundary := none }
        (if a.hostWouldKeep s.plan.done || a.diskWouldKeep s.plan.done true then
          next.save a (.persist s.plan.done) else (next, true)) := by
      split
      · rw [hd]
        exact hn.save hs (fun _ _ => PrefillEvent.noConfusion) (.step hn.course rfl)
      · exact hn.settled hs true
    refine hp.andThen fun last hl hs => ?_
    have hnew : last.plan.Same { last.plan with persistedReusableBoundary := true } :=
      ⟨rfl, rfl, rfl, rfl⟩
    exact (hl.same hnew).settled (hs.trans hnew) true
  · exact hn.settled hs true

theorem reachPenultimate (h : Exact place promptLen reused s)
    (hat : s.plan.done = s.plan.penultimate) (ho : s.plan.penultimateReached = false) :
    Settled place promptLen reused { s.plan with penultimateReached := true }
      (reachPenultimate a s) := by
  have hst : Exact place promptLen reused { s.record (.handle .penultimate s.plan.done) with
      plan := { s.plan with penultimateReached := true } } :=
    h.handle (by rw [h.hpenultimate, hat]) (by simp [PromptPrefill.owes, ho]) rfl rfl
      (fun b hb => hb) fun n => by cases n <;> rfl
  refine Settled.andThen ?_ fun next hn hs => ?_
  · split
    · exact hst.savePromptCheckpoint (.refl _) false
    · exact hst.settled (.refl _) true
  · have hd : s.plan.done = next.plan.done := hs.done.symm
    dsimp only
    split
    · refine Settled.andThen ?_ fun last hl hs => ?_
      · have hc : Course place promptLen reused (next.log ++ [.pin next.plan.done])
            next.plan.done := .step hn.course rfl
        have hp := hn.save (a := a) hs (fun _ _ => PrefillEvent.noConfusion) hc
        rwa [← hd] at hp
      · have hnew : last.plan.Same { last.plan with snapshot := some s.plan.done } :=
          ⟨rfl, rfl, rfl, rfl⟩
        exact (hl.same hnew).settled (hs.trans hnew) true
    · exact hn.settled hs true

end Exact

end LocalAi.Engine
