import LocalAi.Engine.Prefill
import LocalAi.Lib.System

/-!
# Milestones of an interleaved prefill

Segments and chunks compute the next place to stop at separately, and any of them may come next:
a segment can be cut short by its budget or a cancellation, a chunk by the room in its pass.

* `Exact.target`: the next place is past no milestone that is still owed.
* `milestones_never_skipped`: every interleaving.
-/

open List

namespace LocalAi.Engine

open LocalAi.Lib

/-! ### Segments and chunks -/

structure Places (place : Milestone → Option Nat) (promptLen : Nat) : Prop where
  penultimate : ∀ p, place .penultimate = some p → p + 1 = promptLen
  boundary : ∀ b, place .boundary = some b → b < promptLen

def PromptPrefill.target (plan : PromptPrefill) (promptLen : Nat) : Nat :=
  match plan.boundary with
  | some boundary =>
    if plan.done < boundary then boundary
    else if plan.done < plan.penultimate then plan.penultimate else promptLen
  | none => if plan.done < plan.penultimate then plan.penultimate else promptLen

section Course

variable {place : Milestone → Option Nat} {promptLen reused : Nat} {s : Prefill} {a : Answers}

theorem Course.done_le {log : List PrefillEvent} {done : Nat} (hr : reused ≤ promptLen)
    (h : Course place promptLen reused log done) : done ≤ promptLen := by
  induction h with
  | start => exact hr
  | @step log done event prior fits ih =>
    cases event with
    | rows => exact fits.2.2.1
    | _ => exact ih

theorem Course.fits {log : List PrefillEvent} {done : Nat}
    (h : Course place promptLen reused log done) :
    reached reused log = done ∧ ∀ before event after, log = before ++ event :: after →
      Fits place promptLen before (reached reused before) event := by
  induction h with
  | start => exact ⟨rfl, fun before event after heq => by cases before <;> cases heq⟩
  | @step log done last prior fits ih =>
    obtain ⟨hr, hf⟩ := ih
    have hl : reached reused (log ++ [last]) = last.reach done := by
      rw [← hr, reached, foldl_append]
      rfl
    refine ⟨hl, fun before event after heq => ?_⟩
    cases after using reverseRecOn with
    | nil =>
      obtain ⟨rfl, hev⟩ := append_inj' heq rfl
      cases hev
      rw [hr]
      exact fits
    | append_singleton after =>
      rw [← cons_append, ← append_assoc] at heq
      exact hf before event after (append_inj' heq rfl).1

theorem Exact.target (h : Exact place promptLen reused s) (hplaces : Places place promptLen)
    (hbd : s.plan.boundary ≠ some s.plan.done)
    (hpenultimate : s.plan.done = s.plan.penultimate → s.plan.penultimateReached = true) :
    s.plan.target promptLen ≤ promptLen ∧
      (s.plan.done < promptLen → s.plan.done < s.plan.target promptLen) ∧
      ∀ m p, place m = some p → s.plan.owes m = true → s.plan.target promptLen ≤ p := by
  have hla := hplaces.penultimate _ h.hpenultimate
  have ho : s.plan.penultimateReached = false → s.plan.done < s.plan.penultimate := by
    intro hr
    have hle := (h.owed .penultimate _ h.hpenultimate (by simp [PromptPrefill.owes, hr])).1
    have hne : s.plan.done ≠ s.plan.penultimate := fun heq => by
      rw [hpenultimate heq] at hr
      cases hr
    omega
  unfold PromptPrefill.target
  cases hplan : s.plan.boundary with
  | some b =>
    have hb := h.boundary b hplan
    have hlt : s.plan.done < b := by
      have hle := (h.owed .boundary b hb (by simp [PromptPrefill.owes, hplan])).1
      have hne : s.plan.done ≠ b := fun heq => hbd (by rw [hplan, heq])
      omega
    have hblt := hplaces.boundary b hb
    dsimp only
    rw [if_pos hlt]
    refine ⟨by omega, fun _ => hlt, fun m p hp _ => ?_⟩
    cases m with
    | boundary =>
      rw [hb] at hp
      cases hp
      exact Nat.le_refl _
    | penultimate =>
      have := hplaces.penultimate p hp
      omega
  | none =>
    have hn : s.plan.owes .boundary = false := by simp [PromptPrefill.owes, hplan]
    dsimp only
    by_cases hlt : s.plan.done < s.plan.penultimate
    · rw [if_pos hlt]
      refine ⟨by omega, fun _ => hlt, fun m p hp hm => ?_⟩
      cases m with
      | boundary =>
        rw [hn] at hm
        cases hm
      | penultimate =>
        rw [h.hpenultimate] at hp
        cases hp
        exact Nat.le_refl _
    · rw [if_neg hlt]
      refine ⟨Nat.le_refl _, fun h => h, fun m p hp hm => ?_⟩
      cases m with
      | boundary =>
        rw [hn] at hm
        cases hm
      | penultimate =>
        have hr : s.plan.penultimateReached = false := by
          simpa [PromptPrefill.owes] using hm
        exact absurd (ho hr) hlt

theorem Exact.foldChunk (h : Exact place promptLen reused s) (hpl : Places place promptLen)
    (he : s.plan.done < promptLen) {rows : Nat} (hr : rows ≤ s.plan.plainRun promptLen) :
    Exact place promptLen reused (foldChunk s rows) ∧ s.plan.done + rows < promptLen := by
  have hla := hpl.penultimate _ h.hpenultimate
  unfold PromptPrefill.plainRun at hr
  by_cases hat : s.plan.boundary = some s.plan.done ∨
      (s.plan.done = s.plan.penultimate ∧ s.plan.penultimateReached = false)
  · rw [if_pos hat] at hr
    have hz : rows = 0 := by omega
    subst hz
    -- at a milestone no row is prefilled
    exact ⟨h.rows 0 true (Nat.le_of_lt he) (fun _ => he) fun m p hp hm =>
      (h.owed m p hp hm).1, he⟩
  · rw [if_neg hat] at hr
    have hr : rows ≤ min (s.plan.target promptLen) (promptLen - 1) - s.plan.done := hr
    obtain ⟨hle, hlt, hc⟩ := h.target hpl (fun hb => hat (.inl hb)) fun heq => by
      by_contra hre
      exact hat (.inr ⟨heq, by simpa using hre⟩)
    have hah := hlt he
    refine ⟨h.rows rows true (by omega) (fun _ => by omega) fun m p hp hm => ?_, by omega⟩
    have := hc m p hp hm
    omega

theorem Exact.settle (h : Exact place promptLen reused s) :
    Exact place promptLen reused (settle a s).1 ∧ (settle a s).1.plan.done = s.plan.done ∧
      ((settle a s).2 = true → (settle a s).1.plan.boundary ≠ some s.plan.done ∧
        (s.plan.done = (settle a s).1.plan.penultimate →
          (settle a s).1.plan.penultimateReached = true)) := by
  have hfst : ∃ plan, Settled place promptLen reused plan
      (if s.plan.boundary = some s.plan.done then Engine.reachBoundary a s else (s, true)) ∧
      plan.done = s.plan.done ∧ plan.boundary ≠ some s.plan.done := by
    split
    · next hat => exact ⟨{ s.plan with boundary := none }, h.reachBoundary hat, rfl, by simp⟩
    · next hat => exact ⟨s.plan, h.settled (.refl _) true, rfl, hat⟩
  obtain ⟨plan, ⟨he, hs⟩, hd, hbd⟩ := hfst
  unfold Engine.settle Engine.andThen
  generalize (if s.plan.boundary = some s.plan.done then Engine.reachBoundary a s else (s, true)) =
    first at he hs ⊢
  have hc : first.1.plan.done = s.plan.done := hs.done.trans hd
  have hn : first.1.plan.boundary ≠ some s.plan.done := by
    rw [hs.boundary]
    exact hbd
  split
  · dsimp only
    split
    · next hat =>
      obtain ⟨he, hs⟩ := he.reachPenultimate (a := a) hat.1 hat.2
      refine ⟨he, hs.done.trans hc, fun _ => ⟨?_, fun _ => hs.reached⟩⟩
      rw [hs.boundary]
      exact hn
    · next hat =>
      refine ⟨he, hc, fun _ => ⟨hn, fun heq => ?_⟩⟩
      by_contra hr
      exact hat ⟨hc.trans heq, by simpa using hr⟩
  · next hf => exact ⟨he, hc, fun hok => absurd hok hf⟩

theorem Exact.finishPrompt (h : Exact place promptLen reused s) (hplaces : Places place promptLen)
    (hd : s.plan.done = promptLen) : Exact place promptLen reused (finishPrompt a promptLen s).1 ∧
      (finishPrompt a promptLen s).1.plan.done = promptLen ∧
      ∀ m p, place m = some p → .handle m p ∈ (finishPrompt a promptLen s).1.log := by
  have ha : ∀ m p, place m = some p → s.plan.owes m = false := by
    intro m p hp
    by_contra ho
    have hle := (h.owed m p hp (by simpa using ho)).1
    cases m with
    | boundary =>
      have := hplaces.boundary p hp
      omega
    | penultimate =>
      have := hplaces.penultimate p hp
      omega
  have hs : Settled place promptLen reused s.plan (Engine.finishPrompt a promptLen s) := by
    have hc : Course place promptLen reused (s.log ++ [.finish promptLen]) s.plan.done := by
      exact .step h.course ⟨hd.symm, rfl, fun m p hp =>
        h.handled m p hp (ha m p hp)⟩
    have hr := h.record (fun _ _ => PrefillEvent.noConfusion) hc
    unfold Engine.finishPrompt
    dsimp only
    split
    · exact hr.settled (.refl _) true
    · have hsa := hr.savePromptCheckpoint (a := a) (.refl _) false
      have hplan : (s.record (.finish promptLen)).plan.done = promptLen := hd
      rw [hplan] at hsa
      exact hsa
  refine ⟨hs.1, hs.2.done.trans hd, fun m p hp => ?_⟩
  refine hs.1.handled m p hp ?_
  rw [hs.2.owes]
  exact ha m p hp

theorem prefillBlocks_le {fuel position stop next : Nat} (hle : position ≤ stop)
    (h : prefillBlocks a fuel position stop = some next) : position ≤ next ∧ next ≤ stop := by
  induction fuel generalizing position with
  | zero =>
    cases h
    exact ⟨Nat.le_refl _, hle⟩
  | succ fuel ih =>
    rw [prefillBlocks] at h
    split at h
    · split at h
      · have := ih (Nat.min_le_right _ _) h
        omega
      · cases h
        exact ⟨Nat.le_refl _, hle⟩
      · cases h
    · cases h
      exact ⟨Nat.le_refl _, hle⟩

/-- Blocks that are encoded, and saves that succeed. -/
structure Answers.Sound (a : Answers) : Prop where
  encoded : ∀ position, a.block position = .encoded
  saves : ∀ event, a.saves event = true

section Sound

variable (ha : a.Sound)
include ha

theorem Answers.Sound.save (s : Prefill) (event : PrefillEvent) : (s.save a event).2 = true := by
  rw [Prefill.save, if_pos (ha.saves event)]

theorem Answers.Sound.savePromptCheckpoint (place : Nat) (reusable : Bool) (s : Prefill) :
    (savePromptCheckpoint a place reusable s).2 = true := by
  unfold Engine.savePromptCheckpoint
  split
  · rfl
  · exact ha.save _ _

omit ha in
theorem andThen_ok {effect : Prefill × Bool} {next : Prefill → Prefill × Bool}
    (he : effect.2 = true) (hn : ∀ s, (next s).2 = true) : (andThen effect next).2 = true := by
  rw [andThen, if_pos he]
  exact hn _

theorem Answers.Sound.settle (s : Prefill) : (settle a s).2 = true := by
  have hb : ∀ s, (reachBoundary a s).2 = true := fun s => by
    refine andThen_ok (ha.savePromptCheckpoint _ _ _) fun s => ?_
    split
    · refine andThen_ok ?_ fun s => rfl
      split
      · exact ha.save _ _
      · rfl
    · rfl
  have hp : ∀ s, (reachPenultimate a s).2 = true := fun s => by
    refine andThen_ok ?_ fun s => ?_
    · split
      · exact ha.savePromptCheckpoint _ _ _
      · rfl
    · dsimp only
      split
      · exact andThen_ok (ha.save _ _) fun s => rfl
      · rfl
  refine andThen_ok ?_ fun s => ?_
  · split
    · exact hb s
    · rfl
  · split
    · exact hp s
    · rfl

theorem Answers.Sound.finishPrompt (promptLen : Nat) (s : Prefill) :
    (finishPrompt a promptLen s).2 = true := by
  unfold Engine.finishPrompt
  dsimp only
  split
  · rfl
  · exact ha.savePromptCheckpoint _ _ _

theorem Answers.Sound.prefillBlocks {fuel position stop : Nat} (hle : position ≤ stop)
    (hf : stop - position ≤ fuel) : prefillBlocks a fuel position stop = some stop := by
  have hr := a.prefillRows_pos
  induction fuel generalizing position with
  | zero =>
    rw [Engine.prefillBlocks]
    exact congrArg some (by omega)
  | succ fuel ih =>
    rw [Engine.prefillBlocks, ha.encoded]
    split
    · exact ih (Nat.min_le_right _ _) (by omega)
    · exact congrArg some (by omega)

end Sound

/-- What a segment comes to when it may go up to `limit`. -/
structure Advanced (place : Milestone → Option Nat) (promptLen reused : Nat) (a : Answers)
    (limit : Nat) (out : Prefill × Outcome) : Prop where
  exact : Exact place promptLen reused out.1
  complete : out.2 = .complete → out.1.plan.done = promptLen
  paused : out.2 = .paused → out.1.plan.done < promptLen
  settled : out.2 ≠ .failed → ∀ m p, place m = some p → p ≤ out.1.plan.done →
    .handle m p ∈ out.1.log
  whole : a.Sound → out.2 ≠ .failed ∧ out.1.plan.done = limit

theorem Advanced.failed (h : Exact place promptLen reused s) {limit : Nat} (hf : ¬ a.Sound) :
    Advanced place promptLen reused a limit (s, .failed) :=
  ⟨h, nofun, nofun, fun hne => absurd rfl hne, fun ha => absurd ha hf⟩

theorem Advanced.stopped (h : Exact place promptLen reused s) (hlt : s.plan.done < promptLen)
    {limit : Nat} (ho : ∀ m p, place m = some p → s.plan.owes m = true → s.plan.done < p)
    (hw : a.Sound → s.plan.done = limit) :
    Advanced place promptLen reused a limit (s, .paused) := by
  refine ⟨h, nofun, fun _ => hlt, fun _ m p hp hle => ?_, fun ha => ⟨nofun, hw ha⟩⟩
  by_cases hm : s.plan.owes m = true
  · exact absurd hle (Nat.not_le.mpr (ho m p hp hm))
  · exact h.handled m p hp (Bool.not_eq_true _ ▸ hm)

theorem advanceLoop_succ (fuel budget : Nat) : advanceLoop a promptLen (fuel + 1) s budget =
    let settled := settle a s
    let s := settled.1
    if settled.2 = false then some (s, .failed)
    else if s.plan.done = promptLen then
      let finished := finishPrompt a promptLen s
      some (finished.1, if finished.2 then .complete else .failed)
    else if budget = 0 then some (s, .paused)
    else
      let stop := min (s.plan.target promptLen) (s.plan.done + budget)
      match prefillBlocks a (stop - s.plan.done) s.position (s.position + (stop - s.plan.done)) with
      | none => some (s, .failed)
      | some position =>
        let advanced := position - s.position
        let s : Prefill :=
          { s.record (.rows s.plan.done (s.plan.done + advanced) false) with
            plan := s.plan.advance advanced, position := position }
        if s.plan.done < stop then some (s, .paused)
        else advanceLoop a promptLen fuel s (budget - advanced) :=
  rfl

/-- **The loop ends** after a round for every token that is left, and one more. -/
theorem advanceLoop_ends (hplaces : Places place promptLen) (hre : reused ≤ promptLen)
    (n : Nat) (s : Prefill) (budget : Nat) (h : Exact place promptLen reused s)
    (hn : promptLen - s.plan.done ≤ n) :
    ∃ out, (∀ fuel, n < fuel → advanceLoop a promptLen fuel s budget = some out) ∧
      Advanced place promptLen reused a (min promptLen (s.plan.done + budget)) out := by
  induction n using Nat.strongRecOn generalizing s budget with
  | ind n ih =>
    -- every round takes one step of the fuel
    have hr : ∀ {out},
        (∀ fuel, n ≤ fuel → advanceLoop a promptLen (fuel + 1) s budget = some out) →
        ∀ fuel, n < fuel → advanceLoop a promptLen fuel s budget = some out := by
      intro out ho fuel hlt
      obtain ⟨rest, rfl⟩ : ∃ rest, fuel = rest + 1 := ⟨fuel - 1, by omega⟩
      exact ho rest (by omega)
    obtain ⟨he, hc, hs⟩ := h.settle (a := a)
    have hok := fun ha : a.Sound => ha.settle s
    generalize hse : settle a s = settled at he hc hs hok
    obtain ⟨next, ok⟩ := settled
    dsimp only at he hc hs hok
    cases ok with
    | false =>
      refine ⟨_, hr fun fuel _ => ?_, .failed he fun ha => nomatch hok ha⟩
      rw [advanceLoop_succ, hse]
      rfl
    | true =>
      obtain ⟨hbd, hpenultimate⟩ := hs rfl
      rw [← hc] at hbd hpenultimate ⊢
      have hle := he.course.done_le hre
      have hnot : ¬ (true = false) := by decide
      by_cases hend : next.plan.done = promptLen
      · obtain ⟨hfin, hd, hall⟩ := he.finishPrompt (a := a) hplaces hend
        refine ⟨((finishPrompt a promptLen next).1,
          if (finishPrompt a promptLen next).2 then .complete else .failed),
          hr fun fuel _ => ?_, hfin, fun _ => hd, fun hpa => ?_, fun _ m p hp _ => hall m p hp,
          fun ha => ⟨?_, ?_⟩⟩
        · rw [advanceLoop_succ, hse]
          rw [if_neg hnot, if_pos hend]
        · dsimp only at hpa
          split at hpa <;> cases hpa
        · rw [if_pos (ha.finishPrompt promptLen next)]
          exact nofun
        · show (finishPrompt a promptLen next).1.plan.done = _
          omega
      · obtain ⟨ht, hpast, hcl⟩ := he.target hplaces hbd hpenultimate
        have hpast := hpast (by omega)
        by_cases hb : budget = 0
        · refine ⟨_, hr fun fuel _ => ?_, .stopped he (by omega) (fun m p hp hm => ?_)
            fun _ => by omega⟩
          · rw [advanceLoop_succ, hse]
            rw [if_neg hnot, if_neg hend, if_pos hb]
          · exact Nat.lt_of_lt_of_le hpast (hcl m p hp hm)
        · set stop := min (next.plan.target promptLen) (next.plan.done + budget) with hstop
          have hwhole := fun ha : a.Sound =>
            ha.prefillBlocks (Nat.le_add_right next.position (stop - next.plan.done))
              (Nat.le_of_eq (Nat.add_sub_cancel_left _ _))
          cases hbl : prefillBlocks a (stop - next.plan.done) next.position
              (next.position + (stop - next.plan.done)) with
          | none =>
            refine ⟨_, hr fun fuel _ => ?_, .failed he fun ha => ?_⟩
            · rw [advanceLoop_succ, hse]
              dsimp only
              rw [if_neg hnot, if_neg hend, if_neg hb, ← hstop, hbl]
            · rw [hwhole ha] at hbl
              cases hbl
          | some position =>
            obtain ⟨hfst, hla⟩ := prefillBlocks_le (Nat.le_add_right _ _) hbl
            obtain ⟨count, rfl⟩ : ∃ count, position = next.position + count :=
              ⟨position - next.position, by omega⟩
            have hro := he.rows count false (by omega)
              (fun hf => by cases hf) fun m p hplace hm => by
                have := hcl m p hplace hm
                omega
            have hc : (next.plan.advance count).done = next.plan.done + count := rfl
            by_cases hstopped : next.plan.done + count < stop
            · refine ⟨_, hr fun fuel _ => ?_, .stopped hro ?_ (fun m p hp hm => ?_) fun ha => ?_⟩
              · rw [advanceLoop_succ, hse]
                dsimp only
                rw [if_neg hnot, if_neg hend, if_neg hb, ← hstop, hbl]
                dsimp only
                rw [Nat.add_sub_cancel_left, hc, if_pos hstopped]
              · show next.plan.done + count < promptLen
                omega
              · have ho : next.plan.owes m = true := by cases m <;> exact hm
                have := hcl m p hp ho
                show next.plan.done + count < p
                omega
              · -- a block that is not cancelled goes on to the stop
                have := Option.some.inj ((hwhole ha).symm.trans hbl)
                omega
            · have hl : promptLen - (next.plan.done + count) < n := by omega
              obtain ⟨out, ho, hadv⟩ := ih _ hl _ (budget - count) hro (Nat.le_refl _)
              refine ⟨out, hr fun fuel hfu => ?_, ?_⟩
              · rw [advanceLoop_succ, hse]
                dsimp only
                rw [if_neg hnot, if_neg hend, if_neg hb, ← hstop, hbl]
                dsimp only
                rw [Nat.add_sub_cancel_left, hc, if_neg hstopped]
                exact ho fuel (by omega)
              · have hsum : (next.plan.advance count).done + (budget - count) =
                    next.plan.done + budget := by omega
                rw [← hsum]
                exact hadv

end Course

/-! ### Interleavings -/

/-- A prefill, and whether its request has left it. -/
structure Interleaved where
  prefill : Prefill
  ended : Bool

inductive PrefillStep
  | segment (a : Answers) (budget : Nat)
  | chunk (rows : Nat)

/-- A prompt that is prefilled by segments and chunks in any order, until it is complete or fails. -/
def prefilling {Token : Type} (isEos : Token → Bool) (prompt : List Token) (bounds : ReuseBounds)
    (restored : Nat) : System Interleaved PrefillStep where
  start := fun s => s = ⟨⟨planPrefill isEos prompt bounds restored, restored, []⟩, false⟩
  step := fun s step t => s.ended = false ∧ match step with
    | .segment a budget => ∃ out, advancePrompt a prompt.length s.prefill budget = some out ∧
        t = ⟨out.1, decide (out.2 ≠ .paused)⟩
    | .chunk rows => rows ≤ s.prefill.plan.plainRun prompt.length ∧
        t = ⟨foldChunk s.prefill rows, false⟩

section Runs

variable {Token : Type} {isEos : Token → Bool} {prompt : List Token} {lcp minimum restored : Nat}

/-- The boundary of a plan is behind the restored prefix and before the last token. -/
theorem planPrefill_boundary {bounds : ReuseBounds} {b : Nat}
    (h : (planPrefill isEos prompt bounds restored).boundary = some b) :
    restored < b ∧ b ≤ bounds.penultimate := by
  rcases Option.or_eq_some_iff.mp h with hd | ⟨_, hs⟩
  · split at hd
    · next hf =>
      cases hd
      exact hf.2
    · cases hd
  · have hf := (Option.filter_eq_some_iff.mp hs).2
    simp only [Bool.and_eq_true, decide_eq_true_eq] at hf
    exact ⟨hf.1.2, hf.2⟩

theorem planPrefill_places (hpr : prompt ≠ []) :
    Places (planPrefill isEos prompt (.new lcp prompt.length minimum) restored).place
      prompt.length := by
  have hlen := length_pos_iff.mpr hpr
  refine ⟨fun p hp => ?_, fun b hb => ?_⟩
  · cases hp
    show prompt.length - 1 + 1 = prompt.length
    omega
  · have hle : b ≤ prompt.length - 1 := (planPrefill_boundary hb).2
    omega

theorem planPrefill_exact
    (hr : restored ≤ (ReuseBounds.new lcp prompt.length minimum).snapshotReusable) :
    Exact (planPrefill isEos prompt (.new lcp prompt.length minimum) restored).place prompt.length
      restored ⟨planPrefill isEos prompt (.new lcp prompt.length minimum) restored, restored, []⟩ := by
  refine ⟨.start, rfl, rfl, fun b hb => hb, fun m p hp _ => ⟨?_, fun q => not_mem_nil⟩,
    fun m p hp hm => ?_⟩
  · cases m with
    | boundary => exact Nat.le_of_lt (planPrefill_boundary hp).1
    | penultimate =>
      cases hp
      exact hr
  · cases m with
    | boundary =>
      have hs : (planPrefill isEos prompt (.new lcp prompt.length minimum) restored).boundary =
          some p := hp
      rw [PromptPrefill.owes, hs] at hm
      cases hm
    | penultimate => cases hm

theorem prefilling_exact (hp : prompt ≠ [])
    (hr : restored ≤ (ReuseBounds.new lcp prompt.length minimum).snapshotReusable) {s : Interleaved}
    (h : (prefilling isEos prompt (.new lcp prompt.length minimum) restored).Reachable s) :
    Exact (planPrefill isEos prompt (.new lcp prompt.length minimum) restored).place prompt.length
        restored s.prefill ∧
      (s.ended = false → s.prefill.plan.done < prompt.length) := by
  have hlen := length_pos_iff.mpr hp
  have hla : restored ≤ prompt.length - 1 := hr
  have hpl : Places (planPrefill isEos prompt (.new lcp prompt.length minimum) restored).place
      prompt.length := planPrefill_places hp
  refine h.invariant (I := fun s => Exact
    (planPrefill isEos prompt (.new lcp prompt.length minimum) restored).place prompt.length restored
      s.prefill ∧ (s.ended = false → s.prefill.plan.done < prompt.length)) ?_ ?_
  · rintro s rfl
    refine ⟨planPrefill_exact hr, fun _ => ?_⟩
    show restored < prompt.length
    omega
  · rintro s step t ⟨he, hrun⟩ ⟨hov, hs⟩
    cases step with
    | segment a budget =>
      obtain ⟨out, ho, rfl⟩ := hs
      obtain ⟨out', hen, ha⟩ := advanceLoop_ends (a := a) hpl (by omega) _ s.prefill
        budget he (Nat.le_refl _)
      have heq : out = out' := by
        have := hen _ (Nat.lt_succ_self _)
        rw [advancePrompt, this] at ho
        exact (Option.some.inj ho).symm
      subst heq
      exact ⟨ha.exact, fun hpa => ha.paused (by simpa using hpa)⟩
    | chunk =>
      obtain ⟨hro, rfl⟩ := hs
      obtain ⟨hn, hlt⟩ := he.foldChunk hpl (hrun hov) hro
      exact ⟨hn, fun _ => hlt⟩

/-- **Milestones are never skipped**: in every interleaving of segments and chunks the cursor stays
in the prompt and every event fits what came before it; a segment ends, with every milestone up to
the cursor handled unless it fails, and it reports the prompt complete just when all of it is
prefilled; with no cancellation or failure it prefills all its budget allows. -/
theorem milestones_never_skipped (hprompt : prompt ≠ [])
    (hrestored : restored ≤ (ReuseBounds.new lcp prompt.length minimum).snapshotReusable)
    {s : Interleaved}
    (h : (prefilling isEos prompt (.new lcp prompt.length minimum) restored).Reachable s) :
    let place := (planPrefill isEos prompt (.new lcp prompt.length minimum) restored).place
    s.prefill.plan.done ≤ prompt.length ∧
      reached restored s.prefill.log = s.prefill.plan.done ∧
      (∀ before event after, s.prefill.log = before ++ event :: after →
        Fits place prompt.length before (reached restored before) event) ∧
      (s.ended = false → ∀ a budget, ∃ out, (∀ fuel, prompt.length - s.prefill.plan.done < fuel →
          advanceLoop a prompt.length fuel s.prefill budget = some out) ∧
        (out.2 ≠ .failed → (out.2 = .complete ↔ out.1.plan.done = prompt.length) ∧
          ∀ m p, place m = some p → p ≤ out.1.plan.done → .handle m p ∈ out.1.log) ∧
        (out.2 = .complete → ∀ m p, place m = some p → .handle m p ∈ out.1.log) ∧
        (a.Sound → out.2 ≠ .failed ∧
          out.1.plan.done = min prompt.length (s.prefill.plan.done + budget))) := by
  intro place
  obtain ⟨he, _⟩ := prefilling_exact hprompt hrestored h
  have hl : restored ≤ prompt.length - 1 := hrestored
  have hr : restored ≤ prompt.length := by omega
  have hplaces : Places place prompt.length := planPrefill_places hprompt
  obtain ⟨hreach, hf⟩ := he.course.fits
  refine ⟨he.course.done_le hr, hreach, hf, fun _ a budget => ?_⟩
  obtain ⟨out, hen, ha⟩ := advanceLoop_ends (a := a) hplaces hr _ s.prefill budget he
    (Nat.le_refl _)
  refine ⟨out, hen, fun hfa => ⟨⟨ha.complete, fun hd => ?_⟩, ha.settled hfa⟩, fun hc m p hp => ?_,
    ha.whole⟩
  · cases ho : out.2 with
    | complete => rfl
    | paused =>
      have := ha.paused ho
      omega
    | failed => exact absurd ho hfa
  · have hd := ha.complete hc
    refine ha.settled (by rw [hc]; exact nofun) m p hp ?_
    cases m with
    | boundary =>
      have := hplaces.boundary p hp
      omega
    | penultimate =>
      have := hplaces.penultimate p hp
      omega

end Runs

/-- A prompt of five tokens whose second one ends the system turn, after a chunk to that boundary. -/
def chunked : Interleaved :=
  ⟨foldChunk ⟨planPrefill (fun token => token == 2) [1, 2, 3, 4, 5] (.new 0 5 1) 0, 0, []⟩ 2, false⟩

theorem chunked_exact : chunked.prefill.plan.done ≤ 5 ∧
    (∀ before event after, chunked.prefill.log = before ++ event :: after →
      Fits (planPrefill (fun token => token == 2) [1, 2, 3, 4, 5] (.new 0 5 1) 0).place 5 before
        (reached 0 before) event) ∧ ∀ a : Answers, a.Sound → ∀ budget, ∃ out, (∀ fuel, 3 < fuel →
      advanceLoop a 5 fuel chunked.prefill budget = some out) ∧
      out.1.plan.done = min 5 (2 + budget) ∧ .handle .boundary 2 ∈ out.1.log ∧
      (3 ≤ budget → out.2 = .complete ∧ .handle .penultimate 4 ∈ out.1.log) := by
  have hr : (prefilling (fun token => token == 2) [1, 2, 3, 4, 5]
      (.new 0 [1, 2, 3, 4, 5].length 1) 0).Reachable chunked :=
    .step (a := .chunk 2) (.start rfl) ⟨rfl, by decide, rfl⟩
  obtain ⟨hd, _, hf, he⟩ := milestones_never_skipped (cons_ne_nil 1 [2, 3, 4, 5]) (Nat.zero_le _) hr
  refine ⟨hd, hf, fun a ha budget => ?_⟩
  obtain ⟨out, ho, hs, _, hw⟩ := he rfl a budget
  obtain ⟨hne, hdone⟩ := hw ha
  obtain ⟨hc, hh⟩ := hs hne
  have hdone : out.1.plan.done = min 5 (2 + budget) := hdone
  refine ⟨out, ho, hdone, hh .boundary 2 rfl (by omega), fun hb => ⟨hc.mpr ?_, ?_⟩⟩
  · show out.1.plan.done = 5
    omega
  · exact hh .penultimate 4 rfl (by omega)

end LocalAi.Engine
