import LocalAi.ToolLoop.Bounded

/-!
# The loop over hosted tools keeps its bounds

What every round does (`Rounded`) adds up over the rounds of a report.

* `Respects`: an engine that keeps to its requests.
* `Ready`: the bounds at the start of each generation.
* `Kept`: the bounds, of a report; `run_kept`: the loop ends and keeps them.
-/

open List

namespace LocalAi.ToolLoop.Driver

open Responses (Hosted ToolOutput)

variable {L D : Type}

/-! ### What is said of a report -/

/-- The engine keeps to `max_tokens`, measures what it generated, and makes no call when none
may be made. -/
structure Respects (world : World L D) : Prop where
  within : ∀ number request, (world.engine number request).generated ≤ request.maxTokens
  finished : ∀ number request stats, (world.engine number request).ended = .finished stats →
    stats.generatedTokens = (world.engine number request).generated
  drained : ∀ number request stats, (world.engine number request).drained = some stats →
    stats.generatedTokens = (world.engine number request).generated
  silent : ∀ number request, request.toolChoice = .none →
    ∀ call, .event (.toolCall call) ∉ (world.engine number request).signals

def Report.effects (report : Report L D) : List Effect := report.rounds.flatMap Round.effects

def Report.outputs (report : Report L D) : List ToolOutput := report.rounds.flatMap Round.outputs

def Report.executed (report : Report L D) : List ToolCall :=
  report.rounds.flatMap Round.executed

/-- The measurements of the rounds that reported any. -/
def Report.reported (report : Report L D) : List Stats :=
  report.rounds.filterMap fun round => round.forwarded.reported

/-- The generations that run a call or answer one: the first answers none. -/
def Report.working (report : Report L D) : List (Round L D) :=
  match report.rounds with
  | [] => []
  | first :: rest => if first.executed.isEmpty then rest else first :: rest

/-! ### Runs -/

section Runs

variable (config : Config D) (world : World L D) (printed : CallId → Text)

inductive Reports : Nat → State D → Report L D → Prop
  | ends {number : Nat} {state : State D} {done : Round L D} {spent : Spent}
      {ended : Option Ended}
      (h : round config world printed number state = (done, .ends spent ended)) :
      Reports number state ⟨[done], spent, ended⟩
  | again {number : Nat} {state resumed : State D} {done : Round L D} {report : Report L D}
      (h : round config world printed number state = (done, .again resumed))
      (later : Reports (number + 1) resumed report) :
      Reports number state { report with rounds := done :: report.rounds }

variable {number : Nat} {state : State D} {done : Round L D}

theorem rounds_reports {fuel : Nat} {report : Report L D}
    (h : rounds config world printed fuel number state = some report) :
    Reports config world printed number state report := by
  induction fuel generalizing number state report with
  | zero => cases h
  | succ fuel ih =>
    rw [rounds] at h
    split at h
    case h_1 done spent ended hr =>
      cases h
      exact .ends hr
    case h_2 done resumed hr =>
      obtain ⟨later, hl, rfl⟩ := Option.map_eq_some_iff.mp h
      exact .again hr (ih hl)

structure Ready (number : Nat) (state : State D) : Prop where
  rounds : state.calls.spent.rounds = number
  left : state.calls.spent.generated + state.request.maxTokens = config.request.maxTokens
  choice : 0 < number → exhausted config state.calls.spent = true → state.request.toolChoice = .none
  within : ∀ most, config.toolLoop.maxCalls = some most → state.calls.spent.calls ≤ most

theorem ready_start : Ready config 0 (start config world) where
  rounds := rfl
  left := Nat.zero_add _
  choice := fun h => absurd h (Nat.lt_irrefl 0)
  within := fun _ _ => Nat.zero_le _

variable {config world printed}

variable {next : Next D}

theorem round_eq_rounded (h : round config world printed number state = (done, next)) :
    Rounded config world state done next := by
  have hr := round_rounded config world printed number state
  rwa [h] at hr

theorem round_eq_heard (h : round config world printed number state = (done, next)) :
    done.answer = world.engine number state.request ∧
      done.forwarded = (forward world (world.engine number state.request) .empty
        (world.engine number state.request).signals state.calls.sends).1 := by
  have hh := round_heard config world printed number state
  rwa [h] at hh

theorem round_generated (respects : Respects world)
    (h : round config world printed number state = (done, next))
    (hso : done.forwarded.reported ≠ none) :
    next.spent.generated = state.calls.spent.generated + done.answer.generated := by
  obtain ⟨ha, hf⟩ := round_eq_heard h
  obtain ⟨stats, hs⟩ := Option.ne_none_iff_exists'.mp hso
  have hm : stats.generatedTokens = done.answer.generated := by
    rw [hf] at hs
    rw [ha]
    rcases forward_reported world hs with he | hd
    · exact respects.finished _ _ _ he
    · exact respects.drained _ _ _ hd
  rw [Spent.generated_eq, Spent.generated_eq, (round_eq_rounded h).totals, hs]
  simp [Stats.count, hm]

theorem round_within (respects : Respects world) (ready : Ready config number state)
    (h : round config world printed number state = (done, next)) :
    state.calls.spent.generated + done.answer.generated ≤ config.request.maxTokens := by
  have hle := respects.within number state.request
  rw [← (round_eq_heard h).1] at hle
  have := ready.left
  omega

theorem Ready.again (respects : Respects world) {number : Nat} {state resumed : State D}
    {done : Round L D} (ready : Ready config number state)
    (h : round config world printed number state = (done, .again resumed)) :
    Ready config (number + 1) resumed := by
  obtain ⟨⟨turn, stats, ht, -⟩, -, hr, hl, hc⟩ := (round_eq_rounded h).again
  have hg := round_generated respects h (by rw [ht]; exact Option.some_ne_none _)
  have hw := round_within respects ready h
  refine ⟨?_, ?_, fun _ => hc, fun most hm => ?_⟩
  · rw [hr, ready.rounds]
  · rw [Next.spent] at hg
    rw [hl]
    omega
  · exact (round_eq_rounded h).within hm (ready.within most hm)

theorem round_not_again (respects : Respects world) {resumed : State D}
    (hn : state.request.toolChoice = .none) :
    round config world printed number state ≠ (done, .again resumed) := by
  intro h
  obtain ⟨⟨turn, stats, ht, hs⟩, -⟩ := (round_eq_rounded h).again
  have hc : turn.calls = [] :=
    forward_silent world (respects.silent number state.request hn)
      ((round_eq_heard h).2.symm.trans ht)
  apply hs
  rw [hostedCalls, hc]
  rfl

theorem Ready.again_number (respects : Respects world) {resumed : State D}
    (ready : Ready config number state)
    (h : round config world printed number state = (done, .again resumed)) :
    number + 1 ≤ max config.toolLoop.bounds.maxIterations 1 := by
  rcases Nat.eq_zero_or_pos number with rfl | hp
  · exact Nat.le_max_right _ _
  · by_contra ho
    have hr : config.toolLoop.bounds.maxIterations ≤ state.calls.spent.rounds := by
      rw [ready.rounds]
      omega
    exact round_not_again respects (ready.choice hp (exhausted_of_rounds config hr)) h

theorem rounds_total (respects : Respects world) {fuel number : Nat} {state : State D}
    (ready : Ready config number state) (hn : number ≤ max config.toolLoop.bounds.maxIterations 1)
    (hf : max config.toolLoop.bounds.maxIterations 1 + 1 ≤ number + fuel) :
    ∃ report, rounds config world printed fuel number state = some report := by
  induction fuel generalizing number state with
  | zero => omega
  | succ fuel ih =>
    rw [rounds]
    split
    · exact ⟨_, rfl⟩
    case h_2 done resumed hr =>
      obtain ⟨report, hre⟩ := ih (ready.again respects hr)
        (ready.again_number respects hr) (by omega)
      exact ⟨_, congrArg (Option.map _) hre⟩

theorem rounds_mono {fuel more : Nat} {report : Report L D}
    (h : rounds config world printed fuel number state = some report) (hle : fuel ≤ more) :
    rounds config world printed more number state = some report := by
  induction fuel generalizing more number state report with
  | zero => cases h
  | succ fuel ih =>
    obtain ⟨more, rfl⟩ : ∃ m, more = m + 1 := ⟨more - 1, by omega⟩
    rw [rounds] at h ⊢
    split at h
    case h_1 done spent ended hr => exact h
    case h_2 done resumed hr =>
      obtain ⟨later, hl, rfl⟩ := Option.map_eq_some_iff.mp h
      exact congrArg (Option.map _) (ih hl (by omega))

variable {number : Nat} {state : State D} {report : Report L D}

/-! Each of these follows the rounds of a report. -/

theorem Reports.length (respects : Respects world)
    (h : Reports config world printed number state report) (ready : Ready config number state)
    (hn : number ≤ max config.toolLoop.bounds.maxIterations 1) :
    number + report.rounds.length ≤ max config.toolLoop.bounds.maxIterations 1 + 1 := by
  induction h with
  | ends => exact Nat.succ_le_succ hn
  | again h later ih =>
    have hl := ih (ready.again respects h) (ready.again_number respects h)
    rw [length_cons]
    omega

theorem Reports.counted (h : Reports config world printed number state report) :
    report.spent.calls = state.calls.spent.calls + report.executed.length := by
  induction h with
  | ends h =>
    have hc := (round_eq_rounded h).counted
    simpa [Report.executed, Next.spent] using hc
  | again h later ih =>
    have hc := (round_eq_rounded h).counted
    rw [Next.spent] at hc
    rw [ih, hc, Report.executed, Report.executed, flatMap_cons, length_append, Nat.add_assoc]

theorem Reports.within (respects : Respects world)
    (h : Reports config world printed number state report) (ready : Ready config number state)
    {most : Nat} (hm : config.toolLoop.maxCalls = some most) : report.spent.calls ≤ most := by
  induction h with
  | ends h => exact (round_eq_rounded h).within hm (ready.within most hm)
  | again h later ih => exact ih (ready.again respects h)

theorem Reports.executed_eq_nil (respects : Respects world)
    (h : Reports config world printed number state report) (ready : Ready config number state)
    (hn : config.toolLoop.bounds.maxIterations ≤ number) : report.executed = [] := by
  induction h with
  | @ends number state done spent ended h =>
    have hd : done.executed = [] := by
      by_contra hs
      have hlt := (round_eq_rounded h).executes hs
      rw [ready.rounds] at hlt
      omega
    simp [Report.executed, hd]
  | @again number state resumed done report h later ih =>
    have hd : done.executed = [] := by
      by_contra hs
      have hlt := (round_eq_rounded h).executes hs
      rw [ready.rounds] at hlt
      omega
    have hl := ih (ready.again respects h) (by omega)
    rw [Report.executed, flatMap_cons, hd]
    exact hl

theorem Reports.tokens (respects : Respects world)
    (h : Reports config world printed number state report) (ready : Ready config number state) :
    state.calls.spent.generated + (report.rounds.map fun done => done.answer.generated).sum ≤
      config.request.maxTokens := by
  induction h with
  | ends h => simpa using round_within respects ready h
  | again h later ih =>
    obtain ⟨⟨turn, stats, ht, -⟩, -⟩ := (round_eq_rounded h).again
    have hg := round_generated respects h (by rw [ht]; exact Option.some_ne_none _)
    have hl := ih (ready.again respects h)
    rw [Next.spent] at hg
    rw [map_cons, sum_cons]
    omega

theorem Reports.totals (h : Reports config world printed number state report) (counter : Counter) :
    report.spent.total counter = state.calls.spent.total counter +
      (report.reported.map fun stats => stats.count counter).sum := by
  induction h with
  | @ends number state done spent ended h =>
    have ht := (round_eq_rounded h).totals counter
    rw [Next.spent] at ht
    rw [ht, Report.reported]
    cases hr : done.forwarded.reported <;> simp [hr]
  | @again number state resumed done report h later ih =>
    have ht := (round_eq_rounded h).totals counter
    rw [Next.spent] at ht
    rw [ih, ht, Report.reported, Report.reported]
    cases hr : done.forwarded.reported <;> simp [hr, Nat.add_assoc]

theorem Reports.usage (h : Reports config world printed number state report) :
    report.spent.usage = none ↔ state.calls.spent.usage = none ∧ report.reported = [] := by
  induction h with
  | @ends number state done spent ended h =>
    have hu := (round_eq_rounded h).usage
    rw [Next.spent] at hu
    rw [hu, Report.reported]
    cases hr : done.forwarded.reported <;> simp [hr]
  | @again number state resumed done report h later ih =>
    have hu := (round_eq_rounded h).usage
    rw [Next.spent] at hu
    rw [ih, hu, Report.reported, Report.reported, and_assoc]
    cases hr : done.forwarded.reported <;> simp [hr]

theorem Reports.finished (h : Reports config world printed number state report) {stats : Stats}
    (he : report.ended = some (.finished stats)) : report.spent.usage = some stats := by
  induction h with
  | ends h =>
    dsimp only at he
    rw [he] at h
    exact (round_eq_rounded h).finished rfl
  | again h later ih => exact ih he

theorem Reports.numbered (h : Reports config world printed number state report) :
    ∃ count, report.outputs.flatMap numbers = range' state.calls.marker count := by
  induction h with
  | ends h =>
    obtain ⟨count, hc, -⟩ := (round_eq_rounded h).numbered
    exact ⟨count, by simpa [Report.outputs] using hc⟩
  | again h later ih =>
    obtain ⟨count, hc, ha⟩ := (round_eq_rounded h).numbered
    obtain ⟨more, hm⟩ := ih
    refine ⟨count + more, ?_⟩
    rw [Report.outputs] at hm
    rw [Report.outputs, flatMap_cons, flatMap_append, hc, hm, ha _ rfl, range'_append_1]

theorem Reports.not_hooked (h : Reports config world printed number state report)
    (hn : state.hook = none) : ∀ effect ∈ report.effects, effect.isHooked = false := by
  have hr : ∀ {number : Nat} {state : State D} {done : Round L D} {next : Next D},
      round config world printed number state = (done, next) → state.hook = none →
      ∀ effect ∈ done.effects, effect.isHooked = false := by
    intro number state done next h hn
    rcases (round_eq_rounded h).hooks with ⟨hnil, -⟩ | ⟨error, hh, -⟩ | ⟨-, effects, hef, ha⟩
    · simp [hnil]
    · rw [hn] at hh
      cases hh
    · rw [hef, hn]
      exact ha
  induction h with
  | ends h =>
    intro effect he
    rw [Report.effects, flatMap_singleton] at he
    exact hr h hn effect he
  | again h later ih =>
    intro effect he
    rw [Report.effects, flatMap_cons] at he
    rcases mem_append.mp he with he | he
    · exact hr h hn effect he
    · exact ih (round_eq_rounded h).again.2.1 effect he

theorem Reports.hooks (h : Reports config world printed number state report) : report.effects = [] ∨
      ∃ effects, report.effects = state.hook.toList.map .hooked ++ effects ∧
        (∀ effect ∈ effects, effect.isHooked = false) ∧
        ∀ error, state.hook = some (.error error) → effects = [] := by
  cases h with
  | ends h =>
    rw [Report.effects, flatMap_singleton]
    rcases (round_eq_rounded h).hooks with ⟨hn, -⟩ | ⟨error, hh, he, -⟩ | ⟨hh, effects, he, ha⟩
    · exact .inl hn
    · refine .inr ⟨[], ?_, by simp, fun _ _ => rfl⟩
      rw [he, hh]
      rfl
    · exact .inr ⟨effects, he, ha, fun error herror => absurd herror (hh error)⟩
  | @again _ _ resumed done report h later =>
    right
    rcases (round_eq_rounded h).hooks with ⟨-, spent, ended, hen⟩ | ⟨error, -, -, spent, hen⟩ |
      ⟨hh, effects, he, ha⟩
    · cases hen
    · cases hen
    · have hl := later.not_hooked (round_eq_rounded h).again.2.1
      refine ⟨effects ++ report.effects, ?_, ?_, fun error herror => absurd herror (hh error)⟩
      · rw [Report.effects, flatMap_cons, he, append_assoc]
        rfl
      · intro effect heff
        rcases mem_append.mp heff with heff | heff
        · exact ha effect heff
        · exact hl effect heff

/-- A turn that ended has the outputs of its calls, in order; without them all it is the last
one: the hook failed, or the consumer cancelled or went away. -/
def Answered (config : Config D) (world : World L D) (hook : Option (Except Text Unit))
    (ended : Option Ended) (done : Round L D) (after : List (Round L D)) : Prop :=
  ∀ turn stats, done.forwarded = .finished turn stats → stats.stopReason = .eos →
    done.outputs.map answered = (hostedCalls config.toolLoop turn).map called ∨
    after = [] ∧
      ((∃ error, hook = some (.error error) ∧ done.effects = [.hooked (.error error)] ∧
          ended = some (.error error)) ∨
        ¬ Stays world ∧ ended = none ∧
          done.outputs.map answered <+: (hostedCalls config.toolLoop turn).map called)

theorem Reports.answers (h : Reports config world printed number state report)
    {before after : List (Round L D)} (hr : report.rounds = before ++ done :: after) :
    Answered config world state.hook report.ended done after := by
  induction h generalizing before with
  | ends h =>
    intro turn stats ht heos
    obtain ⟨rfl, rfl, rfl⟩ : before = [] ∧ _ = done ∧ [] = after := by
      cases before with
      | nil => simpa using hr
      | cons => simp at hr
    rcases (round_eq_rounded h).answers ht heos with ha | ⟨error, hh, hef, spent, he⟩ |
      ⟨hs, ⟨spent, he⟩, hp⟩
    · exact .inl ha
    · cases he
      exact .inr ⟨rfl, .inl ⟨error, hh, hef, rfl⟩⟩
    · cases he
      exact .inr ⟨rfl, .inr ⟨hs, rfl, hp⟩⟩
  | again h later ih =>
    cases before with
    | nil =>
      intro turn stats ht heos
      obtain ⟨rfl, rfl⟩ := cons.inj hr
      rcases (round_eq_rounded h).answers ht heos with ha | ⟨error, -, -, spent, he⟩ |
        ⟨-, ⟨spent, he⟩, -⟩
      · exact .inl ha
      · cases he
      · cases he
    | cons =>
      intro turn stats ht heos
      obtain ⟨rfl, hre⟩ := cons.inj hr
      rcases ih hre turn stats ht heos with ha | ⟨hl, ⟨error, hh, -⟩ | hle⟩
      · exact .inl ha
      · rw [(round_eq_rounded h).again.2.1] at hh
        cases hh
      · exact .inr ⟨hl, .inr hle⟩

end Runs

/-! ### The bounds -/

structure Kept (config : Config D) (world : World L D) (report : Report L D) : Prop where
  generations : report.rounds.length ≤ max config.toolLoop.bounds.maxIterations 1 + 1
  working : report.working.length ≤ config.toolLoop.bounds.maxIterations + 1
  calls : ∀ most, config.toolLoop.maxCalls = some most → report.executed.length ≤ most
  tokens : (report.rounds.map fun done => done.answer.generated).sum ≤ config.request.maxTokens
  hookedOnce : (report.effects.filter Effect.isHooked).length ≤ 1
  hookedFirst : ∀ before call after, report.effects = before ++ .executed call :: after →
    ∀ hook, world.beforeTools = some hook → hook = .ok () ∧ .hooked (.ok ()) ∈ before
  answers : ∀ before done after, report.rounds = before ++ done :: after →
    Answered config world world.beforeTools report.ended done after
  numbered : (report.outputs.flatMap numbers).Nodup
  usage : ∀ usage, report.spent.usage = some usage →
    ∀ counter, usage.count counter = (report.reported.map fun stats => stats.count counter).sum
  unused : report.spent.usage = none ↔ report.reported = []
  finished : ∀ stats, report.ended = some (.finished stats) → report.spent.usage = some stats

section Kept

variable {config : Config D} {world : World L D} {printed : CallId → Text} {report : Report L D}

theorem Reports.working (respects : Respects world)
    (h : Reports config world printed 0 (start config world) report) :
    report.working.length ≤ config.toolLoop.bounds.maxIterations + 1 := by
  have ready := ready_start config world
  have hlen := h.length respects ready (Nat.zero_le _)
  have hle : report.working.length ≤ report.rounds.length := by
    unfold Report.working
    split
    · exact Nat.zero_le _
    case h_2 first rest heq =>
      rw [heq]
      split
      · exact Nat.le_succ _
      · exact le_rfl
  rcases Nat.eq_zero_or_pos config.toolLoop.bounds.maxIterations with hz | hp
  · -- no call is executed, so the first generation does not count
    have hn := h.executed_eq_nil respects ready (by omega)
    rw [Report.executed] at hn
    unfold Report.working
    split
    · exact Nat.zero_le _
    case h_2 first rest heq =>
      rw [heq, flatMap_cons] at hn
      rw [heq, length_cons] at hlen
      rw [(append_eq_nil_iff.mp hn).1]
      simp only [isEmpty_nil, if_true]
      omega
  · omega

theorem Reports.hookedOnce (h : Reports config world printed 0 (start config world) report) :
    (report.effects.filter Effect.isHooked).length ≤ 1 := by
  rcases h.hooks with hnil | ⟨effects, he, ha, -⟩
  · simp [hnil]
  · have hn : effects.filter Effect.isHooked = [] := by
      rw [filter_eq_nil_iff]
      intro effect heff
      simp [ha effect heff]
    rw [he, filter_append, hn, List.append_nil]
    cases (start config world).hook with
    | none => exact Nat.zero_le _
    | some => exact le_rfl

theorem Reports.hookedFirst (h : Reports config world printed 0 (start config world) report)
    {before after : List Effect} {call : ToolCall}
    (hc : report.effects = before ++ .executed call :: after) {hook : Except Text Unit}
    (hh : world.beforeTools = some hook) : hook = .ok () ∧ .hooked (.ok ()) ∈ before := by
  have hst : (start config world).hook = some hook := hh
  rcases h.hooks with hn | ⟨effects, he, ha, hf⟩
  · simp [hn] at hc
  · rw [hst] at he hf
    have hs : .hooked hook :: effects = before ++ .executed call :: after := by
      rw [← hc, he]
      rfl
    cases before with
    | nil => cases (cons.inj hs).1
    | cons =>
      obtain ⟨rfl, hr⟩ := cons.inj hs
      cases hook with
      | error error =>
        rw [hf error rfl] at hr
        simp at hr
      | ok => exact ⟨rfl, mem_cons_self ..⟩

theorem Reports.kept (respects : Respects world)
    (h : Reports config world printed 0 (start config world) report) :
    Kept config world report where
  generations := by
    have hl := h.length respects (ready_start config world) (Nat.zero_le _)
    rwa [Nat.zero_add] at hl
  working := h.working respects
  calls := by
    intro most hm
    have hw := h.within respects (ready_start config world) hm
    have hc := h.counted
    have hz : (start config world).calls.spent.calls = 0 := rfl
    omega
  tokens := by
    have hto := h.tokens respects (ready_start config world)
    have hz : (start config world).calls.spent.generated = 0 := rfl
    omega
  hookedOnce := h.hookedOnce
  hookedFirst := fun _ _ _ hca _ hh => h.hookedFirst hca hh
  answers := fun _ _ _ hr => h.answers hr
  numbered := by
    obtain ⟨count, hcnt⟩ := h.numbered
    rw [hcnt]
    exact nodup_range'
  usage := by
    intro usage hu counter
    have ht := h.totals counter
    have hz : (start config world).calls.spent.total counter = 0 := rfl
    rw [hz, Nat.zero_add, Spent.total, hu] at ht
    exact ht
  unused := by
    rw [h.usage]
    exact and_iff_right rfl
  finished := fun _ he => h.finished he

end Kept

/-- For every engine that keeps to its requests, whatever the tools and the consumer do, the
loop ends and keeps its bounds. -/
theorem run_kept (config : Config D) (world : World L D) (printed : CallId → Text)
    (respects : Respects world) : ∃ report,
      (∀ fuel, max config.toolLoop.bounds.maxIterations 1 + 1 ≤ fuel →
        run config world printed fuel = some report) ∧
      Kept config world report := by
  obtain ⟨report, hr⟩ := @rounds_total L D config world printed respects _ 0 _
    (ready_start config world) (Nat.zero_le _) (by rw [Nat.zero_add])
  exact ⟨report, fun fuel hf => rounds_mono hr hf,
    (rounds_reports config world printed hr).kept respects⟩

/-! ### A loop with one tool -/

def readCall : ToolCall := ⟨1, "local_fs_read".toList, .object []⟩

def readLoop : Loop where
  kinds := ⟨fun _ => .hosted .read, fun _ => none⟩
  bounds := ⟨2, 60⟩
  maxCalls := some 5
  maxTokens := 100
  denied := fun _ => "not run".toList
  request := fun _ _ => .ok ()

def readConfig : Config Unit := ⟨readLoop, 30, false, ⟨[], 100, .auto⟩⟩

def readStats (generated : Nat) : Stats := ⟨8, 0, generated, 0, .eos, .none, none, none⟩

/-- An engine that calls the tool whenever it may. -/
def readAnswer (request : Request Unit) : Answer Unit where
  signals := if request.toolChoice = .none then [] else [.progress, .event (.toolCall readCall)]
  ended := .finished (readStats (min 10 request.maxTokens))
  drained := none
  generated := min 10 request.maxTokens

def readWorld (hook : Option (Except Text Unit)) : World Unit Unit where
  engine := fun _ request => readAnswer request
  delivers := fun _ => true
  tool := fun _ _ _ => ⟨5, some (.ok ⟨"text".toList, []⟩)⟩
  search := fun _ _ _ => ⟨5, some (.ok ⟨[], fun _ => []⟩)⟩
  cancelled := fun _ => false
  refused := fun _ => none
  beforeTools := hook

theorem readWorld_respects (hook : Option (Except Text Unit)) : Respects (readWorld hook) where
  within := fun _ _ => Nat.min_le_right _ _
  finished := by
    intro number request stats h
    cases h
    rfl
  drained := fun _ _ _ h => (by cases h)
  silent := by
    intro number request hn call
    simp [readWorld, readAnswer, hn]

/-- The call is run in two rounds, and the third generation may make none. -/
theorem read_kept : Respects (readWorld (some (.ok ()))) ∧
    ∃ report, run readConfig (readWorld (some (.ok ()))) (fun _ => []) 3 = some report ∧
      report.rounds.length = 3 ∧ report.executed.length = 2 ∧
      Kept readConfig (readWorld (some (.ok ()))) report := by
  refine ⟨readWorld_respects _, ?_⟩
  obtain ⟨report, hrun, hk⟩ := run_kept readConfig (readWorld (some (.ok ()))) (fun _ => [])
    (readWorld_respects _)
  have ht := hrun 3 (by decide)
  have hc : (run readConfig (readWorld (some (.ok ()))) (fun _ => []) 3).map
      (fun report => (report.rounds.length, report.executed.length)) = some (3, 2) := rfl
  rw [ht] at hc
  obtain ⟨hr, he⟩ := Prod.mk.inj (Option.some.inj hc)
  exact ⟨report, ht, hr, he, hk⟩

/-- When the hook fails, the Response ends and the call has no output. -/
theorem read_unanswered : Respects (readWorld (some (.error "disk full".toList))) ∧ ∃ report,
      run readConfig (readWorld (some (.error "disk full".toList))) (fun _ => []) 3 = some report ∧
      ∃ done ∈ report.rounds, ∃ turn stats, done.forwarded = .finished turn stats ∧
        stats.stopReason = .eos ∧
        (hostedCalls readConfig.toolLoop turn).map called = [(1, "local_fs_read".toList)] ∧
        done.outputs = [] := by
  refine ⟨readWorld_respects _, _, rfl, _, mem_singleton.mpr rfl, _, _, rfl, rfl, rfl, rfl⟩

end LocalAi.ToolLoop.Driver
