import LocalAi.ToolLoop.Driver

/-!
# One round of the loop over hosted tools

What a round adds to what was spent, which outputs it sends and what may come after it.

* `Stays`: a consumer that does not cancel or go away.
* `Charged`, `Answers`: what a call and what the calls of a turn do.
* `Rounded`: what a round is; its lemmas say what follows.
-/

open List

namespace LocalAi.ToolLoop.Driver

open Responses (Hosted ToolOutput)
open Responses.State (StopReason)

variable {L D : Type}

structure Stays (world : World L D) : Prop where
  delivers : ∀ number, world.delivers number = true
  tool : ∀ number call deadline, (world.tool number call deadline).result ≠ none
  search : ∀ number found deadline, (world.search number found deadline).result ≠ none

def numbers (output : ToolOutput) : List Nat :=
  match output.first, output.results with
  | some first, some results => List.range' first results.length
  | _, _ => []

def answered (output : ToolOutput) : CallId × Text := (output.callId, output.name)

def called (hosted : ToolCall × Hosted) : CallId × Text := (hosted.1.id, hosted.1.name)

/-! ### Effects -/

def Effect.isHooked : Effect → Bool
  | .hooked _ => true
  | _ => false

def sentOf (effects : List Effect) : List ToolOutput :=
  effects.filterMap fun effect =>
    match effect with
    | .sent output => some output
    | _ => none

def executedOf (effects : List Effect) : List ToolCall :=
  effects.filterMap fun effect =>
    match effect with
    | .executed call => some call
    | _ => none

@[simp] theorem Round.outputs_eq (request answer forwarded effects) :
    (⟨request, answer, forwarded, effects⟩ : Round L D).outputs = sentOf effects := rfl

@[simp] theorem Round.executed_eq (request answer forwarded effects) :
    (⟨request, answer, forwarded, effects⟩ : Round L D).executed = executedOf effects := rfl

@[simp] theorem sentOf_append (effects later : List Effect) :
    sentOf (effects ++ later) = sentOf effects ++ sentOf later := filterMap_append

@[simp] theorem executedOf_append (effects later : List Effect) :
    executedOf (effects ++ later) = executedOf effects ++ executedOf later :=
  filterMap_append

@[simp] theorem sentOf_sent (output : ToolOutput) (effects : List Effect) :
    sentOf (.sent output :: effects) = output :: sentOf effects := rfl

@[simp] theorem executedOf_sent (output : ToolOutput) (effects : List Effect) :
    executedOf (.sent output :: effects) = executedOf effects := rfl

@[simp] theorem sentOf_executed (call : ToolCall) (effects : List Effect) :
    sentOf (.executed call :: effects) = sentOf effects := rfl

@[simp] theorem executedOf_executed (call : ToolCall) (effects : List Effect) :
    executedOf (.executed call :: effects) = call :: executedOf effects := rfl

@[simp] theorem sentOf_hooked (result : Except Text Unit) (effects : List Effect) :
    sentOf (.hooked result :: effects) = sentOf effects := rfl

@[simp] theorem executedOf_hooked (result : Except Text Unit) (effects : List Effect) :
    executedOf (.hooked result :: effects) = executedOf effects := rfl

@[simp] theorem sentOf_hooks (hook : Option (Except Text Unit)) :
    sentOf (hook.toList.map Effect.hooked) = [] := by
  cases hook <;> rfl

@[simp] theorem executedOf_hooks (hook : Option (Except Text Unit)) :
    executedOf (hook.toList.map Effect.hooked) = [] := by
  cases hook <;> rfl

@[simp] theorem sentOf_nil : sentOf [] = [] := rfl

@[simp] theorem executedOf_nil : executedOf [] = [] := rfl

/-! ### Calls -/

variable {calls : Calls} {most : Nat} {stats : Stats} {turn : Turn}

section Calls

variable (config : Config D) (world : World L D)

/-- What a call does to what was spent: nothing, or it is executed within the bounds. -/
inductive Charged (call : ToolCall) (spent : Spent) : Spent → List Effect → Prop
  | free : Charged call spent spent []
  | counted (elapsed : Nat) (allowed : exhausted config spent = false) :
      Charged call spent
        { spent with calls := spent.calls + 1, toolTime := spent.toolTime + elapsed }
        [.executed call]

variable {spent after : Spent} {call : ToolCall} {effects : List Effect}

theorem denied_eq_none (h : denied config spent = none) : exhausted config spent = false := by
  simpa [denied] using h

theorem execute_charged (call : ToolCall) (operation : Hosted) (spent : Spent) :
    Charged config call spent (execute config world call operation spent).2.1
        (execute config world call operation spent).2.2 ∧
      (Stays world → (execute config world call operation spent).1 ≠ none) := by
  unfold execute
  split
  · exact ⟨.free, fun _ => by simp⟩
  case h_2 hd =>
    split
    · exact ⟨.free, fun _ => by simp⟩
    · exact ⟨.counted _ (denied_eq_none config hd), fun stays => stays.tool _ _ _⟩

theorem fileSearch_charged (call : ToolCall) (spent : Spent) :
    Charged config call spent (fileSearch config world call spent).2.1
        (fileSearch config world call spent).2.2 ∧
      (Stays world → (fileSearch config world call spent).1 ≠ none) := by
  unfold fileSearch
  split
  · exact ⟨.free, fun _ => by simp⟩
  case h_2 hd =>
    split
    · split
      · exact ⟨.free, fun _ => by simp⟩
      · exact ⟨.counted _ (denied_eq_none config hd), fun stays => stays.search _ _ _⟩
    · exact ⟨.free, fun _ => by simp⟩

theorem numbers_searchOutput (call : ToolCall) (result : Except Text Found) (first : Nat) :
    numbers (searchOutput call result first) =
      range' first (numbered (searchOutput call result first)) := by
  cases result <;> rfl

structure Outputs (call : ToolCall) (marker : Nat) (output : ToolOutput) (after : Nat) : Prop where
  answers : answered output = (call.id, call.name)
  numbers : numbers output = List.range' marker (after - marker)
  grows : marker ≤ after

theorem runCall_charged (call : ToolCall) (operation : Hosted) (spent : Spent) (marker : Nat) :
    Charged config call spent (runCall config world call operation spent marker).2.1
        (runCall config world call operation spent marker).2.2.2 ∧
      (Stays world → (runCall config world call operation spent marker).1 ≠ none) := by
  unfold runCall
  split
  · have hc := fileSearch_charged config world call spent
    split
    case h_1 heq =>
      rw [heq] at hc
      exact ⟨hc.1, fun stays => absurd rfl (hc.2 stays)⟩
    case h_2 heq =>
      rw [heq] at hc
      exact ⟨hc.1, fun _ => by simp⟩
  · have hc := execute_charged config world call operation spent
    split
    case h_1 heq =>
      rw [heq] at hc
      exact ⟨hc.1, fun stays => absurd rfl (hc.2 stays)⟩
    case h_2 heq =>
      rw [heq] at hc
      exact ⟨hc.1, fun _ => by simp⟩

theorem runCall_outputs {call : ToolCall} {operation : Hosted} {spent : Spent} {marker : Nat}
    {output : ToolOutput} (h : (runCall config world call operation spent marker).1 = some output) :
    Outputs call marker output (runCall config world call operation spent marker).2.2.1 := by
  revert h
  unfold runCall
  split
  · split
    · intro h
      cases h
    · intro h
      cases h
      refine ⟨rfl, ?_, Nat.le_add_right _ _⟩
      rw [numbers_searchOutput, Nat.add_sub_cancel_left]
  · split
    · intro h
      cases h
    · intro h
      cases h
      exact ⟨rfl, by rw [Nat.sub_self]; rfl, le_rfl⟩

theorem Charged.rounds_eq (h : Charged config call spent after effects) :
    after.rounds = spent.rounds := by
  cases h <;> rfl

theorem Charged.usage_eq (h : Charged config call spent after effects) :
    after.usage = spent.usage := by
  cases h <;> rfl

theorem Charged.calls_eq (h : Charged config call spent after effects) :
    after.calls = spent.calls + (executedOf effects).length := by
  cases h <;> rfl

theorem Charged.sentOf_eq (h : Charged config call spent after effects) : sentOf effects = [] := by
  cases h <;> rfl

theorem Charged.not_hooked (h : Charged config call spent after effects) :
    ∀ effect ∈ effects, effect.isHooked = false := by
  cases h with
  | free => simp
  | counted => simp [Effect.isHooked]

theorem exhausted_of_calls (hm : config.toolLoop.maxCalls = some most)
    (h : most ≤ spent.calls) : exhausted config spent = true := by
  simp [exhausted, Loop.exhausted, hm, Spent.counts, h]

theorem exhausted_of_rounds (h : config.toolLoop.bounds.maxIterations ≤ spent.rounds) :
    exhausted config spent = true := by
  simp [exhausted, Loop.exhausted, Spent.counts, h]

theorem Charged.within (h : Charged config call spent after effects)
    (hm : config.toolLoop.maxCalls = some most) (hle : spent.calls ≤ most) :
    after.calls ≤ most := by
  cases h with
  | free => exact hle
  | counted elapsed allowed =>
    by_contra ho
    have hl : most ≤ spent.calls := Nat.le_of_lt_succ (Nat.not_le.mp ho)
    rw [exhausted_of_calls config hm hl] at allowed
    cases allowed

theorem Charged.executes (h : Charged config call spent after effects)
    (hs : executedOf effects ≠ []) : spent.rounds < config.toolLoop.bounds.maxIterations := by
  cases h with
  | free => exact absurd rfl hs
  | counted elapsed allowed =>
    by_contra ho
    rw [exhausted_of_rounds config (Nat.not_lt.mp ho)] at allowed
    cases allowed

structure Answers (hosted : List (ToolCall × Hosted)) (calls : Calls)
    (outputs : Option (List ToolOutput)) (after : Calls) (effects : List Effect) : Prop where
  rounds : after.spent.rounds = calls.spent.rounds
  usage : after.spent.usage = calls.spent.usage
  counted : after.spent.calls = calls.spent.calls + (executedOf effects).length
  within : ∀ most, config.toolLoop.maxCalls = some most → calls.spent.calls ≤ most →
    after.spent.calls ≤ most
  executes : executedOf effects ≠ [] → calls.spent.rounds < config.toolLoop.bounds.maxIterations
  not_hooked : ∀ effect ∈ effects, effect.isHooked = false
  sent : (sentOf effects).map answered <+: hosted.map called
  all : ∀ sent, outputs = some sent → sentOf effects = sent ∧ sent.map answered = hosted.map called
  stays : Stays world → outputs ≠ none
  numbered : ∃ count, (sentOf effects).flatMap numbers = List.range' calls.marker count ∧
    (outputs ≠ none → after.marker = calls.marker + count)

theorem answers_nil (calls : Calls) : Answers config world [] calls (some []) calls [] where
  rounds := rfl
  usage := rfl
  counted := rfl
  within := fun _ _ hle => hle
  executes := fun h => absurd rfl h
  not_hooked := by simp
  sent := prefix_rfl
  all := by
    intro sent hs
    cases hs
    exact ⟨rfl, rfl⟩
  stays := by simp
  numbered := ⟨0, rfl, fun _ => rfl⟩

/-- The first call has no output, or its output did not reach the consumer. -/
theorem answers_stopped {operation : Hosted} {more : List (ToolCall × Hosted)} {after : Calls}
    (hc : Charged config call calls.spent after.spent effects) (hg : ¬ Stays world) :
    Answers config world ((call, operation) :: more) calls none after effects where
  rounds := hc.rounds_eq
  usage := hc.usage_eq
  counted := hc.calls_eq
  within := fun _ hm hle => hc.within config hm hle
  executes := hc.executes config
  not_hooked := hc.not_hooked
  sent := by
    rw [hc.sentOf_eq]
    exact nil_prefix
  all := by
    intro sent hs
    cases hs
  stays := fun stays => absurd stays hg
  numbered := by
    refine ⟨0, ?_, fun h => absurd rfl h⟩
    rw [hc.sentOf_eq]
    rfl

theorem answers_cons {operation : Hosted} {more : List (ToolCall × Hosted)}
    {next after : Calls} {output : ToolOutput} {later : List Effect}
    {outputs : Option (List ToolOutput)} (hc : Charged config call calls.spent next.spent effects)
    (ho : Outputs call calls.marker output next.marker)
    (hm : Answers config world more next outputs after later) :
    Answers config world ((call, operation) :: more) calls (outputs.map (output :: ·)) after
      (effects ++ .sent output :: later) where
  rounds := hm.rounds.trans hc.rounds_eq
  usage := hm.usage.trans hc.usage_eq
  counted := by
    rw [hm.counted, hc.calls_eq, executedOf_append, executedOf_sent, length_append, Nat.add_assoc]
  within := fun most hmo hle => hm.within most hmo (hc.within config hmo hle)
  executes := by
    intro hs
    rw [executedOf_append, executedOf_sent] at hs
    by_cases hf : executedOf effects = []
    · rw [hf, nil_append] at hs
      rw [← hc.rounds_eq]
      exact hm.executes hs
    · exact hc.executes config hf
  not_hooked := by
    intro effect he
    rcases mem_append.mp he with h | h
    · exact hc.not_hooked config effect h
    · rcases mem_cons.mp h with rfl | h
      · rfl
      · exact hm.not_hooked effect h
  sent := by
    rw [sentOf_append, hc.sentOf_eq, sentOf_sent, nil_append, map_cons, map_cons, ho.answers]
    exact cons_prefix_cons.mpr ⟨rfl, hm.sent⟩
  all := by
    intro sent hse
    obtain ⟨rest, hr, rfl⟩ := Option.map_eq_some_iff.mp hse
    obtain ⟨hr, hca⟩ := hm.all rest hr
    rw [sentOf_append, hc.sentOf_eq, sentOf_sent, nil_append, hr, map_cons,
      map_cons, hca, ho.answers]
    exact ⟨rfl, rfl⟩
  stays := by
    intro stays
    rw [ne_eq, Option.map_eq_none_iff]
    exact hm.stays stays
  numbered := by
    obtain ⟨count, hcnt, ha⟩ := hm.numbered
    refine ⟨next.marker - calls.marker + count, ?_, fun hs => ?_⟩
    · have hn : calls.marker + (next.marker - calls.marker) = next.marker :=
        Nat.add_sub_of_le ho.grows
      rw [sentOf_append, hc.sentOf_eq, sentOf_sent, nil_append, flatMap_cons,
        hcnt, ho.numbers, ← range'_append_1, hn]
    · rw [ha (fun h => hs (by rw [h]; rfl))]
      have := ho.grows
      omega

theorem runCalls_answers (hosted : List (ToolCall × Hosted)) (calls : Calls) :
    Answers config world hosted calls (runCalls config world hosted calls).1
      (runCalls config world hosted calls).2.1 (runCalls config world hosted calls).2.2 := by
  induction hosted generalizing calls with
  | nil => exact answers_nil config world calls
  | cons first more ih =>
    obtain ⟨call, operation⟩ := first
    have hc := runCall_charged config world call operation calls.spent calls.marker
    have ho := @runCall_outputs _ _ config world call operation calls.spent calls.marker
    rw [runCalls]
    split
    case h_1 spent marker effects heq =>
      rw [heq] at hc
      exact answers_stopped config world hc.1 fun stays => hc.2 stays rfl
    case h_2 output spent marker effects heq =>
      rw [heq] at hc ho
      split
      case isTrue hd =>
        exact answers_cons config world hc.1 (ho rfl) (ih ⟨spent, marker, _⟩)
      case isFalse hl =>
        exact answers_stopped config world hc.1 fun stays => hl (stays.delivers _)

end Calls

/-! ### Measurements -/

/-- A count of tokens that the usage sums. -/
inductive Counter
  | prompt
  | reused
  | generated
  | reasoning

def Stats.count (stats : Stats) : Counter → Nat
  | .prompt => stats.promptTokens
  | .reused => stats.reusedPromptTokens
  | .generated => stats.generatedTokens
  | .reasoning => stats.reasoningTokens

/-- What the usage has of a count so far. -/
def Spent.total (spent : Spent) (counter : Counter) : Nat :=
  (spent.usage.map fun usage => usage.count counter).getD 0

theorem Spent.generated_eq (spent : Spent) : spent.generated = spent.total .generated := rfl

theorem Spent.total_of_usage {spent other : Spent} (h : spent.usage = other.usage)
    (counter : Counter) : spent.total counter = other.total counter := by
  rw [Spent.total, Spent.total, h]

@[simp] theorem Spent.add_rounds (spent : Spent) (stats : Stats) :
    (spent.add stats).rounds = spent.rounds := by
  unfold Spent.add
  split <;> rfl

@[simp] theorem Spent.add_calls (spent : Spent) (stats : Stats) :
    (spent.add stats).calls = spent.calls := by
  unfold Spent.add
  split <;> rfl

theorem Spent.add_usage (spent : Spent) (stats : Stats) : (spent.add stats).usage ≠ none := by
  unfold Spent.add
  split <;> simp

theorem Spent.add_total (spent : Spent) (stats : Stats) (counter : Counter) :
    (spent.add stats).total counter = spent.total counter + stats.count counter := by
  unfold Spent.add
  split
  case h_1 hn => simp [Spent.total, hn]
  case h_2 total hs =>
    rw [Spent.total, Spent.total, hs]
    cases counter <;> rfl

theorem Spent.limited_total (spent : Spent) (counter : Counter) :
    spent.limited.total counter = spent.total counter := by
  unfold Spent.limited Spent.total
  cases spent.usage with
  | none => rfl
  | some => cases counter <;> rfl

/-! ### One generation -/

section Forward

variable (world : World L D)

variable {sends : Nat} {answer : Answer L}

theorem forward_finished {signals : List (Signal L)} {result : Turn}
    (h : (forward world answer turn signals sends).1 = .finished result stats) :
    answer.ended = .finished stats ∧ result = (signals.filterMap fun signal =>
        match signal with
        | .progress => none
        | .event event => some event).foldl Turn.hear turn := by
  induction signals generalizing turn sends with
  | nil =>
    rw [forward] at h
    split at h
    case h_1 he =>
      cases h
      exact ⟨he, rfl⟩
    · cases h
    · cases h
  | cons signal more ih =>
    unfold forward at h
    dsimp only at h
    split at h
    · obtain ⟨he, ht⟩ := ih h
      refine ⟨he, ?_⟩
      cases signal with
      | progress => exact ht
      | event => exact ht
    · cases h

theorem forward_reported {signals : List (Signal L)}
    (h : (forward world answer turn signals sends).1.reported = some stats) :
    answer.ended = .finished stats ∨ answer.drained = some stats := by
  induction signals generalizing turn sends with
  | nil =>
    rw [forward] at h
    split at h
    case h_1 he =>
      cases h
      exact .inl he
    · cases h
    · cases h
  | cons signal more ih =>
    unfold forward at h
    dsimp only at h
    split at h
    · exact ih h
    · exact .inr h

theorem hear_calls_eq_nil {events : List (Event L)} (h : ∀ call, .toolCall call ∉ events) :
    (events.foldl Turn.hear turn).calls = turn.calls := by
  induction events generalizing turn with
  | nil => rfl
  | cons event more ih =>
    rw [foldl_cons, ih fun call hc => h call (mem_cons_of_mem _ hc)]
    cases event with
    | toolCall call => exact absurd (mem_cons_self ..) (h call)
    | _ => rfl

theorem forward_silent (hsil : ∀ call, .event (.toolCall call) ∉ answer.signals)
    (h : (forward world answer .empty answer.signals sends).1 = .finished turn stats) :
    turn.calls = [] := by
  obtain ⟨-, rfl⟩ := forward_finished world h
  apply hear_calls_eq_nil
  intro call hc
  obtain ⟨signal, hs, hev⟩ := mem_filterMap.mp hc
  cases signal with
  | progress => cases hev
  | event =>
    cases hev
    exact hsil call hs

end Forward

/-! ### One round -/

def Next.spent : Next D → Spent
  | .ends spent _ => spent
  | .again state => state.calls.spent

section Round

variable (config : Config D) (world : World L D) (printed : CallId → Text)

structure Resumes (spent : Spent) (state : State D) : Prop where
  hook : state.hook = none
  rounds : state.calls.spent.rounds = spent.rounds + 1
  left : state.request.maxTokens = config.request.maxTokens - state.calls.spent.generated
  choice : exhausted config state.calls.spent = true → state.request.toolChoice = .none

/-- What comes after the hosted calls of a turn. -/
structure Continues (calls : Calls) (next : Next D) : Prop where
  counted : next.spent.calls = calls.spent.calls
  totals : ∀ counter, next.spent.total counter = calls.spent.total counter
  usage : calls.spent.usage ≠ none → next.spent.usage ≠ none
  finished : ∀ spent stats, next = .ends spent (some (.finished stats)) → spent.usage = some stats
  again : ∀ state, next = .again state →
    Resumes config calls.spent state ∧ state.calls.marker = calls.marker

theorem finish_eq_some {spent : Spent}
    (h : finish spent = some (.finished stats)) : spent.usage = some stats := by
  obtain ⟨usage, hu, heq⟩ := Option.map_eq_some_iff.mp h
  cases heq
  exact hu

theorem continues_left (calls : Calls) : Continues config calls (.ends calls.spent none) :=
  ⟨rfl, fun _ => rfl, fun h => h, fun _ _ h => (by cases h), fun _ h => (by cases h)⟩

theorem afterCalls_continues (number : Nat) (request : Request D) (turn : Turn) (pending : Bool)
    (outputs : List ToolOutput) (calls : Calls) : Continues config calls
      (afterCalls config world printed number request turn pending outputs calls) := by
  unfold afterCalls
  split
  · refine ⟨rfl, fun _ => rfl, fun h => h, fun spent stats h => ?_, fun _ h => (by cases h)⟩
    obtain ⟨rfl, hf⟩ := Next.ends.inj h
    exact finish_eq_some hf
  · dsimp only
    split
    · refine ⟨rfl, Spent.limited_total _, fun h => ?_, fun spent stats h => ?_,
        fun _ h => (by cases h)⟩
      · simpa [Next.spent, Spent.limited] using h
      · obtain ⟨rfl, hf⟩ := Next.ends.inj h
        exact finish_eq_some hf
    · split
      · exact ⟨rfl, fun _ => rfl, fun h => h, fun _ _ h => (by cases h), fun _ h => (by cases h)⟩
      · split
        · exact ⟨rfl, fun _ => rfl, fun h => h, fun _ _ h => (by cases h), fun _ h => (by cases h)⟩
        · refine ⟨rfl, fun _ => rfl, fun h => h, fun _ _ h => (by cases h), fun state h => ?_⟩
          cases h
          exact ⟨⟨rfl, rfl, rfl, fun he => if_pos he⟩, rfl⟩

/-- What a round is and what comes after it. -/
inductive Rounded (state : State D) : Round L D → Next D → Prop
  | broken (answer : Answer L) (forwarded : Forwarded) (spent : Spent) (ended : Option Ended)
      (hturn : ∀ turn stats, forwarded ≠ .finished turn stats)
      (hspent : spent = forwarded.reported.elim state.calls.spent state.calls.spent.add)
      (hended : ∀ stats, ended ≠ some (.finished stats)) :
      Rounded state ⟨state.request, answer, forwarded, []⟩ (.ends spent ended)
  | closed (answer : Answer L) (turn : Turn) (stats : Stats)
      (hnone : hostedCalls config.toolLoop turn = [] ∨ stats.stopReason ≠ .eos) :
      Rounded state ⟨state.request, answer, .finished turn stats, []⟩
        (.ends (state.calls.spent.add stats) (finish (state.calls.spent.add stats)))
  | hookFailed (answer : Answer L) (turn : Turn) (stats : Stats) (error : Text)
      (hhook : state.hook = some (.error error)) :
      Rounded state ⟨state.request, answer, .finished turn stats, [.hooked (.error error)]⟩
        (.ends (state.calls.spent.add stats) (some (.error error)))
  | ran (answer : Answer L) (turn : Turn) (stats : Stats) (calls after : Calls)
      (outputs : Option (List ToolOutput)) (effects : List Effect) (next : Next D)
      (hsome : hostedCalls config.toolLoop turn ≠ [])
      (hhook : ∀ error, state.hook ≠ some (.error error))
      (hspent : calls.spent = state.calls.spent.add stats)
      (hmarker : calls.marker = state.calls.marker)
      (hanswers : Answers config world (hostedCalls config.toolLoop turn) calls outputs after effects)
      (hleft : outputs = none → next = .ends after.spent none)
      (hcontinues : Continues config after next) :
      Rounded state
        ⟨state.request, answer, .finished turn stats, state.hook.toList.map .hooked ++ effects⟩ next

theorem answerCalls_rounded {number : Nat} {state : State D}
    (answer : Answer L) (hso : hostedCalls config.toolLoop turn ≠ [])
    (hs : calls.spent = state.calls.spent.add stats) (hm : calls.marker = state.calls.marker) :
    Rounded config world state
      ⟨state.request, answer, .finished turn stats,
        (answerCalls config world printed number state turn calls).2⟩
      (answerCalls config world printed number state turn calls).1 := by
  unfold answerCalls
  dsimp only
  split
  case h_1 error hh =>
    rw [hs]
    exact .hookFailed answer turn stats error hh
  case h_2 hook hh =>
    have ha := runCalls_answers config world (hostedCalls config.toolLoop turn) calls
    split
    case h_1 after effects heq =>
      rw [heq] at ha
      exact .ran answer turn stats calls after none effects _ hso (fun error h => hh error h)
        hs hm ha (fun _ => rfl) (continues_left config after)
    case h_2 outputs after effects heq =>
      rw [heq] at ha
      exact .ran answer turn stats calls after (some outputs) effects _ hso
        (fun error h => hh error h) hs hm ha nofun
        (afterCalls_continues config world printed ..)

theorem round_rounded (number : Nat) (state : State D) :
    Rounded config world state (round config world printed number state).1
      (round config world printed number state).2 := by
  unfold round
  dsimp only
  generalize (forward world _ _ _ _) = forwarded
  obtain ⟨forwarded, sends⟩ := forwarded
  cases forwarded with
  | failed error => exact .broken _ _ _ _ (fun _ _ h => (by cases h)) rfl fun _ h => (by cases h)
  | gone stats =>
    cases stats with
    | none => exact .broken _ _ _ _ (fun _ _ h => (by cases h)) rfl fun _ h => (by cases h)
    | some stats => exact .broken _ _ _ _ (fun _ _ h => (by cases h)) rfl fun _ h => (by cases h)
  | finished turn stats =>
    dsimp only
    split
    case isTrue hn =>
      refine .closed _ turn stats ?_
      simpa using hn
    case isFalse hs =>
      refine answerCalls_rounded config world printed _ ?_ rfl rfl
      intro hnil
      simp [hnil] at hs

theorem round_heard (number : Nat) (state : State D) :
    (round config world printed number state).1.answer = world.engine number state.request ∧
      (round config world printed number state).1.forwarded =
        (forward world (world.engine number state.request) .empty
          (world.engine number state.request).signals state.calls.sends).1 := by
  unfold round
  dsimp only
  generalize (forward world _ _ _ _) = forwarded
  obtain ⟨forwarded, sends⟩ := forwarded
  cases forwarded with
  | failed => exact ⟨rfl, rfl⟩
  | gone stats => cases stats <;> exact ⟨rfl, rfl⟩
  | finished =>
    dsimp only
    split <;> exact ⟨rfl, rfl⟩

variable {config world} {state : State D} {done : Round L D} {next : Next D}

theorem Rounded.totals (h : Rounded config world state done next) (counter : Counter) :
    next.spent.total counter = state.calls.spent.total counter +
      (done.forwarded.reported.toList.map fun stats => stats.count counter).sum := by
  cases h with
  | broken answer forwarded spent ended ht hs =>
    rw [Next.spent, hs]
    cases hr : forwarded.reported with
    | none => rfl
    | some => simp [Spent.add_total]
  | closed => simp [Next.spent, Forwarded.reported, Spent.add_total]
  | hookFailed =>
    simp [Next.spent, Forwarded.reported, Spent.add_total]
  | ran answer turn stats calls after outputs effects next hso hh hs hm ha
      hl hc =>
    rw [hc.totals, Spent.total_of_usage ha.usage, hs, Spent.add_total]
    simp [Forwarded.reported]

theorem Rounded.usage (h : Rounded config world state done next) :
    next.spent.usage = none ↔ state.calls.spent.usage = none ∧ done.forwarded.reported = none := by
  cases h with
  | broken answer forwarded spent ended ht hs =>
    rw [Next.spent, hs]
    cases hr : forwarded.reported with
    | none => simp
    | some => simp [Spent.add_usage]
  | closed => simp [Next.spent, Forwarded.reported, Spent.add_usage]
  | hookFailed =>
    simp [Next.spent, Forwarded.reported, Spent.add_usage]
  | ran answer turn stats calls after outputs effects next hso hh hs hm ha
      hl hc =>
    have haft : after.spent.usage ≠ none := by
      rw [ha.usage, hs]
      exact Spent.add_usage _ _
    simp [hc.usage haft, Forwarded.reported]

theorem Rounded.counted (h : Rounded config world state done next) :
    next.spent.calls = state.calls.spent.calls + done.executed.length := by
  cases h with
  | broken answer forwarded spent ended ht hs =>
    rw [Next.spent, hs]
    cases hr : forwarded.reported <;> simp
  | closed => simp [Next.spent]
  | hookFailed => simp [Next.spent]
  | ran answer turn stats calls after outputs effects next hso hh hs hm ha
      hl hc =>
    rw [hc.counted, ha.counted, hs, Spent.add_calls, Round.executed_eq, executedOf_append,
      executedOf_hooks, nil_append]

theorem Rounded.within (h : Rounded config world state done next)
    (hm : config.toolLoop.maxCalls = some most) (hle : state.calls.spent.calls ≤ most) :
    next.spent.calls ≤ most := by
  cases h with
  | broken answer forwarded spent ended ht hs =>
    rw [Next.spent, hs]
    cases hr : forwarded.reported <;> simpa using hle
  | closed => simpa [Next.spent] using hle
  | hookFailed => simpa [Next.spent] using hle
  | ran answer turn stats calls after outputs effects next hso hh hs hma ha
      hleft hco =>
    have hc : calls.spent.calls ≤ most := by
      rw [hs, Spent.add_calls]
      exact hle
    rw [hco.counted]
    exact ha.within most hm hc

theorem Rounded.executes (h : Rounded config world state done next) (hs : done.executed ≠ []) :
    state.calls.spent.rounds < config.toolLoop.bounds.maxIterations := by
  cases h with
  | broken => exact absurd rfl hs
  | closed => exact absurd rfl hs
  | hookFailed => exact absurd rfl hs
  | ran answer turn stats calls after outputs effects next hca hh hsp hm ha
      hl hco =>
    rw [Round.executed_eq, executedOf_append, executedOf_hooks, nil_append] at hs
    have hr := ha.executes hs
    rwa [hsp, Spent.add_rounds] at hr

theorem Rounded.finished (h : Rounded config world state done next) {spent : Spent}
    (hn : next = .ends spent (some (.finished stats))) : spent.usage = some stats := by
  cases h with
  | broken answer forwarded spent ended ht hs hen =>
    obtain ⟨-, he⟩ := Next.ends.inj hn
    exact absurd he (hen stats)
  | closed =>
    obtain ⟨rfl, he⟩ := Next.ends.inj hn
    exact finish_eq_some he
  | hookFailed => cases hn
  | ran answer turn stats calls after outputs effects next hca hh hs hm ha
      hl hc => exact hc.finished _ _ hn

theorem Rounded.numbered (h : Rounded config world state done next) :
    ∃ count, done.outputs.flatMap numbers = range' state.calls.marker count ∧
      ∀ after, next = .again after → after.calls.marker = state.calls.marker + count := by
  cases h with
  | broken | closed | hookFailed => exact ⟨0, rfl, fun _ h => (by cases h)⟩
  | ran answer turn stats calls after outputs effects next hca hh hs hm hanss
      hl hc =>
    obtain ⟨count, hcnt, haft⟩ := hanss.numbered
    refine ⟨count, ?_, fun resumed ha => ?_⟩
    · rw [Round.outputs_eq, sentOf_append, sentOf_hooks, nil_append, hcnt, hm]
    · have hn : outputs ≠ none := by
        intro hn
        rw [hl hn] at ha
        cases ha
      rw [(hc.again resumed ha).2, haft hn, hm]

/-- The hook runs before the calls of a round, and they run only when it did not fail. -/
theorem Rounded.hooks (h : Rounded config world state done next) :
    (done.effects = [] ∧ ∃ spent ended, next = .ends spent ended) ∨
    (∃ error, state.hook = some (.error error) ∧ done.effects = [.hooked (.error error)] ∧
      ∃ spent, next = .ends spent (some (.error error))) ∨
    (∀ error, state.hook ≠ some (.error error)) ∧
      ∃ effects, done.effects = state.hook.toList.map .hooked ++ effects ∧
        ∀ effect ∈ effects, effect.isHooked = false := by
  cases h with
  | broken => exact .inl ⟨rfl, _, _, rfl⟩
  | closed => exact .inl ⟨rfl, _, _, rfl⟩
  | hookFailed answer turn stats error hh =>
    exact .inr (.inl ⟨error, hh, rfl, _, rfl⟩)
  | ran answer turn stats calls after outputs effects next hca hh hs hm ha
      hl hco => exact .inr (.inr ⟨hh, effects, rfl, ha.not_hooked⟩)

theorem Rounded.answers (h : Rounded config world state done next)
    (ht : done.forwarded = .finished turn stats) (heos : stats.stopReason = .eos) :
    done.outputs.map answered = (hostedCalls config.toolLoop turn).map called ∨
    (∃ error, state.hook = some (.error error) ∧ done.effects = [.hooked (.error error)] ∧
      ∃ spent, next = .ends spent (some (.error error))) ∨
    ¬ Stays world ∧ (∃ spent, next = .ends spent none) ∧
      done.outputs.map answered <+: (hostedCalls config.toolLoop turn).map called := by
  cases h with
  | broken answer forwarded spent ended hb => exact absurd ht (hb _ _)
  | closed answer turn stats hn =>
    cases ht
    rcases hn with hn | hn
    · rw [hn]
      exact .inl rfl
    · exact absurd heos hn
  | hookFailed answer turn stats error hh =>
    exact .inr (.inl ⟨error, hh, rfl, _, rfl⟩)
  | ran answer turn stats calls after outputs effects next hca hh hs hm ha
      hl hco =>
    cases ht
    rw [Round.outputs_eq, sentOf_append, sentOf_hooks, nil_append]
    cases outputs with
    | none =>
      refine .inr (.inr ⟨fun stays => ha.stays stays rfl, ⟨_, hl rfl⟩, ha.sent⟩)
    | some sent =>
      obtain ⟨hse, hc⟩ := ha.all sent rfl
      rw [hse]
      exact .inl hc

theorem Rounded.again {resumed : State D} (h : Rounded config world state done (.again resumed)) :
    (∃ turn stats, done.forwarded = .finished turn stats ∧ hostedCalls config.toolLoop turn ≠ []) ∧
    resumed.hook = none ∧ resumed.calls.spent.rounds = state.calls.spent.rounds + 1 ∧
    resumed.request.maxTokens = config.request.maxTokens - resumed.calls.spent.generated ∧
    (exhausted config resumed.calls.spent = true → resumed.request.toolChoice = .none) := by
  cases h with
  | ran answer turn stats calls after outputs effects next hca hh hs hm ha
      hl hc =>
    obtain ⟨resumes, -⟩ := hc.again resumed rfl
    refine ⟨⟨turn, stats, rfl, hca⟩, resumes.hook, ?_, resumes.left, resumes.choice⟩
    rw [resumes.rounds, ha.rounds, hs, Spent.add_rounds]

end Round

end LocalAi.ToolLoop.Driver
