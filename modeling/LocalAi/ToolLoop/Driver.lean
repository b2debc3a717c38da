import LocalAi.Chat.Reply
import LocalAi.Tools.Grammar
import LocalAi.ToolLoop.Rounds

/-!
# What the loop over hosted tools spends

`Rounds` says what the loop sends and appends for given generations.  Here the engine answers
the requests the loop makes, so that the bounds of the loop come from what it asks for.

* `round`: one generation and the calls after it; its `Round` says what was done.
* `rounds`: the loop, which may take `fuel` generations.

The engine, the tools and the consumer are a `World`: any functions.  A duration is a `Nat`.
-/

namespace LocalAi.ToolLoop.Driver

open Responses (Hosted ToolOutput SearchResult)
open Responses.State (StopReason)
open Chat (PromptCacheSource)
open Tools (ToolChoice)
open History (Message)

variable {L D : Type}

/-! ### Measurements -/

/-- The measurements of a generation that the loop adds up. -/
structure Stats where
  promptTokens : Nat
  reusedPromptTokens : Nat
  generatedTokens : Nat
  reasoningTokens : Nat
  stopReason : StopReason
  cacheSource : PromptCacheSource
  responseFormatComplete : Option Bool
  toolConstraintsComplete : Option Bool

structure Spent where
  rounds : Nat
  calls : Nat
  toolTime : Nat
  usage : Option Stats

/-- `Spent::default`. -/
def Spent.default : Spent := ⟨0, 0, 0, none⟩

/-- Fold one round's measurements into the reported usage. -/
def Spent.add (spent : Spent) (stats : Stats) : Spent :=
  match spent.usage with
  | none => { spent with usage := some stats }
  | some total =>
    { spent with
      usage := some
        { promptTokens := total.promptTokens + stats.promptTokens
          reusedPromptTokens := total.reusedPromptTokens + stats.reusedPromptTokens
          generatedTokens := total.generatedTokens + stats.generatedTokens
          reasoningTokens := total.reasoningTokens + stats.reasoningTokens
          stopReason := stats.stopReason
          cacheSource := stats.cacheSource
          responseFormatComplete := stats.responseFormatComplete
          toolConstraintsComplete := stats.toolConstraintsComplete } }

def Spent.generated (spent : Spent) : Nat := (spent.usage.map Stats.generatedTokens).getD 0

def Spent.counts (spent : Spent) : ToolLoop.Spent :=
  ⟨spent.rounds, spent.calls, spent.toolTime, spent.generated⟩

/-! ### The surroundings -/

/-- What of a request the loop changes from round to round. -/
structure Request (D : Type) where
  messages : List (Message D)
  maxTokens : Nat
  toolChoice : ToolChoice

/-- A signal of a generation before its end. -/
inductive Signal (L : Type)
  | progress
  | event (event : Event L)

inductive End
  | finished (stats : Stats)
  | error (error : Text)
  | none

structure Answer (L : Type) where
  signals : List (Signal L)
  ended : End
  /-- What it reports when it is cancelled and read to its end. -/
  drained : Option Stats
  /-- The tokens it generated. -/
  generated : Nat

/-- A call that was started: how long it ran and what it returned, unless the consumer
cancelled meanwhile. -/
structure Ran (α : Type) where
  elapsed : Nat
  result : Option (Except Text α)

/-- The results of a search, and the text with them when the first is marked with this
number. -/
structure Found where
  results : List SearchResult
  passages : Nat → Text

/-- What the loop does not decide.  A generation, a send and a call are given by their
number, a call also by its deadline. -/
structure World (L D : Type) where
  engine : Nat → Request D → Answer L
  /-- A send reaches the consumer. -/
  delivers : Nat → Bool
  tool : Nat → ToolCall → Nat → Ran Output
  search : Nat → List Text → Nat → Ran Found
  /-- The consumer cancelled before the generation was submitted. -/
  cancelled : Nat → Bool
  /-- Why the generation was refused. -/
  refused : Nat → Option Text
  /-- What runs before the first hosted call. -/
  beforeTools : Option (Except Text Unit)

/-- What one Response's loop runs with. -/
structure Config (D : Type) where
  toolLoop : Loop
  callTimeout : Nat
  /-- The server has vector stores and the request names some. -/
  searches : Bool
  request : Request D

/-! ### Running calls -/

/-- Something the loop did between two generations. -/
inductive Effect
  | hooked (result : Except Text Unit)
  | executed (call : ToolCall)
  | sent (output : ToolOutput)

/-- The state of the calls of one round: what was spent, the number of the next search result
and of the next send. -/
structure Calls where
  spent : Spent
  marker : Nat
  sends : Nat

section Calls

variable (config : Config D) (world : World L D)

def exhausted (spent : Spent) : Bool := config.toolLoop.exhausted spent.counts

def denied (spent : Spent) : Option Text :=
  if exhausted config spent then some (config.toolLoop.denied spent.counts) else none

def timeout (spent : Spent) : Nat :=
  min config.callTimeout (config.toolLoop.bounds.budget - spent.toolTime)

/-- `bounded`: a counted call.  What was spent is kept also when the consumer cancelled. -/
def bounded {α : Type} (spent : Spent) (call : ToolCall) (ran : Ran α) :
    Option (Except Text α) × Spent × List Effect :=
  (ran.result,
    { spent with calls := spent.calls + 1, toolTime := spent.toolTime + ran.elapsed },
    [.executed call])

/-- Run one toolbox call within the bounds. -/
def execute (call : ToolCall) (operation : Hosted) (spent : Spent) :
    Option (Except Text Output) × Spent × List Effect :=
  match denied config spent with
  | some message => (some (.error message), spent, [])
  | none =>
    match config.toolLoop.request operation call.arguments with
    | .error message => (some (.error message), spent, [])
    | .ok _ => bounded spent call (world.tool spent.calls call (timeout config spent))

def maxQueries : Nat := 16

/-- `queries`: an array of strings. -/
def queries (arguments : Json) : Option (List Text) :=
  match arguments with
  | .object members =>
    match lookup "queries".toList members with
    | some (.array items) =>
      items.mapM fun item =>
        match item with
        | .string text => some text
        | _ => none
    | _ => none
  | _ => none

/-- `config.request`: the queries of a search. -/
def searchRequest (arguments : Json) : Except Text (List Text) :=
  match queries arguments with
  | none => .error "queries must be an array of strings".toList
  | some found =>
    if found.isEmpty || decide (maxQueries < found.length) then
      .error "queries must hold 1 to 16 strings".toList
    else .ok found

def fileSearch (call : ToolCall) (spent : Spent) :
    Option (Except Text Found) × Spent × List Effect :=
  match denied config spent with
  | some message => (some (.error message), spent, [])
  | none =>
    if config.searches then
      match searchRequest call.arguments with
      | .error message => (some (.error message), spent, [])
      | .ok found => bounded spent call (world.search spent.calls found (timeout config spent))
    else (some (.error "file_search is unavailable on this server".toList), spent, [])

/-- `file_search::output`: the results are numbered from `first`. -/
def searchOutput (call : ToolCall) (result : Except Text Found) (first : Nat) : ToolOutput where
  callId := call.id
  name := call.name
  content :=
    match result with
    | .ok found => found.passages first
    | .error message => "error: ".toList ++ message
  status :=
    match result with
    | .ok _ => some .completed
    | .error _ => some .failed
  output := none
  results :=
    match result with
    | .ok found => some found.results
    | .error _ => some []
  first := some first

/-- How many result markers an output numbered. -/
def numbered (output : ToolOutput) : Nat := (output.results.map List.length).getD 0

def runCall (call : ToolCall) (operation : Hosted) (spent : Spent) (marker : Nat) :
    Option ToolOutput × Spent × Nat × List Effect :=
  if operation = .fileSearch then
    match fileSearch config world call spent with
    | (none, spent, effects) => (none, spent, marker, effects)
    | (some result, spent, effects) =>
      let output := searchOutput call result marker
      (some output, spent, marker + numbered output, effects)
  else
    match execute config world call operation spent with
    | (none, spent, effects) => (none, spent, marker, effects)
    | (some result, spent, effects) =>
      (some (toolOutput call operation result), spent, marker, effects)

/-- Run the hosted calls in order and send their outputs; without the outputs when the
consumer cancelled or has gone. -/
def runCalls : List (ToolCall × Hosted) → Calls → Option (List ToolOutput) × Calls × List Effect
  | [], calls => (some [], calls, [])
  | (call, operation) :: more, calls =>
    match runCall config world call operation calls.spent calls.marker with
    | (none, spent, marker, effects) => (none, ⟨spent, marker, calls.sends⟩, effects)
    | (some output, spent, marker, effects) =>
      let next := ⟨spent, marker, calls.sends + 1⟩
      if world.delivers calls.sends then
        let (outputs, last, later) := runCalls more next
        (outputs.map (output :: ·), last, effects ++ .sent output :: later)
      else (none, next, effects)

end Calls

/-! ### The loop -/

/-- How one forwarded generation ended. -/
inductive Forwarded
  | finished (turn : Turn) (stats : Stats)
  | failed (error : Text)
  | gone (stats : Option Stats)

def Forwarded.reported : Forwarded → Option Stats
  | .finished _ stats => some stats
  | .failed _ => none
  | .gone stats => stats

/-- A generation that was forwarded and what was done after it. -/
structure Round (L D : Type) where
  request : Request D
  answer : Answer L
  forwarded : Forwarded
  effects : List Effect

def Round.outputs (round : Round L D) : List ToolOutput :=
  round.effects.filterMap fun effect =>
    match effect with
    | .sent output => some output
    | _ => none

def Round.executed (round : Round L D) : List ToolCall :=
  round.effects.filterMap fun effect =>
    match effect with
    | .executed call => some call
    | _ => none

inductive Ended
  | finished (stats : Stats)
  | error (error : Text)

/-- What the loop keeps from one generation to the next. -/
structure State (D : Type) where
  request : Request D
  calls : Calls
  /-- The hook, until it is taken. -/
  hook : Option (Except Text Unit)

/-- After a round the loop ends, or submits its request again. -/
inductive Next (D : Type)
  | ends (spent : Spent) (ended : Option Ended)
  | again (state : State D)

section Rounds

variable (config : Config D) (world : World L D) (printed : CallId → Text)

/-- `forward`: the turn so far, the signals to come and the number of the next send. -/
def forward (answer : Answer L) : Turn → List (Signal L) → Nat → Forwarded × Nat
  | turn, [], sends =>
    match answer.ended with
    | .finished stats => (.finished turn stats, sends)
    | .error error => (.failed error, sends)
    | .none => (.gone none, sends)
  | turn, signal :: more, sends =>
    let turn :=
      match signal with
      | .progress => turn
      | .event event => turn.hear event
    if world.delivers sends then forward answer turn more (sends + 1)
    else (.gone answer.drained, sends + 1)

/-- The summed usage as the Response's end. -/
def finish (spent : Spent) : Option Ended := spent.usage.map .finished

/-- The summed usage when the output token budget is used up. -/
def Spent.limited (spent : Spent) : Spent :=
  { spent with usage := spent.usage.map fun usage => { usage with stopReason := .tokenLimit } }

def nextRequest (request : Request D) (turn : Turn) (outputs : List ToolOutput)
    (spent : Spent) (left : Nat) : Request D where
  messages := request.messages ++ roundMessages printed turn outputs
  maxTokens := left
  toolChoice := if exhausted config spent then .none else .auto

def afterCalls (number : Nat) (request : Request D) (turn : Turn) (pending : Bool)
    (outputs : List ToolOutput) (calls : Calls) : Next D :=
  if pending then .ends calls.spent (finish calls.spent)
  else
    let spent := { calls.spent with rounds := calls.spent.rounds + 1 }
    let left := config.request.maxTokens - spent.generated
    if left = 0 then .ends spent.limited (finish spent.limited)
    else if world.cancelled (number + 1) then .ends spent none
    else
      match world.refused (number + 1) with
      | some error => .ends spent (some (.error error))
      | none =>
        .again ⟨nextRequest config printed request turn outputs spent left,
          { calls with spent := spent }, none⟩

def answerCalls (number : Nat) (state : State D) (turn : Turn) (calls : Calls) :
    Next D × List Effect :=
  let hosted := hostedCalls config.toolLoop turn
  match state.hook with
  | some (.error error) => (.ends calls.spent (some (.error error)), [.hooked (.error error)])
  | hook =>
    let before := hook.toList.map Effect.hooked
    match runCalls config world hosted calls with
    | (none, calls, effects) => (.ends calls.spent none, before ++ effects)
    | (some outputs, calls, effects) =>
      (afterCalls config world printed number state.request turn
        (decide (hosted.length < turn.calls.length)) outputs calls, before ++ effects)

def round (number : Nat) (state : State D) : Round L D × Next D :=
  let answer := world.engine number state.request
  let (forwarded, sends) := forward world answer .empty answer.signals state.calls.sends
  let calls := { state.calls with sends := sends }
  match forwarded with
  | .failed error =>
    (⟨state.request, answer, forwarded, []⟩, .ends calls.spent (some (.error error)))
  | .gone none => (⟨state.request, answer, forwarded, []⟩, .ends calls.spent none)
  | .gone (some stats) =>
    (⟨state.request, answer, forwarded, []⟩, .ends (calls.spent.add stats) none)
  | .finished turn stats =>
    let calls := { calls with spent := calls.spent.add stats }
    if (hostedCalls config.toolLoop turn).isEmpty || stats.stopReason != .eos then
      (⟨state.request, answer, forwarded, []⟩, .ends calls.spent (finish calls.spent))
    else
      let (next, effects) := answerCalls config world printed number state turn calls
      (⟨state.request, answer, forwarded, effects⟩, next)

/-- What the loop did, what it had spent in the end, and the end the consumer is sent. -/
structure Report (L D : Type) where
  rounds : List (Round L D)
  spent : Spent
  ended : Option Ended

/-- The loop proper, from the generation with this number on; nothing when it takes more than
`fuel` generations. -/
def rounds : Nat → Nat → State D → Option (Report L D)
  | 0, _, _ => none
  | fuel + 1, number, state =>
    match round config world printed number state with
    | (done, .ends spent ended) => some ⟨[done], spent, ended⟩
    | (done, .again state) =>
      (rounds fuel (number + 1) state).map fun report =>
        { report with rounds := done :: report.rounds }

def start : State D := ⟨config.request, ⟨.default, 1, 0⟩, world.beforeTools⟩

/-- `run`: the loop over a request. -/
def run (fuel : Nat) : Option (Report L D) :=
  rounds config world printed fuel 0 (start config world)

end Rounds

end LocalAi.ToolLoop.Driver
