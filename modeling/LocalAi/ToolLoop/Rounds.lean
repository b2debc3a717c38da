import LocalAi.History.Messages
import LocalAi.Responses.State

/-!
# The loop over hosted tools

A Response whose tools this server runs takes several generations: after each, the hosted
calls are run, their results appended to the request's messages, and the request is submitted
again.  The consumer reads the events of all generations as one stream.

* `runCalls`: the hosted calls of a turn, within the bounds.
* `rounds`: the loop; its `Trace` has what was sent and what was appended.

What the engine generates, what a tool returns and when the consumer cancels is not the
loop's: a `Generation` holds it.
-/

namespace LocalAi.ToolLoop

open Responses (Hosted Kinds ToolOutput Outcome)
open Responses.State (Signal StopReason)
open History (Message Call)

variable {L D : Type}

/-! ### Turns -/

/-- The assistant turn a round generated. -/
structure Turn where
  reasoning : Text
  content : Text
  calls : List ToolCall

def Turn.empty : Turn := ⟨[], [], []⟩

def Turn.isEmpty (turn : Turn) : Bool :=
  turn.reasoning.isEmpty && turn.content.isEmpty && turn.calls.isEmpty

def Turn.hear (turn : Turn) : Event L → Turn
  | .reasoning piece => { turn with reasoning := turn.reasoning ++ piece }
  | .content piece => { turn with content := turn.content ++ piece }
  | .toolCall call => { turn with calls := turn.calls ++ [call] }
  | _ => turn

/-- `forward`: the turn of a generation whose events are all sent on. -/
def forward (events : List (Event L)) : Turn := events.foldl Turn.hear .empty

/-! ### Running calls -/

structure Spent where
  rounds : Nat
  calls : Nat
  toolTime : Nat
  generated : Nat

structure Bounds where
  maxIterations : Nat
  budget : Nat

/-- What one Response's loop runs with. -/
structure Loop where
  kinds : Kinds
  bounds : Bounds
  maxCalls : Option Nat
  /-- The request's `max_tokens`, which covers all rounds. -/
  maxTokens : Nat
  /-- Why no further call may run. -/
  denied : Spent → Text
  /-- A call's arguments as the request of its operation. -/
  request : Hosted → Json → Except Text Unit

/-- What a tool returned: the text for the model and a shell's runs. -/
structure Output where
  modelText : Text
  runs : List Json

/-- How long a tool ran and what it returned. -/
structure Ran where
  elapsed : Nat
  result : Except Text Output

inductive Ended
  | finished (stopReason : StopReason) (generated : Nat)
  | failed (error : Text)
  | gone

/-- One generation and what comes of its calls. -/
structure Generation (L : Type) where
  events : List (Event L)
  ended : Ended
  /-- The error of the hook that runs before the first hosted call. -/
  beforeTools : Option Text
  /-- A call of the toolbox; `none` when the consumer cancels while it runs. -/
  runs : ToolCall → Option Ran
  /-- A `file_search` call whose first result has this number: its output, what was spent and
  the number of the next result. -/
  search : ToolCall → Spent → Nat → Option (ToolOutput × Spent × Nat)
  /-- The consumer cancelled before the next generation was submitted. -/
  cancelled : Bool
  /-- Why the next generation was refused. -/
  refused : Option Text

def Loop.exhausted (loop : Loop) (spent : Spent) : Bool :=
  decide (loop.bounds.maxIterations ≤ spent.rounds) ||
    loop.maxCalls.any (fun most => decide (most ≤ spent.calls)) ||
    decide (loop.bounds.budget ≤ spent.toolTime)

/-- Run one toolbox call within the bounds. -/
def execute (loop : Loop) (generation : Generation L) (call : ToolCall) (operation : Hosted)
    (spent : Spent) : Option (Except Text Output × Spent) :=
  if loop.exhausted spent then some (.error (loop.denied spent), spent)
  else
    match loop.request operation call.arguments with
    | .error message => some (.error message, spent)
    | .ok _ =>
      (generation.runs call).map fun ran =>
        (ran.result,
          { spent with calls := spent.calls + 1, toolTime := spent.toolTime + ran.elapsed })

/-- The text the model reads for a hosted result; a failure says it is one. -/
def outputText : Except Text Output → Text
  | .ok output => output.modelText
  | .error message => "error: ".toList ++ message

/-- The exit code of a command that was not run. -/
def notExecuted : Json := .number "126".toList

/-- A shell's record of a call that failed. -/
def shellFailure (message : Text) : Json :=
  .object [("stdout".toList, .string []), ("stderr".toList, .string message),
    ("outcome".toList, .object [("type".toList, .string "exit".toList),
      ("exit_code".toList, notExecuted)])]

def toolOutput (call : ToolCall) (operation : Hosted) (result : Except Text Output) :
    ToolOutput where
  callId := call.id
  name := call.name
  content := outputText result
  status :=
    match result with
    | .ok _ => some .completed
    | .error _ => some .incomplete
  output :=
    match operation, result with
    | .shell, .ok output => some output.runs
    | .shell, .error message => some [shellFailure message]
    | _, _ => none
  results := none
  first := none

/-- Run one hosted call and report its output; `none` when the consumer cancelled while it
ran.  `marker` numbers file search results. -/
def runCall (loop : Loop) (generation : Generation L) (call : ToolCall) (operation : Hosted)
    (spent : Spent) (marker : Nat) : Option (ToolOutput × Spent × Nat) :=
  if operation = .fileSearch then generation.search call spent marker
  else
    (execute loop generation call operation spent).map fun ran =>
      (toolOutput call operation ran.1, ran.2, marker)

/-- The outputs of the hosted calls, in order, and what was spent unless the consumer
cancelled. -/
def runCalls (loop : Loop) (generation : Generation L) :
    List (ToolCall × Hosted) → Spent → Nat → List ToolOutput × Option (Spent × Nat)
  | [], spent, marker => ([], some (spent, marker))
  | (call, operation) :: calls, spent, marker =>
    match runCall loop generation call operation spent marker with
    | none => ([], none)
    | some (output, spent, marker) =>
      let rest := runCalls loop generation calls spent marker
      (output :: rest.1, rest.2)

/-! ### The loop -/

def Loop.hosted (loop : Loop) (name : Text) : Option Hosted :=
  match loop.kinds.kind name with
  | .hosted operation => some operation
  | _ => none

def hostedCalls (loop : Loop) (turn : Turn) : List (ToolCall × Hosted) :=
  turn.calls.filterMap fun call => (loop.hosted call.name).map fun operation => (call, operation)

section Messages

variable (printed : CallId → Text)

def chatCall (call : ToolCall) : Call := ⟨printed call.id, call.name, call.arguments⟩

def assistantMessage (turn : Turn) : Message D where
  role := .assistant
  content := turn.content
  reasoning := if turn.reasoning.isEmpty then none else some turn.reasoning
  calls := turn.calls.map (chatCall printed)
  callId := none
  images := []

def toolMessage (output : ToolOutput) : Message D :=
  History.plain .tool output.content (some (printed output.callId))

def roundMessages (turn : Turn) (outputs : List ToolOutput) : List (Message D) :=
  assistantMessage printed turn :: outputs.map (toolMessage printed)

end Messages

/-- A generation that was forwarded, and the outputs of its calls. -/
structure Round (L : Type) where
  events : List (Event L)
  outputs : List ToolOutput

/-- What a round sends to the consumer. -/
def Round.sent (round : Round L) : List (Signal L) :=
  round.events.map .engine ++ round.outputs.map .toolOutput

/-- What the loop did: the rounds whose messages it appended to the request, and the one it
ended with. -/
structure Trace (L : Type) where
  appended : List (Round L)
  last : Round L

def Trace.rounds (trace : Trace L) : List (Round L) := trace.appended ++ [trace.last]

/-- What the consumer is sent before the end. -/
def Trace.sent (trace : Trace L) : List (Signal L) := trace.rounds.flatMap Round.sent

def Trace.messages (printed : CallId → Text) (trace : Trace L) : List (Message D) :=
  trace.appended.flatMap fun round => roundMessages printed (forward round.events) round.outputs

def Trace.lastTurn (printed : CallId → Text) (trace : Trace L) : List (Message D) :=
  if (forward trace.last.events).isEmpty then []
  else roundMessages printed (forward trace.last.events) trace.last.outputs

def Trace.ends (round : Round L) : Trace L := ⟨[], round⟩

/-- Another round is appended before the others. -/
def Trace.after (round : Round L) (trace : Trace L) : Trace L :=
  ⟨round :: trace.appended, trace.last⟩

def rounds (loop : Loop) : List (Generation L) → Spent → Nat → Trace L
  -- the engine stopped
  | [], _, _ => .ends ⟨[], []⟩
  | generation :: more, spent, marker =>
    let events := generation.events
    match generation.ended with
    | .failed _ => .ends ⟨events, []⟩
    | .gone => .ends ⟨events, []⟩
    | .finished stopReason generated =>
      let spent := { spent with generated := spent.generated + generated }
      let turn := forward events
      let hosted := hostedCalls loop turn
      if hosted.isEmpty || stopReason != .eos then .ends ⟨events, []⟩
      else if generation.beforeTools.isSome then .ends ⟨events, []⟩
      else
        match runCalls loop generation hosted spent marker with
        | (outputs, none) => .ends ⟨events, outputs⟩
        | (outputs, some (spent, marker)) =>
          -- a call is left for the client
          if hosted.length < turn.calls.length then .ends ⟨events, outputs⟩
          else
            let spent := { spent with rounds := spent.rounds + 1 }
            if loop.maxTokens - spent.generated = 0 then .ends ⟨events, outputs⟩
            else if generation.cancelled || generation.refused.isSome then
              .after ⟨events, outputs⟩ (.ends ⟨[], []⟩)
            else .after ⟨events, outputs⟩ (rounds loop more spent marker)

/-- The loop over a request's generations. -/
def run (loop : Loop) (generations : List (Generation L)) : Trace L :=
  rounds loop generations ⟨0, 0, 0, 0⟩ 1

end LocalAi.ToolLoop
