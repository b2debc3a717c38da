import LocalAi.Responses.State
import LocalAi.Tools.Spells

/-!
# Chat Completions

What the two forms of a Chat Completions answer have in common: the labels of the reply, how a
call and the end of the generation are told, and what the engine sends for one generation.

* `chatFinishReason`, `checked`, `chatToolCall`, `usageJson`.
* `Heard`, `Allowed`, `Course`: the signals of one generation.
-/

namespace LocalAi.Chat

open Responses.State (StopReason unfinishedMessage)
open Responses (argumentsText)

variable {L : Type}

def nat (n : Nat) : Json := .number (Nat.toDigits 10 n)

def str (string : String) : Json := .string string.toList

structure Reply where
  /-- `stream_options.include_usage`: a final chunk with the usage. -/
  includeUsage : Bool
  /-- The choice reports its content tokens' log-probabilities. -/
  logprobs : Bool
  id : Text
  created : Nat
  model : Text

/-- The tier of the prompt cache a request used. -/
inductive PromptCacheSource
  | none
  | gpu
  | host
  | disk

def PromptCacheSource.json : PromptCacheSource → Json
  | .none => str "none"
  | .gpu => str "gpu"
  | .host => str "host"
  | .disk => str "disk"

/-- The measurements of a generation.  The timings and what speculation did hold seconds as
`serde_json` prints them. -/
structure Stats where
  stopReason : StopReason
  cacheSource : PromptCacheSource
  reasoningTokens : Nat
  promptTokens : Nat
  reusedPromptTokens : Nat
  generatedTokens : Nat
  responseFormatComplete : Option Bool
  timings : Json
  speculation : Json

def usageJson (stats : Stats) : Json :=
  .object [("prompt_tokens".toList, nat stats.promptTokens),
    ("prompt_tokens_details".toList,
      .object [("cached_tokens".toList, nat stats.reusedPromptTokens),
        ("cache_source".toList, stats.cacheSource.json)]),
    ("completion_tokens".toList, nat stats.generatedTokens),
    ("completion_tokens_details".toList,
      .object [("reasoning_tokens".toList, nat stats.reasoningTokens)]),
    ("total_tokens".toList, nat (stats.promptTokens + stats.generatedTokens))]

def finishReason : StopReason → Text
  | .eos | .stopped => "stop".toList
  | .tokenLimit => "length".toList
  | .cancelled => "cancelled".toList

/-- A turn that ended on calls says so, unless a token limit cut it short. -/
def chatFinishReason (reason : StopReason) (called : Bool) : Text :=
  match reason, called with
  | .eos, true | .stopped, true => "tool_calls".toList
  | reason, _ => finishReason reason

/-- A generation that stopped at end-of-sequence without the answer its format requires. -/
def unfinishedFormat (stats : Stats) : Option Text :=
  if stats.stopReason = .eos ∧ stats.responseFormatComplete = some false then
    some unfinishedMessage
  else none

/-- What a consumer of a generation waits for: a prefill boundary or an event. -/
inductive Signal (L : Type)
  | progress
  | event (event : Event L)
  | tokenIds (ids : List Nat)
  | finished (stats : Stats)
  | error (message : Text)

/-- A `Finished` without the structured answer it promises is the error it is. -/
def checked : Signal L → Signal L
  | .finished stats =>
    match unfinishedFormat stats with
    | none => .finished stats
    | some message => .error message
  | signal => signal

section Calls

variable (printed : CallId → Text)

/-- A call in the wire shape, at its position in the turn. -/
def chatToolCall (index : Nat) (call : ToolCall) : List (Text × Json) :=
  [("index".toList, nat index), ("id".toList, .string (printed call.id)),
    ("type".toList, str "function"),
    ("function".toList, .object [("name".toList, .string call.name),
      ("arguments".toList, .string (argumentsText call))])]

end Calls

/-! ### The signals of a generation -/

/-- A call whose arguments are streaming, and the arguments so far. -/
structure Live where
  id : CallId
  name : Text
  arguments : Text

structure Heard (L : Type) where
  reasoning : Text
  content : Text
  /-- A piece of reasoning or of the answer arrived. -/
  reasoned : Bool
  answered : Bool
  calls : List ToolCall
  live : Option Live
  logprobs : List L
  /-- The log-probabilities whose content has not come yet. -/
  owed : List L

def Heard.empty : Heard L := ⟨[], [], false, false, [], none, [], []⟩

def Heard.hear (h : Heard L) : Signal L → Heard L
  | .event (.reasoning piece) => { h with reasoning := h.reasoning ++ piece, reasoned := true }
  | .event (.content piece) =>
    { h with
      content := h.content ++ piece, answered := true, logprobs := h.logprobs ++ h.owed, owed := [] }
  | .event (.logprobs tokens) => { h with owed := h.owed ++ tokens }
  | .event (.toolCallDelta delta) =>
    { h with
      live := some ⟨delta.id, delta.name, (h.live.elim [] Live.arguments) ++ delta.arguments⟩ }
  | .event (.toolCall call) => { h with calls := h.calls ++ [call], live := none }
  | _ => h

/-- What may come next before the end: prefill boundaries before the first text, reasoning
before content, and the deltas of a call before the call. -/
def Allowed (logprobs : Bool) (h : Heard L) : Signal L → Prop
  | .progress => h.reasoned = false ∧ h.answered = false
  | .tokenIds _ => True
  | .event (.reasoning _) => h.answered = false ∧ h.live = none
  | .event (.content _) => h.live = none
  | .event (.logprobs _) => logprobs = true
  | .event (.toolCallDelta delta) =>
    ∀ live, h.live = some live → live.id = delta.id ∧ live.name = delta.name
  | .event (.toolCall call) =>
    ∀ live, h.live = some live →
      live.id = call.id ∧ live.name = call.name ∧ live.arguments <+: argumentsText call
  | .finished _ => False
  | .error _ => False

/-- What the engine can send before the end, after what was heard. -/
def Course (logprobs : Bool) : Heard L → List (Signal L) → Prop
  | _, [] => True
  | h, signal :: signals => Allowed logprobs h signal ∧ Course logprobs (h.hear signal) signals

def heard (signals : List (Signal L)) : Heard L := signals.foldl Heard.hear .empty

/-- How a generation ends: a call is dropped only by a token limit or a cancellation, and no
content is missing. -/
def Ends (h : Heard L) (stats : Stats) : Prop :=
  (h.live ≠ none → stats.stopReason = .tokenLimit ∨ stats.stopReason = .cancelled) ∧ h.owed = []

end LocalAi.Chat
