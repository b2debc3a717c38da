import LocalAi.Chat.Document
import LocalAi.Tools.Sent

/-!
# The streamed answer

A streamed Chat Completions answer is a sequence of chunks, each with what one event added.

* `Told`, `Told.read`: a client that puts the chunks together.
* `Frames.Shows`: the state and the client after what was heard.
-/

open List

namespace LocalAi.Chat

open Responses (argumentsText)
open Tools (getFrom getFrom_append)

variable {L : Type}

/-! ### Chunks -/

inductive SseFrame
  | data (value : Json)
  | done
  | keepAlive

def SseFrame.text : SseFrame → Text
  | .data value => "data: ".toList ++ value.toText ++ "\n\n".toList
  | .done => "data: [DONE]\n\n".toList
  | .keepAlive => ": keep-alive\n\n".toList

structure Frames where
  reply : Reply
  /-- A chunk has carried `role`. -/
  announced : Bool
  /-- The calls begun so far. -/
  calls : Nat
  /-- The call whose arguments are streaming, and the bytes of them sent. -/
  opened : Option (CallId × Nat)
  /-- The log-probabilities of the tokens behind the next content chunk. -/
  logprobs : List Json

def Frames.new (reply : Reply) : Frames := ⟨reply, false, 0, none, []⟩

def chunkLabels (reply : Reply) : List (Text × Json) :=
  [("id".toList, .string reply.id), ("object".toList, str "chat.completion.chunk"),
    ("created".toList, nat reply.created), ("model".toList, .string reply.model)]

/-- A chunk; `more` is what is inserted into its choice afterwards. -/
def chunk (reply : Reply) (delta : List (Text × Json)) (finish : Json)
    (more : List (Text × Json)) : Json :=
  .object (chunkLabels reply ++ [("choices".toList, .array [.object ([("index".toList, nat 0),
    ("delta".toList, .object delta), ("finish_reason".toList, finish)] ++ more)])])

def usageChunk (reply : Reply) (stats : Stats) : Json :=
  .object (chunkLabels reply ++ [("choices".toList, .array []), ("usage".toList, usageJson stats)])

def errorFrame (message : Text) : SseFrame :=
  .data (.object [("error".toList, .object [("message".toList, .string message),
    ("type".toList, str "server_error"), ("code".toList, .null), ("param".toList, .null)])])

/-- The chunk of a delta; the first carries the role. -/
def Frames.say (frames : Frames) (delta more : List (Text × Json)) : List SseFrame × Frames :=
  let delta := if frames.announced then delta else delta ++ [("role".toList, str "assistant")]
  ([.data (chunk frames.reply delta .null more)], { frames with announced := true })

def callDelta (members : List (Text × Json)) : List (Text × Json) :=
  [("tool_calls".toList, .array [.object members])]

def moreArguments (index : Nat) (arguments : Text) : List (Text × Json) :=
  callDelta [("index".toList, nat index),
    ("function".toList, .object [("arguments".toList, .string arguments)])]

variable (printed : CallId → Text) (logprob : L → Json)

def chatFrames (frames : Frames) (signal : Signal L) : List SseFrame × Frames :=
  match checked signal with
  | .progress => ([.keepAlive], frames)
  | .event (.logprobs tokens) =>
    ([], { frames with logprobs := frames.logprobs ++ tokens.map logprob })
  | .event (.content piece) =>
    let more := if frames.logprobs.isEmpty then [] else
      [("logprobs".toList, logprobsJson (some frames.logprobs))]
    { frames with logprobs := [] }.say [("content".toList, .string piece)] more
  | .event (.reasoning piece) => frames.say [("reasoning_content".toList, .string piece)] []
  | .event (.toolCallDelta delta) =>
    match frames.opened with
    | some (id, sent) =>
      if id = delta.id then
        { frames with opened := some (id, sent + utf8Len delta.arguments) }.say
          (moreArguments (frames.calls - 1) delta.arguments) []
      else beginCall frames delta
    | none => beginCall frames delta
  | .event (.toolCall call) =>
    match frames.opened with
    | some (id, sent) =>
      if id = call.id then
        let rest := (getFrom sent (argumentsText call)).getD []
        if rest.isEmpty then ([], { frames with opened := none })
        else { frames with opened := none }.say (moreArguments (frames.calls - 1) rest) []
      else wholeCall { frames with opened := none } call
    | none => wholeCall frames call
  | .finished stats =>
    let finish := chatFinishReason stats.stopReason (decide (0 < frames.calls))
    (.data (chunk frames.reply [] (.string finish) []) ::
      ((if frames.reply.includeUsage then [.data (usageChunk frames.reply stats)] else []) ++
        [.done]), frames)
  | .error message => ([errorFrame message], frames)
  | .tokenIds _ => ([], frames)
where
  beginCall (frames : Frames) (delta : ToolCallDelta) : List SseFrame × Frames :=
    { frames with
      opened := some (delta.id, utf8Len delta.arguments), calls := frames.calls + 1 }.say
      (callDelta [("index".toList, nat frames.calls), ("id".toList, .string (printed delta.id)),
        ("type".toList, str "function"),
        ("function".toList, .object [("name".toList, .string delta.name),
          ("arguments".toList, .string delta.arguments)])]) []
  wholeCall (frames : Frames) (call : ToolCall) : List SseFrame × Frames :=
    { frames with calls := frames.calls + 1 }.say
      (callDelta (chatToolCall printed frames.calls call)) []

def streamed (frames : Frames) : List (Signal L) → List SseFrame
  | [] => []
  | signal :: signals =>
    (chatFrames printed logprob frames signal).1 ++
      streamed (chatFrames printed logprob frames signal).2 signals

/-! ### A client -/

structure ToldCall where
  id : Text
  name : Text
  arguments : Text

structure Told where
  reasoning : Text
  content : Text
  calls : List ToldCall
  logprobs : List Json
  finish : Option Text

def get (key : String) : Json → Json
  | .object members => (lookup key.toList members).getD .null
  | _ => .null

def items : Json → List Json
  | .array items => items
  | _ => []

def firstItem (value : Json) : Json := (items value).headD .null

def stringOf : Json → Option Text
  | .string text => some text
  | _ => none

def textOf (value : Json) : Text := (stringOf value).getD []

def numberOf : Json → Nat
  | .number text => Nat.ofDigitChars 10 text 0
  | _ => 0

/-- A delta of a call goes to the call at its index. -/
def addCall (calls : List ToldCall) (entry : Json) : List ToldCall :=
  let function := get "function" entry
  let arguments := textOf (get "arguments" function)
  let index := numberOf (get "index" entry)
  if index < calls.length then
    calls.modify index fun call => { call with arguments := call.arguments ++ arguments }
  else calls ++ [⟨textOf (get "id" entry), textOf (get "name" function), arguments⟩]

def Told.read (told : Told) (chunk : Json) : Told :=
  let choice := firstItem (get "choices" chunk)
  let delta := get "delta" choice
  { reasoning := told.reasoning ++ textOf (get "reasoning_content" delta)
    content := told.content ++ textOf (get "content" delta)
    calls := (items (get "tool_calls" delta)).foldl addCall told.calls
    logprobs := told.logprobs ++ items (get "content" (get "logprobs" choice))
    finish := stringOf (get "finish_reason" choice) <|> told.finish }

def Told.frame (told : Told) : SseFrame → Told
  | .data value => told.read value
  | .done | .keepAlive => told

def Told.empty : Told := ⟨[], [], [], [], none⟩

def told (frames : List SseFrame) : Told := frames.foldl Told.frame .empty

def listedCall (entry : Json) : ToldCall :=
  ⟨textOf (get "id" entry), textOf (get "name" (get "function" entry)),
    textOf (get "arguments" (get "function" entry))⟩

/-- What a client reads in a whole answer. -/
def answerOf (document : Json) : Told :=
  let choice := firstItem (get "choices" document)
  let message := get "message" choice
  { reasoning := textOf (get "reasoning_content" message)
    content := textOf (get "content" message)
    calls := (items (get "tool_calls" message)).map listedCall
    logprobs := items (get "content" (get "logprobs" choice))
    finish := stringOf (get "finish_reason" choice) }

/-! ### One signal -/

def toldCall (call : ToolCall) : ToldCall := ⟨printed call.id, call.name, argumentsText call⟩

def liveCall (live : Live) : ToldCall := ⟨printed live.id, live.name, live.arguments⟩

def heardTold (h : Heard L) : Told where
  reasoning := h.reasoning
  content := h.content
  calls := h.calls.map (toldCall printed) ++ h.live.toList.map (liveCall printed)
  logprobs := h.logprobs.map logprob
  finish := none

structure Frames.Shows (frames : Frames) (told : Told) (reply : Reply) (h : Heard L) : Prop where
  labelled : frames.reply = reply
  calls : frames.calls = h.calls.length + h.live.toList.length
  opened : frames.opened = h.live.map fun live => (live.id, utf8Len live.arguments)
  logprobs : frames.logprobs = h.owed.map logprob
  told : told = heardTold printed logprob h

theorem get_role (key : String) (delta : List (Text × Json)) (hk : key ≠ "role") :
    get key (.object (delta ++ [("role".toList, str "assistant")])) = get key (.object delta) := by
  have hne : ("role".toList == key.toList) = false := by
    rw [beq_eq_false_iff_ne]
    exact fun h => hk (String.toList_inj.mp h).symm
  have hl : lookup key.toList (delta ++ [("role".toList, str "assistant")]) =
      lookup key.toList delta := by
    simp only [lookup, find?_append, find?_cons, hne, find?_nil, Option.or_none]
  rw [get, get, hl]

theorem say_told (frames : Frames) (told : Told) (delta more : List (Text × Json)) :
    (frames.say delta more).1.foldl Told.frame told =
      { reasoning := told.reasoning ++ textOf (get "reasoning_content" (.object delta))
        content := told.content ++ textOf (get "content" (.object delta))
        calls := (items (get "tool_calls" (.object delta))).foldl addCall told.calls
        logprobs := told.logprobs ++ items (get "content" (get "logprobs" (.object more)))
        finish := told.finish } := by
  have hc : ∀ delta : List (Text × Json), told.read (chunk frames.reply delta .null more) =
      { reasoning := told.reasoning ++ textOf (get "reasoning_content" (.object delta))
        content := told.content ++ textOf (get "content" (.object delta))
        calls := (items (get "tool_calls" (.object delta))).foldl addCall told.calls
        logprobs := told.logprobs ++ items (get "content" (get "logprobs" (.object more)))
        finish := told.finish } := fun _ => rfl
  rw [Frames.say, foldl_cons, foldl_nil, Told.frame, hc]
  cases frames.announced with
  | true => rfl
  | false =>
    simp only [Bool.false_eq_true, if_false, get_role _ delta (show "reasoning_content" ≠ "role" by decide),
      get_role _ delta (show "content" ≠ "role" by decide),
      get_role _ delta (show "tool_calls" ≠ "role" by decide)]

theorem say_content (frames : Frames) (told : Told) (piece : Text) (more : List (Text × Json)) :
    (frames.say [("content".toList, .string piece)] more).1.foldl Told.frame told = { told with
        content := told.content ++ piece
        logprobs := told.logprobs ++ items (get "content" (get "logprobs" (.object more))) } := by
  have hn : textOf (get "reasoning_content"
      (.object [("content".toList, .string piece)])) = [] := rfl
  rw [say_told, hn, append_nil]
  rfl

theorem say_reasoning (frames : Frames) (told : Told) (piece : Text) :
    (frames.say [("reasoning_content".toList, .string piece)] []).1.foldl Told.frame told =
      { told with reasoning := told.reasoning ++ piece } := by
  have hn : textOf (get "content"
      (.object [("reasoning_content".toList, .string piece)])) = [] := rfl
  have ht : items (get "content" (get "logprobs" (.object []))) = [] := rfl
  rw [say_told, hn, ht, append_nil, append_nil]
  rfl

theorem say_call (frames : Frames) (told : Told) (members : List (Text × Json)) :
    (frames.say (callDelta members) []).1.foldl Told.frame told =
      { told with calls := addCall told.calls (.object members) } := by
  have hr : textOf (get "reasoning_content" (.object (callDelta members))) = [] := rfl
  have hc : textOf (get "content" (.object (callDelta members))) = [] := rfl
  have ht : items (get "content" (get "logprobs" (.object []))) = [] := rfl
  rw [say_told, hr, hc, ht, append_nil, append_nil, append_nil]
  rfl

section Signals

variable {printed logprob} {frames : Frames} {told : Told} {reply : Reply} {h : Heard L}

theorem addCall_new {calls : List ToldCall} {entry : Json} {index : Nat}
    (hi : numberOf (get "index" entry) = index) (hl : calls.length ≤ index) :
    addCall calls entry = calls ++ [listedCall entry] := by
  unfold addCall
  rw [if_neg (by omega)]
  rfl

theorem addCall_more (calls : List ToldCall) (last : ToldCall) (arguments : Text) :
    addCall (calls ++ [last])
        (.object [("index".toList, nat calls.length),
          ("function".toList, .object [("arguments".toList, .string arguments)])]) =
      calls ++ [{ last with arguments := last.arguments ++ arguments }] := by
  have hi : numberOf (nat calls.length) = calls.length := Nat.ofDigitChars_ten_toDigits
  show (if numberOf (nat calls.length) < (calls ++ [last]).length then
    (calls ++ [last]).modify (numberOf (nat calls.length)) fun call =>
      { call with arguments := call.arguments ++ arguments } else _) = _
  rw [hi, if_pos (by simp)]
  rw [modify_eq_take_cons_drop (by simp)]
  simp

theorem Frames.Shows.content (hs : frames.Shows printed logprob told reply h) (piece : Text) :
    (chatFrames printed logprob frames (.event (.content piece))).2.Shows printed logprob
      ((chatFrames printed logprob frames (.event (.content piece))).1.foldl Told.frame told)
      reply (h.hear (.event (.content piece))) := by
  refine ⟨hs.labelled, hs.calls, hs.opened, rfl, ?_⟩
  have ht : ∀ tokens : List Json, items (get "content" (get "logprobs" (.object
      (if tokens.isEmpty then [] else [("logprobs".toList, logprobsJson (some tokens))])))) =
        tokens := by
    intro tokens
    cases tokens with
    | nil => rfl
    | cons => rfl
  show (Frames.say _ _ _).1.foldl Told.frame told = _
  rw [say_content, ht, hs.told, hs.logprobs]
  simp only [heardTold, Heard.hear, map_append]

theorem Frames.Shows.reasoning (hs : frames.Shows printed logprob told reply h) (piece : Text) :
    (chatFrames printed logprob frames (.event (.reasoning piece))).2.Shows printed logprob
      ((chatFrames printed logprob frames (.event (.reasoning piece))).1.foldl Told.frame told)
      reply (h.hear (.event (.reasoning piece))) := by
  refine { hs with told := ?_ }
  show (Frames.say _ _ _).1.foldl Told.frame told = _
  rw [say_reasoning, hs.told]
  rfl

theorem beginsCall (hs : frames.Shows printed logprob told reply h) (hl : h.live = none)
    (frames' : Frames) (members : List (Text × Json))
    (hi : get "index" (.object members) = nat frames.calls) :
    (frames'.say (callDelta members) []).1.foldl Told.frame told =
      { heardTold printed logprob h with
        calls := h.calls.map (toldCall printed) ++ [listedCall (.object members)] } := by
  have hc : frames.calls = h.calls.length := by simp [hs.calls, hl]
  have hn : numberOf (get "index" (.object members)) = frames.calls := by
    rw [hi]
    exact Nat.ofDigitChars_ten_toDigits
  rw [say_call, hs.told, heardTold, hl]
  simp only [Option.toList_none, map_nil, append_nil]
  rw [addCall_new hn (by simp [hc])]

theorem moreCall (hs : frames.Shows printed logprob told reply h) {live : Live}
    (hl : h.live = some live) (frames' : Frames) (arguments : Text) :
    (frames'.say (moreArguments (frames.calls - 1) arguments) []).1.foldl Told.frame told =
      { heardTold printed logprob h with
        calls := h.calls.map (toldCall printed) ++
          [liveCall printed { live with arguments := live.arguments ++ arguments }] } := by
  have hc : frames.calls - 1 = (h.calls.map (toldCall printed)).length := by
    simp [hs.calls, hl]
  rw [moreArguments, say_call, hs.told, heardTold, hl, hc]
  simp only [Option.toList_some, map_cons, map_nil]
  rw [addCall_more]
  rfl

theorem Frames.Shows.delta (hs : frames.Shows printed logprob told reply h)
    {delta : ToolCallDelta} (ha : Allowed reply.logprobs h (.event (.toolCallDelta delta))) :
    (chatFrames printed logprob frames (.event (.toolCallDelta delta))).2.Shows printed logprob
      ((chatFrames printed logprob frames (.event (.toolCallDelta delta))).1.foldl Told.frame told)
      reply (h.hear (.event (.toolCallDelta delta))) := by
  have ho := hs.opened
  cases hl : h.live with
  | none =>
    rw [hl] at ho
    have hf : chatFrames printed logprob frames (.event (.toolCallDelta delta)) =
        chatFrames.beginCall printed frames delta := by
      simp only [chatFrames, checked, ho, Option.map_none]
    rw [hf]
    refine ⟨hs.labelled, ?_, ?_, hs.logprobs, ?_⟩
    · show frames.calls + 1 = _
      simp [hs.calls, hl, Heard.hear]
    · show some (delta.id, utf8Len delta.arguments) = _
      simp only [Heard.hear, hl, Option.map_some, Option.elim_none, nil_append]
    · rw [chatFrames.beginCall, beginsCall hs hl _ _ rfl]
      simp only [heardTold, Heard.hear, hl]
      rfl
  | some live =>
    obtain ⟨hid, hn⟩ := ha live hl
    rw [hl] at ho
    have hf : chatFrames printed logprob frames (.event (.toolCallDelta delta)) =
        { frames with opened := some (live.id, utf8Len live.arguments + utf8Len delta.arguments) }.say
          (moreArguments (frames.calls - 1) delta.arguments) [] := by
      simp only [chatFrames, checked, ho, Option.map_some, if_pos hid]
    rw [hf]
    refine ⟨hs.labelled, ?_, ?_, hs.logprobs, ?_⟩
    · show frames.calls = _
      simp [hs.calls, hl, Heard.hear]
    · show some (live.id, utf8Len live.arguments + utf8Len delta.arguments) = _
      simp only [Heard.hear, hl, Option.map_some, Option.elim_some, utf8Len_append, hid]
    · rw [moreCall hs hl]
      simp only [heardTold, Heard.hear, hl, ← hid, ← hn]
      rfl

theorem Frames.Shows.call (hs : frames.Shows printed logprob told reply h) {call : ToolCall}
    (ha : Allowed reply.logprobs h (.event (.toolCall call))) :
    (chatFrames printed logprob frames (.event (.toolCall call))).2.Shows printed logprob
      ((chatFrames printed logprob frames (.event (.toolCall call))).1.foldl Told.frame told)
      reply (h.hear (.event (.toolCall call))) := by
  have ho := hs.opened
  cases hl : h.live with
  | none =>
    rw [hl] at ho
    have hf : chatFrames printed logprob frames (.event (.toolCall call)) =
        chatFrames.wholeCall printed frames call := by
      simp only [chatFrames, checked, ho, Option.map_none]
    rw [hf]
    refine ⟨hs.labelled, ?_, ho, hs.logprobs, ?_⟩
    · show frames.calls + 1 = _
      simp [hs.calls, hl, Heard.hear]
    · rw [chatFrames.wholeCall, beginsCall hs hl _ _ rfl]
      simp only [heardTold, Heard.hear, map_append, Option.toList_none, map_nil, append_nil]
      rfl
  | some live =>
    obtain ⟨hid, hn, rest, hr⟩ := ha live hl
    rw [hl] at ho
    have hm : (getFrom (utf8Len live.arguments) (argumentsText call)).getD [] = rest := by
      rw [← hr, getFrom_append]
      rfl
    have hca : liveCall printed { live with arguments := live.arguments ++ rest } =
        toldCall printed call := by
      simp only [liveCall, toldCall, hid, hn, hr]
    have hla : heardTold printed logprob (h.hear (.event (.toolCall call))) =
        { heardTold printed logprob h with
          calls := h.calls.map (toldCall printed) ++
            [liveCall printed { live with arguments := live.arguments ++ rest }] } := by
      rw [hca]
      simp [heardTold, Heard.hear]
    have hc : frames.calls = (h.hear (.event (.toolCall call))).calls.length +
        (h.hear (.event (.toolCall call))).live.toList.length := by
      simp [hs.calls, hl, Heard.hear]
    by_cases he : rest.isEmpty = true
    · have hf : chatFrames printed logprob frames (.event (.toolCall call)) =
          ([], { frames with opened := none }) := by
        simp only [chatFrames, checked, ho, Option.map_some, if_pos hid, hm, if_pos he]
      rw [hf]
      refine ⟨hs.labelled, hc, rfl, hs.logprobs, ?_⟩
      rw [isEmpty_iff.mp he, append_nil] at hla
      rw [hla, foldl_nil, hs.told]
      simp [heardTold, hl]
    · have hf : chatFrames printed logprob frames (.event (.toolCall call)) =
          { frames with opened := none }.say (moreArguments (frames.calls - 1) rest) [] := by
        simp only [chatFrames, checked, ho, Option.map_some, if_pos hid, hm, if_neg he]
      rw [hf]
      refine ⟨hs.labelled, hc, rfl, hs.logprobs, ?_⟩
      rw [moreCall hs hl, hla]

theorem chatFrames_shows (hs : frames.Shows printed logprob told reply h) {signal : Signal L}
    (ha : Allowed reply.logprobs h signal) :
    (chatFrames printed logprob frames signal).2.Shows printed logprob
      ((chatFrames printed logprob frames signal).1.foldl Told.frame told) reply
      (h.hear signal) := by
  cases signal with
  | progress => exact hs
  | tokenIds => exact hs
  | finished => exact ha.elim
  | error => exact ha.elim
  | event event =>
    cases event with
    | content piece => exact hs.content piece
    | reasoning piece => exact hs.reasoning piece
    | toolCallDelta => exact hs.delta ha
    | toolCall => exact hs.call ha
    | logprobs tokens =>
      refine { hs with logprobs := ?_ }
      show frames.logprobs ++ tokens.map logprob = _
      simp [hs.logprobs, Heard.hear]

end Signals

end LocalAi.Chat
