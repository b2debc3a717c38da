import LocalAi.Responses.Item
import LocalAi.Tools.Parser

/-!
# The Response state machine

Engine events become output items, the events a streaming client receives and the
document of the Response.

* `State`: `ResponsesState`; its five kinds of unfinished work are the open text item,
  the call whose arguments stream, the reasoning item that waits for its summary, the
  file searches that run, and the citation text held back.
* `finish`, `fail`, `cancelled`: how a Response ends.
-/

namespace LocalAi.Responses

variable {L : Type}

inductive ItemKind
  | reasoning
  | message
deriving DecidableEq

def ItemKind.channel : ItemKind → Channel
  | .reasoning => .reasoning
  | .message => .output

def ItemKind.idPrefix : ItemKind → Text
  | .reasoning => "rs".toList
  | .message => "msg".toList

def ItemKind.emptyBody : ItemKind → Body L
  | .reasoning => .reasoning [] none none
  | .message => .message none

def ItemKind.emptyPart : ItemKind → Part L
  | .reasoning => .reasoningText []
  | .message => .outputText [] [] []

/-- The text item that is being written. -/
structure Open (L : Type) where
  kind : ItemKind
  id : Text
  index : Nat
  text : Text
  chars : Nat
  annotations : List Annotation
  logprobs : List L

/-- A call whose arguments (or input) are streaming. -/
structure OpenCall (L : Type) where
  callId : CallId
  id : Text
  index : Nat
  custom : Bool
  /-- The item as it was announced. -/
  item : Item L
  streamed : Text

/-- What of the request a Response is built with. -/
structure Echo where
  /-- Shared by every item id. -/
  stem : Text
  /-- The compaction item made before generation: its id behind `cmp_`, its content. -/
  compaction : Option (Text × Text)
  /-- A summary of the reasoning is requested. -/
  summary : Bool
  kinds : Kinds
  /-- Seals a reasoning item's id and text. -/
  cipher : Option (Text → Text → Except Text Text)
  /-- File search items list their results. -/
  fileSearchResults : Bool

structure State (L : Type) where
  streaming : Bool
  sequence : Nat
  events : List (Nat × StreamEvent L)
  /-- Reserved slots are empty until their item is there. -/
  output : List (Option (Item L))
  opened : Option (Open L)
  calling : Option (OpenCall L)
  encryptionError : Option Text
  /-- The reasoning item whose `done` waits for its summary. -/
  deferred : Option Nat
  /-- The index of each search that runs, by its call. -/
  searching : List (CallId × Nat)
  citations : Citations
  /-- Log-probabilities of the tokens behind the next message text. -/
  logprobs : List L

def Echo.compactionItem (echo : Echo) : Option (Item L) :=
  echo.compaction.map fun item => ⟨"cmp_".toList ++ item.1, none, .compaction item.2⟩

def paddedIndex (n : Nat) : Text := if n < 10 then '0' :: Nat.toDigits 10 n else Nat.toDigits 10 n

def Echo.itemId (echo : Echo) (kind : Text) (index : Nat) : Text :=
  kind ++ '_' :: echo.stem ++ paddedIndex index

namespace State

def new (echo : Echo) (streaming : Bool) : State L where
  streaming := streaming
  sequence := 0
  events := []
  output := echo.compactionItem.toList.map some
  opened := none
  calling := none
  encryptionError := none
  deferred := none
  searching := []
  citations := ⟨[], []⟩
  logprobs := []

def emit (s : State L) (event : StreamEvent L) : State L :=
  if s.streaming then
    { s with events := s.events ++ [(s.sequence, event)], sequence := s.sequence + 1 }
  else
    s

def emitAll (s : State L) (events : List (StreamEvent L)) : State L := events.foldl emit s

/-- Put `item` in its slot. -/
def place (s : State L) (index : Nat) (item : Item L) : State L :=
  { s with output := s.output.set index (some item) }

def response (s : State L) (status : DocumentStatus) (error : Option Text) : Document L :=
  ⟨status, s.output.filterMap id, error⟩

variable (echo : Echo)

/-- The compaction item is complete, as item 0. -/
def announceCompaction (s : State L) : State L :=
  match echo.compactionItem with
  | none => s
  | some item => (s.emit (.itemAdded 0 item)).emit (.itemDone 0 item)

def start (s : State L) : State L :=
  let s := s.emit (.created (s.response .inProgress none))
  let s := s.emit (.inProgress (s.response .inProgress none))
  s.announceCompaction echo

/-- A background stream's opening, before anything has run. -/
def startQueued (s : State L) : State L :=
  let response := s.response .queued none
  (s.emit (.created response)).emit (.queued response)

/-- The engine has started a background job. -/
def started (s : State L) : State L :=
  let s := s.emit (.inProgress (s.response .inProgress none))
  s.announceCompaction echo

def append (s : State L) (kind : ItemKind) (piece : Text) : State L :=
  match s.opened with
  | none => s
  | some item =>
    if piece.isEmpty then
      s
    else
      let item := { item with text := item.text ++ piece, chars := item.chars + piece.length }
      match kind with
      | .reasoning =>
        { s with opened := some item }.emit (.delta .reasoning item.index (some item.id) piece [])
      | .message =>
        let tokens := s.logprobs
        let item := { item with logprobs := item.logprobs ++ tokens }
        { s with opened := some item, logprobs := [] }.emit
          (.delta .output item.index (some item.id) piece tokens)

def newAnnotations (chars : Nat) :
    List Annotation → List (Text × Text) → List (Nat × Annotation)
  | _, [] => []
  | present, (fileId, filename) :: cited =>
    let citation : Annotation := ⟨fileId, filename, chars⟩
    if citation ∈ present then
      newAnnotations chars present cited
    else
      (present.length, citation) :: newAnnotations chars (present ++ [citation]) cited

/-- Annotate the open message at the end of its text so far. -/
def cite (s : State L) (cited : List (Text × Text)) : State L :=
  match s.opened with
  | none => s
  | some item =>
    let added := newAnnotations item.chars item.annotations cited
    let item := { item with annotations := item.annotations ++ added.map Prod.snd }
    { s with opened := some item }.emitAll
      (added.map fun (entry : Nat × Annotation) => .annotationAdded item.index item.id entry.1 entry.2)

def wholeText (live : OpenCall L) : Option ToolCall → Text
  | some call => if live.custom then inputText call else argumentsText call
  | none => live.streamed

/-- Finish the streaming call: emit what its validated `call` adds to what streamed,
then `done` with `status`. -/
def finishStreamed (s : State L) (live : OpenCall L) (call : Option ToolCall)
    (status : ItemStatus) : State L :=
  let whole := wholeText live call
  let rest := (Tools.getFrom (utf8Len live.streamed) whole).getD []
  let channel := if live.custom then .input else .arguments
  let s := if rest.isEmpty then s else s.emit (.delta channel live.index (some live.id) rest [])
  let s := s.emit (.done channel live.index (some live.id) whole [])
  let body :=
    match live.item.body with
    | .customToolCall callId name _ => .customToolCall callId name whole
    | .functionCall callId name _ => .functionCall callId name whole
    | body => body
  let item := { live.item with
    status := if live.custom then live.item.status else some status
    body := body }
  (s.emit (.itemDone live.index item)).place live.index item

/-- A call the engine never completed keeps what streamed. -/
def closeCall (s : State L) : State L :=
  match s.calling with
  | none => s
  | some live => { s with calling := none }.finishStreamed live none .incomplete

/-- Whitespace that was held back in case a citation marker followed. -/
def closeHeld (s : State L) : State L :=
  match s.opened with
  | some ⟨.message, _, _, _, _, _, _⟩ =>
    let (held, citations) := s.citations.flush
    { s with citations := citations }.append .message held
  | _ => s

/-- A reasoning item's sealed text, or why it could not be sealed. -/
def sealedText (id text : Text) : Option Text × Option Text :=
  match echo.cipher with
  | none => (none, none)
  | some cipher =>
    match cipher id text with
    | .ok envelope => (some envelope, none)
    | .error error => (none, some error)

/-- Finish the open text item; a reasoning item is done only once its summary is. -/
def closeText (s : State L) (status : ItemStatus) : State L :=
  match s.opened with
  | none => s
  | some ⟨kind, id, index, text, _, annotations, logprobs⟩ =>
    let s := { s with opened := none }
    match kind with
    | .reasoning =>
      let part := Part.reasoningText text
      let s := s.emit (.done .reasoning index (some id) text [])
      let s := s.emit (.partDone index id part)
      let (envelope, error) := sealedText echo id text
      let s := { s with encryptionError := error <|> s.encryptionError }
      let item : Item L := ⟨id, some status, .reasoning [] (some part) envelope⟩
      if echo.summary then
        { s.place index item with deferred := some index }
      else
        (s.emit (.itemDone index item)).place index item
    | .message =>
      let part := Part.outputText text annotations logprobs
      let s := s.emit (.done .output index (some id) text logprobs)
      let s := s.emit (.partDone index id part)
      let item : Item L := ⟨id, some status, .message (some part)⟩
      (s.emit (.itemDone index item)).place index item

/-- Finish what is being written, if anything. -/
def close (s : State L) (status : ItemStatus) : State L :=
  s.closeCall.closeHeld.closeText echo status

def openText (s : State L) (kind : ItemKind) : State L :=
  let index := s.output.length
  let id := echo.itemId kind.idPrefix index
  let s := s.emit (.itemAdded index ⟨id, some .inProgress, kind.emptyBody⟩)
  let s := s.emit (.partAdded index id kind.emptyPart)
  { s with output := s.output ++ [none], opened := some ⟨kind, id, index, [], 0, [], []⟩ }

def piece (s : State L) : Piece → State L
  | .text text => s.append .message text
  | .cite cited => s.cite cited

/-- Append text to the item of `kind`, opening it (and closing any other). -/
def text (s : State L) (kind : ItemKind) (piece : Text) : State L :=
  let s := if s.opened.any fun item => item.kind = kind then s else
    (s.close echo .completed).openText echo kind
  if kind = .message ∧ s.citations.active then
    let (pieces, citations) := s.citations.filter piece
    pieces.foldl State.piece { s with citations := citations }
  else
    s.append kind piece

/-- Finish the deferred reasoning item, if any, with `summary`. -/
def release (s : State L) (summary : List Text) : State L :=
  match s.deferred with
  | none => s
  | some index =>
    let s := { s with deferred := none }
    match s.output[index]? with
    | some (some item) =>
      let body :=
        match item.body with
        | .reasoning _ content encrypted => .reasoning summary content encrypted
        | body => body
      let item := { item with body := body }
      (s.place index item).emit (.itemDone index item)
    | _ => s

/-- What a summary's generation produced: the pieces it streamed and why it failed. -/
structure Generated where
  pieces : List Text
  error : Option Text

/-- Summarize the deferred reasoning item, streaming the summary, then finish the item;
`generated` is none without a summarizer.  Returns why it failed. -/
def summarize (s : State L) (generated : Option Generated) : State L × Option Text :=
  match s.deferred, echo.summary with
  | some index, true =>
    match s.output[index]? with
    | some (some item) =>
      match generated with
      | none => (s.release [], some "reasoning.summary has no summarizer on this server".toList)
      | some ⟨pieces, error⟩ =>
        -- the part opens with the first piece
        if error.isSome && pieces.isEmpty then
          (s.release [], error)
        else
          let s := s.emit (.summaryPartAdded index item.id)
          let s := s.emitAll (pieces.map fun piece =>
            .delta .summary index (some item.id) piece [])
          let text := pieces.flatten
          let s := s.emit (.done .summary index (some item.id) text [])
          let s := s.emit (.summaryPartDone index item.id text)
          let s := if error.isSome then s.place index { item with status := some .incomplete } else s
          (s.release [text], error)
    | _ => (s, none)
  | _, _ => (s, none)

def deltaText (live : OpenCall L) (delta : ToolCallDelta) : Text :=
  if live.custom then
    match delta.text with
    | some (parameter, text) => if parameter = "input".toList then text else []
    | none => []
  else
    delta.arguments

def announcedCall (delta : ToolCallDelta) (index : Nat) : OpenCall L :=
  let kind := echo.kinds.kind delta.name
  let id := echo.itemId (callPrefix kind) index
  let name := echo.kinds.qualify delta.name
  if kind = .custom then
    ⟨delta.id, id, index, true, ⟨id, none, .customToolCall delta.id name []⟩, []⟩
  else
    ⟨delta.id, id, index, false, ⟨id, some .inProgress, .functionCall delta.id name []⟩, []⟩

def openCall (s : State L) (delta : ToolCallDelta) : State L :=
  let live := announcedCall echo delta s.output.length
  let s := s.emit (.itemAdded live.index live.item)
  { s with output := s.output ++ [none], calling := some live }

/-- The next part of a call's arguments; a call that is rendered whole waits for its
end. -/
def callDelta (s : State L) (delta : ToolCallDelta) : State L :=
  let kind := echo.kinds.kind delta.name
  if kind = .hosted .shell ∨ kind = .hosted .fileSearch ∨ kind = .localShell ∨ kind = .applyPatch then
    s
  else
    let s := if s.calling.any fun live => live.callId = delta.id then s else
      (s.close echo .completed).openCall echo delta
    match s.calling with
    | none => s
    | some live =>
      let piece := deltaText live delta
      if piece.isEmpty then
        s
      else
        let channel := if live.custom then .input else .arguments
        { s with calling := some { live with streamed := live.streamed ++ piece } }.emit
          (.delta channel live.index (some live.id) piece [])

def pushRendered (s : State L) (rendered : Rendered L) : State L :=
  let s := s.emitAll rendered.events
  { s with output := s.output ++ [some rendered.item] }

/-- A function call that was reported only whole. -/
def wholeCall (id : Text) (index : Nat) (call : ToolCall) : Rendered L :=
  let name := echo.kinds.qualify call.name
  rendered index ⟨id, some .inProgress, .functionCall call.id name []⟩
    ⟨id, some .completed, .functionCall call.id name (argumentsText call)⟩
    [.delta .arguments index (some id) (argumentsText call) [],
      .done .arguments index (some id) (argumentsText call) []]

/-- A complete, validated call: the end of the call its deltas streamed, or a call
reported only whole. -/
def call (s : State L) (call : ToolCall) : State L :=
  match s.calling.filter fun live => live.callId = call.id with
  | some live => { s with calling := none }.finishStreamed live (some call) .completed
  | none =>
    let s := s.close echo .completed
    let index := s.output.length
    let kind := echo.kinds.kind call.name
    let id := echo.itemId (callPrefix kind) index
    if kind = .hosted .fileSearch then
      let searching := s.searching.filter fun entry => entry.1 ≠ call.id
      { s with searching := searching ++ [(call.id, index)] }.pushRendered
        (searchStarted id index call)
    else
      s.pushRendered ((callItem echo.kinds kind id index call).getD (wholeCall echo id index call))

def toolOutput (s : State L) (output : ToolOutput) : State L :=
  let s := s.close echo .completed
  match s.searching.find? fun entry => entry.1 = output.callId with
  | some (_, index) =>
    let s := { s with searching := s.searching.filter fun entry => entry.1 ≠ output.callId }
    match s.output[index]? with
    | some (some item) =>
      let rendered := searchFinished item index output echo.fileSearchResults
      let s := (s.place index rendered.item).emitAll rendered.events
      { s with citations := s.citations.add output }
    | _ => s
  | none =>
    let index := s.output.length
    let kind := echo.kinds.kind output.name
    s.pushRendered (outputItem kind (echo.itemId (outputPrefix kind) index) index output)

def abandon (s : State L) (index : Nat) : State L :=
  match s.output[index]? with
  | some (some item) =>
    let item := { item with status := some .incomplete }
    (s.place index item).emit (.itemDone index item)
  | _ => s

/-- End the searches that still run, in order of their index. -/
def abandonSearches (s : State L) : State L :=
  ((s.searching.map Prod.snd).mergeSort).foldl abandon { s with searching := [] }

inductive Signal (L : Type)
  | engine (event : Event L)
  | toolOutput (output : ToolOutput)

def event (s : State L) : Signal L → State L
  | .engine (.reasoning piece) => s.text echo .reasoning piece
  | .engine (.content piece) => s.text echo .message piece
  | .engine (.toolCallDelta delta) => s.callDelta echo delta
  | .engine (.toolCall call) => s.call echo call
  | .engine (.logprobs tokens) => { s with logprobs := s.logprobs ++ tokens }
  | .toolOutput output => s.toolOutput echo output

/-! ### The end -/

def fail (s : State L) (message : Text) : State L × Document L :=
  let s := ((s.close echo .incomplete).abandonSearches.release []).emit (.error message)
  let response := s.response .failed (some message)
  (s.emit (.failed response), response)

/-- End a Response whose items could not be kept. -/
def notKept (s : State L) (message : Text) : State L × Document L :=
  let s := s.emit (.error message)
  let response := s.response .failed (some message)
  (s.emit (.failed response), response)

inductive StopReason
  | eos
  | stopped
  | tokenLimit
  | cancelled
deriving DecidableEq

/-- The end of a generation: why it stopped, whether the answer its format requires is
there, what the summary's generation produced, and why the Response was not kept. -/
structure Finished where
  stopReason : StopReason
  formatComplete : Option Bool
  summary : Option Generated
  unkept : Option Text

def unfinishedMessage : Text :=
  ("the model ended its turn during reasoning, before the answer the response format " ++
    "requires; no structured output was produced").toList

def cancelledMessage : Text := "generation was cancelled".toList

/-- The event and status of a Response that ended, the status of the item that was
being written and the Response's error. -/
def ending : StopReason →
    (Document L → StreamEvent L) × DocumentStatus × ItemStatus × Option Text
  | .eos | .stopped => (.completed, .completed, .completed, none)
  | .tokenLimit => (.incomplete, .incomplete, .incomplete, none)
  | .cancelled => (.failed, .failed, .incomplete, some cancelledMessage)

def finish (s : State L) (finished : Finished) : State L × Document L :=
  if finished.stopReason = .eos ∧ finished.formatComplete = some false then
    s.fail echo unfinishedMessage
  else
    let (event, status, itemStatus, error) := ending finished.stopReason
    let s := (s.close echo itemStatus).abandonSearches
    match s.encryptionError with
    | some message => { s with encryptionError := none }.fail echo message
    | none =>
      let (s, failure) := if finished.stopReason = .cancelled then (s.release [], none) else
        s.summarize echo finished.summary
      match failure with
      | some message => s.fail echo message
      | none =>
        let response := s.response status error
        match if error.isNone then finished.unkept else none with
        | some message => s.notKept message
        | none => (s.emit (event response), response)

/-- End the Response as cancelled, keeping the output so far. -/
def cancelled (s : State L) : State L × Document L :=
  let s := (s.close echo .incomplete).release []
  (s, s.response .cancelled none)

end State

end LocalAi.Responses
