import LocalAi.Tools.Json

/-!
# Output items and the events that announce them

A Response is a list of output items; its stream announces each, spells its text in
deltas and finishes it.

* `Item`: an output item, its status and what it holds.
* `callItem`, `outputItem`, `searchStarted`, `searchFinished`: items that are rendered
  with all their events.
* `Citations`: `【n】` markers taken out of answer text.
-/

namespace LocalAi.Responses

/-! ### Tools -/

inductive Hosted
  | list
  | read
  | search
  | write
  | edit
  | fetch
  | shell
  | fileSearch
deriving DecidableEq

/-- Who runs a tool, and how its calls are reported. -/
inductive Kind
  | function
  | custom
  | localShell
  | applyPatch
  | hosted (tool : Hosted)
deriving DecidableEq

/-- The kind of every declared tool, and the namespace and own name of every
namespaced one. -/
structure Kinds where
  kind : Text → Kind
  namespaced : Text → Option (Text × Text)

/-- A tool's name as an item reports it. -/
structure ToolName where
  name : Text
  space : Option Text

/-- `Kinds::qualify`. -/
def Kinds.qualify (kinds : Kinds) (name : Text) : ToolName :=
  match kinds.namespaced name with
  | some (space, own) => ⟨own, some space⟩
  | none => ⟨name, none⟩

inductive Outcome
  | completed
  | incomplete
  | failed
deriving DecidableEq

structure SearchResult where
  fileId : Text
  filename : Text

/-- A hosted call's result, with its own record of it. -/
structure ToolOutput where
  callId : CallId
  name : Text
  content : Text
  status : Option Outcome
  /-- What a shell's commands printed. -/
  output : Option (List Json)
  results : Option (List SearchResult)
  /-- The number of the first result's marker. -/
  first : Option Nat

/-! ### Items -/

inductive ItemStatus
  | inProgress
  | searching
  | completed
  | incomplete
  | failed
deriving DecidableEq

def Outcome.itemStatus : Outcome → ItemStatus
  | .completed => .completed
  | .incomplete => .incomplete
  | .failed => .failed

/-- A `file_citation`. -/
structure Annotation where
  fileId : Text
  filename : Text
  /-- The characters before it. -/
  index : Nat
deriving DecidableEq

variable {L : Type}

/-- The content part of a reasoning item or of a message; `L` is a token's
log-probability record. -/
inductive Part (L : Type)
  | reasoningText (text : Text)
  | outputText (text : Text) (annotations : List Annotation) (logprobs : List L)

def Part.text : Part L → Text
  | .reasoningText text => text
  | .outputText text _ _ => text

/-- What an item holds besides its id and status. -/
inductive Body (L : Type)
  | compaction (sealed : Text)
  | reasoning (summary : List Text) (content : Option (Part L)) (encrypted : Option Text)
  | message (content : Option (Part L))
  | functionCall (callId : CallId) (name : ToolName) (arguments : Text)
  | customToolCall (callId : CallId) (name : ToolName) (input : Text)
  | shellCall (callId : CallId) (commands : List Text) (timeout : Option Json)
  | localShellCall (callId : CallId) (command timeout workingDirectory : Option Json)
  | applyPatchCall (callId : CallId) (operation : List (Text × Json))
  | fileSearchCall (queries : List Text) (results : Option (List SearchResult))
  | functionCallOutput (callId : CallId) (output : Text)
  | shellCallOutput (callId : CallId) (output : List Json)

/-- An output item; a compaction item and a custom tool's call have no status. -/
structure Item (L : Type) where
  id : Text
  status : Option ItemStatus
  body : Body L

inductive Channel
  | reasoning
  | output
  | arguments
  | input
  | summary
  | command (index : Nat)
deriving DecidableEq

/-- The texts of an item that its deltas spell. -/
def Body.texts : Body L → List (Channel × Text)
  | .reasoning summary content _ =>
    (content.map fun part => (Channel.reasoning, part.text)).toList ++
      summary.map fun text => (Channel.summary, text)
  | .message content => (content.map fun part => (Channel.output, part.text)).toList
  | .functionCall _ _ arguments => [(.arguments, arguments)]
  | .customToolCall _ _ input => [(.input, input)]
  | .shellCall _ commands _ => commands.zipIdx.map fun command => (.command command.2, command.1)
  | _ => []

/-- An item that is not being worked on. -/
def Item.settled (item : Item L) : Bool :=
  item.status != some .inProgress && item.status != some .searching

/-! ### Events -/

inductive DocumentStatus
  | queued
  | inProgress
  | completed
  | incomplete
  | failed
  | cancelled

/-- A Response: its output, how it stands and why it ended so. -/
structure Document (L : Type) where
  status : DocumentStatus
  output : List (Item L)
  error : Option Text

/-- An event without its number; an event of an item has the item's index, and its id
where the source sends it. -/
inductive StreamEvent (L : Type)
  | created (response : Document L)
  | queued (response : Document L)
  | inProgress (response : Document L)
  | completed (response : Document L)
  | incomplete (response : Document L)
  | failed (response : Document L)
  | error (message : Text)
  | itemAdded (index : Nat) (item : Item L)
  | itemDone (index : Nat) (item : Item L)
  | partAdded (index : Nat) (id : Text) (part : Part L)
  | partDone (index : Nat) (id : Text) (part : Part L)
  | delta (channel : Channel) (index : Nat) (id : Option Text) (text : Text) (logprobs : List L)
  | done (channel : Channel) (index : Nat) (id : Option Text) (text : Text) (logprobs : List L)
  | annotationAdded (index : Nat) (id : Text) (annotationIndex : Nat) (citation : Annotation)
  | summaryPartAdded (index : Nat) (id : Text)
  | summaryPartDone (index : Nat) (id : Text) (text : Text)
  | commandAdded (index : Nat) (command : Nat)
  | shellOutputDone (index : Nat) (id : Text) (command : Nat) (output : Json)
  | searchInProgress (index : Nat) (id : Text)
  | searchSearching (index : Nat) (id : Text)
  | searchCompleted (index : Nat) (id : Text)

/-! ### Items rendered whole -/

/-- An output item and the events announcing it. -/
structure Rendered (L : Type) where
  item : Item L
  events : List (StreamEvent L)

def callPrefix : Kind → Text
  | .hosted .fileSearch => "fs".toList
  | .function | .hosted _ => "fc".toList
  | .custom => "ctc".toList
  | .localShell => "lsh".toList
  | .applyPatch => "apc".toList

def outputPrefix : Kind → Text
  | .hosted .shell => "sho".toList
  | _ => "fco".toList

def argument (call : ToolCall) (name : String) : Option Json :=
  match call.arguments with
  | .object members => lookup name.toList members
  | _ => none

def Json.asText : Json → Option Text
  | .string text => some text
  | _ => none

/-- The strings of an argument that is an array. -/
def stringItems : Option Json → List Text
  | some (.array items) => items.filterMap Json.asText
  | _ => []

def argumentsText (call : ToolCall) : Text := call.arguments.toText

def inputText (call : ToolCall) : Text := ((argument call "input").bind Json.asText).getD []

def commandEvents (index : Nat) (command : Text × Nat) : List (StreamEvent L) :=
  [.commandAdded index command.2, .delta (.command command.2) index none command.1 [],
    .done (.command command.2) index none command.1 []]

/-- A rendered item, announced first and finished last. -/
def rendered (index : Nat) (added item : Item L) (events : List (StreamEvent L)) : Rendered L :=
  ⟨item, .itemAdded index added :: events ++ [.itemDone index item]⟩

def callItem (kinds : Kinds) (kind : Kind) (id : Text) (index : Nat) (call : ToolCall) :
    Option (Rendered L) :=
  match kind with
  | .hosted .shell =>
    let commands := stringItems (argument call "commands")
    let body := Body.shellCall call.id commands (argument call "timeout_ms")
    some (rendered index ⟨id, some .inProgress, body⟩ ⟨id, some .completed, body⟩
      (commands.zipIdx.flatMap (commandEvents index)))
  | .custom =>
    let name := kinds.qualify call.name
    some (rendered index ⟨id, none, .customToolCall call.id name []⟩
      ⟨id, none, .customToolCall call.id name (inputText call)⟩
      [.delta .input index (some id) (inputText call) [],
        .done .input index (some id) (inputText call) []])
  | .localShell =>
    let body := Body.localShellCall call.id (argument call "command") (argument call "timeout_ms")
      (argument call "working_directory")
    some (rendered index ⟨id, some .inProgress, body⟩ ⟨id, some .completed, body⟩ [])
  | .applyPatch =>
    let operation := ["type", "path", "diff"].filterMap fun field =>
      (argument call field).map fun value => (field.toList, value)
    let body := Body.applyPatchCall call.id operation
    some (rendered index ⟨id, some .inProgress, body⟩ ⟨id, some .completed, body⟩ [])
  | .function | .hosted _ => none

/-- `output_item`: the item for a hosted call's result. -/
def outputItem (kind : Kind) (id : Text) (index : Nat) (output : ToolOutput) : Rendered L :=
  let status := (output.status.getD .completed).itemStatus
  if kind = .hosted .shell then
    let contents := output.output.getD []
    rendered index ⟨id, some .inProgress, .shellCallOutput output.callId []⟩
      ⟨id, some status, .shellCallOutput output.callId contents⟩
      (contents.zipIdx.map fun content => .shellOutputDone index id content.2 content.1)
  else
    rendered index ⟨id, some .inProgress, .functionCallOutput output.callId []⟩
      ⟨id, some status, .functionCallOutput output.callId output.content⟩ []

/-- `file_search::started`: the item of a search that runs. -/
def searchStarted (id : Text) (index : Nat) (call : ToolCall) : Rendered L :=
  let body := Body.fileSearchCall (stringItems (argument call "queries")) none
  ⟨⟨id, some .searching, body⟩,
    [.itemAdded index ⟨id, some .inProgress, body⟩, .searchInProgress index id,
      .searchSearching index id]⟩

/-- `file_search::finished`: `item` with its results, and the events that report it. -/
def searchFinished (item : Item L) (index : Nat) (output : ToolOutput) (listed : Bool) :
    Rendered L :=
  let status := output.status.getD .failed
  let results := if listed then output.results else none
  let body :=
    match item.body with
    | .fileSearchCall queries _ => .fileSearchCall queries results
    | body => body
  let item := { item with status := some status.itemStatus, body := body }
  ⟨item, (if status = .completed then [.searchCompleted index item.id] else []) ++
    [.itemDone index item]⟩

/-! ### Citations -/

/-- A piece of answer text after citation markers are taken out. -/
inductive Piece
  | text (text : Text)
  | cite (cited : List (Text × Text))

structure Citations where
  /-- Each result's marker number, file and name. -/
  sources : List (Nat × Text × Text)
  /-- Text not yet passed on. -/
  held : Text

def maxMarkerBytes : Nat := 64

namespace Citations

def source (citations : Citations) (number : Nat) : Option (Text × Text) :=
  (citations.sources.find? fun source => source.1 == number).map Prod.snd

/-- Record the results of a search as citable; a number's last result stands. -/
def add (citations : Citations) (output : ToolOutput) : Citations :=
  let first := output.first.getD 1
  let new := (output.results.getD []).zipIdx.map fun result =>
    (first + result.2, result.1.fileId, result.1.filename)
  { citations with sources := new.reverse ++ citations.sources }

def active (citations : Citations) : Bool := !citations.sources.isEmpty

/-- `str::parse` of digits to a `usize`. -/
def parseNumber (digits : Text) : Option Nat :=
  let value := digits.foldl (fun value c => value * 10 + (c.toNat - '0'.toNat)) 0
  if value < 2 ^ 64 then some value else none

/-- The results a marker's body cites, if every number in it is a result's. -/
def cited (citations : Citations) (body : Text) : Option (List (Text × Text)) := do
  let tokens := (body.splitOnP fun c => c == ',' || c == ' ').filter fun token => !token.isEmpty
  let cited ← tokens.mapM fun token => do
    let number := token.takeWhile fun c => c != '†'
    guard (!number.isEmpty && number.all Char.isDigit)
    citations.source (← parseNumber number)
  if cited.isEmpty then none else some cited

def splitWhitespace (text : Text) : Text × Text :=
  let kept := trimEnd text
  (kept, text.drop kept.length)

def textPiece (text : Text) : List Piece := if text.isEmpty then [] else [.text text]

/-- The loop of `filter`: `text` is passed on next; each turn takes at least the opening
bracket off `rest`, so `fuel` is its length. -/
def filterLoop (citations : Citations) : Nat → Text → Text → List Piece × Text
  | 0, _, text => (textPiece text, [])
  | fuel + 1, rest, text =>
    let before := rest.takeWhile fun c => c != '【'
    match rest.drop before.length with
    | [] =>
      let (kept, space) := splitWhitespace (text ++ rest)
      (textPiece kept, space)
    | opening :: body =>
      let text := text ++ before
      let inside := body.takeWhile fun c => c != '】'
      match body.drop inside.length with
      | _ :: after =>
        match citations.cited inside with
        | some cited =>
          let (pieces, held) := filterLoop citations fuel after []
          (textPiece (trimEnd text) ++ .cite cited :: pieces, held)
        | none => filterLoop citations fuel after (text ++ opening :: inside ++ ['】'])
      | [] =>
        if utf8Len body ≤ maxMarkerBytes then
          let (kept, space) := splitWhitespace text
          (textPiece kept, space ++ opening :: body)
        else
          filterLoop citations fuel body (text ++ [opening])

def filter (citations : Citations) (piece : Text) : List Piece × Citations :=
  if citations.active then
    let rest := citations.held ++ piece
    let (pieces, held) := filterLoop citations (rest.length + 1) rest []
    (pieces, { citations with held := held })
  else
    ([.text piece], citations)

/-- The held text, at the end of the answer. -/
def flush (citations : Citations) : Text × Citations :=
  (citations.held, { citations with held := [] })

end Citations

end LocalAi.Responses
