import LocalAi.Engine.Drain
import LocalAi.Answer.Stop
import LocalAi.Tools.Parse

/-!
# The streaming tool-call parser

`ToolCallParser` turns the visible answer into content and calls as it arrives.
Ordinary text goes out at once, except a possible beginning of `<tool_call>` and
the whitespace before it; a call is buffered until its end, its certain
arguments going out as deltas meanwhile.

The parser's tools and environment never change and are parameters here.  The
loop of `feed` consumes a tag in every round, so fuel beyond the length of the
pending text is never used up (`feedLoop_scan` in `LocalAi.Tools.Scan`).
-/

namespace LocalAi.Tools

open LocalAi.Lib LocalAi.Answer LocalAi.Engine

variable {L K : Type}

/-! ### Certain arguments -/

/-- One certain part of a call's arguments. -/
structure Piece where
  json : Text
  text : Option (Text × Text)

/-- The characters at the end of a raw value that might still be the start of
its closing `\n</parameter>`. -/
def heldClose (text : Text) : Nat :=
  max (overlap "\n</parameter>".toList text) (overlap "</parameter>".toList text)

/-- Whether parameter `key` of `tool` is a string whatever its text. -/
def streamsText (tool : Tool) (key : Text) : Option Bool :=
  match tool.strict with
  | some (.ok strict) =>
    (strict.parameter key).map fun parameter => match parameter.value with
      | .raw _ => true
      | .json _ => false
  | some (.error _) => none
  | none => some (((tool.schema.bind fun schema => schema.parameter key).map
      Parameter.anyString).getD false)

/-- The value of parameter `key` with text `raw`, as the call's parser will
convert it. -/
def finishedValue (env : Env) (tool : Tool) (key raw : Text) : Option Json :=
  match tool.strict with
  | some (.ok strict) =>
    (strict.parameter key).bind fun parameter => match parameter.value with
      | .raw _ => some (.string raw)
      | .json _ => (env.fromStr raw).toOption
  | some (.error _) => none
  | none => some (convert env raw (tool.schema.bind fun schema => schema.parameter key))

def openJson (count : Nat) (key : Text) : Text :=
  (if 1 < count then [','] else []) ++ quote key ++ [':']

/-- The key of the parameter that opens `rest`, and what follows its tag. -/
def parameterHeader (rest : Text) : Option (Text × Text) :=
  (stripPrefix "<parameter=".toList (trimStart rest)).bind (splitOnce ['>'])

/-- The name of the function that opens `block`, and what follows its tag. -/
def functionHeader (block : Text) : Option (Text × Text) :=
  (stripPrefix "<function=".toList (trimStart block)).bind (splitOnce ['>'])

/-- The start of an unfinished raw value that cannot be its closing tag. -/
def certainText (value : Text) : Text := value.take (value.length - heldClose value)

/-- What an unfinished call says of its next parameter. -/
inductive Written where
  | nothing
  | opened (key : Text)
  | started (key certain : Text)
  | refused (key : Text)
  | finished (key raw : Text) (textMode : Bool) (value : Json) (rest : Text)

/-- One round of the loop of `pieces`. -/
def written (env : Env) (tool : Tool) (rest : Text) (seen : List Text) : Written :=
  match parameterHeader rest with
  | none => .nothing
  | some (key, after) =>
    match streamsText tool key with
    | none => .nothing
    | some textMode =>
      if !validParameterName key || seen.contains key then
        .nothing
      else if after.isEmpty then
        .opened key
      else
        let value := skipNewline after
        match splitOnce "</parameter>".toList value with
        | some (raw, next) =>
          match finishedValue env tool key (dropNewline raw) with
          | none => .refused key
          | some converted => .finished key (dropNewline raw) textMode converted next
        | none => if textMode then .started key (certainText value) else .opened key

def piecesLoop (env : Env) (tool : Tool) :
    (fuel : Nat) → (rest : Text) → (seen : List Text) → List Piece → List Piece
  | 0, _, _, pieces => pieces
  | fuel + 1, rest, seen, pieces =>
    match written env tool rest seen with
    | .nothing | .refused _ => pieces
    | .opened key => pieces ++ [⟨openJson pieces.length key, none⟩]
    | .started key certain =>
      pieces ++ [⟨openJson pieces.length key ++ '"' :: escape certain, some (key, certain)⟩]
    | .finished key raw textMode value next =>
      piecesLoop env tool fuel next (key :: seen)
        (pieces ++ [⟨openJson pieces.length key ++ value.toText,
          if textMode then some (key, raw) else none⟩])

/-- `pieces`: the certain pieces of the arguments of the call `block` is
writing, once it names a configured tool. -/
def pieces (env : Env) (block : Text) (tools : ToolSet) : Option (Text × List Piece) :=
  match functionHeader block with
  | none => none
  | some (name, rest) =>
    (tools.get name).map fun tool =>
      (name, piecesLoop env tool (rest.length + 1) rest [] [⟨['\x7b'], none⟩])

/-! ### The parser's state -/

/-- How much of the open call has been streamed: whole pieces, then bytes of the
current piece's JSON and of its raw text. -/
structure Streamed where
  id : CallId
  name : Text
  piece : Nat
  json : Nat
  text : Nat

structure ToolCallParser where
  pending : Text
  inCall : Bool
  afterCall : Bool
  failure : Option Text
  streamed : Option Streamed
  /-- Input bytes dropped from the front of `pending` so far. -/
  consumed : Nat
  /-- The next number of the process-wide call counter. -/
  nextCallId : CallId

def ToolCallParser.new (nextCallId : CallId) : ToolCallParser :=
  { pending := [], inCall := false, afterCall := false, failure := none, streamed := none,
    consumed := 0, nextCallId }

/-- The counters of the open call `name`, with a new id at first
(`get_or_insert_with`), and the next id after them. -/
def ToolCallParser.counters (p : ToolCallParser) (name : Text) : Streamed × CallId :=
  match p.streamed with
  | some streamed => (streamed, p.nextCallId)
  | none => (⟨p.nextCallId, name, 0, 0, 0⟩, p.nextCallId + 1)

/-- `str::get(bytes..)`: what follows the first `bytes` bytes, on a character
boundary. -/
def getFrom : (bytes : Nat) → Text → Option Text
  | 0, text => some text
  | _ + 1, [] => none
  | bytes + 1, c :: text =>
    if c.utf8Size ≤ bytes + 1 then getFrom (bytes + 1 - c.utf8Size) text else none

/-- `held_suffix`: the end of `text` that might still become `<tool_call>` or the
whitespace the template puts before one. -/
def heldSuffix (text : Text) : Nat :=
  let partialTag := overlap callStart text
  let head := text.take (text.length - partialTag)
  partialTag + (head.length - (trimEnd head).length)

section Parser

variable (env : Env) (tools : ToolSet) (callback : Callback L K)

/-- The loop of `stream` over the pieces not yet sent. -/
def sendPieces (last consumed : Nat) :
    List (Piece × Nat) → Streamed → K → Streamed × K × Bool
  | [], streamed, k => (streamed, k, true)
  | (piece, index) :: rest, streamed, k =>
    let arguments := (getFrom streamed.json piece.json).getD []
    let text := piece.text.map fun (key, text) => (key, (getFrom streamed.text text).getD [])
    let delta : ToolCallDelta := { id := streamed.id, name := streamed.name, arguments, text }
    let streamed :=
      if index < last then
        { streamed with piece := index + 1, json := 0, text := 0 }
      else
        { streamed with
          json := utf8Len piece.json,
          text := (piece.text.map fun entry => utf8Len entry.2).getD 0 }
    if arguments.isEmpty then
      sendPieces last consumed rest streamed k
    else
      let (k, go) := callback k (.toolCallDelta delta) consumed
      if go then sendPieces last consumed rest streamed k else (streamed, k, false)

/-- `stream`: report whatever more of the open call's arguments is now certain. -/
def stream (p : ToolCallParser) (k : K) : ToolCallParser × K × Bool :=
  match pieces env p.pending tools with
  | none => (p, k, true)
  | some (name, pieces) =>
    let (streamed, nextCallId) := p.counters name
    let (streamed, k, go) := sendPieces callback (pieces.length - 1) p.consumed
      (pieces.zipIdx.drop streamed.piece) streamed k
    ({ p with streamed := some streamed, nextCallId }, k, go)

def emitText (text : Text) (offset : Nat) (p : ToolCallParser) (k : K) :
    ToolCallParser × K × Bool :=
  let trimmed := if p.afterCall then trimStart text else text
  if trimmed.isEmpty then
    (p, k, true)
  else
    let (k, go) := callback k (.content trimmed) (offset + utf8Len text - utf8Len trimmed)
    ({ p with afterCall := false }, k, go)

def feedLoop : (fuel : Nat) → ToolCallParser → K → ToolCallParser × K × Bool
  | 0, p, k => (p, k, true)
  | fuel + 1, p, k =>
    if p.inCall then
      match callEnd p.pending tools with
      | none => stream env tools callback p k
      | some (block, rest, marker, strict) =>
        let streamed := p.streamed
        let p :=
          { p with
            pending := rest, consumed := p.consumed + utf8Len (block ++ marker),
            inCall := false, afterCall := true, streamed := none }
        match parseBlock env tools block strict with
        | .ok (name, arguments) =>
          let id := (streamed.map Streamed.id).getD p.nextCallId
          let p := { p with nextCallId := p.nextCallId + 1 }
          let (k, go) := callback k (.toolCall ⟨id, name, .object arguments⟩) p.consumed
          if go then feedLoop fuel p k else (p, k, false)
        | .error error =>
          ({ p with failure := some ("invalid tool call: ".toList ++ error) }, k, false)
    else
      match splitOnce callStart p.pending with
      | some (text, rest) =>
        let offset := p.consumed
        let p :=
          { p with
            pending := rest, consumed := offset + utf8Len (text ++ callStart), inCall := true }
        let (p, k, go) := emitText callback (trimEnd text) offset p k
        if go then feedLoop fuel p k else (p, k, false)
      | none =>
        let split := p.pending.length - heldSuffix p.pending
        if split = 0 then
          (p, k, true)
        else
          let text := p.pending.take split
          emitText callback text p.consumed
            { p with pending := p.pending.drop split, consumed := p.consumed + utf8Len text } k

/-- `feed`: parse the next part of the answer. -/
def feed (text : Text) (p : ToolCallParser) (k : K) : ToolCallParser × K × Bool :=
  if p.failure.isSome then
    (p, k, false)
  else
    let pending := p.pending ++ text
    feedLoop env tools callback (pending.length + 1) { p with pending } k

/-- The failure of a call still open when the model ends its turn. -/
def unfinishedCall : Text := "invalid tool call: generation ended before </tool_call>".toList

/-- `finish`: close the stream of a generation that stopped for `reason`. -/
def finish (reason : StopReason) (p : ToolCallParser) (k : K) : ToolCallParser × K × Bool :=
  if p.failure.isSome then
    (p, k, false)
  else if p.inCall then
    match reason with
    | .eos => ({ p with failure := some unfinishedCall }, k, false)
    | _ =>
      ({ p with
          consumed := p.consumed + utf8Len p.pending, pending := [], inCall := false,
          streamed := none }, k, true)
  else
    emitText callback p.pending p.consumed
      { p with pending := [], consumed := p.consumed + utf8Len p.pending } k

end Parser

end LocalAi.Tools
