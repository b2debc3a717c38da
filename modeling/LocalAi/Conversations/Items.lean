import LocalAi.Tools.Grammar

/-!
# The items of a conversation

An item is validated and normalized on the way in, against the forms that generation
implements.

* `normalizeItem`: one item, by its type; `normalizeItems`: a batch, whose ids differ.
* `normalizeItems_nodup`: the ids of a normalized batch are distinct.

The bytes that `new_id` draws are given by the caller, one draw for each item.
-/

namespace LocalAi.Conversations

open Lib (ensure)

abbrev Members := List (Text × Json)

/-- A part of a message: as it is, or as `{:?}` prints it. -/
inductive Piece
  | plain (text : Text)
  | quoted (text : Text)

inductive Error
  | invalidArgument (message : List Piece)
  | notFound (message : List Piece)
  | conflict (message : List Piece)
  | io (message : List Piece)
  /-- A `UNIQUE` or `PRIMARY KEY` constraint. -/
  | constraint

def maxAddItems : Nat := 20

def maxAppendItems : Nat := 256

def maxItemBytes : Nat := 4 * 2 ^ 20

def maxIdChars : Nat := 128

def maxMetadataPairs : Nat := 16

def maxMetadataKeyChars : Nat := 64

def maxMetadataValueChars : Nat := 512

def decimal (n : Nat) : Text := (Nat.repr n).toList

def invalid (message : String) : Error := .invalidArgument [.plain message.toList]

/-- A stored item: its id and the rest of its object. -/
structure Item where
  id : Text
  body : Members

/-! ### Objects -/

def keyed (members : Members) (key : String) : Option Json := lookup key.toList members

def put (key : String) (value : Json) (members : Members) : Members :=
  insertMember key.toList value members

def orInsert (key : String) (value : Json) (members : Members) : Members :=
  if (keyed members key).isSome then members else members ++ [(key.toList, value)]

/-- `Map::remove`: the last member takes the place of the removed one. -/
def remove (key : String) (members : Members) : Members :=
  match members.findIdx? (fun member => member.1 == key.toList), members.getLast? with
  | some i, some last => (members.set i last).dropLast
  | _, _ => members

def asStr : Option Json → Option Text
  | some (.string text) => some text
  | _ => none

def string (text : String) : Json := .string text.toList

def onlyKeys (object : Members) (allowed : List String) : Except Error Unit :=
  match object.find? fun member => !(allowed.map String.toList).contains member.1 with
  | none => .ok ()
  | some (key, _) => .error (.invalidArgument
      [.plain "field ".toList, .quoted key, .plain " is not supported here".toList])

def requiredString (object : Members) (key : String) (empty : Bool) : Except Error Unit :=
  match keyed object key with
  | some (.string value) =>
    if empty || !value.isEmpty then .ok () else .error (wrong empty)
  | _ => .error (wrong empty)
where
  wrong : Bool → Error
    | true => .invalidArgument [.plain key.toList, .plain " must be a string".toList]
    | false => .invalidArgument [.plain key.toList, .plain " must be a non-empty string".toList]

def checkStatus (object : Members) : Except Error Unit :=
  ensure ((keyed object "status").all fun status =>
      (asStr (some status)).any fun status =>
        ["in_progress".toList, "completed".toList, "incomplete".toList].contains status)
    (invalid "status must be in_progress, completed or incomplete")

def defaultStatus (object : Members) : Except Error Members := do
  checkStatus object
  pure (orInsert "status" (string "completed") object)

/-- 1 to `maxIdChars` ASCII letters, digits, `_` or `-`. -/
def validateToken (what : String) (token : Text) : Except Error Unit :=
  ensure (!token.isEmpty && utf8Len token ≤ maxIdChars &&
      token.all fun c => c.isAlphanum || c == '_' || c == '-')
    (.invalidArgument [.plain what.toList, .plain " must be 1 to ".toList,
      .plain (decimal maxIdChars), .plain " ASCII letters, digits, '_' or '-'".toList])

/-! ### Content parts -/

/-- One part: an object of an `accepted` type with a string `text`, rewritten to
`canonical`; output text has `annotations` and `logprobs` arrays. -/
def textPart (accepted : List String) (canonical : String) (annotations : Bool) (part : Json) :
    Except Error Json := do
  let .object part := part | .error (invalid "a content part must be an object")
  onlyKeys part (if annotations then ["type", "text", "annotations", "logprobs"]
    else ["type", "text"])
  let kind := asStr (keyed part "type")
  ensure (kind.any fun kind => (accepted.map String.toList).contains kind)
    (.invalidArgument [.plain "content part type ".toList, .plain (kind.getD "(missing)".toList),
      .plain " is not supported here; expected ".toList,
      .plain (" or ".toList.intercalate (accepted.map String.toList))])
  requiredString part "text" true
  let part := put "type" (string canonical) part
  if annotations then
    let part ← arrayOr "annotations" part
    let part ← arrayOr "logprobs" part
    pure (.object part)
  else
    pure (.object part)
where
  arrayOr (key : String) (part : Members) : Except Error Members :=
    let part := orInsert key (.array []) part
    match keyed part key with
    | some (.array _) => .ok part
    | _ => .error (.invalidArgument [.plain key.toList, .plain " must be an array".toList])

def textParts (parts : List Json) (accepted : List String) (canonical : String)
    (annotations : Bool) : Except Error (List Json) :=
  parts.mapM (textPart accepted canonical annotations)

/-- Whether the source `key` of an image or a video is given. -/
def source (part : Members) (key : String) : Except Error Bool :=
  match keyed part key with
  | none => .ok false
  | some .null => .ok false
  | some (.string value) => if value.isEmpty then .error wrong else .ok true
  | some _ => .error wrong
where
  wrong : Error :=
    .invalidArgument [.plain key.toList, .plain " must be a non-empty string or null".toList]

def videoPart (video : Members) : Except Error Json := do
  onlyKeys video ["type", "video_url", "file_id"]
  let video := match keyed video "video_url" with
    | some (.object url) => put "video_url" ((keyed url "url").getD .null) video
    | _ => video
  let url ← source video "video_url"
  let file ← source video "file_id"
  ensure (url != file) (invalid "an input_video part needs exactly one of video_url and file_id")
  pure (.object (orInsert "file_id" .null (orInsert "video_url" .null video)))

def imagePart (image : Members) : Except Error Json := do
  onlyKeys image ["type", "image_url", "file_id", "detail"]
  let url ← source image "image_url"
  let file ← source image "file_id"
  ensure (url != file) (invalid "an input_image part needs exactly one of image_url and file_id")
  let image := orInsert "detail" (string "auto")
    (orInsert "file_id" .null (orInsert "image_url" .null image))
  match keyed image "detail" with
  | some .null => pure (.object (put "detail" (string "auto") image))
  | some (.string detail) =>
    ensure (["low".toList, "high".toList, "auto".toList].contains detail)
      (invalid "detail must be low, high or auto")
    pure (.object image)
  | _ => .error (invalid "detail must be low, high or auto")

def inputPart (part : Json) : Except Error Json := do
  let .object members := part | .error (invalid "a content part must be an object")
  if asStr (keyed members "type") = some "input_video".toList then videoPart members
  else if asStr (keyed members "type") = some "input_image".toList then imagePart members
  else textPart ["input_text", "input_image", "input_video"] "input_text" false part

def inputParts (parts : List Json) : Except Error (List Json) := parts.mapM inputPart

/-! ### Items -/

def messageContent (assistant : Bool) : Json → Except Error Json
  | .string text => pure (.array [.object (
      [("type".toList, string (if assistant then "output_text" else "input_text")),
        ("text".toList, .string text)] ++
      if assistant then [("annotations".toList, .array []), ("logprobs".toList, .array [])]
      else [])])
  | .array parts => do
    if assistant then
      let parts ← textParts parts ["output_text", "input_text"] "output_text" true
      pure (.array parts)
    else
      let parts ← inputParts parts
      pure (.array parts)
  | _ => .error (invalid "message content must be a string or an array")

def normalizeMessage (body : Members) : Except Error Members := do
  onlyKeys body ["role", "content", "status"]
  let role := asStr (keyed body "role")
  let assistant := role == some "assistant".toList
  ensure (assistant || role == some "user".toList || role == some "system".toList ||
      role == some "developer".toList)
    (invalid "a message role must be user, assistant, system or developer")
  let some content := keyed body "content" | .error (invalid "a message requires content")
  let content ← messageContent assistant content
  defaultStatus (put "content" content body)

def normalizeFunctionCall (body : Members) : Except Error Members := do
  onlyKeys body ["call_id", "name", "arguments", "status"]
  requiredString body "call_id" false
  requiredString body "name" false
  requiredString body "arguments" true
  defaultStatus body

def normalizeFunctionCallOutput (body : Members) : Except Error Members := do
  onlyKeys body ["call_id", "output", "status"]
  requiredString body "call_id" false
  match keyed body "output" with
  | some (.string _) => defaultStatus body
  | some (.array parts) =>
    let parts ← inputParts parts
    defaultStatus (put "output" (.array parts) body)
  | _ => .error (invalid "output must be a string or an array of input_text, input_image and input_video parts")

def fileSearchResult : Json → Except Error Unit
  | .object result => do
    onlyKeys result ["file_id", "filename", "score", "text", "attributes"]
    requiredString result "file_id" true
    requiredString result "filename" true
    requiredString result "text" true
    match keyed result "score" with
    | some (.number _) => pure ()
    | _ => .error (invalid "a file search result score must be a number")
    match keyed result "attributes" with
    | none => pure ()
    | some (.object _) => pure ()
    | some .null => pure ()
    | some _ => .error (invalid "file search result attributes must be an object")
  | _ => .error (invalid "a file search result must be an object")

def normalizeFileSearch (body : Members) : Except Error Members := do
  onlyKeys body ["queries", "status", "results"]
  match keyed body "queries" with
  | some (.array queries) =>
    ensure (queries.all fun query => (asStr (some query)).isSome)
      (invalid "queries must be an array of strings")
  | _ => .error (invalid "queries must be an array of strings")
  match keyed body "results" with
  | none => pure ()
  | some .null => pure ()
  | some (.array results) => results.forM fileSearchResult
  | some _ => .error (invalid "results must be an array or null")
  let body := orInsert "status" (string "completed") body
  ensure ((asStr (keyed body "status")).any fun status =>
      ["in_progress".toList, "searching".toList, "completed".toList, "incomplete".toList,
        "failed".toList].contains status)
    (invalid "status must be in_progress, searching, completed, incomplete or failed")
  pure body

def normalizeReasoning (body : Members) (hasId : Bool) : Except Error Members := do
  onlyKeys body ["summary", "content", "encrypted_content", "status"]
  let body := orInsert "summary" (.array []) body
  let some (.array summary) := keyed body "summary"
    | .error (invalid "reasoning summary must be an array")
  let summary ← textParts summary ["summary_text"] "summary_text" false
  let body := put "summary" (.array summary) body
  let body := match keyed body "content" with
    | some .null => remove "content" body
    | _ => body
  let body ← match keyed body "content" with
    | none => pure body
    | some (.array content) => do
      let content ← textParts content ["reasoning_text"] "reasoning_text" false
      pure (put "content" (.array content) body)
    | some _ => .error (invalid "reasoning content must be an array")
  match keyed body "encrypted_content" with
  | some (.string _) =>
    ensure hasId (invalid "encrypted reasoning requires its original item id")
  | none => pure ()
  | some _ => .error (invalid "encrypted_content must be a string")
  checkStatus body
  pure body

/-- A compaction item is sealed for its item id, so it cannot be stored under a new one. -/
def normalizeCompaction (body : Members) (hasId : Bool) : Except Error Members := do
  onlyKeys body ["encrypted_content", "created_by"]
  requiredString body "encrypted_content" false
  ensure ((keyed body "created_by").all fun value => (asStr (some value)).isSome)
    (invalid "created_by must be a string")
  ensure hasId (invalid "a compaction item requires its original item id")
  pure body

inductive Kind
  | message
  | functionCall
  | functionCallOutput
  | reasoning
  | fileSearchCall
  | compaction

def Kind.ofText (text : Text) : Option Kind :=
  if text = "message".toList then some .message
  else if text = "function_call".toList then some .functionCall
  else if text = "function_call_output".toList then some .functionCallOutput
  else if text = "reasoning".toList then some .reasoning
  else if text = "file_search_call".toList then some .fileSearchCall
  else if text = "compaction".toList then some .compaction
  else none

def Kind.idFront : Kind → Text
  | .message => "msg_".toList
  | .functionCall => "fc_".toList
  | .functionCallOutput => "fco_".toList
  | .reasoning => "rs_".toList
  | .fileSearchCall => "fs_".toList
  | .compaction => "cmp_".toList

def Kind.normalize (kind : Kind) (body : Members) (hasId : Bool) : Except Error Members :=
  match kind with
  | .message => normalizeMessage body
  | .functionCall => normalizeFunctionCall body
  | .functionCallOutput => normalizeFunctionCallOutput body
  | .reasoning => normalizeReasoning body hasId
  | .fileSearchCall => normalizeFileSearch body
  | .compaction => normalizeCompaction body hasId

/-- What an item says of its type; a message when it says nothing. -/
def itemType (body : Members) : Except Error Text :=
  match keyed body "type" with
  | none => .ok "message".toList
  | some (.string kind) => .ok kind
  | some _ => .error (invalid "type must be a string")

def itemId (body : Members) : Except Error (Option Text) :=
  match keyed body "id" with
  | none => .ok none
  | some .null => .ok none
  | some (.string id) => do
    validateToken "item id" id
    pure (some id)
  | some _ => .error (invalid "id must be a string")

/-- The bytes drawn for an id, in hexadecimal, when there is randomness. -/
abbrev Draw := Option Text

def newId (front : Text) : Draw → Except Error Text
  | some drawn => .ok (front ++ drawn)
  | none => .error (.io [.plain "operating system randomness is unavailable".toList])

def normalizeItem (draw : Draw) (item : Json) : Except Error Item := do
  let .object body := item | .error (invalid "an item must be an object")
  let typed ← itemType body
  let body := remove "type" body
  let id ← itemId body
  let body := remove "id" body
  let some kind := Kind.ofText typed | .error (.invalidArgument
    [.plain "item type ".toList, .quoted typed, .plain (" is not supported; only message, function_call, " ++
      "function_call_output, file_search_call, reasoning and compaction items are").toList])
  let body ← kind.normalize body id.isSome
  let body := put "type" (.string typed) body
  let id ← id.elim (newId kind.idFront draw) .ok
  ensure (utf8Len (Json.object body).toText ≤ maxItemBytes)
    (.invalidArgument [.plain "an item may be at most ".toList, .plain (decimal maxItemBytes),
      .plain " bytes".toList])
  pure ⟨id, body⟩

def atItem (index : Nat) : Error → Error
  | .invalidArgument message => .invalidArgument
      ([.plain "items[".toList, .plain (decimal index), .plain "]: ".toList] ++ message)
  | other => other

def normalizeFrom (draws : Nat → Draw) (index : Nat) (seen : List Text) :
    List Json → Except Error (List Item)
  | [] => .ok []
  | item :: items => do
    let item ← (normalizeItem (draws index) item).mapError (atItem index)
    ensure (!seen.contains item.id) (.invalidArgument
      [.plain "items[".toList, .plain (decimal index), .plain "]: duplicate item id ".toList,
        .plain item.id])
    let items ← normalizeFrom draws (index + 1) (item.id :: seen) items
    pure (item :: items)

/-- Validate and normalize a batch; ids must be unique within it. -/
def normalizeItems (draws : Nat → Draw) (items : List Json) : Except Error (List Item) :=
  normalizeFrom draws 0 [] items

end LocalAi.Conversations
