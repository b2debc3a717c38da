import LocalAi.Tools.Parse

/-!
# Items as chat messages

The items of a conversation become the chat messages that the engine renders: consecutive
output items are one assistant turn, and the engine checks that calls and results pair up.

* `State.apply`, `inputMessages`: the turn that is assembled, and what ends it.
* `validateHistory`: the engine's check of the messages.

The bytes of an image or a video are read from a file or the network; `Media` gives them for
a content part.  The limits on how many a request may hold are left out.
-/

namespace LocalAi.History

open Lib (ensure)
open Tools (Env ToolSet checkToolName checkParameterName validateArguments)

/-! ### Values -/

def field (item : Json) (name : String) : Option Json :=
  match item with
  | .object members => lookup name.toList members
  | _ => none

def asText : Json → Option Text
  | .string text => some text
  | _ => none

def textField (item : Json) (name : String) : Option Text := (field item name).bind asText

def isNull : Json → Bool
  | .null => true
  | _ => false

def asArray : Json → Option (List Json)
  | .array items => some items
  | _ => none

def asI64 : Json → Option Text
  | .number text =>
    let digits : Text := (stripPrefix ['-'] text).getD text
    let value : Nat := digits.foldl (fun n c => 10 * n + (c.toNat - 48)) 0
    if ! digits.isEmpty && digits.all Char.isDigit &&
        (decide (value < 2 ^ 63) || (text.head? == some '-' && value == 2 ^ 63)) then some text
    else none
  | _ => none

/-! ### Kinds of items -/

inductive ItemKind
  | message
  | reasoning
  | functionCall
  | functionCallOutput
  | itemReference
  | compaction
  | fileSearchCall
  | shellCall
  | shellCallOutput
  | localShellCall
  | localShellCallOutput
  | applyPatchCall
  | applyPatchCallOutput
  | customToolCall
  | customToolCallOutput
  | other (name : Text)
deriving DecidableEq

def kindNames : List (Text × ItemKind) :=
  [("message".toList, .message), ("reasoning".toList, .reasoning),
    ("function_call".toList, .functionCall),
    ("function_call_output".toList, .functionCallOutput),
    ("item_reference".toList, .itemReference), ("compaction".toList, .compaction),
    ("file_search_call".toList, .fileSearchCall), ("shell_call".toList, .shellCall),
    ("shell_call_output".toList, .shellCallOutput),
    ("local_shell_call".toList, .localShellCall),
    ("local_shell_call_output".toList, .localShellCallOutput),
    ("apply_patch_call".toList, .applyPatchCall),
    ("apply_patch_call_output".toList, .applyPatchCallOutput),
    ("custom_tool_call".toList, .customToolCall),
    ("custom_tool_call_output".toList, .customToolCallOutput)]

def ItemKind.ofName (name : Text) : ItemKind :=
  ((kindNames.find? fun entry => entry.1 == name).map Prod.snd).getD (.other name)

/-- An item without a type is a message. -/
def kind (item : Json) : ItemKind := (textField item "type").elim .message .ofName

/-! ### Messages -/

def roleNames : List Text := ["system", "developer", "user", "assistant", "tool"].map String.toList

inductive Role
  | system
  | developer
  | user
  | assistant
  | tool
  | other (name : Text) (unsupported : name ∉ roleNames)
deriving DecidableEq

def Role.name : Role → Text
  | .system => "system".toList
  | .developer => "developer".toList
  | .user => "user".toList
  | .assistant => "assistant".toList
  | .tool => "tool".toList
  | .other name _ => name

structure Call where
  id : Text
  name : Text
  arguments : Json

/-- Text with images and videos, each at an offset of it. -/
structure Parts (D : Type) where
  text : Text
  images : List (Nat × D)

structure Message (D : Type) where
  role : Role
  content : Text
  reasoning : Option Text
  calls : List Call
  callId : Option Text
  images : List (Nat × D)

/-- The bytes of `input_image` and `input_video` parts, with how they are to be read. -/
structure Media (D : Type) where
  image : Json → Except Text D
  video : Json → Except Text D

variable {D : Type}

def plain (role : Role) (content : Text) (callId : Option Text) : Message D where
  role := role
  content := content
  reasoning := none
  calls := []
  callId := callId
  images := []

section Convert

variable (env : Env) (media : Media D)

/-! ### One item -/

def textPart (role : Role) (name : Text) : Option String :=
  if name = "input_text".toList ∨ name = "output_text".toList then some "text"
  else if name = "refusal".toList ∧ role = .assistant then some "refusal"
  else none

def itemPart (role : Role) (parts : Parts D) (part : Json) : Except Text (Parts D) :=
  let name := (textField part "type").getD []
  match textPart role name with
  | some member =>
    match textField part member with
    | some text => .ok { parts with text := parts.text ++ text }
    | none => .error ("a ".toList ++ name ++ " content part requires a ".toList ++
        member.toList ++ " string".toList)
  | none =>
    if name = "input_image".toList then
      (media.image part).map fun data =>
        { parts with images := parts.images ++ [(utf8Len parts.text, data)] }
    else if name = "input_video".toList then
      (media.video part).map fun data =>
        { parts with images := parts.images ++ [(utf8Len parts.text, data)] }
    else if name = "input_file".toList ∨ name = "input_audio".toList then
      .error ("content part ".toList ++ env.debug name ++ " is not supported: ".toList ++
        "Bonsai 2 reads text, images (input_image) and video (input_video)".toList)
    else .error ("unsupported content part type ".toList ++ env.debug name)

def itemParts (role : Role) : Json → Except Text (Parts D)
  | .string text => .ok ⟨text, []⟩
  | .array parts => parts.foldlM (itemPart env media role) ⟨[], []⟩
  | _ => .error "message content must be a string or an array of parts".toList

def reasoningPart (name : String) (partKind : Text) (part : Json) : Except Text Text :=
  if textField part "type" = some partKind then
    (textField part "text").elim
      (.error ("a ".toList ++ partKind ++ " part requires text".toList)) .ok
  else
    .error ("reasoning ".toList ++ name.toList ++ " parts must be ".toList ++ partKind)

def reasoningParts (item : Json) (name : String) (partKind : Text) :
    Except Text (Option (List Text)) :=
  match (field item name).bind asArray with
  | none => .ok none
  | some [] => .ok none
  | some parts => (parts.mapM (reasoningPart name partKind)).map some

def joined (texts : List Text) : Text := List.intercalate "\n\n".toList texts

/-- Earlier reasoning: its content when present, else its summary. -/
def reasoningText (item : Json) : Except Text Text := do
  let content ← reasoningParts item "content" "reasoning_text".toList
  let summary ← reasoningParts item "summary" "summary_text".toList
  pure (((content <|> summary).map joined).getD [])

def requires (itemKind : String) (item : Json) (name : String) : Except Text Text :=
  (textField item name).elim
    (.error ("a ".toList ++ itemKind.toList ++ " item requires ".toList ++ name.toList)) .ok

def qualified (space name : Text) : Text := space ++ '.' :: name

def calledName (itemKind : String) (item : Json) : Except Text Text := do
  let name ← requires itemKind item "name"
  pure ((textField item "namespace").elim name fun space => qualified space name)

def toolCall (id name : Text) : Json → Except Text Call
  | .string text =>
    ((env.fromStr text).mapError fun error =>
      "tool call ".toList ++ env.debug id ++ " arguments are not valid JSON: ".toList ++
        error).map fun arguments => ⟨id, name, arguments⟩
  | arguments => .ok ⟨id, name, arguments⟩

inductive Entry (D : Type)
  | message (role : Role) (parts : Parts D)
  | reasoning (text : Text)
  | call (call : Call)
  | output (callId : Text) (parts : Parts D)
  | answered (call : Call) (content : Text)

def messageRole (name : Text) : Option Role :=
  if name = "assistant".toList then some .assistant
  else if name = "user".toList then some .user
  else if name = "system".toList then some .system
  else if name = "developer".toList then some .developer
  else none

def messageEntry (item : Json) : Except Text (Entry D) :=
  match textField item "role" with
  | none => .error "a message input item requires a role".toList
  | some name =>
    -- the parts are read before the role is looked at; only `assistant` reads them differently
    (itemParts env media (if name = "assistant".toList then .assistant else .user)
      ((field item "content").getD .null)).bind fun parts =>
        match messageRole name with
        | some .assistant =>
          if parts.images.isEmpty then .ok (.message .assistant parts)
          else .error "assistant messages cannot contain images".toList
        | some role => .ok (.message role parts)
        | none => .error ("unsupported message role ".toList ++ env.debug name)

def functionCallEntry (item : Json) : Except Text (Entry D) := do
  let name ← calledName "function_call" item
  let id ← requires "function_call" item "call_id"
  let call ← toolCall env id name ((field item "arguments").getD .null)
  pure (.call call)

def functionOutputEntry (item : Json) : Except Text (Entry D) := do
  let id ← requires "function_call_output" item "call_id"
  match field item "output" with
  | some (.string text) => pure (.output id ⟨text, []⟩)
  | some (.array parts) => (itemParts env media .tool (.array parts)).map (.output id)
  | _ => .error "function_call_output output must be text".toList

def callEntry (itemKind : String) (item : Json) (name : Text) (arguments : List (Text × Json)) :
    Except Text (Entry D) :=
  (requires itemKind item "call_id").map fun id => .call ⟨id, name, .object arguments⟩

/-- The output of a hosted or custom call. -/
def outputEntry (itemKind : String) (item : Json) (content : Text) : Except Text (Entry D) :=
  match textField item "call_id" <|> textField item "id" with
  | some id => .ok (.output id ⟨content, []⟩)
  | none => .error ("a ".toList ++ itemKind.toList ++ " item requires id".toList)

/-- A member of a call's action that is there, under its own name. -/
def actionMember (item : Json) (name : String) : List (Text × Json) :=
  (((field item "action").bind fun action => field action name).filter (! isNull ·)).toList.map
    fun value => (name.toList, value)

def actionList (item : Json) (name : String) : List (Text × Json) :=
  [(name.toList, ((field item "action").bind fun action => field action name).getD (.array []))]

def shellContentText (content : Json) : Text :=
  let stdout := (textField content "stdout").getD []
  let stderr := (textField content "stderr").getD []
  let outcome := field content "outcome"
  stdout ++ (if stderr.isEmpty then [] else "\n[stderr]\n".toList ++ stderr) ++
    if (outcome.bind fun outcome => textField outcome "type") = some "timeout".toList then
      "\n[timed out; the command was killed]\n".toList
    else
      let code := (outcome.bind fun outcome => field outcome "exit_code").bind asI64
      "\n[exit code ".toList ++ code.getD ['0'] ++ "]\n".toList

def shellOutputText (contents : Option Json) : Text :=
  ((contents.bind asArray).getD []).flatMap shellContentText

/-- One passage as the model reads it again. -/
def passageText (result : Json) : Text :=
  "\n\n".toList ++ (textField result "filename").getD [] ++ (match field result "attributes" with
      | some (.object (first :: rest)) => ' ' :: (Json.object (first :: rest)).toText
      | _ => []) ++
    '\n' :: (textField result "text").getD []

def passages (queries : List Text) (results : List Json) : Text :=
  let quoted := List.intercalate ", ".toList (queries.map env.debug)
  if results.isEmpty then
    "No passages matched ".toList ++ quoted ++ " in the searched files.".toList
  else
    "Passages for ".toList ++ quoted ++ ":".toList ++ results.flatMap passageText

def fileSearchEntry (item : Json) : Except Text (Entry D) := do
  let id ← requires "file_search_call" item "id"
  match (field item "queries").bind asArray with
  | some queries =>
    if queries.all fun query => (asText query).isSome then
      let content :=
        if textField item "status" = some "failed".toList then "error: this search failed".toList
        else
          match field item "results" with
          | some (.array results) => passages env (queries.filterMap asText) results
          | _ => ("The results of this search are not part of the conversation; search again " ++
              "to read them.").toList
      pure (.answered ⟨id, "file_search".toList, .object [("queries".toList, .array queries)]⟩
        content)
    else
      .error "a file_search_call item requires queries, an array of strings".toList
  | none => .error "a file_search_call item requires queries, an array of strings".toList

def customOutputEntry (item : Json) : Except Text (Entry D) :=
  match field item "output" with
  | some (.string text) => outputEntry "custom_tool_call_output" item text
  | some (.array parts) =>
    outputEntry "custom_tool_call_output" item (parts.flatMap fun part =>
      (textField part "text").getD [])
  | _ => .error "custom_tool_call_output output must be text".toList

def entry (item : Json) : Except Text (Entry D) :=
  match kind item with
  | .message => messageEntry env media item
  | .reasoning => (reasoningText item).map .reasoning
  | .functionCall => functionCallEntry env item
  | .functionCallOutput => functionOutputEntry env media item
  | .itemReference => .error ("item_reference is not supported: item lookup is not " ++
      "implemented; send the item itself").toList
  | .compaction =>
    .error "a compaction item is only rendered from its sealed content".toList
  | .fileSearchCall => fileSearchEntry env item
  | .shellCall =>
    callEntry "shell_call" item "shell".toList
      (actionList item "commands" ++ actionMember item "timeout_ms")
  | .shellCallOutput =>
    outputEntry "shell_call_output" item (shellOutputText (field item "output"))
  | .localShellCall =>
    callEntry "local_shell_call" item "local_shell".toList
      (actionList item "command" ++ actionMember item "working_directory" ++
        actionMember item "timeout_ms")
  | .localShellCallOutput =>
    outputEntry "local_shell_call_output" item ((textField item "output").getD [])
  | .applyPatchCall =>
    (requires "apply_patch_call" item "call_id").map fun id =>
      .call ⟨id, "apply_patch".toList, (field item "operation").getD (.object [])⟩
  | .applyPatchCallOutput =>
    outputEntry "apply_patch_call_output" item (trimEnd ("[apply_patch ".toList ++
      (textField item "status").getD "completed".toList ++ "] ".toList ++
      (textField item "output").getD []))
  | .customToolCall => do
    let name ← calledName "custom_tool_call" item
    callEntry "custom_tool_call" item name
      [("input".toList, .string ((textField item "input").getD []))]
  | .customToolCallOutput => customOutputEntry item
  | .other name => .error ("input item type ".toList ++ env.debug name ++
      (" is not supported: only messages, reasoning, file_search calls, and function, " ++
        "custom, shell, local_shell and apply_patch calls and their outputs are accepted").toList)

end Convert

/-! ### Turns -/

/-- The assistant turn that is assembled from consecutive items. -/
structure Turn (D : Type) where
  reasoning : Option Text
  content : Option Text
  calls : List Call
  /-- What calls that carry their own result returned. -/
  answers : List (Message D)

def Turn.empty : Turn D := ⟨none, none, [], []⟩

def Turn.isEmpty (turn : Turn D) : Bool :=
  turn.reasoning.isNone && turn.content.isNone && turn.calls.isEmpty

def flush (turn : Turn D) : List (Message D) :=
  if turn.isEmpty then []
  else
    { role := .assistant, content := turn.content.getD [], reasoning := turn.reasoning,
      calls := turn.calls, callId := none, images := [] } :: turn.answers

/-- The turn so far and the messages before it. -/
structure State (D : Type) where
  turn : Turn D
  messages : List (Message D)

def State.flush (s : State D) : State D :=
  if s.turn.isEmpty then s else ⟨.empty, s.messages ++ History.flush s.turn⟩

def State.push (s : State D) (message : Message D) : State D :=
  { s with messages := s.messages ++ [message] }

def State.apply (s : State D) : Entry D → State D
  | .message .assistant parts =>
    let s := if s.turn.content.isSome || ! s.turn.calls.isEmpty then s.flush else s
    { s with turn := { s.turn with content := some parts.text } }
  | .message role parts =>
    s.flush.push { (plain role parts.text none : Message D) with images := parts.images }
  | .reasoning text => { s.flush with turn := { s.flush.turn with reasoning := some text } }
  | .call call => { s with turn := { s.turn with calls := s.turn.calls ++ [call] } }
  | .output callId parts =>
    s.flush.push { (plain .tool parts.text (some callId) : Message D) with images := parts.images }
  | .answered call content =>
    { s with turn :=
      { s.turn with
        answers := s.turn.answers ++ [plain .tool content (some call.id)]
        calls := s.turn.calls ++ [call] } }

def inputMessages (env : Env) (media : Media D) (items : List Json) :
    Except Text (List (Message D)) := do
  let entries ← items.mapM (entry env media)
  let s := entries.foldl State.apply ⟨.empty, []⟩
  pure (s.messages ++ flush s.turn)

/-! ### The engine's check -/

section Validate

variable (env : Env) (tools : ToolSet)

def checkCall (call : Call) : Except Text Unit := do
  checkToolName env call.name
  match call.arguments with
  | .object arguments =>
    arguments.forM fun member => checkParameterName env member.1
    match (tools.get call.name).filter fun tool => tool.strict.isSome with
    | some tool =>
      (validateArguments env tool arguments).mapError fun error =>
        "tool call ".toList ++ env.debug call.id ++ ": ".toList ++ error
    | none => pure ()
  | _ => .error ("tool call ".toList ++ env.debug call.id ++
      " arguments must be a JSON object".toList)

/-- The ids of all calls so far and of the unanswered ones. -/
structure Pairing where
  seen : List Text
  pending : List Text

def pairCall (p : Pairing) (call : Call) : Except Text Pairing := do
  ensure (trim call.id ≠ []) "tool call id is empty".toList
  ensure (call.id ∉ p.seen) ("duplicate tool call id ".toList ++ env.debug call.id)
  checkCall env tools call
  pure ⟨call.id :: p.seen, p.pending ++ [call.id]⟩

def pairMessage (p : Pairing) (message : Message D) : Except Text Pairing := do
  ensure (message.role = .tool ∨ p.pending = [])
    ("tool call ".toList ++ env.debug (p.pending.headD []) ++ " has no tool result".toList)
  ensure (message.role = .assistant ∨ message.calls.isEmpty)
    (message.role.name ++ " messages cannot contain tool calls".toList)
  ensure (message.role = .tool ∨ message.callId = none)
    (message.role.name ++ " messages cannot set tool_call_id".toList)
  match message.role, message.callId with
  | .assistant, _ => message.calls.foldlM (pairCall env tools) p
  | .tool, none => .error "tool message requires tool_call_id".toList
  | .tool, some id =>
    if id ∈ p.pending then .ok { p with pending := p.pending.erase id }
    else .error ("tool result ".toList ++ env.debug id ++ (" does not answer an unanswered call " ++
      "in the preceding assistant message").toList)
  | _, _ => .ok p

def validateHistory (messages : List (Message D)) : Except Text Unit := do
  let p ← messages.foldlM (pairMessage env tools) ⟨[], []⟩
  ensure (p.pending = [])
    ("tool call ".toList ++ env.debug (p.pending.headD []) ++ " has no tool result".toList)

end Validate

end LocalAi.History
