import LocalAi.History.Messages
import LocalAi.Tools.Compile

/-!
# The prompt of a conversation

A chat request is rendered as the checkpoint's template does: a system turn with the reasoning
instruction, the tools and the leading instructions, then a turn for each message, and the
opener of the answer.

* `orderResults`: tool results in the order of their calls.
* `render`, `prepareChat`: the prompt of a request.
-/

namespace LocalAi.Prompt

open History (Call Message Role validateHistory)
open Tools (Env Jsonschema ToolDefinition ToolSet Translators)

variable {D : Type}

/-! ### Requests -/

inductive ReasoningEffort
  | low
  | medium
  | xhigh

def lowReasoningInstruction : Text :=
  ("Reasoning effort is set to low. Keep your thinking brief and focused, moving directly to " ++
    "the conclusion without unnecessary elaboration.").toList

def defaultReasoningInstruction : Text :=
  ("Reasoning effort is set to xhigh. Please think carefully through the task, validate key " ++
    "assumptions, consider plausible alternatives, and prioritize correctness, consistency, " ++
    "and clarity in the final answer.").toList

/-- The instruction the template puts in the system turn. -/
def ReasoningEffort.instruction : ReasoningEffort → Option Text
  | .low => some lowReasoningInstruction
  | .medium => none
  | .xhigh => some defaultReasoningInstruction

structure ChatRequest (D : Type) where
  messages : List (Message D)
  thinking : Bool
  effort : ReasoningEffort
  /-- With `thinking` off, the instruction is rendered all the same. -/
  reasoningInstruction : Bool
  preserveThinking : Bool
  tools : List ToolDefinition

/-! ### Images -/

def imagePlaceholder : Text := "<|vision_start|><|image_pad|><|vision_end|>".toList

def videoPlaceholder : Text := "<|vision_start|><|video_pad|><|vision_end|>".toList

/-- A text split behind its first bytes, at a character boundary. -/
def splitBytes : (bytes : Nat) → Text → Option (Text × Text)
  | 0, text => some ([], text)
  | _ + 1, [] => none
  | bytes + 1, c :: text =>
    if c.utf8Size ≤ bytes + 1 then
      (splitBytes (bytes + 1 - c.utf8Size) text).map fun split => (c :: split.1, split.2)
    else none

section Images

variable (video : D → Bool)

def placeImages : (done : Nat) → Text → List (Nat × D) → Except Text Text
  | _, rest, [] => .ok rest
  | done, rest, (offset, data) :: images =>
    match if done ≤ offset then splitBytes (offset - done) rest else none with
    | none =>
      .error "image offsets must be increasing character boundaries of the content".toList
    | some (front, back) => do
      let more ← placeImages offset back images
      pure (front ++ (if video data then videoPlaceholder else imagePlaceholder) ++ more)

def isInstruction (role : Role) : Bool := role = .system || role = .developer

def contentWithImages (message : Message D) : Except Text Text :=
  if message.images.isEmpty then .ok message.content
  else if isInstruction message.role then
    .error (message.role.name ++ " messages cannot contain images or videos".toList)
  else placeImages video 0 message.content message.images

/-- A message as the renderer sees it: the images are in the content. -/
def turn (message : Message D) : Except Text (Message D) :=
  (contentWithImages video message).map fun content => { message with content := content }

end Images

/-! ### Turns -/

def toolResponseStart : Text := "<tool_response>".toList

def toolResponseEnd : Text := "</tool_response>".toList

/-- A user's message that is no tool result. -/
def isQuery (message : Message D) : Bool :=
  message.role = .user &&
    !(toolResponseStart.isPrefixOf (trim message.content) &&
      toolResponseEnd.isSuffixOf (trim message.content))

section Order

variable (env : Env)

/-- The results of a run, in the order of the calls they answer. -/
def placeResults (calls : List Call) (results : List (Message D)) :
    Except Text (List (Message D)) :=
  if results.isEmpty then .ok []
  else if calls.length ≠ results.length then
    .error "tool results do not match the preceding assistant tool calls".toList
  else
    calls.mapM fun call =>
      match results.filter fun result => result.callId = some call.id with
      | [result] => .ok result
      | _ => .error ("tool call ".toList ++ env.debug call.id ++
          " needs exactly one tool result".toList)

def orderResults (calls : List Call) (run : List (Message D)) :
    List (Message D) → Except Text (List (Message D))
  | [] => placeResults env calls run
  | turn :: turns =>
    if turn.role = .tool then orderResults calls (run ++ [turn]) turns
    else do
      let placed ← placeResults env calls run
      let rest ← orderResults turn.calls [] turns
      pure (placed ++ turn :: rest)

end Order

/-- `slice::rposition`. -/
def rposition (p : Message D → Bool) (turns : List (Message D)) : Option Nat :=
  turns.findIdxs p |>.getLast?

def leadingInstructions (turns : List (Message D)) : Text :=
  ((turns.map fun turn => trim turn.content).filter fun content => !content.isEmpty).intersperse
    "\n\n".toList |>.flatten

mutual

def pythonJson : Json → Text
  | .array items => '[' :: pythonItems items ++ [']']
  | .object members => '\x7b' :: pythonMembers members ++ ['\x7d']
  | scalar => scalar.toText

def pythonItems : List Json → Text
  | [] => []
  | [item] => pythonJson item
  | item :: next :: items => pythonJson item ++ ", ".toList ++ pythonItems (next :: items)

def pythonMembers : List (Text × Json) → Text
  | [] => []
  | [(key, value)] => quote key ++ ": ".toList ++ pythonJson value
  | (key, value) :: next :: members =>
    quote key ++ ": ".toList ++ pythonJson value ++ ", ".toList ++ pythonMembers (next :: members)

end

def renderTool (tool : ToolDefinition) : Text :=
  "\x7b\"type\": \"function\", \"function\": \x7b\"name\": ".toList ++ quote tool.name ++
    (match tool.description with
    | some description => ", \"description\": ".toList ++ quote description
    | none => []) ++
    (match tool.parameters with
    | .null => []
    | parameters => ", \"parameters\": ".toList ++ pythonJson parameters) ++
    "\x7d\x7d".toList

def renderParameter (parameter : Text × Json) : Text :=
  "<parameter=".toList ++ parameter.1 ++ ">\n".toList ++ (match parameter.2 with
    | .string text => text
    | value => pythonJson value) ++
    "\n</parameter>\n".toList

def renderCall (call : Call) : Text :=
  "<tool_call>\n<function=".toList ++ call.name ++ ">\n".toList ++ (match call.arguments with
    | .object arguments => arguments.flatMap renderParameter
    | _ => []) ++
    "</function>\n</tool_call>".toList

def toolsHeader : Text :=
  "# Tools\n\nYou have access to the following functions:\n\n<tools>".toList

def toolsFooter : Text :=
  ("\n</tools>\n\nIf you choose to call a function ONLY reply in the following format with NO " ++
    "suffix:\n\n<tool_call>\n<function=example_function_name>\n<parameter=example_parameter_1>\n" ++
    "value_1\n</parameter>\n<parameter=example_parameter_2>\nThis is the value for the second " ++
    "parameter\nthat can span\nmultiple lines\n</parameter>\n</function>\n</tool_call>\n\n" ++
    "<IMPORTANT>\nReminder:\n- Function calls MUST follow the specified format: an inner " ++
    "<function=...></function> block must be nested within <tool_call></tool_call> XML tags\n" ++
    "- Required parameters MUST be specified\n- You may provide optional reasoning for your " ++
    "function call in natural language BEFORE the function call, but NOT after\n- If there is " ++
    "no function call available, answer the question like normal with your current knowledge " ++
    "and do not tell the user about function calls\n</IMPORTANT>").toList

def renderSystem (system : Text) (instruction : Option Text) (tools : ToolSet) : Text :=
  if !tools.tools.isEmpty then
    "<|im_start|>system\n".toList ++ (match instruction with
      | some instruction => instruction ++ "\n\n".toList
      | none => []) ++
      toolsHeader ++ (tools.tools.flatMap fun tool => '\n' :: renderTool tool.definition) ++
      toolsFooter ++ (if system.isEmpty then [] else "\n\n".toList ++ system) ++
      "<|im_end|>\n".toList
  else if instruction.isSome || !system.isEmpty then
    "<|im_start|>system\n".toList ++ (match instruction with
      | some instruction => instruction ++ (if system.isEmpty then [] else "\n\n".toList)
      | none => []) ++
      system ++ "<|im_end|>\n".toList
  else []

def thoughts (turn : Message D) : Text :=
  "<think>\n".toList ++ trim (turn.reasoning.getD []) ++ "\n</think>\n\n".toList

/-- The calls of an assistant turn, behind its content. -/
def renderCalls (content : Text) : List Call → Text
  | [] => []
  | call :: calls =>
    (if content.isEmpty then [] else "\n\n".toList) ++ renderCall call ++
      calls.flatMap fun call => '\n' :: renderCall call

/-- An assistant turn behind its thought block. -/
def renderAnswer (turn : Message D) : Text :=
  trim turn.content ++ renderCalls (trim turn.content) turn.calls ++ "<|im_end|>\n".toList

section Render

variable (env : Env) (preserveThinking : Bool) (lastQuery leading : Nat)

def renderTurn (previous : Option Role) (index : Nat) (turn : Message D) (next : Option Role) :
    Except Text Text :=
  match turn.role with
  | .system | .developer =>
    if leading ≤ index then
      .error (turn.role.name ++
        " message must be first: instructions may only lead the conversation".toList)
    else .ok []
  | .user => .ok ("<|im_start|>user\n".toList ++ trim turn.content ++ "<|im_end|>\n".toList)
  | .assistant =>
    .ok ("<|im_start|>assistant\n".toList ++
      (if preserveThinking || decide (lastQuery < index) then thoughts turn else []) ++
      renderAnswer turn)
  | .tool =>
    .ok ((if previous.any (· ≠ .tool) then "<|im_start|>user".toList else []) ++
      '\n' :: toolResponseStart ++ '\n' :: trim turn.content ++ '\n' :: toolResponseEnd ++
      (if next.any (· = .tool) then [] else "<|im_end|>\n".toList))
  | .other name _ => .error ("unsupported message role ".toList ++ env.debug name)

def renderTurns (previous : Option Role) (index : Nat) : List (Message D) → Except Text Text
  | [] => .ok []
  | turn :: turns => do
    let text ← renderTurn env preserveThinking lastQuery leading previous index turn
      (turns.head?.map Message.role)
    let more ← renderTurns (some turn.role) (index + 1) turns
    pure (text ++ more)

end Render

def opener : Text := "<|im_start|>assistant".toList

def opening (thinking : Bool) : Text :=
  opener ++ (if thinking then "\n<think>\n".toList else "\n<think>\n\n</think>\n\n".toList)

section Requests

variable (env : Env)

def render (turns : List (Message D)) (thinking : Option ReasoningEffort)
    (preserveThinking : Bool) (tools : ToolSet) : Except Text Text := do
  if turns.isEmpty then .error "no messages provided".toList
  if turns.length = 1 ∧ turns.all (fun turn => turn.role = .user && (trim turn.content).isEmpty) then
    .error "message content is empty".toList
  validateHistory env tools turns
  if !turns.any isQuery then .error "no user query found in messages".toList
  let turns ← orderResults env [] [] turns
  let lastQuery := (rposition isQuery turns).getD 0
  let leading := (turns.takeWhile fun turn => isInstruction turn.role).length
  let system := leadingInstructions (turns.take leading)
  let instruction := thinking.bind ReasoningEffort.instruction
  let body ← renderTurns env preserveThinking lastQuery leading none 0 turns
  pure (renderSystem system instruction tools ++ body ++ opening thinking.isSome)

variable (video : D → Bool)

def renderMessages (messages : List (Message D)) (thinking : Option ReasoningEffort)
    (preserveThinking : Bool) (tools : ToolSet) : Except Text Text := do
  let turns ← messages.mapM (turn video)
  render env turns thinking preserveThinking tools

def renderPrompt (request : ChatRequest D) (tools : ToolSet) : Except Text Text := do
  let instructed := request.thinking || request.reasoningInstruction
  let prompt ← renderMessages env video request.messages
    (if instructed then some request.effort else none) request.preserveThinking tools
  -- the thinking opener becomes the empty thought block
  pure (if instructed && !request.thinking then prompt ++ "\n</think>\n\n".toList else prompt)

variable (js : Jsonschema) (translators : Translators)

def prepareChat (request : ChatRequest D) : Except Text (Text × Option ToolSet) := do
  let tools ← ToolSet.new env js translators request.tools
  let prompt ← renderPrompt env video request tools
  pure (prompt, if tools.tools.isEmpty then none else some tools)

end Requests

end LocalAi.Prompt
