import LocalAi.Lib.Except
import LocalAi.Tools.Json

/-!
# Reading a tool call

The pinned checkpoint writes a call as `<function=NAME>` with one
`<parameter=KEY>` block per argument.  `parse_call` reads a call of a tool whose
schema guides only, `parse_strict` one whose layout the grammar enforced.

`serde_json`'s reader, the printing of a string with `{:?}` and the compiled
JSON Schema validators are not this repository's code: the first two are the
environment `Env`, the validators are part of a compiled `Tool`.

* `parseCall`: a call whose tool's schema guides only.
* `parseStrict`: a call whose layout the grammar enforced.
-/

namespace LocalAi.Tools

open LocalAi.Lib

/-- `serde_json::from_str` and the `{:?}` form of a string. -/
structure Env where
  fromStr : Text → Except Text Json
  debug : Text → Text

/-! ### Compiled tools -/

structure ToolDefinition where
  name : Text
  description : Option Text
  parameters : Json
  strict : Bool

structure Parameter where
  validator : Json → Bool
  unconstrained : Bool
  anyString : Bool

structure ArgumentSchema where
  /-- The whole arguments object: where it is invalid and why. -/
  arguments : Json → Option (Text × Text)
  properties : List (Text × Parameter)
  additional : Option Parameter

inductive ValueKind where
  | raw (constraints : List Text)
  | json (schema : Json)

structure StrictParameter where
  name : Text
  required : Bool
  value : ValueKind

structure StrictTool where
  parameters : List StrictParameter

def StrictTool.parameter (tool : StrictTool) (name : Text) : Option StrictParameter :=
  tool.parameters.find? fun parameter => parameter.name == name

structure Tool where
  definition : ToolDefinition
  schema : Option ArgumentSchema
  strict : Option (Except Text StrictTool)

structure ToolSet where
  tools : List Tool

def ToolSet.get (tools : ToolSet) (name : Text) : Option Tool :=
  tools.tools.find? fun tool => tool.definition.name == name

def ToolSet.anyStrict (tools : ToolSet) : Bool := tools.tools.any fun tool => tool.strict.isSome

/-- The schema that converts parameter `key` (`properties`, then
`additionalProperties`). -/
def ArgumentSchema.parameter (schema : ArgumentSchema) (key : Text) : Option Parameter :=
  ((schema.properties.find? fun entry => entry.1 == key).map Prod.snd).or schema.additional

/-! ### Tags and names -/

def callStart : Text := "<tool_call>".toList

def callEndTag : Text := "</tool_call>".toList

def functionOpen : Text := "\n<function=".toList

def parameterOpen : Text := "\n<parameter=".toList

def parameterClose : Text := "\n</parameter>".toList

def strictCallEnd : Text := "\n</function>\n</tool_call>".toList

def isNameChar (c : Char) : Bool := c.isAlphanum || c == '_' || c == '-' || c == '.'

def validToolName (name : Text) : Bool :=
  1 ≤ utf8Len name && utf8Len name ≤ 64 && name.all isNameChar

def checkToolName (env : Env) (name : Text) : Except Text Unit :=
  if validToolName name then
    .ok ()
  else
    .error ("invalid tool name ".toList ++ env.debug name ++
      ": use 1-64 ASCII letters, digits, '_', '-' or '.'".toList)

def validParameterName (name : Text) : Bool :=
  !name.isEmpty && !name.any fun c => c == '<' || c == '>' || isWhitespace c || isControl c

/-- A parameter name must survive the round trip through `<parameter=NAME>`. -/
def checkParameterName (env : Env) (name : Text) : Except Text Unit :=
  if validParameterName name then
    .ok ()
  else
    .error ("invalid parameter name ".toList ++ env.debug name ++
      ": it must be non-empty without '<', '>', whitespace or control characters".toList)

/-! ### Values -/

/-- Strings are raw text and everything else JSON; see the source for the rule. -/
def convert (env : Env) (raw : Text) (parameter : Option Parameter) : Json :=
  let parsed := (env.fromStr raw).toOption
  match parameter with
  | some parameter =>
    if parameter.unconstrained then
      parsed.getD (.string raw)
    else if parameter.validator (.string raw) then
      .string raw
    else
      match parsed with
      | some value => if parameter.validator value then value else .string raw
      | none => .string raw
  | none => parsed.getD (.string raw)

def validateArguments (env : Env) (tool : Tool) (arguments : List (Text × Json)) :
    Except Text Unit :=
  match tool.schema with
  | none =>
    if arguments.isEmpty then
      .ok ()
    else
      .error ("tool ".toList ++ env.debug tool.definition.name ++ " takes no arguments".toList)
  | some schema =>
    match schema.arguments (.object arguments) with
    | none => .ok ()
    | some (path, error) => .error ("arguments".toList ++ path ++ ": ".toList ++ error)

/-- One trailing newline belongs to the layout. -/
def dropNewline (raw : Text) : Text := (stripSuffix ['\n'] raw).getD raw

/-- One leading newline belongs to the layout. -/
def skipNewline (text : Text) : Text := (stripPrefix ['\n'] text).getD text

/-! ### `parse_call` -/

/-- The loop over the parameters of `parse_call`.  `fuel` exceeds the length of
the text, which every round shortens. -/
def parseParameters (env : Env) (tool : Option Tool) :
    (fuel : Nat) → (rest : Text) → List (Text × Json) → Except Text (List (Text × Json))
  | 0, _, _ => .error []
  | fuel + 1, rest, arguments =>
    let rest := trimStart rest
    if rest.isEmpty then
      .ok arguments
    else do
      let parameter ← (stripPrefix "<parameter=".toList rest).elim
        (.error "unexpected text outside <parameter=...> blocks".toList) .ok
      let (key, parameter) ← (splitOnce ['>'] parameter).elim
        (.error "unterminated <parameter= tag".toList) .ok
      checkParameterName env key
      let (raw, after) ← (splitOnce "</parameter>".toList (skipNewline parameter)).elim
        (.error ("parameter ".toList ++ env.debug key ++ " is missing </parameter>".toList)) .ok
      ensure (!arguments.any fun entry => entry.1 == key)
        ("duplicate parameter ".toList ++ env.debug key)
      let schema := (tool.bind Tool.schema).bind fun schema => schema.parameter key
      parseParameters env tool fuel after
        (arguments ++ [(key, convert env (dropNewline raw) schema)])

/-- Only a strict tool promises arguments that satisfy its schema. -/
def validateStrict (env : Env) (tool : Option Tool) (name : Text)
    (arguments : List (Text × Json)) : Except Text Unit :=
  match tool.filter fun tool => tool.strict.isSome with
  | some tool =>
    (validateArguments env tool arguments).mapError fun error => name ++ ": ".toList ++ error
  | none => .ok ()

def parseCall (env : Env) (block : Text) (tools : ToolSet) :
    Except Text (Text × List (Text × Json)) := do
  let body ← (stripPrefix "<function=".toList (trim block)).elim
    (.error "expected <function=NAME>".toList) .ok
  let (name, body) ← (splitOnce ['>'] body).elim (.error "unterminated <function= tag".toList) .ok
  let rest ← (stripSuffix "</function>".toList (trimEnd body)).elim
    (.error "missing </function>".toList) .ok
  checkToolName env name
  let tool := tools.get name
  let arguments ← parseParameters env tool (rest.length + 1) rest []
  validateStrict env tool name arguments
  .ok (name, arguments)

/-! ### `parse_strict` -/

def strictValue (env : Env) (key : Text) (kind : ValueKind) (raw : Text) : Except Text Json :=
  match kind with
  | .raw _ => .ok (.string raw)
  | .json _ => (env.fromStr raw).mapError fun error =>
    "parameter ".toList ++ env.debug key ++ " is not JSON: ".toList ++ error

def parseStrictParameters (env : Env) (strict : StrictTool) :
    (fuel : Nat) → (rest : Text) → List (Text × Json) → Except Text (List (Text × Json))
  | 0, _, _ => .error []
  | fuel + 1, rest, arguments =>
    if rest.isEmpty then
      .ok arguments
    else do
      let parameter ← (stripPrefix parameterOpen rest).elim
        (.error "expected <parameter=NAME>".toList) .ok
      let (key, parameter) ← (splitOnce ">\n".toList parameter).elim
        (.error "unterminated <parameter= tag".toList) .ok
      let declared ← (strict.parameter key).elim
        (.error ("unknown parameter ".toList ++ env.debug key)) .ok
      let (raw, after) ← (splitOnce parameterClose parameter).elim
        (.error ("parameter ".toList ++ env.debug key ++ " is missing </parameter>".toList)) .ok
      ensure (!arguments.any fun entry => entry.1 == key)
        ("duplicate parameter ".toList ++ env.debug key)
      let value ← strictValue env key declared.value raw
      parseStrictParameters env strict fuel after (arguments ++ [(key, value)])

/-- `parse_strict`: a strict tool's call exactly as its grammar spelled it. -/
def parseStrict (env : Env) (block : Text) (tool : Tool) :
    Except Text (Text × List (Text × Json)) :=
  let name := tool.definition.name
  match tool.strict with
  | some (.ok strict) => do
    let rest ← (stripPrefix (functionOpen ++ name ++ ['>']) block).elim
      (.error "expected <function=NAME>".toList) .ok
    let arguments ← parseStrictParameters env strict (rest.length + 1) rest []
    (validateArguments env tool arguments).mapError fun error => name ++ ": ".toList ++ error
    .ok (name, arguments)
  | _ => .error (name ++ ": strict tool has no enforced layout".toList)

/-! ### The end of a call -/

/-- `call_end`: the open call's block, the text after its end marker, the
marker, and the strict tool whose layout the grammar enforced, if any. -/
def callEnd (pending : Text) (tools : ToolSet) : Option (Text × Text × Text × Option Tool) :=
  let legacy :=
    (splitOnce callEndTag pending).map fun (block, rest) => (block, rest, callEndTag, none)
  if !tools.anyStrict then
    legacy
  else
    match (stripPrefix functionOpen pending).bind (splitOnce ['>']) with
    | none => legacy
    | some (name, _) =>
      match tools.get name with
      | some tool =>
        if tool.strict.isSome then
          (splitOnce strictCallEnd pending).map fun (block, rest) =>
            (block, rest, strictCallEnd, some tool)
        else
          legacy
      | none => legacy

/-- How a completed call is read: by its strict tool, or as any call. -/
def parseBlock (env : Env) (tools : ToolSet) (block : Text) (strict : Option Tool) :
    Except Text (Text × List (Text × Json)) :=
  match strict with
  | none => parseCall env block tools
  | some tool => parseStrict env block tool

end LocalAi.Tools
