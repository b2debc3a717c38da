import LocalAi.Tools.Parse

/-!
# The native spelling of a strict tool

`classify` translates a strict tool's parameter schema into the layout the
grammar enforces: its parameters in declared order, each a raw string under
regular expressions or JSON under its own schema.  A schema the translation
cannot enforce exactly is refused with the reason.

The translations of a `pattern` and of a Lark grammar, and the emptiness test of
the regular expressions, are those of `Translators`.

* `classifyParameter`: raw text or JSON, decided from the resolved schema.
* `classify`: the whole spelling, or why there is none.
-/

namespace LocalAi

/-! ### Reading JSON -/

/-- `Value::as_str`. -/
def Json.asStr : Json → Option Text
  | .string text => some text
  | _ => none

/-- `Value::as_u64`: a number printed as plain digits that fits 64 bits. -/
def Json.asU64 : Json → Option Nat
  | .number text =>
    if !text.isEmpty && text.all Char.isDigit then
      let value := text.foldl (fun n c => 10 * n + (c.toNat - '0'.toNat)) 0
      if value < 2 ^ 64 then some value else none
    else
      none
  | _ => none

def Json.isNull : Json → Bool
  | .null => true
  | _ => false

def decimal (n : Nat) : Text := Nat.toDigits 10 n

def splitAll (separator : Char) : Text → List Text
  | [] => [[]]
  | c :: text =>
    match splitAll separator text with
    | [] => [[c]]
    | part :: parts => if c = separator then [] :: part :: parts else (c :: part) :: parts

/-- A JSON Pointer segment with its escapes read. -/
def unescapeSegment : Text → Text
  | '~' :: '1' :: text => '/' :: unescapeSegment text
  | '~' :: '0' :: text => '~' :: unescapeSegment text
  | c :: text => c :: unescapeSegment text
  | [] => []

/-- The array index a pointer segment spells, without sign or leading zeros. -/
def parseIndex (segment : Text) : Option Nat :=
  if segment.isEmpty || !segment.all Char.isDigit ||
      (segment.head? == some '0' && segment.length != 1) then
    none
  else
    some (segment.foldl (fun n c => 10 * n + (c.toNat - '0'.toNat)) 0)

/-- `Value::pointer`. -/
def Json.pointer (value : Json) (path : Text) : Option Json :=
  if path.isEmpty then
    some value
  else if path.head? != some '/' then
    none
  else
    ((splitAll '/' path).drop 1).foldl (fun target segment => target.bind fun target =>
      match target with
      | .object members => lookup (unescapeSegment segment) members
      | .array items => (parseIndex (unescapeSegment segment)).bind fun index => items[index]?
      | _ => none) (some value)

end LocalAi

namespace LocalAi.Tools

open LocalAi.Lib

/-- The regular-expression side of the grammar engine. -/
structure Translators where
  /-- `search_pattern`: an ECMA pattern as an anchored Lark regular expression. -/
  searchPattern : Text → Except Text Text
  /-- `lark::to_regex`. -/
  larkToRegex : Text → Except Text Text
  /-- `check_nonempty`. -/
  checkNonempty : List Text → Except Text Unit

/-! ### Limits and keywords -/

def maxLengthBound : Nat := 16384

def maxEnum : Nat := 256

def maxParameters : Nat := 128

def maxRefDepth : Nat := 16

def annotations : List Text :=
  ["title", "description", "default", "examples", "$comment", "deprecated", "readOnly",
    "writeOnly"].map String.toList

def larkKeyword : Text := "x-local-ai-lark".toList

def dialects : List Text :=
  ["https://json-schema.org/draft/2020-12/schema", "https://json-schema.org/draft/2019-09/schema",
    "http://json-schema.org/draft-07/schema#", "http://json-schema.org/draft-07/schema"].map
    String.toList

section Classify

variable (env : Env) (translators : Translators)

/-! ### References -/

def localDefinition (pointer : Text) : Bool :=
  "/$defs/".toList.isPrefixOf pointer || "/definitions/".toList.isPrefixOf pointer

/-- The local pointer a `$ref` value is, if it points into the definitions. -/
def localPointer (reference : Json) : Option Text :=
  (reference.asStr.bind (stripPrefix ['#'])).filter localDefinition

/-- `resolve`: follow a property's own `$ref` chain, at most `fuel` steps. -/
def resolve (root : Json) : (fuel : Nat) → Json → Except Text Json
  | 0, _ => .error "$ref chain is too deep".toList
  | fuel + 1, schema =>
    match schema with
    | .object map =>
      match lookup "$ref".toList map with
      | none => .ok schema
      | some reference =>
        match (map.map Prod.fst).find? fun key => key != "$ref".toList && !annotations.contains key with
        | some key =>
          .error ("keyword ".toList ++ env.debug key ++ " beside \"$ref\" is not supported".toList)
        | none => do
          let pointer ← (localPointer reference).elim
            (.error ("$ref ".toList ++ reference.toText ++
              " must point into the schema's own $defs or definitions".toList)) .ok
          let next ← (root.pointer pointer).elim
            (.error ("$ref ".toList ++ reference.toText ++ " does not resolve".toList)) .ok
          resolve root fuel next
    | _ => .ok schema

mutual

/-- `check_references`: no reference or identifier that would resolve otherwise
once a subschema is lifted out of its document. -/
def checkReferences : Json → Except Text Unit
  | .object members => checkMembers members
  | .array items => checkItems items
  | _ => .ok ()

def checkItems : List Json → Except Text Unit
  | [] => .ok ()
  | item :: items => do checkReferences item; checkItems items

/-- The schemas of a map from names to schemas, whose names are data. -/
def checkSchemas : List (Text × Json) → Except Text Unit
  | [] => .ok ()
  | (_, schema) :: schemas => do checkReferences schema; checkSchemas schemas

def checkMembers : List (Text × Json) → Except Text Unit
  | [] => .ok ()
  | (key, value) :: members => do
    if key == "$ref".toList then
      ensure (localPointer value).isSome ("$ref ".toList ++ value.toText ++
        " must point into the schema's own $defs or definitions".toList)
    else if ["$id", "$anchor", "$dynamicRef", "$dynamicAnchor", "$recursiveRef",
        "$recursiveAnchor", "x-guidance"].any fun keyword => keyword.toList == key then
      .error ("keyword ".toList ++ env.debug key ++ " is not supported in strict mode".toList)
    else if ["enum", "const", "default", "examples"].any fun keyword => keyword.toList == key then
      .ok ()
    else if ["properties", "patternProperties", "$defs", "definitions",
        "dependentSchemas"].any fun keyword => keyword.toList == key then
      match value with
      | .object schemas => checkSchemas schemas
      | other => checkReferences other
    else
      checkReferences value
    checkMembers members

end

/-- `json_schema`: a JSON-valued parameter's schema, made self-contained. -/
def jsonSchema (schema : Json) (definitions : List (Text × Json)) : Except Text Json := do
  checkReferences env schema
  checkSchemas env definitions
  match schema with
  | .object map =>
    if (lookup "x-guidance".toList map).isSome then
      .error "\"x-guidance\" is not supported".toList
    else if (lookup "$defs".toList map).isSome || (lookup "definitions".toList map).isSome then
      .error "nested $defs/definitions are not supported; declare them at the top level".toList
    else
      .ok (.object (map ++ definitions))
  | _ => .error "schema must be an object".toList

/-! ### Raw strings -/

/-- A character with a meaning in a Lark regular expression. -/
def isRegexSpecial (c : Char) : Bool := "\\.+*?()|[]\x7b\x7d^$#&-~/".toList.contains c

def regexLiteral (text : Text) : Text :=
  text.flatMap fun c =>
    if isRegexSpecial c then
      ['\\', c]
    else if isControl c || isWhitespace c then
      "\\x\x7b".toList ++ Nat.toDigits 16 c.toNat ++ ['\x7d']
    else
      [c]

def lengthBound (map : List (Text × Json)) (key : Text) : Except Text (Option Nat) :=
  match lookup key map with
  | none => .ok none
  | some value => do
    let value ← value.asU64.elim
      (.error (env.debug key ++ " must be a non-negative integer".toList)) .ok
    if value > maxLengthBound then
      .error (env.debug key ++ " above ".toList ++ decimal maxLengthBound ++
        " is not supported".toList)
    else
      .ok (some value)

def rawKeywords : List Text :=
  ["type", "enum", "const", "pattern", "minLength", "maxLength"].map String.toList ++ [larkKeyword]

def enumConstraint (values : List Json) : Except Text Text :=
  let strings := values.filterMap Json.asStr
  if values.any fun value => value.asStr.isNone && !value.isNull then
    .error "enum/const of a string must hold strings".toList
  else if strings.isEmpty then
    .error "enum/const allows no string, so no value is valid".toList
  else if strings.length > maxEnum then
    .error ("more than ".toList ++ decimal maxEnum ++ " enum values".toList)
  else
    .ok ("(?:".toList ++ List.intercalate ['|'] (strings.map regexLiteral) ++ [')'])

def valueConstraints : Option (List Json) → Except Text (List Text)
  | none => .ok []
  | some values => do .ok [← enumConstraint values]

def patternConstraints (map : List (Text × Json)) : Except Text (List Text) :=
  match lookup "pattern".toList map with
  | none => .ok []
  | some pattern => do
    let pattern ← pattern.asStr.elim (.error "\"pattern\" must be a string".toList) .ok
    .ok [← translators.searchPattern pattern]

def larkConstraints (map : List (Text × Json)) : Except Text (List Text) :=
  match lookup larkKeyword map with
  | none => .ok []
  | some grammar => do
    let grammar ← grammar.asStr.elim
      (.error (env.debug larkKeyword ++ " must be a string".toList)) .ok
    .ok [← (translators.larkToRegex grammar).mapError ("lark grammar: ".toList ++ ·)]

def lengthConstraints (minimum maximum : Option Nat) : Except Text (List Text) :=
  if minimum.isNone && maximum.isNone then
    .ok []
  else if minimum.isSome && maximum.isSome && minimum.getD 0 > maximum.getD 0 then
    .error "minLength exceeds maxLength".toList
  else
    .ok ["(?s:.\x7b".toList ++ decimal (minimum.getD 0) ++ [','] ++
      (maximum.map decimal).getD [] ++ "\x7d)".toList]

/-- `raw_constraints`: the regular expressions a raw string value must match. -/
def rawConstraints (map : List (Text × Json)) (values : Option (List Json)) :
    Except Text (List Text) :=
  match (map.map Prod.fst).find? fun key =>
      !rawKeywords.contains key && !annotations.contains key with
  | some key =>
    .error ("keyword ".toList ++ env.debug key ++ " is not supported for strict raw strings".toList)
  | none => do
    let enumerated ← valueConstraints values
    let pattern ← patternConstraints translators map
    let lark ← larkConstraints env translators map
    let minimum ← lengthBound env map "minLength".toList
    let maximum ← lengthBound env map "maxLength".toList
    let lengths ← lengthConstraints minimum maximum
    let constraints := enumerated ++ pattern ++ lark ++ lengths
    translators.checkNonempty constraints
    .ok constraints

/-! ### Parameters -/

def declaredTypes (map : List (Text × Json)) : Except Text (Option (List Text)) :=
  match lookup "type".toList map with
  | none => .ok none
  | some (.string kind) => .ok (some [kind])
  | some (.array kinds) =>
    (kinds.mapM Json.asStr).elim (.error "\"type\" must name types".toList) fun kinds =>
      .ok (some kinds)
  | some _ => .error "\"type\" must be a string or an array".toList

/-- The values an `enum` or a `const` allows. -/
def declaredValues (map : List (Text × Json)) : Except Text (Option (List Json)) :=
  match lookup "enum".toList map, lookup "const".toList map with
  | some _, some _ => .error "\"enum\" beside \"const\" is not supported".toList
  | some (.array values), none => .ok (some values)
  | some _, none => .error "\"enum\" must be an array".toList
  | none, some value => .ok (some [value])
  | none, none => .ok none

/-- Whether a parameter is written as raw text. -/
def isRaw (types : Option (List Text)) (values : Option (List Json)) : Except Text Bool :=
  match types, values with
  | some types, _ =>
    if types.contains "string".toList then
      if types.any fun kind => kind != "string".toList && kind != "null".toList then
        .error ("a type list mixing \"string\" with non-null types is ambiguous in the " ++
          "raw-text format").toList
      else
        .ok true
    else
      .ok false
  | none, some values =>
    if values.all fun value => value.asStr.isSome then .ok true
    else if values.all fun value => value.asStr.isNone then .ok false
    else .error "an enum mixing strings and other values is not supported".toList
  | none, none => .error "strict parameters must declare \"type\" (or enum/const)".toList

def classifyParameter (root schema : Json) (definitions : List (Text × Json)) :
    Except Text ValueKind := do
  match ← resolve env root maxRefDepth schema with
  | .object map =>
    let types ← declaredTypes map
    let values ← declaredValues map
    if ← isRaw types values then
      .ok (.raw (← rawConstraints env translators map values))
    else
      .ok (.json (← jsonSchema env (.object map) definitions))
  | _ => .error "schema must be an object (true/false schemas are not supported)".toList

/-! ### The root -/

def checkRootKeyword : Text × Json → Except Text Unit
  | (key, value) =>
    if key == "type".toList then
      match value with
      | .string kind =>
        if kind == "object".toList then .ok ()
        else .error "top-level type must be \"object\"".toList
      | _ => .error "top-level type must be \"object\"".toList
    else if ["properties", "required", "$defs", "definitions", "minProperties",
        "maxProperties"].any fun keyword => keyword.toList == key then
      .ok ()
    else if key == "additionalProperties".toList then
      match value with
      | .bool false => .ok ()
      | _ => .error "strict parameters must set \"additionalProperties\": false".toList
    else if key == "$schema".toList then
      if (value.asStr.map dialects.contains).getD false then .ok ()
      else .error ("unsupported $schema ".toList ++ value.toText)
    else if annotations.contains key then
      .ok ()
    else
      .error ("top-level keyword ".toList ++ env.debug key ++
        " is not supported in strict mode".toList)

def requiredNames (declared : List (Text × Json)) :
    List Json → List Text → Except Text (List Text)
  | [], required => .ok required
  | name :: names, required => do
    let name ← name.asStr.elim (.error "\"required\" must list strings".toList) .ok
    if (lookup name declared).isNone then
      .error ("required parameter ".toList ++ env.debug name ++
        " is not declared, so no call can satisfy the schema".toList)
    else if required.contains name then
      .error ("\"required\" lists ".toList ++ env.debug name ++ " twice".toList)
    else
      requiredNames declared names (required ++ [name])

def declaredRequired (root declared : List (Text × Json)) : Except Text (List Text) :=
  match lookup "required".toList root with
  | none => .ok []
  | some (.array names) => requiredNames env declared names []
  | some _ => .error "\"required\" must be an array".toList

/-- A `minProperties` the required parameters meet. -/
def checkMinimum (root : List (Text × Json)) (required : Nat) : Except Text Unit :=
  match lookup "minProperties".toList root with
  | none => .ok ()
  | some minimum => do
    let minimum ← minimum.asU64.elim
      (.error "\"minProperties\" must be a non-negative integer".toList) .ok
    ensure (minimum ≤ required) ("\"minProperties\": ".toList ++ decimal minimum ++
      " exceeds the ".toList ++ decimal required ++
      " required parameters; only a bound the required parameters meet is enforced".toList)

/-- A `maxProperties` every call meets. -/
def checkMaximum (root : List (Text × Json)) (declared : Nat) : Except Text Unit :=
  match lookup "maxProperties".toList root with
  | none => .ok ()
  | some maximum => do
    let maximum ← maximum.asU64.elim
      (.error "\"maxProperties\" must be a non-negative integer".toList) .ok
    ensure (declared ≤ maximum) ("\"maxProperties\": ".toList ++ decimal maximum ++
      " is below the ".toList ++ decimal declared ++
      " declared parameters; only a bound every call meets is enforced".toList)

def spellParameters (root : Json) (definitions : List (Text × Json)) (required : List Text) :
    List (Text × Json) → Except Text (List StrictParameter)
  | [] => .ok []
  | (name, schema) :: declared => do
    let value ← (classifyParameter env translators root schema definitions).mapError fun error =>
      "parameter ".toList ++ env.debug name ++ ": ".toList ++ error
    let rest ← spellParameters root definitions required declared
    .ok (⟨name, required.contains name, value⟩ :: rest)

def declaredProperties (root : List (Text × Json)) : Except Text (List (Text × Json)) :=
  match lookup "properties".toList root with
  | none => .ok []
  | some (.object declared) => .ok declared
  | some _ => .error "\"properties\" must be an object".toList

/-- `classify`: translate one strict tool's parameter schema, or say why not. -/
def classify (parameters : Json) : Except Text StrictTool :=
  match parameters with
  | .null => .ok ⟨[]⟩
  | .object root => do
    root.forM (checkRootKeyword env)
    ensure (lookup "additionalProperties".toList root).isSome
      "strict parameters must set \"additionalProperties\": false".toList
    let declared ← declaredProperties root
    ensure (declared.length ≤ maxParameters)
      ("more than ".toList ++ decimal maxParameters ++ " parameters".toList)
    let required ← declaredRequired env root declared
    checkMinimum root required.length
    checkMaximum root declared.length
    let definitions := root.filter fun member =>
      member.1 == "$defs".toList || member.1 == "definitions".toList
    let spelled ← spellParameters env translators parameters definitions required declared
    .ok ⟨spelled⟩
  | _ => .error "parameters must be a JSON Schema object or null".toList

end Classify

end LocalAi.Tools
