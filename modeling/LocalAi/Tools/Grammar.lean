import LocalAi.Lib.Grammar
import LocalAi.Tools.Compile

/-!
# The grammar of a tool policy

`build` compiles a request's tool policy into one grammar over the checkpoint's
call format.  The source prints it as a Lark text; here its rules are data, under
the same names, and a JSON subgrammar is a terminal.

What a terminal matches rests on the grammar engine (`Engine`): its regular
expressions, the texts of special tokens and what a JSON text means.  `hd` is
lazy in the source, which changes nothing here: free text never holds the tag.

* `build`: the rules, whether a call is mandatory, and the JSON schemas by name.
* `derivedCalls`, `freeText`: what a derivation spells.
-/

namespace LocalAi

mutual

/-- How deep the arrays and objects of a value are nested. -/
def Json.depth : Json → Nat
  | .array items => depthItems items + 1
  | .object members => depthMembers members + 1
  | _ => 0

def depthItems : List Json → Nat
  | [] => 0
  | item :: items => max item.depth (depthItems items)

def depthMembers : List (Text × Json) → Nat
  | [] => 0
  | (_, value) :: members => max value.depth (depthMembers members)

end

/-- `Map::insert`: the member's own place, or the end. -/
def insertMember (key : Text) (value : Json) (members : List (Text × Json)) : List (Text × Json) :=
  if members.any fun member => member.1 == key then
    members.map fun member => if member.1 == key then (key, value) else member
  else
    members ++ [(key, value)]

end LocalAi

namespace LocalAi.Tools

open LocalAi.Lib

/-! ### Policies -/

inductive ToolChoice where
  | auto
  | none
  | required
  | function (name : Text)
  | allowed (tools : List Text) (required : Bool)
deriving DecidableEq

/-- The checkpoint's special-token ids for the call tags, when it has them. -/
structure CallTags where
  opening : Option Nat
  closing : Option Nat

inductive RuleName where
  | start
  | pre
  | hd
  | opening
  | closing
  | generic
  | call
  | function (index : Nat)
  | parameter (index position : Nat)

inductive Terminal where
  | literal (text : Text)
  | token (id : Nat)
  | text
  | lead
  | gap
  | generic
  | header (name : Text)
  | key (name : Text)
  | raw (constraints : List Text)
  | json (schema : Json)
  | final (schema : Json)

abbrev Rule : Type := Rhs RuleName Terminal

structure ToolGrammar where
  rules : RuleName → Rule
  callRequired : Bool
  /-- Each JSON parameter's tool and name, and its own schema. -/
  parameters : List (Text × Json)

/-! ### Rules -/

def position (env : Env) (tools : ToolSet) (name : Text) : Except Text Nat :=
  (tools.tools.findIdx? fun tool => tool.definition.name == name).elim
    (.error ("tool_choice names unknown tool ".toList ++ env.debug name)) .ok

/-- `callable`: the indices of the tools `choice` lets the model call. -/
def callable (env : Env) (tools : ToolSet) : ToolChoice → Except Text (List Nat)
  | .function name => do .ok [← position env tools name]
  | .allowed [] _ => .error "allowed_tools needs at least one tool".toList
  | .allowed allowed _ => allowed.mapM (position env tools)
  | _ => .ok (List.range tools.tools.length)

/-- `start_rule`, with the schema of a structured final answer. -/
def startRule (choice : ToolChoice) (format : Option Json) (more : Rule) : Rule :=
  let calls := Rhs.sequence [.opt (.term .lead), .rule .opening, .rule .call, more]
  match choice, format with
  | .none, none => .term .text
  | .none, some schema => .seq (.opt (.term .lead)) (.term (.final schema))
  | .auto, none | .allowed _ false, none =>
    .alt (.term .text) (Rhs.sequence [.rule .pre, .rule .call, more])
  | .auto, some schema | .allowed _ false, some schema =>
    .alt (.seq (.opt (.term .lead)) (.term (.final schema))) calls
  | .required, _ | .function _, _ | .allowed _ true, _ => calls

/-- `more`: the calls after the first. -/
def moreCalls (parallel : Bool) : Rule :=
  if parallel then
    .seq (.star (Rhs.sequence [.opt (.term .gap), .rule .opening, .rule .call])) (.opt (.term .gap))
  else
    .opt (.term .gap)

def alternatives (literal : Text) (special : Option Nat) : Rule :=
  match special with
  | none => .term (.literal literal)
  | some id => .alt (.term (.literal literal)) (.term (.token id))

def guidance : Json :=
  .object
    [("whitespace_flexible".toList, .bool false), ("item_separator".toList, .string ", ".toList),
      ("key_separator".toList, .string ": ".toList), ("lenient".toList, .bool false),
      ("coerce_one_of".toList, .bool false)]

/-- The schema a JSON subgrammar is built from. -/
def guided : Json → Json
  | .object map => .object (insertMember "x-guidance".toList guidance map)
  | other => other

def parameterEnd : Text := "\n</parameter>\n".toList

def functionEnd : Text := "</function>\n".toList

def valueTerminal : ValueKind → Terminal
  | .raw constraints => .raw constraints
  | .json schema => .json (guided schema)

def parameterRule (parameter : StrictParameter) : Rule :=
  Rhs.sequence [.term (.key parameter.name), .term (valueTerminal parameter.value),
    .term (.literal parameterEnd)]

/-- Required parameters once, others at most once. -/
def parameterUse (index : Nat) (entry : StrictParameter × Nat) : Rule :=
  if entry.1.required then .rule (.parameter index entry.2)
  else .opt (.rule (.parameter index entry.2))

def strictRule (index : Nat) (name : Text) (strict : StrictTool) : Rule :=
  Rhs.sequence (.term (.header name) ::
    (strict.parameters.zipIdx.map (parameterUse index) ++
      [.term (.literal functionEnd), .rule .closing]))

def functionRule (tools : ToolSet) (index : Nat) : Rule :=
  match tools.tools[index]? with
  | none => .fail
  | some tool =>
    match tool.strict with
    | none => .seq (.term (.header tool.definition.name)) (.rule .generic)
    | some (.ok strict) => strictRule index tool.definition.name strict
    | some (.error _) => .fail

def parameterAt (tools : ToolSet) (index position : Nat) : Rule :=
  match tools.tools[index]? with
  | none => .fail
  | some tool =>
    match tool.strict with
    | some (.ok strict) =>
      match strict.parameters[position]? with
      | some parameter => parameterRule parameter
      | none => .fail
    | _ => .fail

def rules (tools : ToolSet) (callable : List Nat) (choice : ToolChoice) (parallel : Bool)
    (format : Option Json) (tags : CallTags) : RuleName → Rule
  | .start => startRule choice format (moreCalls parallel)
  | .pre =>
    match tags.opening with
    | none => .rule .hd
    | some id => Rhs.oneOf [.rule .hd, .seq (.term .text) (.term (.token id)), .term (.token id)]
  | .hd => .seq (.term .text) (.term (.literal callStart))
  | .opening => alternatives callStart tags.opening
  | .closing => alternatives callEndTag tags.closing
  | .generic =>
    let close := .seq (.term .generic) (.term (.literal callEndTag))
    match tags.closing with
    | none => close
    | some id => .alt close (.seq (.term .generic) (.term (.token id)))
  | .call => Rhs.oneOf (callable.map fun index => .rule (.function index))
  | .function index => functionRule tools index
  | .parameter index position => parameterAt tools index position

def jsonParameters (env : Env) (name : Text) (strict : StrictTool) : List (Text × Json) :=
  strict.parameters.filterMap fun parameter => match parameter.value with
    | .raw _ => none
    | .json schema => some ("strict tool ".toList ++ env.debug name ++ " parameter ".toList ++
        env.debug parameter.name, guided schema)

/-- What one callable tool adds, or why it has no grammar. -/
def toolParameters (env : Env) (tools : ToolSet) (index : Nat) : Except Text (List (Text × Json)) :=
  match tools.tools[index]? with
  | none => .ok []
  | some tool =>
    match tool.strict with
    | none => .ok []
    | some (.ok strict) => .ok (jsonParameters env tool.definition.name strict)
    | some (.error error) => .error ("strict tool ".toList ++ env.debug tool.definition.name ++
        ": ".toList ++ error)

/-- Whether the answer must hold a call. -/
def callRequired : ToolChoice → Bool
  | .required | .function _ | .allowed _ true => true
  | _ => false

def build (env : Env) (tools : ToolSet) (choice : ToolChoice) (parallel : Bool)
    (format : Option Json) (tags : CallTags) : Except Text ToolGrammar := do
  let callable ← callable env tools choice
  let parameters ← callable.mapM (toolParameters env tools)
  .ok
    { rules := rules tools callable choice parallel format tags,
      callRequired := callRequired choice, parameters := parameters.flatten }

/-! ### The texts of terminals -/

/-- The grammar engine: what its expressions, tokens and JSON texts mean. -/
structure Engine where
  /-- A Lark regular expression matches a whole text. -/
  expression : Text → Text → Prop
  /-- The text of a special token. -/
  spelling : Nat → Text
  /-- The value of a JSON text. -/
  value : Text → Option Json
  /-- A value is valid under a subschema of a schema document. -/
  valid : (document schema value : Json) → Prop

def isGap (c : Char) : Bool := c == ' ' || c == '\t' || c == '\r' || c == '\n'

/-- A JSON text on one line that is valid for `schema`, nested at most 100 deep. -/
def Engine.JsonText (engine : Engine) (schema : Json) (text : Text) : Prop :=
  '\n' ∉ text ∧ ∃ value, engine.value text = some value ∧ engine.valid schema schema value ∧
    value.depth ≤ 100

def Engine.Matches (engine : Engine) : Terminal → Text → Prop
  | .literal literal, text => text = literal
  | .token id, text => text = engine.spelling id
  | .text, text => ¬ callStart <:+: text
  | .lead, text => 1 ≤ text.length ∧ text.length ≤ 4 ∧ ∀ c ∈ text, c = '\n'
  | .gap, text => 1 ≤ text.length ∧ text.length ≤ 8 ∧ ∀ c ∈ text, isGap c = true
  | .generic, text => ¬ callEndTag <:+: text ∧
      ∃ front space, text = front ++ "</function>".toList ++ space ∧ ∀ c ∈ space, isGap c = true
  | .header name, text => text = functionOpen ++ name ++ ">\n".toList
  | .key name, text => text = "<parameter=".toList ++ name ++ ">\n".toList
  | .raw constraints, text => ¬ "</parameter>".toList <:+: text ∧ ¬ callEndTag <:+: text ∧
      ∀ constraint ∈ constraints, engine.expression constraint text
  | .json schema, text => engine.JsonText schema text
  -- the final answer's whitespace is flexible
  | .final schema, text => ∃ value, engine.value text = some value ∧ engine.valid schema schema value

/-! ### What a derivation spells -/

/-- A terminal of a derivation and its text. -/
abbrev Leaf : Type := Terminal × Text

def spelled (leaves : List Leaf) : Text := leaves.flatMap Prod.snd

def Engine.argument (engine : Engine) : Leaf → Json
  | (.json _, text) => (engine.value text).getD .null
  | (_, text) => .string text

/-- The arguments a derivation goes on with: a key, a value and the closing tag
for each. -/
def Engine.arguments (engine : Engine) : List Leaf → List (Text × Json)
  | (.key name, _) :: value :: _ :: leaves =>
    (name, engine.argument value) :: engine.arguments leaves
  | _ => []

def Engine.derivedCalls (engine : Engine) : List Leaf → List (Text × Json)
  | [] => []
  | (.header name, _) :: leaves =>
    (name, .object (engine.arguments leaves)) :: engine.derivedCalls leaves
  | _ :: leaves => engine.derivedCalls leaves

def freeText (leaves : List Leaf) : Text :=
  leaves.flatMap fun
    | (.text, text) => text
    | _ => []

end LocalAi.Tools
