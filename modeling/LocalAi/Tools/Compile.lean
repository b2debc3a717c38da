import LocalAi.Tools.Classify

/-!
# Compiling a tool set

`ToolSet.new` checks the definitions of a request and compiles their schemas
once.  Validation is `jsonschema`'s (`Jsonschema`); how a parameter's raw text
converts is decided from its own subschema, compiled as a reference into the
tool's whole schema.

* `Compiled`: what every tool of an accepted set satisfies.
* `Compiled.get_of_mem`: distinct names make every tool the one its name finds.
-/

open List

namespace LocalAi.Tools

open LocalAi.Lib

/-- The `jsonschema` crate, without retrieval and with formats asserted. -/
structure Jsonschema where
  /-- A validator of whole values: where a value is invalid and why. -/
  build : Json → Except Text (Json → Option (Text × Text))
  /-- Whether the schema can be registered for references into it. -/
  prepare : Json → Except Text Unit
  /-- A validator of a reference into the registered schema. -/
  buildWith : (registered reference : Json) → Except Text (Json → Bool)

/-! ### Parameters -/

def schemaUri : Text := "urn:local-ai:tool-parameters".toList

def hexUpper (n : Nat) : Char := "0123456789ABCDEF".toList.getD n '0'

def utf8Bytes (c : Char) : List Nat := (String.utf8EncodeChar c).map UInt8.toNat

def fragmentSegment (name : Text) : Text :=
  let escaped := name.flatMap fun c =>
    if c = '~' then "~0".toList else if c = '/' then "~1".toList else [c]
  (escaped.flatMap utf8Bytes).flatMap fun byte =>
    let c := Char.ofNat byte
    if byte < 128 && (c.isAlphanum || c == '-' || c == '.' || c == '_' || c == '~') then [c]
    else ['%', hexUpper (byte / 16), hexUpper (byte % 16)]

def stringKeywords : List Text :=
  ["type", "description", "title", "examples", "default", "$comment", "deprecated", "readOnly",
    "writeOnly"].map String.toList

def Json.isString (text : Text) : Json → Bool
  | .string other => other == text
  | _ => false

/-- `accepts_every_string`: a string type with nothing but annotations. -/
def acceptsEveryString : Json → Bool
  | .object map =>
    let string := match lookup "type".toList map with
      | some (.string kind) => kind == "string".toList
      | some (.array kinds) => kinds.any (Json.isString "string".toList)
      | _ => false
    string && map.all fun member => stringKeywords.contains member.1
  | _ => false

def probes : List Json := [.null, .bool false, .number ['0'], .string [], .array [], .object []]

/-- The reference that selects `pointer` of the registered schema, in its dialect. -/
def reference (map : List (Text × Json)) (pointer : Text) : Json :=
  let dialect := match lookup "$schema".toList map with
    | some dialect => [("$schema".toList, dialect)]
    | none => []
  .object (dialect ++ [("$ref".toList, .string (schemaUri ++ ['#'] ++ pointer))])

section Compile

variable (env : Env) (js : Jsonschema)

def compileParameter (map : List (Text × Json)) (pointer : Text) (declared : Json) :
    Except Text Parameter :=
  match js.buildWith (.object map) (reference map pointer) with
  | .ok validator =>
    .ok
      { validator, unconstrained := probes.all validator,
        anyString := acceptsEveryString declared }
  | .error error => .error ("invalid schema at ".toList ++ pointer ++ ": ".toList ++ error)

def compileProperties (map : List (Text × Json)) :
    List (Text × Json) → Except Text (List (Text × Parameter))
  | [] => .ok []
  | (name, schema) :: declared => do
    checkParameterName env name
    let parameter ← compileParameter js map ("/properties/".toList ++ fragmentSegment name) schema
    let rest ← compileProperties map declared
    .ok ((name, parameter) :: rest)

/-- The `properties` of a schema. -/
def compileDeclared (map : List (Text × Json)) : Except Text (List (Text × Parameter)) :=
  match lookup "properties".toList map with
  | some (.object declared) => compileProperties env js map declared
  | _ => .ok []

/-- The `additionalProperties` of a schema, when they are a schema. -/
def compileAdditional (map : List (Text × Json)) : Except Text (Option Parameter) :=
  match lookup "additionalProperties".toList map with
  | some (.object schema) =>
    (compileParameter js map "/additionalProperties".toList (.object schema)).map some
  | _ => .ok none

def compileParameters : Json → Except Text (Option ArgumentSchema)
  | .null => .ok none
  | .object map => do
    ensure ((lookup "type".toList map).all (Json.isString "object".toList))
      "top-level type must be \"object\"".toList
    let arguments ← (js.build (.object map)).mapError ("invalid schema: ".toList ++ ·)
    (js.prepare (.object map)).mapError ("invalid schema: ".toList ++ ·)
    let properties ← compileDeclared env js map
    let additional ← compileAdditional js map
    .ok (some { arguments, properties, additional })
  | _ => .error "must be a JSON Schema object or null".toList

def compileTool (translators : Translators) (names : List Text) (tool : ToolDefinition) :
    Except Text Tool := do
  checkToolName env tool.name
  ensure (!names.contains tool.name) ("duplicate tool name ".toList ++ env.debug tool.name)
  let schema ← (compileParameters env js tool.parameters).mapError fun error =>
    "tool ".toList ++ env.debug tool.name ++ " parameters: ".toList ++ error
  .ok
    { definition := tool, schema,
      strict := if tool.strict then some (classify env translators tool.parameters) else none }

def compileTools (translators : Translators) :
    List Text → List ToolDefinition → Except Text (List Tool)
  | _, [] => .ok []
  | names, tool :: tools => do
    let compiled ← compileTool env js translators names tool
    let rest ← compileTools translators (tool.name :: names) tools
    .ok (compiled :: rest)

/-- `ToolSet::new`. -/
def ToolSet.new (translators : Translators) (tools : List ToolDefinition) : Except Text ToolSet := do
  .ok ⟨← compileTools env js translators [] tools⟩

end Compile

/-! ### What an accepted set satisfies -/

/-- The subschemas that convert parameters, with their pointers. -/
inductive Subschema (map : List (Text × Json)) : Text → Json → Prop
  | property {declared : List (Text × Json)} {name : Text} {schema : Json}
      (hproperties : lookup "properties".toList map = some (.object declared))
      (hmem : (name, schema) ∈ declared) :
      Subschema map ("/properties/".toList ++ fragmentSegment name) schema
  | additional {schema : List (Text × Json)}
      (hadditional : lookup "additionalProperties".toList map = some (.object schema)) :
      Subschema map "/additionalProperties".toList (.object schema)

/-- A string type without assertions accepts every string. -/
def AcceptsStrings (js : Jsonschema) : Prop :=
  ∀ map pointer declared validator, Subschema map pointer declared →
    acceptsEveryString declared = true →
    js.buildWith (.object map) (reference map pointer) = .ok validator →
    ∀ text, validator (.string text) = true

/-- A streamed parameter's own schema accepts every string. -/
def Parameter.StringSound (parameter : Parameter) : Prop :=
  parameter.anyString = true → ∀ text, parameter.validator (.string text) = true

/-- What `compile_parameters` and `classify` give one tool. -/
structure Tool.Compiled (tool : Tool) : Prop where
  name : validToolName tool.definition.name = true
  strictNames : ∀ strict, tool.strict = some (.ok strict) →
    ∀ parameter ∈ strict.parameters, validParameterName parameter.name = true
  properties : ∀ schema, tool.schema = some schema →
    ∀ entry ∈ schema.properties, validParameterName entry.1 = true ∧ entry.2.StringSound
  additional : ∀ schema, tool.schema = some schema →
    ∀ parameter, schema.additional = some parameter → parameter.StringSound

/-- What `ToolSet::new` gives a set. -/
structure ToolSet.Compiled (tools : ToolSet) : Prop where
  compiled : ∀ tool ∈ tools.tools, tool.Compiled
  distinct : (tools.tools.map fun tool => tool.definition.name).Nodup

variable {name : Text} {tool : Tool} {tools : ToolSet}

section Accepted

variable {env : Env} {js : Jsonschema} {translators : Translators}

theorem checkParameterName_eq_ok :
    checkParameterName env name = .ok () ↔ validParameterName name = true := by
  unfold checkParameterName
  split <;> simp_all

theorem checkToolName_eq_ok : checkToolName env name = .ok () ↔ validToolName name = true := by
  unfold checkToolName
  split <;> simp_all

variable {map : List (Text × Json)}

theorem compileParameter_sound (hs : AcceptsStrings js) {pointer : Text} {declared : Json}
    {parameter : Parameter} (hsub : Subschema map pointer declared)
    (h : compileParameter js map pointer declared = .ok parameter) : parameter.StringSound := by
  unfold compileParameter at h
  split at h
  · next validator hb =>
    cases h
    intro ha text
    exact hs map pointer declared validator hsub ha hb text
  · cases h

theorem compileProperties_sound (hs : AcceptsStrings js) {all : List (Text × Json)}
    (ha : lookup "properties".toList map = some (.object all)) :
    ∀ {declared : List (Text × Json)} {properties : List (Text × Parameter)}, declared ⊆ all →
      compileProperties env js map declared = .ok properties →
      properties.map Prod.fst = declared.map Prod.fst ∧
        ∀ entry ∈ properties, validParameterName entry.1 = true ∧ entry.2.StringSound
  | [], properties, _, h => by
    cases h
    simp
  | (name, schema) :: declared, properties, hsub, h => by
    obtain ⟨_, hn, h⟩ := bind_eq_ok.mp h
    obtain ⟨parameter, hp, h⟩ := bind_eq_ok.mp h
    obtain ⟨rest, hr, h⟩ := bind_eq_ok.mp h
    cases h
    obtain ⟨hk, hso⟩ := compileProperties_sound hs ha
      (fun entry he => hsub (mem_cons_of_mem _ he)) hr
    refine ⟨by simp [hk], fun entry he => ?_⟩
    rcases mem_cons.mp he with rfl | hm
    · exact ⟨checkParameterName_eq_ok.mp hn,
        compileParameter_sound hs (.property ha (hsub mem_cons_self)) hp⟩
    · exact hso entry hm

theorem spellParameters_names {root : Json} {definitions : List (Text × Json)}
    {required : List Text} :
    ∀ {declared : List (Text × Json)} {spelled : List StrictParameter},
      spellParameters env translators root definitions required declared = .ok spelled →
      spelled.map StrictParameter.name = declared.map Prod.fst
  | [], spelled, h => by
    cases h
    rfl
  | (name, schema) :: declared, spelled, h => by
    rw [spellParameters] at h
    obtain ⟨value, _, h⟩ := bind_eq_ok.mp h
    obtain ⟨rest, hr, h⟩ := bind_eq_ok.mp h
    cases h
    simp [spellParameters_names hr]

theorem classify_names {strict : StrictTool}
    (h : classify env translators (.object map) = .ok strict) :
    ∃ declared, declaredProperties map = .ok declared ∧
      strict.parameters.map StrictParameter.name = declared.map Prod.fst := by
  obtain ⟨_, _, h⟩ := bind_eq_ok.mp h
  obtain ⟨_, _, h⟩ := bind_eq_ok.mp h
  obtain ⟨declared, hd, h⟩ := bind_eq_ok.mp h
  obtain ⟨_, _, h⟩ := bind_eq_ok.mp h
  obtain ⟨required, _, h⟩ := bind_eq_ok.mp h
  obtain ⟨_, _, h⟩ := bind_eq_ok.mp h
  obtain ⟨_, _, h⟩ := bind_eq_ok.mp h
  obtain ⟨spelled, hs, h⟩ := bind_eq_ok.mp h
  cases h
  exact ⟨declared, hd, spellParameters_names hs⟩

theorem compileParameters_sound (hs : AcceptsStrings js) {schema : Option ArgumentSchema}
    (h : compileParameters env js (.object map) = .ok schema) :
    ∃ arguments properties additional, schema = some ⟨arguments, properties, additional⟩ ∧
      (∀ declared, lookup "properties".toList map = some (.object declared) →
        properties.map Prod.fst = declared.map Prod.fst) ∧
      (∀ entry ∈ properties, validParameterName entry.1 = true ∧ entry.2.StringSound) ∧
      ∀ parameter, additional = some parameter → parameter.StringSound := by
  rw [compileParameters] at h
  obtain ⟨_, _, h⟩ := bind_eq_ok.mp h
  obtain ⟨arguments, _, h⟩ := bind_eq_ok.mp h
  obtain ⟨_, _, h⟩ := bind_eq_ok.mp h
  obtain ⟨properties, hp, h⟩ := bind_eq_ok.mp h
  obtain ⟨additional, ha, h⟩ := bind_eq_ok.mp h
  cases h
  refine ⟨arguments, properties, additional, rfl, ?_, ?_, ?_⟩
  · intro declared hd
    simp only [compileDeclared, hd] at hp
    exact (compileProperties_sound hs hd (List.Subset.refl _) hp).1
  · unfold compileDeclared at hp
    split at hp
    · next declared hd =>
      exact (compileProperties_sound hs hd (List.Subset.refl _) hp).2
    · cases hp
      simp
  · rintro parameter rfl
    unfold compileAdditional at ha
    split at ha
    · next map' hsch =>
      cases hc : compileParameter js map "/additionalProperties".toList (.object map') with
      | error =>
        rw [hc] at ha
        cases ha
      | ok =>
        rw [hc] at ha
        cases ha
        exact compileParameter_sound hs (.additional hsch) hc
    · cases ha

theorem compileParameters_some (hs : AcceptsStrings js) {parameters : Json}
    {schema : ArgumentSchema} (h : compileParameters env js parameters = .ok (some schema)) :
    (∀ entry ∈ schema.properties, validParameterName entry.1 = true ∧ entry.2.StringSound) ∧
      ∀ parameter, schema.additional = some parameter → parameter.StringSound := by
  cases parameters with
  | object =>
    obtain ⟨_, _, _, hsch, _, hp, ha⟩ := compileParameters_sound hs h
    cases hsch
    exact ⟨hp, ha⟩
  | _ => cases h

theorem compileTool_compiled (hstrs : AcceptsStrings js) {names : List Text}
    {definition : ToolDefinition} (h : compileTool env js translators names definition = .ok tool) :
    tool.Compiled ∧ tool.definition = definition ∧ definition.name ∉ names := by
  obtain ⟨_, hna, h⟩ := bind_eq_ok.mp h
  obtain ⟨_, hnew, h⟩ := bind_eq_ok.mp h
  obtain ⟨schema, hsch, h⟩ := bind_eq_ok.mp h
  cases h
  rw [mapError_eq_ok] at hsch
  have hn : definition.name ∉ names := by simpa using ensure_eq_ok.mp hnew
  refine ⟨⟨checkToolName_eq_ok.mp hna, ?_, ?_, ?_⟩, rfl, hn⟩
  · -- a classified tool spells the properties whose names were checked
    intro strict hstrict parameter hpar
    have hc : classify env translators definition.parameters = .ok strict := by
      by_cases hs : definition.strict = true
      · simpa [hs] using hstrict
      · simp [hs] at hstrict
    cases hp : definition.parameters with
    | null =>
      rw [hp] at hc
      cases hc
      cases hpar
    | object =>
      rw [hp] at hc hsch
      obtain ⟨declared, hd, hsp⟩ := classify_names hc
      obtain ⟨_, properties, _, _, hk, hv, _⟩ := compileParameters_sound hstrs hsch
      unfold declaredProperties at hd
      have hm : parameter.name ∈ declared.map Prod.fst := by
        rw [← hsp]
        exact mem_map_of_mem hpar
      split at hd
      · cases hd
        cases hm
      · next hl =>
        cases hd
        rw [← hk _ hl] at hm
        obtain ⟨entry, hent, heq⟩ := mem_map.mp hm
        rw [← heq]
        exact (hv entry hent).1
      · cases hd
    | _ =>
      rw [hp] at hc
      cases hc
  · intro compiled hco
    have hso : schema = some compiled := hco
    subst hso
    exact (compileParameters_some hstrs hsch).1
  · intro compiled hco
    have hso : schema = some compiled := hco
    subst hso
    exact (compileParameters_some hstrs hsch).2

theorem compileTools_compiled (hs : AcceptsStrings js) :
    ∀ {definitions : List ToolDefinition} {names : List Text} {tools : List Tool},
      compileTools env js translators names definitions = .ok tools →
      (∀ tool ∈ tools, tool.Compiled ∧ tool.definition.name ∉ names) ∧
        (tools.map fun tool => tool.definition.name).Nodup
  | [], names, tools, h => by
    cases h
    simp
  | definition :: definitions, names, tools, h => by
    rw [compileTools] at h
    obtain ⟨tool, ht, h⟩ := bind_eq_ok.mp h
    obtain ⟨rest, hr, h⟩ := bind_eq_ok.mp h
    cases h
    obtain ⟨hc, hd, hnew⟩ := compileTool_compiled hs ht
    obtain ⟨ha, hdi⟩ := compileTools_compiled hs hr
    constructor
    · intro other ho
      rcases mem_cons.mp ho with rfl | hm
      · exact ⟨hc, by rw [hd]; exact hnew⟩
      · obtain ⟨ho, hn⟩ := ha other hm
        exact ⟨ho, fun hin => hn (mem_cons_of_mem _ hin)⟩
    · rw [map_cons, nodup_cons]
      refine ⟨fun hin => ?_, hdi⟩
      obtain ⟨other, hm, heq⟩ := mem_map.mp hin
      apply (ha other hm).2
      rw [heq, hd]
      exact mem_cons_self

theorem ToolSet.new_compiled (hs : AcceptsStrings js) {definitions : List ToolDefinition}
    (h : ToolSet.new env js translators definitions = .ok tools) :
    tools.Compiled := by
  obtain ⟨compiled, hc, h⟩ := bind_eq_ok.mp h
  cases h
  obtain ⟨ha, hd⟩ := compileTools_compiled hs hc
  exact ⟨fun tool ht => (ha tool ht).1, hd⟩

theorem ToolSet.new_source {definitions : List ToolDefinition}
    (h : ToolSet.new env js translators definitions = .ok tools) :
    ∀ tool ∈ tools.tools, tool.definition ∈ definitions ∧
      compileParameters env js tool.definition.parameters = .ok tool.schema ∧
      tool.strict = if tool.definition.strict then
        some (classify env translators tool.definition.parameters) else none := by
  have ha : ∀ {definitions : List ToolDefinition} {names : List Text} {compiled : List Tool},
      compileTools env js translators names definitions = .ok compiled →
      ∀ tool ∈ compiled, tool.definition ∈ definitions ∧
        compileParameters env js tool.definition.parameters = .ok tool.schema ∧
        tool.strict = if tool.definition.strict then
          some (classify env translators tool.definition.parameters) else none := by
    intro definitions
    induction definitions with
    | nil =>
      intro names compiled h
      cases h
      simp
    | cons definition definitions ih =>
      intro names compiled h
      rw [compileTools] at h
      obtain ⟨first, hf, h⟩ := bind_eq_ok.mp h
      obtain ⟨rest, hr, h⟩ := bind_eq_ok.mp h
      cases h
      intro tool ht
      rcases mem_cons.mp ht with rfl | hm
      · unfold compileTool at hf
        obtain ⟨_, _, hf⟩ := bind_eq_ok.mp hf
        obtain ⟨_, _, hf⟩ := bind_eq_ok.mp hf
        obtain ⟨schema, hsch, hf⟩ := bind_eq_ok.mp hf
        cases hf
        exact ⟨mem_cons_self, mapError_eq_ok.mp hsch, rfl⟩
      · obtain ⟨hin, hs⟩ := ih hr tool hm
        exact ⟨mem_cons_of_mem _ hin, hs⟩
  obtain ⟨compiled, hc, h⟩ := bind_eq_ok.mp h
  cases h
  exact ha hc

theorem ToolSet.Compiled.get_of_mem (h : tools.Compiled)
    (hm : tool ∈ tools.tools) : tools.get tool.definition.name = some tool := by
  have hd := h.distinct
  unfold ToolSet.get
  generalize tools.tools = all at hm hd ⊢
  induction all with
  | nil => cases hm
  | cons other rest ih =>
    rw [map_cons, nodup_cons] at hd
    rw [find?_cons]
    rcases mem_cons.mp hm with rfl | hin
    · simp
    · have hne : other.definition.name ≠ tool.definition.name := by
        intro heq
        apply hd.1
        rw [heq]
        exact mem_map_of_mem hin
      rw [beq_false_of_ne hne]
      exact ih hin hd.2

end Accepted

theorem ToolSet.get_eq_some
    (h : tools.get name = some tool) : tool ∈ tools.tools ∧ tool.definition.name = name := by
  refine ⟨mem_of_find?_eq_some h, ?_⟩
  have := find?_some h
  simpa using this

end LocalAi.Tools
