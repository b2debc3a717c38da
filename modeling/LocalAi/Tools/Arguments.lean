import Mathlib.Data.List.Nodup
import Mathlib.Data.List.Perm.Subperm
import LocalAi.Tools.Derived

/-!
# Derived arguments satisfy their schema

A strict tool's arguments are checked against its whole schema when its call is
read back.  What the grammar admits passes that check, given what JSON Schema, the
regular expressions and the JSON reader document (`Documented`).

* `StringValid`, `RootAccepts`: JSON Schema for raw strings and for closed objects,
  in the keywords `classify` lets through.
* `rawConstraints_sound`: text that matches the translated constraints is valid.
* `classifyParameter_sound`: so is every value of a parameter's terminal.
-/

open List

namespace LocalAi.Tools

open LocalAi.Lib

/-! ### What is documented -/

structure StringValid (ecma : Text → Text → Prop) (map : List (Text × Json)) (text : Text) :
    Prop where
  type : ∀ kind, lookup "type".toList map = some kind → kind = .string "string".toList ∨
    ∃ kinds, kind = .array kinds ∧ .string "string".toList ∈ kinds
  enum : ∀ values, lookup "enum".toList map = some values →
    ∃ items, values = .array items ∧ .string text ∈ items
  const : ∀ value, lookup "const".toList map = some value → value = .string text
  pattern : ∀ value, lookup "pattern".toList map = some value →
    ∃ pattern, value = .string pattern ∧ ecma pattern text
  minimum : ∀ bound, lookup "minLength".toList map = some bound →
    ∃ n, bound.asU64 = some n ∧ n ≤ text.length
  maximum : ∀ bound, lookup "maxLength".toList map = some bound →
    ∃ n, bound.asU64 = some n ∧ text.length ≤ n

structure RootAccepts (engine : Engine) (root members : List (Text × Json)) : Prop where
  distinct : (members.map Prod.fst).Nodup
  type : ∀ kind, lookup "type".toList root = some kind → kind = .string "object".toList
  properties : ∀ properties, lookup "properties".toList root = some properties →
    ∃ declared, properties = .object declared ∧ ∀ name schema value, lookup name declared = some schema →
      lookup name members = some value → engine.valid (.object root) schema value
  required : ∀ names, lookup "required".toList root = some names →
    ∃ items, names = .array items ∧ ∀ item ∈ items, ∃ name, item = .string name ∧
      (lookup name members).isSome
  additional : ∀ name ∈ members.map Prod.fst,
    ∃ declared, lookup "properties".toList root = some (.object declared) ∧
      (lookup name declared).isSome
  minimum : ∀ bound, lookup "minProperties".toList root = some bound →
    ∃ n, bound.asU64 = some n ∧ n ≤ members.length
  maximum : ∀ bound, lookup "maxProperties".toList root = some bound →
    ∃ n, bound.asU64 = some n ∧ members.length ≤ n

/-- The root keywords `classify` lets through. -/
def rootKeywords : List Text :=
  ["type", "properties", "required", "$defs", "definitions", "minProperties", "maxProperties",
    "additionalProperties", "$schema"].map String.toList ++ annotations

/-- What the JSON reader, the validator and the regular expressions document. -/
structure Documented (env : Env) (js : Jsonschema) (translators : Translators) (engine : Engine)
    (ecma : Text → Text → Prop) : Prop where
  reads : ∀ text value, engine.value text = some value → value.depth ≤ 100 →
    env.fromStr text = .ok value
  /-- A string type without assertions accepts every string. -/
  accepts : AcceptsStrings js
  objects : ∀ root members validator, js.build (.object root) = .ok validator →
    (∀ key ∈ root.map Prod.fst, key ∈ rootKeywords) → RootAccepts engine root members →
    validator (.object members) = none
  strings : ∀ document map text,
    (∀ key ∈ map.map Prod.fst, key ∈ rawKeywords ∨ key ∈ annotations) →
    StringValid ecma map text → engine.valid document (.object map) (.string text)
  refers : ∀ document map reference pointer target value,
    lookup "$ref".toList map = some reference →
    (∀ key ∈ map.map Prod.fst, key = "$ref".toList ∨ key ∈ annotations) →
    localPointer reference = some pointer → document.pointer pointer = some target →
    engine.valid document target value → engine.valid document (.object map) value
  /-- A value that a JSON subgrammar's schema allows is valid for the parameter the
  schema was lifted from. -/
  lifts : ∀ root map spelled value, jsonSchema env (.object map)
      (root.filter fun member => member.1 == "$defs".toList || member.1 == "definitions".toList)
        = .ok spelled →
    engine.valid (guided spelled) (guided spelled) value →
    engine.valid (.object root) (.object map) value
  literals : ∀ (strings : List Text) text, strings ≠ [] → engine.expression
    ("(?:".toList ++ List.intercalate ['|'] (strings.map regexLiteral) ++ [')']) text →
    text ∈ strings
  lengths : ∀ minimum (maximum : Option Nat) text, engine.expression
    ("(?s:.\x7b".toList ++ decimal minimum ++ [','] ++ (maximum.map decimal).getD [] ++
      "\x7d)".toList) text →
    minimum ≤ text.length ∧ ∀ n, maximum = some n → text.length ≤ n
  patterns : ∀ pattern regex text, translators.searchPattern pattern = .ok regex →
    engine.expression regex text → ecma pattern text

variable {env : Env} {js : Jsonschema} {translators : Translators} {engine : Engine}
  {ecma : Text → Text → Prop}

/-! ### Raw strings -/

theorem mem_of_mapM_asStr {kinds : List Json} {names : List Text}
    (h : kinds.mapM Json.asStr = some names) {name : Text} (hn : name ∈ names) :
    .string name ∈ kinds := by
  induction kinds generalizing names with
  | nil =>
    cases h
    cases hn
  | cons kind kinds ih =>
    rw [mapM_cons] at h
    obtain ⟨first, hf, h⟩ := Option.bind_eq_some_iff.mp h
    obtain ⟨rest, hr, h⟩ := Option.bind_eq_some_iff.mp h
    cases h
    rcases mem_cons.mp hn with rfl | hm
    · cases kind with
      | string =>
        cases hf
        exact mem_cons_self
      | _ => cases hf
    · exact mem_cons_of_mem _ (ih hr hm)

variable {map members : List (Text × Json)} {text key : Text} {value : Json}

theorem declaredTypes_raw {types : Option (List Text)}
    {values : Option (List Json)} (ht : declaredTypes map = .ok types)
    (hr : isRaw types values = .ok true) :
    ∀ kind, lookup "type".toList map = some kind → kind = .string "string".toList ∨
      ∃ kinds, kind = .array kinds ∧ .string "string".toList ∈ kinds := by
  intro kind hk
  -- a declared type is a list of names
  have hs : ∀ names, types = some names → "string".toList ∈ names := by
    rintro names rfl
    unfold isRaw at hr
    dsimp only at hr
    split at hr
    · next hin => simpa using hin
    · cases hr
  unfold declaredTypes at ht
  rw [hk] at ht
  cases kind with
  | string =>
    cases ht
    have := hs _ rfl
    rw [mem_singleton.mp this]
    exact .inl rfl
  | array kinds =>
    dsimp only at ht
    cases hn : kinds.mapM Json.asStr with
    | none =>
      rw [hn] at ht
      cases ht
    | some =>
      rw [hn] at ht
      cases ht
      exact .inr ⟨kinds, rfl, mem_of_mapM_asStr hn (hs _ rfl)⟩
  | _ => cases ht

theorem enumConstraint_sound (hd : Documented env js translators engine ecma)
    {values : List Json} {constraint : Text} (h : enumConstraint values = .ok constraint)
    (hm : engine.expression constraint text) : .string text ∈ values := by
  unfold enumConstraint at h
  dsimp only at h
  split at h
  · cases h
  · split at h
    · cases h
    · split at h
      · cases h
      · next hs _ =>
        cases h
        have hmem := hd.literals _ _ (by simpa using hs) hm
        obtain ⟨value, hv, hstr⟩ := mem_filterMap.mp hmem
        cases value with
        | string =>
          cases hstr
          exact hv
        | _ => cases hstr

theorem lengthBound_eq_ok {bound : Option Nat} (h : lengthBound env map key = .ok bound) :
    ∀ value, lookup key map = some value → ∃ n, value.asU64 = some n ∧ bound = some n := by
  intro value hv
  unfold lengthBound at h
  rw [hv] at h
  obtain ⟨n, hn, h⟩ := bind_eq_ok.mp h
  split at h
  · cases h
  · cases h
    exact ⟨n, elim_eq_ok.mp hn, rfl⟩

theorem lengthConstraints_sound (hd : Documented env js translators engine ecma)
    {minimum maximum : Option Nat} {lengths : List Text}
    (h : lengthConstraints minimum maximum = .ok lengths)
    (hm : ∀ constraint ∈ lengths, engine.expression constraint text) (n : Nat) :
    (minimum = some n → n ≤ text.length) ∧ (maximum = some n → text.length ≤ n) := by
  unfold lengthConstraints at h
  split at h
  · next hno =>
    simp only [Bool.and_eq_true, Option.isNone_iff_eq_none] at hno
    rw [hno.1, hno.2]
    constructor
    · intro hn
      cases hn
    · intro hn
      cases hn
  · split at h
    · cases h
    · cases h
      obtain ⟨hmin, hmax⟩ := hd.lengths _ _ _ (hm _ mem_cons_self)
      constructor
      · rintro rfl
        exact hmin
      · exact hmax n

theorem rawConstraints_sound (hd : Documented env js translators engine ecma)
    {types : Option (List Text)} {values : Option (List Json)}
    {constraints : List Text} (ht : declaredTypes map = .ok types)
    (hv : declaredValues map = .ok values) (hr : isRaw types values = .ok true)
    (h : rawConstraints env translators map values = .ok constraints)
    (hmatch : ∀ constraint ∈ constraints, engine.expression constraint text) (document : Json) :
    engine.valid document (.object map) (.string text) := by
  unfold rawConstraints at h
  split at h
  · cases h
  · next hk =>
    obtain ⟨enumerated, he, h⟩ := bind_eq_ok.mp h
    obtain ⟨pattern, hp, h⟩ := bind_eq_ok.mp h
    obtain ⟨lark, hla, h⟩ := bind_eq_ok.mp h
    obtain ⟨minimum, hmin, h⟩ := bind_eq_ok.mp h
    obtain ⟨maximum, hmax, h⟩ := bind_eq_ok.mp h
    obtain ⟨lengths, hl, h⟩ := bind_eq_ok.mp h
    obtain ⟨_, _, h⟩ := bind_eq_ok.mp h
    cases h
    have hm : ∀ part ∈ [enumerated, pattern, lark, lengths],
        ∀ constraint ∈ part, engine.expression constraint text := by
      intro part hpa constraint hc
      apply hmatch
      simp only [mem_cons, not_mem_nil, or_false] at hpa
      rcases hpa with rfl | rfl | rfl | rfl <;> simp [hc]
    -- what an `enum` or a `const` says
    have henum : ∀ items, values = some items → .string text ∈ items := by
      rintro items rfl
      obtain ⟨constraint, hc, heq⟩ := bind_eq_ok.mp he
      cases heq
      exact enumConstraint_sound hd hc (hm [constraint] (by simp) constraint (by simp))
    have hb := lengthConstraints_sound hd hl (hm lengths (by simp))
    refine hd.strings document map text (fun key hkey => ?_) ⟨declaredTypes_raw ht hr, ?_,
      ?_, ?_, ?_, ?_⟩
    · have := find?_eq_none.mp hk key hkey
      simp only [Bool.and_eq_true, Bool.not_eq_true', contains_eq_mem, decide_eq_false_iff_not,
        not_and, not_not] at this
      by_cases hr : key ∈ rawKeywords
      · exact .inl hr
      · exact .inr (this hr)
    · intro value hval
      unfold declaredValues at hv
      rw [hval] at hv
      cases hco : lookup "const".toList map with
      | some =>
        rw [hco] at hv
        cases value <;> cases hv
      | none =>
        rw [hco] at hv
        cases value with
        | array items =>
          cases hv
          exact ⟨items, rfl, henum items rfl⟩
        | _ => cases hv
    · intro value hval
      unfold declaredValues at hv
      rw [hval] at hv
      cases henumValue : lookup "enum".toList map with
      | some other =>
        rw [henumValue] at hv
        cases other <;> cases hv
      | none =>
        rw [henumValue] at hv
        cases hv
        exact (mem_singleton.mp (henum _ rfl)).symm
    · intro value hval
      unfold patternConstraints at hp
      rw [hval] at hp
      obtain ⟨source, hs, hp⟩ := bind_eq_ok.mp hp
      obtain ⟨regex, hre, heq⟩ := bind_eq_ok.mp hp
      cases heq
      refine ⟨source, ?_, hd.patterns source regex text hre (hm [regex] (by simp) regex (by simp))⟩
      have hstr := elim_eq_ok.mp hs
      cases value with
      | string =>
        cases hstr
        rfl
      | _ => cases hstr
    · intro bound hbd
      obtain ⟨n, hn, heq⟩ := lengthBound_eq_ok hmin bound hbd
      exact ⟨n, hn, (hb n).1 heq⟩
    · intro bound hbd
      obtain ⟨n, hn, heq⟩ := lengthBound_eq_ok hmax bound hbd
      exact ⟨n, hn, (hb n).2 heq⟩

/-! ### Parameters -/

theorem resolve_valid (hd : Documented env js translators engine ecma) {document : Json} :
    ∀ {fuel : Nat} {schema target : Json}, resolve env document fuel schema = .ok target →
      engine.valid document target value → engine.valid document schema value := by
  intro fuel
  induction fuel with
  | zero => intro schema target h; cases h
  | succ fuel ih =>
    intro schema target h hv
    cases schema with
    | object map =>
      rw [resolve] at h
      split at h
      · cases h
        exact hv
      · next reference hr =>
        split at h
        · cases h
        · next hk =>
          obtain ⟨pointer, hp, h⟩ := bind_eq_ok.mp h
          obtain ⟨next, hn, h⟩ := bind_eq_ok.mp h
          refine hd.refers document map reference pointer next value hr
            (fun key hkey => ?_) (elim_eq_ok.mp hp) (elim_eq_ok.mp hn) (ih h hv)
          have := find?_eq_none.mp hk key hkey
          simp only [Bool.and_eq_true, Bool.not_eq_true', contains_eq_mem,
            decide_eq_false_iff_not, not_and, not_not, bne_iff_ne, ne_eq] at this
          by_cases href : key = "$ref".toList
          · exact .inl href
          · exact .inr (this href)
    | _ =>
      cases h
      exact hv

variable {root : List (Text × Json)}

theorem classifyParameter_sound (hd : Documented env js translators engine ecma)
    {schema : Json} {kind : ValueKind} (h : classifyParameter env translators (.object root) schema
      (root.filter fun member => member.1 == "$defs".toList || member.1 == "definitions".toList)
        = .ok kind) (hm : engine.Matches (valueTerminal kind) text) :
    engine.valid (.object root) schema (engine.argument (valueTerminal kind, text)) ∧
      ∀ key, strictValue env key kind text = .ok (engine.argument (valueTerminal kind, text)) := by
  obtain ⟨target, ht, h⟩ := bind_eq_ok.mp h
  cases target with
  | object map =>
    obtain ⟨types, hty, h⟩ := bind_eq_ok.mp h
    obtain ⟨values, hvals, h⟩ := bind_eq_ok.mp h
    obtain ⟨raw, hr, h⟩ := bind_eq_ok.mp h
    cases raw with
    | true =>
      obtain ⟨constraints, hc, h⟩ := bind_eq_ok.mp h
      cases h
      refine ⟨resolve_valid hd ht ?_, fun _ => rfl⟩
      exact rawConstraints_sound hd hty hvals hr hc hm.2.2 (.object root)
    | false =>
      obtain ⟨spelled, hs, h⟩ := bind_eq_ok.mp h
      cases h
      obtain ⟨_, value, hval, hv, hde⟩ := hm
      have ha : engine.argument (valueTerminal (.json spelled), text) = value := by
        simp [Engine.argument, valueTerminal, hval]
      rw [ha]
      refine ⟨resolve_valid hd ht (hd.lifts root map spelled value hs hv), fun _ => ?_⟩
      rw [strictValue, hd.reads text value hval hde]
      rfl
  | _ => cases h

/-! ### Whole arguments -/

/-- What `classify` asks of the root, and what it spells. -/
structure Classified (env : Env) (translators : Translators) (root : List (Text × Json))
    (strict : StrictTool) (declared : List (Text × Json)) (required : List Text) : Prop where
  keywords : ∀ member ∈ root, checkRootKeyword env member = .ok ()
  properties : declaredProperties root = .ok declared
  listed : declaredRequired env root declared = .ok required
  minimum : checkMinimum root required.length = .ok ()
  maximum : checkMaximum root declared.length = .ok ()
  spelled : spellParameters env translators (.object root)
    (root.filter fun member => member.1 == "$defs".toList || member.1 == "definitions".toList)
    required declared = .ok strict.parameters

theorem forM_eq_ok {α : Type} {f : α → Except Text Unit} :
    ∀ {items : List α}, items.forM f = .ok () → ∀ item ∈ items, f item = .ok ()
  | [], _, item, hi => by cases hi
  | first :: items, h, item, hi => by
    have h : (f first >>= fun _ => items.forM f) = .ok () := h
    obtain ⟨_, hf, h⟩ := bind_eq_ok.mp h
    rcases mem_cons.mp hi with rfl | hm
    · exact hf
    · exact forM_eq_ok h item hm

theorem classify_eq_ok {strict : StrictTool}
    (h : classify env translators (.object root) = .ok strict) :
    ∃ declared required, Classified env translators root strict declared required := by
  obtain ⟨_, hk, h⟩ := bind_eq_ok.mp h
  obtain ⟨_, _, h⟩ := bind_eq_ok.mp h
  obtain ⟨declared, hd, h⟩ := bind_eq_ok.mp h
  obtain ⟨_, _, h⟩ := bind_eq_ok.mp h
  obtain ⟨required, hr, h⟩ := bind_eq_ok.mp h
  obtain ⟨_, hmin, h⟩ := bind_eq_ok.mp h
  obtain ⟨_, hmax, h⟩ := bind_eq_ok.mp h
  obtain ⟨spelled, hs, h⟩ := bind_eq_ok.mp h
  cases h
  exact ⟨declared, required, forM_eq_ok hk, hd, hr, hmin, hmax, hs⟩

theorem mem_spellParameters {root : Json} {definitions : List (Text × Json)} {required : List Text} :
    ∀ {declared : List (Text × Json)} {spelled : List StrictParameter},
      spellParameters env translators root definitions required declared = .ok spelled →
      (∀ parameter ∈ spelled, parameter.required = required.contains parameter.name ∧
        ∃ schema, (parameter.name, schema) ∈ declared ∧
          classifyParameter env translators root schema definitions = .ok parameter.value)
  | [], spelled, h => by
    cases h
    simp
  | (name, schema) :: declared, spelled, h => by
    rw [spellParameters] at h
    obtain ⟨value, hv, h⟩ := bind_eq_ok.mp h
    obtain ⟨rest, hr, h⟩ := bind_eq_ok.mp h
    cases h
    intro parameter hp
    rcases mem_cons.mp hp with rfl | hm
    · exact ⟨rfl, schema, mem_cons_self, mapError_eq_ok.mp hv⟩
    · obtain ⟨hreq, schema', hin, hc⟩ := mem_spellParameters hr parameter hm
      exact ⟨hreq, schema', mem_cons_of_mem _ hin, hc⟩

variable {declared : List (Text × Json)}

theorem requiredNames_eq_ok :
    ∀ {names : List Json} {before required : List Text},
      requiredNames env declared names before = .ok required → before.Nodup →
      required.Nodup ∧ before ⊆ required ∧
        (∀ item ∈ names, ∃ name, item = .string name ∧ name ∈ required) ∧
        ∀ name ∈ required, name ∈ before ∨ (lookup name declared).isSome = true
  | [], before, required, h, hnd => by
    cases h
    exact ⟨hnd, List.Subset.refl _, by simp, fun name hn => .inl hn⟩
  | item :: names, before, required, h, hnd => by
    rw [requiredNames] at h
    obtain ⟨name, hn, h⟩ := bind_eq_ok.mp h
    split at h
    · cases h
    · next hd =>
      split at h
      · cases h
      · next hnew =>
        have hnew : name ∉ before := by simpa using hnew
        have hd : (lookup name declared).isSome = true := by
          simpa [Option.isSome_iff_ne_none] using hd
        have hnd' : (before ++ [name]).Nodup := by
          rw [nodup_append]
          refine ⟨hnd, by simp, ?_⟩
          rintro a ha b hb rfl
          rw [mem_singleton.mp hb] at ha
          exact hnew ha
        obtain ⟨hr, hsub, hi, hf⟩ := requiredNames_eq_ok h hnd'
        refine ⟨hr, fun a ha => hsub (mem_append_left _ ha), ?_, ?_⟩
        · intro other ho
          rcases mem_cons.mp ho with rfl | hm
          · have hstr := elim_eq_ok.mp hn
            cases other with
            | string =>
              cases hstr
              exact ⟨_, rfl, hsub (by simp)⟩
            | _ => cases hstr
          · exact hi other hm
        · intro other ho
          rcases hf other ho with hbef | hs
          · rcases mem_append.mp hbef with hin | hin
            · exact .inl hin
            · rw [mem_singleton.mp hin]
              exact .inr hd
          · exact .inr hs

theorem lookup_eq_some (h : lookup key members = some value) : (key, value) ∈ members := by
  obtain ⟨⟨key', value'⟩, hf, heq⟩ := Option.map_eq_some_iff.mp h
  have hk : key' = key := by simpa using find?_some hf
  cases heq
  rw [← hk]
  exact mem_of_find?_eq_some hf

theorem lookup_isSome : (lookup key members).isSome = true ↔ key ∈ members.map Prod.fst := by
  unfold lookup
  rw [Option.isSome_map, find?_isSome, mem_map]
  constructor
  · rintro ⟨member, hm, heq⟩
    exact ⟨member, hm, by simpa using heq⟩
  · rintro ⟨member, hm, heq⟩
    exact ⟨member, hm, by simpa using heq⟩

theorem lookup_of_mem (hnd : (members.map Prod.fst).Nodup) (hm : (key, value) ∈ members) :
    lookup key members = some value := by
  cases hl : lookup key members with
  | none =>
    have hin : (lookup key members).isSome = true :=
      lookup_isSome.mpr (mem_map_of_mem hm)
    rw [hl] at hin
    cases hin
  | some =>
    have ho := lookup_eq_some hl
    have := inj_on_of_nodup_map hnd ho hm rfl
    cases this
    rfl

def Engine.chosenArguments (engine : Engine) (chosen : List (StrictParameter × Text)) :
    List (Text × Json) :=
  chosen.map fun item => (item.1.name, engine.argument (valueTerminal item.1.value, item.2))

theorem chosenArguments_keys (chosen : List (StrictParameter × Text)) :
    (engine.chosenArguments chosen).map Prod.fst = (chosen.map Prod.fst).map StrictParameter.name := by
  simp [Engine.chosenArguments, Function.comp_def]

theorem declaredProperties_eq_ok (h : declaredProperties root = .ok declared) {properties : Json}
    (hl : lookup "properties".toList root = some properties) : properties = .object declared := by
  unfold declaredProperties at h
  rw [hl] at h
  cases properties <;> cases h
  rfl

theorem properties_of_declared (h : declaredProperties root = .ok declared) (hne : declared ≠ []) :
    lookup "properties".toList root = some (.object declared) := by
  cases hl : lookup "properties".toList root with
  | none =>
    unfold declaredProperties at h
    rw [hl] at h
    cases h
    exact absurd rfl hne
  | some => rw [declaredProperties_eq_ok h hl]

section Root

variable {root declared : List (Text × Json)} {strict : StrictTool} {required : List Text}
  {chosen : List (StrictParameter × Text)}

theorem Classified.chosen_valid (h : Classified env translators root strict declared required)
    (hd : Documented env js translators engine ecma)
    (hsub : (chosen.map Prod.fst).Sublist strict.parameters)
    (hva : ∀ item ∈ chosen, engine.Matches (valueTerminal item.1.value) item.2)
    {item : StrictParameter × Text} (hi : item ∈ chosen) :
    ∃ schema, (item.1.name, schema) ∈ declared ∧
      engine.valid (.object root) schema (engine.argument (valueTerminal item.1.value, item.2)) ∧
      ∀ key, strictValue env key item.1.value item.2
        = .ok (engine.argument (valueTerminal item.1.value, item.2)) := by
  have hm : item.1 ∈ strict.parameters := hsub.subset (mem_map_of_mem hi)
  obtain ⟨_, schema, hsch, hc⟩ := mem_spellParameters h.spelled item.1 hm
  obtain ⟨hv, hr⟩ := classifyParameter_sound hd hc (hva item hi)
  exact ⟨schema, hsch, hv, hr⟩

theorem Classified.chosen_nodup (h : Classified env translators root strict declared required)
    (hd : (declared.map Prod.fst).Nodup) (hs : (chosen.map Prod.fst).Sublist strict.parameters) :
    ((engine.chosenArguments chosen).map Prod.fst).Nodup := by
  rw [chosenArguments_keys]
  refine List.Nodup.sublist (hs.map StrictParameter.name) ?_
  rw [spellParameters_names h.spelled]
  exact hd

theorem Classified.required_chosen (engine : Engine)
    (h : Classified env translators root strict declared required)
    (hr : ∀ parameter ∈ strict.parameters, parameter.required = true →
      parameter ∈ chosen.map Prod.fst) :
    required.Nodup ∧ ∀ name ∈ required, name ∈ (engine.chosenArguments chosen).map Prod.fst := by
  have hl : required.Nodup ∧ ∀ name ∈ required, (lookup name declared).isSome = true := by
    have hl := h.listed
    unfold declaredRequired at hl
    split at hl
    · cases hl
      simp
    · obtain ⟨hnd, _, _, hf⟩ := requiredNames_eq_ok hl nodup_nil
      refine ⟨hnd, fun name hn => ?_⟩
      rcases hf name hn with hno | hs
      · cases hno
      · exact hs
    · cases hl
  refine ⟨hl.1, fun name hn => ?_⟩
  have hd := lookup_isSome.mp (hl.2 name hn)
  rw [← spellParameters_names h.spelled] at hd
  obtain ⟨parameter, hp, rfl⟩ := mem_map.mp hd
  have hreq : parameter.required = true := by
    rw [(mem_spellParameters h.spelled parameter hp).1]
    simpa using hn
  rw [chosenArguments_keys]
  exact mem_map_of_mem (hr parameter hp hreq)

theorem Classified.rootAccepts (h : Classified env translators root strict declared required)
    (hdoc : Documented env js translators engine ecma) (hd : (declared.map Prod.fst).Nodup)
    (hs : (chosen.map Prod.fst).Sublist strict.parameters)
    (hr : ∀ parameter ∈ strict.parameters, parameter.required = true →
      parameter ∈ chosen.map Prod.fst)
    (hv : ∀ item ∈ chosen, engine.Matches (valueTerminal item.1.value) item.2) :
    RootAccepts engine root (engine.chosenArguments chosen) := by
  have hnd : ((engine.chosenArguments chosen).map Prod.fst).Nodup := h.chosen_nodup hd hs
  obtain ⟨hreqdNodup, hch⟩ := h.required_chosen engine hr
  have hlen : (engine.chosenArguments chosen).length = chosen.length := length_map _
  refine ⟨hnd, ?_, ?_, ?_, ?_, ?_, ?_⟩
  · intro kind hk
    have hc := h.keywords _ (lookup_eq_some hk)
    unfold checkRootKeyword at hc
    dsimp only at hc
    rw [if_pos (by decide)] at hc
    split at hc
    · split at hc
      · next ho => rw [beq_iff_eq.mp ho]
      · cases hc
    · cases hc
  · intro properties hp
    refine ⟨declared, declaredProperties_eq_ok h.properties hp, ?_⟩
    intro name schema value hsch hval
    obtain ⟨item, hi, heq⟩ := mem_map.mp (lookup_eq_some hval)
    cases heq
    obtain ⟨schema', hmem, hvalid, _⟩ := h.chosen_valid hdoc hs hv hi
    have hsa := lookup_of_mem hd hmem
    rw [hsch] at hsa
    cases hsa
    exact hvalid
  · intro names hnames
    have hl := h.listed
    unfold declaredRequired at hl
    rw [hnames] at hl
    cases names with
    | array items =>
      obtain ⟨_, _, hitems, _⟩ := requiredNames_eq_ok hl nodup_nil
      refine ⟨items, rfl, fun item hi => ?_⟩
      obtain ⟨name, rfl, hname⟩ := hitems item hi
      exact ⟨name, rfl, lookup_isSome.mpr (hch name hname)⟩
    | _ => cases hl
  · intro name hname
    obtain ⟨⟨_, value⟩, hmem, rfl⟩ := mem_map.mp hname
    obtain ⟨item, hi, heq⟩ := mem_map.mp hmem
    cases heq
    obtain ⟨schema, hin, _, _⟩ := h.chosen_valid hdoc hs hv hi
    refine ⟨declared, properties_of_declared h.properties (ne_nil_of_mem hin), ?_⟩
    exact lookup_isSome.mpr (mem_map.mpr ⟨_, hin, rfl⟩)
  · intro bound hbd
    have hm := h.minimum
    unfold checkMinimum at hm
    rw [hbd] at hm
    obtain ⟨n, hn, hm⟩ := bind_eq_ok.mp hm
    refine ⟨n, elim_eq_ok.mp hn, ?_⟩
    have hle : n ≤ required.length := by simpa using ensure_eq_ok.mp hm
    have hcnt := (subperm_of_subset hreqdNodup hch).length_le
    rw [length_map] at hcnt
    omega
  · intro bound hbd
    have hmax := h.maximum
    unfold checkMaximum at hmax
    rw [hbd] at hmax
    obtain ⟨n, hn, hmax⟩ := bind_eq_ok.mp hmax
    refine ⟨n, elim_eq_ok.mp hn, ?_⟩
    have hle : declared.length ≤ n := by simpa using ensure_eq_ok.mp hmax
    have hcnt := hs.length_le
    have hde := congrArg length (spellParameters_names h.spelled)
    rw [length_map] at hcnt
    simp only [length_map] at hde
    omega

end Root

/-- `classify` lets only the root keywords through. -/
theorem checkRootKeyword_mem {member : Text × Json} (h : checkRootKeyword env member = .ok ()) :
    member.1 ∈ rootKeywords := by
  obtain ⟨key, value⟩ := member
  show key ∈ rootKeywords
  unfold checkRootKeyword at h
  dsimp only at h
  by_cases ht : key = "type".toList
  · rw [ht]
    decide
  · rw [if_neg (by simpa using ht)] at h
    split at h
    · next hany =>
      obtain ⟨keyword, hk, heq⟩ := any_eq_true.mp hany
      rw [← beq_iff_eq.mp heq]
      refine mem_append_left _ (mem_map_of_mem ?_)
      revert hk
      simp only [mem_cons, not_mem_nil, or_false]
      rintro (rfl | rfl | rfl | rfl | rfl | rfl) <;> simp
    · split at h
      · next hadd =>
        rw [beq_iff_eq.mp hadd]
        decide
      · split at h
        · next hs =>
          rw [beq_iff_eq.mp hs]
          decide
        · split at h
          · next ha =>
            exact mem_append_right _ (by simpa using ha)
          · cases h

/-- A JSON object keeps one value for each key (`serde_json::Map`): the declared
properties of a definition have distinct names. -/
def ToolDefinition.Distinct (definition : ToolDefinition) : Prop :=
  ∀ root declared, definition.parameters = .object root →
    lookup "properties".toList root = some (.object declared) → (declared.map Prod.fst).Nodup

/-- **Derived arguments pass the check of the whole schema**, and each value reads
back. -/
theorem validateArguments_derived (hd : Documented env js translators engine ecma) {tool : Tool}
    (hs : compileParameters env js tool.definition.parameters = .ok tool.schema)
    (hst : tool.strict = if tool.definition.strict then
      some (classify env translators tool.definition.parameters) else none)
    (hdi : tool.definition.Distinct) {strict : StrictTool}
    {chosen : List (StrictParameter × Text)} {tools : ToolSet} {call : List Leaf}
    (hca : CallLeaves engine tools tool strict chosen call) :
    validateArguments env tool (engine.chosenArguments chosen) = .ok () ∧
      (strict.parameters.map StrictParameter.name).Nodup ∧
      ∀ item ∈ chosen, ∀ key, strictValue env key item.1.value item.2
        = .ok (engine.argument (valueTerminal item.1.value, item.2)) := by
  have hcls : classify env translators tool.definition.parameters = .ok strict := by
    have hl := hca.layout
    rw [hst] at hl
    split at hl
    · exact Option.some.inj hl
    · cases hl
  cases hp : tool.definition.parameters with
  | null =>
    rw [hp] at hcls hs
    cases hcls
    have hnil : chosen = [] := by
      have := sublist_nil.mp hca.declared
      simpa using this
    subst hnil
    cases ht : tool.schema with
    | none => simp [validateArguments, ht, Engine.chosenArguments]
    | some =>
      rw [ht] at hs
      cases hs
  | object root =>
    rw [hp] at hcls hs
    obtain ⟨declared, required, hc⟩ := classify_eq_ok hcls
    have hnd : (declared.map Prod.fst).Nodup := by
      by_cases hne : declared = []
      · rw [hne]
        exact nodup_nil
      · exact hdi root declared hp (properties_of_declared hc.properties hne)
    refine ⟨?_, ?_, fun item hi => ?_⟩
    · obtain ⟨_, _, hs⟩ := bind_eq_ok.mp hs
      obtain ⟨validator, hv, hs⟩ := bind_eq_ok.mp hs
      obtain ⟨_, _, hs⟩ := bind_eq_ok.mp hs
      obtain ⟨properties, _, hs⟩ := bind_eq_ok.mp hs
      obtain ⟨additional, _, hs⟩ := bind_eq_ok.mp hs
      have hso : tool.schema = some ⟨validator, properties, additional⟩ := by
        exact (Except.ok.inj hs).symm
      have ha := hd.objects root (engine.chosenArguments chosen) validator
        (mapError_eq_ok.mp hv) (fun key hk => by
          obtain ⟨member, hm, rfl⟩ := mem_map.mp hk
          exact checkRootKeyword_mem (hc.keywords member hm))
        (hc.rootAccepts hd hnd hca.declared hca.required hca.values)
      simp [validateArguments, hso, ha]
    · rw [spellParameters_names hc.spelled]
      exact hnd
    · obtain ⟨_, _, _, hr⟩ := hc.chosen_valid hd hca.declared hca.values hi
      exact hr
  | _ =>
    rw [hp] at hcls
    cases hcls

end LocalAi.Tools
