import LocalAi.Lib.Search
import Mathlib.Algebra.GroupWithZero.Nat

/-!
# Text, JSON values and the events of an answer

A text is its list of characters; offsets of the source count UTF-8 bytes
(`utf8Len`).  A JSON value keeps the order its object members were written in
(the build enables `serde_json/preserve_order`), and a number keeps the text
`serde_json` prints for it.

* `Json.toText`: the compact serialization (`Value::to_string`).
* `escape_append`: strings are escaped character by character, so a longer
  string prints a longer text.
* `Event`: what a generation streams to its consumer.
-/

namespace LocalAi

/-- A string of the source, by characters. -/
abbrev Text := List Char

instance : LawfulBEq Text := inferInstance

instance (p : Char → Prop) [DecidablePred p] (text : Text) : Decidable (∀ c ∈ text, p c) :=
  List.decidableBAll p text

/-- The length of a text in UTF-8 bytes (`str::len`). -/
def utf8Len (text : Text) : Nat := (text.map Char.utf8Size).sum

@[simp] theorem utf8Len_nil : utf8Len [] = 0 := rfl

@[simp] theorem utf8Len_cons (c : Char) (text : Text) :
    utf8Len (c :: text) = c.utf8Size + utf8Len text := by
  simp [utf8Len]

@[simp] theorem utf8Len_append (a b : Text) : utf8Len (a ++ b) = utf8Len a + utf8Len b := by
  simp [utf8Len]

/-- `char::is_whitespace`: the Unicode property `White_Space`. -/
def isWhitespace (c : Char) : Bool :=
  let n := c.toNat
  (9 ≤ n && n ≤ 13) || n == 32 || n == 0x85 || n == 0xA0 || n == 0x1680 ||
    (0x2000 ≤ n && n ≤ 0x200A) || n == 0x2028 || n == 0x2029 || n == 0x202F || n == 0x205F ||
    n == 0x3000

/-- `char::is_control`: the Unicode category `Cc`. -/
def isControl (c : Char) : Bool := c.toNat < 32 || (127 ≤ c.toNat && c.toNat < 160)

def trimStart (text : Text) : Text := text.dropWhile isWhitespace

def trimEnd (text : Text) : Text := text.rdropWhile isWhitespace

def trim (text : Text) : Text := trimEnd (trimStart text)

/-- `str::strip_prefix`. -/
def stripPrefix (front text : Text) : Option Text :=
  if front.isPrefixOf text then some (text.drop front.length) else none

/-- `str::strip_suffix`. -/
def stripSuffix (back text : Text) : Option Text :=
  if back.isSuffixOf text then some (text.take (text.length - back.length)) else none

theorem stripPrefix_eq_some {front text rest : Text} :
    stripPrefix front text = some rest ↔ text = front ++ rest := by
  unfold stripPrefix
  constructor
  · intro h
    split at h
    · next hp =>
      cases h
      exact (List.prefix_iff_eq_append.mp (List.isPrefixOf_iff_prefix.mp hp)).symm
    · cases h
  · rintro rfl
    rw [if_pos (List.isPrefixOf_iff_prefix.mpr (List.prefix_append _ _))]
    simp

theorem stripSuffix_eq_some {back text rest : Text} :
    stripSuffix back text = some rest ↔ text = rest ++ back := by
  unfold stripSuffix
  constructor
  · intro h
    split at h
    · next hs =>
      obtain ⟨front, rfl⟩ := List.isSuffixOf_iff_suffix.mp hs
      cases h
      simp
    · cases h
  · rintro rfl
    rw [if_pos (List.isSuffixOf_iff_suffix.mpr (List.suffix_append _ _))]
    simp

/-! ### JSON -/

inductive Json where
  | null
  | bool (value : Bool)
  | number (text : Text)
  | string (text : Text)
  | array (items : List Json)
  | object (members : List (Text × Json))

def hexDigit (n : Nat) : Char := "0123456789abcdef".toList.getD n '0'

/-- One character of a string as `serde_json` escapes it. -/
def escapeChar (c : Char) : Text :=
  if c = '"' then ['\\', '"']
  else if c = '\\' then ['\\', '\\']
  else if c = '\n' then ['\\', 'n']
  else if c = '\r' then ['\\', 'r']
  else if c = '\t' then ['\\', 't']
  else if c.toNat = 8 then ['\\', 'b']
  else if c.toNat = 12 then ['\\', 'f']
  else if c.toNat < 32 then
    ['\\', 'u', '0', '0', hexDigit (c.toNat / 16), hexDigit (c.toNat % 16)]
  else [c]

def escape (text : Text) : Text := text.flatMap escapeChar

@[simp] theorem escape_append (a b : Text) : escape (a ++ b) = escape a ++ escape b := by
  simp [escape]

theorem escapeChar_ne_nil (c : Char) : escapeChar c ≠ [] := by
  unfold escapeChar
  repeat' split
  all_goals simp

theorem escape_eq_nil {text : Text} (h : escape text = []) : text = [] := by
  cases text with
  | nil => rfl
  | cons c =>
    rw [escape, List.flatMap_cons] at h
    exact absurd (List.append_eq_nil_iff.mp h).1 (escapeChar_ne_nil c)

/-- A JSON string literal (`Value::from(text).to_string()`). -/
def quote (text : Text) : Text := '"' :: escape text ++ ['"']

mutual

def Json.toText : Json → Text
  | .null => "null".toList
  | .bool true => "true".toList
  | .bool false => "false".toList
  | .number text => text
  | .string text => quote text
  | .array items => '[' :: itemsText items ++ [']']
  | .object members => '\x7b' :: membersText members ++ ['\x7d']

/-- The items of an array, separated by commas. -/
def itemsText : List Json → Text
  | [] => []
  | [item] => item.toText
  | item :: next :: items => item.toText ++ ',' :: itemsText (next :: items)

/-- The members of an object, separated by commas. -/
def membersText : List (Text × Json) → Text
  | [] => []
  | [(key, value)] => quote key ++ ':' :: value.toText
  | (key, value) :: next :: members =>
    quote key ++ ':' :: value.toText ++ ',' :: membersText (next :: members)

end

/-- The member `key` of an object (`Map::get`). -/
def lookup (key : Text) (members : List (Text × Json)) : Option Json :=
  (members.find? fun member => member.1 == key).map Prod.snd

/-! ### Events -/

/-- The number the process-wide counter gives a call; its printed form (a
per-process prefix and the number) is never read back. -/
abbrev CallId := Nat

/-- A complete call the model requested. -/
structure ToolCall where
  id : CallId
  name : Text
  arguments : Json

/-- Part of a call's arguments, reported while the call is generated. -/
structure ToolCallDelta where
  id : CallId
  name : Text
  arguments : Text
  text : Option (Text × Text)

/-- The stream items a generation itself produces; `L` is a token's
log-probability record. -/
inductive Event (L : Type) where
  | content (text : Text)
  | reasoning (text : Text)
  | toolCallDelta (delta : ToolCallDelta)
  | toolCall (call : ToolCall)
  | logprobs (tokens : List L)

end LocalAi
