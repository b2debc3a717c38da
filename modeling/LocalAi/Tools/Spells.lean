import LocalAi.Tools.Json

/-!
# JSON texts

The grammar of JSON: which texts are documents, and of which value.

* `Spells`: the grammar, with the whitespace a document may have between its tokens.
* `toText_spells`: what `serde_json` prints is a document of the value.
* `scan`: brackets outside strings, counted.
* `scan_spells`: a document closes every bracket it opens.
-/

open List

namespace LocalAi

/-! ### The grammar -/

def isBlank (c : Char) : Bool := c == ' ' || c == '\n' || c == '\r' || c == '\t'

def Blank (text : Text) : Prop := ∀ c ∈ text, isBlank c = true

def hexValue (c : Char) : Option Nat :=
  if '0' ≤ c ∧ c ≤ '9' then some (c.toNat - 48)
  else if 'a' ≤ c ∧ c ≤ 'f' then some (c.toNat - 87)
  else if 'A' ≤ c ∧ c ≤ 'F' then some (c.toNat - 55)
  else none

/-- The UTF-16 unit of four hexadecimal digits. -/
def codeUnit (a b c d : Char) : Option Nat := do
  return (((← hexValue a) * 16 + (← hexValue b)) * 16 + (← hexValue c)) * 16 + (← hexValue d)

/-- What a character stands for behind a backslash. -/
def shortEscape (c : Char) : Option Char :=
  if c = '"' then some '"'
  else if c = '\\' then some '\\'
  else if c = '/' then some '/'
  else if c = 'b' then some (Char.ofNat 8)
  else if c = 'f' then some (Char.ofNat 12)
  else if c = 'n' then some '\n'
  else if c = 'r' then some '\r'
  else if c = 't' then some '\t'
  else none

inductive Interior : Text → Text → Prop
  | nil : Interior [] []
  | plain {c : Char} {value text : Text} (control : 32 ≤ c.toNat) (quote : c ≠ '"')
      (backslash : c ≠ '\\') (rest : Interior value text) : Interior (c :: value) (c :: text)
  | short {e c : Char} {value text : Text} (escape : shortEscape e = some c)
      (rest : Interior value text) : Interior (c :: value) ('\\' :: e :: text)
  | unit {a b c d : Char} {n : Nat} {value text : Text} (hex : codeUnit a b c d = some n)
      (single : n < 0xD800 ∨ 0xDFFF < n) (rest : Interior value text) :
      Interior (Char.ofNat n :: value) ('\\' :: 'u' :: a :: b :: c :: d :: text)
  | pair {a b c d a' b' c' d' : Char} {high low : Nat} {value text : Text}
      (first : codeUnit a b c d = some high) (second : codeUnit a' b' c' d' = some low)
      (highRange : 0xD800 ≤ high ∧ high ≤ 0xDBFF) (lowRange : 0xDC00 ≤ low ∧ low ≤ 0xDFFF)
      (rest : Interior value text) :
      Interior (Char.ofNat (0x10000 + (high - 0xD800) * 1024 + (low - 0xDC00)) :: value)
        ('\\' :: 'u' :: a :: b :: c :: d :: '\\' :: 'u' :: a' :: b' :: c' :: d' :: text)

def isDigit (c : Char) : Bool := '0' ≤ c && c ≤ '9'

def isDigits (text : Text) : Bool := !text.isEmpty && text.all isDigit

def dropSign : Text → Text
  | '+' :: text => text
  | '-' :: text => text
  | text => text

/-- The exponent of a number, if there is one. -/
def isExponent : Text → Bool
  | [] => true
  | e :: text => (e == 'e' || e == 'E') && isDigits (dropSign text)

/-- What may follow the integer of a number. -/
def isFraction : Text → Bool
  | '.' :: text => isDigits (text.takeWhile isDigit) && isExponent (text.dropWhile isDigit)
  | text => isExponent text

def isUnsigned (text : Text) : Bool :=
  let integer := text.takeWhile isDigit
  isDigits integer && (integer == ['0'] || integer.head? != some '0') &&
    isFraction (text.dropWhile isDigit)

def isNumber : Text → Bool
  | '-' :: text => isUnsigned text
  | text => isUnsigned text

inductive Form
  | value (value : Json)
  | padded (value : Json)
  | items (items : List Json)
  | member (key : Text) (value : Json)
  | members (members : List (Text × Json))

inductive Spells : Form → Text → Prop
  | null : Spells (.value .null) "null".toList
  | true : Spells (.value (.bool true)) "true".toList
  | false : Spells (.value (.bool false)) "false".toList
  | number {text : Text} (number : isNumber text = true) : Spells (.value (.number text)) text
  | string {value text : Text} (interior : Interior value text) :
      Spells (.value (.string value)) ('"' :: text ++ ['"'])
  | array {items : List Json} {text : Text} (rest : Spells (.items items) text) :
      Spells (.value (.array items)) ('[' :: text ++ [']'])
  | object {members : List (Text × Json)} {text : Text} (rest : Spells (.members members) text) :
      Spells (.value (.object members)) ('\x7b' :: text ++ ['\x7d'])
  | padded {value : Json} {front text back : Text} (before : Blank front)
      (rest : Spells (.value value) text) (after : Blank back) :
      Spells (.padded value) (front ++ text ++ back)
  | noItems {text : Text} (blank : Blank text) : Spells (.items []) text
  | lastItem {item : Json} {text : Text} (rest : Spells (.padded item) text) :
      Spells (.items [item]) text
  | nextItem {item next : Json} {items : List Json} {front back : Text}
      (first : Spells (.padded item) front) (rest : Spells (.items (next :: items)) back) :
      Spells (.items (item :: next :: items)) (front ++ ',' :: back)
  | member {key : Text} {value : Json} {before interior after text : Text}
      (front : Blank before) (name : Interior key interior) (back : Blank after)
      (rest : Spells (.padded value) text) :
      Spells (.member key value) (before ++ ('"' :: interior ++ ['"']) ++ after ++ ':' :: text)
  | noMembers {text : Text} (blank : Blank text) : Spells (.members []) text
  | lastMember {key : Text} {value : Json} {text : Text} (rest : Spells (.member key value) text) :
      Spells (.members [(key, value)]) text
  | nextMember {key : Text} {value : Json} {next : Text × Json} {members : List (Text × Json)}
      {front back : Text} (first : Spells (.member key value) front)
      (rest : Spells (.members (next :: members)) back) :
      Spells (.members ((key, value) :: next :: members)) (front ++ ',' :: back)

def IsDocument (value : Json) (text : Text) : Prop := Spells (.padded value) text

theorem blank_nil : Blank [] := by
  intro c hc
  simp at hc

variable {text : Text}

variable {value : Json} {c : Char}

theorem Spells.tight (h : Spells (.value value) text) : Spells (.padded value) text := by
  have hp := Spells.padded blank_nil h blank_nil
  rwa [nil_append, append_nil] at hp

/-- A member as `serde_json` prints it. -/
theorem Spells.tightMember {key interior : Text} (hk : Interior key interior)
    (h : Spells (.padded value) text) :
    Spells (.member key value) ('"' :: interior ++ ['"'] ++ ':' :: text) := by
  have hm := Spells.member blank_nil hk blank_nil h
  rwa [nil_append, append_nil] at hm

/-! ### Printed values -/

theorem interior_append {value value' text' : Text} (h : Interior value text)
    (h' : Interior value' text') : Interior (value ++ value') (text ++ text') := by
  induction h with
  | nil => exact h'
  | plain control quote backslash _ ih => exact .plain control quote backslash ih
  | short escape _ ih => exact .short escape ih
  | unit hex single _ ih => exact .unit hex single ih
  | pair first second highRange lowRange _ ih => exact .pair first second highRange lowRange ih

theorem hexValue_hexDigit : ∀ n < 16, hexValue (hexDigit n) = some n := by
  decide

theorem interior_escapeChar (c : Char) : Interior [c] (escapeChar c) := by
  have hs : ∀ e, shortEscape e = some c → Interior [c] ['\\', e] :=
    fun e he => .short he .nil
  unfold escapeChar
  split
  · next h => exact hs _ (by rw [h]; rfl)
  split
  · next h => exact hs _ (by rw [h]; rfl)
  split
  · next h => exact hs _ (by rw [h]; rfl)
  split
  · next h => exact hs _ (by rw [h]; rfl)
  split
  · next h => exact hs _ (by rw [h]; rfl)
  split
  · next h => exact hs _ (by rw [← Char.ofNat_toNat c, h]; rfl)
  split
  · next h => exact hs _ (by rw [← Char.ofNat_toNat c, h]; rfl)
  split
  · next hc =>
    have hu : codeUnit '0' '0' (hexDigit (c.toNat / 16)) (hexDigit (c.toNat % 16)) =
        some c.toNat := by
      have hz : hexValue '0' = some 0 := rfl
      simp only [codeUnit, hz, hexValue_hexDigit _ (show c.toNat / 16 < 16 by omega),
        hexValue_hexDigit _ (show c.toNat % 16 < 16 by omega), Option.bind_eq_bind,
        Option.bind_some, Option.pure_def]
      congr 1
      omega
    have hi := Interior.unit hu (.inl (by omega)) .nil
    rwa [Char.ofNat_toNat] at hi
  · next hq hb _ _ _ _ _ hc =>
    exact .plain (Nat.le_of_not_lt hc) hq hb .nil

theorem interior_escape (text : Text) : Interior text (escape text) := by
  induction text with
  | nil => exact .nil
  | cons c text ih => exact interior_append (interior_escapeChar c) ih

theorem Spells.consMember {key : Text} {next : Text × Json}
    {members : List (Text × Json)} {rest : Text} (hv : Spells (.padded value) text)
    (hr : Spells (.members (next :: members)) rest) :
    Spells (.members ((key, value) :: next :: members)) (quote key ++ ':' :: text ++ ',' :: rest) :=
  .nextMember (.tightMember (interior_escape key) hv) hr

mutual

/-- Every number in the value is one of JSON; `serde_json` holds no others. -/
def Json.printable : Json → Bool
  | .number text => isNumber text
  | .array items => itemsPrintable items
  | .object members => membersPrintable members
  | _ => true

def itemsPrintable : List Json → Bool
  | [] => true
  | item :: items => item.printable && itemsPrintable items

def membersPrintable : List (Text × Json) → Bool
  | [] => true
  | (_, value) :: members => value.printable && membersPrintable members

end

mutual

theorem toText_spells : ∀ (value : Json), value.printable = true →
    Spells (.value value) value.toText
  | .null, _ => .null
  | .bool true, _ => .true
  | .bool false, _ => .false
  | .number _, h => .number h
  | .string text, _ => .string (interior_escape text)
  | .array items, h => .array (itemsText_spells items h)
  | .object members, h => .object (membersText_spells members h)

theorem itemsText_spells : ∀ (items : List Json), itemsPrintable items = true →
    Spells (.items items) (itemsText items)
  | [], _ => .noItems blank_nil
  | [item], h => by
    rw [itemsPrintable, Bool.and_eq_true] at h
    exact .lastItem (toText_spells item h.1).tight
  | item :: next :: items, h => by
    rw [itemsPrintable, Bool.and_eq_true] at h
    exact .nextItem (toText_spells item h.1).tight (itemsText_spells (next :: items) h.2)

theorem membersText_spells : ∀ (members : List (Text × Json)), membersPrintable members = true →
    Spells (.members members) (membersText members)
  | [], _ => .noMembers blank_nil
  | [(key, value)], h => by
    rw [membersPrintable, Bool.and_eq_true] at h
    exact .lastMember (.tightMember (interior_escape key) (toText_spells value h.1).tight)
  | (key, value) :: next :: members, h => by
    rw [membersPrintable, Bool.and_eq_true] at h
    have hf := Spells.tightMember (interior_escape key) (toText_spells value h.1).tight
    have ha := Spells.nextMember hf (membersText_spells (next :: members) h.2)
    rw [membersText]
    simpa [quote] using ha

end

/-! ### Brackets -/

inductive Mode
  | outside
  | string
  | escaped
deriving DecidableEq

/-- The brackets that are open and where the scan is. -/
structure Scan where
  depth : Nat
  mode : Mode
deriving DecidableEq

def Scan.step (s : Scan) (c : Char) : Scan :=
  match s.mode with
  | .outside =>
    if c = '"' then ⟨s.depth, .string⟩
    else if c = '[' ∨ c = '\x7b' then ⟨s.depth + 1, .outside⟩
    else if c = ']' ∨ c = '\x7d' then ⟨s.depth - 1, .outside⟩
    else s
  | .string =>
    if c = '"' then ⟨s.depth, .outside⟩
    else if c = '\\' then ⟨s.depth, .escaped⟩
    else s
  | .escaped => ⟨s.depth, .string⟩

def scan (s : Scan) (text : Text) : Scan := text.foldl Scan.step s

@[simp] theorem scan_nil (s : Scan) : scan s [] = s := rfl

@[simp] theorem scan_cons (s : Scan) (c : Char) (text : Text) :
    scan s (c :: text) = scan (s.step c) text := rfl

@[simp] theorem scan_append (s : Scan) (a b : Text) : scan s (a ++ b) = scan (scan s a) b :=
  foldl_append

/-- Characters that are neither brackets nor quotes. -/
def isNeutral (c : Char) : Bool :=
  !(c == '"' || c == '[' || c == ']' || c == '\x7b' || c == '\x7d')

theorem scan_neutral (h : ∀ c ∈ text, isNeutral c = true) (d : Nat) :
    scan ⟨d, .outside⟩ text = ⟨d, .outside⟩ := by
  induction text with
  | nil => rfl
  | cons c text ih =>
    have hc := h c (mem_cons_self ..)
    have hs : Scan.step ⟨d, .outside⟩ c = ⟨d, .outside⟩ := by
      simp [isNeutral] at hc
      simp [Scan.step, hc]
    rw [scan_cons, hs]
    exact ih fun c' hc' => h c' (mem_cons_of_mem _ hc')

theorem isNeutral_of_isBlank (h : isBlank c = true) : isNeutral c = true := by
  simp only [isBlank, Bool.or_eq_true, beq_iff_eq] at h
  rcases h with ((rfl | rfl) | rfl) | rfl <;> decide

theorem scan_blank (h : Blank text) (d : Nat) : scan ⟨d, .outside⟩ text = ⟨d, .outside⟩ :=
  scan_neutral (fun c hc => isNeutral_of_isBlank (h c hc)) d

theorem isNeutral_of_isDigit (h : isDigit c = true) : isNeutral c = true := by
  have hne : ∀ b : Char, isDigit b = false → c ≠ b := by
    rintro b hb rfl
    rw [hb] at h
    cases h
  simp [isNeutral, hne '"' (by decide), hne '[' (by decide), hne ']' (by decide),
    hne '\x7b' (by decide), hne '\x7d' (by decide)]

theorem neutral_isDigits (h : isDigits text = true) : ∀ c ∈ text, isNeutral c = true := by
  rw [isDigits, Bool.and_eq_true, all_eq_true] at h
  exact fun c hc => isNeutral_of_isDigit (h.2 c hc)

theorem neutral_isExponent (h : isExponent text = true) : ∀ c ∈ text, isNeutral c = true := by
  cases text with
  | nil => simp
  | cons =>
    rw [isExponent, Bool.and_eq_true, Bool.or_eq_true, beq_iff_eq, beq_iff_eq] at h
    obtain ⟨he, hd⟩ := h
    rw [forall_mem_cons]
    refine ⟨by rcases he with rfl | rfl <;> decide, ?_⟩
    unfold dropSign at hd
    split at hd
    · exact forall_mem_cons.mpr ⟨by decide, neutral_isDigits hd⟩
    · exact forall_mem_cons.mpr ⟨by decide, neutral_isDigits hd⟩
    · exact neutral_isDigits hd

theorem neutral_span (hf : isDigits (text.takeWhile isDigit) = true)
    (hb : ∀ c ∈ text.dropWhile isDigit, isNeutral c = true) : ∀ c ∈ text, isNeutral c = true := by
  intro c hc
  rw [← takeWhile_append_dropWhile (p := isDigit) (l := text), mem_append] at hc
  exact hc.elim (neutral_isDigits hf c) (hb c)

theorem neutral_isFraction (h : isFraction text = true) : ∀ c ∈ text, isNeutral c = true := by
  unfold isFraction at h
  split at h
  · rw [Bool.and_eq_true] at h
    exact forall_mem_cons.mpr ⟨by decide, neutral_span h.1 (neutral_isExponent h.2)⟩
  · exact neutral_isExponent h

theorem neutral_isNumber (h : isNumber text = true) : ∀ c ∈ text, isNeutral c = true := by
  have hu : ∀ text, isUnsigned text = true → ∀ c ∈ text, isNeutral c = true := by
    intro text ht
    simp only [isUnsigned, Bool.and_eq_true] at ht
    exact neutral_span ht.1.1 (neutral_isFraction ht.2)
  unfold isNumber at h
  split at h
  · exact forall_mem_cons.mpr ⟨by decide, hu _ h⟩
  · exact hu _ h

theorem step_string (hq : c ≠ '"') (hb : c ≠ '\\') (d : Nat) :
    Scan.step ⟨d, .string⟩ c = ⟨d, .string⟩ := by
  simp [Scan.step, hq, hb]

theorem step_hex (h : (hexValue c).isSome = true) (d : Nat) :
    Scan.step ⟨d, .string⟩ c = ⟨d, .string⟩ := by
  refine step_string ?_ ?_ d
  · rintro rfl
    cases h
  · rintro rfl
    cases h

theorem codeUnit_hex {a b e : Char} {n : Nat} (h : codeUnit a b c e = some n) :
    (hexValue a).isSome ∧ (hexValue b).isSome ∧ (hexValue c).isSome ∧ (hexValue e).isSome := by
  unfold codeUnit at h
  cases ha : hexValue a <;> cases hb : hexValue b <;> cases hc : hexValue c <;>
    cases he : hexValue e <;> simp_all

theorem scan_codeUnit {a b e : Char} {n : Nat} (h : codeUnit a b c e = some n) (d : Nat) :
    scan ⟨d, .string⟩ ['\\', 'u', a, b, c, e] = ⟨d, .string⟩ := by
  have hs := codeUnit_hex h
  have ho : Scan.step (Scan.step ⟨d, .string⟩ '\\') 'u' = ⟨d, .string⟩ := rfl
  simp only [scan_cons, scan_nil, ho, step_hex hs.1, step_hex hs.2.1,
    step_hex hs.2.2.1, step_hex hs.2.2.2]

theorem scan_interior {value : Text} (h : Interior value text) (d : Nat) :
    scan ⟨d, .string⟩ text = ⟨d, .string⟩ := by
  induction h with
  | nil => rfl
  | plain _ quote backslash _ ih => rw [scan_cons, step_string quote backslash, ih]
  | short escape _ ih => exact ih
  | @unit a b c e n value text hex _ _ ih =>
    have ha := scan_append ⟨d, .string⟩ ['\\', 'u', a, b, c, e] text
    rw [scan_codeUnit hex, ih] at ha
    exact ha
  | @pair a b c e a' b' c' e' high low value text first second _ _ _ ih =>
    have hl := scan_append ⟨d, .string⟩ ['\\', 'u', a', b', c', e'] text
    rw [scan_codeUnit second, ih] at hl
    have hh := scan_append ⟨d, .string⟩ ['\\', 'u', a, b, c, e]
      (['\\', 'u', a', b', c', e'] ++ text)
    rw [scan_codeUnit first, hl] at hh
    exact hh

theorem scan_quoted {value : Text} (h : Interior value text) (d : Nat) :
    scan ⟨d, .outside⟩ ('"' :: text ++ ['"']) = ⟨d, .outside⟩ := by
  have ho : Scan.step ⟨d, .outside⟩ '"' = ⟨d, .string⟩ := rfl
  rw [cons_append, scan_cons, ho, scan_append, scan_interior h]
  rfl

theorem scan_spells {form : Form} (h : Spells form text) (d : Nat) :
    scan ⟨d, .outside⟩ text = ⟨d, .outside⟩ := by
  have hc : ∀ d, Scan.step ⟨d, .outside⟩ ',' = ⟨d, .outside⟩ := fun _ => rfl
  induction h generalizing d with
  | null => rfl
  | true => rfl
  | false => rfl
  | number number => exact scan_neutral (neutral_isNumber number) d
  | string interior => exact scan_quoted interior d
  | array _ ih =>
    have ho : Scan.step ⟨d, .outside⟩ '[' = ⟨d + 1, .outside⟩ := rfl
    rw [cons_append, scan_cons, ho, scan_append, ih]
    rfl
  | object _ ih =>
    have ho : Scan.step ⟨d, .outside⟩ '\x7b' = ⟨d + 1, .outside⟩ := rfl
    rw [cons_append, scan_cons, ho, scan_append, ih]
    rfl
  | padded before _ after ih => rw [scan_append, scan_append, scan_blank before, ih, scan_blank after]
  | noItems blank => exact scan_blank blank d
  | lastItem _ ih => exact ih d
  | nextItem _ _ ihfirst ihrest => rw [scan_append, ihfirst, scan_cons, hc, ihrest]
  | member front name back _ ih =>
    have hco : Scan.step ⟨d, .outside⟩ ':' = ⟨d, .outside⟩ := rfl
    rw [scan_append, scan_append, scan_append, scan_blank front, scan_quoted name, scan_blank back,
      scan_cons, hco, ih]
  | noMembers blank => exact scan_blank blank d
  | lastMember _ ih => exact ih d
  | nextMember _ _ ihfirst ihrest => rw [scan_append, ihfirst, scan_cons, hc, ihrest]

theorem IsDocument.ne_nil (h : IsDocument value text) : text ≠ [] := by
  obtain ⟨front, body, back, hb, rfl⟩ : ∃ front body back, Spells (.value value) body ∧
      text = front ++ body ++ back := by
    cases h with
    | padded _ rest => exact ⟨_, _, _, rest, rfl⟩
  have hne : body ≠ [] := by
    cases hb with
    | number number =>
      rintro rfl
      cases number
    | _ => simp
  simp [hne]

end LocalAi
