import LocalAi.Tools.Json
import Mathlib.Data.Nat.Digits.Defs

/-!
# Numbers in words

English number words in the forms of `num2words`: cardinal, ordinal, year and decimal.

* `cardinal_eq`: its equation, as the source writes it.
* `ordinalStr`, `yearStr`: what is made of the words of a cardinal.
* `floatStr`: the decimals, through a float and its `{:?}`.
-/

namespace LocalAi.Speech

/-! ### The tables -/

def ones : List Text :=
  ["zero".toList, "one".toList, "two".toList, "three".toList, "four".toList, "five".toList,
    "six".toList, "seven".toList, "eight".toList, "nine".toList, "ten".toList, "eleven".toList,
    "twelve".toList, "thirteen".toList, "fourteen".toList, "fifteen".toList, "sixteen".toList,
    "seventeen".toList, "eighteen".toList, "nineteen".toList]

def tens : List Text :=
  ["".toList, "".toList, "twenty".toList, "thirty".toList, "forty".toList, "fifty".toList,
    "sixty".toList, "seventy".toList, "eighty".toList, "ninety".toList]

def scales : List (Nat × Text) :=
  [(1000000000000000000, "quintillion".toList), (1000000000000000, "quadrillion".toList),
    (1000000000000, "trillion".toList), (1000000000, "billion".toList),
    (1000000, "million".toList), (1000, "thousand".toList)]

/-- `ONES[n]`. -/
def one (n : Nat) : Text := ones.getD n []

/-- `TENS[n]`. -/
def ten (n : Nat) : Text := tens.getD n []

/-! ### Cardinals -/

def belowHundred (rest : Nat) : Text :=
  if rest < 20 then one rest
  else if rest % 10 = 0 then ten (rest / 10)
  else ten (rest / 10) ++ '-' :: one (rest % 10)

def belowThousand (n : Nat) : Text :=
  if n / 100 = 0 then belowHundred (n % 100)
  else if n % 100 = 0 then one (n / 100) ++ " hundred".toList
  else one (n / 100) ++ " hundred and ".toList ++ belowHundred (n % 100)

/-- The parts of the scales, and what is left of the number below them. -/
def scaleParts (spell : Nat → Text) : List (Nat × Text) → Nat → List Text × Nat
  | [], rest => ([], rest)
  | (scale, name) :: scales, rest =>
    if scale ≤ rest then
      let (parts, last) := scaleParts spell scales (rest % scale)
      ((spell (rest / scale) ++ ' ' :: name) :: parts, last)
    else scaleParts spell scales rest

def lastPart (rest : Nat) : List Text :=
  if rest = 0 then []
  else if rest < 100 then ["and ".toList ++ belowThousand rest]
  else [belowThousand rest]

/-- The words of a number, the multiples of its scales spelled by `spell`. -/
def spelled (spell : Nat → Text) (n : Nat) : Text :=
  if n < 1000 then belowThousand n
  else
    let (parts, rest) := scaleParts spell scales n
    [' '].intercalate (parts ++ lastPart rest)

/-- `cardinal` of a `u64`: the multiples of its scales are below a thousand, so it calls itself one
level deep. -/
def cardinal (n : Nat) : Text := spelled belowThousand n

/-- Scales that come down from a bound, each at least a thousandth of the one above it. -/
def Descends : Nat → List (Nat × Text) → Prop
  | bound, [] => bound ≤ 1000
  | bound, (scale, _) :: scales => scale < bound ∧ bound ≤ 1000 * scale ∧ Descends scale scales

theorem scales_descend : Descends (2 ^ 64) scales := by
  simp only [Descends, scales]
  decide

theorem scaleParts_congr {f g : Nat → Text} (hs : ∀ m < 1000, f m = g m) :
    ∀ {scales : List (Nat × Text)} {bound n : Nat}, Descends bound scales → n < bound →
      scaleParts f scales n = scaleParts g scales n := by
  intro scales
  induction scales with
  | nil => exact fun _ _ => rfl
  | cons item scales ih =>
    intro bound n h hn
    obtain ⟨hlt, hbd, hr⟩ := h
    have hp : 0 < item.1 := by omega
    rw [scaleParts, scaleParts, hs _ (Nat.div_lt_of_lt_mul (by rw [mul_comm]; omega)),
      ih hr (Nat.mod_lt n hp)]
    split_ifs with hle
    · rfl
    · exact ih hr (not_le.mp hle)

theorem cardinal_eq {n : Nat} (h : n < 2 ^ 64) : cardinal n = spelled cardinal n := by
  have hs : ∀ m < 1000, belowThousand m = cardinal m := fun m hm => (if_pos hm).symm
  rw [cardinal, spelled, spelled, scaleParts_congr hs scales_descend h]

/-- `str::parse::<u64>`. -/
def parseU64 (text : Text) : Option Nat :=
  let digits := if text.head? = some '+' then text.tail else text
  if digits ≠ [] ∧ digits.all Char.isDigit ∧ Nat.ofDigitChars 10 digits 0 < 2 ^ 64 then
    some (Nat.ofDigitChars 10 digits 0)
  else none

def digitWords (text : Text) : Text :=
  [' '].intercalate ((text.filter Char.isDigit).map fun c => one (c.toNat - '0'.toNat))

def cardinalStr (digits : Text) : Text :=
  match parseU64 digits with
  | some n => cardinal n
  | none => digitWords digits

/-! ### Ordinals, years and decimals -/

def isBreak (c : Char) : Bool := c = ' ' || c = '-'

def ordinalWord (last : Text) : Text :=
  if last = "one".toList then "first".toList
  else if last = "two".toList then "second".toList
  else if last = "three".toList then "third".toList
  else if last = "five".toList then "fifth".toList
  else if last = "eight".toList then "eighth".toList
  else if last = "nine".toList then "ninth".toList
  else if last = "twelve".toList then "twelfth".toList
  else if last.getLast? = some 'y' then last.dropLast ++ "ieth".toList
  else last ++ "th".toList

def ordinalStr (digits : Text) : Text :=
  let words := cardinalStr digits
  words.rdropWhile (fun c => !isBreak c) ++ ordinalWord (words.rtakeWhile fun c => !isBreak c)

def lowWords (low : Nat) : Text :=
  if low = 0 then "hundred".toList
  else if low < 10 then "oh-".toList ++ cardinal low
  else cardinal low

def yearStr (digits : Text) : Text :=
  match parseU64 digits with
  | none => cardinalStr digits
  | some value =>
    let high := value / 100
    let low := value % 100
    if high = 0 ∨ (high % 10 = 0 ∧ low < 10) ∨ 100 ≤ high then cardinal value
    else cardinal high ++ ' ' :: lowWords low

/-- `f64`, its `parse` and its `{:?}`. -/
structure Float64 (F : Type) where
  parse : Text → Option F
  debug : F → Text

def Float64.floatStr {F : Type} (float : Float64 F) (text : Text) : Text :=
  match float.parse text with
  | none => cardinalStr text
  | some value =>
    let repr := float.debug value
    let (int, frac) := (Lib.splitOnce ['.'] repr).getD (repr, ['0'])
    cardinalStr (int.dropWhile (· = '-')) ++ " point ".toList ++ digitWords frac

end LocalAi.Speech
