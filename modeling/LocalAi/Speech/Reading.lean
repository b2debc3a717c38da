import LocalAi.Speech.Numbers

/-!
# How number words are read

English number words denote numbers: tens and ones add, `hundred` multiplies what is read of a
group, and a scale word ends the group; the scales come down.

* `words`: the words of a text, less every "and".
* `readOrdinal`: an ordinal, by the cardinal of its last word.
* `readYear`: a year, as a cardinal or in two pairs.
-/

open List

namespace LocalAi.Speech

def words (text : Text) : List Text :=
  (text.splitOnP isBreak).filter fun word => word ≠ [] ∧ word ≠ "and".toList

/-! ### Cardinals -/

/-- What has been read: the scales behind, the group below a thousand, what may be added to the
group less than, and the least scale so far. -/
structure Reading where
  total : Nat
  group : Nat
  room : Nat
  scale : Nat

def fresh (total scale : Nat) : Reading := ⟨total, 0, 100, scale⟩

/-- The ones and tens, and what may be added to them less than. -/
def smallValue (word : Text) : Option (Nat × Nat) :=
  match ones.idxOf? word with
  | some d => if 0 < d then some (d, 0) else none
  | none => (tens.idxOf? word).bind fun t => if 2 ≤ t then some (10 * t, 10) else none

def scaleValue (word : Text) : Option Nat :=
  (scales.find? fun item => item.2 = word).map Prod.fst

def Reading.step (s : Reading) (word : Text) : Option Reading :=
  if word = "hundred".toList then
    if 0 < s.group ∧ s.group < 100 then some { s with group := s.group * 100, room := 100 }
    else none
  else match scaleValue word with
    | some scale =>
      if 0 < s.group ∧ scale < s.scale then some (fresh (s.total + s.group * scale) scale) else none
    | none => (smallValue word).bind fun small =>
      if small.1 < s.room then some { s with group := s.group + small.1, room := small.2 } else none

def read (words : List Text) : Option Nat :=
  if words = ["zero".toList] then some 0
  else if words = [] then none
  else (words.foldlM Reading.step (fresh 0 (10 ^ 21))).map fun s => s.total + s.group

/-! ### Ordinals -/

def ordinals : List (Text × Text) :=
  [("zeroth".toList, "zero".toList), ("first".toList, "one".toList),
    ("second".toList, "two".toList), ("third".toList, "three".toList),
    ("fourth".toList, "four".toList), ("fifth".toList, "five".toList),
    ("sixth".toList, "six".toList), ("seventh".toList, "seven".toList),
    ("eighth".toList, "eight".toList), ("ninth".toList, "nine".toList),
    ("tenth".toList, "ten".toList), ("eleventh".toList, "eleven".toList),
    ("twelfth".toList, "twelve".toList), ("thirteenth".toList, "thirteen".toList),
    ("fourteenth".toList, "fourteen".toList), ("fifteenth".toList, "fifteen".toList),
    ("sixteenth".toList, "sixteen".toList), ("seventeenth".toList, "seventeen".toList),
    ("eighteenth".toList, "eighteen".toList), ("nineteenth".toList, "nineteen".toList),
    ("twentieth".toList, "twenty".toList), ("thirtieth".toList, "thirty".toList),
    ("fortieth".toList, "forty".toList), ("fiftieth".toList, "fifty".toList),
    ("sixtieth".toList, "sixty".toList), ("seventieth".toList, "seventy".toList),
    ("eightieth".toList, "eighty".toList), ("ninetieth".toList, "ninety".toList),
    ("hundredth".toList, "hundred".toList), ("thousandth".toList, "thousand".toList),
    ("millionth".toList, "million".toList), ("billionth".toList, "billion".toList),
    ("trillionth".toList, "trillion".toList), ("quadrillionth".toList, "quadrillion".toList),
    ("quintillionth".toList, "quintillion".toList)]

/-- The number `n` that words say the `n`-th of. -/
def readOrdinal (words : List Text) : Option Nat := do
  let last ← words.getLast?
  let cardinal ← ordinals.lookup last
  read (words.dropLast ++ [cardinal])

/-! ### Years -/

def readSmall : List Text → Option (Nat × List Text)
  | [] => none
  | word :: rest => (smallValue word).map fun small =>
    match rest with
    | [] => (small.1, [])
    | next :: others =>
      match smallValue next with
      | some more =>
        if more.1 < small.2 then (small.1 + more.1, others) else (small.1, rest)
      | none => (small.1, rest)

/-- The second pair of a year: "oh" and a digit, or two digits. -/
def readLow : List Text → Option Nat
  | [] => none
  | word :: rest =>
    if word = "oh".toList then (read rest).filter fun low => low < 10
    else (read (word :: rest)).filter fun low => 10 ≤ low ∧ low < 100

def readPairs (words : List Text) : Option Nat := do
  let (high, rest) ← readSmall words
  let low ← readLow rest
  some (100 * high + low)

def readYear (words : List Text) : Option Nat := (read words).or (readPairs words)

example : read (words "two million three hundred thousand and five".toList) = some 2300005 := by
  decide

/-! ### The words of a text -/

theorem words_append {c : Char} (hc : isBreak c = true) (x y : Text) :
    words (x ++ c :: y) = words x ++ words y := by
  rw [words, splitOnP_append_cons x y hc, filter_append]
  rfl

theorem words_intercalate : ∀ parts : List Text,
    words ([' '].intercalate parts) = parts.flatMap words := by
  intro parts
  induction parts with
  | nil => decide
  | cons part parts ih =>
    cases parts with
    | nil => simp
    | cons =>
      rw [intercalate_cons_cons, append_assoc, singleton_append,
        words_append (by decide), ih, ← flatMap_cons]

end LocalAi.Speech
