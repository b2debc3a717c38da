import LocalAi.Transcription.Tokens
import Mathlib.Algebra.Order.Field.Rat

/-!
# Words and the times they are aligned to

The tokens of a window's text are aligned to its frames by dynamic time warping, along the
cheapest monotonic path through a matrix of costs.

* `costMatrix`: the costs, from the attention of the text's tokens to the frames.
* `dtw`: the path, walked backwards along a trace of the costs.
* `splitToWordTokens`: the words of a text, with their tokens.
* `findAlignment`: the words with the times at which the path reaches their tokens.

A cost is an element of a linear order, infinite, or not a number, which is `none`; `narrow` adds an
entry of the matrix to a cost, rounding as the program does.  The entries are computed in a field,
with the functions `exp` and `sqrt` given; the tokens' probabilities are given.
-/

namespace LocalAi.Transcription

/-! ### Costs -/

section

variable {K : Type} [Field K] [LinearOrder K] (exp sqrt : K → K)

def softmax (frames : Nat) (row : Nat → K) (frame : Nat) : K :=
  let max := ((List.range frames).map row).max?.getD 0
  exp (row frame - max) / ((List.range frames).map fun other => exp (row other - max)).sum

/-- A quotient of floats whose dividend is zero wherever the divisor is. -/
def quotient (a b : K) : Option K := if b = 0 then none else some (a / b)

def normalize (tokens : Nat) (head : Nat → Nat → K) (frame token : Nat) : Option K :=
  let mean := ((List.range tokens).map (head · frame)).sum / tokens
  let var := ((List.range tokens).map fun other => (head other frame - mean) ^ 2).sum / tokens
  quotient (head token frame - mean) (sqrt var)

/-- `f64::total_cmp`, in which what is not a number comes last. -/
def totalLe : Option K → Option K → Bool
  | _, none => true
  | none, some _ => false
  | some a, some b => decide (a ≤ b)

def medfiltWidth : Nat := 7

/-- `median_filter` along a row, which is reflected at its ends. -/
def medianFilter (cols width : Nat) (row : Nat → Option K) (c : Nat) : Option K :=
  let pad := width / 2
  if cols ≤ pad then row c
  else
    let padded := fun i => row
      (if i < pad then pad - i else if cols ≤ i - pad then 2 * (cols - 1) - (i - pad) else i - pad)
    (((List.range width).map fun k => padded (c + k)).mergeSort totalLe).getD pad none

/-- The costs of the tokens from `<|notimestamps|>`, the fourth, to the last of the text: the mean
over the heads, negated.  `weights` is the attention of a head's tokens to the frames. -/
def costMatrix (heads frames : Nat) (textTokens : List Nat) (weights : Nat → Nat → Nat → K)
    (i j : Nat) : Option K :=
  let tokens := textTokens.length + 5
  let filtered := fun head token => medianFilter frames medfiltWidth fun frame =>
    normalize sqrt tokens (fun other => softmax exp frames (weights head other)) frame token
  let sum := (List.range heads).foldlM (fun sum head => (filtered head (3 + i) j).map (sum + ·)) 0
  (sum.bind (quotient · (heads : K))).map (- ·)

end

/-! ### Dynamic time warping -/

inductive Move where
  | both
  | text
  | time
  deriving DecidableEq

section

variable {X α : Type} [LinearOrder α] [Zero α] (narrow : X → α → α)

def addCost (x : Option X) (c : Option (WithTop α)) : Option (WithTop α) :=
  x.bind fun x => c.map (WithTop.map (narrow x))

/-- The comparison `<` of floats. -/
def below : Option (WithTop α) → Option (WithTop α) → Bool
  | some a, some b => decide (a < b)
  | _, _ => false

/-- The cost that a cell goes on from, and where it stands. -/
def cheapest (c₀ c₁ c₂ : Option (WithTop α)) : Option (WithTop α) × Move :=
  if below c₀ c₁ && below c₀ c₂ then (c₀, .both)
  else if below c₁ c₀ && below c₁ c₂ then (c₁, .text)
  else (c₂, .time)

def nextColumn (x : Nat → Option X) (left : Nat → Option (WithTop α)) :
    Nat → Option (WithTop α)
  | 0 => some ⊤
  | i + 1 => addCost narrow (x i) (cheapest (left i) (nextColumn x left i) (left (i + 1))).1

def cost (x : Nat → Nat → Option X) : Nat → Nat → Option (WithTop α)
  | 0 => fun i => if i = 0 then some 0 else some ⊤
  | j + 1 => nextColumn narrow (x · j) (cost x j)

/-- The trace; its borders are overwritten. -/
def trace (x : Nat → Nat → Option X) : Nat → Nat → Move
  | _, 0 => .text
  | 0, _ + 1 => .time
  | i + 1, j + 1 =>
    (cheapest (cost narrow x j i) (cost narrow x (j + 1) i) (cost narrow x j (i + 1))).2

/-- `usize::wrapping_sub(1)`. -/
def wrappingPred : Nat → Nat
  | 0 => 2 ^ 64 - 1
  | n + 1 => n

/-- One step back; `none` where an index runs below zero. -/
def stepBack : Move → Nat → Nat → Option (Nat × Nat)
  | .both, i + 1, j + 1 => some (i, j)
  | .text, i + 1, j => some (i, j)
  | .time, i, j + 1 => some (i, j)
  | _, _, _ => none

/-- The walk back to the origin, last step first; `none` where it does not end within its steps. -/
def backtrace (x : Nat → Nat → Option X) : (fuel : Nat) → Nat → Nat → Option (List (Nat × Nat))
  | 0, i, j => if i = 0 ∧ j = 0 then some [] else none
  | fuel + 1, i, j =>
    if i = 0 ∧ j = 0 then some []
    else
      (stepBack (trace narrow x i j) i j).bind fun next =>
        (backtrace x fuel next.1 next.2).map ((wrappingPred i, wrappingPred j) :: ·)

/-- The path through an `n` by `m` matrix, as text and time indices. -/
def dtw (x : Nat → Nat → Option X) (n m : Nat) : Option (List (Nat × Nat)) :=
  (backtrace narrow x (n + m) n m).map List.reverse

end

/-! ### Words -/

def decodeWithSpecials (tokenizer : WhisperTokenizer) (tokens : List Nat) : Text :=
  Workspace.fromUtf8Lossy (tokens.flatMap fun token =>
    if token = tokenizer.special.eot then Lib.utf8Bytes "<|endoftext|>".toList
    else tokenizer.tokenBytes token)

abbrev TokenGroup := Text × List Nat

/-- The next token of `splitTokensOnUnicode`: groups so far, the tokens of the open one, and where
it starts in the text. -/
def splitToken (tokenizer : WhisperTokenizer) (full : Text)
    (state : List TokenGroup × List Nat × Nat) (token : Nat) :
    List TokenGroup × List Nat × Nat :=
  let (groups, current, offset) := state
  let current := current ++ [token]
  let decoded := decodeWithSpecials tokenizer current
  let complete := match decoded.findIdx? (· = Workspace.replacementCharacter) with
    | none => true
    | some index => decide (full[offset + index]? = some Workspace.replacementCharacter)
  if complete then (groups ++ [(decoded, current)], [], offset + decoded.length)
  else (groups, current, offset)

/-- Tokens that end characters together. -/
def splitTokensOnUnicode (tokenizer : WhisperTokenizer) (tokens : List Nat) : List TokenGroup :=
  (tokens.foldl (splitToken tokenizer (decodeWithSpecials tokenizer tokens)) ([], [], 0)).1

/-- Languages whose words are not parted by spaces. -/
def noSpaceLanguages : List Text := ["zh", "ja", "th", "lo", "my", "yue"].map String.toList

def asciiPunctuation : Text :=
  "!\"#$%&'()*+,-./:;<=>?@[\\]^_\x60\x7b|\x7d~".toList

/-- One more group: a word of its own, or part of the last. -/
def joinGroup (tokenizer : WhisperTokenizer) (words : List TokenGroup) (group : TokenGroup) :
    List TokenGroup :=
  let special := decide (tokenizer.special.eot ≤ group.2.headD 0)
  let withSpace := group.1.head? == some ' '
  let punctuation := decide (trim group.1 <:+: asciiPunctuation)
  match words.getLast? with
  | none => [group]
  | some last =>
    if special || withSpace || punctuation then words ++ [group]
    else words.dropLast ++ [(last.1 ++ group.1, last.2 ++ group.2)]

def splitToWordTokens (tokenizer : WhisperTokenizer) (tokens : List Nat) (language : Text) :
    List TokenGroup :=
  let groups := splitTokensOnUnicode tokenizer tokens
  if language ∈ noSpaceLanguages then groups else groups.foldl (joinGroup tokenizer) []

/-! ### Times -/

def tokensPerSecond : ℚ := 50

structure WordTiming (P : Type) where
  word : Text
  tokens : List Nat
  start : ℚ
  stop : ℚ
  probability : P

/-- The times at which a path reaches a new text index. -/
def jumpsFrom : (text : Nat) → List (Nat × Nat) → List ℚ
  | _, [] => []
  | text, p :: path =>
    if p.1 ≠ text then (p.2 : ℚ) / tokensPerSecond :: jumpsFrom p.1 path else jumpsFrom text path

/-- The times at which a path begins, and reaches a new text index. -/
def jumpTimes : List (Nat × Nat) → List ℚ
  | [] => []
  | p :: path => (p.2 : ℚ) / tokensPerSecond :: jumpsFrom p.1 path

/-- Where the words begin among the tokens, and where the last but one ends. -/
def boundariesFrom : Nat → List TokenGroup → List Nat
  | start, [] => [start]
  | start, group :: groups => start :: boundariesFrom (start + group.2.length) groups

def timeWords {P : Type} (probability : Nat → Nat → P) (jumps : List ℚ) :
    List TokenGroup → List Nat → List (WordTiming P)
  | group :: groups, a :: b :: boundaries =>
    { word := group.1, tokens := group.2, start := jumps.getD a 0, stop := jumps.getD b 0,
      probability := probability a b } ::
      timeWords probability jumps groups (b :: boundaries)
  | _, _ => []

/-- The number of rows of the cost matrix: from `<|notimestamps|>` to the last text token. -/
def alignmentRows (textTokens : List Nat) : Nat := textTokens.length + 1

def alignmentFrames (numFrames : Nat) : Nat := numFrames / 2

/-- The words of a window, aligned by a matrix of costs; `probability` is the mean over the tokens
between two boundaries. -/
def alignWords {X α P : Type} [LinearOrder α] [Zero α] (narrow : X → α → α)
    (tokenizer : WhisperTokenizer) (language : Text) (textTokens : List Nat) (numFrames : Nat)
    (x : Nat → Nat → Option X) (probability : Nat → Nat → P) : Option (List (WordTiming P)) :=
  if textTokens = [] then some []
  else do
    let path ← dtw narrow x (alignmentRows textTokens) (alignmentFrames numFrames)
    let words := splitToWordTokens tokenizer (textTokens ++ [tokenizer.special.eot]) language
    if words.length ≤ 1 then some []
    else
      some (timeWords probability (jumpTimes path) words (boundariesFrom 0 words.dropLast))

def findAlignment {K α P : Type} [Field K] [LinearOrder K] [LinearOrder α] [Zero α]
    (narrow : K → α → α) (exp sqrt : K → K) (tokenizer : WhisperTokenizer) (language : Text)
    (textTokens : List Nat) (numFrames heads : Nat) (weights : Nat → Nat → Nat → K)
    (probability : Nat → Nat → P) : Option (List (WordTiming P)) :=
  alignWords narrow tokenizer language textTokens numFrames
    (costMatrix exp sqrt heads (alignmentFrames numFrames) textTokens weights) probability

end LocalAi.Transcription
