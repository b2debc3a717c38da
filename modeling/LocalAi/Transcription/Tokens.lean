import LocalAi.Tools.Classify
import LocalAi.Workspace.Lines
import Mathlib.Data.List.Dedup
import Mathlib.Data.List.Sort

/-!
# Whisper's tokens

Ids from end-of-text on are special, and those from `timestampBegin` on are timestamps, one for
every 20 ms of a window.

* `SpecialTokens.validate`: the ids that an artifact may name.
* `SpecialTokens.suppressed`: the special tokens that are never sampled.
-/

namespace LocalAi.Transcription

open Lib (ensure)
open Workspace (fromUtf8Lossy)

abbrev Bytes := List UInt8

def vocab : Nat := 51866

/-- The codes of Whisper's languages, in token order. -/
def languageCodes : List Text :=
  ["en", "zh", "de", "es", "ru", "ko", "fr", "ja", "pt", "tr", "pl", "ca", "nl", "ar", "sv",
    "it", "id", "hi", "fi", "vi", "he", "uk", "el", "ms", "cs", "ro", "da", "hu", "ta", "no",
    "th", "ur", "hr", "bg", "lt", "la", "mi", "ml", "cy", "sk", "te", "fa", "lv", "bn", "sr",
    "az", "sl", "kn", "et", "mk", "br", "eu", "is", "hy", "ne", "mn", "bs", "kk", "sq", "sw",
    "gl", "mr", "pa", "si", "km", "sn", "yo", "so", "af", "oc", "ka", "be", "tg", "sd", "gu",
    "am", "yi", "lo", "uz", "fo", "ht", "ps", "tk", "nn", "mt", "sa", "lb", "my", "bo", "tl",
    "mg", "as", "tt", "haw", "ln", "ha", "ba", "jw", "su", "yue"].map String.toList

/-- The ids of an artifact's special tokens. -/
structure SpecialTokens where
  sot : Nat
  eot : Nat
  sotPrev : Nat
  noTimestamps : Nat
  transcribe : Nat
  translate : Nat
  sotLm : Nat
  noSpeech : Nat
  timestampBegin : Nat
  languages : List (Text × Nat)
  suppressTokens : List Nat
  beginSuppressTokens : List Nat
  maxInitialTimestampIndex : Nat

def invalidTokens (message : Text) : Text := "speech artifact tokens: ".toList ++ message

def SpecialTokens.validate (sp : SpecialTokens) : Except Text Unit := do
  ensure (sp.languages.length = languageCodes.length)
    (invalidTokens "language count is not 100".toList)
  languageCodes.zipIdx.forM fun (code, index) =>
    ensure (sp.languages.lookup code = some (sp.sot + 1 + index))
      (invalidTokens ("language ".toList ++ code ++ " has an unexpected id".toList))
  ensure (sp.timestampBegin + 1501 = vocab ∧
      (∀ id ∈ [sp.sot, sp.eot, sp.sotPrev, sp.noTimestamps, sp.transcribe, sp.translate, sp.sotLm,
        sp.noSpeech], sp.eot ≤ id ∧ id < sp.timestampBegin) ∧
      (∀ id ∈ sp.suppressTokens, id < vocab) ∧ ∀ id ∈ sp.beginSuppressTokens, id < vocab)
    (invalidTokens "special token ids are inconsistent".toList)

/-- The ids of the large model, with no other tokens suppressed than end-of-text at first. -/
def largeTokens : SpecialTokens where
  sot := 50258
  eot := 50257
  sotPrev := 50362
  noTimestamps := 50364
  transcribe := 50360
  translate := 50359
  sotLm := 50361
  noSpeech := 50363
  timestampBegin := 50365
  languages := languageCodes.zipIdx.map fun (code, index) => (code, 50259 + index)
  suppressTokens := []
  beginSuppressTokens := [50257]
  maxInitialTimestampIndex := 50

example : largeTokens.validate = .ok () := by decide +kernel

/-- The tokens that are never sampled: non-speech symbols, and special tokens but for end-of-text
and the timestamps. -/
def SpecialTokens.suppressed (sp : SpecialTokens) : List Nat :=
  ((sp.suppressTokens ++ [sp.transcribe, sp.translate, sp.sot, sp.sotPrev, sp.sotLm,
    sp.noSpeech]).insertionSort (· ≤ ·)).dedup

def SpecialTokens.isTimestamp (sp : SpecialTokens) (t : Nat) : Bool :=
  decide (sp.timestampBegin ≤ t)

structure WhisperTokenizer where
  /-- The bytes of the tokens below end-of-text. -/
  bytes : List Bytes
  special : SpecialTokens
  bytes_length : bytes.length ≤ special.eot

/-- The bytes of a text token; none of a special one. -/
def WhisperTokenizer.tokenBytes (tokenizer : WhisperTokenizer) (id : Nat) : Bytes :=
  (tokenizer.bytes[id]?).getD []

/-- The bytes of the regular tokens among some. -/
def WhisperTokenizer.raw (tokenizer : WhisperTokenizer) (ids : List Nat) : Bytes :=
  ids.flatMap tokenizer.tokenBytes

/-- The text of the regular tokens among some. -/
def WhisperTokenizer.decode (tokenizer : WhisperTokenizer) (ids : List Nat) : Text :=
  fromUtf8Lossy (tokenizer.raw ids)

theorem WhisperTokenizer.tokenBytes_special {tokenizer : WhisperTokenizer} {id : Nat}
    (h : tokenizer.special.eot ≤ id) : tokenizer.tokenBytes id = [] := by
  rw [tokenBytes, List.getElem?_eq_none (tokenizer.bytes_length.trans h)]
  rfl

theorem WhisperTokenizer.raw_append (tokenizer : WhisperTokenizer) (a b : List Nat) :
    tokenizer.raw (a ++ b) = tokenizer.raw a ++ tokenizer.raw b := List.flatMap_append

theorem WhisperTokenizer.raw_filter (tokenizer : WhisperTokenizer) (ids : List Nat) :
    tokenizer.raw (ids.filter fun t => t < tokenizer.special.eot) = tokenizer.raw ids := by
  induction ids with
  | nil => rfl
  | cons id ids ih =>
    rw [List.filter_cons]
    by_cases h : id < tokenizer.special.eot
    · rw [if_pos (decide_eq_true h)]
      exact congrArg (tokenizer.tokenBytes id ++ ·) ih
    · rw [if_neg (by simpa using h), ih, raw, raw, List.flatMap_cons,
        tokenizer.tokenBytes_special (Nat.not_lt.mp h), List.nil_append]

end LocalAi.Transcription
