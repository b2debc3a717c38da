import LocalAi.Tools.Json

/-!
# Citations in answer text

Markers in the text of an answer become citations of search results, as the text streams.

* `Citations.filter`, `Citations.flush`, `Citations.cited`: the code's; `filterLoop` is the loop
  of `filter`.
* `Message.append`, `Message.cite`: the open message that the pieces go to.
* `streamed`: the message after the answer came in pieces and was closed.

Offsets of the source are byte offsets of characters; a text here is split at the characters.
-/

namespace LocalAi.FileSearch

open Lib (splitOnce)

/-- Bytes after an opening bracket that may still become a citation marker. -/
def maxMarkerBytes : Nat := 64

/-- `【`. -/
def opening : Char := '\u3010'

/-- `】`. -/
def closing : Char := '\u3011'

/-- `†`. -/
def dagger : Char := '\u2020'

/-- A result's `file_id` and `filename`. -/
structure Source where
  fileId : Text
  filename : Text
deriving DecidableEq

/-- A piece of answer text after citation markers are taken out. -/
inductive Piece
  | text (text : Text)
  | cite (cited : List Source)

structure Citations where
  /-- Each result's marker number and source. -/
  sources : List (Nat × Source)
  /-- Text not yet passed on: trailing whitespace and an unfinished marker. -/
  held : Text

def Citations.active (citations : Citations) : Bool := !citations.sources.isEmpty

/-- The number that decimal digits spell. -/
def digitsValue (digits : Text) : Nat :=
  digits.foldl (fun n c => 10 * n + (c.toNat - '0'.toNat)) 0

/-- `str::parse::<usize>` of decimal digits. -/
def parseUsize (digits : Text) : Option Nat :=
  if digitsValue digits < 2 ^ 64 then some (digitsValue digits) else none

/-- The result a token (`1`, `3†notes.md`) of a marker names. -/
def citedToken (sources : List (Nat × Source)) (token : Text) : Option Source :=
  let number := token.takeWhile (· ≠ dagger)
  if number.isEmpty || !number.all Char.isDigit then none
  else (parseUsize number).bind fun n => sources.lookup n

/-- The results a marker's body cites, if every number in it is one of this response's. -/
def cited (sources : List (Nat × Source)) (body : Text) : Option (List Source) := do
  let tokens := (body.splitOnP fun c => c == ',' || c == ' ').filter fun token => !token.isEmpty
  let found ← tokens.mapM (citedToken sources)
  if found.isEmpty then none else some found

def Citations.cited (citations : Citations) (body : Text) : Option (List Source) :=
  FileSearch.cited citations.sources body

def trailing (text : Text) : Text := text.drop (trimEnd text).length

def emit (text : Text) : List Piece := if text.isEmpty then [] else [.text text]

theorem length_after_lt {c : Char} {text before after : Text}
    (h : splitOnce [c] text = some (before, after)) : after.length < text.length := by
  have hl := congrArg List.length (Lib.splitOnce_eq_some h)
  simp only [List.length_append, List.length_singleton] at hl
  omega

def filterLoop (cited : Text → Option (List Source)) (rest text : Text) : List Piece × Text :=
  match _hopen : splitOnce [opening] rest with
  | none => (emit (trimEnd (text ++ rest)), trailing (text ++ rest))
  | some (before, body) =>
    match _hclose : splitOnce [closing] body with
    | some (inside, after) =>
      match cited inside with
      | some found =>
        let (pieces, held) := filterLoop cited after []
        (emit (trimEnd (text ++ before)) ++ .cite found :: pieces, held)
      | none => filterLoop cited after (text ++ before ++ opening :: inside ++ [closing])
    | none =>
      if utf8Len body ≤ maxMarkerBytes then
        (emit (trimEnd (text ++ before)), trailing (text ++ before) ++ opening :: body)
      else filterLoop cited body (text ++ before ++ [opening])
termination_by rest.length
decreasing_by
  · exact Nat.lt_trans (length_after_lt _hclose) (length_after_lt _hopen)
  · exact Nat.lt_trans (length_after_lt _hclose) (length_after_lt _hopen)
  · exact length_after_lt _hopen

def Citations.filter (citations : Citations) (piece : Text) : List Piece × Citations :=
  if !citations.active then ([.text piece], citations)
  else
    let (pieces, held) := filterLoop citations.cited (citations.held ++ piece) []
    (pieces, { citations with held := held })

/-- The held text, at the end of the answer. -/
def Citations.flush (citations : Citations) : Text × Citations :=
  (citations.held, { citations with held := [] })

/-! ### The open message -/

structure Annotation where
  fileId : Text
  filename : Text
  /-- Where the message is annotated, in characters. -/
  index : Nat
deriving DecidableEq

structure Message where
  text : Text
  chars : Nat
  annotations : List Annotation

def Message.append (message : Message) (piece : Text) : Message :=
  if piece.isEmpty then message
  else { message with text := message.text ++ piece, chars := message.chars + piece.length }

/-- Annotate the message, at the end of its text so far, with citations (each file once per
position). -/
def Message.cite (message : Message) (cited : List Source) : Message :=
  cited.foldl (fun message source =>
    let note : Annotation := ⟨source.fileId, source.filename, message.chars⟩
    if note ∈ message.annotations then message
    else { message with annotations := message.annotations ++ [note] }) message

def Message.take (message : Message) : Piece → Message
  | .text text => message.append text
  | .cite cited => message.cite cited

def receive (state : Message × Citations) (piece : Text) : Message × Citations :=
  if state.2.active then
    let (pieces, citations) := state.2.filter piece
    (pieces.foldl Message.take state.1, citations)
  else (state.1.append piece, state.2)

/-- `close` for an open message. -/
def finish (state : Message × Citations) : Message := state.1.append state.2.flush.1

def streamed (sources : List (Nat × Source)) (pieces : List Text) : Message :=
  finish (pieces.foldl receive (⟨[], 0, []⟩, ⟨sources, []⟩))

end LocalAi.FileSearch
