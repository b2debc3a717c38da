import LocalAi.Lib.Layout
import LocalAi.Store.Records

/-!
# Decision artifacts

A decision head and the gate of a calibration are safetensors files: the length of a JSON header,
the header, which says where each tensor's bytes are, and the bytes.

* `JudgmentHead.open`: the head, whose five tensors are known by name.
* `readF32Safetensors`: a gate, whose tensors are those of the header.

The parsing of the header is a parameter.  A number of 32 bits stands for the float it encodes.  An
index past the end of a slice and an overflowing sum are faults of their own.
-/

namespace LocalAi.Judgment

open Lib (slice chunks fromLe ensure)

abbrev Bytes := List UInt8

abbrev F32 := Nat

/-- The members of a JSON object; no two have the same key. -/
structure JsonMap where
  members : List (Text × Json)
  distinct : (members.map Prod.fst).Nodup

inductive JudgmentError where
  | json
  | invalidFormat (message : Text)
  | missingTensor (name : Text)
  deriving DecidableEq

inductive Fault where
  | failed (error : JudgmentError)
  | outOfBounds
  | overflow
  deriving DecidableEq

def okOr {α : Type} (found : Option α) (fault : Fault) : Except Fault α :=
  found.elim (.error fault) .ok

/-! ### Arithmetic and slices -/

def add (a b : Nat) : Except Fault Nat := if a + b < 2 ^ 64 then .ok (a + b) else .error .overflow

def sub (a b : Nat) : Except Fault Nat := if b ≤ a then .ok (a - b) else .error .overflow

def checkedMul (a b : Nat) : Option Nat := if a * b < 2 ^ 64 then some (a * b) else none

/-- `&bytes[start..stop]`. -/
def index (bytes : Bytes) (start stop : Nat) : Except Fault Bytes :=
  if start ≤ stop ∧ stop ≤ bytes.length then .ok (slice start (stop - start) bytes)
  else .error .outOfBounds

/-- The whole pieces of four bytes, as `as_chunks::<4>().0`. -/
def asChunks (bytes : Bytes) : List Bytes := chunks 4 (bytes.take (bytes.length / 4 * 4))

/-- `f32::is_finite`. -/
def isFinite (value : F32) : Bool := decide (value / 2 ^ 23 % 2 ^ 8 ≠ 255)

/-- `value <= 0.0` of a finite value: zero of either sign, or the sign is set. -/
def notPositive (value : F32) : Bool := decide (value = 0 ∨ 2 ^ 31 ≤ value)

def floats (bytes : Bytes) : List F32 := (asChunks bytes).map fromLe

/-- Four times the product of a shape, if it is a word. -/
def byteLen (shape : List Nat) : Option Nat := shape.foldlM checkedMul 4

/-- Whether a tensor's range is refused: the difference is taken once the ends are in order. -/
def badRange (start stop : Nat) (shape : List Nat) (data : Bytes) : Except Fault Bool :=
  if stop < start then .ok true
  else do
    let size ← sub stop start
    .ok (decide (some size ≠ byteLen shape) || decide (data.length < stop))

/-! ### Headers -/

/-- Largest JSON header that is accepted. -/
def maxHeader : Nat := 2 ^ 20

def splitHeader (bytes : Bytes) (tooShort badLength : Fault) : Except Fault (Bytes × Bytes) := do
  let headerLen ← okOr (if 8 ≤ bytes.length then some (fromLe (bytes.take 8)) else none) tooShort
  ensure (headerLen ≠ 0 ∧ headerLen ≤ maxHeader) badLength
  let whole ← add headerLen 8
  ensure (whole ≤ bytes.length) badLength
  let dataStart ← add 8 headerLen
  let data ← index bytes dataStart bytes.length
  let header ← index bytes 8 dataStart
  .ok (header, data)

def usizes : Json → Option (List Nat)
  | .array items => items.mapM Json.asU64
  | _ => none

/-- A `[usize; 2]`. -/
def usizePair (json : Json) : Option (Nat × Nat) :=
  match usizes json with
  | some [a, b] => some (a, b)
  | _ => none

structure Entry where
  dtype : Text
  shape : List Nat
  dataOffsets : Nat × Nat

def entryParts : Json → Option (Json × Json × Json)
  | .object members => do
    let dtype ← lookup "dtype".toList members
    let shape ← lookup "shape".toList members
    let offsets ← lookup "data_offsets".toList members
    some (dtype, shape, offsets)
  | .array [dtype, shape, offsets] => some (dtype, shape, offsets)
  | _ => none

def Entry.ofJson (json : Json) : Option Entry := do
  let (dtype, shape, offsets) ← entryParts json
  let dtype ← dtype.asStr
  let shape ← usizes shape
  let dataOffsets ← usizePair offsets
  some ⟨dtype, shape, dataOffsets⟩

/-- A shape as `{:?}` prints it. -/
def shapeText (shape : List Nat) : Text :=
  '[' :: (", ".toList.intercalate (shape.map decimal)) ++ [']']

/-! ### A head -/

def invalid (message : Text) : Fault :=
  .failed (.invalidFormat ("judgment head: ".toList ++ message))

def judgmentHeadFormat : Text := "local-ai.judgment-pointer-head.v0-experimental".toList

structure JudgmentHead where
  width : Nat
  headDim : Nat
  qWeight : List F32
  qBias : List F32
  kWeight : List F32
  kBias : List F32
  temperature : F32
  renderer : Option Text

def stringMap : Json → Option (List (Text × Text))
  | .object members => members.mapM fun member => member.2.asStr.map fun text => (member.1, text)
  | _ => none

/-- `str::parse::<usize>`. -/
def parseUsize (text : Text) : Option Nat :=
  let digits := match text with
    | '+' :: rest => rest
    | _ => text
  if digits ≠ [] ∧ digits.all Char.isDigit ∧ Nat.ofDigitChars 10 digits 0 < 2 ^ 64 then
    some (Nat.ofDigitChars 10 digits 0)
  else none

/-- Metadata that may be missing, but not blank. -/
def provenance (metadata : List (Text × Text)) (key : Text) : Except Fault (Option Text) :=
  match metadata.lookup key with
  | none => .ok none
  | some value =>
    if trim value ≠ [] then .ok (some value)
    else .error (invalid (key ++ " must not be empty when present".toList))

def dimension (metadata : List (Text × Text)) (key : Text) : Except Fault Nat :=
  match (metadata.lookup key).bind parseUsize with
  | some value =>
    if 0 < value then .ok value
    else .error (invalid (key ++ " must be a positive integer".toList))
  | none => .error (invalid (key ++ " must be a positive integer".toList))

/-- One tensor, by its name; the header's entries and the ranges so far are passed along. -/
def readTensor (data : Bytes) (name : Text) (shape : List Nat)
    (state : List (Text × Json) × List (Nat × Nat)) :
    Except Fault (List F32 × (List (Text × Json) × List (Nat × Nat))) := do
  let value ← okOr (lookup name state.1) (.failed (.missingTensor name))
  let entries := state.1.filter fun member => member.1 ≠ name
  let entry ← okOr (Entry.ofJson value) (.failed .json)
  ensure (entry.dtype = "F32".toList ∧ entry.shape = shape)
    (invalid ("tensor ".toList ++ name ++ " must be F32 ".toList ++ shapeText shape))
  let (start, stop) := entry.dataOffsets
  let bad ← badRange start stop shape data
  ensure (bad = false) (invalid ("tensor ".toList ++ name ++ " has an invalid byte range".toList))
  let values := floats (← index data start stop)
  ensure (values.all isFinite)
    (invalid ("tensor ".toList ++ name ++ " holds a non-finite value".toList))
  .ok (values, entries, state.2 ++ [(start, stop)])

/-- `sort_unstable` of pairs. -/
def sortRanges (ranges : List (Nat × Nat)) : List (Nat × Nat) :=
  ranges.mergeSort fun r s => decide (r.1 < s.1 ∨ r.1 = s.1 ∧ r.2 ≤ s.2)

/-- A range starts where the one before it ends. -/
def walkRange (cursor : Nat) (range : Nat × Nat) : Except Fault Nat :=
  if range.1 ≠ cursor then .error (invalid "tensor byte ranges overlap or leave a gap".toList)
  else .ok range.2

def tensorNames : List Text :=
  ["q.weight", "q.bias", "k.weight", "k.bias", "temperature"].map String.toList

def readTensors (data : Bytes) (entries : List (Text × Json)) (width headDim : Nat) :
    Except Fault ((List F32 × List F32 × List F32 × List F32 × F32) × List (Nat × Nat)) := do
  let (qWeight, state) ← readTensor data "q.weight".toList [headDim, width] (entries, [])
  let (qBias, state) ← readTensor data "q.bias".toList [headDim] state
  let (kWeight, state) ← readTensor data "k.weight".toList [headDim, width] state
  let (kBias, state) ← readTensor data "k.bias".toList [headDim] state
  let (values, state) ← readTensor data "temperature".toList [1] state
  let temperature ← okOr values.head? .outOfBounds
  .ok ((qWeight, qBias, kWeight, kBias, temperature), state.2)

def JudgmentHead.open (parse : Bytes → Option JsonMap) (bytes : Bytes) :
    Except Fault JudgmentHead := do
  let (header, data) ← splitHeader bytes (invalid "file is too short".toList)
    (invalid "safetensors header length is invalid".toList)
  let map ← okOr (parse header) (.failed .json)
  let value ← okOr (lookup "__metadata__".toList map.members) (invalid "metadata is missing".toList)
  let entries := map.members.filter fun member => member.1 ≠ "__metadata__".toList
  let metadata ← okOr (stringMap value) (.failed .json)
  ensure (metadata.lookup "format".toList = some judgmentHeadFormat)
    (invalid ("format must be ".toList ++ judgmentHeadFormat))
  ensure (metadata.lookup "experimental".toList = some "true".toList)
    (invalid "experimental must be \"true\"".toList)
  let width ← dimension metadata "width".toList
  let headDim ← dimension metadata "head_dim".toList
  let renderer ← provenance metadata "renderer".toList
  ensure (entries.length = tensorNames.length)
    (invalid ("must contain exactly ".toList ++ decimal tensorNames.length ++
      " tensors, found ".toList ++ decimal entries.length))
  let ((qWeight, qBias, kWeight, kBias, temperature), ranges) ←
    readTensors data entries width headDim
  let cursor ← (sortRanges ranges).foldlM walkRange 0
  ensure (cursor = data.length) (invalid "unreferenced bytes after tensor data".toList)
  ensure (notPositive temperature = false) (invalid "temperature must be positive".toList)
  .ok { width, headDim, qWeight, qBias, kWeight, kBias, temperature, renderer }

/-! ### A gate -/

def invalidGate (message : Text) : Fault :=
  .failed (.invalidFormat ("decision calibration: ".toList ++ message))

/-- `entry["key"]`, which is null where there is no member of that name. -/
def member (json : Json) (key : Text) : Json :=
  match json with
  | .object members => (lookup key members).getD .null
  | _ => .null

/-- `entry.get("dtype")`, if it is a string. -/
def dtypeOf (json : Json) : Option Text :=
  match json with
  | .object members => (lookup "dtype".toList members).bind Json.asStr
  | _ => none

/-- Whether a tensor is refused; its range is looked at when its type is right. -/
def badTensor (dtype : Option Text) (start stop : Nat) (shape : List Nat) (data : Bytes) :
    Except Fault Bool :=
  if dtype ≠ some "F32".toList then .ok true else badRange start stop shape data

def readGateTensor (data : Bytes) (name : Text) (entry : Json) :
    Except Fault ((Nat × Nat) × Text × List Nat × List F32) := do
  let shape ← okOr (usizes (member entry "shape".toList)) (.failed .json)
  let (start, stop) ← okOr (usizePair (member entry "data_offsets".toList)) (.failed .json)
  let bad ← badTensor (dtypeOf entry) start stop shape data
  ensure (bad = false)
    (invalidGate ("gate tensor ".toList ++ name ++ " is not a valid F32 tensor".toList))
  let values := floats (← index data start stop)
  ensure (values.all isFinite)
    (invalidGate ("gate tensor ".toList ++ name ++ " holds a non-finite value".toList))
  .ok ((start, stop), name, shape, values)

def readGateTensors (data : Bytes) :
    List (Text × Json) → Nat → Except Fault (List (Text × List Nat × List F32) × Nat)
  | [], covered => .ok ([], covered)
  | (name, entry) :: header, covered => do
    let ((start, stop), tensor) ← readGateTensor data name entry
    let size ← sub stop start
    let covered ← add covered size
    let (tensors, covered) ← readGateTensors data header covered
    .ok (tensor :: tensors, covered)

def readF32Safetensors (parse : Bytes → Option JsonMap) (bytes : Bytes) :
    Except Fault (List (Text × Json) × List (Text × List Nat × List F32)) := do
  let (headerBytes, data) ← splitHeader bytes (invalidGate "gate file is too short".toList)
    (invalidGate "gate safetensors header length is invalid".toList)
  let map ← okOr (parse headerBytes) (.failed .json)
  let metadata ← okOr (match lookup "__metadata__".toList map.members with
    | some (.object metadata) => some metadata
    | _ => none) (invalidGate "gate metadata is missing".toList)
  let header := Store.Records.swapRemove "__metadata__".toList map.members
  let (tensors, covered) ← readGateTensors data header 0
  ensure (covered = data.length) (invalidGate "gate tensor data has gaps or overlaps".toList)
  .ok (metadata, tensors)

end LocalAi.Judgment
