import LocalAi.Lib.Layout
import LocalAi.Lib.Pool
import LocalAi.Tools.Classify

/-!
# The file of a prompt snapshot

A magic, the header's length and the header, padded with spaces; then five sections, each
padded with zeros to `align`.  The header has the CRC-32C of every block of every section.

* `readHeader`, `readIndex`, `load`: the readers.
* `read`: `blocks::read`, whose blocks several readers read and check at once.

Sizes are `Nat`: a file is shorter than 2^64 bytes, so that the checked sums of the source fail
only where they would differ from its length.  The CRC-32C, the SHA-256 of older files and the
reading of a header's JSON are parameters.
-/

namespace LocalAi.PromptCache

open Lib (slice chunks divCeil nextMultiple pad toLe fromLe Pool Turn)

abbrev Bytes := List UInt8

def utf8 (text : Text) : Bytes := text.flatMap String.utf8EncodeChar

/-! ### Blocks -/

/-- The alignment of the payload and of each section. -/
def align : Nat := 16 * 1024

def block : Nat := 1024 * 1024

def digitsPerBlock : Nat := 8

def padded (length : Nat) : Nat := nextMultiple length align

def blocks (length : Nat) : Nat := divCeil length block

def checksumDigits (lengths : List Nat) : Nat := (lengths.map blocks).sum * digitsPerBlock

/-- `{value:08x}`. -/
def hex (value : UInt32) : Text :=
  (List.range digitsPerBlock).map fun index =>
    hexDigit (value.toNat / 16 ^ (digitsPerBlock - 1 - index) % 16)

/-- The value of a hexadecimal digit of either case. -/
def hexValue (c : Char) : Option Nat :=
  if c.isDigit then some (c.toNat - '0'.toNat)
  else if 'a' ≤ c ∧ c ≤ 'f' then some (c.toNat - 'a'.toNat + 10)
  else if 'A' ≤ c ∧ c ≤ 'F' then some (c.toNat - 'A'.toNat + 10)
  else none

def hexNumber (value : Nat) : Text → Option Nat
  | [] => some value
  | c :: text => (hexValue c).bind fun digit => hexNumber (16 * value + digit) text

/-- `u32::from_str_radix(text, 16)`. -/
def fromStrRadix (text : Text) : Option UInt32 :=
  let digits :=
    match text with
    | '+' :: rest => rest
    | text => text
  if digits.isEmpty then none
  else (hexNumber 0 digits).bind fun value =>
    if value < 2 ^ 32 then some (UInt32.ofNat value) else none

def crc32cBitwise (bytes : Bytes) : UInt32 :=
  let bit (crc : UInt32) : UInt32 := (crc >>> 1) ^^^ (0x82F63B78 &&& (0 - (crc &&& 1)))
  ~~~ bytes.foldl (fun crc byte => (List.range 8).foldl (fun crc _ => bit crc) (crc ^^^ byte.toUInt32))
    0xFFFFFFFF

section Checksums

variable (crc32c : Bytes → UInt32)

/-- The checksums of every block of the sections, as the header stores them. -/
def checksums (sections : List Bytes) : Text :=
  sections.flatMap fun bytes => (chunks block bytes).flatMap fun piece => hex (crc32c piece)

def invalidChecksums : Text := "invalid prompt cache checksums".toList

def parseChecksums (digits : Text) (count : Nat) : Except Text (List UInt32) :=
  if utf8Len digits ≠ count * digitsPerBlock ∨ digits.any (fun c => decide (128 ≤ c.toNat)) then
    .error invalidChecksums
  else
    match (chunks digitsPerBlock digits).mapM fromStrRadix with
    | some values => .ok values
    | none => .error invalidChecksums

structure Job where
  offset : Nat
  length : Nat
  checksum : UInt32

def sectionJobs (offset length : Nat) (checksums : List UInt32) : List Job :=
  (List.range (blocks length)).map fun index =>
    ⟨offset + index * block, min block (length - index * block), checksums.getD index 0⟩

def jobsFrom : Nat → List Nat → List UInt32 → List Job
  | _, [], _ => []
  | offset, length :: lengths, checksums =>
    sectionJobs offset length checksums ++
      jobsFrom (offset + padded length) lengths (checksums.drop (blocks length))

/-- Read and check one block (`read_exact_at`, `crc32c`). -/
def checkBlock (file : Bytes) (job : Job) : Except Text Unit :=
  let bytes := slice job.offset job.length file
  if bytes.length < job.length then .error "failed to fill whole buffer".toList
  else if crc32c bytes = job.checksum then .ok ()
  else .error "prompt cache checksum mismatch".toList

/-- The sections as their blocks were read. -/
def sectionsFrom (file : Bytes) : Nat → List Nat → List Bytes
  | _, [] => []
  | offset, length :: lengths =>
    ((sectionJobs offset length []).map fun job => slice job.offset job.length file).flatten ::
      sectionsFrom file (offset + padded length) lengths

def abandoned : Text := "prompt cache load abandoned".toList

/-- Who reads: how many readers could be started, and whose turn it is. -/
structure Readers where
  helpers : Nat
  turns : List Turn

/-- `blocks::read`; nothing while a reader has not ended. -/
def read (readers : Readers) (file : Bytes) (start : Nat) (lengths : List Nat) (digits : Text) :
    Option (Except Text (List Bytes)) :=
  if start % align ≠ 0 ∨ start + (lengths.map padded).sum ≠ file.length then
    some (.error "truncated or misaligned prompt cache section".toList)
  else
    match parseChecksums digits (lengths.map blocks).sum with
    | .error error => some (.error error)
    | .ok checksums =>
      let pool := (Pool.start (jobsFrom start lengths checksums) (readers.helpers + 1)).run
        (checkBlock crc32c file) abandoned readers.turns
      if pool.finished then
        some ((Pool.result pool.workers).map fun _ => sectionsFrom file start lengths)
      else none

end Checksums

/-! ### Headers -/

structure Header where
  modelKey : Text
  layout : Text
  position : Nat
  tokenCount : Nat
  recurrent : Nat
  mtpHidden : Nat
  targetKv : Nat
  mtpKv : Nat
  payloadSha256 : Option Text
  payloadCrc32c : Option Text
  sessionId : Option Text
  reusableBoundary : Bool

structure Snapshot where
  position : Nat
  layout : Text
  recurrent : Bytes
  mtpPrevHidden : Bytes
  targetKv : Bytes
  mtpKv : Bytes

structure Stored where
  modelKey : Text
  tokens : List UInt32
  sessionId : Option Text
  snapshot : Snapshot
  reusableBoundary : Bool

def optional : Option Text → Json
  | none => .null
  | some text => .string text

/-- A header's JSON, as `serde` writes its fields. -/
def Header.json (header : Header) : Json :=
  .object ([("model_key".toList, .string header.modelKey),
      ("layout".toList, .string header.layout),
      ("position".toList, .number (decimal header.position)),
      ("token_count".toList, .number (decimal header.tokenCount)),
      ("recurrent".toList, .number (decimal header.recurrent)),
      ("mtp_hidden".toList, .number (decimal header.mtpHidden)),
      ("target_kv".toList, .number (decimal header.targetKv)),
      ("mtp_kv".toList, .number (decimal header.mtpKv))] ++
    (header.payloadSha256.toList.map fun digest => ("payload_sha256".toList, .string digest)) ++
    (header.payloadCrc32c.toList.map fun digits => ("payload_crc32c".toList, .string digits)) ++
    [("session_id".toList, optional header.sessionId),
      ("reusable_boundary".toList, .bool header.reusableBoundary)])

def Header.encoded (header : Header) : Bytes := utf8 header.json.toText

def header (stored : Stored) (checksums : Text) : Header where
  modelKey := stored.modelKey
  layout := stored.snapshot.layout
  position := stored.snapshot.position
  tokenCount := stored.tokens.length
  recurrent := stored.snapshot.recurrent.length
  mtpHidden := stored.snapshot.mtpPrevHidden.length
  targetKv := stored.snapshot.targetKv.length
  mtpKv := stored.snapshot.mtpKv.length
  payloadSha256 := none
  payloadCrc32c := some checksums
  sessionId := stored.sessionId
  reusableBoundary := stored.reusableBoundary

def sectionLengths (stored : Stored) : List Nat :=
  [stored.tokens.length * 4, stored.snapshot.recurrent.length,
    stored.snapshot.mtpPrevHidden.length, stored.snapshot.targetKv.length,
    stored.snapshot.mtpKv.length]

/-- `BPCACHE1`. -/
def magic : Bytes := utf8 "BPCACHE1".toList

def fixed : Nat := 16

/-- The length of a header with its spaces. -/
def Header.size (header : Header) : Nat :=
  nextMultiple (fixed + header.encoded.length) align - fixed

def Header.spaced (header : Header) : Bytes :=
  header.encoded ++ List.replicate (header.size - header.encoded.length) 32

def preamble (header : Header) : Bytes := magic ++ (toLe 8 header.size ++ header.spaced)

/-- The size of the file, before checksumming. -/
def storedBytes (stored : Stored) : Nat :=
  let lengths := sectionLengths stored
  let placeholder := List.replicate (checksumDigits lengths) '0'
  (preamble (header stored placeholder)).length + (lengths.map padded).sum

/-! ### Writing -/

def tokenBytes (tokens : List UInt32) : Bytes := tokens.flatMap fun token => toLe 4 token.toNat

def sections (stored : Stored) : List Bytes :=
  [tokenBytes stored.tokens, stored.snapshot.recurrent, stored.snapshot.mtpPrevHidden,
    stored.snapshot.targetKv, stored.snapshot.mtpKv]

/-- Bytes written between checks of a shutdown abort. -/
def writePiece : Nat := 64 * 1024 * 1024

/-- A section as it is written: piece by piece, then its zeros. -/
def writtenSection (bytes : Bytes) : Bytes :=
  (chunks writePiece bytes).flatten ++ List.replicate (padded bytes.length - bytes.length) 0

/-- The file `store_abortable` writes when it is not aborted. -/
def storedFile (crc32c : Bytes → UInt32) (stored : Stored) : Bytes :=
  preamble (header stored (checksums crc32c (sections stored))) ++
    (sections stored).flatMap writtenSection

/-! ### Reading -/

def maxHeader : Nat := 1024 * 1024

section Reading

variable (decode : Bytes → Except Text Header)

/-- The header, and where the payload starts. -/
def readHeader (file : Bytes) : Except Text (Header × Nat) :=
  if file.length < 8 then .error "failed to fill whole buffer".toList
  else if slice 0 8 file ≠ magic then .error "invalid prompt cache magic".toList
  else if file.length < fixed then .error "failed to fill whole buffer".toList
  else
    let size := fromLe (slice 8 8 file)
    if maxHeader < size then .error "prompt cache header too large".toList
    else if file.length < fixed + size then .error "failed to fill whole buffer".toList
    else (decode (slice fixed size file)).map fun header => (header, fixed + size)

def readIndex (file : Bytes) : Except Text (Header × Bytes) :=
  match readHeader decode file with
  | .error error => .error error
  | .ok (header, start) =>
    if file.length < start + header.tokenCount * 4 then
      .error "failed to fill whole buffer".toList
    else .ok (header, slice start (header.tokenCount * 4) file)

/-- The tokens that `discover` reads from a token section. -/
def tokensOf (bytes : Bytes) : List UInt32 :=
  (List.range (bytes.length / 4)).map fun index => UInt32.ofNat (fromLe (slice (index * 4) 4 bytes))

variable (crc32c : Bytes → UInt32) (sha256 : Bytes → Text)

/-- The sections of a contiguous payload. -/
def contiguous (file : Bytes) : Nat → List Nat → List Bytes
  | _, [] => []
  | offset, length :: lengths => slice offset length file :: contiguous file (offset + length) lengths

/-- `read_sha256_payload`: a payload written before the block layout. -/
def readSha256Payload (file : Bytes) (start : Nat) (lengths : List Nat) (digest : Text) :
    Except Text (List Bytes) :=
  if lengths.sum ≠ file.length - start then .error "truncated prompt cache section".toList
  else if sha256 (file.drop start) ≠ digest then .error "prompt cache checksum mismatch".toList
  else .ok (contiguous file start lengths)

def snapshotOf (header : Header) : List Bytes → Except Text Snapshot
  | [_, recurrent, mtpPrevHidden, targetKv, mtpKv] =>
    .ok ⟨header.position, header.layout, recurrent, mtpPrevHidden, targetKv, mtpKv⟩
  | _ => .error "prompt cache section count mismatch".toList

/-- `load`; nothing while a reader has not ended. -/
def load (readers : Readers) (file : Bytes) (modelKey : Text) : Option (Except Text Snapshot) :=
  match readHeader decode file with
  | .error error => some (.error error)
  | .ok (header, start) =>
    if header.modelKey ≠ modelKey then some (.error "stale prompt cache model key".toList)
    else
      let lengths :=
        [header.tokenCount * 4, header.recurrent, header.mtpHidden, header.targetKv, header.mtpKv]
      match header.payloadCrc32c, header.payloadSha256 with
      | some digits, _ =>
        (read crc32c readers file start lengths digits).map fun result =>
          result.bind (snapshotOf header)
      | none, some digest =>
        some ((readSha256Payload sha256 file start lengths digest).bind (snapshotOf header))
      | none, none => some (.error "prompt cache has no checksum".toList)

end Reading

end LocalAi.PromptCache
