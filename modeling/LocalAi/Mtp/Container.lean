import LocalAi.Lib.Reader
import LocalAi.Lib.Utf8
import LocalAi.Tools.Classify

/-!
# The container of heads and drafters

A header page names every section and says where it is; then the sections, each on pages of its
own.  The header has the SHA-256 of the sections, end to end.

* `writeContainer`: the file a spec and its sections are laid out in.
* `readContainerWith`: a file read back and checked against the spec its names select.

Words of the machine have 64 bits, so that a `usize` and a `u64` are the same numbers.  The
SHA-256 and the printing of bytes that are no text are parameters; opening and mapping a file,
and the temporary file that is renamed once it is whole, are the file system's.
-/

namespace LocalAi.Mtp

open Lib (slice toLe fromLe utf8Bytes ensure Reader readMany)

abbrev Bytes := List UInt8

/-- A section's name and its length in bytes. -/
abbrev Section := Text × Nat

/-- Where a section starts and how long it is. -/
abbrev Place := Nat × Nat

def magicBytes : Nat := 8

/-- The size of the pages that sections start on. -/
def page : Nat := 16 * 1024

/-- The width of the payload digest, which is stored as hex digits. -/
def digestHex : Nat := 64

structure Container where
  magic : Bytes
  version : Nat
  headerBytes : Nat
  name : Text
  aName : Text
  magic_length : magic.length = magicBytes
  version_lt : version < 2 ^ 32
  header_le : headerBytes ≤ page

def mtpContainer : Container where
  magic := [77, 84, 80, 84, 49, 0, 0, 0]
  version := 1
  headerBytes := 4096
  name := "MTP head".toList
  aName := "an MTP head".toList
  magic_length := by decide
  version_lt := by decide
  header_le := by decide

/-! ### Checked arithmetic -/

/-- `usize::checked_add`. -/
def checkedAdd (a b : Nat) : Option Nat := if a + b < 2 ^ 64 then some (a + b) else none

/-- `try_from` into an unsigned integer of `bits` bits. -/
def tryFrom (bits value : Nat) : Option Nat := if value < 2 ^ bits then some value else none

/-- `Option::ok_or`. -/
def okOr {α : Type} (found : Option α) (message : Text) : Except Text α :=
  found.elim (.error message) .ok

def alignPage (value : Nat) : Option Nat := (checkedAdd value (page - 1)).map (· / page * page)

/-! ### The payload's digest -/

def hex (bytes : Bytes) : Text :=
  bytes.flatMap fun byte => [hexDigit (byte.toNat / 16), hexDigit (byte.toNat % 16)]

variable (sha256 : Bytes → Fin 32 → UInt8) (lossy : Bytes → Text)

def digestOf (regions : List Bytes) : Text := hex (List.ofFn (sha256 regions.flatten))

/-! ### Writing -/

def layoutFrom (container : Container) : Nat → List Bytes → Except Text (List Place × Nat)
  | stop, [] => .ok ([], stop)
  | stop, bytes :: sections => do
    let padded ← okOr (alignPage bytes.length) (container.name ++ " section size overflows".toList)
    let next ← okOr (checkedAdd stop padded) (container.name ++ " file size overflows".toList)
    let (offsets, stop') ← layoutFrom container next sections
    pure ((stop, bytes.length) :: offsets, stop')

/-- `layout`: where each section lands, and where the file ends. -/
def layout (sections : List Bytes) (container : Container) : Except Text (List Place × Nat) :=
  layoutFrom container page sections

def isAsciiHexdigit (byte : UInt8) : Bool :=
  (48 ≤ byte && byte ≤ 57) || (97 ≤ byte && byte ≤ 102) || (65 ≤ byte && byte ≤ 70)

/-- The bytes of a name in the header's table. -/
def encodeName (spec : Section) : Except Text Bytes := do
  let len ← okOr (tryFrom 8 (utf8Bytes spec.1).length) "section name is too long".toList
  pure (toLe 1 len ++ utf8Bytes spec.1)

/-- The bytes of a section's entry in the header. -/
def encodePlace (place : Place) : Except Text Bytes := do
  let offset ← okOr (tryFrom 64 place.1) "offset overflows".toList
  let length ← okOr (tryFrom 64 place.2) "length overflows".toList
  pure (toLe 8 offset ++ toLe 8 length)

def encodeHeader (container : Container) (offsets : List Place) (spec : List Section)
    (digest : Text) (payloadBytes fileBytes : Nat) : Except Text Bytes := do
  let stored := utf8Bytes digest
  ensure (stored.length == digestHex && stored.all isAsciiHexdigit)
    "payload digest is not 64 hex-encoded bytes".toList
  let count ← okOr (tryFrom 32 spec.length) "too many sections".toList
  let payload ← okOr (tryFrom 64 payloadBytes) "payload length overflows".toList
  let file ← okOr (tryFrom 64 fileBytes) "file length overflows".toList
  let total ← okOr
    (spec.foldlM (fun total part => checkedAdd total (1 + (utf8Bytes part.1).length)) 0)
    "section name table length overflows".toList
  let namesLen ← okOr (tryFrom 32 total) "name table length overflows".toList
  let names ← spec.mapM encodeName
  let places ← offsets.mapM encodePlace
  let out := container.magic ++ (toLe 4 container.version ++ (toLe 4 count ++ (toLe 8 payload ++
    (toLe 8 file ++ (stored ++ (toLe 4 namesLen ++ (names.flatten ++ places.flatten)))))))
  ensure (decide (out.length ≤ container.headerBytes))
    (container.name ++ " header needs ".toList ++ decimal out.length ++
      " bytes, a page holds ".toList ++ decimal container.headerBytes)
  pure (out ++ List.replicate (container.headerBytes - out.length) 0)

/-- A seek and a `write_all`. -/
def writeAt (file : Bytes) (offset : Nat) (bytes : Bytes) : Bytes :=
  file.take offset ++ (List.replicate (offset - file.length) 0 ++
    (bytes ++ file.drop (offset + bytes.length)))

/-- What one written file ended up holding. -/
structure HeadFile where
  fileBytes : Nat
  payloadBytes : Nat
  payloadSha256 : Text

def checkLengths (spec : List Section) (sections : List Bytes) : Except Text Unit :=
  ((sections.zip spec).zipIdx).forM fun ((bytes, part), index) =>
    ensure (bytes.length == part.2)
      ("section ".toList ++ decimal index ++ " is ".toList ++ decimal bytes.length ++
        " bytes, spec binds ".toList ++ decimal part.2)

/-- `write_container`: the file, and what it ended up holding. -/
def writeContainer (container : Container) (spec : List Section) (sections : List Bytes) :
    Except Text (Bytes × HeadFile) := do
  ensure (spec.length == sections.length)
    ("spec binds ".toList ++ decimal spec.length ++ " sections, ".toList ++
      decimal sections.length ++ " were built".toList)
  checkLengths spec sections
  let digest := digestOf sha256 sections
  let (offsets, imageBytes) ← layout sections container
  let payloadBytes ← okOr (sections.foldlM (fun total bytes => checkedAdd total bytes.length) 0)
    "payload length overflows".toList
  let header ← encodeHeader container offsets spec digest payloadBytes imageBytes
  -- `set_len` fills the file with zeros
  let file := writeAt (List.replicate imageBytes 0) 0 header
  let file := (offsets.zip sections).foldl (fun file (place, bytes) => writeAt file place.1 bytes) file
  pure (file, ⟨imageBytes, payloadBytes, digest⟩)

/-! ### Reading -/

structure HeadHeader where
  sections : List Place
  spec : List Section
  stored : Bytes
  fileBytes : Nat
  imageBytes : Nat

/-- `HeaderReader`: a field, if the header has all of it. -/
def field {α : Type} (r : Reader) (found : Option α) : Except Text α :=
  okOr found ("header is truncated at byte ".toList ++ decimal r.pos)

def take (r : Reader) (len : Nat) : Except Text (Bytes × Reader) := field r (r.take len)

def u32 (r : Reader) : Except Text (Nat × Reader) := field r (r.readLe 4)

def u64 (r : Reader) : Except Text (Nat × Reader) := field r (r.readLe 8)

section Header

variable (path : Text)

def readName (names : Reader) : Except Text (Text × Reader) := do
  let truncated := path ++ ": section name table is truncated".toList
  let (len, names) ← okOr (names.readLe 1) truncated
  let (name, names) ← okOr (names.take len) truncated
  let text ← okOr ((String.fromUTF8? ⟨name.toArray⟩).map String.toList)
    (path ++ ": section name is not UTF-8".toList)
  pure (text, names)

def readPlace (r : Reader) : Except Text (Place × Reader) := do
  let (offset, r) ← u64 r
  let (length, r) ← u64 r
  pure ((offset, length), r)

/-- The names found against the names bound. -/
def checkNames (decoded : List Text) (spec : List Section) : Except Text Unit :=
  ((decoded.zip spec).zipIdx).forM fun ((found, part), index) =>
    ensure (found == part.1)
      (path ++ ": section ".toList ++ decimal index ++ " is ".toList ++ found ++
        ", this build binds ".toList ++ part.1)

def imageEnd (sections : List Place) : Except Text Nat :=
  match sections.getLast? with
  | none => .ok 0
  | some (offset, length) => do
    let padded ← okOr (alignPage length) (path ++ ": the last section size overflows".toList)
    okOr (checkedAdd offset padded) (path ++ ": the last section offset overflows".toList)

/-- One entry of the section table against the spec, and the bytes summed so far. -/
def checkPlace (container : Container) (imageBytes summed : Nat) :
    (Place × Section) × Nat → Except Text Nat
  | (((offset, length), (_, expected)), index) => do
    let where_ := path ++ ": section ".toList ++ decimal index
    let padded ← okOr (alignPage length) (where_ ++ " size overflows".toList)
    ensure (length == expected)
      (where_ ++ " is ".toList ++ decimal length ++ " bytes, this build binds ".toList ++
        decimal expected)
    ensure (offset % page == 0)
      (where_ ++ " offset ".toList ++ decimal offset ++ " is not ".toList ++ decimal page ++
        "-byte aligned".toList)
    ensure (decide (container.headerBytes ≤ offset))
      (where_ ++ " offset ".toList ++ decimal offset ++ " runs into the header page".toList)
    ensure ((checkedAdd offset padded).any fun stop => decide (stop ≤ imageBytes))
      (where_ ++ " runs past the end of the file".toList)
    okOr (checkedAdd summed length) (path ++ ": payload size overflows".toList)

/-- `parse_header`: what a header page claims, checked against the spec its names select. -/
def parseHeader (container : Container) (bind : List Text → Except Text (List Section))
    (header : Bytes) : Except Text HeadHeader := do
  let (magic, r) ← take (Reader.start header) magicBytes
  ensure (magic == container.magic)
    (path ++ " is not ".toList ++ container.aName ++ " artifact".toList)
  let (version, r) ← u32 r
  ensure (version == container.version)
    (path ++ " is ".toList ++ container.name ++ " version ".toList ++ decimal version ++
      ", this build reads version ".toList ++ decimal container.version)
  let (count, r) ← u32 r
  let (payloadLen, r) ← u64 r
  let (fileBytes, r) ← u64 r
  let (stored, r) ← take r digestHex
  let (namesLen, r) ← u32 r
  let (names, r) ← take r namesLen
  let (decoded, table) ← readMany (readName path) count (Reader.start names)
  ensure (table.pos == namesLen)
    (path ++ ": section name table has ".toList ++ decimal (namesLen - table.pos) ++
      " trailing bytes".toList)
  let spec ← (bind decoded).mapError fun reason => path ++ ": ".toList ++ reason
  ensure (count == spec.length)
    (path ++ " holds ".toList ++ decimal count ++ " sections, this build binds ".toList ++
      decimal spec.length)
  checkNames path decoded spec
  let (sections, _) ← readMany readPlace count r
  let imageBytes ← imageEnd path sections
  let summed ← ((sections.zip spec).zipIdx).foldlM (checkPlace path container imageBytes) 0
  ensure (summed == payloadLen)
    (path ++ ": sections total ".toList ++ decimal summed ++ " bytes, header records ".toList ++
      decimal payloadLen)
  pure { sections, spec, stored, fileBytes, imageBytes }

end Header

/-- A read that ends without a file: refused, or a slice past the end of the mapping. -/
inductive Fault where
  | rejected (message : Text)
  | outOfBounds

structure HeadMap where
  map : Bytes
  sections : List Place
  spec : List Section
  payloadSha256 : Text

/-- `&map[offset..offset + length]`. -/
def region (map : Bytes) (place : Place) : Except Fault Bytes :=
  if place.1 + place.2 ≤ map.length then .ok (slice place.1 place.2 map) else .error .outOfBounds

def readContainerWith (path : Text) (container : Container)
    (bind : List Text → Except Text (List Section)) (map : Bytes) : Except Fault HeadMap := do
  ensure (decide (container.headerBytes ≤ map.length))
    (.rejected (path ++ " is shorter than one ".toList ++ decimal container.headerBytes ++
      "-byte header page".toList))
  let parsed ← (parseHeader path container bind (map.take container.headerBytes)).mapError
    Fault.rejected
  ensure (parsed.fileBytes == map.length)
    (.rejected (path ++ ": header records ".toList ++ decimal parsed.fileBytes ++
      " bytes, file is ".toList ++ decimal map.length))
  ensure (map.length == parsed.imageBytes)
    (.rejected (path ++ ": sections end at byte ".toList ++ decimal parsed.imageBytes ++
      " of a ".toList ++ decimal map.length ++ " byte file".toList))
  let regions ← parsed.sections.mapM (region map)
  let payloadSha256 := digestOf sha256 regions
  ensure (utf8Bytes payloadSha256 == parsed.stored)
    (.rejected (path ++ ": payload hashes to ".toList ++ payloadSha256 ++
      ", header records ".toList ++ lossy parsed.stored))
  pure ⟨map, parsed.sections, parsed.spec, payloadSha256⟩

end LocalAi.Mtp
