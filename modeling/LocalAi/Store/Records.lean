import LocalAi.Tools.Grammar

/-!
# Records of stored responses

A record keeps its strings of at least `blobMinLen` bytes in blobs, each named by its SHA-256:
the record has the digest in the string's place and lists the places.

* `resolve`: puts them back.
* `saveWith`, `load`: the whole record, with its files.

A record's file holds the JSON value itself: the text round trip is `serde_json`'s.  File
operations succeed.  The order of a `HashMap` is an `Order`: any one.
-/

namespace LocalAi.Store.Records

/-! ### Digests -/

/-- A string of at least this many bytes is kept in a blob. -/
def blobMinLen : Nat := 16 * 1024

def hexByte (byte : Fin 256) : Text := [hexDigit (byte / 16), hexDigit (byte % 16)]

def validDigest (digest : Text) : Bool :=
  utf8Len digest == 64 && digest.all fun c => c.isDigit || (decide ('a' ≤ c) && decide (c ≤ 'f'))

section Digest

variable (sha256 : Text → Fin 32 → Fin 256)

def hexDigest (text : Text) : Text := (List.ofFn (sha256 text)).flatMap hexByte

/-! ### Moving strings out -/

/-- What `externalize` has moved out: the places, and the blobs by digest. -/
structure Moved where
  references : List (Text × Json)
  blobs : List (Text × Text)

def Moved.none : Moved := ⟨[], []⟩

def orInsert (digest text : Text) (blobs : List (Text × Text)) : List (Text × Text) :=
  if blobs.any fun blob => blob.1 == digest then blobs else blobs ++ [(digest, text)]

def Moved.move (moved : Moved) (pointer text : Text) : Moved where
  references := insertMember pointer (.string (hexDigest sha256 text)) moved.references
  blobs := orInsert (hexDigest sha256 text) text moved.blobs

def escapeSegment (key : Text) : Text :=
  key.flatMap fun c => if c = '~' then ['~', '0'] else if c = '/' then ['~', '1'] else [c]

mutual

def externalize : Json → Text → Moved → Json × Moved
  | .string text, pointer, moved =>
    if blobMinLen ≤ utf8Len text then
      (.string (hexDigest sha256 text), moved.move sha256 pointer text)
    else (.string text, moved)
  | .array items, pointer, moved =>
    let (items, moved) := externalizeItems items 0 pointer moved
    (.array items, moved)
  | .object members, pointer, moved =>
    let (members, moved) := externalizeMembers members pointer moved
    (.object members, moved)
  | value, _, moved => (value, moved)

def externalizeItems : List Json → Nat → Text → Moved → List Json × Moved
  | [], _, _, moved => ([], moved)
  | item :: items, index, pointer, moved =>
    let (item, moved) := externalize item (pointer ++ '/' :: decimal index) moved
    let (items, moved) := externalizeItems items (index + 1) pointer moved
    (item :: items, moved)

def externalizeMembers : List (Text × Json) → Text → Moved → List (Text × Json) × Moved
  | [], _, moved => ([], moved)
  | (key, value) :: members, pointer, moved =>
    let (value, moved) := externalize value (pointer ++ '/' :: escapeSegment key) moved
    let (members, moved) := externalizeMembers members pointer moved
    ((key, value) :: members, moved)

end

end Digest

/-! ### Putting strings back -/

def updateMember (key : Text) (f : Json → Option Json) :
    List (Text × Json) → Option (List (Text × Json))
  | [] => none
  | (name, value) :: members =>
    if name = key then (f value).map fun value => (name, value) :: members
    else (updateMember key f members).map ((name, value) :: ·)

def updateItem (f : Json → Option Json) : Nat → List Json → Option (List Json)
  | _, [] => none
  | 0, item :: items => (f item).map (· :: items)
  | index + 1, item :: items => (updateItem f index items).map (item :: ·)

def updateAt (f : Json → Option Json) : List Text → Json → Option Json
  | [], value => f value
  | segment :: path, .object members =>
    (updateMember segment (updateAt f path) members).map .object
  | segment :: path, .array items =>
    (parseIndex segment).bind fun index => (updateItem (updateAt f path) index items).map .array
  | _ :: _, _ => none

/-- The keys and indices of a JSON pointer. -/
def segments (pointer : Text) : Option (List Text) :=
  if pointer.isEmpty then some []
  else if pointer.head? != some '/' then none
  else some (((splitAll '/' pointer).drop 1).map unescapeSegment)

/-- `pointer_mut`, with what is done at its place. -/
def pointerMut (f : Json → Option Json) (pointer : Text) (value : Json) : Option Json :=
  (segments pointer).bind fun path => updateAt f path value

/-- A blob's content in place of its digest. -/
def putBack (digest content : Text) : Json → Option Json
  | .string text => if text = digest then some (.string content) else none
  | _ => none

inductive Failure
  | invalidId (id : Text)
  | corrupt (id why : Text)
  | missing (id digest : Text)
  | notRecord (id : Text)

/-- `places.entry(digest).or_default().push(pointer)`. -/
def addPlace (digest pointer : Text) (places : List (Text × List Text)) :
    List (Text × List Text) :=
  if places.any fun place => place.1 == digest then
    places.map fun place =>
      if place.1 == digest then (place.1, place.2 ++ [pointer]) else place
  else places ++ [(digest, [pointer])]

def placesOf (id : Text) : List (Text × Json) → List (Text × List Text) →
    Except Failure (List (Text × List Text))
  | [], places => .ok places
  | (pointer, .string digest) :: references, places =>
    if validDigest digest then placesOf id references (addPlace digest pointer places)
    else .error (.corrupt id (pointer ++ " names no blob".toList))
  | (pointer, _) :: _, _ => .error (.corrupt id (pointer ++ " names no blob".toList))

def fillPlaces (id digest content : Text) : List Text → Json → Except Failure Json
  | [], record => .ok record
  | pointer :: pointers, record =>
    match pointerMut (putBack digest content) pointer record with
    | some record => fillPlaces id digest content pointers record
    | none =>
      .error (.corrupt id (pointer ++ " does not hold blob ".toList ++ digest))

structure Order where
  blobs : List (Text × Text) → List (Text × Text)
  blobs_perm : ∀ all, (blobs all).Perm all
  places : List (Text × List Text) → List (Text × List Text)
  places_perm : ∀ all, (places all).Perm all

def fillAll (id : Text) (links : Text → Option Text) :
    List (Text × List Text) → Json → Except Failure Json
  | [], record => .ok record
  | (digest, pointers) :: places, record =>
    match links digest with
    | none => .error (.missing id digest)
    | some content =>
      match fillPlaces id digest content pointers record with
      | .error failure => .error failure
      | .ok record => fillAll id links places record

/-- `Map::remove`: the last member takes the place of the one removed. -/
def swapRemove (key : Text) (members : List (Text × Json)) : List (Text × Json) :=
  match members.getLast? with
  | none => []
  | some last =>
    if last.1 == key then members.dropLast
    else if members.any fun member => member.1 == key then
      members.dropLast.map fun member => if member.1 == key then last else member
    else members

/-- Put back into a record every string it keeps in a blob. -/
def resolve (order : Order) (links : Text → Option Text) (id : Text) (record : Json) :
    Except Failure Json :=
  match record with
  | .object members =>
    match lookup "blobs".toList members with
    | some (.object references) =>
      match placesOf id references [] with
      | .error failure => .error failure
      | .ok places =>
        fillAll id links (order.places places) (.object (swapRemove "blobs".toList members))
    | _ => .error (.corrupt id "it lists no blobs".toList)
  | _ => .error (.corrupt id "it lists no blobs".toList)

/-! ### Files -/

/-- The files of a store: records by id, a record's links by digest, blobs by digest, and the
lease sidecars. -/
structure Files where
  records : Text → Option Json
  links : Text → Text → Option Text
  blobs : Text → Option Text
  locks : Text → Bool

def Files.empty : Files := ⟨fun _ => none, fun _ _ => none, fun _ => none, fun _ => false⟩

def whole (file : Option Text) (content : Text) : Bool :=
  file.any fun bytes => utf8Len bytes == utf8Len content

def Files.setBlob (files : Files) (digest content : Text) : Files :=
  { files with blobs := Function.update files.blobs digest (some content) }

/-- The record's link becomes another name of the blob. -/
def Files.link (files : Files) (id digest : Text) : Files :=
  { files with
    links := Function.update files.links id
      (Function.update (files.links id) digest (files.blobs digest)) }

/-- Give record `id` a link to a blob. -/
def writeBlob (id : Text) (files : Files) (blob : Text × Text) : Files :=
  if whole (files.links id blob.1) blob.2 then files
  else if whole (files.blobs blob.1) blob.2 then files.link id blob.1
  else (files.setBlob blob.1 blob.2).link id blob.1

def writeBlobs (id : Text) (blobs : List (Text × Text)) (files : Files) : Files :=
  blobs.foldl (writeBlob id) files

/-! ### Records -/

def maxIdTail : Nat := 64

def validId (id : Text) : Bool :=
  match stripPrefix "resp_".toList id with
  | some tail =>
    !tail.isEmpty && decide (utf8Len tail ≤ maxIdTail) && tail.all fun c => c.isAlphanum
  | none => false

/-- `Value::get` of a key. -/
def member (value : Json) (key : Text) : Option Json :=
  match value with
  | .object members => lookup key members
  | _ => none

/-- `value[key] = new`, of an object. -/
def setMember (key : Text) (new : Json) : Json → Json
  | .object members => .object (insertMember key new members)
  | value => value

def isObject : Json → Bool
  | .object _ => true
  | _ => false

def idOf (response : Json) : Text := ((member response "id".toList).bind Json.asStr).getD []

/-- `background::pending`. -/
def pending (response : Json) : Bool :=
  match (member response "status".toList).bind Json.asStr with
  | some status => status == "queued".toList || status == "in_progress".toList
  | none => false

/-- A response that runs in the background and has not ended. -/
def leased (response : Json) : Bool :=
  match member response "background".toList with
  | some (.bool true) => pending response
  | _ => false

def number (n : Nat) : Json := .number (decimal n)

def recordVersion : Nat := 1

def blobRecordVersion : Nat := 2

/-- The record before its strings are moved out. -/
def recordOf (response : Json) (inputItems : List Json) (request : Option (Json × Option Json))
    (project : Option Text) : Json :=
  let record := .object [("object".toList, .string "local_ai.stored_response".toList),
    ("version".toList, number recordVersion), ("response".toList, response),
    ("input_items".toList, .array inputItems)]
  let record :=
    match request with
    | none => record
    | some (request, creator) =>
      let record := setMember "request".toList request record
      match creator with
      | none => record
      | some creator => setMember "creator".toList creator record
  match project with
  | none => record
  | some project => setMember "project".toList (.string project) record

section Store

variable (sha256 : Text → Fin 32 → Fin 256) (order : Order)

/-- Persist a response and its input; `request` is the body a pending background Response is
regenerated from, with who created it. -/
def saveWith (files : Files) (response : Json) (inputItems : List Json)
    (request : Option (Json × Option Json)) (project : Option Text) : Except Failure Files :=
  let id := idOf response
  if validId id then
    let files :=
      if leased response then { files with locks := Function.update files.locks id true } else files
    let (record, moved) :=
      externalize sha256 (recordOf response inputItems request project) [] .none
    if moved.references.isEmpty then
      .ok { files with records := Function.update files.records id (some record) }
    else
      let record := setMember "blobs".toList (.object moved.references)
        (setMember "version".toList (number blobRecordVersion) record)
      let files := writeBlobs id (order.blobs moved.blobs) files
      .ok { files with records := Function.update files.records id (some record) }
  else .error (.invalidId id)

structure StoredResponse where
  response : Json
  inputItems : List Json
  request : Option Json
  creator : Option Json
  project : Option Text

/-- What a record says, its strings put back. -/
def stored (id : Text) (version : Option Nat) (record : Json) : Except Failure StoredResponse :=
  let request := member record "request".toList
  let creator :=
    (member record "creator".toList).filter fun creator => request.isSome && isObject creator
  let project := (member record "project".toList).bind Json.asStr
  match member record "response".toList, member record "input_items".toList with
  | some response, some (.array inputItems) =>
    if (version = some recordVersion ∨ version = some blobRecordVersion) ∧
        (member response "id".toList).bind Json.asStr = some id then
      .ok ⟨response, inputItems, request, creator, project⟩
    else .error (.notRecord id)
  | _, _ => .error (.notRecord id)

def load (files : Files) (id : Text) : Except Failure (Option StoredResponse) :=
  if validId id then
    match files.records id with
    | none => .ok none
    | some record =>
      let version := (member record "version".toList).bind Json.asU64
      if version = some blobRecordVersion then
        match resolve order (files.links id) id record with
        | .error failure => .error failure
        | .ok record => (stored id version record).map some
      else (stored id version record).map some
  else .ok none

end Store

end LocalAi.Store.Records
