import LocalAi.Lib.Except
import LocalAi.Tools.Json

/-!
# The tables of stored files

Files, uploads, their parts, and the blobs that hold the bytes of files and parts.

* `stageBlob`, `commitNewFile`, `commitInternalFile`, `commitNewPart`, `commitCompletion`,
  `cancelUpload`, `deleteFile`, `purge`: the transactions, each of which fails as a whole.

A row of `files` and of `upload_parts` also has the bytes its caller stored, and the tables
have a log of commits and the ids that were ever inserted; these are no columns, they are
there to state what is kept.  An id from `new_id` has 192 random bits, and is taken not to be
one that was drawn before.
-/

namespace LocalAi.FileStore

open Lib (ensure)

abbrev Bytes := List UInt8

inductive Error
  | invalidArgument (message : Text)
  | notFound (message : Text)
  | conflict (message : Text)
  /-- `invalid mime_type {mime_type:?}`. -/
  | invalidMimeType (mimeType : Text)
  /-- `unsafe internal id {id:?}`. -/
  | unsafeId (id : Text)
  /-- A `UNIQUE` or `CHECK` constraint. -/
  | constraint

def decimal (n : Nat) : Text := (Nat.repr n).toList

/-! ### Purposes and requests -/

def mib : Nat := 1024 * 1024

def maxFileBytes : Nat := 512 * mib

def maxBatchFileBytes : Nat := 200 * mib

def maxUploadBytes : Nat := 8 * 1024 * mib

def maxUploadPartBytes : Nat := 64 * mib

def uploadTtlSeconds : Nat := 3600

def minExpiresAfterSeconds : Nat := 3600

def maxExpiresAfterSeconds : Nat := 2592000

def defaultBatchExpiresAfterSeconds : Nat := 2592000

def maxBatchOutputBytes : Nat := 512 * mib

def batchOutputExpiresAfterSeconds : Nat := 2592000

def stagingTtlSeconds : Nat := 86400

def maxFilenameBytes : Nat := 1024

def maxMimeTypeBytes : Nat := 255

inductive FilePurpose
  | assistants
  | batch
  | fineTune
  | vision
  | userData
  | evals
  | batchOutput
deriving DecidableEq

def FilePurpose.asStr : FilePurpose → Text
  | .assistants => "assistants".toList
  | .batch => "batch".toList
  | .fineTune => "fine-tune".toList
  | .vision => "vision".toList
  | .userData => "user_data".toList
  | .evals => "evals".toList
  | .batchOutput => "batch_output".toList

def FilePurpose.isInternal (purpose : FilePurpose) : Bool := purpose = .batchOutput

def FilePurpose.maxFileBytes : FilePurpose → Nat
  | .batch => maxBatchFileBytes
  | .batchOutput => maxBatchOutputBytes
  | _ => FileStore.maxFileBytes

def FilePurpose.maxUploadBytes : FilePurpose → Nat
  | .batch => maxBatchFileBytes
  | .batchOutput => 0
  | _ => FileStore.maxUploadBytes

def FilePurpose.defaultExpiresAfter : FilePurpose → Option Nat
  | .batch => some defaultBatchExpiresAfterSeconds
  | .batchOutput => some batchOutputExpiresAfterSeconds
  | _ => none

def validateFilename (filename : Text) : Except Error Unit := do
  ensure (¬ (filename = [] ∨ maxFilenameBytes < utf8Len filename))
    (.invalidArgument ("filename must be 1 to ".toList ++ decimal maxFilenameBytes ++
      " bytes".toList))
  ensure (¬ filename.any isControl)
    (.invalidArgument "filename must not contain control characters".toList)

/-- The text after the last `.` of a file name (`rsplit_once`). -/
def extension (filename : Text) : Option Text :=
  if '.' ∈ filename then some (filename.rtakeWhile (· ≠ '.')) else none

def validatePurposeFilename (purpose : FilePurpose) (filename : Text) : Except Error Unit :=
  ensure (purpose = .batch →
      (extension filename).any fun ending => ending.map Char.toLower = "jsonl".toList)
    (.invalidArgument "batch files must be .jsonl".toList)

def validateExternalPurpose (purpose : FilePurpose) : Except Error Unit :=
  ensure (¬ purpose.isInternal)
    (.invalidArgument ("purpose ".toList ++ purpose.asStr ++
      " is reserved for files the server creates".toList))

def maxIdBytes : Nat := 128

def validatePathComponent (id : Text) : Except Error Unit :=
  ensure (id ≠ [] ∧ utf8Len id ≤ maxIdBytes ∧
      ∀ c ∈ id, (c.isAlphanum ∧ c.toNat < 128) ∨ c = '_' ∨ c = '-')
    (.unsafeId id)

def validateMimeType (mimeType : Text) : Except Error Unit :=
  ensure (mimeType ≠ [] ∧ utf8Len mimeType ≤ maxMimeTypeBytes ∧ '/' ∈ mimeType ∧
      ∀ c ∈ mimeType, (33 ≤ c.toNat ∧ c.toNat ≤ 126) ∨ c = ' ')
    (.invalidMimeType mimeType)

def validateExpiresAfter (purpose : FilePurpose) : Option Nat → Except Error (Option Nat)
  | none => .ok purpose.defaultExpiresAfter
  | some seconds =>
    if minExpiresAfterSeconds ≤ seconds ∧ seconds ≤ maxExpiresAfterSeconds then
      .ok (some seconds)
    else
      .error (.invalidArgument ("expires_after.seconds must be between ".toList ++
        decimal minExpiresAfterSeconds ++ " and ".toList ++ decimal maxExpiresAfterSeconds))

/-! ### Rows -/

structure BlobRow where
  id : Text
  /-- `state = 'committed'`; a row that is not is `staging`. -/
  committed : Bool
  createdAt : Nat

structure FileRow where
  id : Text
  blobId : Text
  filename : Text
  purpose : FilePurpose
  bytes : Nat
  createdAt : Nat
  expiresAt : Option Nat
  projectId : Option Text
  /-- What the caller stored. -/
  content : Bytes

inductive UploadStatus
  | pending
  | completed
  | cancelled
deriving DecidableEq

structure UploadRow where
  id : Text
  filename : Text
  purpose : FilePurpose
  mimeType : Text
  bytes : Nat
  createdAt : Nat
  expiresAt : Nat
  status : UploadStatus
  fileExpiresAfter : Option Nat
  fileId : Option Text
  projectId : Option Text

structure PartRow where
  id : Text
  uploadId : Text
  blobId : Text
  bytes : Nat
  createdAt : Nat
  /-- What the caller stored. -/
  content : Bytes

/-- An internal file id that was committed; these rows are never removed. -/
structure InternalRow where
  id : Text
  purpose : FilePurpose
  filename : Text
  createdAt : Nat

/-- A completed upload: the parts it listed, in that order, and the file it became. -/
structure Completion where
  uploadId : Text
  blobId : Text
  parts : List Bytes
  content : Bytes

structure Db where
  blobs : List BlobRow
  files : List FileRow
  uploads : List UploadRow
  parts : List PartRow
  internalFiles : List InternalRow
  /-- Every upload that was completed. -/
  completions : List Completion
  /-- Every internal id that was committed. -/
  internalCommits : List Text
  /-- Every blob id and every part id that was inserted. -/
  usedBlobs : List Text
  usedParts : List Text

def Db.empty : Db where
  blobs := []
  files := []
  uploads := []
  parts := []
  internalFiles := []
  completions := []
  internalCommits := []
  usedBlobs := []
  usedParts := []

/-! ### Blobs -/

/-- A new blob id for a caller that is about to write bytes. -/
def stageBlob (blobId : Text) (now : Nat) (db : Db) : Except Error Db := do
  ensure (blobId ∉ db.usedBlobs) .constraint
  pure { db with
      blobs := db.blobs ++ [{ id := blobId, committed := false, createdAt := now }]
      usedBlobs := db.usedBlobs ++ [blobId] }

def Db.staged (db : Db) (blobId : Text) : Bool :=
  db.blobs.any fun row => row.id = blobId && !row.committed

def BlobRow.commit (blobId : Text) (row : BlobRow) : BlobRow :=
  if row.id = blobId then { row with committed := true } else row

def commitBlob (blobId : Text) (db : Db) : Except Error Db := do
  ensure (db.staged blobId)
    (.conflict ("staged blob ".toList ++ blobId ++
      " is no longer present (purged as abandoned?)".toList))
  pure { db with blobs := db.blobs.map (BlobRow.commit blobId) }

/-- `discard_blob`: whether a definitely uncommitted blob lost its row. -/
def discardBlob (blobId : Text) (db : Db) : Bool × Db :=
  (db.staged blobId,
    { db with blobs := db.blobs.filter fun row => ¬ (row.id = blobId ∧ row.committed = false) })

def Db.deleteBlobs (db : Db) (ids : List Text) : Db :=
  { db with blobs := db.blobs.filter fun row => row.id ∉ ids }

/-! ### Files -/

def insertFileRow (row : FileRow) (db : Db) : Except Error Db := do
  ensure (∀ other ∈ db.files, other.id ≠ row.id ∧ other.blobId ≠ row.blobId) .constraint
  pure { db with files := db.files ++ [row] }

def commitNewFile (row : FileRow) (db : Db) : Except Error Db := do
  let db ← commitBlob row.blobId db
  insertFileRow row db

def liveFileRow (db : Db) (fileId : Text) (now : Nat) (project : Option Text) : Option FileRow :=
  db.files.find? fun row =>
    row.id = fileId && row.expiresAt.all (now < ·) &&
      project.all fun project => row.projectId = some project

/-- What an internal id already leads to. -/
inductive InternalFile
  | live (row : FileRow)
  | gone

def committedInternal (db : Db) (fileId filename : Text) (purpose : FilePurpose) (now : Nat) :
    Except Error (Option InternalFile) :=
  match db.internalFiles.find? (·.id = fileId) with
  | some recorded =>
    if recorded.purpose = purpose ∧ recorded.filename = filename then
      .ok (some ((liveFileRow db fileId now none).elim .gone .live))
    else
      .error (.conflict ("internal file ".toList ++ fileId ++
        " was created with another purpose or filename".toList))
  | none =>
    if db.files.any (·.id = fileId) then
      .error (.conflict ("file id ".toList ++ fileId ++ " is already taken".toList))
    else .ok none

/-- The commit of an internal file, or `none` when its id was committed before. -/
def commitInternalFile (row : FileRow) (db : Db) : Except Error (Option Db) := do
  match ← committedInternal db row.id row.filename row.purpose row.createdAt with
  | some _ => pure none
  | none =>
    let db ← commitBlob row.blobId db
    let db ← insertFileRow row db
    pure (some { db with
        internalFiles := db.internalFiles ++
          [{ id := row.id, purpose := row.purpose, filename := row.filename,
             createdAt := row.createdAt }]
        internalCommits := db.internalCommits ++ [row.id] })

def fileNotFound (fileId : Text) : Error :=
  .notFound ("file ".toList ++ fileId ++ " not found".toList)

/-- The blob whose bytes are to be unlinked, and the tables without the file. -/
def deleteFile (fileId : Text) (now : Nat) (project : Option Text) (db : Db) :
    Except Error (Text × Db) :=
  match liveFileRow db fileId now project with
  | none => .error (fileNotFound fileId)
  | some row =>
    .ok (row.blobId,
      ({ db with files := db.files.filter (·.id ≠ fileId) } : Db).deleteBlobs [row.blobId])

/-! ### Uploads -/

def uploadRow (db : Db) (uploadId : Text) (project : Option Text) : Except Error UploadRow :=
  match db.uploads.find? fun row =>
      row.id = uploadId && project.all fun project => row.projectId = some project with
  | some row => .ok row
  | none => .error (.notFound ("upload ".toList ++ uploadId ++ " not found".toList))

def ensureMutable (row : UploadRow) (now : Nat) : Except Error Unit :=
  match row.status with
  | .pending =>
    ensure (now < row.expiresAt) (.conflict ("upload ".toList ++ row.id ++ " has expired".toList))
  | .completed =>
    .error (.conflict ("upload ".toList ++ row.id ++ " is already completed".toList))
  | .cancelled =>
    .error (.conflict ("upload ".toList ++ row.id ++ " is already cancelled".toList))

structure CreateUpload where
  filename : Text
  purpose : FilePurpose
  mimeType : Text
  bytes : Nat
  expiresAfter : Option Nat

def createUpload (id : Text) (request : CreateUpload) (now : Nat) (project : Option Text)
    (db : Db) : Except Error Db := do
  validateExternalPurpose request.purpose
  validateFilename request.filename
  validatePurposeFilename request.purpose request.filename
  validateMimeType request.mimeType
  let fileExpiresAfter ← validateExpiresAfter request.purpose request.expiresAfter
  ensure (0 < request.bytes ∧ request.bytes ≤ request.purpose.maxUploadBytes)
    (.invalidArgument ("upload bytes must be between 1 and ".toList ++
      decimal request.purpose.maxUploadBytes ++ " for purpose ".toList ++ request.purpose.asStr))
  ensure (∀ other ∈ db.uploads, other.id ≠ id) .constraint
  pure { db with
      uploads := db.uploads ++
        [{ id := id, filename := request.filename, purpose := request.purpose,
           mimeType := request.mimeType, bytes := request.bytes, createdAt := now,
           expiresAt := now + uploadTtlSeconds, status := .pending,
           fileExpiresAfter := fileExpiresAfter, fileId := none, projectId := project }] }

def Db.partsOf (db : Db) (uploadId : Text) : List PartRow :=
  db.parts.filter (·.uploadId = uploadId)

def partsTotal (db : Db) (uploadId : Text) : Nat := ((db.partsOf uploadId).map (·.bytes)).sum

def resolvePart (db : Db) (uploadId partId : Text) : Except Error PartRow :=
  match db.parts.find? fun row => row.id = partId && row.uploadId = uploadId with
  | some row => .ok row
  | none => .error (.invalidArgument ("part ".toList ++ partId ++
      " does not belong to upload ".toList ++ uploadId))

def resolveParts (db : Db) (uploadId : Text) (partIds : List Text) : Except Error (List PartRow) :=
  partIds.mapM (resolvePart db uploadId)

/-- Delete the part rows of an upload and their blob rows; the bytes of these blobs are to be
unlinked. -/
def releaseParts (uploadId : Text) (db : Db) : List Text × Db :=
  let blobs := (db.partsOf uploadId).map (·.blobId)
  (blobs, { db.deleteBlobs blobs with parts := db.parts.filter (·.uploadId ≠ uploadId) })

def commitNewPart (row : PartRow) (declared : Nat) (db : Db) : Except Error Db := do
  let upload ← uploadRow db row.uploadId none
  ensureMutable upload row.createdAt
  ensure (partsTotal db row.uploadId + row.bytes ≤ declared)
    (.conflict ("part would exceed the ".toList ++ decimal declared ++
      " bytes declared for upload ".toList ++ row.uploadId))
  let db ← commitBlob row.blobId db
  ensure (row.id ∉ db.usedParts ∧ ∀ other ∈ db.parts, other.blobId ≠ row.blobId) .constraint
  pure { db with parts := db.parts ++ [row], usedParts := db.usedParts ++ [row.id] }

def UploadRow.complete (uploadId fileId : Text) (row : UploadRow) : UploadRow :=
  if row.id = uploadId ∧ row.status = .pending then
    { row with status := .completed, fileId := some fileId }
  else row

def commitCompletion (uploadId : Text) (partIds : List Text) (file : FileRow) (db : Db) :
    Except Error (List Text × Db) := do
  let upload ← uploadRow db uploadId none
  ensureMutable upload file.createdAt
  let parts ← resolveParts db uploadId partIds
  ensure ((parts.map (·.bytes)).sum = file.bytes)
    (.conflict ("parts of upload ".toList ++ uploadId ++ " changed during completion".toList))
  let db ← commitBlob file.blobId db
  let db ← insertFileRow { file with projectId := upload.projectId } db
  pure (releaseParts uploadId { db with
      uploads := db.uploads.map (UploadRow.complete uploadId file.id)
      completions := db.completions ++
        [{ uploadId := uploadId, blobId := file.blobId, parts := parts.map (·.content),
           content := file.content }] })

def UploadRow.cancel (uploadId : Text) (row : UploadRow) : UploadRow :=
  if row.id = uploadId ∧ row.status = .pending then { row with status := .cancelled } else row

def cancelUpload (uploadId : Text) (now : Nat) (project : Option Text) (db : Db) :
    Except Error (List Text × Db) := do
  let upload ← uploadRow db uploadId project
  ensureMutable upload now
  pure (releaseParts uploadId { db with uploads := db.uploads.map (UploadRow.cancel uploadId) })

/-! ### Purge -/

def FileRow.expired (now : Nat) (row : FileRow) : Bool := row.expiresAt.any (· ≤ now)

def UploadRow.expired (now : Nat) (row : UploadRow) : Bool :=
  row.status = .pending && row.expiresAt ≤ now

def BlobRow.stale (now : Nat) (row : BlobRow) : Bool :=
  !row.committed && row.createdAt + stagingTtlSeconds ≤ now

def releaseAll (uploadIds : List Text) (db : Db) : List Text × Db :=
  uploadIds.foldl (fun (released, db) uploadId =>
    (released ++ (releaseParts uploadId db).1, (releaseParts uploadId db).2)) ([], db)

/-- The transaction of `purge_file_storage`: the blobs whose bytes are to be unlinked. -/
def purge (now : Nat) (db : Db) : List Text × Db :=
  let expiredFiles := (db.files.filter (·.expired now)).map (·.blobId)
  let db : Db :=
    { db.deleteBlobs expiredFiles with files := db.files.filter fun row => ¬ row.expired now }
  let expiredUploads := (db.uploads.filter (·.expired now)).map (·.id)
  let (expiredParts, db) := releaseAll expiredUploads db
  let stale := (db.blobs.filter (·.stale now)).map (·.id)
  (expiredFiles ++ expiredParts ++ stale,
    { db with blobs := db.blobs.filter fun row => ¬ row.stale now })

end LocalAi.FileStore
