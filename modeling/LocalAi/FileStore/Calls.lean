import LocalAi.FileStore.Tables
import LocalAi.Lib.System

/-!
# Calls on stored files

Any number of calls run at once, each a sequence of transactions and of steps on the two
directories of blobs.  Bytes are written to a temporary file, renamed into place, and become
visible in the transaction that commits their blob.

* `Job`: what a call that writes a blob will commit it as.
* `Step`: one transaction, one create, write, rename or unlink, or one failure.

A step reads the clock anew, and nothing is assumed of it.  A call may end anywhere: that is
a crash, a failure with nothing left to undo, or a commit whose outcome the caller does not
learn.
-/

namespace LocalAi.FileStore

open Lib (ensure)

/-- A file of the blob directory or of the temporary directory. -/
inductive Path
  | blob (blobId : Text)
  | tmp (blobId : Text)
deriving DecidableEq

def Path.blobId : Path → Text
  | .blob blobId => blobId
  | .tmp blobId => blobId

def removed (blobIds : List Text) : List Path :=
  blobIds.flatMap fun blobId => [.blob blobId, .tmp blobId]

/-- A part as `complete_upload` found it. -/
structure PartRef where
  id : Text
  blobId : Text
  bytes : Nat

inductive Job
  | file (fileId filename : Text) (purpose : FilePurpose) (expiresAfter : Option Nat)
      (project : Option Text)
  | internal (fileId filename : Text) (purpose : FilePurpose) (project : Option Text)
  | part (partId uploadId : Text) (declared limit : Nat)
  | complete (fileId : Text) (upload : UploadRow) (parts : List PartRef) (digest : Option Bytes)

structure CreateFile where
  filename : Text
  purpose : FilePurpose
  expiresAfter : Option Nat

def createFile (fileId : Text) (request : CreateFile) (project : Option Text) :
    Except Error Job := do
  validateExternalPurpose request.purpose
  validateFilename request.filename
  validatePurposeFilename request.purpose request.filename
  let expiresAfter ← validateExpiresAfter request.purpose request.expiresAfter
  pure (.file fileId request.filename request.purpose expiresAfter project)

def createInternalFile (fileId filename : Text) (purpose : FilePurpose) (project : Option Text) :
    Except Error Job := do
  ensure purpose.isInternal
    (.invalidArgument ("purpose ".toList ++ purpose.asStr ++ " is not internal".toList))
  validatePathComponent fileId
  validateFilename filename
  pure (.internal fileId filename purpose project)

/-- The upload that a part or a completion is for. -/
def openUpload (db : Db) (uploadId : Text) (now : Nat) (project : Option Text) :
    Except Error UploadRow := do
  let upload ← uploadRow db uploadId project
  ensureMutable upload now
  pure upload

def partJob (db : Db) (partId : Text) (upload : UploadRow) : Except Error Job := do
  let remaining := upload.bytes - partsTotal db upload.id
  ensure (remaining ≠ 0)
    (.conflict ("upload ".toList ++ upload.id ++ " already holds all ".toList ++
      decimal upload.bytes ++ " declared bytes".toList))
  pure (.part partId upload.id upload.bytes (min maxUploadPartBytes remaining))

/-- The first id that comes a second time. -/
def firstDuplicate (seen : List Text) : List Text → Option Text
  | [] => none
  | id :: ids => if id ∈ seen then some id else firstDuplicate (id :: seen) ids

/-- The checks of `complete_upload` on its part ids. -/
def listedParts (partIds : List Text) : Except Error Unit := do
  ensure (partIds ≠ []) (.invalidArgument "part_ids must not be empty".toList)
  match firstDuplicate [] partIds with
  | some duplicate => .error (.invalidArgument ("duplicate part id ".toList ++ duplicate))
  | none => .ok ()

def completeJob (fileId : Text) (upload : UploadRow) (parts : List PartRef)
    (digest : Option Bytes) : Except Error Job := do
  let total := (parts.map (·.bytes)).sum
  ensure (total = upload.bytes)
    (.invalidArgument ("parts total ".toList ++ decimal total ++ " bytes but upload ".toList ++
      upload.id ++ " declared ".toList ++ decimal upload.bytes))
  pure (.complete fileId upload parts digest)

/-- How many bytes `copy_limited` lets through; a completion copies its parts. -/
def Job.limit : Job → Nat
  | .file _ _ purpose _ _ => purpose.maxFileBytes
  | .internal _ _ purpose _ => purpose.maxFileBytes
  | .part _ _ _ limit => limit
  | .complete _ _ _ _ => 0

/-- Whether the bytes that were written may be committed. -/
def Job.accepts (md5 : Bytes → Bytes) (written : Bytes) : Job → Bool
  | .file _ _ _ _ _ => written ≠ []
  | .internal _ _ _ _ => true
  | .part _ _ _ _ => written ≠ []
  | .complete _ upload _ digest =>
    written.length = upload.bytes && digest.all fun expected => md5 written = expected

/-- The transaction that makes a blob visible: the blobs to unlink after it, or `none` when an
internal id was committed before. -/
def Job.commit (blobId : Text) (written : Bytes) (now : Nat) (db : Db) :
    Job → Except Error (Option (List Text × Db))
  | .file fileId filename purpose expiresAfter project =>
    (commitNewFile
      { id := fileId, blobId := blobId, filename := filename, purpose := purpose,
        bytes := written.length, createdAt := now, expiresAt := expiresAfter.map (now + ·),
        projectId := project, content := written } db).map fun db => some ([], db)
  | .internal fileId filename purpose project =>
    (commitInternalFile
      { id := fileId, blobId := blobId, filename := filename, purpose := purpose,
        bytes := written.length, createdAt := now,
        expiresAt := purpose.defaultExpiresAfter.map (now + ·),
        projectId := project, content := written } db).map fun db => db.map fun db => ([], db)
  | .part partId uploadId declared _ =>
    (commitNewPart
      { id := partId, uploadId := uploadId, blobId := blobId, bytes := written.length,
        createdAt := now, content := written } declared db).map fun db => some ([], db)
  | .complete fileId upload parts _ =>
    (commitCompletion upload.id (parts.map (·.id))
      { id := fileId, blobId := blobId, filename := upload.filename, purpose := upload.purpose,
        bytes := upload.bytes, createdAt := now,
        expiresAt := upload.fileExpiresAfter.map (now + ·), projectId := none,
        content := written } db).map some

inductive Call
  /-- `add_upload_part` has read its upload. -/
  | sizing (upload : UploadRow)
  /-- `complete_upload` has read its upload and some of its parts. -/
  | resolving (upload : UploadRow) (left : List Text) (resolved : List PartRef)
      (digest : Option Bytes)
  | opening (job : Job)
  | staged (job : Job) (blobId : Text)
  | writing (job : Job) (blobId : Text) (written : Bytes) (copied : List Bytes)
  | synced (job : Job) (blobId : Text) (written : Bytes)
  | vacant (job : Job) (blobId : Text) (written : Bytes)
  | stored (job : Job) (blobId : Text) (written : Bytes)
  /-- `write_blob` failed: its temporary file goes. -/
  | cleaning (blobId : Text)
  | discarding (blobId : Text)
  /-- Files to unlink, before `remove_orphans` or not. -/
  | removing (paths : List Path) (sweep : Bool)
  | sweeping
  /-- An entry that `remove_orphans` found without a row. -/
  | orphan (path : Path)

def Call.afterDiscard (blobId : Text) (deleted : Bool) : Option Call :=
  if deleted then some (.removing (removed [blobId]) false) else none

structure Files where
  db : Db
  disk : Path → Option Bytes
  calls : Nat → Option Call

def Files.setCall (s : Files) (caller : Nat) (call : Option Call) : Files :=
  { s with calls := Function.update s.calls caller call }

def Files.setDisk (s : Files) (path : Path) (content : Option Bytes) : Files :=
  { s with disk := Function.update s.disk path content }

def Files.setDb (s : Files) (db : Db) : Files := { s with db := db }

/-- Append to a temporary file, if it still has its name. -/
def Files.append (s : Files) (blobId : Text) (chunk : Bytes) : Files :=
  s.setDisk (.tmp blobId) ((s.disk (.tmp blobId)).map (· ++ chunk))

inductive Action
  | createUpload
  | begin (caller : Nat)
  | next (caller : Nat)
  | fail (caller : Nat)
  | stop (caller : Nat)

inductive Step (md5 : Bytes → Bytes) (s : Files) : Action → Files → Prop
  | createUpload {id : Text} {request : CreateUpload} {now : Nat} {project : Option Text} {db : Db}
      (h : FileStore.createUpload id request now project s.db = .ok db) :
      Step md5 s .createUpload (s.setDb db)
  | createFile {caller : Nat} {fileId : Text} {request : CreateFile} {project : Option Text}
      {job : Job} (hidle : s.calls caller = none)
      (h : FileStore.createFile fileId request project = .ok job) :
      Step md5 s (.begin caller) (s.setCall caller (some (.opening job)))
  | createInternalFile {caller : Nat} {fileId filename : Text} {purpose : FilePurpose} {now : Nat}
      {project : Option Text} {job : Job} (hidle : s.calls caller = none)
      (h : FileStore.createInternalFile fileId filename purpose project = .ok job)
      (hnew : committedInternal s.db fileId filename purpose now = .ok none) :
      Step md5 s (.begin caller) (s.setCall caller (some (.opening job)))
  | addUploadPart {caller : Nat} {uploadId : Text} {now : Nat} {project : Option Text}
      {upload : UploadRow} (hidle : s.calls caller = none)
      (h : openUpload s.db uploadId now project = .ok upload) :
      Step md5 s (.begin caller) (s.setCall caller (some (.sizing upload)))
  | size {caller : Nat} {partId : Text} {upload : UploadRow} {job : Job}
      (hcall : s.calls caller = some (.sizing upload)) (h : partJob s.db partId upload = .ok job) :
      Step md5 s (.next caller) (s.setCall caller (some (.opening job)))
  | completeUpload {caller : Nat} {uploadId : Text} {now : Nat} {project : Option Text}
      {upload : UploadRow} {partIds : List Text} {digest : Option Bytes}
      (hidle : s.calls caller = none) (hlisted : listedParts partIds = .ok ())
      (h : openUpload s.db uploadId now project = .ok upload) :
      Step md5 s (.begin caller) (s.setCall caller (some (.resolving upload partIds [] digest)))
  | resolve {caller : Nat} {upload : UploadRow} {partId : Text} {left : List Text}
      {resolved : List PartRef} {digest : Option Bytes} {row : PartRow}
      (hcall : s.calls caller = some (.resolving upload (partId :: left) resolved digest))
      (h : resolvePart s.db upload.id partId = .ok row) :
      Step md5 s (.next caller) (s.setCall caller (some
        (.resolving upload left
          (resolved ++ [{ id := partId, blobId := row.blobId, bytes := row.bytes }]) digest)))
  | resolved {caller : Nat} {fileId : Text} {upload : UploadRow} {resolved : List PartRef}
      {digest : Option Bytes} {job : Job}
      (hcall : s.calls caller = some (.resolving upload [] resolved digest))
      (h : completeJob fileId upload resolved digest = .ok job) :
      Step md5 s (.next caller) (s.setCall caller (some (.opening job)))
  | stage {caller : Nat} {job : Job} {blobId : Text} {now : Nat} {db : Db}
      (hcall : s.calls caller = some (.opening job)) (h : stageBlob blobId now s.db = .ok db) :
      Step md5 s (.next caller) ((s.setDb db).setCall caller (some (.staged job blobId)))
  | create {caller : Nat} {job : Job} {blobId : Text}
      (hcall : s.calls caller = some (.staged job blobId))
      (hnew : s.disk (.tmp blobId) = none) :
      Step md5 s (.next caller)
        ((s.setDisk (.tmp blobId) (some [])).setCall caller (some (.writing job blobId [] [])))
  | write {caller : Nat} {job : Job} {blobId : Text} {written chunk : Bytes} {copied : List Bytes}
      (hcall : s.calls caller = some (.writing job blobId written copied))
      (hjob : ∀ fileId upload parts digest, job ≠ .complete fileId upload parts digest)
      (hlimit : written.length + chunk.length ≤ job.limit) :
      Step md5 s (.next caller) ((s.append blobId chunk).setCall caller
        (some (.writing job blobId (written ++ chunk) copied)))
  | copy {caller : Nat} {fileId blobId : Text} {upload : UploadRow} {parts : List PartRef}
      {digest : Option Bytes} {written chunk : Bytes} {copied : List Bytes} {part : PartRef}
      (hcall : s.calls caller =
        some (.writing (.complete fileId upload parts digest) blobId written copied))
      (hpart : parts[copied.length]? = some part)
      (hopen : s.disk (.blob part.blobId) = some chunk) (hlength : chunk.length = part.bytes) :
      Step md5 s (.next caller) ((s.append blobId chunk).setCall caller
        (some (.writing (.complete fileId upload parts digest) blobId (written ++ chunk)
          (copied ++ [chunk]))))
  | sync {caller : Nat} {job : Job} {blobId : Text} {written : Bytes} {copied : List Bytes}
      (hcall : s.calls caller = some (.writing job blobId written copied))
      (hdone : ∀ fileId upload parts digest, job = .complete fileId upload parts digest →
        copied.length = parts.length) :
      Step md5 s (.next caller) (s.setCall caller (some (.synced job blobId written)))
  | look {caller : Nat} {job : Job} {blobId : Text} {written : Bytes}
      (hcall : s.calls caller = some (.synced job blobId written))
      (hnew : s.disk (.blob blobId) = none) :
      Step md5 s (.next caller) (s.setCall caller (some (.vacant job blobId written)))
  | rename {caller : Nat} {job : Job} {blobId : Text} {written content : Bytes}
      (hcall : s.calls caller = some (.vacant job blobId written))
      (htmp : s.disk (.tmp blobId) = some content) :
      Step md5 s (.next caller)
        (((s.setDisk (.blob blobId) (some content)).setDisk (.tmp blobId) none).setCall caller
          (some (.stored job blobId written)))
  | openFails {caller : Nat} {job : Job} {blobId : Text}
      (hcall : s.calls caller = some (.staged job blobId)) :
      Step md5 s (.fail caller) (s.setCall caller (some (.discarding blobId)))
  | writeFails {caller : Nat} {job : Job} {blobId : Text} {written : Bytes} {copied : List Bytes}
      (hcall : s.calls caller = some (.writing job blobId written copied) ∨
        s.calls caller = some (.synced job blobId written) ∨
        s.calls caller = some (.vacant job blobId written) ∨
        s.calls caller = some (.stored job blobId written)) :
      Step md5 s (.fail caller) (s.setCall caller (some (.cleaning blobId)))
  | clean {caller : Nat} {blobId : Text} (hcall : s.calls caller = some (.cleaning blobId)) :
      Step md5 s (.next caller)
        ((s.setDisk (.tmp blobId) none).setCall caller (some (.discarding blobId)))
  | cleanFails {caller : Nat} {blobId : Text} (hcall : s.calls caller = some (.cleaning blobId)) :
      Step md5 s (.fail caller) (s.setCall caller (some (.discarding blobId)))
  | commit {caller : Nat} {job : Job} {blobId : Text} {written : Bytes} {now : Nat}
      {released : List Text} {db : Db}
      (hcall : s.calls caller = some (.stored job blobId written))
      (haccepts : job.accepts md5 written)
      (h : job.commit blobId written now s.db = .ok (some (released, db))) :
      Step md5 s (.next caller)
        ((s.setDb db).setCall caller (some (.removing (removed released) false)))
  | commitUnreported {caller : Nat} {job : Job} {blobId : Text} {written : Bytes} {now : Nat}
      {released : List Text} {db : Db}
      (hcall : s.calls caller = some (.stored job blobId written))
      (haccepts : job.accepts md5 written)
      (h : job.commit blobId written now s.db = .ok (some (released, db))) :
      Step md5 s (.fail caller) ((s.setDb db).setCall caller (some (.discarding blobId)))
  /-- The bytes are not accepted, the transaction is refused or fails, or an internal id was
  committed before. -/
  | commitFails {caller : Nat} {job : Job} {blobId : Text} {written : Bytes}
      (hcall : s.calls caller = some (.stored job blobId written)) :
      Step md5 s (.fail caller) (s.setCall caller (some (.discarding blobId)))
  | discard {caller : Nat} {blobId : Text} (hcall : s.calls caller = some (.discarding blobId)) :
      Step md5 s (.next caller) ((s.setDb (discardBlob blobId s.db).2).setCall caller
        (Call.afterDiscard blobId (discardBlob blobId s.db).1))
  | cancelUpload {caller : Nat} {uploadId : Text} {now : Nat} {project : Option Text}
      {released : List Text} {db : Db} (hidle : s.calls caller = none)
      (h : FileStore.cancelUpload uploadId now project s.db = .ok (released, db)) :
      Step md5 s (.begin caller)
        ((s.setDb db).setCall caller (some (.removing (removed released) false)))
  | deleteFile {caller : Nat} {fileId : Text} {now : Nat} {project : Option Text} {blobId : Text}
      {db : Db} (hidle : s.calls caller = none)
      (h : FileStore.deleteFile fileId now project s.db = .ok (blobId, db)) :
      Step md5 s (.begin caller)
        ((s.setDb db).setCall caller (some (.removing (removed [blobId]) false)))
  | purge {caller : Nat} {now : Nat} (hidle : s.calls caller = none) :
      Step md5 s (.begin caller) ((s.setDb (FileStore.purge now s.db).2).setCall caller
        (some (.removing (removed (FileStore.purge now s.db).1) true)))
  | unlink {caller : Nat} {path : Path} {paths : List Path} {sweep : Bool}
      (hcall : s.calls caller = some (.removing (path :: paths) sweep)) :
      Step md5 s (.next caller)
        ((s.setDisk path none).setCall caller (some (.removing paths sweep)))
  | unlinkFails {caller : Nat} {path : Path} {paths : List Path} {sweep : Bool}
      (hcall : s.calls caller = some (.removing (path :: paths) sweep)) :
      Step md5 s (.fail caller) (s.setCall caller (some (.removing paths sweep)))
  | sweep {caller : Nat} (hcall : s.calls caller = some (.removing [] true)) :
      Step md5 s (.next caller) (s.setCall caller (some .sweeping))
  | lookOrphan {caller : Nat} {path : Path} (hcall : s.calls caller = some .sweeping)
      (hentry : s.disk path ≠ none) (hrow : ∀ row ∈ s.db.blobs, row.id ≠ path.blobId) :
      Step md5 s (.next caller) (s.setCall caller (some (.orphan path)))
  | unlinkOrphan {caller : Nat} {path : Path} (hcall : s.calls caller = some (.orphan path)) :
      Step md5 s (.next caller) ((s.setDisk path none).setCall caller (some .sweeping))
  | stop {caller : Nat} : Step md5 s (.stop caller) (s.setCall caller none)

def files (md5 : Bytes → Bytes) : Lib.System Files Action where
  start s := s.db = .empty ∧ s.disk = (fun _ => none) ∧ s.calls = fun _ => none
  step := Step md5

end LocalAi.FileStore
