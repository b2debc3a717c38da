import LocalAi.Workspace.Fs
import LocalAi.Lib.Except

/-!
# Opening files under the root

The two walks that lead from a path text to an open file, one component at a time.

* `relativePath`: a path text as names under the root.
* `editFile`: what is done with the open file.
-/

namespace LocalAi.Workspace

open Lib (Program ensure splitOnce)

/-! ### Paths -/

inductive Component
  | rootDir
  | curDir
  | parentDir
  | normal (name : Text)

/-- One piece between slashes; a `.` counts only as the first. -/
def component (piece : Text × Nat) : Option Component :=
  if piece.1 = [] then none
  else if piece.1 = ['.'] then (if piece.2 = 0 then some .curDir else none)
  else if piece.1 = ['.', '.'] then some .parentDir
  else some (.normal piece.1)

/-- `Path::components` of a Unix path. -/
def components (path : Text) : List Component :=
  (if path.head? = some '/' then [.rootDir] else []) ++
    ((path.splitOn '/').zipIdx).filterMap component

/-- `.git` in any case. -/
def isGitDirName (name : Text) : Bool := name.map Char.toLower = ".git".toList

/-- `local_services::Error`. -/
inductive Error
  | invalidArgument (message : Text)
  | notFound (message : Text)
  | conflict (message : Text)
  | io (failure : Failure)
deriving DecidableEq

def quoted (text : Text) : Text := '`' :: text ++ ['`']

def relativeNames (input : Text) : List Component → Except Error (List Text)
  | [] => .ok []
  | .normal name :: rest => do
    ensure (!isGitDirName name)
      (.invalidArgument (quoted input ++ " is inside .git, which is never readable".toList))
    return name :: (← relativeNames input rest)
  | .curDir :: rest => relativeNames input rest
  | .parentDir :: _ | .rootDir :: _ => .error (.invalidArgument
      (quoted input ++ " must be a relative path that stays inside the workspace".toList))

def relativePath (input : Text) (allowRoot : Bool) : Except Error (List Text) := do
  ensure (!input.contains '\x00') (.invalidArgument "path must not contain NUL bytes".toList)
  let rel ← relativeNames input (components input)
  ensure (!rel.isEmpty || allowRoot) (.invalidArgument "path must name a file".toList)
  return rel

/-- `display_path`, and `Path::display` of names. -/
def displayPath (rel : List Text) : Text := ['/'].intercalate rel

def openSame {ε : Type} (openFailed statFailed : Failure → ε) (differs : ε) (dir : Inode) (name : Text)
    (seen : Metadata) : Program World ε Inode := do
  let next ← (openDir dir name).orFail openFailed
  let opened ← (fstat next).orFail statFailed
  if opened.inode ≠ seen.inode then .throw differs else pure next

/-! ### Reads -/

def openError (display : Text) (failure : Failure) : Error :=
  match failure.kind with
  | .notFound | .notADirectory =>
    .notFound (quoted display ++ " does not exist in the workspace".toList)
  | .permissionDenied => .invalidArgument
      (quoted display ++ " cannot be opened inside the workspace root: ".toList ++ failure.text)
  | _ => .io failure

def changed (display : Text) : Error :=
  .conflict (quoted display ++ " changed while it was being opened".toList)

/-- The end of the walk: a regular file, the same before and after it is opened. -/
def openLast (display : Text) (dir : Inode) (name : Text) (seen : Metadata) :
    Program World Error (Inode × Metadata) :=
  if seen.kind ≠ .file then
    .throw (.invalidArgument (quoted display ++ " is not a regular file".toList))
  else do
    let file ← (openRead dir name).orFail (openError display)
    let metadata ← (fstat file).orFail .io
    if metadata.kind ≠ .file ∨ metadata.inode ≠ seen.inode then .throw (changed display)
    else pure (file, metadata)

/-- `Workspace::open_file`: a regular file under `dir`, without following a symlink at any
component. -/
def openFile (display : Text) : Inode → List Text → Program World Error (Inode × Metadata)
  | _, [] => .throw (.invalidArgument "path must name a file".toList)
  | dir, name :: rest => do
    let seen ← (lstat dir name).orFail (openError display)
    if seen.kind = .symlink then
      .throw (.invalidArgument
        (quoted display ++ " is reached through a symlink, which is never followed".toList))
    else if rest.isEmpty then
      openLast display dir name seen
    else do
      let next ← openSame (openError display) .io (changed display) dir name seen
      openFile display next rest

/-! ### Writes -/

inductive ToolError
  | invalid (message : Text)
  | denied (message : Text)
  | failed (message : Text)
deriving DecidableEq

def ioError (display : Text) (failure : Failure) : ToolError :=
  match failure.kind with
  | .notFound => .invalid (display ++ " does not exist".toList)
  | .permissionDenied => .denied
      (display ++ " cannot be opened inside the tools root: ".toList ++ failure.text)
  | _ => .failed (display ++ ": ".toList ++ failure.text)

/-- Step into a directory whose entry was `seen`. -/
def enter (display : Text) (dir : Inode) (part : Text) (seen : Metadata) :
    Program World ToolError Inode :=
  if seen.kind = .symlink then
    .throw (.denied (display ++ " is reached through a symlink, which is never followed".toList))
  else if seen.kind ≠ .directory then
    .throw (.invalid (display ++ ": a parent component is not a directory".toList))
  else
    openSame (ioError display) (ioError display)
      (.failed (display ++ " changed while it was being opened".toList)) dir part seen

def inspectPart (display : Text) (create : Bool) (dir : Inode) (part : Text) :
    Program World ToolError Metadata := do
  match ← (lstat dir part).attempt with
  | .ok seen => pure seen
  | .error failure =>
    if failure.kind = .notFound ∧ create then do
      (mkdir dir part).orFail (ioError display)
      (lstat dir part).orFail (ioError display)
    else
      .throw (ioError display failure)

def openParts (display : Text) (create : Bool) :
    Inode → List Text → Program World ToolError Inode
  | dir, [] => pure dir
  | dir, part :: parts => do
    let seen ← inspectPart display create dir part
    let next ← enter display dir part seen
    openParts display create next parts

/-- `open_parent`: the directory of the last component, and that component's name. -/
def openParent (root : Inode) (rel : List Text) (create : Bool) :
    Program World ToolError (Inode × Text) :=
  match rel.getLast? with
  | none => .throw (.invalid "path must name a file".toList)
  | some name => do
    let dir ← (tryClone root).orFail fun failure => .failed failure.text
    let dir ← openParts (displayPath rel) create dir rel.dropLast
    pure (dir, name)

def moreLinks (display : Text) : ToolError := .denied
  (display ++ " has other hard links, so writing it could change files outside the root".toList)

/-- `check_target`: never a symlink, and a regular file or, when `mayCreate`, absent. -/
def checkTarget (parent : Inode) (name display : Text) (mayCreate : Bool) :
    Program World ToolError (Option Inode) := do
  match ← (lstat parent name).attempt with
  | .ok seen =>
    if seen.kind = .symlink then
      .throw (.denied (display ++ " is a symlink, which is never followed".toList))
    else if seen.kind = .file ∧ 1 < seen.links then
      .throw (moreLinks display)
    else if seen.kind = .file then
      pure (some seen.inode)
    else
      .throw (.invalid (display ++ " is not a regular file".toList))
  | .error failure =>
    if failure.kind = .notFound ∧ mayCreate then pure none else .throw (ioError display failure)

/-- `open_target`: open the last component, creating it when `seen` is none; the opened
handle is checked again. -/
def openTarget (parent : Inode) (name display : Text) (seen : Option Inode) :
    Program World ToolError (Inode × Nat) := do
  let file ← (openAt parent name seen.isNone).orFail fun failure =>
    if failure.kind = .loop then
      .denied (display ++ " is a symlink, which is never followed".toList)
    else
      ioError display failure
  let opened ← (fstat file).orFail (ioError display)
  if opened.kind ≠ .file then
    .throw (.invalid (display ++ " is not a regular file".toList))
  else if 1 < opened.links then
    .throw (moreLinks display)
  else if seen.any (· ≠ opened.inode) then
    .throw (.failed (display ++ " changed while it was being opened".toList))
  else
    pure (file, opened.size)

/-- A file for a write or, without `create`, for an edit. -/
def openForWrite (root : Inode) (rel : List Text) (display : Text) (create : Bool) :
    Program World ToolError (Inode × Nat) := do
  let (parent, name) ← openParent root rel create
  let seen ← checkTarget parent name display create
  openTarget parent name display seen

def lift {α : Type} : Except ToolError α → Program World ToolError α
  | .ok a => pure a
  | .error e => .throw e

def serviceError : Error → ToolError
  | .invalidArgument message | .notFound message | .conflict message => .invalid message
  | .io failure => .failed failure.text

def checkSize (len max : Nat) : Except ToolError Unit :=
  ensure (len ≤ max) (.invalid ("the file would be ".toList ++ Nat.toDigits 10 len ++
    " bytes; the limit is ".toList ++ Nat.toDigits 10 max))

def replaceContents (file : Inode) (content : Bytes) (display : Text) :
    Program World ToolError Unit := do
  (setLen file).orFail (ioError display)
  (writeAt file content).orFail (ioError display)

def encode (text : Text) : Bytes := (String.ofList text).toUTF8.toList

def decode (bytes : Bytes) : Option Text := (String.fromUTF8? ⟨bytes.toArray⟩).map String.toList

/-- How often `old` occurs, from left to right without overlap. -/
def occurrences (old : Text) : Nat → Text → Nat
  | 0, _ => 0
  | fuel + 1, text =>
    match splitOnce old text with
    | none => 0
    | some (_, rest) => occurrences old fuel rest + 1

def edited (max : Nat) (path old new : Text) (bytes : Bytes) : Except ToolError Text := do
  checkSize bytes.length max
  let current ← (decode bytes).elim (.error (.invalid (path ++ " is not UTF-8 text".toList))) .ok
  let count := occurrences old (current.length + 1) current
  ensure (count = 1) (.invalid ("old text occurs ".toList ++ Nat.toDigits 10 count ++
    " times in ".toList ++ path ++ "; it must occur exactly once".toList))
  let text :=
    match splitOnce old current with
    | some (before, rest) => before ++ new ++ rest
    | none => current
  checkSize (utf8Len text) max
  return text

def editFile (root : Inode) (max : Nat) (path old new : Text) : Program World ToolError Unit := do
  lift (ensure (!old.isEmpty) (.invalid "old text must not be empty".toList))
  let rel ← lift ((relativePath path false).mapError serviceError)
  let (file, size) ← openForWrite root rel path false
  lift (checkSize size max)
  let content ← (read file).orFail (ioError path)
  let text ← lift (edited max path old new (content.take (max + 1)))
  replaceContents file (encode text) path

end LocalAi.Workspace
