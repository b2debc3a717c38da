import LocalAi.Lib.Program
import LocalAi.Tools.Json

/-!
# A file system that others change

Inodes with directory entries and symbolic links, and the system calls of the file tools.
Before each call another process changes entries and contents as it likes; an inode is
never reused, so its kind stays.

* `Turn`: what happens before and around one call: the other process, a failure, where a
  followed link leads, the inode a creation gets.
* `World`: the file system, the turns to come and the calls so far, each with the file
  system it was made in.
-/

namespace LocalAi.Workspace

open Lib (Program)

abbrev Inode := Nat

abbrev Bytes := List UInt8

inductive FileKind
  | file
  | directory
  | symlink
  | special
deriving DecidableEq

inductive Node
  | file (content : Bytes)
  | directory
  | symlink
  | special

def Node.kind : Node → FileKind
  | .file _ => .file
  | .directory => .directory
  | .symlink => .symlink
  | .special => .special

structure Entry where
  dir : Inode
  name : Text
  target : Inode

structure Fs where
  node : Inode → Option Node
  entries : List Entry

namespace Fs

/-- What a name of a directory leads to. -/
def entry (fs : Fs) (dir : Inode) (name : Text) : Option Inode :=
  ((fs.entries.find? fun entry => entry.dir = dir ∧ entry.name = name).map Entry.target).filter
    fun inode => (fs.node inode).isSome

def kind (fs : Fs) (inode : Inode) : Option FileKind := (fs.node inode).map Node.kind

/-- `nlink`: the names of an inode. -/
def links (fs : Fs) (inode : Inode) : Nat := fs.entries.countP fun entry => entry.target = inode

def content (fs : Fs) (inode : Inode) : Bytes :=
  match fs.node inode with
  | some (.file content) => content
  | _ => []

theorem entry_kind {fs : Fs} {dir inode : Inode} {name : Text} (h : fs.entry dir name = some inode) :
    ∃ kind, fs.kind inode = some kind := by
  have hn := (Option.filter_eq_some_iff.mp h).2
  obtain ⟨node, hn⟩ := Option.isSome_iff_exists.mp hn
  exact ⟨node.kind, by rw [kind, hn, Option.map_some]⟩

def create (fs : Fs) (dir : Inode) (name : Text) (inode : Inode) (node : Node) : Fs where
  node := Function.update fs.node inode (some node)
  entries := fs.entries ++ [⟨dir, name, inode⟩]

def write (fs : Fs) (inode : Inode) (content : Bytes) : Fs :=
  { fs with node := Function.update fs.node inode (some (.file content)) }

/-- Every inode of `fs` is of the same kind in `later`. -/
def Kept (fs later : Fs) : Prop := ∀ inode kind, fs.kind inode = some kind → later.kind inode = some kind

theorem Kept.refl (fs : Fs) : fs.Kept fs := fun _ _ h => h

theorem Kept.trans {fs middle later : Fs} (h : fs.Kept middle) (h' : middle.Kept later) :
    fs.Kept later := fun inode kind hk => h' inode kind (h inode kind hk)

theorem create_kept {fs : Fs} {inode : Inode} (hf : fs.node inode = none) (dir : Inode)
    (name : Text) (node : Node) : fs.Kept (fs.create dir name inode node) := by
  intro other kind hk
  have hne : other ≠ inode := by
    rintro rfl
    rw [Fs.kind, hf] at hk
    cases hk
  show (Function.update fs.node inode (some node) other).map Node.kind = some kind
  rw [Function.update_of_ne hne]
  exact hk

theorem write_kept {fs : Fs} {inode : Inode} (hf : fs.kind inode = some .file) (content : Bytes) :
    fs.Kept (fs.write inode content) := by
  intro other kind hk
  show (Function.update fs.node inode (some (.file content)) other).map Node.kind = some kind
  by_cases hs : other = inode
  · subst hs
    rw [hf] at hk
    rw [Function.update_self]
    exact hk
  · rw [Function.update_of_ne hs]
    exact hk

end Fs

/-! ### Calls -/

/-- `io::ErrorKind`, as far as it is told apart. -/
inductive ErrorKind
  | notFound
  | notADirectory
  | permissionDenied
  | loop
  | other
deriving DecidableEq

structure Failure where
  kind : ErrorKind
  text : Text
deriving DecidableEq

structure Turn where
  change : Fs → Fs
  keeps : ∀ fs : Fs, fs.Kept (change fs)
  /-- The call fails. -/
  fault : Option Failure
  /-- Where a link that is followed leads. -/
  lands : Inode
  /-- The inode of what is created. -/
  fresh : Inode

/-- What opening `inode` leads to, through it if it is a link. -/
def Turn.follow (turn : Turn) (fs : Fs) (inode : Inode) : Inode :=
  if fs.kind inode = some .symlink then turn.lands else inode

def Turn.quiet (fresh : Inode) : Turn := ⟨id, fun _ => .refl _, none, 0, fresh⟩

inductive Action
  | lstat (dir : Inode) (name : Text)
  | openDir (dir : Inode) (name : Text)
  | openRead (dir : Inode) (name : Text)
  | openAt (dir : Inode) (name : Text) (create : Bool)
  | fstat (inode : Inode)
  | tryClone (dir : Inode)
  | mkdir (dir : Inode) (name : Text)
  | read (inode : Inode)
  | setLen (inode : Inode)
  | writeAt (inode : Inode)
deriving DecidableEq

structure World where
  fs : Fs
  script : List Turn
  trace : List (Fs × Action)

/-- One call: the other process acts, then the call is made. -/
def syscall {α : Type} (action : Action) (effect : Turn → Fs → Except Failure (α × Fs)) :
    Program World Failure α := fun w =>
  let turn := w.script.headD (.quiet 0)
  let fs := turn.change w.fs
  let made : World := ⟨fs, w.script.tail, w.trace ++ [(fs, action)]⟩
  match turn.fault with
  | some failure => (.error failure, made)
  | none =>
    match effect turn fs with
    | .error failure => (.error failure, made)
    | .ok (a, later) => (.ok a, { made with fs := later })

/-- What `stat` tells. -/
structure Metadata where
  inode : Inode
  kind : FileKind
  links : Nat
  size : Nat

def Fs.metadata (fs : Fs) (inode : Inode) : Metadata :=
  ⟨inode, (fs.kind inode).getD .special, fs.links inode, (fs.content inode).length⟩

def missing : Failure := ⟨.notFound, "No such file or directory (os error 2)".toList⟩

def notDirectory : Failure := ⟨.notADirectory, "Not a directory (os error 20)".toList⟩

def lstat (dir : Inode) (name : Text) : Program World Failure Metadata :=
  syscall (.lstat dir name) fun _ fs =>
    match fs.entry dir name with
    | none => .error missing
    | some inode => .ok (fs.metadata inode, fs)

/-- `Dir::open_dir`, which may follow a link. -/
def openDir (dir : Inode) (name : Text) : Program World Failure Inode :=
  syscall (.openDir dir name) fun turn fs =>
    match fs.entry dir name with
    | none => .error missing
    | some inode =>
      let reached := turn.follow fs inode
      if fs.kind reached = some .directory then .ok (reached, fs) else .error notDirectory

/-- `Dir::open`, which may follow a link. -/
def openRead (dir : Inode) (name : Text) : Program World Failure Inode :=
  syscall (.openRead dir name) fun turn fs =>
    match fs.entry dir name with
    | none => .error missing
    | some inode =>
      let reached := turn.follow fs inode
      if (fs.kind reached).isSome then .ok (reached, fs) else .error missing

/-- `openat` for reading and writing with `O_NOFOLLOW`, and with `O_CREAT` to `create`. -/
def openAt (dir : Inode) (name : Text) (create : Bool) : Program World Failure Inode :=
  syscall (.openAt dir name create) fun turn fs =>
    match fs.entry dir name with
    | none =>
      if create then
        if (fs.node turn.fresh).isNone then
          .ok (turn.fresh, fs.create dir name turn.fresh (.file []))
        else
          .error ⟨.other, "No space left on device (os error 28)".toList⟩
      else
        .error missing
    | some inode =>
      match fs.kind inode with
      | some .symlink => .error ⟨.loop, "Too many levels of symbolic links (os error 40)".toList⟩
      | some .directory => .error ⟨.other, "Is a directory (os error 21)".toList⟩
      | _ => .ok (inode, fs)

def fstat (inode : Inode) : Program World Failure Metadata :=
  syscall (.fstat inode) fun _ fs => .ok (fs.metadata inode, fs)

def tryClone (dir : Inode) : Program World Failure Inode :=
  syscall (.tryClone dir) fun _ fs => .ok (dir, fs)

/-- `Dir::create_dir` of one name. -/
def mkdir (dir : Inode) (name : Text) : Program World Failure Unit :=
  syscall (.mkdir dir name) fun turn fs =>
    match fs.entry dir name with
    | some _ => .error ⟨.other, "File exists (os error 17)".toList⟩
    | none =>
      if (fs.node turn.fresh).isNone then
        .ok ((), fs.create dir name turn.fresh .directory)
      else
        .error ⟨.other, "No space left on device (os error 28)".toList⟩

def read (inode : Inode) : Program World Failure Bytes :=
  syscall (.read inode) fun _ fs => .ok (fs.content inode, fs)

/-- `set_len(0)` of a regular file. -/
def setLen (inode : Inode) : Program World Failure Unit :=
  syscall (.setLen inode) fun _ fs =>
    if fs.kind inode = some .file then .ok ((), fs.write inode [])
    else .error ⟨.other, "Invalid argument (os error 22)".toList⟩

/-- `write_all_at` from the start of a regular file. -/
def writeAt (inode : Inode) (content : Bytes) : Program World Failure Unit :=
  syscall (.writeAt inode) fun _ fs =>
    if fs.kind inode = some .file then
      .ok ((), fs.write inode (content ++ (fs.content inode).drop content.length))
    else
      .error ⟨.other, "Invalid argument (os error 22)".toList⟩

end LocalAi.Workspace
