import LocalAi.Workspace.Open

/-!
# File tools stay under the root

Whatever another process does between two calls, a file that is opened was reached from
the root through real directories of the path's names, and only missing directories of
the path and its target are created.

* `Walked`: a directory handle that was inspected, name by name, from the root.
* `Confined`: what was created and written so far.
* `file_tools_stay_inside`.
-/

open List

namespace LocalAi.Workspace

open Lib (Program ensure bind_eq_ok ensure_eq_ok)

abbrev Trace := List (Fs × Action)

/-- A handle that is reached from the root through `names`: each was, when it was
inspected, a directory that is an entry of the handle before it. -/
inductive Walked (trace : Trace) (root : Inode) : List Text → Inode → Prop
  | root : Walked trace root [] root
  | step {names : List Text} {dir next : Inode} {name : Text} {fs : Fs}
      (prior : Walked trace root names dir) (inspected : (fs, .lstat dir name) ∈ trace)
      (entry : fs.entry dir name = some next) (kind : fs.kind next = some .directory) :
      Walked trace root (names ++ [name]) next

variable {trace : Trace} {action : Action}

theorem Walked.mono {more : Trace} {root dir : Inode} {names : List Text}
    (h : Walked trace root names dir) (hm : ∀ call ∈ trace, call ∈ more) :
    Walked more root names dir := by
  induction h with
  | root => exact .root
  | step prior inspected entry kind ih => exact .step ih (hm _ inspected) entry kind

def Action.creates : Action → Bool
  | .mkdir _ _ | .openAt _ _ true => true
  | _ => false

def Action.writes : Action → Bool
  | .setLen _ | .writeAt _ => true
  | _ => false

/-- What a call may create: a missing parent directory of `rel`, or `rel` itself. -/
def Allowed (root : Inode) (rel : List Text) (trace : Trace) (action : Action) : Prop :=
  ∃ names dir name, Walked trace root names dir ∧
    ((action = .mkdir dir name ∧ names ++ [name] <+: rel.dropLast) ∨
      (action = .openAt dir name true ∧ names ++ [name] = rel))

variable {rel : List Text}

theorem Allowed.mono {root : Inode} {more : Trace}
    (h : Allowed root rel trace action) (hm : ∀ call ∈ trace, call ∈ more) :
    Allowed root rel more action := by
  obtain ⟨names, dir, name, hw, hc⟩ := h
  exact ⟨names, dir, name, hw.mono hm, hc⟩

/-- Only what is allowed is created, and only when `create`; nothing is written. -/
structure Confined (root : Inode) (rel : List Text) (create : Bool) (trace : Trace) : Prop where
  created : ∀ call ∈ trace, call.2.creates = true → create = true ∧ Allowed root rel trace call.2
  unwritten : ∀ call ∈ trace, call.2.writes = false

theorem Confined.snoc {root : Inode} {create : Bool} (fs : Fs) (h : Confined root rel create trace)
    (hcreates : action.creates = true → create = true ∧ Allowed root rel trace action)
    (hw : action.writes = false) : Confined root rel create (trace ++ [(fs, action)]) := by
  have hm : ∀ call ∈ trace, call ∈ trace ++ [(fs, action)] := fun _ hmem => mem_append_left _ hmem
  constructor
  · intro call hc hcall_creates
    rcases mem_append.mp hc with hc | hc
    · obtain ⟨hcreate, ha⟩ := h.created call hc hcall_creates
      exact ⟨hcreate, ha.mono hm⟩
    · rw [mem_singleton.mp hc] at hcall_creates ⊢
      obtain ⟨hcreate, ha⟩ := hcreates hcall_creates
      exact ⟨hcreate, ha.mono hm⟩
  · intro call hc
    rcases mem_append.mp hc with hc | hc
    · exact h.unwritten call hc
    · rw [mem_singleton.mp hc]
      exact hw

/-- The invariant of a walk: inodes seen by earlier calls are of the same kind now. -/
structure Keeps (root : Inode) (rel : List Text) (create : Bool) (w : World) : Prop where
  coherent : ∀ call ∈ w.trace, call.1.Kept w.fs
  confined : Confined root rel create w.trace

/-- A fact of a trace that later calls keep. -/
def Lasting (fact : Trace → Prop) : Prop :=
  ∀ trace more, (∀ call ∈ trace, call ∈ more) → fact trace → fact more

theorem Lasting.and {fact fact' : Trace → Prop} (h : Lasting fact) (h' : Lasting fact') :
    Lasting fun trace => fact trace ∧ fact' trace :=
  fun trace more hm hb => ⟨h trace more hm hb.1, h' trace more hm hb.2⟩

theorem Lasting.const (p : Prop) : Lasting fun _ => p := fun _ _ _ h => h

def Holds (root : Inode) (rel : List Text) (create : Bool) (fact : Trace → Prop) (w : World) : Prop :=
  Keeps root rel create w ∧ fact w.trace

/-- What `lstat` saw of a name. -/
def Seen (dir : Inode) (name : Text) (seen : Metadata) (trace : Trace) : Prop :=
  ∃ fs, (fs, .lstat dir name) ∈ trace ∧ fs.entry dir name = some seen.inode ∧
    fs.kind seen.inode = some seen.kind

/-- A directory that was opened by a name, perhaps through a link. -/
def OpenedDir (dir : Inode) (name : Text) (next : Inode) (trace : Trace) : Prop :=
  ∃ fs, (fs, .openDir dir name) ∈ trace ∧ fs.kind next = some .directory

/-- What `fstat` told of an open handle. -/
def Told (inode : Inode) (told : Metadata) (trace : Trace) : Prop :=
  ∃ fs, (fs, .fstat inode) ∈ trace ∧ told = fs.metadata inode

def Opened (dir : Inode) (name : Text) (create : Bool) (file : Inode) (trace : Trace) : Prop :=
  ∃ fs, (fs, .openAt dir name create) ∈ trace ∧ (fs.entry dir name = some file ∨
    (create = true ∧ fs.entry dir name = none ∧ fs.node file = none))

theorem lasting_seen (dir : Inode) (name : Text) (seen : Metadata) : Lasting (Seen dir name seen) := by
  rintro trace more hm ⟨fs, hmem, he⟩
  exact ⟨fs, hm _ hmem, he⟩

theorem lasting_openedDir (dir : Inode) (name : Text) (next : Inode) :
    Lasting (OpenedDir dir name next) := by
  rintro trace more hm ⟨fs, hmem, hk⟩
  exact ⟨fs, hm _ hmem, hk⟩

theorem lasting_opened (dir : Inode) (name : Text) (create : Bool) (file : Inode) :
    Lasting (Opened dir name create file) := by
  rintro trace more hm ⟨fs, hmem, hc⟩
  exact ⟨fs, hm _ hmem, hc⟩

theorem lasting_walked (root : Inode) (names : List Text) (dir : Inode) :
    Lasting fun trace => Walked trace root names dir :=
  fun _ _ hm hw => hw.mono hm

section Calls

variable {α : Type} {root : Inode} {rel : List Text} {create : Bool} {fact : Trace → Prop}

theorem syscall_run (action : Action) (effect : Turn → Fs → Except Failure (α × Fs)) (w : World) :
    let turn := w.script.headD (.quiet 0)
    let fs := turn.change w.fs
    syscall action effect w =
      match turn.fault with
      | some failure => (.error failure, ⟨fs, w.script.tail, w.trace ++ [(fs, action)]⟩)
      | none =>
        match effect turn fs with
        | .error failure => (.error failure, ⟨fs, w.script.tail, w.trace ++ [(fs, action)]⟩)
        | .ok (a, later) => (.ok a, ⟨later, w.script.tail, w.trace ++ [(fs, action)]⟩) :=
  rfl

theorem syscall_ensures {effect : Turn → Fs → Except Failure (α × Fs)}
    (hk : ∀ turn fs a later, effect turn fs = .ok (a, later) → fs.Kept later) (hf : Lasting fact)
    (hcr : ∀ trace, fact trace → action.creates = true → create = true ∧
      Allowed root rel trace action) (hwrs : action.writes = false) :
    (syscall action effect).Ensures (fun w => Keeps root rel create w ∧ fact w.trace)
      (fun a w => Keeps root rel create w ∧ fact w.trace ∧ ∃ turn fs later,
        (fs, action) ∈ w.trace ∧ effect turn fs = .ok (a, later) ∧ later = w.fs)
      (fun w => Keeps root rel create w ∧ fact w.trace) := by
  intro w hw
  obtain ⟨⟨hco, hc⟩, hw⟩ := hw
  let turn := w.script.headD (.quiet 0)
  let fs := turn.change w.fs
  have hmo : ∀ call ∈ w.trace, call ∈ w.trace ++ [(fs, action)] :=
    fun _ hmem => mem_append_left _ hmem
  have hc' := hc.snoc fs (hcr w.trace hw) hwrs
  have hl : ∀ later : Fs, fs.Kept later → ∀ call ∈ w.trace ++ [(fs, action)],
      call.1.Kept later := by
    intro later hl call hca
    rcases mem_append.mp hca with hca | hca
    · exact ((hco call hca).trans (turn.keeps w.fs)).trans hl
    · rw [mem_singleton.mp hca]
      exact hl
  have hm : Keeps root rel create ⟨fs, w.script.tail, w.trace ++ [(fs, action)]⟩ ∧
      fact (w.trace ++ [(fs, action)]) :=
    ⟨⟨hl fs (.refl fs), hc'⟩, hf _ _ hmo hw⟩
  rw [syscall_run]
  cases turn.fault with
  | some => exact ⟨fun _ h => (by cases h), fun _ _ => hm⟩
  | none =>
    cases heff : effect turn fs with
    | error => exact ⟨fun _ h => (by cases h), fun _ _ => hm⟩
    | ok result =>
      obtain ⟨a, later⟩ := result
      refine ⟨fun b hb => ?_, fun _ h => (by cases h)⟩
      cases hb
      exact ⟨⟨hl later (hk turn fs a later heff), hc'⟩, hm.2, turn, fs, later,
        mem_append_right _ mem_cons_self, heff, rfl⟩

theorem look_ensures {effect : Turn → Fs → Except Failure (α × Fs)}
    {seen : α → Trace → Prop} (hf : Lasting fact) (hcr : action.creates = false)
    (hwr : action.writes = false) (hs : ∀ turn fs a later, effect turn fs = .ok (a, later) →
      later = fs ∧ ∀ trace, (fs, action) ∈ trace → seen a trace) :
    (syscall action effect).Ensures (Holds root rel create fact)
      (fun a => Holds root rel create fun trace => fact trace ∧ seen a trace)
      (Holds root rel create fact) := by
  refine (syscall_ensures ?_ hf (fun _ _ h => ?_) hwr).weaken (fun _ h => h) ?_ (fun _ h => h)
  · intro turn fs a later he
    rw [(hs turn fs a later he).1]
    exact .refl fs
  · rw [hcr] at h
    cases h
  · rintro a w ⟨hk, hw, turn, fs, later, hm, he, -⟩
    exact ⟨hk, hw, (hs turn fs a later he).2 _ hm⟩

/-- A call whose failure is reported. -/
theorem Holds.orFail {ε : Type} {x : Program World Failure α} {f : Failure → ε}
    {Q : α → World → Prop} (h : x.Ensures (Holds root rel create fact) Q (Holds root rel create fact)) :
    (x.orFail f).Ensures (Holds root rel create fact) Q (Keeps root rel create) :=
  Program.Ensures.orFail h |>.weaken (fun _ h => h) (fun _ _ h => h) fun _ h => h.1

variable {dir inode : Inode} {name : Text}

theorem lstat_ensures (hfa : Lasting fact) : (lstat dir name).Ensures (Holds root rel create fact)
      (fun seen => Holds root rel create fun trace => fact trace ∧ Seen dir name seen trace)
      (Holds root rel create fact) := by
  refine look_ensures hfa rfl rfl fun turn fs a later he => ?_
  split at he
  · cases he
  · next found hf =>
    cases he
    obtain ⟨kind, hki⟩ := Fs.entry_kind hf
    refine ⟨rfl, fun trace hm => ⟨fs, hm, hf, ?_⟩⟩
    simp only [Fs.metadata, hki, Option.getD_some]

theorem openDir_ensures (hf : Lasting fact) :
    (openDir dir name).Ensures (Holds root rel create fact)
      (fun next => Holds root rel create fun trace => fact trace ∧ OpenedDir dir name next trace)
      (Holds root rel create fact) := by
  refine look_ensures hf rfl rfl fun turn fs a later he => ?_
  dsimp only at he
  split at he
  · cases he
  · split at he
    · next hki =>
      cases he
      exact ⟨rfl, fun trace hm => ⟨fs, hm, hki⟩⟩
    · cases he

theorem openRead_ensures (hf : Lasting fact) :
    (openRead dir name).Ensures (Holds root rel create fact) (fun _ => Holds root rel create fact)
      (Holds root rel create fact) := by
  refine (syscall_ensures ?_ hf (fun _ _ h => (by cases h)) rfl).weaken (fun _ h => h)
    (fun file w h => ⟨h.1, h.2.1⟩) (fun _ h => h)
  intro turn fs a later he
  dsimp only at he
  split at he
  · cases he
  · split at he
    · cases he
      exact .refl fs
    · cases he

theorem fstat_ensures (hf : Lasting fact) : (fstat inode).Ensures (Holds root rel create fact)
      (fun told => Holds root rel create fun trace => fact trace ∧ Told inode told trace)
      (Holds root rel create fact) := by
  refine look_ensures hf rfl rfl fun turn fs a later he => ?_
  cases he
  exact ⟨rfl, fun trace hm => ⟨fs, hm, rfl⟩⟩

theorem tryClone_ensures (hf : Lasting fact) : (tryClone dir).Ensures (Holds root rel create fact)
      (fun handle => Holds root rel create fun trace => fact trace ∧ handle = dir)
      (Holds root rel create fact) := by
  refine look_ensures hf rfl rfl fun turn fs a later he => ?_
  cases he
  exact ⟨rfl, fun _ _ => rfl⟩

theorem mkdir_ensures (hfa : Lasting fact) (hc : create = true)
    (ha : ∀ trace, fact trace → Allowed root rel trace (.mkdir dir name)) :
    (mkdir dir name).Ensures (Holds root rel create fact) (fun _ => Holds root rel create fact)
      (Holds root rel create fact) := by
  refine (syscall_ensures ?_ hfa (fun trace ht _ => ⟨hc, ha trace ht⟩) rfl).weaken
    (fun _ h => h) ?_ (fun _ h => h)
  · intro turn fs a later he
    split at he
    · cases he
    · split at he
      · next hf =>
        cases he
        exact Fs.create_kept (Option.isNone_iff_eq_none.mp hf) _ _ _
      · cases he
  · rintro _ w ⟨hk, hw, -⟩
    exact ⟨hk, hw⟩

theorem openAt_ensures (hfa : Lasting fact) {creating : Bool}
    (ha : ∀ trace, fact trace → creating = true → create = true ∧
      Allowed root rel trace (.openAt dir name true)) :
    (openAt dir name creating).Ensures (Holds root rel create fact)
      (fun file => Holds root rel create fun trace => fact trace ∧ Opened dir name creating file trace)
      (Holds root rel create fact) := by
  refine (syscall_ensures ?_ hfa ?_ ?_).weaken (fun _ h => h) ?_ (fun _ h => h)
  · intro turn fs a later he
    split at he
    · split at he
      · split at he
        · next hf =>
          cases he
          exact Fs.create_kept (Option.isNone_iff_eq_none.mp hf) _ _ _
        · cases he
      · cases he
    · split at he
      · cases he
      · cases he
      · cases he
        exact .refl fs
  · intro trace ht hcr
    cases creating with
    | true => exact ha trace ht rfl
    | false => cases hcr
  · cases creating <;> rfl
  · rintro file w ⟨hk, hw, turn, fs, later, hm, he, -⟩
    refine ⟨hk, hw, fs, hm, ?_⟩
    split at he
    · next hn =>
      split at he
      · next hc =>
        split at he
        · next hf =>
          cases he
          exact .inr ⟨hc, hn, Option.isNone_iff_eq_none.mp hf⟩
        · cases he
      · cases he
    · next found hfo =>
      split at he
      · cases he
      · cases he
      · cases he
        exact .inl hfo

end Calls

/-! ### Walks -/

/-- A file that was, when it was inspected, an entry of the last handle. -/
def ReadFrom (root : Inode) (rel : List Text) (file : Inode) (trace : Trace) : Prop :=
  ∃ names name dir fs, names ++ [name] = rel ∧ Walked trace root names dir ∧
    (fs, .lstat dir name) ∈ trace ∧ fs.entry dir name = some file ∧ fs.kind file = some .file

/-- A file that was an entry of the last handle when it was opened there, or was created
there; through the open handle it was a regular file without another link. -/
def WrittenAt (root : Inode) (rel : List Text) (file : Inode) (trace : Trace) : Prop :=
  ∃ names name dir creating fs, names ++ [name] = rel ∧ Walked trace root names dir ∧
    Opened dir name creating file trace ∧ (fs, .fstat file) ∈ trace ∧ fs.kind file = some .file ∧
    fs.links file ≤ 1

section Walks

variable {root : Inode} {rel : List Text} {create : Bool} {names : List Text} {dir next : Inode}
  {name : Text} {seen : Metadata}

theorem Keeps.step {w : World} (h : Keeps root rel create w) (hw : Walked w.trace root names dir)
    (hs : Seen dir name seen w.trace) (ho : OpenedDir dir name next w.trace)
    (hsa : next = seen.inode) : Walked w.trace root (names ++ [name]) next := by
  obtain ⟨fs, hm, he, hk⟩ := hs
  obtain ⟨fs', hm', hk'⟩ := ho
  rw [← hsa] at he hk
  -- the inode is of one kind at both times
  have hn := h.coherent _ hm next seen.kind hk
  rw [h.coherent _ hm' next .directory hk'] at hn
  rw [← Option.some.inj hn] at hk
  exact .step hw hm he hk

theorem Told.inode {inode : Inode} {told : Metadata} (h : Told inode told trace) :
    told.inode = inode := by
  obtain ⟨fs, -, rfl⟩ := h
  rfl

theorem openSame_ensures {ε : Type} {openFailed statFailed : Failure → ε} {differs : ε} :
    (openSame openFailed statFailed differs dir name seen).Ensures
      (Holds root rel create fun trace => Walked trace root names dir ∧ Seen dir name seen trace)
      (fun next => Holds root rel create fun trace => Walked trace root (names ++ [name]) next)
      (Keeps root rel create) := by
  have hl := (lasting_walked root names dir).and (lasting_seen dir name seen)
  refine .bind (Holds.orFail (openDir_ensures hl)) fun next => ?_
  refine .bind (Holds.orFail (fstat_ensures (hl.and (lasting_openedDir dir name next))))
    fun opened => ?_
  split
  · exact .throw fun w h => h.1
  · next hs =>
    refine .pure ?_
    rintro w ⟨hk, ⟨⟨hw, hse⟩, ho⟩, ht⟩
    rw [ht.inode, ne_eq, Decidable.not_not] at hs
    exact ⟨hk, hk.step hw hse ho hs⟩

variable {display : Text}

theorem openLast_ensures (hr : names ++ [name] = rel) : (openLast display dir name seen).Ensures
      (Holds root rel create fun trace => Walked trace root names dir ∧ Seen dir name seen trace)
      (fun result => Holds root rel create (ReadFrom root rel result.1)) (Keeps root rel create) := by
  have hl := (lasting_walked root names dir).and (lasting_seen dir name seen)
  unfold openLast
  split
  · exact .throw fun w h => h.1
  · next hf =>
    refine .bind (Holds.orFail (openRead_ensures hl)) fun file => ?_
    refine .bind (Holds.orFail (fstat_ensures hl)) fun metadata => ?_
    split
    · exact .throw fun w h => h.1
    · next hs =>
      refine .pure ?_
      rintro w ⟨hke, ⟨hw, fs, hm, he, hk⟩, ht⟩
      rw [ht.inode, not_or, ne_eq, ne_eq, Decidable.not_not, Decidable.not_not] at hs
      rw [ne_eq, Decidable.not_not] at hf
      rw [hf, ← hs.2] at hk
      rw [← hs.2] at he
      exact ⟨hke, names, name, dir, fs, hr, hw, hm, he, hk⟩

theorem openFile_ensures (display : Text) (rest : List Text) :
    ∀ names dir, names ++ rest = rel → (openFile display dir rest).Ensures
      (Holds root rel create fun trace => Walked trace root names dir)
      (fun result => Holds root rel create (ReadFrom root rel result.1)) (Keeps root rel create) := by
  induction rest with
  | nil => exact fun names dir _ => .throw fun w h => h.1
  | cons name rest ih =>
    intro names dir hr
    refine .bind (Holds.orFail (lstat_ensures (lasting_walked root names dir))) fun seen => ?_
    split
    · exact .throw fun w h => h.1
    · split
      · next hl =>
        rw [isEmpty_iff.mp hl] at hr
        exact openLast_ensures hr
      · refine .bind openSame_ensures fun next => ?_
        refine ih (names ++ [name]) next ?_
        rw [append_assoc, singleton_append, hr]

theorem enter_ensures : (enter display dir name seen).Ensures
      (Holds root rel create fun trace => Walked trace root names dir ∧ Seen dir name seen trace)
      (fun next => Holds root rel create fun trace => Walked trace root (names ++ [name]) next)
      (Keeps root rel create) := by
  unfold enter
  split
  · exact .throw fun w h => h.1
  · split
    · exact .throw fun w h => h.1
    · exact openSame_ensures

theorem inspectPart_ensures (hr : names ++ [name] <+: rel.dropLast) :
    (inspectPart display create dir name).Ensures
      (Holds root rel create fun trace => Walked trace root names dir)
      (fun seen => Holds root rel create fun trace =>
        Walked trace root names dir ∧ Seen dir name seen trace) (Keeps root rel create) := by
  have hw := lasting_walked root names dir
  refine .bind (lstat_ensures hw).attempt fun outcome => ?_
  cases outcome with
  | ok => exact .pure fun w h => h
  | error =>
    dsimp only
    split
    · next hc =>
      refine .bind (Holds.orFail (mkdir_ensures hw hc.2 ?_)) fun _ => ?_
      · exact fun trace ht => ⟨names, dir, name, ht, .inl ⟨rfl, hr⟩⟩
      · exact Holds.orFail (lstat_ensures hw)
    · exact .throw fun w h => h.1

/-- The parents of a write, from a handle that was reached through `names`. -/
theorem openParts_ensures (display : Text) (parts : List Text) :
    ∀ names dir, names ++ parts = rel.dropLast → (openParts display create dir parts).Ensures
      (Holds root rel create fun trace => Walked trace root names dir)
      (fun parent => Holds root rel create fun trace => Walked trace root rel.dropLast parent)
      (Keeps root rel create) := by
  induction parts with
  | nil =>
    intro names dir hr
    rw [append_nil] at hr
    rw [← hr]
    exact .pure fun w h => h
  | cons part parts ih =>
    intro names dir hr
    have hs : names ++ [part] ++ parts = rel.dropLast := by
      rw [append_assoc, singleton_append, hr]
    refine .bind (inspectPart_ensures ⟨parts, hs⟩) fun seen => ?_
    exact .bind enter_ensures fun next => ih (names ++ [part]) next hs

theorem openParent_ensures :
    (openParent root rel create).Ensures (Holds root rel create fun _ => True)
      (fun result => Holds root rel create fun trace =>
        Walked trace root rel.dropLast result.1 ∧ rel.dropLast ++ [result.2] = rel)
      (Keeps root rel create) := by
  unfold openParent
  cases hl : rel.getLast? with
  | none => exact .throw fun w h => h.1
  | some name =>
    refine .bind (Holds.orFail (tryClone_ensures (Lasting.const True))) fun handle => ?_
    refine .bind ((openParts_ensures (displayPath rel) rel.dropLast [] handle rfl).weaken ?_
      (fun _ _ h => h) (fun _ h => h)) fun dir => ?_
    · rintro w ⟨hk, -, rfl⟩
      exact ⟨hk, .root⟩
    · refine .pure fun w h => ⟨h.1, h.2, ?_⟩
      exact dropLast_append_getLast? name hl

theorem checkTarget_ensures {fact : Trace → Prop} (hf : Lasting fact) :
    (checkTarget dir name display create).Ensures (Holds root rel create fact)
      (fun seen => Holds root rel create fun trace => fact trace ∧ (seen = none → create = true))
      (Keeps root rel create) := by
  refine .bind (lstat_ensures hf).attempt fun outcome => ?_
  cases outcome with
  | ok =>
    dsimp only
    split
    · exact .throw fun w h => h.1
    · split
      · exact .throw fun w h => h.1
      · split
        · exact .pure fun w h => ⟨h.1, h.2.1, nofun⟩
        · exact .throw fun w h => h.1
  | error =>
    dsimp only
    split
    · next hc => exact .pure fun w h => ⟨h.1, h.2, fun _ => hc.2⟩
    · exact .throw fun w h => h.1

theorem openTarget_ensures {found : Option Inode} (hr : names ++ [name] = rel)
    (hfo : found = none → create = true) : (openTarget dir name display found).Ensures
      (Holds root rel create fun trace => Walked trace root names dir)
      (fun result => Holds root rel create (WrittenAt root rel result.1)) (Keeps root rel create) := by
  have hwa := lasting_walked root names dir
  refine .bind (Holds.orFail (openAt_ensures hwa ?_)) fun file => ?_
  · intro trace ht hn
    exact ⟨hfo (Option.isNone_iff_eq_none.mp hn), names, dir, name, ht, .inr ⟨rfl, hr⟩⟩
  · refine .bind (Holds.orFail
      (fstat_ensures (hwa.and (lasting_opened dir name found.isNone file)))) fun opened => ?_
    split
    · exact .throw fun w h => h.1
    · next hf =>
      split
      · exact .throw fun w h => h.1
      · next hl =>
        split
        · exact .throw fun w h => h.1
        · refine .pure ?_
          rintro w ⟨hke, ⟨hw, ho⟩, fs, hm, rfl⟩
          rw [ne_eq, Decidable.not_not] at hf
          refine ⟨hke, names, name, dir, found.isNone, fs, hr, hw, ho, hm, ?_, Nat.not_lt.mp hl⟩
          simp only [Fs.metadata] at hf
          cases hk : fs.kind file with
          | none =>
            rw [hk] at hf
            cases hf
          | some =>
            rw [hk, Option.getD_some] at hf
            rw [hf]

theorem openForWrite_ensures {display : Text} :
    (openForWrite root rel display create).Ensures (Holds root rel create fun _ => True)
      (fun result => Holds root rel create (WrittenAt root rel result.1)) (Keeps root rel create) := by
  refine .bind openParent_ensures fun parent => ?_
  obtain ⟨dir, name⟩ := parent
  have hl := (lasting_walked root rel.dropLast dir).and (.const (rel.dropLast ++ [name] = rel))
  refine .bind (checkTarget_ensures hl) fun seen => ?_
  intro w hw
  obtain ⟨hk, ⟨hwa, hr⟩, hs⟩ := hw
  exact openTarget_ensures hr hs w ⟨hk, hwa⟩

end Walks

/-! ### Path texts -/

def normalNames (path : Text) : List Text :=
  (components path).filterMap fun part =>
    match part with
    | .normal name => some name
    | _ => none

theorem relativeNames_eq_ok {input : Text} {parts : List Component}
    (h : relativeNames input parts = .ok rel) : rel = parts.filterMap (fun part =>
      match part with
      | .normal name => some name
      | _ => none) ∧ ∀ name ∈ rel, isGitDirName name = false := by
  induction parts generalizing rel with
  | nil =>
    cases h
    exact ⟨rfl, nofun⟩
  | cons part parts ih =>
    cases part with
    | rootDir => cases h
    | parentDir => cases h
    | curDir => exact ih h
    | normal =>
      simp only [relativeNames, bind_eq_ok, ensure_eq_ok] at h
      obtain ⟨-, hg, rest, hr, hok⟩ := h
      cases hok
      obtain ⟨hn, ha⟩ := ih hr
      refine ⟨?_, ?_⟩
      · rw [hn]
        rfl
      · intro other ho
        rcases mem_cons.mp ho with rfl | ho
        · simpa using hg
        · exact ha other ho

theorem relativePath_eq_ok {path : Text} {allowRoot : Bool}
    (h : relativePath path allowRoot = .ok rel) :
    rel = normalNames path ∧ ∀ name ∈ rel, isGitDirName name = false := by
  simp only [relativePath, bind_eq_ok] at h
  obtain ⟨-, -, names, hn, -, -, hok⟩ := h
  cases hok
  exact relativeNames_eq_ok hn

theorem keeps_start (root : Inode) (rel : List Text) (create : Bool) (fs : Fs) (script : List Turn) :
    Keeps root rel create ⟨fs, script, []⟩ :=
  ⟨nofun, ⟨nofun, nofun⟩⟩

/-- For every path text, file system and other process: what is opened was reached from the
root through real directories of the path's names, and nothing else is created or written. -/
theorem file_tools_stay_inside (root : Inode) (path : Text) (rel : List Text)
    (hpath : relativePath path false = .ok rel) (display : Text) (fs : Fs) (script : List Turn)
    (create : Bool) : rel = normalNames path ∧ (∀ name ∈ rel, isGitDirName name = false) ∧
    Confined root rel false (openFile display root rel ⟨fs, script, []⟩).2.trace ∧
    (∀ file metadata, (openFile display root rel ⟨fs, script, []⟩).1 = .ok (file, metadata) →
      ReadFrom root rel file (openFile display root rel ⟨fs, script, []⟩).2.trace) ∧
    Confined root rel create (openForWrite root rel display create ⟨fs, script, []⟩).2.trace ∧
    ∀ file size, (openForWrite root rel display create ⟨fs, script, []⟩).1 = .ok (file, size) →
      WrittenAt root rel file (openForWrite root rel display create ⟨fs, script, []⟩).2.trace := by
  obtain ⟨hn, hg⟩ := relativePath_eq_ok hpath
  obtain ⟨hr, hr'⟩ := openFile_ensures display rel [] root rfl ⟨fs, script, []⟩
    ⟨keeps_start root rel false fs script, .root⟩
  obtain ⟨hw, hw'⟩ := @openForWrite_ensures root rel create display ⟨fs, script, []⟩
    ⟨keeps_start root rel create fs script, trivial⟩
  refine ⟨hn, hg, ?_, ?_, ?_, ?_⟩
  · cases hres : (openFile display root rel ⟨fs, script, []⟩).1 with
    | ok result => exact (hr result hres).1.confined
    | error e => exact (hr' e hres).confined
  · exact fun file metadata hok => (hr (file, metadata) hok).2
  · cases hres : (openForWrite root rel display create ⟨fs, script, []⟩).1 with
    | ok result => exact (hw result hres).1.confined
    | error e => exact (hw' e hres).confined
  · exact fun file size hok => (hw (file, size) hok).2

/-- A root with a directory `d` that holds a file `f`. -/
def someFs : Fs where
  node := fun inode =>
    match inode with
    | 1 | 2 => some .directory
    | 3 => some (.file [])
    | _ => none
  entries := [⟨1, "d".toList, 2⟩, ⟨2, "f".toList, 3⟩]

/-- The other process moves `d` away and puts a link there. -/
def relinks : Turn :=
  ⟨fun fs => { fs with entries := [⟨1, "e".toList, 2⟩, ⟨2, "f".toList, 3⟩, ⟨1, "d".toList, 4⟩] },
    fun _ _ _ h => h, none, 0, 0⟩

def midway : List Turn := [.quiet 0, .quiet 0, .quiet 0, relinks]

/-- `d` was opened before it is moved, and the file is found in it all the same. -/
theorem file_tools_stay_inside_some :
    (openFile [] 1 ["d".toList, "f".toList] ⟨someFs, midway, []⟩).1 = .ok (3, ⟨3, .file, 1, 0⟩) ∧
    ReadFrom 1 ["d".toList, "f".toList] 3
      (openFile [] 1 ["d".toList, "f".toList] ⟨someFs, midway, []⟩).2.trace ∧
    (openForWrite 1 ["d".toList, "f".toList] [] true ⟨someFs, midway, []⟩).1 = .ok (3, 0) ∧
    WrittenAt 1 ["d".toList, "f".toList] 3
      (openForWrite 1 ["d".toList, "f".toList] [] true ⟨someFs, midway, []⟩).2.trace := by
  have hp : relativePath "d/./f".toList false = .ok ["d".toList, "f".toList] := by decide
  obtain ⟨-, -, -, hr, -, hw⟩ :=
    file_tools_stay_inside 1 "d/./f".toList _ hp [] someFs midway true
  exact ⟨rfl, hr 3 _ rfl, rfl, hw 3 0 rfl⟩

/-- The other process takes every name away. -/
def unlinks : Turn := ⟨fun fs => { fs with entries := [] }, fun _ _ _ h => h, none, 0, 0⟩

/-- A file that is unlinked after it is opened: no name is left when its links are checked. -/
theorem opened_without_links :
    (openForWrite 2 ["f".toList] [] true ⟨someFs, [.quiet 0, .quiet 0, .quiet 0, unlinks], []⟩).1
      = .ok (3, 0) ∧ (openForWrite 2 ["f".toList] [] true
        ⟨someFs, [.quiet 0, .quiet 0, .quiet 0, unlinks], []⟩).2.trace.filterMap (fun call =>
      if call.2 = .fstat 3 then some (call.1.links 3) else none) = [0] :=
  ⟨rfl, rfl⟩

end LocalAi.Workspace
