import LocalAi.Workspace.Open
import LocalAi.Lib.Utf8

/-!
# Edits of one occurrence

An edit counts the occurrences of a text from left to right without overlap and replaces the
first, on a file system that nothing else changes.

* `Settles`: a program that touches nothing, and the values it succeeds with.
* `Holds`: a path leads to a file with a content.
* `editFile_finishes`: an edit of the file a path leads to.
* `Crowded`: several occurrences that all overlap.
* `editFile_once_iff`: an edit replaces the one occurrence or nothing, but for them.
-/

open List

namespace LocalAi.Workspace

open Lib (Program ensure splitOnce utf8Bytes)

/-! ### Programs that touch nothing -/

/-- On `fs`, with no other process and no fault, `x` ends as `r` and leaves `fs` as it is. -/
def Gives {ε α : Type} (x : Program World ε α) (fs : Fs) (r : Except ε α) : Prop :=
  ∀ trace, ∃ trace', x ⟨fs, [], trace⟩ = (r, ⟨fs, [], trace'⟩)

def Settles {ε α : Type} (x : Program World ε α) (fs : Fs) (p : α → Prop) : Prop :=
  ∃ r, Gives x fs r ∧ ∀ a, r = .ok a ↔ p a

section Rules

variable {ε ε' α β : Type} {fs : Fs} {x : Program World ε α} {p : α → Prop}

variable {f : α → Program World ε β}

theorem Gives.bind {a : α} {r : Except ε β} (hx : Gives x fs (.ok a))
    (hf : Gives (f a) fs r) : Gives (x >>= f) fs r := by
  intro trace
  obtain ⟨trace', hr⟩ := hx trace
  obtain ⟨trace'', hr'⟩ := hf trace'
  refine ⟨trace'', ?_⟩
  rw [Program.bind_apply, hr]
  exact hr'

theorem Gives.fail {e : ε} (hx : Gives x fs (.error e)) :
    Gives (x >>= f) fs (.error e) := by
  intro trace
  obtain ⟨trace', hr⟩ := hx trace
  refine ⟨trace', ?_⟩
  rw [Program.bind_apply, hr]

theorem Gives.attempt {r : Except ε α} (hx : Gives x fs r) :
    Gives (x.attempt : Program World ε' (Except ε α)) fs (.ok r) := by
  intro trace
  obtain ⟨trace', hr⟩ := hx trace
  exact ⟨trace', by unfold Program.attempt; rw [hr]⟩

theorem Settles.pure (a : α) : Settles (pure a : Program World ε α) fs (· = a) :=
  ⟨.ok a, fun trace => ⟨trace, rfl⟩, fun b => ⟨fun h => (by cases h; rfl), fun h => by rw [h]⟩⟩

theorem Settles.throw (e : ε) : Settles (Program.throw e : Program World ε α) fs fun _ => False :=
  ⟨.error e, fun trace => ⟨trace, rfl⟩, fun _ => ⟨nofun, fun h => False.elim h⟩⟩

theorem Settles.congr {q : α → Prop} (h : Settles x fs p) (hpq : ∀ a, p a ↔ q a) :
    Settles x fs q := by
  obtain ⟨r, hr, hp⟩ := h
  exact ⟨r, hr, fun a => (hp a).trans (hpq a)⟩

theorem Settles.bind {q : α → β → Prop} (hx : Settles x fs p)
    (hf : ∀ a, p a → Settles (f a) fs (q a)) :
    Settles (x >>= f) fs fun b => ∃ a, p a ∧ q a b := by
  obtain ⟨r, hr, hp⟩ := hx
  cases r with
  | error e =>
    refine ⟨.error e, hr.fail, fun b => ⟨nofun, ?_⟩⟩
    rintro ⟨a, ha, -⟩
    cases (hp a).mpr ha
  | ok a =>
    obtain ⟨r', hr', hq⟩ := hf a ((hp a).mp rfl)
    refine ⟨r', hr.bind hr', fun b => (hq b).trans ⟨fun h => ⟨a, (hp a).mp rfl, h⟩, ?_⟩⟩
    rintro ⟨a', ha', h⟩
    cases (hp a').mpr ha'
    exact h

theorem Settles.orFail (h : Settles x fs p) (f : ε → ε') : Settles (x.orFail f) fs p := by
  obtain ⟨r, hr, hp⟩ := h
  refine ⟨r.mapError f, fun trace => ?_, fun a => Lib.mapError_eq_ok.trans (hp a)⟩
  obtain ⟨trace', hrun⟩ := hr trace
  exact ⟨trace', by unfold Program.orFail; rw [hrun]⟩

theorem settles_lift (r : Except ToolError α) : Settles (lift r) fs fun a => r = .ok a := by
  cases r with
  | ok a => exact (Settles.pure a).congr fun b => ⟨fun h => (by rw [h]), fun h => by cases h; rfl⟩
  | error e => exact (Settles.throw e).congr fun b => ⟨fun h => False.elim h, fun h => by cases h⟩

theorem Settles.attempt {f : Except ε α → Program World ε' β} {q : α → β → Prop}
    (hx : Settles x fs p) (hok : ∀ a, p a → Settles (f (.ok a)) fs (q a))
    (he : ∀ e, Settles (f (.error e)) fs fun _ => False) :
    Settles (x.attempt >>= f) fs fun b => ∃ a, p a ∧ q a b := by
  obtain ⟨r, hr, hp⟩ := hx
  cases r with
  | error e =>
    obtain ⟨r', hr', hf⟩ := he e
    refine ⟨r', hr.attempt.bind hr', fun b => (hf b).trans ⟨fun h => False.elim h, ?_⟩⟩
    rintro ⟨a, ha, -⟩
    cases (hp a).mpr ha
  | ok a =>
    obtain ⟨r', hr', hq⟩ := hok a ((hp a).mp rfl)
    refine ⟨r', hr.attempt.bind hr', fun b => (hq b).trans ⟨fun h => ⟨a, (hp a).mp rfl, h⟩, ?_⟩⟩
    rintro ⟨a', ha', h⟩
    cases (hp a').mpr ha'
    exact h

end Rules

variable {dir inode root : Inode} {name new path : Text} {max : Nat}

section Calls

variable {fs : Fs}

theorem gives_lstat (dir : Inode) (name : Text) : Gives (lstat dir name) fs
    (match fs.entry dir name with
      | none => .error missing
      | some inode => .ok (fs.metadata inode)) := by
  intro trace
  unfold lstat syscall
  refine ⟨trace ++ [(fs, .lstat dir name)], ?_⟩
  cases h : fs.entry dir name <;> simp [Turn.quiet, h]

theorem settles_lstat (dir : Inode) (name : Text) : Settles (lstat dir name) fs
    fun seen => ∃ inode, fs.entry dir name = some inode ∧ seen = fs.metadata inode := by
  refine ⟨_, gives_lstat dir name, fun seen => ?_⟩
  cases fs.entry dir name with
  | none => simp
  | some => simp [eq_comm]

theorem settles_openDir (he : fs.entry dir name = some inode)
    (hk : fs.kind inode = some .directory) : Settles (openDir dir name) fs (· = inode) := by
  refine ⟨.ok inode, fun trace => ?_, fun a => ⟨fun h => (by cases h; rfl), fun h => by rw [h]⟩⟩
  unfold openDir syscall
  exact ⟨trace ++ [(fs, .openDir dir name)], by simp [Turn.quiet, Turn.follow, he, hk]⟩

theorem settles_fstat (inode : Inode) : Settles (fstat inode) fs (· = fs.metadata inode) :=
  ⟨.ok (fs.metadata inode), fun _ => ⟨_, rfl⟩,
    fun a => ⟨fun h => (by cases h; rfl), fun h => by rw [h]⟩⟩

theorem settles_tryClone (dir : Inode) : Settles (tryClone dir) fs (· = dir) :=
  ⟨.ok dir, fun _ => ⟨_, rfl⟩, fun a => ⟨fun h => (by cases h; rfl), fun h => by rw [h]⟩⟩

theorem settles_read (inode : Inode) : Settles (read inode) fs (· = fs.content inode) :=
  ⟨.ok (fs.content inode), fun _ => ⟨_, rfl⟩,
    fun a => ⟨fun h => (by cases h; rfl), fun h => by rw [h]⟩⟩

theorem settles_openAt (he : fs.entry dir name = some inode)
    (hk : fs.kind inode = some .file) : Settles (openAt dir name false) fs (· = inode) := by
  refine ⟨.ok inode, fun trace => ?_, fun a => ⟨fun h => (by cases h; rfl), fun h => by rw [h]⟩⟩
  unfold openAt syscall
  exact ⟨trace ++ [(fs, .openAt dir name false)], by simp [Turn.quiet, he, hk]⟩

end Calls

/-! ### Where a path leads -/

def Fs.resolve (fs : Fs) : Inode → List Text → Option Inode
  | dir, [] => some dir
  | dir, name :: rest =>
    ((fs.entry dir name).filter fun inode => decide (fs.kind inode = some .directory)).bind
      fun next => fs.resolve next rest

/-- The file that names lead to, when it has no other links. -/
def Fs.target (fs : Fs) (root : Inode) (rel : List Text) : Option Inode :=
  rel.getLast?.bind fun name => (fs.resolve root rel.dropLast).bind fun dir =>
    (fs.entry dir name).filter fun inode =>
      decide (fs.kind inode = some .file) && decide (fs.links inode ≤ 1)

section Paths

variable {fs : Fs}

theorem metadata_kind (h : fs.entry dir name = some inode)
    (kind : FileKind) : (fs.metadata inode).kind = kind ↔ fs.kind inode = some kind := by
  obtain ⟨k, hk⟩ := Fs.entry_kind h
  show (fs.kind inode).getD .special = kind ↔ _
  rw [hk, Option.getD_some, Option.some_inj]

variable (display : Text)

theorem settles_inspectPart (dir : Inode) (part : Text) :
    Settles (inspectPart display false dir part) fs
      fun seen => ∃ inode, fs.entry dir part = some inode ∧ seen = fs.metadata inode := by
  refine Settles.congr (Settles.attempt (settles_lstat dir part) (q := fun seen b => b = seen)
    (fun seen _ => Settles.pure seen) fun e => ?_) fun seen => ?_
  · dsimp only
    rw [if_neg fun h => Bool.false_ne_true h.2]
    exact Settles.throw _
  · constructor
    · rintro ⟨_, h, rfl⟩
      exact h
    · exact fun h => ⟨seen, h, rfl⟩

theorem settles_enter {part : Text} (h : fs.entry dir part = some inode) :
    Settles (enter display dir part (fs.metadata inode)) fs
      fun next => fs.kind inode = some .directory ∧ next = inode := by
  unfold enter
  by_cases hd : fs.kind inode = some .directory
  · have hk := (metadata_kind h .directory).mpr hd
    rw [if_neg (by rw [hk]; decide), if_neg (not_not_intro hk)]
    refine Settles.congr (Settles.bind ((settles_openDir h hd).orFail _)
      (q := fun _ next => next = inode) fun next hn => ?_) fun next => ?_
    · subst hn
      refine Settles.congr (Settles.bind ((settles_fstat next).orFail _)
        (q := fun _ a => a = next) fun opened ho => ?_) fun a => ?_
      · subst ho
        rw [if_neg (not_not_intro rfl)]
        exact Settles.pure next
      · exact ⟨fun ⟨_, _, h⟩ => h, fun h => ⟨_, rfl, h⟩⟩
    · exact ⟨fun ⟨_, _, h⟩ => ⟨hd, h⟩, fun h => ⟨_, rfl, h.2⟩⟩
  · have hnot : (fs.metadata inode).kind ≠ .directory := fun hk =>
      hd ((metadata_kind h .directory).mp hk)
    have ht : ∀ e : ToolError, Settles (Program.throw e : Program World ToolError Inode) fs
        fun next => fs.kind inode = some .directory ∧ next = inode := fun e =>
      (Settles.throw e).congr fun next => ⟨fun h => False.elim h, fun h => hd h.1⟩
    split
    · exact ht _
    · exact ht _

theorem settles_openParts (dir : Inode) (parts : List Text) :
    Settles (openParts display false dir parts) fs fun next => fs.resolve dir parts = some next := by
  induction parts generalizing dir with
  | nil => exact (Settles.pure dir).congr fun next => ⟨fun h => by rw [h]; rfl, fun h => by cases h; rfl⟩
  | cons part parts ih =>
    refine Settles.congr (Settles.bind (settles_inspectPart display dir part)
      (q := fun seen next => ∃ inode, (fs.entry dir part = some inode ∧ seen = fs.metadata inode) ∧
        fs.kind inode = some .directory ∧ fs.resolve inode parts = some next)
      fun seen ⟨inode, he, hs⟩ => ?_) fun next => ?_
    · subst hs
      refine Settles.congr (Settles.bind (settles_enter display he) fun a _ => ih a) fun next => ?_
      constructor
      · rintro ⟨_, ⟨hd, rfl⟩, hr⟩
        exact ⟨_, ⟨he, rfl⟩, hd, hr⟩
      · rintro ⟨inode', ⟨he', -⟩, hd, hr⟩
        rw [he] at he'
        cases he'
        exact ⟨inode, ⟨hd, rfl⟩, hr⟩
    · show _ ↔ (((fs.entry dir part).filter _).bind _) = some next
      rw [Option.bind_eq_some_iff]
      simp only [Option.filter_eq_some_iff, decide_eq_true_eq]
      constructor
      · rintro ⟨_, _, inode, ⟨he, -⟩, hd, hr⟩
        exact ⟨inode, ⟨he, hd⟩, hr⟩
      · rintro ⟨inode, ⟨he, hd⟩, hr⟩
        exact ⟨_, ⟨inode, he, rfl⟩, inode, ⟨he, rfl⟩, hd, hr⟩

theorem settles_openParent (root : Inode) (rel : List Text) :
    Settles (openParent root rel false) fs fun r =>
      rel.getLast? = some r.2 ∧ fs.resolve root rel.dropLast = some r.1 := by
  unfold openParent
  cases hl : rel.getLast? with
  | none => exact (Settles.throw _).congr fun r => ⟨fun h => False.elim h, fun h => by cases h.1⟩
  | some name =>
    refine Settles.congr (Settles.bind ((settles_tryClone root).orFail _)
      (q := fun _ r => name = r.2 ∧ fs.resolve root rel.dropLast = some r.1) fun dir hd => ?_)
      fun r => ?_
    · subst hd
      refine Settles.congr (Settles.bind (settles_openParts (displayPath rel) dir rel.dropLast)
        fun next _ => Settles.pure (next, name)) fun r => ?_
      constructor
      · rintro ⟨next, hn, rfl⟩
        exact ⟨rfl, hn⟩
      · rintro ⟨rfl, hn⟩
        exact ⟨r.1, hn, rfl⟩
    · rw [Option.some_inj]
      exact ⟨fun ⟨_, _, h⟩ => h, fun h => ⟨root, rfl, h⟩⟩

theorem settles_checkTarget (parent : Inode) (name display : Text) :
    Settles (checkTarget parent name display false) fs fun seen => ∃ inode,
      fs.entry parent name = some inode ∧ fs.kind inode = some .file ∧ fs.links inode ≤ 1 ∧
        seen = some inode := by
  refine Settles.congr (Settles.attempt (settles_lstat parent name)
    (q := fun found seen => found.kind = .file ∧ found.links ≤ 1 ∧ seen = some found.inode)
    (fun seen _ => ?_) fun e => ?_) fun seen => ?_
  · have ht : ∀ e : ToolError, ¬ (seen.kind = .file ∧ seen.links ≤ 1) →
        Settles (Program.throw e : Program World ToolError (Option Inode)) fs
          fun a => seen.kind = .file ∧ seen.links ≤ 1 ∧ a = some seen.inode := fun e hn =>
      (Settles.throw e).congr fun a => ⟨fun h => False.elim h, fun h => hn ⟨h.1, h.2.1⟩⟩
    dsimp only
    split
    · rename_i hli
      exact ht _ fun h => by rw [hli] at h; cases h.1
    · split
      · rename_i hm
        exact ht _ fun h => by omega
      · split
        · rename_i hm hf
          refine (Settles.pure _).congr fun a => ⟨fun h => ⟨hf, ?_, h⟩, fun h => h.2.2⟩
          by_contra hlt
          exact hm ⟨hf, by omega⟩
        · rename_i hf
          exact ht _ fun h => hf h.1
  · dsimp only
    rw [if_neg fun h => Bool.false_ne_true h.2]
    exact Settles.throw _
  · constructor
    · rintro ⟨_, ⟨inode, he, rfl⟩, hf, hl, rfl⟩
      exact ⟨inode, he, (metadata_kind he .file).mp hf, hl, rfl⟩
    · rintro ⟨inode, he, hf, hl, rfl⟩
      exact ⟨_, ⟨inode, he, rfl⟩, (metadata_kind he .file).mpr hf, hl, rfl⟩

theorem settles_openTarget {parent : Inode}
    (he : fs.entry parent name = some inode) (hf : fs.kind inode = some .file)
    (hl : fs.links inode ≤ 1) : Settles (openTarget parent name display (some inode)) fs
      (· = (inode, (fs.content inode).length)) := by
  refine Settles.congr (Settles.bind ((settles_openAt he hf).orFail _)
    (q := fun _ r => r = (inode, (fs.content inode).length)) fun file ho => ?_)
    fun r => ⟨fun ⟨_, _, h⟩ => h, fun h => ⟨inode, rfl, h⟩⟩
  subst ho
  refine Settles.congr (Settles.bind ((settles_fstat file).orFail _)
    (q := fun _ r => r = (file, (fs.content file).length)) fun opened hs => ?_)
    fun r => ⟨fun ⟨_, _, h⟩ => h, fun h => ⟨_, rfl, h⟩⟩
  subst hs
  have hk := (metadata_kind he .file).mpr hf
  have hone : ¬ 1 < (fs.metadata file).links := Nat.not_lt.mpr hl
  have hsa : ¬ (some file).any (· ≠ (fs.metadata file).inode) = true := by
    show ¬ decide (file ≠ file) = true
    simp
  rw [if_neg (not_not_intro hk), if_neg hone, if_neg hsa]
  exact Settles.pure _

theorem settles_openForWrite (root : Inode) (rel : List Text) (display : Text) :
    Settles (openForWrite root rel display false) fs fun r =>
      fs.target root rel = some r.1 ∧ r.2 = (fs.content r.1).length := by
  refine Settles.congr (Settles.bind (settles_openParent root rel)
    (q := fun at' r => ∃ inode, (fs.entry at'.1 at'.2 = some inode ∧ fs.kind inode = some .file ∧
      fs.links inode ≤ 1) ∧ r = (inode, (fs.content inode).length)) fun at' _ => ?_) fun r => ?_
  · refine Settles.congr (Settles.bind (settles_checkTarget at'.1 at'.2 display)
      (q := fun seen r => ∃ inode, seen = some inode ∧ r = (inode, (fs.content inode).length))
      fun seen ⟨inode, he, hf, hl, hse⟩ => ?_) fun r => ?_
    · subst hse
      refine (settles_openTarget display he hf hl).congr fun r => ?_
      exact ⟨fun h => ⟨inode, rfl, h⟩, fun ⟨_, hs, h⟩ => by cases hs; exact h⟩
    · constructor
      · rintro ⟨_, ⟨inode, he, hf, hl, rfl⟩, inode', hs, h⟩
        cases hs
        exact ⟨inode, ⟨he, hf, hl⟩, h⟩
      · rintro ⟨inode, ⟨he, hf, hl⟩, h⟩
        exact ⟨_, ⟨inode, he, hf, hl, rfl⟩, inode, rfl, h⟩
  · unfold Fs.target
    simp only [Option.bind_eq_some_iff, Option.filter_eq_some_iff, Bool.and_eq_true,
      decide_eq_true_eq]
    constructor
    · rintro ⟨⟨dir, name⟩, ⟨hn, hd⟩, inode, ⟨he, hf, hl⟩, rfl⟩
      exact ⟨⟨name, hn, dir, hd, he, hf, hl⟩, rfl⟩
    · rintro ⟨⟨name, hn, dir, hd, he, hf, hl⟩, hlen⟩
      exact ⟨(dir, name), ⟨hn, hd⟩, r.1, ⟨he, hf, hl⟩, Prod.ext rfl hlen⟩

end Paths

/-! ### The run of an edit -/

def Ends {ε α : Type} (x : Program World ε α) (fs : Fs) (r : Except ε α) (later : Fs) : Prop :=
  ∀ trace, ∃ trace', x ⟨fs, [], trace⟩ = (r, ⟨later, [], trace'⟩)

/-- `x` leads to a file system in `q`, or fails and changes nothing when there is none. -/
def Finishes {ε : Type} (x : Program World ε Unit) (fs : Fs) (q : Fs → Prop) : Prop :=
  (∃ later, q later ∧ Ends x fs (.ok ()) later) ∨ (∀ later, ¬ q later) ∧ ∃ e, Ends x fs (.error e) fs

section Runs

variable {ε α : Type} {fs : Fs}

theorem Settles.finish {x : Program World ε α} {f : α → Program World ε Unit} {p : α → Prop}
    {q : α → Fs → Prop} (hx : Settles x fs p) (hf : ∀ a, p a → Finishes (f a) fs (q a)) :
    Finishes (x >>= f) fs fun later => ∃ a, p a ∧ q a later := by
  obtain ⟨r, hr, hp⟩ := hx
  cases r with
  | error e =>
    refine Or.inr ⟨?_, e, hr.fail⟩
    rintro later ⟨a, ha, -⟩
    cases (hp a).mpr ha
  | ok a =>
    have hb : ∀ {r' later}, Ends (f a) fs r' later → Ends (x >>= f) fs r' later := by
      intro r' later he trace
      obtain ⟨trace', hrun⟩ := hr trace
      obtain ⟨trace'', hrun'⟩ := he trace'
      exact ⟨trace'', by rw [Program.bind_apply, hrun]; exact hrun'⟩
    rcases hf a ((hp a).mp rfl) with ⟨later, hq, he⟩ | ⟨hn, e, he⟩
    · exact Or.inl ⟨later, ⟨a, (hp a).mp rfl, hq⟩, hb he⟩
    · refine Or.inr ⟨?_, e, hb he⟩
      rintro later ⟨a', ha', hq⟩
      cases (hp a').mpr ha'
      exact hn later hq

theorem Finishes.congr {x : Program World ε Unit} {q q' : Fs → Prop} (h : Finishes x fs q)
    (hq : ∀ later, q later ↔ q' later) : Finishes x fs q' := by
  rcases h with ⟨later, hl, he⟩ | ⟨hn, he⟩
  · exact Or.inl ⟨later, (hq later).mp hl, he⟩
  · exact Or.inr ⟨fun later h => hn later ((hq later).mpr h), he⟩

theorem finishes_replaceContents {file : Inode} (hf : fs.kind file = some .file) (content : Bytes)
    (display : Text) :
    Finishes (replaceContents file content display) fs (· = fs.write file content) := by
  refine Or.inl ⟨_, rfl, fun trace =>
    ⟨trace ++ [(fs, .setLen file)] ++ [(fs.write file [], .writeAt file)], ?_⟩⟩
  have hk : (fs.write file []).kind file = some .file := Fs.write_kept hf [] _ _ hf
  have hc : (fs.write file []).content file = [] := by
    simp [Fs.content, Fs.write]
  have ht : (fs.write file []).write file content = fs.write file content := by
    simp [Fs.write]
  unfold replaceContents setLen writeAt syscall
  simp only [Program.bind_apply, Program.orFail, headD_nil, Turn.quiet, id, tail_nil, hf,
    if_true, Except.mapError, hk, hc, ht, drop_nil, append_nil]

def Edits (fs : Fs) (root : Inode) (max : Nat) (path old new : Text) (file : Inode) (text : Text) :
    Prop :=
  old ≠ [] ∧ (∃ rel, relativePath path false = .ok rel ∧ fs.target root rel = some file) ∧
    (fs.content file).length ≤ max ∧ edited max path old new (fs.content file) = .ok text

theorem target_kind {file : Inode} {rel : List Text} (h : fs.target root rel = some file) :
    fs.kind file = some .file := by
  unfold Fs.target at h
  simp only [Option.bind_eq_some_iff, Option.filter_eq_some_iff, Bool.and_eq_true,
    decide_eq_true_eq] at h
  obtain ⟨name, -, dir, -, -, hf, -⟩ := h
  exact hf

theorem editFile_finishes (fs : Fs) (root : Inode) (max : Nat) (path old new : Text) :
    Finishes (editFile root max path old new) fs fun later => ∃ file text,
      Edits fs root max path old new file text ∧ later = fs.write file (encode text) := by
  refine Finishes.congr (Settles.finish (settles_lift _) fun _ _ => Settles.finish (settles_lift _)
    fun rel _ => Settles.finish (settles_openForWrite root rel path) fun opened ho =>
      Settles.finish (settles_lift _) fun _ _ => Settles.finish
        ((settles_read opened.1).orFail _) fun content _ => Settles.finish (settles_lift _)
          fun text _ => finishes_replaceContents (target_kind ho.1) (encode text) path)
    fun later => ?_
  simp only [Lib.ensure_eq_ok, Lib.mapError_eq_ok, checkSize, decide_eq_true_eq]
  constructor
  · rintro ⟨_, hne, rel, hr, ⟨file, size⟩, ⟨ht, hl⟩, _, hs, _, rfl, text, he, rfl⟩
    obtain rfl : size = (fs.content file).length := hl
    rw [take_of_length_le (Nat.le_succ_of_le hs)] at he
    refine ⟨file, text, ⟨?_, ⟨rel, hr, ht⟩, hs, he⟩, rfl⟩
    rintro rfl
    cases hne
  · rintro ⟨file, text, ⟨hne, ⟨rel, hr, ht⟩, hs, he⟩, rfl⟩
    refine ⟨(), ?_, rel, hr, (file, _), ⟨ht, rfl⟩, (), hs, _, rfl, text, ?_, rfl⟩
    · cases old with
      | nil => exact absurd rfl hne
      | cons => rfl
    · rw [take_of_length_le (Nat.le_succ_of_le hs)]
      exact he

end Runs

/-! ### Occurrences -/

/-- `old` stands at a position. -/
def At (old text : Text) (p : Nat) : Prop := old <+: text.drop p

instance (old text : Text) (p : Nat) : Decidable (At old text p) :=
  inferInstanceAs (Decidable (old <+: text.drop p))

/-- `old` stands at several positions, of which every two overlap. -/
def Crowded (old text : Text) : Prop :=
  (∃ p q, p < q ∧ At old text p ∧ At old text q) ∧
    ∀ p q, At old text p → At old text q → q < p + old.length

section Occurrences

variable {old text before rest : Text}

theorem occurrences_eq_one {fuel : Nat} (hf : text.length < fuel) (hne : old ≠ []) :
    occurrences old fuel text = 1 ↔
      ∃ before rest, splitOnce old text = some (before, rest) ∧ ¬ old <:+: rest := by
  obtain ⟨fuel, rfl⟩ : ∃ n, fuel = n + 1 := ⟨fuel - 1, by omega⟩
  unfold occurrences
  cases hs : splitOnce old text with
  | none => simp
  | some parts =>
    obtain ⟨before, rest⟩ := parts
    have hl := congrArg length (Lib.splitOnce_eq_some hs)
    rw [length_append, length_append] at hl
    have hp := length_pos_iff.mpr hne
    have hz : occurrences old fuel rest = 0 ↔ ¬ old <:+: rest := by
      obtain ⟨fuel, rfl⟩ : ∃ n, fuel = n + 1 := ⟨fuel - 1, by omega⟩
      rw [← Lib.splitOnce_eq_none_iff]
      unfold occurrences
      cases splitOnce old rest with
      | none => simp
      | some => simp
    constructor
    · intro hc
      exact ⟨before, rest, rfl, hz.mp (Nat.succ_injective hc)⟩
    · rintro ⟨_, _, hsa, hr⟩
      cases hsa
      show occurrences old fuel rest + 1 = 1
      rw [hz.mpr hr]

theorem infix_of_at {p : Nat} (h : At old (before ++ old ++ rest) p)
    (hle : before.length + old.length ≤ p) : old <:+: rest := by
  unfold At at h
  obtain ⟨n, rfl⟩ : ∃ n, p = (before ++ old).length + n :=
    ⟨p - (before ++ old).length, by rw [length_append]; omega⟩
  rw [drop_append, drop_of_length_le (Nat.le_add_right _ _), nil_append,
    Nat.add_sub_cancel_left] at h
  exact h.isInfix.trans (drop_suffix _ _).isInfix

theorem le_of_at (h : splitOnce old text = some (before, rest)) {p : Nat} (hp : At old text p) :
    before.length ≤ p := by
  by_contra hlt
  exact Lib.splitOnce_first h p (by omega) hp

theorem at_first (h : splitOnce old text = some (before, rest)) : At old text before.length := by
  unfold At
  rw [Lib.splitOnce_eq_some h, append_assoc, drop_left]
  exact prefix_append _ _

/-- **One that is counted** stands nowhere else, unless the positions are crowded. -/
theorem at_unique (hs : splitOnce old text = some (before, rest)) (hre : ¬ old <:+: rest)
    (h : ¬ Crowded old text) {p : Nat} (hp : At old text p) : p = before.length := by
  have hle := le_of_at hs hp
  by_contra hne
  have hlt : before.length < p := by omega
  refine h ⟨⟨before.length, p, hlt, at_first hs, hp⟩, fun q r hq hr => ?_⟩
  have hleq := le_of_at hs hq
  by_contra hge
  rw [Lib.splitOnce_eq_some hs] at hr
  exact hre (infix_of_at hr (by omega))

theorem Crowded.counted (h : Crowded old text) :
    ∃ before rest, splitOnce old text = some (before, rest) ∧ ¬ old <:+: rest := by
  obtain ⟨⟨p, q, -, hp, -⟩, ho⟩ := h
  cases hs : splitOnce old text with
  | none =>
    rw [Lib.splitOnce_eq_none_iff] at hs
    exact absurd (hp.isInfix.trans (drop_suffix _ _).isInfix) hs
  | some parts =>
    obtain ⟨before, rest⟩ := parts
    refine ⟨before, rest, rfl, ?_⟩
    rintro ⟨front, back, hr⟩
    have hat : At old text (before ++ old ++ front).length := by
      unfold At
      rw [Lib.splitOnce_eq_some hs, ← hr, ← append_assoc, ← append_assoc,
        append_assoc (before ++ old ++ front), drop_left]
      exact prefix_append _ _
    have hlt := ho before.length _ (at_first hs) hat
    rw [length_append, length_append] at hlt
    omega

end Occurrences

/-! ### The content of an edited file -/

theorem encode_eq (text : Text) : encode text = utf8Bytes text := Lib.toUTF8_ofList text

theorem decode_eq {bytes : Bytes} {text : Text} : decode bytes = some text ↔ encode text = bytes := by
  rw [encode_eq]
  exact Lib.fromUTF8?_eq

theorem encode_append (a b : Text) : encode (a ++ b) = encode a ++ encode b := by
  rw [encode_eq, encode_eq, encode_eq, Lib.utf8Bytes_append]

theorem length_encode (text : Text) : (encode text).length = utf8Len text := by
  rw [encode_eq]
  induction text with
  | nil => rfl
  | cons c text ih =>
    rw [Lib.utf8Bytes_cons, length_append, ih, String.length_utf8EncodeChar, utf8Len_cons]

variable {old text : Text}

theorem edited_eq_ok {bytes : Bytes} (hne : old ≠ []) :
    edited max path old new bytes = .ok text ↔ ∃ current before rest, decode bytes = some current ∧
      splitOnce old current = some (before, rest) ∧ ¬ old <:+: rest ∧
      text = before ++ new ++ rest ∧ bytes.length ≤ max ∧ utf8Len text ≤ max := by
  unfold edited checkSize
  simp only [Lib.bind_eq_ok, Lib.ensure_eq_ok, decide_eq_true_eq, Lib.elim_eq_ok]
  constructor
  · rintro ⟨_, hsi, current, hd, _, hc, _, hsi', ht⟩
    obtain ⟨before, rest, hs, hr⟩ :=
      (occurrences_eq_one (Nat.lt_succ_self _) hne).mp hc
    cases ht
    rw [hs] at hsi' ⊢
    exact ⟨current, before, rest, hd, hs, hr, rfl, hsi, hsi'⟩
  · rintro ⟨current, before, rest, hd, hs, hr, rfl, hsi, hsi'⟩
    refine ⟨(), hsi, current, hd, (),
      (occurrences_eq_one (Nat.lt_succ_self _) hne).mpr ⟨before, rest, hs, hr⟩, (), ?_, ?_⟩
    · rw [hs]
      exact hsi'
    · rw [hs]
      rfl

/-- An edit replaced the one occurrence, or left the file system as it was. -/
def EditedOnce (root : Inode) (max : Nat) (path old new : Text) (fs : Fs) : Prop :=
  (∀ w, editFile root max path old new ⟨fs, [], []⟩ = (.ok (), w) →
    old ≠ [] ∧ ∃ rel file before after, relativePath path false = .ok rel ∧
      fs.target root rel = some file ∧ fs.content file = before ++ encode old ++ after ∧
      (∀ front back, fs.content file = front ++ encode old ++ back → front = before) ∧
      w.fs = fs.write file (before ++ encode new ++ after)) ∧
  ∀ e w, editFile root max path old new ⟨fs, [], []⟩ = (.error e, w) → w.fs = fs

/-- Nothing but its occurrences speaks against an edit, and they are crowded. -/
def Misjudged (root : Inode) (max : Nat) (path old new : Text) (fs : Fs) : Prop :=
  ∃ rel file current, relativePath path false = .ok rel ∧ fs.target root rel = some file ∧
    decode (fs.content file) = some current ∧ Crowded old current ∧
    (fs.content file).length ≤ max ∧
    (fs.content file).length - (encode old).length + (encode new).length ≤ max

theorem At.bytes {p : Nat} (h : At old text p) :
    ∃ back, encode text = encode (text.take p) ++ encode old ++ back := by
  obtain ⟨back, hb⟩ := h
  refine ⟨encode back, ?_⟩
  rw [← encode_append, ← encode_append, append_assoc, hb, take_append_drop]

theorem At.lt {p : Nat} (h : At old text p) (hne : old ≠ []) : p < text.length := by
  obtain ⟨back, hb⟩ := h
  have hl := congrArg length hb
  have hp := length_pos_iff.mpr hne
  rw [length_append, length_drop] at hl
  omega

theorem encode_take_ne {text : Text} {p q : Nat} (hlt : p < q) (hp : p < text.length) :
    encode (text.take p) ≠ encode (text.take q) := by
  intro heq
  obtain ⟨n, rfl⟩ : ∃ n, q = p + (n + 1) := ⟨q - p - 1, by omega⟩
  have hlen := congrArg length heq
  have hs : 0 < (text[p]).utf8Size := Char.utf8Size_pos _
  rw [take_add, drop_eq_getElem_cons hp, take_succ_cons, length_encode, length_encode,
    utf8Len_append, utf8Len_cons] at hlen
  omega

theorem at_of_bytes {front back : Bytes} (hne : old ≠ [])
    (h : encode text = front ++ encode old ++ back) :
    ∃ p, At old text p ∧ encode (text.take p) = front := by
  rw [encode_eq, encode_eq] at h
  obtain ⟨before, after, rfl, hb, -⟩ := Lib.utf8Bytes_infix hne h
  refine ⟨before.length, ?_, ?_⟩
  · unfold At
    rw [append_assoc, drop_left]
    exact prefix_append _ _
  · rw [append_assoc, take_left, encode_eq, hb]

theorem Misjudged.edits {old : Text} {fs : Fs}
    (h : Misjudged root max path old new fs) : ∃ file text, Edits fs root max path old new file text := by
  obtain ⟨rel, file, current, hrel, ht, hd, hc, hs, hs'⟩ := h
  obtain ⟨before, rest, hsp, hr⟩ := hc.counted
  have hne : old ≠ [] := by
    rintro rfl
    obtain ⟨⟨p, q, -, hp, -⟩, ho⟩ := hc
    exact absurd (ho p p hp hp) (Nat.lt_irrefl p)
  have hl : (fs.content file).length = utf8Len before + utf8Len old + utf8Len rest := by
    rw [← decode_eq.mp hd, length_encode, Lib.splitOnce_eq_some hsp, utf8Len_append, utf8Len_append]
  refine ⟨file, before ++ new ++ rest, hne, ⟨rel, hrel, ht⟩, hs,
    (edited_eq_ok hne).mpr ⟨current, before, rest, hd, hsp, hr, rfl, hs, ?_⟩⟩
  rw [length_encode, length_encode, hl] at hs'
  rw [utf8Len_append, utf8Len_append]
  omega

theorem Misjudged.not_editedOnce {old : Text} {fs : Fs}
    (h : Misjudged root max path old new fs) : ¬ EditedOnce root max path old new fs := by
  rintro ⟨hok, -⟩
  rcases editFile_finishes fs root max path old new with ⟨later, -, hend⟩ | ⟨hn, -⟩
  · obtain ⟨trace, hrun⟩ := hend []
    obtain ⟨hne, rel, file, front, back, hr, ht, -, hu, -⟩ := hok _ hrun
    obtain ⟨rel', file', current, hr', ht', hd, ⟨⟨p, q, hlt, hp, hq⟩, -⟩, -⟩ := h
    rw [hr] at hr'
    cases hr'
    rw [ht] at ht'
    cases ht'
    obtain ⟨backp, hb⟩ := hp.bytes
    obtain ⟨backq, hba⟩ := hq.bytes
    rw [decode_eq.mp hd] at hb hba
    refine encode_take_ne hlt (hp.lt hne) ?_
    rw [hu _ _ hb, hu _ _ hba]
  · obtain ⟨file, text, he⟩ := h.edits
    exact hn _ ⟨file, text, he, rfl⟩

/-- **An edit replaces the one occurrence or nothing**, unless its occurrences are crowded. -/
theorem editFile_once_iff (root : Inode) (max : Nat) (path old new : Text) (fs : Fs) :
    EditedOnce root max path old new fs ↔ ¬ Misjudged root max path old new fs := by
  refine ⟨fun h hm => hm.not_editedOnce h, fun hcl => ?_⟩
  rcases editFile_finishes fs root max path old new with
    ⟨later, ⟨file, text, ⟨hne, ⟨rel, hrel, ht⟩, hs, he⟩, rfl⟩, hend⟩ | ⟨-, e, hend⟩
  · -- the edit is made
    obtain ⟨trace, hr⟩ := hend []
    obtain ⟨current, before, rest, hd, hsp, hrest, rfl, -, hs'⟩ :=
      (edited_eq_ok hne).mp he
    have hcur := Lib.splitOnce_eq_some hsp
    have hco : fs.content file = encode before ++ encode old ++ encode rest := by
      rw [← decode_eq.mp hd, hcur, encode_append, encode_append]
    have hc : ¬ Crowded old current := by
      intro hc
      refine hcl ⟨rel, file, current, hrel, ht, hd, hc, hs, ?_⟩
      have hl := congrArg length hco
      simp only [length_append, length_encode] at hl
      simp only [utf8Len_append] at hs'
      rw [length_encode, length_encode]
      omega
    refine ⟨fun w hw => ?_, fun e w hw => ?_⟩
    · rw [hr] at hw
      cases hw
      refine ⟨hne, rel, file, encode before, encode rest, hrel, ht, hco,
        fun front back hb => ?_, by rw [encode_append, encode_append]⟩
      rw [← decode_eq.mp hd] at hb
      obtain ⟨p, hp, hf⟩ := at_of_bytes hne hb
      rw [← hf, at_unique hsp hrest hc hp, hcur, append_assoc, take_left]
    · rw [hr] at hw
      cases hw
  · -- the edit is refused
    obtain ⟨trace, hr⟩ := hend []
    refine ⟨fun w hw => ?_, fun e' w hw => ?_⟩
    · rw [hr] at hw
      cases hw
    · rw [hr] at hw
      cases hw
      rfl

def oneFile (content : Bytes) : Fs where
  node inode := if inode = 0 then some .directory else if inode = 1 then some (.file content) else none
  entries := [⟨0, "f".toList, 1⟩]

/-- Two overlapping occurrences are replaced as one. -/
theorem overlapping_edit :
    ¬ EditedOnce 0 100 "f".toList "aa".toList "b".toList (oneFile (encode "aaa".toList)) := by
  apply Misjudged.not_editedOnce
  refine ⟨["f".toList], 1, "aaa".toList, by decide, by decide, decode_eq.mpr rfl, ⟨⟨0, 1, by decide,
    by decide, by decide⟩, fun p q hp hq => ?_⟩, ?_, ?_⟩
  · have hlt : q < 3 := hq.lt (by decide)
    have hne : q ≠ 2 := by
      rintro rfl
      revert hq
      decide
    show q < p + 2
    omega
  · rw [show (oneFile (encode "aaa".toList)).content 1 = encode "aaa".toList from rfl, length_encode]
    decide
  · rw [show (oneFile (encode "aaa".toList)).content 1 = encode "aaa".toList from rfl, length_encode,
      length_encode, length_encode]
    decide

end LocalAi.Workspace
