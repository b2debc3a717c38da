import LocalAi.Lib.System

/-!
# Leases of stored responses

A response's writer holds an exclusive lock on the file its sidecar's name leads
to.  The name is a pointer that sweeps clear and that opening sets again, so a
lock may be on a file that no name leads to any more; `lease` looks at the name
after it has locked.

* `Step`: one step of `lease`, `removeLock`, `removeOrphan`, of a save that
  creates a sidecar, or the end of any of them.
* `Valid`: a lock belongs to the open file that took it, and a returned lease is
  on the named file until its own holder unlinks it.
* `leases_exclude_each_other`: two holders that have not unlinked are one.
-/

set_option linter.unusedSectionVars false

namespace LocalAi.Store

open LocalAi.Lib

/-- How often `lease` locks the sidecar again. -/
def leaseAttempts : Nat := 4

inductive Caller
  | writer
  | removeLock
  | removeOrphan

/-- Where a call of `lease` is, and what became of it. -/
inductive Phase (Inode : Type)
  | opening (attempts : Nat)
  | opened (attempts : Nat) (inode : Inode)
  | tried (attempts : Nat) (inode : Inode) (locked : Bool)
  | held (inode : Inode) (unlinked : Bool)
  | closed

/-- One call of `lease`, with the file it has open. -/
structure Task (Id Inode : Type) where
  caller : Caller
  id : Id
  phase : Phase Inode

def Phase.lock {Inode : Type} : Phase Inode → Option Inode
  | .tried _ inode true => some inode
  | .held inode _ => some inode
  | _ => none

def Phase.file {Inode : Type} : Phase Inode → Option Inode
  | .opened _ inode => some inode
  | .tried _ inode _ => some inode
  | .held inode _ => some inode
  | _ => none

/-- The sidecars of a store: what each name leads to, which open file locks each
inode, and the calls that run. -/
structure Sidecars (Id Inode Call : Type) where
  names : Id → Option Inode
  locks : Inode → Option Call
  tasks : Call → Option (Task Id Inode)

/-- One step of a call, or a save that creates a sidecar. -/
inductive Action (Id Inode Call : Type)
  | start (call : Call) (caller : Caller) (id : Id)
  | openSidecar (call : Call) (inode : Inode)
  | tryLock (call : Call)
  | check (call : Call)
  | unlink (call : Call)
  | leave (call : Call)
  | touch (id : Id) (inode : Inode)

variable {Id Inode Call : Type} [DecidableEq Id] [DecidableEq Inode] [DecidableEq Call]

namespace Sidecars

def put (s : Sidecars Id Inode Call) (call : Call) (task : Task Id Inode) :
    Sidecars Id Inode Call :=
  { s with tasks := Function.update s.tasks call (some task) }

/-- Opening a name creates the file it leads to if there is none. -/
def lead (s : Sidecars Id Inode Call) (id : Id) (inode : Inode) : Sidecars Id Inode Call :=
  { s with names := Function.update s.names id (some inode) }

def lock (s : Sidecars Id Inode Call) (inode : Inode) (call : Call) : Sidecars Id Inode Call :=
  { s with locks := Function.update s.locks inode (some call) }

def unlink (s : Sidecars Id Inode Call) (id : Id) : Sidecars Id Inode Call :=
  { s with names := Function.update s.names id none }

def close (s : Sidecars Id Inode Call) (call : Call) : Sidecars Id Inode Call :=
  { s with locks := fun inode => if s.locks inode = some call then none else s.locks inode }

/-- No name leads to `inode` and no call has it open. -/
def Unused (s : Sidecars Id Inode Call) (inode : Inode) : Prop :=
  (∀ id, s.names id ≠ some inode) ∧
    ∀ call task, s.tasks call = some task → task.phase.file ≠ some inode

def Opens (s : Sidecars Id Inode Call) (id : Id) (inode : Inode) : Prop :=
  s.names id = some inode ∨ s.names id = none ∧ s.Unused inode

/-- `still_named`: elsewhere than on Unix nothing is ever unlinked. -/
def StillNamed (unix : Bool) (s : Sidecars Id Inode Call) (id : Id) (inode : Inode) : Prop :=
  unix = true → s.names id = some inode

end Sidecars

inductive Step (unix : Bool) :
    Sidecars Id Inode Call → Action Id Inode Call → Sidecars Id Inode Call → Prop
  -- `remove_lock` returns at once when there is no sidecar, or none is ever unlinked
  | start {s : Sidecars Id Inode Call} {call : Call} {caller : Caller} {id : Id}
      (hnew : s.tasks call = none)
      (hseen : caller = .removeLock → unix = true ∧ s.names id ≠ none) :
      Step unix s (.start call caller id) (s.put call ⟨caller, id, .opening leaseAttempts⟩)
  | openSidecar {s : Sidecars Id Inode Call} {call : Call} {caller : Caller} {id : Id}
      {inode : Inode} {n : Nat}
      (htask : s.tasks call = some ⟨caller, id, .opening (n + 1)⟩) (hopens : s.Opens id inode) :
      Step unix s (.openSidecar call inode)
        ((s.lead id inode).put call ⟨caller, id, .opened n inode⟩)
  | lock {s : Sidecars Id Inode Call} {call : Call} {caller : Caller} {id : Id} {inode : Inode}
      {n : Nat} (htask : s.tasks call = some ⟨caller, id, .opened n inode⟩)
      (hfree : s.locks inode = none) :
      Step unix s (.tryLock call) ((s.lock inode call).put call ⟨caller, id, .tried n inode true⟩)
  | wouldBlock {s : Sidecars Id Inode Call} {call other : Call} {caller : Caller} {id : Id}
      {inode : Inode} {n : Nat} (htask : s.tasks call = some ⟨caller, id, .opened n inode⟩)
      (hbusy : s.locks inode = some other) :
      Step unix s (.tryLock call) (s.put call ⟨caller, id, .tried n inode false⟩)
  | returnLease {s : Sidecars Id Inode Call} {call : Call} {caller : Caller} {id : Id}
      {inode : Inode} {n : Nat} (htask : s.tasks call = some ⟨caller, id, .tried n inode true⟩)
      (hnamed : s.StillNamed unix id inode) :
      Step unix s (.check call) (s.put call ⟨caller, id, .held inode false⟩)
  | returnNone {s : Sidecars Id Inode Call} {call : Call} {caller : Caller} {id : Id}
      {inode : Inode} {n : Nat} (htask : s.tasks call = some ⟨caller, id, .tried n inode false⟩)
      (hnamed : s.StillNamed unix id inode) :
      Step unix s (.check call) ((s.close call).put call ⟨caller, id, .closed⟩)
  | again {s : Sidecars Id Inode Call} {call : Call} {caller : Caller} {id : Id} {inode : Inode}
      {n : Nat} {locked : Bool}
      (htask : s.tasks call = some ⟨caller, id, .tried n inode locked⟩)
      (hgone : ¬ s.StillNamed unix id inode) :
      Step unix s (.check call) ((s.close call).put call ⟨caller, id, .opening n⟩)
  -- a writer never unlinks, and the sweeps unlink once, under their lease
  | unlink {s : Sidecars Id Inode Call} {call : Call} {caller : Caller} {id : Id} {inode : Inode}
      (htask : s.tasks call = some ⟨caller, id, .held inode false⟩) (hcaller : caller ≠ .writer)
      (hunix : unix = true) :
      Step unix s (.unlink call) ((s.unlink id).put call ⟨caller, id, .held inode true⟩)
  | leave {s : Sidecars Id Inode Call} {call : Call} {task : Task Id Inode}
      (htask : s.tasks call = some task) :
      Step unix s (.leave call) ((s.close call).put call { task with phase := .closed })
  | touch {s : Sidecars Id Inode Call} {id : Id} {inode : Inode} (hopens : s.Opens id inode) :
      Step unix s (.touch id inode) (s.lead id inode)

/-- Any number of calls on the sidecars of one store, before which no call runs. -/
def leases (Id Inode Call : Type) [DecidableEq Id] [DecidableEq Inode] [DecidableEq Call]
    (unix : Bool) : System (Sidecars Id Inode Call) (Action Id Inode Call) where
  start := fun s => (∀ inode, s.locks inode = none) ∧ ∀ call, s.tasks call = none
  step := Step unix

/-! ### One step -/

variable {unix : Bool} {a : Action Id Inode Call} {call : Call} {id : Id} {inode : Inode}
  {t : Sidecars Id Inode Call}

namespace Sidecars

def lockOf (s : Sidecars Id Inode Call) (call : Call) : Option Inode :=
  (s.tasks call).bind fun task => task.phase.lock

variable {s : Sidecars Id Inode Call}

variable {task : Task Id Inode}

theorem lockOf_of_task (ht : s.tasks call = some task) : s.lockOf call = task.phase.lock := by
  rw [lockOf, ht]
  rfl

theorem put_tasks (s : Sidecars Id Inode Call) (call other : Call) (task : Task Id Inode) :
    (s.put call task).tasks other = if other = call then some task else s.tasks other := by
  show Function.update s.tasks call (some task) other = _
  rw [Function.update_apply]

theorem put_lockOf (s : Sidecars Id Inode Call) (call other : Call) (task : Task Id Inode) :
    (s.put call task).lockOf other = if other = call then task.phase.lock else s.lockOf other := by
  rw [lockOf, put_tasks]
  split <;> rfl

/-- The locks are those of the calls that took them, a returned lease is on the
named file until its holder unlinks it, and elsewhere than on Unix every open
file is named. -/
structure Valid (unix : Bool) (s : Sidecars Id Inode Call) : Prop where
  locks : ∀ inode call, s.locks inode = some call ↔ s.lockOf call = some inode
  named : ∀ call caller id inode, s.tasks call = some ⟨caller, id, .held inode false⟩ →
    s.names id = some inode
  fixed : unix = false → ∀ call task inode, s.tasks call = some task →
    task.phase.file = some inode → s.names task.id = some inode

theorem Valid.put (hs : s.Valid unix) (hsa : task.phase.lock = s.lockOf call)
    (hn : ∀ inode, task.phase = .held inode false → s.names task.id = some inode)
    (hfi : unix = false → ∀ inode, task.phase.file = some inode → s.names task.id = some inode) :
    (s.put call task).Valid unix := by
  refine ⟨?_, ?_, ?_⟩
  · intro inode other
    rw [put_lockOf]
    by_cases ho : other = call
    · subst ho
      rw [if_pos rfl, hsa]
      exact hs.locks inode other
    · rw [if_neg ho]
      exact hs.locks inode other
  · intro other caller id inode ht
    obtain ⟨-, ⟨⟩⟩ | ⟨-, ht⟩ := update_eq_some ht
    · exact hn inode rfl
    · exact hs.named other caller id inode ht
  · intro hu other task' inode ht hf
    obtain ⟨-, ⟨⟩⟩ | ⟨-, ht⟩ := update_eq_some ht
    · exact hfi hu inode hf
    · exact hs.fixed hu other task' inode ht hf

variable {s : Sidecars Id Inode Call}

theorem Valid.close (hs : s.Valid unix) (hf : task.phase.file = none) :
    ((s.close call).put call task).Valid unix := by
  have hlo : task.phase.lock = none := by
    cases hp : task.phase <;> rw [hp] at hf <;> simp_all [Phase.lock, Phase.file]
  refine ⟨?_, ?_, ?_⟩
  · intro inode other
    rw [put_lockOf]
    show (if s.locks inode = some call then none else s.locks inode) = some other ↔ _
    by_cases ho : other = call
    · subst ho
      rw [if_pos rfl, hlo]
      by_cases hm : s.locks inode = some other
      · simp [hm]
      · simp [hm]
    · rw [if_neg ho]
      have hl := hs.locks inode other
      by_cases hm : s.locks inode = some call
      · rw [if_pos hm]
        rw [hm, Option.some.injEq] at hl
        exact ⟨nofun, fun h => absurd (hl.mpr h).symm ho⟩
      · rw [if_neg hm]
        exact hl
  · intro other caller id inode ht
    obtain ⟨-, ⟨⟩⟩ | ⟨-, ht⟩ := update_eq_some ht
    · cases hf
    · exact hs.named other caller id inode ht
  · intro hu other task' inode ht hopen
    obtain ⟨-, ⟨⟩⟩ | ⟨-, ht⟩ := update_eq_some ht
    · rw [hf] at hopen
      cases hopen
    · exact hs.fixed hu other task' inode ht hopen

theorem Opens.names {other : Id} {inode' : Inode} (ho : s.Opens id inode)
    (hn : s.names other = some inode') : (s.lead id inode).names other = some inode' := by
  show Function.update s.names id (some inode) other = some inode'
  by_cases hoth : other = id
  · subst hoth
    rw [Function.update_self]
    rcases ho with hs | ⟨hno, _⟩
    · exact hs.symm.trans hn
    · rw [hno] at hn
      cases hn
  · rw [Function.update_of_ne hoth]
    exact hn

theorem Valid.lead (hs : s.Valid unix) (ho : s.Opens id inode) : (s.lead id inode).Valid unix := by
  refine ⟨hs.locks, ?_, ?_⟩
  · intro call caller id' inode' ht
    exact ho.names (hs.named call caller id' inode' ht)
  · intro hu call task inode' ht hf
    exact ho.names (hs.fixed hu call task inode' ht hf)

theorem Valid.lock {caller : Caller} {n : Nat}
    (hs : s.Valid unix) (ht : s.tasks call = some ⟨caller, id, .opened n inode⟩)
    (hfr : s.locks inode = none) :
    ((s.lock inode call).put call ⟨caller, id, .tried n inode true⟩).Valid unix := by
  have hn : s.lockOf call = none := lockOf_of_task ht
  refine ⟨?_, ?_, ?_⟩
  · intro inode' other
    rw [put_lockOf]
    show Function.update s.locks inode (some call) inode' = some other ↔ _
    have hl := hs.locks inode' other
    by_cases ho : other = call
    · subst ho
      rw [if_pos rfl]
      by_cases hi : inode' = inode
      · subst hi
        simp [Phase.lock]
      · rw [Function.update_of_ne hi, hl, hn]
        simp [Phase.lock, Ne.symm hi]
    · rw [if_neg ho]
      by_cases hi : inode' = inode
      · subst hi
        rw [Function.update_self]
        rw [hfr] at hl
        exact ⟨fun h => absurd (Option.some.inj h).symm ho, fun h => (by cases hl.mpr h)⟩
      · rw [Function.update_of_ne hi]
        exact hl
  · intro other caller' id' inode' ho
    obtain ⟨-, ⟨⟩⟩ | ⟨-, ho⟩ := update_eq_some ho
    exact hs.named other caller' id' inode' ho
  · intro hu other task' inode' ho hf
    obtain ⟨-, ⟨⟩⟩ | ⟨-, ho⟩ := update_eq_some ho
    · exact hs.fixed hu call ⟨caller, id, .opened n inode⟩ inode' ht hf
    · exact hs.fixed hu other task' inode' ho hf

/-- Only the holder of the lock on the named file has a lease on it, so its
unlinking leaves no other lease without its name. -/
theorem Valid.unlink {caller : Caller} (hs : s.Valid unix)
    (hta : s.tasks call = some ⟨caller, id, .held inode false⟩) (hu : unix = true) :
    ((s.unlink id).put call ⟨caller, id, .held inode true⟩).Valid unix := by
  refine ⟨?_, ?_, ?_⟩
  · intro inode' other
    rw [put_lockOf]
    by_cases ho : other = call
    · subst ho
      rw [if_pos rfl]
      have hlo : s.lockOf other = some inode := lockOf_of_task hta
      have hl := hs.locks inode' other
      rw [hlo] at hl
      exact hl
    · rw [if_neg ho]
      exact hs.locks inode' other
  · intro other caller' id' inode' ho
    obtain ⟨-, ⟨⟩⟩ | ⟨hne, ho⟩ := update_eq_some ho
    have hn := hs.named other caller' id' inode' ho
    show Function.update s.names id none id' = some inode'
    by_cases hid : id' = id
    · subst hid
      have hsa : some inode = some inode' := (hs.named call caller id' inode hta).symm.trans hn
      cases hsa
      have hm : s.locks inode = some call := (hs.locks inode call).mpr (lockOf_of_task hta)
      have ht : s.locks inode = some other := (hs.locks inode other).mpr (lockOf_of_task ho)
      rw [hm] at ht
      cases ht
      exact absurd rfl hne
    · rw [Function.update_of_ne hid]
      exact hn
  · intro hnot
    rw [hu] at hnot
    cases hnot

theorem Valid.step (hs : s.Valid unix) (hst : Step unix s a t) : t.Valid unix := by
  cases hst with
  | start hnew =>
    refine hs.put ?_ nofun nofun
    rw [lockOf, hnew]
    rfl
  | openSidecar ht ho =>
    refine (hs.lead ho).put ?_ nofun ?_
    · exact (lockOf_of_task (s := s.lead _ _) ht).symm
    · intro _ inode hf
      cases hf
      exact Function.update_self ..
  | lock ht hfr => exact hs.lock ht hfr
  | wouldBlock ht =>
    refine hs.put (lockOf_of_task ht).symm nofun ?_
    intro hu inode hf
    have hfi := hs.fixed hu _ _ inode ht
    exact hfi hf
  | @returnLease call caller id inode n ht hn =>
    have hl : s.names id = some inode := by
      cases hu : unix with
      | true => exact hn hu
      | false => exact hs.fixed hu _ _ _ ht rfl
    refine hs.put (lockOf_of_task ht).symm ?_ ?_
    · intro inode hp
      cases hp
      exact hl
    · intro _ inode hf
      cases hf
      exact hl
  | returnNone => exact hs.close rfl
  | again => exact hs.close rfl
  | unlink ht hc hu => exact hs.unlink ht hu
  | leave => exact hs.close rfl
  | touch ho => exact hs.lead ho

end Sidecars

/-! ### Every run -/

variable {s : Sidecars Id Inode Call}

theorem leases_valid (hs : (leases Id Inode Call unix).Reachable s) : s.Valid unix := by
  refine hs.invariant ?_ fun _ _ _ hv hst => hv.step hst
  rintro s ⟨hl, hta⟩
  refine ⟨?_, ?_, ?_⟩
  · intro inode call
    simp [hl, Sidecars.lockOf, hta]
  · intro call caller id inode ht
    rw [hta] at ht
    cases ht
  · intro _ call task inode ht
    rw [hta] at ht
    cases ht

def Sidecars.Holds (s : Sidecars Id Inode Call) (call : Call) (id : Id) (inode : Inode)
    (unlinked : Bool) : Prop :=
  ∃ caller, s.tasks call = some ⟨caller, id, .held inode unlinked⟩

theorem Sidecars.Valid.holder_unique (hs : s.Valid unix) {call' : Call} {id' : Id} {u u' : Bool}
    (h : s.Holds call id inode u) (h' : s.Holds call' id' inode u') : call = call' := by
  obtain ⟨caller, ht⟩ := h
  obtain ⟨caller', ht'⟩ := h'
  have hm : s.locks inode = some call := (hs.locks inode call).mpr (lockOf_of_task ht)
  have hth : s.locks inode = some call' := (hs.locks inode call').mpr (lockOf_of_task ht')
  exact Option.some.inj (hm.symm.trans hth)

theorem Sidecars.Holds.step
    (h : s.Holds call id inode false) (hs : Step unix s a t) (hu : a ≠ .unlink call)
    (hl : a ≠ .leave call) : t.Holds call id inode false := by
  obtain ⟨caller, ht⟩ := h
  refine ⟨caller, ?_⟩
  have hp : ∀ (s' : Sidecars Id Inode Call) other task, s'.tasks = s.tasks → call ≠ other →
      (s'.put other task).tasks call = some ⟨caller, id, .held inode false⟩ := by
    intro s' other task hsa ho
    rw [Sidecars.put_tasks, if_neg ho, hsa]
    exact ht
  -- every step of another phase is of another call
  cases hs with
  | start hnew =>
    refine hp s _ _ rfl fun h => ?_
    rw [h, hnew] at ht
    cases ht
  | touch => exact ht
  | unlink =>
    refine hp (s.unlink _) _ _ rfl fun h => ?_
    exact hu (h ▸ rfl)
  | leave =>
    refine hp (s.close _) _ _ rfl fun h => ?_
    exact hl (h ▸ rfl)
  | openSidecar ho =>
    refine hp (s.lead _ _) _ _ rfl fun h => ?_
    rw [h, ho] at ht
    cases ht
  | lock ho =>
    refine hp (s.lock _ _) _ _ rfl fun h => ?_
    rw [h, ho] at ht
    cases ht
  | wouldBlock ho =>
    refine hp s _ _ rfl fun h => ?_
    rw [h, ho] at ht
    cases ht
  | returnLease ho =>
    refine hp s _ _ rfl fun h => ?_
    rw [h, ho] at ht
    cases ht
  | returnNone ho =>
    refine hp (s.close _) _ _ rfl fun h => ?_
    rw [h, ho] at ht
    cases ht
  | again ho =>
    refine hp (s.close _) _ _ rfl fun h => ?_
    rw [h, ho] at ht
    cases ht

theorem Sidecars.Holds.run {actions : List (Action Id Inode Call)}
    (h : s.Holds call id inode false) (hr : (leases Id Inode Call unix).Run s actions t)
    (hu : .unlink call ∉ actions) (hl : .leave call ∉ actions) : t.Holds call id inode false := by
  induction hr with
  | refl => exact h
  | tail prior next ih =>
    simp only [List.mem_append, List.mem_singleton, not_or] at hu hl
    exact (ih hu.1 hl.1).step next (Ne.symm hu.2) (Ne.symm hl.2)

theorem returned_named (hs : s.Valid unix) (hst : Step unix s a t)
    (hb : ¬ s.Holds call id inode false) (ha : t.Holds call id inode false) :
    s.names id = some inode := by
  by_cases hn : s.names = t.names
  · rw [hn]
    obtain ⟨caller, ht⟩ := ha
    exact (hs.step hst).named call caller id inode ht
  · -- a step that moves a name returns no lease
    exfalso
    obtain ⟨caller, ht⟩ := ha
    cases hst with
    | openSidecar =>
      obtain ⟨-, ⟨⟩⟩ | ⟨-, ht⟩ := update_eq_some ht
      exact hb ⟨caller, ht⟩
    | unlink =>
      obtain ⟨-, ⟨⟩⟩ | ⟨-, ht⟩ := update_eq_some ht
      exact hb ⟨caller, ht⟩
    | touch => exact hb ⟨caller, ht⟩
    | _ => exact hn rfl

/-- In every reachable state one lease at most is on the file the name leads to;
a lease that a check returns was on that file then, and stays there along every
run in which its holder neither unlinks nor leaves; and two holders that have not
unlinked the name are one. -/
theorem leases_exclude_each_other (unix : Bool) {s : Sidecars Id Inode Call}
    (hs : (leases Id Inode Call unix).Reachable s) :
    (∀ id inode inode' call call' u u', s.Holds call id inode u → s.Holds call' id inode' u' →
      s.names id = some inode → s.names id = some inode' → call = call') ∧
    (∀ a t call id inode, Step unix s a t → ¬ s.Holds call id inode false →
      t.Holds call id inode false → s.names id = some inode) ∧
    (∀ actions t call id inode, s.Holds call id inode false →
      (leases Id Inode Call unix).Run s actions t → .unlink call ∉ actions →
      .leave call ∉ actions → t.Holds call id inode false ∧ t.names id = some inode) ∧
    (∀ id inode inode' call call', s.Holds call id inode false → s.Holds call' id inode' false →
      call = call') := by
  have hv := leases_valid hs
  refine ⟨?_, ?_, ?_, ?_⟩
  · intro id inode inode' call call' u u' h h' hn hn'
    rw [hn] at hn'
    cases hn'
    exact hv.holder_unique h h'
  · intro a t call id inode hst hb ha
    exact returned_named hv hst hb ha
  · intro actions t call id inode h hr hu hl
    have hh := h.run hr hu hl
    obtain ⟨caller, ht⟩ := hh
    exact ⟨⟨caller, ht⟩, (leases_valid (hs.run hr)).named call caller id inode ht⟩
  · intro id inode inode' call call' h h'
    obtain ⟨caller, ht⟩ := h
    obtain ⟨caller', ht'⟩ := h'
    have hn := hv.named call caller id inode ht
    rw [hv.named call' caller' id inode' ht'] at hn
    cases hn
    exact hv.holder_unique ⟨caller, ht⟩ ⟨caller', ht'⟩

def Sidecars.untouched : Sidecars Unit Nat Nat := ⟨fun _ => none, fun _ => none, fun _ => none⟩

theorem first_lease_excludes_others : ∃ s : Sidecars Unit Nat Nat,
    (leases Unit Nat Nat true).Reachable s ∧ s.Holds 0 () 5 false ∧
      ∀ call inode, s.Holds call () inode false → 0 = call := by
  let s₁ := Sidecars.untouched.put 0 ⟨.writer, (), .opening leaseAttempts⟩
  let s₂ := (s₁.lead () 5).put 0 ⟨.writer, (), .opened 3 5⟩
  let s₃ := (s₂.lock 5 0).put 0 ⟨.writer, (), .tried 3 5 true⟩
  let s₄ := s₃.put 0 ⟨.writer, (), .held 5 false⟩
  have hu : s₁.Unused 5 := by
    refine ⟨nofun, fun call task ht hf => ?_⟩
    obtain ⟨-, ⟨⟩⟩ | ⟨-, ⟨⟩⟩ := update_eq_some ht
    cases hf
  have h₁ : Step true Sidecars.untouched (.start 0 .writer ()) s₁ :=
    .start rfl nofun
  have h₂ : Step true s₁ (.openSidecar 0 5) s₂ := .openSidecar rfl (.inr ⟨rfl, hu⟩)
  have h₃ : Step true s₂ (.tryLock 0) s₃ := .lock rfl rfl
  have h₄ : Step true s₃ (.check 0) s₄ := .returnLease rfl fun _ => rfl
  have hs : (leases Unit Nat Nat true).Reachable Sidecars.untouched :=
    .start ⟨fun _ => rfl, fun _ => rfl⟩
  have hh : (leases Unit Nat Nat true).Reachable s₄ := (((hs.step h₁).step h₂).step h₃).step h₄
  refine ⟨s₄, hh, ⟨.writer, rfl⟩, fun call inode ho => ?_⟩
  exact (leases_exclude_each_other true hh).2.2.2 () 5 inode 0 call ⟨.writer, rfl⟩ ho

end LocalAi.Store
