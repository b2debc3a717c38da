import Mathlib.Tactic.Set
import LocalAi.Background.World

/-!
# A background response settles once

A pending record is written by the thread that holds the lease; everybody else
acts on a record that has ended.  Only a job that could not store its end is an
exception: it deletes what may be another server's record by then.

* `Fits`: what the place of a thread says of the record.
* `Valid`: the lease is that of the one thread that holds it, every thread fits
  the record, and only the request that was given the ID makes the first record.
* `Valid.step`: one step, if no such job deletes.
* `background_settles_once`: whole runs.
-/

set_option linter.unusedSectionVars false

namespace LocalAi.Background

open LocalAi.Lib

variable {B Server Call : Type} [DecidableEq Server] [DecidableEq Call]

def IsPending (record : Option (Record B)) : Prop := ∃ r, record = some r ∧ r.pending = true

theorem not_isPending_none : ¬ IsPending (none : Option (Record B)) := by
  rintro ⟨r, hr, _⟩
  cases hr

variable {record : Option (Record B)}

variable {response : Response B} {pc : Pc B} {status : Status}

theorem not_isPending_settled (he : response.status.pending = false)
    (hrec : record = none ∨ record = some ⟨response, false⟩) : ¬ IsPending record := by
  rintro ⟨r, hr, hpr⟩
  rcases hrec with rfl | rfl
  · cases hr
  · cases hr
    exact absurd hpr (by simp [Record.pending, he])

/-- The first record is still to be saved there. -/
def Pc.admits : Pc B → Bool
  | .submitted | .admitting => true
  | _ => false

/-- Whether a thread there has engine work it has not given up. -/
def Pc.generates : Pc B → Bool
  | .submitted | .admitting => true
  | .job stage _ _ => stage != .drained
  | _ => false

def Fits (known : Bool) (record : Option (Record B)) : Pc B → Prop
  | .submitted | .admitting | .unsaved => known = false
  | .job stage phase unlinking => known = true ∧
      (phase.pending = true → stage ≠ .drained ∧ unlinking = false ∧
        ∃ r, record = some r ∧ r.pending = true ∧
          (phase = .inProgress → r.response.status = .inProgress)) ∧
      (∀ response, phase = .settled response → response.status.pending = false ∧
        (record = none ∨ record = some ⟨response, false⟩)) ∧
      (unlinking = true → ¬ IsPending record)
  | .loaded _ r | .prepared r => record = some r ∧ r.pending = true
  | .unlinking held => known = true ∧ (held = false → ¬ IsPending record)
  | .unlinked held => (held = false → known = true) ∧ ¬ IsPending record
  | .looking _ => known = true
  | .wanting purpose | .leased purpose => purpose = .delete → known = true
  | .leaving => True

theorem Fits.removed {known : Bool} (h : Fits known record pc)
    (he : ¬ IsPending record) : Fits known none pc := by
  cases pc with
  | job =>
    obtain ⟨hk, hpe, hs, _⟩ := h
    refine ⟨hk, fun hp => ?_, fun response hph => ⟨(hs response hph).1, .inl rfl⟩,
      fun _ => not_isPending_none⟩
    obtain ⟨_, _, r, hr, hpr, _⟩ := hpe hp
    exact absurd ⟨r, hr, hpr⟩ he
  | loaded purpose r => exact absurd ⟨r, h⟩ he
  | prepared r => exact absurd ⟨r, h⟩ he
  | unlinking => exact ⟨h.1, fun _ => not_isPending_none⟩
  | unlinked => exact ⟨h.1, not_isPending_none⟩
  | _ => exact h

theorem Fits.of_isPending {known : Bool} (h : Fits known record pc)
    (hpe : IsPending record) (hf : pc.holds = false) (record' : Option (Record B)) :
    Fits known record' pc := by
  cases pc with
  | job stage =>
    obtain ⟨hk, hj, hs, hunl⟩ := h
    have hd : stage = .drained := by simpa [Pc.holds] using hf
    refine ⟨hk, fun hp => absurd hd (hj hp).1, fun response hph => ?_,
      fun hu => absurd hpe (hunl hu)⟩
    obtain ⟨hend, hr⟩ := hs response hph
    exact absurd hpe (not_isPending_settled hend hr)
  | unlinking =>
    refine ⟨h.1, fun hh => absurd hpe (h.2 hh)⟩
  | unlinked => exact absurd hpe h.2
  | loaded => cases hf
  | prepared => cases hf
  | _ => exact h

theorem Fits.first (h : Fits false record pc) (hf : pc.holds = false)
    (ho : pc.admits = false) (record' : Option (Record B)) : Fits true record' pc := by
  cases pc with
  | job => cases h.1
  | unlinking => cases h.1
  | unlinked => exact absurd (h.1 hf) (by simp)
  | submitted => cases ho
  | looking => cases h
  | wanting => exact fun _ => rfl
  | _ => cases hf

namespace World

/-- Whether `call` runs and holds the lease. -/
def holdsAt (s : World B Server Call) (call : Call) : Bool := (s.tasks call).any fun task => task.pc.holds

/-- Whether `call` is the request that makes the first record. -/
def admitsAt (s : World B Server Call) (call : Call) : Bool :=
  (s.tasks call).any fun task => task.pc.admits

theorem put_tasks (s : World B Server Call) (call : Call) (server : Server) (pc : Pc B)
    (other : Call) : (s.put call server pc).tasks other
      = if other = call then some ⟨server, pc⟩ else s.tasks other :=
  Function.update_apply ..

theorem gone_tasks (s : World B Server Call) (call other : Call) :
    (s.gone call).tasks other = if other = call then none else s.tasks other :=
  Function.update_apply ..

theorem put_holdsAt (s : World B Server Call) (call : Call) (server : Server) (pc : Pc B)
    (other : Call) :
    (s.put call server pc).holdsAt other = if other = call then pc.holds else s.holdsAt other := by
  rw [holdsAt, put_tasks]
  split <;> rfl

theorem put_admitsAt (s : World B Server Call) (call : Call) (server : Server) (pc : Pc B)
    (other : Call) :
    (s.put call server pc).admitsAt other = if other = call then pc.admits else s.admitsAt other := by
  rw [admitsAt, put_tasks]
  split <;> rfl

variable {s : World B Server Call} {call : Call}

variable {task : Task B Server} {other : Call}

theorem holdsAt_of_task (ht : s.tasks call = some task) : s.holdsAt call = task.pc.holds := by
  rw [holdsAt, ht]
  rfl

theorem admitsAt_of_task (ht : s.tasks call = some task) : s.admitsAt call = task.pc.admits := by
  rw [admitsAt, ht]
  rfl

structure Valid (s : World B Server Call) : Prop where
  lease : ∀ call, s.lease = some call ↔ s.holdsAt call = true
  fits : ∀ call task, s.tasks call = some task → Fits s.known s.record task.pc
  unknown : s.known = false → s.record = none
  first : ∀ call call', s.admitsAt call = true → s.admitsAt call' = true → call = call'
  unissued : s.issued = false → s.known = false ∧ ∀ call, s.admitsAt call = false

theorem Valid.other_free (hs : s.Valid)
    (hh : s.holdsAt call = true) (hoth : other ≠ call) (ht : s.tasks other = some task) :
    task.pc.holds = false := by
  cases h : task.pc.holds with
  | false => rfl
  | true =>
    have hl := (hs.lease other).mpr ((holdsAt_of_task ht).trans h)
    rw [(hs.lease call).mpr hh, Option.some_inj] at hl
    exact absurd hl.symm hoth

/-- Only thread `call` is somewhere else. -/
def Only (call : Call) (s t : World B Server Call) : Prop :=
  ∀ other, other ≠ call → t.tasks other = s.tasks other

theorem only_put (s : World B Server Call) (call : Call) (server : Server) (pc : Pc B) :
    Only call s (s.put call server pc) := by
  intro other ho
  rw [put_tasks, if_neg ho]

theorem only_gone (s : World B Server Call) (call : Call) : Only call s (s.gone call) := by
  intro other ho
  rw [gone_tasks, if_neg ho]

variable {t : World B Server Call}

theorem Only.holdsAt (h : Only call s t)
    (ho : other ≠ call) : t.holdsAt other = s.holdsAt other := by
  rw [World.holdsAt, h other ho, World.holdsAt]

theorem Only.admitsAt (h : Only call s t)
    (ho : other ≠ call) : t.admitsAt other = s.admitsAt other := by
  rw [World.admitsAt, h other ho, World.admitsAt]

inductive Leases (call : Call) (s t : World B Server Call) : Prop
  | same (hlease : t.lease = s.lease) (hholds : t.holdsAt call = s.holdsAt call)
  | taken (hfree : s.lease = none) (hlease : t.lease = some call) (hholds : t.holdsAt call = true)
  | released (hlease : t.lease = if s.lease = some call then none else s.lease)
      (hholds : t.holdsAt call = false)

theorem Valid.leases (hs : s.Valid) (hon : Only call s t)
    (hl : Leases call s t) (other : Call) : t.lease = some other ↔ t.holdsAt other = true := by
  have hb := hs.lease other
  by_cases ho : other = call
  · subst ho
    cases hl with
    | same hl hh => rw [hl, hh, hb]
    | taken hf hl hh => simp [hl, hh]
    | released hl hh =>
      rw [hl, hh]
      by_cases hm : s.lease = some other
      · simp [hm]
      · simp [hm]
  · rw [hon.holdsAt ho]
    cases hl with
    | same hl => rw [hl, hb]
    | taken hf hl =>
      rw [hl, ← hb, hf, Option.some_inj]
      exact ⟨fun h => absurd h.symm ho, nofun⟩
    | released hl =>
      rw [hl, ← hb]
      by_cases hm : s.lease = some call
      · rw [if_pos hm, hm, Option.some_inj]
        exact ⟨nofun, fun h => absurd h.symm ho⟩
      · rw [if_neg hm]

/-- What one thread does keeps `Valid` if it suits the other threads. -/
theorem Valid.change (hs : s.Valid) (hon : Only call s t) (hl : Leases call s t)
    (hm : ∀ task, t.tasks call = some task → Fits t.known t.record task.pc)
    (hoths : ∀ other task, other ≠ call → s.tasks other = some task → Fits t.known t.record task.pc)
    (hu : t.known = false → t.record = none) (ha : t.admitsAt call = true → s.admitsAt call = true)
    (hi : t.issued = false → s.issued = false ∧ t.known = false) : t.Valid := by
  have ha' : ∀ other, t.admitsAt other = true → s.admitsAt other = true := by
    intro other h
    by_cases ho : other = call
    · rw [ho] at h ⊢
      exact ha h
    · rwa [hon.admitsAt ho] at h
  refine ⟨hs.leases hon hl, ?_, hu, ?_, ?_⟩
  · intro other task hta
    by_cases ho : other = call
    · rw [ho] at hta
      exact hm task hta
    · rw [hon other ho] at hta
      exact hoths other task ho hta
  · intro other other' h h'
    exact hs.first other other' (ha' other h) (ha' other' h')
  · intro ht
    obtain ⟨hsi, hk⟩ := hi ht
    refine ⟨hk, fun other => ?_⟩
    cases h : t.admitsAt other with
    | false => rfl
    | true => exact absurd (ha' other h) (by simp [(hs.unissued hsi).2 other])

variable {server : Server}

theorem Valid.put (hs : s.Valid) (hh : pc.holds = s.holdsAt call)
    (hf : Fits s.known s.record pc) (ha : pc.admits = true → s.admitsAt call = true) :
    (s.put call server pc).Valid := by
  refine hs.change (only_put s call server pc) (.same rfl ?_) ?_
    (fun other task _ ht => hs.fits other task ht) hs.unknown ?_
    (fun h => ⟨h, (hs.unissued h).1⟩)
  · rw [put_holdsAt, if_pos rfl, hh]
  · intro task ht
    rw [put_tasks, if_pos rfl] at ht
    cases ht
    exact hf
  · rw [put_admitsAt, if_pos rfl]
    exact ha

theorem Valid.take {s : World B Server Call} {call : Call}
    (hs : s.Valid) (hfr : s.lease = none) (hh : pc.holds = true)
    (hf : Fits s.known s.record pc) (ha : pc.admits = true → s.admitsAt call = true) :
    ((s.take call).put call server pc).Valid := by
  refine hs.change (only_put (s.take call) call server pc) (.taken hfr rfl ?_) ?_
    (fun other task _ ht => hs.fits other task ht) hs.unknown ?_
    (fun h => ⟨h, (hs.unissued h).1⟩)
  · rw [put_holdsAt, if_pos rfl, hh]
  · intro task ht
    rw [put_tasks, if_pos rfl] at ht
    cases ht
    exact hf
  · rw [put_admitsAt, if_pos rfl]
    exact ha

theorem Valid.gone (hs : s.Valid) : ((s.release call).gone call).Valid := by
  refine hs.change (only_gone (s.release call) call) (.released rfl ?_) ?_
    (fun other task _ ht => hs.fits other task ht) hs.unknown ?_
    (fun h => ⟨h, (hs.unissued h).1⟩)
  · rw [holdsAt, gone_tasks, if_pos rfl]
    rfl
  · intro task ht
    rw [gone_tasks, if_pos rfl] at ht
    cases ht
  · intro h
    rw [admitsAt, gone_tasks, if_pos rfl] at h
    cases h

theorem Valid.gone_free (hs : s.Valid) (hf : s.holdsAt call = false) : (s.gone call).Valid := by
  have hr : s.release call = s := by
    have hl : s.lease ≠ some call := fun h => (by simp [(hs.lease call).mp h] at hf)
    rw [release, if_neg hl]
  have hg : ((s.release call).gone call).Valid := hs.gone
  rwa [hr] at hg

theorem Valid.write {s : World B Server Call} {call : Call}
    {record : Option (Record B)} (hs : s.Valid) (hk : s.known = true)
    (hh : pc.holds = s.holdsAt call) (hf : Fits s.known record pc) (ha : pc.admits = false)
    (ho : ∀ other task, other ≠ call → s.tasks other = some task → Fits s.known record task.pc) :
    ((s.write record).put call server pc).Valid := by
  refine hs.change (only_put (s.write record) call server pc) (.same rfl ?_) ?_ ho ?_ ?_
    (fun h => ⟨h, (hs.unissued h).1⟩)
  · rw [put_holdsAt, if_pos rfl, hh]
  · intro task ht
    rw [put_tasks, if_pos rfl] at ht
    cases ht
    exact hf
  · intro h
    exact absurd hk (by simp [show s.known = false from h])
  · rw [put_admitsAt, if_pos rfl, ha]
    intro h
    cases h

theorem Valid.write_pending {record : Option (Record B)}
    (hs : s.Valid) (hh : s.holdsAt call = true) (hp : IsPending s.record)
    (hpc : pc.holds = true) (hf : Fits s.known record pc) (ha : pc.admits = false) :
    ((s.write record).put call server pc).Valid := by
  have hk : s.known = true := by
    cases h : s.known with
    | true => rfl
    | false =>
      rw [hs.unknown h] at hp
      exact absurd hp not_isPending_none
  refine hs.write hk (hpc.trans hh.symm) hf ha fun other task ho ht => ?_
  exact (hs.fits other task ht).of_isPending hp (hs.other_free hh ho ht) record

theorem Valid.remove_ended (hs : s.Valid) (hk : s.known = true)
    (he : ¬ IsPending s.record) (hpc : pc.holds = s.holdsAt call) (hf : Fits s.known none pc)
    (ha : pc.admits = false) : ((s.write none).put call server pc).Valid :=
  hs.write hk hpc hf ha fun other task _ ht =>
    (hs.fits other task ht).removed he

theorem crash_tasks :
    (s.crash server).tasks call = some task ↔ s.tasks call = some task ∧ task.server ≠ server := by
  show (s.tasks call).filter _ = some task ↔ _
  rw [Option.filter_eq_some_iff]
  simp

theorem Valid.crash (hs : s.Valid) (server : Server) : (s.crash server).Valid := by
  have hadm : ∀ call, (s.crash server).admitsAt call = true → s.admitsAt call = true := by
    intro call h
    obtain ⟨task, ht, hpc⟩ := (Option.any_eq_true _ _).mp h
    exact (admitsAt_of_task (crash_tasks.mp ht).1).trans hpc
  refine ⟨?_, ?_, hs.unknown, ?_, ?_⟩
  · intro call
    show s.lease.filter _ = some call ↔ _
    rw [Option.filter_eq_some_iff, hs.lease call]
    constructor
    · rintro ⟨hh, ha⟩
      obtain ⟨task, ht, hpc⟩ := (Option.any_eq_true _ _).mp hh
      rw [ht] at ha
      have ht' := crash_tasks.mpr ⟨ht, by simpa using ha⟩
      exact (holdsAt_of_task ht').trans hpc
    · intro hh
      obtain ⟨task, ht, hpc⟩ := (Option.any_eq_true _ _).mp hh
      obtain ⟨ht', ha⟩ := crash_tasks.mp ht
      refine ⟨(holdsAt_of_task ht').trans hpc, ?_⟩
      rw [ht']
      simpa using ha
  · intro call task ht
    exact hs.fits call task (crash_tasks.mp ht).1
  · intro call call' h h'
    exact hs.first call call' (hadm call h) (hadm call' h')
  · intro hi
    obtain ⟨hk, hn⟩ := hs.unissued hi
    refine ⟨hk, fun call => ?_⟩
    cases h : (s.crash server).admitsAt call with
    | false => rfl
    | true => exact absurd (hadm call h) (by simp [hn call])

end World

/-! ### One step -/

theorem Actor.settles_ended {actor : Actor}
    (h : actor.settles status = true) : status.pending = false := by
  cases actor <;> cases status <;> first | rfl | cases h

/-- `queued`, then `in_progress`, then one end. -/
def Status.follows : Status → Status → Bool
  | .queued, _ => true
  | .inProgress, next => next != .queued
  | status, next => next == status

theorem Status.follows_self (status : Status) : status.follows status = true := by
  cases status <;> rfl

theorem Status.follows_trans {a b c : Status} (h : a.follows b = true) (h' : b.follows c = true) :
    a.follows c = true := by
  cases a <;> cases b <;> cases c <;>
    first | rfl | exact absurd h (by decide) | exact absurd h' (by decide)

theorem Status.follows_inProgress (h : status.pending = true) :
    status.follows .inProgress = true := by
  cases status <;> first | rfl | cases h

theorem Status.follows_ended {next : Status} (h : status.pending = true)
    (he : next.pending = false) : status.follows next = true := by
  cases status <;> cases next <;>
    first | rfl | exact absurd h (by decide) | exact absurd he (by decide)

def Owned (s : World B Server Call) : Action B Server Call → Prop
  | .deleteJob call => ∀ server,
      s.tasks call = some ⟨server, .job .drained .storeFailed false⟩ → IsPending s.record →
        s.lease = none
  | _ => True

namespace World

variable {s t : World B Server Call} {call : Call} {server : Server}

variable {stage : Stage} {phase : Phase B} {a : Action B Server Call}

theorem Valid.of_job (hs : s.Valid) (ht : s.tasks call = some ⟨server, .job stage phase false⟩)
    (hp : phase.pending = true) : s.known = true ∧ s.holdsAt call = true ∧ IsPending s.record := by
  obtain ⟨hk, hj, _, _⟩ := hs.fits call _ ht
  obtain ⟨hst, _, r, hr, hpr, _⟩ := hj hp
  refine ⟨hk, ?_, r, hr, hpr⟩
  rw [holdsAt_of_task ht]
  simpa [Pc.holds] using hst

theorem Valid.write_job {phase' : Phase B} {unlinking : Bool}
    {record : Option (Record B)} (hs : s.Valid)
    (ht : s.tasks call = some ⟨server, .job stage phase false⟩) (hp : phase.pending = true)
    (hf : Fits true record (.job stage phase' unlinking)) :
    ((s.write record).put call server (.job stage phase' unlinking)).Valid := by
  obtain ⟨hk, hh, hr⟩ := hs.of_job ht hp
  refine hs.write_pending hh hr ?_ (hk ▸ hf) rfl
  rw [holdsAt_of_task ht] at hh
  exact hh

theorem Valid.known_of_record {record : Record B} (hs : s.Valid)
    (hr : s.record = some record) : s.known = true := by
  cases h : s.known with
  | true => rfl
  | false =>
    rw [hs.unknown h] at hr
    cases hr

variable {request : Request}

theorem Valid.submit (hs : s.Valid) (hnew : s.tasks call = none) (hi : s.issued = false) :
    (({ s with issued := true }.put call server .submitted).drive request call server).Valid := by
  obtain ⟨hk, hn⟩ := hs.unissued hi
  set t := ({ s with issued := true }.put call server .submitted).drive request call server
  have ho : Only call s t := only_put { s with issued := true } call server .submitted
  have hf : s.holdsAt call = false := by
    rw [holdsAt, hnew]
    rfl
  have hm : t.tasks call = some ⟨server, .submitted⟩ :=
    (put_tasks { s with issued := true } call server .submitted call).trans (if_pos rfl)
  have ha : ∀ other, t.admitsAt other = true → other = call := by
    intro other h
    by_contra hoth
    rw [ho.admitsAt hoth, hn other] at h
    cases h
  refine ⟨hs.leases ho (.same rfl ?_), ?_, hs.unknown, ?_, nofun⟩
  · rw [holdsAt_of_task hm, hf]
    rfl
  · intro other task ht
    by_cases hoth : other = call
    · rw [hoth, hm] at ht
      cases ht
      exact hk
    · rw [ho other hoth] at ht
      exact hs.fits other task ht
  · intro other other' h h'
    rw [ha other h, ha other' h']

theorem Valid.first_record {body : B} (hs : s.Valid)
    (ht : s.tasks call = some ⟨server, .admitting⟩) :
    (({ s with known := true }.write (some ⟨⟨.queued, body⟩, request.resumable⟩)).put
      call server (.job .fresh .queued false)).Valid := by
  have hk : s.known = false := hs.fits call _ ht
  have hi : s.issued = true := by
    cases h : s.issued with
    | true => rfl
    | false => exact absurd ((hs.unissued h).2 call) (by simp [admitsAt_of_task ht, Pc.admits])
  set t := ({ s with known := true }.write (some ⟨⟨.queued, body⟩, request.resumable⟩)).put
    call server (.job .fresh .queued false)
  have hon : Only call s t := only_put _ call server _
  have hm : t.tasks call = some ⟨server, .job .fresh .queued false⟩ :=
    (put_tasks _ call server _ call).trans (if_pos rfl)
  refine hs.change hon (.same rfl ?_) ?_ ?_ nofun ?_ ?_
  · rw [holdsAt_of_task hm, holdsAt_of_task ht]
    rfl
  · intro task ht'
    rw [hm] at ht'
    cases ht'
    refine ⟨rfl, fun _ => ⟨by simp, rfl, _, rfl, rfl, nofun⟩, fun response h => ?_, nofun⟩
    cases h
  · intro other task ho ht'
    have hf := hs.fits other task ht'
    rw [hk] at hf
    refine hf.first (hs.other_free (holdsAt_of_task ht) ho ht') ?_ _
    cases ha : task.pc.admits with
    | false => rfl
    | true =>
      exact absurd (hs.first other call ((admitsAt_of_task ht').trans ha) (admitsAt_of_task ht)) ho
  · intro h
    rw [admitsAt_of_task hm] at h
    cases h
  · intro h
    rw [show t.issued = s.issued from rfl, hi] at h
    cases h

theorem Valid.deleteJob {s : World B Server Call} {call : Call} {server : Server} (hs : s.Valid)
    (ht : s.tasks call = some ⟨server, .job stage phase false⟩) (hp : phase ≠ .deleted)
    (hok : stage = .drained → phase = .storeFailed → IsPending s.record → s.lease = none) :
    ((s.write none).put call server (.job stage .deleted true)).Valid := by
  obtain ⟨hk, hj, hse, _⟩ := hs.fits call _ ht
  have hf : Fits s.known (none : Option (Record B)) (.job stage .deleted true) :=
    ⟨hk, nofun, nofun, fun _ => not_isPending_none⟩
  by_cases hr : IsPending s.record
  · by_cases hst : stage = .drained
    · have hfa : phase = .storeFailed := by
        cases phase with
        | queued => exact absurd hst (hj rfl).1
        | inProgress => exact absurd hst (hj rfl).1
        | settled response =>
          obtain ⟨he, hg⟩ := hse response rfl
          exact absurd hr (not_isPending_settled he hg)
        | storeFailed => rfl
        | deleted => exact absurd rfl hp
      have hfr := hok hst hfa hr
      refine hs.write hk (holdsAt_of_task ht).symm hf rfl fun other task _ ht' => ?_
      refine (hs.fits other task ht').of_isPending hr ?_ none
      cases hh : task.pc.holds with
      | false => rfl
      | true =>
        have hl := (hs.lease other).mpr ((holdsAt_of_task ht').trans hh)
        rw [hfr] at hl
        cases hl
    · have hh : (Pc.job stage phase false).holds = true := by simpa [Pc.holds] using hst
      exact hs.write_pending ((holdsAt_of_task ht).trans hh) hr hh hf rfl
  · exact hs.remove_ended hk hr (holdsAt_of_task ht).symm hf rfl

theorem Valid.drain (hs : s.Valid) (ht : s.tasks call = some ⟨server, .job .running phase false⟩)
    (he : phase.pending = false) :
    ((s.release call).put call server (.job .drained phase false)).Valid := by
  obtain ⟨hk, hj, hse, hu⟩ := hs.fits call _ ht
  refine hs.change (only_put (s.release call) call server _) (.released rfl ?_) ?_
    (fun other task _ ht => hs.fits other task ht) hs.unknown ?_
    (fun h => ⟨h, (hs.unissued h).1⟩)
  · rw [put_holdsAt, if_pos rfl]
    rfl
  · intro task ht'
    rw [put_tasks, if_pos rfl] at ht'
    cases ht'
    exact ⟨hk, fun h => absurd h (by simp [he]), hse, hu⟩
  · intro h
    rw [put_admitsAt, if_pos rfl] at h
    cases h

theorem Valid.unlinkRecord {leased : Bool} (hs : s.Valid)
    (ht : s.tasks call = some ⟨server, .unlinking leased⟩) :
    ((s.write none).put call server (.unlinked leased)).Valid := by
  obtain ⟨hk, hfr⟩ := hs.fits call _ ht
  have hf : Fits s.known (none : Option (Record B)) (.unlinked leased) :=
    ⟨fun _ => hk, not_isPending_none⟩
  by_cases hr : IsPending s.record
  · cases leased with
    | false => exact absurd hr (hfr rfl)
    | true => exact hs.write_pending (holdsAt_of_task ht) hr rfl hf rfl
  · exact hs.remove_ended hk hr (holdsAt_of_task ht).symm hf rfl

theorem Valid.step {s t : World B Server Call}
    (hs : s.Valid) (hok : Owned s a) (hstep : Step request s a t) : t.Valid := by
  cases hstep with
  | submit hn hd hi => exact hs.submit hn hi
  | admitLease ht hfr =>
    exact hs.take hfr rfl (hs.fits _ _ ht) fun _ => admitsAt_of_task ht
  | saveQueued ht => exact hs.first_record ht
  | saveQueuedFails ht =>
    exact hs.put (holdsAt_of_task ht).symm (hs.fits _ _ ht) nofun
  | @register call server phase ht hpe ho =>
    obtain ⟨hk, hj, hsett, hu⟩ := hs.fits _ _ ht
    have hf : Fits s.known s.record (.job .running phase false) :=
      ⟨hk, fun h => ⟨by simp, rfl, (hj h).2.2⟩, hsett, hu⟩
    have hp : (s.put call server (.job .running phase false)).Valid :=
      hs.put (holdsAt_of_task ht).symm hf nofun
    exact { hp with }
  | advance ht =>
    refine hs.write_job ht rfl ⟨rfl, fun _ => ⟨by simp, rfl, _, rfl, rfl, fun _ => rfl⟩, ?_, ?_⟩
    · intro response h
      cases h
    · intro h
      cases h
  | @settle call server stage phase actor response ht hpe ha hsettles =>
    refine hs.write_job ht hpe ⟨rfl, nofun, ?_, nofun⟩
    intro response' h
    cases h
    exact ⟨Actor.settles_ended hsettles, .inr rfl⟩
  | settleRemoves ht hpe =>
    refine hs.write_job ht hpe ⟨rfl, nofun, fun response h => ?_, fun _ => not_isPending_none⟩
    cases h
  | settleFails ht hpe =>
    obtain ⟨hk, hh, hrec⟩ := hs.of_job ht hpe
    refine hs.put (holdsAt_of_task ht).symm ⟨hk, nofun, fun response h => ?_, nofun⟩ nofun
    cases h
  | @answerJob call server stage response ht => exact hs
  | @deleteJob call server stage phase ht hstage hph =>
    exact hs.deleteJob ht hph (by rintro rfl rfl; exact hok server ht)
  | @unlinkJobMarker call server stage phase ht =>
    obtain ⟨hk, hj, hsett, _⟩ := hs.fits _ _ ht
    have hf : Fits s.known s.record (.job stage phase false) :=
      ⟨hk, fun h => absurd (hj h).2.1 (by simp), hsett, nofun⟩
    have hp : (s.put call server (.job stage phase false)).Valid :=
      hs.put (holdsAt_of_task ht).symm hf nofun
    exact { hp with }
  | @drop call server phase ht he => exact hs.gone
  | drain ht he => exact hs.drain ht he
  | unregister => exact { hs with }
  | close => exact { hs with }
  | askResume hn =>
    exact hs.put (by rw [holdsAt, hn]; rfl) nofun nofun
  | askRecover hn =>
    exact hs.put (by rw [holdsAt, hn]; rfl) nofun nofun
  | askOrphan hn =>
    exact hs.put (by rw [holdsAt, hn]; rfl) nofun nofun
  | askClient hn hcli hk =>
    exact hs.put (by rw [holdsAt, hn]; rfl) hk nofun
  | lookPending ht =>
    exact hs.put (holdsAt_of_task ht).symm (fun _ => hs.fits _ _ ht) nofun
  | lookDelete ht he =>
    exact hs.put (holdsAt_of_task ht).symm ⟨hs.fits _ _ ht, fun _ => he⟩ nofun
  | lookCancel ht => exact hs.gone_free (holdsAt_of_task ht)
  | takeLease ht hfr => exact hs.take hfr rfl (hs.fits _ _ ht) nofun
  | load ht hpu hrec hpe =>
    exact hs.put (holdsAt_of_task ht).symm ⟨hrec, hpe⟩ nofun
  | loadCancel ht =>
    exact hs.put (holdsAt_of_task ht).symm trivial nofun
  | loadOrphan ht hrec =>
    refine hs.put (holdsAt_of_task ht).symm ⟨nofun, ?_⟩ nofun
    rw [hrec]
    exact not_isPending_none
  | loadDelete ht =>
    exact hs.put (holdsAt_of_task ht).symm ⟨hs.fits _ _ ht rfl, nofun⟩ nofun
  | saveCancelled ht =>
    exact hs.write_pending (holdsAt_of_task ht) ⟨_, hs.fits _ _ ht⟩ rfl trivial rfl
  | @settleInterrupted call server pc record response ht hpc he =>
    have hf := hs.fits _ _ ht
    have hread : s.holdsAt call = true ∧ IsPending s.record := by
      rw [holdsAt_of_task ht]
      rcases hpc with rfl | rfl | rfl
      · exact ⟨rfl, _, hf⟩
      · exact ⟨rfl, _, hf⟩
      · exact ⟨rfl, _, hf⟩
    exact hs.write_pending hread.1 hread.2 rfl trivial rfl
  | prepare ht =>
    exact hs.put (holdsAt_of_task ht).symm (hs.fits _ _ ht) nofun
  | @resubmit call server record phase ht hpe hph =>
    obtain ⟨hrec, hread⟩ := hs.fits _ _ ht
    have hf : Fits s.known s.record (.job .fresh phase false) :=
      ⟨hs.known_of_record hrec, fun _ => ⟨by simp, rfl, record, hrec, hread, hph⟩,
        fun response h => (by rw [h] at hpe; cases hpe), nofun⟩
    have hp : (s.put call server (.job .fresh phase false)).Valid :=
      hs.put (holdsAt_of_task ht).symm hf nofun
    exact { hp with }
  | prune hn hrec he =>
    refine hs.put (by rw [holdsAt, hn]; rfl) ⟨hs.known_of_record hrec, fun _ => ?_⟩ nofun
    rintro ⟨r, hr, hpr⟩
    rw [hrec] at hr
    cases hr
    rw [he] at hpr
    cases hpr
  | unlinkRecord ht => exact hs.unlinkRecord ht
  | @unlinkMarker call server ht =>
    have hp : (s.put call server .leaving).Valid :=
      hs.put (holdsAt_of_task ht).symm trivial nofun
    exact { hp with }
  | unlinkLast ht =>
    have hg := hs.gone_free (holdsAt_of_task ht)
    exact { hg with }
  | @unlinkUnsaved call server ht =>
    have hp : (s.put call server .leaving).Valid :=
      hs.put (holdsAt_of_task ht).symm trivial nofun
    exact { hp with }
  | leave => exact hs.gone
  | mark => exact { hs with }
  | hostedCall => exact { hs with }
  | endDriver => exact { hs with }
  | crash => exact hs.crash _

/-! ### Whole runs -/

/-- The record of `t` comes after that of `s`. -/
structure Onward (s t : World B Server Call) : Prop where
  known : s.known = true → t.known = true
  kept : ∀ r r', s.record = some r → t.record = some r' →
    r.response.status.follows r'.response.status = true ∧ (r.pending = false → r' = r)
  removed : s.known = true → s.record = none → t.record = none

/-- One step of the record: the first one is `queued`. -/
structure Writes (s t : World B Server Call) : Prop extends Onward s t where
  first : ∀ r, s.record = none → t.record = some r → r.response.status = .queued

theorem Writes.same (hk : t.known = s.known) (hrec : t.record = s.record) : Writes s t := by
  refine ⟨⟨fun h => hk.trans h, ?_, fun _ h => hrec.trans h⟩, ?_⟩
  · intro r r' hr hr'
    rw [hrec, hr, Option.some_inj] at hr'
    rw [← hr']
    exact ⟨Status.follows_self _, fun _ => rfl⟩
  · intro r hs ht
    rw [hrec, hs] at ht
    cases ht

theorem Writes.gone (hk : t.known = s.known) (hrec : t.record = none) : Writes s t := by
  refine ⟨⟨fun h => hk.trans h, fun r r' _ hr' => ?_, fun _ _ => hrec⟩, fun r _ ht => ?_⟩
  · rw [hrec] at hr'
    cases hr'
  · rw [hrec] at ht
    cases ht

theorem Writes.write {s t : World B Server Call} {record next : Record B}
    (hk : t.known = s.known) (hrec : s.record = some record)
    (hp : record.pending = true) (hn : t.record = some next)
    (hf : record.response.status.follows next.response.status = true) : Writes s t := by
  refine ⟨⟨fun h => hk.trans h, fun r r' hr hr' => ?_, fun _ h => ?_⟩, fun r h _ => ?_⟩
  · rw [hrec, Option.some_inj] at hr
    rw [hn, Option.some_inj] at hr'
    subst hr hr'
    exact ⟨hf, fun h => absurd hp (by simp [h])⟩
  · rw [hrec] at h
    cases h
  · rw [hrec] at h
    cases h

theorem Valid.writes (hs : s.Valid) (hst : Step request s a t) : Writes s t := by
  cases hst with
  | saveQueued ht =>
    have hk : s.known = false := hs.fits _ _ ht
    have hrec := hs.unknown hk
    refine ⟨⟨fun _ => rfl, fun r _ hr => ?_, fun h => absurd h (by simp [hk])⟩, fun r _ hr => ?_⟩
    · rw [hrec] at hr
      cases hr
    · cases hr
      rfl
  | advance ht =>
    obtain ⟨_, hj, _, _⟩ := hs.fits _ _ ht
    obtain ⟨_, _, r, hr, hp, _⟩ := hj rfl
    exact .write rfl hr hp rfl (Status.follows_inProgress hp)
  | settle ht hp ha hse =>
    obtain ⟨_, _, r, hr, hread⟩ := hs.of_job ht hp
    exact .write rfl hr hread rfl (Status.follows_ended hread (Actor.settles_ended hse))
  | saveCancelled ht =>
    obtain ⟨hr, hread⟩ := hs.fits _ _ ht
    exact .write rfl hr hread rfl (Status.follows_ended hread rfl)
  | @settleInterrupted call server pc record response ht hpc he =>
    have hf := hs.fits _ _ ht
    have hread : s.record = some record ∧ record.pending = true := by
      rcases hpc with rfl | rfl | rfl
      · exact hf
      · exact hf
      · exact hf
    exact .write rfl hread.1 hread.2 rfl (Status.follows_ended hread.2 he)
  | settleRemoves => exact .gone rfl rfl
  | deleteJob => exact .gone rfl rfl
  | unlinkRecord => exact .gone rfl rfl
  | _ => exact .same rfl rfl

theorem Onward.trans {m : World B Server Call} (hs : s.Valid) (h : Onward s m) (h' : Onward m t) :
    Onward s t := by
  refine ⟨fun hk => h'.known (h.known hk), ?_, ?_⟩
  · intro r r' hr hr'
    cases hm : m.record with
    | none =>
      have hg := h'.removed (h.known (hs.known_of_record hr)) hm
      rw [hg] at hr'
      cases hr'
    | some between =>
      obtain ⟨hf, hsa⟩ := h.kept r between hr hm
      obtain ⟨hf', hsa'⟩ := h'.kept between r' hm hr'
      refine ⟨Status.follows_trans hf hf', fun he => ?_⟩
      rw [hsa' (by rw [hsa he]; exact he), hsa he]
  · intro hk hn
    exact h'.removed (h.known hk) (h.removed hk hn)

variable {request : Request}

theorem Valid.start {s : World B Server Call} (hs : (background B Server Call request).start s) :
    s.Valid := by
  obtain ⟨_, hk, hr, _, hl, ht, _, _⟩ := hs
  refine ⟨?_, ?_, fun _ => hr, ?_, fun _ => ⟨hk, fun call => ?_⟩⟩
  · intro call
    rw [hl, holdsAt, ht]
    exact ⟨nofun, nofun⟩
  · intro call task hta
    rw [ht] at hta
    cases hta
  · intro call call' h
    rw [admitsAt, ht] at h
    cases h
  · rw [admitsAt, ht]
    rfl

theorem Valid.reachable (hs : ((background B Server Call request).restrict Owned).Reachable s) :
    s.Valid := by
  induction hs with
  | start h => exact @Valid.start _ _ _ _ _ request _ h
  | step prior next ih => exact ih.step next.1 next.2

theorem Valid.run_onward {actions : List (Action B Server Call)} (hs : s.Valid)
    (hr : ((background B Server Call request).restrict Owned).Run s actions t) :
    t.Valid ∧ Onward s t := by
  induction hr with
  | refl => exact ⟨hs, (Writes.same rfl rfl).toOnward⟩
  | tail prior next ih =>
    obtain ⟨hm, ho⟩ := ih
    exact ⟨hm.step next.1 next.2, ho.trans hs (hm.writes next.2).toOnward⟩

/-- The store holds `response`, or its record was deleted. -/
def Holds (s : World B Server Call) (response : Response B) : Prop :=
  (∃ record, s.record = some record ∧ record.response = response) ∨ s.record = none ∧ s.known = true

theorem Valid.settled {unlinking : Bool} (hs : s.Valid)
    (ht : s.tasks call = some ⟨server, .job stage (.settled response) unlinking⟩) :
    s.Holds response := by
  obtain ⟨hk, _, hse, _⟩ := hs.fits call _ ht
  rcases (hse response rfl).2 with hn | hso
  · exact .inr ⟨hn, hk⟩
  · exact .inl ⟨_, hso, rfl⟩

theorem Valid.reported (hs : s.Valid)
    (hst : Step request s a t) (hr : a.reported = some response) : t.Holds response := by
  cases hst with
  | settle =>
    cases hr
    exact .inl ⟨_, rfl, rfl⟩
  | answerJob ht =>
    cases hr
    exact hs.settled ht
  | lookCancel ht hrec =>
    cases hr
    exact .inl ⟨_, hrec, rfl⟩
  | loadCancel ht hrec =>
    cases hr
    exact .inl ⟨_, hrec, rfl⟩
  | saveCancelled =>
    cases hr
    exact .inl ⟨_, rfl, rfl⟩
  | _ => cases hr

/-- The server of `call` has engine work for the response that it has not given up. -/
def Generates (s : World B Server Call) (call : Call) : Prop :=
  ∃ task, s.tasks call = some task ∧ task.pc.generates = true

/-- One thread generates: the request before its record, then who holds the lease. -/
theorem Valid.generates {call' : Call} (hs : s.Valid) (h : s.Generates call)
    (h' : s.Generates call') : call = call' := by
  obtain ⟨task, ht, hpc⟩ := h
  obtain ⟨task', ht', hpc'⟩ := h'
  have hf := hs.fits call task ht
  have hf' := hs.fits call' task' ht'
  have hki : ∀ {task : Task B Server}, Fits s.known s.record task.pc → task.pc.generates = true →
      (s.known = false ∧ task.pc.admits = true) ∨ (s.known = true ∧ task.pc.holds = true) := by
    rintro ⟨server, pc⟩ hf hpc
    cases pc with
    | submitted => exact .inl ⟨hf, rfl⟩
    | admitting => exact .inl ⟨hf, rfl⟩
    | job => exact .inr ⟨hf.1, hpc⟩
    | _ => cases hpc
  rcases hki hf hpc with ⟨hk, ha⟩ | ⟨hk, hh⟩
  · rcases hki hf' hpc' with ⟨_, ha'⟩ | ⟨hk', _⟩
    · exact hs.first call call' ((admitsAt_of_task ht).trans ha)
        ((admitsAt_of_task ht').trans ha')
    · exact absurd hk' (by simp [hk])
  · rcases hki hf' hpc' with ⟨hk', _⟩ | ⟨_, hh'⟩
    · exact absurd hk (by simp [hk'])
    · have hl := (hs.lease call).mpr ((holdsAt_of_task ht).trans hh)
      have hl' := (hs.lease call').mpr ((holdsAt_of_task ht').trans hh')
      rw [hl, Option.some_inj] at hl'
      exact hl'

end World

/-- While no job that stored no end deletes under somebody else's lease: the status
moves forward and an end stays as it was written, what was deleted is not written
again, one thread generates the response, and a Response that a job settled on or
a cancel reports is the stored one, or was deleted. -/
theorem background_settles_once {request : Request} {s m t : World B Server Call}
    {actions more : List (Action B Server Call)}
    (hs : ((background B Server Call request).restrict Owned).Reachable s)
    (hrun : ((background B Server Call request).restrict Owned).Run s actions m)
    (hmore : ((background B Server Call request).restrict Owned).Run m more t) :
    (∀ r r', s.record = some r → m.record = some r' →
      r.response.status.follows r'.response.status = true ∧ (r.pending = false → r' = r)) ∧
    (∀ r, s.record = some r → m.record = none → t.record = none) ∧
    (∀ call call', m.Generates call → m.Generates call' → call = call') ∧
    (∀ call server stage response unlinking,
      m.tasks call = some ⟨server, .job stage (.settled response) unlinking⟩ → m.Holds response) ∧
    ∀ a next, Owned m a → Step request m a next →
      (∀ r, m.record = none → next.record = some r → r.response.status = .queued) ∧
      ∀ response, a.reported = some response → next.Holds response := by
  have hv := World.Valid.reachable hs
  obtain ⟨hm, ho⟩ := hv.run_onward hrun
  obtain ⟨_, ho'⟩ := hm.run_onward hmore
  refine ⟨ho.kept, ?_, fun call call' => hm.generates,
    fun call server stage response unlinking => hm.settled, fun a next hok hst => ⟨?_, ?_⟩⟩
  · intro r hr hn
    exact ho'.removed (ho.known (hv.known_of_record hr)) hn
  · exact (hm.writes hst).first
  · intro response hrep
    exact hm.reported hst hrep

/-! ### Two servers -/

def plainRequest : Request := ⟨false, true⟩

/-- Two servers and a response that nobody has asked for. -/
def quiet : World Unit Bool Nat where
  issued := false
  known := false
  record := none
  marker := false
  lease := none
  tasks := fun _ => none
  drivers := fun _ => none
  registry := fun _ => none
  closing := fun _ => false
  begun := false

theorem quiet_start (request : Request) : (background Unit Bool Nat request).start quiet :=
  ⟨rfl, rfl, rfl, rfl, rfl, fun _ => rfl, fun _ => rfl, rfl⟩

/-- Server `false` has admitted the request and runs its job. -/
def runningJob : World Unit Bool Nat :=
  let s₁ := ({ quiet with issued := true }.put 0 false .submitted).drive plainRequest 0 false
  let s₂ := (s₁.take 0).put 0 false .admitting
  let s₃ := ({ s₂ with known := true }.write (some ⟨⟨.queued, ()⟩, true⟩)).put 0 false
    (.job .fresh .queued false)
  { s₃ with registry := Function.update s₃.registry false (some 0) }.put 0 false
    (.job .running .queued false)

theorem runningJob_reachable :
    ((background Unit Bool Nat plainRequest).restrict Owned).Reachable runningJob := by
  let s₁ := ({ quiet with issued := true }.put 0 false .submitted).drive plainRequest 0 false
  let s₂ := (s₁.take 0).put 0 false .admitting
  let s₃ := ({ s₂ with known := true }.write (some ⟨⟨.queued, ()⟩, true⟩)).put 0 false
    (.job .fresh .queued false)
  have h₀ : ((background Unit Bool Nat plainRequest).restrict Owned).Reachable quiet :=
    .start (quiet_start plainRequest)
  have h₁ := h₀.step (a := Action.submit 0 false) (t := s₁) ⟨trivial, .submit rfl rfl rfl⟩
  have h₂ := h₁.step (a := Action.takeLease 0) (t := s₂) ⟨trivial, .admitLease rfl rfl⟩
  have h₃ := h₂.step (a := Action.saveQueued 0 ()) (t := s₃) ⟨trivial, .saveQueued rfl⟩
  exact h₃.step (a := Action.register 0) ⟨trivial, .register rfl rfl rfl⟩

/-- A job could store no end and could not remove its record either.  When its lease
is gone another server resumes the response; deleting it through the first job
removes the record under the second, which writes it again. -/
theorem deleted_record_written_again : ∃ s m t : World Unit Bool Nat, ∃ actions more r,
      (background Unit Bool Nat plainRequest).Reachable s ∧ s.record = some r ∧
      (background Unit Bool Nat plainRequest).Run s actions m ∧ m.record = none ∧
      (background Unit Bool Nat plainRequest).Run m more t ∧ t.record ≠ none := by
  let s₁ := runningJob.put 0 false (.job .running .storeFailed false)
  let s₂ := (s₁.release 0).put 0 false (.job .drained .storeFailed false)
  -- the other server resumes the response
  let s₃ := s₂.put 1 true (.wanting .resume)
  let s₄ := (s₃.take 1).put 1 true (.leased .resume)
  let s₅ := s₄.put 1 true (.loaded .resume ⟨⟨.queued, ()⟩, true⟩)
  let s₆ := s₅.put 1 true (.prepared ⟨⟨.queued, ()⟩, true⟩)
  let s₇ := (s₆.put 1 true (.job .fresh .queued false)).drive plainRequest 1 true
  let s₈ := { s₇ with registry := Function.update s₇.registry true (some 1) }.put 1 true
    (.job .running .queued false)
  -- and the first job deletes its record
  let s₉ := (s₈.write none).put 0 false (.job .drained .deleted true)
  let s₁₀ := (s₉.write (some ⟨⟨.inProgress, ()⟩, true⟩)).put 1 true
    (.job .running .inProgress false)
  have h₀ := runningJob_reachable.of_restrict
  have h₁ := h₀.step (t := s₁) (.settleFails rfl rfl nofun)
  have h₂ := h₁.step (t := s₂) (.drain rfl rfl)
  have h₃ := h₂.step (t := s₃) (.askResume rfl rfl rfl rfl)
  have h₄ := h₃.step (t := s₄) (.takeLease rfl rfl)
  have h₅ := h₄.step (t := s₅) (.load rfl (.inl rfl) rfl rfl)
  have h₆ := h₅.step (t := s₆) (.prepare rfl rfl nofun)
  have h₇ := h₆.step (t := s₇) (.resubmit rfl rfl nofun)
  have h₈ := h₇.step (t := s₈) (.register rfl rfl rfl)
  exact ⟨s₈, s₉, s₁₀, [.deleteJob 0], [.advance 1 ()], _, h₈, rfl,
    .tail (.refl _) (.deleteJob rfl (by simp) (by simp)), rfl, .tail (.refl _) (.advance rfl),
    by simp [s₁₀, World.write, World.put]⟩

theorem cancelled_job_is_stored : ∃ m : World Unit Bool Nat,
      ((background Unit Bool Nat plainRequest).restrict Owned).Run runningJob
        [.settle 0 .cancel ⟨.cancelled, ()⟩] m ∧
      Status.follows .queued .cancelled = true ∧ m.Holds ⟨.cancelled, ()⟩ ∧
      ∀ call call', m.Generates call → m.Generates call' → call = call' := by
  let m := (runningJob.write (some ⟨⟨.cancelled, ()⟩, false⟩)).put 0 false
    (.job .running (.settled ⟨.cancelled, ()⟩) false)
  have hr : ((background Unit Bool Nat plainRequest).restrict Owned).Run runningJob
      [.settle 0 .cancel ⟨.cancelled, ()⟩] m :=
    .tail (.refl _) ⟨trivial, .settle rfl rfl nofun rfl⟩
  obtain ⟨hk, _, ho, hs, _⟩ :=
    background_settles_once runningJob_reachable hr (.refl m)
  exact ⟨m, hr, (hk _ _ rfl rfl).1, hs 0 false .running _ false rfl, ho⟩

end LocalAi.Background
