import LocalAi.Background.Settle

/-!
# Hosted calls and restarts

Before its first hosted call a driver creates the response's marker, and `resume`
regenerates a response with hosted tools only without it.  The marker may come
before the record, and a sweep takes a marker without a record for a leftover.

* `Guarded`: no marker goes while the request has yet to take the lease.
* `Marked`: a call that has begun left its marker, or there will be no pending
  record any more.
* `hosted_calls_not_regenerated`: whole runs.
* `swept_marker_runs_twice`: a sweep between the call and the lease.
-/

set_option linter.unusedSectionVars false

namespace LocalAi.Background

open LocalAi.Lib

variable {B Server Call : Type} [DecidableEq Server] [DecidableEq Call]

/-- A record that cannot be settled is removed, and no marker is unlinked while the
request has yet to take the lease. -/
def Guarded (s : World B Server Call) : Action B Server Call → Prop
  | .settleFails _ removed => removed = true
  | .unlinkMarker _ => s.marker = true →
      ∀ other server, s.tasks other ≠ some ⟨server, .submitted⟩
  | _ => True

def Pc.runs : Pc B → Bool
  | .job stage _ _ => stage != .drained
  | _ => false

def Pc.lost : Pc B → Bool
  | .job _ .storeFailed _ | .job _ .deleted _ => true
  | _ => false

namespace World

/-- No pending record will be there any more. -/
def Closed (s : World B Server Call) : Prop :=
  ¬ IsPending s.record ∧ ∀ call, s.admitsAt call = false

/-- A hosted call has begun, or may begin. -/
def Begins (s : World B Server Call) : Prop :=
  s.begun = true ∨ ∃ call server, s.drivers call = some ⟨server, true⟩

structure Marked (request : Request) (s : World B Server Call) : Prop where
  lost : ∀ call task, s.tasks call = some task → task.pc.lost = true → ¬ IsPending s.record
  driven : ∀ call driver, s.drivers call = some driver → IsPending s.record →
    ∃ task, s.tasks call = some task ∧ task.pc.runs = true ∧ task.server = driver.server
  -- before the first record the only driver is that of the request
  first : ∀ call driver other task, s.drivers call = some driver → s.tasks other = some task →
    task.pc.admits = true → other = call ∧ task.server = driver.server
  hosted : ∀ call driver, s.drivers call = some driver → request.hosted = true
  begun : s.begun = true → request.hosted = true
  unissued : s.issued = false → s.begun = false ∧ ∀ call, s.drivers call = none
  kept : ∀ record, s.record = some record → record.request = true → request.resumable = true
  marked : s.Begins → request.resumable = true → s.marker = true ∨ s.Closed
  prepared : ∀ call server record, s.tasks call = some ⟨server, .prepared record⟩ →
    record.request = true ∧ (request.hosted = true → s.marker = false)

variable {request : Request}

variable {s : World B Server Call} {call : Call} {server : Server}

variable {t : World B Server Call} {pc pc' : Pc B}

theorem Marked.change (hm : s.Marked request)
    (hon : Only call s t) (hd : t.drivers = s.drivers) (hmarker : t.marker = s.marker)
    (hbe : t.begun = s.begun) (hi : t.issued = s.issued)
    (hp : IsPending t.record → IsPending s.record)
    (hk : ∀ record, t.record = some record → record.request = true → request.resumable = true)
    (hl : ∀ task, t.tasks call = some task → task.pc.lost = true → ¬ IsPending t.record)
    (hru : ∀ task, s.tasks call = some task → task.pc.runs = true → IsPending t.record →
      ∃ pc, t.tasks call = some ⟨task.server, pc⟩ ∧ pc.runs = true)
    (ha : ∀ task, t.tasks call = some task → task.pc.admits = true →
      ∃ pc, s.tasks call = some ⟨task.server, pc⟩ ∧ pc.admits = true)
    (hpr : ∀ server record, t.tasks call = some ⟨server, .prepared record⟩ →
      record.request = true ∧ (request.hosted = true → s.marker = false)) : t.Marked request := by
  have hadmAt : ∀ other, t.admitsAt other = true → s.admitsAt other = true := by
    intro other h
    by_cases ho : other = call
    · subst ho
      obtain ⟨task, hta, hpc⟩ := (Option.any_eq_true _ _).mp h
      obtain ⟨pc, hta', hpc'⟩ := ha task hta hpc
      exact (admitsAt_of_task hta').trans hpc'
    · rwa [hon.admitsAt ho] at h
  refine ⟨?_, ?_, ?_, ?_, ?_, ?_, hk, ?_, ?_⟩
  · intro other task hta hpc
    by_cases ho : other = call
    · subst ho
      exact hl task hta hpc
    · rw [hon other ho] at hta
      exact fun h => hm.lost other task hta hpc (hp h)
  · intro other driver hdrv ht
    rw [hd] at hdrv
    obtain ⟨task, hta, hpc, hs⟩ := hm.driven other driver hdrv (hp ht)
    by_cases ho : other = call
    · subst ho
      obtain ⟨pc, hta', hpc'⟩ := hru task hta hpc ht
      exact ⟨_, hta', hpc', hs⟩
    · exact ⟨task, (hon other ho).trans hta, hpc, hs⟩
  · intro other driver admission task hdrv hta hpc
    rw [hd] at hdrv
    by_cases ho : admission = call
    · subst ho
      obtain ⟨pc, hta', hpc'⟩ := ha task hta hpc
      exact hm.first other driver admission ⟨task.server, pc⟩ hdrv hta' hpc'
    · rw [hon admission ho] at hta
      exact hm.first other driver admission task hdrv hta hpc
  · rw [hd]
    exact hm.hosted
  · rw [hbe]
    exact hm.begun
  · rw [hi, hbe, hd]
    exact hm.unissued
  · intro hb hr
    have hb' : s.Begins := by
      rcases hb with h | ⟨other, server, h⟩
      · exact .inl (hbe ▸ h)
      · exact .inr ⟨other, server, hd ▸ h⟩
    rcases hm.marked hb' hr with hmark | ⟨he, hn⟩
    · exact .inl (hmarker.trans hmark)
    · refine .inr ⟨fun h => he (hp h), fun other => ?_⟩
      cases h : t.admitsAt other with
      | false => rfl
      | true => exact absurd (hadmAt other h) (by simp [hn other])
  · intro other server record hta
    rw [hmarker]
    by_cases ho : other = call
    · subst ho
      exact hpr server record hta
    · rw [hon other ho] at hta
      exact hm.prepared other server record hta

/-- `t` differs from `s` in the record, the lease, the registry and the place of
`call`. -/
structure Quiet (call : Call) (s t : World B Server Call) : Prop where
  only : Only call s t
  drivers : t.drivers = s.drivers
  marker : t.marker = s.marker
  begun : t.begun = s.begun
  issued : t.issued = s.issued

theorem Marked.goes
    (hm : s.Marked request) (hq : Quiet call s t) (hta : s.tasks call = some ⟨server, pc⟩)
    (hta' : t.tasks call = some ⟨server, pc'⟩) (hpe : IsPending t.record → IsPending s.record)
    (hk : ∀ record, t.record = some record → record.request = true → request.resumable = true)
    (hl : pc'.lost = true → ¬ IsPending t.record)
    (hr : pc.runs = true → IsPending t.record → pc'.runs = true)
    (ha : pc'.admits = true → pc.admits = true) (hp : ∀ record, pc' = .prepared record →
      record.request = true ∧ (request.hosted = true → s.marker = false)) : t.Marked request := by
  refine hm.change hq.only hq.drivers hq.marker hq.begun hq.issued hpe hk ?_ ?_ ?_ ?_
  · intro task h hpc
    rw [hta'] at h
    cases h
    exact hl hpc
  · intro task h hpc ht
    rw [hta] at h
    cases h
    exact ⟨pc', hta', hr hpc ht⟩
  · intro task h hpc
    rw [hta'] at h
    cases h
    exact ⟨pc, hta, ha hpc⟩
  · intro server' record h
    rw [hta'] at h
    cases h
    exact hp record rfl

theorem Marked.starts (hm : s.Marked request) (hn : s.tasks call = none)
    (hl : pc.lost = false) (ha : pc.admits = false)
    (hp : ∀ record, pc ≠ .prepared record) : (s.put call server pc).Marked request := by
  have hmi : (s.put call server pc).tasks call = some ⟨server, pc⟩ :=
    (put_tasks s call server pc call).trans (if_pos rfl)
  refine hm.change (only_put s call server pc) rfl rfl rfl rfl (fun h => h) hm.kept ?_ ?_ ?_ ?_
  · intro task h hpc
    rw [hmi] at h
    cases h
    rw [hl] at hpc
    cases hpc
  · intro task h
    rw [hn] at h
    cases h
  · intro task h hpc
    rw [hmi] at h
    cases h
    rw [ha] at hpc
    cases hpc
  · intro server' record h
    rw [hmi] at h
    cases h
    exact absurd rfl (hp record)

variable {s t : World B Server Call}

theorem Marked.ends {call : Call} (hm : s.Marked request)
    (hq : Quiet call s t) (hg : t.tasks call = none) (hr : t.record = s.record)
    (hru : ∀ task, s.tasks call = some task → task.pc.runs = true → ¬ IsPending s.record) :
    t.Marked request := by
  refine hm.change hq.only hq.drivers hq.marker hq.begun hq.issued
    (fun h => hr ▸ h) (fun record h => hm.kept record (hr ▸ h)) ?_ ?_ ?_ ?_
  · intro task h
    rw [hg] at h
    cases h
  · intro task h hpc ht
    exact absurd (hr ▸ ht) (hru task h hpc)
  · intro task h
    rw [hg] at h
    cases h
  · intro server record h
    rw [hg] at h
    cases h

theorem Marked.ended {stage : Stage} {phase : Phase B} {unlinking : Bool} (hm : s.Marked request)
    (hs : s.Valid) (ht : s.tasks call = some ⟨server, .job stage phase unlinking⟩)
    (he : phase.pending = false) : ¬ IsPending s.record := by
  cases phase with
  | queued => cases he
  | inProgress => cases he
  | settled response =>
    obtain ⟨_, _, hse, _⟩ := hs.fits call _ ht
    obtain ⟨hst, hr⟩ := hse response rfl
    exact not_isPending_settled hst hr
  | storeFailed => exact hm.lost call _ ht rfl
  | deleted => exact hm.lost call _ ht rfl

theorem Valid.no_admits (hs : s.Valid) (hk : s.known = true) (call : Call) :
    s.admitsAt call = false := by
  cases h : s.admitsAt call with
  | false => rfl
  | true =>
    obtain ⟨task, ht, hpc⟩ := (Option.any_eq_true _ _).mp h
    have hf := hs.fits call task ht
    obtain ⟨server, pc⟩ := task
    cases pc with
    | submitted => exact absurd hk (by simp [show s.known = false from hf])
    | admitting => exact absurd hk (by simp [show s.known = false from hf])
    | _ => cases hpc

theorem Marked.submit (hm : s.Marked request) (hs : s.Valid) (hi : s.issued = false) :
    (({ s with issued := true }.put call server .submitted).drive request call server).Marked
      request := by
  obtain ⟨hb, hdrvs⟩ := hm.unissued hi
  obtain ⟨hk, hn⟩ := hs.unissued hi
  set t := ({ s with issued := true }.put call server .submitted).drive request call server
  have hr : t.record = none := hs.unknown hk
  have he : ¬ IsPending t.record := by
    rw [hr]
    exact not_isPending_none
  have hta : ∀ other task, t.tasks other = some task →
      other = call ∧ task = ⟨server, .submitted⟩ ∨ s.tasks other = some task := by
    intro other task ht
    obtain ⟨ho, ⟨⟩⟩ | ⟨-, ht⟩ := update_eq_some ht
    · exact .inl ⟨ho, rfl⟩
    · exact .inr ht
  have hdriven : ∀ other driver, t.drivers other = some driver →
      other = call ∧ driver = ⟨server, false⟩ ∧ request.hosted = true := by
    intro other driver hd
    have hd' : (if request.hosted then
        Function.update s.drivers call (some (⟨server, false⟩ : Driver Server)) else s.drivers) other
          = some driver := hd
    by_cases hh : request.hosted
    · rw [if_pos hh] at hd'
      obtain ⟨ho, ⟨⟩⟩ | ⟨-, hd'⟩ := update_eq_some hd'
      · exact ⟨ho, rfl, hh⟩
      · rw [hdrvs] at hd'
        cases hd'
    · rw [if_neg hh, hdrvs] at hd'
      cases hd'
  refine ⟨fun _ _ _ _ => he, fun _ _ _ h => absurd h he, ?_, ?_, ?_, nofun, ?_, ?_, ?_⟩
  · intro other driver admission task hd ht hpc
    obtain ⟨rfl, rfl, _⟩ := hdriven other driver hd
    rcases hta admission task ht with ⟨rfl, rfl⟩ | ht
    · exact ⟨rfl, rfl⟩
    · have ha := (admitsAt_of_task ht).trans hpc
      rw [hn admission] at ha
      cases ha
  · exact fun other driver hd => (hdriven other driver hd).2.2
  · intro h
    rw [show t.begun = s.begun from rfl, hb] at h
    cases h
  · intro record h
    rw [hr] at h
    cases h
  · rintro (h | ⟨other, server', h⟩)
    · rw [show t.begun = s.begun from rfl, hb] at h
      cases h
    · cases (hdriven other _ h).2.1
  · intro other server' record ht
    rcases hta other _ ht with ⟨_, h⟩ | ht
    · cases h
    · exact hm.prepared other server' record ht

theorem Marked.first_record {body : B} (hm : s.Marked request) (hs : s.Valid)
    (ht : s.tasks call = some ⟨server, .admitting⟩) :
    (({ s with known := true }.write (some ⟨⟨.queued, body⟩, request.resumable⟩)).put
      call server (.job .fresh .queued false)).Marked request := by
  have hk : s.known = false := hs.fits call _ ht
  set t := ({ s with known := true }.write (some ⟨⟨.queued, body⟩, request.resumable⟩)).put
    call server (.job .fresh .queued false)
  have hmi : t.tasks call = some ⟨server, .job .fresh .queued false⟩ :=
    (put_tasks _ call server _ call).trans (if_pos rfl)
  have hon : Only call s t := only_put _ call server _
  refine ⟨?_, ?_, ?_, hm.hosted, hm.begun, ?_, ?_, ?_, ?_⟩
  · intro other task ht' hpc
    by_cases ho : other = call
    · subst ho
      rw [hmi] at ht'
      cases ht'
      cases hpc
    · rw [hon other ho] at ht'
      have hf := hs.fits other task ht'
      obtain ⟨server', pc⟩ := task
      cases pc with
      | job => exact absurd hf.1 (by simp [hk])
      | _ => cases hpc
  · intro other driver hd _
    obtain ⟨rfl, hsrv⟩ := hm.first other driver call _ hd ht rfl
    exact ⟨_, hmi, rfl, hsrv⟩
  · intro other driver admission task hd ht' hpc
    by_cases ho : admission = call
    · subst ho
      rw [hmi] at ht'
      cases ht'
      cases hpc
    · rw [hon admission ho] at ht'
      exact hm.first other driver admission task hd ht' hpc
  · exact hm.unissued
  · intro record h
    cases h
    exact fun h => h
  · intro hb hr
    rcases hm.marked hb hr with hma | ⟨_, hn⟩
    · exact .inl hma
    · exact absurd (hn call) (by simp [admitsAt_of_task ht, Pc.admits])
  · intro other server' record ht'
    by_cases ho : other = call
    · subst ho
      rw [hmi] at ht'
      cases ht'
    · rw [hon other ho] at ht'
      exact hm.prepared other server' record ht'

theorem Marked.drivers (hm : s.Marked request)
    (hr : t.record = s.record) (ht : t.tasks = s.tasks) (hmarker : t.marker = s.marker)
    (hbe : t.begun = s.begun) (hi : t.issued = s.issued)
    (hd : ∀ call driver, t.drivers call = some driver → s.drivers call = some driver ∨
      driver.marked = false ∧ request.hosted = true ∧ s.issued = true ∧ IsPending s.record ∧
        (∀ other, s.admitsAt other = false) ∧
        ∃ task, s.tasks call = some task ∧ task.pc.runs = true ∧ task.server = driver.server) :
    t.Marked request := by
  refine ⟨?_, ?_, ?_, ?_, ?_, ?_, ?_, ?_, ?_⟩
  · rw [hr, ht]
    exact hm.lost
  · intro call driver hdrv hp
    rw [hr] at hp
    rw [ht]
    rcases hd call driver hdrv with h | ⟨_, _, _, _, _, h⟩
    · exact hm.driven call driver h hp
    · exact h
  · intro call driver other task hdrv hta hpc
    rw [ht] at hta
    rcases hd call driver hdrv with h | ⟨_, _, _, _, hn, _⟩
    · exact hm.first call driver other task h hta hpc
    · exact absurd (hn other) (by simp [admitsAt_of_task hta, hpc])
  · intro call driver hdrv
    rcases hd call driver hdrv with h | ⟨_, h, _⟩
    · exact hm.hosted call driver h
    · exact h
  · rw [hbe]
    exact hm.begun
  · intro h
    rw [hi] at h
    obtain ⟨hnot, hn⟩ := hm.unissued h
    refine ⟨hbe.trans hnot, fun call => ?_⟩
    cases hdrv : t.drivers call with
    | none => rfl
    | some driver =>
      rcases hd call driver hdrv with hs | ⟨_, _, hs, _⟩
      · rw [hn] at hs
        cases hs
      · rw [h] at hs
        cases hs
  · rw [hr]
    exact hm.kept
  · intro hb hre
    have hb' : s.Begins := by
      rcases hb with h | ⟨call, server, h⟩
      · exact .inl (hbe ▸ h)
      · rcases hd call _ h with h | ⟨h, _⟩
        · exact .inr ⟨call, server, h⟩
        · cases h
    have hc : s.Closed → t.Closed := by
      rintro ⟨he, hn⟩
      refine ⟨hr ▸ he, fun call => ?_⟩
      rw [admitsAt, ht]
      exact hn call
    rcases hm.marked hb' hre with hmark | hc'
    · exact .inl (hmarker.trans hmark)
    · exact .inr (hc hc')
  · rw [ht, hmarker]
    exact hm.prepared

/-- `before_tools` creates the marker: no resumption is past its look at it. -/
theorem Marked.mark (hm : s.Marked request) (hs : s.Valid)
    (hdrv : s.drivers call = some ⟨server, false⟩) : { s with
      marker := s.marker || request.resumable
      drivers := Function.update s.drivers call (some ⟨server, true⟩) }.Marked request := by
  have hd : ∀ other driver,
      Function.update s.drivers call (some ⟨server, true⟩) other = some driver →
        ∃ marked, s.drivers other = some ⟨driver.server, marked⟩ := by
    intro other driver h
    obtain ⟨ho, ⟨⟩⟩ | ⟨-, h⟩ := update_eq_some h
    · exact ⟨false, ho ▸ hdrv⟩
    · exact ⟨driver.marked, h⟩
  refine ⟨hm.lost, ?_, ?_, ?_, hm.begun, ?_, hm.kept, ?_, ?_⟩
  · intro other driver h hp
    obtain ⟨marked, h⟩ := hd other driver h
    exact hm.driven other ⟨driver.server, marked⟩ h hp
  · intro other driver admission task h ht hpc
    obtain ⟨marked, h⟩ := hd other driver h
    exact hm.first other ⟨driver.server, marked⟩ admission task h ht hpc
  · intro other driver h
    obtain ⟨marked, h⟩ := hd other driver h
    exact hm.hosted other _ h
  · intro hi
    have hn := (hm.unissued hi).2 call
    rw [hdrv] at hn
    cases hn
  · intro _ hresum
    refine .inl ?_
    rw [hresum, Bool.or_true]
  · intro other server' record ht
    refine ⟨(hm.prepared other server' record ht).1, fun _ => ?_⟩
    -- the driver's own job would hold the lease that `other` holds
    obtain ⟨hrec, hp⟩ := hs.fits other _ ht
    obtain ⟨task, ht', hr, _⟩ := hm.driven call _ hdrv ⟨record, hrec, hp⟩
    have hh : task.pc.holds = true := by
      obtain ⟨server'', pc⟩ := task
      cases pc with
      | job => exact hr
      | _ => cases hr
    have ho : call ≠ other := by
      rintro rfl
      rw [ht] at ht'
      cases ht'
      cases hr
    have hf := hs.other_free (holdsAt_of_task ht) ho ht'
    rw [hh] at hf
    cases hf

theorem Marked.unlink {call : Call} {server : Server} {pc : Pc B}
    (hm : s.Marked request) (hs : s.Valid) (ht : s.tasks call = some ⟨server, pc⟩)
    (hon : Only call s t) (hrec : t.record = s.record) (hd : t.drivers = s.drivers)
    (hbegun : t.begun = s.begun) (hi : t.issued = s.issued) (hmarker : t.marker = false)
    (he : ¬ IsPending s.record) (hh : pc.holds = true ∨ s.known = true)
    (hown : ∀ task, t.tasks call = some task → task.pc.admits = false ∧
      ∀ record, task.pc ≠ .prepared record)
    (hok : s.marker = true → ∀ other server, s.tasks other ≠ some ⟨server, .submitted⟩) :
    t.Marked request := by
  have he' : ¬ IsPending t.record := hrec ▸ he
  have ha : ∀ other task, t.tasks other = some task → task.pc.admits = true →
      other ≠ call ∧ s.tasks other = some task := by
    intro other task ht' hpc
    by_cases ho : other = call
    · subst ho
      rw [(hown task ht').1] at hpc
      cases hpc
    · exact ⟨ho, hon other ho ▸ ht'⟩
  refine ⟨fun _ _ _ _ => he', fun _ _ _ h => absurd h he', ?_, ?_, ?_, ?_, ?_, ?_, ?_⟩
  · intro other driver admission task hdrv ht' hpc
    rw [hd] at hdrv
    exact hm.first other driver admission task hdrv (ha admission task ht' hpc).2 hpc
  · rw [hd]
    exact hm.hosted
  · rw [hbegun]
    exact hm.begun
  · rw [hi, hbegun, hd]
    exact hm.unissued
  · rw [hrec]
    exact hm.kept
  · intro hb hr
    have hb' : s.Begins := by
      rcases hb with h | ⟨other, server, h⟩
      · exact .inl (hbegun ▸ h)
      · exact .inr ⟨other, server, hd ▸ h⟩
    refine .inr ⟨he', fun other => ?_⟩
    cases h : t.admitsAt other with
    | false => rfl
    | true =>
      obtain ⟨task, ht', hpc⟩ := (Option.any_eq_true _ _).mp h
      obtain ⟨ho, hbef⟩ := ha other task ht' hpc
      rcases hm.marked hb' hr with hmark | ⟨_, hn⟩
      · -- with the marker there, nobody else is before the first record
        obtain ⟨server', pc'⟩ := task
        have hf := hs.fits other _ hbef
        cases pc' with
        | submitted => exact absurd hbef (hok hmark other server')
        | admitting =>
          rcases hh with hho | hk
          · have hfr := hs.other_free ((holdsAt_of_task ht).trans hho) ho hbef
            cases hfr
          · exact absurd hk (by simp [show s.known = false from hf])
        | _ => cases hpc
      · exact absurd (hn other) (by simp [admitsAt_of_task hbef, hpc])
  · intro other server' record ht'
    by_cases ho : other = call
    · subst ho
      exact absurd rfl ((hown _ ht').2 record)
    · rw [hon other ho] at ht'
      exact ⟨(hm.prepared other server' record ht').1, fun _ => hmarker⟩

theorem Marked.crash (hm : s.Marked request) (server : Server) :
    (s.crash server).Marked request := by
  have hdr : ∀ call driver, (s.crash server).drivers call = some driver →
      s.drivers call = some driver ∧ driver.server ≠ server := by
    intro call driver h
    have hf := Option.filter_eq_some_iff.mp h
    exact ⟨hf.1, by simpa using hf.2⟩
  refine ⟨?_, ?_, ?_, ?_, hm.begun, ?_, hm.kept, ?_, ?_⟩
  · intro call task ht
    exact hm.lost call task (crash_tasks.mp ht).1
  · intro call driver hd hp
    obtain ⟨hd', ha⟩ := hdr call driver hd
    obtain ⟨task, ht, hpc, hs⟩ := hm.driven call driver hd' hp
    exact ⟨task, crash_tasks.mpr ⟨ht, hs ▸ ha⟩, hpc, hs⟩
  · intro call driver other task hd ht hpc
    exact hm.first call driver other task (hdr call driver hd).1 (crash_tasks.mp ht).1 hpc
  · intro call driver hd
    exact hm.hosted call driver (hdr call driver hd).1
  · intro hi
    obtain ⟨hbe, hn⟩ := hm.unissued hi
    refine ⟨hbe, fun call => ?_⟩
    show (s.drivers call).filter _ = none
    rw [hn]
    rfl
  · intro hb hr
    have hb' : s.Begins := by
      rcases hb with h | ⟨call, server', h⟩
      · exact .inl h
      · exact .inr ⟨call, server', (hdr call _ h).1⟩
    rcases hm.marked hb' hr with hma | ⟨he, hn⟩
    · exact .inl hma
    · refine .inr ⟨he, fun call => ?_⟩
      cases h : (s.crash server).admitsAt call with
      | false => rfl
      | true =>
        obtain ⟨task, ht, hpc⟩ := (Option.any_eq_true _ _).mp h
        have hadm := (admitsAt_of_task (crash_tasks.mp ht).1).trans hpc
        rw [hn call] at hadm
        cases hadm
  · intro call server' record ht
    exact hm.prepared call server' record (crash_tasks.mp ht).1

theorem put_self (s : World B Server Call) (call : Call) (server : Server) (pc : Pc B) :
    (s.put call server pc).tasks call = some ⟨server, pc⟩ :=
  (put_tasks s call server pc call).trans (if_pos rfl)

theorem gone_self (s : World B Server Call) (call : Call) : (s.gone call).tasks call = none :=
  (gone_tasks s call call).trans (if_pos rfl)

theorem Marked.put (hm : s.Marked request) (ht : s.tasks call = some ⟨server, pc⟩)
    (hl : pc'.lost = true → ¬ IsPending s.record)
    (hr : pc.runs = true → IsPending s.record → pc'.runs = true)
    (ha : pc'.admits = true → pc.admits = true) (hp : ∀ record, pc' = .prepared record →
      record.request = true ∧ (request.hosted = true → s.marker = false)) :
    (s.put call server pc').Marked request :=
  hm.goes ⟨only_put s call server pc', rfl, rfl, rfl, rfl⟩ ht (put_self ..) (fun h => h) hm.kept
    hl hr ha hp

theorem Marked.passes (hm : s.Marked request)
    (ht : s.tasks call = some ⟨server, pc⟩) (hr : pc.runs = false) (hl : pc'.lost = false)
    (ha : pc'.admits = false) (hp : ∀ record, pc' ≠ .prepared record) :
    (s.put call server pc').Marked request := by
  refine hm.put ht (fun h => ?_) (fun h => ?_) (fun h => ?_) fun record h =>
    absurd h (hp record)
  · rw [hl] at h
    cases h
  · rw [hr] at h
    cases h
  · rw [ha] at h
    cases h

variable {s : World B Server Call}

theorem Marked.take (hm : s.Marked request) (call : Call) : (s.take call).Marked request :=
  { hm with }

theorem Marked.release (hm : s.Marked request) (call : Call) : (s.release call).Marked request :=
  { hm with }

theorem Marked.gone (hm : s.Marked request)
    (hr : ∀ task, s.tasks call = some task → task.pc.runs = true → ¬ IsPending s.record) :
    (s.gone call).Marked request :=
  hm.ends ⟨only_gone s call, rfl, rfl, rfl, rfl⟩ (gone_self s call) rfl hr

theorem Marked.write_job {stage : Stage} {phase phase' : Phase B} {unlinking unlinking' : Bool}
    {record : Option (Record B)} (hm : s.Marked request)
    (ht : s.tasks call = some ⟨server, .job stage phase unlinking⟩)
    (hp : IsPending record → IsPending s.record)
    (hk : ∀ r, record = some r → r.request = true → request.resumable = true)
    (hl : (Pc.job stage phase' unlinking').lost = true → ¬ IsPending record) :
    ((s.write record).put call server (.job stage phase' unlinking')).Marked request :=
  hm.goes ⟨only_put (s.write record) call server _, rfl, rfl, rfl, rfl⟩ ht (put_self ..) hp
    hk hl (fun h _ => h) nofun nofun

theorem Marked.write_ended {record : Option (Record B)} (hm : s.Marked request)
    (ht : s.tasks call = some ⟨server, pc⟩) (he : ¬ IsPending record)
    (hk : ∀ r, record = some r → r.request = false) (ha : pc'.admits = false)
    (hp : ∀ r, pc' ≠ .prepared r) : ((s.write record).put call server pc').Marked request := by
  refine hm.goes ⟨only_put (s.write record) call server pc', rfl, rfl, rfl, rfl⟩ ht (put_self ..)
    (fun h => absurd h he) (fun r hr h => ?_) (fun _ => he) (fun _ h => absurd h he)
    (fun h => (by rw [ha] at h; cases h)) fun r h => absurd h (hp r)
  rw [hk r hr] at h
  cases h

theorem Marked.resubmit {call : Call} {server : Server}
    {record : Record B} {phase : Phase B} (hm : s.Marked request) (hs : s.Valid)
    (ht : s.tasks call = some ⟨server, .prepared record⟩) (hp : phase.pending = true) :
    ((s.put call server (.job .fresh phase false)).drive request call server).Marked request := by
  obtain ⟨hrec, hr⟩ := hs.fits call _ ht
  have hk := hs.known_of_record hrec
  have hput : (s.put call server (.job .fresh phase false)).Marked request := by
    refine hm.put ht (fun h => ?_) nofun nofun nofun
    cases phase with
    | queued => cases h
    | inProgress => cases h
    | _ => cases hp
  refine hput.drivers rfl rfl rfl rfl rfl fun other driver hd => ?_
  have hd' : (if request.hosted then
      Function.update s.drivers call (some (⟨server, false⟩ : Driver Server)) else s.drivers) other
        = some driver := hd
  by_cases hh : request.hosted
  · rw [if_pos hh] at hd'
    obtain ⟨ho, ⟨⟩⟩ | ⟨-, hd'⟩ := update_eq_some hd'
    · right
      refine ⟨rfl, hh, ?_, ⟨record, hrec, hr⟩, fun admission => ?_,
        ⟨server, .job .fresh phase false⟩, ho ▸ put_self .., rfl, rfl⟩
      · cases hi : s.issued with
        | true => exact hi
        | false => exact absurd hk (by simp [(hs.unissued hi).1])
      · rw [put_admitsAt]
        by_cases ha : admission = call
        · rw [if_pos ha]
          rfl
        · rw [if_neg ha]
          exact hs.no_admits hk admission
    · exact .inl hd'
  · rw [if_neg hh] at hd'
    exact .inl hd'

theorem Marked.step {a : Action B Server Call} (hs : s.Valid)
    (hm : s.Marked request) (hok : Guarded s a) (hstep : Step request s a t) :
    t.Marked request := by
  cases hstep with
  | submit hn hd hi => exact hm.submit hs hi
  | admitLease ht =>
    exact (hm.take _).put ht nofun nofun (fun _ => rfl) nofun
  | saveQueued ht => exact hm.first_record hs ht
  | saveQueuedFails ht => exact hm.passes ht rfl rfl rfl nofun
  | @register call server phase ht hp hopen =>
    have hput : (s.put call server (.job .running phase false)).Marked request := by
      refine hm.put ht (fun h => ?_) (fun _ _ => rfl) nofun nofun
      cases phase with
      | queued => cases h
      | inProgress => cases h
      | _ => cases hp
    exact { hput with }
  | advance ht =>
    refine hm.write_job ht (fun _ => (hs.of_job ht rfl).2.2) (fun r hr => ?_) nofun
    cases hr
    exact fun h => h
  | settle ht hp ha hsettles =>
    refine hm.write_ended ht (not_isPending_settled (Actor.settles_ended hsettles) (.inr rfl))
      (fun r hr => ?_) rfl nofun
    cases hr
    rfl
  | settleRemoves ht =>
    exact hm.write_ended ht not_isPending_none nofun rfl nofun
  | settleFails => cases hok
  | answerJob => exact hm
  | deleteJob ht =>
    exact hm.write_ended ht not_isPending_none nofun rfl nofun
  | @unlinkJobMarker call server stage phase ht =>
    obtain ⟨hk, hj, hsett, hunl⟩ := hs.fits _ _ ht
    refine hm.unlink hs ht (only_put _ call server _) rfl rfl rfl rfl rfl (hunl rfl)
      (.inr hk) (fun task ht' => ?_) hok
    rw [put_self] at ht'
    cases ht'
    exact ⟨rfl, nofun⟩
  | drop ht he =>
    refine (hm.release _).gone fun task ht' _ => ?_
    exact hm.ended hs ht he
  | drain ht he =>
    have hrec := hm.ended hs ht he
    exact (hm.release _).put ht (fun _ => hrec) (fun _ h => absurd h hrec) nofun nofun
  | unregister => exact { hm with }
  | close => exact { hm with }
  | askResume hn => exact hm.starts hn rfl rfl nofun
  | askRecover hn => exact hm.starts hn rfl rfl nofun
  | askOrphan hn => exact hm.starts hn rfl rfl nofun
  | askClient hn => exact hm.starts hn rfl rfl nofun
  | lookPending ht =>
    exact hm.passes ht rfl rfl rfl nofun
  | lookDelete ht =>
    exact hm.passes ht rfl rfl rfl nofun
  | lookCancel ht =>
    refine hm.gone fun task ht' hru => ?_
    rw [ht] at ht'
    cases ht'
    cases hru
  | takeLease ht =>
    exact (hm.take _).passes ht rfl rfl rfl nofun
  | load ht =>
    exact hm.passes ht rfl rfl rfl nofun
  | loadCancel ht =>
    exact hm.passes ht rfl rfl rfl nofun
  | loadOrphan ht =>
    exact hm.passes ht rfl rfl rfl nofun
  | loadDelete ht =>
    exact hm.passes ht rfl rfl rfl nofun
  | saveCancelled ht =>
    refine hm.write_ended ht (not_isPending_settled rfl (.inr rfl)) (fun r hr => ?_) rfl nofun
    cases hr
    rfl
  | settleInterrupted ht hpc he =>
    refine hm.write_ended ht (not_isPending_settled he (.inr rfl)) (fun r hr => ?_) rfl nofun
    cases hr
    rfl
  | prepare ht hreq hma =>
    refine hm.put ht nofun nofun nofun
      fun record h => ?_
    cases h
    exact ⟨hreq, hma⟩
  | resubmit ht hp => exact hm.resubmit hs ht hp
  | prune hn => exact hm.starts hn rfl rfl nofun
  | unlinkRecord ht =>
    exact hm.write_ended ht not_isPending_none nofun rfl nofun
  | @unlinkMarker call server ht =>
    refine hm.unlink hs ht (only_put _ call server _) rfl rfl rfl rfl rfl
      (hs.fits _ _ ht).2 (.inl rfl) (fun task ht' => ?_) hok
    rw [put_self] at ht'
    cases ht'
    exact ⟨rfl, nofun⟩
  | @unlinkLast call server ht =>
    obtain ⟨hk, he⟩ := hs.fits _ _ ht
    refine hm.unlink hs ht (only_gone _ call) rfl rfl rfl rfl rfl he (.inr (hk rfl))
      (fun task ht' => ?_) hok
    rw [gone_self] at ht'
    cases ht'
  | @unlinkUnsaved call server ht =>
    have he : ¬ IsPending s.record := by
      rw [hs.unknown (hs.fits _ _ ht)]
      exact not_isPending_none
    refine hm.unlink hs ht (only_put _ call server _) rfl rfl rfl rfl rfl he (.inl rfl)
      (fun task ht' => ?_) hok
    rw [put_self] at ht'
    cases ht'
    exact ⟨rfl, nofun⟩
  | @leave call server pc ht hpc =>
    refine (hm.release _).gone fun task ht' hru => ?_
    rw [show (s.release call).tasks = s.tasks from rfl, ht] at ht'
    cases ht'
    cases pc with
    | job => cases hpc
    | _ => cases hru
  | mark hd => exact hm.mark hs hd
  | @hostedCall call server hd =>
    refine { hm with
        begun := fun _ => hm.hosted call _ hd, unissued := ?_,
        marked := fun _ => hm.marked (.inr ⟨call, server, hd⟩) }
    intro hi
    have hno := (hm.unissued hi).2 call
    rw [hd] at hno
    cases hno
  | @endDriver call driver hd =>
    refine hm.drivers rfl rfl rfl rfl rfl fun other driver' hd' => .inl ?_
    obtain ⟨-, ⟨⟩⟩ | ⟨-, hd'⟩ := update_eq_some hd'
    exact hd'
  | crash => exact hm.crash _

theorem Marked.owned (hm : s.Marked request) (a : Action B Server Call) : Owned s a := by
  cases a with
  | deleteJob call =>
    intro server ht hp
    exact absurd hp (hm.lost call _ ht rfl)
  | _ => trivial

theorem Marked.start (hs : (background B Server Call request).start s) : s.Marked request := by
  obtain ⟨_, _, hr, _, _, hta, hdr, hb⟩ := hs
  refine ⟨?_, ?_, ?_, ?_, ?_, fun _ => ⟨hb, hdr⟩, ?_, ?_, ?_⟩
  · intro call task ht
    rw [hta] at ht
    cases ht
  · intro call driver hd
    rw [hdr] at hd
    cases hd
  · intro call driver other task hd
    rw [hdr] at hd
    cases hd
  · intro call driver hd
    rw [hdr] at hd
    cases hd
  · rw [hb]
    exact nofun
  · intro record h
    rw [hr] at h
    cases h
  · rintro (h | ⟨call, server, h⟩)
    · rw [hb] at h
      cases h
    · rw [hdr] at h
      cases h
  · intro call server record ht
    rw [hta] at ht
    cases ht

theorem Marked.reachable (hs : ((background B Server Call request).restrict Guarded).Reachable s) :
    s.Valid ∧ s.Marked request := by
  induction hs with
  | start h => exact ⟨@Valid.start _ _ _ _ _ request _ h, Marked.start h⟩
  | step prior next ih =>
    obtain ⟨hs, hm⟩ := ih
    exact ⟨hs.step (hm.owned _) next.2, hm.step hs next.1 next.2⟩

end World

/-- While no marker goes before the request has its lease: a pending record that keeps
its request and a hosted call of which has begun has its marker, and no resumption
submits the request again once a call has begun. -/
theorem hosted_calls_not_regenerated {request : Request} {s : World B Server Call}
    (hs : ((background B Server Call request).restrict Guarded).Reachable s) :
    (∀ record, s.record = some record → record.pending = true → record.request = true →
      s.begun = true → s.marker = true) ∧
    ∀ call phase t, Step request s (.resubmit call phase) t → s.begun = false := by
  obtain ⟨hv, hm⟩ := World.Marked.reachable hs
  have hmarked : ∀ record, s.record = some record → record.pending = true →
      record.request = true → s.begun = true → s.marker = true := by
    intro record hr hp hreq hb
    rcases hm.marked (.inl hb) (hm.kept record hr hreq) with hmark | ⟨he, _⟩
    · exact hmark
    · exact absurd ⟨record, hr, hp⟩ he
  refine ⟨hmarked, fun call phase t hst => ?_⟩
  cases hb : s.begun with
  | false => rfl
  | true =>
    cases hst with
    | resubmit ht =>
      obtain ⟨hr, hread⟩ := hv.fits _ _ ht
      obtain ⟨hreq, hmarker⟩ := hm.prepared _ _ _ ht
      have hmark := hmarked _ hr hread hreq hb
      rw [hmarker (hm.begun hb)] at hmark
      cases hmark

/-! ### A sweep before the lease -/

def hostedRequest : Request := ⟨true, true⟩

/-- Server `false` has submitted the request, and its first hosted call has begun. -/
def calledEarly : World Unit Bool Nat :=
  let s₁ := ({ quiet with issued := true }.put 0 false .submitted).drive hostedRequest 0 false
  { s₁ with
    marker := true
    drivers := Function.update s₁.drivers 0 (some ⟨false, true⟩)
    begun := true }

theorem calledEarly_reachable :
    ((background Unit Bool Nat hostedRequest).restrict Guarded).Reachable calledEarly := by
  let s₁ := ({ quiet with issued := true }.put 0 false .submitted).drive hostedRequest 0 false
  let s₂ := { s₁ with
    marker := s₁.marker || true
    drivers := Function.update s₁.drivers 0 (some ⟨false, true⟩) }
  have h₀ : ((background Unit Bool Nat hostedRequest).restrict Guarded).Reachable quiet :=
    .start (quiet_start hostedRequest)
  have h₁ := h₀.step (a := Action.submit 0 false) (t := s₁) ⟨trivial, .submit rfl rfl rfl⟩
  have h₂ := h₁.step (a := Action.mark 0) (t := s₂) ⟨trivial, .mark rfl⟩
  exact h₂.step (a := Action.hostedCall 0) ⟨trivial, .hostedCall rfl⟩

/-- The other server's sweep finds the marker without a record and without a lease and
removes it; then the request gets its lease and its record, and its server crashes.
The resumed request is submitted again. -/
theorem swept_marker_runs_twice : ∃ s t : World Unit Bool Nat, ∃ record,
      (background Unit Bool Nat hostedRequest).Reachable s ∧ s.record = some record ∧
      record.pending = true ∧ record.request = true ∧ s.begun = true ∧ s.marker = false ∧
      Step hostedRequest s (.resubmit 2 .queued) t := by
  -- the sweep
  let s₁ := calledEarly.put 1 true (.wanting .orphan)
  let s₂ := (s₁.take 1).put 1 true (.leased .orphan)
  let s₃ := s₂.put 1 true (.unlinked true)
  let s₄ := { s₃ with marker := false }.put 1 true .leaving
  let s₅ := (s₄.release 1).gone 1
  -- the admission
  let s₆ := (s₅.take 0).put 0 false .admitting
  let s₇ := ({ s₆ with known := true }.write (some ⟨⟨.queued, ()⟩, true⟩)).put 0 false
    (.job .fresh .queued false)
  let s₈ := s₇.crash false
  -- the resumption
  let s₉ := s₈.put 2 true (.wanting .resume)
  let s₁₀ := (s₉.take 2).put 2 true (.leased .resume)
  let s₁₁ := s₁₀.put 2 true (.loaded .resume ⟨⟨.queued, ()⟩, true⟩)
  let s₁₂ := s₁₁.put 2 true (.prepared ⟨⟨.queued, ()⟩, true⟩)
  have h₀ := calledEarly_reachable.of_restrict
  have h₁ := h₀.step (t := s₁) (.askOrphan rfl rfl)
  have h₂ := h₁.step (t := s₂) (.takeLease rfl rfl)
  have h₃ := h₂.step (t := s₃) (.loadOrphan rfl rfl)
  have h₄ := h₃.step (t := s₄) (.unlinkMarker rfl)
  have h₅ := h₄.step (t := s₅) (.leave rfl rfl)
  have h₆ := h₅.step (t := s₆) (.admitLease rfl rfl)
  have h₇ := h₆.step (t := s₇) (.saveQueued rfl)
  have h₈ := h₇.step (t := s₈) .crash
  have h₉ := h₈.step (t := s₉) (.askResume rfl rfl rfl rfl)
  have h₁₀ := h₉.step (t := s₁₀) (.takeLease rfl rfl)
  have h₁₁ := h₁₀.step (t := s₁₁) (.load rfl (.inl rfl) rfl rfl)
  have h₁₂ := h₁₁.step (t := s₁₂) (.prepare rfl rfl fun _ => rfl)
  exact ⟨s₁₂, _, _, h₁₂, rfl, rfl, rfl, rfl, rfl, .resubmit rfl rfl nofun⟩

theorem called_record_has_marker : ∃ s : World Unit Bool Nat,
      ((background Unit Bool Nat hostedRequest).restrict Guarded).Reachable s ∧
      s.begun = true ∧ s.record = some ⟨⟨.queued, ()⟩, true⟩ ∧ s.marker = true := by
  let s₁ := (calledEarly.take 0).put 0 false .admitting
  let s₂ := ({ s₁ with known := true }.write (some ⟨⟨.queued, ()⟩, true⟩)).put 0 false
    (.job .fresh .queued false)
  have h₁ := calledEarly_reachable.step (a := Action.takeLease 0) (t := s₁)
    ⟨trivial, .admitLease rfl rfl⟩
  have h₂ := h₁.step (a := Action.saveQueued 0 ()) (t := s₂) ⟨trivial, .saveQueued rfl⟩
  exact ⟨s₂, h₂, rfl, rfl, (hosted_calls_not_regenerated h₂).1 _ rfl rfl rfl rfl⟩

end LocalAi.Background
