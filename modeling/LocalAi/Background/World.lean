import LocalAi.Lib.System

/-!
# Background responses

One background response, the servers that share its store and the threads of
theirs that touch it: the request that creates it, its job, resumptions,
recoveries, cancels, deletes and sweeps.

* `World`: the response's record, hosted-tool marker and lease, the threads and the
  drivers of its tool loop, and each server's registry.
* `Step`: one critical section under the job's lock, one registry update, one
  operation on the lease, one read or write of the store, one engine submission,
  one hosted call, or a crash.
* `background`: any number of threads on any number of servers.
-/

set_option linter.unusedSectionVars false

namespace LocalAi.Background

open LocalAi.Lib

inductive Status
  | queued
  | inProgress
  | completed
  | incomplete
  | failed
  | cancelled
deriving DecidableEq

def Status.pending : Status → Bool
  | .queued | .inProgress => true
  | _ => false

/-- A Response: its status and the rest of the document. -/
structure Response (B : Type) where
  status : Status
  body : B
deriving DecidableEq

/-- A stored record, and whether it keeps the request it can be regenerated from. -/
structure Record (B : Type) where
  response : Response B
  request : Bool

def Record.pending {B : Type} (record : Record B) : Bool := record.response.status.pending

inductive Phase (B : Type)
  | queued
  | inProgress
  | settled (response : Response B)
  | storeFailed
  | deleted

def Phase.pending {B : Type} : Phase B → Bool
  | .queued | .inProgress => true
  | _ => false

/-- A job is made, then registered with its pump running, then its pump has ended. -/
inductive Stage
  | fresh
  | running
  | drained
deriving DecidableEq

/-- Why a thread that runs no job wants the lease. -/
inductive Purpose
  | resume
  | recover
  | cancel
  | delete
  | orphan

inductive Pc (B : Type)
  /-- The engine has the request; `admit` has not taken the lease. -/
  | submitted
  /-- `admit` under the lease, before the record. -/
  | admitting
  | unsaved
  | job (stage : Stage) (phase : Phase B) (unlinking : Bool)
  /-- `cancel` and `delete` look at the record before they lease it. -/
  | looking (purpose : Purpose)
  | wanting (purpose : Purpose)
  | leased (purpose : Purpose)
  | loaded (purpose : Purpose) (record : Record B)
  /-- `resume` has rebuilt the request. -/
  | prepared (record : Record B)
  | unlinking (leased : Bool)
  | unlinked (leased : Bool)
  | leaving

/-- Whether a thread there holds the lease. -/
def Pc.holds {B : Type} : Pc B → Bool
  | .submitted | .looking _ | .wanting _ => false
  | .job stage _ _ => stage != .drained
  | .unlinking held | .unlinked held => held
  | _ => true

def Pc.isJob {B : Type} : Pc B → Bool
  | .job .. => true
  | _ => false

structure Task (B Server : Type) where
  server : Server
  pc : Pc B

/-- The driver of a tool loop, and whether `before_tools` has run. -/
structure Driver (Server : Type) where
  server : Server
  marked : Bool

structure Request where
  /-- It declares hosted tools. -/
  hosted : Bool
  /-- Its pending record keeps it. -/
  resumable : Bool

structure World (B Server Call : Type) where
  /-- The request was submitted: an ID is used once. -/
  issued : Bool
  /-- The first record was saved: only then is a client told the ID. -/
  known : Bool
  record : Option (Record B)
  marker : Bool
  lease : Option Call
  tasks : Call → Option (Task B Server)
  drivers : Call → Option (Driver Server)
  registry : Server → Option Call
  closing : Server → Bool
  /-- A hosted call has begun to execute. -/
  begun : Bool

inductive Actor
  | pump
  | cancel
  | abandon

/-- How an actor may settle a job; a save that fails is answered with `failed`. -/
def Actor.settles : Actor → Status → Bool
  | .pump, status => !status.pending
  | .cancel, status => status == .cancelled || status == .failed
  | .abandon, status => status == .failed

inductive Action (B Server Call : Type)
  | submit (call : Call) (server : Server)
  | takeLease (call : Call)
  | saveQueued (call : Call) (body : B)
  | saveQueuedFails (call : Call)
  | register (call : Call)
  | advance (call : Call) (body : B)
  | settle (call : Call) (actor : Actor) (response : Response B)
  | settleFails (call : Call) (removed : Bool)
  /-- `cancel` answers with a Response that had already ended. -/
  | answer (call : Call) (response : Response B)
  | deleteJob (call : Call)
  | drop (call : Call)
  | drain (call : Call)
  | unregister (call : Call)
  | close (server : Server)
  | ask (call : Call) (server : Server) (purpose : Purpose)
  | look (call : Call)
  | load (call : Call)
  | saveCancelled (call : Call) (response : Response B)
  | settleInterrupted (call : Call) (response : Response B)
  | prepare (call : Call)
  | resubmit (call : Call) (phase : Phase B)
  | prune (call : Call) (server : Server)
  | unlinkRecord (call : Call)
  | unlinkMarker (call : Call)
  | leave (call : Call)
  | mark (call : Call)
  | hostedCall (call : Call)
  | endDriver (call : Call)
  | crash (server : Server)

def Action.reported {B Server Call : Type} : Action B Server Call → Option (Response B)
  | .settle _ _ response | .answer _ response | .saveCancelled _ response => some response
  | _ => none

variable {B Server Call : Type} [DecidableEq Server] [DecidableEq Call]

namespace World

def put (s : World B Server Call) (call : Call) (server : Server) (pc : Pc B) :
    World B Server Call :=
  { s with tasks := Function.update s.tasks call (some ⟨server, pc⟩) }

def gone (s : World B Server Call) (call : Call) : World B Server Call :=
  { s with tasks := Function.update s.tasks call none }

def write (s : World B Server Call) (record : Option (Record B)) : World B Server Call :=
  { s with record }

def take (s : World B Server Call) (call : Call) : World B Server Call :=
  { s with lease := some call }

/-- Closing the sidecar `call` has open releases its lease. -/
def release (s : World B Server Call) (call : Call) : World B Server Call :=
  { s with lease := if s.lease = some call then none else s.lease }

/-- A tool loop starts with the engine's first generation. -/
def drive (s : World B Server Call) (request : Request) (call : Call) (server : Server) :
    World B Server Call :=
  { s with drivers := if request.hosted then
      Function.update s.drivers call (some ⟨server, false⟩) else s.drivers }

/-- A crash ends the threads of `server` and the leases they hold. -/
def crash (s : World B Server Call) (server : Server) : World B Server Call :=
  { s with
    lease := s.lease.filter fun call => (s.tasks call).all fun task => task.server != server
    tasks := fun call => (s.tasks call).filter fun task => task.server != server
    drivers := fun call => (s.drivers call).filter fun driver => driver.server != server
    registry := Function.update s.registry server none
    closing := Function.update s.closing server false }

def Pending (s : World B Server Call) : Prop := ∃ record, s.record = some record ∧ record.pending = true

end World

inductive Step (request : Request) :
    World B Server Call → Action B Server Call → World B Server Call → Prop
  -- dispatch, `admit` and `register`
  | submit {s : World B Server Call} {call : Call} {server : Server} (hnew : s.tasks call = none)
      (hdriver : s.drivers call = none) (hissued : s.issued = false) :
      Step request s (.submit call server)
        (({ s with issued := true }.put call server .submitted).drive request call server)
  | admitLease {s : World B Server Call} {call : Call} {server : Server}
      (htask : s.tasks call = some ⟨server, .submitted⟩) (hfree : s.lease = none) :
      Step request s (.takeLease call) ((s.take call).put call server .admitting)
  | saveQueued {s : World B Server Call} {call : Call} {server : Server} {body : B}
      (htask : s.tasks call = some ⟨server, .admitting⟩) :
      Step request s (.saveQueued call body)
        (({ s with known := true }.write (some ⟨⟨.queued, body⟩, request.resumable⟩)).put
          call server (.job .fresh .queued false))
  | saveQueuedFails {s : World B Server Call} {call : Call} {server : Server}
      (htask : s.tasks call = some ⟨server, .admitting⟩) :
      Step request s (.saveQueuedFails call) (s.put call server .unsaved)
  | register {s : World B Server Call} {call : Call} {server : Server} {phase : Phase B}
      (htask : s.tasks call = some ⟨server, .job .fresh phase false⟩)
      (hpending : phase.pending = true) (hopen : s.closing server = false) :
      Step request s (.register call)
        ({ s with registry := Function.update s.registry server (some call) }.put call server
          (.job .running phase false))
  -- critical sections of a job
  | advance {s : World B Server Call} {call : Call} {server : Server} {body : B}
      (htask : s.tasks call = some ⟨server, .job .running .queued false⟩) :
      Step request s (.advance call body)
        ((s.write (some ⟨⟨.inProgress, body⟩, request.resumable⟩)).put call server
          (.job .running .inProgress false))
  | settle {s : World B Server Call} {call : Call} {server : Server} {stage : Stage}
      {phase : Phase B} {actor : Actor} {response : Response B}
      (htask : s.tasks call = some ⟨server, .job stage phase false⟩)
      (hpending : phase.pending = true)
      (hactor : stage = .fresh → actor = .abandon ∧ s.closing server = true)
      (hsettles : actor.settles response.status = true) :
      Step request s (.settle call actor response)
        ((s.write (some ⟨response, false⟩)).put call server (.job stage (.settled response) false))
  | settleRemoves {s : World B Server Call} {call : Call} {server : Server} {stage : Stage}
      {phase : Phase B} (htask : s.tasks call = some ⟨server, .job stage phase false⟩)
      (hpending : phase.pending = true) (hclosing : stage = .fresh → s.closing server = true) :
      Step request s (.settleFails call true)
        ((s.write none).put call server (.job stage .storeFailed true))
  | settleFails {s : World B Server Call} {call : Call} {server : Server} {stage : Stage}
      {phase : Phase B} (htask : s.tasks call = some ⟨server, .job stage phase false⟩)
      (hpending : phase.pending = true) (hclosing : stage = .fresh → s.closing server = true) :
      Step request s (.settleFails call false) (s.put call server (.job stage .storeFailed false))
  | answerJob {s : World B Server Call} {call : Call} {server : Server} {stage : Stage}
      {response : Response B}
      (htask : s.tasks call = some ⟨server, .job stage (.settled response) false⟩) :
      Step request s (.answer call response) s
  | deleteJob {s : World B Server Call} {call : Call} {server : Server} {stage : Stage}
      {phase : Phase B} (htask : s.tasks call = some ⟨server, .job stage phase false⟩)
      (hstage : stage ≠ .fresh) (hphase : phase ≠ .deleted) :
      Step request s (.deleteJob call) ((s.write none).put call server (.job stage .deleted true))
  | unlinkJobMarker {s : World B Server Call} {call : Call} {server : Server} {stage : Stage}
      {phase : Phase B} (htask : s.tasks call = some ⟨server, .job stage phase true⟩) :
      Step request s (.unlinkMarker call)
        ({ s with marker := false }.put call server (.job stage phase false))
  -- a job that could not be registered is dropped, one whose stream closed is drained
  | drop {s : World B Server Call} {call : Call} {server : Server} {phase : Phase B}
      (htask : s.tasks call = some ⟨server, .job .fresh phase false⟩)
      (hended : phase.pending = false) :
      Step request s (.drop call) ((s.release call).gone call)
  | drain {s : World B Server Call} {call : Call} {server : Server} {phase : Phase B}
      (htask : s.tasks call = some ⟨server, .job .running phase false⟩)
      (hended : phase.pending = false) :
      Step request s (.drain call) ((s.release call).put call server (.job .drained phase false))
  | unregister {s : World B Server Call} {call : Call} {server : Server} {phase : Phase B}
      {unlinking : Bool}
      (htask : s.tasks call = some ⟨server, .job .drained phase unlinking⟩) :
      Step request s (.unregister call)
        { s with registry := Function.update s.registry server none }
  | close {s : World B Server Call} {server : Server} :
      Step request s (.close server) { s with closing := Function.update s.closing server true }
  -- threads that find no job of this server
  | askResume {s : World B Server Call} {call : Call} {server : Server}
      (hnew : s.tasks call = none) (hdriver : s.drivers call = none)
      (hopen : s.closing server = false) (hnone : s.registry server = none) :
      Step request s (.ask call server .resume) (s.put call server (.wanting .resume))
  | askRecover {s : World B Server Call} {call : Call} {server : Server}
      (hnew : s.tasks call = none) :
      Step request s (.ask call server .recover) (s.put call server (.wanting .recover))
  | askOrphan {s : World B Server Call} {call : Call} {server : Server}
      (hnew : s.tasks call = none) (hrecord : s.record = none) :
      Step request s (.ask call server .orphan) (s.put call server (.wanting .orphan))
  | askClient {s : World B Server Call} {call : Call} {server : Server} {purpose : Purpose}
      (hnew : s.tasks call = none) (hclient : purpose = .cancel ∨ purpose = .delete)
      (hknown : s.known = true) (hnone : s.registry server = none) :
      Step request s (.ask call server purpose) (s.put call server (.looking purpose))
  | lookPending {s : World B Server Call} {call : Call} {server : Server} {purpose : Purpose}
      (htask : s.tasks call = some ⟨server, .looking purpose⟩) (hpending : s.Pending) :
      Step request s (.look call) (s.put call server (.wanting purpose))
  | lookDelete {s : World B Server Call} {call : Call} {server : Server}
      (htask : s.tasks call = some ⟨server, .looking .delete⟩) (hended : ¬ s.Pending) :
      Step request s (.look call) (s.put call server (.unlinking false))
  | lookCancel {s : World B Server Call} {call : Call} {server : Server} {record : Record B}
      (htask : s.tasks call = some ⟨server, .looking .cancel⟩) (hrecord : s.record = some record)
      (hended : record.pending = false) :
      Step request s (.answer call record.response) (s.gone call)
  | takeLease {s : World B Server Call} {call : Call} {server : Server} {purpose : Purpose}
      (htask : s.tasks call = some ⟨server, .wanting purpose⟩) (hfree : s.lease = none) :
      Step request s (.takeLease call) ((s.take call).put call server (.leased purpose))
  | load {s : World B Server Call} {call : Call} {server : Server} {purpose : Purpose}
      {record : Record B} (htask : s.tasks call = some ⟨server, .leased purpose⟩)
      (hpurpose : purpose = .resume ∨ purpose = .recover ∨ purpose = .cancel)
      (hrecord : s.record = some record) (hpending : record.pending = true) :
      Step request s (.load call) (s.put call server (.loaded purpose record))
  | loadCancel {s : World B Server Call} {call : Call} {server : Server} {record : Record B}
      (htask : s.tasks call = some ⟨server, .leased .cancel⟩) (hrecord : s.record = some record)
      (hended : record.pending = false) :
      Step request s (.answer call record.response) (s.put call server .leaving)
  | loadOrphan {s : World B Server Call} {call : Call} {server : Server}
      (htask : s.tasks call = some ⟨server, .leased .orphan⟩) (hrecord : s.record = none) :
      Step request s (.load call) (s.put call server (.unlinked true))
  | loadDelete {s : World B Server Call} {call : Call} {server : Server}
      (htask : s.tasks call = some ⟨server, .leased .delete⟩) :
      Step request s (.load call) (s.put call server (.unlinking true))
  | saveCancelled {s : World B Server Call} {call : Call} {server : Server} {record : Record B}
      (htask : s.tasks call = some ⟨server, .loaded .cancel record⟩) :
      Step request s (.saveCancelled call { record.response with status := .cancelled })
        ((s.write (some ⟨{ record.response with status := .cancelled }, false⟩)).put call server
          .leaving)
  | settleInterrupted {s : World B Server Call} {call : Call} {server : Server} {pc : Pc B}
      {record : Record B} {response : Response B} (htask : s.tasks call = some ⟨server, pc⟩)
      (hpc : pc = .loaded .resume record ∨ pc = .loaded .recover record ∨ pc = .prepared record)
      (hended : response.status.pending = false) :
      Step request s (.settleInterrupted call response)
        ((s.write (some ⟨response, false⟩)).put call server .leaving)
  -- a response with hosted tools is regenerated only without its marker
  | prepare {s : World B Server Call} {call : Call} {server : Server} {record : Record B}
      (htask : s.tasks call = some ⟨server, .loaded .resume record⟩)
      (hrequest : record.request = true) (hmarker : request.hosted = true → s.marker = false) :
      Step request s (.prepare call) (s.put call server (.prepared record))
  | resubmit {s : World B Server Call} {call : Call} {server : Server} {record : Record B}
      {phase : Phase B} (htask : s.tasks call = some ⟨server, .prepared record⟩)
      (hpending : phase.pending = true)
      (hphase : phase = .inProgress → record.response.status = .inProgress) :
      Step request s (.resubmit call phase)
        ((s.put call server (.job .fresh phase false)).drive request call server)
  | prune {s : World B Server Call} {call : Call} {server : Server} {record : Record B}
      (hnew : s.tasks call = none) (hrecord : s.record = some record)
      (hended : record.pending = false) :
      Step request s (.prune call server) (s.put call server (.unlinking false))
  | unlinkRecord {s : World B Server Call} {call : Call} {server : Server} {leased : Bool}
      (htask : s.tasks call = some ⟨server, .unlinking leased⟩) :
      Step request s (.unlinkRecord call) ((s.write none).put call server (.unlinked leased))
  | unlinkMarker {s : World B Server Call} {call : Call} {server : Server}
      (htask : s.tasks call = some ⟨server, .unlinked true⟩) :
      Step request s (.unlinkMarker call) ({ s with marker := false }.put call server .leaving)
  | unlinkLast {s : World B Server Call} {call : Call} {server : Server}
      (htask : s.tasks call = some ⟨server, .unlinked false⟩) :
      Step request s (.unlinkMarker call) ({ s with marker := false }.gone call)
  | unlinkUnsaved {s : World B Server Call} {call : Call} {server : Server}
      (htask : s.tasks call = some ⟨server, .unsaved⟩) :
      Step request s (.unlinkMarker call) ({ s with marker := false }.put call server .leaving)
  -- done, refused, or a write failed
  | leave {s : World B Server Call} {call : Call} {server : Server} {pc : Pc B}
      (htask : s.tasks call = some ⟨server, pc⟩) (hpc : pc.isJob = false) :
      Step request s (.leave call) ((s.release call).gone call)
  -- the tool loop
  | mark {s : World B Server Call} {call : Call} {server : Server}
      (hdriver : s.drivers call = some ⟨server, false⟩) :
      Step request s (.mark call) { s with
          marker := s.marker || request.resumable
          drivers := Function.update s.drivers call (some ⟨server, true⟩) }
  | hostedCall {s : World B Server Call} {call : Call} {server : Server}
      (hdriver : s.drivers call = some ⟨server, true⟩) :
      Step request s (.hostedCall call) { s with begun := true }
  | endDriver {s : World B Server Call} {call : Call} {driver : Driver Server}
      (hdriver : s.drivers call = some driver) :
      Step request s (.endDriver call) { s with drivers := Function.update s.drivers call none }
  | crash {s : World B Server Call} {server : Server} :
      Step request s (.crash server) (s.crash server)

/-- One response that nobody has asked for yet, on servers that share a store. -/
def background (B Server Call : Type) [DecidableEq Server] [DecidableEq Call]
    (request : Request) : System (World B Server Call) (Action B Server Call) where
  start := fun s =>
    s.issued = false ∧ s.known = false ∧ s.record = none ∧ s.marker = false ∧ s.lease = none ∧
      (∀ call, s.tasks call = none) ∧ (∀ call, s.drivers call = none) ∧ s.begun = false
  step := Step request

end LocalAi.Background
