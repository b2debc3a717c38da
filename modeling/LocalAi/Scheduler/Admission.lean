import LocalAi.Lib.Layout
import LocalAi.Lib.Shared
import LocalAi.Lib.System
import LocalAi.Vision.Expand

/-!
# The engine worker

The worker takes jobs off a queue, one at a time, and admits generations while they fit beside
those that are active; a job that cannot start yet waits, and nothing is taken while it does.
Between admissions every active generation advances by a step, and some of them end.

* `Worker.admitOne`: one turn of the loop of `admit_waiting`.
* `workers`: the worker, and whoever queues jobs.

A `usize` has 64 bits; an addition that would overflow gives nothing.  What the GPU and the disk
answer, whether a client has left, and which generations end in a step are the environment's.
The check of the sampling parameters, which are floating-point numbers, is a parameter.
-/

namespace LocalAi.Scheduler

open Lib (cap divCeil ensure System)
open Vision (PromptImages vocab width)

/-! ### Sizes -/

/-- `usize::MAX`. -/
def usizeMax : Nat := 2 ^ 64 - 1

/-- `+` of two `usize`s. -/
def usizeAdd (a b : Nat) : Option Nat := if a + b ≤ usizeMax then some (a + b) else none

/-- `usize::saturating_add`. -/
def saturatingAdd (a b : Nat) : Nat := cap usizeMax (a + b)

/-- `usize::saturating_mul`. -/
def saturatingMul (a b : Nat) : Nat := cap usizeMax (a * b)

def maxBatchSequences : Nat := 8

def trainingContext : Nat := 262144

def layers : Nat := 64

def fullInterval : Nat := 4

def recurrentLayers : Nat := layers - layers / fullInterval

def gdnStateBytes : Nat := 48 * 128 * 128 * 2

def convStateBytes : Nat := 10240 * 3 * 4

def promptCheckpointBytes : Nat := recurrentLayers * (gdnStateBytes + convStateBytes) + width * 4

/-- `Tape::bytes`. -/
def tapeBytes (layers : Nat) : Nat := 2 * layers * 8 * (10240 + 2 * 48) * 4

def sequenceStateBytes : Nat := promptCheckpointBytes + tapeBytes recurrentLayers

inductive KvFormat where
  | f16
  | q8

def KvFormat.tokenBytes : KvFormat → Nat
  | .f16 => 4 * 256 * 2
  | .q8 => 4 * 256 + 4 * 8 * 2

structure KvLayout where
  key : KvFormat
  value : KvFormat

def KvLayout.tokenBytes (layout : KvLayout) : Nat := layout.key.tokenBytes + layout.value.tokenBytes

/-! ### The engine -/

inductive Error where
  | invalidArgument (message : Text)
  | contextOverflow (message : Text)
  | queueFull
  | generation (message : Text)

/-- `GenerateParams`: how tokens are sampled, and how many at most. -/
structure GenerateParams (P : Type) where
  sampling : P
  maxTokens : Nat

/-- `ActiveGeneration`, as far as admission reads it. -/
structure Generation where
  id : Nat
  prompt : List Nat
  maxTokens : Nat

/-- The most tokens this generation's sequence can come to hold. -/
def Generation.reservedTokens (generation : Generation) : Option Nat :=
  usizeAdd generation.prompt.length generation.maxTokens

/-- `BonsaiEngine`, whose context was admitted when the model was loaded. -/
structure Engine where
  context : Nat
  layout : KvLayout
  active : List Generation
  nextGeneration : Nat
  context_le : context ≤ trainingContext

namespace Engine

/-- One parked sequence's fixed state, in tokens of K/V growth. -/
def sequenceStateTokens (engine : Engine) : Nat :=
  let perToken := engine.layout.tokenBytes * layers / fullInterval
  divCeil sequenceStateBytes (max perToken 1)

/-- Whether a request fits beside the active generations now. -/
def canAdmit (engine : Engine) (promptTokens maxTokens : Nat) : Option Bool :=
  if engine.active.isEmpty then some true
  else if maxBatchSequences ≤ engine.active.length then some false
  else do
    let stateTokens := engine.sequenceStateTokens
    let reserved ← engine.active.mapM Generation.reservedTokens
    let reserved := saturatingAdd (saturatingAdd (saturatingAdd (reserved.foldl saturatingAdd 0)
      promptTokens) maxTokens) (saturatingMul engine.active.length stateTokens)
    some (decide (reserved ≤ engine.context))

end Engine

variable {P F D : Type}

def checkTokens (tokens : List Nat) (images : Option (PromptImages F)) : Bool :=
  tokens.zipIdx.all fun (token, position) =>
    decide (token < vocab) || images.any fun images => (images.spanAt position).isSome

def validateRequest (prompt : List Nat) (output context : Nat) (images : Option (PromptImages F)) :
    Except Error Unit := do
  ensure (!prompt.isEmpty && checkTokens prompt images)
    (.invalidArgument "empty or invalid Bonsai prompt tokens".toList)
  ensure ((usizeAdd prompt.length output).any fun length => decide (length ≤ context))
    (.contextOverflow (Nat.toDigits 10 prompt.length ++ " prompt + ".toList ++
      Nat.toDigits 10 output ++ " output tokens exceed ".toList ++ Nat.toDigits 10 context ++
      "; no tokens were truncated".toList))

/-- What the GPU and the disk answer to an admission, and whether the client has left. -/
structure Seen where
  abandoned : Bool
  room : Except Error Unit
  begins : Except Error Unit

section Requests

variable (validateParams : P → Except Error Unit)

namespace Engine

def validateWithImages (engine : Engine) (prompt : List Nat) (params : GenerateParams P)
    (images : Option (PromptImages F)) : Except Error Unit := do
  validateParams params.sampling
  validateRequest prompt params.maxTokens engine.context images

/-- `begin_generation`: a request that asks for no tokens restores nothing. -/
def beginGeneration (engine : Engine) (id : Nat) (prompt : List Nat) (params : GenerateParams P)
    (images : Option (PromptImages F)) (begins : Except Error Unit) : Except Error Generation := do
  engine.validateWithImages validateParams prompt params images
  if params.maxTokens = 0 then
    pure ⟨id, prompt, params.maxTokens⟩
  else
    begins
    pure ⟨id, prompt, params.maxTokens⟩

def admitConstrained (engine : Engine) (prompt : List Nat) (params : GenerateParams P)
    (images : Option (PromptImages F)) (seen : Seen) : Except Error Nat × Engine :=
  if maxBatchSequences ≤ engine.active.length then (.error .queueFull, engine)
  else
    let id := engine.nextGeneration + 1
    let engine := { engine with nextGeneration := id }
    match seen.room with
    | .error error => (.error error, engine)
    | .ok _ =>
      match engine.beginGeneration validateParams id prompt params images seen.begins with
      | .ok generation => (.ok id, { engine with active := engine.active ++ [generation] })
      | .error error => (.error error, engine)

end Engine

/-! ### The worker -/

/-- A chat request as it is queued: rendered, tokenized and with its images encoded. -/
structure ChatJob (P F : Type) where
  ids : List Nat
  images : Option (PromptImages F)
  sampling : GenerateParams P
  maxTokens : Nat

inductive Job (P F D : Type) where
  | decision (job : D)
  | chat (job : ChatJob P F)

/-- A request that is not admitted yet. -/
structure Prepared (P F : Type) where
  ids : List Nat
  images : Option (PromptImages F)
  params : GenerateParams P

/-- A job taken off the queue and not admitted yet. -/
inductive Pending (P F D : Type) where
  | generation (prepared : Prepared P F)
  | decision (job : D)

def prepare : Job P F D → Option (Pending P F D)
  | .decision job => some (.decision job)
  | .chat job =>
    some (.generation ⟨job.ids, job.images, { job.sampling with maxTokens := job.maxTokens }⟩)

inductive Gate where
  | drop
  | wait
  | run

def decisionGate (abandoned : Bool) (active : Nat) : Gate :=
  if abandoned then .drop else if active = 0 then .run else .wait

inductive Outcome where
  | admitted (id : Nat)
  | failed (error : Error)
  | refused (error : Error)
  | abandoned
  | answered

def Outcome.admittedId : Outcome → Option Nat
  | .admitted id => some id
  | _ => none

/-- Where `run` is: before it looks whether it is idle, in the loop of `admit_waiting`, or
behind it. -/
inductive Phase where
  | idle
  | admitting
  | stepping

/-- The worker; `queued` and `settled` are what was queued so far, and what became of whom. -/
structure Worker (P F D : Type) where
  engine : Engine
  receiver : List (Job P F D)
  waiting : Option (Pending P F D)
  running : List Nat
  phase : Phase
  queued : List (Job P F D)
  settled : List (Pending P F D × Outcome)

namespace Worker

def settle (worker : Worker P F D) (pending : Pending P F D) (outcome : Outcome) : Worker P F D :=
  { worker with settled := worker.settled ++ [(pending, outcome)] }

/-- A job that cannot start yet is put back, and the loop returns. -/
def hold (worker : Worker P F D) (pending : Pending P F D) : Worker P F D :=
  { worker with waiting := some pending, phase := .stepping }

/-- What the loop does with the job it has taken. -/
def offer (worker : Worker P F D) (pending : Pending P F D) (seen : Seen) :
    Option (Worker P F D) :=
  match pending with
  | .decision _ =>
    match decisionGate seen.abandoned worker.engine.active.length with
    | .drop => some (worker.settle pending .abandoned)
    | .wait => some (worker.hold pending)
    | .run => some (worker.settle pending .answered)
  | .generation prepared =>
    if seen.abandoned then some (worker.settle pending .abandoned)
    else
      match worker.engine.validateWithImages validateParams prepared.ids prepared.params
        prepared.images with
      | .error error => some (worker.settle pending (.refused error))
      | .ok _ => do
        if ← worker.engine.canAdmit prepared.ids.length prepared.params.maxTokens then
          match worker.engine.admitConstrained validateParams prepared.ids prepared.params
            prepared.images seen with
          | (.ok id, engine) =>
            some ({ worker with engine, running := id :: worker.running }.settle pending
              (.admitted id))
          | (.error error, engine) =>
            some ({ worker with engine }.settle pending (.failed error))
        else
          some (worker.hold pending)

/-- One turn of the loop of `admit_waiting`; nothing where an addition overflows. -/
def admitOne (worker : Worker P F D) (seen : Seen) : Option (Worker P F D) :=
  match worker.waiting with
  | some pending => { worker with waiting := none }.offer validateParams pending seen
  | none =>
    match worker.receiver with
    | [] => some { worker with phase := .stepping }
    | job :: receiver =>
      match prepare job with
      | some pending => { worker with receiver }.offer validateParams pending seen
      | none => some { worker with receiver }

end Worker

/-- What happens: a job is queued, or `run` goes on. -/
inductive Action (P F D : Type) where
  | queue (job : Job P F D)
  | next
  | turn (seen : Seen)
  | step (kept : List Generation)

def Worker.new (engine : Engine) : Worker P F D where
  engine := engine
  receiver := []
  waiting := none
  running := []
  phase := .idle
  queued := []
  settled := []

def Worker.Steps (worker : Worker P F D) : Action P F D → Worker P F D → Prop
  | .queue job, worker' =>
    worker' = { worker with
      receiver := worker.receiver ++ [job], queued := worker.queued ++ [job] }
  | .next, worker' => worker.phase = .idle ∧
    if worker.running = [] ∧ worker.waiting.isNone then
      ∃ job receiver, worker.receiver = job :: receiver ∧
        worker' = { worker with receiver, waiting := prepare job, phase := .admitting }
    else worker' = { worker with phase := .admitting }
  | .turn seen, worker' =>
    worker.phase = .admitting ∧ worker.admitOne validateParams seen = some worker'
  | .step kept, worker' => worker.phase = .stepping ∧
    if worker.running = [] then worker' = { worker with phase := .idle }
    else
      -- a step ends some generations and may reorder the others
      kept.Subperm worker.engine.active ∧ worker' = { worker with
          engine := { worker.engine with active := kept },
          running := worker.running.filter fun id => kept.any fun generation => generation.id = id,
          phase := .idle }

def workers : System (Worker P F D) (Action P F D) where
  start worker := ∃ engine : Engine, engine.active = [] ∧ worker = .new engine
  step worker action worker' := worker.Steps validateParams action worker'

end Requests

end LocalAi.Scheduler
