import LocalAi.Background.World
import LocalAi.Lib.Lines

/-!
# The event journal of a streamed background response

The events of a background response are numbered lines of a file.  Its job, or who
recovers it, appends to it; subscribers read it, live ones as far as the job
published, replays to its end, and derive the response's end from its record when
the journal does not hold it.

* `Writer`: `append` with what a failed write leaves.
* `Subscriber`: `Subscription::follow`, step by step.
* `View`: the bytes a reader may find while a batch is being written.
* `Streaming`: one step of a writer, a crash, or a step of a subscriber.
-/

set_option linter.unusedSectionVars false

namespace LocalAi.Background

open LocalAi.Lib

inductive Code
  | serverError
  | cancelled
deriving DecidableEq

inductive Event (B O : Type)
  | output (payload : O)
  | error (code : Code) (message : List Char)
  /-- `response.completed`, `response.incomplete` or `response.failed`. -/
  | final (response : Response B)
deriving DecidableEq

namespace Event

variable {B O : Type}

def terminal : Event B O → Bool
  | .output _ => false
  | .error code _ => code == .cancelled
  | .final _ => true

def opensEnd : Event B O → Bool
  | .error code _ => code != .cancelled
  | _ => false

def isOutput : Event B O → Bool
  | .output _ => true
  | _ => false

end Event

section Journal

variable {B O : Type} (message : B → List Char)

def cancelledMessage : List Char := "the response was cancelled".toList

/-- `terminal_events`; `message` is the message of a failed response's error. -/
def terminalEvents (response : Response B) : List (Event B O) :=
  match response.status with
  | .completed | .incomplete => [.final response]
  | .failed => [.error .serverError (message response.body), .final response]
  | .cancelled => [.error .cancelled cancelledMessage]
  | .queued | .inProgress => []

def endedWith (pending : Response B) : Event B O → Option (Response B)
  | .final response => some response
  | .error _ _ => some { pending with status := .cancelled }
  | .output _ => none

variable {α : Type} (f : LineFormat α (Event B O))

structure Writer where
  /-- Bytes of whole batches. -/
  bytes : Nat
  next : Nat
  broken : Bool
  torn : Bool

/-- What a writer is for: a job's, before its end is stored, with its end stored and
with the events of its end appended or not; or a recovery's, to append the end. -/
inductive Duty (B : Type)
  | job (epoch : Nat)
  | ended (epoch : Nat) (response : Response B)
  | done (epoch : Nat)
  | recovering (response : Response B)

/-- What subscribers of a job may read. -/
structure Published where
  bytes : Nat
  settled : Bool
  torn : Bool

/-- Where a client's stream is: it reads the journal, has read all of it without its
end, or sends the end that its record gives, `rest` of it from `sequence` on. -/
inductive Progress (B O : Type)
  | reading
  | drained
  | sending (sequence : Nat) (rest : List (Event B O))

structure Subscriber (α B O : Type) where
  /-- The job it watches; a replay watches none. -/
  live : Option Nat
  after : Option Nat
  /-- What it last saw published. -/
  seen : Published
  reader : LineFormat.Reader
  /-- The last event read. -/
  last : Option (Event B O)
  progress : Progress B O
  /-- The frames it was sent. -/
  frames : List (Nat × List α)

namespace Subscriber

def limit (sub : Subscriber α B O) : Option Nat := sub.live.map fun _ => sub.seen.bytes

/-- Nothing more is coming, and the end can be numbered. -/
def atEnd (sub : Subscriber α B O) : Bool :=
  match sub.live with
  | none => true
  | some _ => sub.seen.settled && !sub.seen.torn

/-- The number of the event that is due. -/
def position (sub : Subscriber α B O) : Nat :=
  match sub.progress with
  | .sending sequence _ => sequence
  | _ => sub.reader.next

def wanted (after : Option Nat) (sequence : Nat) : Bool :=
  after.all fun cursor => decide (cursor < sequence)

/-- A frame is sent if its number is wanted. -/
def sent (sub : Subscriber α B O) (sequence : Nat) (text : List α) : List (Nat × List α) :=
  if wanted sub.after sequence then sub.frames ++ [(sequence, text)] else sub.frames

end Subscriber

def derivedEnd [DecidableEq B] [DecidableEq O] (last : Option (Event B O)) (response : Response B) :
    List (Event B O) :=
  match last, terminalEvents message response with
  | some event, first :: more => if event.opensEnd ∧ event = first then more else first :: more
  | _, events => events

/-- The journal, the end its record holds, its writer, what jobs published, and the
subscribers. -/
structure Journal (α B O Sub : Type) where
  file : List α
  /-- The terminal record; none while it is pending. -/
  record : Option (Response B)
  writer : Option (Writer × Duty B)
  /-- The jobs so far. -/
  epoch : Nat
  published : Nat → Published
  subs : Sub → Option (Subscriber α B O)

inductive Append (B O Sub : Type)
  | create
  | resume
  | append (events : List (Event B O))
  | appendFails
  | settle (response : Response B)
  | publishEnd
  | publishEndFails
  | conclude
  | recover (response : Response B)
  | adopt (response : Response B)
  | sealEnd
  | sealFails
  | crash
  | subscribe (sub : Sub) (after : Option Nat)
  | observe (sub : Sub)
  | read (sub : Sub)
  | drain (sub : Sub)
  | derive (sub : Sub)
  | send (sub : Sub)
  | leave (sub : Sub)

variable {Sub : Type} [DecidableEq α] [DecidableEq B] [DecidableEq O] [DecidableEq Sub]

namespace Journal

/-- The events of `writer` end up in the file. -/
def appended (s : Journal α B O Sub) (w : Writer) (events : List (Event B O)) (duty : Duty B) :
    Journal α B O Sub :=
  let batch := f.batch w.next events
  { s with
    file := s.file ++ batch
    writer := some ({ w with bytes := w.bytes + batch.length, next := w.next + events.length }, duty) }

/-- A failed write leaves `left` of its batch, or is cut back off. -/
def torn (s : Journal α B O Sub) (w : Writer) (left : List α) (cut : Bool) (duty : Duty B) :
    Journal α B O Sub :=
  { s with
    file := if cut then s.file.take w.bytes else s.file ++ left
    writer := some ({ w with broken := true, torn := !cut }, duty) }

def publish (s : Journal α B O Sub) (epoch : Nat) (published : Published) : Journal α B O Sub :=
  { s with published := Function.update s.published epoch published }

def putSub (s : Journal α B O Sub) (sub : Sub) (state : Subscriber α B O) : Journal α B O Sub :=
  { s with subs := Function.update s.subs sub (some state) }

/-- A writer continues the journal behind its whole lines. -/
def reopen (s : Journal α B O Sub) : Writer :=
  let r := (f.wholeLines s.file).2
  ⟨r.offset, r.next, false, false⟩

/-- The last whole line ends the stream. -/
def Over (s : Journal α B O Sub) : Prop :=
  ∃ line, (f.wholeLines s.file).1.getLast? = some line ∧ line.1.terminal = true

end Journal

inductive View (s : Journal α B O Sub) : List α → Prop
  | still : View s s.file
  | job {w : Writer} {epoch : Nat} {events : List (Event B O)} {left : List α}
      (hwriter : s.writer = some (w, .job epoch)) (hwhole : w.broken = false)
      (houtput : ∀ event ∈ events, event.isOutput = true)
      (hleft : left <+: f.batch w.next events) : View s (s.file ++ left)
  | ended {w : Writer} {epoch : Nat} {response : Response B} {left : List α}
      (hwriter : s.writer = some (w, .ended epoch response)) (hwhole : w.broken = false)
      (hleft : left <+: f.batch w.next (terminalEvents message response)) :
      View s (s.file ++ left)
  | recovering {w : Writer} {response : Response B} {left : List α}
      (hwriter : s.writer = some (w, .recovering response))
      (hleft : left <+: f.batch w.next (terminalEvents message response)) :
      View s (s.file.take w.bytes ++ left)

inductive Streaming : Journal α B O Sub → Append B O Sub → Journal α B O Sub → Prop
  | create {s : Journal α B O Sub} (hnew : s.epoch = 0) (hwriter : s.writer = none) :
      Streaming s .create
        ({ s with writer := some (⟨0, 0, false, false⟩, .job 0), epoch := 1 }.publish 0
          ⟨0, false, false⟩)
  | resume {s : Journal α B O Sub} (hmade : s.epoch ≠ 0) (hwriter : s.writer = none)
      (hpending : s.record = none) (hopen : ¬ s.Over f) :
      Streaming s .resume ({ s with
          file := s.file.take (s.reopen f).bytes
          writer := some (s.reopen f, .job s.epoch)
          epoch := s.epoch + 1 }.publish s.epoch ⟨(s.reopen f).bytes, false, false⟩)
  -- a job appends and then tells its subscribers
  | append {s : Journal α B O Sub} {w : Writer} {epoch : Nat} {events : List (Event B O)}
      (hwriter : s.writer = some (w, .job epoch)) (hwhole : w.broken = false)
      (houtput : ∀ event ∈ events, event.isOutput = true) :
      Streaming s (.append events)
        ((s.appended f w events (.job epoch)).publish epoch
          ⟨w.bytes + (f.batch w.next events).length, false, false⟩)
  | appendFails {s : Journal α B O Sub} {w : Writer} {epoch : Nat} {events : List (Event B O)}
      {left : List α} {cut : Bool} (hwriter : s.writer = some (w, .job epoch))
      (hwhole : w.broken = false) (houtput : ∀ event ∈ events, event.isOutput = true)
      (hleft : left <+: f.batch w.next events) :
      Streaming s .appendFails
        ((s.torn w left cut (.job epoch)).publish epoch ⟨w.bytes, false, !cut⟩)
  -- the record ends before the journal does
  | settle {s : Journal α B O Sub} {w : Writer} {epoch : Nat} {response : Response B}
      (hwriter : s.writer = some (w, .job epoch)) (hended : response.status.pending = false) :
      Streaming s (.settle response)
        { s with record := some response, writer := some (w, .ended epoch response) }
  | publishEnd {s : Journal α B O Sub} {w : Writer} {epoch : Nat} {response : Response B}
      (hwriter : s.writer = some (w, .ended epoch response)) (hwhole : w.broken = false) :
      Streaming s .publishEnd
        ((s.appended f w (terminalEvents message response) (.done epoch)).publish epoch
          ⟨w.bytes + (f.batch w.next (terminalEvents message response)).length, false, false⟩)
  | publishEndFails {s : Journal α B O Sub} {w : Writer} {epoch : Nat} {response : Response B}
      {left : List α} {cut : Bool} (hwriter : s.writer = some (w, .ended epoch response))
      (hwhole : w.broken = false) (hleft : left <+: f.batch w.next (terminalEvents message response)) :
      Streaming s .publishEndFails
        ((s.torn w left cut (.done epoch)).publish epoch ⟨w.bytes, false, !cut⟩)
  | conclude {s : Journal α B O Sub} {w : Writer} {epoch : Nat}
      (hwriter : s.writer = some (w, .done epoch) ∨
        ∃ response, s.writer = some (w, .ended epoch response) ∧ w.broken = true) :
      Streaming s .conclude
        ({ s with writer := none }.publish epoch
          { s.published epoch with settled := true })
  -- a response without a writer is settled, and the events of its end are appended
  | recover {s : Journal α B O Sub} {response : Response B} (hmade : s.epoch ≠ 0)
      (hwriter : s.writer = none) (hpending : s.record = none) (hopen : ¬ s.Over f)
      (hended : response.status.pending = false) :
      Streaming s (.recover response)
        { s with record := some response, writer := some (s.reopen f, .recovering response) }
  | adopt {s : Journal α B O Sub} {pending response : Response B} {line : Event B O × List α}
      (hwriter : s.writer = none) (hpending : s.record = none)
      (hlast : (f.wholeLines s.file).1.getLast? = some line) (hover : line.1.terminal = true)
      (hended : endedWith pending line.1 = some response) :
      Streaming s (.adopt response)
        { s with record := some response, file := s.file.take (s.reopen f).bytes }
  | sealEnd {s : Journal α B O Sub} {w : Writer} {response : Response B}
      (hwriter : s.writer = some (w, .recovering response)) :
      Streaming s .sealEnd { s with
          file := s.file.take w.bytes ++ f.batch w.next (terminalEvents message response)
          writer := none }
  | sealFails {s : Journal α B O Sub} {w : Writer} {response : Response B} {left : List α}
      (hwriter : s.writer = some (w, .recovering response))
      (hleft : left <+: f.batch w.next (terminalEvents message response)) :
      Streaming s .sealFails { s with file := s.file.take w.bytes ++ left, writer := none }
  -- a crash leaves part of an unfinished batch; a recovery's may not have begun
  | crashJob {s : Journal α B O Sub} {w : Writer} {epoch : Nat} {events : List (Event B O)}
      {left : List α} (hwriter : s.writer = some (w, .job epoch))
      (houtput : ∀ event ∈ events, event.isOutput = true)
      (hleft : left <+: f.batch w.next events) (hwhole : w.broken = true → left = []) :
      Streaming s .crash { s with file := s.file ++ left, writer := none }
  | crashEnd {s : Journal α B O Sub} {w : Writer} {epoch : Nat} {response : Response B}
      {left : List α} (hwriter : s.writer = some (w, .ended epoch response))
      (hleft : left <+: f.batch w.next (terminalEvents message response))
      (hwhole : w.broken = true → left = []) :
      Streaming s .crash { s with file := s.file ++ left, writer := none }
  | crash {s : Journal α B O Sub} {w : Writer} {duty : Duty B} (hwriter : s.writer = some (w, duty)) :
      Streaming s .crash { s with writer := none }
  -- subscribers; a job's channel closes only after it published that it settled
  | subscribeLive {s : Journal α B O Sub} {sub : Sub} {after : Option Nat} {epoch : Nat}
      (hnew : s.subs sub = none) (hepoch : epoch < s.epoch) :
      Streaming s (.subscribe sub after)
        (s.putSub sub ⟨some epoch, after, ⟨0, false, false⟩, .start, none, .reading, []⟩)
  | subscribeReplay {s : Journal α B O Sub} {sub : Sub} {after : Option Nat}
      (hnew : s.subs sub = none) (hended : s.record ≠ none) :
      Streaming s (.subscribe sub after)
        (s.putSub sub ⟨none, after, ⟨0, false, false⟩, .start, none, .reading, []⟩)
  | observe {s : Journal α B O Sub} {sub : Sub} {state : Subscriber α B O} {epoch : Nat}
      {view : List α} (hsub : s.subs sub = some state) (hlive : state.live = some epoch)
      (hprogress : state.progress = .reading) (hview : View message f s view)
      (hread : (f.nextLine view state.limit state.reader).1 = none)
      (hwaits : state.seen.settled = false ∧ state.seen.torn = false) :
      Streaming s (.observe sub) (s.putSub sub { state with seen := s.published epoch })
  | read {s : Journal α B O Sub} {sub : Sub} {state : Subscriber α B O} {view : List α}
      {event : Event B O} {text : List α} {r : LineFormat.Reader} (hsub : s.subs sub = some state)
      (hprogress : state.progress = .reading) (hview : View message f s view)
      (hline : f.nextLine view state.limit state.reader = (some (event, text), r)) :
      Streaming s (.read sub) (s.putSub sub { state with
          reader := r
          last := some event
          frames := state.sent state.reader.next text })
  | drain {s : Journal α B O Sub} {sub : Sub} {state : Subscriber α B O} {view : List α}
      (hsub : s.subs sub = some state) (hprogress : state.progress = .reading)
      (hview : View message f s view)
      (hread : (f.nextLine view state.limit state.reader).1 = none) (hend : state.atEnd = true)
      (hopen : ∀ event, state.last = some event → event.terminal = false) :
      Streaming s (.drain sub) (s.putSub sub { state with progress := .drained })
  | derive {s : Journal α B O Sub} {sub : Sub} {state : Subscriber α B O} {response : Response B}
      (hsub : s.subs sub = some state) (hprogress : state.progress = .drained)
      (hrecord : s.record = some response) :
      Streaming s (.derive sub) (s.putSub sub { state with
          progress := .sending state.reader.next (derivedEnd message state.last response) })
  | send {s : Journal α B O Sub} {sub : Sub} {state : Subscriber α B O} {sequence : Nat}
      {event : Event B O} {more : List (Event B O)} (hsub : s.subs sub = some state)
      (hprogress : state.progress = .sending sequence (event :: more)) :
      Streaming s (.send sub) (s.putSub sub { state with
          progress := .sending (sequence + 1) more
          frames := state.sent sequence (f.render sequence event) })
  | leave {s : Journal α B O Sub} {sub : Sub} :
      Streaming s (.leave sub) { s with subs := Function.update s.subs sub none }

def streams (α B O Sub : Type) [DecidableEq α] [DecidableEq B] [DecidableEq O] [DecidableEq Sub]
    (message : B → List Char) (f : LineFormat α (Event B O)) :
    System (Journal α B O Sub) (Append B O Sub) where
  start := fun s => s.file = [] ∧ s.record = none ∧ s.writer = none ∧ s.epoch = 0 ∧
    ∀ sub, s.subs sub = none
  step := Streaming message f

end Journal

end LocalAi.Background
