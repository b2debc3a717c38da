import LocalAi.Lib.Program
import LocalAi.Lib.System

/-!
# The parts a model lends

A call moves parts out of the model, uses them beside it and puts them back.

* `Call.run`: the calls, each with the operations in it that can fail.
* `lending`: the calls in any order, and the sequences, checkpoints and snapshots made between them.
* `Matched`: the parts are where they were, and nothing made before is refused as another model's.
* `ngramStep_keeps_iff`: the one call that gives parts up, and when.
* `lending_matched`: without that, `Matched` holds in every run.

What a part holds is left out.
-/

namespace LocalAi.Engine

open Lib (Program System)

/-- A field that parts are moved out of. -/
inductive Place
  | speculation
  | ngramVerifier
  | tree
  | kflash
deriving DecidableEq

abbrev Parts (P : Type) : Type := Place → Option P

/-- What can fail in a call. -/
inductive Operation
  | reserveKv
  | reserve
  | forward
  | forwardBlock
  | encodeTree
  | verifyRows
  | commandBatch
  | encodeCommitVerified
  | decodeEmbeddings
  | encodeHeadRows
  | finish
  | speculativeRound
  | validate
  | walk
  | commitPath
  | encodeSync
  | draftTree
  | fromParents
  | draft
  | feedRows
  | prepareHeadDrafts
  | runHeadDrafts
  | prepareCatchUp
  | runCatchUp
  | swapHead
  | attentionWorkspace
  | restoreLayers
  | restoreHead
deriving DecidableEq

inductive Failure
  | invalidArgument
  | invalidFormat
  | mismatch
  | failed (op : Operation)

/-- Which operations fail in a call. -/
abbrev Faults : Type := Operation → Bool

section Calls

variable {P : Type}

/-- `Option::take` on a field. -/
def take (place : Place) : Program (Parts P) Failure (Option P) := fun parts =>
  (.ok (parts place), Function.update parts place none)

def put (place : Place) (part : Option P) : Program (Parts P) Failure Unit := fun parts =>
  (.ok (), Function.update parts place part)

def answer {α : Type} (result : Except Failure α) : Program (Parts P) Failure α := fun parts =>
  (result, parts)

def firstFailure (fails : Faults) (ops : List Operation) : Except Failure Unit :=
  (ops.find? fails).elim (.ok ()) fun op => .error (.failed op)

def performAll (fails : Faults) (ops : List Operation) : Program (Parts P) Failure Unit :=
  answer (firstFailure fails ops)

/-- Take a part if it is there, work with it, and put it back whatever came of it. -/
def borrow (place : Place) (work : Program (Parts P) Failure Unit) :
    Program (Parts P) Failure Unit := do
  let part ← take place
  let result ← work.attempt
  put place part
  answer result

/-- The same with a part that has to be there. -/
def lend (place : Place) (absent work : Program (Parts P) Failure Unit) :
    Program (Parts P) Failure Unit := do
  let some part ← take place | absent
  let result ← work.attempt
  put place (some part)
  answer result

def notEnabled : Program (Parts P) Failure Unit := Program.throw .invalidArgument

def speculativeStep (fails : Faults) (cancelled : Bool) : Program (Parts P) Failure Unit :=
  if cancelled then pure () else lend .speculation notEnabled (performAll fails [.speculativeRound])

/-- What can fail once `ngram_step` has its parts. -/
def ngramOperations (head : Bool) : List Operation :=
  [.reserveKv, .reserve, .forwardBlock, .verifyRows, .commandBatch, .encodeCommitVerified] ++
    (if head then [.decodeEmbeddings, .encodeHeadRows] else []) ++ [.finish]

def ngramStep (fails : Faults) (drafts : Nat) (cancelled : Bool) :
    Program (Parts P) Failure Unit :=
  if drafts = 0 then Program.throw .invalidArgument
  else if cancelled then pure ()
  else do
    let speculation ← take .speculation
    let standalone ← take .ngramVerifier
    if speculation.isNone ∧ standalone.isNone then
      -- reserving comes before the missing verifier shows
      performAll fails [.reserveKv]
      Program.throw .invalidArgument
    performAll fails (ngramOperations speculation.isSome)
    put .speculation speculation
    put .ngramVerifier standalone

def treeVerify (fails : Faults) (rows : Nat) (chain : Bool) : Program (Parts P) Failure Unit := do
  performAll fails [.validate]
  lend .tree notEnabled
    (performAll fails [if rows = 1 then .forward else if chain then .forwardBlock else .encodeTree])

def treeAccept (fails : Faults) : Program (Parts P) Failure Unit :=
  lend .tree notEnabled (performAll fails [.walk])

def treeCommit (fails : Faults) : Program (Parts P) Failure Unit :=
  lend .tree notEnabled (borrow .speculation (performAll fails [.commitPath]))

/-- `pending`: the rows the drafter lacks, if the ring has a span. -/
def kflashCatchUp (fails : Faults) (pending : Option Nat) (threshold : Nat) :
    Program (Parts P) Failure Unit :=
  if pending.all (· ≤ threshold) then pure ()
  else lend .kflash (pure ()) (performAll fails [.commandBatch, .encodeSync, .finish])

def kflashDraft (fails : Faults) (cancelled : Bool) : Program (Parts P) Failure Unit :=
  if cancelled then pure () else lend .kflash (pure ()) (performAll fails [.draftTree])

def kflashVerify (fails : Faults) (rows : Nat) (chain cancelled : Bool) :
    Program (Parts P) Failure Unit :=
  if cancelled then pure ()
  else do
    performAll fails [.fromParents]
    treeVerify fails rows chain
    treeAccept fails
    treeCommit fails

def catchUpHead (fails : Faults) (lag : Nat) : Program (Parts P) Failure Unit :=
  if lag = 0 then pure () else lend .speculation (pure ()) (performAll fails [.feedRows])

def draftResident (fails : Faults) (usable : Bool) (lag depth : Nat) :
    Program (Parts P) Failure Unit :=
  if !usable then pure ()
  else do
    catchUpHead fails lag
    lend .speculation (pure ()) (performAll fails (if depth = 0 then [] else [.reserveKv, .draft]))

/-- `valid`: few enough entries, and at most one of them resident. -/
def draftHeads (fails : Faults) (valid : Bool) : Program (Parts P) Failure Unit :=
  if !valid then Program.throw .invalidArgument
  else lend .speculation (pure ()) (performAll fails [.prepareHeadDrafts, .runHeadDrafts])

/-- `owed`: some row's lag has grown too long. -/
def catchUpLags (fails : Faults) (owed : Bool) : Program (Parts P) Failure Unit :=
  if !owed then pure ()
  else lend .speculation (pure ()) (performAll fails [.prepareCatchUp, .runCatchUp])

/-- A call, with what it is given and what it asks first. -/
inductive Call
  | speculativeStep (cancelled : Bool)
  | ngramStep (drafts : Nat) (cancelled : Bool)
  | treeVerify (rows : Nat) (chain : Bool)
  | treeAccept
  | treeCommit
  | kflashCatchUp (pending : Option Nat) (threshold : Nat)
  | kflashDraft (cancelled : Bool)
  | kflashVerify (rows : Nat) (chain cancelled : Bool)
  | draftResident (usable : Bool) (lag depth : Nat)
  | draftHeads (valid : Bool)
  | catchUpHead (lag : Nat)
  | catchUpLags (owed : Bool)

def Call.run (fails : Faults) : Call → Program (Parts P) Failure Unit
  | .speculativeStep cancelled => Engine.speculativeStep fails cancelled
  | .ngramStep drafts cancelled => Engine.ngramStep fails drafts cancelled
  | .treeVerify rows chain => Engine.treeVerify fails rows chain
  | .treeAccept => Engine.treeAccept fails
  | .treeCommit => Engine.treeCommit fails
  | .kflashCatchUp pending threshold => Engine.kflashCatchUp fails pending threshold
  | .kflashDraft cancelled => Engine.kflashDraft fails cancelled
  | .kflashVerify rows chain cancelled => Engine.kflashVerify fails rows chain cancelled
  | .draftResident usable lag depth => Engine.draftResident fails usable lag depth
  | .draftHeads valid => Engine.draftHeads fails valid
  | .catchUpHead lag => Engine.catchUpHead fails lag
  | .catchUpLags owed => Engine.catchUpLags fails owed

/-! ### Sequences, checkpoints and snapshots -/

inductive LayerKind
  | recurrent
  | full
deriving DecidableEq

/-- How many states a parked sequence has, and whether it has a head's. -/
structure SequenceState where
  recurrent : Nat
  kv : Nat
  head : Bool

structure PromptCheckpoint where
  position : Nat
  /-- Whether there is an `mtp_prev_hidden`. -/
  head : Bool

structure PromptSnapshot where
  /-- The length of `mtp_prev_hidden`. -/
  hidden : Nat

def hiddenBytes : Nat := 5120 * 4

def newSequence (layers : List LayerKind) (head : Bool) : SequenceState where
  recurrent := layers.count .recurrent
  kv := layers.count .full
  head := head

/-- One state of the parked sequence for each layer. -/
def swapLayers : List LayerKind → Nat → Nat → Except Failure Unit
  | [], _, _ => .ok ()
  | .recurrent :: layers, recurrent + 1, kv => swapLayers layers recurrent kv
  | .full :: layers, recurrent, kv + 1 => swapLayers layers recurrent kv
  | _ :: _, _, _ => .error .mismatch

def swapSequence (layers : List LayerKind) (head : Bool) (parked : SequenceState) (fails : Faults) :
    Except Failure Unit := do
  swapLayers layers parked.recurrent parked.kv
  match head, parked.head with
  | true, true => firstFailure fails [.swapHead]
  | false, false => .ok ()
  | _, _ => .error .mismatch
  firstFailure fails [.attentionWorkspace]

def snapshotWith (head hidden : Bool) : PromptSnapshot where
  hidden := if head ∧ hidden then hiddenBytes else 0

def promptSnapshotAt (position : Nat) (head : Bool) (checkpoint : PromptCheckpoint)
    (purged : Bool) : Except Failure (Option PromptSnapshot) :=
  if position < checkpoint.position ∨ checkpoint.head ≠ head then .error .mismatch
  else if purged then .ok none
  else .ok (some (snapshotWith head checkpoint.head))

def restorePromptSnapshot (head : Bool) (snapshot : PromptSnapshot) (fails : Faults) :
    Except Failure Unit := do
  firstFailure fails [.restoreLayers]
  match head, snapshot.hidden == 0 with
  | true, false =>
    if snapshot.hidden ≠ hiddenBytes then .error .invalidFormat
    else firstFailure fails [.restoreHead]
  | false, true => .ok ()
  | _, _ => .error .mismatch

/-- A model's parts and what was made with it. -/
structure Lending (P : Type) where
  parts : Parts P
  sequences : List SequenceState
  checkpoints : List PromptCheckpoint
  snapshots : List PromptSnapshot

def Lending.head (s : Lending P) : Bool := (s.parts .speculation).isSome

inductive Event
  | call (call : Call) (fails : Faults)
  | newSequence
  | checkpoint (position : Nat)
  | snapshot
  | snapshotAt (position : Nat) (checkpoint : PromptCheckpoint) (purged : Bool)

/-- Swaps and restores put new contents where contents were, so they change nothing here. -/
def Event.run (layers : List LayerKind) : Event → Lending P → Lending P
  | .call step fails, s => { s with parts := (step.run fails s.parts).2 }
  | .newSequence, s => { s with sequences := Engine.newSequence layers s.head :: s.sequences }
  | .checkpoint position, s => { s with checkpoints := ⟨position, s.head⟩ :: s.checkpoints }
  | .snapshot, s => { s with snapshots := snapshotWith s.head s.head :: s.snapshots }
  | .snapshotAt position held purged, s =>
    match promptSnapshotAt position s.head held purged with
    | .ok (some copy) => { s with snapshots := copy :: s.snapshots }
    | _ => s

def lending (layers : List LayerKind) (start : Parts P) : System (Lending P) Event where
  start := fun s => s = ⟨start, [], [], []⟩
  step := fun s event t => t = event.run layers s

structure Matched (layers : List LayerKind) (start : Parts P) (s : Lending P) : Prop where
  parts : ∀ place, (s.parts place).isSome = (start place).isSome
  heads : ∀ parked ∈ s.sequences, parked.head = s.head
  swap : ∀ parked ∈ s.sequences, ∀ fails, swapSequence layers s.head parked fails ≠ .error .mismatch
  snapshotAt : ∀ checkpoint ∈ s.checkpoints, ∀ position purged, checkpoint.position ≤ position →
    promptSnapshotAt position s.head checkpoint purged ≠ .error .mismatch
  restore : ∀ snapshot ∈ s.snapshots, ∀ fails,
    restorePromptSnapshot s.head snapshot fails ≠ .error .mismatch

/-- Nothing fails in `ngram_step` between taking its parts and putting them back. -/
def NgramKeeps (fails : Faults) (drafts : Nat) (cancelled : Bool) (parts : Parts P) : Prop :=
  drafts = 0 ∨ cancelled = true ∨ (parts .speculation = none ∧ parts .ngramVerifier = none) ∨
    ∀ op ∈ ngramOperations (parts .speculation).isSome, fails op = false

def Allowed (s : Lending P) : Event → Prop
  | .call (.ngramStep drafts cancelled) fails => NgramKeeps fails drafts cancelled s.parts
  | _ => True

/-! ### What calls keep -/

/-- Every part is where it was, whatever comes of the call. -/
def Keeps (work : Program (Parts P) Failure Unit) : Prop := ∀ parts, (work parts).2 = parts

variable {work absent : Program (Parts P) Failure Unit} {fails : Faults}

theorem keeps_pure : Keeps (pure () : Program (Parts P) Failure Unit) := fun _ => rfl

theorem keeps_throw {e : Failure} : Keeps (Program.throw e : Program (Parts P) Failure Unit) :=
  fun _ => rfl

variable {ops : List Operation} {place : Place}

theorem keeps_performAll :
    Keeps (performAll fails ops : Program (Parts P) Failure Unit) := fun _ => rfl

theorem Keeps.bind {f : Unit → Program (Parts P) Failure Unit} (hw : Keeps work)
    (hf : Keeps (f ())) : Keeps (work >>= f) := by
  intro parts
  have hp := hw parts
  rw [Program.bind_apply]
  revert hp
  generalize work parts = outcome
  obtain ⟨result, t⟩ := outcome
  rintro rfl
  cases result with
  | error => rfl
  | ok => exact hf t

theorem Keeps.ite {c : Prop} [Decidable c] {other : Program (Parts P) Failure Unit}
    (hw : Keeps work) (ho : Keeps other) : Keeps (if c then work else other) := by
  split
  · exact hw
  · exact ho

/-- The work leaves the place empty, and the part goes back there. -/
theorem borrow_apply (hw : Keeps work) (parts : Parts P) : (borrow place work parts).2 = parts := by
  show Function.update (work (Function.update parts place none)).2 place (parts place) = parts
  rw [hw, Function.update_idem, Function.update_eq_self]

theorem Keeps.borrow (hw : Keeps work) : Keeps (borrow place work) :=
  borrow_apply hw

theorem Keeps.lend (ha : Keeps absent) (hw : Keeps work) : Keeps (lend place absent work) := by
  intro parts
  cases hp : parts place with
  | none =>
    have hl : Engine.lend place absent work parts = absent parts := by
      simp only [Engine.lend, take, Program.bind_apply, hp]
      rw [← hp, Function.update_eq_self]
    rw [hl, ha]
  | some =>
    have hl : Engine.lend place absent work parts = Engine.borrow place work parts := by
      simp only [Engine.lend, Engine.borrow, take, Program.bind_apply, hp]
    rw [hl, borrow_apply hw]

theorem keeps_treeVerify (fails : Faults) (rows : Nat) (chain : Bool) :
    Keeps (treeVerify fails rows chain : Program (Parts P) Failure Unit) :=
  keeps_performAll.bind (keeps_throw.lend keeps_performAll)

theorem keeps_treeCommit (fails : Faults) :
    Keeps (treeCommit fails : Program (Parts P) Failure Unit) :=
  keeps_throw.lend keeps_performAll.borrow

theorem keeps_catchUpHead (fails : Faults) (lag : Nat) :
    Keeps (catchUpHead fails lag : Program (Parts P) Failure Unit) :=
  keeps_pure.ite (keeps_pure.lend keeps_performAll)

/-- Every call but one puts back what it took. -/
theorem Call.keeps (step : Call) (hn : ∀ drafts cancelled, step ≠ .ngramStep drafts cancelled) :
    Keeps (step.run fails : Program (Parts P) Failure Unit) := by
  cases step with
  | ngramStep drafts cancelled => exact absurd rfl (hn drafts cancelled)
  | speculativeStep => exact keeps_pure.ite (keeps_throw.lend keeps_performAll)
  | treeVerify rows chain => exact keeps_treeVerify fails rows chain
  | treeAccept => exact keeps_throw.lend keeps_performAll
  | treeCommit => exact keeps_treeCommit fails
  | kflashCatchUp => exact keeps_pure.ite (keeps_pure.lend keeps_performAll)
  | kflashDraft => exact keeps_pure.ite (keeps_pure.lend keeps_performAll)
  | kflashVerify rows chain =>
    refine keeps_pure.ite (keeps_performAll.bind ?_)
    refine (keeps_treeVerify fails rows chain).bind ?_
    exact (keeps_throw.lend keeps_performAll).bind (keeps_treeCommit fails)
  | draftResident usable lag =>
    exact keeps_pure.ite ((keeps_catchUpHead fails lag).bind (keeps_pure.lend keeps_performAll))
  | draftHeads => exact keeps_throw.ite (keeps_pure.lend keeps_performAll)
  | catchUpHead lag => exact keeps_catchUpHead fails lag
  | catchUpLags => exact keeps_pure.ite (keeps_pure.lend keeps_performAll)

theorem firstFailure_eq_ok : firstFailure fails ops = .ok () ↔ ∀ op ∈ ops, fails op = false := by
  rw [firstFailure]
  cases hf : ops.find? fails with
  | none => simpa using hf
  | some op =>
    have ho : op ∈ ops ∧ fails op = true := ⟨List.mem_of_find?_eq_some hf, List.find?_some hf⟩
    refine iff_of_false (by simp) fun h => ?_
    rw [h op ho.1] at ho
    cases ho.2

/-- The model without the parts that `ngram_step` takes. -/
def withoutDrafting (parts : Parts P) : Parts P :=
  Function.update (Function.update parts .speculation none) .ngramVerifier none

theorem withoutDrafting_eq {parts : Parts P} : withoutDrafting parts = parts ↔
    parts .speculation = none ∧ parts .ngramVerifier = none := by
  constructor
  · intro h
    exact ⟨by rw [← h]; rfl, by rw [← h]; rfl⟩
  · rintro ⟨hs, hn⟩
    funext place
    cases place <;> simp [withoutDrafting, Function.update, hs, hn]

theorem put_back (parts : Parts P) : Function.update (Function.update (withoutDrafting parts)
    .speculation (parts .speculation)) .ngramVerifier (parts .ngramVerifier) = parts := by
  funext place
  cases place <;> rfl

/-- Once it has its parts, `ngram_step` puts them back only at its end. -/
theorem ngramStep_apply {drafts : Nat} (hd : drafts ≠ 0) (fails : Faults) (parts : Parts P) :
    (ngramStep fails drafts false parts).2 =
      if (∀ op ∈ ngramOperations (parts .speculation).isSome, fails op = false) then parts
      else withoutDrafting parts := by
  have hs : Function.update parts .speculation none .ngramVerifier = parts .ngramVerifier := rfl
  have ho : Function.update (Function.update parts .speculation none) .ngramVerifier none =
      withoutDrafting parts := rfl
  simp only [ngramStep, if_neg hd, Bool.false_eq_true, if_false, Program.bind_apply, take, hs, ho]
  by_cases hn : (parts .speculation).isNone = true ∧ (parts .ngramVerifier).isNone = true
  · have hw : withoutDrafting parts = parts :=
      withoutDrafting_eq.mpr ⟨Option.isNone_iff_eq_none.mp hn.1, Option.isNone_iff_eq_none.mp hn.2⟩
    rw [if_pos hn, hw, ite_self]
    exact keeps_performAll.bind (fun _ => rfl) parts
  · rw [if_neg hn, Program.bind_apply, performAll, answer]
    cases hf : firstFailure fails (ngramOperations (parts .speculation).isSome) with
    | ok =>
      rw [if_pos (firstFailure_eq_ok.mp hf)]
      exact put_back parts
    | error =>
      rw [if_neg fun ha => by rw [firstFailure_eq_ok.mpr ha] at hf; cases hf]

/-- `ngram_step` leaves the parts as they were exactly if it got none or nothing in it failed. -/
theorem ngramStep_keeps_iff (fails : Faults) (drafts : Nat) (cancelled : Bool) (parts : Parts P) :
    (ngramStep fails drafts cancelled parts).2 = parts ↔
      NgramKeeps fails drafts cancelled parts := by
  unfold NgramKeeps
  by_cases hd : drafts = 0
  · simp [ngramStep, hd, Program.throw]
  cases cancelled with
  | true => simp [ngramStep, hd, pure]
  | false =>
    rw [ngramStep_apply hd]
    split
    · next ho => exact iff_of_true rfl (.inr (.inr (.inr ho)))
    · next ho =>
      rw [withoutDrafting_eq]
      simp [hd, ho]

/-! ### Runs -/

variable {layers : List LayerKind} {start : Parts P}

theorem swapLayers_count (layers : List LayerKind) :
    swapLayers layers (layers.count .recurrent) (layers.count .full) = .ok () := by
  induction layers with
  | nil => rfl
  | cons layer layers ih =>
    cases layer with
    | recurrent =>
      rw [List.count_cons_self, List.count_cons_of_ne (by decide), swapLayers, ih]
    | full =>
      rw [List.count_cons_self, List.count_cons_of_ne (by decide), swapLayers, ih]

theorem firstFailure_ne_mismatch : firstFailure fails ops ≠ .error .mismatch := by
  rw [firstFailure]
  cases ops.find? fails <;> simp

theorem bind_ne_mismatch {x : Except Failure Unit} {f : Unit → Except Failure Unit}
    (hx : x ≠ .error .mismatch) (hf : f () ≠ .error .mismatch) : x >>= f ≠ .error .mismatch := by
  cases x with
  | ok => exact hf
  | error => exact hx

/-- All that was made with the model is as the model makes it. -/
structure Own (layers : List LayerKind) (start : Parts P) (s : Lending P) : Prop where
  parts : s.parts = start
  sequences : ∀ parked ∈ s.sequences, parked = newSequence layers s.head
  checkpoints : ∀ held ∈ s.checkpoints, held.head = s.head
  snapshots : ∀ copy ∈ s.snapshots, copy = snapshotWith s.head s.head

theorem Own.step {s : Lending P} {event : Event} (h : Own layers start s) (ha : Allowed s event) :
    Own layers start (event.run layers s) := by
  cases event with
  | call step fails =>
    have hp : (step.run fails s.parts).2 = s.parts := by
      by_cases hn : ∃ drafts cancelled, step = .ngramStep drafts cancelled
      · obtain ⟨drafts, cancelled, rfl⟩ := hn
        exact (ngramStep_keeps_iff fails drafts cancelled s.parts).mpr ha
      · exact step.keeps (fun drafts cancelled heq => hn ⟨drafts, cancelled, heq⟩) s.parts
    rw [Event.run, hp]
    exact h
  | newSequence =>
    exact { h with sequences := List.forall_mem_cons.mpr ⟨rfl, h.sequences⟩ }
  | checkpoint =>
    exact { h with checkpoints := List.forall_mem_cons.mpr ⟨rfl, h.checkpoints⟩ }
  | snapshot =>
    exact { h with snapshots := List.forall_mem_cons.mpr ⟨rfl, h.snapshots⟩ }
  | snapshotAt position held =>
    rw [Event.run]
    split
    · next copy heq =>
      unfold promptSnapshotAt at heq
      split at heq
      · cases heq
      split at heq
      · cases heq
      · next hm _ =>
        cases heq
        have hh : held.head = s.head := by
          by_contra hne
          exact hm (.inr hne)
        exact { h with snapshots := List.forall_mem_cons.mpr ⟨by rw [hh]; rfl, h.snapshots⟩ }
    · exact h

theorem Own.matched {s : Lending P} (h : Own layers start s) : Matched layers start s where
  parts := fun place => by rw [h.parts]
  heads := fun parked hp => by rw [h.sequences parked hp]; rfl
  swap := by
    intro parked hp fails
    rw [h.sequences parked hp, swapSequence, newSequence, swapLayers_count]
    refine bind_ne_mismatch (by simp) ?_
    cases s.head
    · exact firstFailure_ne_mismatch
    · exact bind_ne_mismatch firstFailure_ne_mismatch firstFailure_ne_mismatch
  snapshotAt := by
    intro held hh position purged hp
    rw [promptSnapshotAt, if_neg (by simp [h.checkpoints held hh, hp])]
    split <;> simp
  restore := by
    intro copy hc fails
    rw [h.snapshots copy hc]
    generalize s.head = head
    refine bind_ne_mismatch firstFailure_ne_mismatch ?_
    cases head
    · show (Except.ok () : Except Failure Unit) ≠ _
      simp
    · show (if hiddenBytes ≠ hiddenBytes then _ else _) ≠ _
      rw [if_neg (not_not_intro rfl)]
      exact firstFailure_ne_mismatch

/-- Where nothing fails in an `ngram_step` that has its parts, every part is there as it was and
nothing made with the model is refused by it. -/
theorem lending_matched {s : Lending P} (h : ((lending layers start).restrict Allowed).Reachable s) :
    Matched layers start s := by
  refine Own.matched (h.invariant ?_ ?_)
  · rintro s rfl
    exact ⟨rfl, by simp, by simp, by simp⟩
  · rintro s event t hs ⟨ha, rfl⟩
    exact hs.step ha

/-- A model that has a head and nothing else. -/
def headOnly : Parts Unit
  | .speculation => some ()
  | _ => none

theorem round_matched : Matched [.recurrent, .full] headOnly
    ((Event.call (.ngramStep 1 false) fun _ => false).run [.recurrent, .full]
      (Event.newSequence.run [.recurrent, .full] ⟨headOnly, [], [], []⟩)) :=
  lending_matched (.step (a := .call (.ngramStep 1 false) fun _ => false)
    (.step (a := .newSequence) (.start rfl) ⟨trivial, rfl⟩)
    ⟨.inr (.inr (.inr fun _ _ => rfl)), rfl⟩)

/-- A verify pass that fails loses the head, and a parked sequence is then another model's. -/
theorem failed_round_not_matched : ¬∀ s, (lending [.recurrent, .full] headOnly).Reachable s →
      Matched [.recurrent, .full] headOnly s := by
  intro h
  have hs := h ((Event.call (.ngramStep 1 false) (· == .forwardBlock)).run [.recurrent, .full]
    (Event.newSequence.run [.recurrent, .full] ⟨headOnly, [], [], []⟩))
    (.step (a := .call (.ngramStep 1 false) (· == .forwardBlock))
      (.step (a := .newSequence) (.start rfl) rfl) rfl)
  exact hs.swap (newSequence [.recurrent, .full] true) (List.mem_singleton.mpr rfl)
    (fun _ => false) rfl

end Calls

end LocalAi.Engine
