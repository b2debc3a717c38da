import LocalAi.Batches.Store
import Mathlib.Logic.Relation

/-!
# Batch lines settle once and the result files hold them

The counters of a batch count its lines, a settled line is final, and the lines are frozen
once the batch has an ending, which is before the first result file is written.  So every
attempt to finish would write the same content, and the reserved ids make it write each file
once.  The compensating delete of the output file breaks this: a later attempt takes the
deleted file for one that a client has removed.

* `Batch.Sound`: what holds of a row at any time.
* `Cell.Ok`: the row, its files and the worker agree.
* `Careful`: no attempt gets past its error file once the output file was deleted to
  compensate.
-/

open List

namespace LocalAi.Batches

open Lib (System)

/-! ### What a batch is -/

/-- A settled line holds the record of its outcome. -/
def Line.Recorded (line : Line) : Prop :=
  line.state ≠ .pending → ∃ outcome,
    line.state = (if (record line.recordId line.customId outcome).1 then .succeeded else .failed) ∧
      line.result = some (record line.recordId line.customId outcome).2

structure Batch.Counted (batch : Batch) : Prop where
  completed : batch.completed = batch.count .succeeded
  failed : batch.failed = batch.count .failed
  at_most : batch.completed + batch.failed ≤ batch.total
  all_settled : batch.status = .completed ∨ batch.status = .expired →
    batch.completed + batch.failed = batch.total
  recorded : ∀ line ∈ batch.lines, line.Recorded

inductive BatchStatus.Next : BatchStatus → BatchStatus → Prop
  | cancel : Next .inProgress .cancelling
  | finish : Next .inProgress .finalizing
  | cancelled : Next .cancelling .cancelled
  | completed : Next .finalizing .completed
  | expired : Next .finalizing .expired
  | cancelFailed : Next .cancelling .failed
  | finishFailed : Next .finalizing .failed

structure Batch.Later (batch after : Batch) : Prop where
  follows : Relation.ReflTransGen BatchStatus.Next batch.status after.status
  ended : batch.status.isTerminal → after.status = batch.status
  settled : ∀ (i : Nat) (line : Line), batch.lines[i]? = some line → line.state ≠ .pending →
    after.lines[i]? = some line
  frozen : batch.ending.isSome → after.lines = batch.lines ∧ after.ending = batch.ending
  total : after.total = batch.total

def Batch.fileId (batch : Batch) : Kind → Option Text
  | .output => batch.outputFileId
  | .error => batch.errorFileId

/-- A batch that ended names exactly the result files it has records for, and each holds the
records of its lines in input order, unless a client deleted it or it expired. -/
def Batch.FilesHold (id : Text) (cell : Cell) (batch : Batch) : Prop :=
  batch.status = .completed ∨ batch.status = .expired ∨ batch.status = .cancelled →
    ∀ kind : Kind,
      batch.fileId kind = (if batch.any kind.state then some (resultFileId id kind) else none) ∧
        (batch.any kind.state →
          (∃ expiresAt, cell.file kind = .committed
            ((batch.lines.filter (·.state = kind.state)).flatMap fun line =>
              line.result.getD [] ++ ['\n']) expiresAt) ∨
          cell.file kind = .deleted .client ∨ cell.file kind = .deleted .purge)

/-! ### Rows -/

/-- The ending that goes with a status. -/
def Batch.EndsAs (batch : Batch) : Prop :=
  match batch.status with
  | .inProgress => batch.ending = none
  | .cancelling => batch.ending = none ∨ batch.ending = some .cancelled
  | .finalizing => batch.ending = some .completed ∨ batch.ending = some .expired
  | .failed => batch.ending.isSome
  | ended => batch.ending = some ended

structure Batch.Sound (batch : Batch) : Prop where
  total : batch.total = batch.lines.length
  completed : batch.completed = batch.count .succeeded
  failed : batch.failed = batch.count .failed
  recorded : ∀ line ∈ batch.lines, line.Recorded
  endsAs : batch.EndsAs
  none_pending : batch.ending = some .completed ∨ batch.ending = some .expired →
    batch.count .pending = 0

theorem count_add (batch : Batch) :
    batch.count .pending + batch.count .succeeded + batch.count .failed = batch.lines.length := by
  rw [Batch.count, Batch.count, Batch.count]
  induction batch.lines with
  | nil => rfl
  | cons line =>
    simp only [countP_cons, length_cons]
    cases line.state <;> simp <;> omega

variable {batch : Batch} {id : Text} {row : Line} {line : Nat} {outcome : LineOutcome}
  {settled : Bool} {cell : Cell} {phase : Phase} {output : Option Text} {s : Store}

theorem Batch.Sound.counted (h : batch.Sound) : batch.Counted := by
  have hc := count_add batch
  refine ⟨h.completed, h.failed, ?_, ?_, h.recorded⟩
  · rw [h.completed, h.failed, h.total]
    omega
  · intro hst
    have he := h.endsAs
    have hend : batch.ending = some .completed ∨ batch.ending = some .expired := by
      rw [Batch.EndsAs] at he
      rcases hst with hs | hs <;> rw [hs] at he
      · exact Or.inl he
      · exact Or.inr he
    have hn := h.none_pending hend
    rw [h.completed, h.failed, h.total]
    omega

theorem Batch.Later.refl (batch : Batch) : batch.Later batch :=
  ⟨.refl, fun _ => rfl, fun _ _ h _ => h, fun _ => ⟨rfl, rfl⟩, rfl⟩

theorem Batch.Later.trans {a b c : Batch} (hab : a.Later b) (hbc : b.Later c) : a.Later c := by
  refine ⟨hab.follows.trans hbc.follows, ?_, ?_, ?_, hbc.total.trans hab.total⟩
  · intro h
    have heq := hab.ended h
    rw [← heq]
    exact hbc.ended (by rw [heq]; exact h)
  · intro i line hli hs
    exact hbc.settled i line (hab.settled i line hli hs) hs
  · intro h
    obtain ⟨hl, he⟩ := hab.frozen h
    obtain ⟨hl', he'⟩ := hbc.frozen (by rw [he]; exact h)
    exact ⟨hl'.trans hl, he'.trans he⟩

theorem createBatch_sound (now : Nat) (lines : List InputLine) : (createBatch now lines).Sound := by
  have hs : ∀ line ∈ (createBatch now lines).lines, line.state = .pending := by
    intro line hl
    obtain ⟨input, _, rfl⟩ := mem_map.mp hl
    rfl
  have hc : ∀ state, state ≠ .pending → (createBatch now lines).count state = 0 := by
    intro state hne
    rw [Batch.count, countP_eq_zero]
    intro line hl
    rw [hs line hl]
    simpa using hne.symm
  refine ⟨?_, (hc _ (by decide)).symm, (hc _ (by decide)).symm, ?_, rfl, ?_⟩
  · simp [createBatch]
  · intro line hl hne
    exact absurd (hs line hl) hne
  · intro h
    rcases h with h | h <;> cases h

/-! ### Cancel and settle -/

variable {after : Batch} {now : Nat} {kind : Kind} {file : ResultFile} {worker : Worker}

theorem cancelBatch_later (hs : batch.Sound) (h : cancelBatch id batch = .ok after) :
    after.Sound ∧ batch.Later after ∧
      (after = batch ∨ batch.status = .inProgress ∧ after = { batch with status := .cancelling }) := by
  rw [cancelBatch] at h
  split at h
  · next hst =>
    cases h
    have he := hs.endsAs
    rw [Batch.EndsAs, hst] at he
    refine ⟨{ hs with endsAs := Or.inl he },
      ⟨?_, ?_, fun _ _ hl _ => hl, fun _ => ⟨rfl, rfl⟩, rfl⟩, Or.inr ⟨hst, rfl⟩⟩
    · rw [hst]
      exact .single .cancel
    · rw [hst]
      intro ht
      cases ht
  · cases h
    exact ⟨hs, .refl _, Or.inl rfl⟩
  · cases h
    exact ⟨hs, .refl _, Or.inl rfl⟩
  · cases h

theorem Line.settle_recorded (line : Line) (outcome : LineOutcome) :
    (line.settle outcome).Recorded := fun _ => ⟨outcome, rfl, rfl⟩

theorem countP_set {lines : List Line} {i : Nat} (h : lines[i]? = some row)
    (line : Line) (state : LineState) :
    (lines.set i line).countP (·.state = state) + (if row.state = state then 1 else 0) =
      lines.countP (·.state = state) + (if line.state = state then 1 else 0) := by
  induction lines generalizing i with
  | nil => cases h
  | cons first lines ih =>
    cases i with
    | zero =>
      cases h
      simp only [set_cons_zero, countP_cons, decide_eq_true_eq]
      omega
    | succ i =>
      have := ih (i := i) h
      simp only [set_cons_succ, countP_cons, decide_eq_true_eq]
      omega

/-- A settlement replaces one pending line by its settled form, or changes nothing. -/
theorem settleBatchLine_cases (h : settleBatchLine id line outcome batch = .ok (settled, after)) :
    batch.ending = none ∧
      (after = batch ∨ ∃ row, batch.lines[line]? = some row ∧ row.state = .pending ∧
        after = { batch with
          lines := batch.lines.set line (row.settle outcome)
          completed := batch.completed + (if (row.settle outcome).state = .succeeded then 1 else 0)
          failed := batch.failed + (if (row.settle outcome).state = .failed then 1 else 0) }) := by
  rw [settleBatchLine] at h
  split at h
  · cases h
  · next hg =>
    have he : batch.ending = none := by
      cases hn : batch.ending with
      | none => rfl
      | some => exact absurd (Or.inl (by rw [hn]; rfl)) hg
    refine ⟨he, ?_⟩
    split at h
    · cases h
    · next row hr =>
      split at h
      · cases h
        exact Or.inl rfl
      · next hp =>
        cases h
        refine Or.inr ⟨row, hr, not_not.mp hp, ?_⟩
        rw [Line.settle]
        by_cases hok : (record row.recordId row.customId outcome).1
        · simp [hok]
        · simp [hok]

theorem settleBatchLine_later (hs : batch.Sound)
    (h : settleBatchLine id line outcome batch = .ok (settled, after)) :
    after.Sound ∧ batch.Later after := by
  obtain ⟨he, rfl | ⟨row, hr, hp, rfl⟩⟩ := settleBatchLine_cases h
  · exact ⟨hs, .refl _⟩
  · have hset := fun state => countP_set hr (row.settle outcome) state
    refine ⟨⟨?_, ?_, ?_, ?_, hs.endsAs, ?_⟩, ⟨.refl, fun _ => rfl, ?_, ?_, rfl⟩⟩
    · simpa using hs.total
    · have := hset .succeeded
      rw [hp, if_neg (by decide)] at this
      show batch.completed + _ =
        (batch.lines.set line (row.settle outcome)).countP (·.state = .succeeded)
      rw [hs.completed, Batch.count]
      omega
    · have := hset .failed
      rw [hp, if_neg (by decide)] at this
      show batch.failed + _ = (batch.lines.set line (row.settle outcome)).countP (·.state = .failed)
      rw [hs.failed, Batch.count]
      omega
    · intro other ho
      rcases mem_or_eq_of_mem_set ho with hm | rfl
      · exact hs.recorded other hm
      · exact row.settle_recorded outcome
    · intro hso
      rw [he] at hso
      rcases hso with hso | hso <;> cases hso
    · intro i other ho hne
      have hi : line ≠ i := by
        rintro rfl
        rw [hr] at ho
        cases ho
        exact hne hp
      rw [getElem?_set_ne hi]
      exact ho
    · intro hso
      rw [he] at hso
      cases hso

/-! ### Finish -/

def Batch.Finishing (batch : Batch) (ending : BatchStatus) : Prop :=
  batch.ending = some ending ∧ (batch.status = .finalizing ∨ batch.status = .cancelling)

theorem Batch.Finishing.not_ended {ending : BatchStatus} (h : batch.Finishing ending) :
    ¬ (batch.status = .completed ∨ batch.status = .expired ∨ batch.status = .cancelled) := by
  rcases h.2 with hs | hs <;> rw [hs] <;> decide

theorem Line.expire_of_settled {line : Line} (h : line.state ≠ .pending) : line.expire = line := by
  rw [Line.expire, if_neg h]

theorem Line.expire_recorded {line : Line} (h : line.Recorded) : line.expire.Recorded := by
  rw [Line.expire]
  split
  · exact fun _ => ⟨expiredOutcome, rfl, rfl⟩
  · exact h

theorem count_expire (lines : List Line) : (lines.map Line.expire).countP (·.state = .pending) = 0 ∧
      (lines.map Line.expire).countP (·.state = .succeeded) = lines.countP (·.state = .succeeded) ∧
      (lines.map Line.expire).countP (·.state = .failed) =
        lines.countP (·.state = .failed) + lines.countP (·.state = .pending) := by
  induction lines with
  | nil => exact ⟨rfl, rfl, rfl⟩
  | cons line lines ih =>
    obtain ⟨hp, hsu, hf⟩ := ih
    simp only [map_cons, countP_cons, hp, hsu, hf]
    rw [Line.expire]
    by_cases h : line.state = .pending
    · simp [h]
      omega
    · cases hs : line.state with
      | pending => exact absurd hs h
      | succeeded => simp [hs]
      | failed =>
        simp [hs]
        omega

theorem expire_later (hs : batch.Sound) (hst : batch.status = .inProgress)
    (he : batch.ending = none) :
    ({ expirePending batch with status := .finalizing, ending := some .expired } : Batch).Sound ∧
      batch.Later { expirePending batch with status := .finalizing, ending := some .expired } := by
  obtain ⟨hp, hsu, hf⟩ := count_expire batch.lines
  refine ⟨⟨?_, ?_, ?_, ?_, Or.inr rfl, fun _ => hp⟩, ⟨?_, ?_, ?_, ?_, rfl⟩⟩
  · show batch.total = (batch.lines.map Line.expire).length
    rw [hs.total, length_map]
  · exact hs.completed.trans hsu.symm
  · show batch.failed + batch.count .pending = (batch.lines.map Line.expire).countP _
    rw [hf, hs.failed]
    rfl
  · intro line hl
    obtain ⟨before, hb, rfl⟩ := mem_map.mp hl
    exact Line.expire_recorded (hs.recorded before hb)
  · rw [hst]
    exact .single .finish
  · rw [hst]
    intro ht
    cases ht
  · intro i line hl hne
    show (batch.lines.map Line.expire)[i]? = some line
    rw [getElem?_map, hl, Option.map_some, Line.expire_of_settled hne]
  · rw [he]
    intro hso
    cases hso

theorem beginFinish_later {ending : Option BatchStatus}
    (hs : batch.Sound) (h : beginFinish id now batch = .ok (ending, after)) :
    after.Sound ∧ batch.Later after ∧
      (ending = none ∧ after = batch ∨ ∃ e, ending = some e ∧ after.Finishing e) := by
  have he := hs.endsAs
  rw [Batch.EndsAs] at he
  rw [beginFinish] at h
  split at h
  case h_5 hst =>
    cases h
    rw [hst] at he
    have hsome : some (batch.ending.getD .cancelled) = some .cancelled := by
      rcases he with he | he <;> rw [he] <;> rfl
    refine ⟨{ hs with endsAs := ?_, none_pending := ?_ },
      ⟨.refl, fun _ => rfl, fun _ _ hl _ => hl, ?_, rfl⟩,
      Or.inr ⟨_, rfl, hsome, Or.inr hst⟩⟩
    · rw [Batch.EndsAs]
      simp only [hst]
      exact Or.inr hsome
    · intro hend
      rcases hend with hend | hend
      · cases hsome.symm.trans hend
      · cases hsome.symm.trans hend
    · intro hset
      rcases he with he | he
      · rw [he] at hset
        cases hset
      · exact ⟨rfl, hsome.trans he.symm⟩
  case h_6 hst =>
    cases h
    rw [hst] at he
    refine ⟨hs, .refl _, Or.inr ⟨_, rfl, ?_, Or.inl hst⟩⟩
    rcases he with he | he <;> rw [he] <;> rfl
  case h_7 hst =>
    rw [hst] at he
    split at h
    · cases h
      obtain ⟨hsound, hla⟩ := expire_later hs hst he
      exact ⟨hsound, hla, Or.inr ⟨_, rfl, rfl, Or.inl rfl⟩⟩
    · split at h
      · next hc =>
        cases h
        refine ⟨{ hs with endsAs := Or.inl rfl, none_pending := fun _ => hc },
          ⟨?_, ?_, fun _ _ hl _ => hl, ?_, rfl⟩, Or.inr ⟨_, rfl, rfl, Or.inl rfl⟩⟩
        · rw [hst]
          exact .single .finish
        · rw [hst]
          intro ht
          cases ht
        · rw [he]
          intro hsome
          cases hsome
      · cases h
  all_goals
    cases h
    exact ⟨hs, .refl _, Or.inl ⟨rfl, rfl⟩⟩

theorem firstPending_spec (h : batch.firstPending = some (line, row)) :
    batch.lines[line]? = some row ∧ row.state = .pending := by
  obtain ⟨index, hi, hr⟩ := Option.bind_eq_some_iff.mp h
  obtain ⟨found, hf, heq⟩ := Option.map_eq_some_iff.mp hr
  cases heq
  refine ⟨hf, ?_⟩
  obtain ⟨hlt, hp, -⟩ := findIdx?_eq_some_iff_getElem.mp hi
  rw [getElem?_eq_getElem hlt] at hf
  cases hf
  exact of_decide_eq_true hp

theorem firstPending_none (h : batch.firstPending = none) : batch.count .pending = 0 := by
  have hn : batch.lines.findIdx? (·.state = .pending) = none := by
    cases hf : batch.lines.findIdx? (·.state = .pending) with
    | none => rfl
    | some =>
      obtain ⟨hlt, -⟩ := findIdx?_eq_some_iff_getElem.mp hf
      rw [Batch.firstPending, hf, Option.bind_some, getElem?_eq_getElem hlt] at h
      cases h
  rw [Batch.count, countP_eq_zero]
  intro line hl hp
  have := findIdx?_eq_none_iff.mp hn line hl
  rw [hp] at this
  cases this

variable (id) in
theorem nextBatchLine_settles (hs : batch.Sound) (h : nextBatchLine now batch = .line line row)
    (outcome : LineOutcome) : ∃ after, settleBatchLine id line outcome batch = .ok (true, after) ∧
      after.count .pending + 1 = batch.count .pending := by
  rw [nextBatchLine] at h
  split at h
  · next hst =>
    split at h
    · split at h
      · next found =>
        cases h
        obtain ⟨hr, hp⟩ := firstPending_spec found
        have he := hs.endsAs
        rw [Batch.EndsAs, hst] at he
        have hc := countP_set hr (row.settle outcome) .pending
        rw [if_pos hp, if_neg (by unfold Line.settle; split <;> simp)] at hc
        rw [settleBatchLine, he, hst, if_neg (by simp), hr]
        simp only [hp]
        refine ⟨_, rfl, ?_⟩
        split <;> exact hc
      · cases h
    · cases h
  all_goals cases h

variable (id) in
theorem nextBatchLine_finishes {later : Nat}
    (h : nextBatchLine now batch = .finish) (hl : now ≤ later) :
    ∃ ending after, beginFinish id later batch = .ok (some ending, after) := by
  rw [nextBatchLine] at h
  rw [beginFinish]
  split at h
  · next hs =>
    rw [hs]
    dsimp only
    split
    · exact ⟨_, _, rfl⟩
    · next he =>
      rw [if_pos (show now < batch.expiresAt by omega)] at h
      cases hf : batch.firstPending with
      | some =>
        rw [hf] at h
        cases h
      | none =>
        rw [if_pos (firstPending_none hf)]
        exact ⟨_, _, rfl⟩
  · next hs =>
    rw [hs]
    exact ⟨_, _, rfl⟩
  · next hs =>
    rw [hs]
    exact ⟨_, _, rfl⟩
  · cases h

theorem nextBatchLine_done (h : nextBatchLine now batch = .done) :
    batch.status.isTerminal = true := by
  rw [nextBatchLine] at h
  split at h
  · split at h
    · split at h <;> cases h
    · cases h
  · cases h
  · cases h
  · cases hs : batch.status <;> first | rfl | contradiction

theorem Batch.Finishing.ending {ending : BatchStatus} (hs : batch.Sound)
    (h : batch.Finishing ending) :
    batch.status = .finalizing ∧ (ending = .completed ∨ ending = .expired) ∨
      batch.status = .cancelling ∧ ending = .cancelled := by
  have he := hs.endsAs
  obtain ⟨hend, hst | hst⟩ := h
  · rw [Batch.EndsAs, hst, hend] at he
    refine Or.inl ⟨hst, ?_⟩
    rcases he with he | he <;> cases he
    · exact Or.inl rfl
    · exact Or.inr rfl
  · rw [Batch.EndsAs, hst, hend] at he
    refine Or.inr ⟨hst, ?_⟩
    rcases he with he | he <;> cases he
    rfl

theorem endBatch_later {ending : BatchStatus} (output error : Option Text)
    (hs : batch.Sound) (h : batch.Finishing ending) : (endBatch ending output error batch).Sound ∧
      batch.Later (endBatch ending output error batch) := by
  rw [endBatch, if_pos h.2]
  have hn : BatchStatus.Next batch.status ending ∧ batch.status.isTerminal = false ∧
      ({ batch with status := ending, outputFileId := output, errorFileId := error } :
        Batch).EndsAs := by
    rw [Batch.EndsAs]
    rcases h.ending hs with ⟨hst, rfl | rfl⟩ | ⟨hst, rfl⟩ <;> rw [hst]
    · exact ⟨.completed, rfl, h.1⟩
    · exact ⟨.expired, rfl, h.1⟩
    · exact ⟨.cancelled, rfl, h.1⟩
  obtain ⟨he, ht, hen⟩ := hn
  refine ⟨{ hs with endsAs := hen }, ⟨.single he, ?_, fun _ _ hl _ => hl, fun _ => ⟨rfl, rfl⟩, rfl⟩⟩
  rw [ht]
  intro hf
  cases hf

theorem failBatch_later {ending : BatchStatus} (error : Text)
    (hs : batch.Sound) (h : batch.Finishing ending) :
    (failBatch error batch).Sound ∧ batch.Later (failBatch error batch) := by
  rw [failBatch, if_pos h.2]
  have hn : BatchStatus.Next batch.status .failed ∧ batch.status.isTerminal = false := by
    rcases h.2 with hst | hst <;> rw [hst]
    · exact ⟨.finishFailed, rfl⟩
    · exact ⟨.cancelFailed, rfl⟩
  have hso : batch.ending.isSome := by
    rw [h.1]
    rfl
  refine ⟨{ hs with endsAs := hso },
    ⟨.single hn.1, ?_, fun _ _ hl _ => hl, fun _ => ⟨rfl, rfl⟩, rfl⟩⟩
  rw [hn.2]
  intro hf
  cases hf

/-! ### A batch and its files -/

/-- A result file is written when the lines are frozen, with their records. -/
def FileOk (batch : Batch) (kind : Kind) (file : ResultFile) : Prop :=
  file = .absent ∨ batch.ending.isSome ∧ batch.any kind.state ∧
    ((∃ expiresAt, file = .committed (batch.records kind.state) expiresAt) ∨
      ∃ deleter, file = .deleted deleter)

def Named (id : Text) (batch : Batch) (kind : Kind) (file : ResultFile) (name : Option Text) :
    Prop :=
  name = (if batch.any kind.state then some (resultFileId id kind) else none) ∧
    (batch.any kind.state → file ≠ .absent)

def Cell.PhaseOk (id : Text) (batch : Batch) (cell : Cell) : Phase → Prop
  | .working => True
  | .begun ending => batch.Finishing ending
  | .wroteOutput ending output =>
    batch.Finishing ending ∧ Named id batch .output cell.output output
  | .wroteBoth ending output error =>
    batch.Finishing ending ∧ Named id batch .output cell.output output ∧
      Named id batch .error cell.error error ∧ cell.output ≠ .deleted .compensation
  | .compensating output _ =>
    ∃ ending, batch.Finishing ending ∧ Named id batch .output cell.output output
  | .failing _ => ∃ ending, batch.Finishing ending

structure Cell.Agrees (id : Text) (cell : Cell) (batch : Batch) : Prop where
  sound : batch.Sound
  files : ∀ kind, FileOk batch kind (cell.file kind)
  error_kept : cell.error ≠ .deleted .compensation
  phase : ∀ worker phase, cell.holder = some (worker, phase) → cell.PhaseOk id batch phase
  named : batch.status = .completed ∨ batch.status = .expired ∨ batch.status = .cancelled →
    ∀ kind, Named id batch kind (cell.file kind) (batch.fileId kind) ∧
      cell.file kind ≠ .deleted .compensation

def Cell.Ok (id : Text) (cell : Cell) : Prop :=
  match cell.batch with
  | none => cell = .empty
  | some batch => cell.Agrees id batch

theorem Cell.Ok.agrees (h : cell.Ok id) (hb : cell.batch = some batch) : cell.Agrees id batch := by
  rw [Cell.Ok, hb] at h
  exact h

theorem Cell.phase_holder (h : cell.phase worker = some phase) :
    cell.holder = some (worker, phase) := by
  rw [Cell.phase] at h
  split at h
  · next holder phase' hh =>
    split at h
    · next heq =>
      cases h
      rw [hh, heq]
    · cases h
  · cases h

theorem Cell.Agrees.phaseOk (h : cell.Agrees id batch) (hp : cell.phase worker = some phase) :
    cell.PhaseOk id batch phase := h.phase worker phase (Cell.phase_holder hp)

theorem Batch.any_congr (h : after.lines = batch.lines) (state : LineState) :
    after.any state = batch.any state := by
  rw [Batch.any, Batch.any, h]

theorem Batch.records_congr (h : after.lines = batch.lines) (state : LineState) :
    after.records state = batch.records state := by
  rw [Batch.records, Batch.records, h]

/-- A written file stays right, since the lines it was written from are frozen. -/
theorem FileOk.later (h : FileOk batch kind file) (hla : batch.Later after) :
    FileOk after kind file := by
  rcases h with h | ⟨hs, ha, hf⟩
  · exact Or.inl h
  · obtain ⟨hl, he⟩ := hla.frozen hs
    refine Or.inr ⟨by rw [he]; exact hs, by rw [Batch.any_congr hl]; exact ha, ?_⟩
    rw [Batch.records_congr hl]
    exact hf

theorem Named.congr {name : Option Text}
    (h : Named id batch kind file name) (hl : after.lines = batch.lines) :
    Named id after kind file name := by
  rw [Named, Batch.any_congr hl]
  exact h

/-- What every step but the compensating delete does to a file. -/
structure Evolves (batch : Batch) (kind : Kind) (file after : ResultFile) : Prop where
  ok : FileOk batch kind after
  present : file ≠ .absent → after ≠ .absent
  kept : file ≠ .deleted .compensation → after ≠ .deleted .compensation

theorem Evolves.refl (h : FileOk batch kind file) : Evolves batch kind file file := ⟨h, id, id⟩

theorem Named.evolves {after : ResultFile} {name : Option Text}
    (h : Named id batch kind file name) (he : Evolves batch kind file after) :
    Named id batch kind after name := ⟨h.1, fun ha => he.present (h.2 ha)⟩

theorem evolves_delete {after : ResultFile} (h : FileOk batch kind file)
    (hd : file.delete now .client = some after) : Evolves batch kind file after := by
  cases file with
  | committed =>
    rw [ResultFile.delete] at hd
    split at hd
    · cases hd
      rcases h with h | ⟨hs, ha, -⟩
      · cases h
      · exact ⟨Or.inr ⟨hs, ha, Or.inr ⟨_, rfl⟩⟩, fun _ => (by decide), fun _ => (by decide)⟩
    · cases hd
  | absent => cases hd
  | deleted => cases hd

theorem evolves_purge {after : ResultFile} (h : FileOk batch kind file)
    (hp : file.purge now = some after) : Evolves batch kind file after := by
  cases file with
  | committed =>
    rw [ResultFile.purge] at hp
    split at hp
    · cases hp
      rcases h with h | ⟨hs, ha, -⟩
      · cases h
      · exact ⟨Or.inr ⟨hs, ha, Or.inr ⟨_, rfl⟩⟩, fun _ => (by decide), fun _ => (by decide)⟩
    · cases hp
  | absent => cases hp
  | deleted => cases hp

theorem evolves_create (h : FileOk batch kind file) (hs : batch.ending.isSome)
    (ha : batch.any kind.state) :
    Evolves batch kind file (file.create now (batch.records kind.state)) := by
  cases file with
  | absent =>
    exact ⟨Or.inr ⟨hs, ha, Or.inl ⟨_, rfl⟩⟩, nofun, nofun⟩
  | committed => exact .refl h
  | deleted => exact .refl h

theorem create_ne_absent (now : Nat) (content : Text) (file : ResultFile) :
    file.create now content ≠ .absent := by
  cases file with
  | absent => exact nofun
  | committed => exact nofun
  | deleted => exact nofun

theorem writeRecords_spec (id : Text) (now : Nat) (fault : Fault)
    (h : FileOk batch kind file) (hs : batch.ending.isSome) :
    Evolves batch kind file (writeRecords id now kind fault batch file).2 ∧
      ∀ name, (writeRecords id now kind fault batch file).1 = .ok name → fault = .none ∧
        Named id batch kind (writeRecords id now kind fault batch file).2 name := by
  have hw : Evolves batch kind file
      (if batch.any kind.state then file.create now (batch.records kind.state) else file) := by
    split
    · next ha => exact evolves_create h hs ha
    · exact .refl h
  cases fault with
  | refused => exact ⟨.refl h, nofun⟩
  | unreported => exact ⟨hw, nofun⟩
  | none =>
    refine ⟨hw, fun name hn => ⟨rfl, ?_, ?_⟩⟩
    · cases hn
      rfl
    · intro ha
      rw [writeRecords]
      simp only [ha, if_true]
      exact create_ne_absent _ _ _

theorem Cell.PhaseOk.evolves {after : Cell}
    (h : cell.PhaseOk id batch phase) (he : ∀ kind, Evolves batch kind (cell.file kind)
      (after.file kind)) : after.PhaseOk id batch phase := by
  have ho : Evolves batch .output cell.output after.output := he .output
  have herror : Evolves batch .error cell.error after.error := he .error
  cases phase with
  | working => trivial
  | begun => exact h
  | wroteOutput => exact ⟨h.1, h.2.evolves ho⟩
  | wroteBoth =>
    obtain ⟨hf, hout, herr, hk⟩ := h
    exact ⟨hf, hout.evolves ho, herr.evolves herror, ho.kept hk⟩
  | compensating =>
    obtain ⟨ending, hf, hout⟩ := h
    exact ⟨ending, hf, hout.evolves ho⟩
  | failing => exact h

theorem Cell.Agrees.evolves {after : Cell} (h : cell.Agrees id batch)
    (he : ∀ kind, Evolves batch kind (cell.file kind) (after.file kind))
    (hp : ∀ worker phase, after.holder = some (worker, phase) →
      after.PhaseOk id batch phase) : after.Agrees id batch where
  sound := h.sound
  files kind := (he kind).ok
  error_kept := (he .error).kept h.error_kept
  phase := hp
  named hs kind :=
    ⟨(h.named hs kind).1.evolves (he kind), (he kind).kept (h.named hs kind).2⟩

/-! ### Steps -/

/-- No attempt to finish gets past its error file once the compensating delete of an earlier
attempt has removed the output file. -/
def Act.Careful (cell : Cell) : Act → Prop
  | .writeError _ .none => cell.output ≠ .deleted .compensation
  | _ => True

theorem Cell.file_setFile (cell : Cell) (kind other : Kind) (file : ResultFile) :
    (cell.setFile kind file).file other = if other = kind then file else cell.file other := by
  cases kind <;> cases other <;> rfl

theorem Cell.setFile_batch (cell : Cell) (kind : Kind) (file : ResultFile) :
    (cell.setFile kind file).batch = cell.batch := by
  cases kind <;> rfl

theorem Cell.setFile_holder (cell : Cell) (kind : Kind) (file : ResultFile) :
    (cell.setFile kind file).holder = cell.holder := by
  cases kind <;> rfl

theorem Cell.Agrees.setFile (h : cell.Agrees id batch)
    (he : Evolves batch kind (cell.file kind) file) : (cell.setFile kind file).Agrees id batch := by
  have ha : ∀ other, Evolves batch other (cell.file other)
      ((cell.setFile kind file).file other) := by
    intro other
    rw [Cell.file_setFile]
    split
    · next heq =>
      rw [heq]
      exact he
    · exact .refl (h.files other)
  apply h.evolves ha
  intro worker phase hh
  rw [Cell.setFile_holder] at hh
  exact (h.phase worker phase hh).evolves ha

/-- The row, the files and the worker after a step that may change the row. -/
theorem Cell.Agrees.later
    (holder : Option (Worker × Phase)) (h : cell.Agrees id batch) (hs : after.Sound)
    (hl : batch.Later after) (hp : ∀ worker phase, holder = some (worker, phase) →
      ({ cell with batch := some after, holder := holder } : Cell).PhaseOk id after phase)
    (hn : after.status = .completed ∨ after.status = .expired ∨ after.status = .cancelled →
      ∀ kind, Named id after kind (cell.file kind) (after.fileId kind) ∧
        cell.file kind ≠ .deleted .compensation) :
    ({ cell with batch := some after, holder := holder } : Cell).Agrees id after where
  sound := hs
  files kind := by
    cases kind with
    | output => exact (h.files .output).later hl
    | error => exact (h.files .error).later hl
  error_kept := h.error_kept
  phase := hp
  named hst kind := by
    have := hn hst kind
    cases kind with
    | output => exact this
    | error => exact this

theorem Batch.Sound.not_ended (hs : batch.Sound) (h : batch.ending = none) :
    ¬ (batch.status = .completed ∨ batch.status = .expired ∨ batch.status = .cancelled) := by
  have he := hs.endsAs
  rw [Batch.EndsAs, h] at he
  rintro (hst | hst | hst) <;> rw [hst] at he <;> cases he

theorem Cell.Agrees.cancel (h : cell.Agrees id batch)
    (hb : cell.batch = some batch) (hc : cancelBatch id batch = .ok after) :
    ({ cell with batch := some after } : Cell).Agrees id after ∧ batch.Later after := by
  obtain ⟨hsound, hl, rfl | ⟨hst, rfl⟩⟩ := cancelBatch_later h.sound hc
  · have heq : ({ cell with batch := some after } : Cell) = cell := by
      rw [← hb]
    rw [heq]
    exact ⟨h, hl⟩
  · refine ⟨h.later cell.holder hsound hl ?_ ?_, hl⟩
    · intro worker phase hh
      have hp := h.phase worker phase hh
      -- a batch in progress has no ending, so its worker is not finishing it
      have he := h.sound.endsAs
      rw [Batch.EndsAs, hst] at he
      have hno : ∀ ending, ¬ batch.Finishing ending := by
        rintro ending ⟨hsome, -⟩
        cases he.symm.trans hsome
      cases phase with
      | working => trivial
      | begun => exact absurd hp (hno _)
      | wroteOutput => exact absurd hp.1 (hno _)
      | wroteBoth => exact absurd hp.1 (hno _)
      | compensating => exact absurd hp.choose_spec.1 (hno _)
      | failing => exact absurd hp.choose_spec (hno _)
    · rintro (hs | hs | hs) <;> cases hs

variable {worker : Worker}

theorem Cell.Agrees.settle {after : Batch} (h : cell.Agrees id batch)
    (hp : cell.phase worker = some .working)
    (hse : settleBatchLine id line outcome batch = .ok (settled, after)) :
    ({ cell with batch := some after } : Cell).Agrees id after ∧ batch.Later after := by
  obtain ⟨hs, hl⟩ := settleBatchLine_later h.sound hse
  obtain ⟨he, ha⟩ := settleBatchLine_cases hse
  have hn : after.ending = none := by
    obtain rfl | ⟨row, -, -, rfl⟩ := ha <;> exact he
  refine ⟨h.later cell.holder hs hl ?_ ?_, hl⟩
  · intro other phase hh
    rw [Cell.phase_holder hp] at hh
    cases hh
    trivial
  · intro hst
    exact absurd hst (hs.not_ended hn)

theorem Cell.Agrees.begin {ending : Option BatchStatus}
    (h : cell.Agrees id batch) (hb : beginFinish id now batch = .ok (ending, after)) :
    ({ cell with batch := some after, holder := some (worker, .afterBegin ending) } :
      Cell).Agrees id after ∧ batch.Later after := by
  obtain ⟨hso, hl, hc⟩ := beginFinish_later h.sound hb
  refine ⟨h.later _ hso hl ?_ ?_, hl⟩
  · intro other phase hh
    cases hh
    rcases hc with ⟨rfl, -⟩ | ⟨e, rfl, hf⟩
    · trivial
    · exact hf
  · intro hs
    rcases hc with ⟨-, rfl⟩ | ⟨e, -, hf⟩
    · exact h.named hs
    · exact absurd hs hf.not_ended

theorem Batch.Finishing.isSome {ending : BatchStatus}
    (h : batch.Finishing ending) : batch.ending.isSome := by
  rw [h.1]
  rfl

theorem Cell.Agrees.writeOutput {fault : Fault} {ending : BatchStatus}
    (h : cell.Agrees id batch) (hp : cell.phase worker = some (.begun ending)) : ({ cell with
        output := (writeRecords id now .output fault batch cell.output).2
        holder := some (worker,
          .afterOutput ending (writeRecords id now .output fault batch cell.output).1) } :
      Cell).Agrees id batch := by
  have hf : batch.Finishing ending := h.phaseOk hp
  obtain ⟨he, hn⟩ :=
    writeRecords_spec id now fault (h.files .output) hf.isSome
  apply h.evolves
  · intro kind
    cases kind with
    | output => exact he
    | error => exact .refl (h.files .error)
  · intro other phase hh
    cases hh
    cases hr : (writeRecords id now .output fault batch cell.output).1 with
    | error => exact ⟨ending, hf⟩
    | ok name => exact ⟨hf, (hn name hr).2⟩

theorem Cell.Agrees.writeError {fault : Fault} {ending : BatchStatus} (h : cell.Agrees id batch)
    (hp : cell.phase worker = some (.wroteOutput ending output))
    (hc : (Act.writeError worker fault).Careful cell) : ({ cell with
        error := (writeRecords id now .error fault batch cell.error).2
        holder := some (worker,
          .afterError ending output (writeRecords id now .error fault batch cell.error).1) } :
      Cell).Agrees id batch := by
  have hph : batch.Finishing ending ∧ Named id batch .output cell.output output := h.phaseOk hp
  obtain ⟨hf, ho⟩ := hph
  obtain ⟨he, hn⟩ := writeRecords_spec id now fault (h.files .error) hf.isSome
  apply h.evolves
  · intro kind
    cases kind with
    | output => exact .refl (h.files .output)
    | error => exact he
  · intro other phase hh
    cases hh
    cases hr : (writeRecords id now .error fault batch cell.error).1 with
    | error => exact ⟨ending, hf, ho⟩
    | ok name =>
      obtain ⟨rfl, herror⟩ := hn name hr
      exact ⟨hf, ho, herror, hc⟩

theorem fileOk_compensate (now : Nat) (output : Option Text) (effective : Bool)
    (h : FileOk batch .output file) :
    FileOk batch .output (file.compensate now output effective) := by
  rw [ResultFile.compensate]
  split
  · cases file with
    | absent => exact h
    | deleted => exact h
    | committed =>
      rw [ResultFile.delete]
      split
      · rcases h with h | ⟨hs, ha, -⟩
        · cases h
        · exact Or.inr ⟨hs, ha, Or.inr ⟨_, rfl⟩⟩
      · exact h
  · exact h

theorem Cell.Agrees.compensate {effective : Bool} {error : Text} (h : cell.Agrees id batch)
    (hp : cell.phase worker = some (.compensating output error)) : ({ cell with
        output := cell.output.compensate now output effective
        holder := some (worker, .failing error) } : Cell).Agrees id batch := by
  obtain ⟨ending, hf, -⟩ := h.phaseOk hp
  refine ⟨h.sound, ?_, h.error_kept, ?_, fun hs => absurd hs hf.not_ended⟩
  · intro kind
    cases kind with
    | output => exact fileOk_compensate now output effective (h.files .output)
    | error => exact h.files .error
  · intro other phase hh
    cases hh
    exact ⟨ending, hf⟩

theorem Cell.Agrees.idle (h : cell.Agrees id batch)
    {holder : Option (Worker × Phase)} (hi : ∀ other ∈ holder, other.2 = .working) :
    ({ cell with batch := some batch, holder := holder } : Cell).Agrees id batch := by
  refine ⟨h.sound, ?_, h.error_kept, ?_, ?_⟩
  · intro kind
    cases kind with
    | output => exact h.files .output
    | error => exact h.files .error
  · intro other phase hh
    have hw : phase = .working := hi _ hh
    rw [hw]
    trivial
  · intro hs kind
    have := h.named hs kind
    cases kind with
    | output => exact this
    | error => exact this

theorem Cell.Agrees.recordResults
    {ending : BatchStatus} {error : Option Text} (h : cell.Agrees id batch)
    (hp : cell.phase worker = some (.wroteBoth ending output error)) : ({ cell with
        batch := some (endBatch ending output error batch)
        holder := some (worker, .working) } : Cell).Agrees id (endBatch ending output error batch) ∧
      batch.Later (endBatch ending output error batch) := by
  obtain ⟨hf, hout, he, hk⟩ := h.phaseOk hp
  obtain ⟨hs, hl⟩ := endBatch_later output error h.sound hf
  refine ⟨h.later _ hs hl ?_ ?_, hl⟩
  · intro other phase hh
    cases hh
    trivial
  · intro _ kind
    have hli := (hl.frozen hf.isSome).1
    cases kind with
    | output =>
      refine ⟨?_, hk⟩
      have hid : (endBatch ending output error batch).fileId .output = output := by
        rw [endBatch, if_pos hf.2]
        rfl
      rw [hid]
      exact hout.congr hli
    | error =>
      refine ⟨?_, h.error_kept⟩
      have hid : (endBatch ending output error batch).fileId .error = error := by
        rw [endBatch, if_pos hf.2]
        rfl
      rw [hid]
      exact he.congr hli

theorem Cell.Agrees.recordFailure {error : Text}
    (h : cell.Agrees id batch) (hp : cell.phase worker = some (.failing error)) : ({ cell with
        batch := some (failBatch error batch)
        holder := some (worker, .working) } : Cell).Agrees id (failBatch error batch) ∧
      batch.Later (failBatch error batch) := by
  obtain ⟨ending, hf⟩ := h.phaseOk hp
  obtain ⟨hso, hl⟩ := failBatch_later error h.sound hf
  refine ⟨h.later _ hso hl ?_ ?_, hl⟩
  · intro other phase hh
    cases hh
    trivial
  · have hst : (failBatch error batch).status = .failed := by
      rw [failBatch, if_pos hf.2]
    rw [hst]
    rintro (hs | hs | hs) <;> cases hs

/-- A step keeps the batch, its files and its worker in agreement, and moves the row on. -/
def Cell.Moves (id : Text) (cell after : Cell) : Prop :=
  after.Ok id ∧ ∀ batch, cell.batch = some batch →
    ∃ later, after.batch = some later ∧ batch.Later later

theorem Cell.Moves.change {after : Cell} {later : Batch}
    (hb : cell.batch = some batch) (ha : after.batch = some later)
    (h : after.Agrees id later ∧ batch.Later later) : cell.Moves id after := by
  refine ⟨by rw [Cell.Ok, ha]; exact h.1, fun other ho => ⟨later, ha, ?_⟩⟩
  rw [hb] at ho
  cases ho
  exact h.2

theorem Cell.Moves.keep {after : Cell}
    (hb : cell.batch = some batch) (ha : after.batch = some batch)
    (h : after.Agrees id batch) : cell.Moves id after :=
  .change hb ha ⟨h, .refl batch⟩

theorem Cell.Moves.idle (h : cell.Ok id)
    (hb : cell.batch = some batch) {holder : Option (Worker × Phase)}
    (hi : ∀ other ∈ holder, other.2 = .working) :
    cell.Moves id { cell with batch := some batch, holder := holder } :=
  .keep hb rfl ((h.agrees hb).idle hi)

theorem Cell.eq_with_batch (hb : cell.batch = some batch) (holder : Option (Worker × Phase)) :
    { cell with holder := holder } = { cell with batch := some batch, holder := holder } := by
  rw [← hb]

theorem Cell.Ok.batch_exists (h : cell.Ok id)
    (hne : cell ≠ .empty) : ∃ batch, cell.batch = some batch := by
  cases hb : cell.batch with
  | some batch => exact ⟨batch, rfl⟩
  | none =>
    rw [Cell.Ok, hb] at h
    exact absurd h hne

theorem Cell.ne_empty_of_phase (hp : cell.phase worker = some phase) : cell ≠ .empty := by
  rintro rfl
  cases hp

theorem Cell.ne_empty_of_file (h : cell.file kind ≠ .absent) : cell ≠ .empty := by
  rintro rfl
  exact h (by cases kind <;> rfl)

theorem Cell.Step.moves {after : Cell} {act : Act} (h : cell.Ok id)
    (hc : act.Careful cell) (hst : cell.Step id now act after) : cell.Moves id after := by
  have hi : ∀ worker : Worker, ∀ other ∈ some (worker, Phase.working), other.2 = Phase.working := by
    intro worker other ho
    cases ho
    rfl
  cases hst with
  | create hb =>
    rw [Cell.Ok, hb] at h
    refine ⟨?_, fun batch hba => (by rw [hb] at hba; cases hba)⟩
    subst h
    refine ⟨createBatch_sound _ _, fun kind => Or.inl (by cases kind <;> rfl), fun h => ?_,
      fun _ _ h => ?_, ?_⟩
    · cases h
    · cases h
    · rintro (hs | hs | hs) <;> cases hs
  | cancel hb hca => exact .change hb rfl ((h.agrees hb).cancel hb hca)
  | lease hb =>
    obtain ⟨batch, hba⟩ := Option.isSome_iff_exists.mp hb
    rw [Cell.eq_with_batch hba]
    exact .idle h hba (hi _)
  | release hp =>
    obtain ⟨batch, hb⟩ := h.batch_exists (Cell.ne_empty_of_phase hp)
    rw [Cell.eq_with_batch hb]
    exact .idle h hb nofun
  | settle hp hb hse => exact .change hb rfl ((h.agrees hb).settle hp hse)
  | begin hp hb hbe => exact .change hb rfl ((h.agrees hb).begin hbe)
  | writeOutput hp hb => exact .keep hb hb ((h.agrees hb).writeOutput hp)
  | writeError hp hb => exact .keep hb hb ((h.agrees hb).writeError hp hc)
  | compensate hp =>
    obtain ⟨batch, hb⟩ := h.batch_exists (Cell.ne_empty_of_phase hp)
    exact .keep hb hb ((h.agrees hb).compensate hp)
  | @recordResults worker effective batch ending output error hp hb =>
    cases effective with
    | true => exact .change hb rfl ((h.agrees hb).recordResults hp)
    | false => exact .idle h hb (hi worker)
  | @recordFailure worker effective batch error hp hb =>
    cases effective with
    | true => exact .change hb rfl ((h.agrees hb).recordFailure hp)
    | false => exact .idle h hb (hi worker)
  | abandon hp =>
    obtain ⟨batch, hb⟩ := h.batch_exists (Cell.ne_empty_of_phase hp)
    rw [Cell.eq_with_batch hb]
    exact .idle h hb (hi _)
  | @clientDelete kind file hd =>
    have hne : cell.file kind ≠ .absent := by
      intro hab
      rw [hab] at hd
      cases hd
    obtain ⟨batch, hb⟩ := h.batch_exists (Cell.ne_empty_of_file hne)
    have ha := h.agrees hb
    exact .keep hb ((cell.setFile_batch kind file).trans hb)
      (ha.setFile (evolves_delete (ha.files kind) hd))
  | @purge kind file hpu =>
    have hne : cell.file kind ≠ .absent := by
      intro hab
      rw [hab] at hpu
      cases hpu
    obtain ⟨batch, hb⟩ := h.batch_exists (Cell.ne_empty_of_file hne)
    have ha := h.agrees hb
    exact .keep hb ((cell.setFile_batch kind file).trans hb)
      (ha.setFile (evolves_purge (ha.files kind) hpu))

/-! ### Runs -/

def Careful (s : Store) : Action → Prop
  | .on id act => act.Careful (s.cells id)
  | .tick _ => True

theorem Store.Step.moves {t : Store} {action : Action} (h : ∀ id, (s.cells id).Ok id)
    (hc : Careful s action) (hst : s.Step action t) (id : Text) :
    (s.cells id).Moves id (t.cells id) := by
  have hs : (s.cells id).Moves id (s.cells id) :=
    ⟨h id, fun batch hb => ⟨batch, hb, .refl _⟩⟩
  cases hst with
  | @on other act cell hce =>
    by_cases heq : id = other
    · subst heq
      show (s.cells id).Moves id (Function.update s.cells id cell id)
      rw [Function.update_self]
      exact hce.moves (h id) hc
    · show (s.cells id).Moves id (Function.update s.cells other cell id)
      rw [Function.update_of_ne heq]
      exact hs
  | tick => exact hs

theorem cells_ok (hs : (store.restrict Careful).Reachable s) (id : Text) : (s.cells id).Ok id := by
  have ha : ∀ id, (s.cells id).Ok id := by
    apply hs.invariant (I := fun s => ∀ id, (s.cells id).Ok id)
    · intro s hstart id
      have hc : s.cells = fun _ => Cell.empty := hstart
      rw [hc]
      exact rfl
    · intro s action t h hstep id
      exact (hstep.2.moves h hstep.1 id).1
  exact ha id

theorem run_later {t : Store} {actions : List Action} (hs : (store.restrict Careful).Reachable s)
    (hr : (store.restrict Careful).Run s actions t) (id : Text)
    (hb : (s.cells id).batch = some batch) :
    ∃ after, (t.cells id).batch = some after ∧ batch.Later after := by
  induction hr with
  | refl => exact ⟨batch, hb, .refl _⟩
  | tail prior next ih =>
    obtain ⟨middle, hmid, hl⟩ := ih
    have hok := cells_ok (hs.run prior)
    obtain ⟨after, ha, hm⟩ := (next.2.moves hok next.1 id).2 middle hmid
    exact ⟨after, ha, hl.trans hm⟩

theorem Cell.Agrees.filesHold (h : cell.Agrees id batch) : batch.FilesHold id cell := by
  intro hs kind
  obtain ⟨⟨hn, hp⟩, hk⟩ := h.named hs kind
  refine ⟨hn, fun hany => ?_⟩
  rcases h.files kind with ha | ⟨-, -, ⟨expiresAt, hc⟩ | ⟨deleter, hd⟩⟩
  · exact absurd ha (hp hany)
  · rw [Batch.records_eq] at hc
    exact Or.inl ⟨expiresAt, hc⟩
  · rw [hd] at hk ⊢
    cases deleter with
    | client => exact Or.inr (Or.inl rfl)
    | compensation => exact absurd rfl hk
    | purge => exact Or.inr (Or.inr rfl)

/-- In every run of clients and workers in which no attempt to finish gets past its error
file after the output file was deleted to compensate, the counters of a batch count its
lines, a settled line stays as it is and none settles once the batch has an ending, the
status follows its edges, and a batch that ended names result files that hold its records. -/
theorem batch_settles_once {s t : Store} {actions : List Action}
    (hs : (store.restrict Careful).Reachable s)
    (hrun : (store.restrict Careful).Run s actions t) (id : Text) {batch : Batch}
    (hb : (s.cells id).batch = some batch) : batch.Counted ∧ batch.FilesHold id (s.cells id) ∧
      ∃ after, (t.cells id).batch = some after ∧ batch.Later after := by
  have ha := (cells_ok hs id).agrees hb
  exact ⟨ha.sound.counted, ha.filesHold, run_later hs hrun id hb⟩

theorem Batch.Sound.runs (id : Text) {clock : Nat → Nat}
    (hc : ∀ round, clock round ≤ clock (round + 1)) (execute : Nat → Line → LineOutcome)
    {rounds : Nat} (round : Nat) (hs : batch.Sound) (hlt : batch.count .pending < rounds) :
    ∃ ending after, runBatch id clock execute rounds round batch = .ok (some (ending, after)) ∧
      after.Counted ∧ batch.Later after ∧
      ending.elim (after.status.isTerminal = true) after.Finishing := by
  induction rounds generalizing round batch with
  | zero => exact absurd hlt (Nat.not_lt_zero _)
  | succ rounds ih =>
    unfold runBatch
    cases hn : nextBatchLine (clock round) batch with
    | done => exact ⟨none, batch, rfl, hs.counted, .refl _, nextBatchLine_done hn⟩
    | finish =>
      obtain ⟨ending, after, he⟩ := nextBatchLine_finishes id hn (hc round)
      obtain ⟨hsa, hla, ⟨hno, -⟩ | ⟨e, heq, hf⟩⟩ := beginFinish_later hs he
      · cases hno
      · cases heq
        refine ⟨some ending, after, ?_, hsa.counted, hla, hf⟩
        rw [he]
        rfl
    | line line row =>
      obtain ⟨middle, he, hp⟩ := nextBatchLine_settles id hs hn (execute line row)
      obtain ⟨hsm, hlm⟩ := settleBatchLine_later hs he
      obtain ⟨ending, after, hr, hco, hla, hf⟩ := ih (round + 1) hsm (by omega)
      refine ⟨ending, after, ?_, hco, hlm.trans hla, hf⟩
      dsimp only
      rw [he]
      exact hr

/-- **A worker gets through a batch**: no settlement and no attempt to finish is refused, and once
as many rounds as lines were pending are over the batch is ending. -/
theorem run_batch_ends (hs : (store.restrict Careful).Reachable s)
    (hb : (s.cells id).batch = some batch) {clock : Nat → Nat}
    (hc : ∀ round, clock round ≤ clock (round + 1)) (execute : Nat → Line → LineOutcome) :
    ∃ ending after,
      runBatch id clock execute (batch.count .pending + 1) 0 batch = .ok (some (ending, after)) ∧
      after.Counted ∧ batch.Later after ∧
      ending.elim (after.status.isTerminal = true) after.Finishing :=
  ((cells_ok hs id).agrees hb).sound.runs id hc execute 0 (Nat.lt_succ_self _)

/-! ### Two runs -/

def Reaches (ok : Store → Action → Prop) (id : Text) (now : Nat) (cell : Cell) : Prop :=
  ∃ s, (store.restrict ok).Reachable s ∧ s.now = now ∧ s.cells id = cell

theorem Reaches.start (ok : Store → Action → Prop) (id : Text) : Reaches ok id 0 .empty :=
  ⟨⟨0, fun _ => .empty⟩, .start rfl, rfl, rfl⟩

theorem Reaches.step {ok : Store → Action → Prop} {now : Nat} {after : Cell}
    (act : Act) (h : Reaches ok id now cell)
    (hok : ∀ s : Store, s.cells id = cell → ok s (.on id act))
    (hst : cell.Step id now act after) : Reaches ok id now after := by
  obtain ⟨s, hs, rfl, rfl⟩ := h
  refine ⟨{ s with cells := Function.update s.cells id after }, .step hs ⟨hok s rfl, .on hst⟩,
    rfl, ?_⟩
  exact Function.update_self _ _ _

/-- Two requests, of which the second will fail. -/
def twoLines : List InputLine :=
  [⟨['a'], "batch_req_1".toList, []⟩, ⟨['b'], "batch_req_2".toList, []⟩]

theorem run_batch_two :
    ∃ ending after, runBatch ['b'] (fun n => n) (fun _ _ => .response 200 .null) 3 0
        (createBatch 0 twoLines) = .ok (some (ending, after)) ∧ after.Counted := by
  have h := Reaches.start Careful ['b']
  replace h := h.step (.create twoLines) (fun _ _ => trivial) (.create rfl)
  obtain ⟨s, hs, -, hc⟩ := h
  obtain ⟨ending, after, hr, hco, -⟩ :=
    run_batch_ends hs (congrArg Cell.batch hc) Nat.le_succ fun _ _ => .response 200 .null
  exact ⟨ending, after, hr, hco⟩

theorem two_lines_begun (ok : Store → Action → Prop)
    (hok : ∀ s act, (∀ worker fault, act ≠ .writeError worker fault) → ok s (.on ['b'] act)) :
    ∃ batch : Batch, batch.any .succeeded ∧ batch.any .failed ∧
      batch.status = .finalizing ∧ batch.ending = some .completed ∧
      Reaches ok ['b'] 0 ⟨some batch, .absent, .absent, some (0, .begun .completed)⟩ := by
  have h := Reaches.start ok ['b']
  replace h := h.step (.create twoLines) (fun s _ => hok s _ nofun) (.create rfl)
  replace h := h.step (.lease 0) (fun s _ => hok s _ nofun) (.lease rfl rfl)
  replace h := h.step (.settle 0 0 (.response 200 .null))
    (fun s _ => hok s _ nofun) (.settle rfl rfl rfl)
  replace h := h.step (.settle 0 1 (.error ['e'] ['m']))
    (fun s _ => hok s _ nofun) (.settle rfl rfl rfl)
  replace h := h.step (.begin 0) (fun s _ => hok s _ nofun) (.begin rfl rfl rfl)
  exact ⟨_, rfl, rfl, rfl, rfl, h⟩

theorem create_output (ha : batch.any .succeeded) :
    (writeRecords ['b'] 0 .output .none batch .absent).2 =
      .committed (batch.records .succeeded) 2592000 := by
  rw [writeRecords]
  simp only [Kind.state, ha, if_true]
  rfl

/-- A batch whose two result files are written at the first attempt. -/
theorem batch_settles_once_two :
    ∃ (s t : Store) (batch : Batch), (store.restrict Careful).Reachable s ∧
      (store.restrict Careful).Run s [.tick 1] t ∧ (s.cells ['b']).batch = some batch ∧
      batch.status = .completed ∧ batch.any .succeeded ∧ batch.Counted ∧
      batch.FilesHold ['b'] (s.cells ['b']) ∧
      ∃ after, (t.cells ['b']).batch = some after ∧ batch.Later after := by
  obtain ⟨batch, ha, -, hst, -, h⟩ := two_lines_begun Careful (fun s act hact => by
    cases act with
    | writeError worker fault => exact absurd rfl (hact worker fault)
    | _ => trivial)
  replace h := h.step (.writeOutput 0 .none) (fun _ _ => trivial) (.writeOutput rfl rfl)
  replace h := h.step (.writeError 0 .none) (fun s hs => by
      show (s.cells ['b']).output ≠ .deleted .compensation
      rw [hs]
      rw [create_output ha]
      exact nofun)
    (.writeError rfl rfl)
  replace h := h.step (.record 0 true) (fun _ _ => trivial) (.recordResults rfl rfl)
  obtain ⟨s, hs, -, hc⟩ := h
  have hb := congrArg Cell.batch hc
  have hr : (store.restrict Careful).Run s [.tick 1] { s with now := s.now + 1 } :=
    .tail (.refl s) ⟨trivial, .tick⟩
  obtain ⟨hcnt, hf, hl⟩ := batch_settles_once hs hr ['b'] hb
  refine ⟨s, _, _, hs, hr, hb, ?_, ?_, hcnt, hf, hl⟩
  · show (endBatch _ _ _ batch).status = _
    rw [endBatch, if_pos (Or.inl hst)]
  · show (endBatch _ _ _ batch).any _ = _
    rw [endBatch, if_pos (Or.inl hst)]
    exact ha

/-- The error file fails, the output file is deleted to compensate, and the update that fails
the batch fails too.  The next attempt completes the batch, which names the deleted file. -/
theorem compensated_output_named :
    ∃ (s : Store) (batch : Batch), store.Reachable s ∧ (s.cells ['b']).batch = some batch ∧
      batch.status = .completed ∧ batch.any .succeeded ∧
      batch.outputFileId = some (resultFileId ['b'] .output) ∧
      (s.cells ['b']).output = .deleted .compensation ∧
      ¬ batch.FilesHold ['b'] (s.cells ['b']) := by
  obtain ⟨batch, ha, -, hst, he, h⟩ :=
    two_lines_begun (fun _ _ => True) (fun _ _ _ => trivial)
  have hn : some (resultFileId ['b'] .output) =
      if batch.any Kind.output.state then some (resultFileId ['b'] .output) else none := by
    rw [Kind.state, if_pos ha]
  have hbe : beginFinish ['b'] 0 batch = .ok (some .completed, batch) := by
    rw [beginFinish, hst, he]
    rfl
  -- the first attempt
  replace h := h.step (.writeOutput 0 .none) (fun _ _ => trivial) (.writeOutput rfl rfl)
  rw [create_output ha] at h
  replace h := h.step (.writeError 0 (.refused ['d'])) (fun _ _ => trivial) (.writeError rfl rfl)
  replace h := h.step (.compensate 0 true) (fun _ _ => trivial) (.compensate rfl)
  rw [← hn] at h
  replace h := h.step (.record 0 false) (fun _ _ => trivial) (.recordFailure rfl rfl)
  -- the second attempt
  replace h := h.step (.begin 0) (fun _ _ => trivial) (.begin rfl rfl hbe)
  replace h := h.step (.writeOutput 0 .none) (fun _ _ => trivial) (.writeOutput rfl rfl)
  replace h := h.step (.writeError 0 .none) (fun _ _ => trivial) (.writeError rfl rfl)
  replace h := h.step (.record 0 true) (fun _ _ => trivial) (.recordResults rfl rfl)
  obtain ⟨s, hs, -, hc⟩ := h
  have hout : (s.cells ['b']).output = .deleted .compensation := by
    rw [hc]
    show (writeRecords ['b'] 0 .output .none batch (.deleted .compensation)).2 = _
    rw [writeRecords]
    simp only [Kind.state, ha, if_true]
    rfl
  have hend : ∀ output error,
      endBatch .completed output error batch =
        { batch with status := .completed, outputFileId := output, errorFileId := error } := by
    intro output error
    rw [endBatch, if_pos (Or.inl hst)]
  have hb : (s.cells ['b']).batch = some (endBatch .completed
      (if batch.any Kind.output.state then some (resultFileId ['b'] .output) else none)
      (if batch.any Kind.error.state then some (resultFileId ['b'] .error) else none) batch) := congrArg Cell.batch hc
  rw [← hn, hend] at hb
  refine ⟨s, _, hs.of_restrict, hb, rfl, ha, rfl, hout, ?_⟩
  intro hfi
  obtain ⟨-, hf⟩ := hfi (Or.inl rfl) .output
  have ho : (s.cells ['b']).file .output = .deleted .compensation := hout
  rw [ho] at hf
  rcases hf ha with ⟨expiresAt, h⟩ | h | h <;> cases h

end LocalAi.Batches
