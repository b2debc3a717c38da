import LocalAi.Lib.System
import LocalAi.Tools.Json

/-!
# Batches

A batch is a row with its lines; a worker under the batch's lease settles the lines and
then finishes the batch, which writes two result files and records the terminal status.

* `Records.readAll`: the content of a result file, read from the lines page by page.
* `writeRecords`: a result file with its reserved id, committed at most once.
* `Cell.act`: what one step of a client or of a worker does to a batch and its files.
* `store`: all batches, with a clock that only moves forward.

The times at which a batch changed, its owner and its metadata are written and shown, and
nothing here reads them.
-/

open List

namespace LocalAi.Batches

inductive Error
  | notFound (message : Text)
  | conflict (message : Text)

def decimal (n : Nat) : Text := (Nat.repr n).toList

/-! ### Rows -/

inductive BatchStatus
  | inProgress
  | finalizing
  | completed
  | failed
  | expired
  | cancelling
  | cancelled
deriving DecidableEq

def BatchStatus.asStr : BatchStatus → Text
  | .inProgress => "in_progress".toList
  | .finalizing => "finalizing".toList
  | .completed => "completed".toList
  | .failed => "failed".toList
  | .expired => "expired".toList
  | .cancelling => "cancelling".toList
  | .cancelled => "cancelled".toList

def BatchStatus.isTerminal : BatchStatus → Bool
  | .completed | .failed | .expired | .cancelled => true
  | _ => false

inductive LineState
  | pending
  | succeeded
  | failed
deriving DecidableEq

structure Line where
  customId : Text
  recordId : Text
  body : Text
  state : LineState
  result : Option Text

/-- A validated input line, with the record id that is drawn for it. -/
structure InputLine where
  customId : Text
  recordId : Text
  body : Text

structure BatchError where
  code : Text
  message : Text

structure Batch where
  status : BatchStatus
  /-- The terminal status a finalizing or cancelling batch is moving to. -/
  ending : Option BatchStatus
  lines : List Line
  total : Nat
  completed : Nat
  failed : Nat
  expiresAt : Nat
  errors : List BatchError
  outputFileId : Option Text
  errorFileId : Option Text

def Batch.count (batch : Batch) (state : LineState) : Nat :=
  batch.lines.countP (·.state = state)

/-- `SELECT EXISTS (.. state = ?2)`. -/
def Batch.any (batch : Batch) (state : LineState) : Bool := batch.lines.any (·.state = state)

/-! ### Records -/

inductive LineOutcome
  | response (statusCode : Nat) (body : Json)
  | error (code message : Text)

def recordPrefix : Text := "batch_req_".toList

/-- The output record of a line, and whether it counts as completed. -/
def record (recordId customId : Text) : LineOutcome → Bool × Text
  | .response statusCode body =>
    (200 ≤ statusCode && statusCode < 300,
      (Json.object
        [("id".toList, .string recordId),
          ("custom_id".toList, .string customId),
          ("response".toList, .object
            [("status_code".toList, .number (decimal statusCode)),
              ("request_id".toList,
                .string ("req_".toList ++ (stripPrefix recordPrefix recordId).getD recordId)),
              ("body".toList, body)]),
          ("error".toList, .null)]).toText)
  | .error code message =>
    (false,
      (Json.object
        [("id".toList, .string recordId),
          ("custom_id".toList, .string customId),
          ("response".toList, .null),
          ("error".toList, .object
            [("code".toList, .string code), ("message".toList, .string message)])]).toText)

def Line.settle (line : Line) (outcome : LineOutcome) : Line :=
  { line with
    state := if (record line.recordId line.customId outcome).1 then .succeeded else .failed
    result := some (record line.recordId line.customId outcome).2 }

/-! ### Transactions -/

def completionWindowSeconds : Nat := 86400

/-- The row that `create_batch_accepting` stores for a validated input file. -/
def createBatch (now : Nat) (lines : List InputLine) : Batch where
  status := .inProgress
  ending := none
  lines := lines.map fun line =>
    { customId := line.customId, recordId := line.recordId, body := line.body,
      state := .pending, result := none }
  total := lines.length
  completed := 0
  failed := 0
  expiresAt := now + completionWindowSeconds
  errors := []
  outputFileId := none
  errorFileId := none

def cancelBatch (id : Text) (batch : Batch) : Except Error Batch :=
  match batch.status with
  | .inProgress => .ok { batch with status := .cancelling }
  | .cancelling | .cancelled => .ok batch
  | other => .error (.conflict ("batch ".toList ++ id ++ " is ".toList ++ other.asStr ++
      "; only an in-progress batch can be cancelled".toList))

/-- What the holder of a lease should do next. -/
inductive NextLine
  | line (line : Nat) (row : Line)
  | finish
  | done

def Batch.firstPending (batch : Batch) : Option (Nat × Line) :=
  (batch.lines.findIdx? (·.state = .pending)).bind fun line =>
    batch.lines[line]?.map fun row => (line, row)

def nextBatchLine (now : Nat) (batch : Batch) : NextLine :=
  match batch.status with
  | .inProgress =>
    if now < batch.expiresAt then
      match batch.firstPending with
      | some (line, row) => .line line row
      | none => .finish
    else .finish
  | .cancelling | .finalizing => .finish
  | _ => .done

def settleBatchLine (id : Text) (line : Nat) (outcome : LineOutcome) (batch : Batch) :
    Except Error (Bool × Batch) :=
  if batch.ending.isSome ∨ ¬ (batch.status = .inProgress ∨ batch.status = .cancelling) then
    .error (.conflict ("batch ".toList ++ id ++ " is ".toList ++ batch.status.asStr ++
      "; its lines can no longer be settled".toList))
  else
    match batch.lines[line]? with
    | none => .error (.notFound ("batch ".toList ++ id ++ " has no line ".toList ++ decimal line))
    | some row =>
      if row.state ≠ .pending then .ok (false, batch)
      else
        .ok (true,
          if (record row.recordId row.customId outcome).1 then
            { batch with
              lines := batch.lines.set line (row.settle outcome)
              completed := batch.completed + 1 }
          else
            { batch with
              lines := batch.lines.set line (row.settle outcome)
              failed := batch.failed + 1 })

def expiredMessage : Text :=
  "this request was not executed before the batch's completion window expired".toList

def expiredOutcome : LineOutcome := .error "batch_expired".toList expiredMessage

def Line.expire (line : Line) : Line :=
  if line.state = .pending then
    { line with
      state := .failed
      result := some (record line.recordId line.customId expiredOutcome).2 }
  else line

def expirePending (batch : Batch) : Batch :=
  { batch with
    lines := batch.lines.map Line.expire
    failed := batch.failed + batch.count .pending }

/-- Start finishing: the terminal status the batch is ending in, or `none` when it already
ended. -/
def beginFinish (id : Text) (now : Nat) (batch : Batch) :
    Except Error (Option BatchStatus × Batch) :=
  match batch.status with
  | .completed | .failed | .expired | .cancelled => .ok (none, batch)
  | .cancelling =>
    .ok (some .cancelled, { batch with ending := some (batch.ending.getD .cancelled) })
  | .finalizing => .ok (some (batch.ending.getD .completed), batch)
  | .inProgress =>
    if batch.expiresAt ≤ now then
      .ok (some .expired,
        { expirePending batch with status := .finalizing, ending := some .expired })
    else if batch.count .pending = 0 then
      .ok (some .completed, { batch with status := .finalizing, ending := some .completed })
    else
      .error (.conflict ("batch ".toList ++ id ++ " still has ".toList ++
        decimal (batch.count .pending) ++ " pending requests".toList))

/-- `run_batch` up to the result files, while nothing interrupts it: a round reads the clock, and
`execute` generates the answer of a line. -/
def runBatch (id : Text) (clock : Nat → Nat) (execute : Nat → Line → LineOutcome) :
    (rounds : Nat) → (round : Nat) → Batch → Except Error (Option (Option BatchStatus × Batch))
  | 0, _, _ => .ok none
  | rounds + 1, round, batch =>
    match nextBatchLine (clock round) batch with
    | .done => .ok (some (none, batch))
    | .finish => (beginFinish id (clock (round + 1)) batch).map some
    | .line line row => do
      let (_, batch) ← settleBatchLine id line (execute line row) batch
      runBatch id clock execute rounds (round + 1) batch

/-- The update that ends a batch whose result files are written. -/
def endBatch (ending : BatchStatus) (output error : Option Text) (batch : Batch) : Batch :=
  if batch.status = .finalizing ∨ batch.status = .cancelling then
    { batch with status := ending, outputFileId := output, errorFileId := error }
  else batch

/-- The update that fails a batch whose result files could not be written. -/
def failBatch (error : Text) (batch : Batch) : Batch :=
  if batch.status = .finalizing ∨ batch.status = .cancelling then
    { batch with
      status := .failed
      errors :=
        [{ code := "output_failed".toList
           message := "the batch result files could not be written: ".toList ++ error }] }
  else batch

/-! ### Result files -/

def rows (lines : List Line) (state : LineState) : List (Nat × Text) :=
  (lines.zipIdx.filter (·.1.state = state)).map fun row => (row.2, row.1.result.getD [])

namespace Records

def recordPage : Nat := 256

/-- The rows one `refill` reads: at most a page, after the last line read. -/
def page (rows : List (Nat × Text)) (after : Int) : List (Nat × Text) :=
  (rows.filter fun row => after < row.1).take recordPage

/-- What `refill` appends to the buffer for a page. -/
def pageText (page : List (Nat × Text)) : Text := page.flatMap fun row => row.2 ++ ['\n']

theorem page_last_lt {rows : List (Nat × Text)} {after : Int} {row : Nat × Text}
    (h : row ∈ page rows after) : after < row.1 ∧ row ∈ rows := by
  have hm := mem_of_mem_take h
  rw [mem_filter] at hm
  exact ⟨of_decide_eq_true hm.2, hm.1⟩

theorem left_decreases {rows : List (Nat × Text)} {after : Int} {row : Nat × Text}
    (h : row ∈ page rows after) : (rows.filter fun r => (row.1 : Int) < r.1).length <
      (rows.filter fun r => after < r.1).length := by
  obtain ⟨hlt, hmem⟩ := page_last_lt h
  rw [← countP_eq_length_filter, ← countP_eq_length_filter]
  obtain ⟨front, back, rfl⟩ := append_of_mem hmem
  simp only [countP_append, countP_cons]
  have hm : ∀ l : List (Nat × Text), l.countP (fun r => (row.1 : Int) < r.1) ≤
      l.countP (fun r => after < r.1) := by
    intro l
    apply countP_mono_left
    intro r _ hr
    have := of_decide_eq_true hr
    exact decide_eq_true (by omega)
  have hf := hm front
  have hb := hm back
  rw [if_neg (by simp), if_pos (decide_eq_true hlt)]
  omega

/-- Everything `read` returns, from a reader that has read up to line `after`: it reads a
page at a time until a page is empty. -/
def readAll (rows : List (Nat × Text)) (after : Int) : Text :=
  match h : page rows after with
  | [] => []
  | first :: rest =>
    pageText (first :: rest) ++ readAll rows ((first :: rest).getLast (by simp)).1
termination_by (rows.filter fun row => after < row.1).length
decreasing_by
  apply left_decreases
  rw [h]
  exact getLast_mem _

end Records

def Batch.records (batch : Batch) (state : LineState) : Text :=
  Records.readAll (rows batch.lines state) (-1)

inductive Deleter
  | client
  /-- `write_results`, which deletes the output file when the error file fails. -/
  | compensation
  | purge
deriving DecidableEq

/-- The file of a reserved id, and what the ledger of internal ids knows of it. -/
inductive ResultFile
  | absent
  | committed (content : Text) (expiresAt : Nat)
  | deleted (deleter : Deleter)
deriving DecidableEq

def batchOutputExpiresAfterSeconds : Nat := 2592000

/-- `create_internal_file`: an id that was ever committed is never created again. -/
def ResultFile.create (now : Nat) (content : Text) : ResultFile → ResultFile
  | .absent => .committed content (now + batchOutputExpiresAfterSeconds)
  | file => file

def ResultFile.delete (now : Nat) (deleter : Deleter) : ResultFile → Option ResultFile
  | .committed _ expiresAt => if now < expiresAt then some (.deleted deleter) else none
  | _ => none

def ResultFile.purge (now : Nat) : ResultFile → Option ResultFile
  | .committed _ expiresAt => if expiresAt ≤ now then some (.deleted .purge) else none
  | _ => none

inductive Kind
  | output
  | error
deriving DecidableEq

def Kind.state : Kind → LineState
  | .output => .succeeded
  | .error => .failed

def Kind.name : Kind → Text
  | .output => "output".toList
  | .error => "error".toList

def resultFileId (id : Text) (kind : Kind) : Text :=
  "file_".toList ++ id ++ "_".toList ++ kind.name

/-- How the write of a result file goes. -/
inductive Fault
  | none
  | refused (error : Text)
  | unreported (error : Text)

def writeRecords (id : Text) (now : Nat) (kind : Kind) (fault : Fault) (batch : Batch)
    (file : ResultFile) : Except Text (Option Text) × ResultFile :=
  let written := if batch.any kind.state then file.create now (batch.records kind.state) else file
  match fault with
  | .none => (.ok (if batch.any kind.state then some (resultFileId id kind) else none), written)
  | .refused error => (.error error, file)
  | .unreported error => (.error error, written)

/-! ### Steps -/

abbrev Worker := Nat

/-- Where the holder of the lease is in `finish_batch`. -/
inductive Phase
  | working
  | begun (ending : BatchStatus)
  | wroteOutput (ending : BatchStatus) (output : Option Text)
  | wroteBoth (ending : BatchStatus) (output error : Option Text)
  | compensating (output : Option Text) (error : Text)
  | failing (error : Text)

/-- A batch id: its row, its two result files and the holder of its lease. -/
structure Cell where
  batch : Option Batch
  output : ResultFile
  error : ResultFile
  holder : Option (Worker × Phase)

def Cell.empty : Cell := { batch := none, output := .absent, error := .absent, holder := none }

inductive Act
  | create (lines : List InputLine)
  | cancel
  | lease (worker : Worker)
  | release (worker : Worker)
  | settle (worker : Worker) (line : Nat) (outcome : LineOutcome)
  | begin (worker : Worker)
  | writeOutput (worker : Worker) (fault : Fault)
  | writeError (worker : Worker) (fault : Fault)
  /-- `delete_file` of the output, whose outcome is ignored. -/
  | compensate (worker : Worker) (effective : Bool)
  /-- The last update of `finish_batch`. -/
  | record (worker : Worker) (effective : Bool)
  | abandon (worker : Worker)
  | clientDelete (kind : Kind)
  | purge (kind : Kind)

def Cell.phase (cell : Cell) (worker : Worker) : Option Phase :=
  match cell.holder with
  | some (holder, phase) => if holder = worker then some phase else none
  | none => none

def Cell.file (cell : Cell) : Kind → ResultFile
  | .output => cell.output
  | .error => cell.error

def Cell.setFile (cell : Cell) (kind : Kind) (file : ResultFile) : Cell :=
  match kind with
  | .output => { cell with output := file }
  | .error => { cell with error := file }

def Phase.afterBegin : Option BatchStatus → Phase
  | some ending => .begun ending
  | none => .working

def Phase.afterOutput (ending : BatchStatus) : Except Text (Option Text) → Phase
  | .ok output => .wroteOutput ending output
  | .error error => .failing error

def Phase.afterError (ending : BatchStatus) (output : Option Text) :
    Except Text (Option Text) → Phase
  | .ok error => .wroteBoth ending output error
  | .error error => .compensating output error

def ResultFile.compensate (now : Nat) (output : Option Text) (effective : Bool)
    (file : ResultFile) : ResultFile :=
  if output.isSome && effective then (file.delete now .compensation).getD file else file

/-- One transaction, one file commit or one failure.  A call that is refused changes nothing
and is no step. -/
inductive Cell.Step (id : Text) (now : Nat) (cell : Cell) : Act → Cell → Prop
  | create {lines : List InputLine} (hb : cell.batch = none) :
      Cell.Step id now cell (.create lines) { cell with batch := some (createBatch now lines) }
  | cancel {batch after : Batch} (hb : cell.batch = some batch)
      (h : cancelBatch id batch = .ok after) :
      Cell.Step id now cell .cancel { cell with batch := some after }
  | lease {worker : Worker} (hb : cell.batch.isSome) (h : cell.holder = none) :
      Cell.Step id now cell (.lease worker) { cell with holder := some (worker, .working) }
  | release {worker : Worker} {phase : Phase} (hp : cell.phase worker = some phase) :
      Cell.Step id now cell (.release worker) { cell with holder := none }
  | settle {worker : Worker} {line : Nat} {outcome : LineOutcome} {batch after : Batch}
      {settled : Bool} (hp : cell.phase worker = some .working) (hb : cell.batch = some batch)
      (h : settleBatchLine id line outcome batch = .ok (settled, after)) :
      Cell.Step id now cell (.settle worker line outcome) { cell with batch := some after }
  | begin {worker : Worker} {batch after : Batch} {ending : Option BatchStatus}
      (hp : cell.phase worker = some .working) (hb : cell.batch = some batch)
      (h : beginFinish id now batch = .ok (ending, after)) :
      Cell.Step id now cell (.begin worker)
        { cell with batch := some after, holder := some (worker, .afterBegin ending) }
  | writeOutput {worker : Worker} {fault : Fault} {batch : Batch} {ending : BatchStatus}
      (hp : cell.phase worker = some (.begun ending)) (hb : cell.batch = some batch) :
      Cell.Step id now cell (.writeOutput worker fault) { cell with
          output := (writeRecords id now .output fault batch cell.output).2
          holder := some (worker,
            .afterOutput ending (writeRecords id now .output fault batch cell.output).1) }
  | writeError {worker : Worker} {fault : Fault} {batch : Batch} {ending : BatchStatus}
      {output : Option Text} (hp : cell.phase worker = some (.wroteOutput ending output))
      (hb : cell.batch = some batch) :
      Cell.Step id now cell (.writeError worker fault) { cell with
          error := (writeRecords id now .error fault batch cell.error).2
          holder := some (worker,
            .afterError ending output (writeRecords id now .error fault batch cell.error).1) }
  | compensate {worker : Worker} {effective : Bool} {output : Option Text} {error : Text}
      (hp : cell.phase worker = some (.compensating output error)) :
      Cell.Step id now cell (.compensate worker effective) { cell with
          output := cell.output.compensate now output effective
          holder := some (worker, .failing error) }
  | recordResults {worker : Worker} {effective : Bool} {batch : Batch} {ending : BatchStatus}
      {output error : Option Text} (hp : cell.phase worker = some (.wroteBoth ending output error))
      (hb : cell.batch = some batch) :
      Cell.Step id now cell (.record worker effective) { cell with
          batch := some (if effective then endBatch ending output error batch else batch)
          holder := some (worker, .working) }
  | recordFailure {worker : Worker} {effective : Bool} {batch : Batch} {error : Text}
      (hp : cell.phase worker = some (.failing error)) (hb : cell.batch = some batch) :
      Cell.Step id now cell (.record worker effective) { cell with
          batch := some (if effective then failBatch error batch else batch)
          holder := some (worker, .working) }
  | abandon {worker : Worker} {phase : Phase} (hp : cell.phase worker = some phase) :
      Cell.Step id now cell (.abandon worker) { cell with holder := some (worker, .working) }
  | clientDelete {kind : Kind} {file : ResultFile}
      (h : (cell.file kind).delete now .client = some file) :
      Cell.Step id now cell (.clientDelete kind) (cell.setFile kind file)
  | purge {kind : Kind} {file : ResultFile} (h : (cell.file kind).purge now = some file) :
      Cell.Step id now cell (.purge kind) (cell.setFile kind file)

structure Store where
  now : Nat
  cells : Text → Cell

inductive Action
  | on (id : Text) (act : Act)
  | tick (seconds : Nat)

inductive Store.Step (s : Store) : Action → Store → Prop
  | on {id : Text} {act : Act} {cell : Cell} (h : (s.cells id).Step id s.now act cell) :
      Store.Step s (.on id act) { s with cells := Function.update s.cells id cell }
  | tick {seconds : Nat} : Store.Step s (.tick seconds) { s with now := s.now + seconds }

def store : Lib.System Store Action where
  start s := s.cells = fun _ => .empty
  step := Store.Step

/-! ### Paging -/

namespace Records

theorem filter_after_take {l : List (Nat × Text)} (hso : l.Pairwise fun a b => a.1 < b.1)
    (n : Nat) (h : l.take n ≠ []) :
    l.filter (fun row => (((l.take n).getLast h).1 : Int) < row.1) = l.drop n := by
  have hs := take_append_drop n l
  have hp := hso
  rw [← hs, pairwise_append] at hp
  obtain ⟨ht, -, hc⟩ := hp
  generalize hl : (l.take n).getLast h = last
  have hm : last ∈ l.take n := hl ▸ getLast_mem h
  have hle : ∀ row ∈ l.take n, row.1 ≤ last.1 := by
    intro row hr
    rw [← dropLast_append_getLast h, hl, pairwise_append] at ht
    rw [← dropLast_append_getLast h, hl, mem_append, mem_singleton] at hr
    rcases hr with hr | rfl
    · exact Nat.le_of_lt (ht.2.2 row hr last (by simp))
    · exact le_rfl
  have hf : (l.take n).filter (fun row => (last.1 : Int) < row.1) = [] := by
    rw [filter_eq_nil_iff]
    intro row hr
    have := hle row hr
    simp only [decide_eq_true_eq]
    omega
  have hsnd : (l.drop n).filter (fun row => (last.1 : Int) < row.1) = l.drop n := by
    rw [filter_eq_self]
    intro row hr
    have := hc last hm row hr
    simp only [decide_eq_true_eq]
    omega
  nth_rewrite 1 [← hs]
  rw [filter_append, hf, hsnd, nil_append]

theorem filter_filter_after {rows : List (Nat × Text)} {after last : Int} (h : after < last) :
    rows.filter (fun row => last < row.1) =
      (rows.filter fun row => after < row.1).filter fun row => last < row.1 := by
  rw [filter_filter]
  apply filter_congr
  intro row _
  by_cases hr : last < row.1
  · have : after < row.1 := by omega
    simp [hr, this]
  · simp [hr]

theorem readAll_eq {rows : List (Nat × Text)} (hs : rows.Pairwise fun a b => a.1 < b.1)
    (after : Int) : readAll rows after = pageText (rows.filter fun row => after < row.1) := by
  induction after using readAll.induct rows with
  | case1 after hp =>
    rw [readAll]
    have hnil : rows.filter (fun row => after < row.1) = [] := by
      rcases take_eq_nil_iff.mp hp with h | h
      · cases h
      · exact h
    split
    · rw [hnil]
      rfl
    · next heq => rw [hp] at heq; cases heq
  | case2 after first rest hp ih =>
    rw [readAll]
    split
    · next heq => rw [hp] at heq; cases heq
    · next first' rest' heq =>
      rw [hp] at heq
      cases heq
      rw [ih]
      set left := rows.filter fun row => after < row.1 with hle
      have hpa : left.Pairwise fun a b => a.1 < b.1 := hs.filter _
      have ht : left.take recordPage = first :: rest := hp
      have hne : left.take recordPage ≠ [] := by simp [ht]
      have hl : (first :: rest).getLast (by simp) = (left.take recordPage).getLast hne := by
        simp only [ht]
      have hd : rows.filter
          (fun row => (((first :: rest).getLast (by simp)).1 : Int) < row.1) =
          left.drop recordPage := by
        rw [hl, ← filter_after_take hpa recordPage hne]
        exact filter_filter_after (page_last_lt (getLast_mem hne : _ ∈ page rows after)).1
      rw [hd, pageText, pageText, ← flatMap_append, ← ht, take_append_drop]
      rfl

end Records

theorem rows_sorted (lines : List Line) (state : LineState) :
    (rows lines state).Pairwise fun a b => a.1 < b.1 := by
  rw [rows, pairwise_map]
  apply List.Pairwise.filter
  have h : (range' 0 lines.length).Pairwise (· < ·) := pairwise_lt_range'
  rw [← zipIdx_map_snd 0 lines, pairwise_map] at h
  exact h

theorem flatMap_rows (lines : List Line) (state : LineState) (n : Nat) :
    ((lines.zipIdx n).filter (·.1.state = state)).flatMap
        (fun row => row.1.result.getD [] ++ ['\n']) =
      (lines.filter (·.state = state)).flatMap fun line => line.result.getD [] ++ ['\n'] := by
  induction lines generalizing n with
  | nil => rfl
  | cons line lines ih =>
    rw [zipIdx_cons, filter_cons, filter_cons]
    split
    · rw [flatMap_cons, flatMap_cons, ih]
    · exact ih (n + 1)

theorem Batch.records_eq (batch : Batch) (state : LineState) :
    batch.records state = (batch.lines.filter (·.state = state)).flatMap fun line =>
        line.result.getD [] ++ ['\n'] := by
  rw [Batch.records, Records.readAll_eq (rows_sorted _ _)]
  have ha : (rows batch.lines state).filter (fun row => (-1 : Int) < row.1) =
      rows batch.lines state := by
    rw [filter_eq_self]
    intro row _
    simp only [decide_eq_true_eq]
    omega
  rw [ha, Records.pageText, rows, flatMap_map]
  exact flatMap_rows _ _ 0

end LocalAi.Batches
