import LocalAi.Admin.Keys
import LocalAi.Lib.Partition
import Mathlib.Data.Char
import Mathlib.Data.List.Lex

/-!
# Usage records and their buckets

A query walks aligned buckets of one width in pages; the records of a page are summed in SQL by
bucket and group, and each row is put into the bucket it falls in.

* `bucketSpans`: the page of spans after a cursor.
* `selectRows`: the sums of the matching records by bucket and group.

A 64-bit addition that does not fit fails (a release build wraps around), as SQLite's `SUM` does.
The clock and `{:?}` of a string are arguments.
-/

namespace LocalAi.Admin

open Lib (ensure group groupKeys)

inductive UsageFault
  | error (e : Error)
  | overflow
  /-- SQLite's `SUM`. -/
  | integerOverflow

/-! ### Numbers -/

def InI64 (n : Int) : Prop := -2 ^ 63 ≤ n ∧ n < 2 ^ 63

instance (n : Int) : Decidable (InI64 n) := inferInstanceAs (Decidable (_ ∧ _))

/-- A result of `i64` arithmetic. -/
def checked (n : Int) : Except UsageFault Int := if InI64 n then .ok n else .error .overflow

/-- `SUM`, in the order of the rows. -/
def sqlSum (xs : List Int) : Except UsageFault Int :=
  xs.foldlM (fun sum x => if InI64 (sum + x) then .ok (sum + x) else .error .integerOverflow) 0

/-- An integer as `format!` writes it. -/
def integerText : Int → Text
  | .ofNat n => Nat.toDigits 10 n
  | .negSucc n => '-' :: Nat.toDigits 10 (n + 1)

/-- The digits of an integer, if there are any. -/
def parseDigits (digits : Text) : Option Nat :=
  if digits ≠ [] ∧ digits.all Char.isDigit then some (Nat.ofDigitChars 10 digits 0) else none

/-- `str::parse::<i64>`. -/
def parseI64 (text : Text) : Option Int :=
  let value : Option Int := match text with
    | [] => none
    | c :: rest =>
      if c = '-' then (parseDigits rest).map fun n : Nat => -(n : Int)
      else if c = '+' then (parseDigits rest).map fun n : Nat => (n : Int)
      else (parseDigits (c :: rest)).map fun n : Nat => (n : Int)
  value.filter fun n => InI64 n

/-! ### Kinds and records -/

inductive UsageKind
  | completions
  | embeddings
  | moderations
  | audioSpeeches
  | audioTranscriptions
  | images
  | codeInterpreterSessions
  | fileSearchCalls
  | webSearchCalls
  | vectorStores
deriving DecidableEq

namespace UsageKind

def segment : UsageKind → Text
  | .completions => "completions".toList
  | .embeddings => "embeddings".toList
  | .moderations => "moderations".toList
  | .audioSpeeches => "audio_speeches".toList
  | .audioTranscriptions => "audio_transcriptions".toList
  | .images => "images".toList
  | .codeInterpreterSessions => "code_interpreter_sessions".toList
  | .fileSearchCalls => "file_search_calls".toList
  | .webSearchCalls => "web_search_calls".toList
  | .vectorStores => "vector_stores".toList

def groupFields (kind : UsageKind) : List Text :=
  let fields : List String := match kind with
    | .completions =>
      ["project_id", "user_id", "api_key_id", "model", "batch", "service_tier", "api_source"]
    | .embeddings | .moderations | .audioSpeeches | .audioTranscriptions =>
      ["project_id", "user_id", "api_key_id", "model"]
    | .images => ["project_id", "user_id", "api_key_id", "model", "size", "source"]
    | .codeInterpreterSessions | .vectorStores => ["project_id"]
    | .fileSearchCalls => ["project_id", "user_id", "api_key_id", "vector_store_id"]
    | .webSearchCalls =>
      ["project_id", "user_id", "api_key_id", "model", "context_level", "api_source"]
  fields.map String.toList

end UsageKind

inductive Measure
  | inputTokens
  | inputCachedTokens
  | outputTokens
  | units
  | requests

structure UsageRecord where
  kind : UsageKind
  /-- `at`. -/
  time : Int
  projectId : Option Text
  userId : Option Text
  apiKeyId : Option Text
  model : Option Text
  batch : Bool
  inputTokens : Int
  inputCachedTokens : Int
  outputTokens : Int
  units : Int
  requests : Int

def UsageRecord.count (record : UsageRecord) : Measure → Int
  | .inputTokens => record.inputTokens
  | .inputCachedTokens => record.inputCachedTokens
  | .outputTokens => record.outputTokens
  | .units => record.units
  | .requests => record.requests

structure UsageQuery where
  kind : UsageKind
  startTime : Int
  endTime : Option Int
  bucketWidth : Int
  limit : Option Nat
  page : Option Text
  projectIds : List Text
  userIds : List Text
  apiKeyIds : List Text
  models : List Text
  batch : Option Bool
  groupBy : List Text

structure Bucket where
  object : Text
  startTime : Int
  endTime : Int
  results : List Json

structure UsagePage where
  object : Text
  data : List Bucket
  hasMore : Bool
  nextPage : Option Text

/-- What a query reads: the usage records, in the order it visits them, and the `usage_bytes` of
the files of vector stores. -/
structure UsageTables where
  records : List UsageRecord
  fileBytes : List Int

/-- What the source takes from elsewhere. -/
structure UsageEnv where
  now : Int
  debug : Text → Text

/-! ### Spans -/

def minute : Int := 60

def hour : Int := 3600

def bucketLimits (width : Int) : Nat × Nat :=
  if width = minute then (60, 1440) else if width = hour then (24, 168) else (7, 31)

def pagePrefix : Text := "page_".toList

def cursorText (cursor : Int) : Text := pagePrefix ++ integerText cursor

def spansFrom (startTime endTime width : Int) :
    (limit : Nat) → (cursor : Int) → Except UsageFault (List (Int × Int) × Int)
  | 0, cursor => .ok ([], cursor)
  | limit + 1, cursor =>
    if cursor < endTime then do
      let next ← checked (cursor + width)
      let (rest, last) ← spansFrom startTime endTime width limit next
      pure ((max cursor startTime, min next endTime) :: rest, last)
    else .ok ([], cursor)

def pageCursor (debug : Text → Text) (first endTime width : Int) :
    Option Text → Except UsageFault Int
  | none => .ok first
  | some page =>
    match ((stripPrefix pagePrefix page).bind parseI64).filter
        fun cursor => first ≤ cursor ∧ cursor < endTime ∧ cursor % width = 0 with
    | some cursor => .ok cursor
    | none => .error (.error (.invalidArgument ("invalid page cursor ".toList ++ debug page)))

def bucketSpans (debug : Text → Text) (startTime endTime width : Int) (limit : Nat)
    (page : Option Text) : Except UsageFault (List (Int × Int) × Option Text) := do
  ensure (0 ≤ startTime)
    (.error (.invalidArgument "start_time must be a Unix time in seconds".toList))
  ensure (startTime < endTime)
    (.error (.invalidArgument "end_time must be after start_time".toList))
  let cursor ← pageCursor debug (startTime / width * width) endTime width page
  let (spans, cursor) ← spansFrom startTime endTime width limit cursor
  pure (spans, if cursor < endTime then some (cursorText cursor) else none)

/-! ### Sums by bucket and group -/

inductive SqlValue
  | null
  | integer (n : Int)
  | text (t : Text)
deriving DecidableEq

namespace SqlValue

def le : SqlValue → SqlValue → Bool
  | .null, _ => true
  | .integer _, .null => false
  | .integer m, .integer n => m ≤ n
  | .integer _, .text _ => true
  | .text s, .text t => decide (s ≤ t)
  | .text _, _ => false

def listLe : List SqlValue → List SqlValue → Bool
  | [], _ => true
  | _ :: _, [] => false
  | v :: vs, w :: ws => if v = w then listLe vs ws else v.le w

def ofText : Option Text → SqlValue
  | none => .null
  | some t => .text t

end SqlValue

/-- The columns that a `group_by` field reads. -/
inductive Column
  | projectId
  | userId
  | apiKeyId
  | model
  | batch
deriving DecidableEq

namespace Column

def name : Column → Text
  | .projectId => "project_id".toList
  | .userId => "user_id".toList
  | .apiKeyId => "api_key_id".toList
  | .model => "model".toList
  | .batch => "batch".toList

def all : List Column := [.projectId, .userId, .apiKeyId, .model, .batch]

def value (record : UsageRecord) : Column → SqlValue
  | .projectId => .ofText record.projectId
  | .userId => .ofText record.userId
  | .apiKeyId => .ofText record.apiKeyId
  | .model => .ofText record.model
  | .batch => .integer (if record.batch then 1 else 0)

end Column

def column (field : Text) : Option Column := Column.all.find? fun column => column.name = field

def inClause (wanted : List Text) (value : Option Text) : Bool :=
  wanted.isEmpty || value.any fun text => wanted.contains text

namespace UsageQuery

def grouped (query : UsageQuery) : List Column := query.groupBy.filterMap column

/-- The `WHERE` clause. -/
def selects (query : UsageQuery) (start stop : Int) (record : UsageRecord) : Bool :=
  record.kind = query.kind && start ≤ record.time && record.time < stop &&
    inClause query.projectIds record.projectId && inClause query.userIds record.userId &&
    inClause query.apiKeyIds record.apiKeyId && inClause query.models record.model &&
    query.batch.all (· == record.batch)

/-- The columns that the rows are grouped by. -/
def values (query : UsageQuery) (record : UsageRecord) : List SqlValue :=
  query.grouped.map fun column => column.value record

/-- The bucket and the columns that the rows are grouped by. -/
def key (query : UsageQuery) (record : UsageRecord) : Int × List SqlValue :=
  (record.time.tdiv query.bucketWidth * query.bucketWidth, query.values record)

end UsageQuery

structure SumRow where
  bucket : Int
  values : List SqlValue
  sums : Measure → Int

def keyLe (k l : Int × List SqlValue) : Bool :=
  if k.1 = l.1 then SqlValue.listLe k.2 l.2 else k.1 ≤ l.1

def sumRow (key : Int × List SqlValue) (records : List UsageRecord) :
    Except UsageFault SumRow := do
  let input ← sqlSum (records.map (·.count .inputTokens))
  let cached ← sqlSum (records.map (·.count .inputCachedTokens))
  let output ← sqlSum (records.map (·.count .outputTokens))
  let units ← sqlSum (records.map (·.count .units))
  let requests ← sqlSum (records.map (·.count .requests))
  pure ⟨key.1, key.2, fun
    | .inputTokens => input
    | .inputCachedTokens => cached
    | .outputTokens => output
    | .units => units
    | .requests => requests⟩

def selectRows (query : UsageQuery) (start stop : Int) (records : List UsageRecord) :
    Except UsageFault (List SumRow) :=
  let selected := records.filter (query.selects start stop)
  (groupKeys keyLe query.key selected).mapM fun k => sumRow k (group query.key k selected)

/-! ### Results -/

/-- `value[field] = ...`. -/
def setMember (field : Text) (value : Json) : List (Text × Json) → List (Text × Json)
  | [] => [(field, value)]
  | (name, old) :: rest =>
    if name = field then (name, value) :: rest else (name, old) :: setMember field value rest

/-- The group values of a row, under their columns' names. -/
def groupsOf (query : UsageQuery) (values : List SqlValue) : List (Text × Json) :=
  (query.grouped.zip values).foldl (fun groups (column, value) =>
    let value := match value with
      | .integer flag => if column = .batch then .bool (flag ≠ 0) else .null
      | .text text => .string text
      | .null => .null
    setMember column.name value groups) []

def nulls (fields : List String) : List (Text × Json) :=
  fields.map fun field => (field.toList, .null)

def resultMembers (kind : UsageKind) (sums : Measure → Int) :
    Except UsageFault (List (Text × Json)) := do
  let number (n : Int) : Json := .number (integerText n)
  let named (name : String) (value : Json) : Text × Json := (name.toList, value)
  let object := named "object"
    (.string ("organization.usage.".toList ++ kind.segment ++ ".result".toList))
  let input := number (sums .inputTokens)
  let cached := number (sums .inputCachedTokens)
  let output := number (sums .outputTokens)
  let units := number (sums .units)
  let requests := number (sums .requests)
  match kind with
  | .completions => do
    let uncached ← checked (sums .inputTokens - sums .inputCachedTokens)
    pure ([object, named "input_tokens" input, named "input_cached_tokens" cached,
      named "input_uncached_tokens" (number uncached), named "output_tokens" output,
      named "input_text_tokens" input, named "output_text_tokens" output,
      named "input_cached_text_tokens" cached, named "input_audio_tokens" (number 0),
      named "input_cached_audio_tokens" (number 0), named "output_audio_tokens" (number 0),
      named "input_image_tokens" (number 0), named "input_cached_image_tokens" (number 0),
      named "output_image_tokens" (number 0), named "num_model_requests" requests] ++
      nulls ["project_id", "user_id", "api_key_id", "model", "batch", "service_tier", "api_source"])
  | .embeddings | .moderations =>
    pure ([object, named "input_tokens" input, named "num_model_requests" requests] ++
      nulls ["project_id", "user_id", "api_key_id", "model"])
  | .audioSpeeches =>
    pure ([object, named "characters" units, named "num_model_requests" requests] ++
      nulls ["project_id", "user_id", "api_key_id", "model"])
  | .audioTranscriptions =>
    pure ([object, named "seconds" units, named "num_model_requests" requests] ++
      nulls ["project_id", "user_id", "api_key_id", "model"])
  | .images =>
    pure ([object, named "images" units, named "num_model_requests" requests] ++
      nulls ["source", "size", "project_id", "user_id", "api_key_id", "model"])
  | .codeInterpreterSessions =>
    pure ([object, named "num_sessions" units] ++ nulls ["project_id"])
  | .fileSearchCalls =>
    pure ([object, named "num_requests" requests] ++
      nulls ["project_id", "user_id", "api_key_id", "vector_store_id"])
  | .webSearchCalls =>
    pure ([object, named "num_model_requests" requests, named "num_requests" units] ++
      nulls ["project_id", "user_id", "api_key_id", "model", "context_level", "api_source"])
  | .vectorStores =>
    pure ([object, named "usage_bytes" (number 0)] ++ nulls ["project_id"])

def result (query : UsageQuery) (row : SumRow) : Except UsageFault Json := do
  let members ← resultMembers query.kind row.sums
  let members := (groupsOf query row.values).foldl
    (fun members (field, value) => setMember field value members) members
  let members := if query.groupBy.contains "api_source".toList then
      setMember "api_source".toList (.string "unlabeled".toList) members
    else members
  pure (.object members)

/-! ### Pages -/

def Bucket.holds (bucket : Bucket) (time : Int) : Bool :=
  bucket.startTime ≤ time && time < bucket.endTime

def pushResult (time : Int) (value : Json) : List Bucket → List Bucket
  | [] => []
  | bucket :: rest =>
    if bucket.holds time then { bucket with results := bucket.results ++ [value] } :: rest
    else bucket :: pushResult time value rest

/-- A row goes to the bucket that it falls in, clipped like the first. -/
def placeRow (query : UsageQuery) (start : Int) (data : List Bucket) (row : SumRow) :
    Except UsageFault (List Bucket) :=
  if data.any fun bucket => bucket.holds (max row.bucket start) then do
    let value ← result query row
    pure (pushResult (max row.bucket start) value data)
  else pure data

def aggregate (query : UsageQuery) (start stop : Int) (records : List UsageRecord)
    (data : List Bucket) : Except UsageFault (List Bucket) := do
  let rows ← selectRows query start stop records
  rows.foldlM (placeRow query start) data

def vectorStoreSnapshot (now : Int) (fileBytes : List Int) (data : List Bucket) :
    Except UsageFault (List Bucket) :=
  if data.any fun bucket => bucket.holds now then do
    let bytes ← sqlSum fileBytes
    pure (pushResult now (.object [
      ("object".toList, .string "organization.usage.vector_stores.result".toList),
      ("usage_bytes".toList, .number (integerText bytes)), ("project_id".toList, .null)]) data)
  else pure data

def emptyBucket (span : Int × Int) : Bucket := ⟨"bucket".toList, span.1, span.2, []⟩

def UsageQuery.check (debug : Text → Text) (query : UsageQuery) : Except UsageFault Nat := do
  let (default, max) := bucketLimits query.bucketWidth
  let limit := query.limit.getD default
  ensure (1 ≤ limit && limit ≤ max) (.error (.invalidArgument
    ("limit must be between 1 and ".toList ++ Nat.toDigits 10 max ++
      " for this bucket_width".toList)))
  let _ ← query.groupBy.mapM fun field =>
    ensure (query.kind.groupFields.contains field) (.error (.invalidArgument
      ("group_by ".toList ++ debug field ++ " is not supported for ".toList ++
        query.kind.segment ++ " usage; supported: ".toList ++
        List.intercalate ", ".toList query.kind.groupFields)))
  pure limit

/-- The buckets of a page, with the results of what is read. -/
def fillBuckets (env : UsageEnv) (tables : UsageTables) (query : UsageQuery)
    (spans : List (Int × Int)) : Except UsageFault (List Bucket) :=
  let data := spans.map emptyBucket
  match spans.head?, spans.getLast? with
  | some (start, _), some (_, stop) =>
    if query.kind = .vectorStores then vectorStoreSnapshot env.now tables.fileBytes data
    else aggregate query start stop tables.records data
  | _, _ => .ok data

def usage (env : UsageEnv) (tables : UsageTables) (query : UsageQuery) :
    Except UsageFault UsagePage := do
  let limit ← query.check env.debug
  let endTime ← match query.endTime with
    | some endTime => .ok endTime
    | none => do
      let bucket ← checked (env.now / query.bucketWidth + 1)
      checked (bucket * query.bucketWidth)
  let (spans, nextPage) ←
    bucketSpans env.debug query.startTime endTime query.bucketWidth limit query.page
  let data ← fillBuckets env tables query spans
  pure ⟨"page".toList, data, nextPage.isSome, nextPage⟩

end LocalAi.Admin
