import LocalAi.Lib.Transducer
import LocalAi.Workspace.Open

/-!
# Bodies read within limits

A response's body comes in chunks, is decoded by its content coding and kept up to a limit. The
decoders are transducers of other crates that write to a bounded sink.

* `Sink`: keeps what there is room for and then refuses more.
* `Sink.writePieces_writes`: what it keeps of the pieces a decoder writes.
* `Decoder`: the decoder of a coding with its sink, `deflate` told apart by two bytes.
* `read`: the chunks of a response, decoded, up to a limit.
* `download`: a response whose body is read whole.
-/

open List

namespace LocalAi.Fetch

open Lib (Codec)
open Workspace (Bytes ToolError)

/-- Encoded bytes read beyond the decoded limit before stopping. -/
def encodedSlack : Nat := 64 * 1024

/-- `usize::saturating_add`. -/
def saturatingAdd (a b : Nat) : Nat := min (a + b) (2 ^ 64 - 1)

/-! ### Codings -/

inductive Coding
  | identity
  | gzip
  | deflate
  | brotli
  | zstd
deriving DecidableEq

inductive Kind
  | gzip
  | zlib
  | rawDeflate
  | brotli
  | zstd

/-- What the reader uses of other crates. -/
structure Env where
  codec : Kind → Codec UInt8 UInt8 Text
  /-- Why zstd's decoder could not be made, if it could not. -/
  zstdError : Option Text
  /-- `{:?}` of a string. -/
  debug : Text → Text

def Coding.parse (env : Env) (value : Option Text) : Except ToolError Coding :=
  let value := (trim (value.getD [])).map Char.toLower
  if value = [] ∨ value = "identity".toList then .ok .identity
  else if value = "gzip".toList ∨ value = "x-gzip".toList then .ok .gzip
  else if value = "deflate".toList then .ok .deflate
  else if value = "br".toList then .ok .brotli
  else if value = "zstd".toList then .ok .zstd
  else .error (.failed
    ("the response uses the unsupported content coding ".toList ++ env.debug value))

/-! ### The sink -/

structure Sink where
  bytes : Bytes
  limit : Nat
  full : Bool
  within : bytes.length ≤ limit
  filled : full = true → bytes.length = limit

namespace Sink

def empty (limit : Nat) : Sink := ⟨[], limit, false, Nat.zero_le _, fun h => by cases h⟩

def limitReached : Text := "the decoded limit was reached".toList

/-- `self.limit - self.bytes.len()` does not underflow, by `within`. -/
def room (s : Sink) : Nat := s.limit - s.bytes.length

theorem length_take (s : Sink) (data : Bytes) :
    (s.bytes ++ data.take (min s.room data.length)).length ≤ s.limit := by
  have hw := s.within
  rw [List.length_append, List.length_take]
  unfold room
  omega

def write (s : Sink) (data : Bytes) : Sink × Except Text Nat :=
  if h : s.room = 0 ∧ data ≠ [] then
    ({ s with
        full := true
        filled := fun _ => Nat.le_antisymm s.within (Nat.le_of_sub_eq_zero h.1) },
      .error limitReached)
  else
    let take := data.take (min s.room data.length)
    ({ s with
        bytes := s.bytes ++ take
        within := s.length_take data
        filled := fun hfull => Nat.le_antisymm (s.length_take data) (by
          rw [length_append, s.filled hfull]
          exact Nat.le_add_right _ _) },
      .ok take.length)

def writeLoop : (fuel : Nat) → Sink → Bytes → Sink × Except Text Unit
  | 0, s, data => (s, if data = [] then .ok () else .error "failed to write whole buffer".toList)
  | fuel + 1, s, data =>
    if data = [] then (s, .ok ())
    else
      match s.write data with
      | (s', .error e) => (s', .error e)
      | (s', .ok n) => s'.writeLoop fuel (data.drop n)

def writeAll (s : Sink) (data : Bytes) : Sink × Except Text Unit := s.writeLoop data.length data

/-- The writes of a decoder, up to one that is refused. -/
def writePieces (s : Sink) : List Bytes → Sink × Except Text Unit
  | [] => (s, .ok ())
  | piece :: rest =>
    match s.writeAll piece with
    | (s', .error e) => (s', .error e)
    | (s', .ok ()) => s'.writePieces rest

structure Writes (s : Sink) (data : Bytes) (s' : Sink) (written : Except Text Unit) : Prop where
  limit : s'.limit = s.limit
  bytes : s'.bytes = (s.bytes ++ data).take s.limit
  fits : (s.bytes ++ data).length ≤ s.limit → s'.full = s.full ∧ written = .ok ()
  overruns : s.limit < (s.bytes ++ data).length → s'.full = true ∧ written = .error limitReached

theorem Writes.nil (s : Sink) : Writes s [] s (.ok ()) := by
  have hw := s.within
  refine ⟨rfl, ?_, fun _ => ⟨rfl, rfl⟩, fun hlt => ?_⟩
  · rw [append_nil, take_of_length_le hw]
  · rw [append_nil] at hlt
    omega

theorem write_error {s : Sink} {data : Bytes} (h : s.room = 0 ∧ data ≠ []) :
    (s.write data).1.limit = s.limit ∧ (s.write data).1.bytes = s.bytes ∧
      (s.write data).1.full = true ∧ (s.write data).2 = .error limitReached := by
  unfold write
  rw [dif_pos h]
  exact ⟨rfl, rfl, rfl, rfl⟩

theorem write_ok {s : Sink} {data : Bytes} (h : ¬ (s.room = 0 ∧ data ≠ [])) :
    (s.write data).1.limit = s.limit ∧ (s.write data).1.bytes = s.bytes ++ data.take s.room ∧
      (s.write data).1.full = s.full ∧ (s.write data).2 = .ok (min s.room data.length) := by
  have ht : data.take (min s.room data.length) = data.take s.room := by
    rw [List.take_eq_take_iff]
    omega
  unfold write
  rw [dif_neg h]
  refine ⟨rfl, congrArg (s.bytes ++ ·) ht, rfl, congrArg Except.ok ?_⟩
  rw [List.length_take]
  omega

theorem writeLoop_writes {fuel : Nat} {data : Bytes} (hfu : data.length ≤ fuel) (s : Sink) :
    Writes s data (s.writeLoop fuel data).1 (s.writeLoop fuel data).2 := by
  induction fuel generalizing s data with
  | zero =>
    rw [length_eq_zero_iff.mp (Nat.le_zero.mp hfu)]
    exact Writes.nil s
  | succ fuel ih =>
    rw [writeLoop]
    by_cases hd : data = []
    · rw [if_pos hd, hd]
      exact Writes.nil s
    · have hwi := s.within
      rw [if_neg hd]
      by_cases hr : s.room = 0
      · obtain ⟨hl, hb, hf, he⟩ := write_error ⟨hr, hd⟩
        have hlen : s.bytes.length = s.limit := by
          unfold room at hr
          omega
        rcases hw : s.write data with ⟨s', written⟩
        rw [hw] at hl hb hf he
        cases he
        refine ⟨hl, ?_, fun hle => ?_, fun _ => ⟨hf, rfl⟩⟩
        · rw [← hlen, take_left]
          exact hb
        · have hp := length_pos_iff.mpr hd
          rw [length_append] at hle
          omega
      · obtain ⟨hl, hb, hf, hok⟩ :=
          @write_ok s data fun h => hr h.1
        rcases hw : s.write data with ⟨s', written⟩
        rw [hw] at hl hb hf hok
        cases hok
        have hdr : data.drop (min s.room data.length) = data.drop s.room := by
          by_cases hle : s.room ≤ data.length
          · rw [Nat.min_eq_left hle]
          · rw [Nat.min_eq_right (by omega), drop_length, drop_of_length_le (by omega)]
        have hj : s'.bytes ++ data.drop s.room = s.bytes ++ data := by
          rw [hb, append_assoc, take_append_drop]
        have hre := @ih (data.drop s.room) (by rw [length_drop]; omega) s'
        dsimp only at hl hf ⊢
        rw [hdr]
        obtain ⟨hl', hb', hfi, ho⟩ := hre
        rw [hl] at hl'
        rw [hl, hj] at hb' hfi ho
        exact ⟨hl', hb', fun hle => ⟨(hfi hle).1.trans hf, (hfi hle).2⟩, ho⟩

theorem writeAll_writes (s : Sink) (data : Bytes) :
    Writes s data (s.writeAll data).1 (s.writeAll data).2 :=
  writeLoop_writes le_rfl s

/-- **Pieces are kept** as what they join to is. -/
theorem writePieces_writes (s : Sink) (pieces : List Bytes) :
    Writes s pieces.flatten (s.writePieces pieces).1 (s.writePieces pieces).2 := by
  induction pieces generalizing s with
  | nil => exact Writes.nil s
  | cons piece rest ih =>
    have hf := s.writeAll_writes piece
    rw [writePieces, flatten_cons]
    rcases ha : s.writeAll piece with ⟨s', written⟩
    rw [ha] at hf
    by_cases hle : (s.bytes ++ piece).length ≤ s.limit
    · obtain ⟨hfu, rfl⟩ := hf.fits hle
      obtain ⟨hlim, hb, hfi, ho⟩ := ih s'
      have hj : s'.bytes ++ rest.flatten = s.bytes ++ (piece ++ rest.flatten) := by
        rw [hf.bytes, take_of_length_le hle, append_assoc]
      rw [hf.limit, hj] at hb hfi ho
      exact ⟨hlim.trans hf.limit, hb, fun hle' => ⟨(hfi hle').1.trans hfu, (hfi hle').2⟩, ho⟩
    · obtain ⟨hfu, rfl⟩ := hf.overruns (by omega)
      refine ⟨hf.limit, ?_, fun hle' => ?_, fun _ => ⟨hfu, rfl⟩⟩
      · have ht : (s.bytes ++ piece ++ rest.flatten).take s.limit =
            (s.bytes ++ piece).take s.limit := take_append_of_le_length (by omega)
        rw [hf.bytes, ← append_assoc, ht]
      · rw [← append_assoc, length_append] at hle'
        omega

end Sink

/-! ### The decoder -/

inductive Stage (env : Env)
  | identity
  | deflate (pending : Bytes)
  | coded (kind : Kind) (state : (env.codec kind).State)

def Stage.of (env : Env) (kind : Kind) : Stage env := .coded kind (env.codec kind).start

structure Decoder (env : Env) where
  stage : Stage env
  sink : Sink

def corrupt (error : Text) : ToolError :=
  .failed ("cannot decode the response body: ".toList ++ error)

def Stage.start (env : Env) : Coding → Stage env
  | .identity => .identity
  | .gzip => .of env .gzip
  | .deflate => .deflate []
  | .brotli => .of env .brotli
  | .zstd => .of env .zstd

/-- Whether a decoder can be made: zstd's may not. -/
def Env.ready (env : Env) (coding : Coding) : Except ToolError Unit :=
  match coding, env.zstdError with
  | .zstd, some error => .error (corrupt error)
  | _, _ => .ok ()

def Decoder.new (env : Env) (coding : Coding) (limit : Nat) : Except ToolError (Decoder env) := do
  env.ready coding
  pure ⟨.start env coding, .empty limit⟩

/-- RFC 1950: compression method 8 and a header checksum. -/
def isZlib (cmf flg : UInt8) : Bool :=
  cmf.toNat &&& 0x0f = 8 && (cmf.toNat <<< 8 ||| flg.toNat) % 31 = 0

def sniff (cmf flg : UInt8) : Kind := if isZlib cmf flg then .zlib else .rawDeflate

namespace Decoder

variable {env : Env}

/-- `write_all` of `data` to the decoder; one that waits for its first bytes is not written to. -/
def write (d : Decoder env) (data : Bytes) : Decoder env × Except Text Unit :=
  match d.stage with
  | .identity =>
    let (sink, written) := d.sink.writeAll data
    (⟨.identity, sink⟩, written)
  | .deflate pending => (⟨.deflate pending, d.sink⟩, .ok ())
  | .coded kind state =>
    let (pieces, next) := (env.codec kind).read state data
    match d.sink.writePieces pieces, next with
    | (sink, .error e), _ =>
      let accepted := sink.bytes.length - d.sink.bytes.length
      (⟨.coded kind ((env.codec kind).refused state data accepted), sink⟩, .error e)
    | (sink, .ok ()), .error e => (⟨.coded kind state, sink⟩, .error e)
    | (sink, .ok ()), .ok state' => (⟨.coded kind state', sink⟩, .ok ())

def pushWritten (d : Decoder env) (data : Bytes) : Except ToolError (Decoder env × Bool) :=
  match d.write data with
  | (d', .ok ()) => .ok (d', d'.sink.full)
  | (d', .error e) => if d'.sink.full then .ok (d', true) else .error (corrupt e)

/-- Decode `data`; `true` once the decoded limit is reached. -/
def push (d : Decoder env) (data : Bytes) : Except ToolError (Decoder env × Bool) :=
  match d.stage with
  | .deflate pending =>
    match pending ++ data with
    | cmf :: flg :: rest =>
      pushWritten ⟨.of env (sniff cmf flg), d.sink⟩ (cmf :: flg :: rest)
    | pending => .ok (⟨.deflate pending, d.sink⟩, false)
  | _ => d.pushWritten data

def tryFinish (d : Decoder env) : Sink × Except Text Unit :=
  match d.stage with
  | .identity => (d.sink, .ok ())
  | .deflate pending =>
    (d.sink, if pending = [] then .ok () else .error "a truncated deflate stream".toList)
  | .coded kind state =>
    let (pieces, ended) := (env.codec kind).finish state
    match d.sink.writePieces pieces with
    | (sink, .error e) => (sink, .error e)
    | (sink, .ok ()) => (sink, ended)

/-- The decoded bytes; after a whole body the stream must end cleanly. -/
def finish (d : Decoder env) (cut : Bool) : Except ToolError Bytes :=
  match d.tryFinish with
  | (sink, .error e) => if !cut && !sink.full then .error (corrupt e) else .ok sink.bytes
  | (sink, .ok ()) => .ok sink.bytes

end Decoder

/-! ### The reader -/

/-- A piece of a body, or why there is no more. -/
abbrev Frame := Except ToolError Bytes

structure Response where
  status : Nat
  contentEncoding : Option Text
  /-- `Content-Length`, where it reads as a 64-bit number. -/
  contentLength : Option Nat
  contentType : Option Text
  frames : List Frame

structure Read where
  bytes : Bytes
  /-- Whether a limit stopped the read before the body ended. -/
  cut : Bool

inductive Failure
  | tool (error : ToolError)
  /-- `encoded_limit - encoded` below zero. -/
  | underflow
deriving DecidableEq

def readLoop {env : Env} (encodedLimit : Nat) :
    List Frame → Decoder env → (encoded : Nat) → Nat × Except Failure (Decoder env × Bool)
  | [], d, encoded => (encoded, .ok (d, false))
  | .error e :: _, _, encoded => (encoded, .error (.tool e))
  | .ok chunk :: frames, d, encoded =>
    if encodedLimit < encoded then (encoded, .error .underflow)
    else
      let room := encodedLimit - encoded
      let take := chunk.take (min room chunk.length)
      match d.push take with
      | .error e => (encoded + take.length, .error (.tool e))
      | .ok (d', full) =>
        if full || take.length < chunk.length then (encoded + take.length, .ok (d', true))
        else readLoop encodedLimit frames d' (encoded + take.length)

def decoderOf (env : Env) (response : Response) (limit : Nat) : Except ToolError (Decoder env) := do
  let coding ← Coding.parse env response.contentEncoding
  Decoder.new env coding limit

def read (env : Env) (response : Response) (limit : Nat) : Except Failure Read := do
  let decoder ← (decoderOf env response limit).mapError .tool
  let (decoder, cut) ←
    (readLoop (saturatingAdd limit encodedSlack) response.frames decoder 0).2
  let bytes ← (decoder.finish cut).mapError .tool
  pure ⟨bytes, cut⟩

/-- The encoded bytes that `read` reads. -/
def consumed (env : Env) (response : Response) (limit : Nat) : Nat :=
  match decoderOf env response limit with
  | .ok decoder => (readLoop (saturatingAdd limit encodedSlack) response.frames decoder 0).1
  | .error _ => 0

structure Download where
  contentType : Option Text
  body : Bytes
deriving DecidableEq

/-- `download_from`, of the response its redirects lead to. -/
def download (env : Env) (response : Response) (maxBytes : Nat) (accept : Option Text → Bool) :
    Except Failure Download :=
  let tooLarge := Failure.tool (.invalid
    ("the body is larger than ".toList ++ Nat.toDigits 10 maxBytes ++ " bytes".toList))
  if ¬ (200 ≤ response.status ∧ response.status < 300) then
    .error (.tool (.failed ("the server answered HTTP ".toList ++ Nat.toDigits 10 response.status)))
  else if ∃ length ∈ response.contentLength, maxBytes < length then .error tooLarge
  else if !accept response.contentType then
    .error (.tool (.denied ("the response's content type ".toList ++
      response.contentType.getD "(none)".toList ++ " is not accepted".toList)))
  else do
    let read ← read env response maxBytes
    if read.cut then .error tooLarge
    else pure ⟨response.contentType, read.bytes⟩

end LocalAi.Fetch
