import Mathlib.Data.List.Flatten
import LocalAi.Tools.Json

/-!
# Speech as an Opus stream

Samples arrive in pushes of any length; the stream encodes every frame that is full, and at its end
the encoder's lookahead as silence and the last frame padded.

* `planned`: the frames of a whole signal, with their end flags and granule positions.
* `Upto`: what has been written when so many frames are out, whatever the pushes were.
* `stream_planned`: the stream is the whole signal's.

The encoder and the pages of the container are parameters: a packet's pages depend on the packets
before it, and are flushed with it.
-/

open List

namespace LocalAi.Speech

abbrev Bytes := List UInt8

def opusFrame : Nat := 480

/-- The encoder's lookahead at twice the sample rate. -/
def opusPreSkip : Nat := 340

/-- Samples of silence that push the lookahead out. -/
def lookahead : Nat := opusPreSkip / 2

inductive EndInfo
  | endPage
  | endStream

structure Written where
  packet : Bytes
  ending : EndInfo
  granule : Nat

/-- The encoder, and the pages of the packets written so far and one more. -/
structure Codec (S F : Type) where
  encode : S → List F → S × Bytes
  pages : List Written → Written → Bytes

/-- The encoder's state, the packets written and the bytes of their pages. -/
structure Sink (S : Type) where
  encoder : S
  written : List Written
  bytes : Bytes

structure OpusState (S F : Type) where
  sink : Sink S
  pending : List F
  real : Nat
  consumed : Nat
  taken : Nat

/-- A frame to encode, its end flag and its granule position. -/
structure Frame (F : Type) where
  samples : List F
  ending : EndInfo
  granule : Nat

def leBytes (width value : Nat) : Bytes :=
  (List.range width).map fun i => UInt8.ofNat (value / 256 ^ i)

def ascii (text : String) : Bytes := text.toList.map fun c => UInt8.ofNat c.toNat

/-- The two header packets. -/
def opusHeaders (sampleRate : Nat) : List Written :=
  let vendor := ascii "local-ai rusty-opus"
  [⟨ascii "OpusHead" ++ [1, 1] ++ leBytes 2 opusPreSkip ++ leBytes 4 sampleRate ++ leBytes 2 0 ++ [0],
      .endPage, 0⟩,
    ⟨ascii "OpusTags" ++ leBytes 4 vendor.length ++ vendor ++ leBytes 4 0, .endPage, 0⟩]

variable {S F : Type} (codec : Codec S F)

namespace Sink

/-- `PacketWriter::write_packet`. -/
def writePacket (packet : Written) (sink : Sink S) : Sink S :=
  { sink with
    written := sink.written ++ [packet]
    bytes := sink.bytes ++ codec.pages sink.written packet }

/-- A frame, encoded and written. -/
def write (sink : Sink S) (frame : Frame F) : Sink S :=
  let (encoder, packet) := codec.encode sink.encoder frame.samples
  { sink with encoder := encoder }.writePacket codec ⟨packet, frame.ending, frame.granule⟩

/-- A new stream: its headers. -/
def start (encoder : S) (sampleRate : Nat) : Sink S :=
  (opusHeaders sampleRate).foldl (fun sink packet => sink.writePacket codec packet) ⟨encoder, [], []⟩

end Sink

namespace OpusState

variable [Zero F]

def new (encoder : S) (sampleRate : Nat) : OpusState S F :=
  { sink := .start codec encoder sampleRate, pending := [], real := 0, consumed := 0, taken := 0 }

def encodeFrame (last : Bool) (s : OpusState S F) : OpusState S F :=
  let frame := s.pending.take opusFrame
  let pending := s.pending.drop opusFrame
  let consumed := s.consumed + frame.length
  { s with
    pending, consumed
    sink := s.sink.write codec
      { samples := frame ++ List.replicate (opusFrame - frame.length) 0
        ending := if last && pending.isEmpty then .endStream else .endPage
        granule := opusPreSkip + 2 * min consumed s.real } }

/-- `encode_frames`; every turn takes a sample at least, so the fuel is the samples that wait. -/
def encodeLoop (last : Bool) : (fuel : Nat) → OpusState S F → OpusState S F
  | 0, s => s
  | fuel + 1, s =>
    let available := s.pending.length
    if available < opusFrame ∧ ¬(last = true ∧ 0 < available) then s
    else encodeLoop last fuel (s.encodeFrame codec last)

def encodeFrames (last : Bool) (s : OpusState S F) : OpusState S F :=
  encodeLoop codec last s.pending.length s

/-- The bytes that were not taken yet. -/
def take (s : OpusState S F) : Bytes × OpusState S F :=
  (s.sink.bytes.drop s.taken, { s with taken := s.sink.bytes.length })

def push (samples : List F) (s : OpusState S F) : Bytes × OpusState S F :=
  ({ s with pending := s.pending ++ samples, real := s.real + samples.length }.encodeFrames codec
    false).take

def finish (s : OpusState S F) : Bytes :=
  ({ s with pending := s.pending ++ List.replicate lookahead 0 }.encodeFrames codec true).take.1

def pushAll : List (List F) → OpusState S F → Bytes
  | [], s => s.finish codec
  | samples :: rest, s =>
    let (bytes, s) := s.push codec samples
    bytes ++ pushAll rest s

end OpusState

variable [Zero F]

def opusStream (encoder : S) (sampleRate : Nat) (pushes : List (List F)) : Bytes :=
  (OpusState.new codec encoder sampleRate).pushAll codec pushes

/-! ### The whole signal -/

def frameCount (samples : List F) : Nat := (samples.length + lookahead + 479) / opusFrame

/-- The samples, the silence and the padding of the last frame. -/
def padded (samples : List F) : List F :=
  samples ++ List.replicate (frameCount samples * opusFrame - samples.length) 0

def frameAt (samples : List F) (index : Nat) : Frame F where
  samples := ((padded samples).drop (index * opusFrame)).take opusFrame
  ending := if index + 1 = frameCount samples then .endStream else .endPage
  granule := opusPreSkip + 2 * min ((index + 1) * opusFrame) samples.length

def planned (samples : List F) : List (Frame F) :=
  (List.range (frameCount samples)).map (frameAt samples)

/-- The stream of a whole signal. -/
def wholeSink (encoder : S) (sampleRate : Nat) (samples : List F) : Sink S :=
  (planned samples).foldl (Sink.write codec) (.start codec encoder sampleRate)

/-! ### What is out so far -/

variable {codec} {encoder : S} {sampleRate count : Nat} {whole source : List F} {s : OpusState S F}
  {sent : Bytes}

/-- The first frames of the whole signal are out; of what came in, the rest waits, and the bytes sent
are those taken. -/
structure Upto (codec : Codec S F) (encoder : S) (sampleRate : Nat) (whole source : List F)
    (count : Nat) (sent : Bytes) (s : OpusState S F) : Prop where
  sink : s.sink = ((List.range count).map (frameAt whole)).foldl (Sink.write codec)
    (.start codec encoder sampleRate)
  pending : s.pending = source.drop (count * opusFrame)
  consumed : s.consumed = min (count * opusFrame) source.length
  sent : sent = s.sink.bytes.take s.taken
  taken : s.taken ≤ s.sink.bytes.length

theorem opusFrame_eq : opusFrame = 480 := rfl

theorem lookahead_eq : lookahead = 170 := rfl

omit [Zero F] in
theorem write_bytes (codec : Codec S F) (sink : Sink S) (frame : Frame F) :
    ∃ pages, (sink.write codec frame).bytes = sink.bytes ++ pages :=
  ⟨_, rfl⟩

theorem Upto.encodeFrame (h : Upto codec encoder sampleRate whole source count sent s) {last : Bool}
    (hsa : (source.drop (count * opusFrame)).take opusFrame ++
        replicate (opusFrame - (source.length - count * opusFrame)) 0 =
      (frameAt whole count).samples)
    (he : (if last && (source.drop ((count + 1) * opusFrame)).isEmpty then .endStream
      else .endPage) = (frameAt whole count).ending)
    (hg : opusPreSkip + 2 * min (min ((count + 1) * opusFrame) source.length) s.real =
      (frameAt whole count).granule) :
    Upto codec encoder sampleRate whole source (count + 1) sent (s.encodeFrame codec last) := by
  have hl : s.consumed + (s.pending.take opusFrame).length =
      min ((count + 1) * opusFrame) source.length := by
    rw [h.pending, h.consumed, length_take, length_drop, opusFrame_eq]
    omega
  have hd : s.pending.drop opusFrame = source.drop ((count + 1) * opusFrame) := by
    rw [h.pending, drop_drop, Nat.succ_mul]
  have hpad : opusFrame - (s.pending.take opusFrame).length =
      opusFrame - (source.length - count * opusFrame) := by
    rw [h.pending, length_take, length_drop]
    omega
  have hs : (s.encodeFrame codec last).sink = s.sink.write codec (frameAt whole count) := by
    show s.sink.write codec _ = _
    congr 1
    rw [hpad, hd, hl, h.pending, hsa, he, hg]
  obtain ⟨pages, hp⟩ := write_bytes codec s.sink (frameAt whole count)
  refine ⟨?_, hd, hl, ?_, ?_⟩
  · rw [hs, h.sink, range_succ, map_append, foldl_append]
    rfl
  · rw [hs, hp, h.sent]
    exact (take_append_of_le_length h.taken).symm
  · rw [hs, hp, length_append]
    exact h.taken.trans (Nat.le_add_right _ _)

theorem Upto.sent_take (h : Upto codec encoder sampleRate whole source count sent s) :
    sent ++ s.take.1 = s.sink.bytes := by
  rw [h.sent]
  exact take_append_drop _ _

theorem Upto.take (h : Upto codec encoder sampleRate whole source count sent s) :
    Upto codec encoder sampleRate whole source count (sent ++ s.take.1) s.take.2 :=
  ⟨h.sink, h.pending, h.consumed, h.sent_take.trans take_length.symm, le_rfl⟩

/-- Full frames of what came in are frames of the whole signal. -/
theorem Upto.feed {fuel : Nat} {rest : List F}
    (h : Upto codec encoder sampleRate (source ++ rest) source count sent s)
    (hr : s.real = source.length) (hin : count * opusFrame ≤ source.length) :
    ∃ count', Upto codec encoder sampleRate (source ++ rest) source count' sent
        (s.encodeLoop codec false fuel) ∧
      (s.encodeLoop codec false fuel).real = source.length ∧
      count' * opusFrame ≤ source.length := by
  induction fuel generalizing count s with
  | zero => exact ⟨count, h, hr, hin⟩
  | succ fuel ih =>
    rw [OpusState.encodeLoop]
    split
    · exact ⟨count, h, hr, hin⟩
    · next hf =>
      have hlen : s.pending.length = source.length - count * opusFrame := by
        rw [h.pending, length_drop]
      have hn : (count + 1) * opusFrame ≤ source.length := by
        have hge : ¬s.pending.length < opusFrame := fun hlt => hf ⟨hlt, by simp⟩
        rw [Nat.succ_mul]
        omega
      refine ih (h.encodeFrame ?_ ?_ ?_) hr hn
      · have hz : opusFrame - (source.length - count * opusFrame) = 0 := by
          rw [Nat.succ_mul] at hn
          omega
        rw [hz, replicate_zero, append_nil]
        show _ = ((padded (source ++ rest)).drop _).take _
        rw [padded, append_assoc, drop_append_of_le_length hin,
          take_append_of_le_length (by rw [length_drop, Nat.succ_mul] at *; omega)]
      · have hne : count + 1 ≠ frameCount (source ++ rest) := by
          rw [frameCount, lookahead_eq, opusFrame_eq, length_append] at *
          omega
        exact (if_neg hne).symm
      · show _ = opusPreSkip + 2 * min _ (source ++ rest).length
        rw [hr, length_append]
        omega

/-- The end encodes all that is left, the last frame padded. -/
theorem Upto.drain {fuel : Nat} (hs : source = whole ++ List.replicate lookahead 0)
    (h : Upto codec encoder sampleRate whole source count sent s)
    (hr : s.real = whole.length) (hin : count ≤ frameCount whole) (hf : s.pending.length ≤ fuel) :
    Upto codec encoder sampleRate whole source (frameCount whole) sent
      (s.encodeLoop codec true fuel) := by
  have hlen : source.length = whole.length + 170 := by
    rw [hs, List.length_append, List.length_replicate, lookahead_eq]
  have hc : frameCount whole = (source.length + 479) / 480 := by
    rw [frameCount, opusFrame_eq, lookahead_eq, hlen]
  have hp : padded whole =
      source ++ List.replicate (frameCount whole * opusFrame - source.length) 0 := by
    rw [padded, hs, List.append_assoc, ← List.replicate_add]
    congr 2
    rw [← hs, hlen, lookahead_eq, opusFrame_eq]
    omega
  induction fuel generalizing count s with
  | zero =>
    have he : count = frameCount whole := by
      rw [h.pending, List.length_drop, opusFrame_eq] at hf
      omega
    rw [← he]
    exact h
  | succ fuel ih =>
    have hw : s.pending.length = source.length - count * opusFrame := by
      rw [h.pending, List.length_drop]
    rw [OpusState.encodeLoop]
    split
    · next hem =>
      have he : count = frameCount whole := by
        simp only [true_and, not_lt, opusFrame_eq] at hem hw
        omega
      rw [← he]
      exact h
    · next hso =>
      have hl : count * opusFrame < source.length := by
        simp only [true_and, opusFrame_eq] at hso hw ⊢
        omega
      have hn : count + 1 ≤ frameCount whole := by
        rw [opusFrame_eq] at hl
        omega
      refine ih (h.encodeFrame ?_ ?_ ?_) hr hn ?_
      · show _ = ((padded whole).drop _).take _
        rw [hp, List.drop_append_of_le_length hl.le, List.take_append, List.take_replicate,
          List.length_drop]
        congr 2
        rw [opusFrame_eq] at *
        omega
      · refine if_congr ?_ rfl rfl
        rw [Bool.true_and, List.isEmpty_iff, List.drop_eq_nil_iff]
        rw [opusFrame_eq] at *
        exact ⟨fun hle => by omega, fun heq => by omega⟩
      · show _ = opusPreSkip + 2 * min _ whole.length
        rw [hr]
        omega
      · show (s.pending.drop opusFrame).length ≤ fuel
        rw [List.length_drop, opusFrame_eq] at *
        omega

variable (samples : List F)

theorem Upto.push {rest : List F}
    (h : Upto codec encoder sampleRate (source ++ samples ++ rest) source count sent s)
    (hr : s.real = source.length) (hin : count * opusFrame ≤ source.length) :
    ∃ count', Upto codec encoder sampleRate (source ++ samples ++ rest) (source ++ samples) count'
        (sent ++ (s.push codec samples).1) (s.push codec samples).2 ∧
      (s.push codec samples).2.real = (source ++ samples).length ∧
      count' * opusFrame ≤ (source ++ samples).length := by
  have hm : Upto codec encoder sampleRate (source ++ samples ++ rest) (source ++ samples) count
      sent { s with pending := s.pending ++ samples, real := s.real + samples.length } := by
    refine ⟨h.sink, ?_, ?_, h.sent, h.taken⟩
    · show s.pending ++ samples = _
      rw [h.pending, drop_append_of_le_length hin]
    · show s.consumed = _
      rw [h.consumed, length_append]
      omega
  have hl : s.real + samples.length = (source ++ samples).length := by
    rw [hr, length_append]
  obtain ⟨count', hu, hr', hin'⟩ := hm.feed hl (hin.trans (by rw [length_append]; omega))
  exact ⟨count', hu.take, hr', hin'⟩

/-- The end sends the bytes that are left. -/
theorem Upto.finish (h : Upto codec encoder sampleRate source source count sent s)
    (hr : s.real = source.length) (hin : count * opusFrame ≤ source.length) :
    sent ++ s.finish codec = (wholeSink codec encoder sampleRate source).bytes := by
  have hm : Upto codec encoder sampleRate source (source ++ replicate lookahead 0) count
      sent { s with pending := s.pending ++ replicate lookahead 0 } := by
    refine ⟨h.sink, ?_, ?_, h.sent, h.taken⟩
    · show s.pending ++ _ = _
      rw [h.pending, drop_append_of_le_length hin]
    · show s.consumed = _
      rw [h.consumed, length_append]
      omega
  have hc : count ≤ frameCount source := by
    rw [frameCount, opusFrame_eq] at *
    omega
  have ha := hm.drain rfl hr hc le_rfl
  have hs := ha.sent_take
  rw [ha.sink] at hs
  exact hs

theorem Upto.pushAll {pushes : List (List F)}
    (h : Upto codec encoder sampleRate (source ++ pushes.flatten) source count sent s)
    (hr : s.real = source.length) (hin : count * opusFrame ≤ source.length) :
    sent ++ s.pushAll codec pushes =
      (wholeSink codec encoder sampleRate (source ++ pushes.flatten)).bytes := by
  induction pushes generalizing source count sent s with
  | nil =>
    rw [flatten_nil, append_nil] at h ⊢
    exact h.finish hr hin
  | cons samples pushes ih =>
    rw [flatten_cons, ← append_assoc] at h ⊢
    obtain ⟨count', hu, hr', hin'⟩ := h.push samples hr hin
    rw [OpusState.pushAll, ← append_assoc]
    exact ih hu hr' hin'

/-! ### What the whole signal is -/

omit [Zero F] in
theorem flatten_chunks (l : List F) (count : Nat) :
    ((range count).map fun i => (l.drop (i * opusFrame)).take opusFrame).flatten =
      l.take (count * opusFrame) := by
  induction count with
  | zero => simp
  | succ count ih =>
    rw [range_succ, map_append, flatten_append, ih, Nat.succ_mul, take_add]
    simp

theorem length_padded : (padded samples).length = frameCount samples * opusFrame := by
  rw [padded, length_append, length_replicate, frameCount, lookahead_eq, opusFrame_eq]
  omega

theorem planned_samples : ∃ padding < opusFrame, ((planned samples).map Frame.samples).flatten =
      samples ++ replicate lookahead 0 ++ replicate padding 0 := by
  refine ⟨frameCount samples * opusFrame - samples.length - lookahead, ?_, ?_⟩
  · rw [frameCount, lookahead_eq, opusFrame_eq]
    omega
  · rw [planned, map_map]
    show ((range _).map fun i => ((padded samples).drop (i * opusFrame)).take opusFrame).flatten = _
    have hp : frameCount samples * opusFrame - samples.length =
        lookahead + (frameCount samples * opusFrame - samples.length - lookahead) := by
      rw [frameCount, lookahead_eq, opusFrame_eq]
      omega
    rw [flatten_chunks, ← length_padded, take_length, length_padded, padded, append_assoc,
      ← replicate_add, ← hp]

theorem planned_length {samples : List F} {frame : Frame F} (h : frame ∈ planned samples) :
    frame.samples.length = opusFrame := by
  obtain ⟨i, hi, rfl⟩ := mem_map.mp h
  have hlt := mem_range.mp hi
  show (((padded samples).drop (i * opusFrame)).take opusFrame).length = opusFrame
  rw [length_take, length_drop, length_padded]
  have hle := Nat.mul_le_mul_right opusFrame (Nat.succ_le_of_lt hlt)
  rw [Nat.succ_mul] at hle
  omega

omit [Zero F] in
theorem frameCount_pos : 0 < frameCount samples := by
  rw [frameCount, lookahead_eq, opusFrame_eq]
  omega

theorem planned_eq : ∃ front,
    planned samples = front ++ [frameAt samples (frameCount samples - 1)] ∧
      (∀ frame ∈ front, frame.ending = .endPage) ∧
      (frameAt samples (frameCount samples - 1)).ending = .endStream ∧
      (frameAt samples (frameCount samples - 1)).granule = opusPreSkip + 2 * samples.length := by
  have hp := frameCount_pos samples
  refine ⟨(range (frameCount samples - 1)).map (frameAt samples), ?_, ?_, ?_, ?_⟩
  · rw [planned]
    conv_lhs => rw [← Nat.succ_pred_eq_of_pos hp, range_succ, map_append]
    rfl
  · intro frame hf
    obtain ⟨i, hi, rfl⟩ := mem_map.mp hf
    have hlt := mem_range.mp hi
    have hne : i + 1 ≠ frameCount samples := by omega
    exact if_neg hne
  · exact if_pos (Nat.succ_pred_eq_of_pos hp)
  · show opusPreSkip + 2 * min ((frameCount samples - 1 + 1) * opusFrame) samples.length = _
    have hle : samples.length ≤ (frameCount samples - 1 + 1) * opusFrame := by
      rw [frameCount, lookahead_eq, opusFrame_eq]
      omega
    rw [Nat.min_eq_right hle]

theorem planned_sorted : ((planned samples).map Frame.granule).Pairwise (· ≤ ·) := by
  rw [planned, map_map, pairwise_map]
  refine pairwise_lt_range.imp fun {i j} hlt => ?_
  have hm : (i + 1) * opusFrame ≤ (j + 1) * opusFrame :=
    Nat.mul_le_mul_right _ (Nat.succ_le_succ hlt.le)
  show opusPreSkip + 2 * min ((i + 1) * opusFrame) samples.length ≤
    opusPreSkip + 2 * min ((j + 1) * opusFrame) samples.length
  omega

omit [Zero F] in
theorem written_foldl (codec : Codec S F) (frames : List (Frame F)) (sink : Sink S) :
    ∃ packets, (frames.foldl (Sink.write codec) sink).written = sink.written ++ packets ∧
      packets.map (fun p => (p.ending, p.granule)) = frames.map fun f => (f.ending, f.granule) := by
  induction frames generalizing sink with
  | nil => exact ⟨[], (append_nil _).symm, rfl⟩
  | cons frame frames ih =>
    obtain ⟨packets, heq, hm⟩ := ih (sink.write codec frame)
    refine ⟨⟨(codec.encode sink.encoder frame.samples).2, frame.ending, frame.granule⟩ :: packets,
      ?_, ?_⟩
    · rw [foldl_cons, heq]
      exact append_assoc _ _ _
    · rw [map_cons, map_cons, hm]

/-- However the samples arrive, the stream is that of the whole signal: its frames are the samples,
the lookahead's silence and the padding, only its last packet ends the stream, and the granule
positions grow up to the samples' end. -/
theorem stream_planned {S F : Type} [Zero F] (codec : Codec S F) (encoder : S) (sampleRate : Nat)
    (pushes : List (List F)) :
    let samples := pushes.flatten
    let sink := wholeSink codec encoder sampleRate samples
    opusStream codec encoder sampleRate pushes = sink.bytes ∧
      (∃ padding < opusFrame, ((planned samples).map Frame.samples).flatten =
        samples ++ replicate lookahead 0 ++ replicate padding 0) ∧
      (∀ frame ∈ planned samples, frame.samples.length = opusFrame) ∧
      (∃ front last, sink.written = front ++ [last] ∧ last.ending = .endStream ∧
        (∀ packet ∈ front, packet.ending = .endPage) ∧
        last.granule = opusPreSkip + 2 * samples.length) ∧
      (sink.written.map Written.granule).Pairwise (· ≤ ·) := by
  intro samples sink
  obtain ⟨packets, hw, hm⟩ := written_foldl codec (planned samples)
    (.start codec encoder sampleRate)
  have hs : (Sink.start codec encoder sampleRate).written = opusHeaders sampleRate := rfl
  rw [hs] at hw
  refine ⟨?_, planned_samples samples, fun _ hf => planned_length hf, ?_, ?_⟩
  · have hn : Upto codec encoder sampleRate ([] ++ pushes.flatten) [] 0 []
        (OpusState.new codec encoder sampleRate) :=
      ⟨rfl, rfl, rfl, rfl, Nat.zero_le _⟩
    exact hn.pushAll rfl (by simp)
  · obtain ⟨front, hpl, hfront, hl, hgr⟩ := planned_eq samples
    rw [hpl, map_append] at hm
    obtain ⟨before, back, rfl, hb, hba⟩ := map_eq_append_iff.mp hm
    obtain ⟨last, rfl, heq⟩ := map_eq_singleton_iff.mp hba
    obtain ⟨he, hend⟩ := Prod.mk.inj heq
    refine ⟨opusHeaders sampleRate ++ before, last, ?_, he.trans hl, ?_, hend.trans hgr⟩
    · rw [append_assoc]
      exact hw
    · intro packet hp
      rcases mem_append.mp hp with hh | hmem
      · simp only [opusHeaders, mem_cons, not_mem_nil, or_false] at hh
        rcases hh with rfl | rfl <;> rfl
      · have hin := mem_map_of_mem (f := fun p : Written => (p.ending, p.granule)) hmem
        rw [hb] at hin
        obtain ⟨frame, hframe, heq'⟩ := mem_map.mp hin
        rw [← (Prod.mk.inj heq').1, hfront frame hframe]
  · have hg : packets.map Written.granule = (planned samples).map Frame.granule := by
      have hsnd := congrArg (map Prod.snd) hm
      rwa [map_map, map_map] at hsnd
    rw [show sink.written = _ from hw, map_append, hg, pairwise_append]
    refine ⟨show [0, 0].Pairwise (· ≤ ·) by decide, planned_sorted samples, ?_⟩
    intro granule hh _ _
    have hz : granule = 0 := by
      simpa [opusHeaders] using hh
    rw [hz]
    exact Nat.zero_le _

end LocalAi.Speech
