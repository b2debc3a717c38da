import LocalAi.Transcription.Decode

/-!
# Transcription, window by window

A recording is transcribed in windows of at most thirty seconds.  Each is decoded, cut into segments
where two timestamps meet, and the next one starts at its last complete timestamp, or behind it.

* `cutWindow`: the segments of a window, and how far to go on.
* `transcribeWindow`: one window of the loop; `transcribe`: the loop.
* `Window`: what one window came to, for the record.

Times are exact; the alignment of words, which gives segments other times, is a parameter.
-/

namespace LocalAi.Transcription

structure Word where
  word : Text
  start : ℚ
  stop : ℚ
  probability : ℚ

structure Segment where
  id : Nat
  /-- The frame where its window started. -/
  seek : Nat
  start : ℚ
  stop : ℚ
  text : Text
  tokens : List Nat
  logprobs : List ℚ
  temperature : ℚ
  avgLogprob : ℚ
  compressionRatio : ℚ
  noSpeechProb : ℚ
  words : List Word

structure WindowOptions where
  task : Task
  language : Nat
  wordTimestamps : Bool
  temperature : Temperature
  conditionOnPreviousText : Bool

def windowFrames : Nat := 3000

/-- Mel frames for each step of a timestamp. -/
def inputStride : Nat := 2

def timePrecision : ℚ := inputStride * 160 / 16000

def secondsOf (frames : Nat) : ℚ := frames * 160 / 16000

def newSegment (tokenizer : WhisperTokenizer) (id seek : Nat) (start stop : ℚ) (tokens : List Nat)
    (logprobs : List ℚ) (result : DecodingResult) : Segment where
  id := id
  seek := seek
  start := start
  stop := stop
  text := tokenizer.decode (tokens.filter fun t => t < tokenizer.special.eot)
  tokens := tokens
  logprobs := logprobs
  temperature := result.temperature
  avgLogprob := result.avgLogprob
  compressionRatio := result.compressionRatio
  noSpeechProb := result.noSpeechProb
  words := []

/-! ### Cutting a window -/

def sinceBegin (sp : SpecialTokens) (t : Nat) : Except Failure Nat :=
  if sp.timestampBegin ≤ t then .ok (t - sp.timestampBegin) else .error .underflow

/-- `&items[from..to]`. -/
def sliceOf {α : Type} (items : List α) (first last : Nat) : Except Failure (List α) :=
  if first ≤ last ∧ last ≤ items.length then .ok ((items.drop first).take (last - first))
  else .error .index

def present {α : Type} (item : Option α) : Except Failure α := item.elim (.error .index) .ok

def SpecialTokens.timestampAt (sp : SpecialTokens) (tokens : List Nat) (i : Nat) : Bool :=
  (tokens[i]?).any sp.isTimestamp

def singleTimestampEnding (sp : SpecialTokens) (tokens : List Nat) : Bool :=
  decide (2 ≤ tokens.length) && !sp.timestampAt tokens (tokens.length - 2) &&
    sp.timestampAt tokens (tokens.length - 1)

def consecutive (sp : SpecialTokens) (tokens : List Nat) : List Nat :=
  ((List.range (tokens.length - 1)).filter fun i =>
    sp.timestampAt tokens i && sp.timestampAt tokens (i + 1)).map (· + 1)

/-- The pieces of a window's tokens between cuts, behind `count` others. -/
def cutPieces (tokenizer : WhisperTokenizer) (firstId seek : Nat) (result : DecodingResult) :
    (count lastSlice : Nat) → (cuts : List Nat) → Except Failure (List Segment)
  | _, _, [] => .ok []
  | count, lastSlice, slice :: cuts => do
    let piece ← sliceOf result.tokens lastSlice slice
    let start ← present piece.head? >>= sinceBegin tokenizer.special
    let stop ← present piece.getLast? >>= sinceBegin tokenizer.special
    let logprobs ← sliceOf result.logprobs lastSlice slice
    let rest ← cutPieces tokenizer firstId seek result (count + 1) slice cuts
    .ok (newSegment tokenizer (firstId + count) seek (secondsOf seek + start * timePrecision)
      (secondsOf seek + stop * timePrecision) piece logprobs result :: rest)

/-- The length of a window that is not cut: up to its last timestamp, if it has one but 0. -/
def uncutDuration (sp : SpecialTokens) (tokens : List Nat) (segmentSize : Nat) :
    Except Failure ℚ :=
  match sp.lastTimestamp? tokens with
  | some last =>
    if last ≠ sp.timestampBegin then (sinceBegin sp last).map fun (n : Nat) => n * timePrecision
    else .ok (secondsOf segmentSize)
  | none => .ok (secondsOf segmentSize)

def cutWindow (tokenizer : WhisperTokenizer) (firstId seek segmentSize : Nat)
    (result : DecodingResult) : Except Failure (List Segment × Nat) :=
  let sp := tokenizer.special
  let cuts := consecutive sp result.tokens
  if cuts = [] then do
    let duration ← uncutDuration sp result.tokens segmentSize
    .ok ([newSegment tokenizer firstId seek (secondsOf seek) (secondsOf seek + duration)
      result.tokens result.logprobs result], segmentSize)
  else if singleTimestampEnding sp result.tokens then do
    let segments ← cutPieces tokenizer firstId seek result 0 0 (cuts ++ [result.tokens.length])
    .ok (segments, segmentSize)
  else do
    let segments ← cutPieces tokenizer firstId seek result 0 0 cuts
    let lastTimestamp ← present result.tokens[cuts.getLastD 0 - 1]? >>= sinceBegin sp
    .ok (segments, lastTimestamp * inputStride)

/-! ### The loop -/

/-- The times that words give to the segments of a window, by index. -/
abbrev Retiming := Nat → ℚ × ℚ × List Word

def retime (segments : List Segment) (times : Retiming) : List Segment :=
  segments.mapIdx fun i segment =>
    { segment with start := (times i).1, stop := (times i).2.1, words := (times i).2.2 }

/-- The last word's end, else the last segment's. -/
def getEnd (segments : List Segment) : Option ℚ :=
  match (segments.flatMap Segment.words).getLast? with
  | some word => some word.stop
  | none => segments.getLast?.map Segment.stop

def roundTiesEven (x : ℚ) : Nat :=
  let down := x.floor
  let rounded :=
    if x - down < 1 / 2 then down
    else if 1 / 2 < x - down then down + 1
    else if down % 2 = 0 then down
    else down + 1
  rounded.toNat

/-- A segment with no length or no text is left out. -/
def Segment.clear (segment : Segment) : Segment :=
  if segment.start = segment.stop ∨ trim segment.text = [] then
    { segment with text := [], tokens := [], logprobs := [], words := [] }
  else segment

/-- What one window came to: where it started and the next one starts, what was decoded, and its
segments before and after those left out were cleared. -/
structure Window where
  seek : Nat
  next : Nat
  result : DecodingResult
  cut : List Segment
  kept : List Segment

/-- Where transcription stands; `heard` is the state of what is told of the segments. -/
structure Progress (σ ρ τ : Type) where
  seek : Nat
  allTokens : List Nat
  allSegments : List Segment
  promptResetSince : Nat
  lastSpeechTimestamp : ℚ
  forward : σ
  rng : ρ
  heard : τ
  windows : List Window

structure Setting (L σ ρ τ : Type) where
  forward : Forward σ L
  numerics : Numerics L ρ
  tokenizer : WhisperTokenizer
  /-- `add_word_timestamps`. -/
  addWordTimestamps : σ → List Segment → (segmentSize : Nat) → (lastSpeech : ℚ) →
    Except Failure (Retiming × σ)
  /-- Sees each window's segments. -/
  onSegments : τ → List Segment → Except Failure τ
  options : WindowOptions
  contentFrames : Nat
  /-- Whether the first window is encoded already, if it is a full one. -/
  firstWindowEncoded : Bool
  initialPrompt : List Nat

/-- A window's segments in time, and the next window's start. -/
structure Placed (σ : Type) where
  segments : List Segment
  seek : Nat
  lastSpeechTimestamp : ℚ
  forward : σ

def DecodingResult.shouldSkip (result : DecodingResult) : Bool :=
  decide (noSpeechThreshold < result.noSpeechProb) && decide (result.avgLogprob ≤ logprobThreshold)

section

variable {L σ ρ τ : Type} (setting : Setting L σ ρ τ)

def encodeWindow (p : Progress σ ρ τ) (segmentSize : Nat) : Except Failure σ :=
  if p.seek = 0 ∧ segmentSize = windowFrames ∧ setting.firstWindowEncoded = true then .ok p.forward
  else setting.forward.encode p.forward p.seek segmentSize

/-- The times of words, where they are asked for, move the segments and the next window. -/
def placeWords (p : Progress σ ρ τ) (s : σ) (segmentSize : Nat) (result : DecodingResult)
    (cut : List Segment) (seek : Nat) : Except Failure (Placed σ) :=
  if setting.options.wordTimestamps then do
    let (times, s) ← setting.addWordTimestamps s cut segmentSize p.lastSpeechTimestamp
    let current := retime cut times
    let seek := match getEnd current with
      | some stop =>
        if !singleTimestampEnding setting.tokenizer.special result.tokens &&
          decide (secondsOf p.seek < stop) then roundTiesEven (stop * 100) else seek
      | none => seek
    .ok ⟨current, seek, (getEnd current).getD p.lastSpeechTimestamp, s⟩
  else .ok ⟨cut, seek, p.lastSpeechTimestamp, s⟩

def keepWindow (p : Progress σ ρ τ) (s : σ) (rng : ρ) (segmentSize : Nat)
    (result : DecodingResult) : Except Failure (Progress σ ρ τ) := do
  let (cut, advance) ← cutWindow setting.tokenizer p.allSegments.length p.seek segmentSize result
  let placed ← placeWords setting p s segmentSize result cut (p.seek + advance)
  let current := placed.segments.map Segment.clear
  let allTokens := p.allTokens ++ current.flatMap Segment.tokens
  let heard ← setting.onSegments p.heard current
  .ok {
    seek := placed.seek
    allTokens := allTokens
    allSegments := p.allSegments ++ current
    promptResetSince :=
      if !setting.options.conditionOnPreviousText || decide (1 / 2 < result.temperature) then
        allTokens.length
      else p.promptResetSince
    lastSpeechTimestamp := placed.lastSpeechTimestamp
    forward := placed.forward
    rng := rng
    heard := heard
    windows := p.windows ++ [⟨p.seek, placed.seek, result, cut, current⟩] }

/-- A window of silence is passed over. -/
def skipWindow (p : Progress σ ρ τ) (s : σ) (rng : ρ) (segmentSize : Nat)
    (result : DecodingResult) : Progress σ ρ τ :=
  { p with
    seek := p.seek + segmentSize
    forward := s
    rng := rng
    windows := p.windows ++ [⟨p.seek, p.seek + segmentSize, result, [], []⟩] }

variable [LinearOrder L] [OrderBot L]

def transcribeWindow (p : Progress σ ρ τ) : Except Failure (Progress σ ρ τ) := do
  let segmentSize := min windowFrames (setting.contentFrames - p.seek)
  let s ← encodeWindow setting p segmentSize
  let prompt ← sliceOf p.allTokens p.promptResetSince p.allTokens.length
  let (result, s, rng) ← decodeWithFallback setting.forward setting.numerics setting.tokenizer
    setting.options.task setting.options.language setting.options.temperature prompt s p.rng
  if result.shouldSkip then .ok (skipWindow p s rng segmentSize result)
  else keepWindow setting p s rng segmentSize result

def transcribeFrom : (left : Nat) → Progress σ ρ τ → Except Failure (Progress σ ρ τ)
  | 0, p => if p.seek < setting.contentFrames then .error .endless else .ok p
  | left + 1, p =>
    if p.seek < setting.contentFrames then transcribeWindow setting p >>= transcribeFrom left
    else .ok p

def Progress.start (s : σ) (rng : ρ) (heard : τ) : Progress σ ρ τ where
  seek := 0
  allTokens := setting.initialPrompt
  allSegments := []
  promptResetSince := 0
  lastSpeechTimestamp := 0
  forward := s
  rng := rng
  heard := heard
  windows := []

/-- A transcription: where it ended, and its tokens without the prompt's. -/
structure Outcome (σ ρ τ : Type) where
  last : Progress σ ρ τ
  textTokens : List Nat

def transcribe (windows : Nat) (s : σ) (rng : ρ) (heard : τ) :
    Except Failure (Outcome σ ρ τ) := do
  let last ← transcribeFrom setting windows (Progress.start setting s rng heard)
  let textTokens ← sliceOf last.allTokens setting.initialPrompt.length last.allTokens.length
  .ok ⟨last, textTokens⟩

end

end LocalAi.Transcription
