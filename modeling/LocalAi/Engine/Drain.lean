import LocalAi.Sampling.Verify

/-!
# Draining a round

`BonsaiEngine::drain_generation` emits the samples a round left pending: each is
observed again, its text goes to the consumer with the log-probabilities held
so far, and the generation ends at end-of-sequence, at its token limit or when
the consumer refuses a piece.  A recorded grammar failure is checked before
anything is emitted.

The loop is defined one sample at a time (`drainSample`); `Flow` is how an
iteration ends.
-/

namespace LocalAi.Engine

open LocalAi.Sampling

inductive StopReason where
  | eos
  | tokenLimit
  | cancelled
  | stopped
deriving DecidableEq

/-- What the drain asks of the tokenizer. -/
structure Tokenizer (D L : Type) where
  streamStep : D → Token → Except Error (D × Option String)
  /-- A record with its bytes filled in (`token_bytes`). -/
  withBytes : L → L

/-- The part of an `ActiveGeneration` that a round and its drain use. -/
structure Generation (R M L D : Type) where
  sampler : Sampler R M L
  decoder : D
  pending : List SamplingResult
  logprobs : List L
  tokenIds : List Token
  sampledTokens : Nat
  maxTokens : Nat
  stopReason : StopReason
  done : Bool
  seed : Option Token

variable {R M L D C : Type}

/-- How one iteration of the drain loop ends. -/
inductive Flow where
  | next
  | stop
  | fail (error : Error)

section Drain

variable (tokenizer : Tokenizer D L) (emit : C → String → List L → Bool × C)

/-- The end of an iteration: the token limit, then the seed. -/
def finishSample (token : Token) (g : Generation R M L D) : Flow × Generation R M L D :=
  if g.sampledTokens ≥ g.maxTokens then
    (.stop, { g with done := true })
  else if g.pending.isEmpty then
    (.next, { g with seed := some token })
  else
    (.next, g)

/-- The text of `token`, streamed to the consumer with the log-probabilities
held so far when it completes a piece.  The flag says whether to go on. -/
def streamSample (token : Token) (decoder : D) (logprobs : List L) (c : C) :
    Except Error (Bool × D × List L × C) :=
  match tokenizer.streamStep decoder token with
  | .error error => .error error
  | .ok (decoder, none) => .ok (true, decoder, logprobs, c)
  | .ok (decoder, some piece) =>
    let (accepted, c) := emit c piece logprobs
    .ok (accepted, decoder, [], c)

/-- One iteration of the drain loop, with `sample` already popped. -/
def drainSample (sample : SamplingResult) (g : Generation R M L D) (c : C) :
    Flow × Generation R M L D × C :=
  let (logprob, sampler) := g.sampler.takeLogprob
  let g := { g with sampler, sampledTokens := g.sampledTokens + 1 }
  if sample.isEos then
    (.stop, { g with stopReason := .eos, done := true }, c)
  else
    let g :=
      { g with
        tokenIds := g.tokenIds ++ [sample.tokenId],
        sampler := g.sampler.observe [sample.tokenId],
        logprobs := g.logprobs ++ (logprob.map tokenizer.withBytes).toList }
    match streamSample tokenizer emit sample.tokenId g.decoder g.logprobs c with
    | .error error => (.fail error, g, c)
    | .ok (true, decoder, logprobs, c) =>
      let (flow, g) := finishSample sample.tokenId { g with decoder, logprobs }
      (flow, g, c)
    | .ok (false, decoder, logprobs, c) =>
      (.stop, { g with
          decoder, logprobs,
          stopReason := .stopped,
          sampledTokens := g.sampledTokens + g.pending.length,
          done := true }, c)

/-- The loop `while let Some(sample) = generation.pending.pop_front()`. -/
def drainPending : List SamplingResult → Generation R M L D → C → Flow × Generation R M L D × C
  | [], g, c => (.next, g, c)
  | sample :: rest, g, c =>
    match drainSample tokenizer emit sample { g with pending := rest } c with
    | (.next, g, c) => drainPending rest g c
    | ended => ended

/-- The message of the error a failed response format ends a request with. -/
def constraintFailed (failure : String) : Error :=
  .generation ("response format constraint failed: " ++ failure)

/-- The error of a running generation that has neither a sample nor a seed. -/
def noSample : Error := .generation "generation has no sample to continue from"

/-- The tail of `drain_generation`, after its loop. -/
def closeDrain : Flow × Generation R M L D × C → Except Error Unit × Generation R M L D × C
  | (.fail error, g, c) => (.error error, g, c)
  | (_, g, c) =>
    if g.done then
      (.ok (), { g with pending := [], seed := none }, c)
    else if g.seed.isNone then
      (.error noSample, g, c)
    else
      (.ok (), g, c)

def drainGeneration (g : Generation R M L D) (c : C) :
    Except Error Unit × Generation R M L D × C :=
  let g := { g with seed := none }
  match g.sampler.grammarFailure with
  | some failure => (.error (constraintFailed failure), g, c)
  | none => closeDrain (drainPending tokenizer emit g.pending g c)

/-! ### The loop, one sample at a time -/

section Loop

variable {tokenizer emit} {sample : SamplingResult} {rest : List SamplingResult}
  {g g' : Generation R M L D} {c c' : C}

theorem drainPending_next
    (h : drainSample tokenizer emit sample { g with pending := rest } c = (.next, g', c')) :
    drainPending tokenizer emit (sample :: rest) g c = drainPending tokenizer emit rest g' c' := by
  simp only [drainPending, h]

theorem drainPending_stop
    (h : drainSample tokenizer emit sample { g with pending := rest } c = (.stop, g', c')) :
    drainPending tokenizer emit (sample :: rest) g c = (.stop, g', c') := by
  simp only [drainPending, h]

theorem drainPending_fail {error : Error}
    (h : drainSample tokenizer emit sample { g with pending := rest } c = (.fail error, g', c')) :
    drainPending tokenizer emit (sample :: rest) g c = (.fail error, g', c') := by
  simp only [drainPending, h]

end Loop

def Generation.record (g : Generation R M L D) (token : Token) : Generation R M L D :=
  { g with
    sampler := g.sampler.takeLogprob.2.observe [token],
    sampledTokens := g.sampledTokens + 1,
    tokenIds := g.tokenIds ++ [token],
    logprobs := g.logprobs ++ (g.sampler.takeLogprob.1.map tokenizer.withBytes).toList }

/-- An iteration for a sample that is not end-of-sequence, the token recorded first. -/
theorem drainSample_eq {sample : SamplingResult} (he : sample.isEos = false)
    (g : Generation R M L D) (c : C) : drainSample tokenizer emit sample g c
      = let g' := g.record tokenizer sample.tokenId
        match streamSample tokenizer emit sample.tokenId g'.decoder g'.logprobs c with
        | .error error => (.fail error, g', c)
        | .ok (true, decoder, logprobs, c) =>
          ((finishSample sample.tokenId { g' with decoder, logprobs }).1,
            (finishSample sample.tokenId { g' with decoder, logprobs }).2, c)
        | .ok (false, decoder, logprobs, c) =>
          (.stop, { g' with
              decoder, logprobs,
              stopReason := .stopped,
              sampledTokens := g'.sampledTokens + g'.pending.length,
              done := true }, c) := by
  unfold drainSample
  simp only [he, Bool.false_eq_true, if_false]
  rfl

theorem drainGeneration_of_running {g : Generation R M L D}
    (hf : g.sampler.grammarFailure = none) (c : C) : drainGeneration tokenizer emit g c
      = closeDrain (drainPending tokenizer emit g.pending { g with seed := none } c) := by
  simp only [drainGeneration, hf]

end Drain

end LocalAi.Engine
