import Mathlib.Data.List.Basic

/-!
# The sampler's state and one target selection

`sampler.rs` keeps four things between two target selections: which tokens were
observed, the random number generator, the response-format grammar and, for a
request that asked for log-probabilities, the queue of records not yet taken.
A selection reads the first three and advances the generator and the grammar;
`Sampler::observe` is the only writer of the observed set.

* `SamplerState.observe`: one token at a time, a token already seen or outside
  the vocabulary changing nothing.
* `Target`: the target model together with the selection path of the sampler,
  any function of the token history and the state.  A selection that leaves a
  grammar failure behind is reported as end-of-sequence.
* `SelectionPath.target`: the selection path of `sampler.rs` is such a target,
  whatever the logits, the draw and the matcher do.
* `SamplerState.observeToken_of_settled`: once a token was observed no later
  selection or observation unsettles it, so observing it again is a no-op.
-/

namespace LocalAi

/-- The errors of the engine (`crate::Error`); the kinds no modelled function
raises by itself are one constructor. -/
inductive Error where
  | generation (message : String)
  | invalidArgument (message : String)
  | contextOverflow (message : String)
  | other (message : String)
deriving DecidableEq

namespace Sampling

/-- A vocabulary id (`u32` in the source). -/
abbrev Token := Nat

/-- The allowed tokens of a selection, one bit per id. -/
abbrev Mask := List Bool

structure SamplingResult where
  tokenId : Token
  isEos : Bool

/-- One request's compiled response format and its progress through it.
`failure` says why the grammar stopped accepting tokens, once it has. -/
structure Grammar (M : Type) where
  matcher : M
  reasoningEnd : Option Token
  reasoningMask : Option Mask
  failure : Option String

structure SamplerState (R M : Type) where
  seenTokens : List Nat
  observed : List Bool
  rng : R
  grammar : Option (Grammar M)

/-- The sampler of a request: its state and, when the request asked for
log-probabilities, one record per target selection not yet taken. -/
structure Sampler (R M L : Type) extends SamplerState R M where
  records : Option (List L)

variable {R M L : Type}

/-- Why the response-format grammar stopped this request, once it has. -/
def SamplerState.grammarFailure (s : SamplerState R M) : Option String :=
  s.grammar.bind Grammar.failure

/-- One iteration of the loop of `Sampler::observe`. -/
def SamplerState.observeToken (s : SamplerState R M) (token : Token) : SamplerState R M :=
  match s.observed[token]? with
  | some false =>
    { s with observed := s.observed.set token true, seenTokens := s.seenTokens ++ [token] }
  | _ => s

def SamplerState.observe (s : SamplerState R M) (tokens : List Token) : SamplerState R M :=
  tokens.foldl SamplerState.observeToken s

def Sampler.observe (s : Sampler R M L) (tokens : List Token) : Sampler R M L :=
  { s with toSamplerState := s.toSamplerState.observe tokens }

/-- The record of the oldest target selection not yet taken. -/
def Sampler.takeLogprob (s : Sampler R M L) : Option L × Sampler R M L :=
  match s.records with
  | some (record :: rest) => (some record, { s with records := some rest })
  | _ => (none, s)

/-! ### Target selections -/

/-- What one target selection gives, and what it advances. -/
structure Selection (R M L : Type) where
  result : SamplingResult
  rng : R
  grammar : Option (Grammar M)
  logprob : L

/-- The state after a selection: the observed set is left alone. -/
def SamplerState.advance (s : SamplerState R M) (sel : Selection R M L) : SamplerState R M :=
  { s with rng := sel.rng, grammar := sel.grammar }

/-- The sampler after a selection: a request that reports log-probabilities
gains one record. -/
def Sampler.advance (s : Sampler R M L) (sel : Selection R M L) : Sampler R M L :=
  { toSamplerState := s.toSamplerState.advance sel,
    records := s.records.map (· ++ [sel.logprob]) }

/-- The target model behind the sampler: any function from the token history
and the sampler's state.  A selection whose grammar failed is an
end-of-sequence, so that verification stops there. -/
structure Target (R M L : Type) where
  select : List Token → SamplerState R M → Selection R M L
  isEos_of_failure : ∀ history s,
    ((select history s).grammar.bind Grammar.failure).isSome → (select history s).result.isEos

/-- One call of the `sample` closure: select, and advance the sampler. -/
def Target.sample (target : Target R M L) (history : List Token) (s : Sampler R M L) :
    SamplingResult × Sampler R M L :=
  ((target.select history s.toSamplerState).result,
    s.advance (target.select history s.toSamplerState))

/-! ### The selection path of the source is a target -/

/-- What the selection path calls and this repository does not define: the
llguidance matcher, and the choice of a token from a (masked) logit row. -/
structure SelectionPath (R M L : Type) where
  computeMaskOrEos : M → Except String Mask × M
  consumeToken : M → Token → Except String Unit × M
  eosTokens : List Token
  /-- The row's argmax, when the block selected it on the device and the
  sampler is greedy without penalties. -/
  argmax : List Token → Option Token
  /-- `Sampler::select`: penalties from the seen tokens, the mask, the draw. -/
  draw : List Token → List Nat → R → Option Mask → Token × R
  logprob : List Token → Token → L

/-- Whether the next selection must be masked. -/
def Grammar.masking (g : Grammar M) : Bool :=
  g.failure.isNone && (g.reasoningEnd.isNone || g.reasoningMask.isSome)

/-- `Grammar::fail`: the first failure is kept. -/
def Grammar.fail (g : Grammar M) (message : String) : Grammar M :=
  { g with failure := some (g.failure.getD message) }

def Mask.isAllowed (mask : Mask) (token : Token) : Bool := mask.getD token false

variable {token : Token} {s : SamplerState R M}

namespace SelectionPath

variable (path : SelectionPath R M L)

def mask (g : Grammar M) : Except String Mask × Grammar M :=
  match g.reasoningEnd, g.reasoningMask with
  | some _, some mask => (.ok mask, g)
  | _, _ =>
    let (outcome, matcher) := path.computeMaskOrEos g.matcher
    (outcome, { g with matcher })

/-- `Grammar::select`: record the one token a selection chose under `mask`. -/
def selectToken (g : Grammar M) (token : Token) (isEos : Bool) (mask : Option Mask) :
    Bool × Grammar M :=
  if g.failure.isSome then
    (false, g)
  else
    match g.reasoningEnd, mask with
    | some stop, none =>
      if g.reasoningMask.isSome then
        (false, g.fail "a reasoning token was selected without the grammar mask")
      else
        (true, if token = stop then { g with reasoningEnd := none } else g)
    | some stop, some mask =>
      if mask.isAllowed token then
        (true, if token = stop then { g with reasoningEnd := none } else g)
      else
        (false, g.fail ("token " ++ toString token ++ " was selected outside the reasoning mask"))
    | none, none => (false, g.fail "an answer token was selected without the grammar mask")
    | none, some mask =>
      if !mask.isAllowed token then
        (false, g.fail ("token " ++ toString token ++ " was selected outside the grammar mask"))
      else if isEos then
        (true, g)
      else
        match path.consumeToken g.matcher token with
        | (.ok (), matcher) => (true, { g with matcher })
        | (.error error, matcher) => (false, Grammar.fail { g with matcher } error)

/-- `Sampler::failed`: a selection the grammar refused. -/
def failed : SamplingResult :=
  { tokenId := path.eosTokens.head?.getD 0, isEos := true }

/-- `Sampler::grammar_mask`; `none` once the grammar has failed. -/
def grammarMask (grammar : Option (Grammar M)) : Option (Option Mask) × Option (Grammar M) :=
  match grammar with
  | none => (some none, none)
  | some g =>
    if g.failure.isSome then
      (none, some g)
    else if !g.masking then
      (some none, some g)
    else
      match path.mask g with
      | (.ok mask, g') => (some (some mask), some g')
      | (.error error, g') => (none, some (g'.fail error))

/-- `Sampler::finish`: the chosen token, recorded on the grammar exactly once. -/
def finish (grammar : Option (Grammar M)) (token : Token) (mask : Option Mask) :
    SamplingResult × Option (Grammar M) :=
  let result : SamplingResult := ⟨token, path.eosTokens.contains token⟩
  match grammar with
  | none => (result, none)
  | some g =>
    match path.selectToken g token result.isEos mask with
    | (true, g') => (result, some g')
    | (false, g') => (path.failed, some g')

/-- `Sampler::select_plain`: the device's argmax when nothing masks it, else
the draw from the masked row. -/
def selectPlain (history : List Token) (s : SamplerState R M) :
    SamplingResult × R × Option (Grammar M) :=
  match path.argmax history, s.grammar.any Grammar.masking with
  | some token, false =>
    let (result, grammar) := path.finish s.grammar token none
    (result, s.rng, grammar)
  | _, _ =>
    match path.grammarMask s.grammar with
    | (none, grammar) => (path.failed, s.rng, grammar)
    | (some mask, grammar) =>
      let (token, rng) := path.draw history s.seenTokens s.rng mask
      let (result, grammar) := path.finish grammar token mask
      (result, rng, grammar)

theorem selectToken_failure {g : Grammar M} {isEos : Bool} {mask : Option Mask}
    {g' : Grammar M} (h : path.selectToken g token isEos mask = (true, g')) :
    g'.failure = none := by
  cases hg : g.failure with
  | some => simp [selectToken, hg] at h
  | none =>
    -- every accepting branch keeps `failure` as it was
    have he : ∀ stop,
        (if token = stop then { g with reasoningEnd := none, failure := none } else g).failure
          = none := fun stop => by split <;> first | rfl | exact hg
    simp only [selectToken, hg, Option.isSome_none, Bool.false_eq_true, if_false] at h
    split at h
    · next stop _ =>
      split at h
      · simp at h
      · exact (Prod.mk.inj h).2 ▸ he stop
    · next stop _ _ =>
      split at h
      · exact (Prod.mk.inj h).2 ▸ he stop
      · simp at h
    · simp at h
    · split at h
      · simp at h
      · split at h
        · exact (Prod.mk.inj h).2 ▸ hg
        · split at h
          · exact (Prod.mk.inj h).2 ▸ rfl
          · simp at h

/-- A selection that leaves a failure on the grammar is an end-of-sequence. -/
theorem finish_failure {grammar : Option (Grammar M)} {mask : Option Mask}
    (h : ((path.finish grammar token mask).2.bind Grammar.failure).isSome) :
    (path.finish grammar token mask).1.isEos = true := by
  cases grammar with
  | none => simp [finish] at h
  | some g =>
    cases hs : path.selectToken g token (path.eosTokens.contains token) mask with
    | mk accepted =>
      cases accepted with
      | false => simp only [finish, hs]; rfl
      | true =>
        simp only [finish, hs, Option.bind_some, path.selectToken_failure hs] at h
        simp at h

theorem selectPlain_failure {history : List Token}
    (h : ((path.selectPlain history s).2.2.bind Grammar.failure).isSome) :
    (path.selectPlain history s).1.isEos = true := by
  unfold selectPlain at h ⊢
  split at h
  · exact path.finish_failure h
  · cases hm : path.grammarMask s.grammar with
    | mk allowed =>
      cases allowed with
      | none => rfl
      | some =>
        simp only [hm] at h
        exact path.finish_failure h

/-- **The sampler's own selection path**, over any model and any matcher. -/
def target : Target R M L where
  select history s :=
    { result := (path.selectPlain history s).1,
      rng := (path.selectPlain history s).2.1,
      grammar := (path.selectPlain history s).2.2,
      logprob := path.logprob history (path.selectPlain history s).1.tokenId }
  isEos_of_failure _ _ h := path.selectPlain_failure h

end SelectionPath

/-! ### Observed tokens stay observed -/

/-- Observing `token` changes nothing any more. -/
def SamplerState.Settled (s : SamplerState R M) (token : Token) : Prop :=
  s.observed[token]? ≠ some false

theorem SamplerState.observeToken_of_settled (h : s.Settled token) : s.observeToken token = s := by
  unfold observeToken
  split
  · next hf => exact absurd hf h
  · rfl

theorem SamplerState.settled_observeToken (s : SamplerState R M) (token : Token) :
    (s.observeToken token).Settled token := by
  unfold observeToken Settled
  split
  · next hf =>
    have hlt : token < s.observed.length := (List.getElem?_eq_some_iff.mp hf).1
    simp [hlt]
  · next hne => exact hne

theorem SamplerState.Settled.observeToken
    (h : s.Settled token) (other : Token) : (s.observeToken other).Settled token := by
  unfold SamplerState.observeToken
  split
  · next hf =>
    unfold Settled
    by_cases he : other = token
    · subst he
      exact absurd hf h
    · rw [List.getElem?_set_ne he]
      exact h
  · exact h

theorem SamplerState.Settled.advance
    (h : s.Settled token) (sel : Selection R M L) : (s.advance sel).Settled token := h

@[simp] theorem SamplerState.observe_nil (s : SamplerState R M) : s.observe [] = s := rfl

@[simp] theorem SamplerState.observe_cons (s : SamplerState R M) (t : Token) (ts : List Token) :
    s.observe (t :: ts) = (s.observeToken t).observe ts := rfl

@[simp] theorem Sampler.observe_records (s : Sampler R M L) (ts : List Token) :
    (s.observe ts).records = s.records := rfl

@[simp] theorem Sampler.observe_state (s : Sampler R M L) (ts : List Token) :
    (s.observe ts).toSamplerState = s.toSamplerState.observe ts := rfl

@[simp] theorem Sampler.advance_state (s : Sampler R M L) (sel : Selection R M L) :
    (s.advance sel).toSamplerState = s.toSamplerState.advance sel := rfl

@[simp] theorem Sampler.advance_records (s : Sampler R M L) (sel : Selection R M L) :
    (s.advance sel).records = s.records.map (· ++ [sel.logprob]) := rfl

@[simp] theorem SamplerState.grammarFailure_advance (s : SamplerState R M) (sel : Selection R M L) :
    (s.advance sel).grammarFailure = sel.grammar.bind Grammar.failure := rfl

@[simp] theorem SamplerState.grammarFailure_observeToken (s : SamplerState R M) (t : Token) :
    (s.observeToken t).grammarFailure = s.grammarFailure := by
  unfold observeToken
  split <;> rfl

end Sampling

end LocalAi
