import LocalAi.Engine.Rounds

/-!
# Speculation is lossless

The two loops of a round both advance the sampler: verification selects and
observes the accepted drafts, the drain observes every emitted token again.  The
result is plain decoding, for every list of drafts of every round.

The one exception is deliberate: `drain_generation` looks for a grammar failure
before it emits anything, so a round whose last selection failed the response
format emits none of its accepted tokens.
-/

open List

namespace LocalAi.Engine

open LocalAi.Sampling

variable {R M L D C : Type}

/-! ### Plain rounds and plain decoding -/

section Decode

variable (target : Target R M L) (tokenizer : Tokenizer D L)
  (emit : C → String → List L → Bool × C) (prompt : List Token)

theorem emitted_decode_eos {history : List Token} {σ : Sampler R M L}
    (he : (target.select history σ.toSamplerState).result.isEos = true) :
    emitted (target.decode 1 history σ).1 = [] := by
  rw [decode_eos target 0 σ he, emitted_cons_eos he, emitted_nil]

theorem emitted_decode_one {history : List Token} {σ : Sampler R M L}
    (he : (target.select history σ.toSamplerState).result.isEos = false) :
    emitted (target.decode 1 history σ).1
      = [(target.select history σ.toSamplerState).result.tokenId] := by
  rw [decode_succ target 0 σ he]
  exact emitted_cons he []

/-- A plain run emits the first tokens of plain decoding; one that goes on is in
its sampler state. -/
theorem plainRounds_decode (n : Nat) {g : Generation R M L D} (hg : g.Ready) (c : C) :
    let plain := plainRounds target tokenizer emit prompt n g c
    let history := prompt ++ g.tokenIds
    (∃ m, plain.2.1.tokenIds = g.tokenIds ++ emitted (target.decode m history g.sampler).1) ∧
      (plain.1 = .ok () → plain.2.1.done = false →
        plain.2.1.tokenIds = g.tokenIds ++ emitted (target.decode n history g.sampler).1 ∧
        plain.2.1.sampler.toSamplerState
          = (target.decode n history g.sampler).2.toSamplerState) := by
  induction n generalizing g c with
  | zero =>
    refine ⟨⟨0, ?_⟩, fun _ _ => ⟨?_, rfl⟩⟩ <;>
      simp [plainRounds, rounds, Target.decode]
  | succ n ih =>
    have hl : ∀ {outcome : Except Error Unit} {g₁ : Generation R M L D} {c₁ : C},
        round target tokenizer emit prompt [] g c = (outcome, g₁, c₁) →
        (outcome = .ok () → g₁.done = true) →
        plainRounds target tokenizer emit prompt (n + 1) g c = (outcome, g₁, c₁) := by
      intro outcome g₁ c₁ hr he
      cases outcome with
      | error =>
        rw [plainRounds, replicate_succ, rounds_cons_error hg.running (by rw [hr]), hr]
      | ok =>
        rw [plainRounds_succ hg.running hr, plainRounds, rounds_of_done (he rfl)]
    rcases hr : round target tokenizer emit prompt [] g c with ⟨outcome, g₁, c₁⟩
    have hc := round_nil_cases target tokenizer emit prompt hg c
    simp only [hr] at hc
    rcases hc with ⟨heos, ht, he⟩ | ⟨heos, ht, he | ⟨hok, hre, hs⟩⟩
    · rw [hl hr he]
      refine ⟨⟨1, ?_⟩, fun hok hrun => by simp [he hok] at hrun⟩
      rw [emitted_decode_eos target heos, append_nil]
      exact ht
    · rw [hl hr he]
      refine ⟨⟨1, ?_⟩, fun hok hrun => by simp [he hok] at hrun⟩
      rw [emitted_decode_one target heos]
      exact ht
    · subst hok
      obtain ⟨⟨m, hm⟩, hrun⟩ := ih hre c₁
      have hd : ∀ k, (target.decode k (prompt ++ g₁.tokenIds) g₁.sampler).1
            = (target.decode (k + 1) (prompt ++ g.tokenIds) g.sampler).1.tail ∧
          (target.decode k (prompt ++ g₁.tokenIds) g₁.sampler).2.toSamplerState
            = (target.decode (k + 1) (prompt ++ g.tokenIds) g.sampler).2.toSamplerState := by
        intro k
        rw [decode_succ target k g.sampler heos, ht, ← append_assoc]
        exact decode_congr target k _ (by simpa using hs)
      have hem : ∀ k, g₁.tokenIds ++ emitted (target.decode k (prompt ++ g₁.tokenIds) g₁.sampler).1
          = g.tokenIds ++ emitted (target.decode (k + 1) (prompt ++ g.tokenIds) g.sampler).1 := by
        intro k
        rw [(hd k).1, decode_succ target k g.sampler heos, ht, emitted_cons heos, append_assoc]
        rfl
      rw [plainRounds_succ hg.running hr]
      refine ⟨⟨m + 1, hm.trans (hem m)⟩, fun hok hn => ?_⟩
      obtain ⟨htok, hst⟩ := hrun hok hn
      exact ⟨htok.trans (hem n), hst.trans (hd n).2⟩

end Decode

/-! ### The main result -/

/-- **Lossless chain speculation.**  For every target, history, sampler and list
of drafts, verification returns the first samples of plain decoding and accepts
all but the last, and draining them leaves plain decoding's sampler state.  Any
sequence of rounds with any drafts emits tokens of plain decoding and answers as
rounds without drafts do, unless the last selection of a round failed the
response format: then that round emits nothing and the request fails. -/
theorem speculation_lossless (target : Target R M L) (tokenizer : Tokenizer D L)
    (emit : C → String → List L → Bool × C) (prompt : List Token) :
    (∀ (history drafts : List Token) (sampler : Sampler R M L),
      ∃ (verification : Verification) (sampler' : Sampler R M L),
        verifyGreedyDrafts (E := Error) sampler drafts (target.sampleRow history drafts)
          = .ok (verification, sampler') ∧
        verification.samples = (target.decode verification.samples.length history sampler).1 ∧
        verification.accepted + 1 = verification.samples.length ∧
        (sampler'.observe (emitted verification.samples)).toSamplerState
          = (target.decode verification.samples.length history sampler).2.toSamplerState) ∧
    ∀ (sampler : Sampler R M L) (decoder : D) (maxTokens : Nat) (ds : List (List Token)) (c : C),
      let g := Generation.start sampler decoder maxTokens
      let spec := rounds target tokenizer emit prompt ds g c
      let plain := fun n => plainRounds target tokenizer emit prompt n g c
      (∃ m, spec.2.1.tokenIds = emitted (target.decode m prompt sampler).1) ∧
        ((∃ n, SameAnswer spec (plain n) ∧
            (spec.1 = .ok () → spec.2.1.done = false → ds.length ≤ n ∧
              spec.2.1.sampler.toSamplerState
                = (target.decode n prompt sampler).2.toSamplerState)) ∨
          ∃ n, FailedInRound spec (plain n)) := by
  constructor
  · intro history drafts sampler
    have hne := speculate_ne_nil target drafts history sampler.toSamplerState
    refine ⟨_, _, verifyGreedyDrafts_eq target history drafts sampler, ?_, ?_, ?_⟩
    · simpa using (decode_speculate target drafts history sampler).1.symm
    · have := length_pos_iff.mpr hne
      simp only [length_map]
      omega
    · rw [length_map, (decode_speculate target drafts history sampler).2]
      exact observe_emitted_speculate target drafts history sampler.toSamplerState
  · intro sampler decoder maxTokens ds c g spec plain
    cases hz : maxTokens == 0 with
    | true =>
      -- nothing may be generated: the generation starts out done
      have hsp : spec = (.ok (), g, c) := rounds_of_done hz ds c
      rw [hsp]
      refine ⟨⟨0, rfl⟩, Or.inl ⟨0, SameAnswer.refl _, fun _ hr => ?_⟩⟩
      rw [show g.done = true from hz] at hr
      cases hr
    | false =>
      have hg : g.Ready := ⟨rfl, hz, by simp [g, Generation.start]⟩
      have hd : ∀ n, _ := fun n => plainRounds_decode target tokenizer emit prompt n hg c
      simp only [show g.tokenIds = [] from rfl, append_nil, nil_append,
        show g.sampler = sampler from rfl] at hd
      rcases rounds_agree ds hg c with ⟨n, hs, hl⟩ | ⟨n, hf⟩
      · obtain ⟨⟨m, hm⟩, hr⟩ := hd n
        refine ⟨⟨m, hs.tokenIds.trans hm⟩, Or.inl ⟨n, hs, fun hok hn => ?_⟩⟩
        have heq : spec = plain n := hs.state hok (Or.inl hn)
        refine ⟨hl hok hn, ?_⟩
        rw [heq] at hok hn ⊢
        exact (hr hok hn).2
      · obtain ⟨⟨m, hm⟩, -⟩ := hd n
        refine ⟨⟨m, ?_⟩, Or.inr ⟨n, hf⟩⟩
        obtain ⟨failure, -, -, -, -, ht, -⟩ := hf
        exact ht.trans hm

/-! ### A failed response format drops its round -/

/-- A response format that takes one token and then has no mask to offer. -/
def oneTokenFormat : SelectionPath Unit Nat Unit where
  computeMaskOrEos matcher := (if matcher = 0 then .ok [true, true] else .error "no mask", matcher)
  consumeToken matcher _ := (.ok (), matcher + 1)
  eosTokens := [0]
  argmax _ := none
  draw _ _ rng _ := (1, rng)
  logprob _ _ := ()

def oneTokenSampler : Sampler Unit Nat Unit where
  seenTokens := []
  observed := [false, false]
  rng := ()
  grammar := some { matcher := 0, reasoningEnd := none, reasoningMask := none, failure := none }
  records := none

/-- A tokenizer that spells every token `a`, for a consumer that takes all. -/
def letterTokenizer : Tokenizer Unit Unit where
  streamStep _ _ := .ok ((), some "a")
  withBytes record := record

def takeAll (heard : List String) (piece : String) (_ : List Unit) : Bool × List String :=
  (true, heard ++ [piece])

/-- With the draft `[1]`, which the target accepts, the request emits nothing and
fails; without drafts it emits the token `1` first and then fails. -/
theorem speculation_drops_accepted :
    let g := Generation.start oneTokenSampler () 8
    let spec := rounds oneTokenFormat.target letterTokenizer takeAll [] [[1]] g []
    let plain := plainRounds oneTokenFormat.target letterTokenizer takeAll [] 2 g []
    spec.1 = .error (constraintFailed "no mask") ∧ spec.2.1.tokenIds = [] ∧ spec.2.2 = [] ∧
      plain.1 = .error (constraintFailed "no mask") ∧ plain.2.1.tokenIds = [1] ∧
      plain.2.2 = ["a"] ∧
      emitted (oneTokenFormat.target.decode 2 [] oneTokenSampler).1 = [1] := by
  decide

end LocalAi.Engine
