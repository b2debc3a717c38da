import LocalAi.Engine.Drain

/-!
# Rounds with drafts against rounds without

A round verifies a list of drafts after the tokens emitted so far and drains the
samples.  A run is any sequence of rounds; plain decoding is the run whose
rounds have no drafts.

* `drain_cons`: a round whose first draft is accepted is the plain round of that
  token followed by the round of the remaining drafts.
* `rounds_agree`: a whole run with arbitrary drafts answers as a plain run does,
  unless a selection inside one of its rounds failed the response format.
* `plainRounds_decode`: the plain run emits the tokens of plain decoding.
-/

open List

namespace LocalAi.Engine

open LocalAi.Sampling

variable {R M L D C : Type}

section Rounds

variable (target : Target R M L) (tokenizer : Tokenizer D L)
  (emit : C → String → List L → Bool × C) (prompt : List Token)

/-- A generation before its first round. -/
def Generation.start (sampler : Sampler R M L) (decoder : D) (maxTokens : Nat) :
    Generation R M L D :=
  { sampler, decoder, maxTokens,
    pending := [], logprobs := [], tokenIds := [], sampledTokens := 0,
    stopReason := .tokenLimit, done := maxTokens == 0, seed := none }

/-- One round: verify `drafts` after the tokens emitted so far, drain the samples. -/
def round (drafts : List Token) (g : Generation R M L D) (c : C) :
    Except Error Unit × Generation R M L D × C :=
  match verifyGreedyDrafts g.sampler drafts (target.sampleRow (prompt ++ g.tokenIds) drafts) with
  | .error error => (.error error, g, c)
  | .ok (verification, sampler) =>
    drainGeneration tokenizer emit
      { g with sampler, pending := g.pending ++ verification.samples } c

def rounds : List (List Token) → Generation R M L D → C →
    Except Error Unit × Generation R M L D × C
  | [], g, c => (.ok (), g, c)
  | drafts :: rest, g, c =>
    if g.done then
      (.ok (), g, c)
    else
      match round target tokenizer emit prompt drafts g c with
      | (.ok (), g, c) => rounds rest g c
      | failed => failed

/-! ### One round -/

/-- The generation with the samples of `spec` pending. -/
def Generation.submit (g : Generation R M L D) (sels : List (Selection R M L))
    (s : SamplerState R M) : Generation R M L D :=
  { g with sampler := g.sampler.after sels s, pending := sels.map Selection.result }

variable {g : Generation R M L D}

theorem round_eq (drafts : List Token) (hp : g.pending = []) (c : C) :
    round target tokenizer emit prompt drafts g c
      = let spec := target.speculate drafts (prompt ++ g.tokenIds) g.sampler.toSamplerState
        drainGeneration tokenizer emit (g.submit spec.1 spec.2) c := by
  unfold round
  rw [verifyGreedyDrafts_eq]
  simp [Generation.submit, hp]

/-- Taking the first record before or after the later selections is the same. -/
theorem takeLogprob_after (σ : Sampler R M L) (sel : Selection R M L)
    (sels : List (Selection R M L)) (s s' : SamplerState R M) :
    (σ.after (sel :: sels) s').takeLogprob
      = ((σ.after [sel] s).takeLogprob.1, ((σ.after [sel] s).takeLogprob.2).after sels s') := by
  rcases hr : σ.records with _ | _ | ⟨r, rs⟩ <;> simp [Sampler.after, Sampler.takeLogprob, hr]

theorem takeLogprob_state (σ : Sampler R M L) :
    σ.takeLogprob.2.toSamplerState = σ.toSamplerState := by
  unfold Sampler.takeLogprob
  split <;> rfl

/-- Two ends of a run that the caller and the consumer cannot tell apart; a run
that goes on, or that ended at end-of-sequence, is in the same state too. -/
structure SameAnswer (spec plain : Except Error Unit × Generation R M L D × C) : Prop where
  outcome : spec.1 = plain.1
  tokenIds : spec.2.1.tokenIds = plain.2.1.tokenIds
  consumer : spec.2.2 = plain.2.2
  done : spec.2.1.done = plain.2.1.done
  stopReason : spec.2.1.stopReason = plain.2.1.stopReason
  state : spec.1 = .ok () → spec.2.1.done = false ∨ spec.2.1.stopReason = .eos → spec = plain

theorem SameAnswer.refl (r : Except Error Unit × Generation R M L D × C) : SameAnswer r r :=
  ⟨rfl, rfl, rfl, rfl, rfl, fun _ _ => rfl⟩

/-- What a round needs of the generation it starts from. -/
structure Generation.Ready (g : Generation R M L D) : Prop where
  pending : g.pending = []
  running : g.done = false
  stopReason : g.stopReason ≠ .eos

/-- Recording the first of several samples is recording it alone, with the later
selections already made: observing an accepted token again changes nothing. -/
theorem record_submit (g : Generation R M L D) (sel : Selection R M L)
    (sels : List (Selection R M L)) (s : SamplerState R M) {s' : SamplerState R M} {token : Token}
    (hs : s'.Settled token) :
    Generation.record tokenizer { g with sampler := g.sampler.after (sel :: sels) s' } token
      = let g' := Generation.record tokenizer { g with sampler := g.sampler.after [sel] s } token
        { g' with sampler := g'.sampler.after sels s' } := by
  have ho : ∀ σ : Sampler R M L, (σ.after sels s').observe [token]
      = (σ.observe [token]).after sels s' := by
    intro σ
    simp [Sampler.observe, Sampler.after, SamplerState.observeToken_of_settled hs]
  simp only [Generation.record, takeLogprob_after g.sampler sel sels s s', ho]

/-- Draining the samples `sel :: sels` begins as draining `sel` alone does.  If
that ends the generation, both answers are the same; if not, the rest is drained
as from a fresh round. -/
theorem drain_cons (hg : g.Ready) {sel : Selection R M L} {sels : List (Selection R M L)}
    {s s' : SamplerState R M} (hne : sels ≠ []) (he : sel.result.isEos = false)
    (hs : s.grammarFailure = none) (hs' : s'.grammarFailure = none)
    (hset : s'.Settled sel.result.tokenId) (c : C) :
    let all := drainGeneration tokenizer emit (g.submit (sel :: sels) s') c
    let one := drainGeneration tokenizer emit (g.submit [sel] s) c
    (SameAnswer all one ∧ one.2.1.tokenIds = g.tokenIds ++ [sel.result.tokenId] ∧
        (one.1 = .ok () → one.2.1.done = true)) ∨
      ∃ g' c', one = (.ok (), g', c') ∧ g'.Ready ∧
        g'.tokenIds = g.tokenIds ++ [sel.result.tokenId] ∧
        g'.sampler.toSamplerState = s.observeToken sel.result.tokenId ∧
        all = drainGeneration tokenizer emit (g'.submit sels s') c' := by
  intro all one
  obtain ⟨later, tail, hr⟩ : ∃ r rs, sels.map Selection.result = r :: rs := by
    cases sels with
    | nil => exact absurd rfl hne
    | cons => exact ⟨_, _, rfl⟩
  -- `g₁` is the generation once the first token is recorded, in the round of one sample
  obtain ⟨g₁, hg₁⟩ : ∃ g₁, g₁ = Generation.record tokenizer
    { g with sampler := g.sampler.after [sel] s, seed := none, pending := [] }
      sel.result.tokenId := ⟨_, rfl⟩
  have hstate : g₁.sampler.toSamplerState = s.observeToken sel.result.tokenId := by
    simp only [hg₁, Generation.record, Sampler.observe_state, takeLogprob_state,
      SamplerState.observe_cons, SamplerState.observe_nil]
    rfl
  have hd : g₁.done = false := hg₁ ▸ hg.running
  have hrsn : g₁.stopReason ≠ .eos := hg₁ ▸ hg.stopReason
  have hp : g₁.pending = [] := hg₁ ▸ rfl
  have ht : g₁.tokenIds = g.tokenIds ++ [sel.result.tokenId] := hg₁ ▸ rfl
  have hseed : g₁.seed = none := hg₁ ▸ rfl
  have hrec : Generation.record tokenizer
      { g with sampler := g.sampler.after (sel :: sels) s', seed := none, pending := later :: tail }
        sel.result.tokenId
      = { g₁ with sampler := g₁.sampler.after sels s', pending := later :: tail } := by
    rw [hg₁]
    exact record_submit tokenizer { g with seed := none, pending := later :: tail } sel sels s hset
  have ha : all = closeDrain (drainPending tokenizer emit (sel.result :: later :: tail)
      { g.submit (sel :: sels) s' with seed := none } c) := by
    rw [← hr]
    exact drainGeneration_of_running tokenizer emit (g := g.submit (sel :: sels) s') hs' c
  have ho : one = closeDrain (drainPending tokenizer emit [sel.result]
      { g.submit [sel] s with seed := none } c) :=
    drainGeneration_of_running tokenizer emit (g := g.submit [sel] s) hs c
  have hsampleAll := drainSample_eq tokenizer emit he
    { g with sampler := g.sampler.after (sel :: sels) s', seed := none, pending := later :: tail } c
  have hsampleOne := drainSample_eq tokenizer emit he
    { g with sampler := g.sampler.after [sel] s, seed := none, pending := [] } c
  rw [hrec] at hsampleAll
  rw [← hg₁] at hsampleOne
  rcases hst : streamSample tokenizer emit sel.result.tokenId g₁.decoder g₁.logprobs c with
    error | ⟨accepted, decoder, logprobs, c'⟩
  · left
    simp only [hst] at hsampleAll hsampleOne
    rw [ha, ho, drainPending_fail (g := { g.submit (sel :: sels) s' with seed := none }) hsampleAll, drainPending_fail (g := { g.submit [sel] s with seed := none }) hsampleOne]
    exact ⟨⟨rfl, rfl, rfl, rfl, rfl, by simp [closeDrain]⟩, ht, by simp [closeDrain]⟩
  · cases accepted with
    | false =>
      left
      simp only [hst] at hsampleAll hsampleOne
      rw [ha, ho, drainPending_stop (g := { g.submit (sel :: sels) s' with seed := none }) hsampleAll, drainPending_stop (g := { g.submit [sel] s with seed := none }) hsampleOne]
      exact ⟨⟨rfl, rfl, rfl, rfl, rfl, by simp [closeDrain]⟩, ht, by simp [closeDrain]⟩
    | true =>
      simp only [hst, finishSample] at hsampleAll hsampleOne
      by_cases hl : g₁.sampledTokens ≥ g₁.maxTokens
      · left
        simp only [hl, if_true] at hsampleAll hsampleOne
        rw [ha, ho, drainPending_stop (g := { g.submit (sel :: sels) s' with seed := none }) hsampleAll, drainPending_stop (g := { g.submit [sel] s with seed := none }) hsampleOne]
        exact ⟨⟨rfl, rfl, rfl, rfl, rfl, fun _ h => absurd h (by simp [closeDrain, hrsn])⟩,
          ht, by simp [closeDrain]⟩
      · right
        simp only [hl, if_false, hp, isEmpty_nil, isEmpty_cons, if_true,
          Bool.false_eq_true] at hsampleAll hsampleOne
        refine ⟨{ g₁ with decoder, logprobs, seed := some sel.result.tokenId }, c', ?_,
          ⟨hp, hd, hrsn⟩, ht, hstate, ?_⟩
        · rw [ho, drainPending_next (g := { g.submit [sel] s with seed := none }) hsampleOne]
          simp [drainPending, closeDrain, hd, hp]
        · rw [ha, drainPending_next (g := { g.submit (sel :: sels) s' with seed := none }) hsampleAll, drainGeneration_of_running tokenizer emit hs']
          simp only [Generation.submit, hr, hseed]

/-! ### Runs -/

/-- A run of `n` rounds without drafts. -/
def plainRounds (n : Nat) (g : Generation R M L D) (c : C) :
    Except Error Unit × Generation R M L D × C :=
  rounds target tokenizer emit prompt (List.replicate n []) g c

/-- The run `spec` failed the response format inside its last round, where the
plain run `plain` had come to before that round. -/
def FailedInRound (spec plain : Except Error Unit × Generation R M L D × C) : Prop :=
  ∃ failure, spec.1 = .error (constraintFailed failure) ∧
    spec.2.1.sampler.grammarFailure = some failure ∧
    plain.1 = .ok () ∧ plain.2.1.done = false ∧
    spec.2.1.tokenIds = plain.2.1.tokenIds ∧ spec.2.2 = plain.2.2

variable {target tokenizer emit prompt}

theorem rounds_of_done (hd : g.done = true) (ds : List (List Token)) (c : C) :
    rounds target tokenizer emit prompt ds g c = (.ok (), g, c) := by
  cases ds with
  | nil => rfl
  | cons => simp [rounds, hd]

variable {c c' : C} {g' : Generation R M L D}

theorem rounds_cons_ok {drafts : List Token}
    (hd : g.done = false) (h : round target tokenizer emit prompt drafts g c = (.ok (), g', c'))
    (rest : List (List Token)) : rounds target tokenizer emit prompt (drafts :: rest) g c
      = rounds target tokenizer emit prompt rest g' c' := by
  simp [rounds, hd, h]

theorem rounds_cons_error {drafts : List Token} {error : Error} (hd : g.done = false)
    (h : (round target tokenizer emit prompt drafts g c).1 = .error error)
    (rest : List (List Token)) : rounds target tokenizer emit prompt (drafts :: rest) g c
      = round target tokenizer emit prompt drafts g c := by
  rcases hr : round target tokenizer emit prompt drafts g c with ⟨outcome, g', c'⟩
  rw [hr] at h
  subst h
  simp [rounds, hd, hr]

theorem rounds_singleton (hd : g.done = false) (c : C) (drafts : List Token) :
    rounds target tokenizer emit prompt [drafts] g c
      = round target tokenizer emit prompt drafts g c := by
  rcases hr : round target tokenizer emit prompt drafts g c with ⟨_ | _, g', c'⟩
  · rw [rounds_cons_error hd (by rw [hr]), hr]
  · rw [rounds_cons_ok hd hr]
    rfl

theorem rounds_append {ds : List (List Token)}
    (h : rounds target tokenizer emit prompt ds g c = (.ok (), g', c')) (rest : List (List Token)) :
    rounds target tokenizer emit prompt (ds ++ rest) g c
      = rounds target tokenizer emit prompt rest g' c' := by
  induction ds generalizing g c with
  | nil =>
    cases h
    rfl
  | cons drafts ds ih =>
    cases hd : g.done with
    | true =>
      rw [rounds_of_done hd] at h
      cases h
      rw [rounds_of_done hd, rounds_of_done hd]
    | false =>
      rcases hr : round target tokenizer emit prompt drafts g c with ⟨_ | _, g₁, c₁⟩
      · rw [rounds_cons_error hd (by rw [hr]), hr] at h
        cases h
      · rw [rounds_cons_ok hd hr] at h
        rw [cons_append, rounds_cons_ok hd hr]
        exact ih h

theorem plainRounds_succ (hd : g.done = false)
    (h : round target tokenizer emit prompt [] g c = (.ok (), g', c')) (n : Nat) :
    plainRounds target tokenizer emit prompt (n + 1) g c
      = plainRounds target tokenizer emit prompt n g' c' :=
  rounds_cons_ok hd h _

theorem grammarFailure_of_not_eos {history : List Token} {s : SamplerState R M}
    (he : (target.select history s).result.isEos = false) :
    (s.advance (target.select history s)).grammarFailure = none := by
  rw [SamplerState.grammarFailure_advance]
  by_contra hne
  have h := target.isEos_of_failure history s (Option.isSome_iff_ne_none.mpr hne)
  rw [he] at h
  cases h

variable (target tokenizer emit prompt) in
/-- What a round without drafts does: end-of-sequence emits nothing and ends the
run; any other token is emitted, and the run ends or is ready for the next. -/
theorem round_nil_cases (hg : g.Ready) (c : C) : let r := round target tokenizer emit prompt [] g c
    let sel := target.select (prompt ++ g.tokenIds) g.sampler.toSamplerState
    (sel.result.isEos = true ∧ r.2.1.tokenIds = g.tokenIds ∧ (r.1 = .ok () → r.2.1.done = true)) ∨
      (sel.result.isEos = false ∧ r.2.1.tokenIds = g.tokenIds ++ [sel.result.tokenId] ∧
        ((r.1 = .ok () → r.2.1.done = true) ∨ (r.1 = .ok () ∧ r.2.1.Ready ∧
          r.2.1.sampler.toSamplerState
            = (g.sampler.toSamplerState.advance sel).observeToken sel.result.tokenId))) := by
  intro r sel
  have hr : r = drainGeneration tokenizer emit
      (g.submit [sel] (g.sampler.toSamplerState.advance sel)) c :=
    round_eq target tokenizer emit prompt [] hg.pending c
  cases he : sel.result.isEos with
  | true =>
    left
    cases hf : (g.sampler.toSamplerState.advance sel).grammarFailure with
    | some failure =>
      have hfa : (g.submit [sel]
        (g.sampler.toSamplerState.advance sel)).sampler.grammarFailure = some failure := hf
      rw [hr]
      simp only [drainGeneration, hfa]
      exact ⟨trivial, rfl, by simp⟩
    | none =>
      rw [hr, drainGeneration_of_running tokenizer emit hf]
      simp [Generation.submit, drainPending, drainSample, he, closeDrain]
  | false =>
    right
    -- a second sample plays no part in what the first one does
    rcases drain_cons tokenizer emit hg (cons_ne_nil sel []) he
        (grammarFailure_of_not_eos he)
        ((SamplerState.grammarFailure_observeToken _ _).trans (grammarFailure_of_not_eos he))
        (SamplerState.settled_observeToken _ _) c with
      ⟨-, ht, hend⟩ | ⟨g', c', hrun, hg', ht, hs, -⟩
    · exact ⟨rfl, hr ▸ ht, Or.inl (hr ▸ hend)⟩
    · rw [hr, hrun]
      exact ⟨rfl, ht, Or.inr ⟨rfl, hg', hs⟩⟩

variable (target tokenizer emit prompt) in
/-- **One round with any drafts** is a run of plain rounds, unless a selection
inside it failed the response format. -/
theorem round_agree (drafts : List Token) (hg : g.Ready) (c : C) :
    (∃ n, SameAnswer (round target tokenizer emit prompt drafts g c)
        (plainRounds target tokenizer emit prompt (n + 1) g c)) ∨
      ∃ n, FailedInRound (round target tokenizer emit prompt drafts g c)
        (plainRounds target tokenizer emit prompt n g c) := by
  have hp : ∀ {g : Generation R M L D}, g.done = false → ∀ c,
      plainRounds target tokenizer emit prompt 1 g c
        = round target tokenizer emit prompt [] g c := fun hd c => rounds_singleton hd c []
  induction drafts generalizing g c with
  | nil =>
    refine Or.inl ⟨0, ?_⟩
    rw [hp hg.running]
    exact SameAnswer.refl _
  | cons draft drafts ih =>
    by_cases hm : (target.select (prompt ++ g.tokenIds) g.sampler.toSamplerState).Misses draft
    · refine Or.inl ⟨0, ?_⟩
      rw [hp hg.running, round_eq target tokenizer emit prompt _ hg.pending,
        round_eq target tokenizer emit prompt _ hg.pending, speculate_miss target drafts hm]
      exact SameAnswer.refl _
    · obtain ⟨he, htok⟩ := Selection.not_misses hm
      rw [round_eq target tokenizer emit prompt _ hg.pending, speculate_hit target drafts hm]
      set sel := target.select (prompt ++ g.tokenIds) g.sampler.toSamplerState with hsel
      set s := g.sampler.toSamplerState.advance sel with hs
      set spec := target.speculate drafts (prompt ++ g.tokenIds ++ [draft])
        (s.observeToken draft) with hsp
      cases hf : spec.2.grammarFailure with
      | some failure =>
        -- the check at the head of the drain: nothing of the round is emitted
        have hfa : (g.submit (sel :: spec.1) spec.2).sampler.grammarFailure = some failure := hf
        refine Or.inr ⟨0, failure, ?_, ?_, rfl, hg.running, ?_, ?_⟩ <;>
          simp only [drainGeneration, hfa] <;> rfl
      | none =>
        have hset : spec.2.Settled sel.result.tokenId :=
          htok ▸ settled_speculate target _ _ (s.settled_observeToken draft)
        have ho : drainGeneration tokenizer emit (g.submit [sel] s) c
            = round target tokenizer emit prompt [] g c :=
          (round_eq target tokenizer emit prompt [] hg.pending c).symm
        rcases drain_cons tokenizer emit hg (speculate_ne_nil target _ _ _) he
            (grammarFailure_of_not_eos he) hf hset c with
          ⟨hsa, -, -⟩ | ⟨g', c', hr, hg', ht, hst, ha⟩
        · refine Or.inl ⟨0, ?_⟩
          rw [hp hg.running, ← ho]
          exact hsa
        · have hne : round target tokenizer emit prompt drafts g' c'
              = drainGeneration tokenizer emit (g.submit (sel :: spec.1) spec.2) c := by
            rw [round_eq target tokenizer emit prompt _ hg'.pending, ha, ht, hst, htok,
              hsp, append_assoc]
          rw [ho] at hr
          rw [← hne]
          rcases ih hg' c' with ⟨n, hn⟩ | ⟨n, hn⟩
          · refine Or.inl ⟨n + 1, ?_⟩
            rw [plainRounds_succ hg.running hr]
            exact hn
          · refine Or.inr ⟨n + 1, ?_⟩
            rw [plainRounds_succ hg.running hr]
            exact hn

theorem plainRounds_ready (hg : g.Ready) (n : Nat)
    (h : plainRounds target tokenizer emit prompt n g c = (.ok (), g', c')) (hd : g'.done = false) :
    g'.Ready := by
  induction n generalizing g c with
  | zero =>
    cases h
    exact hg
  | succ n ih =>
    have hc := round_nil_cases target tokenizer emit prompt hg c
    rcases hr : round target tokenizer emit prompt [] g c with ⟨_ | _, g₁, c₁⟩
    · rw [plainRounds, replicate_succ, rounds_cons_error hg.running (by rw [hr]), hr] at h
      cases h
    · rw [plainRounds_succ hg.running hr] at h
      simp only [hr] at hc
      have hdo : g₁.done = true → g'.done = true := by
        intro h₁
        rw [plainRounds, rounds_of_done h₁] at h
        cases h
        exact h₁
      rcases hc with ⟨-, -, he⟩ | ⟨-, -, he | ⟨-, hre, -⟩⟩
      · rw [hdo (he trivial)] at hd
        cases hd
      · rw [hdo (he trivial)] at hd
        cases hd
      · exact ih hre h

/-- **Any sequence of rounds with arbitrary drafts answers as a plain run does**,
unless a selection inside a round failed the response format. -/
theorem rounds_agree (ds : List (List Token)) (hg : g.Ready) (c : C) :
    (∃ n, SameAnswer (rounds target tokenizer emit prompt ds g c)
        (plainRounds target tokenizer emit prompt n g c) ∧
        ((rounds target tokenizer emit prompt ds g c).1 = .ok () →
          (rounds target tokenizer emit prompt ds g c).2.1.done = false → ds.length ≤ n)) ∨
      ∃ n, FailedInRound (rounds target tokenizer emit prompt ds g c)
        (plainRounds target tokenizer emit prompt n g c) := by
  induction ds generalizing g c with
  | nil => exact Or.inl ⟨0, SameAnswer.refl _, fun _ _ => Nat.le_refl 0⟩
  | cons drafts ds ih =>
    rcases hr : round target tokenizer emit prompt drafts g c with ⟨error | ⟨⟩, g₁, c₁⟩
    · rw [rounds_cons_error hg.running (by rw [hr])]
      rcases round_agree target tokenizer emit prompt drafts hg c with ⟨n, hn⟩ | ⟨n, hn⟩
      · exact Or.inl ⟨n + 1, hn, by simp [hr]⟩
      · exact Or.inr ⟨n, hn⟩
    · rw [rounds_cons_ok hg.running hr]
      obtain ⟨n, hn⟩ : ∃ n, SameAnswer (.ok (), g₁, c₁)
          (plainRounds target tokenizer emit prompt (n + 1) g c) := by
        rcases round_agree target tokenizer emit prompt drafts hg c with h | ⟨n, failure, hf, -⟩
        · rwa [hr] at h
        · rw [hr] at hf
          cases hf
      cases hd : g₁.done with
      | true =>
        rw [rounds_of_done hd]
        exact Or.inl ⟨n + 1, hn, fun _ h => by simp [hd] at h⟩
      | false =>
        have heq := (hn.state rfl (Or.inl hd)).symm
        have hp : ∀ m, plainRounds target tokenizer emit prompt (n + 1 + m) g c
            = plainRounds target tokenizer emit prompt m g₁ c₁ := by
          intro m
          rw [plainRounds, replicate_add]
          exact rounds_append heq _
        rcases ih (plainRounds_ready hg (n + 1) heq hd) c₁ with ⟨m, hm, hl⟩ | ⟨m, hm⟩
        · refine Or.inl ⟨n + 1 + m, ?_, ?_⟩
          · rw [hp]
            exact hm
          · intro hok hrun
            have := hl hok hrun
            rw [length_cons]
            omega
        · refine Or.inr ⟨n + 1 + m, ?_⟩
          rw [hp]
          exact hm

end Rounds

end LocalAi.Engine
