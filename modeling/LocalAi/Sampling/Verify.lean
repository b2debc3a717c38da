import LocalAi.Sampling.State

/-!
# Chain verification against plain decoding

`verify_greedy_drafts` samples the target once per draft row and goes on only
while the sample is the draft.  Plain decoding samples once, observes the token
and repeats.  Both are unfolded here into one list of selections:

* `Target.speculate`: the selections verification makes, by recursion on the
  drafts, and the state they leave.
* `verifyGreedyDrafts_eq`: the loop of the source returns exactly those.
* `decode_speculate`: they are the first selections of plain decoding, and the
  states agree once the last sample is observed.
-/

open List

namespace LocalAi.Sampling

variable {R M L E : Type}

structure Verification where
  samples : List SamplingResult
  accepted : Nat

def verifyRows (drafts : List Token)
    (sample : Nat → Sampler R M L → Except E (SamplingResult × Sampler R M L)) :
    (remaining row : Nat) → Sampler R M L → List SamplingResult → Nat →
      Except E (Verification × Sampler R M L)
  | 0, _, sampler, results, accepted => .ok (⟨results, accepted⟩, sampler)
  | remaining + 1, row, sampler, results, accepted =>
    match sample row sampler with
    | .error error => .error error
    | .ok (next, sampler) =>
      if next.isEos || drafts[row]? != some next.tokenId then
        .ok (⟨results ++ [next], accepted⟩, sampler)
      else
        verifyRows drafts sample remaining (row + 1) (sampler.observe [next.tokenId])
          (results ++ [next]) (accepted + 1)

/-- `verify_greedy_drafts`: rows `0..=drafts.len()`. -/
def verifyGreedyDrafts (sampler : Sampler R M L) (drafts : List Token)
    (sample : Nat → Sampler R M L → Except E (SamplingResult × Sampler R M L)) :
    Except E (Verification × Sampler R M L) :=
  verifyRows drafts sample (drafts.length + 1) 0 sampler [] 0

section Loop

variable {drafts : List Token}
  {sample : Nat → Sampler R M L → Except E (SamplingResult × Sampler R M L)}
  {remaining row accepted : Nat} {sampler sampler' : Sampler R M L}
  {results : List SamplingResult} {next : SamplingResult}

theorem verifyRows_stop (hs : sample row sampler = .ok (next, sampler'))
    (h : (next.isEos || drafts[row]? != some next.tokenId) = true) :
    verifyRows drafts sample (remaining + 1) row sampler results accepted
      = .ok (⟨results ++ [next], accepted⟩, sampler') := by
  simp only [verifyRows, hs]
  exact if_pos h

theorem verifyRows_accept (hs : sample row sampler = .ok (next, sampler'))
    (he : next.isEos = false) (hd : drafts[row]? = some next.tokenId) :
    verifyRows drafts sample (remaining + 1) row sampler results accepted
      = verifyRows drafts sample remaining (row + 1) (sampler'.observe [next.tokenId])
          (results ++ [next]) (accepted + 1) := by
  conv_lhs => unfold verifyRows
  simp [hs, he, hd]

end Loop

def Target.sampleRow (target : Target R M L) (history drafts : List Token) (row : Nat)
    (sampler : Sampler R M L) : Except E (SamplingResult × Sampler R M L) :=
  .ok (target.sample (history ++ drafts.take row) sampler)

/-- Plain decoding of at most `n` tokens: sample, stop at end-of-sequence, else
observe the token and continue. -/
def Target.decode (target : Target R M L) :
    (n : Nat) → (history : List Token) → Sampler R M L → List SamplingResult × Sampler R M L
  | 0, _, sampler => ([], sampler)
  | n + 1, history, sampler =>
    let (next, sampler) := target.sample history sampler
    if next.isEos then
      ([next], sampler)
    else
      let (rest, sampler) :=
        target.decode n (history ++ [next.tokenId]) (sampler.observe [next.tokenId])
      (next :: rest, sampler)

/-! ### The selections of one verification -/

def Target.speculate (target : Target R M L) :
    (drafts history : List Token) → SamplerState R M → List (Selection R M L) × SamplerState R M
  | [], history, s => ([target.select history s], s.advance (target.select history s))
  | draft :: drafts, history, s =>
    let sel := target.select history s
    if sel.result.isEos || draft != sel.result.tokenId then
      ([sel], s.advance sel)
    else
      let (rest, s') := target.speculate drafts (history ++ [draft])
        ((s.advance sel).observeToken draft)
      (sel :: rest, s')

/-- The sampler after the selections `sels`: the record queue gains one record
per selection. -/
def Sampler.after (s : Sampler R M L) (sels : List (Selection R M L)) (s' : SamplerState R M) :
    Sampler R M L :=
  { toSamplerState := s', records := s.records.map (· ++ sels.map Selection.logprob) }

/-- Whether a selection ends the verification of a chain whose next draft is `draft`. -/
def Selection.Misses (sel : Selection R M L) (draft : Token) : Prop :=
  (sel.result.isEos || draft != sel.result.tokenId) = true

variable {draft : Token}

theorem Selection.not_misses {sel : Selection R M L} (h : ¬ sel.Misses draft) :
    sel.result.isEos = false ∧ sel.result.tokenId = draft := by
  simp only [Misses, Bool.or_eq_true, not_or, Bool.not_eq_true, bne_iff_ne, ne_eq, not_not] at h
  exact ⟨h.1, h.2.symm⟩

section Speculate

variable (target : Target R M L)

@[simp] theorem speculate_nil (history : List Token) (s : SamplerState R M) :
    target.speculate [] history s
      = ([target.select history s], s.advance (target.select history s)) := rfl

variable {history : List Token} {s : SamplerState R M}

theorem speculate_miss (drafts : List Token) (h : (target.select history s).Misses draft) :
    target.speculate (draft :: drafts) history s = target.speculate [] history s := by
  exact if_pos h

theorem speculate_hit (drafts : List Token) (h : ¬ (target.select history s).Misses draft) :
    target.speculate (draft :: drafts) history s
      = (target.select history s :: (target.speculate drafts (history ++ [draft])
            ((s.advance (target.select history s)).observeToken draft)).1,
        (target.speculate drafts (history ++ [draft])
            ((s.advance (target.select history s)).observeToken draft)).2) := by
  exact if_neg h

theorem speculate_ne_nil (drafts history : List Token) (s : SamplerState R M) :
    (target.speculate drafts history s).1 ≠ [] := by
  cases drafts with
  | nil => simp
  | cons draft drafts =>
    by_cases h : (target.select history s).Misses draft
    · rw [speculate_miss target drafts h]
      simp
    · rw [speculate_hit target drafts h]
      simp

theorem settled_speculate {token : Token} (drafts history : List Token)
    (hs : s.Settled token) : (target.speculate drafts history s).2.Settled token := by
  induction drafts generalizing history s with
  | nil => exact hs.advance _
  | cons draft drafts ih =>
    by_cases h : (target.select history s).Misses draft
    · rw [speculate_miss target drafts h]
      exact hs.advance _
    · rw [speculate_hit target drafts h]
      exact ih _ ((hs.advance _).observeToken draft)

theorem Sampler.after_cons (s : Sampler R M L) (sel : Selection R M L) (token : Token)
    (sels : List (Selection R M L)) (s' : SamplerState R M) :
    ((s.advance sel).observe [token]).after sels s' = s.after (sel :: sels) s' := by
  unfold Sampler.after
  cases hr : s.records <;> simp [hr]

theorem verifyRows_eq (history drafts : List Token) :
    ∀ (rest : List Token) (row : Nat) (sampler : Sampler R M L)
      (results : List SamplingResult) (accepted : Nat), drafts.drop row = rest →
      row ≤ drafts.length →
      verifyRows drafts (target.sampleRow (E := E) history drafts) (rest.length + 1) row sampler
          results accepted
        = let spec := target.speculate rest (history ++ drafts.take row) sampler.toSamplerState
          .ok (⟨results ++ spec.1.map Selection.result, accepted + (spec.1.length - 1)⟩,
            sampler.after spec.1 spec.2) := by
  intro rest
  induction rest with
  | nil =>
    intro row sampler results accepted hd hr
    -- past the last draft nothing can match: one selection, and the loop ends
    have hn : drafts[row]? = none := by
      rw [getElem?_eq_none_iff]
      simpa using hd
    simp [verifyRows, Target.sampleRow, Target.sample, hn, Sampler.after, Sampler.advance]
  | cons draft rest ih =>
    intro row sampler results accepted hd hr
    have hlt : row < drafts.length := by
      by_contra hge
      rw [drop_eq_nil_of_le (Nat.le_of_not_lt hge)] at hd
      cases hd
    have hg : drafts[row]? = some draft := by
      rw [← head?_drop, hd]
      rfl
    have hd' : drafts.drop (row + 1) = rest := by
      rw [← tail_drop, hd]
      rfl
    have ht : history ++ drafts.take row ++ [draft] = history ++ drafts.take (row + 1) := by
      rw [take_add_one, hg]
      simp
    by_cases h : (target.select (history ++ drafts.take row) sampler.toSamplerState).Misses draft
    · rw [verifyRows_stop rfl (by simpa [Selection.Misses, hg] using h),
        speculate_miss target rest h]
      simp [Sampler.after, Sampler.advance]
    · obtain ⟨heos, htok⟩ := Selection.not_misses h
      have hlen := length_pos_iff.mpr (speculate_ne_nil target rest
        (history ++ drafts.take (row + 1)) ((sampler.toSamplerState.advance
          (target.select (history ++ drafts.take row) sampler.toSamplerState)).observeToken draft))
      rw [length_cons, verifyRows_accept rfl heos (hg.trans (congrArg some htok.symm)),
        ih (row + 1) _ _ _ hd' hlt, speculate_hit target rest h]
      simp only [htok, Sampler.observe_state, Sampler.advance_state,
        SamplerState.observe_cons, SamplerState.observe_nil, ht, Sampler.after_cons,
        map_cons, append_assoc, cons_append, nil_append, length_cons]
      congr 3
      omega

theorem verifyGreedyDrafts_eq (history drafts : List Token) (sampler : Sampler R M L) :
    verifyGreedyDrafts sampler drafts (target.sampleRow (E := E) history drafts)
      = let spec := target.speculate drafts history sampler.toSamplerState
        .ok (⟨spec.1.map Selection.result, spec.1.length - 1⟩, sampler.after spec.1 spec.2) := by
  have h := verifyRows_eq (E := E) target history drafts drafts 0 sampler [] 0 rfl (Nat.zero_le _)
  simpa [verifyGreedyDrafts] using h

/-! ### Plain decoding -/

theorem decode_eos (n : Nat) (σ : Sampler R M L)
    (he : (target.select history σ.toSamplerState).result.isEos = true) :
    target.decode (n + 1) history σ
      = ([(target.select history σ.toSamplerState).result],
        σ.advance (target.select history σ.toSamplerState)) := by
  simp [Target.decode, Target.sample, he]

theorem decode_succ (n : Nat) (σ : Sampler R M L)
    (he : (target.select history σ.toSamplerState).result.isEos = false) :
    target.decode (n + 1) history σ
      = let sel := target.select history σ.toSamplerState
        let next := target.decode n (history ++ [sel.result.tokenId])
          ((σ.advance sel).observe [sel.result.tokenId])
        (sel.result :: next.1, next.2) := by
  simp [Target.decode, Target.sample, he]

/-- The sampler once the last sample of a round is observed too. -/
def SamplerState.observeLast (s : SamplerState R M) (sels : List (Selection R M L)) :
    SamplerState R M :=
  match sels.getLast? with
  | some sel => if sel.result.isEos then s else s.observeToken sel.result.tokenId
  | none => s

/-- **The selections of a verification are the first of plain decoding**, and
observing the last one gives plain decoding's state. -/
theorem decode_speculate (drafts history : List Token) (sampler : Sampler R M L) :
    let spec := target.speculate drafts history sampler.toSamplerState
    (target.decode spec.1.length history sampler).1 = spec.1.map Selection.result ∧
      (target.decode spec.1.length history sampler).2.toSamplerState
        = spec.2.observeLast spec.1 := by
  -- without an accepted draft there is one selection on both sides
  have ho : ∀ (history : List Token) (sampler : Sampler R M L),
      let sel := target.select history sampler.toSamplerState
      (target.decode 1 history sampler).1 = [sel.result] ∧
        (target.decode 1 history sampler).2.toSamplerState
          = (sampler.toSamplerState.advance sel).observeLast [sel] := by
    intro history sampler sel
    cases he : sel.result.isEos with
    | true =>
      rw [decode_eos target 0 sampler he]
      exact ⟨rfl, by simp [SamplerState.observeLast, he, sel]⟩
    | false =>
      rw [decode_succ target 0 sampler he]
      exact ⟨rfl, by simp [SamplerState.observeLast, he, sel, Target.decode]⟩
  induction drafts generalizing history sampler with
  | nil => exact ho history sampler
  | cons draft drafts ih =>
    by_cases h : (target.select history sampler.toSamplerState).Misses draft
    · rw [speculate_miss target drafts h]
      exact ho history sampler
    · obtain ⟨he, ht⟩ := Selection.not_misses h
      have hne := speculate_ne_nil target drafts (history ++ [draft])
        ((sampler.toSamplerState.advance
          (target.select history sampler.toSamplerState)).observeToken draft)
      have hr := ih (history ++ [draft])
        ((sampler.advance (target.select history sampler.toSamplerState)).observe [draft])
      rw [speculate_hit target drafts h]
      dsimp only [length_cons]
      rw [decode_succ target _ sampler he]
      dsimp only
      rw [ht]
      refine ⟨congrArg (_ :: ·) hr.1, hr.2.trans ?_⟩
      unfold SamplerState.observeLast
      rw [getLast?_cons_of_ne_nil hne]
      rfl

/-- The tokens a list of samples emits: all but an end-of-sequence. -/
def emitted (samples : List SamplingResult) : List Token :=
  (samples.filter fun sample => !sample.isEos).map SamplingResult.tokenId

@[simp] theorem emitted_nil : emitted [] = [] := rfl

theorem emitted_cons_eos {sample : SamplingResult} (h : sample.isEos = true)
    (samples : List SamplingResult) : emitted (sample :: samples) = emitted samples := by
  simp [emitted, h]

theorem emitted_cons {sample : SamplingResult} (h : sample.isEos = false)
    (samples : List SamplingResult) :
    emitted (sample :: samples) = sample.tokenId :: emitted samples := by
  simp [emitted, h]

theorem observe_emitted_speculate (drafts history : List Token) (s : SamplerState R M) :
    let spec := target.speculate drafts history s
    spec.2.observe (emitted (spec.1.map Selection.result)) = spec.2.observeLast spec.1 := by
  have ho : ∀ (sel : Selection R M L) (s : SamplerState R M),
      s.observe (emitted [sel.result]) = s.observeLast [sel] := by
    intro sel s
    cases he : sel.result.isEos <;>
      simp [emitted, SamplerState.observeLast, he]
  induction drafts generalizing history s with
  | nil => exact ho _ _
  | cons draft drafts ih =>
    by_cases h : (target.select history s).Misses draft
    · rw [speculate_miss target drafts h]
      exact ho _ _
    · obtain ⟨he, ht⟩ := Selection.not_misses h
      have hs := settled_speculate target drafts (history ++ [draft])
        (SamplerState.settled_observeToken (s.advance (target.select history s)) draft)
      have hne := speculate_ne_nil target drafts (history ++ [draft])
        ((s.advance (target.select history s)).observeToken draft)
      have hr := ih (history ++ [draft]) ((s.advance (target.select history s)).observeToken draft)
      rw [speculate_hit target drafts h]
      simp only [map_cons, emitted_cons he, ht, SamplerState.observe_cons,
        SamplerState.observeToken_of_settled hs]
      rw [hr]
      unfold SamplerState.observeLast
      rw [getLast?_cons_of_ne_nil hne]

theorem decode_congr (n : Nat) (history : List Token) {σ τ : Sampler R M L}
    (h : σ.toSamplerState = τ.toSamplerState) :
    (target.decode n history σ).1 = (target.decode n history τ).1 ∧
      (target.decode n history σ).2.toSamplerState
        = (target.decode n history τ).2.toSamplerState := by
  induction n generalizing history σ τ with
  | zero => exact ⟨rfl, h⟩
  | succ n ih =>
    have hs := ih (history ++ [(target.select history τ.toSamplerState).result.tokenId])
      (σ := (σ.advance (target.select history τ.toSamplerState)).observe
        [(target.select history τ.toSamplerState).result.tokenId])
      (τ := (τ.advance (target.select history τ.toSamplerState)).observe
        [(target.select history τ.toSamplerState).result.tokenId]) (by simp [h])
    cases he : (target.select history τ.toSamplerState).result.isEos with
    | true =>
      rw [decode_eos target n σ (h ▸ he), decode_eos target n τ he]
      simp [h]
    | false =>
      rw [decode_succ target n σ (h ▸ he), decode_succ target n τ he, h]
      exact ⟨congrArg (_ :: ·) hs.1, hs.2⟩

end Speculate

end LocalAi.Sampling
