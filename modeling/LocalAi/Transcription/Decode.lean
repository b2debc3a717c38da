import LocalAi.Transcription.Filters
import Mathlib.Algebra.Order.Field.Rat

/-!
# Decoding a window

A window is decoded token by token, greedily or by drawing, and again at a higher temperature while
its text is repetitive or unlikely.

* `sampleFrom`: the loop, which keeps each filtered row with the token taken from it.
* `Timestamped`: the rules that timestamps keep over a whole window.
* `sampleFrom_timestamped`, `decodeWindow_timestamped`, `decodeWithFallback_timestamped`: what is
  decoded keeps them, and each row leaves some token.

Probabilities and temperatures are rationals in place of floats, and how they are computed from
logits is given.
-/

open List

namespace LocalAi.Transcription

open Lib (bind_eq_ok)

/-- An error of the program, or a fault. -/
inductive Failure where
  | error (message : Text)
  | underflow
  | index
  | endless
  deriving DecidableEq, Repr

structure Forward (σ L : Type) where
  /-- Encode a window of audio. -/
  encode : σ → (seek size : Nat) → Except Failure σ
  /-- Run tokens from position 0; the logits at some rows. -/
  prefill : σ → (tokens : List Nat) → (rows : List Nat) → Except Failure (List (Row L) × σ)
  /-- Run one more token; its logits. -/
  step : σ → (token : Nat) → Except Failure (Row L × σ)

/-- What is computed from logits in floating point. -/
structure Numerics (L ρ : Type) where
  /-- Whether the timestamps together are more likely than every text token. -/
  prefer : Row L → Bool
  /-- A token drawn at a temperature. -/
  draw : ρ → (temperature : ℚ) → Row L → Nat × ρ
  logprob : Row L → Nat → ℚ
  probability : Row L → Nat → ℚ
  compressionRatio : Text → ℚ

inductive Task where
  | transcribe
  | translate
  deriving DecidableEq, Repr

inductive Temperature where
  | fallback
  | fixed (t : ℚ)
  deriving DecidableEq, Repr

def nTextCtx : Nat := 448

def sampleLen : Nat := nTextCtx / 2

def compressionRatioThreshold : ℚ := 12 / 5

def logprobThreshold : ℚ := -1

def noSpeechThreshold : ℚ := 3 / 5

def fallbackTemperatures : List ℚ := [0, 1 / 5, 2 / 5, 3 / 5, 4 / 5, 1]

structure DecodingResult where
  tokens : List Nat
  logprobs : List ℚ
  avgLogprob : ℚ
  noSpeechProb : ℚ
  temperature : ℚ
  compressionRatio : ℚ

/-- A filtered row, and the token taken from it. -/
structure Sample (L : Type) where
  row : Row L
  token : Nat

section

variable {L σ ρ : Type} [LinearOrder L] [OrderBot L] (forward : Forward σ L)
  (numerics : Numerics L ρ) (tokenizer : WhisperTokenizer)

/-- The next token: the likeliest at temperature 0, else a drawn one. -/
def takeToken (temperature : ℚ) (rng : ρ) (row : Row L) : Nat × ρ :=
  if temperature = 0 then (argmax row, rng) else numerics.draw rng temperature row

/-- The sampling loop, up to end-of-text or the context's length; `fetch` gives the next row. -/
def sampleFrom (sp : SpecialTokens) (sampleBegin : Nat) (temperature : ℚ) :
    (left : Nat) → (tokens : List Nat) → (fetch : σ → Except Failure (Row L × σ)) → σ → ρ →
      Except Failure (List (Sample L) × σ × ρ)
  | 0, _, _, s, rng => .ok ([], s, rng)
  | left + 1, tokens, fetch, s, rng => do
    let (logits, s) ← fetch s
    let row := applyFilters numerics.prefer sp sp.suppressed sampleBegin tokens logits
    let (next, rng) := takeToken numerics temperature rng row
    if next = sp.eot ∨ nTextCtx < (tokens ++ [next]).length then .ok ([⟨row, next⟩], s, rng)
    else
      let (rest, s, rng) ← sampleFrom sp sampleBegin temperature left (tokens ++ [next])
        (fun s => forward.step s next) s rng
      .ok (⟨row, next⟩ :: rest, s, rng)

/-- The tokens before `<|startoftranscript|>`: the end of the prompt. -/
def promptTokens (sp : SpecialTokens) (prompt : List Nat) : List Nat :=
  if prompt = [] then [] else sp.sotPrev :: prompt.drop (prompt.length - (nTextCtx / 2 - 1))

def taskToken (sp : SpecialTokens) : Task → Nat
  | .transcribe => sp.transcribe
  | .translate => sp.translate

def lastRow (rows : List (Row L)) : Except Failure (Row L) :=
  rows.getLast?.elim (.error (.error "no logits".toList)) .ok

/-- The samples up to end-of-text, and how likely they are. -/
def summarize (temperature : ℚ) (atSot : Row L) (samples : List (Sample L)) : DecodingResult :=
  let sampled := (samples.map Sample.token).takeWhile (· ≠ tokenizer.special.eot)
  let logprobs := samples.map fun sample => numerics.logprob sample.row sample.token
  { tokens := sampled
    logprobs := logprobs.take sampled.length
    avgLogprob := logprobs.sum / (sampled.length + 1)
    noSpeechProb := numerics.probability atSot tokenizer.special.noSpeech
    temperature := temperature
    compressionRatio := numerics.compressionRatio (trim (tokenizer.decode sampled)) }

def decodeWindow (task : Task) (language : Nat) (prompt : List Nat) (temperature : ℚ) (s : σ)
    (rng : ρ) : Except Failure ((List (Sample L) × DecodingResult) × σ × ρ) := do
  let sp := tokenizer.special
  let initial := promptTokens sp prompt ++ [sp.sot, language, taskToken sp task]
  let (rows, s) ← forward.prefill s initial [(promptTokens sp prompt).length, initial.length - 1]
  let logits ← lastRow rows
  let atSot ← lastRow rows.dropLast
  let (samples, s, rng) ← sampleFrom forward numerics sp initial.length temperature sampleLen
    initial (fun s => .ok (logits, s)) s rng
  .ok ((samples, summarize numerics tokenizer temperature atSot samples), s, rng)

/-- Whether to decode again at a higher temperature. -/
def DecodingResult.needsFallback (result : DecodingResult) : Bool :=
  let silence := decide (noSpeechThreshold < result.noSpeechProb) &&
    decide (result.avgLogprob < logprobThreshold)
  !silence && (decide (compressionRatioThreshold < result.compressionRatio) ||
    decide (result.avgLogprob < logprobThreshold))

def decodeAt (task : Task) (language : Nat) (prompt : List Nat) :
    List ℚ → Option DecodingResult → σ → ρ → Except Failure (DecodingResult × σ × ρ)
  | [], last, s, rng =>
    last.elim (.error (.error "no temperature to decode with".toList)) fun result =>
      .ok (result, s, rng)
  | t :: temperatures, _, s, rng => do
    let ((_, result), s, rng) ← decodeWindow forward numerics tokenizer task language prompt t s rng
    if result.needsFallback then
      decodeAt task language prompt temperatures (some result) s rng
    else .ok (result, s, rng)

def Temperature.all : Temperature → List ℚ
  | .fallback => fallbackTemperatures
  | .fixed t => [t]

def decodeWithFallback (task : Task) (language : Nat) (temperature : Temperature)
    (prompt : List Nat) (s : σ) (rng : ρ) : Except Failure (DecodingResult × σ × ρ) :=
  decodeAt forward numerics tokenizer task language prompt temperature.all none s rng

end

/-! ### The rules for timestamps -/

structure Timestamped (sp : SpecialTokens) (tokens : List Nat) : Prop where
  first : ∀ t, tokens[0]? = some t → sp.isTimestamp t = true
  second : ∀ t, tokens[1]? = some t → sp.isTimestamp t = false
  noThree : ∀ i a b c, tokens[i]? = some a → tokens[i + 1]? = some b → tokens[i + 2]? = some c →
    sp.isTimestamp a = true → sp.isTimestamp b = true → sp.isTimestamp c = false
  ordered : ∀ (i j : Nat) (a b : Nat), i < j → tokens[i]? = some a → tokens[j]? = some b →
    sp.isTimestamp a = true → sp.isTimestamp b = true → a ≤ b
  strict : ∀ (i k j : Nat) (a c b : Nat), i < k → k < j → tokens[i]? = some a → tokens[k]? = some c →
    tokens[j]? = some b → sp.isTimestamp a = true → sp.isTimestamp c = false →
    sp.isTimestamp b = true → a < b

theorem Timestamped.nil (sp : SpecialTokens) : Timestamped sp [] where
  first _ h := nomatch h
  second _ h := nomatch h
  noThree _ _ _ _ h := nomatch h
  ordered _ _ _ _ _ h := nomatch h
  strict _ _ _ _ _ _ _ _ h := nomatch h

variable {i a : Nat} {tokens : List Nat}

theorem getElem?_of_isPrefix {α : Type} {front tokens : List α} (h : front <+: tokens)
    {a : α} (ha : front[i]? = some a) : tokens[i]? = some a := by
  obtain ⟨rest, rfl⟩ := h
  rw [getElem?_append_left (List.getElem?_eq_some_iff.mp ha).1]
  exact ha

variable {sp : SpecialTokens}

theorem Timestamped.of_isPrefix {front : List Nat}
    (h : Timestamped sp tokens) (hf : front <+: tokens) : Timestamped sp front where
  first t ht := h.first t (getElem?_of_isPrefix hf ht)
  second t ht := h.second t (getElem?_of_isPrefix hf ht)
  noThree i a b c ha hb hc := h.noThree i a b c (getElem?_of_isPrefix hf ha)
    (getElem?_of_isPrefix hf hb) (getElem?_of_isPrefix hf hc)
  ordered i j a b hij ha hb := h.ordered i j a b hij (getElem?_of_isPrefix hf ha)
    (getElem?_of_isPrefix hf hb)
  strict i k j a c b hik hkj ha hc hb := h.strict i k j a c b hik hkj
    (getElem?_of_isPrefix hf ha) (getElem?_of_isPrefix hf hc)
    (getElem?_of_isPrefix hf hb)

theorem SpecialTokens.lastTimestamp?_eq_some {last : Nat}
    (h : sp.lastTimestamp? tokens = some last) :
    ∃ m : Nat, tokens[m]? = some last ∧ sp.isTimestamp last = true ∧
      ∀ (j x : Nat), m < j → tokens[j]? = some x → sp.isTimestamp x = false := by
  obtain ⟨hl, back, front, hs, hb⟩ := find?_eq_some_iff_append.mp h
  have ht : tokens = front.reverse ++ last :: back.reverse := by
    have hr := congrArg reverse hs
    rw [reverse_reverse, reverse_append, reverse_cons, append_assoc] at hr
    exact hr
  refine ⟨front.reverse.length, ?_, hl, ?_⟩
  · rw [ht, getElem?_append_right le_rfl, Nat.sub_self]
    rfl
  · intro j x hj hx
    rw [ht, getElem?_append_right hj.le,
      show j - front.reverse.length = j - front.reverse.length - 1 + 1 by omega,
      getElem?_cons_succ] at hx
    have hm := mem_reverse.mp (mem_of_getElem? hx)
    simpa using hb x hm

theorem SpecialTokens.lastTimestamp?_isSome
    (ha : tokens[i]? = some a) (hts : sp.isTimestamp a = true) :
    ∃ last, sp.lastTimestamp? tokens = some last := by
  refine Option.isSome_iff_exists.mp (find?_isSome.mpr ⟨a, ?_, hts⟩)
  exact mem_reverse.mpr (mem_of_getElem? ha)

theorem getElem?_concat_eq_some {α : Type} {tokens : List α} {t a : α}
    (h : (tokens ++ [t])[i]? = some a) : tokens[i]? = some a ∨ (i = tokens.length ∧ a = t) := by
  by_cases hi : i < tokens.length
  · rw [getElem?_append_left hi] at h
    exact .inl h
  · rw [getElem?_append_right (Nat.not_lt.mp hi)] at h
    obtain ⟨hl, hg⟩ := List.getElem?_eq_some_iff.mp h
    have hz : i - tokens.length = 0 := by simpa using hl
    exact .inr ⟨by omega, by simpa [hz] using hg.symm⟩

theorem SpecialTokens.lastWasTimestamp_eq (h : tokens[tokens.length - 1]? = some a) :
    sp.lastWasTimestamp tokens = sp.isTimestamp a := by
  rw [lastWasTimestamp, getLast?_eq_getElem?, h]
  rfl

theorem SpecialTokens.penultimateWasTimestamp_eq
    (h : tokens[tokens.length - 2]? = some a) (ha : sp.isTimestamp a = true) :
    sp.penultimateWasTimestamp tokens = true := by
  rw [penultimateWasTimestamp, h, Option.any_some, ha, Bool.or_true]

theorem Timestamped.concat {t : Nat}
    (h : Timestamped sp tokens) (ht : Allows sp tokens t) : Timestamped sp (tokens ++ [t]) := by
  have hlt : ∀ {i a : Nat}, tokens[i]? = some a → i < tokens.length :=
    fun hg => (List.getElem?_eq_some_iff.mp hg).1
  -- against an earlier timestamp, by way of the last one
  have hbeh : ∀ {i a : Nat}, tokens[i]? = some a → sp.isTimestamp a = true →
      sp.isTimestamp t = true → ∃ m last : Nat, i ≤ m ∧ tokens[m]? = some last ∧ a ≤ last ∧
        sp.isTimestamp last = true ∧ last ≤ t ∧
        (sp.lastWasTimestamp tokens = false → last < t) := by
    intro i a ha hats hts
    obtain ⟨last, hf⟩ := SpecialTokens.lastTimestamp?_isSome ha hats
    obtain ⟨m, hm, hla, hn⟩ := SpecialTokens.lastTimestamp?_eq_some hf
    have him : i ≤ m := by
      by_contra hmi
      rw [hn i a (Nat.not_le.mp hmi) ha] at hats
      cases hats
    obtain ⟨hle, hs⟩ := ht.ordered last hf hts
    refine ⟨m, last, him, hm, ?_, hla, hle, hs⟩
    obtain rfl | hlt := him.eq_or_lt
    · exact (Option.some.inj (ha.symm.trans hm)).le
    · exact h.ordered i m a last hlt ha hm hats hla
  constructor
  case first =>
    intro a ha
    obtain ha | ⟨hl, rfl⟩ := getElem?_concat_eq_some ha
    · exact h.first a ha
    · exact ht.first (eq_nil_of_length_eq_zero hl.symm)
  case second =>
    intro a ha
    obtain ha | ⟨hl, rfl⟩ := getElem?_concat_eq_some ha
    · exact h.second a ha
    · -- the only token before is the first timestamp
      have hfst : tokens[0]? = some tokens[0] := getElem?_eq_getElem (by omega)
      refine ht.paired ?_ (by rw [SpecialTokens.penultimateWasTimestamp, ← hl]; rfl)
      rw [SpecialTokens.lastWasTimestamp_eq (by rw [← hl]; exact hfst)]
      exact h.first _ hfst
  case noThree =>
    intro i a b c ha hb hc hats hbts
    obtain hc | ⟨hl, rfl⟩ := getElem?_concat_eq_some hc
    · have hi := hlt hc
      obtain ha | ⟨hi', -⟩ := getElem?_concat_eq_some ha
      · obtain hb | ⟨hi', -⟩ := getElem?_concat_eq_some hb
        · exact h.noThree i a b c ha hb hc hats hbts
        · omega
      · omega
    · rw [getElem?_append_left (by omega)] at ha hb
      refine ht.paired ?_ (SpecialTokens.penultimateWasTimestamp_eq (a := a) ?_ hats)
      · rw [SpecialTokens.lastWasTimestamp_eq (a := b) (by rw [← hl]; exact hb)]
        exact hbts
      · rw [← hl]
        exact ha
  case ordered =>
    intro i j a b hij ha hb hats hbts
    obtain hb | ⟨hl, rfl⟩ := getElem?_concat_eq_some hb
    · rw [getElem?_append_left (hij.trans (hlt hb))] at ha
      exact h.ordered i j a b hij ha hb hats hbts
    · rw [getElem?_append_left (by omega)] at ha
      obtain ⟨m, last, -, -, hle, -, hla, -⟩ := hbeh ha hats hbts
      exact hle.trans hla
  case strict =>
    intro i k j a c b hik hkj ha hc hb hats hcts hbts
    obtain hb | ⟨hl, rfl⟩ := getElem?_concat_eq_some hb
    · have hj := hlt hb
      rw [getElem?_append_left (by omega)] at ha hc
      exact h.strict i k j a c b hik hkj ha hc hb hats hcts hbts
    · rw [getElem?_append_left (by omega)] at ha hc
      obtain ⟨_, last, -, -, hle, -, -, hs⟩ := hbeh ha hats hbts
      cases hw : sp.lastWasTimestamp tokens with
      | false => exact hle.trans_lt (hs hw)
      | true =>
        -- the last token is the last timestamp, with the text before it
        have he : tokens[tokens.length - 1]? = some tokens[tokens.length - 1] :=
          getElem?_eq_getElem (by omega)
        rw [SpecialTokens.lastWasTimestamp_eq he] at hw
        have hk : k ≠ tokens.length - 1 := by
          rintro rfl
          rw [Option.some.inj (hc.symm.trans he)] at hcts
          rw [hcts] at hw
          cases hw
        have hst := h.strict i k (tokens.length - 1) a c _ hik (by omega) ha hc he hats hcts hw
        obtain ⟨_, _, -, -, hle', -, hbd, -⟩ := hbeh he hw hbts
        exact hst.trans_le (hle'.trans hbd)

/-! ### What is decoded -/

section

variable {L σ ρ : Type} [LinearOrder L] [OrderBot L]

/-- No logit of the vocabulary is masked. -/
def Row.Finite (logits : Row L) : Prop := ∀ t < vocab, logits t ≠ ⊥

/-- A model that returns a finite row over the whole vocabulary at every step. -/
structure Forward.Whole (forward : Forward σ L) : Prop where
  encode : ∀ s seek size, ∃ s', forward.encode s seek size = .ok s'
  prefill : ∀ s tokens rows, ∃ out s', forward.prefill s tokens rows = .ok (out, s') ∧
    out.length = rows.length ∧ ∀ row ∈ out, row.Finite
  step : ∀ s token, ∃ row s', forward.step s token = .ok (row, s') ∧ row.Finite

/-- Choices that only ever fall on tokens that are not masked. -/
structure Numerics.Unmasked (numerics : Numerics L ρ) (sp : SpecialTokens) : Prop where
  prefer : ∀ row, numerics.prefer row = true → ∃ t < vocab, sp.timestampBegin ≤ t ∧ row t ≠ ⊥
  draw : ∀ rng temperature (row : Row L), (∃ t < vocab, row t ≠ ⊥) →
    (numerics.draw rng temperature row).1 < vocab ∧ row (numerics.draw rng temperature row).1 ≠ ⊥

/-- A window as it is decoded: some tokens, by the rules, and the logarithm of each one's
probability. -/
structure Decoded (sp : SpecialTokens) (result : DecodingResult) : Prop where
  nonempty : result.tokens ≠ []
  rules : Timestamped sp result.tokens
  logprobs : result.logprobs.length = result.tokens.length

variable {forward : Forward σ L} {numerics : Numerics L ρ} {sp : SpecialTokens}

theorem takeToken_unmasked (hn : numerics.Unmasked sp) (temperature : ℚ) (rng : ρ)
    {row : Row L} (hr : ∃ t < vocab, row t ≠ ⊥) :
    (takeToken numerics temperature rng row).1 < vocab ∧
      row (takeToken numerics temperature rng row).1 ≠ ⊥ := by
  by_cases hz : temperature = 0
  · have ht : (takeToken numerics temperature rng row).1 = argmax row := by
      rw [takeToken, if_pos hz]
    rw [ht]
    exact ⟨argmax_lt row, argmax_ne_bot hr⟩
  · rw [takeToken, if_neg hz]
    exact hn.draw rng temperature row hr

theorem sampleFrom_timestamped (hfr : sp.Free) (ho : sp.Ordered)
    (hfwd : forward.Whole) (hn : numerics.Unmasked sp) (initial : List Nat)
    (temperature : ℚ) (left : Nat) : ∀ (sampled : List Nat)
      (fetch : σ → Except Failure (Row L × σ)) (s : σ) (rng : ρ),
      (∀ s, ∃ row s', fetch s = .ok (row, s') ∧ row.Finite) → Timestamped sp sampled →
      ∃ samples s' rng', sampleFrom forward numerics sp initial.length temperature left
          (initial ++ sampled) fetch s rng = .ok (samples, s', rng') ∧
        (∀ sample ∈ samples, ∃ t < vocab, sample.row t ≠ ⊥) ∧
        Timestamped sp (sampled ++ samples.map Sample.token) ∧ (left ≠ 0 → samples ≠ []) := by
  induction left with
  | zero =>
    intro sampled fetch s rng _ hsa
    exact ⟨[], s, rng, rfl, fun _ h => (nomatch h), by simpa using hsa,
      fun h => absurd rfl h⟩
  | succ left ih =>
    intro sampled fetch s rng hfe hsa
    obtain ⟨logits, s₁, hf, hfi⟩ := hfe s
    set row := applyFilters numerics.prefer sp sp.suppressed initial.length (initial ++ sampled)
      logits with hrow
    have hl : ∃ t < vocab, row t ≠ ⊥ :=
      applyFilters_unmasked hfr ho hn.prefer initial sampled hfi
    have ht := takeToken_unmasked hn temperature rng hl
    set next := (takeToken numerics temperature rng row).1 with hne
    set rng₁ := (takeToken numerics temperature rng row).2 with hrng
    have hr : Timestamped sp (sampled ++ [next]) :=
      hsa.concat (applyFilters_allows ht.1 ht.2)
    have hlo : sampleFrom forward numerics sp initial.length temperature (left + 1)
        (initial ++ sampled) fetch s rng =
        if next = sp.eot ∨ nTextCtx < ((initial ++ sampled) ++ [next]).length then
          .ok ([⟨row, next⟩], s₁, rng₁)
        else
          sampleFrom forward numerics sp initial.length temperature left
            ((initial ++ sampled) ++ [next]) (fun s => forward.step s next) s₁ rng₁ >>= fun out =>
            .ok (⟨row, next⟩ :: out.1, out.2) := by
      rw [sampleFrom, hf]
      rfl
    rw [hlo, append_assoc]
    split_ifs
    · refine ⟨_, _, _, rfl, ?_, hr, fun _ => cons_ne_nil _ _⟩
      intro sample hs
      rw [mem_singleton.mp hs]
      exact hl
    · obtain ⟨samples, s', rng', hre, hu, hto, -⟩ := ih (sampled ++ [next])
        (fun s => forward.step s next) s₁ rng₁ (fun s => hfwd.step s next) hr
      refine ⟨⟨row, next⟩ :: samples, s', rng', ?_, ?_, ?_, fun _ => cons_ne_nil _ _⟩
      · rw [hre]
        rfl
      · intro sample hs
        obtain rfl | hs := mem_cons.mp hs
        · exact hl
        · exact hu sample hs
      · rw [append_assoc] at hto
        exact hto

variable {tokenizer : WhisperTokenizer}

theorem decodeWindow_timestamped (hfr : tokenizer.special.Free)
    (ho : tokenizer.special.Ordered) (hf : forward.Whole)
    (hn : numerics.Unmasked tokenizer.special) (task : Task) (language : Nat)
    (prompt : List Nat) (temperature : ℚ) (s : σ) (rng : ρ) :
    ∃ samples result s' rng', decodeWindow forward numerics tokenizer task language prompt
        temperature s rng = .ok ((samples, result), s', rng') ∧
      (∀ sample ∈ samples, ∃ t < vocab, sample.row t ≠ ⊥) ∧ Decoded tokenizer.special result := by
  set sp := tokenizer.special with hsp
  set initial := promptTokens sp prompt ++ [sp.sot, language, taskToken sp task] with hi
  obtain ⟨rows, s₁, hp, hlen, hro⟩ := hf.prefill s initial
    [(promptTokens sp prompt).length, initial.length - 1]
  obtain ⟨atSot, logits, rfl⟩ := length_eq_two.mp hlen
  obtain ⟨samples, s', rng', hs, hu, hr, hso⟩ :=
    sampleFrom_timestamped hfr ho hf hn initial temperature sampleLen []
      (fun s => .ok (logits, s)) s₁ rng (fun s => ⟨logits, s, rfl, hro logits (by simp)⟩)
      (Timestamped.nil sp)
  rw [append_nil] at hs
  rw [nil_append] at hr
  refine ⟨samples, summarize numerics tokenizer temperature atSot samples, s', rng', ?_, hu,
    ?_, ?_, ?_⟩
  · rw [decodeWindow]
    rw [hp]
    show (sampleFrom forward numerics sp initial.length temperature sampleLen initial
      (fun s => .ok (logits, s)) s₁ rng >>= _) = _
    rw [hs]
    rfl
  · -- the first token is a timestamp, so it does not end the text
    obtain ⟨first, rest, rfl⟩ := exists_cons_of_ne_nil (hso (by decide))
    have hts := SpecialTokens.isTimestamp_iff.mp (hr.first first.token rfl)
    have hne : first.token ≠ sp.eot := by
      have := ho.eot_lt
      omega
    have ht : (summarize numerics tokenizer temperature atSot (first :: rest)).tokens =
        first.token :: (rest.map Sample.token).takeWhile (· ≠ sp.eot) := by
      show ((first.token :: rest.map Sample.token).takeWhile fun t => decide (t ≠ sp.eot)) = _
      rw [takeWhile_cons, if_pos (decide_eq_true hne)]
    rw [ht]
    exact cons_ne_nil _ _
  · exact hr.of_isPrefix ( takeWhile_prefix _)
  · rw [summarize, length_take, length_map]
    refine Nat.min_eq_left ?_
    have hle := ( takeWhile_prefix (l := samples.map Sample.token) fun t => t ≠ sp.eot).length_le
    rwa [length_map] at hle

theorem decodeAt_timestamped (hf : tokenizer.special.Free)
    (ho : tokenizer.special.Ordered) (hfwd : forward.Whole)
    (hn : numerics.Unmasked tokenizer.special) (task : Task) (language : Nat)
    (prompt : List Nat) (temperatures : List ℚ) : ∀ (last : Option DecodingResult) (s : σ) (rng : ρ),
      (∀ result, last = some result → Decoded tokenizer.special result) →
      (temperatures = [] → last ≠ none) →
      ∃ result s' rng', decodeAt forward numerics tokenizer task language prompt temperatures last s
          rng = .ok (result, s', rng') ∧ Decoded tokenizer.special result := by
  induction temperatures with
  | nil =>
    intro last s rng hl hs
    obtain ⟨result, rfl⟩ := Option.ne_none_iff_exists'.mp (hs rfl)
    exact ⟨result, s, rng, rfl, hl result rfl⟩
  | cons t temperatures ih =>
    intro last s rng _ _
    obtain ⟨samples, result, s₁, rng₁, hw, -, hr⟩ := decodeWindow_timestamped hf
      ho hfwd hn task language prompt t s rng
    have hlo : decodeAt forward numerics tokenizer task language prompt (t :: temperatures) last s
        rng = if result.needsFallback then decodeAt forward numerics tokenizer task language prompt
          temperatures (some result) s₁ rng₁ else .ok (result, s₁, rng₁) := by
      rw [decodeAt, hw]
      rfl
    rw [hlo]
    split_ifs
    · refine ih (some result) s₁ rng₁ ?_ (fun _ => Option.some_ne_none _)
      rintro _ ⟨⟩
      exact hr
    · exact ⟨result, s₁, rng₁, rfl, hr⟩

theorem decodeWithFallback_timestamped (hf : tokenizer.special.Free)
    (ho : tokenizer.special.Ordered) (hfwd : forward.Whole)
    (hn : numerics.Unmasked tokenizer.special) (task : Task) (language : Nat)
    (temperature : Temperature) (prompt : List Nat) (s : σ) (rng : ρ) :
    ∃ result s' rng', decodeWithFallback forward numerics tokenizer task language temperature prompt s
        rng = .ok (result, s', rng') ∧ Decoded tokenizer.special result := by
  have hs : temperature.all ≠ [] := by cases temperature <;> exact cons_ne_nil _ _
  exact decodeAt_timestamped hf ho hfwd hn task language prompt temperature.all
    none s rng (fun _ h => nomatch h) (fun h => absurd h hs)

end

end LocalAi.Transcription
