import LocalAi.Transcription.Tokens

/-!
# Which tokens may be sampled

Logits are elements of a linear order whose least one is a masked logit.

* `applyFilters`: the filters of one step, in order.
* `Allows`: what the filters leave of the rules for timestamps.
* `applyFilters_allows`: a token that is not masked is allowed.
* `applyFilters_unmasked`: some token is not masked, where end-of-text and the timestamps are not
  suppressed.
-/

open List

namespace LocalAi.Transcription

abbrev Row (L : Type) := Nat → L

section

variable {L : Type} [LinearOrder L] [OrderBot L]

def Row.mask (logits : Row L) (hidden : Nat → Prop) [DecidablePred hidden] : Row L :=
  fun t => if hidden t then ⊥ else logits t

def argmax (logits : Row L) : Nat :=
  (List.range vocab).foldl (fun best i => if logits best < logits i then i else best) 0

def SpecialTokens.lastWasTimestamp (sp : SpecialTokens) (sampled : List Nat) : Bool :=
  sampled.getLast?.any sp.isTimestamp

def SpecialTokens.penultimateWasTimestamp (sp : SpecialTokens) (sampled : List Nat) : Bool :=
  decide (sampled.length < 2) || (sampled[sampled.length - 2]?).any sp.isTimestamp

def SpecialTokens.lastTimestamp? (sp : SpecialTokens) (sampled : List Nat) : Option Nat :=
  sampled.reverse.find? sp.isTimestamp

def pairTimestamps (sp : SpecialTokens) (sampled : List Nat) (logits : Row L) : Row L :=
  if sp.lastWasTimestamp sampled then
    if sp.penultimateWasTimestamp sampled then logits.mask (sp.timestampBegin ≤ ·)
    else logits.mask (· < sp.eot)
  else logits

def orderTimestamps (sp : SpecialTokens) (sampled : List Nat) (logits : Row L) : Row L :=
  match sp.lastTimestamp? sampled with
  | some last =>
    let timestampLast :=
      if sp.lastWasTimestamp sampled && !sp.penultimateWasTimestamp sampled then last
      else last + 1
    logits.mask fun t => sp.timestampBegin ≤ t ∧ t < min timestampLast vocab
  | none => logits

/-- A window begins with a timestamp, of a limited time. -/
def beginWithTimestamp (sp : SpecialTokens) (logits : Row L) : Row L :=
  let logits := logits.mask (· < sp.timestampBegin)
  let lastAllowed := sp.timestampBegin + sp.maxInitialTimestampIndex
  if lastAllowed + 1 < vocab then logits.mask (lastAllowed + 1 ≤ ·) else logits

/-- The filters up to the comparison of probabilities. -/
def timestampRules (sp : SpecialTokens) (suppress : List Nat) (sampleBegin : Nat)
    (tokens : List Nat) (logits : Row L) : Row L :=
  let atBegin := decide (tokens.length = sampleBegin)
  let sampled := tokens.drop sampleBegin
  let logits := if atBegin then logits.mask (· ∈ sp.beginSuppressTokens) else logits
  let logits := logits.mask (· ∈ suppress)
  let logits := logits.mask (· = sp.noTimestamps)
  let logits := orderTimestamps sp sampled (pairTimestamps sp sampled logits)
  if atBegin then beginWithTimestamp sp logits else logits

/-- The filters of one step.  `prefer` compares the timestamps' probability with the texts'. -/
def applyFilters (prefer : Row L → Bool) (sp : SpecialTokens) (suppress : List Nat)
    (sampleBegin : Nat) (tokens : List Nat) (logits : Row L) : Row L :=
  let logits := timestampRules sp suppress sampleBegin tokens logits
  if prefer logits then logits.mask (· < sp.timestampBegin) else logits

/-! ### Masks -/

variable {sp : SpecialTokens} {logits : Row L} {sampled : List Nat}

variable {t : Nat}

theorem Row.mask_ne_bot {hidden : Nat → Prop} [DecidablePred hidden] :
    logits.mask hidden t ≠ ⊥ ↔ ¬hidden t ∧ logits t ≠ ⊥ := by
  rw [mask]
  split_ifs with h
  · exact ⟨fun hne => absurd rfl hne, fun hb => absurd h hb.1⟩
  · exact ⟨fun hne => ⟨h, hne⟩, And.right⟩

omit [OrderBot L] in
theorem foldl_argmax (logits : Row L) (ids : List Nat) : ∀ best,
    logits best ≤ logits (ids.foldl (fun best i => if logits best < logits i then i else best) best) ∧
    (∀ i ∈ ids, logits i ≤
      logits (ids.foldl (fun best i => if logits best < logits i then i else best) best)) ∧
    (ids.foldl (fun best i => if logits best < logits i then i else best) best = best ∨
      ids.foldl (fun best i => if logits best < logits i then i else best) best ∈ ids) := by
  induction ids with
  | nil => intro best; simp
  | cons i ids ih =>
    intro best
    rw [foldl_cons]
    obtain ⟨hle, ha, hm⟩ := ih (if logits best < logits i then i else best)
    have hb : logits best ≤ logits (if logits best < logits i then i else best) ∧
        logits i ≤ logits (if logits best < logits i then i else best) := by
      split_ifs with hlt
      · exact ⟨hlt.le, le_rfl⟩
      · exact ⟨le_rfl, not_lt.mp hlt⟩
    refine ⟨hb.1.trans hle, ?_, ?_⟩
    · intro j hj
      obtain rfl | hj := mem_cons.mp hj
      · exact hb.2.trans hle
      · exact ha j hj
    · obtain hs | hm := hm
      · rw [hs]
        split_ifs
        · exact .inr mem_cons_self
        · exact .inl rfl
      · exact .inr (mem_cons_of_mem _ hm)

omit [OrderBot L] in
theorem argmax_lt (logits : Row L) : argmax logits < vocab := by
  obtain hz | hm := (foldl_argmax logits (range vocab) 0).2.2
  · rw [argmax, hz]
    decide
  · exact mem_range.mp hm

theorem argmax_ne_bot (h : ∃ t < vocab, logits t ≠ ⊥) : logits (argmax logits) ≠ ⊥ := by
  obtain ⟨t, ht, hne⟩ := h
  have hle := (foldl_argmax logits (range vocab) 0).2.1 t (mem_range.mpr ht)
  intro hb
  rw [argmax] at hb
  rw [hb] at hle
  exact hne (le_bot_iff.mp hle)

/-! ### What is allowed -/

/-- The special tokens that a window has to end in are not suppressed. -/
structure SpecialTokens.Free (sp : SpecialTokens) : Prop where
  eot : sp.eot ∉ sp.suppressed ∧ sp.eot ≠ sp.noTimestamps
  timestamps : ∀ t, sp.timestampBegin ≤ t → t ∉ sp.suppressed ∧ t ∉ sp.beginSuppressTokens

theorem SpecialTokens.mem_suppressed :
    t ∈ sp.suppressed ↔ t ∈ sp.suppressTokens ++ [sp.transcribe, sp.translate, sp.sot, sp.sotPrev,
      sp.sotLm, sp.noSpeech] := by
  rw [suppressed, mem_dedup, mem_insertionSort]

structure SpecialTokens.Ordered (sp : SpecialTokens) : Prop where
  begins : sp.timestampBegin + 1501 = vocab
  eot_lt : sp.eot < sp.timestampBegin
  noTimestamps_lt : sp.noTimestamps < sp.timestampBegin

/-- The rules for timestamps, for a token behind those sampled. -/
structure Allows (sp : SpecialTokens) (sampled : List Nat) (t : Nat) : Prop where
  first : sampled = [] → sp.isTimestamp t = true
  paired : sp.lastWasTimestamp sampled = true → sp.penultimateWasTimestamp sampled = true →
    sp.isTimestamp t = false
  ordered : ∀ last, sp.lastTimestamp? sampled = some last → sp.isTimestamp t = true →
    last ≤ t ∧ (sp.lastWasTimestamp sampled = false → last < t)

theorem ok_of_bind {x y : Except Text Unit} (h : (x >>= fun _ => y) = .ok ()) : y = .ok () := by
  obtain ⟨_, -, h⟩ := Lib.bind_eq_ok.mp h
  exact h

theorem SpecialTokens.ordered_of_validate (h : sp.validate = .ok ()) : sp.Ordered := by
  rw [validate] at h
  have hi := of_decide_eq_true (Lib.ensure_eq_ok.mp (ok_of_bind (ok_of_bind h)))
  have he : sp.eot ∈ [sp.sot, sp.eot, sp.sotPrev, sp.noTimestamps, sp.transcribe, sp.translate,
      sp.sotLm, sp.noSpeech] := .tail _ (.head _)
  have hno : sp.noTimestamps ∈ [sp.sot, sp.eot, sp.sotPrev, sp.noTimestamps, sp.transcribe,
      sp.translate, sp.sotLm, sp.noSpeech] := .tail _ (.tail _ (.tail _ (.head _)))
  exact ⟨hi.1, (hi.2.1 _ he).2, (hi.2.1 _ hno).2⟩

theorem SpecialTokens.isTimestamp_iff :
    sp.isTimestamp t = true ↔ sp.timestampBegin ≤ t := decide_eq_true_iff

theorem SpecialTokens.isTimestamp_eq_false : sp.isTimestamp t = false ↔ t < sp.timestampBegin := by
  rw [isTimestamp, decide_eq_false_iff_not, Nat.not_le]

theorem pairTimestamps_ne_bot (h : pairTimestamps sp sampled logits t ≠ ⊥) :
    (sp.lastWasTimestamp sampled = true → sp.penultimateWasTimestamp sampled = true →
      sp.isTimestamp t = false) ∧ logits t ≠ ⊥ := by
  rw [pairTimestamps] at h
  split_ifs at h with hla hpen
  · obtain ⟨ht, h⟩ := Row.mask_ne_bot.mp h
    exact ⟨fun _ _ => SpecialTokens.isTimestamp_eq_false.mpr (not_le.mp ht), h⟩
  · exact ⟨fun _ hp => absurd hp hpen, (Row.mask_ne_bot.mp h).2⟩
  · exact ⟨fun hl => absurd hl hla, h⟩

theorem orderTimestamps_ne_bot (ht : t < vocab) (h : orderTimestamps sp sampled logits t ≠ ⊥) :
    (∀ last, sp.lastTimestamp? sampled = some last → sp.isTimestamp t = true →
      last ≤ t ∧ (sp.lastWasTimestamp sampled = false → last < t)) ∧ logits t ≠ ⊥ := by
  rw [orderTimestamps] at h
  cases hf : sp.lastTimestamp? sampled with
  | none =>
    rw [hf] at h
    exact ⟨fun _ hs => (nomatch hs), h⟩
  | some last =>
    rw [hf] at h
    obtain ⟨ho, h⟩ := Row.mask_ne_bot.mp h
    refine ⟨?_, h⟩
    rintro _ ⟨⟩ hts
    have hge := SpecialTokens.isTimestamp_iff.mp hts
    have hm : min (if sp.lastWasTimestamp sampled && !sp.penultimateWasTimestamp sampled then last
        else last + 1) vocab ≤ t := by
      by_contra hlt
      exact ho ⟨hge, not_le.mp hlt⟩
    split_ifs at hm with hsgl
    · obtain ⟨hl, -⟩ := Bool.and_eq_true_iff.mp hsgl
      refine ⟨by omega, fun hno => ?_⟩
      rw [hno] at hl
      cases hl
    · exact ⟨by omega, fun _ => by omega⟩

theorem timestampRules_allows {suppress initial : List Nat} (ht : t < vocab)
    (h : timestampRules sp suppress initial.length (initial ++ sampled) logits t ≠ ⊥) :
    Allows sp sampled t := by
  rw [timestampRules, drop_left] at h
  by_cases hb : sampled = []
  · subst hb
    simp only [append_nil, decide_true, if_true] at h
    have hf : sp.timestampBegin ≤ t := by
      rw [beginWithTimestamp] at h
      split_ifs at h
      · exact not_lt.mp (Row.mask_ne_bot.mp (Row.mask_ne_bot.mp h).2).1
      · exact not_lt.mp (Row.mask_ne_bot.mp h).1
    exact ⟨fun _ => SpecialTokens.isTimestamp_iff.mpr hf, fun hl => (nomatch hl),
      fun _ hl => (nomatch hl)⟩
  · have hlen : ¬(initial ++ sampled).length = initial.length := by
      rw [length_append]
      have := length_pos_of_ne_nil hb
      omega
    simp only [hlen, decide_false, Bool.false_eq_true, if_false] at h
    obtain ⟨ho, h⟩ := orderTimestamps_ne_bot ht h
    exact ⟨fun hn => absurd hn hb, (pairTimestamps_ne_bot h).1, ho⟩

theorem applyFilters_allows {prefer : Row L → Bool} {suppress initial : List Nat} (ht : t < vocab)
    (h : applyFilters prefer sp suppress initial.length (initial ++ sampled) logits t ≠ ⊥) :
    Allows sp sampled t := by
  rw [applyFilters] at h
  split_ifs at h
  · exact timestampRules_allows ht (Row.mask_ne_bot.mp h).2
  · exact timestampRules_allows ht h

theorem timestampRules_begin (hfr : sp.Free) (ho : sp.Ordered) (initial : List Nat)
    (hl : ∀ t < vocab, logits t ≠ ⊥) :
    timestampRules sp sp.suppressed initial.length initial logits sp.timestampBegin ≠ ⊥ := by
  have hb := ho.begins
  have hlt := ho.noTimestamps_lt
  obtain ⟨hs, hi⟩ := hfr.timestamps _ le_rfl
  have hr : ((logits.mask (· ∈ sp.beginSuppressTokens)).mask (· ∈ sp.suppressed)).mask
      (· = sp.noTimestamps) sp.timestampBegin ≠ ⊥ :=
    Row.mask_ne_bot.mpr ⟨by omega, Row.mask_ne_bot.mpr ⟨hs,
      Row.mask_ne_bot.mpr ⟨hi, hl _ (by omega)⟩⟩⟩
  rw [timestampRules, drop_length]
  simp only [decide_true, if_true]
  have hf : (Row.mask (orderTimestamps sp [] (pairTimestamps sp []
      (((logits.mask (· ∈ sp.beginSuppressTokens)).mask (· ∈ sp.suppressed)).mask
        (· = sp.noTimestamps)))) (· < sp.timestampBegin)) sp.timestampBegin ≠ ⊥ :=
    Row.mask_ne_bot.mpr ⟨lt_irrefl _, hr⟩
  rw [beginWithTimestamp]
  split_ifs
  · exact Row.mask_ne_bot.mpr ⟨by omega, hf⟩
  · exact hf

theorem timestampRules_eot (hf : sp.Free) (ho : sp.Ordered) (initial : List Nat)
    (hs : sampled ≠ []) (hl : ∀ t < vocab, logits t ≠ ⊥) :
    timestampRules sp sp.suppressed initial.length (initial ++ sampled) logits sp.eot ≠ ⊥ := by
  have hb := ho.begins
  have hlt := ho.eot_lt
  have hr : (logits.mask (· ∈ sp.suppressed)).mask (· = sp.noTimestamps) sp.eot ≠ ⊥ :=
    Row.mask_ne_bot.mpr ⟨hf.eot.2, Row.mask_ne_bot.mpr ⟨hf.eot.1, hl _ (by omega)⟩⟩
  have hlen : ¬(initial ++ sampled).length = initial.length := by
    rw [length_append]
    have := length_pos_of_ne_nil hs
    omega
  rw [timestampRules, drop_left]
  simp only [hlen, decide_false, Bool.false_eq_true, if_false]
  have hp : pairTimestamps sp sampled
      ((logits.mask (· ∈ sp.suppressed)).mask (· = sp.noTimestamps)) sp.eot ≠ ⊥ := by
    rw [pairTimestamps]
    split_ifs
    · exact Row.mask_ne_bot.mpr ⟨by omega, hr⟩
    · exact Row.mask_ne_bot.mpr ⟨lt_irrefl _, hr⟩
    · exact hr
  rw [orderTimestamps]
  cases sp.lastTimestamp? sampled with
  | none => exact hp
  | some => exact Row.mask_ne_bot.mpr ⟨by omega, hp⟩

theorem applyFilters_unmasked {prefer : Row L → Bool} (hf : sp.Free) (ho : sp.Ordered)
    (hp : ∀ row, prefer row = true → ∃ t < vocab, sp.timestampBegin ≤ t ∧ row t ≠ ⊥)
    (initial sampled : List Nat) (hl : ∀ t < vocab, logits t ≠ ⊥) :
    ∃ t < vocab, applyFilters prefer sp sp.suppressed initial.length (initial ++ sampled) logits t ≠
      ⊥ := by
  have hr : ∃ t < vocab,
      timestampRules sp sp.suppressed initial.length (initial ++ sampled) logits t ≠ ⊥ := by
    have hb := ho.begins
    have hlt := ho.eot_lt
    by_cases hs : sampled = []
    · subst hs
      rw [append_nil]
      exact ⟨_, by omega, timestampRules_begin hf ho initial hl⟩
    · exact ⟨_, by omega, timestampRules_eot hf ho initial hs hl⟩
  rw [applyFilters]
  split_ifs with hw
  · obtain ⟨t, ht, hts, hne⟩ := hp _ hw
    exact ⟨t, ht, Row.mask_ne_bot.mpr ⟨not_lt.mpr hts, hne⟩⟩
  · exact hr

end

end LocalAi.Transcription
