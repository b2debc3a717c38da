import LocalAi.Transcription.Segments
import Mathlib.Data.Fintype.Order
import Mathlib.Order.CompletePartialOrder

/-!
# Transcription advances

* `CutsFrom`: cuts that each leave a piece between two timestamps.
* `cutPieces_spec`: the pieces follow each other, and each starts and ends with a timestamp.
* `cutWindow_spec`: a decoded window is cut without an underflow, and the next one starts at least
  one frame on.
* `transcription_advances`: every window decodes by the rules, is cut so, and goes on.
-/

open List

namespace LocalAi.Transcription

open Lib (bind_eq_ok)

/-! ### Cuts -/

variable {sp : SpecialTokens} {tokens : List Nat}

theorem timestampAt_eq_true {i : Nat} :
    sp.timestampAt tokens i = true ↔ ∃ t, tokens[i]? = some t ∧ sp.isTimestamp t = true := by
  rw [SpecialTokens.timestampAt]
  cases tokens[i]? with
  | none => simp
  | some => simp

theorem timestampAt_lt {i : Nat} (h : sp.timestampAt tokens i = true) : i < tokens.length := by
  obtain ⟨t, ht, -⟩ := timestampAt_eq_true.mp h
  exact (List.getElem?_eq_some_iff.mp ht).1

theorem mem_consecutive {c : Nat} : c ∈ consecutive sp tokens ↔
      0 < c ∧ sp.timestampAt tokens (c - 1) = true ∧ sp.timestampAt tokens c = true := by
  rw [consecutive, mem_map]
  constructor
  · rintro ⟨i, hi, rfl⟩
    obtain ⟨-, hb⟩ := mem_filter.mp hi
    obtain ⟨hi, hn⟩ := Bool.and_eq_true_iff.mp hb
    exact ⟨i.succ_pos, hi, hn⟩
  · rintro ⟨hp, hbef, hat⟩
    have hlt := timestampAt_lt hat
    refine ⟨c - 1, mem_filter.mpr ⟨mem_range.mpr (by omega), ?_⟩, by omega⟩
    rw [hbef, show c - 1 + 1 = c by omega, hat]
    rfl

theorem consecutive_sorted (sp : SpecialTokens) (tokens : List Nat) :
    (consecutive sp tokens).Pairwise (· < ·) :=
  ((pairwise_lt_range).filter _).map _ fun _ _ h => Nat.succ_lt_succ h

inductive CutsFrom (sp : SpecialTokens) (tokens : List Nat) : Nat → List Nat → Prop
  | nil (last : Nat) : CutsFrom sp tokens last []
  | cons {last slice : Nat} {cuts : List Nat} (hlt : last < slice)
    (hfirst : sp.timestampAt tokens last = true) (hlast : sp.timestampAt tokens (slice - 1) = true)
    (hcuts : CutsFrom sp tokens slice cuts) : CutsFrom sp tokens last (slice :: cuts)

/-- Where timestamps meet, the window is cut into pieces, and what is behind may be one too. -/
theorem cutsFrom_of_consecutive {tail : List Nat} (cuts : List Nat) :
    ∀ last, sp.timestampAt tokens last = true → (∀ c ∈ cuts, last < c) → cuts.Pairwise (· < ·) →
      (∀ c ∈ cuts, c ∈ consecutive sp tokens) →
      (∀ c, sp.timestampAt tokens c = true → CutsFrom sp tokens c tail) →
      CutsFrom sp tokens last (cuts ++ tail) := by
  induction cuts with
  | nil => intro last hl _ _ _ ht; exact ht last hl
  | cons c cuts ih =>
    intro last hl hlt hs hm ht
    obtain ⟨-, hb, hat⟩ := mem_consecutive.mp (hm c mem_cons_self)
    obtain ⟨hc, hs⟩ := pairwise_cons.mp hs
    exact .cons (hlt c mem_cons_self) hl hb
      (ih c hat hc hs (fun d hd => hm d (mem_cons_of_mem _ hd)) ht)

/-! ### Pieces -/

variable {first last : Nat} {α : Type}

theorem sliceOf_eq_ok {items : List α} (h : first ≤ last) (hl : last ≤ items.length) :
    sliceOf items first last = .ok ((items.drop first).take (last - first)) :=
  if_pos ⟨h, hl⟩

theorem sinceBegin_eq_ok {t : Nat} (h : sp.isTimestamp t = true) :
    sinceBegin sp t = .ok (t - sp.timestampBegin) :=
  if_pos (SpecialTokens.isTimestamp_iff.mp h)

/-- A segment whose tokens start and end with timestamps, in order. -/
def Segment.Bounded (sp : SpecialTokens) (segment : Segment) : Prop :=
  ∃ a b, segment.tokens.head? = some a ∧ segment.tokens.getLast? = some b ∧
    sp.isTimestamp a = true ∧ sp.isTimestamp b = true ∧ a ≤ b

theorem head?_piece (items : List α) (h : first < last) :
    ((items.drop first).take (last - first)).head? = items[first]? := by
  rw [head?_take, if_neg (by omega), head?_drop]

theorem getLast?_piece {items : List α} (h : first < last) (hl : last ≤ items.length) :
    ((items.drop first).take (last - first)).getLast? = items[last - 1]? := by
  rw [getLast?_eq_getElem?, length_take, length_drop,
    Nat.min_eq_left (by omega), getElem?_take_of_lt (by omega), getElem?_drop]
  congr 1
  omega

variable {tokenizer : WhisperTokenizer} {result : DecodingResult}

theorem cutPieces_spec (hr : Decoded tokenizer.special result) (firstId seek : Nat)
    (cuts : List Nat) : ∀ count last, CutsFrom tokenizer.special result.tokens last cuts →
      ∃ segments, cutPieces tokenizer firstId seek result count last cuts = .ok segments ∧
        segments.flatMap Segment.tokens <+: result.tokens.drop last ∧
        (∀ segment ∈ segments, segment.Bounded tokenizer.special) ∧
        segments.length = cuts.length := by
  induction cuts with
  | nil =>
    intro count last _
    exact ⟨[], rfl, nil_prefix, fun _ h => (nomatch h), rfl⟩
  | cons slice cuts ih =>
    intro count last hc
    cases hc with
    | cons hlt hf hl hc =>
      obtain ⟨a, ha, hats⟩ := timestampAt_eq_true.mp hf
      obtain ⟨b, hb, hbts⟩ := timestampAt_eq_true.mp hl
      have hle : slice ≤ result.tokens.length := by
        have := timestampAt_lt hl
        omega
      have hab : a ≤ b := by
        obtain hsa | hbef := (Nat.le_sub_one_of_lt hlt).eq_or_lt
        · rw [← hsa, ha] at hb
          exact (Option.some.inj hb).le
        · exact hr.rules.ordered last (slice - 1) a b hbef ha hb hats hbts
      obtain ⟨segments, hsegs, hpre, hbdd, hlen⟩ := ih (count + 1) slice hc
      set piece := (result.tokens.drop last).take (slice - last) with hp
      have hh : piece.head? = some a := (head?_piece _ hlt).trans ha
      have ht : piece.getLast? = some b := (getLast?_piece hlt hle).trans hb
      refine ⟨newSegment tokenizer (firstId + count) seek
        (secondsOf seek + (a - tokenizer.special.timestampBegin : Nat) * timePrecision)
        (secondsOf seek + (b - tokenizer.special.timestampBegin : Nat) * timePrecision) piece
        ((result.logprobs.drop last).take (slice - last)) result :: segments, ?_, ?_, ?_, ?_⟩
      · rw [cutPieces, sliceOf_eq_ok hlt.le hle, ← hp]
        show (present piece.head? >>= sinceBegin tokenizer.special) >>= _ = _
        rw [hh, ht]
        show sinceBegin tokenizer.special a >>= _ = _
        rw [sinceBegin_eq_ok hats]
        show sinceBegin tokenizer.special b >>= _ = _
        rw [sinceBegin_eq_ok hbts, sliceOf_eq_ok hlt.le (by rw [hr.logprobs]; exact hle), hsegs]
        rfl
      · have hs : result.tokens.drop last = piece ++ result.tokens.drop slice := by
          have hd : (result.tokens.drop last).drop (slice - last) = result.tokens.drop slice := by
            rw [drop_drop, Nat.add_sub_cancel' hlt.le]
          rw [← hd]
          exact (take_append_drop _ _).symm
        rw [flatMap_cons, hs]
        exact (prefix_append_right_inj _).mpr hpre
      · intro segment hseg
        obtain rfl | hseg := mem_cons.mp hseg
        · exact ⟨a, b, hh, ht, hats, hbts, hab⟩
        · exact hbdd segment hseg
      · rw [length_cons, length_cons, hlen]

/-! ### A window -/

theorem uncutDuration_ok (sp : SpecialTokens) (tokens : List Nat) (segmentSize : Nat) :
    ∃ duration, uncutDuration sp tokens segmentSize = .ok duration := by
  rw [uncutDuration]
  cases hf : sp.lastTimestamp? tokens with
  | none => exact ⟨_, rfl⟩
  | some =>
    dsimp only
    split_ifs
    · obtain ⟨_, -, hl, -⟩ := SpecialTokens.lastTimestamp?_eq_some hf
      rw [sinceBegin_eq_ok hl]
      exact ⟨_, rfl⟩
    · exact ⟨_, rfl⟩

/-- The first timestamps meet behind some text, so behind a later time than the first. -/
theorem consecutive_later (h : Timestamped sp tokens) {c : Nat} (hc : c ∈ consecutive sp tokens) :
    ∃ t, tokens[c - 1]? = some t ∧ sp.timestampBegin < t := by
  obtain ⟨hp, hbef, hat⟩ := mem_consecutive.mp hc
  obtain ⟨a, ha, hats⟩ := timestampAt_eq_true.mp hbef
  obtain ⟨b, hb, hbts⟩ := timestampAt_eq_true.mp hat
  have hlen := timestampAt_lt hat
  have hs : ∀ {i t : Nat}, i = 1 → tokens[i]? = some t → sp.isTimestamp t = true → False := by
    rintro _ t rfl ht hts
    rw [h.second t ht] at hts
    cases hts
  have ho : c ≠ 1 := fun hc => hs hc hb hbts
  have htwo : c - 1 ≠ 1 := fun hc => hs hc ha hats
  have hf : tokens[0]? = some tokens[0] := getElem?_eq_getElem (by omega)
  have hte : tokens[1]? = some tokens[1] := getElem?_eq_getElem (by omega)
  have hbegin := SpecialTokens.isTimestamp_iff.mp (h.first _ hf)
  have hlt := h.strict 0 1 (c - 1) _ _ a (by omega) (by omega) hf hte ha (h.first _ hf)
    (h.second _ hte) hats
  exact ⟨a, ha, by omega⟩

theorem cutsFrom_consecutive (tail : List Nat) (h : Timestamped sp tokens) (hne : tokens ≠ [])
    (ht : ∀ c, sp.timestampAt tokens c = true → CutsFrom sp tokens c tail) :
    CutsFrom sp tokens 0 (consecutive sp tokens ++ tail) := by
  have hl := length_pos_of_ne_nil hne
  have hf : tokens[0]? = some tokens[0] := getElem?_eq_getElem hl
  refine cutsFrom_of_consecutive _ 0 (timestampAt_eq_true.mpr ⟨_, hf, h.first _ hf⟩) ?_
    (consecutive_sorted sp tokens) (fun _ hc => hc) ht
  intro c hc
  exact (mem_consecutive.mp hc).1

theorem cutWindow_spec (hr : Decoded tokenizer.special result) (firstId seek : Nat)
    {segmentSize : Nat} (hsi : 0 < segmentSize) :
    ∃ cut advance, cutWindow tokenizer firstId seek segmentSize result = .ok (cut, advance) ∧
      0 < advance ∧ cut ≠ [] ∧ cut.flatMap Segment.tokens <+: result.tokens ∧
      (consecutive tokenizer.special result.tokens ≠ [] →
        ∀ segment ∈ cut, segment.Bounded tokenizer.special) := by
  have hno : ∀ {segments : List Segment} {n : Nat}, 0 < n → segments.length = n →
      segments ≠ [] := by
    rintro _ n hn rfl
    exact ne_nil_of_length_pos hn
  rw [cutWindow]
  split_ifs with hcu hsgl
  · obtain ⟨duration, hd⟩ := uncutDuration_ok tokenizer.special result.tokens segmentSize
    refine ⟨[newSegment tokenizer firstId seek (secondsOf seek) (secondsOf seek + duration)
      result.tokens result.logprobs result], segmentSize, ?_, hsi, cons_ne_nil _ _, ?_,
      fun hne => absurd hcu hne⟩
    · rw [hd]
      rfl
    · rw [flatMap_singleton]
      exact prefix_rfl
  · -- a single timestamp at the end closes the last piece
    obtain ⟨hl, he⟩ := Bool.and_eq_true_iff.mp hsgl
    obtain ⟨hl, hbef⟩ := Bool.and_eq_true_iff.mp hl
    obtain ⟨segments, hs, hp, hb, hlen⟩ := cutPieces_spec hr firstId seek
      _ 0 0 (cutsFrom_consecutive [result.tokens.length] hr.rules hr.nonempty
        fun c hc => .cons (timestampAt_lt hc) hc he (.nil _))
    refine ⟨segments, segmentSize, ?_, hsi, hno ?_ hlen, hp, fun _ => hb⟩
    · rw [hs]
      rfl
    · rw [length_append, length_singleton]
      exact Nat.succ_pos _
  · have ha := cutsFrom_consecutive [] hr.rules hr.nonempty
      fun c _ => .nil c
    rw [append_nil] at ha
    obtain ⟨segments, hs, hp, hb, hlen⟩ :=
      cutPieces_spec hr firstId seek _ 0 0 ha
    have hla : (consecutive tokenizer.special result.tokens).getLastD 0 ∈
        consecutive tokenizer.special result.tokens := by
      rw [getLastD_eq_getLast?, getLast?_eq_some_getLast hcu]
      exact getLast_mem hcu
    obtain ⟨t, ht, hlt⟩ := consecutive_later hr.rules hla
    refine ⟨segments, (t - tokenizer.special.timestampBegin) * inputStride, ?_, ?_,
      hno (length_pos_of_ne_nil hcu) hlen, hp, fun _ => hb⟩
    · rw [hs]
      rw [ht]
      show sinceBegin tokenizer.special t >>= _ = _
      rw [sinceBegin_eq_ok (SpecialTokens.isTimestamp_iff.mpr hlt.le)]
      rfl
    · exact Nat.mul_pos (Nat.sub_pos_of_lt hlt) (by decide)

/-! ### Runs -/

/-- A window that is decoded by the rules, cut into pieces that follow each other, and left for a
later one. -/
structure Window.Advances (sp : SpecialTokens) (w : Window) : Prop where
  decoded : Decoded sp w.result
  later : w.seek < w.next
  cut : w.result.shouldSkip = false → w.cut ≠ []
  pieces : w.cut.flatMap Segment.tokens <+: w.result.tokens
  bounded : consecutive sp w.result.tokens ≠ [] → ∀ segment ∈ w.cut, segment.Bounded sp

variable {L σ ρ τ : Type} {setting : Setting L σ ρ τ}

/-- Progress in windows that each start where the one before it ended. -/
structure Progress.Sound (setting : Setting L σ ρ τ) (p : Progress σ ρ τ) : Prop where
  reset : p.promptResetSince ≤ p.allTokens.length
  prompt : setting.initialPrompt.length ≤ p.allTokens.length
  windows : ∀ w ∈ p.windows, w.Advances setting.tokenizer.special
  chain : p.windows.IsChain fun v w => v.next = w.seek
  last : ∀ w, p.windows.getLast? = some w → w.next = p.seek

theorem Progress.Sound.start (s : σ) (rng : ρ) (heard : τ) :
    Progress.Sound setting (Progress.start setting s rng heard) where
  reset := Nat.zero_le _
  prompt := le_rfl
  windows _ h := nomatch h
  chain := List.IsChain.nil
  last _ h := nomatch h

variable {p : Progress σ ρ τ}

theorem Progress.Sound.concat {p' : Progress σ ρ τ} (hp : Progress.Sound setting p) {w : Window}
    (hw : w.Advances setting.tokenizer.special) (hs : w.seek = p.seek)
    (hwi : p'.windows = p.windows ++ [w]) (hse : p'.seek = w.next)
    (hr : p'.promptResetSince ≤ p'.allTokens.length)
    (ht : p.allTokens.length ≤ p'.allTokens.length) : Progress.Sound setting p' where
  reset := hr
  prompt := hp.prompt.trans ht
  windows v hv := by
    rw [hwi] at hv
    obtain hv | hv := mem_append.mp hv
    · exact hp.windows v hv
    · rw [mem_singleton.mp hv]
      exact hw
  chain := by
    rw [hwi]
    refine hp.chain.append (isChain_singleton _) ?_
    intro v hv u hu
    obtain rfl : w = u := by simpa using hu
    rw [hs]
    exact hp.last v (Option.mem_def.mp hv)
  last v hv := by
    rw [hwi, getLast?_concat] at hv
    rw [hse, Option.some.inj hv]

/-- Words are not aligned, and what is told of segments is always heard. -/
structure Setting.Plain (setting : Setting L σ ρ τ) : Prop where
  words : setting.options.wordTimestamps = false
  heard : ∀ heard segments, ∃ heard', setting.onSegments heard segments = .ok heard'

theorem keepWindow_spec (hplain : setting.Plain)
    (hp : Progress.Sound setting p) (s : σ) (rng : ρ) {segmentSize : Nat} (hsi : 0 < segmentSize)
    {result : DecodingResult} (hr : Decoded setting.tokenizer.special result) :
    ∃ p', keepWindow setting p s rng segmentSize result = .ok p' ∧ Progress.Sound setting p' ∧
      p.seek < p'.seek := by
  obtain ⟨cut, advance, hc, ha, hs, hpi, hb⟩ :=
    cutWindow_spec hr p.allSegments.length p.seek hsi
  obtain ⟨heard, hh⟩ := hplain.heard p.heard (cut.map Segment.clear)
  have hplaced : placeWords setting p s segmentSize result cut (p.seek + advance) =
      .ok ⟨cut, p.seek + advance, p.lastSpeechTimestamp, s⟩ := by
    rw [placeWords, hplain.words]
    rfl
  have hl : p.seek < p.seek + advance := by omega
  rw [keepWindow, hc]
  show ∃ p', (placeWords setting p s segmentSize result cut (p.seek + advance) >>= _) = _ ∧ _
  rw [hplaced]
  show ∃ p', (setting.onSegments p.heard (cut.map Segment.clear) >>= _) = _ ∧ _
  rw [hh]
  refine ⟨_, rfl, hp.concat (w := ⟨p.seek, p.seek + advance, result, cut, cut.map Segment.clear⟩)
    ⟨hr, hl, fun _ => hs, hpi, hb⟩ rfl rfl rfl ?_ ?_, hl⟩
  · dsimp only
    split_ifs
    · exact le_rfl
    · rw [length_append]
      exact hp.reset.trans (Nat.le_add_right _ _)
  · rw [length_append]
    exact Nat.le_add_right _ _

variable [LinearOrder L] [OrderBot L]

/-- **One window** of the loop goes on. -/
theorem transcribeWindow_spec (hfr : setting.tokenizer.special.Free)
    (ho : setting.tokenizer.special.Ordered) (hf : setting.forward.Whole)
    (hn : setting.numerics.Unmasked setting.tokenizer.special) (hpl : setting.Plain)
    (hp : Progress.Sound setting p) (hse : p.seek < setting.contentFrames) :
    ∃ p', transcribeWindow setting p = .ok p' ∧ Progress.Sound setting p' ∧ p.seek < p'.seek := by
  set segmentSize := min windowFrames (setting.contentFrames - p.seek) with hsi
  have hpos : 0 < segmentSize := by
    have : 0 < windowFrames := by decide
    omega
  obtain ⟨s, hs⟩ : ∃ s, encodeWindow setting p segmentSize = .ok s := by
    rw [encodeWindow]
    split_ifs
    · exact ⟨_, rfl⟩
    · exact hf.encode _ _ _
  obtain ⟨result, s', rng, hd, hr⟩ := decodeWithFallback_timestamped hfr ho
    hf hn setting.options.task setting.options.language setting.options.temperature
    ((p.allTokens.drop p.promptResetSince).take (p.allTokens.length - p.promptResetSince)) s p.rng
  have hw : transcribeWindow setting p =
      if result.shouldSkip then .ok (skipWindow p s' rng segmentSize result)
      else keepWindow setting p s' rng segmentSize result := by
    rw [transcribeWindow]
    rw [hs]
    rw [sliceOf_eq_ok hp.reset le_rfl]
    show (decodeWithFallback _ _ _ _ _ _ _ _ _ >>= _) = _
    rw [hd]
    rfl
  rw [hw]
  split_ifs with hsk
  · have hl : p.seek < p.seek + segmentSize := by omega
    refine ⟨_, rfl, hp.concat (w := ⟨p.seek, p.seek + segmentSize, result, [], []⟩)
      ⟨hr, hl, fun hno => ?_, nil_prefix, fun _ _ h => (nomatch h)⟩ rfl rfl rfl hp.reset
      le_rfl, hl⟩
    rw [hsk] at hno
    cases hno
  · exact keepWindow_spec hpl hp s' rng hpos hr

/-- **The loop** ends within a window for each frame. -/
theorem transcribeFrom_spec (hf : setting.tokenizer.special.Free)
    (ho : setting.tokenizer.special.Ordered) (hfwd : setting.forward.Whole)
    (hn : setting.numerics.Unmasked setting.tokenizer.special) (hpl : setting.Plain)
    (left : Nat) : ∀ p, Progress.Sound setting p → setting.contentFrames ≤ p.seek + left →
      ∃ p', transcribeFrom setting left p = .ok p' ∧ Progress.Sound setting p' ∧
        setting.contentFrames ≤ p'.seek := by
  induction left with
  | zero =>
    intro p hp hl
    exact ⟨p, if_neg (Nat.not_lt.mpr hl), hp, hl⟩
  | succ left ih =>
    intro p hp hl
    rw [transcribeFrom]
    split_ifs with hs
    · obtain ⟨p₁, hw, hp₁, hla⟩ :=
        transcribeWindow_spec hf ho hfwd hn hpl hp hs
      obtain ⟨p', hr, hp', he⟩ := ih p₁ hp₁ (by omega)
      exact ⟨p', bind_eq_ok.mpr ⟨p₁, hw, hr⟩, hp', he⟩
    · exact ⟨p, rfl, hp, Nat.not_lt.mp hs⟩

/-- **Transcription advances.**  Every window that is decoded, at any prompt and temperature, leaves
some token at every step and keeps the rules for timestamps; so a recording is transcribed within a
window for each of its frames, each cut into pieces from its first token on, and each behind the one
before it. -/
theorem transcription_advances (setting : Setting L σ ρ τ)
    (hvalid : setting.tokenizer.special.validate = .ok ())
    (hfree : setting.tokenizer.special.Free) (hforward : setting.forward.Whole)
    (hnumerics : setting.numerics.Unmasked setting.tokenizer.special) (hplain : setting.Plain)
    (s : σ) (rng : ρ) (heard : τ) :
    (∀ (task : Task) (language : Nat) (prompt : List Nat) (temperature : ℚ) (s : σ) (rng : ρ),
      ∃ samples result s' rng', decodeWindow setting.forward setting.numerics setting.tokenizer task
          language prompt temperature s rng = .ok ((samples, result), s', rng') ∧
        (∀ sample ∈ samples, ∃ t < vocab, sample.row t ≠ ⊥) ∧
        Decoded setting.tokenizer.special result) ∧
    ∃ outcome, transcribe setting setting.contentFrames s rng heard = .ok outcome ∧
      setting.contentFrames ≤ outcome.last.seek ∧
      (∀ w ∈ outcome.last.windows, w.Advances setting.tokenizer.special) ∧
      outcome.last.windows.IsChain (fun v w => v.next = w.seek) := by
  have ho := SpecialTokens.ordered_of_validate hvalid
  refine ⟨fun task language prompt temperature s rng => decodeWindow_timestamped hfree ho
    hforward hnumerics task language prompt temperature s rng, ?_⟩
  obtain ⟨last, hl, hs, hend⟩ := transcribeFrom_spec hfree ho hforward hnumerics hplain
    setting.contentFrames _ (Progress.Sound.start s rng heard) (Nat.le_add_left _ _)
  refine ⟨⟨last, (last.allTokens.drop setting.initialPrompt.length).take
    (last.allTokens.length - setting.initialPrompt.length)⟩, ?_, hend, hs.windows, hs.chain⟩
  rw [transcribe, hl]
  show (sliceOf last.allTokens setting.initialPrompt.length last.allTokens.length >>= _) = _
  rw [sliceOf_eq_ok hs.prompt le_rfl]
  rfl

/-! ### A model that knows nothing -/

/-- Every token is as likely as every other. -/
def evenForward : Forward Unit Bool where
  encode s _ _ := .ok s
  prefill s _ rows := .ok (rows.map fun _ _ => true, s)
  step s _ := .ok (fun _ => true, s)

def evenNumerics : Numerics Bool Unit where
  prefer _ := false
  draw rng _ row := (argmax row, rng)
  logprob _ _ := 0
  probability _ _ := 0
  compressionRatio _ := 1

theorem evenForward_whole : evenForward.Whole where
  encode s _ _ := ⟨s, rfl⟩
  prefill s _ rows := by
    refine ⟨_, s, rfl, length_map _, ?_⟩
    intro row hr t _
    obtain ⟨_, -, rfl⟩ := mem_map.mp hr
    exact Bool.true_eq_false.mp
  step s _ := ⟨_, s, rfl, fun _ _ => Bool.true_eq_false.mp⟩

theorem evenNumerics_unmasked (sp : SpecialTokens) : evenNumerics.Unmasked sp where
  prefer _ h := by cases h
  draw rng temperature row hr := by
    simp only [evenNumerics]
    exact ⟨argmax_lt row, argmax_ne_bot hr⟩

theorem largeTokens_free : largeTokens.Free where
  eot := ⟨by rw [SpecialTokens.mem_suppressed]; decide, by decide⟩
  timestamps t ht := by
    have hs : ∀ id ∈ largeTokens.suppressTokens ++ [largeTokens.transcribe,
        largeTokens.translate, largeTokens.sot, largeTokens.sotPrev, largeTokens.sotLm,
        largeTokens.noSpeech], id < largeTokens.timestampBegin := by decide
    have hb : ∀ id ∈ largeTokens.beginSuppressTokens, id < largeTokens.timestampBegin := by
      decide
    rw [SpecialTokens.mem_suppressed]
    exact ⟨fun hm => absurd ht (Nat.not_le.mpr (hs t hm)),
      fun hm => absurd ht (Nat.not_le.mpr (hb t hm))⟩

def evenSetting (contentFrames : Nat) : Setting Bool Unit Unit Unit where
  forward := evenForward
  numerics := evenNumerics
  tokenizer := ⟨[], largeTokens, by decide⟩
  addWordTimestamps s _ _ _ := .ok (fun _ => (0, 0, []), s)
  onSegments heard _ := .ok heard
  options := ⟨.transcribe, 50259, false, .fallback, true⟩
  contentFrames := contentFrames
  firstWindowEncoded := false
  initialPrompt := []

theorem even_hour_advances : ∃ outcome, transcribe (evenSetting 360000) 360000 () () () =
    .ok outcome ∧ 360000 ≤ outcome.last.seek := by
  have ha := (transcription_advances (evenSetting 360000) (by decide +kernel) largeTokens_free
    evenForward_whole (evenNumerics_unmasked _)
    ⟨rfl, fun heard _ => ⟨heard, rfl⟩⟩ () () ()).2
  exact ha.imp fun _ hr => ⟨hr.1, hr.2.1⟩

end LocalAi.Transcription
