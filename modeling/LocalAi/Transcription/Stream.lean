import LocalAi.Transcription.Advance
import LocalAi.Transcription.Lossy
import LocalAi.Tools.Pieces

/-!
# Streaming a transcription

A streamed transcription sends the text of each window's segments as a delta, and at its end the
text of all kept tokens.

* `Told`: what has been told of the segments so far.
* `Seamless`: no segment goes on with a character that the segments before it end inside.
* `stream_spells_iff`: the deltas spell the final text if and only if the segments are seamless.
-/

open List

namespace LocalAi.Transcription

open Lib (bind_eq_ok)
open Tools (trimStart_append)

/-! ### The deltas -/

def tokensOf (segments : List Segment) : List Nat := segments.flatMap Segment.tokens

def textOf (segments : List Segment) : Text := segments.flatMap Segment.text

structure Told where
  first : Bool
  deltas : List Text
  deriving DecidableEq, Repr

def deltaOf (first : Bool) (segments : List Segment) : Text :=
  if first then trimStart (textOf segments) else textOf segments

/-- One window's segments as a delta; `taken` says whether the client takes a delta. -/
def tellSegments (taken : Nat → Bool) (told : Told) (segments : List Segment) :
    Except Failure Told :=
  let delta := deltaOf told.first segments
  if delta = [] then .ok told
  else if taken told.deltas.length then .ok ⟨false, told.deltas ++ [delta]⟩
  else .error (.error "client went away".toList)

/-- A finished stream: the deltas, the text of the event at its end, and what was transcribed. -/
structure Streamed (σ ρ : Type) where
  deltas : List Text
  done : Text
  outcome : Outcome σ ρ Told

section

variable {L σ ρ : Type} (setting : Setting L σ ρ Told) (taken : Nat → Bool)

def Setting.streaming : Setting L σ ρ Told := { setting with onSegments := tellSegments taken }

/-- Transcribe and stream, within a number of windows. -/
def stream [LinearOrder L] [OrderBot L] (windows : Nat) (s : σ) (rng : ρ) :
    Except Failure (Streamed σ ρ) := do
  let outcome ← transcribe (setting.streaming taken) windows s rng ⟨true, []⟩
  .ok ⟨outcome.last.heard.deltas, trim (setting.tokenizer.decode outcome.textTokens), outcome⟩

end

/-! ### Segments and their texts -/

/-- A segment as it is kept: its text is its tokens', and not blank, if any. -/
structure Segment.Kept (tokenizer : WhisperTokenizer) (segment : Segment) : Prop where
  text : segment.text = tokenizer.decode segment.tokens
  blank : trimStart segment.text = [] → segment.text = []

def Seamless (tokenizer : WhisperTokenizer) (segments : List Segment) : Prop :=
  ∀ before segment after, segments = before ++ segment :: after →
    ¬GoesOn (tokenizer.raw (tokensOf before)) (tokenizer.raw segment.tokens)

variable {tokenizer : WhisperTokenizer}

theorem tokensOf_append (a b : List Segment) : tokensOf (a ++ b) = tokensOf a ++ tokensOf b :=
  flatMap_append

theorem textOf_append (a b : List Segment) : textOf (a ++ b) = textOf a ++ textOf b :=
  flatMap_append

variable {segments : List Segment} {result : DecodingResult} {seek segmentSize : Nat}

theorem seamless_concat {segment : Segment} :
    Seamless tokenizer (segments ++ [segment]) ↔ Seamless tokenizer segments ∧
      ¬GoesOn (tokenizer.raw (tokensOf segments)) (tokenizer.raw segment.tokens) := by
  constructor
  · intro h
    refine ⟨?_, h segments segment [] rfl⟩
    rintro before found after rfl
    exact h before found (after ++ [segment]) (by simp)
  · rintro ⟨hf, hl⟩ before found after hs
    obtain rfl | ⟨after, last, rfl⟩ := eq_nil_or_concat' after
    · obtain ⟨rfl, hsa⟩ := append_inj' hs rfl
      obtain rfl := singleton_inj.mp hsa
      exact hl
    · have hs' : segments ++ [segment] = (before ++ found :: after) ++ [last] := by
        rw [hs]
        simp
      exact hf before found after (append_inj' hs' rfl).1

/-- The texts of kept segments against the text of their tokens: the same where they are seamless,
and with more replacement characters where they are not. -/
theorem decode_segments (h : ∀ s ∈ segments, s.Kept tokenizer) :
    (Seamless tokenizer segments ∧ tokenizer.decode (tokensOf segments) = textOf segments) ∨
    (¬Seamless tokenizer segments ∧
      replacements (tokenizer.decode (tokensOf segments)) < replacements (textOf segments)) := by
  induction segments using reverseRecOn with
  | nil =>
    refine .inl ⟨fun before segment after hsp => ?_, rfl⟩
    cases before <;> cases hsp
  | append_singleton segments segment ih =>
    have hl := h segment (by simp)
    have hf := ih fun s hs => h s (mem_append_left _ hs)
    have hte : textOf (segments ++ [segment]) = textOf segments ++
        Workspace.fromUtf8Lossy (tokenizer.raw segment.tokens) := by
      rw [textOf_append, show textOf [segment] = segment.text from flatMap_singleton .., hl.text]
      rfl
    have ht : tokenizer.decode (tokensOf (segments ++ [segment])) = Workspace.fromUtf8Lossy
        (tokenizer.raw (tokensOf segments) ++ tokenizer.raw segment.tokens) := by
      rw [tokensOf_append, show tokensOf [segment] = segment.tokens from flatMap_singleton ..,
        WhisperTokenizer.decode, WhisperTokenizer.raw_append]
    rw [hte, ht, seamless_concat, replacements_append]
    rw [WhisperTokenizer.decode] at hf
    by_cases hg : GoesOn (tokenizer.raw (tokensOf segments)) (tokenizer.raw segment.tokens)
    · refine .inr ⟨fun hb => hb.2 hg, (replacements_lt hg).trans_le ?_⟩
      obtain ⟨-, heq⟩ | ⟨-, hlt⟩ := hf
      · rw [heq]
      · exact Nat.add_le_add_right hlt.le _
    · rw [fromUtf8Lossy_append hg, replacements_append]
      obtain ⟨hseamless, heq⟩ | ⟨hseams, hlt⟩ := hf
      · exact .inl ⟨⟨hseamless, hg⟩, by rw [heq]⟩
      · exact .inr ⟨fun hb => hseams hb.1, Nat.add_lt_add_right hlt _⟩

/-! ### Trimming -/

theorem replacements_dropWhile (text : Text) :
    replacements (text.dropWhile isWhitespace) = replacements text := by
  induction text with
  | nil => rfl
  | cons c text ih =>
    rw [dropWhile_cons]
    split_ifs with hc
    · have hne : c ≠ Workspace.replacementCharacter := by
        rintro rfl
        exact absurd hc (by decide)
      rw [ih, replacements, replacements, count_cons_of_ne hne]
    · rfl

theorem replacements_trim (text : Text) : replacements (trim text) = replacements text := by
  rw [trim, trimEnd, rdropWhile, replacements, count_reverse]
  refine (replacements_dropWhile _).trans ?_
  rw [replacements, count_reverse]
  exact replacements_dropWhile text

theorem textOf_blank (h : ∀ s ∈ segments, s.Kept tokenizer)
    (hb : trimStart (textOf segments) = []) : textOf segments = [] := by
  induction segments with
  | nil => rfl
  | cons segment segments ih =>
    have hsp : textOf (segment :: segments) = segment.text ++ textOf segments :=
      flatMap_cons ..
    rw [hsp] at hb ⊢
    have hseg := h segment mem_cons_self
    by_cases hf : trimStart segment.text = []
    · rw [hseg.blank hf, nil_append] at hb ⊢
      exact ih (fun s hs => h s (mem_cons_of_mem _ hs)) hb
    · rw [trimStart_append hf] at hb
      exact absurd (append_eq_nil_iff.mp hb).1 hf

/-! ### Windows -/

/-- A segment whose text is its regular tokens'. -/
def Segment.Spelled (tokenizer : WhisperTokenizer) (segment : Segment) : Prop :=
  segment.text = tokenizer.decode segment.tokens

theorem newSegment_spelled (id seek : Nat) (start stop : ℚ) (tokens : List Nat)
    (logprobs : List ℚ) (result : DecodingResult) :
    (newSegment tokenizer id seek start stop tokens logprobs result).Spelled tokenizer := by
  show tokenizer.decode (tokens.filter fun t => t < tokenizer.special.eot) = tokenizer.decode tokens
  rw [WhisperTokenizer.decode, WhisperTokenizer.raw_filter]
  rfl

theorem Segment.Spelled.clear {segment : Segment} (h : segment.Spelled tokenizer) :
    segment.clear.Kept tokenizer := by
  rw [Segment.clear]
  split_ifs with hb
  · exact ⟨rfl, fun _ => rfl⟩
  · refine ⟨h, fun ht => absurd (.inr ?_) hb⟩
    rw [trim, ht]
    rfl

theorem cutPieces_spelled {firstId : Nat} {cuts : List Nat} :
    ∀ {count last : Nat} {segments : List Segment},
      cutPieces tokenizer firstId seek result count last cuts = .ok segments →
      ∀ segment ∈ segments, segment.Spelled tokenizer := by
  induction cuts with
  | nil =>
    rintro count last _ ⟨⟩ segment hs
    cases hs
  | cons slice cuts ih =>
    intro count last segments h
    obtain ⟨piece, -, h⟩ := bind_eq_ok.mp h
    obtain ⟨start, -, h⟩ := bind_eq_ok.mp h
    obtain ⟨stop, -, h⟩ := bind_eq_ok.mp h
    obtain ⟨logprobs, -, h⟩ := bind_eq_ok.mp h
    obtain ⟨rest, hr, he⟩ := bind_eq_ok.mp h
    obtain rfl := Except.ok.inj he
    intro segment hs
    obtain rfl | hs := mem_cons.mp hs
    · exact newSegment_spelled ..
    · exact ih hr segment hs

theorem cutWindow_spelled {firstId advance : Nat} {cut : List Segment}
    (h : cutWindow tokenizer firstId seek segmentSize result = .ok (cut, advance)) :
    ∀ segment ∈ cut, segment.Spelled tokenizer := by
  rw [cutWindow] at h
  split_ifs at h
  · obtain ⟨duration, -, he⟩ := bind_eq_ok.mp h
    obtain ⟨rfl, -⟩ := Prod.mk.inj (Except.ok.inj he)
    intro segment hseg
    rw [mem_singleton.mp hseg]
    exact newSegment_spelled ..
  · obtain ⟨segments, hs, he⟩ := bind_eq_ok.mp h
    obtain ⟨rfl, -⟩ := Prod.mk.inj (Except.ok.inj he)
    exact cutPieces_spelled hs
  · obtain ⟨segments, hs, h⟩ := bind_eq_ok.mp h
    obtain ⟨last, -, he⟩ := bind_eq_ok.mp h
    obtain ⟨rfl, -⟩ := Prod.mk.inj (Except.ok.inj he)
    exact cutPieces_spelled hs

variable {L σ ρ : Type}

variable {p : Progress σ ρ Told}

theorem placeWords_spelled {setting : Setting L σ ρ Told} {s : σ}
    {cut : List Segment} {placed : Placed σ}
    (h : placeWords setting p s segmentSize result cut seek = .ok placed)
    (hc : ∀ segment ∈ cut, segment.Spelled tokenizer) :
    ∀ segment ∈ placed.segments, segment.Spelled tokenizer := by
  rw [placeWords] at h
  split_ifs at h
  · obtain ⟨times, -, he⟩ := bind_eq_ok.mp h
    obtain rfl := Except.ok.inj he
    intro segment hs
    obtain ⟨i, hi, rfl⟩ := mem_mapIdx.mp hs
    exact hc cut[i] (getElem_mem hi)
  · obtain rfl := Except.ok.inj h
    exact hc

/-! ### Runs -/

/-- What has been told, against the segments: their texts without the whitespace in front. -/
structure ToldOf (setting : Setting L σ ρ Told) (p : Progress σ ρ Told) : Prop where
  kept : ∀ segment ∈ p.allSegments, segment.Kept setting.tokenizer
  tokens : p.allTokens = setting.initialPrompt ++ tokensOf p.allSegments
  first : p.heard.first = true ↔ textOf p.allSegments = []
  deltas : p.heard.deltas.flatten = trimStart (textOf p.allSegments)

theorem ToldOf.start (setting : Setting L σ ρ Told) (s : σ) (rng : ρ) :
    ToldOf setting (Progress.start setting s rng ⟨true, []⟩) where
  kept _ h := nomatch h
  tokens := (append_nil _).symm
  first := ⟨fun _ => rfl, fun _ => rfl⟩
  deltas := rfl

theorem tellSegments_told {taken : Nat → Bool} {told told' : Told}
    {current : List Segment} (hk : ∀ s ∈ segments, s.Kept tokenizer)
    (hc : ∀ s ∈ current, s.Kept tokenizer) (hfst : told.first = true ↔ textOf segments = [])
    (hd : told.deltas.flatten = trimStart (textOf segments))
    (h : tellSegments taken told current = .ok told') :
    (told'.first = true ↔ textOf (segments ++ current) = []) ∧
      told'.deltas.flatten = trimStart (textOf (segments ++ current)) := by
  -- the delta, against what was told already
  have hde : (deltaOf told.first current = [] ↔ textOf current = []) ∧
      trimStart (textOf segments) ++ deltaOf told.first current =
        trimStart (textOf segments ++ textOf current) := by
    by_cases hn : textOf segments = []
    · rw [deltaOf, if_pos (hfst.mpr hn), hn]
      exact ⟨⟨textOf_blank hc, fun h => by rw [h]; rfl⟩, rfl⟩
    · rw [deltaOf, if_neg (fun h => hn (hfst.mp h))]
      exact ⟨Iff.rfl, (trimStart_append fun h => hn (textOf_blank hk h)).symm⟩
  obtain ⟨he, happ⟩ := hde
  rw [textOf_append]
  rw [tellSegments] at h
  by_cases hn : deltaOf told.first current = []
  · rw [if_pos hn] at h
    obtain rfl := Except.ok.inj h
    rw [he.mp hn, append_nil]
    exact ⟨hfst, hd⟩
  · rw [if_neg hn] at h
    split_ifs at h
    obtain rfl := Except.ok.inj h
    refine ⟨⟨fun hf => (nomatch hf), fun hall => ?_⟩, ?_⟩
    · exact absurd (he.mpr (append_eq_nil_iff.mp hall).2) hn
    · rw [flatten_append, hd, flatten_singleton]
      exact happ

variable {setting : Setting L σ ρ Told} {taken : Nat → Bool}

theorem keepWindow_told {p' : Progress σ ρ Told} (hp : ToldOf (setting.streaming taken) p) {s : σ}
    {rng : ρ} (h : keepWindow (setting.streaming taken) p s rng segmentSize result = .ok p') :
    ToldOf (setting.streaming taken) p' := by
  obtain ⟨⟨cut, advance⟩, hcut, h⟩ := bind_eq_ok.mp h
  obtain ⟨placed, hpl, h⟩ := bind_eq_ok.mp h
  obtain ⟨heard, hh, hend⟩ := bind_eq_ok.mp h
  obtain rfl := Except.ok.inj hend
  have hc : ∀ segment ∈ placed.segments.map Segment.clear,
      segment.Kept (setting.streaming taken).tokenizer := by
    intro segment hs
    obtain ⟨old, hold, rfl⟩ := mem_map.mp hs
    exact (placeWords_spelled hpl (cutWindow_spelled hcut) old hold).clear
  obtain ⟨hf, hd⟩ := tellSegments_told hp.kept hc hp.first hp.deltas hh
  refine ⟨?_, ?_, hf, hd⟩
  · intro segment hs
    obtain hold | hn := mem_append.mp hs
    · exact hp.kept segment hold
    · exact hc segment hn
  · rw [tokensOf_append, ← append_assoc, ← hp.tokens]
    rfl

variable [LinearOrder L] [OrderBot L]

theorem transcribeWindow_told {p' : Progress σ ρ Told} (hp : ToldOf (setting.streaming taken) p)
    (h : transcribeWindow (setting.streaming taken) p = .ok p') :
    ToldOf (setting.streaming taken) p' := by
  obtain ⟨s, -, h⟩ := bind_eq_ok.mp h
  obtain ⟨prompt, -, h⟩ := bind_eq_ok.mp h
  obtain ⟨⟨result, s', rng⟩, -, h⟩ := bind_eq_ok.mp h
  dsimp only at h
  split_ifs at h
  · obtain rfl := Except.ok.inj h
    exact ⟨hp.kept, hp.tokens, hp.first, hp.deltas⟩
  · exact keepWindow_told hp h

theorem transcribeFrom_told {left : Nat} : ∀ {p p' : Progress σ ρ Told},
    ToldOf (setting.streaming taken) p → transcribeFrom (setting.streaming taken) left p = .ok p' →
      ToldOf (setting.streaming taken) p' := by
  induction left with
  | zero =>
    intro p p' hp h
    rw [transcribeFrom] at h
    split_ifs at h
    rwa [← Except.ok.inj h]
  | succ left ih =>
    intro p p' hp h
    rw [transcribeFrom] at h
    split_ifs at h
    · obtain ⟨p₁, hw, hr⟩ := bind_eq_ok.mp h
      exact ih (transcribeWindow_told hp hw) hr
    · rwa [← Except.ok.inj h]

/-- **The deltas spell the final text** if and only if no kept segment goes on with a character that
those before it end inside. -/
theorem stream_spells_iff (setting : Setting L σ ρ Told) (taken : Nat → Bool) {windows : Nat} {s : σ}
    {rng : ρ} {streamed : Streamed σ ρ} (h : stream setting taken windows s rng = .ok streamed) :
    trimEnd streamed.deltas.flatten = streamed.done ↔
      Seamless setting.tokenizer streamed.outcome.last.allSegments := by
  obtain ⟨outcome, ho, hend⟩ := bind_eq_ok.mp h
  obtain rfl := Except.ok.inj hend
  obtain ⟨last, hl, h⟩ := bind_eq_ok.mp ho
  obtain ⟨textTokens, ht, hout⟩ := bind_eq_ok.mp h
  obtain rfl := Except.ok.inj hout
  have hto := transcribeFrom_told (ToldOf.start _ s rng) hl
  have hte : textTokens = tokensOf last.allSegments := by
    rw [sliceOf, hto.tokens] at ht
    split_ifs at ht with hlen
    rw [← Except.ok.inj ht]
    rw [drop_left, length_append]
    exact take_of_length_le (by
      omega)
  rw [hto.deltas, hte]
  show trim (textOf last.allSegments) = _ ↔ _
  obtain ⟨hs, heq⟩ | ⟨hse, hlt⟩ := decode_segments hto.kept
  · exact ⟨fun _ => hs, fun _ => congrArg trim heq.symm⟩
  · refine ⟨fun hsa => ?_, fun hs => absurd hs hse⟩
    have hc := congrArg replacements hsa
    rw [replacements_trim, replacements_trim] at hc
    exact absurd hc (Nat.ne_of_gt hlt)

/-! ### A character in two segments -/

/-- Tokens drawn from a script, as long as they are not masked. -/
def scriptedNumerics : Numerics Bool (List Nat) where
  prefer _ := false
  draw script _ row := (script.find? fun t => decide (t < vocab) && row t).elim (argmax row, [])
    fun t => (t, script.tail)
  logprob _ _ := 0
  probability _ _ := 0
  compressionRatio _ := 1

/-- Half a minute of audio, with a token of each length for the bytes of a character. -/
def halfMinute : Setting Bool Unit (List Nat) Told where
  forward := evenForward
  numerics := scriptedNumerics
  tokenizer := ⟨[[0xE4], [0xBD, 0xA0], [0xE4, 0xBD, 0xA0]], largeTokens, by decide⟩
  addWordTimestamps s _ _ _ := .ok (fun _ => (0, 0, []), s)
  onSegments told _ := .ok told
  options := ⟨.transcribe, 50259, false, .fixed 1, true⟩
  contentFrames := 3000
  firstWindowEncoded := false
  initialPrompt := []

theorem whole_characters_spelled : ∃ streamed, stream halfMinute (fun _ => true) 3000 ()
      [50365, 2, 50366, 50366, 2, 50367, 50257] = .ok streamed ∧
    trimEnd streamed.deltas.flatten = streamed.done ∧
    Seamless halfMinute.tokenizer streamed.outcome.last.allSegments := by
  have hspelled : ((stream halfMinute (fun _ => true) 3000 ()
      [50365, 2, 50366, 50366, 2, 50367, 50257]).map fun streamed =>
        decide (trimEnd streamed.deltas.flatten = streamed.done)).toOption = some true := by
    decide +kernel
  cases hr : stream halfMinute (fun _ => true) 3000 ()
      [50365, 2, 50366, 50366, 2, 50367, 50257] with
  | error e =>
    rw [hr] at hspelled
    cases hspelled
  | ok streamed =>
    rw [hr] at hspelled
    have heq := of_decide_eq_true (Option.some.inj hspelled)
    exact ⟨streamed, rfl, heq, (stream_spells_iff _ _ hr).mp heq⟩

/-- Its first byte in one segment and the others in the next: three replacement characters are told,
and the final text is the character. -/
theorem split_character_misspelled : ∃ streamed, stream halfMinute (fun _ => true) 3000 ()
      [50365, 0, 50366, 50366, 1, 50367, 50257] = .ok streamed ∧
    streamed.deltas = ["\uFFFD\uFFFD\uFFFD".toList] ∧ streamed.done = "\u4F60".toList ∧
    trimEnd streamed.deltas.flatten ≠ streamed.done := by
  have ht : (stream halfMinute (fun _ => true) 3000 ()
      [50365, 0, 50366, 50366, 1, 50367, 50257]).toOption.map
        (fun streamed => (streamed.deltas, streamed.done)) =
      some (["\uFFFD\uFFFD\uFFFD".toList], "\u4F60".toList) := by decide +kernel
  cases hr : stream halfMinute (fun _ => true) 3000 ()
      [50365, 0, 50366, 50366, 1, 50367, 50257] with
  | error e => rw [hr] at ht; cases ht
  | ok streamed =>
    rw [hr] at ht
    obtain ⟨hd, hdo⟩ := Prod.mk.inj (Option.some.inj ht)
    refine ⟨streamed, rfl, hd, hdo, ?_⟩
    rw [hd, hdo]
    decide

end LocalAi.Transcription
