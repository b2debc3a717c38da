import LocalAi.Tools.Json

/-!
# Captions

Segments as SRT or WebVTT, and what a reader of the format finds in them.

* `readSrt`, `readVtt`: the grammars, by lines and blank lines.
* `Captioned`: the segments come back, and no payload line looks like a timing line.
* `captioned_iff`: they do exactly if no text holds a blank line or an arrow with a longer shaft.

Times are whole milliseconds.
-/

namespace LocalAi.Transcription

structure CaptionSegment where
  start : Nat
  stop : Nat
  text : Text
deriving DecidableEq

/-! ### The writer -/

/-- `{n:0width}`. -/
def padded (width n : Nat) : Text :=
  List.replicate (width - (Nat.toDigits 10 n).length) '0' ++ Nat.toDigits 10 n

def timestamp (total : Nat) (alwaysHours : Bool) (decimal : Char) : Text :=
  let hours := total / 3600000
  let minutes := total % 3600000 / 60000
  let secs := total % 60000 / 1000
  let millis := total % 1000
  (if alwaysHours ∨ 0 < hours then padded 2 hours ++ [':'] else []) ++
    (padded 2 minutes ++ ':' :: (padded 2 secs ++ decimal :: padded 3 millis))

/-- `replace("-->", "->")`. -/
def replaceArrows : Text → Text
  | '-' :: '-' :: '>' :: rest => '-' :: '>' :: replaceArrows rest
  | c :: rest => c :: replaceArrows rest
  | [] => []

def captionText (segment : CaptionSegment) : Text := replaceArrows (trim segment.text)

def arrow : Text := ['-', '-', '>']

def timing (vtt : Bool) (segment : CaptionSegment) : Text :=
  let decimal := if vtt then '.' else ','
  timestamp segment.start (!vtt) decimal ++ ' ' :: (arrow ++ ' ' ::
    timestamp segment.stop (!vtt) decimal)

def cueText (vtt : Bool) (item : CaptionSegment × Nat) : Text :=
  (if vtt then [] else Nat.toDigits 10 item.2 ++ ['\n']) ++ timing vtt item.1 ++
    '\n' :: (captionText item.1 ++ ['\n', '\n'])

/-- The segments that are written, numbered from 1. -/
def spoken (segments : List CaptionSegment) : List (CaptionSegment × Nat) :=
  (segments.filter fun segment => !(trim segment.text).isEmpty).zipIdx 1

def captions (segments : List CaptionSegment) (vtt : Bool) : Text :=
  (if vtt then "WEBVTT\n\n".toList else []) ++ (spoken segments).flatMap (cueText vtt)

/-! ### The grammars -/

/-- A cue of the format; only SRT numbers its cues. -/
structure Cue where
  number : Option Nat
  start : Nat
  stop : Nat
  lines : List Text

def lines (text : Text) : List Text := text.splitOnP fun c => c == '\n'

/-- The runs of lines between blank lines. -/
def blocks (text : Text) : List (List Text) :=
  ((lines text).splitOnP List.isEmpty).filter fun block => !block.isEmpty

def readNumber (text : Text) : Option Nat :=
  if text ≠ [] ∧ text.all Char.isDigit then some (Nat.ofDigitChars 10 text 0) else none

/-- `[hours:]minutes:seconds`, and the milliseconds behind `decimal`. -/
def readTimestamp (decimal : Char) (text : Text) : Option Nat := do
  let [clock, millis] := text.splitOnP fun c => c == decimal | none
  let fields ← (clock.splitOnP fun c => c == ':').mapM readNumber
  let millis ← readNumber millis
  match fields with
  | [hours, minutes, secs] => some (((hours * 60 + minutes) * 60 + secs) * 1000 + millis)
  | [minutes, secs] => some ((minutes * 60 + secs) * 1000 + millis)
  | _ => none

/-- Two timestamps with an arrow between them. -/
def readTiming (decimal : Char) (line : Text) : Option (Nat × Nat) := do
  let [start, between, stop] := line.splitOnP fun c => c == ' ' | none
  if between = arrow then some (← readTimestamp decimal start, ← readTimestamp decimal stop) else none

def readSrtCue : List Text → Option Cue
  | number :: timing :: payload => do
    let number ← readNumber number
    let (start, stop) ← readTiming ',' timing
    some { number := some number, start, stop, lines := payload }
  | _ => none

def readSrt (text : Text) : Option (List Cue) := (blocks text).mapM readSrtCue

def readVttBlock : List Text → Option (List Cue)
  | [] => some []
  | line :: rest =>
    if arrow <:+: line then do
      let (start, stop) ← readTiming '.' line
      let payload := rest.takeWhile fun line => decide ¬arrow <:+: line
      some ({ number := none, start, stop, lines := payload } :: (← readVttBlock rest))
    else readVttBlock rest

def readVtt (text : Text) : Option (List Cue) :=
  match blocks text with
  | header :: rest =>
    if header = ["WEBVTT".toList] then (rest.mapM readVttBlock).map List.flatten else none
  | [] => none

def readCaptions (vtt : Bool) : Text → Option (List Cue) := if vtt then readVtt else readSrt

def cueOf (vtt : Bool) (item : CaptionSegment × Nat) : Cue where
  number := if vtt then none else some item.2
  start := item.1.start
  stop := item.1.stop
  lines := lines (captionText item.1)

/-- The reader finds the segments that are written, and no payload has an arrow. -/
def Captioned (segments : List CaptionSegment) (vtt : Bool) : Prop :=
  readCaptions vtt (captions segments vtt) = some ((spoken segments).map (cueOf vtt)) ∧
    ∀ item ∈ spoken segments, ¬arrow <:+: captionText item.1

/-- No blank line in the text, and no arrow with a longer shaft. -/
def Plain (text : Text) : Prop :=
  (∀ line ∈ lines (trim text), line ≠ []) ∧ ¬ '-' :: arrow <:+: trim text

/-! ### Lines -/

theorem lines_append (front back : Text) :
    lines (front ++ '\n' :: back) = lines front ++ lines back :=
  List.splitOnP_append_cons front back rfl

theorem lines_eq_singleton {line : Text} (h : '\n' ∉ line) : lines line = [line] :=
  List.splitOnP_eq_singleton fun _ hc => beq_false_of_ne fun heq => h (heq ▸ hc)

theorem lines_induction {motive : Text → Prop} (last : ∀ line, '\n' ∉ line → motive line)
    (more : ∀ line rest, '\n' ∉ line → motive rest → motive (line ++ '\n' :: rest)) (text : Text) :
    motive text := by
  induction h : text.length using Nat.strongRecOn generalizing text with
  | ind n ih =>
    by_cases hm : '\n' ∈ text
    · obtain ⟨line, rest, rfl, hl⟩ := List.eq_append_cons_of_mem hm
      refine more line rest hl (ih rest.length ?_ rest rfl)
      rw [← h, List.length_append, List.length_cons]
      omega
    · exact last text hm

variable {text : Text} {α : Type} {c sep : Char} {always : Bool} {total : Nat} {block : List Text}
  {cue : Cue}

theorem infix_of_mem_lines {line : Text} (h : line ∈ lines text) : line <:+: text := by
  induction text using lines_induction with
  | last whole hw =>
    rw [lines_eq_singleton hw, List.mem_singleton] at h
    exact h ▸ List.infix_rfl
  | more first rest hf ih =>
    rw [lines_append, lines_eq_singleton hf] at h
    rcases List.mem_cons.mp h with rfl | hr
    · exact (List.prefix_append _ _).isInfix
    · exact (ih hr).trans ((List.suffix_cons _ _).trans (List.suffix_append _ _)).isInfix

theorem not_of_mem_splitOnP {p : α → Bool} {l piece : List α} (h : piece ∈ l.splitOnP p)
    {x : α} (hx : x ∈ piece) : p x = false := by
  induction l generalizing piece with
  | nil =>
    rw [List.splitOnP_nil, List.mem_singleton] at h
    rw [h] at hx
    cases hx
  | cons y l ih =>
    rw [List.splitOnP_cons_eq_if_modifyHead] at h
    split at h
    · rcases List.mem_cons.mp h with rfl | h
      · cases hx
      · exact ih h hx
    · next hy =>
      obtain ⟨first, rest, heq⟩ := List.exists_cons_of_ne_nil (List.splitOnP_ne_nil p l)
      rw [heq] at h ih
      rcases List.mem_cons.mp h with rfl | h
      · rcases List.mem_cons.mp hx with rfl | hx
        · exact Bool.eq_false_iff.mpr hy
        · exact ih (List.mem_cons_self ..) hx
      · exact ih (List.mem_cons_of_mem _ h) hx

/-! ### Arrows -/

theorem replaceArrows_cons {rest : Text} (h : ∀ more, c :: rest ≠ '-' :: '-' :: '>' :: more) :
    replaceArrows (c :: rest) = c :: replaceArrows rest := by
  rw [replaceArrows]
  intro more hc hr
  exact h more (by rw [hc, hr])

theorem replaceArrows_append (front back : Text) :
    replaceArrows (front ++ '\n' :: back) = replaceArrows front ++ '\n' :: replaceArrows back := by
  fun_induction replaceArrows front with
  | case1 rest ih =>
    show '-' :: '>' :: replaceArrows (rest ++ '\n' :: back) = _
    rw [ih]
    rfl
  | case2 c rest hno ih =>
    rw [List.cons_append, replaceArrows_cons, ih, List.cons_append]
    intro more heq
    obtain ⟨rfl, heq⟩ := List.cons.inj heq
    match rest with
    | [] => cases heq
    | [_] => simp at heq
    | _ :: _ :: rest =>
      simp only [List.cons_append, List.cons.injEq] at heq
      exact hno rest rfl (by rw [heq.2.1, heq.2.2.1])
  | case3 => exact replaceArrows_cons (by simp)

theorem newline_not_mem_replaceArrows (h : '\n' ∉ text) : '\n' ∉ replaceArrows text := by
  fun_induction replaceArrows text with
  | case1 rest ih => simp_all
  | case2 c rest hno ih => simp_all
  | case3 => exact h

theorem lines_replaceArrows (text : Text) :
    lines (replaceArrows text) = (lines text).map replaceArrows := by
  induction text using lines_induction with
  | last line hl =>
    rw [lines_eq_singleton hl, lines_eq_singleton (newline_not_mem_replaceArrows hl)]
    rfl
  | more line rest hl ih =>
    rw [replaceArrows_append, lines_append, lines_append, ih, lines_eq_singleton hl,
      lines_eq_singleton (newline_not_mem_replaceArrows hl), List.map_append]
    rfl

theorem replaceArrows_eq_nil : replaceArrows text = [] ↔ text = [] := by
  fun_cases replaceArrows text <;> simp

theorem replaceArrows_head (h : ['>'] <+: replaceArrows text) : ['>'] <+: text := by
  revert h
  fun_cases replaceArrows text with
  | case1 _ => simp
  | case2 c rest _ => simp
  | case3 => exact id

/-- An arrow is left exactly where one had a longer shaft. -/
theorem arrow_infix_replaceArrows (text : Text) :
    arrow <:+: replaceArrows text ↔ '-' :: arrow <:+: text := by
  fun_induction replaceArrows text with
  | case1 rest ih =>
    rw [arrow] at ih ⊢
    simp only [List.infix_cons_iff, List.cons_prefix_cons, ih]
    simp
  | case2 c rest hno ih =>
    rw [arrow] at ih ⊢
    rw [List.infix_cons_iff, List.infix_cons_iff, ih]
    refine or_congr_left ?_
    rw [List.cons_prefix_cons, List.cons_prefix_cons]
    refine and_congr_right fun hc => ?_
    fun_cases replaceArrows rest with
    | case1 more => simp
    | case2 d more hno' =>
      rw [List.cons_prefix_cons, List.cons_prefix_cons]
      constructor
      · rintro ⟨rfl, hh⟩
        obtain ⟨rest', rfl⟩ := replaceArrows_head hh
        exact absurd rfl (hno rest' hc.symm)
      · rintro ⟨rfl, rest', rfl⟩
        exact absurd rfl (hno' rest' rfl)
    | case3 => simp
  | case3 => simp [arrow]

/-! ### Timestamps -/

theorem padded_isDigit {width n : Nat} (h : c ∈ padded width n) : c.isDigit = true := by
  rcases List.mem_append.mp h with hz | hd
  · rw [List.eq_of_mem_replicate hz]
    rfl
  · exact Nat.isDigit_of_mem_toDigits (by decide) (by decide) hd

theorem readNumber_padded (width n : Nat) : readNumber (padded width n) = some n := by
  have hne : padded width n ≠ [] := List.append_ne_nil_of_right_ne_nil _ Nat.toDigits_ne_nil
  have ha : (padded width n).all Char.isDigit = true := by
    rw [List.all_eq_true]
    exact fun c hc => padded_isDigit hc
  rw [readNumber, if_pos ⟨hne, ha⟩, padded, Nat.ofDigitChars_append,
    Nat.ofDigitChars_replicate_zero, Nat.mul_zero, Nat.ofDigitChars_ten_toDigits]

theorem readNumber_toDigits (n : Nat) : readNumber (Nat.toDigits 10 n) = some n := by
  have hn := readNumber_padded 0 n
  rwa [padded, Nat.zero_sub, List.replicate_zero, List.nil_append] at hn

theorem ne_of_mem_padded {width n : Nat} (hs : sep.isDigit = false)
    (h : c ∈ padded width n) : (c == sep) = false := by
  refine beq_false_of_ne fun heq => ?_
  rw [← heq, padded_isDigit h] at hs
  cases hs

/-- A separator that is no digit splits between two numbers. -/
theorem splitOnP_padded (hs : sep.isDigit = false) (width n : Nat) (rest : Text) :
    (padded width n ++ sep :: rest).splitOnP (fun c => c == sep) =
      padded width n :: rest.splitOnP fun c => c == sep :=
  List.splitOnP_append_cons_of_forall_mem (fun _ hc => ne_of_mem_padded hs hc) sep (by simp) rest

theorem splitOnP_padded_last (hs : sep.isDigit = false) (width n : Nat) :
    (padded width n).splitOnP (fun c => c == sep) = [padded width n] :=
  List.splitOnP_eq_singleton fun _ hc => ne_of_mem_padded hs hc

/-- The time of day that a timestamp shows, before its milliseconds. -/
def clock (total : Nat) (alwaysHours : Bool) : Text :=
  (if alwaysHours ∨ 0 < total / 3600000 then padded 2 (total / 3600000) ++ [':'] else []) ++
    (padded 2 (total % 3600000 / 60000) ++ ':' :: padded 2 (total % 60000 / 1000))

theorem timestamp_eq (total : Nat) (always : Bool) (decimal : Char) :
    timestamp total always decimal = clock total always ++ decimal :: padded 3 (total % 1000) := by
  simp [timestamp, clock]

theorem mem_clock (h : c ∈ clock total always) : c.isDigit = true ∨ c = ':' := by
  have hr : c ∈ padded 2 (total % 3600000 / 60000) ++ ':' :: padded 2 (total % 60000 / 1000) →
      c.isDigit = true ∨ c = ':' := by
    intro hm
    rcases List.mem_append.mp hm with hmin | hs
    · exact .inl (padded_isDigit hmin)
    · rcases List.mem_cons.mp hs with rfl | hs
      · exact .inr rfl
      · exact .inl (padded_isDigit hs)
  rcases List.mem_append.mp h with hh | hm
  · split at hh
    · rcases List.mem_append.mp hh with hh | hc
      · exact .inl (padded_isDigit hh)
      · exact .inr (List.mem_singleton.mp hc)
    · cases hh
  · exact hr hm

/-- Neither a decimal sign nor a blank. -/
theorem ne_of_mem_clock (hs : sep.isDigit = false)
    (hco : sep ≠ ':') (h : c ∈ clock total always) : (c == sep) = false := by
  refine beq_false_of_ne ?_
  rintro rfl
  rcases mem_clock h with hd | hc
  · rw [hd] at hs
    cases hs
  · exact hco hc

theorem readTimestamp_timestamp (total : Nat) (always : Bool) {decimal : Char}
    (hd : decimal.isDigit = false) (hcolon : decimal ≠ ':') :
    readTimestamp decimal (timestamp total always decimal) = some total := by
  have hs : (timestamp total always decimal).splitOnP (fun c => c == decimal) =
      [clock total always, padded 3 (total % 1000)] := by
    rw [timestamp_eq, List.splitOnP_append_cons_of_forall_mem
      (fun _ hc => ne_of_mem_clock hd hcolon hc) decimal (by simp), splitOnP_padded_last hd]
  have hcol : Char.isDigit ':' = false := by decide
  simp only [readTimestamp, hs]
  unfold clock
  split
  · rw [List.append_assoc, List.singleton_append, splitOnP_padded hcol, splitOnP_padded hcol,
      splitOnP_padded_last hcol]
    simp only [List.mapM_cons, List.mapM_nil, readNumber_padded, Option.pure_def,
      Option.bind_eq_bind, Option.bind_some, Option.some.injEq]
    omega
  · next hh =>
    rw [List.nil_append, splitOnP_padded hcol, splitOnP_padded_last hcol]
    simp only [List.mapM_cons, List.mapM_nil, readNumber_padded, Option.pure_def,
      Option.bind_eq_bind, Option.bind_some, Option.some.injEq]
    omega

theorem ne_of_mem_timestamp {decimal : Char}
    (hs : sep.isDigit = false) (hc : sep ≠ ':') (hd : decimal ≠ sep)
    (h : c ∈ timestamp total always decimal) : (c == sep) = false := by
  rw [timestamp_eq] at h
  rcases List.mem_append.mp h with hcl | hmem
  · exact ne_of_mem_clock hs hc hcl
  · rcases List.mem_cons.mp hmem with rfl | hm
    · exact beq_false_of_ne hd
    · exact ne_of_mem_padded hs hm

def decimalSign (vtt : Bool) : Char := if vtt then '.' else ','

variable (vtt : Bool)

variable (segment : CaptionSegment)

theorem timing_eq : timing vtt segment =
    timestamp segment.start (!vtt) (decimalSign vtt) ++ ' ' :: (arrow ++ ' ' ::
      timestamp segment.stop (!vtt) (decimalSign vtt)) :=
  rfl

theorem readTiming_timing :
    readTiming (decimalSign vtt) (timing vtt segment) = some (segment.start, segment.stop) := by
  have hb : ∀ total, ∀ c ∈ timestamp total (!vtt) (decimalSign vtt), (c == ' ') = false :=
    fun total c hc => ne_of_mem_timestamp (by decide) (by decide) (by cases vtt <;> decide) hc
  have hs : (timing vtt segment).splitOnP (fun c => c == ' ') =
      [timestamp segment.start (!vtt) (decimalSign vtt), arrow,
        timestamp segment.stop (!vtt) (decimalSign vtt)] := by
    rw [timing_eq, List.splitOnP_append_cons_of_forall_mem (hb _) ' ' rfl,
      List.splitOnP_append_cons_of_forall_mem (by simp [arrow]) ' ' rfl,
      List.splitOnP_eq_singleton (hb _)]
  have hr : ∀ total, readTimestamp (decimalSign vtt)
      (timestamp total (!vtt) (decimalSign vtt)) = some total :=
    fun total => readTimestamp_timestamp total _ (by cases vtt <;> decide) (by cases vtt <;> decide)
  simp [readTiming, hs, hr]

/-! ### The cues' lines -/

def cueLines (vtt : Bool) (item : CaptionSegment × Nat) : List Text :=
  (if vtt then [] else [Nat.toDigits 10 item.2]) ++ timing vtt item.1 :: lines (captionText item.1)

theorem newline_not_mem_timing : '\n' ∉ timing vtt segment := by
  have hs : ∀ total, '\n' ∉ timestamp total (!vtt) (decimalSign vtt) := by
    intro total hm
    have hne : ('\n' == '\n') = false :=
      ne_of_mem_timestamp (by decide) (by decide) (by cases vtt <;> decide) hm
    cases hne
  simp [timing_eq, hs, arrow]

theorem newline_not_mem_toDigits (n : Nat) : '\n' ∉ Nat.toDigits 10 n := fun hm =>
  absurd (Nat.isDigit_of_mem_toDigits (by decide) (by decide) hm) (by decide)

theorem lines_cueText (item : CaptionSegment × Nat) (rest : Text) :
    lines (cueText vtt item ++ rest) = cueLines vtt item ++ [] :: lines rest := by
  have hte : lines (captionText item.1 ++ '\n' :: '\n' :: rest) =
      lines (captionText item.1) ++ [] :: lines rest := by
    rw [lines_append, show '\n' :: rest = [] ++ '\n' :: rest from rfl, lines_append]
    rfl
  have ht : lines (timing vtt item.1 ++ '\n' :: (captionText item.1 ++ '\n' :: '\n' :: rest)) =
      timing vtt item.1 :: (lines (captionText item.1) ++ [] :: lines rest) := by
    rw [lines_append, lines_eq_singleton (newline_not_mem_timing vtt item.1), hte]
    rfl
  cases vtt
  · rw [show cueText false item ++ rest = Nat.toDigits 10 item.2 ++ '\n' ::
      (timing false item.1 ++ '\n' :: (captionText item.1 ++ '\n' :: '\n' :: rest)) by
        simp [cueText], lines_append, ht,
      lines_eq_singleton (newline_not_mem_toDigits item.2)]
    rfl
  · rw [show cueText true item ++ rest = timing true item.1 ++ '\n' ::
      (captionText item.1 ++ '\n' :: '\n' :: rest) by simp [cueText], ht]
    rfl

theorem lines_flatMap (items : List (CaptionSegment × Nat)) : lines (items.flatMap (cueText vtt)) =
      (items.map (cueLines vtt)).flatMap (fun block => block ++ [[]]) ++ [[]] := by
  induction items with
  | nil => rfl
  | cons item items ih =>
    rw [List.flatMap_cons, lines_cueText, ih]
    simp

theorem splitOnP_blocks {found : List (List Text)} (h : ∀ block ∈ found, ∀ line ∈ block, line ≠ []) :
    (found.flatMap (fun block => block ++ [[]]) ++ [[]]).splitOnP List.isEmpty =
      found ++ [[], []] := by
  induction found with
  | nil => rfl
  | cons block found ih =>
    have hbl : ∀ line ∈ block, line.isEmpty = false :=
      fun line hl => List.isEmpty_eq_false_iff.mpr (h block (List.mem_cons_self ..) line hl)
    rw [List.flatMap_cons, List.append_assoc, List.append_assoc, List.singleton_append,
      List.splitOnP_append_cons_of_forall_mem hbl [] rfl,
      ih fun b hb => h b (List.mem_cons_of_mem _ hb), List.cons_append]

theorem timing_ne_nil : timing vtt segment ≠ [] := by
  simp [timing_eq]

theorem blocks_captions {segments : List CaptionSegment}
    (h : ∀ item ∈ spoken segments, ∀ line ∈ lines (captionText item.1), line ≠ []) :
    blocks (captions segments vtt) = (if vtt then [["WEBVTT".toList]] else []) ++
      (spoken segments).map (cueLines vtt) := by
  have hc : ∀ block ∈ (spoken segments).map (cueLines vtt), ∀ line ∈ block, line ≠ [] := by
    intro block hbl line hl
    obtain ⟨item, hi, rfl⟩ := List.mem_map.mp hbl
    rcases List.mem_append.mp hl with hn | hm
    · cases vtt
      · rw [List.mem_singleton.mp hn]
        exact Nat.toDigits_ne_nil
      · cases hn
    · rcases List.mem_cons.mp hm with rfl | hm
      · exact timing_ne_nil vtt item.1
      · exact h item hi line hm
  have hf : ∀ found : List (List Text), (∀ block ∈ found, block ≠ []) →
      (found ++ [[], []]).filter (fun block => !block.isEmpty) = found := by
    intro found hne
    rw [List.filter_append, List.filter_eq_self.mpr fun block hb => by simp [hne block hb]]
    exact List.append_nil found
  have hne : ∀ block ∈ (spoken segments).map (cueLines vtt), block ≠ [] := by
    intro block hbl
    obtain ⟨item, _, rfl⟩ := List.mem_map.mp hbl
    simp [cueLines]
  cases vtt
  · rw [blocks, captions, if_neg (by decide), List.nil_append, lines_flatMap,
      splitOnP_blocks hc, hf _ hne]
    rfl
  · have hh : lines ("WEBVTT\n\n".toList ++ (spoken segments).flatMap (cueText true)) =
        ((["WEBVTT".toList] :: (spoken segments).map (cueLines true)).flatMap
          fun block => block ++ [[]]) ++ [[]] := by
      rw [show "WEBVTT\n\n".toList ++ (spoken segments).flatMap (cueText true) =
        "WEBVTT".toList ++ '\n' :: ([] ++ '\n' :: (spoken segments).flatMap (cueText true)) from rfl,
        lines_append, lines_append, lines_flatMap]
      rfl
    rw [blocks, captions, if_pos rfl, hh, splitOnP_blocks, hf]
    · rfl
    · exact List.forall_mem_cons.mpr ⟨by simp, hne⟩
    · exact List.forall_mem_cons.mpr ⟨by decide, hc⟩

/-! ### What the reader finds -/

theorem mapM_map_eq_some {β γ : Type} {f : α → β} {g : β → Option γ} {r : α → γ} {xs : List α}
    (h : ∀ x ∈ xs, g (f x) = some (r x)) : (xs.map f).mapM g = some (xs.map r) := by
  induction xs with
  | nil => rfl
  | cons x xs ih =>
    simp [h x (List.mem_cons_self ..), ih fun y hy => h y (List.mem_cons_of_mem _ hy)]

theorem exists_of_mem_mapM {β : Type} {f : α → Option β} {xs : List α} {ys : List β} {y : β}
    (h : xs.mapM f = some ys) (hy : y ∈ ys) : ∃ x ∈ xs, f x = some y := by
  induction xs generalizing ys with
  | nil =>
    cases h
    cases hy
  | cons x xs ih =>
    simp only [List.mapM_cons, Option.bind_eq_bind, Option.pure_def, Option.bind_eq_some_iff] at h
    obtain ⟨z, hz, zs, hzs, heq⟩ := h
    cases heq
    rcases List.mem_cons.mp hy with rfl | hy
    · exact ⟨x, List.mem_cons_self .., hz⟩
    · obtain ⟨x', hx', hf⟩ := ih hzs hy
      exact ⟨x', List.mem_cons_of_mem _ hx', hf⟩

theorem readSrtCue_cueLines (item : CaptionSegment × Nat) :
    readSrtCue (cueLines false item) = some (cueOf false item) := by
  have ht := readTiming_timing false item.1
  rw [decimalSign, if_neg (by decide)] at ht
  show readSrtCue (Nat.toDigits 10 item.2 :: timing false item.1 :: lines (captionText item.1)) = _
  simp [readSrtCue, readNumber_toDigits, ht, cueOf]

theorem readVttBlock_payload {payload : List Text} (h : ∀ line ∈ payload, ¬arrow <:+: line) :
    readVttBlock payload = some [] := by
  induction payload with
  | nil => rfl
  | cons line payload ih =>
    rw [readVttBlock, if_neg (h line (List.mem_cons_self ..)),
      ih fun l hl => h l (List.mem_cons_of_mem _ hl)]

theorem readVttBlock_cueLines {item : CaptionSegment × Nat}
    (h : ∀ line ∈ lines (captionText item.1), ¬arrow <:+: line) :
    readVttBlock (cueLines true item) = some [cueOf true item] := by
  have ht := readTiming_timing true item.1
  rw [decimalSign, if_pos rfl] at ht
  have ha : arrow <:+: timing true item.1 :=
    ⟨timestamp item.1.start false '.' ++ [' '], ' ' :: timestamp item.1.stop false '.', by
      simp [timing]⟩
  have hta : (lines (captionText item.1)).takeWhile (fun line => decide ¬arrow <:+: line) =
      lines (captionText item.1) :=
    List.takeWhile_eq_self_iff.mpr fun line hl => decide_eq_true (h line hl)
  show readVttBlock (timing true item.1 :: lines (captionText item.1)) = _
  rw [readVttBlock, if_pos ha, ht, readVttBlock_payload h, hta]
  rfl

theorem mem_blocks (h : block ∈ blocks text) : ∀ line ∈ block, line ≠ [] :=
  fun _ hl => List.isEmpty_eq_false_iff.mp (not_of_mem_splitOnP (List.mem_filter.mp h).1 hl)

theorem readSrtCue_lines (h : readSrtCue block = some cue) : cue.lines ⊆ block := by
  unfold readSrtCue at h
  split at h
  · next number timing payload =>
    simp only [Option.bind_eq_bind, Option.bind_eq_some_iff] at h
    obtain ⟨_, _, _, _, heq⟩ := h
    cases heq
    exact fun line hl => List.mem_cons_of_mem _ (List.mem_cons_of_mem _ hl)
  · cases h

theorem readVttBlock_lines {cues : List Cue} (h : readVttBlock block = some cues)
    (hc : cue ∈ cues) : cue.lines ⊆ block := by
  induction block generalizing cues with
  | nil =>
    cases h
    cases hc
  | cons line block ih =>
    rw [readVttBlock] at h
    split at h
    · simp only [Option.bind_eq_bind, Option.bind_eq_some_iff] at h
      obtain ⟨_, _, rest, hr, heq⟩ := h
      cases heq
      rcases List.mem_cons.mp hc with rfl | hc
      · exact fun l hl => List.mem_cons_of_mem _ ((List.takeWhile_sublist _).subset hl)
      · exact fun l hl => List.mem_cons_of_mem _ (ih hr hc hl)
    · exact fun l hl => List.mem_cons_of_mem _ (ih h hc hl)

/-- No reader finds a blank line in a payload. -/
theorem readCaptions_lines {vtt : Bool} {cues : List Cue}
    (h : readCaptions vtt text = some cues) (hc : cue ∈ cues) : ∀ line ∈ cue.lines, line ≠ [] := by
  cases vtt
  · obtain ⟨block, hb, hr⟩ := exists_of_mem_mapM h hc
    exact fun line hl => mem_blocks hb line (readSrtCue_lines hr hl)
  · rw [readCaptions, if_pos rfl, readVtt] at h
    split at h
    · next header rest heq =>
      split at h
      · obtain ⟨found, hf, rfl⟩ := Option.map_eq_some_iff.mp h
        obtain ⟨some, hs, hin⟩ := List.mem_flatten.mp hc
        obtain ⟨block, hb, hr⟩ := exists_of_mem_mapM hf hs
        have hm : block ∈ blocks text := heq ▸ List.mem_cons_of_mem _ hb
        exact fun line hl => mem_blocks hm line (readVttBlock_lines hr hin hl)
      · cases h
    · cases h

/-! ### Segments that come back -/

theorem mem_spoken_iff {segments : List CaptionSegment} {segment : CaptionSegment} :
    (∃ item ∈ spoken segments, item.1 = segment) ↔ segment ∈ segments ∧ trim segment.text ≠ [] := by
  have hm : (spoken segments).map Prod.fst =
      segments.filter fun segment => !(trim segment.text).isEmpty := List.zipIdx_map_fst ..
  rw [← List.mem_map, hm, List.mem_filter]
  simp

theorem plain_iff : Plain segment.text ↔
    (∀ line ∈ lines (captionText segment), line ≠ []) ∧ ¬arrow <:+: captionText segment := by
  rw [Plain, captionText, arrow_infix_replaceArrows, lines_replaceArrows, List.forall_mem_map]
  refine and_congr_left' (forall₂_congr fun line _ => ?_)
  rw [ne_eq, ne_eq, replaceArrows_eq_nil]

end LocalAi.Transcription
