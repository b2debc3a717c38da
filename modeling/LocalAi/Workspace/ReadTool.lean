import LocalAi.Workspace.Lines

/-!
# The read tool

The tool reads lines within a budget, writes each behind its number, and cuts that text at the same
number of bytes.  Its last line names the line to go on at.

* `Followed`: the calls that follow the line each one names.
* `CallFits`: no line fits a call's budget exactly but the last, and every line a call reads begins
  before the cut.
* `followed_shows`: then the calls end and show every line.
-/

open List

namespace LocalAi.Workspace

open Lib (bind_eq_ok ensure)

/-! ### Cutting a text -/

/-- `str::is_char_boundary`. -/
def isCharBoundary (text : Text) (index : Nat) : Bool :=
  decide (index ∈ charIndices 0 text) || decide (index = utf8Len text)

/-- The loop that goes back to a character boundary. -/
def lastBoundary (text : Text) : Nat → Nat
  | 0 => 0
  | index + 1 => if isCharBoundary text (index + 1) then index + 1 else lastBoundary text index

/-- Cut `text` to at most `max` bytes, with a marker, and whether it was cut. -/
def truncateMarked (text : Text) (max : Nat) : Text × Bool :=
  if utf8Len text ≤ max then (text, false)
  else
    let kept := truncate (lastBoundary text max) text
    (kept ++ "\n[truncated: ".toList ++ Nat.toDigits 10 (utf8Len kept) ++ " of ".toList ++
      Nat.toDigits 10 (utf8Len text) ++ " bytes shown]".toList, true)

structure Output where
  text : Text
  truncated : Bool
deriving DecidableEq

def Truncation.name : Truncation → Text
  | .outputBytes => "OutputBytes".toList
  | .fileBytes => "FileBytes".toList

def limitMarker (reason : Truncation) : Text :=
  "[truncated: result limited (".toList ++ reason.name ++ ")]\n".toList

/-- `text` capped at `max` bytes, with a marker when a limit or the cap cut it short. -/
def marked (text : Text) (truncation : Option Truncation) (max : Nat) : Output :=
  let (text, cut) := truncateMarked text max
  { text := text ++ (truncation.map limitMarker).getD []
    truncated := cut || truncation.isSome }

/-! ### A call -/

structure WorkspaceLimits where
  maxFileBytes : Nat
  maxReadBytes : Nat

/-- Lower a hard limit with an optional one, which may not be zero. -/
def clamp (requested : Option Nat) (hard : Nat) (name : Text) : Except ReadFault Nat :=
  match requested with
  | some 0 => .error (.refused (.invalidArgument (name ++ " must be at least 1".toList)))
  | some value => .ok (min value hard)
  | none => .ok hard

def binarySniffBytes : Nat := 8 * 1024

/-- `Workspace::read_file` of an open file. -/
def readFile (limits : WorkspaceLimits) (content : Bytes) (options : ReadOptions) (display : Text) :
    Except ReadFault FileRead := do
  ensure (options.startLine ≠ 0)
    (.refused (.invalidArgument "start_line is 1-based and must be at least 1".toList))
  ensure (!options.endLine.any fun last => decide (last < options.startLine))
    (.refused (.invalidArgument "end_line must not be before start_line".toList))
  let maxBytes ← clamp options.maxBytes limits.maxReadBytes "max_bytes".toList
  let scanned := content.take limits.maxFileBytes
  ensure (!(scanned.take binarySniffBytes).contains 0) (.refused (binaryError display))
  let result ← readLines scanned options maxBytes display
  let capped := result.eof && decide (limits.maxFileBytes < content.length)
  let truncation := if capped then some (result.truncation.getD .fileBytes) else result.truncation
  pure { result with
    path := display
    eof := result.eof && !capped
    truncation := truncation
    truncated := truncation.isSome }

inductive ToolFault
  | tool (error : ToolError)
  | underflow
deriving DecidableEq

def readFault : ReadFault → ToolFault
  | .refused error => .tool (serviceError error)
  | .underflow => .underflow

def renderLine (line : FileLine) : Text :=
  Nat.toDigits 10 line.number ++ ": ".toList ++ line.text ++ ['\n']

def continuation (next : Nat) : Text :=
  "[more lines follow; continue at start_line ".toList ++ Nat.toDigits 10 next ++ "]\n".toList

/-- What a call returns, and the `start_line` that the last line of its output names. -/
structure ReadCall where
  output : Output
  next : Option Nat
deriving DecidableEq

/-- `Request::Read` of an open file. -/
def runRead (limits : WorkspaceLimits) (max : Nat) (content : Bytes) (display : Text)
    (startLine endLine : Option Nat) : Except ToolFault ReadCall := do
  let startLine := startLine.getD 1
  ensure (!(decide (startLine = 0) || endLine.any fun last => decide (last < startLine)))
    (.tool (.invalid "start_line must be at least 1 and end_line not before it".toList))
  let read ← (readFile limits content ⟨startLine, endLine, some max⟩ display).mapError readFault
  let output := marked (read.lines.flatMap renderLine) read.truncation max
  pure ⟨{ output with text := output.text ++ (read.nextLine.map continuation).getD [] },
    read.nextLine⟩

/-! ### Following the calls -/

section Follow

variable (limits : WorkspaceLimits) (max : Nat) (content : Bytes) (display : Text)

inductive Followed : Nat → List Output → Prop
  | last {startLine : Nat} {output : Output}
      (h : runRead limits max content display (some startLine) none = .ok ⟨output, none⟩) :
      Followed startLine [output]
  | next {startLine next : Nat} {output : Output} {outputs : List Output}
      (h : runRead limits max content display (some startLine) none = .ok ⟨output, some next⟩)
      (rest : Followed next outputs) : Followed startLine (output :: outputs)

inductive Visited : Nat → Prop
  | first : Visited 1
  | next {startLine next : Nat} {output : Output} (prior : Visited startLine)
      (h : runRead limits max content display (some startLine) none = .ok ⟨output, some next⟩) :
      Visited next

def renderedBefore (range : List Bytes) (startLine k : Nat) : Nat :=
  ((List.range k).map fun j => (Nat.toDigits 10 (startLine + j)).length + 2).sum +
    charged range k + (Nat.toDigits 10 (startLine + k)).length + 2

def CallFits (startLine : Nat) : Prop :=
  let range := rangeLines content ⟨startLine, none, some max⟩
  let budget := min max limits.maxReadBytes
  ¬ ExactFit range budget ∧ ∀ k raw, range[k]? = some raw →
    (k = 0 ∨ charged range k + raw.length + 1 ≤ budget) → renderedBefore range startLine k ≤ max

end Follow

/-- A line stands in an output behind its number, whole, or cut in an output that is marked so. -/
def Shown (number : Nat) (text : Text) (output : Output) : Prop :=
  ∃ front part back, (front = [] ∨ front.getLast? = some '\n') ∧
    output.text = front ++ (Nat.toDigits 10 number ++ ": ".toList ++ part ++ '\n' :: back) ∧
    part <+: text ∧ (part = text ∨ output.truncated = true)

/-! ### What a cut keeps -/

variable {text : Text} {i : Nat}

theorem boundary_of_isPrefix {front : Text} (index : Nat) (h : front <+: text) :
    index + utf8Len front ∈ charIndices index text ∨ front = text := by
  induction text generalizing front index with
  | nil => exact Or.inr (prefix_nil.mp h)
  | cons c text ih =>
    cases front with
    | nil => exact Or.inl mem_cons_self
    | cons d =>
      obtain ⟨rfl, hr⟩ := cons_prefix_cons.mp h
      rcases ih (index + d.utf8Size) hr with hm | rfl
      · refine Or.inl (mem_cons_of_mem _ ?_)
        rwa [utf8Len_cons, ← Nat.add_assoc]
      · exact Or.inr rfl

theorem le_lastBoundary {index max : Nat} (hi : isCharBoundary text index = true)
    (hle : index ≤ max) : index ≤ lastBoundary text max := by
  induction max with
  | zero => exact hle
  | succ max ih =>
    unfold lastBoundary
    split
    · exact hle
    · rename_i hnot
      have hne : index ≠ max + 1 := by
        rintro rfl
        exact hnot hi
      exact ih (by omega)

theorem lastBoundary_mem {max : Nat} (hlt : max < utf8Len text) :
    lastBoundary text max ∈ charIndices 0 text := by
  induction max with
  | zero =>
    cases text with
    | nil => cases hlt
    | cons => exact mem_cons_self
  | succ max ih =>
    unfold lastBoundary
    split
    · rename_i hi
      unfold isCharBoundary at hi
      rw [Bool.or_eq_true, decide_eq_true_eq, decide_eq_true_eq] at hi
      exact hi.resolve_right (by omega)
    · exact ih (by omega)

theorem isPrefix_of_utf8Len_le {a b : Text} (ha : a <+: text) (hb : b <+: text)
    (hle : utf8Len a ≤ utf8Len b) : a <+: b := by
  rcases prefix_or_prefix_of_prefix ha hb with h | ⟨rest, rfl⟩
  · exact h
  · cases rest with
    | nil =>
      rw [append_nil]
    | cons c =>
      have hs : 0 < c.utf8Size := Char.utf8Size_pos c
      rw [utf8Len_append, utf8Len_cons] at hle
      omega

/-- **A cut** keeps every start that is not longer than the cap. -/
theorem isPrefix_kept {front : Text} {max : Nat} (h : front <+: text) (hle : utf8Len front ≤ max)
    (hlt : max < utf8Len text) : front <+: truncate (lastBoundary text max) text := by
  refine isPrefix_of_utf8Len_le h (truncate_isPrefix _ _) ?_
  have hm : 0 + lastBoundary text max ∈ charIndices 0 text := by
    rw [Nat.zero_add]
    exact lastBoundary_mem hlt
  rw [utf8Len_truncate hm]
  refine le_lastBoundary ?_ hle
  unfold isCharBoundary
  rw [Bool.or_eq_true, decide_eq_true_eq, decide_eq_true_eq]
  rcases boundary_of_isPrefix 0 h with hm | rfl
  · rw [Nat.zero_add] at hm
    exact Or.inl hm
  · exact Or.inr rfl

/-! ### Lines in an output -/

theorem utf8Len_toDigits (n : Nat) : utf8Len (Nat.toDigits 10 n) = (Nat.toDigits 10 n).length := by
  have hdi : ∀ text : Text, (∀ c ∈ text, c.isDigit = true) → utf8Len text = text.length := by
    intro text
    induction text with
    | nil => exact fun _ => rfl
    | cons c text ih =>
      intro h
      rw [forall_mem_cons] at h
      have hs : c.utf8Size = 1 := by
        have hd := h.1
        simp only [Char.isDigit, Bool.and_eq_true, decide_eq_true_eq] at hd
        rw [Char.utf8Size_eq_one_iff]
        exact UInt32.le_trans hd.2 (by decide)
      rw [utf8Len_cons, ih h.2, hs, length_cons, Nat.add_comm]
  exact hdi _ fun c hc => Nat.isDigit_of_mem_toDigits (by decide) (by decide) hc

theorem getLast?_rendered (lines : List FileLine) :
    lines.flatMap renderLine = [] ∨ (lines.flatMap renderLine).getLast? = some '\n' := by
  induction lines using reverseRecOn with
  | nil => exact Or.inl rfl
  | append_singleton =>
    right
    rw [flatMap_append, flatMap_singleton]
    unfold renderLine
    rw [← append_assoc, getLast?_concat]

theorem marked_cases (text : Text) (truncation : Option Truncation) (max : Nat) :
    utf8Len text ≤ max ∧ (∃ tail, marked text truncation max = ⟨text ++ tail, truncation.isSome⟩) ∨
      max < utf8Len text ∧ ∃ tail, marked text truncation max =
        ⟨truncate (lastBoundary text max) text ++ '\n' :: tail, true⟩ := by
  unfold marked truncateMarked
  by_cases hle : utf8Len text ≤ max
  · rw [if_pos hle]
    exact Or.inl ⟨hle, _, rfl⟩
  · rw [if_neg hle]
    refine Or.inr ⟨by omega, ?_⟩
    dsimp only
    rw [Bool.true_or, append_assoc, append_assoc, append_assoc, append_assoc, append_assoc]
    exact ⟨_, rfl⟩

/-- **A line that begins before the cut** stands in the output. -/
theorem shown_marked {lines : List FileLine} {line : FileLine} {max : Nat}
    {truncation : Option Truncation} {more : Text} (hl : lines[i]? = some line)
    (hbe : utf8Len ((lines.take i).flatMap renderLine) +
      (Nat.toDigits 10 line.number).length + 2 ≤ max)
    (hs : line.text <+: text) (hw : line.text = text ∨ truncation.isSome = true) :
    Shown line.number text { marked (lines.flatMap renderLine) truncation max with
        text := (marked (lines.flatMap renderLine) truncation max).text ++ more } := by
  obtain ⟨front, hf⟩ : ∃ front, front = (lines.take i).flatMap renderLine := ⟨_, rfl⟩
  obtain ⟨pre, hp⟩ : ∃ pre, pre = Nat.toDigits 10 line.number ++ ": ".toList := ⟨_, rfl⟩
  have hfu : lines.flatMap renderLine =
      front ++ pre ++ (line.text ++ '\n' :: (lines.drop (i + 1)).flatMap renderLine) := by
    have hi := (List.getElem?_eq_some_iff.mp hl).1
    have hg : lines[i] = line := (List.getElem?_eq_some_iff.mp hl).2
    have hsp : lines = lines.take i ++ line :: lines.drop (i + 1) := by
      rw [← hg, ← drop_eq_getElem_cons hi, take_append_drop]
    calc lines.flatMap renderLine
        = (lines.take i ++ line :: lines.drop (i + 1)).flatMap renderLine :=
          congrArg (List.flatMap renderLine) hsp
      _ = front ++ (renderLine line ++ (lines.drop (i + 1)).flatMap renderLine) := by
          rw [flatMap_append, flatMap_cons, hf]
      _ = _ := by
          rw [hp]
          simp [renderLine]
  have he : front = [] ∨ front.getLast? = some '\n' := by
    rw [hf]
    exact getLast?_rendered _
  have hlen : utf8Len (front ++ pre) ≤ max := by
    have hc : utf8Len ": ".toList = 2 := by decide
    rw [hp, utf8Len_append, utf8Len_append, utf8Len_toDigits, hc, hf]
    omega
  rcases marked_cases (lines.flatMap renderLine) truncation max with
    ⟨-, tail, hm⟩ | ⟨hlt, tail, hm⟩
  · -- nothing is cut
    rw [hm, hfu]
    refine ⟨front, line.text, (lines.drop (i + 1)).flatMap renderLine ++ tail ++ more, he, ?_,
      hs, hw⟩
    rw [hp]
    simp only [append_assoc, cons_append]
  · rw [hm]
    obtain ⟨rest, hr⟩ : front ++ pre <+:
        truncate (lastBoundary (lines.flatMap renderLine) max) (lines.flatMap renderLine) :=
      isPrefix_kept ⟨_, hfu.symm⟩ hlen hlt
    have hr' : rest <+: line.text ++ '\n' :: (lines.drop (i + 1)).flatMap renderLine := by
      have hk := truncate_isPrefix (lastBoundary (lines.flatMap renderLine) max)
        (lines.flatMap renderLine)
      rw [← hr] at hk
      rw [hfu] at hk
      exact (prefix_append_right_inj _).mp hk
    have hl' : line.text ++ ['\n'] <+:
        line.text ++ '\n' :: (lines.drop (i + 1)).flatMap renderLine :=
      ⟨(lines.drop (i + 1)).flatMap renderLine, by simp⟩
    rw [← hr]
    rcases prefix_or_prefix_of_prefix hr' hl' with hcut | ⟨back, hb⟩
    · rcases prefix_concat_iff.mp hcut with heq | hpa
      · -- the cut is right behind the line
        refine ⟨front, line.text, '\n' :: (tail ++ more), he, ?_, hs, Or.inr rfl⟩
        rw [heq, hp]
        simp only [append_assoc, cons_append, nil_append]
      · -- the cut is in the line's text, and the marker begins a new line
        refine ⟨front, rest, tail ++ more, he, ?_, hpa.trans hs, Or.inr rfl⟩
        rw [hp]
        simp only [append_assoc, cons_append]
    · -- the line is kept in full
      refine ⟨front, line.text, back ++ '\n' :: (tail ++ more), he, ?_, hs, Or.inr rfl⟩
      rw [← hb, hp]
      simp only [append_assoc, cons_append, nil_append]

section Calls

variable {limits : WorkspaceLimits} {max : Nat} {content : Bytes} {startLine : Nat}

theorem clamp_some {requested hard : Nat} (h : 1 ≤ requested) (name : Text) :
    clamp (some requested) hard name = .ok (min requested hard) := by
  cases requested with
  | zero => cases h
  | succ => rfl

theorem runRead_bounded (display : Text) (hn : 0 ∉ content)
    (hsc : content.length ≤ limits.maxFileBytes) (hmax : 1 ≤ max) (hst : 1 ≤ startLine)
    (hf : CallFits limits max content startLine) :
    ∃ r, Bounded (rangeLines content ⟨startLine, none, some max⟩) ⟨startLine, none, some max⟩
        (rawLines content).length (min max limits.maxReadBytes) r ∧
      runRead limits max content display (some startLine) none =
        .ok ⟨{ marked (r.lines.flatMap renderLine) r.truncation max with
          text := (marked (r.lines.flatMap renderLine) r.truncation max).text ++
            (r.nextLine.map continuation).getD [] }, r.nextLine⟩ := by
  have hs : content.take limits.maxFileBytes = content := take_of_length_le hsc
  rcases @readLines_cases _ hn ⟨startLine, none, some max⟩ hst
    (fun last hl => by cases hl) (min max limits.maxReadBytes) display with
    ⟨-, he⟩ | ⟨r, hr, -, hb⟩
  · exact absurd he hf.1
  · have hsn : (content.take binarySniffBytes).contains 0 = false := by
      rw [contains_eq_mem, decide_eq_false_iff_not]
      exact fun hmem => hn (mem_of_mem_take hmem)
    have hc : decide (limits.maxFileBytes < content.length) = false := by
      rw [decide_eq_false_iff_not]
      omega
    have hz : decide (startLine ≠ 0) = true := decide_eq_true (by omega)
    have hfi : readFile limits content ⟨startLine, none, some max⟩ display =
        .ok { r with path := display, truncated := r.truncation.isSome } := by
      refine bind_eq_ok.mpr ⟨(), Lib.ensure_eq_ok.mpr hz, bind_eq_ok.mpr ⟨(), rfl,
        bind_eq_ok.mpr ⟨_, clamp_some hmax _, ?_⟩⟩⟩
      dsimp only
      rw [hs]
      refine bind_eq_ok.mpr ⟨(), Lib.ensure_eq_ok.mpr (by rw [hsn]; rfl),
        bind_eq_ok.mpr ⟨r, hr, ?_⟩⟩
      rw [hc, Bool.and_false, if_neg Bool.false_ne_true, Bool.not_false, Bool.and_true]
      rfl
    have hz' : decide (startLine = 0) = false := decide_eq_false (by omega)
    refine ⟨r, hb, ?_⟩
    refine bind_eq_ok.mpr ⟨(), Lib.ensure_eq_ok.mpr ?_, ?_⟩
    · rw [Option.getD_some, hz']
      rfl
    · rw [Option.getD_some]
      exact bind_eq_ok.mpr ⟨_, Lib.mapError_eq_ok.mpr hfi, rfl⟩

variable {r : FileRead}

theorem Bounded.number {range : List Bytes} {options : ReadOptions} {total budget : Nat}
    (h : Bounded range options total budget r) {line : FileLine}
    (hl : r.lines[i]? = some line) : line.number = options.startLine + i := by
  have hn := congrArg (fun numbers => numbers[i]?) h.numbers
  rw [getElem?_map, hl, getElem?_range' (List.getElem?_eq_some_iff.mp hl).1, Nat.one_mul] at hn
  exact Option.some_inj.mp hn

theorem Bounded.utf8Len_rendered {range : List Bytes} {options : ReadOptions} {total budget : Nat}
    (h : Bounded range options total budget r) (hi : i < r.lines.length) :
    utf8Len ((r.lines.take i).flatMap renderLine) =
      ((List.range i).map fun j => (Nat.toDigits 10 (options.startLine + j)).length + 2).sum +
        charged range i := by
  induction i with
  | zero => rfl
  | succ i ih =>
    obtain ⟨line, hl⟩ : ∃ line, r.lines[i]? = some line := ⟨_, getElem?_eq_getElem (by omega)⟩
    obtain ⟨raw, hraw, hw, hcut⟩ := h.texts i line hl
    have hf : line.truncated = false := by
      cases ht : line.truncated with
      | false => rfl
      | true =>
        have hla := (hcut ht).2.2
        omega
    have hr : utf8Len (renderLine line) =
        (Nat.toDigits 10 (options.startLine + i)).length + 2 + charge raw := by
      have hc : utf8Len ": ".toList = 2 := by decide
      have hn : utf8Len ['\n'] = 1 := by decide
      unfold renderLine charge
      rw [utf8Len_append, utf8Len_append, utf8Len_append, utf8Len_toDigits, hc, hn,
        hw hf, h.number hl]
      omega
    rw [take_add_one, hl, flatMap_append, utf8Len_append, ih (by omega),
      range_succ, map_append, sum_append, charged_succ hraw]
    simp only [Option.toList_some, flatMap_singleton, hr, map_cons, map_nil, sum_cons, sum_nil]
    omega

theorem Bounded.shown {more : Text}
    (h : Bounded (rangeLines content ⟨startLine, none, some max⟩) ⟨startLine, none, some max⟩
      (rawLines content).length (min max limits.maxReadBytes) r)
    (hf : CallFits limits max content startLine) {raw : Bytes} (hi : i < r.lines.length)
    (hr : (rangeLines content ⟨startLine, none, some max⟩)[i]? = some raw) :
    Shown (startLine + i) (fromUtf8Lossy raw)
      { marked (r.lines.flatMap renderLine) r.truncation max with
        text := (marked (r.lines.flatMap renderLine) r.truncation max).text ++ more } := by
  obtain ⟨line, hl⟩ : ∃ line, r.lines[i]? = some line := ⟨_, getElem?_eq_getElem hi⟩
  have hn := h.number hl
  obtain ⟨raw', hr', hw, hc⟩ := h.texts i line hl
  rw [hr] at hr'
  cases hr'
  have hb : renderedBefore (rangeLines content ⟨startLine, none, some max⟩) startLine i ≤ max := by
    refine hf.2 i raw hr ?_
    by_cases hz : i = 0
    · exact Or.inl hz
    · exact Or.inr (h.fits i raw (by omega) hi hr)
  rw [← hn]
  refine shown_marked hl ?_ ?_ ?_
  · unfold renderedBefore at hb
    rw [h.utf8Len_rendered hi, hn]
    exact hb
  · cases ht : line.truncated with
    | false => rw [hw ht]
    | true => exact (hc ht).1
  · cases ht : line.truncated with
    | false => exact Or.inl (hw ht)
    | true =>
      have ha : (r.lines.all fun line => !line.truncated) = false := by
        rw [all_eq_false]
        exact ⟨line, mem_of_getElem? hl, by rw [ht]; decide⟩
      have hle := h.left
      rw [ha] at hle
      cases hle with
      | cut _ _ hrsn => exact Or.inr (by rw [hrsn]; rfl)

theorem Followed.of_fits (display : Text) (hnul : 0 ∉ content)
    (hsc : content.length ≤ limits.maxFileBytes) (hmax : 1 ≤ max) (hst : 1 ≤ startLine)
    (hfi : ∀ next, Visited limits max content display next → CallFits limits max content next)
    (hv : Visited limits max content display startLine) :
    ∃ outputs, Followed limits max content display startLine outputs ∧
      ∀ number raw, startLine ≤ number → (rawLines content)[number - 1]? = some raw →
        ∃ output ∈ outputs, Shown number (fromUtf8Lossy (trimTerminator raw)) output := by
  induction hm : (rawLines content).length + 1 - startLine using Nat.strongRecOn
    generalizing startLine with
  | ind m ih =>
    obtain ⟨r, hb, hrun⟩ :=
      runRead_bounded display hnul hsc hmax hst (hfi startLine hv)
    have hrng : ∀ i, (rangeLines content ⟨startLine, none, some max⟩)[i]? =
        (rawLines content)[startLine - 1 + i]?.map trimTerminator := by
      intro i
      unfold rangeLines upTo
      rw [getElem?_map, getElem?_drop]
    -- the lines of this call
    have hs : ∀ number raw, startLine ≤ number → number < startLine + r.lines.length →
        (rawLines content)[number - 1]? = some raw →
        Shown number (fromUtf8Lossy (trimTerminator raw))
          { marked (r.lines.flatMap renderLine) r.truncation max with
            text := (marked (r.lines.flatMap renderLine) r.truncation max).text ++
              (r.nextLine.map continuation).getD [] } := by
      intro number raw hle hlt hr
      obtain ⟨i, rfl⟩ : ∃ i, number = startLine + i := ⟨number - startLine, by omega⟩
      refine hb.shown (hfi startLine hv) (by omega) ?_
      have hi : startLine + i - 1 = startLine - 1 + i := by omega
      rw [hrng, ← hi, hr]
      rfl
    -- the lines of the calls behind it
    have hmo : ∀ next, r.nextLine = some next → next = startLine + r.lines.length →
        startLine < next → next ≤ (rawLines content).length + 1 →
        ∃ outputs, Followed limits max content display startLine outputs ∧
          ∀ number raw, startLine ≤ number → (rawLines content)[number - 1]? = some raw →
            ∃ output ∈ outputs, Shown number (fromUtf8Lossy (trimTerminator raw)) output := by
      intro next hn heq hlt hle
      rw [hn] at hrun
      obtain ⟨outputs, hf, hre⟩ := ih _ (by omega) (by omega) (Visited.next hv hrun) rfl
      refine ⟨_, Followed.next hrun hf, fun number raw hnum hr => ?_⟩
      by_cases hh : number < next
      · refine ⟨_, mem_cons_self, ?_⟩
        have hl := hs number raw hnum (by omega) hr
        rw [hn] at hl
        exact hl
      · obtain ⟨output, hmem, ho⟩ := hre number raw (by omega) hr
        exact ⟨output, mem_cons_of_mem _ hmem, ho⟩
    have hlen : (rangeLines content ⟨startLine, none, some max⟩).length =
        (rawLines content).length - (startLine - 1) := by
      unfold rangeLines upTo
      rw [length_map, length_drop]
    cases hw : r.lines.all fun line => !line.truncated with
    | true =>
      have hleft := hb.left
      rw [hw] at hleft
      cases hleft with
      | eof he _ _ hn =>
        rw [hn] at hrun
        refine ⟨_, Followed.last hrun, fun number raw hnum hr => ⟨_, mem_singleton_self _, ?_⟩⟩
        have hlt := (List.getElem?_eq_some_iff.mp hr).1
        have hl := hs number raw hnum (by omega) hr
        rw [hn] at hl
        exact hl
      | range he => cases he
      | full hp hr _ _ hn =>
        have hlt := (List.getElem?_eq_some_iff.mp hr).1
        exact hmo _ hn rfl (by dsimp only; omega) (by dsimp only; omega)
    | false =>
      have hleft := hb.left
      rw [hw] at hleft
      have hp : 0 < r.lines.length := by
        by_contra hz
        rw [eq_nil_of_length_eq_zero (by omega : r.lines.length = 0)] at hw
        cases hw
      cases hleft with
      | cut _ hn =>
        obtain ⟨raw, hr, -⟩ := hb.texts _ _ (getElem?_eq_getElem
          (show r.lines.length - 1 < r.lines.length by omega))
        have hlt := (List.getElem?_eq_some_iff.mp hr).1
        exact hmo _ hn rfl (by dsimp only; omega) (by dsimp only; omega)

end Calls

/-- **Following the read tool's lines shows the whole file** when every call fits. -/
theorem followed_shows {limits : WorkspaceLimits} {max : Nat} {content : Bytes} (display : Text)
    (hnul : 0 ∉ content) (hscan : content.length ≤ limits.maxFileBytes) (hmax : 1 ≤ max)
    (hfits : ∀ startLine, Visited limits max content display startLine →
      CallFits limits max content startLine) :
    ∃ outputs, Followed limits max content display 1 outputs ∧
      ∀ number raw, 1 ≤ number → (rawLines content)[number - 1]? = some raw →
        ∃ output ∈ outputs, Shown number (fromUtf8Lossy (trimTerminator raw)) output :=
  Followed.of_fits display hnul hscan hmax le_rfl hfits .first

def twoTens : Bytes := replicate 9 0x61 ++ newline :: (replicate 9 0x62 ++ [newline])

theorem two_tens_shown :
    ∃ outputs, outputs.length = 2 ∧ Followed ⟨100, 100⟩ 15 twoTens [] 1 outputs ∧
      ∀ number raw, 1 ≤ number → (rawLines twoTens)[number - 1]? = some raw →
        ∃ output ∈ outputs, Shown number (fromUtf8Lossy (trimTerminator raw)) output := by
  have hfirst : runRead ⟨100, 100⟩ 15 twoTens [] (some 1) none = .ok ⟨⟨("1: aaaaaaaaa\n" ++
      "[truncated: result limited (OutputBytes)]\n[more lines follow; continue at start_line 2]\n").toList,
      true⟩, some 2⟩ := by
    decide
  have hsecond : runRead ⟨100, 100⟩ 15 twoTens [] (some 2) none =
      .ok ⟨⟨"2: bbbbbbbbb\n".toList, false⟩, none⟩ := by
    decide
  have hfits : ∀ startLine, Visited ⟨100, 100⟩ 15 twoTens [] startLine →
      CallFits ⟨100, 100⟩ 15 twoTens startLine := by
    intro startLine hv
    have hs : startLine = 1 ∨ startLine = 2 := by
      induction hv with
      | first => exact .inl rfl
      | next _ h ih =>
        rcases ih with rfl | rfl
        · rw [hfirst] at h
          cases h
          exact .inr rfl
        · rw [hsecond] at h
          cases h
    have hrng : rangeLines twoTens ⟨startLine, none, some 15⟩ =
        [replicate 9 0x61, replicate 9 0x62].drop (startLine - 1) := by
      rcases hs with rfl | rfl <;> decide
    have hlen : ([replicate 9 0x61, replicate 9 0x62] : List Bytes).length = 2 := rfl
    unfold CallFits
    rw [hrng]
    refine ⟨?_, fun k raw hraw hk => ?_⟩
    · rintro ⟨k, raw, hraw, hlt, heq, -⟩
      rw [length_drop, hlen] at hlt
      obtain ⟨rfl, rfl⟩ : startLine = 1 ∧ k = 0 := by omega
      cases hraw
      revert heq
      decide
    · have hlt := (List.getElem?_eq_some_iff.mp hraw).1
      rw [length_drop, hlen] at hlt
      obtain rfl | ⟨rfl, rfl⟩ : k = 0 ∨ startLine = 1 ∧ k = 1 := by omega
      · rcases hs with rfl | rfl <;> decide
      · cases hraw
        revert hk
        decide
  obtain ⟨outputs, hf, hs⟩ := followed_shows [] (by decide) (by decide) (by decide) hfits
  refine ⟨outputs, ?_, hf, hs⟩
  cases hf with
  | last h =>
    rw [hfirst] at h
    cases h
  | next h rest =>
    rw [hfirst] at h
    cases h
    cases rest with
    | last => rfl
    | next h =>
      rw [hsecond] at h
      cases h

/-- The second line is cut away behind its number, and no call shows it. -/
theorem second_line_lost :
    ¬ ∃ outputs, Followed ⟨100, 100⟩ 6 [0x61, newline, 0x62, newline] [] 1 outputs ∧
      ∀ number raw, 1 ≤ number → (rawLines [0x61, newline, 0x62, newline])[number - 1]? = some raw →
        ∃ output ∈ outputs, Shown number (fromUtf8Lossy (trimTerminator raw)) output := by
  have hr : runRead ⟨100, 100⟩ 6 [0x61, newline, 0x62, newline] [] (some 1) none =
      .ok ⟨⟨"1: a\n2\n[truncated: 6 of 10 bytes shown]".toList, true⟩, none⟩ := by
    decide
  rintro ⟨outputs, hf, hs⟩
  obtain ⟨output, hm, front, part, back, -, ht, -⟩ := hs 2 [0x62, newline] (by decide) rfl
  have hp : "2: ".toList <:+: output.text := by
    have hn : Nat.toDigits 10 2 ++ ": ".toList = "2: ".toList := by decide
    rw [ht, hn]
    exact ⟨front, part ++ '\n' :: back, by simp⟩
  cases hf with
  | last h =>
    rw [hr] at h
    cases h
    rw [mem_singleton.mp hm] at hp
    revert hp
    decide
  | next h =>
    rw [hr] at h
    cases h

end LocalAi.Workspace
