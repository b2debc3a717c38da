import LocalAi.Workspace.Open
import LocalAi.Lib.Utf8

/-!
# Reading lines within a budget

A range of lines of a file is read while a budget of bytes lasts.  Each line is charged its text
and one byte for its end.

* `fromUtf8Lossy`, `lossyBounded`: decoding that never fails, and within a bound.
* `ExactFit`: a line that takes all that is left of the budget, and one behind it.
* `Bounded`: what a read within its budget returns.
* `readLines_bounded_iff`: a read is within its budget unless a line fits exactly.
-/

open List

namespace LocalAi.Workspace

/-! ### Lossy decoding -/

def isContinuation (b : UInt8) : Bool := decide (0x80 ≤ b ∧ b ≤ 0xBF)

/-- The second bytes that may follow the first byte of a character of three or four. -/
def mayFollow (b c : UInt8) : Bool :=
  if b = 0xE0 then decide (0xA0 ≤ c ∧ c ≤ 0xBF)
  else if b = 0xED then decide (0x80 ≤ c ∧ c ≤ 0x9F)
  else if b = 0xF0 then decide (0x90 ≤ c ∧ c ≤ 0xBF)
  else if b = 0xF4 then decide (0x80 ≤ c ∧ c ≤ 0x8F)
  else decide (0xE0 ≤ b ∧ b ≤ 0xF4) && isContinuation c

/-- How many bytes at the start of `bytes`, which begin no character, one replacement character
stands for. -/
def maximalSubpart (bytes : Bytes) : Nat :=
  if ¬ mayFollow (bytes.getD 0 0) (bytes.getD 1 0) then 1
  else if 0xF0 ≤ bytes.getD 0 0 ∧ isContinuation (bytes.getD 2 0) then 3
  else 2

def replacementCharacter : Char := '\uFFFD'

def lossyFrom : (fuel : Nat) → Bytes → Text
  | 0, _ => []
  | _ + 1, [] => []
  | fuel + 1, b :: bytes =>
    match (b :: bytes).toByteArray.utf8DecodeChar? 0 with
    | some c => c :: lossyFrom fuel ((b :: bytes).drop c.utf8Size)
    | none => replacementCharacter :: lossyFrom fuel ((b :: bytes).drop (maximalSubpart (b :: bytes)))

/-- `String::from_utf8_lossy`. -/
def fromUtf8Lossy (bytes : Bytes) : Text := lossyFrom bytes.length bytes

/-- Where the characters of a text start. -/
def charIndices : (index : Nat) → Text → List Nat
  | _, [] => []
  | index, c :: text => index :: charIndices (index + c.utf8Size) text

/-- `String::truncate` at a character boundary. -/
def truncate : (len : Nat) → Text → Text
  | _, [] => []
  | len, c :: text => if len = 0 then [] else c :: truncate (len - c.utf8Size) text

/-- Decode lossily, to at most `max` bytes, and whether anything was cut. -/
def lossyBounded (bytes : Bytes) (max : Nat) : Text × Bool :=
  let text := fromUtf8Lossy bytes
  if utf8Len text ≤ max then (text, false)
  else
    let cut := (((charIndices 0 text).takeWhile fun index => decide (index ≤ max)).getLast?).getD 0
    (truncate cut text, true)

/-! ### The loop -/

def newline : UInt8 := 0x0A

def carriageReturn : UInt8 := 0x0D

/-- What `read_until(b'\n')` returns, over and over. -/
def rawLines : Bytes → List Bytes
  | [] => []
  | b :: bytes =>
    if b = newline then [b] :: rawLines bytes
    else
      match rawLines bytes with
      | [] => [[b]]
      | line :: lines => (b :: line) :: lines

def stripLast (b : UInt8) (line : Bytes) : Bytes :=
  if line.getLast? = some b then line.dropLast else line

def trimTerminator (line : Bytes) : Bytes := stripLast carriageReturn (stripLast newline line)

inductive Truncation
  | outputBytes
  | fileBytes
deriving DecidableEq

structure FileLine where
  number : Nat
  text : Text
  truncated : Bool
deriving DecidableEq

structure FileRead where
  path : Text
  lines : List FileLine
  nextLine : Option Nat
  eof : Bool
  truncated : Bool
  truncation : Option Truncation
  invalidUtf8 : Bool
deriving DecidableEq

structure ReadOptions where
  startLine : Nat
  endLine : Option Nat
  maxBytes : Option Nat

inductive ReadFault
  | refused (error : Error)
  | underflow
deriving DecidableEq

def binaryError (display : Text) : Error := .invalidArgument (quoted display ++ " is a binary file".toList)

/-- The loop of `read_lines` over what is left of a file, behind line `number`. -/
def readFrom (options : ReadOptions) (maxBytes : Nat) (display : Text) :
    (left : List Bytes) → (number used : Nat) → FileRead → Except ReadFault FileRead
  | [], _, _, result => .ok { result with eof := true }
  | buf :: left, number, used, result =>
    if buf.contains 0 then .error (.refused (binaryError display))
    else
      let number := number + 1
      if number < options.startLine then
        readFrom options maxBytes display left number used result
      else if options.endLine.any fun last => decide (last < number) then
        .ok { result with nextLine := some number }
      else if maxBytes < used then .error .underflow
      else
        let raw := trimTerminator buf
        let remaining := maxBytes - used
        if remaining < raw.length + 1 ∧ result.lines ≠ [] then
          .ok { result with nextLine := some number, truncation := some .outputBytes }
        else
          let (text, cut) := lossyBounded raw remaining
          let result := { result with
            invalidUtf8 := result.invalidUtf8 || (decode raw).isNone
            lines := result.lines ++ [⟨number, text, cut⟩] }
          if cut then
            .ok { result with nextLine := some (number + 1), truncation := some .outputBytes }
          else readFrom options maxBytes display left number (used + (utf8Len text + 1)) result

/-- Stream lines from a content, keeping the requested range within `maxBytes`. -/
def readLines (content : Bytes) (options : ReadOptions) (maxBytes : Nat) (display : Text) :
    Except ReadFault FileRead :=
  readFrom options maxBytes display (rawLines content) 0 0 ⟨[], [], none, false, false, none, false⟩

/-! ### Lengths of decoded texts -/

theorem length_le_lossyFrom {fuel : Nat} {bytes : Bytes} (h : bytes.length ≤ fuel) :
    bytes.length ≤ utf8Len (lossyFrom fuel bytes) := by
  induction fuel generalizing bytes with
  | zero => exact Nat.le_of_eq (Nat.le_zero.mp h)
  | succ fuel ih =>
    cases bytes with
    | nil => exact Nat.zero_le _
    | cons b bytes =>
      have hs : maximalSubpart (b :: bytes) ≤ 3 := by
        unfold maximalSubpart
        split
        · decide
        · split <;> decide
      have hs' : 1 ≤ maximalSubpart (b :: bytes) := by
        unfold maximalSubpart
        split
        · decide
        · split <;> decide
      have hd : ∀ n, 1 ≤ n → (b :: bytes).length ≤
          n + utf8Len (lossyFrom fuel ((b :: bytes).drop n)) := by
        intro n hn
        have hle : ((b :: bytes).drop n).length ≤ fuel := by
          rw [length_drop]
          omega
        have hl := ih hle
        rw [length_drop] at hl
        omega
      rw [lossyFrom]
      cases (b :: bytes).toByteArray.utf8DecodeChar? 0 with
      | some c => exact hd c.utf8Size (Char.utf8Size_pos c)
      | none =>
        have hr : replacementCharacter.utf8Size = 3 := by decide
        have hl := hd (maximalSubpart (b :: bytes)) hs'
        rw [utf8Len_cons, hr]
        omega

theorem length_le_fromUtf8Lossy (bytes : Bytes) : bytes.length ≤ utf8Len (fromUtf8Lossy bytes) :=
  length_le_lossyFrom le_rfl

variable {text : Text}

theorem le_of_mem_charIndices {first index : Nat} (h : index ∈ charIndices first text) :
    first ≤ index := by
  induction text generalizing first with
  | nil => cases h
  | cons c text ih =>
    rcases mem_cons.mp h with rfl | hm
    · exact le_rfl
    · have hle := ih hm
      omega

theorem utf8Len_truncate {index len : Nat}
    (h : index + len ∈ charIndices index text) : utf8Len (truncate len text) = len := by
  induction text generalizing index len with
  | nil => cases h
  | cons c text ih =>
    unfold truncate
    by_cases hz : len = 0
    · rw [if_pos hz, hz]
      rfl
    · rw [if_neg hz, utf8Len_cons]
      rcases mem_cons.mp h with heq | hm
      · omega
      · have hf := le_of_mem_charIndices hm
        have hle : c.utf8Size ≤ len := by omega
        have hlen : utf8Len (truncate (len - c.utf8Size) text) = len - c.utf8Size :=
          @ih (index + c.utf8Size) _ (by rwa [Nat.add_assoc, Nat.add_sub_cancel' hle])
        omega

theorem truncate_isPrefix (len : Nat) (text : Text) : truncate len text <+: text := by
  induction text generalizing len with
  | nil => exact prefix_refl _
  | cons c text ih =>
    unfold truncate
    split
    · exact nil_prefix
    · exact cons_prefix_cons.mpr ⟨rfl, ih _⟩

theorem lossyBounded_cases (bytes : Bytes) (max : Nat) :
    utf8Len (fromUtf8Lossy bytes) ≤ max ∧ lossyBounded bytes max = (fromUtf8Lossy bytes, false) ∨
      max < utf8Len (fromUtf8Lossy bytes) ∧ ∃ text, lossyBounded bytes max = (text, true) ∧
        utf8Len text ≤ max ∧ text <+: fromUtf8Lossy bytes := by
  by_cases hle : utf8Len (fromUtf8Lossy bytes) ≤ max
  · exact Or.inl ⟨hle, if_pos hle⟩
  · refine Or.inr ⟨by omega, _, if_neg hle, ?_, truncate_isPrefix _ _⟩
    cases hcut : ((charIndices 0 (fromUtf8Lossy bytes)).takeWhile fun index =>
        decide (index ≤ max)).getLast? with
    | none =>
      rw [Option.getD_none]
      have hz : truncate 0 (fromUtf8Lossy bytes) = [] := by
        cases fromUtf8Lossy bytes <;> rfl
      rw [hz]
      exact Nat.zero_le _
    | some cut =>
      have hm := mem_of_getLast? hcut
      have hcutLe : cut ≤ max :=
        of_decide_eq_true (mem_takeWhile_imp (p := fun index => decide (index ≤ max)) hm)
      have hi : 0 + cut ∈ charIndices 0 (fromUtf8Lossy bytes) := by
        rw [Nat.zero_add]
        exact ( takeWhile_prefix _).subset hm
      rw [Option.getD_some, utf8Len_truncate hi]
      exact hcutLe

/-! ### The range and its charges -/

def upTo (endLine : Option Nat) (number : Nat) (left : List Bytes) : List Bytes :=
  match endLine with
  | none => left
  | some last => left.take (last - number)

/-- The lines of the range, without their terminators. -/
def rangeLines (content : Bytes) (options : ReadOptions) : List Bytes :=
  (upTo options.endLine (options.startLine - 1)
    ((rawLines content).drop (options.startLine - 1))).map trimTerminator

/-- What a line is charged: its text and its end. -/
def charge (raw : Bytes) : Nat := utf8Len (fromUtf8Lossy raw) + 1

def charged (range : List Bytes) (k : Nat) : Nat := ((range.take k).map charge).sum

/-- A line takes all that the lines before it left of the budget, and is not the last of the range;
behind the first line, its text is longer than its bytes. -/
def ExactFit (range : List Bytes) (max : Nat) : Prop :=
  ∃ k raw, range[k]? = some raw ∧ k + 1 < range.length ∧
    charged range k + utf8Len (fromUtf8Lossy raw) = max ∧
    (k = 0 ∨ raw.length < utf8Len (fromUtf8Lossy raw))

def wholeLine (startLine index : Nat) (raw : Bytes) : FileLine :=
  ⟨startLine + index, fromUtf8Lossy raw, false⟩

inductive Left (range : List Bytes) (options : ReadOptions) (total max count : Nat) :
    (whole : Bool) → FileRead → Prop
  | eof {r : FileRead} (hend : total < options.startLine + count) (hcount : count = range.length)
      (heof : r.eof = true) (hnext : r.nextLine = none) (hreason : r.truncation = none) :
      Left range options total max count true r
  | range {r : FileRead} (hend : options.endLine = some (options.startLine + count - 1))
      (hmore : options.startLine + count ≤ total) (heof : r.eof = false)
      (hnext : r.nextLine = some (options.startLine + count)) (hreason : r.truncation = none) :
      Left range options total max count true r
  | full {r : FileRead} {raw : Bytes} (hpos : 0 < count) (hraw : range[count]? = some raw)
      (hfull : max < charged range count + raw.length + 1) (heof : r.eof = false)
      (hnext : r.nextLine = some (options.startLine + count))
      (hreason : r.truncation = some .outputBytes) : Left range options total max count true r
  | cut {r : FileRead} (heof : r.eof = false)
      (hnext : r.nextLine = some (options.startLine + count))
      (hreason : r.truncation = some .outputBytes) : Left range options total max count false r

structure Bounded (range : List Bytes) (options : ReadOptions) (total max : Nat) (r : FileRead) :
    Prop where
  sum : (r.lines.map fun line => utf8Len line.text).sum ≤ max
  numbers : r.lines.map FileLine.number = List.range' options.startLine r.lines.length
  texts : ∀ i line, r.lines[i]? = some line → ∃ raw, range[i]? = some raw ∧
    (line.truncated = false → line.text = fromUtf8Lossy raw) ∧
    (line.truncated = true → line.text <+: fromUtf8Lossy raw ∧ line.text ≠ fromUtf8Lossy raw ∧
      i + 1 = r.lines.length)
  fits : ∀ i raw, 0 < i → i < r.lines.length → range[i]? = some raw →
    charged range i + raw.length + 1 ≤ max
  left : Left range options total max r.lines.length (r.lines.all fun line => !line.truncated) r

section Range

variable {range done : List Bytes} {options : ReadOptions} {max : Nat}

variable {raw : Bytes} {total : Nat}

theorem charged_succ {k : Nat} (h : range[k]? = some raw) :
    charged range (k + 1) = charged range k + charge raw := by
  unfold charged
  rw [take_add_one, h, map_append, sum_append]
  simp

theorem charged_mono {j k : Nat} (h : j ≤ k) : charged range j ≤ charged range k := by
  unfold charged
  have hs : range.take j <+: range.take k := by
    rw [← Nat.min_eq_left h, ← take_take]
    exact take_prefix j _
  obtain ⟨more, hm⟩ := hs
  rw [← hm, map_append, sum_append]
  omega

theorem sum_wholeLine (startLine : Nat) (done : List Bytes) :
    ((done.mapIdx (wholeLine startLine)).map fun line => utf8Len line.text).sum + done.length =
      (done.map charge).sum := by
  induction done using reverseRecOn with
  | nil => rfl
  | append_singleton done raw ih =>
    rw [mapIdx_concat, map_append, map_append, sum_append, sum_append, length_append, ← ih]
    simp [wholeLine, charge]
    omega

theorem numbers_wholeLine (startLine : Nat) (done : List Bytes) :
    (done.mapIdx (wholeLine startLine)).map FileLine.number = range' startLine done.length := by
  induction done using reverseRecOn with
  | nil => rfl
  | append_singleton done raw ih =>
    rw [mapIdx_concat, map_append, ih, length_append, length_singleton, range'_concat]
    simp [wholeLine]

theorem not_exactFit {count : Nat} (hread : ∀ k < count, charged range k ≤ max)
    (hrest : ∀ k raw, range[k]? = some raw → count ≤ k + 1 → k + 1 < range.length →
      (k = 0 ∨ raw.length < utf8Len (fromUtf8Lossy raw)) →
      charged range k + utf8Len (fromUtf8Lossy raw) ≠ max) : ¬ ExactFit range max := by
  rintro ⟨k, raw, hr, hlt, hf, hl⟩
  by_cases hk : k + 1 < count
  · have hle := hread (k + 1) hk
    rw [charged_succ hr] at hle
    unfold charge at hle
    omega
  · exact hrest k raw hr (by omega) hlt hl hf

structure ReadSoFar (range done : List Bytes) (options : ReadOptions) (max used : Nat)
    (result : FileRead) : Prop where
  pre : done <+: range
  lines : result.lines = done.mapIdx (wholeLine options.startLine)
  spent : used = charged range done.length
  read : ∀ k < done.length, charged range k ≤ max
  fits : ∀ i raw, 0 < i → i < done.length → range[i]? = some raw →
    charged range i + raw.length + 1 ≤ max
  within : used ≤ max ∨ ∃ k raw, done.length = k + 1 ∧ range[k]? = some raw ∧
    charged range k + utf8Len (fromUtf8Lossy raw) = max ∧
    (k = 0 ∨ raw.length < utf8Len (fromUtf8Lossy raw))
  eof : result.eof = false
  nextLine : result.nextLine = none
  truncation : result.truncation = none

variable {used : Nat} {result : FileRead}

theorem ReadSoFar.sum (h : ReadSoFar range done options max used result) :
    (result.lines.map fun line => utf8Len line.text).sum ≤ max := by
  have hs := sum_wholeLine options.startLine done
  have hc : (done.map charge).sum = charged range done.length := by
    unfold charged
    obtain ⟨more, rfl⟩ := h.pre
    rw [take_left]
  rw [h.lines]
  rcases h.within with hle | ⟨k, raw, hk, hr, hf, -⟩
  · rw [h.spent] at hle
    omega
  · rw [hk, charged_succ hr] at hc
    unfold charge at hc
    unfold charge at hs
    omega

theorem ReadSoFar.texts (h : ReadSoFar range done options max used result) {i : Nat}
    {line : FileLine} (hl : result.lines[i]? = some line) : ∃ raw, range[i]? = some raw ∧
      line.text = fromUtf8Lossy raw ∧ line.truncated = false := by
  rw [h.lines, getElem?_mapIdx] at hl
  obtain ⟨raw, hr, rfl⟩ := Option.map_eq_some_iff.mp hl
  obtain ⟨more, rfl⟩ := h.pre
  exact ⟨raw, getElem?_append_left (List.getElem?_eq_some_iff.mp hr).1 ▸ hr, rfl, rfl⟩

theorem ReadSoFar.length (h : ReadSoFar range done options max used result) :
    result.lines.length = done.length := by
  rw [h.lines, length_mapIdx]

theorem ReadSoFar.all (h : ReadSoFar range done options max used result) :
    (result.lines.all fun line => !line.truncated) = true := by
  rw [all_eq_true]
  intro line hl
  obtain ⟨i, hi⟩ := mem_iff_getElem?.mp hl
  obtain ⟨_, -, -, hw⟩ := h.texts hi
  rw [hw]
  rfl

theorem ReadSoFar.bounded (h : ReadSoFar range done options max used result) {r : FileRead}
    (hl : r.lines = result.lines)
    (hle : Left range options total max done.length true r) : Bounded range options total max r := by
  refine ⟨by rw [hl]; exact h.sum, ?_, fun i line hli => ?_, by rw [hl, h.length]; exact h.fits, ?_⟩
  · rw [hl, h.length, h.lines]
    exact numbers_wholeLine _ _
  · rw [hl] at hli
    obtain ⟨raw, hr, hte, hw⟩ := h.texts hli
    refine ⟨raw, hr, fun _ => hte, fun ht => ?_⟩
    rw [hw] at ht
    cases ht
  · rw [hl, h.length, h.all]
    exact hle

theorem fits_of_read (h : ReadSoFar range done options max used result)
    (hu : used ≤ max) (hf : raw.length + 1 ≤ max - used ∨ done = []) (hp : 0 < done.length) :
    charged range done.length + raw.length + 1 ≤ max := by
  rw [← h.spent]
  rcases hf with hle | hn
  · omega
  · rw [hn] at hp
    cases hp

theorem ReadSoFar.push {raw : Bytes} {rest : List Bytes} (invalid : Bool)
    (h : ReadSoFar range done options max used result) (hu : used ≤ max)
    (hrng : range = done ++ raw :: rest) (hle : utf8Len (fromUtf8Lossy raw) ≤ max - used)
    (hf : raw.length + 1 ≤ max - used ∨ done = []) :
    ReadSoFar range (done ++ [raw]) options max (used + (utf8Len (fromUtf8Lossy raw) + 1))
      { result with
        invalidUtf8 := invalid
        lines := result.lines ++
          [⟨options.startLine + done.length, fromUtf8Lossy raw, false⟩] } := by
  have hr : range[done.length]? = some raw := by
    rw [hrng, getElem?_append_right le_rfl, Nat.sub_self]
    rfl
  refine ⟨⟨rest, by rw [hrng, append_assoc]; rfl⟩, ?_, ?_, fun k hk => ?_,
    fun i raw' hp hi hr' => ?_, ?_, h.eof, h.nextLine, h.truncation⟩
  · rw [mapIdx_concat, ← h.lines]
    rfl
  · rw [length_append, length_singleton, charged_succ hr, ← h.spent]
    rfl
  · rw [length_append, length_singleton] at hk
    by_cases hl : k = done.length
    · rw [hl, ← h.spent]
      exact hu
    · exact h.read k (by omega)
  · rw [length_append, length_singleton] at hi
    by_cases hl : i = done.length
    · subst hl
      rw [hr] at hr'
      cases hr'
      exact fits_of_read h hu hf hp
    · exact h.fits i raw' hp (by omega) hr'
  · by_cases he : used + utf8Len (fromUtf8Lossy raw) = max
    · refine Or.inr ⟨done.length, raw, by rw [length_append]; rfl, hr,
        by rw [← h.spent]; exact he, ?_⟩
      rcases hf with hf | hn
      · exact Or.inr (by omega)
      · exact Or.inl (by rw [hn]; rfl)
    · exact Or.inl (by omega)

theorem ReadSoFar.cut {r : FileRead}
    (h : ReadSoFar range done options max used result) (hu : used ≤ max)
    (hr : range[done.length]? = some raw) (hfi : raw.length + 1 ≤ max - used ∨ done = [])
    (hlt : max - used < utf8Len (fromUtf8Lossy raw))
    (ht : utf8Len text ≤ max - used) (hs : text <+: fromUtf8Lossy raw)
    (hl : r.lines = result.lines ++ [⟨options.startLine + done.length, text, true⟩])
    (heof : r.eof = false) (hn : r.nextLine = some (options.startLine + (done.length + 1)))
    (hrsn : r.truncation = some .outputBytes) : Bounded range options total max r := by
  have hlen : r.lines.length = done.length + 1 := by
    rw [hl, length_append, h.length, length_singleton]
  refine ⟨?_, ?_, fun i line hli => ?_, fun i raw' hp hi hr' => ?_, ?_⟩
  · have hsum := sum_wholeLine options.startLine done
    have hc : (done.map charge).sum = charged range done.length := by
      unfold charged
      obtain ⟨more, rfl⟩ := h.pre
      rw [take_left]
    have hsp := h.spent
    rw [hl, h.lines, map_append, sum_append]
    simp only [map_cons, map_nil, sum_cons, sum_nil]
    omega
  · rw [hlen, hl, h.lines, map_append, numbers_wholeLine, List.range'_concat]
    simp
  · by_cases hi : i < done.length
    · rw [hl, getElem?_append_left (by rwa [h.length])] at hli
      obtain ⟨raw', hr', ht', hw⟩ := h.texts hli
      refine ⟨raw', hr', fun _ => ht', fun htr => ?_⟩
      rw [hw] at htr
      cases htr
    · have hi' : i = done.length := by
        have hlt' := (List.getElem?_eq_some_iff.mp hli).1
        omega
      subst hi'
      rw [hl, getElem?_append_right (by rw [h.length]), h.length, Nat.sub_self] at hli
      cases hli
      refine ⟨raw, hr, nofun, fun _ => ⟨hs, fun heq => ?_, ?_⟩⟩
      · dsimp only at heq
        rw [heq] at ht
        omega
      · omega
  · rw [hlen] at hi
    by_cases hla : i = done.length
    · subst hla
      rw [hr] at hr'
      cases hr'
      exact fits_of_read h hu hfi hp
    · exact h.fits i raw' hp (by omega) hr'
  · have ha : (r.lines.all fun line => !line.truncated) = false := by
      rw [hl, all_append]
      simp
    rw [ha, hlen]
    exact .cut heof hn hrsn

/-- **The loop**: it overruns its budget at an exact fit, and is within it otherwise. -/
theorem readFrom_cases {left : List Bytes} {number : Nat} (display : Text)
    (hnul : ∀ buf ∈ left, buf.contains 0 = false)
    (hnum : number + 1 = options.startLine + done.length)
    (he : ∀ last ∈ options.endLine, number ≤ last)
    (hrng : range = done ++ (upTo options.endLine number left).map trimTerminator)
    (ht : total = number + left.length) (h : ReadSoFar range done options max used result) :
    (readFrom options max display left number used result = .error .underflow ∧
        ExactFit range max) ∨
      ∃ r, readFrom options max display left number used result = .ok r ∧ ¬ ExactFit range max ∧
        Bounded range options total max r := by
  induction left generalizing number done used result with
  | nil =>
    have ha : range = done := by
      rw [hrng]
      cases options.endLine <;> simp [upTo]
    refine Or.inr ⟨_, rfl, not_exactFit h.read fun k raw _ hle hlt => ?_, h.bounded rfl ?_⟩
    · rw [ha] at hlt
      omega
    · rw [length_nil] at ht
      exact .eof (by omega) (by rw [ha]) rfl h.nextLine h.truncation
  | cons buf left ih =>
    rw [forall_mem_cons] at hnul
    rw [length_cons] at ht
    have hst : ¬ number + 1 < options.startLine := by omega
    unfold readFrom
    rw [hnul.1, if_neg Bool.false_ne_true]
    dsimp only
    rw [if_neg hst]
    by_cases hb : options.endLine.any fun last => decide (last < number + 1)
    · -- behind the last line asked for
      rw [if_pos hb]
      obtain ⟨last, hl, hlt⟩ : ∃ last, options.endLine = some last ∧ last < number + 1 := by
        obtain ⟨last, hl, hlt⟩ := (Option.any_eq_true _ _).mp hb
        exact ⟨last, hl, of_decide_eq_true hlt⟩
      have hle := he last hl
      have ha : range = done := by
        have hz : last - number = 0 := by omega
        rw [hrng, hl]
        simp [upTo, hz]
      refine Or.inr ⟨_, rfl, not_exactFit h.read fun k raw _ hle hlt => ?_, h.bounded rfl ?_⟩
      · rw [ha] at hlt
        omega
      · refine .range ?_ (by omega) h.eof ?_ h.truncation
        · rw [hl, Option.some_inj]
          omega
        · rw [Option.some_inj]
          exact hnum
    · rw [if_neg hb]
      have hbef : ∀ last ∈ options.endLine, number + 1 ≤ last := by
        intro last hl
        by_contra hlt
        rw [Option.mem_def.mp hl] at hb
        exact hb (decide_eq_true (by omega))
      have hrest : range = done ++ trimTerminator buf ::
          (upTo options.endLine (number + 1) left).map trimTerminator := by
        rw [hrng]
        cases hl : options.endLine with
        | none => rfl
        | some last =>
          have hle := hbef last hl
          obtain ⟨n, hn⟩ : ∃ n, last - number = n + 1 := ⟨last - number - 1, by omega⟩
          have hn' : last - (number + 1) = n := by omega
          simp [upTo, hn, hn']
      have hr : range[done.length]? = some (trimTerminator buf) := by
        rw [hrest, getElem?_append_right le_rfl, Nat.sub_self]
        rfl
      have hlen : done.length < range.length := (List.getElem?_eq_some_iff.mp hr).1
      by_cases ho : max < used
      · -- the line before it fitted exactly
        rw [if_pos ho]
        rcases h.within with hle | ⟨k, raw, hk, hkr, hfit, hlong⟩
        · omega
        · exact Or.inl ⟨rfl, k, raw, hkr, by omega, hfit, hlong⟩
      · rw [if_neg ho]
        have hu : used ≤ max := by omega
        have hread : ∀ k < done.length + 1, charged range k ≤ max := by
          intro k hk
          by_cases hl : k = done.length
          · rw [hl, ← h.spent]
            exact hu
          · exact h.read k (by omega)
        have hc := charged_succ hr
        have hlossy := length_le_fromUtf8Lossy (trimTerminator buf)
        have hspent := h.spent
        unfold charge at hc
        -- a line that stops the read is charged too much
        have hs : max - used < utf8Len (fromUtf8Lossy (trimTerminator buf)) ∨
              max - used < (trimTerminator buf).length + 1 ∧ done ≠ [] → ¬ ExactFit range max := by
          intro hs
          refine not_exactFit hread fun k raw hkr hle hlt hlong hfit => ?_
          by_cases hk : k = done.length
          · subst hk
            rw [hr] at hkr
            cases hkr
            rcases hs with hcut | ⟨hf, hne⟩
            · omega
            · have hpos := length_pos_iff.mpr hne
              rcases hlong with hz | hlong
              · omega
              · omega
          · have hm : charged range (done.length + 1) ≤ charged range k := charged_mono (by omega)
            omega
        by_cases hf : max - used < (trimTerminator buf).length + 1 ∧ result.lines ≠ []
        · -- the line does not fit
          have hne : done ≠ [] := by
            rintro rfl
            exact hf.2 h.lines
          rw [if_pos hf]
          refine Or.inr ⟨_, rfl, hs (Or.inr ⟨hf.1, hne⟩), h.bounded rfl ?_⟩
          exact .full (length_pos_iff.mpr hne) hr (by omega) h.eof
            (by rw [Option.some_inj]; exact hnum) rfl
        · rw [if_neg hf]
          have hfits : (trimTerminator buf).length + 1 ≤ max - used ∨ done = [] := by
            by_cases hnil : done = []
            · exact Or.inr hnil
            · refine Or.inl ?_
              by_contra hlt
              refine hf ⟨by omega, fun hli => hnil ?_⟩
              rw [h.lines] at hli
              exact mapIdx_eq_nil_iff.mp hli
          rcases lossyBounded_cases (trimTerminator buf) (max - used) with
            ⟨hle, hbdd⟩ | ⟨hlt, text, hbdd, hte, hspell⟩
          · -- the line is read in full
            rw [hbdd]
            rw [if_neg Bool.false_ne_true, hnum]
            have hp := h.push (result.invalidUtf8 || (decode (trimTerminator buf)).isNone)
              hu hrest hle hfits
            have hnext := ih hnul.2 (by rw [length_append, length_singleton]; omega)
              hbef (by rw [hrest, append_assoc]; rfl) (by omega) hp
            rw [hnum] at hnext
            exact hnext
          · -- the line is cut
            rw [hbdd]
            rw [if_pos rfl]
            refine Or.inr ⟨_, rfl, hs (Or.inl hlt), ?_⟩
            rw [hnum]
            exact h.cut hu hr hfits hlt hte hspell rfl h.eof (congrArg some (Nat.add_assoc _ _ 1)) rfl

end Range

/-! ### A read -/

theorem flatten_rawLines (content : Bytes) : (rawLines content).flatten = content := by
  induction content with
  | nil => rfl
  | cons b content ih =>
    unfold rawLines
    split
    · rename_i hb
      rw [flatten_cons, ih, hb]
      rfl
    · cases hl : rawLines content with
      | nil =>
        rw [hl] at ih
        rw [← ih]
        rfl
      | cons =>
        rw [hl, flatten_cons] at ih
        rw [flatten_cons, ← ih]
        rfl

theorem readFrom_skip (options : ReadOptions) (max : Nat) (display : Text) {left : List Bytes}
    {number used : Nat} {result : FileRead} (hnul : ∀ buf ∈ left, buf.contains 0 = false)
    (hle : number ≤ options.startLine - 1) : readFrom options max display left number used result =
      readFrom options max display (left.drop (options.startLine - 1 - number))
        (options.startLine - 1) used result := by
  induction left generalizing number with
  | nil => rw [drop_nil, readFrom, readFrom]
  | cons buf left ih =>
    rw [forall_mem_cons] at hnul
    by_cases heq : number = options.startLine - 1
    · rw [heq, Nat.sub_self]
      rfl
    · obtain ⟨n, hn⟩ : ∃ n, options.startLine - 1 - number = n + 1 :=
        ⟨options.startLine - 1 - number - 1, by omega⟩
      have hn' : options.startLine - 1 - (number + 1) = n := by omega
      have hb : number + 1 < options.startLine := by omega
      rw [readFrom, hnul.1, if_neg Bool.false_ne_true]
      rw [if_pos hb, ih hnul.2 (by omega), hn, hn', drop_succ_cons]

theorem readLines_cases {content : Bytes} (hn : 0 ∉ content) {options : ReadOptions}
    (hst : 1 ≤ options.startLine) (hend : ∀ last ∈ options.endLine, options.startLine ≤ last)
    (max : Nat) (display : Text) : (readLines content options max display = .error .underflow ∧
        ExactFit (rangeLines content options) max) ∨
      ∃ r, readLines content options max display = .ok r ∧
        ¬ ExactFit (rangeLines content options) max ∧
        Bounded (rangeLines content options) options (rawLines content).length max r := by
  have hn' : ∀ buf ∈ rawLines content, buf.contains 0 = false := by
    intro buf hb
    rw [contains_eq_mem, decide_eq_false_iff_not]
    intro hm
    refine hn ?_
    rw [← flatten_rawLines content]
    exact mem_flatten.mpr ⟨buf, hb, hm⟩
  have hin : ReadSoFar (rangeLines content options) [] options max 0
      ⟨[], [], none, false, false, none, false⟩ :=
    ⟨ nil_prefix, rfl, rfl, nofun, nofun, Or.inl (Nat.zero_le _), rfl, rfl, rfl⟩
  unfold readLines
  rw [readFrom_skip options max display hn' (Nat.zero_le _), Nat.sub_zero]
  by_cases hsh : options.startLine - 1 ≤ (rawLines content).length
  · refine readFrom_cases display (fun buf hb => hn' buf (mem_of_mem_drop hb))
      (by rw [length_nil]; omega) (fun last hl => ?_) rfl ?_ hin
    · have hle := hend last hl
      omega
    · rw [length_drop]
      omega
  · -- the file ends before the range
    have hd : (rawLines content).drop (options.startLine - 1) = [] :=
      drop_of_length_le (by omega)
    have he : rangeLines content options = [] := by
      unfold rangeLines
      rw [hd]
      cases options.endLine <;> simp [upTo]
    rw [hd, readFrom]
    refine Or.inr ⟨_, rfl, ?_, hin.bounded rfl ?_⟩
    · rintro ⟨k, raw, hr, -⟩
      rw [he] at hr
      cases hr
    · exact .eof (by rw [length_nil]; omega) (by rw [he]) rfl rfl rfl

/-- **A read is within its budget** unless a line fits exactly and is not the last of the range. -/
theorem readLines_bounded_iff {content : Bytes} (hnul : 0 ∉ content) {options : ReadOptions}
    (hstart : 1 ≤ options.startLine) (hend : ∀ last ∈ options.endLine, options.startLine ≤ last)
    (max : Nat) (display : Text) : (∃ r, readLines content options max display = .ok r ∧
        Bounded (rangeLines content options) options (rawLines content).length max r) ↔
      ¬ ExactFit (rangeLines content options) max := by
  rcases readLines_cases hnul hstart hend max display with ⟨he, hexact⟩ | ⟨r, hok, hn, hb⟩
  · rw [he]
    exact ⟨fun ⟨r, hr, _⟩ => (by cases hr), fun hn => absurd hexact hn⟩
  · exact ⟨fun _ => hn, fun _ => ⟨r, hok, hb⟩⟩

/-- One byte fills the budget, and another line follows. -/
theorem exact_fit_underflows : 0 ∉ [0x61, newline, newline] ∧
    readLines [0x61, newline, newline] ⟨1, none, none⟩ 1 [] = .error .underflow := by
  decide

theorem two_lines_bounded : ∃ r, readLines [0x61, newline, 0x62] ⟨1, none, none⟩ 9 [] = .ok r ∧
    Bounded (rangeLines [0x61, newline, 0x62] ⟨1, none, none⟩) ⟨1, none, none⟩
      (rawLines [0x61, newline, 0x62]).length 9 r := by
  refine (readLines_bounded_iff (by decide) (by decide) (fun last hl => by cases hl) 9 []).mpr ?_
  rintro ⟨k, raw, hraw, hlt, heq, -⟩
  have hlen : (rangeLines [0x61, newline, 0x62] ⟨1, none, none⟩).length = 2 := by decide
  obtain rfl : k = 0 := by omega
  cases hraw
  revert heq
  decide

end LocalAi.Workspace
