import Mathlib.Data.List.Basic

/-!
# Numbered lines in a file

A log keeps one entry a line, each under its number.  A write that is cut short
leaves whole lines and a last one without its end.

* `batch`: the bytes of entries under consecutive numbers.
* `nextLine`: read the next line, if it is whole, within a limit and has the number
  that is due.
* `nextLine_line`, `nextLine_end`: reading a file of numbered lines.
-/

open List

namespace LocalAi.Lib

/-- How an entry is written on a line under its number. -/
structure LineFormat (α E : Type) where
  /-- The byte that ends a line. -/
  stop : α
  render : Nat → E → List α
  parse : List α → Option (Nat × E)
  parse_render : ∀ n e, parse (render n e) = some (n, e)
  stop_not_mem : ∀ n e, stop ∉ render n e

namespace LineFormat

variable {α E : Type} (f : LineFormat α E)

variable {n : Nat} {e : E} {tail text : List α}

theorem render_injective {e' : E} (h : f.render n e = f.render n e') : e = e' := by
  have hp := congrArg f.parse h
  rw [f.parse_render, f.parse_render, Option.some.injEq, Prod.mk.injEq] at hp
  exact hp.2

def batch : Nat → List E → List α
  | _, [] => []
  | n, e :: entries => f.render n e ++ f.stop :: batch (n + 1) entries

theorem batch_append (n : Nat) (entries more : List E) :
    f.batch n (entries ++ more) = f.batch n entries ++ f.batch (n + entries.length) more := by
  induction entries generalizing n with
  | nil => rfl
  | cons e entries ih =>
    have hn : n + (e :: entries).length = n + 1 + entries.length := by
      rw [length_cons]
      omega
    simp only [cons_append, batch, ih, append_assoc, hn]

variable {entries : List E}

theorem batch_of_isPrefix {p : List α} (h : p <+: f.batch n entries) :
    ∃ j ≤ entries.length, ∃ tail, p = f.batch n (entries.take j) ++ tail ∧ f.stop ∉ tail := by
  induction entries generalizing n p with
  | nil => exact ⟨0, Nat.le_refl _, [], by simpa [batch] using h, by simp⟩
  | cons e entries ih =>
    have hl : f.batch n (e :: entries) = (f.render n e ++ [f.stop]) ++ f.batch (n + 1) entries := by
      simp [batch]
    rw [hl] at h
    by_cases hs : p.length ≤ (f.render n e).length
    · -- the first line lacks its end
      refine ⟨0, Nat.zero_le _, p, by simp [batch], fun hm => f.stop_not_mem n e ?_⟩
      have hp : p <+: f.render n e := by
        rw [append_assoc] at h
        exact prefix_of_prefix_length_le h (prefix_append _ _) hs
      exact hp.subset hm
    · have hw : f.render n e ++ [f.stop] <+: p := by
        refine prefix_of_prefix_length_le (prefix_append _ _) h ?_
        rw [length_append, length_singleton]
        omega
      obtain ⟨p', rfl⟩ := hw
      obtain ⟨j, hj, tail, rfl, ht⟩ := ih ((prefix_append_right_inj _).mp h)
      refine ⟨j + 1, ?_, tail, ?_, ht⟩
      · rw [length_cons]
        omega
      · simp [batch]

theorem length_le_batch (n : Nat) (entries : List E) : entries.length ≤ (f.batch n entries).length := by
  induction entries generalizing n with
  | nil => exact Nat.le_refl _
  | cons e entries ih =>
    have hr := ih (n + 1)
    simp only [batch, length_append, length_cons]
    omega

/-! ### Reading -/

structure Reader where
  /-- The bytes of the lines read. -/
  offset : Nat
  /-- The number that is due. -/
  next : Nat
  /-- A line was malformed or misnumbered. -/
  stopped : Bool

def Reader.start : Reader := ⟨0, 0, false⟩

def readerAt (entries : List E) (n : Nat) : Reader :=
  ⟨(f.batch 0 (entries.take n)).length, n, false⟩

theorem drop_batch (hn : n ≤ entries.length) (tail : List α) :
    (f.batch 0 entries ++ tail).drop (f.batch 0 (entries.take n)).length
      = f.batch n (entries.drop n) ++ tail := by
  have hs : f.batch 0 entries = f.batch 0 (entries.take n) ++ f.batch n (entries.drop n) := by
    conv_lhs => rw [← take_append_drop n entries]
    rw [f.batch_append, length_take, Nat.min_eq_left hn, Nat.zero_add]
  rw [hs, append_assoc, drop_left]

theorem size_succ (he : entries[n]? = some e) : (f.batch 0 (entries.take (n + 1))).length
      = (f.batch 0 (entries.take n)).length + ((f.render n e).length + 1) := by
  have hlt := (List.getElem?_eq_some_iff.mp he).1
  rw [take_add_one, he, Option.toList_some, f.batch_append, length_append,
    length_take, Nat.min_eq_left (Nat.le_of_lt hlt)]
  simp [batch]

theorem size_take_le (entries : List E) {m : Nat} (hmn : m ≤ n) :
    (f.batch 0 (entries.take m)).length ≤ (f.batch 0 (entries.take n)).length := by
  have hs : entries.take n = entries.take m ++ (entries.take n).drop m := by
    conv_lhs => rw [← take_append_drop m (entries.take n)]
    rw [take_take, Nat.min_eq_left hmn]
  rw [hs, f.batch_append, length_append]
  exact Nat.le_add_right _ _

theorem le_of_size_take_le {m : Nat} (hm : m ≤ entries.length)
    (hs : (f.batch 0 (entries.take m)).length ≤ (f.batch 0 (entries.take n)).length) : m ≤ n := by
  by_contra hlt
  have hn : n < entries.length := by omega
  have hmo := f.size_succ (getElem?_eq_getElem hn)
  have hle := f.size_take_le entries (show n + 1 ≤ m by omega)
  omega

theorem stop_not_mem_drop (ht : f.stop ∉ tail) {offset : Nat}
    (ho : (f.batch 0 entries).length ≤ offset) :
    f.stop ∉ (f.batch 0 entries ++ tail).drop offset := by
  rw [drop_append, drop_of_length_le ho, nil_append]
  exact fun hm => ht (mem_of_mem_drop hm)

variable [DecidableEq α]

/-- The text before the first end of a line. -/
def firstLine : List α → Option (List α)
  | [] => none
  | a :: rest => if a = f.stop then some [] else (firstLine rest).map (a :: ·)

theorem firstLine_append (ht : f.stop ∉ text) (rest : List α) :
    f.firstLine (text ++ f.stop :: rest) = some text := by
  induction text with
  | nil => simp [firstLine]
  | cons a text ih =>
    rw [mem_cons, not_or] at ht
    simp only [cons_append, firstLine, if_neg (Ne.symm ht.1), ih ht.2, Option.map_some]

theorem firstLine_eq_none (ht : f.stop ∉ text) : f.firstLine text = none := by
  induction text with
  | nil => rfl
  | cons a text ih =>
    rw [mem_cons, not_or] at ht
    rw [firstLine, if_neg (Ne.symm ht.1), ih ht.2]
    rfl

/-- What is left of `file` after `offset`, within the first `limit` bytes. -/
def window (file : List α) (limit : Option Nat) (offset : Nat) : List α :=
  match limit with
  | none => file.drop offset
  | some limit => (file.drop offset).take (limit - offset)

/-- The next line wholly within the first `limit` bytes: its entry and text. -/
def nextLine (file : List α) (limit : Option Nat) (r : Reader) : Option (E × List α) × Reader :=
  if r.stopped then
    (none, r)
  else
    match f.firstLine (window file limit r.offset) with
    | none => (none, r)
    | some text =>
      match f.parse text with
      | none => (none, { r with stopped := true })
      | some (n, e) =>
        if n = r.next then
          (some (e, text), { r with offset := r.offset + (text.length + 1), next := r.next + 1 })
        else
          (none, { r with stopped := true })

theorem nextLine_line (he : entries[n]? = some e) (tail : List α) {limit : Option Nat}
    (hlim : ∀ l, limit = some l → (f.batch 0 (entries.take (n + 1))).length ≤ l) :
    f.nextLine (f.batch 0 entries ++ tail) limit (f.readerAt entries n)
      = (some (e, f.render n e), f.readerAt entries (n + 1)) := by
  obtain ⟨hlt, hg⟩ := List.getElem?_eq_some_iff.mp he
  have hd : (f.batch 0 entries ++ tail).drop (f.batch 0 (entries.take n)).length
      = f.render n e ++ f.stop :: (f.batch (n + 1) (entries.drop (n + 1)) ++ tail) := by
    rw [f.drop_batch (Nat.le_of_lt hlt), drop_eq_getElem_cons hlt, hg]
    simp [batch]
  have hs := f.size_succ he
  have hf : f.firstLine (window (f.batch 0 entries ++ tail) limit
      (f.batch 0 (entries.take n)).length) = some (f.render n e) := by
    cases limit with
    | none =>
      rw [window, hd]
      exact f.firstLine_append (f.stop_not_mem n e) _
    | some l =>
      have hl := hlim l rfl
      rw [window, hd, take_append]
      have ht : (f.render n e).take (l - (f.batch 0 (entries.take n)).length) = f.render n e :=
        take_of_length_le (by omega)
      obtain ⟨m, hm⟩ : ∃ m, l - (f.batch 0 (entries.take n)).length - (f.render n e).length = m + 1 :=
        ⟨l - (f.batch 0 (entries.take n)).length - (f.render n e).length - 1, by omega⟩
      rw [ht, hm, take_succ_cons]
      exact f.firstLine_append (f.stop_not_mem n e) _
  simp only [nextLine, readerAt, Bool.false_eq_true, if_false, hf, f.parse_render, if_true, hs]

theorem nextLine_end {file : List α} {limit : Option Nat} {r : Reader}
    (hw : f.stop ∉ window file limit r.offset) : f.nextLine file limit r = (none, r) := by
  unfold nextLine
  split
  · rfl
  · rw [f.firstLine_eq_none hw]

theorem nextLine_limit (file : List α) {limit : Nat} {r : Reader} (hl : limit ≤ r.offset) :
    f.nextLine file (some limit) r = (none, r) := by
  apply f.nextLine_end
  rw [window, Nat.sub_eq_zero_of_le hl, take_zero]
  exact not_mem_nil

def readLines (file : List α) : Nat → Reader → List (E × List α) × Reader
  | 0, r => ([], r)
  | fuel + 1, r =>
    match f.nextLine file none r with
    | (none, r) => ([], r)
    | (some line, r) =>
      let (lines, r) := readLines file fuel r
      (line :: lines, r)

def wholeLines (file : List α) : List (E × List α) × Reader :=
  f.readLines file (file.length + 1) .start

theorem readLines_numbered (file : List α) (fuel : Nat) (r : Reader) {i : Nat}
    (h : (f.readLines file fuel r).1[i]? = some (e, text)) :
    f.parse text = some (r.next + i, e) := by
  induction fuel generalizing r i with
  | zero => simp [readLines] at h
  | succ fuel ih =>
    rw [readLines] at h
    unfold nextLine at h
    by_cases hs : r.stopped
    · simp [hs] at h
    · rw [if_neg hs] at h
      cases hl : f.firstLine (window file none r.offset) with
      | none => simp [hl] at h
      | some body =>
        cases hp : f.parse body with
        | none => simp [hl, hp] at h
        | some entry =>
          obtain ⟨n, e'⟩ := entry
          by_cases hn : n = r.next
          · simp only [hl, hp, if_pos hn] at h
            cases i with
            | zero =>
              obtain ⟨rfl, rfl⟩ := h
              rw [hp, hn, Nat.add_zero]
            | succ =>
              rw [getElem?_cons_succ] at h
              rw [ih _ h]
              simp only [Option.some.injEq, Prod.mk.injEq, and_true]
              omega
          · simp [hl, hp, if_neg hn] at h

theorem readLines_batch (ht : f.stop ∉ tail) :
    ∀ (fuel n : Nat), n ≤ entries.length → entries.length < n + fuel →
      f.readLines (f.batch 0 entries ++ tail) fuel (f.readerAt entries n)
        = ((entries.zipIdx.drop n).map (fun entry => (entry.1, f.render entry.2 entry.1)),
            f.readerAt entries entries.length)
  | 0, n, hn, hf => absurd hf (by omega)
  | fuel + 1, n, hn, hf => by
    rw [readLines]
    by_cases hl : n = entries.length
    · subst hl
      have hw : f.stop ∉ window (f.batch 0 entries ++ tail) none
          (f.readerAt entries entries.length).offset := by
        show f.stop ∉ (f.batch 0 entries ++ tail).drop (f.batch 0 (entries.take entries.length)).length
        rw [f.drop_batch (Nat.le_refl _), drop_length]
        exact ht
      rw [f.nextLine_end hw]
      simp
    · have hlt : n < entries.length := by omega
      rw [f.nextLine_line (getElem?_eq_getElem hlt) tail (fun _ h => (by cases h))]
      have hr := readLines_batch ht fuel (n + 1) hlt (by omega)
      simp only [hr]
      have hi : n < entries.zipIdx.length := by rwa [length_zipIdx]
      rw [drop_eq_getElem_cons hi, map_cons, getElem_zipIdx, Nat.zero_add]

theorem wholeLines_batch (ht : f.stop ∉ tail) : f.wholeLines (f.batch 0 entries ++ tail)
      = (entries.zipIdx.map (fun entry => (entry.1, f.render entry.2 entry.1)),
          f.readerAt entries entries.length) := by
  have hs := f.length_le_batch 0 entries
  exact f.readLines_batch ht _ 0 (Nat.zero_le _) (by rw [length_append]; omega)

end LineFormat

end LocalAi.Lib
