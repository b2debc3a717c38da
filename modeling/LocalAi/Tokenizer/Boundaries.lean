import LocalAi.Lib.Bisect
import LocalAi.Tools.Json

/-!
# Token boundaries

A caller names places in a text by byte offsets and wants the tokens that end there.  The
tokenizer gives every token's byte span in the text; the spans of a split character coincide,
but starts and ends never move backwards.

* `tokenEndIndices`: the ending token of every endpoint, or why there is none.
* `endIndex_eq_ok`: one endpoint, against all the spans.
* `token_boundaries_exact`: what is accepted, and which tokens it names.
-/

open List

namespace LocalAi.Tokenizer

open Lib (bind_eq_ok ensure ensure_eq_ok mapM_eq_ok not_of_mem_dropWhile partitionPoint
  partitionPoint_split)

/-- `str::is_char_boundary`, within the text. -/
def isCharBoundary : (byte : Nat) → Text → Bool
  | 0, _ => true
  | _ + 1, [] => false
  | byte + 1, c :: text => c.utf8Size ≤ byte + 1 && isCharBoundary (byte + 1 - c.utf8Size) text

/-- The byte span `[start, stop)` of a token. -/
abbrev Span := Nat × Nat

/-- Starts and ends never move backwards. -/
def ordered (offsets : List Span) : Bool :=
  (offsets.all fun span => span.1 ≤ span.2) &&
    (offsets.zip offsets.tail).all fun (a, b) => a.1 ≤ b.1 && a.2 ≤ b.2

def endIndex (text : Text) (offsets : List Span) (byte : Nat) : Except Text Nat := do
  ensure (!(byte = 0 || utf8Len text < byte)) ("byte offset ".toList ++ Nat.toDigits 10 byte ++
    " is outside 1..=".toList ++ Nat.toDigits 10 (utf8Len text) ++ " (text bytes)".toList)
  ensure (isCharBoundary byte text) ("byte offset ".toList ++ Nat.toDigits 10 byte ++
    " is inside a UTF-8 character".toList)
  -- the tokens wholly before the endpoint
  let count := partitionPoint (fun span => span.2 ≤ byte) offsets
  let refused := .error ("byte offset ".toList ++ Nat.toDigits 10 byte ++
    " does not end a token".toList)
  let before := if count = 0 then none else (offsets[count - 1]?).map fun span => (count - 1, span)
  match offsets[count]? with
  | some (start, stop) =>
    if start < byte then
      .error ("byte offset ".toList ++ Nat.toDigits 10 byte ++ " is inside token ".toList ++
        Nat.toDigits 10 count ++ " (bytes ".toList ++ Nat.toDigits 10 start ++ "..".toList ++
        Nat.toDigits 10 stop ++ "); it is not a token boundary".toList)
    else
      match before with
      | some (index, _, stop) => if stop = byte then .ok index else refused
      | none => refused
  | none =>
    match before with
    | some (index, _, stop) => if stop = byte then .ok index else refused
    | none => refused

def tokenEndIndices (text : Text) (offsets : List Span) (byteEnds : List Nat) :
    Except Text (List Nat) := do
  match (byteEnds.zip byteEnds.tail).find? fun (before, after) => after ≤ before with
  | some (before, after) =>
    .error ("token_end_offsets must be strictly increasing: ".toList ++ Nat.toDigits 10 before ++
      " then ".toList ++ Nat.toDigits 10 after)
  | none =>
    ensure (ordered offsets && !(offsets.getLast?.any fun span => utf8Len text < span.2))
      "tokenizer returned non-monotonic byte offsets".toList
    byteEnds.mapM (endIndex text offsets)

/-! ### Monotone spans -/

structure Monotone (text : Text) (offsets : List Span) : Prop where
  start_le : ∀ span ∈ offsets, span.1 ≤ span.2
  sorted : offsets.Pairwise fun a b => a.1 ≤ b.1 ∧ a.2 ≤ b.2
  inside : ∀ span ∈ offsets, span.2 ≤ utf8Len text

/-- Neighbours that are all related, by a transitive relation, are pairwise related. -/
theorem pairwise_of_neighbours {α : Type} {r : α → α → Prop} (ht : ∀ a b c, r a b → r b c → r a c)
    (xs : List α) : (∀ pair ∈ xs.zip xs.tail, r pair.1 pair.2) ↔ xs.Pairwise r := by
  induction xs with
  | nil => simp
  | cons x xs ih =>
    cases xs with
    | nil => simp
    | cons y =>
      rw [tail_cons] at ih ⊢
      rw [zip_cons_cons, forall_mem_cons, pairwise_cons]
      constructor
      · rintro ⟨hxy, hr⟩
        have hys := ih.mp hr
        refine ⟨?_, hys⟩
        intro z hz
        rcases mem_cons.mp hz with rfl | hz
        · exact hxy
        · exact ht _ _ _ hxy (rel_of_pairwise_cons hys hz)
      · rintro ⟨hx, hys⟩
        exact ⟨hx y mem_cons_self, ih.mpr hys⟩

variable {offsets : List Span}

variable {text : Text}

theorem monotone_iff :
    (ordered offsets && !(offsets.getLast?.any fun span => utf8Len text < span.2)) = true ↔
      Monotone text offsets := by
  have hp := pairwise_of_neighbours (r := fun a b : Span => a.1 ≤ b.1 ∧ a.2 ≤ b.2)
    (fun a b c hab hbc => ⟨hab.1.trans hbc.1, hab.2.trans hbc.2⟩) offsets
  have ho : ordered offsets = true ↔ (∀ span ∈ offsets, span.1 ≤ span.2) ∧
      offsets.Pairwise fun a b => a.1 ≤ b.1 ∧ a.2 ≤ b.2 := by
    rw [← hp]
    simp [ordered]
  rw [Bool.and_eq_true, ho, Bool.not_eq_true']
  constructor
  · rintro ⟨⟨hst, hso⟩, hla⟩
    refine ⟨hst, hso, fun span hs => ?_⟩
    cases hl : offsets.getLast? with
    | none =>
      rw [getLast?_eq_none_iff.mp hl] at hs
      simp at hs
    | some last =>
      have he : last.2 ≤ utf8Len text := by simpa [hl] using hla
      obtain ⟨front, rfl⟩ := getLast?_eq_some_iff.mp hl
      rcases mem_append.mp hs with hf | hs
      · exact ((pairwise_append.mp hso).2.2 span hf last (by simp)).2.trans he
      · rwa [mem_singleton.mp hs]
  · rintro ⟨hst, hso, hi⟩
    refine ⟨⟨hst, hso⟩, ?_⟩
    cases hl : offsets.getLast? with
    | none => rfl
    | some last => simpa using hi last (mem_of_getLast? hl)

theorem increasing_iff {byteEnds : List Nat} :
    (byteEnds.zip byteEnds.tail).find? (fun (before, after) => decide (after ≤ before)) = none ↔
      byteEnds.Pairwise (· < ·) := by
  rw [← pairwise_of_neighbours (r := (· < ·)) (fun _ _ _ => Nat.lt_trans) byteEnds, find?_eq_none]
  simp

/-! ### One endpoint -/

/-- Some token ends at `byte` and none goes on across it. -/
structure EndsTokens (offsets : List Span) (byte : Nat) : Prop where
  clear : ∀ span ∈ offsets, ¬ (span.1 < byte ∧ byte < span.2)
  ends : ∃ span ∈ offsets, span.2 = byte

/-- An endpoint that is a place of the text and a token boundary. -/
structure Boundary (text : Text) (offsets : List Span) (byte : Nat) : Prop where
  inside : 1 ≤ byte ∧ byte ≤ utf8Len text
  char : isCharBoundary byte text = true
  ends : EndsTokens offsets byte

def LastEnding (offsets : List Span) (byte index : Nat) : Prop :=
  (offsets[index]?).map Prod.snd = some byte ∧
    ∀ j, index < j → (offsets[j]?).map Prod.snd ≠ some byte

section Split

variable {text : Text} {front back : List Span} {byte : Nat}

/-- Tokens that end by `byte`, and tokens that end after it. -/
structure Cut (byte : Nat) (front back : List Span) : Prop where
  front_le : ∀ span ∈ front, span.2 ≤ byte
  lt_back : ∀ span ∈ back, byte < span.2

theorem Monotone.exists_cut {offsets : List Span} (h : Monotone text offsets) (byte : Nat) :
    ∃ front back, offsets = front ++ back ∧ Cut byte front back := by
  refine ⟨offsets.takeWhile fun span => span.2 ≤ byte, offsets.dropWhile fun span => span.2 ≤ byte,
    takeWhile_append_dropWhile.symm, fun span hs => ?_, fun span hs => ?_⟩
  · simpa using mem_takeWhile_imp hs
  · have hso : offsets.Pairwise fun a b =>
        decide (b.2 ≤ byte) = true → decide (a.2 ≤ byte) = true :=
      h.sorted.imp fun hab hb => by
        have := of_decide_eq_true hb
        exact decide_eq_true (hab.2.trans this)
    simpa using not_of_mem_dropWhile hso hs

theorem Cut.clear_iff (hcut : Cut byte front back) (h : Monotone text (front ++ back)) :
    (∀ span ∈ front ++ back, ¬ (span.1 < byte ∧ byte < span.2)) ↔
      ∀ next ∈ back.head?, byte ≤ next.1 := by
  constructor
  · intro hc next hn
    have hm : next ∈ back := mem_of_mem_head? hn
    by_contra hlt
    exact hc next (mem_append_right _ hm) ⟨by omega, hcut.lt_back next hm⟩
  · intro hn span hsp ⟨hstart, hstop⟩
    rcases mem_append.mp hsp with hf | hb
    · exact absurd (hcut.front_le span hf) (by omega)
    · cases back with
      | nil => simp at hb
      | cons first =>
        have hfst := hn first (by simp)
        have hs := (pairwise_append.mp h.sorted).2.1
        rcases mem_cons.mp hb with rfl | hr
        · omega
        · have := (rel_of_pairwise_cons hs hr).1
          omega

theorem Cut.ends_iff (hc : Cut byte front back) (h : Monotone text (front ++ back)) :
    (∃ span ∈ front ++ back, span.2 = byte) ↔ ∃ last ∈ front.getLast?, last.2 = byte := by
  constructor
  · rintro ⟨span, hsp, hs⟩
    rcases mem_append.mp hsp with hf | hb
    · obtain ⟨init, last, rfl⟩ := (eq_nil_or_concat' front).resolve_left
        (ne_nil_of_mem hf)
      refine ⟨last, by simp, Nat.le_antisymm (hc.front_le last (by simp)) ?_⟩
      rcases mem_append.mp hf with hi | hl
      · have hso := (pairwise_append.mp (pairwise_append.mp h.sorted).1).2.2
        rw [← hs]
        exact (hso span hi last (by simp)).2
      · rw [← mem_singleton.mp hl, hs]
    · exact absurd (hc.lt_back span hb) (by omega)
  · rintro ⟨last, hl, hs⟩
    exact ⟨last, mem_append_left _ (mem_of_getLast? hl), hs⟩

theorem Cut.lastEnding (hc : Cut byte front back) {last : Span} (hl : last ∈ front.getLast?)
    (hst : last.2 = byte) : LastEnding (front ++ back) byte (front.length - 1) := by
  obtain ⟨init, rfl⟩ := getLast?_eq_some_iff.mp hl
  constructor
  · simp [hst]
  · intro j hj he
    simp only [length_append, length_singleton] at hj
    rw [getElem?_append_right (by simp; omega)] at he
    obtain ⟨span, hs, hs'⟩ := Option.map_eq_some_iff.mp he
    exact absurd (hc.lt_back span (mem_of_getElem? hs)) (by omega)

end Split

theorem LastEnding.unique {byte i j : Nat} (hi : LastEnding offsets byte i)
    (hj : LastEnding offsets byte j) : i = j := by
  rcases Nat.lt_trichotomy i j with h | h | h
  · exact absurd hj.1 (hi.2 j h)
  · exact h
  · exact absurd hi.1 (hj.2 i h)

theorem endIndex_eq_ok {byte index : Nat} (h : Monotone text offsets) :
    endIndex text offsets byte = .ok index ↔
      Boundary text offsets byte ∧ LastEnding offsets byte index := by
  obtain ⟨front, back, rfl, hc⟩ := h.exists_cut byte
  have hcnt : partitionPoint (fun span : Span => decide (span.2 ≤ byte)) (front ++ back) =
      front.length :=
    partitionPoint_split (fun span hsp => by simpa using hc.front_le span hsp)
      fun span hsp => by simpa using hc.lt_back span hsp
  have hn : (front ++ back)[front.length]? = back.head? := by
    rw [getElem?_append_right le_rfl, Nat.sub_self, head?_eq_getElem?]
  have hb : (if front.length = 0 then none
      else ((front ++ back)[front.length - 1]?).map fun span => (front.length - 1, span)) =
      front.getLast?.map fun span => (front.length - 1, span) := by
    cases front with
    | nil => rfl
    | cons =>
      rw [if_neg (by simp), getElem?_append_left (by simp), getLast?_eq_getElem?]
  -- the two matches of the source as one condition on the neighbours
  have hm : endIndex text (front ++ back) byte = .ok index ↔
      (1 ≤ byte ∧ byte ≤ utf8Len text) ∧ isCharBoundary byte text = true ∧
        (∀ next ∈ back.head?, byte ≤ next.1) ∧
          (∃ last ∈ front.getLast?, last.2 = byte) ∧ front.length - 1 = index := by
    rw [endIndex, bind_eq_ok]
    simp only [bind_eq_ok, ensure_eq_ok, exists_const, hcnt, hn, hb]
    refine and_congr (by simp; omega) (and_congr Iff.rfl ?_)
    cases hl : front.getLast? <;> cases hh : back.head? <;>
      simp only [Option.map_none, Option.map_some]
    case none.none => simp
    case none.some next => split <;> simp
    case some.none last => split <;> simp [*]
    case some.some last next =>
      by_cases hin : next.1 < byte
      · simp [hin, Nat.not_le.mpr hin]
      · by_cases hs : last.2 = byte <;> simp [hin, hs, Nat.not_lt.mp hin]
  rw [hm]
  constructor
  · rintro ⟨hi, hch, hcl, ⟨last, hl, hs⟩, rfl⟩
    exact ⟨⟨hi, hch, (hc.clear_iff h).mpr hcl, (hc.ends_iff h).mpr ⟨last, hl, hs⟩⟩,
      hc.lastEnding hl hs⟩
  · rintro ⟨⟨hi, hch, he⟩, hidx⟩
    obtain ⟨last, hl, hs⟩ := (hc.ends_iff h).mp he.ends
    exact ⟨hi, hch, (hc.clear_iff h).mp he.clear, ⟨last, hl, hs⟩, (hc.lastEnding hl hs).unique hidx⟩

theorem Boundary.exists_lastEnding {byte : Nat} (h : Monotone text offsets)
    (hb : Boundary text offsets byte) : ∃ index, LastEnding offsets byte index := by
  obtain ⟨front, back, rfl, hc⟩ := h.exists_cut byte
  obtain ⟨last, hl, hs⟩ := (hc.ends_iff h).mp hb.ends.ends
  exact ⟨_, hc.lastEnding hl hs⟩

/-! ### All the endpoints -/

theorem tokenEndIndices_eq_ok {byteEnds indices : List Nat} :
    tokenEndIndices text offsets byteEnds = .ok indices ↔
      byteEnds.Pairwise (· < ·) ∧ Monotone text offsets ∧
        List.Forall₂ (fun byte index => Boundary text offsets byte ∧ LastEnding offsets byte index)
          byteEnds indices := by
  rw [tokenEndIndices]
  split
  · next before after hf =>
    have hn : ¬ byteEnds.Pairwise (· < ·) := by
      rw [← increasing_iff, hf]
      simp
    simp [hn]
  · next hf =>
    simp only [bind_eq_ok, ensure_eq_ok, exists_const, monotone_iff, mapM_eq_ok,
      increasing_iff.mp hf, true_and]
    refine and_congr_right fun h => ?_
    simp only [endIndex_eq_ok h]

theorem Monotone.lt_of_ends (h : Monotone text offsets) {a b i j : Nat} (hab : a < b)
    (hi : LastEnding offsets a i) (hj : LastEnding offsets b j) : i < j := by
  obtain ⟨x, hx, rfl⟩ := Option.map_eq_some_iff.mp hi.1
  obtain ⟨y, hy, rfl⟩ := Option.map_eq_some_iff.mp hj.1
  obtain ⟨hil, rfl⟩ := List.getElem?_eq_some_iff.mp hx
  obtain ⟨hjl, rfl⟩ := List.getElem?_eq_some_iff.mp hy
  rcases Nat.lt_trichotomy i j with hlt | rfl | hgt
  · exact hlt
  · omega
  · have := (pairwise_iff_getElem.mp h.sorted j i hjl hil hgt).2
    omega

theorem Monotone.increasing (h : Monotone text offsets) {byteEnds indices : List Nat}
    (hb : byteEnds.Pairwise (· < ·))
    (he : List.Forall₂ (LastEnding offsets) byteEnds indices) : indices.Pairwise (· < ·) := by
  induction he with
  | nil => exact .nil
  | @cons byte index byteEnds indices hf hr ih =>
    obtain ⟨hby, hb⟩ := pairwise_cons.mp hb
    refine pairwise_cons.mpr ⟨fun j hj => ?_, ih hb⟩
    obtain ⟨i, hi, rfl⟩ := getElem_of_mem hj
    have hl := hr.length_eq
    exact h.lt_of_ends (hby _ (getElem_mem (by omega))) hf (hr.get (by omega) hi)

/-- **Token-boundary resolution is exact.** -/
theorem token_boundaries_exact (text : Text) (offsets : List Span) (byteEnds : List Nat)
    (h : Monotone text offsets) :
    ((∃ indices, tokenEndIndices text offsets byteEnds = .ok indices) ↔
      byteEnds.Pairwise (· < ·) ∧ ∀ byte ∈ byteEnds,
        (1 ≤ byte ∧ byte ≤ utf8Len text) ∧ isCharBoundary byte text = true ∧
          (∀ span ∈ offsets, ¬ (span.1 < byte ∧ byte < span.2)) ∧ ∃ span ∈ offsets, span.2 = byte) ∧
    ∀ indices, tokenEndIndices text offsets byteEnds = .ok indices →
      List.Forall₂ (fun byte index => (offsets[index]?).map Prod.snd = some byte ∧
        ∀ j, index < j → (offsets[j]?).map Prod.snd ≠ some byte) byteEnds indices ∧
      indices.Pairwise (· < ·) := by
  have hbd : ∀ byte, Boundary text offsets byte ↔
      (1 ≤ byte ∧ byte ≤ utf8Len text) ∧ isCharBoundary byte text = true ∧
        (∀ span ∈ offsets, ¬ (span.1 < byte ∧ byte < span.2)) ∧ ∃ span ∈ offsets, span.2 = byte :=
    fun byte => ⟨fun hb => ⟨hb.inside, hb.char, hb.ends.clear, hb.ends.ends⟩,
      fun ⟨hins, hch, hc, he⟩ => ⟨hins, hch, hc, he⟩⟩
  simp only [← hbd, tokenEndIndices_eq_ok]
  refine ⟨⟨?_, ?_⟩, ?_⟩
  · rintro ⟨indices, hbytes, -, ha⟩
    refine ⟨hbytes, fun byte hbyte => ?_⟩
    obtain ⟨i, hi, rfl⟩ := getElem_of_mem hbyte
    exact (ha.get hi (ha.length_eq ▸ hi)).1
  · rintro ⟨hbytes, ha⟩
    obtain ⟨indices, hidxs⟩ : ∃ indices, List.Forall₂
        (fun byte index => Boundary text offsets byte ∧ LastEnding offsets byte index)
        byteEnds indices := by
      clear hbytes
      induction byteEnds with
      | nil => exact ⟨[], .nil⟩
      | cons byte byteEnds ih =>
        have hb := ha byte mem_cons_self
        obtain ⟨index, hidx⟩ := hb.exists_lastEnding h
        obtain ⟨indices, hr⟩ := ih fun b hm => ha b (mem_cons_of_mem _ hm)
        exact ⟨index :: indices, .cons ⟨hb, hidx⟩ hr⟩
    exact ⟨indices, hbytes, h, hidxs⟩
  · rintro indices ⟨hbytes, -, ha⟩
    have he : List.Forall₂ (LastEnding offsets) byteEnds indices := ha.imp fun _ _ hb => hb.2
    exact ⟨he, h.increasing hbytes he⟩

/-- The two tokens of a split character: its endpoint is the second. -/
theorem split_character_boundaries : Monotone "aé".toList [(0, 1), (1, 3), (1, 3)] ∧
      List.Forall₂ (fun byte index => ([(0, 1), (1, 3), (1, 3)][index]?).map Prod.snd = some byte ∧
        ∀ j, index < j → ([(0, 1), (1, 3), (1, 3)][j]?).map Prod.snd ≠ some byte)
          [1, 3] [0, 2] := by
  have h : Monotone "aé".toList [(0, 1), (1, 3), (1, 3)] := monotone_iff.mp (by decide +kernel)
  exact ⟨h, ((token_boundaries_exact _ _ [1, 3] h).2 [0, 2] (by decide +kernel)).1⟩

end LocalAi.Tokenizer
