import LocalAi.Lib.Except
import LocalAi.Lib.Layout
import LocalAi.Tools.Json

/-!
# The chunks of a text

A file is indexed in windows of whole words.  How many there are is known from a formula, and the
windows themselves come from a loop that stops when one reaches the last word.

* `wordRanges`, `chunk`: the program's scan for words and its windows.
* `IsWord`: a word of a text, between whitespace.
* `mem_wordRanges`, `wordRanges_sorted`: the scan finds the words, in order.
* `windows_eq`: the loop makes as many windows as the formula says.
* `Covers`: what the windows are to the words.
* `chunk_covers`: a text is refused, or its windows cover it.
-/

open List

namespace LocalAi.VectorStores

open LocalAi.Lib

def minChunkTokens : Nat := 100

def maxChunkTokens : Nat := 4096

def maxFileChunks : Nat := 50000

def autoMaxChunkTokens : Nat := 800

def autoChunkOverlapTokens : Nat := 400

structure StaticChunking where
  maxChunkSizeTokens : Nat
  chunkOverlapTokens : Nat

inductive ChunkingStrategy
  | auto
  | static (config : StaticChunking)

def ChunkingStrategy.resolve : ChunkingStrategy → Except Text StaticChunking
  | .auto => .ok ⟨autoMaxChunkTokens, autoChunkOverlapTokens⟩
  | .static config =>
    if ¬ (minChunkTokens ≤ config.maxChunkSizeTokens ∧
        config.maxChunkSizeTokens ≤ maxChunkTokens) then
      .error ("chunking_strategy.static.max_chunk_size_tokens must be between ".toList ++
        Nat.toDigits 10 minChunkTokens ++ " and ".toList ++ Nat.toDigits 10 maxChunkTokens)
    else if config.maxChunkSizeTokens / 2 < config.chunkOverlapTokens then
      .error ("chunking_strategy.static.chunk_overlap_tokens must not exceed half " ++
        "of max_chunk_size_tokens").toList
    else .ok config

abbrev Span := Nat × Nat

/-! ### Words -/

/-- The words that ended, and where the one at hand began. -/
structure WordScan where
  words : List Span
  start : Option Nat

def WordScan.step (s : WordScan) (index : Nat) (c : Char) : WordScan :=
  match isWhitespace c, s.start with
  | true, some first => ⟨s.words ++ [(first, index)], none⟩
  | false, none => { s with start := some index }
  | _, _ => s

/-- The loop over `char_indices`. -/
def scanWords : (index : Nat) → Text → WordScan → WordScan
  | _, [], s => s
  | index, c :: text, s => scanWords (index + c.utf8Size) text (s.step index c)

def wordRanges (text : Text) : List Span :=
  let s := scanWords 0 text ⟨[], none⟩
  match s.start with
  | some first => s.words ++ [(first, utf8Len text)]
  | none => s.words

/-! ### Windows -/

inductive ErrorCode
  | invalidFile
deriving DecidableEq

/-- How `chunk` ends without ranges. -/
inductive ChunkFault
  | refused (code : ErrorCode) (message : Text)
  | underflow
  | endless
deriving DecidableEq

def minus (a b : Nat) : Except ChunkFault Nat := if b ≤ a then .ok (a - b) else .error .underflow

def windows (words : List Span) (size step : Nat) : (fuel first : Nat) → Except ChunkFault (List Span)
  | 0, _ => .error .endless
  | fuel + 1, first => do
    let last := min (first + size) words.length
    let lastIndex ← minus last 1
    let range := match words[first]?, words[lastIndex]? with
      | some (start, _), some (_, stop) => [(start, stop)]
      | _, _ => []
    if last = words.length then pure range
    else do
      let rest ← windows words size step fuel (first + step)
      pure (range ++ rest)

/-- The byte ranges of a text's chunks. -/
def chunk (text : Text) (chunking : StaticChunking) : Except ChunkFault (List Span) :=
  let words := wordRanges text
  if words.isEmpty then .error (.refused .invalidFile "the file holds no text".toList)
  else do
    let size := chunking.maxChunkSizeTokens
    let step ← minus size chunking.chunkOverlapTokens
    let chunks := 1 + divCeil (words.length - size) step
    if maxFileChunks < chunks then
      .error (.refused .invalidFile ("the file would need ".toList ++ Nat.toDigits 10 chunks ++
        " chunks; at most ".toList ++ Nat.toDigits 10 maxFileChunks ++ " are allowed".toList))
    else windows words size step (words.length + 1) 0

/-! ### The words of a text -/

/-- A run of characters that are no whitespace, as long as it can be. -/
def IsWord (text : Text) (span : Span) : Prop :=
  ∃ front word back, text = front ++ word ++ back ∧ word ≠ [] ∧
    (∀ c ∈ word, isWhitespace c = false) ∧ (∀ c ∈ front.getLast?, isWhitespace c = true) ∧
    (∀ c ∈ back.head?, isWhitespace c = true) ∧ span = (utf8Len front, utf8Len (front ++ word))

theorem scanWords_append (index : Nat) (x y : Text) (s : WordScan) :
    scanWords index (x ++ y) s = scanWords (index + utf8Len x) y (scanWords index x s) := by
  induction x generalizing index s with
  | nil => rfl
  | cons c x ih =>
    rw [cons_append, scanWords, scanWords, ih, utf8Len_cons, Nat.add_assoc]

theorem scanWords_concat (text : Text) (c : Char) :
    scanWords 0 (text ++ [c]) ⟨[], none⟩ = (scanWords 0 text ⟨[], none⟩).step (utf8Len text) c := by
  rw [scanWords_append, Nat.zero_add]
  rfl

theorem words_scanWords (index : Nat) (text : Text) (s : WordScan) :
    s.words <+: (scanWords index text s).words := by
  induction text generalizing index s with
  | nil => exact prefix_refl _
  | cons c text ih =>
    refine List.IsPrefix.trans ?_ (ih (index + c.utf8Size) (s.step index c))
    unfold WordScan.step
    split
    · exact prefix_append _ _
    · exact prefix_refl _
    · exact prefix_refl _

variable {first : Nat} {s : WordScan} {text : Text}

theorem scanWords_word {index : Nat} {word : Text}
    (hw : ∀ c ∈ word, isWhitespace c = false) (hs : s.start = some first) :
    scanWords index word s = s := by
  induction word generalizing index with
  | nil => rfl
  | cons c word ih =>
    rw [forall_mem_cons] at hw
    have hst : s.step index c = s := by
      unfold WordScan.step
      rw [hw.1, hs]
    rw [scanWords, hst, ih hw.2]

structure Scanned (text : Text) (s : WordScan) : Prop where
  between : s.start = none → ∀ c ∈ text.getLast?, isWhitespace c = true
  inside : ∀ first, s.start = some first → ∃ front word, text = front ++ word ∧ word ≠ [] ∧
    (∀ c ∈ word, isWhitespace c = false) ∧ (∀ c ∈ front.getLast?, isWhitespace c = true) ∧
    first = utf8Len front
  ended : ∀ span ∈ s.words, ∃ front word c back, text = front ++ word ++ c :: back ∧ word ≠ [] ∧
    (∀ c ∈ word, isWhitespace c = false) ∧ (∀ c ∈ front.getLast?, isWhitespace c = true) ∧
    isWhitespace c = true ∧ span = (utf8Len front, utf8Len (front ++ word))
  sorted : s.words.Pairwise fun u v => u.2 < v.1
  before : ∀ span ∈ s.words, span.2 < utf8Len text ∧ ∀ first, s.start = some first → span.2 < first

theorem Scanned.step (h : Scanned text s) (c : Char) :
    Scanned (text ++ [c]) (s.step (utf8Len text) c) := by
  have hsi : 0 < c.utf8Size := Char.utf8Size_pos c
  have hlen : utf8Len (text ++ [c]) = utf8Len text + c.utf8Size := by simp
  have hend : ∀ span ∈ s.words, ∃ front word d back, text ++ [c] = front ++ word ++ d :: back ∧
      word ≠ [] ∧ (∀ e ∈ word, isWhitespace e = false) ∧
      (∀ e ∈ front.getLast?, isWhitespace e = true) ∧ isWhitespace d = true ∧
      span = (utf8Len front, utf8Len (front ++ word)) := by
    intro span hs
    obtain ⟨front, word, d, back, ht, hr⟩ := h.ended span hs
    exact ⟨front, word, d, back ++ [c], by rw [ht]; simp, hr⟩
  have hl : ∀ span ∈ s.words, span.2 < utf8Len (text ++ [c]) := by
    intro span hs
    have hlt := (h.before span hs).1
    omega
  unfold WordScan.step
  cases hsp : isWhitespace c with
  | true =>
    cases hst : s.start with
    | none =>
      -- more whitespace
      refine ⟨fun _ e he => ?_, fun first hf => ?_, hend, h.sorted, fun span hs => ?_⟩
      · rw [getLast?_concat] at he
        cases he
        exact hsp
      · rw [hst] at hf
        cases hf
      · exact ⟨hl span hs, fun first hf => by rw [hst] at hf; cases hf⟩
    | some first =>
      -- the word at hand ends
      obtain ⟨front, word, ht, hne, hw, hfr, hf⟩ := h.inside first hst
      refine ⟨fun _ e he => ?_, nofun, ?_, ?_, ?_⟩
      · rw [getLast?_concat] at he
        cases he
        exact hsp
      · rw [forall_mem_append]
        refine ⟨hend, ?_⟩
        rw [forall_mem_singleton]
        exact ⟨front, word, c, [], by rw [ht], hne, hw, hfr, hsp, by rw [hf, ← ht]⟩
      · refine pairwise_append.mpr ⟨h.sorted, pairwise_singleton _ _, ?_⟩
        intro u hu v hv
        rw [mem_singleton.mp hv]
        exact (h.before u hu).2 first hst
      · rw [forall_mem_append, forall_mem_singleton]
        refine ⟨fun span hs => ⟨hl span hs, nofun⟩, ?_, nofun⟩
        omega
  | false =>
    cases hst : s.start with
    | none =>
      -- a word begins
      refine ⟨nofun, fun first hf => ?_, hend, h.sorted,
        fun span hs => ⟨hl span hs, fun first hf => ?_⟩⟩
      · cases hf
        refine ⟨text, [c], rfl, cons_ne_nil _ _, ?_, h.between hst, rfl⟩
        rw [forall_mem_singleton]
        exact hsp
      · cases hf
        exact (h.before span hs).1
    | some =>
      -- the word goes on
      refine ⟨fun hn => ?_, fun first' hf => ?_, hend, h.sorted, fun span hs => ?_⟩
      · rw [hst] at hn
        cases hn
      · obtain ⟨front, word, ht, hne, hw, hr⟩ := h.inside first' hf
        refine ⟨front, word ++ [c], by rw [ht, append_assoc], by simp, ?_, hr⟩
        rw [forall_mem_append, forall_mem_singleton]
        exact ⟨hw, hsp⟩
      · exact ⟨hl span hs, (h.before span hs).2⟩

theorem scanned (text : Text) : Scanned text (scanWords 0 text ⟨[], none⟩) := by
  induction text using reverseRecOn with
  | nil =>
    refine ⟨nofun, nofun, fun span hs => ?_, List.Pairwise.nil, fun span hs => ?_⟩
    · cases hs
    · cases hs
  | append_singleton text c ih =>
    rw [scanWords_concat]
    exact ih.step c

theorem wordRanges_sorted (text : Text) : (wordRanges text).Pairwise fun u v => u.2 < v.1 := by
  have h := scanned text
  unfold wordRanges
  dsimp only
  cases hs : (scanWords 0 text ⟨[], none⟩).start with
  | none => exact h.sorted
  | some first =>
    refine pairwise_append.mpr ⟨h.sorted, pairwise_singleton _ _, ?_⟩
    intro u hu v hv
    rw [mem_singleton.mp hv]
    exact (h.before u hu).2 first hs

theorem Scanned.start_none (h : Scanned text s)
    (hl : ∀ c ∈ text.getLast?, isWhitespace c = true) : s.start = none := by
  cases hst : s.start with
  | none => rfl
  | some first =>
    obtain ⟨front, word, rfl, hne, hw, -⟩ := h.inside first hst
    obtain ⟨c, hc⟩ := Option.isSome_iff_exists.mp (getLast?_isSome.mpr hne)
    have hs := hl c (by rw [getLast?_append, hc]; rfl)
    rw [hw c (mem_of_getLast? hc)] at hs
    cases hs

theorem mem_wordRanges {span : Span} : span ∈ wordRanges text ↔ IsWord text span := by
  have h := scanned text
  constructor
  · intro hs
    unfold wordRanges at hs
    dsimp only at hs
    have he : span ∈ (scanWords 0 text ⟨[], none⟩).words → IsWord text span := by
      intro hm
      obtain ⟨front, word, c, back, ht, hne, hw, hf, hsp, heq⟩ := h.ended span hm
      refine ⟨front, word, c :: back, ht, hne, hw, hf, fun d hd => ?_, heq⟩
      cases hd
      exact hsp
    cases hstart : (scanWords 0 text ⟨[], none⟩).start with
    | none =>
      rw [hstart] at hs
      exact he hs
    | some first =>
      rw [hstart] at hs
      rcases mem_append.mp hs with hm | hm
      · exact he hm
      · obtain ⟨front, word, ht, hne, hw, hf, hfst⟩ := h.inside first hstart
        refine ⟨front, word, [], by rw [ht, append_nil], hne, hw, hf, nofun, ?_⟩
        rw [mem_singleton.mp hm, hfst, ← ht]
  · rintro ⟨front, word, back, ht, hne, hw, hf, hb, rfl⟩
    obtain ⟨c, word, rfl⟩ := exists_cons_of_ne_nil hne
    rw [forall_mem_cons] at hw
    have hn := (scanned front).start_none hf
    have hi : (scanWords 0 (front ++ c :: word) ⟨[], none⟩) =
        { (scanWords 0 front ⟨[], none⟩) with start := some (utf8Len front) } := by
      rw [scanWords_append, Nat.zero_add, scanWords]
      have hstep : (scanWords 0 front ⟨[], none⟩).step (utf8Len front) c =
          { (scanWords 0 front ⟨[], none⟩) with start := some (utf8Len front) } := by
        unfold WordScan.step
        rw [hw.1, hn]
      rw [hstep]
      exact scanWords_word hw.2 rfl
    unfold wordRanges
    dsimp only
    cases back with
    | nil =>
      rw [ht, append_nil, hi]
      exact mem_append_right _ (mem_singleton_self _)
    | cons d back =>
      have hsp : isWhitespace d = true := hb d rfl
      have hm : (utf8Len front, utf8Len (front ++ c :: word)) ∈
          (scanWords 0 text ⟨[], none⟩).words := by
        rw [ht, scanWords_append, hi, scanWords]
        refine (words_scanWords _ back _).subset ?_
        unfold WordScan.step
        rw [hsp, Nat.zero_add]
        exact mem_append_right _ (mem_singleton_self _)
      cases (scanWords 0 text ⟨[], none⟩).start with
      | none => exact hm
      | some => exact mem_append_left _ hm

/-! ### The windows of the loop -/

def windowAt (words : List Span) (size first : Nat) : Span :=
  ((words.getD first (0, 0)).1, (words.getD (min (first + size) words.length - 1) (0, 0)).2)

section Windows

variable {words : List Span} {size step : Nat}

theorem windows_eq (hs : 0 < step) (hle : step ≤ size) {fuel : Nat}
    (hfst : first < words.length) (hfu : words.length - first ≤ fuel) :
    windows words size step fuel first =
      .ok ((range (1 + divCeil (words.length - (first + size)) step)).map fun i =>
        windowAt words size (first + i * step)) := by
  induction fuel generalizing first with
  | zero => omega
  | succ fuel ih =>
    have hl : min (first + size) words.length - 1 < words.length := by omega
    have hm : minus (min (first + size) words.length) 1 =
        .ok (min (first + size) words.length - 1) := by
      unfold minus
      rw [if_pos (by omega)]
    have hrng : (match words[first]?, words[min (first + size) words.length - 1]? with
        | some (start, _), some (_, stop) => [(start, stop)]
        | _, _ => []) = [windowAt words size first] := by
      unfold windowAt
      rw [getD_eq_getElem?_getD, getD_eq_getElem?_getD, getElem?_eq_getElem hfst,
        getElem?_eq_getElem hl]
      rfl
    rw [windows]
    refine bind_eq_ok.mpr ⟨_, hm, ?_⟩
    rw [hrng]
    by_cases he : words.length ≤ first + size
    · have hz : divCeil (words.length - (first + size)) step = 0 := by
        rw [divCeil_eq_zero hs]
        omega
      rw [if_pos (Nat.min_eq_right he), hz]
      show Except.ok [windowAt words size first] = Except.ok [windowAt words size (first + 0 * step)]
      rw [Nat.zero_mul, Nat.add_zero]
    · have hr := @ih (first + step) (by omega) (by omega)
      have hmo : divCeil (words.length - (first + size)) step =
          1 + divCeil (words.length - (first + step + size)) step := by
        by_cases ho : words.length - (first + size) ≤ step
        · have hz : words.length - (first + step + size) = 0 := by omega
          have hc : divCeil (words.length - (first + size)) step = 1 := by
            exact Nat.div_eq_of_lt_le (by omega) (by omega)
          rw [hz, hc, (divCeil_eq_zero hs).mpr rfl]
        · rw [← divCeil_sub hs (by omega)]
          have hsa : words.length - (first + size) - step =
              words.length - (first + step + size) := by omega
          rw [hsa]
          omega
      rw [if_neg (by omega)]
      refine bind_eq_ok.mpr ⟨_, hr, ?_⟩
      rw [hmo, Nat.add_comm 1 (1 + _), range_succ_eq_map, map_cons, map_map]
      rw [singleton_append, Nat.zero_mul, Nat.add_zero]
      congr 2
      refine map_congr_left fun i _ => ?_
      rw [Function.comp_apply, Nat.succ_mul]
      congr 1
      omega

/-! ### What the windows cover -/

def within (range word : Span) : Bool := decide (range.1 ≤ word.1) && decide (word.2 ≤ range.2)

structure Covers (text : Text) (words ranges : List Span) (size overlap : Nat) : Prop where
  count : ranges.length = 1 + divCeil (words.length - size) (size - overlap)
  /-- A range starts where a word starts and ends where one ends, on character boundaries. -/
  bounds : ∀ range ∈ ranges, (∃ word ∈ words, word.1 = range.1) ∧
    (∃ word ∈ words, word.2 = range.2) ∧
    ∃ front middle back, text = front ++ middle ++ back ∧
      range = (utf8Len front, utf8Len (front ++ middle))
  most : ∀ range ∈ ranges, (words.filter (within range)).length ≤ size
  full : ∀ range ∈ ranges.dropLast, (words.filter (within range)).length = size
  /-- Consecutive ranges share `overlap` words. -/
  shared : ∀ i range next, ranges[i]? = some range → ranges[i + 1]? = some next →
    (words.filter fun word => within range word && within next word).length = overlap
  covered : ∀ word ∈ words, ∃ range ∈ ranges, within range word = true
  last : ranges.getLast?.map Prod.snd = words.getLast?.map Prod.snd

variable {i k : Nat} {u v : Span}

theorem filter_interval {α : Type} {p : α → Bool} {xs : List α} {j : Nat}
    (h : ∀ k x, xs[k]? = some x → (p x = true ↔ i ≤ k ∧ k < j)) :
    xs.filter p = (xs.take j).drop i := by
  induction xs generalizing i j with
  | nil => simp
  | cons x xs ih =>
    have hx := h 0 x rfl
    have hxs : ∀ k y, xs[k]? = some y → (p y = true ↔ i - 1 ≤ k ∧ k < j - 1) := by
      intro k y hy
      rw [h (k + 1) y hy]
      omega
    by_cases hk : i ≤ 0 ∧ 0 < j
    · obtain ⟨j, rfl⟩ : ∃ n, j = n + 1 := ⟨j - 1, by omega⟩
      have hi : i = 0 := by omega
      subst hi
      rw [filter_cons_of_pos (hx.mpr hk), ih hxs]
      rfl
    · rw [filter_cons_of_neg (fun hp => hk (hx.mp hp)), ih hxs]
      cases i with
      | zero =>
        have hj : j = 0 := by omega
        subst hj
        rfl
      | succ =>
        cases j with
        | zero => simp
        | succ => rfl

structure Apart (words : List Span) : Prop where
  spans : ∀ word ∈ words, word.1 < word.2
  sorted : words.Pairwise fun u v => u.2 < v.1

theorem apart_wordRanges (text : Text) : Apart (wordRanges text) := by
  refine ⟨fun word hw => ?_, wordRanges_sorted text⟩
  obtain ⟨front, run, back, -, hne, -, -, -, rfl⟩ := mem_wordRanges.mp hw
  obtain ⟨c, run, rfl⟩ := exists_cons_of_ne_nil hne
  have hs : 0 < c.utf8Size := Char.utf8Size_pos c
  rw [utf8Len_append, utf8Len_cons]
  omega

theorem Apart.lt (h : Apart words) (hu : words[i]? = some u)
    (hv : words[k]? = some v) (hik : i < k) : u.2 < v.1 := by
  obtain ⟨hi, rfl⟩ := List.getElem?_eq_some_iff.mp hu
  obtain ⟨hk, rfl⟩ := List.getElem?_eq_some_iff.mp hv
  exact pairwise_iff_getElem.mp h.sorted i k hi hk hik

/-- Where two of the words stand says where they are in the list. -/
theorem Apart.cases (h : Apart words) (hu : words[i]? = some u) (hv : words[k]? = some v) :
    u.1 < u.2 ∧ v.1 < v.2 ∧ (i < k ∧ u.2 < v.1 ∨ i = k ∧ u = v ∨ k < i ∧ v.2 < u.1) := by
  refine ⟨h.spans u (mem_of_getElem? hu), h.spans v (mem_of_getElem? hv), ?_⟩
  rcases Nat.lt_trichotomy i k with hik | rfl | hki
  · exact .inl ⟨hik, h.lt hu hv hik⟩
  · exact .inr (.inl ⟨rfl, Option.some.inj (hu.symm.trans hv)⟩)
  · exact .inr (.inr ⟨hki, h.lt hv hu hki⟩)

theorem Apart.start_le (h : Apart words) (hu : words[i]? = some u) (hv : words[k]? = some v) :
    u.1 ≤ v.1 ↔ i ≤ k := by
  obtain ⟨hs, hs', ⟨hik, hlt⟩ | ⟨rfl, rfl⟩ | ⟨hki, hlt⟩⟩ := h.cases hu hv <;> omega

theorem Apart.stop_le (h : Apart words) (hu : words[i]? = some u) (hv : words[k]? = some v) :
    v.2 ≤ u.2 ↔ k ≤ i := by
  obtain ⟨hs, hs', ⟨hik, hlt⟩ | ⟨rfl, rfl⟩ | ⟨hki, hlt⟩⟩ := h.cases hu hv <;> omega

theorem Apart.length_filter (h : Apart words) (hu : words[i]? = some u)
    (hv : words[k]? = some v) : (words.filter fun word =>
      decide (u.1 ≤ word.1) && decide (word.2 ≤ v.2)).length = k + 1 - i := by
  have hk := (List.getElem?_eq_some_iff.mp hv).1
  rw [filter_interval (i := i) (j := k + 1) fun l word hw => ?_, length_drop,
    length_take, Nat.min_eq_left hk]
  rw [Bool.and_eq_true, decide_eq_true_eq, decide_eq_true_eq, h.start_le hu hw, h.stop_le hv hw]
  omega

theorem windowAt_eq (size : Nat) (hf : first < words.length) :
    ∃ u v, words[first]? = some u ∧ words[min (first + size) words.length - 1]? = some v ∧
      windowAt words size first = (u.1, v.2) := by
  have hl : min (first + size) words.length - 1 < words.length := by omega
  refine ⟨_, _, getElem?_eq_getElem hf, getElem?_eq_getElem hl, ?_⟩
  unfold windowAt
  rw [getD_eq_getElem?_getD, getD_eq_getElem?_getD, getElem?_eq_getElem hf, getElem?_eq_getElem hl]
  rfl

theorem Apart.length_within (h : Apart words) (hf : first < words.length)
    (hs : 0 < size) : (words.filter (within (windowAt words size first))).length =
      min (first + size) words.length - first := by
  obtain ⟨u, v, hu, hv, hw⟩ := windowAt_eq size hf
  rw [hw]
  have hc := h.length_filter hu hv
  unfold within
  rw [hc]
  omega

theorem windowAt_within {word : Span} (h : Apart words)
    (hf : first < words.length) (hw : words[k]? = some word) :
    within (windowAt words size first) word = true ↔
      first ≤ k ∧ k ≤ min (first + size) words.length - 1 := by
  obtain ⟨u, v, hu, hv, hwin⟩ := windowAt_eq size hf
  rw [hwin]
  unfold within
  rw [Bool.and_eq_true, decide_eq_true_eq, decide_eq_true_eq, h.start_le hu hw, h.stop_le hv hw]

theorem between_words (hu : IsWord text u) (hv : IsWord text v)
    (hlt : u.1 < v.2) : ∃ front middle back, text = front ++ middle ++ back ∧
      (u.1, v.2) = (utf8Len front, utf8Len (front ++ middle)) := by
  obtain ⟨front, word, back, ht, -, -, -, -, rfl⟩ := hu
  obtain ⟨front', word', back', ht', -, -, -, -, rfl⟩ := hv
  have hp : front <+: text := ⟨word ++ back, by rw [ht, append_assoc]⟩
  have hp' : front' ++ word' <+: text := ⟨back', ht'.symm⟩
  rcases prefix_or_prefix_of_prefix hp hp' with ⟨middle, hm⟩ | ⟨rest, hr⟩
  · exact ⟨front, middle, back', by rw [hm, ht'], by rw [hm]⟩
  · rw [← hr, utf8Len_append] at hlt
    omega

theorem covers_windows {overlap : Nat} (hm : ∀ span ∈ words, IsWord text span)
    (h : Apart words) (hne : words ≠ []) (hs : 0 < size) (ho : overlap ≤ size / 2) :
    Covers text words ((List.range (1 + divCeil (words.length - size) (size - overlap))).map
      fun i => windowAt words size (i * (size - overlap))) size overlap := by
  obtain ⟨step, hstepDef⟩ : ∃ step, step = size - overlap := ⟨_, rfl⟩
  rw [← hstepDef]
  have hpos : 0 < words.length := length_pos_iff.mpr hne
  have hstep : 0 < step := by omega
  -- the last word of a window that is not the last one is not the last word
  have hinner : ∀ i, i < divCeil (words.length - size) step → i * step + size < words.length := by
    intro i hi
    have hlt := lt_of_lt_divCeil hi
    omega
  have hf : ∀ i, i < 1 + divCeil (words.length - size) step → i * step < words.length := by
    intro i hi
    by_cases hz : i = 0
    · subst hz
      omega
    · have hlt := hinner (i - 1) (by omega)
      have hpr : i * step = (i - 1) * step + step := by
        obtain ⟨j, rfl⟩ : ∃ j, i = j + 1 := ⟨i - 1, by omega⟩
        rw [Nat.add_sub_cancel, Nat.succ_mul]
      omega
  have hend : words.length ≤ divCeil (words.length - size) step * step + size := by
    have hle := le_nextMultiple (words.length - size) hstep
    unfold nextMultiple at hle
    omega
  have hg : ∀ {i range}, ((List.range (1 + divCeil (words.length - size) step)).map fun i =>
      windowAt words size (i * step))[i]? = some range →
      i < 1 + divCeil (words.length - size) step ∧ range = windowAt words size (i * step) := by
    intro i range hr
    rw [getElem?_map] at hr
    obtain ⟨j, hj, rfl⟩ := Option.map_eq_some_iff.mp hr
    obtain ⟨hlt, heq⟩ := List.getElem?_eq_some_iff.mp hj
    rw [getElem_range] at heq
    rw [length_range] at hlt
    exact ⟨hlt, by rw [heq]⟩
  have hra : ∀ range ∈ (List.range (1 + divCeil (words.length - size) step)).map fun i =>
      windowAt words size (i * step), ∃ i, i < 1 + divCeil (words.length - size) step ∧
        range = windowAt words size (i * step) := by
    intro range hr
    obtain ⟨i, hi⟩ := mem_iff_getElem?.mp hr
    exact ⟨i, hg hi⟩
  refine ⟨by simp [hstepDef], fun range hr => ?_, fun range hr => ?_, fun range hr => ?_,
    fun i range next hi hn => ?_, fun word hw => ?_, ?_⟩
  · -- bounds
    obtain ⟨i, hi, rfl⟩ := hra range hr
    obtain ⟨u, v, hu, hv, hwin⟩ := windowAt_eq size (hf i hi)
    rw [hwin]
    refine ⟨⟨u, mem_of_getElem? hu, rfl⟩, ⟨v, mem_of_getElem? hv, rfl⟩, ?_⟩
    have hi' := hf i hi
    have hle := (h.start_le hu hv).mpr (by omega)
    have hlt := h.spans v (mem_of_getElem? hv)
    exact between_words (hm u (mem_of_getElem? hu)) (hm v (mem_of_getElem? hv)) (by omega)
  · -- at most `size` words
    obtain ⟨i, hi, rfl⟩ := hra range hr
    rw [h.length_within (hf i hi) hs]
    omega
  · -- exactly `size` in all but the last
    rw [Nat.add_comm, range_succ, map_append, map_singleton, dropLast_concat] at hr
    obtain ⟨i, hi, rfl⟩ := mem_map.mp hr
    have hlt := hinner i (mem_range.mp hi)
    rw [h.length_within (by omega) hs]
    omega
  · -- shared words
    obtain ⟨hlt, hr⟩ := hg hi
    obtain ⟨hlt', hr'⟩ := hg hn
    subst hr hr'
    have hin := hinner i (by omega)
    have hsu : (i + 1) * step = i * step + step := Nat.succ_mul i step
    have hfi : (words.filter fun word => within (windowAt words size (i * step)) word &&
        within (windowAt words size ((i + 1) * step)) word) =
        (words.take (i * step + size)).drop ((i + 1) * step) := by
      refine filter_interval fun k word hw => ?_
      have hk := (List.getElem?_eq_some_iff.mp hw).1
      rw [Bool.and_eq_true, windowAt_within h (hf i hlt) hw, windowAt_within h (hf (i + 1) hlt') hw]
      omega
    rw [hfi, length_drop, length_take]
    omega
  · -- every word is covered
    obtain ⟨k, hk⟩ := mem_iff_getElem?.mp hw
    have hlt := (List.getElem?_eq_some_iff.mp hk).1
    have hmul : k / step * step ≤ k := Nat.div_mul_le_self k step
    have hmul' : k < k / step * step + step := Nat.lt_div_mul_add hstep
    by_cases hearly : k / step < divCeil (words.length - size) step
    · -- the window whose first `step` words hold it
      have hi := hf (k / step) (by omega)
      refine ⟨_, mem_map.mpr ⟨k / step, mem_range.mpr (by omega), rfl⟩, ?_⟩
      rw [windowAt_within h hi hk]
      omega
    · -- the last window
      have hi := hf (divCeil (words.length - size) step) (by omega)
      refine ⟨_, mem_map.mpr ⟨divCeil (words.length - size) step,
        mem_range.mpr (by omega), rfl⟩, ?_⟩
      rw [windowAt_within h hi hk]
      have hle : divCeil (words.length - size) step * step ≤ k / step * step :=
        Nat.mul_le_mul_right step (by omega)
      omega
  · -- the last range ends at the last word
    have hi := hf (divCeil (words.length - size) step) (by omega)
    obtain ⟨u, v, hu, hv, hwin⟩ := windowAt_eq size hi
    rw [Nat.add_comm 1, range_succ, map_append, map_singleton,
      getLast?_concat, hwin, getLast?_eq_getElem?]
    rw [Nat.min_eq_right hend] at hv
    rw [hv]
    rfl

end Windows

theorem resolve_sizes {strategy : ChunkingStrategy} {chunking : StaticChunking}
    (h : strategy.resolve = .ok chunking) :
    100 ≤ chunking.maxChunkSizeTokens ∧ chunking.maxChunkSizeTokens ≤ 4096 ∧
      chunking.chunkOverlapTokens ≤ chunking.maxChunkSizeTokens / 2 := by
  cases strategy with
  | auto =>
    cases h
    decide
  | static config =>
    unfold ChunkingStrategy.resolve at h
    dsimp only at h
    by_cases hs : minChunkTokens ≤ config.maxChunkSizeTokens ∧
        config.maxChunkSizeTokens ≤ maxChunkTokens
    · by_cases ho : config.maxChunkSizeTokens / 2 < config.chunkOverlapTokens
      · simp [hs, ho] at h
      · rw [if_neg (not_not_intro hs), if_neg ho] at h
        cases h
        exact ⟨hs.1, hs.2, Nat.le_of_not_lt ho⟩
    · rw [if_pos hs] at h
      cases h

/-- **A text is refused, or its chunks cover it.** -/
theorem chunk_covers (text : Text) (strategy : ChunkingStrategy) {chunking : StaticChunking}
    (h : strategy.resolve = .ok chunking) :
    ∃ words : List Span, (∀ span, span ∈ words ↔ IsWord text span) ∧
      words.Pairwise (fun u v => u.2 < v.1) ∧
      let size := chunking.maxChunkSizeTokens
      let overlap := chunking.chunkOverlapTokens
      let chunks := 1 + divCeil (words.length - size) (size - overlap)
      if words = [] then
        chunk text chunking = .error (.refused .invalidFile "the file holds no text".toList)
      else if maxFileChunks < chunks then
        ∃ message, chunk text chunking = .error (.refused .invalidFile message)
      else ∃ ranges, chunk text chunking = .ok ranges ∧ Covers text words ranges size overlap := by
  obtain ⟨hmin, hmax, hovl⟩ := resolve_sizes h
  refine ⟨wordRanges text, fun span => mem_wordRanges, wordRanges_sorted text, ?_⟩
  have hs : chunking.chunkOverlapTokens ≤ chunking.maxChunkSizeTokens := by omega
  unfold chunk minus
  dsimp only
  rw [if_pos hs]
  by_cases hne : wordRanges text = []
  · rw [if_pos hne, hne]
    rfl
  · have he : ¬(wordRanges text).isEmpty = true := by rwa [List.isEmpty_iff]
    rw [if_neg hne, if_neg he]
    by_cases hm : maxFileChunks < 1 + divCeil ((wordRanges text).length -
        chunking.maxChunkSizeTokens) (chunking.maxChunkSizeTokens - chunking.chunkOverlapTokens)
    · rw [if_pos hm]
      exact ⟨_, if_pos hm⟩
    · rw [if_neg hm]
      have hp := length_pos_iff.mpr hne
      refine ⟨_, ?_, covers_windows (fun span => mem_wordRanges.mp) (apart_wordRanges text) hne
        (by omega) hovl⟩
      show (if _ then _ else _) = _
      rw [if_neg hm, windows_eq (by omega) (by omega) hp (by omega)]
      simp only [Nat.zero_add]

/-- A hundred words and one more. -/
def manyWords : Text := (List.replicate 101 ['a', ' ']).flatten

theorem many_words_two_chunks : ∃ words ranges,
    (∀ span, span ∈ words ↔ IsWord manyWords span) ∧ words.Pairwise (fun u v => u.2 < v.1) ∧
      chunk manyWords ⟨100, 50⟩ = .ok ranges ∧ ranges.length = 2 ∧
      Covers manyWords words ranges 100 50 := by
  obtain ⟨words, hw, hp, h⟩ := chunk_covers manyWords (.static ⟨100, 50⟩) rfl
  have hc : chunk manyWords ⟨100, 50⟩ = .ok [(0, 199), (100, 201)] := by decide +kernel
  dsimp only at h
  split_ifs at h
  · rw [hc] at h
    cases h
  · obtain ⟨message, he⟩ := h
    rw [hc] at he
    cases he
  · obtain ⟨ranges, hr, hcov⟩ := h
    obtain rfl := Except.ok.inj (hc.symm.trans hr)
    exact ⟨words, _, hw, hp, hr, rfl, hcov⟩

end LocalAi.VectorStores
