import LocalAi.Transcription.Alignment
import LocalAi.Transcription.Lossy

/-!
# Words and the segments they belong to

* `mergePunctuations`: punctuation moved to the words beside it, in place.
* `attachWords`: the aligned words dealt out to the segments by their numbers of tokens.
* `Ends`, `Cut`: where `splitTokensOnUnicode` ends a group, and texts it can be cut into groups.
* `EveryWordOnce`: no token is lost on the way to the segments.
* `everyWordOnce_iff`: none is exactly if the text has a cut.
* `plain_words_once`: it has one if it decodes without replacement characters.
-/

open List

namespace LocalAi.Transcription

open Workspace (replacementCharacter fromUtf8Lossy)

variable {P : Type}

def prependPunctuations : Text := "\"'“¿([\x7b-".toList

def appendPunctuations : Text := "\"'.。,，!！?？:：”)]\x7d、".toList

/-- `std::mem::take` of the word and its tokens. -/
def WordTiming.taken (w : WordTiming P) : WordTiming P := { w with word := [], tokens := [] }

/-- `w` with what `first` and `last` say, one after the other. -/
def WordTiming.joined (w first last : WordTiming P) : WordTiming P :=
  { w with word := first.word ++ last.word, tokens := first.tokens ++ last.tokens }

/-- One step of the walk back: `p` joins the word at `j`, or is the next to join. -/
def prependStep (state : List (WordTiming P) × Nat) (p : Nat) : List (WordTiming P) × Nat :=
  match state.1[p]?, state.1[state.2]? with
  | some previous, some following =>
    if previous.word.head? = some ' ' ∧ trim previous.word <:+: prependPunctuations then
      ((state.1.set p previous.taken).set state.2 (following.joined previous following), state.2)
    else (state.1, p)
  | _, _ => state

/-- One step of the walk ahead: `j` joins the word at `i`, or is the next to be joined. -/
def appendStep (state : List (WordTiming P) × Nat) (j : Nat) : List (WordTiming P) × Nat :=
  match state.1[state.2]?, state.1[j]? with
  | some previous, some following =>
    if previous.word.getLast? ≠ some ' ' ∧ following.word <:+: appendPunctuations then
      ((state.1.set state.2 (previous.joined previous following)).set j following.taken, state.2)
    else (state.1, j)
  | _, _ => state

def mergePunctuations (alignment : List (WordTiming P)) : List (WordTiming P) :=
  if alignment.length < 2 then alignment
  else
    let prepended := (range (alignment.length - 1)).reverse.foldl prependStep
      (alignment, alignment.length - 1)
    ((range' 1 (alignment.length - 1)).foldl appendStep (prepended.1, 0)).1

/-- The words of a segment with `count` tokens of which `saved` are dealt out, and the rest. -/
def takeWords (count : Nat) : (saved : Nat) → List (WordTiming P) →
    List (WordTiming P) × List (WordTiming P)
  | _, [] => ([], [])
  | saved, timing :: alignment =>
    if saved < count then
      let (words, rest) := takeWords count (saved + timing.tokens.length) alignment
      (if timing.word.isEmpty then words else timing :: words, rest)
    else ([], timing :: alignment)

def attachWords : (perSegment : List (List Nat)) → List (WordTiming P) → List (List (WordTiming P))
  | [], _ => []
  | tokens :: perSegment, alignment =>
    let (words, rest) := takeWords tokens.length 0 alignment
    words :: attachWords perSegment rest

def wordsOf (alignment : List (WordTiming P)) : Text := alignment.flatMap WordTiming.word

def tokensIn (alignment : List (WordTiming P)) : List Nat := alignment.flatMap WordTiming.tokens

/-- A group may end here: it has no replacement character, or its first one is where the whole text
has one, counted from the characters of the groups before it. -/
def Ends (tokenizer : WhisperTokenizer) (full : Text) (offset : Nat) (group : List Nat) : Prop :=
  ∀ index, (decodeWithSpecials tokenizer group).findIdx? (· = replacementCharacter) = some index →
    full[offset + index]? = some replacementCharacter

inductive Cut (tokenizer : WhisperTokenizer) (full : Text) : Nat → List Nat → Prop
  | nil (offset : Nat) : Cut tokenizer full offset []
  | cons {offset : Nat} {group rest : List Nat} (hne : group ≠ [])
      (ends : Ends tokenizer full offset group)
      (first : ∀ front, front <+: group → front ≠ [] → Ends tokenizer full offset front →
        front = group)
      (more : Cut tokenizer full (offset + (decodeWithSpecials tokenizer group).length) rest) :
      Cut tokenizer full offset (group ++ rest)

structure EveryWordOnce (tokenizer : WhisperTokenizer) (language : Text) (text : List Nat) :
    Prop where
  split : groupTokens (splitToWordTokens tokenizer (text ++ [tokenizer.special.eot]) language) =
    text ++ [tokenizer.special.eot]
  last : ((splitToWordTokens tokenizer (text ++ [tokenizer.special.eot]) language).map
    Prod.snd).getLast? = some [tokenizer.special.eot]
  merged : ∀ {P : Type} (alignment : List (WordTiming P)),
    wordsOf (mergePunctuations alignment) = wordsOf alignment ∧
      tokensIn (mergePunctuations alignment) = tokensIn alignment
  attached : ∀ {X α P : Type} [LinearOrder α] [Zero α] (narrow : X → α → α) (numFrames : Nat)
    (x : Nat → Nat → Option X) (probability : Nat → Nat → P) (perSegment : List (List Nat))
    alignment, perSegment.flatten = text →
    alignWords narrow tokenizer language text numFrames x probability = some alignment →
    (attachWords perSegment (mergePunctuations alignment)).flatten =
        (mergePunctuations alignment).filter (fun w => !w.word.isEmpty) ∧
      wordsOf (attachWords perSegment (mergePunctuations alignment)).flatten = wordsOf alignment

/-! ### Punctuation -/

def Blank (alignment : List (WordTiming P)) (lo hi : Nat) : Prop :=
  ∀ k, lo ≤ k → k < hi → ∀ w, alignment[k]? = some w → w.word = [] ∧ w.tokens = []

/-- A word without tokens has moved away. -/
def WordTiming.Filled (w : WordTiming P) : Prop := w.tokens = [] → w.word = []

/-- The same words and tokens in the same order, perhaps in other places. -/
structure Merged (a b : List (WordTiming P)) : Prop where
  words : wordsOf b = wordsOf a
  tokens : tokensIn b = tokensIn a
  length : b.length = a.length
  filled : (∀ w ∈ a, w.Filled) → ∀ w ∈ b, w.Filled

theorem Merged.refl (a : List (WordTiming P)) : Merged a a := ⟨rfl, rfl, rfl, id⟩

theorem Merged.trans {a b c : List (WordTiming P)} (h : Merged a b) (g : Merged b c) :
    Merged a c :=
  ⟨g.words.trans h.words, g.tokens.trans h.tokens, g.length.trans h.length,
    fun ha => g.filled (h.filled ha)⟩

theorem exists_split {α : Type} {xs : List α} {p j : Nat} {x y : α} (hlt : p < j)
    (hx : xs[p]? = some x) (hy : xs[j]? = some y) : ∃ front middle back,
      xs = front ++ x :: (middle ++ y :: back) ∧ front.length = p ∧ p + 1 + middle.length = j := by
  obtain ⟨hj, rfl⟩ := List.getElem?_eq_some_iff.mp hy
  obtain ⟨hp, rfl⟩ := List.getElem?_eq_some_iff.mp hx
  refine ⟨xs.take p, (xs.drop (p + 1)).take (j - (p + 1)), xs.drop (j + 1), ?_, ?_, ?_⟩
  · have hd : xs.drop (p + 1) = (xs.drop (p + 1)).take (j - (p + 1)) ++ xs[j] :: xs.drop (j + 1) := by
      rw [getElem_cons_drop, show xs.drop j = (xs.drop (p + 1)).drop (j - (p + 1)) by
        rw [drop_drop, Nat.add_sub_cancel' hlt], take_append_drop]
    rw [← hd, getElem_cons_drop, take_append_drop]
  · exact length_take_of_le hp.le
  · rw [length_take_of_le (by rw [length_drop]; omega)]
    omega

/-- What is between two words is blank, so what moves from one to the other keeps its place. -/
theorem flatMap_set_set {γ : Type} {f : WordTiming P → List γ} {xs : List (WordTiming P)}
    {p j : Nat} {x y x' y' : WordTiming P} (hlt : p < j) (hx : xs[p]? = some x)
    (hy : xs[j]? = some y) (hb : ∀ k, p + 1 ≤ k → k < j → ∀ w, xs[k]? = some w → f w = [])
    (hf : f x' ++ f y' = f x ++ f y) : ((xs.set p x').set j y').flatMap f = xs.flatMap f := by
  obtain ⟨front, middle, back, rfl, rfl, rfl⟩ := exists_split hlt hx hy
  have hm : middle.flatMap f = [] := by
    rw [flatMap_eq_nil_iff]
    intro w hw
    obtain ⟨k, hk, rfl⟩ := getElem_of_mem hw
    refine hb (front.length + 1 + k) (by omega) (by omega) _ ?_
    rw [getElem?_append_right (by omega), show front.length + 1 + k - front.length = k + 1 by omega,
      getElem?_cons_succ, getElem?_append_left hk, getElem?_eq_getElem hk]
  have hs : ((front ++ x :: (middle ++ y :: back)).set front.length x').set
      (front.length + 1 + middle.length) y' = front ++ x' :: (middle ++ y' :: back) := by
    simp [Nat.add_assoc, Nat.add_comm 1]
  rw [hs]
  simp only [flatMap_append, flatMap_cons, hm, nil_append]
  rw [← append_assoc (f x'), hf, append_assoc]

section

variable {a : List (WordTiming P)} {p j : Nat} {x y : WordTiming P}

/-- Two words one of which takes over what the other says. -/
theorem Merged.move {x' y' : WordTiming P} (hlt : p < j) (hx : a[p]? = some x)
    (hy : a[j]? = some y) (hb : Blank a (p + 1) j) (hw : x'.word ++ y'.word = x.word ++ y.word)
    (ht : x'.tokens ++ y'.tokens = x.tokens ++ y.tokens)
    (hf : x.Filled → y.Filled → x'.Filled ∧ y'.Filled) : Merged a ((a.set p x').set j y') where
  words := flatMap_set_set hlt hx hy (fun k hlo hhi w hk => (hb k hlo hhi w hk).1) hw
  tokens := flatMap_set_set hlt hx hy (fun k hlo hhi w hk => (hb k hlo hhi w hk).2) ht
  length := by rw [length_set, length_set]
  filled := by
    intro ha w hmem
    obtain ⟨hxf, hyf⟩ := hf (ha x (mem_of_getElem? hx)) (ha y (mem_of_getElem? hy))
    rcases mem_or_eq_of_mem_set hmem with hmem | rfl
    · rcases mem_or_eq_of_mem_set hmem with hmem | rfl
      · exact ha w hmem
      · exact hxf
    · exact hyf

theorem WordTiming.taken_filled (w : WordTiming P) : w.taken.Filled := fun _ => rfl

theorem WordTiming.Filled.joined (w : WordTiming P) (hx : x.Filled) (hy : y.Filled) :
    (w.joined x y).Filled := by
  intro h
  obtain ⟨hfst, hsnd⟩ := append_eq_nil_iff.mp h
  exact append_eq_nil_iff.mpr ⟨hx hfst, hy hsnd⟩

theorem prependStep_spec (hlt : p < j) (hj : j < a.length) (hb : Blank a (p + 1) j) :
    Merged a (prependStep (a, j) p).1 ∧ p ≤ (prependStep (a, j) p).2 ∧
      (prependStep (a, j) p).2 < a.length ∧
      Blank (prependStep (a, j) p).1 p (prependStep (a, j) p).2 := by
  have hx := getElem?_eq_getElem (hlt.trans hj)
  have hy := getElem?_eq_getElem hj
  simp only [prependStep, hx, hy]
  split
  · refine ⟨Merged.move hlt hx hy hb rfl rfl fun hxf hyf => ⟨WordTiming.taken_filled _, hxf.joined _ hyf⟩,
      hlt.le, hj, fun k hlo hhi w hk => ?_⟩
    rw [getElem?_set_ne hhi.ne'] at hk
    rcases hlo.eq_or_lt with rfl | hlo
    · rw [getElem?_set_self (hlt.trans hj)] at hk
      cases hk
      exact ⟨rfl, rfl⟩
    · rw [getElem?_set_ne hlo.ne] at hk
      exact hb k hlo hhi w hk
  · exact ⟨Merged.refl a, le_rfl, hlt.trans hj, fun k hlo hhi => absurd hhi hlo.not_gt⟩

theorem appendStep_spec (hlt : p < j) (hj : j < a.length) (hb : Blank a (p + 1) j) :
    Merged a (appendStep (a, p) j).1 ∧ (appendStep (a, p) j).2 ≤ j ∧
      Blank (appendStep (a, p) j).1 ((appendStep (a, p) j).2 + 1) (j + 1) := by
  have hx := getElem?_eq_getElem (hlt.trans hj)
  have hy := getElem?_eq_getElem hj
  simp only [appendStep, hx, hy]
  split
  · refine ⟨Merged.move hlt hx hy hb (append_nil _) (append_nil _) fun hxf hyf =>
      ⟨hxf.joined _ hyf, WordTiming.taken_filled _⟩, hlt.le, fun k hlo hhi w hk => ?_⟩
    rcases (Nat.lt_succ_iff.mp hhi).eq_or_lt with rfl | hhi
    · rw [getElem?_set_self (by rwa [length_set])] at hk
      cases hk
      exact ⟨rfl, rfl⟩
    · rw [getElem?_set_ne hhi.ne', getElem?_set_ne (Nat.lt_of_succ_le hlo).ne] at hk
      exact hb k hlo hhi w hk
  · exact ⟨Merged.refl a, le_rfl, fun k hlo hhi => absurd hhi (Nat.not_lt.mpr hlo)⟩

end

theorem prependLoop_spec (n : Nat) : ∀ {a : List (WordTiming P)} {j : Nat}, n ≤ j → j < a.length →
    Blank a n j → Merged a ((range n).reverse.foldl prependStep (a, j)).1 := by
  induction n with
  | zero => exact fun _ _ _ => Merged.refl _
  | succ n ih =>
    intro a j hn hj hb
    obtain ⟨hm, hle, hlt, hb'⟩ := prependStep_spec hn hj hb
    rw [range_succ, reverse_concat, foldl_cons]
    exact hm.trans (ih hle (hm.length ▸ hlt) hb')

theorem appendLoop_spec (n : Nat) : ∀ {a : List (WordTiming P)} {i j : Nat}, i < j →
    j + n ≤ a.length → Blank a (i + 1) j → Merged a ((range' j n).foldl appendStep (a, i)).1 := by
  induction n with
  | zero => exact fun _ _ _ => Merged.refl _
  | succ n ih =>
    intro a i j hlt hl hb
    obtain ⟨hm, hle, hb'⟩ := appendStep_spec hlt (by omega) hb
    rw [range'_succ, foldl_cons]
    exact hm.trans (ih (Nat.lt_succ_of_le hle) (by rw [hm.length]; omega) hb')

theorem mergePunctuations_spec (alignment : List (WordTiming P)) :
    Merged alignment (mergePunctuations alignment) := by
  rw [mergePunctuations]
  split
  · exact Merged.refl _
  · next hl =>
    have hp := prependLoop_spec (alignment.length - 1) le_rfl (by omega)
      (fun k hlo hhi => absurd hhi hlo.not_gt) (a := alignment)
    exact hp.trans (appendLoop_spec _ Nat.one_pos (by rw [hp.length]; omega)
      fun k hlo hhi => absurd hhi hlo.not_gt)

/-! ### Segments -/

theorem takeWords_spec (count : Nat) : ∀ (saved : Nat) (alignment : List (WordTiming P)),
    ∃ front, alignment = front ++ (takeWords count saved alignment).2 ∧
      (takeWords count saved alignment).1 = front.filter (fun w => !w.word.isEmpty) ∧
      ((takeWords count saved alignment).2 = [] ∨ count ≤ saved + (tokensIn front).length) := by
  intro saved alignment
  induction alignment generalizing saved with
  | nil => exact ⟨[], rfl, rfl, .inl rfl⟩
  | cons timing alignment ih =>
    rw [takeWords]
    split
    · obtain ⟨front, heq, hf, hc⟩ := ih (saved + timing.tokens.length)
      refine ⟨timing :: front, congrArg _ heq, ?_, hc.imp_right fun hc => ?_⟩
      · rw [filter_cons, ← hf]
        cases timing.word.isEmpty <;> rfl
      · rw [tokensIn, flatMap_cons, length_append]
        exact hc.trans (Nat.add_assoc ..).le
    · next hs => exact ⟨[], rfl, rfl, .inr (Nat.not_lt.mp hs)⟩

theorem attachWords_flatten (perSegment : List (List Nat)) : ∀ {alignment : List (WordTiming P)},
    (∀ w ∈ alignment, w.Filled) → (tokensIn alignment).length ≤ perSegment.flatten.length →
    (attachWords perSegment alignment).flatten = alignment.filter fun w => !w.word.isEmpty := by
  induction perSegment with
  | nil =>
    intro alignment hf hl
    refine (filter_eq_nil_iff.mpr fun w hw => ?_).symm
    have ht : w.tokens = [] := flatMap_eq_nil_iff.mp (length_eq_zero_iff.mp (Nat.le_zero.mp hl)) w hw
    simp [hf w hw ht]
  | cons tokens perSegment ih =>
    intro alignment hf hl
    obtain ⟨front, heq, hw, hc⟩ := takeWords_spec tokens.length 0 alignment
    rw [attachWords, flatten_cons]
    generalize takeWords tokens.length 0 alignment = taken at *
    obtain ⟨words, rest⟩ := taken
    subst heq hw
    rw [filter_append, ih fun w hm => hf w (mem_append_right _ hm)]
    rcases hc with rfl | hc
    · exact Nat.zero_le _
    · simp only [tokensIn, flatMap_append, length_append, flatten_cons] at hl hc ⊢
      omega

theorem wordsOf_filter (alignment : List (WordTiming P)) :
    wordsOf (alignment.filter fun w => !w.word.isEmpty) = wordsOf alignment := by
  induction alignment with
  | nil => rfl
  | cons w alignment ih =>
    rw [filter_cons]
    split
    · exact congrArg (w.word ++ ·) ih
    · next hw =>
      have hn : w.word = [] := by simpa using hw
      rw [ih, wordsOf, wordsOf, flatMap_cons, hn, nil_append]

theorem timeWords_tokens (probability : Nat → Nat → P) (jumps : List ℚ) (groups : List TokenGroup) :
    ∀ start, (timeWords probability jumps groups (boundariesFrom start groups.dropLast)).map
      WordTiming.tokens = groups.dropLast.map Prod.snd := by
  induction groups with
  | nil => exact fun _ => rfl
  | cons group groups ih =>
    intro start
    cases groups with
    | nil => rfl
    | cons next groups =>
      have hs := ih (start + group.2.length)
      rw [dropLast_cons_cons, boundariesFrom]
      obtain ⟨more, hm⟩ := boundariesFrom_head (start + group.2.length) (next :: groups).dropLast
      rw [hm] at hs ⊢
      rw [timeWords, map_cons, hs]
      rfl

theorem alignWords_tokens {X α : Type} [LinearOrder α] [Zero α] {narrow : X → α → α}
    {tokenizer : WhisperTokenizer} {language : Text} {text : List Nat} {numFrames : Nat}
    {x : Nat → Nat → Option X} {probability : Nat → Nat → P} {alignment : List (WordTiming P)}
    (h : alignWords narrow tokenizer language text numFrames x probability = some alignment) :
    (∀ w ∈ alignment, w.Filled) ∧ (tokensIn alignment).length ≤ text.length := by
  have hnil : (∀ w ∈ ([] : List (WordTiming P)), w.Filled) ∧
      (tokensIn ([] : List (WordTiming P))).length ≤ text.length :=
    ⟨nofun, Nat.zero_le _⟩
  unfold alignWords at h
  split at h
  · cases h
    exact hnil
  · obtain ⟨path, -, h⟩ := Option.bind_eq_some_iff.mp h
    dsimp only at h
    split at h
    · cases h
      exact hnil
    · cases h
      generalize hg : splitToWordTokens tokenizer (text ++ [tokenizer.special.eot]) language = groups
      have ht := timeWords_tokens probability (jumpTimes path) groups 0
      have hc := split_counts tokenizer text language
      have hne := (splitToWordTokens_spec tokenizer (text ++ [tokenizer.special.eot]) language).1
      rw [hg] at hc hne
      constructor
      · intro w hw htok
        have hmem : w.tokens ∈ groups.dropLast.map Prod.snd := ht ▸ mem_map_of_mem hw
        obtain ⟨group, hgr, heq⟩ := mem_map.mp hmem
        exact absurd (heq.trans htok) (hne group (mem_of_mem_dropLast hgr))
      · rwa [tokensIn, flatMap_def, ht, ← flatMap_def]

/-! ### Cuts -/

section

variable {tokenizer : WhisperTokenizer} {full : Text}

theorem splitToken_cases (groups : List TokenGroup) (current : List Nat) (offset token : Nat) :
    (Ends tokenizer full offset (current ++ [token]) ∧
      splitToken tokenizer full (groups, current, offset) token =
        (groups ++ [(decodeWithSpecials tokenizer (current ++ [token]), current ++ [token])], [],
          offset + (decodeWithSpecials tokenizer (current ++ [token])).length)) ∨
    (¬Ends tokenizer full offset (current ++ [token]) ∧
      splitToken tokenizer full (groups, current, offset) token =
        (groups, current ++ [token], offset)) := by
  unfold Ends splitToken
  dsimp only
  cases (decodeWithSpecials tokenizer (current ++ [token])).findIdx? (· = replacementCharacter) with
  | none => exact .inl ⟨fun _ h => (nomatch h), rfl⟩
  | some index =>
    by_cases h : full[offset + index]? = some replacementCharacter
    · exact .inl ⟨fun _ hi => Option.some.inj hi ▸ h, by simp [h]⟩
    · exact .inr ⟨fun ha => h (ha index rfl), by simp [h]⟩

/-- Two groups that end at the first token they can, at the front of the same tokens. -/
theorem first_unique {offset : Nat} {a b rest more : List Nat} (heq : a ++ rest = b ++ more)
    (ha : a ≠ []) (hb : b ≠ []) (hae : Ends tokenizer full offset a)
    (hbe : Ends tokenizer full offset b)
    (haf : ∀ front, front <+: a → front ≠ [] → Ends tokenizer full offset front → front = a)
    (hbf : ∀ front, front <+: b → front ≠ [] → Ends tokenizer full offset front → front = b) :
    a = b := by
  rcases prefix_or_prefix_of_prefix ⟨rest, rfl⟩ ⟨more, heq.symm⟩ with h | h
  · exact hbf a h ha hae
  · exact (haf b h hb hbe).symm

theorem foldl_splitToken (tokens : List Nat) : ∀ (groups : List TokenGroup) (current : List Nat)
    (offset : Nat), (∀ front, front <+: current → front ≠ [] → ¬Ends tokenizer full offset front) →
    ((tokens.foldl (splitToken tokenizer full) (groups, current, offset)).2.1 = [] ↔
      Cut tokenizer full offset (current ++ tokens)) := by
  induction tokens with
  | nil =>
    intro groups current offset hp
    rw [append_nil]
    constructor
    · rintro (rfl : current = [])
      exact .nil offset
    · intro hc
      cases hc with
      | nil => rfl
      | cons hne ends => exact absurd ends (hp _ (prefix_append _ _) hne)
  | cons token tokens ih =>
    intro groups current offset hp
    have hn : current ++ [token] ≠ [] := concat_ne_nil _ _
    rw [foldl_cons, ← singleton_append, ← append_assoc]
    rcases splitToken_cases groups current offset token with ⟨he, hs⟩ | ⟨he, hs⟩
    · have hf : ∀ front, front <+: current ++ [token] → front ≠ [] →
          Ends tokenizer full offset front → front = current ++ [token] := by
        intro front hpre hne hen
        rcases prefix_concat_iff.mp hpre with heq | hpre
        · exact heq
        · exact absurd hen (hp front hpre hne)
      rw [hs, ih _ [] _ fun front hpre hne => absurd (prefix_nil.mp hpre) hne, nil_append]
      constructor
      · exact .cons hn he hf
      · intro hc
        generalize hall : current ++ [token] ++ tokens = all at hc
        cases hc with
        | nil => exact absurd (append_eq_nil_iff.mp hall).1 hn
        | cons hne ends first =>
          obtain rfl := first_unique hall hn hne he ends hf first
          rwa [append_cancel_left hall]
    · rw [hs]
      refine ih groups _ offset fun front hpre hne => ?_
      rcases prefix_concat_iff.mp hpre with rfl | hpre
      · exact he
      · exact hp front hpre hne

end

theorem ends_eot (tokenizer : WhisperTokenizer) (full : Text) (offset : Nat) :
    Ends tokenizer full offset [tokenizer.special.eot] := by
  have hd : decodeWithSpecials tokenizer [tokenizer.special.eot] = "<|endoftext|>".toList := by
    rw [decodeWithSpecials, flatMap_singleton, if_pos rfl]
    decide
  intro index h
  have hn : "<|endoftext|>".toList.findIdx? (· = replacementCharacter) = none := by decide
  rw [hd, hn] at h
  cases h

/-! ### Words -/

theorem splitToWordTokens_last {tokenizer : WhisperTokenizer} {tokens : List Nat}
    {groups : List TokenGroup} {group : TokenGroup} (language : Text)
    (h : splitTokensOnUnicode tokenizer tokens = groups ++ [group]) :
    ∃ words last, splitToWordTokens tokenizer tokens language = words ++ [last] ∧
      group.2 <:+ last.2 ∧ (tokenizer.special.eot ≤ group.2.headD 0 → last.2 = group.2) := by
  rw [splitToWordTokens, h]
  split
  · exact ⟨groups, group, rfl, suffix_rfl, fun _ => rfl⟩
  · rw [foldl_append, foldl_cons, foldl_nil]
    generalize groups.foldl (joinGroup tokenizer) [] = words
    rw [joinGroup]
    cases words.getLast? with
    | none => exact ⟨[], group, rfl, suffix_rfl, fun _ => rfl⟩
    | some =>
      dsimp only
      split
      · exact ⟨words, group, rfl, suffix_rfl, fun _ => rfl⟩
      · next hj =>
        refine ⟨_, _, rfl, suffix_append _ _, fun he => absurd ?_ hj⟩
        rw [decide_eq_true he, Bool.true_or, Bool.true_or]

theorem groupTokens_splitToWordTokens (tokenizer : WhisperTokenizer) (tokens : List Nat)
    (language : Text) : groupTokens (splitToWordTokens tokenizer tokens language) =
      groupTokens (splitTokensOnUnicode tokenizer tokens) := by
  rw [splitToWordTokens]
  split
  · rfl
  · exact (foldl_joinGroup_spec tokenizer _ [] (forall_mem_nil _)
      (splitTokensOnUnicode_spec tokenizer tokens).1).2

theorem split_iff (tokenizer : WhisperTokenizer) (language : Text) (text : List Nat) :
    (groupTokens (splitToWordTokens tokenizer (text ++ [tokenizer.special.eot]) language) =
        text ++ [tokenizer.special.eot] ∧
      ((splitToWordTokens tokenizer (text ++ [tokenizer.special.eot]) language).map
        Prod.snd).getLast? = some [tokenizer.special.eot]) ↔
    Cut tokenizer (decodeWithSpecials tokenizer (text ++ [tokenizer.special.eot])) 0 text := by
  generalize hfu : decodeWithSpecials tokenizer (text ++ [tokenizer.special.eot]) = full
  have hcut := @foldl_splitToken tokenizer full text [] [] 0
    fun front hp hne => absurd (prefix_nil.mp hp) hne
  have ht := (splitTokens_spec tokenizer full text ([], [], 0) fun _ h => (nomatch h)).2
  have hs : splitTokensOnUnicode tokenizer (text ++ [tokenizer.special.eot]) =
      (splitToken tokenizer full (text.foldl (splitToken tokenizer full) ([], [], 0))
        tokenizer.special.eot).1 := by
    rw [splitTokensOnUnicode, hfu, foldl_append]
    rfl
  rw [nil_append] at hcut
  rw [← hcut, groupTokens_splitToWordTokens]
  generalize text.foldl (splitToken tokenizer full) ([], [], 0) = state at hs ht
  obtain ⟨groups, current, offset⟩ := state
  simp only [groupTokens, flatMap_nil, nil_append] at ht
  rcases splitToken_cases groups current offset tokenizer.special.eot with ⟨he, heq⟩ | ⟨he, heq⟩
  · rw [heq] at hs
    obtain ⟨words, last, hw, hsuf, hla⟩ := splitToWordTokens_last language hs
    rw [hw, hs, map_append, map_singleton, getLast?_concat, Option.some.injEq]
    constructor
    · rintro ⟨-, hl⟩
      have hlen := hsuf.length_le
      rw [hl, length_append] at hlen
      exact length_eq_zero_iff.mp (by simpa using hlen)
    · rintro (rfl : current = [])
      refine ⟨?_, hla le_rfl⟩
      simp only [groupTokens, flatMap_append, flatMap_singleton, append_nil, nil_append] at ht ⊢
      rw [ht]
  · rw [heq] at hs
    rw [hs]
    refine iff_of_false (fun h => ?_) fun hc => he ?_
    · -- without end-of-text the groups are shorter
      have hlen := congrArg length (h.1.trans (congrArg (· ++ _) ht.symm))
      simp [groupTokens] at hlen
    · rw [show current = [] from hc]
      exact ends_eot tokenizer full offset

/-- **Every token is in one word and every word in one segment** exactly if the text can be cut into
groups that end. -/
theorem everyWordOnce_iff (tokenizer : WhisperTokenizer) (language : Text) (text : List Nat) :
    EveryWordOnce tokenizer language text ↔
      Cut tokenizer (decodeWithSpecials tokenizer (text ++ [tokenizer.special.eot])) 0 text := by
  rw [← split_iff tokenizer language text]
  refine ⟨fun h => ⟨h.split, h.last⟩, fun ⟨hsp, hla⟩ => ⟨hsp, hla, ?_, ?_⟩⟩
  · exact fun alignment => ⟨(mergePunctuations_spec alignment).words,
      (mergePunctuations_spec alignment).tokens⟩
  · intro X α P _ _ narrow numFrames x probability perSegment alignment hp ha
    have hm := mergePunctuations_spec alignment
    obtain ⟨hf, hl⟩ := alignWords_tokens ha
    have hfl := attachWords_flatten perSegment (hm.filled hf) (by rw [hm.tokens, hp]; exact hl)
    exact ⟨hfl, by rw [hfl, wordsOf_filter, hm.words]⟩

/-! ### Plain texts -/

theorem mem_fromUtf8Lossy_of_goesOn {a b : Bytes} (h : GoesOn a b) :
    replacementCharacter ∈ fromUtf8Lossy a := by
  induction hn : a.length using Nat.strong_induction_on generalizing a with
  | _ n ih =>
    have ha := h.ne_nil
    rw [fromUtf8Lossy_step ha]
    obtain hs | ⟨x, c, hx, hc⟩ := unit_append ha b
    · exact mem_cons_of_mem _ (ih _ (hn ▸ length_drop_unit ha) ((goesOn_drop ha hs.1).mp h) rfl)
    · rw [unitChar, firstChar?_tail hc]
      exact mem_cons_self

/-- No character goes on with an ASCII one. -/
theorem not_goesOn_lt {a b : Bytes} (h : b.head? = some 0x3C) : ¬GoesOn a b := by
  rintro ⟨tail, x, c, -, hne, hx, more, hm⟩
  obtain ⟨p, tail, rfl⟩ := exists_cons_of_ne_nil hne
  obtain rfl := Option.some.inj (h.symm.trans hx)
  have hc := (encode_cons hm.symm).2 0x3C (by simp)
  exact absurd hc (by decide)

section

variable {tokenizer : WhisperTokenizer} {full : Text}

theorem ends_iff_of_plain (hfu : replacementCharacter ∉ full) {offset : Nat} {group : List Nat} :
    Ends tokenizer full offset group ↔
      replacementCharacter ∉ decodeWithSpecials tokenizer group := by
  constructor
  · intro h hmem
    cases hi : (decodeWithSpecials tokenizer group).findIdx? (· = replacementCharacter) with
    | none => simpa using findIdx?_eq_none_iff.mp hi _ hmem
    | some index => exact hfu (mem_of_getElem? (h index hi))
  · intro h index hi
    obtain ⟨hlt, hp, -⟩ := findIdx?_eq_some_iff_getElem.mp hi
    exact absurd (of_decide_eq_true hp ▸ getElem_mem hlt) h

theorem decode_append_of_plain {a : List Nat} (b : List Nat)
    (h : replacementCharacter ∉ decodeWithSpecials tokenizer a) :
    decodeWithSpecials tokenizer (a ++ b) =
      decodeWithSpecials tokenizer a ++ decodeWithSpecials tokenizer b := by
  rw [decodeWithSpecials, flatMap_append]
  exact fromUtf8Lossy_append fun hg => h (mem_fromUtf8Lossy_of_goesOn hg)

theorem decode_append_eot (text : List Nat) :
    decodeWithSpecials tokenizer (text ++ [tokenizer.special.eot]) =
      decodeWithSpecials tokenizer text ++
        decodeWithSpecials tokenizer [tokenizer.special.eot] := by
  have hl : (Lib.utf8Bytes "<|endoftext|>".toList).head? = some 0x3C := by decide
  simp only [decodeWithSpecials, flatMap_append, flatMap_singleton, if_true]
  exact fromUtf8Lossy_append (not_goesOn_lt hl)

theorem cut_of_plain (hfu : replacementCharacter ∉ full) {text : List Nat} : ∀ {offset : Nat},
    replacementCharacter ∉ decodeWithSpecials tokenizer (text ++ [tokenizer.special.eot]) →
    Cut tokenizer full offset text := by
  induction hn : text.length using Nat.strong_induction_on generalizing text with
  | _ n ih =>
    intro offset h
    by_cases ht : text = []
    · rw [ht]
      exact .nil offset
    have hp : 0 < text.length := length_pos_of_ne_nil ht
    have hex : ∃ k, 0 < k ∧ replacementCharacter ∉ decodeWithSpecials tokenizer (text.take k) := by
      refine ⟨text.length, hp, fun hmem => h ?_⟩
      rw [take_length] at hmem
      rw [decode_append_eot]
      exact mem_append_left _ hmem
    obtain ⟨k, ⟨hk, hpl⟩, hmin⟩ : ∃ k, (0 < k ∧ replacementCharacter ∉
        decodeWithSpecials tokenizer (text.take k)) ∧ ∀ m < k, ¬(0 < m ∧ replacementCharacter ∉
        decodeWithSpecials tokenizer (text.take m)) :=
      ⟨Nat.find hex, Nat.find_spec hex, fun m => Nat.find_min hex⟩
    have hre : replacementCharacter ∉
        decodeWithSpecials tokenizer (text.drop k ++ [tokenizer.special.eot]) := by
      rw [← take_append_drop k text, append_assoc, decode_append_of_plain _ hpl] at h
      exact fun hmem => h (mem_append_right _ hmem)
    have hne : text.take k ≠ [] := fun heq =>
      (take_eq_nil_iff.mp heq).elim hk.ne' ht
    rw [← take_append_drop k text]
    refine .cons hne ((ends_iff_of_plain hfu).mpr hpl) ?_
      (ih _ (by rw [length_drop]; omega) rfl hre)
    intro front hpre hf hen
    by_contra hlt
    have hl : front.length < k :=
      lt_of_le_of_ne (hpre.length_le.trans (length_take_le _ _)) fun heq =>
        hlt (hpre.eq_of_length_le (heq ▸ length_take_le _ _))
    refine hmin front.length hl ⟨length_pos_of_ne_nil hf, ?_⟩
    rw [← prefix_iff_eq_take.mp (hpre.trans ( take_prefix _ _))]
    exact (ends_iff_of_plain hfu).mp hen

end

/-- **Plain text keeps its tokens**: if a text decodes without replacement characters, its words
hold every token once, in order, and end-of-text is a word of its own. -/
theorem plain_words_once (tokenizer : WhisperTokenizer) (language : Text) {text : List Nat}
    (h : replacementCharacter ∉ decodeWithSpecials tokenizer (text ++ [tokenizer.special.eot])) :
    groupTokens (splitToWordTokens tokenizer (text ++ [tokenizer.special.eot]) language) =
        text ++ [tokenizer.special.eot] ∧
      ((splitToWordTokens tokenizer (text ++ [tokenizer.special.eot]) language).map
        Prod.snd).getLast? = some [tokenizer.special.eot] :=
  (split_iff tokenizer language text).mpr (cut_of_plain h h)

def euroSign : WhisperTokenizer where
  bytes := [[0xE2], [0x82, 0xAC]]
  special := largeTokens
  bytes_length := by decide

theorem euro_words_once :
    groupTokens (splitToWordTokens euroSign [0, 1, 50257] "en".toList) = [0, 1, 50257] :=
  (@plain_words_once euroSign "en".toList [0, 1] (by decide +kernel)).1

/-- The first two bytes of a character of three, as tokens. -/
def brokenCharacter : WhisperTokenizer where
  bytes := [[0xE2], [0x82]]
  special := largeTokens
  bytes_length := by decide

/-- A text that ends inside a character loses the token that goes on with it. -/
theorem broken_character_lost : ¬EveryWordOnce brokenCharacter "en".toList [0, 1] := by
  intro h
  have hs : groupTokens (splitToWordTokens brokenCharacter [0, 1, 50257] "en".toList) = [0] := by
    decide +kernel
  exact absurd (hs.symm.trans h.split) (by decide)

end LocalAi.Transcription
