import LocalAi.Speech.Reading

/-!
# Spelled numbers denote their value

* `read_belowThousand`, `read_scaleParts`: what is read of the parts of a cardinal.
* `readOrdinal_ordinalStr`, `readYear_yearStr`: so do ordinals and years.
-/

open List

namespace LocalAi.Speech

/-! ### The vocabulary -/

def vocabulary : List Text :=
  ones ++ tens.drop 2 ++ "hundred".toList :: scales.map Prod.snd

theorem words_vocabulary : ∀ word ∈ vocabulary, words word = [word] := by decide

theorem one_vocabulary : ∀ d < 20, one d ∈ vocabulary := by decide

theorem ten_vocabulary : ∀ t < 10, 2 ≤ t → ten t ∈ vocabulary := by decide

theorem hundred_vocabulary : "hundred".toList ∈ vocabulary := by decide

theorem scale_vocabulary {item : Nat × Text} (h : item ∈ scales) : item.2 ∈ vocabulary :=
  mem_append_right _ (mem_cons_of_mem _ (mem_map_of_mem h))

/-! ### Below a hundred -/

theorem step_one : ∀ d < 20, 0 < d → scaleValue (one d) = none ∧ smallValue (one d) = some (d, 0) ∧
    one d ≠ "hundred".toList := by decide

theorem step_ten : ∀ t < 10, 2 ≤ t → scaleValue (ten t) = none ∧
    smallValue (ten t) = some (10 * t, 10) ∧ ten t ≠ "hundred".toList := by decide

theorem step_scale : ∀ item ∈ scales, scaleValue item.2 = some item.1 ∧
    item.2 ≠ "hundred".toList := by decide

def Reads (words : List Text) (s t : Reading) : Prop := words.foldlM Reading.step s = some t

theorem Reads.nil (s : Reading) : Reads [] s s := rfl

variable {n : Nat} {s : Reading}

theorem Reads.append {front back : List Text} {t u : Reading} (h : Reads front s t)
    (hb : Reads back t u) : Reads (front ++ back) s u := by
  rw [Reads, foldlM_append, h]
  exact hb

variable {word front text : Text} {room r : Nat}

theorem Reads.one {t : Reading} (h : s.step word = some t) : Reads [word] s t := by
  rw [Reads, foldlM_cons, h]
  rfl

theorem Reading.step_small {v : Nat}
    (h : scaleValue word = none ∧ smallValue word = some (v, room) ∧ word ≠ "hundred".toList) :
    s.step word = if v < s.room then some { s with group := s.group + v, room := room }
      else none := by
  rw [Reading.step, if_neg h.2.2, h.1, h.2.1]
  rfl

theorem Reads.small {v : Nat}
    (h : scaleValue word = none ∧ smallValue word = some (v, room) ∧ word ≠ "hundred".toList)
    (hr : v < s.room) : Reads [word] s { s with group := s.group + v, room := room } :=
  .one (by rw [Reading.step_small h, if_pos hr])

theorem Reads.hundred (hp : 0 < s.group) (hg : s.group < 100) :
    Reads ["hundred".toList] s { s with group := s.group * 100, room := 100 } :=
  .one (by rw [Reading.step, if_pos rfl, if_pos ⟨hp, hg⟩])

theorem Reads.scale {item : Nat × Text} (h : item ∈ scales) (hp : 0 < s.group)
    (hs : item.1 < s.scale) : Reads [item.2] s (fresh (s.total + s.group * item.1) item.1) := by
  obtain ⟨hv, hne⟩ := step_scale item h
  exact .one (by rw [Reading.step, if_neg hne, hv]; exact if_pos ⟨hp, hs⟩)

theorem words_belowHundred (hr : r < 100) : words (belowHundred r) = if r < 20 then [one r]
      else if r % 10 = 0 then [ten (r / 10)] else [ten (r / 10), one (r % 10)] := by
  rw [belowHundred]
  split_ifs with hs ht
  · exact words_vocabulary _ (one_vocabulary r hs)
  · exact words_vocabulary _ (ten_vocabulary _ (by omega) (by omega))
  · rw [words_append (by decide), words_vocabulary _ (ten_vocabulary _ (by omega) (by omega)),
      words_vocabulary _ (one_vocabulary _ (by omega))]
    rfl

theorem read_belowHundred (hp : 0 < r) (hr : r < 100) (s : Reading)
    (hro : s.room = 100) : ∃ room ≤ 10, Reads (words (belowHundred r)) s
      { s with group := s.group + r, room := room } := by
  rw [words_belowHundred hr]
  split_ifs with hs htens
  · exact ⟨0, by decide, .small (step_one r hs hp) (by omega)⟩
  · have hten : 10 * (r / 10) = r := by omega
    have h := Reads.small (s := s) (step_ten (r / 10) (by omega) (by omega)) (by omega)
    rw [hten] at h
    exact ⟨10, le_rfl, h⟩
  · have hsum : s.group + 10 * (r / 10) + r % 10 = s.group + r := by omega
    refine ⟨0, by decide, ?_⟩
    rw [← hsum]
    exact (Reads.small (step_ten (r / 10) (by omega) (by omega)) (by omega)).append
      (Reads.small (step_one (r % 10) (by omega) (by omega)) (show r % 10 < 10 by omega))

/-! ### Cardinals -/

theorem words_space (x y : Text) : words (x ++ ' ' :: y) = words x ++ words y :=
  words_append (by decide) x y

/-- The words of a number below a thousand, less every "and". -/
theorem words_belowThousand (hn : n < 1000) : words (belowThousand n) =
      if n / 100 = 0 then words (belowHundred n)
      else if n % 100 = 0 then [one (n / 100), "hundred".toList]
      else one (n / 100) :: "hundred".toList :: words (belowHundred (n % 100)) := by
  have ho : words (one (n / 100)) = [one (n / 100)] :=
    words_vocabulary _ (one_vocabulary _ (by omega))
  have hh : words "hundred".toList = ["hundred".toList] :=
    words_vocabulary _ hundred_vocabulary
  rw [belowThousand]
  split_ifs with hs hw
  · rw [Nat.mod_eq_of_lt (by omega)]
  · rw [show " hundred".toList = ' ' :: "hundred".toList from rfl, words_space, ho, hh]
    rfl
  · have hp : one (n / 100) ++ " hundred and ".toList ++ belowHundred (n % 100) =
        one (n / 100) ++ ' ' :: ("hundred".toList ++ ' ' :: ("and".toList ++
          ' ' :: belowHundred (n % 100))) := by
      simp
    rw [hp, words_space, words_space, words_space, ho, hh, show words "and".toList = [] by decide]
    rfl

theorem read_belowThousand (hp : 0 < n) (hn : n < 1000) (total scale : Nat) :
    ∃ room, Reads (words (belowThousand n)) (fresh total scale) ⟨total, n, room, scale⟩ := by
  rw [words_belowThousand hn]
  split_ifs with hsm hw
  · obtain ⟨room, -, h⟩ := read_belowHundred hp (by omega) (fresh total scale) rfl
    rw [fresh, Nat.zero_add] at h
    exact ⟨room, h⟩
  -- the hundreds
  all_goals
    have ho : Reads [one (n / 100)] (fresh total scale) ⟨total, 0 + n / 100, 0, scale⟩ :=
      .small (step_one (n / 100) (by omega) (by omega)) (show n / 100 < 100 by omega)
    have hh := ho.append (Reads.hundred (show 0 < 0 + n / 100 by omega)
      (show 0 + n / 100 < 100 by omega))
  · have hs : (0 + n / 100) * 100 = n := by omega
    rw [hs] at hh
    exact ⟨100, hh⟩
  · have hs : (0 + n / 100) * 100 + n % 100 = n := by omega
    obtain ⟨room, -, h⟩ := read_belowHundred (r := n % 100) (by omega) (by omega)
      ⟨total, (0 + n / 100) * 100, 100, scale⟩ rfl
    rw [hs] at h
    exact ⟨room, hh.append h⟩

theorem read_scaleParts : ∀ {items : List (Nat × Text)} {bound n : Nat} (top total : Nat),
    (∀ item ∈ items, item ∈ scales) → Descends bound items → bound ≤ top → n < bound →
      ∃ least last, (scaleParts belowThousand items n).2 = last ∧ last < 1000 ∧ last ≤ n ∧
        Reads ((scaleParts belowThousand items n).1.flatMap words) (fresh total top)
          (fresh (total + (n - last)) least) := by
  intro items
  induction items with
  | nil =>
    intro bound n top total _ h _ hn
    refine ⟨top, n, rfl, hn.trans_le h, le_rfl, ?_⟩
    rw [Nat.sub_self]
    exact .nil _
  | cons item items ih =>
    intro bound n top total hi h ht hn
    obtain ⟨hsc, hbd, hr⟩ := h
    have hpos : 0 < item.1 := by omega
    have hitem := hi item mem_cons_self
    have ho := fun other hoth => hi other (mem_cons_of_mem item hoth)
    rw [scaleParts]
    split_ifs with hle
    · have hq : 0 < n / item.1 := Nat.div_pos hle hpos
      have hs : n / item.1 < 1000 := Nat.div_lt_of_lt_mul (by rw [mul_comm]; omega)
      obtain ⟨room, hre⟩ := read_belowThousand hq hs total top
      have hpa : Reads (words (belowThousand (n / item.1) ++ ' ' :: item.2)) (fresh total top)
          (fresh (total + n / item.1 * item.1) item.1) := by
        rw [words_space, words_vocabulary _ (scale_vocabulary hitem)]
        exact hre.append (.scale hitem hq (hsc.trans_le ht))
      obtain ⟨least, last, hl, hs, hle, hp⟩ :=
        ih item.1 (total + n / item.1 * item.1) ho hr le_rfl (Nat.mod_lt n hpos)
      have hd := Nat.div_add_mod' n item.1
      have hsum : total + n / item.1 * item.1 + (n % item.1 - last) = total + (n - last) := by omega
      rw [hsum] at hp
      exact ⟨least, last, hl, hs, hle.trans (Nat.mod_le _ _), hpa.append hp⟩
    · exact ih top total ho hr (hsc.le.trans ht) (not_le.mp hle)

theorem words_lastPart (n : Nat) :
    (lastPart n).flatMap words = if n = 0 then [] else words (belowThousand n) := by
  rw [lastPart]
  split_ifs with hz hs
  · rfl
  · rw [flatMap_singleton, show "and ".toList = "and".toList ++ [' '] by decide,
      append_assoc, singleton_append, words_space,
      show words "and".toList = [] by decide, nil_append]
  · rw [flatMap_singleton]

theorem cardinal_small (h : n < 1000) : cardinal n = belowThousand n := if_pos h

theorem cardinal_large (h : ¬n < 1000) :
    cardinal n = [' '].intercalate ((scaleParts belowThousand scales n).1 ++
      lastPart (scaleParts belowThousand scales n).2) := if_neg h

theorem reads_cardinal (hpos : 0 < n) (hn : n < 2 ^ 64) :
    ∃ total group room least, Reads (words (cardinal n)) (fresh 0 (10 ^ 21))
      ⟨total, group, room, least⟩ ∧ total + group = n := by
  by_cases hs : n < 1000
  · obtain ⟨room, h⟩ := read_belowThousand hpos hs 0 (10 ^ 21)
    rw [cardinal_small hs]
    exact ⟨0, n, room, 10 ^ 21, h, Nat.zero_add n⟩
  · obtain ⟨least, last, hl, hb, hle, hp⟩ := read_scaleParts (10 ^ 21) 0
      (fun _ h => h) scales_descend (by decide) hn
    rw [Nat.zero_add] at hp
    rw [cardinal_large hs, words_intercalate, flatMap_append, hl, words_lastPart]
    split_ifs with hz
    · refine ⟨n - last, 0, 100, least, ?_, by omega⟩
      rw [append_nil]
      exact hp
    · obtain ⟨room, h⟩ := read_belowThousand (Nat.pos_of_ne_zero hz) hb (n - last) least
      exact ⟨n - last, last, room, least, hp.append h, Nat.sub_add_cancel hle⟩

theorem read_of_reads {words : List Text} (hne : words ≠ [])
    (h : Reads words (fresh 0 (10 ^ 21)) s) : read words = some (s.total + s.group) := by
  have hz : words ≠ ["zero".toList] := by
    rintro rfl
    revert h
    rw [Reads]
    exact fun h => nomatch h
  rw [read, if_neg hz, if_neg hne, h]
  rfl

theorem read_cardinal (hn : n < 2 ^ 64) : read (words (cardinal n)) = some n := by
  obtain rfl | hp := Nat.eq_zero_or_pos n
  · decide
  · obtain ⟨total, group, room, least, h, hs⟩ := reads_cardinal hp hn
    refine (read_of_reads ?_ h).trans (congrArg some hs)
    rintro hnil
    rw [hnil] at h
    obtain ⟨rfl, rfl, -, -⟩ := Reading.mk.inj (Option.some.inj h)
    omega

/-! ### Ordinals -/

structure EndsIn (text front word : Text) : Prop where
  text : text = front ++ word
  front : front = [] ∨ ∃ text c, isBreak c = true ∧ front = text ++ [c]
  word : word ∈ vocabulary

theorem vocabulary_letters : ∀ word ∈ vocabulary, ∀ c ∈ word, isBreak c = false := by
  have ha : vocabulary.all (fun word => word.all fun c => !isBreak c) = true := by decide
  intro word hw c hc
  simpa using all_eq_true.mp (all_eq_true.mp ha word hw) c hc

theorem EndsIn.behind (h : EndsIn text front word) (before : Text) {c : Char}
    (hc : isBreak c = true) : EndsIn (before ++ c :: text) (before ++ c :: front) word where
  text := by
    rw [h.text]
    simp
  front := by
    obtain rfl | ⟨text, d, hd, rfl⟩ := h.front
    · exact .inr ⟨before, c, hc, rfl⟩
    · exact .inr ⟨before ++ c :: text, d, hd, by simp⟩
  word := h.word

theorem EndsIn.alone (h : word ∈ vocabulary) : EndsIn word [] word := ⟨rfl, .inl rfl, h⟩

theorem endsIn_belowHundred (hr : r < 100) : ∃ front word, EndsIn (belowHundred r) front word := by
  rw [belowHundred]
  split_ifs with hs ht
  · exact ⟨_, _, .alone (one_vocabulary r hs)⟩
  · exact ⟨_, _, .alone (ten_vocabulary _ (by omega) (by omega))⟩
  · exact ⟨_, _, (EndsIn.alone (one_vocabulary (r % 10) (by omega))).behind _ (by decide)⟩

theorem endsIn_belowThousand (n : Nat) : ∃ front word, EndsIn (belowThousand n) front word := by
  rw [belowThousand]
  split_ifs
  · exact endsIn_belowHundred (Nat.mod_lt n (by decide))
  · exact ⟨_, _, (EndsIn.alone hundred_vocabulary).behind (one (n / 100)) (show isBreak ' ' = true by
      decide)⟩
  · obtain ⟨front, word, h⟩ := endsIn_belowHundred (Nat.mod_lt n (show 0 < 100 by decide))
    have hb := h.behind (one (n / 100) ++ " hundred and".toList) (show isBreak ' ' = true by
      decide)
    rw [append_assoc] at hb
    rw [append_assoc]
    exact ⟨_, word, hb⟩

theorem endsIn_intercalate {parts : List Text} (hne : parts ≠ [])
    (h : ∀ part ∈ parts, ∃ front word, EndsIn part front word) :
    ∃ front word, EndsIn ([' '].intercalate parts) front word := by
  induction parts with
  | nil => exact absurd rfl hne
  | cons part parts ih =>
    cases parts with
    | nil =>
      rw [intercalate_singleton]
      exact h part mem_cons_self
    | cons =>
      obtain ⟨front, word, he⟩ := ih (cons_ne_nil _ _) fun other ho =>
        h other (mem_cons_of_mem _ ho)
      rw [intercalate_cons_cons, append_assoc, singleton_append]
      exact ⟨_, word, he.behind part (by decide)⟩

theorem endsIn_scaleParts : ∀ {items : List (Nat × Text)} {n : Nat}, (∀ item ∈ items, item ∈ scales) →
    ∀ part ∈ (scaleParts belowThousand items n).1, ∃ front word, EndsIn part front word := by
  intro items
  induction items with
  | nil => exact fun _ _ h => (nomatch h)
  | cons item items ih =>
    intro n hi part hp
    have ho := fun other hoth => hi other (mem_cons_of_mem item hoth)
    rw [scaleParts] at hp
    split_ifs at hp
    · obtain rfl | hp := mem_cons.mp hp
      · have hn := scale_vocabulary (hi item mem_cons_self)
        exact ⟨_, _, (EndsIn.alone hn).behind _ (by decide)⟩
      · exact ih ho part hp
    · exact ih ho part hp

theorem endsIn_cardinal (hn : n < 2 ^ 64) : ∃ front word, EndsIn (cardinal n) front word := by
  by_cases hs : n < 1000
  · rw [cardinal_small hs]
    exact endsIn_belowThousand n
  · have hr := read_cardinal hn
    rw [cardinal_large hs] at hr ⊢
    refine endsIn_intercalate (fun hnil => ?_) fun part hp => ?_
    · rw [hnil] at hr
      revert hr
      exact fun h => nomatch h
    · obtain hp | hp := mem_append.mp hp
      · exact endsIn_scaleParts (fun _ h => h) part hp
      · rw [lastPart] at hp
        split_ifs at hp
        · cases hp
        · obtain ⟨front, word, h⟩ := endsIn_belowThousand (scaleParts belowThousand scales n).2
          rw [mem_singleton.mp hp]
          exact ⟨_, word, h.behind "and".toList (by decide)⟩
        · rw [mem_singleton.mp hp]
          exact endsIn_belowThousand _

theorem EndsIn.parts (h : EndsIn text front word) : text.rdropWhile (fun c => !isBreak c) = front ∧
      text.rtakeWhile (fun c => !isBreak c) = word := by
  have hl : ∀ c ∈ word.reverse, (!isBreak c) = true := fun c hc => by
    rw [vocabulary_letters word h.word c (mem_reverse.mp hc)]
    rfl
  have hs : front.reverse.dropWhile (fun c => !isBreak c) = front.reverse ∧
      front.reverse.takeWhile (fun c => !isBreak c) = [] := by
    obtain rfl | ⟨before, c, hc, rfl⟩ := h.front
    · exact ⟨rfl, rfl⟩
    · rw [reverse_append, reverse_singleton, singleton_append]
      exact ⟨dropWhile_cons_of_neg (by simp [hc]), takeWhile_cons_of_neg (by simp [hc])⟩
  rw [h.text, rdropWhile, rtakeWhile, reverse_append,
    dropWhile_append_of_pos hl, takeWhile_append_of_pos hl, hs.1, hs.2]
  simp

/-- The words before the last one stay when it is replaced. -/
theorem EndsIn.words (h : EndsIn text front word) (other : Text) :
    words (front ++ other) = words front ++ words other := by
  obtain rfl | ⟨before, c, hc, rfl⟩ := h.front
  · rfl
  · rw [append_assoc, singleton_append, words_append hc, words_append hc before []]
    rw [show Speech.words [] = [] by decide, append_nil]

theorem ordinalWord_vocabulary : ∀ word ∈ vocabulary, words (ordinalWord word) = [ordinalWord word] ∧
    ordinals.lookup (ordinalWord word) = some word := by decide

theorem parseU64_decimal (hn : n < 2 ^ 64) : parseU64 (Nat.toDigits 10 n) = some n := by
  have hd : (Nat.toDigits 10 n).all Char.isDigit = true :=
    all_eq_true.mpr fun c hc => Nat.isDigit_of_mem_toDigits (by decide) (by decide) hc
  have hs : (Nat.toDigits 10 n).head? ≠ some '+' := by
    intro h
    have hp := Nat.isDigit_of_mem_toDigits (by decide) (by decide) (mem_of_mem_head? h)
    revert hp
    decide
  rw [parseU64, if_neg hs, Nat.ofDigitChars_ten_toDigits, if_pos ⟨Nat.toDigits_ne_nil, hd, hn⟩]

theorem readOrdinal_ordinalStr (hn : n < 2 ^ 64) :
    readOrdinal (words (ordinalStr (Nat.toDigits 10 n))) = some n := by
  obtain ⟨front, word, h⟩ := endsIn_cardinal hn
  obtain ⟨hf, hw⟩ := h.parts
  obtain ⟨ho, hl⟩ := ordinalWord_vocabulary word h.word
  have hr := read_cardinal hn
  rw [h.text, h.words, words_vocabulary word h.word] at hr
  rw [ordinalStr, cardinalStr, parseU64_decimal hn, hf, hw, h.words, ho, readOrdinal,
    getLast?_concat, dropLast_concat, Option.bind_eq_bind, Option.bind_some, hl]
  exact hr

/-! ### Years -/

theorem digit_lt {c : Char} (h : c.isDigit = true) : c.toNat - '0'.toNat < 10 := by
  have hle : c.toNat ≤ 57 := (Char.isDigit_iff_toNat.mp h).2
  show c.toNat - 48 < 10
  omega

theorem ofDigitChars_lt : ∀ {digits : Text}, digits.all Char.isDigit = true → ∀ init,
    Nat.ofDigitChars 10 digits init < (init + 1) * 10 ^ digits.length := by
  intro digits
  induction digits with
  | nil =>
    intro _ init
    simp
  | cons c digits ih =>
    intro h init
    rw [all_cons, Bool.and_eq_true] at h
    have hd := digit_lt h.1
    rw [Nat.ofDigitChars_cons, length_cons, Nat.pow_succ']
    calc Nat.ofDigitChars 10 digits (10 * init + (c.toNat - '0'.toNat))
        < (10 * init + (c.toNat - '0'.toNat) + 1) * 10 ^ digits.length := ih h.2 _
      _ ≤ (10 * (init + 1)) * 10 ^ digits.length := Nat.mul_le_mul_right _ (by omega)
      _ = (init + 1) * (10 * 10 ^ digits.length) := by ring

theorem parseU64_digits {digits : Text} (hne : digits ≠ []) (hd : digits.all Char.isDigit = true)
    (hv : Nat.ofDigitChars 10 digits 0 < 2 ^ 64) :
    parseU64 digits = some (Nat.ofDigitChars 10 digits 0) := by
  have hs : digits.head? ≠ some '+' := by
    intro h
    have hp := all_eq_true.mp hd _ (mem_of_mem_head? h)
    revert hp
    decide
  rw [parseU64, if_neg hs, if_pos ⟨hne, hd, hv⟩]

theorem words_cardinal_small (hn : n < 100) : words (cardinal n) = words (belowHundred n) := by
  rw [cardinal_small (by omega), words_belowThousand (by omega), if_pos (Nat.div_eq_of_lt hn)]

/-- A word that starts the second pair of a year. -/
def Parts (word : Text) : Prop :=
  scaleValue word = none ∧ word ≠ "hundred".toList ∧
    ∀ small, smallValue word = some small → 10 ≤ small.1

theorem parts_oh : Parts "oh".toList := by
  refine ⟨by decide, by decide, fun small h => ?_⟩
  rw [show smallValue "oh".toList = none by decide] at h
  cases h

theorem words_of_two_digits (hl : 10 ≤ n) (hn : n < 100) :
    ∃ word others, words (belowHundred n) = word :: others ∧ Parts word ∧ word ∈ vocabulary := by
  rw [words_belowHundred hn]
  split_ifs with hsm ht
  · obtain ⟨hs, hv, hne⟩ := step_one n hsm (by omega)
    refine ⟨_, _, rfl, ⟨hs, hne, fun small h => ?_⟩, one_vocabulary n hsm⟩
    obtain rfl := Option.some.inj (hv.symm.trans h)
    exact hl
  all_goals
    obtain ⟨hs, hv, hne⟩ := step_ten (n / 10) (by omega) (by omega)
    refine ⟨_, _, rfl, ⟨hs, hne, fun small h => ?_⟩, ten_vocabulary _ (by omega) (by omega)⟩
    obtain rfl := Option.some.inj (hv.symm.trans h)
    omega

/-- Two pairs are no cardinal. -/
theorem read_pairs {high : Nat} (hp : 0 < high) (hh : high < 100)
    {others : List Text} (h : Parts word) :
    read (words (belowHundred high) ++ word :: others) = none := by
  obtain ⟨room, hro, hr⟩ := read_belowHundred hp hh (fresh 0 (10 ^ 21)) rfl
  have hst : Reading.step ⟨0, 0 + high, room, 10 ^ 21⟩ word = none := by
    rw [Reading.step, if_neg h.2.1, h.1]
    cases hs : smallValue word with
    | none => rfl
    | some small => exact if_neg (not_lt.mpr (hro.trans (h.2.2 small hs)))
  have hf : (words (belowHundred high) ++ word :: others).foldlM Reading.step
      (fresh 0 (10 ^ 21)) = none := by
    rw [foldlM_append, hr]
    show foldlM Reading.step _ (word :: others) = none
    rw [foldlM_cons]
    exact congrArg (· >>= _) hst
  have hlen : words (belowHundred high) ≠ [] := by
    intro hn
    rw [hn] at hr
    obtain ⟨-, hg, -⟩ := Reading.mk.inj (Option.some.inj hr)
    omega
  have ht : words (belowHundred high) ++ word :: others ≠ ["zero".toList] := by
    intro hz
    have hl := congrArg length hz
    rw [length_append, length_cons, length_singleton] at hl
    have := length_pos_of_ne_nil hlen
    omega
  rw [read, if_neg ht, if_neg (by simp), hf]
  rfl

theorem readSmall_apart (h : Parts word) (hr : room ≤ 10) (v : Nat) (others : List Text) :
    (match smallValue word with
      | some more => if more.1 < room then (v + more.1, others) else (v, word :: others)
      | none => (v, word :: others)) = (v, word :: others) := by
  cases hs : smallValue word with
  | none => rfl
  | some small => exact if_neg (not_lt.mpr (hr.trans (h.2.2 small hs)))

theorem readSmall_belowHundred {high : Nat} (hp : 0 < high) (hh : high < 100)
    {others : List Text} (h : Parts word) :
    readSmall (words (belowHundred high) ++ word :: others) = some (high, word :: others) := by
  rw [words_belowHundred hh]
  split_ifs with hs htens
  · rw [singleton_append, readSmall, (step_one high hs hp).2.1]
    exact congrArg some (readSmall_apart h (Nat.zero_le 10) high others)
  · have hten : 10 * (high / 10) = high := by omega
    rw [singleton_append, readSmall, (step_ten (high / 10) (by omega) (by omega)).2.1, hten]
    exact congrArg some (readSmall_apart h le_rfl high others)
  · have hsum : 10 * (high / 10) + high % 10 = high := by omega
    rw [cons_append, singleton_append, readSmall,
      (step_ten (high / 10) (by omega) (by omega)).2.1, Option.map_some]
    simp only [(step_one (high % 10) (by omega) (by omega)).2.1]
    rw [if_pos (by omega), hsum]

theorem readYear_yearStr {digits : Text} (hlen : digits.length = 4)
    (hd : digits.all Char.isDigit = true) :
    readYear (words (yearStr digits)) = some (Nat.ofDigitChars 10 digits 0) := by
  have hv := ofDigitChars_lt hd 0
  rw [hlen] at hv
  have hne : digits ≠ [] := ne_nil_of_length_pos (by omega)
  rw [yearStr, parseU64_digits hne hd (by omega)]
  generalize Nat.ofDigitChars 10 digits 0 = value at hv
  show readYear (words (if value / 100 = 0 ∨ (value / 100 % 10 = 0 ∧ value % 100 < 10) ∨
    100 ≤ value / 100 then _ else _)) = _
  split_ifs with hwh
  · rw [readYear, read_cardinal (by omega)]
    rfl
  · have hh : 0 < value / 100 ∧ value / 100 < 100 := by omega
    rw [words_space, words_cardinal_small hh.2, readYear, lowWords]
    split_ifs with hz hlow
    · obtain ⟨room, -, hr⟩ := read_belowHundred hh.1 hh.2 (fresh 0 (10 ^ 21)) rfl
      have hg : 0 < 0 + value / 100 ∧ 0 + value / 100 < 100 := by omega
      have hhun := hr.append (Reads.hundred hg.1 hg.2)
      rw [words_vocabulary _ hundred_vocabulary, read_of_reads (by simp) hhun]
      show some (0 + (0 + value / 100) * 100) = some value
      congr 1
      omega
    · have hoh : words ("oh-".toList ++ cardinal (value % 100)) =
          "oh".toList :: words (belowHundred (value % 100)) := by
        rw [show "oh-".toList = "oh".toList ++ ['-'] by decide, append_assoc,
          singleton_append, words_append (by decide), words_cardinal_small (by omega),
          show words "oh".toList = ["oh".toList] by decide]
        rfl
      have hdig : read (words (belowHundred (value % 100))) = some (value % 100) := by
        rw [← words_cardinal_small (by omega)]
        exact read_cardinal (by omega)
      rw [hoh, read_pairs hh.1 hh.2 parts_oh, readPairs, readSmall_belowHundred hh.1 hh.2 parts_oh]
      show (readLow ("oh".toList :: _) >>= fun low => some (100 * (value / 100) + low)) = _
      rw [readLow, if_pos rfl, hdig, Option.filter_some, if_pos (by simpa using hlow)]
      show some (100 * (value / 100) + value % 100) = some value
      rw [Nat.div_add_mod]
    · obtain ⟨word, others, hw, hp, hwo⟩ :=
        words_of_two_digits (n := value % 100) (by omega) (by omega)
      have hre : read (word :: others) = some (value % 100) := by
        rw [← hw, ← words_cardinal_small (by omega)]
        exact read_cardinal (by omega)
      have hne : ∀ word ∈ vocabulary, word ≠ "oh".toList := by decide
      rw [words_cardinal_small (by omega), hw, read_pairs hh.1 hh.2 hp, readPairs,
        readSmall_belowHundred hh.1 hh.2 hp]
      show (readLow (word :: others) >>= fun low => some (100 * (value / 100) + low)) = _
      rw [readLow, if_neg (hne word hwo), hre, Option.filter_some, if_pos (by simpa using by omega)]
      show some (100 * (value / 100) + value % 100) = some value
      rw [Nat.div_add_mod]

end LocalAi.Speech
