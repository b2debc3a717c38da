import LocalAi.Speech.Spelled

/-!
# Spelled decimals

A decimal is spelled from what a float prints of it, so in words of its digits only where the float
prints it positionally.

* `Decimal`: digits with a point between them.
* `Float64.Documented`: how `{:?}` prints what was parsed from a decimal of 15 significant digits.
* `Decimal.Says`: what the words of a decimal should be.
* `spelled_numbers_iff`: all numbers denote their value, the decimals if and only if they are zero or
  at least 1e-4.
-/

open List

namespace LocalAi.Speech

/-- A decimal text: digits on both sides of a point. -/
structure Decimal where
  int : Text
  frac : Text
  int_ne : int ≠ []
  frac_ne : frac ≠ []
  int_digits : int.all Char.isDigit = true
  frac_digits : frac.all Char.isDigit = true

namespace Decimal

variable (d : Decimal)

def text : Text := d.int ++ '.' :: d.frac

/-- The significant digits, from the first that is not zero on. -/
def significant : Text := (d.int ++ d.frac).dropWhile (· = '0')

/-- The value, in units of its last digit. -/
def units : Nat := Nat.ofDigitChars 10 (d.int ++ d.frac) 0

def whole : Nat := Nat.ofDigitChars 10 d.int 0

/-- The digits of the fraction less trailing zeros, or one zero. -/
def shown : Text :=
  if d.frac.rdropWhile (· = '0') = [] then ['0'] else d.frac.rdropWhile (· = '0')

def Printable : Prop := d.units = 0 ∨ 10 ^ d.frac.length ≤ d.units * 10 ^ 4

instance : Decidable d.Printable := inferInstanceAs (Decidable (_ ∨ _))

def positional : Text := Nat.toDigits 10 d.whole ++ '.' :: d.shown

def digitWord (c : Char) : Text := one (c.toNat - '0'.toNat)

/-- The words of a decimal: the cardinal of its integer part, "point" and the digits shown. -/
def Says {F : Type} (float : Float64 F) : Prop :=
  words (float.floatStr d.text) =
    words (cardinal d.whole) ++ "point".toList :: d.shown.map digitWord

end Decimal

/-- Scientific notation of a value below one. -/
def Scientific (text : Text) : Prop :=
  ∃ first more exponent, first.isDigit = true ∧ first ≠ '0' ∧ more.all Char.isDigit = true ∧
    exponent.all Char.isDigit = true ∧
    text = first :: ((if more = [] then [] else '.' :: more) ++ "e-".toList ++ exponent)

/-- A float prints the shortest decimal that is parsed to it, and of 15 significant digits no others
are: positionally if it is zero or at least 1e-4 (and less than 1e16), in scientific notation
otherwise, unless it is rounded to zero. -/
structure Float64.Documented {F : Type} (float : Float64 F) : Prop where
  positional : ∀ d : Decimal, d.significant.length ≤ 15 → d.Printable →
    ∃ value, float.parse d.text = some value ∧ float.debug value = d.positional
  scientific : ∀ d : Decimal, d.significant.length ≤ 15 → ¬d.Printable →
    ∃ value, float.parse d.text = some value ∧
      (Scientific (float.debug value) ∨ float.debug value = "0.0".toList)

/-! ### Values -/

theorem ofDigitChars_dropWhile (digits : Text) :
    Nat.ofDigitChars 10 (digits.dropWhile (· = '0')) 0 = Nat.ofDigitChars 10 digits 0 := by
  induction digits with
  | nil => rfl
  | cons c digits ih =>
    rw [dropWhile_cons]
    split_ifs with hz
    · have hc : c = '0' := of_decide_eq_true hz
      rw [ih, Nat.ofDigitChars_cons, hc]
      rfl
    · rfl

theorem le_ofDigitChars : ∀ (digits : Text) (init : Nat),
    init * 10 ^ digits.length ≤ Nat.ofDigitChars 10 digits init := by
  intro digits
  induction digits with
  | nil =>
    intro init
    simp
  | cons c digits ih =>
    intro init
    rw [Nat.ofDigitChars_cons, length_cons, Nat.pow_succ']
    calc init * (10 * 10 ^ digits.length)
        = 10 * init * 10 ^ digits.length := by ring
      _ ≤ (10 * init + (c.toNat - '0'.toNat)) * 10 ^ digits.length :=
          Nat.mul_le_mul_right _ (Nat.le_add_right _ _)
      _ ≤ _ := ih _

namespace Decimal

variable {d : Decimal}

theorem significant_digits (d : Decimal) : ∀ c ∈ d.significant, c.isDigit = true := by
  intro c hc
  obtain hc | hc := mem_append.mp ((dropWhile_sublist _).subset hc)
  · exact all_eq_true.mp d.int_digits c hc
  · exact all_eq_true.mp d.frac_digits c hc

theorem units_lt (h : d.significant.length ≤ 15) : d.units < 10 ^ 15 := by
  calc d.units = Nat.ofDigitChars 10 d.significant 0 := (ofDigitChars_dropWhile _).symm
    _ < (0 + 1) * 10 ^ d.significant.length :=
        ofDigitChars_lt (all_eq_true.mpr d.significant_digits) 0
    _ ≤ 10 ^ 15 := by
      rw [Nat.zero_add, Nat.one_mul]
      exact Nat.pow_le_pow_right (by decide) h

theorem whole_mul_le (d : Decimal) : d.whole * 10 ^ d.frac.length ≤ d.units := by
  rw [units, Nat.ofDigitChars_append]
  exact le_ofDigitChars _ _

theorem whole_lt (h : d.significant.length ≤ 15) : d.whole < 2 ^ 64 := by
  have hle : d.whole ≤ d.whole * 10 ^ d.frac.length :=
    Nat.le_mul_of_pos_right _ (Nat.pow_pos (by decide))
  have hu := units_lt h
  have hm := d.whole_mul_le
  omega

/-- A value that is not printed positionally is below one. -/
theorem whole_eq_zero (h : ¬d.Printable) : d.whole = 0 := by
  obtain ⟨hp, hlt⟩ := not_or.mp h
  have hm := d.whole_mul_le
  by_contra hne
  have hle : 10 ^ d.frac.length ≤ d.whole * 10 ^ d.frac.length :=
    Nat.le_mul_of_pos_left _ (Nat.pos_of_ne_zero hne)
  omega

theorem shown_digits (d : Decimal) : d.shown.all Char.isDigit = true := by
  rw [shown]
  split_ifs
  · rfl
  · exact all_eq_true.mpr fun c hc =>
      all_eq_true.mp d.frac_digits c (( rdropWhile_prefix _ _).subset hc)

/-- A value below one that is not zero shows more than one zero. -/
theorem shown_ne_zero (h : ¬d.Printable) : d.shown ≠ ['0'] := by
  rw [shown]
  split_ifs with hno
  · exfalso
    refine h (.inl ?_)
    rw [units, Nat.ofDigitChars_append, show Nat.ofDigitChars 10 d.int 0 = 0 from whole_eq_zero h]
    obtain ⟨n, hn⟩ : ∃ n, d.frac = replicate n '0' := by
      refine ⟨d.frac.length, eq_replicate_iff.mpr ⟨rfl, fun c hc => ?_⟩⟩
      exact of_decide_eq_true (rdropWhile_eq_nil_iff.mp hno c hc)
    rw [hn, Nat.ofDigitChars_replicate_zero, Nat.mul_zero]
  · intro hz
    have hl := rdropWhile_last_not (· = '0') d.frac hno
    simp only [hz, getLast_singleton] at hl
    exact hl rfl

end Decimal

/-! ### What is said -/

variable {c : Char}

theorem words_one (h : c.isDigit = true) :
    words (one (c.toNat - '0'.toNat)) = [Decimal.digitWord c] :=
  words_vocabulary _ (one_vocabulary _ ((digit_lt h).trans (by decide)))

theorem words_digitWords (text : Text) :
    words (digitWords text) = (text.filter Char.isDigit).map Decimal.digitWord := by
  rw [digitWords, words_intercalate, flatMap_map, map_eq_flatMap]
  exact flatMap_congr fun c hc => words_one (mem_filter.mp hc).2

theorem words_point (int frac : Text) : words (int ++ " point ".toList ++ digitWords frac) =
      words int ++ "point".toList :: (frac.filter Char.isDigit).map Decimal.digitWord := by
  have hp : int ++ " point ".toList ++ digitWords frac =
      int ++ ' ' :: ("point".toList ++ ' ' :: digitWords frac) := by simp
  rw [hp, words_space, words_space, words_digitWords,
    show words "point".toList = ["point".toList] by decide]
  rfl

theorem dropWhile_minus (h : c.isDigit = true) (rest : Text) :
    (c :: rest).dropWhile (· = '-') = c :: rest := by
  refine dropWhile_cons_of_neg ?_
  rintro hm
  rw [of_decide_eq_true hm] at h
  exact absurd h (by decide)

section

variable {F : Type} {float : Float64 F} {d : Decimal}

variable {value : F}

theorem floatStr_parts (int frac : Text) {text : Text} (hpa : float.parse text = some value)
    (hp : (Lib.splitOnce ['.'] (float.debug value)).getD (float.debug value, ['0']) =
      (int, frac)) : words (float.floatStr text) =
      words (cardinalStr (int.dropWhile (· = '-'))) ++
        "point".toList :: (frac.filter Char.isDigit).map Decimal.digitWord := by
  rw [Float64.floatStr, hpa]
  simp only [hp]
  exact words_point _ _

theorem floatStr_point (int frac : Text) {text : Text}
    (hp : float.parse text = some value) (hd : float.debug value = int ++ '.' :: frac) (hint : int.all Char.isDigit = true)
    (hne : int ≠ []) : words (float.floatStr text) =
      words (cardinalStr int) ++ "point".toList :: (frac.filter Char.isDigit).map
        Decimal.digitWord := by
  have hpo : '.' ∉ int := fun hm =>
    absurd (all_eq_true.mp hint _ hm) (by decide)
  obtain ⟨c, rest, rfl⟩ := exists_cons_of_ne_nil hne
  rw [all_cons, Bool.and_eq_true] at hint
  rw [floatStr_parts (c :: rest) frac hp, dropWhile_minus hint.1]
  rw [hd, Lib.splitOnce_singleton_eq_some.mpr ⟨rfl, hpo⟩]
  rfl

/-- **A decimal that is printed positionally** is said. -/
theorem says_of_positional (hs : d.significant.length ≤ 15)
    (hp : float.parse d.text = some value) (hd : float.debug value = d.positional) :
    d.Says float := by
  have hdi : (Nat.toDigits 10 d.whole).all Char.isDigit = true :=
    all_eq_true.mpr fun c hc => Nat.isDigit_of_mem_toDigits (by decide) (by decide) hc
  rw [Decimal.Says, floatStr_point _ _ hp hd hdi Nat.toDigits_ne_nil, cardinalStr,
    parseU64_decimal (Decimal.whole_lt hs),
    filter_eq_self.mpr (all_eq_true.mp d.shown_digits)]

theorem digitWord_ne_zero : ∀ n < 10, 0 < n → one n ≠ "zero".toList := by decide

theorem digitWord_first (h : c.isDigit = true) (hne : c ≠ '0') :
    Decimal.digitWord c ≠ "zero".toList := by
  refine digitWord_ne_zero _ (digit_lt h) (Nat.pos_of_ne_zero fun hz => hne ?_)
  have hle : 48 ≤ c.toNat := (Char.isDigit_iff_toNat.mp h).1
  have heq : c.toNat - 48 = 0 := hz
  exact Char.toNat_inj.mp (show c.toNat = 48 by omega)

theorem words_cardinalStr_digit (h : c.isDigit = true) :
    words (cardinalStr [c]) = [Decimal.digitWord c] := by
  have hlt := digit_lt h
  have hv : Nat.ofDigitChars 10 [c] 0 = c.toNat - '0'.toNat := by
    rw [Nat.ofDigitChars_cons]
    exact Nat.zero_add _
  have ha : [c].all Char.isDigit = true := by
    rw [all_cons, h]
    rfl
  rw [cardinalStr, parseU64_digits (cons_ne_nil c []) ha (by omega), hv]
  rw [words_cardinal_small (by omega), words_belowHundred (by omega), if_pos (by omega)]
  rfl

/-- In scientific notation the first digit is said first, and it is not zero. -/
theorem floatStr_scientific {text : Text} (hp : float.parse text = some value)
    (h : Scientific (float.debug value)) :
    ∃ word, (words (float.floatStr text)).head? = some word ∧ word ≠ "zero".toList := by
  obtain ⟨first, more, exponent, hf, hz, hmo, hexp, ht⟩ := h
  refine ⟨Decimal.digitWord first, ?_, digitWord_first hf hz⟩
  by_cases hn : more = []
  · rw [if_pos hn, nil_append] at ht
    have hpo : '.' ∉ float.debug value := by
      have hd {c : Char} (hc : c.isDigit = true) : '.' ≠ c := by
        rintro rfl
        exact absurd hc (by decide)
      rw [ht, mem_cons, mem_append]
      rintro (hc | hc | hc)
      · exact hd hf hc
      · revert hc
        decide
      · exact hd (all_eq_true.mp hexp _ hc) rfl
    have hp' : parseU64 (float.debug value) = none := by
      have hs : (float.debug value).head? ≠ some '+' := by
        rw [ht]
        rintro hs
        rw [Option.some.inj hs] at hf
        exact absurd hf (by decide)
      rw [parseU64, if_neg hs, if_neg]
      rintro ⟨-, ha, -⟩
      have he := all_eq_true.mp ha 'e' (by rw [ht]; simp)
      exact absurd he (by decide)
    have hm : (float.debug value).dropWhile (· = '-') = float.debug value := by
      rw [ht]
      exact dropWhile_minus hf _
    rw [floatStr_parts (float.debug value) ['0'] hp, hm, cardinalStr,
      hp', words_digitWords, ht, filter_cons_of_pos hf]
    · rfl
    rw [Lib.splitOnce_singleton_eq_none.mpr hpo]
    rfl
  · rw [if_neg hn] at ht
    have ha : [first].all Char.isDigit = true := by
      rw [all_cons, hf]
      rfl
    rw [floatStr_point [first] _ hp ht ha (cons_ne_nil _ _), words_cardinalStr_digit hf]
    rfl

/-- **Any other decimal** is not. -/
theorem not_says_of_scientific (hp : float.parse d.text = some value) (hpr : ¬d.Printable)
    (h : Scientific (float.debug value) ∨ float.debug value = "0.0".toList) : ¬d.Says float := by
  intro hsa
  rw [Decimal.Says, Decimal.whole_eq_zero hpr,
    show words (cardinal 0) = ["zero".toList] by decide] at hsa
  obtain h | h := h
  · obtain ⟨word, hw, hne⟩ := floatStr_scientific hp h
    rw [hsa] at hw
    exact hne (Option.some.inj hw).symm
  · rw [floatStr_point ['0'] ['0'] hp h (by decide) (by decide),
      show words (cardinalStr ['0']) = ["zero".toList] by decide] at hsa
    have hs : ['0'].map Decimal.digitWord = d.shown.map Decimal.digitWord :=
      (cons.inj (cons.inj hsa).2).2
    obtain ⟨c, hc, hwo⟩ : ∃ c, d.shown = [c] ∧ Decimal.digitWord c = "zero".toList := by
      cases hca : d.shown with
      | nil =>
        rw [hca] at hs
        cases hs
      | cons c rest =>
        rw [hca] at hs
        cases rest with
        | nil => exact ⟨c, rfl, (cons.inj hs).1.symm⟩
        | cons => cases (cons.inj hs).2
    have hd : c.isDigit = true :=
      all_eq_true.mp d.shown_digits c (hc ▸ mem_singleton_self c)
    refine Decimal.shown_ne_zero hpr (hc.trans (congrArg (fun x => [x]) ?_))
    by_contra hne
    exact digitWord_first hd hne hwo

end

/-- **Spelled numbers denote their value**, the decimals of up to 15 significant digits if and only
if they are zero or at least 1e-4. -/
theorem spelled_numbers_iff {F : Type} {float : Float64 F} (h : float.Documented) :
    (∀ n < 2 ^ 64, read (words (cardinal n)) = some n) ∧
    (∀ n < 2 ^ 64, readOrdinal (words (ordinalStr (Nat.toDigits 10 n))) = some n) ∧
    (∀ digits : Text, digits.length = 4 → digits.all Char.isDigit = true →
      readYear (words (yearStr digits)) = some (Nat.ofDigitChars 10 digits 0)) ∧
    ∀ d : Decimal, d.significant.length ≤ 15 → (d.Says float ↔ d.Printable) := by
  refine ⟨fun n hn => read_cardinal hn, fun n hn => readOrdinal_ordinalStr hn,
    fun digits hl hdi => readYear_yearStr hl hdi, fun d hs => ?_⟩
  constructor
  · intro hsa
    by_contra hp
    obtain ⟨value, hpa, hd⟩ := h.scientific d hs hp
    exact not_says_of_scientific hpa hp hd hsa
  · intro hp
    obtain ⟨value, hpa, hd⟩ := h.positional d hs hp
    exact says_of_positional hs hpa hd

/-! ### A float that is exact -/

def Decimal.scientific (d : Decimal) : Text :=
  let digits := d.significant.rdropWhile (· = '0')
  digits.headD '0' :: ((if digits.tail = [] then [] else '.' :: digits.tail) ++ "e-".toList ++
    Nat.toDigits 10 ((d.frac.takeWhile (· = '0')).length + 1))

def exactFloat : Float64 Decimal where
  parse text := (Lib.splitOnce ['.'] text).bind fun parts =>
    if h : parts.1 ≠ [] ∧ parts.2 ≠ [] ∧ parts.1.all Char.isDigit = true ∧
        parts.2.all Char.isDigit = true then
      some ⟨parts.1, parts.2, h.1, h.2.1, h.2.2.1, h.2.2.2⟩
    else none
  debug d := if d.Printable then d.positional else d.scientific

theorem exactFloat_parse (d : Decimal) : exactFloat.parse d.text = some d := by
  have hp : '.' ∉ d.int := fun hm =>
    absurd (all_eq_true.mp d.int_digits _ hm) (by decide)
  show (Lib.splitOnce ['.'] (d.int ++ '.' :: d.frac)).bind _ = _
  rw [Lib.splitOnce_singleton_eq_some.mpr ⟨rfl, hp⟩]
  exact dif_pos ⟨d.int_ne, d.frac_ne, d.int_digits, d.frac_digits⟩

theorem scientific_scientific {d : Decimal} (h : ¬d.Printable) : Scientific d.scientific := by
  have hd := d.significant_digits
  cases hca : d.significant with
  | nil =>
    refine absurd (.inl ?_) h
    rw [Decimal.units, ← ofDigitChars_dropWhile, show (d.int ++ d.frac).dropWhile _ = [] from hca]
    rfl
  | cons first rest =>
    rw [hca] at hd
    have hf : first ≠ '0' := by
      have hh := head?_dropWhile_not (· = '0') (d.int ++ d.frac)
      rw [show (d.int ++ d.frac).dropWhile _ = first :: rest from hca] at hh
      simpa using hh
    obtain ⟨more, hm, hs⟩ : ∃ more, (first :: rest).rdropWhile (· = '0') = first :: more ∧
        more <+: rest := by
      have hp := rdropWhile_prefix (· = '0') (first :: rest)
      cases hk : (first :: rest).rdropWhile (· = '0') with
      | nil =>
        have ha := rdropWhile_eq_nil_iff.mp hk first mem_cons_self
        exact absurd (of_decide_eq_true ha) hf
      | cons c more =>
        rw [hk] at hp
        obtain ⟨rfl, hs⟩ := cons_prefix_cons.mp hp
        exact ⟨more, rfl, hs⟩
    refine ⟨first, more, Nat.toDigits 10 ((d.frac.takeWhile (· = '0')).length + 1),
      hd first mem_cons_self, hf, ?_, ?_, ?_⟩
    · exact all_eq_true.mpr fun c hc =>
        hd c (mem_cons_of_mem _ (hs.subset hc))
    · exact all_eq_true.mpr fun c hc =>
        Nat.isDigit_of_mem_toDigits (b := 10) (by decide) (by decide) hc
    · rw [Decimal.scientific, hca, hm]
      rfl

theorem exactFloat_documented : exactFloat.Documented where
  positional d _ h := ⟨d, exactFloat_parse d, if_pos h⟩
  scientific d _ h := ⟨d, exactFloat_parse d, .inl (by
    rw [show exactFloat.debug d = d.scientific from if_neg h]
    exact scientific_scientific h)⟩

theorem exact_numbers_spelled : (∀ n < 2 ^ 64, read (words (cardinal n)) = some n) ∧
    (∀ n < 2 ^ 64, readOrdinal (words (ordinalStr (Nat.toDigits 10 n))) = some n) ∧
    (∀ digits : Text, digits.length = 4 → digits.all Char.isDigit = true →
      readYear (words (yearStr digits)) = some (Nat.ofDigitChars 10 digits 0)) ∧
    ∀ d : Decimal, d.significant.length ≤ 15 → (d.Says exactFloat ↔ d.Printable) :=
  spelled_numbers_iff exactFloat_documented

/-- `0.00001`. -/
def hundredThousandth : Decimal :=
  ⟨['0'], "00001".toList, by decide, by decide, by decide, by decide⟩

/-- Its digit and its exponent are said, and no fraction. -/
theorem small_decimal_misread : exactFloat.Documented ∧ hundredThousandth.significant.length ≤ 15 ∧
    exactFloat.floatStr "0.00001".toList = "one five point zero".toList ∧
    ¬hundredThousandth.Says exactFloat :=
  ⟨exactFloat_documented, by decide, by decide, by
    rw [Decimal.Says]
    decide⟩

end LocalAi.Speech
