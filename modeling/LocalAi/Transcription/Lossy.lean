import LocalAi.Transcription.Tokens

/-!
# Decoding bytes in parts

* `encode_shape`: the encoding of a character, by its length.
* `fromUtf8Lossy_step`: what is decoded is a character, or a replacement character, and the rest.
* `GoesOn`: bytes that end inside a character which other bytes go on with.
* `fromUtf8Lossy_append`: otherwise the two parts are decoded one after the other.
* `replacements_lt`: where one does go on, the parts have more replacement characters.
-/

open List

namespace LocalAi.Transcription

open Workspace

/-! ### Encodings -/

theorem isContinuation_iff {b : UInt8} :
    isContinuation b = true ↔ 128 ≤ b.toNat ∧ b.toNat ≤ 191 := by
  rw [isContinuation, decide_eq_true_iff, UInt8.le_iff_toNat_le, UInt8.le_iff_toNat_le]
  rfl

theorem mayFollow_iff {b c : UInt8} : mayFollow b c = true ↔
    128 ≤ c.toNat ∧ c.toNat ≤ 191 ∧ 224 ≤ b.toNat ∧ b.toNat ≤ 244 ∧
      (b.toNat = 224 → 160 ≤ c.toNat) ∧ (b.toNat = 237 → c.toNat ≤ 159) ∧
      (b.toNat = 240 → 144 ≤ c.toNat) ∧ (b.toNat = 244 → c.toNat ≤ 143) := by
  have heq : ∀ n : UInt8, b = n ↔ b.toNat = n.toNat := fun n => UInt8.toNat_inj.symm
  rw [mayFollow]
  split_ifs with h h h h <;>
    simp only [heq, UInt8.reduceToNat, Bool.and_eq_true, decide_eq_true_iff, isContinuation_iff,
      UInt8.le_iff_toNat_le] at * <;> omega

/-- The encoding of a character of three bytes. -/
structure Three (p q r : UInt8) : Prop where
  first : p.toNat < 240
  second : mayFollow p q = true
  third : isContinuation r = true

/-- The encoding of a character of four bytes. -/
structure Four (p q r s : UInt8) : Prop where
  first : 240 ≤ p.toNat
  second : mayFollow p q = true
  third : isContinuation r = true
  fourth : isContinuation s = true

theorem encode_shape (c : Char) : (∃ p : UInt8, String.utf8EncodeChar c = [p] ∧ p.toNat < 128) ∨
    (∃ p q : UInt8, String.utf8EncodeChar c = [p, q] ∧ (192 ≤ p.toNat ∧ p.toNat < 224) ∧
      isContinuation q = true) ∨ (∃ p q r, String.utf8EncodeChar c = [p, q, r] ∧ Three p q r) ∨
    ∃ p q r s, String.utf8EncodeChar c = [p, q, r, s] ∧ Four p q r s := by
  have hv : c.val.toNat < 0xd800 ∨ 0xdfff < c.val.toNat ∧ c.val.toNat < 0x110000 := c.valid
  rw [String.utf8EncodeChar]
  split_ifs with h₁ h₂ h₃
  · refine .inl ⟨_, rfl, ?_⟩
    rw [UInt8.toNat_ofNat']
    omega
  · refine .inr (.inl ⟨_, _, rfl, ?_, ?_⟩)
    · rw [UInt8.toNat_ofNat']
      omega
    · rw [isContinuation_iff, UInt8.toNat_ofNat']
      omega
  · refine .inr (.inr (.inl ⟨_, _, _, rfl, ?_, ?_, ?_⟩))
    · rw [UInt8.toNat_ofNat']
      omega
    · rw [mayFollow_iff, UInt8.toNat_ofNat', UInt8.toNat_ofNat']
      omega
    · rw [isContinuation_iff, UInt8.toNat_ofNat']
      omega
  · refine .inr (.inr (.inr ⟨_, _, _, _, rfl, ?_, ?_, ?_, ?_⟩))
    · rw [UInt8.toNat_ofNat']
      omega
    · rw [mayFollow_iff, UInt8.toNat_ofNat', UInt8.toNat_ofNat']
      omega
    · rw [isContinuation_iff, UInt8.toNat_ofNat']
      omega
    · rw [isContinuation_iff, UInt8.toNat_ofNat']
      omega

theorem exists_char {n : Nat} (h : n < 0xd800 ∨ 0xdfff < n ∧ n < 0x110000) :
    ∃ c : Char, c.val.toNat = n := by
  have hn : (UInt32.ofNat n).toNat = n := by
    refine UInt32.toNat_ofNat_of_lt' ?_
    show n < 4294967296
    omega
  refine ⟨⟨UInt32.ofNat n, ?_⟩, hn⟩
  show (UInt32.ofNat n).toNat < 0xd800 ∨ 0xdfff < (UInt32.ofNat n).toNat ∧ _
  rw [hn]
  exact h

theorem Three.exists_char {p q r : UInt8} (h : Three p q r) :
    ∃ c, String.utf8EncodeChar c = [p, q, r] := by
  have hp := h.first
  have hq := mayFollow_iff.mp h.second
  have hr := isContinuation_iff.mp h.third
  obtain ⟨c, hc⟩ := @Transcription.exists_char
    ((p.toNat - 224) * 4096 + (q.toNat - 128) * 64 + (r.toNat - 128)) (by omega)
  refine ⟨c, ?_⟩
  rw [String.utf8EncodeChar]
  rw [hc, if_neg (by omega), if_neg (by omega), if_pos (by omega)]
  simp only [cons.injEq, ← UInt8.toNat_inj, UInt8.toNat_ofNat', and_true]
  omega

theorem Four.exists_char {p q r s : UInt8} (h : Four p q r s) :
    ∃ c, String.utf8EncodeChar c = [p, q, r, s] := by
  have hp := h.first
  have hq := mayFollow_iff.mp h.second
  have hr := isContinuation_iff.mp h.third
  have hs := isContinuation_iff.mp h.fourth
  obtain ⟨c, hc⟩ := @Transcription.exists_char ((p.toNat - 240) * 262144 +
    (q.toNat - 128) * 4096 + (r.toNat - 128) * 64 + (s.toNat - 128)) (by omega)
  refine ⟨c, ?_⟩
  rw [String.utf8EncodeChar]
  rw [hc, if_neg (by omega), if_neg (by omega), if_neg (by omega)]
  simp only [cons.injEq, ← UInt8.toNat_inj, UInt8.toNat_ofNat', and_true]
  omega

variable {c : Char} {p x : UInt8} {b : Bytes}

/-- Bytes behind the first of a character continue it, and the first does not. -/
theorem encode_cons {more : Bytes} (h : String.utf8EncodeChar c = p :: more) :
    isContinuation p = false ∧ ∀ y ∈ more, isContinuation y = true := by
  have hno : ∀ {p : UInt8}, p.toNat < 128 ∨ 191 < p.toNat → isContinuation p = false := by
    intro p hp
    rw [Bool.eq_false_iff, Ne, isContinuation_iff]
    omega
  obtain ⟨p', he, hp⟩ | ⟨p', q, he, hp, hq⟩ | ⟨p', q, r, he, h3⟩ | ⟨p', q, r, s, he, h4⟩ :=
    encode_shape c
  all_goals
    rw [he] at h
    obtain ⟨rfl, rfl⟩ := cons.inj h
  · exact ⟨hno (.inl hp), fun _ hy => (nomatch hy)⟩
  · refine ⟨hno (by omega), ?_⟩
    simpa using hq
  · have hf := mayFollow_iff.mp h3.second
    refine ⟨hno (by omega), ?_⟩
    simp only [forall_mem_cons, not_mem_nil, false_implies, implies_true, and_true]
    exact ⟨isContinuation_iff.mpr ⟨hf.1, hf.2.1⟩, h3.third⟩
  · have hf := mayFollow_iff.mp h4.second
    refine ⟨hno (by omega), ?_⟩
    simp only [forall_mem_cons, not_mem_nil, false_implies, implies_true, and_true]
    exact ⟨isContinuation_iff.mpr ⟨hf.1, hf.2.1⟩, h4.third, h4.fourth⟩

/-! ### Units -/

/-- The character that bytes begin with. -/
def firstChar? (bytes : Bytes) : Option Char := bytes.toByteArray.utf8DecodeChar? 0

variable {a bytes : Bytes}

theorem firstChar?_eq_some : firstChar? bytes = some c ↔ String.utf8EncodeChar c <+: bytes := by
  constructor
  · intro h
    obtain ⟨rest, hr⟩ := ByteArray.exists_of_utf8DecodeChar?_eq_some h
    have hl : rest = rest.data.toList.toByteArray :=
      ByteArray.ext data_toByteArray.symm
    rw [hl, ← toByteArray_append] at hr
    exact ⟨_, (toByteArray_inj.mp hr).symm⟩
  · rintro ⟨rest, rfl⟩
    rw [firstChar?, toByteArray_append]
    exact ByteArray.utf8DecodeChar?_utf8EncodeChar_append

theorem char_unique {d : Char} (hc : String.utf8EncodeChar c <+: bytes)
    (hd : String.utf8EncodeChar d <+: bytes) : c = d :=
  Option.some.inj ((firstChar?_eq_some.mpr hc).symm.trans (firstChar?_eq_some.mpr hd))

/-- How many bytes the first decoded character stands for. -/
def unitSize (bytes : Bytes) : Nat :=
  match firstChar? bytes with
  | some c => c.utf8Size
  | none => maximalSubpart bytes

def unitChar (bytes : Bytes) : Char := (firstChar? bytes).getD replacementCharacter

theorem unitSize_of_some (h : firstChar? bytes = some c) : unitSize bytes = c.utf8Size := by
  rw [unitSize, h]

theorem unitSize_of_none (h : firstChar? bytes = none) : unitSize bytes = maximalSubpart bytes := by
  rw [unitSize, h]

theorem maximalSubpart_cases (bytes : Bytes) : maximalSubpart bytes = 1 ∨
    (maximalSubpart bytes = 2 ∧ mayFollow (bytes.getD 0 0) (bytes.getD 1 0) = true) ∨
    (maximalSubpart bytes = 3 ∧ mayFollow (bytes.getD 0 0) (bytes.getD 1 0) = true ∧
      240 ≤ (bytes.getD 0 0).toNat ∧ isContinuation (bytes.getD 2 0) = true) := by
  rw [maximalSubpart]
  split_ifs with h₁ h₂
  · exact .inr (.inr ⟨rfl, h₁, UInt8.le_iff_toNat_le.mp h₂.1, h₂.2⟩)
  · exact .inr (.inl ⟨rfl, h₁⟩)
  · exact .inl rfl

theorem unitSize_pos (bytes : Bytes) : 0 < unitSize bytes := by
  rw [unitSize]
  split
  · exact Char.utf8Size_pos _
  · obtain h | ⟨h, -⟩ | ⟨h, -⟩ := maximalSubpart_cases bytes <;> omega

theorem not_continuation_zero : isContinuation 0 = false := by decide

theorem not_mayFollow_zero (b : UInt8) : mayFollow b 0 = false := by
  rw [Bool.eq_false_iff, Ne, mayFollow_iff]
  simp

theorem unitSize_le (h : bytes ≠ []) : unitSize bytes ≤ bytes.length := by
  cases hfst : firstChar? bytes with
  | some =>
    rw [unitSize_of_some hfst, ← String.length_utf8EncodeChar]
    exact (firstChar?_eq_some.mp hfst).length_le
  | none =>
    rw [unitSize_of_none hfst]
    match bytes, h with
    | [p], _ =>
      obtain hs | ⟨-, hf⟩ | ⟨-, hf, -⟩ := maximalSubpart_cases [p]
      · exact hs.le
      · rw [show [p].getD 1 0 = 0 from rfl, not_mayFollow_zero] at hf
        cases hf
      · rw [show [p].getD 1 0 = 0 from rfl, not_mayFollow_zero] at hf
        cases hf
    | [p, q], _ =>
      obtain hs | ⟨hs, -⟩ | ⟨-, -, -, ht⟩ := maximalSubpart_cases [p, q]
      · rw [hs]
        exact Nat.le_add_left 1 1
      · exact hs.le
      · cases ht
    | p :: q :: r :: rest, _ =>
      have hle : maximalSubpart (p :: q :: r :: rest) ≤ 3 := by
        obtain hs | ⟨hs, -⟩ | ⟨hs, -⟩ := maximalSubpart_cases (p :: q :: r :: rest) <;> omega
      exact hle.trans (by simp)

variable {bytes : Bytes}

theorem unit_continues {k : Nat} {y : UInt8} (hp : 0 < k)
    (hk : k < unitSize bytes) (hy : bytes[k]? = some y) : isContinuation y = true := by
  cases hfst : firstChar? bytes with
  | some c =>
    obtain ⟨rest, rfl⟩ := firstChar?_eq_some.mp hfst
    rw [unitSize_of_some hfst, ← String.length_utf8EncodeChar] at hk
    rw [getElem?_append_left hk] at hy
    obtain ⟨p, more, hc⟩ := exists_cons_of_ne_nil (Lib.utf8EncodeChar_ne_nil c)
    rw [hc, show k = k - 1 + 1 by omega, getElem?_cons_succ] at hy
    exact (encode_cons hc).2 y (mem_of_getElem? hy)
  | none =>
    rw [unitSize_of_none hfst] at hk
    have hg : ∀ {i : Nat}, i = k → bytes.getD i 0 = y := by
      rintro _ rfl
      rw [getD_eq_getElem?_getD, hy]
      rfl
    have hs : mayFollow (bytes.getD 0 0) (bytes.getD 1 0) = true → 1 = k →
        isContinuation y = true := by
      intro hf ho
      rw [hg ho] at hf
      have hf := mayFollow_iff.mp hf
      exact isContinuation_iff.mpr ⟨hf.1, hf.2.1⟩
    obtain hsub | ⟨hsub, hf⟩ | ⟨hsub, hf, -, ht⟩ := maximalSubpart_cases bytes
    · omega
    · exact hs hf (by omega)
    · obtain ho | htwo : 1 = k ∨ 2 = k := by omega
      · exact hs hf ho
      · rwa [hg htwo] at ht

theorem lossyFrom_enough {fuel : Nat} : ∀ {bytes : Bytes}, bytes.length ≤ fuel →
    lossyFrom fuel bytes = fromUtf8Lossy bytes := by
  suffices hbo : ∀ {a b : Nat} {bytes : Bytes}, bytes.length ≤ a → bytes.length ≤ b →
      lossyFrom a bytes = lossyFrom b bytes from fun {_} h => hbo h le_rfl
  intro a
  induction a with
  | zero =>
    intro b bytes ha _
    rw [eq_nil_of_length_eq_zero (Nat.le_zero.mp ha)]
    cases b <;> rfl
  | succ a ih =>
    intro b bytes ha hb
    cases bytes with
    | nil => cases b <;> rfl
    | cons p bytes =>
      obtain ⟨b, rfl⟩ := Nat.exists_eq_succ_of_ne_zero (show b ≠ 0 by rintro rfl; cases hb)
      have hd : ∀ {n : Nat}, 0 < n →
          lossyFrom a ((p :: bytes).drop n) = lossyFrom b ((p :: bytes).drop n) := by
        intro n hn
        rw [length_cons] at ha hb
        refine ih ?_ ?_ <;> rw [length_drop, length_cons] <;> omega
      rw [lossyFrom, lossyFrom]
      split
      · rw [hd (Char.utf8Size_pos _)]
      · rw [hd]
        obtain h | ⟨h, -⟩ | ⟨h, -⟩ := maximalSubpart_cases (p :: bytes) <;> omega

theorem fromUtf8Lossy_step (h : bytes ≠ []) :
    fromUtf8Lossy bytes = unitChar bytes :: fromUtf8Lossy (bytes.drop (unitSize bytes)) := by
  obtain ⟨p, bytes, rfl⟩ := exists_cons_of_ne_nil h
  have hp := unitSize_pos (p :: bytes)
  have hr := @lossyFrom_enough bytes.length ((p :: bytes).drop (unitSize (p :: bytes))) (by
    rw [length_drop, length_cons]
    omega)
  rw [← hr]
  show lossyFrom (bytes.length + 1) (p :: bytes) = _
  rw [lossyFrom, unitChar, unitSize, firstChar?]
  cases (p :: bytes).toByteArray.utf8DecodeChar? 0 <;> rfl

/-! ### Bytes that end inside a character -/

/-- Some last bytes of the first and the first byte of the second begin a character together. -/
def GoesOn (a b : Bytes) : Prop :=
  ∃ tail x c, tail <:+ a ∧ tail ≠ [] ∧ b.head? = some x ∧ tail ++ [x] <+: String.utf8EncodeChar c

theorem exists_of_mayFollow (h : mayFollow p x = true) :
    ∃ c, [p] ++ [x] <+: String.utf8EncodeChar c := by
  have hl : isContinuation 0x80 = true := by decide
  by_cases hp : p.toNat < 240
  · obtain ⟨c, hc⟩ := Three.exists_char ⟨hp, h, hl⟩
    exact ⟨c, [0x80], hc.symm⟩
  · obtain ⟨c, hc⟩ := Four.exists_char ⟨Nat.not_lt.mp hp, h, hl, hl⟩
    exact ⟨c, [0x80, 0x80], hc.symm⟩

theorem exists_of_third {q : UInt8} (hp : 240 ≤ p.toNat) (h : mayFollow p q = true)
    (hx : isContinuation x = true) : ∃ c, [p, q] ++ [x] <+: String.utf8EncodeChar c := by
  obtain ⟨c, hc⟩ := Four.exists_char ⟨hp, h, hx, show isContinuation 0x80 = true by decide⟩
  exact ⟨c, [0x80], hc.symm⟩

theorem maximalSubpart_of_not
    (h : mayFollow (bytes.getD 0 0) (bytes.getD 1 0) = false) : maximalSubpart bytes = 1 := by
  rw [maximalSubpart, if_pos (by rw [h]; decide)]

theorem maximalSubpart_of_third
    (h : mayFollow (bytes.getD 0 0) (bytes.getD 1 0) = true) (hp : 240 ≤ (bytes.getD 0 0).toNat)
    (ht : isContinuation (bytes.getD 2 0) = true) : maximalSubpart bytes = 3 := by
  rw [maximalSubpart, if_neg (not_not.mpr h), if_pos ⟨UInt8.le_iff_toNat_le.mpr hp, ht⟩]

theorem maximalSubpart_of_second (h : mayFollow (bytes.getD 0 0) (bytes.getD 1 0) = true)
    (hno : ¬(240 ≤ (bytes.getD 0 0).toNat ∧ isContinuation (bytes.getD 2 0) = true)) :
    maximalSubpart bytes = 2 := by
  rw [maximalSubpart, if_neg (not_not.mpr h), if_neg]
  exact fun hb => hno ⟨UInt8.le_iff_toNat_le.mp hb.1, hb.2⟩

/-- What one replacement character stands for is the same whatever comes behind, but where a
character is gone on with. -/
theorem maximalSubpart_append (ha : a ≠ []) (b : Bytes) :
    maximalSubpart (a ++ b) = maximalSubpart a ∨
      ∃ x c, b.head? = some x ∧ a ++ [x] <+: String.utf8EncodeChar c := by
  match a, b, ha with
  | a, [], _ => exact .inl (by rw [append_nil])
  | [p], x :: b, _ =>
    cases hf : mayFollow p x with
    | false =>
      exact .inl ((@maximalSubpart_of_not ([p] ++ x :: b) hf).trans
        (@maximalSubpart_of_not [p] (not_mayFollow_zero p)).symm)
    | true => exact .inr ((exists_of_mayFollow hf).imp' (fun _ => x) fun c hc => ⟨c, rfl, hc⟩)
  | [p, q], x :: b, _ =>
    cases hf : mayFollow p q with
    | false =>
      exact .inl ((@maximalSubpart_of_not ([p, q] ++ x :: b) hf).trans
        (@maximalSubpart_of_not [p, q] hf).symm)
    | true =>
      by_cases hb : 240 ≤ p.toNat ∧ isContinuation x = true
      · obtain ⟨c, hc⟩ := exists_of_third hb.1 hf hb.2
        exact .inr ⟨x, c, rfl, hc⟩
      · refine .inl ((@maximalSubpart_of_second ([p, q] ++ x :: b) hf hb).trans
          (@maximalSubpart_of_second [p, q] hf ?_).symm)
        exact fun h => absurd (not_continuation_zero.symm.trans h.2) Bool.false_ne_true
  | p :: q :: r :: a, x :: b, _ => exact .inl rfl

/-- The first unit of some bytes is the same whatever comes behind, but where a character is gone on
with. -/
theorem unit_append (ha : a ≠ []) (b : Bytes) :
    (unitSize (a ++ b) = unitSize a ∧ unitChar (a ++ b) = unitChar a) ∨
      ∃ x c, b.head? = some x ∧ a ++ [x] <+: String.utf8EncodeChar c := by
  cases hf : firstChar? a with
  | some c =>
    have hb : firstChar? (a ++ b) = some c :=
      firstChar?_eq_some.mpr ((firstChar?_eq_some.mp hf).trans (prefix_append _ _))
    refine .inl ⟨?_, ?_⟩
    · rw [unitSize, hb, unitSize, hf]
    · rw [unitChar, hb, unitChar, hf]
  | none =>
    cases hb : firstChar? (a ++ b) with
    | some d =>
      have hd := firstChar?_eq_some.mp hb
      obtain hle | hle := prefix_or_prefix_of_prefix hd (prefix_append a b)
      · rw [firstChar?_eq_some.mpr hle] at hf
        cases hf
      · obtain ⟨mid, hm⟩ := hle
        cases mid with
        | nil =>
          rw [append_nil] at hm
          rw [hm, firstChar?_eq_some.mpr prefix_rfl] at hf
          cases hf
        | cons x mid =>
          rw [← hm, prefix_append_right_inj] at hd
          obtain ⟨rest, rfl⟩ := hd
          refine .inr ⟨x, d, rfl, mid, ?_⟩
          rw [append_assoc]
          exact hm
    | none =>
      obtain hs | hmo := maximalSubpart_append ha b
      · refine .inl ⟨?_, ?_⟩
        · rw [unitSize_of_none hf, unitSize_of_none hb, hs]
        · rw [unitChar, unitChar, hf, hb]
      · exact .inr hmo

theorem tail_shape (ha : a ≠ []) (h : a ++ [x] <+: String.utf8EncodeChar c) :
    (∃ p, a = [p] ∧ (String.utf8EncodeChar c = [p, x] ∨ mayFollow p x = true)) ∨
    (∃ p q, a = [p, q] ∧ mayFollow p q = true ∧ (String.utf8EncodeChar c = [p, q, x] ∨
      (240 ≤ p.toNat ∧ isContinuation x = true))) ∨
    ∃ p q r, a = [p, q, r] ∧ mayFollow p q = true ∧ 240 ≤ p.toNat ∧ isContinuation r = true ∧
      String.utf8EncodeChar c = [p, q, r, x] := by
  obtain ⟨rest, hr⟩ := h
  rw [append_assoc] at hr
  obtain ⟨p, hc, -⟩ | ⟨p, q, hc, -, hq⟩ | ⟨p, q, r, hc, h3⟩ | ⟨p, q, r, s, hc, h4⟩ :=
    encode_shape c
  all_goals rw [hc] at hr
  · obtain ⟨p', a, rfl⟩ := exists_cons_of_ne_nil ha
    simp at hr
  · match a, ha with
    | [p'], _ =>
      obtain ⟨rfl, rfl⟩ : p' = p ∧ x = q := by simp_all
      exact .inl ⟨_, rfl, .inl hc⟩
    | _ :: _ :: _, _ => simp at hr
  · match a, ha with
    | [p'], _ =>
      obtain ⟨rfl, rfl⟩ : p' = p ∧ x = q := by simp_all
      exact .inl ⟨_, rfl, .inr h3.second⟩
    | [p', q'], _ =>
      obtain ⟨rfl, rfl, rfl⟩ : p' = p ∧ q' = q ∧ x = r := by simp_all
      exact .inr (.inl ⟨_, _, rfl, h3.second, .inl hc⟩)
    | _ :: _ :: _ :: _, _ => simp at hr
  · match a, ha with
    | [p'], _ =>
      obtain ⟨rfl, rfl⟩ : p' = p ∧ x = q := by simp_all
      exact .inl ⟨_, rfl, .inr h4.second⟩
    | [p', q'], _ =>
      obtain ⟨rfl, rfl, rfl⟩ : p' = p ∧ q' = q ∧ x = r := by simp_all
      exact .inr (.inl ⟨_, _, rfl, h4.second, .inr ⟨h4.first, h4.third⟩⟩)
    | [p', q', r'], _ =>
      obtain ⟨rfl, rfl, rfl, rfl⟩ : p' = p ∧ q' = q ∧ r' = r ∧ x = s := by simp_all
      exact .inr (.inr ⟨_, _, _, rfl, h4.second, h4.first, h4.third, hc⟩)
    | _ :: _ :: _ :: _ :: _, _ => simp at hr

theorem firstChar?_tail (h : a ++ [x] <+: String.utf8EncodeChar c) : firstChar? a = none := by
  cases hf : firstChar? a with
  | none => rfl
  | some d =>
    have hd := firstChar?_eq_some.mp hf
    have hc : d = c := char_unique (hd.trans ((prefix_append _ _).trans h)) prefix_rfl
    rw [hc] at hd
    have hle := hd.length_le
    have hlt := h.length_le
    rw [length_append, length_singleton] at hlt
    omega

/-- Bytes that with one more begin a character are decoded as one replacement character. -/
theorem unitSize_tail (ha : a ≠ [])
    (h : a ++ [x] <+: String.utf8EncodeChar c) : unitSize a = a.length := by
  rw [unitSize_of_none (firstChar?_tail h)]
  obtain ⟨p, rfl, -⟩ | ⟨p, q, rfl, hf, -⟩ | ⟨p, q, r, rfl, hf, hp, hr, -⟩ := tail_shape ha h
  · exact maximalSubpart_of_not (not_mayFollow_zero p)
  · exact maximalSubpart_of_second hf fun h =>
      absurd (not_continuation_zero.symm.trans h.2) Bool.false_ne_true
  · exact maximalSubpart_of_third hf hp hr

theorem unitSize_tail_append (ha : a ≠ [])
    (h : a ++ [x] <+: String.utf8EncodeChar c) (rest : Bytes) :
    a.length < unitSize (a ++ x :: rest) := by
  cases hfst : firstChar? (a ++ x :: rest) with
  | some =>
    rw [unitSize_of_some hfst, ← String.length_utf8EncodeChar]
    by_contra hle
    have hd := prefix_of_prefix_length_le (firstChar?_eq_some.mp hfst)
      (prefix_append a _) (Nat.not_lt.mp hle)
    have hn := firstChar?_tail h
    rw [firstChar?_eq_some.mpr hd] at hn
    cases hn
  | none =>
    -- the character is not there whole
    have hw : ∀ {bytes : Bytes}, String.utf8EncodeChar c = bytes →
        bytes <+: a ++ x :: rest → False := by
      rintro _ rfl hc
      rw [firstChar?_eq_some.mpr hc] at hfst
      cases hfst
    rw [unitSize_of_none hfst]
    obtain ⟨p, rfl, hc | hf⟩ | ⟨p, q, rfl, hf, hc | ⟨hp, hx⟩⟩ |
      ⟨p, q, r, rfl, -, -, -, hc⟩ := tail_shape ha h
    · exact (hw hc (prefix_append [p, x] rest)).elim
    · by_cases ht : 240 ≤ p.toNat ∧ isContinuation (([p] ++ x :: rest).getD 2 0) = true
      · rw [@maximalSubpart_of_third ([p] ++ x :: rest) hf ht.1 ht.2]
        exact Nat.lt_add_left 1 (Nat.lt_succ_self 1)
      · rw [@maximalSubpart_of_second ([p] ++ x :: rest) hf ht]
        exact Nat.lt_succ_self 1
    · exact (hw hc (prefix_append [p, q, x] rest)).elim
    · rw [@maximalSubpart_of_third ([p, q] ++ x :: rest) hf hp hx]
      exact Nat.lt_succ_self 2
    · exact (hw hc (prefix_append [p, q, r, x] rest)).elim

/-! ### Parts -/

def replacements (text : Text) : Nat := text.count replacementCharacter

theorem replacements_append (a b : Text) :
    replacements (a ++ b) = replacements a + replacements b := count_append

theorem replacements_cons_le (c : Char) (text : Text) :
    replacements (c :: text) ≤ 1 + replacements text := by
  rw [replacements, count_cons, replacements]
  split_ifs <;> omega

theorem GoesOn.ne_nil (h : GoesOn a b) : a ≠ [] := by
  obtain ⟨tail, x, c, hs, hne, -⟩ := h
  rintro rfl
  exact hne (suffix_nil.mp hs)

theorem unit_of_continuation {y : UInt8} (hy : isContinuation y = true) (rest : Bytes) :
    unitSize (y :: rest) = 1 ∧ unitChar (y :: rest) = replacementCharacter := by
  have hf : firstChar? (y :: rest) = none := by
    cases hf : firstChar? (y :: rest) with
    | none => rfl
    | some d =>
      obtain ⟨p, more, hd⟩ := exists_cons_of_ne_nil (Lib.utf8EncodeChar_ne_nil d)
      have hp := firstChar?_eq_some.mp hf
      rw [hd] at hp
      rw [← (cons_prefix_cons.mp hp).1, (encode_cons hd).1] at hy
      cases hy
  refine ⟨?_, by rw [unitChar, hf]; rfl⟩
  rw [unitSize_of_none hf]
  refine maximalSubpart_of_not (Bool.eq_false_iff.mpr fun hfo => ?_)
  have hle := (isContinuation_iff.mp hy).2
  have hge := (mayFollow_iff.mp hfo).2.2.1
  rw [getD_cons_zero] at hge
  omega

theorem fromUtf8Lossy_continuations {j : Nat} : ∀ {b : Bytes}, j ≤ b.length →
    (∀ k y, k < j → b[k]? = some y → isContinuation y = true) →
    fromUtf8Lossy b = replicate j replacementCharacter ++ fromUtf8Lossy (b.drop j) := by
  induction j with
  | zero => intro b _ _; rfl
  | succ j ih =>
    intro b hj hc
    cases b with
    | nil => cases hj
    | cons y b =>
      obtain ⟨hs, hch⟩ := unit_of_continuation (hc 0 y j.succ_pos rfl) b
      rw [fromUtf8Lossy_step (cons_ne_nil y b), hs, hch, drop_succ_cons,
        drop_zero, drop_succ_cons, replicate_succ, cons_append]
      exact congrArg _ (ih (Nat.le_of_succ_le_succ hj) fun k z hk hz =>
        hc (k + 1) z (Nat.succ_lt_succ hk) hz)

/-- What goes on behind a unit that stays the same goes on behind the rest. -/
theorem goesOn_drop (ha : a ≠ []) (hs : unitSize (a ++ b) = unitSize a) :
    GoesOn a b ↔ GoesOn (a.drop (unitSize a)) b := by
  constructor
  · rintro ⟨tail, x, c, ⟨front, rfl⟩, hne, hx, hc⟩
    obtain ⟨rest, rfl⟩ := head?_eq_some_iff.mp hx
    refine ⟨tail, x, c, ?_, hne, hx, hc⟩
    by_cases hf : unitSize (front ++ tail) ≤ front.length
    · exact ⟨front.drop (unitSize (front ++ tail)), (drop_append_of_le_length hf).symm⟩
    · exfalso
      by_cases hp : front = []
      · -- the bytes are nothing but a character's beginning, and with the rest one longer unit
        have hlt := unitSize_tail_append hne hc rest
        rw [hp, nil_append] at hs ha
        have hle := unitSize_le ha
        omega
      · obtain ⟨p, tail, rfl⟩ := exists_cons_of_ne_nil hne
        have hg : (front ++ p :: tail)[front.length]? = some p := by simp
        have hco := unit_continues (length_pos_of_ne_nil hp) (Nat.not_le.mp hf) hg
        obtain ⟨more, hm⟩ := hc
        rw [(encode_cons hm.symm).1] at hco
        cases hco
  · rintro ⟨tail, x, c, hsuf, hr⟩
    exact ⟨tail, x, c, hsuf.trans (drop_suffix _ _), hr⟩

theorem fromUtf8Lossy_step_append (ha : a ≠ [])
    (hs : unitSize (a ++ b) = unitSize a ∧ unitChar (a ++ b) = unitChar a) :
    fromUtf8Lossy (a ++ b) = unitChar a :: fromUtf8Lossy (a.drop (unitSize a) ++ b) := by
  rw [fromUtf8Lossy_step (append_ne_nil_of_left_ne_nil ha b), hs.1, hs.2,
    drop_append_of_le_length (unitSize_le ha)]

theorem length_drop_unit (ha : a ≠ []) : (a.drop (unitSize a)).length < a.length := by
  have hp := unitSize_pos a
  have hl := length_pos_of_ne_nil ha
  rw [length_drop]
  omega

/-- **Bytes are decoded in parts** where the first part does not end inside a character that the
second goes on with. -/
theorem fromUtf8Lossy_append (h : ¬GoesOn a b) :
    fromUtf8Lossy (a ++ b) = fromUtf8Lossy a ++ fromUtf8Lossy b := by
  induction hn : a.length using Nat.strong_induction_on generalizing a with
  | _ n ih =>
    by_cases ha : a = []
    · rw [ha]
      rfl
    · obtain hs | ⟨x, c, hx, hc⟩ := unit_append ha b
      · rw [fromUtf8Lossy_step_append ha hs, fromUtf8Lossy_step ha, cons_append]
        exact congrArg _ (ih _ (hn ▸ length_drop_unit ha) ((goesOn_drop ha hs.1).not.mp h) rfl)
      · exact absurd ⟨a, x, c, suffix_rfl, ha, hx, hc⟩ h

theorem replacements_lt (h : GoesOn a b) : replacements (fromUtf8Lossy (a ++ b)) <
      replacements (fromUtf8Lossy a) + replacements (fromUtf8Lossy b) := by
  induction hn : a.length using Nat.strong_induction_on generalizing a with
  | _ n ih =>
    have ha := h.ne_nil
    obtain hs | ⟨x, c, hx, hc⟩ := unit_append ha b
    · have hr := ih _ (hn ▸ length_drop_unit ha) ((goesOn_drop ha hs.1).mp h) rfl
      rw [fromUtf8Lossy_step_append ha hs, fromUtf8Lossy_step ha]
      simp only [replacements, count_cons] at hr ⊢
      omega
    · -- one unit of both against a replacement character for the first part and for each byte of
      -- the second that belongs to the unit
      obtain ⟨rest, rfl⟩ := head?_eq_some_iff.mp hx
      have hlen := length_pos_of_ne_nil ha
      have hlt := unitSize_tail_append ha hc rest
      have hne : a ++ x :: rest ≠ [] := append_ne_nil_of_left_ne_nil ha _
      have hle := unitSize_le hne
      rw [length_append] at hle
      have hw : fromUtf8Lossy a = [replacementCharacter] := by
        rw [fromUtf8Lossy_step ha, unitSize_tail ha hc, drop_length, unitChar, firstChar?_tail hc]
        rfl
      have hsnd : fromUtf8Lossy (x :: rest) =
          replicate (unitSize (a ++ x :: rest) - a.length) replacementCharacter ++
            fromUtf8Lossy ((x :: rest).drop (unitSize (a ++ x :: rest) - a.length)) := by
        refine fromUtf8Lossy_continuations (by omega) fun k y hk hy => ?_
        refine @unit_continues (a ++ x :: rest) (a.length + k) y (by omega) (by omega) ?_
        rw [getElem?_append_right (Nat.le_add_right _ _), Nat.add_sub_cancel_left]
        exact hy
      have hd : (a ++ x :: rest).drop (unitSize (a ++ x :: rest)) =
          (x :: rest).drop (unitSize (a ++ x :: rest) - a.length) := by
        rw [drop_append, drop_eq_nil_of_le hlt.le, nil_append]
      have hm : replacements (replicate (unitSize (a ++ x :: rest) - a.length)
          replacementCharacter) = unitSize (a ++ x :: rest) - a.length := count_replicate_self
      have ho : replacements [replacementCharacter] = 1 := by decide
      rw [fromUtf8Lossy_step hne, hd, hw, hsnd, replacements_append, hm, ho]
      have hco := replacements_cons_le (unitChar (a ++ x :: rest))
        (fromUtf8Lossy ((x :: rest).drop (unitSize (a ++ x :: rest) - a.length)))
      omega

end LocalAi.Transcription
