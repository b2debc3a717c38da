import LocalAi.Lib.Layout
import LocalAi.Lib.Utf8

/-!
# Base64 with the URL-safe alphabet, without padding

Three bytes are four letters; what is left at the end, one or two bytes, is two or three letters
whose unused bits are zero.

* `decode_encode`: what was written is read back.
* `length_encode`: a third more letters than bytes, rounded up.
-/

open List

namespace LocalAi.Lib.Base64

/-! ### Letters -/

def letter (n : Nat) : Char :=
  if n < 26 then Char.ofNat (65 + n)
  else if n < 52 then Char.ofNat (71 + n)
  else if n < 62 then Char.ofNat (n - 4)
  else if n = 62 then '-' else '_'

def value (c : Char) : Option Nat :=
  if 'A' ≤ c ∧ c ≤ 'Z' then some (c.toNat - 65)
  else if 'a' ≤ c ∧ c ≤ 'z' then some (c.toNat - 71)
  else if '0' ≤ c ∧ c ≤ '9' then some (c.toNat + 4)
  else if c = '-' then some 62
  else if c = '_' then some 63
  else none

theorem value_letter : ∀ n < 64, value (letter n) = some n := by decide

/-! ### Words -/

def encode : List UInt8 → List Char
  | a :: b :: c :: rest =>
    letter (a.toNat / 4) :: letter (a.toNat % 4 * 16 + b.toNat / 16) ::
      letter (b.toNat % 16 * 4 + c.toNat / 64) :: letter (c.toNat % 64) :: encode rest
  | [a, b] =>
    [letter (a.toNat / 4), letter (a.toNat % 4 * 16 + b.toNat / 16), letter (b.toNat % 16 * 4)]
  | [a] => [letter (a.toNat / 4), letter (a.toNat % 4 * 16)]
  | [] => []

def decode : List Char → Option (List UInt8)
  | w :: x :: y :: z :: rest => do
    let w ← value w
    let x ← value x
    let y ← value y
    let z ← value z
    let bytes ← decode rest
    some (UInt8.ofNat (w * 4 + x / 16) :: UInt8.ofNat (x % 16 * 16 + y / 4) ::
      UInt8.ofNat (y % 4 * 64 + z) :: bytes)
  | [w, x, y] => do
    let w ← value w
    let x ← value x
    let y ← value y
    if y % 4 = 0 then
      some [UInt8.ofNat (w * 4 + x / 16), UInt8.ofNat (x % 16 * 16 + y / 4)]
    else none
  | [w, x] => do
    let w ← value w
    let x ← value x
    if x % 16 = 0 then some [UInt8.ofNat (w * 4 + x / 16)] else none
  | [_] => none
  | [] => some []

theorem ofNat_of_eq {b : UInt8} {n : Nat} (h : n = b.toNat) : UInt8.ofNat n = b := by
  rw [h, UInt8.ofNat_toNat]

theorem decode_encode (bytes : List UInt8) : decode (encode bytes) = some bytes := by
  induction bytes using encode.induct with
  | case1 a b c rest ih =>
    have ha := a.toNat_lt
    have hb := b.toNat_lt
    have hc := c.toNat_lt
    rw [encode, decode, value_letter _ (by omega), value_letter _ (by omega),
      value_letter _ (by omega), value_letter _ (by omega), ih]
    simp only [Option.bind_eq_bind, Option.bind_some]
    rw [ofNat_of_eq (b := a) (by omega), ofNat_of_eq (b := b) (by omega),
      ofNat_of_eq (b := c) (by omega)]
  | case2 a b =>
    have ha := a.toNat_lt
    have hb := b.toNat_lt
    rw [encode, decode, value_letter _ (by omega), value_letter _ (by omega),
      value_letter _ (by omega)]
    simp only [Option.bind_eq_bind, Option.bind_some]
    rw [if_pos (by omega), ofNat_of_eq (b := a) (by omega), ofNat_of_eq (b := b) (by omega)]
  | case3 a =>
    have ha := a.toNat_lt
    rw [encode, decode, value_letter _ (by omega), value_letter _ (by omega)]
    simp only [Option.bind_eq_bind, Option.bind_some]
    rw [if_pos (by omega), ofNat_of_eq (b := a) (by omega)]
  | case4 => rfl

theorem length_encode (bytes : List UInt8) :
    (encode bytes).length = divCeil (bytes.length * 4) 3 := by
  unfold divCeil
  induction bytes using encode.induct with
  | case1 a b c rest ih =>
    rw [encode, length_cons, length_cons, length_cons, length_cons, ih]
    simp only [length_cons]
    omega
  | case2 =>
    rw [encode]
    simp only [length_cons, length_nil]
  | case3 =>
    rw [encode]
    simp only [length_cons, length_nil]
  | case4 => rfl

theorem utf8Size_letter (n : Nat) : (letter n).utf8Size = 1 := by
  unfold letter
  split
  · next h => exact (by decide : ∀ k < 26, (Char.ofNat (65 + k)).utf8Size = 1) n h
  split
  · next h => exact (by decide : ∀ k < 52, (Char.ofNat (71 + k)).utf8Size = 1) n h
  split
  · next h => exact (by decide : ∀ k < 62, (Char.ofNat (k - 4)).utf8Size = 1) n h
  split
  · decide
  · decide

theorem length_utf8_encode (bytes : List UInt8) :
    (utf8Bytes (encode bytes)).length = divCeil (bytes.length * 4) 3 := by
  have hl : ∀ c ∈ encode bytes, c.utf8Size = 1 := by
    induction bytes using encode.induct with
    | case1 a b c rest ih =>
      rw [encode]
      simp only [forall_mem_cons, utf8Size_letter, true_and]
      exact ih
    | case2 => simp [encode, utf8Size_letter]
    | case3 => simp [encode, utf8Size_letter]
    | case4 => simp [encode]
  have hlen : ∀ text : List Char, (∀ c ∈ text, c.utf8Size = 1) →
      (utf8Bytes text).length = text.length := by
    intro text
    induction text with
    | nil => exact fun _ => rfl
    | cons c text ih =>
      intro h
      rw [utf8Bytes_cons, length_append, String.length_utf8EncodeChar,
        h c mem_cons_self, ih fun d hd => h d (mem_cons_of_mem c hd), length_cons,
        Nat.add_comm]
  rw [hlen _ hl, length_encode]

end LocalAi.Lib.Base64
