import Mathlib.Algebra.Order.Ring.Nat

/-!
# Parts of a file

Lists cut into pieces of one size, padded to a multiple of a size, and found again in a longer
list; numbers as little-endian bytes.

* `flatten_chunks`: the pieces, end to end, are the list.
* `slice_append`: a part is found where it was written.
* `fromLe_toLe`: a number that fits its bytes is read back.
-/

open List

namespace LocalAi.Lib

variable {α : Type}

/-! ### Sizes -/

def divCeil (n d : Nat) : Nat := (n + d - 1) / d

def nextMultiple (n d : Nat) : Nat := divCeil n d * d

variable {d n size : Nat} {xs : List α}

theorem le_nextMultiple (n : Nat) (hd : 0 < d) : n ≤ nextMultiple n d := by
  have hlt : n + d - 1 < ((n + d - 1) / d + 1) * d := Nat.lt_mul_of_div_lt (Nat.lt_succ_self _) hd
  rw [Nat.add_mul, Nat.one_mul] at hlt
  unfold nextMultiple divCeil
  omega

theorem dvd_nextMultiple (n d : Nat) : d ∣ nextMultiple n d := Nat.dvd_mul_left ..

theorem divCeil_eq_zero (hd : 0 < d) : divCeil n d = 0 ↔ n = 0 := by
  rw [divCeil, Nat.div_eq_zero_iff]
  omega

theorem lt_of_lt_divCeil {i : Nat} (h : i < divCeil n d) : i * d < n := by
  have hd : 0 < d := by
    rcases Nat.eq_zero_or_pos d with rfl | hd
    · simp [divCeil] at h
    · exact hd
  have hle : (i + 1) * d ≤ n + d - 1 := (Nat.le_div_iff_mul_le hd).mp h
  rw [Nat.add_mul, Nat.one_mul] at hle
  omega

theorem divCeil_sub (hd : 0 < d) (hle : d ≤ n) : divCeil (n - d) d + 1 = divCeil n d := by
  rw [divCeil, divCeil, show n + d - 1 = n - d + d - 1 + d by omega, Nat.add_div_right _ hd]

/-! ### Pieces -/

def slice (offset length : Nat) (xs : List α) : List α := (xs.drop offset).take length

/-- `slice::chunks`: the pieces of `size`, the last one shorter. -/
def chunks (size : Nat) (xs : List α) : List (List α) :=
  (List.range (divCeil xs.length size)).map fun index => slice (index * size) size xs

theorem length_chunks (size : Nat) (xs : List α) :
    (chunks size xs).length = divCeil xs.length size := by
  rw [chunks, length_map, length_range]

theorem getElem?_chunks {index : Nat} (h : index < divCeil xs.length size) :
    (chunks size xs)[index]? = some (slice (index * size) size xs) := by
  rw [chunks, getElem?_map, getElem?_range h, Option.map_some]

theorem chunks_of_length_le (hne : xs ≠ []) (h : xs.length ≤ size) : chunks size xs = [xs] := by
  have hp := length_pos_iff.mpr hne
  have ho : divCeil xs.length size = 1 := by
    rw [divCeil, show xs.length + size - 1 = xs.length - 1 + size by omega,
      Nat.add_div_right _ (by omega), Nat.div_eq_of_lt (by omega)]
  rw [chunks, ho, range_one, map_singleton, slice, Nat.zero_mul, drop_zero, take_of_length_le h]

theorem chunks_of_le_length (hs : 0 < size) (h : size ≤ xs.length) :
    chunks size xs = xs.take size :: chunks size (xs.drop size) := by
  rw [chunks, ← divCeil_sub hs h, range_succ_eq_map, map_cons, map_map, chunks, length_drop]
  congr 1
  · rw [slice, Nat.zero_mul, drop_zero]
  · refine map_congr_left fun index _ => ?_
    rw [Function.comp_apply, slice, slice, drop_drop, Nat.succ_mul, Nat.add_comm]

theorem chunks_nil (size : Nat) : chunks size ([] : List α) = [] := by
  have hz : divCeil 0 size = 0 := by
    rw [divCeil, Nat.zero_add]
    rcases Nat.eq_zero_or_pos size with rfl | hs
    · rfl
    · exact Nat.div_eq_of_lt (by omega)
  rw [chunks, length_nil, hz]
  rfl

theorem flatten_chunks (hs : 0 < size) (xs : List α) : (chunks size xs).flatten = xs := by
  induction hn : xs.length using Nat.strongRecOn generalizing xs with
  | ind n ih =>
    by_cases hle : size ≤ xs.length
    · rw [chunks_of_le_length hs hle, flatten_cons,
        ih (xs.drop size).length (by rw [length_drop]; omega) (xs.drop size) rfl,
        take_append_drop]
    · rcases eq_nil_or_concat xs with rfl | ⟨front, last, rfl⟩
      · rw [chunks_nil, flatten_nil]
      · rw [chunks_of_length_le (by simp) (by omega), flatten_cons, flatten_nil,
          append_nil]

theorem chunks_flatMap {β : Type} (hs : 0 < size) {f : β → List α}
    (hf : ∀ x, (f x).length = size) (xs : List β) : chunks size (xs.flatMap f) = xs.map f := by
  induction xs with
  | nil => exact chunks_nil size
  | cons x xs ih =>
    have hle : size ≤ ((x :: xs).flatMap f).length := by
      rw [flatMap_cons, length_append, hf]
      exact Nat.le_add_right _ _
    rw [chunks_of_le_length hs hle, flatMap_cons, ← hf x, take_left, drop_left, hf x, ih, map_cons]

theorem slice_append (front xs rest : List α) :
    slice front.length xs.length (front ++ (xs ++ rest)) = xs := by
  rw [slice, drop_left, take_left]

theorem slice_slice {part : List α} {offset length : Nat} (hp : slice offset length xs = part)
    (index size : Nat) (hle : index + size ≤ length) :
    slice (offset + index) size xs = slice index size part := by
  rw [← hp, slice, slice, slice, drop_take, take_take, drop_drop, Nat.min_eq_left (by omega)]

/-! ### Padding -/

def pad (size : Nat) (fill : α) (xs : List α) : List α :=
  xs ++ List.replicate (nextMultiple xs.length size - xs.length) fill

theorem length_pad (hs : 0 < size) (fill : α) (xs : List α) :
    (pad size fill xs).length = nextMultiple xs.length size := by
  have := le_nextMultiple xs.length hs
  rw [pad, length_append, length_replicate]
  omega

/-! ### Little-endian numbers -/

/-- The `count` low bytes of a number, lowest first. -/
def toLe : Nat → Nat → List UInt8
  | 0, _ => []
  | count + 1, n => UInt8.ofNat n :: toLe count (n / 256)

def fromLe : List UInt8 → Nat
  | [] => 0
  | byte :: bytes => byte.toNat + 256 * fromLe bytes

@[simp] theorem length_toLe (count n : Nat) : (toLe count n).length = count := by
  induction count generalizing n with
  | zero => rfl
  | succ count ih => rw [toLe, length_cons, ih]

theorem fromLe_toLe {count : Nat} (h : n < 256 ^ count) : fromLe (toLe count n) = n := by
  induction count generalizing n with
  | zero =>
    rw [Nat.pow_zero, Nat.lt_one_iff] at h
    rw [h]
    rfl
  | succ count ih =>
    rw [Nat.pow_succ] at h
    have hb : (UInt8.ofNat n).toNat = n % 256 := UInt8.toNat_ofNat'
    rw [toLe, fromLe, ih (Nat.div_lt_of_lt_mul (by omega)), hb]
    omega

end LocalAi.Lib
