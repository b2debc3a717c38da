import LocalAi.Lib.Except
import LocalAi.Lib.Layout

/-!
# Reading fields one after the other

A cursor over bytes that never passes their end, and what a sequence of fields looks like.

* `Reader.take`: the next field, if it is all there.
* `take_eq_some`, `readLe_eq_some`: a field is read exactly where it is spelled.
* `readMany_eq_ok`: a list of items, each read where it is spelled.
-/

open List

namespace LocalAi.Lib

structure Reader where
  bytes : List UInt8
  pos : Nat
  within : pos ≤ bytes.length

structure Consumes (r : Reader) (field : List UInt8) (r' : Reader) : Prop where
  bytes : r'.bytes = r.bytes
  pos : r'.pos = r.pos + field.length
  spelled : field <+: r.bytes.drop r.pos

namespace Reader

def start (bytes : List UInt8) : Reader := ⟨bytes, 0, Nat.zero_le _⟩

/-- The next `len` bytes. -/
def take (r : Reader) (len : Nat) : Option (List UInt8 × Reader) :=
  if h : r.pos + len ≤ r.bytes.length then
    some (slice r.pos len r.bytes, ⟨r.bytes, r.pos + len, h⟩)
  else none

/-- The next little-endian number of `count` bytes. -/
def readLe (r : Reader) (count : Nat) : Option (Nat × Reader) :=
  (r.take count).map fun (field, r') => (fromLe field, r')

end Reader

variable {r s t : Reader}

theorem Reader.ext' (hb : s.bytes = t.bytes) (hp : s.pos = t.pos) : s = t := by
  obtain ⟨bytes, pos, _⟩ := s
  obtain ⟨bytes', pos', _⟩ := t
  cases hb
  cases hp
  rfl

theorem take_eq_some {len : Nat} {field : List UInt8} :
    r.take len = some (field, s) ↔ field.length = len ∧ Consumes r field s := by
  unfold Reader.take
  constructor
  · intro h
    by_cases hle : r.pos + len ≤ r.bytes.length
    · rw [dif_pos hle] at h
      cases h
      have hl : (slice r.pos len r.bytes).length = len := by
        rw [slice, length_take, length_drop]
        omega
      exact ⟨hl, rfl, by rw [hl], take_prefix _ _⟩
    · rw [dif_neg hle] at h
      cases h
  · rintro ⟨rfl, hb, hp, hs⟩
    have hl := hs.length_le
    have hw := r.within
    rw [length_drop] at hl
    rw [dif_pos (by omega)]
    refine congrArg some (Prod.ext ?_ (Reader.ext' hb.symm hp.symm))
    exact (prefix_iff_eq_take.mp hs).symm

theorem toLe_fromLe (bytes : List UInt8) : toLe bytes.length (fromLe bytes) = bytes := by
  induction bytes with
  | nil => rfl
  | cons byte bytes ih =>
    have hlt := byte.toNat_lt
    have hb : UInt8.ofNat (byte.toNat + 256 * fromLe bytes) = byte := by
      refine UInt8.toNat_inj.mp ?_
      rw [UInt8.toNat_ofNat']
      omega
    rw [length_cons, fromLe, toLe, hb,
      show (byte.toNat + 256 * fromLe bytes) / 256 = fromLe bytes by omega, ih]

theorem fromLe_lt (bytes : List UInt8) : fromLe bytes < 256 ^ bytes.length := by
  induction bytes with
  | nil => exact Nat.one_pos
  | cons byte =>
    have hlt := byte.toNat_lt
    rw [length_cons, Nat.pow_succ, fromLe]
    omega

theorem readLe_eq_some {count n : Nat} :
    r.readLe count = some (n, s) ↔ n < 256 ^ count ∧ Consumes r (toLe count n) s := by
  unfold Reader.readLe
  rw [Option.map_eq_some_iff]
  constructor
  · rintro ⟨⟨field, r'⟩, ht, heq⟩
    obtain ⟨rfl, rfl⟩ := Prod.mk.inj heq
    obtain ⟨rfl, hc⟩ := take_eq_some.mp ht
    rw [toLe_fromLe]
    exact ⟨fromLe_lt field, hc⟩
  · rintro ⟨hn, hc⟩
    exact ⟨⟨_, s⟩, take_eq_some.mpr ⟨length_toLe count n, hc⟩, Prod.ext (fromLe_toLe hn) rfl⟩

/-! ### Fields in order -/

theorem Consumes.nil (r : Reader) : Consumes r [] r := ⟨rfl, rfl, nil_prefix⟩

theorem consumes_nil : Consumes r [] s ↔ s = r :=
  ⟨fun h => Reader.ext' h.bytes h.pos, fun h => h ▸ Consumes.nil r⟩

/-- **One field after another.** -/
theorem consumes_append {field more : List UInt8} :
    Consumes r (field ++ more) t ↔ ∃ s, Consumes r field s ∧ Consumes s more t := by
  constructor
  · rintro ⟨hb, hp, hs⟩
    have hf := (prefix_append field more).trans hs
    have hl := hf.length_le
    have hw := r.within
    rw [length_drop] at hl
    refine ⟨⟨r.bytes, r.pos + field.length, by omega⟩, ⟨rfl, rfl, hf⟩, hb, ?_, ?_⟩
    · rw [hp, length_append, Nat.add_assoc]
    · obtain ⟨rest, hr⟩ := hs
      rw [← drop_drop, ← hr, append_assoc, drop_left]
      exact prefix_append _ _
  · rintro ⟨s, ⟨hb, hp, hs⟩, hb', hp', hs'⟩
    refine ⟨hb'.trans hb, ?_, ?_⟩
    · rw [hp', hp, length_append, Nat.add_assoc]
    · obtain ⟨rest, hr⟩ := hs
      rw [hb, hp, ← drop_drop, ← hr, drop_left] at hs'
      rw [← hr]
      exact (prefix_append_right_inj field).mpr hs'

theorem consumes_start {bytes field : List UInt8} (h : field <+: bytes) :
    ∃ s, Consumes (Reader.start bytes) field s :=
  ⟨⟨bytes, field.length, h.length_le⟩, rfl, (Nat.zero_add _).symm, h⟩

theorem Consumes.isPrefix {bytes field : List UInt8} (h : Consumes (Reader.start bytes) field s) :
    field <+: bytes := h.spelled

def readMany {ε α : Type} (read : Reader → Except ε (α × Reader)) :
    (count : Nat) → Reader → Except ε (List α × Reader)
  | 0, r => .ok ([], r)
  | count + 1, r => do
    let (item, r) ← read r
    let (rest, r) ← readMany read count r
    pure (item :: rest, r)

theorem readMany_eq_ok {ε α : Type} {read : Reader → Except ε (α × Reader)} {p : α → Prop}
    {spell : α → List UInt8}
    (hr : ∀ r item s, read r = .ok (item, s) ↔ p item ∧ Consumes r (spell item) s)
    {count : Nat} {items : List α} : readMany read count r = .ok (items, s) ↔
      items.length = count ∧ (∀ item ∈ items, p item) ∧ Consumes r (items.flatMap spell) s := by
  induction count generalizing r items with
  | zero =>
    constructor
    · intro h
      cases h
      exact ⟨rfl, nofun, Consumes.nil _⟩
    · rintro ⟨hl, -, hc⟩
      rw [eq_nil_of_length_eq_zero hl] at hc ⊢
      rw [consumes_nil.mp hc]
      rfl
  | succ count ih =>
    rw [readMany, bind_eq_ok]
    constructor
    · rintro ⟨⟨item, r'⟩, hi, h⟩
      obtain ⟨⟨rest, r''⟩, hre, h⟩ := bind_eq_ok.mp h
      cases h
      obtain ⟨hp, hc⟩ := (hr _ _ _).mp hi
      obtain ⟨hl, ha, hc'⟩ := ih.mp hre
      exact ⟨congrArg (· + 1) hl, forall_mem_cons.mpr ⟨hp, ha⟩, consumes_append.mpr ⟨r', hc, hc'⟩⟩
    · rintro ⟨hl, ha, hc⟩
      cases items with
      | nil => cases hl
      | cons =>
        obtain ⟨hp, ha⟩ := forall_mem_cons.mp ha
        obtain ⟨r', hc, hc'⟩ := consumes_append.mp hc
        exact ⟨_, (hr _ _ _).mpr ⟨hp, hc⟩,
          bind_eq_ok.mpr ⟨_, ih.mpr ⟨Nat.succ.inj hl, ha, hc'⟩, rfl⟩⟩

end LocalAi.Lib
