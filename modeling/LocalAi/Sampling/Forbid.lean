import Mathlib.Data.List.GetD
import Mathlib.Algebra.Group.Nat.Defs

/-!
# Forbidding tokens a mask word at a time

`forbid` goes over the mask's words, 32 ids each; an allowed word is skipped and a forbidden one
filled.  The ids of a last word in part are asked for one by one, as `u32`.

* `SimpleVob`: a mask, whose words and bits agree.
* `forbid_by_words`: where that is what its own bit says.
* `wide_mask_wraps`: an id of more than 32 bits is taken for another.
-/

open List

namespace LocalAi.Sampling

/-- Ids in a word. -/
def bits : Nat := 32

def bitOf (words : List (BitVec 32)) (id : Nat) : Bool :=
  (words.getD (id / bits) 0).getLsbD (id % bits)

structure SimpleVob where
  len : Nat
  asSlice : List (BitVec 32)
  isAllowed : Nat → Bool
  len_le : len ≤ bits * asSlice.length
  allowed : ∀ id < len, isAllowed id = bitOf asSlice id

variable {Logit : Type} (negInfinity : Logit)

def forbidWord (word : BitVec 32) (chunk : List Logit) : List Logit :=
  if word = BitVec.allOnes 32 then chunk
  else if word = 0 then chunk.map fun _ => negInfinity
  else chunk.mapIdx fun bit logit => if word &&& 1 <<< bit = 0 then negInfinity else logit

/-- The loop over the chunks and the words. -/
def forbidWords : List (BitVec 32) → List Logit → List Logit
  | [], logits => logits
  | word :: words, logits =>
    if bits ≤ logits.length then
      forbidWord negInfinity word (logits.take bits) ++ forbidWords words (logits.drop bits)
    else logits

def SimpleVob.covered (mask : SimpleVob) (logits : List Logit) : Nat := min mask.len logits.length

/-- Where the whole words end. -/
def SimpleVob.start (mask : SimpleVob) (logits : List Logit) : Nat :=
  mask.covered logits - mask.covered logits % bits

def forbid (mask : SimpleVob) (logits : List Logit) : List Logit :=
  let covered := mask.covered logits
  let start := mask.start logits
  let chunks := forbidWords negInfinity mask.asSlice (logits.take start)
  let remainder := ((logits.take covered).drop start).mapIdx fun k logit =>
    -- `index as u32`
    if !mask.isAllowed ((start + k) % 2 ^ 32) then negInfinity else logit
  chunks ++ (remainder ++ logits.drop covered)

/-- The loop that asks for every id. -/
def forbidEach (mask : SimpleVob) (logits : List Logit) : List Logit :=
  logits.mapIdx fun id logit =>
    if id < mask.len ∧ bitOf mask.asSlice id = false then negInfinity else logit

variable {negInfinity}

/-- What becomes of the logit of an id. -/
def masked (negInfinity : Logit) (allowed : Bool) (logit : Logit) : Logit :=
  if allowed then logit else negInfinity

variable {i : Nat} {word : BitVec 32}

theorem and_shift_eq_zero (h : i < bits) : word &&& 1 <<< i = 0 ↔ word.getLsbD i = false := by
  change word &&& BitVec.twoPow 32 i = 0 ↔ _
  rw [BitVec.and_twoPow]
  cases hb : word.getLsbD i with
  | false => simp
  | true =>
    have hp : (BitVec.twoPow 32 i).getLsbD i = true := by
      rw [BitVec.getLsbD_twoPow, decide_eq_true (show i < 32 from h), decide_eq_true rfl]
      rfl
    rw [if_pos rfl]
    refine iff_of_false (fun hz => ?_) nofun
    rw [hz, show (0 : BitVec 32).getLsbD i = false from BitVec.getLsbD_zero] at hp
    cases hp

theorem length_forbidWord (word : BitVec 32) (chunk : List Logit) :
    (forbidWord negInfinity word chunk).length = chunk.length := by
  unfold forbidWord
  split
  · rfl
  · split
    · exact length_map ..
    · exact length_mapIdx ..

theorem length_forbidWords (words : List (BitVec 32)) (logits : List Logit) :
    (forbidWords negInfinity words logits).length = logits.length := by
  induction words generalizing logits with
  | nil => rfl
  | cons word words ih =>
    rw [forbidWords]
    split
    · rw [length_append, length_forbidWord, ih, ← length_append, take_append_drop]
    · rfl

theorem getElem?_forbidWord {chunk : List Logit} (h : i < bits) :
    (forbidWord negInfinity word chunk)[i]? =
      chunk[i]?.map (masked negInfinity (word.getLsbD i)) := by
  unfold forbidWord
  split
  · next hw =>
    rw [hw, BitVec.getLsbD_allOnes, decide_eq_true (show i < 32 from h)]
    exact Option.map_id'.symm
  · split
    · next hw =>
      rw [hw, getElem?_map, show (0 : BitVec 32).getLsbD i = false from BitVec.getLsbD_zero]
      rfl
    · rw [getElem?_mapIdx]
      refine congrArg (Option.map · _) (funext fun logit => ?_)
      unfold masked
      by_cases hb : word.getLsbD i = true
      · rw [if_pos hb, if_neg ((and_shift_eq_zero h).not.mpr (by simpa using hb))]
      · rw [if_neg hb, if_pos ((and_shift_eq_zero h).mpr (by simpa using hb))]

theorem bitOf_cons {words : List (BitVec 32)} (h : bits ≤ i) :
    bitOf (word :: words) i = bitOf words (i - bits) := by
  have hd : i / bits = (i - bits) / bits + 1 := by
    unfold bits at h ⊢
    omega
  have hm : i % bits = (i - bits) % bits := by
    unfold bits at h ⊢
    omega
  rw [bitOf, hd, hm, getD_cons_succ, bitOf]

theorem getElem?_forbidWords (words : List (BitVec 32)) {logits : List Logit}
    (hd : bits ∣ logits.length) (hl : logits.length ≤ bits * words.length) (i : Nat) :
    (forbidWords negInfinity words logits)[i]? =
      logits[i]?.map (masked negInfinity (bitOf words i)) := by
  induction words generalizing logits i with
  | nil =>
    rw [length_nil, Nat.mul_zero, Nat.le_zero] at hl
    rw [eq_nil_of_length_eq_zero hl]
    rfl
  | cons word words ih =>
    rw [forbidWords]
    split
    · next hle =>
      have ht : (logits.take bits).length = bits := by
        rw [length_take, Nat.min_eq_left hle]
      have hf := (@length_forbidWord _ negInfinity word _).trans ht
      by_cases hi : i < bits
      · rw [getElem?_append_left (by rwa [hf]), getElem?_forbidWord hi, getElem?_take_of_lt hi,
          bitOf, Nat.div_eq_of_lt hi, Nat.mod_eq_of_lt hi, getD_cons_zero]
      · have hi := Nat.not_lt.mp hi
        rw [getElem?_append_right (by rwa [hf]), hf, ih ?_ ?_, getElem?_drop,
          Nat.add_sub_cancel' hi, bitOf_cons hi]
        · rw [length_drop]
          exact Nat.dvd_sub hd (Nat.dvd_refl _)
        · rw [length_cons, Nat.mul_succ] at hl
          rw [length_drop]
          omega
    · next hle =>
      have hz : logits.length = 0 := Nat.eq_zero_of_dvd_of_lt hd (Nat.not_le.mp hle)
      rw [eq_nil_of_length_eq_zero hz]
      rfl

/-- The id that the bit of a logit is looked up by. -/
def SimpleVob.idOf (mask : SimpleVob) (logits : List Logit) (i : Nat) : Nat :=
  if i < mask.start logits then i else i % 2 ^ 32

/-- **Each logit** below both lengths is forbidden by the bit of its id, and no other is. -/
theorem getElem?_forbid (mask : SimpleVob) (logits : List Logit) (i : Nat) :
    (forbid negInfinity mask logits)[i]? = logits[i]?.map
      (masked negInfinity (!decide (i < mask.len) || bitOf mask.asSlice (mask.idOf logits i))) := by
  have hc : mask.covered logits ≤ mask.len ∧ mask.covered logits ≤ logits.length :=
    ⟨Nat.min_le_left .., Nat.min_le_right ..⟩
  have hs : mask.start logits ≤ mask.covered logits := Nat.sub_le ..
  have ht : (logits.take (mask.start logits)).length = mask.start logits := by
    rw [length_take]
    omega
  have hr : ((logits.take (mask.covered logits)).drop (mask.start logits)).length =
      mask.covered logits - mask.start logits := by
    rw [length_drop, length_take, Nat.min_eq_left hc.2]
  unfold forbid
  by_cases hi : i < mask.start logits
  · have hd : bits ∣ mask.start logits := Nat.dvd_sub_mod _
    rw [getElem?_append_left (by rwa [length_forbidWords, ht]), getElem?_forbidWords _ (by rwa [ht])
      (by have := mask.len_le; omega), getElem?_take_of_lt hi, decide_eq_true (by omega),
      SimpleVob.idOf, if_pos hi]
    rfl
  · rw [getElem?_append_right (by rw [length_forbidWords, ht]; omega), length_forbidWords, ht]
    by_cases hic : i < mask.covered logits
    · have hm : i % 2 ^ 32 < mask.len := Nat.lt_of_le_of_lt (Nat.mod_le i _) (Nat.lt_of_lt_of_le hic hc.1)
      rw [getElem?_append_left (by rw [length_mapIdx, hr]; omega), getElem?_mapIdx, getElem?_drop,
        Nat.add_sub_cancel' (Nat.le_of_not_lt hi), getElem?_take_of_lt hic,
        decide_eq_true (Nat.lt_of_lt_of_le hic hc.1), SimpleVob.idOf, if_neg hi, mask.allowed _ hm]
      refine congrArg (Option.map · _) (funext fun logit => ?_)
      cases bitOf mask.asSlice (i % 2 ^ 32) <;> rfl
    · rw [getElem?_append_right (by rw [length_mapIdx, hr]; omega), length_mapIdx, hr,
        getElem?_drop, show mask.covered logits + (i - mask.start logits -
          (mask.covered logits - mask.start logits)) = i by omega]
      cases hg : logits[i]? with
      | none => rfl
      | some logit =>
        have hil := (List.getElem?_eq_some_iff.mp hg).1
        have hn : ¬i < mask.len := fun h => hic (Nat.lt_min.mpr ⟨h, hil⟩)
        rw [decide_eq_false hn]
        rfl

theorem getElem?_forbidEach (mask : SimpleVob) (logits : List Logit) (i : Nat) :
    (forbidEach negInfinity mask logits)[i]? = logits[i]?.map
      (masked negInfinity (!decide (i < mask.len) || bitOf mask.asSlice i)) := by
  rw [forbidEach, getElem?_mapIdx]
  refine congrArg (Option.map · _) (funext fun logit => ?_)
  unfold masked
  by_cases hi : i < mask.len
  · cases hb : bitOf mask.asSlice i <;> simp [hi]
  · simp [hi]

theorem forbid_eq_forbidEach (mask : SimpleVob) (logits : List Logit) :
    forbid negInfinity mask logits = forbidEach negInfinity mask logits ↔
      ∀ i, mask.start logits ≤ i → i < mask.covered logits →
        bitOf mask.asSlice (i % 2 ^ 32) = bitOf mask.asSlice i ∨ logits[i]? = some negInfinity := by
  constructor
  · intro heq i hs hc
    have hi : i < mask.len := Nat.lt_of_lt_of_le hc (Nat.min_le_left ..)
    have hl : i < logits.length := Nat.lt_of_lt_of_le hc (Nat.min_le_right ..)
    have hf := congrArg (·[i]?) heq
    rw [getElem?_forbid, getElem?_forbidEach, SimpleVob.idOf, if_neg (Nat.not_lt.mpr hs),
      decide_eq_true hi, getElem?_eq_getElem hl, Option.map_some, Option.map_some] at hf
    rw [getElem?_eq_getElem hl]
    cases hb : bitOf mask.asSlice (i % 2 ^ 32) <;> cases hb' : bitOf mask.asSlice i <;>
      simp_all [masked]
  · intro h
    refine ext_getElem? fun i => ?_
    rw [getElem?_forbid, getElem?_forbidEach]
    by_cases hs : i < mask.start logits
    · rw [SimpleVob.idOf, if_pos hs]
    · cases hg : logits[i]? with
      | none => rfl
      | some logit =>
        have hl := (List.getElem?_eq_some_iff.mp hg).1
        by_cases hi : i < mask.len
        · rcases h i (Nat.le_of_not_lt hs) (Nat.lt_min.mpr ⟨hi, hl⟩) with hb | hb
          · rw [SimpleVob.idOf, if_neg hs, hb]
          · rw [hg] at hb
            obtain rfl := Option.some.inj hb
            simp [masked]
        · simp [hi, masked]

/-- **A mask word at a time**, every logit below both lengths is set by the bit of its id and every
other one is left; as by the loop that asks for every id, unless an id of more than 32 bits in the
last word has another bit than the one it is taken for. -/
theorem forbid_by_words (mask : SimpleVob) (logits : List Logit) :
    (∀ i, (forbid negInfinity mask logits)[i]? = logits[i]?.map (masked negInfinity
      (!decide (i < mask.len) || bitOf mask.asSlice (mask.idOf logits i)))) ∧
    (forbid negInfinity mask logits = forbidEach negInfinity mask logits ↔
      ∀ i, mask.start logits ≤ i → i < mask.covered logits →
        bitOf mask.asSlice (i % 2 ^ 32) = bitOf mask.asSlice i ∨ logits[i]? = some negInfinity) :=
  ⟨getElem?_forbid mask logits, forbid_eq_forbidEach mask logits⟩

/-- A mask that allows the first word only, and ends behind the ids of 32 bits. -/
def wideMask : SimpleVob where
  len := 2 ^ 32 + 1
  asSlice := BitVec.allOnes 32 :: List.replicate (2 ^ 27) 0
  isAllowed := bitOf (BitVec.allOnes 32 :: List.replicate (2 ^ 27) 0)
  len_le := by
    rw [length_cons, length_replicate]
    decide
  allowed := fun _ _ => rfl

/-- Zeros, and the bits of minus infinity. -/
theorem wide_mask_wraps : forbid 0xff800000#32 wideMask (replicate (2 ^ 32 + 1) 0#32) ≠
      forbidEach 0xff800000#32 wideMask (replicate (2 ^ 32 + 1) 0#32) := by
  intro heq
  have hc : wideMask.covered (replicate (2 ^ 32 + 1) 0#32) = 2 ^ 32 + 1 := by
    rw [SimpleVob.covered, length_replicate]
    exact Nat.min_self _
  have hs : wideMask.start (replicate (2 ^ 32 + 1) 0#32) = 2 ^ 32 := by
    rw [SimpleVob.start, hc]
    rfl
  have hb : bitOf wideMask.asSlice (2 ^ 32) = false := by
    unfold wideMask
    rw [bitOf_cons (by decide), bitOf, getD_replicate _ (by decide)]
    exact BitVec.getLsbD_zero
  have hz : bitOf wideMask.asSlice 0 = true := rfl
  rcases (forbid_eq_forbidEach _ _).mp heq (2 ^ 32) (Nat.le_of_eq hs) (by rw [hc]; decide) with h | h
  · rw [hb, Nat.mod_self, hz] at h
    cases h
  · rw [getElem?_replicate, if_pos (by decide)] at h
    exact absurd (Option.some.inj h) (by decide)

end LocalAi.Sampling
