import LocalAi.Judgment.Artifact
import LocalAi.Lib.Partition
import LocalAi.Lib.Ranges
import LocalAi.Lib.Reader
import LocalAi.Tools.Arguments

/-!
# A head is tiled by its tensors

* `Clean`: a computation that fails with an error, if it fails.
* `floats_spec`: the values of a range are its bytes.
* `walk_tiles`: ranges that follow each other are apart and leave no gap.
* `open_tiled`: a head that is opened is tiled by its tensors.
-/

open List

namespace LocalAi.Judgment

open Lib

/-! ### Computations that fail with an error only -/

/-- Neither an index past the end nor an overflow. -/
def Clean {α : Type} (x : Except Fault α) : Prop := ∀ fault, x = .error fault → ∃ e, fault = .failed e

variable {α : Type} {a stop : Nat} {shape : List Nat} {data : Bytes}

theorem clean_ok (a : α) : Clean (.ok a : Except Fault α) := fun _ h => by cases h

theorem clean_failed (e : JudgmentError) : Clean (.error (.failed e) : Except Fault α) :=
  fun _ h => ⟨e, (Except.error.inj h).symm⟩

theorem Clean.bind {β : Type} {x : Except Fault α} {f : α → Except Fault β} (hx : Clean x)
    (hf : ∀ a, x = .ok a → Clean (f a)) : Clean (x >>= f) := by
  intro fault h
  rcases bind_eq_error.mp h with h | ⟨a, ha, h⟩
  · exact hx fault h
  · exact hf a ha fault h

theorem clean_okOr (found : Option α) (e : JudgmentError) : Clean (okOr found (.failed e)) := by
  cases found with
  | none => exact clean_failed e
  | some a => exact clean_ok a

theorem clean_ensure (holds : Bool) (e : JudgmentError) : Clean (ensure holds (.failed e)) := by
  cases holds with
  | false => exact clean_failed e
  | true => exact clean_ok ()

theorem okOr_eq_ok {found : Option α} {fault : Fault} {a : α} :
    okOr found fault = .ok a ↔ found = some a := elim_eq_ok

theorem add_eq_ok {b c : Nat} : add a b = .ok c ↔ a + b < 2 ^ 64 ∧ c = a + b := by
  unfold add
  split <;> simp_all [eq_comm]

theorem sub_eq_ok {b c : Nat} : sub a b = .ok c ↔ b ≤ a ∧ c = a - b := by
  unfold sub
  split <;> simp_all [eq_comm]

variable {bytes : Bytes}

theorem index_eq_ok {out : Bytes} {start : Nat} : index bytes start stop = .ok out ↔
      (start ≤ stop ∧ stop ≤ bytes.length) ∧ out = slice start (stop - start) bytes := by
  unfold index
  split <;> simp_all [eq_comm]

/-! ### The frame -/

/-- The header is where its length says. -/
def Framed (bytes : Bytes) : Prop :=
  8 ≤ bytes.length ∧ fromLe (bytes.take 8) ≠ 0 ∧ fromLe (bytes.take 8) ≤ maxHeader ∧
    fromLe (bytes.take 8) + 8 ≤ bytes.length

def headerOf (bytes : Bytes) : Bytes := slice 8 (fromLe (bytes.take 8)) bytes

def dataOf (bytes : Bytes) : Bytes := bytes.drop (8 + fromLe (bytes.take 8))

theorem splitHeader_eq_ok {e e' : JudgmentError} {out : Bytes × Bytes} :
    splitHeader bytes (.failed e) (.failed e') = .ok out ↔
      Framed bytes ∧ out = (headerOf bytes, dataOf bytes) := by
  have hd : slice (8 + fromLe (bytes.take 8)) (bytes.length - (8 + fromLe (bytes.take 8))) bytes =
      dataOf bytes := by
    rw [slice, dataOf, take_of_length_le (by rw [length_drop])]
  have hh : slice 8 (8 + fromLe (bytes.take 8) - 8) bytes = headerOf bytes := by
    rw [headerOf, Nat.add_sub_cancel_left]
  constructor
  · intro h
    obtain ⟨headerLen, hlen, h⟩ := bind_eq_ok.mp h
    obtain ⟨_, hl, h⟩ := bind_eq_ok.mp h
    obtain ⟨whole, hw, h⟩ := bind_eq_ok.mp h
    obtain ⟨_, hf, h⟩ := bind_eq_ok.mp h
    obtain ⟨dataStart, hst, h⟩ := bind_eq_ok.mp h
    obtain ⟨data, hdataOf, h⟩ := bind_eq_ok.mp h
    obtain ⟨header, hheaderOf, h⟩ := bind_eq_ok.mp h
    replace h := (Except.ok.inj h).symm
    obtain ⟨hs, hfo⟩ := Option.ite_none_right_eq_some.mp (okOr_eq_ok.mp hlen)
    obtain rfl := Option.some.inj hfo
    obtain ⟨hne, hle⟩ := of_decide_eq_true (ensure_eq_ok.mp hl)
    obtain ⟨-, rfl⟩ := add_eq_ok.mp hw
    obtain ⟨-, rfl⟩ := add_eq_ok.mp hst
    obtain ⟨-, rfl⟩ := index_eq_ok.mp hdataOf
    obtain ⟨-, rfl⟩ := index_eq_ok.mp hheaderOf
    rw [hd, hh] at h
    exact ⟨⟨hs, hne, hle, of_decide_eq_true (ensure_eq_ok.mp hf)⟩, h⟩
  · rintro ⟨⟨hs, hne, hle, hf⟩, rfl⟩
    rw [maxHeader] at hle
    refine bind_eq_ok.mpr ⟨_, okOr_eq_ok.mpr (if_pos hs), ?_⟩
    refine bind_eq_ok.mpr ⟨(), ensure_eq_ok.mpr (decide_eq_true ⟨hne, hle⟩), ?_⟩
    refine bind_eq_ok.mpr ⟨_, add_eq_ok.mpr ⟨by omega, rfl⟩, ?_⟩
    refine bind_eq_ok.mpr ⟨(), ensure_eq_ok.mpr (decide_eq_true hf), ?_⟩
    refine bind_eq_ok.mpr ⟨_, add_eq_ok.mpr ⟨by omega, rfl⟩, ?_⟩
    refine bind_eq_ok.mpr ⟨_, index_eq_ok.mpr ⟨⟨by omega, le_rfl⟩, hd.symm⟩, ?_⟩
    exact bind_eq_ok.mpr ⟨_, index_eq_ok.mpr ⟨⟨by omega, by omega⟩, hh.symm⟩, rfl⟩

theorem clean_splitHeader (bytes : Bytes) (e e' : JudgmentError) :
    Clean (splitHeader bytes (.failed e) (.failed e')) := by
  refine (clean_okOr _ e).bind fun headerLen _ => ?_
  refine (clean_ensure _ e').bind fun _ hl => ?_
  obtain ⟨-, hle⟩ := of_decide_eq_true (ensure_eq_ok.mp hl)
  rw [maxHeader] at hle
  rw [add_eq_ok.mpr ⟨by omega, rfl⟩]
  refine (clean_ok _).bind fun whole hw => ?_
  obtain rfl := Except.ok.inj hw
  refine (clean_ensure _ e').bind fun _ hf => ?_
  replace hf := of_decide_eq_true (ensure_eq_ok.mp hf)
  rw [add_eq_ok.mpr ⟨by omega, rfl⟩]
  refine (clean_ok _).bind fun dataStart hs => ?_
  obtain rfl := Except.ok.inj hs
  rw [index_eq_ok.mpr ⟨⟨by omega, le_rfl⟩, rfl⟩, index_eq_ok.mpr ⟨⟨by omega, by omega⟩, rfl⟩]
  exact (clean_ok _).bind fun _ _ => (clean_ok _).bind fun _ _ => clean_ok _

/-! ### One tensor -/

theorem foldlM_checkedMul {n : Nat} (h : shape.foldlM checkedMul a = some n) :
    n = a * shape.prod := by
  induction shape generalizing a with
  | nil =>
    rw [prod_nil, Nat.mul_one]
    exact (Option.some.inj h).symm
  | cons dim shape ih =>
    rw [foldlM_cons] at h
    obtain ⟨b, hb, hr⟩ := Option.bind_eq_some_iff.mp h
    obtain ⟨-, heq⟩ := Option.ite_none_right_eq_some.mp hb
    obtain rfl := Option.some.inj heq
    rw [ih hr, prod_cons, Nat.mul_assoc]

/-- The range is that of a tensor of the shape. -/
structure Fits (start stop : Nat) (shape : List Nat) (data : Bytes) : Prop where
  le : start ≤ stop
  size : byteLen shape = some (stop - start)
  within : stop ≤ data.length

theorem badRange_eq_ok {start : Nat} :
    badRange start stop shape data = .ok false ↔ Fits start stop shape data := by
  unfold badRange
  split
  case isTrue hlt =>
    constructor
    · intro h
      cases h
    · intro h
      exact absurd h.le (Nat.not_le.mpr hlt)
  case isFalse hle =>
    rw [sub_eq_ok.mpr ⟨Nat.not_lt.mp hle, rfl⟩]
    constructor
    · intro h
      have hc := Except.ok.inj h
      rw [Bool.or_eq_false_iff, decide_eq_false_iff_not, decide_eq_false_iff_not, not_not] at hc
      exact ⟨Nat.not_lt.mp hle, hc.1.symm, Nat.not_lt.mp hc.2⟩
    · intro h
      refine congrArg Except.ok ?_
      rw [Bool.or_eq_false_iff, decide_eq_false_iff_not, decide_eq_false_iff_not, not_not]
      exact ⟨h.size.symm, Nat.not_lt.mpr h.within⟩

theorem clean_badRange (start stop : Nat) (shape : List Nat) (data : Bytes) :
    Clean (badRange start stop shape data) := by
  unfold badRange
  split
  case isTrue => exact clean_ok true
  case isFalse hle =>
    rw [sub_eq_ok.mpr ⟨Nat.not_lt.mp hle, rfl⟩]
    exact (clean_ok _).bind fun _ _ => clean_ok _

theorem asChunks_eq (h : 4 ∣ bytes.length) : asChunks bytes = chunks 4 bytes := by
  rw [asChunks, Nat.div_mul_cancel h, take_length]

theorem length_of_mem_chunks {piece : Bytes} (h : 4 ∣ bytes.length)
    (hp : piece ∈ chunks 4 bytes) : piece.length = 4 := by
  obtain ⟨i, hi, rfl⟩ := mem_map.mp hp
  have hlt := lt_of_lt_divCeil (mem_range.mp hi)
  rw [slice, length_take, length_drop]
  omega

theorem floats_spec {n : Nat} (h : bytes.length = 4 * n) :
    (floats bytes).flatMap (toLe 4) = bytes ∧ (floats bytes).length = n := by
  have hd : 4 ∣ bytes.length := ⟨n, h⟩
  constructor
  · have hp : ∀ piece ∈ chunks 4 bytes, toLe 4 (fromLe piece) = piece := fun piece hpi => by
      rw [← length_of_mem_chunks hd hpi, toLe_fromLe]
    rw [floats, asChunks_eq hd, flatMap_map, flatMap_congr hp, flatMap_id',
      flatten_chunks (by decide)]
  · rw [floats, asChunks_eq hd, length_map, length_chunks, h, divCeil]
    omega

/-! ### What is declared, and what is read -/

/-- The values are those of the entry's range, as many as its shape says. -/
structure Reads (data : Bytes) (entry : Entry) (values : List F32) : Prop where
  dtype : entry.dtype = "F32".toList
  ordered : entry.dataOffsets.1 ≤ entry.dataOffsets.2
  within : entry.dataOffsets.2 ≤ data.length
  bytes : values.flatMap (toLe 4) =
    slice entry.dataOffsets.1 (entry.dataOffsets.2 - entry.dataOffsets.1) data
  length : values.length = entry.shape.prod

/-- The name, the shape and the values of a tensor. -/
abbrev Tensor := Text × List Nat × List F32

def tensorNamesOf (header : List (Text × Json)) : List Text :=
  (header.map Prod.fst).filter fun name => name ≠ "__metadata__".toList

/-- **The tensors tile the data**: they are those that the header declares, the values of each are
the bytes of its range, no two ranges share a byte, and every byte is in one. -/
def Tiled (declared : Json → Option Entry) (header : List (Text × Json)) (data : Bytes)
    (tensors : List Tensor) : Prop :=
  ∃ entries : List Entry, List.Forall₂ (fun tensor entry =>
      (∃ json, (tensor.1, json) ∈ header ∧ declared json = some entry) ∧
        entry.shape = tensor.2.1 ∧ Reads data entry tensor.2.2) tensors entries ∧
    (tensors.map Prod.fst).Perm (tensorNamesOf header) ∧
    entries.Pairwise (fun e f => Apart e.dataOffsets f.dataOffsets) ∧
    ∀ k < data.length, ∃ e ∈ entries, Covers e.dataOffsets k

theorem Fits.reads {entry : Entry} (hd : entry.dtype = "F32".toList)
    (h : Fits entry.dataOffsets.1 entry.dataOffsets.2 entry.shape data) :
    Reads data entry (floats (slice entry.dataOffsets.1
      (entry.dataOffsets.2 - entry.dataOffsets.1) data)) := by
  have hs := foldlM_checkedMul h.size
  have hle := h.le
  have hw := h.within
  have hlen : (slice entry.dataOffsets.1 (entry.dataOffsets.2 - entry.dataOffsets.1) data).length =
      4 * entry.shape.prod := by
    rw [slice, length_take, length_drop, ← hs]
    omega
  obtain ⟨hb, hc⟩ := floats_spec hlen
  exact ⟨hd, hle, hw, hb, hc⟩

/-! ### A head -/

theorem readTensor_eq_ok {name : Text}
    {state state' : List (Text × Json) × List (Nat × Nat)} {values : List F32}
    (h : readTensor data name shape state = .ok (values, state')) :
    ∃ json entry, (name, json) ∈ state.1 ∧ Entry.ofJson json = some entry ∧ entry.shape = shape ∧
      Reads data entry values ∧
      state' = (state.1.filter fun member => member.1 ≠ name, state.2 ++ [entry.dataOffsets]) := by
  obtain ⟨json, hj, h⟩ := bind_eq_ok.mp h
  obtain ⟨entry, he, h⟩ := bind_eq_ok.mp h
  obtain ⟨_, hk, h⟩ := bind_eq_ok.mp h
  obtain ⟨bad, hr, h⟩ := bind_eq_ok.mp h
  obtain ⟨_, hbad, h⟩ := bind_eq_ok.mp h
  obtain ⟨bytes, hb, h⟩ := bind_eq_ok.mp h
  obtain ⟨_, -, h⟩ := bind_eq_ok.mp h
  obtain ⟨rfl, hs⟩ := Prod.mk.inj (Except.ok.inj h)
  obtain ⟨hd, rfl⟩ := of_decide_eq_true (ensure_eq_ok.mp hk)
  obtain rfl := of_decide_eq_true (ensure_eq_ok.mp hbad)
  obtain ⟨-, rfl⟩ := index_eq_ok.mp hb
  exact ⟨json, entry, Tools.lookup_eq_some (okOr_eq_ok.mp hj), okOr_eq_ok.mp he, rfl,
    (badRange_eq_ok.mp hr).reads hd, hs.symm⟩

theorem clean_readTensor (data : Bytes) (name : Text) (shape : List Nat)
    (state : List (Text × Json) × List (Nat × Nat)) : Clean (readTensor data name shape state) := by
  refine (clean_okOr _ _).bind fun json _ => ?_
  refine (clean_okOr _ _).bind fun entry _ => ?_
  refine (clean_ensure _ _).bind fun _ _ => ?_
  refine (clean_badRange _ _ _ _).bind fun bad hr => ?_
  refine (clean_ensure _ _).bind fun _ hb => ?_
  obtain rfl := of_decide_eq_true (ensure_eq_ok.mp hb)
  have hf := badRange_eq_ok.mp hr
  rw [index_eq_ok.mpr ⟨⟨hf.le, hf.within⟩, rfl⟩]
  refine (clean_ok _).bind fun bytes _ => ?_
  exact (clean_ensure _ _).bind fun _ _ => clean_ok _

theorem clean_walk {ranges : List (Nat × Nat)} {cursor : Nat} :
    Clean (ranges.foldlM walkRange cursor) := by
  induction ranges generalizing cursor with
  | nil => exact clean_ok cursor
  | cons range ranges ih =>
    rw [foldlM_cons]
    refine Clean.bind ?_ fun _ _ => ih
    unfold walkRange
    split
    · exact clean_failed _
    · exact clean_ok _

theorem walk_tiles {ranges : List (Nat × Nat)} {cursor : Nat}
    (ho : ∀ range ∈ ranges, range.1 ≤ range.2) (h : ranges.foldlM walkRange cursor = .ok stop) :
    (∀ range ∈ ranges, cursor ≤ range.1) ∧ ranges.Pairwise Apart ∧
      ∀ k, cursor ≤ k → k < stop → ∃ range ∈ ranges, Covers range k := by
  induction ranges generalizing cursor with
  | nil =>
    obtain rfl : cursor = stop := Except.ok.inj h
    exact ⟨nofun, .nil, fun k hle hlt => by omega⟩
  | cons range ranges ih =>
    rw [foldlM_cons] at h
    obtain ⟨next, hn, h⟩ := bind_eq_ok.mp h
    unfold walkRange at hn
    split at hn
    case isTrue => cases hn
    case isFalse hs =>
      obtain rfl := Except.ok.inj hn
      obtain ⟨hle, ha, hc⟩ := ih (fun r hr => ho r (mem_cons_of_mem _ hr)) h
      have hrng := ho range mem_cons_self
      refine ⟨forall_mem_cons.mpr ⟨by omega, fun r hr => ?_⟩,
        pairwise_cons.mpr ⟨fun r hr k hk => ?_, ha⟩, fun k hk hlt => ?_⟩
      · have := hle r hr
        omega
      · have haft := hle r hr
        have hin := hk.1.2
        have hout := hk.2.1
        omega
      · by_cases hin : k < range.2
        · exact ⟨range, mem_cons_self, by omega, hin⟩
        · obtain ⟨r, hr, hrc⟩ := hc k (by omega) hlt
          exact ⟨r, mem_cons_of_mem _ hr, hrc⟩

def JudgmentHead.tensors (head : JudgmentHead) : List Tensor :=
  [("q.weight".toList, [head.headDim, head.width], head.qWeight),
    ("q.bias".toList, [head.headDim], head.qBias),
    ("k.weight".toList, [head.headDim, head.width], head.kWeight),
    ("k.bias".toList, [head.headDim], head.kBias),
    ("temperature".toList, [1], [head.temperature])]

theorem clean_readTensors (data : Bytes) (entries : List (Text × Json)) (width headDim : Nat) :
    Clean (readTensors data entries width headDim) := by
  refine (clean_readTensor _ _ _ _).bind fun _ _ => ?_
  refine (clean_readTensor _ _ _ _).bind fun _ _ => ?_
  refine (clean_readTensor _ _ _ _).bind fun _ _ => ?_
  refine (clean_readTensor _ _ _ _).bind fun _ _ => ?_
  refine (clean_readTensor _ _ _ _).bind fun ⟨values, state⟩ hv => ?_
  obtain ⟨-, entry, -, -, hs, hr, -⟩ := readTensor_eq_ok hv
  obtain ⟨value, rfl⟩ := length_eq_one_iff.mp
    (show values.length = 1 by rw [hr.length, hs, prod_singleton])
  exact (clean_ok value).bind fun _ _ => clean_ok _

theorem readTensors_declared {data : Bytes} {header : List (Text × Json)} {head : JudgmentHead}
    {ranges : List (Nat × Nat)} (h : readTensors data header head.width head.headDim =
      .ok ((head.qWeight, head.qBias, head.kWeight, head.kBias, head.temperature), ranges)) :
    ∃ entries : List Entry, List.Forall₂ (fun tensor entry =>
        (∃ json, (tensor.1, json) ∈ header ∧ Entry.ofJson json = some entry) ∧
          entry.shape = tensor.2.1 ∧ Reads data entry tensor.2.2) head.tensors entries ∧
      ranges = entries.map Entry.dataOffsets := by
  obtain ⟨⟨qWeight, s₁⟩, h₁, h⟩ := bind_eq_ok.mp h
  obtain ⟨⟨qBias, s₂⟩, h₂, h⟩ := bind_eq_ok.mp h
  obtain ⟨⟨kWeight, s₃⟩, h₃, h⟩ := bind_eq_ok.mp h
  obtain ⟨⟨kBias, s₄⟩, h₄, h⟩ := bind_eq_ok.mp h
  obtain ⟨⟨values, s₅⟩, h₅, h⟩ := bind_eq_ok.mp h
  obtain ⟨temperature, ht, h⟩ := bind_eq_ok.mp h
  obtain ⟨j₁, e₁, hj₁, he₁, hs₁, hr₁, rfl⟩ := readTensor_eq_ok h₁
  obtain ⟨j₂, e₂, hj₂, he₂, hs₂, hr₂, rfl⟩ := readTensor_eq_ok h₂
  obtain ⟨j₃, e₃, hj₃, he₃, hs₃, hr₃, rfl⟩ := readTensor_eq_ok h₃
  obtain ⟨j₄, e₄, hj₄, he₄, hs₄, hr₄, rfl⟩ := readTensor_eq_ok h₄
  obtain ⟨j₅, e₅, hj₅, he₅, hs₅, hr₅, rfl⟩ := readTensor_eq_ok h₅
  obtain ⟨hp, rfl⟩ := Prod.mk.inj (Except.ok.inj h)
  obtain ⟨rfl, rfl, rfl, rfl, rfl⟩ := hp
  simp only [mem_filter] at hj₂ hj₃ hj₄ hj₅
  have ho : values = [head.temperature] := by
    obtain ⟨value, hv⟩ := length_eq_one_iff.mp
      (show values.length = 1 by rw [hr₅.length, hs₅, prod_singleton])
    rw [hv] at ht ⊢
    rw [Option.some.inj (okOr_eq_ok.mp ht)]
  rw [ho] at hr₅
  refine ⟨[e₁, e₂, e₃, e₄, e₅], ?_, rfl⟩
  exact .cons ⟨⟨j₁, hj₁, he₁⟩, hs₁, hr₁⟩ <| .cons ⟨⟨j₂, hj₂.1, he₂⟩, hs₂, hr₂⟩ <|
    .cons ⟨⟨j₃, hj₃.1.1, he₃⟩, hs₃, hr₃⟩ <|
    .cons ⟨⟨j₄, hj₄.1.1.1, he₄⟩, hs₄, hr₄⟩ <|
    .cons ⟨⟨j₅, hj₅.1.1.1.1, he₅⟩, hs₅, hr₅⟩ .nil

theorem names_filter (header : List (Text × Json)) :
    (header.filter fun member => member.1 ≠ "__metadata__".toList).map Prod.fst =
      tensorNamesOf header := by
  rw [tensorNamesOf, filter_map]
  rfl

theorem clean_provenance (metadata : List (Text × Text)) (key : Text) :
    Clean (provenance metadata key) := by
  unfold provenance
  split
  · exact clean_ok none
  · split
    · exact clean_ok _
    · exact clean_failed _

theorem clean_dimension (metadata : List (Text × Text)) (key : Text) :
    Clean (dimension metadata key) := by
  unfold dimension
  split
  · split
    · exact clean_ok _
    · exact clean_failed _
  · exact clean_failed _

theorem clean_open (parse : Bytes → Option JsonMap) (bytes : Bytes) :
    Clean (JudgmentHead.open parse bytes) := by
  refine (clean_splitHeader _ _ _).bind fun _ _ => ?_
  refine (clean_okOr _ _).bind fun _ _ => ?_
  refine (clean_okOr _ _).bind fun _ _ => ?_
  refine (clean_okOr _ _).bind fun _ _ => ?_
  refine (clean_ensure _ _).bind fun _ _ => ?_
  refine (clean_ensure _ _).bind fun _ _ => ?_
  refine (clean_dimension _ _).bind fun _ _ => ?_
  refine (clean_dimension _ _).bind fun _ _ => ?_
  refine (clean_provenance _ _).bind fun _ _ => ?_
  refine (clean_ensure _ _).bind fun _ _ => ?_
  refine (clean_readTensors _ _ _ _).bind fun _ _ => ?_
  refine clean_walk.bind fun _ _ => ?_
  refine (clean_ensure _ _).bind fun _ _ => ?_
  exact (clean_ensure _ _).bind fun _ _ => clean_ok _

theorem open_tiled {parse : Bytes → Option JsonMap} {head : JudgmentHead}
    (h : JudgmentHead.open parse bytes = .ok head) : ∃ map, parse (headerOf bytes) = some map ∧
      Tiled Entry.ofJson map.members (dataOf bytes) head.tensors := by
  obtain ⟨⟨header, data⟩, hs, h⟩ := bind_eq_ok.mp h
  obtain ⟨map, hm, h⟩ := bind_eq_ok.mp h
  obtain ⟨value, -, h⟩ := bind_eq_ok.mp h
  obtain ⟨metadata, -, h⟩ := bind_eq_ok.mp h
  obtain ⟨_, -, h⟩ := bind_eq_ok.mp h
  obtain ⟨_, -, h⟩ := bind_eq_ok.mp h
  obtain ⟨width, -, h⟩ := bind_eq_ok.mp h
  obtain ⟨headDim, -, h⟩ := bind_eq_ok.mp h
  obtain ⟨renderer, -, h⟩ := bind_eq_ok.mp h
  obtain ⟨_, hcnt, h⟩ := bind_eq_ok.mp h
  obtain ⟨⟨⟨qWeight, qBias, kWeight, kBias, temperature⟩, ranges⟩, ht, h⟩ := bind_eq_ok.mp h
  obtain ⟨cursor, hw, h⟩ := bind_eq_ok.mp h
  obtain ⟨_, hend, h⟩ := bind_eq_ok.mp h
  obtain ⟨_, -, h⟩ := bind_eq_ok.mp h
  obtain rfl := Except.ok.inj h
  obtain ⟨-, hp⟩ := splitHeader_eq_ok.mp hs
  obtain ⟨rfl, rfl⟩ := Prod.mk.inj hp
  obtain rfl := of_decide_eq_true (ensure_eq_ok.mp hend)
  replace hcnt := of_decide_eq_true (ensure_eq_ok.mp hcnt)
  obtain ⟨entries, hd, rfl⟩ := @readTensors_declared _ _
    ⟨width, headDim, qWeight, qBias, kWeight, kBias, temperature, renderer⟩ _ ht
  have ho : ∀ range ∈ sortRanges (entries.map Entry.dataOffsets), range.1 ≤ range.2 := by
    intro range hrng
    obtain ⟨entry, he, rfl⟩ := mem_map.mp ((mergeSort_perm _ _).subset hrng)
    obtain ⟨tensor, -, -, -, hreads⟩ := exists_of_forall₂ hd.flip he
    exact hreads.ordered
  obtain ⟨-, ha, hc⟩ := walk_tiles ho hw
  refine ⟨map, okOr_eq_ok.mp hm, entries, hd.imp fun tensor entry hread => ?_, ?_, ?_, ?_⟩
  · obtain ⟨⟨json, hj, he⟩, hrest⟩ := hread
    exact ⟨⟨json, mem_of_mem_filter hj, he⟩, hrest⟩
  · rw [← names_filter]
    refine List.Subperm.perm_of_length_le (subperm_of_subset
      (show tensorNames.Nodup by decide) fun name hn => ?_) ?_
    · obtain ⟨tensor, hte, rfl⟩ := mem_map.mp hn
      obtain ⟨entry, -, ⟨json, hj, -⟩, -⟩ := exists_of_forall₂ hd hte
      exact mem_map_of_mem hj
    · rw [length_map, hcnt]
      exact le_rfl
  · have hsy : ∀ {r s : Nat × Nat}, Apart r s → Apart s r := fun h k hk => h k hk.symm
    exact pairwise_map.mp (((mergeSort_perm _ _).pairwise_iff hsy).mp ha)
  · intro k hk
    obtain ⟨range, hrng, hr⟩ := hc k (Nat.zero_le k) hk
    obtain ⟨entry, he, rfl⟩ := mem_map.mp ((mergeSort_perm _ _).subset hrng)
    exact ⟨entry, he, hr⟩

end LocalAi.Judgment
