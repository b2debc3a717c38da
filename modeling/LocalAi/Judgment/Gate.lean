import LocalAi.Judgment.Tiling
import LocalAi.Lib.Utf8

/-!
# A gate's tensors, and what they cover

The reader of a gate compares how many bytes the tensors have with how many there are, so that an
overlap makes up for a gap of its size.

* `Crossed`: valid tensors that overlap and add up to all bytes.
* `artifacts_tiled_iff`: what is accepted is tiled by its tensors, where they are not crossed.
* `overlap_fills_gap`: a gate with an overlap and a gap is accepted.
-/

open List

namespace LocalAi.Judgment

open Lib

/-! ### One tensor -/

/-- The entry of a tensor, as a gate's reader finds it. -/
def gateEntry (json : Json) : Option Entry := do
  let dtype ← dtypeOf json
  let shape ← usizes (member json "shape".toList)
  let dataOffsets ← usizePair (member json "data_offsets".toList)
  some ⟨dtype, shape, dataOffsets⟩

def valuesOf (data : Bytes) (entry : Entry) : List F32 :=
  floats (slice entry.dataOffsets.1 (entry.dataOffsets.2 - entry.dataOffsets.1) data)

/-- A tensor that its own checks let through. -/
structure Valid (data : Bytes) (entry : Entry) : Prop where
  dtype : entry.dtype = "F32".toList
  fits : Fits entry.dataOffsets.1 entry.dataOffsets.2 entry.shape data
  finite : (valuesOf data entry).all isFinite = true

variable {data : Bytes} {header members : List (Text × Json)}

theorem Valid.reads {entry : Entry} (h : Valid data entry) :
    Reads data entry (valuesOf data entry) := h.fits.reads h.dtype

theorem badTensor_eq_ok {dtype : Option Text} {start stop : Nat} {shape : List Nat} :
    badTensor dtype start stop shape data = .ok false ↔
      dtype = some "F32".toList ∧ Fits start stop shape data := by
  unfold badTensor
  split
  case isTrue hd =>
    constructor
    · intro h
      cases h
    · intro h
      exact absurd h.1 hd
  case isFalse hd =>
    rw [badRange_eq_ok, and_iff_right (not_not.mp hd)]

theorem clean_badTensor (dtype : Option Text) (start stop : Nat) (shape : List Nat) (data : Bytes) :
    Clean (badTensor dtype start stop shape data) := by
  unfold badTensor
  split
  · exact clean_ok true
  · exact clean_badRange _ _ _ _

theorem readGateTensor_eq_ok {name : Text} {json : Json} {out : (Nat × Nat) × Tensor} :
    readGateTensor data name json = .ok out ↔
      ∃ entry, gateEntry json = some entry ∧ Valid data entry ∧
        out = (entry.dataOffsets, name, entry.shape, valuesOf data entry) := by
  constructor
  · intro h
    obtain ⟨shape, hs, h⟩ := bind_eq_ok.mp h
    obtain ⟨⟨start, stop⟩, ho, h⟩ := bind_eq_ok.mp h
    obtain ⟨bad, hr, h⟩ := bind_eq_ok.mp h
    obtain ⟨_, hbad, h⟩ := bind_eq_ok.mp h
    obtain ⟨bytes, hb, h⟩ := bind_eq_ok.mp h
    obtain ⟨_, hf, h⟩ := bind_eq_ok.mp h
    replace h := (Except.ok.inj h).symm
    obtain rfl := of_decide_eq_true (ensure_eq_ok.mp hbad)
    obtain ⟨-, rfl⟩ := index_eq_ok.mp hb
    obtain ⟨hd, hfi⟩ := badTensor_eq_ok.mp hr
    refine ⟨⟨"F32".toList, shape, (start, stop)⟩, ?_, ⟨rfl, hfi, ensure_eq_ok.mp hf⟩, h⟩
    rw [gateEntry, hd, okOr_eq_ok.mp hs, okOr_eq_ok.mp ho]
    rfl
  · rintro ⟨⟨dtype, shape, start, stop⟩, he, hv, rfl⟩
    obtain ⟨dtype', hd, he⟩ := Option.bind_eq_some_iff.mp he
    obtain ⟨shape', hs, he⟩ := Option.bind_eq_some_iff.mp he
    obtain ⟨offsets, ho, he⟩ := Option.bind_eq_some_iff.mp he
    obtain ⟨rfl, rfl, rfl⟩ := Entry.mk.inj (Option.some.inj he)
    obtain rfl : dtype' = "F32".toList := hv.dtype
    refine bind_eq_ok.mpr ⟨_, okOr_eq_ok.mpr hs, ?_⟩
    refine bind_eq_ok.mpr ⟨_, okOr_eq_ok.mpr ho, ?_⟩
    refine bind_eq_ok.mpr ⟨false, badTensor_eq_ok.mpr ⟨hd, hv.fits⟩, ?_⟩
    refine bind_eq_ok.mpr ⟨(), ensure_eq_ok.mpr (decide_eq_true rfl), ?_⟩
    refine bind_eq_ok.mpr ⟨_, index_eq_ok.mpr ⟨⟨hv.fits.le, hv.fits.within⟩, rfl⟩, ?_⟩
    exact bind_eq_ok.mpr ⟨(), ensure_eq_ok.mpr hv.finite, rfl⟩

theorem clean_readGateTensor (data : Bytes) (name : Text) (json : Json) :
    Clean (readGateTensor data name json) := by
  refine (clean_okOr _ _).bind fun shape _ => ?_
  refine (clean_okOr _ _).bind fun ⟨start, stop⟩ _ => ?_
  refine (clean_badTensor _ _ _ _ _).bind fun bad hr => ?_
  refine (clean_ensure _ _).bind fun _ hb => ?_
  obtain rfl := of_decide_eq_true (ensure_eq_ok.mp hb)
  obtain ⟨-, hf⟩ := badTensor_eq_ok.mp hr
  rw [index_eq_ok.mpr ⟨⟨hf.le, hf.within⟩, rfl⟩]
  refine (clean_ok _).bind fun bytes _ => ?_
  exact (clean_ensure _ _).bind fun _ _ => clean_ok _

/-! ### All of them -/

def AllValid (data : Bytes) (header : List (Text × Json)) (entries : List Entry) : Prop :=
  List.Forall₂ (fun member entry => gateEntry member.2 = some entry ∧ Valid data entry) header entries

def sizesOf (entries : List Entry) : Nat := sizes (entries.map Entry.dataOffsets)

theorem sizesOf_cons (entry : Entry) (entries : List Entry) : sizesOf (entry :: entries) =
      entry.dataOffsets.2 - entry.dataOffsets.1 + sizesOf entries := sizes_cons _ _

def tensorsOf (data : Bytes) (header : List (Text × Json)) (entries : List Entry) : List Tensor :=
  List.zipWith (fun member entry => (member.1, entry.shape, valuesOf data entry)) header entries

variable {covered : Nat} {key : Text} {entries : List Entry}

theorem readGateTensors_eq_ok {out : List Tensor × Nat} (hc : covered < 2 ^ 64) :
    readGateTensors data header covered = .ok out ↔
      ∃ entries, AllValid data header entries ∧ covered + sizesOf entries < 2 ^ 64 ∧
        out = (tensorsOf data header entries, covered + sizesOf entries) := by
  induction header generalizing covered out with
  | nil =>
    constructor
    · intro h
      exact ⟨[], .nil, hc, (Except.ok.inj h).symm⟩
    · rintro ⟨entries, hv, -, rfl⟩
      cases hv
      rfl
  | cons first header ih =>
    obtain ⟨name, json⟩ := first
    constructor
    · intro h
      obtain ⟨⟨range, tensor⟩, ht, h⟩ := bind_eq_ok.mp h
      obtain ⟨size, hs, h⟩ := bind_eq_ok.mp h
      obtain ⟨total, hto, h⟩ := bind_eq_ok.mp h
      obtain ⟨⟨tensors, total'⟩, hr, h⟩ := bind_eq_ok.mp h
      obtain ⟨entry, he, hv, heq⟩ := readGateTensor_eq_ok.mp ht
      obtain ⟨rfl, rfl⟩ := Prod.mk.inj heq
      obtain ⟨-, rfl⟩ := sub_eq_ok.mp hs
      obtain ⟨hlt, rfl⟩ := add_eq_ok.mp hto
      obtain ⟨entries, ha, hf, ho⟩ := (ih hlt).mp hr
      obtain ⟨rfl, rfl⟩ := Prod.mk.inj ho
      refine ⟨entry :: entries, .cons ⟨he, hv⟩ ha, ?_, ?_⟩
      · rw [sizesOf_cons]
        omega
      · rw [sizesOf_cons, ← Nat.add_assoc]
        exact (Except.ok.inj h).symm
    · rintro ⟨entries, ha, hf, rfl⟩
      obtain ⟨entry, entries, ⟨he, hv⟩, hr, rfl⟩ := forall₂_cons_left_iff.mp ha
      rw [sizesOf_cons, ← Nat.add_assoc] at hf ⊢
      have hlt : covered + (entry.dataOffsets.2 - entry.dataOffsets.1) < 2 ^ 64 := by omega
      refine bind_eq_ok.mpr ⟨_, readGateTensor_eq_ok.mpr ⟨entry, he, hv, rfl⟩, ?_⟩
      refine bind_eq_ok.mpr ⟨_, sub_eq_ok.mpr ⟨hv.fits.le, rfl⟩, ?_⟩
      refine bind_eq_ok.mpr ⟨_, add_eq_ok.mpr ⟨hlt, rfl⟩, ?_⟩
      exact bind_eq_ok.mpr ⟨_, (ih hlt).mpr ⟨entries, hr, hf, rfl⟩, rfl⟩

theorem readGateTensors_eq_overflow (hc : covered < 2 ^ 64) :
    readGateTensors data header covered = .error .overflow ↔
      ∃ k entries, AllValid data (header.take k) entries ∧ 2 ^ 64 ≤ covered + sizesOf entries := by
  induction header generalizing covered with
  | nil =>
    constructor
    · intro h
      cases h
    · rintro ⟨k, entries, hv, hle⟩
      rw [take_nil] at hv
      cases hv
      exact absurd hle (Nat.not_le.mpr hc)
  | cons first header ih =>
    obtain ⟨name, json⟩ := first
    constructor
    · intro h
      rcases bind_eq_error.mp h with h | ⟨⟨range, tensor⟩, ht, h⟩
      · obtain ⟨e, he⟩ := clean_readGateTensor _ _ _ _ h
        cases he
      obtain ⟨entry, hent, hv, heq⟩ := readGateTensor_eq_ok.mp ht
      obtain ⟨rfl, rfl⟩ := Prod.mk.inj heq
      rcases bind_eq_error.mp h with h | ⟨size, hs, h⟩
      · rw [sub_eq_ok.mpr ⟨hv.fits.le, rfl⟩] at h
        cases h
      obtain ⟨-, rfl⟩ := sub_eq_ok.mp hs
      by_cases hlt : covered + (entry.dataOffsets.2 - entry.dataOffsets.1) < 2 ^ 64
      · rw [add_eq_ok.mpr ⟨hlt, rfl⟩] at h
        rcases bind_eq_error.mp h with h | ⟨total, hto, h⟩
        · cases h
        obtain rfl := Except.ok.inj hto
        rcases bind_eq_error.mp h with h | ⟨_, -, h⟩
        · obtain ⟨k, entries, ha, hle⟩ := (ih hlt).mp h
          refine ⟨k + 1, entry :: entries, .cons ⟨hent, hv⟩ ha, ?_⟩
          rw [sizesOf_cons]
          omega
        · cases h
      · refine ⟨1, [entry], .cons ⟨hent, hv⟩ .nil, ?_⟩
        rw [sizesOf_cons]
        omega
    · rintro ⟨k, entries, ha, hle⟩
      cases k with
      | zero =>
        cases ha
        exact absurd hle (Nat.not_le.mpr hc)
      | succ k =>
        obtain ⟨entry, entries, ⟨hent, hv⟩, hr, rfl⟩ := forall₂_cons_left_iff.mp ha
        rw [sizesOf_cons, ← Nat.add_assoc] at hle
        refine bind_eq_error.mpr (.inr ⟨_, readGateTensor_eq_ok.mpr ⟨entry, hent, hv, rfl⟩, ?_⟩)
        refine bind_eq_error.mpr (.inr ⟨_, sub_eq_ok.mpr ⟨hv.fits.le, rfl⟩, ?_⟩)
        by_cases hlt : covered + (entry.dataOffsets.2 - entry.dataOffsets.1) < 2 ^ 64
        · refine bind_eq_error.mpr (.inr ⟨_, add_eq_ok.mpr ⟨hlt, rfl⟩, ?_⟩)
          exact bind_eq_error.mpr (.inl ((ih hlt).mpr ⟨k, entries, hr, hle⟩))
        · exact bind_eq_error.mpr (.inl (if_neg hlt))

theorem readGateTensors_ne_outOfBounds :
    readGateTensors data header covered ≠ .error .outOfBounds := by
  induction header generalizing covered with
  | nil =>
    intro h
    cases h
  | cons first header ih =>
    obtain ⟨name, json⟩ := first
    intro h
    rcases bind_eq_error.mp h with h | ⟨⟨range, tensor⟩, ht, h⟩
    · obtain ⟨e, he⟩ := clean_readGateTensor _ _ _ _ h
      cases he
    obtain ⟨entry, -, hv, heq⟩ := readGateTensor_eq_ok.mp ht
    obtain ⟨rfl, rfl⟩ := Prod.mk.inj heq
    rcases bind_eq_error.mp h with h | ⟨size, -, h⟩
    · rw [sub_eq_ok.mpr ⟨hv.fits.le, rfl⟩] at h
      cases h
    rcases bind_eq_error.mp h with h | ⟨total, -, h⟩
    · unfold add at h
      split at h <;> cases h
    rcases bind_eq_error.mp h with h | ⟨_, -, h⟩
    · exact ih h
    · cases h

/-! ### A gate -/

theorem filter_of_notMem (h : key ∉ members.map Prod.fst) :
    members.filter (fun m => m.1 ≠ key) = members := by
  refine filter_eq_self.mpr fun m hm => decide_eq_true fun heq => h ?_
  exact mem_map.mpr ⟨m, hm, heq⟩

theorem replace_of_notMem (last : Text × Json) (h : key ∉ members.map Prod.fst) :
    members.map (fun m => if m.1 == key then last else m) = members := by
  refine (map_congr_left fun m hm => if_neg fun heq => h ?_).trans (map_id members)
  exact mem_map.mpr ⟨m, hm, beq_iff_eq.mp heq⟩

theorem swapRemove_perm (hd : (members.map Prod.fst).Nodup) :
    (Store.Records.swapRemove key members).Perm (members.filter fun m => m.1 ≠ key) := by
  rcases eq_nil_or_concat' members with rfl | ⟨front, last, rfl⟩
  · exact .nil
  rw [map_append, nodup_append] at hd
  obtain ⟨hf, -, hap⟩ := hd
  unfold Store.Records.swapRemove
  rw [getLast?_concat, dropLast_concat]
  dsimp only
  by_cases hl : last.1 = key
  · -- the metadata comes last
    have hn : key ∉ front.map Prod.fst := fun hmem =>
      hap key hmem last.1 mem_cons_self hl.symm
    have hg : [last].filter (fun m => decide (m.1 ≠ key)) = [] := by simp [hl]
    rw [if_pos (beq_iff_eq.mpr hl), filter_append, filter_of_notMem hn, hg, append_nil]
  have hke : [last].filter (fun m => decide (m.1 ≠ key)) = [last] := by
    simp [hl]
  rw [if_neg (by simpa using hl), filter_append, hke]
  by_cases hmem : key ∈ front.map Prod.fst
  · -- the last member takes the place of the metadata
    obtain ⟨m, hm, hk⟩ := mem_map.mp hmem
    obtain ⟨a, b, rfl⟩ := append_of_mem hm
    rw [map_append, map_cons, hk, nodup_append, nodup_cons] at hf
    obtain ⟨-, ⟨hb, -⟩, hab⟩ := hf
    have ha : key ∉ a.map Prod.fst := fun hin => hab key hin key mem_cons_self rfl
    have hany : ((a ++ m :: b ++ [last]).any fun m => m.1 == key) = true :=
      any_eq_true.mpr ⟨m, by simp, beq_iff_eq.mpr hk⟩
    rw [if_pos hany, map_append, map_cons, if_pos (beq_iff_eq.mpr hk),
      replace_of_notMem last ha, replace_of_notMem last hb, filter_append, filter_cons,
      if_neg (by simp [hk]), filter_of_notMem ha, filter_of_notMem hb]
    exact perm_middle.trans (perm_append_singleton last (a ++ b)).symm
  · rw [if_neg, filter_of_notMem hmem]
    intro hany
    obtain ⟨m, hm, hk⟩ := any_eq_true.mp hany
    rcases mem_append.mp hm with hm | hm
    · exact hmem (mem_map.mpr ⟨m, hm, beq_iff_eq.mp hk⟩)
    · rw [mem_singleton.mp hm] at hk
      exact hl (beq_iff_eq.mp hk)

/-- The members of a gate's header that are tensors. -/
def gateMembers (map : JsonMap) : List (Text × Json) :=
  Store.Records.swapRemove "__metadata__".toList map.members

def gateMetadata (map : JsonMap) : Option (List (Text × Json)) :=
  match lookup "__metadata__".toList map.members with
  | some (.object metadata) => some metadata
  | _ => none

theorem readF32Safetensors_eq_ok {parse : Bytes → Option JsonMap} {bytes : Bytes}
    {out : List (Text × Json) × List Tensor} : readF32Safetensors parse bytes = .ok out ↔
      Framed bytes ∧ ∃ map metadata entries, parse (headerOf bytes) = some map ∧
        gateMetadata map = some metadata ∧ AllValid (dataOf bytes) (gateMembers map) entries ∧
        sizesOf entries < 2 ^ 64 ∧ sizesOf entries = (dataOf bytes).length ∧
        out = (metadata, tensorsOf (dataOf bytes) (gateMembers map) entries) := by
  constructor
  · intro h
    obtain ⟨⟨header, data⟩, hs, h⟩ := bind_eq_ok.mp h
    obtain ⟨map, hmap, h⟩ := bind_eq_ok.mp h
    obtain ⟨metadata, hm, h⟩ := bind_eq_ok.mp h
    obtain ⟨⟨tensors, covered⟩, ht, h⟩ := bind_eq_ok.mp h
    obtain ⟨_, hc, he⟩ := bind_eq_ok.mp h
    replace he := (Except.ok.inj he).symm
    obtain ⟨hf, hp⟩ := splitHeader_eq_ok.mp hs
    obtain ⟨rfl, rfl⟩ := Prod.mk.inj hp
    obtain ⟨entries, hv, hlt, ho⟩ := (readGateTensors_eq_ok (by decide)).mp ht
    rw [Nat.zero_add] at hlt ho
    obtain ⟨rfl, rfl⟩ := Prod.mk.inj ho
    exact ⟨hf, map, metadata, entries, okOr_eq_ok.mp hmap, okOr_eq_ok.mp hm, hv, hlt,
      of_decide_eq_true (ensure_eq_ok.mp hc), he⟩
  · rintro ⟨hf, map, metadata, entries, hmap, hm, hv, hlt, hsum, rfl⟩
    refine bind_eq_ok.mpr ⟨_, splitHeader_eq_ok.mpr ⟨hf, rfl⟩, ?_⟩
    refine bind_eq_ok.mpr ⟨map, okOr_eq_ok.mpr hmap, ?_⟩
    refine bind_eq_ok.mpr ⟨metadata, okOr_eq_ok.mpr hm, ?_⟩
    refine bind_eq_ok.mpr ⟨_, (readGateTensors_eq_ok (by decide)).mpr
      ⟨entries, hv, by rw [Nat.zero_add]; exact hlt, rfl⟩, ?_⟩
    refine bind_eq_ok.mpr ⟨(), ensure_eq_ok.mpr (decide_eq_true ?_), rfl⟩
    rw [Nat.zero_add, hsum]

theorem readF32Safetensors_clean_iff {parse : Bytes → Option JsonMap} {bytes : Bytes} :
    Clean (readF32Safetensors parse bytes) ↔
      ¬ (Framed bytes ∧ ∃ map, parse (headerOf bytes) = some map ∧ (gateMetadata map).isSome ∧
        ∃ k entries, AllValid (dataOf bytes) ((gateMembers map).take k) entries ∧
          2 ^ 64 ≤ sizesOf entries) := by
  constructor
  · rintro hc ⟨hf, map, hmap, hm, k, entries, hv, hle⟩
    obtain ⟨metadata, hm⟩ := Option.isSome_iff_exists.mp hm
    have ho : readF32Safetensors parse bytes = .error .overflow := by
      refine bind_eq_error.mpr (.inr ⟨_, splitHeader_eq_ok.mpr ⟨hf, rfl⟩, ?_⟩)
      refine bind_eq_error.mpr (.inr ⟨map, okOr_eq_ok.mpr hmap, ?_⟩)
      refine bind_eq_error.mpr (.inr ⟨metadata, okOr_eq_ok.mpr hm, ?_⟩)
      refine bind_eq_error.mpr (.inl ((readGateTensors_eq_overflow (by decide)).mpr
        ⟨k, entries, hv, ?_⟩))
      rw [Nat.zero_add]
      exact hle
    obtain ⟨e, he⟩ := hc _ ho
    cases he
  · intro h
    refine (clean_splitHeader _ _ _).bind fun ⟨header, data⟩ hs => ?_
    obtain ⟨hf, hp⟩ := splitHeader_eq_ok.mp hs
    obtain ⟨rfl, rfl⟩ := Prod.mk.inj hp
    refine (clean_okOr _ _).bind fun map hmap => ?_
    refine (clean_okOr _ _).bind fun metadata hm => ?_
    refine Clean.bind ?_ fun _ _ => (clean_ensure _ _).bind fun _ _ => clean_ok _
    intro fault hfa
    cases fault with
    | failed e => exact ⟨e, rfl⟩
    | outOfBounds => exact absurd hfa readGateTensors_ne_outOfBounds
    | overflow =>
      obtain ⟨k, entries, hv, hle⟩ := (readGateTensors_eq_overflow (by decide)).mp hfa
      rw [Nat.zero_add] at hle
      exact absurd ⟨hf, map, okOr_eq_ok.mp hmap,
        Option.isSome_iff_exists.mpr ⟨metadata, okOr_eq_ok.mp hm⟩, k, entries, hv, hle⟩ h

/-- **Crossed tensors**: valid ones whose sizes add up to more than a word holds, or all of them
valid, as many bytes as there are, and two that share one. -/
def Crossed (parse : Bytes → Option JsonMap) (bytes : Bytes) : Prop :=
  Framed bytes ∧ ∃ map, parse (headerOf bytes) = some map ∧ (gateMetadata map).isSome ∧
    ((∃ k entries, AllValid (dataOf bytes) ((gateMembers map).take k) entries ∧
      2 ^ 64 ≤ sizesOf entries) ∨
    ∃ entries, AllValid (dataOf bytes) (gateMembers map) entries ∧
      sizesOf entries = (dataOf bytes).length ∧
      ¬ entries.Pairwise fun e f => Apart e.dataOffsets f.dataOffsets)

def HeadTiled (parse : Bytes → Option JsonMap) (bytes : Bytes) : Prop :=
  Clean (JudgmentHead.open parse bytes) ∧
    ∀ head, JudgmentHead.open parse bytes = .ok head → ∃ map, parse (headerOf bytes) = some map ∧
      Tiled Entry.ofJson map.members (dataOf bytes) head.tensors

def GateTiled (parse : Bytes → Option JsonMap) (bytes : Bytes) : Prop :=
  Clean (readF32Safetensors parse bytes) ∧
    ∀ metadata tensors, readF32Safetensors parse bytes = .ok (metadata, tensors) →
      ∃ map, parse (headerOf bytes) = some map ∧ Tiled gateEntry map.members (dataOf bytes) tensors

theorem names_tensorsOf (h : AllValid data header entries) :
    (tensorsOf data header entries).map Prod.fst = header.map Prod.fst := by
  induction h with
  | nil => rfl
  | cons _ _ ih => exact congrArg (_ :: ·) ih

theorem AllValid.declared (h : AllValid data header entries) (hmem : ∀ m ∈ header, m ∈ members) :
    List.Forall₂ (fun tensor entry =>
      (∃ json, (tensor.1, json) ∈ members ∧ gateEntry json = some entry) ∧
        entry.shape = tensor.2.1 ∧ Reads data entry tensor.2.2)
      (tensorsOf data header entries) entries := by
  induction h with
  | nil => exact .nil
  | cons hf _ ih =>
    refine .cons ⟨⟨_, hmem _ mem_cons_self, hf.1⟩, rfl, hf.2.reads⟩ (ih fun m hm => ?_)
    exact hmem m (mem_cons_of_mem _ hm)

theorem AllValid.unique {entries' : List Entry} (hd : (members.map Prod.fst).Nodup)
    (h : AllValid data header entries) (hmem : ∀ m ∈ header, m ∈ members)
    (h' : List.Forall₂ (fun (tensor : Tensor) entry =>
      (∃ json, (tensor.1, json) ∈ members ∧ gateEntry json = some entry) ∧
        entry.shape = tensor.2.1 ∧ Reads data entry tensor.2.2)
      (tensorsOf data header entries) entries') : entries = entries' := by
  induction h generalizing entries' with
  | nil =>
    cases h'
    rfl
  | cons hf _ ih =>
    rename_i m entry header entries _
    obtain ⟨entry', rest, ⟨⟨json, hj, hent⟩, -⟩, hr, rfl⟩ :=
      forall₂_cons_left_iff.mp h'
    have hs := inj_on_of_nodup_map hd hj (hmem m mem_cons_self) rfl
    rw [← hs] at hf
    obtain rfl := Option.some.inj (hf.1.symm.trans hent)
    rw [ih (fun m hm => hmem m (mem_cons_of_mem _ hm)) hr]

theorem mem_gateMembers {map : JsonMap} {m : Text × Json} (h : m ∈ gateMembers map) :
    m ∈ map.members :=
  mem_of_mem_filter ((swapRemove_perm map.distinct).subset h)

theorem tiled_iff {map : JsonMap}
    (hva : AllValid data (gateMembers map) entries) (hs : sizesOf entries = data.length) :
    Tiled gateEntry map.members data (tensorsOf data (gateMembers map) entries) ↔
      entries.Pairwise fun e f => Apart e.dataOffsets f.dataOffsets := by
  constructor
  · rintro ⟨entries', hd, -, ha, -⟩
    rwa [hva.unique map.distinct (fun m => mem_gateMembers) hd]
  · intro ha
    refine ⟨entries, hva.declared fun m => mem_gateMembers, ?_, ha, fun k hk => ?_⟩
    · rw [names_tensorsOf hva, ← names_filter]
      exact (swapRemove_perm map.distinct).map Prod.fst
    · have hle : ∀ range ∈ entries.map Entry.dataOffsets, range.2 ≤ data.length := by
        intro range hr
        obtain ⟨entry, he, rfl⟩ := mem_map.mp hr
        obtain ⟨m, -, -, hv⟩ := exists_of_forall₂ hva.flip he
        exact hv.fits.within
      obtain ⟨range, hr, hc⟩ :=
        covered_of_apart (pairwise_map.mpr ha) hle hs hk
      obtain ⟨entry, he, rfl⟩ := mem_map.mp hr
      exact ⟨entry, he, hc⟩

/-- **What is accepted is tiled** by its tensors, and what is not ends with an error, unless a
gate's tensors are crossed. -/
theorem artifacts_tiled_iff (parse : Bytes → Option JsonMap) (bytes : Bytes) :
    (HeadTiled parse bytes ∧ GateTiled parse bytes) ↔ ¬ Crossed parse bytes := by
  have hh : HeadTiled parse bytes := ⟨clean_open parse bytes, fun head h => open_tiled h⟩
  rw [and_iff_right hh]
  constructor
  · rintro ⟨hcl, ht⟩ ⟨hf, map, hmap, hm, hca⟩
    rcases hca with ho | ⟨entries, hv, hs, hc⟩
    · exact readF32Safetensors_clean_iff.mp hcl ⟨hf, map, hmap, hm, ho⟩
    · by_cases hlt : sizesOf entries < 2 ^ 64
      · obtain ⟨metadata, hm⟩ := Option.isSome_iff_exists.mp hm
        have hok := readF32Safetensors_eq_ok.mpr
          ⟨hf, map, metadata, entries, hmap, hm, hv, hlt, hs, rfl⟩
        obtain ⟨map', hmap', h⟩ := ht _ _ hok
        obtain rfl := Option.some.inj (hmap.symm.trans hmap')
        exact hc ((tiled_iff hv hs).mp h)
      · refine readF32Safetensors_clean_iff.mp hcl
          ⟨hf, map, hmap, hm, (gateMembers map).length, entries, ?_, Nat.not_lt.mp hlt⟩
        rwa [take_length]
  · intro h
    refine ⟨readF32Safetensors_clean_iff.mpr fun ho => h ?_, fun metadata tensors hok => ?_⟩
    · obtain ⟨hf, map, hmap, hm, hl⟩ := ho
      exact ⟨hf, map, hmap, hm, .inl hl⟩
    · obtain ⟨hf, map, metadata', entries, hmap, hm, hv, -, hs, hout⟩ :=
        readF32Safetensors_eq_ok.mp hok
      obtain ⟨-, rfl⟩ := Prod.mk.inj hout
      refine ⟨map, hmap, (tiled_iff hv hs).mpr (Classical.not_not.mp fun hc => h ?_)⟩
      exact ⟨hf, map, hmap, Option.isSome_iff_exists.mpr ⟨_, hm⟩, .inr ⟨entries, hv, hs, hc⟩⟩

/-! ### An overlap and a gap -/

/-- One float at the start of the data. -/
def firstFloat : Json :=
  .object [("dtype".toList, .string "F32".toList), ("shape".toList, .array [.number "1".toList]),
    ("data_offsets".toList, .array [.number "0".toList, .number "4".toList])]

def twiceMap : JsonMap where
  members := [("__metadata__".toList, .object []), ("a".toList, firstFloat), ("b".toList, firstFloat)]
  distinct := by decide

/-- The header of two tensors at one place. -/
def twiceHeader : Bytes := utf8Bytes (Json.object twiceMap.members).toText

def twiceParse (header : Bytes) : Option JsonMap :=
  if header = twiceHeader then some twiceMap else none

/-- The header, and eight bytes of data. -/
def twiceBytes : Bytes := toLe 8 twiceHeader.length ++ (twiceHeader ++ List.replicate 8 0)

theorem length_twiceHeader : twiceHeader.length = 125 := by decide +kernel

theorem take_twiceBytes : fromLe (twiceBytes.take 8) = 125 := by
  have ht : twiceBytes.take 8 = toLe 8 twiceHeader.length :=
    take_left' (length_toLe 8 twiceHeader.length)
  rw [ht, length_twiceHeader, fromLe_toLe (by decide)]

theorem headerOf_twiceBytes : headerOf twiceBytes = twiceHeader := by
  have hs := slice_append (toLe 8 twiceHeader.length) twiceHeader (replicate 8 0)
  rw [length_toLe, length_twiceHeader] at hs
  rw [headerOf, take_twiceBytes, twiceBytes, length_twiceHeader, hs]

theorem dataOf_twiceBytes : dataOf twiceBytes = replicate 8 0 := by
  rw [dataOf, take_twiceBytes, twiceBytes, ← append_assoc]
  exact drop_left' (by rw [length_append, length_toLe, length_twiceHeader])

def firstEntry : Entry := ⟨"F32".toList, [1], (0, 4)⟩

theorem firstEntry_valid : Valid (replicate 8 0) firstEntry where
  dtype := rfl
  fits := ⟨by decide, by decide, by decide⟩
  finite := by decide

theorem twice_valid :
    AllValid (dataOf twiceBytes) (gateMembers twiceMap) [firstEntry, firstEntry] := by
  rw [dataOf_twiceBytes]
  exact .cons ⟨rfl, firstEntry_valid⟩ (.cons ⟨rfl, firstEntry_valid⟩ .nil)

theorem framed_twiceBytes : Framed twiceBytes := by
  have hl : twiceBytes.length = 141 := by
    rw [twiceBytes, length_append, length_append, length_toLe, length_twiceHeader, length_replicate]
  rw [Framed, take_twiceBytes, hl]
  decide

theorem parse_twiceBytes : twiceParse (headerOf twiceBytes) = some twiceMap := by
  rw [headerOf_twiceBytes, twiceParse, if_pos rfl]

/-- Two tensors in the first four of eight bytes are accepted. -/
theorem overlap_fills_gap : readF32Safetensors twiceParse twiceBytes =
      .ok ([], [("b".toList, [1], [0]), ("a".toList, [1], [0])]) ∧
    ¬ (HeadTiled twiceParse twiceBytes ∧ GateTiled twiceParse twiceBytes) := by
  have hs : sizesOf [firstEntry, firstEntry] = (dataOf twiceBytes).length := by
    rw [dataOf_twiceBytes]
    rfl
  refine ⟨readF32Safetensors_eq_ok.mpr ⟨framed_twiceBytes, twiceMap, [], [firstEntry, firstEntry],
    parse_twiceBytes, rfl, twice_valid, by decide, hs, ?_⟩, fun ht => ?_⟩
  · rw [dataOf_twiceBytes]
    rfl
  · obtain ⟨-, -, hg⟩ := ht
    have ho : ¬ [firstEntry, firstEntry].Pairwise fun e f =>
        Apart e.dataOffsets f.dataOffsets := fun h =>
      (pairwise_pair.mp h) 0 ⟨⟨by decide, by decide⟩, by decide, by decide⟩
    obtain ⟨map, hm, hti⟩ := hg _ _ (readF32Safetensors_eq_ok.mpr ⟨framed_twiceBytes,
      twiceMap, [], [firstEntry, firstEntry], parse_twiceBytes, rfl, twice_valid, by decide, hs,
      rfl⟩)
    rw [parse_twiceBytes] at hm
    obtain rfl := Option.some.inj hm
    exact ho ((tiled_iff twice_valid hs).mp hti)

end LocalAi.Judgment
