import LocalAi.Mtp.Container

/-!
# The header page

What the fields of a header are, byte for byte, and when the reader and the writer agree on them.

* `Claims`: what a header must say to be taken.
* `parseHeader_eq_ok`: the reader takes exactly the headers that say it.
* `encodeHeader_eq_ok`: the writer writes the fields, where they fit.
-/

open List

namespace LocalAi.Mtp

open Lib

/-! ### Numbers that fit -/

theorem page_dvd : page ∣ 2 ^ 64 := ⟨2 ^ 50, by decide⟩

variable {n imageBytes : Nat} {α β : Type} {u : PUnit}

theorem checkedAdd_eq_some {a b : Nat} :
    checkedAdd a b = some n ↔ n < 2 ^ 64 ∧ n = a + b := by
  unfold checkedAdd
  by_cases h : a + b < 2 ^ 64
  · rw [if_pos h, Option.some_inj]
    constructor
    · rintro rfl
      exact ⟨h, rfl⟩
    · rintro ⟨-, rfl⟩
      rfl
  · rw [if_neg h]
    constructor
    · intro hn
      cases hn
    · rintro ⟨hlt, rfl⟩
      exact absurd hlt h

theorem tryFrom_eq_some {bits value : Nat} :
    tryFrom bits value = some n ↔ n < 2 ^ bits ∧ n = value := by
  unfold tryFrom
  by_cases h : value < 2 ^ bits
  · rw [if_pos h, Option.some_inj]
    constructor
    · rintro rfl
      exact ⟨h, rfl⟩
    · rintro ⟨-, rfl⟩
      rfl
  · rw [if_neg h]
    constructor
    · intro hn
      cases hn
    · rintro ⟨hlt, rfl⟩
      exact absurd hlt h

theorem okOr_eq_ok {found : Option α} {message : Text} {a : α} :
    okOr found message = .ok a ↔ found = some a := elim_eq_ok

theorem alignPage_eq_some {value : Nat} :
    alignPage value = some n ↔ n < 2 ^ 64 ∧ n = nextMultiple value page := by
  have hp : 0 < page := by decide
  have hs : value + (page - 1) = value + page - 1 := by omega
  unfold alignPage
  rw [Option.map_eq_some_iff]
  constructor
  · rintro ⟨sum, ha, rfl⟩
    obtain ⟨hlt, rfl⟩ := checkedAdd_eq_some.mp ha
    exact ⟨Nat.lt_of_le_of_lt (Nat.div_mul_le_self _ _) hlt, by rw [hs, nextMultiple, divCeil]⟩
  · rintro ⟨hlt, rfl⟩
    refine ⟨value + (page - 1), checkedAdd_eq_some.mpr ⟨?_, rfl⟩, by rw [hs, nextMultiple, divCeil]⟩
    -- both ends are multiples of a page, so that a whole page lies between them
    have hle := le_nextMultiple value hp
    obtain ⟨k, hk⟩ := dvd_nextMultiple value page
    obtain ⟨m, hm⟩ := page_dvd
    have hkm : k < m := by
      rw [hk, hm] at hlt
      exact Nat.lt_of_mul_lt_mul_left hlt
    have hn : page * (k + 1) ≤ page * m := Nat.mul_le_mul_left page hkm
    rw [Nat.mul_succ] at hn
    omega

/-! ### Fields -/

section Reads

variable {r s : Reader}

theorem take_eq_ok {len : Nat} {bytes : Bytes} :
    take r len = .ok (bytes, s) ↔ bytes.length = len ∧ Consumes r bytes s :=
  okOr_eq_ok.trans take_eq_some

theorem u32_eq_ok : u32 r = .ok (n, s) ↔ n < 2 ^ 32 ∧ Consumes r (toLe 4 n) s :=
  okOr_eq_ok.trans readLe_eq_some

theorem u64_eq_ok : u64 r = .ok (n, s) ↔ n < 2 ^ 64 ∧ Consumes r (toLe 8 n) s :=
  okOr_eq_ok.trans readLe_eq_some

end Reads

def nameBytes (name : Text) : Bytes := toLe 1 (utf8Bytes name).length ++ utf8Bytes name

def placeBytes (place : Place) : Bytes := toLe 8 place.1 ++ toLe 8 place.2

def NameFits (name : Text) : Prop := (utf8Bytes name).length < 256

def PlaceFits (place : Place) : Prop := place.1 < 2 ^ 64 ∧ place.2 < 2 ^ 64

variable {path : Text} {spec : List Section} {container : Container} {places : List Place}

theorem readName_eq_ok (r : Reader) (name : Text) (s : Reader) :
    readName path r = .ok (name, s) ↔ NameFits name ∧ Consumes r (nameBytes name) s := by
  unfold readName nameBytes
  rw [bind_eq_ok]
  constructor
  · rintro ⟨⟨len, r₁⟩, hl, h⟩
    obtain ⟨⟨bytes, r₂⟩, hb, h⟩ := bind_eq_ok.mp h
    obtain ⟨text, ht, h⟩ := bind_eq_ok.mp h
    cases h
    obtain ⟨hlt, hc⟩ := readLe_eq_some.mp (okOr_eq_ok.mp hl)
    obtain ⟨rfl, hc'⟩ := take_eq_some.mp (okOr_eq_ok.mp hb)
    obtain rfl := fromUTF8?_eq.mp (okOr_eq_ok.mp ht)
    exact ⟨hlt, consumes_append.mpr ⟨r₁, hc, hc'⟩⟩
  · rintro ⟨hlt, h⟩
    obtain ⟨r₁, hl, hb⟩ := consumes_append.mp h
    refine ⟨(_, r₁), okOr_eq_ok.mpr (readLe_eq_some.mpr ⟨hlt, hl⟩), ?_⟩
    refine bind_eq_ok.mpr ⟨(_, s), okOr_eq_ok.mpr (take_eq_some.mpr ⟨rfl, hb⟩), ?_⟩
    exact bind_eq_ok.mpr ⟨name, okOr_eq_ok.mpr (fromUTF8?_eq.mpr rfl), rfl⟩

theorem readPlace_eq_ok (r : Reader) (place : Place) (s : Reader) :
    readPlace r = .ok (place, s) ↔ PlaceFits place ∧ Consumes r (placeBytes place) s := by
  unfold readPlace placeBytes
  rw [bind_eq_ok]
  constructor
  · rintro ⟨⟨offset, r₁⟩, ho, h⟩
    obtain ⟨⟨length, r₂⟩, hl, h⟩ := bind_eq_ok.mp h
    cases h
    obtain ⟨hoffset_lt, ho⟩ := u64_eq_ok.mp ho
    obtain ⟨hlength_lt, hl⟩ := u64_eq_ok.mp hl
    exact ⟨⟨hoffset_lt, hlength_lt⟩, consumes_append.mpr ⟨r₁, ho, hl⟩⟩
  · rintro ⟨⟨hoffset_lt, hlength_lt⟩, h⟩
    obtain ⟨r₁, ho, hl⟩ := consumes_append.mp h
    exact ⟨(_, r₁), u64_eq_ok.mpr ⟨hoffset_lt, ho⟩,
      bind_eq_ok.mpr ⟨(_, s), u64_eq_ok.mpr ⟨hlength_lt, hl⟩, rfl⟩⟩

def nameTable (names : List Text) : Bytes := names.flatMap nameBytes

def headerFields (container : Container) (names : List Text) (places : List Place)
    (stored : Bytes) (payload file : Nat) : Bytes :=
  container.magic ++ (toLe 4 container.version ++ (toLe 4 names.length ++ (toLe 8 payload ++
    (toLe 8 file ++ (stored ++ (toLe 4 (nameTable names).length ++
      (nameTable names ++ places.flatMap placeBytes)))))))

/-! ### Checks -/

variable {xs : List α} {ys : List β}

theorem forM_ensure_eq_ok {holds : α → Bool} {message : α → Text} :
    (xs.forM fun x => ensure (holds x) (message x)) = .ok u ↔ ∀ x ∈ xs, holds x = true := by
  induction xs with
  | nil => exact ⟨nofun, fun _ => rfl⟩
  | cons x xs ih =>
    rw [forM_eq_forM] at ih ⊢
    rw [forM_cons, bind_eq_ok, forall_mem_cons]
    constructor
    · rintro ⟨_, hx, hxs⟩
      exact ⟨ensure_eq_ok.mp hx, ih.mp hxs⟩
    · rintro ⟨hx, hxs⟩
      exact ⟨(), ensure_eq_ok.mpr hx, ih.mpr hxs⟩

theorem forall_mem_zipIdx_fst {α : Type} {xs : List α} {p : α → Prop} :
    (∀ x ∈ xs.zipIdx, p x.1) ↔ ∀ x ∈ xs, p x := by
  rw [← forall_mem_map (f := Prod.fst), zipIdx_map_fst]

theorem forall_mem_zip_zipIdx {p : α → β → Prop} (hl : xs.length = ys.length) :
    (∀ item ∈ (xs.zip ys).zipIdx, p item.1.1 item.1.2) ↔ List.Forall₂ p xs ys := by
  have hp : (∀ item ∈ (xs.zip ys).zipIdx, p item.1.1 item.1.2) ↔
      ∀ item ∈ xs.zip ys, p item.1 item.2 :=
    @forall_mem_zipIdx_fst _ _ fun item : α × β => p item.1 item.2
  rw [hp, forall₂_iff_zip]
  constructor
  · intro h
    exact ⟨hl, fun {x y} hm => h (x, y) hm⟩
  · rintro ⟨-, h⟩ ⟨x, y⟩ hm
    exact h hm

theorem forall₂_map_eq {γ : Type} {f : α → γ} {g : β → γ} :
    List.Forall₂ (fun x y => f x = g y) xs ys ↔ xs.map f = ys.map g := by
  rw [← forall₂_eq_eq_eq, forall₂_map_left_iff, forall₂_map_right_iff]

theorem forM_zip_ensure_eq_ok {γ : Type} [BEq γ] [LawfulBEq γ] (f : α → γ) (g : β → γ)
    {message : (α × β) × Nat → Text} (hl : xs.length = ys.length) :
    ((xs.zip ys).zipIdx.forM fun item => ensure (f item.1.1 == g item.1.2) (message item)) = .ok u ↔
      xs.map f = ys.map g := by
  rw [forM_ensure_eq_ok, ← forall₂_map_eq, ← forall_mem_zip_zipIdx hl]
  simp only [beq_iff_eq]

theorem checkNames_eq_ok {decoded : List Text} (hl : decoded.length = spec.length) :
    checkNames path decoded spec = .ok u ↔ decoded = spec.map Prod.fst := by
  have hc : checkNames path decoded spec = .ok u ↔ decoded.map id = spec.map Prod.fst :=
    forM_zip_ensure_eq_ok id Prod.fst hl
  rwa [map_id] at hc

/-- The byte where the sections end: the last one's padded end. -/
def endOf (places : List Place) : Nat :=
  (places.getLast?.map fun place => place.1 + nextMultiple place.2 page).getD 0

theorem imageEnd_eq_ok : imageEnd path places = .ok n ↔ n < 2 ^ 64 ∧ n = endOf places := by
  unfold imageEnd endOf
  cases places.getLast? with
  | none =>
    constructor
    · intro h
      cases h
      exact ⟨by decide, rfl⟩
    · rintro ⟨-, rfl⟩
      rfl
  | some place =>
    obtain ⟨offset, length⟩ := place
    rw [Option.map_some, Option.getD_some, bind_eq_ok]
    constructor
    · rintro ⟨padded, hp, h⟩
      obtain ⟨-, rfl⟩ := alignPage_eq_some.mp (okOr_eq_ok.mp hp)
      exact checkedAdd_eq_some.mp (okOr_eq_ok.mp h)
    · rintro ⟨hlt, rfl⟩
      refine ⟨_, okOr_eq_ok.mpr (alignPage_eq_some.mpr ⟨?_, rfl⟩),
        okOr_eq_ok.mpr (checkedAdd_eq_some.mpr ⟨hlt, rfl⟩)⟩
      exact Nat.lt_of_le_of_lt (Nat.le_add_left _ _) hlt

/-- An entry where the spec, the header page and the file's end allow it. -/
structure Placed (container : Container) (imageBytes : Nat) (place : Place) (part : Section) :
    Prop where
  length : place.2 = part.2
  aligned : page ∣ place.1
  behind : container.headerBytes ≤ place.1
  within : place.1 + nextMultiple place.2 page ≤ imageBytes

/-- **One entry** is taken when it is placed and the sum stays a word. -/
theorem checkPlace_eq_ok {summed index : Nat} {place : Place} {part : Section}
    (hi : imageBytes < 2 ^ 64) :
    checkPlace path container imageBytes summed ((place, part), index) = .ok n ↔
      Placed container imageBytes place part ∧ n < 2 ^ 64 ∧ n = summed + place.2 := by
  obtain ⟨offset, length⟩ := place
  obtain ⟨name, expected⟩ := part
  unfold checkPlace
  rw [bind_eq_ok]
  constructor
  · rintro ⟨padded, hp, h⟩
    obtain ⟨-, rfl⟩ := alignPage_eq_some.mp (okOr_eq_ok.mp hp)
    obtain ⟨_, hl, h⟩ := bind_eq_ok.mp h
    obtain ⟨_, ha, h⟩ := bind_eq_ok.mp h
    obtain ⟨_, hb, h⟩ := bind_eq_ok.mp h
    obtain ⟨_, hw, h⟩ := bind_eq_ok.mp h
    obtain ⟨stop, hs, hle⟩ := (Option.any_eq_true _ _).mp (ensure_eq_ok.mp hw)
    obtain ⟨-, rfl⟩ := checkedAdd_eq_some.mp hs
    refine ⟨⟨?_, ?_, ?_, of_decide_eq_true hle⟩, checkedAdd_eq_some.mp (okOr_eq_ok.mp h)⟩
    · exact eq_of_beq (ensure_eq_ok.mp hl)
    · exact Nat.dvd_of_mod_eq_zero (eq_of_beq (ensure_eq_ok.mp ha))
    · exact of_decide_eq_true (ensure_eq_ok.mp hb)
  · rintro ⟨⟨hl, ha, hb, hw⟩, hn⟩
    dsimp only at hl ha hb hw
    have hp : nextMultiple length page < 2 ^ 64 := by omega
    refine ⟨_, okOr_eq_ok.mpr (alignPage_eq_some.mpr ⟨hp, rfl⟩), ?_⟩
    refine bind_eq_ok.mpr ⟨(), ensure_eq_ok.mpr (beq_iff_eq.mpr hl), ?_⟩
    refine bind_eq_ok.mpr ⟨(), ensure_eq_ok.mpr (beq_iff_eq.mpr (Nat.mod_eq_zero_of_dvd ha)), ?_⟩
    refine bind_eq_ok.mpr ⟨(), ensure_eq_ok.mpr (decide_eq_true hb), ?_⟩
    refine bind_eq_ok.mpr ⟨(), ensure_eq_ok.mpr ?_, ?_⟩
    · refine (Option.any_eq_true _ _).mpr ⟨_, checkedAdd_eq_some.mpr ⟨?_, rfl⟩, ?_⟩
      · exact Nat.lt_of_le_of_lt hw hi
      · exact decide_eq_true hw
    · exact okOr_eq_ok.mpr (checkedAdd_eq_some.mpr hn)

theorem checkPlaces_eq_ok {summed : Nat} (himg : imageBytes < 2 ^ 64)
    (hs : summed < 2 ^ 64) {items : List ((Place × Section) × Nat)} :
    items.foldlM (checkPlace path container imageBytes) summed = .ok n ↔
      (∀ item ∈ items, Placed container imageBytes item.1.1 item.1.2) ∧ n < 2 ^ 64 ∧
        n = summed + (items.map fun item => item.1.1.2).sum := by
  induction items generalizing summed with
  | nil =>
    constructor
    · intro h
      cases h
      exact ⟨nofun, hs, rfl⟩
    · rintro ⟨-, -, rfl⟩
      rfl
  | cons item items ih =>
    obtain ⟨⟨place, part⟩, index⟩ := item
    rw [foldlM_cons, bind_eq_ok, forall_mem_cons, map_cons, sum_cons]
    constructor
    · rintro ⟨next, hi, h⟩
      obtain ⟨hp, hne, rfl⟩ := (checkPlace_eq_ok himg).mp hi
      obtain ⟨ha, hn, rfl⟩ := (ih hne).mp h
      exact ⟨⟨hp, ha⟩, hn, Nat.add_assoc _ _ _⟩
    · rintro ⟨⟨hp, ha⟩, hn, rfl⟩
      have hne : summed + place.2 < 2 ^ 64 := by
        dsimp only at hn
        omega
      exact ⟨_, (checkPlace_eq_ok himg).mpr ⟨hp, hne, rfl⟩,
        (ih hne).mpr ⟨ha, hn, (Nat.add_assoc _ _ _).symm⟩⟩

/-- **The section table** against the spec, entry by entry. -/
theorem checkTable_eq_ok (hi : imageBytes < 2 ^ 64) (hl : places.length = spec.length) :
    ((places.zip spec).zipIdx).foldlM (checkPlace path container imageBytes) 0 = .ok n ↔
      List.Forall₂ (Placed container imageBytes) places spec ∧ n < 2 ^ 64 ∧
        n = (places.map Prod.snd).sum := by
  have hs : ((places.zip spec).zipIdx).map (fun item => item.1.1.2) = places.map Prod.snd := by
    have hf : (places.zip spec).map Prod.fst = places := map_fst_zip (Nat.le_of_eq hl)
    calc ((places.zip spec).zipIdx).map (fun item => item.1.1.2)
        = (((places.zip spec).zipIdx).map Prod.fst).map (fun x => x.1.2) := by
          rw [map_map]
          rfl
      _ = ((places.zip spec).map Prod.fst).map Prod.snd := by
          rw [zipIdx_map_fst, map_map]
          rfl
      _ = places.map Prod.snd := by rw [hf]
  rw [checkPlaces_eq_ok hi (by decide), forall_mem_zip_zipIdx hl, hs, Nat.zero_add]

/-! ### The reader -/

structure Claims (container : Container) (bind : List Text → Except Text (List Section))
    (header : Bytes) (parsed : HeadHeader) : Prop where
  spelled : headerFields container (parsed.spec.map Prod.fst) parsed.sections parsed.stored
    (parsed.sections.map Prod.snd).sum parsed.fileBytes <+: header
  stored : parsed.stored.length = digestHex
  names : ∀ name ∈ parsed.spec.map Prod.fst, NameFits name
  count : parsed.spec.length < 2 ^ 32
  table : (nameTable (parsed.spec.map Prod.fst)).length < 2 ^ 32
  payload : (parsed.sections.map Prod.snd).sum < 2 ^ 64
  file : parsed.fileBytes < 2 ^ 64
  bound : bind (parsed.spec.map Prod.fst) = .ok parsed.spec
  placed : List.Forall₂ (Placed container parsed.imageBytes) parsed.sections parsed.spec
  image : parsed.imageBytes < 2 ^ 64 ∧ parsed.imageBytes = endOf parsed.sections

theorem placeFits_of_placed (hi : imageBytes < 2 ^ 64)
    (h : List.Forall₂ (Placed container imageBytes) places spec) :
    ∀ place ∈ places, PlaceFits place := by
  induction h with
  | nil =>
    intro place hm
    cases hm
  | @cons place part _ _ hp _ ih =>
    refine forall_mem_cons.mpr ⟨?_, ih⟩
    have hle := le_nextMultiple place.2 (show 0 < page by decide)
    have hw := hp.within
    constructor
    · omega
    · omega

theorem parseHeader_eq_ok {bind : List Text → Except Text (List Section)} {header : Bytes}
    {parsed : HeadHeader} :
    parseHeader path container bind header = .ok parsed ↔ Claims container bind header parsed := by
  constructor
  · intro h
    obtain ⟨⟨magic, r₁⟩, hm, h⟩ := bind_eq_ok.mp h
    obtain ⟨_, hm', h⟩ := bind_eq_ok.mp h
    obtain ⟨⟨version, r₂⟩, hv, h⟩ := bind_eq_ok.mp h
    obtain ⟨_, hv', h⟩ := bind_eq_ok.mp h
    obtain ⟨⟨count, r₃⟩, hcnt, h⟩ := bind_eq_ok.mp h
    obtain ⟨⟨payload, r₄⟩, hp, h⟩ := bind_eq_ok.mp h
    obtain ⟨⟨file, r₅⟩, hf, h⟩ := bind_eq_ok.mp h
    obtain ⟨⟨stored, r₆⟩, hstor, h⟩ := bind_eq_ok.mp h
    obtain ⟨⟨namesLen, r₇⟩, hnamesLen, h⟩ := bind_eq_ok.mp h
    obtain ⟨⟨names, r₈⟩, hn, h⟩ := bind_eq_ok.mp h
    obtain ⟨⟨decoded, table⟩, hd, h⟩ := bind_eq_ok.mp h
    obtain ⟨_, ht, h⟩ := bind_eq_ok.mp h
    obtain ⟨spec, hsp, h⟩ := bind_eq_ok.mp h
    obtain ⟨_, hcnt', h⟩ := bind_eq_ok.mp h
    obtain ⟨_, hnamed, h⟩ := bind_eq_ok.mp h
    obtain ⟨⟨sections, r₉⟩, hs, h⟩ := bind_eq_ok.mp h
    obtain ⟨image, himg, h⟩ := bind_eq_ok.mp h
    obtain ⟨summed, hsummed, h⟩ := bind_eq_ok.mp h
    obtain ⟨_, hp', h⟩ := bind_eq_ok.mp h
    cases h
    obtain ⟨-, hm⟩ := take_eq_ok.mp hm
    obtain rfl := eq_of_beq (ensure_eq_ok.mp hm')
    obtain ⟨-, hv⟩ := u32_eq_ok.mp hv
    obtain rfl := eq_of_beq (ensure_eq_ok.mp hv')
    obtain ⟨hcount_lt, hcnt⟩ := u32_eq_ok.mp hcnt
    obtain ⟨-, hp⟩ := u64_eq_ok.mp hp
    obtain ⟨hfile_lt, hf⟩ := u64_eq_ok.mp hf
    obtain ⟨hstored_len, hstor⟩ := take_eq_ok.mp hstor
    obtain ⟨hnamesLen_lt, hnamesLen⟩ := u32_eq_ok.mp hnamesLen
    obtain ⟨rfl, hnames_bytes⟩ := take_eq_ok.mp hn
    -- the names fill their table
    obtain ⟨rfl, hfits, htable_names⟩ := (readMany_eq_ok readName_eq_ok).mp hd
    have hpos := eq_of_beq (ensure_eq_ok.mp ht)
    rw [htable_names.pos] at hpos
    obtain rfl : nameTable decoded = names :=
      htable_names.isPrefix.eq_of_length ((Nat.zero_add _).symm.trans hpos)
    have hcnt' := eq_of_beq (ensure_eq_ok.mp hcnt')
    obtain rfl := (checkNames_eq_ok hcnt').mp hnamed
    obtain ⟨hsections_len, -, hs⟩ := (readMany_eq_ok readPlace_eq_ok).mp hs
    obtain ⟨himage_lt, rfl⟩ := imageEnd_eq_ok.mp himg
    obtain ⟨hpl, hsum_lt, rfl⟩ :=
      (checkTable_eq_ok himage_lt (hsections_len.trans hcnt')).mp hsummed
    obtain rfl := eq_of_beq (ensure_eq_ok.mp hp')
    exact
      { spelled := Consumes.isPrefix (consumes_append.mpr ⟨_, hm, consumes_append.mpr
          ⟨_, hv, consumes_append.mpr ⟨_, hcnt, consumes_append.mpr ⟨_, hp,
            consumes_append.mpr ⟨_, hf, consumes_append.mpr ⟨_, hstor, consumes_append.mpr
              ⟨_, hnamesLen, consumes_append.mpr ⟨_, hnames_bytes, hs⟩⟩⟩⟩⟩⟩⟩⟩)
        stored := hstored_len
        names := hfits
        count := by rwa [length_map] at hcount_lt
        table := hnamesLen_lt
        payload := hsum_lt
        file := hfile_lt
        bound := mapError_eq_ok.mp hsp
        placed := hpl
        image := ⟨himage_lt, rfl⟩ }
  · intro h
    obtain ⟨_, hc⟩ := consumes_start h.spelled
    obtain ⟨r₁, hm, hc⟩ := consumes_append.mp hc
    obtain ⟨r₂, hv, hc⟩ := consumes_append.mp hc
    obtain ⟨r₃, hcnt, hc⟩ := consumes_append.mp hc
    obtain ⟨r₄, hp, hc⟩ := consumes_append.mp hc
    obtain ⟨r₅, hf, hc⟩ := consumes_append.mp hc
    obtain ⟨r₆, hstor, hc⟩ := consumes_append.mp hc
    obtain ⟨r₇, hnamesLen, hc⟩ := consumes_append.mp hc
    obtain ⟨r₈, hn, hs⟩ := consumes_append.mp hc
    obtain ⟨table, ht⟩ := consumes_start (prefix_refl (nameTable (parsed.spec.map Prod.fst)))
    have hl := h.placed.length_eq
    rw [length_map] at hcnt
    refine bind_eq_ok.mpr ⟨(_, r₁), take_eq_ok.mpr ⟨container.magic_length, hm⟩, ?_⟩
    refine bind_eq_ok.mpr ⟨(), ensure_eq_ok.mpr (beq_self_eq_true _), ?_⟩
    refine bind_eq_ok.mpr ⟨(_, r₂), u32_eq_ok.mpr ⟨container.version_lt, hv⟩, ?_⟩
    refine bind_eq_ok.mpr ⟨(), ensure_eq_ok.mpr (beq_self_eq_true _), ?_⟩
    refine bind_eq_ok.mpr ⟨(_, r₃), u32_eq_ok.mpr ⟨h.count, hcnt⟩, ?_⟩
    refine bind_eq_ok.mpr ⟨(_, r₄), u64_eq_ok.mpr ⟨h.payload, hp⟩, ?_⟩
    refine bind_eq_ok.mpr ⟨(_, r₅), u64_eq_ok.mpr ⟨h.file, hf⟩, ?_⟩
    refine bind_eq_ok.mpr ⟨(_, r₆), take_eq_ok.mpr ⟨h.stored, hstor⟩, ?_⟩
    refine bind_eq_ok.mpr ⟨(_, r₇), u32_eq_ok.mpr ⟨h.table, hnamesLen⟩, ?_⟩
    refine bind_eq_ok.mpr ⟨(_, r₈), take_eq_ok.mpr ⟨rfl, hn⟩, ?_⟩
    refine bind_eq_ok.mpr ⟨(_, table), (readMany_eq_ok readName_eq_ok).mpr
      ⟨length_map _, h.names, ht⟩, ?_⟩
    refine bind_eq_ok.mpr ⟨(), ensure_eq_ok.mpr
      (beq_iff_eq.mpr (ht.pos.trans (Nat.zero_add _))), ?_⟩
    refine bind_eq_ok.mpr ⟨parsed.spec, mapError_eq_ok.mpr h.bound, ?_⟩
    refine bind_eq_ok.mpr ⟨(), ensure_eq_ok.mpr (beq_self_eq_true _), ?_⟩
    refine bind_eq_ok.mpr ⟨⟨⟩, (checkNames_eq_ok (length_map _)).mpr rfl, ?_⟩
    refine bind_eq_ok.mpr ⟨(_, _), (readMany_eq_ok readPlace_eq_ok).mpr
      ⟨hl, placeFits_of_placed h.image.1 h.placed, hs⟩, ?_⟩
    refine bind_eq_ok.mpr ⟨_, imageEnd_eq_ok.mpr h.image, ?_⟩
    refine bind_eq_ok.mpr ⟨_, (checkTable_eq_ok h.image.1 hl).mpr ⟨h.placed, h.payload, rfl⟩, ?_⟩
    exact bind_eq_ok.mpr ⟨(), ensure_eq_ok.mpr (beq_self_eq_true _), rfl⟩

/-! ### The writer -/

theorem checkLengths_eq_ok {sections : List Bytes} (hl : sections.length = spec.length) :
    checkLengths spec sections = .ok u ↔ sections.map length = spec.map Prod.snd :=
  forM_zip_ensure_eq_ok length Prod.snd hl

theorem foldlM_checkedAdd {f : α → Nat} {start : Nat} (h : start + (xs.map f).sum < 2 ^ 64) :
    xs.foldlM (fun total x => checkedAdd total (f x)) start = some (start + (xs.map f).sum) := by
  induction xs generalizing start with
  | nil => rfl
  | cons x xs ih =>
    rw [map_cons, sum_cons, ← Nat.add_assoc] at h ⊢
    have hx : checkedAdd start (f x) = some (start + f x) :=
      checkedAdd_eq_some.mpr ⟨by omega, rfl⟩
    rw [foldlM_cons, hx]
    exact ih h

theorem length_nameBytes (name : Text) : (nameBytes name).length = 1 + (utf8Bytes name).length := by
  rw [nameBytes, length_append, length_toLe]

theorem length_nameTable (spec : List Section) : (nameTable (spec.map Prod.fst)).length =
      (spec.map fun part => 1 + (utf8Bytes part.1).length).sum := by
  rw [nameTable, length_flatMap, map_map]
  exact congrArg sum (map_congr_left fun part _ => length_nameBytes part.1)

def headerLength (spec : List Section) : Nat :=
  100 + (nameTable (spec.map Prod.fst)).length + 16 * spec.length

theorem length_flatMap_placeBytes (places : List Place) :
    (places.flatMap placeBytes).length = 16 * places.length := by
  induction places with
  | nil => rfl
  | cons place places ih =>
    rw [flatMap_cons, length_append, ih, placeBytes, length_append, length_toLe,
      length_toLe, length_cons]
    omega

theorem length_headerFields {stored : Bytes} {payload file : Nat}
    (hs : stored.length = digestHex) (hl : places.length = spec.length) :
    (headerFields container (spec.map Prod.fst) places stored payload file).length =
      headerLength spec := by
  simp only [headerFields, length_append, length_toLe, container.magic_length, hs,
    length_flatMap_placeBytes, hl, headerLength, magicBytes, digestHex]
  omega

theorem utf8Bytes_hexDigit :
    ∀ n < 16, ∃ byte, utf8Bytes [hexDigit n] = [byte] ∧ isAsciiHexdigit byte = true := by
  have hd : ∀ n < 16, utf8Bytes [hexDigit n] = [UInt8.ofNat (hexDigit n).toNat] ∧
      isAsciiHexdigit (UInt8.ofNat (hexDigit n).toNat) = true := by decide
  exact fun n hn => ⟨_, hd n hn⟩

theorem utf8Bytes_hex (bytes : Bytes) : (utf8Bytes (hex bytes)).length = 2 * bytes.length ∧
      (utf8Bytes (hex bytes)).all isAsciiHexdigit = true := by
  induction bytes with
  | nil => exact ⟨rfl, rfl⟩
  | cons byte bytes ih =>
    obtain ⟨high, hh, hh'⟩ := utf8Bytes_hexDigit (byte.toNat / 16) (by
      have := byte.toNat_lt
      omega)
    obtain ⟨low, hl, hl'⟩ := utf8Bytes_hexDigit (byte.toNat % 16) (Nat.mod_lt _ (by decide))
    have hc : utf8Bytes (hex (byte :: bytes)) = high :: low :: utf8Bytes (hex bytes) := by
      calc utf8Bytes (hex (byte :: bytes))
          = utf8Bytes [hexDigit (byte.toNat / 16)] ++ (utf8Bytes [hexDigit (byte.toNat % 16)] ++
              utf8Bytes (hex bytes)) := by
            rw [← utf8Bytes_append, ← utf8Bytes_append]
            rfl
        _ = high :: low :: utf8Bytes (hex bytes) := by
            rw [hh, hl]
            rfl
    rw [hc, length_cons, length_cons, length_cons, all_cons, all_cons, hh', hl', ih.1, ih.2]
    exact ⟨by omega, rfl⟩

theorem digest_stored (sha256 : Bytes → Fin 32 → UInt8) (regions : List Bytes) :
    (utf8Bytes (digestOf sha256 regions)).length = digestHex ∧
      (utf8Bytes (digestOf sha256 regions)).all isAsciiHexdigit = true := by
  obtain ⟨hl, ha⟩ := utf8Bytes_hex (ofFn (sha256 regions.flatten))
  rw [length_ofFn] at hl
  exact ⟨hl, ha⟩

theorem encodeNames (h : ∀ part ∈ spec, NameFits part.1) :
    spec.mapM encodeName = .ok (spec.map fun part => nameBytes part.1) := by
  rw [mapM_eq_ok, forall₂_map_right_iff, forall₂_same]
  intro part hp
  exact bind_eq_ok.mpr ⟨_, okOr_eq_ok.mpr (tryFrom_eq_some.mpr ⟨h part hp, rfl⟩), rfl⟩

theorem encodePlaces (h : ∀ place ∈ places, PlaceFits place) :
    places.mapM encodePlace = .ok (places.map placeBytes) := by
  rw [mapM_eq_ok, forall₂_map_right_iff, forall₂_same]
  intro place hp
  obtain ⟨ho, hl⟩ := h place hp
  exact bind_eq_ok.mpr ⟨_, okOr_eq_ok.mpr (tryFrom_eq_some.mpr ⟨ho, rfl⟩),
    bind_eq_ok.mpr ⟨_, okOr_eq_ok.mpr (tryFrom_eq_some.mpr ⟨hl, rfl⟩), rfl⟩⟩

theorem encodeHeader_eq_ok {digest : Text} {payload file : Nat}
    (hd : (utf8Bytes digest).length = digestHex)
    (hdi : (utf8Bytes digest).all isAsciiHexdigit = true) (hpayl : payload < 2 ^ 64)
    (hfile : file < 2 ^ 64) (hn : ∀ part ∈ spec, NameFits part.1)
    (hp : ∀ place ∈ places, PlaceFits place) (hl : places.length = spec.length)
    (hfits : headerLength spec ≤ container.headerBytes) :
    encodeHeader container places spec digest payload file =
      .ok (headerFields container (spec.map Prod.fst) places (utf8Bytes digest) payload file ++
        replicate (container.headerBytes - headerLength spec) 0) := by
  have hpage : container.headerBytes ≤ 16384 := container.header_le
  have hs : headerLength spec ≤ 16384 := Nat.le_trans hfits hpage
  have ht := length_nameTable spec
  unfold headerLength at hs
  have hc : spec.length < 2 ^ 32 := by omega
  have hsum : 0 + (spec.map fun part => 1 + (utf8Bytes part.1).length).sum < 2 ^ 64 := by omega
  have hf : (headerFields container (spec.map Prod.fst) places (utf8Bytes digest) payload
      file).length = headerLength spec := length_headerFields hd hl
  have hc' : (spec.map Prod.fst).length = spec.length := length_map _
  have hnameTable : (spec.map fun part => nameBytes part.1).flatten =
      nameTable (spec.map Prod.fst) := by
    rw [nameTable, flatMap_def, map_map]
    rfl
  refine bind_eq_ok.mpr ⟨(), ensure_eq_ok.mpr ?_, ?_⟩
  · rw [hdi, hd]
    rfl
  refine bind_eq_ok.mpr ⟨_, okOr_eq_ok.mpr (tryFrom_eq_some.mpr ⟨by rwa [hc'], hc'⟩), ?_⟩
  refine bind_eq_ok.mpr ⟨_, okOr_eq_ok.mpr (tryFrom_eq_some.mpr ⟨hpayl, rfl⟩), ?_⟩
  refine bind_eq_ok.mpr ⟨_, okOr_eq_ok.mpr (tryFrom_eq_some.mpr ⟨hfile, rfl⟩), ?_⟩
  refine bind_eq_ok.mpr ⟨_, okOr_eq_ok.mpr (foldlM_checkedAdd hsum), ?_⟩
  rw [Nat.zero_add, ← ht]
  refine bind_eq_ok.mpr ⟨_, okOr_eq_ok.mpr (tryFrom_eq_some.mpr ⟨by omega, rfl⟩), ?_⟩
  refine bind_eq_ok.mpr ⟨_, encodeNames hn, ?_⟩
  refine bind_eq_ok.mpr ⟨_, encodePlaces hp, ?_⟩
  rw [hnameTable, ← flatMap_def]
  refine bind_eq_ok.mpr ⟨(), ensure_eq_ok.mpr (decide_eq_true (hf.le.trans hfits)), ?_⟩
  exact congrArg (fun n => Except.ok (headerFields container (spec.map Prod.fst) places
    (utf8Bytes digest) payload file ++ replicate (container.headerBytes - n) 0)) hf

end LocalAi.Mtp
