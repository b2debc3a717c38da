import LocalAi.Lib.Partition
import LocalAi.Mtp.Header

/-!
# A container is read back

What is laid out in a file is found there again, and what the reader takes is what a header and
a digest say.

* `writeContainer_eq_ok`: the writer writes them, where the file's length is a word.
* `Taken`: what holds of a file that is taken.
* `container_round_trip`: a written file is taken and gives the sections back.
-/

open List

namespace LocalAi.Mtp

open Lib

theorem page_pos : 0 < page := by decide

/-! ### Where the sections land -/

def offsetsFrom : Nat → List Nat → List Place
  | _, [] => []
  | start, length :: lengths =>
    (start, length) :: offsetsFrom (start + nextMultiple length page) lengths

def pagesOf (lengths : List Nat) : Nat := (lengths.map fun length => nextMultiple length page).sum

theorem length_offsetsFrom (start : Nat) (lengths : List Nat) :
    (offsetsFrom start lengths).length = lengths.length := by
  induction lengths generalizing start with
  | nil => rfl
  | cons length lengths ih => exact congrArg (· + 1) (ih _)

theorem map_snd_offsetsFrom (start : Nat) (lengths : List Nat) :
    (offsetsFrom start lengths).map Prod.snd = lengths := by
  induction lengths generalizing start with
  | nil => rfl
  | cons length lengths ih => exact congrArg (length :: ·) (ih _)

theorem pagesOf_cons (length : Nat) (lengths : List Nat) :
    pagesOf (length :: lengths) = nextMultiple length page + pagesOf lengths := rfl

variable {start : Nat}

/-- Every section starts on a page, after the start, and ends before the end. -/
theorem mem_offsetsFrom {lengths : List Nat} (hs : page ∣ start) {place : Place}
    (h : place ∈ offsetsFrom start lengths) : page ∣ place.1 ∧ start ≤ place.1 ∧
      place.1 + nextMultiple place.2 page ≤ start + pagesOf lengths := by
  induction lengths generalizing start with
  | nil => cases h
  | cons length lengths ih =>
    rw [pagesOf_cons]
    rcases mem_cons.mp h with rfl | hm
    · refine ⟨hs, le_rfl, ?_⟩
      dsimp only
      omega
    · obtain ⟨ha, hle, he⟩ := ih (Nat.dvd_add hs (dvd_nextMultiple _ _)) hm
      exact ⟨ha, by omega, by omega⟩

/-- **No two sections overlap**: each ends where a later one starts, or before. -/
theorem pairwise_offsetsFrom (hs : page ∣ start) (lengths : List Nat) :
    (offsetsFrom start lengths).Pairwise fun place later =>
      place.1 + nextMultiple place.2 page ≤ later.1 := by
  induction lengths generalizing start with
  | nil => exact List.Pairwise.nil
  | cons length lengths ih =>
    have hn := Nat.dvd_add hs (dvd_nextMultiple length page)
    exact pairwise_cons.mpr ⟨fun later hl => (mem_offsetsFrom hn hl).2.1, ih hn⟩

theorem endOf_offsetsFrom {lengths : List Nat} (hne : lengths ≠ []) :
    endOf (offsetsFrom start lengths) = start + pagesOf lengths := by
  induction lengths generalizing start with
  | nil => exact absurd rfl hne
  | cons length lengths ih =>
    cases lengths with
    | nil =>
      rw [offsetsFrom, offsetsFrom, pagesOf_cons, show pagesOf [] = 0 from rfl, Nat.add_zero]
      rfl
    | cons next rest =>
      rw [pagesOf_cons, ← Nat.add_assoc, ← ih (cons_ne_nil next rest)]
      rfl

theorem layoutFrom_eq_ok {container : Container} {sections : List Bytes}
    (h : start + pagesOf (sections.map length) < 2 ^ 64) : layoutFrom container start sections =
      .ok (offsetsFrom start (sections.map length), start + pagesOf (sections.map length)) := by
  induction sections generalizing start with
  | nil => rfl
  | cons bytes sections ih =>
    rw [map_cons, pagesOf_cons, ← Nat.add_assoc] at h ⊢
    refine bind_eq_ok.mpr ⟨_, okOr_eq_ok.mpr (alignPage_eq_some.mpr ⟨by omega, rfl⟩), ?_⟩
    refine bind_eq_ok.mpr ⟨_, okOr_eq_ok.mpr (checkedAdd_eq_some.mpr ⟨by omega, rfl⟩), ?_⟩
    exact bind_eq_ok.mpr ⟨_, ih h, rfl⟩

theorem layoutFrom_lt {container : Container} {sections : List Bytes}
    {out : List Place × Nat} (hs : start < 2 ^ 64)
    (h : layoutFrom container start sections = .ok out) :
    start + pagesOf (sections.map length) < 2 ^ 64 := by
  induction sections generalizing start out with
  | nil => exact hs
  | cons bytes sections ih =>
    obtain ⟨padded, hp, h⟩ := bind_eq_ok.mp h
    obtain ⟨next, hn, h⟩ := bind_eq_ok.mp h
    obtain ⟨out', hr, -⟩ := bind_eq_ok.mp h
    obtain ⟨-, rfl⟩ := alignPage_eq_some.mp (okOr_eq_ok.mp hp)
    obtain ⟨hlt, rfl⟩ := checkedAdd_eq_some.mp (okOr_eq_ok.mp hn)
    rw [map_cons, pagesOf_cons, ← Nat.add_assoc]
    exact ih hlt hr

/-! ### What is written -/

/-- The sections as they stand in a file, each padded to whole pages. -/
def laidOut (sections : List Bytes) : Bytes := sections.flatMap (pad page 0)

theorem length_laidOut (sections : List Bytes) :
    (laidOut sections).length = pagesOf (sections.map length) := by
  rw [laidOut, length_flatMap, pagesOf, map_map]
  exact congrArg sum (map_congr_left fun bytes _ => length_pad page_pos 0 bytes)

theorem writeAt_zeros (front bytes : Bytes) (count : Nat) :
    writeAt (front ++ replicate count 0) front.length bytes =
      front ++ (bytes ++ replicate (count - bytes.length) 0) := by
  have hz : front.length - (front ++ replicate count (0 : UInt8)).length = 0 := by
    rw [length_append]
    omega
  rw [writeAt, take_left, hz, replicate_zero, nil_append, ← drop_drop, drop_left, drop_replicate]

theorem foldl_writeAt (sections : List Bytes) (front : Bytes) :
    ((offsetsFrom front.length (sections.map length)).zip sections).foldl
        (fun file (place, bytes) => writeAt file place.1 bytes)
        (front ++ replicate (pagesOf (sections.map length)) 0) =
      front ++ laidOut sections := by
  induction sections generalizing front with
  | nil => rfl
  | cons bytes sections ih =>
    have hle := le_nextMultiple bytes.length page_pos
    have hlen : (front ++ pad page 0 bytes).length =
        front.length + nextMultiple bytes.length page := by
      rw [length_append, length_pad page_pos]
    have hf : writeAt (front ++ replicate
        (pagesOf ((bytes :: sections).map length)) 0) front.length bytes =
        front ++ pad page 0 bytes ++ replicate (pagesOf (sections.map length)) 0 := by
      rw [map_cons, pagesOf_cons, writeAt_zeros, pad, append_assoc,
        append_assoc, replicate_append_replicate]
      congr 4
      omega
    calc ((offsetsFrom front.length ((bytes :: sections).map length)).zip
          (bytes :: sections)).foldl (fun file (place, bytes) => writeAt file place.1 bytes)
          (front ++ replicate (pagesOf ((bytes :: sections).map length)) 0)
        = ((offsetsFrom (front ++ pad page 0 bytes).length (sections.map length)).zip
            sections).foldl (fun file (place, bytes) => writeAt file place.1 bytes)
            (front ++ pad page 0 bytes ++ replicate (pagesOf (sections.map length)) 0) := by
          rw [hlen, ← hf]
          rfl
      _ = front ++ pad page 0 bytes ++ laidOut sections := ih _
      _ = front ++ laidOut (bytes :: sections) := by
          rw [append_assoc]
          rfl

theorem slice_laidOut (sections : List Bytes) (front : Bytes) :
    (offsetsFrom front.length (sections.map length)).map
        (fun place => slice place.1 place.2 (front ++ laidOut sections)) = sections := by
  induction sections generalizing front with
  | nil => rfl
  | cons bytes sections ih =>
    have hl : (front ++ pad page 0 bytes).length =
        front.length + nextMultiple bytes.length page := by
      rw [length_append, length_pad page_pos]
    have hr := ih (front ++ pad page 0 bytes)
    rw [hl, append_assoc] at hr
    refine congrArg₂ cons ?_ hr
    change slice front.length bytes.length (front ++ (pad page 0 bytes ++ laidOut sections)) = bytes
    rw [pad, append_assoc, slice_append]

section Written

variable (sha256 : Bytes → Fin 32 → UInt8) (container : Container) (spec : List Section)
  (sections : List Bytes)

def imageBytes : Nat := page + pagesOf (sections.map List.length)

def firstPage : Bytes :=
  headerFields container (spec.map Prod.fst) (offsetsFrom page (sections.map List.length))
      (utf8Bytes (digestOf sha256 sections)) (sections.map List.length).sum (imageBytes sections) ++
    List.replicate (page - headerLength spec) 0

def written : Bytes := firstPage sha256 container spec sections ++ laidOut sections

variable {sha256 container spec sections}

theorem length_firstPage (hl : sections.map length = spec.map Prod.snd)
    (hf : headerLength spec ≤ container.headerBytes) :
    (firstPage sha256 container spec sections).length = page := by
  have hlen : (offsetsFrom page (sections.map length)).length = spec.length := by
    rw [length_offsetsFrom, hl, length_map]
  have hp := container.header_le
  rw [firstPage, length_append, length_replicate,
    length_headerFields (digest_stored sha256 sections).1 hlen]
  omega

theorem writeAt_header (hl : sections.map length = spec.map Prod.snd)
    (hf : headerLength spec ≤ container.headerBytes) : writeAt (replicate (imageBytes sections) 0) 0
        (headerFields container (spec.map Prod.fst) (offsetsFrom page (sections.map length))
            (utf8Bytes (digestOf sha256 sections)) (sections.map length).sum
            (imageBytes sections) ++
          replicate (container.headerBytes - headerLength spec) 0) =
      firstPage sha256 container spec sections ++ replicate (pagesOf (sections.map length)) 0 := by
  have hlen : (offsetsFrom page (sections.map length)).length = spec.length := by
    rw [length_offsetsFrom, hl, length_map]
  have hp := container.header_le
  refine (writeAt_zeros [] _ _).trans ?_
  rw [nil_append, firstPage, length_append, length_replicate,
    length_headerFields (digest_stored sha256 sections).1 hlen, append_assoc,
    append_assoc, replicate_append_replicate, replicate_append_replicate]
  unfold imageBytes
  congr 2
  omega

theorem placeFits_offsets (hs : imageBytes sections < 2 ^ 64) :
    ∀ place ∈ offsetsFrom page (sections.map length), PlaceFits place := by
  intro place hm
  obtain ⟨-, -, he⟩ := mem_offsetsFrom (Nat.dvd_refl page) hm
  have hle := le_nextMultiple place.2 page_pos
  unfold imageBytes at hs
  constructor
  · omega
  · omega

theorem sum_le_pagesOf (lengths : List Nat) : lengths.sum ≤ pagesOf lengths := by
  induction lengths with
  | nil => exact le_rfl
  | cons length lengths ih =>
    rw [sum_cons, pagesOf_cons]
    exact Nat.add_le_add (le_nextMultiple length page_pos) ih

theorem writeContainer_eq_ok (hn : ∀ part ∈ spec, NameFits part.1)
    (hf : headerLength spec ≤ container.headerBytes) (hl : sections.map length = spec.map Prod.snd)
    (hs : imageBytes sections < 2 ^ 64) : writeContainer sha256 container spec sections =
      .ok (written sha256 container spec sections, ⟨imageBytes sections,
        (sections.map length).sum, digestOf sha256 sections⟩) := by
  have hc : sections.length = spec.length := by
    have hm := congrArg length hl
    rwa [length_map, length_map] at hm
  have hlen : (offsetsFrom page (sections.map length)).length = spec.length := by
    rw [length_offsetsFrom, length_map, hc]
  have hsum : (sections.map length).sum < 2 ^ 64 := by
    have hle := sum_le_pagesOf (sections.map length)
    unfold imageBytes at hs
    omega
  obtain ⟨hdig, hd⟩ := digest_stored sha256 sections
  refine bind_eq_ok.mpr ⟨(), ensure_eq_ok.mpr (beq_iff_eq.mpr hc.symm), ?_⟩
  refine bind_eq_ok.mpr ⟨⟨⟩, (checkLengths_eq_ok hc).mpr hl, ?_⟩
  refine bind_eq_ok.mpr ⟨_, layoutFrom_eq_ok hs, ?_⟩
  refine bind_eq_ok.mpr ⟨_, okOr_eq_ok.mpr (foldlM_checkedAdd (by rwa [Nat.zero_add])), ?_⟩
  rw [Nat.zero_add]
  refine bind_eq_ok.mpr ⟨_, encodeHeader_eq_ok hdig hd hsum hs hn
    (placeFits_offsets hs) hlen hf, ?_⟩
  refine congrArg (fun file => Except.ok (file, HeadFile.mk (imageBytes sections)
    (sections.map length).sum (digestOf sha256 sections))) ?_
  have hfo := foldl_writeAt sections (firstPage sha256 container spec sections)
  rw [length_firstPage hl hf, ← writeAt_header hl hf] at hfo
  exact hfo

theorem imageBytes_lt {out : Bytes × HeadFile}
    (h : writeContainer sha256 container spec sections = .ok out) :
    imageBytes sections < 2 ^ 64 := by
  obtain ⟨_, -, h⟩ := bind_eq_ok.mp h
  obtain ⟨_, -, h⟩ := bind_eq_ok.mp h
  obtain ⟨_, hl, -⟩ := bind_eq_ok.mp h
  exact layoutFrom_lt (by decide) hl

end Written

/-! ### What is taken -/

section Reader

variable {sha256 : Bytes → Fin 32 → UInt8} {lossy : Bytes → Text} {path : Text}
  {container : Container} {bind : List Text → Except Text (List Section)} {map : Bytes}

def sectionBytes (map : Bytes) (places : List Place) : List Bytes :=
  places.map fun place => slice place.1 place.2 map

/-- What a file that is taken is: its header says what was bound, its sections are inside it and
the last one ends it, and the digest in its header is theirs. -/
structure Taken (sha256 : Bytes → Fin 32 → UInt8) (container : Container)
    (bind : List Text → Except Text (List Section)) (map : Bytes) (taken : HeadMap) : Prop where
  mapped : taken.map = map
  spelled : headerFields container (taken.spec.map Prod.fst) taken.sections
    (utf8Bytes taken.payloadSha256) (taken.spec.map Prod.snd).sum map.length <+: map
  bound : bind (taken.spec.map Prod.fst) = .ok taken.spec
  lengths : taken.sections.map Prod.snd = taken.spec.map Prod.snd
  placed : ∀ place ∈ taken.sections, page ∣ place.1 ∧ container.headerBytes ≤ place.1 ∧
    place.1 + nextMultiple place.2 page ≤ map.length
  ends : ∃ last, taken.sections.getLast? = some last ∧
    map.length = last.1 + nextMultiple last.2 page
  digest : taken.payloadSha256 = digestOf sha256 (sectionBytes map taken.sections)

theorem regions_eq_ok {places : List Place}
    (h : ∀ place ∈ places, place.1 + nextMultiple place.2 page ≤ map.length) :
    places.mapM (region map) = .ok (sectionBytes map places) := by
  rw [sectionBytes, mapM_eq_ok, forall₂_map_right_iff, forall₂_same]
  intro place hp
  have hw := h place hp
  have hle := le_nextMultiple place.2 page_pos
  exact if_pos (by omega)

theorem Claims.placed_mem {header : Bytes} {parsed : HeadHeader}
    (h : Claims container bind header parsed) : ∀ place ∈ parsed.sections,
      page ∣ place.1 ∧ container.headerBytes ≤ place.1 ∧
        place.1 + nextMultiple place.2 page ≤ parsed.imageBytes := by
  intro place hm
  obtain ⟨part, -, hp⟩ := exists_of_forall₂ h.placed hm
  exact ⟨hp.aligned, hp.behind, hp.within⟩

theorem Claims.lengths {header : Bytes} {parsed : HeadHeader}
    (h : Claims container bind header parsed) :
    parsed.sections.map Prod.snd = parsed.spec.map Prod.snd :=
  forall₂_map_eq.mp (h.placed.imp fun _ _ hp => hp.length)

theorem readContainerWith_eq_ok {taken : HeadMap} :
    readContainerWith sha256 lossy path container bind map = .ok taken ↔
      container.headerBytes ≤ map.length ∧
      ∃ parsed, Claims container bind (map.take container.headerBytes) parsed ∧
        parsed.fileBytes = map.length ∧ map.length = parsed.imageBytes ∧
        utf8Bytes (digestOf sha256 (sectionBytes map parsed.sections)) = parsed.stored ∧
        taken = ⟨map, parsed.sections, parsed.spec,
          digestOf sha256 (sectionBytes map parsed.sections)⟩ := by
  unfold readContainerWith
  rw [bind_eq_ok]
  constructor
  · rintro ⟨_, hh, h⟩
    obtain ⟨parsed, hp, h⟩ := bind_eq_ok.mp h
    obtain ⟨_, hf, h⟩ := bind_eq_ok.mp h
    obtain ⟨_, hi, h⟩ := bind_eq_ok.mp h
    obtain ⟨regions, hr, h⟩ := bind_eq_ok.mp h
    obtain ⟨_, hd, h⟩ := bind_eq_ok.mp h
    have hc := parseHeader_eq_ok.mp (mapError_eq_ok.mp hp)
    have hi := eq_of_beq (ensure_eq_ok.mp hi)
    have hins := @regions_eq_ok map parsed.sections fun place hm =>
      hi ▸ (hc.placed_mem place hm).2.2
    cases hr.symm.trans hins
    cases h
    exact ⟨of_decide_eq_true (ensure_eq_ok.mp hh), parsed, hc,
      eq_of_beq (ensure_eq_ok.mp hf), hi, eq_of_beq (ensure_eq_ok.mp hd), rfl⟩
  · rintro ⟨hh, parsed, hc, hf, hi, hd, rfl⟩
    refine ⟨(), ensure_eq_ok.mpr (decide_eq_true hh), ?_⟩
    refine bind_eq_ok.mpr ⟨parsed, mapError_eq_ok.mpr (parseHeader_eq_ok.mpr hc), ?_⟩
    refine bind_eq_ok.mpr ⟨(), ensure_eq_ok.mpr (beq_iff_eq.mpr hf), ?_⟩
    refine bind_eq_ok.mpr ⟨(), ensure_eq_ok.mpr (beq_iff_eq.mpr hi), ?_⟩
    refine bind_eq_ok.mpr ⟨_, regions_eq_ok fun place hm =>
      hi ▸ (hc.placed_mem place hm).2.2, ?_⟩
    exact bind_eq_ok.mpr ⟨(), ensure_eq_ok.mpr (beq_iff_eq.mpr hd), rfl⟩

theorem taken_of_read {taken : HeadMap}
    (h : readContainerWith sha256 lossy path container bind map = .ok taken) :
    Taken sha256 container bind map taken := by
  obtain ⟨hh, parsed, hc, hf, hi, hd, rfl⟩ := readContainerWith_eq_ok.mp h
  have hs := hc.spelled
  rw [hc.lengths, hf, ← hd] at hs
  have hs := hs.trans ( take_prefix _ _)
  refine ⟨rfl, hs, hc.bound, hc.lengths, ?_, ?_, rfl⟩
  · rw [hi]
    exact hc.placed_mem
  · have he := hi.trans hc.image.2
    unfold endOf at he
    cases hl : parsed.sections.getLast? with
    | none =>
      -- a file without sections would be shorter than a magic
      rw [hl] at he
      have hle := hs.length_le
      rw [headerFields, length_append, container.magic_length] at hle
      have hz : map.length = 0 := he
      have hm : magicBytes = 8 := rfl
      omega
    | some last =>
      rw [hl] at he
      exact ⟨last, rfl, he⟩

/-! ### No read leaves the file -/

theorem ensure_ne_outOfBounds {holds : Bool} {message : Text} :
    ensure holds (.rejected message) ≠ .error Fault.outOfBounds := by
  cases holds with
  | true =>
    intro h
    cases h
  | false =>
    intro h
    cases h

/-- **No slice** is taken past the end of the mapping. -/
theorem read_within :
    readContainerWith sha256 lossy path container bind map ≠ .error .outOfBounds := by
  intro h
  rcases bind_eq_error.mp h with h | ⟨_, -, h⟩
  · exact ensure_ne_outOfBounds h
  rcases bind_eq_error.mp h with h | ⟨parsed, hp, h⟩
  · obtain ⟨message, -, h⟩ := mapError_eq_error.mp h
    cases h
  rcases bind_eq_error.mp h with h | ⟨_, -, h⟩
  · exact ensure_ne_outOfBounds h
  rcases bind_eq_error.mp h with h | ⟨_, hi, h⟩
  · exact ensure_ne_outOfBounds h
  rcases bind_eq_error.mp h with h | ⟨_, -, h⟩
  · have hc := parseHeader_eq_ok.mp (mapError_eq_ok.mp hp)
    have hi := eq_of_beq (ensure_eq_ok.mp hi)
    have hins := @regions_eq_ok map parsed.sections fun place hm =>
      hi ▸ (hc.placed_mem place hm).2.2
    cases h.symm.trans hins
  rcases bind_eq_error.mp h with h | ⟨_, -, h⟩
  · exact ensure_ne_outOfBounds h
  · cases h

end Reader

/-! ### The round trip -/

section RoundTrip

variable {sha256 : Bytes → Fin 32 → UInt8} {container : Container} {spec : List Section}
  {sections : List Bytes}

def writtenHeader (sha256 : Bytes → Fin 32 → UInt8) (spec : List Section) (sections : List Bytes) :
    HeadHeader where
  sections := offsetsFrom page (sections.map List.length)
  spec := spec
  stored := utf8Bytes (digestOf sha256 sections)
  fileBytes := imageBytes sections
  imageBytes := imageBytes sections

theorem claims_written {bind : List Text → Except Text (List Section)} (hsp : spec ≠ [])
    (hn : ∀ part ∈ spec, NameFits part.1) (hf : headerLength spec ≤ container.headerBytes)
    (hl : sections.map length = spec.map Prod.snd)
    (hb : bind (spec.map Prod.fst) = .ok spec) (hs : imageBytes sections < 2 ^ 64) :
    Claims container bind ((written sha256 container spec sections).take container.headerBytes)
      (writtenHeader sha256 spec sections) := by
  have hp : container.headerBytes ≤ 16384 := container.header_le
  have hsm : 100 + (nameTable (spec.map Prod.fst)).length + 16 * spec.length ≤ 16384 :=
    Nat.le_trans hf hp
  have hlen : (offsetsFrom page (sections.map length)).length = spec.length := by
    rw [length_offsetsFrom, hl, length_map]
  have hsnd := map_snd_offsetsFrom page (sections.map length)
  have hne : sections.map length ≠ [] := by
    rw [hl]
    exact fun h => hsp (map_eq_nil_iff.mp h)
  have hd := (digest_stored sha256 sections).1
  constructor
  case spelled =>
    dsimp only [writtenHeader]
    rw [hsnd]
    refine prefix_take_iff.mpr ⟨?_, ?_⟩
    · rw [written, firstPage, append_assoc]
      exact prefix_append _ _
    · rw [length_headerFields hd hlen]
      exact hf
  case stored => exact hd
  case names => exact forall_mem_map.mpr hn
  case count =>
    dsimp only [writtenHeader]
    omega
  case table =>
    dsimp only [writtenHeader]
    omega
  case payload =>
    dsimp only [writtenHeader]
    have hle := sum_le_pagesOf (sections.map length)
    rw [hsnd]
    unfold imageBytes at hs
    omega
  case file => exact hs
  case bound => exact hb
  case placed =>
    refine forall₂_iff_zip.mpr ⟨hlen, fun {place part} hm => ?_⟩
    obtain ⟨ha, hbeh, hend⟩ :=
      mem_offsetsFrom (Nat.dvd_refl page) (of_mem_zip hm).1
    refine ⟨?_, ha, Nat.le_trans container.header_le hbeh, hend⟩
    exact (forall₂_iff_zip.mp (forall₂_map_eq.mpr (hsnd.trans hl))).2 hm
  case image => exact ⟨hs, (endOf_offsetsFrom hne).symm⟩

theorem length_written (hl : sections.map length = spec.map Prod.snd)
    (hf : headerLength spec ≤ container.headerBytes) :
    (written sha256 container spec sections).length = imageBytes sections := by
  rw [written, length_append, length_firstPage hl hf, length_laidOut, imageBytes]

theorem sectionBytes_written (hl : sections.map length = spec.map Prod.snd)
    (hf : headerLength spec ≤ container.headerBytes) :
    sectionBytes (written sha256 container spec sections)
      (offsetsFrom page (sections.map length)) = sections := by
  have hs := slice_laidOut sections (firstPage sha256 container spec sections)
  rw [length_firstPage hl hf] at hs
  exact hs

/-- **A written file is taken** and gives the sections back. -/
theorem read_written {lossy : Bytes → Text} {path : Text}
    {bind : List Text → Except Text (List Section)} (hsp : spec ≠ [])
    (hn : ∀ part ∈ spec, NameFits part.1) (hf : headerLength spec ≤ container.headerBytes)
    (hl : sections.map length = spec.map Prod.snd)
    (hbi : bind (spec.map Prod.fst) = .ok spec) (hs : imageBytes sections < 2 ^ 64) :
    readContainerWith sha256 lossy path container bind (written sha256 container spec sections) =
      .ok ⟨written sha256 container spec sections, offsetsFrom page (sections.map length),
        spec, digestOf sha256 sections⟩ := by
  have hlen : (written sha256 container spec sections).length = imageBytes sections :=
    length_written hl hf
  have hb : sectionBytes (written sha256 container spec sections)
      (writtenHeader sha256 spec sections).sections = sections := sectionBytes_written hl hf
  have hh := container.header_le
  refine readContainerWith_eq_ok.mpr ⟨?_, writtenHeader sha256 spec sections,
    claims_written hsp hn hf hl hbi hs, hlen.symm, hlen, ?_, ?_⟩
  · rw [hlen, imageBytes]
    omega
  · rw [hb]
    rfl
  · rw [hb]
    rfl

end RoundTrip

/-- **The container round trip.**  Whatever is written for a spec is taken when it is bound to
that spec, and the sections come back in order, each on pages of its own behind the header; and
whatever is taken is what its spec and its digest say, with no read outside it. -/
theorem container_round_trip (sha256 : Bytes → Fin 32 → UInt8) (lossy : Bytes → Text) (path : Text)
    (container : Container) : (∀ (spec : List Section) (sections : List Bytes), spec ≠ [] →
      (∀ part ∈ spec, (utf8Bytes part.1).length ≤ 255) →
      headerLength spec ≤ container.headerBytes →
      sections.map length = spec.map Prod.snd →
      (imageBytes sections < 2 ^ 64 →
        ∃ out, writeContainer sha256 container spec sections = .ok out) ∧
      ∀ file head, writeContainer sha256 container spec sections = .ok (file, head) →
        ∀ bind : List Text → Except Text (List Section), bind (spec.map Prod.fst) = .ok spec →
        ∃ taken, readContainerWith sha256 lossy path container bind file = .ok taken ∧
          taken.spec = spec ∧ sectionBytes file taken.sections = sections ∧
          (∀ place ∈ taken.sections, page ∣ place.1 ∧ container.headerBytes ≤ place.1) ∧
          taken.sections.Pairwise fun place later =>
            place.1 + nextMultiple place.2 page ≤ later.1) ∧
    ∀ (bind : List Text → Except Text (List Section)) (map : Bytes),
      readContainerWith sha256 lossy path container bind map ≠ .error .outOfBounds ∧
      ∀ taken, readContainerWith sha256 lossy path container bind map = .ok taken →
        Taken sha256 container bind map taken := by
  refine ⟨?_, fun bind map => ⟨read_within, fun taken h => taken_of_read h⟩⟩
  intro spec sections hsp hn hf hl
  have hn' : ∀ part ∈ spec, NameFits part.1 := fun part hp =>
    Nat.lt_succ_of_le (hn part hp)
  constructor
  · intro hs
    exact ⟨_, writeContainer_eq_ok hn' hf hl hs⟩
  · intro file head hw bind hb
    have hs := imageBytes_lt hw
    cases hw.symm.trans (writeContainer_eq_ok hn' hf hl hs)
    refine ⟨_, read_written hsp hn' hf hl hb hs, rfl,
      sectionBytes_written hl hf, ?_, pairwise_offsetsFrom (Nat.dvd_refl page) _⟩
    intro place hm
    obtain ⟨ha, hbeh, -⟩ := mem_offsetsFrom (Nat.dvd_refl page) hm
    exact ⟨ha, Nat.le_trans container.header_le hbeh⟩

def sampleSha256 (_ : Bytes) (i : Fin 32) : UInt8 :=
  [3, 144, 88, 198, 242, 192, 203, 73, 44, 83, 59, 10, 77, 20, 239, 119, 204, 15, 120, 171, 204,
    206, 213, 40, 125, 132, 161, 162, 1, 28, 251, 129].getD i 0

theorem two_sections_read_back : ∃ file head taken,
      writeContainer sampleSha256 mtpContainer [("k".toList, 3), ("v".toList, 0)]
        [[1, 2, 3], []] = .ok (file, head) ∧
      readContainerWith sampleSha256 (fun _ => []) "head".toList mtpContainer
        (fun _ => .ok [("k".toList, 3), ("v".toList, 0)]) file = .ok taken ∧
      sectionBytes file taken.sections = [[1, 2, 3], []] := by
  obtain ⟨hwrs, hr⟩ := (container_round_trip sampleSha256 (fun _ => []) "head".toList
    mtpContainer).1 [("k".toList, 3), ("v".toList, 0)] [[1, 2, 3], []] (by decide) (by decide)
    (by decide) (by decide)
  obtain ⟨⟨file, head⟩, hw⟩ := hwrs (by decide)
  obtain ⟨taken, hre, -, hb, -⟩ := hr file head hw
    (fun _ => .ok [("k".toList, 3), ("v".toList, 0)]) rfl
  exact ⟨file, head, taken, hw, hre, hb⟩

end LocalAi.Mtp
