import LocalAi.Store.Resolve

/-!
# Stored records round trip

* `Faithful`: links and blobs have what their digests name; `Reached.faithful`: so it is in the
  files that saves, deletions and collections lead to.
* `writeBlobs_links`: a save gives its record links to all its blobs.
-/

open List

namespace LocalAi.Store.Records

section Digest

variable (sha256 : Text → Fin 32 → Fin 256)

/-! ### Files -/

structure Faithful (files : Files) : Prop where
  links : ∀ id digest content, files.links id digest = some content →
    digest = hexDigest sha256 content
  blobs : ∀ digest content, files.blobs digest = some content → digest = hexDigest sha256 content

/-- A content that some link or blob has. -/
def Files.Holds (files : Files) (content : Text) : Prop :=
  (∃ id digest, files.links id digest = some content) ∨ ∃ digest, files.blobs digest = some content

theorem Files.setBlob_blobs (files : Files) (digest content name : Text) :
    (files.setBlob digest content).blobs name =
      if name = digest then some content else files.blobs name :=
  Function.update_apply ..

variable {content id : Text} {known : Set Text} {blobs : List (Text × Text)}

theorem exists_of_whole {file : Option Text} (h : whole file content = true) :
    ∃ found, file = some found := by
  cases file with
  | none => cases h
  | some found => exact ⟨found, rfl⟩

theorem Faithful.setBlob {files : Files} (h : Faithful sha256 files) (content : Text) :
    Faithful sha256 (files.setBlob (hexDigest sha256 content) content) where
  links := h.links
  blobs := by
    intro digest found hf
    rw [Files.setBlob_blobs] at hf
    split at hf
    case isTrue hd => rw [hd, Option.some.inj hf]
    · exact h.blobs digest found hf

theorem Files.link_links (files : Files) (id digest owner name : Text) :
    (files.link id digest).links owner name =
      if owner = id ∧ name = digest then files.blobs digest else files.links owner name := by
  unfold Files.link
  dsimp only
  by_cases ho : owner = id
  · subst ho
    rw [Function.update_self, Function.update_apply]
    simp only [true_and]
  · rw [Function.update_of_ne ho, if_neg fun h => ho h.1]

theorem Faithful.link {files : Files} (h : Faithful sha256 files) (id digest : Text) :
    Faithful sha256 (files.link id digest) where
  links := by
    intro owner name content hc
    rw [Files.link_links] at hc
    split at hc
    case isTrue hs => rw [hs.2]; exact h.blobs digest content hc
    · exact h.links owner name content hc
  blobs := h.blobs

theorem Faithful.writeBlob {files : Files} (h : Faithful sha256 files) (id content : Text) :
    Faithful sha256 (writeBlob id files (hexDigest sha256 content, content)) := by
  unfold Records.writeBlob
  split
  · exact h
  · split
    · exact h.link sha256 id _
    · exact (h.setBlob sha256 content).link sha256 id _

theorem Files.Holds.writeBlob {files : Files} {blob : Text × Text}
    (h : (writeBlob id files blob).Holds content) : files.Holds content ∨ content = blob.2 := by
  have hl : ∀ files : Files, (files.link id blob.1).Holds content → files.Holds content := by
    intro files h
    rcases h with ⟨owner, name, hc⟩ | ⟨name, hc⟩
    · rw [Files.link_links] at hc
      split at hc
      · exact .inr ⟨_, hc⟩
      · exact .inl ⟨owner, name, hc⟩
    · exact .inr ⟨name, hc⟩
  unfold Records.writeBlob at h
  split at h
  · exact .inl h
  · split at h
    · exact .inl (hl files h)
    · rcases hl _ h with ⟨owner, name, hc⟩ | ⟨name, hc⟩
      · exact .inl (.inl ⟨owner, name, hc⟩)
      · rw [Files.setBlob_blobs] at hc
        split at hc
        · exact .inr (Option.some.inj hc).symm
        · exact .inl (.inr ⟨name, hc⟩)

theorem writeBlob_links {files : Files} (hfa : Faithful sha256 files)
    (hfr : Set.InjOn sha256 known) (hk : ∀ content, files.Holds content → content ∈ known)
    (hc : content ∈ known) :
    (writeBlob id files (hexDigest sha256 content, content)).links id (hexDigest sha256 content) =
      some content := by
  -- a file of the digest's name has the content
  have hs : ∀ found, files.Holds found → hexDigest sha256 content = hexDigest sha256 found →
      found = content := by
    intro found hf hd
    exact hfr (hk found hf) hc ((hexDigest_eq_iff sha256).mp hd.symm)
  unfold Records.writeBlob
  split
  case isTrue hw =>
    obtain ⟨found, hf⟩ := exists_of_whole hw
    rw [hf, hs found (.inl ⟨id, _, hf⟩) (hfa.links id _ found hf)]
  case isFalse =>
    split
    case isTrue hw =>
      obtain ⟨found, hf⟩ := exists_of_whole hw
      rw [Files.link_links, if_pos ⟨rfl, rfl⟩, hf, hs found (.inr ⟨_, hf⟩) (hfa.blobs _ found hf)]
    case isFalse =>
      rw [Files.link_links, if_pos ⟨rfl, rfl⟩, Files.setBlob_blobs, if_pos rfl]

theorem writeBlob_keeps {files : Files} (hf : Set.InjOn sha256 known)
    {other : Text} (hc : content ∈ known) (ho : other ∈ known)
    (h : files.links id (hexDigest sha256 content) = some content) :
    (writeBlob id files (hexDigest sha256 other, other)).links id (hexDigest sha256 content) =
      some content := by
  by_cases hd : hexDigest sha256 content = hexDigest sha256 other
  · obtain rfl := hf hc ho ((hexDigest_eq_iff sha256).mp hd)
    have hw : whole (files.links id (hexDigest sha256 content)) content = true := by
      simp [whole, h]
    rw [Records.writeBlob, if_pos hw]
    exact h
  · unfold Records.writeBlob
    split
    · exact h
    · split
      · rw [Files.link_links, if_neg fun hs => hd hs.2]
        exact h
      · rw [Files.link_links, if_neg fun hs => hd hs.2]
        exact h

theorem writeBlobs_keeps (hf : Set.InjOn sha256 known) (hc : content ∈ known)
    (hb : ∀ blob ∈ blobs, blob.1 = hexDigest sha256 blob.2 ∧ blob.2 ∈ known) {files : Files}
    (h : files.links id (hexDigest sha256 content) = some content) :
    (writeBlobs id blobs files).links id (hexDigest sha256 content) = some content := by
  induction blobs generalizing files with
  | nil => exact h
  | cons blob blobs ih =>
    obtain ⟨digest, other⟩ := blob
    obtain ⟨hd, ho⟩ := hb _ (mem_cons_self ..)
    obtain rfl : digest = hexDigest sha256 other := hd
    exact ih (fun blob hbl => hb blob (mem_cons_of_mem _ hbl)) (writeBlob_keeps sha256 hf hc ho h)

theorem Faithful.writeBlobs (hb : ∀ blob ∈ blobs, blob.1 = hexDigest sha256 blob.2) {files : Files}
    (h : Faithful sha256 files) (id : Text) : Faithful sha256 (writeBlobs id blobs files) := by
  induction blobs generalizing files with
  | nil => exact h
  | cons blob blobs ih =>
    obtain ⟨digest, content⟩ := blob
    obtain rfl : digest = hexDigest sha256 content := hb _ (mem_cons_self ..)
    exact ih (fun blob hbl => hb blob (mem_cons_of_mem _ hbl)) (h.writeBlob sha256 id content)

theorem writeBlobs_links (hfr : Set.InjOn sha256 known) (id : Text)
    (hb : ∀ blob ∈ blobs, blob.1 = hexDigest sha256 blob.2 ∧ blob.2 ∈ known) {files : Files}
    (hfa : Faithful sha256 files) (hk : ∀ content, files.Holds content → content ∈ known) :
    ∀ blob ∈ blobs, (writeBlobs id blobs files).links id blob.1 = some blob.2 := by
  induction blobs generalizing files with
  | nil => exact nofun
  | cons blob blobs ih =>
    obtain ⟨digest, content⟩ := blob
    obtain ⟨hd, hc⟩ := hb _ (mem_cons_self ..)
    obtain rfl : digest = hexDigest sha256 content := hd
    have hl : ∀ blob ∈ blobs, blob.1 = hexDigest sha256 blob.2 ∧ blob.2 ∈ known :=
      fun blob hbl => hb blob (mem_cons_of_mem _ hbl)
    intro found hf
    rcases mem_cons.mp hf with rfl | hf
    · exact writeBlobs_keeps sha256 hfr hc hl
        (writeBlob_links sha256 hfa hfr hk hc)
    · refine ih hl (hfa.writeBlob sha256 id content) (fun held hh => ?_) found hf
      rcases hh.writeBlob with hold | rfl
      · exact hk held hold
      · exact hc

theorem externalize_blobs {value : Json} {blob : Text × Text}
    (h : blob ∈ (externalize sha256 value [] .none).2.blobs) :
    ∃ place ∈ longs value, blob = (hexDigest sha256 place.2, place.2) := by
  rw [externalize_eq] at h
  rcases moveAll_blobs sha256 h with hn | hp
  · cases hn
  · exact hp

theorem links_of_blobs {value : Json} (hf : Set.InjOn sha256 known)
    (hv : ∀ place ∈ longs value, place.2 ∈ known) {links : Text → Option Text}
    (hl : ∀ blob ∈ (externalize sha256 value [] .none).2.blobs, links blob.1 = some blob.2) :
    ∀ place ∈ longs value, links (hexDigest sha256 place.2) = some place.2 := by
  intro place hp
  have hn : hexDigest sha256 place.2 ∈
      (externalize sha256 value [] .none).2.blobs.map Prod.fst := by
    rw [externalize_eq]
    exact moveAll_names sha256 (.inr ⟨place, hp, rfl⟩)
  obtain ⟨blob, hb, hd⟩ := mem_map.mp hn
  obtain ⟨other, ho, rfl⟩ := externalize_blobs sha256 hb
  have hli := hl _ hb
  have hs : other.2 = place.2 :=
    hf (hv other ho) (hv place hp) ((hexDigest_eq_iff sha256).mp hd)
  rw [← hs]
  exact hli

/-! ### The record -/

/-- The members of a record after its first two. -/
def contents (response : Json) (inputItems : List Json)
    (request : Option (Json × Option (List (Text × Json)))) (project : Option Text) :
    List (Text × Json) :=
  ("response".toList, response) :: ("input_items".toList, .array inputItems) ::
    ((request.toList.flatMap fun request => ("request".toList, request.1) ::
      request.2.toList.map fun creator => ("creator".toList, .object creator)) ++
    project.toList.map fun project => ("project".toList, .string project))

def versioned (version : Nat) (contents : List (Text × Json)) : List (Text × Json) :=
  ("object".toList, .string "local_ai.stored_response".toList) ::
    ("version".toList, number version) :: contents

/-- The request and its creator as `saveWith` takes them. -/
def asPending (request : Option (Json × Option (List (Text × Json)))) :
    Option (Json × Option Json) :=
  request.map fun request => (request.1, request.2.map .object)

section Record

variable (response : Json) (inputItems : List Json)
  (request : Option (Json × Option (List (Text × Json)))) (project : Option Text)

theorem recordOf_eq : recordOf response inputItems (asPending request) project =
    .object (versioned recordVersion (contents response inputItems request project)) := by
  obtain _ | ⟨body, _ | creator⟩ := request <;> cases project <;> rfl

theorem contents_keys : List.Sublist ((contents response inputItems request project).map Prod.fst)
    ["response".toList, "input_items".toList, "request".toList, "creator".toList,
      "project".toList] := by
  obtain _ | ⟨body, _ | creator⟩ := request <;> cases project <;>
    simp only [contents, Option.toList_none, Option.toList_some, flatMap_nil,
      flatMap_cons, map_nil, map_cons, nil_append, append_nil,
      cons_append] <;> decide

theorem stored_versioned {version : Nat}
    (hv : version = recordVersion ∨ version = blobRecordVersion)
    (hid : (member response "id".toList).bind Json.asStr = some id) : stored id (some version)
        (.object (versioned version (contents response inputItems request project))) =
      .ok ⟨response, inputItems, request.map Prod.fst,
        (request.bind Prod.snd).map .object, project⟩ := by
  have hm : (some version = some recordVersion ∨ some version = some blobRecordVersion) ∧
      (member response "id".toList).bind Json.asStr = some id :=
    ⟨hv.imp (congrArg some) (congrArg some), hid⟩
  have hr : member (.object (versioned version
      (contents response inputItems request project))) "response".toList = some response := rfl
  have hi : member (.object (versioned version
      (contents response inputItems request project))) "input_items".toList =
        some (.array inputItems) := rfl
  rw [stored, hr, hi]
  dsimp only
  rw [if_pos hm]
  obtain _ | ⟨body, _ | creator⟩ := request <;> cases project <;> rfl

variable (version : Nat)

theorem versioned_keys_nodup :
    ((versioned version (contents response inputItems request project)).map Prod.fst).Nodup := by
  have hk := ((contents_keys response inputItems request project).cons_cons "version".toList).cons_cons
    "object".toList
  exact hk.nodup (by decide)

theorem blobs_notMem_versioned : "blobs".toList ∉
    (versioned version (contents response inputItems request project)).map Prod.fst := by
  have hk := ((contents_keys response inputItems request project).cons_cons "version".toList).cons_cons
    "object".toList
  intro hm
  exact absurd (hk.subset hm) (by decide)

/-- The arguments of a save have distinct keys, as maps have. -/
structure DistinctParts : Prop where
  whole : Distinct response
  items : DistinctItems inputItems
  body : ∀ pending ∈ request, Distinct pending.1
  creator : ∀ pending ∈ request, ∀ creator ∈ pending.2, Distinct (.object creator)

variable {response inputItems request}

theorem DistinctParts.distinct (h : DistinctParts response inputItems request)
    (project : Option Text) (version : Nat) :
    Distinct (.object (versioned version (contents response inputItems request project))) := by
  rw [Distinct]
  refine ⟨versioned_keys_nodup .., ?_⟩
  obtain _ | ⟨body, creator⟩ := request
  · cases project with
    | none => exact ⟨trivial, trivial, h.whole, h.items, trivial⟩
    | some => exact ⟨trivial, trivial, h.whole, h.items, trivial, trivial⟩
  · have hb := h.body _ rfl
    obtain _ | creator := creator
    · cases project with
      | none => exact ⟨trivial, trivial, h.whole, h.items, hb, trivial⟩
      | some => exact ⟨trivial, trivial, h.whole, h.items, hb, trivial, trivial⟩
    · have hc := h.creator _ rfl _ rfl
      cases project with
      | none => exact ⟨trivial, trivial, h.whole, h.items, hb, hc, trivial⟩
      | some =>
        exact ⟨trivial, trivial, h.whole, h.items, hb, hc, trivial, trivial⟩

variable (response inputItems request)

theorem longs_versioned :
    longs (.object (versioned version (contents response inputItems request project))) =
      longMembers (contents response inputItems request project) := by
  have hs : longs (.string "local_ai.stored_response".toList) = [] := by
    rw [longs, if_neg (by decide)]
  rw [longs, versioned, longMembers, longMembers, hs]
  rfl

theorem mask_versioned (kept : List Text → Bool) :
    mask sha256 (.object (versioned version (contents response inputItems request project))) kept =
      .object (versioned version
        (maskMembers sha256 (contents response inputItems request project) kept)) := by
  have hs : ∀ kept, mask sha256 (.string "local_ai.stored_response".toList) kept =
      .string "local_ai.stored_response".toList := by
    intro kept
    rw [mask, if_neg (by decide)]
  rw [mask, versioned, maskMembers, maskMembers, hs]
  rfl

theorem setMember_version : setMember "version".toList (number blobRecordVersion)
        (externalize sha256 (.object (versioned recordVersion
          (contents response inputItems request project))) [] .none).1 =
      (externalize sha256 (.object (versioned blobRecordVersion
        (contents response inputItems request project))) [] .none).1 := by
  rw [externalize_eq, externalize_eq, mask_versioned, mask_versioned]
  have hk : "version".toList ∉ (maskMembers sha256
      (contents response inputItems request project) fun _ => false).map Prod.fst := by
    rw [map_fst_maskMembers]
    intro hmem
    exact absurd ((contents_keys response inputItems request project).subset hmem) (by decide)
  have hr : ((maskMembers sha256 (contents response inputItems request project)
      fun _ => false).map fun member =>
        if member.1 == "version".toList then ("version".toList, number blobRecordVersion)
        else member) =
      maskMembers sha256 (contents response inputItems request project) fun _ => false := by
    refine (map_congr_left fun member hm => if_neg fun hkey => ?_).trans (map_id _)
    exact hk (mem_map.mpr ⟨member, hm, beq_iff_eq.mp hkey⟩)
  have ha : ((versioned recordVersion (maskMembers sha256
      (contents response inputItems request project) fun _ => false)).any fun member =>
        member.1 == "version".toList) = true := rfl
  rw [setMember, insertMember, ha, if_pos rfl, versioned, map_cons, map_cons, hr]
  rfl

end Record

/-! ### Saving and loading -/

/-- The files that saves, deletions and collections lead to. -/
inductive Reached : Files → Prop
  | empty : Reached .empty
  | save {files after : Files} {order : Order} {response : Json} {inputItems : List Json}
      {request : Option (Json × Option Json)} {project : Option Text} (prior : Reached files)
      (h : saveWith sha256 order files response inputItems request project = .ok after) :
      Reached after
  | remove {files after : Files} (prior : Reached files)
      (hlinks : ∀ id digest content, after.links id digest = some content →
        files.links id digest = some content)
      (hblobs : ∀ digest content, after.blobs digest = some content →
        files.blobs digest = some content) :
      Reached after

theorem Faithful.saveWith {files after : Files} {order : Order} {response : Json}
    {inputItems : List Json} {request : Option (Json × Option Json)} {project : Option Text}
    (hfa : Faithful sha256 files)
    (h : saveWith sha256 order files response inputItems request project = .ok after) :
    Faithful sha256 after := by
  have hl : ∀ files : Files, Faithful sha256 files →
      ∀ locks, Faithful sha256 { files with locks := locks } :=
    fun files h locks => ⟨h.links, h.blobs⟩
  unfold Records.saveWith at h
  dsimp only at h
  split at h
  case isTrue hid =>
    have hf : Faithful sha256 (if leased response then
        { files with locks := Function.update files.locks (idOf response) true } else files) := by
      split
      · exact hl files hfa _
      · exact hfa
    revert h hf
    generalize (if leased response then
        { files with locks := Function.update files.locks (idOf response) true } else files) = files
    intro h hf
    split at h
    · cases h
      exact ⟨hf.links, hf.blobs⟩
    · cases h
      have hn : ∀ blob ∈ order.blobs (externalize sha256
          (recordOf response inputItems request project) [] .none).2.blobs,
          blob.1 = hexDigest sha256 blob.2 := by
        intro blob hb
        obtain ⟨place, -, rfl⟩ := externalize_blobs sha256 ((order.blobs_perm _).mem_iff.mp hb)
        rfl
      have hw := hf.writeBlobs sha256 hn (idOf response)
      exact ⟨hw.links, hw.blobs⟩
  case isFalse => cases h

theorem Reached.faithful {files : Files} (h : Reached sha256 files) : Faithful sha256 files := by
  induction h with
  | empty => exact ⟨nofun, nofun⟩
  | save prior h ih => exact ih.saveWith sha256 h
  | remove prior hl hb ih =>
    exact ⟨fun id digest content h => ih.links id digest content (hl id digest content h),
      fun digest content h => ih.blobs digest content (hb digest content h)⟩

/-- The strings that `externalize` moves out of a value. -/
def moves (value : Json) : Set Text := {text | ∃ path, (path, text) ∈ longs value}

theorem id_of_valid {response : Json} (h : validId (idOf response) = true) :
    (member response "id".toList).bind Json.asStr = some (idOf response) := by
  rw [idOf] at h ⊢
  cases hid : (member response "id".toList).bind Json.asStr with
  | none =>
    rw [hid] at h
    cases h
  | some => rfl

variable {sha256} {files : Files} {response : Json} {inputItems : List Json}
  {request : Option (Json × Option (List (Text × Json)))} {project : Option Text}

theorem load_plain (reading : Order) (hid : validId (idOf response) = true)
    (hr : files.records (idOf response) =
      some (.object (versioned recordVersion (contents response inputItems request project)))) :
    load reading files (idOf response) =
      .ok (some ⟨response, inputItems, request.map Prod.fst,
        (request.bind Prod.snd).map .object, project⟩) := by
  have hv : (member (.object (versioned recordVersion
      (contents response inputItems request project))) "version".toList).bind Json.asU64 =
        some recordVersion := rfl
  rw [load, if_pos hid, hr]
  dsimp only
  rw [hv, if_neg (by decide),
    stored_versioned response inputItems request project (.inl rfl) (id_of_valid hid)]
  rfl

theorem load_blobs (reading : Order) (hid : validId (idOf response) = true)
    (hp : DistinctParts response inputItems request)
    (hrec : files.records (idOf response) = some (setMember "blobs".toList
      (.object (externalize sha256 (.object (versioned blobRecordVersion
        (contents response inputItems request project))) [] .none).2.references)
      (externalize sha256 (.object (versioned blobRecordVersion
        (contents response inputItems request project))) [] .none).1))
    (hl : ∀ place ∈ longs (.object (versioned blobRecordVersion
      (contents response inputItems request project))),
      files.links (idOf response) (hexDigest sha256 place.2) = some place.2) :
    load reading files (idOf response) =
      .ok (some ⟨response, inputItems, request.map Prod.fst,
        (request.bind Prod.snd).map .object, project⟩) := by
  have hr := resolve_externalize sha256 reading (idOf response)
    (hp.distinct project blobRecordVersion)
    (blobs_notMem_versioned response inputItems request project blobRecordVersion) hl
  have hv : (member (setMember "blobs".toList
      (.object (externalize sha256 (.object (versioned blobRecordVersion
        (contents response inputItems request project))) [] .none).2.references)
      (externalize sha256 (.object (versioned blobRecordVersion
        (contents response inputItems request project))) [] .none).1) "version".toList).bind
        Json.asU64 = some blobRecordVersion := by
    have hk : "blobs".toList ∉ (versioned blobRecordVersion (maskMembers sha256
        (contents response inputItems request project) fun _ => false)).map Prod.fst := by
      have hm := blobs_notMem_versioned response inputItems request project blobRecordVersion
      rw [versioned, map_cons, map_cons] at hm ⊢
      rwa [map_fst_maskMembers]
    rw [externalize_eq, mask_versioned, setMember, insertMember_of_notMem hk]
    rfl
  rw [load, if_pos hid, hrec]
  dsimp only
  rw [hv, if_pos rfl, hr]
  dsimp only
  rw [stored_versioned response inputItems request project (.inr rfl) (id_of_valid hid)]
  rfl

theorem load_saveWith (hf : Faithful sha256 files) (hid : validId (idOf response) = true)
    (hpa : DistinctParts response inputItems request)
    (hfr : Set.InjOn sha256 ({text | files.Holds text} ∪
      moves (recordOf response inputItems (asPending request) project))) (order : Order) : ∃ after,
      saveWith sha256 order files response inputItems (asPending request) project = .ok after ∧
      ∀ reading, load reading after (idOf response) =
        .ok (some ⟨response, inputItems, request.map Prod.fst,
          (request.bind Prod.snd).map .object, project⟩) := by
  have hl := longs_versioned response inputItems request project
  unfold saveWith
  dsimp only
  rw [if_pos hid]
  have hh : ∀ files' : Files, files' = (if leased response then
      { files with locks := Function.update files.locks (idOf response) true } else files) →
      Faithful sha256 files' ∧ ∀ content, files'.Holds content → files.Holds content := by
    rintro _ rfl
    split
    · exact ⟨⟨hf.links, hf.blobs⟩, fun _ h => h⟩
    · exact ⟨hf, fun _ h => h⟩
  revert hh
  generalize (if leased response then
      { files with locks := Function.update files.locks (idOf response) true } else files) = locked
  intro hh
  obtain ⟨hlo, hh⟩ := hh locked rfl
  rw [recordOf_eq] at hfr ⊢
  have hr := externalize_references sha256 (hpa.distinct project recordVersion)
  split
  case isTrue he =>
    have hno : longs (.object (versioned recordVersion
        (contents response inputItems request project))) = [] := by
      rw [List.isEmpty_iff, hr] at he
      exact map_eq_nil_iff.mp he
    have hpl : (externalize sha256 (.object (versioned recordVersion
        (contents response inputItems request project))) [] .none).1 =
        .object (versioned recordVersion (contents response inputItems request project)) := by
      rw [externalize_eq]
      refine mask_kept sha256 _ _ fun place hp => ?_
      rw [hno] at hp
      cases hp
    refine ⟨_, rfl, fun reading => load_plain reading hid ?_⟩
    rw [hpl]
    exact Function.update_self ..
  case isFalse hso =>
    have hk : ∀ place ∈ longs (.object (versioned recordVersion
        (contents response inputItems request project))), place.2 ∈ ({text | files.Holds text} ∪
          moves (.object (versioned recordVersion
            (contents response inputItems request project))) : Set Text) :=
      fun place hp => .inr ⟨place.1, hp⟩
    have hn : ∀ blob ∈ order.blobs (externalize sha256 (.object (versioned recordVersion
        (contents response inputItems request project))) [] .none).2.blobs,
        blob.1 = hexDigest sha256 blob.2 ∧ blob.2 ∈ ({text | files.Holds text} ∪
          moves (.object (versioned recordVersion
            (contents response inputItems request project))) : Set Text) := by
      intro blob hb
      obtain ⟨place, hp, rfl⟩ :=
        externalize_blobs sha256 ((order.blobs_perm _).mem_iff.mp hb)
      exact ⟨rfl, hk place hp⟩
    have hw := writeBlobs_links sha256 hfr (idOf response) hn hlo
      (fun content hc => .inl (hh content hc))
    have hli := links_of_blobs sha256 hfr hk fun blob hb =>
      hw blob ((order.blobs_perm _).mem_iff.mpr hb)
    have hs : (externalize sha256 (.object (versioned recordVersion
        (contents response inputItems request project))) [] .none).2.references =
        (externalize sha256 (.object (versioned blobRecordVersion
          (contents response inputItems request project))) [] .none).2.references := by
      rw [hr, externalize_references sha256 (hpa.distinct project blobRecordVersion), hl, hl]
    refine ⟨_, rfl, fun reading =>
      @load_blobs sha256 _ response inputItems request project reading hid hpa ?_ ?_⟩
    · rw [setMember_version, hs]
      exact Function.update_self ..
    · rw [hl] at hli ⊢
      exact hli

end Digest

/-- Records round trip.  `externalize` leaves no long string, every reference points at its
digest, and `resolve` undoes it; a response that was saved, with its input, its request and
creator and its project, is loaded as it was. -/
theorem records_round_trip (sha256 : Text → Fin 32 → Fin 256) : (∀ value, Distinct value →
      (∀ text ∈ strings (externalize sha256 value [] .none).1, utf8Len text < blobMinLen) ∧
      (∀ entry ∈ (externalize sha256 value [] .none).2.references, ∃ digest,
        entry.2 = .string digest ∧
        (externalize sha256 value [] .none).1.pointer entry.1 = some (.string digest)) ∧
      ∀ members, value = .object members → "blobs".toList ∉ members.map Prod.fst →
        Set.InjOn sha256 (moves value) → ∀ order id links,
        (∀ blob ∈ (externalize sha256 value [] .none).2.blobs, links blob.1 = some blob.2) →
        resolve order links id
          (setMember "blobs".toList (.object (externalize sha256 value [] .none).2.references)
            (externalize sha256 value [] .none).1) = .ok value) ∧
    ∀ files, Reached sha256 files → ∀ response inputItems request project,
      validId (idOf response) = true → DistinctParts response inputItems request →
      Set.InjOn sha256 ({text | files.Holds text} ∪
        moves (recordOf response inputItems (asPending request) project)) →
      ∀ order, ∃ after,
        saveWith sha256 order files response inputItems (asPending request) project = .ok after ∧
        ∀ reading, load reading after (idOf response) =
          .ok (some ⟨response, inputItems, request.map Prod.fst,
            (request.bind Prod.snd).map .object, project⟩) := by
  refine ⟨fun value hd => ⟨?_, ?_, ?_⟩, ?_⟩
  · rw [externalize_eq]
    exact strings_mask sha256 value
  · intro entry he
    rw [externalize_references sha256 hd] at he
    obtain ⟨place, hp, rfl⟩ := mem_map.mp he
    exact ⟨_, rfl, pointer_reference sha256 hd hp⟩
  · rintro members rfl hb hf order id links hl
    exact resolve_externalize sha256 order id hd hb
      (links_of_blobs sha256 hf (fun place hp => ⟨place.1, hp⟩) hl)
  · intro files hfi response inputItems request project hid hpa hf order
    exact load_saveWith (hfi.faithful sha256) hid hpa hf order

/-- A string of just the length of a blob. -/
def longText : Text := List.replicate blobMinLen 'a'

theorem utf8Len_longText : utf8Len longText = blobMinLen := by
  rw [utf8Len, longText, map_replicate, sum_replicate_nat]
  exact Nat.mul_one _

def longSha256 (text : Text) (index : Fin 32) : Fin 256 :=
  if text = longText then
    [243, 51, 107, 234, 117, 43, 90, 40, 116, 48, 51, 221, 44, 132, 74, 74, 99, 251, 160, 136, 113,
      170, 238, 37, 134, 162, 191, 45, 105, 190, 131, 162].getD index 0
  else 0

/-- A response whose text is moved out. -/
def longResponse : Json :=
  .object [("id".toList, .string "resp_a".toList), ("a/b~c".toList, .array [.string longText])]

def insertionOrder : Order := ⟨id, fun _ => .refl _, id, fun _ => .refl _⟩

theorem moves_longResponse : moves (recordOf longResponse [] (asPending none) none) = {longText} := by
  have hl : longs (recordOf longResponse [] (asPending none) none) =
      [(["response".toList, "a/b~c".toList, decimal 0], longText)] := by
    rw [recordOf_eq, longs_versioned]
    simp only [contents, longMembers, longResponse, longs, longItems]
    rw [if_neg (by decide), if_pos (le_of_eq utf8Len_longText.symm)]
    rfl
  ext text
  constructor
  · rintro ⟨path, hp⟩
    rw [hl] at hp
    exact (Prod.mk.inj (mem_singleton.mp hp)).2
  · rintro rfl
    exact ⟨_, by rw [hl]; exact mem_singleton.mpr rfl⟩

theorem longResponse_round_trip : validId (idOf longResponse) = true ∧
    moves (recordOf longResponse [] (asPending none) none) = {longText} ∧
    ∃ after, saveWith longSha256 insertionOrder .empty longResponse [] (asPending none) none =
        .ok after ∧
      load insertionOrder after "resp_a".toList =
        .ok (some ⟨longResponse, [], none, none, none⟩) := by
  have hd : DistinctParts longResponse [] none :=
    ⟨⟨by decide, trivial, ⟨trivial, trivial⟩, trivial⟩, trivial, nofun, nofun⟩
  have hf : Set.InjOn longSha256 ({text | Files.empty.Holds text} ∪
      moves (recordOf longResponse [] (asPending none) none)) := by
    have he : {text | Files.empty.Holds text} = ∅ := by
      ext text
      simp [Files.Holds, Files.empty]
    rw [he, Set.empty_union, moves_longResponse]
    exact Set.injOn_singleton _ _
  obtain ⟨after, hs, hl⟩ := (records_round_trip longSha256).2 .empty .empty longResponse []
    none none (by decide) hd hf insertionOrder
  exact ⟨by decide, moves_longResponse, after, hs, hl insertionOrder⟩

end LocalAi.Store.Records
