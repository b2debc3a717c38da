import LocalAi.FileStore.Tables
import Mathlib.Algebra.Order.BigOperators.Group.List
import Mathlib.Algebra.Order.Group.Nat
import Mathlib.Data.List.Nodup

/-!
# What the transactions on stored files keep

* `Db.Ok`: a row that names a blob has it to itself, and the blob's row is committed; parts
  stay within what their upload declared; uploads and internal ids are committed once.
* `deleteFile_spec`, `commitNewPart_spec`, ...: both for each transaction, and which blobs it
  leaves without a row.
-/

open List

namespace LocalAi.FileStore

open Lib (bind_eq_ok ensure_eq_ok)

/-! ### What the transactions keep -/

/-- The blobs that rows name, with the bytes that were stored in them. -/
def Db.contents (db : Db) : List (Text × Bytes) :=
  db.files.map (fun row => (row.blobId, row.content)) ++
    db.parts.map fun row => (row.blobId, row.content)

structure Db.Ok (db : Db) : Prop where
  committed : ∀ entry ∈ db.contents, ∃ row ∈ db.blobs, row.id = entry.1 ∧ row.committed
  unique : (db.contents.map Prod.fst).Nodup
  referenced : ∀ row ∈ db.blobs, row.committed → row.id ∈ db.contents.map Prod.fst
  blob_ids : (db.blobs.map (·.id)).Nodup
  blob_used : ∀ row ∈ db.blobs, row.id ∈ db.usedBlobs
  file_ids : (db.files.map (·.id)).Nodup
  file_size : ∀ row ∈ db.files, row.bytes = row.content.length
  part_size : ∀ row ∈ db.parts, row.bytes = row.content.length
  part_used : ∀ row ∈ db.parts, row.id ∈ db.usedParts
  part_upload : ∀ row ∈ db.parts, ∃ upload ∈ db.uploads,
    upload.id = row.uploadId ∧ upload.status = .pending
  upload_ids : (db.uploads.map (·.id)).Nodup
  within : ∀ upload ∈ db.uploads, partsTotal db upload.id ≤ upload.bytes
  completed_once : (db.completions.map (·.uploadId)).Nodup
  completed : ∀ completion ∈ db.completions, ∃ upload ∈ db.uploads,
    upload.id = completion.uploadId ∧ upload.status = .completed
  assembled : ∀ completion ∈ db.completions, completion.content = completion.parts.flatten
  completed_blob : ∀ completion ∈ db.completions, completion.blobId ∈ db.usedBlobs ∧
    (∀ row ∈ db.blobs, row.id = completion.blobId → row.committed) ∧
      ∀ row ∈ db.files, row.blobId = completion.blobId → row.content = completion.content
  internal_once : db.internalCommits.Nodup
  internal_recorded : ∀ id ∈ db.internalCommits, ∃ row ∈ db.internalFiles, row.id = id
  part_ids : (db.parts.map (·.id)).Nodup

theorem Db.Ok.empty : Db.empty.Ok := by
  constructor <;> simp [Db.empty, Db.contents]

variable {db after : Db} {b : PartRow} {blobId fileId uploadId : Text} {now : Nat}
  {upload : UploadRow}

theorem Db.mem_contents {entry : Text × Bytes} : entry ∈ db.contents ↔
    (∃ row ∈ db.files, (row.blobId, row.content) = entry) ∨
      ∃ row ∈ db.parts, (row.blobId, row.content) = entry := by
  rw [Db.contents, mem_append, mem_map, mem_map]

variable {row : FileRow} {project : Option Text}

theorem Db.file_mem_contents (h : row ∈ db.files) : (row.blobId, row.content) ∈ db.contents :=
  Db.mem_contents.mpr (Or.inl ⟨row, h, rfl⟩)

theorem Db.part_mem_contents {row : PartRow} (h : row ∈ db.parts) :
    (row.blobId, row.content) ∈ db.contents :=
  Db.mem_contents.mpr (Or.inr ⟨row, h, rfl⟩)

theorem Db.Ok.blob_eq (h : db.Ok) {a b : BlobRow} (ha : a ∈ db.blobs)
    (hb : b ∈ db.blobs) (hid : a.id = b.id) : a = b :=
  inj_on_of_nodup_map h.blob_ids ha hb hid

theorem Db.Ok.upload_eq (h : db.Ok) {a b : UploadRow} (ha : a ∈ db.uploads)
    (hb : b ∈ db.uploads) (hid : a.id = b.id) : a = b :=
  inj_on_of_nodup_map h.upload_ids ha hb hid

theorem Db.Ok.part_eq (h : db.Ok) {a : PartRow} (ha : a ∈ db.parts)
    (hb : b ∈ db.parts) (hid : a.id = b.id) : a = b :=
  inj_on_of_nodup_map h.part_ids ha hb hid

theorem Db.Ok.file_blob_eq (h : db.Ok) {a b : FileRow} (ha : a ∈ db.files)
    (hb : b ∈ db.files) (hbl : a.blobId = b.blobId) : a = b := by
  have hu := h.unique
  rw [Db.contents, map_append, nodup_append'] at hu
  have hf := hu.1
  rw [map_map] at hf
  exact inj_on_of_nodup_map hf ha hb hbl

theorem Db.Ok.part_blob_eq (h : db.Ok) {a : PartRow} (ha : a ∈ db.parts)
    (hb : b ∈ db.parts) (hbl : a.blobId = b.blobId) : a = b := by
  have hu := h.unique
  rw [Db.contents, map_append, nodup_append'] at hu
  have hp := hu.2.1
  rw [map_map] at hp
  exact inj_on_of_nodup_map hp ha hb hbl

theorem Db.Ok.file_part_ne (h : db.Ok) {a : FileRow} (ha : a ∈ db.files)
    (hb : b ∈ db.parts) : a.blobId ≠ b.blobId := by
  have hu := h.unique
  rw [Db.contents, map_append, nodup_append'] at hu
  intro hbl
  have hf : a.blobId ∈ (db.files.map fun row => (row.blobId, row.content)).map Prod.fst :=
    mem_map.mpr ⟨_, mem_map.mpr ⟨a, ha, rfl⟩, rfl⟩
  have hp : a.blobId ∈ (db.parts.map fun row => (row.blobId, row.content)).map Prod.fst :=
    mem_map.mpr ⟨_, mem_map.mpr ⟨b, hb, rfl⟩, hbl.symm⟩
  exact hu.2.2 hf hp

/-! ### Deletions -/

def Db.keep (db : Db) (files : FileRow → Bool) (parts : PartRow → Bool) (blobs : BlobRow → Bool) :
    Db :=
  { db with
    files := db.files.filter files
    parts := db.parts.filter parts
    blobs := db.blobs.filter blobs }

theorem sum_filter_le {α : Type} (l : List α) (q : α → Bool) (f : α → Nat) :
    ((l.filter q).map f).sum ≤ (l.map f).sum :=
  ((filter_sublist).map f).sum_le_sum (fun _ _ => Nat.zero_le _)

theorem Db.Ok.keep (h : db.Ok) {files : FileRow → Bool} {parts : PartRow → Bool}
    {blobs : BlobRow → Bool} (hf : ∀ row ∈ db.files, files row →
      ∀ blob ∈ db.blobs, blob.id = row.blobId → blob.committed → blobs blob)
    (hp : ∀ row ∈ db.parts, parts row →
      ∀ blob ∈ db.blobs, blob.id = row.blobId → blob.committed → blobs blob)
    (hbl : ∀ blob ∈ db.blobs, blob.committed → blobs blob →
      (∀ row ∈ db.files, row.blobId = blob.id → files row) ∧
        ∀ row ∈ db.parts, row.blobId = blob.id → parts row) : (db.keep files parts blobs).Ok where
  committed entry he := by
    rcases Db.mem_contents.mp he with ⟨row, hr, rfl⟩ | ⟨row, hr, rfl⟩
    · obtain ⟨hm, hk⟩ := mem_filter.mp hr
      obtain ⟨blob, hb, hid, hc⟩ := h.committed _ (Db.file_mem_contents hm)
      exact ⟨blob, mem_filter.mpr ⟨hb, hf row hm hk blob hb hid hc⟩, hid, hc⟩
    · obtain ⟨hm, hk⟩ := mem_filter.mp hr
      obtain ⟨blob, hb, hid, hc⟩ := h.committed _ (Db.part_mem_contents hm)
      exact ⟨blob, mem_filter.mpr ⟨hb, hp row hm hk blob hb hid hc⟩, hid, hc⟩
  unique := by
    have hs : ((db.keep files parts blobs).contents.map Prod.fst).Sublist
        (db.contents.map Prod.fst) :=
      ((filter_sublist.map _).append (filter_sublist.map _)).map _
    exact h.unique.sublist hs
  referenced blob hb hc := by
    obtain ⟨hm, hk⟩ := mem_filter.mp hb
    obtain ⟨entry, he, hid⟩ := mem_map.mp (h.referenced blob hm hc)
    obtain ⟨hkeepFiles, hkeepParts⟩ := hbl blob hm hc hk
    refine mem_map.mpr ⟨entry, Db.mem_contents.mpr ?_, hid⟩
    rcases Db.mem_contents.mp he with ⟨row, hr, rfl⟩ | ⟨row, hr, rfl⟩
    · exact Or.inl ⟨row, mem_filter.mpr ⟨hr, hkeepFiles row hr hid⟩, rfl⟩
    · exact Or.inr ⟨row, mem_filter.mpr ⟨hr, hkeepParts row hr hid⟩, rfl⟩
  blob_ids := h.blob_ids.sublist (filter_sublist.map _)
  blob_used blob hb := h.blob_used blob (mem_of_mem_filter hb)
  file_ids := h.file_ids.sublist (filter_sublist.map _)
  file_size row hr := h.file_size row (mem_of_mem_filter hr)
  part_size row hr := h.part_size row (mem_of_mem_filter hr)
  part_used row hr := h.part_used row (mem_of_mem_filter hr)
  part_upload row hr := h.part_upload row (mem_of_mem_filter hr)
  upload_ids := h.upload_ids
  within upload hupl := by
    have hle : partsTotal (db.keep files parts blobs) upload.id ≤ partsTotal db upload.id := by
      show (((db.parts.filter parts).filter (·.uploadId = upload.id)).map (·.bytes)).sum ≤ _
      rw [filter_comm]
      exact sum_filter_le _ _ _
    exact hle.trans (h.within upload hupl)
  completed_once := h.completed_once
  completed := h.completed
  assembled := h.assembled
  completed_blob completion hcompl := by
    obtain ⟨hu, hc, hcont⟩ := h.completed_blob completion hcompl
    exact ⟨hu, fun blob hb => hc blob (mem_of_mem_filter hb),
      fun row hr => hcont row (mem_of_mem_filter hr)⟩
  internal_once := h.internal_once
  internal_recorded := h.internal_recorded
  part_ids := h.part_ids.sublist (filter_sublist.map _)

/-! ### What the transactions change -/

/-- A blob that no row will ever name again. -/
def Db.Dead (db : Db) (blobId : Text) : Prop :=
  blobId ∈ db.usedBlobs ∧ ∀ row ∈ db.blobs, row.id ≠ blobId

def Db.Declared (db : Db) (uploadId : Text) (bytes : Nat) : Prop :=
  (∃ upload ∈ db.uploads, upload.id = uploadId) ∧
    ∀ upload ∈ db.uploads, upload.id = uploadId → upload.bytes = bytes

/-- Tables that come from `db` by a transaction: ids are never used again, rows never change,
and `added` is all that may become visible. -/
structure Db.Next (added : Option (Text × Bytes)) (db after : Db) : Prop where
  used_blobs : ∀ id ∈ db.usedBlobs, id ∈ after.usedBlobs
  used_parts : ∀ id ∈ db.usedParts, id ∈ after.usedParts
  blob_ids : ∀ row ∈ after.blobs, row.id ∈ db.usedBlobs → ∃ old ∈ db.blobs, old.id = row.id
  blobs : ∀ row ∈ after.blobs, row.id ∈ db.usedBlobs → some row.id ≠ added.map Prod.fst →
    row ∈ db.blobs
  parts : ∀ row ∈ after.parts, row.id ∈ db.usedParts → row ∈ db.parts
  contents : ∀ entry ∈ after.contents, entry ∈ db.contents ∨ added = some entry
  declared : ∀ id bytes, db.Declared id bytes → after.Declared id bytes

theorem Db.Next.dead {added : Option (Text × Bytes)} (h : db.Next added after)
    (hd : db.Dead blobId) : after.Dead blobId := by
  refine ⟨h.used_blobs _ hd.1, fun row hr hid => ?_⟩
  obtain ⟨old, hold, heq⟩ := h.blob_ids row hr (by rw [hid]; exact hd.1)
  exact hd.2 old hold (heq.trans hid)

theorem Db.Next.refl (db : Db) : db.Next none db :=
  ⟨fun _ h => h, fun _ h => h, fun row h _ => ⟨row, h, rfl⟩, fun _ h _ _ => h, fun _ h _ => h,
    fun _ h => Or.inl h, fun _ _ h => h⟩

theorem Db.Next.trans_keep {added : Option (Text × Bytes)} {middle : Db}
    (h : db.Next added middle) (ha : middle.Next none after) : db.Next added after where
  used_blobs id hid := ha.used_blobs id (h.used_blobs id hid)
  used_parts id hid := ha.used_parts id (h.used_parts id hid)
  blob_ids row hr hu := by
    obtain ⟨old, hold, heq⟩ := ha.blob_ids row hr (h.used_blobs _ hu)
    obtain ⟨older, holder, heq'⟩ := h.blob_ids old hold (by rw [heq]; exact hu)
    exact ⟨older, holder, heq'.trans heq⟩
  blobs row hr hu hne :=
    h.blobs row (ha.blobs row hr (h.used_blobs _ hu) nofun) hu hne
  parts row hr hu := h.parts row (ha.parts row hr (h.used_parts _ hu)) hu
  contents entry hent := by
    rcases ha.contents entry hent with hm | hn
    · exact h.contents entry hm
    · cases hn
  declared id bytes hd := ha.declared id bytes (h.declared id bytes hd)

theorem Db.next_keep (db : Db) (files : FileRow → Bool) (parts : PartRow → Bool)
    (blobs : BlobRow → Bool) : db.Next none (db.keep files parts blobs) where
  used_blobs _ h := h
  used_parts _ h := h
  blob_ids row hr _ := ⟨row, mem_of_mem_filter hr, rfl⟩
  blobs _ hr _ _ := mem_of_mem_filter hr
  parts _ hr _ := mem_of_mem_filter hr
  contents entry hent := by
    refine Or.inl (Db.mem_contents.mpr ?_)
    rcases Db.mem_contents.mp hent with ⟨row, hr, heq⟩ | ⟨row, hr, heq⟩
    · exact Or.inl ⟨row, mem_of_mem_filter hr, heq⟩
    · exact Or.inr ⟨row, mem_of_mem_filter hr, heq⟩
  declared _ _ h := h

/-! ### One lemma for each transaction that deletes -/

theorem discardBlob_spec (h : db.Ok) (blobId : Text) :
    (discardBlob blobId db).2.Ok ∧ db.Next none (discardBlob blobId db).2 ∧
      ((discardBlob blobId db).1 = true → (discardBlob blobId db).2.Dead blobId) := by
  have heq : (discardBlob blobId db).2 = db.keep (fun _ => true) (fun _ => true)
      fun row => ¬ (row.id = blobId ∧ row.committed = false) := by
    simp [discardBlob, Db.keep]
  rw [heq]
  refine ⟨h.keep ?_ ?_ ?_, db.next_keep _ _ _, fun hs => ?_⟩
  · intro row _ _ blob _ _ hc
    simp [hc]
  · intro row _ _ blob _ _ hc
    simp [hc]
  · intro blob _ _ _
    exact ⟨fun _ _ _ => rfl, fun _ _ _ => rfl⟩
  · obtain ⟨staged, hm, hid⟩ := any_eq_true.mp hs
    simp only [Bool.and_eq_true, decide_eq_true_eq, Bool.not_eq_eq_eq_not, Bool.not_true] at hid
    refine ⟨hid.1 ▸ h.blob_used staged hm, fun row hrow hr => ?_⟩
    obtain ⟨hrow, hk⟩ := mem_filter.mp hrow
    have hsa := h.blob_eq hrow hm (hr.trans hid.1.symm)
    rw [hsa] at hk
    simp [hid] at hk

theorem liveFileRow_spec
    (h : liveFileRow db fileId now project = some row) : row ∈ db.files ∧ row.id = fileId := by
  have hf := find?_some h
  simp only [Bool.and_eq_true, decide_eq_true_eq] at hf
  exact ⟨mem_of_find?_eq_some h, hf.1.1⟩

theorem Db.Ok.dead_of_not_kept (h : db.Ok) {files : FileRow → Bool}
    {parts : PartRow → Bool} {ids : List Text}
    (hid : blobId ∈ ids) (hu : blobId ∈ db.contents.map Prod.fst) :
    (db.keep files parts fun row => row.id ∉ ids).Dead blobId := by
  obtain ⟨entry, hent, rfl⟩ := mem_map.mp hu
  obtain ⟨blob, hbl, hb, -⟩ := h.committed entry hent
  refine ⟨hb ▸ h.blob_used blob hbl, fun row hr heq => ?_⟩
  obtain ⟨-, hk⟩ := mem_filter.mp hr
  rw [heq] at hk
  exact (of_decide_eq_true hk) hid

theorem deleteFile_spec (h : db.Ok) (hd : deleteFile fileId now project db = .ok (blobId, after)) :
    after.Ok ∧ db.Next none after ∧ after.Dead blobId := by
  rw [deleteFile] at hd
  split at hd
  · cases hd
  · next row hl =>
    obtain ⟨hr, hid⟩ := liveFileRow_spec hl
    have heq : after = db.keep (fun file => file.id ≠ fileId) (fun _ => true)
        fun blob => blob.id ∉ [row.blobId] := by
      cases hd
      simp [Db.keep, Db.deleteBlobs]
    have hbl : blobId = row.blobId := by
      cases hd
      rfl
    rw [heq, hbl]
    refine ⟨h.keep ?_ ?_ ?_, db.next_keep _ _ _, h.dead_of_not_kept (by simp) ?_⟩
    · intro file hfile hne blob _ hb _
      refine decide_eq_true (fun hm => ?_)
      have hs := h.file_blob_eq hfile hr (hb ▸ mem_singleton.mp hm)
      exact (of_decide_eq_true hne) (hs ▸ hid)
    · intro part hp _ blob _ hb _
      refine decide_eq_true (fun hm => ?_)
      exact h.file_part_ne hr hp ((mem_singleton.mp hm) ▸ hb)
    · intro blob _ _ hk
      refine ⟨fun file hfile hf => decide_eq_true (fun hfileid => ?_), fun _ _ _ => rfl⟩
      have hs : file = row := inj_on_of_nodup_map h.file_ids hfile hr (hfileid.trans hid.symm)
      exact (of_decide_eq_true hk) (mem_singleton.mpr (hs ▸ hf.symm))
    · exact mem_map.mpr ⟨_, Db.file_mem_contents hr, rfl⟩

theorem releaseParts_spec (h : db.Ok) (uploadId : Text) :
    (releaseParts uploadId db).2.Ok ∧ db.Next none (releaseParts uploadId db).2 ∧
      ∀ blobId ∈ (releaseParts uploadId db).1, (releaseParts uploadId db).2.Dead blobId := by
  have heq : (releaseParts uploadId db).2 = db.keep (fun _ => true)
      (fun part => part.uploadId ≠ uploadId)
      fun blob => blob.id ∉ (db.partsOf uploadId).map (·.blobId) := by
    simp [releaseParts, Db.keep, Db.deleteBlobs]
  have hof : ∀ part, part ∈ db.partsOf uploadId ↔ part ∈ db.parts ∧ part.uploadId = uploadId := by
    intro part
    rw [Db.partsOf, mem_filter, decide_eq_true_eq]
  rw [heq]
  refine ⟨h.keep ?_ ?_ ?_, db.next_keep _ _ _, ?_⟩
  · intro file hf _ blob _ hb _
    refine decide_eq_true (fun hm => ?_)
    obtain ⟨part, hpa, hp⟩ := mem_map.mp hm
    exact h.file_part_ne hf ((hof part).mp hpa).1 (hb.symm.trans hp.symm)
  · intro part hpa hne blob _ hb _
    refine decide_eq_true (fun hm => ?_)
    obtain ⟨other, hoth, hotherblob⟩ := mem_map.mp hm
    obtain ⟨hothermem, ho⟩ := (hof other).mp hoth
    have hs := h.part_blob_eq hpa hothermem (hb.symm.trans hotherblob.symm)
    exact (of_decide_eq_true hne) (hs ▸ ho)
  · intro blob _ _ hk
    refine ⟨fun _ _ _ => rfl, fun part hpa hp => decide_eq_true (fun hu => ?_)⟩
    exact (of_decide_eq_true hk) (mem_map.mpr ⟨part, (hof part).mpr ⟨hpa, hu⟩, hp⟩)
  · intro blobId hr
    apply h.dead_of_not_kept hr
    obtain ⟨part, hpa, rfl⟩ := mem_map.mp hr
    exact mem_map.mpr ⟨_, Db.part_mem_contents ((hof part).mp hpa).1, rfl⟩

theorem releaseAll_from (uploadIds : List Text) : ∀ (released : List Text) (db : Db), db.Ok →
    (∀ blobId ∈ released, db.Dead blobId) →
    let result := uploadIds.foldl (fun (released, db) uploadId =>
      (released ++ (releaseParts uploadId db).1, (releaseParts uploadId db).2)) (released, db)
    result.2.Ok ∧ db.Next none result.2 ∧ ∀ blobId ∈ result.1, result.2.Dead blobId := by
  induction uploadIds with
  | nil =>
    intro released db hok hd
    exact ⟨hok, .refl db, hd⟩
  | cons uploadId uploadIds ih =>
    intro released db hok hd
    obtain ⟨hok', hn, hr⟩ := releaseParts_spec hok uploadId
    obtain ⟨hf, hre, ha⟩ := ih (released ++ (releaseParts uploadId db).1)
      (releaseParts uploadId db).2 hok' (fun blobId hm => by
        rcases mem_append.mp hm with hm | hm
        · exact hn.dead (hd blobId hm)
        · exact hr blobId hm)
    exact ⟨hf, hn.trans_keep hre, ha⟩

theorem releaseAll_spec (h : db.Ok) (uploadIds : List Text) :
    (releaseAll uploadIds db).2.Ok ∧ db.Next none (releaseAll uploadIds db).2 ∧
      ∀ blobId ∈ (releaseAll uploadIds db).1, (releaseAll uploadIds db).2.Dead blobId :=
  releaseAll_from uploadIds [] db h (forall_mem_nil _)

theorem purgeFiles_spec (h : db.Ok) (now : Nat) :
    let ids := (db.files.filter (·.expired now)).map (·.blobId)
    let after : Db :=
      { db.deleteBlobs ids with files := db.files.filter fun row => ¬ row.expired now }
    after.Ok ∧ db.Next none after ∧ ∀ blobId ∈ ids, after.Dead blobId := by
  intro ids after
  have heq : after = db.keep (fun row => ¬ row.expired now) (fun _ => true)
      fun blob => blob.id ∉ ids := by
    simp [after, Db.keep, Db.deleteBlobs]
  have hof : ∀ blobId, blobId ∈ ids ↔
      ∃ row ∈ db.files, row.expired now = true ∧ row.blobId = blobId := by
    intro blobId
    simp only [ids, mem_map, mem_filter, and_assoc]
  rw [heq]
  refine ⟨h.keep ?_ ?_ ?_, db.next_keep _ _ _, ?_⟩
  · intro file hfi hk blob _ hb _
    refine decide_eq_true (fun hm => ?_)
    obtain ⟨other, hoth, he, ho⟩ := (hof _).mp hm
    have hs := h.file_blob_eq hfi hoth (hb.symm.trans ho.symm)
    exact (of_decide_eq_true hk) (hs ▸ he)
  · intro part hp _ blob _ hb _
    refine decide_eq_true (fun hm => ?_)
    obtain ⟨other, hoth, -, ho⟩ := (hof _).mp hm
    exact h.file_part_ne hoth hp (ho.trans hb)
  · intro blob _ _ hk
    refine ⟨fun file hfi hf => decide_eq_true (fun he => ?_), fun _ _ _ => rfl⟩
    exact (of_decide_eq_true hk) ((hof _).mpr ⟨file, hfi, he, hf⟩)
  · intro blobId hid
    apply h.dead_of_not_kept hid
    obtain ⟨row, hr, -, rfl⟩ := (hof _).mp hid
    exact mem_map.mpr ⟨_, Db.file_mem_contents hr, rfl⟩

theorem purgeStale_spec (h : db.Ok) (now : Nat) :
    let after : Db := { db with blobs := db.blobs.filter fun row => ¬ row.stale now }
    after.Ok ∧ db.Next none after ∧
      ∀ blobId ∈ (db.blobs.filter (·.stale now)).map (·.id), after.Dead blobId := by
  intro after
  have heq : after = db.keep (fun _ => true) (fun _ => true) fun row => ¬ row.stale now := by
    simp [after, Db.keep]
  have hf : ∀ blob : BlobRow, blob.committed = true → decide (¬ blob.stale now = true) = true := by
    intro blob hc
    simp [BlobRow.stale, hc]
  rw [heq]
  refine ⟨h.keep ?_ ?_ ?_, db.next_keep _ _ _, ?_⟩
  · exact fun _ _ _ blob _ _ hc => hf blob hc
  · exact fun _ _ _ blob _ _ hc => hf blob hc
  · exact fun _ _ _ _ => ⟨fun _ _ _ => rfl, fun _ _ _ => rfl⟩
  · intro blobId hid
    obtain ⟨blob, hb, rfl⟩ := mem_map.mp hid
    obtain ⟨hm, hs⟩ := mem_filter.mp hb
    refine ⟨h.blob_used blob hm, fun row hrow heq => ?_⟩
    obtain ⟨hr, hk⟩ := mem_filter.mp hrow
    rw [h.blob_eq hr hm heq] at hk
    exact (of_decide_eq_true hk) hs

theorem purge_spec (h : db.Ok) (now : Nat) : (purge now db).2.Ok ∧ db.Next none (purge now db).2 ∧
      ∀ blobId ∈ (purge now db).1, (purge now db).2.Dead blobId := by
  obtain ⟨hok1, hn1, hd1⟩ := purgeFiles_spec h now
  obtain ⟨hok2, hn2, hd2⟩ := releaseAll_spec hok1 ((db.uploads.filter (·.expired now)).map (·.id))
  obtain ⟨hok3, hn3, hd3⟩ := purgeStale_spec hok2 now
  refine ⟨hok3, (hn1.trans_keep hn2).trans_keep hn3, fun blobId hid => ?_⟩
  rcases mem_append.mp hid with hid | hid
  · rcases mem_append.mp hid with hid | hid
    · exact hn3.dead (hn2.dead (hd1 blobId hid))
    · exact hn3.dead (hd2 blobId hid)
  · exact hd3 blobId hid

/-! ### One lemma for each transaction that inserts -/

theorem stageBlob_spec (h : db.Ok) (hs : stageBlob blobId now db = .ok after) :
    after.Ok ∧ db.Next none after ∧ blobId ∉ db.usedBlobs ∧ blobId ∈ after.usedBlobs ∧
      (∀ row ∈ after.blobs, row.id = blobId → row.committed = false) := by
  obtain ⟨_, he, hp⟩ := bind_eq_ok.mp hs
  have hf : blobId ∉ db.usedBlobs := of_decide_eq_true (ensure_eq_ok.mp he)
  cases hp
  have hn : ∀ row ∈ db.blobs, row.id ≠ blobId := fun row hr heq =>
    hf (heq ▸ h.blob_used row hr)
  refine ⟨{ h with
      committed := ?_, referenced := ?_, blob_ids := ?_, blob_used := ?_, completed_blob := ?_ }, ⟨?_, fun _ hid => hid, ?_, ?_, fun _ hr _ => hr,
    fun _ hent => Or.inl hent, fun _ _ hd => hd⟩, hf, ?_, ?_⟩
  · intro entry hent
    obtain ⟨row, hr, hid⟩ := h.committed entry hent
    exact ⟨row, mem_append_left _ hr, hid⟩
  · intro row hr hc
    rcases mem_append.mp hr with hr | hr
    · exact h.referenced row hr hc
    · rw [mem_singleton.mp hr] at hc
      cases hc
  · rw [map_append, nodup_append']
    refine ⟨h.blob_ids, by simp, ?_⟩
    intro id hid hm
    obtain ⟨row, hr, rfl⟩ := mem_map.mp hid
    exact hn row hr (by simpa using hm)
  · intro row hr
    rcases mem_append.mp hr with hr | hr
    · exact mem_append_left _ (h.blob_used row hr)
    · rw [mem_singleton.mp hr]
      exact mem_append_right _ (mem_singleton_self _)
  · intro completion hcompl
    obtain ⟨hu, hc, hcont⟩ := h.completed_blob completion hcompl
    refine ⟨mem_append_left _ hu, fun row hr heq => ?_, hcont⟩
    rcases mem_append.mp hr with hr | hr
    · exact hc row hr heq
    · rw [mem_singleton.mp hr] at heq
      have hb : blobId = completion.blobId := heq
      exact absurd (hb ▸ hu) hf
  · exact fun id hid => mem_append_left _ hid
  · intro row hr hu
    rcases mem_append.mp hr with hr | hr
    · exact ⟨row, hr, rfl⟩
    · rw [mem_singleton.mp hr] at hu
      exact absurd hu hf
  · intro row hr hu _
    rcases mem_append.mp hr with hr | hr
    · exact hr
    · rw [mem_singleton.mp hr] at hu
      exact absurd hu hf
  · exact mem_append_right _ (mem_singleton_self _)
  · intro row hr heq
    rcases mem_append.mp hr with hr | hr
    · exact absurd heq (hn row hr)
    · rw [mem_singleton.mp hr]

theorem Db.Ok.staged_unnamed (h : db.Ok) (hs : db.staged blobId) :
    blobId ∉ db.contents.map Prod.fst ∧ blobId ∈ db.usedBlobs ∧
      ∀ completion ∈ db.completions, completion.blobId ≠ blobId := by
  obtain ⟨staged, hm, hf⟩ := any_eq_true.mp hs
  simp only [Bool.and_eq_true, decide_eq_true_eq, Bool.not_eq_eq_eq_not, Bool.not_true] at hf
  refine ⟨fun hn => ?_, hf.1 ▸ h.blob_used staged hm, fun completion hm' heq => ?_⟩
  · obtain ⟨entry, hent, hid⟩ := mem_map.mp hn
    obtain ⟨row, hrow, hr, hc⟩ := h.committed entry hent
    have hsa := h.blob_eq hrow hm (hr.trans (hid.trans hf.1.symm))
    rw [hsa, hf.2] at hc
    cases hc
  · have hc := (h.completed_blob completion hm').2.1 staged hm (hf.1.trans heq.symm)
    rw [hf.2] at hc
    cases hc

theorem BlobRow.commit_id (blobId : Text) (row : BlobRow) : (row.commit blobId).id = row.id := by
  rw [BlobRow.commit]
  split <;> rfl

theorem BlobRow.commit_of_committed {row : BlobRow} (h : row.committed) :
    (row.commit blobId).committed := by
  rw [BlobRow.commit]
  split
  · rfl
  · exact h

theorem BlobRow.commit_of_ne {row : BlobRow} (h : row.id ≠ blobId) :
    row.commit blobId = row := by
  rw [BlobRow.commit, if_neg h]

theorem BlobRow.commit_committed {row : BlobRow} (h : row.id = blobId) :
    (row.commit blobId).committed := by
  rw [BlobRow.commit, if_pos h]

theorem Db.Ok.commit_blobs (h : db.Ok) (after : Db) {content : Bytes}
    (hs : db.staged blobId) (hb : after.blobs = db.blobs.map (BlobRow.commit blobId))
    (hc : ∀ entry, entry ∈ after.contents ↔ entry ∈ db.contents ∨ entry = (blobId, content)) :
    (∀ entry ∈ after.contents, ∃ row ∈ after.blobs, row.id = entry.1 ∧ row.committed) ∧
      (∀ row ∈ after.blobs, row.committed → row.id ∈ after.contents.map Prod.fst) ∧
      (after.blobs.map (·.id)).Nodup ∧ ∀ row ∈ after.blobs, row.id ∈ db.usedBlobs := by
  rw [hb]
  refine ⟨fun entry he => ?_, fun row hr hco => ?_, ?_, fun row hr => ?_⟩
  · rcases (hc entry).mp he with he | rfl
    · obtain ⟨row, hr, hid, hco⟩ := h.committed entry he
      exact ⟨row.commit blobId, mem_map_of_mem hr, (row.commit_id blobId).trans hid,
        BlobRow.commit_of_committed hco⟩
    · obtain ⟨staged, hm, hf⟩ := any_eq_true.mp hs
      simp only [Bool.and_eq_true, decide_eq_true_eq] at hf
      exact ⟨staged.commit blobId, mem_map_of_mem hm,
        (staged.commit_id blobId).trans hf.1, BlobRow.commit_committed hf.1⟩
  · obtain ⟨old, hold, rfl⟩ := mem_map.mp hr
    rw [BlobRow.commit_id]
    by_cases heq : old.id = blobId
    · exact mem_map.mpr ⟨_, (hc _).mpr (Or.inr rfl), heq.symm⟩
    · rw [BlobRow.commit_of_ne heq] at hco
      obtain ⟨entry, he, hid⟩ := mem_map.mp (h.referenced old hold hco)
      exact mem_map.mpr ⟨entry, (hc _).mpr (Or.inl he), hid⟩
  · rw [map_map]
    have hsa : (fun row : BlobRow => row.id) ∘ BlobRow.commit blobId = fun row => row.id := by
      funext row
      exact row.commit_id blobId
    rw [hsa]
    exact h.blob_ids
  · obtain ⟨old, hold, rfl⟩ := mem_map.mp hr
    rw [BlobRow.commit_id]
    exact h.blob_used old hold

theorem Db.Ok.commit_completed (h : db.Ok) {completion : Completion}
    (hc : completion ∈ db.completions) :
    ∀ row ∈ db.blobs.map (BlobRow.commit blobId), row.id = completion.blobId → row.committed := by
  intro row hr heq
  obtain ⟨old, hold, rfl⟩ := mem_map.mp hr
  rw [BlobRow.commit_id] at heq
  exact BlobRow.commit_of_committed ((h.completed_blob completion hc).2.1 old hold heq)

theorem Db.next_commit {content : Bytes} (hb : after.blobs = db.blobs.map (BlobRow.commit blobId))
    (hc : ∀ entry, entry ∈ after.contents ↔ entry ∈ db.contents ∨ entry = (blobId, content))
    (hus : after.usedBlobs = db.usedBlobs) (hu : after.uploads = db.uploads)
    (hp : ∀ id ∈ db.usedParts, id ∈ after.usedParts)
    (hro : ∀ row ∈ after.parts, row.id ∈ db.usedParts → row ∈ db.parts) :
    db.Next (some (blobId, content)) after where
  used_blobs id hid := by
    rw [hus]
    exact hid
  used_parts := hp
  blob_ids row hr _ := by
    rw [hb] at hr
    obtain ⟨old, hold, rfl⟩ := mem_map.mp hr
    exact ⟨old, hold, (old.commit_id blobId).symm⟩
  blobs row hr _ hne := by
    rw [hb] at hr
    obtain ⟨old, hold, rfl⟩ := mem_map.mp hr
    rw [BlobRow.commit_id] at hne
    rw [BlobRow.commit_of_ne (fun heq => hne (congrArg some heq))]
    exact hold
  parts := hro
  contents entry hent := by
    rcases (hc entry).mp hent with hm | rfl
    · exact Or.inl hm
    · exact Or.inr rfl
  declared id bytes hd := by
    rw [Db.Declared, hu]
    exact hd

/-- The tables with a staged blob committed as a file. -/
def Db.addFile (db : Db) (row : FileRow) : Db :=
  { db with blobs := db.blobs.map (BlobRow.commit row.blobId), files := db.files ++ [row] }

theorem Db.addFile_contents (db : Db) (row : FileRow) (entry : Text × Bytes) :
    entry ∈ (db.addFile row).contents ↔
      entry ∈ db.contents ∨ entry = (row.blobId, row.content) := by
  rw [Db.contents, Db.contents, Db.addFile]
  simp only [map_append, map_cons, map_nil, mem_append, mem_singleton]
  tauto

theorem Db.Ok.addFile (h : db.Ok) (hs : db.staged row.blobId)
    (hid : ∀ other ∈ db.files, other.id ≠ row.id) (hsi : row.bytes = row.content.length) :
    (db.addFile row).Ok ∧ db.Next (some (row.blobId, row.content)) (db.addFile row) := by
  obtain ⟨hu, hus, hc⟩ := h.staged_unnamed hs
  obtain ⟨hcomm, hr, hids, hb⟩ :=
    h.commit_blobs (db.addFile row) hs rfl (db.addFile_contents row)
  refine ⟨⟨hcomm, ?_, hr, hids, hb, ?_, ?_, h.part_size, h.part_used,
    h.part_upload, h.upload_ids, h.within, h.completed_once, h.completed, h.assembled, ?_,
    h.internal_once, h.internal_recorded, h.part_ids⟩,
    Db.next_commit rfl (db.addFile_contents row) rfl rfl (fun _ hid => hid) (fun _ hrow _ => hrow)⟩
  · have hp : ((db.addFile row).contents.map Prod.fst).Perm
        (row.blobId :: db.contents.map Prod.fst) := by
      rw [Db.contents, Db.contents, Db.addFile]
      simp only [map_append, map_cons, map_nil, append_assoc, cons_append, nil_append]
      exact perm_middle
    exact hp.nodup_iff.mpr (nodup_cons.mpr ⟨hu, h.unique⟩)
  · show ((db.files ++ [row]).map (·.id)).Nodup
    rw [map_append, nodup_append']
    refine ⟨h.file_ids, by simp, ?_⟩
    intro id hm hsgl
    obtain ⟨other, ho, rfl⟩ := mem_map.mp hm
    exact hid other ho (by simpa using hsgl)
  · intro other ho
    rcases mem_append.mp ho with ho | ho
    · exact h.file_size other ho
    · rw [mem_singleton.mp ho]
      exact hsi
  · intro completion hcompl
    obtain ⟨hcu, -, hcont⟩ := h.completed_blob completion hcompl
    refine ⟨hcu, h.commit_completed hcompl, fun other ho heq => ?_⟩
    rcases mem_append.mp ho with ho | ho
    · exact hcont other ho heq
    · rw [mem_singleton.mp ho] at heq
      exact absurd heq.symm (hc completion hcompl)

theorem commit_insert_eq (h : commitBlob row.blobId db >>= insertFileRow row = .ok after) :
    db.staged row.blobId ∧ (∀ other ∈ db.files, other.id ≠ row.id) ∧ after = db.addFile row := by
  obtain ⟨middle, hc, hins⟩ := bind_eq_ok.mp h
  obtain ⟨_, hs, hm⟩ := bind_eq_ok.mp hc
  cases hm
  obtain ⟨_, hids, ha⟩ := bind_eq_ok.mp hins
  cases ha
  exact ⟨ensure_eq_ok.mp hs,
    fun other ho => (of_decide_eq_true (ensure_eq_ok.mp hids) other ho).1, rfl⟩

theorem commitNewFile_spec (h : db.Ok) (hsi : row.bytes = row.content.length)
    (hc : commitNewFile row db = .ok after) :
    after.Ok ∧ db.Next (some (row.blobId, row.content)) after := by
  obtain ⟨hs, hid, rfl⟩ := commit_insert_eq hc
  exact h.addFile hs hid hsi

theorem committedInternal_none {filename : Text} {purpose : FilePurpose}
    (h : committedInternal db fileId filename purpose now = .ok none) :
    ∀ row ∈ db.internalFiles, row.id ≠ fileId := by
  rw [committedInternal] at h
  split at h
  · split at h <;> cases h
  · next hn =>
    intro row hr heq
    exact absurd heq (by simpa using find?_eq_none.mp hn row hr)

theorem commitInternalFile_spec (h : db.Ok) (hsi : row.bytes = row.content.length)
    (hc : commitInternalFile row db = .ok (some after)) :
    after.Ok ∧ db.Next (some (row.blobId, row.content)) after := by
  obtain ⟨found, hf, hr⟩ := bind_eq_ok.mp hc
  cases found with
  | some => cases hr
  | none =>
    obtain ⟨middle, hmid, hr⟩ := bind_eq_ok.mp hr
    obtain ⟨inserted, hi, hr⟩ := bind_eq_ok.mp hr
    have hb : commitBlob row.blobId db >>= insertFileRow row = .ok inserted :=
      bind_eq_ok.mpr ⟨middle, hmid, hi⟩
    cases hr
    obtain ⟨hs, hid, rfl⟩ := commit_insert_eq hb
    obtain ⟨hok, hn⟩ := h.addFile hs hid hsi
    have hnew := committedInternal_none hf
    refine ⟨{ hok with internal_once := ?_, internal_recorded := ?_ }, { hn with }⟩
    · show (db.internalCommits ++ [row.id]).Nodup
      rw [nodup_append']
      refine ⟨h.internal_once, by simp, ?_⟩
      intro id hm hsgl
      obtain ⟨recorded, hrec, heq⟩ := h.internal_recorded id hm
      exact hnew recorded hrec (heq.trans (by simpa using hsgl))
    · intro id hm
      rcases mem_append.mp hm with hm | hm
      · obtain ⟨recorded, hrec, heq⟩ := h.internal_recorded id hm
        exact ⟨recorded, mem_append_left _ hrec, heq⟩
      · rw [mem_singleton.mp hm]
        exact ⟨_, mem_append_right _ (mem_singleton_self _), rfl⟩

/-! ### Uploads -/

theorem uploadRow_spec (h : uploadRow db uploadId project = .ok upload) :
    upload ∈ db.uploads ∧ upload.id = uploadId := by
  rw [uploadRow] at h
  split at h
  · next row hfi =>
    cases h
    have hf := find?_some hfi
    simp only [Bool.and_eq_true, decide_eq_true_eq] at hf
    exact ⟨mem_of_find?_eq_some hfi, hf.1⟩
  · cases h

theorem Db.Ok.declared (h : db.Ok) (hu : upload ∈ db.uploads) :
    db.Declared upload.id upload.bytes := by
  refine ⟨⟨upload, hu, rfl⟩, fun other ho hid => ?_⟩
  rw [h.upload_eq ho hu hid]

theorem ensureMutable_spec {u : Unit}
    (h : ensureMutable upload now = .ok u) : upload.status = .pending := by
  rw [ensureMutable] at h
  split at h
  · assumption
  · cases h
  · cases h

theorem createUpload_spec (h : db.Ok) {id : Text} {request : CreateUpload}
    (hc : createUpload id request now project db = .ok after) : after.Ok ∧ db.Next none after := by
  obtain ⟨_, -, h1⟩ := bind_eq_ok.mp hc
  obtain ⟨_, -, h2⟩ := bind_eq_ok.mp h1
  obtain ⟨_, -, h3⟩ := bind_eq_ok.mp h2
  obtain ⟨_, -, h4⟩ := bind_eq_ok.mp h3
  obtain ⟨expires, -, h5⟩ := bind_eq_ok.mp h4
  obtain ⟨_, -, h6⟩ := bind_eq_ok.mp h5
  obtain ⟨_, he, h7⟩ := bind_eq_ok.mp h6
  have hn : ∀ other ∈ db.uploads, other.id ≠ id := of_decide_eq_true (ensure_eq_ok.mp he)
  cases h7
  have hemp : ∀ part ∈ db.parts, part.uploadId ≠ id := by
    intro part hp heq
    obtain ⟨upload, hu, hup, -⟩ := h.part_upload part hp
    exact hn upload hu (hup.trans heq)
  refine ⟨{ h with part_upload := ?_, upload_ids := ?_, within := ?_, completed := ?_ },
    ⟨fun _ hid => hid, fun _ hid => hid, fun row hr _ => ⟨row, hr, rfl⟩,
      fun _ hr _ _ => hr, fun _ hr _ => hr, fun _ hent => Or.inl hent, ?_⟩⟩
  · intro part hp
    obtain ⟨upload, hu, hre⟩ := h.part_upload part hp
    exact ⟨upload, mem_append_left _ hu, hre⟩
  · rw [map_append, nodup_append']
    refine ⟨h.upload_ids, by simp, ?_⟩
    intro other hm hs
    obtain ⟨upload, hu, rfl⟩ := mem_map.mp hm
    exact hn upload hu (by simpa using hs)
  · intro upload hu
    rcases mem_append.mp hu with hu | hu
    · exact h.within upload hu
    · rw [mem_singleton.mp hu]
      have hnil : db.partsOf id = [] := by
        rw [Db.partsOf, filter_eq_nil_iff]
        intro part hp
        simpa using hemp part hp
      show ((db.partsOf id).map (·.bytes)).sum ≤ _
      rw [hnil]
      exact Nat.zero_le _
  · intro completion hco
    obtain ⟨upload, hu, hre⟩ := h.completed completion hco
    exact ⟨upload, mem_append_left _ hu, hre⟩
  · rintro other bytes ⟨⟨upload, hu, hid⟩, ha⟩
    refine ⟨⟨upload, mem_append_left _ hu, hid⟩, fun row hr hro => ?_⟩
    rcases mem_append.mp hr with hr | hr
    · exact ha row hr hro
    · rw [mem_singleton.mp hr] at hro
      exact absurd (hid.trans hro.symm) (hn upload hu)

/-- The tables with a staged blob committed as a part. -/
def Db.addPart (db : Db) (row : PartRow) : Db :=
  { db with
    blobs := db.blobs.map (BlobRow.commit row.blobId)
    parts := db.parts ++ [row]
    usedParts := db.usedParts ++ [row.id] }

theorem Db.addPart_contents (db : Db) (row : PartRow) (entry : Text × Bytes) :
    entry ∈ (db.addPart row).contents ↔
      entry ∈ db.contents ∨ entry = (row.blobId, row.content) := by
  rw [Db.contents, Db.contents, Db.addPart]
  simp only [map_append, map_cons, map_nil, mem_append, mem_singleton]
  tauto

theorem Db.addPart_total (db : Db) (row : PartRow) (uploadId : Text) :
    partsTotal (db.addPart row) uploadId =
      partsTotal db uploadId + if row.uploadId = uploadId then row.bytes else 0 := by
  show (((db.parts ++ [row]).filter (·.uploadId = uploadId)).map (·.bytes)).sum = _
  rw [filter_append, map_append, sum_append, partsTotal, Db.partsOf]
  congr 1
  by_cases h : row.uploadId = uploadId
  · rw [if_pos h, filter_cons_of_pos (by simpa using h)]
    simp
  · rw [if_neg h, filter_cons_of_neg (by simpa using h)]
    simp

theorem commitNewPart_spec (h : db.Ok) {row : PartRow} {declared : Nat}
    (hsi : row.bytes = row.content.length) (hd : db.Declared row.uploadId declared)
    (hcomm : commitNewPart row declared db = .ok after) :
    after.Ok ∧ db.Next (some (row.blobId, row.content)) after := by
  obtain ⟨upload, hupl, h1⟩ := bind_eq_ok.mp hcomm
  obtain ⟨_, hmu, h2⟩ := bind_eq_ok.mp h1
  obtain ⟨_, ht, h3⟩ := bind_eq_ok.mp h2
  obtain ⟨middle, hbl, h4⟩ := bind_eq_ok.mp h3
  obtain ⟨_, hst, hmid⟩ := bind_eq_ok.mp hbl
  cases hmid
  obtain ⟨_, hfr, h5⟩ := bind_eq_ok.mp h4
  have ha : after = db.addPart row := by
    cases h5
    rfl
  have hs : db.staged row.blobId := ensure_eq_ok.mp hst
  have hf : row.id ∉ db.usedParts := (of_decide_eq_true (ensure_eq_ok.mp hfr)).1
  have hw : partsTotal db row.uploadId + row.bytes ≤ declared :=
    of_decide_eq_true (ensure_eq_ok.mp ht)
  obtain ⟨hm, hu⟩ := uploadRow_spec hupl
  have hpe := ensureMutable_spec hmu
  rw [ha]
  obtain ⟨hunnamed, hus, hcompletions⟩ := h.staged_unnamed hs
  obtain ⟨hc, hr, hids, hb⟩ :=
    h.commit_blobs (db.addPart row) hs rfl (db.addPart_contents row)
  refine ⟨⟨hc, ?_, hr, hids, hb, h.file_ids, h.file_size, ?_, ?_, ?_,
    h.upload_ids, ?_, h.completed_once, h.completed, h.assembled, ?_, h.internal_once,
    h.internal_recorded, ?_⟩,
    Db.next_commit rfl (db.addPart_contents row) rfl rfl (fun _ hid => mem_append_left _ hid) ?_⟩
  · rw [Db.contents, Db.addPart]
    simp only [map_append, map_cons, map_nil, ← append_assoc]
    rw [nodup_append']
    refine ⟨by simpa [Db.contents] using h.unique, by simp, ?_⟩
    intro id hm hsgl
    rw [mem_singleton.mp hsgl] at hm
    exact hunnamed (by simpa [Db.contents] using hm)
  · intro part hp
    rcases mem_append.mp hp with hp | hp
    · exact h.part_size part hp
    · rw [mem_singleton.mp hp]
      exact hsi
  · intro part hp
    rcases mem_append.mp hp with hp | hp
    · exact mem_append_left _ (h.part_used part hp)
    · rw [mem_singleton.mp hp]
      exact mem_append_right _ (mem_singleton_self _)
  · intro part hp
    rcases mem_append.mp hp with hp | hp
    · exact h.part_upload part hp
    · rw [mem_singleton.mp hp]
      exact ⟨upload, hm, hu, hpe⟩
  · intro other ho
    rw [Db.addPart_total]
    split
    · next heq =>
      have hby := hd.2 other ho heq.symm
      rw [hby, ← heq]
      exact hw
    · exact h.within other ho
  · intro completion hcompl
    obtain ⟨hcu, -, hcont⟩ := h.completed_blob completion hcompl
    exact ⟨hcu, h.commit_completed hcompl, hcont⟩
  · show ((db.parts ++ [row]).map (·.id)).Nodup
    rw [map_append, nodup_append']
    refine ⟨h.part_ids, by simp, ?_⟩
    intro id hm hsgl
    obtain ⟨other, ho, rfl⟩ := mem_map.mp hm
    have hsa : other.id = row.id := by simpa using hsgl
    exact hf (hsa ▸ h.part_used other ho)
  · intro part hp hpa
    rcases mem_append.mp hp with hp | hp
    · exact hp
    · rw [mem_singleton.mp hp] at hpa
      exact absurd hpa hf

/-- A change of one upload that leaves its size alone. -/
structure Ends (uploadId : Text) (change : UploadRow → UploadRow) : Prop where
  id : ∀ row, (change row).id = row.id
  bytes : ∀ row, (change row).bytes = row.bytes
  other : ∀ row, row.id ≠ uploadId → change row = row
  completed : ∀ row, row.status = .completed → change row = row

theorem Db.Ok.endUpload (h : db.Ok) {change : UploadRow → UploadRow}
    (hc : Ends uploadId change) (hemp : ∀ part ∈ db.parts, part.uploadId ≠ uploadId) :
    ({ db with uploads := db.uploads.map change } : Db).Ok ∧
      db.Next none { db with uploads := db.uploads.map change } := by
  refine ⟨{ h with part_upload := ?_, upload_ids := ?_, within := ?_, completed := ?_ },
    ⟨fun _ hid => hid, fun _ hid => hid, fun row hr _ => ⟨row, hr, rfl⟩,
      fun _ hr _ _ => hr, fun _ hr _ => hr, fun _ hent => Or.inl hent, ?_⟩⟩
  · intro part hp
    obtain ⟨upload, hu, hid, hpe⟩ := h.part_upload part hp
    have hs := hc.other upload (fun heq => hemp part hp (hid.symm.trans heq))
    exact ⟨upload, mem_map.mpr ⟨upload, hu, hs⟩, hid, hpe⟩
  · rw [map_map]
    have hs : (fun row : UploadRow => row.id) ∘ change = fun row => row.id := by
      funext row
      exact hc.id row
    rw [hs]
    exact h.upload_ids
  · intro upload hu
    obtain ⟨old, hold, rfl⟩ := mem_map.mp hu
    rw [hc.id, hc.bytes]
    exact h.within old hold
  · intro completion hcompletion
    obtain ⟨upload, hu, hid, hcompl⟩ := h.completed completion hcompletion
    exact ⟨upload, mem_map.mpr ⟨upload, hu, hc.completed upload hcompl⟩, hid, hcompl⟩
  · rintro id bytes ⟨⟨upload, hu, hid⟩, ha⟩
    refine ⟨⟨change upload, mem_map_of_mem hu, (hc.id upload).trans hid⟩, fun row hr hro => ?_⟩
    obtain ⟨old, hold, rfl⟩ := mem_map.mp hr
    rw [hc.id] at hro
    rw [hc.bytes]
    exact ha old hold hro

theorem UploadRow.complete_ends (uploadId fileId : Text) :
    Ends uploadId (UploadRow.complete uploadId fileId) where
  id row := by
    rw [UploadRow.complete]
    split <;> rfl
  bytes row := by
    rw [UploadRow.complete]
    split <;> rfl
  other row hne := by
    rw [UploadRow.complete, if_neg (fun h => hne h.1)]
  completed row hc := by
    rw [UploadRow.complete, if_neg]
    rintro ⟨-, hp⟩
    rw [hc] at hp
    cases hp

theorem UploadRow.cancel_ends (uploadId : Text) : Ends uploadId (UploadRow.cancel uploadId) where
  id row := by
    rw [UploadRow.cancel]
    split <;> rfl
  bytes row := by
    rw [UploadRow.cancel]
    split <;> rfl
  other row hne := by
    rw [UploadRow.cancel, if_neg (fun h => hne h.1)]
  completed row hc := by
    rw [UploadRow.cancel, if_neg]
    rintro ⟨-, hp⟩
    rw [hc] at hp
    cases hp

theorem releaseParts_empty (uploadId : Text) (db : Db) :
    ∀ part ∈ (releaseParts uploadId db).2.parts, part.uploadId ≠ uploadId :=
  fun _ hp => of_decide_eq_true (mem_filter.mp hp).2

theorem cancelUpload_spec (h : db.Ok) {released : List Text}
    (hc : cancelUpload uploadId now project db = .ok (released, after)) :
    after.Ok ∧ db.Next none after ∧ ∀ blobId ∈ released, after.Dead blobId := by
  obtain ⟨upload, -, h1⟩ := bind_eq_ok.mp hc
  obtain ⟨_, -, h2⟩ := bind_eq_ok.mp h1
  obtain ⟨hok, hn, hd⟩ := releaseParts_spec h uploadId
  obtain ⟨hok', hn'⟩ :=
    hok.endUpload (UploadRow.cancel_ends uploadId) (releaseParts_empty uploadId db)
  cases h2
  exact ⟨hok', hn.trans_keep hn', fun blobId hid => hn'.dead (hd blobId hid)⟩

theorem Db.Ok.pending_not_logged (h : db.Ok)
    (hu : upload ∈ db.uploads) (hp : upload.status = .pending) :
    upload.id ∉ db.completions.map (·.uploadId) := by
  intro hm
  obtain ⟨completion, hc, hid⟩ := mem_map.mp hm
  obtain ⟨other, hoth, ho, hco⟩ := h.completed completion hc
  rw [h.upload_eq hoth hu (ho.trans hid), hp] at hco
  cases hco

theorem commitCompletion_spec (h : db.Ok) {partIds : List Text}
    {file : FileRow} {released : List Text} (hsi : file.bytes = file.content.length)
    (hcont : ∀ parts, resolveParts db uploadId partIds = .ok parts →
      file.content = (parts.map (·.content)).flatten)
    (hcomm : commitCompletion uploadId partIds file db = .ok (released, after)) :
    after.Ok ∧ db.Next (some (file.blobId, file.content)) after ∧
      ∀ blobId ∈ released, after.Dead blobId := by
  obtain ⟨upload, hupl, h1⟩ := bind_eq_ok.mp hcomm
  obtain ⟨_, hm, h2⟩ := bind_eq_ok.mp h1
  obtain ⟨parts, hpa, h3⟩ := bind_eq_ok.mp h2
  obtain ⟨_, -, h4⟩ := bind_eq_ok.mp h3
  obtain ⟨middle, hmid, h5⟩ := bind_eq_ok.mp h4
  obtain ⟨inserted, hi, h6⟩ := bind_eq_ok.mp h5
  obtain ⟨hmem, hu⟩ := uploadRow_spec hupl
  have hp := ensureMutable_spec hm
  obtain ⟨row, hrow⟩ : ∃ row : FileRow, row = { file with projectId := upload.projectId } :=
    ⟨_, rfl⟩
  have hb : row.blobId = file.blobId := by rw [hrow]
  have hr : row.content = file.content := by rw [hrow]
  have hbo : commitBlob row.blobId db >>= insertFileRow row = .ok inserted := by
    rw [hrow]
    exact bind_eq_ok.mpr ⟨middle, hmid, hi⟩
  obtain ⟨hs, hid, rfl⟩ := commit_insert_eq hbo
  obtain ⟨-, hus, hfr⟩ := h.staged_unnamed hs
  obtain ⟨hok1, hn1⟩ := h.addFile hs hid (by rw [hrow]; exact hsi)
  -- the file is in, then the parts go, then the upload ends
  obtain ⟨hok2, hn2, hd⟩ := releaseParts_spec hok1 uploadId
  have hk : upload ∈ (releaseParts uploadId (db.addFile row)).2.uploads := hmem
  have hl := hok2.pending_not_logged hk hp
  obtain ⟨hok3, hn3⟩ := hok2.endUpload (UploadRow.complete_ends uploadId file.id)
    (releaseParts_empty uploadId (db.addFile row))
  have hn := (hn1.trans_keep hn2).trans_keep hn3
  rw [hb, hr] at hn
  cases h6
  refine ⟨{ hok3 with
      completed_once := ?_, completed := ?_, assembled := ?_, completed_blob := ?_ },
    { hn with }, fun blobId hid => hn3.dead (hd blobId hid)⟩
  · show (map Completion.uploadId (db.completions ++ [_])).Nodup
    rw [map_append, nodup_append']
    refine ⟨h.completed_once, by simp, ?_⟩
    intro other ho hsgl
    have heq : other = uploadId := by simpa using hsgl
    rw [heq, ← hu] at ho
    exact hl ho
  · intro completion hc
    rcases mem_append.mp hc with hc | hc
    · exact hok3.completed completion hc
    · rw [mem_singleton.mp hc]
      refine ⟨upload.complete uploadId file.id, mem_map_of_mem hmem, ?_, ?_⟩
      · rw [(UploadRow.complete_ends uploadId file.id).id]
        exact hu
      · rw [UploadRow.complete, if_pos ⟨hu, hp⟩]
  · intro completion hc
    rcases mem_append.mp hc with hc | hc
    · exact h.assembled completion hc
    · rw [mem_singleton.mp hc]
      exact hcont parts hpa
  · intro completion hc
    rcases mem_append.mp hc with hc | hc
    · exact hok3.completed_blob completion hc
    · rw [mem_singleton.mp hc]
      have hf : row ∈ (releaseParts uploadId (db.addFile row)).2.files :=
        mem_append_right _ (mem_singleton_self _)
      refine ⟨hb ▸ hus, fun blob hblobmem hblobid => ?_, fun other ho heq => ?_⟩
      · obtain ⟨committed, hcommitted, hcid, hst⟩ :=
          hok2.committed _ (Db.file_mem_contents hf)
        rw [hok2.blob_eq hblobmem hcommitted (hblobid.trans (hb.symm.trans hcid.symm))]
        exact hst
      · rw [hok2.file_blob_eq ho hf (heq.trans hb.symm)]
        exact hr

end LocalAi.FileStore
