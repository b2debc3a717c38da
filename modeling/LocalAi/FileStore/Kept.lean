import LocalAi.FileStore.Calls
import LocalAi.FileStore.Transactions

/-!
# Stored bytes are kept

A call owns the blob it stages until it commits or discards it, and unlinks only files of
blobs that have lost their row for good.

* `Call.Ok`: what holds at each point of a call.
* `Frame`: what one call's step leaves of the others' files.
* `Inv`: the tables, the directories and the calls together.
-/

open List

namespace LocalAi.FileStore

open Lib (bind_eq_ok ensure_eq_ok)

/-! ### Calls -/

/-- A blob whose bytes no row names yet. -/
def Db.Uncommitted (db : Db) (blobId : Text) : Prop :=
  blobId ∈ db.usedBlobs ∧ ∀ row ∈ db.blobs, row.id = blobId → row.committed = false

/-- A part that was there when it was resolved: its id still means the same blob. -/
def Db.Resolved (db : Db) (part : PartRef) : Prop :=
  part.id ∈ db.usedParts ∧ ∀ row ∈ db.parts, row.id = part.id → row.blobId = part.blobId

def Db.Copied (db : Db) (part : PartRef) (chunk : Bytes) : Prop :=
  part.id ∈ db.usedParts ∧ ∀ row ∈ db.parts, row.id = part.id → row.content = chunk

def Job.Ok (db : Db) : Job → Prop
  | .part _ uploadId declared _ => db.Declared uploadId declared
  | .complete _ _ parts _ => ∀ part ∈ parts, db.Resolved part
  | _ => True

def Job.Copying (db : Db) (written : Bytes) (copied : List Bytes) : Job → Prop
  | .complete _ _ parts _ =>
    copied.length ≤ parts.length ∧ written = copied.flatten ∧
      ∀ pair ∈ parts.zip copied, db.Copied pair.1 pair.2
  | _ => True

def Job.Written (db : Db) (written : Bytes) (job : Job) : Prop :=
  ∃ copied, job.Copying db written copied ∧
    ∀ fileId upload parts digest, job = .complete fileId upload parts digest →
      copied.length = parts.length

def Call.Ok (s : Files) : Call → Prop
  | .sizing upload => s.db.Declared upload.id upload.bytes
  | .resolving _ _ resolved _ => ∀ part ∈ resolved, s.db.Resolved part
  | .opening job => job.Ok s.db
  | .staged job blobId => job.Ok s.db ∧ s.db.Uncommitted blobId
  | .writing job blobId written copied =>
    job.Ok s.db ∧ s.db.Uncommitted blobId ∧
      (s.disk (.tmp blobId) = none ∨ s.disk (.tmp blobId) = some written) ∧
      job.Copying s.db written copied
  | .synced job blobId written =>
    job.Ok s.db ∧ s.db.Uncommitted blobId ∧
      (s.disk (.tmp blobId) = none ∨ s.disk (.tmp blobId) = some written) ∧
      job.Written s.db written
  | .vacant job blobId written =>
    job.Ok s.db ∧ s.db.Uncommitted blobId ∧
      (s.disk (.tmp blobId) = none ∨ s.disk (.tmp blobId) = some written) ∧
      job.Written s.db written
  | .stored job blobId written =>
    job.Ok s.db ∧ s.db.Uncommitted blobId ∧
      (∀ row ∈ s.db.blobs, row.id = blobId → s.disk (.blob blobId) = some written) ∧
      job.Written s.db written
  | .removing paths _ => ∀ path ∈ paths, s.db.Dead path.blobId
  | .orphan path => s.db.Dead path.blobId
  | .cleaning _ => True
  | .discarding _ => True
  | .sweeping => True

def Call.owns : Call → Option Text
  | .staged _ blobId => some blobId
  | .writing _ blobId _ _ => some blobId
  | .synced _ blobId _ => some blobId
  | .vacant _ blobId _ => some blobId
  | .stored _ blobId _ => some blobId
  | _ => none

variable {db : Db} {blobId : Text} {md5 : Bytes → Bytes}

theorem Call.Ok.uncommitted {s : Files} {call : Call} (h : call.Ok s)
    (ho : call.owns = some blobId) : s.db.Uncommitted blobId := by
  cases call with
  | staged =>
    cases ho
    exact h.2
  | writing =>
    cases ho
    exact h.2.1
  | synced =>
    cases ho
    exact h.2.1
  | vacant =>
    cases ho
    exact h.2.1
  | stored =>
    cases ho
    exact h.2.1
  | sizing => cases ho
  | resolving => cases ho
  | opening => cases ho
  | cleaning => cases ho
  | discarding => cases ho
  | removing => cases ho
  | sweeping => cases ho
  | orphan => cases ho

/-! ### What a step leaves of other calls -/

structure Frame (mine : Option Text) (s t : Files) : Prop where
  db : ∃ added, (∀ entry, added = some entry → some entry.1 = mine) ∧ s.db.Next added t.db
  disk : ∀ path, t.disk path = s.disk path ∨ some path.blobId = mine ∨
    t.disk path = none ∧ ((∃ blobId, path = .tmp blobId) ∨ t.db.Dead path.blobId)

variable {mine : Option Text} {s t : Files}

variable {part : PartRef} {chunk : Bytes} {uploadId partId fileId : Text} {caller now : Nat}
  {path : Path} {parts : List PartRef} {project : Option Text} {upload : UploadRow}
  {action : Action}

theorem Frame.resolved (h : Frame mine s t) (hp : s.db.Resolved part) : t.db.Resolved part := by
  obtain ⟨added, -, hn⟩ := h.db
  refine ⟨hn.used_parts _ hp.1, fun row hr hid => ?_⟩
  exact hp.2 row (hn.parts row hr (hid ▸ hp.1)) hid

theorem Frame.copied (h : Frame mine s t)
    (hp : s.db.Copied part chunk) : t.db.Copied part chunk := by
  obtain ⟨added, -, hn⟩ := h.db
  refine ⟨hn.used_parts _ hp.1, fun row hr hid => ?_⟩
  exact hp.2 row (hn.parts row hr (hid ▸ hp.1)) hid

theorem Frame.dead (h : Frame mine s t) (hd : s.db.Dead blobId) : t.db.Dead blobId := by
  obtain ⟨added, -, hn⟩ := h.db
  exact hn.dead hd

theorem Frame.declared (h : Frame mine s t) {bytes : Nat}
    (hd : s.db.Declared uploadId bytes) : t.db.Declared uploadId bytes := by
  obtain ⟨added, -, hn⟩ := h.db
  exact hn.declared _ _ hd

theorem Frame.job (h : Frame mine s t) {job : Job} (hj : job.Ok s.db) : job.Ok t.db := by
  cases job with
  | file => trivial
  | internal => trivial
  | part => exact h.declared hj
  | complete => exact fun part hp => h.resolved (hj part hp)

theorem Frame.copying (h : Frame mine s t) {job : Job} {written : Bytes} {copied : List Bytes}
    (hj : job.Copying s.db written copied) : job.Copying t.db written copied := by
  cases job with
  | file => trivial
  | internal => trivial
  | part => trivial
  | complete =>
    exact ⟨hj.1, hj.2.1, fun pair hp => h.copied (hj.2.2 pair hp)⟩

theorem Frame.written (h : Frame mine s t) {job : Job} {written : Bytes}
    (hj : job.Written s.db written) : job.Written t.db written := by
  obtain ⟨copied, hc, hd⟩ := hj
  exact ⟨copied, h.copying hc, hd⟩

theorem Frame.row (h : Frame mine s t) (hu : blobId ∈ s.db.usedBlobs) (hne : some blobId ≠ mine)
    {row : BlobRow} (hr : row ∈ t.db.blobs) (hid : row.id = blobId) : row ∈ s.db.blobs := by
  obtain ⟨added, hm, hn⟩ := h.db
  apply hn.blobs row hr (hid ▸ hu)
  intro heq
  rw [hid] at heq
  obtain ⟨entry, hent, hf⟩ := Option.map_eq_some_iff.mp heq.symm
  exact hne (hf ▸ hm entry hent)

theorem Frame.uncommitted (h : Frame mine s t) (hb : s.db.Uncommitted blobId)
    (hne : some blobId ≠ mine) : t.db.Uncommitted blobId := by
  have hu := hb.1
  refine ⟨?_, fun row hr hid => hb.2 row (h.row hu hne hr hid) hid⟩
  obtain ⟨added, -, hn⟩ := h.db
  exact hn.used_blobs _ hu

theorem Frame.tmp (h : Frame mine s t) {written : Bytes} (hne : some blobId ≠ mine)
    (ht : s.disk (.tmp blobId) = none ∨ s.disk (.tmp blobId) = some written) :
    t.disk (.tmp blobId) = none ∨ t.disk (.tmp blobId) = some written := by
  rcases h.disk (.tmp blobId) with hs | hm | ⟨hn, -⟩
  · rw [hs]
    exact ht
  · exact absurd hm hne
  · exact Or.inl hn

theorem Frame.call (h : Frame mine s t) {call : Call} (hc : call.Ok s)
    (hne : ∀ blobId, call.owns = some blobId → some blobId ≠ mine) : call.Ok t := by
  cases call with
  | sizing => exact h.declared hc
  | resolving => exact fun part hpa => h.resolved (hc part hpa)
  | opening => exact h.job hc
  | staged => exact ⟨h.job hc.1, h.uncommitted hc.2 (hne _ rfl)⟩
  | writing =>
    obtain ⟨hj, hb, ht, hco⟩ := hc
    exact ⟨h.job hj, h.uncommitted hb (hne _ rfl), h.tmp (hne _ rfl) ht, h.copying hco⟩
  | synced =>
    obtain ⟨hj, hb, ht, hw⟩ := hc
    exact ⟨h.job hj, h.uncommitted hb (hne _ rfl), h.tmp (hne _ rfl) ht, h.written hw⟩
  | vacant =>
    obtain ⟨hj, hb, ht, hw⟩ := hc
    exact ⟨h.job hj, h.uncommitted hb (hne _ rfl), h.tmp (hne _ rfl) ht, h.written hw⟩
  | stored job blobId =>
    obtain ⟨hj, hb, hd, hw⟩ := hc
    refine ⟨h.job hj, h.uncommitted hb (hne _ rfl), fun row hr hid => ?_, h.written hw⟩
    have hold := hd row (h.row hb.1 (hne _ rfl) hr hid) hid
    rcases h.disk (.blob blobId) with hs | hm | ⟨-, ⟨other, hp⟩ | hde⟩
    · rw [hs]
      exact hold
    · exact absurd hm (hne _ rfl)
    · cases hp
    · exact absurd hid (hde.2 row hr)
  | cleaning => trivial
  | discarding => trivial
  | removing => exact fun path hp => h.dead (hc path hp)
  | sweeping => trivial
  | orphan => exact h.dead hc

/-! ### The invariant -/

structure Inv (s : Files) : Prop where
  db : s.db.Ok
  disk_used : ∀ path, s.disk path ≠ none → path.blobId ∈ s.db.usedBlobs
  backed : ∀ entry ∈ s.db.contents, s.disk (.blob entry.1) = some entry.2
  calls : ∀ caller call, s.calls caller = some call → call.Ok s
  owners : ∀ caller other call call' blobId, s.calls caller = some call →
    s.calls other = some call' → call.owns = some blobId → call'.owns = some blobId →
    caller = other

def Files.owned (s : Files) (caller : Nat) : Option Text := (s.calls caller).bind Call.owns

theorem Inv.owned_uncommitted (h : Inv s) (ho : s.owned caller = some blobId) :
    s.db.Uncommitted blobId := by
  obtain ⟨call, hc, how⟩ := Option.bind_eq_some_iff.mp ho
  exact (h.calls caller call hc).uncommitted how

theorem Inv.contents_ne_owned (h : Inv s) {entry : Text × Bytes}
    (hent : entry ∈ s.db.contents) : some entry.1 ≠ s.owned caller := by
  intro heq
  obtain ⟨row, hr, hid, hc⟩ := h.db.committed entry hent
  rw [(h.owned_uncommitted heq.symm).2 row hr hid] at hc
  cases hc

/-- One step of a caller keeps the invariant when it keeps the tables, what it makes visible is
on disk, and its next point is right. -/
theorem Inv.step (h : Inv s) {next : Option Call} (hf : Frame (s.owned caller) s t) (hdb : t.db.Ok)
    (hco : ∀ entry ∈ t.db.contents, entry ∈ s.db.contents ∨ t.disk (.blob entry.1) = some entry.2)
    (hcalls : t.calls = Function.update s.calls caller next)
    (hnext : ∀ call, next = some call → call.Ok t)
    (ho : ∀ call blobId, next = some call → call.owns = some blobId →
      s.owned caller = some blobId ∨ blobId ∉ s.db.usedBlobs) : Inv t where
  db := hdb
  disk_used path hp := by
    obtain ⟨added, -, hd⟩ := hf.db
    rcases hf.disk path with hs | hm | ⟨hn, -⟩
    · rw [hs] at hp
      exact hd.used_blobs _ (h.disk_used path hp)
    · exact hd.used_blobs _ (h.owned_uncommitted hm.symm).1
    · exact absurd hn hp
  backed entry he := by
    rcases hco entry he with hold | hnew
    · rcases hf.disk (.blob entry.1) with hs | hm | ⟨-, ⟨other, hp⟩ | hde⟩
      · rw [hs]
        exact h.backed entry hold
      · exact absurd hm (h.contents_ne_owned hold)
      · cases hp
      · obtain ⟨row, hr, hid, -⟩ := hdb.committed entry he
        exact absurd hid (hde.2 row hr)
    · exact hnew
  calls other call hcall := by
    rw [hcalls] at hcall
    obtain ⟨-, hcall⟩ | ⟨heq, hcall⟩ := Lib.update_eq_some hcall
    · exact hnext call hcall
    · apply hf.call (h.calls other call hcall)
      intro blobId hbl hm
      obtain ⟨call', hcall', ho'⟩ := Option.bind_eq_some_iff.mp hm.symm
      exact heq (h.owners other caller call call' blobId hcall hcall' hbl ho')
  owners a b call call' blobId ha hb hc hc' := by
    rw [hcalls] at ha hb
    have hcase : ∀ other (call call' : Call), other ≠ caller → next = some call →
        s.calls other = some call' → call.owns = some blobId → call'.owns = some blobId →
        False := by
      intro other call call' hne hcall hcall' hown hown'
      rcases ho call blobId hcall hown with hm | hfr
      · obtain ⟨mine, hm, hmi⟩ := Option.bind_eq_some_iff.mp hm
        exact hne (h.owners other caller call' mine blobId hcall' hm hown' hmi)
      · exact hfr ((h.calls other call' hcall').uncommitted hown').1
    obtain ⟨ha', ha⟩ | ⟨ha', ha⟩ := Lib.update_eq_some ha <;>
      obtain ⟨hb', hb⟩ | ⟨hb', hb⟩ := Lib.update_eq_some hb
    · rw [ha', hb']
    · exact (hcase b call call' hb' ha hb hc hc').elim
    · exact (hcase a call' call ha' hb ha hc' hc).elim
    · exact h.owners a b call call' blobId ha hb hc hc'

/-! ### Kinds of steps -/

theorem Frame.setCall (mine : Option Text) (s : Files) (caller : Nat) (next : Option Call) :
    Frame mine s (s.setCall caller next) :=
  ⟨⟨none, nofun, .refl _⟩, fun _ => Or.inl rfl⟩

theorem Call.Ok.setCall {call : Call} (h : call.Ok s) (caller : Nat) (next : Option Call) :
    call.Ok (s.setCall caller next) :=
  (Frame.setCall none s caller next).call h nofun

theorem Frame.trans_setCall (h : Frame mine s t) (caller : Nat) (next : Option Call) :
    Frame mine s (t.setCall caller next) := ⟨h.db, h.disk⟩

theorem Frame.setDb {added : Option (Text × Bytes)} (h : s.db.Next added db)
    (hm : ∀ entry, added = some entry → some entry.1 = mine) : Frame mine s (s.setDb db) :=
  ⟨⟨added, hm, h⟩, fun _ => Or.inl rfl⟩

theorem Frame.setDisk (s : Files) (content : Option Bytes)
    (hm : some path.blobId = mine) : Frame mine s (s.setDisk path content) := by
  refine ⟨⟨none, nofun, .refl _⟩, fun other => ?_⟩
  by_cases heq : other = path
  · subst heq
    exact Or.inr (Or.inl hm)
  · exact Or.inl (Function.update_of_ne heq _ _)

theorem Frame.unlink (s : Files) (h : (∃ blobId, path = .tmp blobId) ∨ s.db.Dead path.blobId) :
    Frame mine s (s.setDisk path none) := by
  refine ⟨⟨none, nofun, .refl _⟩, fun other => ?_⟩
  by_cases heq : other = path
  · subst heq
    exact Or.inr (Or.inr ⟨Function.update_self _ _ _, h⟩)
  · exact Or.inl (Function.update_of_ne heq _ _)

theorem Inv.move (h : Inv s) (caller : Nat) {next : Option Call}
    (hn : ∀ call, next = some call → call.Ok s)
    (ho : ∀ call blobId, next = some call → call.owns = some blobId →
      s.owned caller = some blobId) : Inv (s.setCall caller next) :=
  h.step (.setCall _ s caller next) h.db (fun _ he => Or.inl he) rfl
    (fun call hc => (hn call hc).setCall caller next)
    (fun call blobId hc hown => Or.inl (ho call blobId hc hown))

theorem Inv.transact (h : Inv s) (caller : Nat) {next : Option Call} (hok : db.Ok)
    (hdb : s.db.Next none db) (hn : ∀ call, next = some call → call.Ok (s.setDb db))
    (ho : ∀ call blobId, next = some call → call.owns = some blobId →
      s.owned caller = some blobId ∨ blobId ∉ s.db.usedBlobs) :
    Inv ((s.setDb db).setCall caller next) := by
  have hf : Frame (s.owned caller) s (s.setDb db) := .setDb hdb nofun
  apply h.step (hf.trans_setCall caller next) hok ?_ rfl ?_ ho
  · intro entry he
    rcases hdb.contents entry he with hold | hno
    · exact Or.inl hold
    · cases hno
  · exact fun call hc => (hn call hc).setCall caller next

theorem Inv.write (h : Inv s) {content : Option Bytes}
    {next : Option Call} (hm : s.owned caller = some path.blobId)
    (hn : ∀ call, next = some call → call.Ok (s.setDisk path content))
    (ho : ∀ call blobId, next = some call → call.owns = some blobId →
      s.owned caller = some blobId) : Inv ((s.setDisk path content).setCall caller next) :=
  h.step ((Frame.setDisk s content hm.symm).trans_setCall caller next) h.db
    (fun _ he => Or.inl he) rfl
    (fun call hc => (hn call hc).setCall caller next)
    (fun call blobId hc hown => Or.inl (ho call blobId hc hown))

theorem Inv.unlink (h : Inv s) (caller : Nat) {call : Call}
    (hp : (∃ blobId, path = .tmp blobId) ∨ s.db.Dead path.blobId)
    (hn : call.Ok (s.setDisk path none)) (howns : call.owns = none) :
    Inv ((s.setDisk path none).setCall caller (some call)) := by
  apply h.step ((Frame.unlink s hp).trans_setCall caller (some call)) h.db
    (fun _ he => Or.inl he) rfl
  · intro other ho
    cases ho
    exact hn.setCall caller (some call)
  · intro other blobId ho hown
    cases ho
    rw [howns] at hown
    cases hown

theorem Files.owned_of_call {call : Call} (h : s.calls caller = some call) :
    s.owned caller = call.owns := by
  rw [Files.owned, h]
  rfl

theorem owns_same {call after : Call} (h : s.calls caller = some call)
    (hs : after.owns = call.owns) (other : Call) (blobId : Text)
    (hoth : some after = some other) (hown : other.owns = some blobId) :
    s.owned caller = some blobId := by
  cases hoth
  rw [Files.owned_of_call h, ← hs, hown]

theorem owns_nothing {P : Text → Prop} {after : Call} (hn : after.owns = none) (other : Call)
    (blobId : Text) (hoth : some after = some other) (ho : other.owns = some blobId) :
    P blobId := by
  cases hoth
  rw [hn] at ho
  cases ho

theorem ok_some {call : Call} (h : call.Ok s) (other : Call) (ho : some call = some other) :
    other.Ok s := by
  cases ho
  exact h

theorem dead_removed {blobIds : List Text} (h : ∀ blobId ∈ blobIds, db.Dead blobId) :
    ∀ path ∈ removed blobIds, db.Dead path.blobId := by
  intro path hp
  obtain ⟨blobId, hid, hm⟩ := mem_flatMap.mp hp
  rcases mem_cons.mp hm with rfl | hm
  · exact h blobId hid
  · rw [mem_singleton.mp hm]
    exact h blobId hid

/-! ### Commits -/

theorem map_eq_ok {α β : Type} {x : Except Error α} {f : α → β} {b : β}
    (h : x.map f = .ok b) : ∃ a, x = .ok a ∧ f a = b := by
  cases x with
  | error => cases h
  | ok a => exact ⟨a, rfl, Except.ok.inj h⟩

theorem resolvePart_spec {row : PartRow}
    (h : resolvePart db uploadId partId = .ok row) : row ∈ db.parts ∧ row.id = partId := by
  rw [resolvePart] at h
  split at h
  · next found hfi =>
    cases h
    have hf := find?_some hfi
    simp only [Bool.and_eq_true, decide_eq_true_eq] at hf
    exact ⟨mem_of_find?_eq_some hfi, hf.1⟩
  · cases h

theorem resolveParts_copied {rows : List PartRow}
    {copied : List Bytes} (hrows : resolveParts db uploadId (parts.map (·.id)) = .ok rows)
    (hl : copied.length = parts.length) (hc : ∀ pair ∈ parts.zip copied, db.Copied pair.1 pair.2) :
    rows.map (·.content) = copied := by
  induction parts generalizing rows copied with
  | nil =>
    cases hrows
    rw [length_eq_zero_iff.mp hl]
    rfl
  | cons part parts ih =>
    cases copied with
    | nil => cases hl
    | cons chunk =>
      rw [resolveParts, map_cons, mapM_cons] at hrows
      obtain ⟨row, hrow, hre⟩ := bind_eq_ok.mp hrows
      obtain ⟨rest, hr, hpu⟩ := bind_eq_ok.mp hre
      cases hpu
      obtain ⟨hm, hid⟩ := resolvePart_spec hrow
      have hh : row.content = chunk :=
        (hc (part, chunk) (mem_cons_self ..)).2 row hm hid
      have ht := ih hr (Nat.succ.inj hl) (fun pair hp => hc pair (mem_cons_of_mem _ hp))
      rw [map_cons, hh, ht]

theorem Job.commit_spec {after : Db} (h : db.Ok) {job : Job} {written : Bytes}
    {released : List Text} (hj : job.Ok db) (hw : job.Written db written)
    (ha : job.accepts md5 written)
    (hc : job.commit blobId written now db = .ok (some (released, after))) :
    after.Ok ∧ db.Next (some (blobId, written)) after ∧ ∀ blobId ∈ released, after.Dead blobId := by
  cases job with
  | file =>
    obtain ⟨middle, hm, heq⟩ := map_eq_ok hc
    cases heq
    obtain ⟨hok, hn⟩ := commitNewFile_spec h rfl hm
    exact ⟨hok, hn, nofun⟩
  | internal =>
    obtain ⟨middle, hm, heq⟩ := map_eq_ok hc
    obtain ⟨found, rfl, heq⟩ := Option.map_eq_some_iff.mp heq
    cases heq
    obtain ⟨hok, hn⟩ := commitInternalFile_spec h rfl hm
    exact ⟨hok, hn, nofun⟩
  | part =>
    obtain ⟨middle, hm, heq⟩ := map_eq_ok hc
    cases heq
    obtain ⟨hok, hn⟩ := commitNewPart_spec h rfl (by exact hj) hm
    exact ⟨hok, hn, nofun⟩
  | complete =>
    obtain ⟨middle, hm, heq⟩ := map_eq_ok hc
    cases heq
    rw [Job.accepts, Bool.and_eq_true, decide_eq_true_eq] at ha
    obtain ⟨copied, ⟨-, hf, hco⟩, hd⟩ := hw
    refine commitCompletion_spec h ha.1.symm (fun rows hr => ?_) hm
    rw [resolveParts_copied hr (hd _ _ _ _ rfl) hco]
    exact hf

theorem Inv.commit {md5 : Bytes → Bytes} (h : Inv s) {job : Job} {blobId : Text}
    {written : Bytes} {released : List Text} {db : Db} {call : Call}
    (hc : s.calls caller = some (.stored job blobId written)) (ha : job.accepts md5 written)
    (hco : job.commit blobId written now s.db = .ok (some (released, db)))
    (hn : (∀ blobId ∈ released, db.Dead blobId) → call.Ok (s.setDb db))
    (how : call.owns = none) : Inv ((s.setDb db).setCall caller (some call)) := by
  obtain ⟨hj, hu, hd, hw⟩ := h.calls caller _ hc
  obtain ⟨hok, hdb, hde⟩ := Job.commit_spec h.db hj hw ha hco
  have hm : s.owned caller = some blobId := Files.owned_of_call hc
  have hf : Frame (s.owned caller) s (s.setDb db) := by
    refine .setDb hdb (fun entry he => ?_)
    cases he
    exact hm.symm
  apply h.step (hf.trans_setCall caller (some call)) hok ?_ rfl ?_
  · exact owns_nothing how
  · intro entry he
    rcases hdb.contents entry he with hold | hnew
    · exact Or.inl hold
    · cases hnew
      obtain ⟨row, hr, hid, -⟩ := hok.committed _ he
      obtain ⟨old, hold, ho⟩ := hdb.blob_ids row hr (hid ▸ hu.1)
      exact Or.inr (hd old hold (ho.trans hid))
  · intro other hoth
    cases hoth
    exact (hn hde).setCall caller (some call)

/-! ### Every step -/

theorem openUpload_spec (h : db.Ok) (ho : openUpload db uploadId now project = .ok upload) :
    db.Declared upload.id upload.bytes := by
  obtain ⟨found, hf, hr⟩ := bind_eq_ok.mp ho
  obtain ⟨_, -, hp⟩ := bind_eq_ok.mp hr
  cases hp
  exact h.declared (uploadRow_spec hf).1

theorem createFile_ok {request : CreateFile} {job : Job}
    (h : createFile fileId request project = .ok job) : job.Ok db := by
  obtain ⟨_, -, h1⟩ := bind_eq_ok.mp h
  obtain ⟨_, -, h2⟩ := bind_eq_ok.mp h1
  obtain ⟨_, -, h3⟩ := bind_eq_ok.mp h2
  obtain ⟨_, -, h4⟩ := bind_eq_ok.mp h3
  cases h4
  trivial

theorem createInternalFile_ok {filename : Text} {purpose : FilePurpose} {job : Job}
    (h : createInternalFile fileId filename purpose project = .ok job) : job.Ok db := by
  obtain ⟨_, -, h1⟩ := bind_eq_ok.mp h
  obtain ⟨_, -, h2⟩ := bind_eq_ok.mp h1
  obtain ⟨_, -, h3⟩ := bind_eq_ok.mp h2
  cases h3
  trivial

theorem partJob_ok {job : Job}
    (hd : db.Declared upload.id upload.bytes) (h : partJob db partId upload = .ok job) :
    job.Ok db := by
  obtain ⟨_, -, h1⟩ := bind_eq_ok.mp h
  cases h1
  exact hd

theorem completeJob_ok {digest : Option Bytes} {job : Job} (hp : ∀ part ∈ parts, db.Resolved part)
    (h : completeJob fileId upload parts digest = .ok job) : job.Ok db := by
  obtain ⟨_, -, h1⟩ := bind_eq_ok.mp h
  cases h1
  exact hp

theorem resolvePart_resolved (h : db.Ok) {row : PartRow}
    (hr : resolvePart db uploadId partId = .ok row) :
    db.Resolved { id := partId, blobId := row.blobId, bytes := row.bytes } := by
  obtain ⟨hm, hid⟩ := resolvePart_spec hr
  refine ⟨hid ▸ h.part_used row hm, fun other hoth ho => ?_⟩
  rw [h.part_eq hoth hm (ho.trans hid.symm)]

theorem Job.copying_nil (db : Db) (job : Job) : job.Copying db [] [] := by
  cases job with
  | file => trivial
  | internal => trivial
  | part => trivial
  | complete =>
    exact ⟨Nat.zero_le _, rfl, fun pair hp => (by simp at hp)⟩

theorem Job.copying_of_ne {job : Job} {written : Bytes} {copied : List Bytes}
    (h : ∀ fileId upload parts digest, job ≠ .complete fileId upload parts digest) :
    job.Copying db written copied := by
  cases job with
  | file => trivial
  | internal => trivial
  | part => trivial
  | complete => exact absurd rfl (h _ _ _ _)

theorem append_tmp {written : Bytes} (chunk : Bytes)
    (h : s.disk (.tmp blobId) = none ∨ s.disk (.tmp blobId) = some written) :
    (s.append blobId chunk).disk (.tmp blobId) = none ∨
      (s.append blobId chunk).disk (.tmp blobId) = some (written ++ chunk) := by
  show Function.update s.disk _ _ _ = _ ∨ Function.update s.disk _ _ _ = _
  rw [Function.update_self]
  rcases h with h | h
  · rw [h]
    exact Or.inl rfl
  · rw [h]
    exact Or.inr rfl

theorem Inv.copied (h : Inv s) (hp : s.db.Resolved part)
    (ho : s.disk (.blob part.blobId) = some chunk) : s.db.Copied part chunk := by
  refine ⟨hp.1, fun row hr hid => ?_⟩
  have hb := h.backed _ (Db.part_mem_contents hr)
  rw [hp.2 row hr hid, ho] at hb
  exact (Option.some.inj hb).symm

theorem Inv.copying (h : Inv s) {digest : Option Bytes} {written : Bytes} {copied : List Bytes}
    (hj : (Job.complete fileId upload parts digest).Ok s.db)
    (hco : (Job.complete fileId upload parts digest).Copying s.db written copied)
    (hpa : parts[copied.length]? = some part) (ho : s.disk (.blob part.blobId) = some chunk) :
    (Job.complete fileId upload parts digest).Copying s.db (written ++ chunk)
      (copied ++ [chunk]) := by
  obtain ⟨-, hf, hc⟩ := hco
  obtain ⟨hlt, hg⟩ := List.getElem?_eq_some_iff.mp hpa
  refine ⟨?_, ?_, ?_⟩
  · rw [length_append, length_singleton]
    omega
  · rw [hf, flatten_append]
    simp
  · have hs : parts = parts.take copied.length ++ part :: parts.drop (copied.length + 1) := by
      rw [← hg, getElem_cons_drop, take_append_drop]
    have ht : (parts.take copied.length).length = copied.length := by
      rw [length_take]
      omega
    have hz : ∀ more, parts.zip (copied ++ more) = (parts.take copied.length).zip copied ++
        (part :: parts.drop (copied.length + 1)).zip more := by
      intro more
      rw [← zip_append ht, ← hs]
    have hpr : parts.zip copied = (parts.take copied.length).zip copied := by
      simpa using hz []
    rw [hz]
    intro pair hp
    rcases mem_append.mp hp with hp | hp
    · exact hc pair (hpr ▸ hp)
    · have hl : pair = (part, chunk) := by simpa using hp
      rw [hl]
      exact h.copied (hj part (hg ▸ getElem_mem hlt)) ho

theorem Inv.append (h : Inv s) {job : Job} {written : Bytes} {copied copied' : List Bytes}
    (hc : s.calls caller = some (.writing job blobId written copied))
    (hco : job.Copying s.db (written ++ chunk) copied') :
    Inv ((s.append blobId chunk).setCall caller
      (some (.writing job blobId (written ++ chunk) copied'))) := by
  obtain ⟨hj, hu, ht, -⟩ := h.calls caller _ hc
  have hm : s.owned caller = some (Path.tmp blobId).blobId := Files.owned_of_call hc
  exact h.write hm (ok_some ⟨hj, hu, append_tmp chunk ht, hco⟩) (owns_same hc rfl)

theorem Inv.rename (h : Inv s) {job : Job} {blobId : Text}
    {written content : Bytes} (hc : s.calls caller = some (.vacant job blobId written))
    (ht : s.disk (.tmp blobId) = some content) :
    Inv (((s.setDisk (.blob blobId) (some content)).setDisk (.tmp blobId) none).setCall caller
      (some (.stored job blobId written))) := by
  obtain ⟨hj, hu, hw, hwr⟩ := h.calls caller _ hc
  have hm : s.owned caller = some blobId := Files.owned_of_call hc
  have hco : content = written := by
    rw [ht] at hw
    rcases hw with hw | hw
    · cases hw
    · exact Option.some.inj hw
  have hf : Frame (s.owned caller) s
      ((s.setDisk (.blob blobId) (some content)).setDisk (.tmp blobId) none) := by
    refine ⟨⟨none, nofun, .refl _⟩, fun path => ?_⟩
    by_cases heq : path.blobId = blobId
    · exact Or.inr (Or.inl (by rw [hm, heq]))
    · refine Or.inl ?_
      show Function.update (Function.update s.disk _ _) _ _ path = s.disk path
      rw [Function.update_of_ne, Function.update_of_ne]
      · rintro rfl
        exact heq rfl
      · rintro rfl
        exact heq rfl
  apply h.step (hf.trans_setCall caller _) h.db (fun _ hent => Or.inl hent) rfl
  · intro call heq
    cases heq
    refine ⟨hj, hu, fun _ _ _ => ?_, hwr⟩
    show Function.update (Function.update s.disk (.blob blobId) (some content)) (.tmp blobId) none
      (.blob blobId) = some written
    rw [Function.update_of_ne (fun hp => (by cases hp)), Function.update_self, hco]
  · exact fun call other heq ho => Or.inl (owns_same hc (by rfl) call other heq ho)

theorem Inv.stage (h : Inv s) {job : Job} {blobId : Text} {db : Db}
    (hc : s.calls caller = some (.opening job)) (hs : stageBlob blobId now s.db = .ok db) :
    Inv ((s.setDb db).setCall caller (some (.staged job blobId))) := by
  obtain ⟨hok, hdb, hf, hu, hr⟩ := stageBlob_spec h.db hs
  have hfr : Frame none s (s.setDb db) := .setDb hdb nofun
  refine h.transact caller hok hdb (ok_some ⟨hfr.job (h.calls caller _ hc), hu, hr⟩) ?_
  intro call other heq hown
  cases heq
  cases hown
  exact Or.inr hf

theorem Step.inv (h : Inv s) (hst : Step md5 s action t) : Inv t := by
  cases hst with
  | @createUpload id request now project db hcr =>
    obtain ⟨hok, hdb⟩ := createUpload_spec h.db hcr
    have hsa : s.setDb db = (s.setDb db).setCall 0 (s.calls 0) := by
      rw [Files.setCall, Files.setDb, Function.update_eq_self]
    rw [hsa]
    have hf : Frame none s (s.setDb db) := .setDb hdb nofun
    refine h.transact 0 hok hdb (fun call hc => ?_) (fun call blobId hc hown => Or.inl ?_)
    · exact hf.call (h.calls 0 call hc) nofun
    · rw [Files.owned_of_call hc, hown]
  | createFile hi hcr =>
    exact h.move _ (ok_some (createFile_ok hcr)) (owns_nothing rfl)
  | createInternalFile hi hcr =>
    exact h.move _ (ok_some (createInternalFile_ok hcr)) (owns_nothing rfl)
  | addUploadPart hi hopen =>
    exact h.move _ (ok_some (openUpload_spec h.db hopen)) (owns_nothing rfl)
  | size hc hj =>
    exact h.move _ (ok_some (partJob_ok (h.calls _ _ hc) hj)) (owns_nothing rfl)
  | completeUpload =>
    exact h.move _ (ok_some nofun) (owns_nothing rfl)
  | resolve hc hr =>
    refine h.move _ (ok_some (fun part hp => ?_)) (owns_nothing rfl)
    rcases mem_append.mp hp with hp | hp
    · exact h.calls _ _ hc part hp
    · rw [mem_singleton.mp hp]
      exact resolvePart_resolved h.db hr
  | resolved hc hj =>
    exact h.move _ (ok_some (completeJob_ok (h.calls _ _ hc) hj)) (owns_nothing rfl)
  | stage hc hs => exact h.stage hc hs
  | @create caller job blobId hc hnew =>
    obtain ⟨hj, hu⟩ := h.calls _ _ hc
    have hm : s.owned caller = some (Path.tmp blobId).blobId := Files.owned_of_call hc
    refine h.write hm (ok_some ⟨hj, hu, Or.inr ?_, job.copying_nil s.db⟩) (owns_same hc rfl)
    exact Function.update_self _ _ _
  | write hc hj =>
    obtain ⟨-, -, -, hcopy⟩ := h.calls _ _ hc
    exact h.append hc (Job.copying_of_ne hj)
  | copy hc hp hopen =>
    obtain ⟨hj, -, -, hcopy⟩ := h.calls _ _ hc
    exact h.append hc (h.copying hj hcopy hp hopen)
  | sync hc hdo =>
    obtain ⟨hj, hu, ht, hcopy⟩ := h.calls _ _ hc
    exact h.move _ (ok_some ⟨hj, hu, ht, _, hcopy, hdo⟩) (owns_same hc rfl)
  | look hc =>
    obtain ⟨hj, hu, ht, hw⟩ := h.calls _ _ hc
    exact h.move _ (ok_some ⟨hj, hu, ht, hw⟩) (owns_same hc rfl)
  | rename hc ht => exact h.rename hc ht
  | openFails => exact h.move _ (ok_some trivial) (owns_nothing rfl)
  | writeFails => exact h.move _ (ok_some trivial) (owns_nothing rfl)
  | clean => exact h.unlink _ (Or.inl ⟨_, rfl⟩) trivial rfl
  | cleanFails => exact h.move _ (ok_some trivial) (owns_nothing rfl)
  | commit hc ha hcomm =>
    exact h.commit hc ha hcomm dead_removed rfl
  | commitUnreported hc ha hcomm =>
    exact h.commit hc ha hcomm (fun _ => trivial) rfl
  | commitFails => exact h.move _ (ok_some trivial) (owns_nothing rfl)
  | @discard caller blobId hc =>
    obtain ⟨hok, hdb, hd⟩ := discardBlob_spec h.db blobId
    cases hdeleted : (discardBlob blobId s.db).1 with
    | true =>
      refine h.transact _ hok hdb (ok_some (dead_removed ?_)) (owns_nothing rfl)
      intro other ho
      rw [mem_singleton.mp ho]
      exact hd hdeleted
    | false =>
      exact h.transact _ hok hdb (fun _ h => (by cases h)) (fun _ _ h => (by cases h))
  | cancelUpload hi hca =>
    obtain ⟨hok, hdb, hd⟩ := cancelUpload_spec h.db hca
    exact h.transact _ hok hdb (ok_some (dead_removed hd)) (owns_nothing rfl)
  | @deleteFile caller fileId now project blobId db hi hdel =>
    obtain ⟨hok, hdb, hd⟩ := deleteFile_spec h.db hdel
    refine h.transact _ hok hdb (ok_some (dead_removed ?_)) (owns_nothing rfl)
    intro other ho
    rw [mem_singleton.mp ho]
    exact hd
  | @purge caller now hi =>
    obtain ⟨hok, hdb, hd⟩ := purge_spec h.db now
    exact h.transact _ hok hdb (ok_some (dead_removed hd)) (owns_nothing rfl)
  | @unlink caller path paths sweep hc =>
    have hd := h.calls _ _ hc
    exact h.unlink caller (Or.inr (hd path (mem_cons_self ..)))
      (fun other ho => hd other (mem_cons_of_mem _ ho)) rfl
  | unlinkFails hc =>
    have hd := h.calls _ _ hc
    exact h.move _ (ok_some fun other ho => hd other (mem_cons_of_mem _ ho)) (owns_nothing rfl)
  | sweep => exact h.move _ (ok_some trivial) (owns_nothing rfl)
  | @lookOrphan caller path hc he hrow =>
    exact h.move _ (ok_some ⟨h.disk_used path he, hrow⟩) (owns_nothing rfl)
  | @unlinkOrphan caller path hc =>
    have hd := h.calls _ _ hc
    exact h.unlink caller (Or.inr hd) trivial rfl
  | stop => exact h.move _ (fun _ hn => (by cases hn)) (fun _ _ hn => (by cases hn))

/-! ### Runs -/

theorem reachable_inv (hs : (files md5).Reachable s) : Inv s := by
  apply hs.invariant
  · rintro s ⟨hdb, hd, hca⟩
    refine ⟨hdb ▸ .empty, fun path hp => ?_, fun entry he => ?_, fun caller call hc => ?_,
      fun caller other call call' blobId hc => ?_⟩
    · rw [hd] at hp
      exact absurd rfl hp
    · rw [hdb] at he
      cases he
    · rw [hca] at hc
      cases hc
    · rw [hca] at hc
      cases hc
  · exact fun s action t h hst => hst.inv h

theorem Step.next (h : Inv s) (hst : Step md5 s action t) : ∃ added, s.db.Next added t.db := by
  cases hst with
  | createUpload hcr => exact ⟨_, (createUpload_spec h.db hcr).2⟩
  | stage hc hs => exact ⟨_, (stageBlob_spec h.db hs).2.1⟩
  | commit hc ha hco =>
    obtain ⟨hj, -, -, hw⟩ := h.calls _ _ hc
    exact ⟨_, (Job.commit_spec h.db hj hw ha hco).2.1⟩
  | commitUnreported hc ha hco =>
    obtain ⟨hj, -, -, hw⟩ := h.calls _ _ hc
    exact ⟨_, (Job.commit_spec h.db hj hw ha hco).2.1⟩
  | @discard caller blobId hc => exact ⟨_, (discardBlob_spec h.db blobId).2.1⟩
  | cancelUpload hi hca => exact ⟨_, (cancelUpload_spec h.db hca).2.1⟩
  | deleteFile hi hd => exact ⟨_, (deleteFile_spec h.db hd).2.1⟩
  | @purge caller now hi => exact ⟨_, (purge_spec h.db now).2.1⟩
  | _ => exact ⟨none, .refl _⟩

theorem run_dead {actions : List Action} (hs : (files md5).Reachable s)
    (hr : (files md5).Run s actions t) (hd : s.db.Dead blobId) : t.db.Dead blobId := by
  induction hr with
  | refl => exact hd
  | tail prior next ih =>
    obtain ⟨added, hn⟩ := Step.next (reachable_inv (hs.run prior)) next
    exact hn.dead ih

theorem Db.Ok.dead_unnamed (h : db.Ok) (hd : db.Dead blobId) :
    (∀ row ∈ db.files, row.blobId ≠ blobId) ∧ ∀ row ∈ db.parts, row.blobId ≠ blobId := by
  have hn : ∀ entry ∈ db.contents, entry.1 ≠ blobId := by
    intro entry hent heq
    obtain ⟨row, hr, hid, -⟩ := h.committed entry hent
    exact hd.2 row hr (hid.trans heq)
  exact ⟨fun row hr => hn _ (Db.file_mem_contents hr), fun row hr => hn _ (Db.part_mem_contents hr)⟩

structure Sound (s : Files) : Prop where
  file_kept : ∀ row ∈ s.db.files,
    (∃ blob ∈ s.db.blobs, blob.id = row.blobId ∧ blob.committed) ∧
      s.disk (.blob row.blobId) = some row.content ∧ row.bytes = row.content.length
  part_kept : ∀ row ∈ s.db.parts,
    (∃ blob ∈ s.db.blobs, blob.id = row.blobId ∧ blob.committed) ∧
      s.disk (.blob row.blobId) = some row.content ∧ row.bytes = row.content.length
  one_row : (s.db.files.map (·.blobId) ++ s.db.parts.map (·.blobId)).Nodup
  named : ∀ blob ∈ s.db.blobs, blob.committed →
    blob.id ∈ s.db.files.map (·.blobId) ++ s.db.parts.map (·.blobId)
  within : ∀ upload ∈ s.db.uploads, partsTotal s.db upload.id ≤ upload.bytes
  ended : ∀ upload ∈ s.db.uploads, upload.status ≠ .pending →
    ∀ part ∈ s.db.parts, part.uploadId ≠ upload.id
  completed_once : (s.db.completions.map (·.uploadId)).Nodup
  completed_file : ∀ completion ∈ s.db.completions,
    completion.content = completion.parts.flatten ∧
      ∀ row ∈ s.db.files, row.blobId = completion.blobId → row.content = completion.content
  internal_once : s.db.internalCommits.Nodup

theorem Db.contents_blobs (db : Db) : db.contents.map Prod.fst =
    db.files.map (·.blobId) ++ db.parts.map (·.blobId) := by
  rw [Db.contents, map_append, map_map, map_map]
  rfl

theorem Inv.sound (h : Inv s) : Sound s where
  file_kept row hr :=
    ⟨h.db.committed _ (Db.file_mem_contents hr), h.backed _ (Db.file_mem_contents hr),
      h.db.file_size row hr⟩
  part_kept row hr :=
    ⟨h.db.committed _ (Db.part_mem_contents hr), h.backed _ (Db.part_mem_contents hr),
      h.db.part_size row hr⟩
  one_row := s.db.contents_blobs ▸ h.db.unique
  named blob hb hco := s.db.contents_blobs ▸ h.db.referenced blob hb hco
  within := h.db.within
  ended upload hu hend part hpa heq := by
    obtain ⟨other, ho, hid, hp⟩ := h.db.part_upload part hpa
    rw [h.db.upload_eq ho hu (hid.trans heq)] at hp
    exact hend hp
  completed_once := h.db.completed_once
  completed_file completion hc :=
    ⟨h.db.assembled completion hc, (h.db.completed_blob completion hc).2.2⟩
  internal_once := h.db.internal_once

/-- In every state that any number of calls reach, with crashes and commits whose outcome is
not reported anywhere, each file and each part has its bytes on disk and to itself, and uploads
and internal ids are committed once; a file on disk whose blob has no row stays a leftover
however the run goes on. -/
theorem stored_bytes_kept {md5 : Bytes → Bytes} {actions : List Action}
    (hs : (files md5).Reachable s) (hrun : (files md5).Run s actions t) :
    Sound s ∧ ∀ path, s.disk path ≠ none → (∀ row ∈ s.db.blobs, row.id ≠ path.blobId) →
      (∀ row ∈ t.db.blobs, row.id ≠ path.blobId) ∧
        (∀ row ∈ t.db.files, row.blobId ≠ path.blobId) ∧
        ∀ row ∈ t.db.parts, row.blobId ≠ path.blobId := by
  have hi := reachable_inv hs
  refine ⟨hi.sound, fun path hpa hr => ?_⟩
  have hd := run_dead hs hrun ⟨hi.disk_used path hpa, hr⟩
  obtain ⟨hf, hp⟩ := (reachable_inv (hs.run hrun)).db.dead_unnamed hd
  exact ⟨hd.2, hf, hp⟩

theorem reachable_next (hs : (files md5).Reachable s)
    (hst : Step md5 s action t) : (files md5).Reachable t := .step hs hst

theorem stop_run (md5 : Bytes → Bytes) (s : Files) :
    (files md5).Run s [.stop 0] (s.setCall 0 none) := .tail (.refl s) Step.stop

/-- A file of one byte is created, and deleted by a call that ends before it unlinks. -/
theorem stored_bytes_kept_one :
    ∃ s t : Files, (files id).Reachable s ∧ (files id).Run s [.stop 0] t ∧ Sound s ∧
      s.disk (.blob ['b']) = some [7] ∧ (∀ row ∈ s.db.blobs, row.id ≠ ['b']) ∧
      ∀ row ∈ t.db.files, row.blobId ≠ ['b'] := by
  have h : (files id).Reachable ⟨.empty, fun _ => none, fun _ => none⟩ := .start ⟨rfl, rfl, rfl⟩
  have hc : createFile ['f'] ⟨['n'], .userData, none⟩ none =
      .ok (.file ['f'] ['n'] .userData none none) := rfl
  replace h := reachable_next h (@Step.createFile _ _ 0 _ _ _ _ rfl hc)
  replace h := reachable_next h (@Step.stage _ _ 0 _ ['b'] 0 _ rfl rfl)
  replace h := reachable_next h (@Step.create _ _ 0 _ ['b'] rfl rfl)
  replace h := reachable_next h (@Step.write _ _ 0 _ ['b'] [] [7] [] rfl nofun (by decide))
  replace h := reachable_next h (@Step.sync _ _ 0 _ ['b'] [7] [] rfl nofun)
  replace h := reachable_next h (@Step.look _ _ 0 _ ['b'] [7] rfl rfl)
  replace h := reachable_next h (@Step.rename _ _ 0 _ ['b'] [7] [7] rfl rfl)
  replace h := reachable_next h (@Step.commit id _ 0 _ ['b'] [7] 0 _ _ rfl rfl rfl)
  replace h := reachable_next h (@Step.stop _ _ 0)
  replace h := reachable_next h (@Step.deleteFile _ _ 0 ['f'] 0 none _ _ rfl rfl)
  obtain ⟨hs, hl⟩ := stored_bytes_kept h (stop_run id _)
  refine ⟨_, _, h, stop_run id _, hs, rfl, by decide, (hl (.blob ['b']) ?_ (by decide)).2.1⟩
  exact nofun

end LocalAi.FileStore
