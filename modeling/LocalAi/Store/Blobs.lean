import LocalAi.Lib.System

/-!
# The blobs of stored responses

A record keeps its long strings in blobs and names each by a hard link of its own.
Saves that name blobs share a lock from the first link to the record's rename,
collection takes it alone, and deleting a record takes no lock.

* `Move`: one file step of a save or of a collection.
* `Kept`: what every step of any number of calls keeps of links and blobs.
* `Named`: what it keeps of the records, when saves of one record that name a
  common blob do not overlap.
* `stored_blobs_kept`: a stored record never misses a blob, and a collection leaves the
  blobs that the records it listed name.
-/

set_option linter.unusedSectionVars false

open List

namespace LocalAi.Store

open LocalAi.Lib

/-- The files of a store: each record with the digests it lists, its links, and the
blobs.  A file's content is written before it gets its name and never after. -/
structure Directory (Id Digest Content : Type) where
  records : Id → Option (List Digest)
  links : Id × Digest → Option Content
  blobs : Digest → Option Content

inductive Stage
  | checkLink
  | checkBlob
  | writeBlob
  | removeLink
  | hardLink

inductive Job (Id Digest Content : Type)
  | saving (id : Id) (blobs : List (Digest × Content))
  | linking (id : Id) (blobs todo : List (Digest × Content)) (stage : Stage)
  | saved
  | collecting
  | listing
  | unlinking (listed : Id → Bool) (stale : List (Id × Digest)) (unlinked : List Digest)
  | closed

variable {Id Digest Content Call : Type} [DecidableEq Id] [DecidableEq Digest] [DecidableEq Call]

def Job.shared : Job Id Digest Content → Bool
  | .linking .. | .saved => true
  | _ => false

def Job.exclusive : Job Id Digest Content → Bool
  | .listing | .unlinking .. => true
  | _ => false

variable {id : Id}

namespace Directory

def setRecord (dir : Directory Id Digest Content) (id : Id) (record : Option (List Digest)) :
    Directory Id Digest Content :=
  { dir with records := Function.update dir.records id record }

def setLink (dir : Directory Id Digest Content) (link : Id × Digest) (content : Option Content) :
    Directory Id Digest Content :=
  { dir with links := Function.update dir.links link content }

def setBlob (dir : Directory Id Digest Content) (digest : Digest) (content : Option Content) :
    Directory Id Digest Content :=
  { dir with blobs := Function.update dir.blobs digest content }

theorem setRecord_self (dir : Directory Id Digest Content) (id : Id) (record : Option (List Digest)) :
    (dir.setRecord id record).records id = record := Function.update_self ..

variable {dir : Directory Id Digest Content}

theorem setRecord_of_ne {other : Id} {record : Option (List Digest)} (h : other ≠ id) :
    (dir.setRecord id record).records other = dir.records other := Function.update_of_ne h ..

theorem setLink_self (dir : Directory Id Digest Content) (link : Id × Digest)
    (content : Option Content) : (dir.setLink link content).links link = content :=
  Function.update_self ..

theorem setLink_of_ne {link other : Id × Digest} {content : Option Content} (h : other ≠ link) :
    (dir.setLink link content).links other = dir.links other := Function.update_of_ne h ..

theorem setBlob_of_ne {digest other : Digest} {content : Option Content} (h : other ≠ digest) :
    (dir.setBlob digest content).blobs other = dir.blobs other := Function.update_of_ne h ..

/-- The strings of record `id` as `load` resolves them: `none` without a record,
`some none` when a blob is missing. -/
def load (dir : Directory Id Digest Content) (id : Id) : Option (Option (List Content)) :=
  (dir.records id).map fun digests => digests.mapM fun digest => dir.links (id, digest)

end Directory

section Steps

variable (length : Content → Nat)

def Whole (file : Option Content) (content : Content) : Prop :=
  file.map length = some (length content)

/-- One file step of a call that holds the lock. -/
inductive Move : Directory Id Digest Content → Job Id Digest Content →
    Directory Id Digest Content → Job Id Digest Content → Prop
  | linkWhole {dir : Directory Id Digest Content} {id : Id} {blobs todo : List (Digest × Content)}
      {digest : Digest} {content : Content} (h : Whole length (dir.links (id, digest)) content) :
      Move dir (.linking id blobs ((digest, content) :: todo) .checkLink)
        dir (.linking id blobs todo .checkLink)
  | linkMissing {dir : Directory Id Digest Content} {id : Id} {blobs todo : List (Digest × Content)}
      {digest : Digest} {content : Content} (h : ¬ Whole length (dir.links (id, digest)) content) :
      Move dir (.linking id blobs ((digest, content) :: todo) .checkLink)
        dir (.linking id blobs ((digest, content) :: todo) .checkBlob)
  | blobWhole {dir : Directory Id Digest Content} {id : Id} {blobs todo : List (Digest × Content)}
      {digest : Digest} {content : Content} (h : Whole length (dir.blobs digest) content) :
      Move dir (.linking id blobs ((digest, content) :: todo) .checkBlob)
        dir (.linking id blobs ((digest, content) :: todo) .removeLink)
  | blobMissing {dir : Directory Id Digest Content} {id : Id} {blobs todo : List (Digest × Content)}
      {digest : Digest} {content : Content} (h : ¬ Whole length (dir.blobs digest) content) :
      Move dir (.linking id blobs ((digest, content) :: todo) .checkBlob)
        dir (.linking id blobs ((digest, content) :: todo) .writeBlob)
  | writeBlob {dir : Directory Id Digest Content} {id : Id} {blobs todo : List (Digest × Content)}
      {digest : Digest} {content : Content} :
      Move dir (.linking id blobs ((digest, content) :: todo) .writeBlob)
        (dir.setBlob digest (some content))
        (.linking id blobs ((digest, content) :: todo) .removeLink)
  | removeLink {dir : Directory Id Digest Content} {id : Id} {blobs todo : List (Digest × Content)}
      {digest : Digest} {content : Content} :
      Move dir (.linking id blobs ((digest, content) :: todo) .removeLink)
        (dir.setLink (id, digest) none)
        (.linking id blobs ((digest, content) :: todo) .hardLink)
  | hardLink {dir : Directory Id Digest Content} {id : Id} {blobs todo : List (Digest × Content)}
      {digest : Digest} {content file : Content} (hblob : dir.blobs digest = some file)
      (hlink : dir.links (id, digest) = none) :
      Move dir (.linking id blobs ((digest, content) :: todo) .hardLink)
        (dir.setLink (id, digest) (some file)) (.linking id blobs todo .checkLink)
  -- linked by another save of this record meanwhile
  | linkExists {dir : Directory Id Digest Content} {id : Id} {blobs todo : List (Digest × Content)}
      {digest : Digest} {content : Content} (hlink : dir.links (id, digest) ≠ none) :
      Move dir (.linking id blobs ((digest, content) :: todo) .hardLink)
        dir (.linking id blobs todo .checkLink)
  | rename {dir : Directory Id Digest Content} {id : Id} {blobs : List (Digest × Content)} :
      Move dir (.linking id blobs [] .checkLink)
        (dir.setRecord id (some (blobs.map Prod.fst))) .saved
  | list {dir : Directory Id Digest Content} {listed : Id → Bool} {stale : List (Id × Digest)}
      {unlinked : List Digest} (hlisted : ∀ id, listed id = true ↔ dir.records id ≠ none)
      (hstale : ∀ link, link ∈ stale ↔ dir.links link ≠ none ∧ dir.records link.1 = none)
      (hunlinked : ∀ digest, digest ∈ unlinked ↔ dir.blobs digest ≠ none ∧
        ∀ id, dir.records id ≠ none → dir.links (id, digest) = none) :
      Move dir .listing dir (.unlinking listed stale unlinked)
  | unlinkLink {dir : Directory Id Digest Content} {listed : Id → Bool} {link : Id × Digest}
      {stale : List (Id × Digest)} {unlinked : List Digest} :
      Move dir (.unlinking listed (link :: stale) unlinked)
        (dir.setLink link none) (.unlinking listed stale unlinked)
  | unlinkBlob {dir : Directory Id Digest Content} {listed : Id → Bool} {digest : Digest}
      {unlinked : List Digest} :
      Move dir (.unlinking listed [] (digest :: unlinked))
        (dir.setBlob digest none) (.unlinking listed [] unlinked)

/-- A store and the calls that run on it. -/
structure Shelf (Id Digest Content Call : Type) where
  dir : Directory Id Digest Content
  calls : Call → Option (Job Id Digest Content)

def Shelf.put (s : Shelf Id Digest Content Call) (call : Call) (job : Job Id Digest Content) :
    Shelf Id Digest Content Call :=
  { s with calls := Function.update s.calls call (some job) }

/-- One step of a call, of a save without blobs or of a deletion. -/
inductive Deed (Id Call : Type)
  | startSave (call : Call)
  | startCollect (call : Call)
  | lockShared (call : Call)
  | lockExclusive (call : Call)
  | move (call : Call)
  | leave (call : Call)
  | savePlain (id : Id)
  | remove (id : Id)

variable (digest : Content → Digest)

inductive Act : Shelf Id Digest Content Call → Deed Id Call → Shelf Id Digest Content Call → Prop
  | startSave {s : Shelf Id Digest Content Call} {call : Call} {id : Id}
      {blobs : List (Digest × Content)} (hnew : s.calls call = none) (hblobs : blobs ≠ [])
      (hdigests : ∀ blob ∈ blobs, digest blob.2 = blob.1) :
      Act s (.startSave call) (s.put call (.saving id blobs))
  | startCollect {s : Shelf Id Digest Content Call} {call : Call} (hnew : s.calls call = none) :
      Act s (.startCollect call) (s.put call .collecting)
  | lockShared {s : Shelf Id Digest Content Call} {call : Call} {id : Id}
      {blobs : List (Digest × Content)} (hjob : s.calls call = some (.saving id blobs))
      (hfree : ∀ other job, s.calls other = some job → job.exclusive = false) :
      Act s (.lockShared call) (s.put call (.linking id blobs blobs .checkLink))
  | lockExclusive {s : Shelf Id Digest Content Call} {call : Call}
      (hjob : s.calls call = some .collecting)
      (hfree : ∀ other job, s.calls other = some job → job.exclusive = false ∧ job.shared = false) :
      Act s (.lockExclusive call) (s.put call .listing)
  | move {s : Shelf Id Digest Content Call} {call : Call} {job job' : Job Id Digest Content}
      {dir : Directory Id Digest Content} (hjob : s.calls call = some job)
      (hmove : Move length s.dir job dir job') :
      Act s (.move call) (Shelf.put { s with dir := dir } call job')
  | leave {s : Shelf Id Digest Content Call} {call : Call} {job : Job Id Digest Content}
      (hjob : s.calls call = some job) : Act s (.leave call) (s.put call .closed)
  | savePlain {s : Shelf Id Digest Content Call} {id : Id} :
      Act s (.savePlain id) { s with dir := s.dir.setRecord id (some []) }
  | remove {s : Shelf Id Digest Content Call} {id : Id} :
      Act s (.remove id) { s with dir := s.dir.setRecord id none }

/-- Any number of calls on a store that begins empty. -/
def shelves (Id Call : Type) [DecidableEq Id] [DecidableEq Call] :
    System (Shelf Id Digest Content Call) (Deed Id Call) where
  start := fun s => (∀ id, s.dir.records id = none) ∧ (∀ link, s.dir.links link = none) ∧
    (∀ digest, s.dir.blobs digest = none) ∧ ∀ call, s.calls call = none
  step := Act length digest

/-! ### Links and blobs -/

/-- The files under digests hold contents with those digests, and a link's blob is
there. -/
structure Directory.Kept (dir : Directory Id Digest Content) : Prop where
  blobDigest : ∀ d content, dir.blobs d = some content → digest content = d
  linkDigest : ∀ link content, dir.links link = some content → digest content = link.2
  backed : ∀ link, dir.links link ≠ none → dir.blobs link.2 ≠ none

/-- What a collection knows of the links and blobs while it unlinks. -/
structure Collects (dir : Directory Id Digest Content) (listed : Id → Bool)
    (stale : List (Id × Digest)) (unlinked : List Digest) : Prop where
  unlisted : ∀ link ∈ stale, listed link.1 = false
  finds : ∀ link, dir.links link ≠ none → listed link.1 = false → link ∈ stale
  spares : ∀ d ∈ unlinked, ∀ id, dir.links (id, d) ≠ none → listed id = false
  covers : ∀ d, dir.blobs d ≠ none → d ∈ unlinked ∨ ∃ id, listed id = true ∧ dir.links (id, d) ≠ none

/-- What a call keeps about its own work. -/
def Job.Kept (dir : Directory Id Digest Content) : Job Id Digest Content → Prop
  | .saving _ blobs => ∀ blob ∈ blobs, digest blob.2 = blob.1
  | .linking _ blobs todo _ => (∀ blob ∈ blobs, digest blob.2 = blob.1) ∧ todo ⊆ blobs
  | .unlinking listed stale unlinked => Collects dir listed stale unlinked
  | _ => True

/-- The lock excludes, and every call and file is as it should be. -/
structure Shelf.Kept (s : Shelf Id Digest Content Call) : Prop where
  dir : s.dir.Kept digest
  alone : ∀ call job other job', s.calls call = some job → job.exclusive = true →
    s.calls other = some job' → other ≠ call → job'.exclusive = false ∧ job'.shared = false
  jobs : ∀ call job, s.calls call = some job → job.Kept digest s.dir

variable {length digest}

variable {dir dir' : Directory Id Digest Content} {job job' : Job Id Digest Content}
  {s : Shelf Id Digest Content Call} {call : Call} {blobs todo : List (Digest × Content)}

theorem Move.flags (hm : Move length dir job dir' job') :
    job'.shared = job.shared ∧ job'.exclusive = job.exclusive ∧
      (job.shared = true ∨ job.exclusive = true) := by
  cases hm <;> simp [Job.shared, Job.exclusive]

theorem Directory.Kept.setLink_none (hd : dir.Kept digest) (link : Id × Digest) :
    (dir.setLink link none).Kept digest := by
  refine ⟨hd.blobDigest, fun other content ho => ?_, fun other ho => ?_⟩
  · obtain ⟨-, ⟨⟩⟩ | ⟨-, ho⟩ := update_eq_some ho
    exact hd.linkDigest other content ho
  · exact hd.backed other (update_none_ne ho).2

theorem Move.dirKept (hm : Move length dir job dir' job') (hd : dir.Kept digest)
    (hj : job.Kept digest dir) : dir'.Kept digest := by
  cases hm with
  | linkWhole | linkMissing | blobWhole | blobMissing | linkExists | rename | list =>
    exact ⟨hd.blobDigest, hd.linkDigest, hd.backed⟩
  | removeLink => exact hd.setLink_none _
  | unlinkLink => exact hd.setLink_none _
  | @writeBlob id blobs todo d content =>
    have hdig : digest content = d := hj.1 (d, content) (hj.2 mem_cons_self)
    refine ⟨?_, hd.linkDigest, ?_⟩
    · intro other file hf
      obtain ⟨rfl, ⟨⟩⟩ | ⟨-, hf⟩ := update_eq_some hf
      · exact hdig
      · exact hd.blobDigest other file hf
    · exact fun link hl => update_some_ne (hd.backed link hl)
  | @hardLink id blobs todo d content file hb hl =>
    refine ⟨hd.blobDigest, ?_, ?_⟩
    · intro link other ho
      obtain ⟨rfl, ⟨⟩⟩ | ⟨-, ho⟩ := update_eq_some ho
      · exact hd.blobDigest d file hb
      · exact hd.linkDigest link other ho
    · intro link ho
      by_cases hs : link = (id, d)
      · subst hs
        rw [show (dir.setLink (id, d) (some file)).blobs = dir.blobs from rfl, hb]
        exact Option.some_ne_none _
      · rw [Directory.setLink_of_ne hs] at ho
        exact hd.backed link ho
  | @unlinkBlob listed d unlinked =>
    refine ⟨?_, hd.linkDigest, ?_⟩
    · intro other file hf
      obtain ⟨-, ⟨⟩⟩ | ⟨-, hf⟩ := update_eq_some hf
      exact hd.blobDigest other file hf
    · intro link hl
      -- the links to a blob that no listed record names are gone before it
      have hne : link.2 ≠ d := by
        intro hs
        have hli := hj.spares d mem_cons_self link.1 (hs ▸ hl)
        exact not_mem_nil (hj.finds link hl hli)
      rw [Directory.setBlob_of_ne hne]
      exact hd.backed link hl

theorem Move.jobKept (hmo : Move length dir job dir' job') (hj : job.Kept digest dir) :
    job'.Kept digest dir' := by
  cases hmo with
  | linkWhole | hardLink | linkExists => exact ⟨hj.1, fun _ h => hj.2 (mem_cons_of_mem _ h)⟩
  | linkMissing | blobWhole | blobMissing | writeBlob | removeLink => exact hj
  | rename => trivial
  | list hlist hst hu =>
    refine ⟨?_, ?_, ?_, ?_⟩
    · intro link hl
      by_contra hlistId
      rw [Bool.not_eq_false] at hlistId
      exact (hlist link.1).mp hlistId ((hst link).mp hl).2
    · intro link hl hn
      refine (hst link).mpr ⟨hl, ?_⟩
      by_contra hr
      rw [(hlist link.1).mpr hr] at hn
      cases hn
    · intro d hd id hl
      by_contra hlistId
      rw [Bool.not_eq_false] at hlistId
      exact hl (((hu d).mp hd).2 id ((hlist id).mp hlistId))
    · intro d hb
      by_contra hn
      rw [not_or] at hn
      refine hn.1 ((hu d).mpr ⟨hb, fun id hr => ?_⟩)
      by_contra hl
      exact hn.2 ⟨id, (hlist id).mpr hr, hl⟩
  | @unlinkLink listed link stale unlinked =>
    refine ⟨fun other ho => hj.unlisted other (mem_cons_of_mem _ ho), ?_, ?_, ?_⟩
    · intro other ho hn
      obtain ⟨hs, ho⟩ := update_none_ne ho
      exact (mem_cons.mp (hj.finds other ho hn)).resolve_left hs
    · exact fun d hd id ho => hj.spares d hd id (update_none_ne ho).2
    · intro d hb
      rcases hj.covers d hb with hm | ⟨id, hlistId, hl⟩
      · exact .inl hm
      · refine .inr ⟨id, hlistId, ?_⟩
        rw [Directory.setLink_of_ne]
        · exact hl
        · rintro rfl
          rw [hj.unlisted _ mem_cons_self] at hlistId
          cases hlistId
  | @unlinkBlob listed d unlinked =>
    refine ⟨hj.unlisted, hj.finds, fun other ho => hj.spares other (mem_cons_of_mem _ ho), ?_⟩
    intro other hb
    obtain ⟨hs, hb⟩ := update_none_ne hb
    exact (hj.covers other hb).imp_left fun hm => (mem_cons.mp hm).resolve_left hs

theorem Shelf.put_calls (s : Shelf Id Digest Content Call) (call other : Call)
    (job : Job Id Digest Content) :
    (s.put call job).calls other = if other = call then some job else s.calls other :=
  Function.update_apply ..

theorem Shelf.Kept.put (hs : s.Kept digest) (hd : dir.Kept digest) (hj : job.Kept digest dir)
    (ho : ∀ other job', s.calls other = some job' → other ≠ call → job'.Kept digest dir ∧
      (job.exclusive = true → job'.exclusive = false ∧ job'.shared = false) ∧
      (job'.exclusive = true → job.exclusive = false ∧ job.shared = false)) :
    (Shelf.put { s with dir := dir } call job).Kept digest := by
  refine ⟨hd, ?_, ?_⟩
  · intro first job₁ second job₂ hf he hsnd hne
    obtain ⟨rfl, ⟨⟩⟩ | ⟨h₁, hfst⟩ := update_eq_some hf
    · have hsnd := (update_eq_some hsnd).resolve_left fun h => hne h.1
      exact (ho second job₂ hsnd.2 hne).2.1 he
    · obtain ⟨rfl, ⟨⟩⟩ | ⟨-, hsnd⟩ := update_eq_some hsnd
      · exact (ho first job₁ hfst h₁).2.2 he
      · exact hs.alone first job₁ second job₂ hfst he hsnd hne
  · intro other job' hoth
    obtain ⟨-, ⟨⟩⟩ | ⟨hsa, hoth⟩ := update_eq_some hoth
    · exact hj
    · exact (ho other job' hoth hsa).1

/-- Beside a call that holds the lock, the other calls do not look at links or
blobs, or only at their own contents. -/
theorem Job.Kept.frame (hj : job.Kept digest dir) (he : job.exclusive = false) :
    job.Kept digest dir' := by
  cases job with
  | unlinking => cases he
  | saving => exact hj
  | linking => exact hj
  | saved | collecting | listing | closed => trivial

theorem Shelf.Kept.move (hs : s.Kept digest) (hj : s.calls call = some job)
    (hm : Move length s.dir job dir job') :
    (Shelf.put { s with dir := dir } call job').Kept digest := by
  have hk := hs.jobs call job hj
  obtain ⟨hsh, he, hl⟩ := hm.flags
  refine hs.put (hm.dirKept hs.dir hk) (hm.jobKept hk) fun other job₂ ho hne => ?_
  have hn : job₂.exclusive = false := by
    by_contra ht
    rw [Bool.not_eq_false] at ht
    have hmi := hs.alone other job₂ call job ho ht hj (Ne.symm hne)
    rw [hmi.1, hmi.2] at hl
    simp at hl
  refine ⟨(hs.jobs other job₂ ho).frame hn, fun ht => ?_, fun ht => ?_⟩
  · rw [he] at ht
    exact hs.alone call job other job₂ hj ht ho hne
  · rw [hn] at ht
    cases ht

theorem Job.Kept.setRecord (hj : job.Kept digest dir) (id : Id) (record : Option (List Digest)) :
    job.Kept digest (dir.setRecord id record) := by
  cases job with
  | unlinking => exact ⟨hj.unlisted, hj.finds, hj.spares, hj.covers⟩
  | saving => exact hj
  | linking => exact hj
  | saved | collecting | listing | closed => trivial

theorem Shelf.Kept.setRecord (hs : s.Kept digest) (id : Id) (record : Option (List Digest)) :
    Shelf.Kept digest { s with dir := s.dir.setRecord id record } :=
  ⟨⟨hs.dir.blobDigest, hs.dir.linkDigest, hs.dir.backed⟩, hs.alone,
    fun call job hj => (hs.jobs call job hj).setRecord id record⟩

variable {s t : Shelf Id Digest Content Call}

variable {a : Deed Id Call}

theorem Shelf.Kept.step (hs : s.Kept digest) (hst : Act length digest s a t) : t.Kept digest := by
  cases hst with
  | startSave hn hb hd =>
    refine hs.put hs.dir hd fun other job' ho _ => ?_
    exact ⟨hs.jobs other job' ho, nofun, fun _ => ⟨rfl, rfl⟩⟩
  | startCollect =>
    refine hs.put hs.dir trivial fun other job' ho _ => ?_
    exact ⟨hs.jobs other job' ho, nofun, fun _ => ⟨rfl, rfl⟩⟩
  | lockShared hj hf =>
    refine hs.put hs.dir ⟨hs.jobs _ _ hj, fun _ h => h⟩ fun other job' ho _ => ?_
    refine ⟨hs.jobs other job' ho, nofun, fun h => ?_⟩
    rw [hf other job' ho] at h
    cases h
  | lockExclusive hj hf =>
    refine hs.put hs.dir trivial fun other job' ho _ => ?_
    refine ⟨hs.jobs other job' ho, fun _ => hf other job' ho, fun h => ?_⟩
    rw [(hf other job' ho).1] at h
    cases h
  | move hj hm => exact hs.move hj hm
  | leave =>
    refine hs.put hs.dir trivial fun other job' ho _ => ?_
    exact ⟨hs.jobs other job' ho, nofun, fun _ => ⟨rfl, rfl⟩⟩
  | savePlain => exact hs.setRecord _ _
  | remove => exact hs.setRecord _ _

/-! ### Records and their links -/

/-- What a call keeps about the links of records. -/
def Job.Named (dir : Directory Id Digest Content) : Job Id Digest Content → Prop
  | .linking id blobs todo stage =>
    (∀ d ∈ blobs.map Prod.fst, d ∉ todo.map Prod.fst → dir.links (id, d) ≠ none) ∧
      (stage ≠ .checkLink → ∀ digests blob, dir.records id = some digests →
        todo.head? = some blob → blob.1 ∉ digests)
  | .unlinking _ stale _ =>
    ∀ link ∈ stale, ∀ digests, dir.records link.1 = some digests → link.2 ∉ digests
  | _ => True

/-- Every digest a record lists has its link, and saves of one record that link
blobs have none in common. -/
structure Shelf.Named (s : Shelf Id Digest Content Call) : Prop where
  named : ∀ id digests, s.dir.records id = some digests → ∀ d ∈ digests, s.dir.links (id, d) ≠ none
  apart : ∀ call id blobs todo stage other blobs' todo' stage',
    s.calls call = some (.linking id blobs todo stage) →
    s.calls other = some (.linking id blobs' todo' stage') → other ≠ call →
    ∀ d ∈ blobs.map Prod.fst, d ∉ blobs'.map Prod.fst
  jobs : ∀ call job, s.calls call = some job → job.Named s.dir

variable {stage : Stage}

theorem Move.frame
    (hm : Move length dir (.linking id blobs todo stage) dir' job') (ht : todo ⊆ blobs) :
    (∀ link, (link.1 = id → link.2 ∉ blobs.map Prod.fst) → dir'.links link = dir.links link) ∧
      (∀ other, other ≠ id → dir'.records other = dir.records other) ∧
      (dir'.records id = dir.records id ∨ dir'.records id = some (blobs.map Prod.fst)) := by
  have hk : ∀ {d content rest}, todo = (d, content) :: rest → d ∈ blobs.map Prod.fst := by
    intro d content rest heq
    exact mem_map.mpr ⟨(d, content), ht (heq ▸ mem_cons_self), rfl⟩
  have hl : ∀ {d content rest file}, todo = (d, content) :: rest → ∀ link : Id × Digest,
      (link.1 = id → link.2 ∉ blobs.map Prod.fst) →
      (dir.setLink (id, d) file).links link = dir.links link := by
    intro d content rest file heq link hli
    rw [Directory.setLink_of_ne]
    rintro rfl
    exact hli rfl (hk heq)
  cases hm with
  | linkWhole | linkMissing | blobWhole | blobMissing | linkExists | writeBlob =>
    exact ⟨fun _ _ => rfl, fun _ _ => rfl, .inl rfl⟩
  | removeLink => exact ⟨hl rfl, fun _ _ => rfl, .inl rfl⟩
  | hardLink => exact ⟨hl rfl, fun _ _ => rfl, .inl rfl⟩
  | rename =>
    exact ⟨fun _ _ => rfl, fun _ h => Directory.setRecord_of_ne h, .inr (Directory.setRecord_self ..)⟩

theorem Move.othersNamed {id₂ : Id} {blobs₂ todo₂ : List (Digest × Content)}
    {stage₂ : Stage} (hmo : Move length dir (.linking id blobs todo stage) dir' job')
    (ht : todo ⊆ blobs) (ht₂ : todo₂ ⊆ blobs₂)
    (ha : id₂ = id → ∀ d ∈ blobs.map Prod.fst, d ∉ blobs₂.map Prod.fst)
    (hn : (Job.linking id₂ blobs₂ todo₂ stage₂).Named dir) :
    (Job.linking id₂ blobs₂ todo₂ stage₂).Named dir' := by
  obtain ⟨hl, hr, hrec⟩ := hmo.frame ht
  refine ⟨?_, ?_⟩
  · intro d hd hdo
    rw [hl (id₂, d) fun hs hm => ha hs d hm hd]
    exact hn.1 d hd hdo
  · intro hst digests blob hdi hb hm
    by_cases hs : id₂ = id
    · subst hs
      rcases hrec with hk | hnew
      · exact hn.2 hst digests blob (hk ▸ hdi) hb hm
      · rw [hnew] at hdi
        cases hdi
        have hkey : blob.1 ∈ blobs₂.map Prod.fst :=
          mem_map.mpr ⟨blob, ht₂ (mem_of_mem_head? hb), rfl⟩
        exact ha rfl blob.1 hm hkey
    · rw [hr id₂ hs] at hdi
      exact hn.2 hst digests blob hdi hb hm

theorem Move.recordsNamed (hm : Move length dir job dir' job') (hj : job.Named dir)
    (hn : ∀ id digests, dir.records id = some digests → ∀ d ∈ digests, dir.links (id, d) ≠ none) :
    ∀ id digests, dir'.records id = some digests → ∀ d ∈ digests, dir'.links (id, d) ≠ none := by
  intro id' digests hdi d hd
  cases hm with
  | linkWhole | linkMissing | blobWhole | blobMissing | linkExists | writeBlob | list | unlinkBlob =>
    exact hn id' digests hdi d hd
  | @removeLink id blobs todo d' content =>
    rw [Directory.setLink_of_ne]
    · exact hn id' digests hdi d hd
    · intro hs
      cases hs
      exact hj.2 nofun digests _ hdi rfl hd
  | @hardLink id blobs todo d' content file hb hl =>
    exact update_some_ne (hn id' digests hdi d hd)
  | @rename id blobs =>
    obtain ⟨rfl, ⟨⟩⟩ | ⟨-, hdi⟩ := update_eq_some hdi
    · exact hj.1 d hd not_mem_nil
    · exact hn id' digests hdi d hd
  | @unlinkLink listed link stale unlinked =>
    rw [Directory.setLink_of_ne]
    · exact hn id' digests hdi d hd
    · rintro rfl
      exact hj _ mem_cons_self digests hdi hd

theorem named_of_cons {d : Digest} (content : Content) (hl : dir.links (id, d) ≠ none)
    (hdo : ∀ d' ∈ blobs.map Prod.fst, d' ∉ ((d, content) :: todo).map Prod.fst →
      d' ≠ d → dir.links (id, d') ≠ none) (hst : stage = .checkLink) :
    (Job.linking id blobs todo stage).Named dir := by
  refine ⟨?_, fun h => absurd hst h⟩
  intro d' hd' hn
  by_cases hs : d' = d
  · exact hs ▸ hl
  · refine hdo d' hd' (fun hm => ?_) hs
    rw [map_cons, mem_cons] at hm
    exact hm.elim hs hn

/-- A save goes on with its links in place, and unlinks none that a record lists. -/
theorem Move.jobNamed (hi : Function.Injective digest) (hm : Move length dir job dir' job')
    (hdir : dir.Kept digest) (hk : job.Kept digest dir) (hj : job.Named dir)
    (hna : ∀ id digests, dir.records id = some digests → ∀ d ∈ digests, dir.links (id, d) ≠ none) :
    job'.Named dir' := by
  cases hm with
  | @linkWhole id blobs todo d content h =>
    refine named_of_cons content ?_ (fun d' hd' hn _ => hj.1 d' hd' hn) rfl
    intro hno
    rw [Whole, hno] at h
    cases h
  | @linkMissing id blobs todo d content h =>
    refine ⟨hj.1, fun _ digests blob hdigs hb hmem => ?_⟩
    cases hb
    -- the link of a listed digest holds the very content
    have hl := hna id digests hdigs d hmem
    obtain ⟨file, hf⟩ := Option.ne_none_iff_exists'.mp hl
    have hs : file = content :=
      hi ((hdir.linkDigest _ file hf).trans (hk.1 (d, content) (hk.2 mem_cons_self)).symm)
    exact h (by rw [Whole, hf, hs]; rfl)
  | blobWhole | blobMissing | writeBlob =>
    exact ⟨hj.1, fun _ => hj.2 nofun⟩
  | @removeLink id blobs todo d content =>
    refine ⟨?_, fun _ => hj.2 nofun⟩
    intro d' hd' hn
    rw [Directory.setLink_of_ne]
    · exact hj.1 d' hd' hn
    · intro hs
      cases hs
      exact hn mem_cons_self
  | @hardLink id blobs todo d content file hb hl =>
    have hse : (dir.setLink (id, d) (some file)).links (id, d) ≠ none := by
      rw [Directory.setLink_self]
      exact Option.some_ne_none _
    refine named_of_cons content hse (fun d' hd' hn hne => ?_) rfl
    rw [Directory.setLink_of_ne (fun h => hne (Prod.ext_iff.mp h).2)]
    exact hj.1 d' hd' hn
  | @linkExists id blobs todo d content hl =>
    exact named_of_cons content hl (fun d' hd' hn _ => hj.1 d' hd' hn) rfl
  | rename => trivial
  | list hli hst =>
    intro link hl digests hdigs
    rw [((hst link).mp hl).2] at hdigs
    cases hdigs
  | unlinkLink => exact fun link hl => hj link (mem_cons_of_mem _ hl)
  | unlinkBlob => exact fun link hl => absurd hl not_mem_nil

theorem Shelf.Named.put (hs : s.Named)
    (hn : ∀ id digests, dir.records id = some digests → ∀ d ∈ digests, dir.links (id, d) ≠ none)
    (hj : job.Named dir)
    (hoths : ∀ other job', s.calls other = some job' → other ≠ call → job'.Named dir)
    (ha : ∀ id blobs todo stage, job = .linking id blobs todo stage →
      ∀ other blobs' todo' stage', s.calls other = some (.linking id blobs' todo' stage') →
      other ≠ call → ∀ d ∈ blobs.map Prod.fst, d ∉ blobs'.map Prod.fst) :
    (Shelf.put { s with dir := dir } call job).Named := by
  refine ⟨hn, ?_, ?_⟩
  · intro first id blobs todo stage second blobs' todo' stage' hf hsnd hne d hd
    obtain ⟨rfl, ⟨⟩⟩ | ⟨h₁, hfst⟩ := update_eq_some hf
    · have hsnd := (update_eq_some hsnd).resolve_left fun h => hne h.1
      exact ha id blobs todo stage rfl second blobs' todo' stage' hsnd.2 hne d hd
    · obtain ⟨rfl, ⟨⟩⟩ | ⟨-, hsnd⟩ := update_eq_some hsnd
      · exact fun hm => ha id blobs' todo' stage' rfl first blobs todo stage hfst h₁ d hm hd
      · exact hs.apart first id blobs todo stage second blobs' todo' stage' hfst hsnd hne d hd
  · intro other job' ho
    obtain ⟨-, ⟨⟩⟩ | ⟨hsa, ho⟩ := update_eq_some ho
    · exact hj
    · exact hoths other job' ho hsa

theorem Move.linking (hm : Move length dir job dir' (.linking id blobs todo stage)) :
    ∃ todo' stage', job = .linking id blobs todo' stage' := by
  cases hm <;> exact ⟨_, _, rfl⟩

theorem Shelf.Named.move (hi : Function.Injective digest) (hs : s.Named)
    (hk : s.Kept digest) (hj : s.calls call = some job) (hm : Move length s.dir job dir job') :
    (Shelf.put { s with dir := dir } call job').Named := by
  have hmi := hs.jobs call job hj
  have hkeptJob := hk.jobs call job hj
  obtain ⟨-, -, hl⟩ := hm.flags
  refine hs.put (hm.recordsNamed hmi hs.named) (hm.jobNamed hi hk.dir hkeptJob hmi hs.named) ?_ ?_
  · intro other job₂ ho hne
    cases job₂ with
    | saving | saved | collecting | listing | closed => trivial
    | unlinking =>
      -- a collection that unlinks is alone with the lock
      have hf := hk.alone other _ call job ho rfl hj (Ne.symm hne)
      rw [hf.1, hf.2] at hl
      simp at hl
    | linking id₂ blobs₂ todo₂ stage₂ =>
      cases job with
      | saving | collecting | closed | saved => cases hm
      | listing => exact absurd (hk.alone call _ other _ hj rfl ho hne).2 (by simp [Job.shared])
      | unlinking => exact absurd (hk.alone call _ other _ hj rfl ho hne).2 (by simp [Job.shared])
      | linking id blobs todo stage =>
        refine hm.othersNamed hkeptJob.2 (hk.jobs other _ ho).2 ?_ (hs.jobs other _ ho)
        rintro rfl
        exact hs.apart call id₂ blobs todo stage other blobs₂ todo₂ stage₂ hj ho hne
  · rintro id blobs todo stage rfl other blobs' todo' stage' ho hne
    obtain ⟨todo₀, stage₀, rfl⟩ := hm.linking
    exact hs.apart call id blobs todo₀ stage₀ other blobs' todo' stage' hj ho hne

/-- No save of a record begins to link while another save of that record links a
common blob. -/
def Apart (s : Shelf Id Digest Content Call) : Deed Id Call → Prop
  | .lockShared call => ∀ id blobs, s.calls call = some (.saving id blobs) →
      ∀ other blobs' todo stage, s.calls other = some (.linking id blobs' todo stage) →
        ∀ d ∈ blobs.map Prod.fst, d ∉ blobs'.map Prod.fst
  | _ => True

theorem Shelf.Named.setRecord (hs : s.Named) (id : Id) {record : Option (List Digest)}
    (hp : ∀ digests, record = some digests → digests = []) :
    Shelf.Named { s with dir := s.dir.setRecord id record } := by
  have hk : ∀ other digests d, (s.dir.setRecord id record).records other = some digests →
      d ∈ digests → s.dir.records other = some digests := by
    intro other digests d hdi hd
    obtain ⟨-, hdi⟩ | ⟨-, hdi⟩ := update_eq_some hdi
    · rw [hp digests hdi] at hd
      cases hd
    · exact hdi
  refine ⟨fun other digests hdi d hd => ?_, hs.apart, fun call job hj => ?_⟩
  · exact hs.named other digests (hk other digests d hdi hd) d hd
  · have hn := hs.jobs call job hj
    cases job with
    | saving | saved | collecting | listing | closed => trivial
    | linking other =>
      refine ⟨hn.1, fun hst digests blob hdi hb hm => ?_⟩
      exact hn.2 hst digests blob (hk other digests blob.1 hdi hm) hb hm
    | unlinking =>
      intro link hl digests hdi hm
      exact hn link hl digests (hk link.1 digests link.2 hdi hm) hm

theorem Shelf.Named.step (hi : Function.Injective digest) (hs : s.Named) (hk : s.Kept digest)
    (hok : Apart s a) (hst : Act length digest s a t) : t.Named := by
  have hsa : ∀ other job', s.calls other = some job' → job'.Named s.dir :=
    fun other job' ho => hs.jobs other job' ho
  cases hst with
  | startSave =>
    exact hs.put hs.named trivial (fun other job' ho _ => hsa other job' ho) nofun
  | startCollect =>
    exact hs.put hs.named trivial (fun other job' ho _ => hsa other job' ho) nofun
  | @lockShared call id blobs hj hf =>
    refine hs.put hs.named ⟨fun d hd hnot => absurd hd hnot, fun h => absurd rfl h⟩
      (fun other job' ho _ => hsa other job' ho) ?_
    intro id' blobs' todo stage hl other blobs₂ todo₂ stage₂ ho hne
    cases hl
    exact hok id blobs hj other blobs₂ todo₂ stage₂ ho
  | lockExclusive =>
    exact hs.put hs.named trivial (fun other job' ho _ => hsa other job' ho) nofun
  | move hj hm => exact hs.move hi hk hj hm
  | leave =>
    exact hs.put hs.named trivial (fun other job' ho _ => hsa other job' ho) nofun
  | savePlain => exact hs.setRecord _ fun digests h => (by cases h; rfl)
  | remove => exact hs.setRecord _ nofun

/-! ### Every run -/

theorem shelves_kept (hs : (shelves length digest Id Call).Reachable s) : s.Kept digest := by
  refine hs.invariant ?_ fun _ _ _ hk hst => hk.step hst
  rintro s ⟨hr, hl, hb, hc⟩
  refine ⟨⟨?_, ?_, ?_⟩, ?_, ?_⟩
  · intro d content h
    rw [hb] at h
    cases h
  · intro link content h
    rw [hl] at h
    cases h
  · intro link h
    exact absurd (hl link) h
  · intro call job other job' h
    rw [hc] at h
    cases h
  · intro call job h
    rw [hc] at h
    cases h

theorem shelves_named (hi : Function.Injective digest)
    (hs : ((shelves length digest Id Call).restrict Apart).Reachable s) :
    s.Named ∧ s.Kept digest := by
  refine hs.invariant (I := fun s => s.Named ∧ s.Kept digest) ?_ ?_
  · intro s hstart
    have hr : (shelves length digest Id Call).Reachable s := .start hstart
    refine ⟨⟨?_, ?_, ?_⟩, shelves_kept hr⟩
    · intro id digests h
      rw [hstart.1] at h
      cases h
    · intro call id blobs todo stage other blobs' todo' stage' h
      rw [hstart.2.2.2] at h
      cases h
    · intro call job h
      rw [hstart.2.2.2] at h
      cases h
  · rintro s a t ⟨hn, hk⟩ ⟨hok, hstep⟩
    exact ⟨hn.step hi hk hok hstep, hk.step hstep⟩

theorem load_ne_missing
    (hna : ∀ digests, dir.records id = some digests → ∀ d ∈ digests, dir.links (id, d) ≠ none) :
    dir.load id ≠ some none := by
  intro hlo
  obtain ⟨digests, hdi, hm⟩ := Option.map_eq_some_iff.mp hlo
  have ha : ∀ rest : List Digest, (∀ d ∈ rest, dir.links (id, d) ≠ none) →
      rest.mapM (fun d => dir.links (id, d)) ≠ none := by
    intro rest
    induction rest with
    | nil => exact nofun
    | cons d rest ih =>
      intro hl hn
      obtain ⟨content, hco⟩ := Option.ne_none_iff_exists'.mp (hl d mem_cons_self)
      obtain ⟨contents, hc⟩ := Option.ne_none_iff_exists'.mp
        (ih fun d' hd' => hl d' (mem_cons_of_mem _ hd'))
      rw [mapM_cons, hco, hc] at hn
      cases hn
  exact ha digests (hna digests hdi) hm

/-- A collection that has made its last unlink leaves the blobs that a link of a
record it listed names. -/
theorem collected_blobs {listed : Id → Bool} (hs : s.Kept digest)
    (hj : s.calls call = some (.unlinking listed [] [])) (d : Digest) :
    s.dir.blobs d ≠ none ↔ ∃ id, listed id = true ∧ s.dir.links (id, d) ≠ none := by
  have hc : Collects s.dir listed [] [] := hs.jobs call _ hj
  constructor
  · intro hb
    exact (hc.covers d hb).resolve_left not_mem_nil
  · rintro ⟨id, _, hl⟩
    exact hs.dir.backed (id, d) hl

/-- No file step of a save and no deletion. -/
def Quiet (s : Shelf Id Digest Content Call) : Deed Id Call → Prop
  | .move call => ∀ job, s.calls call = some job → job.shared = false
  | .savePlain _ => False
  | .remove _ => False
  | _ => True

structure Shelf.Clean (s : Shelf Id Digest Content Call) : Prop where
  links : ∀ link, s.dir.links link ≠ none → s.dir.records link.1 ≠ none
  blobs : ∀ d, s.dir.blobs d ≠ none → ∃ id, s.dir.links (id, d) ≠ none
  jobs : ∀ call listed stale unlinked, s.calls call = some (.unlinking listed stale unlinked) →
    stale = [] ∧ unlinked = []

theorem Shelf.Clean.put (hs : s.Clean)
    (hj : ∀ listed stale unlinked, job = .unlinking listed stale unlinked →
      stale = [] ∧ unlinked = []) : (s.put call job).Clean := by
  refine ⟨hs.links, hs.blobs, fun other listed stale unlinked ho => ?_⟩
  obtain ⟨-, ⟨⟩⟩ | ⟨-, ho⟩ := update_eq_some ho
  · exact hj listed stale unlinked rfl
  · exact hs.jobs other listed stale unlinked ho

theorem Shelf.Clean.step (hs : s.Clean)
    (hq : Quiet s a) (hstep : Act length digest s a t) : t.Clean := by
  cases hstep with
  | startSave | startCollect | lockShared | lockExclusive | leave =>
    exact hs.put nofun
  | savePlain => exact hq.elim
  | remove => exact hq.elim
  | move hj hm =>
    have hsh := hq _ hj
    cases hm with
    | linkWhole | linkMissing | blobWhole | blobMissing | writeBlob | removeLink | hardLink
    | linkExists | rename => cases hsh
    | unlinkLink =>
      obtain ⟨hn, _⟩ := hs.jobs _ _ _ _ hj
      cases hn
    | unlinkBlob =>
      obtain ⟨_, hn⟩ := hs.jobs _ _ _ _ hj
      cases hn
    | list hli hstale hu =>
      refine hs.put fun listed stale unlinked h => ?_
      cases h
      refine ⟨eq_nil_iff_forall_not_mem.mpr fun link hl => ?_,
        eq_nil_iff_forall_not_mem.mpr fun d hd => ?_⟩
      · obtain ⟨hp, hg⟩ := (hstale link).mp hl
        exact hs.links link hp hg
      · obtain ⟨hb, hf⟩ := (hu d).mp hd
        obtain ⟨id, hl⟩ := hs.blobs d hb
        exact hl (hf id (hs.links (id, d) hl))

/-- A collection that ends with the records it listed in place leaves nothing to
collect. -/
theorem collected_clean {listed : Id → Bool} (hs : s.Kept digest)
    (hj : s.calls call = some (.unlinking listed [] []))
    (hp : ∀ id, listed id = true → s.dir.records id ≠ none) : s.Clean := by
  have hc : Collects s.dir listed [] [] := hs.jobs call _ hj
  refine ⟨?_, ?_, ?_⟩
  · intro link hl
    apply hp
    by_contra hn
    rw [Bool.not_eq_true] at hn
    exact not_mem_nil (hc.finds link hl hn)
  · intro d hb
    obtain ⟨id, _, hl⟩ := (collected_blobs hs hj d).mp hb
    exact ⟨id, hl⟩
  · intro other listed' stale unlinked ho
    by_cases hsa : other = call
    · subst hsa
      rw [hj] at ho
      cases ho
      exact ⟨rfl, rfl⟩
    · have hf := hs.alone call _ other _ hj rfl ho hsa
      cases hf.1

/-- When saves of one record that name a common blob do not overlap, every stored
record has a link of its own to each blob it lists; and a collection leaves exactly
the blobs that the records it listed name, so until the next save or deletion, if
none was deleted meanwhile, exactly those that stored records name. -/
theorem stored_blobs_kept (length : Content → Nat) (digest : Content → Digest)
    (hinjective : Function.Injective digest) : (∀ s : Shelf Id Digest Content Call,
      ((shelves length digest Id Call).restrict Apart).Reachable s → ∀ id,
        (∀ digests, s.dir.records id = some digests → ∀ d ∈ digests,
          ∃ content, s.dir.links (id, d) = some content ∧ digest content = d) ∧
        s.dir.load id ≠ some none) ∧
    ∀ (s : Shelf Id Digest Content Call) (call : Call) (listed : Id → Bool),
      (shelves length digest Id Call).Reachable s →
      s.calls call = some (.unlinking listed [] []) →
      (∀ d, s.dir.blobs d ≠ none ↔ ∃ id, listed id = true ∧ s.dir.links (id, d) ≠ none) ∧
      ((∀ id, listed id = true → s.dir.records id ≠ none) →
        ∀ actions t, ((shelves length digest Id Call).restrict Quiet).Run s actions t →
          ∀ d, t.dir.blobs d ≠ none ↔
            ∃ id, t.dir.records id ≠ none ∧ t.dir.links (id, d) ≠ none) := by
  refine ⟨?_, ?_⟩
  · intro s hs id
    obtain ⟨hn, hk⟩ := shelves_named hinjective hs
    refine ⟨?_, load_ne_missing (hn.named id)⟩
    intro digests hdi d hd
    obtain ⟨content, hco⟩ := Option.ne_none_iff_exists'.mp (hn.named id digests hdi d hd)
    exact ⟨content, hco, hk.dir.linkDigest (id, d) content hco⟩
  · intro s call listed hs hj
    have hk := shelves_kept hs
    refine ⟨collected_blobs hk hj, fun hp actions t hr d => ?_⟩
    obtain ⟨hc, hk'⟩ := hr.invariant (I := fun t => t.Clean ∧ t.Kept digest)
      (fun _ _ _ h hst => ⟨h.1.step hst.1 hst.2, h.2.step hst.2⟩)
      ⟨collected_clean hk hj hp, hk⟩
    constructor
    · intro hb
      obtain ⟨id, hl⟩ := hc.blobs d hb
      exact ⟨id, hc.links (id, d) hl, hl⟩
    · rintro ⟨id, _, hl⟩
      exact hk'.dir.backed (id, d) hl

end Steps

/-! ### One save, and two of one record -/

/-- The shelves of one record, with contents that are their own digests. -/
abbrev plainShelves : System (Shelf Unit (List Nat) (List Nat) Nat) (Deed Unit Nat) :=
  shelves List.length (fun content => content) Unit Nat

def Shelf.bare : Shelf Unit (List Nat) (List Nat) Nat :=
  ⟨⟨fun _ => none, fun _ => none, fun _ => none⟩, fun _ => none⟩

def sevens : List (List Nat × List Nat) := [([7], [7])]

def Shelf.at (s : Shelf Unit (List Nat) (List Nat) Nat) (call : Nat) (stage : Stage) :
    Shelf Unit (List Nat) (List Nat) Nat :=
  s.put call (.linking () sevens sevens stage)

theorem Shelf.free_put {s : Shelf Unit (List Nat) (List Nat) Nat} {call : Nat}
    {job : Job Unit (List Nat) (List Nat)} (hj : job.exclusive = false)
    (hf : ∀ other job, s.calls other = some job → job.exclusive = false) :
    ∀ other job', (s.put call job).calls other = some job' → job'.exclusive = false := by
  intro other job' ho
  obtain ⟨-, ⟨⟩⟩ | ⟨-, ho⟩ := update_eq_some ho
  · exact hj
  · exact hf other job' ho

theorem sevens_digests : ∀ blob ∈ sevens, (fun content : List Nat => content) blob.2 = blob.1 := by
  intro blob hb
  cases mem_singleton.mp hb
  rfl

theorem bare_free : ∀ other job, Shelf.bare.calls other = some job → job.exclusive = false := by
  intro other job ho
  cases ho

theorem one_save_reachable : ∃ s : Shelf Unit (List Nat) (List Nat) Nat,
    (plainShelves.restrict Apart).Reachable s ∧ s.dir.records () = some [[7]] ∧
      s.dir.links ((), [7]) = some [7] ∧ s.dir.blobs [7] = some [7] ∧
      (∀ d, d ≠ [7] → s.dir.blobs d = none) ∧ s.calls 0 = some .saved ∧
      ∀ call, call ≠ 0 → s.calls call = none := by
  let s₁ := Shelf.bare.put 0 (.saving () sevens)
  let s₂ := s₁.at 0 .checkLink
  let s₃ := s₂.at 0 .checkBlob
  let s₄ := s₃.at 0 .writeBlob
  let s₅ := Shelf.at { s₄ with dir := s₄.dir.setBlob [7] (some [7]) } 0 .removeLink
  let s₆ := Shelf.at { s₅ with dir := s₅.dir.setLink ((), [7]) none } 0 .hardLink
  let s₇ := Shelf.put { s₆ with dir := s₆.dir.setLink ((), [7]) (some [7]) } 0
    (.linking () sevens [] .checkLink)
  let s₈ := Shelf.put { s₇ with dir := s₇.dir.setRecord () (some [[7]]) } 0 .saved
  have hap : Apart s₁ (.lockShared 0) := by
    intro id blobs _ other blobs' todo stage ho
    obtain ⟨-, ⟨⟩⟩ | ⟨-, ⟨⟩⟩ := update_eq_some ho
  have hm : ∀ {s t : Shelf Unit (List Nat) (List Nat) Nat},
      (plainShelves.restrict Apart).Reachable s →
      Act length (fun content => content) s (.move 0) t →
      (plainShelves.restrict Apart).Reachable t :=
    fun hs ha => hs.step (a := .move 0) ⟨trivial, ha⟩
  have h₀ : (plainShelves.restrict Apart).Reachable Shelf.bare :=
    .start ⟨fun _ => rfl, fun _ => rfl, fun _ => rfl, fun _ => rfl⟩
  have h₁ : (plainShelves.restrict Apart).Reachable s₁ :=
    h₀.step (a := .startSave 0) ⟨trivial, .startSave rfl (cons_ne_nil _ _) sevens_digests⟩
  have h₂ : (plainShelves.restrict Apart).Reachable s₂ :=
    h₁.step ⟨hap, .lockShared rfl (Shelf.free_put rfl bare_free)⟩
  have h₃ : (plainShelves.restrict Apart).Reachable s₃ :=
    hm h₂ (.move rfl (.linkMissing nofun))
  have h₄ : (plainShelves.restrict Apart).Reachable s₄ :=
    hm h₃ (.move rfl (.blobMissing nofun))
  have h₅ : (plainShelves.restrict Apart).Reachable s₅ := hm h₄ (.move rfl .writeBlob)
  have h₆ : (plainShelves.restrict Apart).Reachable s₆ := hm h₅ (.move rfl .removeLink)
  have h₇ : (plainShelves.restrict Apart).Reachable s₇ := hm h₆ (.move rfl (.hardLink rfl rfl))
  have h₈ : (plainShelves.restrict Apart).Reachable s₈ := hm h₇ (.move rfl .rename)
  refine ⟨s₈, h₈, rfl, rfl, rfl, fun d hd => ?_, rfl, fun call hc => ?_⟩
  · exact Function.update_of_ne hd ..
  · simp [s₈, s₇, s₆, s₅, s₄, s₃, s₂, s₁, Shelf.at, Shelf.put_calls, hc, Shelf.bare]

theorem saved_record_keeps_blob : ∃ s : Shelf Unit (List Nat) (List Nat) Nat,
    (plainShelves.restrict Apart).Reachable s ∧ s.dir.records () = some [[7]] ∧
      ∃ content, s.dir.links ((), [7]) = some content ∧ content = [7] := by
  obtain ⟨s, hs, hr, _⟩ := one_save_reachable
  have hk := @stored_blobs_kept Unit (List Nat) (List Nat) Nat _ _ _ length
    (fun content => content) fun _ _ h => h
  exact ⟨s, hs, hr, (hk.1 s hs ()).1 [[7]] hr [7] (mem_singleton.mpr rfl)⟩

/-- Two saves of one record overlap: the second unlinks the link that the first gave
the stored record.  And a record deleted after a collection listed it leaves its
blob. -/
theorem overlapping_saves_lose_blob :
    (∃ s : Shelf Unit (List Nat) (List Nat) Nat, plainShelves.Reachable s ∧
      s.dir.records () = some [[7]] ∧ s.dir.links ((), [7]) = none ∧
      s.dir.load () = some none) ∧
    ∃ s : Shelf Unit (List Nat) (List Nat) Nat, plainShelves.Reachable s ∧
      s.calls 1 = some (.unlinking (fun _ => true) [] []) ∧ s.dir.blobs [7] ≠ none ∧
      ∀ id, s.dir.records id = none := by
  refine ⟨?_, ?_⟩
  · let s₁ := Shelf.bare.put 0 (.saving () sevens)
    let s₂ := s₁.put 1 (.saving () sevens)
    let s₃ := s₂.at 0 .checkLink
    let s₄ := s₃.at 1 .checkLink
    -- both find no link, and the first goes on to its record
    let s₅ := s₄.at 0 .checkBlob
    let s₆ := s₅.at 1 .checkBlob
    let s₇ := s₆.at 0 .writeBlob
    let s₈ := Shelf.at { s₇ with dir := s₇.dir.setBlob [7] (some [7]) } 0 .removeLink
    let s₉ := Shelf.at { s₈ with dir := s₈.dir.setLink ((), [7]) none } 0 .hardLink
    let s₁₀ := Shelf.put { s₉ with dir := s₉.dir.setLink ((), [7]) (some [7]) } 0
      (.linking () sevens [] .checkLink)
    let s₁₁ := Shelf.put { s₁₀ with dir := s₁₀.dir.setRecord () (some [[7]]) } 0 .saved
    let s₁₂ := s₁₁.at 1 .removeLink
    let s₁₃ := Shelf.at { s₁₂ with dir := s₁₂.dir.setLink ((), [7]) none } 1 .hardLink
    have hf : ∀ other job, s₂.calls other = some job → job.exclusive = false :=
      Shelf.free_put rfl (Shelf.free_put rfl bare_free)
    have h₀ : plainShelves.Reachable Shelf.bare :=
      .start ⟨fun _ => rfl, fun _ => rfl, fun _ => rfl, fun _ => rfl⟩
    have h₁ : plainShelves.Reachable s₁ :=
      h₀.step (.startSave rfl (cons_ne_nil _ _) sevens_digests)
    have h₂ : plainShelves.Reachable s₂ :=
      h₁.step (.startSave rfl (cons_ne_nil _ _) sevens_digests)
    have h₃ : plainShelves.Reachable s₃ := h₂.step (.lockShared rfl hf)
    have h₄ : plainShelves.Reachable s₄ :=
      h₃.step (.lockShared rfl (Shelf.free_put rfl hf))
    have h₅ : plainShelves.Reachable s₅ := h₄.step (.move rfl (.linkMissing nofun))
    have h₆ : plainShelves.Reachable s₆ := h₅.step (.move rfl (.linkMissing nofun))
    have h₇ : plainShelves.Reachable s₇ := h₆.step (.move rfl (.blobMissing nofun))
    have h₈ : plainShelves.Reachable s₈ := h₇.step (.move rfl .writeBlob)
    have h₉ : plainShelves.Reachable s₉ := h₈.step (.move rfl .removeLink)
    have h₁₀ : plainShelves.Reachable s₁₀ := h₉.step (.move rfl (.hardLink rfl rfl))
    have h₁₁ : plainShelves.Reachable s₁₁ := h₁₀.step (.move rfl .rename)
    have h₁₂ : plainShelves.Reachable s₁₂ := h₁₁.step (.move rfl (.blobWhole rfl))
    have h₁₃ : plainShelves.Reachable s₁₃ := h₁₂.step (.move rfl .removeLink)
    exact ⟨s₁₃, h₁₃, rfl, rfl, rfl⟩
  · obtain ⟨s, hs, hr, hl, hbl, hb, hsa, hc⟩ := one_save_reachable
    let t₁ := s.put 0 .closed
    let t₂ := t₁.put 1 .collecting
    let t₃ := t₂.put 1 .listing
    let t₄ := Shelf.put { t₃ with dir := t₃.dir } 1 (.unlinking (fun _ => true) [] [])
    let t₅ : Shelf Unit (List Nat) (List Nat) Nat := { t₄ with dir := t₄.dir.setRecord () none }
    have hf : ∀ other job, t₂.calls other = some job →
        job.exclusive = false ∧ job.shared = false := by
      intro other job ho
      obtain ⟨-, ⟨⟩⟩ | ⟨-, ho⟩ := update_eq_some ho
      · exact ⟨rfl, rfl⟩
      obtain ⟨-, ⟨⟩⟩ | ⟨hz, ho⟩ := update_eq_some ho
      · exact ⟨rfl, rfl⟩
      rw [hc other hz] at ho
      cases ho
    have hli : ∀ id, (fun _ => true) id = true ↔ s.dir.records id ≠ none := by
      intro id
      rw [hr]
      simp
    have hst : ∀ link, link ∈ ([] : List (Unit × List Nat)) ↔
        s.dir.links link ≠ none ∧ s.dir.records link.1 = none := by
      intro link
      rw [hr]
      simp
    have hu : ∀ d, d ∈ ([] : List (List Nat)) ↔ s.dir.blobs d ≠ none ∧
        ∀ id, s.dir.records id ≠ none → s.dir.links (id, d) = none := by
      intro d
      refine iff_of_false not_mem_nil ?_
      rintro ⟨hp, hn⟩
      by_cases hd : d = [7]
      · subst hd
        have hg := hn () (by rw [hr]; exact Option.some_ne_none _)
        rw [hl] at hg
        cases hg
      · exact hp (hb d hd)
    have h₁ : plainShelves.Reachable t₁ := hs.of_restrict.step (.leave hsa)
    have h₂ : plainShelves.Reachable t₂ := h₁.step (.startCollect (hc 1 Nat.one_ne_zero))
    have h₃ : plainShelves.Reachable t₃ := h₂.step (.lockExclusive rfl hf)
    have h₄ : plainShelves.Reachable t₄ := h₃.step (.move rfl (.list hli hst hu))
    have h₅ : plainShelves.Reachable t₅ := h₄.step .remove
    refine ⟨t₅, h₅, rfl, ?_, fun _ => rfl⟩
    show s.dir.blobs [7] ≠ none
    rw [hbl]
    exact Option.some_ne_none _

end LocalAi.Store
