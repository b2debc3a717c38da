import LocalAi.Admin.Keys
import Mathlib.Data.List.Nodup

/-!
# Access follows the life of keys

What a history of administrative operations did, and that the check grants exactly what
is still alive in it.

* `Op`, `perform`: an operation and what it did; one that fails changes nothing.
* `Tells`: the tables hold only what their history says.
* `check_grants_live`.
-/

open List

namespace LocalAi.Admin

open Lib (ensure ensure_eq_ok bind_eq_ok elim_eq_ok mapError_eq_ok)

variable {Tag : Type}

/-! ### Histories -/

/-- An operation of the store, with the random values and the time it runs at. -/
inductive Op
  | disableAuth
  | enableAuth (now : Int)
  | createAdminKey (name : Text) (expiresIn : Option Int) (now : Int) (random : Randomness) (id : Text)
  | deleteAdminKey (id : Text)
  | createProject (name : Text) (externalKeyId : Option Text) (now : Int) (id : Text)
  | modifyProject (id : Text) (name : Option Text) (externalKeyId : Option (Option Text))
  | archiveProject (id : Text) (now : Int)
  | createServiceAccount (projectId name : Text) (createOnly : Bool) (expiresIn : Option Int)
      (now : Int) (id : Text) (random : Randomness) (keyId : Text)
  | updateServiceAccount (projectId id : Text) (name : Option Text) (role : Option Role)
  | deleteServiceAccount (projectId id : Text)
  | createServiceAccountKey (projectId accountId : Text) (name : Option Text)
      (expiresIn : Option Int) (now : Int) (random : Randomness) (id : Text)
  | deleteProjectKey (projectId id : Text)
  | touch (kind : KeyKind) (id : Text) (now : Int)

/-- What an operation did; a created key has its plaintext. -/
inductive Event
  | authEnabled
  | authDisabled
  | adminKeyCreated (id token : Text) (expiresAt : Option Int)
  | adminKeyDeleted (id : Text)
  | projectArchived (id : Text)
  | accountDeleted (id : Text)
  | projectKeyCreated (id token projectId accountId : Text) (expiresAt : Option Int)
  | projectKeyDeleted (id : Text)

def ProjectKey.created (row : ProjectKey Tag) (token : Text) : Event :=
  .projectKeyCreated row.id token row.projectId row.serviceAccountId row.expiresAt

def Op.run (hmac : Bytes → Text → Tag) (db : Db Tag) : Op → Except Error (List Event × Db Tag)
  | .disableAuth => pure ([.authDisabled], db.disableAuth)
  | .enableAuth now => do pure ([.authEnabled], ← db.enableAuth now)
  | .createAdminKey name expiresIn now random id => do
    let (row, token, db) ← db.createAdminKey hmac name expiresIn now random id
    pure ([.adminKeyCreated row.id token row.expiresAt], db)
  | .deleteAdminKey id => do pure ([.adminKeyDeleted id], ← db.deleteAdminKey id)
  | .createProject name externalKeyId now id => do
    pure ([], ← db.createProject name externalKeyId now id)
  | .modifyProject id name externalKeyId => do pure ([], ← db.modifyProject id name externalKeyId)
  | .archiveProject id now => do pure ([.projectArchived id], ← db.archiveProject id now)
  | .createServiceAccount projectId name createOnly expiresIn now id random keyId => do
    let (key, db) ← db.createServiceAccount hmac projectId name createOnly expiresIn now id random keyId
    pure ((key.map fun key => key.1.created key.2).toList, db)
  | .updateServiceAccount projectId id name role => do
    pure ([], ← db.updateServiceAccount projectId id name role)
  | .deleteServiceAccount projectId id => do
    pure ([.accountDeleted id], ← db.deleteServiceAccount projectId id)
  | .createServiceAccountKey projectId accountId name expiresIn now random id => do
    let (row, token, db) ← db.createServiceAccountKey hmac projectId accountId name expiresIn now random id
    pure ([row.created token], db)
  | .deleteProjectKey projectId id => do
    pure ([.projectKeyDeleted id], ← db.deleteProjectKey projectId id)
  | .touch kind id now => pure ([], db.touch kind id now)

/-- The tables and the events after a history; a failed operation leaves both. -/
def perform (hmac : Bytes → Text → Tag) (past : List Event × Db Tag) (op : Op) :
    List Event × Db Tag :=
  match op.run hmac past.2 with
  | .ok (events, db) => (past.1 ++ events, db)
  | .error _ => past

def after (hmac : Bytes → Text → Tag) (history : List Op) : List Event × Db Tag :=
  history.foldl (perform hmac) ([], .initial)

/-! ### What a history says -/

def unexpired (expiresAt : Option Int) (now : Int) : Prop := ∀ instant, expiresAt = some instant → now < instant

/-- Authentication is on: an admin key was created, or it was enabled, since it was last
disabled. -/
def authOn (events : List Event) : Bool :=
  events.foldl (fun on event =>
    match event with
    | .authEnabled | .adminKeyCreated _ _ _ => true
    | .authDisabled => false
    | _ => on) false

def LiveAdminKey (events : List Event) (id token : Text) (expiresAt : Option Int) : Prop :=
  ∃ before later, events = before ++ .adminKeyCreated id token expiresAt :: later ∧
    .adminKeyDeleted id ∉ later

/-- `token` is the plaintext of project key `id`; neither it nor its service account was
deleted since. -/
def LiveProjectKey (events : List Event) (id token projectId accountId : Text)
    (expiresAt : Option Int) : Prop :=
  ∃ before later, events = before ++ .projectKeyCreated id token projectId accountId expiresAt :: later ∧
    .projectKeyDeleted id ∉ later ∧ .accountDeleted accountId ∉ later

variable {expiresAt : Option Int} {token accountId : Text} {now : Int}

theorem LiveAdminKey.append {events more : List Event} {id : Text}
    (h : LiveAdminKey events id token expiresAt) (hk : .adminKeyDeleted id ∉ more) :
    LiveAdminKey (events ++ more) id token expiresAt := by
  obtain ⟨before, later, rfl, hl⟩ := h
  refine ⟨before, later ++ more, by simp, ?_⟩
  simp [hl, hk]

theorem LiveProjectKey.append {events more : List Event} {id projectId : Text}
    (h : LiveProjectKey events id token projectId accountId expiresAt)
    (hk : .projectKeyDeleted id ∉ more) (ha : .accountDeleted accountId ∉ more) :
    LiveProjectKey (events ++ more) id token projectId accountId expiresAt := by
  obtain ⟨before, later, rfl, hkey, hl⟩ := h
  refine ⟨before, later ++ more, by simp, ?_, ?_⟩
  · simp [hkey, hk]
  · simp [hl, ha]

theorem LiveAdminKey.new (events : List Event) (id token : Text) (expiresAt : Option Int) :
    LiveAdminKey (events ++ [.adminKeyCreated id token expiresAt]) id token expiresAt :=
  ⟨events, [], rfl, not_mem_nil⟩

theorem LiveProjectKey.new (events : List Event) (id token projectId accountId : Text)
    (expiresAt : Option Int) :
    LiveProjectKey (events ++ [.projectKeyCreated id token projectId accountId expiresAt]) id token
      projectId accountId expiresAt :=
  ⟨events, [], rfl, not_mem_nil, not_mem_nil⟩

theorem authOn_of_created {before later : List Event} {id : Text} (hl : .authDisabled ∉ later) :
    authOn (before ++ .adminKeyCreated id token expiresAt :: later) = true := by
  rw [authOn, foldl_append, foldl_cons]
  induction later with
  | nil => rfl
  | cons event later ih =>
    have hn : event ≠ .authDisabled := fun heq => hl (heq ▸ mem_cons_self)
    rw [foldl_cons]
    cases event with
    | authDisabled => exact absurd rfl hn
    | _ => exact ih fun hm => hl (mem_cons_of_mem _ hm)

/-! ### Tables and their history -/

structure Tells (hmac : Bytes → Text → Tag) (past : List Event × Db Tag) : Prop where
  auth : past.2.authEnabled = authOn past.1
  adminKeys : ∀ row ∈ past.2.adminKeys, ∃ token, row.tag = hmac row.salt token ∧
    LiveAdminKey past.1 row.id token row.expiresAt
  projectKeys : ∀ row ∈ past.2.projectKeys, ∃ token, row.tag = hmac row.salt token ∧
    LiveProjectKey past.1 row.id token row.projectId row.serviceAccountId row.expiresAt
  archived : ∀ project ∈ past.2.projects, project.archivedAt = none →
    .projectArchived project.id ∉ past.1
  known : ∀ id, .projectArchived id ∈ past.1 → ∃ project ∈ past.2.projects, project.id = id
  projectIds : (past.2.projects.map Project.id).Nodup
  keyIds : (past.2.projectKeys.map ProjectKey.id).Nodup

section Steps

variable {hmac : Bytes → Text → Tag} {past : List Event × Db Tag} {db : Db Tag} {events : List Event}

theorem Tells.keepAdminKeys (h : Tells hmac past) {rows : List (AdminKey Tag)}
    (hr : ∀ row ∈ rows, ∃ old ∈ past.2.adminKeys, old.id = row.id ∧ old.salt = row.salt ∧
      old.tag = row.tag ∧ old.expiresAt = row.expiresAt)
    (hk : ∀ row ∈ rows, .adminKeyDeleted row.id ∉ events) :
    ∀ row ∈ rows, ∃ token, row.tag = hmac row.salt token ∧
      LiveAdminKey (past.1 ++ events) row.id token row.expiresAt := by
  intro row hrow
  obtain ⟨old, hold, hid, hs, htag, he⟩ := hr row hrow
  obtain ⟨token, ht, hl⟩ := h.adminKeys old hold
  rw [hid, he] at hl
  rw [hs, htag] at ht
  exact ⟨token, ht, hl.append (hk row hrow)⟩

theorem Tells.sameAdminKeys (h : Tells hmac past) (hk : ∀ id, .adminKeyDeleted id ∉ events) :
    ∀ row ∈ past.2.adminKeys, ∃ token, row.tag = hmac row.salt token ∧
      LiveAdminKey (past.1 ++ events) row.id token row.expiresAt :=
  h.keepAdminKeys (fun row hr => ⟨row, hr, rfl, rfl, rfl, rfl⟩) fun row _ => hk row.id

theorem Tells.keepProjectKeys (h : Tells hmac past) {rows : List (ProjectKey Tag)}
    (hro : ∀ row ∈ rows, ∃ old ∈ past.2.projectKeys, old.id = row.id ∧ old.salt = row.salt ∧
      old.tag = row.tag ∧ old.expiresAt = row.expiresAt ∧ old.projectId = row.projectId ∧
      old.serviceAccountId = row.serviceAccountId)
    (hk : ∀ row ∈ rows, .projectKeyDeleted row.id ∉ events ∧
      .accountDeleted row.serviceAccountId ∉ events) :
    ∀ row ∈ rows, ∃ token, row.tag = hmac row.salt token ∧
      LiveProjectKey (past.1 ++ events) row.id token row.projectId row.serviceAccountId
        row.expiresAt := by
  intro row hr
  obtain ⟨old, hold, hid, hs, htag, he, hp, ha⟩ := hro row hr
  obtain ⟨token, ht, hl⟩ := h.projectKeys old hold
  rw [hid, he, hp, ha] at hl
  rw [hs, htag] at ht
  exact ⟨token, ht, hl.append (hk row hr).1 (hk row hr).2⟩

theorem Tells.sameProjectKeys (h : Tells hmac past)
    (hk : ∀ id, .projectKeyDeleted id ∉ events ∧ .accountDeleted id ∉ events) :
    ∀ row ∈ past.2.projectKeys, ∃ token, row.tag = hmac row.salt token ∧
      LiveProjectKey (past.1 ++ events) row.id token row.projectId row.serviceAccountId
        row.expiresAt :=
  h.keepProjectKeys (fun row hr => ⟨row, hr, rfl, rfl, rfl, rfl, rfl, rfl⟩)
    fun row _ => ⟨(hk row.id).1, (hk row.serviceAccountId).2⟩

theorem Tells.sameArchived (h : Tells hmac past) (hk : ∀ id, .projectArchived id ∉ events) :
    ∀ project ∈ past.2.projects, project.archivedAt = none →
      .projectArchived project.id ∉ past.1 ++ events := by
  intro project hp hn hm
  rcases mem_append.mp hm with hm | hm
  · exact h.archived project hp hn hm
  · exact hk project.id hm

theorem Tells.sameKnown (h : Tells hmac past) (hk : ∀ id, .projectArchived id ∉ events) :
    ∀ id, .projectArchived id ∈ past.1 ++ events → ∃ project ∈ past.2.projects, project.id = id := by
  intro id hm
  rcases mem_append.mp hm with hm | hm
  · exact h.known id hm
  · exact absurd hm (hk id)

theorem authOn_append (events more : List Event) :
    authOn (events ++ more) = more.foldl (fun on event =>
      match event with
      | .authEnabled | .adminKeyCreated _ _ _ => true
      | .authDisabled => false
      | _ => on) (authOn events) := by
  rw [authOn, foldl_append]
  rfl

theorem Tells.happen (h : Tells hmac past) {on : Bool} (ha : on = authOn (past.1 ++ events))
    (hk : ∀ id, .adminKeyDeleted id ∉ events ∧ .projectKeyDeleted id ∉ events ∧
      .accountDeleted id ∉ events ∧ .projectArchived id ∉ events) :
    Tells hmac (past.1 ++ events, { past.2 with authEnabled := on }) where
  auth := ha
  adminKeys := h.sameAdminKeys fun id => (hk id).1
  projectKeys := h.sameProjectKeys fun id => ⟨(hk id).2.1, (hk id).2.2.1⟩
  archived := h.sameArchived fun id => (hk id).2.2.2
  known := h.sameKnown fun id => (hk id).2.2.2
  projectIds := h.projectIds
  keyIds := h.keyIds

theorem Tells.disableAuth (h : Tells hmac past) :
    Tells hmac (past.1 ++ [.authDisabled], past.2.disableAuth) :=
  h.happen (by rw [authOn_append]; rfl) (by simp)

theorem Tells.enableAuth (h : Tells hmac past) (hr : past.2.enableAuth now = .ok db) :
    Tells hmac (past.1 ++ [.authEnabled], db) := by
  simp only [Db.enableAuth, bind_eq_ok] at hr
  obtain ⟨-, -, hdb⟩ := hr
  cases hdb
  exact h.happen (by rw [authOn_append]; rfl) (by simp)

variable {id projectId : Text}

variable {expiresIn : Option Int} {name : Text} {random : Randomness}

theorem Tells.createAdminKey (h : Tells hmac past) {row : AdminKey Tag}
    (hrun : past.2.createAdminKey hmac name expiresIn now random id = .ok (row, token, db)) :
    Tells hmac (past.1 ++ [.adminKeyCreated row.id token row.expiresAt], db) := by
  simp only [Db.createAdminKey, Db.insertAdminKey, bind_eq_ok] at hrun
  obtain ⟨-, -, expiresAt, -, db', ⟨-, -, hi⟩, hdb⟩ := hrun
  cases hi
  cases hdb
  refine { h.happen (by rw [authOn_append]; rfl) (by simp) with adminKeys := ?_ }
  intro row hr
  rcases mem_append.mp hr with hr | hr
  · exact h.sameAdminKeys (by simp) row hr
  · rw [mem_singleton.mp hr]
    exact ⟨_, rfl, LiveAdminKey.new _ _ _ _⟩

theorem Tells.deleteAdminKey (h : Tells hmac past) (hrun : past.2.deleteAdminKey id = .ok db) :
    Tells hmac (past.1 ++ [.adminKeyDeleted id], db) := by
  simp only [Db.deleteAdminKey, bind_eq_ok] at hrun
  obtain ⟨-, -, hdb⟩ := hrun
  cases hdb
  refine
    { auth := h.auth.trans (by rw [authOn_append]; rfl)
      adminKeys := h.keepAdminKeys ?_ ?_
      projectKeys := h.sameProjectKeys (by simp)
      archived := h.sameArchived (by simp)
      known := h.sameKnown (by simp)
      projectIds := h.projectIds
      keyIds := h.keyIds }
  · intro row hr
    exact ⟨row, (mem_filter.mp hr).1, rfl, rfl, rfl, rfl⟩
  · intro row hr
    have hne := (mem_filter.mp hr).2
    simpa using hne

theorem Tells.createProject (h : Tells hmac past) {externalKeyId : Option Text}
    (hr : past.2.createProject name externalKeyId now id = .ok db) :
    Tells hmac (past.1 ++ [], db) := by
  simp only [Db.createProject, Db.insertProject, bind_eq_ok, ensure_eq_ok] at hr
  obtain ⟨-, -, -, hn, hdb⟩ := hr
  cases hdb
  refine { h.happen (h.auth.trans (by rw [authOn_append]; rfl)) (by simp) with
    archived := ?_, known := ?_, projectIds := ?_ }
  · intro project hp hno
    rcases mem_append.mp hp with hp | hp
    · exact h.sameArchived (by simp) project hp hno
    · rw [mem_singleton.mp hp, append_nil]
      intro ha
      obtain ⟨other, ho, hid⟩ := h.known id ha
      have hne := all_eq_true.mp hn other ho
      simp only [ne_eq, decide_eq_true_eq] at hne
      exact hne hid
  · intro id ha
    obtain ⟨project, hp, hid⟩ := h.sameKnown (by simp) id ha
    exact ⟨project, mem_append_left _ hp, hid⟩
  · rw [map_append]
    refine nodup_append.mpr ⟨h.projectIds, nodup_singleton _, ?_⟩
    intro other ho id' hid' heq
    obtain ⟨project, hp, rfl⟩ := mem_map.mp ho
    have hne := all_eq_true.mp hn project hp
    simp only [ne_eq, decide_eq_true_eq] at hne
    exact hne (heq.trans (mem_singleton.mp hid'))

theorem Tells.mapProjects (h : Tells hmac past) (f : Project → Project)
    (hid : ∀ project, (f project).id = project.id)
    (hp : ∀ project, (f project).archivedAt = none → project.archivedAt = none ∧
      .projectArchived project.id ∉ events)
    (hk : ∀ id, .projectArchived id ∈ events → ∃ project ∈ past.2.projects, project.id = id)
    (hau : authOn (past.1 ++ events) = authOn past.1) (hadmin : ∀ id, .adminKeyDeleted id ∉ events)
    (hke : ∀ id, .projectKeyDeleted id ∉ events ∧ .accountDeleted id ∉ events) :
    Tells hmac (past.1 ++ events, { past.2 with projects := past.2.projects.map f }) where
  auth := h.auth.trans hau.symm
  adminKeys := h.sameAdminKeys hadmin
  projectKeys := h.sameProjectKeys hke
  projectIds := by
    rw [map_map]
    have hs : Project.id ∘ f = Project.id := funext hid
    rw [hs]
    exact h.projectIds
  keyIds := h.keyIds
  archived := by
    intro project hm hn ha
    obtain ⟨old, hold, rfl⟩ := mem_map.mp hm
    rw [hid] at ha
    obtain ⟨hold_none, he⟩ := hp old hn
    rcases mem_append.mp ha with ha | ha
    · exact h.archived old hold hold_none ha
    · exact he ha
  known := by
    intro id ha
    have hf : ∃ project ∈ past.2.projects, project.id = id := by
      rcases mem_append.mp ha with ha | ha
      · exact h.known id ha
      · exact hk id ha
    obtain ⟨project, hm, rfl⟩ := hf
    exact ⟨f project, mem_map_of_mem hm, hid project⟩

theorem Tells.modifyProject (h : Tells hmac past) {name : Option Text}
    {externalKeyId : Option (Option Text)}
    (hr : past.2.modifyProject id name externalKeyId = .ok db) : Tells hmac (past.1 ++ [], db) := by
  simp only [Db.modifyProject, bind_eq_ok] at hr
  obtain ⟨-, -, -, -, -, -, hdb⟩ := hr
  cases hdb
  refine h.mapProjects _ ?_ ?_ (by simp) (by simp) (by simp) (by simp)
  · intro project
    split
    · rfl
    · rfl
  · intro project hn
    refine ⟨?_, by simp⟩
    split at hn
    · exact hn
    · exact hn

theorem Db.projectById_eq_ok {project : Project} (h : db.projectById id = .ok project) :
    project ∈ db.projects ∧ project.id = id := by
  have hf := elim_eq_ok.mp h
  exact ⟨mem_of_find?_eq_some hf, by simpa using find?_some hf⟩

theorem Tells.archiveProject (h : Tells hmac past) (hr : past.2.archiveProject id now = .ok db) :
    Tells hmac (past.1 ++ [.projectArchived id], db) := by
  simp only [Db.archiveProject, bind_eq_ok] at hr
  obtain ⟨current, hc, hdb⟩ := hr
  obtain ⟨hm, hid⟩ := Db.projectById_eq_ok hc
  have hk : ∀ id', .projectArchived id' ∈ [Event.projectArchived id] →
      ∃ project ∈ past.2.projects, project.id = id' := by
    intro id' hev
    rw [mem_singleton] at hev
    cases hev
    exact ⟨current, hm, hid⟩
  split at hdb
  · next ha =>
    cases hdb
    have hau : authOn (past.1 ++ [.projectArchived id]) = authOn past.1 := by
      rw [authOn_append]
      rfl
    refine
      { auth := h.auth.trans hau.symm
        adminKeys := h.sameAdminKeys (by simp)
        projectKeys := h.sameProjectKeys (by simp)
        archived := ?_
        known := ?_
        projectIds := h.projectIds
        keyIds := h.keyIds }
    · intro project hp hn hev
      rcases mem_append.mp hev with hev | hev
      · exact h.archived project hp hn hev
      · rw [mem_singleton, Event.projectArchived.injEq] at hev
        have hs : project = current :=
          inj_on_of_nodup_map h.projectIds hp hm (hev.trans hid.symm)
        rw [← hs, hn] at ha
        cases ha
    · intro id' hev
      rcases mem_append.mp hev with hev | hev
      · exact h.known id' hev
      · exact hk id' hev
  · cases hdb
    refine h.mapProjects _ ?_ ?_ hk (by rw [authOn_append]; rfl) (by simp) (by simp)
    · intro project
      split
      · rfl
      · rfl
    · intro project hn
      split at hn
      · cases hn
      · next hne => exact ⟨hn, by simpa using hne⟩

theorem Tells.insertProjectKey (h : Tells hmac past) {accounts : List ServiceAccount}
    {row : ProjectKey Tag}
    (hrun : ({ past.2 with serviceAccounts := accounts } : Db Tag).insertProjectKey hmac projectId
      accountId name expiresIn now random id = .ok (row, token, db)) :
    Tells hmac (past.1 ++ [row.created token], db) := by
  simp only [Db.insertProjectKey, Db.insertProjectKeyRow, bind_eq_ok, ensure_eq_ok] at hrun
  obtain ⟨expiresAt, -, db', ⟨-, hnew, -, -, -, -, hins⟩, hdb⟩ := hrun
  cases hins
  cases hdb
  refine { h.happen (h.auth.trans (by rw [authOn_append]; rfl)) (by simp [ProjectKey.created]) with
    projectKeys := ?_, keyIds := ?_ }
  · intro row hr
    rcases mem_append.mp hr with hr | hr
    · exact h.sameProjectKeys (by simp [ProjectKey.created]) row hr
    · rw [mem_singleton.mp hr]
      exact ⟨_, rfl, LiveProjectKey.new _ _ _ _ _ _⟩
  · rw [map_append]
    refine nodup_append.mpr ⟨h.keyIds, nodup_singleton _, ?_⟩
    intro other hoth id' hid' heq
    obtain ⟨old, hold, rfl⟩ := mem_map.mp hoth
    have hne := all_eq_true.mp hnew old hold
    simp only [ne_eq, decide_eq_true_eq] at hne
    exact hne.1 (heq.trans (mem_singleton.mp hid'))

theorem Tells.accounts (h : Tells hmac past) (accounts : List ServiceAccount) :
    Tells hmac (past.1 ++ [], { past.2 with serviceAccounts := accounts }) :=
  { h.happen (h.auth.trans (by rw [authOn_append]; rfl)) (by simp) with }

theorem Tells.createServiceAccount (h : Tells hmac past) {keyId : Text} {createOnly : Bool}
    {key : Option (ProjectKey Tag × Text)}
    (hr : past.2.createServiceAccount hmac projectId name createOnly expiresIn now id random keyId
      = .ok (key, db)) :
    Tells hmac (past.1 ++ (key.map fun key => key.1.created key.2).toList, db) := by
  simp only [Db.createServiceAccount, Db.insertServiceAccount, bind_eq_ok, ensure_eq_ok] at hr
  obtain ⟨-, -, -, -, project, -, db', ⟨-, -, -, -, hi⟩, hdb⟩ := hr
  cases hi
  split at hdb
  · cases hdb
    exact h.accounts _
  · obtain ⟨⟨row, token, db''⟩, hk, hdb⟩ := bind_eq_ok.mp hdb
    cases hdb
    exact h.insertProjectKey hk

theorem Tells.updateServiceAccount (h : Tells hmac past) {name : Option Text} {role : Option Role}
    (hr : past.2.updateServiceAccount projectId id name role = .ok db) :
    Tells hmac (past.1 ++ [], db) := by
  simp only [Db.updateServiceAccount, bind_eq_ok] at hr
  obtain ⟨-, -, -, -, -, -, -, -, hdb⟩ := hr
  cases hdb
  exact h.accounts _

theorem Tells.createServiceAccountKey (h : Tells hmac past) {name : Option Text}
    {row : ProjectKey Tag} (hr : past.2.createServiceAccountKey hmac projectId accountId name
      expiresIn now random id = .ok (row, token, db)) :
    Tells hmac (past.1 ++ [row.created token], db) := by
  simp only [Db.createServiceAccountKey, bind_eq_ok] at hr
  obtain ⟨-, -, project, -, -, -, hk⟩ := hr
  exact h.insertProjectKey hk

theorem Tells.deleteKeys (h : Tells hmac past) (accounts : List ServiceAccount)
    {keep : ProjectKey Tag → Bool} {event : Event} (hau : authOn (past.1 ++ [event]) = authOn past.1)
    (ho : (∀ id, event ≠ .adminKeyDeleted id) ∧ ∀ id, event ≠ .projectArchived id)
    (hkept : ∀ row ∈ past.2.projectKeys, keep row = true → event ≠ .projectKeyDeleted row.id ∧
      event ≠ .accountDeleted row.serviceAccountId) : Tells hmac (past.1 ++ [event],
      { past.2 with serviceAccounts := accounts, projectKeys := past.2.projectKeys.filter keep }) where
  auth := h.auth.trans hau.symm
  adminKeys := h.sameAdminKeys fun id hm => ho.1 id (mem_singleton.mp hm).symm
  projectKeys := by
    refine h.keepProjectKeys ?_ ?_
    · intro row hr
      exact ⟨row, (mem_filter.mp hr).1, rfl, rfl, rfl, rfl, rfl, rfl⟩
    · intro row hr
      obtain ⟨hm, hk⟩ := mem_filter.mp hr
      obtain ⟨hkey, ha⟩ := hkept row hm hk
      exact ⟨fun hm => hkey (mem_singleton.mp hm).symm, fun hm => ha (mem_singleton.mp hm).symm⟩
  archived := h.sameArchived fun id hm => ho.2 id (mem_singleton.mp hm).symm
  known := h.sameKnown fun id hm => ho.2 id (mem_singleton.mp hm).symm
  projectIds := h.projectIds
  keyIds := (filter_sublist.map _).nodup h.keyIds

theorem Tells.deleteServiceAccount (h : Tells hmac past)
    (hr : past.2.deleteServiceAccount projectId id = .ok db) :
    Tells hmac (past.1 ++ [.accountDeleted id], db) := by
  simp only [Db.deleteServiceAccount, bind_eq_ok] at hr
  obtain ⟨-, -, -, -, hdb⟩ := hr
  cases hdb
  refine h.deleteKeys _ (by rw [authOn_append]; rfl) (by simp) ?_
  intro row _ hk
  have hne : row.serviceAccountId ≠ id := by simpa using hk
  simpa using Ne.symm hne

theorem Tells.deleteProjectKey (h : Tells hmac past)
    (hr : past.2.deleteProjectKey projectId id = .ok db) :
    Tells hmac (past.1 ++ [.projectKeyDeleted id], db) := by
  simp only [Db.deleteProjectKey, bind_eq_ok, ensure_eq_ok] at hr
  obtain ⟨-, -, -, ha, hdb⟩ := hr
  cases hdb
  obtain ⟨key, hkey, hf⟩ := any_eq_true.mp ha
  simp only [decide_eq_true_eq] at hf
  refine h.deleteKeys past.2.serviceAccounts (by rw [authOn_append]; rfl) (by simp) ?_
  intro row hrow hk
  refine ⟨?_, by simp⟩
  intro heq
  cases heq
  -- ids are unique, so the row is the one deleted
  have hs : row = key := inj_on_of_nodup_map h.keyIds hrow hkey hf.2.symm
  rw [hs] at hk
  simp [hf.1] at hk

theorem Tells.touch (h : Tells hmac past) (kind : KeyKind) (id : Text) (now : Int) :
    Tells hmac (past.1 ++ [], past.2.touch kind id now) := by
  have ha : past.2.authEnabled = authOn (past.1 ++ []) := h.auth.trans (by rw [authOn_append]; rfl)
  cases kind with
  | admin =>
    refine { h.happen ha (by simp) with adminKeys := h.keepAdminKeys ?_ (by simp) }
    intro row hr
    obtain ⟨old, hold, rfl⟩ := mem_map.mp hr
    refine ⟨old, hold, ?_⟩
    split
    · exact ⟨rfl, rfl, rfl, rfl⟩
    · exact ⟨rfl, rfl, rfl, rfl⟩
  | project =>
    refine { h.happen ha (by simp) with
      projectKeys := h.keepProjectKeys ?_ (by simp), keyIds := ?_ }
    · intro row hr
      obtain ⟨old, hold, rfl⟩ := mem_map.mp hr
      refine ⟨old, hold, ?_⟩
      split
      · exact ⟨rfl, rfl, rfl, rfl, rfl, rfl⟩
      · exact ⟨rfl, rfl, rfl, rfl, rfl, rfl⟩
    · have hs : (past.2.projectKeys.map fun key =>
          if key.id = id then { key with lastUsedAt := some now } else key).map ProjectKey.id
          = past.2.projectKeys.map ProjectKey.id := by
        rw [map_map]
        apply map_congr_left
        intro key _
        show (if key.id = id then _ else key : ProjectKey Tag).id = key.id
        split
        · rfl
        · rfl
      exact hs ▸ h.keyIds

end Steps

/-! ### Whole histories -/

theorem Tells.run {hmac : Bytes → Text → Tag} {past : List Event × Db Tag} {events : List Event}
    {db : Db Tag} (h : Tells hmac past) {op : Op} (hr : op.run hmac past.2 = .ok (events, db)) :
    Tells hmac (past.1 ++ events, db) := by
  cases op with
  | disableAuth =>
    cases hr
    exact h.disableAuth
  | enableAuth =>
    obtain ⟨db', hop, hok⟩ := bind_eq_ok.mp hr
    cases hok
    exact h.enableAuth hop
  | createAdminKey =>
    obtain ⟨⟨row, token, db'⟩, hop, hok⟩ := bind_eq_ok.mp hr
    cases hok
    exact h.createAdminKey hop
  | deleteAdminKey =>
    obtain ⟨db', hop, hok⟩ := bind_eq_ok.mp hr
    cases hok
    exact h.deleteAdminKey hop
  | createProject =>
    obtain ⟨db', hop, hok⟩ := bind_eq_ok.mp hr
    cases hok
    exact h.createProject hop
  | modifyProject =>
    obtain ⟨db', hop, hok⟩ := bind_eq_ok.mp hr
    cases hok
    exact h.modifyProject hop
  | archiveProject =>
    obtain ⟨db', hop, hok⟩ := bind_eq_ok.mp hr
    cases hok
    exact h.archiveProject hop
  | createServiceAccount =>
    obtain ⟨⟨key, db'⟩, hop, hok⟩ := bind_eq_ok.mp hr
    cases hok
    exact h.createServiceAccount hop
  | updateServiceAccount =>
    obtain ⟨db', hop, hok⟩ := bind_eq_ok.mp hr
    cases hok
    exact h.updateServiceAccount hop
  | deleteServiceAccount =>
    obtain ⟨db', hop, hok⟩ := bind_eq_ok.mp hr
    cases hok
    exact h.deleteServiceAccount hop
  | createServiceAccountKey =>
    obtain ⟨⟨row, token, db'⟩, hop, hok⟩ := bind_eq_ok.mp hr
    cases hok
    exact h.createServiceAccountKey hop
  | deleteProjectKey =>
    obtain ⟨db', hop, hok⟩ := bind_eq_ok.mp hr
    cases hok
    exact h.deleteProjectKey hop
  | touch kind id now =>
    cases hr
    exact h.touch kind id now

theorem Tells.perform {hmac : Bytes → Text → Tag} {past : List Event × Db Tag} (h : Tells hmac past)
    (op : Op) : Tells hmac (perform hmac past op) := by
  unfold Admin.perform
  cases hr : op.run hmac past.2 with
  | ok => exact h.run hr
  | error => exact h

theorem tells_after (hmac : Bytes → Text → Tag) (history : List Op) : Tells hmac (after hmac history) := by
  have hi : Tells hmac ([], .initial) :=
    { auth := rfl
      adminKeys := nofun
      projectKeys := nofun
      archived := nofun
      known := nofun
      projectIds := nodup_nil
      keyIds := nodup_nil }
  have hr : ∀ past, Tells hmac past → Tells hmac (history.foldl (Admin.perform hmac) past) := by
    induction history with
    | nil => exact fun past h => h
    | cons op history ih => exact fun past h => ih _ (h.perform op)
  exact hr _ hi

/-! ### The check -/

section Check

variable [DecidableEq Tag] {hmac : Bytes → Text → Tag}

/-- What has to be so for a request to act as a caller, by the history before the setting was
read and the history before the key was. -/
def Deserved (admin : Bool) (apiKey : Option Text) (settings rows : List Event) (now : Int)
    (path : Text) (token : Option Text) : Caller → Prop
  | .project id projectId => administrates path = false ∧ .projectArchived projectId ∉ rows ∧
      ∃ plaintext accountId expiresAt, token = some plaintext ∧
        LiveProjectKey rows id plaintext projectId accountId expiresAt ∧ unexpired expiresAt now
  | .admin id => administrates path = true ∧ ∃ plaintext expiresAt, token = some plaintext ∧
      LiveAdminKey rows id plaintext expiresAt ∧ unexpired expiresAt now
  | .static => administrates path = false ∧ ∃ key, apiKey = some key ∧ token = some key
  | .anonymous => administrates path = false ∧ apiKey = none ∧ (admin = true → authOn settings = false)

variable {credential : Credential}

theorem Found.verdict_granted {found : Found Tag} {kind : KeyKind}
    (h : found.verdict hmac kind now token = .granted credential) :
    hmac found.salt token = found.tag ∧ unexpired found.expiresAt now ∧ found.archivedAt = none ∧
      credential = found.credential kind := by
  unfold Found.verdict at h
  split at h
  · cases h
  · next hv =>
    split at h
    · cases h
    · next he =>
      split at h
      · cases h
      · next ha =>
        refine ⟨?_, ?_, ?_, (Verdict.granted.inj h).symm⟩
        · simpa [verify] using hv
        · intro instant hi
          rw [hi] at he
          simpa using he
        · simpa using ha

theorem authenticate_open {settings rows : Except Text (Db Tag)} {token : Option Text}
    (h : authenticate hmac settings rows now token = .ok .open) :
    ∃ db, settings = .ok db ∧ db.authEnabled = false := by
  obtain ⟨db, hs, hv⟩ := bind_eq_ok.mp h
  refine ⟨db, hs, ?_⟩
  cases he : db.authEnabled with
  | false => rfl
  | true =>
    simp only [he, Bool.not_true, Bool.false_eq_true, if_false] at hv
    split at hv
    · cases hv
    · split at hv
      · cases hv
      · obtain ⟨db', -, hv⟩ := bind_eq_ok.mp hv
        split at hv
        · cases hv
        · next found _ =>
          have hf := Except.ok.inj hv
          unfold Found.verdict at hf
          repeat' split at hf
          all_goals cases hf

theorem authenticate_granted {settings rows : Except Text (Db Tag)} {token : Option Text}
    (h : authenticate hmac settings rows now token = .ok (.granted credential)) :
    ∃ db plaintext kind lookup found, rows = .ok db ∧ token = some plaintext ∧
      db.keyByLookup kind lookup = some found ∧
      found.verdict hmac kind now plaintext = .granted credential := by
  obtain ⟨db, -, hv⟩ := bind_eq_ok.mp h
  split at hv
  · cases hv
  · split at hv
    · cases hv
    · next plaintext =>
      split at hv
      · cases hv
      · next kind lookup _ =>
        obtain ⟨db', hr, hv⟩ := bind_eq_ok.mp hv
        split at hv
        · cases hv
        · next found hf =>
          exact ⟨db', plaintext, kind, lookup, found, hr, rfl, hf, Except.ok.inj hv⟩

def Credential.Alive (events : List Event) (now : Int) (token : Text) : Credential → Prop
  | .admin id => ∃ expiresAt, LiveAdminKey events id token expiresAt ∧ unexpired expiresAt now
  | .project id projectId accountId => .projectArchived projectId ∉ events ∧ ∃ expiresAt,
      LiveProjectKey events id token projectId accountId expiresAt ∧ unexpired expiresAt now

theorem Tells.granted (hi : ∀ salt, Function.Injective (hmac salt)) {past : List Event × Db Tag}
    (h : Tells hmac past) {kind : KeyKind} {lookup : Text} {found : Found Tag}
    (hf : past.2.keyByLookup kind lookup = some found)
    (hg : found.verdict hmac kind now token = .granted credential) :
    credential.Alive past.1 now token := by
  obtain ⟨ht, he, ha, hc⟩ := Found.verdict_granted hg
  cases kind with
  | admin =>
    obtain ⟨row, hrow, rfl⟩ := Option.map_eq_some_iff.mp hf
    obtain ⟨plaintext, hp, hl⟩ := h.adminKeys row (mem_of_find?_eq_some hrow)
    have hs : token = plaintext := hi row.salt (ht.trans hp)
    subst hs
    rw [hc]
    exact ⟨row.expiresAt, hl, he⟩
  | project =>
    obtain ⟨row, hrow, hr⟩ := Option.bind_eq_some_iff.mp hf
    obtain ⟨project, hpr, hr⟩ := Option.bind_eq_some_iff.mp hr
    cases hr
    obtain ⟨plaintext, hp, hl⟩ := h.projectKeys row (mem_of_find?_eq_some hrow)
    have hs : token = plaintext := hi row.salt (ht.trans hp)
    subst hs
    have hid : project.id = row.projectId := by simpa using find?_some hpr
    rw [hc]
    refine ⟨?_, row.expiresAt, hl, he⟩
    rw [← hid]
    exact h.archived project (mem_of_find?_eq_some hpr) ha

omit [DecidableEq Tag] in
theorem Gate.callerOf_eq_ok {gate : Gate Tag} {administration : Bool} {verdict : Verdict}
    {caller : Caller} (h : gate.callerOf administration verdict = .ok caller) :
    (verdict = .open ∧ gate.fixed = none ∧ administration = false ∧ caller = .anonymous) ∨
    (∃ id, verdict = .granted (.admin id) ∧ administration = true ∧ caller = .admin id) ∨
    ∃ id projectId accountId, verdict = .granted (.project id projectId accountId) ∧
      administration = false ∧ caller = .project id projectId := by
  cases verdict with
  | refused =>
    rw [Gate.callerOf] at h
    cases h
  | «open» =>
    left
    rw [Gate.callerOf] at h
    split at h
    · cases h
    · next hf =>
      split at h
      · cases h
      · next ha =>
        cases h
        exact ⟨rfl, by simpa using hf, by simpa using ha, rfl⟩
  | granted credential =>
    right
    cases credential with
    | admin id =>
      left
      rw [Gate.callerOf] at h
      split at h
      · next ha =>
        cases h
        exact ⟨id, rfl, ha, rfl⟩
      · cases h
    | project id projectId accountId =>
      right
      rw [Gate.callerOf] at h
      split at h
      · cases h
      · next ha =>
        cases h
        exact ⟨id, projectId, accountId, rfl, by simpa using ha, rfl⟩

/-- A check grants only what is alive, after every history; `later` happens between its two
reads.  Authentication stays on from the first admin key until it is disabled. -/
theorem check_grants_live (hinjective : ∀ salt, Function.Injective (hmac salt)) (admin : Bool)
    (processKey : Bytes) (apiKey : Option Text) (history later : List Op) (now : Int) (path : Text)
    (authorization : Option Text) :
    (∀ caller, (Gate.new hmac admin processKey apiKey).check hmac (.ok (after hmac history).2)
        (.ok (after hmac (history ++ later)).2) now path authorization = .ok caller →
      Deserved admin apiKey (after hmac history).1 (after hmac (history ++ later)).1 now path
        (bearer authorization) caller) ∧ ∀ before rest id token expiresAt,
      (after hmac history).1 = before ++ .adminKeyCreated id token expiresAt :: rest →
      .authDisabled ∉ rest → (after hmac history).2.authEnabled = true := by
  constructor
  · intro caller hc
    unfold Gate.check at hc
    dsimp only at hc
    split at hc
    · next hf =>
      split at hc
      · cases hc
      · next ha =>
        cases hc
        refine ⟨by simpa using ha, ?_⟩
        obtain ⟨fixed, hga, hve⟩ := Option.bind_eq_some_iff.mp hf
        obtain ⟨token, ht, hve⟩ := Option.map_eq_some_iff.mp hve
        obtain ⟨key, hk, rfl⟩ := Option.map_eq_some_iff.mp hga
        have hsa : hmac processKey token = hmac processKey key := by simpa [verify] using hve
        have ht' : token = key := hinjective processKey hsa
        exact ⟨key, hk, ht' ▸ ht⟩
    · obtain ⟨verdict, hv, hca⟩ := bind_eq_ok.mp hc
      have hf : (Gate.new hmac admin processKey apiKey).fixed = none → apiKey = none := by
        intro hn
        simpa [Gate.new] using hn
      rcases Gate.callerOf_eq_ok hca with ⟨rfl, hn, hp, rfl⟩ | ⟨id, rfl, hp, rfl⟩ |
        ⟨id, projectId, accountId, rfl, hp, rfl⟩
      · refine ⟨hp, hf hn, ?_⟩
        intro hs
        have hs' : (Gate.new hmac admin processKey apiKey).admin = true := hs
        rw [if_pos hs'] at hv
        obtain ⟨db, hdb, ho⟩ := authenticate_open (mapError_eq_ok.mp hv)
        cases hdb
        rw [← (tells_after hmac history).auth]
        exact ho
      · split at hv
        · obtain ⟨db, token, kind, lookup, found, hdb, ht, hfo, hg⟩ :=
            authenticate_granted (mapError_eq_ok.mp hv)
          cases hdb
          obtain ⟨expiresAt, hl, he⟩ :=
            (tells_after hmac (history ++ later)).granted hinjective hfo hg
          exact ⟨hp, token, expiresAt, ht, hl, he⟩
        · cases hv
      · split at hv
        · obtain ⟨db, token, kind, lookup, found, hdb, ht, hfo, hg⟩ :=
            authenticate_granted (mapError_eq_ok.mp hv)
          cases hdb
          obtain ⟨har, expiresAt, hl, he⟩ :=
            (tells_after hmac (history ++ later)).granted hinjective hfo hg
          exact ⟨hp, har, token, accountId, expiresAt, ht, hl, he⟩
        · cases hv
  · intro before rest id token expiresAt hevs hr
    rw [(tells_after hmac history).auth, hevs]
    exact authOn_of_created hr

end Check

/-- A tag that names what it was made of. -/
def symbolicHmac (salt : Bytes) (token : Text) : Bytes × Text := (salt, token)

def someRandomness (byte : UInt8) : Randomness where
  lookup := List.replicate 8 byte
  secret := List.replicate 32 byte
  salt := List.replicate 32 byte
  lookup_length := length_replicate
  secret_length := length_replicate
  salt_length := length_replicate

/-- The first admin key, a project, and a service account with its key. -/
def someHistory : List Op :=
  [.createAdminKey "ops".toList none 0 (someRandomness 1) "key_1".toList,
    .createProject "p".toList none 0 "proj_1".toList,
    .createServiceAccount "proj_1".toList "s".toList false none 0 "svc_1".toList (someRandomness 2)
      "key_2".toList]

def someToken : Text := (mint symbolicHmac .project (someRandomness 2)).token

theorem check_grants_live_project :
    (Gate.new symbolicHmac true [] none).check symbolicHmac (.ok (after symbolicHmac someHistory).2)
        (.ok (after symbolicHmac (someHistory ++ [])).2) 1 "/v1/responses".toList
        (some ("Bearer ".toList ++ someToken)) = .ok (.project "key_2".toList "proj_1".toList) ∧
      Deserved true none (after symbolicHmac someHistory).1 (after symbolicHmac (someHistory ++ [])).1 1
        "/v1/responses".toList (bearer (some ("Bearer ".toList ++ someToken)))
        (.project "key_2".toList "proj_1".toList) := by
  have hi : ∀ salt, Function.Injective (symbolicHmac salt) := by
    intro salt a b h
    exact congrArg Prod.snd h
  have hc : (Gate.new symbolicHmac true [] none).check symbolicHmac
      (.ok (after symbolicHmac someHistory).2) (.ok (after symbolicHmac (someHistory ++ [])).2) 1
      "/v1/responses".toList (some ("Bearer ".toList ++ someToken))
      = .ok (.project "key_2".toList "proj_1".toList) := by decide +kernel
  exact ⟨hc, (check_grants_live hi true [] none someHistory [] 1 "/v1/responses".toList
    (some ("Bearer ".toList ++ someToken))).1 _ hc⟩

end LocalAi.Admin
