import LocalAi.Lib.Except
import LocalAi.Tools.Json

/-!
# Admin keys, projects and their keys

The administrative store and the check that every request passes.

* `Db`: the tables; each operation of `Admin` is one transaction, which fails as a whole.
* `authenticate`: a bearer token against the store.
* `Gate.check`: the caller that a request acts as.

Random bytes and ids are arguments, and so is the clock.
-/

namespace LocalAi.Admin

open Lib (ensure splitOnce)

abbrev Bytes := List UInt8

inductive Error
  | invalidArgument (message : Text)
  | notFound (what id : Text)
  | conflict (message : Text)
  /-- A `UNIQUE` or `REFERENCES` constraint. -/
  | constraint

/-! ### Keys -/

inductive KeyKind
  | admin
  | project

def adminKeyPrefix : Text := "sk-admin-".toList

def projectKeyPrefix : Text := "sk-proj-".toList

def lookupHex : Nat := 16

def secretHex : Nat := 64

def KeyKind.keyPrefix : KeyKind → Text
  | .admin => adminKeyPrefix
  | .project => projectKeyPrefix

def hexDigit (n : Nat) : Char := "0123456789abcdef".toList.getD n '0'

def hex (bytes : Bytes) : Text :=
  bytes.flatMap fun byte => [hexDigit (byte.toNat / 16), hexDigit (byte.toNat % 16)]

/-- What the operating system's randomness gives a new key. -/
structure Randomness where
  lookup : Bytes
  secret : Bytes
  salt : Bytes
  lookup_length : lookup.length = lookupHex / 2
  secret_length : secret.length = secretHex / 2
  salt_length : salt.length = 32

section Hmac

-- `hmac`: HMAC-SHA-256 of a token under a salt
variable {Tag : Type} (hmac : Bytes → Text → Tag)

/-- A new key: everything that is stored of it, and the plaintext. -/
structure Minted (Tag : Type) where
  token : Text
  lookup : Text
  salt : Bytes
  tag : Tag
  redacted : Text

def mint (kind : KeyKind) (random : Randomness) : Minted Tag :=
  let lookup := hex random.lookup
  let token := kind.keyPrefix ++ lookup ++ '_' :: hex random.secret
  { token := token
    lookup := lookup
    salt := random.salt
    tag := hmac random.salt token
    redacted := kind.keyPrefix.rdropWhile (· == '-') ++ "...".toList ++ token.rtake 3 }

def verify [DecidableEq Tag] (salt : Bytes) (storedTag : Tag) (token : Text) : Bool :=
  hmac salt token = storedTag

end Hmac

def hexDigits (text : Text) (length : Nat) : Bool :=
  utf8Len text == length && text.all fun c => ('0' ≤ c && c ≤ '9') || ('a' ≤ c && c ≤ 'f')

/-- The family and lookup of a well-formed key. -/
def parseToken (token : Text) : Option (KeyKind × Text) := do
  let (kind, rest) ←
    match stripPrefix adminKeyPrefix token with
    | some rest => some (KeyKind.admin, rest)
    | none => (stripPrefix projectKeyPrefix token).map fun rest => (KeyKind.project, rest)
  let (lookup, secret) ← splitOnce ['_'] rest
  if hexDigits lookup lookupHex && hexDigits secret secretHex then some (kind, lookup) else none

/-! ### Tables -/

variable {Tag : Type}

structure AdminKey (Tag : Type) where
  id : Text
  lookup : Text
  salt : Bytes
  tag : Tag
  name : Text
  redacted : Text
  createdAt : Int
  expiresAt : Option Int
  lastUsedAt : Option Int

structure Project where
  id : Text
  name : Text
  externalKeyId : Option Text
  createdAt : Int
  archivedAt : Option Int

inductive Role
  | owner
  | member
  | none
deriving DecidableEq

structure ServiceAccount where
  id : Text
  projectId : Text
  name : Text
  role : Role
  createdAt : Int

structure ProjectKey (Tag : Type) where
  id : Text
  lookup : Text
  salt : Bytes
  tag : Tag
  projectId : Text
  serviceAccountId : Text
  name : Text
  redacted : Text
  createdAt : Int
  expiresAt : Option Int
  lastUsedAt : Option Int

structure Db (Tag : Type) where
  authEnabled : Bool
  adminKeys : List (AdminKey Tag)
  projects : List Project
  serviceAccounts : List ServiceAccount
  projectKeys : List (ProjectKey Tag)

namespace Db

/-- The tables as the migration leaves them. -/
def initial : Db Tag := ⟨false, [], [], [], []⟩

def insertAdminKey (db : Db Tag) (row : AdminKey Tag) : Except Error (Db Tag) := do
  ensure (db.adminKeys.all fun other => other.id ≠ row.id ∧ other.lookup ≠ row.lookup) .constraint
  pure { db with adminKeys := db.adminKeys ++ [row] }

def insertProject (db : Db Tag) (row : Project) : Except Error (Db Tag) := do
  ensure (db.projects.all fun other => other.id ≠ row.id) .constraint
  pure { db with projects := db.projects ++ [row] }

def insertServiceAccount (db : Db Tag) (row : ServiceAccount) : Except Error (Db Tag) := do
  ensure (db.serviceAccounts.all fun other => other.id ≠ row.id) .constraint
  ensure (db.projects.any fun project => project.id = row.projectId) .constraint
  pure { db with serviceAccounts := db.serviceAccounts ++ [row] }

def insertProjectKeyRow (db : Db Tag) (row : ProjectKey Tag) : Except Error (Db Tag) := do
  ensure (db.projectKeys.all fun other => other.id ≠ row.id ∧ other.lookup ≠ row.lookup) .constraint
  ensure (db.projects.any fun project => project.id = row.projectId) .constraint
  ensure (db.serviceAccounts.any fun account => account.id = row.serviceAccountId) .constraint
  pure { db with projectKeys := db.projectKeys ++ [row] }

/-- `ON DELETE CASCADE`: the keys of the account go with it. -/
def deleteServiceAccountRow (db : Db Tag) (id : Text) : Db Tag :=
  { db with
    serviceAccounts := db.serviceAccounts.filter fun account => account.id ≠ id
    projectKeys := db.projectKeys.filter fun key => key.serviceAccountId ≠ id }

def projectById (db : Db Tag) (id : Text) : Except Error Project :=
  (db.projects.find? fun project => project.id = id).elim
    (.error (.notFound "project".toList id)) .ok

def activeProject (db : Db Tag) (id : Text) : Except Error Project := do
  let project ← db.projectById id
  ensure project.archivedAt.isNone (.conflict ("project ".toList ++ id ++ " is archived".toList))
  pure project

def serviceAccountById (db : Db Tag) (projectId id : Text) : Except Error ServiceAccount :=
  (db.serviceAccounts.find? fun account => account.projectId = projectId ∧ account.id = id).elim
    (.error (.notFound "service account".toList id)) .ok

end Db

/-! ### Checks of arguments -/

def maxNameBytes : Nat := 256

def maxExpiresInSeconds : Int := 31536000

def checkName (name : Text) : Except Error Unit :=
  ensure (!((trim name).isEmpty || maxNameBytes < utf8Len name))
    (.invalidArgument "name must be a non-empty string of at most 256 bytes".toList)

def expiry (createdAt : Int) : Option Int → Except Error (Option Int)
  | none => pure none
  | some seconds => do
    ensure (1 ≤ seconds ∧ seconds ≤ maxExpiresInSeconds)
      (.invalidArgument "expires_in_seconds must be between 1 and 31536000".toList)
    pure (some (createdAt + seconds))

/-! ### Operations -/

namespace Db

variable (hmac : Bytes → Text → Tag) (db : Db Tag)

def disableAuth : Db Tag := { db with authEnabled := false }

/-- Refused while no live admin key exists. -/
def enableAuth (now : Int) : Except Error (Db Tag) := do
  ensure (db.adminKeys.any fun key => key.expiresAt.all fun expiresAt => now < expiresAt)
    (.conflict ("no live admin API key exists; create one with " ++
      "`local-ai admin create-key`").toList)
  pure { db with authEnabled := true }

/-- Create an admin key, turning authentication on; its only plaintext is returned. -/
def createAdminKey (name : Text) (expiresIn : Option Int) (now : Int) (random : Randomness)
    (id : Text) : Except Error (AdminKey Tag × Text × Db Tag) := do
  checkName name
  let expiresAt ← expiry now expiresIn
  let minted := mint hmac .admin random
  let row : AdminKey Tag := ⟨id, minted.lookup, minted.salt, minted.tag, name, minted.redacted, now,
    expiresAt, none⟩
  let db ← db.insertAdminKey row
  pure (row, minted.token, { db with authEnabled := true })

def deleteAdminKey (id : Text) : Except Error (Db Tag) := do
  ensure (db.adminKeys.any fun key => key.id = id) (.notFound "admin API key".toList id)
  pure { db with adminKeys := db.adminKeys.filter fun key => key.id ≠ id }

def createProject (name : Text) (externalKeyId : Option Text) (now : Int) (id : Text) :
    Except Error (Db Tag) := do
  checkName name
  db.insertProject ⟨id, name, externalKeyId, now, none⟩

/-- `ProjectChanges`. -/
def modifyProject (id : Text) (name : Option Text) (externalKeyId : Option (Option Text)) :
    Except Error (Db Tag) := do
  name.elim (pure ()) checkName
  let current ← db.projectById id
  ensure current.archivedAt.isNone
    (.conflict ("project ".toList ++ id ++ " is archived and cannot be modified".toList))
  pure { db with projects := db.projects.map fun project =>
    if project.id = id then
      { project with
        name := name.getD project.name
        externalKeyId := externalKeyId.getD project.externalKeyId }
    else
      project }

/-- Archive a project: its keys stop authenticating. -/
def archiveProject (id : Text) (now : Int) : Except Error (Db Tag) := do
  let current ← db.projectById id
  if current.archivedAt.isSome then
    pure db
  else
    pure { db with projects := db.projects.map fun project =>
      if project.id = id then { project with archivedAt := some now } else project }

def insertProjectKey (projectId accountId name : Text) (expiresIn : Option Int) (now : Int)
    (random : Randomness) (id : Text) : Except Error (ProjectKey Tag × Text × Db Tag) := do
  let expiresAt ← expiry now expiresIn
  let minted := mint hmac .project random
  let row : ProjectKey Tag := ⟨id, minted.lookup, minted.salt, minted.tag, projectId, accountId, name,
    minted.redacted, now, expiresAt, none⟩
  let db ← db.insertProjectKeyRow row
  pure (row, minted.token, db)

def secretKeyName : Text := "Secret Key".toList

def createServiceAccount (projectId name : Text) (createOnly : Bool) (expiresIn : Option Int)
    (now : Int) (id : Text) (random : Randomness) (keyId : Text) :
    Except Error (Option (ProjectKey Tag × Text) × Db Tag) := do
  checkName name
  ensure (!(createOnly && expiresIn.isSome)) (.invalidArgument
    "expires_in_seconds cannot be used with create_service_account_only".toList)
  let project ← db.activeProject projectId
  let db ← db.insertServiceAccount
    ⟨id, project.id, name, if createOnly then .none else .member, now⟩
  if createOnly then
    pure (none, db)
  else do
    let (row, token, db) ← db.insertProjectKey hmac project.id id secretKeyName expiresIn now random keyId
    pure (some (row, token), db)

def updateServiceAccount (projectId id : Text) (name : Option Text) (role : Option Role) :
    Except Error (Db Tag) := do
  name.elim (pure ()) checkName
  ensure (role ≠ some .none) (.invalidArgument "role must be \"member\" or \"owner\"".toList)
  let _ ← db.activeProject projectId
  let _ ← db.serviceAccountById projectId id
  pure { db with serviceAccounts := db.serviceAccounts.map fun account =>
    if account.id = id then
      { account with name := name.getD account.name, role := role.getD account.role }
    else
      account }

def deleteServiceAccount (projectId id : Text) : Except Error (Db Tag) := do
  let _ ← db.projectById projectId
  let _ ← db.serviceAccountById projectId id
  pure (db.deleteServiceAccountRow id)

def createServiceAccountKey (projectId accountId : Text) (name : Option Text)
    (expiresIn : Option Int) (now : Int) (random : Randomness) (id : Text) :
    Except Error (ProjectKey Tag × Text × Db Tag) := do
  let name := name.getD secretKeyName
  checkName name
  let project ← db.activeProject projectId
  let _ ← db.serviceAccountById projectId accountId
  db.insertProjectKey hmac project.id accountId name expiresIn now random id

def deleteProjectKey (projectId id : Text) : Except Error (Db Tag) := do
  let _ ← db.projectById projectId
  ensure (db.projectKeys.any fun key => key.projectId = projectId ∧ key.id = id)
    (.notFound "project API key".toList id)
  pure { db with projectKeys := db.projectKeys.filter fun key =>
    ¬ (key.projectId = projectId ∧ key.id = id) }

/-- The best-effort update of `last_used_at`. -/
def touch (kind : KeyKind) (id : Text) (now : Int) : Db Tag :=
  match kind with
  | .admin => { db with adminKeys := db.adminKeys.map fun key =>
      if key.id = id then { key with lastUsedAt := some now } else key }
  | .project => { db with projectKeys := db.projectKeys.map fun key =>
      if key.id = id then { key with lastUsedAt := some now } else key }

end Db

/-! ### Authentication -/

inductive Credential
  | admin (keyId : Text)
  | project (keyId projectId serviceAccountId : Text)

inductive Verdict
  | open
  | granted (credential : Credential)
  | refused (message : Text)

/-- The row of a key: its project's archival is joined to it. -/
structure Found (Tag : Type) where
  id : Text
  salt : Bytes
  tag : Tag
  expiresAt : Option Int
  lastUsedAt : Option Int
  project : Option Text
  account : Option Text
  archivedAt : Option Int

/-- The `SELECT` by lookup. -/
def Db.keyByLookup (db : Db Tag) (kind : KeyKind) (lookup : Text) : Option (Found Tag) :=
  match kind with
  | .admin =>
    (db.adminKeys.find? fun key => key.lookup = lookup).map fun key =>
      ⟨key.id, key.salt, key.tag, key.expiresAt, key.lastUsedAt, none, none, none⟩
  | .project => do
    let key ← db.projectKeys.find? fun key => key.lookup = lookup
    let project ← db.projects.find? fun project => project.id = key.projectId
    some ⟨key.id, key.salt, key.tag, key.expiresAt, key.lastUsedAt, some key.projectId,
      some key.serviceAccountId, project.archivedAt⟩

section Check

variable [DecidableEq Tag] (hmac : Bytes → Text → Tag)

def Found.credential (found : Found Tag) (kind : KeyKind) : Credential :=
  match kind, found.project, found.account with
  | .project, some project, some account => .project found.id project account
  | _, _, _ => .admin found.id

def Found.verdict (found : Found Tag) (kind : KeyKind) (now : Int) (token : Text) : Verdict :=
  if !verify hmac found.salt found.tag token then
    .refused "invalid API key".toList
  else if found.expiresAt.any (· ≤ now) then
    .refused "the API key has expired".toList
  else if found.archivedAt.isSome then
    .refused "the API key's project is archived".toList
  else
    .granted (found.credential kind)

/-- Check a bearer token: `settings` is the database when the setting is read, `rows` when
the key is, and either read may fail. -/
def authenticate (settings rows : Except Text (Db Tag)) (now : Int) (token : Option Text) :
    Except Text Verdict := do
  let settings ← settings
  if !settings.authEnabled then
    pure .open
  else
    match token with
    | none => pure (.refused
      "authentication is required: send an API key as `Authorization: Bearer <key>`".toList)
    | some token =>
      match parseToken token with
      | none => pure (.refused "invalid API key".toList)
      | some (kind, lookup) => do
        let rows ← rows
        match rows.keyByLookup kind lookup with
        | none => pure (.refused "invalid API key".toList)
        | some found => pure (found.verdict hmac kind now token)

inductive Caller
  | anonymous
  | static
  | project (keyId projectId : Text)
  | admin (keyId : Text)
deriving DecidableEq

inductive StatusCode
  | unauthorized
  | forbidden
  | internalServerError
deriving DecidableEq

structure Refusal where
  status : StatusCode
  message : Text
deriving DecidableEq

/-- The authentication policy: whether there is an admin store, and the `--api-key` key as
a tag under a key of this process. -/
structure Gate (Tag : Type) where
  admin : Bool
  fixed : Option (Bytes × Tag)

def Gate.new (admin : Bool) (processKey : Bytes) (apiKey : Option Text) : Gate Tag :=
  ⟨admin, apiKey.map fun key => (processKey, hmac processKey key)⟩

/-- Whether `path` belongs to the Administration API. -/
def administrates (path : Text) : Bool :=
  (stripPrefix "/v1/organization".toList path).any fun rest => rest.isEmpty || rest.head? == some '/'

/-- The token of an `Authorization` value. -/
def bearer (authorization : Option Text) : Option Text :=
  authorization.bind fun value =>
    (stripPrefix "Bearer ".toList value <|> stripPrefix "bearer ".toList value).map trim

def Gate.callerOf (gate : Gate Tag) (administration : Bool) : Verdict → Except Refusal Caller
  | .open =>
    if gate.fixed.isSome then
      throw ⟨.unauthorized, "invalid API key".toList⟩
    else if administration then
      throw ⟨.forbidden, ("the Administration API requires authentication, which is off: create " ++
        "the first admin key with `local-ai admin create-key`").toList⟩
    else
      pure .anonymous
  | .refused message => throw ⟨.unauthorized, message⟩
  | .granted (.admin keyId) =>
    if administration then
      pure (.admin keyId)
    else
      throw ⟨.forbidden, ("admin API keys authorize only the Administration API " ++
        "(/v1/organization); use a project API key").toList⟩
  | .granted (.project keyId projectId _) =>
    if administration then
      throw ⟨.forbidden, ("project API keys do not authorize the Administration API; use an admin " ++
        "API key").toList⟩
    else
      pure (.project keyId projectId)

/-- Authorize a request for `path` carrying `authorization`. -/
def Gate.check (gate : Gate Tag) (settings rows : Except Text (Db Tag)) (now : Int) (path : Text)
    (authorization : Option Text) : Except Refusal Caller :=
  let administration := administrates path
  let token := bearer authorization
  if (gate.fixed.bind fun fixed => token.map (verify hmac fixed.1 fixed.2)) = some true then
    if administration then
      throw ⟨.forbidden, ("the --api-key key does not authorize the Administration API; use an " ++
        "admin API key").toList⟩
    else
      pure .static
  else
    let verdict : Except Refusal Verdict :=
      if gate.admin then
        (authenticate hmac settings rows now token).mapError fun error =>
          ⟨.internalServerError, "the authentication store failed: ".toList ++ error⟩
      else
        pure .open
    verdict >>= gate.callerOf administration

end Check

end LocalAi.Admin
