import LocalAi.Lib.Transaction
import LocalAi.Conversations.Items

/-!
# The tables of conversations and the calls on them

* `createConversation`, `updateConversation`, `deleteConversation`, `addItems`,
  `deleteItem`, `appendItems`: the calls, one transaction each.
* `Call`, `call`: a call with what it reads from outside; `run`: calls in sequence.

Rows of `items` stand in the order of their `seq`, which is never given twice.  A stored
body is kept as the object it is the text of, and a version is a number without a bound.
-/

namespace LocalAi.Conversations

open Lib (ensure Tx Outcome transaction)

abbrev Metadata := List (Text × Text)

structure ConversationRow where
  id : Text
  createdAt : Nat
  metadata : Metadata
  version : Nat
  deletedAt : Option Nat
  projectId : Option Text

structure ItemRow where
  seq : Nat
  conversationId : Text
  id : Text
  createdAt : Nat
  body : Members

/-- An append that was applied, with the ids of its items. -/
structure AppendRow where
  conversationId : Text
  requestId : Text
  fingerprint : Text
  itemIds : List Text

structure Tables where
  conversations : List ConversationRow
  items : List ItemRow
  appends : List AppendRow
  /-- The last `seq` that was given. -/
  lastSeq : Nat

def Tables.empty : Tables := ⟨[], [], [], 0⟩

structure Conversation where
  id : Text
  createdAt : Nat
  metadata : Metadata
  version : Nat

/-- An idempotent, version-checked append. -/
structure Append where
  requestId : Text
  expectedVersion : Nat
  items : List Json

structure Appended where
  conversation : Conversation
  items : List Item
  /-- The request had been applied already, so nothing changed. -/
  replayed : Bool

/-- What a call reads from outside: the clock, the bytes drawn for the id of a conversation
and for those of items. -/
structure Env where
  now : Option Nat
  draw : Draw
  draws : Nat → Draw

/-! ### Statements -/

def ItemRow.item (row : ItemRow) : Item := ⟨row.id, row.body⟩

def now (env : Env) : Except Error Nat :=
  env.now.elim (.error (.io [.plain "second time provided was later than self".toList])) .ok

def signed (value : Nat) : Except Error Nat := do
  ensure (value < 2 ^ 63) (.io [.plain "stored integer is out of range".toList])
  pure value

/-- The conversation `id`, unless it does not exist, was deleted, or `project` (when given)
does not own it. -/
def live (id : Text) (project : Option Text) (tables : Tables) : Except Error Conversation :=
  match tables.conversations.find? fun row =>
      row.id == id && row.deletedAt.isNone && (project.isNone || row.projectId == project) with
  | some row => .ok ⟨id, row.createdAt, row.metadata, row.version⟩
  | none => .error (.notFound [.plain "conversation ".toList, .plain id, .plain " not found".toList])

/-- `UPDATE conversations … WHERE id = ?1`. -/
def Tables.updateConversation (tables : Tables) (id : Text)
    (change : ConversationRow → ConversationRow) : Tables :=
  { tables with conversations := tables.conversations.map fun row =>
      if row.id = id then change row else row }

def bumpVersion (id : Text) : Tx Tables Error Unit :=
  .modify fun tables => tables.updateConversation id fun row => { row with version := row.version + 1 }

/-- `INSERT INTO conversation_items`, whose ids are unique in a conversation. -/
def insertItem (id : Text) (createdAt : Nat) (item : Item) : Tx Tables Error Unit :=
  .check (fun tables => !tables.items.any fun row => row.conversationId == id && row.id == item.id)
    (.conflict [.plain "item ".toList, .plain item.id, .plain " already exists in conversation ".toList,
      .plain id])
    fun tables => { tables with
      items := tables.items ++ [⟨tables.lastSeq + 1, id, item.id, createdAt, item.body⟩]
      lastSeq := tables.lastSeq + 1 }

/-- Insert `items`, in order, and bump the version once.  Nothing for none. -/
def insertItems (id : Text) (items : List Item) (createdAt : Nat) : Tx Tables Error Unit :=
  if items.isEmpty then pure ()
  else do
    let createdAt ← Tx.lift (signed createdAt)
    Tx.each (insertItem id createdAt) items
    bumpVersion id

/-- The items of conversation `id` that satisfy `wanted`, oldest first. -/
def selectItems (tables : Tables) (id : Text) (wanted : Text → Bool) : List Item :=
  (tables.items.filter fun row => row.conversationId == id && wanted row.id).map ItemRow.item

def itemNotFound (id itemId : Text) : Error :=
  .notFound [.plain "item ".toList, .plain itemId, .plain " not found in conversation ".toList,
    .plain id]

/-- `INSERT INTO conversations`. -/
def insertConversation (row : ConversationRow) : Tx Tables Error Unit :=
  .check (fun tables => !tables.conversations.any fun other => other.id == row.id) .constraint
    fun tables => { tables with conversations := tables.conversations ++ [row] }

/-- `DELETE FROM conversation_items`, of which one must go. -/
def deleteRow (id itemId : Text) : Tx Tables Error Unit :=
  .check (fun tables => tables.items.any fun row => row.conversationId == id && row.id == itemId)
    (itemNotFound id itemId)
    fun tables => { tables with
      items := tables.items.filter fun row => !(row.conversationId == id && row.id == itemId) }

/-- `INSERT INTO conversation_appends`. -/
def insertAppend (row : AppendRow) : Tx Tables Error Unit :=
  .check (fun tables => !tables.appends.any fun other =>
      other.conversationId == row.conversationId && other.requestId == row.requestId) .constraint
    fun tables => { tables with appends := tables.appends ++ [row] }

/-! ### Calls -/

def validateMetadata (metadata : Metadata) : Except Error Unit := do
  ensure (metadata.length ≤ maxMetadataPairs) (.invalidArgument
    [.plain "metadata may hold at most ".toList, .plain (decimal maxMetadataPairs), .plain " pairs".toList])
  metadata.forM fun (key, value) => do
    ensure (key.length ≤ maxMetadataKeyChars) (.invalidArgument
      [.plain "metadata keys may be at most ".toList, .plain (decimal maxMetadataKeyChars),
        .plain " characters".toList])
    ensure (value.length ≤ maxMetadataValueChars) (.invalidArgument
      [.plain "metadata values may be at most ".toList, .plain (decimal maxMetadataValueChars),
        .plain " characters".toList])

def createConversation (env : Env) (project : Option Text) (metadata : Metadata)
    (items : List Json) (tables : Tables) : Except Error Conversation × Tables :=
  transaction (do
    Tx.lift (validateMetadata metadata)
    Tx.lift (ensure (items.length ≤ maxAddItems) (.invalidArgument
      [.plain "a conversation may be created with at most ".toList, .plain (decimal maxAddItems),
        .plain " items".toList]))
    let items ← Tx.lift (normalizeItems env.draws items)
    let id ← Tx.lift (newId "conv_".toList env.draw)
    let createdAt ← Tx.lift (now env)
    let createdAt ← Tx.lift (signed createdAt)
    insertConversation ⟨id, createdAt, metadata, 0, none, project⟩
    insertItems id items createdAt
    let conversation ← Tx.query (live id project)
    pure (.commit conversation)) tables

def updateConversation (project : Option Text) (id : Text) (metadata : Metadata) (tables : Tables) :
    Except Error Conversation × Tables :=
  transaction (do
    Tx.lift (validateMetadata metadata)
    let _ ← Tx.query (live id project)
    Tx.modify fun tables => tables.updateConversation id fun row => { row with metadata := metadata }
    let conversation ← Tx.query (live id project)
    pure (.commit conversation)) tables

def deleteConversation (env : Env) (project : Option Text) (id : Text) (tables : Tables) :
    Except Error Text × Tables :=
  transaction (do
    let _ ← Tx.query (live id project)
    let deletedAt ← Tx.lift (now env)
    let deletedAt ← Tx.lift (signed deletedAt)
    Tx.modify fun tables => tables.updateConversation id fun row =>
      { row with deletedAt := some deletedAt }
    pure (.commit id)) tables

/-- Append 1 to `maxAddItems` items to conversation `id`. -/
def addItems (env : Env) (project : Option Text) (id : Text) (items : List Json) (tables : Tables) :
    Except Error (List Item) × Tables :=
  transaction (do
    Tx.lift (ensure (!items.isEmpty && items.length ≤ maxAddItems) (.invalidArgument
      [.plain "between 1 and ".toList, .plain (decimal maxAddItems),
        .plain " items may be added at once".toList]))
    let items ← Tx.lift (normalizeItems env.draws items)
    let _ ← Tx.query (live id project)
    let createdAt ← Tx.lift (now env)
    insertItems id items createdAt
    pure (.commit items)) tables

def deleteItem (project : Option Text) (id itemId : Text) (tables : Tables) :
    Except Error Conversation × Tables :=
  transaction (do
    let _ ← Tx.query (live id project)
    deleteRow id itemId
    bumpVersion id
    let conversation ← Tx.query (live id project)
    pure (.commit conversation)) tables

def applied (tables : Tables) (id requestId : Text) : Option AppendRow :=
  tables.appends.find? fun row => row.conversationId == id && row.requestId == requestId

/-- Append generated history exactly once; `fingerprint` is the digest of items as sent. -/
def appendItems (fingerprint : List Json → Text) (env : Env) (project : Option Text) (id : Text)
    (append : Append) (tables : Tables) : Except Error Appended × Tables :=
  transaction (do
    Tx.lift (validateToken "request id" append.requestId)
    Tx.lift (ensure (!append.items.isEmpty && append.items.length ≤ maxAppendItems)
      (.invalidArgument [.plain "between 1 and ".toList, .plain (decimal maxAppendItems),
        .plain " items may be appended at once".toList]))
    let items ← Tx.lift (normalizeItems env.draws append.items)
    let conversation ← Tx.query (live id project)
    match ← Tx.query (fun tables => .ok (applied tables id append.requestId)) with
    | some row =>
      Tx.lift (ensure (row.fingerprint == fingerprint append.items) (.conflict
        [.plain "request ".toList, .plain append.requestId,
          .plain " was already applied to conversation ".toList, .plain id,
          .plain " with different items".toList]))
      -- only the ids were recorded
      let items ← Tx.query fun tables => .ok (selectItems tables id row.itemIds.contains)
      pure (.drop ⟨conversation, items, true⟩)
    | none =>
      Tx.lift (ensure (conversation.version == append.expectedVersion) (.conflict
        [.plain "conversation ".toList, .plain id, .plain " is at version ".toList,
          .plain (decimal conversation.version), .plain ", not the expected ".toList,
          .plain (decimal append.expectedVersion)]))
      let createdAt ← Tx.lift (now env)
      insertItems id items createdAt
      insertAppend ⟨id, append.requestId, fingerprint append.items, items.map Item.id⟩
      let conversation ← Tx.query (live id project)
      pure (.commit ⟨conversation, items, false⟩)) tables

/-! ### Runs -/

inductive Call
  | createConversation (project : Option Text) (metadata : Metadata) (items : List Json)
  | updateConversation (project : Option Text) (id : Text) (metadata : Metadata)
  | deleteConversation (project : Option Text) (id : Text)
  | addItems (project : Option Text) (id : Text) (items : List Json)
  | deleteItem (project : Option Text) (id itemId : Text)
  | appendItems (project : Option Text) (id : Text) (append : Append)

inductive Reply
  | conversation (conversation : Conversation)
  | deleted (id : Text)
  | items (items : List Item)
  | appended (appended : Appended)

def call (fingerprint : List Json → Text) (env : Env) (tables : Tables) :
    Call → Except Error Reply × Tables
  | .createConversation project metadata items =>
    (createConversation env project metadata items tables).map (Except.map .conversation) id
  | .updateConversation project id metadata =>
    (updateConversation project id metadata tables).map (Except.map .conversation) fun t => t
  | .deleteConversation project id =>
    (deleteConversation env project id tables).map (Except.map .deleted) fun t => t
  | .addItems project id items =>
    (addItems env project id items tables).map (Except.map .items) fun t => t
  | .deleteItem project id itemId =>
    (deleteItem project id itemId tables).map (Except.map .conversation) fun t => t
  | .appendItems project id append =>
    (appendItems fingerprint env project id append tables).map (Except.map .appended) fun t => t

def run (fingerprint : List Json → Text) (tables : Tables) (calls : List (Env × Call)) : Tables :=
  calls.foldl (fun tables made => (call fingerprint made.1 tables made.2).2) tables

end LocalAi.Conversations
