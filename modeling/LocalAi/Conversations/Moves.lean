import Mathlib.Data.List.Nodup
import LocalAi.Conversations.Store

/-!
# What one call on conversations does

* `Tables.Ok`: the ids of conversations, the keys of items and the requests are unique, and no
  row has a sequence number that is still to be given.
* `Moves`: what any call may do to the tables; `call_moves`: every call does.
* `appendItems_cases`: an append is applied, answered from its record, or fails.
-/

open List

namespace LocalAi.Conversations

open Lib
open Lib.Tx

/-- What is unique in the table of items. -/
abbrev Key := Text × Text

def ItemRow.key (row : ItemRow) : Key := (row.conversationId, row.id)

/-- The rows of conversation `id`, oldest first. -/
def rowsOf (tables : Tables) (id : Text) : List ItemRow :=
  tables.items.filter fun row => row.conversationId == id

/-- The version of conversation `id`; 0 before it exists. -/
def version (tables : Tables) (id : Text) : Nat :=
  ((tables.conversations.find? fun row => row.id == id).map ConversationRow.version).getD 0

def rowsFrom (seq : Nat) (id : Text) (createdAt : Nat) : List Item → List ItemRow
  | [] => []
  | item :: items => ⟨seq + 1, id, item.id, createdAt, item.body⟩ :: rowsFrom (seq + 1) id createdAt items

/-! ### Normalized batches -/

variable {draws : Nat → Draw} {normalized : List Item} {s t : Tables} {u : Unit}
  {conversation : Conversation} {project : Option Text}

variable {items : List Json}

theorem normalizeFrom_nodup {index : Nat} {seen : List Text}
    (h : normalizeFrom draws index seen items = .ok normalized) :
    (normalized.map Item.id).Nodup ∧ (∀ item ∈ normalized, item.id ∉ seen) ∧
      normalized.length = items.length := by
  induction items generalizing index seen normalized with
  | nil =>
    cases h
    exact ⟨nodup_nil, fun _ h => absurd h not_mem_nil, rfl⟩
  | cons item items ih =>
    obtain ⟨first, -, h⟩ := bind_eq_ok.mp h
    obtain ⟨_, hs, h⟩ := bind_eq_ok.mp h
    obtain ⟨rest, hr, h⟩ := bind_eq_ok.mp h
    cases h
    obtain ⟨hnd, hf, hl⟩ := ih hr
    have hs : first.id ∉ seen := by simpa using ensure_eq_ok.mp hs
    refine ⟨?_, ?_, by rw [length_cons, length_cons, hl]⟩
    · rw [map_cons, nodup_cons]
      refine ⟨?_, hnd⟩
      intro hm
      obtain ⟨other, ho, hid⟩ := mem_map.mp hm
      exact hf other ho (hid ▸ mem_cons_self)
    · intro other ho
      rcases mem_cons.mp ho with rfl | ho
      · exact hs
      · exact fun hm => hf other ho (mem_cons_of_mem _ hm)

theorem normalizeItems_nodup
    (h : normalizeItems draws items = .ok normalized) : (normalized.map Item.id).Nodup :=
  (normalizeFrom_nodup h).1

theorem normalizeItems_length
    (h : normalizeItems draws items = .ok normalized) : normalized.length = items.length :=
  (normalizeFrom_nodup h).2.2

/-! ### Inserted rows -/

theorem rowsFrom_keys (seq : Nat) (id : Text) (createdAt : Nat) (items : List Item) :
    (rowsFrom seq id createdAt items).map ItemRow.key = (items.map Item.id).map (Prod.mk id) := by
  induction items generalizing seq with
  | nil => rfl
  | cons item items ih =>
    rw [rowsFrom, map_cons, ih]
    rfl

variable {id : Text} {createdAt : Nat} {items : List Item}

theorem rowsFrom_conversation {seq : Nat} {row : ItemRow}
    (h : row ∈ rowsFrom seq id createdAt items) : row.conversationId = id := by
  have hk := mem_map_of_mem (f := ItemRow.key) h
  rw [rowsFrom_keys] at hk
  obtain ⟨_, -, hid⟩ := mem_map.mp hk
  exact (congrArg Prod.fst hid).symm

theorem rowsFrom_seqs (seq : Nat) (id : Text) (createdAt : Nat) (items : List Item) :
    (rowsFrom seq id createdAt items).map ItemRow.seq = range' (seq + 1) items.length := by
  induction items generalizing seq with
  | nil => rfl
  | cons item items ih =>
    rw [rowsFrom, map_cons, ih, length_cons, range'_succ]

theorem each_insertItem_runs (h : (each (insertItem id createdAt) items).Runs s u t) :
    (∀ item ∈ items, (id, item.id) ∉ s.items.map ItemRow.key) ∧ t = { s with
        items := s.items ++ rowsFrom s.lastSeq id createdAt items
        lastSeq := s.lastSeq + items.length } := by
  induction items generalizing s with
  | nil =>
    rw [runs_each_nil.mp h]
    exact ⟨fun _ h => absurd h not_mem_nil, by simp [rowsFrom]⟩
  | cons item items ih =>
    obtain ⟨m, hfst, hr⟩ := runs_each_cons.mp h
    obtain ⟨hu, rfl⟩ := runs_check.mp hfst
    obtain ⟨hf, rfl⟩ := ih hr
    refine ⟨?_, ?_⟩
    · intro other ho hm
      rcases mem_cons.mp ho with rfl | ho
      · obtain ⟨row, hrow, hk⟩ := mem_map.mp hm
        simp only [ItemRow.key, Prod.mk.injEq] at hk
        simp only [Bool.not_eq_true', any_eq_false, Bool.and_eq_true, beq_iff_eq] at hu
        exact hu row hrow hk
      · apply hf other ho
        rw [map_append]
        exact mem_append_left _ hm
    · simp only [rowsFrom, append_assoc, singleton_append, length_cons, Tables.mk.injEq, true_and]
      omega

def Tables.inserted (tables : Tables) (id : Text) (createdAt : Nat) (items : List Item) : Tables :=
  { tables with
    items := tables.items ++ rowsFrom tables.lastSeq id createdAt items
    lastSeq := tables.lastSeq + items.length }

def Tables.bumped (tables : Tables) (id : Text) : Tables :=
  tables.updateConversation id fun row => { row with version := row.version + 1 }

theorem insertItems_runs (h : (insertItems id items createdAt).Runs s u t) : (items = [] ∧ t = s) ∨
      (items ≠ [] ∧ (∀ item ∈ items, (id, item.id) ∉ s.items.map ItemRow.key) ∧
        t = (s.inserted id createdAt items).bumped id) := by
  unfold insertItems at h
  by_cases he : items = []
  · rw [he] at h
    exact .inl ⟨he, (runs_pure.mp h).2⟩
  · rw [if_neg (by simpa using he)] at h
    obtain ⟨stored, hs, h⟩ := runs_lift_bind.mp h
    obtain ⟨_, _, hs⟩ := bind_eq_ok.mp hs
    cases hs
    obtain ⟨_, m, hr, h⟩ := runs_bind.mp h
    obtain ⟨hf, rfl⟩ := each_insertItem_runs hr
    rw [runs_modify.mp h]
    exact .inr ⟨he, hf, rfl⟩

/-! ### What a call may do -/

def AppendRow.key (row : AppendRow) : Key := (row.conversationId, row.requestId)

structure Tables.Ok (tables : Tables) : Prop where
  conversation_ids : (tables.conversations.map ConversationRow.id).Nodup
  item_keys : (tables.items.map ItemRow.key).Nodup
  seq_le : ∀ row ∈ tables.items, row.seq ≤ tables.lastSeq
  append_keys : (tables.appends.map AppendRow.key).Nodup

theorem Tables.Ok.empty : Tables.empty.Ok := by
  constructor <;> simp [Tables.empty]

/-- A version grows by one when the rows of its conversation change, and by none otherwise. -/
structure Counted (s t : Tables) (id : Text) : Prop where
  same : rowsOf t id = rowsOf s id → version t id = version s id
  changed : rowsOf t id ≠ rowsOf s id → version t id = version s id + 1

structure Moves (s t : Tables) (gone : List Key) (new : List ItemRow) : Prop where
  items : t.items = s.items.filter (fun row => !gone.contains row.key) ++ new
  later : ∀ row ∈ new, s.lastSeq < row.seq
  lastSeq : s.lastSeq ≤ t.lastSeq
  fresh : ∀ row ∈ new, row.key ∉ s.items.map ItemRow.key
  appends : s.appends <+: t.appends
  counted : ∀ id, Counted s t id
  ok : t.Ok

theorem Moves.refl (h : s.Ok) : Moves s s [] [] where
  items := by simp
  later := fun _ h => absurd h not_mem_nil
  lastSeq := le_rfl
  fresh := fun _ h => absurd h not_mem_nil
  appends := prefix_refl _
  counted := fun _ => ⟨fun _ => rfl, fun h => absurd rfl h⟩
  ok := h

theorem Moves.of_conversations {m : Tables} {gone : List Key} {new : List ItemRow}
    (h : Moves m t gone new) (hi : m.items = s.items) (hs : m.lastSeq = s.lastSeq)
    (ha : m.appends = s.appends) (hv : ∀ id, version m id = version s id) : Moves s t gone new where
  items := hi ▸ h.items
  later := hs ▸ h.later
  lastSeq := hs ▸ h.lastSeq
  fresh := hi ▸ h.fresh
  appends := ha ▸ h.appends
  counted := fun id => by
    have hr : rowsOf m id = rowsOf s id := congrArg (filter _) hi
    have hc := h.counted id
    exact ⟨fun heq => (hc.same (heq.trans hr.symm)).trans (hv id),
      fun hne => (hc.changed fun heq => hne (heq.trans hr)).trans (by rw [hv id])⟩
  ok := h.ok

theorem find?_updateConversation {tables : Tables} {id c : Text}
    {change : ConversationRow → ConversationRow} (hid : ∀ row, (change row).id = row.id) :
    (tables.updateConversation id change).conversations.find? (fun row => row.id == c) =
      (tables.conversations.find? fun row => row.id == c).map fun row =>
        if c = id then change row else row := by
  unfold Tables.updateConversation
  induction tables.conversations with
  | nil => rfl
  | cons row rows ih =>
    have hs : (if row.id = id then change row else row).id = row.id := by
      split
      · exact hid row
      · rfl
    simp only [map_cons, find?_cons, hs]
    by_cases hc : row.id = c
    · simp [hc]
    · simp only [beq_eq_false_iff_ne.mpr hc]
      exact ih

theorem updateConversation_ids {tables : Tables} {id : Text}
    {change : ConversationRow → ConversationRow} (hid : ∀ row, (change row).id = row.id) :
    (tables.updateConversation id change).conversations.map ConversationRow.id
      = tables.conversations.map ConversationRow.id := by
  unfold Tables.updateConversation
  rw [map_map]
  apply map_congr_left
  intro row _
  show (if row.id = id then change row else row).id = row.id
  split
  · exact hid row
  · rfl

theorem Moves.update {change : ConversationRow → ConversationRow} (h : s.Ok)
    (hid : ∀ row, (change row).id = row.id) (hv : ∀ row, (change row).version = row.version) :
    Moves s (s.updateConversation id change) [] [] := by
  have hok : (s.updateConversation id change).Ok :=
    ⟨by rw [updateConversation_ids hid]; exact h.conversation_ids, h.item_keys, h.seq_le,
      h.append_keys⟩
  refine (Moves.refl hok).of_conversations rfl rfl rfl ?_
  intro c
  rw [version, version, find?_updateConversation hid, Option.map_map]
  congr 2
  funext row
  split
  · exact hv row
  · rfl

theorem version_bumped (c : Text) (hid : id ∈ s.conversations.map ConversationRow.id) :
    version (s.bumped id) c = version s c + if c = id then 1 else 0 := by
  have hb := @find?_updateConversation s id c
    (fun row => { row with version := row.version + 1 }) fun _ => rfl
  rw [version, version, Tables.bumped, hb]
  by_cases hc : c = id
  · obtain ⟨row, hr, rfl⟩ := mem_map.mp hid
    have hs : (s.conversations.find? fun other => other.id == c).isSome :=
      find?_isSome.mpr ⟨row, hr, by simp [hc]⟩
    obtain ⟨found, hf⟩ := Option.isSome_iff_exists.mp hs
    rw [hf, if_pos hc]
    simp [hc]
  · simp [hc]

theorem bumped_ok (h : s.Ok) : (s.bumped id).Ok := by
  have hi := @updateConversation_ids s id (fun row => { row with version := row.version + 1 })
    fun _ => rfl
  exact ⟨hi ▸ h.conversation_ids, h.item_keys, h.seq_le, h.append_keys⟩

theorem Moves.insert (h : s.Ok) (hne : items ≠ []) (hnd : (items.map Item.id).Nodup)
    (hf : ∀ item ∈ items, (id, item.id) ∉ s.items.map ItemRow.key)
    (hid : id ∈ s.conversations.map ConversationRow.id) :
    Moves s ((s.inserted id createdAt items).bumped id) []
      (rowsFrom s.lastSeq id createdAt items) := by
  have hr : ∀ row ∈ rowsFrom s.lastSeq id createdAt items,
      s.lastSeq < row.seq ∧ row.seq ≤ s.lastSeq + items.length := by
    intro row hr
    have hs := mem_map_of_mem (f := ItemRow.seq) hr
    rw [rowsFrom_seqs, mem_range'_1] at hs
    omega
  have hk : ∀ row ∈ rowsFrom s.lastSeq id createdAt items, row.key ∉ s.items.map ItemRow.key := by
    intro row hr
    have hkey := mem_map_of_mem (f := ItemRow.key) hr
    rw [rowsFrom_keys, map_map] at hkey
    obtain ⟨item, hi, heq⟩ := mem_map.mp hkey
    rw [← heq]
    exact hf item hi
  have hro : ∀ c, rowsOf ((s.inserted id createdAt items).bumped id) c =
      rowsOf s c ++ if c = id then rowsFrom s.lastSeq id createdAt items else [] := by
    intro c
    show (s.items ++ rowsFrom s.lastSeq id createdAt items).filter _ = _
    rw [filter_append, rowsOf]
    congr 1
    by_cases hc : c = id
    · rw [if_pos hc, filter_eq_self]
      intro row hr
      rw [rowsFrom_conversation hr, hc]
      exact beq_self_eq_true id
    · rw [if_neg hc, filter_eq_nil_iff]
      intro row hr
      rw [rowsFrom_conversation hr]
      simpa using fun h => hc h.symm
  refine ⟨?_, fun row hm => (hr row hm).1, Nat.le_add_right _ _, hk, prefix_refl _,
    ?_, bumped_ok ⟨h.conversation_ids, ?_, ?_, h.append_keys⟩⟩
  · simp [Tables.bumped, Tables.updateConversation, Tables.inserted]
  · intro c
    have hv : version ((s.inserted id createdAt items).bumped id) c =
        version s c + if c = id then 1 else 0 := version_bumped c hid
    by_cases hc : c = id
    · have hn : rowsFrom s.lastSeq id createdAt items ≠ [] := by
        cases items with
        | nil => exact absurd rfl hne
        | cons => exact cons_ne_nil _ _
      rw [if_pos hc] at hv
      refine ⟨fun heq => absurd heq ?_, fun _ => hv⟩
      rw [hro, if_pos hc]
      simpa using hn
    · rw [if_neg hc, Nat.add_zero] at hv
      refine ⟨fun _ => hv, fun hchg => absurd ?_ hchg⟩
      rw [hro, if_neg hc, append_nil]
  · show ((s.items ++ rowsFrom s.lastSeq id createdAt items).map ItemRow.key).Nodup
    rw [map_append, nodup_append]
    refine ⟨h.item_keys, ?_, ?_⟩
    · rw [rowsFrom_keys]
      exact hnd.map (fun a b hab => congrArg Prod.snd hab)
    · rintro key hold key' hnew rfl
      obtain ⟨row, hm, rfl⟩ := mem_map.mp hnew
      exact hk row hm hold
  · intro row hm
    rcases mem_append.mp hm with hm | hm
    · exact Nat.le_trans (h.seq_le row hm) (Nat.le_add_right _ _)
    · exact (hr row hm).2

theorem Moves.delete {itemId : Text} (h : s.Ok) (hid : id ∈ s.conversations.map ConversationRow.id)
    (hr : ∃ row ∈ s.items, row.key = (id, itemId)) : Moves s (({ s with
      items := s.items.filter fun row => !(row.conversationId == id && row.id == itemId) } :
      Tables).bumped id) [(id, itemId)] [] := by
  have hf : (s.items.filter fun row => !(row.conversationId == id && row.id == itemId)) =
      s.items.filter fun row => !([(id, itemId)] : List Key).contains row.key := by
    apply filter_congr
    intro row _
    rw [Bool.eq_iff_iff]
    simp [ItemRow.key]
  rw [hf]
  refine ⟨(append_nil _).symm, fun _ h => absurd h not_mem_nil, le_rfl,
    fun _ h => absurd h not_mem_nil, prefix_refl _, ?_,
    bumped_ok ⟨h.conversation_ids, h.item_keys.sublist (filter_sublist.map _), ?_, h.append_keys⟩⟩
  · intro c
    have hv : version (({ s with
        items := s.items.filter fun row => !([(id, itemId)] : List Key).contains row.key } :
        Tables).bumped id) c = version s c + if c = id then 1 else 0 := version_bumped c hid
    obtain ⟨row, hm, hkey⟩ := hr
    by_cases hc : c = id
    · rw [if_pos hc] at hv
      refine ⟨fun heq => absurd heq fun heq => ?_, fun _ => hv⟩
      have hco : row.conversationId = id := congrArg Prod.fst hkey
      have hold : row ∈ rowsOf s c := mem_filter.mpr ⟨hm, by simp [hc, hco]⟩
      rw [← heq] at hold
      have hk := (mem_filter.mp (mem_filter.mp hold).1).2
      rw [hkey] at hk
      simp at hk
    · rw [if_neg hc, Nat.add_zero] at hv
      refine ⟨fun _ => hv, fun hchg => absurd ?_ hchg⟩
      show (s.items.filter _).filter _ = s.items.filter _
      rw [filter_filter]
      apply filter_congr
      intro other _
      by_cases ho : other.conversationId = c
      · have hne : other.key ≠ (id, itemId) := fun h => hc (ho ▸ congrArg Prod.fst h)
        simp [ho, hne]
      · simp [ho]
  · exact fun row hm => h.seq_le row (mem_filter.mp hm).1

theorem Moves.record {gone : List Key} {new : List ItemRow} {row : AppendRow}
    (h : Moves s t gone new) (hf : row.key ∉ t.appends.map AppendRow.key) :
    Moves s { t with appends := t.appends ++ [row] } gone new := by
  refine ⟨h.items, h.later, h.lastSeq, h.fresh, h.appends.trans (prefix_append _ _),
    fun id => ⟨(h.counted id).same, (h.counted id).changed⟩, h.ok.conversation_ids, h.ok.item_keys,
    h.ok.seq_le, ?_⟩
  rw [map_append, nodup_append]
  refine ⟨h.ok.append_keys, nodup_singleton _, ?_⟩
  rintro key hold key' hn rfl
  rw [map_singleton, mem_singleton] at hn
  exact hf (hn ▸ hold)

/-! ### Calls -/

theorem live_eq_ok (h : live id project s = .ok conversation) :
    ∃ row ∈ s.conversations, row.id = id ∧ conversation.version = row.version := by
  unfold live at h
  split at h
  · next row hf =>
    cases h
    have hr := find?_some hf
    simp only [Bool.and_eq_true, beq_iff_eq] at hr
    exact ⟨row, mem_of_find?_eq_some hf, hr.1.1, rfl⟩
  · cases h

theorem live_mem
    (h : live id project s = .ok conversation) : id ∈ s.conversations.map ConversationRow.id := by
  obtain ⟨row, hr, hid, -⟩ := live_eq_ok h
  exact mem_map.mpr ⟨row, hr, hid⟩

theorem live_version (hok : s.Ok)
    (h : live id project s = .ok conversation) : conversation.version = version s id := by
  obtain ⟨row, hr, hid, hv⟩ := live_eq_ok h
  have hs : (s.conversations.find? fun other => other.id == id).isSome :=
    find?_isSome.mpr ⟨row, hr, by simp [hid]⟩
  obtain ⟨found, hf⟩ := Option.isSome_iff_exists.mp hs
  have hfoundId : found.id = id := by simpa using find?_some hf
  have hsa : found = row := inj_on_of_nodup_map hok.conversation_ids
    (mem_of_find?_eq_some hf) hr (hfoundId.trans hid.symm)
  rw [hv, version, hf, hsa]
  rfl

def insertKeys (env : Env) (tables : Tables) : Call → List Key
  | .createConversation _ _ items =>
    match newId "conv_".toList env.draw, normalizeItems env.draws items with
    | .ok id, .ok items => items.map fun item => (id, item.id)
    | _, _ => []
  | .addItems _ id items => keysOf id items
  | .appendItems _ id append =>
    if (applied tables id append.requestId).isSome then [] else keysOf id append.items
  | _ => []
where
  keysOf (id : Text) (items : List Json) : List Key :=
    match normalizeItems env.draws items with
    | .ok items => items.map fun item => (id, item.id)
    | .error _ => []

def deleted (tables : Tables) : Call → List Key
  | .deleteItem project id itemId =>
    match (deleteItem project id itemId tables).1 with
    | .ok _ => [(id, itemId)]
    | .error _ => []
  | _ => []

theorem transaction_moves {α : Type} {body : Tx Tables Error (Outcome α)}
    {keys : List Key} (hok : s.Ok) (hc : ∀ reply t, body.Runs s (.commit reply) t →
      ∃ new, Moves s t [] new ∧ ∀ row ∈ new, row.key ∈ keys) :
    ∃ new, Moves s (transaction body s).2 [] new ∧ ∀ row ∈ new, row.key ∈ keys := by
  rcases transaction_cases (rfl : transaction body s = _) with
    ⟨reply, t, hr, heq⟩ | ⟨reply, t, hr, heq⟩ | ⟨e, heq⟩
  · rw [heq]
    exact hc reply t hr
  · rw [heq]
    exact ⟨[], Moves.refl hok, fun _ h => absurd h not_mem_nil⟩
  · rw [heq]
    exact ⟨[], Moves.refl hok, fun _ h => absurd h not_mem_nil⟩

theorem insertItems_moves (hok : s.Ok)
    (hnd : (items.map Item.id).Nodup) (hid : id ∈ s.conversations.map ConversationRow.id)
    (h : (insertItems id items createdAt).Runs s u t) :
    Moves s t [] (rowsFrom s.lastSeq id createdAt items) := by
  rcases insertItems_runs h with ⟨rfl, rfl⟩ | ⟨hne, hf, rfl⟩
  · exact Moves.refl hok
  · exact Moves.insert hok hne hnd hf hid

theorem rowsFrom_mem_keys {seq : Nat} {row : ItemRow} (h : row ∈ rowsFrom seq id createdAt items) :
    row.key ∈ items.map fun item => (id, item.id) := by
  have hk := mem_map_of_mem (f := ItemRow.key) h
  rwa [rowsFrom_keys, map_map] at hk

theorem createConversation_moves (hok : s.Ok) (env : Env) (project : Option Text)
    (metadata : Metadata) (items : List Json) :
    ∃ new, Moves s (createConversation env project metadata items s).2 [] new ∧
      ∀ row ∈ new, row.key ∈ insertKeys env s (.createConversation project metadata items) := by
  apply transaction_moves hok
  intro reply t h
  obtain ⟨_, -, h⟩ := runs_lift_bind.mp h
  obtain ⟨_, -, h⟩ := runs_lift_bind.mp h
  obtain ⟨normalized, hn, h⟩ := runs_lift_bind.mp h
  obtain ⟨id, hid, h⟩ := runs_lift_bind.mp h
  obtain ⟨_, -, h⟩ := runs_lift_bind.mp h
  obtain ⟨createdAt, -, h⟩ := runs_lift_bind.mp h
  obtain ⟨huniq, h⟩ := runs_check_bind.mp h
  obtain ⟨_, m, hins, h⟩ := runs_bind.mp h
  obtain ⟨_, -, h⟩ := runs_query_bind.mp h
  obtain ⟨-, rfl⟩ := runs_pure.mp h
  have hu : id ∉ s.conversations.map ConversationRow.id := by
    intro hmem
    obtain ⟨row, hr, hid⟩ := mem_map.mp hmem
    simp only [Bool.not_eq_true', any_eq_false, beq_iff_eq] at huniq
    exact huniq row hr hid
  let row : ConversationRow := ⟨id, createdAt, metadata, 0, none, project⟩
  let created : Tables := { s with conversations := s.conversations ++ [row] }
  have hi : created.conversations.map ConversationRow.id
      = s.conversations.map ConversationRow.id ++ [id] := map_append
  have hc : created.Ok := by
    refine ⟨?_, hok.item_keys, hok.seq_le, hok.append_keys⟩
    rw [hi, nodup_append]
    refine ⟨hok.conversation_ids, nodup_singleton _, ?_⟩
    rintro a hold b hnew rfl
    exact hu (mem_singleton.mp hnew ▸ hold)
  have hmem : id ∈ created.conversations.map ConversationRow.id := by
    rw [hi]
    exact mem_append_right _ (mem_singleton_self id)
  have hm := insertItems_moves hc (normalizeItems_nodup hn) hmem hins
  refine ⟨_, hm.of_conversations rfl rfl rfl ?_, ?_⟩
  · intro c
    -- the new row counts from 0, as what was not there does
    show ((created.conversations.find? _).map _).getD 0 = _
    rw [version, find?_append]
    cases hf : s.conversations.find? fun row => row.id == c with
    | some => rfl
    | none =>
      rw [Option.none_or, find?_singleton]
      split <;> rfl
  · intro row hr
    simp only [insertKeys, hid, hn]
    exact rowsFrom_mem_keys hr

theorem updateConversation_moves (hok : s.Ok) (project : Option Text) (id : Text)
    (metadata : Metadata) : ∃ new, Moves s (updateConversation project id metadata s).2 [] new ∧
      ∀ row ∈ new, row.key ∈ ([] : List Key) := by
  apply transaction_moves hok
  intro reply t h
  obtain ⟨_, -, h⟩ := runs_lift_bind.mp h
  obtain ⟨_, -, h⟩ := runs_query_bind.mp h
  obtain ⟨_, -, h⟩ := runs_query_bind.mp (runs_modify_bind.mp h)
  obtain ⟨-, rfl⟩ := runs_pure.mp h
  exact ⟨[], Moves.update hok (fun _ => rfl) (fun _ => rfl), fun _ h => absurd h not_mem_nil⟩

theorem deleteConversation_moves (hok : s.Ok) (env : Env) (project : Option Text)
    (id : Text) : ∃ new, Moves s (deleteConversation env project id s).2 [] new ∧
      ∀ row ∈ new, row.key ∈ ([] : List Key) := by
  apply transaction_moves hok
  intro reply t h
  obtain ⟨_, -, h⟩ := runs_query_bind.mp h
  obtain ⟨_, -, h⟩ := runs_lift_bind.mp h
  obtain ⟨_, -, h⟩ := runs_lift_bind.mp h
  have h := runs_modify_bind.mp h
  obtain ⟨-, rfl⟩ := runs_pure.mp h
  exact ⟨[], Moves.update hok (fun _ => rfl) (fun _ => rfl), fun _ h => absurd h not_mem_nil⟩

theorem addItems_moves (hok : s.Ok) (env : Env) (project : Option Text) (id : Text)
    (items : List Json) : ∃ new, Moves s (addItems env project id items s).2 [] new ∧
      ∀ row ∈ new, row.key ∈ insertKeys env s (.addItems project id items) := by
  apply transaction_moves hok
  intro reply t h
  obtain ⟨_, -, h⟩ := runs_lift_bind.mp h
  obtain ⟨normalized, hn, h⟩ := runs_lift_bind.mp h
  obtain ⟨_, hl, h⟩ := runs_query_bind.mp h
  obtain ⟨_, -, h⟩ := runs_lift_bind.mp h
  obtain ⟨_, m, hi, h⟩ := runs_bind.mp h
  obtain ⟨-, rfl⟩ := runs_pure.mp h
  refine ⟨_, insertItems_moves hok (normalizeItems_nodup hn) (live_mem hl) hi, ?_⟩
  intro row hr
  simp only [insertKeys, insertKeys.keysOf, hn]
  exact rowsFrom_mem_keys hr

theorem deleteItem_cases (hok : s.Ok) (project : Option Text) (id itemId : Text) :
    (∃ reply t, deleteItem project id itemId s = (.ok reply, t) ∧ Moves s t [(id, itemId)] []) ∨
      ∃ e, deleteItem project id itemId s = (.error e, s) := by
  rcases transaction_cases (rfl : deleteItem project id itemId s = _) with
    ⟨reply, t, hr, heq⟩ | ⟨reply, t, hr, heq⟩ | ⟨e, heq⟩
  · obtain ⟨_, hl, h⟩ := runs_query_bind.mp hr
    obtain ⟨ha, h⟩ := runs_check_bind.mp h
    have h := runs_modify_bind.mp h
    obtain ⟨_, -, h⟩ := runs_query_bind.mp h
    obtain ⟨-, rfl⟩ := runs_pure.mp h
    refine .inl ⟨_, _, heq, Moves.delete hok (live_mem hl) ?_⟩
    obtain ⟨row, hrow, hk⟩ := any_eq_true.mp ha
    simp only [Bool.and_eq_true, beq_iff_eq] at hk
    exact ⟨row, hrow, Prod.ext hk.1 hk.2⟩
  · obtain ⟨_, -, h⟩ := runs_query_bind.mp hr
    obtain ⟨-, h⟩ := runs_check_bind.mp h
    have h := runs_modify_bind.mp h
    obtain ⟨_, -, h⟩ := runs_query_bind.mp h
    exact absurd (runs_pure.mp h).1 (by simp)
  · exact .inr ⟨e, heq⟩

theorem deleteItem_moves (hok : s.Ok) (project : Option Text) (id itemId : Text) :
    Moves s (deleteItem project id itemId s).2 (deleted s (.deleteItem project id itemId)) [] := by
  unfold deleted
  rcases deleteItem_cases hok project id itemId with ⟨reply, t, heq, hm⟩ | ⟨e, heq⟩
  · simp only [heq]
    exact hm
  · simp only [heq]
    exact Moves.refl hok

/-- The request had been applied: the answer is what is left of its items. -/
structure Replayed (fingerprint : List Json → Text) (project : Option Text) (id : Text)
    (append : Append) (s : Tables) (reply : Appended) : Prop where
  conversation : live id project s = .ok reply.conversation
  recorded : ∃ row, applied s id append.requestId = some row ∧
    row.fingerprint = fingerprint append.items ∧
    reply.items = selectItems s id row.itemIds.contains
  replayed : reply.replayed = true

structure AppliedNow (fingerprint : List Json → Text) (env : Env) (id : Text) (append : Append)
    (s t : Tables) (reply : Appended) : Prop where
  token : validateToken "request id" append.requestId = .ok ()
  count : (!append.items.isEmpty && append.items.length ≤ maxAppendItems) = true
  first : applied s id append.requestId = none
  expected : version s id = append.expectedVersion
  normalized : normalizeItems env.draws append.items = .ok reply.items
  nonempty : reply.items ≠ []
  rows : ∃ createdAt, t.items = s.items ++ rowsFrom s.lastSeq id createdAt reply.items ∧
    Moves s t [] (rowsFrom s.lastSeq id createdAt reply.items)
  appends : t.appends = s.appends ++
    [⟨id, append.requestId, fingerprint append.items, reply.items.map Item.id⟩]
  replayed : reply.replayed = false

theorem appendItems_cases {fingerprint : List Json → Text} {s : Tables} (hok : s.Ok) (env : Env)
    (project : Option Text) (id : Text) (append : Append) :
    (∃ reply t, appendItems fingerprint env project id append s = (.ok reply, t) ∧
      AppliedNow fingerprint env id append s t reply) ∨
    (∃ reply, appendItems fingerprint env project id append s = (.ok reply, s) ∧
      Replayed fingerprint project id append s reply) ∨
    ∃ e, appendItems fingerprint env project id append s = (.error e, s) := by
  rcases transaction_cases (rfl : appendItems fingerprint env project id append s = _) with
    ⟨reply, t, h, heq⟩ | ⟨reply, t, h, heq⟩ | ⟨e, heq⟩
  · obtain ⟨_, ht, h⟩ := runs_lift_bind.mp h
    obtain ⟨_, hc, h⟩ := runs_lift_bind.mp h
    obtain ⟨normalized, hn, h⟩ := runs_lift_bind.mp h
    obtain ⟨conversation, hl, h⟩ := runs_query_bind.mp h
    obtain ⟨found, hf, h⟩ := runs_query_bind.mp h
    have hf := Except.ok.inj hf
    have hc := ensure_eq_ok.mp hc
    cases found with
    | some =>
      obtain ⟨_, -, h⟩ := runs_lift_bind.mp h
      obtain ⟨_, -, h⟩ := runs_query_bind.mp h
      exact absurd (runs_pure.mp h).1 (by simp)
    | none =>
      obtain ⟨_, hv, h⟩ := runs_lift_bind.mp h
      obtain ⟨createdAt, -, h⟩ := runs_lift_bind.mp h
      obtain ⟨_, m, hins, h⟩ := runs_bind.mp h
      obtain ⟨hk, h⟩ := runs_check_bind.mp h
      obtain ⟨_, -, h⟩ := runs_query_bind.mp h
      obtain ⟨hr, rfl⟩ := runs_pure.mp h
      cases hr
      have hv := ensure_eq_ok.mp hv
      have hm := insertItems_moves hok (normalizeItems_nodup hn) (live_mem hl) hins
      have hne : normalized ≠ [] := by
        intro hnil
        have hlen := normalizeItems_length hn
        rw [hnil, length_nil] at hlen
        rw [length_eq_zero_iff.mp hlen.symm] at hc
        simp at hc
      have hfr : AppendRow.key ⟨id, append.requestId, fingerprint append.items,
          normalized.map Item.id⟩ ∉ m.appends.map AppendRow.key := by
        intro hmem
        obtain ⟨row, hrow, heq⟩ := mem_map.mp hmem
        simp only [Bool.not_eq_true', any_eq_false, Bool.and_eq_true, beq_iff_eq] at hk
        exact hk row hrow (Prod.mk.inj heq)
      have hi : m.items = s.items ++ rowsFrom s.lastSeq id createdAt normalized := by
        have := hm.items
        simpa using this
      refine .inl ⟨_, _, heq, ht, hc, hf, ?_, hn, hne, ⟨createdAt, hi, hm.record hfr⟩, ?_, rfl⟩
      · rw [← live_version hok hl]
        exact beq_iff_eq.mp hv
      · rcases insertItems_runs hins with ⟨-, rfl⟩ | ⟨-, -, rfl⟩
        · rfl
        · rfl
  · obtain ⟨_, -, h⟩ := runs_lift_bind.mp h
    obtain ⟨_, hc, h⟩ := runs_lift_bind.mp h
    obtain ⟨normalized, hn, h⟩ := runs_lift_bind.mp h
    obtain ⟨conversation, hl, h⟩ := runs_query_bind.mp h
    obtain ⟨found, hf, h⟩ := runs_query_bind.mp h
    have hf := Except.ok.inj hf
    cases found with
    | some row =>
      obtain ⟨_, hfp, h⟩ := runs_lift_bind.mp h
      obtain ⟨items, hi, h⟩ := runs_query_bind.mp h
      obtain ⟨hr, -⟩ := runs_pure.mp h
      cases hr
      exact .inr (.inl ⟨_, heq, hl, ⟨row, hf, beq_iff_eq.mp (ensure_eq_ok.mp hfp),
        (Except.ok.inj hi).symm⟩, rfl⟩)
    | none =>
      obtain ⟨_, -, h⟩ := runs_lift_bind.mp h
      obtain ⟨_, -, h⟩ := runs_lift_bind.mp h
      obtain ⟨_, m, -, h⟩ := runs_bind.mp h
      obtain ⟨-, h⟩ := runs_check_bind.mp h
      obtain ⟨_, -, h⟩ := runs_query_bind.mp h
      exact absurd (runs_pure.mp h).1 (by simp)
  · exact .inr (.inr ⟨e, heq⟩)

variable {fingerprint : List Json → Text}

theorem call_moves (fingerprint : List Json → Text) (hok : s.Ok) (env : Env) (made : Call) :
    ∃ new, Moves s (call fingerprint env s made).2 (deleted s made) new ∧
      ∀ row ∈ new, row.key ∈ insertKeys env s made := by
  cases made with
  | createConversation project metadata items =>
    exact createConversation_moves hok env project metadata items
  | updateConversation project id metadata =>
    exact updateConversation_moves hok project id metadata
  | deleteConversation project id => exact deleteConversation_moves hok env project id
  | addItems project id items => exact addItems_moves hok env project id items
  | deleteItem project id itemId =>
    exact ⟨[], deleteItem_moves hok project id itemId, fun _ h => absurd h not_mem_nil⟩
  | appendItems project id append =>
    rcases @appendItems_cases fingerprint s hok env project id append with
      ⟨reply, t, heq, ha⟩ | ⟨reply, heq, -⟩ | ⟨e, heq⟩
    · obtain ⟨createdAt, -, hm⟩ := ha.rows
      refine ⟨rowsFrom s.lastSeq id createdAt reply.items, ?_, ?_⟩
      · simp only [call, heq]
        exact hm
      · intro row hr
        simp only [insertKeys, ha.first, Option.isSome_none, Bool.false_eq_true, if_false,
          insertKeys.keysOf, ha.normalized]
        exact rowsFrom_mem_keys hr
    · simp only [call, heq]
      exact ⟨[], Moves.refl hok, fun _ h => absurd h not_mem_nil⟩
    · simp only [call, heq]
      exact ⟨[], Moves.refl hok, fun _ h => absurd h not_mem_nil⟩

theorem call_error {env : Env} {made : Call} {e : Error}
    (h : (call fingerprint env s made).1 = .error e) : (call fingerprint env s made).2 = s := by
  have hm : ∀ {α : Type} {x : Except Error α} {f : α → Reply}, x.map f = .error e →
      x = .error e := by
    intro α x f hx
    cases x with
    | error =>
      cases hx
      rfl
    | ok => cases hx
  cases made with
  | createConversation => exact transaction_error (hm h)
  | updateConversation => exact transaction_error (hm h)
  | deleteConversation => exact transaction_error (hm h)
  | addItems => exact transaction_error (hm h)
  | deleteItem => exact transaction_error (hm h)
  | appendItems => exact transaction_error (hm h)

end LocalAi.Conversations
