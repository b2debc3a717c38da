import LocalAi.Conversations.Moves

/-!
# Appends apply once

* `run_items`: after a run, the rows that were there are those not deleted since.
* `NeverReuses`: no item comes under a recorded id whose item was removed; then
  `selectItems_leftOf`: a record selects what is left of its request.
* `appends_once`: what holds of every run.
-/

open List

namespace LocalAi.Conversations

open Lib
open Lib.Tx

variable {fingerprint : List Json → Text}

/-! ### Runs -/

theorem run_append (s : Tables) (before after : List (Env × Call)) :
    run fingerprint s (before ++ after) = run fingerprint (run fingerprint s before) after :=
  foldl_append

variable {s : Tables} {before : List (Env × Call)} {id : Text}

variable (fingerprint) in
theorem run_ok (hok : s.Ok) (calls : List (Env × Call)) : (run fingerprint s calls).Ok := by
  induction calls generalizing s with
  | nil => exact hok
  | cons made calls ih =>
    obtain ⟨new, hm, -⟩ := call_moves fingerprint hok made.1 made.2
    exact ih hm.ok

def deletions (fingerprint : List Json → Text) (s : Tables) : List (Env × Call) → List Key
  | [] => []
  | made :: calls =>
    deleted s made.2 ++ deletions fingerprint (call fingerprint made.1 s made.2).2 calls

theorem deletions_append (s : Tables) (before after : List (Env × Call)) :
    deletions fingerprint s (before ++ after) = deletions fingerprint s before ++
      deletions fingerprint (run fingerprint s before) after := by
  induction before generalizing s with
  | nil => rfl
  | cons made before ih =>
    rw [cons_append, deletions, deletions, ih, append_assoc]
    rfl

variable (fingerprint) in
theorem run_items (hok : s.Ok) (calls : List (Env × Call)) :
    ∃ later, (run fingerprint s calls).items =
        s.items.filter (fun row => !(deletions fingerprint s calls).contains row.key) ++ later ∧
      ∀ row ∈ later, s.lastSeq < row.seq := by
  induction calls generalizing s with
  | nil => exact ⟨[], by simp [run, deletions], fun _ h => absurd h not_mem_nil⟩
  | cons made calls ih =>
    obtain ⟨new, hm, -⟩ := call_moves fingerprint hok made.1 made.2
    obtain ⟨later, hi, hl⟩ := ih hm.ok
    refine ⟨new.filter (fun row => !(deletions fingerprint
      (call fingerprint made.1 s made.2).2 calls).contains row.key) ++ later, ?_, ?_⟩
    · show (run fingerprint (call fingerprint made.1 s made.2).2 calls).items = _
      rw [hi, hm.items, filter_append, filter_filter, append_assoc]
      congr 1
      apply filter_congr
      intro row _
      rw [Bool.eq_iff_iff, deletions]
      simp [and_comm]
    · intro row hr
      rcases mem_append.mp hr with hr | hr
      · exact hm.later row (mem_filter.mp hr).1
      · exact Nat.lt_of_le_of_lt hm.lastSeq (hl row hr)

theorem run_appends {s : Tables} (hok : s.Ok) (calls : List (Env × Call)) :
    s.appends <+: (run fingerprint s calls).appends := by
  induction calls generalizing s with
  | nil => exact prefix_refl _
  | cons made calls ih =>
    obtain ⟨new, hm, -⟩ := call_moves fingerprint hok made.1 made.2
    exact hm.appends.trans (ih hm.ok)

def recorded (tables : Tables) : List Key :=
  tables.appends.flatMap fun row => row.itemIds.map (Prod.mk row.conversationId)

variable (fingerprint) in
theorem recorded_subset (hok : s.Ok) (calls : List (Env × Call)) :
    recorded s ⊆ recorded (run fingerprint s calls) := by
  intro key hk
  obtain ⟨more, ha⟩ := @run_appends fingerprint s hok calls
  rw [recorded, ← ha, flatMap_append]
  exact mem_append_left _ hk

def NeverReuses (fingerprint : List Json → Text) (calls : List (Env × Call)) : Prop :=
  ∀ before made after, calls = before ++ made :: after →
    ∀ key ∈ insertKeys made.1 (run fingerprint .empty before) made.2,
      key ∈ recorded (run fingerprint .empty before) →
      key ∉ deletions fingerprint .empty before

theorem row_mem_of_neverReuses {middle : List (Env × Call)}
    (hreuse : NeverReuses fingerprint (before ++ middle)) {row : ItemRow}
    (hr : row ∈ (run fingerprint .empty (before ++ middle)).items)
    (hk : row.key ∈ (run fingerprint .empty before).items.map ItemRow.key)
    (hrec : row.key ∈ recorded (run fingerprint .empty before)) :
    row ∈ (run fingerprint .empty before).items := by
  induction middle using reverseRecOn with
  | nil => rwa [append_nil] at hr
  | append_singleton middle made ih =>
    have hok := run_ok fingerprint Tables.Ok.empty (before ++ middle)
    obtain ⟨new, hm, hn⟩ := call_moves fingerprint hok made.1 made.2
    have hp : NeverReuses fingerprint (before ++ middle) := by
      intro before' made' after' hs
      refine hreuse before' made' (after' ++ [made]) ?_
      rw [← append_assoc, hs, append_assoc, cons_append]
    rw [← append_assoc, run_append] at hr
    have hr : row ∈ (call fingerprint made.1 (run fingerprint .empty (before ++ middle))
        made.2).2.items := hr
    rw [hm.items] at hr
    rcases mem_append.mp hr with hr | hr
    · exact ih hp (mem_filter.mp hr).1
    · -- the row that was there must have been removed before this call
      exfalso
      have hb := recorded_subset fingerprint (run_ok fingerprint Tables.Ok.empty before) middle hrec
      rw [← run_append] at hb
      have hrem := hreuse (before ++ middle) made [] (by simp) row.key (hn row hr) hb
      rw [deletions_append, mem_append, not_or] at hrem
      obtain ⟨old, hold, holdKey⟩ := mem_map.mp hk
      obtain ⟨later, hi, -⟩ := run_items fingerprint
        (run_ok fingerprint Tables.Ok.empty before) middle
      apply hm.fresh row hr
      rw [run_append, hi]
      refine mem_map.mpr ⟨old, mem_append_left _ (mem_filter.mpr ⟨hold, ?_⟩), holdKey⟩
      rw [holdKey]
      simpa using hrem.2

/-- What `calls` leave of the items that a request brought when it was applied. -/
def leftOf (fingerprint : List Json → Text) (s t : Tables) (calls : List (Env × Call)) : List Item :=
  ((t.items.drop s.items.length).filter fun row =>
    !(deletions fingerprint t calls).contains row.key).map ItemRow.item

theorem selectItems_leftOf {middle : List (Env × Call)} {made : Env × Call}
    {createdAt : Nat} {items : List Item}
    (hreuse : NeverReuses fingerprint (before ++ [made] ++ middle))
    (hr : (run fingerprint .empty (before ++ [made])).items =
      (run fingerprint .empty before).items ++
        rowsFrom (run fingerprint .empty before).lastSeq id createdAt items)
    (hrec : ∀ item ∈ items, (id, item.id) ∈ recorded (run fingerprint .empty (before ++ [made]))) :
    selectItems (run fingerprint .empty (before ++ [made] ++ middle)) id
        (items.map Item.id).contains =
      leftOf fingerprint (run fingerprint .empty before) (run fingerprint .empty (before ++ [made]))
        middle := by
  have hok := run_ok fingerprint Tables.Ok.empty (before ++ [made])
  obtain ⟨later, hi, hl⟩ := run_items fingerprint hok middle
  let rows := rowsFrom (run fingerprint .empty before).lastSeq id createdAt items
  let wanted : ItemRow → Bool := fun row =>
    row.conversationId == id && (items.map Item.id).contains row.id
  have hwa : ∀ row, wanted row = true ↔ row.key ∈ rows.map ItemRow.key := by
    intro row
    simp only [wanted, rows, rowsFrom_keys, Bool.and_eq_true, beq_iff_eq, contains_iff_mem,
      ItemRow.key, mem_map (f := Prod.mk id), Prod.mk.injEq]
    constructor
    · rintro ⟨hid, hm⟩
      exact ⟨row.id, hm, hid.symm, rfl⟩
    · rintro ⟨other, hm, hid, rfl⟩
      exact ⟨hid.symm, hm⟩
  have hk := hok.item_keys
  rw [hr, map_append, nodup_append] at hk
  -- older rows have other keys, the request's own are all wanted
  have hold : (run fingerprint .empty before).items.filter wanted = [] := by
    rw [filter_eq_nil_iff]
    intro row hrow hw
    exact hk.2.2 row.key (mem_map_of_mem hrow) row.key ((hwa row).mp hw) rfl
  have ho : rows.filter wanted = rows := by
    rw [filter_eq_self]
    exact fun row hrow => (hwa row).mpr (mem_map_of_mem hrow)
  -- a later row under one of these keys would be a row that was there
  have hno : later.filter wanted = [] := by
    rw [filter_eq_nil_iff]
    intro row hrow hw
    have hkey : row.key ∈ (run fingerprint .empty (before ++ [made])).items.map ItemRow.key := by
      rw [hr, map_append]
      exact mem_append_right _ ((hwa row).mp hw)
    have hm : row ∈ (run fingerprint .empty (before ++ [made] ++ middle)).items := by
      rw [run_append, hi]
      exact mem_append_right _ hrow
    have hn : row.key ∈ recorded (run fingerprint .empty (before ++ [made])) := by
      have ho := (hwa row).mp hw
      rw [rowsFrom_keys, map_map] at ho
      obtain ⟨item, hitem, heq⟩ := mem_map.mp ho
      rw [← heq]
      exact hrec item hitem
    have hle := hok.seq_le row (row_mem_of_neverReuses hreuse hm hkey hn)
    have hlt := hl row hrow
    omega
  have hs : (run fingerprint .empty (before ++ [made] ++ middle)).items.filter wanted =
      rows.filter fun row => !(deletions fingerprint (run fingerprint .empty (before ++ [made]))
        middle).contains row.key := by
    rw [run_append, hi, filter_append, hno, append_nil, filter_filter]
    rw [show (fun row => wanted row && !(deletions fingerprint
        (run fingerprint .empty (before ++ [made])) middle).contains row.key) =
      fun row => !(deletions fingerprint (run fingerprint .empty (before ++ [made]))
        middle).contains row.key && wanted row from funext fun _ => Bool.and_comm _ _,
      ← filter_filter, hr, filter_append, hold, ho, nil_append]
  rw [selectItems, leftOf, hr, drop_left]
  exact congrArg (map ItemRow.item) hs

/-! ### Once -/

theorem applied_eq {s : Tables} (hok : s.Ok) {row : AppendRow} (hr : row ∈ s.appends) :
    applied s row.conversationId row.requestId = some row := by
  have hs : (applied s row.conversationId row.requestId).isSome :=
    find?_isSome.mpr ⟨row, hr, by simp⟩
  obtain ⟨found, hf⟩ := Option.isSome_iff_exists.mp hs
  have hk := find?_some hf
  simp only [Bool.and_eq_true, beq_iff_eq] at hk
  rw [hf, inj_on_of_nodup_map hok.append_keys (mem_of_find?_eq_some hf) hr (Prod.ext hk.1 hk.2)]

theorem appendItems_replays {s : Tables} {env : Env} {project : Option Text} {id : Text}
    {append : Append} {items : List Item} {conversation : Conversation} {row : AppendRow}
    (ht : validateToken "request id" append.requestId = .ok ())
    (hc : (!append.items.isEmpty && append.items.length ≤ maxAppendItems) = true)
    (hn : normalizeItems env.draws append.items = .ok items)
    (hl : live id project s = .ok conversation) (hr : applied s id append.requestId = some row)
    (hs : row.fingerprint = fingerprint append.items) :
    appendItems fingerprint env project id append s =
      (.ok ⟨conversation, selectItems s id row.itemIds.contains, true⟩, s) := by
  refine transaction_drop (t := s) ?_
  refine runs_lift_bind.mpr ⟨(), ht, ?_⟩
  refine runs_lift_bind.mpr ⟨(), ensure_eq_ok.mpr hc, ?_⟩
  refine runs_lift_bind.mpr ⟨items, hn, ?_⟩
  refine runs_query_bind.mpr ⟨conversation, hl, ?_⟩
  refine runs_query_bind.mpr ⟨some row, congrArg Except.ok hr, ?_⟩
  refine runs_lift_bind.mpr ⟨(), ensure_eq_ok.mpr (beq_iff_eq.mpr hs), ?_⟩
  exact runs_query_bind.mpr ⟨_, rfl, runs_pure.mpr ⟨rfl, rfl⟩⟩

def Applies (fingerprint : List Json → Text) (before : List (Env × Call)) (made : Env × Call)
    (id : Text) (append : Append) (reply : Appended) : Prop :=
  (∃ project, made.2 = .appendItems project id append) ∧
    (call fingerprint made.1 (run fingerprint .empty before) made.2).1 = .ok (.appended reply) ∧
    reply.replayed = false

theorem Applies.appliedNow {made : Env × Call}
    {append : Append} {reply : Appended} (h : Applies fingerprint before made id append reply) :
    AppliedNow fingerprint made.1 id append (run fingerprint .empty before)
      (run fingerprint .empty (before ++ [made])) reply := by
  obtain ⟨⟨project, hm⟩, hr, hf⟩ := h
  have hok := run_ok fingerprint Tables.Ok.empty before
  have hrun : run fingerprint .empty (before ++ [made]) =
      (call fingerprint made.1 (run fingerprint .empty before) made.2).2 := run_append _ _ _
  rw [hrun]
  rw [hm] at hr ⊢
  rcases @appendItems_cases fingerprint _ hok made.1 project id append with
    ⟨reply', t, heq, ha⟩ | ⟨reply', heq, hre⟩ | ⟨e, heq⟩
  · simp only [call, heq] at hr ⊢
    cases hr
    exact ha
  · simp only [call, heq] at hr
    cases hr
    rw [hre.replayed] at hf
    cases hf
  · simp only [call, heq] at hr
    cases hr

theorem AppliedNow.recorded {env : Env} {append : Append} {t : Tables}
    {reply : Appended} (h : AppliedNow fingerprint env id append s t reply) :
    ∀ item ∈ reply.items, (id, item.id) ∈ recorded t := by
  intro item hi
  rw [Conversations.recorded, h.appends, flatMap_append]
  refine mem_append_right _ ?_
  rw [flatMap_singleton, map_map]
  exact mem_map.mpr ⟨item, hi, rfl⟩

/-- A later call with the id of an applied request applies nothing: it fails when its items
are others, and else answers with what is left of the request's items. -/
theorem Applies.again {before middle : List (Env × Call)} {made again : Env × Call} {id : Text}
    {append append' : Append} {reply : Appended} {project : Option Text}
    (hfp : fingerprint append'.items = fingerprint append.items → append'.items = append.items)
    (h : Applies fingerprint before made id append reply)
    (hag : again.2 = .appendItems project id append')
    (hreq : append'.requestId = append.requestId) :
    let s := run fingerprint .empty before
    let t := run fingerprint .empty (before ++ [made])
    let u := run fingerprint .empty (before ++ [made] ++ middle)
    let answer := call fingerprint again.1 u again.2
    answer.2 = u ∧ (∀ reply', answer.1 = .ok (.appended reply') → reply'.replayed = true) ∧
    (append'.items ≠ append.items → ∃ e, answer.1 = .error e) ∧
    (append'.items = append.items → NeverReuses fingerprint (before ++ [made] ++ middle) →
      ∀ conversation items, live id project u = .ok conversation →
      normalizeItems again.1.draws append'.items = .ok items →
      answer.1 = .ok (.appended ⟨conversation, leftOf fingerprint s t middle, true⟩)) := by
  intro s t u answer
  have ha := h.appliedNow
  have ht := run_ok fingerprint Tables.Ok.empty (before ++ [made])
  have hu : u.Ok := run_ok fingerprint Tables.Ok.empty _
  let row : AppendRow :=
    ⟨id, append.requestId, fingerprint append.items, reply.items.map Item.id⟩
  have hrow : applied u id append'.requestId = some row := by
    obtain ⟨more, hm⟩ := @run_appends fingerprint t ht middle
    rw [hreq]
    refine @applied_eq u hu row ?_
    show row ∈ (run fingerprint .empty (before ++ [made] ++ middle)).appends
    rw [run_append, ← hm]
    refine mem_append_left _ ?_
    rw [show t.appends = _ from ha.appends]
    exact mem_append_right _ (mem_singleton_self _)
  have hans : answer = (appendItems fingerprint again.1 project id append' u).map
      (Except.map .appended) fun t => t := by
    show call fingerprint again.1 u again.2 = _
    rw [hag]
    rfl
  refine ⟨?_, ?_, ?_, ?_⟩
  · rw [hans]
    rcases @appendItems_cases fingerprint u hu again.1 project id append' with
      ⟨reply', t', heq, hn⟩ | ⟨reply', heq, -⟩ | ⟨e, heq⟩
    · rw [hn.first] at hrow
      cases hrow
    · rw [heq]
      rfl
    · rw [heq]
      rfl
  · intro reply' hr
    rw [hans] at hr
    rcases @appendItems_cases fingerprint u hu again.1 project id append' with
      ⟨reply', t', heq, hn⟩ | ⟨reply', heq, hrepl⟩ | ⟨e, heq⟩
    · rw [hn.first] at hrow
      cases hrow
    · rw [heq] at hr
      cases hr
      exact hrepl.replayed
    · rw [heq] at hr
      cases hr
  · intro ho
    rw [hans]
    rcases @appendItems_cases fingerprint u hu again.1 project id append' with
      ⟨reply', t', heq, hn⟩ | ⟨reply', heq, hrepl⟩ | ⟨e, heq⟩
    · rw [hn.first] at hrow
      cases hrow
    · obtain ⟨found, hf, hs, -⟩ := hrepl.recorded
      rw [hrow] at hf
      cases hf
      exact absurd (hfp hs.symm) ho
    · rw [heq]
      exact ⟨e, rfl⟩
  · intro hs hreuse conversation items hl hno
    obtain ⟨createdAt, hrows, -⟩ := ha.rows
    have hreplay := @appendItems_replays fingerprint u again.1 project id append' items conversation
      row (hreq ▸ ha.token) (hs ▸ ha.count) hno hl hrow
      (congrArg fingerprint hs.symm)
    rw [hans, hreplay, ← selectItems_leftOf hreuse hrows ha.recorded]
    rfl

theorem nodup_rowsOf (hok : s.Ok) (id : Text) : ((rowsOf s id).map ItemRow.id).Nodup := by
  have hk : ((rowsOf s id).map ItemRow.key).Nodup :=
    hok.item_keys.sublist (filter_sublist.map _)
  have hs : (rowsOf s id).map ItemRow.key = ((rowsOf s id).map ItemRow.id).map (Prod.mk id) := by
    rw [map_map]
    apply map_congr_left
    intro row hr
    exact Prod.ext (beq_iff_eq.mp (mem_filter.mp hr).2) rfl
  rw [hs] at hk
  exact hk.of_map _

/-- The lists of items that the requests of a run send. -/
def sent (calls : List (Env × Call)) : List (List Json) :=
  calls.filterMap fun made => match made.2 with
    | .appendItems _ _ append => some append.items
    | _ => none

theorem mem_sent {calls : List (Env × Call)} {made : Env × Call} {project : Option Text} {id : Text}
    {append : Append} (hmem : made ∈ calls) (hm : made.2 = .appendItems project id append) :
    append.items ∈ sent calls :=
  mem_filterMap.mpr ⟨made, hmem, by rw [hm]⟩

/-- Over every run from an empty store, when the digests of what its requests send do not
collide.  Each call: versions count the calls that changed the
rows of a conversation, ids stay unique in it, a failing call changes nothing, and a request is
applied at the version it expects, its items as one block in order.  Each later call under the
request's id: nothing changes; with other items it fails, and with the same items, in a run
that never brings an item under a recorded id whose item was removed, it answers with the items
that were not deleted since, whatever the version. -/
theorem appends_once (fingerprint : List Json → Text) (calls : List (Env × Call))
    (hfingerprint : ∀ a ∈ sent calls, ∀ b ∈ sent calls, fingerprint a = fingerprint b → a = b) :
    (∀ before made after, calls = before ++ made :: after →
      let s := run fingerprint .empty before
      let answer := call fingerprint made.1 s made.2
      (∀ id, Counted s answer.2 id) ∧ (∀ id, ((rowsOf answer.2 id).map ItemRow.id).Nodup) ∧
      (∀ e, answer.1 = .error e → answer.2 = s) ∧
      (∀ id append reply, Applies fingerprint before made id append reply →
        version s id = append.expectedVersion ∧
        normalizeItems made.1.draws append.items = .ok reply.items ∧
        ∃ createdAt, answer.2.items = s.items ++ rowsFrom s.lastSeq id createdAt reply.items)) ∧
    (∀ before made middle again after id append reply project append',
      calls = before ++ [made] ++ middle ++ again :: after →
      Applies fingerprint before made id append reply →
      again.2 = .appendItems project id append' → append'.requestId = append.requestId →
      let s := run fingerprint .empty before
      let t := run fingerprint .empty (before ++ [made])
      let u := run fingerprint .empty (before ++ [made] ++ middle)
      let answer := call fingerprint again.1 u again.2
      answer.2 = u ∧ (∀ reply', answer.1 = .ok (.appended reply') → reply'.replayed = true) ∧
      (append'.items ≠ append.items → ∃ e, answer.1 = .error e) ∧
      (append'.items = append.items → NeverReuses fingerprint calls →
        ∀ conversation items, live id project u = .ok conversation →
        normalizeItems again.1.draws append'.items = .ok items →
        answer.1 = .ok (.appended ⟨conversation, leftOf fingerprint s t middle, true⟩))) := by
  refine ⟨?_, ?_⟩
  · intro before made after hc s answer
    have hok : s.Ok := run_ok fingerprint Tables.Ok.empty before
    obtain ⟨new, hm, -⟩ := call_moves fingerprint hok made.1 made.2
    refine ⟨hm.counted, fun id => nodup_rowsOf hm.ok id, fun e he => call_error he, ?_⟩
    intro id append reply ha
    have hn := ha.appliedNow
    obtain ⟨createdAt, hro, -⟩ := hn.rows
    have hrun : run fingerprint .empty (before ++ [made]) = answer.2 := run_append _ _ _
    exact ⟨hn.expected, hn.normalized, createdAt, hrun ▸ hro⟩
  · intro before made middle again after id append reply project append' hc ha hag
      hreq s t u answer
    have ⟨⟨project', hma⟩, _⟩ := ha
    have hco := hfingerprint append'.items
      (@mem_sent calls again _ _ _ (by rw [hc]; simp) hag) append.items
      (@mem_sent calls made _ _ _ (by rw [hc]; simp) hma)
    obtain ⟨hsa, hrepl, hoth, hl⟩ := @Applies.again fingerprint before
      middle made again id append append' reply project hco ha hag hreq
    refine ⟨hsa, hrepl, hoth, fun hi hr => hl hi ?_⟩
    intro before' made' after' hs
    refine hr before' made' (after' ++ again :: after) ?_
    rw [hc, hs, append_assoc, cons_append]

/-! ### An id used again -/

def userMessage (id text : String) : Json :=
  .object [("id".toList, string id), ("role".toList, string "user"), ("content".toList, string text)]

/-- What a call sees outside when it draws `a` for a conversation. -/
def env : Env := ⟨some 0, some ['a'], fun _ => none⟩

/-- A request with the items `x` and `y`. -/
def request : Env × Call :=
  (env, .appendItems none "conv_a".toList
    ⟨"r".toList, 0, [userMessage "x" "one", userMessage "y" "one"]⟩)

def create : Env × Call := (env, .createConversation none [] [])

def deleteX : Env × Call := (env, .deleteItem none "conv_a".toList "x".toList)

/-- Another item under the id `x`. -/
def addX : Env × Call := (env, .addItems none "conv_a".toList [userMessage "x" "two"])

def textOf (items : List Json) : Text := (Json.array items).toText

def answeredIds : Except Error Reply → List Text
  | .ok (.appended reply) => reply.items.map Item.id
  | _ => []

theorem retry_answers_other_item :
    answeredIds (call textOf env (run textOf .empty [create, request, deleteX, addX]) request.2).1
        = ["y".toList, "x".toList] ∧
      (leftOf textOf (run textOf .empty [create]) (run textOf .empty [create, request])
        [deleteX, addX]).map Item.id = ["y".toList] := by
  decide +kernel

def replayedOf : Except Error Reply → Option Bool
  | .ok (.appended reply) => some reply.replayed
  | _ => none

theorem replayedOf_eq_some {answer : Except Error Reply} {replayed : Bool}
    (h : replayedOf answer = some replayed) :
    ∃ reply, answer = .ok (.appended reply) ∧ reply.replayed = replayed := by
  unfold replayedOf at h
  split at h
  · next reply => exact ⟨reply, rfl, Option.some.inj h⟩
  · cases h

theorem isOk_exists {α : Type} {x : Except Error α} (h : x.isOk = true) : ∃ a, x = .ok a := by
  cases x with
  | error => cases h
  | ok a => exact ⟨a, rfl⟩

theorem neverReuses_retry : NeverReuses textOf [create, request, deleteX, request] := by
  intro before made after h
  match before, h with
  | [], h => cases h; decide +kernel
  | [_], h => cases h; decide +kernel
  | [_, _], h => cases h; decide +kernel
  | [_, _, _], h => cases h; decide +kernel
  | _ :: _ :: _ :: _ :: rest, h => simp at h

/-- Without the other item it answers with `y` alone. -/
theorem retry_answers_rest :
    answeredIds (call textOf env (run textOf .empty [create, request, deleteX]) request.2).1
      = ["y".toList] := by
  obtain ⟨reply, hr, hf⟩ := @replayedOf_eq_some
    (call textOf env (run textOf .empty [create]) request.2).1 false (by decide +kernel)
  obtain ⟨conversation, hl⟩ := isOk_exists (show (live "conv_a".toList none
    (run textOf .empty [create, request, deleteX])).isOk = true by decide +kernel)
  obtain ⟨items, hn⟩ := isOk_exists (show (normalizeItems env.draws
    [userMessage "x" "one", userMessage "y" "one"]).isOk = true by decide +kernel)
  have ho := (appends_once textOf [create, request, deleteX, request] (by
    intro a ha b hb _
    have hs : ∀ c ∈ sent [create, request, deleteX, request],
        c = [userMessage "x" "one", userMessage "y" "one"] := by
      simp [sent, create, request, deleteX]
    rw [hs a ha, hs b hb])).2 [create] request [deleteX] request [] "conv_a".toList
      ⟨"r".toList, 0, [userMessage "x" "one", userMessage "y" "one"]⟩ reply none _ rfl
      ⟨⟨none, rfl⟩, hr, hf⟩ rfl rfl
  have hans := ho.2.2.2 rfl neverReuses_retry conversation items hl hn
  rw [show (call textOf env (run textOf .empty [create, request, deleteX]) request.2).1 = _
    from hans]
  show (leftOf textOf (run textOf .empty [create]) (run textOf .empty [create, request])
    [deleteX]).map Item.id = _
  decide +kernel

end LocalAi.Conversations
