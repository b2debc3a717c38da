import LocalAi.Responses.State
import LocalAi.Responses.Client
import LocalAi.Tools.Sent
import Mathlib.Data.List.Nodup

/-!
# A client beside a Response

The client that reads the events of a Response has a slot for each of its output
indices, and each slot stands as the state machine has it: being written, called,
waiting for a summary, searching, or finished.

* `Tracks`: the client that has read all events, slot by slot.
* `Tracks.change`, `Tracks.push`, `Tracks.unrelated`: what events do to the slots.
-/

open List

namespace LocalAi.Responses

variable {L : Type}

/-! ### Item ids -/

def digitsValue (text : Text) : Nat :=
  text.foldl (fun value c => value * 10 + (c.toNat - '0'.toNat)) 0

theorem digitsValue_toDigits (n : Nat) : digitsValue (Nat.toDigits 10 n) = n := by
  have hd : ∀ d < 10, (Nat.digitChar d).toNat - '0'.toNat = d := by decide
  induction n using Nat.strongRecOn with
  | ind n ih =>
    rw [Nat.toDigits_eq_if (by decide)]
    split
    · next hlt =>
      rw [digitsValue, foldl_cons, foldl_nil, hd n hlt]
      omega
    · next hge =>
      have hq := ih (n / 10) (by omega)
      rw [digitsValue] at hq
      rw [digitsValue, foldl_append, hq, foldl_cons, foldl_nil, hd (n % 10) (by omega)]
      omega

theorem digitsValue_paddedIndex (n : Nat) : digitsValue (paddedIndex n) = n := by
  unfold paddedIndex
  split
  · exact digitsValue_toDigits n
  · exact digitsValue_toDigits n

theorem takeWhile_underscore {front : Text} (hf : '_' ∉ front) (rest : Text) :
    (front ++ '_' :: rest).takeWhile (fun c => c != '_') = front := by
  rw [takeWhile_append_of_pos]
  · simp
  · intro c hc
    have hne : c ≠ '_' := fun heq => hf (heq ▸ hc)
    simpa using hne

theorem itemId_eq (echo : Echo) (kind : Text) (n : Nat) :
    echo.itemId kind n = kind ++ '_' :: (echo.stem ++ paddedIndex n) := by
  rw [Echo.itemId, append_assoc, cons_append]

variable {kind : Text} {events : List (StreamEvent L)} {t : State L} {slot slot' : Slot L} {i : Nat}
  {entry : Option (Item L)}

variable {echo : Echo}

theorem itemId_injective {kind' : Text} {m n : Nat} (hk : '_' ∉ kind)
    (hk' : '_' ∉ kind') (h : echo.itemId kind m = echo.itemId kind' n) : m = n := by
  have hs := congrArg (takeWhile fun c => c != '_') h
  rw [itemId_eq, itemId_eq, takeWhile_underscore hk, takeWhile_underscore hk'] at hs
  subst hs
  rw [Echo.itemId, Echo.itemId, append_cancel_left_eq] at h
  rw [← digitsValue_paddedIndex m, h, digitsValue_paddedIndex]

theorem itemId_ne_compaction (hk : '_' ∉ kind) (ho : kind ≠ "cmp".toList) (n : Nat) (rest : Text) :
    echo.itemId kind n ≠ "cmp_".toList ++ rest := by
  intro h
  have hs := congrArg (takeWhile fun c => c != '_') h
  have hc : "cmp_".toList ++ rest = "cmp".toList ++ '_' :: rest := rfl
  rw [itemId_eq, takeWhile_underscore hk, hc, takeWhile_underscore (by decide)] at hs
  exact ho hs

/-! ### How slots stand -/

structure Roles (L : Type) where
  opened : Option (Open L)
  calling : Option (OpenCall L)
  deferred : Option Nat
  searching : List (CallId × Nat)

def State.roles (s : State L) : Roles L := ⟨s.opened, s.calling, s.deferred, s.searching⟩

/-- A reasoning item waits only for a summary that was requested, and none is written while
another waits. -/
def Roles.Fits (echo : Echo) (r : Roles L) : Prop :=
  (echo.summary = true → ∀ live, r.opened = some live → live.kind = .reasoning → r.deferred = none) ∧
    ∀ i, r.deferred = some i → echo.summary = true

def Roles.busy (r : Roles L) : List Nat :=
  (r.opened.map Open.index).toList ++ (r.calling.map OpenCall.index).toList ++ r.deferred.toList ++
    r.searching.map Prod.snd

/-- The texts of an item whose only text is being written. -/
def begun (channel : Channel) (text : Text) : List Spelled :=
  if text = [] then [] else [⟨channel, text, false⟩]

def OpenCall.channel (live : OpenCall L) : Channel := if live.custom then .input else .arguments

inductive OpenCall.Announced (live : OpenCall L) : Prop
  | custom {callId : CallId} {name : ToolName} {input : Text} (hcustom : live.custom = true)
      (hitem : live.item = ⟨live.id, none, .customToolCall callId name input⟩)
  | function {callId : CallId} {name : ToolName} {arguments : Text} (hcustom : live.custom = false)
      (hitem : live.item = ⟨live.id, some .inProgress, .functionCall callId name arguments⟩)

/-- How the slot of an index stands beside the output there. -/
inductive Stands (r : Roles L) (i : Nat) : Option (Item L) → Slot L → Prop
  | writing {live : Open L} (hopened : r.opened = some live) (hindex : live.index = i) :
      Stands r i none (.announced live.id (begun live.kind.channel live.text))
  | calling {live : OpenCall L} (hcalling : r.calling = some live) (hindex : live.index = i)
      (hitem : live.Announced) :
      Stands r i none (.announced live.id (begun live.channel live.streamed))
  | waiting {id text : Text} {status : ItemStatus} {encrypted : Option Text}
      (hdeferred : r.deferred = some i) (hstatus : status = .completed ∨ status = .incomplete) :
      Stands r i (some ⟨id, some status, .reasoning [] (some (.reasoningText text)) encrypted⟩)
        (.announced id [⟨.reasoning, text, true⟩])
  | searching {callId : CallId} {id : Text} {status : Option ItemStatus} {queries : List Text}
      {results : Option (List SearchResult)} (hsearching : (callId, i) ∈ r.searching) :
      Stands r i (some ⟨id, status, .fileSearchCall queries results⟩) (.announced id [])
  | finished {item : Item L} (hidle : i ∉ r.busy) : Stands r i (some item) (.finished item)

inductive Named (echo : Echo) : Nat → Text → Prop
  | item {kind : Text} {index : Nat} (hkind : '_' ∉ kind) (hother : kind ≠ "cmp".toList) :
      Named echo index (echo.itemId kind index)
  | compaction {rest : Text} : Named echo 0 ("cmp_".toList ++ rest)

structure Tracks (echo : Echo) (r : Roles L) (s : State L) (client : Client L) : Prop where
  streaming : s.streaming = true
  run : Client.start.run s.events = some client
  sequence : s.sequence = client.count
  length : s.output.length = client.slots.length
  stands : ∀ i entry slot, s.output[i]? = some entry → client.slots[i]? = some slot →
    Stands r i entry slot
  named : ∀ i slot, client.slots[i]? = some slot → Named echo i slot.id
  single : r.opened = none ∨ r.calling = none
  busy : r.busy.Nodup
  bound : ∀ i ∈ r.busy, i < s.output.length
  keys : (r.searching.map Prod.fst).Nodup
  fits : r.Fits echo

def Tracked (echo : Echo) (s : State L) : Prop := ∃ client, Tracks echo s.roles s client

structure Emits (s t : State L) (events : List (StreamEvent L)) : Prop where
  streaming : t.streaming = s.streaming
  log : t.events = s.events ++ Client.numbered s.sequence events
  sequence : t.sequence = s.sequence + events.length

theorem Emits.refl (s : State L) : Emits s s [] :=
  ⟨rfl, (append_nil _).symm, rfl⟩

theorem numbered_append (n : Nat) (events more : List (StreamEvent L)) :
    Client.numbered n (events ++ more)
      = Client.numbered n events ++ Client.numbered (n + events.length) more := by
  rw [Client.numbered, zipIdx_append, map_append]
  rfl

theorem Emits.trans {s u : State L} {more : List (StreamEvent L)} (h : Emits s t events)
    (h' : Emits t u more) : Emits s u (events ++ more) where
  streaming := h'.streaming.trans h.streaming
  log := by rw [h'.log, h.log, h.sequence, numbered_append, append_assoc]
  sequence := by rw [h'.sequence, h.sequence, length_append, Nat.add_assoc]

variable {s : State L}

theorem Emits.silent (hs : t.streaming = s.streaming)
    (he : t.events = s.events) (hseq : t.sequence = s.sequence) : Emits s t [] :=
  ⟨hs, by rw [he]; exact (append_nil _).symm, hseq⟩

theorem Emits.emit (hs : s.streaming = true) (event : StreamEvent L) :
    Emits s (s.emit event) [event] := by
  rw [State.emit, if_pos hs]
  exact ⟨rfl, rfl, rfl⟩

theorem Emits.snoc (h : Emits s t events) (hs : s.streaming = true) (event : StreamEvent L) :
    Emits s (t.emit event) (events ++ [event]) :=
  h.trans (Emits.emit (h.streaming.trans hs) event)

theorem Emits.emitAll (hs : s.streaming = true) (events : List (StreamEvent L)) :
    Emits s (s.emitAll events) events := by
  induction events generalizing s with
  | nil => exact .refl s
  | cons event events ih =>
    have hf := Emits.emit hs event
    exact hf.trans (ih (hf.streaming.trans hs))

theorem Emits.snocAll (h : Emits s t events)
    (hs : s.streaming = true) (more : List (StreamEvent L)) :
    Emits s (t.emitAll more) (events ++ more) :=
  h.trans (Emits.emitAll (h.streaming.trans hs) more)

theorem Emits.andThen {s u : State L} (h : Emits s t events)
    (hs : u.streaming = t.streaming) (he : u.events = t.events)
    (hseq : u.sequence = t.sequence) : Emits s u events :=
  ⟨hs.trans h.streaming, he.trans h.log, hseq.trans h.sequence⟩

theorem Emits.run (h : Emits s t events)
    {client client' : Client L} (hr : Client.start.run s.events = some client)
    (hs : s.sequence = client.count) (hf : client.feed events = some client') :
    Client.start.run t.events = some client' := by
  rw [h.log, Client.run_append, hr, Option.bind_some, hs, Client.run_numbered, hf]

@[simp] theorem State.emit_output (s : State L) (event : StreamEvent L) :
    (s.emit event).output = s.output := by
  unfold State.emit
  split
  · rfl
  · rfl

@[simp] theorem State.emit_roles (s : State L) (event : StreamEvent L) :
    (s.emit event).roles = s.roles := by
  unfold State.emit
  split
  · rfl
  · rfl

@[simp] theorem State.emit_opened (s : State L) (event : StreamEvent L) :
    (s.emit event).opened = s.opened :=
  congrArg Roles.opened (s.emit_roles event)

@[simp] theorem State.emit_calling (s : State L) (event : StreamEvent L) :
    (s.emit event).calling = s.calling :=
  congrArg Roles.calling (s.emit_roles event)

@[simp] theorem State.emit_deferred (s : State L) (event : StreamEvent L) :
    (s.emit event).deferred = s.deferred :=
  congrArg Roles.deferred (s.emit_roles event)

@[simp] theorem State.emit_searching (s : State L) (event : StreamEvent L) :
    (s.emit event).searching = s.searching :=
  congrArg Roles.searching (s.emit_roles event)

@[simp] theorem State.emitAll_output (s : State L) (events : List (StreamEvent L)) :
    (s.emitAll events).output = s.output := by
  induction events generalizing s with
  | nil => rfl
  | cons event events ih => exact (ih (s.emit event)).trans (s.emit_output event)

@[simp] theorem State.emitAll_roles (s : State L) (events : List (StreamEvent L)) :
    (s.emitAll events).roles = s.roles := by
  induction events generalizing s with
  | nil => rfl
  | cons event events ih => exact (ih (s.emit event)).trans (s.emit_roles event)

theorem Slot.step_id {event : StreamEvent L} (h : slot.step event = some slot') :
    slot'.id = slot.id := by
  cases slot with
  | finished => cases h
  | announced =>
    rw [Slot.step] at h
    unfold Slot.next at h
    split at h <;> (try split at h) <;> (try cases h) <;> (try rfl)
    · obtain ⟨texts', -, rfl⟩ := Option.map_eq_some_iff.mp h
      rfl
    · obtain ⟨texts', -, rfl⟩ := Option.map_eq_some_iff.mp h
      rfl
    · next hd => exact hd.1

theorem Slot.run_id (h : slot.run events = some slot') : slot'.id = slot.id := by
  induction events generalizing slot with
  | nil =>
    cases h
    rfl
  | cons event events ih =>
    obtain ⟨middle, hm, hr⟩ := Option.bind_eq_some_iff.mp h
    exact (ih hr).trans (Slot.step_id hm)

/-- Only what is unfinished at `i` changes. -/
structure Frame (r r' : Roles L) (i : Nat) : Prop where
  opened : ∀ live, r.opened = some live → live.index ≠ i → r'.opened = some live
  calling : ∀ live, r.calling = some live → live.index ≠ i → r'.calling = some live
  deferred : ∀ j, r.deferred = some j → j ≠ i → r'.deferred = some j
  searching : ∀ callId j, (callId, j) ∈ r.searching → j ≠ i → (callId, j) ∈ r'.searching
  busy : ∀ j ∈ r'.busy, j ≠ i → j ∈ r.busy

variable {r' : Roles L}

variable {r : Roles L}

theorem Stands.frame {j : Nat}
    (h : Stands r j entry slot) (hf : Frame r r' i) (hne : j ≠ i) : Stands r' j entry slot := by
  cases h with
  | writing ho hi => exact .writing (hf.opened _ ho (hi ▸ hne)) hi
  | calling hc hi hitem =>
    exact .calling (hf.calling _ hc (hi ▸ hne)) hi hitem
  | waiting hd hs => exact .waiting (hf.deferred _ hd hne) hs
  | searching hsr => exact .searching (hf.searching _ _ hsr hne)
  | finished hidle => exact .finished fun hb => hidle (hf.busy j hb hne)

variable {client : Client L}

theorem Tracks.change (h : Tracks echo r s client) (hs : client.slots[i]? = some slot)
    (hevs : ∀ event ∈ events, event.index? = some i ∧ event.added? = none)
    (hr : slot.run events = some slot') (he : Emits s t events)
    (ho : t.output = s.output.set i entry) (hst : Stands r' i entry slot')
    (hf : Frame r r' i) (hsgl : r'.opened = none ∨ r'.calling = none)
    (hb : r'.busy.Nodup) (hk : (r'.searching.map Prod.fst).Nodup) (hfi : r'.Fits echo) :
    ∃ client', Tracks echo r' t client' := by
  have hfe := Client.feed_at client hs hevs hr
  have hlt := (List.getElem?_eq_some_iff.mp hs).1
  refine ⟨_, he.streaming.trans h.streaming, he.run h.run h.sequence hfe, ?_, ?_, ?_, ?_,
    hsgl, hb, ?_, hk, hfi⟩
  · rw [he.sequence, h.sequence]
  · rw [ho, length_set, length_set, h.length]
  · intro j entry' slot'' hent hs''
    rw [ho] at hent
    by_cases hj : j = i
    · subst hj
      rw [getElem?_set_self (h.length ▸ hlt)] at hent
      rw [getElem?_set_self hlt] at hs''
      cases hent
      cases hs''
      exact hst
    · rw [getElem?_set_ne (Ne.symm hj)] at hent
      rw [getElem?_set_ne (Ne.symm hj)] at hs''
      exact (h.stands j entry' slot'' hent hs'').frame hf hj
  · intro j slot'' hs''
    by_cases hj : j = i
    · subst hj
      rw [getElem?_set_self hlt] at hs''
      cases hs''
      rw [Slot.run_id hr]
      exact h.named j slot hs
    · rw [getElem?_set_ne (Ne.symm hj)] at hs''
      exact h.named j slot'' hs''
  · intro j hj
    rw [ho, length_set]
    by_cases hji : j = i
    · rw [hji, h.length]
      exact hlt
    · exact h.bound j (hf.busy j hj hji)

theorem Tracks.fresh (h : Tracks echo r s client) (hk : '_' ∉ kind) (ho : kind ≠ "cmp".toList) :
    echo.itemId kind s.output.length ∉ client.slots.map Slot.id := by
  intro hm
  obtain ⟨slot, hs, hid⟩ := mem_map.mp hm
  obtain ⟨j, hj, hg⟩ := mem_iff_getElem.mp hs
  have hn := h.named j slot (List.getElem?_eq_some_iff.mpr ⟨hj, hg⟩)
  rw [hid] at hn
  generalize ht : echo.itemId kind s.output.length = text at hn
  cases hn with
  | item hk' =>
    have hidx := itemId_injective hk hk' ht
    rw [h.length] at hidx
    omega
  | compaction => exact itemId_ne_compaction hk ho _ _ ht

theorem Tracks.push {added : Item L}
    (h : Tracks echo r s client) (hfr : added.id ∉ client.slots.map Slot.id)
    (hn : Named echo s.output.length added.id)
    (hevs : ∀ event ∈ events, event.index? = some s.output.length ∧ event.added? = none)
    (hr : (Slot.announced added.id []).run events = some slot)
    (he : Emits s t (.itemAdded s.output.length added :: events))
    (ho : t.output = s.output ++ [entry]) (hst : Stands r' s.output.length entry slot)
    (hf : Frame r r' s.output.length) (hsgl : r'.opened = none ∨ r'.calling = none)
    (hb : r'.busy.Nodup) (hk : (r'.searching.map Prod.fst).Nodup) (hfi : r'.Fits echo) :
    ∃ client', Tracks echo r' t client' := by
  rw [h.length] at hevs he
  have hfe := Client.feed_new client hfr hevs hr
  have hid : slot.id = added.id := Slot.run_id hr
  refine ⟨_, he.streaming.trans h.streaming, he.run h.run h.sequence hfe, ?_, ?_, ?_, ?_,
    hsgl, hb, ?_, hk, hfi⟩
  · rw [he.sequence, h.sequence, length_cons]
  · rw [ho, length_append, length_append, h.length]
    rfl
  · intro j entry' slot' hent hs'
    rw [ho] at hent
    rcases Nat.lt_trichotomy j s.output.length with hj | hj | hj
    · rw [getElem?_append_left hj] at hent
      rw [getElem?_append_left (h.length ▸ hj)] at hs'
      exact (h.stands j entry' slot' hent hs').frame hf (Nat.ne_of_lt hj)
    · subst hj
      rw [getElem?_concat_length] at hent
      rw [h.length, getElem?_concat_length] at hs'
      cases hent
      cases hs'
      exact hst
    · rw [getElem?_eq_none (by rw [length_append]; exact hj)] at hent
      cases hent
  · intro j slot' hs'
    rcases Nat.lt_trichotomy j client.slots.length with hj | hj | hj
    · rw [getElem?_append_left hj] at hs'
      exact h.named j slot' hs'
    · subst hj
      rw [getElem?_concat_length] at hs'
      cases hs'
      rw [hid, ← h.length]
      exact hn
    · rw [getElem?_eq_none (by rw [length_append]; exact hj)] at hs'
      cases hs'
  · intro j hj
    rw [ho, length_append, length_singleton]
    by_cases hji : j = s.output.length
    · omega
    · have hlt := h.bound j (hf.busy j hj hji)
      omega

theorem Tracks.unrelated (h : Tracks echo r s client) (he : Emits s t events)
    (hevs : ∀ event ∈ events, event.index? = none) (ho : t.output = s.output) :
    ∃ client', Tracks echo r t client' := by
  have hf := Client.feed_none client hevs
  refine ⟨_, he.streaming.trans h.streaming, he.run h.run h.sequence hf, ?_, ?_, ?_,
    h.named, h.single, h.busy, ?_, h.keys, h.fits⟩
  · rw [he.sequence, h.sequence]
  · rw [ho]
    exact h.length
  · rw [ho]
    exact h.stands
  · rw [ho]
    exact h.bound

/-! ### What is unfinished, and where -/

theorem Roles.mem_busy {j : Nat} : j ∈ r.busy ↔ (∃ live, r.opened = some live ∧ live.index = j) ∨
      (∃ live, r.calling = some live ∧ live.index = j) ∨ r.deferred = some j ∨
      ∃ callId, (callId, j) ∈ r.searching := by
  simp only [busy, mem_append, Option.mem_toList, Option.map_eq_some_iff, mem_map,
    Prod.exists, exists_eq_right, or_assoc]

theorem Roles.disjoint (h : r.busy.Nodup) :
    (∀ live live', r.opened = some live → r.calling = some live' → live.index ≠ live'.index) ∧
    (∀ live j, r.opened = some live → r.deferred = some j → live.index ≠ j) ∧
    (∀ live callId j, r.opened = some live → (callId, j) ∈ r.searching → live.index ≠ j) ∧
    (∀ live j, r.calling = some live → r.deferred = some j → live.index ≠ j) ∧
    (∀ live callId j, r.calling = some live → (callId, j) ∈ r.searching → live.index ≠ j) ∧
    ∀ callId i j, r.deferred = some i → (callId, j) ∈ r.searching → i ≠ j := by
  obtain ⟨h₁, -, hsr⟩ := nodup_append.mp h
  obtain ⟨h₂, -, hdef⟩ := nodup_append.mp h₁
  obtain ⟨-, -, hca⟩ := nodup_append.mp h₂
  refine ⟨?_, ?_, ?_, ?_, ?_, ?_⟩
  · intro live live' ho hc
    exact hca _ (by simp [ho]) _ (by simp [hc])
  · intro live j ho hd
    exact hdef _ (by simp [ho]) _ (by simp [hd])
  · intro live callId j ho hs
    exact hsr _ (by simp [ho]) _ (mem_map_of_mem hs)
  · intro live j hc hd
    exact hdef _ (by simp [hc]) _ (by simp [hd])
  · intro live callId j hc hs
    exact hsr _ (by simp [hc]) _ (mem_map_of_mem hs)
  · intro callId i j hd hs
    exact hsr _ (by simp [hd]) _ (mem_map_of_mem hs)

section Places

variable {echo : Echo} {r : Roles L} {s : State L} {client : Client L}

theorem Tracks.place (h : Tracks echo r s client) (hi : i ∈ r.busy) :
    ∃ entry slot, s.output[i]? = some entry ∧ client.slots[i]? = some slot ∧ Stands r i entry slot := by
  have hlt := h.bound i hi
  have hlt' : i < client.slots.length := h.length ▸ hlt
  exact ⟨s.output[i], client.slots[i], getElem?_eq_getElem hlt, getElem?_eq_getElem hlt',
    h.stands i _ _ (getElem?_eq_getElem hlt) (getElem?_eq_getElem hlt')⟩

theorem Tracks.writing (h : Tracks echo r s client) {live : Open L} (ho : r.opened = some live) :
    s.output[live.index]? = some none ∧
      client.slots[live.index]? = some (.announced live.id (begun live.kind.channel live.text)) := by
  obtain ⟨hca, hd, hsr, -⟩ := Roles.disjoint h.busy
  have hb : live.index ∈ r.busy := Roles.mem_busy.mpr (.inl ⟨live, ho, rfl⟩)
  obtain ⟨entry, slot, hent, hsl, hst⟩ := h.place hb
  rw [hent, hsl]
  generalize hi : live.index = i at hst
  cases hst with
  | writing ho' =>
    rw [ho] at ho'
    cases ho'
    exact ⟨rfl, rfl⟩
  | calling hc heq => exact absurd (hi.trans heq.symm) (hca _ _ ho hc)
  | waiting hdef => exact absurd hi (hd _ _ ho hdef)
  | searching hs => exact absurd hi (hsr _ _ _ ho hs)
  | finished hidle => exact absurd (hi ▸ hb) hidle

theorem Tracks.called (h : Tracks echo r s client) {live : OpenCall L}
    (hc : r.calling = some live) : s.output[live.index]? = some none ∧ live.Announced ∧
      client.slots[live.index]? = some (.announced live.id (begun live.channel live.streamed)) := by
  obtain ⟨hca, -, -, hd, hsr, -⟩ := Roles.disjoint h.busy
  have hb : live.index ∈ r.busy := Roles.mem_busy.mpr (.inr (.inl ⟨live, hc, rfl⟩))
  obtain ⟨entry, slot, hent, hsl, hst⟩ := h.place hb
  rw [hent, hsl]
  generalize hi : live.index = i at hst
  cases hst with
  | writing ho heq => exact absurd (heq.trans hi.symm) (hca _ _ ho hc)
  | calling hca' _ hitem =>
    rw [hc] at hca'
    cases hca'
    exact ⟨rfl, hitem, rfl⟩
  | waiting hdef => exact absurd hi (hd _ _ hc hdef)
  | searching hs => exact absurd hi (hsr _ _ _ hc hs)
  | finished hidle => exact absurd (hi ▸ hb) hidle

theorem Tracks.waiting (h : Tracks echo r s client) (hd : r.deferred = some i) :
    ∃ id text status encrypted,
      s.output[i]? = some (some ⟨id, some status, .reasoning [] (some (.reasoningText text)) encrypted⟩) ∧
      (status = .completed ∨ status = .incomplete) ∧
      client.slots[i]? = some (.announced id [⟨.reasoning, text, true⟩]) := by
  obtain ⟨-, hopen, -, hca, -, hsr⟩ := Roles.disjoint h.busy
  have hb : i ∈ r.busy := Roles.mem_busy.mpr (.inr (.inr (.inl hd)))
  obtain ⟨entry, slot, hent, hsl, hstands⟩ := h.place hb
  rw [hent, hsl]
  cases hstands with
  | writing ho heq => exact absurd heq (hopen _ _ ho hd)
  | calling hc heq => exact absurd heq (hca _ _ hc hd)
  | waiting _ hstat => exact ⟨_, _, _, _, rfl, hstat, rfl⟩
  | searching hs => exact absurd rfl (hsr _ _ _ hd hs)
  | finished hi => exact absurd hb hi

theorem Tracks.search (h : Tracks echo r s client) {callId : CallId}
    (hs : (callId, i) ∈ r.searching) :
    ∃ id status queries results, s.output[i]? = some (some ⟨id, status, .fileSearchCall queries results⟩) ∧
      client.slots[i]? = some (.announced id []) := by
  obtain ⟨-, -, hopen, -, hca, hd⟩ := Roles.disjoint h.busy
  have hb : i ∈ r.busy := Roles.mem_busy.mpr (.inr (.inr (.inr ⟨callId, hs⟩)))
  obtain ⟨entry, slot, hent, hsl, hst⟩ := h.place hb
  rw [hent, hsl]
  cases hst with
  | writing ho heq => exact absurd heq (hopen _ _ _ ho hs)
  | calling hc heq => exact absurd heq (hca _ _ _ hc hs)
  | waiting hdef => exact absurd rfl (hd _ _ _ hdef hs)
  | searching => exact ⟨_, _, _, _, rfl, rfl⟩
  | finished hi => exact absurd hb hi

end Places

end LocalAi.Responses
