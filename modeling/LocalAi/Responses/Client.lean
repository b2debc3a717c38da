import LocalAi.Responses.Item

/-!
# A client that rebuilds a Response from its events

The client keeps one slot for each output index and takes an event only if it follows
from those before it.

* `Slot`: an item that is announced, with the texts its deltas spelled so far, or the
  item as it was finished.
* `Slot.step`: the next event of an item; a finished item has none.
* `Client.step`: events are numbered from zero, indices are announced in order, with new
  ids.
* `Client.document`: the finished items, once there is no other.
* `Client.feed_at`: the events of one item change one slot.
-/

open List

namespace LocalAi.Responses

variable {L : Type}

/-- A text of an item as far as its deltas have it, and whether its `done` came. -/
structure Spelled where
  channel : Channel
  text : Text
  done : Bool
deriving DecidableEq

def spell (channel : Channel) (piece : Text) : List Spelled → Option (List Spelled)
  | [] => some [⟨channel, piece, false⟩]
  | entry :: entries =>
    if entry.channel = channel then
      if entry.done then none else some ({ entry with text := entry.text ++ piece } :: entries)
    else
      (spell channel piece entries).map (entry :: ·)

def conclude (channel : Channel) (text : Text) : List Spelled → Option (List Spelled)
  | [] => if text = [] then some [⟨channel, [], true⟩] else none
  | entry :: entries =>
    if entry.channel = channel then
      if entry.done = false ∧ entry.text = text then some ({ entry with done := true } :: entries)
      else none
    else
      (conclude channel text entries).map (entry :: ·)

def Body.spelled (body : Body L) : List Spelled :=
  body.texts.map fun entry => ⟨entry.1, entry.2, true⟩

def Part.channel : Part L → Channel
  | .reasoningText _ => .reasoning
  | .outputText _ _ _ => .output

inductive Slot (L : Type)
  | announced (id : Text) (texts : List Spelled)
  | finished (item : Item L)

namespace Slot

def id : Slot L → Text
  | .announced id _ => id
  | .finished item => item.id

def next (id : Text) (texts : List Spelled) : StreamEvent L → Option (Slot L)
  | .delta channel _ owner piece _ =>
    if owner.all (· = id) then (spell channel piece texts).map (.announced id) else none
  | .done channel _ owner text _ =>
    if owner.all (· = id) then (conclude channel text texts).map (.announced id) else none
  | .partAdded _ owner part =>
    if owner = id ∧ texts = [] ∧ part.text = [] then some (.announced id texts) else none
  | .partDone _ owner part =>
    if owner = id ∧ ⟨part.channel, part.text, true⟩ ∈ texts then some (.announced id texts) else none
  | .summaryPartAdded _ owner =>
    if owner = id ∧ ∀ entry ∈ texts, entry.channel ≠ .summary then some (.announced id texts)
    else none
  | .summaryPartDone _ owner text =>
    if owner = id ∧ ⟨.summary, text, true⟩ ∈ texts then some (.announced id texts) else none
  | .annotationAdded _ owner _ _ | .shellOutputDone _ owner _ _ | .searchInProgress _ owner
  | .searchSearching _ owner | .searchCompleted _ owner =>
    if owner = id then some (.announced id texts) else none
  | .commandAdded _ command =>
    if ∀ entry ∈ texts, entry.channel ≠ .command command then some (.announced id texts) else none
  | .itemDone _ item =>
    if item.id = id ∧ item.settled = true ∧ texts = item.body.spelled then some (.finished item)
    else none
  | _ => none

def step : Slot L → StreamEvent L → Option (Slot L)
  | .announced id texts, event => next id texts event
  | .finished _, _ => none

def run : Slot L → List (StreamEvent L) → Option (Slot L)
  | slot, [] => some slot
  | slot, event :: events => (slot.step event).bind fun slot => slot.run events

theorem run_append (slot : Slot L) (events more : List (StreamEvent L)) :
    slot.run (events ++ more) = (slot.run events).bind fun slot => slot.run more := by
  induction events generalizing slot with
  | nil => rfl
  | cons event events ih =>
    rw [cons_append, run, run, Option.bind_assoc]
    exact congrArg _ (funext fun slot => ih slot)

end Slot

def StreamEvent.index? : StreamEvent L → Option Nat
  | .itemAdded index _ | .itemDone index _ | .partAdded index _ _ | .partDone index _ _
  | .delta _ index _ _ _ | .done _ index _ _ _ | .annotationAdded index _ _ _
  | .summaryPartAdded index _ | .summaryPartDone index _ _ | .commandAdded index _
  | .shellOutputDone index _ _ _ | .searchInProgress index _ | .searchSearching index _
  | .searchCompleted index _ => some index
  | _ => none

def StreamEvent.added? : StreamEvent L → Option (Item L)
  | .itemAdded _ item => some item
  | _ => none

structure Client (L : Type) where
  /-- The events so far. -/
  count : Nat
  slots : List (Slot L)

namespace Client

def start : Client L := ⟨0, []⟩

def take (client : Client L) (event : StreamEvent L) : Option (List (Slot L)) :=
  match event.index?, event.added? with
  | some index, some item =>
    if index = client.slots.length ∧ item.id ∉ client.slots.map Slot.id then
      some (client.slots ++ [.announced item.id []])
    else
      none
  | some index, none => do
    let slot ← (← client.slots[index]?).step event
    some (client.slots.set index slot)
  | none, _ => some client.slots

/-- The next event, under the number that is due. -/
def step (client : Client L) (event : Nat × StreamEvent L) : Option (Client L) :=
  if event.1 = client.count then
    (client.take event.2).map fun slots => ⟨client.count + 1, slots⟩
  else
    none

def run : Client L → List (Nat × StreamEvent L) → Option (Client L)
  | client, [] => some client
  | client, event :: events => (client.step event).bind fun client => client.run events

/-- The rebuilt output: every announced item is finished. -/
def document (client : Client L) : Option (List (Item L)) :=
  client.slots.mapM fun slot =>
    match slot with
    | .announced _ _ => none
    | .finished item => some item

variable (client : Client L)

theorem run_append (events more : List (Nat × StreamEvent L)) :
    client.run (events ++ more) = (client.run events).bind fun client => client.run more := by
  induction events generalizing client with
  | nil => rfl
  | cons event events ih =>
    rw [cons_append, run, run, Option.bind_assoc]
    exact congrArg _ (funext fun client => ih client)

/-- Events under the numbers that are due. -/
def feed : Client L → List (StreamEvent L) → Option (Client L)
  | client, [] => some client
  | client, event :: events => (client.step (client.count, event)).bind fun client => client.feed events

def numbered (n : Nat) (events : List (StreamEvent L)) : List (Nat × StreamEvent L) :=
  (events.zipIdx n).map fun entry => (entry.2, entry.1)

theorem step_count {client client' : Client L} {event : Nat × StreamEvent L}
    (h : client.step event = some client') : client'.count = client.count + 1 := by
  unfold step at h
  split at h
  · obtain ⟨slots, -, rfl⟩ := Option.map_eq_some_iff.mp h
    rfl
  · cases h

theorem run_numbered (events : List (StreamEvent L)) :
    client.run (numbered client.count events) = client.feed events := by
  induction events generalizing client with
  | nil => rfl
  | cons event events ih =>
    rw [numbered, zipIdx_cons, map_cons, run, feed]
    cases hs : client.step (client.count, event) with
    | none => rfl
    | some client' =>
      rw [Option.bind_some, Option.bind_some, ← ih client', step_count hs]
      rfl

variable {events : List (StreamEvent L)}

theorem feed_at {index : Nat} {slot slot' : Slot L} (hs : client.slots[index]? = some slot)
    (he : ∀ event ∈ events, event.index? = some index ∧ event.added? = none)
    (hr : slot.run events = some slot') :
    client.feed events = some ⟨client.count + events.length, client.slots.set index slot'⟩ := by
  induction events generalizing client slot with
  | nil =>
    rw [Slot.run] at hr
    cases hr
    obtain ⟨hlt, hg⟩ := List.getElem?_eq_some_iff.mp hs
    rw [feed, ← hg, set_getElem_self]
    rfl
  | cons event events ih =>
    obtain ⟨hi, ha⟩ := he event mem_cons_self
    rw [Slot.run] at hr
    obtain ⟨middle, hmid, hre⟩ := Option.bind_eq_some_iff.mp hr
    have hst : client.step (client.count, event)
        = some ⟨client.count + 1, client.slots.set index middle⟩ := by
      simp [step, take, hi, ha, hs, hmid]
    have hlt := (List.getElem?_eq_some_iff.mp hs).1
    have hn : (client.slots.set index middle)[index]? = some middle := by
      rw [getElem?_set_self hlt]
    rw [feed, hst, Option.bind_some, ih ⟨client.count + 1, client.slots.set index middle⟩ hn
        (fun event hmem => he event (mem_cons_of_mem _ hmem)) hre,
      set_set, length_cons]
    simp only [Option.some.injEq, Client.mk.injEq, and_true]
    omega

theorem feed_added {client : Client L} {item : Item L}
    (hid : item.id ∉ client.slots.map Slot.id) (events : List (StreamEvent L)) :
    client.feed (.itemAdded client.slots.length item :: events)
      = feed ⟨client.count + 1, client.slots ++ [.announced item.id []]⟩ events := by
  have hs : client.step (client.count, .itemAdded client.slots.length item)
      = some ⟨client.count + 1, client.slots ++ [.announced item.id []]⟩ := by
    simp [step, take, StreamEvent.index?, StreamEvent.added?, hid]
  rw [feed, hs, Option.bind_some]

theorem feed_new {item : Item L} {slot : Slot L} (hid : item.id ∉ client.slots.map Slot.id)
    (he : ∀ event ∈ events, event.index? = some client.slots.length ∧ event.added? = none)
    (hr : (Slot.announced item.id []).run events = some slot) :
    client.feed (.itemAdded client.slots.length item :: events)
      = some ⟨client.count + (events.length + 1), client.slots ++ [slot]⟩ := by
  rw [feed_added hid]
  have hat := feed_at ⟨client.count + 1, client.slots ++ [.announced item.id []]⟩
    (getElem?_concat_length) he hr
  rw [hat, set_append_right _ _ le_rfl, Nat.sub_self, set_cons_zero]
  simp only [Option.some.injEq, Client.mk.injEq, and_true]
  omega

theorem feed_none (he : ∀ event ∈ events, event.index? = none) :
    client.feed events = some ⟨client.count + events.length, client.slots⟩ := by
  induction events generalizing client with
  | nil => rfl
  | cons event events ih =>
    have hi := he event mem_cons_self
    have hs : client.step (client.count, event) = some ⟨client.count + 1, client.slots⟩ := by
      simp [step, take, hi]
    rw [feed, hs, Option.bind_some, ih ⟨client.count + 1, client.slots⟩
        (fun event hm => he event (mem_cons_of_mem _ hm)), length_cons]
    simp only [Option.some.injEq, Client.mk.injEq, and_true]
    omega

end Client

end LocalAi.Responses
