import LocalAi.Responses.Writes

/-!
# A Response's events rebuild its document

* `Tracked.summarize`, `Tracked.abandonSearches`, `Tracked.release`: what endings do.
* `stream_rebuilds_document`.
-/

open List

namespace LocalAi.Responses

variable {L : Type}

section Operations

variable {echo : Echo} {s : State L}

/-! ### Calls and their results -/

theorem Tracked.writeCall (h : Tracked echo s) {live : OpenCall L} (hca : s.calling = some live)
    {piece : Text} (hp : piece ≠ []) :
    Tracked echo ({ s with calling := some { live with streamed := live.streamed ++ piece } }.emit
      (.delta live.channel live.index (some live.id) piece [])) := by
  obtain ⟨client, hc⟩ := h
  have hl : s.roles.calling = some live := hca
  obtain ⟨he, ha, hsl⟩ := hc.called hl
  obtain ⟨hlt, hg⟩ := List.getElem?_eq_some_iff.mp he
  let live' : OpenCall L := { live with streamed := live.streamed ++ piece }
  have hsil : Emits s { s with calling := some live' } [] := .silent rfl rfl rfl
  have ha' : live'.Announced := by
    cases ha with
    | custom hcu hi => exact .custom hcu hi
    | function hcu hi => exact .function hcu hi
  have hb : ({ s.roles with calling := some live' } : Roles L).busy = s.roles.busy := by
    simp only [Roles.busy, hl, Option.map_some, live']
  have hr : (Slot.announced live.id (begun live.channel live.streamed)).run
      [.delta live.channel live.index (some live.id) piece []]
      = some (.announced live'.id (begun live'.channel live'.streamed) : Slot L) := by
    have hs := spell_begun live.channel live.streamed hp
    simp only [Slot.run, Slot.step, Slot.next, Option.all_some, decide_true, if_true, hs,
      Option.map_some, Option.bind_some]
    rfl
  refine Tracked.of_roles (r := { s.roles with calling := some live' }) (State.emit_roles _ _)
    (hc.change hsl ?_ hr (hsil.snoc hc.streaming _) ?_ (.calling rfl rfl ha')
      ?_ ?_ ?_ hc.keys hc.fits)
  · simp [StreamEvent.index?, StreamEvent.added?]
  · rw [State.emit_output, ← hg, set_getElem_self]
  · refine ⟨fun _ ho _ => ho, ?_, fun _ ho _ => ho, fun _ _ ho _ => ho, ?_⟩
    · intro other ho hne
      rw [hl] at ho
      cases ho
      exact absurd rfl hne
    · intro j hj _
      rwa [hb] at hj
  · left
    obtain hn | hn := hc.single
    · exact hn
    · rw [hl] at hn
      cases hn
  · rw [hb]
    exact hc.busy

theorem announcedCall_announced (echo : Echo) (delta : ToolCallDelta) (index : Nat) :
    (State.announcedCall echo delta index : OpenCall L).Announced := by
  unfold State.announcedCall
  dsimp only
  split
  · exact .custom rfl rfl
  · exact .function rfl rfl

theorem announcedCall_fields (echo : Echo) (delta : ToolCallDelta) (index : Nat) :
    (State.announcedCall echo delta index : OpenCall L).id
        = echo.itemId (callPrefix (echo.kinds.kind delta.name)) index ∧
      (State.announcedCall echo delta index : OpenCall L).index = index ∧
      (State.announcedCall echo delta index : OpenCall L).streamed = [] ∧
      (State.announcedCall echo delta index : OpenCall L).item.id
        = echo.itemId (callPrefix (echo.kinds.kind delta.name)) index := by
  unfold State.announcedCall
  dsimp only
  split
  · exact ⟨rfl, rfl, rfl, rfl⟩
  · exact ⟨rfl, rfl, rfl, rfl⟩

theorem Tracked.openCall (h : Tracked echo s) (ho : s.opened = none) (hca : s.calling = none)
    (delta : ToolCallDelta) : Tracked echo (s.openCall echo delta) := by
  obtain ⟨client, hc⟩ := h
  have ho' : s.roles.opened = none := ho
  have hca' : s.roles.calling = none := hca
  have hn := (item_named (echo.kinds.kind delta.name)).1
  obtain ⟨hid, hi, hs, hitem⟩ := @announcedCall_fields L echo delta s.output.length
  have ha := @announcedCall_announced L echo delta s.output.length
  unfold State.openCall
  generalize State.announcedCall echo delta s.output.length = live at *
  have he := Emits.emit hc.streaming (.itemAdded live.index live.item)
  have hr : (Slot.announced live.item.id []).run []
      = some (.announced live.id (begun live.channel live.streamed) : Slot L) := by
    rw [hitem, hid, hs]
    rfl
  refine Tracked.of_roles (r := { s.roles with calling := some live }) ?_
    (hc.push (hitem ▸ hc.fresh hn.1 hn.2) (hitem ▸ .item hn.1 hn.2)
      (fun _ hm => (by cases hm)) hr ?_ ?_ (.calling rfl hi ha) ?_ (.inl ho') ?_
      hc.keys hc.fits)
  · simp [State.roles]
  · rw [hi] at he
    dsimp only
    rw [hi]
    exact he.andThen rfl rfl rfl
  · simp
  · refine Roles.frame_new (.inr rfl) (.inl hca') rfl (fun _ hm => hm) ?_
    intro j hj hne
    rw [Roles.mem_busy] at hj ⊢
    rcases hj with hj | ⟨other, hoth, heq⟩ | hj
    · exact .inl hj
    · cases hoth
      exact absurd (heq.symm.trans hi) hne
    · exact .inr (.inr hj)
  · have hidle := hc.new_idle
    have hb := hc.busy
    simp only [Roles.busy, ho', hca', Option.map_some, Option.map_none, Option.toList_some,
      Option.toList_none, nil_append, cons_append] at hb hidle ⊢
    rw [hi]
    exact nodup_cons.mpr ⟨hidle, hb⟩

theorem Tracked.callDelta (h : Tracked echo s) (delta : ToolCallDelta) :
    Tracked echo (s.callDelta echo delta) := by
  have hw : ∀ t : State L, Tracked echo t → ∀ live, t.calling = some live →
      State.deltaText live delta ≠ [] → Tracked echo ({ t with
        calling := some { live with streamed := live.streamed ++ State.deltaText live delta } }.emit
          (.delta live.channel live.index (some live.id) (State.deltaText live delta) [])) :=
    fun t ht live hc hp => ht.writeCall hc hp
  unfold State.callDelta
  dsimp only
  split
  · exact h
  · have ho : Tracked echo (if s.calling.any fun live => live.callId = delta.id then s else
        (s.close echo .completed).openCall echo delta) := by
      split
      · exact h
      · obtain ⟨hopened, hc, -⟩ := @State.close_roles L echo s .completed
        exact (h.close (.inl rfl)).openCall hopened hc delta
    revert ho
    generalize (if s.calling.any fun live => live.callId = delta.id then s else
      (s.close echo .completed).openCall echo delta) = t
    intro ho
    cases hc : t.calling with
    | none => exact ho
    | some live =>
      by_cases hp : State.deltaText live delta = []
      · simp only [hp, isEmpty_nil, if_true]
        exact ho
      · have he : (State.deltaText live delta).isEmpty = false := by simpa using hp
        simp only [he, Bool.false_eq_true, if_false]
        exact hw t ho live hc hp

/-- An item that is announced, spelled and finished at once. -/
def Rendered.Whole (rendered : Rendered L) (index : Nat) (id : Text) : Prop :=
  ∃ added events, rendered.events = .itemAdded index added :: events ∧ added.id = id ∧
    (∀ event ∈ events, event.index? = some index ∧ event.added? = none) ∧
    (Slot.announced id []).run events = some (.finished rendered.item)

theorem Tracked.pushRendered (h : Tracked echo s) {rendered : Rendered L} {kind : Text} (hn : '_' ∉ kind ∧ kind ≠ "cmp".toList)
    (hw : rendered.Whole s.output.length (echo.itemId kind s.output.length)) :
    Tracked echo (s.pushRendered rendered) := by
  obtain ⟨client, hc⟩ := h
  obtain ⟨added, events, hevs, hid, hi, hr⟩ := hw
  have he := Emits.emitAll hc.streaming rendered.events
  rw [hevs] at he
  rw [← hid] at hr
  refine Tracked.of_roles (r := s.roles) ?_
    (hc.push (hid ▸ hc.fresh hn.1 hn.2) (hid ▸ .item hn.1 hn.2) hi hr
      (t := s.pushRendered rendered) ?_ ?_ (.finished hc.new_idle) ?_ hc.single hc.busy
      hc.keys hc.fits)
  · exact State.emitAll_roles s rendered.events
  · rw [State.pushRendered, hevs]
    exact he.andThen rfl rfl rfl
  · simp [State.pushRendered]
  · exact Roles.frame_new (.inr rfl) (.inr rfl) rfl (fun _ hm => hm) (fun _ hj _ => hj)

theorem rendered_whole {index : Nat} (added : Item L) {item : Item L} {events : List (StreamEvent L)}
    (texts : List Spelled) (hi : ∀ event ∈ events, event.index? = some index ∧ event.added? = none)
    (hr : (Slot.announced added.id []).run events = some (.announced added.id texts))
    (hid : item.id = added.id) (hs : item.settled = true) (ht : texts = item.body.spelled) :
    (rendered index added item events).Whole index added.id := by
  refine ⟨added, events ++ [.itemDone index item], rfl, rfl, ?_, ?_⟩
  · intro event hev
    rcases mem_append.mp hev with hev | hev
    · exact hi event hev
    · rw [mem_singleton.mp hev]
      exact ⟨rfl, rfl⟩
  · rw [Slot.run_append, hr, Option.bind_some]
    simp only [Slot.run, Slot.step, Slot.next, hid, hs, ht, and_self, if_true, Option.bind_some]
    rfl

variable {texts : List Spelled} {id : Text} {r : Roles L} {callId : CallId} {i : Nat}
  {client : Client L}

theorem spell_new {channel : Channel}
    (hn : ∀ entry ∈ texts, entry.channel ≠ channel) (piece : Text) :
    spell channel piece texts = some (texts ++ [⟨channel, piece, false⟩]) := by
  induction texts with
  | nil => rfl
  | cons entry texts ih =>
    rw [spell, if_neg (hn entry mem_cons_self),
      ih (fun entry hm => hn entry (mem_cons_of_mem _ hm))]
    rfl

theorem conclude_last {channel : Channel}
    (hn : ∀ entry ∈ texts, entry.channel ≠ channel) (text : Text) :
    conclude channel text (texts ++ [⟨channel, text, false⟩])
      = some (texts ++ [⟨channel, text, true⟩]) := by
  induction texts with
  | nil => simp [conclude]
  | cons entry texts ih =>
    rw [cons_append, conclude, if_neg (hn entry mem_cons_self),
      ih (fun entry hm => hn entry (mem_cons_of_mem _ hm))]
    rfl

theorem Slot.run_single (id : Text) (channel : Channel) (index : Nat) (text : Text) :
    (Slot.announced id []).run [.delta channel index (some id) text [],
        .done channel index (some id) text []]
      = some (.announced id [⟨channel, text, true⟩] : Slot L) := by
  simp [Slot.run, Slot.step, Slot.next, spell, conclude]

theorem Slot.run_commands (id : Text) (index : Nat) (commands : List Text) (n : Nat)
    (hn : ∀ entry ∈ texts, ∀ k ≥ n, entry.channel ≠ .command k) :
    (Slot.announced id texts).run ((commands.zipIdx n).flatMap (commandEvents index))
      = some (.announced id (texts ++ (commands.zipIdx n).map fun command =>
          ⟨.command command.2, command.1, true⟩) : Slot L) := by
  induction commands generalizing n texts with
  | nil => simp [Slot.run]
  | cons command commands ih =>
    have ht : ∀ entry ∈ texts, entry.channel ≠ .command n := fun entry hm =>
      hn entry hm n le_rfl
    have ho : (Slot.announced id texts).run (commandEvents index (command, n))
        = some (.announced id (texts ++ [⟨.command n, command, true⟩]) : Slot L) := by
      simp only [commandEvents, Slot.run, Slot.step, Slot.next, if_pos ht, Option.bind_some,
        Option.all_none, if_true, spell_new ht, Option.map_some, conclude_last ht]
    rw [zipIdx_cons, flatMap_cons, Slot.run_append, ho, Option.bind_some, ih (n + 1)]
    · simp
    · intro entry hm k hk
      rcases mem_append.mp hm with hm | hm
      · exact hn entry hm k (by omega)
      · rw [mem_singleton.mp hm]
        intro heq
        cases heq
        omega

theorem callItem_whole {kinds : Kinds} {kind : Kind} {index : Nat} {call : ToolCall}
    {rendered : Rendered L} (h : callItem kinds kind id index call = some rendered) :
    rendered.Whole index id := by
  unfold callItem at h
  split at h
  · cases h
    refine rendered_whole ⟨id, some .inProgress, _⟩ _ ?_
      (Slot.run_commands id index _ 0 nofun) rfl rfl ?_
    · intro event hev
      obtain ⟨command, -, hev⟩ := mem_flatMap.mp hev
      simp only [commandEvents, mem_cons, not_mem_nil, or_false] at hev
      rcases hev with rfl | rfl | rfl
      · exact ⟨rfl, rfl⟩
      · exact ⟨rfl, rfl⟩
      · exact ⟨rfl, rfl⟩
    · simp [Body.spelled, Body.texts]
  · cases h
    refine rendered_whole ⟨id, none, _⟩ _ ?_ (Slot.run_single id .input index _) rfl rfl rfl
    simp [StreamEvent.index?, StreamEvent.added?]
  · cases h
    exact rendered_whole ⟨id, some .inProgress, _⟩ _ (forall_mem_nil _) rfl rfl rfl rfl
  · cases h
    exact rendered_whole ⟨id, some .inProgress, _⟩ _ (forall_mem_nil _) rfl rfl rfl rfl
  · cases h
  · cases h

theorem wholeCall_whole (echo : Echo) (id : Text) (index : Nat) (call : ToolCall) :
    (State.wholeCall echo id index call : Rendered L).Whole index id := by
  refine rendered_whole ⟨id, some .inProgress, _⟩ _ ?_ (Slot.run_single id .arguments index _)
    rfl rfl rfl
  simp [StreamEvent.index?, StreamEvent.added?]

theorem outputItem_whole (kind : Kind) (id : Text) (index : Nat) (output : ToolOutput) :
    (outputItem kind id index output : Rendered L).Whole index id := by
  have hs : ∀ (id : Text) (outcome : Outcome) (body : Body L),
      (⟨id, some outcome.itemStatus, body⟩ : Item L).settled = true := by
    intro id outcome body
    cases outcome <;> rfl
  unfold outputItem
  split
  · refine rendered_whole ⟨id, some .inProgress, _⟩ [] ?_ ?_ rfl
      (hs _ _ _) rfl
    · intro event hev
      obtain ⟨content, -, rfl⟩ := mem_map.mp hev
      exact ⟨rfl, rfl⟩
    · induction (output.output.getD []).zipIdx with
      | nil => rfl
      | cons content contents ih =>
        rw [map_cons, Slot.run, Slot.step, Slot.next, if_pos rfl, Option.bind_some]
        exact ih
  · exact rendered_whole ⟨id, some .inProgress, _⟩ _ (forall_mem_nil _) rfl rfl (hs _ _ _) rfl

/-! ### File searches -/

def Roles.searched (r : Roles L) (entry : CallId × Nat) : Roles L :=
  { r with searching := r.searching.erase entry }

theorem Roles.searched_busy {entry : CallId × Nat} (h : entry ∈ r.searching) :
    r.busy.Perm (entry.2 :: (r.searched entry).busy) := by
  have he := (perm_cons_erase h).map Prod.snd
  rw [map_cons] at he
  exact (he.append_left _).trans perm_middle

theorem Tracks.filter_searching (h : Tracks echo r s client) (hm : (callId, i) ∈ r.searching) :
    r.searching.filter (fun entry => entry.1 ≠ callId) = r.searching.erase (callId, i) := by
  have hnd : r.searching.Nodup := List.Nodup.of_map _ h.keys
  rw [hnd.erase_eq_filter]
  apply filter_congr
  intro entry hent
  by_cases heq : entry.1 = callId
  · have hs : entry = (callId, i) := inj_on_of_nodup_map h.keys hent hm heq
    simp [hs]
  · have ho : entry ≠ (callId, i) := fun hs => heq (congrArg Prod.fst hs)
    simp [heq, ho]

theorem Tracks.finishSearch {t : State L}
    {slot : Slot L} {events : List (StreamEvent L)} (h : Tracks echo r s client) (item : Item L)
    (hm : (callId, i) ∈ r.searching) (hs : client.slots[i]? = some slot)
    (hevs : ∀ event ∈ events, event.index? = some i ∧ event.added? = none)
    (hr : slot.run events = some (.finished item)) (he : Emits s t events)
    (hout : t.output = s.output.set i (some item)) :
    ∃ client', Tracks echo (r.searched (callId, i)) t client' := by
  have hp := Roles.searched_busy hm
  have hnd := (hp.nodup_iff.mp h.busy)
  refine h.finishAt hs hevs hr he hout ?_ (nodup_cons.mp hnd).1 ?_ h.single
    ((erase_sublist.map _).nodup h.keys) h.fits
  · refine ⟨fun _ ho _ => ho, fun _ ho _ => ho, fun _ ho _ => ho, ?_, ?_⟩
    · intro callId' j hj hne
      exact (mem_erase_of_ne fun heq => hne (congrArg Prod.snd heq)).mpr hj
    · intro j hj _
      exact hp.mem_iff.mpr (mem_cons_of_mem _ hj)
  · exact (erase_sublist.map _).append_left _

theorem Tracked.startSearch (h : Tracked echo s) (call : ToolCall)
    (hid : id = echo.itemId "fs".toList s.output.length)
    (hnew : ∀ entry ∈ s.searching, entry.1 ≠ call.id) :
    Tracked echo ({ s with searching := s.searching ++ [(call.id, s.output.length)] }.pushRendered
      (searchStarted id s.output.length call)) := by
  obtain ⟨client, hc⟩ := h
  have hn : '_' ∉ "fs".toList ∧ "fs".toList ≠ "cmp".toList := by decide
  have hsil : Emits s { s with searching := s.searching ++ [(call.id, s.output.length)] } [] :=
    .silent rfl rfl rfl
  have he := hsil.snocAll hc.streaming (searchStarted id s.output.length call : Rendered L).events
  have hb : ({ s.roles with searching := s.searching ++ [(call.id, s.output.length)] } :
      Roles L).busy = s.roles.busy ++ [s.output.length] := by
    simp [Roles.busy, State.roles]
  have hs : Stands ({ s.roles with searching := s.searching ++ [(call.id, s.output.length)] } :
      Roles L) s.output.length (some (searchStarted id s.output.length call : Rendered L).item)
      (.announced id []) := .searching (mem_append_right _ mem_cons_self)
  refine Tracked.of_roles (r := { s.roles with
      searching := s.searching ++ [(call.id, s.output.length)] }) (State.emitAll_roles _ _)
    (hc.push (hid ▸ hc.fresh hn.1 hn.2) (hid ▸ .item hn.1 hn.2) ?_ ?_
      (he.andThen rfl rfl rfl) ?_ hs ?_ hc.single ?_ ?_ hc.fits)
  · simp [StreamEvent.index?, StreamEvent.added?]
  · simp [Slot.run, Slot.step, Slot.next]
  · simp [State.pushRendered]
  · refine Roles.frame_new (.inr rfl) (.inr rfl) rfl (fun _ hm => mem_append_left _ hm) ?_
    intro j hj hne
    rw [hb] at hj
    rcases mem_append.mp hj with hj | hj
    · exact hj
    · exact absurd (mem_singleton.mp hj) hne
  · rw [hb]
    refine nodup_append.mpr ⟨hc.busy, nodup_singleton _, ?_⟩
    intro i hi j hj heq
    rw [mem_singleton.mp hj] at heq
    exact hc.new_idle (heq ▸ hi)
  · rw [map_append]
    refine nodup_append.mpr ⟨hc.keys, nodup_singleton _, ?_⟩
    intro key hk key' hk' heq
    obtain ⟨entry, hent, rfl⟩ := mem_map.mp hk
    exact hnew entry hent (heq.trans (mem_singleton.mp hk'))

/-- A completed call: the streaming one extends its deltas, and a file search is not
running under its id. -/
structure State.Calls (echo : Echo) (s : State L) (call : ToolCall) : Prop where
  extends_ : ∀ live, s.calling = some live → live.callId = call.id → Extends live call
  searches : echo.kinds.kind call.name = .hosted .fileSearch → ∀ entry ∈ s.searching, entry.1 ≠ call.id

theorem Tracked.call (h : Tracked echo s) {call : ToolCall} (hca : s.Calls echo call) :
    Tracked echo (s.call echo call) := by
  unfold State.call
  cases hf : s.calling.filter fun live => live.callId = call.id with
  | some live =>
    obtain ⟨hl, hid⟩ := Option.filter_eq_some_iff.mp hf
    refine h.finishCall hl ?_ (.inl rfl)
    intro c hc
    cases hc
    exact hca.extends_ live hl (by simpa using hid)
  | none =>
    have hcl := h.close (.inl rfl : ItemStatus.completed = .completed ∨ _)
    obtain ⟨-, -, hs, -⟩ := @State.close_roles L echo s .completed
    dsimp only
    split
    · next hk =>
      have hn := hca.searches hk
      rw [← hs] at hn
      have hf : (s.close echo .completed).searching.filter (fun entry => entry.1 ≠ call.id)
          = (s.close echo .completed).searching :=
        filter_eq_self.mpr fun entry he => by simpa using hn entry he
      rw [hf]
      exact hcl.startSearch call (by rw [hk]; rfl) hn
    · have hna := (item_named (echo.kinds.kind call.name)).1
      refine hcl.pushRendered hna ?_
      cases hi : callItem echo.kinds (echo.kinds.kind call.name)
          (echo.itemId (callPrefix (echo.kinds.kind call.name)) (s.close echo .completed).output.length)
          (s.close echo .completed).output.length call with
      | none => exact wholeCall_whole _ _ _ _
      | some rendered => exact callItem_whole hi

theorem Slot.run_searched (index : Nat) (item : Item L) (hid : item.id = id)
    (hs : item.settled = true) (ht : item.body.spelled = []) (completed : Bool) :
    (Slot.announced id []).run
        ((if completed then [.searchCompleted index item.id] else []) ++ [.itemDone index item])
      = some (.finished item) := by
  cases completed <;> simp [Slot.run, Slot.step, Slot.next, hid, hs, ht]

theorem Tracked.toolOutput (h : Tracked echo s) (output : ToolOutput) :
    Tracked echo (s.toolOutput echo output) := by
  have hc := h.close (.inl rfl : ItemStatus.completed = .completed ∨ _)
  unfold State.toolOutput
  generalize s.close echo .completed = s at hc
  dsimp only
  cases hf : s.searching.find? fun entry => entry.1 = output.callId with
  | none => exact hc.pushRendered (item_named _).2 (outputItem_whole _ _ _ _)
  | some entry =>
    obtain ⟨callId, index⟩ := entry
    have hm := mem_of_find?_eq_some hf
    have hid : callId = output.callId := by simpa using find?_some hf
    subst hid
    obtain ⟨client, hcli⟩ := hc
    have hm' : (output.callId, index) ∈ s.roles.searching := hm
    obtain ⟨id, status, queries, results, hent, hs⟩ := hcli.search hm'
    have hfi : s.searching.filter (fun entry => entry.1 ≠ output.callId)
        = s.searching.erase (output.callId, index) := hcli.filter_searching hm'
    simp only [hent, hfi]
    let item : Item L := (searchFinished ⟨id, status, .fileSearchCall queries results⟩ index output
      echo.fileSearchResults).item
    have hse : item.settled = true := by
      simp only [item, searchFinished]
      cases output.status.getD .failed <;> rfl
    have hr := Slot.run_searched index item rfl hse rfl (output.status.getD .failed = .completed)
    have hsil : Emits s ({ s with searching := s.searching.erase (output.callId, index) }.place index
      item) [] := .silent rfl rfl rfl
    have he := hsil.snocAll hcli.streaming (searchFinished
      ⟨id, status, .fileSearchCall queries results⟩ index output echo.fileSearchResults).events
    refine Tracked.of_roles (r := s.roles.searched (output.callId, index))
      ((State.emitAll_roles _ _).trans rfl)
      (hcli.finishSearch item hm' hs ?_ ?_ (he.andThen rfl rfl rfl) ?_)
    · intro event hev
      simp only [nil_append, searchFinished, mem_append, mem_singleton] at hev
      rcases hev with hev | rfl
      · split at hev
        · rw [mem_singleton.mp hev]
          exact ⟨rfl, rfl⟩
        · cases hev
      · exact ⟨rfl, rfl⟩
    · simpa [searchFinished, item] using hr
    · simp [State.place, item]

/-! ### Endings -/

theorem Tracks.abandon (h : Tracks echo r s client) (hm : (callId, i) ∈ r.searching) :
    ∃ client', Tracks echo (r.searched (callId, i)) (s.abandon i) client' := by
  obtain ⟨id, status, queries, results, he, hs⟩ := h.search hm
  have hr := Slot.run_searched i (⟨id, some .incomplete, .fileSearchCall queries results⟩ : Item L)
    rfl rfl rfl false
  have hsil : Emits s (s.place i ⟨id, some .incomplete, .fileSearchCall queries results⟩) [] :=
    .silent rfl rfl rfl
  unfold State.abandon
  rw [he]
  refine h.finishSearch _ hm hs ?_ hr (hsil.snoc h.streaming _) ?_
  · simp [StreamEvent.index?, StreamEvent.added?]
  · rw [State.emit_output]
    rfl

theorem Tracks.abandonAll {indices : List Nat}
    (h : Tracks echo r s client) (hi : (r.searching.map Prod.snd).Perm indices) :
    ∃ client', Tracks echo { r with searching := [] } (indices.foldl State.abandon s) client' := by
  induction indices generalizing r s client with
  | nil =>
    have hn : r.searching = [] := map_eq_nil_iff.mp hi.eq_nil
    refine ⟨client, ?_⟩
    rw [← hn]
    exact h
  | cons i indices ih =>
    obtain ⟨⟨callId, j⟩, hm, rfl⟩ := mem_map.mp (hi.mem_iff.mpr mem_cons_self)
    obtain ⟨client', hc'⟩ := h.abandon hm
    have he := (perm_cons_erase hm).map Prod.snd
    exact ih (r := r.searched (callId, j)) hc' ((perm_cons j).mp (he.symm.trans hi))

theorem State.abandon_roles (s : State L) (i : Nat) : (s.abandon i).roles = s.roles := by
  unfold State.abandon
  split
  · exact State.emit_roles _ _
  · rfl

theorem State.abandonSearches_roles (s : State L) :
    s.abandonSearches.roles = { s.roles with searching := [] } := by
  have hf : ∀ (indices : List Nat) (t : State L), (indices.foldl State.abandon t).roles = t.roles := by
    intro indices
    induction indices with
    | nil => exact fun t => rfl
    | cons i indices ih => exact fun t => (ih (t.abandon i)).trans (t.abandon_roles i)
  exact hf _ _

theorem Tracked.abandonSearches (h : Tracked echo s) : Tracked echo s.abandonSearches := by
  obtain ⟨client, hc⟩ := h
  obtain ⟨client', hc'⟩ := hc.unrelated (t := { s with searching := [] })
    (.silent rfl rfl rfl) (forall_mem_nil _) rfl
  exact Tracked.of_roles s.abandonSearches_roles (hc'.abandonAll (mergeSort_perm _ _).symm)

theorem Tracked.finishWaiting (h : Tracked echo s) (hd : s.deferred = some i) :
    ∃ id text status encrypted,
      s.output[i]? = some (some ⟨id, some status, .reasoning [] (some (.reasoningText text)) encrypted⟩) ∧
      (status = .completed ∨ status = .incomplete) ∧
      ∀ t (item : Item L) (events : List (StreamEvent L)), Emits s t events →
        t.roles = { s.roles with deferred := none } → t.output = s.output.set i (some item) →
        (∀ event ∈ events, event.index? = some i ∧ event.added? = none) →
        (Slot.announced id [⟨.reasoning, text, true⟩]).run events = some (.finished item) →
        Tracked echo t := by
  obtain ⟨client, hc⟩ := h
  have hr : s.roles.deferred = some i := hd
  obtain ⟨id, text, status, encrypted, hent, hst, hsl⟩ := hc.waiting hr
  obtain ⟨-, hopen, -, hca, -, hs⟩ := Roles.disjoint hc.busy
  refine ⟨id, text, status, encrypted, hent, hst, ?_⟩
  intro t item events he hr' hout hevs hrun
  refine Tracked.of_roles hr' (hc.finishAt hsl hevs hrun he hout ?_ ?_ ?_
    hc.single hc.keys ⟨fun _ _ _ _ => rfl, nofun⟩)
  · refine ⟨fun _ ho _ => ho, fun _ ho _ => ho, ?_, fun _ _ ho _ => ho, ?_⟩
    · intro j hj hne
      rw [hr] at hj
      exact absurd (Option.some.inj hj).symm hne
    · intro j hj _
      rw [Roles.mem_busy] at hj ⊢
      rcases hj with hj | hj | hj | hj
      · exact .inl hj
      · exact .inr (.inl hj)
      · cases hj
      · exact .inr (.inr (.inr hj))
  · rw [Roles.mem_busy]
    rintro (⟨live, hl, heq⟩ | ⟨live, hl, heq⟩ | hn | ⟨callId, hm⟩)
    · exact hopen live i hl hr heq
    · exact hca live i hl hr heq
    · cases hn
    · exact hs callId i i hr hm rfl
  · simp [Roles.busy]

theorem State.release_roles (s : State L) (summary : List Text) :
    (s.release summary).roles = { s.roles with deferred := none } := by
  unfold State.release
  cases hd : s.deferred with
  | none => simp only [State.roles, hd]
  | some =>
    dsimp only
    split
    · exact State.emit_roles _ _
    · rfl

theorem Tracked.release (h : Tracked echo s) : Tracked echo (s.release []) := by
  have hr := s.release_roles []
  revert hr
  unfold State.release
  cases hd : s.deferred with
  | none => exact fun _ => h
  | some i =>
    obtain ⟨id, text, status, encrypted, he, hs, hf⟩ := h.finishWaiting hd
    obtain ⟨client, hc⟩ := h
    have hse : (⟨id, some status, .reasoning [] (some (.reasoningText text)) encrypted⟩ :
        Item L).settled = true := by
      rcases hs with rfl | rfl
      · rfl
      · rfl
    simp only [he]
    intro hr
    have hsil : Emits s ({ s with deferred := none }.place i
      ⟨id, some status, .reasoning [] (some (.reasoningText text)) encrypted⟩) [] := .silent rfl rfl rfl
    refine hf _ _ _ (hsil.snoc hc.streaming _) hr (State.emit_output _ _) ?_ ?_
    · simp [StreamEvent.index?, StreamEvent.added?]
    · simp [Slot.run, Slot.step, Slot.next, hse, Body.spelled, Body.texts, Part.text]

theorem Slot.run_summary (id : Text) (index : Nat) (pieces : List Text)
    (hn : ∀ entry ∈ texts, entry.channel ≠ .summary) : (Slot.announced id texts).run
        (.summaryPartAdded index id :: pieces.map (fun piece => .delta .summary index (some id) piece []) ++
          [.done .summary index (some id) pieces.flatten [], .summaryPartDone index id pieces.flatten])
      = some (.announced id (texts ++ [⟨.summary, pieces.flatten, true⟩]) : Slot L) := by
  have hd : ∀ (pieces : List Text) (text : Text),
      (Slot.announced id (texts ++ [⟨.summary, text, false⟩]) : Slot L).run
          (pieces.map fun piece => .delta .summary index (some id) piece [])
        = some (.announced id (texts ++ [⟨.summary, text ++ pieces.flatten, false⟩])) := by
    intro pieces
    induction pieces with
    | nil => simp [Slot.run]
    | cons piece pieces ih =>
      intro text
      have hs : spell .summary piece (texts ++ [⟨.summary, text, false⟩])
          = some (texts ++ [⟨.summary, text ++ piece, false⟩]) := by
        clear ih
        induction texts with
        | nil => simp [spell]
        | cons entry texts ih =>
          rw [cons_append, spell, if_neg (hn entry mem_cons_self),
            ih (fun entry hm => hn entry (mem_cons_of_mem _ hm))]
          rfl
      simp only [map_cons, Slot.run, Slot.step, Slot.next, Option.all_some, decide_true, if_true,
        hs, Option.map_some, Option.bind_some, ih, flatten_cons, append_assoc]
  have hdo : ∀ text : Text, (Slot.announced id (texts ++ [⟨.summary, text, false⟩]) : Slot L).run
      [.done .summary index (some id) text [], .summaryPartDone index id text]
        = some (.announced id (texts ++ [⟨.summary, text, true⟩])) := by
    intro text
    simp only [Slot.run, Slot.step, Slot.next, Option.all_some, decide_true, if_true,
      conclude_last hn, Option.map_some, Option.bind_some]
    simp
  rw [cons_append, Slot.run, Slot.step, Slot.next, if_pos ⟨rfl, hn⟩, Option.bind_some]
  cases pieces with
  | nil =>
    have hno : conclude .summary [] texts = some (texts ++ [⟨.summary, [], true⟩]) := by
      clear hd hdo
      induction texts with
      | nil => rfl
      | cons entry texts ih =>
        rw [conclude, if_neg (hn entry mem_cons_self),
          ih (fun entry hm => hn entry (mem_cons_of_mem _ hm))]
        rfl
    simp [Slot.run, Slot.step, Slot.next, hno]
  | cons =>
    rw [map_cons, cons_append, Slot.run, Slot.step, Slot.next]
    simp only [Option.all_some, decide_true, if_true, spell_new hn, Option.map_some, Option.bind_some]
    rw [Slot.run_append, hd, Option.bind_some]
    exact hdo _

def summaryEvents (index : Nat) (id : Text) (pieces : List Text) : List (StreamEvent L) :=
  .summaryPartAdded index id :: pieces.map (fun piece => .delta .summary index (some id) piece []) ++
    [.done .summary index (some id) pieces.flatten [], .summaryPartDone index id pieces.flatten]

theorem Tracked.summarized (h : Tracked echo s) (hd : s.deferred = some i)
    (pieces : List Text) {text : Text} {status : ItemStatus} {encrypted : Option Text}
    (he : s.output[i]? = some (some
      ⟨id, some status, .reasoning [] (some (.reasoningText text)) encrypted⟩)) (failed : Bool) :
    Tracked echo ((if failed then (s.emitAll (summaryEvents i id pieces)).place i
        ⟨id, some .incomplete, .reasoning [] (some (.reasoningText text)) encrypted⟩
      else s.emitAll (summaryEvents i id pieces)).release [pieces.flatten]) := by
  obtain ⟨id', text', status', encrypted', he', hst, hf⟩ := h.finishWaiting hd
  obtain ⟨client, hc⟩ := h
  rw [he] at he'
  cases he'
  have hlt : i < s.output.length := (List.getElem?_eq_some_iff.mp he).1
  have hoth : ∀ entry ∈ [(⟨.reasoning, text, true⟩ : Spelled)], entry.channel ≠ .summary := by simp
  have hsu := Slot.run_summary (L := L) id i pieces hoth
  have hend : ∀ status : ItemStatus, status = .completed ∨ status = .incomplete →
      (Slot.announced id [⟨.reasoning, text, true⟩]).run (summaryEvents i id pieces ++ [.itemDone i
        ⟨id, some status, .reasoning [pieces.flatten] (some (.reasoningText text)) encrypted⟩])
      = some (.finished (⟨id, some status, .reasoning [pieces.flatten] (some (.reasoningText text))
          encrypted⟩ : Item L)) := by
    intro status hst
    rw [Slot.run_append, summaryEvents, hsu, Option.bind_some]
    rcases hst with rfl | rfl
    · simp [Slot.run, Slot.step, Slot.next, Item.settled, Body.spelled, Body.texts, Part.text]
    · simp [Slot.run, Slot.step, Slot.next, Item.settled, Body.spelled, Body.texts, Part.text]
  have hi : ∀ item : Item L, ∀ event ∈ summaryEvents i id pieces ++ [.itemDone i item],
      event.index? = some i ∧ event.added? = none := by
    intro item event hev
    simp only [summaryEvents, cons_append, mem_cons, mem_append, mem_map,
      not_mem_nil, or_false] at hev
    rcases hev with rfl | (⟨piece, -, rfl⟩ | rfl | rfl) | rfl
    all_goals exact ⟨rfl, rfl⟩
  have hem := Emits.emitAll hc.streaming (summaryEvents i id pieces)
  have hr := State.emitAll_roles s (summaryEvents i id pieces)
  have ho := State.emitAll_output s (summaryEvents i id pieces)
  generalize s.emitAll (summaryEvents i id pieces) = t at *
  have hw : t.deferred = some i := (congrArg Roles.deferred hr).trans hd
  cases failed with
  | false =>
    have hs : t.release [pieces.flatten] = ({ t with deferred := none }.place i ⟨id, some status,
        .reasoning [pieces.flatten] (some (.reasoningText text)) encrypted⟩).emit (.itemDone i
          ⟨id, some status, .reasoning [pieces.flatten] (some (.reasoningText text)) encrypted⟩) := by
      simp only [State.release, hw, ho, he]
    rw [if_neg Bool.false_ne_true, hs]
    have hp : Emits s ({ t with deferred := none }.place i ⟨id, some status,
        .reasoning [pieces.flatten] (some (.reasoningText text)) encrypted⟩) (summaryEvents i id pieces) :=
      hem.andThen rfl rfl rfl
    refine hf _ _ _ (hp.snoc hc.streaming _) ?_ ?_ (hi _) (hend status hst)
    · rw [State.emit_roles, ← hr]
      rfl
    · rw [State.emit_output, ← ho]
      rfl
  | true =>
    have hs : (t.place i ⟨id, some .incomplete, .reasoning [] (some (.reasoningText text))
        encrypted⟩).release [pieces.flatten] = ({ t.place i ⟨id, some .incomplete, .reasoning []
          (some (.reasoningText text)) encrypted⟩ with deferred := none }.place i ⟨id,
            some .incomplete, .reasoning [pieces.flatten] (some (.reasoningText text)) encrypted⟩).emit
              (.itemDone i ⟨id, some .incomplete,
                .reasoning [pieces.flatten] (some (.reasoningText text)) encrypted⟩) := by
      have hset : (t.output.set i (some ⟨id, some .incomplete, .reasoning []
          (some (.reasoningText text)) encrypted⟩))[i]? = _ :=
        getElem?_set_self (ho ▸ hlt)
      simp only [State.release, State.place, hw, hset]
    rw [if_pos rfl, hs]
    have hp : Emits s ({ t.place i ⟨id, some .incomplete, .reasoning []
        (some (.reasoningText text)) encrypted⟩ with deferred := none }.place i ⟨id, some .incomplete,
          .reasoning [pieces.flatten] (some (.reasoningText text)) encrypted⟩)
        (summaryEvents i id pieces) := hem.andThen rfl rfl rfl
    refine hf _ _ _ (hp.snoc hc.streaming _) ?_ ?_ (hi _) (hend _ (.inr rfl))
    · rw [State.emit_roles, ← hr]
      rfl
    · rw [State.emit_output, ← ho]
      exact set_set ..

theorem Tracked.summarize (h : Tracked echo s) (generated : Option State.Generated) :
    Tracked echo (s.summarize echo generated).1 ∧
      (s.summarize echo generated).1.roles = { s.roles with deferred := none } := by
  obtain ⟨client, hc⟩ := id h
  cases hd : s.deferred with
  | none =>
    have hsa : s.roles = { s.roles with deferred := none } := by
      simp only [State.roles, hd]
    rw [State.summarize, hd]
    exact ⟨h, hsa⟩
  | some i =>
    have hs : echo.summary = true := hc.fits.2 i hd
    obtain ⟨id, text, status, encrypted, he, -⟩ := h.finishWaiting hd
    rw [State.summarize, hd, hs]
    simp only [he]
    cases generated with
    | none => exact ⟨h.release, s.release_roles _⟩
    | some generated =>
      obtain ⟨pieces, error⟩ := generated
      dsimp only
      split
      · exact ⟨h.release, s.release_roles _⟩
      · have hevs : ((((s.emit (.summaryPartAdded i id)).emitAll (pieces.map fun piece =>
            .delta .summary i (some id) piece [])).emit
              (.done .summary i (some id) pieces.flatten [])).emit
                (.summaryPartDone i id pieces.flatten)) = s.emitAll (summaryEvents i id pieces) := by
          simp only [State.emitAll, summaryEvents, foldl_cons, foldl_append, cons_append, foldl_nil]
        rw [hevs]
        refine ⟨h.summarized hd pieces he error.isSome, ?_⟩
        rw [State.release_roles]
        split
        · exact congrArg (fun r : Roles L => { r with deferred := none }) (State.emitAll_roles _ _)
        · rw [State.emitAll_roles]

/-! ### Openings -/

theorem tracked_opening (echo : Echo) {s : State L} (hr : s.roles = ⟨none, none, none, []⟩)
    (ho : s.output = echo.compactionItem.toList.map some) (events : List (StreamEvent L))
    (hevs : ∀ event ∈ events, event.index? = none)
    (he : Emits (State.new echo true) s events) : Tracked echo (s.announceCompaction echo) := by
  let blank : State L := { State.new echo true with output := [] }
  have hb : Tracks echo ⟨none, none, none, []⟩ blank Client.start :=
    { streaming := rfl
      run := rfl
      sequence := rfl
      length := rfl
      stands := fun _ _ _ hent => (by cases hent)
      named := fun _ _ hs => (by cases hs)
      single := .inl rfl
      busy := nodup_nil
      bound := forall_mem_nil _
      keys := nodup_nil
      fits := ⟨fun _ _ h => (by cases h), fun _ h => (by cases h)⟩ }
  have hbef : Emits blank { s with output := [] } events :=
    ⟨he.streaming, he.log, he.sequence⟩
  obtain ⟨client, hcli⟩ := hb.unrelated hbef hevs rfl
  unfold State.announceCompaction
  unfold Echo.compactionItem at ho ⊢
  cases hc : echo.compaction with
  | none =>
    rw [hc] at ho
    have hsa : s = { s with output := [] } := by rw [← show s.output = [] from ho]
    refine Tracked.of_roles hr ⟨client, ?_⟩
    rw [Option.map_none]
    rw [← hsa] at hcli
    exact hcli
  | some sealed =>
    rw [hc] at ho
    have hst : s.streaming = true := hcli.streaming
    let item : Item L := ⟨"cmp_".toList ++ sealed.1, none, .compaction sealed.2⟩
    have ha := ((Emits.refl s).snoc hst (.itemAdded 0 item)).snoc hst (.itemDone 0 item)
    have hp : Emits { s with output := [] } ((s.emit (.itemAdded 0 item)).emit (.itemDone 0 item))
        [.itemAdded 0 item, .itemDone 0 item] :=
      ⟨ha.streaming, ha.log, ha.sequence⟩
    have hf : item.id ∉ client.slots.map Slot.id := by
      rw [length_eq_zero_iff.mp hcli.length.symm]
      exact not_mem_nil
    have hn : Named echo 0 item.id := .compaction
    have hrun : (Slot.announced item.id []).run [.itemDone 0 item] = some (.finished item) := by
      simp [Slot.run, Slot.step, Slot.next, Item.settled, Body.spelled, Body.texts, item]
    have hs : Stands ⟨none, none, none, []⟩ 0 (some item) (.finished item) :=
      .finished not_mem_nil
    have hr' : ((s.emit (.itemAdded 0 item)).emit (.itemDone 0 item)).roles
        = ⟨none, none, none, []⟩ := by
      rw [State.emit_roles, State.emit_roles, hr]
    refine Tracked.of_roles hr' (hcli.push hf hn ?_ hrun hp ?_ hs ?_ (.inl rfl)
      nodup_nil nodup_nil hcli.fits)
    · simp [StreamEvent.index?, StreamEvent.added?]
    · have ho' : ((s.emit (.itemAdded 0 item)).emit (.itemDone 0 item)).output = [some item] := by
        rw [State.emit_output, State.emit_output, ho]
        rfl
      exact ho'
    · exact Roles.frame_new (.inl rfl) (.inl rfl) rfl (fun _ hm => hm) (fun _ hj _ => hj)

theorem Tracked.start (echo : Echo) : Tracked echo ((State.new echo true : State L).start echo) := by
  have he := ((Emits.refl (State.new echo true : State L)).snoc rfl (.created
    ((State.new echo true : State L).response .inProgress none))).snoc rfl (.inProgress
      ((State.new echo true : State L).response .inProgress none))
  exact tracked_opening echo rfl rfl _ (by simp [StreamEvent.index?]) he

theorem Tracked.started (echo : Echo) :
    Tracked echo ((State.new echo true : State L).startQueued.started echo) := by
  have he := (((Emits.refl (State.new echo true : State L)).snoc rfl (.created
    ((State.new echo true : State L).response .queued none))).snoc rfl (.queued
      ((State.new echo true : State L).response .queued none))).snoc rfl (.inProgress
        ((State.new echo true : State L).response .inProgress none))
  exact tracked_opening echo rfl rfl _ (by simp [StreamEvent.index?]) he

theorem Tracked.startQueued {echo : Echo} (hc : echo.compaction = none) :
    Tracked echo (State.new echo true : State L).startQueued := by
  have he := ((Emits.refl (State.new echo true : State L)).snoc rfl (.created
    ((State.new echo true : State L).response .queued none))).snoc rfl (.queued
      ((State.new echo true : State L).response .queued none))
  have ho := tracked_opening echo rfl rfl _ (by simp [StreamEvent.index?]) he
  rwa [State.announceCompaction, Echo.compactionItem, hc] at ho

/-! ### A whole Response -/

/-- What one engine event has to meet: a call, see `State.Calls`; no second reasoning item
while one waits for its summary. -/
def State.Meets (echo : Echo) (s : State L) : State.Signal L → Prop
  | .engine (.reasoning _) => echo.summary = true → s.deferred = none
  | .engine (.toolCall call) => s.Calls echo call
  | _ => True

theorem Tracked.event (h : Tracked echo s) {signal : State.Signal L} (hm : s.Meets echo signal) :
    Tracked echo (s.event echo signal) := by
  cases signal with
  | toolOutput output => exact h.toolOutput output
  | engine event =>
    cases event with
    | reasoning piece => exact h.text piece (fun _ => hm)
    | content piece => exact h.text piece nofun
    | toolCallDelta delta => exact h.callDelta delta
    | toolCall => exact h.call hm
    | logprobs => exact h.congr (.silent rfl rfl rfl) rfl rfl

end Operations

/-- How a Response begins, with the engine events it is fed. -/
inductive Course (L : Type)
  | foreground (signals : List (State.Signal L))
  | background (signals : List (State.Signal L))
  | unstarted

inductive Ending
  | finish (finished : State.Finished)
  | fail (message : Text)
  | cancelled

def Course.signals : Course L → List (State.Signal L)
  | .foreground signals | .background signals => signals
  | .unstarted => []

def Course.opening (echo : Echo) : Course L → State L
  | .foreground _ => (State.new echo true).start echo
  | .background _ => (State.new echo true).startQueued.started echo
  | .unstarted => (State.new echo true).startQueued

def Course.state (echo : Echo) (course : Course L) : State L :=
  course.signals.foldl (State.event echo) (course.opening echo)

def State.ends (echo : Echo) (s : State L) : Ending → State L × Document L
  | .finish finished => s.finish echo finished
  | .fail message => s.fail echo message
  | .cancelled => s.cancelled echo

def MeetsAll (echo : Echo) : State L → List (State.Signal L) → Prop
  | _, [] => True
  | s, signal :: signals => s.Meets echo signal ∧ MeetsAll echo (s.event echo signal) signals

/-- The run meets the conditions of its steps: those of its events, no compaction item if
it ends before it has started, no search that runs if it is cancelled. -/
structure Course.Meets (echo : Echo) (course : Course L) (ending : Ending) : Prop where
  events : MeetsAll echo (course.opening echo) course.signals
  started : course = .unstarted → echo.compaction = none
  cancelled : ending = .cancelled → (course.state echo).searching = []

theorem Tracked.opening {echo : Echo} {course : Course L}
    (h : course = .unstarted → echo.compaction = none) : Tracked echo (course.opening echo) := by
  cases course with
  | foreground => exact Tracked.start echo
  | background => exact Tracked.started echo
  | unstarted => exact Tracked.startQueued (h rfl)

theorem Tracked.events {echo : Echo} {s : State L} {signals : List (State.Signal L)}
    (h : Tracked echo s) (hm : MeetsAll echo s signals) :
    Tracked echo (signals.foldl (State.event echo) s) := by
  induction signals generalizing s with
  | nil => exact h
  | cons signal signals ih => exact ih (h.event hm.1) hm.2

def State.Idle (s : State L) : Prop := s.roles = ⟨none, none, none, []⟩

/-- A Response that has ended: the client has every item of its document. -/
structure Ended (echo : Echo) (ended : State L × Document L) : Prop where
  tracked : Tracked echo ended.1
  idle : ended.1.Idle
  output : ended.2.output = ended.1.output.filterMap id

section Endings

variable {echo : Echo} {s : State L}

theorem Tracked.emit_final (h : Tracked echo s) {event : StreamEvent L} (hi : event.index? = none) :
    Tracked echo (s.emit event) := by
  obtain ⟨client, hc⟩ := h
  refine Tracked.of_roles (State.emit_roles _ _)
    (hc.unrelated (Emits.emit hc.streaming event) ?_ (State.emit_output _ _))
  simpa using hi

theorem Ended.emit (h : Tracked echo s) (hi : s.Idle) {event : StreamEvent L}
    (hidx : event.index? = none) (status : DocumentStatus) (error : Option Text) :
    Ended echo (s.emit event, s.response status error) := by
  refine ⟨h.emit_final hidx, ?_, ?_⟩
  · exact (State.emit_roles s event).trans hi
  · rw [State.emit_output]
    rfl

theorem State.closed_idle (s : State L) (status : ItemStatus) :
    ((s.close echo status).abandonSearches.release []).Idle := by
  obtain ⟨ho, hc, -⟩ := @State.close_roles L echo s status
  rw [State.Idle, State.release_roles, State.abandonSearches_roles]
  simp only [State.roles, ho, hc]

theorem Ended.notKept (h : Tracked echo s) (hi : s.Idle) (message : Text) :
    Ended echo (s.notKept message) := by
  have he : Tracked echo (s.emit (.error message)) := h.emit_final rfl
  exact .emit he ((State.emit_roles s _).trans hi) rfl _ _

theorem Ended.fail (h : Tracked echo s) (message : Text) : Ended echo (s.fail echo message) :=
  .notKept (h.close (.inr rfl)).abandonSearches.release (s.closed_idle .incomplete) message

theorem Ended.cancelled (h : Tracked echo s) (hs : s.searching = []) :
    Ended echo (s.cancelled echo) := by
  obtain ⟨ho, hc, hsa, -⟩ := @State.close_roles L echo s .incomplete
  refine ⟨(h.close (.inr rfl)).release, ?_, rfl⟩
  show ((s.close echo .incomplete).release []).roles = _
  rw [State.release_roles]
  simp only [State.roles, ho, hc, hsa, hs]

theorem Ended.finish (h : Tracked echo s) (finished : State.Finished) :
    Ended echo (s.finish echo finished) := by
  unfold State.finish
  split
  · exact .fail h _
  · have he : ∃ event status itemStatus error,
        State.ending finished.stopReason = (event, status, itemStatus, error) ∧
          (itemStatus = .completed ∨ itemStatus = .incomplete) ∧
          ∀ response : Document L, (event response).index? = none := by
      cases finished.stopReason with
      | eos => exact ⟨_, _, _, _, rfl, .inl rfl, fun _ => rfl⟩
      | stopped => exact ⟨_, _, _, _, rfl, .inl rfl, fun _ => rfl⟩
      | tokenLimit => exact ⟨_, _, _, _, rfl, .inr rfl, fun _ => rfl⟩
      | cancelled => exact ⟨_, _, _, _, rfl, .inr rfl, fun _ => rfl⟩
    obtain ⟨event, status, itemStatus, error, he, hitem, hidx⟩ := he
    rw [he]
    dsimp only
    have hc := (h.close hitem).abandonSearches
    have hi := @State.closed_idle L echo s itemStatus
    generalize (s.close echo itemStatus).abandonSearches = t at hc hi
    cases t.encryptionError with
    | some message =>
      have hcl : Tracked echo { t with encryptionError := none } :=
        hc.congr (.silent rfl rfl rfl) rfl rfl
      exact .fail hcl message
    | none =>
      have hs : ∃ u failure, (if finished.stopReason = .cancelled then (t.release [], none) else
          t.summarize echo finished.summary) = (u, failure) ∧ Tracked echo u ∧ u.Idle := by
        rw [State.Idle, State.release_roles] at hi
        by_cases hca : finished.stopReason = .cancelled
        · rw [if_pos hca]
          exact ⟨_, _, rfl, hc.release, (t.release_roles _).trans hi⟩
        · rw [if_neg hca]
          obtain ⟨ht, hr⟩ := hc.summarize finished.summary
          exact ⟨_, _, rfl, ht, hr.trans hi⟩
      obtain ⟨u, failure, hs, ht, hu⟩ := hs
      rw [hs]
      cases failure with
      | some message => exact .fail ht message
      | none =>
        cases (if error.isNone then finished.unkept else none) with
        | some message => exact .notKept ht hu message
        | none => exact .emit ht hu (hidx _) _ _

theorem mapM_finished {output : List (Option (Item L))} {slots : List (Slot L)}
    (hl : output.length = slots.length)
    (h : ∀ (i : Nat) (entry : Option (Item L)) (slot : Slot L), output[i]? = some entry → slots[i]? = some slot →
      ∃ item, entry = some item ∧ slot = Slot.finished item) : slots.mapM (fun slot =>
      match slot with
      | Slot.announced _ _ => none
      | Slot.finished item => some item) = some (output.filterMap id) := by
  induction slots generalizing output with
  | nil =>
    rw [length_eq_zero_iff.mp hl]
    rfl
  | cons slot slots ih =>
    cases output with
    | nil => cases hl
    | cons entry =>
      obtain ⟨item, rfl, rfl⟩ := h 0 entry slot rfl rfl
      have hr := ih (Nat.succ.inj hl) fun i entry slot => h (i + 1) entry slot
      rw [mapM_cons, hr]
      rfl

theorem Ended.rebuilt {ended : State L × Document L} (h : Ended echo ended) :
    (Client.start.run ended.1.events).bind Client.document = some ended.2.output := by
  obtain ⟨client, hc⟩ := h.tracked
  rw [hc.run, Option.bind_some, h.output]
  refine mapM_finished hc.length fun i entry slot he hsl => ?_
  have hs := hc.stands i entry slot he hsl
  rw [h.idle] at hs
  cases hs with
  | writing hn => cases hn
  | calling hn => cases hn
  | waiting hn => cases hn
  | searching hn => cases hn
  | finished => exact ⟨_, rfl, rfl⟩

end Endings

/-- The events of a Response rebuild its document, in every run that meets its
conditions. -/
theorem stream_rebuilds_document (echo : Echo) (course : Course L) (ending : Ending)
    (hmeets : course.Meets echo ending) :
    (Client.start.run ((course.state echo).ends echo ending).1.events).bind Client.document
      = some ((course.state echo).ends echo ending).2.output := by
  have hs : Tracked echo (course.state echo) := (Tracked.opening hmeets.started).events hmeets.events
  apply Ended.rebuilt
  cases ending with
  | finish finished => exact .finish hs finished
  | fail message => exact .fail hs message
  | cancelled => exact .cancelled hs (hmeets.cancelled rfl)

/-- A request that declares a file search and asks for a summary. -/
def searchEcho : Echo where
  stem := "0".toList
  compaction := none
  summary := true
  kinds := ⟨fun name => if name = "search".toList then .hosted .fileSearch else .function, fun _ => none⟩
  cipher := none
  fileSearchResults := false

def searchCall : ToolCall :=
  ⟨0, "search".toList, .object [("queries".toList, .array [.string "q".toList])]⟩

theorem stream_rebuilds_search :
    (Client.start.run (((Course.foreground [.engine (.reasoning "why".toList), .engine (.toolCall searchCall),
        .toolOutput ⟨0, "search".toList, [], some .completed, none, none, none⟩,
        .engine (.content "so".toList)] : Course Unit).state searchEcho).ends searchEcho
          (.finish ⟨.eos, none, some ⟨["s".toList], none⟩, none⟩)).1.events).bind Client.document
      = some (((Course.foreground [.engine (.reasoning "why".toList), .engine (.toolCall searchCall),
        .toolOutput ⟨0, "search".toList, [], some .completed, none, none, none⟩,
        .engine (.content "so".toList)] : Course Unit).state searchEcho).ends searchEcho
          (.finish ⟨.eos, none, some ⟨["s".toList], none⟩, none⟩)).2.output :=
  stream_rebuilds_document searchEcho _ _
    { events := ⟨fun _ => rfl, ⟨nofun, nofun⟩, trivial, trivial, trivial⟩
      started := nofun
      cancelled := nofun }

theorem cancelled_search_unfinished :
    (Client.start.run (((Course.background [.engine (.toolCall searchCall)] : Course Unit).state
        searchEcho).ends searchEcho .cancelled).1.events).bind Client.document = none ∧
      (((Course.background [.engine (.toolCall searchCall)] : Course Unit).state
        searchEcho).ends searchEcho .cancelled).2.output.map Item.status = [some .searching] :=
  ⟨rfl, rfl⟩

end LocalAi.Responses
