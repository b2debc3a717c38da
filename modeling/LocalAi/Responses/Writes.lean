import LocalAi.Responses.Tracks

/-!
# Text items and closing

What writing text, and closing what is open, keep of a client that follows.

* `Tracked.finishCall`: the end of a call whose arguments streamed.
* `Tracked.close`, `State.close_roles`: closing leaves nothing open.
-/

open List

namespace LocalAi.Responses

variable {L : Type}

/-! ### Text items -/

theorem spell_begun (channel : Channel) (text : Text) {piece : Text} (hp : piece ≠ []) :
    spell channel piece (begun channel text) = some (begun channel (text ++ piece)) := by
  have hm : text ++ piece ≠ [] := by simp [hp]
  unfold begun
  rw [if_neg hm]
  by_cases ht : text = []
  · rw [if_pos ht, ht, nil_append, spell]
  · rw [if_neg ht]
    simp [spell]

theorem conclude_begun (channel : Channel) (text : Text) :
    conclude channel text (begun channel text) = some [⟨channel, text, true⟩] := by
  unfold begun
  by_cases ht : text = []
  · rw [if_pos ht, ht, conclude, if_pos rfl]
  · rw [if_neg ht]
    simp [conclude]

section Operations

variable {echo : Echo} {s : State L}

variable {events : List (StreamEvent L)} {live : Open L} {kind : ItemKind} {r : Roles L}

theorem Tracked.write (h : Tracked echo s) {live' : Open L} {t : State L}
    (hopen : s.opened = some live) (he : Emits s t events)
    (hr : t.roles = { s.roles with opened := some live' }) (hi : live'.index = live.index)
    (hid : live'.id = live.id) (hk : live'.kind = live.kind) (hout : t.output = s.output)
    (hevs : ∀ event ∈ events, event.index? = some live.index ∧ event.added? = none)
    (hrun : (Slot.announced live.id (begun live.kind.channel live.text)).run events
      = some (.announced live.id (begun live.kind.channel live'.text))) : Tracked echo t := by
  obtain ⟨client, hc⟩ := h
  have hroles_opened : s.roles.opened = some live := hopen
  obtain ⟨hent, hsl⟩ := hc.writing hroles_opened
  obtain ⟨hlt, hg⟩ := List.getElem?_eq_some_iff.mp hent
  have hsa : t.output = s.output.set live.index none := by
    rw [hout, ← hg, set_getElem_self]
  have hb : t.roles.busy = s.roles.busy := by
    rw [hr]
    simp only [Roles.busy, hroles_opened, Option.map_some, hi]
  refine hc.change hsl hevs hrun he hsa ?_ ?_ ?_ ?_ ?_ ?_
  · rw [← hid, ← hk, hr]
    exact .writing rfl hi
  · refine ⟨?_, ?_, ?_, ?_, ?_⟩
    · intro other ho hne
      rw [hroles_opened] at ho
      cases ho
      exact absurd rfl hne
    · exact fun other ho _ => by rwa [hr]
    · exact fun j hj _ => by rwa [hr]
    · exact fun callId j hj _ => by rwa [hr]
    · exact fun j hj _ => by rwa [hb] at hj
  · right
    rw [hr]
    obtain hn | hn := hc.single
    · rw [hroles_opened] at hn
      cases hn
    · exact hn
  · rw [hb]
    exact hc.busy
  · rw [hr]
    exact hc.keys
  · rw [hr]
    refine ⟨?_, hc.fits.2⟩
    intro hs other ho hre
    cases ho
    exact hc.fits.1 hs live hroles_opened (hk ▸ hre)

theorem Tracked.append (h : Tracked echo s) (piece : Text)
    (hk : ∀ live, s.opened = some live → live.kind = kind) : Tracked echo (s.append kind piece) := by
  obtain ⟨client, hc⟩ := h
  have hst := hc.streaming
  unfold State.append
  cases ho : s.opened with
  | none => exact ⟨client, hc⟩
  | some live =>
    by_cases hp : piece = []
    · rw [hp]
      exact ⟨client, hc⟩
    · have he : piece.isEmpty = false := by simpa using hp
      have hl := hk live ho
      have hs := spell_begun live.kind.channel live.text hp
      cases kind with
      | reasoning =>
        simp only [he, Bool.false_eq_true, if_false]
        have hsil : Emits s { s with opened := some { live with
            text := live.text ++ piece
            chars := live.chars + piece.length } } [] := .silent rfl rfl rfl
        refine Tracked.write ⟨client, hc⟩ ho (hsil.snoc hst _)
          (State.emit_roles _ _) rfl rfl rfl (State.emit_output _ _) ?_ ?_
        · simp [StreamEvent.index?, StreamEvent.added?]
        · rw [hl] at hs ⊢
          simp only [ItemKind.channel] at hs
          simp [Slot.run, Slot.step, Slot.next, ItemKind.channel, hs]
      | message =>
        simp only [he, Bool.false_eq_true, if_false]
        have hsil : Emits s { s with
            opened := some { live with
              text := live.text ++ piece
              chars := live.chars + piece.length
              logprobs := live.logprobs ++ s.logprobs }
            logprobs := [] } [] := .silent rfl rfl rfl
        refine Tracked.write ⟨client, hc⟩ ho (hsil.snoc hst _)
          (State.emit_roles _ _) rfl rfl rfl (State.emit_output _ _) ?_ ?_
        · simp [StreamEvent.index?, StreamEvent.added?]
        · rw [hl] at hs ⊢
          simp only [ItemKind.channel] at hs
          simp [Slot.run, Slot.step, Slot.next, ItemKind.channel, hs]

/-- Text goes to the open item and nothing else changes. -/
structure Rewrites (s t : State L) : Prop where
  output : t.output = s.output
  calling : t.calling = s.calling
  deferred : t.deferred = s.deferred
  searching : t.searching = s.searching
  kind : t.opened.map Open.kind = s.opened.map Open.kind

theorem Rewrites.refl (s : State L) : Rewrites s s := ⟨rfl, rfl, rfl, rfl, rfl⟩

variable {t : State L} {status : ItemStatus}

theorem Rewrites.trans {u : State L} (h : Rewrites s t) (h' : Rewrites t u) : Rewrites s u :=
  ⟨h'.output.trans h.output, h'.calling.trans h.calling, h'.deferred.trans h.deferred,
    h'.searching.trans h.searching, h'.kind.trans h.kind⟩

theorem Rewrites.of_roles {live' : Open L} (ho : s.opened = some live)
    (hr : t.roles = { s.roles with opened := some live' }) (hk : live'.kind = live.kind)
    (hout : t.output = s.output) : Rewrites s t := by
  have ho' : t.opened = some live' := congrArg Roles.opened hr
  refine ⟨hout, congrArg Roles.calling hr, congrArg Roles.deferred hr,
    congrArg Roles.searching hr, ?_⟩
  rw [ho, ho', Option.map_some, Option.map_some, hk]

theorem State.append_rewrites (s : State L) (kind : ItemKind) (piece : Text) :
    Rewrites s (s.append kind piece) := by
  unfold State.append
  cases ho : s.opened with
  | none => exact .refl s
  | some =>
    by_cases hp : piece.isEmpty
    · simp only [hp, if_true]
      exact .refl s
    · cases kind with
      | reasoning =>
        simp only [hp, Bool.false_eq_true, if_false]
        exact .of_roles ho (State.emit_roles _ _) rfl (State.emit_output _ _)
      | message =>
        simp only [hp, Bool.false_eq_true, if_false]
        exact .of_roles ho (State.emit_roles _ _) rfl (State.emit_output _ _)

theorem State.cite_rewrites (s : State L) (cited : List (Text × Text)) : Rewrites s (s.cite cited) := by
  unfold State.cite
  cases ho : s.opened with
  | none => exact .refl s
  | some =>
    exact .of_roles ho (State.emitAll_roles _ _) rfl (State.emitAll_output _ _)

theorem Slot.run_citations (id : Text) (texts : List Spelled) (index : Nat)
    (added : List (Nat × Annotation)) : (Slot.announced id texts).run (added.map fun entry =>
      (.annotationAdded index id entry.1 entry.2 : StreamEvent L)) = some (.announced id texts) := by
  induction added with
  | nil => rfl
  | cons entry added ih =>
    rw [map_cons, Slot.run, Slot.step, Slot.next, if_pos rfl, Option.bind_some]
    exact ih

theorem Tracked.cite (h : Tracked echo s) (cited : List (Text × Text)) :
    Tracked echo (s.cite cited) := by
  obtain ⟨client, hc⟩ := h
  unfold State.cite
  cases ho : s.opened with
  | none => exact ⟨client, hc⟩
  | some live =>
    have hs : Emits s { s with opened := some { live with
        annotations := live.annotations ++
          (State.newAnnotations live.chars live.annotations cited).map Prod.snd } } [] :=
      .silent rfl rfl rfl
    refine Tracked.write ⟨client, hc⟩ ho
      (hs.snocAll hc.streaming _) (State.emitAll_roles _ _) rfl rfl rfl
      (State.emitAll_output _ _) ?_ ?_
    · intro event hev
      rw [nil_append, mem_map] at hev
      obtain ⟨entry, -, rfl⟩ := hev
      exact ⟨rfl, rfl⟩
    · exact Slot.run_citations _ _ _ _

theorem Tracked.congr (h : Tracked echo s) (he : Emits s t []) (hr : t.roles = s.roles)
    (ho : t.output = s.output) : Tracked echo t := by
  obtain ⟨client, hc⟩ := h
  rw [Tracked, hr]
  exact hc.unrelated he (forall_mem_nil _) ho

theorem Tracked.of_roles (hr : t.roles = r)
    (h : ∃ client, Tracks echo r t client) : Tracked echo t := by
  rwa [Tracked, hr]

/-- The work at `i` ends. -/
theorem Tracks.finishAt {r' : Roles L} {client : Client L} {i : Nat} {slot : Slot L}
    {item : Item L} (h : Tracks echo r s client) (hs : client.slots[i]? = some slot)
    (hevs : ∀ event ∈ events, event.index? = some i ∧ event.added? = none)
    (hr : slot.run events = some (.finished item)) (he : Emits s t events)
    (ho : t.output = s.output.set i (some item)) (hf : Frame r r' i) (hi : i ∉ r'.busy)
    (hsub : r'.busy.Sublist r.busy) (hsgl : r'.opened = none ∨ r'.calling = none)
    (hk : (r'.searching.map Prod.fst).Nodup) (hfi : r'.Fits echo) :
    ∃ client', Tracks echo r' t client' :=
  h.change hs hevs hr he ho (.finished hi) hf hsgl (hsub.nodup h.busy) hk hfi

/-! ### Calls -/

def OpenCall.finished (live : OpenCall L) (whole : Text) (status : ItemStatus) : Item L :=
  { live.item with
    status := if live.custom then live.item.status else some status
    body :=
      match live.item.body with
      | .customToolCall callId name _ => .customToolCall callId name whole
      | .functionCall callId name _ => .functionCall callId name whole
      | body => body }

theorem OpenCall.Announced.finished {live : OpenCall L} (h : live.Announced) (whole : Text)
    (hs : status = .completed ∨ status = .incomplete) :
    (live.finished whole status).id = live.id ∧ (live.finished whole status).settled = true ∧
      (live.finished whole status).body.spelled = [⟨live.channel, whole, true⟩] := by
  cases h with
  | custom hc hi =>
    simp [OpenCall.finished, OpenCall.channel, hc, hi, Item.settled, Body.spelled, Body.texts]
  | function hc hi =>
    rcases hs with rfl | rfl
    · simp [OpenCall.finished, OpenCall.channel, hc, hi, Item.settled, Body.spelled, Body.texts]
    · simp [OpenCall.finished, OpenCall.channel, hc, hi, Item.settled, Body.spelled, Body.texts]

/-- A call's remaining text, its `done` and its item's. -/
def callEnd (live : OpenCall L) (rest whole : Text) (item : Item L) : List (StreamEvent L) :=
  (if rest.isEmpty then [] else [.delta live.channel live.index (some live.id) rest []]) ++
    [.done live.channel live.index (some live.id) whole [], .itemDone live.index item]

theorem Slot.run_callEnd {live : OpenCall L} (hli : live.Announced) (rest : Text)
    (hst : status = .completed ∨ status = .incomplete) :
    (Slot.announced live.id (begun live.channel live.streamed)).run
        (callEnd live rest (live.streamed ++ rest) (live.finished (live.streamed ++ rest) status))
      = some (.finished (live.finished (live.streamed ++ rest) status)) := by
  obtain ⟨hid, hse, hs⟩ := hli.finished (live.streamed ++ rest) hst
  have hl : (Slot.announced live.id (begun live.channel (live.streamed ++ rest))).run
      [.done live.channel live.index (some live.id) (live.streamed ++ rest) [],
        .itemDone live.index (live.finished (live.streamed ++ rest) status)]
      = some (.finished (live.finished (live.streamed ++ rest) status)) := by
    simp [Slot.run, Slot.step, Slot.next, conclude_begun, hid, hse, hs]
  unfold callEnd
  by_cases hr : rest = []
  · subst hr
    rw [append_nil] at hl ⊢
    exact hl
  · have he : rest.isEmpty = false := by simpa using hr
    rw [he, if_neg Bool.false_ne_true, singleton_append, Slot.run, Slot.step, Slot.next]
    simp only [Option.all_some, decide_true, if_true, spell_begun live.channel live.streamed hr,
      Option.map_some, Option.bind_some]
    exact hl

/-- A completed call's text extends what its deltas streamed. -/
def Extends (live : OpenCall L) (call : ToolCall) : Prop :=
  live.streamed <+: State.wholeText live (some call)

theorem finishStreamed_eq (s : State L) {live : OpenCall L} {call : Option ToolCall}
    (hext : ∀ c, call = some c → Extends live c) (status : ItemStatus) :
    ∃ rest, s.finishStreamed live call status
      = (s.emitAll (callEnd live rest (live.streamed ++ rest)
          (live.finished (live.streamed ++ rest) status))).place live.index
          (live.finished (live.streamed ++ rest) status) := by
  obtain ⟨rest, hr⟩ : ∃ rest, State.wholeText live call = live.streamed ++ rest := by
    cases call with
    | none => exact ⟨[], (append_nil _).symm⟩
    | some c =>
      obtain ⟨rest, hr⟩ := hext c rfl
      exact ⟨rest, hr.symm⟩
  refine ⟨rest, ?_⟩
  unfold State.finishStreamed callEnd
  rw [hr]
  simp only [Tools.getFrom_append, Option.getD_some]
  by_cases he : rest.isEmpty
  · simp only [he, if_true, nil_append]
    rfl
  · simp only [he, Bool.false_eq_true, if_false]
    rfl

theorem Tracked.finishCall (h : Tracked echo s) {live : OpenCall L}
    (hcalling : s.calling = some live) {call : Option ToolCall}
    (hext : ∀ c, call = some c → Extends live c)
    (hst : status = .completed ∨ status = .incomplete) :
    Tracked echo ({ s with calling := none }.finishStreamed live call status) := by
  obtain ⟨client, hc⟩ := h
  have hr : s.roles.calling = some live := hcalling
  obtain ⟨-, ha, hsl⟩ := hc.called hr
  obtain ⟨rest, hf⟩ := finishStreamed_eq { s with calling := none } hext status
  rw [hf]
  have hsil : Emits s { s with calling := none } [] := .silent rfl rfl rfl
  have he := hsil.snocAll hc.streaming (callEnd live rest (live.streamed ++ rest)
    (live.finished (live.streamed ++ rest) status))
  obtain ⟨hcall, -, -, hd, hs, -⟩ := Roles.disjoint hc.busy
  have hi : live.index ∉ ({ s.roles with calling := none } : Roles L).busy := by
    rw [Roles.mem_busy]
    rintro (⟨other, ho, heq⟩ | ⟨other, ho, -⟩ | ho | ⟨callId, ho⟩)
    · exact hcall other live ho hr heq
    · cases ho
    · exact hd live _ hr ho rfl
    · exact hs live callId _ hr ho rfl
  refine Tracked.of_roles (r := { s.roles with calling := none }) (State.emitAll_roles _ _) ?_
  refine hc.finishAt hsl ?_ (Slot.run_callEnd ha rest hst)
    (he.andThen rfl rfl rfl) ?_ ?_ hi ?_ (.inr rfl) hc.keys hc.fits
  · intro event hev
    rw [callEnd] at hev
    by_cases hemp : rest.isEmpty
    · simp only [hemp, if_true, nil_append, mem_cons, not_mem_nil, or_false] at hev
      rcases hev with rfl | rfl
      · exact ⟨rfl, rfl⟩
      · exact ⟨rfl, rfl⟩
    · simp only [hemp, Bool.false_eq_true, if_false, singleton_append, mem_cons,
        not_mem_nil, or_false] at hev
      rcases hev with rfl | rfl | rfl
      · exact ⟨rfl, rfl⟩
      · exact ⟨rfl, rfl⟩
      · exact ⟨rfl, rfl⟩
  · simp only [State.place, State.emitAll_output]
  · refine ⟨fun _ ho _ => ho, ?_, fun _ ho _ => ho, fun _ _ ho _ => ho, ?_⟩
    · intro other ho hne
      rw [hr] at ho
      cases ho
      exact absurd rfl hne
    · intro j hj _
      rw [Roles.mem_busy] at hj ⊢
      rcases hj with hj | ⟨other, ho, -⟩ | hj
      · exact .inl hj
      · cases ho
      · exact .inr (.inr hj)
  · simp [Roles.busy]

theorem State.finishStreamed_roles (s : State L) (live : OpenCall L) (call : Option ToolCall)
    (status : ItemStatus) : (s.finishStreamed live call status).roles = s.roles := by
  have hr : ∀ (c : Prop) [Decidable c] event, (if c then s else s.emit event).roles = s.roles := by
    intro c _ event
    split
    · rfl
    · exact State.emit_roles s event
  exact (State.emit_roles _ _).trans ((State.emit_roles _ _).trans (hr _ _))

/-! ### Closing -/

theorem State.closeCall_roles (s : State L) : s.closeCall.roles = { s.roles with calling := none } := by
  unfold State.closeCall
  cases hc : s.calling with
  | none => simp only [State.roles, hc]
  | some => exact State.finishStreamed_roles _ _ _ _

theorem Tracked.closeCall (h : Tracked echo s) : Tracked echo s.closeCall := by
  unfold State.closeCall
  cases hc : s.calling with
  | none => exact h
  | some => exact h.finishCall hc nofun (.inr rfl)

theorem State.closeHeld_rewrites (s : State L) : Rewrites s s.closeHeld := by
  unfold State.closeHeld
  split
  · have hf : Rewrites s { s with citations := s.citations.flush.2 } := ⟨rfl, rfl, rfl, rfl, rfl⟩
    exact hf.trans (State.append_rewrites _ _ _)
  · exact .refl s

theorem Tracked.closeHeld (h : Tracked echo s) : Tracked echo s.closeHeld := by
  unfold State.closeHeld
  split
  · next ho =>
    have hf : Tracked echo { s with citations := s.citations.flush.2 } :=
      h.congr (.silent rfl rfl rfl) rfl rfl
    refine hf.append _ (fun live hl => ?_)
    rw [show s.opened = some live from hl] at ho
    cases ho
    rfl
  · exact h

def textEnd (live : Open L) (part : Part L) (logprobs : List L) : List (StreamEvent L) :=
  [.done live.kind.channel live.index (some live.id) live.text logprobs,
    .partDone live.index live.id part]

theorem Slot.run_textEnd (live : Open L) (part : Part L) (hc : part.channel = live.kind.channel)
    (ht : part.text = live.text) (logprobs : List L) :
    (Slot.announced live.id (begun live.kind.channel live.text)).run (textEnd live part logprobs)
      = some (.announced live.id [⟨live.kind.channel, live.text, true⟩]) := by
  simp [textEnd, Slot.run, Slot.step, Slot.next, conclude_begun, hc, ht]

theorem Tracked.finishOpened (h : Tracked echo s) (hopen : s.opened = some live)
    (item : Item L) (he : Emits s t events) (hr : t.roles = { s.roles with opened := none })
    (hout : t.output = s.output.set live.index (some item))
    (hevs : ∀ event ∈ events, event.index? = some live.index ∧ event.added? = none)
    (hrun : (Slot.announced live.id (begun live.kind.channel live.text)).run events
      = some (.finished item)) : Tracked echo t := by
  obtain ⟨client, hc⟩ := h
  have hl : s.roles.opened = some live := hopen
  obtain ⟨-, hsl⟩ := hc.writing hl
  obtain ⟨hca, hd, hs, -⟩ := Roles.disjoint hc.busy
  refine Tracked.of_roles hr ?_
  refine hc.finishAt hsl hevs hrun he hout ?_ ?_ ?_ (.inl rfl) hc.keys ⟨nofun, hc.fits.2⟩
  · refine ⟨?_, fun _ ho _ => ho, fun _ ho _ => ho, fun _ _ ho _ => ho, ?_⟩
    · intro other ho hne
      rw [hl] at ho
      cases ho
      exact absurd rfl hne
    · intro j hj _
      rw [Roles.mem_busy] at hj ⊢
      rcases hj with ⟨other, ho, -⟩ | hj
      · cases ho
      · exact .inr hj
  · rw [Roles.mem_busy]
    rintro (⟨other, ho, -⟩ | ⟨other, ho, heq⟩ | ho | ⟨callId, ho⟩)
    · cases ho
    · exact hca live other hl ho heq.symm
    · exact hd live _ hl ho rfl
    · exact hs live callId _ hl ho rfl
  · simp [Roles.busy]

theorem Tracked.deferOpened (h : Tracked echo s) (hopen : s.opened = some live)
    (encrypted : Option Text) (hs : echo.summary = true) (hn : s.deferred = none)
    (hst : status = .completed ∨ status = .incomplete) (he : Emits s t events)
    (hr : t.roles = { s.roles with opened := none, deferred := some live.index })
    (hout : t.output = s.output.set live.index (some
      ⟨live.id, some status, .reasoning [] (some (.reasoningText live.text)) encrypted⟩))
    (hevs : ∀ event ∈ events, event.index? = some live.index ∧ event.added? = none)
    (hrun : (Slot.announced live.id (begun live.kind.channel live.text)).run events
      = some (.announced live.id [⟨.reasoning, live.text, true⟩])) : Tracked echo t := by
  obtain ⟨client, hc⟩ := h
  have hl : s.roles.opened = some live := hopen
  have hd : s.roles.deferred = none := hn
  obtain ⟨-, hsl⟩ := hc.writing hl
  refine Tracked.of_roles hr ?_
  refine hc.change hsl hevs hrun he hout (.waiting rfl hst) ?_ (.inl rfl) ?_
    hc.keys ⟨nofun, fun _ _ => hs⟩
  · refine ⟨?_, fun _ ho _ => ho, ?_, fun _ _ ho _ => ho, ?_⟩
    · intro other ho hne
      rw [hl] at ho
      cases ho
      exact absurd rfl hne
    · intro j hj _
      rw [hd] at hj
      cases hj
    · intro j hj hne
      rw [Roles.mem_busy] at hj ⊢
      rcases hj with ⟨other, ho, -⟩ | hj | hj | hj
      · cases ho
      · exact .inr (.inl hj)
      · exact absurd (Option.some.inj hj).symm hne
      · exact .inr (.inr (.inr hj))
  · have hb := hc.busy
    simp only [Roles.busy, hl, hd, Option.map_some, Option.map_none, Option.toList_some,
      Option.toList_none, append_nil, nil_append] at hb ⊢
    refine (List.Perm.nodup_iff ?_).mp hb
    rw [append_assoc, append_assoc, singleton_append, singleton_append]
    exact perm_middle.symm

theorem Tracked.closeText (h : Tracked echo s) (hst : status = .completed ∨ status = .incomplete) :
    Tracked echo (s.closeText echo status) := by
  obtain ⟨client, hcli⟩ := h
  have hs := hcli.streaming
  have hse : ∀ (id : Text) (body : Body L), (⟨id, some status, body⟩ : Item L).settled = true := by
    rcases hst with rfl | rfl
    · exact fun _ _ => rfl
    · exact fun _ _ => rfl
  cases ho : s.opened with
  | none =>
    rw [State.closeText, ho]
    exact ⟨client, hcli⟩
  | some live =>
    have hsil : Emits s { s with opened := none } [] := .silent rfl rfl rfl
    obtain ⟨kind, id, index, text, chars, annotations, logprobs⟩ := live
    cases kind with
    | reasoning =>
      let item : Item L :=
        ⟨id, some status, .reasoning [] (some (.reasoningText text)) (State.sealedText echo id text).1⟩
      let live : Open L := ⟨.reasoning, id, index, text, chars, annotations, logprobs⟩
      let written := { ({ s with opened := none }.emit
        (.done .reasoning index (some id) text [])).emit (.partDone index id (.reasoningText text)) with
        encryptionError := (State.sealedText echo id text).2 <|>
          (({ s with opened := none }.emit (.done .reasoning index (some id) text [])).emit
            (.partDone index id (.reasoningText text))).encryptionError }
      have he : Emits s written (textEnd live (.reasoningText text) []) :=
        ((hsil.snoc hs _).snoc hs _).andThen rfl rfl rfl
      have hi : ∀ event ∈ textEnd live (.reasoningText text) [],
          event.index? = some index ∧ event.added? = (none : Option (Item L)) := by
        simp [textEnd, StreamEvent.index?, StreamEvent.added?, live]
      have hend := Slot.run_textEnd live (.reasoningText text) rfl rfl []
      by_cases hsu : echo.summary
      · have hc : s.closeText echo status
            = { written.place index item with deferred := some index } := by
          rw [State.closeText, ho]
          simp only [hsu, if_true]
          rfl
        rw [hc]
        refine Tracked.deferOpened ⟨client, hcli⟩ ho (State.sealedText echo id text).1
          hsu (hcli.fits.1 hsu _ ho rfl) hst (he.andThen rfl rfl rfl) ?_ ?_
          hi hend
        · simp [State.place, State.roles, written]
        · simp [State.place, written, item]
      · have hc : s.closeText echo status
            = (written.emit (.itemDone index item)).place index item := by
          rw [State.closeText, ho]
          simp only [hsu, Bool.false_eq_true, if_false]
          rfl
        rw [hc]
        refine Tracked.finishOpened ⟨client, hcli⟩ ho item
          ((he.snoc hs _).andThen rfl rfl rfl) ?_ ?_ ?_ ?_
        · simp [State.place, State.roles, written]
        · simp [State.place, written]
        · intro event hev
          rcases mem_append.mp hev with hev | hev
          · exact hi event hev
          · rw [mem_singleton.mp hev]
            exact ⟨rfl, rfl⟩
        · rw [Slot.run_append, hend, Option.bind_some]
          simp [Slot.run, Slot.step, Slot.next, item, hse, Body.spelled, Body.texts, Part.text,
            ItemKind.channel, live]
    | message =>
      let item : Item L := ⟨id, some status, .message (some (.outputText text annotations logprobs))⟩
      let live : Open L := ⟨.message, id, index, text, chars, annotations, logprobs⟩
      have hend := Slot.run_textEnd live (.outputText text annotations logprobs) rfl rfl logprobs
      have hc : s.closeText echo status = (({ s with opened := none }.emitAll
          (textEnd live (.outputText text annotations logprobs) logprobs)).emit
            (.itemDone index item)).place index item := by
        rw [State.closeText, ho]
        rfl
      rw [hc]
      refine Tracked.finishOpened ⟨client, hcli⟩ ho item
        (((hsil.snocAll hs _).snoc hs _).andThen rfl rfl rfl) ?_ ?_ ?_ ?_
      · simp [State.place, State.roles, textEnd, State.emitAll]
      · simp [State.place]
      · simp [textEnd, StreamEvent.index?, StreamEvent.added?, live]
      · rw [nil_append, Slot.run_append, hend, Option.bind_some]
        simp [Slot.run, Slot.step, Slot.next, item, hse, Body.spelled, Body.texts, Part.text,
          ItemKind.channel, live]

/-- The reasoning item that waits once the open item is closed. -/
def State.deferredBy (s : State L) (summary : Bool) : Option Nat :=
  match s.opened with
  | some live => if live.kind = .reasoning ∧ summary = true then some live.index else s.deferred
  | none => s.deferred

theorem State.closeText_roles (s : State L) (status : ItemStatus) : (s.closeText echo status).roles
      = { s.roles with opened := none, deferred := s.deferredBy echo.summary } := by
  unfold State.closeText State.deferredBy
  cases ho : s.opened with
  | none => simp only [State.roles, ho]
  | some live =>
    obtain ⟨kind, id, index, text, chars, annotations, logprobs⟩ := live
    cases kind with
    | reasoning =>
      by_cases hs : echo.summary
      · simp [hs, State.roles, State.place]
      · simp [hs, State.roles, State.place]
    | message => simp [State.roles, State.place]

theorem Tracked.close (h : Tracked echo s) {status : ItemStatus}
    (hs : status = .completed ∨ status = .incomplete) : Tracked echo (s.close echo status) :=
  h.closeCall.closeHeld.closeText hs

theorem State.close_roles (s : State L) (status : ItemStatus) :
    (s.close echo status).opened = none ∧ (s.close echo status).calling = none ∧
      (s.close echo status).searching = s.searching ∧
      ((∀ live, s.opened = some live → live.kind ≠ .reasoning ∨ echo.summary = false) →
        (s.close echo status).deferred = s.deferred) := by
  have hc := s.closeCall_roles
  have hh := State.closeHeld_rewrites s.closeCall
  have ht : (s.close echo status).roles = _ := State.closeText_roles s.closeCall.closeHeld status
  have ho : s.closeCall.opened = s.opened := congrArg Roles.opened hc
  refine ⟨congrArg Roles.opened ht, ?_, ?_, ?_⟩
  · have hca : (s.close echo status).calling = s.closeCall.closeHeld.calling :=
      congrArg Roles.calling ht
    rw [hca, hh.calling]
    exact congrArg Roles.calling hc
  · have hsr : (s.close echo status).searching = s.closeCall.closeHeld.searching :=
      congrArg Roles.searching ht
    rw [hsr, hh.searching]
    exact congrArg Roles.searching hc
  · intro hoth
    have hd : (s.close echo status).deferred = s.closeCall.closeHeld.deferredBy echo.summary :=
      congrArg Roles.deferred ht
    have hs : s.closeCall.closeHeld.deferred = s.deferred := by
      rw [hh.deferred]
      exact congrArg Roles.deferred hc
    rw [hd, State.deferredBy]
    split
    · next live hl =>
      have hk := hh.kind
      rw [hl, ho, Option.map_some] at hk
      obtain ⟨live', hl', hk'⟩ := Option.map_eq_some_iff.mp hk.symm
      have hn := hoth live' hl'
      rw [hk'] at hn
      rw [if_neg, hs]
      rintro ⟨hr, hsu⟩
      rcases hn with hn | hn
      · exact hn hr
      · rw [hsu] at hn
        cases hn
    · exact hs

/-! ### Opening -/

theorem item_named (kind : Kind) : ('_' ∉ callPrefix kind ∧ callPrefix kind ≠ "cmp".toList) ∧
      ('_' ∉ outputPrefix kind ∧ outputPrefix kind ≠ "cmp".toList) := by
  cases kind with
  | function => decide
  | custom => decide
  | localShell => decide
  | applyPatch => decide
  | hosted tool => cases tool <;> decide

theorem Tracks.new_idle {client : Client L} (h : Tracks echo r s client) :
    s.output.length ∉ r.busy := fun hb => absurd (h.bound _ hb) (Nat.lt_irrefl _)

theorem Roles.frame_new {r' : Roles L} {i : Nat} (ho : r.opened = none ∨ r'.opened = r.opened)
    (hc : r.calling = none ∨ r'.calling = r.calling) (hd : r'.deferred = r.deferred)
    (hsr : ∀ entry ∈ r.searching, entry ∈ r'.searching)
    (hb : ∀ j ∈ r'.busy, j ≠ i → j ∈ r.busy) : Frame r r' i := by
  refine ⟨?_, ?_, ?_, fun _ _ hj _ => hsr _ hj, hb⟩
  · intro live hl _
    rcases ho with hn | hs
    · rw [hn] at hl
      cases hl
    · rw [hs]
      exact hl
  · intro live hl _
    rcases hc with hn | hs
    · rw [hn] at hl
      cases hl
    · rw [hs]
      exact hl
  · intro j hj _
    rwa [hd]

theorem Tracked.openText (h : Tracked echo s) (ho : s.opened = none) (hca : s.calling = none)
    (hsumm : kind = .reasoning → echo.summary = true → s.deferred = none) :
    Tracked echo (s.openText echo kind) := by
  obtain ⟨client, hc⟩ := h
  have hs := hc.streaming
  have hn : '_' ∉ kind.idPrefix ∧ kind.idPrefix ≠ "cmp".toList := by
    cases kind <;> exact ⟨by decide, by decide⟩
  have ho' : s.roles.opened = none := ho
  have hca' : s.roles.calling = none := hca
  have he := ((Emits.refl s).snoc hs (.itemAdded s.output.length
    ⟨echo.itemId kind.idPrefix s.output.length, some .inProgress, kind.emptyBody⟩)).snoc hs
    (.partAdded s.output.length (echo.itemId kind.idPrefix s.output.length) kind.emptyPart)
  let live : Open L :=
    ⟨kind, echo.itemId kind.idPrefix s.output.length, s.output.length, [], 0, [], []⟩
  have hrun : (Slot.announced live.id []).run [.partAdded live.index live.id kind.emptyPart]
      = some (.announced live.id (begun live.kind.channel live.text) : Slot L) := by
    cases kind <;> simp [Slot.run, Slot.step, Slot.next, ItemKind.emptyPart, Part.text, begun, live]
  refine Tracked.of_roles (r := { s.roles with opened := some live }) ?_
    (hc.push (hc.fresh hn.1 hn.2) (.item hn.1 hn.2) ?_ hrun
      (he.andThen rfl rfl rfl) ?_ (.writing rfl rfl) ?_ (.inr hca') ?_ hc.keys ?_)
  · simp [State.openText, State.roles, live]
  · simp [StreamEvent.index?, StreamEvent.added?]
  · simp [State.openText]
  · refine Roles.frame_new (.inl ho') (.inr rfl) rfl (fun _ hm => hm) ?_
    intro j hj hne
    rw [Roles.mem_busy] at hj ⊢
    rcases hj with ⟨other, hoth, heq⟩ | hj
    · cases hoth
      exact absurd heq.symm hne
    · exact .inr hj
  · have hi := hc.new_idle
    have hb := hc.busy
    simp only [Roles.busy, ho', Option.map_some, Option.map_none, Option.toList_some,
      Option.toList_none, nil_append, cons_append] at hb hi ⊢
    exact nodup_cons.mpr ⟨hi, hb⟩
  · refine ⟨?_, hc.fits.2⟩
    intro hsum other hoth hr
    cases hoth
    exact hsumm hr hsum

def State.Writing (s : State L) (kind : ItemKind) : Prop :=
  ∀ live, s.opened = some live → live.kind = kind

theorem Rewrites.writing (h : Rewrites s t) (hs : s.Writing kind) : t.Writing kind := by
  intro live hl
  have hk := h.kind
  rw [hl, Option.map_some] at hk
  obtain ⟨live', hl', heq⟩ := Option.map_eq_some_iff.mp hk.symm
  rw [← heq]
  exact hs live' hl'

theorem Tracked.pieces (h : Tracked echo s) (hk : s.Writing .message) (pieces : List Piece) :
    Tracked echo (pieces.foldl State.piece s) := by
  induction pieces generalizing s with
  | nil => exact h
  | cons piece pieces ih =>
    rw [foldl_cons]
    cases piece with
    | text text => exact ih (h.append text hk) ((State.append_rewrites s _ _).writing hk)
    | cite cited => exact ih (h.cite cited) ((State.cite_rewrites s _).writing hk)

theorem Tracked.text (h : Tracked echo s) (piece : Text)
    (hs : kind = .reasoning → echo.summary = true → s.deferred = none) :
    Tracked echo (s.text echo kind piece) := by
  have hopen : ∃ t, t = (if s.opened.any fun item => item.kind = kind then s else
      (s.close echo .completed).openText echo kind) ∧ Tracked echo t ∧ t.Writing kind := by
    refine ⟨_, rfl, ?_⟩
    by_cases ha : s.opened.any fun item => item.kind = kind
    · rw [if_pos ha]
      refine ⟨h, fun live hl => ?_⟩
      rw [hl, Option.any_some, decide_eq_true_eq] at ha
      exact ha
    · rw [if_neg ha]
      obtain ⟨ho, hca, -, hd⟩ := @State.close_roles L echo s .completed
      refine ⟨(h.close (.inl rfl)).openText ho hca ?_, ?_⟩
      · intro hk hsum
        rw [hd ?_, hs hk hsum]
        intro live hl
        left
        rw [hl, Option.any_some, decide_eq_true_eq, hk] at ha
        exact ha
      · intro live hl
        cases hl
        rfl
  obtain ⟨t, ht, htr, hw⟩ := hopen
  unfold State.text
  rw [← ht]
  dsimp only
  split
  · next hc =>
    have hm : t.Writing .message := hc.1 ▸ hw
    have hf : Tracked echo { t with citations := (t.citations.filter piece).2 } :=
      htr.congr (.silent rfl rfl rfl) rfl rfl
    exact hf.pieces hm _
  · exact htr.append piece hw

end Operations

end LocalAi.Responses
