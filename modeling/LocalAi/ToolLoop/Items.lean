import LocalAi.Responses.Rebuilds
import LocalAi.ToolLoop.Rounds

/-!
# The items of a loop's Response

The Response state machine makes an item of each run of reasoning or answer text, of each call
and of each output.  For tools that are plain functions, hosted functions or custom tools the
items say, one by one, what was sent.

* `Said`, `say`: what is sent, in the items it is split into, the latest first.
* `Standing`: the state's items say what was sent, up to what is being written.
* `Kept.ends`: however the Response ends, its items say all that was sent.
-/

open List

namespace LocalAi.ToolLoop

open Responses

variable {L : Type}

/-! ### What is said -/

inductive Said
  | compaction (sealed : Text)
  | reasoning (text : Text)
  | content (text : Text)
  | call (call : ToolCall)
  /-- A call that was never completed, with what of it streamed. -/
  | cut (id : CallId) (name text : Text)
  | output (output : ToolOutput)

def Said.text : ItemKind → Text → Said
  | .reasoning, text => .reasoning text
  | .message, text => .content text

/-- Text goes on, or begins after something else. -/
def sayText : ItemKind → Text → List Said → List Said
  | .reasoning, piece, .reasoning text :: log => .reasoning (text ++ piece) :: log
  | .message, piece, .content text :: log => .content (text ++ piece) :: log
  | kind, piece, log => Said.text kind piece :: log

def say (log : List Said) : State.Signal L → List Said
  | .engine (.reasoning piece) => sayText .reasoning piece log
  | .engine (.content piece) => sayText .message piece log
  | .engine (.toolCall call) => .call call :: log
  | .engine (.toolCallDelta _) => log
  | .engine (.logprobs _) => log
  | .toolOutput output => .output output :: log

theorem sayText_same (kind : ItemKind) (text piece : Text) (log : List Said) :
    sayText kind piece (Said.text kind text :: log) = Said.text kind (text ++ piece) :: log := by
  cases kind <;> rfl

theorem sayText_new {kind : ItemKind} {log : List Said}
    (h : ∀ text, log.head? ≠ some (Said.text kind text)) (piece : Text) :
    sayText kind piece log = Said.text kind piece :: log := by
  cases log with
  | nil => cases kind <;> rfl
  | cons said =>
    cases kind with
    | reasoning =>
      cases said with
      | reasoning text => exact absurd rfl (h text)
      | _ => rfl
    | message =>
      cases said with
      | content text => exact absurd rfl (h text)
      | _ => rfl

/-! ### Items that say it -/

def Holds (echo : Echo) (item : Item L) : Said → Prop
  | .compaction sealed => item.body = .compaction sealed
  | .reasoning text => ∃ summary envelope,
      item.body = .reasoning summary (some (.reasoningText text)) envelope
  | .content text => ∃ annotations logprobs,
      item.body = .message (some (.outputText text annotations logprobs))
  | .call call => item.body =
      if echo.kinds.kind call.name = .custom then
        .customToolCall call.id (echo.kinds.qualify call.name) (inputText call)
      else .functionCall call.id (echo.kinds.qualify call.name) (argumentsText call)
  | .cut id name text => item.body =
      if echo.kinds.kind name = .custom then .customToolCall id (echo.kinds.qualify name) text
      else .functionCall id (echo.kinds.qualify name) text
  | .output output => item.body = .functionCallOutput output.callId output.content

def plainKind : Kind → Bool
  | .function | .custom => true
  | .hosted operation => operation != .shell && operation != .fileSearch
  | _ => false

structure Live (echo : Echo) (live : OpenCall L) (id : CallId) (name : Text) : Prop where
  callId : live.callId = id
  custom : live.custom = decide (echo.kinds.kind name = .custom)
  body : live.item.body =
    if echo.kinds.kind name = .custom then .customToolCall id (echo.kinds.qualify name) []
    else .functionCall id (echo.kinds.qualify name) []

def Closed (log : List Said) : Prop := ∀ kind text, log.head? ≠ some (Said.text kind text)

/-- The items of the state, the latest first, say what was said; `live` is the call that
streams. -/
inductive Shows (echo : Echo) (s : State L) : List Said → Option (CallId × Text) → Prop
  | idle {log : List Said} (done : List (Item L)) (opened : s.opened = none)
      (calling : s.calling = none) (output : s.output = done.reverse.map some)
      (holds : List.Forall₂ (Holds echo) done log) (closed : Closed log) : Shows echo s log none
  | writing {log : List Said} (done : List (Item L)) (item : Open L)
      (opened : s.opened = some item) (calling : s.calling = none)
      (output : s.output = done.reverse.map some ++ [none]) (index : item.index = done.length)
      (holds : List.Forall₂ (Holds echo) done log) :
      Shows echo s (Said.text item.kind item.text :: log) none
  | calling {log : List Said} {id : CallId} {name : Text} (done : List (Item L))
      (live : OpenCall L) (opened : s.opened = none) (calling : s.calling = some live)
      (output : s.output = done.reverse.map some ++ [none]) (index : live.index = done.length)
      (named : Live echo live id name)
      (holds : List.Forall₂ (Holds echo) done log) : Shows echo s log (some (id, name))

structure Standing (echo : Echo) (s : State L) (log : List Said) (live : Option (CallId × Text)) :
    Prop where
  searching : s.searching = []
  citations : s.citations = ⟨[], []⟩
  shows : Shows echo s log live

def closing (log : List Said) (text : Text) : Option (CallId × Text) → List Said
  | none => log
  | some (id, name) => .cut id name text :: log

/-- Everything that was said is in a finished item. -/
structure Kept (echo : Echo) (s : State L) (log : List Said) : Prop where
  searching : s.searching = []
  citations : s.citations = ⟨[], []⟩
  opened : s.opened = none
  calling : s.calling = none
  items : ∃ done : List (Item L), s.output = done.reverse.map some ∧
    List.Forall₂ (Holds echo) done log

/-! ### Steps -/

section Steps

variable {echo : Echo} {s : State L} {log : List Said}

@[simp] theorem emit_citations (s : State L) (event : StreamEvent L) :
    (s.emit event).citations = s.citations := by
  unfold State.emit
  split
  · rfl
  · rfl

theorem set_last (done : List (Item L)) (item : Item L) :
    (done.reverse.map some ++ [none]).set done.length (some item) =
      (item :: done).reverse.map some := by
  rw [set_append_right _ _ (by simp)]
  simp

theorem Kept.emit (h : Kept echo s log) (event : StreamEvent L) : Kept echo (s.emit event) log :=
  ⟨by simpa using h.searching, by simpa using h.citations, by simpa using h.opened,
    by simpa using h.calling, by simpa using h.items⟩

theorem Kept.emitAll (h : Kept echo s log) (events : List (StreamEvent L)) :
    Kept echo (s.emitAll events) log := by
  induction events generalizing s with
  | nil => exact h
  | cons event events ih => exact ih (h.emit event)

theorem Kept.standing (h : Kept echo s log) (hc : Closed log) : Standing echo s log none := by
  obtain ⟨done, ho, hh⟩ := h.items
  exact ⟨h.searching, h.citations, .idle done h.opened h.calling ho hh hc⟩

theorem Kept.pushRendered (h : Kept echo s log) {item : Rendered L} {said : Said}
    (hi : Holds echo item.item said) : Kept echo (s.pushRendered item) (said :: log) := by
  have he := h.emitAll item.events
  obtain ⟨done, ho, hh⟩ := he.items
  refine ⟨he.searching, he.citations, he.opened, he.calling, item.item :: done, ?_, .cons hi hh⟩
  show (s.emitAll item.events).output ++ [some item.item] = _
  rw [ho]
  simp

theorem append_nil (s : State L) (kind : ItemKind) : s.append kind [] = s := by
  unfold State.append
  split
  · rfl
  · rfl

theorem closeHeld_inactive (h : s.citations = ⟨[], []⟩) : s.closeHeld = s := by
  have hs : { s with citations := s.citations.flush.2 } = s := by
    rw [h]
    show { s with citations := ⟨[], []⟩ } = s
    rw [← h]
  have hh : s.citations.flush.1 = [] := by rw [h]; rfl
  unfold State.closeHeld
  split
  · show { s with citations := s.citations.flush.2 }.append .message s.citations.flush.1 = s
    rw [hs, hh, append_nil]
  · rfl

theorem Standing.close (h : Standing echo s log none) (status : ItemStatus) :
    Kept echo (s.close echo status) log := by
  have hs := h.searching
  have hc := h.citations
  cases h.shows with
  | idle done opened calling output holds =>
    have hcl : s.close echo status = s := by
      simp only [State.close, State.closeCall, calling, State.closeHeld, opened, State.closeText]
    rw [hcl]
    exact ⟨hs, hc, opened, calling, done, output, holds⟩
  | writing done item opened calling output index holds =>
    have hh : s.closeCall.closeHeld = s := by
      rw [show s.closeCall = s by simp only [State.closeCall, calling]]
      exact closeHeld_inactive hc
    rw [State.close, hh]
    obtain ⟨kind, id, i, text, chars, annotations, logprobs⟩ := item
    subst index
    cases kind with
    | reasoning =>
      have hi : Holds echo (⟨id, some status, .reasoning [] (some (.reasoningText text))
          (State.sealedText echo id text).1⟩ : Item L) (.reasoning text) := ⟨_, _, rfl⟩
      by_cases hsu : echo.summary = true
      · refine ⟨?_, ?_, ?_, ?_, _ :: done, ?_, .cons hi holds⟩
        all_goals simp [State.closeText, opened, hsu, State.place, hs, hc, calling, output]
      · refine ⟨?_, ?_, ?_, ?_, _ :: done, ?_, .cons hi holds⟩
        all_goals simp [State.closeText, opened, hsu, State.place, hs, hc, calling, output]
    | message =>
      have hi : Holds echo (⟨id, some status,
          .message (some (.outputText text annotations logprobs))⟩ : Item L) (.content text) :=
        ⟨_, _, rfl⟩
      refine ⟨?_, ?_, ?_, ?_, _ :: done, ?_, .cons hi holds⟩
      all_goals simp [State.closeText, opened, State.place, hs, hc, calling, output]

theorem append_writing {item : Open L} (ho : s.opened = some item) (piece : Text) :
    ∃ item' : Open L, (s.append item.kind piece).opened = some item' ∧ item'.kind = item.kind ∧
      item'.index = item.index ∧ item'.text = item.text ++ piece ∧
      (s.append item.kind piece).output = s.output ∧
      (s.append item.kind piece).calling = s.calling ∧
      (s.append item.kind piece).searching = s.searching ∧
      (s.append item.kind piece).citations = s.citations := by
  cases piece with
  | nil =>
    rw [append_nil]
    exact ⟨item, ho, rfl, rfl, (List.append_nil _).symm, rfl, rfl, rfl, rfl⟩
  | cons c piece =>
    cases hk : item.kind with
    | reasoning =>
      refine ⟨{ item with
        text := item.text ++ c :: piece
        chars := item.chars + (c :: piece).length }, ?_, hk, rfl, rfl, ?_, ?_, ?_, ?_⟩
      all_goals simp [State.append, ho]
    | message =>
      refine ⟨{ item with
        text := item.text ++ c :: piece
        chars := item.chars + (c :: piece).length
        logprobs := item.logprobs ++ s.logprobs }, ?_, hk, rfl, rfl, ?_, ?_, ?_, ?_⟩
      all_goals simp [State.append, ho]

theorem Standing.append (item : Open L) {done : List (Item L)} (hs : s.searching = [])
    (hci : s.citations = ⟨[], []⟩) (ho : s.opened = some item)
    (hc : s.calling = none) (hout : s.output = done.reverse.map some ++ [none])
    (hi : item.index = done.length) (hh : List.Forall₂ (Holds echo) done log) (piece : Text) :
    Standing echo (s.append item.kind piece)
      (Said.text item.kind (item.text ++ piece) :: log) none := by
  obtain ⟨item', ho', hk, hi', ht, hout', hc', hs', hci'⟩ :=
    append_writing ho piece
  refine ⟨hs'.trans hs, hci'.trans hci, ?_⟩
  rw [← ht, ← hk]
  exact .writing done item' (by rw [hk]; exact ho') (by rw [hk, hc', hc])
    (by rw [hk, hout', hout]) (by rw [hi', hi]) hh

theorem append_uncited {t : State L} (ht : t.citations = ⟨[], []⟩) (kind : ItemKind)
    (piece : Text) : (if kind = .message ∧ t.citations.active then
      let (pieces, citations) := t.citations.filter piece
      pieces.foldl State.piece { t with citations := citations }
    else t.append kind piece) = t.append kind piece := by
  rw [if_neg]
  rw [ht]
  rintro ⟨-, ha⟩
  cases ha

theorem Standing.text (h : Standing echo s log none) (kind : ItemKind) (piece : Text) :
    Standing echo (s.text echo kind piece) (sayText kind piece log) none := by
  by_cases hs : s.opened.any (fun item => item.kind = kind) = true
  · -- the text goes on
    have hte : s.text echo kind piece = s.append kind piece := by
      simp only [State.text, if_pos hs]
      exact append_uncited h.citations kind piece
    rw [hte]
    cases h.shows with
    | idle done opened => simp [opened] at hs
    | writing done item opened calling output index holds =>
      have hki : item.kind = kind := by simpa [opened] using hs
      subst hki
      rw [sayText_same]
      exact Standing.append item h.searching h.citations opened calling output index holds piece
  · -- another item begins
    have hk := h.close .completed
    obtain ⟨done, ho, hh⟩ := hk.items
    have hn : ∀ text, log.head? ≠ some (Said.text kind text) := by
      cases h.shows with
      | idle _ _ _ _ _ closed => exact closed kind
      | writing done item opened =>
        intro text heq
        refine hs ?_
        rw [opened]
        cases hki : item.kind <;> cases kind <;> simp_all [Said.text]
    have hte : s.text echo kind piece =
        ((s.close echo .completed).openText echo kind).append kind piece := by
      simp only [State.text, if_neg hs]
      refine append_uncited ?_ kind piece
      simpa [State.openText] using hk.citations
    rw [hte, sayText_new hn]
    have hl : (s.close echo .completed).output.length = done.length := by simp [ho]
    refine Standing.append ⟨kind, echo.itemId kind.idPrefix done.length, done.length, [], 0, [], []⟩
      ?_ ?_ ?_ ?_ ?_ rfl hh piece
    · simpa [State.openText] using hk.searching
    · simpa [State.openText] using hk.citations
    · simp [State.openText, hl]
    · simpa [State.openText] using hk.calling
    · simp [State.openText, ho]

theorem finishStreamed_frame (s : State L) (live : OpenCall L) (call : Option ToolCall)
    (status : ItemStatus) : ∃ item : Item L,
      (item.body =
        match live.item.body with
        | .customToolCall callId name _ => .customToolCall callId name (State.wholeText live call)
        | .functionCall callId name _ => .functionCall callId name (State.wholeText live call)
        | body => body) ∧
      (s.finishStreamed live call status).output = s.output.set live.index (some item) ∧
      (s.finishStreamed live call status).roles = s.roles ∧
      (s.finishStreamed live call status).citations = s.citations := by
  have hr : ∀ (c : Prop) [Decidable c] event,
      (if c then s else s.emit event).output = s.output ∧
        (if c then s else s.emit event).citations = s.citations := by
    intro c _ event
    split
    · exact ⟨rfl, rfl⟩
    · exact ⟨State.emit_output s event, emit_citations s event⟩
  have hp : ∀ (s : State L) (item : Item L), ((s.emit (.itemDone live.index item)).place
      live.index item).output = s.output.set live.index (some item) := by
    intro s item
    rw [State.place, State.emit_output]
  refine ⟨{ live.item with
    status := if live.custom then live.item.status else some status
    body :=
      match live.item.body with
      | .customToolCall callId name _ => .customToolCall callId name (State.wholeText live call)
      | .functionCall callId name _ => .functionCall callId name (State.wholeText live call)
      | body => body }, rfl, ?_, State.finishStreamed_roles s live call status, ?_⟩
  · refine (hp _ _).trans ?_
    exact congrArg₂ (fun output item => set output live.index (some item))
      ((State.emit_output _ _).trans (hr _ _).1) rfl
  · simp only [State.finishStreamed, State.place, emit_citations, hr]

theorem Standing.closes {live : Option (CallId × Text)} (h : Standing echo s log live)
    (status : ItemStatus) : ∃ text, Kept echo (s.close echo status) (closing log text live) := by
  cases live with
  | none => exact ⟨[], h.close status⟩
  | some called =>
    obtain ⟨id, name⟩ := called
    cases h.shows with
    | calling done live opened calling output index named holds =>
      refine ⟨live.streamed, ?_⟩
      obtain ⟨item, hb, hout, hr, hci⟩ :=
        finishStreamed_frame { s with calling := none } live none .incomplete
      have ho : ({ s with calling := none }.finishStreamed live none .incomplete).opened = none :=
        (congrArg Roles.opened hr).trans opened
      have hc : s.close echo status =
          { s with calling := none }.finishStreamed live none .incomplete := by
        rw [State.close, State.closeCall, calling]
        simp only [State.closeHeld, ho, State.closeText]
      have hi : Holds echo item (.cut id name live.streamed) := by
        simp only [Holds, hb, named.body, State.wholeText]
        by_cases hcu : echo.kinds.kind name = .custom
        · simp [hcu]
        · simp [hcu]
      rw [hc]
      refine ⟨(congrArg Roles.searching hr).trans h.searching, hci.trans h.citations, ho,
        congrArg Roles.calling hr, item :: done, ?_, .cons hi holds⟩
      rw [hout, index]
      exact (congrArg (fun slots => set slots done.length (some item)) output).trans
        (set_last done item)

theorem plainKind_search {kind : Kind} (h : plainKind kind = true) : kind ≠ .hosted .fileSearch := by
  rintro rfl
  cases h

theorem closed_call (call : ToolCall) (log : List Said) : Closed (.call call :: log) := by
  intro kind text h
  cases kind <;> cases h

theorem Standing.call {live : Option (CallId × Text)} (h : Standing echo s log live)
    {call : ToolCall} (hl : live = none ∨ live = some (call.id, call.name))
    (hki : plainKind (echo.kinds.kind call.name) = true) :
    Standing echo (s.call echo call) (.call call :: log) none := by
  rcases hl with rfl | rfl
  · have hc : s.calling = none := by
      cases h.shows with
      | idle _ _ calling => exact calling
      | writing _ _ _ calling => exact calling
    have hke := h.close .completed
    have hi : Holds echo ((callItem echo.kinds (echo.kinds.kind call.name)
        (echo.itemId (callPrefix (echo.kinds.kind call.name)) (s.close echo .completed).output.length)
        (s.close echo .completed).output.length call).getD
          (State.wholeCall echo (echo.itemId (callPrefix (echo.kinds.kind call.name))
            (s.close echo .completed).output.length) (s.close echo .completed).output.length call) :
              Rendered L).item (.call call) := by
      simp only [Holds]
      cases hk : echo.kinds.kind call.name with
      | function => rfl
      | custom => rfl
      | localShell => simp [hk, plainKind] at hki
      | applyPatch => simp [hk, plainKind] at hki
      | hosted operation =>
        cases operation with
        | shell => simp [hk, plainKind] at hki
        | _ => rfl
    have hca : s.call echo call = (s.close echo .completed).pushRendered
        ((callItem echo.kinds (echo.kinds.kind call.name)
          (echo.itemId (callPrefix (echo.kinds.kind call.name))
            (s.close echo .completed).output.length)
          (s.close echo .completed).output.length call).getD
            (State.wholeCall echo (echo.itemId (callPrefix (echo.kinds.kind call.name))
              (s.close echo .completed).output.length)
              (s.close echo .completed).output.length call)) := by
      simp only [State.call, hc, Option.filter_none]
      rw [if_neg (plainKind_search hki)]
    rw [hca]
    exact (hke.pushRendered hi).standing (closed_call call log)
  · cases h.shows with
    | calling done live opened calling output index named holds =>
      have hf : (s.calling.filter fun live => live.callId = call.id) = some live := by
        rw [calling]
        simp [Option.filter, named.callId]
      have hca : s.call echo call =
          { s with calling := none }.finishStreamed live (some call) .completed := by
        simp only [State.call, hf]
      have hw : State.wholeText live (some call) =
          if echo.kinds.kind call.name = .custom then inputText call else argumentsText call := by
        simp [State.wholeText, named.custom]
      obtain ⟨item, hb, hout, hr, hci⟩ :=
        finishStreamed_frame { s with calling := none } live (some call) .completed
      have hi : Holds echo item (.call call) := by
        simp only [Holds, hb, named.body, hw]
        by_cases hcu : echo.kinds.kind call.name = .custom
        · simp [hcu]
        · simp [hcu]
      rw [hca]
      refine ⟨?_, hci.trans h.citations, ?_⟩
      · exact (congrArg Roles.searching hr).trans h.searching
      · refine .idle (item :: done) ?_ ?_ ?_ (.cons hi holds) (closed_call call log)
        · exact (congrArg Roles.opened hr).trans opened
        · exact congrArg Roles.calling hr
        · rw [hout, index]
          exact (congrArg (fun slots => set slots done.length (some item)) output).trans
            (set_last done item)

theorem Standing.delta {live : Option (CallId × Text)} (h : Standing echo s log live)
    {delta : ToolCallDelta} (hl : live = none ∨ live = some (delta.id, delta.name))
    (hki : plainKind (echo.kinds.kind delta.name) = true) :
    Standing echo (s.callDelta echo delta) log (some (delta.id, delta.name)) := by
  have hw : ¬ (echo.kinds.kind delta.name = .hosted .shell ∨
      echo.kinds.kind delta.name = .hosted .fileSearch ∨
      echo.kinds.kind delta.name = .localShell ∨ echo.kinds.kind delta.name = .applyPatch) := by
    rintro (hk | hk | hk | hk)
    all_goals
      rw [hk] at hki
      cases hki
  -- the state with the call announced
  have hann : ∃ t : State L, Standing echo t log (some (delta.id, delta.name)) ∧
      (if s.calling.any (fun live => live.callId = delta.id) then s
        else (s.close echo .completed).openCall echo delta) = t := by
    refine ⟨_, ?_, rfl⟩
    rcases hl with rfl | rfl
    · have hca : s.calling = none := by
        cases h.shows with
        | idle _ _ calling => exact calling
        | writing _ _ _ calling => exact calling
      rw [hca, Option.any_none, if_neg (by simp)]
      have hke := h.close .completed
      obtain ⟨done, ho, hh⟩ := hke.items
      have hlen : (s.close echo .completed).output.length = done.length := by simp [ho]
      refine ⟨by simpa [State.openCall] using hke.searching,
        by simpa [State.openCall] using hke.citations, ?_⟩
      refine .calling done (State.announcedCall echo delta done.length) ?_ ?_ ?_ ?_ ?_ hh
      · simpa [State.openCall] using hke.opened
      · simp [State.openCall, hlen]
      · simp [State.openCall, ho]
      · simp only [State.announcedCall]
        split
        · rfl
        · rfl
      · by_cases hc : echo.kinds.kind delta.name = .custom
        · constructor
          all_goals simp [State.announcedCall, hc]
        · constructor
          all_goals simp [State.announcedCall, hc]
    · have hany : s.calling.any (fun live => live.callId = delta.id) = true := by
        cases h.shows with
        | calling done live opened calling output index named => simp [calling, named.callId]
      rw [if_pos hany]
      exact h
  obtain ⟨t, ht, heq⟩ := hann
  simp only [State.callDelta, if_neg hw, heq]
  cases ht.shows with
  | calling done live opened calling output index named holds =>
    rw [calling]
    simp only
    split
    · exact ht
    · refine ⟨by simpa using ht.searching, by simpa using ht.citations, ?_⟩
      refine .calling done { live with streamed := live.streamed ++ State.deltaText live delta }
        ?_ ?_ ?_ index ⟨named.callId, named.custom, named.body⟩ holds
      · simpa using opened
      · simp
      · simpa using output

theorem Standing.output (h : Standing echo s log none) {output : ToolOutput}
    (hki : echo.kinds.kind output.name ≠ .hosted .shell) :
    Standing echo (s.toolOutput echo output) (.output output :: log) none := by
  have hk := h.close .completed
  have ho : s.toolOutput echo output = (s.close echo .completed).pushRendered
      (outputItem (echo.kinds.kind output.name)
        (echo.itemId (outputPrefix (echo.kinds.kind output.name))
          (s.close echo .completed).output.length)
        (s.close echo .completed).output.length output) := by
    simp only [State.toolOutput, hk.searching, find?_nil]
  rw [ho]
  refine (hk.pushRendered ?_).standing ?_
  · simp only [Holds, outputItem, if_neg hki]
    rfl
  · intro kind text heq
    cases kind <;> cases heq

end Steps

/-! ### Runs -/

/-- Every delta is of the call that comes next; `live` is the call that streams, and `last` the one
that still does at the end. -/
def Streams (last : Option (CallId × Text)) : Option (CallId × Text) → List (Event L) → Prop
  | live, [] => live = last
  | live, .toolCallDelta delta :: events =>
    (live = none ∨ live = some (delta.id, delta.name)) ∧
      Streams last (some (delta.id, delta.name)) events
  | live, .toolCall call :: events =>
    (live = none ∨ live = some (call.id, call.name)) ∧ Streams last none events
  | live, .logprobs _ :: events => Streams last live events
  | live, .content _ :: events => live = none ∧ Streams last none events
  | live, .reasoning _ :: events => live = none ∧ Streams last none events

/-- The events end outside of a call that streams. -/
def Whole (events : List (Event L)) : Prop := Streams none none events

/-- The event is of no other tool than plain functions, hosted functions and custom tools. -/
def plainEvent (kinds : Kinds) : Event L → Bool
  | .toolCallDelta delta => plainKind (kinds.kind delta.name)
  | .toolCall call => plainKind (kinds.kind call.name)
  | _ => true

section Runs

variable {echo : Echo} {s : State L} {log : List Said}

theorem Standing.events {events : List (Event L)} {live last : Option (CallId × Text)}
    (h : Standing echo s log live) (hw : Streams last live events)
    (hp : ∀ event ∈ events, plainEvent echo.kinds event = true) :
    Standing echo ((events.map State.Signal.engine).foldl (State.event echo) s)
      ((events.map State.Signal.engine).foldl say log) last := by
  induction events generalizing s log live with
  | nil =>
    rw [Streams] at hw
    subst hw
    exact h
  | cons event events ih =>
    have hf := hp event (mem_cons_self ..)
    have hr : ∀ event ∈ events, plainEvent echo.kinds event = true :=
      fun other hoth => hp other (mem_cons_of_mem _ hoth)
    rw [map_cons, foldl_cons, foldl_cons]
    cases event with
    | content piece =>
      obtain ⟨rfl, hw⟩ := hw
      exact ih (h.text .message piece) hw hr
    | reasoning piece =>
      obtain ⟨rfl, hw⟩ := hw
      exact ih (h.text .reasoning piece) hw hr
    | toolCallDelta => exact ih (h.delta hw.1 hf) hw.2 hr
    | toolCall => exact ih (h.call hw.1 hf) hw.2 hr
    | logprobs tokens =>
      have hl : Standing echo { s with logprobs := s.logprobs ++ tokens } log live := by
        refine ⟨h.searching, h.citations, ?_⟩
        cases h.shows with
        | idle done opened calling output holds closed =>
          exact .idle done opened calling output holds closed
        | writing done item opened calling output index holds =>
          exact .writing done item opened calling output index holds
        | calling done live opened calling output index named holds =>
          exact .calling done live opened calling output index named holds
      exact ih hl hw hr

theorem Standing.outputs {outputs : List ToolOutput} (h : Standing echo s log none)
    (hk : ∀ output ∈ outputs, echo.kinds.kind output.name ≠ .hosted .shell) :
    Standing echo ((outputs.map State.Signal.toolOutput).foldl (State.event echo) s)
      ((outputs.map (State.Signal.toolOutput (L := L))).foldl say log) none := by
  induction outputs generalizing s log with
  | nil => exact h
  | cons output outputs ih =>
    refine ih (h.output (hk output (mem_cons_self ..))) ?_
    exact fun other ho => hk other (mem_cons_of_mem _ ho)

/-- A round that the Response can make items of, with the call that still streams at its end. -/
structure RoundPlain (kinds : Kinds) (last : Option (CallId × Text)) (round : Round L) : Prop where
  streams : Streams last none round.events
  events : ∀ event ∈ round.events, plainEvent kinds event = true
  outputs : ∀ output ∈ round.outputs, kinds.kind output.name ≠ .hosted .shell
  outputs_nil : last ≠ none → round.outputs = []

theorem Standing.round {round : Round L} {last : Option (CallId × Text)}
    (h : Standing echo s log none) (hr : RoundPlain echo.kinds last round) :
    Standing echo (round.sent.foldl (State.event echo) s) (round.sent.foldl say log) last := by
  rw [Round.sent, foldl_append, foldl_append]
  have he := h.events hr.streams hr.events
  cases last with
  | none => exact he.outputs hr.outputs
  | some =>
    rw [hr.outputs_nil nofun]
    exact he

theorem Standing.rounds {rounds : List (Round L)} (h : Standing echo s log none)
    (hp : ∀ round ∈ rounds, RoundPlain echo.kinds none round) :
    Standing echo ((rounds.flatMap Round.sent).foldl (State.event echo) s)
      ((rounds.flatMap Round.sent).foldl say log) none := by
  induction rounds generalizing s log with
  | nil => exact h
  | cons round rounds ih =>
    rw [flatMap_cons, foldl_append, foldl_append]
    exact ih (h.round (hp round (mem_cons_self ..))) fun other ho => hp other (mem_cons_of_mem _ ho)

/-! ### The end of the Response -/

theorem forall₂_set {α β : Type} {R : α → β → Prop} {xs : List α} {ys : List β}
    (h : List.Forall₂ R xs ys) {i : Nat} {a a' : α} (hg : xs[i]? = some a)
    (ha : ∀ b, R a b → R a' b) : List.Forall₂ R (xs.set i a') ys := by
  induction h generalizing i with
  | nil => simp at hg
  | cons hab hr ih =>
    cases i with
    | zero =>
      obtain rfl := Option.some.inj hg
      exact .cons (ha _ hab) hr
    | succ => exact .cons hab (ih hg)

theorem Kept.set (h : Kept echo s log) {index : Nat} {item item' : Item L}
    (hg : s.output[index]? = some (some item))
    (hi : ∀ said, Holds echo item said → Holds echo item' said) {t : State L}
    (hout : t.output = s.output.set index (some item')) (hs : t.searching = s.searching)
    (hc : t.citations = s.citations) (ho : t.opened = s.opened)
    (hca : t.calling = s.calling) : Kept echo t log := by
  obtain ⟨done, hd, hh⟩ := h.items
  refine ⟨hs.trans h.searching, hc.trans h.citations, ho.trans h.opened,
    hca.trans h.calling, (done.reverse.set index item').reverse, ?_, ?_⟩
  · rw [hout, hd, reverse_reverse, map_set]
  · rw [hd, getElem?_map] at hg
    obtain ⟨item₀, hi₀, heq⟩ := Option.map_eq_some_iff.mp hg
    obtain rfl := Option.some.inj heq
    have hr := forall₂_reverse_iff.mpr hh
    have hset := forall₂_set hr hi₀ hi
    rw [← forall₂_reverse_iff, reverse_reverse] at hset
    exact hset

theorem holds_status {item : Item L} (status : Option ItemStatus) {said : Said}
    (h : Holds echo item said) : Holds echo { item with status := status } said := by
  cases said <;> exact h

theorem holds_summary {item : Item L} (summary : List Text) {said : Said}
    (h : Holds echo item said) : Holds echo { item with
      body :=
        match item.body with
        | .reasoning _ content encrypted => .reasoning summary content encrypted
        | body => body } said := by
  cases said with
  | reasoning =>
    obtain ⟨before, envelope, hb⟩ := h
    exact ⟨summary, envelope, by simp [hb]⟩
  | content =>
    obtain ⟨annotations, logprobs, hb⟩ := h
    exact ⟨annotations, logprobs, by simp [hb]⟩
  | compaction =>
    rw [Holds] at h
    simp [Holds, h]
  | output =>
    rw [Holds] at h
    simp [Holds, h]
  | call call =>
    rw [Holds] at h
    by_cases hc : echo.kinds.kind call.name = .custom
    · simp [Holds, h, hc]
    · simp [Holds, h, hc]
  | cut id name =>
    rw [Holds] at h
    by_cases hc : echo.kinds.kind name = .custom
    · simp [Holds, h, hc]
    · simp [Holds, h, hc]

theorem Kept.release (h : Kept echo s log) (summary : List Text) :
    Kept echo (s.release summary) log := by
  unfold State.release
  split
  · exact h
  · next index hd =>
    simp only
    split
    · next item hg =>
      refine (h.set hg (fun said => holds_summary summary) ?_ ?_ ?_ ?_ ?_)
      · rw [State.emit_output]
        rfl
      all_goals simp [State.place]
    · exact { h with }

theorem Kept.place_status (h : Kept echo s log) {index : Nat} {item : Item L}
    (hg : s.output[index]? = some (some item)) (status : Option ItemStatus) :
    Kept echo (s.place index { item with status := status }) log := by
  refine h.set hg (fun said => holds_status status) ?_ ?_ ?_ ?_ ?_
  all_goals simp [State.place]

theorem Kept.summarize (h : Kept echo s log) (generated : Option State.Generated) :
    Kept echo (s.summarize echo generated).1 log := by
  unfold State.summarize
  split
  · next index hd hs =>
    split
    · next item hg =>
      split
      · exact h.release _
      · next pieces error =>
        split
        · exact h.release _
        · simp only
          refine Kept.release ?_ _
          have he := (((h.emit (.summaryPartAdded index item.id)).emitAll
            (pieces.map fun piece => .delta .summary index (some item.id) piece [])).emit
              (.done .summary index (some item.id) pieces.flatten [])).emit
                (.summaryPartDone index item.id pieces.flatten)
          split
          · refine he.place_status ?_ _
            simpa using hg
          · exact he
    · exact h
  · exact h

theorem Kept.abandonSearches (h : Kept echo s log) : Kept echo s.abandonSearches log := by
  have hs : s.abandonSearches = { s with searching := [] } := by
    simp [State.abandonSearches, h.searching]
  rw [hs]
  exact { h with searching := rfl }

theorem Kept.close (h : Kept echo s log) (status : ItemStatus) : s.close echo status = s := by
  simp only [State.close, State.closeCall, h.calling, State.closeHeld, h.opened, State.closeText]

def Says (echo : Echo) (document : Document L) (log : List Said) : Prop :=
  List.Forall₂ (Holds echo) document.output.reverse log

theorem Kept.saysAll (h : Kept echo s log) (status : DocumentStatus) (error : Option Text) :
    Says echo (s.response status error) log := by
  obtain ⟨done, ho, hh⟩ := h.items
  simp only [Says, State.response, ho, filterMap_map, Function.comp_def, id,
    filterMap_some, reverse_reverse]
  exact hh

theorem Kept.notKept (h : Kept echo s log) (message : Text) :
    Says echo (s.notKept message).2 log := (h.emit (.error message)).saysAll _ _

theorem Kept.fail (h : Kept echo s log) (message : Text) :
    Says echo (s.fail echo message).2 log := by
  simp only [State.fail, h.close]
  exact ((h.abandonSearches.release []).emit _).saysAll _ _

theorem Standing.fail {live : Option (CallId × Text)} (h : Standing echo s log live)
    (message : Text) : ∃ text, Says echo (s.fail echo message).2 (closing log text live) := by
  obtain ⟨text, hk⟩ := h.closes .incomplete
  exact ⟨text, ((hk.abandonSearches.release []).emit _).saysAll _ _⟩

theorem Standing.ends {live : Option (CallId × Text)} (h : Standing echo s log live)
    (ending : Ending) : ∃ text, Says echo (s.ends echo ending).2 (closing log text live) := by
  cases ending with
  | fail message => exact h.fail message
  | cancelled =>
    obtain ⟨text, hk⟩ := h.closes .incomplete
    exact ⟨text, (hk.release []).saysAll _ _⟩
  | finish finished =>
    show ∃ text, Says echo (s.finish echo finished).2 (closing log text live)
    unfold State.finish
    split
    · exact h.fail _
    · obtain ⟨event, status, itemStatus, error, he⟩ : ∃ event status itemStatus error,
          (State.ending finished.stopReason : (Document L → StreamEvent L) × _) =
            (event, status, itemStatus, error) := ⟨_, _, _, _, rfl⟩
      rw [he]
      dsimp only
      obtain ⟨text, hk⟩ := h.closes itemStatus
      have hc := hk.abandonSearches
      refine ⟨text, ?_⟩
      generalize (s.close echo itemStatus).abandonSearches = t at hc
      generalize closing log text live = log at hc
      cases t.encryptionError with
      | some message =>
        have hcl : Kept echo { t with encryptionError := none } log :=
          { hc with }
        exact hcl.fail message
      | none =>
        obtain ⟨u, failure, hs, hu⟩ : ∃ u failure,
            (if finished.stopReason = .cancelled then (t.release [], none) else
              t.summarize echo finished.summary) = (u, failure) ∧ Kept echo u log := by
          by_cases hca : finished.stopReason = .cancelled
          · rw [if_pos hca]
            exact ⟨_, _, rfl, hc.release []⟩
          · rw [if_neg hca]
            exact ⟨_, _, rfl, hc.summarize _⟩
        rw [hs]
        cases failure with
        | some message => exact hu.fail message
        | none =>
          cases (if error.isNone then finished.unkept else none) with
          | some message => exact hu.notKept message
          | none => exact hu.saysAll _ _

/-- How the Response of a loop begins: for a client that waits, or in the background. -/
def opening (echo : Echo) (streaming background : Bool) : State L :=
  if background then (State.new echo streaming).startQueued.started echo
  else (State.new echo streaming).start echo

/-- What a Response says before its first generation. -/
def openingLog (echo : Echo) : List Said :=
  echo.compaction.toList.map fun item => .compaction item.2

theorem Kept.announceCompaction (h : Kept echo s log) : Kept echo (s.announceCompaction echo) log := by
  unfold State.announceCompaction
  split
  · exact h
  · exact (h.emit _).emit _

theorem kept_opening (echo : Echo) (streaming background : Bool) :
    Kept echo (opening echo streaming background : State L) (openingLog echo) := by
  have hn : Kept echo (State.new echo streaming : State L) (openingLog echo) := by
    refine ⟨rfl, rfl, rfl, rfl, echo.compactionItem.toList, ?_, ?_⟩
    · cases hc : (echo.compactionItem : Option (Item L)) with
      | none => simp [State.new, hc]
      | some => simp [State.new, hc]
    · cases hc : echo.compaction with
      | none => simp [Echo.compactionItem, openingLog, hc]
      | some => simp [Echo.compactionItem, openingLog, hc, Holds]
  unfold opening
  split
  · exact (((hn.emit _).emit _).emit _).announceCompaction
  · exact ((hn.emit _).emit _).announceCompaction

theorem standing_opening (echo : Echo) (streaming background : Bool) :
    Standing echo (opening echo streaming background : State L) (openingLog echo) none := by
  refine (kept_opening echo streaming background).standing ?_
  intro kind text h
  cases hc : echo.compaction with
  | none => simp [openingLog, hc] at h
  | some =>
    simp only [openingLog, hc] at h
    cases kind <;> cases h

def response (echo : Echo) (streaming background : Bool) (trace : Trace L) (ending : Ending) :
    Document L :=
  ((trace.sent.foldl (State.event echo) (opening echo streaming background)).ends echo ending).2

/-- What the Response of a loop says, the latest first. -/
def said (echo : Echo) (trace : Trace L) : List Said := trace.sent.foldl say (openingLog echo)

theorem response_saysAll {trace : Trace L} {last : Option (CallId × Text)}
    (hp : ∀ round ∈ trace.appended, RoundPlain echo.kinds none round)
    (hl : RoundPlain echo.kinds last trace.last) (streaming background : Bool) (ending : Ending) :
    ∃ text, Says echo (response echo streaming background trace ending)
      (closing (said echo trace) text last) := by
  have h := ((standing_opening echo streaming background).rounds hp).round hl
  have hs := h.ends ending
  rw [← foldl_append, ← foldl_append] at hs
  rw [response, said, Trace.sent, Trace.rounds, flatMap_append, flatMap_singleton]
  exact hs

end Runs

end LocalAi.ToolLoop
