import LocalAi.History.Renderable
import LocalAi.ToolLoop.Items

/-!
# A replayed Response

The output items of a Response are the history of the request that continues it.  The loop
appended one assistant message for each round; the history is folded from the items.

* `itemJson`: an output item as it is stored and sent.
* `eventLog_shape`: the items of a round in which no text follows a call are its reasoning, its
  text and its calls.
* `replayed_cut`: a call that was cut off is replayed as one more call, or not at all.
* `replays_iff`: the messages of the items are those the loop appended, and its last turn,
  exactly when no round has text after a call and none ends inside of a call.
-/

open List

namespace LocalAi.ToolLoop

open Responses
open History (Entry Message Media inputMessages entry textField field qualified)
open Tools (Env)

variable {L D : Type}

/-! ### Items as JSON -/

def statusText : ItemStatus → Text
  | .inProgress => "in_progress".toList
  | .searching => "searching".toList
  | .completed => "completed".toList
  | .incomplete => "incomplete".toList
  | .failed => "failed".toList

def statusMember (status : Option ItemStatus) : List (Text × Json) :=
  status.toList.map fun status => ("status".toList, .string (statusText status))

def annotationJson (cited : Annotation) : Json :=
  .object [("type".toList, .string "file_citation".toList),
    ("file_id".toList, .string cited.fileId),
    ("filename".toList, .string cited.filename),
    ("index".toList, .number (Nat.toDigits 10 cited.index))]

def summaryJson (text : Text) : Json :=
  .object [("type".toList, .string "summary_text".toList), ("text".toList, .string text)]

def partJson (logprob : L → Json) : Responses.Part L → Json
  | .reasoningText text =>
    .object [("type".toList, .string "reasoning_text".toList), ("text".toList, .string text)]
  | .outputText text annotations logprobs =>
    .object [("type".toList, .string "output_text".toList), ("text".toList, .string text),
      ("annotations".toList, .array (annotations.map annotationJson)),
      ("logprobs".toList, .array (logprobs.map logprob))]

/-- A namespaced tool has its own name, and its namespace after the other members. -/
def nameMember (name : ToolName) : Text × Json := ("name".toList, .string name.name)

def spaceMember (name : ToolName) : List (Text × Json) :=
  name.space.toList.map fun space => ("namespace".toList, .string space)

def orNull (value : Option Json) : Json := value.getD .null

/-- An output item.  What a file search found is not part of `Item`, so its item is left
out. -/
def itemMembers (printed : CallId → Text) (logprob : L → Json) (item : Item L) :
    Option (List (Text × Json)) :=
  let id := ("id".toList, Json.string item.id)
  let typed (name : String) : Text × Json := ("type".toList, .string name.toList)
  let called (callId : CallId) : Text × Json := ("call_id".toList, .string (printed callId))
  let status := statusMember item.status
  match item.body with
  | .compaction sealed =>
    some [typed "compaction", id, ("encrypted_content".toList, .string sealed)]
  | .reasoning summary content envelope =>
    some ([id, typed "reasoning", ("summary".toList, .array (summary.map summaryJson)),
      ("content".toList, .array (content.toList.map (partJson logprob)))] ++ status ++
        envelope.toList.map fun sealed => ("encrypted_content".toList, .string sealed))
  | .message content =>
    some ([id, typed "message"] ++ status ++ [("role".toList, .string "assistant".toList),
      ("content".toList, .array (content.toList.map (partJson logprob)))])
  | .functionCall callId name arguments =>
    some ([id, typed "function_call"] ++ status ++ [called callId, nameMember name,
      ("arguments".toList, .string arguments)] ++ spaceMember name)
  | .customToolCall callId name input =>
    some ([id, typed "custom_tool_call", called callId, nameMember name,
      ("input".toList, .string input)] ++ spaceMember name)
  | .shellCall callId commands timeout =>
    some ([id, typed "shell_call", called callId, ("action".toList,
      .object [("commands".toList, .array (commands.map .string)),
        ("timeout_ms".toList, orNull timeout), ("max_output_length".toList, .null)])] ++ status ++
      [("environment".toList, .object [typed "local"])])
  | .localShellCall callId command timeout directory =>
    some ([id, typed "local_shell_call", called callId, ("action".toList,
      .object [typed "exec", ("command".toList, command.getD (.array [])),
        ("timeout_ms".toList, orNull timeout), ("working_directory".toList, orNull directory),
        ("env".toList, .object []), ("user".toList, .null)])] ++ status)
  | .applyPatchCall callId operation =>
    some ([id, typed "apply_patch_call", called callId] ++ status ++
      [("operation".toList, .object operation)])
  | .fileSearchCall _ _ => none
  | .functionCallOutput callId output =>
    some ([id, typed "function_call_output", called callId, ("output".toList, .string output)] ++
      status)
  | .shellCallOutput callId output =>
    some ([id, typed "shell_call_output", called callId] ++ status ++
      [("output".toList, .array output), ("max_output_length".toList, .null)])

def itemJson (printed : CallId → Text) (logprob : L → Json) (item : Item L) : Option Json :=
  (itemMembers printed logprob item).map .object

/-! ### Items read back -/

/-- What the engine and the JSON reader promise of a call: a custom tool is called with its
input and nothing else, and printed arguments read back. -/
structure CallOk (env : Env) (kinds : Kinds) (call : ToolCall) : Prop where
  custom : kinds.kind call.name = .custom →
    ∃ input, call.arguments = .object [("input".toList, .string input)]
  readsBack : kinds.kind call.name ≠ .custom → env.fromStr (argumentsText call) = .ok call.arguments

/-- A namespaced tool's name has the namespace in front of its own. -/
def Qualified (kinds : Kinds) : Prop :=
  ∀ name space own, kinds.namespaced name = some (space, own) → name = qualified space own

def saidEntry (printed : CallId → Text) : Said → Option (Entry D)
  | .compaction _ => none
  | .reasoning text => some (.reasoning text)
  | .content text => some (.message .assistant ⟨text, []⟩)
  | .call call => some (.call (chatCall printed call))
  | .cut _ _ _ => none
  | .output output => some (.output (printed output.callId) ⟨output.content, []⟩)

variable {call : ToolCall} {events : List (Event L)}

section ReadBack

variable {env : Env} {media : Media D} {echo : Echo} {printed : CallId → Text}
  {logprob : L → Json} {item : Item L}

theorem reasoningParts_summary (summary : List Text) : (summary.map summaryJson).mapM
      (History.reasoningPart "summary" "summary_text".toList) = .ok summary := by
  induction summary with
  | nil => rfl
  | cons text summary ih =>
    rw [map_cons, mapM_cons, ih]
    rfl

theorem entry_reasoning {text : Text} (h : Holds echo item (.reasoning text)) :
    ∃ json, itemJson printed logprob item = some json ∧
      entry env media json = .ok (.reasoning text : Entry D) := by
  obtain ⟨summary, envelope, hb⟩ := h
  refine ⟨_, by simp only [itemJson, itemMembers, hb]; rfl, ?_⟩
  have hs := reasoningParts_summary summary
  have hj : History.joined [text] = text := by simp [History.joined]
  cases summary with
  | nil =>
    show Except.ok (Entry.reasoning (History.joined [text])) = _
    rw [hj]
  | cons first summary =>
    rw [entry]
    rw [History.reasoningText]
    show ((do
      let summary ← (((first :: summary).map summaryJson).mapM
        (History.reasoningPart "summary" "summary_text".toList)).map some
      pure (((some [text] <|> summary).map History.joined).getD []) : Except Text Text)).map _ = _
    rw [hs]
    show Except.ok (Entry.reasoning (History.joined [text])) = _
    rw [hj]

theorem entry_content {text : Text} (h : Holds echo item (.content text)) :
    ∃ json, itemJson printed logprob item = some json ∧
      entry env media json = .ok (.message .assistant ⟨text, []⟩ : Entry D) := by
  obtain ⟨annotations, logprobs, hb⟩ := h
  refine ⟨_, by simp only [itemJson, itemMembers, hb]; rfl, ?_⟩
  cases item.status with
  | none => rfl
  | some => rfl

theorem entry_output {output : ToolOutput} (h : Holds echo item (.output output)) :
    ∃ json, itemJson printed logprob item = some json ∧
      entry env media json =
        .ok (.output (printed output.callId) ⟨output.content, []⟩ : Entry D) := by
  refine ⟨_, by simp only [itemJson, itemMembers, show item.body = _ from h]; rfl, ?_⟩
  rfl

theorem calledName_qualified (hq : Qualified echo.kinds) (name : Text) :
    ((echo.kinds.qualify name).space.elim (echo.kinds.qualify name).name fun space =>
      qualified space (echo.kinds.qualify name).name) = name := by
  rw [Kinds.qualify]
  cases hs : echo.kinds.namespaced name with
  | none => rfl
  | some entry =>
    obtain ⟨space, own⟩ := entry
    exact (hq name space own hs).symm

theorem entry_call (hq : Qualified echo.kinds)
    (hca : CallOk env echo.kinds call) (h : Holds echo item (.call call)) :
    ∃ json, itemJson printed logprob item = some json ∧
      entry env media json = .ok (.call (chatCall printed call) : Entry D) := by
  have hn := calledName_qualified hq call.name
  by_cases hc : echo.kinds.kind call.name = .custom
  · obtain ⟨input, ha⟩ := hca.custom hc
    have hb : item.body = .customToolCall call.id (echo.kinds.qualify call.name)
        (inputText call) := by
      rw [Holds, if_pos hc] at h
      exact h
    have hi : inputText call = input := by
      simp only [inputText, argument, ha]
      rfl
    refine ⟨_, by simp only [itemJson, itemMembers, hb]; rfl, ?_⟩
    generalize echo.kinds.qualify call.name = name at hn
    obtain ⟨own, space⟩ := name
    rw [chatCall, ha, ← hn, hi]
    cases space with
    | none => rfl
    | some => rfl
  · have hb : item.body = .functionCall call.id (echo.kinds.qualify call.name)
        (argumentsText call) := by
      rw [Holds, if_neg hc] at h
      exact h
    refine ⟨_, by simp only [itemJson, itemMembers, hb]; rfl, ?_⟩
    have hr := hca.readsBack hc
    generalize echo.kinds.qualify call.name = name at hn
    obtain ⟨own, space⟩ := name
    rw [chatCall, ← hn]
    have hp : ∀ (id called : Text), History.toolCall env id called
        (.string (argumentsText call)) = .ok ⟨id, called, call.arguments⟩ := by
      intro id called
      rw [History.toolCall, hr]
      rfl
    cases item.status <;> cases space
    all_goals
      show History.functionCallEntry env _ = _
      rw [History.functionCallEntry]
      show (do
        let c ← History.toolCall env (printed call.id) _ (.string (argumentsText call))
        pure (Entry.call c) : Except Text (Entry D)) = _
      rw [hp]
      rfl

/-- The compaction item stands for what came before it; it is rendered from its sealed
content. -/
def ownItems (output : List (Item L)) : List (Item L) :=
  output.filter fun item =>
    match item.body with
    | .compaction _ => false
    | _ => true

variable (env media printed logprob)

theorem entry_holds (hq : Qualified echo.kinds) {said : Said} {e : Entry D}
    (hs : saidEntry printed said = some e)
    (hc : ∀ call, said = .call call → CallOk env echo.kinds call) (h : Holds echo item said) :
    ∃ json, itemJson printed logprob item = some json ∧ entry env media json = .ok e := by
  cases said with
  | compaction => cases hs
  | reasoning =>
    cases hs
    exact entry_reasoning h
  | content =>
    cases hs
    exact entry_content h
  | call call =>
    cases hs
    exact entry_call hq (hc call rfl) h
  | cut => cases hs
  | output =>
    cases hs
    exact entry_output h

/-- What there is of the arguments may not parse. -/
theorem entry_cut {id : CallId} {name text : Text} (h : Holds echo item (.cut id name text)) :
    ∃ json, itemJson printed logprob item = some json ∧
      ∀ e : Entry D, entry env media json = .ok e → ∃ call, e = .call call := by
  by_cases hc : echo.kinds.kind name = .custom
  · have hb : item.body = .customToolCall id (echo.kinds.qualify name) text := by
      rw [Holds, if_pos hc] at h
      exact h
    refine ⟨_, by simp only [itemJson, itemMembers, hb]; rfl, fun e he => ?_⟩
    generalize echo.kinds.qualify name = called at he
    obtain ⟨own, space⟩ := called
    cases space with
    | none => exact ⟨_, (Except.ok.inj he).symm⟩
    | some => exact ⟨_, (Except.ok.inj he).symm⟩
  · have hb : item.body = .functionCall id (echo.kinds.qualify name) text := by
      rw [Holds, if_neg hc] at h
      exact h
    refine ⟨_, by simp only [itemJson, itemMembers, hb]; rfl, fun e he => ?_⟩
    have hp : ∀ called : Text, (do
        let c ← History.toolCall env (printed id) called (.string text)
        pure (Entry.call c) : Except Text (Entry D)) = .ok e → ∃ call, e = .call call := by
      intro called hok
      cases ht : History.toolCall env (printed id) called (.string text) with
      | error =>
        rw [ht] at hok
        cases hok
      | ok c =>
        rw [ht] at hok
        exact ⟨c, (Except.ok.inj hok).symm⟩
    generalize echo.kinds.qualify name = called at he
    obtain ⟨own, space⟩ := called
    cases hst : item.status <;> cases space
    all_goals
      rw [hst] at he
      exact hp _ he

variable {env media printed logprob} in
theorem ownItems_cons_of_entry {said : Said} {e : Entry D} {items : List (Item L)}
    (hs : saidEntry printed said = some e) (h : Holds echo item said) :
    ownItems (item :: items) = item :: ownItems items := by
  rw [ownItems, filter_cons_of_pos]
  · rfl
  · cases said with
    | compaction => cases hs
    | reasoning =>
      obtain ⟨summary, envelope, hb⟩ := h
      simp [hb]
    | content =>
      obtain ⟨annotations, logprobs, hb⟩ := h
      simp [hb]
    | call call =>
      rw [Holds] at h
      by_cases hc : echo.kinds.kind call.name = .custom
      · simp [h, hc]
      · simp [h, hc]
    | cut => cases hs
    | output =>
      rw [Holds] at h
      simp [h]

theorem mapM_entry (hq : Qualified echo.kinds) {items : List (Item L)} {log : List Said}
    (hc : ∀ call, .call call ∈ log → CallOk env echo.kinds call)
    (hn : ∀ id name text, .cut id name text ∉ log) (h : List.Forall₂ (Holds echo) items log) :
    ∃ jsons, (ownItems items).mapM (itemJson printed logprob) = some jsons ∧
      jsons.mapM (entry env media) = .ok (log.filterMap (saidEntry (D := D) printed)) := by
  induction h with
  | nil => exact ⟨[], rfl, rfl⟩
  | @cons item said items log hi _ ih =>
    obtain ⟨jsons, hj, he⟩ := ih (fun call hca => hc call (mem_cons_of_mem _ hca))
      fun id name text hcut => hn id name text (mem_cons_of_mem _ hcut)
    cases hs : saidEntry (D := D) printed said with
    | none =>
      cases said with
      | compaction =>
        rw [Holds] at hi
        rw [ownItems, filter_cons_of_neg (by simp [hi]), filterMap_cons_none hs]
        exact ⟨jsons, hj, he⟩
      | cut id name text => exact absurd (mem_cons_self ..) (hn id name text)
      | _ => cases hs
    | some =>
      obtain ⟨json, hjs, hent⟩ := entry_holds env media printed logprob hq hs
        (fun call heq => hc call (by rw [heq]; exact mem_cons_self ..)) hi
      refine ⟨json :: jsons, ?_, ?_⟩
      · rw [ownItems_cons_of_entry hs hi, mapM_cons, hjs, hj]
        rfl
      · rw [filterMap_cons_some hs, mapM_cons, hent, he]
        rfl

variable {env media printed logprob}

/-- The messages of the Response's own items; `none` where an item has no JSON here. -/
def replayed (env : Env) (media : Media D) (printed : CallId → Text) (logprob : L → Json)
    (output : List (Item L)) : Option (Except Text (List (Message D))) :=
  ((ownItems output).mapM (itemJson printed logprob)).map (inputMessages env media)

theorem replayed_eq (hq : Qualified echo.kinds) {document : Document L} {log : List Said}
    (hc : ∀ call, .call call ∈ log → CallOk env echo.kinds call)
    (hn : ∀ id name text, .cut id name text ∉ log) (h : Says echo document log) :
    replayed env media printed logprob document.output =
      some (.ok (History.rest .empty (log.reverse.filterMap (saidEntry (D := D) printed)))) := by
  have hi : List.Forall₂ (Holds echo) document.output log.reverse := by
    rw [← forall₂_reverse_iff, reverse_reverse]
    exact h
  obtain ⟨jsons, hj, he⟩ := mapM_entry env media printed logprob hq
    (fun call hca => hc call (mem_reverse.mp hca))
    (fun id name text hcut => hn id name text (mem_reverse.mp hcut)) hi
  rw [replayed, hj, Option.map_some, History.inputMessages_eq he]

theorem replayed_cut (hq : Qualified echo.kinds) {document : Document L} {log : List Said}
    (hc : ∀ call, .call call ∈ log → CallOk env echo.kinds call)
    (hn : ∀ id name text, .cut id name text ∉ log) {id : CallId} {name text : Text}
    (h : Says echo document (.cut id name text :: log)) {messages : List (Message D)}
    (hr : replayed env media printed logprob document.output = some (.ok messages)) :
    ∃ call, messages = History.rest .empty
      (log.reverse.filterMap (saidEntry printed) ++ [.call call]) := by
  generalize ho : document.output.reverse = output at h
  rw [Says, ho] at h
  cases h with
  | @cons item _ items _ hi hl =>
    have hi' : List.Forall₂ (Holds echo) items.reverse log.reverse := by
      rwa [forall₂_reverse_iff]
    obtain ⟨jsons, hj, he⟩ := mapM_entry env media printed logprob hq
      (fun call hca => hc call (mem_reverse.mp hca))
      (fun id name text hcut => hn id name text (mem_reverse.mp hcut)) hi'
    obtain ⟨json, hjs, hent⟩ := entry_cut env media printed logprob hi
    have hown : ownItems document.output = ownItems items.reverse ++ [item] := by
      rw [reverse_eq_cons_iff.mp ho, ownItems, ownItems, filter_append, filter_cons_of_pos]
      · rfl
      · rw [Holds] at hi
        by_cases hcu : echo.kinds.kind name = .custom
        · simp [hi, hcu]
        · simp [hi, hcu]
    rw [replayed, hown, mapM_append, hj, mapM_cons, hjs] at hr
    have hm : inputMessages env media (jsons ++ [json]) = .ok messages := Option.some.inj hr
    have hmap : (jsons ++ [json]).mapM (entry env media) = (entry env media json).map fun e =>
          log.reverse.filterMap (saidEntry (D := D) printed) ++ [e] := by
      rw [mapM_append, he, mapM_cons]
      cases entry (D := D) env media json with
      | error => rfl
      | ok => rfl
    cases hej : entry env media json with
    | error =>
      rw [inputMessages, hmap, hej] at hm
      cases hm
    | ok e =>
      obtain ⟨call, rfl⟩ := hent e hej
      rw [hej] at hmap
      rw [History.inputMessages_eq hmap] at hm
      exact ⟨call, (Except.ok.inj hm).symm⟩

end ReadBack

/-! ### The items of one round -/

def isReasoning : Event L → Bool
  | .reasoning _ => true
  | _ => false

def isContent : Event L → Bool
  | .content _ => true
  | _ => false

def isCall : Event L → Bool
  | .toolCall _ => true
  | _ => false

def contentAfterCall : List (Event L) → Bool
  | [] => false
  | event :: events => (isCall event && events.any isContent) || contentAfterCall events

theorem contentAfterCall_snoc (events : List (Event L)) (event : Event L) :
    contentAfterCall (events ++ [event]) =
      (contentAfterCall events || (events.any isCall && isContent event)) := by
  induction events with
  | nil => simp [contentAfterCall]
  | cons first events ih =>
    simp only [cons_append, contentAfterCall, ih, any_append, any_cons, any_nil, Bool.or_false]
    cases isCall first <;> cases events.any isContent <;> cases isContent event <;>
      cases contentAfterCall events <;> cases events.any isCall <;> rfl

/-- What the engine emits in one generation: reasoning first, no empty pieces, and the deltas of
a call before the call, if it comes to it. -/
structure Spoken (events : List (Event L)) : Prop where
  reasoning : events.Pairwise fun first later =>
    isReasoning later = true → isContent first = false ∧ isCall first = false
  pieces : ∀ piece, .reasoning piece ∈ events ∨ .content piece ∈ events → piece ≠ []
  streams : ∃ last, Streams last none events

/-- What the events of a round say, the latest first. -/
def eventLog (events : List (Event L)) : List Said :=
  (events.map State.Signal.engine).foldl say []

theorem eventLog_snoc (events : List (Event L)) (event : Event L) :
    eventLog (events ++ [event]) = say (eventLog events) (.engine event) := by
  simp [eventLog]

theorem forward_snoc (events : List (Event L)) (event : Event L) :
    forward (events ++ [event]) = (forward events).hear event := by
  simp [forward]

/-- The items of a turn whose text comes before its calls. -/
def Turn.log (turn : Turn) : List Said :=
  turn.calls.reverse.map .call ++ (if turn.content = [] then [] else [.content turn.content]) ++
    (if turn.reasoning = [] then [] else [.reasoning turn.reasoning])

theorem forward_calls_nil (h : events.any isCall = false) : (forward events).calls = [] := by
  induction events using reverseRecOn with
  | nil => rfl
  | append_singleton events event ih =>
    rw [any_append, Bool.or_eq_false_iff] at h
    rw [forward_snoc]
    cases event with
    | toolCall => simp [isCall] at h
    | _ => exact ih h.1

theorem mem_forward_calls : call ∈ (forward events).calls ↔ .toolCall call ∈ events := by
  induction events using reverseRecOn with
  | nil => simp [forward, Turn.empty]
  | append_singleton events event ih =>
    rw [forward_snoc, mem_append, ← ih]
    cases event <;> simp [Turn.hear]

theorem forward_content_nil (h : events.any isContent = false) : (forward events).content = [] := by
  induction events using reverseRecOn with
  | nil => rfl
  | append_singleton events event ih =>
    rw [any_append, Bool.or_eq_false_iff] at h
    rw [forward_snoc]
    cases event with
    | content => simp [isContent] at h
    | _ => exact ih h.1

structure SpokenPrefix (events : List (Event L)) : Prop where
  reasoning : events.Pairwise fun first later =>
    isReasoning later = true → isContent first = false ∧ isCall first = false
  pieces : ∀ piece, .reasoning piece ∈ events ∨ .content piece ∈ events → piece ≠ []

theorem eventLog_shape (h : SpokenPrefix events)
    (ha : contentAfterCall events = false) : eventLog events = (forward events).log := by
  induction events using reverseRecOn with
  | nil => rfl
  | append_singleton events event ih =>
    rw [contentAfterCall_snoc, Bool.or_eq_false_iff] at ha
    have hpa := pairwise_append.mp h.reasoning
    have hb : SpokenPrefix events :=
      ⟨hpa.1, fun piece hp => h.pieces piece (hp.imp (mem_append_left _) (mem_append_left _))⟩
    rw [eventLog_snoc, forward_snoc, ih hb ha.1]
    cases event with
    | reasoning piece =>
      have hf : ∀ e ∈ events, isContent e = false ∧ isCall e = false :=
        fun e he => hpa.2.2 e he _ (mem_singleton_self _) rfl
      have hca : (forward events).calls = [] :=
        forward_calls_nil (any_eq_false.mpr fun e he => by simp [(hf e he).2])
      have hc : (forward events).content = [] :=
        forward_content_nil (any_eq_false.mpr fun e he => by simp [(hf e he).1])
      have hp : piece ≠ [] := h.pieces piece (.inl (by simp))
      simp only [say, Turn.log, Turn.hear, hca, hc]
      by_cases hr : (forward events).reasoning = []
      · simp [hr, hp, sayText, Said.text]
      · simp [hr, sayText]
    | content piece =>
      have hn : events.any isCall = false := by simpa [isContent] using ha.2
      have hca := forward_calls_nil hn
      have hp : piece ≠ [] := h.pieces piece (.inr (by simp))
      simp only [say, Turn.log, Turn.hear, hca]
      by_cases hc : (forward events).content = []
      · by_cases hr : (forward events).reasoning = []
        · simp [hc, hr, hp, sayText, Said.text]
        · simp [hc, hr, hp, sayText, Said.text]
      · simp [hc, sayText]
    | toolCall =>
      simp only [say, Turn.log, Turn.hear, reverse_append, reverse_singleton,
        nil_append, map_cons, cons_append]
      rfl
    | toolCallDelta => rfl
    | logprobs => rfl

/-- An answer that begins after a call. -/
def Broken (log : List Said) : Prop :=
  ∃ later text call earlier, log = later ++ .content text :: .call call :: earlier

variable {log : List Said}

theorem Broken.say (h : Broken log) (event : Event L) : Broken (say log (.engine event)) := by
  obtain ⟨later, text, call, earlier, rfl⟩ := h
  have hc : ∀ said : Said, Broken (said :: (later ++ .content text :: .call call :: earlier)) :=
    fun said => ⟨said :: later, text, call, earlier, rfl⟩
  cases event with
  | toolCall => exact hc _
  | toolCallDelta => exact ⟨later, text, call, earlier, rfl⟩
  | logprobs => exact ⟨later, text, call, earlier, rfl⟩
  | reasoning piece =>
    cases later with
    | nil => exact hc _
    | cons said later =>
      cases said with
      | reasoning old => exact ⟨.reasoning (old ++ piece) :: later, text, call, earlier, rfl⟩
      | _ => exact hc _
  | content piece =>
    cases later with
    | nil => exact ⟨[], text ++ piece, call, earlier, rfl⟩
    | cons said later =>
      cases said with
      | content old => exact ⟨.content (old ++ piece) :: later, text, call, earlier, rfl⟩
      | _ => exact hc _

theorem eventLog_broken (h : SpokenPrefix events)
    (ha : contentAfterCall events = true) : Broken (eventLog events) := by
  induction events using reverseRecOn with
  | nil => cases ha
  | append_singleton events event ih =>
    have hpa := pairwise_append.mp h.reasoning
    have hb : SpokenPrefix events :=
      ⟨hpa.1, fun piece hp => h.pieces piece (hp.imp (mem_append_left _) (mem_append_left _))⟩
    rw [eventLog_snoc]
    cases hearlier : contentAfterCall events with
    | true => exact (ih hb hearlier).say event
    | false =>
      rw [contentAfterCall_snoc, hearlier, Bool.false_or, Bool.and_eq_true] at ha
      -- the items so far end with a call
      rw [eventLog_shape hb hearlier]
      have hc : (forward events).calls ≠ [] := by
        intro hn
        have hany := ha.1
        rw [any_eq_true] at hany
        obtain ⟨e, he, hca⟩ := hany
        cases e with
        | toolCall =>
          have hm := mem_forward_calls.mpr he
          rw [hn] at hm
          cases hm
        | _ => cases hca
      obtain ⟨calls, call, hs⟩ :=
        (eq_nil_or_concat' (forward events).calls).resolve_left hc
      obtain ⟨earlier, hl⟩ : ∃ earlier, (forward events).log = .call call :: earlier := by
        refine ⟨calls.reverse.map .call ++ (if (forward events).content = [] then []
          else [.content (forward events).content]) ++ (if (forward events).reasoning = [] then []
            else [.reasoning (forward events).reasoning]), ?_⟩
        simp only [Turn.log, hs, reverse_append, reverse_singleton,
          map_cons, cons_append, nil_append]
      rw [hl]
      cases event with
      | content piece => exact ⟨[], piece, call, earlier, rfl⟩
      | _ => simp [isContent] at ha

/-! ### The messages of one round -/

section Messages

variable {printed : CallId → Text}

def eventEntries (printed : CallId → Text) (events : List (Event L)) : List (Entry D) :=
  (eventLog events).reverse.filterMap (saidEntry printed)

theorem rest_calls (t : History.Turn D) (calls : List ToolCall) :
    History.rest t (calls.map fun call => .call (chatCall printed call)) =
      History.flush { t with calls := t.calls ++ calls.map (chatCall printed) } := by
  induction calls generalizing t with
  | nil => simp [History.rest]
  | cons call calls ih =>
    rw [map_cons, History.rest]
    show [] ++ History.rest { t with calls := t.calls ++ [chatCall printed call] } _ = _
    rw [nil_append, ih]
    simp

theorem rest_turnLog (turn : Turn) :
    History.rest .empty (turn.log.reverse.filterMap (saidEntry (D := D) printed)) =
      if turn.isEmpty then [] else [assistantMessage printed turn] := by
  obtain ⟨reasoning, content, calls⟩ := turn
  have hca : (calls.map Said.call).filterMap (saidEntry (D := D) printed) =
      calls.map fun call => .call (chatCall printed call) := by
    rw [List.filterMap_map]
    exact congrFun List.filterMap_eq_map calls
  have hl : (Turn.mk reasoning content calls).log.reverse.filterMap (saidEntry (D := D) printed) =
      (if reasoning = [] then [] else [.reasoning reasoning]) ++
        (if content = [] then [] else [.message .assistant ⟨content, []⟩]) ++
        calls.map fun call => .call (chatCall printed call) := by
    simp only [Turn.log, List.reverse_append, List.filterMap_append, ← List.append_assoc,
      ← List.map_reverse, List.reverse_reverse, hca]
    congr 2
    · by_cases hr : reasoning = []
      · simp [hr]
      · simp [hr, saidEntry]
    · by_cases hc : content = []
      · simp [hc]
      · simp [hc, saidEntry]
  rw [hl]
  by_cases hr : reasoning = [] <;> by_cases hc : content = []
  · subst hr hc
    rw [if_pos rfl, if_pos rfl, List.nil_append, List.nil_append, rest_calls]
    cases calls with
    | nil => rfl
    | cons => rfl
  · subst hr
    rw [if_pos rfl, if_neg hc, List.nil_append]
    show History.rest ⟨none, some content, [], []⟩
      (calls.map fun call => .call (chatCall printed call)) = _
    rw [rest_calls]
    simp [History.flush, History.Turn.isEmpty, Turn.isEmpty, hc, assistantMessage]
  · subst hc
    rw [if_neg hr, if_pos rfl, List.append_nil]
    show History.rest ⟨some reasoning, none, [], []⟩
      (calls.map fun call => .call (chatCall printed call)) = _
    rw [rest_calls]
    simp [History.flush, History.Turn.isEmpty, Turn.isEmpty, hr, assistantMessage]
  · rw [if_neg hr, if_neg hc]
    show History.rest ⟨some reasoning, some content, [], []⟩
      (calls.map fun call => .call (chatCall printed call)) = _
    rw [rest_calls]
    simp [History.flush, History.Turn.isEmpty, Turn.isEmpty, hr, assistantMessage]

theorem rest_broken {log : List Said} (h : Broken log) :
    2 ≤ (History.rest .empty (log.reverse.filterMap (saidEntry (D := D) printed))).length := by
  obtain ⟨later, text, call, earlier, rfl⟩ := h
  have he : (later ++ .content text :: .call call :: earlier).reverse.filterMap
      (saidEntry (D := D) printed) =
      (earlier.reverse.filterMap (saidEntry printed) ++ [.call (chatCall printed call)]) ++
        .message .assistant ⟨text, []⟩ :: later.reverse.filterMap (saidEntry printed) := by
    simp [saidEntry]
  rw [he, History.rest_append, length_append]
  have hok := History.after_ok (earlier.reverse.filterMap (saidEntry (D := D) printed) ++
    [.call (chatCall printed call)])
  have hc : (History.after (earlier.reverse.filterMap (saidEntry (D := D) printed) ++
      [.call (chatCall printed call)])).turn.calls ≠ [] := by
    rw [History.after_snoc]
    exact History.next_calls_of_call rfl
  generalize (History.after (earlier.reverse.filterMap (saidEntry (D := D) printed) ++
    [.call (chatCall printed call)])).turn = t at hok hc
  have hj : History.joins t (.message .assistant ⟨text, []⟩) = false := by
    simp [History.joins, hc]
  have hemp : t.isEmpty = false := by
    simp [History.Turn.isEmpty, hc]
  obtain ⟨m, ms, hf, -⟩ := History.flush_first hemp
  have hn : (History.next .empty (.message .assistant ⟨text, []⟩ : Entry D)).turn ≠ .empty := by
    rw [Ne, History.next_empty History.Turn.Ok.empty]
    rintro (⟨role, parts, heq, hr⟩ | hout)
    · cases heq
      exact hr rfl
    · cases hout
  obtain ⟨m', ms', hs, -⟩ := History.rest_first (History.next_ok History.Turn.Ok.empty _) hn
    (later.reverse.filterMap (saidEntry (D := D) printed))
  rw [History.rest_of_not_joins hok hj, hf, History.rest, hs]
  simp only [length_append, length_cons]
  omega

theorem rest_events (h : SpokenPrefix events) (ha : contentAfterCall events = false) :
    History.rest .empty (eventEntries (D := D) printed events) =
      if (forward events).isEmpty then [] else [assistantMessage printed (forward events)] := by
  rw [eventEntries, eventLog_shape h ha, rest_turnLog]

end Messages

/-! ### The rounds of a run -/

section Rounds

variable {loop : Loop}

variable {generation : Generation L}

theorem runCall_name {operation : Hosted}
    (hop : operation ≠ .fileSearch) {spent spent' : Spent} {marker marker' : Nat}
    {output : ToolOutput}
    (h : runCall loop generation call operation spent marker = some (output, spent', marker')) :
    output.name = call.name := by
  rw [runCall, if_neg hop] at h
  obtain ⟨ran, -, heq⟩ := Option.map_eq_some_iff.mp h
  cases heq
  rfl

theorem runCalls_names {calls : List (ToolCall × Hosted)}
    (hc : ∀ entry ∈ calls, entry.2 ≠ .fileSearch) (spent : Spent) (marker : Nat) :
    ∀ output ∈ (runCalls loop generation calls spent marker).1,
      ∃ entry ∈ calls, output.name = entry.1.name := by
  induction calls generalizing spent marker with
  | nil => simp [runCalls]
  | cons entry calls ih =>
    obtain ⟨call, operation⟩ := entry
    intro output ho
    rw [runCalls] at ho
    split at ho
    · cases ho
    · next first spent' marker' hr =>
      have hop := hc _ (mem_cons_self ..)
      rcases mem_cons.mp ho with rfl | ho
      · exact ⟨_, mem_cons_self .., runCall_name hop hr⟩
      · obtain ⟨entry, he, hn⟩ := ih (fun other hoth =>
          hc other (mem_cons_of_mem _ hoth)) spent' marker' output ho
        exact ⟨entry, mem_cons_of_mem _ he, hn⟩

theorem runCalls_length {calls : List (ToolCall × Hosted)}
    {spent : Spent} {marker : Nat} {outputs : List ToolOutput} {next : Spent × Nat}
    (h : runCalls loop generation calls spent marker = (outputs, some next)) :
    outputs.length = calls.length := by
  induction calls generalizing spent marker outputs with
  | nil =>
    cases h
    rfl
  | cons entry calls ih =>
    obtain ⟨call, operation⟩ := entry
    rw [runCalls] at h
    split at h
    · cases h
    · next first spent' marker' hr =>
      obtain ⟨hf, hn⟩ := Prod.mk.inj h
      rw [← hf, length_cons, length_cons]
      exact congrArg (· + 1) (ih (Prod.ext rfl hn))

theorem mem_hostedCalls {turn : Turn} {entry : ToolCall × Hosted}
    (h : entry ∈ hostedCalls loop turn) :
    entry.1 ∈ turn.calls ∧ loop.kinds.kind entry.1.name = .hosted entry.2 := by
  obtain ⟨call, hc, he⟩ := mem_filterMap.mp h
  obtain ⟨operation, hop, rfl⟩ := Option.map_eq_some_iff.mp he
  refine ⟨hc, ?_⟩
  rw [Loop.hosted] at hop
  split at hop
  · next hk =>
    cases hop
    exact hk
  · cases hop

theorem rounds_cons (generation : Generation L) (more : List (Generation L)) (spent : Spent)
    (marker : Nat) : ∃ outputs : List ToolOutput,
      (outputs = [] ∨ (∃ generated, generation.ended = .finished .eos generated) ∧
        ∃ spent', outputs = (runCalls loop generation
          (hostedCalls loop (forward generation.events)) spent' marker).1) ∧
      (rounds loop (generation :: more) spent marker = .ends ⟨generation.events, outputs⟩ ∨
        outputs ≠ [] ∧
          (rounds loop (generation :: more) spent marker =
              .after ⟨generation.events, outputs⟩ (.ends ⟨[], []⟩) ∨
            ∃ spent' marker', rounds loop (generation :: more) spent marker =
              .after ⟨generation.events, outputs⟩ (rounds loop more spent' marker'))) := by
  rw [rounds]
  cases generation.ended with
  | failed => exact ⟨[], .inl rfl, .inl rfl⟩
  | gone => exact ⟨[], .inl rfl, .inl rfl⟩
  | finished stopReason generated =>
    simp only
    generalize hh : hostedCalls loop (forward generation.events) = hosted
    split
    · exact ⟨[], .inl rfl, .inl rfl⟩
    · next hc =>
      have hs : hosted ≠ [] := by
        intro hn
        simp [hn] at hc
      split
      · exact ⟨[], .inl rfl, .inl rfl⟩
      · generalize hsp : ({ spent with generated := spent.generated + generated } : Spent) = spent₁
        have ha : ∃ run, runCalls loop generation hosted spent₁ marker = run := ⟨_, rfl⟩
        obtain ⟨⟨outputs, next⟩, hr⟩ := ha
        have ho : outputs = (runCalls loop generation hosted spent₁ marker).1 := by
          rw [hr]
        have heos : stopReason = .eos := by
          by_contra hne
          simp [hne] at hc
        refine ⟨outputs, .inr ⟨⟨generated, by rw [heos]⟩, spent₁, ho⟩, ?_⟩
        rw [hr]
        cases next with
        | none => exact .inl rfl
        | some next =>
          obtain ⟨spent₂, marker₂⟩ := next
          have hne : outputs ≠ [] := by
            intro hn
            have hl := runCalls_length hr
            rw [hn] at hl
            exact hs (eq_nil_of_length_eq_zero hl.symm)
          simp only
          split
          · exact .inl rfl
          · split
            · exact .inl rfl
            · split
              · exact .inr ⟨hne, .inl rfl⟩
              · exact .inr ⟨hne, .inr ⟨_, _, rfl⟩⟩

/-- A round is of a generation, and only one that ends its turn has outputs, of its calls. -/
structure RoundOk (generations : List (Generation L)) (round : Round L) : Prop where
  events : round.events = [] ∨ ∃ generation ∈ generations, round.events = generation.events
  outputs : ∀ output ∈ round.outputs, ∃ call ∈ (forward round.events).calls, output.name = call.name
  eos : round.outputs ≠ [] → ∃ generation ∈ generations,
    (∃ generated, generation.ended = .finished .eos generated) ∧ round.events = generation.events

structure TraceOk (generations : List (Generation L)) (trace : Trace L) : Prop where
  rounds : ∀ round ∈ trace.rounds, RoundOk generations round
  appended : ∀ round ∈ trace.appended, round.outputs ≠ []

theorem RoundOk.mono {generations more : List (Generation L)} {round : Round L}
    (h : RoundOk generations round) (hs : generations ⊆ more) : RoundOk more round := by
  refine ⟨h.events.imp_right ?_, h.outputs, fun ho => ?_⟩
  · rintro ⟨generation, hg, heq⟩
    exact ⟨generation, hs hg, heq⟩
  · obtain ⟨generation, hg, hended⟩ := h.eos ho
    exact ⟨generation, hs hg, hended⟩

theorem TraceOk.ends {generations : List (Generation L)} {round : Round L}
    (h : RoundOk generations round) : TraceOk generations (.ends round) :=
  ⟨fun other hr => by rwa [mem_singleton.mp hr], nofun⟩

theorem TraceOk.after {generation : Generation L} {more : List (Generation L)} {round : Round L}
    {trace : Trace L} (h : RoundOk (generation :: more) round) (hne : round.outputs ≠ [])
    (ht : TraceOk more trace) : TraceOk (generation :: more) (.after round trace) :=
  ⟨forall_mem_cons.mpr ⟨h, fun other hr => (ht.rounds other hr).mono (subset_cons_self _ _)⟩,
    forall_mem_cons.mpr ⟨hne, ht.appended⟩⟩

theorem rounds_ok {generations : List (Generation L)}
    (hp : ∀ generation ∈ generations, ∀ call ∈ (forward generation.events).calls,
      plainKind (loop.kinds.kind call.name) = true) (spent : Spent) (marker : Nat) :
    TraceOk generations (rounds loop generations spent marker) := by
  have hemp : ∀ gens : List (Generation L), TraceOk gens (.ends ⟨[], []⟩) := fun gens =>
    .ends ⟨.inl rfl, nofun, fun ho => absurd rfl ho⟩
  induction generations generalizing spent marker with
  | nil => exact hemp []
  | cons generation more ih =>
    obtain ⟨outputs, hou, hc⟩ := @rounds_cons L loop generation more spent marker
    have hr : RoundOk (generation :: more) ⟨generation.events, outputs⟩ := by
      refine ⟨.inr ⟨generation, mem_cons_self .., rfl⟩, fun output ho => ?_, fun ho => ?_⟩
      · rcases hou with rfl | ⟨-, spent', rfl⟩
        · cases ho
        · have hs : ∀ entry ∈ hostedCalls loop (forward generation.events),
              entry.2 ≠ .fileSearch := by
            intro entry he hf
            obtain ⟨hm, hk⟩ := mem_hostedCalls he
            have := hp generation (mem_cons_self ..) entry.1 hm
            rw [hk, hf] at this
            cases this
          obtain ⟨entry, he, hna⟩ := runCalls_names hs spent' marker output ho
          exact ⟨entry.1, (mem_hostedCalls he).1, hna⟩
      · rcases hou with hnil | ⟨hended, -⟩
        · exact absurd hnil ho
        · exact ⟨generation, mem_cons_self .., hended, rfl⟩
    rcases hc with heq | ⟨hne, heq | ⟨spent', marker', heq⟩⟩
    · rw [heq]
      exact .ends hr
    · rw [heq]
      exact .after hr hne (hemp more)
    · rw [heq]
      exact .after hr hne (ih (fun other hoth => hp other (mem_cons_of_mem _ hoth)) spent' marker')

end Rounds

/-! ### What a run says -/

theorem sayText_append (hc : Closed log) (front : List Said) (kind : ItemKind) (piece : Text) :
    sayText kind piece (front ++ log) = sayText kind piece front ++ log := by
  cases front with
  | nil =>
    rw [nil_append, sayText_new (hc kind)]
    cases kind <;> rfl
  | cons said =>
    cases kind with
    | reasoning =>
      cases said with
      | _ => rfl
    | message =>
      cases said with
      | _ => rfl

theorem foldl_say_append (hc : Closed log) (front : List Said) (signals : List (State.Signal L)) :
    signals.foldl say (front ++ log) = signals.foldl say front ++ log := by
  induction signals generalizing front with
  | nil => rfl
  | cons signal signals ih =>
    have hs : say (front ++ log) signal = say front signal ++ log := by
      cases signal with
      | engine event =>
        cases event with
        | content piece => exact sayText_append hc front .message piece
        | reasoning piece => exact sayText_append hc front .reasoning piece
        | _ => rfl
      | toolOutput => rfl
    rw [foldl_cons, foldl_cons, hs, ih]

theorem mem_say {log : List Said} {signal : State.Signal L} {said : Said}
    (h : said ∈ say log signal) : said ∈ log ∨ (∃ kind text, said = Said.text kind text) ∨
      (∃ call, said = .call call ∧ signal = .engine (.toolCall call)) ∨
      ∃ output, said = .output output := by
  have ht : ∀ kind piece, said ∈ sayText kind piece log →
      said ∈ log ∨ ∃ kind text, said = Said.text kind text := by
    intro kind piece hm
    unfold sayText at hm
    split at hm
    · rcases mem_cons.mp hm with rfl | hm
      · exact .inr ⟨.reasoning, _, rfl⟩
      · exact .inl (mem_cons_of_mem _ hm)
    · rcases mem_cons.mp hm with rfl | hm
      · exact .inr ⟨.message, _, rfl⟩
      · exact .inl (mem_cons_of_mem _ hm)
    · rcases mem_cons.mp hm with rfl | hm
      · exact .inr ⟨kind, _, rfl⟩
      · exact .inl hm
  cases signal with
  | toolOutput output =>
    rcases mem_cons.mp h with rfl | hm
    · exact .inr (.inr (.inr ⟨output, rfl⟩))
    · exact .inl hm
  | engine event =>
    cases event with
    | content => exact (ht _ _ h).imp_right .inl
    | reasoning => exact (ht _ _ h).imp_right .inl
    | toolCallDelta => exact .inl h
    | logprobs => exact .inl h
    | toolCall call =>
      rcases mem_cons.mp h with rfl | hm
      · exact .inr (.inr (.inl ⟨call, rfl, rfl⟩))
      · exact .inl hm

theorem call_mem_foldl_say {signals : List (State.Signal L)} {log : List Said}
    (h : .call call ∈ signals.foldl say log) :
    .call call ∈ log ∨ .engine (.toolCall call) ∈ signals := by
  induction signals generalizing log with
  | nil => exact .inl h
  | cons signal signals ih =>
    rcases ih h with hlog | hl
    · rcases mem_say hlog with hb | ⟨kind, text, heq⟩ | ⟨other, heq, rfl⟩ | ⟨output, heq⟩
      · exact .inl hb
      · cases kind <;> cases heq
      · cases heq
        exact .inr (mem_cons_self ..)
      · cases heq
    · exact .inr (mem_cons_of_mem _ hl)

theorem cut_mem_foldl_say {signals : List (State.Signal L)} {log : List Said} {id : CallId}
    {name text : Text} (h : .cut id name text ∈ signals.foldl say log) :
    .cut id name text ∈ log := by
  induction signals generalizing log with
  | nil => exact h
  | cons signal signals ih =>
    rcases mem_say (ih h) with hb | ⟨kind, said, heq⟩ | ⟨call, heq, -⟩ | ⟨output, heq⟩
    · exact hb
    · cases kind <;> cases heq
    · cases heq
    · cases heq

theorem foldl_say_outputs (log : List Said) (outputs : List ToolOutput) :
    (outputs.map (State.Signal.toolOutput (L := L))).foldl say log =
      (outputs.map Said.output).reverse ++ log := by
  induction outputs generalizing log with
  | nil => rfl
  | cons output outputs ih =>
    rw [map_cons, foldl_cons, ih]
    simp [say]

section Whole

variable (printed : CallId → Text)

def outputEntry (output : ToolOutput) : Entry D :=
  .output (printed output.callId) ⟨output.content, []⟩

def roundEntries (round : Round L) : List (Entry D) :=
  eventEntries printed round.events ++ round.outputs.map (outputEntry printed)

variable {log : List Said}

theorem foldl_say_round (hc : Closed log) (round : Round L) : round.sent.foldl say log =
      (round.outputs.map Said.output).reverse ++ eventLog round.events ++ log := by
  rw [Round.sent, foldl_append, foldl_say_outputs, eventLog]
  have ha := foldl_say_append hc [] (round.events.map State.Signal.engine)
  rw [nil_append] at ha
  rw [ha, append_assoc]

theorem entries_round (hc : Closed log) (round : Round L) :
    (round.sent.foldl say log).reverse.filterMap (saidEntry (D := D) printed) =
      log.reverse.filterMap (saidEntry printed) ++ roundEntries printed round := by
  have ho : (round.outputs.map Said.output).filterMap (saidEntry (D := D) printed) =
      round.outputs.map (outputEntry printed) := by
    rw [filterMap_map]
    exact congrFun filterMap_eq_map round.outputs
  rw [foldl_say_round hc, reverse_append, reverse_append, reverse_reverse,
    filterMap_append, filterMap_append, ho]
  rfl

variable {round : Round L}

theorem closed_round (hc : Closed log)
    (ho : round.outputs ≠ []) : Closed (round.sent.foldl say log) := by
  obtain ⟨outputs, output, heq⟩ := (eq_nil_or_concat' round.outputs).resolve_left ho
  rw [foldl_say_round hc, heq]
  intro kind text h
  cases kind <;> simp [Said.text] at h

theorem entries_rounds (hc : Closed log) (front : List (Round L))
    (hf : ∀ round ∈ front, round.outputs ≠ []) (last : Round L) :
    (((front ++ [last]).flatMap Round.sent).foldl say log).reverse.filterMap
        (saidEntry (D := D) printed) =
      log.reverse.filterMap (saidEntry printed) ++
        (front ++ [last]).flatMap (roundEntries printed) := by
  induction front generalizing log with
  | nil =>
    rw [nil_append, flatMap_singleton, flatMap_singleton]
    exact entries_round printed hc last
  | cons round front ih =>
    have hr := hf round (mem_cons_self ..)
    rw [cons_append, flatMap_cons, foldl_append,
      ih (closed_round hc hr) fun other ho => hf other (mem_cons_of_mem _ ho),
      entries_round printed hc, flatMap_cons, append_assoc]

theorem entries_said (echo : Echo) {trace : Trace L}
    (ha : ∀ round ∈ trace.appended, round.outputs ≠ []) :
    (said echo trace).reverse.filterMap (saidEntry (D := D) printed) =
      trace.rounds.flatMap (roundEntries printed) := by
  have hcl : Closed (openingLog echo) := by
    intro kind text h
    cases hc : echo.compaction with
    | none => simp [openingLog, hc] at h
    | some =>
      simp only [openingLog, hc] at h
      cases kind <;> cases h
  have ho : (openingLog echo).reverse.filterMap (saidEntry (D := D) printed) = [] := by
    cases hc : echo.compaction with
    | none => simp [openingLog, hc]
    | some => simp [openingLog, hc, saidEntry]
  rw [said, Trace.sent, Trace.rounds, entries_rounds printed hcl trace.appended ha, ho, nil_append]

/-! ### The messages of a run -/

theorem rest_outputs (outputs : List ToolOutput) (es : List (Entry D)) :
    History.rest .empty (outputs.map (outputEntry printed) ++ es) =
      outputs.map (toolMessage printed) ++ History.rest .empty es := by
  induction outputs with
  | nil => rfl
  | cons output outputs ih =>
    rw [map_cons, cons_append, History.rest]
    exact congrArg (toolMessage printed output :: ·) ih

def gotMessages (round : Round L) : List (Message D) :=
  History.rest .empty (eventEntries printed round.events) ++ round.outputs.map (toolMessage printed)

theorem rest_round (round : Round L) (es : List (Entry D)) (h : round.outputs ≠ [] ∨ es = []) :
    History.rest .empty (roundEntries printed round ++ es) =
      gotMessages printed round ++ History.rest .empty es := by
  have hevs : History.rest .empty (eventEntries (D := D) printed round.events) =
      (History.after (eventEntries printed round.events)).messages ++
        History.flush (History.after (eventEntries printed round.events)).turn := by
    have ha := History.rest_append (eventEntries (D := D) printed round.events) []
    rwa [List.append_nil] at ha
  rw [roundEntries, gotMessages, List.append_assoc, List.append_assoc]
  cases ho : round.outputs with
  | nil =>
    rw [ho] at h
    have hes : es = [] := by simpa using h
    rw [hes, List.map_nil, List.map_nil, List.append_nil, List.append_nil, List.nil_append]
    exact (List.append_nil _).symm
  | cons output outputs =>
    rw [← rest_outputs printed (output :: outputs) es, List.map_cons, List.cons_append,
      History.rest_append, History.rest_of_not_joins (History.after_ok _) (by rfl), hevs,
      List.append_assoc]

theorem rest_rounds (front : List (Round L)) (hf : ∀ round ∈ front, round.outputs ≠ [])
    (last : Round L) :
    History.rest .empty ((front ++ [last]).flatMap (roundEntries (D := D) printed)) =
      (front ++ [last]).flatMap (gotMessages printed) := by
  induction front with
  | nil =>
    have hl := rest_round (D := D) printed last [] (.inr rfl)
    rw [List.append_nil] at hl
    rw [List.nil_append, List.flatMap_singleton, List.flatMap_singleton, hl]
    exact List.append_nil _
  | cons round front ih =>
    rw [List.cons_append, List.flatMap_cons, List.flatMap_cons,
      rest_round printed round _ (.inl (hf round (List.mem_cons_self ..))),
      ih fun other ho => hf other (List.mem_cons_of_mem _ ho)]

def wantMessages (round : Round L) : List (Message D) :=
  if (forward round.events).isEmpty then []
  else roundMessages printed (forward round.events) round.outputs

theorem got_eq_want (hs : SpokenPrefix round.events)
    (ho : round.outputs ≠ [] → (forward round.events).isEmpty = false)
    (ha : contentAfterCall round.events = false) :
    gotMessages (D := D) printed round = wantMessages printed round := by
  rw [gotMessages, wantMessages, rest_events hs ha]
  by_cases he : (forward round.events).isEmpty = true
  · have hn : round.outputs = [] := by
      by_contra hne
      rw [ho hne] at he
      cases he
    rw [if_pos he, if_pos he, hn]
    rfl
  · rw [if_neg he, if_neg he]
    rfl

theorem want_lt_got (hs : SpokenPrefix round.events) (ha : contentAfterCall round.events = true) :
    (wantMessages (D := D) printed round).length < (gotMessages (D := D) printed round).length := by
  have hb := @rest_broken D printed _ (eventLog_broken hs ha)
  rw [gotMessages, wantMessages, length_append, length_map]
  split
  · rw [length_nil]
    exact Nat.lt_of_lt_of_le (by omega) (Nat.le_add_right_of_le hb)
  · rw [roundMessages, length_cons, length_map]
    have : 2 ≤ (History.rest .empty (eventEntries (D := D) printed round.events)).length := hb
    omega

theorem flatMap_length_le {α β : Type} {f g : α → List β} {xs : List α}
    (h : ∀ x ∈ xs, (g x).length ≤ (f x).length) :
    (xs.flatMap g).length ≤ (xs.flatMap f).length := by
  induction xs with
  | nil => exact le_rfl
  | cons x xs ih =>
    have hx := h x (mem_cons_self ..)
    have hr := ih fun y hy => h y (mem_cons_of_mem _ hy)
    simp only [flatMap_cons, length_append]
    omega

theorem flatMap_eq_iff {α β : Type} {f g : α → List β} {ok : α → Prop} {xs : List α}
    (heq : ∀ x ∈ xs, ok x → f x = g x) (hlt : ∀ x ∈ xs, ¬ ok x → (g x).length < (f x).length) :
    xs.flatMap f = xs.flatMap g ↔ ∀ x ∈ xs, ok x := by
  have hle : ∀ x ∈ xs, (g x).length ≤ (f x).length := by
    intro x hx
    by_cases hok : ok x
    · rw [heq x hx hok]
    · exact Nat.le_of_lt (hlt x hx hok)
  constructor
  · intro h
    by_contra hn
    have hlen := congrArg length h
    clear h heq
    induction xs with
    | nil => simp at hn
    | cons x xs ih =>
      simp only [flatMap_cons, length_append] at hlen
      have hx := hle x (mem_cons_self ..)
      have hr := flatMap_length_le fun y hy => hle y (mem_cons_of_mem _ hy)
      by_cases hok : ok x
      · refine ih (fun y hy => hlt y (mem_cons_of_mem _ hy))
          (fun y hy => hle y (mem_cons_of_mem _ hy)) ?_ (by omega)
        intro ha
        refine hn fun y hy => ?_
        rcases mem_cons.mp hy with rfl | hy
        · exact hok
        · exact ha y hy
      · have := hlt x (mem_cons_self ..) hok
        omega
  · intro hok
    exact flatMap_congr fun x hx => heq x hx (hok x hx)

end Whole

/-! ### The calls of a run -/

section Calls

def Said.call? : Said → Option ToolCall
  | .call call => some call
  | _ => none

theorem sayText_calls (kind : ItemKind) (piece : Text) (log : List Said) :
    (sayText kind piece log).filterMap Said.call? = log.filterMap Said.call? := by
  unfold sayText
  split
  · rfl
  · rfl
  · cases kind <;> rfl

theorem eventLog_calls (events : List (Event L)) :
    (eventLog events).filterMap Said.call? = (forward events).calls.reverse := by
  induction events using reverseRecOn with
  | nil => rfl
  | append_singleton events event ih =>
    rw [eventLog_snoc, forward_snoc]
    cases event with
    | reasoning piece => exact (sayText_calls .reasoning piece _).trans ih
    | content piece => exact (sayText_calls .message piece _).trans ih
    | toolCall call =>
      have hs : Said.call? (.call call) = some call := rfl
      simp only [say, Turn.hear, reverse_append, reverse_singleton, singleton_append]
      rw [filterMap_cons_some hs, ih]
    | toolCallDelta => exact ih
    | logprobs => exact ih

variable (printed : CallId → Text)

def roundCalls (round : Round L) : List Text :=
  (forward round.events).calls.map fun call => printed call.id

theorem callIds_entries (round : Round L) :
    (roundEntries (D := D) printed round).filterMap (fun e => e.callId?.or e.answeredId?) =
      roundCalls printed round := by
  have hs : ∀ said : Said,
      ((saidEntry (D := D) printed said).bind fun e => e.callId?.or e.answeredId?) =
        said.call?.map fun call => printed call.id := by
    intro said
    cases said <;> rfl
  have ho : (round.outputs.map (outputEntry (D := D) printed)).filterMap
      (fun e => e.callId?.or e.answeredId?) = [] := by
    rw [filterMap_map]
    exact filterMap_eq_nil_iff.mpr fun output _ => rfl
  rw [roundEntries, filterMap_append, ho, List.append_nil, eventEntries, filterMap_filterMap]
  simp only [hs]
  rw [← map_filterMap, filterMap_reverse, eventLog_calls, reverse_reverse]
  rfl

theorem callIds_want (round : Round L) :
    History.callIds (wantMessages (D := D) printed round) = roundCalls printed round := by
  have ho : History.callIds (round.outputs.map (toolMessage (D := D) printed)) = [] := by
    rw [History.callIds, flatMap_map]
    exact flatMap_eq_nil_iff.mpr fun output _ => rfl
  rw [wantMessages]
  split
  · next he =>
    have hc : (forward round.events).calls = [] := by
      simp only [Turn.isEmpty, Bool.and_eq_true, List.isEmpty_iff] at he
      exact he.2
    rw [roundCalls, hc]
    rfl
  · show (assistantMessage (D := D) printed (forward round.events)).calls.map History.Call.id ++
      History.callIds (round.outputs.map (toolMessage printed)) = _
    rw [ho, List.append_nil, assistantMessage, map_map]
    rfl

theorem callIds_rounds (rounds : List (Round L)) :
    (rounds.flatMap (roundEntries (D := D) printed)).filterMap
        (fun e => e.callId?.or e.answeredId?) =
      History.callIds (rounds.flatMap (wantMessages (D := D) printed)) := by
  induction rounds with
  | nil => rfl
  | cons round rounds ih =>
    rw [flatMap_cons, flatMap_cons, filterMap_append, ih, History.callIds_append,
      callIds_entries, callIds_want]

end Calls

/-! ### The replay -/

/-- A loop over plain functions, hosted functions and custom tools, and what the engine can
generate for it. -/
structure RunOk (env : Env) (echo : Echo) (loop : Loop) (generations : List (Generation L)) :
    Prop where
  kinds : loop.kinds = echo.kinds
  qualified : Qualified echo.kinds
  spoken : ∀ generation ∈ generations, Spoken generation.events
  /-- A generation that ends its turn inside of a call fails. -/
  whole : ∀ generation ∈ generations, ∀ generated, generation.ended = .finished .eos generated →
    Whole generation.events
  plain : ∀ generation ∈ generations, ∀ event ∈ generation.events,
    plainEvent echo.kinds event = true
  calls : ∀ generation ∈ generations, ∀ call, .toolCall call ∈ generation.events →
    CallOk env echo.kinds call

section Replay

variable {env : Env} {echo : Echo} {loop : Loop} {generations : List (Generation L)}

theorem RunOk.trace (h : RunOk env echo loop generations) :
    TraceOk generations (run loop generations) := by
  refine rounds_ok ?_ _ _
  intro generation hg call hc
  rw [h.kinds]
  exact h.plain generation hg _ (mem_forward_calls.mp hc)

theorem RunOk.round (h : RunOk env echo loop generations) {P : List (Event L) → Prop}
    (hn : P []) (ha : ∀ generation ∈ generations, P generation.events) :
    ∀ round ∈ (run loop generations).rounds, P round.events := by
  intro round hr
  rcases (h.trace.rounds round hr).events with hemp | ⟨generation, hg, heq⟩
  · rw [hemp]
    exact hn
  · rw [heq]
    exact ha generation hg

theorem RunOk.spokenPrefix (h : RunOk env echo loop generations) :
    ∀ round ∈ (run loop generations).rounds, SpokenPrefix round.events := by
  refine h.round ⟨List.Pairwise.nil, fun piece hp => ?_⟩ fun generation hg => ?_
  · simp at hp
  · exact ⟨(h.spoken generation hg).reasoning, (h.spoken generation hg).pieces⟩

theorem RunOk.roundPlain (h : RunOk env echo loop generations) {round : Round L}
    (hr : round ∈ (run loop generations).rounds) {last : Option (CallId × Text)}
    (hs : Streams last none round.events) (hl : last ≠ none → round.outputs = []) :
    RoundPlain echo.kinds last round := by
  have he : ∀ event ∈ round.events, plainEvent echo.kinds event = true :=
    h.round (P := fun events => ∀ event ∈ events, plainEvent echo.kinds event = true) (by simp)
      h.plain round hr
  refine ⟨hs, he, ?_, hl⟩
  intro output ho hsh
  obtain ⟨call, hc, hn⟩ := (h.trace.rounds round hr).outputs output ho
  have hp := he _ (mem_forward_calls.mp hc)
  rw [plainEvent, ← hn, hsh] at hp
  cases hp

theorem RunOk.whole_of_outputs (h : RunOk env echo loop generations) {round : Round L}
    (hr : round ∈ (run loop generations).rounds) (ho : round.outputs ≠ []) :
    Whole round.events := by
  obtain ⟨generation, hg, ⟨generated, hended⟩, heq⟩ := (h.trace.rounds round hr).eos ho
  rw [heq]
  exact h.whole generation hg generated hended

theorem RunOk.appended_whole (h : RunOk env echo loop generations) :
    ∀ round ∈ (run loop generations).appended, Whole round.events :=
  fun round hr => h.whole_of_outputs (mem_append_left _ hr) (h.trace.appended round hr)

theorem RunOk.appended_plain (h : RunOk env echo loop generations) :
    ∀ round ∈ (run loop generations).appended, RoundPlain echo.kinds none round :=
  fun round hr => h.roundPlain (mem_append_left _ hr) (h.appended_whole round hr)
    fun hne => absurd rfl hne

theorem RunOk.outputs_turn (h : RunOk env echo loop generations) :
    ∀ round ∈ (run loop generations).rounds,
      round.outputs ≠ [] → (forward round.events).isEmpty = false := by
  intro round hr hne
  obtain ⟨output, ho⟩ := exists_mem_of_ne_nil _ hne
  obtain ⟨call, hca, -⟩ := (h.trace.rounds round hr).outputs output ho
  have hc : (forward round.events).calls ≠ [] := ne_nil_of_mem hca
  simp [Turn.isEmpty, hc]

theorem RunOk.said_calls (h : RunOk env echo loop generations) :
    ∀ call, .call call ∈ said echo (run loop generations) → CallOk env echo.kinds call := by
  intro call hc
  rcases call_mem_foldl_say hc with ho | hs
  · simp [openingLog] at ho
  · rw [Trace.sent, mem_flatMap] at hs
    obtain ⟨round, hr, hm⟩ := hs
    have hev : .toolCall call ∈ round.events := by simpa [Round.sent] using hm
    exact h.round (P := fun events => ∀ call, .toolCall call ∈ events → CallOk env echo.kinds call)
      (by simp) h.calls round hr call hev

theorem said_cut (trace : Trace L) (id : CallId) (name text : Text) :
    .cut id name text ∉ said echo trace := by
  intro h
  have ho := cut_mem_foldl_say h
  simp [openingLog] at ho

theorem last_mem_rounds (trace : Trace L) : trace.last ∈ trace.rounds :=
  mem_append_right _ (mem_singleton_self _)

theorem RunOk.replayed (h : RunOk env echo loop generations)
    (hw : Whole (run loop generations).last.events) (media : Media D)
    (printed : CallId → Text) (logprob : L → Json) (streaming background : Bool) (ending : Ending) :
    replayed env media printed logprob
        (response echo streaming background (run loop generations) ending).output =
      some (.ok ((run loop generations).rounds.flatMap (gotMessages printed))) := by
  have hl := h.roundPlain (last_mem_rounds _) hw fun hne => absurd rfl hne
  obtain ⟨text, hs⟩ := response_saysAll h.appended_plain hl streaming background ending
  rw [replayed_eq h.qualified h.said_calls (said_cut _) hs,
    entries_said printed echo h.trace.appended]
  rw [Trace.rounds, rest_rounds printed _ h.trace.appended]

theorem RunOk.replayed_cut (h : RunOk env echo loop generations)
    (hw : ¬ Whole (run loop generations).last.events) (media : Media D)
    (printed : CallId → Text) (logprob : L → Json) (streaming background : Bool)
    (ending : Ending) {messages : List (Message D)}
    (hr : ToolLoop.replayed env media printed logprob
        (response echo streaming background (run loop generations) ending).output =
      some (.ok messages)) : ∃ call, messages = History.rest .empty
      ((run loop generations).rounds.flatMap (roundEntries printed) ++ [.call call]) := by
  have hm := last_mem_rounds (run loop generations)
  obtain ⟨last, hs⟩ := h.round (P := fun events => ∃ last, Streams last none events) ⟨none, rfl⟩
    (fun generation hg => (h.spoken generation hg).streams) _ hm
  have ho : (run loop generations).last.outputs = [] := by
    by_contra hne
    exact hw (h.whole_of_outputs hm hne)
  obtain ⟨text, hsa⟩ := response_saysAll h.appended_plain (h.roundPlain hm hs fun _ => ho)
    streaming background ending
  cases last with
  | none => exact absurd hs hw
  | some called =>
    obtain ⟨id, name⟩ := called
    obtain ⟨call, hc⟩ := ToolLoop.replayed_cut h.qualified h.said_calls (said_cut _) hsa hr
    rw [entries_said printed echo h.trace.appended] at hc
    exact ⟨call, hc⟩

theorem RunOk.messages (h : RunOk env echo loop generations) (printed : CallId → Text) :
    (run loop generations).messages printed ++ (run loop generations).lastTurn printed =
      (run loop generations).rounds.flatMap (wantMessages (D := D) printed) := by
  rw [Trace.rounds, flatMap_append, flatMap_singleton, Trace.messages, Trace.lastTurn]
  congr 1
  refine flatMap_congr fun round hr => ?_
  have ht := h.outputs_turn round (mem_append_left _ hr) (h.trace.appended round hr)
  rw [wantMessages, if_neg (by simp [ht])]

/-- The messages of a Response's own items are the messages the loop appended, followed by its
last turn, exactly when in none of its rounds text of the answer follows a call or the events end
inside of a call. -/
theorem replays_iff (h : RunOk env echo loop generations) (media : Media D)
    (printed : CallId → Text) (logprob : L → Json) (streaming background : Bool) (ending : Ending) :
    replayed env media printed logprob
        (response echo streaming background (run loop generations) ending).output =
      some (.ok ((run loop generations).messages printed ++
        (run loop generations).lastTurn printed)) ↔
      ∀ round ∈ (run loop generations).rounds,
        contentAfterCall round.events = false ∧ Whole round.events := by
  rw [h.messages printed]
  by_cases hw : Whole (run loop generations).last.events
  · have hall : ∀ round ∈ (run loop generations).rounds, Whole round.events := by
      intro round hr
      rcases mem_append.mp hr with hr | hr
      · exact h.appended_whole round hr
      · obtain rfl := mem_singleton.mp hr
        exact hw
    rw [h.replayed hw media printed logprob streaming background ending, Option.some.injEq,
      Except.ok.injEq]
    have hiff : (run loop generations).rounds.flatMap (gotMessages (D := D) printed) =
        (run loop generations).rounds.flatMap (wantMessages printed) ↔
          ∀ round ∈ (run loop generations).rounds, contentAfterCall round.events = false := by
      refine flatMap_eq_iff ?_ ?_
      · intro round hr ha
        exact got_eq_want printed (h.spokenPrefix round hr) (h.outputs_turn round hr) ha
      · intro round hr ha
        exact want_lt_got printed (h.spokenPrefix round hr) (by simpa using ha)
    rw [hiff]
    exact ⟨fun ha round hr => ⟨ha round hr, hall round hr⟩, fun ha round hr => (ha round hr).1⟩
  · refine ⟨fun hr => ?_, fun ha => absurd (ha _ (last_mem_rounds _)).2 hw⟩
    -- the call that was cut off is one too many
    obtain ⟨call, heq⟩ := h.replayed_cut hw media printed logprob streaming background ending hr
    have hids := congrArg (fun messages => (History.callIds messages).length) heq
    rw [History.callIds_rest History.Turn.Ok.empty, filterMap_append, callIds_rounds] at hids
    simp [History.Turn.empty, History.Entry.callId?] at hids

end Replay

/-! ### A listing -/

def listKinds : Kinds where
  kind := fun name => if name = "local_fs_list".toList then .hosted .list else .function
  namespaced := fun _ => none

def listEcho : Echo where
  stem := "1".toList
  compaction := none
  summary := false
  kinds := listKinds
  cipher := none
  fileSearchResults := false

def listLoop : Loop where
  kinds := listKinds
  bounds := ⟨8, 60⟩
  maxCalls := none
  maxTokens := 100
  denied := fun _ => "no further call".toList
  request := fun _ _ => .ok ()

def listCall : ToolCall := ⟨0, "local_fs_list".toList, .object []⟩

/-- A generation that ends its turn; its calls find an empty directory. -/
def listGeneration (events : List (Event Unit)) : Generation Unit where
  events := events
  ended := .finished .eos 5
  beforeTools := none
  runs := fun _ => some ⟨1, .ok ⟨"empty".toList, []⟩⟩
  search := fun _ _ _ => none
  cancelled := false
  refused := none

def listAnswer : Generation Unit := listGeneration [.content "Nothing is there.".toList]

/-- The model thinks, says what it does and calls. -/
def listAsked : List (Generation Unit) :=
  [listGeneration [.reasoning "Look first.".toList, .content "I look.".toList, .toolCall listCall],
    listAnswer]

/-- The model calls and says what it has done. -/
def listTold : List (Generation Unit) :=
  [listGeneration [.toolCall listCall, .content "I look.".toList], listAnswer]

def listFinish : Ending := .finish ⟨.eos, none, none, none⟩

theorem callOk_listCall : CallOk History.braceEnv listKinds listCall := by
  refine ⟨fun h => ?_, fun _ => rfl⟩
  cases h

theorem runOk_list {generations : List (Generation Unit)}
    (hs : ∀ generation ∈ generations, Spoken generation.events ∧ Whole generation.events)
    (hca : ∀ generation ∈ generations, ∀ event ∈ generation.events,
      match event with
      | .toolCall call => call = listCall
      | .toolCallDelta _ => False
      | _ => True) : RunOk History.braceEnv listEcho listLoop generations := by
  refine ⟨rfl, nofun, fun generation hg => (hs generation hg).1,
    fun generation hg _ _ => (hs generation hg).2, ?_, ?_⟩
  · intro generation hg event hev
    have hc := hca generation hg event hev
    cases event with
    | toolCall call =>
      obtain rfl : call = listCall := hc
      rfl
    | toolCallDelta => exact hc.elim
    | _ => rfl
  · intro generation hg call hc
    obtain rfl : call = listCall := hca generation hg _ hc
    exact callOk_listCall

theorem spoken_listAnswer : Spoken listAnswer.events ∧ Whole listAnswer.events :=
  ⟨⟨by decide, by simp [listAnswer, listGeneration], none, rfl, rfl⟩, rfl, rfl⟩

theorem spoken_listAsked :
    ∀ generation ∈ listAsked, Spoken generation.events ∧ Whole generation.events := by
  intro generation hg
  rcases mem_cons.mp hg with rfl | hl
  · exact ⟨⟨by decide, by simp [listGeneration], none, rfl, rfl, .inl rfl, rfl⟩,
      rfl, rfl, .inl rfl, rfl⟩
  · obtain rfl := mem_singleton.mp hl
    exact spoken_listAnswer

theorem runOk_listAsked : RunOk History.braceEnv listEcho listLoop listAsked :=
  runOk_list spoken_listAsked (by simp [listAsked, listAnswer, listGeneration])

theorem spoken_listTold :
    ∀ generation ∈ listTold, Spoken generation.events ∧ Whole generation.events := by
  intro generation hg
  rcases mem_cons.mp hg with rfl | hl
  · exact ⟨⟨by decide, by simp [listGeneration], none, .inl rfl, rfl, rfl⟩, .inl rfl, rfl, rfl⟩
  · obtain rfl := mem_singleton.mp hl
    exact spoken_listAnswer

theorem runOk_listTold : RunOk History.braceEnv listEcho listLoop listTold :=
  runOk_list spoken_listTold (by simp [listTold, listAnswer, listGeneration])

theorem replays_listing : RunOk History.braceEnv listEcho listLoop listAsked ∧
    replayed History.braceEnv History.noMedia (Nat.toDigits 10) (fun _ => .null)
        (response listEcho true false (run listLoop listAsked) listFinish).output =
      some (.ok ((run listLoop listAsked).messages (Nat.toDigits 10) ++
        (run listLoop listAsked).lastTurn (Nat.toDigits 10))) := by
  have ha : ∀ round ∈ (run listLoop listAsked).rounds, contentAfterCall round.events = false := by
    decide
  have hw := runOk_listAsked.round (P := Whole) rfl fun generation hg =>
    (spoken_listAsked generation hg).2
  exact ⟨runOk_listAsked,
    (replays_iff runOk_listAsked ..).mpr fun round hr => ⟨ha round hr, hw round hr⟩⟩

theorem replay_splits_turn : RunOk History.braceEnv listEcho listLoop listTold ∧
    replayed History.braceEnv History.noMedia (Nat.toDigits 10) (fun _ => .null)
        (response listEcho true false (run listLoop listTold) listFinish).output ≠
      some (.ok ((run listLoop listTold).messages (Nat.toDigits 10) ++
        (run listLoop listTold).lastTurn (Nat.toDigits 10))) := by
  refine ⟨runOk_listTold, fun h => ?_⟩
  have hw := runOk_listTold.round (P := Whole) rfl
    (fun generation hg => (spoken_listTold generation hg).2)
    _ (last_mem_rounds _)
  rw [runOk_listTold.replayed hw, Option.some.injEq, Except.ok.injEq] at h
  have hl := congrArg length h
  exact absurd hl (by decide)

end LocalAi.ToolLoop
