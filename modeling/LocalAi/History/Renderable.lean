import LocalAi.History.Compaction
import LocalAi.History.Turns

/-!
# What a compaction keeps

The cut rules of `plan` name function calls and their outputs only, while the messages are
folded from calls and outputs of every kind.

* `Shape`: the kind of an item and what it says.
* `Keeps`: the kept items convert to messages that pass the engine's check, no call is
  separated from its output, no turn is split, and nothing is kept out of its place.
* `mistaken`: the neighbours that the cut rules take apart although they belong together.
* `plan_keeps_iff`: every plan keeps a renderable history exactly when no two neighbours that
  the rules may cut are mistaken.
-/

open List

namespace LocalAi.History

open Lib (bind_eq_ok elim_eq_ok ensure map_eq_ok mapM_eq_ok)
open Tools (Env ToolSet)

variable {D : Type}

/-! ### Kinds and entries -/

/-- A call of a kind that the cut rules do not name. -/
def isOtherCall (item : Json) : Bool :=
  [ItemKind.fileSearchCall, .shellCall, .localShellCall, .applyPatchCall,
    .customToolCall].contains (kind item)

def isCallItem (item : Json) : Bool := kind item == .functionCall || isOtherCall item

/-- An output of a kind that the cut rules do not name. -/
def isOtherOutput (item : Json) : Bool :=
  [ItemKind.shellCallOutput, .localShellCallOutput, .applyPatchCallOutput,
    .customToolCallOutput].contains (kind item)

inductive Shape (item : Json) : Entry D → Prop
  | message (r : Role) (parts : Parts D) (hkind : kind item = .message)
      (hrole : role item = some r.name) : Shape item (.message r parts)
  | reasoning (text : Text) (hkind : kind item = .reasoning) : Shape item (.reasoning text)
  | functionCall (c : Call) (hkind : kind item = .functionCall)
      (hid : callId item = some c.id) : Shape item (.call c)
  | functionOutput (id : Text) (parts : Parts D) (hkind : kind item = .functionCallOutput) :
      Shape item (.output id parts)
  | otherCall (e : Entry D) (hkind : isOtherCall item = true) (he : e.isCall = true) :
      Shape item e
  | otherOutput (e : Entry D) (hkind : isOtherOutput item = true) (he : e.isOutput = true) :
      Shape item e

variable {id : Text}

section Entries

variable {env : Env} {media : Media D} {item : Json} {e : Entry D}

theorem isOtherCall_kind (h : isOtherCall item = true) :
    kind item ≠ .reasoning ∧ kind item ≠ .message ∧ kind item ≠ .functionCall := by
  refine ⟨?_, ?_, ?_⟩
  all_goals
    intro hk
    simp [isOtherCall, hk] at h

theorem isOtherOutput_kind (h : isOtherOutput item = true) :
    kind item ≠ .reasoning ∧ kind item ≠ .message ∧ kind item ≠ .functionCall ∧
      kind item ≠ .functionCallOutput ∧ isOtherCall item = false := by
  refine ⟨?_, ?_, ?_, ?_, ?_⟩
  rotate_right
  · simp only [isOtherOutput, contains_iff_mem, mem_cons, not_mem_nil, or_false] at h
    rcases h with h | h | h | h
    all_goals simp [isOtherCall, h]
  all_goals
    intro hk
    simp [isOtherOutput, hk] at h

variable {itemKind : String}

theorem requires_eq_ok {name : String} {text : Text} :
    requires itemKind item name = .ok text ↔ textField item name = some text := elim_eq_ok

theorem messageEntry_shape (h : messageEntry env media item = .ok e) :
    ∃ r parts, e = .message r parts ∧ role item = some r.name := by
  rw [messageEntry] at h
  cases hro : textField item "role" with
  | none =>
    rw [hro] at h
    cases h
  | some name =>
    simp only [hro] at h
    obtain ⟨parts, -, h⟩ := bind_eq_ok.mp h
    have hn : ∀ r, messageRole name = some r → r.name = name := by
      intro r hr
      rw [messageRole] at hr
      split at hr
      · next heq => cases hr; exact heq.symm
      · split at hr
        · next heq => cases hr; exact heq.symm
        · split at hr
          · next heq => cases hr; exact heq.symm
          · split at hr
            · next heq => cases hr; exact heq.symm
            · cases hr
    split at h
    · next hr =>
      split at h
      · cases h
        exact ⟨.assistant, parts, rfl, by rw [role, hro, hn _ hr]⟩
      · cases h
    · next r _ hr =>
      cases h
      exact ⟨r, parts, rfl, by rw [role, hro, hn _ hr]⟩
    · cases h

theorem toolCall_id {name : Text} {arguments : Json} {c : Call}
    (h : toolCall env id name arguments = .ok c) : c.id = id := by
  rw [toolCall.eq_def] at h
  split at h
  · obtain ⟨value, -, rfl⟩ := map_eq_ok.mp h
    rfl
  · cases h
    rfl

theorem functionCallEntry_shape (h : functionCallEntry (D := D) env item = .ok e) :
    ∃ c, e = .call c ∧ callId item = some c.id := by
  obtain ⟨name, -, h⟩ := bind_eq_ok.mp h
  obtain ⟨id, hid, h⟩ := bind_eq_ok.mp h
  obtain ⟨c, hc, h⟩ := bind_eq_ok.mp h
  cases h
  exact ⟨c, rfl, by rw [toolCall_id hc]; exact requires_eq_ok.mp hid⟩

theorem functionOutputEntry_shape (h : functionOutputEntry env media item = .ok e) :
    ∃ id parts, e = .output id parts := by
  obtain ⟨id, -, h⟩ := bind_eq_ok.mp h
  split at h
  · cases h
    exact ⟨id, _, rfl⟩
  · obtain ⟨parts, -, rfl⟩ := map_eq_ok.mp h
    exact ⟨id, parts, rfl⟩
  · cases h

theorem callEntry_isCall {name : Text} {arguments : List (Text × Json)}
    (h : callEntry (D := D) itemKind item name arguments = .ok e) : e.isCall = true := by
  obtain ⟨id, -, rfl⟩ := map_eq_ok.mp h
  rfl

theorem outputEntry_isOutput {content : Text}
    (h : outputEntry (D := D) itemKind item content = .ok e) : e.isOutput = true := by
  rw [outputEntry] at h
  split at h
  · cases h
    rfl
  · cases h

theorem fileSearchEntry_isCall (h : fileSearchEntry (D := D) env item = .ok e) :
    e.isCall = true := by
  obtain ⟨id, -, h⟩ := bind_eq_ok.mp h
  split at h
  · split at h
    · cases h
      rfl
    · cases h
  · cases h

theorem customOutputEntry_isOutput (h : customOutputEntry (D := D) item = .ok e) :
    e.isOutput = true := by
  rw [customOutputEntry] at h
  split at h
  · exact outputEntry_isOutput h
  · exact outputEntry_isOutput h
  · cases h

theorem entry_shape (h : entry env media item = .ok e) : Shape item e := by
  rw [entry] at h
  split at h
  · next hk =>
    obtain ⟨r, parts, rfl, hr⟩ := messageEntry_shape h
    exact .message r parts hk hr
  · next hk =>
    obtain ⟨text, -, rfl⟩ := map_eq_ok.mp h
    exact .reasoning text hk
  · next hk =>
    obtain ⟨c, rfl, hid⟩ := functionCallEntry_shape h
    exact .functionCall c hk hid
  · next hk =>
    obtain ⟨id, parts, rfl⟩ := functionOutputEntry_shape h
    exact .functionOutput id parts hk
  · cases h
  · cases h
  · next hk => exact .otherCall e (by simp [isOtherCall, hk]) (fileSearchEntry_isCall h)
  · next hk => exact .otherCall e (by simp [isOtherCall, hk]) (callEntry_isCall h)
  · next hk => exact .otherOutput e (by simp [isOtherOutput, hk]) (outputEntry_isOutput h)
  · next hk => exact .otherCall e (by simp [isOtherCall, hk]) (callEntry_isCall h)
  · next hk => exact .otherOutput e (by simp [isOtherOutput, hk]) (outputEntry_isOutput h)
  · next hk =>
    obtain ⟨id, -, rfl⟩ := map_eq_ok.mp h
    exact .otherCall _ (by simp [isOtherCall, hk]) rfl
  · next hk => exact .otherOutput e (by simp [isOtherOutput, hk]) (outputEntry_isOutput h)
  · next hk =>
    obtain ⟨name, -, h⟩ := bind_eq_ok.mp h
    exact .otherCall e (by simp [isOtherCall, hk]) (callEntry_isCall h)
  · next hk =>
    exact .otherOutput e (by simp [isOtherOutput, hk]) (customOutputEntry_isOutput h)
  · cases h

end Entries

/-! ### A cut of the entries -/

/-- `item` is the last item before a cut and `next` the first after it. -/
def mistaken (item next : Json) : Bool :=
  isOtherOutput next || (isOtherCall item && isCallItem next) ||
    (isAssistant item && isOtherCall next)

theorem Role.name_injective : Function.Injective Role.name := by
  intro r r' h
  have hu : ∀ {name}, name ∉ roleNames → ∀ r : Role, r.name ∈ roleNames → r.name ≠ name :=
    fun hn r hr heq => hn (heq ▸ hr)
  cases r with
  | other name hn =>
    cases r' with
    | other =>
      obtain rfl : name = _ := h
      rfl
    | _ => exact absurd h.symm (hu hn _ (by decide))
  | _ =>
    cases r' with
    | other _ hn => exact absurd h (hu hn _ (by decide))
    | _ => first | rfl | exact absurd h (by decide)

variable {item : Json}

variable {e : Entry D}

theorem Shape.callItem (h : Shape item e) (he : e.isCall = true) :
    kind item = .functionCall ∨ isOtherCall item = true := by
  cases h with
  | functionCall c hk => exact .inl hk
  | otherCall _ hk => exact .inr hk
  | otherOutput _ _ ho =>
    cases e with
    | output => cases he
    | _ => cases ho
  | _ => cases he

theorem Shape.outputItem (h : Shape item e) (he : e.isOutput = true) :
    kind item = .functionCallOutput ∨ isOtherOutput item = true := by
  cases h with
  | functionOutput id parts hk => exact .inl hk
  | otherOutput _ hk => exact .inr hk
  | otherCall _ _ hc =>
    cases e with
    | output => cases hc
    | _ => cases he
  | _ => cases he

theorem Shape.reasoningItem {text : Text} (h : Shape item (.reasoning text : Entry D)) :
    kind item = .reasoning := by
  cases h with
  | reasoning _ hk => exact hk
  | otherCall _ _ he => cases he
  | otherOutput _ _ he => cases he

theorem Shape.isOutput (h : Shape item e) (hk : isOtherOutput item = true) : e.isOutput = true := by
  obtain ⟨hr, hm, hc, hout, hoth⟩ := isOtherOutput_kind hk
  cases h with
  | message _ _ h => exact absurd h hm
  | reasoning _ h => exact absurd h hr
  | functionCall _ h => exact absurd h hc
  | functionOutput _ _ h => exact absurd h hout
  | otherCall _ h =>
    rw [hoth] at h
    cases h
  | otherOutput _ _ he => exact he

theorem Shape.isCall (h : Shape item e) (hk : isCallItem item = true) : e.isCall = true := by
  rw [isCallItem, Bool.or_eq_true, beq_iff_eq] at hk
  have hki : kind item ≠ .reasoning ∧ kind item ≠ .message ∧ kind item ≠ .functionCallOutput := by
    rcases hk with hk | hk
    · simp [hk]
    · refine ⟨(isOtherCall_kind hk).1, (isOtherCall_kind hk).2.1, fun h => ?_⟩
      simp [isOtherCall, h] at hk
  cases h with
  | message _ _ h => exact absurd h hki.2.1
  | reasoning _ h => exact absurd h hki.1
  | functionCall => rfl
  | functionOutput _ _ h => exact absurd h hki.2.2
  | otherCall _ _ he => exact he
  | otherOutput _ h =>
    obtain ⟨-, -, hc, -, ho⟩ := isOtherOutput_kind h
    rcases hk with hk | hk
    · exact absurd hk hc
    · rw [ho] at hk
      cases hk

theorem Shape.assistant (h : Shape item e) (hi : isAssistant item = true) :
    ∃ r parts, e = .message r parts ∧ r = .assistant := by
  simp only [isAssistant, Bool.and_eq_true, beq_iff_eq] at hi
  cases h with
  | message r parts _ hr =>
    exact ⟨r, parts, rfl, Role.name_injective (Option.some.inj (hr.symm.trans hi.2))⟩
  | reasoning _ h => simp [hi.1] at h
  | functionCall _ h => simp [hi.1] at h
  | functionOutput _ _ h => simp [hi.1] at h
  | otherCall _ h => exact absurd hi.1 (isOtherCall_kind h).2.1
  | otherOutput _ h => exact absurd hi.1 (isOtherOutput_kind h).2.1

theorem openCalls_functionCall {before : List Json} (hid : callId item = some id)
    (hk : kind item = .functionCall) : openCalls (before ++ [item]) ≠ [] := by
  rw [openCalls, foldl_append]
  simp [trackOpen, hk, hid]

section Cut

variable {env : Env} {tools : ToolSet} {item : Json} {e : Entry D} {es more : List (Entry D)}
  {before items : List Json} {p q : Pairing}

/-- At a cut that takes no mistaken neighbours apart every call is answered and the next entry
does not join the turn. -/
theorem cut_settled (hitem : Shape item e) (hi : List.Forall₂ Shape items more)
    (ha : Allowed (openCalls (before ++ [item])) item items)
    (hmi : ∀ next, items.head? = some next → mistaken item next = false)
    (hre : Pairs env tools p (rest (after (es ++ [e])).turn more) q) (hq : q.pending = []) :
    p.pending = [] ∧
      (after (es ++ [e])).turn.answers.length = (after (es ++ [e])).turn.calls.length ∧
      ((after (es ++ [e])).turn = .empty ∨
        ∀ e' rest, more = e' :: rest → joins (after (es ++ [e])).turn e' = false) := by
  have hok := after_ok (es ++ [e])
  have hokBefore := after_ok es
  -- no output follows the cut
  have hou : ∀ e' rest, more = e' :: rest → e'.isOutput = false := by
    intro e' rest heq
    subst heq
    obtain ⟨next, items', hn, -, rfl⟩ := List.forall₂_cons_right_iff.mp hi
    rw [← Bool.not_eq_true]
    intro ho
    rcases hn.outputItem ho with hk | hoth
    · have ht := ha.turn
      simp [sameTurn, hk] at ht
    · have hm := hmi next rfl
      simp [mistaken, hoth] at hm
  -- no call follows a call, a message of the assistant, or reasoning
  have hc : ∀ e' rest, more = e' :: rest → e'.isCall = true →
      (after (es ++ [e])).turn = .empty := by
    intro e' rest heq he'
    subst heq
    obtain ⟨next, items', hn, -, rfl⟩ := List.forall₂_cons_right_iff.mp hi
    have hm := hmi next rfl
    have ht := ha.turn
    have hcallItem := hn.callItem he'
    rw [after_snoc]
    refine (next_empty hokBefore).mpr ?_
    cases hitem with
    | message r parts hk hro =>
      refine .inl ⟨r, parts, rfl, fun hr => ?_⟩
      have hasst : isAssistant item = true := by
        rw [isAssistant, hk, hro, hr]
        rfl
      rcases hcallItem with hfn | hoth
      · simp [sameTurn, hfn, hasst] at ht
      · simp [mistaken, hasst, hoth] at hm
    | reasoning text hk => exact absurd hk ha.reasoning
    | functionCall c hk hid =>
      exact absurd ha.closed (openCalls_functionCall hid hk)
    | functionOutput => exact .inr rfl
    | otherCall _ hk =>
      have hnextCall : isCallItem next = true := by
        rcases hcallItem with hfn | hoth
        · simp [isCallItem, hfn]
        · simp [isCallItem, hoth]
      simp [mistaken, hk, hnextCall] at hm
    | otherOutput _ hk he => exact .inr he
  have hp : p.pending = [] := by
    by_contra hne
    obtain ⟨-, e', rest, heq, ho⟩ := pending_next hok hre hq hne
    rw [hou e' rest heq] at ho
    cases ho
  have hans : (after (es ++ [e])).turn.answers.length = (after (es ++ [e])).turn.calls.length := by
    by_contra hne
    have hlt := Nat.lt_of_le_of_ne hok.answers hne
    obtain ⟨e', rest, heq, ho | hc'⟩ := open_next hok hre hq hlt
    · rw [hou e' rest heq] at ho
      cases ho
    · rw [hc e' rest heq hc'] at hlt
      exact absurd hlt (by simp [Turn.empty])
  refine ⟨hp, hans, ?_⟩
  by_cases hemp : (after (es ++ [e])).turn = .empty
  · exact .inl hemp
  · refine .inr fun e' rest heq => ?_
    rw [← Bool.not_eq_true]
    intro hj
    cases e' with
    | call => exact hemp (hc _ rest heq rfl)
    | answered => exact hemp (hc _ rest heq rfl)
    | message r =>
      cases r with
      | assistant =>
        -- only reasoning leaves a turn that an assistant message joins
        simp only [joins, Bool.and_eq_true, Option.isNone_iff_eq_none, List.isEmpty_iff] at hj
        rw [after_snoc] at hj hemp
        obtain ⟨text, rfl⟩ := next_reasoning hokBefore hemp hj.1 hj.2
        exact ha.reasoning hitem.reasoningItem
      | _ => cases hj
    | reasoning => cases hj
    | output => cases hj

theorem cut_rest (hok : (after es).turn.Ok) (h : (after es).turn = .empty ∨
      ∀ e' rest, more = e' :: rest → joins (after es).turn e' = false) :
    rest (after es).turn more = flush (after es).turn ++ rest .empty more := by
  rcases h with he | hj
  · rw [he, flush_empty, nil_append]
  · cases more with
    | nil => simp [rest, flush_empty]
    | cons e' more => exact rest_of_not_joins hok (hj e' more rfl)

end Cut

/-! ### What is kept -/

section Keep

variable (env : Env) (media : Media D) (tools : ToolSet)

/-- The id of an item that is a call, unless it carries its result. -/
def itemCall (item : Json) : Option Text :=
  match entry env media item with
  | .ok e => e.callId?
  | .error _ => none

/-- The id of the call that an item answers. -/
def itemOutput (item : Json) : Option Text :=
  match entry env media item with
  | .ok e => e.outputId?
  | .error _ => none

/-- The items convert to messages that the engine's check accepts. -/
def Accepted (items : List Json) : Prop :=
  ∃ ms, inputMessages env media items = .ok ms ∧ validateHistory env tools ms = .ok ()

structure Keeps (items : List Json) (p : Plan) : Prop where
  accepted : Accepted env media tools p.kept
  answered : ∀ id ∈ (items.take p.split).filterMap (itemCall env media),
    id ∈ (items.take p.split).filterMap (itemOutput env media)
  together : ∀ id ∈ (items.take p.split).filterMap (itemCall env media),
    id ∉ (items.drop p.split).filterMap (itemOutput env media)
  whole : ∃ before after, inputMessages env media (items.take p.split) = .ok before ∧
    inputMessages env media (items.drop p.split) = .ok after ∧
    inputMessages env media items = .ok (before ++ after)
  /-- The leading instructions, the latest user message and the items from the cut on, each in
  its place. -/
  places : p.kept = atPlaces (keepsPlace items p.split) 0 items

variable {env media tools}

abbrev Converts (env : Env) (media : Media D) (items : List Json) (es : List (Entry D)) : Prop :=
  List.Forall₂ (fun item e => entry env media item = .ok e) items es

variable {items later before : List Json} {es : List (Entry D)} {item : Json}

theorem filterMap_itemCall (h : Converts env media items es) :
    items.filterMap (itemCall env media) = es.filterMap Entry.callId? := by
  induction h with
  | nil => rfl
  | cons hi _ ih => simp only [filterMap_cons, itemCall, hi, ih]

theorem filterMap_itemOutput (h : Converts env media items es) :
    items.filterMap (itemOutput env media) = es.filterMap Entry.outputId? := by
  induction h with
  | nil => rfl
  | cons hi _ ih => simp only [filterMap_cons, itemOutput, hi, ih]

theorem callId_answeredId_disjoint (h : (es.filterMap fun e => e.callId?.or e.answeredId?).Nodup)
    (hc : id ∈ es.filterMap Entry.callId?) : id ∉ es.filterMap Entry.answeredId? := by
  induction es with
  | nil => cases hc
  | cons e es ih =>
    have hm : ∀ id, id ∈ es.filterMap Entry.callId? ∨ id ∈ es.filterMap Entry.answeredId? →
        id ∈ es.filterMap fun e => e.callId?.or e.answeredId? := by
      intro id hid
      simp only [mem_filterMap] at hid ⊢
      rcases hid with ⟨e, he, hid⟩ | ⟨e, he, hid⟩
      · exact ⟨e, he, by simp [hid]⟩
      · refine ⟨e, he, ?_⟩
        cases e with
        | answered => exact hid
        | _ => cases hid
    cases e with
    | call =>
      have h := nodup_cons.mp h
      rcases mem_cons.mp hc with rfl | hc
      · exact fun ha => h.1 (hm _ (.inr ha))
      · exact ih h.2 hc
    | answered =>
      have h := nodup_cons.mp h
      intro ha
      rcases mem_cons.mp ha with rfl | ha
      · exact h.1 (hm _ (.inl hc))
      · exact ih h.2 hc ha
    | message => exact ih h hc
    | reasoning => exact ih h hc
    | output => exact ih h hc

/-- A message of an instruction or a user before others does not matter to the check. -/
theorem pairs_plain {p : Pairing} (hp : p.pending = []) {r : Role} (hr : r ≠ .assistant)
    (ht : r ≠ .tool) {parts : Parts D} {q : Pairing} :
    Pairs env tools p (rest .empty (.message r parts :: es)) q ↔
      Pairs env tools p (rest .empty es) q := by
  have hn : ∃ m : Message D, next .empty (.message r parts) = ⟨.empty, [m]⟩ ∧
      pairMessage env tools p m = .ok p := by
    cases r with
    | assistant => exact absurd rfl hr
    | tool => exact absurd rfl ht
    | _ => exact ⟨_, rfl, by simp [pairMessage, ensure, plain, hp, bind, Except.bind]⟩
  obtain ⟨m, heq, hm⟩ := hn
  rw [rest, heq, singleton_append, Pairs.cons, hm]
  constructor
  · rintro ⟨mid, hmid, h⟩
    cases hmid
    exact h
  · intro h
    exact ⟨p, rfl, h⟩

theorem Shape.plain {item : Json} {e : Entry D} (h : Shape item e)
    (hi : isInstruction item = true ∨ isUser item = true) :
    ∃ r parts, e = .message r parts ∧ r ≠ .assistant ∧ r ≠ .tool := by
  have hp : kind item = .message ∧
      ∃ r : Role, role item = some r.name ∧ r ≠ .assistant ∧ r ≠ .tool := by
    simp only [isInstruction, isUser, Bool.and_eq_true, Bool.or_eq_true, beq_iff_eq] at hi
    rcases hi with ⟨hk, hro | hro⟩ | ⟨hk, hro⟩
    · exact ⟨hk, .system, hro, by decide, by decide⟩
    · exact ⟨hk, .developer, hro, by decide, by decide⟩
    · exact ⟨hk, .user, hro, by decide, by decide⟩
  obtain ⟨hm, r', hro', ha, ht⟩ := hp
  cases h with
  | message r parts hk hro =>
    have hr : r = r' := Role.name_injective (Option.some.inj (hro.symm.trans hro'))
    exact ⟨r, parts, rfl, hr ▸ ha, hr ▸ ht⟩
  | reasoning _ h => simp [hm] at h
  | functionCall _ h => simp [hm] at h
  | functionOutput _ _ h => simp [hm] at h
  | otherCall _ h => simp [isOtherCall, hm] at h
  | otherOutput _ h => simp [isOtherOutput, hm] at h

theorem accepted_iff (h : Converts env media items es) : Accepted env media tools items ↔
      ∃ q, Pairs env tools ⟨[], []⟩ (rest .empty es) q ∧ q.pending = [] := by
  rw [Accepted, inputMessages_eq (mapM_eq_ok.mpr h)]
  constructor
  · rintro ⟨ms, hms, hv⟩
    cases hms
    exact validateHistory_eq.mp hv
  · intro hq
    exact ⟨_, rfl, validateHistory_eq.mpr hq⟩

theorem Accepted.entries (h : Accepted env media tools items) :
    ∃ es : List (Entry D), Converts env media items es := by
  obtain ⟨ms, hms, -⟩ := h
  obtain ⟨es, hes, -⟩ := bind_eq_ok.mp hms
  exact ⟨es, mapM_eq_ok.mp hes⟩

/-- Instructions and user messages before others leave the others as acceptable as they are. -/
theorem accepted_append_plain {front : List Json} {fes : List (Entry D)}
    (hf : Converts env media front fes)
    (hp : ∀ item ∈ front, isInstruction item = true ∨ isUser item = true)
    (hi : Converts env media items es) :
    Accepted env media tools (front ++ items) ↔ Accepted env media tools items := by
  rw [accepted_iff hi, accepted_iff (rel_append hf hi)]
  refine exists_congr fun q => and_congr ?_ Iff.rfl
  induction hf with
  | nil => rfl
  | cons hitem _ ih =>
    obtain ⟨r, parts, rfl, hr, ht⟩ :=
      (entry_shape hitem).plain (hp _ (mem_cons_self ..))
    refine Iff.trans (pairs_plain rfl hr ht) ?_
    exact ih fun item hm => hp item (mem_cons_of_mem _ hm)

theorem mem_front {split : Nat} (h : item ∈ items.take (head items) ++
      (((latestUser items).filter (· < split)).bind fun user => items[user]?).toList) :
    item ∈ items ∧ (isInstruction item = true ∨ isUser item = true) := by
  rw [mem_append] at h
  rcases h with h | h
  · refine ⟨mem_of_mem_take h, .inl ?_⟩
    obtain ⟨i, hi, rfl⟩ := mem_iff_getElem.mp h
    have hlt : i < head items := by
      rw [length_take] at hi
      omega
    refine instruction_of_lt_head hlt ?_
    rw [getElem_take]
    exact getElem?_eq_getElem _
  · rw [Option.mem_toList, Option.bind_eq_some_iff] at h
    obtain ⟨u, hu, hitem⟩ := h
    obtain ⟨item', hitem', hus⟩ := rposition_some (Option.filter_eq_some_iff.mp hu).1
    rw [hitem] at hitem'
    cases hitem'
    exact ⟨mem_of_getElem? hitem, .inr hus⟩

theorem entries_of_mem {front : List Json} (h : Converts env media items es)
    (hf : ∀ item ∈ front, item ∈ items) : ∃ fes : List (Entry D), Converts env media front fes := by
  have hi : ∀ item ∈ items, ∃ e, entry env media item = .ok e := by
    clear hf
    induction h with
    | nil => simp
    | cons hi _ ih => simpa using ⟨⟨_, hi⟩, ih⟩
  induction front with
  | nil => exact ⟨[], .nil⟩
  | cons item front ih =>
    obtain ⟨e, he⟩ := hi item (hf item (mem_cons_self ..))
    obtain ⟨fes, hfes⟩ := ih fun other hm => hf other (mem_cons_of_mem _ hm)
    exact ⟨e :: fes, .cons he hfes⟩

theorem accepted_kept {split : Nat} (h : Converts env media items es) :
    Accepted env media tools (kept items split) ↔ Accepted env media tools (items.drop split) := by
  obtain ⟨fes, hf⟩ := entries_of_mem h fun item hi => (mem_front hi).1
  exact accepted_append_plain hf (fun item hi => (mem_front hi).2) (forall₂_drop split h)

/-! ### Cuts that keep a renderable history -/

theorem keeps_of_settled {p : Plan} {more : List (Entry D)}
    {mid q : Pairing} (hk : p.kept = kept items p.split)
    (hh : head items < p.split) (hle : p.split ≤ items.length)
    (hes : Converts env media (items.take p.split) es)
    (hmo : Converts env media (items.drop p.split) more)
    (hb : Pairs env tools ⟨[], []⟩ (after es).messages mid)
    (hr : Pairs env tools mid (rest (after es).turn more) q) (hq : q.pending = [])
    (hmid : mid.pending = [])
    (hanswered : (after es).turn.answers.length = (after es).turn.calls.length)
    (hj : (after es).turn = .empty ∨
      ∀ e' rest, more = e' :: rest → joins (after es).turn e' = false) :
    Keeps env media tools items p := by
  have hi : Converts env media (items.take p.split ++ items.drop p.split) (es ++ more) :=
    rel_append hes hmo
  rw [take_append_drop] at hi
  have hok := after_ok es
  have hcut := cut_rest hok hj
  have hm : rest .empty es = (after es).messages ++ flush (after es).turn := by
    have h := rest_append es []
    rwa [append_nil] at h
  rw [hcut] at hr
  obtain ⟨ended, hf, hl⟩ := Pairs.append.mp hr
  have hend : ended.pending = [] := by
    rcases Pairs.flush hok hf with ⟨-, rfl⟩ | ⟨-, hlen⟩
    · exact hmid
    · exact eq_nil_of_length_eq_zero (by omega)
  have hfst : Pairs env tools ⟨[], []⟩ (rest .empty es) ended := by
    rw [hm]
    exact Pairs.append.mpr ⟨mid, hb, hf⟩
  have hids := hfst.ids
  have hlaterIds := hl.ids
  have hcallIds := callIds_rest (Turn.Ok.empty (D := D)) es
  have hansIds := answerIds_rest (Turn.Ok.empty (D := D)) es
  simp only [Turn.empty, map_nil, nil_append] at hcallIds
  simp only [Turn.empty, answerIds, filterMap_nil, nil_append] at hansIds
  have hc : ∀ id ∈ es.filterMap Entry.callId?, id ∈ callIds (rest .empty es) := by
    intro id hid
    rw [Turn.empty, hcallIds]
    obtain ⟨e, he, hid⟩ := mem_filterMap.mp hid
    exact mem_filterMap.mpr ⟨e, he, by rw [hid]; rfl⟩
  refine ⟨?_, ?_, ?_, ?_, ?_⟩
  · rw [hk, accepted_kept hi, accepted_iff hmo]
    obtain ⟨q', hq', hp⟩ := hl.weaken (r := ⟨[], []⟩) hend.symm (by simp)
    exact ⟨q', hq', by rw [hp, hq]⟩
  · intro id hid
    rw [filterMap_itemCall hes] at hid
    rw [filterMap_itemOutput hes]
    have ha := hids.answered id (.inr (hc id hid))
    rw [hend] at ha
    have ha : id ∈ answerIds (rest .empty es) := by simpa using ha
    rw [answerIds, Turn.empty, hansIds] at ha
    obtain ⟨e, he, heid⟩ := mem_filterMap.mp ha
    rcases Option.or_eq_some_iff.mp heid with ho | ⟨-, hans⟩
    · exact mem_filterMap.mpr ⟨e, he, ho⟩
    · have hnd := hids.nodup
      rw [Turn.empty, hcallIds] at hnd
      exact absurd (mem_filterMap.mpr ⟨e, he, hans⟩) (callId_answeredId_disjoint hnd hid)
  · intro id hid ho
    rw [filterMap_itemCall hes] at hid
    rw [filterMap_itemOutput hmo] at ho
    have ha : id ∈ answerIds (rest .empty more) := by
      rw [answerIds_rest Turn.Ok.empty more, mem_append]
      obtain ⟨e, he, hid⟩ := mem_filterMap.mp ho
      exact .inr (mem_filterMap.mpr ⟨e, he, by rw [hid]; rfl⟩)
    have hcall := hlaterIds.called id ha
    rw [hend] at hcall
    have hcall : id ∈ callIds (rest .empty more) := by simpa using hcall
    exact hlaterIds.new id hcall ((hids.seen id).mpr (.inr (hc id hid)))
  · refine ⟨_, _, inputMessages_eq (mapM_eq_ok.mpr hes), inputMessages_eq (mapM_eq_ok.mpr hmo), ?_⟩
    rw [inputMessages_eq (mapM_eq_ok.mpr hi)]
    have happ : rest .empty (es ++ more) = rest .empty es ++ rest .empty more := by
      rw [rest_append, hcut, hm, append_assoc]
    exact congrArg Except.ok happ
  · rw [hk]
    exact kept_eq hh hle

theorem converts_snoc (h : Converts env media (before ++ [item]) es) :
    ∃ esb e, es = esb ++ [e] ∧ Converts env media before esb ∧ entry env media item = .ok e := by
  have hr := forall₂_reverse_iff.mpr h
  rw [reverse_append, reverse_singleton, singleton_append] at hr
  obtain ⟨e, esr, he, hes, heq⟩ := forall₂_cons_left_iff.mp hr
  refine ⟨esr.reverse, e, ?_, ?_, he⟩
  · rw [← reverse_reverse es, heq, reverse_cons]
  · rw [← reverse_reverse before]
    exact forall₂_reverse_iff.mpr hes

theorem Accepted.at_cut (ha : Accepted env media tools items)
    (hi : items = (before ++ [item]) ++ later) :
    ∃ (esb : List (Entry D)) (e : Entry D) (more : List (Entry D)) (mid q : Pairing),
      Converts env media (before ++ [item]) (esb ++ [e]) ∧ entry env media item = .ok e ∧
      Converts env media later more ∧
      Pairs env tools ⟨[], []⟩ (after (esb ++ [e])).messages mid ∧
      Pairs env tools mid (rest (after (esb ++ [e])).turn more) q ∧ q.pending = [] := by
  obtain ⟨es, hes⟩ := ha.entries
  obtain ⟨q, hq, hp⟩ := (accepted_iff hes).mp ha
  have hf := forall₂_take (before ++ [item]).length hes
  have hs := forall₂_drop (before ++ [item]).length hes
  rw [hi, take_left'  rfl] at hf
  rw [hi, drop_left' rfl] at hs
  obtain ⟨esb, e, heq, hb, he⟩ := converts_snoc hf
  rw [← take_append_drop (before ++ [item]).length es, rest_append, heq] at hq
  obtain ⟨mid, hm, hr⟩ := Pairs.append.mp hq
  rw [heq] at hf
  exact ⟨esb, e, _, mid, q, hf, he, hs, hm, hr, hp⟩

/-- A cut that takes no mistaken neighbours apart keeps a renderable history. -/
theorem keeps_of_cut {p : Plan} (hacc : Accepted env media tools items)
    (hi : items = (before ++ [item]) ++ later) (hs : p.split = (before ++ [item]).length)
    (hk : p.kept = kept items p.split) (hh : head items < p.split)
    (ha : Allowed (openCalls (before ++ [item])) item later)
    (hm : ∀ next, later.head? = some next → mistaken item next = false) :
    Keeps env media tools items p := by
  obtain ⟨esb, e, more, mid, q, hf, he, hsnd, hmid, hr, hp⟩ :=
    hacc.at_cut hi
  have hsh : List.Forall₂ Shape later more := hsnd.imp fun _ _ h => entry_shape h
  obtain ⟨ho, hans, hj⟩ :=
    cut_settled (entry_shape he) hsh ha hm hr hp
  refine keeps_of_settled hk hh ?_ ?_ ?_ hmid hr hp ho hans hj
  · rw [hs, hi]
    exact (prefix_append _ _).length_le
  · rw [hs, hi, take_left' rfl]
    exact hf
  · rw [hs, hi, drop_left' rfl]
    exact hsnd

/-! ### Cuts that take mistaken neighbours apart -/

variable {next : Json}

/-- The last item before mistaken neighbours are taken apart is a call, an output or a message
of the assistant. -/
theorem mistaken_last (hacc : Accepted env media tools items)
    (hi : items = (before ++ [item]) ++ next :: later) (hm : mistaken item next = true) :
    kind item ≠ .reasoning ∧ isInstruction item = false ∧ isUser item = false := by
  have hmsg : kind item ≠ .message → isInstruction item = false ∧ isUser item = false := by
    intro hk
    simp [isInstruction, isUser, hk]
  simp only [mistaken, Bool.or_eq_true, Bool.and_eq_true] at hm
  rcases hm with (hn | ⟨hc, -⟩) | ⟨ha, -⟩
  · obtain ⟨esb, e, more, mid, q, hf, he, hsnd, hmid, hr, hp⟩ :=
      hacc.at_cut hi
    obtain ⟨e', more', hnextEntry, -, rfl⟩ := forall₂_cons_left_iff.mp hsnd
    have ho := (entry_shape hnextEntry).isOutput hn
    obtain ⟨before', last, heq, hl⟩ := output_after ho hmid hr
    obtain ⟨-, hlastEq⟩ := append_inj' heq rfl
    cases hlastEq
    have hs := entry_shape he
    have hki : kind item ≠ .reasoning ∧ kind item ≠ .message := by
      rcases hl with hc | ho
      · rcases hs.callItem hc with hk | hk
        · simp [hk]
        · exact ⟨(isOtherCall_kind hk).1, (isOtherCall_kind hk).2.1⟩
      · rcases hs.outputItem ho with hk | hk
        · simp [hk]
        · exact ⟨(isOtherOutput_kind hk).1, (isOtherOutput_kind hk).2.1⟩
    exact ⟨hki.1, hmsg hki.2⟩
  · exact ⟨(isOtherCall_kind hc).1, hmsg (isOtherCall_kind hc).2.1⟩
  · simp only [isAssistant, Bool.and_eq_true, beq_iff_eq] at ha
    refine ⟨by simp [ha.1], ?_, ?_⟩
    · rw [isInstruction, ha.1, ha.2]
      decide
    · rw [isUser, ha.1, ha.2]
      decide

theorem mistaken_allowed {opened : List Text} (hopen : opened = [])
    (hr : kind item ≠ .reasoning) (hm : mistaken item next = true) :
    Allowed opened item (next :: later) := by
  refine ⟨hopen, ?_, hr⟩
  simp only [mistaken, Bool.or_eq_true, Bool.and_eq_true] at hm
  rw [head?_cons]
  have ho : kind next ≠ .functionCall → kind next ≠ .functionCallOutput →
      sameTurn item (some next) = false := by
    intro hc hout
    simp only [sameTurn, Option.map_some]
    split
    · next h => exact absurd (Option.some.inj h) hc
    · next h => exact absurd (Option.some.inj h) hout
    · rfl
  have hothCall : isOtherCall next = true → sameTurn item (some next) = false := by
    intro h
    refine ho (isOtherCall_kind h).2.2 fun hk => ?_
    simp [isOtherCall, hk] at h
  rcases hm with (hn | ⟨hc, hn⟩) | ⟨-, hn⟩
  · exact ho (isOtherOutput_kind hn).2.2.1 (isOtherOutput_kind hn).2.2.2.1
  · rw [isCallItem, Bool.or_eq_true, beq_iff_eq] at hn
    rcases hn with hn | hn
    · obtain ⟨h1, h2, h3⟩ := isOtherCall_kind hc
      simp [sameTurn, hn, h1, h3, isAssistant, h2]
    · exact hothCall hn
  · exact hothCall hn

theorem not_whole (hacc : Accepted env media tools items)
    (hitems : items = (before ++ [item]) ++ next :: later) (hn : isCallItem next = true)
    (hi : isOtherCall item = true ∨ isAssistant item = true) {first second : List (Message D)}
    (hf : inputMessages env media (before ++ [item]) = .ok first)
    (hs : inputMessages env media (next :: later) = .ok second) :
    inputMessages env media items ≠ .ok (first ++ second) := by
  obtain ⟨esb, e, more, mid, q, hes, he, hm, -, -, -⟩ := hacc.at_cut hitems
  obtain ⟨e', more', hnextEntry, hm', rfl⟩ := forall₂_cons_left_iff.mp hm
  have ha : Converts env media ((before ++ [item]) ++ next :: later)
      ((esb ++ [e]) ++ e' :: more') := rel_append hes hm
  rw [← hitems] at ha
  rw [inputMessages_eq (mapM_eq_ok.mpr hes)] at hf
  rw [inputMessages_eq (mapM_eq_ok.mpr hm)] at hs
  rw [inputMessages_eq (mapM_eq_ok.mpr ha)]
  cases hf
  cases hs
  intro heq
  have hc : e'.isCall = true := (entry_shape hnextEntry).isCall hn
  have ht : (after (esb ++ [e])).turn ≠ .empty := by
    rw [after_snoc, Ne, next_empty (after_ok esb)]
    rcases hi with hi | hi
    · have hc := (entry_shape he).isCall (by rw [isCallItem, hi, Bool.or_true])
      rintro (⟨r, parts, rfl, -⟩ | ho)
      · cases hc
      · cases e with
        | output => cases hc
        | _ => cases ho
    · obtain ⟨r, parts, rfl, hr⟩ := (entry_shape he).assistant hi
      rintro (⟨r', parts', heq, hne⟩ | ho)
      · cases heq
        exact hne hr
      · cases ho
  have hl := congrArg length (Except.ok.inj heq)
  have hfstMessages := rest_append (esb ++ [e]) []
  rw [append_nil] at hfstMessages
  have hj := rest_joins_length (after_ok (esb ++ [e])) ht hc more'
  rw [rest_append, hfstMessages] at hl
  simp only [length_append] at hl
  rw [show rest (after (esb ++ [e])).turn [] = flush (after (esb ++ [e])).turn from rfl] at hl
  omega

theorem not_accepted_output {more : List (Entry D)}
    (hm : Converts env media (next :: later) more) (hn : isOtherOutput next = true) :
    ¬ Accepted env media tools (next :: later) := by
  rw [accepted_iff hm]
  rintro ⟨q, hq, -⟩
  obtain ⟨e', more', hent, -, rfl⟩ := forall₂_cons_left_iff.mp hm
  have ho := (entry_shape hent).isOutput hn
  have hb : Pairs env tools ⟨[], []⟩ (after ([] : List (Entry D))).messages ⟨[], []⟩ :=
    Pairs.nil.mpr rfl
  obtain ⟨before, last, heq, -⟩ := output_after ho hb hq
  simp at heq

theorem not_keeps_of_mistaken {p : Plan} (hacc : Accepted env media tools items)
    (hi : items = (before ++ [item]) ++ next :: later)
    (hs : p.split = (before ++ [item]).length) (hke : p.kept = kept items p.split)
    (hm : mistaken item next = true) : ¬ Keeps env media tools items p := by
  intro hk
  obtain ⟨es, hes⟩ := hacc.entries
  have ht : items.take p.split = before ++ [item] := by
    rw [hs, hi, take_left' rfl]
  have hd : items.drop p.split = next :: later := by
    rw [hs, hi, drop_left' rfl]
  obtain ⟨first, second, hf, hsnd, hw⟩ := hk.whole
  rw [ht] at hf
  rw [hd] at hsnd
  simp only [mistaken, Bool.or_eq_true, Bool.and_eq_true] at hm
  rcases hm with (hn | ⟨hc, hn⟩) | ⟨hasst, hn⟩
  · have hmo := forall₂_drop p.split hes
    have ha := hk.accepted
    rw [hke, accepted_kept hes, hd] at ha
    rw [hd] at hmo
    exact not_accepted_output hmo hn ha
  · exact not_whole hacc hi hn (.inl hc) hf hsnd hw
  · exact not_whole hacc hi (by rw [isCallItem, hn, Bool.or_true]) (.inr hasst)
      hf hsnd hw

theorem mistaken_chosen (ha : Accepted env media tools items)
    (hitems : items = (before ++ [item]) ++ next :: later)
    (ho : openCalls (before ++ [item]) = []) (hm : mistaken item next = true) :
    ∃ keepTokens, plan items keepTokens (fun slice => (.ok slice.length : Except Text Nat)) =
      .ok (some ⟨(before ++ [item]).length, kept items (before ++ [item]).length⟩) := by
  obtain ⟨hr, hi, hus⟩ := mistaken_last ha hitems hm
  have hg : items[before.length]? = some item := by
    rw [hitems, append_assoc, getElem?_append_right le_rfl]
    simp
  have hl : (before ++ [item]).length = before.length + 1 := by simp
  refine ⟨_, plan_length ?_ ?_⟩
  · refine mem_filter.mpr ⟨mem_cuts.mpr ⟨before, item, next :: later, ?_, hl, ?_⟩, ?_⟩
    · rw [hitems, append_assoc]
      rfl
    · exact mistaken_allowed ho hr hm
    · rw [decide_eq_true_eq, hl]
      by_contra hle
      have := instruction_of_lt_head (by omega) hg
      rw [hi] at this
      cases this
  · intro u hu heq
    obtain ⟨item', hitem', hus'⟩ := rposition_some hu
    rw [show u = before.length by omega, hg] at hitem'
    cases hitem'
    rw [hus] at hus'
    cases hus'

/-- Every plan for an accepted list of items keeps a renderable history exactly when no
neighbours are mistaken where the code sees no call open. -/
theorem plan_keeps_iff {items : List Json} (haccept : Accepted env media tools items) :
    (∀ (E : Type) (keepTokens : Nat) (count : List Json → Except E Nat) (p : Plan),
        plan items keepTokens count = .ok (some p) → Keeps env media tools items p) ↔
      ∀ before item next later, items = (before ++ [item]) ++ next :: later →
        openCalls (before ++ [item]) = [] → mistaken item next = false := by
  constructor
  · intro hk before item next later hi ho
    rw [← Bool.not_eq_true]
    intro hm
    obtain ⟨keepTokens, hp⟩ := mistaken_chosen haccept hi ho hm
    exact not_keeps_of_mistaken haccept hi (by exact rfl) (by exact rfl) hm
      (hk Text keepTokens _ _ hp)
  · intro hc E keepTokens count p hp
    obtain ⟨hcut, hke⟩ := plan_cut hp
    obtain ⟨hmem, hh⟩ := mem_filter.mp hcut
    obtain ⟨before, item, later, hi, hs, ha⟩ := mem_cuts.mp hmem
    have hi' : items = (before ++ [item]) ++ later := by
      rw [hi, append_assoc]
      rfl
    refine keeps_of_cut haccept hi' (by simp [hs]) hke (of_decide_eq_true hh) ha ?_
    intro next hn
    obtain ⟨later', rfl⟩ := head?_eq_some_iff.mp hn
    exact hc before item next later' hi' ha.closed

end Keep

/-! ### Two conversations -/

/-- The JSON text of the empty object, and nothing else. -/
def braceEnv : Env where
  fromStr := fun text =>
    if text = ['\x7b', '\x7d'] then .ok (.object []) else .error "expected value".toList
  debug := quote

def noMedia : Media Unit where
  image := fun _ => .error []
  video := fun _ => .error []

def textItem (members : List (String × String)) : Json :=
  .object (members.map fun member => (member.1.toList, .string member.2.toList))

/-- A user's question and a call of a function, with its output. -/
def functionItems : List Json :=
  [textItem [("role", "user"), ("content", "hi")],
    textItem [("type", "function_call"), ("call_id", "a"), ("name", "f"),
      ("arguments", "\x7b\x7d")],
    textItem [("type", "function_call_output"), ("call_id", "a"), ("output", "ok")]]

theorem functionItems_accepted : Accepted braceEnv noMedia ⟨[]⟩ functionItems :=
  ⟨_, rfl, rfl⟩

theorem plan_keeps_function_call : Accepted braceEnv noMedia ⟨[]⟩ functionItems ∧
    ∀ (E : Type) (keepTokens : Nat) (count : List Json → Except E Nat) (p : Plan),
      plan functionItems keepTokens count = .ok (some p) →
        Keeps braceEnv noMedia ⟨[]⟩ functionItems p := by
  refine ⟨functionItems_accepted, (plan_keeps_iff functionItems_accepted).mpr ?_⟩
  intro before item next later hi _
  rcases before with _ | ⟨first, _ | ⟨second, rest⟩⟩
  · cases hi
    decide
  · cases hi
    decide
  · have hl := congrArg length hi
    simp [functionItems] at hl
    omega

def customItems : List Json :=
  [textItem [("role", "user"), ("content", "hi")],
    textItem [("type", "custom_tool_call"), ("call_id", "a"), ("name", "f"), ("input", "x")],
    textItem [("type", "custom_tool_call_output"), ("call_id", "a"), ("output", "ok")]]

/-- The call is summarized and its output kept: the engine refuses what is left. -/
theorem plan_parts_custom_call : Accepted braceEnv noMedia ⟨[]⟩ customItems ∧
    ∃ p : Plan, plan customItems 2 (fun slice => (.ok slice.length : Except Text Nat)) =
        .ok (some p) ∧
      ∃ ms, inputMessages braceEnv noMedia p.kept = .ok ms ∧
        validateHistory braceEnv ⟨[]⟩ ms ≠ .ok () := by
  have ha : Accepted braceEnv noMedia ⟨[]⟩ customItems := ⟨_, rfl, rfl⟩
  have hc : 2 ∈ planCuts customItems := by decide
  have hus : latestUser customItems = some 0 := by rfl
  refine ⟨ha, ⟨2, kept customItems 2⟩, plan_length hc ?_, _, rfl, ?_⟩
  · intro u hu heq
    rw [hus] at hu
    cases hu
    cases heq
  · intro h
    cases h

end LocalAi.History
