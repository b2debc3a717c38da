import LocalAi.Tools.Final
import LocalAi.Tools.Scan
import LocalAi.Tools.Sent

/-!
# Streamed deltas spell the final arguments

While a call is written, the certain part of its arguments goes out as deltas
with the call's id; when it completes, the whole call follows.

* `Streaming`: what the log and the parser agree on, from piece to piece.
* `feedAll_streaming`: so the deltas of every completed call spell a beginning of
  its arguments, however the text is cut.
-/

open List

namespace LocalAi.Tools

open LocalAi.Lib LocalAi.Answer

variable {L : Type}

/-! ### What deltas say -/

def deltasOf (id : CallId) (log : List (Event L)) : List ToolCallDelta :=
  log.filterMap fun
    | .toolCallDelta delta => if delta.id = id then some delta else none
    | _ => none

@[simp] theorem deltasOf_append (id : CallId) (a b : List (Event L)) :
    deltasOf id (a ++ b) = deltasOf id a ++ deltasOf id b := by
  simp [deltasOf]

def Json.member (key : Text) : Json → Option Json
  | .object members => lookup key members
  | _ => none

/-- The deltas of `call` spell a beginning of its arguments, name its tool, and
their texts begin its string arguments. -/
def Spelled (log : List (Event L)) (call : ToolCall) : Prop :=
  (deltasOf call.id log).flatMap ToolCallDelta.arguments <+: call.arguments.toText ∧
    (∀ delta ∈ deltasOf call.id log, delta.name = call.name) ∧
    ∀ delta ∈ deltasOf call.id log, ∀ key text, delta.text = some (key, text) →
      ∃ value, Json.member key call.arguments = some (.string value) ∧
        (deltasOf call.id log).flatMap (fun delta => textFor key delta.text) <+: value

theorem textFor_isPrefix {q p : Piece} (h : q.Le p) (key : Text) :
    textFor key q.text <+: textFor key p.text := by
  cases hq : q.text with
  | none => exact nil_prefix
  | some entry =>
    obtain ⟨key', text⟩ := entry
    obtain ⟨more, hm⟩ := h.text key' text hq
    rw [hm, textFor, textFor]
    split
    · exact prefix_append _ _
    · exact prefix_rfl

theorem Grows.spells {before after : List Piece} (h : Grows before after) :
    before.flatMap Piece.json <+: after.flatMap Piece.json ∧
      (∀ key, before.flatMap (fun piece => textFor key piece.text)
        <+: after.flatMap fun piece => textFor key piece.text) ∧
      ∀ piece ∈ before, ∀ key text, piece.text = some (key, text) →
        ∃ other ∈ after, ∃ text', other.text = some (key, text') := by
  induction h with
  | @last q p h more =>
    refine ⟨?_, fun key => ?_, fun piece hp key text ht => ?_⟩
    · rw [flatMap_singleton, flatMap_cons]
      exact h.json.trans (prefix_append _ _)
    · rw [flatMap_singleton, flatMap_cons]
      exact (textFor_isPrefix h key).trans (prefix_append _ _)
    · rw [mem_singleton.mp hp] at ht
      obtain ⟨rest, hr⟩ := h.text key text ht
      exact ⟨p, mem_cons_self, _, hr⟩
  | cons p h ih =>
    obtain ⟨hj, hte, hk⟩ := ih
    refine ⟨?_, fun key => ?_, fun piece hp key text ht => ?_⟩
    · rw [flatMap_cons, flatMap_cons]
      exact (prefix_append_right_inj _).mpr hj
    · rw [flatMap_cons, flatMap_cons]
      exact (prefix_append_right_inj _).mpr (hte key)
    · rcases mem_cons.mp hp with rfl | hm
      · exact ⟨piece, mem_cons_self, text, ht⟩
      · obtain ⟨other, ho, text', ho'⟩ := hk piece hm key text ht
        exact ⟨other, mem_cons_of_mem _ ho, text', ho'⟩

variable {arguments : List (Text × Json)}

variable {tool : Tool} {text name block marker rest pending : Text} {strict : Option Tool}
  {events : List (Event L)}

theorem finalPieces_text_nil {key : Text} (h : key ∉ arguments.map Prod.fst) :
    (finalPieces tool arguments).flatMap (fun piece => textFor key piece.text) = [] := by
  rw [flatMap_eq_nil_iff]
  intro piece hp
  cases ht : piece.text with
  | none => rfl
  | some entry =>
    obtain ⟨key', text⟩ := entry
    rw [textFor, if_neg]
    rintro rfl
    exact h (mem_map_of_mem (mem_finalPieces hp ht))

theorem finalPieces_text (tool : Tool) {key : Text} (hnd : (arguments.map Prod.fst).Nodup)
    (hmem : (key, .string text) ∈ arguments) : lookup key arguments = some (.string text) ∧
      (finalPieces tool arguments).flatMap (fun piece => textFor key piece.text) <+: text := by
  induction arguments using reverseRecOn with
  | nil => cases hmem
  | append_singleton arguments entry ih =>
    obtain ⟨key', value⟩ := entry
    rw [map_append, map_singleton, nodup_append] at hnd
    obtain ⟨hnd, -, ha⟩ := hnd
    rw [finalPieces_concat, flatMap_append, flatMap_singleton]
    rcases mem_append.mp hmem with hin | hin
    · -- an earlier argument: the last one has another key
      have hne : key' ≠ key := by
        rintro rfl
        exact ha _ (mem_map_of_mem hin) _ (by simp) rfl
      obtain ⟨hl, hp⟩ := ih hnd hin
      constructor
      · unfold lookup at hl ⊢
        rw [find?_append]
        cases hf : arguments.find? fun member => member.1 == key with
        | none => rw [hf] at hl; cases hl
        | some => rw [hf] at hl; exact hl
      · have hla : textFor key (finalPiece tool (arguments.length + 1) key' value).text = [] := by
          unfold finalPiece
          split
          · cases value.asStr with
            | none => rfl
            | some => simp [textFor, hne]
          · rfl
        rw [hla, append_nil]
        exact hp
    · cases mem_singleton.mp hin
      have hn : key ∉ arguments.map Prod.fst := by
        intro hold
        exact ha _ hold _ (by simp) rfl
      rw [finalPieces_text_nil hn, nil_append]
      constructor
      · unfold lookup
        have hno : (arguments.find? fun member => member.1 == key) = none := by
          rw [find?_eq_none]
          intro member hm heq
          exact hn (beq_iff_eq.mp heq ▸ mem_map_of_mem hm)
        rw [find?_append, hno]
        simp
      · unfold finalPiece
        split
        · simp [Json.asStr, textFor]
        · exact nil_prefix

theorem Sent.spelled {streamed : Streamed} {log : List (Event L)} {front : List Piece}
    {last : Piece} (hs : Sent streamed (deltasOf streamed.id log) front last)
    (hg : Grows (front ++ [last]) (finalPieces tool arguments))
    (hnd : (arguments.map Prod.fst).Nodup)
    (hn : ∀ delta ∈ deltasOf streamed.id log, delta.name = name) :
    Spelled log ⟨streamed.id, name, .object arguments⟩ := by
  obtain ⟨hj, ht, hk⟩ := hg.spells
  refine ⟨?_, hn, ?_⟩
  · show (deltasOf streamed.id log).flatMap ToolCallDelta.arguments <+: _
    rw [hs.arguments, Json.toText]
    refine hj.trans ?_
    rw [finalPieces_json]
    exact prefix_append _ _
  · intro delta hd key text hte
    obtain ⟨piece, hp, text', hp'⟩ := hs.keys delta hd key text hte
    obtain ⟨other, ho, value, ho'⟩ := hk piece hp key text' hp'
    obtain ⟨hl, hpre⟩ := finalPieces_text tool hnd (mem_finalPieces ho ho')
    refine ⟨value, hl, ?_⟩
    rw [hs.text key]
    exact (ht key).trans hpre

/-! ### Texts in the layout of strict tools -/

def blocks (tools : ToolSet) (inCall : Bool) (text : Text) : List Text :=
  if inCall then
    match _hend : callEnd text tools with
    | none => []
    | some (block, rest, _, _) => block :: blocks tools false rest
  else
    match _hstart : splitOnce callStart text with
    | none => []
    | some (_, rest) => blocks tools true rest
termination_by text.length
decreasing_by
  · obtain ⟨htext, hmarker⟩ := callEnd_eq_some _hend
    have := length_pos_iff.mpr hmarker
    rw [htext]
    simp only [length_append]
    omega
  · rw [splitOnce_eq_some _hstart]
    have : 0 < callStart.length := by decide
    simp only [length_append]
    omega

def InLayout (tools : ToolSet) (block : Text) : Prop :=
  ∀ name rest tool, functionHeader block = some (name, rest) → tools.get name = some tool →
    tool.strict.isSome = true → StrictLayout tool block

/-- Every completed call to a strict tool is in that tool's layout. -/
def LaidOut (tools : ToolSet) (inCall : Bool) (text : Text) : Prop :=
  ∀ block ∈ blocks tools inCall text, InLayout tools block

variable {env : Env} {tools : ToolSet}

theorem blocks_call (h : callEnd text tools = some (block, rest, marker, strict)) :
    blocks tools true text = block :: blocks tools false rest := by
  rw [blocks, if_pos rfl]
  split
  · next hn => rw [h] at hn; cases hn
  · next hs =>
    rw [h] at hs
    cases hs
    rfl

theorem LaidOut.call {more : Text} (h : LaidOut tools true (pending ++ more))
    (he : callEnd pending tools = some (block, rest, marker, strict)) :
    InLayout tools block ∧ LaidOut tools false (rest ++ more) := by
  unfold LaidOut at h
  rw [blocks_call (callEnd_append he more)] at h
  exact ⟨h block mem_cons_self, fun other ho => h other (mem_cons_of_mem _ ho)⟩

theorem blocks_start {before : Text} (h : splitOnce callStart text = some (before, rest)) :
    blocks tools false text = blocks tools true rest := by
  rw [blocks, if_neg (by decide)]
  split
  · next hn => rw [h] at hn; cases hn
  · next hs =>
    rw [h] at hs
    cases hs
    rfl

theorem blocks_text (h : splitOnce callStart text = none) : blocks tools false text = [] := by
  rw [blocks, if_neg (by decide)]
  split
  · rfl
  · next hs => rw [h] at hs; cases hs

theorem LaidOut.start {before more : Text} (h : LaidOut tools false (pending ++ more))
    (hs : splitOnce callStart pending = some (before, rest)) :
    LaidOut tools true (rest ++ more) := by
  unfold LaidOut at h
  rwa [blocks_start (splitOnce_append hs more)] at h

theorem LaidOut.held {more : Text} (h : LaidOut tools false (pending ++ more))
    (hn : splitOnce callStart pending = none) : LaidOut tools false (heldText pending ++ more) := by
  have hs := splitOnce_ready hn more
  unfold LaidOut at h ⊢
  cases hh : splitOnce callStart (heldText pending ++ more) with
  | none =>
    rw [blocks_text hh]
    simp
  | some parts =>
    obtain ⟨before, rest⟩ := parts
    rw [hh, Option.map_some] at hs
    rw [blocks_start hs] at h
    rw [blocks_start hh]
    exact h

/-! ### From piece to piece -/

/-- What the log and the parser agree on: completed calls are spelled, and the
open call's deltas spell a beginning of its certain pieces. -/
structure Streaming (env : Env) (tools : ToolSet) (log : List (Event L)) (p : ToolCallParser) :
    Prop where
  deltas : ∀ delta, .toolCallDelta delta ∈ log → delta.id < p.nextCallId
  calls : ∀ call, .toolCall call ∈ log → call.id < p.nextCallId ∧ Spelled log call
  opened : ∀ streamed, p.streamed = some streamed →
    p.inCall = true ∧ streamed.id < p.nextCallId ∧
    (∀ call, .toolCall call ∈ log → call.id ≠ streamed.id) ∧
    (∀ delta ∈ deltasOf streamed.id log, delta.name = streamed.name) ∧
    ∃ front last all, Sent streamed (deltasOf streamed.id log) front last ∧
      certain env p.pending tools = some (streamed.name, all) ∧ Grows (front ++ [last]) all

theorem deltasOf_new {id : CallId} {new : List ToolCallDelta} (h : ∀ delta ∈ new, delta.id = id) :
    deltasOf id (new.map (Event.toolCallDelta (L := L))) = new := by
  induction new with
  | nil => rfl
  | cons delta new ih =>
    have hr := ih fun other ho => h other (mem_cons_of_mem _ ho)
    unfold deltasOf at hr ⊢
    simp only [map_cons, filterMap_cons, h delta mem_cons_self, if_true]
    exact congrArg (delta :: ·) hr

theorem deltasOf_other {id : CallId}
    (h : ∀ delta, .toolCallDelta delta ∈ events → delta.id ≠ id) : deltasOf id events = [] := by
  unfold deltasOf
  rw [filterMap_eq_nil_iff]
  intro event hev
  cases event with
  | toolCallDelta delta => exact if_neg (h delta hev)
  | _ => rfl

theorem Spelled.append {log : List (Event L)} {call : ToolCall} (h : Spelled log call)
    (ho : ∀ delta, .toolCallDelta delta ∈ events → delta.id ≠ call.id) :
    Spelled (log ++ events) call := by
  unfold Spelled
  rw [deltasOf_append, deltasOf_other ho, append_nil]
  exact h

variable {log : List (Event L)} {p : ToolCallParser}

theorem Streaming.content (h : Streaming env tools log p) {p' : ToolCallParser}
    (hsa : p'.streamed = none ∧ p'.nextCallId = p.nextCallId)
    (he : ∀ event ∈ events, ∃ text, event = .content text) :
    Streaming env tools (log ++ events) p' := by
  obtain ⟨hst, hid⟩ := hsa
  have hd : ∀ delta, Event.toolCallDelta delta ∉ events := by
    intro delta hm
    obtain ⟨text, heq⟩ := he _ hm
    cases heq
  have hc : ∀ call, Event.toolCall call ∉ events := by
    intro call hm
    obtain ⟨text, heq⟩ := he _ hm
    cases heq
  refine ⟨fun delta hm => ?_, fun call hm => ?_, fun streamed hs => ?_⟩
  · rw [hid]
    rcases mem_append.mp hm with hin | hin
    · exact h.deltas delta hin
    · exact absurd hin (hd delta)
  · rw [hid]
    rcases mem_append.mp hm with hin | hin
    · obtain ⟨hlt, hsp⟩ := h.calls call hin
      exact ⟨hlt, hsp.append fun delta hm => absurd hm (hd delta)⟩
    · exact absurd hin (hc call)
  · rw [hst] at hs
    cases hs

theorem Streaming.streamed_none (h : Streaming env tools log p) (hin : p.inCall = false) :
    p.streamed = none := by
  rcases Option.eq_none_or_eq_some p.streamed with hn | ⟨streamed, hs⟩
  · exact hn
  · rw [(h.opened streamed hs).1] at hin
    cases hin

theorem emitText_record (text : Text) (offset : Nat) (p : ToolCallParser) (log : List (Event L)) :
    ∃ events afterCall, (∀ event ∈ events, ∃ text, event = Event.content text) ∧
      emitText record text offset p log = ({ p with afterCall }, log ++ events, true) := by
  unfold emitText
  generalize (if p.afterCall = true then trimStart text else text) = trimmed
  cases trimmed with
  | nil => exact ⟨[], p.afterCall, by simp, by simp⟩
  | cons c trimmed => exact ⟨[.content (c :: trimmed)], false, by simp, rfl⟩

theorem Streaming.more (h : Streaming env tools log p)
    (hsound : ∀ name tool, tools.get name = some tool → TextSound env tool) (text : Text) :
    Streaming env tools log { p with pending := p.pending ++ text } := by
  refine ⟨h.deltas, h.calls, fun streamed hs => ?_⟩
  obtain ⟨hin, hlt, hc, hn, front, last, all, hse, hce, hg⟩ :=
    h.opened streamed hs
  obtain ⟨after, ha, hm⟩ := certain_grows (hsound streamed.name) hce text
  exact ⟨hin, hlt, hc, hn, front, last, after, hse, ha, hg.trans hm⟩

theorem Streaming.continues (h : Streaming env tools log p) {all : List Piece}
    (hc : certain env p.pending tools = some (name, all))
    (hf : ∃ piece rest, all = piece :: rest ∧ piece.json ≠ []) :
    (p.counters name).1.name = name ∧ (p.counters name).1.id < (p.counters name).2 ∧
      p.nextCallId ≤ (p.counters name).2 ∧
      (∀ call, .toolCall call ∈ log → call.id ≠ (p.counters name).1.id) ∧
      (∀ delta ∈ deltasOf (p.counters name).1.id log, delta.name = (p.counters name).1.name) ∧
      ∃ front last, Sent (p.counters name).1 (deltasOf (p.counters name).1.id log) front last ∧
        Grows (front ++ [last]) all := by
  unfold ToolCallParser.counters
  cases hs : p.streamed with
  | some streamed =>
    obtain ⟨hin, hlt, hca, hna, front, last, all', hse, hc', hg⟩ :=
      h.opened streamed hs
    rw [hc] at hc'
    cases hc'
    exact ⟨rfl, hlt, le_rfl, hca, hna, front, last, hse, hg⟩
  | none =>
    have hn : deltasOf p.nextCallId log = [] :=
      deltasOf_other fun delta hm => Nat.ne_of_lt (h.deltas delta hm)
    obtain ⟨piece, rest, rfl, hj⟩ := hf
    refine ⟨rfl, Nat.lt_succ_self _, Nat.le_succ _, fun call hm => ?_, ?_, [], ⟨[], none⟩, ?_, ?_⟩
    · exact Nat.ne_of_lt (h.calls call hm).1
    · simp [hn]
    · rw [hn]
      exact Sent.start _ _
    · have := Piece.Le.opening [] piece.json piece.text fun hnil => absurd hnil hj
      exact .last (by simpa using this) rest

theorem stream_streaming (h : Streaming env tools log p) (hin : p.inCall = true) :
    Streaming env tools (stream env tools record p log).2.1 (stream env tools record p log).1 ∧
      (stream env tools record p log).1.pending = p.pending ∧
      (stream env tools record p log).1.inCall = true ∧
      (stream env tools record p log).1.failure = p.failure := by
  unfold stream
  cases hp : pieces env p.pending tools with
  | none => exact ⟨h, rfl, hin, rfl⟩
  | some parts =>
    obtain ⟨name, sent⟩ := parts
    obtain ⟨all, hce, ha⟩ := pieces_eq hp
    obtain ⟨hne, hj⟩ := pieces_json hp
    obtain ⟨first, rest, rfl⟩ := exists_cons_of_ne_nil hne
    have hf : ∃ piece rest, all = piece :: rest ∧ piece.json ≠ [] := by
      rcases ha with rfl | ⟨q, rfl⟩
      · exact ⟨first, rest, rfl, hj first mem_cons_self⟩
      · exact ⟨first, rest ++ [q], rfl, hj first mem_cons_self⟩
    obtain ⟨hn, hlt, hle, hc, hna, front, last, hse, hg⟩ :=
      h.continues hce hf
    obtain ⟨streamed', new, front', last', hr, hse', hg', hid', hn', hnew⟩ :=
      sendPieces_grows p.consumed log hse hg ha hj
    dsimp only
    generalize p.counters name = counters at *
    obtain ⟨streamed, nextCallId⟩ := counters
    rw [hr]
    refine ⟨⟨fun delta hm => ?_, fun call hm => ?_, fun streamed'' hs => ?_⟩, rfl, hin, rfl⟩
    · rcases mem_append.mp hm with hold | hm
      · exact Nat.lt_of_lt_of_le (h.deltas delta hold) hle
      · obtain ⟨delta', hd', heq⟩ := mem_map.mp hm
        cases heq
        rw [(hnew delta hd').1]
        exact hlt
    · rcases mem_append.mp hm with hold | hm
      · obtain ⟨hid, hsp⟩ := h.calls call hold
        refine ⟨Nat.lt_of_lt_of_le hid hle, hsp.append ?_⟩
        intro delta hd
        obtain ⟨delta', hd', heq⟩ := mem_map.mp hd
        cases heq
        rw [(hnew delta hd').1]
        exact (hc call hold).symm
      · obtain ⟨delta', hd', heq⟩ := mem_map.mp hm
        cases heq
    · cases hs
      have hde : deltasOf streamed'.id (log ++ new.map .toolCallDelta)
          = deltasOf streamed.id log ++ new := by
        rw [deltasOf_append, hid', deltasOf_new fun delta hd => (hnew delta hd).1]
      refine ⟨hin, by rw [hid']; exact hlt, fun call hm => ?_, ?_, front', last', all, ?_, ?_, hg'⟩
      · rw [hid']
        rcases mem_append.mp hm with hold | hm
        · exact hc call hold
        · obtain ⟨delta', hd', heq⟩ := mem_map.mp hm
          cases heq
      · rw [hde, hn']
        intro delta hd
        rcases mem_append.mp hd with hold | hm
        · exact hna delta hold
        · exact (hnew delta hm).2
      · rw [hde]
        exact hse'
      · rw [hn', hn]
        exact hce

theorem callEnd_strict (h : callEnd pending tools = some (block, rest, marker, strict)) :
    strict = strictHeader tools pending ∧
      marker = (if strict.isSome then strictCallEnd else callEndTag) := by
  rw [callEnd_eq] at h
  split at h
  · next tool hh =>
    obtain ⟨⟨block', rest'⟩, _, heq⟩ := Option.map_eq_some_iff.mp h
    cases heq
    exact ⟨hh.symm, rfl⟩
  · next hh =>
    obtain ⟨⟨block', rest'⟩, _, heq⟩ := Option.map_eq_some_iff.mp h
    cases heq
    exact ⟨hh.symm, rfl⟩

theorem strictHeader_of_layout (hcompiled : tools.Compiled)
    (hm : tool ∈ tools.tools) (hl : StrictLayout tool block) (more : Text) :
    strictHeader tools (block ++ more) = some tool := by
  obtain ⟨strict, items, hs, hb, _⟩ := hl
  have ha : tools.anyStrict = true := any_eq_true.mpr ⟨tool, hm, by simp [hs]⟩
  have ho : stripPrefix functionOpen (block ++ more)
      = some (tool.definition.name ++ (['>'] ++ (items.flatMap strictItem ++ more))) := by
    rw [hb, stripPrefix_eq_some]
    simp only [append_assoc]
  have hn := (hcompiled.compiled tool hm).name
  have hsp : splitOnce ['>'] (tool.definition.name ++ (['>'] ++ (items.flatMap strictItem ++ more)))
      = some (tool.definition.name, items.flatMap strictItem ++ more) :=
    splitOnce_of_notMem (notMem_of_validToolName hn (by decide)) _
  rw [strictHeader, if_pos ha, ho, Option.bind_some, hsp, Option.bind_some]
  dsimp only
  rw [hcompiled.get_of_mem hm]
  simp [Option.filter, hs]

theorem parseBlock_certain (hcompiled : tools.Compiled) (hcut : JsonCut env)
    (hsound : ∀ name tool, tools.get name = some tool → TextSound env tool)
    (hlay : InLayout tools block) (he : callEnd pending tools = some (block, rest, marker, strict))
    (hp : parseBlock env tools block strict = .ok (name, arguments)) :
    (arguments.map Prod.fst).Nodup ∧
      ∀ name' all, certain env pending tools = some (name', all) →
        name' = name ∧ ∃ tool, Grows all (finalPieces tool arguments) := by
  obtain ⟨hpe, _⟩ := callEnd_eq_some he
  obtain ⟨hst, hm⟩ := callEnd_strict he
  rw [append_assoc] at hpe
  cases strict with
  | none =>
    have hp : parseCall env block tools = .ok (name, arguments) := hp
    obtain ⟨parameters, tail, hh, ha⟩ := parseCall_eq_ok hp
    refine ⟨parseParameters_nodup _ _ _ _ ha nodup_nil, fun name' all hc => ?_⟩
    cases ht : tools.get name with
    | none =>
      rw [hpe, certain, functionHeader_append hh] at hc
      simp [ht] at hc
    | some tool =>
      have hn : tool.strict = none := by
        cases hs : tool.strict with
        | none => rfl
        | some =>
          -- a strict tool in its layout would have ended the call otherwise
          have hl := hlay name _ tool hh ht (by simp [hs])
          have := strictHeader_of_layout hcompiled (ToolSet.get_eq_some ht).1 hl (marker ++ rest)
          rw [← hpe, ← hst] at this
          cases this
      have hf := parseCall_certain hp ht hn (hsound name tool ht) (marker ++ rest)
      rw [← hpe, hc] at hf
      cases hf
      exact ⟨rfl, tool, .of_isPrefix (finalPieces_ne_nil _ _) prefix_rfl⟩
  | some tool =>
    have hp : parseStrict env block tool = .ok (name, arguments) := hp
    obtain ⟨rfl, spelled, parameters, hsp, hb, ha⟩ := parseStrict_eq_ok hp
    refine ⟨(parseStrictParameters_isPrefix _ _ _ _ ha).2 nodup_nil, fun name' all hc => ?_⟩
    have hmem : tool ∈ tools.tools := by
      have hh := hst.symm
      unfold strictHeader at hh
      split at hh
      · obtain ⟨header, _, hget⟩ := Option.bind_eq_some_iff.mp hh
        exact (ToolSet.get_eq_some (Option.eq_some_of_filter_eq_some hget)).1
      · cases hh
    have ht := hcompiled.get_of_mem hmem
    have hna := (hcompiled.compiled tool hmem).name
    have hh : functionHeader block = some (tool.definition.name, parameters) := by
      rw [hb]
      exact functionHeader_strict hna parameters
    have hl := hlay _ _ tool hh ht (by simp [hsp])
    obtain ⟨pieces, hpi, hg⟩ := parseStrict_certain hcut (hsound _ tool ht)
      (hcompiled.compiled tool hmem) hl hp ht rest
    have hm : marker = strictCallEnd := hm
    rw [hm] at hpe
    rw [← hpe, hc] at hpi
    cases hpi
    exact ⟨rfl, tool, hg⟩

def ToolCallParser.closed (p : ToolCallParser) (rest : Text) (consumed : Nat) : ToolCallParser :=
  { p with
    pending := rest, consumed, inCall := false, afterCall := true, streamed := none,
    nextCallId := p.nextCallId + 1 }

theorem Streaming.completed (h : Streaming env tools log p) (hnd : (arguments.map Prod.fst).Nodup)
    (hc : ∀ name' all, certain env p.pending tools = some (name', all) →
      name' = name ∧ ∃ tool, Grows all (finalPieces tool arguments)) (rest : Text) (consumed : Nat) :
    Streaming env tools
      (log ++ [.toolCall ⟨(p.streamed.map Streamed.id).getD p.nextCallId, name, .object arguments⟩])
      (p.closed rest consumed) := by
  have hd : ∀ call : ToolCall, ∀ delta, Event.toolCallDelta delta ∈ [(.toolCall call : Event L)] →
      delta.id ≠ call.id := by
    intro call delta hm
    cases mem_singleton.mp hm
  have hnew : ((p.streamed.map Streamed.id).getD p.nextCallId) < p.nextCallId + 1 ∧
      Spelled log ⟨(p.streamed.map Streamed.id).getD p.nextCallId, name, .object arguments⟩ := by
    cases hs : p.streamed with
    | none =>
      -- no delta has the new id yet
      have hno : deltasOf p.nextCallId log = [] :=
        deltasOf_other fun delta hm => Nat.ne_of_lt (h.deltas delta hm)
      refine ⟨Nat.lt_succ_self _, ?_⟩
      unfold Spelled
      rw [Option.map_none, Option.getD_none, hno]
      exact ⟨ nil_prefix, by simp, by simp⟩
    | some streamed =>
      obtain ⟨_, hlt, _, hn, front, last, all, hse, ha, hg⟩ := h.opened streamed hs
      obtain ⟨rfl, tool, hf⟩ := hc _ _ ha
      exact ⟨Nat.lt_succ_of_lt hlt, hse.spelled (hg.trans hf) hnd hn⟩
  refine ⟨fun delta hm => ?_, fun call hm => ?_, fun streamed hs => by cases hs⟩
  · rcases mem_append.mp hm with hin | hin
    · exact Nat.lt_succ_of_lt (h.deltas delta hin)
    · cases mem_singleton.mp hin
  · rcases mem_append.mp hm with hin | hin
    · obtain ⟨hlt, hsp⟩ := h.calls call hin
      refine ⟨Nat.lt_succ_of_lt hlt, hsp.append fun delta hm => ?_⟩
      cases mem_singleton.mp hm
    · cases mem_singleton.mp hin
      exact ⟨hnew.1, hnew.2.append (hd _)⟩

/-- What the log and the parser agree on, with the texts that may still come. -/
structure Feeding (env : Env) (tools : ToolSet) (future : Text)
    (out : ToolCallParser × List (Event L) × Bool) : Prop where
  streaming : Streaming env tools out.2.1 out.1
  laidOut : out.1.failure = none → LaidOut tools out.1.inCall (out.1.pending ++ future)

section Feed

variable (hcompiled : tools.Compiled) (hcut : JsonCut env)
  (hsound : ∀ name tool, tools.get name = some tool → TextSound env tool)

include hcompiled hcut hsound

theorem feedLoop_streaming (future : Text) :
    ∀ (fuel : Nat) {p : ToolCallParser} {log : List (Event L)}, Streaming env tools log p →
      LaidOut tools p.inCall (p.pending ++ future) →
      Feeding env tools future (feedLoop env tools record fuel p log)
  | 0, p, log, h, hl => ⟨h, fun _ => hl⟩
  | fuel + 1, p, log, h, hl => by
    rw [feedLoop]
    have hc : p.inCall = true ∨ p.inCall = false := by cases p.inCall <;> simp
    rcases hc with hin | hin
    · rw [if_pos hin]
      rw [hin] at hl
      cases hend : callEnd p.pending tools with
      | none =>
        obtain ⟨hstream, hpe, hin', _⟩ := stream_streaming h hin
        refine ⟨hstream, fun _ => ?_⟩
        rw [hin', hpe]
        exact hl
      | some ended =>
        obtain ⟨block, rest, marker, strict⟩ := ended
        obtain ⟨hlay, hr⟩ := hl.call hend
        dsimp only
        cases hp : parseBlock env tools block strict with
        | error =>
          -- a failed call says nothing, and nothing follows it
          refine ⟨⟨h.deltas, h.calls, fun streamed hs => by cases hs⟩, fun hn => by cases hn⟩
        | ok parsed =>
          obtain ⟨name, arguments⟩ := parsed
          obtain ⟨hnd, hce⟩ := parseBlock_certain hcompiled hcut hsound hlay hend hp
          have hd := h.completed hnd hce rest (p.consumed + utf8Len (block ++ marker))
          exact feedLoop_streaming future fuel hd hr
    · rw [if_neg (by simp [hin])]
      rw [hin] at hl
      cases hstart : splitOnce callStart p.pending with
      | some parts =>
        obtain ⟨text, rest⟩ := parts
        obtain ⟨events, afterCall, hevs, he⟩ := emitText_record (trimEnd text) p.consumed { p with
            pending := rest, consumed := p.consumed + utf8Len (text ++ callStart), inCall := true }
          log
        dsimp only
        rw [he]
        refine feedLoop_streaming future fuel (h.content (by exact ⟨h.streamed_none hin, rfl⟩) hevs)
          (hl.start hstart)
      | none =>
        dsimp only
        split
        · exact ⟨h, fun _ => by rw [hin]; exact hl⟩
        · obtain ⟨events, afterCall, hevs, he⟩ := emitText_record
            (p.pending.take (p.pending.length - heldSuffix p.pending)) p.consumed
            { p with
              pending := p.pending.drop (p.pending.length - heldSuffix p.pending),
              consumed := p.consumed +
                utf8Len (p.pending.take (p.pending.length - heldSuffix p.pending)) } log
          rw [he]
          refine ⟨h.content (by exact ⟨h.streamed_none hin, rfl⟩) hevs, fun _ => ?_⟩
          rw [hin, length_sub_heldSuffix]
          exact hl.held hstart

theorem feed_streaming (text future : Text) {p : ToolCallParser} {log : List (Event L)}
    (h : Streaming env tools log p)
    (hl : p.failure = none → LaidOut tools p.inCall (p.pending ++ (text ++ future))) :
    Feeding env tools future (feed env tools record text p log) := by
  unfold feed
  split
  · next hf =>
    refine ⟨h, fun hn => ?_⟩
    have hn : p.failure = none := hn
    rw [hn] at hf
    cases hf
  · next hf =>
    refine feedLoop_streaming hcompiled hcut hsound future _ (h.more hsound text) ?_
    rw [append_assoc]
    exact hl (by simpa using hf)

end Feed

def feedAll (L : Type) (env : Env) (tools : ToolSet) (nextCallId : CallId) (pieces : List Text) :
    ToolCallParser × List (Event L) :=
  pieces.foldl (fun state piece =>
      let out := feed env tools record piece state.1 state.2
      (out.1, out.2.1))
    (ToolCallParser.new nextCallId, [])

theorem feedAll_streaming (hcompiled : tools.Compiled) (hcut : JsonCut env)
    (hsound : ∀ name tool, tools.get name = some tool → TextSound env tool) (nextCallId : CallId)
    {pieces : List Text} (hl : LaidOut tools false pieces.flatten) :
    Streaming env tools (feedAll L env tools nextCallId pieces).2
      (feedAll L env tools nextCallId pieces).1 := by
  -- over the pieces, with the text that is still to come
  have hr : ∀ (pieces : List Text) (p : ToolCallParser) (log : List (Event L)),
      Streaming env tools log p →
      (p.failure = none → LaidOut tools p.inCall (p.pending ++ pieces.flatten)) →
      let state := pieces.foldl (fun state piece =>
        let out := feed env tools record piece state.1 state.2
        (out.1, out.2.1)) (p, log)
      Streaming env tools state.2 state.1 := by
    intro pieces
    induction pieces with
    | nil => intro p log h _; exact h
    | cons piece pieces ih =>
      intro p log h hl
      have hf := feed_streaming hcompiled hcut hsound piece pieces.flatten h hl
      exact ih _ _ hf.streaming hf.laidOut
  refine hr pieces _ _ ⟨by simp, by simp, fun streamed hs => by cases hs⟩ fun _ => ?_
  exact hl

end LocalAi.Tools
