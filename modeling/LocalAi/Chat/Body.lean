import LocalAi.Chat.Reply

/-!
# The whole answer

A Chat Completions answer that is not streamed is still written while it is generated: the
strings first, as their pieces arrive, and what is known only at the end behind them.

* `Body.Wrote`: the text written after what was heard.
* `pump_finished`, `pump_failed`: the frames of a whole generation.
-/

open List

namespace LocalAi.Chat

open Responses (argumentsText)

variable {L : Type}

/-! ### Frames -/

/-- A `zstd` encoder that writes into a buffer, and what a decoder makes of its output.
`Wrote e written out`: `e` was given `written` and has put out `out`. -/
structure Zstd where
  Encoder : Type
  new : Encoder
  write : Encoder → Text → Encoder
  flush : Encoder → Encoder × List UInt8
  finish : Encoder → List UInt8
  decode : List UInt8 → Option Text
  Wrote : Encoder → Text → List UInt8 → Prop
  new_wrote : Wrote new [] []
  write_wrote : ∀ {e written out} text, Wrote e written out →
    Wrote (write e text) (written ++ text) out
  flush_wrote : ∀ {e written out}, Wrote e written out →
    Wrote (flush e).1 written (out ++ (flush e).2)
  flush_ne_nil : ∀ {e written out text}, Wrote e written out → text ≠ [] →
    (flush (write e text)).2 ≠ []
  finish_decode : ∀ {e written out}, Wrote e written out → decode (out ++ finish e) = some written
  cut_decode : ∀ {e written out text}, Wrote e written out → decode out = some text →
    text <+: written

inductive Codec (zstd : Zstd)
  | plain
  | zstd (slot : Option zstd.Encoder)

/-- A frame of the body: text as UTF-8, or what the encoder put out. -/
inductive Frame
  | plain (text : Text)
  | packed (bytes : List UInt8)

def Frame.text : Frame → Text
  | .plain text => text
  | .packed _ => []

def Frame.bytes : Frame → List UInt8
  | .plain _ => []
  | .packed bytes => bytes

/-- What the client has of the body's text. -/
def received (zstd : Zstd) (compressed : Bool) (frames : List Frame) : Option Text :=
  if compressed then zstd.decode (frames.flatMap Frame.bytes)
  else some (frames.flatMap Frame.text)

/-! ### The writer -/

/-- Body bytes written in one frame when the generation outruns the clock. -/
def bodyFlushBytes : Nat := 8 * 1024

def members : List Text := ["reasoning_content".toList, "content".toList]

/-- The head of the body; its first member's value is not opened. -/
def streamHead : Text :=
  "\x7b\"choices\":[\x7b\"index\":0,\"message\":\x7b\"reasoning_content\":".toList

structure Body (zstd : Zstd) where
  reply : Reply
  calls : List ToolCall
  logprobs : Option (List Json)
  /-- How many of the members have been declared. -/
  declared : Nat
  /-- The last declared member's string is open for more pieces. -/
  isOpen : Bool
  /-- Text that is not yet handed to the socket. -/
  pending : Text
  codec : Codec zstd

section Writer

variable {zstd : Zstd}

def Body.push (body : Body zstd) (text : Text) : Body zstd :=
  { body with pending := body.pending ++ text }

/-- `Body::open`; `encoder` is there when the client takes zstd and an encoder opened. -/
def Body.start (reply : Reply) (encoder : Bool) : Body zstd where
  reply := reply
  calls := []
  logprobs := if reply.logprobs then some [] else none
  declared := 1
  isOpen := false
  pending := streamHead
  codec := if encoder then .zstd (some zstd.new) else .plain

def Body.piece (body : Body zstd) (piece : Text) : Body zstd :=
  let body := if body.isOpen then body else { body.push ['"'] with isOpen := true }
  body.push (escape piece)

/-- Close the value the cursor is on, as the empty string if nothing was written into it. -/
def Body.closeValue (body : Body zstd) : Body zstd :=
  { body.push (if body.isOpen then ['"'] else ['"', '"']) with isOpen := false }

/-- Close the member before and name the next, until every member has been declared. -/
def Body.declareRest (body : Body zstd) : Body zstd :=
  (members.drop body.declared).foldl (fun body name =>
    { (body.closeValue).push (',' :: quote name ++ [':']) with declared := body.declared + 1 }) body

def Body.reasoning (body : Body zstd) (piece : Text) : Body zstd := body.piece piece

def Body.content (body : Body zstd) (piece : Text) : Body zstd := body.declareRest.piece piece

def Body.heartbeat (body : Body zstd) : Body zstd := body.push [' ']

variable (printed : CallId → Text)

/-- `Map::remove` of a map that keeps its order: the last member takes the place. -/
def swapRemove (key : Text) (members : List (Text × Json)) : List (Text × Json) :=
  match members.findIdx? (fun member => member.1 == key), members.getLast? with
  | some index, some last => (members.set index last).dropLast
  | _, _ => members

def messageCall (index : Nat) (call : ToolCall) : Json :=
  .object (swapRemove "index".toList (chatToolCall printed index call))

def messageCalls (calls : List ToolCall) : Json :=
  .array (calls.zipIdx.map fun call => messageCall printed call.2 call.1)

def logprobsJson : Option (List Json) → Json
  | none => .null
  | some tokens => .object [("content".toList, .array tokens), ("refusal".toList, .null)]

/-- The members behind `choices`. -/
def trailer (reply : Reply) (stats : Stats) : List (Text × Json) :=
  [("created".toList, nat reply.created), ("id".toList, .string reply.id),
    ("model".toList, .string reply.model), ("object".toList, str "chat.completion"),
    ("speculation".toList, stats.speculation), ("timings".toList, stats.timings),
    ("usage".toList, usageJson stats)]

/-- What closes the choice and the document. -/
def streamTail (reply : Reply) (calls : List ToolCall) (logprobs : Option (List Json))
    (stats : Stats) : Text :=
  (if calls.isEmpty then []
    else ",\"tool_calls\":".toList ++ (messageCalls printed calls).toText) ++
    ",\"role\":\"assistant\"\x7d".toList ++
    ",\"logprobs\":".toList ++ (logprobsJson logprobs).toText ++
    ",\"finish_reason\":".toList ++ quote (chatFinishReason stats.stopReason !calls.isEmpty) ++
    "\x7d]".toList ++
    ((trailer reply stats).flatMap fun member =>
      ',' :: quote member.1 ++ ':' :: member.2.toText) ++
    ['\x7d']

/-- Close the last value, the choice and the document behind it. -/
def Body.finish (body : Body zstd) (stats : Stats) : Body zstd :=
  let body := body.declareRest
  let calls := body.calls
  let logprobs := body.logprobs
  let body := { body with calls := [], logprobs := none }
  let body := if !body.isOpen && !calls.isEmpty then body.push "null".toList else body.closeValue
  body.push (streamTail printed body.reply calls logprobs stats)

/-- Enough has accumulated; `late` tells that enough time has passed. -/
def Body.due (body : Body zstd) (late : Bool) : Bool :=
  !body.pending.isEmpty && (decide (bodyFlushBytes ≤ utf8Len body.pending) || late)

/-- Take the frame to write, closing the transfer encoding on the last one. -/
def Body.take (body : Body zstd) (last : Bool) : Option Frame × Body zstd :=
  let pending := body.pending
  let body := { body with pending := [] }
  match body.codec with
  | .plain => if pending.isEmpty then (none, body) else (some (.plain pending), body)
  | .zstd none => (none, body)
  | .zstd (some encoder) =>
    let encoder := zstd.write encoder pending
    if last then (some (.packed (zstd.finish encoder)), { body with codec := .zstd none })
    else if pending.isEmpty then (none, { body with codec := .zstd (some encoder) })
    else
      let flushed := zstd.flush encoder
      ((if flushed.2.isEmpty then none else some (.packed flushed.2)),
        { body with codec := .zstd (some flushed.1) })

/-- What to do with the body after one signal. -/
inductive Flow
  | keep
  | flush
  | last
  | stop
deriving DecidableEq

variable (logprob : L → Json)

def due (body : Body zstd) (late : Bool) : Flow := if body.due late then .flush else .keep

/-- Fold one signal into the body and say what to write. -/
def absorb (body : Body zstd) (signal : Signal L) (late : Bool) : Flow × Body zstd :=
  match checked signal with
  | .progress => (.flush, body.heartbeat)
  | .event (.content piece) => (due (body.content piece) late, body.content piece)
  | .event (.reasoning piece) => (due (body.reasoning piece) late, body.reasoning piece)
  | .tokenIds _ => (.keep, body)
  | .event (.toolCallDelta _) => (.keep, body)
  | .event (.toolCall call) => (.keep, { body with calls := body.calls ++ [call] })
  | .event (.logprobs tokens) =>
    (.keep, { body with logprobs := body.logprobs.map (· ++ tokens.map logprob) })
  | .finished stats => (.last, body.finish printed stats)
  | .error _ => (.stop, body)

/-- The frames of the signals, each with whether it came late, for a client that takes them. -/
def pump : Body zstd → List (Signal L × Bool) → List Frame
  | _, [] => []
  | body, (signal, late) :: signals =>
    let absorbed := absorb printed logprob body signal late
    match absorbed.1 with
    | .stop => []
    | .keep => pump absorbed.2 signals
    | flow =>
      let taken := absorbed.2.take (flow == .last)
      match taken.1 with
      | none => []
      | some frame => frame :: pump taken.2 signals

/-- The frames of a body; its head goes out before anything is waited for. -/
def frames (body : Body zstd) (signals : List (Signal L × Bool)) : List Frame :=
  let taken := body.take false
  match taken.1 with
  | none => []
  | some frame => frame :: pump printed logprob taken.2 signals

end Writer

/-! ### What is written -/

section Written

variable {zstd : Zstd}

/-- The text of the body after what was heard and some prefill boundaries. -/
def writtenText (boundaries : Nat) (h : Heard L) : Text :=
  streamHead ++ List.replicate boundaries ' ' ++
    if h.answered then
      quote h.reasoning ++ ",\"content\":".toList ++ '"' :: escape h.content
    else if h.reasoned then '"' :: escape h.reasoning
    else []

def Carries : Codec zstd → List Frame → Text → Prop
  | .plain, frames, given => frames.flatMap Frame.text = given
  | .zstd (some encoder), frames, given =>
    zstd.Wrote encoder given (frames.flatMap Frame.bytes)
  | .zstd none, frames, given => zstd.decode (frames.flatMap Frame.bytes) = some given

def Codec.compressed : Codec zstd → Bool
  | .plain => false
  | .zstd _ => true

structure Heard.Ok (h : Heard L) : Prop where
  reasoning : h.reasoned = false → h.reasoning = []
  content : h.answered = false → h.content = []

/-- The body after what was heard; only the codec and what is pending depend on the frames. -/
structure Body.Shows (body : Body zstd) (reply : Reply) (logprob : L → Json) (h : Heard L) :
    Prop where
  labelled : body.reply = reply
  calls : body.calls = h.calls
  logprobs : body.logprobs =
    if reply.logprobs then some ((h.logprobs ++ h.owed).map logprob) else none
  declared : body.declared = if h.answered then 2 else 1
  isOpen : body.isOpen = (h.answered || h.reasoned)
  heard : h.Ok

def Body.Sent (body : Body zstd) (frames : List Frame) (written : Text) : Prop :=
  ∃ given, Carries body.codec frames given ∧ given ++ body.pending = written

variable {body : Body zstd} {frames : List Frame} {written : Text}

theorem Body.Sent.push (h : body.Sent frames written) (text : Text) :
    (body.push text).Sent frames (written ++ text) := by
  obtain ⟨given, hc, rfl⟩ := h
  exact ⟨given, hc, (append_assoc ..).symm⟩

theorem Body.Sent.congr (h : body.Sent frames written) {body' : Body zstd}
    (hc : body'.codec = body.codec) (hp : body'.pending = body.pending) :
    body'.Sent frames written := by
  rw [Body.Sent, hc, hp]
  exact h

/-- A frame is taken: nothing is lost, and there is one when something is pending. -/
theorem Body.Sent.take (h : body.Sent frames written) (hs : body.codec ≠ .zstd none)
    (hp : body.pending ≠ []) : ∃ frame, (body.take false).1 = some frame ∧
      (body.take false).2.Sent (frames ++ [frame]) written ∧
      (body.take false).2.codec ≠ .zstd none ∧
      (body.take false).2.codec.compressed = body.codec.compressed := by
  obtain ⟨given, hc, rfl⟩ := h
  have he : body.pending.isEmpty = false := by simpa using hp
  unfold Body.take
  cases hco : body.codec with
  | plain =>
    rw [hco] at hc
    refine ⟨.plain body.pending, by simp [he], ?_⟩
    simp only [he, Bool.false_eq_true, if_false]
    refine ⟨⟨given ++ body.pending, ?_, append_nil _⟩, by simp, trivial⟩
    simpa [Carries, Frame.text] using hc
  | zstd slot =>
    cases slot with
    | none => exact absurd hco hs
    | some encoder =>
      rw [hco] at hc
      have hne := zstd.flush_ne_nil hc hp
      have hne' : (zstd.flush (zstd.write encoder body.pending)).2.isEmpty = false := by
        simpa using hne
      refine ⟨.packed (zstd.flush (zstd.write encoder body.pending)).2, by simp [he, hne'], ?_⟩
      simp only [he, Bool.false_eq_true, if_false]
      refine ⟨⟨given ++ body.pending, ?_, append_nil _⟩, by simp, rfl⟩
      have hw := zstd.flush_wrote (zstd.write_wrote body.pending hc)
      simpa [Carries, Frame.bytes] using hw

theorem Body.Sent.takeLast (h : body.Sent frames written) (hs : body.codec ≠ .zstd none)
    (hp : body.pending ≠ []) : ∃ frame, (body.take true).1 = some frame ∧
      received zstd body.codec.compressed (frames ++ [frame]) = some written := by
  obtain ⟨given, hca, rfl⟩ := h
  have he : body.pending.isEmpty = false := by simpa using hp
  unfold Body.take
  cases hc : body.codec with
  | plain =>
    rw [hc] at hca
    refine ⟨.plain body.pending, by simp [he], ?_⟩
    simpa [received, Codec.compressed, Carries, Frame.text] using hca
  | zstd slot =>
    cases slot with
    | none => exact absurd hc hs
    | some encoder =>
      rw [hc] at hca
      refine ⟨.packed (zstd.finish (zstd.write encoder body.pending)), rfl, ?_⟩
      have hd := zstd.finish_decode (zstd.write_wrote body.pending hca)
      simpa [received, Codec.compressed, Frame.bytes] using hd

theorem Body.Sent.cut (h : body.Sent frames written) (hs : body.codec ≠ .zstd none)
    {text : Text} (hr : received zstd body.codec.compressed frames = some text) :
    text <+: written := by
  obtain ⟨given, hca, rfl⟩ := h
  refine List.IsPrefix.trans ?_ (prefix_append ..)
  cases hc : body.codec with
  | plain =>
    rw [hc] at hca hr
    rw [← Option.some.inj hr]
    exact hca ▸ prefix_refl _
  | zstd slot =>
    cases slot with
    | none => exact absurd hc hs
    | some =>
      rw [hc] at hca hr
      exact zstd.cut_decode hca hr

/-! ### One signal -/

structure Standing (compressed : Bool) (body : Body zstd) (frames : List Frame) (reply : Reply)
    (logprob : L → Json) (h : Heard L) : Prop where
  shows : body.Shows reply logprob h
  sent : ∃ boundaries, body.Sent frames (writtenText boundaries h)
  slot : body.codec ≠ .zstd none
  codec : body.codec.compressed = compressed

variable {compressed : Bool} {reply : Reply} {logprob : L → Json} {h : Heard L}

theorem declareRest_first (hdeclared : body.declared = 1) : body.declareRest = { body with
        isOpen := false
        declared := 2
        pending := body.pending ++ ((if body.isOpen then ['"'] else ['"', '"']) ++
          ",\"content\":".toList) } := by
  rw [Body.declareRest, hdeclared]
  show ({ (body.closeValue).push (',' :: quote "content".toList ++ [':']) with
    declared := body.closeValue.declared + 1 } : Body zstd) = _
  have hname : (',' :: quote "content".toList ++ [':']) = ",\"content\":".toList := by decide
  rw [hname]
  simp only [Body.closeValue, Body.push, hdeclared, append_assoc]

theorem declareRest_done (hd : body.declared = 2) : body.declareRest = body := by
  rw [Body.declareRest, hd]
  rfl

theorem Standing.progress (hs : Standing compressed body frames reply logprob h)
    (ha : h.reasoned = false ∧ h.answered = false) :
    Standing compressed body.heartbeat frames reply logprob h := by
  obtain ⟨boundaries, hse⟩ := hs.sent
  refine ⟨⟨hs.shows.labelled, hs.shows.calls, hs.shows.logprobs, hs.shows.declared,
    hs.shows.isOpen, hs.shows.heard⟩, ⟨boundaries + 1, ?_⟩, hs.slot, hs.codec⟩
  have hp := hse.push [' ']
  simpa [writtenText, ha.1, ha.2, replicate_succ', Body.heartbeat] using hp

theorem Standing.reasoning (hs : Standing compressed body frames reply logprob h) (piece : Text)
    (ha : h.answered = false) : Standing compressed (body.reasoning piece) frames reply logprob
      (h.hear (.event (.reasoning piece))) := by
  obtain ⟨boundaries, hse⟩ := hs.sent
  have ho := hs.shows.isOpen
  have hd := hs.shows.declared
  rw [ha] at ho hd
  rw [Bool.false_or] at ho
  unfold Body.reasoning Body.piece
  cases hr : h.reasoned with
  | true =>
    rw [hr] at ho
    rw [if_pos ho]
    refine ⟨⟨hs.shows.labelled, hs.shows.calls, hs.shows.logprobs, ?_, ?_, ?_⟩,
      ⟨boundaries, ?_⟩, hs.slot, hs.codec⟩
    · simpa [Heard.hear, ha, Body.push] using hd
    · simpa [Heard.hear, Body.push] using ho
    · exact ⟨by simp [Heard.hear], by simpa [Heard.hear] using hs.shows.heard.content⟩
    · have hp := hse.push (escape piece)
      simpa [writtenText, ha, hr, Heard.hear] using hp
  | false =>
    rw [hr] at ho
    have hn := hs.shows.heard.reasoning hr
    rw [if_neg (by simp [ho])]
    refine ⟨⟨hs.shows.labelled, hs.shows.calls, hs.shows.logprobs, ?_, ?_, ?_⟩,
      ⟨boundaries, ?_⟩, hs.slot, hs.codec⟩
    · simpa [Heard.hear, ha, Body.push] using hd
    · simp [Heard.hear, Body.push]
    · exact ⟨by simp [Heard.hear], by simpa [Heard.hear] using hs.shows.heard.content⟩
    · have hp := (hse.push ['"']).push (escape piece)
      have hwritten : ((body.push ['"']).push (escape piece)).Sent frames
          (writtenText boundaries (h.hear (.event (.reasoning piece)))) := by
        simpa [writtenText, ha, hr, Heard.hear, hn] using hp
      exact hwritten.congr rfl rfl

/-- A piece of the answer: the members before it are closed, and its string opened, once. -/
theorem Standing.content (hs : Standing compressed body frames reply logprob h) (piece : Text) :
    Standing compressed (body.content piece) frames reply logprob (h.hear (.event (.content piece))) := by
  obtain ⟨boundaries, hse⟩ := hs.sent
  have ho := hs.shows.isOpen
  have hd := hs.shows.declared
  have hl : body.logprobs = if reply.logprobs then
      some ((h.hear (.event (.content piece))).logprobs ++
        (h.hear (.event (.content piece))).owed |>.map logprob) else none := by
    simpa [Heard.hear] using hs.shows.logprobs
  have hh : (h.hear (.event (.content piece))).Ok :=
    ⟨by simpa [Heard.hear] using hs.shows.heard.reasoning, by simp [Heard.hear]⟩
  unfold Body.content Body.piece
  cases ha : h.answered with
  | true =>
    rw [ha] at ho hd
    rw [if_pos rfl] at hd
    rw [declareRest_done hd, if_pos (by simpa using ho)]
    refine ⟨⟨hs.shows.labelled, hs.shows.calls, hl, ?_, ?_, hh⟩, ⟨boundaries, ?_⟩,
      hs.slot, hs.codec⟩
    · simpa [Heard.hear, Body.push] using hd
    · simpa [Heard.hear, Body.push] using ho
    · have hp := hse.push (escape piece)
      simpa [writtenText, ha, Heard.hear] using hp
  | false =>
    rw [ha] at ho hd
    rw [if_neg (by simp)] at hd
    rw [Bool.false_or] at ho
    rw [declareRest_first hd, if_neg (by simp)]
    refine ⟨⟨hs.shows.labelled, hs.shows.calls, hl, ?_, ?_, hh⟩, ⟨boundaries, ?_⟩,
      hs.slot, hs.codec⟩
    · simp [Heard.hear, Body.push]
    · simp [Heard.hear, Body.push]
    · have hn := hs.shows.heard.content ha
      have hp := hse.push ((if body.isOpen then ['"'] else ['"', '"']) ++
        ",\"content\":".toList ++ '"' :: escape piece)
      have hw : (body.push ((if body.isOpen then ['"'] else ['"', '"']) ++
          ",\"content\":".toList ++ '"' :: escape piece)).Sent frames
            (writtenText boundaries (h.hear (.event (.content piece)))) := by
        cases hr : h.reasoned with
        | true =>
          rw [ho, hr, if_pos rfl] at hp ⊢
          simpa [writtenText, ha, hr, Heard.hear, hn, quote] using hp
        | false =>
          have he := hs.shows.heard.reasoning hr
          rw [ho, hr, if_neg (by simp)] at hp ⊢
          simpa [writtenText, ha, hr, Heard.hear, hn, he, quote, escape] using hp
      refine hw.congr rfl ?_
      simp [Body.push]

theorem Standing.kept (hs : Standing compressed body frames reply logprob h) {h' : Heard L}
    (calls : List ToolCall) (logprobs : Option (List Json)) (hca : calls = h'.calls)
    (hl : logprobs =
      if reply.logprobs then some ((h'.logprobs ++ h'.owed).map logprob) else none)
    (hre : h'.reasoning = h.reasoning) (hc : h'.content = h.content)
    (hr : h'.reasoned = h.reasoned) (ha : h'.answered = h.answered) :
    Standing compressed { body with calls := calls, logprobs := logprobs } frames reply logprob h' := by
  obtain ⟨boundaries, hse⟩ := hs.sent
  refine ⟨⟨hs.shows.labelled, hca, hl, ?_, ?_, ⟨?_, ?_⟩⟩, ⟨boundaries, ?_⟩, hs.slot, hs.codec⟩
  · simpa [ha] using hs.shows.declared
  · simpa [ha, hr] using hs.shows.isOpen
  · simpa [hre, hr] using hs.shows.heard.reasoning
  · simpa [hc, ha] using hs.shows.heard.content
  · have hsa : writtenText boundaries h' = writtenText boundaries h := by
      simp only [writtenText, hre, hc, hr, ha]
    rw [hsa]
    exact hse.congr rfl rfl

variable (printed : CallId → Text) {signal : Signal L}

theorem pending_ne_nil_of_due {late : Bool} (h : due body late = .flush) :
    body.pending ≠ [] := by
  intro hn
  simp [due, Body.due, hn] at h

theorem due_cases (body : Body zstd) (late : Bool) :
    due body late = .keep ∨ due body late = .flush := by
  unfold due
  split
  · exact .inr rfl
  · exact .inl rfl

theorem Body.Shows.take (hs : body.Shows reply logprob h) (last : Bool) :
    (body.take last).2.Shows reply logprob h := by
  obtain ⟨pending, codec, heq⟩ : ∃ pending codec,
      (body.take last).2 = { body with pending := pending, codec := codec } := by
    unfold Body.take
    cases hc : body.codec with
    | plain => exact ⟨[], .plain, by simp only; split <;> rfl⟩
    | zstd slot =>
      cases slot with
      | none => exact ⟨[], .zstd none, rfl⟩
      | some =>
        dsimp only
        split
        · exact ⟨_, _, rfl⟩
        · split
          · exact ⟨_, _, rfl⟩
          · exact ⟨_, _, rfl⟩
  rw [heq]
  exact { hs with }

theorem Standing.absorb (hs : Standing compressed body frames reply logprob h)
    (ha : Allowed reply.logprobs h signal) (late : Bool) :
    ((absorb printed logprob body signal late).1 = .keep ∨
      (absorb printed logprob body signal late).1 = .flush ∧
        (absorb printed logprob body signal late).2.pending ≠ []) ∧
      Standing compressed (absorb printed logprob body signal late).2 frames reply logprob
        (h.hear signal) := by
  have hd : ∀ body : Body zstd, due body late = .keep ∨
      due body late = .flush ∧ body.pending ≠ [] :=
    fun body => (due_cases body late).imp id fun hf => ⟨hf, pending_ne_nil_of_due hf⟩
  cases signal with
  | progress => exact ⟨.inr ⟨rfl, by simp [absorb, checked, Body.heartbeat, Body.push]⟩,
      hs.progress ha⟩
  | tokenIds => exact ⟨.inl rfl, hs⟩
  | finished => exact ha.elim
  | error => exact ha.elim
  | event event =>
    cases event with
    | content piece => exact ⟨hd _, hs.content piece⟩
    | reasoning piece => exact ⟨hd _, hs.reasoning piece ha.1⟩
    | toolCallDelta =>
      exact ⟨.inl rfl, hs.kept body.calls body.logprobs hs.shows.calls hs.shows.logprobs
        rfl rfl rfl rfl⟩
    | toolCall call =>
      refine ⟨.inl rfl, hs.kept (body.calls ++ [call]) body.logprobs ?_ hs.shows.logprobs
        rfl rfl rfl rfl⟩
      rw [hs.shows.calls]
      rfl
    | logprobs =>
      refine ⟨.inl rfl, hs.kept body.calls _ hs.shows.calls ?_ rfl rfl rfl rfl⟩
      rw [hs.shows.logprobs]
      cases reply.logprobs <;> simp [Heard.hear]

theorem Standing.pump {signals : List (Signal L × Bool)}
    (hs : Standing compressed body frames reply logprob h)
    (hc : Course reply.logprobs h (signals.map Prod.fst)) (rest : List (Signal L × Bool)) :
    ∃ (body' : Body zstd) (more : List Frame), pump printed logprob body (signals ++ rest) =
        more ++ pump printed logprob body' rest ∧
      Standing compressed body' (frames ++ more) reply logprob
        ((signals.map Prod.fst).foldl Heard.hear h) := by
  induction signals generalizing body frames h with
  | nil => exact ⟨body, [], rfl, by simpa using hs⟩
  | cons first signals ih =>
    obtain ⟨signal, late⟩ := first
    obtain ⟨ha, hc⟩ := hc
    obtain ⟨hflow, hn⟩ := hs.absorb printed ha late
    rcases hflow with hk | ⟨hflush, hp⟩
    · obtain ⟨body', more, heq, hst⟩ := ih hn hc
      refine ⟨body', more, ?_, hst⟩
      rw [cons_append, LocalAi.Chat.pump]
      simp only [hk]
      exact heq
    · obtain ⟨boundaries, hse⟩ := hn.sent
      obtain ⟨frame, hf, ht, hsl, hco⟩ := hse.take hn.slot hp
      have hst : Standing compressed
          ((LocalAi.Chat.absorb printed logprob body signal late).2.take false).2
          (frames ++ [frame]) reply logprob (h.hear signal) := by
        exact ⟨hn.shows.take false, ⟨boundaries, ht⟩, hsl, hco.trans hn.codec⟩
      obtain ⟨body', more, heq, hst'⟩ := ih hst hc
      refine ⟨body', frame :: more, ?_, by simpa using hst'⟩
      rw [cons_append, LocalAi.Chat.pump]
      simp only [hflush]
      rw [show (Flow.flush == Flow.last) = false from rfl, hf]
      simp only [heq, cons_append]

/-! ### The end -/

/-- The answer: a turn that only called tools has none. -/
def contentJson (h : Heard L) : Json :=
  if !h.answered && !h.calls.isEmpty then .null else .string h.content

/-- The log-probabilities the document reports. -/
def heardLogprobs (reply : Reply) (logprob : L → Json) (h : Heard L) : Option (List Json) :=
  if reply.logprobs then some ((h.logprobs ++ h.owed).map logprob) else none

def wholeText (boundaries : Nat) (reply : Reply) (logprob : L → Json) (h : Heard L)
    (stats : Stats) : Text :=
  streamHead ++ List.replicate boundaries ' ' ++ quote h.reasoning ++
    ",\"content\":".toList ++ (contentJson h).toText ++
    streamTail printed reply h.calls (heardLogprobs reply logprob h) stats

theorem streamHead_ne_nil : streamHead ≠ [] := by decide

theorem streamTail_ne_nil (reply : Reply) (calls : List ToolCall)
    (logprobs : Option (List Json)) (stats : Stats) :
    streamTail printed reply calls logprobs stats ≠ [] :=
  append_ne_nil_of_right_ne_nil _ (cons_ne_nil _ _)

theorem finish_codec (body : Body zstd) (stats : Stats)
    (hd : body.declared = 1 ∨ body.declared = 2) :
    (body.finish printed stats).codec = body.codec := by
  have hr : body.declareRest.codec = body.codec := by
    rcases hd with ho | ht
    · rw [declareRest_first ho]
    · rw [declareRest_done ht]
  unfold Body.finish
  dsimp only
  split
  · exact hr
  · exact hr

theorem finish_answered (hs : body.Shows reply logprob h) (ha : h.answered = true) (stats : Stats) :
    (body.finish printed stats).pending = body.pending ++
      ('"' :: streamTail printed reply h.calls (heardLogprobs reply logprob h) stats) := by
  have ho := hs.isOpen
  have hd := hs.declared
  rw [ha] at ho hd
  simp only [Body.finish, declareRest_done (show body.declared = 2 from hd), ho,
    Bool.true_or, Bool.not_true, Bool.false_and, Bool.false_eq_true, if_false]
  simp [Body.closeValue, Body.push, hs.calls, hs.logprobs, hs.labelled, heardLogprobs]

theorem finish_unanswered (hs : body.Shows reply logprob h) (ha : h.answered = false)
    (stats : Stats) : (body.finish printed stats).pending = body.pending ++
      ((if h.reasoned then ['"'] else ['"', '"']) ++ ",\"content\":".toList ++
        ((if h.calls.isEmpty then ['"', '"'] else "null".toList) ++
          streamTail printed reply h.calls (heardLogprobs reply logprob h) stats)) := by
  have ho := hs.isOpen
  have hd := hs.declared
  rw [ha] at ho hd
  rw [Bool.false_or] at ho
  simp only [Body.finish, declareRest_first (show body.declared = 1 from hd), ho,
    Bool.not_false, Bool.true_and, hs.calls]
  cases hemp : h.calls.isEmpty with
  | true =>
    simp [Body.closeValue, Body.push, hs.logprobs, hs.labelled, heardLogprobs]
  | false =>
    simp [Body.push, hs.logprobs, hs.labelled, heardLogprobs]

theorem Standing.finish (hs : Standing compressed body frames reply logprob h) (stats : Stats) :
    ∃ boundaries, (body.finish printed stats).Sent frames
      (wholeText printed boundaries reply logprob h stats) := by
  obtain ⟨boundaries, hse⟩ := hs.sent
  have hcodec : (body.finish printed stats).codec = body.codec := by
    refine finish_codec printed body stats ?_
    rw [hs.shows.declared]
    cases h.answered <;> simp
  refine ⟨boundaries, ?_⟩
  cases hanswered : h.answered with
  | true =>
    have hp := (hse.push _).congr hcodec (finish_answered printed hs.shows hanswered stats)
    have hcontent : contentJson h = .string h.content := by simp [contentJson, hanswered]
    rw [wholeText, hcontent]
    simpa [writtenText, hanswered, quote, Json.toText] using hp
  | false =>
    have hp := (hse.push _).congr hcodec (finish_unanswered printed hs.shows hanswered stats)
    have hq : writtenText boundaries h ++ (if h.reasoned then ['"'] else ['"', '"']) =
        streamHead ++ replicate boundaries ' ' ++ quote h.reasoning := by
      cases hreasoned : h.reasoned with
      | true => simp [writtenText, hanswered, hreasoned, quote]
      | false =>
        simp [writtenText, hanswered, hreasoned, hs.shows.heard.reasoning hreasoned, quote, escape]
    have hcontent : (contentJson h).toText =
        if h.calls.isEmpty then ['"', '"'] else "null".toList := by
      cases he : h.calls.isEmpty with
      | true => simp [contentJson, he, hs.shows.heard.content hanswered, Json.toText, quote, escape]
      | false => simp [contentJson, hanswered, he, Json.toText]
    rw [wholeText, ← hq, hcontent]
    simpa using hp

theorem pump_finished (hs : Standing compressed body frames reply logprob h) {stats : Stats}
    (hf : unfinishedFormat stats = none) (late : Bool) : ∃ boundaries, received zstd compressed
      (frames ++ pump printed logprob body [(.finished stats, late)]) =
        some (wholeText printed boundaries reply logprob h stats) := by
  obtain ⟨boundaries, hse⟩ := hs.finish printed stats
  have hc : (body.finish printed stats).codec = body.codec := by
    refine finish_codec printed body stats ?_
    rw [hs.shows.declared]
    cases h.answered <;> simp
  have hp : (body.finish printed stats).pending ≠ [] :=
    append_ne_nil_of_right_ne_nil _ (streamTail_ne_nil _ _ _ _ _)
  have hsl : (body.finish printed stats).codec ≠ .zstd none := by
    rw [hc]
    exact hs.slot
  obtain ⟨frame, hfr, hr⟩ := hse.takeLast hsl hp
  rw [hc, hs.codec] at hr
  have ha : absorb printed logprob body (.finished stats : Signal L) late =
      (.last, body.finish printed stats) := by
    simp only [absorb, checked, hf]
  refine ⟨boundaries, ?_⟩
  rw [pump, ha]
  simp only [show (Flow.last == Flow.last) = true from rfl, hfr, pump]
  exact hr

theorem pump_failed (hs : Standing compressed body frames reply logprob h) {signal : Signal L}
    {message : Text} (he : checked signal = .error message) (late : Bool) {text : Text}
    (hr : received zstd compressed
      (frames ++ pump printed logprob body [(signal, late)]) = some text) :
    ∃ boundaries, text <+: writtenText boundaries h := by
  obtain ⟨boundaries, hse⟩ := hs.sent
  have hn : pump printed logprob body [(signal, late)] = [] := by
    simp only [pump, absorb, he]
  rw [hn, append_nil, ← hs.codec] at hr
  exact ⟨boundaries, hse.cut hs.slot hr⟩

variable (zstd) in
theorem standing_start (reply : Reply) (logprob : L → Json) (compressed : Bool)
    (signals : List (Signal L × Bool)) : ∃ (body : Body zstd) (frame : Frame),
      LocalAi.Chat.frames printed logprob (.start reply compressed : Body zstd) signals =
        frame :: pump printed logprob body signals ∧
      Standing compressed body [frame] reply logprob .empty := by
  have hca : Carries (Body.start reply compressed : Body zstd).codec [] [] := by
    cases compressed with
    | true => exact zstd.new_wrote
    | false => rfl
  have hse : (Body.start reply compressed : Body zstd).Sent [] (writtenText 0 (.empty : Heard L)) :=
    ⟨[], hca, by simp [Body.start, writtenText, Heard.empty]⟩
  have hs : (Body.start reply compressed : Body zstd).codec ≠ .zstd none := by
    cases compressed <;> simp [Body.start]
  have hsh : (Body.start reply compressed : Body zstd).Shows reply logprob .empty :=
    ⟨rfl, rfl, rfl, rfl, rfl, fun _ => rfl, fun _ => rfl⟩
  have hp : (Body.start reply compressed : Body zstd).pending ≠ [] := streamHead_ne_nil
  obtain ⟨frame, hf, ht, hs', hc⟩ := hse.take hs hp
  refine ⟨((Body.start reply compressed : Body zstd).take false).2, frame, ?_,
    hsh.take false, ⟨0, ht⟩, hs', hc.trans ?_⟩
  · simp only [LocalAi.Chat.frames, hf]
  · cases compressed <;> rfl

end Written

end LocalAi.Chat
