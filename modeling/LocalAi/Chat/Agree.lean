import LocalAi.Chat.Frames

/-!
# The two answers

* `streamed_told`: what a client makes of a stream.
* `answerOf_document`: what it reads in the whole answer.
* `whole_and_streamed_agree`: a generation that finished has the same answer in both, except
  that a stream has also announced a call that was cut off; one that failed has no document.
-/

open List

namespace LocalAi.Chat

variable {L : Type}

section Streams

variable {printed : CallId → Text} {logprob : L → Json} {frames : Frames} {told : Told}
  {reply : Reply} {h : Heard L}

variable {signals : List (Signal L)}

theorem streamed_shows (hs : frames.Shows printed logprob told reply h)
    (hc : Course reply.logprobs h signals) (rest : List (Signal L)) :
    ∃ (frames' : Frames) (front : List SseFrame),
      streamed printed logprob frames (signals ++ rest) =
        front ++ streamed printed logprob frames' rest ∧
      frames'.Shows printed logprob (front.foldl Told.frame told) reply
        (signals.foldl Heard.hear h) := by
  induction signals generalizing frames told h with
  | nil => exact ⟨frames, [], rfl, hs⟩
  | cons signal signals ih =>
    obtain ⟨ha, hc⟩ := hc
    obtain ⟨frames', front, heq, hsh⟩ := ih (chatFrames_shows hs ha) hc
    refine ⟨frames', (chatFrames printed logprob frames signal).1 ++ front, ?_, ?_⟩
    · rw [cons_append, streamed, heq, append_assoc]
    · rw [foldl_append]
      exact hsh

variable {stats : Stats}

theorem chatFinishReason_eq (hs : frames.Shows printed logprob told reply h) (he : Ends h stats) :
    chatFinishReason stats.stopReason (decide (0 < frames.calls)) =
      chatFinishReason stats.stopReason !h.calls.isEmpty := by
  cases hl : h.live with
  | none =>
    have hcalls : frames.calls = h.calls.length := by simp [hs.calls, hl]
    have hc : decide (0 < frames.calls) = !h.calls.isEmpty := by
      rw [hcalls]
      cases h.calls <;> rfl
    rw [hc]
  | some =>
    rcases he.1 (by simp [hl]) with hlim | hcanc
    · rw [hlim]
      rfl
    · rw [hcanc]
      rfl

theorem finished_told (hs : frames.Shows printed logprob told reply h)
    (he : Ends h stats) (hf : unfinishedFormat stats = none) :
    (chatFrames printed logprob frames (.finished stats)).1.foldl Told.frame told =
      { heardTold printed logprob h with
        finish := some (chatFinishReason stats.stopReason !h.calls.isEmpty) } := by
  have hfin : ∀ finish : Text, told.read (chunk frames.reply [] (.string finish) []) = { told with
        reasoning := told.reasoning ++ []
        content := told.content ++ []
        logprobs := told.logprobs ++ []
        finish := some finish } := fun _ => rfl
  have hu : ∀ told : Told, told.read (usageChunk frames.reply stats) = { told with
        reasoning := told.reasoning ++ []
        content := told.content ++ []
        logprobs := told.logprobs ++ [] } := fun _ => rfl
  simp only [chatFrames, checked, hf, foldl_cons, Told.frame, foldl_append]
  rw [hfin, chatFinishReason_eq hs he, hs.told]
  cases frames.reply.includeUsage with
  | true => simp [Told.frame, hu]
  | false => simp

theorem shows_new (reply : Reply) :
    (Frames.new reply).Shows printed logprob .empty reply (.empty : Heard L) :=
  ⟨rfl, rfl, rfl, rfl, rfl⟩

theorem streamed_told (hc : Course reply.logprobs .empty signals)
    (he : Ends (heard signals) stats) (hf : unfinishedFormat stats = none) :
    LocalAi.Chat.told (streamed printed logprob (.new reply) (signals ++ [.finished stats])) =
      { heardTold printed logprob (heard signals) with
        finish := some (chatFinishReason stats.stopReason !(heard signals).calls.isEmpty) } := by
  obtain ⟨frames', front, heq, hs⟩ :=
    streamed_shows (shows_new reply) hc [.finished stats]
  rw [LocalAi.Chat.told, heq, foldl_append, streamed, streamed, append_nil]
  exact finished_told hs he hf

/-! ### The whole answer -/

/-- What holds of everything that can be heard. -/
structure Heard.Reported (reply : Reply) (h : Heard L) : Prop where
  ok : h.Ok
  logprobs : reply.logprobs = false → h.logprobs = [] ∧ h.owed = []

theorem Heard.Reported.hear (hr : h.Reported reply) {signal : Signal L}
    (ha : Allowed reply.logprobs h signal) : (h.hear signal).Reported reply := by
  cases signal with
  | progress => exact hr
  | tokenIds => exact hr
  | finished => exact hr
  | error => exact hr
  | event event =>
    cases event with
    | content =>
      refine ⟨⟨hr.ok.reasoning, fun h => (by cases h)⟩, fun hn => ?_⟩
      obtain ⟨hl, ho⟩ := hr.logprobs hn
      exact ⟨by simp [Heard.hear, hl, ho], rfl⟩
    | reasoning =>
      exact ⟨⟨fun h => (by cases h), hr.ok.content⟩, hr.logprobs⟩
    | toolCallDelta => exact ⟨⟨hr.ok.reasoning, hr.ok.content⟩, hr.logprobs⟩
    | toolCall => exact ⟨⟨hr.ok.reasoning, hr.ok.content⟩, hr.logprobs⟩
    | logprobs =>
      refine ⟨⟨hr.ok.reasoning, hr.ok.content⟩, fun hn => ?_⟩
      rw [Allowed, hn] at ha
      cases ha

theorem Heard.Reported.course (hr : h.Reported reply) (hc : Course reply.logprobs h signals) :
    (signals.foldl Heard.hear h).Reported reply := by
  induction signals generalizing h with
  | nil => exact hr
  | cons signal signals ih => exact ih (hr.hear hc.1) hc.2

theorem reported_heard (hc : Course reply.logprobs .empty signals) :
    (heard signals).Reported reply :=
  Heard.Reported.course ⟨⟨fun _ => rfl, fun _ => rfl⟩, fun _ => ⟨rfl, rfl⟩⟩ hc

theorem listedCall_messageCall (index : Nat) (call : ToolCall) :
    listedCall (messageCall printed index call) = toldCall printed call := by
  rw [messageCall_eq]
  rfl

theorem listed_messageCalls (calls : List ToolCall) :
    (items (messageCalls printed calls)).map listedCall = calls.map (toldCall printed) := by
  have hl : ∀ start, (calls.zipIdx start).map
      (fun call => listedCall (messageCall printed call.2 call.1)) =
        calls.map (toldCall printed) := by
    induction calls with
    | nil => exact fun _ => rfl
    | cons call calls ih =>
      intro start
      rw [zipIdx_cons, map_cons, map_cons, ih, listedCall_messageCall]
  rw [messageCalls, items, map_map]
  exact hl 0

theorem textOf_contentJson (hok : h.Ok) : textOf (contentJson h) = h.content := by
  unfold contentJson
  split
  · next hn =>
    rw [Bool.and_eq_true, Bool.not_eq_true'] at hn
    rw [hok.content hn.1]
    rfl
  · rfl

theorem items_logprobs (hr : h.Reported reply) (ho : h.owed = []) :
    items (get "content" (logprobsJson (heardLogprobs reply logprob h))) =
      h.logprobs.map logprob := by
  unfold heardLogprobs
  cases hl : reply.logprobs with
  | true =>
    rw [ho, append_nil]
    rfl
  | false =>
    rw [(hr.logprobs hl).1]
    rfl

theorem get_toolCalls (h : Heard L) :
    (items (get "tool_calls" (message printed h))).map listedCall =
      h.calls.map (toldCall printed) := by
  cases hc : h.calls with
  | nil =>
    have hn : get "tool_calls" (message printed h) = .null := by
      simp only [message, messageRest, hc, isEmpty_nil, if_true]
      rfl
    rw [hn]
    rfl
  | cons =>
    have hs : get "tool_calls" (message printed h) = messageCalls printed h.calls := by
      simp only [message, messageRest, hc, isEmpty_cons, Bool.false_eq_true, if_false]
      rfl
    rw [hs, hc]
    exact listed_messageCalls _

theorem answerOf_document (hr : h.Reported reply) (ho : h.owed = []) :
    answerOf (document printed reply logprob h stats) = { heardTold printed logprob h with
        calls := h.calls.map (toldCall printed)
        finish := some (chatFinishReason stats.stopReason !h.calls.isEmpty) } := by
  have hc : firstItem (get "choices" (document printed reply logprob h stats)) =
      choice printed reply logprob h stats := rfl
  have hm : get "message" (choice printed reply logprob h stats) = message printed h := rfl
  have hre : get "reasoning_content" (message printed h) = .string h.reasoning := rfl
  have hco : get "content" (message printed h) = contentJson h := rfl
  have hl : get "logprobs" (choice printed reply logprob h stats) =
      logprobsJson (heardLogprobs reply logprob h) := rfl
  have hf : get "finish_reason" (choice printed reply logprob h stats) =
      .string (chatFinishReason stats.stopReason !h.calls.isEmpty) := rfl
  simp only [answerOf, hc, hm, hre, hco, hl, hf,
    textOf_contentJson hr.ok, items_logprobs hr ho, get_toolCalls]
  rfl

end Streams

/-! ### The two answers -/

section Answers

variable (zstd : Zstd) (printed : CallId → Text) (logprob : L → Json)

def wholeAnswer (reply : Reply) (compressed : Bool) (signals : List (Signal L × Bool)) :
    Option Text :=
  received zstd compressed (frames printed logprob (.start reply compressed : Body zstd) signals)

def streamedAnswer (reply : Reply) (signals : List (Signal L)) : Told :=
  told (streamed printed logprob (.new reply) signals)

def cutOff (h : Heard L) : List ToldCall := h.live.toList.map (liveCall printed)

theorem wholeAnswer_finished {reply : Reply} {signals : List (Signal L × Bool)}
    (hc : Course reply.logprobs .empty (signals.map Prod.fst)) {stats : Stats}
    (hfo : unfinishedFormat stats = none) (compressed late : Bool) :
    ∃ boundaries, wholeAnswer zstd printed logprob reply compressed
        (signals ++ [(.finished stats, late)]) =
      some (wholeText printed boundaries reply logprob (heard (signals.map Prod.fst)) stats) := by
  obtain ⟨body, frame, hf, hs⟩ := standing_start zstd printed reply logprob
    compressed (signals ++ [(.finished stats, late)])
  obtain ⟨body', more, hp, hs'⟩ :=
    hs.pump printed hc [(.finished stats, late)]
  obtain ⟨boundaries, hr⟩ := pump_finished printed hs' hfo late
  refine ⟨boundaries, ?_⟩
  rw [wholeAnswer, hf, hp]
  exact hr

/-- A generation that finished: its whole answer is a JSON document with the reasoning and the
content escaped as one string each, whatever is flushed when, and the stream tells the same
answer, to which it has added the call that was cut off.  A generation that failed: what was
written is no document. -/
theorem whole_and_streamed_agree {reply : Reply} {signals : List (Signal L × Bool)}
    (hcourse : Course reply.logprobs .empty (signals.map Prod.fst)) (compressed late : Bool) :
    (∀ stats, Ends (heard (signals.map Prod.fst)) stats → unfinishedFormat stats = none →
      Printable logprob stats → ∃ boundaries value text,
        wholeAnswer zstd printed logprob reply compressed
            (signals ++ [(.finished stats, late)]) = some text ∧
          IsDocument value text ∧
          get "reasoning_content" (get "message" (firstItem (get "choices" value))) =
            .string (heard (signals.map Prod.fst)).reasoning ∧
          get "content" (get "message" (firstItem (get "choices" value))) =
            contentJson (heard (signals.map Prod.fst)) ∧
          text = streamHead ++ replicate boundaries ' ' ++
            quote (heard (signals.map Prod.fst)).reasoning ++ ",\"content\":".toList ++
            (contentJson (heard (signals.map Prod.fst))).toText ++
            streamTail printed reply (heard (signals.map Prod.fst)).calls
              (heardLogprobs reply logprob (heard (signals.map Prod.fst))) stats ∧
          streamedAnswer printed logprob reply (signals.map Prod.fst ++ [.finished stats]) =
            { answerOf value with
              calls := (answerOf value).calls ++ cutOff printed (heard (signals.map Prod.fst)) }) ∧
    (∀ signal message text, checked signal = .error message →
      wholeAnswer zstd printed logprob reply compressed (signals ++ [(signal, late)]) =
        some text → ∀ value, ¬ IsDocument value text) := by
  constructor
  · intro stats he hf hp
    obtain ⟨boundaries, hw⟩ := wholeAnswer_finished zstd printed logprob hcourse hf compressed late
    refine ⟨boundaries, _, _, hw, wholeText_isDocument hp boundaries, rfl, rfl, rfl, ?_⟩
    rw [streamedAnswer, streamed_told hcourse he hf,
      answerOf_document (reported_heard hcourse) he.2]
    rfl
  · intro signal message text herror hr value
    obtain ⟨body, frame, hfr, hs⟩ := standing_start zstd printed reply logprob
      compressed (signals ++ [(signal, late)])
    obtain ⟨body', more, hpu, hs'⟩ := hs.pump printed hcourse [(signal, late)]
    rw [wholeAnswer, hfr, hpu] at hr
    obtain ⟨boundaries, hcut⟩ := pump_failed printed hs' herror late hr
    exact not_isDocument_cut hcut value

end Answers

/-! ### Two short generations -/

def storedChar (c : Char) : List UInt8 :=
  [UInt8.ofNat (c.toNat / 65536), UInt8.ofNat (c.toNat / 256 % 256), UInt8.ofNat (c.toNat % 256)]

def storedText : List UInt8 → Option Text
  | [] => some []
  | a :: b :: c :: rest =>
    (storedText rest).map (Char.ofNat (a.toNat * 65536 + b.toNat * 256 + c.toNat) :: ·)
  | _ => none

theorem storedText_storedChar (text : Text) : storedText (text.flatMap storedChar) = some text := by
  induction text with
  | nil => rfl
  | cons c text ih =>
    have hs : c.toNat < 0x110000 := by
      rcases c.valid with hl | ⟨-, hh⟩
      · exact Nat.lt_trans hl (by decide)
      · exact hh
    have hn : (UInt8.ofNat (c.toNat / 65536)).toNat * 65536 +
        (UInt8.ofNat (c.toNat / 256 % 256)).toNat * 256 +
          (UInt8.ofNat (c.toNat % 256)).toNat = c.toNat := by
      simp only [UInt8.toNat_ofNat']
      omega
    rw [flatMap_cons]
    show (storedText (text.flatMap storedChar)).map _ = _
    rw [ih, hn, Char.ofNat_toNat]
    rfl

/-- An encoder that stores what it is given. -/
def storedZstd : Zstd where
  Encoder := Text
  new := []
  write := fun held text => held ++ text
  flush := fun held => ([], held.flatMap storedChar)
  finish := fun held => held.flatMap storedChar
  decode := storedText
  Wrote := fun held written out => ∃ front, out = front.flatMap storedChar ∧ front ++ held = written
  new_wrote := ⟨[], rfl, rfl⟩
  write_wrote := by
    rintro held written out text ⟨front, rfl, rfl⟩
    exact ⟨front, rfl, (append_assoc ..).symm⟩
  flush_wrote := by
    rintro held written out ⟨front, rfl, rfl⟩
    exact ⟨front ++ held, flatMap_append.symm, append_nil _⟩
  flush_ne_nil := by
    intro held written out text _ hne
    cases text with
    | nil => exact absurd rfl hne
    | cons => simp [storedChar]
  finish_decode := by
    rintro held written out ⟨front, rfl, rfl⟩
    rw [← flatMap_append]
    exact storedText_storedChar _
  cut_decode := by
    rintro held written out text ⟨front, rfl, rfl⟩ htext
    rw [storedText_storedChar] at htext
    rw [← Option.some.inj htext]
    exact prefix_append ..

def shortReply : Reply := ⟨false, false, "chatcmpl-1".toList, 5, "m".toList⟩

/-- Eleven tokens were read and five generated. -/
def shortStats (reason : Responses.State.StopReason) : Stats where
  stopReason := reason
  cacheSource := .none
  reasoningTokens := 2
  promptTokens := 11
  reusedPromptTokens := 0
  generatedTokens := 5
  responseFormatComplete := none
  timings := .null
  speculation := .null

/-- A prefill boundary, a thought, a streamed call and its end. -/
def callSignals : List (Signal Unit × Bool) :=
  [(.progress, false), (.event (.reasoning "hm".toList), true),
    (.event (.toolCallDelta ⟨0, "f".toList, "\x7b".toList, none⟩), false),
    (.event (.toolCall ⟨0, "f".toList, .object []⟩), false)]

/-- A call that a token limit cuts off. -/
def cutSignals : List (Signal Unit × Bool) :=
  [(.event (.toolCallDelta ⟨0, "f".toList, "\x7b".toList, none⟩), false)]

theorem printable_short (reason : Responses.State.StopReason) :
    Printable (fun _ : Unit => .null) (shortStats reason) :=
  ⟨fun _ => rfl, rfl, rfl⟩

theorem course_callSignals : Course false .empty (callSignals.map Prod.fst) := by
  refine ⟨⟨rfl, rfl⟩, ⟨rfl, rfl⟩, ?_, ?_, trivial⟩
  · intro live hl
    cases hl
  · intro live hl
    cases hl
    exact ⟨rfl, rfl, ⟨"\x7d".toList, rfl⟩⟩

theorem agree_on_call : Course false .empty (callSignals.map Prod.fst) ∧
    ∃ value text, wholeAnswer storedZstd (Nat.toDigits 10) (fun _ => .null) shortReply false
        (callSignals ++ [(.finished (shortStats .eos), false)]) = some text ∧
      IsDocument value text ∧
      streamedAnswer (Nat.toDigits 10) (fun _ => .null) shortReply
        (callSignals.map Prod.fst ++ [.finished (shortStats .eos)]) = answerOf value := by
  refine ⟨course_callSignals, ?_⟩
  have he : Ends (heard (callSignals.map Prod.fst)) (shortStats .eos) :=
    ⟨fun h => absurd rfl h, rfl⟩
  obtain ⟨boundaries, value, text, hw, hd, -, -, -, ht⟩ :=
    (@whole_and_streamed_agree Unit storedZstd (Nat.toDigits 10) (fun _ => .null) shortReply
      callSignals course_callSignals false false).1 _ he rfl (printable_short .eos)
  refine ⟨value, text, hw, hd, ?_⟩
  rw [ht]
  have hc : cutOff (Nat.toDigits 10) (heard (callSignals.map Prod.fst)) = [] := rfl
  rw [hc, append_nil]

theorem cut_off_call_is_streamed : Course false .empty (cutSignals.map Prod.fst) ∧
    Ends (heard (cutSignals.map Prod.fst)) (shortStats .tokenLimit) ∧
    ∃ value text, wholeAnswer storedZstd (Nat.toDigits 10) (fun _ => .null) shortReply false
        (cutSignals ++ [(.finished (shortStats .tokenLimit), false)]) = some text ∧
      IsDocument value text ∧ (answerOf value).calls = [] ∧
      (streamedAnswer (Nat.toDigits 10) (fun _ => .null) shortReply
        (cutSignals.map Prod.fst ++ [.finished (shortStats .tokenLimit)])).calls =
          [⟨['0'], ['f'], ['\x7b']⟩] := by
  have hc : Course false .empty (cutSignals.map Prod.fst) :=
    ⟨nofun, trivial⟩
  obtain ⟨boundaries, hw⟩ := @wholeAnswer_finished Unit storedZstd (Nat.toDigits 10)
    (fun _ => .null) shortReply cutSignals hc (shortStats .tokenLimit) rfl false false
  exact ⟨hc, ⟨fun _ => .inl rfl, rfl⟩, _, _, hw,
    wholeText_isDocument (printable_short .tokenLimit) boundaries, rfl, rfl⟩

end LocalAi.Chat
