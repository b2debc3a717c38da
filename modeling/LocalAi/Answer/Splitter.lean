import LocalAi.Tools.Scan

/-!
# Splitting the generated text

`EventSplitter` splits what a model generates into reasoning, content and tool
calls, a piece at a time.  Reasoning ends at the first `</think>`; the rest goes
to the tool parser, when the request has tools, and from there through the stop
sequences to the consumer, content after the log-probabilities of its tokens.

* `Split`: what the splitter's state and its consumer know of the text so far.
* `splitting_independent_of_chunking`: the pieces do not matter.
-/

open List

namespace LocalAi.Answer

open LocalAi.Lib LocalAi.Tools LocalAi.Engine

variable {L K : Type}

def thinkEnd : Text := "</think>".toList

/-- A consumer of the engine API: it takes an event and says whether to go on. -/
abbrev Consumer (L K : Type) := K → Event L → K × Bool

/-- Log-probabilities of the tokens that produced generated text
`start..stop`. -/
structure Spanned (L : Type) where
  start : Nat
  stop : Nat
  tokens : List L

structure EventSplitter (L : Type) where
  /-- The template's mode. -/
  thinking : Bool
  reasoning : Bool
  pending : Text
  answerStarted : Bool
  tools : Option (ToolSet × ToolCallParser)
  stop : StopSequences
  /-- Bytes of generated text so far. -/
  generated : Nat
  /-- Where the tool parser's input starts in the generated text. -/
  parsedFrom : Option Nat
  /-- Log-probabilities not yet sent, oldest first. -/
  logprobs : List (Spanned L)

/-- Send `event`, which starts at `offset`; content goes after the
log-probabilities of the tokens whose text it holds. -/
def deliver (consumer : Consumer L K) : Callback L (List (Spanned L) × K) :=
  fun (logprobs, k) event offset =>
    match event with
    | .content text =>
      let (taken, left) := logprobs.span fun span => decide (span.start < offset + utf8Len text)
      let tokens := (taken.filter fun span => decide (offset < span.stop)).flatMap Spanned.tokens
      if tokens.isEmpty then
        let (k, go) := consumer k event
        ((left, k), go)
      else
        let (k, go) := consumer k (.logprobs tokens)
        if go then
          let (k, go) := consumer k event
          ((left, k), go)
        else
          ((left, k), false)
    | other =>
      let (k, go) := consumer k other
      ((logprobs, k), go)

/-- What the tool parser speaks to: the stop sequences, then `deliver`. -/
def stopped (consumer : Consumer L K) (base : Nat) :
    Callback L (StopSequences × List (Spanned L) × K) :=
  fun (stop, d) event offset =>
    let (stop, d, go) := stop.event (deliver consumer) event (base + offset) d
    ((stop, d), go)

/-- The longest start of `text` of at most `bytes` bytes: the split at the last
character boundary not beyond `bytes`. -/
def floorPrefix : (bytes : Nat) → Text → Text
  | _, [] => []
  | bytes, c :: text =>
    if c.utf8Size ≤ bytes then c :: floorPrefix (bytes - c.utf8Size) text else []

/-- The text of `piece` that belongs to the answer: the template's newlines
after `</think>` do not. -/
def shown (started : Bool) (piece : Text) : Text :=
  if started then piece else piece.dropWhile (· == '\n')

namespace EventSplitter

/-- `EventSplitter::new`, with the next number of the process-wide call counter. -/
def new (reasoning : Bool) (tools : Option ToolSet) (stop : List Text) (nextCallId : CallId) :
    EventSplitter L :=
  { thinking := reasoning, reasoning, pending := [], answerStarted := !reasoning,
    tools := tools.map fun tools => (tools, ToolCallParser.new nextCallId),
    stop := StopSequences.new stop, generated := 0, parsedFrom := none, logprobs := [] }

/-- The failure of the tool parser, if any (`failed`, `take_failure`). -/
def failure (s : EventSplitter L) : Option Text := s.tools.bind fun (_, parser) => parser.failure

section Run

variable (env : Env) (consumer : Consumer L K)

/-- `content`: split `piece`, which ends the generated text so far. -/
def content (piece : Text) (s : EventSplitter L) (k : K) : EventSplitter L × K × Bool :=
  let text := shown s.answerStarted piece
  if text.isEmpty then
    (s, k, true)
  else
    let offset := s.generated - utf8Len text
    let base := s.parsedFrom.getD offset
    let s := { s with answerStarted := true, parsedFrom := some base }
    match s.tools with
    | some (tools, parser) =>
      let (parser, (stop, logprobs, k), go) :=
        feed env tools (stopped consumer base) text parser (s.stop, s.logprobs, k)
      ({ s with tools := some (tools, parser), stop, logprobs }, k, go)
    | none =>
      let (stop, (logprobs, k), go) :=
        s.stop.content (deliver consumer) text offset (s.logprobs, k)
      ({ s with stop, logprobs }, k, go)

/-- `flush_prefix`: send the start `text` of the pending reasoning, `rest` being
what follows it. -/
def flushPrefix (text rest : Text) (s : EventSplitter L) (k : K) : EventSplitter L × K × Bool :=
  -- tokens wholly in sent reasoning are never reported
  let sent := s.generated - utf8Len rest
  let logprobs := s.logprobs.dropWhile fun span => decide (span.stop ≤ sent)
  let (k, go) := consumer k (.reasoning text)
  ({ s with pending := rest, logprobs }, k, go)

/-- `emit`: split the next generated `piece`, whose tokens `logprobs` are. -/
def emit (piece : Text) (logprobs : List L) (s : EventSplitter L) (k : K) :
    EventSplitter L × K × Bool :=
  let start := s.generated
  let generated := start + utf8Len piece
  let s :=
    { s with
      generated,
      logprobs :=
        if logprobs.isEmpty then s.logprobs else s.logprobs ++ [⟨start, generated, logprobs⟩] }
  if !s.reasoning then
    content env consumer piece s k
  else
    let pending := s.pending ++ piece
    match splitOnce thinkEnd pending with
    | some (reasoning, answer) =>
      let s := { s with pending := [], reasoning := false }
      if reasoning.isEmpty then
        content env consumer answer s k
      else
        let (k, go) := consumer k (.reasoning reasoning)
        if go then content env consumer answer s k else (s, k, false)
    | none =>
      let safe := floorPrefix (utf8Len pending - (utf8Len thinkEnd - 1)) pending
      if safe.isEmpty then
        ({ s with pending }, k, true)
      else
        flushPrefix consumer safe (pending.drop safe.length) s k

/-- The last part of `finish`: the parser, then the stop sequences. -/
def finishAnswer (reason : StopReason) (s : EventSplitter L) (k : K) :
    EventSplitter L × K × Bool :=
  let base := s.parsedFrom.getD s.generated
  match s.tools with
  | some (tools, parser) =>
    let (parser, (stop, logprobs, k), go) :=
      finish (stopped consumer base) reason parser (s.stop, s.logprobs, k)
    let s := { s with tools := some (tools, parser), stop, logprobs }
    if go then
      let (stop, (logprobs, k), go) := s.stop.flush (deliver consumer) (s.logprobs, k)
      ({ s with stop, logprobs }, k, go)
    else
      (s, k, false)
  | none =>
    let (stop, (logprobs, k), go) := s.stop.flush (deliver consumer) (s.logprobs, k)
    ({ s with stop, logprobs }, k, go)

/-- `finish`: flush held text for generation that stopped for `reason`. -/
def finish (reason : StopReason) (s : EventSplitter L) (k : K) : EventSplitter L × K × Bool :=
  if s.pending.isEmpty then
    finishAnswer consumer reason s k
  else
    let offset := s.generated - utf8Len s.pending
    let event := if s.reasoning then .reasoning s.pending else .content s.pending
    let ((logprobs, k), go) := deliver consumer (s.logprobs, k) event offset
    let s := { s with pending := [], logprobs }
    if go then finishAnswer consumer reason s k else (s, k, false)

/-- `close`: whether the consumer still listens, and the reported reason. -/
def close (reason : StopReason) (s : EventSplitter L) (k : K) :
    EventSplitter L × K × Bool × StopReason :=
  if s.failure.isSome then
    (s, k, false, reason)
  else if s.stop.matched then
    (s, k, true, .stopped)
  else
    let reason := if reason = .stopped then .cancelled else reason
    let (s, k, go) := finish consumer reason s k
    if s.stop.matched then (s, k, true, .stopped) else (s, k, go, reason)

/-- The generated `pieces`, each with its tokens' log-probabilities, in order. -/
def emitAll : List (Text × List L) → EventSplitter L → K → EventSplitter L × K
  | [], s, k => (s, k)
  | (piece, logprobs) :: pieces, s, k =>
    let (s, k, _) := emit env consumer piece logprobs s k
    emitAll pieces s k

end Run

end EventSplitter

/-! ### Consumers that listen to the end -/

/-- A consumer that never refuses, and what it has heard. -/
structure Listens (consumer : Consumer L K) (said : K → List Atom) : Prop where
  goes : ∀ k event, (consumer k event).2 = true
  said : ∀ k event, said (consumer k event).1 = said k ++ atoms event

variable {consumer : Consumer L K} {said : K → List Atom}

theorem deliver_hears (listens : Listens consumer said) :
    Hears (deliver consumer) (fun _ => True) fun d => said d.2 := by
  have hc : ∀ (d : List (Spanned L) × K) (text : Text) (offset : Nat),
      (deliver consumer d (.content text) offset).2 = true ∧
        said (deliver consumer d (.content text) offset).1.2 = said d.2 ++ text.map .content := by
    intro d text offset
    simp only [deliver]
    split
    · exact ⟨listens.goes _ _, listens.said _ _⟩
    · simp only [listens.goes, if_true, true_and, listens.said]
      simp [atoms]
  refine ⟨fun d event offset _ => ?_, fun _ _ _ _ => trivial, fun d event offset _ => ?_⟩
  · cases event with
    | content text => exact (hc d text offset).1
    | _ => exact listens.goes _ _
  · cases event with
    | content text => exact (hc d text offset).2
    | _ => exact listens.said _ _

/-- No stop sequences, so nothing held and nothing matched. -/
structure Quiet (stop : StopSequences) : Prop where
  sequences : stop.sequences = []
  held : stop.held = []
  matched : stop.matched = false

theorem Quiet.flush {stop : StopSequences} (quiet : Quiet stop) (callback : Callback L K) (k : K) :
    stop.flush callback k = (stop, k, true) := by
  simp [StopSequences.flush, quiet.held]

theorem Quiet.event {stop : StopSequences} (quiet : Quiet stop) (callback : Callback L K)
    (event : Event L) (offset : Nat) (k : K) : stop.event callback event offset k
      = (stop, (callback k event offset).1, (callback k event offset).2) := by
  cases event with
  | content =>
    simp [StopSequences.event, StopSequences.content, quiet.matched, quiet.sequences]
  | _ => simp [StopSequences.event, quiet.matched, quiet.flush]

theorem stopped_hears (listens : Listens consumer said) (base : Nat) :
    Hears (stopped consumer base) (fun state => Quiet state.1) fun state => said state.2.2 := by
  have he := deliver_hears listens
  refine ⟨fun k event offset quiet => ?_, fun k event offset quiet => ?_,
    fun k event offset quiet => ?_⟩
  · simpa [stopped, quiet.event] using he.goes _ event (base + offset) trivial
  · simpa [stopped, quiet.event] using quiet
  · simpa [stopped, quiet.event] using he.said _ event (base + offset) trivial

/-! ### The answer so far -/

/-- The abstract parser before anything was fed. -/
def Scan.start : Scan := ⟨[], false, false, none⟩

/-- What the visible answer `answer` says so far. -/
def answered (env : Env) (tools : Option ToolSet) (answer : Text) : List Atom :=
  match tools with
  | some tools => (scan env tools Scan.start answer).2
  | none => answer.map .content

/-- What the end of the visible answer adds, and the failure it leaves. -/
def ended (env : Env) (tools : Option ToolSet) (reason : StopReason) (answer : Text) :
    Option Text × List Atom :=
  match tools with
  | some tools => scanEnd reason (scan env tools Scan.start answer).1
  | none => (none, [])

structure Answering (env : Env) (tools : Option ToolSet) (said : K → List Atom)
    (front : List Atom) (answer : Text) (s : EventSplitter L) (k : K) : Prop where
  quiet : Quiet s.stop
  parser : s.tools.map (fun entry => (entry.1, entry.2.view))
    = tools.map fun tools => (tools, (scan env tools Scan.start answer).1)
  heard : said k = front ++ answered env tools answer

variable {env : Env} {tools : Option ToolSet} {front : List Atom} {answer : Text}
  {s : EventSplitter L} {k : K}

theorem Answering.frame (h : Answering env tools said front answer s k) (s' : EventSplitter L)
    (hs : s'.stop = s.stop) (ht : s'.tools = s.tools) :
    Answering env tools said front answer s' k :=
  ⟨hs ▸ h.quiet, ht ▸ h.parser, h.heard⟩

theorem scan_start_nil (env : Env) (set : ToolSet) :
    scan env set Scan.start [] = (Scan.start, []) := by
  rw [scan_of_running rfl]
  exact scanPending_text rfl rfl

theorem answered_nil (env : Env) (tools : Option ToolSet) : answered env tools [] = [] := by
  cases tools with
  | none => rfl
  | some set => exact congrArg Prod.snd (scan_start_nil env set)

theorem Answering.say (h : Answering env tools said front [] s k) {k' : K} {more : List Atom}
    (hm : said k' = said k ++ more) : Answering env tools said (front ++ more) [] s k' :=
  ⟨h.quiet, h.parser, by simp [hm, h.heard, answered_nil]⟩

theorem Answering.tools_none (h : Answering env tools said front answer s k)
    (hs : s.tools = none) : tools = none := by
  have := h.parser
  cases tools <;> simp_all

theorem Answering.tools_some (h : Answering env tools said front answer s k) {set : ToolSet}
    {parser : ToolCallParser} (hs : s.tools = some (set, parser)) :
    tools = some set ∧ parser.view = (scan env set Scan.start answer).1 := by
  have := h.parser
  cases tools with
  | none => simp [hs] at this
  | some =>
    rw [hs, Option.map_some, Option.map_some, Option.some_inj] at this
    obtain ⟨hset, hv⟩ := Prod.mk.inj this
    cases hset
    exact ⟨rfl, hv⟩

theorem content_answering (listens : Listens consumer said)
    (h : Answering env tools said front answer s k) (piece : Text) :
    Answering env tools said front (answer ++ shown s.answerStarted piece)
        (s.content env consumer piece k).1 (s.content env consumer piece k).2.1 ∧
      (s.content env consumer piece k).1.answerStarted
        = (s.answerStarted || !(shown s.answerStarted piece).isEmpty) ∧
      (s.content env consumer piece k).1.reasoning = s.reasoning ∧
      (s.content env consumer piece k).1.pending = s.pending := by
  unfold EventSplitter.content
  generalize shown s.answerStarted piece = text
  cases text with
  | nil => simpa using h
  | cons c text =>
    simp only [isEmpty_cons, Bool.false_eq_true, if_false, Bool.not_false, Bool.or_true]
    cases hs : s.tools with
    | none =>
      cases h.tools_none hs
      have hev := h.quiet.event (deliver consumer) (.content (c :: text))
        (s.generated - utf8Len (c :: text)) (s.logprobs, k)
      simp only [StopSequences.event] at hev
      simp only [hev, and_self, and_true]
      refine ⟨h.quiet, rfl, ?_⟩
      rw [(deliver_hears listens).said _ _ _ trivial, h.heard]
      simp [answered, atoms]
    | some entry =>
      obtain ⟨set, parser⟩ := entry
      obtain ⟨rfl, hv⟩ := h.tools_some hs
      have hf := feed_scan env set (stopped_hears listens
        (s.parsedFrom.getD (s.generated - utf8Len (c :: text)))) (c :: text) parser
        (k := (s.stop, s.logprobs, k)) h.quiet
      rw [hv] at hf
      have ha := scan_append env set Scan.start answer (c :: text)
      refine ⟨⟨hf.ok, ?_, ?_⟩, rfl, rfl, rfl⟩
      · simp only [Option.map_some, hf.view, ha]
      · have hsa := hf.said
        simp only [h.heard, answered] at hsa ⊢
        rw [hsa, ha, append_assoc]

/-! ### The held end of the reasoning -/

theorem floorPrefix_isPrefix (bytes : Nat) (text : Text) : floorPrefix bytes text <+: text := by
  fun_induction floorPrefix bytes text with
  | case1 => exact prefix_rfl
  | case2 bytes c text h ih => exact (prefix_cons_inj c).mpr ih
  | case3 => exact nil_prefix

theorem utf8Len_floorPrefix (bytes : Nat) (text : Text) :
    utf8Len (floorPrefix bytes text) ≤ bytes := by
  fun_induction floorPrefix bytes text with
  | case1 => simp
  | case2 bytes c text h ih =>
    rw [utf8Len_cons]
    omega
  | case3 => simp

theorem utf8Len_of_ascii {text : Text} (h : ∀ c ∈ text, c.utf8Size = 1) :
    utf8Len text = text.length := by
  induction text with
  | nil => rfl
  | cons c text ih =>
    rw [utf8Len_cons, h c mem_cons_self, ih fun d hd => h d (mem_cons_of_mem c hd),
      length_cons, Nat.add_comm]

theorem eq_nil_of_utf8Len {text : Text} (h : utf8Len text = 0) : text = [] := by
  cases text with
  | nil => rfl
  | cons c =>
    have := c.utf8Size_pos
    rw [utf8Len_cons] at h
    omega

/-- The last bytes of the pending reasoning hold every beginning of `</think>`. -/
theorem overlap_le_floor (text : Text) : overlap thinkEnd text ≤
      (text.drop (floorPrefix (utf8Len text - (utf8Len thinkEnd - 1)) text).length).length := by
  set safe := floorPrefix (utf8Len text - (utf8Len thinkEnd - 1)) text with hsa
  set held := text.drop safe.length with hh
  have ht : safe ++ held = text :=
    prefix_iff_eq_append.mp (floorPrefix_isPrefix _ _)
  have hb : utf8Len safe ≤ utf8Len text - 7 := utf8Len_floorPrefix _ _
  by_contra hl
  have hlt : overlap thinkEnd text < 8 := overlap_lt (by decide) text
  have hsuf := overlap_suffix thinkEnd text
  have hlen : (thinkEnd.take (overlap thinkEnd text)).length = overlap thinkEnd text := by
    rw [length_take, Nat.min_eq_left (by rw [show thinkEnd.length = 8 from rfl]; omega)]
  have hin : held <:+ thinkEnd.take (overlap thinkEnd text) :=
    suffix_of_suffix_length_le (drop_suffix _ _) hsuf (by omega)
  -- so the held text is ASCII, and shorter than the seven bytes kept back
  have hascii : utf8Len held = held.length := by
    refine utf8Len_of_ascii fun c hc => ?_
    have hall : (thinkEnd.all fun c => decide (c.utf8Size = 1)) = true := by decide
    exact of_decide_eq_true (all_eq_true.mp hall c (take_subset _ _ (hin.subset hc)))
  have hsum : utf8Len text = utf8Len safe + utf8Len held := by rw [← ht, utf8Len_append]
  have hn : safe = [] := eq_nil_of_utf8Len (by omega)
  have hle := overlap_le_length thinkEnd text
  rw [← ht, hn, nil_append] at hle
  rw [← ht, hn, nil_append] at hl
  omega

/-! ### The text so far -/

/-- The reasoning and the visible answer of the generated text. -/
def parts (thinking : Bool) (text : Text) : Text × Text :=
  if thinking then
    match splitOnce thinkEnd text with
    | some (reasoning, answer) => (reasoning, shown false answer)
    | none => (text, [])
  else
    ([], text)

inductive Split (env : Env) (thinking : Bool) (tools : Option ToolSet) (said : K → List Atom)
    (text : Text) (s : EventSplitter L) (k : K) : Prop
  /-- Still reasoning: `sent` is with the consumer, the rest is pending. -/
  | reasoning (sent : Text) (hthinking : thinking = true) (hreasoning : s.reasoning = true)
      (hstarted : s.answerStarted = false) (htext : text = sent ++ s.pending)
      (hnone : ¬ thinkEnd <:+: text) (hover : overlap thinkEnd text ≤ s.pending.length)
      (hanswer : Answering env tools said (sent.map .reasoning) [] s k)
  | answer (before after : Text) (hreasoning : s.reasoning = false) (hpending : s.pending = [])
      (hparts : if thinking then splitOnce thinkEnd text = some (before, after)
        else before = [] ∧ after = text)
      (hstarted : s.answerStarted = (!thinking || !(shown (!thinking) after).isEmpty))
      (hanswer : Answering env tools said (before.map .reasoning) (shown (!thinking) after) s k)

theorem shown_append (started : Bool) (after piece : Text) : shown started (after ++ piece)
      = shown started after ++ shown (started || !(shown started after).isEmpty) piece := by
  cases started with
  | true => simp [shown]
  | false =>
    by_cases he : after.dropWhile (· == '\n') = []
    · simp [shown, dropWhile_append, he]
    · have : (after.dropWhile (· == '\n')).isEmpty = false := by simpa using he
      simp [shown, dropWhile_append, this]

theorem shown_isEmpty_append (started : Bool) (after piece : Text) :
    (started || !(shown started (after ++ piece)).isEmpty)
      = ((started || !(shown started after).isEmpty)
        || !(shown (started || !(shown started after).isEmpty) piece).isEmpty) := by
  rw [shown_append]
  cases started <;> cases shown false after <;> simp

variable {thinking : Bool} {text : Text}

theorem emit_split (listens : Listens consumer said)
    (h : Split env thinking tools said text s k) (piece : Text) (logprobs : List L) :
    Split env thinking tools said (text ++ piece) (s.emit env consumer piece logprobs k).1
      (s.emit env consumer piece logprobs k).2.1 := by
  unfold EventSplitter.emit
  dsimp only
  set s₁ : EventSplitter L :=
    { s with
      generated := s.generated + utf8Len piece,
      logprobs := if logprobs.isEmpty then s.logprobs
        else s.logprobs ++ [⟨s.generated, s.generated + utf8Len piece, logprobs⟩] }
  cases h with
  | answer before after hr hpending hp hs ha =>
    rw [if_pos (by simp [hr])]
    obtain ⟨hne, hst, hrsn, hpend⟩ :=
      content_answering listens (ha.frame s₁ rfl rfl) piece
    have hs₁ : s₁.answerStarted = (!thinking || !(shown (!thinking) after).isEmpty) :=
      hs
    rw [hs₁, ← shown_append] at hne
    rw [hs₁, ← shown_isEmpty_append] at hst
    refine .answer before (after ++ piece) (hrsn.trans hr) (hpend.trans hpending) ?_ hst hne
    cases thinking with
    | false =>
      rw [if_neg (by simp)] at hp ⊢
      exact ⟨hp.1, by rw [hp.2]⟩
    | true =>
      rw [if_pos rfl] at hp ⊢
      exact splitOnce_append hp piece
  | reasoning sent ht hr hs hte hn ho ha =>
    rw [if_neg (by simp [hr])]
    have hf : splitOnce thinkEnd (text ++ piece)
        = (splitOnce thinkEnd (s.pending ++ piece)).map fun found =>
            (sent ++ found.1, found.2) := by
      rw [hte, append_assoc]
      rw [hte] at hn ho
      exact splitOnce_of_overlap hn ho piece
    have ho' : overlap thinkEnd (text ++ piece) = overlap thinkEnd (s.pending ++ piece) := by
      rw [hte, append_assoc]
      rw [hte] at ho
      exact overlap_append (by decide) ho piece
    have hpending : s₁.pending = s.pending := rfl
    rw [hpending]
    cases hsp : splitOnce thinkEnd (s.pending ++ piece) with
    | some found =>
      obtain ⟨reasoning, rest⟩ := found
      rw [hsp, Option.map_some] at hf
      set s₂ : EventSplitter L := { s₁ with pending := [], reasoning := false }
      -- the answer begins, after the last of the reasoning
      have hanss : ∀ k', said k' = said k ++ reasoning.map .reasoning →
          Split env thinking tools said (text ++ piece) (s₂.content env consumer rest k').1
            (s₂.content env consumer rest k').2.1 := by
        intro k' hk'
        have hsaid : Answering env tools said ((sent ++ reasoning).map .reasoning) [] s₂ k' := by
          rw [map_append]
          exact (ha.frame s₂ rfl rfl).say hk'
        obtain ⟨hne, hst, hrsn, hpend⟩ := content_answering listens hsaid rest
        have hs₂ : s₂.answerStarted = false := hs
        rw [hs₂, nil_append] at hne
        rw [hs₂] at hst
        refine .answer (sent ++ reasoning) rest hrsn hpend ?_ ?_ ?_
        · rw [if_pos ht]
          exact hf
        · rw [hst, ht]
          rfl
        · rw [ht]
          exact hne
      cases reasoning with
      | nil => exact hanss k (by simp)
      | cons =>
        simp only [isEmpty_cons, Bool.false_eq_true, if_false, listens.goes, if_true]
        exact hanss _ (listens.said _ _)
    | none =>
      rw [hsp, Option.map_none] at hf
      have hn' := splitOnce_eq_none_iff.mp hf
      have hh := overlap_le_floor (s.pending ++ piece)
      have hsafe := floorPrefix_isPrefix
        (utf8Len (s.pending ++ piece) - (utf8Len thinkEnd - 1)) (s.pending ++ piece)
      generalize floorPrefix (utf8Len (s.pending ++ piece) - (utf8Len thinkEnd - 1))
        (s.pending ++ piece) = safe at hh hsafe ⊢
      cases safe with
      | nil =>
        refine .reasoning sent ht hr hs ?_ hn' ?_ (ha.frame _ rfl rfl)
        · simp [hte]
        · rw [ho']
          exact overlap_le_length _ _
      | cons c safe =>
        refine .reasoning (sent ++ c :: safe) ht hr hs ?_ hn' ?_ ?_
        · show text ++ piece = sent ++ c :: safe ++ (s.pending ++ piece).drop (c :: safe).length
          rw [append_assoc, prefix_iff_eq_append.mp hsafe, hte, append_assoc]
        · rw [ho']
          exact hh
        · rw [map_append]
          exact (ha.say (listens.said k (.reasoning (c :: safe)))).frame _ rfl rfl

theorem emitAll_split (listens : Listens consumer said) :
    ∀ (pieces : List (Text × List L)) {text : Text} {s : EventSplitter L} {k : K},
      Split env thinking tools said text s k →
      Split env thinking tools said (text ++ pieces.flatMap Prod.fst)
        (EventSplitter.emitAll env consumer pieces s k).1
        (EventSplitter.emitAll env consumer pieces s k).2
  | [], text, s, k, h => by simpa [EventSplitter.emitAll] using h
  | (piece, logprobs) :: pieces, text, s, k, h => by
    have := emitAll_split listens pieces (emit_split listens h piece logprobs)
    simpa [EventSplitter.emitAll, append_assoc] using this

theorem new_split (thinking : Bool) (tools : Option ToolSet) (nextCallId : CallId) {k : K}
    (hk : said k = []) : Split env thinking tools said []
      (EventSplitter.new thinking tools [] nextCallId : EventSplitter L) k := by
  have ha : Answering env tools said [] []
      (EventSplitter.new thinking tools [] nextCallId : EventSplitter L) k := by
    refine ⟨⟨rfl, rfl, rfl⟩, ?_, by simp [hk, answered_nil]⟩
    cases tools with
    | none => rfl
    | some =>
      rw [Option.map_some, scan_start_nil]
      rfl
  cases thinking with
  | true =>
    refine .reasoning [] rfl rfl rfl rfl (by decide) ?_ ha
    exact overlap_le_length _ _
  | false => exact .answer [] [] rfl rfl (by simp) rfl ha

/-- What the whole of the generated text says, and the failure it ends in. -/
def spoken (env : Env) (thinking : Bool) (tools : Option ToolSet) (reason : StopReason)
    (text : Text) : List Atom × Option Text :=
  let (reasoning, answer) := parts thinking text
  let (failure, last) := ended env tools reason answer
  (reasoning.map .reasoning ++ answered env tools answer ++ last, failure)

theorem finishAnswer_answering (listens : Listens consumer said)
    (h : Answering env tools said front answer s k) (reason : StopReason) :
    said (s.finishAnswer consumer reason k).2.1
        = front ++ answered env tools answer ++ (ended env tools reason answer).2 ∧
      (s.finishAnswer consumer reason k).1.failure = (ended env tools reason answer).1 ∧
      Quiet (s.finishAnswer consumer reason k).1.stop := by
  unfold EventSplitter.finishAnswer
  cases hs : s.tools with
  | none =>
    cases h.tools_none hs
    simp only [h.quiet.flush]
    refine ⟨by simp [h.heard, ended], ?_, h.quiet⟩
    simp [EventSplitter.failure, ended]
  | some entry =>
    obtain ⟨set, parser⟩ := entry
    obtain ⟨rfl, hv⟩ := h.tools_some hs
    obtain ⟨hf, hq, hsa⟩ := finish_scan
      (stopped_hears listens (s.parsedFrom.getD s.generated)) reason parser
      (k := (s.stop, s.logprobs, k)) h.quiet
    rw [hv] at hf hsa
    simp only [h.heard] at hsa
    dsimp only
    split
    · simp only [hq.flush]
      exact ⟨hsa, hf, hq⟩
    · exact ⟨hsa, hf, hq⟩

theorem ended_reported (env : Env) (tools : Option ToolSet) (reason : StopReason) (answer : Text) :
    ended env tools (if reason = .stopped then .cancelled else reason) answer
      = ended env tools reason answer := by
  cases tools <;> cases reason <;> rfl

theorem Answering.ended_of_failure (h : Answering env tools said front answer s k)
    (hf : s.failure.isSome) (reason : StopReason) :
    ended env tools reason answer = (s.failure, []) := by
  cases hs : s.tools with
  | none => simp [EventSplitter.failure, hs] at hf
  | some entry =>
    obtain ⟨set, parser⟩ := entry
    obtain ⟨rfl, hv⟩ := h.tools_some hs
    have hp : s.failure = parser.view.failure := by simp [EventSplitter.failure, hs, ToolCallParser.view]
    rw [hp] at hf ⊢
    show scanEnd reason (scan env set Scan.start answer).1 = _
    rw [← hv, scanEnd, if_pos hf]

theorem finish_pending (listens : Listens consumer said)
    (h : Answering env tools said front answer s k)
    (hp : s.pending = [] ∨ s.reasoning = true ∧ answer = []) (reason : StopReason) :
    said (s.finish consumer reason k).2.1
        = front ++ s.pending.map .reasoning ++ answered env tools answer
          ++ (ended env tools reason answer).2 ∧
      (s.finish consumer reason k).1.failure = (ended env tools reason answer).1 ∧
      Quiet (s.finish consumer reason k).1.stop := by
  unfold EventSplitter.finish
  rcases hp with hn | ⟨hr, rfl⟩
  · simpa [hn] using finishAnswer_answering listens h reason
  · have he := deliver_hears listens
    cases hc : s.pending with
    | nil => simpa using finishAnswer_answering listens h reason
    | cons c pending =>
      simp only [isEmpty_cons, Bool.false_eq_true, if_false, hr, if_true, he.goes _ _ _ trivial]
      refine finishAnswer_answering listens ?_ reason
      exact (h.say (he.said (s.logprobs, k) (.reasoning (c :: pending))
        (s.generated - utf8Len (c :: pending)) trivial)).frame _ rfl rfl

theorem close_answering (listens : Listens consumer said)
    (h : Answering env tools said front answer s k)
    (hp : s.pending = [] ∨ s.reasoning = true ∧ answer = []) (reason : StopReason) :
    (said (s.close consumer reason k).2.1, (s.close consumer reason k).1.failure)
      = (front ++ s.pending.map .reasoning ++ answered env tools answer
          ++ (ended env tools reason answer).2, (ended env tools reason answer).1) := by
  unfold EventSplitter.close
  split
  · next hf =>
    rw [h.ended_of_failure hf reason]
    rcases hp with hnil | ⟨hr, rfl⟩
    · simp [hnil, h.heard]
    · -- no call can fail before the answer begins
      have he := h.ended_of_failure hf .cancelled
      have hn : ended env tools .cancelled [] = (none, []) := by
        cases tools with
        | none => rfl
        | some => rw [ended, scan_start_nil]; rfl
      rw [hn] at he
      rw [← (Prod.mk.inj he).1] at hf
      cases hf
  · obtain ⟨hs, hf, hq⟩ := finish_pending listens h hp
      (if reason = .stopped then .cancelled else reason)
    rw [ended_reported] at hs hf
    simp only [h.quiet.matched, hq.matched, Bool.false_eq_true, if_false, hs, hf]

theorem close_split (listens : Listens consumer said)
    (h : Split env thinking tools said text s k) (reason : StopReason) :
    (said (s.close consumer reason k).2.1, (s.close consumer reason k).1.failure)
      = spoken env thinking tools reason text := by
  cases h with
  | reasoning sent ht hr hst hte hn ho ha =>
    have hp : parts thinking text = (text, []) := by
      rw [parts, if_pos ht, splitOnce_eq_none_iff.mpr hn]
    rw [close_answering listens ha (.inr ⟨hr, rfl⟩), spoken, hp, hte]
    simp
  | answer before after hr hpe hs hst ha =>
    have hp : parts thinking text = (before, shown (!thinking) after) := by
      cases thinking with
      | true =>
        rw [if_pos rfl] at hs
        rw [parts, if_pos rfl, hs]
        rfl
      | false =>
        rw [if_neg (by simp)] at hs
        rw [hs.1, hs.2]
        rfl
    rw [close_answering listens ha (.inl hpe), spoken, hp, hpe]
    simp

/-! ### Chunking -/

/-- The events of an answer in order, and the failure it ended in. -/
def EventSplitter.run (env : Env) (thinking : Bool) (tools : Option ToolSet) (stop : List Text)
    (nextCallId : CallId) (pieces : List (Text × List L)) (reason : StopReason) :
    List (Event L) × Option Text :=
  let record : Consumer L (List (Event L)) := fun log event => (log ++ [event], true)
  let (s, log) := emitAll env record pieces (new thinking tools stop nextCallId) []
  let (s, log, _) := s.close record reason log
  (log, s.failure)

def reasoningText (events : List (Event L)) : Text :=
  events.flatMap fun
    | .reasoning text => text
    | _ => []

def contentText (events : List (Event L)) : Text :=
  events.flatMap fun
    | .content text => text
    | _ => []

def toolCalls (events : List (Event L)) : List (Text × Json) :=
  events.filterMap fun
    | .toolCall call => some (call.name, call.arguments)
    | _ => none

/-- The visible answer: each character of content and each call, in order. -/
def visible (events : List (Event L)) : List (Char ⊕ Text × Json) :=
  events.flatMap fun
    | .content text => text.map .inl
    | .toolCall call => [.inr (call.name, call.arguments)]
    | _ => []

def heard (events : List (Event L)) : List Atom := events.flatMap atoms

def reasoned : Atom → Option Char
  | .reasoning c => some c
  | _ => none

/-- The part of the visible answer an atom is. -/
def seen : Atom → Option (Char ⊕ Text × Json)
  | .reasoning _ => none
  | .content c => some (.inl c)
  | .call name arguments => some (.inr (name, arguments))

theorem reasoningText_eq (events : List (Event L)) :
    reasoningText events = (heard events).filterMap reasoned := by
  unfold reasoningText heard
  rw [filterMap_flatMap]
  congr 1
  funext event
  cases event <;> simp [atoms, reasoned, Function.comp_def]

theorem visible_eq (events : List (Event L)) : visible events = (heard events).filterMap seen := by
  unfold visible heard
  rw [filterMap_flatMap]
  congr 1
  funext event
  cases event <;> simp [atoms, seen, Function.comp_def]

theorem contentText_eq (events : List (Event L)) :
    contentText events = (visible events).filterMap Sum.getLeft? := by
  unfold contentText visible
  rw [filterMap_flatMap]
  congr 1
  funext event
  cases event <;> simp [Function.comp_def]

theorem toolCalls_eq (events : List (Event L)) :
    toolCalls events = (visible events).filterMap Sum.getRight? := by
  unfold toolCalls visible
  rw [filterMap_flatMap, filterMap_eq_flatMap_toList]
  congr 1
  funext event
  cases event <;> simp [Function.comp_def]

theorem run_heard (env : Env) (thinking : Bool) (tools : Option ToolSet) (nextCallId : CallId)
    (pieces : List (Text × List L)) (reason : StopReason) :
    (heard (EventSplitter.run env thinking tools [] nextCallId pieces reason).1,
        (EventSplitter.run env thinking tools [] nextCallId pieces reason).2)
      = spoken env thinking tools reason (pieces.flatMap Prod.fst) := by
  have listens : Listens (fun (log : List (Event L)) event => (log ++ [event], true)) heard :=
    ⟨fun _ _ => rfl, fun log event => by simp [heard]⟩
  have hn : Split env thinking tools heard []
      (EventSplitter.new thinking tools [] nextCallId : EventSplitter L) ([] : List (Event L)) :=
    new_split thinking tools nextCallId rfl
  exact close_split listens (emitAll_split listens pieces hn) reason

theorem answered_visible (env : Env) (tools : Option ToolSet) (reason : StopReason)
    (answer : Text) : ∀ atom ∈ answered env tools answer ++ (ended env tools reason answer).2,
      reasoned atom = none := by
  intro atom ha
  have hv : ∀ c, atom ≠ .reasoning c := by
    cases tools with
    | none =>
      obtain ⟨c, _, rfl⟩ : ∃ c ∈ answer, Atom.content c = atom := by
        simpa [answered, ended] using ha
      intro d heq
      cases heq
    | some =>
      rcases mem_append.mp ha with hm | hm
      · rw [answered, scan_of_running rfl] at hm
        exact scanPending_visible _ _ _ atom hm
      · simp only [ended, scanEnd] at hm
        split at hm
        · cases hm
        · split at hm
          · cases hm
          · exact sayText_visible hm
  cases atom with
  | reasoning c => exact absurd rfl (hv c)
  | _ => rfl

theorem spoken_reasoned (env : Env) (thinking : Bool) (tools : Option ToolSet)
    (reason : StopReason) (text : Text) :
    (spoken env thinking tools reason text).1.filterMap reasoned = (parts thinking text).1 := by
  have hn := filterMap_eq_nil_iff.mpr (answered_visible env tools reason (parts thinking text).2)
  have hs : ((parts thinking text).1.map Atom.reasoning).filterMap reasoned
      = (parts thinking text).1 := by simp [reasoned, Function.comp_def]
  simp only [spoken, append_assoc, filterMap_append, hs] at hn ⊢
  rw [hn, append_nil]

theorem parts_reasoning (thinking : Bool) (text : Text) : (parts thinking text).1
      = if thinking then ((splitOnce thinkEnd text).map Prod.fst).getD text else [] := by
  cases thinking with
  | false => rfl
  | true =>
    simp only [parts, if_true]
    cases splitOnce thinkEnd text <;> rfl

/-- **Event splitting does not depend on how the text arrives.** -/
theorem splitting_independent_of_chunking (env : Env) (thinking : Bool) (tools : Option ToolSet)
    (reason : StopReason) (pieces : List (Text × List L)) (logprobs : List L)
    (nextCallId nextCallId' : CallId) :
    let text := pieces.flatMap Prod.fst
    let chunked := EventSplitter.run env thinking tools [] nextCallId pieces reason
    let whole := EventSplitter.run env thinking tools [] nextCallId' [(text, logprobs)] reason
    reasoningText chunked.1 = reasoningText whole.1 ∧
      (reasoningText chunked.1
        = if thinking then ((splitOnce thinkEnd text).map Prod.fst).getD text else []) ∧
      contentText chunked.1 = contentText whole.1 ∧
      toolCalls chunked.1 = toolCalls whole.1 ∧
      visible chunked.1 = visible whole.1 ∧
      chunked.2 = whole.2 := by
  intro text chunked whole
  have hc := run_heard env thinking tools nextCallId pieces reason
  have hw := run_heard env thinking tools nextCallId' [(text, logprobs)] reason
  have ht : [(text, logprobs)].flatMap Prod.fst = text := by simp
  rw [ht] at hw
  obtain ⟨hh, hf⟩ := Prod.mk.inj (hc.trans hw.symm)
  have hr : reasoningText chunked.1 = reasoningText whole.1 := by
    rw [reasoningText_eq, reasoningText_eq, hh]
  have hv : visible chunked.1 = visible whole.1 := by
    rw [visible_eq, visible_eq, hh]
  refine ⟨hr, ?_, ?_, ?_, hv, hf⟩
  · have hs : heard chunked.1 = (spoken env thinking tools reason text).1 :=
      congrArg Prod.fst hc
    rw [reasoningText_eq, hs, spoken_reasoned, parts_reasoning]
  · rw [contentText_eq, contentText_eq, hv]
  · rw [toolCalls_eq, toolCalls_eq, hv]

/-- **Reasoning comes first**: no text of the reasoning follows any part of the answer. -/
theorem reasoning_first (env : Env) (thinking : Bool) (tools : Option ToolSet)
    (nextCallId : CallId) (pieces : List (Text × List L)) (reason : StopReason) :
    (heard (EventSplitter.run env thinking tools [] nextCallId pieces reason).1).Pairwise
      fun a b => (reasoned b).isSome → (reasoned a).isSome := by
  have hh := congrArg Prod.fst (run_heard env thinking tools nextCallId pieces reason)
  have hv := answered_visible env tools reason (parts thinking (pieces.flatMap Prod.fst)).2
  dsimp only [spoken] at hh
  rw [hh, append_assoc, pairwise_append, pairwise_map]
  refine ⟨pairwise_of_forall fun _ _ _ => rfl, pairwise_of_forall_mem_list fun a _ b hb hs => ?_,
    fun a ha b _ _ => ?_⟩
  · rw [hv b hb] at hs
    cases hs
  · obtain ⟨c, -, rfl⟩ := mem_map.mp ha
    rfl

end LocalAi.Answer
