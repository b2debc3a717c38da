import LocalAi.Fetch.Body

/-!
# Bodies cut short

A reader learns that the sink is full from a write that fails. What a decoder held back until it
is finished is refused after the reader has decided that the body is whole.

* `codec`: the decoder of a coding without its sink, as one transducer.
* `Tracks.push`: one chunk is read whole, or the sink refuses some of it, or it is bad.
* `readLoop_stops`, `readLoop_fits`: the chunks up to where the reader stops.
* `Honest`: what a caller of the reader relies on.
* `LateOverrun`: what was held back to the end is more than there is room for.
* `read_honest_iff`: a body is read honestly but for a late overrun.
-/

open List

namespace LocalAi.Fetch

open Lib (Codec Transducer bind_eq_ok bind_eq_error mapError_eq_ok mapError_eq_error)
open Workspace (Bytes ToolError)

variable {env : Env} {coding : Coding}

/-! ### A coding as one transducer -/

def kindOf : Coding → Bytes → Option Kind
  | .gzip, _ => some .gzip
  | .deflate, cmf :: flg :: _ => some (sniff cmf flg)
  | .brotli, _ => some .brotli
  | .zstd, _ => some .zstd
  | _, _ => none

def decoded (env : Env) (coding : Coding) (body : Bytes) : Bytes :=
  match kindOf coding body with
  | some kind => (env.codec kind).decoded body
  | none => if coding = .identity then body else []

def clean (env : Env) (coding : Coding) (body : Bytes) : Bool :=
  match kindOf coding body with
  | some kind => (env.codec kind).clean body
  | none => coding = .identity || body.isEmpty

def Stage.readBy (kind : Kind) (state : (env.codec kind).State) (data : Bytes) :
    List Bytes × Except Text (Stage env) :=
  (((env.codec kind).read state data).1, ((env.codec kind).read state data).2.map (.coded kind))

/-- The first read of a `deflate` body, once two bytes are there. -/
def Stage.sniffed : Bytes → List Bytes × Except Text (Stage env)
  | cmf :: flg :: rest => Stage.readBy (sniff cmf flg) (env.codec _).start (cmf :: flg :: rest)
  | pending => ([], .ok (.deflate pending))

/-- What a stage writes for some input, and the next one. -/
def Stage.push : Stage env → Bytes → List Bytes × Except Text (Stage env)
  | .identity, data => ([data], .ok .identity)
  | .deflate pending, data => Stage.sniffed (pending ++ data)
  | .coded kind state, data => Stage.readBy kind state data

def Stage.finish : Stage env → List Bytes × Except Text Unit
  | .identity => ([], .ok ())
  | .deflate pending =>
    ([], if pending = [] then .ok () else .error "a truncated deflate stream".toList)
  | .coded kind state => (env.codec kind).finish state

def transducer (env : Env) (coding : Coding) : Transducer UInt8 UInt8 Text where
  State := Stage env
  start := .start env coding
  push := Stage.push
  refused := fun stage data n =>
    match stage with
    | .coded kind state => .coded kind ((env.codec kind).refused state data n)
    | stage => stage
  finish := Stage.finish

theorem kindOf_append {body : Bytes} {kind : Kind} (h : kindOf coding body = some kind)
    (more : Bytes) : kindOf coding (body ++ more) = some kind := by
  cases coding with
  | deflate =>
    rcases body with _ | ⟨cmf, _ | ⟨flg, body⟩⟩
    · cases h
    · cases h
    · exact h
  | identity => cases h
  | gzip => exact h
  | brotli => exact h
  | zstd => exact h

def Reached (env : Env) (coding : Coding) (x out : Bytes) : Stage env → Prop
  | .identity => coding = .identity ∧ out = x
  | .deflate pending => coding = .deflate ∧ pending = x ∧ x.length < 2 ∧ out = []
  | .coded kind state => kindOf coding x = some kind ∧ (env.codec kind).Reads x out state

theorem reached_start : Reached env coding [] [] (.start env coding) := by
  cases coding with
  | identity => exact ⟨rfl, rfl⟩
  | deflate => exact ⟨rfl, rfl, Nat.zero_lt_two, rfl⟩
  | gzip => exact ⟨rfl, .start⟩
  | brotli => exact ⟨rfl, .start⟩
  | zstd => exact ⟨rfl, .start⟩

/-- What a read writes is decoded, and it ends in the next stage. -/
structure Steps (coding : Coding) (x out : Bytes) (read : List Bytes × Except Text (Stage env)) :
    Prop where
  written : out ++ read.1.flatten <+: decoded env coding x
  next : ∀ stage, read.2 = .ok stage → Reached env coding x (out ++ read.1.flatten) stage

theorem steps_readBy {x out data : Bytes} {kind : Kind} {state : (env.codec kind).State}
    (hk : kindOf coding (x ++ data) = some kind) (h : (env.codec kind).Reads x out state) :
    Steps coding (x ++ data) out (Stage.readBy kind state data) := by
  constructor
  · unfold decoded
    rw [hk]
    exact Codec.read_isPrefix h
  · intro stage hs
    obtain ⟨state', hr, rfl⟩ := Lib.map_eq_ok.mp hs
    exact ⟨hk, h.read (Prod.ext rfl hr)⟩

/-- **One read.** -/
theorem Reached.push {x out : Bytes} {stage : Stage env} (h : Reached env coding x out stage)
    (data : Bytes) : Steps coding (x ++ data) out (stage.push data) := by
  cases stage with
  | identity =>
    obtain ⟨rfl, rfl⟩ := h
    have hf : [data].flatten = data := flatten_singleton
    constructor
    · show out ++ [data].flatten <+: out ++ data
      rw [hf]
    · intro stage hs
      cases hs
      exact ⟨rfl, congrArg (out ++ ·) hf⟩
  | deflate pending =>
    obtain ⟨rfl, rfl, hsh, rfl⟩ := h
    show Steps _ _ _ (Stage.sniffed (pending ++ data))
    rcases pending ++ data with _ | ⟨cmf, _ | ⟨flg, rest⟩⟩
    · refine ⟨ nil_prefix, fun stage hs => ?_⟩
      cases hs
      exact ⟨rfl, rfl, Nat.zero_lt_two, rfl⟩
    · refine ⟨ nil_prefix, fun stage hs => ?_⟩
      cases hs
      exact ⟨rfl, rfl, Nat.one_lt_two, rfl⟩
    · exact @steps_readBy _ .deflate [] _ _ _ _ rfl .start
  | coded => exact steps_readBy (kindOf_append h.1 data) h.2

variable {out x : Bytes}

theorem reached_reads {stage : (transducer env coding).State}
    (h : (transducer env coding).Reads x out stage) : Reached env coding x out stage := by
  induction h with
  | start => exact reached_start
  | @push x data out s s' pieces hr hd hp ih =>
    have hst : Stage.push s data = (pieces, .ok s') := hp
    have hs := ih.push data
    rw [hst] at hs
    exact hs.next s' rfl

theorem Reached.finish {stage : Stage env} (h : Reached env coding x out stage) :
    out ++ stage.finish.1.flatten <+: decoded env coding x ∧
      stage.finish.2.isOk = clean env coding x ∧
      (clean env coding x = true → out ++ stage.finish.1.flatten = decoded env coding x) := by
  cases stage with
  | identity =>
    obtain ⟨rfl, rfl⟩ := h
    unfold Stage.finish
    rw [flatten_nil, append_nil]
    exact ⟨prefix_rfl, rfl, fun _ => rfl⟩
  | deflate pending =>
    obtain ⟨rfl, rfl, hs, rfl⟩ := h
    rcases pending with _ | ⟨b, _ | ⟨b', rest⟩⟩
    · exact ⟨ nil_prefix, rfl, fun _ => rfl⟩
    · exact ⟨ nil_prefix, rfl, fun _ => rfl⟩
    · simp only [length_cons] at hs
      omega
  | coded kind =>
    obtain ⟨hk, hr⟩ := h
    unfold Stage.finish decoded clean
    rw [hk]
    exact (env.codec kind).finishes hr

theorem decoded_grows (x y : Bytes) : decoded env coding x <+: decoded env coding (x ++ y) := by
  rcases hk : kindOf coding x with _ | kind
  · unfold decoded
    rw [hk]
    cases coding with
    | identity => exact prefix_append x y
    | deflate => exact nil_prefix
    | gzip => cases hk
    | brotli => cases hk
    | zstd => cases hk
  · unfold decoded
    rw [hk, kindOf_append hk]
    exact (env.codec kind).grows x y

def codec (env : Env) (coding : Coding) : Codec UInt8 UInt8 Text :=
  { transducer env coding with
    decoded := decoded env coding
    clean := clean env coding
    grows := decoded_grows
    writes := fun {x data out s pieces next} hreads _ hpush => by
      have hstage : Stage.push s data = (pieces, next) := hpush
      have hsteps := (reached_reads hreads).push data
      rw [hstage] at hsteps
      exact hsteps.written
    finishes := fun hreads => (reached_reads hreads).finish }

theorem Reached.read {stage : Stage env} (h : Reached env coding x out stage)
    (data : Bytes) : ((codec env coding).read stage data).1.flatten = (stage.push data).1.flatten ∧
      ((codec env coding).read stage data).2 = (stage.push data).2 := by
  unfold Transducer.read
  by_cases hd : data = []
  · rw [if_pos hd, hd]
    cases stage with
    | identity => exact ⟨rfl, rfl⟩
    | deflate pending =>
      obtain ⟨rfl, rfl, hs, rfl⟩ := h
      rcases pending with _ | ⟨b, _ | ⟨b', rest⟩⟩
      · exact ⟨rfl, rfl⟩
      · exact ⟨rfl, rfl⟩
      · simp only [length_cons] at hs
        omega
    | coded => exact ⟨rfl, rfl⟩
  · rw [if_neg hd]
    exact ⟨rfl, rfl⟩

/-! ### One chunk -/

/-- What a push does whose stage writes `written` and has `next` come out. -/
structure Pushed (before : Sink) (written : Bytes) (next : Except Text (Stage env))
    (r : Except ToolError (Decoder env × Bool)) : Prop where
  fits : ∀ stage, (before.bytes ++ written).length ≤ before.limit → next = .ok stage →
    ∃ sink : Sink, r = .ok (⟨stage, sink⟩, false) ∧ sink.limit = before.limit ∧
      sink.full = false ∧ sink.bytes = before.bytes ++ written
  bad : ∀ e, (before.bytes ++ written).length ≤ before.limit → next = .error e →
    r = .error (corrupt e)
  overruns : before.limit < (before.bytes ++ written).length → ∃ d' : Decoder env,
    r = .ok (d', true) ∧ d'.sink.full = true ∧
      d'.sink.bytes = (before.bytes ++ written).take before.limit

theorem pushWritten_identity {sink : Sink} (ho : sink.full = false) (data : Bytes) :
    Pushed sink data (.ok .identity)
      (Decoder.pushWritten (⟨.identity, sink⟩ : Decoder env) data) := by
  have hw := sink.writeAll_writes data
  unfold Decoder.pushWritten Decoder.write
  rcases ha : sink.writeAll data with ⟨sink', written⟩
  rw [ha] at hw
  refine ⟨fun stage hle hn => ?_, nofun, fun hlt => ?_⟩
  · obtain ⟨hf, rfl⟩ := hw.fits hle
    cases hn
    have hf' : sink'.full = false := hf.trans ho
    refine ⟨sink', ?_, hw.limit, hf', ?_⟩
    · dsimp only
      rw [hf']
    · rw [hw.bytes, take_of_length_le hle]
  · obtain ⟨hf, rfl⟩ := hw.overruns hlt
    exact ⟨⟨.identity, sink'⟩, if_pos hf, hf, hw.bytes⟩

theorem pushWritten_coded {sink : Sink} (ho : sink.full = false) {kind : Kind}
    (state : (env.codec kind).State) (data : Bytes) :
    Pushed sink (Stage.readBy kind state data).1.flatten
      (Stage.readBy kind state data).2 (Decoder.pushWritten ⟨.coded kind state, sink⟩ data) := by
  unfold Stage.readBy Decoder.pushWritten Decoder.write
  dsimp only
  rcases (env.codec kind).read state data with ⟨pieces, next⟩
  have hw := sink.writePieces_writes pieces
  rcases ha : sink.writePieces pieces with ⟨sink', written⟩
  rw [ha] at hw
  refine ⟨fun stage hle hn => ?_, fun e hle hn => ?_, fun hlt => ?_⟩
  · obtain ⟨hf, rfl⟩ := hw.fits hle
    obtain ⟨state', rfl, rfl⟩ := Lib.map_eq_ok.mp hn
    have hf' : sink'.full = false := hf.trans ho
    refine ⟨sink', ?_, hw.limit, hf', ?_⟩
    · dsimp only
      rw [hf']
    · rw [hw.bytes, take_of_length_le hle]
  · obtain ⟨hf, rfl⟩ := hw.fits hle
    have hf' : sink'.full = false := hf.trans ho
    cases next with
    | ok => cases hn
    | error =>
      cases hn
      dsimp only
      rw [hf']
      rfl
  · obtain ⟨hf, rfl⟩ := hw.overruns hlt
    exact ⟨_, if_pos hf, hf, hw.bytes⟩

variable {d : Decoder env} {chunks : List Bytes}

theorem Reached.pushed (h : Reached env coding x out d.stage)
    (ho : d.sink.full = false) (data : Bytes) :
    Pushed d.sink (d.stage.push data).1.flatten (d.stage.push data).2 (d.push data) := by
  obtain ⟨stage, sink⟩ := d
  cases stage with
  | identity =>
    have hf : [data].flatten = data := flatten_singleton
    show Pushed _ [data].flatten _ _
    rw [hf]
    exact pushWritten_identity ho data
  | deflate pending =>
    show Pushed _ (Stage.sniffed (pending ++ data)).1.flatten (Stage.sniffed (pending ++ data)).2 _
    unfold Decoder.push
    dsimp only
    rcases pending ++ data with _ | ⟨cmf, _ | ⟨flg, rest⟩⟩
    · refine ⟨fun stage _ hn => ?_, nofun, fun hlt => ?_⟩
      · cases hn
        exact ⟨sink, rfl, rfl, ho, (append_nil _).symm⟩
      · exact absurd sink.within (by rw [← append_nil sink.bytes]; exact Nat.not_le.mpr hlt)
    · refine ⟨fun stage _ hn => ?_, nofun, fun hlt => ?_⟩
      · cases hn
        exact ⟨sink, rfl, rfl, ho, (append_nil _).symm⟩
      · exact absurd sink.within (by rw [← append_nil sink.bytes]; exact Nat.not_le.mpr hlt)
    · exact pushWritten_coded ho _ _
  | coded kind state => exact pushWritten_coded ho state data

/-- A decoder that read `chunks` and whose sink refused nothing. -/
structure Tracks (env : Env) (coding : Coding) (limit : Nat) (chunks : List Bytes)
    (d : Decoder env) : Prop where
  feeds : (codec env coding).feed (codec env coding).start chunks = (d.sink.bytes, .ok d.stage)
  limit : d.sink.limit = limit
  unfilled : d.sink.full = false

/-- What a decoder writes for `chunks`, and what comes of it. -/
def fed (env : Env) (coding : Coding) (chunks : List Bytes) : Bytes × Except Text (Stage env) :=
  (codec env coding).feed (codec env coding).start chunks

variable {limit : Nat}

theorem Tracks.reached (h : Tracks env coding limit chunks d) :
    Reached env coding chunks.flatten d.sink.bytes d.stage :=
  reached_reads (Transducer.feed_reads h.feeds)

theorem Tracks.push {chunks : List Bytes} {d : Decoder env}
    (h : Tracks env coding limit chunks d) (data : Bytes) :
    (∃ d', d.push data = .ok (d', false) ∧ Tracks env coding limit (chunks ++ [data]) d' ∧
      (fed env coding (chunks ++ [data])).1.length ≤ limit) ∨
    (∃ e, d.push data = .error (corrupt e) ∧ (fed env coding (chunks ++ [data])).2 = .error e) ∨
    ∃ d', d.push data = .ok (d', true) ∧ d'.sink.full = true ∧
      limit < (fed env coding (chunks ++ [data])).1.length ∧
      d'.sink.bytes = (fed env coding (chunks ++ [data])).1.take limit := by
  obtain ⟨hw, hn⟩ := h.reached.read data
  have hfed : fed env coding (chunks ++ [data]) =
      (d.sink.bytes ++ (d.stage.push data).1.flatten, (d.stage.push data).2) := by
    unfold fed
    rw [Transducer.feed_concat h.feeds, hw, hn]
    rfl
  obtain ⟨hfi, hbad, ho⟩ := h.reached.pushed h.unfilled data
  rw [h.limit] at hfi hbad ho
  rw [hfed]
  by_cases hle : (d.sink.bytes ++ (d.stage.push data).1.flatten).length ≤ limit
  · rcases hs : (d.stage.push data).2 with e | stage
    · exact Or.inr (Or.inl ⟨e, hbad e hle hs, rfl⟩)
    · obtain ⟨sink, hp, hlim, hf, hb⟩ := hfi stage hle hs
      refine Or.inl ⟨_, hp, ⟨?_, hlim, hf⟩, hle⟩
      show fed env coding (chunks ++ [data]) = _
      rw [hfed, hs, hb]
      rfl
  · obtain ⟨d', hp, hf, hb⟩ := ho (by omega)
    exact Or.inr (Or.inr ⟨d', hp, hf, by dsimp only; omega, hb⟩)

/-! ### The end of a body -/

theorem Decoder.tryFinish_writes (d : Decoder env) : ∃ written,
    Sink.Writes d.sink d.stage.finish.1.flatten d.tryFinish.1 written ∧
      d.tryFinish.2 = (written.bind fun _ => d.stage.finish.2) := by
  obtain ⟨stage, sink⟩ := d
  cases stage with
  | identity => exact ⟨.ok (), Sink.Writes.nil sink, rfl⟩
  | deflate => exact ⟨.ok (), Sink.Writes.nil sink, rfl⟩
  | coded kind state =>
    unfold Decoder.tryFinish Stage.finish
    dsimp only
    have hw := sink.writePieces_writes ((env.codec kind).finish state).1
    rcases ha : sink.writePieces ((env.codec kind).finish state).1 with ⟨sink', e | u⟩
    · rw [ha] at hw
      exact ⟨.error e, hw, rfl⟩
    · rw [ha] at hw
      exact ⟨.ok (), hw, rfl⟩

theorem Decoder.finish_full (h : d.sink.full = true) (cut : Bool) :
    d.finish cut = .ok d.sink.bytes := by
  obtain ⟨written, hw, -⟩ := d.tryFinish_writes
  have hb : d.tryFinish.1.bytes = d.sink.bytes := by
    rw [hw.bytes, ← d.sink.filled h, take_left]
  have hf : d.tryFinish.1.full = true := by
    by_cases hle : (d.sink.bytes ++ d.stage.finish.1.flatten).length ≤ d.sink.limit
    · exact (hw.fits hle).1.trans h
    · exact (hw.overruns (by omega)).1
  unfold Decoder.finish
  rcases he : d.tryFinish with ⟨sink, e | u⟩
  · rw [he] at hb hf
    dsimp only
    rw [hf, Bool.not_true, Bool.and_false, hb]
    rfl
  · rw [he] at hb
    exact congrArg Except.ok hb

/-- All that the decoder writes for `chunks`, its end with it. -/
def whole (d : Decoder env) : Bytes := d.sink.bytes ++ d.stage.finish.1.flatten

theorem Tracks.whole_spec (h : Tracks env coding limit chunks d) :
    whole d <+: decoded env coding chunks.flatten ∧
      d.stage.finish.2.isOk = clean env coding chunks.flatten ∧
      (clean env coding chunks.flatten = true → whole d = decoded env coding chunks.flatten) :=
  h.reached.finish

/-- **An end** that the sink has no room for is taken for one. -/
theorem Tracks.finish_over (h : Tracks env coding limit chunks d) (cut : Bool)
    (hlt : limit < (whole d).length) : d.finish cut = .ok ((whole d).take limit) := by
  obtain ⟨written, hw, he⟩ := d.tryFinish_writes
  rw [← h.limit] at hlt ⊢
  obtain ⟨hf, rfl⟩ := hw.overruns hlt
  unfold Decoder.finish
  rcases hend : d.tryFinish with ⟨sink, e | u⟩
  · rw [hend] at hf hw
    dsimp only at hf ⊢
    rw [hf, Bool.not_true, Bool.and_false]
    exact congrArg Except.ok hw.bytes
  · rw [hend] at he
    cases he

/-- **An end** keeps decoded bytes; all of them if there is room and the stream must end. -/
theorem Tracks.finish {cut : Bool} {bytes : Bytes}
    (h : Tracks env coding limit chunks d) (hf : d.finish cut = .ok bytes) :
    bytes.length ≤ limit ∧ bytes <+: decoded env coding chunks.flatten ∧
      ((whole d).length ≤ limit → cut = false →
        bytes = decoded env coding chunks.flatten ∧ clean env coding chunks.flatten = true) := by
  obtain ⟨hw, hc, hd⟩ := h.whole_spec
  by_cases hlt : limit < (whole d).length
  · rw [h.finish_over cut hlt] at hf
    cases hf
    refine ⟨length_take_le _ _, ( take_prefix _ _).trans hw, fun hle => ?_⟩
    omega
  · obtain ⟨written, hwrs, hen⟩ := d.tryFinish_writes
    have hle : (whole d).length ≤ d.sink.limit := by
      rw [h.limit]
      omega
    obtain ⟨hfu, rfl⟩ := hwrs.fits hle
    have hb : d.tryFinish.1.bytes = whole d := by
      rw [hwrs.bytes]
      exact take_of_length_le hle
    have he' : d.tryFinish.2 = d.stage.finish.2 := hen
    have hk : bytes = whole d ∧ (cut = false → d.stage.finish.2.isOk = true) := by
      rw [h.unfilled] at hfu
      unfold Decoder.finish at hf
      rcases he : d.tryFinish with ⟨sink, e | u⟩
      · rw [he] at hf hb hfu he'
        dsimp only at hf hb hfu
        rw [hfu] at hf
        cases cut with
        | false => cases hf
        | true =>
          cases hf
          exact ⟨hb, fun hcut => by cases hcut⟩
      · rw [he] at hf hb he'
        cases hf
        rw [← he']
        exact ⟨hb, fun _ => rfl⟩
    obtain ⟨rfl, hok⟩ := hk
    refine ⟨by omega, hw, fun _ hcut => ?_⟩
    have hc' : clean env coding chunks.flatten = true := by
      rw [← hc]
      exact hok hcut
    exact ⟨hd hc', hc'⟩

/-! ### The loop -/

def received : List Frame → Bytes
  | [] => []
  | .error _ :: _ => []
  | .ok data :: rest => data ++ received rest

theorem received_ok (chunks : List Bytes) : received (chunks.map .ok) = chunks.flatten := by
  induction chunks with
  | nil => rfl
  | cons data chunks ih => exact congrArg (data ++ ·) ih

structure Stops (env : Env) (coding : Coding) (limit encodedLimit : Nat) (chunks : List Bytes)
    (frames : List Frame) (outcome : Nat × Except Failure (Decoder env × Bool)) : Prop where
  encoded : outcome.1 ≤ encodedLimit
  computes : outcome.2 ≠ .error .underflow
  whole : ∀ d', outcome.2 = .ok (d', false) → ∃ rest : List Bytes, frames = rest.map .ok ∧
    (chunks ++ rest).flatten.length ≤ encodedLimit ∧ Tracks env coding limit (chunks ++ rest) d'
  cut : ∀ d', outcome.2 = .ok (d', true) → ∃ rest : List Bytes,
    rest.flatten <+: received frames ∧
      (d'.sink.full = true ∧ limit < (fed env coding (chunks ++ rest)).1.length ∧
          d'.sink.bytes = (fed env coding (chunks ++ rest)).1.take limit ∨
        Tracks env coding limit (chunks ++ rest) d' ∧
          encodedLimit < chunks.flatten.length + (received frames).length)

theorem readLoop_stops {limit encodedLimit : Nat} (h : Tracks env coding limit chunks d)
    (frames : List Frame) (hle : chunks.flatten.length ≤ encodedLimit) :
    Stops env coding limit encodedLimit chunks frames
      (readLoop encodedLimit frames d chunks.flatten.length) := by
  induction frames generalizing chunks d with
  | nil =>
    refine ⟨hle, nofun, fun d' hok => ?_, fun d' hok => by cases hok⟩
    cases hok
    refine ⟨[], rfl, ?_⟩
    rw [append_nil]
    exact ⟨hle, h⟩
  | cons frame frames ih =>
    cases frame with
    | error =>
      exact ⟨hle, nofun, fun d' hok => (by cases hok),
        fun d' hok => by cases hok⟩
    | ok chunk =>
      rw [readLoop, if_neg (by omega)]
      dsimp only
      generalize hta : chunk.take (min (encodedLimit - chunks.flatten.length) chunk.length) = take
      have ht : take <+: chunk := by
        rw [← hta]
        exact take_prefix _ _
      have hlen : take.length = min (encodedLimit - chunks.flatten.length) chunk.length := by
        rw [← hta, length_take]
        omega
      have hfl : (chunks ++ [take]).flatten = chunks.flatten ++ take := by
        rw [flatten_append, flatten_singleton]
      have hsum : (chunks ++ [take]).flatten.length = chunks.flatten.length + take.length := by
        rw [hfl, length_append]
      have hw : [take].flatten <+: received (.ok chunk :: frames) := by
        rw [flatten_singleton]
        exact ht.trans (prefix_append _ _)
      have he : chunks.flatten.length + take.length ≤ encodedLimit := by omega
      rcases h.push take with ⟨d', hp, htr, -⟩ | ⟨e, hp, -⟩ | ⟨d', hp, hfu, hlt, hb⟩
      · rw [hp]
        dsimp only
        rw [Bool.false_or]
        by_cases hs : take.length < chunk.length
        · rw [if_pos (decide_eq_true hs)]
          refine ⟨he, nofun, fun d'' hok => (by cases hok),
            fun d'' hok => ?_⟩
          cases hok
          refine ⟨[take], hw, Or.inr ⟨htr, ?_⟩⟩
          have hre : (received (.ok chunk :: frames)).length =
              chunk.length + (received frames).length := length_append
          omega
        · have heq : take = chunk := ht.eq_of_length (by
            have := ht.length_le
            omega)
          subst heq
          rw [if_neg (by rw [decide_eq_true_eq]; exact hs), ← hsum]
          obtain ⟨he', hc, hw, hcut⟩ := ih htr (by omega)
          refine ⟨he', hc, fun d'' hok => ?_, fun d'' hok => ?_⟩
          · obtain ⟨rest, rfl, hr⟩ := hw d'' hok
            rw [append_assoc] at hr
            exact ⟨take :: rest, rfl, hr⟩
          · obtain ⟨rest, hre, hr⟩ := hcut d'' hok
            rw [append_assoc, hsum, Nat.add_assoc, ← length_append] at hr
            exact ⟨take :: rest, (prefix_append_right_inj take).mpr hre, hr⟩
      · rw [hp]
        exact ⟨he, nofun, fun d' hok => (by cases hok),
          fun d' hok => by cases hok⟩
      · rw [hp]
        refine ⟨he, nofun, fun d'' hok => (by cases hok),
          fun d'' hok => ?_⟩
        cases hok
        exact ⟨[take], hw, Or.inl ⟨hfu, hlt, hb⟩⟩

theorem readLoop_fits {limit encodedLimit : Nat} {chunks rest : List Bytes} {d : Decoder env}
    {out : Bytes} {stage : Stage env} (h : Tracks env coding limit chunks d)
    (hf : fed env coding (chunks ++ rest) = (out, .ok stage)) (ho : out.length ≤ limit)
    (hle : (chunks ++ rest).flatten.length ≤ encodedLimit) :
    ∃ d', (readLoop encodedLimit (rest.map .ok) d chunks.flatten.length).2 = .ok (d', false) ∧
      Tracks env coding limit (chunks ++ rest) d' := by
  induction rest generalizing chunks d with
  | nil =>
    rw [append_nil]
    exact ⟨d, rfl, h⟩
  | cons chunk rest ih =>
    have hj : chunks ++ chunk :: rest = chunks ++ [chunk] ++ rest :=
      append_cons chunks chunk rest
    have hsum : (chunks ++ [chunk]).flatten.length = chunks.flatten.length + chunk.length := by
      rw [flatten_append, flatten_singleton, length_append]
    rw [hj] at hf hle ⊢
    have hro : chunks.flatten.length + chunk.length ≤ encodedLimit := by
      rw [flatten_append, length_append] at hle
      omega
    have hta : chunk.take (min (encodedLimit - chunks.flatten.length) chunk.length) = chunk :=
      take_of_length_le (by omega)
    rw [map_cons, readLoop, if_neg (by omega)]
    dsimp only
    rw [hta]
    rcases h.push chunk with ⟨d', hp, ht, -⟩ | ⟨e, -, hb⟩ | ⟨d', -, -, hlt, -⟩
    · obtain ⟨d'', hr, ht'⟩ := ih ht hf hle
      rw [hp]
      dsimp only
      rw [Bool.false_or, if_neg (by rw [decide_eq_true_eq]; exact Nat.lt_irrefl _), ← hsum]
      exact ⟨d'', hr, ht'⟩
    · have hs : fed env coding (chunks ++ [chunk] ++ rest) = fed env coding (chunks ++ [chunk]) :=
        Transducer.feed_error hb rest
      rw [← hs, hf] at hb
      cases hb
    · have hw : (fed env coding (chunks ++ [chunk])).1 <+:
          (fed env coding (chunks ++ [chunk] ++ rest)).1 := Transducer.feed_isPrefix _ _ _ _
      rw [hf] at hw
      have hlen : (fed env coding (chunks ++ [chunk])).1.length ≤ out.length := hw.length_le
      omega

/-! ### What a caller relies on -/

/-- The stream ended, within what is read of it. -/
def Ended (limit : Nat) (frames : List Frame) : Prop :=
  (∃ chunks : List Bytes, frames = chunks.map .ok) ∧
    (received frames).length ≤ saturatingAdd limit encodedSlack

/-- **A body is read honestly.** -/
structure Honest (env : Env) (response : Response) (limit : Nat) : Prop where
  consumes : consumed env response limit ≤ limit + encodedSlack
  computes : read env response limit ≠ .error .underflow
  /-- What is kept is decoded, and it is `cut` unless it is all of a stream that ended cleanly. -/
  keeps : ∀ coding, Coding.parse env response.contentEncoding = .ok coding →
    ∀ r, read env response limit = .ok r → r.bytes.length ≤ limit ∧
      r.bytes <+: decoded env coding (received response.frames) ∧
      (r.cut = false ↔ Ended limit response.frames ∧
        r.bytes = decoded env coding (received response.frames) ∧
        clean env coding (received response.frames) = true)
  downloads : ∀ coding, Coding.parse env response.contentEncoding = .ok coding →
    ∀ accept d, download env response limit accept = .ok d →
      Ended limit response.frames ∧ d.body = decoded env coding (received response.frames) ∧
        clean env coding (received response.frames) = true

/-- The sink has room for what the decoder of a whole body writes before its end, and none for
all that it held back. -/
def LateOverrun (env : Env) (response : Response) (limit : Nat) : Prop :=
  ∃ (coding : Coding) (chunks : List Bytes) (out : Bytes) (stage : Stage env),
    Coding.parse env response.contentEncoding = .ok coding ∧ env.ready coding = .ok () ∧
      response.frames = chunks.map .ok ∧
      chunks.flatten.length ≤ saturatingAdd limit encodedSlack ∧
      fed env coding chunks = (out, .ok stage) ∧ out.length ≤ limit ∧
      limit < (out ++ stage.finish.1.flatten).length

section Reader

variable {response : Response} {limit : Nat}

theorem tracks_start (env : Env) (coding : Coding) (limit : Nat) :
    Tracks env coding limit [] ⟨.start env coding, .empty limit⟩ :=
  ⟨rfl, rfl, rfl⟩

theorem decoderOf_eq_ok {d : Decoder env} : decoderOf env response limit = .ok d ↔
    ∃ coding, Coding.parse env response.contentEncoding = .ok coding ∧ env.ready coding = .ok () ∧
      d = ⟨.start env coding, .empty limit⟩ := by
  unfold decoderOf Decoder.new
  rw [bind_eq_ok]
  refine exists_congr fun coding => and_congr_right fun _ => ?_
  rw [bind_eq_ok]
  exact ⟨fun ⟨_, hr, hd⟩ => ⟨hr, (Except.ok.inj hd).symm⟩,
    fun ⟨hr, hd⟩ => ⟨(), hr, by rw [hd]; rfl⟩⟩

theorem read_eq_ok {r : Read} : read env response limit = .ok r ↔
    ∃ coding d', Coding.parse env response.contentEncoding = .ok coding ∧
      env.ready coding = .ok () ∧
      (readLoop (saturatingAdd limit encodedSlack) response.frames
        (⟨.start env coding, .empty limit⟩ : Decoder env) 0).2 = .ok (d', r.cut) ∧
      d'.finish r.cut = .ok r.bytes := by
  unfold read
  rw [bind_eq_ok]
  constructor
  · rintro ⟨d, hd, h⟩
    obtain ⟨coding, hp, hr, rfl⟩ := decoderOf_eq_ok.mp (mapError_eq_ok.mp hd)
    obtain ⟨⟨d', cut⟩, hl, h⟩ := bind_eq_ok.mp h
    obtain ⟨bytes, hf, h⟩ := bind_eq_ok.mp h
    cases h
    exact ⟨coding, d', hp, hr, hl, mapError_eq_ok.mp hf⟩
  · rintro ⟨coding, d', hp, hr, hl, hf⟩
    exact ⟨_, mapError_eq_ok.mpr (decoderOf_eq_ok.mpr ⟨coding, hp, hr, rfl⟩),
      bind_eq_ok.mpr ⟨_, hl, bind_eq_ok.mpr ⟨_, mapError_eq_ok.mpr hf, rfl⟩⟩⟩

theorem stops (env : Env) (coding : Coding) (limit encodedLimit : Nat) (frames : List Frame) :
    Stops env coding limit encodedLimit [] frames
      (readLoop encodedLimit frames (⟨.start env coding, .empty limit⟩ : Decoder env) 0) :=
  readLoop_stops (tracks_start env coding limit) frames (Nat.zero_le _)

theorem consumed_le : consumed env response limit ≤ limit + encodedSlack := by
  unfold consumed
  rcases hd : decoderOf env response limit with e | d
  · exact Nat.zero_le _
  · obtain ⟨coding, -, -, rfl⟩ := decoderOf_eq_ok.mp hd
    exact (stops env coding limit _ response.frames).encoded.trans (Nat.min_le_left _ _)

theorem read_computes : read env response limit ≠ .error .underflow := by
  intro h
  rcases bind_eq_error.mp h with ho | ⟨d, ho, h⟩
  · obtain ⟨e, -, he⟩ := mapError_eq_error.mp ho
    cases he
  obtain ⟨coding, -, -, rfl⟩ := decoderOf_eq_ok.mp (mapError_eq_ok.mp ho)
  rcases bind_eq_error.mp h with hl | ⟨⟨d', cut⟩, -, h⟩
  · exact (stops env coding limit _ response.frames).computes hl
  rcases bind_eq_error.mp h with hf | ⟨bytes, -, h⟩
  · obtain ⟨e, -, he⟩ := mapError_eq_error.mp hf
    cases he
  · cases h

theorem read_keeps (hla : ¬ LateOverrun env response limit)
    (hp : Coding.parse env response.contentEncoding = .ok coding) {r : Read}
    (hread : read env response limit = .ok r) : r.bytes.length ≤ limit ∧
      r.bytes <+: decoded env coding (received response.frames) ∧
      (r.cut = false ↔ Ended limit response.frames ∧
        r.bytes = decoded env coding (received response.frames) ∧
        clean env coding (received response.frames) = true) := by
  obtain ⟨coding', d', hp', hready, hl, hfin⟩ := read_eq_ok.mp hread
  cases hp.symm.trans hp'
  obtain ⟨-, -, hw, hcut⟩ :=
    stops env coding limit (saturatingAdd limit encodedSlack) response.frames
  cases hc : r.cut with
  | false =>
    rw [hc] at hl hfin
    obtain ⟨chunks, hf, hle, ht⟩ := hw d' hl
    rw [nil_append] at hle ht
    obtain ⟨hlen, hw, ha⟩ := ht.finish hfin
    have hro : (whole d').length ≤ limit := by
      by_contra ho
      refine hla ⟨coding, chunks, d'.sink.bytes, d'.stage, hp, hready, hf, hle,
        ht.feeds, ?_, not_le.mp ho⟩
      rw [← ht.limit]
      exact d'.sink.within
    have hr : received response.frames = chunks.flatten := by
      rw [hf, received_ok]
    rw [hr]
    exact ⟨hlen, hw, fun _ => ⟨⟨⟨chunks, hf⟩, by rw [hr]; exact hle⟩, ha hro rfl⟩, fun _ => rfl⟩
  | true =>
    rw [hc] at hl hfin
    obtain ⟨chunks, hr, hs⟩ := hcut d' hl
    rw [nil_append] at hs
    obtain ⟨more, hm⟩ := hr
    have hg : decoded env coding chunks.flatten <+:
        decoded env coding (received response.frames) := by
      rw [← hm]
      exact decoded_grows _ _
    rcases hs with ⟨hfu, hlt, hb⟩ | ⟨ht, hlt⟩
    · have hfed : (fed env coding chunks).1 <+: decoded env coding chunks.flatten :=
        Codec.feed_isPrefix (codec env coding) chunks
      rw [Decoder.finish_full hfu, hb] at hfin
      rw [← Except.ok.inj hfin]
      refine ⟨length_take_le _ _, (( take_prefix _ _).trans hfed).trans hg, nofun, ?_⟩
      rintro ⟨-, heq, -⟩
      have hsh : ((fed env coding chunks).1.take limit).length ≤ limit :=
        length_take_le _ _
      have hlo := (hfed.trans hg).length_le
      rw [heq] at hsh
      omega
    · obtain ⟨hlen, hw, -⟩ := ht.finish hfin
      refine ⟨hlen, hw.trans hg, nofun, ?_⟩
      rintro ⟨⟨-, hle⟩, -⟩
      rw [flatten_nil, length_nil] at hlt
      omega

end Reader

theorem download_eq_ok {response : Response} {accept : Option Text → Bool}
    {d : Download} (h : download env response limit accept = .ok d) :
    ∃ r, read env response limit = .ok r ∧ r.cut = false ∧ d.body = r.bytes := by
  unfold download at h
  split at h
  · cases h
  split at h
  · cases h
  split at h
  · cases h
  obtain ⟨r, hr, h⟩ := bind_eq_ok.mp h
  by_cases hc : r.cut = true
  · rw [if_pos hc] at h
    cases h
  · rw [if_neg hc] at h
    cases h
    exact ⟨r, hr, Bool.eq_false_iff.mpr hc, rfl⟩

/-- **A body is read honestly exactly when there is no late overrun.** -/
theorem read_honest_iff (env : Env) (response : Response) (limit : Nat) :
    Honest env response limit ↔ ¬ LateOverrun env response limit := by
  constructor
  · rintro h ⟨coding, chunks, out, stage, hp, hre, hf, hle, hfed, ho, hlt⟩
    obtain ⟨d', hl, ht⟩ := @readLoop_fits env coding limit
      (saturatingAdd limit encodedSlack) [] chunks _ _ _ (tracks_start env coding limit) hfed ho hle
    rw [nil_append] at ht
    have hs : (d'.sink.bytes, Except.ok d'.stage) = (out, Except.ok stage) :=
      ht.feeds.symm.trans hfed
    rw [Prod.mk.injEq] at hs
    obtain ⟨rfl, hst⟩ := hs
    cases hst
    have hr : read env response limit = .ok ⟨(whole d').take limit, false⟩ := by
      refine read_eq_ok.mpr ⟨coding, d', hp, hre, ?_, ht.finish_over false hlt⟩
      rw [hf]
      exact hl
    obtain ⟨hsh, -, hk⟩ := h.keeps coding hp _ hr
    obtain ⟨-, ha, -⟩ := hk.mp rfl
    have hlo := ht.whole_spec.1.length_le
    rw [ha, hf, received_ok] at hsh
    unfold whole at hlo
    omega
  · intro h
    refine ⟨consumed_le, read_computes, fun coding hp r hr => read_keeps h hp hr,
      fun coding hp accept d hd => ?_⟩
    obtain ⟨r, hr, hc, hb⟩ := download_eq_ok hd
    rw [hb]
    exact (read_keeps h hp hr).2.2.mp hc

/-! ### A short gzip body -/

def abcGzip : Bytes :=
  [31, 139, 8, 0, 0, 0, 0, 0, 2, 3, 75, 76, 74, 6, 0, 194, 65, 36, 53, 3, 0, 0, 0]

def abc : Bytes := [97, 98, 99]

def abcDecoded (body : Bytes) : Bytes := if abcGzip <+: body then abc else []

def abcEnd (body : Bytes) : Except Text Unit :=
  if body = abcGzip then .ok () else .error "corrupt gzip stream".toList

/-- Decodes that one stream, and as gzip's decoder does keeps a short output until its end. -/
def abcTransducer : Transducer UInt8 UInt8 Text where
  State := Bytes
  start := []
  push := fun s data => ([], .ok (s ++ data))
  refused := fun s _ _ => s
  finish := fun s => ([abcDecoded s], abcEnd s)

theorem abc_reads {s : abcTransducer.State} (h : abcTransducer.Reads x out s) :
    s = x ∧ out = [] := by
  induction h with
  | start => exact ⟨rfl, rfl⟩
  | push hr hd hp ih =>
    obtain ⟨rfl, rfl⟩ := ih
    cases hp
    exact ⟨rfl, rfl⟩

theorem abcDecoded_grows (x y : Bytes) : abcDecoded x <+: abcDecoded (x ++ y) := by
  unfold abcDecoded
  by_cases hx : abcGzip <+: x
  · rw [if_pos hx, if_pos (hx.trans (prefix_append x y))]
  · rw [if_neg hx]
    exact nil_prefix

theorem abcEnd_isOk (x : Bytes) : (abcEnd x).isOk = decide (x = abcGzip) := by
  unfold abcEnd
  by_cases hx : x = abcGzip
  · rw [if_pos hx, decide_eq_true hx]
    rfl
  · rw [if_neg hx, decide_eq_false hx]
    rfl

def abcCodec : Codec UInt8 UInt8 Text :=
  { abcTransducer with
    decoded := abcDecoded
    clean := fun x => x = abcGzip
    grows := abcDecoded_grows
    writes := fun hreads _ hpush => by
      obtain ⟨-, rfl⟩ := abc_reads hreads
      cases hpush
      exact nil_prefix
    finishes := fun {x out s} hreads => by
      obtain ⟨rfl, rfl⟩ := abc_reads hreads
      have hflat : [abcDecoded s].flatten = abcDecoded s := flatten_singleton
      refine ⟨?_, abcEnd_isOk s, fun _ => hflat⟩
      show [abcDecoded s].flatten <+: abcDecoded s
      rw [hflat] }

def abcEnv : Env := ⟨fun _ => abcCodec, none, id⟩

def abcResponse : Response :=
  ⟨200, some "gzip".toList, none, none, [.ok abcGzip]⟩

/-- Two bytes of three are downloaded as the whole body. -/
theorem held_back_to_the_end :
    download abcEnv abcResponse 2 (fun _ => true) = .ok ⟨none, [97, 98]⟩ ∧
      decoded abcEnv .gzip (received abcResponse.frames) = abc ∧
      ¬ Honest abcEnv abcResponse 2 := by
  have hd : download abcEnv abcResponse 2 (fun _ => true) = .ok ⟨none, [97, 98]⟩ := by
    decide
  have hp : Coding.parse abcEnv abcResponse.contentEncoding = .ok .gzip := by
    decide
  have hdec : decoded abcEnv .gzip (received abcResponse.frames) = abc := by
    decide
  refine ⟨hd, hdec, fun h => ?_⟩
  obtain ⟨-, hb, -⟩ := h.downloads .gzip hp _ _ hd
  rw [hdec] at hb
  cases hb

end LocalAi.Fetch
