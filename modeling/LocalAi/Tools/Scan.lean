import LocalAi.Tools.Parser

/-!
# What the parser says, whatever the pieces

The abstract parser `scan` reads its pending text by its two tags alone: no
consumer, no offsets, no deltas.  What it says is a list of atoms, single
characters of content and whole calls.

* `scan_append`: scanning a text in two parts is scanning it at once.
* `feedLoop_scan`, `feed_scan`: a consumer that never refuses hears from the
  streaming parser exactly the atoms of `scan`, and the states agree.
-/

open List

namespace LocalAi.Tools

open LocalAi.Lib LocalAi.Answer LocalAi.Engine

variable {L K : Type}

/-- What an answer says, piece boundaries forgotten. -/
inductive Atom where
  | reasoning (c : Char)
  | content (c : Char)
  | call (name : Text) (arguments : Json)

/-- The part of the parser's state that decides what it will say. -/
structure Scan where
  pending : Text
  inCall : Bool
  afterCall : Bool
  failure : Option Text

/-! ### The end of a call -/

variable {pending : Text}

variable {rest text : Text}

theorem mem_of_callEndTag (he : callEndTag <:+: pending)
    (ho : stripPrefix functionOpen pending = some rest) : '>' ∈ rest := by
  have hp := stripPrefix_eq_some.mp ho
  have hm : '>' ∈ pending := he.subset (by decide)
  rw [hp] at hm
  rcases mem_append.mp hm with h | h
  · exact absurd h (by decide)
  · exact h

theorem stripPrefix_append_of_isInfix (he : callEndTag <:+: pending) (more : Text) :
    stripPrefix functionOpen (pending ++ more)
      = (stripPrefix functionOpen pending).map (· ++ more) := by
  cases ho : stripPrefix functionOpen pending with
  | some =>
    rw [stripPrefix_eq_some.mp ho, Option.map_some, stripPrefix_eq_some, append_assoc]
  | none =>
    cases hm : stripPrefix functionOpen (pending ++ more) with
    | none => rfl
    | some rest =>
      have hp : functionOpen <+: pending := by
        refine prefix_of_prefix_length_le ⟨rest, (stripPrefix_eq_some.mp hm).symm⟩
          (prefix_append _ _) ?_
        have := he.length_le
        have : functionOpen.length ≤ callEndTag.length := by decide
        omega
      obtain ⟨back, hb⟩ := hp
      rw [stripPrefix_eq_some.mpr hb.symm] at ho
      cases ho

def strictHeader (tools : ToolSet) (pending : Text) : Option Tool :=
  if tools.anyStrict then
    ((stripPrefix functionOpen pending).bind (splitOnce ['>'])).bind fun (name, _) =>
      (tools.get name).filter fun tool => tool.strict.isSome
  else
    none

theorem callEnd_eq (pending : Text) (tools : ToolSet) :
    callEnd pending tools = match strictHeader tools pending with
      | some tool => (splitOnce strictCallEnd pending).map fun (block, rest) =>
          (block, rest, strictCallEnd, some tool)
      | none => (splitOnce callEndTag pending).map fun (block, rest) =>
          (block, rest, callEndTag, none) := by
  unfold callEnd strictHeader
  cases tools.anyStrict with
  | false => rfl
  | true =>
    cases (stripPrefix functionOpen pending).bind (splitOnce ['>']) with
    | none => rfl
    | some header =>
      simp only [Option.bind_some]
      cases tools.get header.1 with
      | none => rfl
      | some tool => cases hs : tool.strict.isSome <;> simp [Option.filter, hs]

variable {tools : ToolSet}

theorem strictHeader_append_some {tool : Tool}
    (h : strictHeader tools pending = some tool) (more : Text) :
    strictHeader tools (pending ++ more) = some tool := by
  unfold strictHeader at h ⊢
  split at h
  · next ha =>
    rw [if_pos ha]
    obtain ⟨⟨name, after⟩, hn, ht⟩ := Option.bind_eq_some_iff.mp h
    obtain ⟨rest, hr, hs⟩ := Option.bind_eq_some_iff.mp hn
    have hm : stripPrefix functionOpen (pending ++ more) = some (rest ++ more) := by
      rw [stripPrefix_eq_some.mp hr, stripPrefix_eq_some, append_assoc]
    rw [hm, Option.bind_some, splitOnce_append hs more, Option.bind_some]
    exact ht
  · cases h

theorem strictHeader_append_none (h : strictHeader tools pending = none)
    (he : callEndTag <:+: pending) (more : Text) : strictHeader tools (pending ++ more) = none := by
  unfold strictHeader at h ⊢
  split
  · next ha =>
    rw [if_pos ha] at h
    rw [stripPrefix_append_of_isInfix he more]
    cases ho : stripPrefix functionOpen pending with
    | none => rfl
    | some rest =>
      have hm := mem_of_callEndTag he ho
      cases hs : splitOnce ['>'] rest with
      | none =>
        rw [splitOnce_eq_none_iff] at hs
        exact absurd ((singleton_infix_iff _ _).mpr hm) hs
      | some parts =>
        obtain ⟨name, after⟩ := parts
        rw [Option.map_some, Option.bind_some, splitOnce_append hs more, Option.bind_some]
        rw [ho, Option.bind_some, hs, Option.bind_some] at h
        exact h
  · rfl

theorem callEnd_append {block marker : Text} {strict : Option Tool}
    (h : callEnd pending tools = some (block, rest, marker, strict)) (more : Text) :
    callEnd (pending ++ more) tools = some (block, rest ++ more, marker, strict) := by
  rw [callEnd_eq] at h ⊢
  cases hh : strictHeader tools pending with
  | some =>
    rw [hh] at h
    rw [strictHeader_append_some hh more]
    obtain ⟨⟨block', rest'⟩, hs, heq⟩ := Option.map_eq_some_iff.mp h
    cases heq
    simp only [splitOnce_append hs more, Option.map_some]
  | none =>
    rw [hh] at h
    obtain ⟨⟨block', rest'⟩, hs, heq⟩ := Option.map_eq_some_iff.mp h
    cases heq
    have hend : callEndTag <:+: pending := ⟨block, rest, (splitOnce_eq_some hs).symm⟩
    rw [strictHeader_append_none hh hend more]
    simp only [splitOnce_append hs more, Option.map_some]

theorem callEnd_eq_some {block marker : Text} {strict : Option Tool}
    (h : callEnd pending tools = some (block, rest, marker, strict)) :
    pending = block ++ marker ++ rest ∧ marker ≠ [] := by
  rw [callEnd_eq] at h
  split at h <;>
  · obtain ⟨⟨block', rest'⟩, hs, heq⟩ := Option.map_eq_some_iff.mp h
    cases heq
    exact ⟨splitOnce_eq_some hs, by decide⟩

/-! ### Held text -/

/-- The part of `text` that is certainly content. -/
def readyText (text : Text) : Text := trimEnd (text.take (text.length - overlap callStart text))

def heldText (text : Text) : Text := text.drop (readyText text).length

theorem readyText_isPrefix (text : Text) : readyText text <+: text :=
  ( rdropWhile_prefix _ _).trans ( take_prefix _ _)

theorem ready_append_held (text : Text) : readyText text ++ heldText text = text :=
  prefix_iff_eq_append.mp (readyText_isPrefix text)

theorem length_sub_heldSuffix (text : Text) :
    text.length - heldSuffix text = (readyText text).length := by
  have hle := overlap_le_length callStart text
  have hr : (readyText text).length ≤ (text.take (text.length - overlap callStart text)).length :=
    ( rdropWhile_prefix _ _).length_le
  show text.length - (overlap callStart text
    + ((text.take (text.length - overlap callStart text)).length - (readyText text).length)) = _
  simp only [length_take] at hr ⊢
  omega

theorem overlap_le_held (text : Text) : overlap callStart text ≤ (heldText text).length := by
  have hle := overlap_le_length callStart text
  have hr : (readyText text).length ≤ (text.take (text.length - overlap callStart text)).length :=
    ( rdropWhile_prefix _ _).length_le
  unfold heldText
  rw [length_drop]
  rw [length_take] at hr
  omega

theorem readyText_last {c : Char} (h : (readyText text).getLast? = some c) :
    isWhitespace c = false :=
  getLast?_rdropWhile h

theorem readyText_append (text more : Text) :
    readyText (text ++ more) = readyText text ++ readyText (heldText text ++ more) := by
  have ho : overlap callStart (readyText text ++ heldText text) ≤ (heldText text).length := by
    rw [ready_append_held]
    exact overlap_le_held text
  have hsa : overlap callStart (text ++ more) = overlap callStart (heldText text ++ more) := by
    have := overlap_append (by decide) ho more
    rwa [← append_assoc, ready_append_held] at this
  have hle := overlap_le_length callStart (heldText text ++ more)
  have hs : text ++ more = readyText text ++ (heldText text ++ more) := by
    rw [← append_assoc, ready_append_held]
  have ht : (text ++ more).take ((text ++ more).length - overlap callStart (text ++ more))
      = readyText text ++ (heldText text ++ more).take
          ((heldText text ++ more).length - overlap callStart (heldText text ++ more)) := by
    rw [hsa, hs, ← take_length_add_append]
    congr 1
    rw [length_append]
    omega
  show trimEnd _ = _
  rw [ht]
  exact rdropWhile_append_of_getLast (fun c hc => readyText_last hc) _

theorem heldText_append (text more : Text) :
    heldText (text ++ more) = heldText (heldText text ++ more) := by
  have h := ready_append_held (text ++ more)
  rw [readyText_append, append_assoc] at h
  conv_rhs at h => rw [← ready_append_held text, append_assoc]
  have h' := append_cancel_left h
  conv_rhs at h' => rw [← ready_append_held (heldText text ++ more)]
  exact append_cancel_left h'

theorem splitOnce_ready (hn : splitOnce callStart text = none) (more : Text) :
    splitOnce callStart (text ++ more)
      = (splitOnce callStart (heldText text ++ more)).map fun parts =>
          (readyText text ++ parts.1, parts.2) := by
  have hin : ¬ callStart <:+: readyText text ++ heldText text := by
    rw [ready_append_held]
    exact splitOnce_eq_none_iff.mp hn
  have ho : overlap callStart (readyText text ++ heldText text) ≤ (heldText text).length := by
    rw [ready_append_held]
    exact overlap_le_held text
  have hs := splitOnce_of_overlap hin ho more
  rwa [← append_assoc, ready_append_held] at hs

/-! ### The abstract parser -/

/-- Content after an optional call: leading whitespace is dropped after one. -/
def sayText (afterCall : Bool) (text : Text) : Bool × List Atom :=
  let trimmed := if afterCall then trimStart text else text
  (afterCall && trimmed.isEmpty, trimmed.map Atom.content)

/-- Everything the pending text says, and what is still pending.  Nothing is
pending after a failure, when the rest of the answer is not read. -/
def scanPending (env : Env) (tools : ToolSet) (s : Scan) : Scan × List Atom :=
  if s.inCall then
    match _hend : callEnd s.pending tools with
    | none => (s, [])
    | some (block, rest, _, strict) =>
      match parseBlock env tools block strict with
      | .ok (name, arguments) =>
        let next := scanPending env tools
          { s with pending := rest, inCall := false, afterCall := true }
        (next.1, .call name (.object arguments) :: next.2)
      | .error error =>
        ({ s with
            pending := [], inCall := false, afterCall := true,
            failure := some ("invalid tool call: ".toList ++ error) }, [])
  else
    match _hstart : splitOnce callStart s.pending with
    | some (text, rest) =>
      let said := sayText s.afterCall (trimEnd text)
      let next := scanPending env tools
        { s with pending := rest, inCall := true, afterCall := said.1 }
      (next.1, said.2 ++ next.2)
    | none =>
      let said := sayText s.afterCall (readyText s.pending)
      ({ s with pending := heldText s.pending, afterCall := said.1 }, said.2)
termination_by s.pending.length
decreasing_by
  · obtain ⟨hpending, hmarker⟩ := callEnd_eq_some _hend
    have := length_pos_iff.mpr hmarker
    rw [hpending]
    simp only [length_append]
    omega
  · rw [splitOnce_eq_some _hstart]
    have : 0 < callStart.length := by decide
    simp only [length_append]
    omega

/-- The next part `text` of the answer. -/
def scan (env : Env) (tools : ToolSet) (s : Scan) (text : Text) : Scan × List Atom :=
  if s.failure.isSome then
    (s, [])
  else
    scanPending env tools { s with pending := s.pending ++ text }

theorem sayText_visible {afterCall : Bool} {atom : Atom}
    (h : atom ∈ (sayText afterCall text).2) (c : Char) : atom ≠ .reasoning c := by
  obtain ⟨d, _, rfl⟩ := mem_map.mp h
  intro heq
  cases heq

theorem scanPending_visible (env : Env) (tools : ToolSet) (s : Scan) :
    ∀ atom ∈ (scanPending env tools s).2, ∀ c, atom ≠ .reasoning c := by
  fun_induction scanPending env tools s with
  | case1 | case3 => simp
  | case2 s _ block rest _ strict _ name arguments _ next ih =>
    intro atom ha
    rcases mem_cons.mp ha with rfl | hm
    · intro c heq
      cases heq
    · exact ih atom hm
  | case4 s _ text rest _ said next ih =>
    intro atom ha
    rcases mem_append.mp ha with hm | hm
    · exact sayText_visible hm
    · exact ih atom hm
  | case5 => exact fun atom ha => sayText_visible ha

section Append

variable {env : Env} {tools : ToolSet}

theorem scanPending_call {s : Scan} {block rest marker : Text} {strict : Option Tool}
    (hin : s.inCall = true) (he : callEnd s.pending tools = some (block, rest, marker, strict)) :
    scanPending env tools s = match parseBlock env tools block strict with
      | .ok (name, arguments) =>
        let next := scanPending env tools
          { s with pending := rest, inCall := false, afterCall := true }
        (next.1, .call name (.object arguments) :: next.2)
      | .error error =>
        ({ s with
            pending := [], inCall := false, afterCall := true,
            failure := some ("invalid tool call: ".toList ++ error) }, []) := by
  rw [scanPending, if_pos hin]
  split
  · next h => rw [he] at h; cases h
  · next h =>
    rw [he] at h
    cases h
    rfl

variable {s : Scan}

theorem scanPending_open (hin : s.inCall = true)
    (he : callEnd s.pending tools = none) : scanPending env tools s = (s, []) := by
  rw [scanPending, if_pos hin]
  split
  · rfl
  · next h => rw [he] at h; cases h

theorem scanPending_start {s : Scan} {text rest : Text} (hin : s.inCall = false)
    (hs : splitOnce callStart s.pending = some (text, rest)) : scanPending env tools s
      = let said := sayText s.afterCall (trimEnd text)
        let next := scanPending env tools
          { s with pending := rest, inCall := true, afterCall := said.1 }
        (next.1, said.2 ++ next.2) := by
  rw [scanPending, if_neg (by simp [hin])]
  split
  · next h =>
    rw [hs] at h
    cases h
    rfl
  · next h => rw [hs] at h; cases h

theorem scanPending_text {s : Scan} (hin : s.inCall = false)
    (hs : splitOnce callStart s.pending = none) : scanPending env tools s = ({ s with
            pending := heldText s.pending,
            afterCall := (sayText s.afterCall (readyText s.pending)).1 },
          (sayText s.afterCall (readyText s.pending)).2) := by
  rw [scanPending, if_neg (by simp [hin])]
  split
  · next h => rw [hs] at h; cases h
  · rfl

@[simp] theorem sayText_false (text : Text) : sayText false text = (false, text.map .content) := rfl

@[simp] theorem sayText_nil (afterCall : Bool) : sayText afterCall [] = (afterCall, []) := by
  cases afterCall <;> rfl

theorem sayText_append (afterCall : Bool) {front : Text}
    (hl : ∀ c, front.getLast? = some c → isWhitespace c = false) (rest : Text) :
    sayText afterCall (front ++ rest)
      = ((sayText (sayText afterCall front).1 rest).1,
        (sayText afterCall front).2 ++ (sayText (sayText afterCall front).1 rest).2) := by
  cases afterCall with
  | false => simp
  | true =>
    rcases eq_nil_or_concat' front with rfl | ⟨init, c, rfl⟩
    · simp
    · -- the visible character stops the trimming
      have hc : isWhitespace c = false := hl c (by simp)
      have hne : trimStart (init ++ [c]) ≠ [] := by
        intro hnil
        have ha := dropWhile_eq_nil_iff.mp hnil c (by simp)
        rw [hc] at ha
        cases ha
      have ht : trimStart (init ++ [c] ++ rest) = trimStart (init ++ [c]) ++ rest := by
        unfold trimStart at hne ⊢
        rw [dropWhile_append, if_neg (by simpa using hne)]
      have he : (trimStart (init ++ [c])).isEmpty = false := by simpa using hne
      have he' : (trimStart (init ++ [c]) ++ rest).isEmpty = false := by simp [hne]
      simp only [sayText, if_true, ht, Bool.true_and, he, he',
        Bool.false_and, Bool.false_eq_true, if_false, map_append]

theorem scanPending_ready (hin : s.inCall = false)
    (hn : splitOnce callStart s.pending = none) (more : Text) :
    scanPending env tools { s with pending := s.pending ++ more }
      = let said := sayText s.afterCall (readyText s.pending)
        let next := scanPending env tools
          { s with pending := heldText s.pending ++ more, afterCall := said.1 }
        (next.1, said.2 ++ next.2) := by
  have hl : ∀ c, (readyText s.pending).getLast? = some c → isWhitespace c = false :=
    fun c hc => readyText_last hc
  have hs := splitOnce_ready hn more
  cases hh : splitOnce callStart (heldText s.pending ++ more) with
  | some parts =>
    obtain ⟨text, rest⟩ := parts
    rw [hh, Option.map_some] at hs
    have ht : trimEnd (readyText s.pending ++ text) = readyText s.pending ++ trimEnd text :=
      rdropWhile_append_of_getLast hl text
    have hw := @scanPending_start env tools { s with pending := s.pending ++ more } _ _ hin hs
    have ha := @scanPending_start env tools { s with
        pending := heldText s.pending ++ more,
        afterCall := (sayText s.afterCall (readyText s.pending)).1 } _ _ hin hh
    rw [hw, ht, sayText_append s.afterCall hl]
    simp only [ha, append_assoc]
  | none =>
    rw [hh, Option.map_none] at hs
    have hw := @scanPending_text env tools { s with pending := s.pending ++ more } hin hs
    have ha := @scanPending_text env tools { s with
        pending := heldText s.pending ++ more,
        afterCall := (sayText s.afterCall (readyText s.pending)).1 } hin hh
    rw [hw]
    dsimp only
    rw [ha, readyText_append s.pending more, heldText_append s.pending more,
      sayText_append s.afterCall hl]

theorem scan_of_failure (h : s.failure.isSome) (text : Text) : scan env tools s text = (s, []) := by
  rw [scan, if_pos h]

theorem scan_of_running {s : Scan} (h : s.failure = none) (text : Text) :
    scan env tools s text = scanPending env tools { s with pending := s.pending ++ text } := by
  rw [scan, if_neg (by simp [h])]

/-- **Scanning in two parts is scanning at once**, for whatever is pending. -/
theorem scanPending_append (s : Scan) (hf : s.failure = none) (more : Text) :
    scanPending env tools { s with pending := s.pending ++ more }
      = let first := scanPending env tools s
        let second := scan env tools first.1 more
        (second.1, first.2 ++ second.2) := by
  induction hn : s.pending.length using Nat.strongRecOn generalizing s with
  | ind n ih =>
    have hc : s.inCall = true ∨ s.inCall = false := by cases s.inCall <;> simp
    rcases hc with hin | hin
    · cases he : callEnd s.pending tools with
      | none =>
        rw [scanPending_open hin he]
        simp only [scan_of_running hf, nil_append]
      | some parts =>
        obtain ⟨block, rest, marker, strict⟩ := parts
        obtain ⟨hp, hm⟩ := callEnd_eq_some he
        have hw := @scanPending_call env tools { s with pending := s.pending ++ more }
          _ _ _ _ hin (callEnd_append he more)
        rw [scanPending_call hin he, hw]
        cases parseBlock env tools block strict with
        | error => simp [scan_of_failure]
        | ok =>
          have hsh : rest.length < n := by
            have := length_pos_iff.mpr hm
            rw [← hn, hp]
            simp only [length_append]
            omega
          have hr := ih rest.length hsh
            { s with pending := rest, inCall := false, afterCall := true } hf rfl
          rw [hr]
          simp
    · cases hs : splitOnce callStart s.pending with
      | some parts =>
        obtain ⟨text, rest⟩ := parts
        have hw := @scanPending_start env tools { s with pending := s.pending ++ more }
          _ _ hin (splitOnce_append hs more)
        rw [scanPending_start hin hs, hw]
        have hsh : rest.length < n := by
          have : 0 < callStart.length := by decide
          rw [← hn, splitOnce_eq_some hs]
          simp only [length_append]
          omega
        have hr := ih rest.length hsh
          { s with pending := rest, inCall := true,
                   afterCall := (sayText s.afterCall (trimEnd text)).1 } hf rfl
        simp only at hr ⊢
        rw [hr]
        simp
      | none =>
        have hre := @scan_of_running env tools { s with
            pending := heldText s.pending,
            afterCall := (sayText s.afterCall (readyText s.pending)).1 } hf more
        rw [scanPending_ready hin hs, scanPending_text hin hs]
        simp only [hre]

variable (env tools) in
theorem scan_append (s : Scan) (first more : Text) : scan env tools s (first ++ more)
      = let before := scan env tools s first
        let after := scan env tools before.1 more
        (after.1, before.2 ++ after.2) := by
  cases hf : s.failure with
  | some =>
    have h : s.failure.isSome := by simp [hf]
    simp [scan_of_failure h]
  | none =>
    have hs : scanPending env tools { s with pending := s.pending ++ first ++ more } = _ :=
      scanPending_append { s with pending := s.pending ++ first } hf more
    simpa [scan, hf] using hs

end Append

/-! ### The streaming parser refines it -/

def atoms : Event L → List Atom
  | .content text => text.map .content
  | .reasoning text => text.map .reasoning
  | .toolCall call => [.call call.name call.arguments]
  | .toolCallDelta _ => []
  | .logprobs _ => []

/-- A consumer that never refuses: within `Ok`, what it has heard grows by the
atoms of each event. -/
structure Hears (callback : Callback L K) (Ok : K → Prop) (said : K → List Atom) : Prop where
  goes : ∀ k event offset, Ok k → (callback k event offset).2 = true
  ok : ∀ k event offset, Ok k → Ok (callback k event offset).1
  said : ∀ k event offset, Ok k → said (callback k event offset).1 = said k ++ atoms event

/-- The part of the parser's state that `scan` keeps. -/
def ToolCallParser.view (p : ToolCallParser) : Scan :=
  { pending := if p.failure.isSome then [] else p.pending, inCall := p.inCall,
    afterCall := p.afterCall, failure := p.failure }

theorem ToolCallParser.view_of_running {p : ToolCallParser} (h : p.failure = none) :
    p.view = ⟨p.pending, p.inCall, p.afterCall, none⟩ := by
  simp [view, h]

section Refinement

variable {env : Env} {tools : ToolSet} {callback : Callback L K} {Ok : K → Prop}
  {said : K → List Atom}

/-- The streaming parser reached `out` from a consumer `k`, as the scan `want`
says: it goes on unless the scan failed. -/
structure Follows (Ok : K → Prop) (said : K → List Atom) (k : K)
    (out : ToolCallParser × K × Bool) (want : Scan × List Atom) : Prop where
  view : out.1.view = want.1
  ok : Ok out.2.1
  said : said out.2.1 = said k ++ want.2
  goes : out.2.2 = want.1.failure.isNone

variable {k : K}

theorem Follows.after {k' : K} {out : ToolCallParser × K × Bool} {want : Scan × List Atom}
    (h : Follows Ok said k' out want) {front : List Atom} (hf : said k' = said k ++ front) :
    Follows Ok said k out (want.1, front ++ want.2) :=
  ⟨h.view, h.ok, by rw [h.said, hf, append_assoc], h.goes⟩

theorem sendPieces_said (he : Hears callback Ok said) (last consumed : Nat) :
    ∀ (todo : List (Piece × Nat)) (streamed : Streamed) (k : K), Ok k →
      Ok (sendPieces callback last consumed todo streamed k).2.1 ∧
        said (sendPieces callback last consumed todo streamed k).2.1 = said k ∧
        (sendPieces callback last consumed todo streamed k).2.2 = true
  | [], _, _, hok => ⟨hok, rfl, rfl⟩
  | (piece, index) :: rest, streamed, k, hok => by
    rw [sendPieces]
    split
    · exact sendPieces_said he last consumed rest _ k hok
    · have hgo := fun event => he.goes k event consumed hok
      have hs := fun event => he.said k event consumed hok
      simp only [hgo, if_true]
      obtain ⟨hok', hsa, hgo'⟩ := sendPieces_said he last consumed rest _ _ (he.ok k _ consumed hok)
      refine ⟨hok', ?_, hgo'⟩
      rw [hsa, hs]
      simp [atoms]

theorem stream_said (he : Hears callback Ok said) {p : ToolCallParser} (hf : p.failure = none)
    (hok : Ok k) : Follows Ok said k (stream env tools callback p k) (p.view, []) := by
  have hg : true = p.view.failure.isNone := by simp [ToolCallParser.view, hf]
  unfold stream
  split
  · exact ⟨rfl, hok, by simp, hg⟩
  · obtain ⟨hok', hs, hgo⟩ := sendPieces_said he _ p.consumed _ _ k hok
    exact ⟨rfl, hok', by rw [hs, append_nil], hgo.trans hg⟩

theorem emitText_said (he : Hears callback Ok said) (text : Text) (offset : Nat)
    (p : ToolCallParser) (hok : Ok k) :
    (emitText callback text offset p k).1 = { p with afterCall := (sayText p.afterCall text).1 } ∧
      Ok (emitText callback text offset p k).2.1 ∧
      said (emitText callback text offset p k).2.1 = said k ++ (sayText p.afterCall text).2 ∧
      (emitText callback text offset p k).2.2 = true := by
  unfold emitText sayText
  generalize (if p.afterCall = true then trimStart text else text) = trimmed
  cases trimmed with
  | nil => simp [hok]
  | cons =>
    simp only [isEmpty_cons, Bool.false_eq_true, if_false, Bool.and_false, true_and]
    exact ⟨he.ok _ _ _ hok, he.said _ _ _ hok, he.goes _ _ _ hok⟩

theorem feedLoop_scan (he : Hears callback Ok said) :
    ∀ (fuel : Nat) (p : ToolCallParser) (k : K), p.pending.length < fuel → p.failure = none →
      Ok k →
      Follows Ok said k (feedLoop env tools callback fuel p k)
        (scanPending env tools ⟨p.pending, p.inCall, p.afterCall, none⟩) := by
  intro fuel
  induction fuel with
  | zero => intro p k hlt; omega
  | succ fuel ih =>
    intro p k hlt hf hok
    have hv := ToolCallParser.view_of_running hf
    have hc : p.inCall = true ∨ p.inCall = false := by cases p.inCall <;> simp
    rw [feedLoop]
    rcases hc with hin | hin
    · rw [if_pos hin]
      cases hend : callEnd p.pending tools with
      | none =>
        rw [scanPending_open (by exact hin) hend, ← hv]
        exact stream_said he hf hok
      | some parts =>
        obtain ⟨block, rest, marker, strict⟩ := parts
        obtain ⟨hp, hm⟩ := callEnd_eq_some hend
        rw [scanPending_call (by exact hin) hend]
        dsimp only
        cases parseBlock env tools block strict with
        | error => exact ⟨by simp [ToolCallParser.view], hok, by simp, rfl⟩
        | ok call =>
          have hl : rest.length < fuel := by
            have := length_pos_iff.mpr hm
            rw [hp] at hlt
            simp only [length_append] at hlt
            omega
          dsimp only
          rw [if_pos (he.goes _ _ _ hok)]
          have hrec := ih { p with
              pending := rest, consumed := p.consumed + utf8Len (block ++ marker),
              inCall := false, afterCall := true, streamed := none,
              nextCallId := p.nextCallId + 1 } _ hl hf (he.ok k
                (.toolCall ⟨(p.streamed.map Streamed.id).getD p.nextCallId, call.1,
                  .object call.2⟩) (p.consumed + utf8Len (block ++ marker)) hok)
          exact hrec.after (he.said _ _ _ hok)
    · rw [if_neg (by simp [hin])]
      cases hs : splitOnce callStart p.pending with
      | some parts =>
        obtain ⟨text, rest⟩ := parts
        rw [scanPending_start (by exact hin) hs]
        dsimp only
        have hl : rest.length < fuel := by
          have : 0 < callStart.length := by decide
          rw [splitOnce_eq_some hs] at hlt
          simp only [length_append] at hlt
          omega
        obtain ⟨hem, hok₁, hsa₁, hgo₁⟩ := emitText_said he (trimEnd text) p.consumed { p with
            pending := rest, consumed := p.consumed + utf8Len (text ++ callStart),
            inCall := true } hok
        rw [if_pos hgo₁, hem]
        have hrec := ih { p with
            pending := rest, consumed := p.consumed + utf8Len (text ++ callStart),
            inCall := true, afterCall := (sayText p.afterCall (trimEnd text)).1 }
          _ hl hf hok₁
        exact hrec.after hsa₁
      | none =>
        rw [scanPending_text (by exact hin) hs, length_sub_heldSuffix]
        dsimp only
        split
        · next hz =>
          have hr : readyText p.pending = [] := length_eq_zero_iff.mp hz
          have hh : heldText p.pending = p.pending := by simp [heldText, hr]
          rw [hr, hh, sayText_nil]
          exact ⟨hv, hok, (append_nil _).symm, by simp⟩
        · have ht : p.pending.take (readyText p.pending).length = readyText p.pending :=
            (prefix_iff_eq_take.mp (readyText_isPrefix p.pending)).symm
          obtain ⟨hem, hok₁, hsa₁, hgo₁⟩ := emitText_said he (readyText p.pending)
            p.consumed
            { p with
              pending := p.pending.drop (readyText p.pending).length,
              consumed := p.consumed + utf8Len (readyText p.pending) } hok
          rw [ht]
          refine ⟨?_, hok₁, hsa₁, by rw [hgo₁]; simp⟩
          rw [hem, ToolCallParser.view_of_running (by exact hf)]
          rfl

variable (env tools) in
theorem feed_scan (he : Hears callback Ok said) (text : Text) (p : ToolCallParser) (hok : Ok k) :
    Follows Ok said k (feed env tools callback text p k) (scan env tools p.view text) := by
  unfold feed
  rcases Option.eq_none_or_eq_some p.failure with hf | ⟨failure, hf⟩
  · rw [ToolCallParser.view_of_running hf, scan_of_running rfl, if_neg (by simp [hf])]
    exact feedLoop_scan he _ { p with pending := p.pending ++ text } k (Nat.lt_succ_self _) hf hok
  · have h : p.view.failure.isSome := by simp [ToolCallParser.view, hf]
    rw [scan_of_failure h, if_pos (by simp [hf])]
    exact ⟨rfl, hok, by simp, by simp [ToolCallParser.view, hf]⟩

/-- What the end of the answer says, and the failure it leaves. -/
def scanEnd (reason : StopReason) (s : Scan) : Option Text × List Atom :=
  if s.failure.isSome then
    (s.failure, [])
  else if s.inCall then
    (if reason = .eos then some unfinishedCall else none, [])
  else
    (none, (sayText s.afterCall s.pending).2)

theorem finish_scan (hears : Hears callback Ok said) (reason : StopReason) (p : ToolCallParser)
    (hok : Ok k) : (finish callback reason p k).1.failure = (scanEnd reason p.view).1 ∧
      Ok (finish callback reason p k).2.1 ∧
      said (finish callback reason p k).2.1 = said k ++ (scanEnd reason p.view).2 := by
  unfold finish
  rcases Option.eq_none_or_eq_some p.failure with hf | ⟨failure, hf⟩
  · rw [ToolCallParser.view_of_running hf, if_neg (by simp [hf])]
    have hc : p.inCall = true ∨ p.inCall = false := by cases p.inCall <;> simp
    rcases hc with hin | hin
    · cases reason <;> simp [scanEnd, hin, hok, hf]
    · obtain ⟨he, hok₁, hs₁, _⟩ := emitText_said hears p.pending p.consumed
        { p with pending := [], consumed := p.consumed + utf8Len p.pending } hok
      rw [if_neg (by simp [hin])]
      refine ⟨by rw [he]; simpa [scanEnd, hin] using hf, hok₁, ?_⟩
      simpa [scanEnd, hin] using hs₁
  · simp [scanEnd, ToolCallParser.view, hf, hok]

end Refinement

end LocalAi.Tools
