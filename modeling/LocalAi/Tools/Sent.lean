import LocalAi.Tools.Pieces

/-!
# What the deltas of an open call have said

`stream` sends each certain piece once, by counting the bytes it has sent.

* `Sent`: the deltas so far spell these pieces, and the counters say so.
* `sendPieces_grows`: sending the pieces of a longer text keeps it.
-/

open List

namespace LocalAi.Tools

open LocalAi.Lib LocalAi.Answer

variable {L : Type}

def record : Callback L (List (Event L)) := fun log event _ => (log ++ [event], true)

@[simp] theorem record_apply (log : List (Event L)) (event : Event L) (offset : Nat) :
    record log event offset = (log ++ [event], true) := rfl

theorem getFrom_append (front rest : Text) : getFrom (utf8Len front) (front ++ rest) = some rest := by
  induction front with
  | nil =>
    cases rest <;> rfl
  | cons c front ih =>
    have hp := c.utf8Size_pos
    obtain ⟨n, hn⟩ : ∃ n, utf8Len (c :: front) = n + 1 := ⟨c.utf8Size + utf8Len front - 1, by
      rw [utf8Len_cons]
      omega⟩
    rw [hn, cons_append, getFrom]
    rw [utf8Len_cons] at hn
    rw [if_pos (by omega), ← hn, Nat.add_sub_cancel_left]
    exact ih

/-- The text that `entry` adds to parameter `key`. -/
def textFor (key : Text) : Option (Text × Text) → Text
  | some (key', text) => if key' = key then text else []
  | none => []

def Piece.textLen (piece : Piece) : Nat := (piece.text.map fun entry => utf8Len entry.2).getD 0

structure Sent (streamed : Streamed) (deltas : List ToolCallDelta) (front : List Piece)
    (last : Piece) : Prop where
  arguments : deltas.flatMap ToolCallDelta.arguments = (front ++ [last]).flatMap Piece.json
  text : ∀ key, deltas.flatMap (fun delta => textFor key delta.text)
    = (front ++ [last]).flatMap fun piece => textFor key piece.text
  keys : ∀ delta ∈ deltas, ∀ key text, delta.text = some (key, text) →
    ∃ piece ∈ front ++ [last], ∃ text', piece.text = some (key, text')
  piece : streamed.piece = front.length
  json : streamed.json = utf8Len last.json
  textLen : streamed.text = last.textLen

theorem Sent.start (id : CallId) (name : Text) : Sent ⟨id, name, 0, 0, 0⟩ [] [] ⟨[], none⟩ :=
  ⟨rfl, fun _ => rfl, fun _ h => absurd h not_mem_nil, rfl, rfl, rfl⟩

def deltaFor (streamed : Streamed) (piece : Piece) : ToolCallDelta :=
  { id := streamed.id, name := streamed.name,
    arguments := (getFrom streamed.json piece.json).getD [],
    text := piece.text.map fun (key, text) => (key, (getFrom streamed.text text).getD []) }

/-- The deltas that complete `last` to `piece`: none when nothing is new. -/
def deltasFor (streamed : Streamed) (piece : Piece) : List ToolCallDelta :=
  if (deltaFor streamed piece).arguments.isEmpty then [] else [deltaFor streamed piece]

variable {streamed : Streamed} {deltas : List ToolCallDelta} {front : List Piece}
  {last piece : Piece}

theorem Sent.delta_arguments (h : Sent streamed deltas front last) (hle : last.Le piece) :
    last.json ++ (deltaFor streamed piece).arguments = piece.json := by
  obtain ⟨more, hm⟩ := hle.json
  show last.json ++ (getFrom streamed.json piece.json).getD [] = piece.json
  rw [h.json, ← hm, getFrom_append]
  rfl

theorem Sent.delta_text (h : Sent streamed deltas front last) (hle : last.Le piece) (key : Text) :
    textFor key last.text ++ textFor key (deltaFor streamed piece).text
      = textFor key piece.text := by
  show _ ++ textFor key (piece.text.map fun entry =>
    (entry.1, (getFrom streamed.text entry.2).getD [])) = _
  cases hl : last.text with
  | none =>
    have hz : streamed.text = 0 := by rw [h.textLen, Piece.textLen, hl]; rfl
    cases hp : piece.text with
    | none => rfl
    | some =>
      rw [hz]
      have : ∀ text : Text, getFrom 0 text = some text := fun text => by cases text <;> rfl
      simp [textFor, this]
  | some entry =>
    obtain ⟨key', text⟩ := entry
    obtain ⟨more, hm⟩ := hle.text key' text hl
    have hlen : streamed.text = utf8Len text := by rw [h.textLen, Piece.textLen, hl]; rfl
    rw [hm, hlen, Option.map_some, getFrom_append]
    by_cases hk : key' = key
    · simp [textFor, hk]
    · simp [textFor, hk]

/-- The deltas after `last` has become `piece`. -/
structure Sent.Completed (deltas : List ToolCallDelta) (front : List Piece) (piece : Piece) :
    Prop where
  arguments : deltas.flatMap ToolCallDelta.arguments = (front ++ [piece]).flatMap Piece.json
  text : ∀ key, deltas.flatMap (fun delta => textFor key delta.text)
    = (front ++ [piece]).flatMap fun piece => textFor key piece.text
  keys : ∀ delta ∈ deltas, ∀ key text, delta.text = some (key, text) →
    ∃ other ∈ front ++ [piece], ∃ text', other.text = some (key, text')

theorem Sent.complete (h : Sent streamed deltas front last) (hle : last.Le piece) :
    Sent.Completed (deltas ++ deltasFor streamed piece) front piece := by
  have hj := h.delta_arguments hle
  have ht := h.delta_text hle
  -- a text that did not move in the JSON did not move at all
  have hk : ∀ key text, last.text = some (key, text) → ∃ text', piece.text = some (key, text') := by
    intro key text hl
    obtain ⟨more, hmo⟩ := hle.text key text hl
    exact ⟨_, hmo⟩
  have hold : ∀ delta ∈ deltas, ∀ key text, delta.text = some (key, text) →
      ∃ other ∈ front ++ [piece], ∃ text', other.text = some (key, text') := by
    intro delta hd key text heq
    obtain ⟨other, ho, text', ho'⟩ := h.keys delta hd key text heq
    rcases mem_append.mp ho with hm | hm
    · exact ⟨other, mem_append_left _ hm, text', ho'⟩
    · rw [mem_singleton.mp hm] at ho'
      obtain ⟨text'', hp⟩ := hk key text' ho'
      exact ⟨piece, by simp, text'', hp⟩
  unfold deltasFor
  split
  · next hemp =>
    have hn : (deltaFor streamed piece).arguments = [] := isEmpty_iff.mp hemp
    have hs : last.json = piece.json := by rw [← hj, hn, append_nil]
    have hs' := hle.same hs
    rw [append_nil]
    refine ⟨?_, ?_, hold⟩
    · rw [h.arguments]
      simp [hs]
    · intro key
      rw [h.text key]
      simp [hs']
  · refine ⟨?_, ?_, ?_⟩
    · rw [flatMap_append, h.arguments]
      simp [← hj]
    · intro key
      rw [flatMap_append, h.text key]
      simp [← ht key]
    · intro delta hd key text heq
      rcases mem_append.mp hd with hm | hm
      · exact hold delta hm key text heq
      · rw [mem_singleton.mp hm] at heq
        obtain ⟨⟨key', text'⟩, hp, hent⟩ := Option.map_eq_some_iff.mp heq
        cases hent
        exact ⟨piece, by simp, text', hp⟩

theorem sendPieces_cons (last consumed : Nat) (piece : Piece) (index : Nat)
    (rest : List (Piece × Nat)) (streamed : Streamed) (log : List (Event L)) :
    sendPieces record last consumed ((piece, index) :: rest) streamed log
      = sendPieces record last consumed rest
          (if index < last then { streamed with piece := index + 1, json := 0, text := 0 }
            else { streamed with json := utf8Len piece.json, text := piece.textLen })
          (log ++ (deltasFor streamed piece).map .toolCallDelta) := by
  rw [sendPieces]
  unfold deltasFor
  split
  · next he =>
    have he' : (deltaFor streamed piece).arguments.isEmpty = true := he
    rw [if_pos he']
    simp [Piece.textLen]
  · next he =>
    have he' : ¬ (deltaFor streamed piece).arguments.isEmpty = true := he
    rw [if_neg he']
    simp [Piece.textLen, deltaFor]

theorem deltasFor_id {delta : ToolCallDelta} (h : delta ∈ deltasFor streamed piece) :
    delta.id = streamed.id ∧ delta.name = streamed.name := by
  unfold deltasFor at h
  split at h
  · cases h
  · rw [mem_singleton.mp h]
    exact ⟨rfl, rfl⟩

theorem sendPieces_sent (consumed : Nat) :
    ∀ (more : List Piece) {streamed : Streamed} {deltas : List ToolCallDelta}
      {front : List Piece} {last piece : Piece} (log : List (Event L)),
      Sent streamed deltas front last → last.Le piece → (∀ other ∈ more, other.json ≠ []) →
      ∃ (streamed' : Streamed) (new : List ToolCallDelta) (front' : List Piece) (last' : Piece),
        sendPieces record (front.length + more.length) consumed
            ((piece :: more).zipIdx front.length) streamed log
          = (streamed', log ++ new.map .toolCallDelta, true) ∧
        Sent streamed' (deltas ++ new) front' last' ∧
        front' ++ [last'] = front ++ piece :: more ∧
        streamed'.id = streamed.id ∧ streamed'.name = streamed.name ∧
        ∀ delta ∈ new, delta.id = streamed.id ∧ delta.name = streamed.name := by
  intro more
  induction more with
  | nil =>
    intro streamed deltas front last piece log h hle _
    have hdo := h.complete hle
    rw [zipIdx_cons, zipIdx_nil, sendPieces_cons, sendPieces, if_neg (by simp)]
    refine ⟨_, deltasFor streamed piece, front, piece, rfl, ?_, rfl, rfl, rfl,
      fun delta hd => deltasFor_id hd⟩
    exact ⟨hdo.arguments, hdo.text, hdo.keys, h.piece, rfl, rfl⟩
  | cons next more ih =>
    intro streamed deltas front last piece log h hle hj
    have hdo := h.complete hle
    rw [zipIdx_cons, sendPieces_cons, if_pos (by simp)]
    -- the next piece starts from nothing
    have hn : Sent { streamed with piece := front.length + 1, json := 0, text := 0 }
        (deltas ++ deltasFor streamed piece) (front ++ [piece]) ⟨[], none⟩ := by
      refine ⟨?_, ?_, ?_, by simp, rfl, rfl⟩
      · rw [hdo.arguments]
        simp
      · intro key
        rw [hdo.text key]
        simp [textFor]
      · intro delta hd key text heq
        obtain ⟨other, ho, text', ho'⟩ := hdo.keys delta hd key text heq
        exact ⟨other, mem_append_left _ ho, text', ho'⟩
    have hle' : (⟨[], none⟩ : Piece).Le next := by
      have := Piece.Le.opening [] next.json next.text fun hnil =>
        absurd hnil (hj next mem_cons_self)
      simpa using this
    obtain ⟨streamed', new, front', last', hs, hse, hp, hid, hna, hnew⟩ :=
      ih (log ++ (deltasFor streamed piece).map .toolCallDelta) hn hle'
        fun other ho => hj other (mem_cons_of_mem _ ho)
    refine ⟨streamed', deltasFor streamed piece ++ new, front', last', ?_, ?_, ?_, hid, hna, ?_⟩
    · have hlen : front.length + (next :: more).length = (front ++ [piece]).length + more.length := by
        simp
        omega
      have hi : front.length + 1 = (front ++ [piece]).length := by simp
      rw [hi] at hs
      rw [hlen, hi, hs]
      simp
    · rw [← append_assoc]
      exact hse
    · rw [hp]
      simp
    · intro delta hd
      rcases mem_append.mp hd with hm | hm
      · exact deltasFor_id hm
      · exact hnew delta hm

theorem drop_zipIdx_append (front rest : List Piece) :
    (front ++ rest).zipIdx.drop front.length = rest.zipIdx front.length := by
  have hl : front.length = (front.zipIdx 0).length := by simp
  rw [zipIdx_append, Nat.zero_add]
  conv_lhs => rw [hl]
  rw [drop_left, ← hl]

/-- A run of the sending loop: it says new deltas of the same call, and all
deltas together spell a beginning of `all`. -/
def Sends (streamed : Streamed) (deltas : List ToolCallDelta) (all : List Piece)
    (log : List (Event L)) (run : Streamed × List (Event L) × Bool) : Prop :=
  ∃ streamed' new front last,
    run = (streamed', log ++ new.map .toolCallDelta, true) ∧
    Sent streamed' (deltas ++ new) front last ∧ Grows (front ++ [last]) all ∧
    streamed'.id = streamed.id ∧ streamed'.name = streamed.name ∧
    ∀ delta ∈ new, delta.id = streamed.id ∧ delta.name = streamed.name

theorem sendPieces_grows {all sent : List Piece} (consumed : Nat) (log : List (Event L))
    (h : Sent streamed deltas front last) (hg : Grows (front ++ [last]) all)
    (hs : all = sent ∨ ∃ q, all = sent ++ [q]) (hj : ∀ other ∈ sent, other.json ≠ []) :
    Sends streamed deltas all log (sendPieces record (sent.length - 1) consumed
      (sent.zipIdx.drop streamed.piece) streamed log) := by
  obtain ⟨front₁, q₁, piece, more, hq, ha, hle⟩ := hg.cases
  obtain ⟨rfl, hl⟩ := append_inj' hq rfl
  cases hl
  -- what a list `front ++ piece :: rest` of pieces sends
  have hse : ∀ rest, sent = front ++ piece :: rest → front ++ piece :: rest <+: all →
      Sends streamed deltas all log (sendPieces record (sent.length - 1) consumed
        (sent.zipIdx.drop streamed.piece) streamed log) := by
    intro rest hr hpre
    obtain ⟨streamed', new, front', last', hrun, hs', hp, hid, hn, hnew⟩ :=
      sendPieces_sent consumed rest log h hle fun other ho =>
        hj other (by rw [hr]; simp [ho])
    refine ⟨streamed', new, front', last', ?_, hs', ?_, hid, hn, hnew⟩
    · have hlen : sent.length - 1 = front.length + rest.length := by
        rw [hr]
        simp
      rw [hlen, h.piece, hr, drop_zipIdx_append]
      exact hrun
    · refine .of_isPrefix (by simp) ?_
      rw [hp]
      exact hpre
  rcases hs with rfl | ⟨q, hq⟩
  · exact hse more ha (by rw [ha])
  · rcases eq_nil_or_concat' more with rfl | ⟨rest, q', rfl⟩
    · -- the opening of the refused value was already sent
      have hf : sent = front := by
        rw [ha] at hq
        exact (append_inj' hq rfl).1.symm
      refine ⟨streamed, [], front, last, ?_, by simpa using h, hg, rfl, rfl, by simp⟩
      have hd : sent.zipIdx.drop streamed.piece = [] := by
        rw [h.piece, hf]
        exact drop_of_length_le (by simp)
      rw [hd, sendPieces]
      simp
    · have hf : sent = front ++ piece :: rest := by
        rw [ha, ← cons_append, ← append_assoc] at hq
        exact (append_inj' hq rfl).1.symm
      refine hse rest hf ?_
      rw [ha, ← cons_append, ← append_assoc]
      exact prefix_append _ _

end LocalAi.Tools
