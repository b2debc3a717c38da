import LocalAi.FileSearch.Citations

/-!
# An answer read character by character

`Scan` reads an answer one character at a time, with the body of the bracket that is open; at the
end of a piece it gives up brackets that are open too long.  The code's pieces and its held text
show a scan.

* `filterLoop_shows`: one call of `filter` reads its piece and gives up.
* `streamed_eq`: a whole answer is the scan of its pieces.
-/

open List

namespace LocalAi.FileSearch

open Lib (splitOnce splitOnce_singleton_eq_some splitOnce_singleton_eq_none)

/-! ### Trailing whitespace -/

theorem trimEnd_append (a b : Text) :
    trimEnd (a ++ b) = if trimEnd b = [] then trimEnd a else a ++ trimEnd b := by
  unfold trimEnd
  induction b using reverseRecOn with
  | nil => simp
  | append_singleton b c ih =>
    rw [← append_assoc]
    by_cases hc : isWhitespace c
    · rw [rdropWhile_concat_pos _ _ _ hc, rdropWhile_concat_pos _ _ _ hc, ih]
    · rw [rdropWhile_concat_neg _ _ _ hc, rdropWhile_concat_neg _ _ _ hc,
        if_neg (by simp), append_assoc]

theorem trimEnd_trimEnd (text : Text) : trimEnd (trimEnd text) = trimEnd text :=
  rdropWhile_idempotent _ _

theorem trailing_eq (text : Text) : trailing text = text.rtakeWhile isWhitespace := by
  have hp : text.rdropWhile isWhitespace ++ text.rtakeWhile isWhitespace = text :=
    rdropWhile_append_rtakeWhile
  have hd : ((text.rdropWhile isWhitespace ++ text.rtakeWhile isWhitespace).drop
      (text.rdropWhile isWhitespace).length) = text.rtakeWhile isWhitespace := drop_left
  rw [hp] at hd
  exact hd

theorem trimEnd_trailing (text : Text) : trimEnd text ++ trailing text = text := by
  rw [trailing_eq]
  exact rdropWhile_append_rtakeWhile

variable {text held : Text}

theorem isWhitespace_trailing {c : Char} (h : c ∈ trailing text) :
    isWhitespace c = true := by
  rw [trailing_eq] at h
  exact mem_rtakeWhile_imp h

theorem opening_notMem_space {space : Text} (h : ∀ c ∈ space, isWhitespace c = true) :
    opening ∉ space := fun hm => absurd (h _ hm) (by decide)

theorem trimEnd_append_trimEnd {a b : Text} (ha : trimEnd a = a) :
    trimEnd (a ++ trimEnd b) = a ++ trimEnd b := by
  rw [trimEnd_append, trimEnd_trimEnd]
  by_cases hb : trimEnd b = []
  · rw [if_pos hb, hb, append_nil, ha]
  · rw [if_neg hb]

theorem trimEnd_append_of_trimmed {a : Text} (b : Text) (ha : trimEnd a = a) :
    trimEnd (a ++ b) = a ++ trimEnd b := by
  rw [trimEnd_append]
  by_cases hb : trimEnd b = []
  · rw [if_pos hb, hb, append_nil, ha]
  · rw [if_neg hb]

/-! ### Messages -/

/-- Citations added at a position, each file once. -/
def addNotes (notes : List Annotation) (index : Nat) (cited : List Source) : List Annotation :=
  cited.foldl (fun notes source =>
    if ⟨source.fileId, source.filename, index⟩ ∈ notes then notes
    else notes ++ [⟨source.fileId, source.filename, index⟩]) notes

theorem cite_eq (message : Message) (cited : List Source) : message.cite cited =
      { message with annotations := addNotes message.annotations message.chars cited } := by
  unfold Message.cite addNotes
  induction cited generalizing message with
  | nil => rfl
  | cons source cited ih =>
    rw [foldl_cons, foldl_cons]
    by_cases hm : (⟨source.fileId, source.filename, message.chars⟩ : Annotation)
        ∈ message.annotations
    · simp only [hm, if_true]
      exact ih message
    · simp only [hm, if_false]
      exact ih { message with
        annotations := message.annotations ++ [⟨source.fileId, source.filename, message.chars⟩] }

theorem append_eq (message : Message) (piece : Text) : message.append piece =
      ⟨message.text ++ piece, message.chars + piece.length, message.annotations⟩ := by
  unfold Message.append
  cases piece with
  | nil => simp
  | cons => rfl

theorem foldl_emit (message : Message) (text : Text) :
    (emit text).foldl Message.take message = message.append text := by
  cases text with
  | nil => rfl
  | cons => rfl

/-! ### Reading characters -/

/-- An answer read so far: its text, what was cited, and the body of the open bracket. -/
structure Scan where
  text : Text
  annotations : List Annotation
  opened : Option Text

/-- All the text, with the open bracket. -/
def Scan.shown (s : Scan) : Text := s.text ++ s.opened.elim [] (List.cons opening)

variable (cited : Text → Option (List Source))

def Scan.close (s : Scan) : Scan :=
  match s.opened.bind cited with
  | some found => ⟨trimEnd s.text, addNotes s.annotations (trimEnd s.text).length found, none⟩
  | none => ⟨s.shown ++ [closing], s.annotations, none⟩

def Scan.char (s : Scan) (c : Char) : Scan :=
  if c = closing then s.close cited
  else
    match s.opened with
    | some body => { s with opened := some (body ++ [c]) }
    | none => if c = opening then { s with opened := some [] } else { s with text := s.text ++ [c] }

def Scan.read (s : Scan) (text : Text) : Scan := text.foldl (Scan.char cited) s

/-- The brackets that are open for more than `maxMarkerBytes` are text. -/
def giveUp (text body : Text) : Text × Option Text :=
  if utf8Len body ≤ maxMarkerBytes then (text, some body)
  else
    match _hopen : splitOnce [opening] body with
    | none => (text ++ opening :: body, none)
    | some (before, inner) => giveUp (text ++ opening :: before) inner
termination_by body.length
decreasing_by exact length_after_lt _hopen

def Scan.settle (s : Scan) : Scan :=
  match s.opened with
  | none => s
  | some body => ⟨(giveUp s.text body).1, s.annotations, (giveUp s.text body).2⟩

def Scan.piece (s : Scan) (text : Text) : Scan := (s.read cited text).settle

def Scan.start : Scan := ⟨[], [], none⟩

variable {cited}

theorem read_append (s : Scan) (a b : Text) :
    s.read cited (a ++ b) = (s.read cited a).read cited b := foldl_append

variable (front : Text)

variable (notes : List Annotation)

theorem read_plain (ht : opening ∉ text) :
    Scan.read cited ⟨front, notes, none⟩ text = ⟨front ++ text, notes, none⟩ := by
  induction text generalizing front with
  | nil => simp [Scan.read]
  | cons c text ih =>
    have hc : c ≠ opening := fun h => ht (h ▸ mem_cons_self)
    have hch : Scan.char cited ⟨front, notes, none⟩ c = ⟨front ++ [c], notes, none⟩ := by
      by_cases hcl : c = closing
      · simp [Scan.char, Scan.close, Scan.shown, hcl]
      · simp [Scan.char, hcl, hc]
    show Scan.read cited (Scan.char cited ⟨front, notes, none⟩ c) text = _
    rw [hch, ih _ fun hm => ht (mem_cons_of_mem _ hm)]
    simp

theorem read_body (body : Text) (ht : closing ∉ text) :
    Scan.read cited ⟨front, notes, some body⟩ text = ⟨front, notes, some (body ++ text)⟩ := by
  induction text generalizing body with
  | nil => simp [Scan.read]
  | cons c text ih =>
    have hc : c ≠ closing := fun h => ht (h ▸ mem_cons_self)
    have hch : Scan.char cited ⟨front, notes, some body⟩ c = ⟨front, notes, some (body ++ [c])⟩ := by
      simp [Scan.char, hc]
    show Scan.read cited (Scan.char cited ⟨front, notes, some body⟩ c) text = _
    rw [hch, ih _ fun hm => ht (mem_cons_of_mem _ hm)]
    simp

theorem read_opening :
    Scan.read cited ⟨front, notes, none⟩ [opening] = ⟨front, notes, some []⟩ := by
  have hne : opening ≠ closing := by decide
  simp [Scan.read, Scan.char, hne]

theorem read_closing (s : Scan) : s.read cited [closing] = s.close cited := by
  simp [Scan.read, Scan.char]

theorem read_bracket {before body : Text} (hbef : opening ∉ before) (hb : closing ∉ body) :
    Scan.read cited ⟨front, notes, none⟩ (before ++ opening :: body) =
      ⟨front ++ before, notes, some body⟩ := by
  rw [show before ++ opening :: body = before ++ [opening] ++ body by simp, read_append, read_append,
    read_plain _ _ hbef, read_opening, read_body _ _ _ hb]
  rfl

theorem giveUp_shown (text body : Text) :
    (giveUp text body).1 ++ (giveUp text body).2.elim [] (cons opening) =
      text ++ opening :: body := by
  fun_induction giveUp text body with
  | case1 text body hle => rfl
  | case2 text body hle ho => simp
  | case3 text body hle before inner ho ih =>
    rw [ih, (splitOnce_singleton_eq_some.mp ho).1]
    simp

theorem settle_shown (s : Scan) : s.settle.shown = s.shown := by
  unfold Scan.settle
  cases hs : s.opened with
  | none => rfl
  | some body =>
    show (giveUp s.text body).1 ++ _ = s.text ++ _
    rw [giveUp_shown, hs]
    rfl

theorem settle_annotations (s : Scan) : s.settle.annotations = s.annotations := by
  unfold Scan.settle
  cases s.opened <;> rfl

theorem settle_of_short {body : Text} (hs : utf8Len body ≤ maxMarkerBytes) :
    Scan.settle ⟨front, notes, some body⟩ = ⟨front, notes, some body⟩ := by
  have hk : giveUp front body = (front, some body) := by rw [giveUp, if_pos hs]
  simp [Scan.settle, hk]

theorem settle_of_long {body : Text} (hl : ¬ utf8Len body ≤ maxMarkerBytes) (hb : closing ∉ body) :
    Scan.settle ⟨front, notes, some body⟩ =
      (Scan.read cited ⟨front ++ [opening], notes, none⟩ body).settle := by
  simp only [Scan.settle]
  rw [giveUp, if_neg hl]
  split
  · next ho =>
    rw [read_plain _ _ (splitOnce_singleton_eq_none.mp ho)]
    simp
  · next before inner ho =>
    obtain ⟨heq, hbef⟩ := splitOnce_singleton_eq_some.mp ho
    have hi : closing ∉ inner := fun hm => hb (by rw [heq]; simp [hm])
    conv_rhs => rw [heq, read_bracket _ _ hbef hi]
    simp

/-! ### The code shows a scan -/

/-- The message so far and the held text: the whitespace that ends the text and the open bracket
are held. -/
structure Shows (message : Message) (held : Text) (s : Scan) : Prop where
  trimmed : trimEnd message.text = message.text
  chars : message.chars = message.text.length
  annotations : message.annotations = s.annotations
  held : ∃ space, (∀ c ∈ space, isWhitespace c = true) ∧ s.text = message.text ++ space ∧
    held = space ++ s.opened.elim [] (List.cons opening)
  body : ∀ body, s.opened = some body → closing ∉ body

theorem Shows.of_text {message : Message} (ht : trimEnd message.text = message.text)
    (hch : message.chars = message.text.length) (text : Text) (opened : Option Text)
    (hb : ∀ body, opened = some body → closing ∉ body) :
    Shows (message.append (trimEnd text)) (trailing text ++ opened.elim [] (cons opening))
      ⟨message.text ++ text, message.annotations, opened⟩ := by
  rw [append_eq]
  refine ⟨trimEnd_append_trimEnd ht, ?_, rfl, ⟨trailing text, ?_, ?_, rfl⟩, hb⟩
  · simp [hch]
  · exact fun c hc => isWhitespace_trailing hc
  · simp [trimEnd_trailing]

theorem filterLoop_shows (cited : Text → Option (List Source)) (rest text : Text)
    {message : Message} (ht : trimEnd message.text = message.text)
    (hch : message.chars = message.text.length) :
    Shows ((filterLoop cited rest text).1.foldl Message.take message) (filterLoop cited rest text).2
      (Scan.piece cited ⟨message.text ++ text, message.annotations, none⟩ rest) := by
  fun_induction filterLoop cited rest text generalizing message with
  | case1 rest text ho =>
    rw [foldl_emit, Scan.piece, read_plain _ _ (splitOnce_singleton_eq_none.mp ho)]
    have hs := Shows.of_text ht hch (text ++ rest) none nofun
    simpa [Scan.settle] using hs
  | case2 rest text before body ho inside after hc found hf pieces held hl ih =>
    obtain ⟨hr, hbef⟩ := splitOnce_singleton_eq_some.mp ho
    obtain ⟨hb, hi⟩ := splitOnce_singleton_eq_some.mp hc
    let noted : Message := (message.append (trimEnd (text ++ before))).cite found
    have hn : noted = ⟨message.text ++ trimEnd (text ++ before),
        message.chars + (trimEnd (text ++ before)).length, addNotes message.annotations
          (message.chars + (trimEnd (text ++ before)).length) found⟩ := by
      show (message.append (trimEnd (text ++ before))).cite found = _
      rw [cite_eq, append_eq]
    have hre : Scan.read cited ⟨message.text ++ text, message.annotations, none⟩ rest =
        Scan.read cited ⟨noted.text, noted.annotations, none⟩ after := by
      rw [hr, hb, show before ++ opening :: (inside ++ closing :: after) =
        before ++ opening :: inside ++ [closing] ++ after by simp, read_append, read_append,
        read_bracket _ _ hbef hi, read_closing, hn]
      simp only [Scan.close, Option.bind_some, hf, append_assoc,
        trimEnd_append_of_trimmed _ ht, length_append, hch]
    have hih := @ih noted (by rw [hn]; exact trimEnd_append_trimEnd ht) (by rw [hn]; simp [hch])
    rw [hl, append_nil] at hih
    rw [Scan.piece, hre, foldl_append, foldl_emit, foldl_cons]
    exact hih
  | case3 rest text before body ho inside after hc hno ih =>
    obtain ⟨hr, hbef⟩ := splitOnce_singleton_eq_some.mp ho
    obtain ⟨hb, hi⟩ := splitOnce_singleton_eq_some.mp hc
    have hre : Scan.read cited ⟨message.text ++ text, message.annotations, none⟩ rest =
        Scan.read cited ⟨message.text ++ (text ++ before ++ opening :: inside ++ [closing]),
          message.annotations, none⟩ after := by
      rw [hr, hb, show before ++ opening :: (inside ++ closing :: after) =
        before ++ opening :: inside ++ [closing] ++ after by simp, read_append, read_append,
        read_bracket _ _ hbef hi, read_closing]
      simp [Scan.close, hno, Scan.shown]
    rw [Scan.piece, hre]
    exact ih ht hch
  | case4 rest text before body ho hc hle =>
    obtain ⟨hr, hbef⟩ := splitOnce_singleton_eq_some.mp ho
    have hb := splitOnce_singleton_eq_none.mp hc
    have hs := Shows.of_text ht hch (text ++ before) (some body) (fun _ h => (by cases h; exact hb))
    rw [foldl_emit, Scan.piece, hr, read_bracket _ _ hbef hb, settle_of_short _ _ hle, append_assoc]
    exact hs
  | case5 rest text before body ho hc hle ih =>
    obtain ⟨hr, hbef⟩ := splitOnce_singleton_eq_some.mp ho
    have hb := splitOnce_singleton_eq_none.mp hc
    have hre : Scan.piece cited ⟨message.text ++ text, message.annotations, none⟩ rest =
        Scan.piece cited ⟨message.text ++ (text ++ before ++ [opening]), message.annotations, none⟩
          body := by
      rw [Scan.piece, hr, read_bracket _ _ hbef hb, @settle_of_long cited _ _ _ hle hb]
      simp [Scan.piece]
    rw [hre]
    exact ih ht hch

variable {s : Scan}

theorem Shows.piece {message : Message} (h : Shows message held s) (piece : Text) :
    Shows ((filterLoop cited (held ++ piece) []).1.foldl Message.take message)
      (filterLoop cited (held ++ piece) []).2 (s.piece cited piece) := by
  obtain ⟨space, hsp, ht, hh⟩ := h.held
  have ha : Scan.read cited ⟨message.text ++ [], message.annotations, none⟩ held = s := by
    rw [hh, append_nil]
    cases hs : s.opened with
    | none =>
      rw [Option.elim_none, append_nil, read_plain _ _ (opening_notMem_space hsp), ← ht,
        h.annotations, ← hs]
    | some body =>
      rw [Option.elim_some, read_bracket _ _ (opening_notMem_space hsp) (h.body body hs), ← ht,
        h.annotations, ← hs]
  have hsh := filterLoop_shows cited (held ++ piece) [] h.trimmed h.chars
  rw [Scan.piece, read_append, ha] at hsh
  exact hsh

def Scan.message (s : Scan) : Message := ⟨s.shown, s.shown.length, s.annotations⟩

theorem Shows.finish {message : Message} (h : Shows message held s) :
    message.append held = s.message := by
  obtain ⟨space, -, ht, hh⟩ := h.held
  rw [append_eq, Scan.message, Scan.shown, ht, hh, h.chars, h.annotations]
  simp

/-! ### Whole answers -/

theorem cited_nil (body : Text) : FileSearch.cited [] body = none := by
  have ht : ∀ token, citedToken [] token = none := by
    intro token
    unfold citedToken
    dsimp only
    split
    · rfl
    · cases parseUsize (token.takeWhile (· ≠ dagger)) with
      | none => rfl
      | some => rfl
  unfold FileSearch.cited
  cases (body.splitOnP fun c => c == ',' || c == ' ').filter fun token => !token.isEmpty with
  | nil => rfl
  | cons token tokens =>
    show ((token :: tokens).mapM (citedToken []) >>= fun found =>
      if found.isEmpty = true then none else some found) = none
    rw [mapM_cons, ht]
    rfl

theorem read_shown_of_none (hn : ∀ body, cited body = none) (s : Scan) (text : Text) :
    (s.read cited text).shown = s.shown ++ text ∧
      (s.read cited text).annotations = s.annotations := by
  induction text generalizing s with
  | nil => simp [Scan.read]
  | cons c text ih =>
    have hch : (s.char cited c).shown = s.shown ++ [c] ∧
        (s.char cited c).annotations = s.annotations := by
      unfold Scan.char
      by_cases hc : c = closing
      · have hb : s.opened.bind cited = none := by
          cases s.opened with
          | none => rfl
          | some body => exact hn body
        rw [if_pos hc, Scan.close, hb, hc]
        simp [Scan.shown]
      · rw [if_neg hc]
        cases hs : s.opened with
        | some => simp [Scan.shown, hs]
        | none =>
          by_cases ho : c = opening
          · simp [Scan.shown, hs, ho]
          · simp [Scan.shown, hs, ho]
    have hr := ih (s.char cited c)
    rw [hch.1, hch.2] at hr
    exact ⟨hr.1.trans (by simp), hr.2⟩

theorem pieces_shown_of_none (hn : ∀ body, cited body = none) (s : Scan) (pieces : List Text) :
    (pieces.foldl (Scan.piece cited) s).shown = s.shown ++ pieces.flatten ∧
      (pieces.foldl (Scan.piece cited) s).annotations = s.annotations := by
  induction pieces generalizing s with
  | nil => simp
  | cons piece pieces ih =>
    have hp := read_shown_of_none hn s piece
    have hr := ih (s.piece cited piece)
    rw [Scan.piece, settle_shown, settle_annotations, hp.1, hp.2] at hr
    rw [foldl_cons, Scan.piece, hr.1, hr.2]
    simp

theorem receive_inactive (message : Message) (pieces : List Text) :
    pieces.foldl receive (message, ⟨[], []⟩) =
      (⟨message.text ++ pieces.flatten, message.chars + pieces.flatten.length,
        message.annotations⟩, ⟨[], []⟩) := by
  induction pieces generalizing message with
  | nil => simp
  | cons piece pieces ih =>
    have hr : receive (message, ⟨[], []⟩) piece = (message.append piece, ⟨[], []⟩) := rfl
    rw [foldl_cons, hr, ih, append_eq]
    simp [Nat.add_assoc]

theorem receive_shows {sources : List (Nat × Source)} (hne : sources ≠ []) {message : Message}
    (h : Shows message held s) (pieces : List Text) :
    ∃ message' held', pieces.foldl receive (message, ⟨sources, held⟩) = (message', ⟨sources, held'⟩) ∧
      Shows message' held' (pieces.foldl (Scan.piece (FileSearch.cited sources)) s) := by
  induction pieces generalizing message held s with
  | nil => exact ⟨message, held, rfl, h⟩
  | cons piece pieces ih =>
    have ha : (⟨sources, held⟩ : Citations).active = true := by
      cases sources with
      | nil => exact absurd rfl hne
      | cons => rfl
    have hr : receive (message, ⟨sources, held⟩) piece =
        ((filterLoop (FileSearch.cited sources) (held ++ piece) []).1.foldl Message.take message,
          ⟨sources, (filterLoop (FileSearch.cited sources) (held ++ piece) []).2⟩) := by
      unfold receive Citations.filter
      rw [if_pos ha, if_neg (by simp [ha])]
      rfl
    rw [foldl_cons, hr]
    exact ih (h.piece piece)

theorem streamed_eq (sources : List (Nat × Source)) (pieces : List Text) : streamed sources pieces =
      (pieces.foldl (Scan.piece (FileSearch.cited sources)) Scan.start).message := by
  by_cases hne : sources = []
  · subst hne
    have hs := pieces_shown_of_none cited_nil Scan.start pieces
    rw [streamed, receive_inactive, Scan.message, hs.1, hs.2]
    simp [finish, Citations.flush, append_eq, Scan.shown, Scan.start]
  · have hst : Shows ⟨[], 0, []⟩ [] Scan.start :=
      ⟨rfl, rfl, rfl, ⟨[], fun _ h => absurd h not_mem_nil, rfl, rfl⟩, nofun⟩
    obtain ⟨message, held, heq, hsh⟩ := receive_shows hne hst pieces
    rw [streamed, heq]
    exact hsh.finish

end LocalAi.FileSearch
