import LocalAi.FileSearch.Pieces

/-!
# Citations and where an answer is split

* `markup`: an answer with its citations, the text as a whole.
* `openBody`: the body of the bracket that is open at the end of a text; `freshBody`: the one that
  is open when the brackets given up at the end of a piece are text.
* `Misreadable`: some closing bracket ends a citation of one of the two and not of the other.
* `splits_agree_iff`: an answer reads alike in all pieces exactly when it is not misreadable.
-/

open List

namespace LocalAi.FileSearch

open Lib (splitOnce splitOnce_singleton_eq_some splitOnce_singleton_eq_none)

variable (cited : Text → Option (List Source))

/-- `rest` after the message `out`: markers that cite are taken out with the whitespace before
them and noted where they were, everything else stays as written. -/
def markup (out : Text) (notes : List Annotation) (rest : Text) : Message :=
  match _hopen : splitOnce [opening] rest with
  | none => ⟨out ++ rest, (out ++ rest).length, notes⟩
  | some (before, body) =>
    match _hclose : splitOnce [closing] body with
    | none => ⟨out ++ rest, (out ++ rest).length, notes⟩
    | some (inside, after) =>
      match cited inside with
      | some found =>
        let out := trimEnd (out ++ before)
        markup out (addNotes notes out.length found) after
      | none => markup (out ++ before ++ opening :: inside ++ [closing]) notes after
termination_by rest.length
decreasing_by
  · exact Nat.lt_trans (length_after_lt _hclose) (length_after_lt _hopen)
  · exact Nat.lt_trans (length_after_lt _hclose) (length_after_lt _hopen)

variable {cited}

theorem read_markup (out : Text) (notes : List Annotation) (rest : Text) :
    (Scan.read cited ⟨out, notes, none⟩ rest).message = markup cited out notes rest := by
  fun_induction markup cited out notes rest with
  | case1 out notes rest ho =>
    rw [read_plain _ _ (splitOnce_singleton_eq_none.mp ho)]
    simp [Scan.message, Scan.shown]
  | case2 out notes rest before body ho hc =>
    obtain ⟨hr, hb⟩ := splitOnce_singleton_eq_some.mp ho
    rw [hr, read_bracket _ _ hb (splitOnce_singleton_eq_none.mp hc)]
    simp [Scan.message, Scan.shown]
  | case3 out notes rest before body ho inside after hc found hf out' ih =>
    obtain ⟨hr, hb⟩ := splitOnce_singleton_eq_some.mp ho
    obtain ⟨hbo, hi⟩ := splitOnce_singleton_eq_some.mp hc
    rw [hr, hbo, show before ++ opening :: (inside ++ closing :: after) =
      before ++ opening :: inside ++ [closing] ++ after by simp, read_append, read_append,
      read_bracket _ _ hb hi, read_closing, ← ih]
    simp [Scan.close, hf, out']
  | case4 out notes rest before body ho inside after hc hn ih =>
    obtain ⟨hr, hb⟩ := splitOnce_singleton_eq_some.mp ho
    obtain ⟨hbo, hi⟩ := splitOnce_singleton_eq_some.mp hc
    rw [hr, hbo, show before ++ opening :: (inside ++ closing :: after) =
      before ++ opening :: inside ++ [closing] ++ after by simp, read_append, read_append,
      read_bracket _ _ hb hi, read_closing, ← ih]
    simp [Scan.close, hn, Scan.shown]

/-! ### The bracket that is open -/

/-- The text after the last closing bracket. -/
def lastPart (text : Text) : Text := text.rtakeWhile (· ≠ closing)

def openBody (text : Text) : Option Text := (splitOnce [opening] (lastPart text)).map Prod.snd

/-- The same when a piece ended between `front` and `text`: a bracket of `front` that was open
there for more than `maxMarkerBytes` bytes was given up. -/
def freshBody (front text : Text) : Option Text :=
  match _hopen : splitOnce [opening] front with
  | none => (splitOnce [opening] text).map Prod.snd
  | some (_, inner) =>
    if utf8Len inner ≤ maxMarkerBytes then some (inner ++ text) else freshBody inner text
termination_by front.length
decreasing_by exact length_after_lt _hopen

/-- Some place `front` of an answer, when a piece ends there, changes which bracket the next
closing one closes, and a citation is or would be read. -/
def Misreadable (cited : Text → Option (List Source)) (answer : Text) : Prop :=
  ∃ front text after, answer = front ++ text ++ closing :: after ∧ closing ∉ text ∧
    freshBody (lastPart front) text ≠ openBody (front ++ text) ∧
    ((openBody (front ++ text)).bind cited ≠ none ∨
      (freshBody (lastPart front) text).bind cited ≠ none)

theorem lastPart_of_notMem {text : Text} (h : closing ∉ text) : lastPart text = text := by
  rw [lastPart, rtakeWhile_eq_self_iff]
  intro c hc
  simpa using fun (heq : c = closing) => h (heq ▸ hc)

theorem lastPart_append {text : Text} (front : Text) (h : closing ∉ text) :
    lastPart (front ++ text) = lastPart front ++ text := by
  unfold lastPart
  induction text using reverseRecOn with
  | nil => simp
  | append_singleton text c ih =>
    have hc : c ≠ closing := fun heq => h (by simp [heq])
    have ht : closing ∉ text := fun hm => h (by simp [hm])
    rw [← append_assoc, rtakeWhile_concat_pos _ _ _ (by simpa using hc), ih ht, append_assoc]

theorem lastPart_closing {text : Text} (front : Text) (h : closing ∉ text) :
    lastPart (front ++ closing :: text) = text := by
  rw [show front ++ closing :: text = front ++ [closing] ++ text by simp, lastPart_append _ h]
  unfold lastPart
  rw [rtakeWhile_concat_neg _ _ _ (by simp), nil_append]

theorem closing_cases (text : Text) :
    closing ∉ text ∨ ∃ front last, text = front ++ closing :: last ∧ closing ∉ last := by
  induction text using reverseRecOn with
  | nil => exact .inl (by simp)
  | append_singleton text c ih =>
    by_cases hc : c = closing
    · exact .inr ⟨text, [], by rw [hc], by simp⟩
    · rcases ih with hn | ⟨front, last, heq, hl⟩
      · exact .inl (by simpa using ⟨hn, fun h => hc h.symm⟩)
      · refine .inr ⟨front, last ++ [c], by rw [heq]; simp, ?_⟩
        simpa using ⟨hl, fun h => hc h.symm⟩

theorem freshBody_of_notMem {front : Text} (text : Text) (h : opening ∉ front) :
    freshBody front text = (splitOnce [opening] text).map Prod.snd := by
  unfold freshBody
  split
  · rfl
  · next ho =>
    rw [splitOnce_singleton_eq_none.mpr h] at ho
    cases ho

theorem freshBody_opening {before : Text} (inner text : Text) (h : opening ∉ before) :
    freshBody (before ++ opening :: inner) text =
      if utf8Len inner ≤ maxMarkerBytes then some (inner ++ text) else freshBody inner text := by
  have ho := splitOnce_singleton_eq_some.mpr ⟨(rfl : before ++ opening :: inner = _), h⟩
  rw [freshBody]
  split
  · next hn =>
    rw [ho] at hn
    cases hn
  · next inner' hs =>
    rw [ho] at hs
    cases hs
    rfl

theorem giveUp_opened (text body : Text) :
    (giveUp text body).2 = freshBody (opening :: body) [] := by
  have hf : ∀ inner, freshBody (opening :: inner) [] =
      if utf8Len inner ≤ maxMarkerBytes then some (inner ++ []) else freshBody inner [] :=
    fun inner => @freshBody_opening [] inner [] (by simp)
  fun_induction giveUp text body with
  | case1 text body hle => rw [hf, if_pos hle, append_nil]
  | case2 text body hle ho =>
    rw [hf, if_neg hle, freshBody_of_notMem _ (splitOnce_singleton_eq_none.mp ho)]
    rfl
  | case3 text body hle before inner ho ih =>
    obtain ⟨heq, hb⟩ := splitOnce_singleton_eq_some.mp ho
    rw [ih, hf, hf, if_neg hle, heq, freshBody_opening _ _ hb]

variable (s : Scan)

theorem settle_opened :
    s.settle.opened = s.opened.bind fun body => freshBody (opening :: body) [] := by
  unfold Scan.settle
  cases hs : s.opened with
  | none => exact hs
  | some body => exact giveUp_opened s.text body

theorem freshBody_settle (front text : Text) :
    ((freshBody front text).bind fun body => freshBody (opening :: body) []) =
      freshBody (front ++ text) [] := by
  fun_induction freshBody front text with
  | case1 front ho =>
    have hf := splitOnce_singleton_eq_none.mp ho
    cases ht : splitOnce [opening] text with
    | none =>
      have hn := splitOnce_singleton_eq_none.mp ht
      rw [freshBody_of_notMem _ (by simpa using ⟨hf, hn⟩)]
      rfl
    | some parts =>
      obtain ⟨before, inner⟩ := parts
      obtain ⟨heq, hb⟩ := splitOnce_singleton_eq_some.mp ht
      have hbo : opening ∉ front ++ before := by simpa using ⟨hf, hb⟩
      rw [heq, ← append_assoc, freshBody_opening _ _ hbo]
      exact @freshBody_opening [] inner [] (by simp)
  | case2 front before inner ho hle =>
    obtain ⟨heq, hb⟩ := splitOnce_singleton_eq_some.mp ho
    rw [heq, append_assoc, cons_append, freshBody_opening _ _ hb]
    exact @freshBody_opening [] (inner ++ text) [] (by simp)
  | case3 front before inner ho hle ih =>
    obtain ⟨heq, hb⟩ := splitOnce_singleton_eq_some.mp ho
    have hl : ¬ utf8Len (inner ++ text) ≤ maxMarkerBytes := by
      rw [utf8Len_append]
      omega
    rw [ih, heq, append_assoc, cons_append, freshBody_opening _ _ hb, if_neg hl]

/-! ### Two scans of one answer -/

theorem read_open {text : Text} (ht : closing ∉ text) :
    (s.read cited text).shown = s.shown ++ text ∧
      (s.read cited text).annotations = s.annotations ∧
      (s.read cited text).opened =
        s.opened.elim ((splitOnce [opening] text).map Prod.snd) fun body => some (body ++ text) := by
  obtain ⟨front, notes, opened⟩ := s
  cases opened with
  | some =>
    rw [read_body _ _ _ ht]
    simp [Scan.shown]
  | none =>
    cases ho : splitOnce [opening] text with
    | none =>
      rw [read_plain _ _ (splitOnce_singleton_eq_none.mp ho)]
      simp [Scan.shown]
    | some parts =>
      obtain ⟨before, body⟩ := parts
      obtain ⟨heq, hbef⟩ := splitOnce_singleton_eq_some.mp ho
      have hb : closing ∉ body := fun hm => ht (by rw [heq]; simp [hm])
      rw [heq, read_bracket _ _ hbef hb]
      simp [Scan.shown]

theorem close_opened : (s.close cited).opened = none := by
  unfold Scan.close
  split <;> rfl

theorem read_last (front : Text) {last : Text} (hl : closing ∉ last) :
    (s.read cited (front ++ closing :: last)).opened = (splitOnce [opening] last).map Prod.snd := by
  rw [show front ++ closing :: last = front ++ [closing] ++ last by simp, read_append, read_append,
    read_closing, (read_open _ hl).2.2, close_opened]
  rfl

theorem read_start_opened (text : Text) : (Scan.start.read cited text).opened = openBody text := by
  rcases closing_cases text with hn | ⟨front, last, rfl, hl⟩
  · rw [(read_open _ hn).2.2, openBody, lastPart_of_notMem hn]
    rfl
  · rw [read_last _ _ hl, openBody, lastPart_closing _ hl]

theorem freshBody_text (front text : Text) :
    freshBody front text = (freshBody front []).elim ((splitOnce [opening] text).map Prod.snd)
      fun body => some (body ++ text) := by
  fun_induction freshBody front text with
  | case1 front ho =>
    rw [freshBody_of_notMem _ (splitOnce_singleton_eq_none.mp ho)]
    rfl
  | case2 front before inner ho hle =>
    obtain ⟨heq, hb⟩ := splitOnce_singleton_eq_some.mp ho
    rw [heq, freshBody_opening _ _ hb, if_pos hle, append_nil]
    rfl
  | case3 front before inner ho hle ih =>
    obtain ⟨heq, hb⟩ := splitOnce_singleton_eq_some.mp ho
    rw [ih, heq, freshBody_opening _ _ hb, if_neg hle]

theorem pieces_opened (pieces : List Text) : (pieces.foldl (Scan.piece cited) Scan.start).opened =
      freshBody (lastPart pieces.flatten) [] := by
  induction pieces using reverseRecOn with
  | nil =>
    rw [freshBody_of_notMem _ (by simp [lastPart])]
    rfl
  | append_singleton pieces piece ih =>
    rw [foldl_append, foldl_cons, foldl_nil, Scan.piece, settle_opened,
      flatten_append, flatten_singleton]
    rcases closing_cases piece with hn | ⟨front, last, rfl, hl⟩
    · rw [(read_open _ hn).2.2, ih, ← freshBody_text, freshBody_settle, lastPart_append _ hn]
    · rw [read_last _ _ hl, ← append_assoc, lastPart_closing _ hl,
        ← @freshBody_of_notMem [] last (by simp), freshBody_settle, nil_append]

theorem read_pieces_opened (pieces : List Text) {text : Text} (ht : closing ∉ text) :
    ((pieces.foldl (Scan.piece cited) Scan.start).read cited text).opened =
      freshBody (lastPart pieces.flatten) text := by
  rw [(read_open _ ht).2.2, pieces_opened, ← freshBody_text]

/-- Two scans show the same text and the same citations. -/
structure Alike (a b : Scan) : Prop where
  shown : a.shown = b.shown
  annotations : a.annotations = b.annotations

variable {a b : Scan}

theorem Alike.message (h : Alike a b) : a.message = b.message := by
  rw [Scan.message, Scan.message, h.shown, h.annotations]

theorem Alike.settle (h : Alike a b) : Alike a b.settle :=
  ⟨by rw [settle_shown, h.shown], by rw [settle_annotations, h.annotations]⟩

theorem Alike.read_open (h : Alike a b) {text : Text} (ht : closing ∉ text) :
    Alike (a.read cited text) (b.read cited text) := by
  have ha := @FileSearch.read_open cited a text ht
  have hb := @FileSearch.read_open cited b text ht
  exact ⟨by rw [ha.1, hb.1, h.shown], by rw [ha.2.1, hb.2.1, h.annotations]⟩

theorem Alike.close (h : Alike a b)
    (ho : b.opened ≠ a.opened → a.opened.bind cited = none ∧ b.opened.bind cited = none) :
    a.close cited = b.close cited := by
  by_cases hsa : b.opened = a.opened
  · have ht : a.text = b.text := by
      have hs := h.shown
      rw [Scan.shown, Scan.shown, hsa] at hs
      exact append_cancel_right hs
    obtain ⟨text, notes, opened⟩ := a
    obtain ⟨text', notes', opened'⟩ := b
    cases hsa
    cases ht
    cases h.annotations
    rfl
  · obtain ⟨ha, hb⟩ := ho hsa
    rw [Scan.close, Scan.close, ha, hb, h.shown, h.annotations]

theorem pieces_alike {answer : Text} (ha : ¬ Misreadable cited answer) (pieces : List Text)
    {rest : Text} (hr : answer = pieces.flatten ++ rest) :
    Alike (Scan.start.read cited pieces.flatten) (pieces.foldl (Scan.piece cited) Scan.start) := by
  induction pieces using reverseRecOn generalizing rest with
  | nil => exact ⟨rfl, rfl⟩
  | append_singleton pieces piece ih =>
    rw [flatten_append, flatten_singleton] at hr ⊢
    have hp := @ih (piece ++ rest) (by rw [hr, append_assoc])
    rw [read_append, foldl_append, foldl_cons, foldl_nil, Scan.piece]
    apply Alike.settle
    by_cases hc : closing ∈ piece
    · obtain ⟨text, after, rfl, ht⟩ := eq_append_cons_of_mem hc
      have hre := @Alike.read_open cited _ _ hp text ht
      have hcl := @Alike.close cited _ _ hre (by
        intro hne
        rw [← read_append, read_start_opened, read_pieces_opened _ ht] at hne ⊢
        by_contra hci
        refine ha ⟨pieces.flatten, text, after ++ rest, ?_, ht, hne, ?_⟩
        · rw [hr]
          simp
        · exact not_and_or.mp hci)
      rw [show text ++ closing :: after = text ++ [closing] ++ after by simp]
      rw [read_append _ _ after, read_append _ text, read_append _ _ after, read_append _ text,
        read_closing, read_closing, hcl]
      exact ⟨rfl, rfl⟩
    · exact hp.read_open hc

/-! ### A misread answer -/

theorem trimEnd_length_le (text : Text) : (trimEnd text).length ≤ text.length := by
  have hp := congrArg length (trimEnd_trailing text)
  rw [length_append] at hp
  omega

theorem opening_le_trimEnd (a b : Text) : a.length < (trimEnd (a ++ opening :: b)).length := by
  have hne : trimEnd (opening :: b) ≠ [] := by
    intro hnil
    have ha := rdropWhile_eq_nil_iff.mp hnil
    exact absurd (ha opening mem_cons_self) (by decide)
  rw [trimEnd_append, if_neg hne, length_append]
  have := length_pos_iff.mpr hne
  omega

/-- Of two brackets that could close in one text, the earlier citation leaves less of it. -/
theorem trimEnd_length_lt {a b v w : Text} (h : a ++ opening :: w = b ++ opening :: v)
    (hlt : a.length < b.length) : (trimEnd a).length < (trimEnd b).length := by
  have hb : b = a ++ opening :: w.take (b.length - a.length - 1) := by
    have ht := congrArg (take b.length) h
    rw [take_left, take_append, take_of_length_le (by omega),
      show b.length - a.length = (b.length - a.length - 1) + 1 by omega, take_succ_cons] at ht
    exact ht.symm
  have hbd := opening_le_trimEnd a (w.take (b.length - a.length - 1))
  rw [← hb] at hbd
  have := trimEnd_length_le a
  omega

theorem close_text : (s.close cited).text =
    if s.opened.bind cited = none then s.shown ++ [closing] else trimEnd s.text := by
  unfold Scan.close
  cases s.opened.bind cited with
  | none => rfl
  | some => rfl

theorem close_trimmed : trimEnd (s.close cited).text = (s.close cited).text := by
  rw [close_text]
  split
  · exact rdropWhile_concat_neg _ _ _ (by decide)
  · exact trimEnd_trimEnd _

/-- A citation that only one of the scans reads leaves texts of different lengths. -/
theorem close_length_ne (hs : a.shown = b.shown) (hne : b.opened ≠ a.opened)
    (hc : a.opened.bind cited ≠ none) :
    (a.close cited).text.length ≠ (b.close cited).text.length := by
  obtain ⟨w, hw⟩ : ∃ w, a.opened = some w := by
    cases ha : a.opened with
    | none => exact absurd (by rw [ha]; rfl) hc
    | some w => exact ⟨w, rfl⟩
  have hlen := trimEnd_length_le a.text
  have hshownA : a.shown = a.text ++ opening :: w := by rw [Scan.shown, hw]; rfl
  rw [close_text, close_text, if_neg hc]
  by_cases hb : b.opened.bind cited = none
  · rw [if_pos hb, ← hs, hshownA]
    simp only [length_append, length_cons, length_nil]
    omega
  · rw [if_neg hb]
    obtain ⟨v, hv⟩ : ∃ v, b.opened = some v := by
      cases hb' : b.opened with
      | none => exact absurd (by rw [hb']; rfl) hb
      | some v => exact ⟨v, rfl⟩
    have hshownB : b.shown = b.text ++ opening :: v := by rw [Scan.shown, hv]; rfl
    rw [hshownA, hshownB] at hs
    rcases Nat.lt_trichotomy a.text.length b.text.length with hlt | heq | hlt
    · exact Nat.ne_of_lt (trimEnd_length_lt hs hlt)
    · obtain ⟨-, ht⟩ := append_inj hs heq
      rw [hw, hv, (cons.inj ht).2] at hne
      exact absurd rfl hne
    · exact Nat.ne_of_gt (trimEnd_length_lt hs.symm hlt)

theorem read_after (text : Text) (k : Text) (opened : Option Text) :
    ∃ k' opened', ∀ front notes, trimEnd front = front →
      ∃ notes', Scan.read cited ⟨front ++ k, notes, opened⟩ text = ⟨front ++ k', notes', opened'⟩ := by
  induction text generalizing k opened with
  | nil => exact ⟨k, opened, fun front notes _ => ⟨notes, rfl⟩⟩
  | cons c text ih =>
    obtain ⟨k₁, opened₁, hch⟩ : ∃ k₁ opened₁, ∀ front notes, trimEnd front = front →
        ∃ notes', Scan.char cited ⟨front ++ k, notes, opened⟩ c = ⟨front ++ k₁, notes', opened₁⟩ := by
      by_cases hc : c = closing
      · cases hci : opened.bind cited with
        | some found =>
          refine ⟨trimEnd k, none, fun front notes ht =>
            ⟨addNotes notes (trimEnd (front ++ k)).length found, ?_⟩⟩
          rw [Scan.char, if_pos hc, Scan.close, hci]
          simp only [trimEnd_append_of_trimmed _ ht]
        | none =>
          refine ⟨k ++ opened.elim [] (cons opening) ++ [closing], none,
            fun front notes _ => ⟨notes, ?_⟩⟩
          rw [Scan.char, if_pos hc, Scan.close, hci]
          simp [Scan.shown]
      · cases opened with
        | some body =>
          refine ⟨k, some (body ++ [c]), fun front notes _ => ⟨notes, ?_⟩⟩
          simp [Scan.char, hc]
        | none =>
          by_cases ho : c = opening
          · refine ⟨k, some [], fun front notes _ => ⟨notes, ?_⟩⟩
            rw [ho] at hc
            simp [Scan.char, hc, ho]
          · refine ⟨k ++ [c], none, fun front notes _ => ⟨notes, ?_⟩⟩
            simp [Scan.char, hc, ho]
    obtain ⟨k', opened', hr⟩ := ih k₁ opened₁
    refine ⟨k', opened', fun front notes ht => ?_⟩
    obtain ⟨notes₁, heq⟩ := hch front notes ht
    obtain ⟨notes', hre⟩ := hr front notes₁ ht
    refine ⟨notes', ?_⟩
    show Scan.read cited (Scan.char cited ⟨front ++ k, notes, opened⟩ c) text = _
    rw [heq, hre]

theorem shown_ne_of_length (hopenA : a.opened = none) (hopenB : b.opened = none)
    (htrimA : trimEnd a.text = a.text) (htrimB : trimEnd b.text = b.text)
    (hne : a.text.length ≠ b.text.length) (text : Text) :
    (a.read cited text).shown ≠ (b.read cited text).shown := by
  obtain ⟨k, opened, hr⟩ := @read_after cited text [] none
  obtain ⟨textA, notesA, openA⟩ := a
  obtain ⟨textB, notesB, openB⟩ := b
  cases hopenA
  cases hopenB
  obtain ⟨_, ha⟩ := hr textA notesA htrimA
  obtain ⟨_, hb⟩ := hr textB notesB htrimB
  rw [append_nil] at ha hb
  rw [ha, hb]
  intro hs
  have hl := congrArg length hs
  simp only [Scan.shown, length_append] at hl
  simp only at hne
  omega

theorem misread {answer : Text} (h : Misreadable cited answer) :
    ∃ front back, front ++ back = answer ∧
      ([front, back].foldl (Scan.piece cited) Scan.start).message ≠
        (Scan.start.read cited answer).message := by
  obtain ⟨front, text, after, rfl, ht, ho, hc⟩ := h
  refine ⟨front, text ++ closing :: after, by simp, ?_⟩
  let whole := Scan.start.read cited (front ++ text)
  let split := (Scan.start.piece cited front).read cited text
  have ha : Alike whole split := by
    have hf : Alike (Scan.start.read cited front) (Scan.start.piece cited front) :=
      Alike.settle ⟨rfl, rfl⟩
    show Alike (Scan.start.read cited (front ++ text)) _
    rw [read_append]
    exact hf.read_open ht
  have hw : whole.opened = openBody (front ++ text) := read_start_opened _
  have hsp : split.opened = freshBody (lastPart front) text := by
    have hp := @read_pieces_opened cited [front] text ht
    rwa [flatten_singleton] at hp
  rw [← hw, ← hsp] at ho hc
  have hl : (whole.close cited).text.length ≠ (split.close cited).text.length := by
    rcases hc with hc | hc
    · exact close_length_ne ha.shown ho hc
    · exact (close_length_ne ha.shown.symm ho.symm hc).symm
  have hne := @shown_ne_of_length cited _ _ (close_opened whole) (close_opened split)
    (close_trimmed whole) (close_trimmed split) hl after
  intro hm
  apply hne
  have hs := congrArg Message.text hm
  simp only [Scan.message, foldl_cons, foldl_nil, Scan.piece, settle_shown] at hs
  rw [show text ++ closing :: after = text ++ ([closing] ++ after) by simp,
    show front ++ text ++ closing :: after = front ++ text ++ ([closing] ++ after) by simp,
    read_append _ text, read_append _ (front ++ text), read_append _ [closing],
    read_append _ [closing], read_closing, read_closing] at hs
  exact hs.symm

/-- For every set of citable results and every answer: the whole answer fed at once reads as
`markup` says, and every split of it reads alike exactly when no place of it is misreadable. -/
theorem splits_agree_iff (sources : List (Nat × Source)) (answer : Text) :
    streamed sources [answer] = markup (FileSearch.cited sources) [] [] answer ∧
    ((∀ pieces : List Text, pieces.flatten = answer →
        streamed sources pieces = streamed sources [answer]) ↔
      ¬ Misreadable (FileSearch.cited sources) answer) := by
  have hw : streamed sources [answer] =
      (Scan.start.read (FileSearch.cited sources) answer).message := by
    rw [streamed_eq, foldl_cons, foldl_nil, Scan.piece]
    exact (Alike.settle ⟨rfl, rfl⟩ : Alike (Scan.start.read _ answer) _).message.symm
  refine ⟨hw.trans (read_markup [] [] answer), ?_, ?_⟩
  · intro hall hm
    obtain ⟨front, back, rfl, hne⟩ := misread hm
    have hs := hall [front, back] (by simp)
    rw [hw, streamed_eq] at hs
    exact hne hs
  · intro hans pieces hp
    have halk := @pieces_alike _ _ hans pieces [] (by simp [hp])
    rw [hw, streamed_eq, ← halk.message, hp]

/-! ### A long marker -/

/-- At once it is a citation; when a piece ends before its closing bracket it is text. -/
theorem streamed_long {sources : List (Nat × Source)} {body : Text} {found : List Source}
    (hci : FileSearch.cited sources body = some found) (ho : opening ∉ body)
    (hc : closing ∉ body) (hl : ¬ utf8Len body ≤ maxMarkerBytes) :
    streamed sources [opening :: body ++ [closing]] = ⟨[], 0, addNotes [] 0 found⟩ ∧
      streamed sources [opening :: body, [closing]] =
        ⟨opening :: body ++ [closing], (opening :: body ++ [closing]).length, []⟩ := by
  have hr : Scan.start.read (FileSearch.cited sources) (opening :: body) = ⟨[], [], some body⟩ :=
    @read_bracket (FileSearch.cited sources) [] [] [] body not_mem_nil hc
  have hp : Scan.start.piece (FileSearch.cited sources) (opening :: body) =
      ⟨opening :: body, [], none⟩ := by
    rw [Scan.piece, hr, @settle_of_long (FileSearch.cited sources) [] [] body hl hc,
      read_plain _ _ ho]
    rfl
  constructor
  · rw [streamed_eq, foldl_cons, foldl_nil, Scan.piece, read_append, hr, read_closing]
    simp [Scan.close, hci, Scan.settle, Scan.message, Scan.shown, trimEnd]
  · rw [streamed_eq, foldl_cons, foldl_cons, foldl_nil, hp, Scan.piece, read_closing]
    simp [Scan.close, Scan.settle, Scan.message, Scan.shown]

/-- A marker of result 1 with a file name of 64 characters. -/
def longBody : Text := '1' :: dagger :: List.replicate 64 'a'

theorem long_marker_split :
    streamed [(1, ⟨"file-a".toList, "a.md".toList⟩)] [opening :: longBody ++ [closing]] =
        ⟨[], 0, [⟨"file-a".toList, "a.md".toList, 0⟩]⟩ ∧
      streamed [(1, ⟨"file-a".toList, "a.md".toList⟩)] [opening :: longBody, [closing]] =
        ⟨opening :: longBody ++ [closing], (opening :: longBody ++ [closing]).length, []⟩ :=
  @streamed_long _ longBody [⟨"file-a".toList, "a.md".toList⟩] (by decide +kernel)
    (by decide +kernel) (by decide +kernel) (by decide +kernel)

end LocalAi.FileSearch
