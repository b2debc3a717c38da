import LocalAi.Tools.Parser

/-!
# The certain pieces of an unfinished call

The pieces of a call's arguments are read again from a growing text.  Here they
are compared as the text grows.

A value the call's parser will refuse ends the pieces of `pieces`; `certain`
keeps its opening too, which makes the pieces only ever grow.

* `Grows`: a list of pieces that goes on, its last piece completed.
* `certain_grows`: more text makes the certain pieces grow.
* `pieces_eq`: the pieces are the certain ones, less a refused opening.
-/

open List

namespace LocalAi.Tools

open LocalAi.Lib

/-! ### Headers in a growing text -/

variable {more after name key rest block next raw : Text} {before : List Piece} {textMode : Bool}

theorem trimStart_append {text : Text} (h : trimStart text ≠ []) :
    trimStart (text ++ more) = trimStart text ++ more := by
  unfold trimStart at h ⊢
  rw [dropWhile_append, if_neg (by simpa using h)]

theorem header_append {tag text : Text} (htag : tag ≠ [])
    (h : (stripPrefix tag (trimStart text)).bind (splitOnce ['>']) = some (name, after))
    (more : Text) : (stripPrefix tag (trimStart (text ++ more))).bind (splitOnce ['>'])
      = some (name, after ++ more) := by
  obtain ⟨rest, hr, hs⟩ := Option.bind_eq_some_iff.mp h
  have ht := stripPrefix_eq_some.mp hr
  have hne : trimStart text ≠ [] := by
    rw [ht]
    simp [htag]
  have hm : stripPrefix tag (trimStart (text ++ more)) = some (rest ++ more) := by
    rw [trimStart_append hne, ht, stripPrefix_eq_some, append_assoc]
  rw [hm, Option.bind_some, splitOnce_append hs more]

theorem parameterHeader_append (h : parameterHeader rest = some (key, after))
    (more : Text) : parameterHeader (rest ++ more) = some (key, after ++ more) :=
  header_append (by decide) h more

theorem functionHeader_append (h : functionHeader block = some (name, after)) (more : Text) :
    functionHeader (block ++ more) = some (name, after ++ more) :=
  header_append (by decide) h more

theorem parameterHeader_length
    (h : parameterHeader rest = some (key, after)) : after.length < rest.length := by
  obtain ⟨tail, ht, hs⟩ := Option.bind_eq_some_iff.mp h
  have htr : (trimStart rest).length ≤ rest.length := length_dropWhile_le _ _
  have hr := congrArg length (stripPrefix_eq_some.mp ht)
  have ht := congrArg length (splitOnce_eq_some hs)
  have htag : "<parameter=".toList.length = 11 := rfl
  simp only [length_append] at hr ht
  omega

theorem skipNewline_append (h : after ≠ []) (more : Text) :
    skipNewline (after ++ more) = skipNewline after ++ more := by
  obtain ⟨c, after, rfl⟩ := exists_cons_of_ne_nil h
  by_cases hc : c = '\n'
  · subst hc
    rfl
  · have hn : ∀ text : Text, stripPrefix ['\n'] (c :: text) = none := by
      intro text
      cases hs : stripPrefix ['\n'] (c :: text) with
      | none => rfl
      | some => exact absurd (cons.inj (stripPrefix_eq_some.mp hs)).1 hc
    rw [cons_append, skipNewline, hn, skipNewline, hn]
    rfl

theorem skipNewline_length (after : Text) : (skipNewline after).length ≤ after.length := by
  unfold skipNewline
  cases h : stripPrefix ['\n'] after with
  | none => simp
  | some =>
    rw [stripPrefix_eq_some.mp h]
    simp

/-! ### Certain text -/

theorem heldClose_append_le (value more : Text) :
    heldClose (value ++ more) ≤ heldClose value + more.length := by
  have hn := overlap_append_le "\n</parameter>".toList (by decide) value more
  have hp := overlap_append_le "</parameter>".toList (by decide) value more
  unfold heldClose
  omega

theorem certainText_append (value more : Text) :
    certainText value <+: certainText (value ++ more) := by
  have hh := heldClose_append_le value more
  have hle : value.length - heldClose value
      ≤ (value ++ more).length - heldClose (value ++ more) := by
    rw [length_append]
    omega
  have ht : certainText value = (value ++ more).take (value.length - heldClose value) := by
    rw [take_append_of_le_length (by omega)]
    rfl
  rw [ht]
  exact take_prefix_take_left hle

theorem certainText_isPrefix {value : Text} (hn : splitOnce "</parameter>".toList value = none)
    (hso : splitOnce "</parameter>".toList (value ++ more) = some (raw, next)) :
    certainText value <+: dropNewline raw := by
  have hn := splitOnce_eq_none_iff.mp hn
  have ht := splitOnce_eq_some hso
  have hc : certainText value <+: value ++ more :=
    ( take_prefix _ _).trans (prefix_append _ _)
  have hp := length_sub_overlap_le hn ht
  cases hs : stripSuffix ['\n'] raw with
  | none =>
    rw [dropNewline, hs, Option.getD_none]
    refine prefix_of_prefix_length_le hc ?_ ?_
    · rw [ht, append_assoc]
      exact prefix_append _ _
    · rw [certainText, length_take, heldClose]
      omega
  | some line =>
    -- the newline before the tag is held back with it
    have hl := stripSuffix_eq_some.mp hs
    rw [dropNewline, hs, Option.getD_some]
    have ht' : value ++ more = line ++ "\n</parameter>".toList ++ next := by
      rw [ht, hl]
      simp
    have hn' : ¬ "\n</parameter>".toList <:+: value := by
      intro hi
      apply hn
      exact List.IsInfix.trans ⟨['\n'], [], rfl⟩ hi
    have hne := length_sub_overlap_le hn' ht'
    refine prefix_of_prefix_length_le hc ?_ ?_
    · rw [ht', append_assoc]
      exact prefix_append _ _
    · rw [certainText, length_take, heldClose]
      omega

/-! ### Pieces that grow -/

/-- `q` is a part of `p`: less of its JSON, and of its text. -/
structure Piece.Le (q p : Piece) : Prop where
  json : q.json <+: p.json
  text : ∀ key text, q.text = some (key, text) → ∃ more, p.text = some (key, text ++ more)
  same : q.json = p.json → q.text = p.text

theorem Piece.Le.refl (p : Piece) : p.Le p :=
  ⟨prefix_rfl, fun _ text h => ⟨[], by rw [append_nil]; exact h⟩, fun _ => rfl⟩

theorem Piece.Le.trans {a b c : Piece} (hab : a.Le b) (hbc : b.Le c) : a.Le c := by
  refine ⟨hab.json.trans hbc.json, ?_, ?_⟩
  · intro key text h
    obtain ⟨more, hm⟩ := hab.text key text h
    obtain ⟨more', hm'⟩ := hbc.text key _ hm
    exact ⟨more ++ more', by rw [← append_assoc]; exact hm'⟩
  · intro h
    have hl : b.json.length ≤ a.json.length := by
      rw [h]
      exact hbc.json.length_le
    have heq := hab.json.eq_of_length_le hl
    rw [hab.same heq, hbc.same (heq ▸ h)]

theorem Piece.Le.opening (json value : Text) (text : Option (Text × Text))
    (h : value = [] → text = none) : (⟨json, none⟩ : Piece).Le ⟨json ++ value, text⟩ := by
  refine ⟨prefix_append _ _, fun _ _ hn => ?_, fun heq => ?_⟩
  · cases hn
  · exact (h (self_eq_append_right.mp heq)).symm

theorem Piece.Le.goesOn (json key certain tail : Text) :
    (⟨json ++ '"' :: escape certain, some (key, certain)⟩ : Piece).Le
      ⟨json ++ '"' :: escape (certain ++ tail), some (key, certain ++ tail)⟩ := by
  refine ⟨?_, fun k text h => ?_, fun heq => ?_⟩
  · rw [escape_append]
    exact ⟨escape tail, by simp⟩
  · cases h
    exact ⟨tail, rfl⟩
  · have ht : escape tail = [] := by simpa using heq
    rw [escape_eq_nil ht, append_nil]

theorem Piece.Le.ends (json key certain tail : Text) :
    (⟨json ++ '"' :: escape certain, some (key, certain)⟩ : Piece).Le
      ⟨json ++ (Json.string (certain ++ tail)).toText, some (key, certain ++ tail)⟩ := by
  refine ⟨?_, fun k text h => ?_, fun heq => ?_⟩
  · rw [Json.toText, quote, escape_append]
    exact ⟨escape tail ++ ['"'], by simp⟩
  · cases h
    exact ⟨tail, rfl⟩
  · have := congrArg length heq
    simp [Json.toText, quote] at this

inductive Grows : List Piece → List Piece → Prop
  | last {q p : Piece} (h : q.Le p) (more : List Piece) : Grows [q] (p :: more)
  | cons (p : Piece) {before after : List Piece} (h : Grows before after) :
      Grows (p :: before) (p :: after)

theorem Grows.trans {a b c : List Piece} (hab : Grows a b) (hbc : Grows b c) : Grows a c := by
  induction hab generalizing c with
  | last h =>
    cases hbc with
    | last h' more' => exact .last (h.trans h') more'
    | cons => exact .last h _
  | cons p h ih =>
    cases hbc with
    | last => cases h
    | cons _ h' => exact .cons p (ih h')

theorem Grows.of_append {q p : Piece} (h : q.Le p) (more : List Piece) :
    ∀ front : List Piece, Grows (front ++ [q]) (front ++ p :: more)
  | [] => .last h more
  | piece :: front => .cons piece (Grows.of_append h more front)

theorem Grows.cases {after : List Piece} (h : Grows before after) :
    ∃ front q p more, before = front ++ [q] ∧ after = front ++ p :: more ∧ q.Le p := by
  induction h with
  | @last q p h more => exact ⟨[], q, p, more, rfl, rfl, h⟩
  | cons p h ih =>
    obtain ⟨front, q, p', more, rfl, rfl, hle⟩ := ih
    exact ⟨p :: front, q, p', more, rfl, rfl, hle⟩

theorem Grows.of_isPrefix {after : List Piece} (hne : before ≠ []) (h : before <+: after) :
    Grows before after := by
  obtain ⟨more, rfl⟩ := h
  rcases eq_nil_or_concat' before with rfl | ⟨front, last, rfl⟩
  · exact absurd rfl hne
  · rw [append_assoc]
    exact .of_append (.refl last) more front

theorem Grows.of_last {front after : List Piece} {q p : Piece} (hle : q.Le p)
    (h : front ++ [p] <+: after) : Grows (front ++ [q]) after := by
  obtain ⟨more, rfl⟩ := h
  rw [append_assoc]
  exact .of_append hle more front

/-! ### The next parameter in a growing text -/

/-- A parameter that streams as text is a string whatever its text. -/
def TextSound (env : Env) (tool : Tool) : Prop :=
  ∀ key raw, streamsText tool key = some true → finishedValue env tool key raw = some (.string raw)

/-- What more text can make of the next parameter. -/
inductive Written.Extends (more : Text) : Written → Written → Prop
  | nothing (after : Written) : Extends more .nothing after
  | opened (key : Text) : Extends more (.opened key) (.opened key)
  | started (key certain : Text) : Extends more (.opened key) (.started key certain)
  | refused (key : Text) : Extends more (.opened key) (.refused key)
  | finished (key raw : Text) (value : Json) (rest : Text) :
      Extends more (.opened key) (.finished key raw false value rest)
  | text (key raw rest : Text) :
      Extends more (.opened key) (.finished key raw true (.string raw) rest)
  | goesOn (key certain rest : Text) :
      Extends more (.started key certain) (.started key (certain ++ rest))
  | ends (key certain tail rest : Text) :
      Extends more (.started key certain)
        (.finished key (certain ++ tail) true (.string (certain ++ tail)) rest)
  | stays (key : Text) : Extends more (.refused key) (.refused key)
  | keeps (key raw : Text) (textMode : Bool) (value : Json) (rest : Text) :
      Extends more (.finished key raw textMode value rest)
        (.finished key raw textMode value (rest ++ more))

variable {env : Env} {tool : Tool}

theorem extends_opened (hs : TextSound env tool) {value : Text}
    (ht : streamsText tool key = some textMode) :
    Written.Extends more (.opened key) (match splitOnce "</parameter>".toList value with
        | some (raw, next) =>
          match finishedValue env tool key (dropNewline raw) with
          | none => .refused key
          | some converted => .finished key (dropNewline raw) textMode converted next
        | none => if textMode then .started key (certainText value) else .opened key) := by
  cases splitOnce "</parameter>".toList value with
  | none =>
    cases textMode with
    | true => exact .started _ _
    | false => exact .opened _
  | some parts =>
    obtain ⟨raw, next⟩ := parts
    dsimp only
    cases textMode with
    | true =>
      rw [hs key _ ht]
      exact .text _ _ _
    | false =>
      cases finishedValue env tool key (dropNewline raw) with
      | none => exact .refused _
      | some => exact .finished _ _ _ _

theorem written_append (hs : TextSound env tool) (rest : Text) (seen : List Text) (more : Text) :
    Written.Extends more (written env tool rest seen) (written env tool (rest ++ more) seen) := by
  unfold written
  cases hh : parameterHeader rest with
  | none => exact .nothing _
  | some header =>
    obtain ⟨key, after⟩ := header
    rw [parameterHeader_append hh more]
    dsimp only
    cases hte : streamsText tool key with
    | none => exact .nothing _
    | some textMode =>
      dsimp only
      split
      · exact .nothing _
      · cases after with
        | nil =>
          rw [if_pos (by rfl), nil_append]
          cases more with
          | nil => exact .opened _
          | cons =>
            rw [if_neg (by simp)]
            exact extends_opened hs hte
        | cons c after =>
          have hsk : skipNewline (c :: (after ++ more)) = skipNewline (c :: after) ++ more :=
            skipNewline_append (cons_ne_nil c after) more
          simp only [cons_append, isEmpty_cons, Bool.false_eq_true, if_false, hsk]
          cases hsp : splitOnce "</parameter>".toList (skipNewline (c :: after)) with
          | some parts =>
            obtain ⟨raw, next⟩ := parts
            rw [splitOnce_append hsp more]
            dsimp only
            cases finishedValue env tool key (dropNewline raw) with
            | none => exact .stays _
            | some => exact .keeps _ _ _ _ _
          | none =>
            cases textMode with
            | false => exact extends_opened hs hte
            | true =>
              rw [if_pos rfl]
              cases hm : splitOnce "</parameter>".toList (skipNewline (c :: after) ++ more) with
              | none =>
                obtain ⟨tail, ht⟩ := certainText_append (skipNewline (c :: after)) more
                rw [← ht]
                exact .goesOn _ _ _
              | some parts =>
                obtain ⟨raw, next⟩ := parts
                obtain ⟨tail, ht⟩ := certainText_isPrefix hsp hm
                dsimp only
                rw [hs key _ hte, ← ht]
                exact .ends _ _ _ _

theorem written_eq_finished {seen : List Text}
    {value : Json} (h : written env tool rest seen = .finished key raw textMode value next) :
    ∃ after raw₀, parameterHeader rest = some (key, after) ∧
      splitOnce "</parameter>".toList (skipNewline after) = some (raw₀, next) ∧
      raw = dropNewline raw₀ ∧ streamsText tool key = some textMode ∧
      finishedValue env tool key raw = some value := by
  unfold written at h
  split at h
  · cases h
  · next key' after hh =>
    split at h
    · cases h
    · next textMode' ht =>
      split at h
      · cases h
      · split at h
        · cases h
        · dsimp only at h
          split at h
          · next raw₀ next' hs =>
            split at h
            · cases h
            · next converted hv =>
              cases h
              exact ⟨after, raw₀, hh, hs, rfl, ht, hv⟩
          · split at h <;> cases h

theorem written_length {seen : List Text}
    {value : Json} (h : written env tool rest seen = .finished key raw textMode value next) :
    next.length < rest.length := by
  obtain ⟨after, raw₀, hh, hs, -, -, -⟩ := written_eq_finished h
  have ha := parameterHeader_length hh
  have hsk := skipNewline_length after
  have hl := congrArg length (splitOnce_eq_some hs)
  simp only [length_append] at hl
  omega

/-! ### The certain pieces -/

def certainLoop (env : Env) (tool : Tool) :
    (fuel : Nat) → (rest : Text) → (seen : List Text) → List Piece → List Piece
  | 0, _, _, pieces => pieces
  | fuel + 1, rest, seen, pieces =>
    match written env tool rest seen with
    | .nothing => pieces
    | .opened key | .refused key => pieces ++ [⟨openJson pieces.length key, none⟩]
    | .started key certain =>
      pieces ++ [⟨openJson pieces.length key ++ '"' :: escape certain, some (key, certain)⟩]
    | .finished key raw textMode value next =>
      certainLoop env tool fuel next (key :: seen)
        (pieces ++ [⟨openJson pieces.length key ++ value.toText,
          if textMode then some (key, raw) else none⟩])

def certain (env : Env) (block : Text) (tools : ToolSet) : Option (Text × List Piece) :=
  match functionHeader block with
  | none => none
  | some (name, rest) =>
    (tools.get name).map fun tool =>
      (name, certainLoop env tool (rest.length + 1) rest [] [⟨['\x7b'], none⟩])

theorem certainLoop_isPrefix : ∀ (fuel : Nat) (rest : Text) (seen : List Text) (acc : List Piece),
    acc <+: certainLoop env tool fuel rest seen acc
  | 0, _, _, _ => prefix_rfl
  | fuel + 1, rest, seen, acc => by
    rw [certainLoop]
    cases written env tool rest seen with
    | nothing => exact prefix_rfl
    | finished =>
      exact (prefix_append _ _).trans (certainLoop_isPrefix fuel _ _ _)
    | _ => exact prefix_append _ _

theorem piecesLoop_eq : ∀ (fuel : Nat) (rest : Text) (seen : List Text) (acc : List Piece),
    certainLoop env tool fuel rest seen acc = piecesLoop env tool fuel rest seen acc ∨
      ∃ q, certainLoop env tool fuel rest seen acc = piecesLoop env tool fuel rest seen acc ++ [q]
  | 0, _, _, _ => .inl rfl
  | fuel + 1, rest, seen, acc => by
    rw [piecesLoop, certainLoop]
    cases written env tool rest seen with
    | refused => exact .inr ⟨_, rfl⟩
    | finished => exact piecesLoop_eq fuel _ _ _
    | _ => exact .inl rfl

theorem certainLoop_grows (hs : TextSound env tool) :
    ∀ (fuel fuel' : Nat) (rest more : Text) (seen : List Text) (acc : List Piece),
      rest.length < fuel → (rest ++ more).length < fuel' → acc ≠ [] →
      Grows (certainLoop env tool fuel rest seen acc)
        (certainLoop env tool fuel' (rest ++ more) seen acc) := by
  intro fuel
  induction fuel with
  | zero => intro fuel' rest more seen acc hlt; omega
  | succ fuel ih =>
    intro fuel' rest more seen acc hlt hlt' hne
    obtain ⟨fuel', rfl⟩ : ∃ n, fuel' = n + 1 := ⟨fuel' - 1, by omega⟩
    have he := written_append hs rest seen more
    rw [certainLoop]
    cases hw : written env tool rest seen with
    | nothing => exact .of_isPrefix hne (certainLoop_isPrefix _ _ _ _)
    | refused =>
      rw [hw] at he
      rw [certainLoop]
      cases hm : written env tool (rest ++ more) seen with
      | refused =>
        rw [hm] at he
        cases he
        exact .of_isPrefix (by simp) prefix_rfl
      | _ => rw [hm] at he; cases he
    | finished key raw textMode value next =>
      rw [hw] at he
      have hnext := written_length hw
      rw [certainLoop]
      cases hm : written env tool (rest ++ more) seen with
      | finished =>
        rw [hm] at he
        cases he
        rw [length_append] at hlt'
        exact ih fuel' next more _ _ (by omega) (by rw [length_append]; omega) (by simp)
      | _ => rw [hm] at he; cases he
    | started =>
      rw [hw] at he
      rw [certainLoop]
      cases hm : written env tool (rest ++ more) seen with
      | started =>
        rw [hm] at he
        cases he with
        | goesOn _ _ tail =>
          exact .of_last (.goesOn _ _ _ tail) prefix_rfl
      | finished =>
        rw [hm] at he
        cases he with
        | ends _ _ tail =>
          exact .of_last (.ends _ _ _ tail) (certainLoop_isPrefix _ _ _ _)
      | _ => rw [hm] at he; cases he
    | opened =>
      rw [hw] at he
      rw [certainLoop]
      cases hm : written env tool (rest ++ more) seen with
      | nothing => rw [hm] at he; cases he
      | opened =>
        rw [hm] at he
        cases he
        exact .of_isPrefix (by simp) prefix_rfl
      | refused =>
        rw [hm] at he
        cases he
        exact .of_isPrefix (by simp) prefix_rfl
      | started =>
        rw [hm] at he
        cases he
        refine .of_last (.opening _ _ _ ?_) prefix_rfl
        simp
      | finished =>
        rw [hm] at he
        cases he with
        | finished =>
          refine .of_last (.opening _ _ _ ?_) (certainLoop_isPrefix _ _ _ _)
          simp
        | text =>
          refine .of_last (.opening _ _ _ ?_) (certainLoop_isPrefix _ _ _ _)
          simp [Json.toText, quote]

variable {tools : ToolSet}

theorem certain_grows (hs : ∀ tool, tools.get name = some tool → TextSound env tool)
    (h : certain env block tools = some (name, before)) (more : Text) :
    ∃ after, certain env (block ++ more) tools = some (name, after) ∧ Grows before after := by
  unfold certain at h ⊢
  cases hh : functionHeader block with
  | none => rw [hh] at h; cases h
  | some header =>
    obtain ⟨name', rest⟩ := header
    rw [hh] at h
    rw [functionHeader_append hh more]
    obtain ⟨tool, ht, heq⟩ := Option.map_eq_some_iff.mp h
    cases heq
    dsimp only
    rw [ht]
    refine ⟨_, rfl, certainLoop_grows (hs tool ht) _ _ rest more _ _ ?_ ?_ ?_⟩
    · exact Nat.lt_succ_self _
    · exact Nat.lt_succ_self _
    · exact cons_ne_nil _ _

theorem pieces_eq {sent : List Piece} (h : pieces env block tools = some (name, sent)) :
    ∃ all, certain env block tools = some (name, all) ∧ (all = sent ∨ ∃ q, all = sent ++ [q]) := by
  unfold pieces at h
  unfold certain
  cases hh : functionHeader block with
  | none => rw [hh] at h; cases h
  | some header =>
    obtain ⟨name', rest⟩ := header
    rw [hh] at h
    obtain ⟨tool, ht, heq⟩ := Option.map_eq_some_iff.mp h
    cases heq
    dsimp only
    rw [ht]
    exact ⟨_, rfl, piecesLoop_eq _ _ _ _⟩

theorem piecesLoop_json : ∀ (fuel : Nat) (rest : Text) (seen : List Text) (acc : List Piece),
    (∀ piece ∈ acc, piece.json ≠ []) →
      ∀ piece ∈ piecesLoop env tool fuel rest seen acc, piece.json ≠ []
  | 0, _, _, _, ha => ha
  | fuel + 1, rest, seen, acc, ha => by
    have ho : ∀ count key, openJson count key ≠ [] := by simp [openJson]
    have hs : ∀ piece : Piece, piece.json ≠ [] → ∀ other ∈ acc ++ [piece], other.json ≠ [] := by
      intro piece hp other hoth
      rcases mem_append.mp hoth with hm | hm
      · exact ha other hm
      · rw [mem_singleton.mp hm]
        exact hp
    rw [piecesLoop]
    cases written env tool rest seen with
    | nothing => exact ha
    | refused => exact ha
    | opened => exact hs _ (ho _ _)
    | started => exact hs _ (by simp)
    | finished =>
      exact piecesLoop_json fuel _ _ _ (hs _ (by simp [ho]))

theorem piecesLoop_isPrefix : ∀ (fuel : Nat) (rest : Text) (seen : List Text) (acc : List Piece),
    acc <+: piecesLoop env tool fuel rest seen acc
  | 0, _, _, _ => prefix_rfl
  | fuel + 1, rest, seen, acc => by
    rw [piecesLoop]
    cases written env tool rest seen with
    | nothing => exact prefix_rfl
    | refused => exact prefix_rfl
    | finished =>
      exact (prefix_append _ _).trans (piecesLoop_isPrefix fuel _ _ _)
    | _ => exact prefix_append _ _

theorem piecesLoop_ne_nil (fuel : Nat) (rest : Text) (seen : List Text) {acc : List Piece}
    (h : acc ≠ []) : piecesLoop env tool fuel rest seen acc ≠ [] := by
  have hp : acc <+: piecesLoop env tool fuel rest seen acc := piecesLoop_isPrefix _ _ _ _
  intro hn
  rw [hn] at hp
  exact h (prefix_nil.mp hp)

theorem pieces_json {sent : List Piece} (h : pieces env block tools = some (name, sent)) :
    sent ≠ [] ∧ ∀ piece ∈ sent, piece.json ≠ [] := by
  unfold pieces at h
  split at h
  · cases h
  · obtain ⟨tool, ht, heq⟩ := Option.map_eq_some_iff.mp h
    cases heq
    exact ⟨piecesLoop_ne_nil _ _ _ (by simp), piecesLoop_json _ _ _ _ (by simp)⟩

end LocalAi.Tools
