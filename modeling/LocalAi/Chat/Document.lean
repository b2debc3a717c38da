import LocalAi.Chat.Body

/-!
# The document of a whole answer

* `document`: the value the body's text is a document of.
* `wholeText_isDocument`: the text of a body that ended is that document.
* `not_isDocument_cut`: no part of the text of one that did not is a document.
-/

open List

namespace LocalAi.Chat

variable {L : Type}

/-! ### Numbers -/

theorem isDigit_digitChar : ∀ d < 10, isDigit (Nat.digitChar d) = true := by decide

theorem digitChar_ne_zero : ∀ d < 10, 0 < d → Nat.digitChar d ≠ '0' := by decide

theorem isDigits_toDigits (n : Nat) : isDigits (Nat.toDigits 10 n) = true := by
  rw [isDigits, Bool.and_eq_true, all_eq_true]
  refine ⟨by simp, ?_⟩
  induction n using Nat.strongRecOn with
  | ind n ih =>
    rw [Nat.toDigits_eq_if (by decide)]
    split
    · next hlt => simpa using isDigit_digitChar n hlt
    · intro c hc
      rcases mem_append.mp hc with hf | hl
      · exact ih (n / 10) (by omega) c hf
      · obtain rfl := mem_singleton.mp hl
        exact isDigit_digitChar (n % 10) (by omega)

theorem head?_toDigits {n : Nat} (hp : 0 < n) :
    (Nat.toDigits 10 n).head? ≠ some '0' := by
  induction n using Nat.strongRecOn with
  | ind n ih =>
    rw [Nat.toDigits_eq_if (by decide)]
    split
    · next hlt => simpa using digitChar_ne_zero n hlt hp
    · have hq := ih (n / 10) (by omega) (by omega)
      rwa [head?_append_of_ne_nil _ Nat.toDigits_ne_nil]

theorem isNumber_toDigits (n : Nat) : isNumber (Nat.toDigits 10 n) = true := by
  have hd := isDigits_toDigits n
  have ha : ∀ c ∈ Nat.toDigits 10 n, isDigit c = true := by
    rw [isDigits, Bool.and_eq_true, all_eq_true] at hd
    exact hd.2
  have hu : isUnsigned (Nat.toDigits 10 n) = true := by
    have hz : (Nat.toDigits 10 n == ['0'] || (Nat.toDigits 10 n).head? != some '0') = true := by
      rcases Nat.eq_zero_or_pos n with rfl | hp
      · rfl
      · simp [head?_toDigits hp]
    simp only [isUnsigned, takeWhile_eq_self_iff.mpr ha, dropWhile_eq_nil_iff.mpr ha,
      hd, hz, Bool.true_and]
    rfl
  unfold isNumber
  split
  · next heq =>
    have hm : isDigit '-' = true := ha '-' (by rw [heq]; exact mem_cons_self ..)
    cases hm
  · exact hu

theorem nat_printable (n : Nat) : (nat n).printable = true := isNumber_toDigits n

/-! ### The document -/

section Document

variable (printed : CallId → Text)

/-- The message's members behind its reasoning. -/
def messageRest (h : Heard L) : List (Text × Json) :=
  ("content".toList, contentJson h) ::
    ((if h.calls.isEmpty then [] else [("tool_calls".toList, messageCalls printed h.calls)]) ++
      [("role".toList, str "assistant")])

def message (h : Heard L) : Json :=
  .object (("reasoning_content".toList, .string h.reasoning) :: messageRest printed h)

/-- The choice's members behind its message. -/
def choiceRest (reply : Reply) (logprob : L → Json) (h : Heard L) (stats : Stats) :
    List (Text × Json) :=
  [("logprobs".toList, logprobsJson (heardLogprobs reply logprob h)),
    ("finish_reason".toList, .string (chatFinishReason stats.stopReason !h.calls.isEmpty))]

def choice (reply : Reply) (logprob : L → Json) (h : Heard L) (stats : Stats) : Json :=
  .object (("index".toList, nat 0) :: ("message".toList, message printed h) ::
    choiceRest reply logprob h stats)

/-- The whole answer to what was heard. -/
def document (reply : Reply) (logprob : L → Json) (h : Heard L) (stats : Stats) : Json :=
  .object (("choices".toList, .array [choice printed reply logprob h stats]) :: trailer reply stats)

/-- What `serde_json` was given holds only numbers it can print. -/
structure Printable (logprob : L → Json) (stats : Stats) : Prop where
  logprob : ∀ token, (logprob token).printable = true
  timings : stats.timings.printable = true
  speculation : stats.speculation.printable = true

variable {printed} {reply : Reply} {logprob : L → Json} {h : Heard L} {stats : Stats}

theorem trailer_printable (hp : Printable logprob stats) :
    membersPrintable (trailer reply stats) = true := by
  have hu : (usageJson stats).printable = true := by
    cases hs : stats.cacheSource <;>
      simp [usageJson, Json.printable, membersPrintable, nat_printable, hs,
        PromptCacheSource.json, str]
  simp [trailer, membersPrintable, nat_printable, hu, hp.timings, hp.speculation,
    Json.printable, str]

theorem itemsPrintable_of_all {items : List Json} (h : ∀ item ∈ items, item.printable = true) :
    itemsPrintable items = true := by
  induction items with
  | nil => rfl
  | cons item items ih =>
    rw [itemsPrintable, h item (mem_cons_self ..), Bool.true_and]
    exact ih fun other ho => h other (mem_cons_of_mem _ ho)

theorem choiceRest_printable (hp : Printable logprob stats) :
    membersPrintable (choiceRest reply logprob h stats) = true := by
  have hl : (logprobsJson (heardLogprobs reply logprob h)).printable = true := by
    unfold heardLogprobs
    split
    · have hi : itemsPrintable ((h.logprobs ++ h.owed).map logprob) = true := by
        refine itemsPrintable_of_all fun item hitem => ?_
        obtain ⟨token, -, rfl⟩ := mem_map.mp hitem
        exact hp.logprob token
      simp only [logprobsJson, Json.printable, membersPrintable, hi]
      rfl
    · rfl
  simp [choiceRest, membersPrintable, hl, Json.printable]

theorem messageCall_eq (index : Nat) (call : ToolCall) : messageCall printed index call =
      .object [("function".toList, .object [("name".toList, .string call.name),
        ("arguments".toList, .string (Responses.argumentsText call))]),
        ("id".toList, .string (printed call.id)), ("type".toList, str "function")] := by
  rfl

theorem messageRest_printable : membersPrintable (messageRest printed h) = true := by
  have hc : (messageCalls printed h.calls).printable = true := by
    refine itemsPrintable_of_all fun item hi => ?_
    obtain ⟨call, -, rfl⟩ := mem_map.mp hi
    rw [messageCall_eq]
    rfl
  have hco : (contentJson h).printable = true := by
    unfold contentJson
    split <;> rfl
  unfold messageRest
  split <;> simp [membersPrintable, hco, hc, str, Json.printable]

theorem blank_spaces (boundaries : Nat) : Blank (replicate boundaries ' ') := by
  intro c hc
  rw [eq_of_mem_replicate hc]
  rfl

theorem flatMap_members (members : List (Text × Json)) (hne : members ≠ []) :
    members.flatMap (fun member => ',' :: quote member.1 ++ ':' :: member.2.toText) =
      ',' :: membersText members := by
  induction members with
  | nil => exact absurd rfl hne
  | cons first members ih =>
    obtain ⟨key, value⟩ := first
    cases members with
    | nil => simp [membersText]
    | cons =>
      rw [flatMap_cons, ih (cons_ne_nil _ _), membersText]
      simp

theorem message_spells (boundaries : Nat) : Spells (.value (message printed h))
      ('\x7b' :: (quote "reasoning_content".toList ++
        ':' :: (replicate boundaries ' ' ++ quote h.reasoning) ++
          ',' :: membersText (messageRest printed h)) ++ ['\x7d']) := by
  refine .object (.consMember ?_ (membersText_spells _ messageRest_printable))
  have hv := Spells.padded (blank_spaces boundaries)
    (.string (interior_escape h.reasoning)) blank_nil
  rwa [append_nil] at hv

theorem streamHead_eq : streamHead =
    '\x7b' :: (quote "choices".toList ++ ':' :: '[' :: '\x7b' :: (quote "index".toList ++
      ':' :: ['0'] ++ ',' :: (quote "message".toList ++ ':' :: '\x7b' ::
        (quote "reasoning_content".toList ++ [':'])))) := by
  decide

theorem wholeText_eq (boundaries : Nat) : wholeText printed boundaries reply logprob h stats =
      '\x7b' :: (quote "choices".toList ++
        ':' :: ('[' :: ('\x7b' :: (quote "index".toList ++ ':' :: ['0'] ++
          ',' :: (quote "message".toList ++ ':' :: ('\x7b' :: (quote "reasoning_content".toList ++
              ':' :: (replicate boundaries ' ' ++ quote h.reasoning) ++
                ',' :: membersText (messageRest printed h)) ++ ['\x7d']) ++
            ',' :: membersText (choiceRest reply logprob h stats))) ++ ['\x7d']) ++ [']']) ++
        ',' :: membersText (trailer reply stats)) ++ ['\x7d'] := by
  have hr : ",\"content\":".toList ++ (contentJson h).toText ++ ((if h.calls.isEmpty then [] else
        ",\"tool_calls\":".toList ++ (messageCalls printed h.calls).toText) ++
          ",\"role\":\"assistant\"\x7d".toList) =
      ',' :: membersText (messageRest printed h) ++ ['\x7d'] := by
    have hco : ",\"content\":".toList = ',' :: quote "content".toList ++ [':'] := by decide
    have hca : ",\"tool_calls\":".toList = ',' :: quote "tool_calls".toList ++ [':'] := by
      decide
    have hro : ",\"role\":\"assistant\"\x7d".toList =
        ',' :: quote "role".toList ++ ':' :: (str "assistant").toText ++ ['\x7d'] := by
      decide
    rw [hco, hca, hro, messageRest]
    cases h.calls.isEmpty with
    | true => simp [membersText]
    | false => simp [membersText]
  have hc : ",\"logprobs\":".toList ++ (logprobsJson (heardLogprobs reply logprob h)).toText ++
      ",\"finish_reason\":".toList ++ quote (chatFinishReason stats.stopReason !h.calls.isEmpty) =
      ',' :: membersText (choiceRest reply logprob h stats) := by
    have hl : ",\"logprobs\":".toList = ',' :: quote "logprobs".toList ++ [':'] := by decide
    have hf : ",\"finish_reason\":".toList =
        ',' :: quote "finish_reason".toList ++ [':'] := by decide
    rw [hl, hf, choiceRest]
    simp [membersText, Json.toText]
  have hcl : "\x7d]".toList = ['\x7d', ']'] := by decide
  have ht := flatMap_members (trailer reply stats) (cons_ne_nil _ _)
  calc wholeText printed boundaries reply logprob h stats
    _ = streamHead ++ (replicate boundaries ' ' ++ quote h.reasoning) ++
        (",\"content\":".toList ++ (contentJson h).toText ++ ((if h.calls.isEmpty then [] else
            ",\"tool_calls\":".toList ++ (messageCalls printed h.calls).toText) ++
              ",\"role\":\"assistant\"\x7d".toList)) ++
        (",\"logprobs\":".toList ++ (logprobsJson (heardLogprobs reply logprob h)).toText ++
          ",\"finish_reason\":".toList ++
            quote (chatFinishReason stats.stopReason !h.calls.isEmpty)) ++ "\x7d]".toList ++
        ((trailer reply stats).flatMap fun member =>
          ',' :: quote member.1 ++ ':' :: member.2.toText) ++ ['\x7d'] := by
      simp only [wholeText, streamTail, append_assoc]
    _ = _ := by
      rw [hr, hc, hcl, ht, streamHead_eq]
      simp only [append_assoc, cons_append, nil_append]

theorem wholeText_isDocument (hp : Printable logprob stats) (boundaries : Nat) :
    IsDocument (document printed reply logprob h stats)
      (wholeText printed boundaries reply logprob h stats) := by
  have hi : Spells (.padded (nat 0)) ['0'] := (Spells.number rfl).tight
  rw [wholeText_eq]
  refine (Spells.object (.consMember (Spells.array (.lastItem ?_)).tight
    (membersText_spells _ (trailer_printable hp)))).tight
  exact (Spells.object (.consMember hi (.consMember (message_spells boundaries).tight
    (membersText_spells _ (choiceRest_printable hp))))).tight

/-! ### A body that was cut -/

def StaysAbove (depth : Nat) (s : Scan) (text : Text) : Prop :=
  ∀ front, front <+: text → depth ≤ (scan s front).depth

variable {depth : Nat}

theorem staysAbove_append {s : Scan} {a b : Text} (ha : StaysAbove depth s a)
    (hb : StaysAbove depth (scan s a) b) : StaysAbove depth s (a ++ b) := by
  intro front hf
  rcases prefix_or_prefix_of_prefix hf (prefix_append a b) with hle | ⟨more, rfl⟩
  · exact ha front hle
  · rw [scan_append]
    exact hb more ((prefix_append_right_inj a).mp hf)

variable {depth d : Nat}

theorem staysAbove_step {s : Scan} (hs : depth ≤ s.depth) {text : Text}
    (h : ∀ c ∈ text, c ≠ ']' ∧ c ≠ '\x7d') : StaysAbove depth s text := by
  intro front hf
  have hf' : ∀ c ∈ front, c ≠ ']' ∧ c ≠ '\x7d' := fun c hc => h c (hf.subset hc)
  clear hf h
  induction front generalizing s with
  | nil => exact hs
  | cons c front ih =>
    have hc := hf' c (mem_cons_self ..)
    refine ih ?_ fun c' hc' => hf' c' (mem_cons_of_mem _ hc')
    unfold Scan.step
    split
    · split
      · exact hs
      split
      · exact Nat.le_succ_of_le hs
      split
      · next hcl => exact absurd hcl (by simp [hc])
      · exact hs
    · split
      · exact hs
      split
      · exact hs
      · exact hs
    · exact hs

theorem staysAbove_plain (hd : depth ≤ d) {c : Char} (hq : c ≠ '"')
    (hb : c ≠ '\\') : StaysAbove depth ⟨d, .string⟩ [c] := by
  intro front hf
  rcases prefix_cons_iff.mp hf with rfl | ⟨rest, rfl, hr⟩
  · exact hd
  · rw [prefix_nil.mp hr, scan_cons, step_string hq hb]
    exact hd

theorem staysAbove_interior (hd : depth ≤ d) {value text : Text}
    (h : Interior value text) : StaysAbove depth ⟨d, .string⟩ text := by
  have hu : ∀ {a b c e : Char} {n : Nat}, codeUnit a b c e = some n →
      StaysAbove depth ⟨d, .string⟩ ['\\', 'u', a, b, c, e] := by
    intro a b c e n hco
    have hne : ∀ x, (hexValue x).isSome = true → x ≠ ']' ∧ x ≠ '\x7d' := by
      intro x hx
      constructor
      · rintro rfl
        cases hx
      · rintro rfl
        cases hx
    obtain ⟨ha, hb, hc, he⟩ := codeUnit_hex hco
    refine staysAbove_step hd ?_
    simp only [forall_mem_cons, not_mem_nil, false_implies, implies_true, and_true]
    exact ⟨by decide, by decide, hne a ha, hne b hb, hne c hc, hne e he⟩
  induction h with
  | nil =>
    intro front hf
    rw [prefix_nil.mp hf]
    exact hd
  | @plain c value text _ quote backslash _ ih =>
    refine staysAbove_append (a := [c]) (staysAbove_plain hd quote backslash) ?_
    rw [scan_cons, step_string quote backslash]
    exact ih
  | @short e c value text escape _ ih =>
    refine staysAbove_append (a := ['\\', e]) (staysAbove_step hd ?_) ih
    simp only [forall_mem_cons, not_mem_nil, false_implies, implies_true, and_true]
    refine ⟨by decide, ?_, ?_⟩
    · rintro rfl
      cases escape
    · rintro rfl
      cases escape
  | @unit a b c e n value text hex _ _ ih =>
    refine staysAbove_append (a := ['\\', 'u', a, b, c, e]) (hu hex) ?_
    rw [scan_codeUnit hex]
    exact ih
  | @pair a b c e a' b' c' e' high low value text first second _ _ _ ih =>
    refine staysAbove_append (a := ['\\', 'u', a, b, c, e]) (hu first) ?_
    rw [scan_codeUnit first]
    refine staysAbove_append (a := ['\\', 'u', a', b', c', e']) (hu second) ?_
    rw [scan_codeUnit second]
    exact ih

theorem staysAbove_fixed {depth : Nat} {s : Scan} (hs : depth ≤ s.depth) {text : Text}
    (h : (text.all fun c => decide (c ≠ ']' ∧ c ≠ '\x7d')) = true) : StaysAbove depth s text :=
  staysAbove_step hs fun c hc => of_decide_eq_true (all_eq_true.mp h c hc)

theorem staysAbove_opened (hd : depth ≤ d) (text : Text) :
    StaysAbove depth ⟨d, .outside⟩ ('"' :: escape text) :=
  staysAbove_append (a := ['"']) (staysAbove_fixed hd (by decide))
    (staysAbove_interior hd (interior_escape text))

theorem staysAbove_quote (hd : depth ≤ d) (text : Text) :
    StaysAbove depth ⟨d, .outside⟩ (quote text) := by
  have ho : scan ⟨d, .outside⟩ ('"' :: escape text) = ⟨d, .string⟩ :=
    scan_interior (interior_escape text) d
  refine staysAbove_append (staysAbove_opened hd text) ?_
  rw [ho]
  exact staysAbove_fixed hd (by decide)

/-- The text of a body that did not end leaves its document open everywhere. -/
theorem staysAbove_written (boundaries : Nat) (h : Heard L) :
    StaysAbove 1 ⟨1, .outside⟩ ((writtenText boundaries h).drop 1) := by
  have hs : StaysAbove 1 ⟨4, .outside⟩ (replicate boundaries ' ') := by
    refine staysAbove_step (by decide) fun c hc => ?_
    rw [eq_of_mem_replicate hc]
    decide
  have hb : scan ⟨4, .outside⟩ (replicate boundaries ' ') = ⟨4, .outside⟩ :=
    scan_blank (blank_spaces boundaries) 4
  have hh : StaysAbove 1 ⟨1, .outside⟩ (streamHead.drop 1) :=
    staysAbove_fixed (by decide) (by decide)
  have hd : scan ⟨1, .outside⟩ (streamHead.drop 1) = ⟨4, .outside⟩ := by decide
  have hsp : (writtenText boundaries h).drop 1 =
      streamHead.drop 1 ++ (replicate boundaries ' ' ++
        if h.answered then quote h.reasoning ++ (",\"content\":".toList ++ '"' :: escape h.content)
        else if h.reasoned then '"' :: escape h.reasoning else []) := by
    rw [writtenText, append_assoc, drop_append_of_le_length (by decide)]
    simp only [append_assoc]
  rw [hsp]
  refine staysAbove_append hh ?_
  rw [hd]
  refine staysAbove_append hs ?_
  rw [hb]
  split
  · refine staysAbove_append (staysAbove_quote (by decide) _) ?_
    have hq : scan ⟨4, .outside⟩ (quote h.reasoning) = ⟨4, .outside⟩ :=
      scan_quoted (interior_escape h.reasoning) 4
    rw [hq]
    refine staysAbove_append (staysAbove_fixed (by decide) (by decide)) ?_
    exact staysAbove_opened (by decide) h.content
  · split
    · exact staysAbove_opened (by decide) h.reasoning
    · exact staysAbove_step (by decide) (by simp)

theorem not_isDocument_cut {boundaries : Nat} {h : Heard L} {front : Text}
    (hf : front <+: writtenText boundaries h) (value : Json) : ¬ IsDocument value front := by
  intro hdoc
  have hc := scan_spells hdoc 0
  cases front with
  | nil => exact hdoc.ne_nil rfl
  | cons c front =>
    obtain ⟨rest, hr⟩ : ∃ rest, writtenText boundaries h = '\x7b' :: rest := by
      rw [writtenText, streamHead_eq]
      exact ⟨_, rfl⟩
    rw [hr, cons_prefix_cons] at hf
    obtain ⟨rfl, hf⟩ := hf
    have hd := staysAbove_written boundaries h front (by rw [hr]; exact hf)
    rw [scan_cons] at hc
    rw [show Scan.mk 1 .outside = Scan.step ⟨0, .outside⟩ '\x7b' from rfl, hc] at hd
    exact absurd hd (by decide)

end Document
end LocalAi.Chat