import LocalAi.Lib.LastMax
import LocalAi.Ngram.Anchors

/-!
# Finding what followed the current suffix before

`find` visits every earlier anchor that equals the last `min_match` tokens, extends the match
backwards, and drafts what came after the longest one.  `scan` says the same of the sequences
alone: it looks at every place and knows no hashes, links or candidates.

* `extend_eq`: a match is extended to the common suffix.
* `visit_eq`: a visit adds the place's occurrence when there is something to draft.
-/

open List

namespace LocalAi.Ngram

open LocalAi.Lib

/-- The first id of the virtual image tokens, above the vocabulary. -/
def imageTokenBase : Token := 248320

def isImageToken (token : Token) : Bool := imageTokenBase ≤ token

structure LookupDraft where
  tokens : List Token
  matchLen : Nat
  occurrences : Nat
deriving DecidableEq

structure SuffixSession where
  /-- Remembered requests, newest first. -/
  stored : List Anchors
  /-- The prompt and every token appended since. -/
  current : Anchors

/-- The longest match so far and what came after each of that length, newest first. -/
structure Best where
  bestMatch : Nat
  candidates : List (List Token)

def extend (source current : List Token) (stop available : Nat) : (fuel matched : Nat) → Except Panic Nat
  | 0, _ => .error .endless
  | fuel + 1, matched =>
    if matched < available then do
      let before ← index source (stop - matched - 1)
      let token ← index current (current.length - matched - 1)
      if before = token then extend source current stop available fuel (matched + 1)
      else pure matched
    else pure matched

def continuationEnd (maxDrafts : Nat) (current : List Token) (own : Bool) (source : List Token)
    (stop matched : Nat) : Nat :=
  -- `end + max_drafts` is a sum of machine words.
  let reach := min ((stop + maxDrafts) % 2 ^ 64) source.length
  if own then min reach (current.length - matched) else reach

/-- The end before the first image token, if any token is left. -/
def cutAtImage (source : List Token) (stop reach : Nat) : Except Panic (Option Nat) := do
  let drafted ← slice source stop reach
  match drafted.findIdx? isImageToken with
  | none => pure (some reach)
  | some image => pure (if image = 0 then none else some (stop + image))

/-- A longer match starts the candidates anew, one of the same length joins them. -/
def Best.consider (best : Best) (source : List Token) (stop reach matched : Nat) :
    Except Panic Best :=
  let best := if best.bestMatch < matched then ⟨matched, []⟩ else best
  if matched = best.bestMatch then do
    let candidate ← slice source stop reach
    pure { best with candidates := best.candidates ++ [candidate] }
  else pure best

def visit (minMatch maxDrafts : Nat) (current : List Token) (own : Bool) (source : List Token)
    (best : Best) (stop : Nat) : Except Panic Best :=
  if source.length ≤ stop ∨ (own ∧ stop = current.length) then pure best
  else do
    let available := min stop current.length
    let matched ← extend source current stop available (available + 1) minMatch
    let reach := continuationEnd maxDrafts current own source stop matched
    if reach ≤ stop then pure best
    else do
      match ← cutAtImage source stop reach with
      | none => pure best
      | some reach => best.consider source stop reach matched

def counts (candidates : List (List Token)) : List Token → Option Nat :=
  candidates.foldl (fun counts candidate key =>
    if key = candidate then some ((counts key).getD 0 + 1) else counts key) fun _ => none

/-- Frequency wins, then the length, then the oldest. -/
def choose (best : Best) : Option LookupDraft :=
  let counts := counts best.candidates
  (lastMax (fun candidate : List Token × Nat =>
      toLex ((counts candidate.1).getD 0, toLex (candidate.1.length, candidate.2)))
    best.candidates.zipIdx).map fun winner =>
      ⟨winner.1, best.bestMatch, (counts winner.1).getD 1⟩

namespace SuffixSession

def append (session : SuffixSession) (token : Token) : SuffixSession :=
  { session with current := session.current.push token }

def find (session : SuffixSession) (maxDrafts : Nat) : Except Panic (Option LookupDraft) :=
  let minMatch := session.current.minMatch
  let current := session.current.tokens
  if minMatch = 0 ∨ maxDrafts = 0 ∨ current.length < minMatch then .ok none
  else do
    let anchor ← slice current (current.length - minMatch) current.length
    let key := mix session.current.hash
    let ends ← session.current.ends key anchor
    let best ← ends.foldlM (visit minMatch maxDrafts current true current) ⟨0, []⟩
    let best ← session.stored.foldlM (fun best stored => do
      let ends ← stored.ends key anchor
      ends.foldlM (visit minMatch maxDrafts current false stored.tokens) best) best
    pure (choose best)

end SuffixSession

/-! ### The exhaustive search -/

def commonPrefix : List Token → List Token → Nat
  | x :: xs, y :: ys => if x = y then commonPrefix xs ys + 1 else 0
  | _, _ => 0

/-- How many tokens two sequences share at their ends. -/
def commonSuffix (xs ys : List Token) : Nat := commonPrefix xs.reverse ys.reverse

/-- A place where the suffix occurs: how much of it, and what comes next. -/
structure Occurrence where
  matched : Nat
  continuation : List Token
deriving DecidableEq

/-- The occurrence that ends at `stop`.  What follows goes up to the start of the matched suffix
in the current sequence itself, to `maxDrafts` tokens and to the first image token. -/
def occurrence (maxDrafts : Nat) (current : List Token) (own : Bool) (source : List Token)
    (stop : Nat) : Occurrence :=
  let matched := commonSuffix (source.take stop) current
  let limit := if own then current.length - matched else source.length
  ⟨matched, ((((source.take limit).drop stop).take maxDrafts).takeWhile fun token =>
    !isImageToken token)⟩

/-- Every occurrence in `source` that something follows, newest first. -/
def occurrences (minMatch maxDrafts : Nat) (current : List Token) (own : Bool)
    (source : List Token) : List Occurrence :=
  ((Anchors.places source (lastTokens minMatch current)).map
    (occurrence maxDrafts current own source)).filter fun o => decide (o.continuation ≠ [])

/-- The longest match wins, then the most frequent continuation, then the longest, then the
oldest. -/
def pick (found : List Occurrence) : Option LookupDraft :=
  (lastMax (fun o => toLex (o.matched, toLex (found.count o, o.continuation.length))) found).map
    fun o => ⟨o.continuation, o.matched, found.count o⟩

/-- The exhaustive search in the current sequence and the remembered ones, newest first. -/
def scan (minMatch maxDrafts : Nat) (current : List Token) (stored : List (List Token)) :
    Option LookupDraft :=
  if current.length < minMatch then none
  else pick (occurrences minMatch maxDrafts current true current ++
    stored.flatMap (occurrences minMatch maxDrafts current false))

/-! ### Matches -/

variable {xs source : List Token} {found : List Occurrence}

variable {n i matched reach : Nat} {best : Best}

theorem commonPrefix_of_take {ys : List Token} (hxs : n ≤ xs.length) (hys : n ≤ ys.length)
    (h : xs.take n = ys.take n) :
    commonPrefix xs ys = n + commonPrefix (xs.drop n) (ys.drop n) := by
  induction n generalizing xs ys with
  | zero => rw [drop_zero, drop_zero, Nat.zero_add]
  | succ n ih =>
    cases xs with
    | nil => exact absurd hxs (Nat.not_succ_le_zero n)
    | cons =>
      cases ys with
      | nil => exact absurd hys (Nat.not_succ_le_zero n)
      | cons =>
        rw [take_succ_cons, take_succ_cons, cons.injEq] at h
        rw [commonPrefix, if_pos h.1, ih (Nat.le_of_succ_le_succ hxs) (Nat.le_of_succ_le_succ hys) h.2,
          drop_succ_cons, drop_succ_cons]
        omega

theorem commonPrefix_le (xs ys : List Token) : commonPrefix xs ys ≤ min xs.length ys.length := by
  induction xs generalizing ys with
  | nil => exact Nat.zero_le _
  | cons x xs ih =>
    cases ys with
    | nil => exact Nat.zero_le _
    | cons y ys =>
      rw [commonPrefix, length_cons, length_cons]
      have hle := ih ys
      split <;> omega

theorem index_reverse (hn : xs.length = n) (h : i < n) :
    index xs (n - i - 1) = index xs.reverse i := by
  unfold index
  rw [getElem?_reverse (by omega)]
  congr 2
  omega

theorem index_getElem (h : i < xs.length) : index xs i = .ok xs[i] :=
  elim_eq_ok.mpr (getElem?_eq_getElem h)

variable {stop : Nat}

theorem index_take (h : i < stop) : index (xs.take stop) i = index xs i := by
  unfold index
  rw [getElem?_take_of_lt h]

/-- **Extending a match** stops where the two sequences first differ, within both. -/
theorem extend_from {current : List Token} {stop fuel : Nat} (hst : stop ≤ source.length)
    (hf : min stop current.length - matched < fuel) :
    extend source current stop (min stop current.length) fuel matched = .ok (matched +
      commonPrefix ((source.take stop).reverse.drop matched) (current.reverse.drop matched)) := by
  have hl : (source.take stop).length = stop := by
    rw [length_take, Nat.min_eq_left hst]
  induction fuel generalizing matched with
  | zero => exact absurd hf (Nat.not_lt_zero _)
  | succ fuel ih =>
    rw [extend]
    by_cases hlt : matched < min stop current.length
    · have hs : matched < (source.take stop).reverse.length := by
        rw [length_reverse, hl]
        omega
      have hc : matched < current.reverse.length := by
        rw [length_reverse]
        omega
      have hb := index_getElem hs
      have ht := index_getElem hc
      rw [← index_reverse hl (by omega), index_take (by omega)] at hb
      rw [← index_reverse rfl (by omega)] at ht
      rw [if_pos hlt, drop_eq_getElem_cons hs, drop_eq_getElem_cons hc, commonPrefix]
      refine bind_eq_ok.mpr ⟨_, hb, bind_eq_ok.mpr ⟨_, ht, ?_⟩⟩
      by_cases heq : (source.take stop).reverse[matched] = current.reverse[matched]
      · rw [if_pos heq, if_pos heq, ih (by omega)]
        congr 1
        omega
      · rw [if_neg heq, if_neg heq]
        rfl
    · have hle := commonPrefix_le ((source.take stop).reverse.drop matched)
        (current.reverse.drop matched)
      rw [length_drop, length_drop, length_reverse, length_reverse, hl] at hle
      have hz : commonPrefix ((source.take stop).reverse.drop matched)
          (current.reverse.drop matched) = 0 := by omega
      rw [if_neg hlt, hz]
      rfl

theorem lastTokens_reverse {tokens : List Token} :
    (lastTokens n tokens).reverse = tokens.reverse.take n := by
  unfold lastTokens
  by_cases h : n ≤ tokens.length
  · rw [reverse_drop]
    congr 1
    omega
  · rw [Nat.sub_eq_zero_of_le (by omega), drop_zero, take_of_length_le]
    rw [length_reverse]
    omega

theorem length_lastTokens {tokens : List Token} (h : n ≤ tokens.length) :
    (lastTokens n tokens).length = n := by
  unfold lastTokens
  rw [length_drop]
  omega

theorem extend_eq {minMatch : Nat} {current : List Token} (hc : minMatch ≤ current.length)
    (hp : stop ∈ Anchors.places source (lastTokens minMatch current)) :
    extend source current stop (min stop current.length) (min stop current.length + 1) minMatch =
      .ok (commonSuffix (source.take stop) current) := by
  obtain ⟨hs, hlow, he⟩ := Anchors.mem_places.mp hp
  rw [length_lastTokens hc] at hlow he
  have hlen : (source.take stop).length = stop := by
    rw [length_take, Nat.min_eq_left hs]
  have ht : (source.take stop).reverse.take minMatch = current.reverse.take minMatch := by
    rw [← lastTokens_reverse, ← lastTokens_reverse, he]
  rw [extend_from hs (by omega)]
  unfold commonSuffix
  rw [commonPrefix_of_take (by rwa [length_reverse, hlen]) (by rwa [length_reverse]) ht]

/-! ### Visits -/

/-- An occurrence counts when no longer match is known, and alone when it is the longest. -/
def Best.add (best : Best) (o : Occurrence) : Best :=
  let best := if best.bestMatch < o.matched then ⟨o.matched, []⟩ else best
  if o.matched = best.bestMatch then
    { best with candidates := best.candidates ++ [o.continuation] }
  else best

theorem findIdx?_eq {p : Token → Bool} :
    xs.findIdx? p = if xs.findIdx p < xs.length then some (xs.findIdx p) else none := by
  split
  · next h => exact findIdx?_eq_some_iff_findIdx_eq.mpr ⟨h, rfl⟩
  · next h =>
    rw [findIdx?_eq_none_iff]
    intro x hx
    by_contra hne
    exact h (findIdx_lt_length_of_exists ⟨x, hx, by simpa using hne⟩)

theorem takeWhile_eq_take :
    (xs.takeWhile fun token => !isImageToken token) = xs.take (xs.findIdx isImageToken) := by
  rw [takeWhile_eq_take_findIdx_not]
  simp

theorem take_drop_take (limit stop maxDrafts : Nat) : ((xs.take limit).drop stop).take maxDrafts =
      (xs.take (min (stop + maxDrafts) limit)).drop stop := by
  rw [take_drop, take_take]

theorem slice_take (hr : reach ≤ source.length) (hn : stop + n ≤ reach) :
    slice source stop (stop + n) = .ok (((source.take reach).drop stop).take n) := by
  unfold slice
  rw [if_pos ⟨Nat.le_add_right stop n, by omega⟩, take_drop, take_take, Nat.min_eq_left hn]

theorem cutAtImage_eq (hr : reach ≤ source.length) (hlt : stop < reach) :
    cutAtImage source stop reach = .ok (
      if ((source.take reach).drop stop).findIdx isImageToken = 0 then none
      else some (stop + ((source.take reach).drop stop).findIdx isImageToken)) := by
  have hl : ((source.take reach).drop stop).length = reach - stop := by
    rw [length_drop, length_take]
    omega
  have hs : slice source stop (stop + (reach - stop)) =
      .ok (((source.take reach).drop stop).take (reach - stop)) :=
    slice_take hr (by omega)
  rw [Nat.add_sub_cancel' (Nat.le_of_lt hlt), take_of_length_le (Nat.le_of_eq hl)] at hs
  refine bind_eq_ok.mpr ⟨_, hs, ?_⟩
  rw [findIdx?_eq, hl]
  by_cases hi : ((source.take reach).drop stop).findIdx isImageToken < reach - stop
  · rw [if_pos hi]
    rfl
  · have hle : ((source.take reach).drop stop).findIdx isImageToken ≤ reach - stop := by
      rw [← hl]
      exact findIdx_le_length
    rw [if_neg hi, if_neg (by omega)]
    show Except.ok (some reach) = _
    congr 2
    omega

theorem consider_eq {candidate : List Token} (h : slice source stop reach = .ok candidate) :
    best.consider source stop reach matched = .ok (best.add ⟨matched, candidate⟩) := by
  unfold Best.consider Best.add
  generalize (if best.bestMatch < matched then ⟨matched, []⟩ else best : Best) = longest
  by_cases heq : matched = longest.bestMatch
  · rw [if_pos heq, if_pos heq, h]
    rfl
  · rw [if_neg heq, if_neg heq]
    rfl

section Visit

variable {minMatch maxDrafts : Nat} {current source : List Token} {own : Bool} {stop : Nat}

/-- Where the continuation ends before image tokens are looked for. -/
def limit (current : List Token) (own : Bool) (source : List Token) (matched : Nat) : Nat :=
  if own then current.length - matched else source.length

theorem limit_le (matched : Nat) (ho : own = true → source = current) :
    limit current own source matched ≤ source.length := by
  unfold limit
  split
  · next h =>
    rw [ho h]
    exact Nat.sub_le _ _
  · exact le_rfl

theorem continuationEnd_eq (ho : own = true → source = current)
    (hs : stop + maxDrafts < 2 ^ 64) : continuationEnd maxDrafts current own source stop matched =
      min (stop + maxDrafts) (limit current own source matched) := by
  have hle := limit_le matched ho
  unfold continuationEnd
  unfold limit at hle ⊢
  rw [Nat.mod_eq_of_lt hs]
  by_cases h : own = true
  · rw [if_pos h] at hle
    rw [if_pos h, if_pos h]
    omega
  · rw [if_neg h, if_neg h]

theorem occurrence_eq (hr : reach = min (stop + maxDrafts)
      (limit current own source (commonSuffix (source.take stop) current))) :
    occurrence maxDrafts current own source stop =
      ⟨commonSuffix (source.take stop) current, ((source.take reach).drop stop).take
        (((source.take reach).drop stop).findIdx isImageToken)⟩ := by
  subst hr
  unfold occurrence limit
  dsimp only
  rw [take_drop_take, takeWhile_eq_take]

theorem visit_eq (best : Best) (hc : minMatch ≤ current.length)
    (ho : own = true → source = current) (hsum : source.length + maxDrafts ≤ 2 ^ 64)
    (hp : stop ∈ Anchors.places source (lastTokens minMatch current)) :
    visit minMatch maxDrafts current own source best stop =
      .ok (if (occurrence maxDrafts current own source stop).continuation ≠ [] then
        best.add (occurrence maxDrafts current own source stop) else best) := by
  obtain ⟨reach, hr⟩ : ∃ reach, reach = min (stop + maxDrafts)
      (limit current own source (commonSuffix (source.take stop) current)) := ⟨_, rfl⟩
  have hw : reach ≤ source.length := by
    have hle := limit_le (commonSuffix (source.take stop) current) ho
    omega
  have hl : ((source.take reach).drop stop).length = reach - stop := by
    rw [length_drop, length_take, Nat.min_eq_left hw]
  rw [occurrence_eq hr]
  unfold visit
  by_cases he : source.length ≤ stop
  · -- Nothing is left of the source.
    have hn : (source.take reach).drop stop = [] := eq_nil_of_length_eq_zero (by omega)
    rw [if_pos (Or.inl he), hn, take_nil, if_neg (not_not.mpr rfl)]
    rfl
  · have hsk : ¬ (source.length ≤ stop ∨ own = true ∧ stop = current.length) := by
      rintro (hle | ⟨h, heq⟩)
      · exact he hle
      · rw [ho h] at he
        exact he (Nat.le_of_eq heq.symm)
    rw [if_neg hsk]
    refine bind_eq_ok.mpr ⟨_, extend_eq hc hp, ?_⟩
    rw [continuationEnd_eq ho (by omega), ← hr]
    by_cases hs : reach ≤ stop
    · -- A long match of the suffix with itself leaves nothing.
      have hn : (source.take reach).drop stop = [] := eq_nil_of_length_eq_zero (by omega)
      rw [if_pos hs, hn, take_nil, if_neg (not_not.mpr rfl)]
      rfl
    · rw [if_neg hs]
      refine bind_eq_ok.mpr ⟨_, cutAtImage_eq hw (by omega), ?_⟩
      have hi : ((source.take reach).drop stop).findIdx isImageToken ≤ reach - stop := by
        rw [← hl]
        exact findIdx_le_length
      by_cases hz : ((source.take reach).drop stop).findIdx isImageToken = 0
      · rw [if_pos hz, hz, take_zero, if_neg (not_not.mpr rfl)]
        rfl
      · have hne : ((source.take reach).drop stop).take
            (((source.take reach).drop stop).findIdx isImageToken) ≠ [] := by
          rw [ne_eq, take_eq_nil_iff, not_or]
          refine ⟨hz, fun hn => ?_⟩
          rw [hn, length_nil] at hl
          omega
        rw [if_neg hz, if_pos hne]
        exact consider_eq (slice_take hw (by omega))

end Visit

/-! ### The best occurrence -/

/-- What is known after some occurrences. -/
structure Best.Of (best : Best) (found : List Occurrence) : Prop where
  bound : ∀ o ∈ found, o.matched ≤ best.bestMatch
  reached : best.bestMatch ≠ 0 → ∃ o ∈ found, o.matched = best.bestMatch
  candidates : best.candidates =
    (found.filter fun o => decide (o.matched = best.bestMatch)).map (·.continuation)

theorem Best.of_nil : Best.Of ⟨0, []⟩ [] := ⟨by simp, fun h => absurd rfl h, rfl⟩

theorem Best.Of.add (h : best.Of found) (o : Occurrence) : (best.add o).Of (found ++ [o]) := by
  unfold Best.add
  by_cases hl : best.bestMatch < o.matched
  · rw [if_pos hl]
    rw [if_pos rfl]
    refine ⟨?_, fun _ => ⟨o, by simp, rfl⟩, ?_⟩
    · rw [forall_mem_append]
      exact ⟨fun x hx => (h.bound x hx).trans hl.le, by simp⟩
    · have hn : found.filter (fun x => decide (x.matched = o.matched)) = [] := by
        rw [filter_eq_nil_iff]
        intro x hx
        have hle := h.bound x hx
        simp only [decide_eq_true_eq]
        omega
      simp [hn]
  · rw [if_neg hl]
    by_cases he : o.matched = best.bestMatch
    · rw [if_pos he]
      refine ⟨?_, fun _ => ⟨o, by simp, he⟩, ?_⟩
      · rw [forall_mem_append]
        exact ⟨h.bound, by simp [he]⟩
      · dsimp only
        rw [filter_append, filter_cons_of_pos (by simp [he]), filter_nil,
          map_append, ← h.candidates]
        rfl
    · rw [if_neg he]
      refine ⟨?_, fun hne => ?_, ?_⟩
      · rw [forall_mem_append]
        exact ⟨h.bound, by simp; omega⟩
      · obtain ⟨x, hx, heq⟩ := h.reached hne
        exact ⟨x, mem_append_left _ hx, heq⟩
      · rw [filter_append, filter_cons_of_neg (by simp [he]), filter_nil,
          append_nil]
        exact h.candidates

theorem Best.Of.foldl (h : best.Of found) (more : List Occurrence) :
    (more.foldl Best.add best).Of (found ++ more) := by
  induction more generalizing best found with
  | nil => rwa [append_nil]
  | cons o more ih =>
    have hs := ih (h.add o)
    rwa [append_assoc] at hs

theorem counts_eq (candidates : List (List Token)) (key : List Token) :
    counts candidates key = if key ∈ candidates then some (candidates.count key) else none := by
  induction candidates using reverseRecOn with
  | nil => rfl
  | append_singleton candidates candidate ih =>
    have hs : counts (candidates ++ [candidate]) key =
        if key = candidate then some ((counts candidates key).getD 0 + 1)
        else counts candidates key := by
      unfold counts
      rw [foldl_append]
      rfl
    rw [hs, ih, count_append]
    by_cases heq : key = candidate
    · subst heq
      by_cases hm : key ∈ candidates
      · simp [hm]
      · simp [hm, count_eq_zero_of_not_mem hm]
    · have hne : ¬ candidate = key := fun h => heq h.symm
      simp [heq, hne]

theorem count_continuation {o : Occurrence} (h : o.matched = n) :
    ((found.filter fun x => decide (x.matched = n)).map (·.continuation)).count
      o.continuation = found.count o := by
  subst h
  induction found with
  | nil => rfl
  | cons x found ih =>
    rw [count_cons, ← ih]
    obtain ⟨matched, continuation⟩ := x
    obtain ⟨matched', continuation'⟩ := o
    by_cases heq : matched = matched'
    · rw [filter_cons_of_pos (by simpa using heq), map_cons, count_cons]
      simp [heq]
    · rw [filter_cons_of_neg (by simpa using heq)]
      simp [heq]

theorem Best.Of.longest (h : best.Of found) {o : Occurrence} (ho : o ∈ found)
    (hm : ∀ x ∈ found, x.matched ≤ o.matched) : o.matched = best.bestMatch := by
  have hle := h.bound o ho
  by_cases hz : best.bestMatch = 0
  · omega
  · obtain ⟨x, hx, heq⟩ := h.reached hz
    have hge := hm x hx
    omega

theorem choose_eq (best : Best) : choose best = (lastMax (fun candidate =>
    toLex (((counts best.candidates) candidate).getD 0, candidate.length)) best.candidates).map
      fun winner => ⟨winner, best.bestMatch, ((counts best.candidates) winner).getD 1⟩ := by
  have ht : (lastMax (fun candidate : List Token × Nat =>
      toLex (((counts best.candidates) candidate.1).getD 0, toLex (candidate.1.length, candidate.2)))
      best.candidates.zipIdx).map Prod.fst = lastMax (fun candidate =>
        toLex (((counts best.candidates) candidate).getD 0, candidate.length)) best.candidates := by
    refine lastMax_zipIdx fun x y i j hij => ?_
    simp only [Prod.Lex.toLex_le_toLex]
    omega
  rw [← ht, Option.map_map]
  rfl

/-- **The choice** among the longest matches is the best of all occurrences. -/
theorem choose_eq_pick (h : best.Of found) : choose best = pick found := by
  have hc : ∀ o ∈ found.filter (fun o => decide (o.matched = best.bestMatch)),
      counts best.candidates o.continuation = some (found.count o) := by
    intro o ho
    have hm := of_decide_eq_true (mem_filter.mp ho).2
    rw [counts_eq, h.candidates, if_pos (mem_map_of_mem ho), count_continuation hm]
  have hk : lastMax (fun candidate => toLex (((counts best.candidates) candidate).getD 0,
      candidate.length)) best.candidates =
      (lastMax (fun o => toLex (found.count o, o.continuation.length))
        (found.filter fun o => decide (o.matched = best.bestMatch))).map (·.continuation) := by
    conv_lhs => rw [h.candidates, lastMax_map]
    rw [← h.candidates]
    congr 1
    refine lastMax_congr fun o ho => ?_
    rw [hc o ho, Option.getD_some]
  rw [choose_eq, hk]
  unfold pick
  cases hp : lastMax (fun o : Occurrence => toLex (o.matched,
      toLex (found.count o, o.continuation.length))) found with
  | none =>
    rw [lastMax_eq_none.mp hp]
    rfl
  | some o =>
    have hmem := lastMax_mem hp
    have hm := h.longest hmem fun x hx => lastMax_first_le hp hx
    have hw := lastMax_filter hp
    rw [hm] at hw
    rw [hw, Option.map_some, Option.map_some, Option.map_some,
      hc o (mem_filter.mpr ⟨hmem, by simpa using hm⟩), hm, Option.getD_some]

/-! ### The lookup is the search -/

section Search

variable {minMatch maxDrafts : Nat} {current : List Token}

theorem slice_lastTokens : slice current (current.length - minMatch) current.length =
    .ok (lastTokens minMatch current) := by
  unfold slice lastTokens
  rw [if_pos ⟨Nat.sub_le _ _, le_rfl⟩, take_of_length_le le_rfl]

theorem visits_eq {own : Bool} {source : List Token} (best : Best)
    (hc : minMatch ≤ current.length) (ho : own = true → source = current)
    (hs : source.length + maxDrafts ≤ 2 ^ 64) :
    (Anchors.places source (lastTokens minMatch current)).foldlM
      (visit minMatch maxDrafts current own source) best =
      .ok ((occurrences minMatch maxDrafts current own source).foldl Best.add best) := by
  rw [foldlM_eq_foldl fun best stop hp => visit_eq best hc ho hs hp]
  unfold occurrences
  rw [foldl_filter, foldl_map]
  simp only [decide_eq_true_eq]

theorem occurrences_none {own : Bool} {source : List Token} :
    occurrences minMatch 0 current own source = [] := by
  unfold occurrences
  rw [filter_eq_nil_iff]
  intro o ho
  obtain ⟨stop, -, rfl⟩ := mem_map.mp ho
  simp [occurrence]

theorem storedVisits_eq {stored : List Anchors} (best : Best) (hc : minMatch ≤ current.length)
    (h : ∀ source ∈ stored, source.Linked ∧ source.minMatch = minMatch ∧
      source.tokens.length + maxDrafts ≤ 2 ^ 64) : stored.foldlM (fun best source => do
        let ends ← source.ends (mix (hashOf (lastTokens minMatch current)))
          (lastTokens minMatch current)
        ends.foldlM (visit minMatch maxDrafts current false source.tokens) best) best =
      .ok (((stored.map (·.tokens)).flatMap
        (occurrences minMatch maxDrafts current false)).foldl Best.add best) := by
  have hlen := length_lastTokens hc
  rw [flatMap_map, foldl_flatMap]
  refine foldlM_eq_foldl (fun best source hmem => ?_) best
  obtain ⟨hl, hmin, hs⟩ := h source hmem
  exact bind_eq_ok.mpr ⟨_, Anchors.ends_eq hl (hlen.trans hmin.symm),
    visits_eq best hc (fun h => absurd h Bool.false_ne_true) hs⟩

/-- **The lookup is the exhaustive search** when the indexes are linked. -/
theorem SuffixSession.find_eq_scan {session : SuffixSession} (hp : 0 < session.current.minMatch)
    (hr : session.current.Rolled) (hli : session.current.Linked) (hst : ∀ stored ∈ session.stored,
      stored.Linked ∧ stored.minMatch = session.current.minMatch ∧
        stored.tokens.length + maxDrafts ≤ 2 ^ 64)
    (hsum : session.current.tokens.length + maxDrafts ≤ 2 ^ 64) :
    session.find maxDrafts = .ok (scan session.current.minMatch maxDrafts session.current.tokens
      (session.stored.map (·.tokens))) := by
  unfold SuffixSession.find scan
  by_cases hs : session.current.tokens.length < session.current.minMatch
  · rw [if_pos hs, if_pos (Or.inr (Or.inr hs))]
  · rw [if_neg hs]
    by_cases hn : maxDrafts = 0
    · subst hn
      rw [if_pos (Or.inr (Or.inl rfl)), occurrences_none]
      have hf : (session.stored.map (·.tokens)).flatMap (occurrences session.current.minMatch 0
          session.current.tokens false) = [] := by
        rw [flatMap_eq_nil_iff]
        intro source _
        exact occurrences_none
      rw [hf]
      rfl
    · have hl := Nat.not_lt.mp hs
      have hlen := length_lastTokens hl
      rw [if_neg (by omega)]
      refine bind_eq_ok.mpr ⟨_, slice_lastTokens, ?_⟩
      rw [hr.hash]
      refine bind_eq_ok.mpr ⟨_, Anchors.ends_eq hli hlen, ?_⟩
      refine bind_eq_ok.mpr ⟨_, visits_eq ⟨0, []⟩ hl (fun _ => rfl) hsum, ?_⟩
      refine bind_eq_ok.mpr ⟨_, storedVisits_eq _ hl hst, ?_⟩
      rw [← foldl_append]
      exact congrArg Except.ok (choose_eq_pick (Best.of_nil.foldl _))

/-- A draft of the search can be verified: it has tokens, no more than asked for, and no image. -/
theorem scan_draft {stored : List (List Token)} {draft : LookupDraft}
    (h : scan minMatch maxDrafts current stored = some draft) :
    draft.tokens ≠ [] ∧ draft.tokens.length ≤ maxDrafts ∧
      ∀ token ∈ draft.tokens, isImageToken token = false := by
  have hf : ∀ own source, ∀ o ∈ occurrences minMatch maxDrafts current own source,
      o.continuation ≠ [] ∧ o.continuation.length ≤ maxDrafts ∧
        ∀ token ∈ o.continuation, isImageToken token = false := by
    intro own source o ho
    obtain ⟨hm, hne⟩ := mem_filter.mp ho
    obtain ⟨stop, -, rfl⟩ := mem_map.mp hm
    refine ⟨of_decide_eq_true hne, ?_, fun token ht => ?_⟩
    · exact ( takeWhile_prefix _).length_le.trans (length_take_le _ _)
    · simpa using all_eq_true.mp all_takeWhile token ht
  unfold scan at h
  split at h
  · cases h
  · obtain ⟨o, ho, rfl⟩ := Option.map_eq_some_iff.mp h
    rcases mem_append.mp (lastMax_mem ho) with ho | ho
    · exact hf _ _ o ho
    · obtain ⟨source, -, ho⟩ := mem_flatMap.mp ho
      exact hf _ _ o ho

end Search

end LocalAi.Ngram
