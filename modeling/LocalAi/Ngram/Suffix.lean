import LocalAi.Ngram.Find
import Mathlib.Algebra.Order.BigOperators.Group.List

/-!
# Suffix lookup over remembered requests

The store keeps the last requests and indexes them when a session needs them.  After any use of
the store and any tokens appended to a session, a lookup finds what an exhaustive search of the
current sequence and the remembered ones finds.

* `SuffixStore.Valid`: the requests are few, short, and indexed from their tokens.
* `SuffixStore.run_valid`: whatever is remembered, the store stays valid.
* `SuffixStore.store_settles`: it stays within its limits and keeps the newest request.
* `lookup_exhaustive`: the lookup is the search.
* `lookup_misses_at_word_size`: where ends and sums outgrow their words, it is not.
-/

open List

namespace LocalAi.Ngram

open LocalAi.Lib

def maxStoredRequests : Nat := 8

def maxStoredTokens : Nat := 131072

structure SuffixStore where
  /-- Oldest first. -/
  requests : List Anchors
  tokens : Nat

namespace SuffixStore

/-- The requests of a session, newest first, indexed for its `min_match`. -/
def session (store : SuffixStore) (prompt : List Token) (minMatch : Nat) :
    SuffixStore × SuffixSession :=
  let requests := store.requests.map fun request =>
    if request.minMatch ≠ minMatch then Anchors.new request.tokens minMatch else request
  ({ store with requests }, ⟨requests.reverse, Anchors.new prompt minMatch⟩)

/-- A long match of the suffix with itself leaves only what comes before it. -/
example : ((⟨[], 0⟩ : SuffixStore).session (List.replicate 12 1) 3).2.find 8 =
    .ok (some ⟨[1, 1], 5, 1⟩) := by decide

/-- Drop the oldest requests while there are too many; the counter of their tokens must hold what
each of them takes. -/
def evict : List Anchors → Nat → Except Panic SuffixStore
  | [], tokens => if maxStoredTokens < tokens then .error .endless else .ok ⟨[], tokens⟩
  | removed :: requests, tokens =>
    if maxStoredRequests < requests.length + 1 ∨ maxStoredTokens < tokens then
      if tokens < removed.tokens.length then .error .underflow
      else evict requests (tokens - removed.tokens.length)
    else .ok ⟨removed :: requests, tokens⟩

def remember (store : SuffixStore) (request : List Token) : Except Panic SuffixStore :=
  let request :=
    if maxStoredTokens < request.length then request.drop (request.length - maxStoredTokens)
    else request
  evict (store.requests ++ [Anchors.unindexed request]) (store.tokens + request.length)

inductive Step
  | remember (request : List Token)
  | session (prompt : List Token) (minMatch : Nat)

def step (store : SuffixStore) : Step → Except Panic SuffixStore
  | .remember request => store.remember request
  | .session prompt minMatch => .ok (store.session prompt minMatch).1

def run (steps : List Step) : Except Panic SuffixStore := steps.foldlM step ⟨[], 0⟩

/-- The requests that were remembered, as far as one is kept. -/
def remembered (steps : List Step) : List (List Token) :=
  steps.filterMap fun
    | .remember request => some (lastTokens maxStoredTokens request)
    | .session _ _ => none

/-! ### The store stays valid -/

def texts (requests : List Anchors) : List (List Token) := requests.map (·.tokens)

/-- The requests are few and short, and every index was built from its tokens. -/
structure Valid (store : SuffixStore) : Prop where
  tokens : store.tokens = ((texts store.requests).map List.length).sum
  few : store.requests.length ≤ maxStoredRequests
  bounded : store.tokens ≤ maxStoredTokens
  built : ∀ request ∈ store.requests, request = Anchors.unindexed request.tokens ∨
    request = Anchors.new request.tokens request.minMatch

theorem valid_empty : Valid ⟨[], 0⟩ := ⟨rfl, by decide, by decide, by simp⟩

/-- What the loop takes from the counter is in it, and leaves the sum of the others. -/
theorem counter_sub {removed : Anchors} {requests : List Anchors} {tokens : Nat}
    (ht : tokens = ((texts (removed :: requests)).map length).sum) :
    removed.tokens.length ≤ tokens ∧
      tokens - removed.tokens.length = ((texts requests).map length).sum := by
  have hs : ((texts (removed :: requests)).map length).sum =
      removed.tokens.length + ((texts requests).map length).sum := rfl
  omega

theorem evict_ok {requests : List Anchors} (tokens : Nat)
    (ht : tokens = ((texts requests).map length).sum) :
    ∃ store, evict requests tokens = .ok store ∧ store.requests <:+ requests ∧
      store.tokens = ((texts store.requests).map length).sum ∧
      store.requests.length ≤ maxStoredRequests ∧ store.tokens ≤ maxStoredTokens := by
  induction requests generalizing tokens with
  | nil =>
    subst ht
    exact ⟨⟨[], 0⟩, rfl, suffix_refl _, rfl, by decide, by decide⟩
  | cons removed requests ih =>
    rw [evict]
    by_cases hm : maxStoredRequests < requests.length + 1 ∨ maxStoredTokens < tokens
    · obtain ⟨hle, hsub⟩ := counter_sub ht
      obtain ⟨store, hs, hsuf, hr⟩ := ih _ hsub
      rw [if_pos hm, if_neg (Nat.not_lt.mpr hle)]
      exact ⟨store, hs, hsuf.trans (suffix_cons _ _), hr⟩
    · rw [if_neg hm]
      refine ⟨_, rfl, suffix_refl _, ht, ?_, ?_⟩
      · rw [length_cons]
        omega
      · dsimp only
        omega

theorem remember_eq (store : SuffixStore) (request : List Token) : store.remember request =
    evict (store.requests ++ [Anchors.unindexed (lastTokens maxStoredTokens request)])
      (store.tokens + (lastTokens maxStoredTokens request).length) := by
  have hc : (if maxStoredTokens < request.length then
      request.drop (request.length - maxStoredTokens) else request) =
      lastTokens maxStoredTokens request := by
    unfold lastTokens
    split
    · rfl
    · next hs => rw [Nat.sub_eq_zero_of_le (Nat.not_lt.mp hs), drop_zero]
  unfold remember
  rw [hc]

variable {store : SuffixStore}

theorem Valid.counted (h : store.Valid) (kept : List Token) : store.tokens + kept.length =
      ((texts (store.requests ++ [Anchors.unindexed kept])).map length).sum := by
  unfold texts
  rw [h.tokens, map_append, map_append, sum_append, map_singleton,
    map_singleton, sum_singleton, Anchors.unindexed_tokens]
  rfl

theorem remember_ok (h : store.Valid) (request : List Token) :
    ∃ store', store.remember request = .ok store' ∧ store'.Valid ∧
      texts store'.requests <:+ texts store.requests ++ [lastTokens maxStoredTokens request] := by
  rw [remember_eq]
  generalize lastTokens maxStoredTokens request = kept
  obtain ⟨store', hs', hsuf, ht', hf, hb⟩ := evict_ok _ (h.counted kept)
  refine ⟨store', hs', ⟨ht', hf, hb, fun r hr => ?_⟩, ?_⟩
  · rcases mem_append.mp (hsuf.mem hr) with hr | hr
    · exact h.built r hr
    · rw [mem_singleton.mp hr, Anchors.unindexed_tokens]
      exact Or.inl rfl
  · have hm := hsuf.map (·.tokens)
    rwa [map_append, map_singleton, Anchors.unindexed_tokens] at hm

theorem session_texts (store : SuffixStore) (prompt : List Token) (minMatch : Nat) :
    texts (store.session prompt minMatch).1.requests = texts store.requests := by
  unfold texts session
  rw [map_map]
  refine map_congr_left fun request _ => ?_
  dsimp only [Function.comp_apply]
  split
  · exact Anchors.new_tokens _ _
  · rfl

theorem Valid.session (h : store.Valid) (prompt : List Token)
    (minMatch : Nat) : (store.session prompt minMatch).1.Valid := by
  refine ⟨?_, ?_, h.bounded, fun request hr => ?_⟩
  · rw [session_texts]
    exact h.tokens
  · show (map _ store.requests).length ≤ _
    rw [length_map]
    exact h.few
  · obtain ⟨old, hold, rfl⟩ := mem_map.mp hr
    split
    · rw [Anchors.new_tokens, Anchors.new_minMatch]
      exact Or.inr rfl
    · exact h.built old hold

theorem run_concat {steps : List Step} (h : run steps = .ok store)
    (last : Step) : run (steps ++ [last]) = store.step last := by
  unfold run at h ⊢
  rw [foldlM_append, h]
  exact bind_pure (store.step last)

theorem run_valid (steps : List Step) : ∃ store, run steps = .ok store ∧ store.Valid ∧
    texts store.requests <:+ remembered steps := by
  induction steps using reverseRecOn with
  | nil => exact ⟨⟨[], 0⟩, rfl, valid_empty, suffix_refl _⟩
  | append_singleton steps last ih =>
    obtain ⟨store, hr, hv, hsuf⟩ := ih
    rw [run_concat hr]
    unfold remembered at hsuf ⊢
    rw [filterMap_append]
    cases last with
    | remember request =>
      obtain ⟨store', hs', hv', hk⟩ := remember_ok hv request
      refine ⟨store', hs', hv', hk.trans ?_⟩
      obtain ⟨older, holder⟩ := hsuf
      refine ⟨older, ?_⟩
      rw [← append_assoc, holder]
      rfl
    | session prompt minMatch =>
      refine ⟨_, rfl, hv.session prompt minMatch, ?_⟩
      rw [session_texts, filterMap_cons_none rfl, filterMap_nil, append_nil]
      exact hsuf

/-- Where the counter is right, the loop ends before the newest request. -/
theorem evict_newest {front : List Anchors} {newest : Anchors} {tokens : Nat}
    (hn : newest.tokens.length ≤ maxStoredTokens)
    (ht : tokens = ((texts (front ++ [newest])).map length).sum)
    (h : evict (front ++ [newest]) tokens = .ok store) : store.requests.getLast? = some newest := by
  induction front generalizing tokens with
  | nil =>
    have hl : tokens = newest.tokens.length := ht
    rw [nil_append, evict, if_neg (by rw [length_nil, maxStoredRequests]; omega)] at h
    cases h
    rfl
  | cons removed front ih =>
    rw [cons_append, evict] at h
    split at h
    · split at h
      · cases h
      · exact ih (counter_sub ht).2 h
    · cases h
      rw [← cons_append]
      exact getLast?_concat

theorem run_newest {steps : List Step} (h : run steps = .ok store) :
    (texts store.requests).getLast? = (remembered steps).getLast? := by
  induction steps using reverseRecOn generalizing store with
  | nil =>
    cases h
    rfl
  | append_singleton steps last ih =>
    obtain ⟨before, hr, hv, -⟩ := run_valid steps
    rw [run_concat hr] at h
    unfold remembered at ih ⊢
    rw [filterMap_append]
    cases last with
    | remember request =>
      have hl : (lastTokens maxStoredTokens request).length ≤ maxStoredTokens := by
        rw [lastTokens, length_drop]
        omega
      have h := (remember_eq before request).symm.trans h
      rw [show [Step.remember request].filterMap _ = [lastTokens maxStoredTokens request] from rfl]
      generalize lastTokens maxStoredTokens request = kept at hl h ⊢
      have hn : store.requests.getLast? = some (Anchors.unindexed kept) :=
        evict_newest hl (hv.counted kept) h
      rw [texts, getLast?_map, hn, getLast?_concat]
      rfl
    | session prompt minMatch =>
      cases h
      rw [session_texts, ih hr]
      exact congrArg getLast? (append_nil _).symm

/-- **The store settles**: after any requests, of any length, and any sessions between them, its
counter is the sum of the lengths it stores, there are few requests and few tokens, and the newest
request is kept, or its end. -/
theorem store_settles (steps : List Step) : ∃ store, run steps = .ok store ∧
    store.tokens = ((texts store.requests).map length).sum ∧
    store.requests.length ≤ maxStoredRequests ∧ store.tokens ≤ maxStoredTokens ∧
    (texts store.requests).getLast? = (remembered steps).getLast? := by
  obtain ⟨store, hr, hv, -⟩ := run_valid steps
  exact ⟨store, hr, hv.tokens, hv.few, hv.bounded, run_newest hr⟩

theorem Valid.indexed (h : store.Valid) {prompt : List Token} {minMatch : Nat}
    (hp : 0 < minMatch) {source : Anchors}
    (hso : source ∈ (store.session prompt minMatch).2.stored) :
    source.Linked ∧ source.minMatch = minMatch ∧ source.tokens.length ≤ maxStoredTokens := by
  have hm : source ∈ (store.session prompt minMatch).1.requests := mem_reverse.mp hso
  have hv := h.session prompt minMatch
  have hl : source.tokens.length ≤ maxStoredTokens := by
    refine le_trans ?_ hv.bounded
    rw [hv.tokens]
    exact le_sum_of_mem (mem_map_of_mem (mem_map_of_mem hm))
  have hs : source.tokens.length < 2 ^ 32 - 1 := by
    unfold maxStoredTokens at hl
    omega
  have hmin : source.minMatch = minMatch := by
    obtain ⟨old, -, rfl⟩ := mem_map.mp hm
    split
    · exact Anchors.new_minMatch _ _
    · next hsa => exact not_not.mp hsa
  refine ⟨?_, hmin, hl⟩
  rcases hv.built source hm with hb | hb
  · rw [hb]
    exact Anchors.unindexed_linked hs
  · rw [hb, hmin]
    exact Anchors.new_linked hp hs

end SuffixStore

/-! ### Lookups -/

theorem new_append (prompt appended : List Token) (minMatch : Nat) :
    appended.foldl Anchors.push (Anchors.new prompt minMatch) =
      Anchors.new (prompt ++ appended) minMatch := by
  unfold Anchors.new
  rw [foldl_append]

theorem appended_eq (session : SuffixSession) (appended : List Token) :
    appended.foldl SuffixSession.append session =
      { session with current := appended.foldl Anchors.push session.current } := by
  induction appended generalizing session with
  | nil => rfl
  | cons token appended ih => exact ih (session.append token)

open SuffixStore in
/-- **Suffix lookup is exhaustive search**: after any use of the store and any tokens appended, the
lookup finds what the search of the current sequence and the remembered requests finds, and its
hash is that of the last `min_match` tokens. -/
theorem lookup_exhaustive (steps : List Step) (prompt appended : List Token)
    {minMatch maxDrafts : Nat} (hpos : 1 ≤ minMatch)
    (hshort : (prompt ++ appended).length < 2 ^ 32 - 1)
    (hdrafts : max (prompt ++ appended).length maxStoredTokens + maxDrafts ≤ 2 ^ 64) :
    ∃ store session, run steps = .ok store ∧ texts store.requests <:+ remembered steps ∧
      session = appended.foldl SuffixSession.append (store.session prompt minMatch).2 ∧
      session.current.hash = hashOf (lastTokens minMatch (prompt ++ appended)) ∧
      session.find maxDrafts =
        .ok (scan minMatch maxDrafts (prompt ++ appended) (texts store.requests).reverse) ∧
      ∀ draft, session.find maxDrafts = .ok (some draft) → draft.tokens ≠ [] ∧
        draft.tokens.length ≤ maxDrafts ∧ ∀ token ∈ draft.tokens, isImageToken token = false := by
  obtain ⟨store, hrun, hv, hsuf⟩ := run_valid steps
  obtain ⟨session, hse⟩ : ∃ session, session =
    appended.foldl SuffixSession.append (store.session prompt minMatch).2 := ⟨_, rfl⟩
  have hc : session.current = Anchors.new (prompt ++ appended) minMatch := by
    rw [hse, appended_eq]
    exact new_append prompt appended minMatch
  have hst : session.stored = (store.session prompt minMatch).2.stored := by
    rw [hse, appended_eq]
  have hm : session.current.minMatch = minMatch := by
    rw [hc, Anchors.new_minMatch]
  have ht : session.current.tokens = prompt ++ appended := by
    rw [hc, Anchors.new_tokens]
  have hr : session.current.Rolled := by
    rw [hc]
    exact Anchors.new_rolled _ hpos
  have hl : session.current.Linked := by
    rw [hc]
    exact Anchors.new_linked hpos hshort
  have hte : session.stored.map (·.tokens) = (texts store.requests).reverse := by
    rw [hst, ← session_texts store prompt minMatch]
    exact map_reverse
  have hf : session.find maxDrafts =
      .ok (scan minMatch maxDrafts (prompt ++ appended) (texts store.requests).reverse) := by
    rw [SuffixSession.find_eq_scan (by rwa [hm]) hr hl ?_ (by rw [ht]; omega), hm, ht, hte]
    intro source hs
    rw [hst] at hs
    obtain ⟨hl, hma, hlen⟩ := hv.indexed hpos hs
    exact ⟨hl, hma.trans hm.symm, by omega⟩
  refine ⟨store, session, hrun, hsuf, hse, ?_, hf, fun draft hd => ?_⟩
  · rw [hr.hash, hm, ht]
  · rw [hf] at hd
    exact scan_draft (Except.ok.inj hd)

open SuffixStore in
/-- A continuation that is only remembered. -/
theorem remembered_lookup_exhaustive : ∃ store session,
    run [.remember [1, 2, 3, 4], .session [8] 2, .remember [5, 1, 2]] = .ok store ∧
      texts store.requests <:+
        remembered [.remember [1, 2, 3, 4], .session [8] 2, .remember [5, 1, 2]] ∧
      session = [3].foldl SuffixSession.append (store.session [8, 1, 2] 3).2 ∧
      session.current.hash = hashOf (lastTokens 3 ([8, 1, 2] ++ [3])) ∧
      session.find 8 = .ok (scan 3 8 ([8, 1, 2] ++ [3]) (texts store.requests).reverse) ∧
      ∀ draft, session.find 8 = .ok (some draft) → draft.tokens ≠ [] ∧
        draft.tokens.length ≤ 8 ∧ ∀ token ∈ draft.tokens, isImageToken token = false :=
  lookup_exhaustive [.remember [1, 2, 3, 4], .session [8] 2, .remember [5, 1, 2]] [8, 1, 2] [3]
    (by decide) (by decide) (by decide)

/-! ### Where machine words end -/

namespace Anchors

theorem push_previous (a : Anchors) (token : Token) :
    ∃ more, (a.push token).previous = a.previous ++ more := by
  unfold push
  dsimp only
  split
  · exact ⟨[], (append_nil _).symm⟩
  · split
    · exact ⟨_, rfl⟩
    · exact ⟨[], (append_nil _).symm⟩

theorem new_previous_head (first : Token) (rest : List Token) :
    (new (first :: rest) 1).previous[0]? = some noAnchor := by
  induction rest using List.reverseRecOn with
  | nil => rfl
  | append_singleton rest token ih =>
    rw [← cons_append, new_concat]
    obtain ⟨more, hm⟩ := push_previous (new (first :: rest) 1) token
    rw [hm, getElem?_append_left (List.getElem?_eq_some_iff.mp ih).1]
    exact ih

theorem push_newest {a : Anchors} (token : Token) (hp : 0 < a.minMatch)
    (hf : a.minMatch ≤ a.tokens.length + 1) :
    (a.push token).newest (mix (a.push token).hash) = some ((a.tokens.length + 1) % 2 ^ 32) := by
  have hl : (a.tokens ++ [token]).length = a.tokens.length + 1 := by simp
  unfold push
  rw [if_neg (by omega)]
  rw [if_pos (by rwa [hl])]
  dsimp only
  rw [if_pos rfl, hl]

end Anchors

theorem lastTokens_one (tokens : List Token) (token : Token) :
    lastTokens 1 (tokens ++ [token]) = [token] := by
  unfold lastTokens
  rw [length_append, length_singleton, Nat.add_sub_cancel, drop_left]

section Long

variable {n : Nat}

theorem long_find (hn : n + 2 = 2 ^ 32) : ((⟨[], 0⟩ : SuffixStore).session
    (replicate n 0 ++ [1, 2, 1]) 1).2.find 8 = .ok none := by
  obtain ⟨k, rfl⟩ : ∃ k, n = k + 1 := ⟨n - 1, by omega⟩
  have hs : replicate (k + 1) (0 : Token) ++ [1, 2, 1] =
      replicate (k + 1) 0 ++ [1, 2] ++ [1] := by simp
  obtain ⟨long, hl⟩ : ∃ long, long = Anchors.new (replicate (k + 1) 0 ++ [1, 2, 1]) 1 :=
    ⟨_, rfl⟩
  have hm : long.minMatch = 1 := by rw [hl, Anchors.new_minMatch]
  have ht : long.tokens = 0 :: (replicate k 0 ++ [1, 2, 1]) := by
    rw [hl, Anchors.new_tokens]
    rfl
  have hla : lastTokens 1 long.tokens = [1] := by
    rw [hl, Anchors.new_tokens, hs, lastTokens_one]
  have hne : long.newest (mix long.hash) = some 1 := by
    rw [hl, hs, Anchors.new_concat, Anchors.push_newest, Anchors.new_tokens]
    · simp only [length_append, length_replicate, length_cons, length_nil]
      congr 1
      omega
    · rw [Anchors.new_minMatch]
      exact Nat.one_pos
    · rw [Anchors.new_minMatch]
      omega
  have hf : long.previous[0]? = some noAnchor := by
    rw [hl]
    exact Anchors.new_previous_head 0 _
  have hlen : long.tokens.length = k + 4 := by
    rw [ht]
    simp
  have he : long.ends (mix long.hash) [1] = .ok [] := by
    refine bind_eq_ok.mpr ⟨[1], ?_, ?_⟩
    · rw [hne, Option.getD_some, Anchors.links, if_neg (by decide), hm, if_neg (by decide)]
      refine bind_eq_ok.mpr ⟨noAnchor, elim_eq_ok.mpr hf, bind_eq_ok.mpr ⟨[], ?_, rfl⟩⟩
      rw [hlen, Anchors.links, if_pos rfl]
    · have hsl : slice long.tokens (1 - 1) 1 = .ok [0] := by
        unfold slice
        rw [if_pos ⟨by decide, by omega⟩, ht]
        rfl
      rw [Anchors.equalTo, hm, if_neg (by decide), hsl]
      rfl
  have hse : ((⟨[], 0⟩ : SuffixStore).session (replicate (k + 1) 0 ++ [1, 2, 1]) 1).2 =
      ⟨[], long⟩ := by
    rw [hl]
    rfl
  rw [hse]
  unfold SuffixSession.find
  dsimp only
  rw [hm, if_neg (by omega)]
  refine bind_eq_ok.mpr ⟨_, slice_lastTokens, ?_⟩
  rw [hla]
  exact bind_eq_ok.mpr ⟨_, he, rfl⟩

theorem long_scan (hn : 0 < n) : scan 1 8 (replicate n 0 ++ [1, 2, 1]) [] ≠ none := by
  obtain ⟨k, rfl⟩ : ∃ k, n = k + 1 := ⟨n - 1, by omega⟩
  obtain ⟨zeros, hz⟩ : ∃ zeros, zeros = replicate (k + 1) (0 : Token) := ⟨_, rfl⟩
  have hl : zeros.length = k + 1 := by rw [hz, length_replicate]
  have hr : zeros.reverse = 0 :: replicate k 0 := by
    rw [hz, reverse_replicate]
    rfl
  have hla : lastTokens 1 (zeros ++ [1, 2, 1]) = [1] := by
    have hs : zeros ++ [1, 2, 1] = zeros ++ [1, 2] ++ [1] := by simp
    rw [hs, lastTokens_one]
  have ht : ∀ i, (zeros ++ [1, 2, 1]).take (k + 1 + i) = zeros ++ [1, 2, 1].take i := by
    intro i
    rw [← hl]
    exact take_length_add_append i
  have hp : k + 1 + 1 ∈ Anchors.places (zeros ++ [1, 2, 1]) [1] := by
    refine Anchors.mem_places.mpr ⟨by simp [hl], by simp, ?_⟩
    rw [ht]
    exact lastTokens_one zeros 1
  have hm : commonSuffix ((zeros ++ [1, 2, 1]).take (k + 1 + 1)) (zeros ++ [1, 2, 1]) = 1 := by
    unfold commonSuffix
    rw [ht, reverse_append, reverse_append, hr]
    rfl
  have hc : (occurrence 8 (zeros ++ [1, 2, 1]) true (zeros ++ [1, 2, 1])
      (k + 1 + 1)).continuation = [2] := by
    have hlim : (zeros ++ [1, 2, 1]).length - 1 = k + 1 + 2 := by simp [hl]
    have hd : (zeros ++ [1, 2]).drop (k + 1 + 1) = [2] := by
      rw [← hl]
      exact drop_length_add_append 1
    unfold occurrence
    dsimp only
    rw [hm, if_pos rfl, hlim, ht]
    show takeWhile _ (((zeros ++ [1, 2]).drop (k + 1 + 1)).take 8) = [2]
    rw [hd]
    rfl
  have hf : occurrence 8 (zeros ++ [1, 2, 1]) true (zeros ++ [1, 2, 1]) (k + 1 + 1) ∈
      occurrences 1 8 (zeros ++ [1, 2, 1]) true (zeros ++ [1, 2, 1]) := by
    unfold occurrences
    rw [hla]
    refine mem_filter.mpr ⟨mem_map_of_mem hp, ?_⟩
    rw [hc]
    rfl
  rw [← hz]
  unfold scan
  rw [if_neg (by simp)]
  intro hno
  have he := lastMax_eq_none.mp (Option.map_eq_none_iff.mp hno)
  rw [append_eq_nil_iff.mp he |>.1] at hf
  cases hf

end Long

/-- A sum of an end and the drafts asked for that wraps around, and an end that does not fit. -/
theorem lookup_misses_at_word_size :
    (((⟨[], 0⟩ : SuffixStore).session [7, 8, 7] 1).2.find (2 ^ 64 - 1) = .ok none ∧
      scan 1 (2 ^ 64 - 1) [7, 8, 7] [] = some ⟨[8], 1, 1⟩) ∧
    (((⟨[], 0⟩ : SuffixStore).session (replicate (2 ^ 32 - 2) 0 ++ [1, 2, 1]) 1).2.find 8 =
      .ok none ∧
      scan 1 8 (replicate (2 ^ 32 - 2) 0 ++ [1, 2, 1]) [] ≠ none) :=
  ⟨⟨by decide, by decide⟩, long_find (by decide), long_scan (by decide)⟩

end LocalAi.Ngram
