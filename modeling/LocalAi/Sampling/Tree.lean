import Mathlib.Data.List.Chain
import Mathlib.Data.List.Perm.Subperm
import LocalAi.Sampling.Verify

/-!
# Verification of a draft tree

`verify_tree_drafts` walks a tree of drafts given by a parent array: it samples
the target at the current row and steps into the first child that holds the
sample.  Nothing orders the parent array, so the walk is bounded by uniqueness
of parents alone: the root has none, hence no row is entered twice.

* `testChildren_fst`: the accepted child is the first with the sampled token.
* `IsRootPath.nodup`: a path of the parent relation from the root repeats no row.
* `walk_spec`: the walk follows plain decoding along such a path.
* `walk_chain`: on a chain it is the loop of `verify_greedy_drafts`.
-/

open List

namespace LocalAi.Sampling

variable {R M L : Type}

structure TreeVerification where
  samples : List SamplingResult
  path : List Nat
  tested : List (Nat × Bool)

/-- One iteration over `parents.iter().enumerate()` at `row`. -/
def testChild (tokens : List Token) (row : Nat) (next : SamplingResult)
    (state : Option Nat × List (Nat × Bool)) (entry : Int × Nat) :
    Option Nat × List (Nat × Bool) :=
  if entry.1 = (row : Int) then
    let take := !next.isEos && state.1.isNone && tokens[entry.2]? == some next.tokenId
    (if take then some entry.2 else state.1, state.2 ++ [(entry.2, take)])
  else
    state

def testChildren (tokens : List Token) (parents : List Int) (row : Nat) (next : SamplingResult)
    (tested : List (Nat × Bool)) : Option Nat × List (Nat × Bool) :=
  parents.zipIdx.foldl (testChild tokens row next) (none, tested)

/-- The loop of `verify_tree_drafts`; `none` when the fuel runs out. -/
def walk (tokens : List Token) (parents : List Int)
    (sample : Nat → Sampler R M L → Except Error (SamplingResult × Sampler R M L)) :
    (fuel row : Nat) → Sampler R M L → List SamplingResult → List Nat → List (Nat × Bool) →
      Option (Except Error (TreeVerification × Sampler R M L))
  | 0, _, _, _, _, _ => none
  | fuel + 1, row, sampler, samples, path, tested =>
    match sample row sampler with
    | .error error => some (.error error)
    | .ok (next, sampler) =>
      match testChildren tokens parents row next tested with
      | (none, tested) => some (.ok (⟨samples ++ [next], path, tested⟩, sampler))
      | (some child, tested) =>
        walk tokens parents sample fuel child (sampler.observe [next.tokenId])
          (samples ++ [next]) (path ++ [child]) tested

def verifyTreeDrafts (fuel : Nat) (sampler : Sampler R M L) (tokens : List Token)
    (parents : List Int)
    (sample : Nat → Sampler R M L → Except Error (SamplingResult × Sampler R M L)) :
    Option (Except Error (TreeVerification × Sampler R M L)) :=
  if tokens.isEmpty || tokens.length != parents.length || parents[0]? != some (-1) then
    some (.error (.invalidArgument "a draft tree needs a root and one parent per row"))
  else
    walk tokens parents sample fuel 0 sampler [] [0] []

/-- The drafts on the way from the root to `row`, the root's own token left out
(it ends the history).  `fuel` bounds the climb in a parent array with a cycle. -/
def ancestry (tokens : List Token) (parents : List Int) : (fuel row : Nat) → List Token
  | 0, _ => []
  | fuel + 1, row =>
    match parents[row]? with
    | some (.ofNat parent) => ancestry tokens parents fuel parent ++ tokens[row]?.toList
    | _ => []

def Target.sampleNode (target : Target R M L) (history tokens : List Token) (parents : List Int)
    (row : Nat) (sampler : Sampler R M L) : Except Error (SamplingResult × Sampler R M L) :=
  .ok (target.sample (history ++ ancestry tokens parents tokens.length row) sampler)

/-! ### The accepted child -/

def accepts (tokens : List Token) (row : Nat) (next : SamplingResult) (entry : Int × Nat) : Bool :=
  decide (entry.1 = (row : Int)) && !next.isEos && tokens[entry.2]? == some next.tokenId

theorem foldl_testChild_some (tokens : List Token) (row child : Nat) (next : SamplingResult)
    (entries : List (Int × Nat)) (tested : List (Nat × Bool)) :
    (entries.foldl (testChild tokens row next) (some child, tested)).1 = some child := by
  induction entries generalizing tested with
  | nil => rfl
  | cons entry entries ih =>
    rw [foldl_cons]
    by_cases h : entry.1 = (row : Int)
    · simp only [testChild, h, if_true, Option.isNone_some, Bool.and_false, Bool.false_and,
        Bool.false_eq_true, if_false]
      exact ih _
    · simp only [testChild, h, if_false]
      exact ih _

theorem foldl_testChild_none (tokens : List Token) (row : Nat) (next : SamplingResult)
    (entries : List (Int × Nat)) (tested : List (Nat × Bool)) :
    (entries.foldl (testChild tokens row next) (none, tested)).1
      = (entries.find? (accepts tokens row next)).map Prod.snd := by
  induction entries generalizing tested with
  | nil => rfl
  | cons entry entries ih =>
    rw [foldl_cons, find?_cons]
    by_cases h : entry.1 = (row : Int)
    · cases ht : (!next.isEos && tokens[entry.2]? == some next.tokenId) with
      | true =>
        simp only [testChild, accepts, h, if_true, Option.isNone_none, Bool.and_true,
          decide_true, Bool.true_and, ht]
        exact foldl_testChild_some tokens row entry.2 next entries _
      | false =>
        simp only [testChild, accepts, h, if_true, Option.isNone_none, Bool.and_true,
          decide_true, Bool.true_and, ht, Bool.false_eq_true, if_false]
        exact ih _
    · simp only [testChild, accepts, h, if_false, decide_false, Bool.false_and]
      exact ih _

theorem testChildren_fst (tokens : List Token) (parents : List Int) (row : Nat)
    (next : SamplingResult) (tested : List (Nat × Bool)) :
    (testChildren tokens parents row next tested).1
      = (parents.zipIdx.find? (accepts tokens row next)).map Prod.snd :=
  foldl_testChild_none tokens row next parents.zipIdx tested

def IsChild (parents : List Int) (row child : Nat) : Prop := parents[child]? = some (row : Int)

variable {child row : Nat} {path : List Nat}

variable {parents : List Int}

theorem testChildren_some {tokens : List Token} {next : SamplingResult} {tested : List (Nat × Bool)}
    (h : (testChildren tokens parents row next tested).1 = some child) :
    IsChild parents row child ∧ next.isEos = false ∧ tokens[child]? = some next.tokenId := by
  rw [testChildren_fst, Option.map_eq_some_iff] at h
  obtain ⟨⟨parent, index⟩, hf, rfl⟩ := h
  have ha := find?_some hf
  have hm := mk_mem_zipIdx_iff_getElem?.mp (mem_of_find?_eq_some hf)
  simp only [accepts, Bool.and_eq_true, decide_eq_true_eq, Bool.not_eq_true', beq_iff_eq] at ha
  exact ⟨ha.1.1 ▸ hm, ha.1.2, ha.2⟩

/-! ### Root paths -/

structure IsRootPath (parents : List Int) (path : List Nat) : Prop where
  root : path.head? = some 0
  chain : path.IsChain (IsChild parents)

theorem IsRootPath.append (h : IsRootPath parents path) (hl : path.getLast? = some row)
    (hc : IsChild parents row child) : IsRootPath parents (path ++ [child]) := by
  refine ⟨?_, ?_⟩
  · rw [head?_append, h.root]
    rfl
  · rw [isChain_append]
    refine ⟨h.chain, isChain_singleton _, ?_⟩
    intro x hx y hy
    rw [hl] at hx
    cases hx
    cases hy
    exact hc

/-- **No row is entered twice**: its parent would be both the last row and an
earlier one, and the root has no parent. -/
theorem IsRootPath.not_mem
    (h : IsRootPath parents path) (hr : parents[0]? = some (-1)) (hnd : path.Nodup)
    (hl : path.getLast? = some row) (hchd : IsChild parents row child) : child ∉ path := by
  intro hm
  obtain ⟨before, after, rfl⟩ := append_of_mem hm
  rcases eq_nil_or_concat' before with rfl | ⟨front, x, rfl⟩
  · have hz : child = 0 := by simpa using h.root
    rw [IsChild, hz, hr] at hchd
    simp at hchd
  · have hx : IsChild parents x child := by
      have hc := (isChain_append.mp h.chain).2.2
      exact hc x (by simp) child (by simp)
    have hrow : x = row := by
      rw [IsChild, hchd, Option.some.injEq] at hx
      exact (Int.ofNat.inj hx).symm
    have hre : row ∈ child :: after := by
      rw [getLast?_append_of_ne_nil _ (cons_ne_nil _ _)] at hl
      exact mem_of_getLast? hl
    exact (nodup_append.mp hnd).2.2 x (by simp) row hre hrow

theorem length_le_of_nodup_lt {n : Nat} (hnd : path.Nodup)
    (hlt : ∀ r ∈ path, r < n) : path.length ≤ n := by
  have hs : path ⊆ range n := fun r hr => mem_range.mpr (hlt r hr)
  simpa using (subperm_of_subset hnd hs).length_le

theorem ancestry_eq {tokens : List Token} (hr : parents[0]? = some (-1))
    (path : List Nat) : ∀ {row fuel : Nat}, IsRootPath parents path →
      path.getLast? = some row → path.length ≤ fuel + 1 →
      ancestry tokens parents fuel row = path.tail.filterMap (tokens[·]?) := by
  induction path using reverseRecOn with
  | nil =>
    intro row fuel h
    cases h.root
  | append_singleton front child ih =>
    intro row fuel h hl hf
    obtain rfl : child = row := by simpa using hl
    rcases eq_nil_or_concat' front with rfl | ⟨before, parent, rfl⟩
    · have hz : child = 0 := by simpa using h.root
      subst hz
      cases fuel with
      | zero => rfl
      | succ => simp [ancestry, hr]
    · obtain ⟨hfr, -, hs⟩ := isChain_append.mp h.chain
      have hchd : parents[child]? = some (Int.ofNat parent) := hs parent (by simp) child (by simp)
      have hp : IsRootPath parents (before ++ [parent]) := by
        refine ⟨?_, hfr⟩
        have hh := h.root
        rwa [head?_append_of_ne_nil _ (by simp)] at hh
      cases fuel with
      | zero => simp at hf
      | succ fuel =>
        have hrec := @ih parent fuel hp (by simp) (by simpa using hf)
        have ht : (before ++ [parent] ++ [child]).tail = (before ++ [parent]).tail ++ [child] :=
          tail_append_of_ne_nil (by simp)
        rw [ancestry, hchd, ht, filterMap_append, ← hrec]
        cases hc : tokens[child]? <;> simp [hc]

/-! ### The walk -/

section Walk

variable {tokens : List Token} {parents : List Int}
  {sample : Nat → Sampler R M L → Except Error (SamplingResult × Sampler R M L)}

theorem walk_mono {fuel : Nat} : ∀ {row : Nat} {sampler : Sampler R M L}
    {samples : List SamplingResult} {path : List Nat} {tested : List (Nat × Bool)}
    {r : Except Error (TreeVerification × Sampler R M L)},
    walk tokens parents sample fuel row sampler samples path tested = some r →
    ∀ k, walk tokens parents sample (fuel + k) row sampler samples path tested = some r := by
  induction fuel with
  | zero =>
    intro row sampler samples path tested r h
    cases h
  | succ fuel ih =>
    intro row sampler samples path tested r h k
    rw [Nat.succ_add]
    unfold walk at h ⊢
    split
    · next hs => simpa [hs] using h
    · next hs =>
      simp only [hs] at h
      split
      · next ht => simpa [ht] using h
      · next ht =>
        simp only [ht] at h
        exact ih h k

/-- Where the walk stands: at the end of a root path without repetition. -/
structure WalkAt (tokens : List Token) (parents : List Int) (path : List Nat) (row : Nat) : Prop where
  rootPath : IsRootPath parents path
  nodup : path.Nodup
  last : path.getLast? = some row
  bound : ∀ r ∈ path, r < tokens.length

theorem WalkAt.start (hne : tokens ≠ []) : WalkAt tokens parents [0] 0 where
  rootPath := ⟨rfl, isChain_singleton _⟩
  nodup := by simp
  last := rfl
  bound r hr := by
    rw [mem_singleton.mp hr]
    exact length_pos_iff.mpr hne

theorem WalkAt.step {path : List Nat} {row child : Nat} (h : WalkAt tokens parents path row)
    (hro : parents[0]? = some (-1)) (hl : tokens.length = parents.length)
    (hchd : IsChild parents row child) : WalkAt tokens parents (path ++ [child]) child where
  rootPath := h.rootPath.append h.last hchd
  nodup := by
    rw [nodup_append]
    refine ⟨h.nodup, by simp, ?_⟩
    intro r hr c hc heq
    rw [mem_singleton] at hc
    exact h.rootPath.not_mem hro h.nodup h.last hchd (hc ▸ heq ▸ hr)
  last := by simp
  bound r hr := by
    rcases mem_append.mp hr with hr | hr
    · exact h.bound r hr
    · rw [mem_singleton.mp hr, hl]
      exact (List.getElem?_eq_some_iff.mp hchd).1

/-- **The walk follows plain decoding** from wherever it stands: it ends on the
longer path `path ++ rest`, whose new rows hold the tokens of the new samples
before the last. -/
theorem walk_spec (target : Target R M L) (history : List Token)
    (hr : parents[0]? = some (-1)) (hl : tokens.length = parents.length) :
    ∀ (fuel : Nat) {row : Nat} {path : List Nat} (sampler : Sampler R M L)
      (samples : List SamplingResult) (tested : List (Nat × Bool)),
      WalkAt tokens parents path row → tokens.length < fuel + path.length →
      ∃ (rest : List Nat) (end_ : Nat) (more : List SamplingResult)
        (tested' : List (Nat × Bool)) (sampler' : Sampler R M L),
        walk tokens parents (target.sampleNode history tokens parents) fuel row sampler samples
            path tested
          = some (.ok (⟨samples ++ more, path ++ rest, tested'⟩, sampler')) ∧
        WalkAt tokens parents (path ++ rest) end_ ∧
        more = (target.decode (rest.length + 1)
          (history ++ path.tail.filterMap (tokens[·]?)) sampler).1 ∧
        more.length = rest.length + 1 ∧
        rest.map (tokens[·]?) = more.dropLast.map (fun sample => some sample.tokenId) ∧
        sampler' = (target.sample
          (history ++ path.tail.filterMap (tokens[·]?) ++ more.dropLast.map SamplingResult.tokenId)
          (target.decode rest.length
            (history ++ path.tail.filterMap (tokens[·]?)) sampler).2).2 := by
  intro fuel
  induction fuel with
  | zero =>
    intro row path sampler samples tested hat hfu
    have := length_le_of_nodup_lt hat.nodup hat.bound
    omega
  | succ fuel ih =>
    intro row path sampler samples tested hat hfu
    have hcnt := length_le_of_nodup_lt hat.nodup hat.bound
    have hanc : ancestry tokens parents tokens.length row = path.tail.filterMap (tokens[·]?) :=
      ancestry_eq hr path hat.rootPath hat.last (by omega)
    obtain ⟨h, hh⟩ : ∃ h, h = history ++ path.tail.filterMap (tokens[·]?) := ⟨_, rfl⟩
    have hs : target.sampleNode history tokens parents row sampler
        = .ok (target.sample h sampler) := by
      rw [Target.sampleNode, hanc, hh]
    rw [← hh]
    rcases hn : target.sample h sampler with ⟨next, advanced⟩
    rcases ht : testChildren tokens parents row next tested with ⟨_ | child, tested'⟩
    · refine ⟨[], row, [next], tested', advanced, ?_, by simpa using hat, ?_, rfl, rfl, ?_⟩
      · simp only [walk, hs, hn, ht, append_nil]
      · simp only [length_nil, Target.decode, hn]
        split <;> rfl
      · simp [Target.decode, hn]
    · obtain ⟨hchd, he, htok⟩ := testChildren_some (congrArg Prod.fst ht)
      have hp : history ++ (path ++ [child]).tail.filterMap (tokens[·]?) = h ++ [next.tokenId] := by
        have hne : path ≠ [] := by
          intro hnil
          cases hnil ▸ hat.rootPath.root
        rw [tail_append_of_ne_nil hne, filterMap_append, ← append_assoc, ← hh]
        simp [htok]
      obtain ⟨rest, end_, more, tested'', sampler', hw, hat', hm, hc, htoks, hf⟩ :=
        ih (advanced.observe [next.tokenId]) (samples ++ [next]) tested'
          (hat.step hr hl hchd) (by rw [length_append, length_singleton]; omega)
      rw [hp] at hm hf
      have hd : ∀ k, target.decode (k + 1) h sampler
          = (next :: (target.decode k (h ++ [next.tokenId]) (advanced.observe [next.tokenId])).1,
            (target.decode k (h ++ [next.tokenId]) (advanced.observe [next.tokenId])).2) := by
        intro k
        simp only [Target.decode, hn, he, Bool.false_eq_true, if_false]
      have hno : more ≠ [] := by
        intro hnil
        rw [hnil] at hc
        cases hc
      refine ⟨child :: rest, end_, next :: more, tested'', sampler', ?_, by simpa using hat',
        ?_, ?_, ?_, ?_⟩
      · simp only [walk, hs, hn, ht]
        simpa using hw
      · rw [length_cons, hd, hm]
      · simp [hc]
      · rw [dropLast_cons_of_ne_nil hno]
        simp [htok, htoks]
      · rw [dropLast_cons_of_ne_nil hno, length_cons, hd, hf]
        simp

end Walk

/-! ### Chains -/

section Chain

variable {tokens : List Token} {parents : List Int}

/-- The parent array of a chain: `parents[r] = r - 1`. -/
def IsChainTree (tokens : List Token) (parents : List Int) : Prop :=
  tokens.length = parents.length ∧ ∀ r, r < parents.length → parents[r]? = some ((r : Int) - 1)

theorem IsChainTree.isChild_iff (h : IsChainTree tokens parents) :
    IsChild parents row child ↔ child = row + 1 ∧ child < tokens.length := by
  unfold IsChild
  constructor
  · intro hc
    have hlt := (List.getElem?_eq_some_iff.mp hc).1
    rw [h.2 child hlt, Option.some.injEq] at hc
    exact ⟨by omega, h.1 ▸ hlt⟩
  · rintro ⟨rfl, hlt⟩
    rw [h.2 _ (h.1 ▸ hlt)]
    simp

theorem IsChainTree.testChildren_fst (h : IsChainTree tokens parents) (row : Nat)
    (next : SamplingResult) (tested : List (Nat × Bool)) :
    (testChildren tokens parents row next tested).1
      = if next.isEos || tokens.tail[row]? != some next.tokenId then none else some (row + 1) := by
  cases hc : (testChildren tokens parents row next tested).1 with
  | some =>
    obtain ⟨hchd, he, ht⟩ := testChildren_some hc
    obtain ⟨rfl, -⟩ := h.isChild_iff.mp hchd
    simp [he, getElem?_tail, ht]
  | none =>
    symm
    rw [ite_eq_left_iff]
    intro ha
    simp only [Bool.or_eq_true, bne_iff_ne, ne_eq, not_or, Bool.not_eq_true, not_not,
      getElem?_tail] at ha
    -- the next row would have been found
    have hchd : IsChild parents row (row + 1) :=
      h.isChild_iff.mpr ⟨rfl, (List.getElem?_eq_some_iff.mp ha.2).1⟩
    rw [LocalAi.Sampling.testChildren_fst, Option.map_eq_none_iff, find?_eq_none] at hc
    refine absurd ?_ (hc ((row : Int), row + 1) (mk_mem_zipIdx_iff_getElem?.mpr hchd))
    simp [accepts, ha.1, ha.2]

theorem IsChainTree.ancestry (h : IsChainTree tokens parents) {fuel : Nat}
    (hr : row < tokens.length) (hf : row ≤ fuel) :
    ancestry tokens parents fuel row = tokens.tail.take row := by
  induction row generalizing fuel with
  | zero =>
    cases fuel with
    | zero => simp [Sampling.ancestry]
    | succ => simp [Sampling.ancestry, h.2 0 (h.1 ▸ hr)]
  | succ row ih =>
    cases fuel with
    | zero => omega
    | succ fuel =>
      have hp : parents[row + 1]? = some (Int.ofNat row) := by
        rw [h.2 _ (h.1 ▸ hr)]
        simp
      rw [Sampling.ancestry, hp, take_add_one, getElem?_tail]
      rw [← @ih fuel (by omega) (by omega)]

theorem walk_chain (h : IsChainTree tokens parents)
    {sample : Nat → Sampler R M L → Except Error (SamplingResult × Sampler R M L)}
    {v : TreeVerification} {sampler' : Sampler R M L} (remaining : Nat) :
    ∀ {row : Nat} {sampler : Sampler R M L} {samples : List SamplingResult} {path : List Nat}
      {tested : List (Nat × Bool)} {accepted : Nat}, accepted + 1 = path.length →
      walk tokens parents sample remaining row sampler samples path tested
        = some (.ok (v, sampler')) →
      verifyRows tokens.tail sample remaining row sampler samples accepted
        = .ok (⟨v.samples, v.path.length - 1⟩, sampler') := by
  induction remaining with
  | zero =>
    intro row sampler samples path tested accepted _ hw
    cases hw
  | succ remaining ih =>
    intro row sampler samples path tested accepted hp hw
    rw [walk] at hw
    rcases hs : sample row sampler with error | ⟨next, advanced⟩
    · simp [hs] at hw
    · have hte := h.testChildren_fst row next tested
      simp only [hs] at hw
      rcases ht : testChildren tokens parents row next tested with ⟨_ | child, tested'⟩ <;>
        rw [ht] at hte hw
      · simp only [Option.some.injEq, Except.ok.injEq, Prod.mk.injEq] at hw
        obtain ⟨rfl, rfl⟩ := hw
        have hm : (next.isEos || tokens.tail[row]? != some next.tokenId) = true := by
          by_contra ha
          rw [if_neg ha] at hte
          cases hte
        rw [verifyRows_stop hs hm, ← hp]
        rfl
      · have hh : ¬ (next.isEos || tokens.tail[row]? != some next.tokenId) = true := by
          intro hm
          rw [if_pos hm] at hte
          cases hte
        rw [if_neg hh] at hte
        obtain rfl : child = row + 1 := by simpa using hte
        simp only [Bool.or_eq_true, bne_iff_ne, ne_eq, not_or, Bool.not_eq_true, not_not] at hh
        rw [verifyRows_accept hs hh.1 hh.2]
        exact ih (by simp [hp]) hw

theorem verifyRows_congr {drafts : List Token}
    {sample sample' : Nat → Sampler R M L → Except Error (SamplingResult × Sampler R M L)}
    (h : ∀ row, row ≤ drafts.length → sample row = sample' row) (remaining : Nat) :
    ∀ (row : Nat) (sampler : Sampler R M L) (results : List SamplingResult) (accepted : Nat),
      row ≤ drafts.length →
      verifyRows drafts sample remaining row sampler results accepted
        = verifyRows drafts sample' remaining row sampler results accepted := by
  induction remaining with
  | zero =>
    intro row sampler results accepted _
    rfl
  | succ remaining ih =>
    intro row sampler results accepted hr
    unfold verifyRows
    rw [h row hr]
    split
    · rfl
    · next next advanced _ =>
      split
      · rfl
      · next hh =>
        simp only [Bool.or_eq_true, bne_iff_ne, ne_eq, not_or, not_not] at hh
        exact ih _ _ _ _ (List.getElem?_eq_some_iff.mp hh.2).1

end Chain

/-! ### The main result -/

/-- **Lossless tree speculation.**  Whatever the parent array holds past its
root, the walk returns, enters no row twice, and ends on a root path whose
drafts are the samples before the last; the samples are the first of plain
decoding, and the sampler is plain decoding's after one selection per sample.
On a chain the result is that of `verify_greedy_drafts`. -/
theorem tree_speculation_lossless (target : Target R M L) (history : List Token)
    {tokens : List Token} {parents : List Int} (hne : tokens ≠ [])
    (hlen : tokens.length = parents.length) (hroot : parents[0]? = some (-1))
    (sampler : Sampler R M L) : ∃ (v : TreeVerification) (sampler' : Sampler R M L),
      (∀ fuel, tokens.length ≤ fuel →
        verifyTreeDrafts fuel sampler tokens parents (target.sampleNode history tokens parents)
          = some (.ok (v, sampler'))) ∧
      v.path.Nodup ∧ IsRootPath parents v.path ∧ (∀ r ∈ v.path, r < tokens.length) ∧
      v.samples.length = v.path.length ∧
      v.path.tail.map (tokens[·]?) = v.samples.dropLast.map (fun sample => some sample.tokenId) ∧
      v.samples = (target.decode v.samples.length history sampler).1 ∧
      sampler' = (target.sample (history ++ v.samples.dropLast.map SamplingResult.tokenId)
        (target.decode (v.samples.length - 1) history sampler).2).2 ∧
      (IsChainTree tokens parents →
        verifyGreedyDrafts (E := Error) sampler tokens.tail (target.sampleRow history tokens.tail)
          = .ok (⟨v.samples, v.path.length - 1⟩, sampler')) := by
  have hfu : tokens.length < tokens.length + [0].length := by simp
  obtain ⟨rest, end_, more, tested, sampler', hw, hat, hm, hc, ht, hf⟩ :=
    walk_spec target history hroot hlen tokens.length sampler [] [] (WalkAt.start hne) hfu
  simp only [tail_cons, filterMap_nil, append_nil] at hm hf
  have hv : ∀ fuel, verifyTreeDrafts fuel sampler tokens parents
      (target.sampleNode history tokens parents)
        = walk tokens parents (target.sampleNode history tokens parents) fuel 0 sampler
            [] [0] [] := by
    intro fuel
    rw [verifyTreeDrafts, if_neg]
    simp [hne, hlen, hroot]
  refine ⟨⟨more, [0] ++ rest, tested⟩, sampler', ?_, hat.nodup, hat.rootPath, hat.bound, ?_,
    ht, ?_, ?_, ?_⟩
  · intro fuel hle
    obtain ⟨k, rfl⟩ := Nat.exists_eq_add_of_le hle
    rw [hv]
    exact walk_mono hw k
  · simpa [Nat.add_comm] using hc
  · rw [hc]
    exact hm
  · rw [hc]
    exact hf
  · intro hch
    have hd : tokens.tail.length + 1 = tokens.length := by
      rw [length_tail]
      exact Nat.sub_add_cancel (length_pos_iff.mpr hne)
    have hr : ∀ row, row ≤ tokens.tail.length →
        target.sampleRow (E := Error) history tokens.tail row
          = target.sampleNode history tokens parents row := by
      intro row hrow
      funext s
      rw [Target.sampleRow, Target.sampleNode, hch.ancestry (by omega) (by omega)]
    rw [verifyGreedyDrafts, verifyRows_congr hr _ 0 _ _ _ (Nat.zero_le _), hd]
    exact walk_chain hch tokens.length rfl hw

/-- A target that counts: it selects the length of the history, up to three. -/
def countingTarget : Target Unit Unit Unit where
  select history s :=
    { result := ⟨history.length, history.length == 3⟩, rng := (), grammar := none, logprob := () }
  isEos_of_failure _ _ h := by simp at h

def countingSampler : Sampler Unit Unit Unit where
  seenTokens := []
  observed := [false, false, false]
  rng := ()
  grammar := none
  records := some []

/-- A tree with a repeated sibling and a row that is its own parent. -/
theorem tree_speculation_with_cycle : ∃ (v : TreeVerification) (sampler' : Sampler Unit Unit Unit),
      (∀ fuel, 5 ≤ fuel → verifyTreeDrafts fuel countingSampler [9, 1, 1, 2, 2] [-1, 0, 0, 1, 4]
          (countingTarget.sampleNode [9] [9, 1, 1, 2, 2] [-1, 0, 0, 1, 4])
            = some (.ok (v, sampler'))) ∧
      v.path.Nodup ∧ v.samples = (countingTarget.decode v.samples.length [9] countingSampler).1 := by
  obtain ⟨v, sampler', hv, hnd, -, -, -, -, hs, -, -⟩ :=
    @tree_speculation_lossless Unit Unit Unit countingTarget [9] [9, 1, 1, 2, 2] [-1, 0, 0, 1, 4]
      (by decide) rfl rfl countingSampler
  exact ⟨v, sampler', hv, hnd, hs⟩

end LocalAi.Sampling
