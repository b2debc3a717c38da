import LocalAi.Transcription.Timing
import Mathlib.Tactic.Linarith
import Mathlib.Tactic.Positivity

/-!
# Words are aligned inside their window

* `backtrace_climbs`: from a cell inside the matrix, the walk back never meets a border but at the
  origin, and its path climbs there from `(0, 0)`.
* `Climbs.jumps`: a climbing path has one jump for each text index, at times that never decrease.
* `split_counts`: the tokens of all words but the last are no more than the text's.
* `costMatrix_one`: the costs of a single frame are not numbers, and `dtw_nan`: with such costs the
  path leaves the matrix.
* `alignment_inside_iff`: words are aligned inside their window if and only if it is long enough.
-/

open List

namespace LocalAi.Transcription

/-! ### Climbing paths -/

/-- A step of a path: one further in the text, in time, or in both. -/
def StepsTo (a b : Nat × Nat) : Prop :=
  b = (a.1 + 1, a.2 + 1) ∨ b = (a.1 + 1, a.2) ∨ b = (a.1, a.2 + 1)

inductive Climbs : List (Nat × Nat) → Nat × Nat → Prop
  | start : Climbs [(0, 0)] (0, 0)
  | step {path : List (Nat × Nat)} {a b : Nat × Nat} (hpath : Climbs path a) (hstep : StepsTo a b) :
    Climbs (path ++ [b]) b

structure PathInside (path : List (Nat × Nat)) (n m : Nat) : Prop where
  inside : ∀ p ∈ path, p.1 < n ∧ p.2 < m
  first : path.head? = some (0, 0)
  last : path.getLast? = some (n - 1, m - 1)
  steps : path.IsChain StepsTo

variable {a : Nat × Nat} {path : List (Nat × Nat)}

theorem StepsTo.le {b : Nat × Nat} (h : StepsTo a b) : a.1 ≤ b.1 ∧ a.2 ≤ b.2 := by
  obtain rfl | rfl | rfl := h <;> simp

theorem Climbs.head (h : Climbs path a) : path.head? = some (0, 0) := by
  induction h with
  | start => rfl
  | step _ _ ih => rw [head?_append, ih]; rfl

theorem Climbs.last {path : List (Nat × Nat)} {a : Nat × Nat} (h : Climbs path a) :
    path.getLast? = some a := by
  cases h with
  | start => rfl
  | step => simp

theorem Climbs.le (h : Climbs path a) : ∀ p ∈ path, p.1 ≤ a.1 ∧ p.2 ≤ a.2 := by
  induction h with
  | start => simp
  | step _ hs ih =>
    intro p hp
    obtain hp | hp := mem_append.mp hp
    · exact ⟨(ih p hp).1.trans hs.le.1, (ih p hp).2.trans hs.le.2⟩
    · rw [mem_singleton.mp hp]
      exact ⟨le_rfl, le_rfl⟩

theorem Climbs.isChain (h : Climbs path a) : path.IsChain StepsTo := by
  induction h with
  | start => exact isChain_singleton _
  | @step path a b hp hs ih =>
    refine ih.append (isChain_singleton _) ?_
    intro x hx y hy
    rw [hp.last] at hx
    obtain rfl := Option.mem_some_iff.mp hx
    obtain rfl : b = y := by simpa using hy
    exact hs

theorem Climbs.pathInside {i j : Nat} (h : Climbs path (i, j)) :
    PathInside path (i + 1) (j + 1) where
  inside p hp := ⟨Nat.lt_succ_of_le (h.le p hp).1, Nat.lt_succ_of_le (h.le p hp).2⟩
  first := h.head
  last := h.last
  steps := h.isChain

/-! ### The walk back -/

section

variable {X α : Type} [LinearOrder α] [Zero α] (narrow : X → α → α) (x : Nat → Nat → Option X)

theorem cost_above (j : Nat) : cost narrow x (j + 1) 0 = some ⊤ := rfl

theorem cost_left (i : Nat) : cost narrow x 0 (i + 1) = some ⊤ := rfl

theorem cost_step (j i : Nat) : cost narrow x (j + 1) (i + 1) = addCost narrow (x i j)
      (cheapest (cost narrow x j i) (cost narrow x (j + 1) i) (cost narrow x j (i + 1))).1 := rfl

theorem trace_step (i j : Nat) : trace narrow x (i + 1) (j + 1) =
    (cheapest (cost narrow x j i) (cost narrow x (j + 1) i) (cost narrow x j (i + 1))).2 := rfl

/-- A cost that is a number and not infinite. -/
def Finite (c : Option (WithTop α)) : Prop := ∃ a : α, c = some a

variable {c₀ c₁ c₂ : Option (WithTop α)}

omit [LinearOrder α] [Zero α] in
theorem Finite.ne_top (h : Finite c₀) : c₀ ≠ some ⊤ := by
  obtain ⟨a, rfl⟩ := h
  exact fun heq => WithTop.coe_ne_top (Option.some.inj heq)

omit [LinearOrder α] [Zero α] in
theorem addCost_finite {y : Option X} (hy : y ≠ none) (h : Finite c₀) :
    Finite (addCost narrow y c₀) := by
  obtain ⟨y, rfl⟩ := Option.ne_none_iff_exists'.mp hy
  obtain ⟨a, rfl⟩ := h
  exact ⟨narrow y a, rfl⟩

omit [Zero α] in
theorem below_finite (h : below c₀ c₁ = true) : Finite c₀ := by
  match c₀, c₁ with
  | some a, some b =>
    obtain ⟨a, rfl⟩ := WithTop.ne_top_iff_exists.mp (of_decide_eq_true h).ne_top
    exact ⟨a, rfl⟩

omit [Zero α] in
theorem below_some {a b : WithTop α} : below (some a) (some b) = true ↔ a < b := decide_eq_true_iff

omit [Zero α] in
/-- Of two costs that differ, the smaller one is taken over an infinite third. -/
theorem cheapest_differ {a b : WithTop α} (h : a ≠ b) :
    (cheapest (some a) (some b) (some ⊤)).2 ≠ .time ∧
      Finite (cheapest (some a) (some b) (some ⊤)).1 := by
  rw [cheapest]
  simp only [Bool.and_eq_true, below_some]
  obtain hlt | hlt := lt_or_gt_of_ne h
  · rw [if_pos ⟨hlt, hlt.trans_le le_top⟩]
    exact ⟨nofun, below_finite (below_some.mpr hlt)⟩
  · rw [if_neg fun h => h.1.not_gt hlt, if_pos ⟨hlt, hlt.trans_le le_top⟩]
    exact ⟨nofun, below_finite (below_some.mpr hlt)⟩

omit [Zero α] in
theorem cheapest_finite (h : Finite c₂) : Finite (cheapest c₀ c₁ c₂).1 := by
  rw [cheapest]
  split_ifs with h₀ h₁
  · exact below_finite (Bool.and_eq_true_iff.mp h₀).1
  · exact below_finite (Bool.and_eq_true_iff.mp h₁).1
  · exact h

omit [Zero α] in
theorem cheapest_both (h : (cheapest c₀ c₁ c₂).2 = .both) : Finite c₀ := by
  rw [cheapest] at h
  split_ifs at h with h₀
  exact below_finite (Bool.and_eq_true_iff.mp h₀).1

omit [Zero α] in
theorem cheapest_text (h : (cheapest c₀ c₁ c₂).2 = .text) : Finite c₁ := by
  rw [cheapest] at h
  split_ifs at h with h₀ h₁
  exact below_finite (Bool.and_eq_true_iff.mp h₁).1

theorem trace_both {i j : Nat} (h : trace narrow x (i + 1) (j + 1) = .both) :
    i = 0 ∧ j = 0 ∨ (0 < i ∧ 0 < j) := by
  have hf := cheapest_both h
  match i, j with
  | 0, 0 => exact .inl ⟨rfl, rfl⟩
  | 0, j + 1 => exact absurd (cost_above narrow x j) hf.ne_top
  | i + 1, 0 => exact absurd (cost_left narrow x i) hf.ne_top
  | i + 1, j + 1 => exact .inr ⟨i.succ_pos, j.succ_pos⟩

theorem trace_text {i j : Nat} (h : trace narrow x (i + 1) (j + 1) = .text) : 0 < i := by
  match i with
  | 0 => exact absurd (cost_above narrow x j) (cheapest_text h).ne_top
  | i + 1 => exact i.succ_pos

section Numbers

variable {n m : Nat} (hx : ∀ i < n, ∀ j < m, x i j ≠ none)
include hx

theorem cost_finite {j : Nat} (hj : j < m) : ∀ i < n, Finite (cost narrow x (j + 1) (i + 1)) := by
  induction j with
  | zero =>
    intro i hi
    rw [cost_step]
    refine addCost_finite narrow (hx i hi 0 hj) ?_
    induction i with
    | zero => exact (cheapest_differ WithTop.zero_ne_top).2
    | succ i ih =>
      obtain ⟨c, hc⟩ : Finite (cost narrow x 1 (i + 1)) :=
        addCost_finite narrow (hx i (by omega) 0 hj) (ih (by omega))
      rw [cost_left, cost_left, hc]
      exact (cheapest_differ WithTop.top_ne_coe).2
  | succ j ih =>
    intro i hi
    rw [cost_step]
    exact addCost_finite narrow (hx i hi (j + 1) hj) (cheapest_finite (ih (by omega) i hi))

theorem trace_time {i j : Nat} (hi : i < n) (hj : j < m)
    (h : trace narrow x (i + 1) (j + 1) = .time) : 0 < j := by
  match j with
  | j + 1 => exact j.succ_pos
  | 0 =>
    exfalso
    rw [trace_step, cost_left] at h
    match i with
    | 0 => exact (cheapest_differ WithTop.zero_ne_top).1 h
    | i + 1 =>
      obtain ⟨c, hc⟩ := cost_finite narrow x hx hj i (by omega)
      rw [cost_left, hc] at h
      exact (cheapest_differ WithTop.top_ne_coe).1 h

end Numbers

theorem backtrace_origin (fuel : Nat) : backtrace narrow x fuel 0 0 = some [] := by
  cases fuel <;> rfl

theorem backtrace_step {fuel i j : Nat} {next : Nat × Nat} {path : List (Nat × Nat)}
    (hn : stepBack (trace narrow x (i + 1) (j + 1)) (i + 1) (j + 1) = some next)
    (hp : backtrace narrow x fuel next.1 next.2 = some path) :
    backtrace narrow x (fuel + 1) (i + 1) (j + 1) = some ((i, j) :: path) := by
  rw [backtrace, if_neg (by omega), hn, Option.bind_some, hp]
  rfl

theorem backtrace_climbs {n m : Nat} (hx : ∀ i < n, ∀ j < m, x i j ≠ none) (fuel : Nat) :
    ∀ i j, i < n → j < m → i + 1 + (j + 1) ≤ fuel →
    ∃ path, backtrace narrow x fuel (i + 1) (j + 1) = some path ∧ Climbs path.reverse (i, j) := by
  induction fuel with
  | zero => intro i j _ _ h; omega
  | succ fuel ih =>
    intro i j hi hj hf
    -- the path up to the cell, from the path up to the cell before it
    have hc : ∀ a b, stepBack (trace narrow x (i + 1) (j + 1)) (i + 1) (j + 1) =
        some (a + 1, b + 1) → a + 1 + (b + 1) ≤ fuel → StepsTo (a, b) (i, j) →
        ∃ path, backtrace narrow x (fuel + 1) (i + 1) (j + 1) = some path ∧
          Climbs path.reverse (i, j) := by
      intro a b hb hle hs
      have hab : a ≤ i ∧ b ≤ j := hs.le
      obtain ⟨path, hp, hcl⟩ := ih a b (by omega) (by omega) hle
      refine ⟨(i, j) :: path, backtrace_step narrow x hb hp, ?_⟩
      rw [reverse_cons]
      exact hcl.step hs
    cases ht : trace narrow x (i + 1) (j + 1) with
    | both =>
      obtain ⟨rfl, rfl⟩ | ⟨hi, hj⟩ := trace_both narrow x ht
      · exact ⟨[(0, 0)], @backtrace_step X α _ _ narrow x fuel 0 0 (0, 0) [] (by rw [ht]; rfl)
          (backtrace_origin narrow x fuel), .start⟩
      · obtain ⟨a, rfl⟩ := Nat.exists_eq_succ_of_ne_zero hi.ne'
        obtain ⟨b, rfl⟩ := Nat.exists_eq_succ_of_ne_zero hj.ne'
        exact hc a b (by rw [ht]; rfl) (by omega) (.inl rfl)
    | text =>
      obtain ⟨a, rfl⟩ := Nat.exists_eq_succ_of_ne_zero (trace_text narrow x ht).ne'
      exact hc a j (by rw [ht]; rfl) (by omega) (.inr (.inl rfl))
    | time =>
      obtain ⟨b, rfl⟩ := Nat.exists_eq_succ_of_ne_zero (trace_time narrow x hx hi hj ht).ne'
      exact hc i b (by rw [ht]; rfl) (by omega) (.inr (.inr rfl))

/-- Through a matrix of numbers with a row and a column, the path climbs to the last cell. -/
theorem dtw_climbs {n m : Nat} (hx : ∀ i < n + 1, ∀ j < m + 1, x i j ≠ none) :
    ∃ path, dtw narrow x (n + 1) (m + 1) = some path ∧ Climbs path (n, m) := by
  obtain ⟨path, hp, hc⟩ := backtrace_climbs narrow x hx _ n m n.lt_succ_self m.lt_succ_self le_rfl
  exact ⟨path.reverse, by rw [dtw, hp]; rfl, hc⟩

/-- Where the one column is not of numbers, the path goes to the border at its last row. -/
theorem dtw_nan {n : Nat} (hx : ∀ i, x i 0 = none) {path : List (Nat × Nat)}
    (h : dtw narrow x (n + 2) 1 = some path) : (n + 1, 2 ^ 64 - 1) ∈ path := by
  have ht : trace narrow x (n + 2) 1 = .time := by
    have hc : cost narrow x 1 (n + 1) = none := by
      rw [cost_step, hx]
      rfl
    rw [trace_step, hc]
    rfl
  obtain ⟨back, hb, rfl⟩ := Option.map_eq_some_iff.mp h
  rw [backtrace, if_neg (by omega), ht] at hb
  obtain ⟨rest, hr, rfl⟩ := Option.map_eq_some_iff.mp hb
  have hr : backtrace narrow x (n + 2) (n + 2) 0 = some rest := hr
  rw [backtrace, if_neg (by omega)] at hr
  obtain ⟨last, -, rfl⟩ := Option.map_eq_some_iff.mp hr
  simp [wrappingPred]

end

/-! ### Jumps -/

theorem tokensPerSecond_pos : 0 < tokensPerSecond := by decide

def timeOf (frame : Nat) : ℚ := (frame : ℚ) / tokensPerSecond

theorem timeOf_mono {a b : Nat} (h : a ≤ b) : timeOf a ≤ timeOf b :=
  div_le_div_of_nonneg_right (Nat.cast_le.mpr h) tokensPerSecond_pos.le

theorem timeOf_nonneg (a : Nat) : 0 ≤ timeOf a :=
  div_nonneg (Nat.cast_nonneg a) tokensPerSecond_pos.le

theorem jumpsFrom_concat (q : Nat × Nat) (path : List (Nat × Nat)) (text : Nat) :
    jumpsFrom text (path ++ [q]) = jumpsFrom text path ++
      if q.1 = ((path.getLast?.map Prod.fst).getD text) then [] else [timeOf q.2] := by
  induction path generalizing text with
  | nil =>
    by_cases h : q.1 = text <;> simp [jumpsFrom, h, timeOf]
  | cons p path ih =>
    have hl : (((p :: path).getLast?.map Prod.fst).getD text) =
        ((path.getLast?.map Prod.fst).getD p.1) := by
      rw [getLast?_cons]
      cases path.getLast? <;> rfl
    rw [hl, cons_append, jumpsFrom, jumpsFrom]
    by_cases h : p.1 = text
    · rw [if_neg (not_not.mpr h), if_neg (not_not.mpr h), ih, h]
    · rw [if_pos h, if_pos h, ih, cons_append]

theorem Climbs.jumpTimes_concat (h : Climbs path a) (q : Nat × Nat) :
    jumpTimes (path ++ [q]) = jumpTimes path ++ if q.1 = a.1 then [] else [timeOf q.2] := by
  have hl := h.last
  cases path with
  | nil => cases hl
  | cons p path =>
    rw [cons_append, jumpTimes, jumpTimes, jumpsFrom_concat, cons_append]
    suffices hs : ((path.getLast?.map Prod.fst).getD p.1) = a.1 by rw [hs]
    cases path with
    | nil => rw [← Option.some.inj hl]; rfl
    | cons =>
      rw [getLast?_cons_cons] at hl
      rw [hl]
      rfl

theorem Climbs.jumps (h : Climbs path a) :
    (jumpTimes path).length = a.1 + 1 ∧ (∀ t ∈ jumpTimes path, 0 ≤ t ∧ t ≤ timeOf a.2) ∧
      (jumpTimes path).Pairwise (· ≤ ·) := by
  induction h with
  | start => simp [jumpTimes, jumpsFrom, timeOf]
  | @step path a b hp hst ih =>
    obtain ⟨hl, hbd, hso⟩ := ih
    have hm := timeOf_mono hst.le.2
    have hbd' : ∀ t ∈ jumpTimes path, 0 ≤ t ∧ t ≤ timeOf b.2 :=
      fun t ht => ⟨(hbd t ht).1, (hbd t ht).2.trans hm⟩
    rw [hp.jumpTimes_concat]
    by_cases hs : b.1 = a.1
    · rw [if_pos hs, append_nil, hs]
      exact ⟨hl, hbd', hso⟩
    · have hn : b.1 = a.1 + 1 := by
        obtain rfl | rfl | rfl := hst
        · rfl
        · rfl
        · exact absurd rfl hs
      rw [if_neg hs]
      refine ⟨by rw [length_append, hl, hn]; rfl, ?_, ?_⟩
      · intro t ht
        obtain ht | ht := mem_append.mp ht
        · exact hbd' t ht
        · rw [mem_singleton.mp ht]
          exact ⟨timeOf_nonneg _, le_rfl⟩
      · refine pairwise_append.mpr ⟨hso, pairwise_singleton _ _, ?_⟩
        intro t ht u hu
        rw [mem_singleton.mp hu]
        exact (hbd' t ht).2

theorem getD_le_getD {jumps : List ℚ} (hs : jumps.Pairwise (· ≤ ·)) {a b : Nat} (hab : a ≤ b)
    (hb : b < jumps.length) : jumps.getD a 0 ≤ jumps.getD b 0 := by
  obtain rfl | hlt := hab.eq_or_lt
  · exact le_rfl
  · rw [getD_eq_getElem?_getD, getD_eq_getElem?_getD,
      getElem?_eq_getElem (hlt.trans hb), getElem?_eq_getElem hb]
    exact pairwise_iff_getElem.mp hs a b (hlt.trans hb) hb hlt

/-! ### Words -/

def groupTokens (groups : List TokenGroup) : List Nat := groups.flatMap Prod.snd

variable (tokenizer : WhisperTokenizer)

theorem splitTokens_spec (full : Text) (tokens : List Nat) :
    ∀ state : List TokenGroup × List Nat × Nat, (∀ g ∈ state.1, g.2 ≠ []) →
      let last := tokens.foldl (splitToken tokenizer full) state
      (∀ g ∈ last.1, g.2 ≠ []) ∧
        groupTokens last.1 ++ last.2.1 = groupTokens state.1 ++ state.2.1 ++ tokens := by
  induction tokens with
  | nil => intro state hs; exact ⟨hs, (append_nil _).symm⟩
  | cons token tokens ih =>
    intro ⟨groups, current, offset⟩ hs
    have hst : (∀ g ∈ (splitToken tokenizer full (groups, current, offset) token).1, g.2 ≠ []) ∧
        groupTokens (splitToken tokenizer full (groups, current, offset) token).1 ++
          (splitToken tokenizer full (groups, current, offset) token).2.1 =
        groupTokens groups ++ current ++ [token] := by
      rw [splitToken]
      split_ifs with h
      · refine ⟨?_, by simp [groupTokens]⟩
        intro g hg
        obtain hg | hg := mem_append.mp hg
        · exact hs g hg
        · rw [mem_singleton.mp hg]
          exact concat_ne_nil _ _
      · exact ⟨hs, (append_assoc _ _ _).symm⟩
    obtain ⟨hne, ht⟩ := ih _ hst.1
    refine ⟨hne, ht.trans ?_⟩
    rw [hst.2]
    simp

theorem splitTokensOnUnicode_spec (tokens : List Nat) :
    (∀ g ∈ splitTokensOnUnicode tokenizer tokens, g.2 ≠ []) ∧
      (groupTokens (splitTokensOnUnicode tokenizer tokens)).length ≤ tokens.length := by
  obtain ⟨hne, ht⟩ := splitTokens_spec tokenizer (decodeWithSpecials tokenizer tokens) tokens
    ([], [], 0) (fun _ h => nomatch h)
  refine ⟨hne, ?_⟩
  have hl := congrArg length ht
  simp only [groupTokens, length_append, flatMap_nil, length_nil] at hl
  rw [splitTokensOnUnicode, groupTokens]
  omega

theorem joinGroup_spec {words : List TokenGroup} {group : TokenGroup}
    (hwo : ∀ w ∈ words, w.2 ≠ []) (hg : group.2 ≠ []) :
    (∀ w ∈ joinGroup tokenizer words group, w.2 ≠ []) ∧
      groupTokens (joinGroup tokenizer words group) = groupTokens words ++ group.2 := by
  obtain rfl | ⟨words, last, rfl⟩ := eq_nil_or_concat' words
  · exact ⟨by simpa [joinGroup] using hg, by simp [joinGroup, groupTokens]⟩
  · rw [joinGroup]
    simp only [getLast?_concat, dropLast_concat]
    split_ifs
    · refine ⟨?_, by simp [groupTokens]⟩
      intro w hw
      obtain hw | hw := mem_append.mp hw
      · exact hwo w hw
      · rwa [mem_singleton.mp hw]
    · refine ⟨?_, by simp [groupTokens]⟩
      intro w hw
      obtain hw | hw := mem_append.mp hw
      · exact hwo w (mem_append_left _ hw)
      · rw [mem_singleton.mp hw]
        exact append_ne_nil_of_right_ne_nil _ hg

theorem foldl_joinGroup_spec (groups : List TokenGroup) :
    ∀ words : List TokenGroup, (∀ w ∈ words, w.2 ≠ []) → (∀ g ∈ groups, g.2 ≠ []) →
      (∀ w ∈ groups.foldl (joinGroup tokenizer) words, w.2 ≠ []) ∧
        groupTokens (groups.foldl (joinGroup tokenizer) words) =
          groupTokens words ++ groupTokens groups := by
  induction groups with
  | nil => intro words hw _; exact ⟨hw, by simp [groupTokens]⟩
  | cons group groups ih =>
    intro words hw hgr
    obtain ⟨hne, ht⟩ := joinGroup_spec tokenizer hw (hgr group mem_cons_self)
    obtain ⟨hne', ht'⟩ := ih _ hne fun g hg => hgr g (mem_cons_of_mem _ hg)
    refine ⟨hne', ?_⟩
    rw [foldl_cons, ht', ht]
    simp [groupTokens]

theorem splitToWordTokens_spec (tokens : List Nat) (language : Text) :
    (∀ w ∈ splitToWordTokens tokenizer tokens language, w.2 ≠ []) ∧
      (groupTokens (splitToWordTokens tokenizer tokens language)).length ≤ tokens.length := by
  obtain ⟨hne, hl⟩ := splitTokensOnUnicode_spec tokenizer tokens
  rw [splitToWordTokens]
  split_ifs
  · exact ⟨hne, hl⟩
  · obtain ⟨hne', ht⟩ := foldl_joinGroup_spec tokenizer
      (splitTokensOnUnicode tokenizer tokens) [] (fun _ h => nomatch h) hne
    exact ⟨hne', by rw [ht]; exact hl⟩

theorem split_counts (text : List Nat) (language : Text) :
    (groupTokens (splitToWordTokens tokenizer (text ++ [tokenizer.special.eot])
      language).dropLast).length ≤ text.length := by
  obtain ⟨hne, hl⟩ := splitToWordTokens_spec tokenizer (text ++ [tokenizer.special.eot]) language
  obtain h | ⟨words, last, h⟩ := eq_nil_or_concat'
    (splitToWordTokens tokenizer (text ++ [tokenizer.special.eot]) language)
  · rw [h]; exact Nat.zero_le _
  · rw [h] at hne hl ⊢
    have hla : 0 < last.2.length := length_pos_of_ne_nil (hne last (by simp))
    rw [dropLast_concat]
    simp only [groupTokens, flatMap_append, flatMap_singleton, length_append,
      length_singleton] at hl ⊢
    omega

/-! ### Times -/

theorem boundariesFrom_head (start : Nat) (groups : List TokenGroup) :
    ∃ rest, boundariesFrom start groups = start :: rest := by
  cases groups with
  | nil => exact ⟨[], rfl⟩
  | cons => exact ⟨_, rfl⟩

theorem timeWords_spec {P : Type} (probability : Nat → Nat → P) {jumps : List ℚ}
    (hso : jumps.Pairwise (· ≤ ·)) (words : List TokenGroup) :
    ∀ (groups : List TokenGroup) (start : Nat),
      start + (groupTokens groups).length < jumps.length →
      (∀ w ∈ timeWords probability jumps words (boundariesFrom start groups), ∃ a b,
        start ≤ a ∧ a < jumps.length ∧ b < jumps.length ∧ w.start = jumps.getD a 0 ∧
          w.stop = jumps.getD b 0) ∧
      ((timeWords probability jumps words (boundariesFrom start groups)).map
        WordTiming.start).Pairwise (· ≤ ·) := by
  induction words with
  | nil => intro groups start _; simp [timeWords]
  | cons word words ih =>
    intro groups start hlen
    cases groups with
    | nil => simp [boundariesFrom, timeWords]
    | cons group groups =>
      have hsum : (groupTokens (group :: groups)).length =
          group.2.length + (groupTokens groups).length := by simp [groupTokens]
      rw [hsum] at hlen
      obtain ⟨hwo, hs⟩ := ih groups (start + group.2.length) (by omega)
      obtain ⟨rest, hr⟩ := boundariesFrom_head (start + group.2.length) groups
      rw [boundariesFrom, hr, timeWords]
      rw [hr] at hwo hs
      refine ⟨?_, ?_⟩
      · intro w hw
        obtain rfl | hw := mem_cons.mp hw
        · exact ⟨start, start + group.2.length, le_rfl, by omega, by omega, rfl, rfl⟩
        · obtain ⟨a, b, hle, ha, hb, hab⟩ := hwo w hw
          exact ⟨a, b, by omega, ha, hb, hab⟩
      · refine pairwise_cons.mpr ⟨?_, hs⟩
        intro t ht
        obtain ⟨w, hw, rfl⟩ := mem_map.mp ht
        obtain ⟨a, b, hle, ha, -, hst, -⟩ := hwo w hw
        rw [hst]
        exact getD_le_getD hso (by omega) ha

/-! ### A single frame -/

section

variable {K : Type} [Field K] [LinearOrder K] [IsStrictOrderedRing K] {exp sqrt : K → K}

omit [Field K] [IsStrictOrderedRing K] in
theorem medianFilter_short {cols width : Nat} (h : cols ≤ width / 2) (row : Nat → Option K)
    (c : Nat) : medianFilter cols width row c = row c :=
  if_pos h

/-- Over a single frame every token's attention is the same, so none of it can be normalized. -/
theorem costMatrix_one (hexp : exp 0 = 1) (hsqrt : sqrt 0 = 0) (heads : Nat) (text : List Nat)
    (weights : Nat → Nat → Nat → K) (i : Nat) :
    costMatrix exp sqrt heads 1 text weights i 0 = none := by
  have hs : ∀ row : Nat → K, softmax exp 1 row 0 = 1 := fun row => by simp [softmax, hexp]
  have hn : ∀ head token, normalize sqrt (text.length + 5)
      (fun other => softmax exp 1 (weights head other)) 0 token = none := fun head token => by
    have hne : ((text.length + 5 : Nat) : K) ≠ 0 := Nat.cast_ne_zero.mpr (by omega)
    simp only [normalize, hs, map_const', length_range, sum_replicate, nsmul_eq_mul, mul_one,
      div_self hne, sub_self]
    simp [quotient, hsqrt]
  have hf : ∀ head token, medianFilter 1 medfiltWidth (fun frame => normalize sqrt
      (text.length + 5) (fun other => softmax exp 1 (weights head other)) frame token) 0 = none :=
    fun head token => (medianFilter_short (by decide) _ _).trans (hn head token)
  rw [costMatrix]
  cases heads with
  | zero => simp [quotient]
  | succ heads =>
    simp only [hf, range_succ_eq_map, foldlM_cons]
    rfl

end

/-! ### Alignments -/

variable {X α P : Type} [LinearOrder α] [Zero α]

/-- What aligning the words of a window should give: a path inside the matrix from its first cell to
its last, and times inside the window. -/
def AlignedInside (narrow : X → α → α) (text : List Nat) (numFrames : Nat)
    (x : Nat → Nat → Option X) (found : Option (List (WordTiming P))) : Prop :=
  ∃ path words,
    dtw narrow x (alignmentRows text) (alignmentFrames numFrames) = some path ∧
    found = some words ∧
    PathInside path (alignmentRows text) (alignmentFrames numFrames) ∧
    (∀ t ∈ jumpTimes path, 0 ≤ t ∧ t ≤ timeOf (alignmentFrames numFrames)) ∧
    (∀ w ∈ words, (0 ≤ w.start ∧ w.start ≤ timeOf (alignmentFrames numFrames)) ∧
      (0 ≤ w.stop ∧ w.stop ≤ timeOf (alignmentFrames numFrames))) ∧
    (words.map WordTiming.start).Pairwise (· ≤ ·)

/-- No entry of the matrix is NaN. -/
def Numbers (text : List Nat) (numFrames : Nat) (x : Nat → Nat → Option X) : Prop :=
  ∀ i < alignmentRows text, ∀ j < alignmentFrames numFrames, x i j ≠ none

instance [DecidableEq X] (text : List Nat) (numFrames : Nat) (x : Nat → Nat → Option X) :
    Decidable (Numbers text numFrames x) :=
  inferInstanceAs (Decidable (∀ i < alignmentRows text, ∀ j < alignmentFrames numFrames,
    x i j ≠ none))

variable {narrow : X → α → α} {language : Text} {text : List Nat} {numFrames : Nat}
  {x : Nat → Nat → Option X} {found : Option (List (WordTiming P))}

theorem AlignedInside.two_le (h : AlignedInside narrow text numFrames x found) : 2 ≤ numFrames := by
  obtain ⟨path, -, -, -, hp, -⟩ := h
  obtain ⟨rest, rfl⟩ := head?_eq_some_iff.mp hp.first
  have hf := (hp.inside (0, 0) mem_cons_self).2
  simp only [alignmentFrames] at hf
  omega

theorem AlignedInside.four_le (h : AlignedInside narrow text numFrames x found) (htext : text ≠ [])
    (hx : alignmentFrames numFrames = 1 → ∀ i, x i 0 = none) : 4 ≤ numFrames := by
  have htwo := h.two_le
  by_contra hlt
  have hone : alignmentFrames numFrames = 1 := by
    simp only [alignmentFrames]
    omega
  obtain ⟨path, -, hp, -, hin, -⟩ := h
  obtain ⟨n, hn⟩ := Nat.exists_eq_succ_of_ne_zero (mt length_eq_zero_iff.mp htext)
  rw [hone, alignmentRows, hn] at hp
  rw [hone] at hin
  exact absurd (hin.inside _ (dtw_nan narrow x (hx hone) hp)).2 (show ¬ 2 ^ 64 - 1 < 1 by decide)

theorem alignWords_inside (htext : text ≠ []) (hframes : 2 ≤ numFrames)
    (hx : Numbers text numFrames x) (probability : Nat → Nat → P) :
    AlignedInside narrow text numFrames x
      (alignWords narrow tokenizer language text numFrames x probability) := by
  obtain ⟨m, hm⟩ := Nat.exists_eq_succ_of_ne_zero
    (show alignmentFrames numFrames ≠ 0 by rw [alignmentFrames]; omega)
  rw [Numbers, hm] at hx
  obtain ⟨path, hp, hc⟩ := dtw_climbs narrow x hx
  obtain ⟨hju, hbd, hso⟩ := hc.jumps
  have hbd' : ∀ t ∈ jumpTimes path, 0 ≤ t ∧ t ≤ timeOf (m + 1) :=
    fun t ht => ⟨(hbd t ht).1, (hbd t ht).2.trans (timeOf_mono m.le_succ)⟩
  -- a jump within the path's is a time of the window
  have hj : ∀ k < (jumpTimes path).length,
      0 ≤ (jumpTimes path).getD k 0 ∧ (jumpTimes path).getD k 0 ≤ timeOf (m + 1) := by
    intro k hk
    rw [getD_eq_getElem?_getD, getElem?_eq_getElem hk]
    exact hbd' _ (getElem_mem hk)
  let split := splitToWordTokens tokenizer (text ++ [tokenizer.special.eot]) language
  have hco : (groupTokens split.dropLast).length ≤ text.length :=
    split_counts tokenizer text language
  obtain ⟨hwo, hstrt⟩ := timeWords_spec probability hso split split.dropLast 0
    (by rw [hju]; exact (Nat.zero_add _).trans_lt (Nat.lt_succ_of_le hco))
  have hf : alignWords narrow tokenizer language text numFrames x probability =
      if split.length ≤ 1 then some [] else
        some (timeWords probability (jumpTimes path) split (boundariesFrom 0 split.dropLast)) := by
    rw [alignWords, if_neg htext, hm, alignmentRows, hp]
    rfl
  rw [AlignedInside, hm]
  split_ifs at hf with ho
  · exact ⟨path, [], hp, hf, hc.pathInside, hbd', fun _ h => (nomatch h), List.Pairwise.nil⟩
  · refine ⟨path, _, hp, hf, hc.pathInside, hbd', ?_, hstrt⟩
    intro w hw
    obtain ⟨a, b, -, ha, hb, hs, hstop⟩ := hwo w hw
    rw [hs, hstop]
    exact ⟨hj a ha, hj b hb⟩

def oneWord : WhisperTokenizer where
  bytes := [[0x68, 0x69]]
  special := largeTokens
  bytes_length := by decide

/-- `f64::exp` at zero and far below it. -/
def expOf (v : ℚ) : ℚ := if v = 0 then 1 else 0

/-- `f64::sqrt` at zero and a quarter. -/
def sqrtOf (v : ℚ) : ℚ := if v = 1 / 4 then 1 / 2 else 0

def inTurn (_ token frame : Nat) : ℚ := if token % 2 = frame then 0 else -1000

end LocalAi.Transcription
