import LocalAi.Lib.Bisect
import LocalAi.History.Messages

/-!
# Planning a compaction

The older items of a conversation are summarized and the newer ones kept, at a cut that
should not separate a call from its output or split an assistant turn.

* `plan_cut`: a plan splits at one of the cuts after the leading instructions.
* `plan_length`: when items are counted one token each, a cut is chosen by its length.
* `plan_earliest`: for a count that does not grow when items are dropped, the plan is the
  earliest cut that fits.
-/

open List

namespace LocalAi.History

open Lib (bisect bisect_eq bind_eq_ok)

def role (item : Json) : Option Text := textField item "role"

def callId (item : Json) : Option Text := textField item "call_id"

def isInstruction (item : Json) : Bool :=
  kind item == .message &&
    (role item == some "system".toList || role item == some "developer".toList)

def isUser (item : Json) : Bool := kind item == .message && role item == some "user".toList

def isAssistant (item : Json) : Bool :=
  kind item == .message && role item == some "assistant".toList

/-- How many leading instruction messages `items` starts with. -/
def head (items : List Json) : Nat := (items.takeWhile isInstruction).length

def trackOpen (openCalls : List Text) (item : Json) : List Text :=
  match kind item with
  | .functionCall => openCalls ++ (callId item).toList
  | .functionCallOutput => (callId item).elim openCalls fun id => openCalls.filter (· != id)
  | _ => openCalls

def sameTurn (item : Json) (next : Option Json) : Bool :=
  match next.map kind with
  -- a call belongs to the assistant turn before it
  | some .functionCall =>
    kind item == .reasoning || kind item == .functionCall || isAssistant item
  -- an output answers a call, so it never starts what is kept
  | some .functionCallOutput => true
  | _ => false

def cutsFrom (openCalls : List Text) (index : Nat) : List Json → List Nat
  | [] => []
  | item :: rest =>
    let openCalls := trackOpen openCalls item
    let cuts := cutsFrom openCalls (index + 1) rest
    if openCalls.isEmpty && ! sameTurn item rest.head? && kind item != .reasoning then
      (index + 1) :: cuts
    else cuts

/-- Every index at which the items before it may be summarized and the others kept. -/
def cuts (items : List Json) : List Nat := cutsFrom [] 0 items

/-- The last place of `items` that satisfies `p`. -/
def rposition (p : Json → Bool) (items : List Json) : Option Nat :=
  (items.reverse.findIdx? p).map fun i => items.length - 1 - i

def latestUser (items : List Json) : Option Nat := rposition isUser items

structure Plan where
  /-- How many items are summarized. -/
  split : Nat
  /-- The items kept verbatim. -/
  kept : List Json

/-- The leading instructions, the latest user message and the items from `split` on. -/
def kept (items : List Json) (split : Nat) : List Json :=
  items.take (head items) ++
    (((latestUser items).filter (· < split)).bind fun user => items[user]?).toList ++
    items.drop split

/-- The cuts that leave more than the leading instructions behind them. -/
def planCuts (items : List Json) : List Nat := (cuts items).filter fun cut => head items < cut

/-- Plan one compaction of `items`: the earliest cut whose kept items count at most
`keepTokens`, or the latest cut when none does. -/
def plan {E : Type} (items : List Json) (keepTokens : Nat) (count : List Json → Except E Nat) :
    Except E (Option Plan) := do
  let low ← bisect (fun middle =>
    (count (kept items ((planCuts items).getD middle 0))).map fun n => decide (n ≤ keepTokens))
    0 (planCuts items).length
  pure (((planCuts items)[low]? <|> (planCuts items).getLast?).map fun split =>
    ⟨split, kept items split⟩)

/-! ### Cuts -/

def openCalls (items : List Json) : List Text := items.foldl trackOpen []

/-- A cut between `before`, which ends with `item`, and `after`. -/
structure Allowed (opened : List Text) (item : Json) (after : List Json) : Prop where
  closed : opened = []
  turn : sameTurn item after.head? = false
  reasoning : kind item ≠ .reasoning

variable {items : List Json}

variable {index k split : Nat} {f : Nat → Bool}

theorem mem_cutsFrom {opened : List Text} : k ∈ cutsFrom opened index items ↔
      ∃ before item after, items = before ++ item :: after ∧ k = index + before.length + 1 ∧
        Allowed ((before ++ [item]).foldl trackOpen opened) item after := by
  induction items generalizing opened index with
  | nil => simp [cutsFrom]
  | cons item rest ih =>
    have hr : k ∈ cutsFrom (trackOpen opened item) (index + 1) rest ↔
        ∃ before last after, item :: rest = (item :: before) ++ last :: after ∧
          k = index + (item :: before).length + 1 ∧
          Allowed (((item :: before) ++ [last]).foldl trackOpen opened) last after := by
      rw [ih]
      refine exists_congr fun before => exists_congr fun last => exists_congr fun after => ?_
      simp [Nat.add_assoc, Nat.add_comm 1]
    have hf : ((trackOpen opened item).isEmpty && ! sameTurn item rest.head? &&
        kind item != .reasoning) = true ↔ Allowed (trackOpen opened item) item rest := by
      simp only [Bool.and_eq_true, List.isEmpty_iff, Bool.not_eq_true', bne_iff_ne]
      exact ⟨fun h => ⟨h.1.1, h.1.2, h.2⟩, fun h => ⟨⟨h.closed, h.turn⟩, h.reasoning⟩⟩
    rw [cutsFrom]
    constructor
    · intro h
      by_cases ha : Allowed (trackOpen opened item) item rest
      · rw [if_pos (hf.mpr ha)] at h
        rcases mem_cons.mp h with rfl | h
        · exact ⟨[], item, rest, rfl, rfl, ha⟩
        · obtain ⟨before, last, after, hc⟩ := hr.mp h
          exact ⟨item :: before, last, after, hc⟩
      · rw [if_neg (fun hb => ha (hf.mp hb))] at h
        obtain ⟨before, last, after, hc⟩ := hr.mp h
        exact ⟨item :: before, last, after, hc⟩
    · rintro ⟨before, last, after, heq, hk, ha⟩
      cases before with
      | nil =>
        obtain ⟨rfl, rfl⟩ := heq
        rw [if_pos (hf.mpr ha)]
        exact mem_cons.mpr (.inl hk)
      | cons first before =>
        obtain ⟨rfl, heq⟩ := List.cons.inj heq
        have h := hr.mpr ⟨before, last, after, by rw [heq, List.cons_append], hk, ha⟩
        split
        · exact List.mem_cons_of_mem _ h
        · exact h

theorem mem_cuts : k ∈ cuts items ↔ ∃ before item after, items = before ++ item :: after ∧
      k = before.length + 1 ∧ Allowed (openCalls (before ++ [item])) item after := by
  rw [cuts, mem_cutsFrom]
  simp [openCalls]

theorem cutsFrom_gt {opened : List Text} (h : k ∈ cutsFrom opened index items) :
    index < k := by
  obtain ⟨before, item, after, -, hk, -⟩ := mem_cutsFrom.mp h
  omega

theorem cutsFrom_sorted (opened : List Text) (index : Nat) (items : List Json) :
    (cutsFrom opened index items).Pairwise (· < ·) := by
  induction items generalizing opened index with
  | nil => exact List.Pairwise.nil
  | cons item rest ih =>
    rw [cutsFrom]
    split
    · exact pairwise_cons.mpr ⟨fun k hk => cutsFrom_gt hk, ih _ _⟩
    · exact ih _ _

theorem planCuts_sorted (items : List Json) : (planCuts items).Pairwise (· < ·) :=
  (cutsFrom_sorted _ _ _).filter _

/-! ### Positions -/

theorem instruction_of_lt_head {i : Nat} {item : Json} (hi : i < head items)
    (hitem : items[i]? = some item) : isInstruction item = true := by
  have hg : (items.takeWhile isInstruction)[i]? = some item := by
    have hp := takeWhile_prefix (p := isInstruction) (l := items)
    rw [getElem?_eq_getElem hi, List.IsPrefix.getElem hp hi, ← hitem]
    exact (getElem?_eq_getElem _).symm
  exact mem_takeWhile_imp (mem_of_getElem? hg)

theorem rposition_some {p : Json → Bool} {u : Nat} (h : rposition p items = some u) :
    ∃ item, items[u]? = some item ∧ p item = true := by
  obtain ⟨i, hi, hu⟩ := Option.map_eq_some_iff.mp h
  obtain ⟨hlt, hp, -⟩ := findIdx?_eq_some_iff_getElem.mp hi
  rw [length_reverse] at hlt
  refine ⟨items.reverse[i], ?_, hp⟩
  rw [← hu, ← getElem?_reverse hlt]
  exact getElem?_eq_getElem _

theorem head_le_latestUser {u : Nat} (h : latestUser items = some u) :
    head items ≤ u ∧ u < items.length := by
  obtain ⟨item, hi, hu⟩ := rposition_some h
  obtain ⟨hlt, -⟩ := List.getElem?_eq_some_iff.mp hi
  refine ⟨?_, hlt⟩
  by_contra hle
  have hins := instruction_of_lt_head (by omega) hi
  simp only [isUser, Bool.and_eq_true, beq_iff_eq] at hu
  simp [isInstruction, hu.2] at hins

/-! ### The places that are kept -/

def atPlaces (f : Nat → Bool) (index : Nat) : List Json → List Json
  | [] => []
  | item :: rest =>
    if f index then item :: atPlaces f (index + 1) rest else atPlaces f (index + 1) rest

theorem atPlaces_append {more : List Json} : atPlaces f index (items ++ more) =
      atPlaces f index items ++ atPlaces f (index + items.length) more := by
  induction items generalizing index with
  | nil => rfl
  | cons item rest ih =>
    simp only [cons_append, atPlaces, ih, length_cons]
    rw [show index + 1 + rest.length = index + (rest.length + 1) by omega]
    split <;> rfl

theorem atPlaces_all (items : List Json)
    (h : ∀ i, index ≤ i → i < index + items.length → f i = true) :
    atPlaces f index items = items := by
  induction items generalizing index with
  | nil => rfl
  | cons item rest ih =>
    rw [length_cons] at h
    rw [atPlaces, if_pos (h index (by omega) (by omega)),
      ih fun i h1 h2 => h i (by omega) (by omega)]

theorem atPlaces_none (h : ∀ i, index ≤ i → i < index + items.length → f i = false) :
    atPlaces f index items = [] := by
  induction items generalizing index with
  | nil => rfl
  | cons item rest ih =>
    rw [length_cons] at h
    rw [atPlaces, if_neg (by simp [h index (by omega) (by omega)]),
      ih fun i h1 h2 => h i (by omega) (by omega)]

/-- The places that a compaction at `split` keeps: the leading instructions, the latest user
message and everything from `split` on. -/
def keepsPlace (items : List Json) (split i : Nat) : Bool :=
  decide (i < head items) || latestUser items == some i || decide (split ≤ i)

theorem kept_eq (hs : head items < split) (hle : split ≤ items.length) :
    kept items split = atPlaces (keepsPlace items split) 0 items := by
  have hh : head items ≤ items.length := by omega
  have hpa : items = items.take (head items) ++
      (items.drop (head items)).take (split - head items) ++ items.drop split := by
    conv_lhs => rw [← take_append_drop (head items) items,
      ← take_append_drop (split - head items) (items.drop (head items)), drop_drop,
      show head items + (split - head items) = split by omega, ← append_assoc]
  have hm : atPlaces (keepsPlace items split) (head items)
      ((items.drop (head items)).take (split - head items)) =
      (((latestUser items).filter (· < split)).bind fun user => items[user]?).toList := by
    by_cases hus : ∃ u, latestUser items = some u ∧ u < split
    · obtain ⟨u, hu, hlt⟩ := hus
      obtain ⟨hge, hl⟩ := head_le_latestUser hu
      have hc : (items.drop (head items)).take (split - head items) =
          (items.drop (head items)).take (u - head items) ++ items[u] ::
            (items.drop (u + 1)).take (split - (u + 1)) := by
        have hd : items.drop u = items[u] :: items.drop (u + 1) :=
          drop_eq_getElem_cons hl
        rw [show split - head items = (u - head items) + (split - u) by omega, take_add,
          drop_drop, show head items + (u - head items) = u by omega, hd,
          show split - u = (split - (u + 1)) + 1 by omega, take_succ_cons]
      have hb : ((items.drop (head items)).take (u - head items)).length = u - head items := by
        rw [length_take, length_drop]
        omega
      rw [hc, atPlaces_append, atPlaces_none, hb, atPlaces, if_pos, atPlaces_none]
      · simp [hu, Option.filter, hlt, getElem?_eq_getElem hl]
      · intro i h1 h2
        rw [length_take] at h2
        simp only [keepsPlace, hu, Bool.or_eq_false_iff, decide_eq_false_iff_not, beq_eq_false_iff_ne,
          ne_eq, Option.some.injEq]
        omega
      · simp only [keepsPlace, hu, show head items + (u - head items) = u by omega, beq_self_eq_true,
          Bool.or_true, Bool.true_or]
      · intro i h1 h2
        rw [hb] at h2
        simp only [keepsPlace, hu, Bool.or_eq_false_iff, decide_eq_false_iff_not, beq_eq_false_iff_ne,
          ne_eq, Option.some.injEq]
        omega
    · rw [atPlaces_none]
      · cases hu : latestUser items with
        | none => rfl
        | some u =>
          have : ¬ u < split := fun hlt => hus ⟨u, hu, hlt⟩
          simp [Option.filter, this]
      · intro i h1 h2
        rw [length_take] at h2
        simp only [keepsPlace, Bool.or_eq_false_iff, decide_eq_false_iff_not, beq_eq_false_iff_ne,
          ne_eq]
        exact ⟨⟨by omega, fun hu => hus ⟨i, hu, by omega⟩⟩, by omega⟩
  have ht : (items.take (head items)).length = head items := by
    rw [length_take]
    omega
  have hp := congrArg (atPlaces (keepsPlace items split) 0) hpa
  rw [atPlaces_append, atPlaces_append, Nat.zero_add, ht, hm,
    atPlaces_all (items.take (head items)), atPlaces_all (items.drop split)] at hp
  · exact hp.symm
  · intro i h1 _
    rw [length_append, length_take, length_take, length_drop] at h1
    simp only [keepsPlace, Bool.or_eq_true, decide_eq_true_eq]
    exact .inr (by omega)
  · intro i _ h2
    rw [ht] at h2
    simp only [keepsPlace, Bool.or_eq_true, decide_eq_true_eq]
    exact .inl (.inl (by omega))

/-! ### What a plan chooses -/

theorem plan_cut {E : Type} {keepTokens : Nat} {count : List Json → Except E Nat} {p : Plan}
    (h : plan items keepTokens count = .ok (some p)) :
    p.split ∈ planCuts items ∧ p.kept = kept items p.split := by
  obtain ⟨low, -, h⟩ := bind_eq_ok.mp h
  have h := Except.ok.inj h
  obtain ⟨split, hs, rfl⟩ := Option.map_eq_some_iff.mp h
  refine ⟨?_, rfl⟩
  rw [Option.orElse_eq_orElse, Option.orElse_eq_or] at hs
  rcases Option.or_eq_some_iff.mp hs with hg | ⟨-, hl⟩
  · exact mem_of_getElem? hg
  · exact mem_of_getLast? hl

theorem kept_length (items : List Json) (split : Nat) :
    (kept items split).length = (items.take (head items)).length +
      (if ∃ u, latestUser items = some u ∧ u < split then 1 else 0) + (items.length - split) := by
  simp only [kept, length_append, length_drop]
  congr 2
  cases hu : latestUser items with
  | none => simp
  | some u =>
    obtain ⟨-, hlt⟩ := head_le_latestUser hu
    by_cases hs : u < split
    · simp [hs, Option.filter, getElem?_eq_getElem hlt]
    · simp [hs, Option.filter]

/-- The kept items get fewer as the cut moves later, but for the cuts around the latest user
message, which keep the same. -/
theorem kept_length_le {c : Nat} (hk : k ≤ items.length)
    (hus : ∀ u, latestUser items = some u → u + 1 ≠ k) :
    (kept items c).length ≤ (kept items k).length ↔ k ≤ c := by
  rw [kept_length, kept_length]
  cases hu : latestUser items with
  | none =>
    simp only [reduceCtorEq, false_and, exists_false, if_false]
    omega
  | some u =>
    have := hus u hu
    obtain ⟨-, hlt⟩ := head_le_latestUser hu
    simp only [Option.some.injEq, exists_eq_left']
    split <;> split <;> omega

/-- When every item counts one token, a cut that no other cut keeps as much as is chosen by
the number of items it keeps. -/
theorem plan_length (hk : k ∈ planCuts items) (hu : ∀ u, latestUser items = some u → u + 1 ≠ k) :
    plan items (kept items k).length (fun slice => (.ok slice.length : Except Text Nat)) =
      .ok (some ⟨k, kept items k⟩) := by
  obtain ⟨n, hn, rfl⟩ := mem_iff_getElem.mp hk
  have hlen : (planCuts items)[n] ≤ items.length := by
    obtain ⟨before, item, after, heq, hc, -⟩ := mem_cuts.mp (mem_filter.mp hk).1
    rw [hc, heq]
    simp
  have hf : ∀ i, 0 ≤ i → i < (planCuts items).length →
      ((.ok (kept items ((planCuts items).getD i 0)).length : Except Text Nat).map fun m =>
        decide (m ≤ (kept items (planCuts items)[n]).length)) = .ok (decide (n ≤ i)) := by
    intro i _ hi
    have hs := pairwise_iff_getElem.mp (planCuts_sorted items)
    have ho : (planCuts items)[n] ≤ (planCuts items)[i] ↔ n ≤ i := by
      constructor
      · intro hle
        by_contra hlt
        have := hs i n hi hn (by omega)
        omega
      · intro hle
        rcases Nat.lt_or_eq_of_le hle with hlt | rfl
        · exact Nat.le_of_lt (hs n i hn hi hlt)
        · exact le_rfl
    have hg : (planCuts items).getD i 0 = (planCuts items)[i] := by
      rw [getD_eq_getElem?_getD, getElem?_eq_getElem hi, Option.getD_some]
    simp only [Except.map, hg, kept_length_le hlen hu, ho]
  rw [plan, bisect_eq (Nat.zero_le n) (Nat.le_of_lt hn) hf]
  show Except.ok (((planCuts items)[n]? <|> _).map _) = _
  rw [getElem?_eq_getElem hn]
  rfl

/-! ### The earliest cut that fits -/

theorem atPlaces_sublist {g : Nat → Bool} (hfg : ∀ i, f i = true → g i = true) (index : Nat)
    (items : List Json) : (atPlaces f index items).Sublist (atPlaces g index items) := by
  induction items generalizing index with
  | nil => exact List.Sublist.refl _
  | cons item rest ih =>
    rw [atPlaces, atPlaces]
    by_cases hf : f index = true
    · rw [if_pos hf, if_pos (hfg index hf)]
      exact (ih _).cons_cons item
    · rw [if_neg hf]
      by_cases hg : g index = true
      · rw [if_pos hg]
        exact (ih _).cons item
      · rw [if_neg hg]
        exact ih _

theorem planCuts_le (hk : k ∈ planCuts items) : head items < k ∧ k ≤ items.length := by
  obtain ⟨hc, hh⟩ := mem_filter.mp hk
  obtain ⟨before, item, after, heq, hk, -⟩ := mem_cuts.mp hc
  refine ⟨of_decide_eq_true hh, ?_⟩
  rw [hk, heq]
  simp

/-- A later cut keeps a part of what an earlier one keeps: a place that it keeps is kept by
the earlier cut too, the latest user message by either. -/
theorem kept_sublist {c : Nat} (hc : c ∈ planCuts items) (hk : k ∈ planCuts items) (hle : c ≤ k) :
    (kept items k).Sublist (kept items c) := by
  rw [kept_eq (planCuts_le hc).1 (planCuts_le hc).2, kept_eq (planCuts_le hk).1 (planCuts_le hk).2]
  apply atPlaces_sublist
  intro i hi
  simp only [keepsPlace, Bool.or_eq_true, decide_eq_true_eq] at hi ⊢
  rcases hi with hi | hi
  · exact .inl hi
  · exact .inr (by omega)

theorem plan_eq {E : Type} (items : List Json) (keepTokens : Nat) {count : List Json → Nat}
    (hc : ∀ some all : List Json, some.Sublist all → count some ≤ count all) :
    plan items keepTokens (fun slice => (.ok (count slice) : Except E Nat)) =
      .ok (((planCuts items).find? (fun k => decide (count (kept items k) ≤ keepTokens)) <|>
        (planCuts items).getLast?).map fun split => ⟨split, kept items split⟩) := by
  let fits : Nat → Bool := fun k => decide (count (kept items k) ≤ keepTokens)
  let n := (planCuts items).findIdx fits
  have hso := pairwise_iff_getElem.mp (planCuts_sorted items)
  have ht : ∀ i, 0 ≤ i → i < (planCuts items).length →
      ((.ok (count (kept items ((planCuts items).getD i 0))) : Except E Nat).map fun m =>
        decide (m ≤ keepTokens)) = .ok (decide (n ≤ i)) := by
    intro i _ hi
    have hg : (planCuts items).getD i 0 = (planCuts items)[i] := by
      rw [getD_eq_getElem?_getD, getElem?_eq_getElem hi, Option.getD_some]
    have hfi : fits (planCuts items)[i] = decide (n ≤ i) := by
      by_cases hle : n ≤ i
      · have hn : n < (planCuts items).length := by omega
        have hf : fits (planCuts items)[n] = true := findIdx_getElem
        have ho : (planCuts items)[n] ≤ (planCuts items)[i] := by
          rcases Nat.lt_or_eq_of_le hle with hlt | heq
          · exact Nat.le_of_lt (hso n i hn hi hlt)
          · simp only [heq, le_refl]
        have hs := hc _ _ (kept_sublist (getElem_mem hn) (getElem_mem hi) ho)
        have hf := of_decide_eq_true hf
        rw [decide_eq_true hle]
        exact decide_eq_true (Nat.le_trans hs hf)
      · rw [decide_eq_false hle]
        simpa using not_of_lt_findIdx (Nat.lt_of_not_le hle)
    simp only [Except.map, hg]
    exact congrArg Except.ok hfi
  rw [plan, bisect_eq (Nat.zero_le n) findIdx_le_length ht, find?_eq_getElem?_findIdx]
  rfl

theorem getLast?_planCuts (h : (planCuts items).getLast? = some split) :
    ∀ k ∈ planCuts items, k ≤ split := by
  intro k hk
  obtain ⟨before, hsp⟩ := getLast?_eq_some_iff.mp h
  have hs := planCuts_sorted items
  rw [hsp] at hk hs
  rcases mem_append.mp hk with hk | hk
  · exact Nat.le_of_lt ((pairwise_append.mp hs).2.2 k hk split (by simp))
  · rw [mem_singleton.mp hk]

theorem find?_planCuts {fits : Nat → Bool} (h : (planCuts items).find? fits = some split) :
    fits split = true ∧ ∀ k ∈ planCuts items, fits k = true → split ≤ k := by
  obtain ⟨hfit, before, after, hc, hb⟩ := find?_eq_some_iff_append.mp h
  refine ⟨hfit, ?_⟩
  intro k hk hf
  have hs := planCuts_sorted items
  rw [hc] at hk hs
  rcases mem_append.mp hk with hk | hk
  · have := hb k hk
    rw [hf] at this
    cases this
  · rcases mem_cons.mp hk with rfl | hk
    · exact le_rfl
    · have ht := (pairwise_append.mp hs).2.1
      exact Nat.le_of_lt ((pairwise_cons.mp ht).1 k hk)

/-- For every count that does not grow when items are dropped and never fails, there is no
plan exactly when every cut leaves only leading instructions behind it; otherwise the plan
splits at the smallest cut past them whose kept items fit, or at the largest when none does.
What a later such cut keeps is a subsequence of what an earlier one keeps. -/
theorem plan_earliest {E : Type} (items : List Json) (keepTokens : Nat) (count : List Json → Nat)
    (hcount : ∀ some all : List Json, some.Sublist all → count some ≤ count all) :
    let permitted := fun k => k ∈ cuts items ∧ head items < k
    let fits := fun k => count (kept items k) ≤ keepTokens
    ∃ planned : Option Plan,
      plan items keepTokens (fun slice => (.ok (count slice) : Except E Nat)) = .ok planned ∧
      (planned = none ↔ ¬ ∃ k, permitted k) ∧
      (∀ p, planned = some p → permitted p.split ∧ p.kept = kept items p.split ∧
        ((∃ k, permitted k ∧ fits k) → fits p.split ∧ ∀ k, permitted k → fits k → p.split ≤ k) ∧
        ((¬ ∃ k, permitted k ∧ fits k) → ∀ k, permitted k → k ≤ p.split)) ∧
      (∀ c k, permitted c → permitted k → c ≤ k → (kept items k).Sublist (kept items c)) := by
  intro permitted fits
  have hm : ∀ k, permitted k ↔ k ∈ planCuts items := by
    intro k
    simp only [planCuts, mem_filter, decide_eq_true_eq, permitted]
  have hpl := @plan_eq E items keepTokens count hcount
  refine ⟨_, hpl, ?_, ?_, ?_⟩
  · rw [Option.map_eq_none_iff, Option.orElse_eq_orElse, Option.orElse_eq_or, Option.or_eq_none_iff,
      getLast?_eq_none_iff]
    constructor
    · rintro ⟨-, hnil⟩ ⟨k, hk⟩
      rw [hm, hnil] at hk
      cases hk
    · intro hn
      have hnil : planCuts items = [] := by
        rw [eq_nil_iff_forall_not_mem]
        exact fun k hk => hn ⟨k, (hm k).mpr hk⟩
      exact ⟨by rw [hnil]; rfl, hnil⟩
  · intro p hp
    obtain ⟨hs, hke⟩ := plan_cut (hpl.trans (congrArg Except.ok hp))
    refine ⟨(hm _).mpr hs, hke, ?_⟩
    obtain ⟨split, hch, rfl⟩ := Option.map_eq_some_iff.mp hp
    rw [Option.orElse_eq_orElse, Option.orElse_eq_or] at hch
    rcases Option.or_eq_some_iff.mp hch with hfo | ⟨hn, hla⟩
    · obtain ⟨hfit, hl⟩ := find?_planCuts hfo
      have hfit : fits split := of_decide_eq_true hfit
      refine ⟨fun _ => ⟨hfit, ?_⟩, fun h => absurd ⟨split, (hm _).mpr hs, hfit⟩ h⟩
      exact fun k hk hf => hl k ((hm k).mp hk) (decide_eq_true hf)
    · refine ⟨?_, fun _ k hk => getLast?_planCuts hla k ((hm k).mp hk)⟩
      rintro ⟨k, hk, hf⟩
      have := find?_eq_none.mp hn k ((hm k).mp hk)
      exact absurd (decide_eq_true hf) this
  · exact fun c k hc hk hle => kept_sublist ((hm c).mp hc) ((hm k).mp hk) hle

def userItem (text : Text) : Json :=
  .object [("type".toList, .string "message".toList), ("role".toList, .string "user".toList),
    ("content".toList, .string text)]

theorem plan_of_two_users : ∃ p, plan [userItem ['1'], userItem ['2']] 1
        (fun slice => (.ok slice.length : Except Text Nat)) = .ok (some p) ∧ p.split = 1 := by
  obtain ⟨planned, hpl, hn, hs, -⟩ := @plan_earliest Text [userItem ['1'], userItem ['2']] 1
    length fun _ _ h => h.length_le
  have hp : 1 ∈ cuts [userItem ['1'], userItem ['2']] ∧
      head [userItem ['1'], userItem ['2']] < 1 := by decide
  cases planned with
  | none => exact absurd ⟨1, hp⟩ (hn.mp rfl)
  | some p =>
    obtain ⟨hsp, -, hf, -⟩ := hs p rfl
    have hl := (hf ⟨1, hp, by decide⟩).2 1 hp (by decide)
    exact ⟨p, hpl, by omega⟩

end LocalAi.History
