import LocalAi.Admin.Usage
import Mathlib.Algebra.Ring.Int.Defs

/-!
# Usage pages partition time

The pages of a query, one after the other, cut its time into buckets; each matching record is in
one of them, and in one of its results.

* `Cut`: the spans that the loop makes from a cursor on.
* `sqlSum_eq_ok`, `selectRows_eq_ok`: what is summed, where the sums fit.
* `foldlM_placeRow`: the rows of a page, each in its bucket.
* `Counted`: the records of a bucket's time, by their groups.
* `usage_partitions_iff`: the pages partition time and count each record exactly when every sum
  fits 64 bits, the end of the last aligned bucket with them.
-/

open List

namespace LocalAi.Admin

open Lib (Tiles bind_eq_ok ensure ensure_eq_ok exists_forall₂ exists_of_forall₂ group groupKeys
  length_filter_key mapM_eq_ok mem_groupKeys nodup_groupKeys sum_groups within within_iff)

/-! ### Cursors -/

theorem parseDigits_toDigits (n : Nat) : parseDigits (Nat.toDigits 10 n) = some n := by
  have hd : (Nat.toDigits 10 n).all Char.isDigit = true :=
    all_eq_true.mpr fun c hc => Nat.isDigit_of_mem_toDigits (by decide) (by decide) hc
  unfold parseDigits
  rw [if_pos ⟨Nat.toDigits_ne_nil, hd⟩, Nat.ofDigitChars_ten_toDigits]

variable {n start stop time bucket a b : Int} {row : SumRow} {rows : List SumRow} {value : Json}
  {after : Bucket} {record : UsageRecord}

/-- **A cursor** is read back. -/
theorem parseI64_integerText (hn : 0 ≤ n) (hf : InI64 n) : parseI64 (integerText n) = some n := by
  obtain ⟨m, rfl⟩ := Int.eq_ofNat_of_zero_le hn
  have hp := parseDigits_toDigits m
  show parseI64 (Nat.toDigits 10 m) = _
  rcases hd : Nat.toDigits 10 m with _ | ⟨c, rest⟩
  · exact absurd hd Nat.toDigits_ne_nil
  · have hdig : c.isDigit = true :=
      Nat.isDigit_of_mem_toDigits (by decide) (by decide) (hd ▸ mem_cons_self)
    have hm : c ≠ '-' := by
      rintro rfl
      revert hdig
      decide
    have hpl : c ≠ '+' := by
      rintro rfl
      revert hdig
      decide
    rw [hd] at hp
    unfold parseI64
    dsimp only
    rw [if_neg hm, if_neg hpl, hp]
    exact Option.filter_eq_some_iff.mpr ⟨rfl, decide_eq_true hf⟩

theorem pageCursor_cursorText {debug : Text → Text} {first endTime width cursor : Int}
    (hfst : 0 ≤ first) (hle : first ≤ cursor) (hlt : cursor < endTime) (hf : InI64 cursor)
    (hd : width ∣ cursor) :
    pageCursor debug first endTime width (some (cursorText cursor)) = .ok cursor := by
  have hs : stripPrefix pagePrefix (cursorText cursor) = some (integerText cursor) :=
    stripPrefix_eq_some.mpr rfl
  have hm : cursor % width = 0 := Int.emod_eq_zero_of_dvd hd
  unfold pageCursor
  dsimp only
  rw [hs, Option.bind_some, parseI64_integerText (hfst.trans hle) hf, Option.filter_some,
    if_pos (decide_eq_true ⟨hle, hlt, hm⟩)]

/-! ### Spans -/

section Spans

variable {startTime endTime width : Int}

def Cut (startTime endTime width : Int) : Int → List (Int × Int) → Int → Prop
  | cursor, [], last => last = cursor
  | cursor, span :: rest, last =>
    cursor < endTime ∧ InI64 (cursor + width) ∧
      span = (max cursor startTime, min (cursor + width) endTime) ∧
      Cut startTime endTime width (cursor + width) rest last

theorem checked_eq_ok {m : Int} : checked n = .ok m ↔ InI64 n ∧ m = n := by
  unfold checked
  by_cases h : InI64 n
  · rw [if_pos h]
    exact ⟨fun heq => ⟨h, (Except.ok.inj heq).symm⟩, fun heq => by rw [heq.2]⟩
  · rw [if_neg h]
    exact ⟨nofun, fun heq => absurd heq.1 h⟩

variable {spans : List (Int × Int)}

theorem spansFrom_eq_ok {limit : Nat} {cursor : Int} {last : Int} :
    spansFrom startTime endTime width limit cursor = .ok (spans, last) ↔
      Cut startTime endTime width cursor spans last ∧ spans.length ≤ limit ∧
        (last < endTime → spans.length = limit) := by
  induction limit generalizing cursor spans last with
  | zero =>
    constructor
    · intro h
      cases h
      exact ⟨rfl, le_rfl, fun _ => rfl⟩
    · rintro ⟨hc, hl, -⟩
      rw [eq_nil_of_length_eq_zero (Nat.le_zero.mp hl)] at hc ⊢
      rw [show last = cursor from hc]
      rfl
  | succ limit ih =>
    rw [spansFrom]
    by_cases hlt : cursor < endTime
    · rw [if_pos hlt, bind_eq_ok]
      constructor
      · rintro ⟨next, hn, h⟩
        obtain ⟨⟨rest, last'⟩, hr, h⟩ := bind_eq_ok.mp h
        obtain ⟨hf, rfl⟩ := checked_eq_ok.mp hn
        obtain ⟨hc, hl, hs⟩ := ih.mp hr
        cases h
        exact ⟨⟨hlt, hf, rfl, hc⟩, Nat.succ_le_succ hl, fun h => congrArg (· + 1) (hs h)⟩
      · rintro ⟨hc, hl, hs⟩
        cases spans with
        | nil =>
          rw [show last = cursor from hc] at hs
          cases hs hlt
        | cons =>
          obtain ⟨-, hf, rfl, hc⟩ := hc
          refine ⟨_, checked_eq_ok.mpr ⟨hf, rfl⟩, bind_eq_ok.mpr ⟨_, ih.mpr ⟨hc, ?_, ?_⟩, rfl⟩⟩
          · exact Nat.le_of_succ_le_succ hl
          · exact fun h => Nat.succ.inj (hs h)
    · rw [if_neg hlt]
      constructor
      · intro h
        cases h
        exact ⟨rfl, Nat.zero_le _, fun h => absurd h hlt⟩
      · rintro ⟨hc, -, -⟩
        cases spans with
        | nil => rw [show last = cursor from hc]
        | cons => exact absurd hc.1 hlt

variable {cursor last : Int}

theorem Cut.dvd (h : Cut startTime endTime width cursor spans last)
    (hd : width ∣ cursor) : width ∣ last := by
  induction spans generalizing cursor with
  | nil => rwa [show last = cursor from h]
  | cons span rest ih => exact ih h.2.2.2 (Int.dvd_add hd (Int.dvd_refl width))

theorem Cut.le (hw : 0 < width)
    (h : Cut startTime endTime width cursor spans last) : cursor ≤ last := by
  induction spans generalizing cursor with
  | nil => rw [show last = cursor from h]
  | cons span rest ih =>
    have hle := ih h.2.2.2
    omega

theorem cut_append {xs ys : List (Int × Int)} : Cut startTime endTime width cursor (xs ++ ys) last ↔
      ∃ mid, Cut startTime endTime width cursor xs mid ∧
        Cut startTime endTime width mid ys last := by
  induction xs generalizing cursor with
  | nil => exact ⟨fun h => ⟨cursor, rfl, h⟩, fun ⟨mid, hm, h⟩ => by
      rwa [show mid = cursor from hm] at h⟩
  | cons span xs ih =>
    constructor
    · rintro ⟨hlt, hf, hs, hr⟩
      obtain ⟨mid, hxs, hys⟩ := ih.mp hr
      exact ⟨mid, ⟨hlt, hf, hs, hxs⟩, hys⟩
    · rintro ⟨mid, ⟨hlt, hf, hs, hxs⟩, hys⟩
      exact ⟨hlt, hf, hs, ih.mpr ⟨mid, hxs, hys⟩⟩

theorem Cut.mem (hw : 0 < width)
    (h : Cut startTime endTime width cursor spans last) (hd : width ∣ cursor) {span : Int × Int}
    (hs : span ∈ spans) : ∃ bucket, width ∣ bucket ∧ cursor ≤ bucket ∧ bucket + width ≤ last ∧
      span = (max bucket startTime, min (bucket + width) endTime) := by
  induction spans generalizing cursor with
  | nil => cases hs
  | cons first rest ih =>
    obtain ⟨hlt, -, rfl, hc⟩ := h
    rcases mem_cons.mp hs with rfl | hm
    · exact ⟨cursor, hd, Int.le_refl _, hc.le hw, rfl⟩
    · obtain ⟨bucket, hb, hle, hl, hs⟩ :=
        ih hc (Int.dvd_add hd (Int.dvd_refl width)) hm
      exact ⟨bucket, hb, by omega, hl, hs⟩

/-- **The spans** lie one after the other. -/
theorem Cut.tiles (h : Cut startTime endTime width cursor spans last)
    (hne : spans ≠ []) (hw : 0 < width) (hb : startTime < cursor + width)
    (he : startTime < endTime) : Tiles (max cursor startTime) spans (min last endTime) := by
  induction spans generalizing cursor with
  | nil => exact absurd rfl hne
  | cons first rest ih =>
    obtain ⟨hlt, -, rfl, hc⟩ := h
    refine ⟨rfl, by omega, ?_⟩
    cases rest with
    | nil => rw [show last = cursor + width from hc]; rfl
    | cons =>
      have hr := ih hc (cons_ne_nil _ _) (by omega)
      have hnext : cursor + width < endTime := hc.1
      have hs : min (cursor + width) endTime = max (cursor + width) startTime := by omega
      rwa [← hs] at hr

theorem spansFrom_ok (hw : 0 < width) (hla : (endTime - 1) / width * width + width < 2 ^ 63)
    (limit : Nat) {cursor : Int} (hd : width ∣ cursor) (hc : 0 ≤ cursor) :
    ∃ spans last, spansFrom startTime endTime width limit cursor = .ok (spans, last) := by
  induction limit generalizing cursor with
  | zero => exact ⟨[], cursor, rfl⟩
  | succ limit ih =>
    rw [spansFrom]
    by_cases hlt : cursor < endTime
    · obtain ⟨rest, last, hr⟩ :=
        @ih (cursor + width) (Int.dvd_add hd (Int.dvd_refl width)) (by omega)
      have hle : cursor ≤ (endTime - 1) / width * width := by
        obtain ⟨k, rfl⟩ := hd
        have hk : k ≤ (endTime - 1) / width := by
          rw [Int.le_ediv_iff_mul_le hw, Int.mul_comm]
          omega
        rw [Int.mul_comm]
        exact Int.mul_le_mul_of_nonneg_right hk hw.le
      refine ⟨(max cursor startTime, min (cursor + width) endTime) :: rest, last, ?_⟩
      rw [if_pos hlt]
      refine bind_eq_ok.mpr ⟨_, checked_eq_ok.mpr ⟨⟨by omega, by omega⟩, rfl⟩, ?_⟩
      exact bind_eq_ok.mpr ⟨_, hr, rfl⟩
    · rw [if_neg hlt]
      exact ⟨[], cursor, rfl⟩

end Spans

/-! ### Sums -/

def SumFits (xs : List Int) : Prop := ∀ part, part <+: xs → InI64 part.sum

theorem sqlSum_from {xs : List Int} {sum : Int} : xs.foldlM (fun sum x =>
      if InI64 (sum + x) then Except.ok (sum + x) else .error UsageFault.integerOverflow) sum =
    .ok n ↔ n = sum + xs.sum ∧ ∀ part, part <+: xs → part ≠ [] → InI64 (sum + part.sum) := by
  induction xs generalizing sum with
  | nil =>
    rw [foldlM_nil, sum_nil, Int.add_zero]
    constructor
    · intro h
      cases h
      exact ⟨rfl, fun part hp hne => absurd (prefix_nil.mp hp) hne⟩
    · rintro ⟨rfl, -⟩
      rfl
  | cons x xs ih =>
    rw [foldlM_cons, bind_eq_ok]
    constructor
    · rintro ⟨next, hn, h⟩
      by_cases hf : InI64 (sum + x)
      · rw [if_pos hf] at hn
        cases hn
        obtain ⟨rfl, hr⟩ := ih.mp h
        refine ⟨by rw [sum_cons, Int.add_assoc], fun part hp hne => ?_⟩
        cases part with
        | nil => exact absurd rfl hne
        | cons y part =>
          obtain ⟨rfl, hp'⟩ := cons_prefix_cons.mp hp
          rw [sum_cons, ← Int.add_assoc]
          by_cases hnil : part = []
          · rw [hnil, sum_nil, Int.add_zero]
            exact hf
          · exact hr part hp' hnil
      · rw [if_neg hf] at hn
        cases hn
    · rintro ⟨rfl, hf⟩
      have hfst : InI64 (sum + x) := by
        have := hf [x] (cons_prefix_cons.mpr ⟨rfl, nil_prefix⟩) (cons_ne_nil _ _)
        rwa [sum_singleton] at this
      refine ⟨_, if_pos hfst, ih.mpr ⟨by rw [sum_cons, Int.add_assoc], ?_⟩⟩
      intro part hp _
      have := hf (x :: part) (cons_prefix_cons.mpr ⟨rfl, hp⟩) (cons_ne_nil _ _)
      rwa [sum_cons, ← Int.add_assoc] at this

theorem sqlSum_eq_ok {xs : List Int} : sqlSum xs = .ok n ↔ n = xs.sum ∧ SumFits xs := by
  unfold sqlSum
  rw [sqlSum_from, Int.zero_add]
  refine and_congr_right fun _ => ⟨fun h part hp => ?_, fun h part hp _ => ?_⟩
  · by_cases hne : part = []
    · rw [hne]
      exact ⟨by decide, by decide⟩
    · have hs := h part hp hne
      rwa [Int.zero_add] at hs
  · rw [Int.zero_add]
    exact h part hp

def total (records : List UsageRecord) (measure : Measure) : Int :=
  (records.map (·.count measure)).sum

def rowOf (key : Int × List SqlValue) (records : List UsageRecord) : SumRow :=
  ⟨key.1, key.2, total records⟩

theorem sumRow_eq_ok {key : Int × List SqlValue} {records : List UsageRecord} :
    sumRow key records = .ok row ↔
      row = rowOf key records ∧ ∀ measure : Measure, SumFits (records.map (·.count measure)) := by
  unfold sumRow rowOf
  simp only [bind_eq_ok, sqlSum_eq_ok]
  constructor
  · rintro ⟨_, ⟨rfl, h₁⟩, _, ⟨rfl, h₂⟩, _, ⟨rfl, h₃⟩, _, ⟨rfl, h₄⟩, _, ⟨rfl, h₅⟩, h⟩
    refine ⟨?_, fun measure => ?_⟩
    · rw [← Except.ok.inj h]
      refine congrArg (SumRow.mk key.1 key.2) (funext fun measure => ?_)
      cases measure <;> rfl
    · cases measure <;> assumption
  · rintro ⟨rfl, h⟩
    refine ⟨_, ⟨rfl, h _⟩, _, ⟨rfl, h _⟩, _, ⟨rfl, h _⟩, _, ⟨rfl, h _⟩, _, ⟨rfl, h _⟩, ?_⟩
    refine congrArg (fun sums => Except.ok (SumRow.mk key.1 key.2 sums)) (funext fun measure => ?_)
    cases measure <;> rfl

variable {query : UsageQuery}

theorem selectRows_eq_ok {records : List UsageRecord} :
    let selected := records.filter (query.selects start stop)
    let keys := groupKeys keyLe query.key selected
    selectRows query start stop records = .ok rows ↔
      rows = keys.map (fun k => rowOf k (group query.key k selected)) ∧
        ∀ k ∈ keys, ∀ measure : Measure,
          SumFits ((group query.key k selected).map (·.count measure)) := by
  intro selected keys
  show keys.mapM _ = _ ↔ _
  rw [mapM_eq_ok]
  simp only [sumRow_eq_ok]
  generalize keys = keys
  induction keys generalizing rows with
  | nil => simp
  | cons k keys ih =>
    rw [forall₂_cons_left_iff, map_cons]
    constructor
    · rintro ⟨row, rest, ⟨rfl, hf⟩, hr, rfl⟩
      obtain ⟨rfl, ha⟩ := ih.mp hr
      exact ⟨rfl, forall_mem_cons.mpr ⟨hf, ha⟩⟩
    · rintro ⟨rfl, ha⟩
      obtain ⟨hf, ha⟩ := forall_mem_cons.mp ha
      exact ⟨_, _, ⟨rfl, hf⟩, ih.mpr ⟨rfl, ha⟩, rfl⟩

/-! ### Rows in their buckets -/

/-- A result needs one more difference. -/
def Uncached (kind : UsageKind) (sums : Measure → Int) : Prop :=
  kind = .completions → InI64 (sums .inputTokens - sums .inputCachedTokens)

theorem result_ok : (∃ value, result query row = .ok value) ↔ Uncached query.kind row.sums := by
  have hm : (∃ members, resultMembers query.kind row.sums = .ok members) ↔
      Uncached query.kind row.sums := by
    cases hk : query.kind with
    | completions =>
      constructor
      · rintro ⟨members, h⟩ -
        obtain ⟨uncached, h, -⟩ := bind_eq_ok.mp h
        exact (checked_eq_ok.mp h).1
      · intro h
        exact ⟨_, bind_eq_ok.mpr ⟨_, checked_eq_ok.mpr ⟨h rfl, rfl⟩, rfl⟩⟩
    | _ => exact ⟨nofun, fun _ => ⟨_, rfl⟩⟩
  rw [← hm]
  constructor
  · rintro ⟨value, h⟩
    obtain ⟨members, h, -⟩ := bind_eq_ok.mp h
    exact ⟨members, h⟩
  · rintro ⟨members, h⟩
    exact ⟨_, bind_eq_ok.mpr ⟨members, h, rfl⟩⟩

def Apart (data : List Bucket) : Prop :=
  data.Pairwise fun b b' => ∀ time, b.holds time = true → b'.holds time = false

theorem pushResult_eq_map {data : List Bucket} (h : Apart data) :
    pushResult time value data = data.map fun bucket =>
      if bucket.holds time then { bucket with results := bucket.results ++ [value] }
      else bucket := by
  induction data with
  | nil => rfl
  | cons bucket rest ih =>
    obtain ⟨hf, hr⟩ := pairwise_cons.mp h
    rw [pushResult, map_cons]
    by_cases hh : bucket.holds time = true
    · rw [if_pos hh, if_pos hh]
      refine congrArg _ ((map_id rest).symm.trans (map_congr_left fun b hb => ?_))
      rw [if_neg (by rw [hf b hb time hh]; exact Bool.false_ne_true)]
      rfl
    · rw [if_neg hh, if_neg hh, ih hr]

structure Filled (query : UsageQuery) (start : Int) (rows : List SumRow) (before after : Bucket) :
    Prop where
  object : after.object = before.object
  startTime : after.startTime = before.startTime
  endTime : after.endTime = before.endTime
  results : ∃ values, after.results = before.results ++ values ∧
    List.Forall₂ (fun row value => result query row = .ok value)
      (rows.filter fun row => before.holds (max row.bucket start)) values

theorem filled_nil {before : Bucket} :
    Filled query start [] before after ↔ before = after := by
  constructor
  · rintro ⟨ho, hs, he, values, hr, hv⟩
    cases hv
    rw [append_nil] at hr
    obtain ⟨object, startTime, endTime, results⟩ := after
    cases ho
    cases hs
    cases he
    cases hr
    rfl
  · rintro rfl
    exact ⟨rfl, rfl, rfl, [], (append_nil _).symm, .nil⟩

theorem filled_cons {before : Bucket} (hval : result query row = .ok value) :
    Filled query start (row :: rows) before after ↔ Filled query start rows
      (if before.holds (max row.bucket start) then
        { before with results := before.results ++ [value] } else before) after := by
  by_cases hh : before.holds (max row.bucket start) = true
  · rw [if_pos hh]
    constructor
    · rintro ⟨ho, hs, he, values, hr, hv⟩
      rw [filter_cons, if_pos hh] at hv
      obtain ⟨first, rest, hf, hre, rfl⟩ := forall₂_cons_left_iff.mp hv
      cases hval.symm.trans hf
      exact ⟨ho, hs, he, rest, by rw [hr, append_assoc]; rfl, hre⟩
    · rintro ⟨ho, hs, he, values, hr, hv⟩
      refine ⟨ho, hs, he, value :: values, ?_, ?_⟩
      · rw [hr, append_assoc]
        rfl
      · rw [filter_cons, if_pos hh]
        exact .cons hval hv
  · have hsa : ((row :: rows).filter fun row => before.holds (max row.bucket start)) =
        rows.filter fun row => before.holds (max row.bucket start) := by
      rw [filter_cons, if_neg hh]
    rw [if_neg hh]
    constructor
    · rintro ⟨ho, hs, he, hr⟩
      exact ⟨ho, hs, he, hsa ▸ hr⟩
    · rintro ⟨ho, hs, he, hr⟩
      exact ⟨ho, hs, he, hsa.symm ▸ hr⟩

theorem apart_push {data : List Bucket} (h : Apart data) : Apart (data.map fun bucket =>
      if bucket.holds time then { bucket with results := bucket.results ++ [value] }
      else bucket) := by
  refine pairwise_map.mpr (h.imp fun {b b'} ha t hh => ?_)
  have hs : ∀ b : Bucket, Bucket.holds (if b.holds time then
      { b with results := b.results ++ [value] } else b) t = b.holds t := by
    intro b
    by_cases hb : b.holds time = true
    · rw [if_pos hb]
      rfl
    · rw [if_neg hb]
  rw [hs] at hh ⊢
  exact ha t hh

theorem foldlM_placeRow {query : UsageQuery} {start : Int} {rows : List SumRow}
    {data data' : List Bucket} (h : Apart data)
    (hin : ∀ row ∈ rows, ∃ bucket ∈ data, bucket.holds (max row.bucket start) = true) :
    rows.foldlM (placeRow query start) data = .ok data' ↔
      List.Forall₂ (Filled query start rows) data data' := by
  induction rows generalizing data with
  | nil =>
    have hnil : Filled query start [] = Eq :=
      funext fun _ => funext fun _ => propext filled_nil
    rw [foldlM_nil, hnil, forall₂_eq_eq_eq]
    exact ⟨fun h => Except.ok.inj h, fun h => congrArg Except.ok h⟩
  | cons row rows ih =>
    obtain ⟨bucket, hbkt, hh⟩ := hin row mem_cons_self
    have hany : (data.any fun bucket => bucket.holds (max row.bucket start)) = true :=
      any_eq_true.mpr ⟨bucket, hbkt, hh⟩
    have hk : ∀ value, ∀ row' ∈ rows, ∃ bucket ∈ data.map fun bucket : Bucket =>
        if bucket.holds (max row.bucket start) then
          { bucket with results := bucket.results ++ [value] } else bucket,
        bucket.holds (max row'.bucket start) = true := by
      intro value row' hrow'
      obtain ⟨b, hb, hh'⟩ := hin row' (mem_cons_of_mem _ hrow')
      refine ⟨_, mem_map_of_mem hb, ?_⟩
      by_cases hpu : b.holds (max row.bucket start) = true
      · rw [if_pos hpu]
        exact hh'
      · rw [if_neg hpu]
        exact hh'
    rw [foldlM_cons, bind_eq_ok]
    have hp : ∀ next, placeRow query start data row = .ok next ↔
        ∃ value, result query row = .ok value ∧
          next = data.map fun bucket : Bucket => if bucket.holds (max row.bucket start) then
            { bucket with results := bucket.results ++ [value] } else bucket := by
      intro next
      unfold placeRow
      rw [if_pos hany, bind_eq_ok]
      refine exists_congr fun value => and_congr_right fun _ => ?_
      rw [pushResult_eq_map h]
      exact ⟨fun heq => (Except.ok.inj heq).symm, fun heq => by rw [heq]; rfl⟩
    constructor
    · rintro ⟨next, hn, hr⟩
      obtain ⟨value, hv, rfl⟩ := (hp next).mp hn
      have hf := (ih (apart_push h) (hk value)).mp hr
      rw [forall₂_map_left_iff] at hf
      exact hf.imp fun _ _ hab => (filled_cons hv).mpr hab
    · intro hf
      obtain ⟨value, hv⟩ : ∃ value, result query row = .ok value := by
        obtain ⟨after, -, hfi⟩ := exists_of_forall₂ hf hbkt
        obtain ⟨-, -, -, values, -, hva⟩ := hfi
        rw [filter_cons, if_pos hh] at hva
        obtain ⟨value, -, hv, -, -⟩ := forall₂_cons_left_iff.mp hva
        exact ⟨value, hv⟩
      refine ⟨_, (hp _).mpr ⟨value, hv, rfl⟩, (ih (apart_push h) (hk value)).mpr ?_⟩
      rw [forall₂_map_left_iff]
      exact hf.imp fun _ _ hab => (filled_cons hv).mp hab

/-! ### The records of a page -/

/-- The kind and the filters of a query. -/
def UsageQuery.wants (query : UsageQuery) (record : UsageRecord) : Bool :=
  query.selects record.time (record.time + 1) record

theorem selects_iff : query.selects start stop record = true ↔
      query.wants record = true ∧ start ≤ record.time ∧ record.time < stop := by
  unfold UsageQuery.wants UsageQuery.selects
  simp only [Bool.and_eq_true, decide_eq_true_eq]
  constructor
  · rintro ⟨⟨⟨⟨⟨⟨⟨hk, hs⟩, hst⟩, hp⟩, hu⟩, hkey⟩, hm⟩, hb⟩
    exact ⟨⟨⟨⟨⟨⟨⟨⟨hk, Int.le_refl _⟩, by omega⟩, hp⟩, hu⟩, hkey⟩, hm⟩, hb⟩, hs, hst⟩
  · rintro ⟨⟨⟨⟨⟨⟨⟨⟨hk, -⟩, -⟩, hp⟩, hu⟩, hkey⟩, hm⟩, hb⟩, hs, hst⟩
    exact ⟨⟨⟨⟨⟨⟨⟨hk, hs⟩, hst⟩, hp⟩, hu⟩, hkey⟩, hm⟩, hb⟩

theorem floor_eq_iff {width : Int} (hw : 0 < width) (hd : width ∣ bucket) (ht : 0 ≤ time) :
    time.tdiv width * width = bucket ↔ bucket ≤ time ∧ time < bucket + width := by
  obtain ⟨k, rfl⟩ := hd
  rw [Int.tdiv_eq_ediv_of_nonneg ht, Int.mul_comm width k]
  have hf : time / width * width ≤ time := Int.ediv_mul_le time hw.ne'
  have hc : time < time / width * width + width := by
    have := Int.lt_ediv_add_one_mul_self time hw
    rwa [Int.add_mul, Int.one_mul] at this
  constructor
  · intro h
    omega
  · rintro ⟨hle, hlt⟩
    rw [(Int.ediv_eq_iff_of_pos hw).mpr ⟨hle, hlt⟩]

theorem add_le_of_dvd {width : Int} (hw : 0 < width) (ha : width ∣ a) (hb : width ∣ b)
    (hlt : a < b) : a + width ≤ b := by
  obtain ⟨i, rfl⟩ := ha
  obtain ⟨j, rfl⟩ := hb
  have hij : i < j := Int.lt_of_mul_lt_mul_left hlt hw.le
  have hle : width * (i + 1) ≤ width * j := Int.mul_le_mul_of_nonneg_left hij hw.le
  rwa [Int.mul_add, Int.mul_one] at hle

theorem dvd_key (query : UsageQuery) (record : UsageRecord) :
    query.bucketWidth ∣ (query.key record).1 := Int.dvd_mul_left _ _

section Page

variable {query : UsageQuery} {endTime cursor last : Int} {records : List UsageRecord}

def UsageQuery.members (query : UsageQuery) (endTime : Int) (records : List UsageRecord)
    (k : Int × List SqlValue) : List UsageRecord :=
  group query.key k (records.filter (query.selects query.startTime endTime))

def pageTimes (query : UsageQuery) (endTime cursor last : Int) : Int × Int :=
  (max cursor query.startTime, min last endTime)

theorem members_page (hw : 0 < query.bucketWidth) (hs : 0 ≤ query.startTime)
    (hl : query.bucketWidth ∣ last) {k : Int × List SqlValue} (hle : cursor ≤ k.1)
    (hlt : k.1 < last) :
    group query.key k (records.filter (query.selects (pageTimes query endTime cursor last).1
      (pageTimes query endTime cursor last).2)) = query.members endTime records k := by
  unfold UsageQuery.members group pageTimes
  rw [filter_filter, filter_filter]
  refine filter_congr fun record _ => Bool.eq_iff_iff.mpr ?_
  rw [Bool.and_eq_true, Bool.and_eq_true, decide_eq_true_eq, selects_iff, selects_iff]
  refine and_congr_right fun hk => and_congr_right fun _ => ?_
  have hd := dvd_key query record
  rw [hk] at hd
  have hwh := add_le_of_dvd hw hd hl hlt
  have hf := fun ht : 0 ≤ record.time =>
    (floor_eq_iff hw hd ht).mp (congrArg Prod.fst hk)
  constructor
  · rintro ⟨hfr, hto⟩
    omega
  · rintro ⟨hfr, hto⟩
    have := hf (by omega)
    omega

def KeyFits (query : UsageQuery) (endTime : Int) (records : List UsageRecord)
    (k : Int × List SqlValue) : Prop :=
  (∀ measure : Measure, SumFits ((query.members endTime records k).map (·.count measure))) ∧
    Uncached query.kind (total (query.members endTime records k))

theorem keyFits_of_nil {k : Int × List SqlValue} (h : query.members endTime records k = []) :
    KeyFits query endTime records k := by
  unfold KeyFits Uncached
  rw [h]
  refine ⟨fun measure part hp => ?_, fun _ => by decide⟩
  rw [prefix_nil.mp hp]
  decide

structure Counted (query : UsageQuery) (records : List UsageRecord) (bucket : Bucket)
    (rows : List SumRow) : Prop where
  results : List.Forall₂ (fun row value => result query row = .ok value) rows bucket.results
  distinct : (rows.map SumRow.values).Nodup
  once : ∀ record ∈ records, query.selects bucket.startTime bucket.endTime record = true →
    (rows.filter fun row => row.values = query.values record).length = 1
  sums : ∀ row ∈ rows, ∀ measure, row.sums measure =
    total (records.filter fun record => query.selects bucket.startTime bucket.endTime record &&
      query.values record = row.values) measure
  filled : ∀ row ∈ rows, ∃ record ∈ records,
    query.selects bucket.startTime bucket.endTime record = true ∧ query.values record = row.values

def pageRows (query : UsageQuery) (endTime cursor last : Int) (records : List UsageRecord) :
    List SumRow :=
  let selected := records.filter (query.selects (pageTimes query endTime cursor last).1
    (pageTimes query endTime cursor last).2)
  (groupKeys keyLe query.key selected).map fun k => rowOf k (group query.key k selected)

structure OnPage (query : UsageQuery) (cursor last bucket : Int) : Prop where
  aligned : query.bucketWidth ∣ bucket
  le : cursor ≤ bucket
  ends : bucket + query.bucketWidth ≤ last

def bucketSpan (query : UsageQuery) (endTime bucket : Int) : Int × Int :=
  (max bucket query.startTime, min (bucket + query.bucketWidth) endTime)

/-- **A row falls in its bucket** and in no other. -/
theorem holds_iff (hw : 0 < query.bucketWidth) (hs : 0 ≤ query.startTime)
    (hb : OnPage query cursor last bucket)
    (hr : query.selects (pageTimes query endTime cursor last).1
      (pageTimes query endTime cursor last).2 record = true) :
    (emptyBucket (bucketSpan query endTime bucket)).holds
        (max (query.key record).1 (pageTimes query endTime cursor last).1) = true ↔
      (query.key record).1 = bucket := by
  obtain ⟨-, hf, hto⟩ := selects_iff.mp hr
  have hd := dvd_key query record
  have ht : 0 ≤ record.time := by
    unfold pageTimes at hf
    omega
  obtain ⟨hdo, hup⟩ := (floor_eq_iff hw hd ht).mp rfl
  obtain ⟨ha, hle, hen⟩ := hb
  unfold Bucket.holds emptyBucket bucketSpan pageTimes at *
  rw [Bool.and_eq_true, decide_eq_true_eq, decide_eq_true_eq]
  dsimp only at *
  constructor
  · rintro ⟨hlo, hhi⟩
    rcases lt_trichotomy (query.key record).1 bucket with hlt | heq | hgt
    · have := add_le_of_dvd hw hd ha hlt
      omega
    · exact heq
    · have := add_le_of_dvd hw ha hd hgt
      omega
  · intro heq
    omega

theorem mem_pageRows : row ∈ pageRows query endTime cursor last records ↔
    ∃ record ∈ records, query.selects (pageTimes query endTime cursor last).1
        (pageTimes query endTime cursor last).2 record = true ∧
      row = rowOf (query.key record) (group query.key (query.key record)
        (records.filter (query.selects (pageTimes query endTime cursor last).1
          (pageTimes query endTime cursor last).2))) := by
  unfold pageRows
  rw [mem_map]
  constructor
  · rintro ⟨k, hk, rfl⟩
    obtain ⟨record, hr, rfl⟩ := mem_groupKeys.mp hk
    obtain ⟨hm, hs⟩ := mem_filter.mp hr
    exact ⟨record, hm, hs, rfl⟩
  · rintro ⟨record, hm, hs, rfl⟩
    exact ⟨_, mem_groupKeys.mpr ⟨record, mem_filter.mpr ⟨hm, hs⟩, rfl⟩, rfl⟩

def bucketRows (query : UsageQuery) (endTime cursor last : Int) (records : List UsageRecord)
    (bucket : Int) : List SumRow :=
  (pageRows query endTime cursor last records).filter fun row =>
    (emptyBucket (bucketSpan query endTime bucket)).holds
      (max row.bucket (pageTimes query endTime cursor last).1)

theorem selects_bucket (hw : 0 < query.bucketWidth) (hs : 0 ≤ query.startTime)
    (hb : OnPage query cursor last bucket) :
    query.selects (bucketSpan query endTime bucket).1 (bucketSpan query endTime bucket).2 record =
        true ↔
      query.selects (pageTimes query endTime cursor last).1
        (pageTimes query endTime cursor last).2 record = true ∧
        (query.key record).1 = bucket := by
  obtain ⟨ha, hle, he⟩ := hb
  rw [selects_iff, selects_iff, and_assoc]
  refine and_congr_right fun _ => ?_
  have hf := fun ht : 0 ≤ record.time => floor_eq_iff hw ha ht
  unfold bucketSpan pageTimes UsageQuery.key
  constructor
  · rintro ⟨hlo, hhi⟩
    exact ⟨⟨by omega, by omega⟩, (hf (by omega)).mpr ⟨by omega, by omega⟩⟩
  · rintro ⟨⟨hlo, hhi⟩, hk⟩
    have := (hf (by omega)).mp hk
    omega

theorem counted_bucket (hw : 0 < query.bucketWidth) (hstart : 0 ≤ query.startTime)
    (hb : OnPage query cursor last bucket)
    (hf : Filled query (pageTimes query endTime cursor last).1
      (pageRows query endTime cursor last records)
      (emptyBucket (bucketSpan query endTime bucket)) after) :
    Counted query records after (bucketRows query endTime cursor last records bucket) := by
  obtain ⟨-, hstartTime, hendTime, values, hress, hv⟩ := hf
  have hs : ∀ record : UsageRecord,
      query.selects after.startTime after.endTime record = true ↔
        query.selects (pageTimes query endTime cursor last).1
          (pageTimes query endTime cursor last).2 record = true ∧
          (query.key record).1 = bucket := by
    intro record
    rw [hstartTime, hendTime]
    exact selects_bucket hw hstart hb
  have hm : ∀ row, row ∈ bucketRows query endTime cursor last records bucket ↔
      ∃ record ∈ records, query.selects after.startTime after.endTime record = true ∧
        row = rowOf (query.key record) (group query.key (query.key record)
          (records.filter (query.selects (pageTimes query endTime cursor last).1
            (pageTimes query endTime cursor last).2))) := by
    intro row
    unfold bucketRows
    rw [mem_filter, mem_pageRows]
    constructor
    · rintro ⟨⟨record, hrec, hp, rfl⟩, hh⟩
      exact ⟨record, hrec, (hs record).mpr ⟨hp, (holds_iff hw hstart hb hp).mp hh⟩, rfl⟩
    · rintro ⟨record, hrec, hsel, rfl⟩
      obtain ⟨hp, hk⟩ := (hs record).mp hsel
      exact ⟨⟨record, hrec, hp, rfl⟩, (holds_iff hw hstart hb hp).mpr hk⟩
  have hd : ((bucketRows query endTime cursor last records bucket).map SumRow.values).Nodup := by
    -- the keys are different ones and share their bucket
    have hke : (bucketRows query endTime cursor last records bucket).Pairwise
        fun row row' => (row.bucket, row.values) ≠ (row'.bucket, row'.values) := by
      refine List.Pairwise.filter _ (pairwise_map.mpr ?_)
      exact (nodup_groupKeys keyLe query.key _).imp fun hne => hne
    refine pairwise_map.mpr (hke.imp_of_mem fun {row row'} hr hr' hne hv => ?_)
    obtain ⟨record, -, hsel, rfl⟩ := (hm row).mp hr
    obtain ⟨record', -, hsel', rfl⟩ := (hm row').mp hr'
    exact hne (Prod.ext (((hs record).mp hsel).2.trans ((hs record').mp hsel').2.symm) hv)
  refine ⟨hress ▸ hv, hd, fun record hrec hsel => ?_, fun row hr measure => ?_, fun row hr => ?_⟩
  · exact length_filter_key hd
      (mem_map.mpr ⟨_, (hm _).mpr ⟨record, hrec, hsel, rfl⟩, rfl⟩)
  · obtain ⟨record, -, hsel, rfl⟩ := (hm row).mp hr
    have hk := ((hs record).mp hsel).2
    unfold rowOf group
    rw [filter_filter]
    refine congrArg (fun records => total records measure)
      (filter_congr fun other _ => Bool.eq_iff_iff.mpr ?_)
    rw [Bool.and_eq_true, Bool.and_eq_true, decide_eq_true_eq, decide_eq_true_eq, hs]
    constructor
    · rintro ⟨heq, hp⟩
      exact ⟨⟨hp, (congrArg Prod.fst heq).trans hk⟩, congrArg Prod.snd heq⟩
    · rintro ⟨⟨hp, hoth⟩, heq⟩
      exact ⟨Prod.ext (hoth.trans hk.symm) heq, hp⟩
  · obtain ⟨record, hrec, hsel, rfl⟩ := (hm row).mp hr
    exact ⟨record, hrec, hsel, rfl⟩

/-! ### One page -/

theorem page_bucket (hw : 0 < query.bucketWidth) (hst : 0 ≤ query.startTime)
    (hend : query.startTime < endTime) {spans : List (Int × Int)}
    (hc : Cut query.startTime endTime query.bucketWidth cursor spans last) (hne : spans ≠ [])
    (hcur : query.bucketWidth ∣ cursor) (hb : query.startTime < cursor + query.bucketWidth)
    (hr : query.selects (pageTimes query endTime cursor last).1
      (pageTimes query endTime cursor last).2 record = true) :
    OnPage query cursor last (query.key record).1 ∧
      bucketSpan query endTime (query.key record).1 ∈ spans := by
  obtain ⟨hwa, hf, hto⟩ := selects_iff.mp hr
  obtain ⟨span, hs, hin⟩ :=
    (hc.tiles hne hw hb hend).exists_mem hf hto
  obtain ⟨bucket, ha, hle, he, rfl⟩ := hc.mem hw hcur hs
  have hp : OnPage query cursor last bucket := ⟨ha, hle, he⟩
  have hsel : query.selects (bucketSpan query endTime bucket).1
      (bucketSpan query endTime bucket).2 record = true :=
    selects_iff.mpr ⟨hwa, within_iff.mp hin⟩
  rw [((selects_bucket hw hst hp).mp hsel).2]
  exact ⟨hp, hs⟩

theorem apart_spans {spans : List (Int × Int)} (h : Tiles a spans b) :
    Apart (spans.map emptyBucket) := by
  refine pairwise_map.mpr (h.pairwise.imp fun {s t} hle time hh => ?_)
  unfold Bucket.holds emptyBucket at *
  dsimp only at *
  rw [Bool.and_eq_true, decide_eq_true_eq, decide_eq_true_eq] at hh
  rw [Bool.and_eq_false_iff, decide_eq_false_iff_not]
  exact Or.inl (by omega)

theorem aggregate_eq_ok (hw : 0 < query.bucketWidth) (hs : 0 ≤ query.startTime)
    (he : query.startTime < endTime) {spans : List (Int × Int)}
    (hc : Cut query.startTime endTime query.bucketWidth cursor spans last) (hne : spans ≠ [])
    (hcur : query.bucketWidth ∣ cursor) (hb : query.startTime < cursor + query.bucketWidth)
    {data : List Bucket} : aggregate query (pageTimes query endTime cursor last).1
        (pageTimes query endTime cursor last).2 records (spans.map emptyBucket) = .ok data ↔
      (∀ k, cursor ≤ k.1 → k.1 < last → KeyFits query endTime records k) ∧
        List.Forall₂ (Filled query (pageTimes query endTime cursor last).1
          (pageRows query endTime cursor last records)) (spans.map emptyBucket) data := by
  have hl := hc.dvd hcur
  have hp : ∀ row ∈ pageRows query endTime cursor last records,
      ∃ bucket ∈ spans.map emptyBucket,
        bucket.holds (max row.bucket (pageTimes query endTime cursor last).1) = true := by
    intro row hrow
    obtain ⟨record, -, hr, rfl⟩ := mem_pageRows.mp hrow
    obtain ⟨hpa, hsp⟩ := page_bucket hw hs he hc hne hcur hb hr
    exact ⟨_, mem_map_of_mem hsp, (holds_iff hw hs hpa hr).mpr rfl⟩
  have hfo := @foldlM_placeRow query _ _ _ data (apart_spans (hc.tiles hne hw hb he)) hp
  have hkeys : ∀ k, k ∈ groupKeys keyLe query.key
      (records.filter (query.selects (pageTimes query endTime cursor last).1
        (pageTimes query endTime cursor last).2)) → cursor ≤ k.1 ∧ k.1 < last := by
    intro k hk
    obtain ⟨record, hr, rfl⟩ := mem_groupKeys.mp hk
    obtain ⟨-, hle, hen⟩ := (page_bucket hw hs he hc hne hcur hb (mem_filter.mp hr).2).1
    exact ⟨hle, by omega⟩
  unfold aggregate
  rw [bind_eq_ok]
  constructor
  · rintro ⟨rows, hrows, hd⟩
    obtain ⟨rfl, hfi⟩ := selectRows_eq_ok.mp hrows
    have hf := hfo.mp hd
    refine ⟨fun k hle hlt => ?_, hf⟩
    have hm := @members_page query endTime cursor last records hw hs hl k hle hlt
    by_cases hk : k ∈ groupKeys keyLe query.key
        (records.filter (query.selects (pageTimes query endTime cursor last).1
          (pageTimes query endTime cursor last).2))
    · constructor
      · rw [← hm]
        exact hfi k hk
      · obtain ⟨bucket, hbkt, hh⟩ := hp _ (mem_map_of_mem hk)
        obtain ⟨after, -, -, -, -, values, -, hv⟩ := exists_of_forall₂ hf hbkt
        obtain ⟨value, -, hval⟩ := exists_of_forall₂ hv (mem_filter.mpr ⟨mem_map_of_mem hk, hh⟩)
        have hu := result_ok.mp ⟨value, hval⟩
        rw [hm] at hu
        exact hu
    · have hn : query.members endTime records k = [] := by
        rw [← hm]
        refine filter_eq_nil_iff.mpr fun record hr hkey => hk ?_
        exact mem_groupKeys.mpr ⟨record, hr, of_decide_eq_true hkey⟩
      exact keyFits_of_nil hn
  · rintro ⟨hfi, hf⟩
    refine ⟨_, selectRows_eq_ok.mpr ⟨rfl, fun k hk => ?_⟩, hfo.mpr hf⟩
    obtain ⟨hle, hlt⟩ := hkeys k hk
    rw [members_page hw hs hl hle hlt]
    exact (hfi k hle hlt).1

theorem exists_filled {start : Int} {rows : List SumRow}
    (h : ∀ row ∈ rows, Uncached query.kind row.sums) (before : Bucket) :
    ∃ after, Filled query start rows before after := by
  obtain ⟨values, hv⟩ : ∃ values, List.Forall₂
      (fun row value => result query row = .ok value)
      (rows.filter fun row => before.holds (max row.bucket start)) values :=
    exists_forall₂ fun row hr => result_ok.mpr (h row (mem_filter.mp hr).1)
  exact ⟨{ before with results := before.results ++ values }, rfl, rfl, rfl, values, rfl, hv⟩

end Page

section Pages

variable {env : UsageEnv} {tables : UsageTables} {query : UsageQuery} {endTime cursor last : Int}

def Bucket.span (bucket : Bucket) : Int × Int := (bucket.startTime, bucket.endTime)

/-- Where the page of some spans can be read. -/
def RangeFits (env : UsageEnv) (tables : UsageTables) (query : UsageQuery)
    (endTime cursor last : Int) : Prop :=
  (query.kind ≠ .vectorStores →
    ∀ k, cursor ≤ k.1 → k.1 < last → KeyFits query endTime tables.records k) ∧
  (query.kind = .vectorStores → max cursor query.startTime ≤ env.now →
    env.now < min last endTime → SumFits tables.fileBytes)

structure Shown (tables : UsageTables) (query : UsageQuery) (spans : List (Int × Int))
    (data : List Bucket) : Prop where
  spans : data.map Bucket.span = spans
  counted : query.kind ≠ .vectorStores →
    ∃ rows, List.Forall₂ (Counted query tables.records) data rows

theorem map_span_pushResult (time : Int) (value : Json) (data : List Bucket) :
    (pushResult time value data).map Bucket.span = data.map Bucket.span := by
  induction data with
  | nil => rfl
  | cons bucket rest ih =>
    rw [pushResult]
    by_cases hh : bucket.holds time = true
    · rw [if_pos hh]
      rfl
    · rw [if_neg hh, map_cons, map_cons, ih]

theorem map_span_emptyBucket (spans : List (Int × Int)) :
    (spans.map emptyBucket).map Bucket.span = spans := by
  rw [map_map]
  exact map_id' spans

variable {spans : List (Int × Int)}

theorem snapshot_spec (ht : Tiles a spans b) (now : Int) (fileBytes : List Int) :
    ((∃ data, vectorStoreSnapshot now fileBytes (spans.map emptyBucket) = .ok data) ↔
      (a ≤ now → now < b → SumFits fileBytes)) ∧
    ∀ data, vectorStoreSnapshot now fileBytes (spans.map emptyBucket) = .ok data →
      data.map Bucket.span = spans := by
  unfold vectorStoreSnapshot
  by_cases ha : ((spans.map emptyBucket).any fun bucket => bucket.holds now) = true
  · rw [if_pos ha]
    obtain ⟨bucket, hbkt, hh⟩ := any_eq_true.mp ha
    obtain ⟨span, hs, rfl⟩ := mem_map.mp hbkt
    obtain ⟨hle, -, hge⟩ := ht.mem hs
    have hin : span.1 ≤ now ∧ now < span.2 := within_iff.mp hh
    refine ⟨⟨?_, fun hf => ?_⟩, fun data hd => ?_⟩
    · rintro ⟨data, hd⟩ - -
      obtain ⟨bytes, hb, -⟩ := bind_eq_ok.mp hd
      exact (sqlSum_eq_ok.mp hb).2
    · exact ⟨_, bind_eq_ok.mpr
        ⟨_, sqlSum_eq_ok.mpr ⟨rfl, hf (hle.trans hin.1) (hin.2.trans_le hge)⟩, rfl⟩⟩
    · obtain ⟨bytes, -, hd⟩ := bind_eq_ok.mp hd
      rw [← Except.ok.inj hd, map_span_pushResult, map_span_emptyBucket]
  · rw [if_neg ha]
    refine ⟨⟨fun _ hle hlt => absurd ?_ ha, fun _ => ⟨_, rfl⟩⟩, fun data hd => ?_⟩
    · obtain ⟨span, hs, hin⟩ := ht.exists_mem hle hlt
      exact any_eq_true.mpr ⟨_, mem_map_of_mem hs, hin⟩
    · rw [← Except.ok.inj hd, map_span_emptyBucket]

/-- What holds of a query that is answered, and of the cursor of a page. -/
structure Asked (query : UsageQuery) (endTime cursor : Int) : Prop where
  width : 0 < query.bucketWidth
  start : 0 ≤ query.startTime
  nonempty : query.startTime < endTime
  aligned : query.bucketWidth ∣ cursor
  first : query.startTime < cursor + query.bucketWidth
  before : cursor < endTime

theorem fillBuckets_spec (h : Asked query endTime cursor) {spans : List (Int × Int)}
    (hc : Cut query.startTime endTime query.bucketWidth cursor spans last) (hne : spans ≠ []) :
    ((∃ data, fillBuckets env tables query spans = .ok data) ↔
      RangeFits env tables query endTime cursor last) ∧
    ∀ data, fillBuckets env tables query spans = .ok data → Shown tables query spans data := by
  have ht := hc.tiles hne h.width h.first h.nonempty
  obtain ⟨⟨stop, hh⟩, start, hgetLast⟩ := ht.ends hne
  unfold fillBuckets RangeFits
  rw [hh, hgetLast]
  dsimp only
  by_cases hk : query.kind = .vectorStores
  · rw [if_pos hk]
    obtain ⟨hok, hs⟩ := snapshot_spec ht env.now tables.fileBytes
    refine ⟨hok.trans ⟨fun hf => ⟨fun hne => absurd hk hne, fun _ => hf⟩,
      fun hf => hf.2 hk⟩, fun data hd => ?_⟩
    exact ⟨hs data hd, fun hne => absurd hk hne⟩
  · rw [if_neg hk]
    have ha := fun data => @aggregate_eq_ok query endTime cursor last tables.records
      h.width h.start h.nonempty spans hc hne h.aligned h.first data
    refine ⟨⟨?_, ?_⟩, fun data hd => ?_⟩
    · rintro ⟨data, hd⟩
      exact ⟨fun _ => ((ha data).mp hd).1, fun heq => absurd heq hk⟩
    · rintro ⟨hf, -⟩
      obtain ⟨data, hd⟩ := @exists_forall₂ _ _ _ (spans.map emptyBucket) fun bucket _ =>
        @exists_filled query (pageTimes query endTime cursor last).1
          (pageRows query endTime cursor last tables.records) (fun row hrow => by
            obtain ⟨record, -, hrec, rfl⟩ := mem_pageRows.mp hrow
            obtain ⟨-, hle, he⟩ := (page_bucket h.width h.start h.nonempty hc hne h.aligned
              h.first hrec).1
            have hlt : (query.key record).1 < last := by
              have := h.width
              omega
            rw [members_page h.width h.start (hc.dvd h.aligned) hle hlt]
            exact (hf hk _ hle hlt).2) bucket
      exact ⟨data, (ha data).mpr ⟨hf hk, hd⟩⟩
    · have hfilled := ((ha data).mp hd).2
      have hs : data.map Bucket.span = (spans.map emptyBucket).map Bucket.span := by
        clear hd
        generalize spans.map emptyBucket = before at hfilled
        induction hfilled with
        | nil => rfl
        | cons hab _ ih =>
          exact congrArg₂ cons (Prod.ext hab.startTime hab.endTime) ih
      refine ⟨hs.trans (map_span_emptyBucket spans), fun _ => ?_⟩
      refine exists_forall₂ fun after haft => ?_
      obtain ⟨before, hb, hfill⟩ := exists_of_forall₂ hfilled.flip haft
      obtain ⟨span, hsp, rfl⟩ := mem_map.mp hb
      obtain ⟨bucket, hal, hle, he, rfl⟩ := hc.mem h.width h.aligned hsp
      exact ⟨_, counted_bucket h.width h.start ⟨hal, hle, he⟩ hfill⟩

/-! ### All pages -/

inductive Follows (env : UsageEnv) (tables : UsageTables) (query : UsageQuery) :
    Option Text → List UsagePage → Prop
  | last {page : Option Text} {p : UsagePage} :
      usage env tables { query with page := page } = .ok p → p.nextPage = none →
      Follows env tables query page [p]
  | more {page : Option Text} {p : UsagePage} {next : Text} {rest : List UsagePage} :
      usage env tables { query with page := page } = .ok p → p.nextPage = some next →
      Follows env tables query (some next) rest → Follows env tables query page (p :: rest)

def allBuckets (pages : List UsagePage) : List Bucket := pages.flatMap UsagePage.data

structure Partitions (tables : UsageTables) (query : UsageQuery) (endTime : Int)
    (pages : List UsagePage) : Prop where
  spans : Tiles query.startTime ((allBuckets pages).map Bucket.span) endTime
  aligned : ∀ bucket ∈ allBuckets pages, ∃ k : Int, k * query.bucketWidth ≤ bucket.startTime ∧
    bucket.endTime ≤ (k + 1) * query.bucketWidth
  once : ∀ time, query.startTime ≤ time → time < endTime →
    ((allBuckets pages).filter fun bucket => bucket.holds time).length = 1
  counts : query.kind ≠ .vectorStores → ∃ rows : List (List SumRow),
    List.Forall₂ (Counted query tables.records) (allBuckets pages) rows ∧
      ∀ measure : Measure, (rows.flatten.map fun row => row.sums measure).sum =
        total (tables.records.filter (query.selects query.startTime endTime)) measure

/-- The sums of a query fit 64 bits: the end of the last aligned bucket, the counts of each group
of each bucket, and for vector stores the bytes of the files. -/
structure Fits (env : UsageEnv) (tables : UsageTables) (query : UsageQuery) (endTime : Int) :
    Prop where
  last : (endTime - 1) / query.bucketWidth * query.bucketWidth + query.bucketWidth < 2 ^ 63
  keys : query.kind ≠ .vectorStores → ∀ k, KeyFits query endTime tables.records k
  files : query.kind = .vectorStores → query.startTime ≤ env.now → env.now < endTime →
    SumFits tables.fileBytes

theorem members_fit (h : Fits env tables query endTime) (cursor last : Int) :
    RangeFits env tables query endTime cursor last :=
  ⟨fun hk k _ _ => h.keys hk k, fun hk hle hlt => h.files hk (by omega) (by omega)⟩

theorem RangeFits.append {mid : Int} (h : RangeFits env tables query endTime cursor mid)
    (h' : RangeFits env tables query endTime mid last) :
    RangeFits env tables query endTime cursor last := by
  refine ⟨fun hk k hle hlt => ?_, fun hk hle hlt => ?_⟩
  · by_cases hm : k.1 < mid
    · exact h.1 hk k hle hm
    · exact h'.1 hk k (not_lt.mp hm) hlt
  · by_cases hm : env.now < mid
    · exact h.2 hk hle (by omega)
    · exact h'.2 hk (by omega) hlt

theorem usage_eq_ok {limit : Nat} {page : Option Text} {p : UsagePage}
    (hc : query.check env.debug = .ok limit) (hend : query.endTime = some endTime)
    (h : Asked query endTime cursor)
    (hp : pageCursor env.debug (query.startTime / query.bucketWidth * query.bucketWidth) endTime
      query.bucketWidth page = .ok cursor) :
    usage env tables { query with page := page } = .ok p ↔ ∃ spans last data,
      spansFrom query.startTime endTime query.bucketWidth limit cursor = .ok (spans, last) ∧
        fillBuckets env tables query spans = .ok data ∧
        p = ⟨"page".toList, data, (if last < endTime then some (cursorText last) else none).isSome,
          if last < endTime then some (cursorText last) else none⟩ := by
  have hc' : UsageQuery.check env.debug { query with page := page } = .ok limit := hc
  have hs : ∀ spans next, bucketSpans env.debug query.startTime endTime query.bucketWidth limit
      page = .ok (spans, next) ↔ ∃ last,
        spansFrom query.startTime endTime query.bucketWidth limit cursor = .ok (spans, last) ∧
          next = if last < endTime then some (cursorText last) else none := by
    intro spans next
    unfold bucketSpans
    simp only [bind_eq_ok, ensure_eq_ok, decide_eq_true_eq, hp]
    constructor
    · rintro ⟨-, -, -, -, _, hcur, ⟨spans', last⟩, hl, hr⟩
      cases hcur
      cases hr
      exact ⟨last, hl, rfl⟩
    · rintro ⟨last, hl, rfl⟩
      exact ⟨(), h.start, (), h.nonempty, _, rfl, _, hl, rfl⟩
  rw [hend]
  constructor
  · intro hu
    obtain ⟨limit', hlim, hu⟩ := bind_eq_ok.mp hu
    obtain ⟨endTime', hendTime, hu⟩ := bind_eq_ok.mp hu
    obtain ⟨⟨spans, next⟩, hb, hre⟩ := bind_eq_ok.mp hu
    cases hc'.symm.trans hlim
    cases hendTime
    obtain ⟨last, hl, rfl⟩ := (hs spans next).mp hb
    obtain ⟨data, hf, hr⟩ := bind_eq_ok.mp hre
    exact ⟨spans, last, data, hl, hf, (Except.ok.inj hr).symm⟩
  · rintro ⟨spans, last, data, hl, hf, rfl⟩
    exact bind_eq_ok.mpr ⟨limit, hc', bind_eq_ok.mpr ⟨endTime, rfl, bind_eq_ok.mpr
      ⟨_, (hs _ _).mpr ⟨last, hl, rfl⟩, bind_eq_ok.mpr ⟨data, hf, rfl⟩⟩⟩⟩

structure Walked (env : UsageEnv) (tables : UsageTables) (query : UsageQuery)
    (endTime cursor : Int) (pages : List UsagePage) (last : Int) : Prop where
  cut : Cut query.startTime endTime query.bucketWidth cursor
    ((allBuckets pages).map Bucket.span) last
  ends : endTime ≤ last
  nonempty : allBuckets pages ≠ []
  counted : query.kind ≠ .vectorStores →
    ∃ rows, List.Forall₂ (Counted query tables.records) (allBuckets pages) rows

theorem allBuckets_cons (p : UsagePage) (pages : List UsagePage) :
    allBuckets (p :: pages) = p.data ++ allBuckets pages := flatMap_cons

theorem Asked.page (h : Asked query endTime cursor) {limit : Nat} (hlim : 1 ≤ limit)
    (hl : spansFrom query.startTime endTime query.bucketWidth limit cursor = .ok (spans, last)) :
    Cut query.startTime endTime query.bucketWidth cursor spans last ∧ spans ≠ [] ∧
      cursor < last := by
  obtain ⟨hc, hlen, hst⟩ := spansFrom_eq_ok.mp hl
  have hne : spans ≠ [] := by
    rintro rfl
    have hn := hst (by rw [show last = cursor from hc]; exact h.before)
    rw [← hn] at hlim
    cases hlim
  refine ⟨hc, hne, ?_⟩
  obtain ⟨span, hs⟩ := exists_mem_of_ne_nil spans hne
  obtain ⟨bucket, -, hle, he, -⟩ := hc.mem h.width h.aligned hs
  have := h.width
  omega

theorem Asked.next (h : Asked query endTime cursor)
    (hc : Cut query.startTime endTime query.bucketWidth cursor spans last) (hlt : cursor < last)
    (hl : last < endTime) : Asked query endTime last :=
  ⟨h.width, h.start, h.nonempty, hc.dvd h.aligned, by
    have := h.first
    omega, hl⟩

theorem Walked.cons {spans : List (Int × Int)} {p : UsagePage} {pages : List UsagePage} {mid : Int}
    (hc : Cut query.startTime endTime query.bucketWidth cursor spans mid)
    (hs : Shown tables query spans p.data) (h : Walked env tables query endTime mid pages last) :
    Walked env tables query endTime cursor (p :: pages) last := by
  constructor
  · rw [allBuckets_cons, map_append, hs.spans]
    exact cut_append.mpr ⟨mid, hc, h.cut⟩
  · exact h.ends
  · rw [allBuckets_cons]
    exact append_ne_nil_of_right_ne_nil _ h.nonempty
  · intro hk
    obtain ⟨rows, hr⟩ := hs.counted hk
    obtain ⟨rest, hre⟩ := h.counted hk
    rw [allBuckets_cons]
    exact ⟨rows ++ rest, rel_append hr hre⟩

theorem Walked.single {p : UsagePage}
    (hc : Cut query.startTime endTime query.bucketWidth cursor spans last) (hne : spans ≠ [])
    (he : endTime ≤ last) (hs : Shown tables query spans p.data) :
    Walked env tables query endTime cursor [p] last := by
  have hd : allBuckets [p] = p.data := append_nil _
  constructor
  · rw [hd, hs.spans]
    exact hc
  · exact he
  · rw [hd]
    rintro hnil
    exact hne (by rw [← hs.spans, hnil]; rfl)
  · intro hk
    rw [hd]
    exact hs.counted hk

section Walk

variable {limit : Nat}

theorem exists_follows (hch : query.check env.debug = .ok limit) (hlim : 1 ≤ limit)
    (he : query.endTime = some endTime) (hm : endTime < 2 ^ 63)
    (hf : Fits env tables query endTime) {n : Nat} {page : Option Text}
    (h : Asked query endTime cursor)
    (hfst : query.startTime / query.bucketWidth * query.bucketWidth ≤ cursor)
    (hp : pageCursor env.debug (query.startTime / query.bucketWidth * query.bucketWidth) endTime
      query.bucketWidth page = .ok cursor) (hn : (endTime - cursor).toNat ≤ n) :
    ∃ pages last, Follows env tables query page pages ∧
      Walked env tables query endTime cursor pages last := by
  have hz : 0 ≤ query.startTime / query.bucketWidth * query.bucketWidth :=
    Int.mul_nonneg (Int.ediv_nonneg h.start h.width.le) h.width.le
  induction n generalizing cursor page with
  | zero =>
    have := h.before
    omega
  | succ n ih =>
    obtain ⟨spans, last, hlo⟩ := @spansFrom_ok query.startTime endTime _ h.width hf.last
      limit cursor h.aligned (hz.trans hfst)
    obtain ⟨hc, hne, hlt⟩ := h.page hlim hlo
    obtain ⟨hfi, hs⟩ := @fillBuckets_spec env tables query endTime cursor last h spans hc hne
    obtain ⟨data, hd⟩ := hfi.mpr (members_fit hf cursor last)
    have hu := (@usage_eq_ok env tables query endTime cursor limit page _ hch he h hp).mpr
      ⟨spans, last, data, hlo, hd, rfl⟩
    by_cases hl : last < endTime
    · have hnext := h.next hc hlt hl
      have hcur := @pageCursor_cursorText env.debug _ _ _ _ hz (hfst.trans hlt.le) hl
        ⟨by omega, by omega⟩ hnext.aligned
      obtain ⟨pages, last', hfo, hw⟩ := ih hnext (hfst.trans hlt.le) hcur (by omega)
      exact ⟨_, last', .more hu (if_pos hl) hfo, hw.cons hc (hs data hd)⟩
    · exact ⟨_, last, .last hu (if_neg hl), Walked.single hc hne (by omega) (hs data hd)⟩

theorem Follows.walked (hch : query.check env.debug = .ok limit) (hlim : 1 ≤ limit)
    (he : query.endTime = some endTime) (hmax : endTime < 2 ^ 63) {page : Option Text}
    {pages : List UsagePage} (hfo : Follows env tables query page pages)
    (h : Asked query endTime cursor)
    (hfst : query.startTime / query.bucketWidth * query.bucketWidth ≤ cursor)
    (hp : pageCursor env.debug (query.startTime / query.bucketWidth * query.bucketWidth) endTime
      query.bucketWidth page = .ok cursor) :
    ∃ last, Walked env tables query endTime cursor pages last ∧
      RangeFits env tables query endTime cursor last := by
  have hz : 0 ≤ query.startTime / query.bucketWidth * query.bucketWidth :=
    Int.mul_nonneg (Int.ediv_nonneg h.start h.width.le) h.width.le
  induction hfo generalizing cursor with
  | last hu hn =>
    obtain ⟨spans, last, data, hl, hd, rfl⟩ := (usage_eq_ok hch he h hp).mp hu
    obtain ⟨hc, hne, hlt⟩ := h.page hlim hl
    obtain ⟨hf, hsh⟩ := @fillBuckets_spec env tables query endTime cursor last h spans hc hne
    have hla : endTime ≤ last := by
      by_contra hb
      have hs : (if last < endTime then some (cursorText last) else none) = none := hn
      rw [if_pos (by omega)] at hs
      cases hs
    exact ⟨last, Walked.single hc hne hla (hsh data hd), hf.mp ⟨data, hd⟩⟩
  | more hu hnext _ ih =>
    obtain ⟨spans, mid, data, hl, hd, rfl⟩ := (usage_eq_ok hch he h hp).mp hu
    obtain ⟨hc, hne, hlt⟩ := h.page hlim hl
    obtain ⟨hf, hsh⟩ := @fillBuckets_spec env tables query endTime cursor mid h spans hc hne
    have hs : (if mid < endTime then some (cursorText mid) else none) = some _ := hnext
    by_cases hm : mid < endTime
    · rw [if_pos hm] at hs
      cases hs
      have ha := h.next hc hlt hm
      obtain ⟨last, hw, hfi⟩ := ih ha (hfst.trans hlt.le)
        (pageCursor_cursorText hz (hfst.trans hlt.le) hm ⟨by omega, by omega⟩ ha.aligned)
      exact ⟨last, hw.cons hc (hsh data hd), (hf.mp ⟨data, hd⟩).append hfi⟩
    · rw [if_neg hm] at hs
      cases hs

end Walk

/-! ### The partition -/

theorem Cut.fits {width cursor last : Int} (h : Cut start stop width cursor spans last)
    (hne : spans ≠ []) : InI64 last := by
  induction spans generalizing cursor with
  | nil => exact absurd rfl hne
  | cons span rest ih =>
    obtain ⟨-, hf, -, hr⟩ := h
    cases rest with
    | nil =>
      rw [show last = cursor + width from hr]
      exact hf
    | cons => exact ih hr (cons_ne_nil _ _)

theorem Counted.sum {records : List UsageRecord} {bucket : Bucket}
    (h : Counted query records bucket rows) (measure : Measure) :
    (rows.map fun row => row.sums measure).sum =
      total (records.filter (query.selects bucket.startTime bucket.endTime)) measure := by
  have hk : ∀ record ∈ records.filter (query.selects bucket.startTime bucket.endTime),
      query.values record ∈ rows.map SumRow.values := by
    intro record hrec
    obtain ⟨hm, hs⟩ := mem_filter.mp hrec
    have ho := h.once record hm hs
    obtain ⟨row, hr⟩ := exists_mem_of_ne_nil _ (length_pos_iff.mp (by rw [ho]; exact Nat.one_pos))
    obtain ⟨hr, heq⟩ := mem_filter.mp hr
    exact mem_map.mpr ⟨row, hr, of_decide_eq_true heq⟩
  unfold total
  rw [← sum_groups h.distinct hk (·.count measure), map_map]
  refine congrArg List.sum (map_congr_left fun row hr => ?_)
  rw [h.sums row hr measure]
  unfold total group Function.comp
  dsimp only
  rw [filter_filter]
  refine congrArg (fun records : List UsageRecord => (records.map (·.count measure)).sum)
    (filter_congr fun record _ => Bool.and_comm _ _)

theorem sum_rows {records : List UsageRecord} {buckets : List Bucket} {rows : List (List SumRow)}
    (hr : List.Forall₂ (Counted query records) buckets rows)
    (ht : Tiles query.startTime (buckets.map Bucket.span) endTime) (measure : Measure) :
    (rows.flatten.map fun row => row.sums measure).sum =
      total (records.filter (query.selects query.startTime endTime)) measure := by
  have hb : (rows.flatten.map fun row => row.sums measure).sum = (buckets.map fun bucket =>
        total (records.filter (query.selects bucket.startTime bucket.endTime)) measure).sum := by
    clear ht
    induction hr with
    | nil => rfl
    | cons hc _ ih =>
      rw [flatten_cons, map_append, sum_append, ih, hc.sum measure, map_cons, sum_cons]
  have hw : ∀ a b : Int, records.filter (query.selects a b) =
      (records.filter query.wants).filter fun record => within (a, b) record.time := by
    intro a b
    rw [filter_filter]
    refine filter_congr fun record _ => Bool.eq_iff_iff.mpr ?_
    rw [selects_iff, Bool.and_eq_true, within_iff]
    exact and_comm
  have hs := ht.sum UsageRecord.time (·.count measure) (records.filter query.wants)
  rw [hb, hw]
  unfold total
  rw [← hs, map_map]
  refine congrArg sum (map_congr_left fun bucket _ => ?_)
  rw [hw]
  rfl

theorem check_pos {debug : Text → Text} {limit : Nat} (h : query.check debug = .ok limit) :
    1 ≤ limit := by
  obtain ⟨_, hl, h⟩ := bind_eq_ok.mp h
  obtain ⟨_, -, h⟩ := bind_eq_ok.mp h
  cases h
  have hp := ensure_eq_ok.mp hl
  rw [Bool.and_eq_true, decide_eq_true_eq] at hp
  exact hp.1

theorem asked_first (hw : 0 < query.bucketWidth) (hs : 0 ≤ query.startTime)
    (hne : query.startTime < endTime) :
    query.startTime / query.bucketWidth * query.bucketWidth ≤ query.startTime ∧
      Asked query endTime (query.startTime / query.bucketWidth * query.bucketWidth) := by
  have hle := Int.ediv_mul_le query.startTime hw.ne'
  have hlt := Int.lt_ediv_add_one_mul_self query.startTime hw
  rw [Int.add_mul, Int.one_mul] at hlt
  exact ⟨hle, hw, hs, hne, Int.dvd_mul_left _ _, hlt, by omega⟩

theorem Walked.partitions (hw : 0 < query.bucketWidth) (hs : 0 ≤ query.startTime)
    (hn : query.startTime < endTime) {pages : List UsagePage}
    (h : Walked env tables query endTime (query.startTime / query.bucketWidth * query.bucketWidth)
      pages last) : Partitions tables query endTime pages := by
  obtain ⟨hf, ha⟩ := asked_first hw hs hn
  have hne : (allBuckets pages).map Bucket.span ≠ [] :=
    fun hnil => h.nonempty (map_eq_nil_iff.mp hnil)
  have ht := h.cut.tiles hne hw ha.first hn
  rw [max_eq_right hf, min_eq_right h.ends] at ht
  refine ⟨ht, fun bucket hb => ?_, fun time hle hlt => ?_, fun hk => ?_⟩
  · obtain ⟨aligned, ⟨k, rfl⟩, -, -, hsp⟩ :=
      h.cut.mem hw ha.aligned (mem_map_of_mem hb)
    obtain ⟨hstartTime, hendTime⟩ := Prod.mk.inj hsp
    refine ⟨k, ?_, ?_⟩
    · rw [hstartTime, Int.mul_comm k]
      exact le_max_left _ _
    · rw [hendTime, Int.add_mul, Int.one_mul, Int.mul_comm k]
      exact min_le_left _ _
  · have ho := ht.length_within hle hlt
    rw [filter_map, length_map] at ho
    exact ho
  · obtain ⟨rows, hr⟩ := h.counted hk
    exact ⟨rows, hr, fun measure => sum_rows hr ht measure⟩

/-- **The pages partition time and count each record exactly when the sums fit.** -/
theorem usage_partitions_iff (env : UsageEnv) (tables : UsageTables) {query : UsageQuery}
    {limit : Nat} {endTime : Int} (hcheck : query.check env.debug = .ok limit)
    (hwidth : 0 < query.bucketWidth) (hstart : 0 ≤ query.startTime)
    (hend : query.endTime = some endTime) (hnonempty : query.startTime < endTime)
    (hmax : InI64 endTime) :
    (∃ pages, Follows env tables query none pages ∧ Partitions tables query endTime pages) ↔
      Fits env tables query endTime := by
  obtain ⟨hfst, ha⟩ := asked_first hwidth hstart hnonempty
  have hl := check_pos hcheck
  constructor
  · rintro ⟨pages, hfo, -⟩
    obtain ⟨last, hw, hf⟩ :=
      hfo.walked hcheck hl hend hmax.2 ha (Int.le_refl _) rfl
    have hends := hw.ends
    have hne : (allBuckets pages).map Bucket.span ≠ [] :=
      fun hnil => hw.nonempty (map_eq_nil_iff.mp hnil)
    have hd := hw.cut.dvd ha.aligned
    refine ⟨?_, fun hk k => ?_, fun hk hle hlt => hf.2 hk (by omega) (by omega)⟩
    · have hfl := Int.ediv_mul_le (endTime - 1) hwidth.ne'
      have hle := add_le_of_dvd hwidth (Int.dvd_mul_left ((endTime - 1) / query.bucketWidth) _)
        hd (by omega)
      have hmax' := (hw.cut.fits hne).2
      omega
    · by_cases hm : ∃ record, record ∈ query.members endTime tables.records k
      · obtain ⟨record, hr⟩ := hm
        obtain ⟨hsel, hkey⟩ := mem_filter.mp hr
        obtain ⟨-, hfr, hto⟩ := selects_iff.mp (mem_filter.mp hsel).2
        have hkey' : (query.key record).1 = k.1 := congrArg Prod.fst (of_decide_eq_true hkey)
        have hd' := dvd_key query record
        rw [hkey'] at hd'
        obtain ⟨hdo, hup⟩ :=
          (floor_eq_iff hwidth hd' (hstart.trans hfr)).mp hkey'
        refine hf.1 hk k ?_ (by omega)
        by_contra hlt
        have := add_le_of_dvd hwidth hd' ha.aligned (not_le.mp hlt)
        omega
      · have hn : query.members endTime tables.records k = [] :=
          eq_nil_iff_forall_not_mem.mpr fun record hr => hm ⟨record, hr⟩
        exact keyFits_of_nil hn
  · intro hf
    obtain ⟨pages, last, hfo, hw⟩ := exists_follows hcheck hl hend hmax.2 hf ha
      (Int.le_refl _) (show pageCursor _ _ _ _ none = .ok _ from rfl) le_rfl
    exact ⟨pages, hfo, hw.partitions hwidth hstart hnonempty⟩

end Pages

/-! ### Two hours, and the last minute of 64 bits -/

def hoursQuery : UsageQuery :=
  { kind := .completions, startTime := 1000, endTime := some 5000, bucketWidth := hour,
    limit := some 1, page := none, projectIds := [], userIds := [], apiKeyIds := [], models := [],
    batch := none, groupBy := ["model".toList] }

def hoursRecord : UsageRecord :=
  { kind := .completions, time := 3600, projectId := none, userId := none, apiKeyId := none,
    model := some "bonsai".toList, batch := false, inputTokens := 5, inputCachedTokens := 2,
    outputTokens := 3, units := 0, requests := 1 }

def plainEnv : UsageEnv := ⟨0, id⟩

theorem two_hours_partition : ∃ pages, Follows plainEnv ⟨[hoursRecord], []⟩ hoursQuery none pages ∧
    Partitions ⟨[hoursRecord], []⟩ hoursQuery 5000 pages := by
  refine (@usage_partitions_iff plainEnv ⟨[hoursRecord], []⟩ hoursQuery 1 5000 rfl (by decide)
    (by decide) rfl (by decide) (by decide)).mpr ⟨by decide, fun _ k => ?_, fun h => by cases h⟩
  have hs : (hoursQuery.members 5000 [hoursRecord] k).Sublist [hoursRecord] :=
    filter_sublist.trans filter_sublist
  rcases sublist_singleton.mp hs with hn | hone
  · exact keyFits_of_nil hn
  · unfold KeyFits Uncached
    rw [hone]
    refine ⟨fun measure part hp => ?_, fun _ => by decide⟩
    rcases sublist_singleton.mp hp.sublist with rfl | rfl
    · decide
    · cases measure <;> decide

def lastQuery : UsageQuery :=
  { hoursQuery with
    startTime := 9223372036854775800, endTime := some 9223372036854775807, bucketWidth := minute }

/-- The end of the last bucket does not fit 64 bits. -/
theorem last_minute_overflows : usage plainEnv ⟨[], []⟩ lastQuery = .error .overflow ∧
    ¬ ∃ pages, Follows plainEnv ⟨[], []⟩ lastQuery none pages ∧
      Partitions ⟨[], []⟩ lastQuery 9223372036854775807 pages := by
  have ho : usage plainEnv ⟨[], []⟩ lastQuery = .error .overflow := rfl
  refine ⟨ho, ?_⟩
  rintro ⟨pages, hf, -⟩
  cases hf with
  | last hu => cases ho.symm.trans hu
  | more hu => cases ho.symm.trans hu

end LocalAi.Admin
