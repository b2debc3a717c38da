import Mathlib.Logic.Relation
import LocalAi.Tools.Json

/-!
# The drafter's context

The drafter keeps the rows of the last positions in a ring, and a context that can be rolled back
and continued.  A roll back is checked against the length of the context, not against the furthest
position that the ring has seen.

* `Traced`: a drafter beside the rows it was given and the furthest position among them.
* `Traced.Sound`: what the ring holds, whatever was rolled back.
* `reads_current`: drafts read current rows exactly if no roll back reaches below the ring.

A row stands for the hidden taps of one position.
-/

open List

namespace LocalAi.Dflash

def window : Nat := 2048

def maxRollback : Nat := 64

/-- Context positions the ring holds. -/
def ringCapacity : Nat := window + maxRollback

/-- Rows of one encoded chunk. -/
def contextChunk : Nat := 64

theorem ringCapacity_eq : ringCapacity = 2112 := rfl

theorem window_eq : window = 2048 := rfl

variable {α : Type}

/-- The slots of the ring, each with the position last written to it and its row. -/
abbrev Ring (α : Type) : Type := Nat → Option (Nat × α)

structure Drafter (α : Type) where
  contextLen : Nat
  floor : Nat
  ring : Ring α

def ctxStore (position : Nat) : List α → Ring α → Ring α
  | [], ring => ring
  | row :: rows, ring =>
    ctxStore (position + 1) rows
      (Function.update ring (position % ringCapacity) (some (position, row)))

/-- The rows in chunks; the fuel bounds their number. -/
def appendLoop : (fuel position : Nat) → List α → Ring α → Ring α
  | 0, _, _, ring => ring
  | fuel + 1, position, rows, ring =>
    if rows = [] then ring
    else
      let count := min rows.length contextChunk
      appendLoop fuel (position + count) (rows.drop count)
        (ctxStore position (rows.take count) ring)

namespace Drafter

def new : Drafter α := { contextLen := 0, floor := 0, ring := fun _ => none }

def reset (d : Drafter α) : Drafter α := { d with contextLen := 0, floor := 0 }

def restartAt (position : Nat) (d : Drafter α) : Drafter α :=
  { d with contextLen := position, floor := position }

/-- Where the context starts once it is rewound: the ring may no longer hold what lies below. -/
def rewindFloor (d : Drafter α) : Nat := max d.floor (d.contextLen - ringCapacity)

def rewindTo (len : Nat) (d : Drafter α) : Except Text (Drafter α) :=
  let floor := d.rewindFloor
  if d.contextLen < len ∨ len ≤ floor then
    .error s!"DFlash2 context of positions {floor}..{d.contextLen} cannot rewind to {len}".toList
  else .ok { d with floor := floor, contextLen := len }

def truncateContext (len : Nat) (d : Drafter α) : Except Text (Drafter α) :=
  if d.contextLen < len ∨ maxRollback < d.contextLen - len ∨ len < d.floor then
    .error s!"DFlash2 context of {d.contextLen} positions cannot roll back to {len}".toList
  else .ok { d with contextLen := len }

/-- Only the newest rows of a long block are computed; older ones could never be read. -/
def appendContext (rows : List α) (d : Drafter α) : Drafter α :=
  let skip := rows.length - ringCapacity
  { d with
    contextLen := d.contextLen + rows.length
    ring := appendLoop rows.length (d.contextLen + skip) (rows.drop skip) d.ring }

/-- The first position a draft reads with a context of `len` positions from `floor`. -/
def readFrom (floor len : Nat) : Nat := len - min (len - floor) (window - 1)

/-- The positions a draft reads. -/
def reads (d : Drafter α) (p : Nat) : Prop := readFrom d.floor d.contextLen ≤ p ∧ p < d.contextLen

end Drafter

/-! ### Traces -/

inductive ContextCall (α : Type)
  | append (rows : List α)
  | rewind (len : Nat)
  | truncate (len : Nat)
  | restart (position : Nat)
  | reset

/-- A drafter, the row last appended at each position, and the end of the furthest one appended
since the context was last empty. -/
structure Traced (α : Type) where
  drafter : Drafter α
  latest : Nat → Option α
  furthest : Nat

namespace Traced

def new : Traced α := { drafter := .new, latest := fun _ => none, furthest := 0 }

def append (rows : List α) (s : Traced α) : Traced α :=
  let len := s.drafter.contextLen
  { drafter := s.drafter.appendContext rows
    latest := fun p => if len ≤ p ∧ p < len + rows.length then rows[p - len]? else s.latest p
    furthest := max s.furthest (len + rows.length) }

/-- The context starts over, without rows. -/
def emptied (drafter : Drafter α) (s : Traced α) : Traced α :=
  { s with drafter := drafter, furthest := drafter.contextLen }

def rolledBack (drafter : Drafter α) (s : Traced α) : Traced α :=
  if drafter.contextLen = drafter.floor then s.emptied drafter else { s with drafter := drafter }

inductive Step : Traced α → ContextCall α → Traced α → Prop
  | append (s : Traced α) (rows : List α) : Step s (.append rows) (s.append rows)
  | restart (s : Traced α) (position : Nat) :
      Step s (.restart position) (s.emptied (s.drafter.restartAt position))
  | reset (s : Traced α) : Step s .reset (s.emptied s.drafter.reset)
  | rewind {s : Traced α} {len : Nat} {drafter : Drafter α}
      (ok : s.drafter.rewindTo len = .ok drafter) : Step s (.rewind len) (s.rolledBack drafter)
  | truncate {s : Traced α} {len : Nat} {drafter : Drafter α}
      (ok : s.drafter.truncateContext len = .ok drafter) :
      Step s (.truncate len) (s.rolledBack drafter)

/-- Every row a draft reads is the one last appended at its position. -/
def Current (s : Traced α) : Prop :=
  ∀ p, s.drafter.reads p →
    ∃ row, s.drafter.ring (p % ringCapacity) = some (p, row) ∧ s.latest p = some row

/-- No row is read, or the furthest position is no more than the ring beyond the first one. -/
def Spans (s : Traced α) (floor len : Nat) : Prop :=
  len = floor ∨ s.furthest ≤ Drafter.readFrom floor len + ringCapacity

/-- The roll backs after which the ring still holds what a draft reads. -/
def Keeps (s : Traced α) : ContextCall α → Prop
  | .rewind len => s.Spans s.drafter.rewindFloor len
  | .truncate len => s.Spans s.drafter.floor len
  | _ => True

/-- A run of calls that succeed, each roll back within the ring. -/
inductive Runs : Traced α → Prop
  | new : Runs new
  | step {s t : Traced α} {call : ContextCall α} (before : Runs s) (keeps : s.Keeps call)
      (step : Step s call t) : Runs t

/-- The ring holds the positions up to the furthest one, as far back as it reaches; of those in the
context, the row last appended. -/
structure Sound (s : Traced α) : Prop where
  floor_le : s.drafter.floor ≤ s.drafter.contextLen
  le_furthest : s.drafter.contextLen ≤ s.furthest
  reaches : s.furthest ≤ Drafter.readFrom s.drafter.floor s.drafter.contextLen + ringCapacity
  held : ∀ p, s.drafter.floor ≤ p → s.furthest ≤ p + ringCapacity → p < s.furthest →
    ∃ row, s.drafter.ring (p % ringCapacity) = some (p, row) ∧
      (p < s.drafter.contextLen → s.latest p = some row)

end Traced

/-! ### The ring -/

variable {rows : List α}

theorem ctxStore_other {position slot : Nat} (ring : Ring α)
    (h : ∀ r, position ≤ r → r < position + rows.length → r % ringCapacity ≠ slot) :
    ctxStore position rows ring slot = ring slot := by
  induction rows generalizing position ring with
  | nil => rfl
  | cons row rows ih =>
    rw [length_cons] at h
    have hne := h position le_rfl (by omega)
    rw [ctxStore, ih _ fun r hle hlt => h r (by omega) (by omega),
      Function.update_of_ne (Ne.symm hne)]

theorem ctxStore_stored {position p : Nat} (ring : Ring α)
    (hl : rows.length ≤ ringCapacity) (hle : position ≤ p) (hlt : p < position + rows.length) :
    ∃ row, rows[p - position]? = some row ∧
      ctxStore position rows ring (p % ringCapacity) = some (p, row) := by
  induction rows generalizing position ring with
  | nil =>
    rw [length_nil] at hlt
    omega
  | cons row rows ih =>
    rw [length_cons] at hl hlt
    rw [ctxStore]
    by_cases heq : position = p
    · subst heq
      refine ⟨row, by simp, ?_⟩
      -- the rows that follow fill other slots
      rw [ctxStore_other, Function.update_self]
      intro r hr hr'
      rw [ringCapacity_eq] at hl ⊢
      omega
    · obtain ⟨found, hg, hri⟩ := ih
        (Function.update ring (position % ringCapacity) (some (position, row))) (by omega)
        (show position + 1 ≤ p by omega) (by omega)
      refine ⟨found, ?_, hri⟩
      rwa [show p - position = p - (position + 1) + 1 by omega, getElem?_cons_succ]

theorem ctxStore_append (position : Nat) (front back : List α) (ring : Ring α) :
    ctxStore position (front ++ back) ring =
      ctxStore (position + front.length) back (ctxStore position front ring) := by
  induction front generalizing position ring with
  | nil => rfl
  | cons row front ih =>
    rw [cons_append, ctxStore, ctxStore, ih, length_cons]
    congr 1
    omega

/-- The chunks store what one pass over the rows does. -/
theorem appendLoop_eq {fuel : Nat} (position : Nat) (ring : Ring α)
    (h : rows.length ≤ fuel) : appendLoop fuel position rows ring = ctxStore position rows ring := by
  induction fuel generalizing position rows ring with
  | zero =>
    rw [length_eq_zero_iff.mp (Nat.le_zero.mp h)]
    rfl
  | succ fuel ih =>
    rw [appendLoop]
    split
    · next hnil =>
      rw [hnil]
      rfl
    · next hne =>
      have hp := length_pos_iff.mpr hne
      have hc : 0 < min rows.length contextChunk := lt_min hp (by decide)
      rw [ih _ _ (by rw [length_drop]; omega)]
      conv_rhs => rw [← take_append_drop (min rows.length contextChunk) rows]
      rw [ctxStore_append, length_take, Nat.min_eq_left (Nat.min_le_left _ _)]

namespace Traced

variable {s t : Traced α}

theorem append_ring (s : Traced α) (rows : List α) :
    (s.append rows).drafter.ring = ctxStore (s.drafter.contextLen + (rows.length - ringCapacity))
      (rows.drop (rows.length - ringCapacity)) s.drafter.ring :=
  appendLoop_eq _ _ (by rw [length_drop]; omega)

/-! ### Runs -/

theorem Sound.new : Sound (α := α) Traced.new where
  floor_le := le_rfl
  le_furthest := le_rfl
  reaches := Nat.zero_le _
  held := fun p _ _ h => absurd h (Nat.not_lt_zero p)

variable {drafter : Drafter α} {len : Nat}

theorem Sound.emptied (s : Traced α)
    (h : drafter.contextLen = drafter.floor) : (s.emptied drafter).Sound where
  floor_le := h.ge
  le_furthest := le_rfl
  reaches := by
    show drafter.contextLen ≤ Drafter.readFrom drafter.floor drafter.contextLen + ringCapacity
    rw [Drafter.readFrom, h]
    omega
  held := fun p hp _ hlt => by
    have hlt' : p < drafter.contextLen := hlt
    have hp' : drafter.floor ≤ p := hp
    omega

theorem Sound.append (h : s.Sound) (rows : List α) : (s.append rows).Sound where
  floor_le := h.floor_le.trans (Nat.le_add_right _ _)
  le_furthest := le_max_right _ _
  reaches := by
    have hreaches := h.reaches
    show max s.furthest (s.drafter.contextLen + rows.length) ≤
      Drafter.readFrom s.drafter.floor (s.drafter.contextLen + rows.length) + ringCapacity
    have hfl := h.floor_le
    rw [Drafter.readFrom, ringCapacity_eq, window_eq] at hreaches ⊢
    omega
  held := by
    intro p hp hf hlt
    have hreaches := h.reaches
    have hle := h.le_furthest
    have hf' : max s.furthest (s.drafter.contextLen + rows.length) ≤ p + ringCapacity := hf
    have hlt' : p < max s.furthest (s.drafter.contextLen + rows.length) := hlt
    have hread : Drafter.readFrom s.drafter.floor s.drafter.contextLen ≤ s.drafter.contextLen :=
      Nat.sub_le _ _
    rw [append_ring]
    by_cases hn : s.drafter.contextLen ≤ p ∧ p < s.drafter.contextLen + rows.length
    · -- the row is among the new ones, and not among those that are skipped
      have hd := length_drop (i := rows.length - ringCapacity) (l := rows)
      have hs : s.drafter.contextLen + (rows.length - ringCapacity) ≤ p := by omega
      obtain ⟨row, hg, hri⟩ := ctxStore_stored s.drafter.ring
        (show (rows.drop (rows.length - ringCapacity)).length ≤ ringCapacity by omega) hs
        (by omega)
      rw [getElem?_drop, show rows.length - ringCapacity +
        (p - (s.drafter.contextLen + (rows.length - ringCapacity))) = p - s.drafter.contextLen by
          omega] at hg
      exact ⟨row, hri, fun _ => (if_pos hn).trans hg⟩
    · -- no new row has its slot
      obtain ⟨row, hri, hl⟩ := h.held p hp (by omega) (by omega)
      refine ⟨row, ?_, fun hlen => ?_⟩
      · rw [ctxStore_other, hri]
        intro r hr hr'
        rw [length_drop] at hr'
        rw [ringCapacity_eq] at *
        omega
      · have hlen' : p < s.drafter.contextLen + rows.length := hlen
        exact (if_neg hn).trans (hl (by omega))

/-- A shorter context, of rows that the ring still holds. -/
theorem Sound.rolledBack (h : s.Sound) (hr : drafter.ring = s.drafter.ring)
    (hlen : drafter.contextLen ≤ s.drafter.contextLen) (hf : s.drafter.floor ≤ drafter.floor)
    (hle : drafter.floor ≤ drafter.contextLen)
    (hs : s.Spans drafter.floor drafter.contextLen) : (s.rolledBack drafter).Sound := by
  unfold Traced.rolledBack
  split
  · next heq => exact Sound.emptied s heq
  · next hne =>
    exact {
      floor_le := hle
      le_furthest := hlen.trans h.le_furthest
      reaches := hs.resolve_left hne
      held := fun p hp hfar hlt => by
        obtain ⟨row, hrow, hl⟩ := h.held p (hf.trans hp) hfar hlt
        refine ⟨row, ?_, fun hp' => hl (lt_of_lt_of_le hp' hlen)⟩
        rw [← hrow, ← hr] }

theorem rewindTo_eq_ok {d : Drafter α} (h : d.rewindTo len = .ok drafter) :
    drafter = { d with floor := d.rewindFloor, contextLen := len } ∧ len ≤ d.contextLen ∧
      d.rewindFloor < len := by
  unfold Drafter.rewindTo at h
  dsimp only at h
  split at h
  · cases h
  · next hno =>
    cases h
    exact ⟨rfl, by omega, by omega⟩

theorem truncateContext_eq_ok {d : Drafter α} (h : d.truncateContext len = .ok drafter) :
    drafter = { d with contextLen := len } ∧ len ≤ d.contextLen ∧ d.floor ≤ len := by
  unfold Drafter.truncateContext at h
  split at h
  · cases h
  · next hno =>
    cases h
    exact ⟨rfl, by omega, by omega⟩

theorem Sound.step (h : s.Sound) {call : ContextCall α} (hk : s.Keeps call)
    (hs : Step s call t) : t.Sound := by
  cases hs with
  | append rows => exact h.append rows
  | restart => exact .emptied s rfl
  | reset => exact .emptied s rfl
  | rewind ok =>
    obtain ⟨rfl, hl, hlt⟩ := rewindTo_eq_ok ok
    exact h.rolledBack rfl hl (le_max_left _ _) hlt.le hk
  | truncate ok =>
    obtain ⟨rfl, hl, hle⟩ := truncateContext_eq_ok ok
    exact h.rolledBack rfl hl le_rfl hle hk

theorem Runs.sound (h : Runs s) : s.Sound := by
  induction h with
  | new => exact .new
  | step _ keeps step ih => exact ih.step keeps step

/-! ### Drafts -/

theorem Sound.current (h : s.Sound) : s.Current := by
  intro p hp
  obtain ⟨hf, hlt⟩ := hp
  have hfl := h.floor_le
  have hle : s.drafter.floor ≤ Drafter.readFrom s.drafter.floor s.drafter.contextLen := by
    rw [Drafter.readFrom]
    omega
  obtain ⟨row, hr, hl⟩ := h.held p (hle.trans hf)
    (h.reaches.trans (Nat.add_le_add_right hf _)) (lt_of_lt_of_le hlt h.le_furthest)
  exact ⟨row, hr, hl hlt⟩

/-- A roll back too far reads a slot that a later position has. -/
theorem Sound.spans (h : s.Sound) (hc : (s.rolledBack drafter).Current)
    (hr : drafter.ring = s.drafter.ring) (hfl : s.drafter.floor ≤ drafter.floor)
    (hle : drafter.floor ≤ drafter.contextLen) : s.Spans drafter.floor drafter.contextLen := by
  by_contra hno
  obtain ⟨hne, hfar⟩ := not_or.mp hno
  rw [Traced.rolledBack, if_neg hne] at hc
  have hf : drafter.floor ≤ Drafter.readFrom drafter.floor drafter.contextLen ∧
      Drafter.readFrom drafter.floor drafter.contextLen < drafter.contextLen := by
    rw [Drafter.readFrom, window_eq]
    omega
  obtain ⟨row, hrow, _⟩ := hc _ ⟨le_rfl, hf.2⟩
  generalize Drafter.readFrom drafter.floor drafter.contextLen = p at hfar hf hrow
  -- the last position with the slot of `p`
  have hs := Nat.add_mul_mod_self_left p ringCapacity ((s.furthest - 1 - p) / ringCapacity)
  have hd := Nat.div_add_mod (s.furthest - 1 - p) ringCapacity
  have hm := Nat.mod_lt (s.furthest - 1 - p) (show 0 < ringCapacity by decide)
  generalize ringCapacity * ((s.furthest - 1 - p) / ringCapacity) = laps at hs hd
  obtain ⟨row', hrow', _⟩ := h.held (p + laps) (by omega) (by omega) (by omega)
  have hr' : drafter.ring (p % ringCapacity) = some (p + laps, row') := by
    rw [hr, ← hs, hrow']
  have heq := (Prod.mk.inj (Option.some.inj (hrow.symm.trans hr'))).1
  omega

theorem Sound.current_iff (h : s.Sound) {call : ContextCall α} (hs : Step s call t) :
    t.Current ↔ s.Keeps call := by
  refine ⟨?_, fun hk => (h.step hk hs).current⟩
  cases hs with
  | append => exact fun _ => trivial
  | restart => exact fun _ => trivial
  | reset => exact fun _ => trivial
  | rewind ok =>
    obtain ⟨rfl, _, hlt⟩ := rewindTo_eq_ok ok
    exact fun hc => h.spans hc rfl (le_max_left _ _) hlt.le
  | truncate ok =>
    obtain ⟨rfl, _, hle⟩ := truncateContext_eq_ok ok
    exact fun hc => h.spans hc rfl le_rfl hle

/-- In every run whose roll backs stay within the ring, a draft reads the rows last appended; and
the next call keeps it so exactly if it stays within the ring. -/
theorem reads_current {s : Traced α} (h : Runs s) :
    s.Current ∧ ∀ call t, Step s call t → (t.Current ↔ s.Keeps call) :=
  ⟨h.sound.current, fun _ _ hs => h.sound.current_iff hs⟩

def shortened (len : Nat) (s : Traced α) : Traced α :=
  { s with drafter := { s.drafter with contextLen := len } }

theorem rolledBack_eq (h : s.drafter.floor < len) :
    s.rolledBack { s.drafter with contextLen := len } = s.shortened len :=
  if_neg h.ne'

theorem step_shortened (hl : len ≤ s.drafter.contextLen)
    (hr : s.drafter.contextLen - len ≤ maxRollback) (hf : s.drafter.floor < len) :
    Step s (.truncate len) (s.shortened len) := by
  rw [← rolledBack_eq hf]
  exact .truncate (if_neg (by omega))

/-- Two rows, of which the second is taken back and replaced. -/
def twoRows : Traced Nat := ((Traced.new.append [5, 8]).shortened 1).append [9]

theorem two_rows_current :
    twoRows.Current ∧ ∀ call t, Step twoRows call t → (t.Current ↔ twoRows.Keeps call) := by
  have happ : Runs (Traced.new.append [5, 8] : Traced Nat) :=
    .step .new (show Traced.new.Keeps (.append [5, 8]) from trivial) (.append _ _)
  have hback : Runs ((Traced.new.append [5, 8] : Traced Nat).shortened 1) :=
    .step happ (show Traced.Keeps _ (.truncate 1) from .inr (by decide))
      (step_shortened (by decide) (by decide) (by decide))
  exact reads_current (.step hback (show Traced.Keeps _ (.append [9]) from trivial) (.append _ _))

/-- Two roll backs in a row, after more rows than the ring holds: a later position has the slot of
the first row read. -/
theorem second_roll_back_overwritten : ∃ s : Traced Unit,
    Relation.ReflTransGen (fun s t => ∃ call, Step s call t) .new s ∧ ¬s.Current := by
  have hl : (replicate 2176 ()).length = 2176 := length_replicate
  generalize replicate 2176 () = rows at hl
  have hfu : (Traced.new.append rows).drafter.contextLen = 2176 := (Nat.zero_add _).trans hl
  have hf : (Traced.new.append rows).drafter.floor = 0 := rfl
  have hfar : (Traced.new.append rows).furthest = 2176 := by
    show max 0 (0 + rows.length) = 2176
    omega
  have hs := Sound.new.append rows
  have ha : ∃ call, Step Traced.new call (Traced.new.append rows) := ⟨_, .append _ rows⟩
  generalize Traced.new.append rows = s at *
  have hr : s.drafter.contextLen - 2112 ≤ maxRollback := by
    rw [hfu]
    decide
  have hfst : Step s (.truncate 2112) (s.shortened 2112) :=
    step_shortened (by omega) hr (by omega)
  have hsnd : Step (s.shortened 2112) (.truncate 2048) ((s.shortened 2112).shortened 2048) :=
    step_shortened (show 2048 ≤ 2112 by decide) (show 2112 - 2048 ≤ maxRollback by decide)
      (show s.drafter.floor < 2048 by omega)
  have ho : s.Keeps (.truncate 2112) := by
    refine .inr ?_
    rw [hfar, hf]
    decide
  refine ⟨_, .tail (.tail (.single ha) ⟨_, hfst⟩) ⟨_, hsnd⟩, fun hc => ?_⟩
  have hk := ((hs.step ho hfst).current_iff hsnd).mp hc
  rcases hk with heq | hle
  · have heq' : 2048 = s.drafter.floor := heq
    omega
  · have hle' : s.furthest ≤ Drafter.readFrom s.drafter.floor 2048 + ringCapacity := hle
    rw [hfar, hf] at hle'
    exact absurd hle' (by decide)

end Traced

end LocalAi.Dflash
