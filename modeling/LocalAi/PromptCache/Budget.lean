import LocalAi.Lib.Bisect
import LocalAi.Lib.System
import Mathlib.Tactic.Positivity

/-!
# The daily budget of the snapshot writer

The writer may write so many bytes a day.  A bucket holds what it may still write: it earns the
budget in the course of a day, holds a day's worth at most, and pays for every snapshot in full.

* `WriteBudget.admits`, `WriteBudget.charge`: the bucket, in 128-bit arithmetic.
* `writer`: the writer's loop, with polls by its callers at any time.
* `Kept`: no operation wraps, and what is written from one job to another was there or earned.
* `Alongside`: a run beside the one of the same polls and jobs in which nothing is written.
* `Drained`: a run in which one job leaves no room for a byte that was there before.
* `daily_writes_bounded_iff`: when a day's writes stay within the budget plus one snapshot.
-/

open List

namespace LocalAi.PromptCache

open LocalAi.Lib

/-! ### The bucket -/

def day : Nat := 24 * 60 * 60 * 10 ^ 9

/-- An `Instant` has 64 bits of seconds, and nanoseconds. -/
def instants : Nat := 2 ^ 64 * 10 ^ 9

/-- Arithmetic of `i128` wraps. -/
def wrap (x : Int) : Int := x.bmod (2 ^ 128)

/-- `i128::saturating_add`, of the exact sum. -/
def saturate (x : Int) : Int := max (-2 ^ 127) (min x (2 ^ 127 - 1))

structure WriteBudget where
  daily : Nat
  balance : Int
  refilled : Nat
deriving DecidableEq

def WriteBudget.new (daily now : Nat) : WriteBudget := ⟨daily, (daily / 4 : Nat), now⟩

/-- What `elapsed` nanoseconds earn of the daily rate. -/
def earned (daily elapsed : Nat) : Int :=
  (wrap (daily * if elapsed < 2 ^ 127 then elapsed else (2 ^ 127 - 1) / 2)).tdiv day

/-- Refill the bucket; a job is written while the balance is positive. -/
def WriteBudget.admits (b : WriteBudget) (now : Nat) : WriteBudget × Bool :=
  let balance := min (saturate (b.balance + earned b.daily (now - b.refilled))) b.daily
  (⟨b.daily, balance, now⟩, decide (0 < balance))

def WriteBudget.charge (b : WriteBudget) (bytes : Nat) : WriteBudget :=
  { b with balance := wrap (b.balance - bytes) }

theorem wrap_eq {x : Int} (hl : -2 ^ 127 ≤ x) (hh : x < 2 ^ 127) : wrap x = x := by
  unfold wrap
  rw [Int.bmod_eq_of_le] <;> omega

/-- What is earned can wrap, but only in centuries: the bucket never loses more than `2 ^ 18`
bytes a nanosecond. -/
theorem earned_ge {daily elapsed : Nat} (hda : daily < 2 ^ 64) (hlt : elapsed < instants) :
    -(2 ^ 18 * elapsed : Int) ≤ earned daily elapsed := by
  have hs : elapsed < 2 ^ 127 := by
    unfold instants at hlt
    omega
  unfold earned
  rw [if_pos hs]
  by_cases hsm : daily * elapsed < 2 ^ 127
  · have hc : ((daily * elapsed : Nat) : Int) < 2 ^ 127 := by exact_mod_cast hsm
    push_cast at hc
    have hp : (0 : Int) ≤ daily * elapsed := by positivity
    rw [wrap_eq (by omega) hc]
    have := Int.tdiv_nonneg hp (Int.natCast_nonneg day)
    omega
  · -- the product only wraps when the time alone is past `2 ^ 63` nanoseconds
    have hlo : 2 ^ 63 ≤ elapsed := by
      by_contra hlt
      have : daily * elapsed ≤ (2 ^ 64 - 1) * (2 ^ 63 - 1) := Nat.mul_le_mul (by omega) (by omega)
      omega
    have hw : -2 ^ 127 ≤ wrap (daily * elapsed : Int) := by
      have := Int.le_bmod (x := (daily * elapsed : Int)) (m := 2 ^ 128) (by decide)
      unfold wrap
      omega
    have hdiv : (-2 ^ 127 : Int).tdiv day ≤ (wrap (daily * elapsed : Int)).tdiv day :=
      Int.tdiv_le_tdiv (by decide) hw
    have hv : -(2 ^ 81 : Int) ≤ (-2 ^ 127 : Int).tdiv day := by decide
    omega

/-! ### The writer -/

/-- A job that was written: when it was charged and its size, the balance before, and all that
the refills had earned until the charge and until the job was taken. -/
structure Write where
  time : Nat
  bytes : Nat
  balance : Int
  earned : Int
  taken : Int
deriving DecidableEq

/-- The writer with its bucket, the clock, the job under way with what `admits` said of it, what
the refills earned, by now and when the job was taken, and the jobs written so far. -/
structure Writer where
  budget : WriteBudget
  clock : Nat
  job : Option Bool
  earned : Int
  taken : Int
  log : List Write
deriving DecidableEq

def Writer.new (daily now : Nat) : Writer := ⟨WriteBudget.new daily now, now, none, 0, 0, []⟩

inductive WriterStep
  /-- A caller asks `within_budget`. -/
  | poll (now : Nat)
  | take (now : Nat)
  /-- The job ends; `written` bytes were written if it was within the budget. -/
  | finish (now written : Nat)

def WriterStep.now : WriterStep → Nat
  | .poll now | .take now | .finish now _ => now

/-- The same poll or job, with nothing written. -/
def WriterStep.unsized : WriterStep → WriterStep
  | .finish now _ => .finish now 0
  | step => step

def Writer.refill (w : Writer) (now : Nat) : Writer :=
  { w with
    budget := (w.budget.admits now).1
    clock := now
    earned := w.earned + PromptCache.earned w.budget.daily (now - w.budget.refilled) }

@[simp] theorem Writer.refill_clock (w : Writer) (now : Nat) : (w.refill now).clock = now := rfl

@[simp] theorem Writer.refill_refilled (w : Writer) (now : Nat) :
    (w.refill now).budget.refilled = now := rfl

@[simp] theorem Writer.refill_earned (w : Writer) (now : Nat) : (w.refill now).earned =
    w.earned + PromptCache.earned w.budget.daily (now - w.budget.refilled) := rfl

@[simp] theorem Writer.refill_kept (w : Writer) (now : Nat) :
    (w.refill now).budget.daily = w.budget.daily ∧ (w.refill now).job = w.job ∧
      (w.refill now).taken = w.taken := by
  obtain ⟨⟨daily, balance, refilled⟩, clock, job, earned, taken, log⟩ := w
  exact ⟨rfl, rfl, rfl⟩

def Writer.take (w : Writer) (now : Nat) : Writer :=
  { w.refill now with
    job := some (w.budget.admits now).2
    taken := (w.refill now).earned }

/-- The job's charge; a job that was not written is charged nothing. -/
def Writer.finish (w : Writer) (now : Nat) (within : Bool) (written : Nat) : Writer :=
  { w with
    budget := w.budget.charge (if within then written else 0)
    clock := now
    job := none
    log := if within then w.log ++ [⟨now, written, w.budget.balance, w.earned, w.taken⟩]
      else w.log }

def Writer.next (w : Writer) : WriterStep → Option Writer
  | .poll now => some (w.refill now)
  | .take now => if w.job = none then some (w.take now) else none
  | .finish now written => w.job.map fun within => w.finish now within written

/-- The writer's loop under a clock that never goes backwards. -/
def writer (daily : Nat) : System Writer WriterStep where
  start := fun w => ∃ now < instants, w = .new daily now
  step := fun w step w' => w.clock ≤ step.now ∧ step.now < instants ∧
    (∀ now written, step = .finish now written → written < 2 ^ 64) ∧ w.next step = some w'

def written (log : List Write) : Nat := (log.map Write.bytes).sum

/-- The jobs of the 24 hours from `since` on. -/
def within (log : List Write) (since : Nat) : List Write :=
  log.filter fun write => decide (since ≤ write.time) && decide (write.time < since + day)

def largest (log : List Write) : Nat := (log.map Write.bytes).foldr max 0

/-- A day's writes stay within the budget plus one snapshot. -/
def Bounded (daily : Nat) (log : List Write) : Prop :=
  ∀ since, written (within log since) ≤ daily + largest (within log since)

/-- The writer after the same polls and jobs, none of which writes anything. -/
def idle (daily now : Nat) (steps : List WriterStep) : Writer :=
  (steps.map WriterStep.unsized).foldl (fun w step => (w.next step).getD w) (.new daily now)

/-- Less than a day apart, the first finds at most a day's budget and one byte, with what is
earned before the second is taken. -/
def Paces (daily : Nat) (first last : Write) : Prop :=
  last.time < first.time + day → first.balance + (last.taken - first.earned) ≤ (daily : Int) + 1

instance (daily : Nat) : DecidableRel (Paces daily) := fun first last =>
  inferInstanceAs (Decidable (last.time < first.time + day →
    first.balance + (last.taken - first.earned) ≤ (daily : Int) + 1))

/-- The condition on the times of the polls and jobs: with nothing ever written, the jobs that
find the bucket positive pace each other. -/
def Paced (daily now : Nat) (steps : List WriterStep) : Prop :=
  (idle daily now steps).log.Pairwise (Paces daily)

instance (daily now : Nat) (steps : List WriterStep) : Decidable (Paced daily now steps) :=
  inferInstanceAs (Decidable (List.Pairwise _ _))

theorem Writer.next_cases {w w' : Writer} {step : WriterStep} (h : w.next step = some w') :
    (∃ now, step = .poll now ∧ w' = w.refill now) ∨
      (∃ now, step = .take now ∧ w.job = none ∧ w' = w.take now) ∨
      ∃ now written within, step = .finish now written ∧ w.job = some within ∧
        w' = w.finish now within written := by
  cases step with
  | poll now => exact .inl ⟨now, rfl, (Option.some.inj h).symm⟩
  | take now =>
    rw [Writer.next] at h
    split at h
    · next hj => exact .inr (.inl ⟨now, rfl, hj, (Option.some.inj h).symm⟩)
    · cases h
  | finish now written =>
    obtain ⟨within, hj, rfl⟩ := Option.map_eq_some_iff.mp h
    exact .inr (.inr ⟨now, written, within, rfl, hj, rfl⟩)

/-! ### What every run keeps -/

@[simp] theorem written_nil : written [] = 0 := rfl

@[simp] theorem written_cons (write : Write) (log : List Write) :
    written (write :: log) = write.bytes + written log := by
  simp [written]

@[simp] theorem written_append (front back : List Write) :
    written (front ++ back) = written front + written back := by
  simp [written]

theorem bytes_le_largest {log : List Write} {write : Write} (h : write ∈ log) :
    write.bytes ≤ largest log := by
  induction log with
  | nil => cases h
  | cons first log ih =>
    rcases mem_cons.mp h with rfl | h
    · exact Nat.le_max_left _ _
    · exact Nat.le_trans (ih h) (Nat.le_max_right _ _)

theorem largest_le {log : List Write} {bound : Nat} (h : ∀ write ∈ log, write.bytes ≤ bound) :
    largest log ≤ bound := by
  induction log with
  | nil => exact Nat.zero_le _
  | cons first log ih =>
    exact Nat.max_le.mpr ⟨h first mem_cons_self, ih fun write hw => h write (mem_cons_of_mem _ hw)⟩

/-- The balance never leaves `i128`, and what is written from one job to another, which still
finds a byte, was there before the first or was earned since. -/
structure Kept (daily : Nat) (w : Writer) : Prop where
  rate : w.budget.daily = daily
  clock : w.clock < instants
  refilled : w.budget.refilled ≤ w.clock
  upper : w.budget.balance ≤ daily
  lower : -(2 ^ 64 + 2 ^ 18 * w.budget.refilled : Int) ≤ w.budget.balance
  admitted : w.job = some true → -(2 ^ 18 * w.budget.refilled : Int) ≤ w.budget.balance
  past : ∀ write ∈ w.log, write.time ≤ w.clock
  sorted : w.log.Pairwise fun a b => a.time ≤ b.time
  drawn : ∀ write after, write :: after <:+ w.log →
    (written (write :: after) : Int) + w.budget.balance ≤ write.balance + (w.earned - write.earned)
  taken : w.job = some true → ∀ write after, write :: after <:+ w.log →
    (written (write :: after) : Int) + 1 ≤ write.balance + (w.taken - write.earned)
  paid : ∀ first mid last, first :: mid ++ [last] <:+: w.log →
    (written (first :: mid) : Int) + 1 ≤ first.balance + (last.taken - first.earned)

section Admits

variable {b : WriteBudget} {now : Nat}

theorem admits_ge {debt : Int} (hd : b.daily < 2 ^ 64)
    (hn : b.refilled ≤ now) (hlt : now < instants) (hde : 0 ≤ debt) (hsm : debt ≤ 2 ^ 65)
    (h : -(debt + 2 ^ 18 * b.refilled) ≤ b.balance) :
    -(debt + 2 ^ 18 * now) ≤ (b.admits now).1.balance ∧
      (b.admits now).1.balance ≤ b.balance + earned b.daily (now - b.refilled) := by
  have he := earned_ge hd (Nat.lt_of_le_of_lt (Nat.sub_le now b.refilled) hlt)
  have hi : instants = 2 ^ 64 * 10 ^ 9 := rfl
  have hs : ((now - b.refilled : Nat) : Int) = now - b.refilled := by omega
  rw [hs] at he
  have hsum : -(debt + 2 ^ 18 * now) ≤ b.balance + earned b.daily (now - b.refilled) := by omega
  show _ ≤ min (saturate _) _ ∧ min (saturate _) _ ≤ _
  unfold saturate
  omega

end Admits

namespace Kept

variable {daily now bytes : Nat} {w w' : Writer}

theorem start (hn : now < instants) : Kept daily (.new daily now) where
  rate := rfl
  clock := hn
  refilled := le_rfl
  upper := by
    show ((daily / 4 : Nat) : Int) ≤ daily
    omega
  lower := by
    show _ ≤ ((daily / 4 : Nat) : Int)
    omega
  admitted := fun h => by cases h
  past := fun write hw => absurd hw not_mem_nil
  sorted := .nil
  drawn := fun write after h => absurd (suffix_nil.mp h) (cons_ne_nil _ _)
  taken := fun h => by cases h
  paid := fun first mid last h => absurd (infix_nil.mp h) (cons_ne_nil _ _)

theorem refill (h : Kept daily w) (hd : daily < 2 ^ 64) (hn : w.clock ≤ now)
    (hlt : now < instants) : Kept daily (w.refill now) := by
  have hra : w.budget.daily < 2 ^ 64 := by rwa [h.rate]
  have hl : w.budget.refilled ≤ now := Nat.le_trans h.refilled hn
  obtain ⟨hge, hle⟩ := admits_ge hra hl hlt (by decide) (by decide) h.lower
  refine ⟨h.rate, hlt, le_rfl, ?_, hge, ?_, ?_, h.sorted, ?_, h.taken, h.paid⟩
  · show min _ (w.budget.daily : Int) ≤ daily
    rw [h.rate]
    exact min_le_right _ _
  · intro hj
    have hf : -((0 : Int) + 2 ^ 18 * w.budget.refilled) ≤ w.budget.balance := by
      rw [zero_add]
      exact h.admitted hj
    have hr := (admits_ge hra hl hlt (Int.le_refl 0) (by decide) hf).1
    rwa [zero_add] at hr
  · exact fun write hw => Nat.le_trans (h.past write hw) hn
  · intro write after hs
    have hdr := h.drawn write after hs
    show _ + (w.budget.admits now).1.balance ≤ _ + (w.earned + _ - _)
    omega

theorem take (h : Kept daily (w.refill now)) : Kept daily (w.take now) := by
  have hp : (w.take now).job = some true → 0 < (w.refill now).budget.balance := fun hj =>
    of_decide_eq_true (Option.some.inj hj)
  refine { h with admitted := fun hj => ?_, taken := fun hj write after hs => ?_ }
  · have := hp hj
    show _ ≤ (w.refill now).budget.balance
    omega
  · have := hp hj
    have hdr := h.drawn write after hs
    show _ ≤ _ + ((w.refill now).earned - _)
    omega

theorem charge (h : Kept daily w) (hd : daily < 2 ^ 64) (hby : bytes < 2 ^ 64)
    (hp : w.job = some true ∨ bytes = 0) :
    (w.budget.charge bytes).balance = w.budget.balance - bytes ∧
      -(2 ^ 64 + 2 ^ 18 * w.budget.refilled : Int) ≤ w.budget.balance - bytes := by
  have hi : instants = 2 ^ 64 * 10 ^ 9 := rfl
  have hf : -(2 ^ 64 + 2 ^ 18 * w.budget.refilled : Int) ≤ w.budget.balance - bytes := by
    rcases hp with hj | rfl
    · have := h.admitted hj
      omega
    · have := h.lower
      omega
  have hr := h.refilled
  have hu := h.upper
  have hc := h.clock
  exact ⟨wrap_eq (by omega) (by omega), hf⟩

theorem skip (h : Kept daily w) (hd : daily < 2 ^ 64) (hn : w.clock ≤ now)
    (hlt : now < instants) : Kept daily (w.finish now false bytes) := by
  obtain ⟨hc, hf⟩ := h.charge hd (Nat.two_pow_pos 64) (.inr rfl)
  have hc : (w.budget.charge 0).balance = w.budget.balance := by simpa using hc
  refine ⟨h.rate, hlt, Nat.le_trans h.refilled hn, ?_, ?_, nofun, ?_, h.sorted, ?_, nofun, h.paid⟩
  · show (w.budget.charge 0).balance ≤ daily
    rw [hc]
    exact h.upper
  · show _ ≤ (w.budget.charge 0).balance
    rw [hc]
    exact h.lower
  · exact fun write hw => Nat.le_trans (h.past write hw) hn
  · intro write after hs
    show _ + (w.budget.charge 0).balance ≤ _
    rw [hc]
    exact h.drawn write after hs

theorem finish (h : Kept daily w) (hd : daily < 2 ^ 64) (hn : w.clock ≤ now)
    (hlt : now < instants) (hby : bytes < 2 ^ 64) (hj : w.job = some true) :
    Kept daily (w.finish now true bytes) := by
  obtain ⟨hc, hf⟩ := h.charge hd hby (.inl hj)
  have hu := h.upper
  refine ⟨h.rate, hlt, Nat.le_trans h.refilled hn, ?_, ?_, nofun, ?_, ?_, ?_, nofun, ?_⟩
  · show (w.budget.charge bytes).balance ≤ daily
    omega
  · show _ ≤ (w.budget.charge bytes).balance
    rw [hc]
    exact hf
  · intro write hw
    rcases mem_append.mp hw with hold | hnew
    · exact Nat.le_trans (h.past write hold) hn
    · rw [mem_singleton.mp hnew]
      exact le_rfl
  · refine pairwise_append.mpr ⟨h.sorted, pairwise_singleton _ _, fun write hw last hla => ?_⟩
    rw [mem_singleton.mp hla]
    exact Nat.le_trans (h.past write hw) hn
  · intro write after hs
    show _ + (w.budget.charge bytes).balance ≤ _ + (w.earned - _)
    rw [hc]
    rcases suffix_concat_iff.mp hs with hnil | ⟨front, heq, hfront⟩
    · cases hnil
    · cases front with
      | nil =>
        cases heq
        simp
      | cons first mid =>
        rw [cons_append, cons.injEq] at heq
        obtain ⟨rfl, rfl⟩ := heq
        have hdr := h.drawn write mid hfront
        rw [← cons_append, written_append, written_cons _ [], written_nil]
        dsimp only
        omega
  · intro first mid last hs
    rcases infix_concat_iff.mp hs with hsuf | hinf
    · rcases suffix_concat_iff.mp hsuf with hnil | ⟨front, heq, hfront⟩
      · cases hnil
      · obtain ⟨rfl, hla⟩ := append_inj' heq rfl
        cases hla
        exact h.taken hj first mid hfront
    · exact h.paid first mid last hinf

theorem next (h : Kept daily w) (hd : daily < 2 ^ 64) {step : WriterStep}
    (hs : (writer daily).step w step w') : Kept daily w' := by
  obtain ⟨hnow, hlt, hb, hn⟩ := hs
  obtain ⟨now, rfl, rfl⟩ | ⟨now, rfl, -, rfl⟩ | ⟨now, bytes, within, rfl, hj, rfl⟩ :=
    Writer.next_cases hn
  · exact h.refill hd hnow hlt
  · exact (h.refill hd hnow hlt).take
  · cases within with
    | false => exact h.skip hd hnow hlt
    | true => exact h.finish hd hnow hlt (hb _ _ rfl) hj

theorem of_run (hd : daily < 2 ^ 64) (hn : now < instants) {steps : List WriterStep}
    (h : (writer daily).Run (.new daily now) steps w) : Kept daily w :=
  h.invariant (fun _ _ _ hk hs => hk.next hd hs) (start hn)

end Kept

/-! ### A day's writes -/

section Days

variable {daily : Nat} {w : Writer} {log : List Write}

theorem within_infix (hs : log.Pairwise fun a b => a.time ≤ b.time) (since : Nat) :
    within log since <:+: log := by
  have hl : (log.filter fun write => decide (since ≤ write.time)).Pairwise
      fun a b => a.time ≤ b.time := hs.filter _
  have hw : within log since = (log.filter fun write => decide (since ≤ write.time)).takeWhile
      fun write => decide (write.time < since + day) := by
    rw [(takeWhile_of_sorted hl (since + day)).1, filter_filter]
    unfold within
    congr 1
    funext write
    exact Bool.and_comm _ _
  rw [hw, ← (takeWhile_of_sorted hs since).2]
  exact .trans ( takeWhile_prefix _).isInfix (dropWhile_suffix _).isInfix

theorem mem_within {write : Write} {since : Nat} :
    write ∈ within log since ↔ write ∈ log ∧ since ≤ write.time ∧ write.time < since + day := by
  simp [within]

theorem Kept.bounded (h : Kept daily w) (hp : w.log.Pairwise (Paces daily)) :
    Bounded daily w.log := by
  intro since
  have hm : ∀ write ∈ within w.log since, since ≤ write.time ∧ write.time < since + day :=
    fun write hw => (mem_within.mp hw).2
  have hs := within_infix h.sorted since
  have hpa := hp.sublist hs.sublist
  generalize within w.log since = window at hs hm hpa
  cases window using reverseRecOn with
  | nil => exact Nat.zero_le _
  | append_singleton window last =>
    have hla : last.bytes ≤ largest (window ++ [last]) := bytes_le_largest (by simp)
    rw [written_append, written_cons, written_nil]
    cases window with
    | nil =>
      rw [written_nil]
      omega
    | cons first mid =>
      have hf := hm first (by simp)
      have hl := hm last (by simp)
      have hpaid := h.paid first mid last hs
      have := (pairwise_append.mp hpa).2.2 first (by simp) last (by simp) (by omega)
      omega

end Days

/-! ### The same polls and jobs -/

/-- Two writers that differ in what was written only. -/
structure Level (idle w : Writer) : Prop where
  rate : w.budget.daily = idle.budget.daily
  refilled : w.budget.refilled = idle.budget.refilled
  clock : w.clock = idle.clock
  job : w.job.isSome = idle.job.isSome
  earned : w.earned = idle.earned
  taken : w.taken = idle.taken

namespace Level

variable {now : Nat} {idle w : Writer}

theorem refill (h : Level idle w) : Level (idle.refill now) (w.refill now) := by
  constructor <;> simp [h.rate, h.refilled, h.job, h.earned, h.taken]

theorem take (h : Level idle w) : Level (idle.take now) (w.take now) := by
  constructor <;> simp [Writer.take, h.rate, h.refilled, h.earned]

theorem finish {within within' : Bool} {bytes bytes' : Nat} (h : Level idle w) :
    Level (idle.finish now within bytes) (w.finish now within' bytes') :=
  ⟨h.rate, h.refilled, rfl, rfl, h.earned, h.taken⟩

theorem job_none (h : Level idle w) (hj : idle.job = none) : w.job = none := by
  rw [← Option.not_isSome_iff_eq_none, h.job, hj]
  exact Bool.false_ne_true

theorem job_some (h : Level idle w) {within : Bool} (hj : idle.job = some within) :
    ∃ within, w.job = some within :=
  Option.isSome_iff_exists.mp (by rw [h.job, hj]; rfl)

theorem symm (h : Level idle w) : Level w idle :=
  ⟨h.rate.symm, h.refilled.symm, h.clock.symm, h.job.symm, h.earned.symm, h.taken.symm⟩

theorem refl (w : Writer) : Level w w := ⟨rfl, rfl, rfl, rfl, rfl, rfl⟩

end Level

/-- What a job finds that is charged in both runs. -/
structure Beside (write unspent : Write) : Prop where
  time : write.time = unspent.time
  balance : write.balance ≤ unspent.balance
  earned : write.earned = unspent.earned
  taken : write.taken = unspent.taken

/-- The writer beside one that writes nothing: at most the same jobs are admitted. -/
structure Alongside (daily : Nat) (idle w : Writer) : Prop where
  level : Level idle w
  balance : w.budget.balance ≤ idle.budget.balance
  admitted : w.job = some true → idle.job = some true
  unsized : ∀ write ∈ idle.log, write.bytes = 0
  members : ∀ write ∈ w.log, ∃ unspent ∈ idle.log, Beside write unspent
  paced : idle.log.Pairwise (Paces daily) → w.log.Pairwise (Paces daily)

theorem saturate_mono {x y : Int} (h : x ≤ y) : saturate x ≤ saturate y :=
  max_le_max_left _ (min_le_min_right _ h)

theorem admits_balance (b : WriteBudget) (now : Nat) : (b.admits now).1.balance =
    min (saturate (b.balance + earned b.daily (now - b.refilled))) b.daily := rfl

theorem admits_mono {b b' : WriteBudget} {now : Nat} (hr : b.daily = b'.daily)
    (hre : b.refilled = b'.refilled) (hb : b.balance ≤ b'.balance) :
    (b.admits now).1.balance ≤ (b'.admits now).1.balance := by
  rw [admits_balance, admits_balance, hr, hre]
  exact min_le_min_right _ (saturate_mono (Int.add_le_add_right hb _))

theorem Paces.beside {daily : Nat} {first last first' last' : Write} (hf : Beside first first')
    (hl : Beside last last') (h : Paces daily first' last') : Paces daily first last := by
  intro hd
  have := h (by rw [← hf.time, ← hl.time]; exact hd)
  have hb := hf.balance
  rw [hf.earned, hl.taken]
  omega

namespace Alongside

variable {daily now bytes : Nat} {idle idle' w w' : Writer} {step : WriterStep}

theorem refill (h : Alongside daily idle w) : Alongside daily (idle.refill now) (w.refill now) :=
  ⟨h.level.refill, admits_mono h.level.rate h.level.refilled h.balance, h.admitted, h.unsized,
    h.members, h.paced⟩

theorem take (h : Alongside daily idle w) : Alongside daily (idle.take now) (w.take now) := by
  refine ⟨h.level.take, h.refill.balance, fun hj => ?_, h.unsized, h.members, h.paced⟩
  have hp : 0 < (w.budget.admits now).1.balance := of_decide_eq_true (Option.some.inj hj)
  have hle : (w.budget.admits now).1.balance ≤ (idle.budget.admits now).1.balance :=
    h.refill.balance
  exact congrArg some (decide_eq_true (Int.lt_of_lt_of_le hp hle))

theorem finish (h : Alongside daily idle w) (hi : Kept daily idle) (hk : Kept daily w)
    (hd : daily < 2 ^ 64) (hby : bytes < 2 ^ 64) {within within' : Bool}
    (hj : w.job = some within) (hj' : idle.job = some within') :
    Alongside daily (idle.finish now within' 0) (w.finish now within bytes) := by
  have hb : ((w.finish now within bytes).budget.balance : Int) ≤ w.budget.balance := by
    cases within with
    | false =>
      have hc := (hk.charge hd (Nat.two_pow_pos 64) (.inr rfl)).1
      show (w.budget.charge 0).balance ≤ _
      omega
    | true =>
      have hc := (hk.charge hd hby (.inl hj)).1
      show (w.budget.charge bytes).balance ≤ _
      omega
  have hib : (idle.finish now within' 0).budget.balance = idle.budget.balance := by
    have hc := (hi.charge hd (Nat.two_pow_pos 64) (.inr rfl)).1
    show (idle.budget.charge (if within' then 0 else 0)).balance = _
    rw [ite_self, hc]
    simp
  have hpre : idle.log <+: (idle.finish now within' 0).log := by
    cases within' with
    | false => exact prefix_rfl
    | true => exact prefix_append _ _
  have hunsized : ∀ write ∈ (idle.finish now within' 0).log, write.bytes = 0 := by
    cases within' with
    | false => exact h.unsized
    | true =>
      intro write hw
      rcases mem_append.mp hw with hold | hnew
      · exact h.unsized write hold
      · rw [mem_singleton.mp hnew]
  have hlevel : Level (idle.finish now within' 0) (w.finish now within bytes) := h.level.finish
  have hbal : (w.finish now within bytes).budget.balance ≤
      (idle.finish now within' 0).budget.balance := by
    rw [hib]
    exact Int.le_trans hb h.balance
  cases within with
  | false =>
    refine ⟨hlevel, hbal, nofun, hunsized, fun write hw => ?_, fun hp =>
      h.paced (hp.sublist hpre.sublist)⟩
    obtain ⟨unspent, hu, hbe⟩ := h.members write hw
    exact ⟨unspent, hpre.subset hu, hbe⟩
  | true =>
    obtain rfl : within' = true := Option.some.inj (hj'.symm.trans (h.admitted hj))
    have hnew : Beside ⟨now, bytes, w.budget.balance, w.earned, w.taken⟩
        ⟨now, 0, idle.budget.balance, idle.earned, idle.taken⟩ :=
      ⟨rfl, h.balance, h.level.earned, h.level.taken⟩
    refine ⟨hlevel, hbal, nofun, hunsized, fun write hw => ?_, fun hp => ?_⟩
    · rcases mem_append.mp hw with hold | hlast
      · obtain ⟨unspent, hu, hbe⟩ := h.members write hold
        exact ⟨unspent, hpre.subset hu, hbe⟩
      · rw [mem_singleton.mp hlast]
        exact ⟨_, mem_append_right _ (mem_singleton_self _), hnew⟩
    · obtain ⟨hold, -, hlast⟩ := pairwise_append.mp hp
      refine pairwise_append.mpr ⟨h.paced hold, pairwise_singleton _ _, fun write hw last hl => ?_⟩
      obtain ⟨unspent, hu, hbe⟩ := h.members write hw
      rw [mem_singleton.mp hl]
      exact (hlast unspent hu _ (mem_singleton_self _)).beside hbe hnew

theorem next (h : Alongside daily idle w) (hi : Kept daily idle) (hk : Kept daily w)
    (hd : daily < 2 ^ 64) (hs : (writer daily).step w step w') :
    ∃ idle', (writer daily).step idle step.unsized idle' ∧ Alongside daily idle' w' := by
  obtain ⟨hnow, hlt, hb, hn⟩ := hs
  rw [h.level.clock] at hnow
  obtain ⟨now, rfl, rfl⟩ | ⟨now, rfl, hj, rfl⟩ | ⟨now, bytes, within, rfl, hj, rfl⟩ :=
    Writer.next_cases hn
  · exact ⟨_, ⟨hnow, hlt, nofun, rfl⟩, h.refill⟩
  · exact ⟨_, ⟨hnow, hlt, nofun, if_pos (h.level.symm.job_none hj)⟩, h.take⟩
  · obtain ⟨within', hj'⟩ := h.level.symm.job_some hj
    refine ⟨_, ⟨hnow, hlt, fun _ _ heq => ?_, ?_⟩, h.finish hi hk hd (hb _ _ rfl) hj hj'⟩
    · cases heq
      exact Nat.two_pow_pos 64
    · show idle.job.map _ = _
      rw [hj']
      rfl

end Alongside

theorem idle_concat (daily now : Nat) (steps : List WriterStep) (step : WriterStep) :
    idle daily now (steps ++ [step]) =
      ((idle daily now steps).next step.unsized).getD (idle daily now steps) := by
  simp [idle]

section Runs

variable {daily now : Nat} {steps : List WriterStep} {step : WriterStep} {w w' : Writer}

theorem idle_run (hd : daily < 2 ^ 64) (hn : now < instants)
    (h : (writer daily).Run (.new daily now) steps w) :
    (writer daily).Run (.new daily now) (steps.map .unsized) (idle daily now steps) ∧
      Alongside daily (idle daily now steps) w := by
  generalize hs : Writer.new daily now = start at h
  induction h with
  | refl =>
    subst hs
    exact ⟨.refl _, .refl _, le_rfl, id, nofun, nofun, fun _ => .nil⟩
  | @tail m t steps step prior hstep ih =>
    subst hs
    obtain ⟨hi, ha⟩ := ih
    obtain ⟨idle', hs, hnext⟩ := ha.next (.of_run hd hn hi) (.of_run hd hn prior) hd hstep
    have heq : idle daily now (steps ++ [step]) = idle' := by
      rw [idle_concat, hs.2.2.2]
      rfl
    rw [heq, map_append]
    exact ⟨hi.tail hs, hnext⟩

theorem idle_step (hd : daily < 2 ^ 64) (hn : now < instants)
    (h : (writer daily).Run (.new daily now) steps w) (hs : (writer daily).step w step w') :
    (writer daily).step (idle daily now steps) step.unsized (idle daily now (steps ++ [step])) := by
  obtain ⟨hi, ha⟩ := idle_run hd hn h
  obtain ⟨idle', hs, -⟩ := ha.next (.of_run hd hn hi) (.of_run hd hn h) hd hs
  rw [idle_concat, hs.2.2.2]
  exact hs

end Runs

/-! ### Jobs that overspend -/

theorem earned_nonneg {daily elapsed : Nat} (hd : daily < 2 ^ 64) (he : elapsed ≤ day) :
    0 ≤ earned daily elapsed := by
  have hv : day = 86400000000000 := rfl
  have hm : daily * elapsed ≤ (2 ^ 64 - 1) * day := Nat.mul_le_mul (by omega) he
  have hc : ((daily * elapsed : Nat) : Int) < 2 ^ 127 := by
    have : daily * elapsed < 2 ^ 127 := by omega
    exact_mod_cast this
  push_cast at hc
  have hp : (0 : Int) ≤ daily * elapsed := by positivity
  unfold earned
  rw [if_pos (by omega), wrap_eq (by omega) hc]
  exact Int.tdiv_nonneg hp (Int.natCast_nonneg day)

/-- In the day from `since` on so many jobs take more than a day's budget each, and none takes
more than a byte more. -/
def Heavy (daily count since : Nat) (log : List Write) : Prop :=
  count * (daily + 1) ≤ written (within log since) ∧ ∀ write ∈ log, write.bytes ≤ daily + 1

namespace Heavy

variable {daily count since : Nat} {log : List Write} {write : Write}

theorem append (h : Heavy daily count since log) {new : List Write}
    (hn : ∀ write ∈ new, write.bytes ≤ daily + 1) : Heavy daily count since (log ++ new) := by
  refine ⟨?_, fun write hw => (mem_append.mp hw).elim (h.2 write) (hn write)⟩
  unfold within
  rw [filter_append, written_append]
  exact Nat.le_trans h.1 (Nat.le_add_right _ _)

theorem job (h : Heavy daily count since log) (hb : write.bytes = daily + 1)
    (hs : since ≤ write.time) (hl : write.time < since + day) :
    Heavy daily (count + 1) since (log ++ [write]) := by
  refine ⟨?_, (h.append fun last hla => ?_).2⟩
  · have hw : within [write] since = [write] := by simp [within, hs, hl]
    have hc := h.1
    unfold within at hw hc ⊢
    rw [filter_append, hw, written_append, written_cons, written_nil, hb, Nat.add_mul]
    omega
  · rw [mem_singleton.mp hla, hb]

theorem not_bounded (h : Heavy daily 2 since log) : ¬ Bounded daily log := by
  intro hb
  have hl : largest (within log since) ≤ daily + 1 := largest_le fun write hw =>
    h.2 write (mem_within.mp hw).1
  have := hb since
  have := h.1
  omega

end Heavy

/-- The run beside an idle one in which the job `e` takes a byte more than a day's budget and no
other job writes anything: within the day, what is earned brings the bucket back. -/
structure Drained (daily : Nat) (e : Write) (idle w : Writer) : Prop where
  level : Level idle w
  past : e.time ≤ idle.clock
  bucket : idle.clock < e.time + day →
    idle.earned = e.earned ∧ w.budget.balance = e.balance - (daily + 1) ∨
      e.time ≤ idle.budget.refilled ∧
        min (e.balance - (daily + 1) + (idle.earned - e.earned)) daily ≤ w.budget.balance
  admitted : idle.clock < e.time + day → idle.job = some true →
    (daily : Int) + 1 < e.balance + (idle.taken - e.earned) → w.job = some true
  heavy : Heavy daily 1 e.time w.log

namespace Drained

variable {daily now : Nat} {e : Write} {idle idle' w : Writer} {step : WriterStep}

theorem min_le_saturate {x y : Int} (hd : daily < 2 ^ 64) (h : min x daily ≤ y) :
    min x daily ≤ min (saturate y) daily := by
  unfold saturate
  omega

theorem refilled (h : Drained daily e idle w) (hi : Kept daily idle) (hd : daily < 2 ^ 64)
    (hn : idle.clock ≤ now) (hl : now < e.time + day) :
    min (e.balance - (daily + 1) + ((idle.refill now).earned - e.earned)) daily ≤
      (w.refill now).budget.balance := by
  have hb : (w.refill now).budget.balance =
      min (saturate (w.budget.balance + earned daily (now - idle.budget.refilled))) daily := by
    show (w.budget.admits now).1.balance = _
    rw [admits_balance, h.level.rate, h.level.refilled, hi.rate]
  have hx := h.bucket (Nat.lt_of_le_of_lt hn hl)
  rw [hb, Writer.refill_earned, hi.rate]
  have hg : e.time ≤ idle.budget.refilled → 0 ≤ earned daily (now - idle.budget.refilled) :=
    fun hr => earned_nonneg hd (by omega)
  generalize earned daily (now - idle.budget.refilled) = gain at hg ⊢
  rcases hx with ⟨he, hbal⟩ | ⟨hr, hbal⟩
  · rw [he, hbal]
    exact min_le_saturate hd (by omega) 
  · have := hg hr
    exact min_le_saturate hd (by omega)

theorem refill (h : Drained daily e idle w) (hi : Kept daily idle) (hd : daily < 2 ^ 64)
    (hn : idle.clock ≤ now) : Drained daily e (idle.refill now) (w.refill now) := by
  refine ⟨h.level.refill, Nat.le_trans h.past hn, fun hl => .inr ⟨Nat.le_trans h.past hn, ?_⟩,
    fun hl hj ht => ?_, h.heavy⟩
  · exact h.refilled hi hd hn hl
  · exact h.admitted (Nat.lt_of_le_of_lt hn hl) hj ht

theorem take (h : Drained daily e idle w) (hi : Kept daily idle) (hd : daily < 2 ^ 64)
    (hn : idle.clock ≤ now) (hlt : now < instants) :
    Drained daily e (idle.take now) (w.take now) := by
  have hr := h.refill hi hd hn
  refine ⟨h.level.take, hr.past, hr.bucket, fun hl hj ht => ?_, h.heavy⟩
  have hp : 0 < (idle.refill now).budget.balance := of_decide_eq_true (Option.some.inj hj)
  have hu := (hi.refill hd hn hlt).upper
  have hb := h.refilled hi hd hn hl
  have ht : (daily : Int) + 1 < e.balance + ((idle.refill now).earned - e.earned) := ht
  have hw : 0 < (w.refill now).budget.balance := by omega
  exact congrArg some (decide_eq_true hw)

theorem finish (h : Drained daily e idle w) (hk : Kept daily w) (hd : daily < 2 ^ 64)
    (hn : idle.clock ≤ now) {within within' : Bool} :
    Drained daily e (idle.finish now within 0) (w.finish now within' 0) := by
  have hb : (w.finish now within' 0).budget.balance = w.budget.balance := by
    have hc := (hk.charge hd (Nat.two_pow_pos 64) (.inr rfl)).1
    show (w.budget.charge (if within' then 0 else 0)).balance = _
    rw [ite_self, hc]
    simp
  refine ⟨h.level.finish, Nat.le_trans h.past hn, fun hl => ?_, nofun, ?_⟩
  · rw [hb]
    exact h.bucket (Nat.lt_of_le_of_lt hn hl)
  · cases within' with
    | false => exact h.heavy
    | true => exact h.heavy.append fun write hw => by simp [mem_singleton.mp hw]

theorem next (h : Drained daily e idle w) (hi : Kept daily idle) (hk : Kept daily w)
    (hd : daily < 2 ^ 64) (hs : (writer daily).step idle step.unsized idle') :
    ∃ w', (writer daily).step w step.unsized w' ∧ Drained daily e idle' w' := by
  obtain ⟨hnow, hlt, hb, hn⟩ := hs
  have hc : w.clock ≤ step.unsized.now := by rwa [h.level.clock]
  obtain ⟨now, heq, rfl⟩ | ⟨now, heq, hj, rfl⟩ | ⟨now, bytes, within, heq, hj, rfl⟩ :=
    Writer.next_cases hn
  all_goals
    rw [heq] at hnow hlt hb hc ⊢
  · exact ⟨_, ⟨hc, hlt, hb, rfl⟩, h.refill hi hd hnow⟩
  · exact ⟨_, ⟨hc, hlt, hb, if_pos (h.level.job_none hj)⟩, h.take hi hd hnow hlt⟩
  · obtain ⟨within', hj'⟩ := h.level.job_some hj
    have hz : bytes = 0 := by
      cases step <;> cases heq
      rfl
    subst hz
    exact ⟨_, ⟨hc, hlt, hb, congrArg (Option.map _) hj'⟩, h.finish hk hd hnow⟩

end Drained

theorem Heavy.next {daily count since : Nat} {idle idle' w : Writer} {step : WriterStep}
    (h : Heavy daily count since w.log) (hl : Level idle w)
    (hs : (writer daily).step idle step.unsized idle') :
    ∃ w', (writer daily).step w step.unsized w' ∧ Level idle' w' ∧
      Heavy daily count since w'.log := by
  obtain ⟨hnow, hlt, hb, hn⟩ := hs
  have hc : w.clock ≤ step.unsized.now := by rwa [hl.clock]
  obtain ⟨now, heq, rfl⟩ | ⟨now, heq, hj, rfl⟩ | ⟨now, bytes, within, heq, hj, rfl⟩ :=
    Writer.next_cases hn
  all_goals
    rw [heq] at hlt hb hc ⊢
  · exact ⟨_, ⟨hc, hlt, hb, rfl⟩, hl.refill, h⟩
  · exact ⟨_, ⟨hc, hlt, hb, if_pos (hl.job_none hj)⟩, hl.take, h⟩
  · obtain ⟨within', hj'⟩ := hl.job_some hj
    have hz : bytes = 0 := by
      cases step <;> cases heq
      rfl
    subst hz
    refine ⟨_, ⟨hc, hlt, hb, congrArg (Option.map _) hj'⟩, hl.finish, ?_⟩
    cases within' with
    | false => exact h
    | true => exact h.append fun write hw => by simp [mem_singleton.mp hw]

/-- With some sizes of the jobs of a run, the writer gets to such a state. -/
def Sized (daily now : Nat) (steps : List WriterStep) (P : Writer → Prop) : Prop :=
  ∃ sized w, sized.map WriterStep.unsized = steps.map WriterStep.unsized ∧
    (writer daily).Run (.new daily now) sized w ∧ P w

theorem WriterStep.unsized_unsized (step : WriterStep) : step.unsized.unsized = step.unsized := by
  cases step <;> rfl

section Sized

variable {daily now : Nat} {steps : List WriterStep} {step : WriterStep} {w w' : Writer}

theorem Sized.tail {P Q : Writer → Prop} (h : Sized daily now steps P) (hd : daily < 2 ^ 64)
    (hn : now < instants) (step' : WriterStep) (hu : step'.unsized = step.unsized)
    (hs : ∀ w, Kept daily w → P w → ∃ w', (writer daily).step w step' w' ∧ Q w') :
    Sized daily now (steps ++ [step]) Q := by
  obtain ⟨sized, w, heq, hr, hp⟩ := h
  obtain ⟨w', hw, hq⟩ := hs w (.of_run hd hn hr) hp
  exact ⟨sized ++ [step'], w', by simp [heq, hu], hr.tail hw, hq⟩

/-- **Jobs that do not pace each other** overspend when they take a byte more than a day's budget
each and no other job writes anything. -/
theorem heavy_of_unpaced (hd : daily + 1 < 2 ^ 64) (hn : now < instants)
    (h : (writer daily).Run (.new daily now) steps w) : (∀ e ∈ (idle daily now steps).log,
      Sized daily now steps (Drained daily e (idle daily now steps))) ∧
    (idle daily now steps).log.Pairwise fun first last => ¬ Paces daily first last →
      Sized daily now steps fun w => Level (idle daily now steps) w ∧
        Heavy daily 2 first.time w.log := by
  have hlt : daily < 2 ^ 64 := by omega
  generalize hst : Writer.new daily now = start at h
  induction h with
  | refl => exact ⟨nofun, .nil⟩
  | @tail m t steps step prior hstep ih =>
    subst hst
    obtain ⟨hone, htwo⟩ := ih
    obtain ⟨hirun, ha⟩ := idle_run hlt hn prior
    have hi : Kept daily (idle daily now steps) := .of_run hlt hn hirun
    have hs := idle_step hlt hn prior hstep
    generalize idle daily now steps = before at hone htwo hirun ha hi hs
    generalize idle daily now (steps ++ [step]) = after at hs
    -- the runs so far go on with nothing more written
    have hones : ∀ e ∈ before.log, Sized daily now (steps ++ [step]) (Drained daily e after) :=
      fun e he => (hone e he).tail hlt hn _ step.unsized_unsized fun w hk hdr =>
        hdr.next hi hk hlt hs
    have htwos : before.log.Pairwise fun first last => ¬ Paces daily first last →
        Sized daily now (steps ++ [step]) fun w => Level after w ∧ Heavy daily 2 first.time w.log :=
      htwo.imp fun hp hpace => (hp hpace).tail hlt hn _ step.unsized_unsized
        fun w _ hw => hw.2.next hw.1 hs
    obtain ⟨hnow, hclock, -, hnext⟩ := hs
    obtain ⟨now', heq, rfl⟩ | ⟨now', heq, -, rfl⟩ | ⟨now', bytes, within, heq, hj, rfl⟩ :=
      Writer.next_cases hnext
    · exact ⟨hones, htwos⟩
    · exact ⟨hones, htwos⟩
    · cases within with
      | false => exact ⟨hones, htwos⟩
      | true =>
        obtain ⟨written, rfl⟩ : ∃ written, step = .finish now' written := by
          cases step <;> cases heq
          exact ⟨_, rfl⟩
        have hheavy : ∀ since, Heavy daily 0 since before.log := fun since =>
          ⟨by omega, fun write hw => by
            rw [ha.unsized write hw]
            omega⟩
        have hbig : ∀ now written, WriterStep.finish now' (daily + 1) = .finish now written →
            written < 2 ^ 64 := fun _ _ heq => by
          cases heq
          exact hd
        refine ⟨fun e he => (mem_append.mp he).elim (hones e) fun he => ?_,
          pairwise_append.mpr ⟨htwos, pairwise_singleton _ _, fun first hf last hl hpace => ?_⟩⟩
        · -- the last job takes it all
          rw [mem_singleton.mp he]
          have hidle : Sized daily now steps (· = before) :=
            ⟨_, before, by simp [WriterStep.unsized_unsized], hirun, rfl⟩
          refine hidle.tail hlt hn (.finish now' (daily + 1)) rfl fun w hk hw => ?_
          subst hw
          refine ⟨_, ⟨hnow, hclock, hbig, congrArg (Option.map _) hj⟩, Level.finish (.refl _),
            le_rfl, fun _ => .inl ⟨rfl, ?_⟩, nofun, ?_⟩
          · exact (hk.charge hlt hd (.inl hj)).1.trans (by push_cast; rfl)
          · exact (hheavy now').job rfl le_rfl (Nat.lt_add_of_pos_right (by decide))
        · -- the first job took it all, and the last one is still admitted
          rw [mem_singleton.mp hl] at hpace
          unfold Paces at hpace
          push Not at hpace
          obtain ⟨htime, hearned⟩ := hpace
          refine (hone first hf).tail hlt hn (.finish now' (daily + 1)) rfl fun w hk hdr => ?_
          have hwj := hdr.admitted (Nat.lt_of_le_of_lt hnow htime) hj hearned
          refine ⟨_, ⟨by rw [hdr.level.clock]; exact hnow, hclock, hbig,
            congrArg (Option.map _) hwj⟩, hdr.level.finish, ?_⟩
          exact hdr.heavy.job rfl (Nat.le_trans hdr.past hnow) htime

end Sized

/-- **A day's writes** stay within the budget plus one snapshot when the polls and jobs are paced;
when they are not, there are sizes of the jobs with which they do not.  The balance never exceeds
the budget. -/
theorem daily_writes_bounded_iff {daily now : Nat} (hdaily : daily < 2 ^ 64)
    (hnow : now < instants) {steps : List WriterStep} {w : Writer}
    (h : (writer daily).Run (.new daily now) steps w) :
    w.budget.balance ≤ daily ∧ (Paced daily now steps → Bounded daily w.log) ∧
      (daily + 1 < 2 ^ 64 →
        ((∀ sized w', sized.map WriterStep.unsized = steps.map WriterStep.unsized →
          (writer daily).Run (.new daily now) sized w' → Bounded daily w'.log) ↔
          Paced daily now steps)) := by
  have hb : ∀ {sized w'}, sized.map WriterStep.unsized = steps.map WriterStep.unsized →
      (writer daily).Run (.new daily now) sized w' → Paced daily now steps →
      Bounded daily w'.log := by
    intro sized w' heq hr hp
    have hi : idle daily now sized = idle daily now steps := by rw [idle, heq, idle]
    have ha := (idle_run hdaily hnow hr).2
    rw [hi] at ha
    exact (Kept.of_run hdaily hnow hr).bounded (ha.paced hp)
  refine ⟨(Kept.of_run hdaily hnow h).upper, hb rfl h, fun hd => ⟨fun hall => ?_,
    fun hp sized w' heq hr => hb heq hr hp⟩⟩
  refine (heavy_of_unpaced hd hnow h).2.imp fun {first last} hsized => ?_
  by_contra hpace
  obtain ⟨sized, w', heq, hr, -, hheavy⟩ := hsized hpace
  exact hheavy.not_bounded (hall sized w' heq hr)

/-! ### Two schedules -/

section Schedules

variable {daily now start bytes : Nat} {steps : List WriterStep} {w w' : Writer}

theorem run_take (h : (writer daily).Run (.new daily start) steps w) (hc : w.clock ≤ now)
    (hn : now < instants) (hw : w.next (.take now) = some w') :
    (writer daily).Run (.new daily start) (steps ++ [.take now]) w' :=
  h.tail ⟨hc, hn, nofun, hw⟩

theorem run_finish (h : (writer daily).Run (.new daily start) steps w) (hc : w.clock ≤ now)
    (hn : now < instants) (hb : bytes < 2 ^ 64) (hw : w.next (.finish now bytes) = some w') :
    (writer daily).Run (.new daily start) (steps ++ [.finish now bytes]) w' :=
  h.tail ⟨hc, hn, fun _ _ heq => (by cases heq; exact hb), hw⟩

end Schedules

/-- With a budget of eight bytes, two jobs twelve hours apart in the first day. -/
def spaced : List WriterStep :=
  [.take 0, .finish 0 5, .take (day / 2), .finish (day / 2) 5]

def spacedWriter : Writer :=
  ⟨⟨8, -4, day / 2⟩, day / 2, none, 4, 4, [⟨0, 5, 2, 0, 0⟩, ⟨day / 2, 5, 1, 4, 4⟩]⟩

theorem spaced_run : (writer 8).Run (.new 8 0) spaced spacedWriter := by
  have first := run_finish (run_take (.refl (Writer.new 8 0)) le_rfl (by decide) rfl) le_rfl
    (by decide) (show 5 < 2 ^ 64 by decide) rfl
  exact run_finish (run_take first (Nat.zero_le (day / 2)) (by decide) rfl) le_rfl (by decide)
    (show 5 < 2 ^ 64 by decide) (by decide)

/-- Four jobs of four bytes: two after a day, when the bucket is full, and two that the next 23
hours have paid for. -/
def overspending : List WriterStep :=
  [.take day, .finish day 4, .take day, .finish day 4, .take (47 * (day / 24)),
    .finish (47 * (day / 24)) 4, .take (47 * (day / 24)), .finish (47 * (day / 24)) 4]

def overspent : Writer :=
  ⟨⟨8, -1, 47 * (day / 24)⟩, 47 * (day / 24), none, 15, 15,
    [⟨day, 4, 8, 8, 8⟩, ⟨day, 4, 4, 8, 8⟩, ⟨47 * (day / 24), 4, 7, 15, 15⟩,
      ⟨47 * (day / 24), 4, 3, 15, 15⟩]⟩

theorem overspending_run : (writer 8).Run (.new 8 0) overspending overspent := by
  have first := run_finish (run_take (.refl (Writer.new 8 0)) (Nat.zero_le day) (by decide) rfl)
    le_rfl (by decide) (show 4 < 2 ^ 64 by decide) rfl
  have second := run_finish (run_take first le_rfl (by decide) rfl) le_rfl (by decide)
    (show 4 < 2 ^ 64 by decide) rfl
  have third := run_finish (run_take second (show day ≤ 47 * (day / 24) by decide) (by decide) rfl)
    le_rfl (by decide) (show 4 < 2 ^ 64 by decide) rfl
  exact run_finish (run_take third le_rfl (by decide) rfl) le_rfl (by decide)
    (show 4 < 2 ^ 64 by decide) (by decide)

/-- **Two days' worth in one**: sixteen bytes in 23 hours. -/
theorem overspent_in_a_day : (writer 8).Run (.new 8 0) overspending overspent ∧
    ¬ Bounded 8 overspent.log :=
  ⟨overspending_run, fun h => absurd (h day) (by decide)⟩

theorem overspent_bounded_iff :
    (∀ sized w, sized.map WriterStep.unsized = spaced.map WriterStep.unsized →
      (writer 8).Run (.new 8 0) sized w → Bounded 8 w.log) ∧
    ¬ ∀ sized w, sized.map WriterStep.unsized = overspending.map WriterStep.unsized →
      (writer 8).Run (.new 8 0) sized w → Bounded 8 w.log :=
  ⟨((daily_writes_bounded_iff (by decide) (by decide) spaced_run).2.2 (by decide)).mpr (by decide),
    fun h => absurd
      (((daily_writes_bounded_iff (by decide) (by decide) overspending_run).2.2 (by decide)).mp h)
      (by decide)⟩

end LocalAi.PromptCache
