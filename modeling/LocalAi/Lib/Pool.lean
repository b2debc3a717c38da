import Mathlib.Algebra.Order.BigOperators.Group.List
import Mathlib.Algebra.GroupWithZero.Nat

/-!
# Workers on one queue

Several workers take jobs from a queue until it is empty or a job failed.  A schedule says which
worker acts next, and whether it is told to give up there.

* `Pool.finished_ok`: when all workers ended well, every job passed.
* `Pool.all_pass`: when every job passes and no worker is told to give up, none ends badly.
-/

open List

namespace LocalAi.Lib

inductive Worker (J E : Type)
  | ready
  | busy (job : J)
  | done (result : Except E Unit)

/-- The queue, whether a job failed, and the workers. -/
structure Pool (J E : Type) where
  queue : List J
  failed : Bool
  workers : List (Worker J E)

/-- One turn: a worker, and whether it is told to give up. -/
structure Turn where
  worker : Nat
  abort : Bool

variable {J E : Type}

def Worker.isDone : Worker J E → Bool
  | .done _ => true
  | _ => false

/-- The turns a worker may still need for what is at hand. -/
def Worker.weight : Worker J E → Nat
  | .ready => 1
  | .busy _ => 2
  | .done _ => 0

namespace Pool

variable (check : J → Except E Unit) (abandoned : E)

def put (pool : Pool J E) (index : Nat) (worker : Worker J E) : Pool J E :=
  { pool with workers := pool.workers.set index worker }

def step (pool : Pool J E) (turn : Turn) : Pool J E :=
  match pool.workers[turn.worker]? with
  | some .ready =>
    if turn.abort then pool.put turn.worker (.done (.error abandoned))
    -- the worker whose job failed reports it
    else if pool.failed then pool.put turn.worker (.done (.ok ()))
    else
      match pool.queue with
      | [] => pool.put turn.worker (.done (.ok ()))
      | job :: queue => { pool with queue := queue }.put turn.worker (.busy job)
  | some (.busy job) =>
    match check job with
    | .ok _ => pool.put turn.worker .ready
    | .error error => { pool with failed := true }.put turn.worker (.done (.error error))
  | _ => pool

def run (pool : Pool J E) (turns : List Turn) : Pool J E :=
  turns.foldl (step check abandoned) pool

def start (jobs : List J) (count : Nat) : Pool J E := ⟨jobs, false, List.replicate count .ready⟩

def finished (pool : Pool J E) : Bool := pool.workers.all Worker.isDone

/-- The first failure that a worker reports. -/
def result : List (Worker J E) → Except E Unit
  | [] => .ok ()
  | .done (.error error) :: _ => .error error
  | _ :: workers => result workers

variable {workers : List (Worker J E)}

theorem result_eq_ok : result workers = .ok () ↔ ∀ error, .done (.error error) ∉ workers := by
  induction workers with
  | nil => simp [result]
  | cons worker workers ih =>
    rcases worker with _ | job | (error | done)
    · simp [result, ih]
    · simp [result, ih]
    · refine ⟨nofun, fun h => ?_⟩
      exact absurd (mem_cons_self ..) (h error)
    · simp [result, ih]

def Fine (pool : Pool J E) : Prop := ∀ error, .done (.error error) ∉ pool.workers

/-- While no worker ended badly, a job is queued, at hand, or has passed. -/
structure Sound (jobs : List J) (pool : Pool J E) : Prop where
  quiet : pool.Fine → pool.failed = false
  jobs : pool.Fine → ∀ job ∈ jobs, job ∈ pool.queue ∨ .busy job ∈ pool.workers ∨ check job = .ok ()
  drained : pool.Fine → .done (.ok ()) ∈ pool.workers → pool.queue = []

variable {check abandoned}

theorem mem_set_of_ne {index : Nat} {old new worker : Worker J E}
    (hold : workers[index]? = some old) (h : worker ∈ workers) (hne : worker ≠ old) :
    worker ∈ workers.set index new := by
  obtain ⟨i, hi, rfl⟩ := mem_iff_getElem.mp h
  have hidx : index ≠ i := by
    rintro rfl
    rw [getElem?_eq_getElem hi] at hold
    exact hne (Option.some.inj hold)
  have hl : i < (workers.set index new).length := by rwa [length_set]
  rw [← getElem_set_ne hidx (a := new) hl]
  exact getElem_mem hl

theorem mem_of_mem_set {index : Nat} {new worker : Worker J E}
    (h : worker ∈ workers.set index new) : worker ∈ workers ∨ worker = new :=
  mem_or_eq_of_mem_set h

theorem fine_of_put {pool : Pool J E} {index : Nat} {old new : Worker J E}
    (hold : pool.workers[index]? = some old) (hg : ∀ error, old ≠ .done (.error error))
    (h : (pool.put index new).Fine) : pool.Fine := by
  intro error hm
  exact h error (mem_set_of_ne hold hm (Ne.symm (hg error)))

variable {jobs : List J}

theorem Sound.step {pool : Pool J E} (h : Sound check jobs pool) (turn : Turn) :
    Sound check jobs (pool.step check abandoned turn) := by
  unfold Pool.step
  split
  case h_1 hr =>
    have hg : ∀ error : E, (.ready : Worker J E) ≠ .done (.error error) :=
      fun _ heq => by cases heq
    split
    · -- given up
      have hbad : ¬ (pool.put turn.worker (.done (.error abandoned))).Fine := by
        intro hfi
        have hlt := (List.getElem?_eq_some_iff.mp hr).1
        exact hfi abandoned (mem_set hlt _)
      exact ⟨fun hf => absurd hf hbad, fun hf => absurd hf hbad, fun hf => absurd hf hbad⟩
    case isFalse =>
      split
      case isTrue hfailed =>
        have hbad : ¬ (pool.put turn.worker (.done (.ok ()))).Fine := by
          intro hfi
          have hquiet := h.quiet (fine_of_put hr hg hfi)
          rw [hfailed] at hquiet
          cases hquiet
        exact ⟨fun hf => absurd hf hbad, fun hf => absurd hf hbad, fun hf => absurd hf hbad⟩
      case isFalse hfailed =>
        split
        case h_1 hque =>
          refine ⟨fun hf => h.quiet (fine_of_put hr hg hf), fun hf job hj => ?_, fun _ _ => hque⟩
          rcases h.jobs (fine_of_put hr hg hf) job hj with hq | hb | hc
          · exact .inl hq
          · exact .inr (.inl (mem_set_of_ne hr hb (fun heq => by cases heq)))
          · exact .inr (.inr hc)
        case h_2 first queue hque =>
          have hfi : ∀ hf : ({ pool with queue := queue }.put turn.worker (.busy first)).Fine,
              pool.Fine := fun hf => @fine_of_put _ _ pool _ _ (.busy first) hr hg hf
          refine ⟨fun hf => h.quiet (hfi hf), fun hf job hj => ?_, fun hf hd => ?_⟩
          · rcases h.jobs (hfi hf) job hj with hq | hb | hc
            · rw [hque] at hq
              rcases mem_cons.mp hq with rfl | hq
              · have hlt := (List.getElem?_eq_some_iff.mp hr).1
                exact .inr (.inl (mem_set hlt _))
              · exact .inl hq
            · exact .inr (.inl (mem_set_of_ne hr hb (fun heq => by cases heq)))
            · exact .inr (.inr hc)
          · rcases mem_of_mem_set hd with hold | hn
            · have he := h.drained (hfi hf) hold
              rw [hque] at he
              cases he
            · cases hn
  case h_2 job hbu =>
    have hg : ∀ error : E, (.busy job : Worker J E) ≠ .done (.error error) :=
      fun _ heq => by cases heq
    split
    case h_1 hp =>
      refine ⟨fun hf => h.quiet (fine_of_put hbu hg hf), fun hf other hoth => ?_, fun hf hd => ?_⟩
      · rcases h.jobs (fine_of_put hbu hg hf) other hoth with hq | hb | hc
        · exact .inl hq
        · by_cases hs : other = job
          · rw [hs]
            exact .inr (.inr hp)
          · exact .inr (.inl (mem_set_of_ne hbu hb (fun heq => hs (by cases heq; rfl))))
        · exact .inr (.inr hc)
      · rcases mem_of_mem_set hd with hold | hn
        · exact h.drained (fine_of_put hbu hg hf) hold
        · cases hn
    case h_2 error hfail =>
      have hbad : ¬ ({ pool with failed := true }.put turn.worker (.done (.error error))).Fine := by
        intro hfi
        have hlt := (List.getElem?_eq_some_iff.mp hbu).1
        exact hfi error (mem_set hlt _)
      exact ⟨fun hf => absurd hf hbad, fun hf => absurd hf hbad, fun hf => absurd hf hbad⟩
  · exact h

theorem sound_start (jobs : List J) (count : Nat) :
    Sound check jobs (start jobs count : Pool J E) where
  quiet := fun _ => rfl
  jobs := fun _ _ hj => .inl hj
  drained := fun _ hd => by
    have := eq_of_mem_replicate hd
    cases this

theorem Sound.run {pool : Pool J E} (h : Sound check jobs pool)
    (turns : List Turn) : Sound check jobs (pool.run check abandoned turns) := by
  induction turns generalizing pool with
  | nil => exact h
  | cons turn turns ih => exact ih (h.step turn)

theorem length_workers_step (pool : Pool J E) (turn : Turn) :
    (pool.step check abandoned turn).workers.length = pool.workers.length := by
  unfold Pool.step
  repeat' split
  all_goals first | rfl | exact length_set ..

theorem length_workers_run (pool : Pool J E) (turns : List Turn) :
    (pool.run check abandoned turns).workers.length = pool.workers.length := by
  induction turns generalizing pool with
  | nil => rfl
  | cons turn turns ih => exact (ih _).trans (length_workers_step pool turn)

theorem finished_ok {count : Nat} (hcnt : 0 < count) {turns : List Turn}
    (hfin : ((start jobs count : Pool J E).run check abandoned turns).finished = true)
    (hok : result ((start jobs count : Pool J E).run check abandoned turns).workers = .ok ()) :
    ∀ job ∈ jobs, check job = .ok () := by
  have hs := @Sound.run J E check abandoned jobs _ (sound_start jobs count) turns
  have hl := @length_workers_run J E check abandoned (start jobs count) turns
  revert hfin hok hs hl
  generalize (start jobs count : Pool J E).run check abandoned turns = pool
  intro hfin hok hs hl job hj
  have hf : pool.Fine := result_eq_ok.mp hok
  have hd : ∀ worker ∈ pool.workers, worker = .done (.ok ()) := by
    intro worker hw
    have hisDone := all_eq_true.mp hfin worker hw
    rcases worker with _ | at_hand | (error | ended)
    · cases hisDone
    · cases hisDone
    · exact absurd hw (hf error)
    · rfl
  have hso : pool.workers ≠ [] := by
    intro hn
    rw [hn, start, length_replicate, length_nil] at hl
    omega
  obtain ⟨worker, hw⟩ := exists_mem_of_ne_nil _ hso
  have hque := hs.drained hf (hd worker hw ▸ hw)
  rcases hs.jobs hf job hj with hq | hb | hc
  · rw [hque] at hq
    cases hq
  · cases hd _ hb
  · exact hc

/-- When every job passes and no worker is told to give up, none ends badly. -/
theorem all_pass (hjo : ∀ job ∈ jobs, check job = .ok ()) (count : Nat)
    {turns : List Turn} (ht : ∀ turn ∈ turns, turn.abort = false) :
    result ((start jobs count : Pool J E).run check abandoned turns).workers = .ok () := by
  have hs : ∀ (pool : Pool J E) (turn : Turn), turn.abort = false →
      pool.Fine ∧ (∀ job ∈ pool.queue, check job = .ok ()) ∧
        (∀ job, .busy job ∈ pool.workers → check job = .ok ()) →
      (pool.step check abandoned turn).Fine ∧
        (∀ job ∈ (pool.step check abandoned turn).queue, check job = .ok ()) ∧
        ∀ job, .busy job ∈ (pool.step check abandoned turn).workers → check job = .ok () := by
    rintro pool turn ha ⟨hf, hq, hb⟩
    have hp : ∀ (queue : List J) (failed : Bool) (new : Worker J E),
        (∀ error, new ≠ .done (.error error)) → (∀ job ∈ queue, check job = .ok ()) →
        (∀ job, new = .busy job → check job = .ok ()) →
        (put ⟨queue, failed, pool.workers⟩ turn.worker new).Fine ∧
          (∀ job ∈ queue, check job = .ok ()) ∧
          ∀ job, .busy job ∈ pool.workers.set turn.worker new → check job = .ok () := by
      intro queue failed new hnew hq hnewBusy
      refine ⟨fun error hm => ?_, hq, fun job hm => ?_⟩
      · rcases mem_of_mem_set hm with hold | heq
        · exact hf error hold
        · exact hnew error heq.symm
      · rcases mem_of_mem_set hm with hold | heq
        · exact hb job hold
        · exact hnewBusy job heq.symm
    unfold Pool.step
    split
    · rw [ha, if_neg (by decide)]
      split
      · exact hp _ _ _ nofun hq nofun
      · split
        · exact hp _ _ _ nofun hq nofun
        case h_2 first rest heq =>
          rw [heq] at hq
          refine hp _ _ _ nofun (fun job hj => hq job (mem_cons_of_mem _ hj)) (fun job h => ?_)
          cases h
          exact hq first (mem_cons_self ..)
    case h_2 job hj =>
      have hpa := hb job (mem_of_getElem? hj)
      rw [hpa]
      exact hp _ _ _ nofun hq nofun
    · exact ⟨hf, hq, hb⟩
  have hr : ∀ (turns : List Turn) (pool : Pool J E), (∀ turn ∈ turns, turn.abort = false) →
      pool.Fine ∧ (∀ job ∈ pool.queue, check job = .ok ()) ∧
        (∀ job, .busy job ∈ pool.workers → check job = .ok ()) →
      (pool.run check abandoned turns).Fine := by
    intro turns
    induction turns with
    | nil => exact fun pool _ h => h.1
    | cons turn turns ih =>
      intro pool ht h
      exact ih _ (fun later hl => ht later (mem_cons_of_mem _ hl))
        (hs pool turn (ht turn (mem_cons_self ..)) h)
  refine result_eq_ok.mpr (hr turns _ ht ⟨?_, hjo, ?_⟩)
  · intro error hm
    cases eq_of_mem_replicate hm
  · intro job hm
    cases eq_of_mem_replicate hm

/-! ### Ending -/

/-- The turns the workers may still need. -/
def left (pool : Pool J E) : Nat :=
  2 * pool.queue.length + (pool.workers.map Worker.weight).sum

theorem sum_set {index : Nat} {old new : Worker J E} (hold : workers[index]? = some old) :
    ((workers.set index new).map Worker.weight).sum + old.weight =
      (workers.map Worker.weight).sum + new.weight := by
  induction workers generalizing index with
  | nil => simp at hold
  | cons worker workers ih =>
    cases index with
    | zero =>
      obtain rfl : worker = old := by simpa using hold
      simp only [set_cons_zero, map_cons, sum_cons]
      omega
    | succ index =>
      have hr := @ih index (by simpa using hold)
      simp only [set_cons_succ, map_cons, sum_cons]
      omega

theorem left_step {pool : Pool J E} {index : Nat} {worker : Worker J E}
    (hw : pool.workers[index]? = some worker) (hg : worker.isDone = false) :
    (pool.step check abandoned ⟨index, false⟩).left < pool.left := by
  have hp : ∀ new : Worker J E, ((pool.workers.set index new).map Worker.weight).sum + worker.weight =
      (pool.workers.map Worker.weight).sum + new.weight := fun new => sum_set hw
  unfold Pool.step left
  rw [hw]
  cases worker with
  | ready =>
    dsimp only
    rw [if_neg (by decide)]
    split
    · have := hp (.done (.ok ()))
      simp only [put, Worker.weight] at this ⊢
      omega
    · split
      case h_1 heq =>
        have := hp (.done (.ok ()))
        simp only [put, Worker.weight] at this ⊢
        omega
      case h_2 job rest heq =>
        have := hp (.busy job)
        simp only [put, Worker.weight, heq, length_cons] at this ⊢
        omega
  | busy =>
    dsimp only
    split
    · have := hp .ready
      simp only [put, Worker.weight] at this ⊢
      omega
    case h_2 error heq =>
      have := hp (.done (.error error))
      simp only [put, Worker.weight] at this ⊢
      omega
  | done => cases hg

theorem exists_finish (pool : Pool J E) : ∃ turns : List Turn,
    (∀ turn ∈ turns, turn.abort = false) ∧ (pool.run check abandoned turns).finished = true := by
  induction hn : pool.left using Nat.strongRecOn generalizing pool with
  | ind n ih =>
    by_cases hf : pool.finished = true
    · exact ⟨[], by simp, hf⟩
    · rw [finished, all_eq_true] at hf
      push Not at hf
      obtain ⟨worker, hw, hg⟩ := hf
      obtain ⟨index, hi⟩ := mem_iff_getElem?.mp hw
      have hl := @left_step J E check abandoned pool index worker hi (Bool.eq_false_iff.mpr hg)
      obtain ⟨turns, htu, he⟩ := ih _ (by rw [← hn]; exact hl)
        (pool.step check abandoned ⟨index, false⟩) rfl
      refine ⟨⟨index, false⟩ :: turns, fun turn ht => ?_, he⟩
      rcases mem_cons.mp ht with rfl | ht
      · rfl
      · exact htu turn ht

end Pool

end LocalAi.Lib
