import LocalAi.Scheduler.Admission

/-!
# Admission keeps the shared budget

The active generations fit in the context together, whatever was asked for; and the jobs are
settled in the order they were queued.

* `canAdmit_eq`: what `can_admit` answers then, without the saturating sums.
* `admission_keeps_budget`: every reachable state.
-/

open List

namespace LocalAi.Scheduler

open Lib
open Vision (PromptImages)

/-- The tokens a generation may come to hold. -/
def Generation.tokens (generation : Generation) : Nat :=
  generation.prompt.length + generation.maxTokens

/-- The active generations fit: they are few enough, none is longer than the context, and they
share it. -/
structure Engine.Within (engine : Engine) : Prop where
  count : engine.active.length ≤ maxBatchSequences
  each : ∀ generation ∈ engine.active, generation.tokens ≤ engine.context
  shares : Shares engine.context engine.sequenceStateTokens (engine.active.map Generation.tokens)

/-! ### Sums -/

theorem context_lt_usizeMax (engine : Engine) : engine.context < usizeMax :=
  Nat.lt_of_le_of_lt engine.context_le (by decide)

theorem usizeAdd_eq_some {a b : Nat} (h : a + b ≤ usizeMax) : usizeAdd a b = some (a + b) := if_pos h

variable {generation : Generation} {prompt : List Nat}

theorem reservedTokens_eq {engine : Engine} (h : generation.tokens ≤ engine.context) :
    generation.reservedTokens = some generation.tokens :=
  usizeAdd_eq_some (Nat.le_trans h (Nat.le_of_lt (context_lt_usizeMax engine)))

theorem mapM_eq_some {α β : Type} {f : α → Option β} {g : α → β} {xs : List α}
    (h : ∀ x ∈ xs, f x = some (g x)) : xs.mapM f = some (xs.map g) := by
  induction xs with
  | nil => rfl
  | cons x xs ih =>
    obtain ⟨hx, hxs⟩ := forall_mem_cons.mp h
    rw [mapM_cons, hx, ih hxs]
    rfl

theorem canAdmit_eq {engine : Engine} (h : engine.Within) (promptTokens maxTokens : Nat) :
    engine.canAdmit promptTokens maxTokens =
      some (decide (engine.active = [] ∨ engine.active.length < maxBatchSequences ∧
        (engine.active.map Generation.tokens).sum + (promptTokens + maxTokens) +
          engine.active.length * engine.sequenceStateTokens ≤ engine.context)) := by
  have hr : engine.active.mapM Generation.reservedTokens =
      some (engine.active.map Generation.tokens) :=
    mapM_eq_some fun generation hm => reservedTokens_eq (h.each generation hm)
  have hs : (engine.active.map Generation.tokens).foldl saturatingAdd 0 =
      cap usizeMax (engine.active.map Generation.tokens).sum := by
    have hfo := @foldl_cap usizeMax (engine.active.map Generation.tokens) 0
    rw [Nat.zero_add] at hfo
    exact hfo
  unfold Engine.canAdmit
  by_cases he : engine.active = []
  · rw [if_pos (isEmpty_iff.mpr he)]
    exact congrArg some (decide_eq_true (Or.inl he)).symm
  rw [if_neg (fun hisEmpty => he (isEmpty_iff.mp hisEmpty))]
  by_cases hf : maxBatchSequences ≤ engine.active.length
  · rw [if_pos hf]
    refine congrArg some (decide_eq_false ?_).symm
    rintro (hn | ⟨hlt, -⟩)
    · exact he hn
    · exact absurd hf (Nat.not_le_of_lt hlt)
  rw [if_neg hf, hr]
  refine congrArg some (decide_eq_decide.mpr ?_)
  rw [hs]
  unfold saturatingAdd saturatingMul
  rw [cap_add_cap, cap_cap_add, cap_cap_add, Nat.add_assoc (cap usizeMax _), cap_cap_add, cap_le_iff (context_lt_usizeMax engine), ← Nat.add_assoc, ← Nat.add_assoc]
  exact ⟨fun hle => Or.inr ⟨Nat.lt_of_not_le hf, hle⟩, fun hor => (hor.resolve_left he).2⟩

/-! ### The engine -/

theorem Engine.Within.idle {engine : Engine} (h : engine.active = []) : engine.Within where
  count := by
    rw [h]
    exact Nat.zero_le _
  each generation hm := by
    rw [h] at hm
    cases hm
  shares := by
    rw [h]
    exact Shares.nil

theorem validateRequest_le {F : Type} {output context : Nat}
    {images : Option (PromptImages F)} {u : Unit}
    (h : validateRequest prompt output context images = .ok u) :
    prompt.length + output ≤ context := by
  obtain ⟨_, -, hf⟩ := bind_eq_ok.mp h
  obtain ⟨length, hl, hle⟩ := (Option.any_eq_true _ _).mp (ensure_eq_ok.mp hf)
  unfold usizeAdd at hl
  split at hl
  · cases hl
    exact of_decide_eq_true hle
  · cases hl

variable {P F D : Type} {validateParams : P → Except Error Unit}

variable {params : GenerateParams P}

theorem validateWithImages_le {engine : Engine} {images : Option (PromptImages F)} {u : Unit}
    (h : engine.validateWithImages validateParams prompt params images = .ok u) :
    prompt.length + params.maxTokens ≤ engine.context := by
  obtain ⟨_, -, hr⟩ := bind_eq_ok.mp h
  exact validateRequest_le hr

theorem beginGeneration_eq {engine : Engine} {id : Nat}
    {images : Option (PromptImages F)} {begins : Except Error Unit}
    (h : engine.beginGeneration validateParams id prompt params images begins = .ok generation) :
    generation = ⟨id, prompt, params.maxTokens⟩ ∧
      prompt.length + params.maxTokens ≤ engine.context := by
  obtain ⟨_, hv, h⟩ := bind_eq_ok.mp h
  refine ⟨?_, validateWithImages_le hv⟩
  split at h
  · cases h
    rfl
  · obtain ⟨_, -, h⟩ := bind_eq_ok.mp h
    cases h
    rfl

/-- What an admission does to an engine: nothing but counting, or one more generation. -/
theorem admitConstrained_cases {engine engine' : Engine}
    {images : Option (PromptImages F)} {seen : Seen} {result : Except Error Nat}
    (h : engine.admitConstrained validateParams prompt params images seen = (result, engine')) :
    (∃ error, result = .error error ∧ ∃ next, engine.nextGeneration ≤ next ∧
      engine' = { engine with nextGeneration := next }) ∨
    (result = .ok (engine.nextGeneration + 1) ∧ prompt.length + params.maxTokens ≤ engine.context ∧
      engine' = { engine with
        active := engine.active ++ [⟨engine.nextGeneration + 1, prompt, params.maxTokens⟩],
        nextGeneration := engine.nextGeneration + 1 }) := by
  unfold Engine.admitConstrained at h
  split at h
  · cases h
    exact Or.inl ⟨_, rfl, _, le_rfl, rfl⟩
  cases hr : seen.room with
  | error =>
    rw [hr] at h
    cases h
    exact Or.inl ⟨_, rfl, _, Nat.le_succ _, rfl⟩
  | ok =>
    rw [hr] at h
    dsimp only at h
    split at h
    case h_1 generation hb =>
      obtain ⟨rfl, hle⟩ := beginGeneration_eq hb
      cases h
      exact Or.inr ⟨rfl, hle, rfl⟩
    case h_2 error hb =>
      cases h
      exact Or.inl ⟨_, rfl, _, Nat.le_succ _, rfl⟩

theorem Engine.Within.counted {engine : Engine} (h : engine.Within) (next : Nat) :
    Engine.Within { engine with nextGeneration := next } := ⟨h.count, h.each, h.shares⟩

theorem Engine.Within.join {engine : Engine} (h : engine.Within)
    (hle : generation.tokens ≤ engine.context)
    (hc : engine.canAdmit generation.prompt.length generation.maxTokens = some true) :
    Engine.Within { engine with active := engine.active ++ [generation] } := by
  rw [canAdmit_eq h] at hc
  have hc := of_decide_eq_true (Option.some.inj hc)
  refine ⟨?_, ?_, ?_⟩
  · change (engine.active ++ [generation]).length ≤ maxBatchSequences
    rw [length_append, length_singleton]
    rcases hc with hn | ⟨hlt, -⟩
    · rw [hn]
      decide
    · exact hlt
  · intro other hm
    rcases mem_append.mp hm with hm | hm
    · exact h.each other hm
    · rw [mem_singleton.mp hm]
      exact hle
  · change Shares engine.context engine.sequenceStateTokens
      ((engine.active ++ [generation]).map Generation.tokens)
    rw [map_append, map_singleton]
    rcases hc with hn | ⟨-, hs⟩
    · rw [hn]
      exact Shares.alone hle
    · refine Shares.join ?_
      rw [length_map]
      exact hs

/-- **Whoever is left** after a step still fits. -/
theorem Engine.Within.step {engine : Engine} (h : engine.Within) {kept : List Generation}
    (hk : kept.Subperm engine.active) : Engine.Within { engine with active := kept } where
  count := Nat.le_trans hk.length_le h.count
  each generation hm := h.each generation (hk.subset hm)
  shares := by
    obtain ⟨order, hp, hs⟩ := hk
    exact h.shares.leave ⟨order.map Generation.tokens, hp.map _, hs.map _⟩

/-! ### The worker -/

/-- The ids of the jobs that were admitted, in the order they were settled. -/
def Worker.admittedIds (worker : Worker P F D) : List Nat :=
  worker.settled.filterMap fun job => job.2.admittedId

/-- What holds of the worker while `held` is in its hands: the active generations fit, every job
is settled, held or still queued, in the order they came, and ids count admissions. -/
structure Worker.Keeps (worker : Worker P F D) (held : List (Pending P F D)) : Prop where
  within : worker.engine.Within
  order : worker.queued.filterMap prepare =
    worker.settled.map Prod.fst ++ (held ++ worker.receiver.filterMap prepare)
  ids : worker.admittedIds.Pairwise (· < ·)
  next : ∀ id ∈ worker.admittedIds, id ≤ worker.engine.nextGeneration

/-- A worker in order between its turns. -/
def Worker.Kept (worker : Worker P F D) : Prop := worker.Keeps worker.waiting.toList

section Offers

variable {worker : Worker P F D} {pending : Pending P F D}

theorem admittedIds_settle (worker : Worker P F D) (pending : Pending P F D) (outcome : Outcome) :
    (worker.settle pending outcome).admittedIds =
      worker.admittedIds ++ outcome.admittedId.toList := by
  unfold Worker.admittedIds Worker.settle
  rw [filterMap_append]
  cases outcome <;> rfl

theorem order_settle (worker : Worker P F D) (pending : Pending P F D) (outcome : Outcome)
    {queued : List (Pending P F D)}
    (h : queued = worker.settled.map Prod.fst ++ ([pending] ++ worker.receiver.filterMap prepare)) :
    queued = (worker.settle pending outcome).settled.map Prod.fst ++
      ([] ++ worker.receiver.filterMap prepare) := by
  rw [h, Worker.settle, map_append, append_assoc]
  rfl

theorem Worker.Keeps.settle (h : worker.Keeps [pending]) (hw : worker.waiting = none)
    {outcome : Outcome} (ho : outcome.admittedId = none) :
    (worker.settle pending outcome).Kept := by
  have hi := admittedIds_settle worker pending outcome
  rw [ho, Option.toList_none, append_nil] at hi
  refine ⟨h.within, ?_, by rw [hi]; exact h.ids, by rw [hi]; exact h.next⟩
  rw [show (worker.settle pending outcome).waiting = none from hw]
  exact order_settle worker pending outcome h.order

theorem Worker.Keeps.hold (h : worker.Keeps [pending]) : (worker.hold pending).Kept :=
  ⟨h.within, h.order, h.ids, h.next⟩

theorem Worker.Keeps.engine {held : List (Pending P F D)} (h : worker.Keeps held) {next : Nat}
    (hn : worker.engine.nextGeneration ≤ next) :
    Worker.Keeps { worker with engine := { worker.engine with nextGeneration := next } } held :=
  ⟨h.within.counted next, h.order, h.ids, fun id hm => Nat.le_trans (h.next id hm) hn⟩

theorem Worker.Keeps.join (h : worker.Keeps [pending]) (hw : worker.waiting = none)
    (hid : generation.id = worker.engine.nextGeneration + 1)
    (hle : generation.tokens ≤ worker.engine.context)
    (hc : worker.engine.canAdmit generation.prompt.length generation.maxTokens = some true) :
    Worker.Kept ({ worker with
      engine := { worker.engine with
        active := worker.engine.active ++ [generation], nextGeneration := generation.id },
      running := generation.id :: worker.running }.settle pending (.admitted generation.id)) := by
  have hi := admittedIds_settle { worker with
      engine := { worker.engine with
        active := worker.engine.active ++ [generation], nextGeneration := generation.id },
      running := generation.id :: worker.running } pending (.admitted generation.id)
  refine ⟨(h.within.join hle hc).counted _, ?_, ?_, ?_⟩
  · dsimp only [Worker.settle]
    rw [hw]
    exact order_settle worker pending _ h.order
  · rw [hi]
    refine pairwise_append.mpr ⟨h.ids, pairwise_singleton _ _, ?_⟩
    intro id hm later hl
    rw [mem_singleton.mp hl, hid]
    exact Nat.lt_succ_of_le (h.next id hm)
  · rw [hi]
    intro id hm
    rcases mem_append.mp hm with hm | hm
    · have hb := h.next id hm
      change id ≤ generation.id
      omega
    · exact Nat.le_of_eq (mem_singleton.mp hm)

/-- **One job** offered to the engine: it is settled, or put back, and nothing overflows. -/
theorem offer_kept (h : worker.Keeps [pending]) (hw : worker.waiting = none) (seen : Seen) :
    ∃ worker', worker.offer validateParams pending seen = some worker' ∧ worker'.Kept ∧
      worker'.receiver = worker.receiver := by
  cases pending with
  | decision =>
    unfold Worker.offer
    cases decisionGate seen.abandoned worker.engine.active.length with
    | drop => exact ⟨_, rfl, h.settle hw rfl, rfl⟩
    | wait => exact ⟨_, rfl, h.hold, rfl⟩
    | run => exact ⟨_, rfl, h.settle hw rfl, rfl⟩
  | generation prepared =>
    unfold Worker.offer
    dsimp only
    by_cases ha : seen.abandoned = true
    · rw [if_pos ha]
      exact ⟨_, rfl, h.settle hw rfl, rfl⟩
    rw [if_neg ha]
    cases hv : worker.engine.validateWithImages validateParams prepared.ids prepared.params
      prepared.images with
    | error error => exact ⟨_, rfl, h.settle hw rfl, rfl⟩
    | ok _ =>
      cases hc : worker.engine.canAdmit prepared.ids.length prepared.params.maxTokens with
      | none =>
        rw [canAdmit_eq h.within] at hc
        cases hc
      | some can =>
        cases can with
        | false => exact ⟨_, rfl, h.hold, rfl⟩
        | true =>
          rw [Option.bind_eq_bind, Option.bind_some, if_pos rfl]
          cases hj : worker.engine.admitConstrained validateParams prepared.ids
            prepared.params prepared.images seen with
          | mk result engine' =>
            rcases admitConstrained_cases hj with
              ⟨error, rfl, next, hn, rfl⟩ | ⟨rfl, hle, rfl⟩
            · exact ⟨_, rfl, (h.engine hn).settle hw rfl, rfl⟩
            · exact ⟨_, rfl, h.join hw rfl hle hc, rfl⟩

theorem admitOne_kept (h : worker.Kept) (seen : Seen) :
    ∃ worker', worker.admitOne validateParams seen = some worker' ∧ worker'.Kept ∧
      (worker.waiting.isSome = true → worker'.receiver = worker.receiver) := by
  unfold Worker.admitOne
  cases hw : worker.waiting with
  | some pending =>
    unfold Worker.Kept at h
    rw [hw] at h
    have hh : Worker.Keeps { worker with waiting := none } [pending] :=
      ⟨h.within, h.order, h.ids, h.next⟩
    obtain ⟨worker', hof, hk, hr⟩ := offer_kept hh rfl seen
    exact ⟨worker', hof, hk, fun _ => hr⟩
  | none =>
    unfold Worker.Kept at h
    rw [hw] at h
    have ho := h.order
    cases hr : worker.receiver with
    | nil =>
      rw [hr] at ho
      exact ⟨_, rfl, ⟨h.within, ho, h.ids, h.next⟩, nofun⟩
    | cons job receiver =>
      rw [hr, filterMap_cons] at ho
      dsimp only
      cases hp : prepare job with
      | none =>
        rw [hp] at ho
        exact ⟨_, rfl, ⟨h.within, ho, h.ids, h.next⟩, nofun⟩
      | some pending =>
        rw [hp] at ho
        have hh : Worker.Keeps { worker with receiver, waiting := none } [pending] :=
          ⟨h.within, ho, h.ids, h.next⟩
        obtain ⟨worker', hof, hk, -⟩ := offer_kept hh rfl seen
        exact ⟨worker', hof, hk, nofun⟩

theorem Worker.Kept.step (h : worker.Kept) {action : Action P F D} {worker' : Worker P F D}
    (hs : worker.Steps validateParams action worker') : worker'.Kept := by
  cases action with
  | queue =>
    cases hs
    refine ⟨h.within, ?_, h.ids, h.next⟩
    rw [filterMap_append, filterMap_append, h.order, append_assoc, append_assoc]
  | next =>
    obtain ⟨-, hn⟩ := hs
    split at hn
    case isTrue hi =>
      obtain ⟨job, receiver, hr, rfl⟩ := hn
      have ho := h.order
      rw [Option.isNone_iff_eq_none.mp hi.2, hr] at ho
      refine ⟨h.within, ?_, h.ids, h.next⟩
      cases job with
      | decision => exact ho
      | chat => exact ho
    case isFalse =>
      cases hn
      exact ⟨h.within, h.order, h.ids, h.next⟩
  | turn seen =>
    obtain ⟨-, hj⟩ := hs
    obtain ⟨next, hn, hk, -⟩ := admitOne_kept h seen
    cases hj.symm.trans hn
    exact hk
  | step =>
    obtain ⟨-, hs⟩ := hs
    split at hs
    · cases hs
      exact ⟨h.within, h.order, h.ids, h.next⟩
    · obtain ⟨hk, rfl⟩ := hs
      exact ⟨h.within.step hk, h.order, h.ids, h.next⟩

theorem receiver_prefix (h : worker.Kept) {action : Action P F D} {worker' : Worker P F D}
    (hs : worker.Steps validateParams action worker') (hw : worker.waiting.isSome = true) :
    worker.receiver <+: worker'.receiver := by
  cases action with
  | queue =>
    cases hs
    exact prefix_append _ _
  | next =>
    obtain ⟨-, hn⟩ := hs
    split at hn
    case isTrue hi =>
      rw [Option.isNone_iff_eq_none.mp hi.2] at hw
      cases hw
    case isFalse =>
      cases hn
      exact prefix_refl _
  | turn seen =>
    obtain ⟨-, hj⟩ := hs
    obtain ⟨next, hn, -, hr⟩ := admitOne_kept h seen
    cases hj.symm.trans hn
    rw [hr hw]
  | step =>
    obtain ⟨-, hs⟩ := hs
    split at hs
    · cases hs
      exact prefix_refl _
    · obtain ⟨-, rfl⟩ := hs
      exact prefix_refl _

end Offers

section Reachable

variable {worker worker' : Worker P F D}

theorem reachable_queue (h : (workers validateParams).Reachable worker) (job : Job P F D) :
    (workers validateParams).Reachable { worker with
      receiver := worker.receiver ++ [job], queued := worker.queued ++ [job] } :=
  h.step (a := .queue job) rfl

theorem reachable_next (h : (workers validateParams).Reachable worker)
    (hp : worker.phase = .idle) (hrun : worker.running = [])
    (hw : worker.waiting = none) {job : Job P F D} {receiver : List (Job P F D)}
    (hr : worker.receiver = job :: receiver) : (workers validateParams).Reachable { worker with
      receiver, waiting := prepare job, phase := .admitting } := by
  refine h.step (a := .next) ⟨hp, ?_⟩
  rw [if_pos ⟨hrun, by rw [hw]; rfl⟩]
  exact ⟨job, receiver, hr, rfl⟩

theorem reachable_turn (h : (workers validateParams).Reachable worker)
    (hp : worker.phase = .admitting) (seen : Seen)
    (hj : worker.admitOne validateParams seen = some worker') :
    (workers validateParams).Reachable worker' :=
  h.step (a := .turn seen) ⟨hp, hj⟩

end Reachable

theorem workers_kept {worker : Worker P F D} (h : (workers validateParams).Reachable worker) :
    worker.Kept := by
  refine h.invariant (I := Worker.Kept) ?_ fun _ _ _ hk hs => hk.step hs
  rintro _ ⟨engine, ha, rfl⟩
  exact ⟨Engine.Within.idle ha, rfl, List.Pairwise.nil, nofun⟩

/-- **Admission keeps the shared budget.**  In every reachable state the active generations are
few enough and fit in the context together, with what each beside the first costs; no sum of
admission overflows, whatever is asked for; and jobs are settled in the order they were queued,
none being taken while an earlier one waits. -/
theorem admission_keeps_budget (validateParams : P → Except Error Unit) {worker : Worker P F D}
    (h : (workers validateParams).Reachable worker) :
    worker.engine.active.length ≤ maxBatchSequences ∧ (worker.engine.active.map fun generation =>
      generation.prompt.length + generation.maxTokens).sum +
        (worker.engine.active.length - 1) * worker.engine.sequenceStateTokens ≤
      worker.engine.context ∧ (∀ generation ∈ worker.engine.active,
      generation.reservedTokens = some (generation.prompt.length + generation.maxTokens)) ∧
    (∀ promptTokens maxTokens, worker.engine.canAdmit promptTokens maxTokens ≠ none) ∧
    (∀ seen, worker.admitOne validateParams seen ≠ none) ∧
    worker.queued.filterMap prepare = worker.settled.map Prod.fst ++
      (worker.waiting.toList ++ worker.receiver.filterMap prepare) ∧
    (worker.settled.filterMap fun job => job.2.admittedId).Pairwise (· < ·) ∧
    ∀ action worker', worker.Steps validateParams action worker' →
      worker.waiting.isSome = true → worker.receiver <+: worker'.receiver := by
  have hk := workers_kept h
  have hs := hk.within.shares
  unfold Shares at hs
  rw [length_map] at hs
  refine ⟨hk.within.count, hs, ?_, ?_, ?_, hk.order, hk.ids, ?_⟩
  · exact fun generation hm => reservedTokens_eq (hk.within.each generation hm)
  · intro promptTokens maxTokens hn
    rw [canAdmit_eq hk.within] at hn
    cases hn
  · intro seen hn
    have ht : ∃ worker', worker.admitOne validateParams seen = some worker' ∧ _ :=
      admitOne_kept hk seen
    obtain ⟨worker', hj, -⟩ := ht
    rw [hj] at hn
    cases hn
  · exact fun action worker' hst hw => receiver_prefix hk hst hw

/-- An engine with the longest context. -/
def sampleEngine : Engine := ⟨trainingContext, ⟨.q8, .q8⟩, [], 0, le_rfl⟩

def sampleJob (ids : List Nat) (maxTokens : Nat) : Job Unit Unit Unit :=
  .chat ⟨ids, none, ⟨(), 0⟩, maxTokens⟩

/-- Two requests beside each other. -/
theorem two_generations_fit : ∃ worker : Worker Unit Unit Unit,
      (workers fun _ => Except.ok ()).Reachable worker ∧
      worker.engine.active = [⟨1, [7, 8], 300⟩, ⟨2, [9], 40⟩] ∧
      (worker.engine.active.map fun generation =>
        generation.prompt.length + generation.maxTokens).sum +
          (worker.engine.active.length - 1) * worker.engine.sequenceStateTokens ≤
        worker.engine.context := by
  have hs : (workers fun _ => Except.ok ()).Reachable
      (Worker.new sampleEngine : Worker Unit Unit Unit) := .start ⟨sampleEngine, rfl, rfl⟩
  have hq := reachable_queue hs (sampleJob [7, 8] 300)
  have hq' := reachable_queue hq (sampleJob [9] 40)
  have hn := reachable_next hq' rfl rfl rfl rfl
  have hj := reachable_turn hn rfl ⟨false, .ok (), .ok ()⟩ rfl
  have hj' := reachable_turn hj rfl ⟨false, .ok (), .ok ()⟩ rfl
  obtain ⟨-, hf, -⟩ := admission_keeps_budget _ hj'
  exact ⟨_, hj', rfl, hf⟩

end LocalAi.Scheduler
