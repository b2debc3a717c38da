import Mathlib.Logic.Basic

/-!
# Transactions

A statement of a transaction changes the state at once; a later statement that fails does
not undo it.  Only the end of the transaction decides: what was written stays when it is
committed, and nothing of it when it is dropped or a statement fails.

* `Tx`: statements in sequence, `Tx.Runs` what a successful sequence does.
* `transaction`: a whole transaction; `transaction_cases`: it runs to a commit, runs and is
  dropped, or fails; `transaction_error`: one that fails changes nothing.
-/

namespace LocalAi.Lib

variable {σ ε α β : Type}

/-- Statements that may fail over a state. -/
def Tx (σ ε α : Type) : Type := σ → Except ε α × σ

variable {e : ε}

namespace Tx

def pure (a : α) : Tx σ ε α := fun s => (.ok a, s)

def bind (x : Tx σ ε α) (f : α → Tx σ ε β) : Tx σ ε β := fun s =>
  match x s with
  | (.ok a, s) => f a s
  | (.error e, s) => (.error e, s)

instance : Monad (Tx σ ε) where
  pure := Tx.pure
  bind := Tx.bind

def lift (x : Except ε α) : Tx σ ε α := fun s => (x, s)

def query (f : σ → Except ε α) : Tx σ ε α := fun s => (f s, s)

def modify (f : σ → σ) : Tx σ ε Unit := fun s => (.ok (), f s)

/-- A statement that fails with `e` unless `holds`. -/
def check (holds : σ → Bool) (e : ε) (f : σ → σ) : Tx σ ε Unit := fun s =>
  if holds s then (.ok (), f s) else (.error e, s)

/-- The same statement for each element in turn. -/
def each (f : α → Tx σ ε Unit) : List α → Tx σ ε Unit
  | [] => pure ()
  | x :: xs => bind (f x) fun _ => each f xs

def Runs (x : Tx σ ε α) (s : σ) (a : α) (t : σ) : Prop := x s = (.ok a, t)

variable {s t : σ}

theorem runs_pure {a b : α} : (Pure.pure a : Tx σ ε α).Runs s b t ↔ b = a ∧ t = s := by
  show ((Except.ok a, s) : Except ε α × σ) = (.ok b, t) ↔ _
  simp [eq_comm]

variable {b : β} {u : Unit}

theorem runs_bind {x : Tx σ ε α} {f : α → Tx σ ε β} :
    (x >>= f).Runs s b t ↔ ∃ a m, x.Runs s a m ∧ (f a).Runs m b t := by
  show (match x s with
    | (.ok a, s) => f a s
    | (.error e, s) => (.error e, s)) = (.ok b, t) ↔ _
  unfold Runs
  rcases x s with ⟨e | a, m⟩
  · simp
  · constructor
    · exact fun h => ⟨a, m, rfl, h⟩
    · rintro ⟨a', m', hx, h⟩
      cases hx
      exact h

theorem runs_query {f : σ → Except ε α} {a : α} : (query f).Runs s a t ↔ f s = .ok a ∧ t = s := by
  simp [Runs, query, eq_comm]

theorem runs_modify {f : σ → σ} : (modify f : Tx σ ε Unit).Runs s u t ↔ t = f s := by
  simp [Runs, modify, eq_comm]

theorem runs_check {holds : σ → Bool} {f : σ → σ} :
    (check holds e f).Runs s u t ↔ holds s = true ∧ t = f s := by
  unfold Runs check
  cases holds s with
  | false => simp
  | true => simp [eq_comm]

theorem runs_query_bind {x : σ → Except ε α} {f : α → Tx σ ε β} {b : β} {s t : σ} :
    (query x >>= f).Runs s b t ↔ ∃ a, x s = .ok a ∧ (f a).Runs s b t := by
  rw [runs_bind]
  refine exists_congr fun a => ⟨?_, fun h => ⟨s, runs_query.mpr ⟨h.1, rfl⟩, h.2⟩⟩
  rintro ⟨m, hx, h⟩
  obtain ⟨hx, rfl⟩ := runs_query.mp hx
  exact ⟨hx, h⟩

theorem runs_lift_bind {x : Except ε α} {f : α → Tx σ ε β} :
    (lift x >>= f).Runs s b t ↔ ∃ a, x = .ok a ∧ (f a).Runs s b t :=
  @runs_query_bind σ ε α β (fun _ => x) f b s t

theorem runs_check_bind {holds : σ → Bool} {g : σ → σ} {f : Unit → Tx σ ε β} :
    (check holds e g >>= f).Runs s b t ↔ holds s = true ∧ (f ()).Runs (g s) b t := by
  rw [runs_bind]
  constructor
  · rintro ⟨_, m, hc, h⟩
    obtain ⟨hh, rfl⟩ := runs_check.mp hc
    exact ⟨hh, h⟩
  · rintro ⟨hh, h⟩
    exact ⟨(), g s, runs_check.mpr ⟨hh, rfl⟩, h⟩

theorem runs_modify_bind {g : σ → σ} {f : Unit → Tx σ ε β} :
    (modify g >>= f).Runs s b t ↔ (f ()).Runs (g s) b t := by
  rw [runs_bind]
  constructor
  · rintro ⟨_, m, hm, h⟩
    rwa [runs_modify.mp hm] at h
  · exact fun h => ⟨(), g s, runs_modify.mpr rfl, h⟩

theorem runs_each_nil {f : α → Tx σ ε Unit} : (each f []).Runs s u t ↔ t = s := by
  simp [Runs, each, pure, eq_comm]

theorem runs_each_cons {f : α → Tx σ ε Unit} {x : α} {xs : List α} :
    (each f (x :: xs)).Runs s u t ↔ ∃ m, (f x).Runs s () m ∧ (each f xs).Runs m u t := by
  rw [each]
  exact (runs_bind (x := f x) (f := fun _ => each f xs)).trans
    ⟨fun ⟨_, m, hx, hxs⟩ => ⟨m, hx, hxs⟩, fun ⟨m, hx, hxs⟩ => ⟨(), m, hx, hxs⟩⟩

end Tx

/-- How a transaction ends when its statements succeed. -/
inductive Outcome (α : Type)
  | commit (reply : α)
  | drop (reply : α)

/-- Run `body`; what it wrote is kept only by a commit. -/
def transaction (body : Tx σ ε (Outcome α)) (s : σ) : Except ε α × σ :=
  match body s with
  | (.ok (.commit reply), t) => (.ok reply, t)
  | (.ok (.drop reply), _) => (.ok reply, s)
  | (.error e, _) => (.error e, s)

variable {body : Tx σ ε (Outcome α)}

theorem transaction_cases {s : σ} {result : Except ε α × σ} (h : transaction body s = result) :
    (∃ reply t, body.Runs s (.commit reply) t ∧ result = (.ok reply, t)) ∨
    (∃ reply t, body.Runs s (.drop reply) t ∧ result = (.ok reply, s)) ∨
    ∃ e, result = (.error e, s) := by
  subst h
  unfold transaction Tx.Runs
  rcases body s with ⟨e | (reply | reply), t⟩
  · exact .inr (.inr ⟨e, rfl⟩)
  · exact .inl ⟨reply, t, rfl, rfl⟩
  · exact .inr (.inl ⟨reply, t, rfl, rfl⟩)

theorem transaction_drop {s t : σ} {reply : α}
    (h : body.Runs s (.drop reply) t) : transaction body s = (.ok reply, s) := by
  unfold transaction
  rw [show body s = _ from h]

theorem transaction_error {s : σ}
    (h : (transaction body s).1 = .error e) : (transaction body s).2 = s := by
  rcases transaction_cases (rfl : transaction body s = _) with
    ⟨reply, t, -, heq⟩ | ⟨reply, t, -, heq⟩ | ⟨e, heq⟩
  · rw [heq] at h
    cases h
  · rw [heq]
  · rw [heq]

end LocalAi.Lib
