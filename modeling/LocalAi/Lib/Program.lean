import Mathlib.Logic.Basic

/-!
# Programs that keep a state and may fail

A failure keeps the state it happened in, so what a program did before it stays done.

* `Program`: a state in, a value or a failure and a state out.
* `Program.Ensures`: what holds after a program, of its value or of its failure.
* `Ensures.bind`, `Ensures.orFail`, ...: one rule for each way to compose programs.
-/

namespace LocalAi.Lib

/-- A program on states `σ` that fails with `ε`. -/
def Program (σ ε α : Type) : Type := σ → Except ε α × σ

namespace Program

variable {σ ε ε' α β : Type}

instance : Monad (Program σ ε) where
  pure a := fun s => (.ok a, s)
  bind x f := fun s =>
    match x s with
    | (.ok a, t) => f a t
    | (.error e, t) => (.error e, t)

def throw (e : ε) : Program σ ε α := fun s => (.error e, s)

def attempt (x : Program σ ε α) : Program σ ε' (Except ε α) := fun s => (.ok (x s).1, (x s).2)

/-- The same program with its failure reported as `f` says. -/
def orFail (x : Program σ ε α) (f : ε → ε') : Program σ ε' α := fun s =>
  ((x s).1.mapError f, (x s).2)

/-- From a state in `P`, a value and its state are in `Q`, and the state of a failure is in
`E`. -/
def Ensures (P : σ → Prop) (x : Program σ ε α) (Q : α → σ → Prop) (E : σ → Prop) : Prop :=
  ∀ s, P s → (∀ a, (x s).1 = .ok a → Q a (x s).2) ∧ ∀ e, (x s).1 = .error e → E (x s).2

theorem bind_apply (x : Program σ ε α) (f : α → Program σ ε β) (s : σ) : (x >>= f) s =
    match x s with
    | (.ok a, t) => f a t
    | (.error e, t) => (.error e, t) := rfl

variable {P P' : σ → Prop} {E E' : σ → Prop} {Q Q' : α → σ → Prop} {R : β → σ → Prop}

theorem Ensures.pure {a : α} (h : ∀ s, P s → Q a s) : Ensures P (pure a : Program σ ε α) Q E := by
  intro s hs
  refine ⟨fun b hb => ?_, nofun⟩
  cases hb
  exact h s hs

theorem Ensures.throw {e : ε} (h : ∀ s, P s → E s) : Ensures P (throw e : Program σ ε α) Q E := by
  intro s hs
  exact ⟨nofun, fun _ _ => h s hs⟩

variable {x : Program σ ε α}

theorem Ensures.bind {f : α → Program σ ε β} (hx : Ensures P x Q E)
    (hf : ∀ a, Ensures (Q a) (f a) R E) : Ensures P (x >>= f) R E := by
  intro s hs
  obtain ⟨hok, he⟩ := hx s hs
  rw [bind_apply]
  revert hok he
  generalize x s = outcome
  obtain ⟨result, t⟩ := outcome
  intro hok he
  cases result with
  | error e =>
    refine ⟨nofun, fun _ _ => he e rfl⟩
  | ok a => exact hf a t (hok a rfl)

theorem Ensures.weaken (h : Ensures P x Q E) (hpre : ∀ s, P' s → P s)
    (hp : ∀ a s, Q a s → Q' a s) (herror : ∀ s, E s → E' s) : Ensures P' x Q' E' := by
  intro s hs
  obtain ⟨hok, hf⟩ := h s (hpre s hs)
  exact ⟨fun a ha => hp a _ (hok a ha), fun e he => herror _ (hf e he)⟩

theorem Ensures.orFail {f : ε → ε'} (h : Ensures P x Q E) :
    Ensures P (x.orFail f) Q E := by
  intro s hs
  obtain ⟨hok, herror⟩ := h s hs
  refine ⟨fun a ha => ?_, fun e he => ?_⟩
  · cases hx : (x s).1 with
    | ok =>
      rw [Program.orFail, hx] at ha
      cases ha
      exact hok a hx
    | error =>
      rw [Program.orFail, hx] at ha
      cases ha
  · cases hx : (x s).1 with
    | ok =>
      rw [Program.orFail, hx] at he
      cases he
    | error e => exact herror e hx

theorem Ensures.attempt (h : Ensures P x Q E) :
    Ensures P (x.attempt : Program σ ε' (Except ε α)) (fun outcome s =>
        match outcome with
        | .ok a => Q a s
        | .error _ => E s) E' := by
  intro s hs
  obtain ⟨hok, herror⟩ := h s hs
  refine ⟨fun outcome ho => ?_, nofun⟩
  cases outcome with
  | ok a => exact hok a (Except.ok.inj ho)
  | error e => exact herror e (Except.ok.inj ho)

end Program

end LocalAi.Lib
