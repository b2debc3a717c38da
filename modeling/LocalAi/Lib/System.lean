import Mathlib.Logic.Function.Basic

/-!
# Systems that take steps

A system has states, actions and a step relation; several parties are one system
whose actions name who acts, so a run is an interleaving of their steps.

* `System.Reachable`: the states some run from a start leads to.
* `Reachable.invariant`: what holds at the start and is kept by every step holds
  in every reachable state.
* `System.restrict`: the same system when only some steps are taken.
* `update_eq_some`: what a map of the parties holds after an update at one of them.
-/

namespace LocalAi.Lib

/-- States `S` that change by actions `A`. -/
structure System (S A : Type) where
  /-- A state the system may start in. -/
  start : S → Prop
  /-- What an action does to a state. -/
  step : S → A → S → Prop

namespace System

variable {S A : Type} {sys : System S A}

inductive Run (sys : System S A) : S → List A → S → Prop
  | refl (s : S) : Run sys s [] s
  | tail {s m t : S} {actions : List A} {a : A} (prior : Run sys s actions m)
      (next : sys.step m a t) : Run sys s (actions ++ [a]) t

inductive Reachable (sys : System S A) : S → Prop
  | start {s : S} (h : sys.start s) : Reachable sys s
  | step {s t : S} {a : A} (prior : Reachable sys s) (next : sys.step s a t) : Reachable sys t

theorem Reachable.run {s t : S} {actions : List A} (hs : sys.Reachable s)
    (hr : sys.Run s actions t) : sys.Reachable t := by
  induction hr with
  | refl => exact hs
  | tail prior next ih => exact .step ih next

theorem Run.invariant {I : S → Prop} (hst : ∀ s a t, I s → sys.step s a t → I t) {s t : S}
    {actions : List A} (hs : I s) (hr : sys.Run s actions t) : I t := by
  induction hr with
  | refl => exact hs
  | tail prior next ih => exact hst _ _ _ ih next

theorem Reachable.invariant {I : S → Prop} (hstart : ∀ s, sys.start s → I s)
    (hstep : ∀ s a t, I s → sys.step s a t → I t) {s : S} (hs : sys.Reachable s) : I s := by
  induction hs with
  | start h => exact hstart _ h
  | step prior next ih => exact hstep _ _ _ ih next

/-- The system when only the steps that `ok` allows are taken. -/
def restrict (sys : System S A) (ok : S → A → Prop) : System S A where
  start := sys.start
  step := fun s a t => ok s a ∧ sys.step s a t

theorem Reachable.of_restrict {ok : S → A → Prop} {s : S} (hs : (sys.restrict ok).Reachable s) :
    sys.Reachable s := by
  induction hs with
  | start h => exact .start h
  | step prior next ih => exact .step ih next.2

end System

section Update

variable {K V : Type} [DecidableEq K] {f : K → Option V} {a b : K} {new : Option V}

theorem update_eq_some {v : V} (h : Function.update f a new b = some v) :
    b = a ∧ new = some v ∨ b ≠ a ∧ f b = some v := by
  rw [Function.update_apply] at h
  split at h
  · next hb => exact .inl ⟨hb, h⟩
  · next hb => exact .inr ⟨hb, h⟩

theorem update_none_ne (h : Function.update f a none b ≠ none) : b ≠ a ∧ f b ≠ none := by
  rw [Function.update_apply] at h
  split at h
  · exact absurd rfl h
  · next hb => exact ⟨hb, h⟩

theorem update_some_ne {v : V} (h : f b ≠ none) : Function.update f a (some v) b ≠ none := by
  rw [Function.update_apply]
  split
  · exact Option.some_ne_none v
  · exact h

end Update

end LocalAi.Lib
