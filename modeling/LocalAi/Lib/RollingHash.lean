import Mathlib.Tactic.Ring

/-!
# Rolling hashes

The polynomial hash of a window is kept while the window moves: a value enters at its end, and
the first one is dropped with the base to the length of the window.

* `power`: a power by repeated multiplication.
* `polyHash_roll`: the window moves by one.
-/

namespace LocalAi.Lib

variable {R : Type}

section Definitions

variable [Add R] [Mul R] [Zero R] [One R]

/-- The polynomial with the list as coefficients, the last one constant, at `base`. -/
def polyHash (base : R) (values : List R) : R := values.foldl (fun hash value => hash * base + value) 0

def power (base : R) (n : Nat) : R := (List.range n).foldl (fun power _ => power * base) 1

end Definitions

variable [CommRing R] {base : R}

theorem power_eq (n : Nat) : power base n = base ^ n := by
  induction n with
  | zero => simp [power]
  | succ n ih =>
    have hs : power base (n + 1) = power base n * base := by simp [power, List.range_succ]
    rw [hs, ih, pow_succ]

theorem polyHash_concat (values : List R) (value : R) :
    polyHash base (values ++ [value]) = polyHash base values * base + value := by
  simp [polyHash]

theorem foldl_hash (values : List R) (hash : R) :
    values.foldl (fun hash value => hash * base + value) hash =
      hash * base ^ values.length + polyHash base values := by
  induction values generalizing hash with
  | nil => simp [polyHash]
  | cons value values ih =>
    have hc : polyHash base (value :: values) =
        values.foldl (fun hash value => hash * base + value) (0 * base + value) := rfl
    rw [List.foldl_cons, ih, hc, ih, List.length_cons]
    ring

theorem polyHash_cons (value : R) (values : List R) :
    polyHash base (value :: values) = value * base ^ values.length + polyHash base values := by
  have hc : polyHash base (value :: values) =
      values.foldl (fun hash value => hash * base + value) (0 * base + value) := rfl
  rw [hc, foldl_hash]
  ring

theorem polyHash_roll (first last : R) (window : List R) : polyHash base (window ++ [last]) =
      polyHash base (first :: window) * base + last - first * power base (window.length + 1) := by
  rw [polyHash_concat, polyHash_cons, power_eq]
  ring

end LocalAi.Lib
