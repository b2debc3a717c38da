import Mathlib.Data.List.Perm.Basic

/-!
# Peeling computations that can fail

* `bind_eq_ok`: a sequence succeeds when its parts do.
* `bind_eq_error`: it fails where its first failing part does.
* `mapM_eq_ok`: a list succeeds when its elements do, one by one.
* `foldlM_eq_foldl`, `foldlM_flatMap`: a loop whose steps succeed, and one in another.
* `ensure`: a check that fails with a reason.
* `run_bind_eq_ok`, `run_mapM_eq_ok`: the same with a state that is passed along.
-/

open List

namespace LocalAi.Lib

variable {ε α β : Type}

variable {b : β} {f : α → Except ε β} {x : Except ε α} {xs : List α} {ys : List β}

theorem bind_eq_ok : x >>= f = .ok b ↔ ∃ a, x = .ok a ∧ f a = .ok b := by
  cases x with
  | error =>
    constructor
    · intro h
      cases h
    · rintro ⟨a, h, -⟩
      cases h
  | ok a =>
    constructor
    · intro h
      exact ⟨a, rfl, h⟩
    · rintro ⟨a', h, hf⟩
      cases h
      exact hf

theorem bind_eq_error {e : ε} :
    x >>= f = .error e ↔ x = .error e ∨ ∃ a, x = .ok a ∧ f a = .error e := by
  cases x with
  | error =>
    constructor
    · intro h
      cases h
      exact Or.inl rfl
    · rintro (h | ⟨a, h, -⟩)
      · cases h
        rfl
      · cases h
  | ok a =>
    constructor
    · intro h
      exact Or.inr ⟨a, rfl, h⟩
    · rintro (h | ⟨a', h, hf⟩)
      · cases h
      · cases h
        exact hf

theorem elim_eq_ok {o : Option α} {e : ε} {a : α} :
    o.elim (Except.error e) Except.ok = .ok a ↔ o = some a := by
  cases o with
  | none => simp
  | some => simp

theorem map_eq_ok {f : α → β} :
    x.map f = .ok b ↔ ∃ a, x = .ok a ∧ f a = b := by
  cases x <;> simp [Except.map]

theorem mapError_eq_ok {ε' : Type} {f : ε → ε'} {a : α} :
    x.mapError f = .ok a ↔ x = .ok a := by
  cases x <;> simp [Except.mapError]

theorem mapM_eq_ok : xs.mapM f = .ok ys ↔ List.Forall₂ (fun x y => f x = .ok y) xs ys := by
  induction xs generalizing ys with
  | nil =>
    rw [mapM_nil, forall₂_nil_left_iff]
    exact ⟨fun h => (Except.ok.inj h).symm, fun h => by rw [h]; rfl⟩
  | cons x xs ih =>
    rw [mapM_cons, bind_eq_ok, forall₂_cons_left_iff]
    refine exists_congr fun y => ?_
    rw [bind_eq_ok]
    constructor
    · rintro ⟨hx, ys', hxs, hys⟩
      exact ⟨ys', hx, ih.mp hxs, (Except.ok.inj hys).symm⟩
    · rintro ⟨ys', hx, hxs, rfl⟩
      exact ⟨hx, ys', ih.mpr hxs, rfl⟩

theorem mapError_eq_error {ε' : Type} {f : ε → ε'} {e : ε'} :
    x.mapError f = .error e ↔ ∃ e', x = .error e' ∧ f e' = e := by
  cases x <;> simp [Except.mapError]

theorem foldlM_eq_foldl {f : β → α → Except ε β} {g : β → α → β}
    (h : ∀ b, ∀ x ∈ xs, f b x = .ok (g b x)) (b : β) : xs.foldlM f b = .ok (xs.foldl g b) := by
  induction xs generalizing b with
  | nil => rfl
  | cons x xs ih =>
    rw [foldlM_cons, h b x mem_cons_self, foldl_cons]
    exact ih (fun b y hy => h b y (mem_cons_of_mem x hy)) (g b x)

theorem foldlM_flatMap {γ : Type} {f : β → γ → Except ε β} {g : α → List γ} (xs : List α) (b : β) :
    (xs.flatMap g).foldlM f b = xs.foldlM (fun b x => (g x).foldlM f b) b := by
  induction xs generalizing b with
  | nil => rfl
  | cons x xs ih =>
    rw [flatMap_cons, foldlM_append, foldlM_cons]
    exact bind_congr ih

theorem mapM_perm {xs' : List α} (hp : xs'.Perm xs)
    (h : xs.mapM f = .ok ys) : ∃ ys', xs'.mapM f = .ok ys' ∧ ys'.Perm ys := by
  obtain ⟨ys', hys', hp'⟩ := perm_comp_forall₂ hp (mapM_eq_ok.mp h)
  exact ⟨ys', mapM_eq_ok.mpr hys', hp'⟩

def ensure (holds : Bool) (error : ε) : Except ε Unit := if holds then .ok () else .error error

theorem ensure_eq_ok {holds : Bool} {error : ε} {u : Unit} :
    ensure holds error = .ok u ↔ holds = true := by
  cases holds <;> simp [ensure]

/-! ### With a state -/

variable {σ : Type}

theorem run_bind_eq_ok {x : StateT σ (Except ε) α} {f : α → StateT σ (Except ε) β} {s s' : σ} :
    (x >>= f).run s = .ok (b, s') ↔ ∃ a t, x.run s = .ok (a, t) ∧ (f a).run t = .ok (b, s') := by
  rw [StateT.run_bind, bind_eq_ok]
  exact ⟨fun ⟨⟨a, t⟩, hx, hf⟩ => ⟨a, t, hx, hf⟩, fun ⟨a, t, hx, hf⟩ => ⟨(a, t), hx, hf⟩⟩

theorem run_mapM_eq_ok {f : α → StateT σ (Except ε) β} {s s' : σ}
    (h : (xs.mapM f).run s = .ok (ys, s')) :
    List.Forall₂ (fun x y => ∃ t t', (f x).run t = .ok (y, t')) xs ys := by
  induction xs generalizing ys s with
  | nil =>
    rw [mapM_nil] at h
    cases h
    exact .nil
  | cons x xs ih =>
    rw [mapM_cons, run_bind_eq_ok] at h
    obtain ⟨y, t, hx, h⟩ := h
    obtain ⟨ys', t', hxs, h⟩ := run_bind_eq_ok.mp h
    cases h
    exact .cons ⟨s, t, hx⟩ (ih hxs)

end LocalAi.Lib
