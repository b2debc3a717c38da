import Mathlib.Data.List.Basic

/-!
# Grammars with named rules

Right-hand sides over terminals and named rules, and what they derive: the list
of the terminals used, each with its text.

* `derives_seq`, `derives_alt`, ...: what each form derives.
* `derives_sequence_cons`: a sequence derives its parts in order.
-/

namespace LocalAi.Lib

variable {N T α : Type}

inductive Rhs (N T : Type) where
  | term (terminal : T)
  | rule (name : N)
  | empty
  | seq (first second : Rhs N T)
  | fail
  | alt (left right : Rhs N T)
  | opt (inner : Rhs N T)
  | star (inner : Rhs N T)

def Rhs.sequence (parts : List (Rhs N T)) : Rhs N T := parts.foldr .seq .empty

def Rhs.oneOf (choices : List (Rhs N T)) : Rhs N T := choices.foldr .alt .fail

inductive Derives (rules : N → Rhs N T) (lang : T → List α → Prop) :
    Rhs N T → List (T × List α) → Prop
  | term {terminal : T} {text : List α} (h : lang terminal text) :
      Derives rules lang (.term terminal) [(terminal, text)]
  | rule {name : N} {leaves : List (T × List α)} (h : Derives rules lang (rules name) leaves) :
      Derives rules lang (.rule name) leaves
  | empty : Derives rules lang .empty []
  | seq {first second : Rhs N T} {front back : List (T × List α)}
      (hfirst : Derives rules lang first front) (hsecond : Derives rules lang second back) :
      Derives rules lang (.seq first second) (front ++ back)
  | left {left right : Rhs N T} {leaves : List (T × List α)} (h : Derives rules lang left leaves) :
      Derives rules lang (.alt left right) leaves
  | right {left right : Rhs N T} {leaves : List (T × List α)} (h : Derives rules lang right leaves) :
      Derives rules lang (.alt left right) leaves
  | none {inner : Rhs N T} : Derives rules lang (.opt inner) []
  | some {inner : Rhs N T} {leaves : List (T × List α)} (h : Derives rules lang inner leaves) :
      Derives rules lang (.opt inner) leaves
  | done {inner : Rhs N T} : Derives rules lang (.star inner) []
  | more {inner : Rhs N T} {front back : List (T × List α)} (hfirst : Derives rules lang inner front)
      (hrest : Derives rules lang (.star inner) back) :
      Derives rules lang (.star inner) (front ++ back)

variable {rules : N → Rhs N T} {lang : T → List α → Prop} {leaves : List (T × List α)}

theorem derives_term {terminal : T} :
    Derives rules lang (.term terminal) leaves ↔ ∃ text, lang terminal text ∧
      leaves = [(terminal, text)] := by
  constructor
  · rintro ⟨h⟩
    exact ⟨_, h, rfl⟩
  · rintro ⟨text, h, rfl⟩
    exact .term h

theorem derives_rule {name : N} :
    Derives rules lang (.rule name) leaves ↔ Derives rules lang (rules name) leaves := by
  constructor
  · rintro ⟨h⟩
    assumption
  · exact .rule

theorem derives_empty : Derives rules lang .empty leaves ↔ leaves = [] := by
  constructor
  · rintro ⟨⟩
    rfl
  · rintro rfl
    exact .empty

theorem derives_seq {first second : Rhs N T} :
    Derives rules lang (.seq first second) leaves ↔ ∃ front back,
      Derives rules lang first front ∧ Derives rules lang second back ∧ leaves = front ++ back := by
  constructor
  · intro h
    cases h with
    | seq hf hs => exact ⟨_, _, hf, hs, rfl⟩
  · rintro ⟨front, back, hf, hs, rfl⟩
    exact .seq hf hs

theorem derives_alt {left right : Rhs N T} : Derives rules lang (.alt left right) leaves ↔
      Derives rules lang left leaves ∨ Derives rules lang right leaves := by
  constructor
  · intro h
    cases h with
    | left h => exact .inl h
    | right h => exact .inr h
  · rintro (h | h)
    · exact .left h
    · exact .right h

theorem derives_opt {inner : Rhs N T} :
    Derives rules lang (.opt inner) leaves ↔ leaves = [] ∨ Derives rules lang inner leaves := by
  constructor
  · intro h
    cases h with
    | none => exact .inl rfl
    | some h => exact .inr h
  · rintro (rfl | h)
    · exact .none
    · exact .some h

theorem derives_star {inner : Rhs N T} :
    Derives rules lang (.star inner) leaves ↔ ∃ parts : List (List (T × List α)),
      (∀ part ∈ parts, Derives rules lang inner part) ∧ leaves = parts.flatten := by
  constructor
  · intro h
    generalize hs : Rhs.star inner = rhs at h
    induction h with
    | done => exact ⟨[], by simp, rfl⟩
    | @more _ front back hf _ _ ih =>
      cases hs
      obtain ⟨parts, hp, rfl⟩ := ih rfl
      refine ⟨front :: parts, fun part hpa => ?_, rfl⟩
      rcases List.mem_cons.mp hpa with rfl | hm
      · exact hf
      · exact hp part hm
    | _ => cases hs
  · rintro ⟨parts, hp, rfl⟩
    induction parts with
    | nil => exact .done
    | cons part parts ih =>
      exact .more (hp part List.mem_cons_self)
        (ih fun other ho => hp other (List.mem_cons_of_mem _ ho))

theorem derives_sequence_nil : Derives rules lang (Rhs.sequence []) leaves ↔ leaves = [] :=
  derives_empty

theorem derives_sequence_cons {first : Rhs N T} {parts : List (Rhs N T)} :
    Derives rules lang (Rhs.sequence (first :: parts)) leaves ↔ ∃ front back,
      Derives rules lang first front ∧ Derives rules lang (Rhs.sequence parts) back ∧
        leaves = front ++ back :=
  derives_seq

theorem derives_oneOf {choices : List (Rhs N T)} : Derives rules lang (Rhs.oneOf choices) leaves ↔
      ∃ choice ∈ choices, Derives rules lang choice leaves := by
  induction choices with
  | nil =>
    constructor
    · rintro ⟨⟩
    · rintro ⟨_, h, _⟩
      cases h
  | cons choice choices ih =>
    have hc : Rhs.oneOf (choice :: choices) = .alt choice (Rhs.oneOf choices) := rfl
    rw [hc, derives_alt, ih]
    simp

end LocalAi.Lib
