import Mathlib.Data.List.Basic
import Mathlib.Data.List.Induction

/-!
# Streaming transducers

A transducer reads its input in pieces and writes its output in pieces, of any sizes, keeping
what it likes in its state. Its writer may refuse a write.

* `Transducer.Reads`: the states that reading an input leads to, and what was written.
* `Codec`: a transducer that computes a function of what it reads, however that is cut.
* `feed`: a list of pieces, read one after the other.
* `feed_reads`, `feed_append`: what it reads is what the pieces join to.
* `Codec.feed_isPrefix`: what was written is a prefix of what the function gives.
-/

open List

namespace LocalAi.Lib

/-- Reads `α`s and writes `β`s. -/
structure Transducer (α β ε : Type) where
  State : Type
  start : State
  /-- The pieces it writes for some input, and the next state or why the input is bad. -/
  push : State → List α → List (List β) × Except ε State
  /-- Where a read leaves it whose writes were refused after so many elements. -/
  refused : State → List α → Nat → State
  /-- The pieces it writes at the end of its input, and whether the input may end there. -/
  finish : State → List (List β) × Except ε Unit

namespace Transducer

variable {α β ε : Type} {t : Transducer α β ε}

inductive Reads (t : Transducer α β ε) : (x : List α) → (out : List β) → t.State → Prop
  | start : Reads t [] [] t.start
  | push {x data : List α} {out : List β} {s s' : t.State} {pieces : List (List β)} :
      Reads t x out s → data ≠ [] → t.push s data = (pieces, .ok s') →
      Reads t (x ++ data) (out ++ pieces.flatten) s'

/-- A read of some input; there is none to make of an empty one. -/
def read (t : Transducer α β ε) (s : t.State) (data : List α) :
    List (List β) × Except ε t.State :=
  if data = [] then ([], .ok s) else t.push s data

def feed (t : Transducer α β ε) (s : t.State) : List (List α) → List β × Except ε t.State
  | [] => ([], .ok s)
  | data :: rest =>
    match t.read s data with
    | (pieces, .error e) => (pieces.flatten, .error e)
    | (pieces, .ok s') => (pieces.flatten ++ (t.feed s' rest).1, (t.feed s' rest).2)

variable {s s' : t.State}

variable {out : List β}

theorem Reads.read {x data : List α} {pieces : List (List β)}
    (h : Reads t x out s) (hr : t.read s data = (pieces, .ok s')) :
    Reads t (x ++ data) (out ++ pieces.flatten) s' := by
  unfold Transducer.read at hr
  by_cases hd : data = []
  · rw [if_pos hd] at hr
    cases hr
    rw [hd, append_nil, flatten_nil, append_nil]
    exact h
  · rw [if_neg hd] at hr
    exact h.push hd hr

variable {chunks : List (List α)}

theorem Reads.feed {x : List α} {out more : List β} (h : Reads t x out s)
    (hf : t.feed s chunks = (more, .ok s')) : Reads t (x ++ chunks.flatten) (out ++ more) s' := by
  induction chunks generalizing x out more s with
  | nil =>
    cases hf
    rw [flatten_nil, append_nil, append_nil]
    exact h
  | cons data rest ih =>
    unfold Transducer.feed at hf
    rcases hr : t.read s data with ⟨pieces, _ | next⟩
    · rw [hr] at hf
      cases hf
    · rw [hr] at hf
      rw [Prod.mk.injEq] at hf
      obtain ⟨hm, hl⟩ := hf
      rw [← hm, flatten_cons, ← append_assoc, ← append_assoc]
      exact ih (h.read hr) (Prod.ext rfl hl)

theorem feed_reads {s : t.State} (h : t.feed t.start chunks = (out, .ok s)) :
    Reads t chunks.flatten out s :=
  Reads.start.feed h

theorem feed_append (h : t.feed s chunks = (out, .ok s')) (rest : List (List α)) :
    t.feed s (chunks ++ rest) = (out ++ (t.feed s' rest).1, (t.feed s' rest).2) := by
  induction chunks generalizing s out with
  | nil =>
    cases h
    rfl
  | cons data chunks ih =>
    rw [cons_append, feed]
    rw [feed] at h
    rcases hr : t.read s data with ⟨pieces, _ | next⟩
    · rw [hr] at h
      cases h
    · rw [hr, Prod.mk.injEq] at h
      obtain ⟨ho, hl⟩ := h
      dsimp only
      rw [ih (Prod.ext rfl hl), ← ho, append_assoc]

theorem feed_concat (h : t.feed s chunks = (out, .ok s')) (data : List α) :
    t.feed s (chunks ++ [data]) = (out ++ (t.read s' data).1.flatten, (t.read s' data).2) := by
  rw [feed_append h]
  have ho : t.feed s' [data] = ((t.read s' data).1.flatten, (t.read s' data).2) := by
    unfold feed
    rcases t.read s' data with ⟨pieces, _ | next⟩
    · rfl
    · show (pieces.flatten ++ [], Except.ok next) = _
      rw [append_nil]
  rw [ho]

theorem feed_isPrefix (t : Transducer α β ε) (s : t.State) (chunks rest : List (List α)) :
    (t.feed s chunks).1 <+: (t.feed s (chunks ++ rest)).1 := by
  induction chunks generalizing s with
  | nil => exact nil_prefix
  | cons data chunks ih =>
    rw [cons_append]
    unfold feed
    rcases t.read s data with ⟨pieces, _ | next⟩
    · exact prefix_rfl
    · exact prefix_append_right_inj _ |>.mpr (ih next)

theorem feed_error {s : t.State} {e : ε}
    (h : (t.feed s chunks).2 = .error e) (rest : List (List α)) :
    t.feed s (chunks ++ rest) = t.feed s chunks := by
  induction chunks generalizing s with
  | nil => cases h
  | cons data chunks ih =>
    rw [cons_append]
    unfold feed at h ⊢
    rcases hr : t.read s data with ⟨pieces, _ | next⟩
    · rfl
    · rw [hr] at h
      dsimp only
      rw [ih h]

end Transducer

structure Codec (α β ε : Type) extends Transducer α β ε where
  decoded : List α → List β
  /-- An input may end here. -/
  clean : List α → Bool
  grows : ∀ x y, decoded x <+: decoded (x ++ y)
  writes : ∀ {x data out s pieces next}, toTransducer.Reads x out s → data ≠ [] →
    push s data = (pieces, next) → out ++ pieces.flatten <+: decoded (x ++ data)
  finishes : ∀ {x out s}, toTransducer.Reads x out s →
    out ++ (finish s).1.flatten <+: decoded x ∧ ((finish s).2.isOk = clean x) ∧
      (clean x = true → out ++ (finish s).1.flatten = decoded x)

namespace Codec

variable {α β ε : Type} {c : Codec α β ε}

theorem read_isPrefix {x data : List α} {out : List β} {s : c.State} (h : c.Reads x out s) :
    out ++ (c.read s data).1.flatten <+: c.decoded (x ++ data) := by
  unfold Transducer.read
  by_cases hd : data = []
  · rw [if_pos hd, hd, append_nil]
    exact (prefix_append_right_inj out |>.mpr nil_prefix).trans (c.finishes h).1
  · rw [if_neg hd]
    exact c.writes h hd rfl

theorem feed_isPrefix (c : Codec α β ε) (chunks : List (List α)) :
    (c.feed c.start chunks).1 <+: c.decoded chunks.flatten := by
  induction chunks using reverseRecOn with
  | nil => exact nil_prefix
  | append_singleton chunks data ih =>
    rw [flatten_append, flatten_singleton]
    rcases hf : c.feed c.start chunks with ⟨out, e | s⟩
    · rw [Transducer.feed_error (congrArg Prod.snd hf)]
      exact ih.trans (c.grows _ _)
    · rw [Transducer.feed_concat hf]
      exact read_isPrefix (Transducer.feed_reads hf)

end Codec

end LocalAi.Lib
