import LocalAi.Lib.Except
import LocalAi.Lib.RollingHash
import Mathlib.Data.UInt

/-!
# Anchors of a token sequence

Every place where `min_match` tokens end is an anchor.  They are found by a rolling hash of these
tokens: a map holds the newest end of every hash, and from each end a link leads to the previous
one with the same hash.

* `Anchors.ends`: the ends of the anchors that equal one.
* `Anchors.Rolled`: the hash is that of the last tokens.
* `Anchors.Linked`: following the links visits the ends of a hash, newest first.
* `ends_eq`: what `ends` finds, whatever collides.
-/

open List

namespace LocalAi.Ngram

open LocalAi.Lib

abbrev Token := UInt32

inductive Panic
  | outOfBounds
  | endless
  | underflow
deriving DecidableEq

/-- `xs[start..stop]`. -/
def slice {α : Type} (xs : List α) (start stop : Nat) : Except Panic (List α) :=
  if start ≤ stop ∧ stop ≤ xs.length then .ok ((xs.take stop).drop start) else .error .outOfBounds

/-- `xs[i]`. -/
def index {α : Type} (xs : List α) (i : Nat) : Except Panic α :=
  xs[i]?.elim (.error .outOfBounds) .ok

/-- No earlier anchor with the same hash. -/
def noAnchor : Nat := 2 ^ 32 - 1

def hashBase : UInt64 := 0x9e3779b97f4a7c15

def tokenValue (token : Token) : UInt64 := token.toUInt64 + 1

/-- Spread a rolling hash over every bit. -/
def mix (value : UInt64) : UInt64 :=
  let value := (value ^^^ (value >>> 30)) * 0xbf58476d1ce4e5b9
  let value := (value ^^^ (value >>> 27)) * 0x94d049bb133111eb
  value ^^^ (value >>> 31)

structure Anchors where
  tokens : List Token
  minMatch : Nat
  /-- The newest end of a hash. -/
  newest : UInt64 → Option Nat
  /-- The previous end with the same hash as end `minMatch + index`. -/
  previous : List Nat
  /-- The rolling hash of the last `minMatch` tokens. -/
  hash : UInt64
  /-- What drops a token from the hash. -/
  dropFactor : UInt64

namespace Anchors

def unindexed (tokens : List Token) : Anchors := ⟨tokens, 2 ^ 64 - 1, fun _ => none, [], 0, 0⟩

@[simp] theorem unindexed_tokens (tokens : List Token) : (unindexed tokens).tokens = tokens := rfl

def push (a : Anchors) (token : Token) : Anchors :=
  let tokens := a.tokens ++ [token]
  if a.minMatch = 0 then { a with tokens }
  else
    let rolled := a.hash * hashBase + tokenValue token
    let hash :=
      if h : a.minMatch < tokens.length then
        rolled - tokenValue (tokens[tokens.length - 1 - a.minMatch]) * a.dropFactor
      else rolled
    if a.minMatch ≤ tokens.length then
      { a with
        tokens, hash
        newest := fun key => if key = mix hash then some (tokens.length % 2 ^ 32) else a.newest key
        previous := a.previous ++ [(a.newest (mix hash)).getD noAnchor] }
    else { a with tokens, hash }

def new (tokens : List Token) (minMatch : Nat) : Anchors :=
  tokens.foldl push ⟨[], minMatch, fun _ => none, [], 0, power hashBase minMatch⟩

def links (a : Anchors) : (fuel first : Nat) → Except Panic (List Nat)
  | 0, _ => .error .endless
  | fuel + 1, first =>
    if first = noAnchor then .ok []
    else if first < a.minMatch then .error .outOfBounds
    else do
      let previous ← index a.previous (first - a.minMatch)
      let rest ← links a fuel previous
      pure (first :: rest)

def equalTo (a : Anchors) (anchor : List Token) : List Nat → Except Panic (List Nat)
  | [] => .ok []
  | last :: rest => do
    let tokens ← if last < a.minMatch then .error .outOfBounds
      else slice a.tokens (last - a.minMatch) last
    let rest ← equalTo a anchor rest
    pure (if tokens = anchor then last :: rest else rest)

def ends (a : Anchors) (key : UInt64) (anchor : List Token) : Except Panic (List Nat) := do
  let ends ← a.links (a.tokens.length + 2) ((a.newest key).getD noAnchor)
  a.equalTo anchor ends

end Anchors

/-! ### The rolling hash -/

def lastTokens (n : Nat) (tokens : List Token) : List Token := tokens.drop (tokens.length - n)

def hashOf (tokens : List Token) : UInt64 := polyHash hashBase (tokens.map tokenValue)

variable {n : Nat} {tokens : List Token}

theorem lastTokens_take {stop : Nat} (h : stop ≤ tokens.length) :
    lastTokens n (tokens.take stop) = (tokens.take stop).drop (stop - n) := by
  unfold lastTokens
  rw [length_take, Nat.min_eq_left h]

theorem lastTokens_concat_lt {token : Token} (h : tokens.length < n) :
    lastTokens n (tokens ++ [token]) = lastTokens n tokens ++ [token] := by
  unfold lastTokens
  rw [length_append, length_singleton, Nat.sub_eq_zero_of_le h,
    Nat.sub_eq_zero_of_le (Nat.le_of_lt h), drop_zero, drop_zero]

theorem lastTokens_concat (token : Token) (hp : 0 < n)
    (h : n ≤ tokens.length) : ∃ rest, rest.length + 1 = n ∧
      lastTokens n tokens = tokens[tokens.length - n] :: rest ∧
      lastTokens n (tokens ++ [token]) = rest ++ [token] := by
  refine ⟨tokens.drop (tokens.length - n + 1), ?_, ?_, ?_⟩
  · rw [length_drop]
    omega
  · exact drop_eq_getElem_cons (by omega)
  · unfold lastTokens
    have hs : (tokens ++ [token]).length - n = tokens.length - n + 1 := by
      rw [length_append, length_singleton]
      omega
    rw [hs, drop_append_of_le_length (by omega)]

section Hash

open scoped UInt64.CommRing

theorem hashOf_concat (tokens : List Token) (token : Token) :
    hashOf (tokens ++ [token]) = hashOf tokens * hashBase + tokenValue token := by
  unfold hashOf
  rw [map_append]
  exact polyHash_concat _ _

theorem hashOf_roll (first last : Token) (window : List Token) :
    hashOf (window ++ [last]) = hashOf (first :: window) * hashBase + tokenValue last -
      tokenValue first * power hashBase (window.length + 1) := by
  unfold hashOf
  rw [map_append, ← @length_map _ _ window tokenValue]
  exact polyHash_roll _ _ _

end Hash

namespace Anchors

variable {a : Anchors}

/-- The hash is that of the last tokens. -/
structure Rolled (a : Anchors) : Prop where
  factor : a.dropFactor = power hashBase a.minMatch
  hash : a.hash = hashOf (lastTokens a.minMatch a.tokens)

theorem push_tokens (a : Anchors) (token : Token) : (a.push token).tokens = a.tokens ++ [token] := by
  unfold push
  dsimp only
  split
  · rfl
  · split <;> rfl

theorem push_minMatch (a : Anchors) (token : Token) : (a.push token).minMatch = a.minMatch := by
  unfold push
  dsimp only
  split
  · rfl
  · split <;> rfl

theorem Rolled.step (h : a.Rolled) (hp : 0 < a.minMatch) (token : Token) :
    (if h : a.minMatch < (a.tokens ++ [token]).length then
        a.hash * hashBase + tokenValue token - tokenValue ((a.tokens ++ [token])[
          (a.tokens ++ [token]).length - 1 - a.minMatch]) * a.dropFactor
      else a.hash * hashBase + tokenValue token) =
      hashOf (lastTokens a.minMatch (a.tokens ++ [token])) := by
  have hl : (a.tokens ++ [token]).length = a.tokens.length + 1 := by simp
  split
  · next hf =>
    rw [hl] at hf
    obtain ⟨rest, hr, hb, haft⟩ := lastTokens_concat token hp (Nat.le_of_lt_succ hf)
    have hd : (a.tokens ++ [token])[(a.tokens ++ [token]).length - 1 - a.minMatch] =
        a.tokens[a.tokens.length - a.minMatch] := by
      rw [getElem_append_left (by simp; omega)]
      simp
    rw [hd, haft, hashOf_roll a.tokens[a.tokens.length - a.minMatch], ← hb, ← h.hash, h.factor, hr]
  · next hs =>
    rw [hl] at hs
    rw [lastTokens_concat_lt (by omega), hashOf_concat, h.hash]

theorem Rolled.push (h : a.Rolled) (hp : 0 < a.minMatch) (token : Token) :
    (a.push token).Rolled := by
  have hs := h.step hp token
  refine ⟨?_, ?_⟩
  · rw [push_minMatch, ← h.factor]
    unfold Anchors.push
    rw [if_neg (by omega)]
    dsimp only
    split <;> rfl
  · rw [push_minMatch, push_tokens, ← hs]
    unfold Anchors.push
    rw [if_neg (by omega)]
    dsimp only
    split <;> rfl

/-! ### Links -/

/-- The hash key of the anchor that ends at `stop`. -/
def keyAt (n : Nat) (tokens : List Token) (stop : Nat) : UInt64 :=
  mix (hashOf (lastTokens n (tokens.take stop)))

/-- The ends of the anchors whose key is `key`, newest first. -/
def endsOf (n : Nat) (tokens : List Token) (key : UInt64) : List Nat :=
  ((List.range (tokens.length + 1)).filter fun stop =>
    decide (n ≤ stop) && decide (keyAt n tokens stop = key)).reverse

/-- The links visit the ends of every hash. -/
structure Linked (a : Anchors) : Prop where
  length : a.previous.length = a.tokens.length + 1 - a.minMatch
  links : ∀ key fuel, a.tokens.length + 1 < fuel →
    a.links fuel ((a.newest key).getD noAnchor) = .ok (endsOf a.minMatch a.tokens key)

theorem endsOf_concat (n : Nat) (tokens : List Token) (token : Token) (key : UInt64) :
    endsOf n (tokens ++ [token]) key =
      (if n ≤ tokens.length + 1 ∧ mix (hashOf (lastTokens n (tokens ++ [token]))) = key then
        [tokens.length + 1] else []) ++ endsOf n tokens key := by
  have hold : ∀ stop ∈ range (tokens.length + 1),
      keyAt n (tokens ++ [token]) stop = keyAt n tokens stop := by
    intro stop hs
    have hle := mem_range.mp hs
    unfold keyAt
    rw [take_append_of_le_length (by omega)]
  have hf : (range (tokens.length + 1)).filter (fun stop =>
      decide (n ≤ stop) && decide (keyAt n (tokens ++ [token]) stop = key)) =
      (range (tokens.length + 1)).filter fun stop =>
        decide (n ≤ stop) && decide (keyAt n tokens stop = key) := by
    refine filter_congr fun stop hs => ?_
    rw [hold stop hs]
  have hn : keyAt n (tokens ++ [token]) (tokens.length + 1) =
      mix (hashOf (lastTokens n (tokens ++ [token]))) := by
    unfold keyAt
    rw [take_of_length_le (by simp)]
  unfold endsOf
  rw [length_append, length_singleton, range_succ, filter_append,
    reverse_append, hf, filter_singleton, hn]
  by_cases hk : n ≤ tokens.length + 1 ∧ mix (hashOf (lastTokens n (tokens ++ [token]))) = key
  · simp [hk]
  · have hb : (decide (n ≤ tokens.length + 1) &&
        decide (mix (hashOf (lastTokens n (tokens ++ [token]))) = key)) = false := by
      rw [Bool.eq_false_iff]
      simpa only [ne_eq, Bool.and_eq_true, decide_eq_true_eq] using hk
    rw [if_neg hk, hb]
    rfl

theorem links_append (b : Anchors) {more : List Nat} (hm : b.minMatch = a.minMatch)
    (hp : b.previous = a.previous ++ more) {fuel first : Nat} {ends : List Nat}
    (h : a.links fuel first = .ok ends) : b.links fuel first = .ok ends := by
  induction fuel generalizing first ends with
  | zero => cases h
  | succ fuel ih =>
    rw [links] at h ⊢
    split at h
    · next hn => rwa [if_pos hn]
    · next hs =>
      split at h
      · cases h
      · next hl =>
        obtain ⟨previous, hi, h⟩ := bind_eq_ok.mp h
        obtain ⟨rest, hr, h⟩ := bind_eq_ok.mp h
        rw [if_neg hs, hm, if_neg hl]
        refine bind_eq_ok.mpr ⟨previous, ?_, bind_eq_ok.mpr ⟨rest, ih hr, h⟩⟩
        have hg := elim_eq_ok.mp hi
        refine elim_eq_ok.mpr ?_
        rw [hp, getElem?_append_left (List.getElem?_eq_some_iff.mp hg).1]
        exact hg

theorem Linked.push (h : a.Linked) (hr : a.Rolled) (hpos : 0 < a.minMatch) (token : Token)
    (hsh : a.tokens.length + 1 < 2 ^ 32 - 1) : (a.push token).Linked := by
  have hl : (a.tokens ++ [token]).length = a.tokens.length + 1 := by simp
  have hst := hr.step hpos token
  set hash := hashOf (lastTokens a.minMatch (a.tokens ++ [token]))
  have hpu : a.push token = if a.minMatch ≤ a.tokens.length + 1 then
      { a with
        tokens := a.tokens ++ [token], hash
        newest := fun key => if key = mix hash then some ((a.tokens.length + 1) % 2 ^ 32)
          else a.newest key
        previous := a.previous ++ [(a.newest (mix hash)).getD noAnchor] }
      else { a with tokens := a.tokens ++ [token], hash } := by
    unfold Anchors.push
    rw [if_neg (by omega)]
    dsimp only
    rw [hst, hl]
  have hm := push_minMatch a token
  have ht := push_tokens a token
  by_cases hf : a.minMatch ≤ a.tokens.length + 1
  · have hp : (a.push token).previous =
        a.previous ++ [(a.newest (mix hash)).getD noAnchor] := by
      rw [hpu, if_pos hf]
    have hn : ∀ key, (a.push token).newest key =
        if key = mix hash then some ((a.tokens.length + 1) % 2 ^ 32) else a.newest key := by
      intro key
      rw [hpu, if_pos hf]
    refine ⟨?_, fun key fuel hfu => ?_⟩
    · rw [hp, ht, hm, length_append, length_singleton, h.length, hl]
      omega
    · rw [ht, hl] at hfu
      have hk : ∀ key fuel, a.tokens.length + 1 < fuel → (a.push token).links fuel
          ((a.newest key).getD noAnchor) = .ok (endsOf a.minMatch a.tokens key) :=
        fun key fuel hfu => links_append _ hm hp (h.links key fuel hfu)
      rw [hm, ht, endsOf_concat, hn]
      by_cases hkey : key = mix hash
      · subst hkey
        obtain ⟨fuel, rfl⟩ : ∃ n, fuel = n + 1 := ⟨fuel - 1, by omega⟩
        have he : (a.tokens.length + 1) % 2 ^ 32 = a.tokens.length + 1 :=
          Nat.mod_eq_of_lt (by omega)
        have hs : a.tokens.length + 1 ≠ noAnchor := by
          unfold noAnchor
          omega
        rw [if_pos rfl, Option.getD_some, he, Anchors.links, if_neg hs, hm,
          if_neg (Nat.not_lt.mpr hf), if_pos ⟨hf, rfl⟩]
        refine bind_eq_ok.mpr ⟨(a.newest (mix hash)).getD noAnchor, ?_, ?_⟩
        · refine elim_eq_ok.mpr ?_
          rw [hp, getElem?_append_right (by rw [h.length]), h.length, Nat.sub_self]
          rfl
        · exact bind_eq_ok.mpr ⟨_, hk (mix hash) fuel (by omega), rfl⟩
      · rw [if_neg hkey, if_neg fun hb => hkey hb.2.symm, nil_append]
        exact hk key fuel (by omega)
  · have hp : (a.push token).previous = a.previous ++ [] := by
      rw [hpu, if_neg hf, append_nil]
    have hn : (a.push token).newest = a.newest := by
      rw [hpu, if_neg hf]
    refine ⟨?_, fun key fuel hfu => ?_⟩
    · rw [hp, ht, hm, append_nil, h.length, hl]
      omega
    · rw [ht, hl] at hfu
      rw [hm, ht, endsOf_concat, if_neg fun hb => hf hb.1, nil_append, hn]
      exact links_append _ hm hp (h.links key fuel (by omega))

/-! ### Building an index -/

theorem new_concat (tokens : List Token) (token : Token) (minMatch : Nat) :
    new (tokens ++ [token]) minMatch = (new tokens minMatch).push token := by
  unfold new
  rw [foldl_append]
  rfl

theorem new_tokens (tokens : List Token) (minMatch : Nat) :
    (new tokens minMatch).tokens = tokens := by
  induction tokens using reverseRecOn with
  | nil => rfl
  | append_singleton tokens token ih => rw [new_concat, push_tokens, ih]

theorem new_minMatch (tokens : List Token) (minMatch : Nat) :
    (new tokens minMatch).minMatch = minMatch := by
  induction tokens using reverseRecOn with
  | nil => rfl
  | append_singleton tokens token ih => rw [new_concat, push_minMatch, ih]

variable {minMatch : Nat} {anchor : List Token}

/-- **The rolling hash** is always the polynomial hash of the last tokens. -/
theorem new_rolled (tokens : List Token) (hp : 0 < minMatch) : (new tokens minMatch).Rolled := by
  induction tokens using reverseRecOn with
  | nil =>
    refine ⟨rfl, ?_⟩
    show (0 : UInt64) = hashOf (drop (0 - minMatch) [])
    rw [drop_nil]
    rfl
  | append_singleton tokens token ih =>
    rw [new_concat]
    exact ih.push (by rwa [new_minMatch]) token

theorem endsOf_nil (hp : 0 < minMatch) (key : UInt64) : endsOf minMatch [] key = [] := by
  have hz : ¬ minMatch ≤ 0 := by omega
  simp [endsOf, hz]

theorem new_linked (hp : 0 < minMatch)
    (hs : tokens.length < 2 ^ 32 - 1) : (new tokens minMatch).Linked := by
  induction tokens using reverseRecOn with
  | nil =>
    refine ⟨(Nat.sub_eq_zero_of_le hp).symm, fun key fuel hf => ?_⟩
    obtain ⟨fuel, rfl⟩ : ∃ n, fuel = n + 1 := ⟨fuel - 1, by omega⟩
    show (new [] minMatch).links (fuel + 1) noAnchor = .ok (endsOf minMatch [] key)
    rw [links, if_pos rfl, endsOf_nil hp]
  | append_singleton tokens token ih =>
    rw [length_append, length_singleton] at hs
    rw [new_concat]
    refine (ih (by omega)).push (new_rolled tokens hp) (by rwa [new_minMatch]) token ?_
    rwa [new_tokens]

theorem unindexed_linked (hsh : tokens.length < 2 ^ 32 - 1) : (unindexed tokens).Linked := by
  refine ⟨?_, fun key fuel hf => ?_⟩
  · show 0 = tokens.length + 1 - (2 ^ 64 - 1)
    omega
  · obtain ⟨fuel, rfl⟩ : ∃ n, fuel = n + 1 := ⟨fuel - 1, by omega⟩
    show (unindexed tokens).links (fuel + 1) noAnchor = .ok (endsOf (2 ^ 64 - 1) tokens key)
    have hn : endsOf (2 ^ 64 - 1) tokens key = [] := by
      unfold endsOf
      rw [reverse_eq_nil_iff, filter_eq_nil_iff]
      intro stop hs
      have hlt := mem_range.mp hs
      have hl : ¬ 2 ^ 64 - 1 ≤ stop := by omega
      simp only [decide_eq_false hl, Bool.false_and, Bool.false_eq_true, not_false_eq_true]
    rw [links, if_pos rfl, hn]

/-! ### Equal anchors -/

/-- Where `anchor` ends in `tokens`, newest first. -/
def places (tokens anchor : List Token) : List Nat :=
  ((List.range (tokens.length + 1)).filter fun stop =>
    decide (anchor.length ≤ stop) &&
      decide (lastTokens anchor.length (tokens.take stop) = anchor)).reverse

theorem mem_places {stop : Nat} : stop ∈ places tokens anchor ↔
    stop ≤ tokens.length ∧ anchor.length ≤ stop ∧
      lastTokens anchor.length (tokens.take stop) = anchor := by
  simp only [places, List.mem_reverse, List.mem_filter, List.mem_range, Bool.and_eq_true,
    decide_eq_true_eq, Nat.lt_add_one_iff]

theorem equalTo_eq {ends : List Nat}
    (h : ∀ stop ∈ ends, a.minMatch ≤ stop ∧ stop ≤ a.tokens.length) :
    a.equalTo anchor ends = .ok (ends.filter fun stop =>
      decide (lastTokens a.minMatch (a.tokens.take stop) = anchor)) := by
  induction ends with
  | nil => rfl
  | cons last rest ih =>
    rw [forall_mem_cons] at h
    obtain ⟨⟨hl, hh⟩, hr⟩ := h
    have hs : slice a.tokens (last - a.minMatch) last =
        .ok (lastTokens a.minMatch (a.tokens.take last)) := by
      unfold slice
      rw [if_pos ⟨Nat.sub_le _ _, hh⟩, lastTokens_take hh]
    rw [equalTo, if_neg (Nat.not_lt.mpr hl), hs]
    refine bind_eq_ok.mpr ⟨_, rfl, bind_eq_ok.mpr ⟨_, ih hr, ?_⟩⟩
    by_cases heq : lastTokens a.minMatch (a.tokens.take last) = anchor
    · rw [if_pos heq, filter_cons_of_pos (by simpa using heq)]
      rfl
    · rw [if_neg heq, filter_cons_of_neg (by simpa using heq)]
      rfl

/-- **Collisions do not matter**: `ends` finds the places of the anchor, whatever shares its key. -/
theorem ends_eq (h : a.Linked) (hl : anchor.length = a.minMatch) :
    a.ends (mix (hashOf anchor)) anchor = .ok (places a.tokens anchor) := by
  have he : ∀ stop ∈ endsOf a.minMatch a.tokens (mix (hashOf anchor)),
      a.minMatch ≤ stop ∧ stop ≤ a.tokens.length := by
    intro stop hs
    unfold endsOf at hs
    rw [mem_reverse, mem_filter, mem_range, Bool.and_eq_true, decide_eq_true_eq] at hs
    exact ⟨hs.2.1, by omega⟩
  refine bind_eq_ok.mpr ⟨_, h.links _ _ (by omega), ?_⟩
  rw [equalTo_eq he]
  unfold endsOf places
  rw [← hl, filter_reverse, filter_filter]
  congr 2
  refine filter_congr fun stop _ => ?_
  by_cases heq : lastTokens anchor.length (a.tokens.take stop) = anchor
  · simp [keyAt, heq]
  · simp [heq]

end Anchors

end LocalAi.Ngram
