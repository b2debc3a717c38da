import LocalAi.History.Messages

/-!
# Turns and the pairing of calls

What the messages of a list of entries are, turn by turn, and what the engine's check says of
the calls and outputs among the entries.

* `rest`: the messages of entries that continue a turn.  `rest_of_not_joins`: an entry that
  does not join the turn before it starts anew.
* `Pairs.append`, `Pairs.weaken`: the check of consecutive messages, and of the later ones by
  themselves.
* `open_next`: an unanswered call is followed by an output or by another call of its turn.
* `Pairs.calls`: the ids of calls are pairwise different and each is answered.
-/

open List

namespace LocalAi.History

open Lib (ensure ensure_eq_ok bind_eq_ok)
open Tools (Env ToolSet)

variable {D : Type}

/-! ### Turns -/

structure Turn.Ok (t : Turn D) : Prop where
  answers : t.answers.length ≤ t.calls.length
  tools : ∀ m ∈ t.answers, m.role = .tool
  calls : ∀ m ∈ t.answers, m.calls = []

theorem Turn.Ok.empty : (Turn.empty : Turn D).Ok :=
  ⟨le_rfl, nofun, nofun⟩

variable {t : Turn D} {e : Entry D}

theorem Turn.isEmpty_iff (hok : t.Ok) : t.isEmpty = true ↔ t = .empty := by
  obtain ⟨reasoning, content, calls, answers⟩ := t
  simp only [Turn.isEmpty, Turn.empty, Bool.and_eq_true, Option.isNone_iff_eq_none,
    List.isEmpty_iff, Turn.mk.injEq]
  constructor
  · rintro ⟨⟨hr, hc⟩, hca⟩
    have hl := hok.answers
    simp only [hca, List.length_nil] at hl
    exact ⟨hr, hc, hca, List.eq_nil_of_length_eq_zero (by omega)⟩
  · rintro ⟨hr, hc, hca, -⟩
    exact ⟨⟨hr, hc⟩, hca⟩

theorem flush_empty : flush (Turn.empty : Turn D) = [] := rfl

theorem State.flush_eq (hok : t.Ok) (ms : List (Message D)) :
    State.flush ⟨t, ms⟩ = ⟨.empty, ms ++ History.flush t⟩ := by
  rw [State.flush]
  split
  · next h =>
    rw [(Turn.isEmpty_iff hok).mp h, flush_empty, append_nil]
  · rfl

/-- Whether the entry goes into the turn before it. -/
def joins (t : Turn D) : Entry D → Bool
  | .call _ => true
  | .answered _ _ => true
  | .message .assistant _ => t.content.isNone && t.calls.isEmpty
  | _ => false

def next (t : Turn D) (e : Entry D) : State D := State.apply ⟨t, []⟩ e

theorem apply_eq (hok : t.Ok) (ms : List (Message D)) (e : Entry D) :
    State.apply ⟨t, ms⟩ e = ⟨(next t e).turn, ms ++ (next t e).messages⟩ := by
  cases e with
  | message role =>
    cases role with
    | assistant =>
      simp only [next, State.apply]
      split
      · simp [State.flush_eq hok]
      · simp
    | _ => simp [next, State.apply, State.flush_eq hok, State.push]
  | reasoning => simp [next, State.apply, State.flush_eq hok]
  | call => simp [next, State.apply]
  | output => simp [next, State.apply, State.flush_eq hok, State.push]
  | answered => simp [next, State.apply]

theorem next_of_not_joins (hok : t.Ok) (h : joins t e = false) :
    next t e = ⟨(next .empty e).turn, flush t ++ (next .empty e).messages⟩ := by
  cases e with
  | message role =>
    cases role with
    | assistant =>
      have he : (t.content.isSome || ! t.calls.isEmpty) = true := by
        simp only [joins] at h
        cases hc : t.content <;> cases hca : t.calls.isEmpty <;> simp_all
      simp only [next, State.apply, he, if_true, State.flush_eq hok]
      simp [Turn.empty]
    | _ => simp [next, State.apply, State.flush_eq hok, State.flush_eq Turn.Ok.empty, State.push,
        flush_empty]
  | reasoning =>
    simp [next, State.apply, State.flush_eq hok, State.flush_eq Turn.Ok.empty, flush_empty]
  | call => cases h
  | output =>
    simp [next, State.apply, State.flush_eq hok, State.flush_eq Turn.Ok.empty, State.push,
      flush_empty]
  | answered => cases h

theorem next_ok (hok : t.Ok) (e : Entry D) : (next t e).turn.Ok := by
  have he := Turn.Ok.empty (D := D)
  cases e with
  | message role =>
    cases role with
    | assistant =>
      simp only [next, State.apply]
      split
      · rw [State.flush_eq hok]
        exact ⟨he.answers, he.tools, he.calls⟩
      · exact ⟨hok.answers, hok.tools, hok.calls⟩
    | _ => simpa [next, State.apply, State.flush_eq hok, State.push] using he
  | reasoning =>
    simp only [next, State.apply, State.flush_eq hok]
    exact ⟨he.answers, he.tools, he.calls⟩
  | call =>
    refine ⟨?_, hok.tools, hok.calls⟩
    have := hok.answers
    simp only [next, State.apply, length_append]
    omega
  | output => simpa [next, State.apply, State.flush_eq hok, State.push] using he
  | answered =>
    refine ⟨?_, ?_, ?_⟩
    · have := hok.answers
      simp only [next, State.apply, length_append, length_singleton]
      omega
    · intro m hm
      simp only [next, State.apply, mem_append, mem_singleton] at hm
      rcases hm with hm | rfl
      · exact hok.tools m hm
      · rfl
    · intro m hm
      simp only [next, State.apply, mem_append, mem_singleton] at hm
      rcases hm with hm | rfl
      · exact hok.calls m hm
      · rfl

def rest : Turn D → List (Entry D) → List (Message D)
  | t, [] => flush t
  | t, e :: es => (next t e).messages ++ rest (next t e).turn es

theorem foldl_apply (hok : t.Ok) (ms : List (Message D)) (es : List (Entry D)) :
    (es.foldl State.apply ⟨t, ms⟩).messages ++ flush (es.foldl State.apply ⟨t, ms⟩).turn =
      ms ++ rest t es := by
  induction es generalizing t ms with
  | nil => rfl
  | cons e es ih =>
    rw [foldl_cons, apply_eq hok, ih (next_ok hok e), rest, append_assoc]

variable {es : List (Entry D)}

theorem rest_of_not_joins (hok : t.Ok) (h : joins t e = false) :
    rest t (e :: es) = flush t ++ rest .empty (e :: es) := by
  rw [rest, next_of_not_joins hok h, rest, append_assoc]

def after (es : List (Entry D)) : State D := es.foldl State.apply ⟨.empty, []⟩

theorem after_ok (es : List (Entry D)) : (after es).turn.Ok := by
  induction es using reverseRecOn with
  | nil => exact Turn.Ok.empty
  | append_singleton es e ih =>
    rw [after, foldl_append]
    show (State.apply ⟨(after es).turn, (after es).messages⟩ e).turn.Ok
    rw [apply_eq ih]
    exact next_ok ih e

theorem after_snoc (es : List (Entry D)) (e : Entry D) :
    after (es ++ [e]) = ⟨(next (after es).turn e).turn,
      (after es).messages ++ (next (after es).turn e).messages⟩ := by
  rw [after, foldl_append]
  exact apply_eq (after_ok es) _ e

theorem rest_append (es more : List (Entry D)) :
    rest .empty (es ++ more) = (after es).messages ++ rest (after es).turn more := by
  have h := foldl_apply (Turn.Ok.empty (D := D)) [] (es ++ more)
  rw [nil_append] at h
  rw [← h, foldl_append]
  exact foldl_apply (after_ok es) _ more

theorem inputMessages_eq {env : Env} {media : Media D} {items : List Json}
    (h : items.mapM (entry env media) = .ok es) :
    inputMessages env media items = .ok (rest .empty es) := by
  have hf := foldl_apply (Turn.Ok.empty (D := D)) [] es
  rw [nil_append] at hf
  rw [inputMessages, h, ← hf]
  rfl

/-! ### The turn after an entry -/

def Entry.isCall : Entry D → Bool
  | .call _ => true
  | .answered _ _ => true
  | _ => false

def Entry.isOutput : Entry D → Bool
  | .output _ _ => true
  | _ => false

theorem next_calls_of_call (h : e.isCall = true) : (next t e).turn.calls ≠ [] := by
  cases e with
  | call => simp [next, State.apply]
  | answered => simp [next, State.apply]
  | _ => cases h

theorem next_calls_of_not_call (hok : t.Ok) (h : e.isCall = false) :
    (next t e).turn.calls = [] := by
  cases e with
  | message role =>
    cases role with
    | assistant =>
      simp only [next, State.apply]
      split
      · rw [State.flush_eq hok]
        rfl
      · next hj =>
        simp only [Bool.or_eq_true, not_or, Bool.not_eq_true', Bool.not_eq_false] at hj
        exact isEmpty_iff.mp hj.2
    | _ => simp [next, State.apply, State.flush_eq hok, State.push, Turn.empty]
  | reasoning => simp [next, State.apply, State.flush_eq hok, Turn.empty]
  | output => simp [next, State.apply, State.flush_eq hok, State.push, Turn.empty]
  | call => cases h
  | answered => cases h

theorem next_empty (hok : t.Ok) : (next t e).turn = .empty ↔
      (∃ role parts, e = .message role parts ∧ role ≠ .assistant) ∨ e.isOutput = true := by
  cases e with
  | message role parts =>
    cases role with
    | assistant =>
      have hc : (next t (.message .assistant parts)).turn.content = some parts.text := by
        simp [next, State.apply]
      constructor
      · intro h
        rw [h] at hc
        cases hc
      · rintro (⟨role, parts, heq, hne⟩ | h)
        · cases heq
          exact absurd rfl hne
        · cases h
    | _ => simp [next, State.apply, State.flush_eq hok, State.push]
  | reasoning => simp [next, State.apply, State.flush_eq hok, Turn.empty, Entry.isOutput]
  | output => simp [next, State.apply, State.flush_eq hok, State.push, Entry.isOutput]
  | call => simp [next, State.apply, Turn.empty, Entry.isOutput]
  | answered => simp [next, State.apply, Turn.empty, Entry.isOutput]

theorem next_reasoning (hok : t.Ok) (hne : (next t e).turn ≠ .empty)
    (hco : (next t e).turn.content = none) (hc : (next t e).turn.calls = []) :
    ∃ text, e = .reasoning text := by
  cases e with
  | message role =>
    cases role with
    | assistant => simp [next, State.apply] at hco
    | _ => exact absurd ((next_empty hok).mpr (.inl ⟨_, _, rfl, by simp⟩)) hne
  | reasoning text => exact ⟨text, rfl⟩
  | output => exact absurd ((next_empty hok).mpr (.inr rfl)) hne
  | call => exact absurd hc (next_calls_of_call rfl)
  | answered => exact absurd hc (next_calls_of_call rfl)

theorem next_messages (h : (next .empty e).turn ≠ .empty) : (next .empty e).messages = [] := by
  cases e with
  | message role =>
    cases role with
    | assistant => rfl
    | _ => exact absurd rfl h
  | output => exact absurd rfl h
  | _ => rfl

theorem flush_first (h : t.isEmpty = false) : ∃ m ms, flush t = m :: ms ∧ m.role = .assistant := by
  rw [flush, h]
  exact ⟨_, _, rfl, rfl⟩

theorem rest_first (hok : t.Ok) (h : t ≠ .empty) (es : List (Entry D)) :
    ∃ m ms, rest t es = m :: ms ∧ m.role = .assistant := by
  have he : t.isEmpty = false :=
    Bool.eq_false_iff.mpr fun he => h ((Turn.isEmpty_iff hok).mp he)
  induction es generalizing t with
  | nil => exact flush_first he
  | cons e es ih =>
    cases hj : joins t e with
    | true =>
      have hm : (next t e).messages = [] := by
        cases e with
        | message role =>
          cases role with
          | assistant =>
            simp only [joins, Bool.and_eq_true, Option.isNone_iff_eq_none, List.isEmpty_iff] at hj
            simp [next, State.apply, hj.1, hj.2]
          | _ => cases hj
        | reasoning => cases hj
        | output => cases hj
        | call => rfl
        | answered => rfl
      have ht : (next t e).turn ≠ .empty := by
        rw [Ne, next_empty hok]
        rintro (⟨role, parts, rfl, hne⟩ | hout)
        · cases role with
          | assistant => exact hne rfl
          | _ => cases hj
        · cases e with
          | output => cases hj
          | _ => cases hout
      rw [rest, hm, List.nil_append]
      refine ih (next_ok hok e) ht ?_
      exact Bool.eq_false_iff.mpr fun h => ht ((Turn.isEmpty_iff (next_ok hok e)).mp h)
    | false =>
      obtain ⟨m, ms, heq, hr⟩ := flush_first he
      rw [rest_of_not_joins hok hj, heq]
      exact ⟨m, ms ++ rest .empty (e :: es), rfl, hr⟩

/-! ### A turn that is cut -/

theorem rest_flush_length (hok : t.Ok) (hc : t.calls ≠ []) (hj : joins t e = false) :
    (rest t (e :: es)).length = 1 + (rest .empty (e :: es)).length + t.answers.length := by
  have he : t.isEmpty = false := by
    simp [Turn.isEmpty, hc]
  rw [rest_of_not_joins hok hj, length_append, flush, he]
  simp
  omega

/-- How many messages entries add to a turn with calls does not depend on the turn. -/
theorem rest_calls_length (es : List (Entry D)) : ∃ n, ∀ t : Turn D, t.Ok → t.calls ≠ [] →
    (rest t es).length = n + t.answers.length := by
  induction es with
  | nil =>
    refine ⟨1, fun t hok hc => ?_⟩
    have he : t.isEmpty = false := by
      simp [Turn.isEmpty, hc]
    rw [rest, flush, he]
    simp [Nat.add_comm]
  | cons e es ih =>
    obtain ⟨n, hn⟩ := ih
    cases e with
    | call call =>
      refine ⟨n, fun t hok hc => ?_⟩
      have h := hn (next t (.call call)).turn (next_ok hok _) (next_calls_of_call rfl)
      rw [rest, length_append, h]
      simp [next, State.apply]
    | answered call content =>
      refine ⟨n + 1, fun t hok hc => ?_⟩
      have h := hn (next t (.answered call content)).turn (next_ok hok _) (next_calls_of_call rfl)
      rw [rest, length_append, h]
      simp [next, State.apply]
      omega
    | message role parts =>
      refine ⟨1 + (rest .empty (.message role parts :: es)).length, fun t hok hc => ?_⟩
      exact rest_flush_length hok hc (by cases role <;> simp [joins, hc])
    | reasoning text =>
      refine ⟨1 + (rest .empty (.reasoning text :: es)).length, fun t hok hc => ?_⟩
      exact rest_flush_length hok hc rfl
    | output callId parts =>
      refine ⟨1 + (rest .empty (.output callId parts :: es)).length, fun t hok hc => ?_⟩
      exact rest_flush_length hok hc rfl

theorem rest_joins_length (hok : t.Ok) (ht : t ≠ .empty) (he : e.isCall = true)
    (es : List (Entry D)) :
    (rest t (e :: es)).length + 1 = (flush t).length + (rest .empty (e :: es)).length := by
  obtain ⟨n, hn⟩ := rest_calls_length es
  have h := hn (next t e).turn (next_ok hok e) (next_calls_of_call he)
  have hemp := hn (next .empty e).turn (next_ok Turn.Ok.empty e) (next_calls_of_call he)
  have hisEmpty : t.isEmpty = false :=
    Bool.eq_false_iff.mpr fun h => ht ((Turn.isEmpty_iff hok).mp h)
  have hf : (flush t).length = 1 + t.answers.length := by
    rw [flush, hisEmpty]
    simp [Nat.add_comm]
  rw [rest, rest, length_append, length_append, h, hemp, hf]
  cases e with
  | call =>
    simp [next, State.apply, Turn.empty]
    omega
  | answered =>
    simp [next, State.apply, Turn.empty]
    omega
  | _ => cases he

/-! ### The check of the messages -/

section Check

variable {env : Env} {tools : ToolSet}

/-- The messages pass the check, from one pairing to another. -/
def Pairs (env : Env) (tools : ToolSet) (p : Pairing) (ms : List (Message D)) (q : Pairing) :
    Prop :=
  ms.foldlM (pairMessage env tools) p = .ok q

variable {p q : Pairing} {ms : List (Message D)}

theorem Pairs.nil : Pairs env tools p ([] : List (Message D)) q ↔ p = q := by
  rw [Pairs, foldlM_nil]
  exact ⟨fun h => Except.ok.inj h, fun h => by rw [h]; rfl⟩

variable {m : Message D} {r : Pairing}

theorem Pairs.cons {p q : Pairing} {ms : List (Message D)} : Pairs env tools p (m :: ms) q ↔
      ∃ mid, pairMessage env tools p m = .ok mid ∧ Pairs env tools mid ms q := by
  rw [Pairs, foldlM_cons]
  exact bind_eq_ok

theorem Pairs.append {more : List (Message D)} : Pairs env tools p (ms ++ more) q ↔
      ∃ mid, Pairs env tools p ms mid ∧ Pairs env tools mid more q := by
  rw [Pairs, foldlM_append]
  exact bind_eq_ok

theorem validateHistory_eq : validateHistory env tools ms = .ok () ↔
      ∃ q, Pairs env tools ⟨[], []⟩ ms q ∧ q.pending = [] := by
  rw [validateHistory, bind_eq_ok]
  refine exists_congr fun q => and_congr Iff.rfl ?_
  rw [ensure_eq_ok, decide_eq_true_eq]

theorem pairCall_eq {call : Call} : pairCall env tools p call = .ok q ↔
      trim call.id ≠ [] ∧ call.id ∉ p.seen ∧ checkCall env tools call = .ok () ∧
        q = ⟨call.id :: p.seen, p.pending ++ [call.id]⟩ := by
  rw [pairCall, bind_eq_ok]
  simp only [bind_eq_ok, ensure_eq_ok, decide_eq_true_eq, exists_const, pure, Except.pure,
    Except.ok.injEq]
  constructor
  · rintro ⟨hid, hs, _, hc, rfl⟩
    exact ⟨hid, hs, hc, rfl⟩
  · rintro ⟨hid, hs, hc, rfl⟩
    exact ⟨hid, hs, (), hc, rfl⟩

theorem pairCalls {calls : List Call} (h : calls.foldlM (pairCall env tools) p = .ok q) :
    q.pending = p.pending ++ calls.map Call.id ∧
      q.seen = (calls.map Call.id).reverse ++ p.seen ∧ (calls.map Call.id).Nodup ∧
      ∀ id ∈ calls.map Call.id, id ∉ p.seen := by
  induction calls generalizing p with
  | nil =>
    have h := Except.ok.inj h
    subst h
    simp
  | cons call calls ih =>
    rw [foldlM_cons] at h
    obtain ⟨mid, hc, h⟩ := bind_eq_ok.mp h
    obtain ⟨-, hs, -, rfl⟩ := pairCall_eq.mp hc
    obtain ⟨hp, hids, hnd, hn⟩ := ih h
    refine ⟨by simp [hp], by simp [hids], ?_, ?_⟩
    · rw [map_cons, nodup_cons]
      exact ⟨fun hm => hn _ hm (mem_cons_self ..), hnd⟩
    · intro id hid
      rcases mem_cons.mp hid with rfl | hid
      · exact hs
      · exact fun hm => hn id hid (mem_cons_of_mem _ hm)

inductive Effect (p : Pairing) (m : Message D) (q : Pairing) : Prop
  | assistant (role : m.role = .assistant) (callId : m.callId = none) (none : p.pending = [])
      (pending : q.pending = m.calls.map Call.id)
      (seen : q.seen = (m.calls.map Call.id).reverse ++ p.seen)
      (nodup : (m.calls.map Call.id).Nodup) (new : ∀ id ∈ m.calls.map Call.id, id ∉ p.seen)
  | tool (role : m.role = .tool) (calls : m.calls = []) (id : Text) (callId : m.callId = some id)
      (open' : id ∈ p.pending) (eq : q = { p with pending := p.pending.erase id })
  | plain (role : m.role ≠ .tool) (calls : m.calls = []) (callId : m.callId = none)
      (none : p.pending = []) (eq : q = p)

theorem pairMessage_effect (h : pairMessage env tools p m = .ok q) : Effect p m q := by
  rw [pairMessage] at h
  obtain ⟨_, hp, h⟩ := bind_eq_ok.mp h
  obtain ⟨_, hc, h⟩ := bind_eq_ok.mp h
  obtain ⟨_, hid, h⟩ := bind_eq_ok.mp h
  rw [ensure_eq_ok, decide_eq_true_eq] at hp hc hid
  rw [List.isEmpty_iff] at hc
  cases hr : m.role with
  | assistant =>
    rw [hr] at h hp hid
    have hp : p.pending = [] := by simpa using hp
    obtain ⟨hq, hs, hnd, hnew⟩ := pairCalls h
    rw [hp, List.nil_append] at hq
    exact .assistant hr (by simpa using hid) hp hq hs hnd hnew
  | tool =>
    rw [hr] at h hc
    cases hca : m.callId with
    | none =>
      rw [hca] at h
      cases h
    | some id =>
      simp only [hca] at h
      split at h
      · next hm =>
        exact .tool hr (by simpa using hc) id hca hm (Except.ok.inj h).symm
      · cases h
  | _ =>
    rw [hr] at h hp hid hc
    exact .plain (by simp [hr]) (by simpa using hc) (by simpa using hid)
      (by simpa using hp) (Except.ok.inj h).symm

/-! ### Later messages by themselves -/

theorem pairCalls_weaken {calls : List Call} (hp : r.pending = p.pending)
    (hs : ∀ id ∈ r.seen, id ∈ p.seen) (h : calls.foldlM (pairCall env tools) p = .ok q) :
    ∃ q', calls.foldlM (pairCall env tools) r = .ok q' ∧ q'.pending = q.pending ∧
      ∀ id ∈ q'.seen, id ∈ q.seen := by
  induction calls generalizing p r with
  | nil =>
    have h := Except.ok.inj h
    subst h
    exact ⟨r, rfl, hp, hs⟩
  | cons call calls ih =>
    rw [foldlM_cons] at h
    obtain ⟨mid, hc, h⟩ := bind_eq_ok.mp h
    obtain ⟨hid, hn, hch, rfl⟩ := pairCall_eq.mp hc
    have hc' := pairCall_eq (p := r).mpr ⟨hid, fun hm => hn (hs _ hm), hch, rfl⟩
    obtain ⟨q', hq', hr⟩ := ih (r := ⟨call.id :: r.seen, r.pending ++ [call.id]⟩)
      (by simp [hp])
      (fun id hm => by
        rcases mem_cons.mp hm with rfl | hm
        · exact mem_cons_self ..
        · exact mem_cons_of_mem _ (hs id hm))
      h
    refine ⟨q', ?_, hr⟩
    rw [foldlM_cons, hc']
    exact hq'

theorem pairMessage_weaken (hp : r.pending = p.pending)
    (hs : ∀ id ∈ r.seen, id ∈ p.seen) (h : pairMessage env tools p m = .ok q) :
    ∃ q', pairMessage env tools r m = .ok q' ∧ q'.pending = q.pending ∧
      ∀ id ∈ q'.seen, id ∈ q.seen := by
  rw [pairMessage] at h
  obtain ⟨u1, h1, h⟩ := bind_eq_ok.mp h
  obtain ⟨u2, h2, h⟩ := bind_eq_ok.mp h
  obtain ⟨u3, h3, h⟩ := bind_eq_ok.mp h
  rw [← hp] at h1
  rw [pairMessage, h1, h2, h3]
  cases hr : m.role with
  | assistant =>
    simp only [hr] at h
    exact pairCalls_weaken hp hs h
  | tool =>
    simp only [hr] at h
    cases hc : m.callId with
    | none =>
      rw [hc] at h
      cases h
    | some id =>
      simp only [hc] at h
      split at h
      · next hm =>
        have h := Except.ok.inj h
        subst h
        refine ⟨{ r with pending := r.pending.erase id }, ?_, by simp [hp], hs⟩
        show (if id ∈ r.pending then _ else _) = _
        rw [if_pos (by rw [hp]; exact hm)]
      · cases h
  | _ =>
    simp only [hr] at h
    have h := Except.ok.inj h
    subst h
    exact ⟨r, rfl, hp, hs⟩

theorem Pairs.weaken (h : Pairs env tools p ms q) (hp : r.pending = p.pending)
    (hs : ∀ id ∈ r.seen, id ∈ p.seen) : ∃ q', Pairs env tools r ms q' ∧ q'.pending = q.pending := by
  induction ms generalizing p r with
  | nil =>
    have h := Pairs.nil.mp h
    subst h
    exact ⟨r, Pairs.nil.mpr rfl, hp⟩
  | cons m ms ih =>
    obtain ⟨mid, hm, h⟩ := Pairs.cons.mp h
    obtain ⟨mid', hm', hp', hs'⟩ := pairMessage_weaken hp hs hm
    obtain ⟨q', hq', hr⟩ := ih h hp' hs'
    exact ⟨q', Pairs.cons.mpr ⟨mid', hm', hq'⟩, hr⟩

/-! ### Unanswered calls -/

theorem Pairs.tools_length (h : Pairs env tools p ms q) (hms : ∀ m ∈ ms, m.role = .tool) :
    q.pending.length + ms.length = p.pending.length := by
  induction ms generalizing p with
  | nil =>
    have h := Pairs.nil.mp h
    subst h
    rfl
  | cons m ms ih =>
    obtain ⟨mid, hm, h⟩ := Pairs.cons.mp h
    have hr := ih h fun m' hm' => hms m' (mem_cons_of_mem _ hm')
    have ht := hms m (mem_cons_self ..)
    cases pairMessage_effect hm with
    | assistant role => simp [ht] at role
    | plain role => exact absurd ht role
    | tool _ _ id _ ho heq =>
      subst heq
      have herase := length_erase_of_mem ho
      have hp := length_pos_of_mem ho
      simp only [length_cons] at hr ⊢
      omega

theorem Pairs.flush {t : Turn D} (hok : t.Ok) (h : Pairs env tools p (History.flush t) q) :
    (t = .empty ∧ q = p) ∨
      (p.pending = [] ∧ q.pending.length + t.answers.length = t.calls.length) := by
  by_cases he : t.isEmpty = true
  · have ht := (Turn.isEmpty_iff hok).mp he
    subst ht
    exact .inl ⟨rfl, (Pairs.nil.mp h).symm⟩
  · rw [History.flush, if_neg he] at h
    obtain ⟨mid, hm, h⟩ := Pairs.cons.mp h
    have ha := h.tools_length hok.tools
    cases pairMessage_effect hm with
    | assistant _ _ none pending =>
      rw [pending, length_map] at ha
      exact .inr ⟨none, ha⟩
    | tool role => cases role
    | plain _ calls _ none eq =>
      subst eq
      simp only at calls
      rw [none, length_nil] at ha
      refine .inr ⟨none, ?_⟩
      rw [calls, length_nil]
      exact ha

theorem Pairs.first_tool (h : Pairs env tools p (m :: ms) q) (hp : p.pending ≠ []) :
    m.role = .tool ∧ m.callId ≠ none := by
  obtain ⟨mid, hm, -⟩ := Pairs.cons.mp h
  cases pairMessage_effect hm with
  | assistant _ _ none => exact absurd none hp
  | tool role _ id callId => exact ⟨role, by simp [callId]⟩
  | plain _ _ _ none => exact absurd none hp

/-- A call that is unanswered when a turn has ended is followed by an output. -/
theorem pending_next {t : Turn D} (hok : t.Ok)
    (h : Pairs env tools p (rest t es) q) (hq : q.pending = []) (hp : p.pending ≠ []) :
    t = .empty ∧ ∃ e more, es = e :: more ∧ e.isOutput = true := by
  have hemp : t = .empty := by
    by_contra hne
    obtain ⟨m, ms, heq, hr⟩ := rest_first hok hne es
    rw [heq] at h
    have ht := (h.first_tool hp).1
    rw [hr] at ht
    cases ht
  subst hemp
  refine ⟨rfl, ?_⟩
  cases es with
  | nil =>
    have h := Pairs.nil.mp h
    subst h
    exact absurd hq hp
  | cons e es =>
    refine ⟨e, es, rfl, ?_⟩
    by_cases htu : (next .empty e).turn = .empty
    · rcases (next_empty Turn.Ok.empty).mp htu with ⟨role, parts, rfl, hne⟩ | hout
      · have hmsg : ∃ m, (next .empty (.message role parts)).messages = [m] ∧
            m.callId = none := by
          cases role with
          | assistant => exact absurd rfl hne
          | _ => exact ⟨_, rfl, rfl⟩
        obtain ⟨m, hm, hid⟩ := hmsg
        rw [rest, hm] at h
        exact absurd hid (h.first_tool hp).2
      · exact hout
    · rw [rest, next_messages htu, nil_append] at h
      obtain ⟨m, ms, heq, hr⟩ := rest_first (next_ok Turn.Ok.empty e) htu es
      rw [heq] at h
      have ht := (h.first_tool hp).1
      rw [hr] at ht
      cases ht

theorem open_next {t : Turn D} (hok : t.Ok)
    (h : Pairs env tools p (rest t es) q) (hq : q.pending = [])
    (ht : t.answers.length < t.calls.length) :
    ∃ e more, es = e :: more ∧ (e.isOutput = true ∨ e.isCall = true) := by
  have hne : t ≠ .empty := fun h => by simp [h, Turn.empty] at ht
  cases es with
  | nil =>
    rcases Pairs.flush hok h with ⟨he, -⟩ | ⟨-, hl⟩
    · exact absurd he hne
    · simp only [hq, length_nil] at hl
      omega
  | cons e es =>
    refine ⟨e, es, rfl, ?_⟩
    cases hj : joins t e with
    | true =>
      cases e with
      | call => exact .inr rfl
      | answered => exact .inr rfl
      | message role =>
        have hc : t.calls.isEmpty = false := by
          cases hc : t.calls with
          | nil => simp [hc] at ht
          | cons => rfl
        cases role <;> simp [joins, hc] at hj
      | reasoning => cases hj
      | output => cases hj
    | false =>
      rw [rest_of_not_joins hok hj] at h
      obtain ⟨mid, hf, h⟩ := Pairs.append.mp h
      rcases Pairs.flush hok hf with ⟨he, -⟩ | ⟨-, hl⟩
      · exact absurd he hne
      · have hm : mid.pending ≠ [] := fun hnil => by
          simp only [hnil, length_nil] at hl
          omega
        obtain ⟨-, e', more, heq, hout⟩ := pending_next Turn.Ok.empty h hq hm
        obtain ⟨rfl, -⟩ := cons.inj heq
        exact .inl hout

/-- A message that is neither the assistant's nor an output leaves no call unanswered. -/
theorem Pairs.plain_last (h : Pairs env tools p (ms ++ [m]) q)
    (hc : m.calls = []) (hid : m.callId = none) : q.pending = [] := by
  obtain ⟨mid, -, h⟩ := Pairs.append.mp h
  obtain ⟨last, hm, h⟩ := Pairs.cons.mp h
  have h := Pairs.nil.mp h
  subst h
  cases pairMessage_effect hm with
  | assistant _ _ _ pending => rw [pending, hc, map_nil]
  | tool _ _ id callId => simp [hid] at callId
  | plain _ _ _ none eq => rw [eq, none]

theorem output_after {e : Entry D} (hout : e.isOutput = true)
    {more : List (Entry D)} (hp : Pairs env tools ⟨[], []⟩ (after es).messages p)
    (h : Pairs env tools p (rest (after es).turn (e :: more)) q) :
    ∃ before last, es = before ++ [last] ∧ (last.isCall = true ∨ last.isOutput = true) := by
  have hok := after_ok es
  have hj : joins (after es).turn e = false := by
    cases e with
    | output => rfl
    | _ => cases hout
  rw [rest_of_not_joins hok hj] at h
  obtain ⟨mid, hf, h⟩ := Pairs.append.mp h
  have hmid : mid.pending ≠ [] := by
    cases e with
    | output =>
      obtain ⟨_, hm, -⟩ := Pairs.cons.mp h
      cases pairMessage_effect hm with
      | assistant role => cases role
      | tool _ _ id _ ho => exact ne_nil_of_mem ho
      | plain role => exact absurd rfl role
    | _ => cases hout
  have ho : (after es).turn = .empty ∧ p.pending ≠ [] ∨ (after es).turn.calls ≠ [] := by
    rcases Pairs.flush hok hf with ⟨he, rfl⟩ | ⟨-, hlen⟩
    · exact .inl ⟨he, hmid⟩
    · refine .inr fun hnil => hmid ?_
      rw [hnil, length_nil] at hlen
      exact eq_nil_of_length_eq_zero (by omega)
  cases es using reverseRecOn with
  | nil =>
    have hp := Pairs.nil.mp hp
    subst hp
    rcases ho with ⟨-, hne⟩ | hne
    · exact absurd rfl hne
    · exact absurd rfl hne
  | append_singleton before last =>
    refine ⟨before, last, rfl, ?_⟩
    by_contra hn
    rw [not_or, Bool.not_eq_true, Bool.not_eq_true] at hn
    rw [after_snoc] at ho hp
    rcases ho with ⟨he, hne⟩ | hc
    · rcases (next_empty (after_ok before)).mp he with ⟨role, parts, rfl, hr⟩ | hl
      · have hj : joins (after before).turn (.message role parts) = false := by
          cases role with
          | assistant => exact absurd rfl hr
          | _ => rfl
        have hmsg : ∃ m : Message D, (next .empty (.message role parts)).messages = [m] ∧
            m.calls = [] ∧ m.callId = none := by
          cases role with
          | assistant => exact absurd rfl hr
          | _ => exact ⟨_, rfl, rfl, rfl⟩
        obtain ⟨m, hm, hc, hid⟩ := hmsg
        rw [next_of_not_joins (after_ok before) hj, hm, ← append_assoc] at hp
        exact hne (hp.plain_last hc hid)
      · simp [hl] at hn
    · exact hc (next_calls_of_not_call (after_ok before) hn.1)

/-! ### The ids of calls and outputs -/

def callIds (ms : List (Message D)) : List Text := ms.flatMap fun m => m.calls.map Call.id

def answerIds (ms : List (Message D)) : List Text := ms.filterMap Message.callId

/-- The ids of calls that passed the check are new and pairwise different, and each is answered
or still open; only open calls are answered. -/
structure Pairs.Ids (p : Pairing) (ms : List (Message D)) (q : Pairing) : Prop where
  nodup : (callIds ms).Nodup
  new : ∀ id ∈ callIds ms, id ∉ p.seen
  seen : ∀ id, id ∈ q.seen ↔ id ∈ p.seen ∨ id ∈ callIds ms
  answered : ∀ id, id ∈ p.pending ∨ id ∈ callIds ms → id ∈ q.pending ∨ id ∈ answerIds ms
  called : ∀ id ∈ answerIds ms, id ∈ p.pending ∨ id ∈ callIds ms
  kept : ∀ id ∈ q.pending, id ∈ p.pending ∨ id ∈ callIds ms

theorem Effect.ids (h : Effect p m q) : Pairs.Ids p [m] q := by
  cases h with
  | assistant role callId none pending seen nodup new =>
    refine ⟨?_, ?_, ?_, ?_, ?_, ?_⟩
    all_goals simp only [callIds, answerIds, flatMap_cons, flatMap_nil, append_nil]
    · exact nodup
    · exact new
    · intro id
      rw [seen, mem_append, mem_reverse, or_comm]
    · rintro id (hid | hid)
      · rw [none] at hid
        cases hid
      · rw [pending]
        exact .inl hid
    · simp [callId]
    · intro id hid
      rw [pending] at hid
      exact .inr hid
  | tool role calls id callId hopen eq =>
    subst eq
    refine ⟨?_, ?_, ?_, ?_, ?_, ?_⟩
    all_goals simp only [callIds, answerIds, flatMap_cons, flatMap_nil, append_nil,
      calls, map_nil, filterMap_cons, callId, filterMap_nil]
    · exact nodup_nil
    · simp
    · simp
    · rintro other (ho | ho)
      · by_cases heq : other = id
        · exact .inr (mem_singleton.mpr heq)
        · exact .inl ((mem_erase_of_ne heq).mpr ho)
      · cases ho
    · intro other ho
      rw [mem_singleton] at ho
      subst ho
      exact .inl hopen
    · intro other ho
      exact .inl (mem_of_mem_erase ho)
  | plain role calls callId none eq =>
    subst eq
    refine ⟨?_, ?_, ?_, ?_, ?_, ?_⟩
    all_goals simp [callIds, answerIds, calls, callId, none]

theorem Pairs.ids (h : Pairs env tools p ms q) : Pairs.Ids p ms q := by
  induction ms generalizing p with
  | nil =>
    have h := Pairs.nil.mp h
    subst h
    refine ⟨nodup_nil, ?_, ?_, ?_, ?_, ?_⟩
    all_goals simp [callIds, answerIds]
  | cons m ms ih =>
    obtain ⟨mid, hm, h⟩ := Pairs.cons.mp h
    have h1 := (pairMessage_effect hm).ids
    have h2 := ih h
    have hc : callIds (m :: ms) = callIds [m] ++ callIds ms := by simp [callIds]
    have ha : answerIds (m :: ms) = answerIds [m] ++ answerIds ms := by
      simp only [answerIds, ← filterMap_append, singleton_append]
    constructor
    · rw [hc, nodup_append]
      refine ⟨h1.nodup, h2.nodup, fun id hid other hoth heq => ?_⟩
      subst heq
      exact h2.new id hoth ((h1.seen id).mpr (.inr hid))
    · intro id hid
      rw [hc, mem_append] at hid
      rcases hid with hid | hid
      · exact h1.new id hid
      · exact fun hs => h2.new id hid ((h1.seen id).mpr (.inl hs))
    · intro id
      rw [hc, mem_append, h2.seen, h1.seen, or_assoc]
    · intro id hid
      rw [hc, mem_append] at hid
      rw [ha, mem_append]
      have hcase : id ∈ mid.pending ∨ id ∈ answerIds [m] ∨ id ∈ callIds ms := by
        rcases hid with hid | hid | hid
        · rcases h1.answered id (.inl hid) with ho | hd
          · exact .inl ho
          · exact .inr (.inl hd)
        · rcases h1.answered id (.inr hid) with ho | hd
          · exact .inl ho
          · exact .inr (.inl hd)
        · exact .inr (.inr hid)
      rcases hcase with ho | hd | hcall
      · exact (h2.answered id (.inl ho)).imp_right .inr
      · exact .inr (.inl hd)
      · exact (h2.answered id (.inr hcall)).imp_right .inr
    · intro id hid
      rw [ha, mem_append] at hid
      rw [hc, mem_append]
      rcases hid with hid | hid
      · exact (h1.called id hid).imp_right .inl
      · rcases h2.called id hid with ho | hcall
        · exact (h1.kept id ho).imp_right .inl
        · exact .inr (.inr hcall)
    · intro id hid
      rw [hc, mem_append]
      rcases h2.kept id hid with ho | hcall
      · exact (h1.kept id ho).imp_right .inl
      · exact .inr (.inr hcall)

end Check

def Entry.callId? : Entry D → Option Text
  | .call c => some c.id
  | _ => none

def Entry.outputId? : Entry D → Option Text
  | .output id _ => some id
  | _ => none

def Entry.answeredId? : Entry D → Option Text
  | .answered c _ => some c.id
  | _ => none

theorem callIds_flush (hok : t.Ok) : callIds (flush t) = t.calls.map Call.id := by
  have ha : callIds t.answers = [] := by
    rw [callIds, flatMap_eq_nil_iff]
    intro m hm
    rw [hok.calls m hm, map_nil]
  by_cases he : t.isEmpty = true
  · rw [(Turn.isEmpty_iff hok).mp he]
    rfl
  · rw [flush, if_neg he]
    simpa [callIds] using ha

theorem callIds_append (ms more : List (Message D)) :
    callIds (ms ++ more) = callIds ms ++ callIds more := flatMap_append ..

theorem next_callIds (hok : t.Ok) (e : Entry D) :
    callIds (next t e).messages ++ (next t e).turn.calls.map Call.id =
      t.calls.map Call.id ++ (e.callId?.or e.answeredId?).toList := by
  cases hj : joins t e with
  | true =>
    cases e with
    | message role =>
      cases role with
      | assistant =>
        simp only [joins, Bool.and_eq_true, Option.isNone_iff_eq_none, List.isEmpty_iff] at hj
        simp [next, State.apply, hj.1, hj.2, callIds, Entry.callId?, Entry.answeredId?]
      | _ => cases hj
    | reasoning => cases hj
    | output => cases hj
    | call => simp [next, State.apply, callIds, Entry.callId?, Entry.answeredId?]
    | answered => simp [next, State.apply, callIds, Entry.callId?, Entry.answeredId?]
  | false =>
    rw [next_of_not_joins hok hj, callIds_append, callIds_flush hok, List.append_assoc]
    congr 1
    cases e with
    | call => cases hj
    | answered => cases hj
    | message role => cases role <;> rfl
    | _ => rfl

theorem callIds_rest (hok : t.Ok) (es : List (Entry D)) : callIds (rest t es) =
      t.calls.map Call.id ++ es.filterMap fun e => e.callId?.or e.answeredId? := by
  induction es generalizing t with
  | nil => simp [rest, callIds_flush hok]
  | cons e es ih =>
    rw [rest, callIds_append, ih (next_ok hok e), ← append_assoc, next_callIds hok,
      append_assoc, filterMap_cons]
    cases e.callId?.or e.answeredId? with
    | none => rfl
    | some => rfl

theorem answerIds_flush (hok : t.Ok) : answerIds (flush t) = answerIds t.answers := by
  by_cases he : t.isEmpty = true
  · rw [(Turn.isEmpty_iff hok).mp he]
    rfl
  · rw [flush, if_neg he]
    simp [answerIds]

theorem next_answerIds (hok : t.Ok) (e : Entry D) :
    answerIds (next t e).messages ++ answerIds (next t e).turn.answers =
      answerIds t.answers ++ (e.outputId?.or e.answeredId?).toList := by
  cases hj : joins t e with
  | true =>
    cases e with
    | message role =>
      cases role with
      | assistant =>
        simp only [joins, Bool.and_eq_true, Option.isNone_iff_eq_none, List.isEmpty_iff] at hj
        simp [next, State.apply, hj.1, hj.2, answerIds, Entry.outputId?, Entry.answeredId?]
      | _ => cases hj
    | reasoning => cases hj
    | output => cases hj
    | call => simp [next, State.apply, answerIds, Entry.outputId?, Entry.answeredId?]
    | answered =>
      simp [next, State.apply, answerIds, Entry.outputId?, Entry.answeredId?, plain]
  | false =>
    rw [next_of_not_joins hok hj]
    simp only [answerIds, List.filterMap_append, List.append_assoc]
    have hf := answerIds_flush hok
    simp only [answerIds] at hf
    rw [hf]
    congr 1
    cases e with
    | call => cases hj
    | answered => cases hj
    | message role => cases role <;> rfl
    | _ => rfl

theorem answerIds_rest (hok : t.Ok) (es : List (Entry D)) : answerIds (rest t es) =
      answerIds t.answers ++ es.filterMap fun e => e.outputId?.or e.answeredId? := by
  induction es generalizing t with
  | nil => simp [rest, answerIds_flush hok]
  | cons e es ih =>
    have ha : answerIds (rest t (e :: es)) =
        answerIds (next t e).messages ++ answerIds (rest (next t e).turn es) := by
      rw [rest, answerIds, filterMap_append]
      rfl
    rw [ha, ih (next_ok hok e), ← append_assoc, next_answerIds hok, append_assoc, filterMap_cons]
    cases e.outputId?.or e.answeredId? with
    | none => rfl
    | some => rfl

end LocalAi.History
