import LocalAi.History.Turns
import LocalAi.Prompt.Render
import Mathlib.Data.List.Nodup

/-!
# Tool results in the order of their calls

The prompt carries no call ids: the model pairs a result with a call by its place.  What
`validate_history` accepts, `order_results` puts in call order.

* `SameRuns`: conversations that differ in the order of results within a run.
* `placeResults_isOk`: the results of a run that answers its calls are placed.
* `results_in_call_order`: every accepted conversation is ordered, and renders as any other with
  the same runs.
-/

open List

namespace LocalAi.Prompt

open History (Call Message Pairing Pairs Role validateHistory validateHistory_eq pairMessage_effect)
open Lib (bind_eq_ok mapM_eq_ok)
open Tools (Env ToolSet)

variable {D : Type} {env : Env} {tools : ToolSet} {calls : List Call}
  {run run' turns turns' ordered : List (Message D)}

/-! ### Runs of results -/

inductive SameRuns : List (Message D) → List (Message D) → Prop
  | nil : SameRuns [] []
  | turn {turn : Message D} {turns turns' : List (Message D)} (hrole : turn.role ≠ .tool)
      (rest : SameRuns turns turns') : SameRuns (turn :: turns) (turn :: turns')
  | run {run run' turns turns' : List (Message D)} (hrun : ∀ turn ∈ run, turn.role = .tool)
      (hperm : run.Perm run') (rest : SameRuns turns turns') :
      SameRuns (run ++ turns) (run' ++ turns')

theorem SameRuns.perm (h : SameRuns turns turns') : turns.Perm turns' := by
  induction h with
  | nil => exact .nil
  | turn hro _ ih => exact ih.cons _
  | run hrun hp _ ih => exact hp.append ih

theorem placeResults_perm (h : run.Perm run') :
    placeResults env calls run = placeResults env calls run' := by
  have he : run.isEmpty = run'.isEmpty := by
    rw [Bool.eq_iff_iff, List.isEmpty_iff, List.isEmpty_iff]
    exact ⟨fun hn => (hn ▸ h).nil_eq.symm, fun hn => (hn ▸ h).eq_nil⟩
  unfold placeResults
  rw [he, h.length_eq]
  congr 3
  funext call
  -- one result in one order is that result in the other
  have hf := h.filter fun result => decide (result.callId = some call.id)
  generalize run.filter (fun result => decide (result.callId = some call.id)) = found at hf
  generalize run'.filter (fun result => decide (result.callId = some call.id)) = found' at hf
  rcases found with _ | ⟨first, _ | ⟨second, more⟩⟩
  · rw [hf.nil_eq]
  · rw [singleton_perm.mp hf]
  · have hl := hf.length_eq
    rcases found' with _ | ⟨first', _ | ⟨second', more'⟩⟩
    · simp at hl
    · simp at hl
    · rfl

theorem orderResults_run {results : List (Message D)} (hr : ∀ turn ∈ results, turn.role = .tool) :
    orderResults env calls run (results ++ turns) =
      orderResults env calls (run ++ results) turns := by
  induction results generalizing run with
  | nil => rw [nil_append, append_nil]
  | cons turn results ih =>
    rw [forall_mem_cons] at hr
    rw [cons_append, orderResults, if_pos hr.1, ih hr.2, append_assoc]
    rfl

theorem orderResults_same (h : SameRuns turns turns') {run run' : List (Message D)}
    (hrun : run.Perm run') :
    orderResults env calls run turns = orderResults env calls run' turns' := by
  induction h generalizing calls run run' with
  | nil => exact placeResults_perm hrun
  | turn hro _ ih =>
    rw [orderResults, orderResults, if_neg hro, if_neg hro, placeResults_perm hrun,
      ih (List.Perm.refl [])]
  | run hr hp _ ih =>
    rw [orderResults_run hr, orderResults_run fun turn ht => hr turn (hp.mem_iff.mpr ht)]
    exact ih (hrun.append hp)

/-! ### The results of one run -/

structure Answers (calls : List Call) (results : List (Message D)) : Prop where
  ids : results.map Message.callId = calls.map fun call => some call.id
  role : ∀ result ∈ results, result.role = .tool

theorem filter_callId (hnd : (run.map Message.callId).Nodup) {result : Message D}
    (hm : result ∈ run) :
    (run.filter fun turn => decide (turn.callId = result.callId)) = [result] := by
  induction run with
  | nil => cases hm
  | cons turn run ih =>
    rw [map_cons, nodup_cons] at hnd
    rcases mem_cons.mp hm with rfl | hm
    · rw [filter_cons_of_pos (by simp), filter_eq_nil_iff.mpr]
      intro other ho
      have hne : other.callId ≠ result.callId := fun heq =>
        hnd.1 (heq ▸ mem_map_of_mem ho)
      simpa using hne
    · have hne : turn.callId ≠ result.callId := fun heq =>
        hnd.1 (heq ▸ mem_map_of_mem hm)
      rw [filter_cons_of_neg (by simpa using hne), ih hnd.2 hm]

theorem exists_results (h : ∀ call ∈ calls, some call.id ∈ run.map Message.callId) :
    ∃ placed, List.Forall₂ (fun (call : Call) result => result ∈ run ∧
      result.callId = some call.id) calls placed := by
  induction calls with
  | nil => exact ⟨[], .nil⟩
  | cons call calls ih =>
    rw [forall_mem_cons] at h
    obtain ⟨result, hm, hid⟩ := mem_map.mp h.1
    obtain ⟨placed, hp⟩ := ih h.2
    exact ⟨result :: placed, .cons ⟨hm, hid⟩ hp⟩

theorem placed_ids {placed : List (Message D)}
    (h : List.Forall₂ (fun (call : Call) result => result ∈ run ∧ result.callId = some call.id)
      calls placed) : placed.map Message.callId = (calls.map fun call => some call.id) ∧
      ∀ result ∈ placed, result ∈ run := by
  induction h with
  | nil => simp
  | cons hf _ ih =>
    rw [map_cons, map_cons, ih.1, hf.2, forall_mem_cons]
    exact ⟨rfl, hf.1, ih.2⟩

theorem placeResults_isOk (hnd : (calls.map fun call => some call.id).Nodup)
    (hpe : (calls.map fun call => some call.id).Perm (run.map Message.callId))
    (hro : ∀ turn ∈ run, turn.role = .tool) :
    ∃ placed, placeResults env calls run = .ok placed ∧ run.Perm placed ∧ Answers calls placed := by
  have hi : (run.map Message.callId).Nodup := hpe.nodup_iff.mp hnd
  have ha : ∀ call ∈ calls, some call.id ∈ run.map Message.callId := fun call hc =>
    hpe.mem_iff.mp (mem_map_of_mem hc)
  obtain ⟨placed, hp⟩ := exists_results ha
  obtain ⟨hk, hs⟩ := placed_ids hp
  refine ⟨placed, ?_, ?_, hk, fun result hr => hro result (hs result hr)⟩
  · have hl : calls.length = run.length := by simpa using hpe.length_eq
    unfold placeResults
    split
    · next hemp =>
      rw [isEmpty_iff.mp hemp, length_nil, length_eq_zero_iff] at hl
      rw [hl] at hp
      cases hp
      rfl
    · rw [if_neg (by simpa using hl)]
      refine mapM_eq_ok.mpr (hp.imp fun call result hr => ?_)
      rw [← hr.2, filter_callId hi hr.1]
  · have hpl : (placed.map Message.callId).Nodup := hk ▸ hnd
    refine (perm_ext_iff_of_nodup hi.of_map hpl.of_map).mpr fun turn => ?_
    refine ⟨fun ht => ?_, hs turn⟩
    -- the result placed for the same id is this one
    have hkey : turn.callId ∈ placed.map Message.callId := by
      rw [hk]
      exact hpe.mem_iff.mpr (mem_map_of_mem ht)
    obtain ⟨other, ho, heq⟩ := mem_map.mp hkey
    rwa [← inj_on_of_nodup_map hi (hs other ho) ht heq]

/-! ### Whole conversations -/

/-- Every assistant turn is followed by the results of its calls, in order, and by no others. -/
def Paired (ordered : List (Message D)) : Prop :=
  ∀ front turn rest, ordered = front ++ turn :: rest → turn.role = .assistant →
    ∃ results later, rest = results ++ later ∧ Answers turn.calls results ∧
      ∀ next ∈ later.head?, next.role ≠ .tool

theorem Paired.cons {placed rest : List (Message D)} {turn : Message D}
    (hp : ∀ result ∈ placed, result.role = .tool)
    (ht : turn.role = .assistant → ∃ results later, rest = results ++ later ∧
      Answers turn.calls results ∧ ∀ next ∈ later.head?, next.role ≠ .tool)
    (hre : Paired rest) : Paired (placed ++ turn :: rest) := by
  intro front other back hs hr
  rcases append_eq_append_iff.mp hs with ⟨middle, rfl, hb⟩ | ⟨middle, rfl, hm⟩
  · rcases middle with _ | ⟨first, middle⟩
    · rw [nil_append, cons.injEq] at hb
      obtain ⟨rfl, rfl⟩ := hb
      exact ht hr
    · rw [cons_append, cons.injEq] at hb
      exact hre middle other back hb.2 hr
  · rcases middle with _ | ⟨first, middle⟩
    · rw [nil_append, cons.injEq] at hm
      obtain ⟨rfl, rfl⟩ := hm
      exact ht hr
    · rw [cons_append, cons.injEq] at hm
      obtain ⟨rfl, -⟩ := hm
      exact absurd hr (by rw [hp other (by simp)]; decide)

/-- From calls whose results are in part in `run` and in part still to come. -/
theorem orderResults_isOk {p q : Pairing} (h : Pairs env tools p turns q) (hq : q.pending = [])
    (hnd : (calls.map fun call => some call.id).Nodup)
    (hperm : (calls.map fun call => some call.id).Perm
      (run.map Message.callId ++ p.pending.map some)) (hr : ∀ turn ∈ run, turn.role = .tool) :
    ∃ ordered placed later, orderResults env calls run turns = .ok ordered ∧
      SameRuns (run ++ turns) ordered ∧ ordered = placed ++ later ∧ Answers calls placed ∧
      (∀ next ∈ later.head?, next.role ≠ .tool) ∧ Paired ordered := by
  induction turns generalizing p calls run with
  | nil =>
    have hp := Pairs.nil.mp h
    subst hp
    rw [hq, map_nil, append_nil] at hperm
    obtain ⟨placed, hpl, hsa, ha⟩ := placeResults_isOk hnd hperm hr
    refine ⟨placed, placed, [], hpl, ?_, (append_nil _).symm, ha, by simp, ?_⟩
    · have hru := SameRuns.run hr hsa .nil
      rwa [append_nil placed] at hru
    · intro front turn rest hs hasst
      exact absurd hasst (by rw [ha.role turn (by simp [hs])]; decide)
  | cons turn turns ih =>
    obtain ⟨mid, hm, h⟩ := Pairs.cons.mp h
    by_cases ht : turn.role = .tool
    · -- one more result of the run
      cases pairMessage_effect hm with
      | assistant role => exact absurd (role.symm.trans ht) (by decide)
      | plain role => exact absurd ht role
      | tool _ _ id hid ho heq =>
        subst heq
        have hperm' : (calls.map fun call => some call.id).Perm
            ((run ++ [turn]).map Message.callId ++ (p.pending.erase id).map some) := by
          refine hperm.trans ?_
          have he := (perm_cons_erase ho).map some
          have happ := he.append_left (run.map Message.callId)
          simpa [hid] using happ
        have hr' : ∀ result ∈ run ++ [turn], result.role = .tool := by
          rw [forall_mem_append]
          exact ⟨hr, by simpa using ht⟩
        obtain ⟨ordered, placed, later, hord, hsa, hs⟩ := ih h hnd hperm' hr'
        refine ⟨ordered, placed, later, ?_, ?_, hs⟩
        · rw [orderResults, if_pos ht, hord]
        · rwa [append_assoc] at hsa
    · -- the run is over, and all its calls are answered
      have hend : p.pending = [] ∧ (turn.calls.map fun call => some call.id).Nodup ∧
          (turn.calls.map fun call => some call.id).Perm
            (([] : List (Message D)).map Message.callId ++ mid.pending.map some) := by
        cases pairMessage_effect hm with
        | assistant _ _ hn hpend _ hnew =>
          refine ⟨hn, ?_, by simp [hpend, Function.comp_def]⟩
          simpa [map_map, Function.comp_def] using hnew.map fun _ _ => Option.some.inj
        | tool role => exact absurd role ht
        | plain _ hc _ hn heq =>
          subst heq
          exact ⟨hn, by simp [hc], by simp [hc, hn]⟩
      obtain ⟨hn, hnd', hperm'⟩ := hend
      rw [hn, map_nil, append_nil] at hperm
      obtain ⟨placed, hpl, hsa, ha⟩ := placeResults_isOk hnd hperm hr
      obtain ⟨rest, results, later, hrest, hru, hs, hress, hl, hpa⟩ :=
        ih h hnd' hperm' (by simp)
      refine ⟨placed ++ turn :: rest, placed, turn :: rest, ?_, ?_, rfl, ha, ?_, ?_⟩
      · rw [orderResults, if_neg ht, hpl, hrest]
        rfl
      · exact .run hr hsa (.turn ht hru)
      · simpa using ht
      · exact .cons ha.role (fun _ => ⟨results, later, hs, hress, hl⟩) hpa

/-- **Tool results are paired by call order.** -/
theorem results_in_call_order (h : validateHistory env tools turns = .ok ()) :
    (∃ ordered, orderResults env [] [] turns = .ok ordered ∧ turns.Perm ordered ∧
      SameRuns turns ordered ∧ Paired ordered) ∧
    ∀ turns', validateHistory env tools turns' = .ok () → SameRuns turns turns' →
      ∀ thinking preserveThinking,
        render env turns' thinking preserveThinking tools =
          render env turns thinking preserveThinking tools := by
  refine ⟨?_, fun turns' h' hs thinking preserveThinking => ?_⟩
  · obtain ⟨q, hpairs, hq⟩ := validateHistory_eq.mp h
    have hnd : (([] : List Call).map fun call => some call.id).Nodup := .nil
    have hp : (([] : List Call).map fun call => some call.id).Perm
        (([] : List (Message D)).map Message.callId ++ ([] : List Text).map some) := .nil
    obtain ⟨ordered, -, -, ho, hs, -, -, -, hpaired⟩ :=
      orderResults_isOk hpairs hq hnd hp (by simp)
    exact ⟨ordered, ho, hs.perm, hs, hpaired⟩
  · have hp := hs.perm
    have he : turns'.isEmpty = turns.isEmpty := by
      rw [Bool.eq_iff_iff, List.isEmpty_iff, List.isEmpty_iff]
      exact ⟨fun hn => (hn ▸ hp).eq_nil, fun hn => (hn ▸ hp).nil_eq.symm⟩
    have hall : ∀ f : Message D → Bool, turns'.all f = turns.all f := fun f => by
      rw [Bool.eq_iff_iff, List.all_eq_true, List.all_eq_true]
      exact ⟨fun hf turn ht => hf turn (hp.mem_iff.mp ht),
        fun hf turn ht => hf turn (hp.mem_iff.mpr ht)⟩
    have hany : turns'.any isQuery = turns.any isQuery := by
      rw [Bool.eq_iff_iff, List.any_eq_true, List.any_eq_true]
      exact ⟨fun ⟨turn, ht, hq⟩ => ⟨turn, hp.mem_iff.mpr ht, hq⟩,
        fun ⟨turn, ht, hq⟩ => ⟨turn, hp.mem_iff.mp ht, hq⟩⟩
    unfold render
    rw [he, hp.length_eq, hall, hany, h, h', orderResults_same hs (List.Perm.refl [])]

/-! ### Results that arrive out of order -/

def swappedEnv : Env := ⟨fun _ => .error "expected value".toList, id⟩

def swappedResult (id content : Text) : Message Unit := ⟨.tool, content, none, [], some id, []⟩

/-- A question, two calls and their results. -/
def swappedTurns (results : List (Message Unit)) : List (Message Unit) :=
  [⟨.user, "q".toList, none, [], none, []⟩,
    ⟨.assistant, [], none, [⟨"a".toList, "f".toList, .object []⟩,
      ⟨"b".toList, "f".toList, .object []⟩], none, []⟩] ++ results

theorem swapped_results_render :
    let first := swappedResult "a".toList "1".toList
    let second := swappedResult "b".toList "2".toList
    (∃ ordered, orderResults swappedEnv [] [] (swappedTurns [second, first]) = .ok ordered ∧
      Paired ordered) ∧
    render swappedEnv (swappedTurns [first, second]) none false ⟨[]⟩ =
      render swappedEnv (swappedTurns [second, first]) none false ⟨[]⟩ := by
  intro first second
  have hv : validateHistory swappedEnv ⟨[]⟩ (swappedTurns [second, first]) = .ok () := by
    decide +kernel
  have hv' : validateHistory swappedEnv ⟨[]⟩ (swappedTurns [first, second]) = .ok () := by
    decide +kernel
  have hs : SameRuns (swappedTurns [second, first]) (swappedTurns [first, second]) := by
    have hrun : SameRuns ([second, first] ++ []) ([first, second] ++ []) :=
      .run (by decide) (.swap first second []) .nil
    exact .turn (by decide) (.turn (by decide) hrun)
  obtain ⟨⟨ordered, ho, -, -, hp⟩, hr⟩ := results_in_call_order hv
  exact ⟨⟨ordered, ho, hp⟩, hr _ hv' hs none false⟩

end LocalAi.Prompt
