import Mathlib.Order.Bounds.Basic
import Mathlib.Tactic.Ring
import LocalAi.Tools.Json

/-!
# The memory plan of a model

Before a model opens, the checkpoint, the states and the caches are added up as if every request came
to the whole context.  The context is the one asked for, or the largest that fits.

* `memoryPlan`: the checks, in the order of the source, and the plan.
* `Grown`: a plan whose caches can grow to its context.
* `memoryPlan_grown_iff`: an accepted plan is one exactly if no context it could choose has caches
  beyond the device's buffers.

Sizes are those of sums that fit 64 bits.
-/

namespace LocalAi.Engine

def planLayers : Nat := 64

def fullInterval : Nat := 4

def planTrainingContext : Nat := 262144

def maxPrefillTokens : Nat := 512

def kvGrowthStep : Nat := 4096

inductive KvFormat
  | f16
  | q8

def KvFormat.tokenBytes : KvFormat → Nat
  | .f16 => 4 * 256 * 2
  | .q8 => 4 * 256 + 4 * 8 * 2

def KvFormat.name : KvFormat → String
  | .f16 => "f16"
  | .q8 => "q8"

structure KvLayout where
  key : KvFormat
  value : KvFormat

def KvLayout.tokenBytes (kv : KvLayout) : Nat := kv.key.tokenBytes + kv.value.tokenBytes

structure PlanTensor where
  bytes : Nat
  isF32 : Bool

structure DeviceCaps where
  name : String
  maxBufferLength : Nat
  recommendedWorkingSet : Nat

/-- The arguments of `memory_plan`; a context of 0 asks for an automatic one. -/
structure PlanArgs where
  tensors : List PlanTensor
  dataStart : Nat
  context : Nat
  prefillChunk : Nat
  extraBytes : Nat
  mtpEnabled : Bool
  kv : KvLayout
  caps : DeviceCaps

structure BonsaiInfo where
  context : Nat
  contextExplicit : Bool
  prefillChunkSize : Nat
  tensorBytes : Nat
  stateBytes : Nat
  estimatedWorkingSet : Nat
  workingSetLimit : Nat

inductive PlanError
  | context
  | prefillChunk
  | bufferLimit
  | fixed (needs : Nat)
  | workingSet (needs : Nat)

/-- Recurrent states, their tape and its scratch. -/
def fixedStateBytes : Nat :=
  let recurrent := planLayers - planLayers / fullInterval
  recurrent * (48 * 128 * 128 * 2 + 10240 * 3 * 4) + 2 * recurrent * 8 * (10240 + 2 * 48) * 4 +
    (8 + 1) * 8 * 10240 * 4

/-- The largest context that fits nine tenths of the recommended working set. -/
def fitContext (fixed perToken recommended : Nat) : Option Nat :=
  let budget := recommended / 10 * 9
  if perToken = 0 ∨ budget ≤ fixed then none
  else
    let tokens := (budget - fixed) / perToken
    if tokens = 0 then none
    else some (if tokens < planTrainingContext then tokens else planTrainingContext)

namespace PlanArgs

def tensorBytes (args : PlanArgs) : Nat := (args.tensors.map PlanTensor.bytes).sum

def f32Bytes (args : PlanArgs) : Nat :=
  ((args.tensors.filter PlanTensor.isF32).map PlanTensor.bytes).sum

def largestTensor (args : PlanArgs) : Nat := (args.tensors.map PlanTensor.bytes).foldl max 0

def fixedWorkingSet (args : PlanArgs) : Nat :=
  args.tensorBytes + args.dataStart + args.largestTensor + args.f32Bytes + args.extraBytes +
    (512 + args.prefillChunk) * 1024 * 1024

def perToken (args : PlanArgs) : Nat :=
  planLayers / fullInterval * args.kv.tokenBytes +
    args.mtpEnabled.toNat * 2 * KvFormat.f16.tokenBytes

end PlanArgs

open PlanArgs in
def memoryPlan (args : PlanArgs) : Except PlanError BonsaiInfo :=
  let explicit := decide (args.context ≠ 0)
  if explicit ∧ ¬(1 ≤ args.context ∧ args.context ≤ planTrainingContext) then .error .context
  else if ¬(1 ≤ args.prefillChunk ∧ args.prefillChunk ≤ maxPrefillTokens) then
    .error .prefillChunk
  else
    let cacheBytes := args.context * max args.kv.key.tokenBytes args.kv.value.tokenBytes
    if args.caps.maxBufferLength < max args.largestTensor cacheBytes then .error .bufferLimit
    else
      let fixed := args.fixedWorkingSet + fixedStateBytes
      let admitted :=
        if explicit then some args.context
        else fitContext fixed args.perToken args.caps.recommendedWorkingSet
      match admitted with
      | none => .error (.fixed fixed)
      | some context =>
        let estimated := fixed + context * args.perToken
        if args.caps.recommendedWorkingSet < estimated then .error (.workingSet estimated)
        else
          .ok {
            context
            contextExplicit := explicit
            prefillChunkSize := args.prefillChunk
            tensorBytes := args.tensorBytes
            stateBytes :=
              fixedStateBytes + planLayers / fullInterval * context * args.kv.tokenBytes
            estimatedWorkingSet := estimated
            workingSetLimit := args.caps.recommendedWorkingSet }

/-- `PlanError` as the source reports it. -/
def PlanError.text (args : PlanArgs) : PlanError → Text
  | .context => "Bonsai context must be within 1..=262144".toList
  | .prefillChunk => "Bonsai prefill chunk exceeds MAX_PREFILL_TOKENS".toList
  | .bufferLimit => "Bonsai tensor/KV cache exceeds device buffer limit".toList
  | .fixed needs =>
    s!"Bonsai fixed allocations need an estimated {needs} bytes; {args.caps.name} recommends {args.caps.recommendedWorkingSet}".toList
  | .workingSet needs =>
    (s!"Bonsai with {args.context}-token {args.kv.key.name} KV needs an estimated {needs} bytes; {args.caps.name} recommends {args.caps.recommendedWorkingSet}. " ++
      "Context/precision were not reduced; choose a smaller context or another model").toList

/-! ### Growth -/

namespace PlanArgs

/-- The bytes of a token in each kind of cache, the MTP head's included. -/
def cacheTokenBytes (args : PlanArgs) : List Nat :=
  [args.kv.key.tokenBytes, args.kv.value.tokenBytes] ++
    if args.mtpEnabled then [KvFormat.f16.tokenBytes, KvFormat.f16.tokenBytes] else []

def workingSet (args : PlanArgs) (context : Nat) : Nat :=
  args.fixedWorkingSet + fixedStateBytes +
    planLayers / fullInterval * context * args.kv.tokenBytes +
      if args.mtpEnabled then 2 * (context * KvFormat.f16.tokenBytes) else 0

def nineTenths (args : PlanArgs) : Nat := args.caps.recommendedWorkingSet / 10 * 9

def Eligible (args : PlanArgs) (context : Nat) : Prop :=
  if args.context = 0 then context ≤ planTrainingContext ∧ args.workingSet context ≤ args.nineTenths
  else context = args.context

/-- Every cache with the context is a buffer of the device. -/
def Holds (args : PlanArgs) (context : Nat) : Prop :=
  ∀ bytes ∈ args.cacheTokenBytes, context * bytes ≤ args.caps.maxBufferLength

end PlanArgs

/-- The new buffers of caches that hold `allocated` tokens and shall hold `stop`; nothing beyond the
context. -/
def reserveKv (args : PlanArgs) (context allocated stop : Nat) : Option (List Nat) :=
  if stop ≤ allocated then some []
  else if context < stop then none
  else
    let step := min allocated kvGrowthStep
    let target := min (max (allocated + step) stop) context
    some ((List.replicate (planLayers / fullInterval)
      [target * args.kv.key.tokenBytes, target * args.kv.value.tokenBytes]).flatten ++
        if args.mtpEnabled then
          [target * KvFormat.f16.tokenBytes, target * KvFormat.f16.tokenBytes]
        else [])

structure Grown (args : PlanArgs) (info : BonsaiInfo) : Prop where
  caches : args.Holds info.context
  sum : info.estimatedWorkingSet = args.workingSet info.context
  limit : info.estimatedWorkingSet ≤ args.caps.recommendedWorkingSet
  explicit : args.context ≠ 0 → info.context = args.context
  automatic : args.context = 0 → IsGreatest { context | args.Eligible context } info.context
  growth : ∀ allocated stop, stop ≤ info.context →
    ∃ buffers, reserveKv args info.context allocated stop = some buffers ∧
      ∀ bytes ∈ buffers, bytes ≤ args.caps.maxBufferLength

/-! ### The plan -/

variable {args : PlanArgs} {info : BonsaiInfo} {context : Nat}

theorem workingSet_eq (args : PlanArgs) (context : Nat) : args.workingSet context =
    args.fixedWorkingSet + fixedStateBytes + context * args.perToken := by
  unfold PlanArgs.workingSet PlanArgs.perToken
  cases args.mtpEnabled
  · simp only [Bool.toNat_false, Bool.false_eq_true, if_false]
    ring
  · simp only [Bool.toNat_true, if_true]
    ring

theorem perToken_pos (args : PlanArgs) : 0 < args.perToken := by
  have hk : 0 < args.kv.key.tokenBytes := by
    cases args.kv.key <;> decide
  unfold PlanArgs.perToken KvLayout.tokenBytes planLayers fullInterval
  omega

theorem fitContext_isGreatest {fixed perToken recommended : Nat} (hp : 0 < perToken)
    (h : fitContext fixed perToken recommended = some context) :
    IsGreatest { c | c ≤ planTrainingContext ∧ fixed + c * perToken ≤ recommended / 10 * 9 }
      context := by
  unfold fitContext at h
  dsimp only at h
  split at h
  · cases h
  · next hno =>
    split at h
    · cases h
    · obtain ⟨_, hlt⟩ := not_or.mp hno
      have hd := Nat.div_mul_le_self (recommended / 10 * 9 - fixed) perToken
      have hm : ∀ c, fixed + c * perToken ≤ recommended / 10 * 9 →
          c ≤ (recommended / 10 * 9 - fixed) / perToken := by
        intro c hc
        rw [Nat.le_div_iff_mul_le hp]
        omega
      cases h
      split
      · next hs =>
        exact ⟨⟨hs.le, by omega⟩, fun c hc => hm c hc.2⟩
      · next hl =>
        refine ⟨⟨le_rfl, ?_⟩, fun c hc => hc.1⟩
        have hmul := Nat.mul_le_mul_right perToken (not_lt.mp hl)
        omega

theorem memoryPlan_eq_ok (h : memoryPlan args = .ok info) :
    args.context * max args.kv.key.tokenBytes args.kv.value.tokenBytes ≤ args.caps.maxBufferLength ∧
      (args.context ≠ 0 → info.context = args.context) ∧
      (args.context = 0 → fitContext (args.fixedWorkingSet + fixedStateBytes) args.perToken
        args.caps.recommendedWorkingSet = some info.context) ∧
      info.estimatedWorkingSet = args.workingSet info.context ∧
      info.estimatedWorkingSet ≤ args.caps.recommendedWorkingSet := by
  unfold memoryPlan at h
  dsimp only at h
  split at h
  · cases h
  split at h
  · cases h
  split at h
  · cases h
  next hb =>
  split at h
  · cases h
  next context ha =>
  split at h
  · cases h
  next hl =>
  cases h
  refine ⟨(le_max_right _ _).trans (not_lt.mp hb), fun hne => ?_, fun hz => ?_,
    (workingSet_eq args context).symm, not_lt.mp hl⟩
  · rw [if_pos (decide_eq_true hne)] at ha
    exact (Option.some.inj ha).symm
  · rwa [if_neg (by simp [hz])] at ha

theorem isGreatest_eligible (h : memoryPlan args = .ok info) :
    IsGreatest { context | args.Eligible context } info.context := by
  obtain ⟨_, he, ha, _⟩ := memoryPlan_eq_ok h
  unfold PlanArgs.Eligible
  by_cases hz : args.context = 0
  · simp only [if_pos hz, workingSet_eq]
    exact fitContext_isGreatest (perToken_pos args) (ha hz)
  · simp only [if_neg hz, he hz]
    exact isGreatest_singleton

theorem holds_mono {more : Nat} (h : args.Holds more) (hle : context ≤ more) :
    args.Holds context :=
  fun bytes hb => (Nat.mul_le_mul_right bytes hle).trans (h bytes hb)

/-- A growth up to the context takes buffers that the context's own caches bound. -/
theorem reserveKv_within (h : args.Holds context) (allocated : Nat) {stop : Nat}
    (hs : stop ≤ context) : ∃ buffers, reserveKv args context allocated stop = some buffers ∧
      ∀ bytes ∈ buffers, bytes ≤ args.caps.maxBufferLength := by
  unfold reserveKv
  split
  · exact ⟨[], rfl, by simp⟩
  · rw [if_neg (not_lt.mpr hs)]
    refine ⟨_, rfl, ?_⟩
    have ht := holds_mono h
      (min_le_right (max (allocated + min allocated kvGrowthStep) stop) context)
    have hk := ht args.kv.key.tokenBytes (by simp [PlanArgs.cacheTokenBytes])
    have hv := ht args.kv.value.tokenBytes (by simp [PlanArgs.cacheTokenBytes])
    intro bytes hb
    rcases List.mem_append.mp hb with hl | hh
    · obtain ⟨layer, hmem, hin⟩ := List.mem_flatten.mp hl
      rw [List.eq_of_mem_replicate hmem] at hin
      rcases List.mem_pair.mp hin with rfl | rfl
      · exact hk
      · exact hv
    · split at hh
      · next hmtp =>
        have hf16 := ht KvFormat.f16.tokenBytes (by simp [PlanArgs.cacheTokenBytes, hmtp])
        rcases List.mem_pair.mp hh with rfl | rfl <;> exact hf16
      · cases hh

theorem not_workingSet (h : args.context = 0) (needs : Nat) :
    memoryPlan args ≠ .error (.workingSet needs) := by
  intro he
  unfold memoryPlan at he
  dsimp only at he
  split at he
  · cases he
  split at he
  · cases he
  split at he
  · cases he
  split at he
  · cases he
  next context ha =>
  rw [if_neg (by simp [h])] at ha
  have hf := (fitContext_isGreatest (perToken_pos args) ha).1.2
  split at he
  · omega
  · cases he

/-- An accepted plan can grow to its whole context exactly if every context it could admit has
caches that fit the device's buffers; and an automatic context passes the last check. -/
theorem memoryPlan_grown_iff (args : PlanArgs) : (∀ info, memoryPlan args = .ok info →
      (Grown args info ↔ ∀ context, args.Eligible context → args.Holds context)) ∧
    (args.context = 0 → ∀ needs, memoryPlan args ≠ .error (.workingSet needs)) := by
  refine ⟨fun info h => ?_, not_workingSet⟩
  have hg := isGreatest_eligible h
  obtain ⟨_, he, _, hsum, hl⟩ := memoryPlan_eq_ok h
  constructor
  · intro hgr context helig
    exact holds_mono hgr.caches (hg.2 helig)
  · intro ha
    have hc := ha info.context hg.1
    exact ⟨hc, hsum, hl, he, fun _ => hg, fun allocated _ hs => reserveKv_within hc allocated hs⟩

/-- An automatic context on a device whose buffers have 256 MiB at most. -/
def smallBuffers : PlanArgs where
  tensors := [⟨200000000, false⟩, ⟨10000000, true⟩]
  dataStart := 4096
  context := 0
  prefillChunk := 512
  extraBytes := 0
  mtpEnabled := false
  kv := ⟨.f16, .f16⟩
  caps := ⟨"GPU", 268435456, 51539607552⟩

/-- The plan admits the whole training context, and its caches are twice what a buffer may hold. -/
theorem small_buffers_overrun :
    ((memoryPlan smallBuffers).map BonsaiInfo.context).toOption = some 262144 ∧
      ¬smallBuffers.Holds 262144 := by
  refine ⟨by decide +kernel, fun hh => ?_⟩
  have hk := hh 2048 (by decide)
  exact absurd hk (by decide)

end LocalAi.Engine
