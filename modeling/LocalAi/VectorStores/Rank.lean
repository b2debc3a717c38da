import LocalAi.Lib.Except
import LocalAi.Lib.TopK
import Mathlib.Data.Finset.Sort

/-!
# The dense ranking of chunks

A search scores every embedded chunk of the files it may see against every query.  It keeps a list
of hits for each query and prunes it whenever it has grown to four times the depth.

* `keepBest`: the best hits, by a partial selection and a sort.
* `rankDense_sorted`: each list is the start of the full sort.
-/

open List

namespace LocalAi.VectorStores

open LocalAi.Lib

/-- A stored value no writer of this store writes. -/
inductive StoreError
  | corrupt (what : String)

variable {Id V S Query : Type}

/-- A row of `vector_store_embeddings`. -/
structure EmbeddingRow where
  ordinal : Int
  vector : List UInt8

def unsigned (value : Int) : Except StoreError Nat :=
  if 0 ≤ value then .ok value.toNat else .error (.corrupt "integer")

/-- An attachment and the ordinal of its chunk. -/
abbrev ChunkKey (Id : Type) := Lex (Id × Nat)

abbrev Hit (Id S : Type) := ChunkKey Id × S

def hitOrder (hit : Hit Id S) : Lex (OrderDual S × ChunkKey Id) :=
  toLex (OrderDual.toDual hit.2, hit.1)

theorem hitOrder_injective : Function.Injective (@hitOrder Id S) := by
  intro x y h
  have hp := Prod.mk.inj (toLex.injective h)
  exact Prod.ext hp.2 (OrderDual.toDual.injective hp.1)

variable [LinearOrder Id] [LinearOrder S]

def keepBest (selection : Selection (@hitOrder Id S)) (hits : List (Hit Id S))
    (depth : Nat) : List (Hit Id S) := keepFirst selection depth hits

/-- One more hit, and pruning when there are many. -/
def pushHit (selection : Selection (@hitOrder Id S)) (depth : Nat)
    (top : List (Hit Id S)) (hit : Hit Id S) : List (Hit Id S) :=
  let top := top ++ [hit]
  -- `depth.saturating_mul(4).max(64)`
  if max (min (depth * 4) (2 ^ 64 - 1)) 64 ≤ top.length then keepBest selection top depth else top

def readRow (decode : List UInt8 → Option V) (file : Id) (row : EmbeddingRow) :
    Except StoreError (ChunkKey Id × V) := do
  let ordinal ← unsigned row.ordinal
  let vector ← (decode row.vector).elim (.error (.corrupt "chunk vector")) .ok
  pure (toLex (file, ordinal), vector)

def rankDense (selection : Selection (@hitOrder Id S))
    (decode : Query → List UInt8 → Option V) (cosine : Query → V → S)
    (rows : Id → List EmbeddingRow) (files : List Id) (embedded : Id → Bool)
    (queries : List Query) (depth : Nat) : Except StoreError (List (List (Hit Id S))) :=
  let tops := queries.map fun _ => []
  match files, queries with
  | [], _ | _, [] => .ok tops
  | _, first :: _ => do
    -- the width of a vector is that of the first query
    let tops ← (files.filter embedded).foldlM (fun tops file =>
      (rows file).foldlM (fun tops row => do
        let chunk ← readRow (decode first) file row
        pure (List.zipWith (fun query top =>
          pushHit selection depth top (chunk.1, cosine query chunk.2)) queries tops)) tops) tops
    pure (tops.map fun top => keepBest selection top depth)

/-! ### The stream of chunks -/

def chunksRead (decode : List UInt8 → Option V) (rows : Id → List EmbeddingRow) (files : List Id)
    (embedded : Id → Bool) : Except StoreError (List (ChunkKey Id × V)) :=
  ((files.filter embedded).flatMap fun file => (rows file).map fun row => (file, row)).mapM
    fun row => readRow decode row.1 row.2

def hitsOf (cosine : Query → V → S) (query : Query) (chunks : List (ChunkKey Id × V)) :
    List (Hit Id S) := chunks.map fun chunk => (chunk.1, cosine query chunk.2)

def rankedBefore (left right : Hit Id S) : Bool :=
  decide (right.2 < left.2 ∨ right.2 = left.2 ∧ left.1 ≤ right.1)

theorem byKey_hitOrder : byKey (@hitOrder Id S) = rankedBefore := by
  funext left right
  unfold byKey rankedBefore hitOrder
  refine decide_eq_decide.mpr ?_
  rw [Prod.Lex.toLex_le_toLex]
  constructor
  · rintro (hlt | ⟨heq, hle⟩)
    · exact Or.inl hlt
    · exact Or.inr ⟨heq.symm, hle⟩
  · rintro (hlt | ⟨heq, hle⟩)
    · exact Or.inl hlt
    · exact Or.inr ⟨heq.symm, hle⟩

/-! ### Pruning -/

variable {selection : Selection (@hitOrder Id S)} {depth : Nat}

theorem keepBest_eq (hd : 1 ≤ depth) (hits : List (Hit Id S)) :
    keepBest selection hits depth = best hitOrder depth hits :=
  keepFirst_eq hitOrder_injective selection hd

theorem best_pushHit (hd : 1 ≤ depth) (top : List (Hit Id S)) (hit : Hit Id S) :
    best hitOrder depth (pushHit selection depth top hit) = best hitOrder depth (top ++ [hit]) := by
  unfold pushHit
  dsimp only
  split
  · have hf : best hitOrder depth (best hitOrder depth (top ++ [hit]) ++ []) =
        best hitOrder depth (top ++ [hit] ++ []) := best_append hitOrder_injective
    rw [append_nil, append_nil] at hf
    rwa [keepBest_eq hd]
  · rfl

theorem foldl_zipWith {chunks : List (ChunkKey Id × V)} (cosine : Query → V → S)
    (queries : List Query) (top : Query → List (Hit Id S)) :
    chunks.foldl (fun tops chunk => zipWith (fun query top =>
        pushHit selection depth top (chunk.1, cosine query chunk.2)) queries tops)
      (queries.map top) =
    queries.map fun query => (hitsOf cosine query chunks).foldl (pushHit selection depth)
      (top query) := by
  induction chunks generalizing top with
  | nil => rfl
  | cons chunk chunks ih =>
    rw [foldl_cons, zipWith_map_right, zipWith_self, ih]
    rfl

omit [LinearOrder Id] [LinearOrder S] in
theorem foldlM_readRow {decode : List UInt8 → Option V} {tops : List (List (Hit Id S))}
    {step : List (List (Hit Id S)) → ChunkKey Id × V → List (List (Hit Id S))}
    {rows : List (Id × EmbeddingRow)} {chunks : List (ChunkKey Id × V)}
    (h : rows.mapM (fun row => readRow decode row.1 row.2) = .ok chunks) :
    rows.foldlM (fun tops row => do
      let chunk ← readRow decode row.1 row.2
      pure (step tops chunk)) tops = .ok (chunks.foldl step tops) := by
  have hr := mapM_eq_ok.mp h
  clear h
  induction hr generalizing tops with
  | nil => rfl
  | cons hrow _ ih =>
    rw [foldlM_cons, hrow]
    exact ih

/-- **Bounded ranking is the full sort**: in whatever order files and rows are read, each list is
the start of all hits, sorted best first with ties by chunk key. -/
theorem rankDense_sorted (selection : Selection (@hitOrder Id S))
    (decode : Query → List UInt8 → Option V) (cosine : Query → V → S)
    (rows rows' : Id → List EmbeddingRow) (files files' : List Id) (embedded : Id → Bool)
    (queries : List Query) {chunks : List (ChunkKey Id × V)} (hdepth : 1 ≤ depth)
    (hread : ∀ first ∈ queries.head?, chunksRead (decode first) rows files embedded = .ok chunks)
    (hfiles : files'.Perm files) (hrows : ∀ file, (rows' file).Perm (rows file)) :
    rankDense selection decode cosine rows' files' embedded queries depth =
      .ok (queries.map fun query =>
        ((hitsOf cosine query chunks).mergeSort rankedBefore).take depth) := by
  rw [← byKey_hitOrder]
  cases queries with
  | nil => cases files' <;> rfl
  | cons first queries =>
    have hread := hread first rfl
    cases files' with
    | nil =>
      rw [nil_perm.mp hfiles] at hread
      cases hread
      unfold hitsOf
      simp [rankDense, mergeSort_nil]
    | cons file files' =>
      have hf : (((file :: files').filter embedded).flatMap fun file =>
          (rows' file).map fun row => (file, row)).Perm ((files.filter embedded).flatMap fun file =>
            (rows file).map fun row => (file, row)) :=
        List.Perm.flatMap (hfiles.filter embedded) fun file _ => (hrows file).map _
      obtain ⟨chunks', hread', hp⟩ := mapM_perm hf hread
      have hl : ((file :: files').filter embedded).foldlM (fun tops file =>
          (rows' file).foldlM (fun tops row => do
            let chunk ← readRow (decode first) file row
            pure (zipWith (fun query top =>
              pushHit selection depth top (chunk.1, cosine query chunk.2)) (first :: queries) tops))
            tops) ((first :: queries).map fun _ => []) =
          .ok ((first :: queries).map fun query =>
            (hitsOf cosine query chunks').foldl (pushHit selection depth) []) := by
        rw [← foldl_zipWith cosine (first :: queries) fun _ => [], ← foldlM_readRow hread',
          foldlM_flatMap]
        simp only [foldlM_map]
      refine bind_eq_ok.mpr ⟨_, hl, ?_⟩
      rw [map_map]
      congr 1
      refine map_congr_left fun query _ => ?_
      rw [Function.comp_apply, keepBest_eq hdepth, foldl_best hitOrder_injective
        fun top hit => best_pushHit hdepth top hit, nil_append]
      exact best_perm hitOrder_injective (hp.map _)

theorem tied_files_ranked :
    rankDense (Selection.sort hitOrder) (fun (_ : Nat) bytes => some bytes.length)
      (fun query length => query * length)
      (fun file => if file = 1 then [⟨1, [1, 1]⟩, ⟨0, [1]⟩] else [⟨0, [1, 1]⟩]) [2, 1]
      (fun _ => true) [3, 4] 1 =
    .ok ([3, 4].map fun query => ((hitsOf (fun query length => query * length) query
      [(toLex (1, 0), 1), (toLex (1, 1), 2), (toLex (2, 0), 2)]).mergeSort rankedBefore).take 1) := by
  refine rankDense_sorted (Selection.sort hitOrder) _ _
    (fun file => if file = 1 then [⟨0, [1]⟩, ⟨1, [1, 1]⟩] else [⟨0, [1, 1]⟩]) _ [1, 2] _
    (fun _ => true) [3, 4] (le_refl 1) ?_ (List.Perm.swap 1 2 []) fun file => ?_
  · rintro first ⟨⟩
    rfl
  · by_cases hf : file = 1
    · rw [if_pos hf, if_pos hf]
      exact List.Perm.swap _ _ []
    · rw [if_neg hf, if_neg hf]

end LocalAi.VectorStores
