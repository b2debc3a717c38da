import Mathlib.Algebra.Order.Ring.Nat
import Mathlib.Algebra.Order.BigOperators.Group.List
import LocalAi.Vision.Images

/-!
# Expanding the pads of a prompt

The template writes one pad for an image or a video.  Generation replaces it by the part's
tokens; counting only adds up their number.

* `expandPrompt`: the prompt generation prefills, with its image spans.
* `expandLoop_induction`: the loop, an id or a part at a time.
* `length_expandLoop`, `shown_expandLoop`, `laid_expandLoop`: its length, its grids, and that
  its spans hold exactly the image tokens.
-/

open List

namespace LocalAi.Vision

open Lib (bind_eq_ok ensure ensure_eq_ok)

/-! ### Parts -/

def vocab : Nat := 248320

def visionStart : Nat := 248053

def visionEnd : Nat := 248054

def imagePad : Nat := 248056

def videoPad : Nat := 248057

/-- What a prompt needs of an image or frame group; `D` are the digests. -/
structure Grid (D : Type) where
  rows : Nat
  cols : Nat
  digest : D

variable {F D : Type}

def Grid.tokens (grid : Grid D) : Nat := grid.rows * grid.cols

/-- A frame group of a video: the tokens of its timestamp, the grid and its rows. -/
abbrev FrameGroup (F D : Type) := List Nat × Grid D × List F

inductive Visual (F D : Type)
  | image (grid : Grid D) (rows : List F)
  | video (groups : List (FrameGroup F D))

namespace Visual

/-- The template token this part's expansion replaces. -/
def pad : Visual F D → Nat
  | image .. => imagePad
  | video _ => videoPad

def len : Visual F D → Nat
  | image grid _ => grid.tokens
  | video groups => (groups.map fun group => group.1.length + group.2.1.tokens + 2).sum

def grids : Visual F D → List (Grid D × List F)
  | image grid rows => [(grid, rows)]
  | video groups => groups.map Prod.snd

def texts : Visual F D → List (List Nat)
  | image .. => []
  | video groups => groups.map Prod.fst

end Visual

/-! ### The pads -/

def isPad (id : Nat) : Bool := id = imagePad || id = videoPad

def padsMatch : List Nat → List Nat → Bool
  | [], [] => true
  | id :: ids, expected :: rest => id = expected && padsMatch ids rest
  | _, _ => false

def checkPads (ids : List Nat) (visuals : List (Visual F D)) : Except Text Unit :=
  ensure (padsMatch (ids.filter isPad) (visuals.map Visual.pad))
    ("the prompt's <|image_pad|> and <|video_pad|> tokens do not match its ".toList ++
      Nat.toDigits 10 visuals.length ++
      " images and videos; message text may not contain them".toList)

theorem padsMatch_iff {ids expected : List Nat} :
    padsMatch ids expected = true ↔ ids = expected := by
  induction ids generalizing expected with
  | nil => cases expected <;> simp [padsMatch]
  | cons id ids ih => cases expected <;> simp [padsMatch, ih]

theorem checkPads_eq_ok {ids : List Nat} {visuals : List (Visual F D)} :
    checkPads ids visuals = .ok () ↔ ids.filter isPad = visuals.map Visual.pad := by
  rw [checkPads, ensure_eq_ok, padsMatch_iff]

/-! ### The prompt -/

section Expand

-- The number that SHA-256 gives a token of an image, for one projector.
variable (hash : D → Nat → Nat)

def imageTokenId (image : D) (index : Nat) : Nat :=
  vocab + hash image index % (2 ^ 32 - 1 - vocab)

/-- What the loop of `expand_prompt` has written. -/
structure Expansion (F : Type) where
  expanded : List Nat
  spans : List (ImageSpan F)

namespace Expansion

def push (e : Expansion F) (ids : List Nat) : Expansion F := { e with expanded := e.expanded ++ ids }

/-- The tokens of a grid; the source counts them with a `u32`. -/
def grid (e : Expansion F) (image : Grid D) (embedding : List F) : Expansion F where
  expanded := e.expanded ++ (List.range (image.tokens % 2 ^ 32)).map (imageTokenId hash image.digest)
  spans := e.spans ++ [⟨e.expanded.length, image.rows, image.cols, embedding⟩]

def group (e : Expansion F) (group : FrameGroup F D) : Expansion F :=
  (((e.push group.1).push [visionStart]).grid hash group.2.1 group.2.2).push [visionEnd]

def part (e : Expansion F) : Visual F D → Expansion F
  | .image image embedding => e.grid hash image embedding
  | .video groups => groups.foldl (group hash) e

end Expansion

def expandLoop : List Nat → List (Visual F D) → Expansion F → Expansion F
  | [], _, e => e
  | id :: ids, next, e =>
    if isPad id then
      match next with
      | visual :: next => expandLoop ids next (e.part hash visual)
      | [] => e
    else expandLoop ids next (e.push [id])

def expandPrompt (ids : List Nat) (visuals : List (Visual F D)) :
    Except Text (List Nat × PromptImages F) := do
  checkPads ids visuals
  let e := expandLoop hash ids visuals ⟨[], []⟩
  let images ← PromptImages.new e.spans
  pure (e.expanded, images)

/-- The prompt length `ids` expands to; the rows of `visuals` are not read.  A part without tokens
underflows. -/
def expandedLen (ids : List Nat) (visuals : List (Visual F D)) : Except Text Nat := do
  checkPads ids visuals
  ensure (∀ visual ∈ visuals, 1 ≤ visual.len) "attempt to subtract with overflow".toList
  pure (ids.length + (visuals.map fun visual => visual.len - 1).sum)

end Expand

/-! ### The loop, part by part -/

variable {visual : Visual F D}

section Loop

variable {hash : D → Nat → Nat} {ids : List Nat} {visuals : List (Visual F D)} {e : Expansion F}

/-- With matching pads, what every id and every part keeps holds of the whole prompt; `n` ids
and the parts `done` have been laid out. -/
theorem expandLoop_induction {P : Nat → List (Visual F D) → Expansion F → Prop}
    (hp : ids.filter isPad = visuals.map Visual.pad)
    (hid : ∀ n done e, P n done e → ∀ id ∈ ids, P (n + 1) done (e.push [id]))
    (hpart : ∀ n done e, P n done e → ∀ visual ∈ visuals,
      P (n + 1) (done ++ [visual]) (e.part hash visual))
    {n : Nat} {done : List (Visual F D)} (h : P n done e) :
    P (n + ids.length) (done ++ visuals) (expandLoop hash ids visuals e) := by
  induction ids generalizing visuals e n done with
  | nil =>
    have hn : visuals = [] := by simpa using hp.symm
    subst hn
    simpa [expandLoop] using h
  | cons id ids ih =>
    have hr : ∀ n done e, P n done e → ∀ id ∈ ids, P (n + 1) done (e.push [id]) :=
      fun n done e he i hi => hid n done e he i (mem_cons_of_mem _ hi)
    have hc : n + (id :: ids).length = n + 1 + ids.length := by
      rw [length_cons]
      omega
    rw [hc]
    unfold expandLoop
    split
    · next hpad =>
      rw [filter_cons_of_pos hpad] at hp
      cases visuals with
      | nil => simp at hp
      | cons visual =>
        rw [map_cons, cons.injEq] at hp
        have hf := hpart n done e h visual mem_cons_self
        have hl := ih hp.2 hr
          (fun n done e he v hv => hpart n done e he v (mem_cons_of_mem _ hv)) hf
        rwa [append_assoc] at hl
    · next hpad =>
      rw [filter_cons_of_neg hpad] at hp
      exact ih hp hr hpart (hid n done e h id mem_cons_self)

theorem expandLoop_start (hash : D → Nat → Nat) {P : Nat → List (Visual F D) → Expansion F → Prop}
    (hpa : ids.filter isPad = visuals.map Visual.pad) (h : P 0 [] ⟨[], []⟩)
    (hid : ∀ n done e, P n done e → ∀ id ∈ ids, P (n + 1) done (e.push [id]))
    (hp : ∀ n done e, P n done e → ∀ visual ∈ visuals,
      P (n + 1) (done ++ [visual]) (e.part hash visual)) :
    P ids.length visuals (expandLoop hash ids visuals ⟨[], []⟩) := by
  have hall := expandLoop_induction hpa hid hp h
  rwa [Nat.zero_add, nil_append] at hall

/-- Grids whose tokens a `u32` counts. -/
def Visual.Small (visual : Visual F D) : Prop := ∀ grid ∈ visual.grids, grid.1.tokens < 2 ^ 32

theorem length_part (hs : visual.Small) :
    (e.part hash visual).expanded.length = e.expanded.length + visual.len := by
  cases visual with
  | image grid rows =>
    have hgrid : grid.tokens < 2 ^ 32 := hs (grid, rows) (by simp [Visual.grids])
    simpa [Expansion.part, Expansion.grid, Visual.len] using hgrid
  | video groups =>
    have hgroups : ∀ group ∈ groups, group.2.1.tokens < 2 ^ 32 := fun group hgroup =>
      hs group.2 (mem_map_of_mem hgroup)
    clear hs
    show (groups.foldl (Expansion.group hash) e).expanded.length = e.expanded.length +
      (groups.map fun group => group.1.length + group.2.1.tokens + 2).sum
    induction groups generalizing e with
    | nil => simp
    | cons group groups ih =>
      have hm := Nat.mod_eq_of_lt (hgroups group mem_cons_self)
      rw [foldl_cons, ih fun g hg => hgroups g (mem_cons_of_mem _ hg), map_cons, sum_cons]
      simp only [Expansion.group, Expansion.push, Expansion.grid, length_append,
        length_map, length_range, length_singleton, hm]
      omega

theorem length_expandLoop (hp : ids.filter isPad = visuals.map Visual.pad)
    (hs : ∀ visual ∈ visuals, visual.Small) (hl : ∀ visual ∈ visuals, 1 ≤ visual.len) :
    (expandLoop hash ids visuals ⟨[], []⟩).expanded.length =
      ids.length + (visuals.map fun visual => visual.len - 1).sum := by
  refine expandLoop_start hash
    (P := fun n done e => e.expanded.length = n + (done.map fun visual => visual.len - 1).sum)
    hp rfl ?_ ?_
  · intro n done e he id _
    simp only [Expansion.push, length_append, length_singleton, he]
    omega
  · intro n done e he visual hv
    have := hl visual hv
    rw [length_part (hs visual hv), he, map_append, sum_append, map_singleton, sum_singleton]
    omega

def ImageSpan.shown (span : ImageSpan F) : Nat × Nat × List F := (span.rows, span.cols, span.embedding)

def shownGrid (grid : Grid D × List F) : Nat × Nat × List F := (grid.1.rows, grid.1.cols, grid.2)

theorem shown_part : (e.part hash visual).spans.map ImageSpan.shown =
      e.spans.map ImageSpan.shown ++ visual.grids.map shownGrid := by
  cases visual with
  | image =>
    rw [Expansion.part, Expansion.grid, map_append]
    rfl
  | video groups =>
    show (groups.foldl (Expansion.group hash) e).spans.map ImageSpan.shown =
      e.spans.map ImageSpan.shown ++ (groups.map Prod.snd).map shownGrid
    induction groups generalizing e with
    | nil => simp
    | cons group groups ih =>
      rw [foldl_cons, ih]
      simp [Expansion.group, Expansion.push, Expansion.grid, ImageSpan.shown, shownGrid]

theorem shown_expandLoop (hp : ids.filter isPad = visuals.map Visual.pad) :
    (expandLoop hash ids visuals ⟨[], []⟩).spans.map ImageSpan.shown =
      (visuals.flatMap Visual.grids).map shownGrid := by
  refine expandLoop_start hash
    (P := fun _ done e => e.spans.map ImageSpan.shown = (done.flatMap Visual.grids).map shownGrid)
    hp rfl (fun n done e he id _ => he) fun n done e he visual _ => ?_
  rw [shown_part, he, flatMap_append, map_append, flatMap_singleton]

end Loop

/-! ### Image tokens and spans -/

/-- The image tokens written are exactly those the spans hold. -/
structure Laid (e : Expansion F) : Prop where
  apart : e.spans.Pairwise fun a b => a.stop ≤ b.start
  inside : ∀ span ∈ e.spans, span.stop ≤ e.expanded.length
  covers : ∀ position (h : position < e.expanded.length),
    (∃ span ∈ e.spans, span.Holds position) ↔ vocab ≤ e.expanded[position]

theorem laid_nil : Laid (⟨[], []⟩ : Expansion F) := ⟨.nil, by simp, by simp⟩

section Laid

variable {hash : D → Nat → Nat} {e : Expansion F}

theorem Laid.push (h : Laid e) {ids : List Nat} (hi : ∀ id ∈ ids, id < vocab) :
    Laid (e.push ids) := by
  refine ⟨h.apart, fun span hs => ?_, fun position hlt => ?_⟩
  · have := h.inside span hs
    simp only [Expansion.push, length_append]
    omega
  · simp only [Expansion.push] at hlt ⊢
    by_cases hold : position < e.expanded.length
    · rw [getElem_append_left hold]
      exact h.covers position hold
    · rw [getElem_append_right (by omega)]
      have hn := hi _ (getElem_mem (l := ids) (n := position - e.expanded.length)
        (by rw [length_append] at hlt; omega))
      constructor
      · rintro ⟨span, hs, -, hst⟩
        have := h.inside span hs
        omega
      · intro hle
        omega

theorem Laid.grid (h : Laid e) {grid : Grid D} (hsm : grid.tokens < 2 ^ 32)
    (embedding : List F) : Laid (e.grid hash grid embedding) := by
  have hlen : (e.grid hash grid embedding).expanded.length = e.expanded.length + grid.tokens := by
    simpa [Expansion.grid] using hsm
  have hsp : (e.grid hash grid embedding).spans =
      e.spans ++ [⟨e.expanded.length, grid.rows, grid.cols, embedding⟩] := rfl
  have hst : (⟨e.expanded.length, grid.rows, grid.cols, embedding⟩ : ImageSpan F).stop =
      e.expanded.length + grid.tokens := rfl
  refine ⟨?_, ?_, ?_⟩
  · rw [hsp, pairwise_append]
    refine ⟨h.apart, by simp, fun a ha b hb => ?_⟩
    rw [mem_singleton.mp hb]
    exact h.inside a ha
  · rw [hsp, hlen, forall_mem_append]
    refine ⟨fun span hs => ?_, fun span hs => ?_⟩
    · have := h.inside span hs
      omega
    · rw [mem_singleton.mp hs, hst]
  · intro position hlt
    rw [hsp]
    by_cases hold : position < e.expanded.length
    · have hg : (e.grid hash grid embedding).expanded[position] = e.expanded[position] :=
        getElem_append_left hold
      rw [hg, ← h.covers position hold]
      constructor
      · rintro ⟨span, hs, hh⟩
        rcases mem_append.mp hs with hs | hs
        · exact ⟨span, hs, hh⟩
        · rw [mem_singleton.mp hs] at hh
          exact absurd hh.1 (by simpa using hold)
      · rintro ⟨span, hs, hh⟩
        exact ⟨span, mem_append_left _ hs, hh⟩
    · have hv : vocab ≤ (e.grid hash grid embedding).expanded[position] := by
        have hg : (e.grid hash grid embedding).expanded[position] =
            imageTokenId hash grid.digest (position - e.expanded.length) := by
          simp only [Expansion.grid]
          rw [getElem_append_right (by omega)]
          simp
        rw [hg]
        exact Nat.le_add_right _ _
      refine ⟨fun _ => hv, fun _ => ⟨_, mem_append_right _ mem_cons_self, ?_, ?_⟩⟩
      · show e.expanded.length ≤ position
        omega
      · rw [hst]
        omega

def Visual.Plain (visual : Visual F D) : Prop := ∀ text ∈ visual.texts, ∀ id ∈ text, id < vocab

theorem Laid.part (h : Laid e) (hs : visual.Small)
    (hp : visual.Plain) : Laid (e.part hash visual) := by
  cases visual with
  | image grid rows => exact h.grid (hs (grid, rows) (by simp [Visual.grids])) rows
  | video groups =>
    have hgr : ∀ group ∈ groups, group.2.1.tokens < 2 ^ 32 := fun group hg =>
      hs group.2 (mem_map_of_mem hg)
    have ht : ∀ group ∈ groups, ∀ id ∈ group.1, id < vocab := fun group hg =>
      hp group.1 (mem_map_of_mem hg)
    have hm : ∀ id ∈ [visionStart, visionEnd], id < vocab := by decide
    rw [forall_mem_cons] at hm
    clear hs hp
    induction groups generalizing e with
    | nil => exact h
    | cons group groups ih =>
      rw [forall_mem_cons] at hgr ht
      have ho : ∀ id ∈ [visionStart], id < vocab := by simpa using hm.1
      have hg : Laid (e.group hash group) :=
        (((h.push ht.1).push ho).grid hgr.1 group.2.2).push hm.2
      exact ih hg hgr.2 ht.2

theorem laid_expandLoop {ids : List Nat} {visuals : List (Visual F D)}
    (hpa : ids.filter isPad = visuals.map Visual.pad) (hids : ∀ id ∈ ids, id < vocab)
    (hs : ∀ visual ∈ visuals, visual.Small) (hp : ∀ visual ∈ visuals, visual.Plain) :
    Laid (expandLoop hash ids visuals ⟨[], []⟩) := by
  refine expandLoop_start hash (P := fun _ _ e => Laid e) hpa laid_nil ?_ ?_
  · intro n done e he id hid
    exact he.push (by simpa using hids id hid)
  · intro n done e he visual hv
    exact he.part (hs visual hv) (hp visual hv)

end Laid

/-! ### The two paths -/

section Paths

variable {hash : D → Nat → Nat} {ids : List Nat} {visuals : List (Visual F D)}

theorem expandedLen_eq_ok {length : Nat} :
    expandedLen ids visuals = .ok length ↔ checkPads ids visuals = .ok () ∧
      (∀ visual ∈ visuals, 1 ≤ visual.len) ∧
      ids.length + (visuals.map fun visual => visual.len - 1).sum = length := by
  simp only [expandedLen, bind_eq_ok]
  constructor
  · rintro ⟨u, hp, v, hpos, hl⟩
    exact ⟨hp, of_decide_eq_true (ensure_eq_ok.mp hpos), Except.ok.inj hl⟩
  · rintro ⟨hp, hpos, rfl⟩
    exact ⟨(), hp, (), ensure_eq_ok.mpr (decide_eq_true hpos), rfl⟩

theorem expandedLen_congr {F' : Type} {visuals' : List (Visual F' D)}
    (hp : visuals'.map Visual.pad = visuals.map Visual.pad)
    (hl : visuals'.map Visual.len = visuals.map Visual.len) :
    expandedLen ids visuals' = expandedLen ids visuals := by
  have hc : visuals'.length = visuals.length := by simpa using congrArg length hp
  have hs : (visuals'.map fun visual => visual.len - 1) =
      visuals.map fun visual => visual.len - 1 := by
    simpa [Function.comp_def] using congrArg (map fun n => n - 1) hl
  have hpos : (∀ visual ∈ visuals', 1 ≤ visual.len) ↔ ∀ visual ∈ visuals, 1 ≤ visual.len := by
    rw [← forall_mem_map (P := fun n => 1 ≤ n), hl, forall_mem_map]
  simp only [expandedLen, checkPads, hp, hc, hs, hpos]

theorem len_le_expandedLen (hp : ids.filter isPad = visuals.map Visual.pad)
    (hm : visual ∈ visuals) :
    visual.len ≤ ids.length + (visuals.map fun visual => visual.len - 1).sum := by
  have hpad : 1 ≤ ids.length :=
    calc 1 ≤ (visuals.map Visual.pad).length := by
          rw [length_map]
          exact length_pos_of_mem hm
      _ = (ids.filter isPad).length := by rw [hp]
      _ ≤ ids.length := length_filter_le _ _
  have hs : visual.len - 1 ≤ (visuals.map fun visual => visual.len - 1).sum :=
    single_le_sum (by simp) _ (mem_map_of_mem hm)
  omega

theorem tokens_le_len {grid : Grid D × List F} (h : grid ∈ visual.grids) :
    grid.1.tokens ≤ visual.len := by
  cases visual with
  | image =>
    rw [mem_singleton.mp h]
    exact le_rfl
  | video groups =>
    obtain ⟨group, hg, rfl⟩ := mem_map.mp h
    have hs : group.1.length + group.2.1.tokens + 2 ≤ Visual.len (.video groups) :=
      single_le_sum (by simp) _ (mem_map_of_mem
        (f := fun group : FrameGroup F D => group.1.length + group.2.1.tokens + 2) hg)
    omega

theorem expandPrompt_eq_ok {expanded : List Nat} {images : PromptImages F} :
    expandPrompt hash ids visuals = .ok (expanded, images) ↔ checkPads ids visuals = .ok () ∧
      (expandLoop hash ids visuals ⟨[], []⟩).expanded = expanded ∧
      images.spans = (expandLoop hash ids visuals ⟨[], []⟩).spans := by
  simp only [expandPrompt, bind_eq_ok]
  constructor
  · rintro ⟨u, hp, images', hi, h⟩
    cases h
    exact ⟨hp, rfl, PromptImages.new_eq_ok.mp hi⟩
  · rintro ⟨hp, rfl, hi⟩
    exact ⟨(), hp, images, PromptImages.new_eq_ok.mpr hi, rfl⟩

/-- The spans of the loop, as `PromptImages::new` checks them. -/
theorem sized_iff (hp : ids.filter isPad = visuals.map Visual.pad) :
    (∀ span ∈ (expandLoop hash ids visuals ⟨[], []⟩).spans, span.Sized) ↔
      ∀ visual ∈ visuals, ∀ grid ∈ visual.grids,
        grid.1.tokens ≠ 0 ∧ grid.2.length = grid.1.tokens * width := by
  have hs : ∀ span : ImageSpan F, span.Sized ↔
      span.shown.1 * span.shown.2.1 ≠ 0 ∧
        span.shown.2.2.length = span.shown.1 * span.shown.2.1 * width :=
    fun span => ⟨fun h => ⟨h.tokens, h.embedding⟩, fun h => ⟨h.1, h.2⟩⟩
  have hm := forall_mem_map (f := ImageSpan.shown)
    (l := (expandLoop hash ids visuals ⟨[], []⟩).spans)
    (P := fun shown => shown.1 * shown.2.1 ≠ 0 ∧ shown.2.2.length = shown.1 * shown.2.1 * width)
  simp only [hs]
  rw [← hm, shown_expandLoop hp, forall_mem_map, forall_mem_flatMap]
  rfl

theorem expandPrompt_isOk (hi : ∀ id ∈ ids, id < vocab)
    (hs : ∀ visual ∈ visuals, visual.Small) (hpl : ∀ visual ∈ visuals, visual.Plain)
    (hr : ∀ visual ∈ visuals, ∀ grid ∈ visual.grids,
      grid.1.tokens ≠ 0 ∧ grid.2.length = grid.1.tokens * width)
    (hp : checkPads ids visuals = .ok ()) :
    ∃ expanded images, expandPrompt hash ids visuals = .ok (expanded, images) := by
  have hp' := checkPads_eq_ok.mp hp
  have hl : Laid (expandLoop hash ids visuals ⟨[], []⟩) :=
    laid_expandLoop hp' hi hs hpl
  have hv : validFrom 0 (expandLoop hash ids visuals ⟨[], []⟩).spans = true :=
    validFrom_iff.mpr ⟨(sized_iff hp').mpr hr, fun _ _ => Nat.zero_le _, hl.apart⟩
  exact ⟨_, ⟨_, hv⟩, expandPrompt_eq_ok.mpr ⟨hp, rfl, rfl⟩⟩

end Paths

end LocalAi.Vision
