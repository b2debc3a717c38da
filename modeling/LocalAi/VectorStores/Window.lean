import LocalAi.Lib.Cursor
import LocalAi.Lib.Except
import LocalAi.Lib.System
import LocalAi.Lib.TopK
import LocalAi.Tools.Json
import Mathlib.Data.List.Perm.Subperm
import Mathlib.Algebra.Group.Int.Defs

/-!
# Pages of a listing

Stores and their files are listed in the order of `seq`, in pages that are bounded by the cursors
`after` and `before`.

* `list_window`: what a page holds of the rows inside its window.
* `Way`, `Walk`, `walks`: following the cursors while rows are inserted and deleted.
* `walk_alone`: rows outside the scope do not matter.
* `cursors_walk`: a walk shows every row once, in order.
-/

open List

namespace LocalAi.VectorStores

open LocalAi.Lib

def i64Min : Int := -2 ^ 63

def i64Max : Int := 2 ^ 63 - 1

def defaultListLimit : Nat := 20

def maxListLimit : Nat := 100

structure Row (α : Type) where
  seq : Int
  id : Text
  data : α
  range : i64Min ≤ seq ∧ seq ≤ i64Max
deriving DecidableEq

inductive ListOrder
  | asc
  | desc
deriving DecidableEq

inductive FileStatus
  | inProgress
  | completed
  | failed
  | cancelled
deriving DecidableEq

structure ListQuery where
  limit : Option Nat
  order : ListOrder
  after : Option Text
  before : Option Text
  filter : Option FileStatus

inductive ListError
  | invalid (message : Text)
  | notFound (message : Text)

/-- A cursor window over a collection in the order of `seq`. -/
structure Window where
  limit : Nat
  low : Int
  high : Int
  /-- Scan in ascending `seq` order. -/
  ascending : Bool
  /-- The scan runs against the list order. -/
  reversed : Bool

def Window.new (query : ListQuery) (seq : Text → Except ListError Int) :
    Except ListError Window := do
  let limit := query.limit.getD defaultListLimit
  if ¬ (1 ≤ limit ∧ limit ≤ maxListLimit) then
    .error (.invalid ("limit must be between 1 and ".toList ++ Nat.toDigits 10 maxListLimit))
  else do
    let after ← query.after.mapM seq
    let before ← query.before.mapM seq
    let descending := decide (query.order = .desc)
    let (low, high) :=
      if descending then (before.getD i64Min, after.getD i64Max)
      else (after.getD i64Min, before.getD i64Max)
    let reversed := before.isSome && after.isNone
    pure { limit, low, high, ascending := descending == reversed, reversed }

section Rows

variable {α : Type}

/-- The key of `ORDER BY seq ASC` or `DESC`. -/
def direction (ascending : Bool) (row : Row α) : Int := if ascending then row.seq else -row.seq

/-- The rows of `WHERE seq > low AND seq < high AND condition ORDER BY seq LIMIT limit + 1`. -/
def Window.select (window : Window) (condition : Row α → Bool) (rows : List (Row α)) :
    List (Row α) :=
  best (direction window.ascending) (window.limit + 1) (rows.filter fun row =>
    decide (window.low < row.seq) && decide (row.seq < window.high) && condition row)

def Window.ids (window : Window) (condition : Row α → Bool) (rows : List (Row α)) : List Text :=
  (window.select condition rows).map Row.id

/-- The page in list order and whether more follow in the scan direction. -/
def Window.finish (window : Window) (ids : List Text) : List Text × Bool :=
  let hasMore := decide (window.limit < ids.length)
  let ids := ids.take window.limit
  (if window.reversed then ids.reverse else ids, hasMore)

structure Page (α : Type) where
  firstId : Option Text
  lastId : Option Text
  data : List (Row α)
  hasMore : Bool

def page (data : List (Row α)) (hasMore : Bool) : Page α where
  firstId := data.head?.map Row.id
  lastId := data.getLast?.map Row.id
  data := data
  hasMore := hasMore

/-- A listed collection: cursors are looked up among the rows of `scope`, those of them that `keep`
lets through are listed, and these are loaded by their ids from the rows of `loads`. -/
structure Listing (α : Type) where
  notFound : Text → ListError
  scope : Row α → Bool
  keep : Row α → Bool
  loads : Row α → Bool
  scope_loads : ∀ row, scope row = true → loads row = true

def findRow (among : Row α → Bool) (rows : List (Row α)) (id : Text) : Option (Row α) :=
  rows.find? fun row => among row && decide (row.id = id)

def Listing.load (l : Listing α) (rows : List (Row α)) (id : Text) : Except ListError (Row α) :=
  (findRow l.loads rows id).elim (.error (l.notFound id)) .ok

def Listing.seq (l : Listing α) (rows : List (Row α)) (id : Text) : Except ListError Int :=
  (findRow l.scope rows id).elim (.error (l.notFound id)) fun row => .ok row.seq

def Listing.list (l : Listing α) (rows : List (Row α)) (query : ListQuery) :
    Except ListError (Page α) := do
  let window ← Window.new query (l.seq rows)
  let ids := window.ids (fun row => l.scope row && l.keep row) rows
  let (ids, hasMore) := window.finish ids
  let data ← ids.mapM (l.load rows)
  pure (page data hasMore)

end Rows

/-- A vector store file's columns that a listing reads. -/
structure FileColumns where
  storeId : Text
  batchId : Option Text
  status : FileStatus

def fileNotFound (storeId fileId : Text) : ListError :=
  .notFound ("file ".toList ++ fileId ++ " not found in vector store ".toList ++ storeId)

def storeFiles (storeId : Text) (batchId : Option Text) (filter : Option FileStatus) :
    Listing FileColumns where
  notFound := fileNotFound storeId
  scope row := decide (row.data.storeId = storeId)
  keep row := batchId.all (fun id => decide (row.data.batchId = some id)) &&
    filter.all (fun status => decide (row.data.status = status))
  loads row := decide (row.data.storeId = storeId)
  scope_loads _ h := h

def listFiles (rows : List (Row FileColumns)) (storeId : Text) (batchId : Option Text)
    (query : ListQuery) : Except ListError (Page FileColumns) :=
  (storeFiles storeId batchId query.filter).list rows query

/-- A vector store's columns that a listing reads. -/
structure StoreColumns where
  projectId : Option Text
deriving DecidableEq

def storeNotFound (id : Text) : ListError :=
  .notFound ("vector store ".toList ++ id ++ " not found".toList)

def projectStores (project : Option Text) : Listing StoreColumns where
  notFound := storeNotFound
  scope row := project.all fun id => decide (row.data.projectId = some id)
  keep _ := true
  loads _ := true
  scope_loads _ _ := rfl

def listVectorStores (rows : List (Row StoreColumns)) (project : Option Text)
    (query : ListQuery) : Except ListError (Page StoreColumns) :=
  if query.filter.isSome then
    .error (.invalid "filter applies only to vector store files".toList)
  else (projectStores project).list rows query

section Pages

variable {α : Type} {l : Listing α} {rows : List (Row α)}

/-- `seq` tells rows apart, and an id those that are loaded by it. -/
def Unlike (l : Listing α) (r s : Row α) : Prop :=
  r.seq ≠ s.seq ∧ (l.loads r = true → l.loads s = true → r.id ≠ s.id)

instance (l : Listing α) : Std.Symm (Unlike l) where
  symm _ _ h := ⟨h.1.symm, fun hr hs => (h.2 hs hr).symm⟩

def Distinct (l : Listing α) (rows : List (Row α)) : Prop := rows.Pairwise (Unlike l)

theorem Distinct.eq_of_seq (h : Distinct l rows) {r s : Row α} (hr : r ∈ rows) (hs : s ∈ rows)
    (hseq : r.seq = s.seq) : r = s := by
  by_contra hne
  exact (List.Pairwise.forall h hr hs hne).1 hseq

theorem Distinct.find_eq (h : Distinct l rows) {among : Row α → Bool}
    (ha : ∀ row, among row = true → l.loads row = true) {row : Row α} (hm : row ∈ rows)
    (hs : among row = true) : findRow among rows row.id = some row := by
  unfold findRow
  have hso : (rows.find? fun r => among r && decide (r.id = row.id)).isSome := by
    rw [find?_isSome]
    exact ⟨row, hm, by rw [hs, decide_eq_true rfl]; rfl⟩
  obtain ⟨found, hf⟩ := Option.isSome_iff_exists.mp hso
  have ht := find?_some hf
  rw [Bool.and_eq_true, decide_eq_true_eq] at ht
  rw [hf]
  by_contra hne
  have hu := List.Pairwise.forall h (mem_of_find?_eq_some hf) hm
    fun heq => hne (by rw [heq])
  exact hu.2 (ha found ht.1) (ha row hs) ht.2

theorem Distinct.load (h : Distinct l rows) {row : Row α} (hm : row ∈ rows)
    (hs : l.scope row = true) : l.load rows row.id = .ok row := by
  rw [Listing.load, h.find_eq (fun _ => id) hm (l.scope_loads row hs)]
  rfl

theorem Distinct.seq (h : Distinct l rows) {row : Row α} (hm : row ∈ rows)
    (hs : l.scope row = true) : l.seq rows row.id = .ok row.seq := by
  rw [Listing.seq, h.find_eq l.scope_loads hm hs]
  rfl

theorem Distinct.sort (h : Distinct l rows) (ascending : Bool) :
    (rows.mergeSort (byKey (direction ascending))).Pairwise fun r s =>
      direction ascending r < direction ascending s := by
  have hle : Ordered (direction ascending) (rows.mergeSort (byKey (direction ascending))) :=
    ordered_sort rows
  have hne : (rows.mergeSort (byKey (direction ascending))).Pairwise (Unlike l) :=
    (sort_perm rows).symm.pairwise h fun h => Std.Symm.symm _ _ h
  refine (List.Pairwise.and hle hne).imp fun ⟨hle, hne⟩ => lt_of_le_of_ne hle fun heq => hne.1 ?_
  cases ascending
  · exact Int.neg_inj.mp heq
  · exact heq

def Inside (l : Listing α) (window : Window) (row : Row α) : Prop :=
  l.scope row = true ∧ l.keep row = true ∧ window.low < row.seq ∧ row.seq < window.high

theorem mem_select {window : Window} {row : Row α}
    (h : row ∈ window.select (fun row => l.scope row && l.keep row) rows) :
    row ∈ rows ∧ l.scope row = true := by
  obtain ⟨hrow, hc⟩ := mem_filter.mp (mem_mergeSort.mp (mem_of_mem_take h))
  rw [Bool.and_eq_true, Bool.and_eq_true (l.scope row)] at hc
  exact ⟨hrow, hc.2.1⟩

theorem Distinct.list_eq (h : Distinct l rows) {query : ListQuery} {window : Window}
    (hn : Window.new query (l.seq rows) = .ok window) {chosen : List (Row α)}
    (hc : window.select (fun row => l.scope row && l.keep row) rows = chosen) :
    l.list rows query = .ok (page (if window.reversed then (chosen.take window.limit).reverse
      else chosen.take window.limit) (decide (window.limit < chosen.length))) := by
  have hf : window.finish (window.ids (fun row => l.scope row && l.keep row) rows) =
      ((if window.reversed then (chosen.take window.limit).reverse
        else chosen.take window.limit).map Row.id, decide (window.limit < chosen.length)) := by
    unfold Window.ids Window.finish
    rw [hc, length_map, ← map_take]
    split
    · rw [map_reverse]
    · rfl
  refine bind_eq_ok.mpr ⟨window, hn, ?_⟩
  simp only [hf]
  refine bind_eq_ok.mpr ⟨_, mapM_eq_ok.mpr ?_, rfl⟩
  rw [forall₂_map_left_iff, forall₂_same]
  intro row hr
  have hm : row ∈ chosen := by
    split at hr
    · exact mem_of_mem_take (mem_reverse.mp hr)
    · exact mem_of_mem_take hr
  rw [← hc] at hm
  exact h.load (mem_select hm).1 (mem_select hm).2

theorem list_window (h : Distinct l rows) {query : ListQuery} {window : Window}
    (hn : Window.new query (l.seq rows) = .ok window) :
    ∃ data more, IsPage (direction window.ascending) (fun row => row ∈ rows ∧ Inside l window row)
        window.limit data more ∧
      l.list rows query = .ok (page (if window.reversed then data.reverse else data) more) := by
  obtain ⟨kept, hk⟩ : ∃ kept, kept = rows.filter fun row =>
      decide (window.low < row.seq) && decide (row.seq < window.high) &&
        (l.scope row && l.keep row) := ⟨_, rfl⟩
  have hm : ∀ row, row ∈ kept ↔ row ∈ rows ∧ Inside l window row := by
    intro row
    rw [hk, mem_filter]
    simp only [Bool.and_eq_true, decide_eq_true_eq, Inside]
    tauto
  have hd : Distinct l kept := by
    rw [hk]
    exact List.Pairwise.sublist filter_sublist h
  have hso := hd.sort window.ascending
  have hc : window.select (fun row => l.scope row && l.keep row) rows =
      (kept.mergeSort (byKey (direction window.ascending))).take (window.limit + 1) := by
    rw [hk]
    rfl
  have hm' : ∀ row, row ∈ kept.mergeSort (byKey (direction window.ascending)) ↔
      row ∈ rows ∧ Inside l window row := fun row => mem_mergeSort.trans (hm row)
  generalize kept.mergeSort (byKey (direction window.ascending)) = sorted at hso hc hm'
  have hmo : (window.limit < min (window.limit + 1) sorted.length) ↔
      window.limit < sorted.length := by omega
  refine ⟨_, _, (isPage_take hso window.limit).congr hm', ?_⟩
  rw [h.list_eq hn hc, take_take, Nat.min_eq_left (Nat.le_succ window.limit), length_take]
  simp only [hmo]

/-! ### The walks -/

def listKey (order : ListOrder) : Row α → Int := direction (decide (order = .asc))

inductive Way
  | after
  | before
deriving DecidableEq

def Way.query (way : Way) (order : ListOrder) (limit : Nat) (cursor : Option Text)
    (filter : Option FileStatus) : ListQuery where
  limit := some limit
  order := order
  after := if way = .after then cursor else none
  before := if way = .before then cursor else none
  filter := filter

def Way.next (way : Way) (page : Page α) : Option Text :=
  match way with
  | .after => page.lastId
  | .before => page.firstId

def Way.visits (way : Way) (data : List (Row α)) : List (Row α) :=
  match way with
  | .after => data
  | .before => data.reverse

def Way.key (way : Way) (order : ListOrder) : Row α → Int :=
  direction (decide (order = .asc) != decide (way = .before))

/-- What a listing shows: `seq` is compared with bounds, so the least and the greatest value are
never inside. -/
def Listed (l : Listing α) (row : Row α) : Prop :=
  l.scope row = true ∧ l.keep row = true ∧ i64Min < row.seq ∧ row.seq < i64Max

theorem visits_visits (way : Way) (data : List (Row α)) : way.visits (way.visits data) = data := by
  cases way
  · rfl
  · exact reverse_reverse data

theorem next_page (way : Way) (data : List (Row α)) (more : Bool) :
    way.next (page (way.visits data) more) = data.getLast?.map Row.id := by
  cases way
  · rfl
  · show (data.reverse.head?).map Row.id = _
    rw [head?_reverse]

def againstKey (order : ListOrder) : Row α → Int := direction (decide (order = .desc))

theorem list_between (h : Distinct l rows) (order : ListOrder) {limit : Nat}
    (filter : Option FileStatus) (hlim : 1 ≤ limit ∧ limit ≤ maxListLimit)
    {after before : Option (Row α)} (haft : ∀ row ∈ after, row ∈ rows ∧ l.scope row = true)
    (hbef : ∀ row ∈ before, row ∈ rows ∧ l.scope row = true) :
    let reversed := before.isSome && after.isNone
    ∃ data more, IsPage (if reversed then againstKey order else listKey order)
        (fun row => row ∈ rows ∧ Listed l row ∧
          Behind (listKey order) (after.map (listKey order)) row ∧
          Behind (againstKey order) (before.map (againstKey order)) row) limit data more ∧
      l.list rows ⟨some limit, order, after.map Row.id, before.map Row.id, filter⟩ =
        .ok (page (if reversed then data.reverse else data) more) := by
  have hseq : ∀ {cursor : Option (Row α)}, (∀ row ∈ cursor, row ∈ rows ∧ l.scope row = true) →
      (cursor.map Row.id).mapM (l.seq rows) = .ok (cursor.map Row.seq) := by
    intro cursor hc
    cases cursor with
    | none => rfl
    | some row =>
      obtain ⟨hrow, hs⟩ := hc row rfl
      show (do let seq ← l.seq rows row.id; pure (some seq)) = _
      rw [h.seq hrow hs]
      rfl
  obtain ⟨window, hn, hwinLimit, hlow, hh, hascending, hr⟩ :
      ∃ window, Window.new ⟨some limit, order, after.map Row.id, before.map Row.id, filter⟩
        (l.seq rows) = .ok window ∧ window.limit = limit ∧
        window.low = (if order = .desc then before.map Row.seq else after.map Row.seq).getD i64Min ∧
        window.high = (if order = .desc then after.map Row.seq else before.map Row.seq).getD i64Max ∧
        window.ascending = (decide (order = .desc) == (before.isSome && after.isNone)) ∧
        window.reversed = (before.isSome && after.isNone) := by
    unfold Window.new
    simp only [Option.getD_some, not_not_intro hlim, if_false, hseq haft, hseq hbef]
    cases order
    · exact ⟨_, rfl, rfl, rfl, rfl, by simp, by simp⟩
    · exact ⟨_, rfl, rfl, rfl, rfl, by simp, by simp⟩
  obtain ⟨data, more, hp, hl⟩ := list_window h hn
  rw [hr] at hl
  refine ⟨data, more, ?_, hl⟩
  have hk : direction (α := α) window.ascending =
      if before.isSome && after.isNone then againstKey order else listKey order := by
    rw [hascending]
    cases order <;> cases (before.isSome && after.isNone) <;> rfl
  rw [hk, hwinLimit] at hp
  refine hp.congr fun row => and_congr_right fun hrow => ?_
  -- a cursor's own `seq` is a bound that is at least as tight as the missing one
  have hrng : ∀ c : Row α, i64Min ≤ c.seq ∧ c.seq ≤ i64Max := Row.range
  unfold Inside Listed Behind listKey againstKey direction
  rw [hlow, hh, and_assoc, and_assoc, and_assoc]
  refine and_congr_right fun _ => and_congr_right fun _ => ?_
  cases after with
  | none =>
    cases before with
    | none => cases order <;> simp
    | some b =>
      have hb := hrng b
      cases order <;> simp <;> omega
  | some a =>
    have ha := hrng a
    cases before with
    | none => cases order <;> simp <;> omega
    | some b =>
      have hb := hrng b
      cases order <;> simp <;> omega

theorem list_way (h : Distinct l rows) (way : Way) (order : ListOrder) {limit : Nat}
    (filter : Option FileStatus) (hlim : 1 ≤ limit ∧ limit ≤ maxListLimit) {cursor : Option (Row α)}
    (hc : ∀ row ∈ cursor, row ∈ rows ∧ l.scope row = true) (hw : cursor = none → way = .after) :
    ∃ data more, IsPage (way.key order) (fun row => row ∈ rows ∧ Listed l row ∧
        Behind (way.key order) (cursor.map (way.key order)) row) limit data more ∧
      l.list rows (way.query order limit (cursor.map Row.id) filter) =
        .ok (page (way.visits data) more) := by
  cases way with
  | after =>
    have hk : Way.after.key (α := α) order = listKey order := by
      cases order <;> rfl
    have hn : ∀ row ∈ (none : Option (Row α)), row ∈ rows ∧ l.scope row = true := by
      intro row hr
      cases hr
    obtain ⟨data, more, hp, hl⟩ := list_between h order filter hlim hc hn
    refine ⟨data, more, ?_, hl⟩
    rw [hk]
    refine hp.congr fun row => ?_
    simp [Behind]
  | before =>
    have hk : Way.before.key (α := α) order = againstKey order := by
      cases order <;> rfl
    have hn : ∀ row ∈ (none : Option (Row α)), row ∈ rows ∧ l.scope row = true := by
      intro row hr
      cases hr
    obtain ⟨data, more, hp, hl⟩ := list_between h order filter hlim hn hc
    cases cursor with
    | none => cases hw rfl
    | some row =>
      refine ⟨data, more, ?_, hl⟩
      rw [hk]
      refine hp.congr fun row => ?_
      simp [Behind]

/-- A client that follows the cursors, and the table it lists. -/
structure Walk (α : Type) where
  /-- The rows when it began, and all that there have been since. -/
  first : List (Row α)
  seen : List (Row α)
  rows : List (Row α)
  cursor : Option Text
  pages : List (List (Row α))
  done : Bool

inductive WalkEvent (α : Type)
  | insert (row : Row α)
  | delete (row : Row α)
  | follow (page : Page α)

def Walk.shown (way : Way) (w : Walk α) : List (Row α) := w.pages.flatMap way.visits

section Walks

variable (l : Listing α) (way : Way) (order : ListOrder) (limit : Nat) (filter : Option FileStatus)

inductive WalkStep : Walk α → WalkEvent α → Walk α → Prop
  /-- A row is inserted, with an id not seen before and the greatest `seq`. -/
  | insert {w : Walk α} {row : Row α}
      (hnew : ∀ r ∈ w.seen, r.seq < row.seq ∧
        (l.loads r = true → l.loads row = true → r.id ≠ row.id)) :
      WalkStep w (.insert row) { w with seen := w.seen ++ [row], rows := w.rows ++ [row] }
  | delete {w : Walk α} {row : Row α} (hrow : row ∈ w.rows)
      (hcursor : l.scope row = true → w.cursor ≠ some row.id) :
      WalkStep w (.delete row) { w with rows := w.rows.filter fun r => decide (r.seq ≠ row.seq) }
  | follow {w : Walk α} {page : Page α} (hdone : w.done = false)
      (hlist : l.list w.rows (way.query order limit w.cursor filter) = .ok page) :
      WalkStep w (.follow page)
        { w with cursor := way.next page, pages := w.pages ++ [page.data], done := !page.hasMore }

structure WalkStart (start : Option (Row α)) (w : Walk α) : Prop where
  distinct : Distinct l w.rows
  mem : ∀ row ∈ start, row ∈ w.rows ∧ l.scope row = true
  first : w.first = w.rows
  seen : w.seen = w.rows
  cursor : w.cursor = start.map Row.id
  pages : w.pages = []
  done : w.done = false

def walks (start : Option (Row α)) : System (Walk α) (WalkEvent α) where
  start := WalkStart l start
  step := WalkStep l way order limit filter

structure Shows (start : Option (Row α)) (w : Walk α) : Prop where
  distinct : Distinct l w.seen
  rows : w.rows.Sublist w.seen
  first : ∀ row ∈ w.first, row ∈ w.seen
  shown : ∀ row ∈ w.shown way, row ∈ w.seen ∧ Listed l row
  pages : ∀ data ∈ w.pages, data.Pairwise fun r s => listKey order r < listKey order s
  walked : ∃ cursor, Walked (way.key order)
      (fun row => row ∈ w.first ∧ row ∈ w.rows ∧ Listed l row) (start.map (way.key order)) cursor
      (w.shown way) w.done ∧
    -- the cursor is a row of the table until the walk is done
    (w.done = false → ∃ row : Option (Row α), (∀ r ∈ row, r ∈ w.rows ∧ l.scope r = true) ∧
      w.cursor = row.map Row.id ∧ cursor = row.map (way.key order) ∧ (row = none → way = .after))

variable {l way order limit filter} {start : Option (Row α)} {v w w' : Walk α} {event : WalkEvent α}

theorem Shows.init (hw : start = none → way = .after) (h : WalkStart l start w) :
    Shows l way order start w := by
  have hs : w.shown way = [] := by
    unfold Walk.shown
    rw [h.pages]
    rfl
  refine ⟨by rw [h.seen]; exact h.distinct, by rw [h.seen], fun row hr => ?_, fun row hr => ?_,
    fun data hd => ?_, _, ?_, fun _ => ⟨start, h.mem, h.cursor, rfl, hw⟩⟩
  · rwa [h.seen, ← h.first]
  · rw [hs] at hr
    cases hr
  · rw [h.pages] at hd
    cases hd
  · rw [hs, h.done]
    exact Walked.init

theorem Shows.insert (h : Shows l way order start w) {row : Row α}
    (hn : ∀ r ∈ w.seen, r.seq < row.seq ∧ (l.loads r = true → l.loads row = true → r.id ≠ row.id)) :
    Shows l way order start { w with seen := w.seen ++ [row], rows := w.rows ++ [row] } := by
  obtain ⟨cursor, hw, hc⟩ := h.walked
  refine ⟨pairwise_append.mpr ⟨h.distinct, pairwise_singleton _ _, fun r hr s hs => ?_⟩,
    h.rows.append (List.Sublist.refl _), fun r hr => mem_append_left _ (h.first r hr),
    fun r hr => ⟨mem_append_left _ (h.shown r hr).1, (h.shown r hr).2⟩, h.pages, cursor,
    hw.change fun r hr => ?_, fun hd => ?_⟩
  · rw [mem_singleton.mp hs]
    exact ⟨Int.ne_of_lt (hn r hr).1, (hn r hr).2⟩
  · -- the new row was not there at the start
    obtain ⟨hf, hrow, hl⟩ := hr
    rcases mem_append.mp hrow with hm | hm
    · exact ⟨hf, hm, hl⟩
    · rw [mem_singleton.mp hm] at hf
      exact absurd (hn row (h.first row hf)).1 (Int.lt_irrefl _)
  · obtain ⟨at', hat, hre⟩ := hc hd
    exact ⟨at', fun r hr => ⟨mem_append_left _ (hat r hr).1, (hat r hr).2⟩, hre⟩

theorem Shows.delete (h : Shows l way order start w) {row : Row α} (hrow : row ∈ w.rows)
    (hc : l.scope row = true → w.cursor ≠ some row.id) :
    Shows l way order start { w with rows := w.rows.filter fun r => decide (r.seq ≠ row.seq) } := by
  obtain ⟨cursor, hw, hat⟩ := h.walked
  refine ⟨h.distinct, filter_sublist.trans h.rows, h.first, h.shown, h.pages, cursor,
    hw.change fun r ⟨hf, hr, hl⟩ => ⟨hf, (mem_filter.mp hr).1, hl⟩,
    fun hd => ?_⟩
  obtain ⟨at', hm, hid, hre⟩ := hat hd
  refine ⟨at', fun r hr => ⟨mem_filter.mpr ⟨(hm r hr).1, decide_eq_true fun hseq => ?_⟩,
    (hm r hr).2⟩, hid, hre⟩
  -- the cursor's row is another one
  have hs : r = row := Distinct.eq_of_seq (List.Pairwise.sublist h.rows h.distinct)
    (hm r hr).1 hrow hseq
  subst hs
  refine hc (hm r hr).2 ?_
  rw [hid, Option.mem_def.mp hr]
  rfl

theorem pairwise_visits {data : List (Row α)}
    (h : data.Pairwise fun r s => way.key order r < way.key order s) :
    (way.visits data).Pairwise fun r s => listKey order r < listKey order s := by
  cases way with
  | after =>
    refine h.imp fun hlt => ?_
    cases order <;> exact hlt
  | before =>
    show data.reverse.Pairwise _
    rw [pairwise_reverse]
    refine h.imp fun {r s} hlt => ?_
    cases order with
    | asc =>
      have hn : -r.seq < -s.seq := hlt
      exact Int.neg_lt_neg_iff.mp hn
    | desc => exact Int.neg_lt_neg hlt

variable (filter) in
theorem Shows.list (h : Shows l way order start w) (hlim : 1 ≤ limit ∧ limit ≤ maxListLimit)
    (hd : w.done = false) : ∃ data more,
      l.list w.rows (way.query order limit w.cursor filter) = .ok (page (way.visits data) more) ∧
      (more = true → data ≠ []) ∧
      Shows l way order start { w with
        cursor := way.next (page (way.visits data) more)
        pages := w.pages ++ [way.visits data]
        done := !more } := by
  obtain ⟨cursor, hw, hat⟩ := h.walked
  obtain ⟨at', hmem, hid, hk, hway⟩ := hat hd
  have hrows : Distinct l w.rows := List.Pairwise.sublist h.rows h.distinct
  obtain ⟨data, more, hp, hlist⟩ := list_way hrows way order filter hlim hmem hway
  have hne : more = true → data ≠ [] := by
    intro hm he
    have hf := hp.full hm
    rw [he] at hf
    exact absurd hf (Nat.ne_of_lt hlim.1)
  have hs : (w.pages ++ [way.visits data]).flatMap way.visits = w.shown way ++ data := by
    rw [flatMap_append, flatMap_singleton, visits_visits]
    rfl
  refine ⟨data, more, by rw [hid]; exact hlist, hne, h.distinct, h.rows, h.first, fun row hrow => ?_,
    fun page hp' => ?_, ?_⟩
  · unfold Walk.shown at hrow
    rw [hs] at hrow
    rcases mem_append.mp hrow with hold | hn
    · exact h.shown row hold
    · obtain ⟨hrow', hl, -⟩ := hp.sound row hn
      exact ⟨h.rows.subset hrow', hl⟩
  · rcases mem_append.mp hp' with hold | hn
    · exact h.pages page hold
    · rw [mem_singleton.mp hn]
      exact pairwise_visits hp.sorted
  · rw [hd, hk] at hw
    refine ⟨if data = [] then at'.map (way.key order) else data.getLast?.map (way.key order), ?_,
      fun hd' => ?_⟩
    · unfold Walk.shown
      rw [hs]
      refine hw.page hp (fun row hrow => hrow.2.2)
        (fun row hrow hb => ⟨hrow.2.1, hrow.2.2, hb⟩) (fun hne => if_neg hne)
        (fun he => if_pos he) hlim.1
    · have hm : more = true := by
        cases more
        · cases hd'
        · rfl
      rw [if_neg (hne hm), next_page]
      refine ⟨data.getLast?, fun r hr => ?_, rfl, rfl, fun hla => ?_⟩
      · obtain ⟨hr', hl, -⟩ := hp.sound r (mem_of_getLast? hr)
        exact ⟨hr', hl.1⟩
      · exact absurd (getLast?_eq_none_iff.mp hla) (hne hm)

theorem Shows.step (hlim : 1 ≤ limit ∧ limit ≤ maxListLimit) (h : Shows l way order start w)
    (hst : WalkStep l way order limit filter w event w') : Shows l way order start w' := by
  cases hst with
  | insert hn => exact h.insert hn
  | delete hr hc => exact h.delete hr hc
  | follow hd hl =>
    obtain ⟨data, more, hl', -, hs⟩ := h.list filter hlim hd
    rw [hl] at hl'
    cases hl'
    exact hs

theorem walks_invariant (hl : 1 ≤ limit ∧ limit ≤ maxListLimit) (hw : start = none → way = .after)
    (h : (walks l way order limit filter start).Reachable w) : Shows l way order start w :=
  h.invariant (fun _ => Shows.init hw) fun _ _ _ hs => hs.step hl

/-! ### Rows outside the scope -/

theorem list_scope (h : Distinct l rows) (query : ListQuery) :
    l.list (rows.filter l.scope) query = l.list rows query := by
  have hs : l.seq (rows.filter l.scope) = l.seq rows := by
    funext id
    unfold Listing.seq findRow
    rw [find?_filter]
    congr 2
    funext row
    cases l.scope row <;> simp
  have hsel : ∀ window : Window,
      window.select (fun row => l.scope row && l.keep row) (rows.filter l.scope) =
        window.select (fun row => l.scope row && l.keep row) rows := by
    intro window
    unfold Window.select
    rw [filter_filter]
    congr 2
    funext row
    cases hr : l.scope row <;> simp [hr]
  have hf : Distinct l (rows.filter l.scope) := List.Pairwise.sublist filter_sublist h
  cases hn : Window.new query (l.seq rows) with
  | error e =>
    unfold Listing.list
    rw [hs, hn]
    rfl
  | ok window =>
    rw [h.list_eq hn rfl, hf.list_eq (hs ▸ hn) (hsel window)]

variable (l) in
def WalkEvent.inside : WalkEvent α → Bool
  | .insert row | .delete row => l.scope row
  | .follow _ => true

variable (l w) in
/-- The walk as if there were no rows outside the scope. -/
def Walk.inside : Walk α :=
  { w with
    first := w.first.filter l.scope
    seen := w.seen.filter l.scope
    rows := w.rows.filter l.scope }

theorem Shows.step_inside {events : List (WalkEvent α)} (hs : Shows l way order start w)
    (next : WalkStep l way order limit filter w event w')
    (ih : (walks l way order limit filter start).Run v events (w.inside l)) :
    (walks l way order limit filter start).Run v
      (events ++ [event].filter (WalkEvent.inside l)) (w'.inside l) := by
  rw [filter_singleton]
  cases next with
  | @insert row hn =>
    cases hr : l.scope row with
    | true =>
      have ht : Walk.inside l { w with seen := w.seen ++ [row], rows := w.rows ++ [row] } =
          { w.inside l with
            seen := (w.inside l).seen ++ [row], rows := (w.inside l).rows ++ [row] } := by
        simp [Walk.inside, hr]
      rw [WalkEvent.inside, hr, ht]
      exact .tail ih (.insert fun r hm => hn r (mem_filter.mp hm).1)
    | false => simpa [Walk.inside, WalkEvent.inside, hr] using ih
  | @delete row hrow hc =>
    cases hr : l.scope row with
    | true =>
      have ht : Walk.inside l { w with rows := w.rows.filter fun r => decide (r.seq ≠ row.seq) } =
          { w.inside l with
            rows := (w.inside l).rows.filter fun r => decide (r.seq ≠ row.seq) } := by
        simp [Walk.inside, filter_filter, Bool.and_comm]
      rw [WalkEvent.inside, hr, ht]
      exact .tail ih (.delete (mem_filter.mpr ⟨hrow, hr⟩) hc)
    | false =>
      -- no row of the scope has the `seq` of the deleted one
      have hk : (w.rows.filter fun r => decide (r.seq ≠ row.seq)).filter l.scope =
          w.rows.filter l.scope := by
        rw [filter_filter]
        refine filter_congr fun r hm => ?_
        cases hsc : l.scope r with
        | false => rfl
        | true =>
          refine decide_eq_true fun heq => ?_
          have hd : Distinct l w.rows := hs.distinct.sublist hs.rows
          rw [hd.eq_of_seq hm hrow heq, hr] at hsc
          cases hsc
      have ht : Walk.inside l { w with rows := w.rows.filter fun r => decide (r.seq ≠ row.seq) } =
          w.inside l := by
        unfold Walk.inside
        rw [hk]
      rw [ht]
      simpa [WalkEvent.inside, hr] using ih
  | follow hd hp =>
    have hrows : Distinct l w.rows := hs.distinct.sublist hs.rows
    exact .tail ih (.follow hd ((list_scope hrows _).trans hp))

/-- A walk over a table that does not change: its pages, until one says that no more follow. -/
def Listing.follow (l : Listing α) (rows : List (Row α)) (way : Way) (order : ListOrder)
    (limit : Nat) (filter : Option FileStatus) :
    (fuel : Nat) → Option Text → Except ListError (Option (List (List (Row α))))
  | 0, _ => pure none
  | fuel + 1, cursor => do
    let page ← l.list rows (way.query order limit cursor filter)
    if page.hasMore then do
      let rest ← l.follow rows way order limit filter fuel (way.next page)
      pure (rest.map fun pages => page.data :: pages)
    else pure (some [page.data])

theorem Shows.length_le (h : Shows l way order start w) : (w.shown way).length ≤ w.seen.length := by
  obtain ⟨cursor, hw, -⟩ := h.walked
  have hnd : (w.shown way).Nodup := hw.sorted.imp fun hlt heq => by
    rw [heq] at hlt
    exact Int.lt_irrefl _ hlt
  exact (subperm_of_subset hnd fun row hr => (h.shown row hr).1).length_le

variable (filter) in
/-- **A walk ends** when the table does not change. -/
theorem Shows.follow (h : Shows l way order start w) (hlim : 1 ≤ limit ∧ limit ≤ maxListLimit)
    (hd : w.done = false) {fuel : Nat} (hfu : w.seen.length - (w.shown way).length < fuel) :
    ∃ pages cursor, l.follow w.rows way order limit filter fuel w.cursor = .ok (some pages) ∧
      Shows l way order start
        { w with cursor := cursor, pages := w.pages ++ pages, done := true } := by
  induction fuel generalizing w with
  | zero => omega
  | succ fuel ih =>
    obtain ⟨data, more, hl, hne, hs⟩ := h.list filter hlim hd
    unfold Listing.follow
    rw [hl]
    cases more with
    | false => exact ⟨[way.visits data], _, rfl, hs⟩
    | true =>
      have hsh : (w.pages ++ [way.visits data]).flatMap way.visits = w.shown way ++ data := by
        rw [flatMap_append, flatMap_singleton, visits_visits]
        rfl
      have hp := length_pos_iff.mpr (hne rfl)
      have hle := hs.length_le
      unfold Walk.shown at hle
      rw [hsh, length_append] at hle
      dsimp only at hle
      obtain ⟨pages, cursor, hf, hs'⟩ := ih hs rfl (by
        show w.seen.length - ((w.pages ++ [way.visits data]).flatMap way.visits).length < fuel
        rw [hsh, length_append]
        omega)
      refine ⟨way.visits data :: pages, cursor, ?_, ?_⟩
      · refine bind_eq_ok.mpr ⟨_, rfl, ?_⟩
        rw [hf]
        rfl
      · rw [append_assoc] at hs'
        exact hs'

variable (way order filter start) in
theorem follow_shows (hlim : 1 ≤ limit ∧ limit ≤ maxListLimit) (h : Distinct l rows)
    (hst : ∀ row ∈ start, row ∈ rows ∧ l.scope row = true) (hway : start = none → way = .after) :
    ∃ pages, l.follow rows way order limit filter (rows.length + 1) (start.map Row.id) =
        .ok (some pages) ∧
      (∀ data ∈ pages, data.Pairwise fun r s => listKey order r < listKey order s) ∧
      ((pages.flatMap way.visits).Pairwise fun r s => way.key order r < way.key order s) ∧
      ∀ row, row ∈ pages.flatMap way.visits ↔
        row ∈ rows ∧ Listed l row ∧ Behind (way.key order) (start.map (way.key order)) row := by
  have hi : Shows l way order start ⟨rows, rows, rows, start.map Row.id, [], false⟩ :=
    Shows.init hway ⟨h, hst, rfl, rfl, rfl, rfl, rfl⟩
  obtain ⟨pages, cursor, hfo, hs⟩ :=
    hi.follow filter hlim rfl (Nat.lt_succ_of_le (Nat.sub_le _ _))
  obtain ⟨_, hw, -⟩ := hs.walked
  refine ⟨pages, hfo, hs.pages, hw.sorted, fun row => ⟨fun hr => ?_, fun hr => ?_⟩⟩
  · exact ⟨(hs.shown row hr).1, (hs.shown row hr).2, hw.behind row hr⟩
  · obtain ⟨hm, hl, hb⟩ := hr
    rcases hw.complete row ⟨hm, hm, hl⟩ hb with hsh | ⟨hf, -⟩
    · exact hsh
    · cases hf

end Walks

/-- **Following cursors** shows every row once, in list order, also while rows come and go. -/
theorem cursors_walk (l : Listing α) (order : ListOrder) {limit : Nat} (filter : Option FileStatus)
    (hlimit : 1 ≤ limit ∧ limit ≤ maxListLimit) :
    -- from the first page on
    (∀ rows : List (Row α), Distinct l rows → ∃ pages,
      l.follow rows .after order limit filter (rows.length + 1) none = .ok (some pages) ∧
      (pages.flatten.Pairwise fun r s => listKey order r < listKey order s) ∧
      ∀ row, row ∈ pages.flatten ↔ row ∈ rows ∧ Listed l row) ∧
    -- back from a row
    (∀ rows : List (Row α), Distinct l rows → ∀ e ∈ rows, l.scope e = true → ∃ pages,
      l.follow rows .before order limit filter (rows.length + 1) (some e.id) = .ok (some pages) ∧
      (∀ data ∈ pages, data.Pairwise fun r s => listKey order r < listKey order s) ∧
      (pages.reverse.flatten.Pairwise fun r s => listKey order r < listKey order s) ∧
      ∀ row, row ∈ pages.flatten ↔
        row ∈ rows ∧ Listed l row ∧ listKey order row < listKey order e) ∧
    -- between two rows
    (∀ rows : List (Row α), Distinct l rows → ∀ a ∈ rows, l.scope a = true →
      ∀ b ∈ rows, l.scope b = true → ∃ data more,
        l.list rows ⟨some limit, order, some a.id, some b.id, filter⟩ = .ok (page data more) ∧
        IsPage (listKey order) (fun row => row ∈ rows ∧ Listed l row ∧
          listKey order a < listKey order row ∧ listKey order row < listKey order b) limit data more) ∧
    -- while rows are inserted and others than the cursor's deleted
    ∀ way start w, (start = none → way = .after) →
      (walks l way order limit filter start).Reachable w →
        ((w.shown way).Pairwise fun r s => way.key order r < way.key order s) ∧
        ((w.shown way).map Row.id).Nodup ∧
        (∀ data ∈ w.pages, data.Pairwise fun r s => listKey order r < listKey order s) ∧
        (∀ row ∈ w.shown way, Listed l row ∧
          Behind (way.key order) (start.map (way.key order)) row) ∧
        (w.done = false → ∃ page,
          l.list w.rows (way.query order limit w.cursor filter) = .ok page) ∧
        -- a row that is gone does not come back, so these have been there throughout
        (w.done = true → ∀ row ∈ w.first, row ∈ w.rows → Listed l row →
          Behind (way.key order) (start.map (way.key order)) row → row ∈ w.shown way) := by
  have hag : ∀ r s : Row α,
      againstKey order r < againstKey order s ↔ listKey order s < listKey order r := by
    intro r s
    cases order with
    | asc => exact Int.neg_lt_neg_iff
    | desc => exact Int.neg_lt_neg_iff.symm
  have hk : Way.before.key (α := α) order = againstKey order := by
    cases order <;> rfl
  have hk' : Way.after.key (α := α) order = listKey order := by
    cases order <;> rfl
  refine ⟨fun rows h => ?_, fun rows h e he hsc => ?_, fun rows h a ha hsc b hb hsc' => ?_,
    fun way start w hway hre => ?_⟩
  · obtain ⟨pages, hfo, -, hso, hm⟩ := follow_shows .after order
      filter none hlimit h (fun row hrow => by cases hrow) fun _ => rfl
    have hf : pages.flatMap Way.after.visits = pages.flatten := flatMap_id'
    rw [hf, hk'] at hso
    refine ⟨pages, hfo, hso, fun row => ?_⟩
    rw [← hf, hm]
    simp [Behind]
  · obtain ⟨pages, hfo, hp, hso, hm⟩ := follow_shows .before order
      filter (some e) hlimit h
      (fun row hrow => by cases hrow; exact ⟨he, hsc⟩) fun hn => by cases hn
    have hf : (pages.flatMap Way.before.visits).reverse = pages.reverse.flatten := by
      have hv : pages.flatMap Way.before.visits = (pages.map reverse).flatten :=
        flatMap_def
      have hid : (reverse ∘ reverse : List (Row α) → List (Row α)) = id :=
        funext reverse_reverse
      rw [hv, reverse_flatten, map_map, hid, map_id]
    rw [hk] at hso
    refine ⟨pages, hfo, hp, ?_, fun row => ?_⟩
    · rw [← hf, pairwise_reverse]
      exact hso.imp fun hlt => (hag _ _).mp hlt
    · have hm' : row ∈ pages.flatten ↔ row ∈ pages.flatMap Way.before.visits := by
        rw [← @mem_reverse _ row (pages.flatMap _), hf, mem_flatten, mem_flatten]
        simp only [mem_reverse]
      rw [hm', hm, hk]
      simp [Behind, hag]
  · obtain ⟨data, more, hpa, hl⟩ := @list_between _ l rows h order limit filter
      hlimit (some a) (some b) (fun row hrow => by cases hrow; exact ⟨ha, hsc⟩)
      (fun row hrow => by cases hrow; exact ⟨hb, hsc'⟩)
    refine ⟨data, more, hl, hpa.congr fun row => ?_⟩
    simp [Behind, hag]
  · have h := walks_invariant hlimit hway hre
    obtain ⟨_, hw, -⟩ := h.walked
    refine ⟨hw.sorted, ?_, h.pages,
      fun row hrow => ⟨(h.shown row hrow).2, hw.behind row hrow⟩, fun hd => ?_,
      fun hd row hfst hrow hlisted hbeh => ?_⟩
    · rw [nodup_iff_pairwise_ne, pairwise_map]
      refine hw.sorted.imp_of_mem fun {r s} hr hs hlt hid => ?_
      have hne : r ≠ s := fun heq => by
        rw [heq] at hlt
        exact Int.lt_irrefl _ hlt
      have hu := List.Pairwise.forall h.distinct (h.shown r hr).1 (h.shown s hs).1 hne
      exact hu.2 (l.scope_loads r (h.shown r hr).2.1) (l.scope_loads s (h.shown s hs).2.1) hid
    · obtain ⟨data, more, hl, -⟩ := h.list filter hlimit hd
      exact ⟨_, hl⟩
    · rcases hw.complete row ⟨hfst, hrow, hlisted⟩ hbeh with hsh | ⟨hfa, -⟩
      · exact hsh
      · rw [hd] at hfa
        cases hfa

end Pages

def storeRow (seq : Int) (id : Text) (range : i64Min ≤ seq ∧ seq ≤ i64Max) : Row StoreColumns :=
  ⟨seq, id, ⟨none⟩, range⟩

/-- The greatest `seq` is not below the bound that stands for a missing cursor. -/
theorem greatest_seq_skipped :
    Distinct (projectStores none) [storeRow i64Max "vs_1".toList (by decide)] ∧
      (projectStores none).follow [storeRow i64Max "vs_1".toList (by decide)] .after .asc 20 none 2
        none = .ok (some [[]]) := by
  refine ⟨pairwise_singleton _ _, ?_⟩
  have hk : [storeRow i64Max "vs_1".toList (by decide)].filter (fun row =>
      decide (i64Min < row.seq) && decide (row.seq < i64Max) &&
        ((projectStores none).scope row && (projectStores none).keep row)) = [] := by decide
  have hs : (⟨20, i64Min, i64Max, true, false⟩ : Window).select
      (fun row => (projectStores none).scope row && (projectStores none).keep row)
      [storeRow i64Max "vs_1".toList (by decide)] = [] := by
    unfold Window.select
    rw [hk]
    unfold best
    rw [mergeSort_nil, take_nil]
  refine bind_eq_ok.mpr ⟨page [] false, bind_eq_ok.mpr ⟨⟨20, i64Min, i64Max, true, false⟩, rfl, ?_⟩,
    rfl⟩
  unfold Window.ids
  rw [hs]
  rfl

def twoStores : List (Row StoreColumns) :=
  [storeRow 1 "vs_1".toList (by decide), storeRow 2 "vs_2".toList (by decide)]

theorem twoStores_distinct : Distinct (projectStores none) twoStores :=
  pairwise_pair.mpr ⟨by decide, fun _ _ => by decide⟩

theorem stores_walk : (∃ pages,
      (projectStores none).follow twoStores .after .asc 1 none 3 none = .ok (some pages) ∧
      (pages.flatten.Pairwise fun r s => listKey .asc r < listKey .asc s) ∧
      ∀ row, row ∈ pages.flatten ↔ row ∈ twoStores ∧ Listed (projectStores none) row) ∧
    ∃ pages, (projectStores none).follow twoStores .before .asc 1 none 3 (some "vs_2".toList) =
      .ok (some pages) := by
  obtain ⟨ha, hb, -⟩ := cursors_walk (projectStores none) .asc none
    (by decide : 1 ≤ 1 ∧ 1 ≤ maxListLimit)
  obtain ⟨pages, hp, -⟩ := hb twoStores twoStores_distinct
    (storeRow 2 "vs_2".toList (by decide)) (mem_cons_of_mem _ mem_cons_self) rfl
  exact ⟨ha twoStores twoStores_distinct, pages, hp⟩

/-- A store of a project whose name is one letter. -/
def storeOf (project : Char) (seq : Int) (id : Text) (range : i64Min ≤ seq ∧ seq ≤ i64Max) :
    Row StoreColumns := ⟨seq, id, ⟨some [project]⟩, range⟩

/-- Stores of the projects `p` and `q`. -/
def mixedStores : List (Row StoreColumns) :=
  [storeOf 'p' 1 "vs_1".toList (by decide), storeOf 'q' 2 "vs_2".toList (by decide),
    storeOf 'p' 3 "vs_3".toList (by decide)]

def firstPage : Page StoreColumns := page [storeOf 'p' 1 "vs_1".toList (by decide)] true

def secondPage : Page StoreColumns := page [storeOf 'p' 3 "vs_3".toList (by decide)] false

end LocalAi.VectorStores
