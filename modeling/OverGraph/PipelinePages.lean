import Mathlib.Algebra.Group.Nat.Defs
import Mathlib.Data.List.Lex
import OverGraph.KeysetPages
import OverGraph.SortKeys

/-!
# Pages of a graph pipeline

A pipeline passes rows from stage to stage. Its result is sorted by the explicit keys and a
logical key of each row; a page holds the rows above the keys of the last row of the page
before, and the whole pipeline runs again for each page.
-/

namespace OverGraph.PipelinePages

open SortKeys List KeysetPages

/-- Slot by slot, `none` where the slot is null. -/
abbrev Row (V : Type) := ℕ → Option V

/-- How values are ordered and told apart, and how internal slots are filled. -/
structure ValueKeys (V K : Type) where
  sortAtom : V → GraphSortAtom
  canonicalKey : Option V → K
  encodeSortAtoms : List GraphSortAtom → List ℕ
  ofBytes : List ℕ → V
  ofUInt : ℕ → V

variable {V K : Type}

def setSlot (row : Row V) (slot : ℕ) (value : Option V) : Row V := fun other => if other = slot then value else row other

/-- A match or an optional match, which leaves the key of its row in the cursor slot. -/
structure MatchPlan (V : Type) where
  graphRows : List (Row V) → List (Row V)
  querySlots : List ℕ
  outputRow : Row V → Row V
  cursorSlot : ℕ

inductive ShortestPathMode where
  | one
  | all
  deriving DecidableEq

structure ShortestPathPlan (V : Type) where
  mode : ShortestPathMode
  optional : Bool
  inputRow : Row V → Row V
  /-- The paths between the ends a row resolves to, none when an end is null. -/
  paths : Row V → List V
  outputPathSlot : ℕ

structure OrderItem (V : Type) where
  expr : Row V → Option V
  direction : GraphOrderDirection

/-- Row by row, or group by group: an aggregate row is computed from the key of its group and
its rows in order. -/
inductive Projection (V K : Type) where
  | scalar (outputRow : Row V → Row V)
  | aggregate (groupKeys : List (Row V → Option V)) (outputRow : List K → List (Row V) → Row V)

structure ProjectPlan (V K : Type) where
  projection : Projection V K
  distinct : Bool
  distinctSlots : List ℕ
  orderBy : List (OrderItem V)
  outputSlots : List ℕ
  skip : ℕ
  limit : Option ℕ
  evaluateExists : Row V → Row V
  filter : Row V → Bool

mutual

inductive Stage (V K : Type) where
  | graphMatch (plan : MatchPlan V)
  | shortestPath (plan : ShortestPathPlan V)
  | project (plan : ProjectPlan V K)
  | call (importSlots : List ℕ) (importRow : Row V → Row V) (query : Pipeline V K)
      (outputRow : Row V → Row V → Row V)
  | union (all : Bool) (branches : List (Branch V K)) (ordinalSlot : ℕ) (distinctSlots : List ℕ)

inductive Branch (V K : Type) where
  | mk (pipe : Pipeline V K) (outputRow : Row V → Row V)

/-- The stages with the slots and the order of the terminal projection. -/
inductive Pipeline (V K : Type) where
  | mk (stages : List (Stage V K)) (terminalSlots : List ℕ) (terminalOrderBy : List (OrderItem V))

end

def Stage.isCall : Stage V K → Bool
  | .call _ _ _ _ => true
  | _ => false

def Pipeline.stages : Pipeline V K → List (Stage V K)
  | .mk stages _ _ => stages

def Pipeline.terminalSlots : Pipeline V K → List ℕ
  | .mk _ slots _ => slots

def Pipeline.terminalOrderBy : Pipeline V K → List (OrderItem V)
  | .mk _ _ orderBy => orderBy

def Pipeline.preservePipelineOrder (pipe : Pipeline V K) : Bool := pipe.stages.any Stage.isCall

section
variable (keys : ValueKeys V K)

def sortAtomForValue : Option V → GraphSortAtom
  | none => .null
  | some value => keys.sortAtom value

def logicalSortKey (slots : List ℕ) (row : Row V) : List GraphSortAtom := slots.map fun slot => sortAtomForValue keys (row slot)

def explicitSortKey (orderBy : List (OrderItem V)) (row : Row V) : List GraphSortAtom :=
  orderBy.map fun item => sortAtomForValue keys (item.expr row)

def orderDirections (orderBy : List (OrderItem V)) : List GraphOrderDirection := orderBy.map (·.direction)

structure FinalRow (V : Type) where
  row : Row V
  key : FinalKey

/-- The eight bytes of an ordinal, the largest first. -/
def ordinalBytes (ord : ℕ) : List ℕ :=
  [ord / 256 ^ 7 % 256, ord / 256 ^ 6 % 256, ord / 256 ^ 5 % 256, ord / 256 ^ 4 % 256,
    ord / 256 ^ 3 % 256, ord / 256 ^ 2 % 256, ord / 256 % 256, ord % 256]

/-- With a call and no explicit order the place of the row is its logical key. -/
def finalLogicalKey (preserveOrder : Bool) (slots : List ℕ) (orderBy : List (OrderItem V)) (ord : ℕ)
    (row : Row V) : List GraphSortAtom :=
  if preserveOrder && orderBy.isEmpty then [.bytes (ordinalBytes ord)] else logicalSortKey keys slots row

def finalRow (preserveOrder : Bool) (slots : List ℕ) (orderBy : List (OrderItem V)) (entry : Row V × ℕ) : FinalRow V :=
  ⟨entry.1, explicitSortKey keys orderBy entry.1, finalLogicalKey keys preserveOrder slots orderBy entry.2 entry.1⟩

def keyedRows (preserveOrder : Bool) (slots : List ℕ) (orderBy : List (OrderItem V)) (rows : List (Row V)) :
    List (FinalRow V) := rows.zipIdx.map (finalRow keys preserveOrder slots orderBy)

def sortFinalRows (directions : List GraphOrderDirection) (rows : List (FinalRow V)) : List (FinalRow V) :=
  rows.insertionSort fun left right => (compareGraphFinalKeysByDirections directions left.key right.key).isLE

def prepareFinalRows (preserveOrder : Bool) (slots : List ℕ) (orderBy : List (OrderItem V)) (rows : List (Row V))
    (cursor : Option FinalKey) : List (FinalRow V) :=
  let finalRows := sortFinalRows (orderDirections orderBy) (keyedRows keys preserveOrder slots orderBy rows)
  match cursor with
  | none => finalRows
  | some last => KeysetPages.above (compareGraphFinalKeysByDirections (orderDirections orderBy)) FinalRow.key finalRows last

def attachCursorKeys (plan : MatchPlan V) (rows : List (Row V)) : List (Row V) :=
  rows.map fun row => setSlot (plan.outputRow row) plan.cursorSlot
    (some (keys.ofBytes (keys.encodeSortAtoms (logicalSortKey keys plan.querySlots row))))

def executeShortestPathStage (plan : ShortestPathPlan V) (rows : List (Row V)) : List (Row V) :=
  rows.flatMap fun row =>
    let output := fun path => setSlot (plan.inputRow row) plan.outputPathSlot path
    match plan.paths row, plan.mode with
    | [], _ => if plan.optional then [output none] else []
    | path :: _, .one => [output (some path)]
    | paths, .all => paths.map fun path => output (some path)

def canonicalKeyForSlots (slots : List ℕ) (row : Row V) : List K := slots.map fun slot => keys.canonicalKey (row slot)

/-- Keep the first row of each key. -/
def applyDistinct [DecidableEq K] (slots : List ℕ) (rows : List (Row V)) : List (Row V) :=
  (rows.foldl (fun (seen, unique) row =>
    let key := canonicalKeyForSlots keys slots row
    if key ∈ seen then (seen, unique) else (key :: seen, unique ++ [row])) ([], [])).2

def groupsOf [LinearOrder K] (groupKeys : List (Row V → Option V)) (rows : List (Row V)) : List (List K × List (Row V)) :=
  let keyOf := fun row => groupKeys.map fun expr => keys.canonicalKey (expr row)
  let found := ((rows.map keyOf).dedup).insertionSort (· ≤ ·)
  let groups := found.map fun key => (key, rows.filter fun row => decide (keyOf row = key))
  if rows.isEmpty && groupKeys.isEmpty then [([], [])] else groups

def executeProjectStage [LinearOrder K] (plan : ProjectPlan V K) (rows : List (Row V)) : List (Row V) :=
  let proj := match plan.projection with
    | .scalar outputRow => rows.map outputRow
    | .aggregate groupKeys outputRow => (groupsOf keys groupKeys rows).map fun group => outputRow group.1 group.2
  let proj := if plan.distinct then applyDistinct keys plan.distinctSlots proj else proj
  let proj := if plan.orderBy.isEmpty then proj else
    (sortFinalRows (orderDirections plan.orderBy)
      (keyedRows keys false plan.outputSlots plan.orderBy proj)).map (·.row)
  let proj := proj.drop plan.skip
  let proj := match plan.limit with
    | some limit => proj.take limit
    | none => proj
  (proj.map plan.evaluateExists).filter plan.filter

/-- The subquery runs once for each key of the imported slots, on the first row that has it. -/
def representative [DecidableEq K] (slots : List ℕ) (rows : List (Row V)) (row : Row V) : Row V :=
  (rows.find? fun other => decide (canonicalKeyForSlots keys slots other = canonicalKeyForSlots keys slots row)).getD row

mutual

def executeStage [LinearOrder K] : Stage V K → List (Row V) → List (Row V)
  | .graphMatch plan, rows => attachCursorKeys keys plan (plan.graphRows rows)
  | .shortestPath plan, rows => executeShortestPathStage plan rows
  | .project plan, rows => executeProjectStage keys plan rows
  | .call importSlots importRow query outputRow, rows =>
    rows.flatMap fun row => (executeSubquery query [importRow (representative keys importSlots rows row)]).map (outputRow row)
  | .union all brs ordinalSlot distinctSlots, rows =>
    let numbered := (executeBranches brs rows).zipIdx.map
      fun (row, ord) => setSlot row ordinalSlot (some (keys.ofUInt ord))
    if all then numbered else applyDistinct keys distinctSlots numbered

def executeStages [LinearOrder K] : List (Stage V K) → List (Row V) → List (Row V)
  | [], rows => rows
  | stage :: stages, rows => executeStages stages (executeStage stage rows)

def executeBranches [LinearOrder K] : List (Branch V K) → List (Row V) → List (Row V)
  | [], _ => []
  | .mk pipe outputRow :: brs, rows => (executeSubquery pipe rows).map outputRow ++ executeBranches brs rows

/-- All rows of a nested pipeline, sorted. -/
def executeSubquery [LinearOrder K] : Pipeline V K → List (Row V) → List (Row V)
  | .mk stages slots orderBy, rows =>
    (prepareFinalRows keys (stages.any Stage.isCall) slots orderBy (executeStages stages rows) none).map (·.row)

end

structure PageRequest where
  skip : ℕ
  limit : ℕ
  limit_pos : 0 < limit

variable [LinearOrder K]

def stageRows (pipe : Pipeline V K) : List (FinalRow V) :=
  keyedRows keys pipe.preservePipelineOrder pipe.terminalSlots pipe.terminalOrderBy
    (executeStages keys pipe.stages [fun _ => none])

/-- A page and the cursor to the next one. Only the first page skips rows. -/
def queryGraphPipelineNormalized (pipe : Pipeline V K) (request : PageRequest) (cursor : Option FinalKey) :
    List (Row V) × Option FinalKey :=
  let finalRows := prepareFinalRows keys pipe.preservePipelineOrder pipe.terminalSlots
    pipe.terminalOrderBy (executeStages keys pipe.stages [fun _ => none]) cursor
  let pageStart := if cursor.isSome then 0 else request.skip
  let remaining := finalRows.drop pageStart
  let page := remaining.take request.limit
  (page.map (·.row), if request.limit < remaining.length then page.getLast?.map (·.key) else none)

def followNextCursor (pipe : Pipeline V K) (request : PageRequest) : ℕ → Option FinalKey → Option (List (Row V))
  | 0, _ => none
  | fuel + 1, cursor =>
    match queryGraphPipelineNormalized keys pipe request cursor with
    | (rows, none) => some rows
    | (rows, some next) => (followNextCursor pipe request fuel (some next)).map (rows ++ ·)

/-- The result on one page: the limit is above the number of rows. -/
def onePage (pipe : Pipeline V K) (skip : ℕ) : List (Row V) :=
  (queryGraphPipelineNormalized keys pipe ⟨skip, (stageRows keys pipe).length + 1, by omega⟩ none).1

/-- No page ends between rows that agree in their explicit and logical keys: if `below` rows
have smaller keys than a row and `upTo` rows have keys that are not larger, no boundary is
strictly between them. -/
def NoBoundaryInTie (pipe : Pipeline V K) (request : PageRequest) : Prop :=
  ∀ row ∈ stageRows keys pipe,
    ¬KeysetPages.Splits (compareGraphFinalKeysByDirections (orderDirections pipe.terminalOrderBy)) FinalRow.key
      request.skip request.limit (stageRows keys pipe) row

private def order (pipe : Pipeline V K) : FinalKey → FinalKey → Ordering :=
  compareGraphFinalKeysByDirections (orderDirections pipe.terminalOrderBy)

private instance (pipe : Pipeline V K) : Std.TransCmp (order pipe) := inferInstanceAs (Std.TransCmp (compareGraphFinalKeysByDirections _))

private def sortedRows (pipe : Pipeline V K) : List (FinalRow V) :=
  sortFinalRows (orderDirections pipe.terminalOrderBy) (stageRows keys pipe)

variable (pipe : Pipeline V K)

theorem sortedRows_perm : (sortedRows keys pipe).Perm (stageRows keys pipe) := perm_insertionSort _ _

theorem sortedRows_pairwise : (sortedRows keys pipe).Pairwise
    fun left right => (order pipe left.key right.key).isLE := by
  have htotal : Std.Total fun left right : FinalRow V => (order pipe left.key right.key).isLE := by
    constructor
    intro left right
    by_cases h : (order pipe left.key right.key).isLE
    · exact Or.inl h
    · refine Or.inr ?_
      rw [Std.OrientedCmp.lt_of_not_isLE h]
      rfl
  have htrans : IsTrans (FinalRow V) fun left right => (order pipe left.key right.key).isLE := ⟨fun _ _ _ => Std.TransCmp.isLE_trans⟩
  exact pairwise_insertionSort _ _

/-- The rows a page is cut from. -/
private def remaining (pipe : Pipeline V K) (skip : ℕ) : Option FinalKey → List (FinalRow V)
  | none => (sortedRows keys pipe).drop skip
  | some last => KeysetPages.above (order pipe) FinalRow.key (sortedRows keys pipe) last

theorem query_eq (request : PageRequest) (cursor : Option FinalKey) : queryGraphPipelineNormalized keys pipe request cursor =
      (((page FinalRow.key request.limit (remaining keys pipe request.skip cursor)).1).map (·.row),
        (page FinalRow.key request.limit (remaining keys pipe request.skip cursor)).2) := by
  cases cursor with
  | none | some last => rfl

theorem followNextCursor_eq (request : PageRequest) (fuel : ℕ) (cursor : Option FinalKey) :
    followNextCursor keys pipe request fuel cursor =
      (collect (order pipe) FinalRow.key request.limit (sortedRows keys pipe) fuel
        (remaining keys pipe request.skip cursor)).map (List.map (·.row)) := by
  induction fuel generalizing cursor with
  | zero => rfl
  | succ fuel ih =>
    rw [followNextCursor, query_eq, collect]
    rcases page FinalRow.key request.limit (remaining keys pipe request.skip cursor) with
      ⟨entries, _ | last⟩
    · rfl
    · change (followNextCursor keys pipe request fuel (some last)).map _ = _
      rw [ih (some last)]
      simp only [remaining, Option.map_map]
      congr 1
      funext pages
      simp

theorem onePage_eq (skip : ℕ) : onePage keys pipe skip = ((sortedRows keys pipe).drop skip).map (·.row) := by
  rw [onePage, query_eq]
  have hlen := (sortedRows_perm keys pipe).length_eq
  have hsh : ((sortedRows keys pipe).drop skip).length ≤ (stageRows keys pipe).length + 1 := by
    rw [length_drop]
    omega
  simp only [page, remaining]
  rw [take_of_length_le hsh]

/-- Following the cursors ends, and the pages are the result on one page, in order and also
only up to order, if and only if no page ends between rows that agree in their keys. -/
theorem pages_complete_iff (pipe : Pipeline V K) (request : PageRequest) (fuel : ℕ) :
    ∃ pages, followNextCursor keys pipe request ((stageRows keys pipe).length + 1 + fuel) none = some pages ∧
      (pages = onePage keys pipe request.skip ↔ NoBoundaryInTie keys pipe request) ∧
      (pages.Perm (onePage keys pipe request.skip) ↔ NoBoundaryInTie keys pipe request) := by
  have hsorted := sortedRows_pairwise keys pipe
  have hlen := (sortedRows_perm keys pipe).length_eq
  obtain ⟨pages, hcollect, -, hall, hnoTie⟩ := KeysetPages.collect_spec request.limit_pos hsorted
    ((stageRows keys pipe).length + 1 + fuel)
    ((sortedRows keys pipe).take request.skip) ((sortedRows keys pipe).drop request.skip)
    (take_append_drop _ _).symm (by rw [length_drop]; omega)
  have htie : KeysetPages.NoTie (order pipe) FinalRow.key request.limit
      ((sortedRows keys pipe).drop request.skip) ↔ NoBoundaryInTie keys pipe request := by
    rw [KeysetPages.noTie_drop_iff request.limit_pos hsorted, NoBoundaryInTie]
    constructor
    · intro h row hrow hsplit
      have hperm := sortedRows_perm keys pipe
      exact h row (hperm.mem_iff.mpr hrow) ((KeysetPages.splits_congr hperm _ _ row).mpr hsplit)
    · intro h row hrow hsplit
      have hperm := sortedRows_perm keys pipe
      exact h row (hperm.mem_iff.mp hrow) ((KeysetPages.splits_congr hperm _ _ row).mp hsplit)
  have hperm_length : (pages.map (·.row)).Perm (onePage keys pipe request.skip) →
      NoBoundaryInTie keys pipe request := by
    intro hperm
    refine htie.mp (hnoTie ?_)
    have := hperm.length_eq
    rwa [onePage_eq, length_map, length_map] at this
  have hequal : NoBoundaryInTie keys pipe request →
      pages.map (·.row) = onePage keys pipe request.skip := by
    intro h
    rw [onePage_eq, hall (htie.mpr h)]
  refine ⟨pages.map (·.row), ?_, ?_, ?_⟩
  · rw [followNextCursor_eq]
    simp only [remaining, hcollect, Option.map_some]
  · exact ⟨fun h => hperm_length (List.Perm.of_eq h), hequal⟩
  · exact ⟨hperm_length, fun h => List.Perm.of_eq (hequal h)⟩

end

/-- Values that are their own sort atoms. -/
def atomKeys : ValueKeys GraphSortAtom ℕ where
  sortAtom := id
  canonicalKey
    | some (.node id) => id + 1
    | _ => 0
  encodeSortAtoms atoms := atoms.flatMap fun
    | .node id => [graphSortAtomRank (.node id), id]
    | atom => [graphSortAtomRank atom]
  ofBytes := .bytes
  ofUInt ord := .number [ord]

/-- Match node 1, find all shortest paths to node 2 over two parallel edges, and return the
node only. -/
def parallelPaths : Pipeline GraphSortAtom ℕ :=
  .mk
    [.graphMatch ⟨fun _ => [setSlot (fun _ => none) 0 (some (.node 1))], [0], id, 9⟩,
      .shortestPath ⟨.all, false, id, fun _ => [.path 1 [1, 2] [5], .path 1 [1, 2] [6]], 1⟩,
      .project ⟨.scalar fun row => setSlot row 1 none, false, [0], [], [9, 0], 0, none, id, fun _ => true⟩]
    [9, 0] []

/-- Both rows have the key of the match; with one row on a page the second one is lost. -/
theorem second_path_lost : ∃ pages, followNextCursor atomKeys parallelPaths ⟨0, 1, by decide⟩ 3 none = some pages ∧
      ¬pages.Perm (onePage atomKeys parallelPaths 0) := by
  have hpages : (followNextCursor atomKeys parallelPaths ⟨0, 1, by decide⟩ 3 none).map List.length = some 1 := by
    decide
  obtain ⟨pages, hfollow, hlen⟩ := Option.map_eq_some_iff.mp hpages
  refine ⟨pages, hfollow, fun hperm => ?_⟩
  have hall : (onePage atomKeys parallelPaths 0).length = 2 := by decide
  have := hperm.length_eq
  omega

end OverGraph.PipelinePages
