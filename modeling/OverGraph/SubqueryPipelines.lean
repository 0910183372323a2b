import OverGraph.MatchGoals
import OverGraph.SpentBudgets

/-!
# Pipelines of subqueries

A pipeline runs its stages one after the other, behind which there may be a union of pipelines that all start from its rows. Whether a
subquery has a row is asked in three ways: of the branches of a union, until one has a row; by a probe, which only looks for one match if
the projections cannot take all rows away; or of all its rows.
-/

namespace OverGraph.SubqueryPipelines
open LayeredWrites Sources PrunePolicies RequiredSegments BindingRows SubqueryCaches PipelineExpressions ProjectStages
open SortKeys MatchGoals SpentBudgets

variable {O Q : Type}

inductive PatternPiece where
  | edge
  | variableLength
  | optional
  deriving DecidableEq

/-- A match that is not optional, as it is written and as it is planned. -/
structure MatchStage (O : Type) where
  pieces : List PatternPiece
  plan : RuntimePlan
  options : MatchOptions
  initialBoundSlots : List ℕ
  bindingSchema : Schema
  inputMappings : List PipelineSlotMapping
  outputSchema : Schema
  outputMappings : List PipelineSlotMapping
  cursorSlot : ℕ
  residualNeedsFields : Bool
  whereExpr : Option (BoundExpr O)
  orderBy : List (BoundOrderItem O)

structure OptionalMatchStage where
  outputSchema : Schema
  run : Schema → List Row → Budget → Except EvalError (List Row × Budget)
  priced : ∀ schema rows, Priced Prod.mk (run schema rows)

structure ShortestPathStage where
  outputSchema : Schema
  run : List Row → Except EvalError (List Row)

inductive Stage (O : Type) where
  | pattern (stage : MatchStage O)
  | optionalMatch (stage : OptionalMatchStage)
  | shortestPath (stage : ShortestPathStage)
  | project (stage : NormalizedProjectStage O)
  | call (stage : CallStage) (query : Subquery)

/-- What holds for a whole pipeline. Its page is not empty, and no larger than the most rows it may return. -/
structure PipelineShape (O : Type) where
  initialSchema : Schema
  terminalSchema : Schema
  terminalOrderBy : List (BoundOrderItem O)
  preservePipelineOrder : Bool
  pageLimit : ℕ
  maxRows : ℕ
  options : ProjectOptions
  limit_pos : 0 < pageLimit
  limit_le : pageLimit ≤ maxRows

structure UnionStage where
  all : Bool
  outputSchema : Schema
  ordinalSlot : ℕ
  distinctSlots : List ℕ
  maxGroups : ℕ

mutual

/-- A union is the last stage of its pipeline. -/
inductive Pipeline (O : Type) where
  | plain (shape : PipelineShape O) (stages : List (Stage O))
  | union (shape : PipelineShape O) (stages : List (Stage O)) (stage : UnionStage) (branches : Branches O)

inductive Branches (O : Type) where
  | nil
  | cons (outputMappings : List PipelineSlotMapping) (pipeline : Pipeline O) (branches : Branches O)

end

def Pipeline.shape : Pipeline O → PipelineShape O
  | .plain shape _ => shape
  | .union shape _ _ _ => shape

/-- The state that is read, and the language of the expressions. -/
structure ReadContext (O Q : Type) (sl : SourceList) where
  policyCutoffs : Option PrecomputedPruneCutoffs
  sources : MatchSources sl policyCutoffs
  effectiveAtEpoch : ℤ
  language : Language O Q
  encodeSortAtoms : List GraphSortAtom → Except String (List UInt8)
  /-- Literal lists and maps, identifiers and tests for null. -/
  probeOperator : O → Bool

def matchState : SlotState → JoinOrders.SlotState ℕ
  | .bound (.node id) => .bound id
  | .bound (.edge id) => .bound id
  | .null => .null
  | _ => .unbound

def toMatchRow (row : Row) : MatchRow where
  slots
    | .node place => (row[place]?).elim .unbound matchState
    | .edge place => (row[place]?).elim .unbound matchState
    | .hidden _ => .unbound
  rest := ⟨row, fun _ => none⟩

def rowState (element : ℕ → GraphEvalValue) : JoinOrders.SlotState ℕ → SlotState
  | .unbound => .unbound
  | .null => .null
  | .bound id => .bound (element id)

def ofMatchRow (sch : Schema) (row : MatchRow) : Row :=
  sch.mapIdx fun place slot =>
    match slot.kind with
    | .node => rowState .node (row.slots (.node place))
    | .edge => rowState .edge (row.slots (.edge place))
    | .path | .scalar => (row.rest.row[place]?).getD .unbound

structure Flow where
  schema : Schema
  rows : List Row

section
variable {sl : SourceList} (ctx : ReadContext O Q sl)

/-- Without bindings there are no rows to start from. -/
def matchInput (sch : Schema) (stage : MatchStage O) (rows : List Row) : Except EvalError (Option (List MatchRow)) := do
  let bridged ← rows.mapM (bridgeRow sch stage.bindingSchema stage.inputMappings)
  .ok (if sch.isEmpty then none else some (bridged.map toMatchRow))

def matchRows (stage : MatchStage O) (goal : RuntimeGoal) (initialRows : Option (List MatchRow)) : Except EvalError (List MatchRow) :=
  executeMatch sl ctx.policyCutoffs ctx.sources stage.options ctx.effectiveAtEpoch stage.plan stage.initialBoundSlots
    ⟨emptyRow stage.bindingSchema, fun _ => none⟩ goal initialRows

def checkResidualReads (stage : MatchStage O) (rows : List MatchRow) : Except EvalError Unit :=
  if stage.options.maxOrderMaterialization < rows.length ∧ stage.residualNeedsFields then
    .error (graphRowCapError "max_order_materialization" stage.options.maxOrderMaterialization)
  else .ok ()

def filterMatched (stage : MatchStage O) (rows : List Row) : Except EvalError (List Row) :=
  match stage.whereExpr with
  | none => .ok rows
  | some expr => rows.foldlM (filterStep ctx.language expr) []

def attachCursorKey (stage : MatchStage O) (row : Row) : Except EvalError Row := do
  let atoms ← logicalSortKey stage.bindingSchema row
  let cursorKey ← raise (ctx.encodeSortAtoms atoms)
  let output ← bindMappings stage.outputSchema row (stage.outputMappings.filter fun mapping => decide (mapping.target ≠ stage.cursorSlot))
    (emptyRow stage.outputSchema)
  bindPipelineValueToSlot stage.outputSchema output stage.cursorSlot (.bytes cursorKey)

def executeMatchStage (sch : Schema) (stage : MatchStage O) (rows : List Row) : Except EvalError (List Row) := do
  let initialRows ← matchInput sch stage rows
  let matched ← matchRows ctx stage .allRows initialRows
  checkResidualReads stage matched
  let filtered ← filterMatched ctx stage (matched.map (ofMatchRow stage.bindingSchema))
  filtered.mapM (attachCursorKey ctx stage)

/-- The rows of a stage behind which there are others are limited. -/
def cappedFlow (opts : ProjectOptions) (sch : Schema) (res : List Row × Budget) : Except EvalError (Flow × Budget) := do
  enforceIntermediateRows res.1.length opts.toPipelineOptions
  .ok (⟨sch, res.1⟩, res.2)

def executeStage (opts : ProjectOptions) (st : Flow × Budget) : Stage O → Except EvalError (Flow × Budget)
  | .pattern stage => do
    let rows ← executeMatchStage ctx st.1.schema stage st.1.rows
    cappedFlow opts stage.outputSchema (rows, st.2)
  | .optionalMatch stage => do
    let res ← stage.run st.1.schema st.1.rows st.2
    cappedFlow opts stage.outputSchema res
  | .shortestPath stage => do
    let rows ← stage.run st.1.rows
    cappedFlow opts stage.outputSchema (rows, st.2)
  | .project stage => do
    let res ← projectStageRows ctx.language opts stage st.1.rows st.2
    if stage.kind = .return then .ok (⟨stage.outputSchema, res.1⟩, res.2)
    else cappedFlow opts stage.outputSchema res
  | .call stage query => do
    let res ← callRows query stage opts.toPipelineOptions st.1.rows st.2
    cappedFlow opts stage.outputSchema res

def executeStages (opts : ProjectOptions) (stages : List (Stage O)) (st : Flow × Budget) : Except EvalError (Flow × Budget) :=
  stages.foldlM (executeStage ctx opts) st

/-- Rows that keep the order of the pipeline are ordered by their place. -/
def finalLogicalKey (shape : PipelineShape O) (entry : Row × ℕ) : Except EvalError (List GraphSortAtom) :=
  if shape.preservePipelineOrder && shape.terminalOrderBy.isEmpty then .ok [.bytes (keyBytes (SortedBytes.beBytes 8 entry.2))]
  else logicalSortKey shape.terminalSchema entry.1

def finalKeyedRow (shape : PipelineShape O) (entry : Row × ℕ) : Except EvalError (Row × FinalKey) := do
  let sortKey ← shape.terminalOrderBy.mapM fun item => do
    let value ← evalBoundGraphExpr ctx.language entry.1 item.expr
    graphSortAtomForValue value
  let logicalKey ← finalLogicalKey shape entry
  .ok (entry.1, ⟨sortKey, logicalKey⟩)

def pipelinePrepareFinalRows (shape : PipelineShape O) (rows : List Row) : Except EvalError (List Row) :=
  if shape.options.maxOrderMaterialization < rows.length then
    .error (graphRowCapError "max_order_materialization" shape.options.maxOrderMaterialization)
  else do
    let keyed ← rows.zipIdx.mapM (finalKeyedRow ctx shape)
    let directions := shape.terminalOrderBy.map BoundOrderItem.direction
    let sorted := keyed.insertionSort fun a b => (compareGraphFinalKeysByDirections directions a.2 b.2).isLE
    .ok (sorted.map Prod.fst)

def unionOutputRow (stage : UnionStage) (outputMappings : List PipelineSlotMapping) (entry : Row × ℕ) : Except EvalError Row := do
  let output ← bindPipelineValueToSlot stage.outputSchema (emptyRow stage.outputSchema) stage.ordinalSlot (.uint entry.2)
  bindMappings stage.outputSchema entry.1 outputMappings output

def unionDistinctStep (stage : UnionStage) (st : Unique) (row : Row) : Except EvalError Unique := do
  let key ← graphCanonicalKeyForRowSlots row stage.distinctSlots
  if key ∈ st.seen then .ok st
  else if stage.maxGroups ≤ st.seen.length then
    .error (.invalid s!"GraphUnionStage DISTINCT exceeded max_groups {stage.maxGroups}")
  else .ok ⟨st.seen ++ [key], st.rows ++ [row]⟩

def unionRows (stage : UnionStage) (rows : List Row) : Except EvalError (List Row) :=
  if stage.all then .ok rows
  else do
    let st ← rows.foldlM (unionDistinctStep stage) ⟨[], []⟩
    .ok st.rows

mutual

def executePipeline : Pipeline O → List Row → Budget → Except EvalError (Flow × Budget)
  | .plain shape stages, rows, bud => executeStages ctx shape.options stages (⟨shape.initialSchema, rows⟩, bud)
  | .union shape stages stage brs, rows, bud => do
    let st ← executeStages ctx shape.options stages (⟨shape.initialSchema, rows⟩, bud)
    let res ← executeBranches stage brs st.1.rows ([], st.2)
    let merged ← unionRows stage res.1
    cappedFlow shape.options stage.outputSchema (merged, res.2)

def executeBranches (stage : UnionStage) : Branches O → List Row → List Row × Budget → Except EvalError (List Row × Budget)
  | .nil, _, st => .ok st
  | .cons outputMappings pipe brs, initialRows, st => do
    let flow ← executePipeline pipe initialRows st.2
    let final ← pipelinePrepareFinalRows ctx pipe.shape flow.1.rows
    let output ← (final.zipIdx st.1.length).mapM (unionOutputRow stage outputMappings)
    executeBranches stage brs initialRows (st.1 ++ output, flow.2)

end

def allSubqueryRows (pipe : Pipeline O) (initialRows : List Row) (bud : Budget) : Except EvalError (List Row × Budget) := do
  let flow ← executePipeline ctx pipe initialRows bud
  let final ← pipelinePrepareFinalRows ctx pipe.shape flow.1.rows
  .ok (final, flow.2)

inductive SubqueryRowMode where
  | exists
  | call

def limitSubqueryRows (shape : PipelineShape O) (rows : List Row) : SubqueryRowMode → Except EvalError (List Row)
  | .exists => .ok (rows.take (min shape.pageLimit shape.maxRows))
  | .call =>
    if shape.options.maxPipelineRows < rows.length then .error (graphRowCapError "max_pipeline_rows" shape.options.maxPipelineRows)
    else .ok rows

def executePipelineSubqueryRows (pipe : Pipeline O) (initialRows : List Row) (bud : Budget) (mode : SubqueryRowMode) :
    Except EvalError (List Row × Budget) := do
  let final ← allSubqueryRows ctx pipe initialRows bud
  let limited ← limitSubqueryRows pipe.shape final.1 mode
  .ok (limited, final.2)

structure ExistsProbePlan (O : Type) where
  matchStage : Option (MatchStage O)
  alwaysFalse : Bool

def graphRowQueryAllowsPhysicalExistsProbe (stage : MatchStage O) : Bool :=
  stage.whereExpr.isNone && stage.orderBy.isEmpty && !stage.pieces.contains .optional

mutual

def boundGraphExprAllowsPhysicalExistsProbe : BoundExpr O → Bool
  | .literal _ => true
  | .binding _ => true
  | .field _ _ => true
  | .apply operator args => ctx.probeOperator operator && allAllowPhysicalExistsProbe args

def allAllowPhysicalExistsProbe : List (BoundExpr O) → Bool
  | [] => true
  | arg :: args => boundGraphExprAllowsPhysicalExistsProbe arg && allAllowPhysicalExistsProbe args

end

def pipelineProjectItemAllowsPhysicalExistsProbe (item : NormalizedItem O) : Bool :=
  item.aggregateExpr.isNone && item.expr.all (boundGraphExprAllowsPhysicalExistsProbe ctx)

def pipelineProjectAllowsPhysicalExistsProbe (stage : NormalizedProjectStage O) : Bool :=
  !stage.distinct && stage.aggregate.isNone && stage.whereExpr.isNone && stage.existsPredicates.isEmpty && stage.orderBy.isEmpty &&
    decide (stage.skip = 0) && stage.items.all (pipelineProjectItemAllowsPhysicalExistsProbe ctx)

def Stage.isMatch : Stage O → Bool
  | .pattern _ => true
  | .optionalMatch _ => true
  | _ => false

/-- The stages are looked at one after the other. A limit of zero ends this. -/
def probeStages (matchCount : ℕ) (endsInUnion : Bool) : Option (MatchStage O) → List (Stage O) → Option (ExistsProbePlan O)
  | found, [] => if endsInUnion then none else some ⟨found, false⟩
  | found, stage :: stages =>
    match stage with
    | .pattern stage => if graphRowQueryAllowsPhysicalExistsProbe stage then probeStages matchCount endsInUnion (some stage) stages else none
    | .project stage =>
      if found.isNone && matchCount == 1 then none
      else if !pipelineProjectAllowsPhysicalExistsProbe ctx stage then none
      else if stage.limit = some 0 then some ⟨found, true⟩
      else probeStages matchCount endsInUnion found stages
    | .optionalMatch _ | .shortestPath _ | .call _ _ => none

def pipelineExistsProbePlan (endsInUnion : Bool) (stages : List (Stage O)) : Option (ExistsProbePlan O) :=
  if 1 < stages.countP Stage.isMatch then none else probeStages ctx (stages.countP Stage.isMatch) endsInUnion none stages

def executeExistsProbe (initialSchema : Schema) (plan : ExistsProbePlan O) (initialRows : List Row) : Except EvalError Bool :=
  if plan.alwaysFalse || initialRows.isEmpty then .ok false
  else match plan.matchStage with
    | none => .ok true
    | some stage => do
      let input ← matchInput initialSchema stage initialRows
      let matched ← matchRows ctx stage .existsOne input
      .ok (!matched.isEmpty)

/-- The probe if it is allowed, or else all rows. -/
def existsByRows (pipe : Pipeline O) (plan : Option (ExistsProbePlan O)) (initialRows : List Row) (bud : Budget) :
    Except EvalError (Bool × Budget) :=
  match plan with
  | some plan => do
    let found ← executeExistsProbe ctx pipe.shape.initialSchema plan initialRows
    .ok (found, bud)
  | none => do
    let rows ← executePipelineSubqueryRows ctx pipe initialRows bud .exists
    .ok (!rows.1.isEmpty, rows.2)

mutual

def executePipelineSubqueryExists : Pipeline O → List Row → Budget → Except EvalError (Bool × Budget)
  | .plain shape stages, initialRows, bud =>
    existsByRows ctx (.plain shape stages) (pipelineExistsProbePlan ctx false stages) initialRows bud
  | .union _ [] _ brs, initialRows, bud => if initialRows.isEmpty then .ok (false, bud) else executeUnionExists brs initialRows bud
  | .union shape (fst :: stages) stage brs, initialRows, bud =>
    existsByRows ctx (.union shape (fst :: stages) stage brs) (pipelineExistsProbePlan ctx true (fst :: stages)) initialRows bud

/-- The branches are asked until one has a row. -/
def executeUnionExists : Branches O → List Row → Budget → Except EvalError (Bool × Budget)
  | .nil, _, bud => .ok (false, bud)
  | .cons _ pipe brs, initialRows, bud => do
    let found ← executePipelineSubqueryExists pipe initialRows bud
    if found.1 then .ok found else executeUnionExists brs initialRows found.2

end

end

end OverGraph.SubqueryPipelines
