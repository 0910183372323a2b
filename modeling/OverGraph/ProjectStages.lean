import OverGraph.PipelineExpressions

/-!
# Projection stages

A projection stage gives each row, or each group of rows, a row of a new schema, keeps one of the rows with equal values, sorts, skips and
cuts them, and then asks its predicates. The slots of its schema are those of its items, behind them one for each subquery whose existence
the filter asks for, and behind these one for each order of an aggregate projection that no column holds.
-/

namespace OverGraph.ProjectStages
open BindingRows SubqueryCaches PipelineExpressions SortKeys

inductive GraphProjectKind where
  | with
  | return
  deriving DecidableEq

structure GraphProjectItem (O Q : Type) where
  expr : GraphExpr O Q
  userAlias : Option String

structure GraphOrderItem (O Q : Type) where
  expr : GraphExpr O Q
  direction : GraphOrderDirection

inductive GraphProjectionItems (O Q : Type) where
  | star
  | items (items : List (GraphProjectItem O Q))

structure GraphProjectStage (O Q : Type) where
  kind : GraphProjectKind
  items : GraphProjectionItems O Q
  distinct : Bool
  whereExpr : Option (GraphExpr O Q)
  orderBy : List (GraphOrderItem O Q)
  skip : Option (GraphExpr O Q)
  limit : Option (GraphExpr O Q)

structure NormalizedItem (O : Type) where
  outputName : String
  outputSlot : ℕ
  sourceSlot : Option ℕ
  expr : Option (BoundExpr O)
  aggregateExpr : Option (BoundExpr O)

structure BoundOrderItem (O : Type) where
  expr : BoundExpr O
  direction : GraphOrderDirection

/-- An expression and the slot it is evaluated into. -/
structure SlotExpr (O : Type) where
  expr : BoundExpr O
  slot : ℕ

structure NormalizedAggregateCall (O : Type) where
  function : AggregateFunction
  distinct : Bool
  arg : Option (BoundExpr O)
  evalSlot : ℕ

structure NormalizedAggregate (O : Type) where
  evalSchema : Schema
  groupKeys : List (SlotExpr O)
  calls : List (NormalizedAggregateCall O)
  orderOutputs : List (SlotExpr O)
  internalCursorSlot : Option ℕ

structure NormalizedProjectStage (O : Type) where
  kind : GraphProjectKind
  distinct : Bool
  inputSchema : Schema
  outputSchema : Schema
  items : List (NormalizedItem O)
  internalMappings : List PipelineSlotMapping
  distinctSlots : List ℕ
  aggregate : Option (NormalizedAggregate O)
  whereExpr : Option (BoundExpr O)
  existsPredicates : List NormalizedExistsPredicate
  orderBy : List (BoundOrderItem O)
  skip : ℕ
  limit : Option ℕ

structure ProjectOptions extends PipelineOptions where
  maxGroups : ℕ
  maxSubqueryDepth : ℕ
  maxOrderMaterialization : ℕ
  maxSkip : ℕ

variable {O Q : Type}

def pipelineCursorKeySlot : String := "__og_pipeline_cursor_key"

def pipelineInternalCursorSlot (sch : Schema) : Option ℕ :=
  sch.findIdx? fun slot => slot.kind == .scalar && slot.userAlias.isNone && slot.name == pipelineCursorKeySlot

def ensurePipelineCursorKeySlot (sch : Schema) : Schema × ℕ :=
  match pipelineInternalCursorSlot sch with
  | some slot => (sch, slot)
  | none => (sch ++ [⟨pipelineCursorKeySlot, none, .scalar, false⟩], sch.length)

def pipelineInternalCursorMappings (input output : Schema) : Except EvalError (List PipelineSlotMapping) :=
  match pipelineInternalCursorSlot input with
  | none => .ok []
  | some source =>
    match pipelineInternalCursorSlot output with
    | none => .error (.invalid "graph pipeline stage schema dropped internal cursor key")
    | some target => .ok [⟨source, target⟩]

def pipelineSlotIsUserVisible (slot : Slot) : Bool :=
  match slot.userAlias with
  | none => false
  | some name => !reservedAlias name

/-- The places of the slots a user named. -/
def pipelineVisibleSlots (sch : Schema) : List ℕ := (List.range sch.length).filter fun slot => (sch[slot]?).any pipelineSlotIsUserVisible

def pipelineProjectStageAllowsEmptyStarFilter (stage : GraphProjectStage O Q) : Bool :=
  stage.kind == .with && !stage.distinct && stage.whereExpr.isSome && stage.orderBy.isEmpty && stage.skip.isNone && stage.limit.isNone

def pipelineProjectItems (stage : GraphProjectStage O Q) (inputSchema : Schema) : Except EvalError (List (GraphProjectItem O Q)) :=
  match stage.items with
  | .star =>
    let items := inputSchema.filterMap fun slot =>
      if pipelineSlotIsUserVisible slot then slot.userAlias.map fun name => ⟨.binding name, some name⟩ else none
    if items.isEmpty && !pipelineProjectStageAllowsEmptyStarFilter stage then
      .error (.invalid "graph pipeline WITH * requires at least one visible alias")
    else .ok items
  | .items items => if items.isEmpty then .error (.invalid "graph pipeline Project items must not be empty") else .ok items

def pipelineProjectOutputName (item : GraphProjectItem O Q) : Except EvalError String :=
  match item.userAlias with
  | some name => do
    validateGraphPipelineUserAlias name "projection alias"
    .ok name
  | none =>
    match item.expr with
    | .binding name => do
      validateGraphPipelineUserAlias name "projection alias"
      .ok name
    | .field name field => do
      validateGraphPipelineUserAlias s!"{name}.{field.name}" "projection alias"
      .ok s!"{name}.{field.name}"
    | _ => .error (.invalid "graph pipeline complex Project expressions require an alias")

def pipelineCountExpr (ctx : String) : GraphExpr O Q → Except EvalError ℕ
  | .literal (.int value) => if 0 ≤ value then .ok value.toNat else .error (.invalid s!"graph pipeline {ctx} value must be non-negative")
  | .literal (.uint value) => .ok value
  | _ => .error (.invalid s!"graph pipeline {ctx} must be a non-negative integer literal or parameter")

def sourceSlotOf (inputSchema : Schema) : GraphExpr O Q → Option ℕ
  | .binding name => slotForAlias inputSchema name
  | _ => none

/-- A slot like that of the source, or one for any value. -/
def addPipelineOutputSlot (inputSchema outputSchema : Schema) (name : String) : Option ℕ → Except EvalError (Schema × ℕ)
  | some source =>
    match inputSchema[source]? with
    | none => .error (.invalid s!"graph pipeline source slot {source} is missing")
    | some info => addAliasedSlot outputSchema name info.kind info.nullable
  | none => addAliasedSlot outputSchema name .scalar true

structure ItemsState (O : Type) where
  schema : Schema
  items : List (NormalizedItem O)

/-- An alias is copied from its slot, anything else is evaluated. -/
def bindItemExpr (inputSchema : Schema) (expr : GraphExpr O Q) : Option ℕ → Except EvalError (Option (BoundExpr O))
  | some _ => .ok none
  | none => (bindGraphExpr inputSchema expr).map some

def normalizeItem (inputSchema : Schema) (st : ItemsState O) (item : GraphProjectItem O Q) : Except EvalError (ItemsState O) := do
  let outputName ← pipelineProjectOutputName item
  let source := sourceSlotOf inputSchema item.expr
  let (sch, outputSlot) ← addPipelineOutputSlot inputSchema st.schema outputName source
  let expr ← bindItemExpr inputSchema item.expr source
  .ok ⟨sch, st.items ++ [⟨outputName, outputSlot, source, expr, none⟩]⟩

structure FilterParts (O : Type) where
  schema : Schema
  predicates : List NormalizedExistsPredicate
  whereExpr : Option (BoundExpr O)

def bindGraphOrderItems (sch : Schema) (orderBy : List (GraphOrderItem O Q)) : Except EvalError (List (BoundOrderItem O)) :=
  orderBy.mapM fun item => do
    let expr ← bindGraphExpr sch item.expr
    .ok ⟨expr, item.direction⟩

section
variable (lang : Language O Q) (opts : ProjectOptions) (subqueryDepth : ℕ)

/-- The subqueries of the filter are taken out into new slots before it is bound. -/
def normalizeFilter (whereExpr : Option (GraphExpr O Q)) (sch : Schema) : Except EvalError (FilterParts O) :=
  match whereExpr with
  | none => .ok ⟨sch, [], none⟩
  | some expr => do
    let (expr, st) ← rewritePipelineExistsExpr lang opts.maxSubqueryDepth subqueryDepth ⟨sch, []⟩ expr
    let bound ← bindGraphExpr st.schema expr
    .ok ⟨st.schema, st.predicates, some bound⟩

def normalizeScalarProjectStage (stage : GraphProjectStage O Q) (inputSchema outputSchema : Schema)
    (internalMappings : List PipelineSlotMapping) (projectItems : List (GraphProjectItem O Q)) :
    Except EvalError (NormalizedProjectStage O) := do
  let proj ← projectItems.foldlM (normalizeItem inputSchema) ⟨outputSchema, []⟩
  let filter ← normalizeFilter lang opts subqueryDepth stage.whereExpr proj.schema
  let orderBy ← bindGraphOrderItems filter.schema stage.orderBy
  let skip ← (stage.skip.mapM (pipelineCountExpr "SKIP"))
  let limit ← (stage.limit.mapM (pipelineCountExpr "LIMIT"))
  .ok {
    kind := stage.kind
    distinct := stage.distinct
    inputSchema := inputSchema
    outputSchema := filter.schema
    items := proj.items
    internalMappings := internalMappings
    distinctSlots := pipelineVisibleSlots filter.schema
    aggregate := none
    whereExpr := filter.whereExpr
    existsPredicates := filter.predicates
    orderBy := orderBy
    skip := skip.getD 0
    limit := limit
  }

def orderGroupExprs (outputNames : List String) (groupExprs : List (GraphExpr O Q)) (item : GraphOrderItem O Q) : List (GraphExpr O Q) :=
  if graphExprContainsAggregate lang item.expr then aggregateCollectGroupExprs lang groupExprs item.expr
  else match item.expr with
    | .binding name => if outputNames.contains name then groupExprs else aggregatePushUniqueExpr lang groupExprs item.expr
    | _ => aggregatePushUniqueExpr lang groupExprs item.expr

structure GroupsState (O : Type) where
  evalSchema : Schema
  groupKeys : List (SlotExpr O)

def normalizeGroupKey (inputSchema : Schema) (st : GroupsState O) (expr : GraphExpr O Q) : Except EvalError (GroupsState O) := do
  let (evalSchema, evalSlot) ← addAliasedSlot st.evalSchema (groupAlias st.groupKeys.length) .scalar true
  let bound ← bindGraphExpr inputSchema expr
  .ok ⟨evalSchema, st.groupKeys ++ [⟨bound, evalSlot⟩]⟩

/-- An item before its expression is bound to the slots of its group. -/
structure RewrittenItem (O Q : Type) where
  outputName : String
  outputSlot : ℕ
  rewritten : GraphExpr O Q

structure RewriteState (O Q : Type) where
  schema : Schema
  items : List (RewrittenItem O Q)
  analysis : AggregateAnalysis O Q

def rewriteItem (inputSchema : Schema) (st : RewriteState O Q) (item : GraphProjectItem O Q) : Except EvalError (RewriteState O Q) := do
  let outputName ← pipelineProjectOutputName item
  let (rewritten, analysis) ← aggregateRewriteExpr lang st.analysis item.expr
  let (sch, outputSlot) ← addPipelineOutputSlot inputSchema st.schema outputName (sourceSlotOf inputSchema item.expr)
  .ok ⟨sch, st.items ++ [⟨outputName, outputSlot, rewritten⟩], analysis⟩

structure OrderState (O Q : Type) where
  orders : List (GraphOrderItem O Q)
  analysis : AggregateAnalysis O Q

def rewriteOrder (names : List (GraphExpr O Q × String)) (st : OrderState O Q) (item : GraphOrderItem O Q) :
    Except EvalError (OrderState O Q) :=
  match names.find? fun entry => sameExpr lang entry.1 item.expr with
  | some (_, outputName) => .ok ⟨st.orders ++ [⟨.binding outputName, item.direction⟩], st.analysis⟩
  | none =>
    let isColumn := match item.expr with
      | .binding name => (names.map Prod.snd).contains name
      | _ => false
    if isColumn then .ok ⟨st.orders ++ [item], st.analysis⟩
    else do
      let (expr, analysis) ← aggregateRewriteExpr lang st.analysis item.expr
      .ok ⟨st.orders ++ [⟨expr, item.direction⟩], analysis⟩

structure CallsState (O : Type) where
  evalSchema : Schema
  calls : List (NormalizedAggregateCall O)

def normalizeCall (inputSchema : Schema) (st : CallsState O) (call : AggregateCallExpr O Q) : Except EvalError (CallsState O) := do
  let arg ← call.arg.mapM (bindGraphExpr inputSchema)
  let (evalSchema, evalSlot) ← addAliasedSlot st.evalSchema (aggregateAlias st.calls.length) .scalar true
  .ok ⟨evalSchema, st.calls ++ [⟨call.function, call.distinct, arg, evalSlot⟩]⟩

def normalizeRewritten (evalSchema : Schema) (item : RewrittenItem O Q) : Except EvalError (NormalizedItem O) := do
  let bound ← bindGraphExpr evalSchema item.rewritten
  .ok ⟨item.outputName, item.outputSlot, none, none, some bound⟩

structure FinalOrderState (O Q : Type) where
  schema : Schema
  finalOrder : List (GraphOrderItem O Q)
  orderOutputs : List (SlotExpr O)

def orderAlias (idx : ℕ) : String := s!"__gql_order_{idx}"

/-- An order that the columns do not give gets a slot of its own. -/
def finalOrderItem (evalSchema : Schema) (st : FinalOrderState O Q) (item : GraphOrderItem O Q) : Except EvalError (FinalOrderState O Q) :=
  match bindGraphExpr st.schema item.expr with
  | .ok _ => .ok { st with finalOrder := st.finalOrder ++ [item] }
  | .error _ => do
    let bound ← bindGraphExpr evalSchema item.expr
    let (sch, outputSlot) ← addAliasedSlot st.schema (orderAlias st.finalOrder.length) .scalar true
    .ok ⟨sch, st.finalOrder ++ [⟨.binding (orderAlias st.finalOrder.length), item.direction⟩], st.orderOutputs ++ [⟨bound, outputSlot⟩]⟩

/-- The cursor of a group is made of its keys. -/
def aggregateCursor (inputSchema outputSchema : Schema) : Schema × Option ℕ :=
  if (pipelineInternalCursorSlot inputSchema).isSome then
    ((ensurePipelineCursorKeySlot outputSchema).1, some (ensurePipelineCursorKeySlot outputSchema).2)
  else (outputSchema, none)

def normalizeAggregateProjectStage (stage : GraphProjectStage O Q) (inputSchema outputSchema : Schema)
    (internalMappings : List PipelineSlotMapping) (projectItems : List (GraphProjectItem O Q)) :
    Except EvalError (NormalizedProjectStage O) := do
  let outputNames ← projectItems.mapM pipelineProjectOutputName
  let itemGroups := projectItems.foldl (fun groupExprs item => aggregateCollectGroupExprs lang groupExprs item.expr) []
  let groupExprs := stage.orderBy.foldl (orderGroupExprs lang outputNames) itemGroups
  let cursor := aggregateCursor inputSchema outputSchema
  let groups ← groupExprs.foldlM (normalizeGroupKey inputSchema) ⟨[], []⟩
  let items ← projectItems.foldlM (rewriteItem lang inputSchema) ⟨cursor.1, [], ⟨groupExprs, []⟩⟩
  let orders ← stage.orderBy.foldlM (rewriteOrder lang ((projectItems.map GraphProjectItem.expr).zip outputNames)) ⟨[], items.analysis⟩
  let calls ← orders.analysis.aggregateCalls.foldlM (normalizeCall inputSchema) ⟨groups.evalSchema, []⟩
  let normalizedItems ← items.items.mapM (normalizeRewritten calls.evalSchema)
  let filter ← normalizeFilter lang opts subqueryDepth stage.whereExpr items.schema
  let final ← orders.orders.foldlM (finalOrderItem calls.evalSchema) ⟨filter.schema, [], []⟩
  let orderBy ← bindGraphOrderItems final.schema final.finalOrder
  let skip ← (stage.skip.mapM (pipelineCountExpr "SKIP"))
  let limit ← (stage.limit.mapM (pipelineCountExpr "LIMIT"))
  .ok {
    kind := stage.kind
    distinct := stage.distinct
    inputSchema := inputSchema
    outputSchema := final.schema
    items := normalizedItems
    internalMappings := internalMappings
    distinctSlots := pipelineVisibleSlots final.schema
    aggregate := some ⟨calls.evalSchema, groups.groupKeys, calls.calls, final.orderOutputs, cursor.2⟩
    whereExpr := filter.whereExpr
    existsPredicates := filter.predicates
    orderBy := orderBy
    skip := skip.getD 0
    limit := limit
  }

def GraphProjectionItems.isStar : GraphProjectionItems O Q → Bool
  | .star => true
  | .items _ => false

def normalizePipelineProjectStage (stage : GraphProjectStage O Q) (inputSchema : Schema) : Except EvalError (NormalizedProjectStage O) := do
  let outputSchema := if (pipelineInternalCursorSlot inputSchema).isSome then (ensurePipelineCursorKeySlot []).1 else []
  let internalMappings ← pipelineInternalCursorMappings inputSchema outputSchema
  let projectItems ← pipelineProjectItems stage inputSchema
  if projectItems.any (fun item => graphExprContainsAggregate lang item.expr) ||
      stage.orderBy.any (fun item => graphExprContainsAggregate lang item.expr) then
    if stage.items.isStar then .error (.invalid "graph pipeline * projections cannot be mixed with aggregate calls")
    else normalizeAggregateProjectStage lang opts subqueryDepth stage inputSchema outputSchema internalMappings projectItems
  else normalizeScalarProjectStage lang opts subqueryDepth stage inputSchema outputSchema internalMappings projectItems

end

section

def compareBytes (left right : List UInt8) : Ordering := compare (keyBytes left) (keyBytes right)

/-- Keys are ordered by their kind, and then by what they hold. -/
def canonicalKeyRank : GraphCanonicalKey → ℕ
  | .null => 0
  | .bool _ => 1
  | .number _ => 2
  | .string _ => 3
  | .bytes _ => 4
  | .node _ => 5
  | .edge _ => 6
  | .path _ _ => 7
  | .list _ => 8
  | .map _ => 9

mutual

def compareCanonicalKeys : GraphCanonicalKey → GraphCanonicalKey → Ordering
  | .bool a, .bool b => compare a b
  | .number a, .number b => compareBytes a b
  | .string a, .string b => compareBytes (WalCodec.utf8 a) (WalCodec.utf8 b)
  | .bytes a, .bytes b => compareBytes a b
  | .node a, .node b => compare a b
  | .edge a, .edge b => compare a b
  | .path nodes edges, .path nodes' edges' => (compare nodes nodes').then (compare edges edges')
  | .list items, .list items' => compareKeyLists items items'
  | .map entries, .map entries' => compareKeyEntries entries entries'
  | a, b => compare (canonicalKeyRank a) (canonicalKeyRank b)

def compareKeyLists : List GraphCanonicalKey → List GraphCanonicalKey → Ordering
  | [], [] => .eq
  | [], _ :: _ => .lt
  | _ :: _, [] => .gt
  | a :: as, b :: bs => (compareCanonicalKeys a b).then (compareKeyLists as bs)

def compareKeyEntries : List (String × GraphCanonicalKey) → List (String × GraphCanonicalKey) → Ordering
  | [], [] => .eq
  | [], _ :: _ => .lt
  | _ :: _, [] => .gt
  | (a, key) :: as, (b, key') :: bs =>
    ((compareBytes (WalCodec.utf8 a) (WalCodec.utf8 b)).then (compareCanonicalKeys key key')).then (compareKeyEntries as bs)

end

end

structure AggregateGroup (S : Type) where
  values : List GraphEvalValue
  states : List S

section
variable (lang : Language O Q) (opts : ProjectOptions) (stage : NormalizedProjectStage O)

def enforcePipelineRows (count : ℕ) : Except EvalError Unit :=
  if stage.kind ≠ .return ∧ opts.maxPipelineRows < count then
    .error (.invalid s!"graph pipeline exceeded max_pipeline_rows {opts.maxPipelineRows}")
  else .ok ()

def itemValue (row : Row) (item : NormalizedItem O) : Except EvalError GraphEvalValue :=
  match item.sourceSlot, item.expr with
  | some source, none => valueForSlot row source
  | none, some expr => evalBoundGraphExpr lang row expr
  | _, _ => .error (.invalid "graph pipeline projection item has invalid source/expression state")

def bindItem (row output : Row) (item : NormalizedItem O) : Except EvalError Row := do
  let value ← itemValue lang row item
  bindPipelineValueToSlot stage.outputSchema output item.outputSlot value

def projectRow (row : Row) : Except EvalError Row := do
  let output ← bindMappings stage.outputSchema row stage.internalMappings (emptyRow stage.outputSchema)
  stage.items.foldlM (bindItem lang stage row) output

def pushProjected (proj : List Row) (row : Row) : Except EvalError (List Row) := do
  let output ← projectRow lang stage row
  enforcePipelineRows opts stage (proj.length + 1)
  .ok (proj ++ [output])

def executePipelineScalarProjectStage (rows : List Row) : Except EvalError (List Row) := rows.foldlM (pushProjected lang opts stage) []

abbrev Groups := List (List GraphCanonicalKey × AggregateGroup lang.State)

variable (aggregate : NormalizedAggregate O)

def newGroup (vs : List GraphEvalValue) : AggregateGroup lang.State :=
  ⟨vs, aggregate.calls.map fun call => lang.newState call.function call.distinct⟩

/-- What a call takes of a row; without an argument it counts the row. -/
def accumulateCall (row : Row) (call : NormalizedAggregateCall O) (state : lang.State) : Except EvalError lang.State := do
  match call.arg with
  | none => raise (lang.accumulate state .null)
  | some arg => do
    let value ← evalBoundGraphExpr lang row arg
    if value.isNull then .ok state else raise (lang.accumulate state value)

def accumulateCalls (row : Row) (states : List lang.State) : Except EvalError (List lang.State) :=
  (aggregate.calls.zip states).mapM fun entry => accumulateCall lang row entry.1 entry.2

def accumulateRow (groups : Groups lang) (row : Row) : Except EvalError (Groups lang) := do
  let vs ← aggregate.groupKeys.mapM fun group => evalBoundGraphExpr lang row group.expr
  let key ← vs.mapM graphCanonicalKeyForValue
  match groups.lookup key with
  | some group => do
    let states ← accumulateCalls lang aggregate row group.states
    .ok (groups.map fun entry => if entry.1 = key then (key, { group with states := states }) else entry)
  | none =>
    if opts.maxGroups ≤ groups.length then .error (.invalid s!"graph pipeline exceeded max_groups {opts.maxGroups}")
    else do
      let states ← accumulateCalls lang aggregate row (newGroup lang aggregate vs).states
      .ok (groups ++ [(key, ⟨vs, states⟩)])

def bindGroupValue (evalRow : Row) (entry : GraphEvalValue × SlotExpr O) : Except EvalError Row :=
  bindPipelineValueToSlot aggregate.evalSchema evalRow entry.2.slot entry.1

def bindCallValue (evalRow : Row) (entry : lang.State × NormalizedAggregateCall O) : Except EvalError Row := do
  let value ← raise (lang.finalValue entry.1)
  bindPipelineValueToSlot aggregate.evalSchema evalRow entry.2.evalSlot value

def groupEvalRow (group : AggregateGroup lang.State) : Except EvalError Row := do
  let evalRow ← (group.values.zip aggregate.groupKeys).foldlM (bindGroupValue aggregate) (emptyRow aggregate.evalSchema)
  (group.states.zip aggregate.calls).foldlM (bindCallValue lang aggregate) evalRow

def bindOrderOutput (evalRow output : Row) (order : SlotExpr O) : Except EvalError Row := do
  let value ← evalBoundGraphExpr lang evalRow order.expr
  bindPipelineValueToSlot stage.outputSchema output order.slot value

def bindAggregateItem (evalRow output : Row) (item : NormalizedItem O) : Except EvalError Row :=
  match item.aggregateExpr with
  | none => .error (.invalid "graph pipeline aggregate projection item is missing aggregate expression")
  | some expr => do
    let value ← evalBoundGraphExpr lang evalRow expr
    bindPipelineValueToSlot stage.outputSchema output item.outputSlot value

def bindCursor (key : List GraphCanonicalKey) : Except EvalError Row :=
  match aggregate.internalCursorSlot with
  | none => .ok (emptyRow stage.outputSchema)
  | some slot => do
    let bytes ← raise (lang.encodeKeys key)
    bindPipelineValueToSlot stage.outputSchema (emptyRow stage.outputSchema) slot (.bytes bytes)

def groupRow (entry : List GraphCanonicalKey × AggregateGroup lang.State) : Except EvalError Row := do
  let evalRow ← groupEvalRow lang aggregate entry.2
  let output ← bindCursor lang stage aggregate entry.1
  let output ← aggregate.orderOutputs.foldlM (bindOrderOutput lang stage evalRow) output
  stage.items.foldlM (bindAggregateItem lang stage evalRow) output

def pushGroup (outputRows : List Row) (entry : List GraphCanonicalKey × AggregateGroup lang.State) : Except EvalError (List Row) := do
  let output ← groupRow lang stage aggregate entry
  enforcePipelineRows opts stage (outputRows.length + 1)
  .ok (outputRows ++ [output])

/-- Without rows and without group keys there is one group. -/
def executePipelineAggregateStage (rows : List Row) : Except EvalError (List Row) := do
  let groups ← rows.foldlM (accumulateRow lang opts aggregate) []
  let groups := if rows.isEmpty && aggregate.groupKeys.isEmpty then [([], newGroup lang aggregate [])] else groups
  let ordered := groups.insertionSort fun a b => (compareKeyLists a.1 b.1).isLE
  ordered.foldlM (pushGroup lang opts stage aggregate) []

structure Unique where
  seen : List (List GraphCanonicalKey)
  rows : List Row

def distinctStep (st : Unique) (row : Row) : Except EvalError Unique := do
  let key ← graphCanonicalKeyForRowSlots row stage.distinctSlots
  if key ∈ st.seen then .ok st
  else if opts.maxGroups ≤ st.seen.length then
    .error (.invalid s!"graph pipeline DISTINCT exceeded max_groups {opts.maxGroups}")
  else .ok ⟨st.seen ++ [key], st.rows ++ [row]⟩

def pipelineApplyDistinct (rows : List Row) : Except EvalError (List Row) := do
  let st ← rows.foldlM (distinctStep opts stage) ⟨[], []⟩
  .ok st.rows

def pipelineExplicitSortKey (row : Row) : Except EvalError (List GraphSortAtom) :=
  stage.orderBy.mapM fun item => do
    let value ← evalBoundGraphExpr lang row item.expr
    graphSortAtomForValue value

def slotSortAtom (row : Row) (slot : ℕ) : Except EvalError GraphSortAtom := do
  let value ← valueForSlot row slot
  graphLogicalSortAtomForValue value

def logicalSortKey (sch : Schema) (row : Row) : Except EvalError (List GraphSortAtom) := (List.range sch.length).mapM (slotSortAtom row)

def keyedRow (row : Row) : Except EvalError (Row × FinalKey) := do
  let sortKey ← pipelineExplicitSortKey lang stage row
  let logicalKey ← logicalSortKey stage.outputSchema row
  .ok (row, ⟨sortKey, logicalKey⟩)

def orderDirections : List GraphOrderDirection := stage.orderBy.map BoundOrderItem.direction

def sortPipelineRows (rows : List Row) : Except EvalError (List Row) := do
  let keyed ← rows.mapM (keyedRow lang stage)
  let sorted := keyed.insertionSort fun a b => (compareGraphFinalKeysByDirections (orderDirections stage) a.2 b.2).isLE
  .ok (sorted.map Prod.fst)

def evaluateStep (st : List Row × SubqueryInvocationBudget) (pred : NormalizedExistsPredicate) :
    Except EvalError (List Row × SubqueryInvocationBudget) :=
  evaluateExistsPredicate pred.subquery stage.outputSchema pred.predicate st.2 st.1

def evaluatePipelineExistsPredicates (bud : SubqueryInvocationBudget) (rows : List Row) :
    Except EvalError (List Row × SubqueryInvocationBudget) :=
  stage.existsPredicates.foldlM (evaluateStep stage) (rows, bud)

def filterStep (expr : BoundExpr O) (filtered : List Row) (row : Row) : Except EvalError (List Row) := do
  let holds ← evalBoundGraphPredicate lang row expr
  .ok (if holds then filtered ++ [row] else filtered)

def filterRows (bud : SubqueryInvocationBudget) (rows : List Row) : Except EvalError (List Row) := do
  let (rows, _) ← evaluatePipelineExistsPredicates stage bud rows
  match stage.whereExpr with
  | none => .ok rows
  | some expr => rows.foldlM (filterStep lang expr) []

def cut (rows : List Row) : List Row :=
  let rows := rows.drop stage.skip
  match stage.limit with
  | none => rows
  | some limit => rows.take limit

def projectRows (rows : List Row) : Except EvalError (List Row) :=
  match stage.aggregate with
  | none => executePipelineScalarProjectStage lang opts stage rows
  | some aggregate => executePipelineAggregateStage lang opts stage aggregate rows

def uniqueRows (rows : List Row) : Except EvalError (List Row) := if stage.distinct then pipelineApplyDistinct opts stage rows else .ok rows

def orderRows (rows : List Row) : Except EvalError (List Row) :=
  if stage.orderBy.isEmpty then .ok rows
  else if opts.maxOrderMaterialization < rows.length then
    .error (.invalid s!"graph row max_order_materialization exceeded configured cap {opts.maxOrderMaterialization}")
  else sortPipelineRows lang stage rows

def executePipelineProjectStage (bud : SubqueryInvocationBudget) (rows : List Row) : Except EvalError (List Row) := do
  let proj ← projectRows lang opts stage rows
  let unique ← uniqueRows opts stage proj
  let ordered ← orderRows lang opts stage unique
  if opts.maxSkip < stage.skip then
    .error (.invalid s!"graph pipeline projection SKIP {stage.skip} exceeds max_skip {opts.maxSkip}")
  else filterRows lang stage bud (cut stage ordered)

end

end OverGraph.ProjectStages
