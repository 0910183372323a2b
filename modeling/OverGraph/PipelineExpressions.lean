import OverGraph.SubqueryCaches

/-!
# Expressions of a pipeline

An expression names aliases and is bound to the slots of a schema before it is evaluated. Operators and functions are those of a
language, which gives the outcome of an operator from the outcomes of its arguments, so that it may leave an argument alone. A projection
takes aggregate calls out of its expressions, and a filter the subqueries whose existence it asks for.
-/

namespace OverGraph.PipelineExpressions
open PropertyValues BindingRows SubqueryCaches

inductive AggregateFunction where
  | count
  | sum
  | avg
  | min
  | max
  | collect
  deriving DecidableEq

def graphAggregateFunctionName : AggregateFunction → String
  | .count => "count"
  | .sum => "sum"
  | .avg => "avg"
  | .min => "min"
  | .max => "max"
  | .collect => "collect"

/-- What is read of the element an alias is bound to. -/
inductive Field where
  | property (key : String)
  | node (name : String)
  | edge (name : String)
  | path (name : String)
  deriving DecidableEq

def Field.name : Field → String
  | .property name => name
  | .node name => name
  | .edge name => name
  | .path name => name

/-- Lists and maps are built by operators, so that a case distinction and its branches are an operator and its arguments. -/
inductive GraphExpr (O Q : Type) where
  | literal (value : GraphEvalValue)
  | binding (name : String)
  | field (name : String) (field : Field)
  | apply (operator : O) (args : List (GraphExpr O Q))
  | aggregateCall (function : AggregateFunction) (distinct : Bool) (arg : Option (GraphExpr O Q))
  | existsSubquery (importAliases : List String) (query : Q)

/-- Operators, subqueries, the state of an aggregate over the rows of a group and the bytes of keys. An operator fails for an unbound slot only if the
evaluation of an argument does. -/
structure Language (O Q : Type) where
  sameOperator : O → O → Bool
  sameQuery : Q → Q → Bool
  buildsCollection : O → Bool
  containsAggregate : Q → Bool
  evaluate : O → List (Except EvalError GraphEvalValue) → Except EvalError GraphEvalValue
  evaluate_unbound : ∀ {operator args slot}, evaluate operator args = .error (.unbound slot) → .error (.unbound slot) ∈ args
  readField : Field → GraphEvalValue → Except String GraphEvalValue
  prepare : Q → Schema → Except String (Row → Except String ExistsRun)
  State : Type
  newState : AggregateFunction → Bool → State
  accumulate : State → GraphEvalValue → Except String State
  finalValue : State → Except String GraphEvalValue
  encodeKeys : List GraphCanonicalKey → Except String (List UInt8)

def raise {α : Type} (res : Except String α) : Except EvalError α := res.mapError .invalid

variable {O Q : Type}

inductive BoundExpr (O : Type) where
  | literal (value : GraphEvalValue)
  | binding (slot : ℕ)
  | field (slot : ℕ) (field : Field)
  | apply (operator : O) (args : List (BoundExpr O))

def bindAliasSlot (sch : Schema) (name : String) : Except EvalError ℕ :=
  match slotForAlias sch name with
  | none => .error (.invalid s!"graph row references unknown binding '{name}'")
  | some slot => .ok slot

/-- Properties are read of nodes and edges, the other fields of elements of their kind. -/
def checkField (name : String) (kind : SlotKind) : Field → Except EvalError Unit
  | .property _ =>
    match kind with
    | .node | .edge => .ok ()
    | .path => .error (.invalid s!"graph row property expression cannot reference path alias '{name}'")
    | .scalar => .error (.invalid s!"graph row property expression requires a node or edge alias, got '{name}'")
  | .node _ => if kind = .node then .ok () else .error (.invalid s!"graph row node field references non-node alias '{name}'")
  | .edge _ => if kind = .edge then .ok () else .error (.invalid s!"graph row edge field references non-edge alias '{name}'")
  | .path _ => if kind = .path then .ok () else .error (.invalid s!"graph row path field references non-path alias '{name}'")

mutual

def bindGraphExpr (sch : Schema) : GraphExpr O Q → Except EvalError (BoundExpr O)
  | .literal value => .ok (.literal value)
  | .binding name => (bindAliasSlot sch name).map .binding
  | .field name field => do
    let slot ← bindAliasSlot sch name
    match sch[slot]? with
    | none => .error (outOfBounds slot)
    | some info =>
      checkField name info.kind field
      .ok (.field slot field)
  | .apply operator args => (bindGraphExprs sch args).map (.apply operator)
  | .aggregateCall _ _ _ => .error (.invalid "aggregate expressions require graph pipeline projection execution")
  | .existsSubquery _ _ => .error (.invalid "EXISTS subqueries require graph pipeline predicate execution")

def bindGraphExprs (sch : Schema) : List (GraphExpr O Q) → Except EvalError (List (BoundExpr O))
  | [] => .ok []
  | arg :: args => do
    let bound ← bindGraphExpr sch arg
    let bounds ← bindGraphExprs sch args
    .ok (bound :: bounds)

end

section
variable (lang : Language O Q) (row : Row)

mutual

def evalBoundGraphExpr : BoundExpr O → Except EvalError GraphEvalValue
  | .literal value => .ok value
  | .binding slot => valueForSlot row slot
  | .field slot field => do
    let value ← valueForSlot row slot
    raise (lang.readField field value)
  | .apply operator args => lang.evaluate operator (evalBoundGraphExprs args)

def evalBoundGraphExprs : List (BoundExpr O) → List (Except EvalError GraphEvalValue)
  | [] => []
  | arg :: args => evalBoundGraphExpr arg :: evalBoundGraphExprs args

end

def evalBoundGraphPredicate (expr : BoundExpr O) : Except EvalError Bool := do
  match ← evalBoundGraphExpr lang row expr with
  | .bool value => .ok value
  | .null => .ok false
  | _ => .error (.invalid "graph row WHERE expressions must evaluate to a boolean or null")

end

/-- Floats are compared as numbers. -/
def sameLiteral : GraphEvalValue → GraphEvalValue → Bool
  | .float a, .float b => !isNan64 a && !isNan64 b && (a == b || f64IsZero a && f64IsZero b)
  | a, b => a == b

section
variable (lang : Language O Q)

mutual

def sameExpr : GraphExpr O Q → GraphExpr O Q → Bool
  | .literal a, .literal b => sameLiteral a b
  | .binding a, .binding b => a == b
  | .field a field, .field b field' => a == b && field == field'
  | .apply operator args, .apply operator' args' => lang.sameOperator operator operator' && sameExprs args args'
  | .aggregateCall function distinct arg, .aggregateCall function' distinct' arg' =>
    function == function' && distinct == distinct' && sameArg arg arg'
  | .existsSubquery importAliases query, .existsSubquery importAliases' query' =>
    importAliases == importAliases' && lang.sameQuery query query'
  | _, _ => false

def sameExprs : List (GraphExpr O Q) → List (GraphExpr O Q) → Bool
  | [], [] => true
  | a :: as, b :: bs => sameExpr a b && sameExprs as bs
  | _, _ => false

def sameArg : Option (GraphExpr O Q) → Option (GraphExpr O Q) → Bool
  | none, none => true
  | some a, some b => sameExpr a b
  | _, _ => false

end

mutual

def graphExprContainsAggregate : GraphExpr O Q → Bool
  | .aggregateCall _ _ _ => true
  | .existsSubquery _ query => lang.containsAggregate query
  | .apply _ args => anyContainsAggregate args
  | _ => false

def anyContainsAggregate : List (GraphExpr O Q) → Bool
  | [] => false
  | arg :: args => graphExprContainsAggregate arg || anyContainsAggregate args

end

mutual

def graphExprIsLiteralOnly : GraphExpr O Q → Bool
  | .literal _ => true
  | .apply operator args => lang.buildsCollection operator && allLiteralOnly args
  | _ => false

def allLiteralOnly : List (GraphExpr O Q) → Bool
  | [] => true
  | arg :: args => graphExprIsLiteralOnly arg && allLiteralOnly args

end

structure AggregateCallExpr (O Q : Type) where
  function : AggregateFunction
  distinct : Bool
  arg : Option (GraphExpr O Q)

structure AggregateAnalysis (O Q : Type) where
  groupExprs : List (GraphExpr O Q)
  aggregateCalls : List (AggregateCallExpr O Q)

def aggregatePushUniqueExpr (groupExprs : List (GraphExpr O Q)) (expr : GraphExpr O Q) : List (GraphExpr O Q) :=
  if groupExprs.any fun existing => sameExpr lang existing expr then groupExprs else groupExprs ++ [expr]

mutual

/-- The largest parts without an aggregate. -/
def aggregateCollectGroupExprs (groupExprs : List (GraphExpr O Q)) (expr : GraphExpr O Q) : List (GraphExpr O Q) :=
  if !graphExprContainsAggregate lang expr then
    if graphExprIsLiteralOnly lang expr then groupExprs else aggregatePushUniqueExpr lang groupExprs expr
  else match expr with
    | .apply _ args => aggregateCollectAll groupExprs args
    | _ => groupExprs

def aggregateCollectAll (groupExprs : List (GraphExpr O Q)) : List (GraphExpr O Q) → List (GraphExpr O Q)
  | [] => groupExprs
  | arg :: args => aggregateCollectAll (aggregateCollectGroupExprs groupExprs arg) args

end

def groupAlias (idx : ℕ) : String := s!"__gql_group_{idx}"

def aggregateAlias (idx : ℕ) : String := s!"__gql_agg_{idx}"

mutual

/-- Groups and calls are named by the slots that will hold them. -/
def aggregateRewriteExpr (analysis : AggregateAnalysis O Q) (expr : GraphExpr O Q) :
    Except EvalError (GraphExpr O Q × AggregateAnalysis O Q) :=
  match analysis.groupExprs.findIdx? fun group => sameExpr lang group expr with
  | some idx => .ok (.binding (groupAlias idx), analysis)
  | none =>
    match expr with
    | .aggregateCall function distinct arg =>
      if distinct && arg.isNone then .error (.invalid "graph pipeline aggregate DISTINCT requires an argument")
      else if function != .count && arg.isNone then
        .error (.invalid s!"graph pipeline {graphAggregateFunctionName function} aggregate requires an argument")
      else .ok (.binding (aggregateAlias analysis.aggregateCalls.length),
        { analysis with aggregateCalls := analysis.aggregateCalls ++ [⟨function, distinct, arg⟩] })
    | .apply operator args => do
      let (args, analysis) ← aggregateRewriteAll analysis args
      .ok (.apply operator args, analysis)
    | expr => .ok (expr, analysis)

def aggregateRewriteAll (analysis : AggregateAnalysis O Q) :
    List (GraphExpr O Q) → Except EvalError (List (GraphExpr O Q) × AggregateAnalysis O Q)
  | [] => .ok ([], analysis)
  | arg :: args => do
    let (arg, analysis) ← aggregateRewriteExpr analysis arg
    let (args, analysis) ← aggregateRewriteAll analysis args
    .ok (arg :: args, analysis)

end

end

structure NormalizedExistsPredicate where
  predicate : ExistsPredicate
  subquery : ExistsSubquery

structure Rewriting where
  schema : Schema
  predicates : List NormalizedExistsPredicate

def existsAlias (idx : ℕ) : String := s!"__og_exists_{idx}"

/-- The first unused name from an index on; among one more than there are slots one is unused. -/
def existsOutputAlias (sch : Schema) : ℕ → ℕ → String
  | 0, idx => existsAlias idx
  | fuel + 1, idx => if (slotForAlias sch (existsAlias idx)).isNone then existsAlias idx else existsOutputAlias sch fuel (idx + 1)

section
variable (lang : Language O Q) (maxSubqueryDepth subqueryDepth : ℕ)

def takeExists (st : Rewriting) (importAliases : List String) (query : Q) : Except EvalError (GraphExpr O Q × Rewriting) := do
  if maxSubqueryDepth < subqueryDepth + 1 then
    .error (.invalid s!"EXISTS subquery depth {subqueryDepth + 1} exceeds max_subquery_depth {maxSubqueryDepth}")
  else
    let imports ← pipelineImportSchemaAndMappings st.schema importAliases
    let subquery ← raise (lang.prepare query imports.initialSchema)
    let outputAlias := existsOutputAlias st.schema st.schema.length st.predicates.length
    let (sch, outputSlot) ← addAliasedSlot st.schema outputAlias .scalar false
    .ok (.binding outputAlias, ⟨sch, st.predicates ++ [⟨⟨imports, outputSlot⟩, fun row => raise (subquery row)⟩]⟩)

mutual

def rewritePipelineExistsExpr (st : Rewriting) : GraphExpr O Q → Except EvalError (GraphExpr O Q × Rewriting)
  | .existsSubquery importAliases query => takeExists lang maxSubqueryDepth subqueryDepth st importAliases query
  | .apply operator args => do
    let (args, st) ← rewritePipelineExistsAll st args
    .ok (.apply operator args, st)
  | .aggregateCall function distinct arg => do
    let (arg, st) ← rewritePipelineExistsArg st arg
    .ok (.aggregateCall function distinct arg, st)
  | expr => .ok (expr, st)

def rewritePipelineExistsAll (st : Rewriting) : List (GraphExpr O Q) → Except EvalError (List (GraphExpr O Q) × Rewriting)
  | [] => .ok ([], st)
  | arg :: args => do
    let (arg, st) ← rewritePipelineExistsExpr st arg
    let (args, st) ← rewritePipelineExistsAll st args
    .ok (arg :: args, st)

def rewritePipelineExistsArg (st : Rewriting) : Option (GraphExpr O Q) → Except EvalError (Option (GraphExpr O Q) × Rewriting)
  | none => .ok (none, st)
  | some arg => do
    let (arg, st) ← rewritePipelineExistsExpr st arg
    .ok (some arg, st)

end

end

end OverGraph.PipelineExpressions
