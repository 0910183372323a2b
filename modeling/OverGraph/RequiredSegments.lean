import OverGraph.EdgeCandidates
import OverGraph.JoinOrders

/-!
# Required segments

The fixed edges of a required pattern are expanded one after the other. The order of the
edges, the node or edge the segment starts from and the source of the candidates of each edge
are chosen by cost; every candidate is checked before it extends a row.
-/

namespace OverGraph.RequiredSegments
open Records Sources NodeFilters PrunePolicies EdgeCandidates JoinOrders

/-- A slot of a binding row. -/
inductive SlotRef where
  | node (index : ℕ)
  | edge (index : ℕ)
  | hidden (index : ℕ)
  deriving DecidableEq

/-- A row, by the ids its slots are bound to. -/
structure GraphBindingRow (ρ : Type) where
  slots : SlotRef → SlotState ℕ
  rest : ρ

inductive GraphRowError where
  | maxFrontier
  | maxIntermediateBindings
  | conflictingBinding
  | requiresAnchor
  deriving DecidableEq

namespace GraphBindingRow
variable {ρ : Type}

def nodeIdIfBound (row : GraphBindingRow ρ) (slot : ℕ) : Option ℕ :=
  match row.slots (.node slot) with
  | .bound id => some id
  | .unbound | .null => none

/-- The row of a schema before anything is bound. -/
def empty (rest : ρ) : GraphBindingRow ρ := ⟨fun _ => .unbound, rest⟩

def nodeIsNull (row : GraphBindingRow ρ) (slot : ℕ) : Bool := decide (row.slots (.node slot) = .null)

end GraphBindingRow

structure RuntimeEdge where
  fromSlot : ℕ
  toSlot : ℕ
  edgeSlot : Option ℕ
  hiddenSlot : Option ℕ
  direction : Direction
  candidateEdgeIds : List ℕ
  labelFilterIds : Option (List ℕ)
  filter : NormalizedEdgeFilter

def RuntimeEdge.endpoints (edge : RuntimeEdge) : List ℕ := [edge.fromSlot, edge.toSlot]

def RuntimeEdge.occurrenceSlots (edge : RuntimeEdge) : List SlotRef :=
  (edge.edgeSlot.map .edge).toList ++ (edge.hiddenSlot.map .hidden).toList

/-- The edges of a segment and the constraints on their nodes, whose keys are resolved to ids.
An edge alias is introduced once. -/
structure RuntimePattern where
  nodeQuery : ℕ → NormalizedNodeQuery
  keys_resolved : ∀ slot, (nodeQuery slot).keys = []
  edges : List RuntimeEdge
  slots_distinct : (edges.flatMap RuntimeEdge.occurrenceSlots).Nodup

def RuntimePattern.nodeSlots (pat : RuntimePattern) : List ℕ := (pat.edges.flatMap RuntimeEdge.endpoints).dedup

inductive InitialDriver where
  | empty
  | node (slot : ℕ)
  | edge (index : ℕ)

structure SegmentPlan (pat : RuntimePattern) where
  initialDriver : InitialDriver
  edgeOrder : List ℕ
  order_perm : edgeOrder.Perm (List.range pat.edges.length)
  driver_touches : ∀ slot, initialDriver = .node slot → slot ∈ pat.nodeSlots

structure GraphRowOptions where
  maxFrontier : ℕ
  maxIntermediateBindings : ℕ

inductive EdgeSourceRead where
  | ready (ids : List ℕ)
  | tooBroad
  | noLegalSource

/-- The candidate sources of a state and the choices between them, which go by estimates. A
source that is read holds at least the matching records. -/
structure PhysicalSources (sl : SourceList) (pols : Option PrecomputedPruneCutoffs) where
  nodeCandidates : NormalizedNodeQuery → List ℕ
  edgeCandidates : RuntimeEdge → EdgeSourceRead
  prefersEdgeSource : RuntimeEdge → List ℕ → List ℕ → List ℕ → Bool
  node_covers : ∀ query id node, sl.findNode id = some node → nodeAccepted query pols node = true → id ∈ nodeCandidates query
  edge_covers : ∀ edge ids, edgeCandidates edge = .ready ids → ∀ id record, sl.findEdge id = some record →
    labelAllowed edge.labelFilterIds record = true → edgeFilterMatches record edge.filter = true → id ∈ ids

section
variable (pat : RuntimePattern)

/-- An edge can be chosen if an endpoint is bound, or if nothing is. -/
def touchesFrontier (bound : List ℕ) (idx : ℕ) : Bool :=
  (pat.edges[idx]?).any fun edge => bound.isEmpty || bound.contains edge.fromSlot || bound.contains edge.toSlot

/-- Choose the cheapest edge at the frontier until none is left there; the rest keep their order. -/
def planFromFrontier (cost : List ℕ → ℕ → ℕ) : ℕ → List ℕ → List ℕ → List ℕ
  | 0, _, remaining => remaining
  | fuel + 1, bound, remaining =>
    match (remaining.filter (touchesFrontier pat bound)).argmin (cost bound) with
    | none => remaining
    | some idx =>
      let endpoints := (pat.edges[idx]?).elim [] RuntimeEdge.endpoints
      idx :: planFromFrontier cost fuel (bound ++ endpoints) (remaining.erase idx)

end

def graphRowNodeQueryHasAnchor (query : NormalizedNodeQuery) : Bool :=
  !query.ids.isEmpty || (match query.labelFilter with
    | .unconstrained => false
    | .empty _ _ | .labelSet _ _ _ => true) ||
  (match query.filter with
    | .alwaysTrue => false
    | _ => true)

structure OrientedEdge where
  id : ℕ
  logicalFrom : ℕ
  logicalTo : ℕ
  deriving DecidableEq

/-- A self loop has one orientation. -/
def graphRowEdgeOrientations (direction : Direction) (source target : ℕ) : List (ℕ × ℕ) :=
  match direction with
  | .outgoing => [(source, target)]
  | .incoming => [(target, source)]
  | .both => if source = target then [(source, target)] else [(source, target), (target, source)]

def orientedEdges (edge : RuntimeEdge) (id : ℕ) (r : EdgeRecord) : List OrientedEdge :=
  (graphRowEdgeOrientations edge.direction r.source r.target).map fun ends => ⟨id, ends.1, ends.2⟩

def sortedDedup (ids : List ℕ) : List ℕ := (ids.insertionSort (· ≤ ·)).dedup

def OrientedEdge.Le (a b : OrientedEdge) : Prop :=
  a.logicalFrom < b.logicalFrom ∨ (a.logicalFrom = b.logicalFrom ∧ (a.logicalTo < b.logicalTo ∨ (a.logicalTo = b.logicalTo ∧ a.id ≤ b.id)))

instance : DecidableRel OrientedEdge.Le := fun a b =>
  inferInstanceAs (Decidable (a.logicalFrom < b.logicalFrom ∨ (a.logicalFrom = b.logicalFrom ∧
    (a.logicalTo < b.logicalTo ∨ (a.logicalTo = b.logicalTo ∧ a.id ≤ b.id)))))

/-- From which side of the stored edges an endpoint of a pattern edge is looked up. -/
def endpointSource : Direction → Bool → Direction
  | .outgoing, true | .incoming, false => .outgoing
  | .outgoing, false | .incoming, true => .incoming
  | .both, _ => .both

section
variable {ρ : Type} (sl : SourceList) (pols : Option PrecomputedPruneCutoffs)
variable (srcs : PhysicalSources sl pols) (opts : GraphRowOptions) (atEpoch : ℤ)

def endpointNodes (edge : RuntimeEdge) (rows : List (GraphBindingRow ρ)) (direction : Direction) : List ℕ :=
  rows.flatMap fun row =>
    (if endpointSource edge.direction true = direction then (row.nodeIdIfBound edge.fromSlot).toList else []) ++
      if endpointSource edge.direction false = direction then (row.nodeIdIfBound edge.toSlot).toList else []

def checkFrontier (ids : List ℕ) : Except GraphRowError (List ℕ) := if opts.maxFrontier < ids.length then .error .maxFrontier else .ok ids

def extendEndpointEdgeIds (labelFilterIds : Option (List ℕ)) (direction : Direction) (nodeIds target : List ℕ) :
    Except GraphRowError (List ℕ) :=
  if nodeIds.isEmpty then .ok target
  else do
    let nodeIds ← checkFrontier opts (sortedDedup nodeIds)
    let ids ← checkFrontier opts
      (edgeIdsByEndpointsLimited sl nodeIds direction labelFilterIds (opts.maxFrontier + 1))
    checkFrontier opts (sortedDedup (target ++ ids))

def collectEndpointEdgeIds (edge : RuntimeEdge) (rows : List (GraphBindingRow ρ)) : Except GraphRowError (List ℕ) := do
  let target ← extendEndpointEdgeIds sl opts edge.labelFilterIds .outgoing (endpointNodes edge rows .outgoing) []
  let target ← extendEndpointEdgeIds sl opts edge.labelFilterIds .incoming (endpointNodes edge rows .incoming) target
  extendEndpointEdgeIds sl opts edge.labelFilterIds .both (endpointNodes edge rows .both) target

def rowHasBoundEndpoint (edge : RuntimeEdge) (row : GraphBindingRow ρ) : Bool :=
  (row.nodeIdIfBound edge.fromSlot).isSome || (row.nodeIdIfBound edge.toSlot).isSome

/-- The edges at the bound endpoints, if some row binds one. -/
def boundEdgeIds (edge : RuntimeEdge) (rows : List (GraphBindingRow ρ)) : Except GraphRowError (List ℕ) :=
  if rows.any (rowHasBoundEndpoint edge) then collectEndpointEdgeIds sl opts edge rows else .ok []

/-- The ids an edge is expanded from: explicit ids, the edges at the bound endpoints, the edge
source, or both of these when some rows bind an endpoint and others do not. -/
def candidateEdgeIds (edge : RuntimeEdge) (rows : List (GraphBindingRow ρ)) : Except GraphRowError (List ℕ) :=
  if !edge.candidateEdgeIds.isEmpty then checkFrontier opts (sortedDedup edge.candidateEdgeIds)
  else if edge.filter.isAlwaysFalse || edge.labelFilterIds.any (·.isEmpty) then .ok []
  else if rows.all (rowHasBoundEndpoint edge) then
    if srcs.prefersEdgeSource edge (endpointNodes edge rows .outgoing) (endpointNodes edge rows .incoming)
        (endpointNodes edge rows .both) then
      match srcs.edgeCandidates edge with
      | .ready ids => .ok ids
      | .tooBroad | .noLegalSource => collectEndpointEdgeIds sl opts edge rows
    else collectEndpointEdgeIds sl opts edge rows
  else do
    let ids ← boundEdgeIds sl opts edge rows
    match srcs.edgeCandidates edge with
    | .ready more => .ok (ids ++ more)
    | .tooBroad => .error .maxFrontier
    | .noLegalSource => .error .requiresAnchor

def fixedEdgeCandidates (edge : RuntimeEdge) (rows : List (GraphBindingRow ρ)) : Except GraphRowError (List OrientedEdge) := do
  let ids ← candidateEdgeIds sl pols srcs opts edge rows
  let ids ← checkFrontier opts (sortedDedup ids)
  let oriented := ids.flatMap fun id =>
    (verifyEdgeCandidate sl pols edge.labelFilterIds edge.filter atEpoch id).elim []
      (orientedEdges edge id)
  if opts.maxFrontier < oriented.length then .error .maxFrontier
  else .ok (oriented.insertionSort OrientedEdge.Le)

inductive RuntimeGoal where
  | allRows
  | existsOne
  deriving DecidableEq

def RuntimeGoal.reached (goal : RuntimeGoal) (rows : ℕ) : Bool := decide (goal = .existsOne) && decide (0 < rows)

def anyValue : SlotRef → ℕ → Bool := fun _ _ => true

def bindOptional (slots : SlotRef → SlotState ℕ) (slot : Option SlotRef) (id : ℕ) : Option (SlotRef → SlotState ℕ) :=
  match slot with
  | none => some slots
  | some slot => bindSlot anyValue slots slot id

/-- Bind a candidate in a copy of the row. A node that is bound otherwise drops the candidate. -/
def pushBoundRow (edge : RuntimeEdge) (row : GraphBindingRow ρ) (c : OrientedEdge)
    (nextRows : List (GraphBindingRow ρ)) : Except GraphRowError (List (GraphBindingRow ρ)) :=
  match bindSlot anyValue row.slots (.node edge.fromSlot) c.logicalFrom with
  | none => .ok nextRows
  | some slots =>
    match bindSlot anyValue slots (.node edge.toSlot) c.logicalTo with
    | none => .ok nextRows
    | some slots =>
      match (bindOptional slots (edge.edgeSlot.map .edge) c.id).bind fun slots => bindOptional slots (edge.hiddenSlot.map .hidden) c.id with
      | none => .error .conflictingBinding
      | some slots =>
        if opts.maxIntermediateBindings < nextRows.length + 1 then .error .maxIntermediateBindings
        else .ok (nextRows ++ [⟨slots, row.rest⟩])

def pushEdgeCandidateRow (edge : RuntimeEdge) (verifiedFrom verifiedTo : List ℕ) (row : GraphBindingRow ρ)
    (c : OrientedEdge) (nextRows : List (GraphBindingRow ρ)) : Except GraphRowError (List (GraphBindingRow ρ)) :=
  let boundFrom := row.nodeIdIfBound edge.fromSlot
  let boundTo := row.nodeIdIfBound edge.toSlot
  if boundFrom.any (fun id => decide (id ≠ c.logicalFrom)) ||
      boundTo.any (fun id => decide (id ≠ c.logicalTo)) then .ok nextRows
  else if boundFrom.isNone && !verifiedFrom.contains c.logicalFrom then .ok nextRows
  else if boundTo.isNone && !verifiedTo.contains c.logicalTo then .ok nextRows
  else pushBoundRow opts edge row c nextRows

/-- Extend a row by candidates; the flag says that the goal is reached. -/
def pushCandidates (edge : RuntimeEdge) (verifiedFrom verifiedTo : List ℕ) (goal : RuntimeGoal)
    (row : GraphBindingRow ρ) :
    List OrientedEdge → List (GraphBindingRow ρ) → Except GraphRowError (List (GraphBindingRow ρ) × Bool)
  | [], nextRows => .ok (nextRows, false)
  | c :: candidates, nextRows =>
    match pushEdgeCandidateRow opts edge verifiedFrom verifiedTo row c nextRows with
    | .error error => .error error
    | .ok nextRows =>
      if goal.reached nextRows.length then .ok (nextRows, true)
      else pushCandidates edge verifiedFrom verifiedTo goal row candidates nextRows

def bucketFor (edge : RuntimeEdge) (candidates : List OrientedEdge) (row : GraphBindingRow ρ) : List OrientedEdge :=
  candidates.filter fun c =>
    (row.nodeIdIfBound edge.fromSlot).all (fun id => decide (c.logicalFrom = id)) &&
      (row.nodeIdIfBound edge.toSlot).all fun id => decide (c.logicalTo = id)

def expandRows (edge : RuntimeEdge) (candidates : List OrientedEdge) (verifiedFrom verifiedTo : List ℕ)
    (goal : RuntimeGoal) :
    List (GraphBindingRow ρ) → List (GraphBindingRow ρ) → Except GraphRowError (List (GraphBindingRow ρ))
  | [], nextRows => .ok nextRows
  | row :: rows, nextRows =>
    match pushCandidates opts edge verifiedFrom verifiedTo goal row (bucketFor edge candidates row) nextRows with
    | .error error => .error error
    | .ok (nextRows, true) => .ok nextRows
    | .ok (nextRows, false) => expandRows edge candidates verifiedFrom verifiedTo goal rows nextRows

def expandFixedEdge (nodeQuery : ℕ → NormalizedNodeQuery) (edge : RuntimeEdge) (goal : RuntimeGoal)
    (rows : List (GraphBindingRow ρ)) : Except GraphRowError (List (GraphBindingRow ρ)) :=
  let rows := rows.filter fun row => !row.nodeIsNull edge.fromSlot && !row.nodeIsNull edge.toSlot
  if rows.isEmpty then .ok []
  else do
    let candidates ← fixedEdgeCandidates sl pols srcs opts atEpoch edge rows
    let verifiedFrom := graphRowVerifiedNodeIds sl (nodeQuery edge.fromSlot) pols (candidates.map OrientedEdge.logicalFrom)
    let verifiedTo := if edge.fromSlot = edge.toSlot then verifiedFrom
      else graphRowVerifiedNodeIds sl (nodeQuery edge.toSlot) pols (candidates.map OrientedEdge.logicalTo)
    expandRows opts edge candidates verifiedFrom verifiedTo goal rows []

/-- The nodes a segment starts from: a page of the query of the anchor. -/
def initialNodeIds (query : NormalizedNodeQuery) : Except GraphRowError (List ℕ) :=
  let ids := graphRowVerifiedNodeIds sl query pols (srcs.nodeCandidates query)
  if opts.maxIntermediateBindings < ids.length then .error .maxIntermediateBindings else .ok ids

def bindAnchor (slot : ℕ) (row : GraphBindingRow ρ) (id : ℕ) : GraphBindingRow ρ :=
  { row with slots := Function.update row.slots (.node slot) (.bound id) }

/-- Rows that do not bind the anchor are multiplied by its nodes. -/
def seedRows (slot : ℕ) (anchorIds : Except GraphRowError (List ℕ)) :
    List (GraphBindingRow ρ) → List (GraphBindingRow ρ) → Except GraphRowError (List (GraphBindingRow ρ))
  | [], output => .ok output
  | row :: rows, output =>
    match row.slots (.node slot) with
    | .null => seedRows slot anchorIds rows output
    | .bound _ => seedRows slot anchorIds rows (output ++ [row])
    | .unbound =>
      match anchorIds with
      | .error error => .error error
      | .ok ids =>
        if !ids.isEmpty && decide (opts.maxIntermediateBindings < output.length + ids.length) then
          .error .maxIntermediateBindings
        else seedRows slot anchorIds rows (output ++ ids.map (bindAnchor slot row))

def seedRequiredSegmentRows (nodeQuery : ℕ → NormalizedNodeQuery) (driver : InitialDriver)
    (rows : List (GraphBindingRow ρ)) : Except GraphRowError (List (GraphBindingRow ρ)) :=
  match driver with
  | .node slot => seedRows opts slot (initialNodeIds sl pols srcs opts (nodeQuery slot)) rows []
  | .empty | .edge _ => .ok rows

/-- Without input rows the segment starts from the empty row. -/
def initialRows (nodeQuery : ℕ → NormalizedNodeQuery) (driver : InitialDriver) (rest : ρ) :
    Except GraphRowError (List (GraphBindingRow ρ)) :=
  match driver with
  | .node slot => do
    let ids ← initialNodeIds sl pols srcs opts (nodeQuery slot)
    .ok (ids.map (bindAnchor slot (.empty rest)))
  | .empty | .edge _ => .ok [.empty rest]

def expandEdges (pat : RuntimePattern) (goal : RuntimeGoal) :
    List ℕ → List (GraphBindingRow ρ) → Except GraphRowError (List (GraphBindingRow ρ))
  | [], rows => .ok rows
  | idx :: order, rows =>
    match pat.edges[idx]? with
    | none => expandEdges pat goal order rows
    | some edge => do
      let edgeGoal := if order.isEmpty then goal else .allRows
      let rows ← expandFixedEdge sl pols srcs opts atEpoch pat.nodeQuery edge edgeGoal rows
      expandEdges pat goal order rows

def startRows (pat : RuntimePattern) (plan : SegmentPlan pat) (rest : ρ)
    (currentRows : Option (List (GraphBindingRow ρ))) : Except GraphRowError (List (GraphBindingRow ρ)) :=
  match currentRows with
  | some rows => seedRequiredSegmentRows sl pols srcs opts pat.nodeQuery plan.initialDriver rows
  | none => initialRows sl pols srcs opts pat.nodeQuery plan.initialDriver rest

def executeRequiredSegment (pat : RuntimePattern) (plan : SegmentPlan pat) (rest : ρ)
    (goal : RuntimeGoal) (currentRows : Option (List (GraphBindingRow ρ))) :
    Except GraphRowError (List (GraphBindingRow ρ)) := do
  let rows ← startRows sl pols srcs opts pat plan rest currentRows
  expandEdges sl pols srcs opts atEpoch pat goal plan.edgeOrder rows

/-- The rows whose bound nodes satisfy the constraints the pattern puts on them. -/
def partitionInitialBoundNodeConstraintRows (pat : RuntimePattern) (initialBoundSlots : List ℕ)
    (rows : List (GraphBindingRow ρ)) : List (GraphBindingRow ρ) :=
  let constrained := pat.nodeSlots.filter fun slot => initialBoundSlots.contains slot && graphRowNodeQueryHasAnchor (pat.nodeQuery slot)
  let verified (slot : ℕ) := graphRowVerifiedNodeIds sl (pat.nodeQuery slot) pols
    (rows.filterMap (·.nodeIdIfBound slot))
  rows.filter fun row => constrained.all fun slot => (row.nodeIdIfBound slot).any ((verified slot).contains ·)

/-- A stage of a pipeline: the rows of the stages before it, checked, are extended by the pattern. -/
def executePatternStage (pat : RuntimePattern) (plan : SegmentPlan pat) (initialBoundSlots : List ℕ)
    (rest : ρ) (goal : RuntimeGoal) (rows : Option (List (GraphBindingRow ρ))) :
    Except GraphRowError (List (GraphBindingRow ρ)) :=
  executeRequiredSegment sl pols srcs opts atEpoch pat plan rest goal
    (rows.map (partitionInitialBoundNodeConstraintRows sl pols pat initialBoundSlots))

end

end OverGraph.RequiredSegments
