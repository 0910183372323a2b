import OverGraph.PatternStages
import OverGraph.BindingRows
import OverGraph.StoppedRuns

/-!
# Matches with a goal

A match runs its steps one after the other: required segments, the paths of fixed edges, paths of variable length and optional groups.
Whoever only asks whether there is a match lets the last step stop at its first row; the steps before it yield all their rows. A match
without steps binds one node, for which then one node is read.
-/

namespace OverGraph.MatchGoals
open Records Sources NodeFilters PrunePolicies EdgeCandidates RequiredSegments BindingRows Fallible StoppedRuns List Nat RuntimeGoal
open Except hiding error
open JoinOrders (bindSlot)

structure GraphPath where
  nodes : List ℕ
  edges : List ℕ
  deriving DecidableEq

/-- The slots beside those of nodes and edges. -/
structure RestSlots where
  row : Row
  hiddenPaths : ℕ → Option GraphPath

abbrev MatchRow := GraphBindingRow RestSlots

structure MatchOptions extends GraphRowOptions where
  maxPathsPerStart : ℕ
  maxOrderMaterialization : ℕ
  allowFullScan : Bool

def graphRowCapError (name : String) (cap : ℕ) : EvalError := .invalid s!"graph row {name} exceeded configured cap {cap}"

def rowError (opts : GraphRowOptions) : GraphRowError → EvalError
  | .maxFrontier => graphRowCapError "max_frontier" opts.maxFrontier
  | .maxIntermediateBindings => graphRowCapError "max_intermediate_bindings" opts.maxIntermediateBindings
  | .conflictingBinding => .invalid "graph row conflicting binding"
  | .requiresAnchor => .invalid "graph row required edge pattern requires an anchor or allow_full_scan=true"

def raiseRow {α : Type} (opts : GraphRowOptions) (res : Except GraphRowError α) : Except EvalError α := res.mapError (rowError opts)

/-- A null slot and a slot with another node refuse. -/
def bindNode (slot id : ℕ) (row : MatchRow) : Option MatchRow :=
  (bindSlot anyValue row.slots (.node slot) id).map fun slots => { row with slots := slots }

def bindOccurrence (slot : SlotRef) (id : ℕ) (row : MatchRow) : Except EvalError MatchRow :=
  match bindSlot anyValue row.slots slot id with
  | none => .error (.invalid "graph row conflicting edge binding")
  | some slots => .ok { row with slots := slots }

def validateGraphPathShape (path : GraphPath) : Except EvalError Unit :=
  if path.nodes.isEmpty then .error (.invalid "graph row path must contain at least one node id")
  else if path.nodes.length ≠ path.edges.length + 1 then
    .error (.invalid s!"graph row path must have exactly one more node id than edge id, got {path.nodes.length} node id(s) and {path.edges.length} edge id(s)")
  else .ok ()

def bindPath (slot : ℕ) (path : GraphPath) (row : MatchRow) : Except EvalError MatchRow := do
  validateGraphPathShape path
  match row.rest.row[slot]? with
  | none => .error (.invalid s!"graph row path slot {slot} is out of bounds")
  | some .null => .error (.invalid "graph row null path binding cannot be rebound")
  | some .unbound => .ok { row with rest := { row.rest with row := row.rest.row.set slot (.bound (.path path.nodes path.edges)) } }
  | some (.bound existing) =>
    if existing == .path path.nodes path.edges then .ok row else .error (.invalid "graph row conflicting path binding")

def bindHiddenPath (slot : ℕ) (path : GraphPath) (row : MatchRow) : Except EvalError MatchRow :=
  match row.rest.hiddenPaths slot with
  | none => .ok { row with rest := { row.rest with hiddenPaths := Function.update row.rest.hiddenPaths slot (some path) } }
  | some existing => if existing = path then .ok row else .error (.invalid "graph row conflicting hidden occurrence binding")

def bindFirstEdge (slot : Option ℕ) (path : GraphPath) (row : MatchRow) : Except EvalError MatchRow :=
  match slot, path.edges with
  | some slot, id :: _ => bindOccurrence (.edge slot) id row
  | _, _ => .ok row

def bindOptionalSlot (slot : Option ℕ) (bindTo : ℕ → Except EvalError MatchRow) (row : MatchRow) : Except EvalError MatchRow :=
  match slot with
  | none => .ok row
  | some slot => bindTo slot

structure RuntimeFixedPath where
  pathAlias : String
  nodeSlots : List ℕ
  edgeSlots : List SlotRef
  pathSlot : ℕ

structure RuntimeVariableLength where
  edge : RuntimeEdge
  pathSlot : Option ℕ
  hiddenPathSlot : Option ℕ
  minHops : ℕ
  maxHops : ℕ
  fromQuery : NormalizedNodeQuery
  toQuery : NormalizedNodeQuery

abbrev OptionalGroup := List MatchRow → Except EvalError (List MatchRow)

inductive RuntimeStep where
  | requiredSegment (pattern : RuntimePattern) (plan : SegmentPlan pattern)
  | fixedPath (path : RuntimeFixedPath)
  | variableLength (path : RuntimeVariableLength)
  | optional (group : OptionalGroup)

structure RuntimePlan where
  nodes : List ℕ
  nodeQuery : ℕ → NormalizedNodeQuery
  initialDriver : InitialDriver
  steps : List RuntimeStep

/-- A query for one node may read another source than the same query for all of them. -/
structure MatchSources (sl : SourceList) (pols : Option PrecomputedPruneCutoffs) extends PhysicalSources sl pols where
  firstCandidates : NormalizedNodeQuery → List ℕ
  first_covers : ∀ query id node, sl.findNode id = some node → nodeAccepted query pols node = true → id ∈ firstCandidates query

def boundNode (pathAlias : String) (row : MatchRow) (slot : ℕ) : Except EvalError ℕ :=
  match row.nodeIdIfBound slot with
  | some id => .ok id
  | none => .error (.invalid s!"graph row fixed path '{pathAlias}' cannot compose from an unbound node slot")

def boundOccurrence (pathAlias : String) (row : MatchRow) (slot : SlotRef) : Except EvalError ℕ :=
  match row.slots slot with
  | .bound id => .ok id
  | .unbound | .null => .error (.invalid s!"graph row fixed path '{pathAlias}' cannot compose from an unbound edge slot")

def composeFixedPath (path : RuntimeFixedPath) (row : MatchRow) : Except EvalError MatchRow := do
  let nodes ← path.nodeSlots.mapM (boundNode path.pathAlias row)
  let edges ← path.edgeSlots.mapM (boundOccurrence path.pathAlias row)
  bindPath path.pathSlot ⟨nodes, edges⟩ row

def composeFixedPathRows (path : RuntimeFixedPath) (goal : RuntimeGoal) (rows : List MatchRow) : Except EvalError (List MatchRow) := do
  let rows ← rows.mapM (composeFixedPath path)
  .ok (if goal.reached rows.length then rows.take 1 else rows)

structure PathRows where
  output : List MatchRow
  starts : List ℕ

structure PartialPath where
  current : ℕ
  nodes : List ℕ
  edges : List ℕ

structure PathSearchSeed where
  nodeId : ℕ
  reverse : Bool

structure StepEdge where
  source : ℕ
  nextNode : ℕ
  edgeId : ℕ

def reverseDirection : Direction → Direction
  | .outgoing => .incoming
  | .incoming => .outgoing
  | .both => .both

def materializePartialPath (reverse : Bool) (partialPath : PartialPath) : GraphPath :=
  if reverse then ⟨partialPath.nodes.reverse, partialPath.edges.reverse⟩ else ⟨partialPath.nodes, partialPath.edges⟩

def stepsOfEdge (direction : Direction) (frontier : List ℕ) (id : ℕ) (r : EdgeRecord) : List StepEdge :=
  let forward := if frontier.contains r.source then [⟨r.source, r.target, id⟩] else []
  let backward := if frontier.contains r.target then [⟨r.target, r.source, id⟩] else []
  match direction with
  | .outgoing => forward
  | .incoming => backward
  | .both => if r.target ≠ r.source then forward ++ backward else forward

section
variable (sl : SourceList) (pols : Option PrecomputedPruneCutoffs)
variable (srcs : MatchSources sl pols) (opts : MatchOptions) (atEpoch : ℤ)

def pushPathRow (path : RuntimeVariableLength) (row : MatchRow) (graphPath : GraphPath) (output : List MatchRow) :
    Except EvalError (List MatchRow) :=
  if opts.maxIntermediateBindings ≤ output.length then
    .error (graphRowCapError "max_intermediate_bindings" opts.maxIntermediateBindings)
  else match graphPath.nodes.head?, graphPath.nodes.getLast? with
    | some logicalFrom, some logicalTo =>
      match (bindNode path.edge.fromSlot logicalFrom row).bind (bindNode path.edge.toSlot logicalTo) with
      | none => .ok output
      | some next =>
        if path.edge.edgeSlot.isSome && graphPath.edges.isEmpty then .ok output
        else do
          let next ← bindFirstEdge path.edge.edgeSlot graphPath next
          let next ← bindOptionalSlot path.pathSlot (fun slot => bindPath slot graphPath next) next
          let next ← bindOptionalSlot path.hiddenPathSlot (fun slot => bindHiddenPath slot graphPath next) next
          .ok (output ++ [next])
    | _, _ => .ok output

/-- Each start has so many paths at most. -/
def takePath (path : RuntimeVariableLength) (row : MatchRow) (st : PathRows) (graphPath : GraphPath) : Except EvalError PathRows :=
  match graphPath.nodes.head? with
  | none => .ok st
  | some start =>
    if opts.maxPathsPerStart ≤ st.starts.count start then .error (graphRowCapError "max_paths_per_start" opts.maxPathsPerStart)
    else do
      let output ← pushPathRow opts path row graphPath st.output
      .ok ⟨output, start :: st.starts⟩

def takePaths (path : RuntimeVariableLength) (goal : RuntimeGoal) (output : List MatchRow) (row : MatchRow) (paths : List GraphPath) :
    Except EvalError (List MatchRow) := do
  let st ← runUntil (fun st => goal.reached st.output.length) (takePath opts path row) paths ⟨output, []⟩
  .ok st.output

def checkPathFrontier {α : Type} (ids : List α) : Except EvalError (List α) :=
  if opts.maxFrontier < ids.length then .error (graphRowCapError "max_frontier" opts.maxFrontier) else .ok ids

def vlpNodeCandidateIds (query : NormalizedNodeQuery) : Except EvalError (List ℕ) :=
  checkPathFrontier opts (graphRowVerifiedNodeIds sl query pols (srcs.nodeCandidates query))

def seedsFrom (reverse : Bool) (ids : List ℕ) : List PathSearchSeed := ids.map fun id => ⟨id, reverse⟩

/-- A path is searched from the end that is bound, or from the end with fewer nodes. -/
def vlpSeeds (path : RuntimeVariableLength) (row : MatchRow) : Except EvalError (List PathSearchSeed) :=
  match row.nodeIdIfBound path.edge.fromSlot, row.nodeIdIfBound path.edge.toSlot with
  | some id, _ => .ok [⟨id, false⟩]
  | none, some id => .ok [⟨id, true⟩]
  | none, none =>
    let candidates (query : NormalizedNodeQuery) :=
      if graphRowNodeQueryHasAnchor query || opts.allowFullScan then some (vlpNodeCandidateIds sl pols srcs opts query)
      else none
    match candidates path.fromQuery, candidates path.toQuery with
    | some (.ok fromIds), some (.ok toIds) => .ok (if toIds.length < fromIds.length then seedsFrom true toIds else seedsFrom false fromIds)
    | some (.ok fromIds), _ => .ok (seedsFrom false fromIds)
    | some (.error _), some (.ok toIds) => .ok (seedsFrom true toIds)
    | some (.error error), _ => .error error
    | none, some (.ok toIds) => .ok (seedsFrom true toIds)
    | none, some (.error error) => .error error
    | none, none => .error (.invalid "graph row variable-length pattern requires an anchor or allow_full_scan=true")

/-- The steps from the nodes of a frontier, for each node by the next node and the edge. -/
def vlpStepEdges (path : RuntimeVariableLength) (reverse : Bool) (frontierNodes : List ℕ) : Except EvalError (List StepEdge) := do
  let frontierNodes ← checkPathFrontier opts (sortedDedup frontierNodes)
  if frontierNodes.isEmpty || path.edge.filter.isAlwaysFalse || path.edge.labelFilterIds.any (·.isEmpty) then .ok []
  else
    let direction := if reverse then reverseDirection path.edge.direction else path.edge.direction
    let ids ←
      if path.edge.candidateEdgeIds.isEmpty then
        raiseRow opts.toGraphRowOptions
          (extendEndpointEdgeIds sl opts.toGraphRowOptions path.edge.labelFilterIds direction frontierNodes [])
      else checkPathFrontier opts (sortedDedup path.edge.candidateEdgeIds)
    let steps := ids.flatMap fun id =>
      (verifyEdgeCandidate sl pols path.edge.labelFilterIds path.edge.filter atEpoch id).elim []
        (stepsOfEdge direction frontierNodes id)
    .ok (steps.insertionSort fun a b => a.nextNode < b.nextNode ∨ a.nextNode = b.nextNode ∧ a.edgeId ≤ b.edgeId)

/-- Paths whose open end is a node the pattern allows. -/
def filterVlpEndpointPaths (query : NormalizedNodeQuery) (useStartNode : Bool) (paths : List GraphPath) : List GraphPath :=
  let endpoint (path : GraphPath) := if useStartNode then path.nodes.head? else path.nodes.getLast?
  let verified := graphRowVerifiedNodeIds sl query pols (paths.filterMap endpoint)
  paths.filter fun path => (endpoint path).any (verified.contains ·)

structure PathSearch where
  frontier : List PartialPath
  accepted : List GraphPath
  starts : List ℕ

def acceptPath (st : PathSearch) (graphPath : GraphPath) : Except EvalError PathSearch :=
  match graphPath.nodes.head? with
  | none => .ok st
  | some start =>
    if opts.maxPathsPerStart ≤ st.starts.count start then .error (graphRowCapError "max_paths_per_start" opts.maxPathsPerStart)
    else .ok { st with accepted := st.accepted ++ [graphPath], starts := start :: st.starts }

/-- A path takes no edge twice. -/
def extendPartialPath (steps : List StepEdge) (partialPath : PartialPath) : List PartialPath :=
  (steps.filter fun step => decide (step.source = partialPath.current) && !partialPath.edges.contains step.edgeId).map fun step =>
    ⟨step.nextNode, partialPath.nodes ++ [step.nextNode], partialPath.edges ++ [step.edgeId]⟩

/-- The paths of the lengths from `depth` on. -/
def searchDepths (path : RuntimeVariableLength) (reverse : Bool) (targetBound : Option ℕ) (endpointQuery : NormalizedNodeQuery) :
    ℕ → ℕ → PathSearch → Except EvalError PathSearch
  | fuel, depth, st => do
    let candidates := (st.frontier.filter fun partialPath => targetBound.all fun target => decide (target = partialPath.current)).map
      (materializePartialPath reverse)
    let st ← if path.minHops ≤ depth then
        (filterVlpEndpointPaths sl pols endpointQuery reverse candidates).foldlM (acceptPath opts) st
      else .ok st
    match fuel with
    | 0 => .ok st
    | fuel + 1 => do
      let steps ← vlpStepEdges sl pols opts atEpoch path reverse (st.frontier.map PartialPath.current)
      if steps.isEmpty then .ok st
      else do
        let next ← checkPathFrontier opts (st.frontier.flatMap (extendPartialPath steps))
        let sorted := next.insertionSort fun a b => ((compare a.nodes b.nodes).then (compare a.edges b.edges)).isLE
        searchDepths path reverse targetBound endpointQuery fuel (depth + 1) { st with frontier := sorted }

/-- The starts of all seeds of a row are counted together. -/
def enumerateVlpPathsForSeed (path : RuntimeVariableLength) (row : MatchRow) (st : List GraphPath × List ℕ) (seed : PathSearchSeed) :
    Except EvalError (List GraphPath × List ℕ) := do
  let targetBound := row.nodeIdIfBound (if seed.reverse then path.edge.fromSlot else path.edge.toSlot)
  let endpointQuery := if seed.reverse then path.fromQuery else path.toQuery
  let frontier ← checkPathFrontier opts [⟨seed.nodeId, [seed.nodeId], []⟩]
  let found ← searchDepths sl pols opts atEpoch path seed.reverse targetBound endpointQuery path.maxHops 0
    ⟨frontier, [], st.2⟩
  let sorted := found.accepted.insertionSort fun a b =>
    ((compare a.edges.length b.edges.length).then ((compare a.nodes b.nodes).then (compare a.edges b.edges))).isLE
  .ok (st.1 ++ sorted, found.starts)

/-- The paths for a row, which only depend on its bound ends. -/
def vlpPaths (path : RuntimeVariableLength) (row : MatchRow) : Except EvalError (List GraphPath) := do
  let seeds ← vlpSeeds sl pols srcs opts path row
  let found ← seeds.foldlM (enumerateVlpPathsForSeed sl pols opts atEpoch path row) ([], [])
  .ok found.1

def expandVlpRow (path : RuntimeVariableLength) (goal : RuntimeGoal) (output : List MatchRow) (row : MatchRow) :
    Except EvalError (List MatchRow) := do
  let paths ← vlpPaths sl pols srcs opts atEpoch path row
  takePaths opts path goal output row paths

def oneHopPath (cand : OrientedEdge) : GraphPath := ⟨[cand.logicalFrom, cand.logicalTo], [cand.id]⟩

/-- The candidates of a row whose unbound ends are verified. -/
def oneHopCandidates (path : RuntimeVariableLength) (candidates : List OrientedEdge) (row : MatchRow) : List OrientedEdge :=
  let verified (query : NormalizedNodeQuery) (endpoint : OrientedEdge → ℕ) :=
    graphRowVerifiedNodeIds sl query pols (candidates.map endpoint)
  let verifiedFrom := verified path.fromQuery OrientedEdge.logicalFrom
  let verifiedTo := if path.edge.fromSlot = path.edge.toSlot then verifiedFrom else verified path.toQuery OrientedEdge.logicalTo
  (bucketFor path.edge candidates row).filter fun cand =>
    ((row.nodeIdIfBound path.edge.fromSlot).isSome || verifiedFrom.contains cand.logicalFrom) &&
      ((row.nodeIdIfBound path.edge.toSlot).isSome || verifiedTo.contains cand.logicalTo)

def executeOneHopVariableLength (path : RuntimeVariableLength) (goal : RuntimeGoal) (rows : List MatchRow) :
    Except EvalError (List MatchRow) := do
  let candidates ← raiseRow opts.toGraphRowOptions
    (fixedEdgeCandidates sl pols srcs.toPhysicalSources opts.toGraphRowOptions atEpoch path.edge rows)
  runUntil (fun output => goal.reached output.length) (fun output row =>
    takePaths opts path goal output row ((oneHopCandidates sl pols path candidates row).map oneHopPath)) rows []

def executeVariableLength (path : RuntimeVariableLength) (goal : RuntimeGoal) (rows : List MatchRow) : Except EvalError (List MatchRow) :=
  let rows := rows.filter fun row => !row.nodeIsNull path.edge.fromSlot && !row.nodeIsNull path.edge.toSlot
  if rows.isEmpty then .ok []
  else if path.minHops = 1 ∧ path.maxHops = 1 then executeOneHopVariableLength sl pols srcs opts atEpoch path goal rows
  else runUntil (fun output => goal.reached output.length)
    (expandVlpRow sl pols srcs opts atEpoch path goal) rows []

/-- One node is enough for whoever asks whether there is one. -/
def goalNodeIds (goal : RuntimeGoal) (query : NormalizedNodeQuery) : Except GraphRowError (List ℕ) :=
  match goal with
  | .allRows => initialNodeIds sl pols srcs.toPhysicalSources opts.toGraphRowOptions query
  | .existsOne => .ok ((graphRowVerifiedNodeIds sl query pols (srcs.firstCandidates query)).take 1)

def goalRows (plan : RuntimePlan) (driver : InitialDriver) (rest : RestSlots) (goal : RuntimeGoal) : Except GraphRowError (List MatchRow) :=
  match driver with
  | .node slot => do
    let ids ← goalNodeIds sl pols srcs opts goal (plan.nodeQuery slot)
    .ok (ids.map (bindAnchor slot (.empty rest)))
  | .empty | .edge _ => .ok [.empty rest]

/-- Without steps the first node is what is matched. -/
def seedDriver (plan : RuntimePlan) : InitialDriver :=
  match plan.initialDriver, plan.nodes with
  | .empty, slot :: _ => .node slot
  | driver, _ => driver

def recordBindings (rows : List MatchRow) : Except EvalError (List MatchRow) :=
  if opts.maxIntermediateBindings < rows.length then
    .error (graphRowCapError "max_intermediate_bindings" opts.maxIntermediateBindings)
  else .ok rows

def executeStep (rest : RestSlots) (goal : RuntimeGoal) (rows : Option (List MatchRow)) : RuntimeStep → Except EvalError (List MatchRow)
  | .requiredSegment pat plan =>
    raiseRow opts.toGraphRowOptions (executeRequiredSegment sl pols srcs.toPhysicalSources opts.toGraphRowOptions
      atEpoch pat plan rest goal rows)
  | .fixedPath path => composeFixedPathRows path goal (rows.getD [.empty rest])
  | .variableLength path => executeVariableLength sl pols srcs opts atEpoch path goal (rows.getD [.empty rest])
  | .optional group => group (rows.getD [.empty rest])

def executeSteps (rest : RestSlots) (goal : RuntimeGoal) : List RuntimeStep → Option (List MatchRow) → Except EvalError (List MatchRow)
  | [], rows => .ok (rows.getD [.empty rest])
  | step :: steps, rows => do
    let stepGoal := if steps.isEmpty then goal else .allRows
    let next ← executeStep sl pols srcs opts atEpoch rest stepGoal rows step
    let next ← recordBindings opts next
    executeSteps rest goal steps (some next)

def executeRuntimePlan (plan : RuntimePlan) (rest : RestSlots) (goal : RuntimeGoal) (initialRows : Option (List MatchRow)) :
    Except EvalError (List MatchRow) :=
  if plan.steps.isEmpty then do
    let rows ← raiseRow opts.toGraphRowOptions (match initialRows with
      | some rows => seedRequiredSegmentRows sl pols srcs.toPhysicalSources opts.toGraphRowOptions plan.nodeQuery
          (seedDriver plan) rows
      | none => goalRows sl pols srcs opts plan (seedDriver plan) rest goal)
    recordBindings opts rows
  else executeSteps sl pols srcs opts atEpoch rest goal plan.steps initialRows

/-- The rows whose bound nodes are nodes the pattern allows. -/
def partitionInitialRows (plan : RuntimePlan) (initialBoundSlots : List ℕ) (rows : List MatchRow) : List MatchRow :=
  let constrained := plan.nodes.filter fun slot => initialBoundSlots.contains slot && graphRowNodeQueryHasAnchor (plan.nodeQuery slot)
  let verified (slot : ℕ) := graphRowVerifiedNodeIds sl (plan.nodeQuery slot) pols (rows.filterMap (·.nodeIdIfBound slot))
  rows.filter fun row => constrained.all fun slot => (row.nodeIdIfBound slot).any ((verified slot).contains ·)

def executeMatch (plan : RuntimePlan) (initialBoundSlots : List ℕ) (rest : RestSlots) (goal : RuntimeGoal)
    (initialRows : Option (List MatchRow)) : Except EvalError (List MatchRow) :=
  executeRuntimePlan sl pols srcs opts atEpoch plan rest goal
    (initialRows.map (partitionInitialRows sl pols plan initialBoundSlots))

end

section
variable {ρ : Type} {sl : SourceList} {pols : Option PrecomputedPruneCutoffs}
variable {srcs : PhysicalSources sl pols} {opts : GraphRowOptions} {atEpoch : ℤ}

theorem reached_existsOne (rows : ℕ) : existsOne.reached rows = true ↔ 0 < rows := by
  rw [reached, decide_eq_true rfl, Bool.true_and, decide_eq_true_iff]

theorem servedBy_firstRow {σ α ε : Type} (size : σ → ℕ) {all one : σ → α → Except ε σ} {l : List α}
    (hone : ∀ a ∈ l, ∀ s, ServedBy size (one s a) (all s a)) (hgrows : ∀ a ∈ l, ∀ s t, all s a = .ok t → size s ≤ size t) (s : σ) :
    ServedBy size (runUntil (fun s => existsOne.reached (size s)) one l s)
      (runUntil (fun s => allRows.reached (size s)) all l s) := by
  have hall : runUntil (fun s => allRows.reached (size s)) all l s = l.foldlM all s := runUntil_never _ _ _
  rw [hall]
  exact servedBy_runUntil (fun s => reached_existsOne (size s)) hone hgrows s

variable {nextRows next : List (GraphBindingRow ρ)} {cand : OrientedEdge}

theorem pushBoundRow_le {edge : RuntimeEdge} {row : GraphBindingRow ρ}
    (h : pushBoundRow opts edge row cand nextRows = .ok next) : nextRows.length ≤ next.length := by
  rw [pushBoundRow] at h
  split at h
  · exact ok.inj h ▸ le_refl _
  · split at h
    · exact ok.inj h ▸ le_refl _
    · split at h
      · cases h
      · split at h
        · cases h
        · rw [← ok.inj h, length_append]
          exact le_add_right _ _

theorem pushEdgeCandidateRow_le {edge : RuntimeEdge} {verifiedFrom verifiedTo : List ℕ} {row : GraphBindingRow ρ}
    (h : pushEdgeCandidateRow opts edge verifiedFrom verifiedTo row cand nextRows = .ok next) : nextRows.length ≤ next.length := by
  rw [pushEdgeCandidateRow] at h
  split at h
  · exact ok.inj h ▸ le_refl _
  · split at h
    · exact ok.inj h ▸ le_refl _
    · split at h
      · exact ok.inj h ▸ le_refl _
      · exact pushBoundRow_le h

/-- The candidates of a row, taken one after the other. -/
def pushAll (opts : GraphRowOptions) (edge : RuntimeEdge) (verifiedFrom verifiedTo : List ℕ) (candidates : List OrientedEdge)
    (goal : RuntimeGoal) (nextRows : List (GraphBindingRow ρ)) (row : GraphBindingRow ρ) : Except GraphRowError (List (GraphBindingRow ρ)) :=
  runUntil (fun rows => goal.reached rows.length)
    (fun rows cand => pushEdgeCandidateRow opts edge verifiedFrom verifiedTo row cand rows) (bucketFor edge candidates row) nextRows

variable (edge : RuntimeEdge)

theorem pushCandidates_eq (verifiedFrom verifiedTo : List ℕ) (goal : RuntimeGoal) (row : GraphBindingRow ρ)
    (candidates : List OrientedEdge) (nextRows : List (GraphBindingRow ρ)) (hopen : goal.reached nextRows.length = false) :
    pushCandidates opts edge verifiedFrom verifiedTo goal row candidates nextRows = (runUntil (fun rows => goal.reached rows.length)
        (fun rows cand => pushEdgeCandidateRow opts edge verifiedFrom verifiedTo row cand rows) candidates nextRows).map
        fun rows => (rows, goal.reached rows.length) := by
  induction candidates generalizing nextRows with
  | nil => rw [pushCandidates, runUntil, Except.map, hopen]
  | cons cand candidates ih =>
    rw [pushCandidates, runUntil]
    cases pushEdgeCandidateRow opts edge verifiedFrom verifiedTo row cand nextRows with
    | error error => rfl
    | ok next =>
      rw [ok_bind]
      dsimp only
      by_cases hrch : goal.reached next.length = true
      · rw [if_pos hrch, if_pos hrch, Except.map, hrch]
      · rw [if_neg hrch, if_neg hrch]
        exact ih next (Bool.eq_false_iff.mpr hrch)

section
variable (candidates : List OrientedEdge) (verifiedFrom verifiedTo : List ℕ)

theorem expandRows_eq (goal : RuntimeGoal)
    (rows nextRows : List (GraphBindingRow ρ)) (hopen : goal.reached nextRows.length = false) :
    expandRows opts edge candidates verifiedFrom verifiedTo goal rows nextRows =
      runUntil (fun rows => goal.reached rows.length) (pushAll opts edge verifiedFrom verifiedTo candidates goal) rows nextRows := by
  induction rows generalizing nextRows with
  | nil => rfl
  | cons row rows ih =>
    rw [expandRows, pushCandidates_eq _ _ _ _ _ _ _ hopen, runUntil, pushAll]
    cases runUntil (fun rows => goal.reached rows.length)
        (fun rows cand => pushEdgeCandidateRow opts edge verifiedFrom verifiedTo row cand rows)
        (bucketFor edge candidates row) nextRows with
    | error error => rfl
    | ok next =>
      rw [ok_bind, Except.map]
      by_cases hrch : goal.reached next.length = true
      · rw [if_pos hrch, hrch]
      · rw [if_neg hrch, Bool.eq_false_iff.mpr hrch]
        exact ih next (Bool.eq_false_iff.mpr hrch)

theorem servedBy_expandRows (rows : List (GraphBindingRow ρ)) :
    ServedBy List.length (expandRows opts edge candidates verifiedFrom verifiedTo .existsOne rows [])
      (expandRows opts edge candidates verifiedFrom verifiedTo .allRows rows []) := by
  rw [expandRows_eq _ _ _ _ _ _ _ rfl, expandRows_eq _ _ _ _ _ _ _ rfl]
  refine servedBy_firstRow List.length (fun row _ nextRows => ?_) (fun row _ nextRows next hnext => ?_) []
  · exact servedBy_firstRow List.length (fun cand _ rows => servedBy_refl _)
      (fun cand _ rows next hnext => pushEdgeCandidateRow_le hnext) nextRows
  · replace hnext := (runUntil_never _ _ _).symm.trans hnext
    exact foldlM_keeps (fun rows => nextRows.length ≤ rows.length) (fun cand _ rows rows' hle hstep =>
      le_trans hle (pushEdgeCandidateRow_le hstep)) (le_refl _) hnext

end

theorem servedBy_expandFixedEdge (nodeQuery : ℕ → NormalizedNodeQuery) (edge : RuntimeEdge) (rows : List (GraphBindingRow ρ)) :
    ServedBy List.length (expandFixedEdge sl pols srcs opts atEpoch nodeQuery edge .existsOne rows)
      (expandFixedEdge sl pols srcs opts atEpoch nodeQuery edge .allRows rows) := by
  intro full hfull
  rw [expandFixedEdge] at hfull ⊢
  dsimp only at hfull ⊢
  split at hfull
  · rename_i hemp
    rw [if_pos hemp]
    exact ⟨full, hfull, serves_refl full⟩
  · rename_i hrows
    rw [if_neg hrows]
    obtain ⟨candidates, hcands, hfull⟩ := bind_ok hfull
    rw [hcands, ok_bind]
    exact servedBy_expandRows edge candidates _ _ _ full hfull

theorem servedBy_expandEdges (pat : RuntimePattern) (order : List ℕ) (rows : List (GraphBindingRow ρ)) :
    ServedBy List.length (expandEdges sl pols srcs opts atEpoch pat .existsOne order rows)
      (expandEdges sl pols srcs opts atEpoch pat .allRows order rows) := by
  induction order generalizing rows with
  | nil => exact servedBy_refl _
  | cons idx order ih =>
    rw [expandEdges, expandEdges]
    cases hedge : pat.edges[idx]? with
    | none => exact ih rows
    | some edge =>
      dsimp only
      cases order with
      | nil =>
        -- the last edge has the goal
        intro full hfull
        obtain ⟨next, hnext, hfull⟩ := bind_ok hfull
        obtain rfl := ok.inj hfull
        obtain ⟨out, hout, hsrv⟩ := servedBy_expandFixedEdge pat.nodeQuery edge rows next hnext
        refine ⟨out, ?_, hsrv⟩
        rw [isEmpty_nil, if_pos rfl, hout, ok_bind, expandEdges]
      | cons other order =>
        intro full hfull
        rw [isEmpty_cons, if_neg Bool.false_ne_true] at hfull ⊢
        obtain ⟨next, hnext, hfull⟩ := bind_ok hfull
        rw [hnext, ok_bind]
        exact ih next full hfull

theorem servedBy_executeRequiredSegment (pat : RuntimePattern) (plan : SegmentPlan pat) (rest : ρ)
    (rows : Option (List (GraphBindingRow ρ))) :
    ServedBy List.length (executeRequiredSegment sl pols srcs opts atEpoch pat plan rest .existsOne rows)
      (executeRequiredSegment sl pols srcs opts atEpoch pat plan rest .allRows rows) := by
  intro full hfull
  rw [executeRequiredSegment] at hfull ⊢
  obtain ⟨start, hst, hfull⟩ := bind_ok hfull
  rw [hst, ok_bind]
  exact servedBy_expandEdges pat plan.edgeOrder start full hfull

end

section
variable {opts : MatchOptions} {path : RuntimeVariableLength} {row : MatchRow} {graphPath : GraphPath}

theorem pushPathRow_le {output next : List MatchRow}
    (h : pushPathRow opts path row graphPath output = .ok next) : output.length ≤ next.length := by
  rw [pushPathRow] at h
  split at h
  · cases h
  · split at h
    · split at h
      · exact ok.inj h ▸ le_refl _
      · split at h
        · exact ok.inj h ▸ le_refl _
        · obtain ⟨_, -, h⟩ := bind_ok h
          obtain ⟨_, -, h⟩ := bind_ok h
          obtain ⟨_, -, h⟩ := bind_ok h
          rw [← ok.inj h, length_append]
          exact le_add_right _ _
    · exact ok.inj h ▸ le_refl _

theorem takePath_le {st st' : PathRows}
    (h : takePath opts path row st graphPath = .ok st') : st.output.length ≤ st'.output.length := by
  rw [takePath] at h
  split at h
  · exact ok.inj h ▸ le_refl _
  · split at h
    · cases h
    · obtain ⟨output, houtp, h⟩ := bind_ok h
      rw [← ok.inj h]
      exact pushPathRow_le houtp

theorem takePaths_le {paths : List GraphPath} {output next : List MatchRow}
    (h : takePaths opts path .allRows output row paths = .ok next) : output.length ≤ next.length := by
  obtain ⟨st, hst, h⟩ := bind_ok h
  have hrun : paths.foldlM (takePath opts path row) ⟨output, []⟩ = .ok st := (runUntil_never _ _ _).symm.trans hst
  rw [← ok.inj h]
  exact foldlM_keeps (fun st => output.length ≤ st.output.length) (fun _ _ st st' hle hstep => le_trans hle (takePath_le hstep))
    (le_refl _) hrun

theorem servedBy_takePaths (path : RuntimeVariableLength) (output : List MatchRow) (row : MatchRow) (paths : List GraphPath) :
    ServedBy List.length (takePaths opts path .existsOne output row paths) (takePaths opts path .allRows output row paths) := by
  have hrun := @servedBy_firstRow PathRows GraphPath EvalError (fun st => st.output.length) (takePath opts path row)
    (takePath opts path row) paths (fun graphPath _ st => servedBy_refl _) (fun graphPath _ st st' hstep => takePath_le hstep) ⟨output, []⟩
  exact hrun.map fun st => rfl

variable {sl : SourceList} {pols : Option PrecomputedPruneCutoffs} {srcs : MatchSources sl pols} {atEpoch : ℤ}

theorem servedBy_executeVariableLength (path : RuntimeVariableLength) (rows : List MatchRow) :
    ServedBy List.length (executeVariableLength sl pols srcs opts atEpoch path .existsOne rows)
      (executeVariableLength sl pols srcs opts atEpoch path .allRows rows) := by
  intro full hfull
  rw [executeVariableLength] at hfull ⊢
  split at hfull
  · rename_i hemp
    rw [if_pos hemp]
    exact ⟨full, hfull, serves_refl full⟩
  · rename_i hrows
    rw [if_neg hrows]
    split at hfull
    · rename_i hhops
      rw [if_pos hhops]
      obtain ⟨candidates, hcands, hfull⟩ := bind_ok hfull
      rw [executeOneHopVariableLength, hcands, ok_bind]
      exact servedBy_firstRow List.length (fun row _ output => servedBy_takePaths path output row _)
        (fun row _ output next hstep => takePaths_le hstep) [] full hfull
    · rename_i hhops
      rw [if_neg hhops]
      refine servedBy_firstRow List.length (fun row _ output next hstep => ?_) (fun row _ output next hstep => ?_) [] full hfull
      · obtain ⟨paths, hpaths, hstep⟩ := bind_ok hstep
        rw [expandVlpRow, hpaths, ok_bind]
        exact servedBy_takePaths path output row paths next hstep
      · obtain ⟨paths, -, hstep⟩ := bind_ok hstep
        exact takePaths_le hstep

theorem servedBy_composeFixedPathRows (path : RuntimeFixedPath) (rows : List MatchRow) :
    ServedBy List.length (composeFixedPathRows path .existsOne rows) (composeFixedPathRows path .allRows rows) := by
  intro full hfull
  obtain ⟨composed, hcomp, hfull⟩ := bind_ok hfull
  obtain rfl : composed = full := ok.inj hfull
  rw [composeFixedPathRows, hcomp, ok_bind]
  by_cases hpos : 0 < composed.length
  · rw [if_pos ((reached_existsOne _).mpr hpos)]
    exact ⟨_, rfl, Or.inr ⟨by rw [length_take]; omega, by rw [length_take]; omega⟩⟩
  · rw [if_neg fun hrch => hpos ((reached_existsOne _).mp hrch)]
    exact ⟨_, rfl, serves_refl _⟩

theorem servedBy_executeStep (rest : RestSlots) (rows : Option (List MatchRow)) (step : RuntimeStep) :
    ServedBy List.length (executeStep sl pols srcs opts atEpoch rest .existsOne rows step)
      (executeStep sl pols srcs opts atEpoch rest .allRows rows step) := by
  cases step with
  | requiredSegment pat plan => exact ServedBy.mapError (servedBy_executeRequiredSegment pat plan rest rows)
  | fixedPath path => exact servedBy_composeFixedPathRows path _
  | variableLength path => exact servedBy_executeVariableLength path _
  | optional group => exact servedBy_refl _

theorem recordBindings_id {rows recorded : List MatchRow} (h : recordBindings opts rows = .ok recorded) : recorded = rows := by
  rw [recordBindings] at h
  split at h
  · cases h
  · exact (ok.inj h).symm

theorem recordBindings_smaller {rows more : List MatchRow} (hle : rows.length ≤ more.length)
    (h : recordBindings opts more = .ok more) : recordBindings opts rows = .ok rows := by
  rw [recordBindings] at h ⊢
  split at h
  · cases h
  · rename_i hcap
    exact if_neg fun hover => hcap (lt_of_lt_of_le hover hle)

theorem servedBy_recordBindings {one all : Except EvalError (List MatchRow)} (h : ServedBy List.length one all) :
    ServedBy List.length (one >>= recordBindings opts) (all >>= recordBindings opts) :=
  h.bind_check (fun _ _ => recordBindings_id) fun _ _ hle => recordBindings_smaller hle

theorem servedBy_executeSteps (rest : RestSlots) (steps : List RuntimeStep) (rows : Option (List MatchRow)) :
    ServedBy List.length (executeSteps sl pols srcs opts atEpoch rest .existsOne steps rows)
      (executeSteps sl pols srcs opts atEpoch rest .allRows steps rows) := by
  induction steps generalizing rows with
  | nil => exact servedBy_refl _
  | cons step steps ih =>
    rw [executeSteps, executeSteps]
    cases steps with
    | nil =>
      -- the last step has the goal
      intro full hfull
      rw [isEmpty_nil, if_pos rfl] at hfull ⊢
      obtain ⟨next, hnext, hfull⟩ := bind_ok hfull
      obtain ⟨recorded, hrecd, hfull⟩ := bind_ok hfull
      have hall : (executeStep sl pols srcs opts atEpoch rest .allRows rows step >>= recordBindings opts) =
          .ok recorded := by rw [hnext, ok_bind, hrecd]
      obtain ⟨out, hout, hsrv⟩ := servedBy_recordBindings (servedBy_executeStep rest rows step) recorded hall
      obtain ⟨fst, hfst, hout⟩ := bind_ok hout
      rw [hfst, ok_bind, hout, ok_bind]
      exact ⟨out, rfl, ok.inj hfull ▸ hsrv⟩
    | cons other steps =>
      intro full hfull
      rw [isEmpty_cons, if_neg Bool.false_ne_true] at hfull ⊢
      obtain ⟨next, hnext, hfull⟩ := bind_ok hfull
      obtain ⟨recorded, hrecd, hfull⟩ := bind_ok hfull
      rw [hnext, ok_bind, hrecd, ok_bind]
      exact ih (some recorded) full hfull

section
variable (h : sl.KeysIndexed)
include h

theorem mem_verified_of_covers {query : NormalizedNodeQuery} {candidateIds : List ℕ}
    (hcovs : ∀ id node, sl.findNode id = some node → nodeAccepted query pols node = true → id ∈ candidateIds) (id : ℕ) :
    id ∈ graphRowVerifiedNodeIds sl query pols candidateIds ↔ (sl.findNode id).any (nodeAccepted query pols) = true := by
  rw [graphRowVerifiedNodeIds_eq h, mem_filter, mem_sortedDedup]
  refine and_iff_right_of_imp fun hacc => ?_
  cases hnode : sl.findNode id with
  | none =>
    rw [hnode] at hacc
    cases hacc
  | some node =>
    rw [hnode, Option.any_some] at hacc
    exact hcovs id node hnode hacc

theorem servedBy_goalNodeIds (query : NormalizedNodeQuery) :
    ServedBy List.length (goalNodeIds sl pols srcs opts .existsOne query)
      (goalNodeIds sl pols srcs opts .allRows query) := by
  intro ids hids
  obtain rfl := initialNodeIds_ok hids
  refine ⟨_, rfl, ?_⟩
  have hall := mem_verified_of_covers h (srcs.node_covers query)
  have hfst := mem_verified_of_covers h (srcs.first_covers query)
  cases hids : anchorNodeIds srcs.toPhysicalSources query with
  | nil =>
    have hnone : graphRowVerifiedNodeIds sl query pols (srcs.firstCandidates query) = [] := by
      refine eq_nil_iff_forall_not_mem.mpr fun id hid => ?_
      have hmem := (hall id).mpr ((hfst id).mp hid)
      rw [← anchorNodeIds, hids] at hmem
      cases hmem
    rw [hnone]
    exact serves_refl _
  | cons id ids =>
    have hmem : id ∈ graphRowVerifiedNodeIds sl query pols (srcs.firstCandidates query) := by
      refine (hfst id).mpr ((hall id).mp ?_)
      rw [← anchorNodeIds, hids]
      exact mem_cons_self
    have hpos := length_pos_of_mem hmem
    refine Or.inr ⟨?_, ?_⟩
    · rw [length_take]
      omega
    · rw [length_take, length_cons]
      omega

theorem servedBy_goalRows (plan : RuntimePlan) (driver : InitialDriver) (rest : RestSlots) :
    ServedBy List.length (goalRows sl pols srcs opts plan driver rest .existsOne)
      (goalRows sl pols srcs opts plan driver rest .allRows) := by
  cases driver with
  | node slot => exact (servedBy_goalNodeIds h (plan.nodeQuery slot)).map fun ids => length_map _
  | empty | edge idx => exact servedBy_refl _

/-- Whoever asks for one match is told whether there is any. -/
theorem servedBy_executeMatch (plan : RuntimePlan) (initialBoundSlots : List ℕ) (rest : RestSlots)
    (initialRows : Option (List MatchRow)) :
    ServedBy List.length (executeMatch sl pols srcs opts atEpoch plan initialBoundSlots rest .existsOne initialRows)
      (executeMatch sl pols srcs opts atEpoch plan initialBoundSlots rest .allRows initialRows) := by
  unfold executeMatch executeRuntimePlan
  split
  · refine servedBy_recordBindings (ServedBy.mapError ?_)
    cases initialRows with
    | none => exact servedBy_goalRows h plan _ rest
    | some rows => exact servedBy_refl _
  · exact servedBy_executeSteps rest plan.steps _

end

end

end OverGraph.MatchGoals
