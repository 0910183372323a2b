import OverGraph.Cuts

/-!
# What a compaction keeps

A compaction replaces a list of segments, newest first, by one. Where the segments have
no tombstones, are not pruned and do not overlap, it copies all their records. Otherwise
a planner takes the first record it meets of each identifier, drops those whose identifier
has a tombstone in any of the segments, however old, drops the edges one of whose ends
was not kept, and writes no tombstones at all.
-/

namespace OverGraph.Compaction
open AssocMaps Records LayeredWrites Memtable MemtableState Segments Sources List Option Pass

/-- A registered prune policy, as the predicate it is at the time of the compaction. -/
abbrev PrunePolicy := NodeRecord → Bool

structure NodePlan extends Pass ℕ NodeRecord where
  pruned : List ℕ

structure EdgePlan extends Pass ℕ EdgeRecord where
  autoPruned : ℕ

def planNode (pols : List PrunePolicy) (deletedNodes : List ℕ) (plan : NodePlan)
    (entry : Sigma fun _ : ℕ => NodeRecord) : NodePlan :=
  if entry.1 ∈ plan.seen then plan
  else
    let plan := { plan with seen := entry.1 :: plan.seen }
    if entry.1 ∈ deletedNodes then plan
    else if pols.any (· entry.2) then { plan with pruned := entry.1 :: plan.pruned }
    else { plan with winners := plan.winners.insert entry.1 entry.2 }

def planEdge (nodes : NodePlan) (deletedNodes deletedEdges : List ℕ) (plan : EdgePlan)
    (entry : Sigma fun _ : ℕ => EdgeRecord) : EdgePlan :=
  if entry.1 ∈ plan.seen then plan
  else
    let plan := { plan with seen := entry.1 :: plan.seen }
    if entry.1 ∈ deletedEdges then plan
    else if entry.2.source ∈ deletedNodes ∨ entry.2.target ∈ deletedNodes then plan
    else if (nodes.winners.lookup entry.2.source).isNone ∨ (nodes.winners.lookup entry.2.target).isNone then
      if entry.2.source ∈ nodes.pruned ∨ entry.2.target ∈ nodes.pruned then
        { plan with autoPruned := plan.autoPruned + 1 }
      else plan
    else { plan with winners := plan.winners.insert entry.1 entry.2 }

structure V3Plan where
  nodes : NodePlan
  edges : EdgePlan

def v3PlanWinners (segs : List Segment) (pols : List PrunePolicy)
    (deletedNodes deletedEdges : List ℕ) : V3Plan :=
  let nodes := (segs.flatMap (·.nodes.entries)).foldl (planNode pols deletedNodes)
    ⟨Pass.start, []⟩
  let edges := (segs.flatMap (·.edges.entries)).foldl (planEdge nodes deletedNodes deletedEdges)
    ⟨Pass.start, 0⟩
  ⟨nodes, edges⟩

inductive CompactionPath where
  | fastMerge
  | unifiedV3
  deriving DecidableEq, Repr

def hasTombstones (segs : List Segment) : Bool := segs.any fun seg => !seg.deletedNodes.keys.isEmpty || !seg.deletedEdges.keys.isEmpty

/-- The smallest and the largest key of a map. -/
def idRange {α : Type} (m : Map ℕ α) : Option (ℕ × ℕ) :=
  match m.keys.min?, m.keys.max? with
  | some fst, some last => some (fst, last)
  | _, _ => none

def rangesDisjoint (ranges : List (ℕ × ℕ)) : Bool :=
  let sorted := ranges.mergeSort fun a b => decide (a.1 ≤ b.1)
  (sorted.zip sorted.tail).all fun window => decide (window.1.2 < window.2.1)

def segmentsAreNonOverlapping (segs : List Segment) : Bool :=
  rangesDisjoint (segs.filterMap fun seg => idRange seg.nodes) &&
    rangesDisjoint (segs.filterMap fun seg => idRange seg.edges)

def selectCompactionPath (segs : List Segment) (pols : List PrunePolicy) : CompactionPath :=
  if !hasTombstones segs && pols.isEmpty && segmentsAreNonOverlapping segs then .fastMerge
  else .unifiedV3

/-- All records of the inputs; where the path is chosen no two of them share an
identifier. -/
def fastMerge (segs : List Segment) : Segment := ⟨unionAll (segs.map (·.nodes)), unionAll (segs.map (·.edges)), ∅, ∅⟩

def collectDeletedNodes (segs : List Segment) : List ℕ := if hasTombstones segs then segs.flatMap (·.deletedNodes.keys) else []

def collectDeletedEdges (segs : List Segment) : List ℕ := if hasTombstones segs then segs.flatMap (·.deletedEdges.keys) else []

def compactStandard (segs : List Segment) (pols : List PrunePolicy) : Segment :=
  let plan := v3PlanWinners segs pols (collectDeletedNodes segs)
    (collectDeletedEdges segs)
  ⟨plan.nodes.winners, plan.edges.winners, ∅, ∅⟩

/-- The segment a compaction writes on a given path. -/
def outputOf (path : CompactionPath) (segs : List Segment) (pols : List PrunePolicy) : Segment :=
  match path with
  | .fastMerge => fastMerge segs
  | .unifiedV3 => compactStandard segs pols

def compactSegments (segs : List Segment) (pols : List PrunePolicy) : Segment := outputOf (selectCompactionPath segs pols) segs pols

section
variable (pols : List PrunePolicy) (deleted : List ℕ)

theorem planNode_offer (plan : NodePlan)
    (entry : Sigma fun _ : ℕ => NodeRecord) : (planNode pols deleted plan entry).toPass = plan.toPass.offer
      (fun id node => !decide (id ∈ deleted) && !pols.any (· node)) entry := by
  unfold planNode offer
  by_cases hseen : entry.1 ∈ plan.seen
  · simp [hseen]
  · by_cases hdel : entry.1 ∈ deleted
    · simp [hseen, hdel]
    · cases hpol : pols.any (· entry.2) <;> simp [hseen, hdel, hpol]

theorem foldl_planNode (entries : List (Sigma fun _ : ℕ => NodeRecord)) (plan : NodePlan) :
    (entries.foldl (planNode pols deleted) plan).toPass = entries.foldl
      (offer fun id node => !decide (id ∈ deleted) && !pols.any (· node)) plan.toPass :=
  (foldl_hom NodePlan.toPass fun p e => (planNode_offer pols deleted p e).symm).symm

end

private def keepsEdge (nodes : NodePlan) (deletedNodes deletedEdges : List ℕ) (id : ℕ) (edge : EdgeRecord) : Bool :=
  !decide (id ∈ deletedEdges) &&
    !decide (edge.source ∈ deletedNodes ∨ edge.target ∈ deletedNodes) &&
    !decide ((nodes.winners.lookup edge.source).isNone ∨ (nodes.winners.lookup edge.target).isNone)

section
variable (nodes : NodePlan) (deletedNodes deletedEdges : List ℕ)

theorem planEdge_offer (plan : EdgePlan) (entry : Sigma fun _ : ℕ => EdgeRecord) :
    (planEdge nodes deletedNodes deletedEdges plan entry).toPass = plan.toPass.offer (keepsEdge nodes deletedNodes deletedEdges) entry := by
  unfold planEdge offer keepsEdge
  split
  · rfl
  · dsimp only
    split
    · rename_i h; simp [h]
    · split
      · rename_i h; simp [h]
      · split
        · rename_i h
          simp only [h, decide_true, Bool.not_true, Bool.and_false, Bool.false_eq_true, if_false]
          split <;> rfl
        · rename_i hdel hends hwin
          simp only [hdel, hends, hwin, decide_false, Bool.not_false, Bool.and_true, if_true]

theorem foldl_planEdge (entries : List (Sigma fun _ : ℕ => EdgeRecord)) (plan : EdgePlan) :
    (entries.foldl (planEdge nodes deletedNodes deletedEdges) plan).toPass =
      entries.foldl (offer (keepsEdge nodes deletedNodes deletedEdges)) plan.toPass :=
  (foldl_hom EdgePlan.toPass fun p e => (planEdge_offer nodes deletedNodes deletedEdges p e).symm).symm

end

def NodeDeletedIn (segs : List Segment) (id : ℕ) : Prop := ∃ seg ∈ segs, seg.isNodeDeleted id = true

def EdgeDeletedIn (segs : List Segment) (id : ℕ) : Prop := ∃ seg ∈ segs, seg.isEdgeDeleted id = true

instance (segs : List Segment) (id : ℕ) : Decidable (NodeDeletedIn segs id) := inferInstanceAs (Decidable (∃ seg ∈ segs, _))

instance (segs : List Segment) (id : ℕ) : Decidable (EdgeDeletedIn segs id) := inferInstanceAs (Decidable (∃ seg ∈ segs, _))

variable {segs : List Segment} {id : ℕ}

theorem mem_keys_iff {α : Type} {m : Map ℕ α} : id ∈ m.keys ↔ (m.lookup id).isSome := by rw [AList.lookup_isSome, AList.mem_keys]

theorem hasTombstones_of_node (h : NodeDeletedIn segs id) : hasTombstones segs := by
  obtain ⟨seg, hseg, hdel⟩ := h
  refine any_eq_true.mpr ⟨seg, hseg, ?_⟩
  have hne : seg.deletedNodes.keys ≠ [] := ne_nil_of_mem (mem_keys_iff.mpr hdel)
  simp [hne]

theorem hasTombstones_of_edge (h : EdgeDeletedIn segs id) : hasTombstones segs := by
  obtain ⟨seg, hseg, hdel⟩ := h
  refine any_eq_true.mpr ⟨seg, hseg, ?_⟩
  have hne : seg.deletedEdges.keys ≠ [] := ne_nil_of_mem (mem_keys_iff.mpr hdel)
  simp [hne]

theorem mem_collectDeletedNodes : id ∈ collectDeletedNodes segs ↔ NodeDeletedIn segs id := by
  rw [collectDeletedNodes]
  split
  · rw [mem_flatMap]
    exact exists_congr fun seg => and_congr_right fun _ => mem_keys_iff
  · rename_i hnone
    exact ⟨fun h => (not_mem_nil h).elim, fun h => absurd (hasTombstones_of_node h) hnone⟩

theorem mem_collectDeletedEdges : id ∈ collectDeletedEdges segs ↔ EdgeDeletedIn segs id := by
  rw [collectDeletedEdges]
  split
  · rw [mem_flatMap]
    exact exists_congr fun seg => and_congr_right fun _ => mem_keys_iff
  · rename_i hnone
    exact ⟨fun h => (not_mem_nil h).elim, fun h => absurd (hasTombstones_of_edge h) hnone⟩

/-- The paths a compaction without prune policies may take. -/
def Admissible (path : CompactionPath) (segs : List Segment) : Prop := path = .unifiedV3 ∨ path = selectCompactionPath segs []

theorem Admissible.no_tombstones (h : Admissible .fastMerge segs) : hasTombstones segs = false := by
  rcases h with h | h
  · cases h
  · by_contra hsome
    simp [selectCompactionPath, hsome] at h

variable {seg : Segment}

theorem nodeOpinion_of_kept (h : seg.isNodeDeleted id ≠ true) : seg.nodeOpinion id = (seg.nodes.lookup id).map some := by
  simp [Segment.nodeOpinion, Segment.getNode, h]

theorem edgeOpinion_of_kept (h : seg.isEdgeDeleted id ≠ true) : seg.edgeOpinion id = (seg.edges.lookup id).map some := by
  simp [Segment.edgeOpinion, Segment.getEdge, h]

theorem findSome?_map_some {α β : Type} (l : List α) (f : α → Option β) :
    l.findSome? (fun a => (f a).map some) = (l.findSome? f).map some := by
  induction l with
  | nil => rfl
  | cons a l ih =>
    rw [findSome?_cons, findSome?_cons, ih]
    cases f a <;> rfl

/-- Where no input has a tombstone, the newest record is the newest opinion. -/
theorem firstOpinion_of_no_tombstone (h : ¬NodeDeletedIn segs id) : firstOpinion (segs.map Segment.nodeOpinion) id =
      (segs.findSome? fun seg => seg.nodes.lookup id).map some := by
  rw [firstOpinion, findSome?_map, ← findSome?_map_some]
  refine SourceList.findSome?_congr fun seg hseg => ?_
  exact nodeOpinion_of_kept fun hdel => h ⟨seg, hseg, hdel⟩

theorem firstOpinion_edge_of_no_tombstone (h : ¬EdgeDeletedIn segs id) : firstOpinion (segs.map Segment.edgeOpinion) id =
      (segs.findSome? fun seg => seg.edges.lookup id).map some := by
  rw [firstOpinion, findSome?_map, ← findSome?_map_some]
  refine SourceList.findSome?_congr fun seg hseg => ?_
  exact edgeOpinion_of_kept fun hdel => h ⟨seg, hseg, hdel⟩

def newestNode (segs : List Segment) (id : ℕ) : Option NodeRecord := segs.findSome? fun seg => seg.nodes.lookup id

def newestEdge (segs : List Segment) (id : ℕ) : Option EdgeRecord := segs.findSome? fun seg => seg.edges.lookup id

variable {pols : List PrunePolicy}

/-- The planner keeps the newest record of a node, unless any input has a tombstone or a
policy matches. -/
theorem lookup_compactStandard_nodes : (compactStandard segs pols).nodes.lookup id = if NodeDeletedIn segs id then none
      else (newestNode segs id).filter fun node => !pols.any (· node) := by
  simp only [compactStandard, v3PlanWinners, foldl_planNode, lookup_winners, mem_collectDeletedNodes]
  rw [← flatMap_map, dlookup_flatMap_entries, findSome?_map]
  simp only [Function.comp_def, newestNode]
  cases segs.findSome? fun seg => seg.nodes.lookup id <;>
    by_cases h : NodeDeletedIn segs id <;> simp [Option.filter, h]

/-- The planner keeps what is visible, except where any input has a tombstone. -/
theorem nodeOpinion_compactStandard : (compactStandard segs []).nodeOpinion id = if NodeDeletedIn segs id then none
      else firstOpinion (segs.map Segment.nodeOpinion) id := by
  have hkept : (compactStandard segs []).isNodeDeleted id ≠ true := by simp [compactStandard, Segment.isNodeDeleted]
  rw [nodeOpinion_of_kept hkept, lookup_compactStandard_nodes]
  split
  · rfl
  · rename_i h
    rw [firstOpinion_of_no_tombstone h]
    change ((newestNode segs id).filter _).map some = (newestNode segs id).map some
    cases newestNode segs id <;> rfl

theorem nodeOpinion_fastMerge (h : hasTombstones segs = false) :
    (fastMerge segs).nodeOpinion id = if NodeDeletedIn segs id then none
      else firstOpinion (segs.map Segment.nodeOpinion) id := by
  have hnone : ¬NodeDeletedIn segs id := fun hdel => by simp [hasTombstones_of_node hdel] at h
  have hkept : (fastMerge segs).isNodeDeleted id ≠ true := by simp [fastMerge, Segment.isNodeDeleted]
  rw [nodeOpinion_of_kept hkept, if_neg hnone, firstOpinion_of_no_tombstone hnone, fastMerge, lookup_unionAll, findSome?_map]
  rfl

/-- Either path keeps the visible nodes, except where any input has a tombstone. -/
theorem nodeOpinion_outputOf {path : CompactionPath} (hpath : Admissible path segs) :
    (outputOf path segs []).nodeOpinion id = if NodeDeletedIn segs id then none
      else firstOpinion (segs.map Segment.nodeOpinion) id := by
  cases path with
  | fastMerge => exact nodeOpinion_fastMerge hpath.no_tombstones
  | unifiedV3 => exact nodeOpinion_compactStandard

/-- The endpoint has a record in the inputs and no tombstone in any of them. -/
def EndpointKept (segs : List Segment) (nodeId : ℕ) : Prop := ¬NodeDeletedIn segs nodeId ∧ ∃ seg ∈ segs, (seg.nodes.lookup nodeId).isSome

/-- The planner keeps the edge. -/
structure EdgeKept (segs : List Segment) (id : ℕ) (edge : EdgeRecord) : Prop where
  notDeleted : ¬EdgeDeletedIn segs id
  source : EndpointKept segs edge.source
  target : EndpointKept segs edge.target

instance (segs : List Segment) (nodeId : ℕ) : Decidable (EndpointKept segs nodeId) := inferInstanceAs (Decidable (_ ∧ _))

/-- The planner keeps a record of the node. -/
def EndpointWins (segs : List Segment) (pols : List PrunePolicy) (nodeId : ℕ) : Prop :=
  ¬NodeDeletedIn segs nodeId ∧ ∃ node, newestNode segs nodeId = some node ∧ pols.any (· node) = false

/-- The planner keeps the edge, given the prune policies. -/
structure EdgeWins (segs : List Segment) (pols : List PrunePolicy) (id : ℕ)
    (edge : EdgeRecord) : Prop where
  notDeleted : ¬EdgeDeletedIn segs id
  source : EndpointWins segs pols edge.source
  target : EndpointWins segs pols edge.target

theorem isSome_compactStandard_nodes : ((compactStandard segs pols).nodes.lookup id).isSome ↔ EndpointWins segs pols id := by
  rw [lookup_compactStandard_nodes, EndpointWins]
  by_cases h : NodeDeletedIn segs id
  · simp [h]
  · cases newestNode segs id with
    | none => simp
    | some node =>
      rw [if_neg h]
      simp only [not_false_eq_true, true_and, Option.some.injEq, exists_eq_left', h]
      cases hpol : pols.any (· node) <;> simp only [Option.filter, hpol] <;> simp

variable {edge : EdgeRecord}

theorem keepsEdge_iff : keepsEdge (v3PlanWinners segs pols (collectDeletedNodes segs)
      (collectDeletedEdges segs)).nodes (collectDeletedNodes segs)
      (collectDeletedEdges segs) id edge = true ↔ EdgeWins segs pols id edge := by
  have hwinner : ∀ n, ((v3PlanWinners segs pols (collectDeletedNodes segs)
      (collectDeletedEdges segs)).nodes.winners.lookup n).isSome ↔ EndpointWins segs pols n :=
    fun n => isSome_compactStandard_nodes
  simp only [keepsEdge, Bool.and_eq_true, Bool.not_eq_true', decide_eq_false_iff_not,
    mem_collectDeletedNodes, mem_collectDeletedEdges, not_or, isNone_iff_eq_none,
    ← isSome_iff_ne_none, hwinner]
  constructor
  · rintro ⟨⟨hdel, -⟩, hsrc, htgt⟩
    exact ⟨hdel, hsrc, htgt⟩
  · intro h
    exact ⟨⟨h.notDeleted, h.source.1, h.target.1⟩, h.source, h.target⟩

theorem lookup_compactStandard_edges : (compactStandard segs pols).edges.lookup id = some edge ↔
      newestEdge segs id = some edge ∧ EdgeWins segs pols id edge := by
  have hlk : (compactStandard segs pols).edges.lookup id = (newestEdge segs id).filter (keepsEdge
        (v3PlanWinners segs pols (collectDeletedNodes segs) (collectDeletedEdges segs)).nodes
        (collectDeletedNodes segs) (collectDeletedEdges segs) id) := by
    simp only [compactStandard, v3PlanWinners, foldl_planEdge, lookup_winners]
    rw [← flatMap_map Segment.edges, dlookup_flatMap_entries, findSome?_map]
    rfl
  rw [hlk, filter_eq_some_iff, keepsEdge_iff]

theorem endpointWins_nil {nodeId : ℕ} : EndpointWins segs [] nodeId ↔ EndpointKept segs nodeId := by
  have hsome : (∃ node, newestNode segs nodeId = some node) ↔ ∃ seg ∈ segs, (seg.nodes.lookup nodeId).isSome := by
    rw [newestNode, ← isSome_iff_exists, List.findSome?_isSome_iff]
  simp [EndpointWins, EndpointKept, hsome]

theorem edgeWins_nil : EdgeWins segs [] id edge ↔ EdgeKept segs id edge :=
  ⟨fun h => ⟨h.notDeleted, endpointWins_nil.mp h.source, endpointWins_nil.mp h.target⟩,
    fun h => ⟨h.notDeleted, endpointWins_nil.mpr h.source, endpointWins_nil.mpr h.target⟩⟩

def KeepsEdge (segs : List Segment) (id : ℕ) (edge : EdgeRecord) : Prop := selectCompactionPath segs [] = .fastMerge ∨ EdgeKept segs id edge

theorem visible_node_of_kept (h : seg.isNodeDeleted id ≠ true) : visible [seg.nodeOpinion] id = seg.nodes.lookup id := by
  rw [visible, firstOpinion_cons, firstOpinion_nil, or_none, nodeOpinion_of_kept h]
  cases seg.nodes.lookup id <;> rfl

theorem visible_edge_of_kept (h : seg.isEdgeDeleted id ≠ true) : visible [seg.edgeOpinion] id = seg.edges.lookup id := by
  rw [visible, firstOpinion_cons, firstOpinion_nil, or_none, edgeOpinion_of_kept h]
  cases seg.edges.lookup id <;> rfl

theorem visible_of_no_tombstone (h : ¬EdgeDeletedIn segs id) : visible (segs.map Segment.edgeOpinion) id =
      segs.findSome? fun seg => seg.edges.lookup id := by
  rw [visible, firstOpinion_edge_of_no_tombstone h]
  cases segs.findSome? fun seg => seg.edges.lookup id <;> rfl

theorem mem_keys_of_visible (h : visible (segs.map Segment.edgeOpinion) id = some edge) : id ∈ segs.flatMap (·.edges.keys) := by
  rw [visible, join_eq_some_iff, firstOpinion] at h
  obtain ⟨lay, hl, hlay⟩ := exists_of_findSome?_eq_some h
  obtain ⟨seg, hseg, rfl⟩ := mem_map.mp hl
  have hkept : seg.isEdgeDeleted id ≠ true := fun hdel => by simp [Segment.edgeOpinion, hdel] at hlay
  rw [edgeOpinion_of_kept hkept] at hlay
  refine mem_flatMap.mpr ⟨seg, hseg, mem_keys_iff.mpr ?_⟩
  cases hl : seg.edges.lookup id with
  | none => simp [hl] at hlay
  | some e => rfl

/-- The output shows the edges the inputs show, of those it keeps. -/
theorem visible_compactSegments_edge : visible [(compactSegments segs []).edgeOpinion] id = some edge ↔
      visible (segs.map Segment.edgeOpinion) id = some edge ∧ KeepsEdge segs id edge := by
  cases hpath : selectCompactionPath segs [] with
  | fastMerge =>
    have hnone : ¬EdgeDeletedIn segs id := fun hdel => by
      have hno : hasTombstones segs = false := Admissible.no_tombstones (.inr hpath.symm)
      simp [hasTombstones_of_edge hdel] at hno
    have hkept : (fastMerge segs).isEdgeDeleted id ≠ true := by simp [fastMerge, Segment.isEdgeDeleted]
    rw [compactSegments, hpath, outputOf, visible_edge_of_kept hkept, visible_of_no_tombstone hnone,
      fastMerge, lookup_unionAll, findSome?_map]
    exact ⟨fun h => ⟨h, .inl hpath⟩, fun h => h.1⟩
  | unifiedV3 =>
    have hkept : (compactStandard segs []).isEdgeDeleted id ≠ true := by simp [compactStandard, Segment.isEdgeDeleted]
    rw [compactSegments, hpath, outputOf, visible_edge_of_kept hkept, lookup_compactStandard_edges, edgeWins_nil]
    constructor
    · rintro ⟨hfind, hedge⟩
      exact ⟨by rw [visible_of_no_tombstone hedge.notDeleted]; exact hfind, .inr hedge⟩
    · rintro ⟨hvis, hkeep⟩
      have hedge : EdgeKept segs id edge := hkeep.resolve_left fun h => by
        rw [hpath] at h
        cases h
      exact ⟨by rw [newestEdge, ← visible_of_no_tombstone hedge.notDeleted, hvis], hedge⟩

end OverGraph.Compaction
