import OverGraph.Compaction
import OverGraph.PrunePolicies

/-!
# Pruning in a background compaction

A background compaction applies the registered prune policies to the newest record of each
node in its inputs. The layers above the inputs, the memtables and the segments flushed
since it started, take no part in the decision, though readers see them first.
-/

namespace OverGraph.PrunedCompaction
open AssocMaps Records LayeredWrites Memtable MemtableState Segments Sources SourceList Cuts List
open Compaction PrunePolicies

/-- The registered policies as the planner applies them. -/
def planPolicies (pols : List ResolvedPrunePolicy) (now : ℤ) : List PrunePolicy :=
  pols.map fun policy node => matchesAnyPrunePolicyMeta node [policy] now

theorem planPolicies_any (pols : List ResolvedPrunePolicy) (now : ℤ) (node : NodeRecord) :
    (planPolicies pols now).any (· node) = matchesAnyPrunePolicyMeta node pols now := by
  simp [planPolicies, matchesAnyPrunePolicyMeta, any_map, Function.comp_def]

/-- Memtables and segments above the inputs of a compaction, newest first. -/
structure LayeredState where
  active : List SeqOp
  immutable : List (List SeqOp)
  above : List Segment
  inputs : List Segment

namespace LayeredState
variable (st : LayeredState) (pols : List ResolvedPrunePolicy) (now : ℤ)

/-- The layers with the given segments below those above the inputs. -/
def withBelow (below : List Segment) : SourceList := { (Layering.mk st.active st.immutable []).sources with segments := st.above ++ below }

def sources : SourceList := st.withBelow st.inputs

/-- The layers after the result was applied: the output is the oldest segment. -/
def pruned : SourceList := st.withBelow [compactSegments st.inputs (planPolicies pols now)]

def nodesAbove : List (Opinion ℕ NodeRecord) :=
  (ofOps st.active :: st.immutable.map ofOps).map nodeOpinion ++ st.above.map Segment.nodeOpinion

def edgesAbove : List (Opinion ℕ EdgeRecord) :=
  (ofOps st.active :: st.immutable.map ofOps).map edgeOpinion ++ st.above.map Segment.edgeOpinion

/-- A node that readers see is no longer seen. -/
def NodeRemoved (id : ℕ) : Prop := (st.sources.findNode id).isSome ∧ (st.pruned pols now).findNode id = none

/-- The compaction takes from readers the nodes whose latest version matches a policy and
their edges, and nothing else. -/
structure FollowsLatest : Prop where
  nodes : ∀ id node, st.sources.findNode id = some node → (st.pruned pols now).findNode id = none →
    matchesAnyPrunePolicyMeta node pols now = true
  edges : ∀ id edge, st.sources.findEdge id = some edge → (st.pruned pols now).findEdge id = none →
    st.NodeRemoved pols now edge.source ∨ st.NodeRemoved pols now edge.target
  /-- A node rewritten above the inputs keeps its edges to the nodes that stay. -/
  rewritten : ∀ id node, firstOpinion st.nodesAbove id = some (some node) → matchesAnyPrunePolicyMeta node pols now = false →
    ∀ edgeId edge, st.sources.findEdge edgeId = some edge → edge.source = id ∨ edge.target = id →
      (∀ other, edge.source = other ∨ edge.target = other → other ≠ id → ¬st.NodeRemoved pols now other) →
      (st.pruned pols now).findEdge edgeId = some edge

/-- The inputs alone decide about the node, and a policy matches what they show. -/
def Prunable (id : ℕ) : Prop :=
  firstOpinion st.nodesAbove id = none ∧ ∃ node,
    visible (st.inputs.map Segment.nodeOpinion) id = some node ∧ matchesAnyPrunePolicyMeta node pols now = true

/-- Nothing of the inputs that the layers above leave to them is dropped for another reason
than a policy. -/
structure PrunesOnly : Prop where
  nodes : ∀ id node, firstOpinion st.nodesAbove id = none → visible (st.inputs.map Segment.nodeOpinion) id = some node →
    matchesAnyPrunePolicyMeta node pols now = false → ¬NodeDeletedIn st.inputs id
  edges : ∀ id edge, firstOpinion st.edgesAbove id = none → visible (st.inputs.map Segment.edgeOpinion) id = some edge →
    selectCompactionPath st.inputs (planPolicies pols now) = .fastMerge ∨ EdgeWins st.inputs (planPolicies pols now) id edge ∨
      st.Prunable pols now edge.source ∨ st.Prunable pols now edge.target

section
variable (below : List Segment)

theorem wellFormed_withBelow : (st.withBelow below).WellFormed :=
  ⟨(Layering.mk st.active st.immutable []).wellFormed.settled, (Layering.mk st.active st.immutable []).wellFormed.tombstones⟩

theorem findNode_withBelow (id : ℕ) :
    (st.withBelow below).findNode id = visible (st.nodesAbove ++ below.map Segment.nodeOpinion) id := by
  rw [(st.wellFormed_withBelow below).findNode, nodeLayers, nodesAbove, withBelow, map_append, append_assoc]
  rfl

theorem findEdge_withBelow (id : ℕ) :
    (st.withBelow below).findEdge id = visible (st.edgesAbove ++ below.map Segment.edgeOpinion) id := by
  rw [(st.wellFormed_withBelow below).findEdge, edgeLayers, edgesAbove, withBelow, map_append, append_assoc]
  rfl

end

end LayeredState

variable {node : NodeRecord} {edge : EdgeRecord}

section
variable {segs : List Segment} {pols : List PrunePolicy} {id : ℕ}

theorem fastMerge_conditions (h : selectCompactionPath segs pols = .fastMerge) : hasTombstones segs = false ∧ pols = [] := by
  rw [selectCompactionPath] at h
  split at h
  · rename_i hcond
    simp only [Bool.and_eq_true, Bool.not_eq_true', List.isEmpty_iff] at hcond
    exact hcond.1
  · cases h

theorem newestNode_of_visible (h : visible (segs.map Segment.nodeOpinion) id = some node) : newestNode segs id = some node := by
  induction segs with
  | nil => cases h
  | cons seg segs ih =>
    rw [map_cons, visible, firstOpinion_cons] at h
    rw [newestNode, findSome?_cons]
    by_cases hdel : seg.isNodeDeleted id = true
    · simp [Segment.nodeOpinion, hdel] at h
    · rw [nodeOpinion_of_kept hdel] at h
      cases hlk : seg.nodes.lookup id with
      | some other => simpa [hlk] using h
      | none => exact ih (by simpa [hlk, visible] using h)

theorem newestEdge_of_visible (h : visible (segs.map Segment.edgeOpinion) id = some edge) : newestEdge segs id = some edge := by
  induction segs with
  | nil => cases h
  | cons seg segs ih =>
    rw [map_cons, visible, firstOpinion_cons] at h
    rw [newestEdge, findSome?_cons]
    by_cases hdel : seg.isEdgeDeleted id = true
    · simp [Segment.edgeOpinion, hdel] at h
    · rw [edgeOpinion_of_kept hdel] at h
      cases hlk : seg.edges.lookup id with
      | some other => simpa [hlk] using h
      | none => exact ih (by simpa [hlk, visible] using h)

theorem output_kept_node (path : CompactionPath) : (outputOf path segs pols).isNodeDeleted id ≠ true := by
  cases path <;> simp [outputOf, fastMerge, compactStandard, Segment.isNodeDeleted]

theorem output_kept_edge (path : CompactionPath) : (outputOf path segs pols).isEdgeDeleted id ≠ true := by
  cases path <;> simp [outputOf, fastMerge, compactStandard, Segment.isEdgeDeleted]

/-- A node the inputs show is lost to a tombstone in one of them or to a policy. -/
theorem node_lost_iff (h : visible (segs.map Segment.nodeOpinion) id = some node) :
    visible [(compactSegments segs pols).nodeOpinion] id = none ↔ NodeDeletedIn segs id ∨ pols.any (· node) = true := by
  rw [compactSegments, visible_node_of_kept (output_kept_node _)]
  have hnewest := newestNode_of_visible h
  cases hpath : selectCompactionPath segs pols with
  | fastMerge =>
    obtain ⟨hclear, rfl⟩ := fastMerge_conditions hpath
    have hnone : ¬NodeDeletedIn segs id := fun hdel => by simp [hasTombstones_of_node hdel] at hclear
    rw [newestNode] at hnewest
    rw [outputOf, fastMerge, lookup_unionAll, findSome?_map]
    simp [hnone, Function.comp_def, hnewest]
  | unifiedV3 =>
    rw [outputOf, lookup_compactStandard_nodes, hnewest]
    by_cases hdel : NodeDeletedIn segs id
    · simp [hdel]
    · simp only [hdel, if_false, false_or, Option.filter]
      by_cases hm' : (pols.any (· node)) = true <;> simp [hm']

/-- An edge the inputs show stays as it is or is lost, where the planner does not keep it. -/
theorem edge_output (h : visible (segs.map Segment.edgeOpinion) id = some edge) :
    (visible [(compactSegments segs pols).edgeOpinion] id = none ∨ visible [(compactSegments segs pols).edgeOpinion] id = some edge) ∧
      (visible [(compactSegments segs pols).edgeOpinion] id = none ↔
        ¬(selectCompactionPath segs pols = .fastMerge ∨ EdgeWins segs pols id edge)) := by
  rw [compactSegments, visible_edge_of_kept (output_kept_edge _)]
  have hnewest := newestEdge_of_visible h
  cases hpath : selectCompactionPath segs pols with
  | fastMerge =>
    rw [newestEdge] at hnewest
    rw [outputOf, fastMerge, lookup_unionAll, findSome?_map]
    simp [Function.comp_def, hnewest]
  | unifiedV3 =>
    rw [outputOf]
    cases hlk : (compactStandard segs pols).edges.lookup id with
    | none =>
      have hloses : ¬EdgeWins segs pols id edge := fun hwins => by
        rw [lookup_compactStandard_edges.mpr ⟨hnewest, hwins⟩] at hlk
        cases hlk
      simp [hloses]
    | some other =>
      obtain ⟨hoth, hwins⟩ := lookup_compactStandard_edges.mp hlk
      obtain rfl : other = edge := Option.some.inj (hoth.symm.trans hnewest)
      simp [hwins]

end

namespace LayeredState
variable {st : LayeredState} {pols : List ResolvedPrunePolicy} {now : ℤ}

section
variable {id : ℕ}

theorem node_removed_iff :
    st.sources.findNode id = some node ∧ (st.pruned pols now).findNode id = none ↔
      firstOpinion st.nodesAbove id = none ∧ visible (st.inputs.map Segment.nodeOpinion) id = some node ∧
        (NodeDeletedIn st.inputs id ∨ matchesAnyPrunePolicyMeta node pols now = true) := by
  rw [sources, pruned, findNode_withBelow, findNode_withBelow, visible_lost_iff]
  refine and_congr_right fun _ => and_congr_right fun hlive => ?_
  rw [map_singleton, node_lost_iff hlive, planPolicies_any]

theorem edge_removed_iff :
    st.sources.findEdge id = some edge ∧ (st.pruned pols now).findEdge id = none ↔
      firstOpinion st.edgesAbove id = none ∧ visible (st.inputs.map Segment.edgeOpinion) id = some edge ∧
        ¬(selectCompactionPath st.inputs (planPolicies pols now) = .fastMerge ∨ EdgeWins st.inputs (planPolicies pols now) id edge) := by
  rw [sources, pruned, findEdge_withBelow, findEdge_withBelow, visible_lost_iff]
  refine and_congr_right fun _ => and_congr_right fun hlive => ?_
  rw [map_singleton, (edge_output hlive).2]

/-- What readers see of an edge after the compaction is what they saw or nothing. -/
theorem findEdge_pruned (h : st.sources.findEdge id = some edge) :
    (st.pruned pols now).findEdge id = none ∨ (st.pruned pols now).findEdge id = some edge := by
  rw [sources, findEdge_withBelow] at h
  rw [pruned, findEdge_withBelow]
  cases hop : firstOpinion st.edgesAbove id with
  | some opinion =>
    rw [visible_of_opinion hop] at h ⊢
    exact .inr h
  | none =>
    rw [visible_of_silent hop] at h ⊢
    exact (edge_output h).1

theorem nodeRemoved_of_prunable (h : st.Prunable pols now id) : st.NodeRemoved pols now id := by
  obtain ⟨hsil, node, hlive, hm'⟩ := h
  obtain ⟨hbef, haft⟩ := node_removed_iff.mpr ⟨hsil, hlive, .inr hm'⟩
  exact ⟨by rw [hbef]; rfl, haft⟩

theorem prunable_of_nodeRemoved (hnos : ∀ id node, st.sources.findNode id = some node →
      (st.pruned pols now).findNode id = none → matchesAnyPrunePolicyMeta node pols now = true)
    (h : st.NodeRemoved pols now id) : st.Prunable pols now id := by
  obtain ⟨hsome, haft⟩ := h
  obtain ⟨node, hbef⟩ := Option.isSome_iff_exists.mp hsome
  obtain ⟨hsil, hlive, -⟩ := node_removed_iff.mp ⟨hbef, haft⟩
  exact ⟨hsil, node, hlive, hnos id node hbef haft⟩

theorem not_nodeRemoved_of_above (h : firstOpinion st.nodesAbove id = some (some node)) : ¬st.NodeRemoved pols now id := by
  rintro ⟨-, haft⟩
  rw [pruned, findNode_withBelow, visible_of_opinion h] at haft
  cases haft

end

theorem FollowsLatest.of_nodes_edges (hnos : ∀ id node, st.sources.findNode id = some node →
      (st.pruned pols now).findNode id = none → matchesAnyPrunePolicyMeta node pols now = true)
    (heds : ∀ id edge, st.sources.findEdge id = some edge → (st.pruned pols now).findEdge id = none →
      st.NodeRemoved pols now edge.source ∨ st.NodeRemoved pols now edge.target) :
    st.FollowsLatest pols now := by
  refine ⟨hnos, heds, ?_⟩
  intro id node hab _ edgeId edge hedge hend hothers
  refine (findEdge_pruned hedge).resolve_left fun hgone => ?_
  have hrem : ∀ n, edge.source = n ∨ edge.target = n → ¬st.NodeRemoved pols now n := by
    intro n hn
    by_cases hid : n = id
    · rw [hid]
      exact not_nodeRemoved_of_above hab
    · exact hothers n hn hid
  rcases heds edgeId edge hedge hgone with hgone | hgone
  · exact hrem _ (.inl rfl) hgone
  · exact hrem _ (.inr rfl) hgone

/-- A background compaction prunes by the latest versions exactly when it drops nothing that
the layers above leave to its inputs for another reason than a policy. -/
theorem followsLatest_iff (st : LayeredState) (pols : List ResolvedPrunePolicy) (now : ℤ) :
    st.FollowsLatest pols now ↔ st.PrunesOnly pols now := by
  constructor
  · intro h
    refine ⟨fun id node hsilent hlive hkeep hdel => ?_, fun id edge hsilent hlive => ?_⟩
    · obtain ⟨hbefore, hafter⟩ := node_removed_iff.mpr ⟨hsilent, hlive, .inl hdel⟩
      have hmatch := h.nodes id node hbefore hafter
      rw [hkeep] at hmatch
      cases hmatch
    · by_contra hnot
      rw [← or_assoc, not_or] at hnot
      obtain ⟨hbefore, hafter⟩ := edge_removed_iff.mpr ⟨hsilent, hlive, hnot.1⟩
      rcases h.edges id edge hbefore hafter with hgone | hgone
      · exact hnot.2 (.inl (prunable_of_nodeRemoved h.nodes hgone))
      · exact hnot.2 (.inr (prunable_of_nodeRemoved h.nodes hgone))
  · intro h
    apply FollowsLatest.of_nodes_edges
    · intro id node hbefore hafter
      obtain ⟨hsilent, hlive, hcause⟩ := node_removed_iff.mp ⟨hbefore, hafter⟩
      by_contra hkeep
      exact h.nodes id node hsilent hlive (by simpa using hkeep) (hcause.resolve_right hkeep)
    · intro id edge hbefore hafter
      obtain ⟨hsilent, hlive, hcause⟩ := edge_removed_iff.mp ⟨hbefore, hafter⟩
      rcases h.edges id edge hsilent hlive with hfast | hwins | hgone | hgone
      · exact absurd (.inl hfast) hcause
      · exact absurd (.inr hwins) hcause
      · exact .inl (nodeRemoved_of_prunable hgone)
      · exact .inr (nodeRemoved_of_prunable hgone)

private def weighted (id : ℕ) (key : String) (weight : F32) : NodeRecord :=
  ⟨id, .single 1 Nat.one_ne_zero, key, ∅, 0, 0, weight, none, none, 0⟩

private def between : EdgeRecord := ⟨1, 1, 2, 1, ∅, 0, 0, 0, 0, i64Max, 0⟩

/-- A light and a heavy node and their edge; the memtable rewrites the light one as heavy. -/
private def rewrittenAbove : LayeredState where
  active := [(4, .upsertNode (weighted 1 "a" 0x3F800000))]
  immutable := []
  above := []
  inputs := [⟨∅, AList.singleton 1 between, ∅, ∅⟩,
    ⟨AList.insert 2 (weighted 2 "b" 0x3F800000) (AList.singleton 1 (weighted 1 "a" 0)), ∅, ∅, ∅⟩]

/-- Prune nodes of weight at most a half. -/
private def lightNodes : List ResolvedPrunePolicy := [⟨none, some 0x3F000000, none⟩]

/-- The edge of a node that was rewritten above the inputs is lost. -/
theorem edge_of_rewritten_node_lost : ¬∀ (st : LayeredState) (pols : List ResolvedPrunePolicy) (now : ℤ),
      st.FollowsLatest pols now := by
  intro h
  have hstays : ∀ id, ((rewrittenAbove.pruned lightNodes 0).findNode id).isSome →
      ¬rewrittenAbove.NodeRemoved lightNodes 0 id := by
    intro id hsome hremoved
    rw [hremoved.2] at hsome
    cases hsome
  have hgone : (rewrittenAbove.pruned lightNodes 0).findEdge 1 = none :=
    Option.isNone_iff_eq_none.mp (by decide)
  rcases (h rewrittenAbove lightNodes 0).edges 1 between rfl hgone with hremoved | hremoved
  · exact hstays 1 (by decide) hremoved
  · exact hstays 2 (by decide) hremoved

end LayeredState

end OverGraph.PrunedCompaction
