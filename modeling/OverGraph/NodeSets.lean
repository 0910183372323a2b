import OverGraph.NeighborBatches
import OverGraph.CandidateScans

/-!
# The nodes that a filter selects

All nodes with a record, or those with certain labels, are collected from the label indexes of the layers and checked against their
newest records. Every node has a label, so that all nodes are found under their labels. With several labels to meet, one of them
drives the scan.
-/

namespace OverGraph.NodeSets
open Option hiding all_eq_true any_eq_true mem_map mem_map_of_mem
open VersionedSlots Records Memtable MemtableState LayeredWrites Segments Sources SnapshotReads SnapshotStability List AList
open IndexHeads AdjacencyReads AdjacencyCells PrunePolicies NeighborBatches
open NodeFilters (ResolvedNodeLabelFilter nodeLabelFilterMatches LabelMatchMode)
open CascadingDeletes (isLive nodesByLabelIdRaw filterNodeIdsByCurrentLabel segmentNodesByLabelId)
open CandidateScans

section
variable (sl : SourceList)

def memtableNodeIds (test : NodeRecord → Bool) (m : MemtableState) : List ℕ :=
  ((m.nodes.entries.map (·.1)).filter fun id => (m.getNodeAt id sl.snapshotSeq).any test).insertionSort (· ≤ ·)

def segmentNodeIds (test : NodeRecord → Bool) (seg : Segment) : List ℕ :=
  ((seg.nodes.entries.map (·.1)).filter fun id => (seg.nodes.lookup id).any test).insertionSort (· ≤ ·)

def nodeScanSources (test : NodeRecord → Bool) : List (List ℕ) :=
  (sl.active :: sl.immutable).map (memtableNodeIds sl test) ++ sl.segments.map (segmentNodeIds test)

def singleLabelNodeSources (labelId : ℕ) : List (List ℕ) := nodeScanSources sl (·.labelIds.contains labelId)

def rawNodeLabelCandidates (labelIds : List ℕ) (after : Option ℕ) : List ℕ :=
  scanSources (fun _ _ => true) after (labelIds.flatMap (singleLabelNodeSources sl))

end

section
variable {sl : SourceList}

section
variable (test : NodeRecord → Bool)

theorem ascending_memtableNodeIds (m : MemtableState) : Ascending (memtableNodeIds sl test m) :=
  ascending_insertionSort (m.nodes.nodupKeys.filter _)

theorem ascending_segmentNodeIds (seg : Segment) : Ascending (segmentNodeIds test seg) :=
  ascending_insertionSort (seg.nodes.nodupKeys.filter _)

theorem ascending_nodeScanSources : ∀ src ∈ nodeScanSources sl test, Ascending src := by
  intro src hsrc
  rcases mem_append.mp hsrc with hsrc | hsrc
  · obtain ⟨m, -, rfl⟩ := mem_map.mp hsrc
    exact ascending_memtableNodeIds test m
  · obtain ⟨seg, -, rfl⟩ := mem_map.mp hsrc
    exact ascending_segmentNodeIds test seg

end

/-- A visible node that passes the test is in the list of the layer that shows it. -/
theorem exists_nodeScanSource {test : NodeRecord → Bool} {id : ℕ} {node : NodeRecord} (hnode : sl.findNode id = some node)
    (htest : test node = true) : ∃ src ∈ nodeScanSources sl test, id ∈ src := by
  have hjoin := join_eq_some_iff.mp hnode
  rcases or_eq_some_iff.mp hjoin with hfnd | ⟨-, hfnd⟩
  · obtain ⟨m, hm, hread⟩ := exists_of_findSome?_eq_some hfnd
    refine ⟨_, mem_append_left _ (mem_map_of_mem hm), ?_⟩
    rw [memtableNodeIds, mem_insertionSort, mem_filter]
    split at hread
    · rename_i held hheld
      obtain rfl := some.inj (some.inj hread)
      refine ⟨?_, by rw [hheld]; exact htest⟩
      refine mem_keys.mp (lookup_isSome.mp ?_)
      cases hlk : m.nodes.lookup id with
      | some _ => rfl
      | none => simp [MemtableState.getNodeAt, MemtableState.nodeStateAt, hlk] at hheld
    · split at hread <;> cases hread
  · obtain ⟨seg, hseg, hread⟩ := exists_of_findSome?_eq_some hfnd
    refine ⟨_, mem_append_right _ (mem_map_of_mem hseg), ?_⟩
    rw [segmentNodeIds, mem_insertionSort, mem_filter]
    split at hread
    · cases hread
    · obtain ⟨held, hheld, heq⟩ := map_eq_some_iff.mp hread
      obtain rfl := some.inj heq
      rw [Segment.getNode] at hheld
      split at hheld
      · cases hheld
      · refine ⟨mem_keys.mp (lookup_isSome.mp (by rw [hheld]; rfl)), ?_⟩
        rw [hheld]
        exact htest

theorem ascending_labelSources (labelIds : List ℕ) : ∀ src ∈ labelIds.flatMap (singleLabelNodeSources sl), Ascending src := by
  intro src hsrc
  obtain ⟨labelId, -, hsrc⟩ := mem_flatMap.mp hsrc
  exact ascending_nodeScanSources _ src hsrc

theorem mem_rawNodeLabelCandidates {id labelId : ℕ} {node : NodeRecord} (hnode : sl.findNode id = some node)
    (hlab : node.labelIds.contains labelId = true) {labelIds : List ℕ} (hmem : labelId ∈ labelIds) :
    id ∈ rawNodeLabelCandidates sl labelIds none := by
  obtain ⟨src, hsrc, hid⟩ := @exists_nodeScanSource sl (·.labelIds.contains labelId) id node hnode hlab
  exact (mem_scanSources (ascending_labelSources labelIds)).mpr
    ⟨⟨src, mem_flatMap.mpr ⟨labelId, hmem, hsrc⟩, hid⟩, fun cursor hcsr => by cases hcsr⟩

end

section
variable (sl : SourceList) (pols : Option PrecomputedPruneCutoffs) (labelUpperBound : ℕ → Option ℕ)

def memtableNodeLabelIds (m : MemtableState) : List ℕ := (visibleKeys m.labelNodeIndex sl.snapshotSeq).map (·.1)

def segmentNodeLabelIds (seg : Segment) : List ℕ := seg.nodes.entries.flatMap fun entry => entry.2.labelIds.labelIds

def nodeLabelIds : List ℕ :=
  ((sl.active :: sl.immutable).flatMap (memtableNodeLabelIds sl) ++ sl.segments.flatMap segmentNodeLabelIds).dedup

def collectUnconstrainedNodeIds : List ℕ :=
  (((sl.active :: sl.immutable).flatMap (fun m => (visibleRecords m.nodes sl.snapshotSeq).map (·.1)) ++
    sl.segments.flatMap fun seg => seg.nodes.entries.map (·.1)).insertionSort (· ≤ ·)).dedup

/-- The label with the least bound, the smaller one of two. -/
def betterDriver (best : Option (ℕ × ℕ)) (labelId : ℕ) : Option (ℕ × ℕ) :=
  match labelUpperBound labelId with
  | none => best
  | some labelCount => if best.all fun b => labelCount < b.1 || decide (labelCount = b.1) && decide (labelId < b.2)
      then some (labelCount, labelId) else best

/-- The bounds are estimates of the planner, which may know none. -/
def driverLabelId (labelIds : NodeLabelSet) : Option ℕ :=
  match labelIds.labelIds with
  | [labelId] => some labelId
  | labelIds => (labelIds.foldl (betterDriver labelUpperBound) none).map Prod.snd

def scanLabels : LabelMatchMode → NodeLabelSet → List ℕ
  | .any, labelIds => labelIds.labelIds
  | .all, labelIds => [(driverLabelId labelUpperBound labelIds).getD (labelIds.labelIds.headD 0)]

def collectNodeIdsForResolvedLabelFilter (filter : ResolvedNodeLabelFilter) : List ℕ :=
  match filter with
  | .empty _ _ => []
  | .unconstrained =>
    if pols.isSome then filterNodeIdsByResolvedLabelFilter sl pols filter (collectUnconstrainedNodeIds sl)
    else (((nodeLabelIds sl).flatMap (nodesByLabelIdRaw sl)).insertionSort (· ≤ ·)).dedup
  | .labelSet mode labelIds _ =>
    let candidates := rawNodeLabelCandidates sl (scanLabels labelUpperBound mode labelIds) none
    (candidates.zip (sl.findNodeVisibilityMeta candidates)).filterMap fun entry =>
      if (isLive entry.2).any fun info => !(pols.any fun cutoffs =>
          cutoffs.excludesFields info.labelIds info.updatedAt info.weight) && nodeLabelFilterMatches filter info.labelIds
      then some entry.1 else none

end

section
variable {sl : SourceList} {ops : List SeqOp}

theorem notYounger_labels {s : ℕ} (h : ∀ op ∈ ops, op.1 ≤ s) : NotYounger (ofOps ops).labelNodeIndex s := by
  induction ops using List.reverseRecOn with
  | nil => exact notYounger_empty s
  | append_singleton ops op ih =>
    have hlabs := ih fun op hop => h op (mem_append_left _ hop)
    have hq : op.1 ≤ s := h op (mem_append_right _ (mem_singleton_self op))
    rw [ofOps_concat]
    obtain ⟨q, op⟩ := op
    cases op with
    | upsertNode node =>
      rw [applyOp, labelNodeIndex_upsertNode]
      exact notYounger_setSlots hlabs hq
    | deleteNode id deletedAt =>
      rw [applyOp, labelNodeIndex_deleteNode]
      exact notYounger_setSlots hlabs hq
    | upsertEdge edge =>
      rw [applyOp, (Prod.mk.inj (nodeParts_upsertEdge (ofOps ops) q edge)).1]
      exact hlabs
    | deleteEdge id deletedAt =>
      rw [applyOp, (Prod.mk.inj (nodeParts_deleteEdge (ofOps ops) q id deletedAt)).1]
      exact hlabs
    | _ => exact hlabs

variable {labelId id : ℕ}

/-- The label index of a memtable shows its live nodes under their labels. -/
theorem mem_visibleKeys_labels {s : ℕ} (h : ∀ op ∈ ops, op.1 ≤ s) : (labelId, id) ∈ visibleKeys (ofOps ops).labelNodeIndex s ↔
      ∃ node, (ofOps ops).nodeOpinion id = some (some node) ∧ labelId ∈ node.labelIds.labelIds := by
  have hent : ∀ entry : Unit, ((labelId, id), entry) ∈ visibleEntries (ofOps ops).labelNodeIndex s ↔
      ∃ node, (ofOps ops).nodeOpinion id = some (some node) ∧ labelId ∈ node.labelIds.labelIds := by
    intro entry
    rw [mem_visibleEntries_of_tracks (notYounger_labels h) (BuilderAgreement.indexed_ofOps ops).labels, TrackedIndexes.entriesOf,
      currentNode_eq, bind_eq_some_iff]
    simp only [join_eq_some_iff, labelEntry, ite_none_right_eq_some, and_true]
  rw [visibleKeys, mem_map, ← hent ()]
  constructor
  · rintro ⟨⟨key, entry⟩, hmem, hkey⟩
    obtain rfl : key = (labelId, id) := hkey
    exact hmem
  · exact fun hmem => ⟨_, hmem, rfl⟩

theorem mem_underLabel {s : ℕ} (h : ∀ op ∈ ops, op.1 ≤ s) : id ∈ underLabel s (ofOps ops).labelNodeIndex labelId ↔
      ∃ node, (ofOps ops).nodeOpinion id = some (some node) ∧ labelId ∈ node.labelIds.labelIds := by
  rw [SnapshotStability.mem_underLabel, mem_visibleKeys_labels h]

variable {node : NodeRecord}

theorem segment_opinion {seg : Segment} {id : ℕ} (h : seg.nodeOpinion id = some (some node)) :
    seg.isNodeDeleted id = false ∧ seg.nodes.lookup id = some node := by
  rw [Segment.nodeOpinion] at h
  cases hdel : seg.isNodeDeleted id with
  | true => rw [hdel] at h; cases h
  | false =>
    rw [hdel, if_neg Bool.false_ne_true, Segment.getNode, hdel, if_neg Bool.false_ne_true, map_eq_some_iff] at h
    obtain ⟨found, hfnd, heq⟩ := h
    exact ⟨rfl, hfnd.trans heq⟩

/-- Where a node is visible some layer shows its record. -/
theorem exists_layer (h : sl.WellFormed) {id : ℕ} (hfind : sl.findNode id = some node) :
    (∃ m ∈ sl.active :: sl.immutable, m.nodeOpinion id = some (some node)) ∨
      ∃ seg ∈ sl.segments, seg.nodeOpinion id = some (some node) := by
  rw [h.findNode, visible, join_eq_some_iff] at hfind
  obtain ⟨lay, hlay, hop⟩ := exists_of_findSome?_eq_some hfind
  obtain hmem | hmem := mem_append.mp hlay
  · obtain ⟨m, hm, rfl⟩ := mem_map.mp hmem
    exact Or.inl ⟨m, hm, hop⟩
  · obtain ⟨seg, hseg, rfl⟩ := mem_map.mp hmem
    exact Or.inr ⟨seg, hseg, hop⟩

/-- The nodes under a label are those whose newest record has it. -/
theorem mem_nodesByLabelIdRaw (h : Stored sl) :
    id ∈ nodesByLabelIdRaw sl labelId ↔ ∃ node, sl.findNode id = some node ∧ labelId ∈ node.labelIds.labelIds := by
  rw [nodesByLabelIdRaw, filterNodeIdsByCurrentLabel]
  split
  · rename_i hsingle
    rw [Bool.and_eq_true, List.isEmpty_iff, List.isEmpty_iff] at hsingle
    obtain ⟨ops, hact, hops⟩ := h.memtables sl.active mem_cons_self
    rw [mem_sortedIds, hsingle.1, hsingle.2, flatMap_nil, append_nil, flatMap_singleton, hact, mem_underLabel hops, ← hact]
    have hfind : sl.findNode id = (sl.active.nodeOpinion id).join := by
      rw [h.wellFormed.findNode, visible, SourceList.nodeLayers, hsingle.1, hsingle.2, map_nil, append_nil, map_singleton,
        firstOpinion, List.findSome?_singleton]
    simp only [hfind, join_eq_some_iff]
  · rw [filterMap_visibilityMeta h.wellFormed fun info => info.labelIds.contains labelId, mem_filter, mem_sortedIds, mem_append]
    have hm' : ((sl.findNode id).any fun node => (visibilityMeta node).labelIds.contains labelId) = true ↔
        ∃ node, sl.findNode id = some node ∧ labelId ∈ node.labelIds.labelIds := by
      rw [Option.any_eq_true]
      simp only [visibilityMeta, NodeLabelSet.contains_iff]
    rw [hm', and_iff_right_iff_imp]
    rintro ⟨node, hfind, hlab⟩
    obtain ⟨m, hm, hop⟩ | ⟨seg, hseg, hop⟩ := exists_layer h.wellFormed hfind
    · obtain ⟨ops, rfl, hops⟩ := h.memtables m hm
      exact Or.inl (mem_flatMap.mpr ⟨_, hm, (mem_underLabel hops).mpr ⟨node, hop, hlab⟩⟩)
    · obtain ⟨hkept, hsto⟩ := segment_opinion hop
      refine Or.inr (mem_flatMap.mpr ⟨seg, hseg, ?_⟩)
      rw [segmentNodesByLabelId, mem_insertionSort, mem_map]
      refine ⟨⟨id, node⟩, mem_filter.mpr ⟨mem_lookup_iff.mp hsto, ?_⟩, rfl⟩
      rw [hkept, (NodeLabelSet.contains_iff _ _).mpr hlab]
      rfl

theorem mem_nodeLabelIds (h : Stored sl) (hfind : sl.findNode id = some node)
    (hlab : labelId ∈ node.labelIds.labelIds) : labelId ∈ nodeLabelIds sl := by
  rw [nodeLabelIds, mem_dedup, mem_append]
  obtain ⟨m, hm, hop⟩ | ⟨seg, hseg, hop⟩ := exists_layer h.wellFormed hfind
  · obtain ⟨ops, rfl, hops⟩ := h.memtables m hm
    refine Or.inl (mem_flatMap.mpr ⟨_, hm, ?_⟩)
    exact mem_map.mpr ⟨(labelId, id), (mem_visibleKeys_labels hops).mpr ⟨node, hop, hlab⟩, rfl⟩
  · obtain ⟨-, hsto⟩ := segment_opinion hop
    exact Or.inr (mem_flatMap.mpr ⟨seg, hseg, mem_flatMap.mpr ⟨⟨id, node⟩, mem_lookup_iff.mp hsto, hlab⟩⟩)

theorem mem_collectUnconstrained (h : Stored sl) {id : ℕ} (hfind : sl.findNode id = some node) : id ∈ collectUnconstrainedNodeIds sl := by
  rw [collectUnconstrainedNodeIds, mem_sortedIds, mem_append]
  obtain ⟨m, hm, hop⟩ | ⟨seg, hseg, hop⟩ := exists_layer h.wellFormed hfind
  · refine Or.inl (mem_flatMap.mpr ⟨m, hm, mem_map.mpr ⟨(id, node), ?_, rfl⟩⟩)
    have hget : m.getNodeAt id sl.snapshotSeq = some node := by
      rw [(h.wellFormed.settled m hm).getNodeAt, currentNode_eq, hop]
      rfl
    rw [MemtableState.getNodeAt, MemtableState.nodeStateAt] at hget
    cases hslot : m.nodes.lookup id with
    | none => rw [hslot] at hget; cases hget
    | some slot =>
      rw [hslot] at hget
      exact mem_filterMap.mpr ⟨⟨id, slot⟩, mem_lookup_iff.mp hslot, by
        rw [map_eq_some_iff]
        exact ⟨node, hget, rfl⟩⟩
  · obtain ⟨-, hsto⟩ := segment_opinion hop
    exact Or.inr (mem_flatMap.mpr ⟨seg, hseg, mem_map.mpr ⟨⟨id, node⟩, mem_lookup_iff.mp hsto, rfl⟩⟩)

end

section
variable {sl : SourceList} {pols : Option PrecomputedPruneCutoffs} {labelUpperBound : ℕ → Option ℕ}

theorem driverLabelId_mem {labelIds : NodeLabelSet} {labelId : ℕ} (h : driverLabelId labelUpperBound labelIds = some labelId) :
    labelId ∈ labelIds.labelIds := by
  have hfold : ∀ (rest : List ℕ) best, (∀ b, best = some b → b.2 ∈ labelIds.labelIds) → (∀ l ∈ rest, l ∈ labelIds.labelIds) →
      ∀ b, rest.foldl (betterDriver labelUpperBound) best = some b → b.2 ∈ labelIds.labelIds := by
    intro rest
    induction rest with
    | nil => exact fun best hbest _ => hbest
    | cons l rest ih =>
      intro best hbest hrest
      refine ih _ (fun b hb => ?_) fun l' hl' => hrest l' (mem_cons_of_mem _ hl')
      rw [betterDriver] at hb
      split at hb
      · exact hbest b hb
      · split at hb
        · rw [← some.inj hb]
          exact hrest l mem_cons_self
        · exact hbest b hb
  rw [driverLabelId] at h
  split at h
  · rename_i only honly
    rw [honly, some.inj h]
    exact mem_singleton_self _
  · obtain ⟨b, hb, rfl⟩ := map_eq_some_iff.mp h
    exact hfold _ none (fun b hb => nomatch hb) (fun l hl => hl) b hb

theorem exists_scanLabel {mode : LabelMatchMode} {labelIds labels : NodeLabelSet} {unknownLabelCount : ℕ}
    (h : nodeLabelFilterMatches (.labelSet mode labelIds unknownLabelCount) labels = true) :
    ∃ labelId ∈ scanLabels labelUpperBound mode labelIds, labels.contains labelId = true := by
  cases mode with
  | any => exact any_eq_true.mp h
  | all =>
    have hall := all_eq_true.mp h
    refine ⟨_, mem_singleton_self _, hall _ ?_⟩
    cases hdrv : driverLabelId labelUpperBound labelIds with
    | some labelId => exact driverLabelId_mem hdrv
    | none =>
      obtain ⟨fst, rest, hfst⟩ := exists_cons_of_ne_nil labelIds.nonempty
      rw [getD_none, hfst]
      exact mem_cons_self

/-- The nodes collected are those selected: with a record that no policy excludes and that the filter matches. -/
theorem mem_collectNodeIds (h : Stored sl) {filter : ResolvedNodeLabelFilter} {id : ℕ} :
    id ∈ collectNodeIdsForResolvedLabelFilter sl pols labelUpperBound filter ↔ selected sl pols filter id = true := by
  cases filter with
  | empty mode unknownLabelCount =>
    rw [selected]
    cases sl.findNode id <;> simp [collectNodeIdsForResolvedLabelFilter, nodeLabelFilterMatches]
  | unconstrained =>
    rw [collectNodeIdsForResolvedLabelFilter]
    cases pols with
    | some cutoffs =>
      rw [isSome_some, if_pos rfl, mem_filterNodeIds h.wellFormed]
      simp only [isNone_some, Bool.false_and, Bool.false_eq_true, false_or, and_iff_right_iff_imp]
      intro hsel
      obtain ⟨node, hfind, -⟩ := (Option.any_eq_true _ _).mp hsel
      exact mem_collectUnconstrained h hfind
    | none =>
      rw [isSome_none, if_neg Bool.false_ne_true, mem_sortedIds, mem_flatMap]
      simp only [mem_nodesByLabelIdRaw h]
      constructor
      · rintro ⟨-, -, node, hfind, -⟩
        rw [selected, hfind]
        rfl
      · intro hsel
        obtain ⟨node, hfind, -⟩ := (Option.any_eq_true _ _).mp hsel
        obtain ⟨labelId, rest, hlabs⟩ := exists_cons_of_ne_nil node.labelIds.nonempty
        have hlab : labelId ∈ node.labelIds.labelIds := by
          rw [hlabs]
          exact mem_cons_self
        exact ⟨labelId, mem_nodeLabelIds h hfind hlab, node, hfind, hlab⟩
  | labelSet mode labelIds unknownLabelCount =>
    simp only [collectNodeIdsForResolvedLabelFilter]
    rw [filterMap_visibilityMeta h.wellFormed fun info => !(pols.any fun cutoffs =>
      cutoffs.excludesFields info.labelIds info.updatedAt info.weight) &&
        nodeLabelFilterMatches (.labelSet mode labelIds unknownLabelCount) info.labelIds, mem_filter]
    constructor
    · exact And.right
    · intro hsel
      refine ⟨?_, hsel⟩
      obtain ⟨node, hfind, hmat⟩ := (Option.any_eq_true _ _).mp hsel
      rw [Bool.and_eq_true] at hmat
      obtain ⟨labelId, hscan, hlab⟩ := @exists_scanLabel labelUpperBound _ _ _ _ hmat.2
      exact mem_rawNodeLabelCandidates hfind hlab hscan

end

end OverGraph.NodeSets
