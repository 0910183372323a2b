import OverGraph.Traversals

/-!
# Neighbours in batches

The neighbours of several nodes are read at once: at each node the active memtable comes first, then the older layers, and an edge
is taken where it is first seen at the node. With policies the neighbours that a policy excludes are left out; a neighbour without
a record stays. What a batch has for a node is what a read of the node alone finds.
-/

namespace OverGraph.NeighborBatches
open Memtable MemtableState Segments Sources SnapshotReads FirstSeen AdjacencyReads DegreeWalks Expansion NeighborRecord Traversals
open List hiding merge
open PrunePolicies
open NodeFilters (ResolvedNodeLabelFilter nodeLabelFilterMatches)
open NodePatterns (ResolvedNodeLabelFilter.isEmptyConstraint)
open CascadingDeletes (isLive)
open EdgeCandidates (nodeVisible)

section
variable (sl : SourceList) (pols : Option PrecomputedPruneCutoffs) (dir : Direction) (fids : Option (List ℕ))
  (now : ℤ)

/-- In both directions the incoming postings follow the outgoing ones, and an edge stays once. -/
def segmentNeighborsBatch (seg : Segment) (nodeId : ℕ) : List NeighborRecord :=
  match dir with
  | .both => (merge NeighborRecord.edgeId (fun _ => true) ⟨[], []⟩
      [forEachAdjPosting seg nodeId .outgoing fids ++ forEachAdjPosting seg nodeId .incoming fids]).results
  | dir => forEachAdjPosting seg nodeId dir fids

def batchEntries (nodeId : ℕ) : List NeighborRecord :=
  let active := neighborsAt nodeId dir fids sl.active sl.snapshotSeq
  let older := (sl.immutable.map fun m => neighborsAt nodeId dir fids m sl.snapshotSeq) ++
    sl.segments.map fun seg => segmentNeighborsBatch dir fids seg nodeId
  (merge NeighborRecord.edgeId (fun rec => !isEdgeTombstoned sl rec.edgeId && !isNodeTombstoned sl rec.nodeId)
    ⟨active, active.map NeighborRecord.edgeId⟩ older).results.filter (validRecord now)

/-- The entries under their nodes, without the nodes that have none. -/
def retainNonempty (ress : List (ℕ × List NeighborRecord)) : List (ℕ × List NeighborRecord) := ress.filter fun entry => !entry.2.isEmpty

def neighborsBatchRaw (nodeIds : List ℕ) : List (ℕ × List NeighborRecord) :=
  retainNonempty ((nodeIds.insertionSort (· ≤ ·)).dedup.map fun nodeId => (nodeId, batchEntries sl dir fids now nodeId))

def policyExcludedNodeIds (nodeIds : List ℕ) : List ℕ :=
  match pols with
  | none => []
  | some cutoffs => (nodeIds.zip (sl.findNodeVisibilityMeta nodeIds)).filterMap fun entry =>
      if (isLive entry.2).any fun info => cutoffs.excludesFields info.labelIds info.updatedAt info.weight then some entry.1 else none

def neighborsBatchResolved (nodeIds : List ℕ) : List (ℕ × List NeighborRecord) :=
  let ress := neighborsBatchRaw sl dir fids now nodeIds
  if pols.isNone then ress
  else
    let neighborIds := (ress.flatMap fun entry => entry.2.map NeighborRecord.nodeId).insertionSort (· ≤ ·)
    let excluded := policyExcludedNodeIds sl pols neighborIds.dedup
    if excluded.isEmpty then ress
    else retainNonempty (ress.map fun entry => (entry.1, entry.2.filter fun rec => decide (rec.nodeId ∉ excluded)))

/-- What a result map has for a node. -/
def entriesOf (ress : List (ℕ × List NeighborRecord)) (nodeId : ℕ) : List NeighborRecord := (ress.lookup nodeId).getD []

/-- The label filter on nodes, for nodes that exist and that no policy excludes. -/
def filterNodeIdsByResolvedLabelFilter (filter : ResolvedNodeLabelFilter) (nodeIds : List ℕ) : List ℕ :=
  if ResolvedNodeLabelFilter.isEmptyConstraint filter then []
  else
    let sortedIds := (nodeIds.insertionSort (· ≤ ·)).dedup
    match filter, pols with
    | .unconstrained, none => sortedIds
    | _, _ => (sortedIds.zip (sl.findNodeVisibilityMeta sortedIds)).filterMap fun entry =>
        if (isLive entry.2).any fun info => !(pols.any fun cutoffs =>
            cutoffs.excludesFields info.labelIds info.updatedAt info.weight) && nodeLabelFilterMatches filter info.labelIds
        then some entry.1 else none

end

section
variable {sl : SourceList} {pols : Option PrecomputedPruneCutoffs} {dir : Direction} {fids : Option (List ℕ)}
  {now : ℤ} {nodeId : ℕ}

variable {rec : NeighborRecord}

theorem mem_segmentNeighborsBatch {seg : Segment} (hids : ∀ id edge, seg.edges.lookup id = some edge → edge.id = id)
    : rec ∈ segmentNeighborsBatch dir fids seg nodeId ↔ segmentOffer nodeId dir fids seg rec.edgeId = some rec := by
  cases dir with
  | outgoing => exact @mem_forEachAdjPosting nodeId .outgoing fids rec seg hids
  | incoming => exact @mem_forEachAdjPosting nodeId .incoming fids rec seg hids
  | both =>
    have hmem : ∀ other, other ∈ forEachAdjPosting seg nodeId .outgoing fids ++ forEachAdjPosting seg nodeId .incoming fids ↔
        segmentOffer nodeId .both fids seg other.edgeId = some other := by
      intro other
      rw [segmentOffer_both, ← mem_forEachAdjPosting hids, ← mem_forEachAdjPosting hids]
      exact mem_append
    have hsame : ∀ fst ∈ forEachAdjPosting seg nodeId .outgoing fids ++ forEachAdjPosting seg nodeId .incoming fids,
        ∀ snd ∈ forEachAdjPosting seg nodeId .outgoing fids ++ forEachAdjPosting seg nodeId .incoming fids,
        fst.edgeId = snd.edgeId → fst = snd := by
      intro fst hfst snd hsnd hid
      have hoff := (hmem fst).mp hfst
      rw [hid, (hmem snd).mp hsnd] at hoff
      exact (Option.some.inj hoff).symm
    rw [segmentNeighborsBatch, merge, foldl_cons, foldl_nil, mem_foldl hsame, hmem]
    simp

def olderBatches (sl : SourceList) (dir : Direction) (fids : Option (List ℕ)) (nodeId : ℕ) :
    List (List NeighborRecord × (ℕ → Option NeighborRecord)) :=
  (sl.immutable.map fun m => (neighborsAt nodeId dir fids m sl.snapshotSeq, memtableOffer nodeId dir fids sl.snapshotSeq m)) ++
    sl.segments.map fun seg => (segmentNeighborsBatch dir fids seg nodeId, segmentOffer nodeId dir fids seg)

theorem olderBatches_lists (h : Stored sl) : ∀ l ∈ olderBatches sl dir fids nodeId,
    (∀ rec, rec ∈ l.1 ↔ l.2 rec.edgeId = some rec) ∧ ∀ edgeId rec, l.2 edgeId = some rec → rec.edgeId = edgeId := by
  intro l hl
  obtain hl | hl := mem_append.mp hl
  · obtain ⟨m, hm, rfl⟩ := mem_map.mp hl
    obtain ⟨ops, rfl, hops⟩ := h.memtables m (mem_cons_of_mem _ hm)
    exact ⟨(lists_neighborsAt hops).mem, fun _ _ => memtableOffer_edgeId hops⟩
  · obtain ⟨seg, hseg, rfl⟩ := mem_map.mp hl
    exact ⟨fun rec => mem_segmentNeighborsBatch (h.segments seg hseg), fun _ _ => segmentOffer_edgeId (h.segments seg hseg)⟩

/-- A batch finds at a node what a read of the node alone finds. -/
theorem mem_batchEntries (h : Stored sl) : rec ∈ batchEntries sl dir fids now nodeId ↔
      neighborFound sl nodeId dir fids rec.edgeId = some rec ∧ validRecord now rec = true := by
  have hls : Lists edgeId (neighborsAt nodeId dir fids sl.active sl.snapshotSeq)
      (memtableOffer nodeId dir fids sl.snapshotSeq sl.active) := lists_active h
  have hmap : (sl.immutable.map fun m => neighborsAt nodeId dir fids m sl.snapshotSeq) ++
      sl.segments.map (fun seg => segmentNeighborsBatch dir fids seg nodeId) =
      (olderBatches sl dir fids nodeId).map (·.1) := by
    rw [olderBatches, map_append, map_map, map_map]
    rfl
  have holder : (olderBatches sl dir fids nodeId).findSome? (·.2 rec.edgeId) = olderOffer sl nodeId dir fids rec.edgeId := by
    rw [olderBatches, findSome?_append, findSome?_map, findSome?_map, olderOffer]
    rfl
  have hlist := @olderBatches_lists sl dir fids nodeId h
  rw [batchEntries, mem_filter, hmap]
  apply and_congr_left'
  rw [mem_merge (fun l hl => (hlist l hl).1) (fun l hl => (hlist l hl).2), holder, hls.mem,
    mem_ids hls.mem fun _ _ => activeOffer_edgeId h, neighborFound]
  cases hoff : memtableOffer nodeId dir fids sl.snapshotSeq sl.active rec.edgeId with
  | some found => simp
  | none =>
    rw [Option.none_or, Option.filter_eq_some_iff]
    simp

def excludedNode (sl : SourceList) (pols : Option PrecomputedPruneCutoffs) (nodeId : ℕ) : Bool :=
  (sl.findNode nodeId).any fun node => pols.any fun cutoffs => cutoffs.excludes node

/-- A test of the metadata of nodes is a test of their records. -/
theorem filterMap_visibilityMeta (h : sl.WellFormed) (test : NodeVisibilityMeta → Bool) (nodeIds : List ℕ) :
    ((nodeIds.zip (sl.findNodeVisibilityMeta nodeIds)).filterMap fun entry =>
      if (isLive entry.2).any test then some entry.1 else none) =
      nodeIds.filter fun nodeId => (sl.findNode nodeId).any fun node => test (visibilityMeta node) := by
  rw [h.findNodeVisibilityMeta, ← map_prod_left_eq_zip, filterMap_map, ← filterMap_eq_filter]
  apply filterMap_congr
  intro nodeId _
  simp only [Function.comp_apply, isLive_findNode h, Option.any_map, Option.guard]

variable {nodeIds : List ℕ}

theorem mem_policyExcludedNodeIds (h : sl.WellFormed) {id : ℕ} :
    id ∈ policyExcludedNodeIds sl pols nodeIds ↔ id ∈ nodeIds ∧ excludedNode sl pols id = true := by
  cases pols with
  | none => cases hfind : sl.findNode id <;> simp [policyExcludedNodeIds, excludedNode, hfind]
  | some cutoffs =>
    simp only [policyExcludedNodeIds]
    rw [filterMap_visibilityMeta h fun info => cutoffs.excludesFields info.labelIds info.updatedAt info.weight, mem_filter]
    rfl

/-- What a node has in a list of results without repetition, whether or not empty ones are dropped. -/
theorem entriesOf_retainNonempty {nodeIds : List ℕ} (hnd : nodeIds.Nodup) (entries : ℕ → List NeighborRecord) :
    entriesOf (retainNonempty (nodeIds.map fun id => (id, entries id))) nodeId = if nodeId ∈ nodeIds then entries nodeId else [] := by
  induction nodeIds with
  | nil => rfl
  | cons id nodeIds ih =>
    obtain ⟨hfst, hrest⟩ := nodup_cons.mp hnd
    have htail := ih hrest
    rw [entriesOf, retainNonempty] at htail ⊢
    rw [map_cons, filter_cons]
    by_cases hsame : nodeId = id
    · rw [hsame] at htail ⊢
      rw [if_neg hfst] at htail
      rw [if_pos mem_cons_self]
      cases hents : entries id with
      | nil => simpa using htail
      | cons entry rest => simp
    · have hmem : (nodeId ∈ id :: nodeIds) ↔ nodeId ∈ nodeIds := by simp [hsame]
      simp only [hmem, ← htail]
      split
      · rw [lookup_cons, beq_false_of_ne hsame]
      · rfl

/-- The results as a map over distinct nodes. -/
theorem retainNonempty_map (nodeIds : List ℕ) (entries : ℕ → List NeighborRecord) :
    retainNonempty (nodeIds.map fun id => (id, entries id)) =
      (nodeIds.filter fun id => !(entries id).isEmpty).map fun id => (id, entries id) := by
  rw [retainNonempty, filter_map]
  rfl

theorem nodup_sortedIds (nodeIds : List ℕ) : ((nodeIds.insertionSort (· ≤ ·)).dedup).Nodup := nodup_dedup _

theorem mem_sortedIds {id : ℕ} : id ∈ (nodeIds.insertionSort (· ≤ ·)).dedup ↔ id ∈ nodeIds := by
  rw [mem_dedup, (perm_insertionSort _ _).mem_iff]

/-- What a batch has for a node does not depend on the other nodes that are asked for. -/
theorem entriesOf_neighborsBatchResolved (h : sl.WellFormed) : entriesOf (neighborsBatchResolved sl pols dir fids now nodeIds) nodeId =
      if nodeId ∈ nodeIds then (batchEntries sl dir fids now nodeId).filter
        fun rec => !excludedNode sl pols rec.nodeId else [] := by
  have hraw : entriesOf (neighborsBatchRaw sl dir fids now nodeIds) nodeId =
      if nodeId ∈ nodeIds then batchEntries sl dir fids now nodeId else [] := by
    simp only [neighborsBatchRaw, entriesOf_retainNonempty (nodup_sortedIds nodeIds), mem_sortedIds]
  have hpl : (∀ other ∈ entriesOf (neighborsBatchRaw sl dir fids now nodeIds) nodeId, excludedNode sl pols other.nodeId = false) →
      entriesOf (neighborsBatchRaw sl dir fids now nodeIds) nodeId = if nodeId ∈ nodeIds then (batchEntries sl dir fids now nodeId).filter
          fun rec => !excludedNode sl pols rec.nodeId else [] := by
    intro hnone
    rw [hraw] at hnone ⊢
    split
    · rename_i hmem
      rw [if_pos hmem] at hnone
      exact (filter_eq_self.mpr fun other hoth => by rw [hnone other hoth, Bool.not_false]).symm
    · rfl
  have hnbr : ∀ other ∈ entriesOf (neighborsBatchRaw sl dir fids now nodeIds) nodeId,
      other.nodeId ∈ (((neighborsBatchRaw sl dir fids now nodeIds).flatMap fun entry =>
        entry.2.map NeighborRecord.nodeId).insertionSort (· ≤ ·)).dedup := by
    intro other hoth
    rw [mem_sortedIds, mem_flatMap]
    rw [entriesOf] at hoth
    cases hlk : (neighborsBatchRaw sl dir fids now nodeIds).lookup nodeId with
    | none => rw [hlk] at hoth; exact absurd hoth not_mem_nil
    | some entries =>
      rw [hlk] at hoth
      obtain ⟨before, after, hsp, -⟩ := lookup_eq_some_iff.mp hlk
      exact ⟨(nodeId, entries), by rw [hsp]; simp, mem_map_of_mem hoth⟩
  rw [neighborsBatchResolved]
  split
  · rename_i hnone
    apply hpl
    intro other _
    rw [excludedNode, Option.isNone_iff_eq_none.mp hnone]
    cases sl.findNode other.nodeId <;> rfl
  · dsimp only
    split
    · rename_i hemp
      apply hpl
      intro other hoth
      by_contra hexc
      have hmem := (mem_policyExcludedNodeIds h).mpr ⟨hnbr other hoth, eq_true_of_ne_false hexc⟩
      rw [isEmpty_iff.mp hemp] at hmem
      exact not_mem_nil hmem
    · generalize hids : (((neighborsBatchRaw sl dir fids now nodeIds).flatMap fun entry =>
        entry.2.map NeighborRecord.nodeId).insertionSort (· ≤ ·)).dedup = neighborIds at hnbr ⊢
      have hents : entriesOf (retainNonempty ((neighborsBatchRaw sl dir fids now nodeIds).map fun entry =>
          (entry.1, entry.2.filter fun rec => decide (rec.nodeId ∉ policyExcludedNodeIds sl pols neighborIds)))) nodeId =
          (entriesOf (neighborsBatchRaw sl dir fids now nodeIds) nodeId).filter fun rec =>
            decide (rec.nodeId ∉ policyExcludedNodeIds sl pols neighborIds) := by
        rw [neighborsBatchRaw, entriesOf_retainNonempty (nodup_sortedIds nodeIds), retainNonempty_map, map_map]
        rw [show ((fun entry : ℕ × List NeighborRecord => (entry.1, entry.2.filter fun rec =>
          decide (rec.nodeId ∉ policyExcludedNodeIds sl pols neighborIds))) ∘ fun id =>
            (id, batchEntries sl dir fids now id)) = fun id => (id,
            (batchEntries sl dir fids now id).filter fun rec => decide (rec.nodeId ∉ policyExcludedNodeIds sl pols neighborIds)) from rfl]
        rw [@entriesOf_retainNonempty nodeId _ ((nodup_sortedIds nodeIds).filter _) fun id =>
          (batchEntries sl dir fids now id).filter fun rec => decide (rec.nodeId ∉ policyExcludedNodeIds sl pols neighborIds)]
        by_cases hmem : nodeId ∈ (nodeIds.insertionSort (· ≤ ·)).dedup
        · rw [if_pos hmem]
          split
          · rfl
          · rename_i hemp
            have hnil : batchEntries sl dir fids now nodeId = [] := by
              by_contra hsome
              exact hemp (mem_filter.mpr ⟨hmem, by simpa using hsome⟩)
            rw [hnil, filter_nil]
        · rw [if_neg hmem, if_neg fun hboth => hmem (mem_filter.mp hboth).1, filter_nil]
      rw [hents]
      have hkept : ∀ rec ∈ entriesOf (neighborsBatchRaw sl dir fids now nodeIds) nodeId,
          decide (rec.nodeId ∉ policyExcludedNodeIds sl pols neighborIds) = !excludedNode sl pols rec.nodeId := by
        intro rec hrec
        cases hexc : excludedNode sl pols rec.nodeId with
        | true => simpa using (mem_policyExcludedNodeIds h).mpr ⟨hnbr rec hrec, hexc⟩
        | false =>
          rw [Bool.not_false, decide_eq_true_eq]
          intro hmem
          rw [((mem_policyExcludedNodeIds h).mp hmem).2] at hexc
          cases hexc
      rw [filter_congr hkept, hraw]
      split <;> rfl

theorem mem_entriesOf (h : Stored sl) : rec ∈ entriesOf (neighborsBatchResolved sl pols dir fids now nodeIds) nodeId ↔
      nodeId ∈ nodeIds ∧ neighborFound sl nodeId dir fids rec.edgeId = some rec ∧
        validRecord now rec = true ∧ excludedNode sl pols rec.nodeId = false := by
  rw [entriesOf_neighborsBatchResolved h.wellFormed]
  by_cases hmem : nodeId ∈ nodeIds
  · rw [if_pos hmem, mem_filter, mem_batchEntries h, Bool.not_eq_true', and_assoc, and_iff_right hmem]
  · rw [if_neg hmem]
    exact ⟨fun hnil => absurd hnil not_mem_nil, fun hboth => absurd hboth.1 hmem⟩

/-- A node with a record that no policy excludes and that the filter matches. -/
def selected (sl : SourceList) (pols : Option PrecomputedPruneCutoffs) (filter : ResolvedNodeLabelFilter) (nodeId : ℕ) : Bool :=
  (sl.findNode nodeId).any fun node => !(pols.any fun cutoffs => cutoffs.excludes node) &&
    nodeLabelFilterMatches filter node.labelIds

section
variable (h : sl.WellFormed) {filter : ResolvedNodeLabelFilter}
include h

/-- Without a filter and policies all nodes pass, also those without a record. -/
theorem mem_filterNodeIds {nodeIds : List ℕ} {id : ℕ} :
    id ∈ filterNodeIdsByResolvedLabelFilter sl pols filter nodeIds ↔ id ∈ nodeIds ∧
      ((pols.isNone && isUnconstrained filter) = true ∨ selected sl pols filter id = true) := by
  have htested : id ∈ (((nodeIds.insertionSort (· ≤ ·)).dedup).zip (sl.findNodeVisibilityMeta (nodeIds.insertionSort (· ≤ ·)).dedup)).filterMap
      (fun entry => if (isLive entry.2).any fun info => !(pols.any fun cutoffs =>
        cutoffs.excludesFields info.labelIds info.updatedAt info.weight) && nodeLabelFilterMatches filter info.labelIds
        then some entry.1 else none) ↔ id ∈ nodeIds ∧ selected sl pols filter id = true := by
    rw [filterMap_visibilityMeta h fun info => !(pols.any fun cutoffs =>
      cutoffs.excludesFields info.labelIds info.updatedAt info.weight) && nodeLabelFilterMatches filter info.labelIds,
      mem_filter, mem_sortedIds]
    rfl
  rw [filterNodeIdsByResolvedLabelFilter]
  cases filter with
  | empty mode unknownLabelCount =>
    have hnone : selected sl pols (.empty mode unknownLabelCount) id = false := by
      rw [selected]
      cases sl.findNode id <;> simp [nodeLabelFilterMatches]
    simp [ResolvedNodeLabelFilter.isEmptyConstraint, hnone, isUnconstrained]
  | unconstrained =>
    cases pols with
    | none => simp [ResolvedNodeLabelFilter.isEmptyConstraint, isUnconstrained]
    | some cutoffs => simpa [ResolvedNodeLabelFilter.isEmptyConstraint] using htested
  | labelSet mode labelIds unknownLabelCount => simpa [ResolvedNodeLabelFilter.isEmptyConstraint, isUnconstrained] using htested

theorem nodup_filterNodeIds :
    (filterNodeIdsByResolvedLabelFilter sl pols filter nodeIds).Nodup := by
  rw [filterNodeIdsByResolvedLabelFilter]
  split
  · exact nodup_nil
  · dsimp only
    split
    · exact nodup_sortedIds nodeIds
    · rw [filterMap_visibilityMeta h fun info => !(pols.any fun cutoffs =>
        cutoffs.excludesFields info.labelIds info.updatedAt info.weight) && nodeLabelFilterMatches filter info.labelIds]
      exact (nodup_sortedIds nodeIds).filter _

end

end

end OverGraph.NeighborBatches
