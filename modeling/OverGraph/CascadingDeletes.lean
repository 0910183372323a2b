import OverGraph.AdjacencyReads
import OverGraph.PrunePolicies
import OverGraph.WritePlans

/-!
# Deleting nodes with their edges

A plan that deletes a node deletes the edges at it first. The edges are gathered through a read of the
neighbours at the present time, and a patch adds those that it has staged itself.
-/

namespace OverGraph.CascadingDeletes
open AssocMaps Records LayeredWrites GraphView Memtable MemtableState Segments Sources SnapshotReads WritePlans List SourceList NeighborRecord WalOp
open AdjacencyReads FirstSeen Fallible LayeredStore PrunePolicies Runs
open Degrees (isEdgeValidAt)

/-- Successive readings of the clock. -/
abbrev Clock := ℕ → ℤ

def planDeleteNode (sl : SourceList) (clock : Clock) (id : ℕ) : List WalOp :=
  let now := clock 0
  let incident := neighborsRaw sl id .both none (clock 1)
  incident.map (fun entry => WalOp.deleteEdge entry.edgeId now) ++ [.deleteNode id now]

/-- The operations planned and the edges deleted by them. -/
structure Deletes where
  deletedEdgeIds : List ℕ
  ops : List WalOp

def deleteEdgeOnce (now : ℤ) (st : Deletes) (id : ℕ) : Deletes :=
  if id ∈ st.deletedEdgeIds then st else ⟨id :: st.deletedEdgeIds, st.ops ++ [.deleteEdge id now]⟩

def deleteNodeWithEdges (sl : SourceList) (clock : Clock) (stagedIncidentEdges : ℕ → List ℕ) (st : Deletes) (target : ℕ × ℕ) : Deletes :=
  let now := clock 0
  let incident := neighborsRaw sl target.1 .both none (clock (target.2 + 1))
  let st := (incident.map NeighborRecord.edgeId ++ stagedIncidentEdges target.1).foldl (deleteEdgeOnce now) st
  { st with ops := st.ops ++ [.deleteNode target.1 now] }

/-- The labels that the resolution of a request creates. -/
structure NewLabels where
  nodeLabels : List (String × ℕ)
  edgeLabels : List (String × ℕ)

def pushTokenOps (labels : NewLabels) : List WalOp :=
  labels.nodeLabels.map (fun token => WalOp.ensureNodeLabel token.1 token.2) ++
    labels.edgeLabels.map fun token => WalOp.ensureEdgeLabel token.1 token.2

/-- A patch with its labels resolved and its node records planned. -/
structure GraphPatch where
  newLabels : NewLabels
  nodeRecords : List NodeRecord
  upsertEdges : List EdgeInput
  invalidateEdges : List (ℕ × ℤ)
  deleteNodeIds : List ℕ
  deleteEdgeIds : List ℕ

structure Staging where
  ops : List WalOp
  nextEdgeId : ℕ
  batchTriples : Map (ℕ × ℕ × ℕ) (ℕ × ℤ)
  stagedEdgeOpIdx : Map ℕ ℕ
  stagedIncidentEdges : Map ℕ (List ℕ)

namespace Staging

def incidentEdges (st : Staging) (nodeId : ℕ) : List ℕ := (st.stagedIncidentEdges.lookup nodeId).getD []

def pushIncident (st : Staging) (nodeId edgeId : ℕ) : Staging :=
  { st with stagedIncidentEdges := st.stagedIncidentEdges.insert nodeId (st.incidentEdges nodeId ++ [edgeId]) }

def pushEdge (st : Staging) (edge : EdgeRecord) : Staging :=
  { st with
    ops := st.ops ++ [.upsertEdge edge]
    stagedEdgeOpIdx := st.stagedEdgeOpIdx.insert edge.id st.ops.length }

def pushEdgeAndIncident (st : Staging) (edge : EdgeRecord) : Staging :=
  let st := st.pushIncident edge.source edge.id
  let st := if edge.target ≠ edge.source then st.pushIncident edge.target edge.id else st
  st.pushEdge edge

end Staging

def inputTriple (input : EdgeInput) : ℕ × ℕ × ℕ := (input.source, input.target, input.labelId)

/-- The edges that have the triples of the patch already. -/
def committedTriples (core : WriteCore) (inputs : List EdgeInput) : Map (ℕ × ℕ × ℕ) (ℕ × ℤ) :=
  if core.edgeUniqueness then
    let distinct := inputs.foldl (fun triples input => if inputTriple input ∈ triples then triples else triples ++ [inputTriple input]) []
    (distinct.zip (core.sources.findEdgesByTriples distinct)).foldl (fun found entry =>
      match entry.2 with
      | some edge => found.insert entry.1 (edge.id, edge.createdAt)
      | none => found) ∅
  else ∅

def stageUpsert (edgeUniqueness : Bool) (committed : Map (ℕ × ℕ × ℕ) (ℕ × ℤ)) (now : ℤ) (st : Staging) (input : EdgeInput) : Staging :=
  let triple := inputTriple input
  let known := if edgeUniqueness then (st.batchTriples.lookup triple).or (committed.lookup triple) else none
  let (id, createdAt, nextEdgeId) := match known with
    | some (id, createdAt) => (id, createdAt, st.nextEdgeId)
    | none => (st.nextEdgeId, now, st.nextEdgeId + 1)
  let edge : EdgeRecord := ⟨id, input.source, input.target, input.labelId, input.props, createdAt, now, input.weight,
    input.validFrom.getD createdAt, input.validTo.getD i64Max, 0⟩
  { st with
    nextEdgeId := nextEdgeId
    batchTriples := if edgeUniqueness then st.batchTriples.insert triple (id, createdAt) else st.batchTriples }.pushEdgeAndIncident edge

/-- The edges to be invalidated that the patch has not staged itself. -/
def committedInvalidations (sl : SourceList) (st : Staging) (invalidateEdges : List (ℕ × ℤ)) : Map ℕ (Option EdgeRecord) :=
  let ids := invalidateEdges.foldl (fun ids entry =>
    if (st.stagedEdgeOpIdx.lookup entry.1).isNone ∧ entry.1 ∉ ids then ids ++ [entry.1] else ids) []
  (ids.zip (sl.findEdges ids)).foldl (fun found entry => found.insert entry.1 entry.2) ∅

def stageInvalidation (committed : Map ℕ (Option EdgeRecord)) (now : ℤ) (st : Staging) (entry : ℕ × ℤ) : Except String Staging :=
  match st.stagedEdgeOpIdx.lookup entry.1 with
  | some opIdx =>
    match st.ops[opIdx]? with
    | some (.upsertEdge edge) => .ok (st.pushEdge { edge with updatedAt := now, validTo := entry.2 })
    | _ => .error "staged edge overlay pointed at a non-edge WAL op"
  | none =>
    match (committed.lookup entry.1).join with
    | some edge => .ok (st.pushEdgeAndIncident { edge with updatedAt := now, validTo := entry.2 })
    | none => .ok st

def stagePatch (core : WriteCore) (patch : GraphPatch) (now : ℤ) : Except String Staging :=
  let start : Staging := ⟨pushTokenOps patch.newLabels ++ patch.nodeRecords.map WalOp.upsertNode, core.nextEdgeId, ∅, ∅, ∅⟩
  let st := patch.upsertEdges.foldl (stageUpsert core.edgeUniqueness (committedTriples core patch.upsertEdges) now) start
  patch.invalidateEdges.foldlM (stageInvalidation (committedInvalidations core.sources st patch.invalidateEdges) now) st

def planGraphPatch (core : WriteCore) (clock : Clock) (patch : GraphPatch) : Except String (List WalOp) :=
  (stagePatch core patch (clock 0)).map fun st =>
    let deletes := patch.deleteEdgeIds.foldl (deleteEdgeOnce (clock 0)) ⟨[], st.ops⟩
    (patch.deleteNodeIds.zipIdx.foldl (deleteNodeWithEdges core.sources clock st.incidentEdges) deletes).ops

section
variable (sl : SourceList)

def isLive : NodeVisibilityState → Option NodeVisibilityMeta
  | .live info => some info
  | _ => none

/-- The candidates under a label are checked only if there is more than the active memtable. -/
def filterNodeIdsByCurrentLabel (ids : List ℕ) (labelId : ℕ) : List ℕ :=
  let ids := (ids.insertionSort (· ≤ ·)).dedup
  if sl.immutable.isEmpty && sl.segments.isEmpty then ids
  else (ids.zip (sl.findNodeVisibilityMeta ids)).filterMap fun entry =>
    if (isLive entry.2).any (·.labelIds.contains labelId) then some entry.1 else none

def segmentNodesByLabelId (seg : Segment) (labelId : ℕ) : List ℕ :=
  ((seg.nodes.entries.filter fun entry => entry.2.labelIds.contains labelId && !seg.isNodeDeleted entry.1).map (·.1)).insertionSort
    (· ≤ ·)

def nodesByLabelIdRaw (labelId : ℕ) : List ℕ :=
  filterNodeIdsByCurrentLabel sl (((sl.active :: sl.immutable).flatMap fun m => underLabel sl.snapshotSeq m.labelNodeIndex labelId) ++
    sl.segments.flatMap fun seg => segmentNodesByLabelId seg labelId) labelId

/-- The nodes of all layers, each where it is first seen. -/
def candidateNodeIds : List ℕ :=
  (merge id (fun _ => true) ⟨[], []⟩
    (((sl.active :: sl.immutable).map fun m => ((visibleRecords m.nodes sl.snapshotSeq).map (·.1)).insertionSort (· ≤ ·)) ++
      sl.segments.map fun seg => (seg.nodes.entries.map (·.1)).insertionSort (· ≤ ·))).results

def collectPruneTargetsFromCandidates (candidates : List ℕ) (policy : ResolvedPrunePolicy) (ageCutoff : Option ℤ) : List ℕ :=
  (candidates.zip (sl.findNodeVisibilityMeta candidates)).filterMap fun entry =>
    if (isLive entry.2).any fun info =>
      matchesPruneCutoff info.labelIds info.updatedAt info.weight ageCutoff policy.maxWeight policy.labelId
    then some entry.1 else none

def collectPruneTargets (policy : ResolvedPrunePolicy) (now : ℤ) : List ℕ :=
  collectPruneTargetsFromCandidates sl (match policy.labelId with
    | some labelId => nodesByLabelIdRaw sl labelId
    | none => candidateNodeIds sl) policy (policy.maxAgeMs.map (now - ·))

def planPrune (clock : Clock) (newLabels : NewLabels) (policy : ResolvedPrunePolicy) : List WalOp :=
  let targets := collectPruneTargets sl policy (clock 0)
  (targets.zipIdx.foldl (deleteNodeWithEdges sl clock fun _ => []) ⟨[], pushTokenOps newLabels⟩).ops

end

/-- A batch goes to the active memtable, one sequence number after another. -/
def applyBatch (sl : SourceList) (ops : List WalOp) : SourceList :=
  { sl with
    active := (sequenced sl.snapshotSeq ops).foldl applyOp sl.active
    snapshotSeq := sl.snapshotSeq + ops.length }

def NodeDeleted (sl : SourceList) (nodeId : ℕ) : Prop := firstOpinion sl.nodeLayers nodeId = some none

/-- No live edge has a deleted endpoint. -/
def NoDangling (sl : SourceList) : Prop := ∀ id edge, sl.findEdge id = some edge → ∀ nodeId ∈ endpoints edge, ¬NodeDeleted sl nodeId

def deletedEdge? : WalOp → Option ℕ
  | .deleteEdge id _ => some id
  | _ => none

def deletedNode? : WalOp → Option ℕ
  | .deleteNode id _ => some id
  | _ => none

def upsertedNode? : WalOp → Option ℕ
  | .upsertNode node => some node.id
  | _ => none

def deletedEdges (ops : List WalOp) : List ℕ := ops.filterMap deletedEdge?

def deletedNodes (ops : List WalOp) : List ℕ := ops.filterMap deletedNode?

def upsertedNodes (ops : List WalOp) : List ℕ := ops.filterMap upsertedNode?

/-- The edges once the upserts of a plan are in place. -/
def edgesUpserted (sl : SourceList) (ops : List WalOp) : ℕ → Option EdgeRecord := edgesOver sl.findEdge (sequenced sl.snapshotSeq ops)

theorem sequenced_append (baseSeq : ℕ) (fst snd : List WalOp) :
    sequenced baseSeq (fst ++ snd) = sequenced baseSeq fst ++ sequenced (baseSeq + fst.length) snd := by
  rw [sequenced, sequenced, sequenced, zipIdx_append, map_append, Nat.zero_add]
  congr 1
  rw [zipIdx_eq_map_add, map_map]
  apply map_congr_left
  intro entry _
  simp only [Function.comp_apply, Prod.mk.injEq, and_true]
  omega

theorem map_sequenced (baseSeq : ℕ) (ops : List WalOp) : (sequenced baseSeq ops).map (·.2) = ops := by
  rw [sequenced, map_map]
  exact zipIdx_map_fst 0 ops

theorem lastWrite_deletes {ν : Type} {log : List (ℕ × Option ν)} (h : ∀ w ∈ log, w.2 = none) (id : ℕ) :
    lastWrite log id = if id ∈ log.map (·.1) then some none else none := by
  cases hlast : lastWrite log id with
  | none =>
    have hnone := lastWrite_eq_none_iff.mp hlast
    rw [if_neg]
    intro hmem
    obtain ⟨w, hw, rfl⟩ := mem_map.mp hmem
    exact hnone w hw rfl
  | some value =>
    have hmem := mem_of_lastWrite_eq_some hlast
    have hnone : value = none := h (id, value) hmem
    rw [if_pos (mem_map.mpr ⟨_, hmem, rfl⟩), hnone]

def IsDelete (op : WalOp) : Prop := (deletedEdge? op).isSome ∨ (deletedNode? op).isSome

theorem lastWrite_of_deleted {ν : Type} {writes : SeqOp → List (ℕ × Option ν)} {deleted : WalOp → Option ℕ} {ops : List SeqOp}
    (h : ∀ op ∈ ops, writes op = (deleted op.2).toList.map fun id => (id, none)) (id : ℕ) :
    lastWrite (ops.flatMap writes) id = if id ∈ (ops.map (·.2)).filterMap deleted then some none else none := by
  have hws : ops.flatMap writes = ((ops.map (·.2)).filterMap deleted).map fun id => (id, none) := by
    induction ops with
    | nil => rfl
    | cons op ops ih =>
      rw [flatMap_cons, ih fun op hop => h op (mem_cons_of_mem _ hop), h op mem_cons_self, map_cons, filterMap_cons]
      cases deleted op.2 <;> rfl
  rw [hws, lastWrite_deletes, map_map]
  · exact congrArg (fun ids => if id ∈ ids then some none else none) (map_id _)
  · intro write hw'
    obtain ⟨_, -, rfl⟩ := mem_map.mp hw'
    rfl

section
variable {ops : List SeqOp} (h : ∀ op ∈ ops, IsDelete op.2) (id : ℕ)
include h

theorem edgeLog_deletes :
    edgeLog ops id = if id ∈ deletedEdges (ops.map (·.2)) then some none else none := by
  apply lastWrite_of_deleted
  rintro ⟨q, op⟩ hop
  cases op <;> first | rfl | exact absurd (h _ hop) (by simp [IsDelete, deletedEdge?, deletedNode?])

theorem nodeLog_deletes :
    nodeLog ops id = if id ∈ deletedNodes (ops.map (·.2)) then some none else none := by
  apply lastWrite_of_deleted
  rintro ⟨q, op⟩ hop
  cases op <;> first | rfl | exact absurd (h _ hop) (by simp [IsDelete, deletedEdge?, deletedNode?])

end

section
variable {baseSeq : ℕ} (fst : List WalOp) {deletes : List WalOp} (h : ∀ op ∈ deletes, IsDelete op) (id : ℕ)
include h

theorem edgeLog_append_deletes : edgeLog (sequenced baseSeq (fst ++ deletes)) id =
      if id ∈ deletedEdges deletes then some none else edgeLog (sequenced baseSeq fst) id := by
  rw [sequenced_append, edgeLog_append, edgeLog_deletes fun op hop => h _ (Store.mem_sequenced hop).1, map_sequenced]
  split <;> rfl

theorem nodeLog_append_deletes : nodeLog (sequenced baseSeq (fst ++ deletes)) id =
      if id ∈ deletedNodes deletes then some none else nodeLog (sequenced baseSeq fst) id := by
  rw [sequenced_append, nodeLog_append, nodeLog_deletes fun op hop => h _ (Store.mem_sequenced hop).1, map_sequenced]
  split <;> rfl

end

/-- Operations that delete no node have a word on the nodes they upsert only, and they keep these alive. -/
theorem nodeLog_upserts (baseSeq : ℕ) {ops : List WalOp} (h : ∀ op ∈ ops, deletedNode? op = none) (id : ℕ) :
    if id ∈ upsertedNodes ops then ∃ node, nodeLog (sequenced baseSeq ops) id = some (some node)
    else nodeLog (sequenced baseSeq ops) id = none := by
  have hw' : ∀ w ∈ (sequenced baseSeq ops).flatMap nodeWrites, w.1 ∈ upsertedNodes ops ∧ w.2.isSome := by
    intro w hw
    obtain ⟨⟨q, op⟩, hop, hwop⟩ := mem_flatMap.mp hw
    have hmem := (Store.mem_sequenced hop).1
    cases op <;> simp [nodeWrites] at hwop
    · subst hwop
      exact ⟨mem_filterMap.mpr ⟨_, hmem, rfl⟩, rfl⟩
    · exact absurd (h _ hmem) (by simp [deletedNode?])
  split
  · rename_i hid
    obtain ⟨op, hop, hup⟩ := mem_filterMap.mp hid
    cases hlog : nodeLog (sequenced baseSeq ops) id with
    | none =>
      have hnone := lastWrite_eq_none_iff.mp hlog
      have hin : op ∈ (sequenced baseSeq ops).map (·.2) := by rwa [map_sequenced]
      obtain ⟨⟨q, op'⟩, hseq, rfl⟩ := mem_map.mp hin
      cases op' <;> simp [upsertedNode?] at hup
      subst hup
      exact absurd rfl (hnone _ (mem_flatMap.mpr ⟨_, hseq, by simp [nodeWrites]; rfl⟩))
    | some value =>
      obtain ⟨node, hnode⟩ := Option.isSome_iff_exists.mp (hw' _ (mem_of_lastWrite_eq_some hlog)).2
      exact ⟨node, congrArg some hnode⟩
  · rename_i hid
    apply lastWrite_eq_none_iff.mpr
    rintro w hw rfl
    exact hid (hw' w hw).1

section
variable {sl : SourceList} (h : Stored sl)
include h

theorem stored_applyBatch (ops : List WalOp) : Stored (applyBatch sl ops) where
  memtables m hm := by
    obtain rfl | hm := mem_cons.mp hm
    · obtain ⟨old, hold, hseq⟩ := h.memtables sl.active mem_cons_self
      refine ⟨old ++ sequenced sl.snapshotSeq ops, ?_, fun op hop => ?_⟩
      · simp only [applyBatch, hold, ofOps, foldl_append]
      · obtain hop | hop := mem_append.mp hop
        · exact (hseq op hop).trans (Nat.le_add_right _ _)
        · exact (Store.mem_sequenced hop).2
    · obtain ⟨old, hold, hseq⟩ := h.memtables m (mem_cons_of_mem _ hm)
      exact ⟨old, hold, fun op hop => (hseq op hop).trans (Nat.le_add_right _ _)⟩
  segments := h.segments

theorem nodeOpinion_applyBatch (ops : List WalOp) (id : ℕ) : firstOpinion (applyBatch sl ops).nodeLayers id =
    (nodeLog (sequenced sl.snapshotSeq ops) id).or (firstOpinion sl.nodeLayers id) := by
  obtain ⟨old, hold, -⟩ := h.memtables sl.active mem_cons_self
  have hact : (applyBatch sl ops).active = ofOps (old ++ sequenced sl.snapshotSeq ops) := by
    simp only [applyBatch, hold, ofOps, foldl_append]
  simp only [nodeLayers, map_cons, cons_append, firstOpinion_cons, hact, hold, nodeOpinion_ofOps,
    nodeLog_append, Option.or_assoc]
  rfl

theorem findEdge_applyBatch (ops : List WalOp) (id : ℕ) : (applyBatch sl ops).findEdge id = edgesUpserted sl ops id := by
  obtain ⟨old, hold, -⟩ := h.memtables sl.active mem_cons_self
  have hact : (applyBatch sl ops).active = ofOps (old ++ sequenced sl.snapshotSeq ops) := by
    simp only [applyBatch, hold, ofOps, foldl_append]
  rw [(stored_applyBatch h ops).wellFormed.findEdge, edgesUpserted, edgesOver, h.wellFormed.findEdge]
  simp only [visible, edgeLayers, map_cons, cons_append, firstOpinion_cons, hact, hold, edgeOpinion_ofOps, edgeLog_append]
  cases edgeLog (sequenced sl.snapshotSeq ops) id with
  | none => simp [applyBatch]
  | some value => simp

/-- What a plan that deletes last leaves dangling. -/
theorem noDangling_applyBatch_iff {upserts deletes : List WalOp} (hups : ∀ op ∈ upserts, deletedNode? op = none)
    (hdele : ∀ op ∈ deletes, IsDelete op) : NoDangling (applyBatch sl (upserts ++ deletes)) ↔
      ∀ id edge, edgesUpserted sl upserts id = some edge → id ∉ deletedEdges deletes →
        ∀ nodeId ∈ endpoints edge, nodeId ∉ deletedNodes deletes ∧ ¬(NodeDeleted sl nodeId ∧ nodeId ∉ upsertedNodes upserts) := by
  have hedge : ∀ id edge, (applyBatch sl (upserts ++ deletes)).findEdge id = some edge ↔
      edgesUpserted sl upserts id = some edge ∧ id ∉ deletedEdges deletes := by
    intro id edge
    rw [findEdge_applyBatch h, edgesUpserted, edgesUpserted, edgesOver, edgesOver, edgeLog_append_deletes upserts hdele]
    by_cases hid : id ∈ deletedEdges deletes <;> simp [hid]
  have hnode : ∀ id, NodeDeleted (applyBatch sl (upserts ++ deletes)) id ↔
      id ∈ deletedNodes deletes ∨ (NodeDeleted sl id ∧ id ∉ upsertedNodes upserts) := by
    intro id
    rw [NodeDeleted, nodeOpinion_applyBatch h, nodeLog_append_deletes upserts hdele]
    have hlog := nodeLog_upserts sl.snapshotSeq hups id
    by_cases hid : id ∈ deletedNodes deletes
    · simp [hid]
    · rw [if_neg hid]
      split at hlog
      · rename_i hup
        obtain ⟨node, hnode⟩ := hlog
        simp [hnode, hid, hup]
      · rename_i hup
        simp [hlog, hid, hup, NodeDeleted]
  constructor
  · intro hno id edge hlive hkept nodeId hend
    have hnot := hno id edge ((hedge id edge).mpr ⟨hlive, hkept⟩) nodeId hend
    rw [hnode, not_or] at hnot
    exact hnot
  · intro hno id edge hlive nodeId hend
    obtain ⟨hlive, hkept⟩ := (hedge id edge).mp hlive
    rw [hnode, not_or]
    exact hno id edge hlive hkept nodeId hend

end

/-- The deletions planned so far: each edge once, and these nodes. -/
structure Deleting (upserts : List WalOp) (nodes : List ℕ) (st : Deletes) : Prop where
  ops : ∃ deletes, st.ops = upserts ++ deletes ∧ (∀ op ∈ deletes, IsDelete op) ∧
    deletedEdges deletes = st.deletedEdgeIds.reverse ∧ deletedNodes deletes = nodes
  nodup : st.deletedEdgeIds.Nodup

variable {id : ℕ}

section
variable {upserts : List WalOp} {nodes : List ℕ} {st : Deletes} {now : ℤ}

theorem deleting_start (upserts : List WalOp) : Deleting upserts [] ⟨[], upserts⟩ := ⟨⟨[], by simp, by simp, rfl, rfl⟩, nodup_nil⟩

theorem Deleting.edge (h : Deleting upserts nodes st) (id : ℕ) : Deleting upserts nodes (deleteEdgeOnce now st id) := by
  obtain ⟨⟨deletes, hops, hdel, heds, hnos⟩, hnd⟩ := h
  rw [deleteEdgeOnce]
  split
  · exact ⟨⟨deletes, hops, hdel, heds, hnos⟩, hnd⟩
  · rename_i hnew
    refine ⟨⟨deletes ++ [.deleteEdge id now], ?_, ?_, ?_, ?_⟩, nodup_cons.mpr ⟨hnew, hnd⟩⟩
    · rw [hops, append_assoc]
    · intro op hop
      obtain hop | hop := mem_append.mp hop
      · exact hdel op hop
      · rw [mem_singleton.mp hop]
        exact Or.inl rfl
    · rw [deletedEdges, filterMap_append, ← deletedEdges, heds, reverse_cons]
      rfl
    · rw [deletedNodes, filterMap_append, ← deletedNodes, hnos]
      exact append_nil nodes

theorem Deleting.edges (h : Deleting upserts nodes st) (now : ℤ) (ids : List ℕ) :
    Deleting upserts nodes (ids.foldl (deleteEdgeOnce now) st) := by
  induction ids generalizing st with
  | nil => exact h
  | cons id ids ih => exact ih (h.edge id)

theorem mem_deleteEdges {ids : List ℕ} :
    id ∈ (ids.foldl (deleteEdgeOnce now) st).deletedEdgeIds ↔ id ∈ st.deletedEdgeIds ∨ id ∈ ids := by
  induction ids generalizing st with
  | nil => simp
  | cons fst ids ih =>
    rw [foldl_cons, ih, deleteEdgeOnce, mem_cons]
    split
    · rename_i hmem
      exact ⟨fun h => h.elim Or.inl fun h => Or.inr (Or.inr h),
        fun h => h.elim Or.inl fun h => h.elim (fun heq => Or.inl (heq ▸ hmem)) Or.inr⟩
    · rw [mem_cons, or_assoc, or_left_comm]

theorem Deleting.node (h : Deleting upserts nodes st) (id : ℕ) :
    Deleting upserts (nodes ++ [id]) { st with ops := st.ops ++ [.deleteNode id now] } := by
  obtain ⟨⟨deletes, hops, hdel, heds, hnos⟩, hnd⟩ := h
  refine ⟨⟨deletes ++ [.deleteNode id now], ?_, ?_, ?_, ?_⟩, hnd⟩
  · rw [hops, append_assoc]
  · intro op hop
    obtain hop | hop := mem_append.mp hop
    · exact hdel op hop
    · rw [mem_singleton.mp hop]
      exact Or.inr rfl
  · rw [deletedEdges, filterMap_append, ← deletedEdges, heds]
    exact append_nil _
  · rw [deletedNodes, filterMap_append, ← deletedNodes, hnos]
    rfl

/-- The edges gathered for a node that is deleted as one of several. -/
def gathered (sl : SourceList) (clock : Clock) (staged : ℕ → List ℕ) (target : ℕ × ℕ) : List ℕ :=
  (neighborsRaw sl target.1 .both none (clock (target.2 + 1))).map NeighborRecord.edgeId ++ staged target.1

theorem Deleting.targets (h : Deleting upserts nodes st) (sl : SourceList) (clock : Clock) (staged : ℕ → List ℕ) (targets : List (ℕ × ℕ)) :
    Deleting upserts (nodes ++ targets.map (·.1)) (targets.foldl (deleteNodeWithEdges sl clock staged) st) ∧
      ∀ id, id ∈ (targets.foldl (deleteNodeWithEdges sl clock staged) st).deletedEdgeIds ↔
        id ∈ st.deletedEdgeIds ∨ ∃ tgt ∈ targets, id ∈ gathered sl clock staged tgt := by
  induction targets generalizing nodes st with
  | nil => simpa using h
  | cons tgt targets ih =>
    have hstep : Deleting upserts (nodes ++ [tgt.1]) (deleteNodeWithEdges sl clock staged st tgt) :=
      (h.edges (clock 0) (gathered sl clock staged tgt)).node tgt.1
    obtain ⟨hrest, hmem⟩ := ih hstep
    refine ⟨by simpa using hrest, fun id => ?_⟩
    rw [foldl_cons, hmem]
    have hfst : id ∈ (deleteNodeWithEdges sl clock staged st tgt).deletedEdgeIds ↔
        id ∈ st.deletedEdgeIds ∨ id ∈ gathered sl clock staged tgt := mem_deleteEdges
    rw [hfst, or_assoc]
    simp

end

/-- The cascade at a node sees an edge if the layer where the node shows it first is the active memtable, or no layer
has a tombstone for the edge or its other end, and if it is valid at the time of the read. -/
def CascadeSees (sl : SourceList) (nodeId : ℕ) (readTime : ℤ) (edgeId : ℕ) : Prop :=
  ∃ r, neighborFound sl nodeId .both none edgeId = some r ∧ r.validFrom ≤ readTime ∧ readTime < r.validTo

section
variable {sl : SourceList} (h : Stored sl)
include h

theorem mem_incident_iff {nodeId : ℕ} {readTime : ℤ} {edgeId : ℕ} :
    edgeId ∈ (neighborsRaw sl nodeId .both none readTime).map NeighborRecord.edgeId ↔ CascadeSees sl nodeId readTime edgeId := by
  rw [mem_map, CascadeSees]
  constructor
  · rintro ⟨r, hrec, rfl⟩
    obtain ⟨hfnd, hvd⟩ := (mem_neighborsRaw h).mp hrec
    rw [isEdgeValidAt, Bool.and_eq_true, decide_eq_true_eq, decide_eq_true_eq] at hvd
    exact ⟨r, hfnd, hvd⟩
  · rintro ⟨r, hfnd, hvd⟩
    have hid := neighborFound_edgeId h hfnd
    refine ⟨r, (mem_neighborsRaw h).mpr ⟨by rw [hid, hfnd], ?_⟩, hid⟩
    rw [isEdgeValidAt, Bool.and_eq_true, decide_eq_true_eq, decide_eq_true_eq]
    exact hvd

end

/-- The patch has deleted nothing yet and knows the edges it has staged at each node. -/
structure Staging.Tracked (st : Staging) : Prop where
  upserts : ∀ op ∈ st.ops, ¬IsDelete op
  incident : ∀ nodeId id, id ∈ st.incidentEdges nodeId ↔ ∃ edge, WalOp.upsertEdge edge ∈ st.ops ∧ edge.id = id ∧ nodeId ∈ endpoints edge

variable {edge : EdgeRecord}

namespace Staging
variable {st st' : Staging}

theorem mem_pushIncident {nodeId edgeId other : ℕ} : id ∈ (st.pushIncident nodeId edgeId).incidentEdges other ↔
    id ∈ st.incidentEdges other ∨ (other = nodeId ∧ id = edgeId) := by
  rw [incidentEdges, pushIncident]
  by_cases hnode : other = nodeId
  · subst hnode
    simp [AList.lookup_insert]
  · simp [AList.lookup_insert_ne hnode, hnode, incidentEdges]

theorem mem_pushEdgeAndIncident {nodeId : ℕ} : id ∈ (st.pushEdgeAndIncident edge).incidentEdges nodeId ↔
    id ∈ st.incidentEdges nodeId ∨ (nodeId ∈ endpoints edge ∧ id = edge.id) := by
  have hsrc : id ∈ (st.pushIncident edge.source edge.id).incidentEdges nodeId ↔ _ := mem_pushIncident
  rw [endpoints, mem_cons, mem_singleton]
  by_cases hloop : edge.target = edge.source
  · have hpush : (st.pushEdgeAndIncident edge).incidentEdges nodeId = (st.pushIncident edge.source edge.id).incidentEdges nodeId := by
      simp only [pushEdgeAndIncident, hloop, ne_eq, not_true_eq_false, if_false]
      rfl
    rw [hpush, hsrc, hloop, or_self]
  · have hpush : (st.pushEdgeAndIncident edge).incidentEdges nodeId =
        ((st.pushIncident edge.source edge.id).pushIncident edge.target edge.id).incidentEdges nodeId := by
      simp only [pushEdgeAndIncident, ne_eq, hloop, not_false_eq_true, if_true]
      rfl
    rw [hpush, mem_pushIncident, hsrc]
    simp only [or_assoc, or_and_right]

section
variable (h : st.Tracked)
include h

theorem Tracked.pushEdgeAndIncident (edge : EdgeRecord) : (st.pushEdgeAndIncident edge).Tracked := by
  have hops : (st.pushEdgeAndIncident edge).ops = st.ops ++ [.upsertEdge edge] := by
    simp only [Staging.pushEdgeAndIncident]
    split <;> rfl
  refine ⟨fun op hop => ?_, fun nodeId id => ?_⟩
  · rw [hops] at hop
    obtain hop | hop := mem_append.mp hop
    · exact h.upserts op hop
    · rw [mem_singleton.mp hop]
      exact fun hdel => hdel.elim (fun h => nomatch h) fun h => nomatch h
  · rw [mem_pushEdgeAndIncident, h.incident, hops]
    constructor
    · rintro (⟨old, hold, hid, hend⟩ | ⟨hend, rfl⟩)
      · exact ⟨old, mem_append_left _ hold, hid, hend⟩
      · exact ⟨edge, mem_append_right _ (mem_singleton_self _), rfl, hend⟩
    · rintro ⟨other, hoth, rfl, hend⟩
      obtain hoth | hoth := mem_append.mp hoth
      · exact Or.inl ⟨other, hoth, rfl, hend⟩
      · cases mem_singleton.mp hoth
        exact Or.inr ⟨hend, rfl⟩

/-- Writing an edge of the patch again, at the same nodes. -/
theorem Tracked.pushEdge {old : EdgeRecord} (hold : upsertEdge old ∈ st.ops) (hid : edge.id = old.id)
    (hends : endpoints edge = endpoints old) : (st.pushEdge edge).Tracked := by
  refine ⟨fun op hop => ?_, fun nodeId id => ?_⟩
  · obtain hop | hop := mem_append.mp hop
    · exact h.upserts op hop
    · rw [mem_singleton.mp hop]
      exact fun hdel => hdel.elim (fun h => nomatch h) fun h => nomatch h
  · refine (h.incident nodeId id).trans ⟨?_, ?_⟩
    · rintro ⟨other, hoth, hsame⟩
      exact ⟨other, mem_append_left _ hoth, hsame⟩
    · rintro ⟨other, hoth, rfl, hend⟩
      obtain hoth | hoth := mem_append.mp hoth
      · exact ⟨other, hoth, rfl, hend⟩
      · cases mem_singleton.mp hoth
        exact ⟨old, hold, hid.symm, hends ▸ hend⟩

theorem Tracked.counters (nextEdgeId : ℕ) (batchTriples : Map (ℕ × ℕ × ℕ) (ℕ × ℤ)) :
    { st with nextEdgeId := nextEdgeId, batchTriples := batchTriples }.Tracked := ⟨h.upserts, h.incident⟩

theorem Tracked.stageUpsert (edgeUniqueness : Bool) (committed : Map (ℕ × ℕ × ℕ) (ℕ × ℤ)) (now : ℤ)
    (input : EdgeInput) : (stageUpsert edgeUniqueness committed now st input).Tracked := by
  rw [CascadingDeletes.stageUpsert]
  dsimp only
  split
  · exact (h.counters _ _).pushEdgeAndIncident _
  · exact (h.counters _ _).pushEdgeAndIncident _

theorem Tracked.stageInvalidation {committed : Map ℕ (Option EdgeRecord)} {now : ℤ} {entry : ℕ × ℤ}
    (hstg : stageInvalidation committed now st entry = .ok st') : st'.Tracked := by
  rw [CascadingDeletes.stageInvalidation] at hstg
  split at hstg
  · split at hstg
    · rename_i opIdx _ edge hedge
      cases hstg
      exact h.pushEdge (mem_of_getElem? hedge) rfl rfl
    · cases hstg
  · split at hstg
    · cases hstg
      exact h.pushEdgeAndIncident _
    · cases hstg
      exact h

end

end Staging

variable {patch : GraphPatch}

theorem tracked_stagePatch {core : WriteCore} {now : ℤ} {st : Staging}
    (hstg : stagePatch core patch now = .ok st) : st.Tracked := by
  have hinva : ∀ (entries : List (ℕ × ℤ)) (committed : Map ℕ (Option EdgeRecord)) (before after : Staging),
      before.Tracked → entries.foldlM (stageInvalidation committed now) before = .ok after → after.Tracked := by
    intro entries committed
    induction entries with
    | nil =>
      intro before after hbef hrun
      cases hrun
      exact hbef
    | cons entry entries ih =>
      intro before after hbef hrun
      rw [foldlM_cons] at hrun
      obtain ⟨mid, hmid, hrest⟩ := Fallible.bind_ok hrun
      exact ih mid after (hbef.stageInvalidation hmid) hrest
  have hups : ∀ (inputs : List EdgeInput) (committed : Map (ℕ × ℕ × ℕ) (ℕ × ℤ)) (before : Staging), before.Tracked →
      (inputs.foldl (stageUpsert core.edgeUniqueness committed now) before).Tracked := by
    intro inputs committed
    induction inputs with
    | nil => exact fun before hbef => hbef
    | cons input inputs ih => exact fun before hbef => ih _ (hbef.stageUpsert _ _ _ _)
  refine hinva _ _ _ _ (hups _ _ _ ⟨?_, ?_⟩) hstg
  · intro op hop hdel
    obtain hop | hop := mem_append.mp hop
    · obtain hop | hop := mem_append.mp hop <;> obtain ⟨token, -, rfl⟩ := mem_map.mp hop <;>
        exact hdel.elim (fun h => nomatch h) fun h => nomatch h
    · obtain ⟨node, -, rfl⟩ := mem_map.mp hop
      exact hdel.elim (fun h => nomatch h) fun h => nomatch h
  · intro nodeId id
    constructor
    · intro hmem
      cases hmem
    · rintro ⟨edge, hedge, -⟩
      obtain hop | hop := mem_append.mp hedge
      · obtain hop | hop := mem_append.mp hop <;> obtain ⟨token, -, htoken⟩ := mem_map.mp hop <;> cases htoken
      · obtain ⟨node, -, hnode⟩ := mem_map.mp hop
        cases hnode

/-- An edge that a plan upserts is found as the plan has it, any other edge as it was. -/
theorem edgesUpserted_cases {sl : SourceList} {ops : List WalOp}
    (h : edgesUpserted sl ops id = some edge) :
    (∃ planned, upsertEdge planned ∈ ops ∧ planned.id = id ∧ endpoints edge = endpoints planned) ∨
      ((∀ planned, upsertEdge planned ∈ ops → planned.id ≠ id) ∧ sl.findEdge id = some edge) := by
  rw [edgesUpserted, edgesOver] at h
  cases hlog : edgeLog (sequenced sl.snapshotSeq ops) id with
  | none =>
    rw [hlog] at h
    refine Or.inr ⟨fun planned hplan hid => ?_, h⟩
    have hin : upsertEdge planned ∈ (sequenced sl.snapshotSeq ops).map (·.2) := by rwa [map_sequenced]
    obtain ⟨⟨q, op⟩, hseq, hop⟩ := mem_map.mp hin
    refine lastWrite_eq_none_iff.mp hlog (planned.id, some { planned with lastWriteSeq := q }) ?_ hid
    refine mem_flatMap.mpr ⟨(q, op), hseq, ?_⟩
    rw [show op = upsertEdge planned from hop]
    exact mem_singleton_self _
  | some value =>
    rw [hlog, Option.getD_some] at h
    subst h
    obtain ⟨q, planned, hplan, rfl⟩ := edgeLog_written hlog
    have hid := edgeLog_id hlog
    exact Or.inl ⟨planned, (Store.mem_sequenced hplan).1, hid, rfl⟩

theorem edgesUpserted_unstaged (sl : SourceList) {ops : List WalOp} (hops : ∀ op ∈ ops, ¬IsDelete op)
    (hid : ∀ planned, upsertEdge planned ∈ ops → planned.id ≠ id) : edgesUpserted sl ops id = sl.findEdge id := by
  have hlog : edgeLog (sequenced sl.snapshotSeq ops) id = none := by
    apply lastWrite_eq_none_iff.mpr
    intro w hw
    obtain ⟨⟨q, op⟩, hop, hw'⟩ := mem_flatMap.mp hw
    have hmem := (Store.mem_sequenced hop).1
    cases op with
    | upsertEdge planned =>
      rw [mem_singleton.mp hw']
      exact hid planned hmem
    | deleteEdge other deletedAt => exact absurd (Or.inl rfl) (hops _ hmem)
    | _ => cases hw'
  rw [edgesUpserted, edgesOver, hlog]
  rfl

inductive Plan where
  | deleteNode (id : ℕ)
  | graphPatch (patch : GraphPatch)
  | prune (newLabels : NewLabels) (policy : ResolvedPrunePolicy)

namespace Plan

def ops (core : WriteCore) (clock : Clock) : Plan → Except String (List WalOp)
  | .deleteNode id => .ok (planDeleteNode core.sources clock id)
  | .graphPatch patch => planGraphPatch core clock patch
  | .prune newLabels policy => .ok (planPrune core.sources clock newLabels policy)

/-- Every edge at a node to be deleted is seen by the cascade of one of them. -/
def SeesEdges (sl : SourceList) (clock : Clock) (targets : List ℕ) : Prop :=
  ∀ id edge, sl.findEdge id = some edge → (∃ nodeId ∈ endpoints edge, nodeId ∈ targets) →
    ∃ target ∈ targets.zipIdx, CascadeSees sl target.1 (clock (target.2 + 1)) id

/-- The patch names the edge, or a cascade of the patch sees it, or the patch stages it at a node that it deletes. -/
def Gathers (sl : SourceList) (clock : Clock) (patch : GraphPatch) (staged : List WalOp) (id : ℕ) : Prop :=
  id ∈ patch.deleteEdgeIds ∨ ∃ target ∈ patch.deleteNodeIds.zipIdx, CascadeSees sl target.1 (clock (target.2 + 1)) id ∨
    ∃ edge, WalOp.upsertEdge edge ∈ staged ∧ edge.id = id ∧ target.1 ∈ endpoints edge

structure PatchSees (sl : SourceList) (clock : Clock) (patch : GraphPatch) (staged : List WalOp) : Prop where
  stored : ∀ id edge, sl.findEdge id = some edge → (∀ planned, WalOp.upsertEdge planned ∈ staged → planned.id ≠ id) →
    (∃ nodeId ∈ endpoints edge, nodeId ∈ patch.deleteNodeIds) → Gathers sl clock patch staged id
  staged : ∀ id edge, edgesUpserted sl staged id = some edge → (∃ planned, WalOp.upsertEdge planned ∈ staged ∧ planned.id = id) →
    (∃ nodeId ∈ endpoints edge, NodeDeleted sl nodeId ∧ nodeId ∉ upsertedNodes staged ∧ nodeId ∉ patch.deleteNodeIds) →
    Gathers sl clock patch staged id

def Sees (core : WriteCore) (clock : Clock) : Plan → Prop
  | .deleteNode id => SeesEdges core.sources clock [id]
  | .graphPatch patch => ∀ st, stagePatch core patch (clock 0) = .ok st → PatchSees core.sources clock patch st.ops
  | .prune _ policy => SeesEdges core.sources clock (collectPruneTargets core.sources policy (clock 0))

end Plan

theorem silent_pushTokenOps (newLabels : NewLabels) :
    ∀ op ∈ pushTokenOps newLabels, ∀ q, edgeWrites (q, op) = [] ∧ nodeWrites (q, op) = [] := by
  intro op hop q
  obtain hop | hop := mem_append.mp hop <;> obtain ⟨token, -, rfl⟩ := mem_map.mp hop <;> exact ⟨rfl, rfl⟩

section
variable {core : WriteCore} (h : Stored core.sources)
include h

variable {clock : Clock}

theorem mem_gathered_iff {staged : ℕ → List ℕ} {tgt : ℕ × ℕ} : id ∈ gathered core.sources clock staged tgt ↔
      CascadeSees core.sources tgt.1 (clock (tgt.2 + 1)) id ∨ id ∈ staged tgt.1 := by
  rw [gathered, mem_append, mem_incident_iff h]

section
variable (hno : NoDangling core.sources)
include hno

/-- A plan that stages no edge and deletes what the cascades see. -/
theorem noDangling_cascade_iff {targets : List ℕ} {upserts deletes : List WalOp}
    (hups : ∀ op ∈ upserts, ∀ q, edgeWrites (q, op) = [] ∧ nodeWrites (q, op) = [])
    (hdele : ∀ op ∈ deletes, IsDelete op) (hnos : deletedNodes deletes = targets)
    (heds : ∀ id, id ∈ deletedEdges deletes ↔ ∃ tgt ∈ targets.zipIdx, CascadeSees core.sources tgt.1 (clock (tgt.2 + 1)) id) :
    NoDangling (applyBatch core.sources (upserts ++ deletes)) ↔ Plan.SeesEdges core.sources clock targets := by
  have hsil : ∀ op ∈ upserts, deletedNode? op = none ∧ upsertedNode? op = none := by
    intro op hop
    have hnone := (hups op hop 0).2
    cases op <;> first | exact ⟨rfl, rfl⟩ | cases hnone
  have hlog : ∀ id, edgesUpserted core.sources upserts id = core.sources.findEdge id := by
    intro id
    have hflat : (sequenced core.sources.snapshotSeq upserts).flatMap edgeWrites = [] :=
      flatMap_eq_nil_iff.mpr fun op hop => (hups op.2 (Store.mem_sequenced hop).1 op.1).1
    rw [edgesUpserted, edgesOver, edgeLog, hflat]
    rfl
  have hnone : upsertedNodes upserts = [] := filterMap_eq_nil_iff.mpr fun op hop => (hsil op hop).2
  rw [noDangling_applyBatch_iff h (fun op hop => (hsil op hop).1) hdele, hnos]
  constructor
  · rintro hkept id edge hedge ⟨nodeId, hend, htgt⟩
    by_contra hunseen
    have hnot := hkept id edge ((hlog id).trans hedge) (fun hmem => hunseen ((heds id).mp hmem)) nodeId hend
    exact hnot.1 htgt
  · intro hsees id edge hedge hkept nodeId hend
    rw [hlog] at hedge
    refine ⟨fun htgt => hkept ((heds id).mpr (hsees id edge hedge ⟨nodeId, hend, htgt⟩)), fun hgone => ?_⟩
    exact hno id edge hedge nodeId hend hgone.1

theorem deleteNode_spec (clock : Clock) (id : ℕ) :
    (NoDangling (applyBatch core.sources (planDeleteNode core.sources clock id)) ↔ Plan.SeesEdges core.sources clock [id]) ∧
      (deletedEdges (planDeleteNode core.sources clock id)).Nodup := by
  have heds : deletedEdges (planDeleteNode core.sources clock id) =
      (neighborsRaw core.sources id .both none (clock 1)).map edgeId := by
    rw [planDeleteNode, deletedEdges, filterMap_append, filterMap_map]
    exact (append_nil _).trans (filterMap_eq_map' (f := edgeId) ▸ rfl)
  have hnos : deletedNodes (planDeleteNode core.sources clock id) = [id] := by
    have hnone : (neighborsRaw core.sources id .both none (clock 1)).filterMap
        (deletedNode? ∘ fun entry => deleteEdge entry.edgeId (clock 0)) = [] := filterMap_eq_nil_iff.mpr fun _ _ => rfl
    rw [planDeleteNode, deletedNodes, filterMap_append, filterMap_map, hnone]
    rfl
  have hdel : ∀ op ∈ planDeleteNode core.sources clock id, IsDelete op := by
    intro op hop
    obtain hop | hop := mem_append.mp hop
    · obtain ⟨entry, -, rfl⟩ := mem_map.mp hop
      exact Or.inl rfl
    · rw [mem_singleton.mp hop]
      exact Or.inr rfl
  refine ⟨?_, ?_⟩
  · rw [← nil_append (planDeleteNode core.sources clock id)]
    refine noDangling_cascade_iff h hno (by simp) hdel hnos fun edgeId => ?_
    rw [heds, mem_incident_iff h]
    simp
  · rw [heds]
    exact nodup_neighborsRaw h _

theorem prune_spec (clock : Clock) (newLabels : NewLabels) (policy : ResolvedPrunePolicy) :
    (NoDangling (applyBatch core.sources (planPrune core.sources clock newLabels policy)) ↔
      Plan.SeesEdges core.sources clock (collectPruneTargets core.sources policy (clock 0))) ∧
      (deletedEdges (planPrune core.sources clock newLabels policy)).Nodup := by
  obtain ⟨⟨⟨deletes, hops, hdel, heds, hnos⟩, hnd⟩, hmem⟩ := (deleting_start (pushTokenOps newLabels)).targets
    core.sources clock (fun _ => []) (collectPruneTargets core.sources policy (clock 0)).zipIdx
  have hsil : deletedEdges (pushTokenOps newLabels) = [] := by
    apply filterMap_eq_nil_iff.mpr
    intro op hop
    have hnone := (silent_pushTokenOps newLabels op hop 0).1
    cases op <;> first | rfl | cases hnone
  rw [nil_append, zipIdx_map_fst] at hnos
  rw [planPrune, hops]
  refine ⟨noDangling_cascade_iff h hno (silent_pushTokenOps newLabels) hdel hnos fun edgeId => ?_, ?_⟩
  · rw [heds, mem_reverse, hmem]
    simp [mem_gathered_iff h]
  · rw [deletedEdges, filterMap_append, ← deletedEdges, ← deletedEdges, hsil, heds]
    exact nodup_reverse.mpr hnd

end

theorem graphPatch_deletes {ops : List WalOp} (hplan : planGraphPatch core clock patch = .ok ops) :
    ∃ st deletes, stagePatch core patch (clock 0) = .ok st ∧ ops = st.ops ++ deletes ∧ (∀ op ∈ deletes, IsDelete op) ∧
      deletedNodes deletes = patch.deleteNodeIds ∧ (deletedEdges deletes).Nodup ∧
      ∀ id, id ∈ deletedEdges deletes ↔ Plan.Gathers core.sources clock patch st.ops id := by
  rw [planGraphPatch] at hplan
  obtain ⟨st, hstg, hplan⟩ := bind_ok hplan
  have hops := Except.ok.inj hplan
  have hnamed := (deleting_start st.ops).edges (clock 0) patch.deleteEdgeIds
  obtain ⟨⟨⟨deletes, hsp, hdel, heds, hnos⟩, hnd⟩, hmem⟩ := hnamed.targets
    core.sources clock st.incidentEdges patch.deleteNodeIds.zipIdx
  rw [nil_append, zipIdx_map_fst] at hnos
  refine ⟨st, deletes, hstg, hops.symm.trans hsp, hdel, hnos, ?_, fun id => ?_⟩
  · rw [heds]
    exact nodup_reverse.mpr hnd
  · rw [heds, mem_reverse, hmem, mem_deleteEdges]
    simp only [not_mem_nil, false_or, mem_gathered_iff h, (tracked_stagePatch hstg).incident, Plan.Gathers]

theorem graphPatch_spec (hno : NoDangling core.sources) {ops : List WalOp}
    (hplan : planGraphPatch core clock patch = .ok ops) :
    (NoDangling (applyBatch core.sources ops) ↔ Plan.Sees core clock (.graphPatch patch)) ∧ (deletedEdges ops).Nodup := by
  obtain ⟨st, deletes, hstg, rfl, hdel, hnos, hnd, hgath⟩ := graphPatch_deletes h hplan
  have htrac := tracked_stagePatch hstg
  have hups : ∀ op ∈ st.ops, deletedEdge? op = none ∧ deletedNode? op = none := by
    intro op hop
    have hnot := htrac.upserts op hop
    rw [IsDelete, not_or, Option.not_isSome_iff_eq_none, Option.not_isSome_iff_eq_none] at hnot
    exact hnot
  have hsees : Plan.Sees core clock (.graphPatch patch) ↔ Plan.PatchSees core.sources clock patch st.ops := by
    constructor
    · exact fun hsees => hsees st hstg
    · intro hsees other hoth
      cases hstg.symm.trans hoth
      exact hsees
  refine ⟨?_, ?_⟩
  · rw [hsees, noDangling_applyBatch_iff h (fun op hop => (hups op hop).2) hdel, hnos]
    simp only [hgath]
    constructor
    · intro hkept
      refine ⟨?_, ?_⟩
      · rintro id edge hedge hunst ⟨nodeId, hend, htgt⟩
        by_contra hung
        have hlive := (edgesUpserted_unstaged core.sources htrac.upserts hunst).trans hedge
        exact (hkept id edge hlive hung nodeId hend).1 htgt
      · rintro id edge hlive - ⟨nodeId, hend, hgone, hnew, -⟩
        by_contra hung
        exact (hkept id edge hlive hung nodeId hend).2 ⟨hgone, hnew⟩
    · intro hcond id edge hlive hung nodeId hend
      obtain ⟨planned, hplanned, rfl, hends⟩ | ⟨hunst, hedge⟩ := edgesUpserted_cases hlive
      · have hkept : nodeId ∉ patch.deleteNodeIds := by
          intro htgt
          obtain ⟨i, hi⟩ := mem_iff_getElem?.mp htgt
          refine hung (Or.inr ⟨(nodeId, i), mem_zipIdx_iff_getElem?.mpr hi, Or.inr ⟨planned, hplanned, rfl, ?_⟩⟩)
          exact hends ▸ hend
        refine ⟨hkept, fun hgone => hung ?_⟩
        exact hcond.staged planned.id edge hlive ⟨planned, hplanned, rfl⟩ ⟨nodeId, hend, hgone.1, hgone.2, hkept⟩
      · refine ⟨fun htgt => hung ?_, fun hgone => hno id edge hedge nodeId hend hgone.1⟩
        exact hcond.stored id edge hedge hunst ⟨nodeId, hend, htgt⟩
  · have hnone : deletedEdges st.ops = [] := filterMap_eq_nil_iff.mpr fun op hop => (hups op hop).1
    rw [deletedEdges, filterMap_append, ← deletedEdges, ← deletedEdges, hnone]
    exact hnd

end

inductive Event where
  | plan (nextNodeId nextEdgeId : ℕ) (edgeUniqueness : Bool) (clock : Clock) (plan : Plan)
  | freezeMemtable
  | adoptFlush

def freezeMemtable (sl : SourceList) : SourceList := { sl with active := MemtableState.empty, immutable := sl.active :: sl.immutable }

/-- The oldest frozen memtable becomes the newest segment. -/
def adoptFlush (sl : SourceList) : Option SourceList :=
  sl.immutable.getLast?.map fun m => { sl with immutable := sl.immutable.dropLast, segments := writeSegment m :: sl.segments }

def step (sl : SourceList) : Event → Option SourceList
  | .plan nextNodeId nextEdgeId edgeUniqueness clock plan =>
    match plan.ops ⟨sl, nextNodeId, nextEdgeId, edgeUniqueness⟩ clock with
    | .ok ops => some (applyBatch sl ops)
    | .error _ => none
  | .freezeMemtable => some (freezeMemtable sl)
  | .adoptFlush => adoptFlush sl

/-- A plan is made where it sees the edges that it has to delete. -/
def Seen (sl : SourceList) : Event → Prop
  | .plan nextNodeId nextEdgeId edgeUniqueness clock plan => plan.Sees ⟨sl, nextNodeId, nextEdgeId, edgeUniqueness⟩ clock
  | _ => True

section
variable {sl sl' : SourceList}

theorem Plan.ops_spec {core : WriteCore} (h : Stored core.sources) (hno : NoDangling core.sources) {clock : Clock} {plan : Plan}
    {ops : List WalOp} (hplan : plan.ops core clock = .ok ops) :
    (NoDangling (applyBatch core.sources ops) ↔ plan.Sees core clock) ∧ (deletedEdges ops).Nodup := by
  cases plan with
  | deleteNode id =>
    rw [← Except.ok.inj hplan]
    exact deleteNode_spec h hno clock id
  | graphPatch patch => exact graphPatch_spec h hno hplan
  | prune newLabels policy =>
    rw [← Except.ok.inj hplan]
    exact prune_spec h hno clock newLabels policy

/-- What shows the same nodes and edges leaves nothing more dangling. -/
theorem NoDangling.of_same (hno : NoDangling sl) (h : Stored sl) (h' : Stored sl')
    (hnos : firstOpinion sl'.nodeLayers = firstOpinion sl.nodeLayers)
    (heds : firstOpinion sl'.edgeLayers = firstOpinion sl.edgeLayers) : NoDangling sl' := by
  intro id edge hedge nodeId hend
  rw [NodeDeleted, hnos]
  refine hno id edge ?_ nodeId hend
  rw [h'.wellFormed.findEdge, visible, heds] at hedge
  rw [h.wellFormed.findEdge, visible, hedge]

theorem stored_freezeMemtable (h : Stored sl) : Stored (freezeMemtable sl) where
  memtables m hm := by
    obtain rfl | hm := mem_cons.mp hm
    · exact ⟨[], rfl, fun op hop => by cases hop⟩
    · exact h.memtables m hm
  segments := h.segments

theorem stored_adoptFlush (h : Stored sl) (hstep : adoptFlush sl = some sl') : Stored sl' := by
  obtain ⟨m, hlast, rfl⟩ := Option.map_eq_some_iff.mp hstep
  refine ⟨fun other hoth => h.memtables other ?_, fun seg hseg id edge hedge => ?_⟩
  · obtain rfl | hoth := mem_cons.mp hoth
    · exact mem_cons_self
    · exact mem_cons_of_mem _ (mem_of_mem_dropLast hoth)
  · obtain rfl | hseg := mem_cons.mp hseg
    · obtain ⟨ops, rfl, -⟩ := h.memtables m (mem_cons_of_mem _ (mem_of_getLast? hlast))
      have hlive : (ofOps ops).liveEdges.lookup id = some edge := hedge
      rw [lookup_liveEdges, currentEdge_ofOps] at hlive
      exact edgeLog_id (Option.join_eq_some_iff.mp hlive)
    · exact h.segments seg hseg id edge hedge

theorem layers_freezeMemtable (sl : SourceList) : firstOpinion (freezeMemtable sl).nodeLayers = firstOpinion sl.nodeLayers ∧
    firstOpinion (freezeMemtable sl).edgeLayers = firstOpinion sl.edgeLayers := by
  have hnode : nodeOpinion MemtableState.empty = fun _ => none := rfl
  have hedge : edgeOpinion MemtableState.empty = fun _ => none := rfl
  constructor
  · funext id
    simp only [nodeLayers, freezeMemtable, map_cons, cons_append, firstOpinion_cons, hnode, Option.none_or]
  · funext id
    simp only [edgeLayers, freezeMemtable, map_cons, cons_append, firstOpinion_cons, hedge, Option.none_or]

theorem layers_adoptFlush (h : Stored sl) (hstep : adoptFlush sl = some sl') :
    sl'.nodeLayers = sl.nodeLayers ∧ sl'.edgeLayers = sl.edgeLayers := by
  obtain ⟨m, hlast, rfl⟩ := Option.map_eq_some_iff.mp hstep
  obtain ⟨rest, himm⟩ := getLast?_eq_some_iff.mp hlast
  obtain ⟨ops, rfl, -⟩ := h.memtables m (mem_cons_of_mem _ (mem_of_getLast? hlast))
  have hnode : (writeSegment (ofOps ops)).nodeOpinion = (ofOps ops).nodeOpinion :=
    funext fun id => nodeOpinion_writeSegment (tombstonesAgree_ofOps ops) id
  have hedge : (writeSegment (ofOps ops)).edgeOpinion = (ofOps ops).edgeOpinion :=
    funext fun id => edgeOpinion_writeSegment (tombstonesAgree_ofOps ops) id
  simp only [nodeLayers, edgeLayers, himm, dropLast_concat, map_cons, map_append, map_nil,
    hnode, hedge, cons_append, append_assoc, nil_append, and_self]

theorem step_keeps {e : Event} (h : Stored sl ∧ NoDangling sl) (hseen : Seen sl e) (hstep : step sl e = some sl') :
    Stored sl' ∧ NoDangling sl' := by
  obtain ⟨hsto, hno⟩ := h
  cases e with
  | plan nextNodeId nextEdgeId edgeUniqueness clock plan =>
    simp only [step] at hstep
    split at hstep
    · rename_i ops hplan
      cases hstep
      have hspec := @Plan.ops_spec ⟨sl, nextNodeId, nextEdgeId, edgeUniqueness⟩ hsto hno clock plan ops hplan
      exact ⟨stored_applyBatch hsto ops, hspec.1.mpr hseen⟩
    · cases hstep
  | freezeMemtable =>
    cases hstep
    have hsto' := stored_freezeMemtable hsto
    exact ⟨hsto', hno.of_same hsto hsto' (layers_freezeMemtable sl).1 (layers_freezeMemtable sl).2⟩
  | adoptFlush =>
    have hsto' := stored_adoptFlush hsto hstep
    obtain ⟨hnos, heds⟩ := layers_adoptFlush hsto hstep
    exact ⟨hsto', hno.of_same hsto hsto' (by rw [hnos]) (by rw [heds])⟩

/-- A plan leaves nothing dangling exactly if its cascades see the edges it has to delete, and deletes no edge twice;
along a run of such plans nothing is ever left dangling. -/
theorem plans_leave_no_dangling {core : WriteCore} (h : Stored core.sources) (hno : NoDangling core.sources) :
    (∀ clock plan ops, Plan.ops core clock plan = .ok ops →
      (NoDangling (applyBatch core.sources ops) ↔ plan.Sees core clock) ∧ (deletedEdges ops).Nodup) ∧
    ∀ events sl', Admits step Seen core.sources events → run step core.sources events = some sl' → NoDangling sl' := by
  refine ⟨fun clock plan ops hplan => Plan.ops_spec h hno hplan, fun events sl' hseen hrun => ?_⟩
  exact (run_invariant (fun _ _ _ => step_keeps) ⟨h, hno⟩ hseen hrun).2

end

def emptySources : SourceList := ⟨MemtableState.empty, [], [], 0⟩

def person (id : ℕ) (key : String) : NodeRecord := ⟨id, .single 1 Nat.one_ne_zero, key, ∅, 0, 0, 0, none, none, 0⟩

def knownUntilFive : EdgeRecord := ⟨1, 1, 2, 1, ∅, 0, 0, 0, 0, 5, 0⟩

def twoPeople : List WalOp := [.upsertNode (person 1 "a"), .upsertNode (person 2 "b"), .upsertEdge knownUntilFive]

theorem stored_empty : Stored emptySources where
  memtables m hm := by
    obtain rfl := mem_singleton.mp hm
    exact ⟨[], rfl, fun op hop => by cases hop⟩
  segments seg hseg := by cases hseg

theorem findEdge_twoPeople (h : (applyBatch emptySources twoPeople).findEdge id = some edge) :
    id = 1 ∧ endpoints edge = [1, 2] := by
  rw [findEdge_applyBatch stored_empty] at h
  obtain ⟨planned, hplan, rfl, hends⟩ | ⟨-, hnone⟩ := edgesUpserted_cases h
  · have hedge : planned = knownUntilFive := by
      simp only [twoPeople, mem_cons, reduceCtorEq, upsertEdge.injEq, not_mem_nil, or_false, false_or] at hplan
      exact hplan
    rw [hedge] at hends ⊢
    exact ⟨rfl, hends⟩
  · cases hnone

theorem noDangling_twoPeople : NoDangling (applyBatch emptySources twoPeople) := by
  have hups : ∀ op ∈ twoPeople, deletedNode? op = none := by decide
  rw [← append_nil twoPeople, noDangling_applyBatch_iff stored_empty hups (by simp)]
  intro id edge _ _ nodeId _
  exact ⟨not_mem_nil, fun hgone => by cases hgone.1⟩

/-- The edge has expired when one of its nodes is deleted, and it stays. -/
theorem expired_edge_left_dangling : Stored (applyBatch emptySources twoPeople) ∧ NoDangling (applyBatch emptySources twoPeople) ∧
    planDeleteNode (applyBatch emptySources twoPeople) (fun _ => 9) 1 = [.deleteNode 1 9] ∧
    ¬NoDangling (applyBatch (applyBatch emptySources twoPeople) (planDeleteNode (applyBatch emptySources twoPeople) (fun _ => 9) 1)) := by
  have hplan : planDeleteNode (applyBatch emptySources twoPeople) (fun _ => 9) 1 = [.deleteNode 1 9] := by rfl
  refine ⟨stored_applyBatch stored_empty _, noDangling_twoPeople, hplan, fun hno => ?_⟩
  rw [hplan] at hno
  exact hno 1 { knownUntilFive with lastWriteSeq := 3 } (by rfl) 1 (by decide) (by rfl)

/-- Before it expires the edge is deleted with its node. -/
theorem plans_leave_no_dangling_twoPeople : NoDangling (applyBatch (applyBatch emptySources twoPeople)
    (planDeleteNode (applyBatch emptySources twoPeople) (fun _ => 3) 1)) := by
  refine ((@plans_leave_no_dangling ⟨applyBatch emptySources twoPeople, 3, 2, true⟩
    (stored_applyBatch stored_empty _) noDangling_twoPeople).1 (fun _ => 3) (.deleteNode 1) _ rfl).1.mpr ?_
  intro id edge hedge _
  rw [(findEdge_twoPeople hedge).1]
  exact ⟨(1, 0), by decide, ⟨2, 1, 1, 0, 0, 5⟩, by rfl, by decide, by decide⟩

end OverGraph.CascadingDeletes
