import OverGraph.NeighborBatches

/-!
# Subgraphs around a node

A subgraph is collected level by level: the edges at the nodes of a level are noted, and the nodes they lead to that pass the filter
make the next level. With a filter a node must have a record to pass. Without one every node passes, and a node without a record is
left out of the nodes and of the next level only after the edges to it are collected. So the nodes are always right, and the edges are
unless one of them leads to a node without a record.
-/

namespace OverGraph.Subgraphs
open Records Sources SnapshotReads AdjacencyReads DegreeWalks LayeredWrites GraphWalks Expansion PrunePolicies List
open NeighborBatches
open NodeFilters (ResolvedNodeLabelFilter nodeLabelFilterMatches)
open NodePatterns (ResolvedNodeLabelFilter.isEmptyConstraint)
open Traversals (isUnconstrained)

structure Subgraph where
  nodes : List NodeRecord
  edges : List EdgeRecord

/-- The edges collected over all levels, and those of the level in order. -/
structure CollectedEdges where
  collectedEdgeIds : Finset ℕ
  newEdgeIds : List ℕ

def collectEdge (st : CollectedEdges) (edgeId : ℕ) : CollectedEdges :=
  if edgeId ∈ st.collectedEdgeIds then st else ⟨insert edgeId st.collectedEdgeIds, st.newEdgeIds ++ [edgeId]⟩

/-- What is found on a level: edges to nodes known before, the edges to new nodes, and the new nodes. -/
structure LevelScan where
  edges : CollectedEdges
  candidateEdges : List (ℕ × ℕ)
  newNodeIds : List ℕ

def scanNeighbor (visitedNodes blockedNodes : Finset ℕ) (scan : LevelScan) (entry : NeighborRecord) : LevelScan :=
  if entry.nodeId ∈ visitedNodes then { scan with edges := collectEdge scan.edges entry.edgeId }
  else if entry.nodeId ∈ blockedNodes then scan
  else
    { scan with
      candidateEdges := scan.candidateEdges ++ [(entry.edgeId, entry.nodeId)]
      newNodeIds := if entry.nodeId ∈ scan.newNodeIds then scan.newNodeIds else scan.newNodeIds ++ [entry.nodeId] }

structure SubgraphState where
  visitedNodes : Finset ℕ
  blockedNodes : Finset ℕ
  collectedEdgeIds : Finset ℕ
  nodeRecords : List NodeRecord
  edgeRecords : List EdgeRecord
  frontier : List ℕ

section
variable (sl : SourceList) (pols : Option PrecomputedPruneCutoffs) (dir : Direction) (edgeF : Option (List ℕ))
  (nodeF : ResolvedNodeLabelFilter) (now : ℤ)

def getNode (nodeId : ℕ) : Option NodeRecord := (sl.findNode nodeId).filter fun node => !pols.any fun cutoffs => cutoffs.excludes node

def getNodes (nodeIds : List ℕ) : List (Option NodeRecord) :=
  (sl.findNodes nodeIds).map fun found => found.filter fun node => !pols.any fun cutoffs => cutoffs.excludes node

def expandLevel (st : SubgraphState) : SubgraphState :=
  let allNeighbors := neighborsBatchResolved sl pols dir edgeF now st.frontier
  let scan := (st.frontier.flatMap (entriesOf allNeighbors)).foldl (scanNeighbor st.visitedNodes st.blockedNodes)
    ⟨⟨st.collectedEdgeIds, []⟩, [], []⟩
  let constrained := !isUnconstrained nodeF
  let eligible := if constrained then filterNodeIdsByResolvedLabelFilter sl none nodeF scan.newNodeIds else scan.newNodeIds
  let edges := scan.candidateEdges.foldl (fun edges c => if c.2 ∈ eligible then collectEdge edges c.1 else edges)
    scan.edges
  let fetched := eligible.zip (getNodes sl pols eligible)
  { visitedNodes := st.visitedNodes ∪ eligible.toFinset
    blockedNodes := if constrained then st.blockedNodes ∪ (scan.newNodeIds.filter (· ∉ eligible)).toFinset else st.blockedNodes
    collectedEdgeIds := edges.collectedEdgeIds
    nodeRecords := st.nodeRecords ++ fetched.filterMap Prod.snd
    edgeRecords := st.edgeRecords ++ (sl.findEdges edges.newEdgeIds).reduceOption
    frontier := fetched.filterMap fun entry => entry.2.map fun _ => entry.1 }

def expandLevels : ℕ → SubgraphState → SubgraphState
  | 0, st => st
  | levels + 1, st =>
    let st := expandLevel sl pols dir edgeF nodeF now st
    if st.frontier.isEmpty then st else expandLevels levels st

/-- The views that name the labels of the records are made from these. -/
def extractSubgraph (startNodeId maxDepth : ℕ) : Subgraph :=
  if ResolvedNodeLabelFilter.isEmptyConstraint nodeF then ⟨[], []⟩
  else match getNode sl pols startNodeId with
    | none => ⟨[], []⟩
    | some startNode =>
      if !nodeLabelFilterMatches nodeF startNode.labelIds then ⟨[], []⟩
      else if edgeF.any (·.isEmpty) then ⟨[startNode], []⟩
      else
        let st := expandLevels sl pols dir edgeF nodeF now maxDepth
          ⟨{startNodeId}, ∅, ∅, [startNode], [], [startNodeId]⟩
        ⟨st.nodeRecords, st.edgeRecords⟩

end

section
variable {visitedNodes blockedNodes : Finset ℕ}

structure CollectedEdges.Since (before : Finset ℕ) (st : CollectedEdges) : Prop where
  nodup : st.newEdgeIds.Nodup
  mem : ∀ edgeId, edgeId ∈ st.newEdgeIds ↔ edgeId ∈ st.collectedEdgeIds ∧ edgeId ∉ before
  kept : before ⊆ st.collectedEdgeIds

variable {before : Finset ℕ}

theorem CollectedEdges.Since.collect {st : CollectedEdges} (h : st.Since before) (edgeId : ℕ) : (collectEdge st edgeId).Since before := by
  rw [collectEdge]
  split
  · exact h
  · rename_i hnew
    have hunli : edgeId ∉ st.newEdgeIds := fun hmem => hnew ((h.mem edgeId).mp hmem).1
    refine ⟨?_, fun other => ?_, fun other hoth => Finset.mem_insert_of_mem (h.kept hoth)⟩
    · exact nodup_append.mpr ⟨h.nodup, nodup_singleton _, by
        rintro a ha b hb rfl
        exact hunli (mem_singleton.mp hb ▸ ha)⟩
    · rw [mem_append, mem_singleton, h.mem, Finset.mem_insert]
      constructor
      · rintro (⟨hold, hbef⟩ | rfl)
        · exact ⟨Or.inr hold, hbef⟩
        · exact ⟨Or.inl rfl, fun hbef => hnew (h.kept hbef)⟩
      · rintro ⟨rfl | hold, hbef⟩
        · exact Or.inr rfl
        · exact Or.inl ⟨hold, hbef⟩

theorem mem_collectEdge {st : CollectedEdges} {edgeId other : ℕ} :
    other ∈ (collectEdge st edgeId).collectedEdgeIds ↔ other ∈ st.collectedEdgeIds ∨ other = edgeId := by
  rw [collectEdge]
  split
  · rename_i hmem
    exact ⟨Or.inl, fun h => h.elim id fun heq => heq ▸ hmem⟩
  · rw [Finset.mem_insert, or_comm]

structure LevelScan.Found (visitedNodes blockedNodes before : Finset ℕ) (entries : List NeighborRecord) (scan : LevelScan) : Prop where
  since : scan.edges.Since before
  edges : ∀ edgeId, edgeId ∈ scan.edges.collectedEdgeIds ↔
    edgeId ∈ before ∨ ∃ entry ∈ entries, entry.edgeId = edgeId ∧ entry.nodeId ∈ visitedNodes
  candidates : ∀ edgeId nodeId, (edgeId, nodeId) ∈ scan.candidateEdges ↔
    nodeId ∉ visitedNodes ∧ nodeId ∉ blockedNodes ∧ ∃ entry ∈ entries, entry.edgeId = edgeId ∧ entry.nodeId = nodeId
  nodup : scan.newNodeIds.Nodup
  nodes : ∀ nodeId, nodeId ∈ scan.newNodeIds ↔ nodeId ∉ visitedNodes ∧ nodeId ∉ blockedNodes ∧ ∃ entry ∈ entries, entry.nodeId = nodeId

theorem LevelScan.Found.scan {entries : List NeighborRecord} {scan : LevelScan}
    (h : scan.Found visitedNodes blockedNodes before entries) (entry : NeighborRecord) :
    (scanNeighbor visitedNodes blockedNodes scan entry).Found visitedNodes blockedNodes before (entries ++ [entry]) := by
  have hsp : ∀ p : NeighborRecord → Prop, (∃ other ∈ entries ++ [entry], p other) ↔ (∃ other ∈ entries, p other) ∨ p entry := by
    intro p
    simp only [mem_append, mem_singleton, or_and_right, exists_or, exists_eq_left]
  rw [scanNeighbor]
  split
  · rename_i hvis
    refine ⟨h.since.collect _, fun edgeId => ?_, fun edgeId nodeId => ?_, h.nodup, fun nodeId => ?_⟩
    · rw [mem_collectEdge, h.edges, hsp, or_assoc]
      simp only [hvis, and_true, eq_comm]
    · rw [h.candidates, hsp]
      constructor
      · rintro ⟨hnew, hfree, hold⟩
        exact ⟨hnew, hfree, Or.inl hold⟩
      · rintro ⟨hnew, hfree, hold | ⟨-, rfl⟩⟩
        · exact ⟨hnew, hfree, hold⟩
        · exact absurd hvis hnew
    · rw [h.nodes, hsp]
      constructor
      · rintro ⟨hnew, hfree, hold⟩
        exact ⟨hnew, hfree, Or.inl hold⟩
      · rintro ⟨hnew, hfree, hold | rfl⟩
        · exact ⟨hnew, hfree, hold⟩
        · exact absurd hvis hnew
  · rename_i hnew
    have heds : ∀ edgeId, edgeId ∈ scan.edges.collectedEdgeIds ↔
        edgeId ∈ before ∨ ∃ other ∈ entries ++ [entry], other.edgeId = edgeId ∧ other.nodeId ∈ visitedNodes := by
      intro edgeId
      rw [h.edges, hsp]
      simp only [hnew, and_false, or_false]
    split
    · rename_i hblk
      refine ⟨h.since, heds, fun edgeId nodeId => ?_, h.nodup, fun nodeId => ?_⟩
      · rw [h.candidates, hsp]
        constructor
        · rintro ⟨hfr, hfree, hold⟩
          exact ⟨hfr, hfree, Or.inl hold⟩
        · rintro ⟨hfr, hfree, hold | ⟨-, rfl⟩⟩
          · exact ⟨hfr, hfree, hold⟩
          · exact absurd hblk hfree
      · rw [h.nodes, hsp]
        constructor
        · rintro ⟨hfr, hfree, hold⟩
          exact ⟨hfr, hfree, Or.inl hold⟩
        · rintro ⟨hfr, hfree, hold | rfl⟩
          · exact ⟨hfr, hfree, hold⟩
          · exact absurd hblk hfree
    · rename_i hfree
      have hmem : ∀ nodeId, nodeId ∈ (if entry.nodeId ∈ scan.newNodeIds then scan.newNodeIds else scan.newNodeIds ++ [entry.nodeId]) ↔
          nodeId ∈ scan.newNodeIds ∨ nodeId = entry.nodeId := by
        intro nodeId
        split
        · rename_i hlist
          exact ⟨Or.inl, fun h => h.elim id fun heq => heq ▸ hlist⟩
        · rw [mem_append, mem_singleton]
      refine ⟨h.since, heds, fun edgeId nodeId => ?_, ?_, fun nodeId => ?_⟩
      · rw [mem_append, mem_singleton, h.candidates, hsp, Prod.mk.injEq]
        constructor
        · rintro (⟨hfr, hopen, hold⟩ | ⟨rfl, rfl⟩)
          · exact ⟨hfr, hopen, Or.inl hold⟩
          · exact ⟨hnew, hfree, Or.inr ⟨rfl, rfl⟩⟩
        · rintro ⟨hfr, hopen, hold | ⟨rfl, rfl⟩⟩
          · exact Or.inl ⟨hfr, hopen, hold⟩
          · exact Or.inr ⟨rfl, rfl⟩
      · dsimp only
        split
        · exact h.nodup
        · rename_i hunli
          exact nodup_append.mpr ⟨h.nodup, nodup_singleton _, by
            rintro a ha b hb rfl
            exact hunli (mem_singleton.mp hb ▸ ha)⟩
      · rw [hmem, h.nodes, hsp]
        constructor
        · rintro (⟨hfr, hopen, hold⟩ | rfl)
          · exact ⟨hfr, hopen, Or.inl hold⟩
          · exact ⟨hnew, hfree, Or.inr rfl⟩
        · rintro ⟨hfr, hopen, hold | rfl⟩
          · exact Or.inl ⟨hfr, hopen, hold⟩
          · exact Or.inr rfl

theorem found_foldl {seen : List NeighborRecord} (entries : List NeighborRecord) {scan : LevelScan}
    (h : scan.Found visitedNodes blockedNodes before seen) :
    (entries.foldl (scanNeighbor visitedNodes blockedNodes) scan).Found visitedNodes blockedNodes before (seen ++ entries) := by
  induction entries generalizing seen scan with
  | nil => rwa [append_nil]
  | cons entry entries ih =>
    rw [append_cons]
    exact ih (h.scan entry)

theorem since_start (before : Finset ℕ) : CollectedEdges.Since before ⟨before, []⟩ := by
  refine ⟨nodup_nil, fun edgeId => ?_, subset_rfl⟩
  simp

theorem found_level (before : Finset ℕ) (entries : List NeighborRecord) :
    (entries.foldl (scanNeighbor visitedNodes blockedNodes) ⟨⟨before, []⟩, [], []⟩).Found visitedNodes blockedNodes before entries := by
  have hst : LevelScan.Found visitedNodes blockedNodes before [] ⟨⟨before, []⟩, [], []⟩ := by
    refine ⟨since_start before, ?_, ?_, nodup_nil, ?_⟩ <;> simp
  exact found_foldl entries hst

/-- The edges to new nodes that pass are collected as well. -/
theorem collect_candidates (eligible : List ℕ) (candidates : List (ℕ × ℕ)) {edges : CollectedEdges}
    (h : edges.Since before) :
    let res := candidates.foldl (fun edges c => if c.2 ∈ eligible then collectEdge edges c.1 else edges) edges
    res.Since before ∧ ∀ edgeId, edgeId ∈ res.collectedEdgeIds ↔
      edgeId ∈ edges.collectedEdgeIds ∨ ∃ c ∈ candidates, c.1 = edgeId ∧ c.2 ∈ eligible := by
  induction candidates generalizing edges with
  | nil => exact ⟨h, fun edgeId => by simp⟩
  | cons c candidates ih =>
    have hsp : ∀ edgeId, (∃ other ∈ c :: candidates, other.1 = edgeId ∧ other.2 ∈ eligible) ↔
        (c.1 = edgeId ∧ c.2 ∈ eligible) ∨ ∃ other ∈ candidates, other.1 = edgeId ∧ other.2 ∈ eligible := by
      intro edgeId
      simp only [mem_cons, or_and_right, exists_or, exists_eq_left]
    rw [foldl_cons]
    split
    · rename_i hpass
      obtain ⟨hsince, hmem⟩ := ih (h.collect c.1)
      refine ⟨hsince, fun edgeId => ?_⟩
      rw [hmem, mem_collectEdge, hsp, or_assoc]
      simp only [hpass, and_true, eq_comm]
    · rename_i hstop
      obtain ⟨hsince, hmem⟩ := ih h
      refine ⟨hsince, fun edgeId => ?_⟩
      rw [hmem, hsp]
      simp only [hstop, and_false, false_or]

end

section
variable (sl : SourceList) (pols : Option PrecomputedPruneCutoffs) (dir : Direction) (edgeF : Option (List ℕ))
  (nodeF : ResolvedNodeLabelFilter) (now : ℤ) (start : ℕ)

/-- A valid edge that leads from one node to another that no policy excludes. -/
def Follows (source edgeId nbr : ℕ) : Prop :=
  ∃ r, neighborFound sl source dir edgeF edgeId = some r ∧ r.nodeId = nbr ∧ validRecord now r = true ∧ excludedNode sl pols nbr = false

/-- An edge is followed to a node with a record that passes the filter. -/
def SubgraphArc (source edgeId nbr : ℕ) : Prop := Follows sl pols dir edgeF now source edgeId nbr ∧ selected sl pols nodeF nbr = true

/-- Without a filter a node passes that has no record. -/
def passes (nodeId : ℕ) : Bool := isUnconstrained nodeF || selected sl none nodeF nodeId

structure Leveled (depth : ℕ) (st : SubgraphState) : Prop where
  ball : Ball (SubgraphArc sl pols dir edgeF nodeF now) start depth
    (fun v => v ∈ st.visitedNodes ∧ (sl.findNode v).isSome) st.frontier
  visited : ∀ v ∈ st.visitedNodes, passes sl nodeF v = true
  blocked : ∀ v ∈ st.blockedNodes, passes sl nodeF v = false
  collected : ∀ e, e ∈ st.collectedEdgeIds ↔ ∃ i < depth, ∃ a,
    Hops (SubgraphArc sl pols dir edgeF nodeF now) i start a ∧ ∃ b, Follows sl pols dir edgeF now a e b ∧ passes sl nodeF b = true
  nodes : ∃ nodeIds : List ℕ, nodeIds.Nodup ∧ (∀ v, v ∈ nodeIds ↔ v ∈ st.visitedNodes ∧ (sl.findNode v).isSome) ∧
    st.nodeRecords.map some = nodeIds.map sl.findNode
  edges : ∃ edgeIds : List ℕ, edgeIds.Nodup ∧ (∀ e, e ∈ edgeIds ↔ e ∈ st.collectedEdgeIds) ∧
    st.edgeRecords.map some = edgeIds.map sl.findEdge

variable {sl pols dir edgeF nodeF now start} {v : ℕ}

theorem selected_iff : selected sl pols nodeF v = true ↔
    passes sl nodeF v = true ∧ excludedNode sl pols v = false ∧ (sl.findNode v).isSome := by
  rw [selected, passes, selected, excludedNode]
  cases hfind : sl.findNode v with
  | none => simp
  | some node =>
    have hpl : isUnconstrained nodeF = true → nodeLabelFilterMatches nodeF node.labelIds = true := by
      intro hunco
      cases nodeF with
      | unconstrained => rfl
      | _ => cases hunco
    cases hm' : nodeLabelFilterMatches nodeF node.labelIds with
    | true => simp [hm']
    | false =>
      have hcon : isUnconstrained nodeF = false := by
        rw [← Bool.not_eq_true]
        intro hunco
        rw [hpl hunco] at hm'
        cases hm'
      simp [hm', hcon]

theorem getNode_isSome : (getNode sl pols v).isSome = true ↔ (sl.findNode v).isSome ∧ excludedNode sl pols v = false := by
  rw [getNode, excludedNode]
  cases hfind : sl.findNode v with
  | none => simp
  | some node => simp [Option.filter_some, Option.isSome_iff_ne_none]

theorem getNode_findNode {node : NodeRecord} (h : getNode sl pols v = some node) : sl.findNode v = some node :=
  (Option.filter_eq_some_iff.mp h).1

/-- The neighbours read for a frontier are what is followed from it. -/
theorem exists_entry (h : Stored sl) {frontier : List ℕ} (p : ℕ → ℕ → Prop) :
    (∃ entry ∈ frontier.flatMap (entriesOf (neighborsBatchResolved sl pols dir edgeF now frontier)), p entry.edgeId entry.nodeId) ↔
      ∃ a ∈ frontier, ∃ e b, Follows sl pols dir edgeF now a e b ∧ p e b := by
  constructor
  · rintro ⟨entry, hent, hp⟩
    obtain ⟨a, ha, hent⟩ := mem_flatMap.mp hent
    obtain ⟨-, hfnd, hvd, hkept⟩ := (mem_entriesOf h).mp hent
    exact ⟨a, ha, entry.edgeId, entry.nodeId, ⟨entry, hfnd, rfl, hvd, hkept⟩, hp⟩
  · rintro ⟨a, ha, e, b, ⟨entry, hfnd, rfl, hvd, hkept⟩, hp⟩
    obtain rfl := neighborFound_edgeId h hfnd
    exact ⟨entry, mem_flatMap.mpr ⟨a, ha, (mem_entriesOf h).mpr ⟨ha, hfnd, hvd, hkept⟩⟩, hp⟩

section
variable (h : sl.WellFormed)
include h

/-- The nodes that pass among the new ones of a level. -/
theorem mem_eligible {newNodeIds : List ℕ} {v : ℕ} :
    v ∈ (if !isUnconstrained nodeF then filterNodeIdsByResolvedLabelFilter sl none nodeF newNodeIds else newNodeIds) ↔
      v ∈ newNodeIds ∧ passes sl nodeF v = true := by
  cases hpl : isUnconstrained nodeF with
  | true => simp [passes, hpl]
  | false =>
    have hmem := @mem_filterNodeIds sl none h nodeF newNodeIds v
    rw [hpl] at hmem
    simpa [passes, hpl] using hmem

theorem nodup_eligible {newNodeIds : List ℕ} (hnd : newNodeIds.Nodup) :
    (if !isUnconstrained nodeF then filterNodeIdsByResolvedLabelFilter sl none nodeF newNodeIds
      else newNodeIds).Nodup := by
  split
  · exact nodup_filterNodeIds h
  · exact hnd

theorem getNodes_eq (nodeIds : List ℕ) : getNodes sl pols nodeIds = nodeIds.map (getNode sl pols) := by
  rw [getNodes, h.findNodes, map_map]
  apply map_congr_left
  intro v _
  rw [Function.comp_apply, getNode, h.findNode]

theorem fetched_eq (nodeIds : List ℕ) :
    ((nodeIds.zip (getNodes sl pols nodeIds)).filterMap fun entry => entry.2.map fun _ => entry.1) =
        nodeIds.filter (fun v => (getNode sl pols v).isSome) ∧
      ((nodeIds.zip (getNodes sl pols nodeIds)).filterMap Prod.snd).map some =
        (nodeIds.filter fun v => (getNode sl pols v).isSome).map sl.findNode := by
  rw [getNodes_eq h, ← map_prod_left_eq_zip, filterMap_map, filterMap_map]
  induction nodeIds with
  | nil => exact ⟨rfl, rfl⟩
  | cons v nodeIds ih =>
    obtain ⟨hids, hrecs⟩ := ih
    cases hget : getNode sl pols v with
    | none => simpa [hget] using ⟨hids, hrecs⟩
    | some node =>
      have hfind := getNode_findNode hget
      simpa [hget, hfind] using ⟨hids, hrecs⟩

theorem fetched_edges {edgeIds : List ℕ} (hvis : ∀ e ∈ edgeIds, (sl.findEdge e).isSome) :
    ((sl.findEdges edgeIds).reduceOption).map some = edgeIds.map sl.findEdge := by
  rw [h.findEdges, show visible sl.edgeLayers = sl.findEdge from funext fun id => (h.findEdge id).symm]
  induction edgeIds with
  | nil => rfl
  | cons e edgeIds ih =>
    obtain ⟨edge, hedge⟩ := Option.isSome_iff_exists.mp (hvis e mem_cons_self)
    have hrest := ih fun other hoth => hvis other (mem_cons_of_mem _ hoth)
    rw [map_cons, hedge]
    exact congrArg (some edge :: ·) hrest

end

theorem follows_visible (h : Stored sl) (hends : EndsKept sl) {a e b : ℕ}
    (hfol : Follows sl pols dir edgeF now a e b) :
    ∃ edge, sl.findEdge e = some edge ∧ Joins dir edge a b := by
  obtain ⟨r, hfnd, rfl, -⟩ := hfol
  obtain ⟨edge, hedge, hjn⟩ := neighborFound_visible h hends hfnd
  exact ⟨edge, (h.wellFormed.findEdge e).trans hedge, hjn⟩

variable {depth : ℕ}

theorem hops_le {arc : ℕ → ℕ → ℕ → Prop} {vis : ℕ → Prop} {frontier : List ℕ} (hball : Ball arc start depth vis frontier)
    {a : ℕ} (hvis : vis a) : (∃ i < depth, Hops arc i start a) ∨ a ∈ frontier := by
  obtain ⟨i, hi, hops⟩ := (hball.visited a).mp hvis
  obtain ⟨j, hj, hnear⟩ := exists_nearest hops
  obtain hlt | rfl : j < depth ∨ j = depth := by omega
  · exact Or.inl ⟨j, hlt, hnear.1⟩
  · exact Or.inr ((hball.frontier a).mpr hnear)

variable {st : SubgraphState}

/-- One level further out. -/
theorem Leveled.next (h : Stored sl) (hends : EndsKept sl)
    (hst : Leveled sl pols dir edgeF nodeF now start depth st) :
    Leveled sl pols dir edgeF nodeF now start (depth + 1)
      (expandLevel sl pols dir edgeF nodeF now st) := by
  have hfnd := @found_level st.visitedNodes st.blockedNodes st.collectedEdgeIds
    (st.frontier.flatMap (entriesOf (neighborsBatchResolved sl pols dir edgeF now st.frontier)))
  have hreach : ∀ p : ℕ → ℕ → Prop, _ := @exists_entry sl pols dir edgeF now h st.frontier
  rw [expandLevel]
  generalize hscan : (st.frontier.flatMap (entriesOf (neighborsBatchResolved sl pols dir edgeF now
    st.frontier))).foldl (scanNeighbor st.visitedNodes st.blockedNodes) ⟨⟨st.collectedEdgeIds, []⟩, [], []⟩ = scan at hfnd ⊢
  have hel := fun v => @mem_eligible sl nodeF h.wellFormed scan.newNodeIds v
  have hdist := @nodup_eligible sl nodeF h.wellFormed scan.newNodeIds hfnd.nodup
  generalize hpass : (if !isUnconstrained nodeF then filterNodeIdsByResolvedLabelFilter sl none nodeF scan.newNodeIds
    else scan.newNodeIds) = eligible at hel hdist ⊢
  obtain ⟨hsince, hcoll⟩ := collect_candidates eligible scan.candidateEdges hfnd.since
  generalize heds : scan.candidateEdges.foldl (fun edges c => if c.2 ∈ eligible then collectEdge edges c.1 else edges)
    scan.edges = edges at hsince hcoll ⊢
  obtain ⟨hfron, hrecs⟩ := @fetched_eq sl pols h.wellFormed eligible
  -- the edges followed to nodes that pass
  have hmem : ∀ e, e ∈ edges.collectedEdgeIds ↔ e ∈ st.collectedEdgeIds ∨ ∃ a ∈ st.frontier, ∃ b,
      Follows sl pols dir edgeF now a e b ∧ passes sl nodeF b = true := by
    intro e
    rw [hcoll, hfnd.edges, hreach fun edgeId nodeId => edgeId = e ∧ nodeId ∈ st.visitedNodes]
    constructor
    · rintro ((hold | ⟨a, ha, _, b, hfol, rfl, hb⟩) | ⟨⟨_, b⟩, hcand, rfl, hb⟩)
      · exact Or.inl hold
      · exact Or.inr ⟨a, ha, b, hfol, hst.visited b hb⟩
      · obtain ⟨-, -, hent⟩ := (hfnd.candidates _ _).mp hcand
        obtain ⟨a, ha, _, other, hfol, rfl, rfl⟩ := (hreach fun edgeId nodeId => edgeId = _ ∧ nodeId = b).mp hent
        exact Or.inr ⟨a, ha, other, hfol, ((hel other).mp hb).2⟩
    · rintro (hold | ⟨a, ha, b, hfol, hb⟩)
      · exact Or.inl (Or.inl hold)
      · by_cases hvis : b ∈ st.visitedNodes
        · exact Or.inl (Or.inr ⟨a, ha, e, b, hfol, rfl, hvis⟩)
        · have hfree : b ∉ st.blockedNodes := fun hblk => by
            rw [hst.blocked b hblk] at hb
            cases hb
          refine Or.inr ⟨(e, b), (hfnd.candidates e b).mpr ⟨hvis, hfree, ?_⟩, rfl, (hel b).mpr ⟨?_, hb⟩⟩
          · exact (hreach fun edgeId nodeId => edgeId = e ∧ nodeId = b).mpr ⟨a, ha, e, b, hfol, rfl, rfl⟩
          · exact (hfnd.nodes b).mpr ⟨hvis, hfree, (hreach fun _ nodeId => nodeId = b).mpr ⟨a, ha, e, b, hfol, rfl⟩⟩
  have hkept : ∀ v ∈ eligible, excludedNode sl pols v = false := by
    intro v hv
    obtain ⟨-, -, hent⟩ := (hfnd.nodes v).mp ((hel v).mp hv).1
    obtain ⟨a, -, _, _, hfol, rfl⟩ := (hreach fun _ nodeId => nodeId = v).mp hent
    obtain ⟨-, -, -, -, hkept⟩ := hfol
    exact hkept
  have hnext : ∀ v, v ∈ eligible.filter (fun v => (getNode sl pols v).isSome) ↔ v ∈ eligible ∧ (sl.findNode v).isSome := by
    intro v
    rw [mem_filter, getNode_isSome]
    exact ⟨fun hv => ⟨hv.1, hv.2.1⟩, fun hv => ⟨hv.1, hv.2, hkept v hv.1⟩⟩
  have hgrown := @Ball.grow _ _ _ _ _ _ _ hst.ball (eligible.filter fun v => (getNode sl pols v).isSome) (by
    intro v
    rw [hnext, hel, hfnd.nodes, hreach fun _ nodeId => nodeId = v]
    constructor
    · rintro ⟨⟨⟨hvis, -, a, ha, e, _, hfol, rfl⟩, hpasses⟩, hrec⟩
      obtain ⟨-, -, -, -, hexc⟩ := id hfol
      exact ⟨fun hold => hvis hold.1, a, ha, e, hfol, selected_iff.mpr ⟨hpasses, hexc, hrec⟩⟩
    · rintro ⟨hnew, a, ha, e, hfol, hsel⟩
      obtain ⟨hpasses, -, hrec⟩ := selected_iff.mp hsel
      refine ⟨⟨⟨fun hvis => hnew ⟨hvis, hrec⟩, fun hblk => ?_, a, ha, e, v, hfol, rfl⟩, hpasses⟩, hrec⟩
      rw [hst.blocked v hblk] at hpasses
      cases hpasses)
  have hvis : ∀ v, v ∈ st.visitedNodes ∪ eligible.toFinset ∧ (sl.findNode v).isSome = true ↔
      (v ∈ st.visitedNodes ∧ (sl.findNode v).isSome = true) ∨ v ∈ eligible.filter fun v => (getNode sl pols v).isSome := by
    intro v
    rw [hnext, Finset.mem_union, mem_toFinset, or_and_right]
  refine ⟨?_, fun v hv => ?_, fun v hv => ?_, fun e => ?_, ?_, ?_⟩
  · rw [hfron]
    refine ⟨fun v => ?_, hgrown.frontier⟩
    rw [hvis]
    exact hgrown.visited v
  · obtain hold | hnew := Finset.mem_union.mp hv
    · exact hst.visited v hold
    · exact ((hel v).mp (mem_toFinset.mp hnew)).2
  · dsimp only at hv
    split at hv
    · obtain hold | hnew := Finset.mem_union.mp hv
      · exact hst.blocked v hold
      · obtain ⟨hmbr, hout⟩ := mem_filter.mp (mem_toFinset.mp hnew)
        have hnot : v ∉ eligible := by simpa using hout
        rw [← Bool.not_eq_true]
        exact fun hpasses => hnot ((hel v).mpr ⟨hmbr, hpasses⟩)
    · exact hst.blocked v hv
  · dsimp only
    rw [hmem, hst.collected]
    constructor
    · rintro (⟨i, hi, hold⟩ | ⟨a, ha, hrest⟩)
      · exact ⟨i, by omega, hold⟩
      · exact ⟨depth, by omega, a, ((hst.ball.frontier a).mp ha).1, hrest⟩
    · rintro ⟨i, hi, a, hops, hrest⟩
      obtain ⟨j, hj, hnear⟩ | ha := hops_le hst.ball ((hst.ball.visited a).mpr ⟨i, by omega, hops⟩)
      · exact Or.inl ⟨j, hj, a, hnear, hrest⟩
      · exact Or.inr ⟨a, ha, hrest⟩
  · obtain ⟨nodeIds, hnd, hids, hrecd⟩ := hst.nodes
    refine ⟨nodeIds ++ eligible.filter fun v => (getNode sl pols v).isSome, ?_, fun v => ?_, ?_⟩
    · refine Nodup.append hnd (hdist.filter _) fun v hold hnew => ?_
      have hfr := (hfnd.nodes v).mp ((hel v).mp (mem_filter.mp hnew).1).1
      exact hfr.1 ((hids v).mp hold).1
    · rw [mem_append, hids]
      exact (hvis v).symm
    · rw [map_append, map_append, hrecd, hrecs]
  · obtain ⟨edgeIds, hnd, hids, hrecd⟩ := hst.edges
    refine ⟨edgeIds ++ edges.newEdgeIds, ?_, fun e => ?_, ?_⟩
    · refine Nodup.append hnd hsince.nodup fun e hold hnew => ?_
      exact ((hsince.mem e).mp hnew).2 ((hids e).mp hold)
    · rw [mem_append, hids, hsince.mem]
      constructor
      · rintro (hold | hnew)
        · exact hsince.kept hold
        · exact hnew.1
      · intro hall
        by_cases hold : e ∈ st.collectedEdgeIds
        · exact Or.inl hold
        · exact Or.inr ⟨hall, hold⟩
    · have hseen : ∀ e ∈ edges.newEdgeIds, (sl.findEdge e).isSome := by
        intro e he
        obtain ⟨hin, hout⟩ := (hsince.mem e).mp he
        obtain hold | ⟨a, -, b, hfol, -⟩ := (hmem e).mp hin
        · exact absurd hold hout
        · obtain ⟨edge, hedge, -⟩ := follows_visible h hends hfol
          rw [hedge]
          rfl
      rw [map_append, map_append, hrecd, fetched_edges h.wellFormed hseen]

/-- Nothing is found beyond an empty level. -/
theorem Leveled.stop
    (hst : Leveled sl pols dir edgeF nodeF now start depth st) (hemp : st.frontier = [])
    (levels : ℕ) : Leveled sl pols dir edgeF nodeF now start (depth + levels) st := by
  have hball := hst.ball
  rw [hemp] at hball
  have hnear : ∀ i v, Hops (SubgraphArc sl pols dir edgeF nodeF now) i start v →
      ∃ j < depth, Hops (SubgraphArc sl pols dir edgeF nodeF now) j start v := by
    intro i v hops
    obtain hless | hrim := hops_le hball (hball.exhausted hops)
    · exact hless
    · exact absurd hrim not_mem_nil
  refine { hst with ball := ⟨fun v => ?_, fun v => ?_⟩, collected := fun e => ?_ }
  · rw [hst.ball.visited]
    constructor
    · rintro ⟨i, hi, hops⟩
      exact ⟨i, by omega, hops⟩
    · rintro ⟨i, -, hops⟩
      obtain ⟨j, hj, hless⟩ := hnear i v hops
      exact ⟨j, by omega, hless⟩
  · rw [hemp]
    constructor
    · exact fun hnil => absurd hnil not_mem_nil
    · intro hnearest
      obtain ⟨j, hj, hless⟩ := hnear _ v hnearest.1
      exact absurd hless (hnearest.2 j (by omega))
  · rw [hst.collected]
    constructor
    · rintro ⟨i, hi, hrest⟩
      exact ⟨i, by omega, hrest⟩
    · rintro ⟨i, -, a, hops, hrest⟩
      obtain ⟨j, hj, hless⟩ := hnear i a hops
      exact ⟨j, hj, a, hless, hrest⟩

theorem leveled_expandLevels (h : Stored sl) (hends : EndsKept sl) (levels : ℕ) {depth : ℕ} {st : SubgraphState}
    (hst : Leveled sl pols dir edgeF nodeF now start depth st) :
    Leveled sl pols dir edgeF nodeF now start (depth + levels)
      (expandLevels sl pols dir edgeF nodeF now levels st) := by
  induction levels generalizing depth st with
  | zero => exact hst
  | succ levels ih =>
    have hnext := hst.next h hends
    rw [expandLevels, ← Nat.add_assoc, Nat.add_right_comm]
    split
    · rename_i hemp
      exact hnext.stop (isEmpty_iff.mp hemp) levels
    · exact ih hnext

theorem leveled_start {startNode : NodeRecord} (hfind : sl.findNode start = some startNode)
    (hsel : selected sl pols nodeF start = true) :
    Leveled sl pols dir edgeF nodeF now start 0
      ⟨{start}, ∅, ∅, [startNode], [], [start]⟩ := by
  have hball := ball_start (SubgraphArc sl pols dir edgeF nodeF now) start
  have honly : ∀ v, v ∈ ({start} : Finset ℕ) ∧ (sl.findNode v).isSome = true ↔ v = start := by
    intro v
    rw [Finset.mem_singleton]
    exact ⟨And.left, fun heq => ⟨heq, by rw [heq, hfind]; rfl⟩⟩
  refine ⟨⟨fun v => (honly v).trans (hball.visited v), hball.frontier⟩, fun v hv => ?_, fun v hv => ?_, fun e => ?_, ?_, ?_⟩
  · rw [Finset.mem_singleton.mp hv]
    exact (selected_iff.mp hsel).1
  · exact absurd hv (Finset.notMem_empty v)
  · simp
  · refine ⟨[start], nodup_singleton _, fun v => ?_, ?_⟩
    · rw [honly, mem_singleton]
    · rw [map_singleton, map_singleton, hfind]
  · exact ⟨[], nodup_nil, fun e => by simp, rfl⟩

end

section
variable (sl : SourceList) (pols : Option PrecomputedPruneCutoffs) (dir : Direction) (edgeF : Option (List ℕ))
  (nodeF : ResolvedNodeLabelFilter) (now : ℤ) (start maxDepth : ℕ)

/-- A node is reached within some hops through nodes that pass the filter. -/
def Reached (depth nodeId : ℕ) : Prop :=
  selected sl pols nodeF start = true ∧ ∃ i ≤ depth, Hops (SubgraphArc sl pols dir edgeF nodeF now) i start nodeId

/-- The nodes reached, each once; the edges followed from nodes above the last level to nodes of the subgraph, each once; and no edge
without its ends. -/
structure IsSubgraph (sub : Subgraph) : Prop where
  nodes : ∃ nodeIds : List ℕ, nodeIds.Nodup ∧ sub.nodes.map some = nodeIds.map sl.findNode ∧ ∀ v, v ∈ nodeIds ↔
    Reached sl pols dir edgeF nodeF now start maxDepth v
  edges : ∃ edgeIds : List ℕ, edgeIds.Nodup ∧ sub.edges.map some = edgeIds.map sl.findEdge ∧ ∀ e, e ∈ edgeIds ↔ ∃ a b depth,
    depth < maxDepth ∧ Reached sl pols dir edgeF nodeF now start depth a ∧ Follows sl pols dir edgeF now a e b ∧
      Reached sl pols dir edgeF nodeF now start maxDepth b
  closed : ∀ edge ∈ sub.edges, ∀ v ∈ endpoints edge,
    Reached sl pols dir edgeF nodeF now start maxDepth v

/-- No edge is followed from a node above the last level to a node without a record. -/
def NoStrayEdges : Prop :=
  ∀ a e b depth, depth < maxDepth → Reached sl pols dir edgeF nodeF now start depth a →
    Follows sl pols dir edgeF now a e b → (sl.findNode b).isSome

variable {sl pols dir edgeF nodeF now start maxDepth}

theorem getNode_selected {startNode : NodeRecord} (hget : getNode sl pols start = some startNode) :
    selected sl pols nodeF start = nodeLabelFilterMatches nodeF startNode.labelIds := by
  obtain ⟨hfind, hkept⟩ := Option.filter_eq_some_iff.mp hget
  rw [selected, hfind, Option.any_some, hkept, Bool.true_and]

theorem Reached.selected {depth v : ℕ}
    (h : Reached sl pols dir edgeF nodeF now start depth v) :
    selected sl pols nodeF v = true := by
  obtain ⟨hst, i, -, hops⟩ := h
  cases i with
  | zero => exact hops_zero.mp hops ▸ hst
  | succ i =>
    obtain ⟨_, -, _, harc⟩ := hops_succ.mp hops
    exact harc.2

theorem Reached.next {depth a e b : ℕ}
    (h : Reached sl pols dir edgeF nodeF now start depth a) (hdep : depth < maxDepth)
    (hfol : Follows sl pols dir edgeF now a e b)
    (hsel : NeighborBatches.selected sl pols nodeF b = true) :
    Reached sl pols dir edgeF nodeF now start maxDepth b := by
  obtain ⟨hst, i, hi, hops⟩ := h
  exact ⟨hst, i + 1, by omega, hops_succ.mpr ⟨a, hops, e, hfol, hsel⟩⟩

/-- What the code extracts: the nodes reached, and the edges followed to nodes that pass. -/
structure Extracts (sl : SourceList) (pols : Option PrecomputedPruneCutoffs) (dir : Direction)
    (edgeF : Option (List ℕ)) (nodeF : ResolvedNodeLabelFilter) (now : ℤ) (start maxDepth : ℕ)
    (sub : Subgraph) : Prop where
  nodes : ∃ nodeIds : List ℕ, nodeIds.Nodup ∧ sub.nodes.map some = nodeIds.map sl.findNode ∧ ∀ v, v ∈ nodeIds ↔
    Reached sl pols dir edgeF nodeF now start maxDepth v
  edges : ∃ edgeIds : List ℕ, edgeIds.Nodup ∧ sub.edges.map some = edgeIds.map sl.findEdge ∧ ∀ e, e ∈ edgeIds ↔ ∃ a b depth,
    depth < maxDepth ∧ Reached sl pols dir edgeF nodeF now start depth a ∧ Follows sl pols dir edgeF now a e b ∧ passes sl nodeF b = true

theorem extracts_nothing (hhid : selected sl pols nodeF start = false) : Extracts sl pols dir edgeF nodeF now start maxDepth ⟨[], []⟩ := by
  have hnot : ∀ depth v, ¬Reached sl pols dir edgeF nodeF now start depth v := by
    rintro depth v ⟨hst, -⟩
    rw [hhid] at hst
    cases hst
  refine ⟨⟨[], nodup_nil, rfl, fun v => ?_⟩, ⟨[], nodup_nil, rfl, fun e => ?_⟩⟩
  · exact ⟨fun hnil => absurd hnil not_mem_nil, fun hrch => absurd hrch (hnot _ v)⟩
  · refine ⟨fun hnil => absurd hnil not_mem_nil, ?_⟩
    rintro ⟨a, b, depth, -, hrch, -⟩
    exact absurd hrch (hnot _ a)

theorem extracts_extractSubgraph (h : Stored sl) (hends : EndsKept sl) : Extracts sl pols dir edgeF nodeF now start maxDepth
      (extractSubgraph sl pols dir edgeF nodeF now start maxDepth) := by
  rw [extractSubgraph]
  split
  · rename_i hemp
    apply extracts_nothing
    cases nodeF with
    | empty mode unknownLabelCount =>
      rw [selected]
      cases sl.findNode start <;> simp [nodeLabelFilterMatches]
    | _ => cases hemp
  · split
    · rename_i hget
      apply extracts_nothing
      rw [Bool.eq_false_iff]
      intro hsel
      obtain ⟨-, hkept, hrec⟩ := selected_iff.mp hsel
      have hsome := getNode_isSome.mpr ⟨hrec, hkept⟩
      rw [hget] at hsome
      cases hsome
    · rename_i startNode hget
      have hmat := @getNode_selected sl pols nodeF start startNode hget
      split
      · rename_i hfails
        apply extracts_nothing
        rw [hmat]
        simpa using hfails
      · rename_i hfits
        have hsel : selected sl pols nodeF start = true := by
          rw [hmat]
          simpa using hfits
        split
        · rename_i hnola
          obtain rfl : edgeF = some [] := by
            cases edgeF with
            | none => cases hnola
            | some labelIds => rw [isEmpty_iff.mp hnola]
          have hnone : ∀ a e b, ¬Follows sl pols dir (some []) now a e b := by
            rintro a e b ⟨r, hfnd, -⟩
            exact not_found_of_empty hfnd
          refine ⟨⟨[start], nodup_singleton _, ?_, fun v => ?_⟩, ⟨[], nodup_nil, rfl, fun e => ?_⟩⟩
          · rw [map_singleton, map_singleton, getNode_findNode hget]
          · rw [mem_singleton]
            constructor
            · rintro rfl
              exact ⟨hsel, 0, Nat.zero_le _, hops_zero.mpr rfl⟩
            · rintro ⟨-, i, -, hops⟩
              cases i with
              | zero => exact (hops_zero.mp hops).symm
              | succ i =>
                obtain ⟨a, -, e, harc⟩ := hops_succ.mp hops
                exact absurd harc.1 (hnone a e v)
          · refine ⟨fun hnil => absurd hnil not_mem_nil, ?_⟩
            rintro ⟨a, b, -, -, -, hfol, -⟩
            exact absurd hfol (hnone a e b)
        · have hleve := @leveled_expandLevels sl pols dir edgeF nodeF now start h hends
            maxDepth _ _ (leveled_start (getNode_findNode hget) hsel)
          rw [Nat.zero_add] at hleve
          obtain ⟨nodeIds, hnos, hmemNodes, hnodeRecords⟩ := hleve.nodes
          obtain ⟨edgeIds, heds, hmemEdges, hedgeRecords⟩ := hleve.edges
          refine ⟨⟨nodeIds, hnos, hnodeRecords, fun v => ?_⟩, ⟨edgeIds, heds, hedgeRecords, fun e => ?_⟩⟩
          · rw [hmemNodes, hleve.ball.visited]
            exact ⟨fun hreach => ⟨hsel, hreach⟩, And.right⟩
          · rw [hmemEdges, hleve.collected]
            constructor
            · rintro ⟨i, hi, a, hops, b, hfol, hpass⟩
              exact ⟨a, b, i, hi, ⟨hsel, i, le_rfl, hops⟩, hfol, hpass⟩
            · rintro ⟨a, b, depth, hdep, ⟨-, i, hi, hops⟩, hfol, hpass⟩
              exact ⟨i, by omega, a, hops, b, hfol, hpass⟩

theorem mem_of_map_some {ρ : Type} {records : List ρ} {ids : List ℕ} {find : ℕ → Option ρ} (h : records.map some = ids.map find)
    {r : ρ} : r ∈ records ↔ ∃ id ∈ ids, find id = some r := by
  rw [← mem_map, ← h, mem_map]
  simp

end

/-- Node 2 has no record. -/
def strayEdge : SourceList := graphSources [CascadingDeletes.person 1 "a"] [edgeBetween 1 1 2]

end OverGraph.Subgraphs
