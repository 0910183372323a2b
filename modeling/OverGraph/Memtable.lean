import OverGraph.Records
import OverGraph.VersionedSlots

/-!
# The memtable

One in-memory layer: versioned cells for the records and for every derived index.
The two-level maps of the program are keyed here by pairs, and the ordered copies of
the adjacency and edge-label maps, which always receive the same writes as the
unordered ones, are not kept twice. Reading at the largest sequence number is reading
the heads. Secondary-index state and byte accounting are not part of this layer.
-/

namespace OverGraph.Memtable
open AssocMaps VersionedSlots Records

inductive RecordState (ρ : Type*) where
  | live (value : ρ)
  | tombstone (entry : TombstoneEntry)

def RecordState.live? {ρ : Type*} : RecordState ρ → Option ρ
  | .live value => some value
  | .tombstone _ => none

def RecordState.tombstone? {ρ : Type*} : RecordState ρ → Option TombstoneEntry
  | .live _ => none
  | .tombstone entry => some entry

structure AdjEntry where
  edgeId : ℕ
  labelId : ℕ
  neighborId : ℕ
  weight : F32
  validFrom : ℤ
  validTo : ℤ

abbrev RecordMap (ρ : Type) := Map ℕ (VersionedSlot (RecordState ρ))
abbrev LookupMap (κ : Type) := Map κ (VersionedSlot (Option ℕ))
abbrev MembershipMap (κ τ : Type) := Map κ (VersionedSlot (Option τ))

structure MemtableState where
  liveNodeCount : ℕ
  liveEdgeCount : ℕ
  nodes : RecordMap NodeRecord
  edges : RecordMap EdgeRecord
  nodeTombstones : MembershipMap ℕ Unit
  edgeTombstones : MembershipMap ℕ Unit
  nodeKeyIndex : LookupMap (ℕ × String)
  edgeTripleIndex : LookupMap (ℕ × ℕ × ℕ)
  adjOut : MembershipMap (ℕ × ℕ) AdjEntry
  adjIn : MembershipMap (ℕ × ℕ) AdjEntry
  orderedEdgeIds : MembershipMap ℕ Unit
  labelNodeIndex : MembershipMap (ℕ × ℕ) Unit
  labelEdgeIndex : MembershipMap (ℕ × ℕ) Unit
  timeNodeIndex : MembershipMap (ℕ × ℤ × ℕ) Unit

def memtableIsEmpty (m : MemtableState) : Bool := m.nodes.keys.isEmpty && m.edges.keys.isEmpty

namespace MemtableState

def empty : MemtableState := ⟨0, 0, ∅, ∅, ∅, ∅, ∅, ∅, ∅, ∅, ∅, ∅, ∅, ∅⟩

def presence (present : Bool) : Option Unit := if present then some () else none

/-- A membership that was never recorded is not recorded as absent either. -/
def setSparseMembershipSlot (m : MembershipMap ℕ Unit) (k : ℕ) (present : Bool) (q : ℕ) : MembershipMap ℕ Unit :=
  if (m.lookup k).isSome || present then setSlot m k (presence present) q else m

variable (m : MemtableState)

def setNodeState (id : ℕ) (state : RecordState NodeRecord) (q : ℕ) : MemtableState := { m with nodes := setSlot m.nodes id state q }

def setEdgeState (id : ℕ) (state : RecordState EdgeRecord) (q : ℕ) : MemtableState := { m with edges := setSlot m.edges id state q }

def setNodeKey (labelId : ℕ) (key : String) (value : Option ℕ) (q : ℕ) : MemtableState :=
  { m with nodeKeyIndex := setSlot m.nodeKeyIndex (labelId, key) value q }

def setEdgeTriple (triple : ℕ × ℕ × ℕ) (value : Option ℕ) (q : ℕ) : MemtableState :=
  { m with edgeTripleIndex := setSlot m.edgeTripleIndex triple value q }

def setAdjOutSlot (owner member : ℕ) (value : Option AdjEntry) (q : ℕ) : MemtableState :=
  { m with adjOut := setSlot m.adjOut (owner, member) value q }

def setAdjInSlot (owner member : ℕ) (value : Option AdjEntry) (q : ℕ) : MemtableState :=
  { m with adjIn := setSlot m.adjIn (owner, member) value q }

def setNodeLabelSlot (labelId id : ℕ) (present : Bool) (q : ℕ) : MemtableState :=
  { m with labelNodeIndex := setSlot m.labelNodeIndex (labelId, id) (presence present) q }

def setEdgeLabelSlot (labelId id : ℕ) (present : Bool) (q : ℕ) : MemtableState :=
  { m with labelEdgeIndex := setSlot m.labelEdgeIndex (labelId, id) (presence present) q }

def setOrderedEdgeSlot (id : ℕ) (present : Bool) (q : ℕ) : MemtableState :=
  { m with orderedEdgeIds := setSlot m.orderedEdgeIds id (presence present) q }

def setTimeSlot (key : ℕ × ℤ × ℕ) (present : Bool) (q : ℕ) : MemtableState :=
  { m with timeNodeIndex := setSlot m.timeNodeIndex key (presence present) q }

def setNodeTombstoneSlot (id : ℕ) (present : Bool) (q : ℕ) : MemtableState :=
  { m with nodeTombstones := setSparseMembershipSlot m.nodeTombstones id present q }

def setEdgeTombstoneSlot (id : ℕ) (present : Bool) (q : ℕ) : MemtableState :=
  { m with edgeTombstones := setSparseMembershipSlot m.edgeTombstones id present q }

def currentNode (id : ℕ) : Option NodeRecord := (headAt m.nodes id).bind RecordState.live?

def currentEdge (id : ℕ) : Option EdgeRecord := (headAt m.edges id).bind RecordState.live?

def currentEdgeTripleId (triple : ℕ × ℕ × ℕ) : Option ℕ := (headAt m.edgeTripleIndex triple).join

def nodeDeleted (id : ℕ) : Bool := (headAt m.nodeTombstones id).join.isSome

def edgeDeleted (id : ℕ) : Bool := (headAt m.edgeTombstones id).join.isSome

def nodeStateAt (id s : ℕ) : Option (RecordState NodeRecord) := (m.nodes.lookup id).bind (·.readAt s)

def edgeStateAt (id s : ℕ) : Option (RecordState EdgeRecord) := (m.edges.lookup id).bind (·.readAt s)

def getNodeAt (id s : ℕ) : Option NodeRecord := (m.nodeStateAt id s).bind RecordState.live?

def getEdgeAt (id s : ℕ) : Option EdgeRecord := (m.edgeStateAt id s).bind RecordState.live?

def isNodeDeletedAt (id s : ℕ) : Bool := ((m.nodeTombstones.lookup id).bind (·.readAt s)).join.isSome

def isEdgeDeletedAt (id s : ℕ) : Bool := ((m.edgeTombstones.lookup id).bind (·.readAt s)).join.isSome

def nodeKeySlotAt (labelId : ℕ) (key : String) (s : ℕ) : Option ℕ := ((m.nodeKeyIndex.lookup (labelId, key)).bind (·.readAt s)).join

def nodeByKeyAt (labelId : ℕ) (key : String) (s : ℕ) : Option NodeRecord := (m.nodeKeySlotAt labelId key s).bind (m.getNodeAt · s)

def nodeIdByKeyAt (labelId : ℕ) (key : String) (s : ℕ) : Option ℕ :=
  (m.nodeKeySlotAt labelId key s).bind fun nodeId =>
    (m.getNodeAt nodeId s).bind fun node => if node.labelIds.contains labelId && node.key == key then some nodeId else none

def edgeTripleSlotAt (triple : ℕ × ℕ × ℕ) (s : ℕ) : Option ℕ := ((m.edgeTripleIndex.lookup triple).bind (·.readAt s)).join

def edgeByTripleAt (triple : ℕ × ℕ × ℕ) (s : ℕ) : Option EdgeRecord := (m.edgeTripleSlotAt triple s).bind (m.getEdgeAt · s)

variable {m}

/-- Withdraw the index entries of one label of the replaced version. -/
def retireNodeLabel (old node : NodeRecord) (q : ℕ) (m : MemtableState) (labelId : ℕ) : MemtableState :=
  let labelRemoved := !node.labelIds.contains labelId
  let m := if labelRemoved || old.key != node.key then m.setNodeKey labelId old.key none q else m
  let m := if labelRemoved then m.setNodeLabelSlot labelId old.id false q else m
  if labelRemoved || old.updatedAt != node.updatedAt then
    m.setTimeSlot (labelId, old.updatedAt, old.id) false q
  else m

/-- Enter one label of the new version into the indexes. -/
def enterNodeLabel (node : NodeRecord) (q : ℕ) (m : MemtableState) (labelId : ℕ) : MemtableState :=
  ((m.setNodeKey labelId node.key (some node.id) q).setNodeLabelSlot labelId node.id true q).setTimeSlot
    (labelId, node.updatedAt, node.id) true q

/-- Withdraw the index entries of one label of a deleted node. -/
def dropNodeLabel (node : NodeRecord) (q : ℕ) (m : MemtableState) (labelId : ℕ) : MemtableState :=
  ((m.setNodeKey labelId node.key none q).setNodeLabelSlot labelId node.id false q).setTimeSlot
    (labelId, node.updatedAt, node.id) false q

def applyUpsertNode (m : MemtableState) (node : NodeRecord) (q : ℕ) : MemtableState :=
  let oldNode := m.currentNode node.id
  let wasDeleted := m.nodeDeleted node.id
  let m := match oldNode with
    | some old => old.labelIds.labelIds.foldl (retireNodeLabel old node q) m
    | none => m
  let m := node.labelIds.labelIds.foldl (enterNodeLabel node q) m
  let m := if wasDeleted then m.setNodeTombstoneSlot node.id false q else m
  let m := m.setNodeState node.id (.live { node with lastWriteSeq := q }) q
  if oldNode.isSome then m else { m with liveNodeCount := m.liveNodeCount + 1 }

/-- Withdraw what the replaced version of an edge no longer has. -/
def retireEdge (old edge : EdgeRecord) (q : ℕ) (m : MemtableState) : MemtableState :=
  let m := if old.triple ≠ edge.triple ∧ m.currentEdgeTripleId old.triple = some old.id then
    m.setEdgeTriple old.triple none q else m
  let m := if old.labelId ≠ edge.labelId then m.setEdgeLabelSlot old.labelId old.id false q else m
  if old.source ≠ edge.source ∨ old.target ≠ edge.target then
    (m.setAdjOutSlot old.source old.id none q).setAdjInSlot old.target old.id none q
  else m

def adjEntry (edge : EdgeRecord) (nbr : ℕ) : AdjEntry := ⟨edge.id, edge.labelId, nbr, edge.weight, edge.validFrom, edge.validTo⟩

/-- An edge that keeps its triple does not take the triple's slot from another edge. -/
def shouldUpdateTriple (oldEdge : Option EdgeRecord) (edge : EdgeRecord) (current : Option ℕ) : Bool :=
  match oldEdge with
  | some old => if old.triple = edge.triple then
      (match current with | none => true | some id => id == edge.id) else true
  | none => true

def applyUpsertEdge (m : MemtableState) (edge : EdgeRecord) (q : ℕ) : MemtableState :=
  let oldEdge := m.currentEdge edge.id
  let wasDeleted := m.edgeDeleted edge.id
  let m := match oldEdge with
    | some old => retireEdge old edge q m
    | none => m
  let m := if shouldUpdateTriple oldEdge edge (m.currentEdgeTripleId edge.triple) then
    m.setEdgeTriple edge.triple (some edge.id) q else m
  let m := m.setAdjOutSlot edge.source edge.id (some (adjEntry edge edge.target)) q
  let m := m.setAdjInSlot edge.target edge.id (some (adjEntry edge edge.source)) q
  let m := m.setEdgeLabelSlot edge.labelId edge.id true q
  let m := m.setOrderedEdgeSlot edge.id true q
  let m := if wasDeleted then m.setEdgeTombstoneSlot edge.id false q else m
  let m := m.setEdgeState edge.id (.live { edge with lastWriteSeq := q }) q
  if oldEdge.isSome then m else { m with liveEdgeCount := m.liveEdgeCount + 1 }

def applyDeleteNode (m : MemtableState) (id : ℕ) (deletedAt : ℤ) (q : ℕ) : MemtableState :=
  let m := match m.currentNode id with
    | some node =>
      let m := node.labelIds.labelIds.foldl (dropNodeLabel node q) m
      { m with liveNodeCount := m.liveNodeCount - 1 }
    | none => m
  (m.setNodeState id (.tombstone ⟨deletedAt, q⟩) q).setNodeTombstoneSlot id true q

/-- Withdraw the index entries of a deleted edge. -/
def dropEdge (edge : EdgeRecord) (id q : ℕ) (m : MemtableState) : MemtableState :=
  let m := if m.currentEdgeTripleId edge.triple = some id then
    m.setEdgeTriple edge.triple none q else m
  let m := m.setEdgeLabelSlot edge.labelId edge.id false q
  let m := (m.setAdjOutSlot edge.source edge.id none q).setAdjInSlot edge.target edge.id none q
  m.setOrderedEdgeSlot edge.id false q

def applyDeleteEdge (m : MemtableState) (id : ℕ) (deletedAt : ℤ) (q : ℕ) : MemtableState :=
  let m := match m.currentEdge id with
    | some edge =>
      let m := dropEdge edge id q m
      { m with liveEdgeCount := m.liveEdgeCount - 1 }
    | none => m
  (m.setEdgeState id (.tombstone ⟨deletedAt, q⟩) q).setEdgeTombstoneSlot id true q

def applyOp (m : MemtableState) : SeqOp → MemtableState
  | (q, .upsertNode node) => m.applyUpsertNode node q
  | (q, .upsertEdge edge) => m.applyUpsertEdge edge q
  | (q, .deleteNode id deletedAt) => m.applyDeleteNode id deletedAt q
  | (q, .deleteEdge id deletedAt) => m.applyDeleteEdge id deletedAt q
  | (_, .ensureNodeLabel _ _) | (_, .ensureEdgeLabel _ _)
  | (_, .beginAtomicBatch _ _) | (_, .commitAtomicBatch _ _) => m

/-- The memtable that has received a run of operations, oldest first. -/
def ofOps (ops : List SeqOp) : MemtableState := ops.foldl applyOp empty

def liveNodes (m : MemtableState) : Map ℕ NodeRecord := filterMapEntries (fun _ slot => slot.current.live?) m.nodes

def liveEdges (m : MemtableState) : Map ℕ EdgeRecord := filterMapEntries (fun _ slot => slot.current.live?) m.edges

/-- The tombstone in force for a node, with the entry of its record cell. -/
def deletedNodes (m : MemtableState) : Map ℕ TombstoneEntry :=
  filterMapEntries (fun id slot => slot.current.bind fun _ => (headAt m.nodes id).bind RecordState.tombstone?) m.nodeTombstones

def deletedEdges (m : MemtableState) : Map ℕ TombstoneEntry :=
  filterMapEntries (fun id slot => slot.current.bind fun _ => (headAt m.edges id).bind RecordState.tombstone?) m.edgeTombstones

end MemtableState
end OverGraph.Memtable
