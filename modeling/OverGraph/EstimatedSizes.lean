import OverGraph.SecondaryEntries

/-!
# The size estimate of the memtable

Each write of a cell moves a running estimate by the difference of the cell's sizes before and
after, so that the estimate is always the sum over all cells. Tombstone flags are not counted.
-/

namespace OverGraph.EstimatedSizes
open AssocMaps VersionedSlots Records Memtable SecondaryEntries MemtableState IndexedMemtable List Option AList Function

def estimateSlot {τ : Type} (valueSize : τ → ℕ) (slot : VersionedSlot τ) : ℕ :=
  8 + valueSize slot.head.value + (slot.history.map fun version => 8 + valueSize version.value).sum

def estimateNodeRecord (node : NodeRecord) : ℕ :=
  120 + node.key.utf8ByteSize + node.props.keys.length * 80 + node.denseVector.elim 0 (·.length * 4) +
    node.sparseVector.elim 0 (·.length * 8)

def estimateEdgeRecord (edge : EdgeRecord) : ℕ := 100 + edge.props.keys.length * 80

def recordStateSize {ρ : Type} (recordSize : ρ → ℕ) : RecordState ρ → ℕ
  | .live value => recordSize value
  | .tombstone _ => 16

def estimateNodeRecordSlot : VersionedSlot (RecordState NodeRecord) → ℕ := estimateSlot (recordStateSize estimateNodeRecord)

def estimateEdgeRecordSlot : VersionedSlot (RecordState EdgeRecord) → ℕ := estimateSlot (recordStateSize estimateEdgeRecord)

def estimateLookupSlot : VersionedSlot (Option ℕ) → ℕ := estimateSlot fun _ => 16

def estimateMembershipSlot : VersionedSlot (Option Unit) → ℕ := estimateSlot fun _ => 8

def estimateAdjSlot : VersionedSlot (Option AdjEntry) → ℕ := estimateSlot fun _ => 48

def nodeFieldBytes : NodeIndexField → ℕ
  | .property key => key.utf8ByteSize
  | .metadata _ => 16

def edgeFieldBytes : EdgeIndexField → ℕ
  | .property key => key.utf8ByteSize
  | .metadata _ => 16

def fieldBytes : SecondaryIndexTarget → ℕ
  | .nodeProperty _ pkey | .edgeProperty _ pkey => pkey.utf8ByteSize
  | .nodeFieldIndex _ fields => (fields.map nodeFieldBytes).sum
  | .edgeFieldIndex _ fields => (fields.map edgeFieldBytes).sum

def estimateSecondaryDeclEntry (lastError : Option String) (entry : SecondaryIndexEntry) : ℕ :=
  96 + fieldBytes entry.target + lastError.elim 0 String.utf8ByteSize

def estimateSecondaryEqLookupEntry (pkey : String) (indexIds : List ℕ) : ℕ := 48 + pkey.utf8ByteSize + indexIds.length * 8

def estimateSecondaryRangeLookupEntry : String → List ℕ → ℕ := estimateSecondaryEqLookupEntry

def estimateSecondaryFieldLookupEntry (indexIds : List ℕ) : ℕ := 48 + indexIds.length * 8

/-- A key of a node index is counted with its text and a tuple of a compound one with its bytes. -/
def nodeKeySize (key : ℕ × String) (slot : VersionedSlot (Option ℕ)) : ℕ := key.2.utf8ByteSize + estimateLookupSlot slot

def compoundSize (key : ℕ × List ℕ × ℕ) (slot : VersionedSlot (Option Unit)) : ℕ := key.2.1.length + 8 + estimateMembershipSlot slot

def eqLookupSize (_ : ℕ) (props : Map String (List ℕ)) : ℕ := totalSize estimateSecondaryEqLookupEntry props

def rangeLookupSize (_ : ℕ) (props : Map String (List ℕ)) : ℕ := totalSize estimateSecondaryRangeLookupEntry props

/-- The texts of last errors are kept beside the declarations. -/
def declSize (lastErrors : ℕ → Option String) (indexId : ℕ) : SecondaryIndexEntry → ℕ := estimateSecondaryDeclEntry (lastErrors indexId)

def recomputeEstimatedSize (lastErrors : ℕ → Option String) (m : IndexedMemtable) : ℕ :=
  totalSize (fun _ => estimateNodeRecordSlot) m.base.nodes + totalSize (fun _ => estimateEdgeRecordSlot) m.base.edges +
  totalSize nodeKeySize m.base.nodeKeyIndex + totalSize (fun _ => estimateLookupSlot) m.base.edgeTripleIndex +
  totalSize (fun _ => estimateAdjSlot) m.base.adjOut + totalSize (fun _ => estimateAdjSlot) m.base.adjIn +
  (totalSize (fun _ => estimateMembershipSlot) m.base.orderedEdgeIds + totalSize (fun _ => estimateMembershipSlot) m.base.labelNodeIndex +
    totalSize (fun _ => estimateMembershipSlot) m.orderedLabelEdgeIndex) +
  (totalSize (fun _ => estimateAdjSlot) m.orderedAdjOut + totalSize (fun _ => estimateAdjSlot) m.orderedAdjIn) +
  totalSize (fun _ => estimateMembershipSlot) m.base.labelEdgeIndex +
  totalSize (fun _ => estimateMembershipSlot) m.base.timeNodeIndex +
  totalSize (declSize lastErrors) m.secondaryIndexDeclarations +
  totalSize eqLookupSize m.secondaryEqByProp + totalSize rangeLookupSize m.secondaryRangeByProp +
  totalSize eqLookupSize m.secondaryEdgeEqByProp + totalSize rangeLookupSize m.secondaryEdgeRangeByProp +
  totalSize (fun _ => estimateSecondaryFieldLookupEntry) m.secondaryNodeFieldIndexesByLabel +
  totalSize (fun _ => estimateSecondaryFieldLookupEntry) m.secondaryEdgeFieldIndexesByLabel +
  totalSize (fun _ => estimateMembershipSlot) m.secondaryEqState +
  totalSize (fun _ => estimateMembershipSlot) m.secondaryRangeState + totalSize compoundSize m.secondaryCompoundState

/-- One map of the memtable with the size of its entries. -/
structure Part (κ α : Type) [DecidableEq κ] where
  get : IndexedMemtable → Map κ α
  set : IndexedMemtable → Map κ α → IndexedMemtable
  size : κ → α → ℕ
  exact_set : ∀ lastErrors m x, recomputeEstimatedSize lastErrors (set m x) + totalSize size (get m) =
    recomputeEstimatedSize lastErrors m + totalSize size x := by
      intros
      simp only [recomputeEstimatedSize]
      omega

namespace Part

def nodes : Part ℕ (VersionedSlot (RecordState NodeRecord)) where
  get m := m.base.nodes
  set m x := { m with base := { m.base with nodes := x } }
  size _ := estimateNodeRecordSlot

def edges : Part ℕ (VersionedSlot (RecordState EdgeRecord)) where
  get m := m.base.edges
  set m x := { m with base := { m.base with edges := x } }
  size _ := estimateEdgeRecordSlot

def nodeKeyIndex : Part (ℕ × String) (VersionedSlot (Option ℕ)) where
  get m := m.base.nodeKeyIndex
  set m x := { m with base := { m.base with nodeKeyIndex := x } }
  size := nodeKeySize

def edgeTripleIndex : Part (ℕ × ℕ × ℕ) (VersionedSlot (Option ℕ)) where
  get m := m.base.edgeTripleIndex
  set m x := { m with base := { m.base with edgeTripleIndex := x } }
  size _ := estimateLookupSlot

def adjOut : Part (ℕ × ℕ) (VersionedSlot (Option AdjEntry)) where
  get m := m.base.adjOut
  set m x := { m with base := { m.base with adjOut := x } }
  size _ := estimateAdjSlot

def adjIn : Part (ℕ × ℕ) (VersionedSlot (Option AdjEntry)) where
  get m := m.base.adjIn
  set m x := { m with base := { m.base with adjIn := x } }
  size _ := estimateAdjSlot

def orderedAdjOut : Part (ℕ × ℕ) (VersionedSlot (Option AdjEntry)) where
  get m := m.orderedAdjOut
  set m x := { m with orderedAdjOut := x }
  size _ := estimateAdjSlot

def orderedAdjIn : Part (ℕ × ℕ) (VersionedSlot (Option AdjEntry)) where
  get m := m.orderedAdjIn
  set m x := { m with orderedAdjIn := x }
  size _ := estimateAdjSlot

def orderedEdgeIds : Part ℕ (VersionedSlot (Option Unit)) where
  get m := m.base.orderedEdgeIds
  set m x := { m with base := { m.base with orderedEdgeIds := x } }
  size _ := estimateMembershipSlot

def labelNodeIndex : Part (ℕ × ℕ) (VersionedSlot (Option Unit)) where
  get m := m.base.labelNodeIndex
  set m x := { m with base := { m.base with labelNodeIndex := x } }
  size _ := estimateMembershipSlot

def labelEdgeIndex : Part (ℕ × ℕ) (VersionedSlot (Option Unit)) where
  get m := m.base.labelEdgeIndex
  set m x := { m with base := { m.base with labelEdgeIndex := x } }
  size _ := estimateMembershipSlot

def orderedLabelEdgeIndex : Part (ℕ × ℕ) (VersionedSlot (Option Unit)) where
  get m := m.orderedLabelEdgeIndex
  set m x := { m with orderedLabelEdgeIndex := x }
  size _ := estimateMembershipSlot

def timeNodeIndex : Part (ℕ × ℤ × ℕ) (VersionedSlot (Option Unit)) where
  get m := m.base.timeNodeIndex
  set m x := { m with base := { m.base with timeNodeIndex := x } }
  size _ := estimateMembershipSlot

def secondaryEqByProp : Part ℕ (Map String (List ℕ)) where
  get m := m.secondaryEqByProp
  set m x := { m with secondaryEqByProp := x }
  size := eqLookupSize

def secondaryRangeByProp : Part ℕ (Map String (List ℕ)) where
  get m := m.secondaryRangeByProp
  set m x := { m with secondaryRangeByProp := x }
  size := rangeLookupSize

def secondaryEdgeEqByProp : Part ℕ (Map String (List ℕ)) where
  get m := m.secondaryEdgeEqByProp
  set m x := { m with secondaryEdgeEqByProp := x }
  size := eqLookupSize

def secondaryEdgeRangeByProp : Part ℕ (Map String (List ℕ)) where
  get m := m.secondaryEdgeRangeByProp
  set m x := { m with secondaryEdgeRangeByProp := x }
  size := rangeLookupSize

def secondaryNodeFieldIndexesByLabel : Part ℕ (List ℕ) where
  get m := m.secondaryNodeFieldIndexesByLabel
  set m x := { m with secondaryNodeFieldIndexesByLabel := x }
  size _ := estimateSecondaryFieldLookupEntry

def secondaryEdgeFieldIndexesByLabel : Part ℕ (List ℕ) where
  get m := m.secondaryEdgeFieldIndexesByLabel
  set m x := { m with secondaryEdgeFieldIndexesByLabel := x }
  size _ := estimateSecondaryFieldLookupEntry

def secondaryEqState : Part (ℕ × ℕ × ℕ) (VersionedSlot (Option Unit)) where
  get m := m.secondaryEqState
  set m x := { m with secondaryEqState := x }
  size _ := estimateMembershipSlot

def secondaryRangeState : Part (ℕ × NumericRangeSortKey × ℕ) (VersionedSlot (Option Unit)) where
  get m := m.secondaryRangeState
  set m x := { m with secondaryRangeState := x }
  size _ := estimateMembershipSlot

def secondaryCompoundState : Part (ℕ × List ℕ × ℕ) (VersionedSlot (Option Unit)) where
  get m := m.secondaryCompoundState
  set m x := { m with secondaryCompoundState := x }
  size := compoundSize

end Part

structure SizedMemtable where
  memtable : IndexedMemtable
  lastErrors : ℕ → Option String
  estimatedBytes : ℕ
  /-- Whether a subtraction ever exceeded the estimate. -/
  clamped : Bool

namespace SizedMemtable

def empty : SizedMemtable := ⟨.empty, fun _ => none, 0, false⟩

variable (s : SizedMemtable)

def saturatingSub (size : ℕ) : SizedMemtable :=
  { s with estimatedBytes := s.estimatedBytes - size, clamped := s.clamped || decide (s.estimatedBytes < size) }

def applySizeDelta (before after : ℕ) : SizedMemtable :=
  if before ≤ after then { s with estimatedBytes := s.estimatedBytes + (after - before) }
  else s.saturatingSub (before - after)

/-- Change one map and count what the change does to a part of it. -/
def write {κ α : Type} [DecidableEq κ] (part : Part κ α) (cell : Map κ α → ℕ) (change : Map κ α → Map κ α) : SizedMemtable :=
  let old := part.get s.memtable
  { s with memtable := part.set s.memtable (change old) }.applySizeDelta (cell old) (cell (change old))

section
variable {κ τ : Type} [DecidableEq κ]

/-- A cell that is opened is counted from nothing. -/
def setIn (part : Part κ (VersionedSlot τ)) (k : κ) (value : τ) (q : ℕ) : SizedMemtable :=
  s.write part (sizeAt part.size · k) (setSlot · k value q)

/-- Remove the entries of an index and what they were counted with. -/
def dropIndex (part : Part (ℕ × κ) (VersionedSlot τ)) (indexId : ℕ) : SizedMemtable :=
  let old := part.get s.memtable
  let others := filterMapEntries (fun k slot => if k.1 = indexId then none else some slot) old
  let dropped := filterMapEntries (fun k slot => if k.1 = indexId then some slot else none) old
  { s with memtable := part.set s.memtable others }.saturatingSub (totalSize part.size dropped)

end

def setNodeState (id : ℕ) (state : RecordState NodeRecord) (q : ℕ) : SizedMemtable := s.setIn .nodes id state q

def setEdgeState (id : ℕ) (state : RecordState EdgeRecord) (q : ℕ) : SizedMemtable := s.setIn .edges id state q

def setNodeKey (labelId : ℕ) (key : String) (value : Option ℕ) (q : ℕ) : SizedMemtable := s.setIn .nodeKeyIndex (labelId, key) value q

def setEdgeTriple (triple : ℕ × ℕ × ℕ) (value : Option ℕ) (q : ℕ) : SizedMemtable := s.setIn .edgeTripleIndex triple value q

def setAdjOutSlot (owner member : ℕ) (value : Option AdjEntry) (q : ℕ) : SizedMemtable :=
  (s.setIn .adjOut (owner, member) value q).setIn .orderedAdjOut (owner, member) value q

def setAdjInSlot (owner member : ℕ) (value : Option AdjEntry) (q : ℕ) : SizedMemtable :=
  (s.setIn .adjIn (owner, member) value q).setIn .orderedAdjIn (owner, member) value q

def setNodeLabelSlot (labelId id : ℕ) (present : Bool) (q : ℕ) : SizedMemtable := s.setIn .labelNodeIndex (labelId, id) (presence present) q

def setEdgeLabelSlot (labelId id : ℕ) (present : Bool) (q : ℕ) : SizedMemtable := s.setIn .labelEdgeIndex (labelId, id) (presence present) q

def setOrderedEdgeLabelSlot (labelId id : ℕ) (present : Bool) (q : ℕ) : SizedMemtable :=
  s.setIn .orderedLabelEdgeIndex (labelId, id) (presence present) q

def setOrderedEdgeSlot (id : ℕ) (present : Bool) (q : ℕ) : SizedMemtable := s.setIn .orderedEdgeIds id (presence present) q

def setTimeSlot (key : ℕ × ℤ × ℕ) (present : Bool) (q : ℕ) : SizedMemtable := s.setIn .timeNodeIndex key (presence present) q

def setSecondaryEqSlot (indexId valueHash id : ℕ) (present : Bool) (q : ℕ) : SizedMemtable :=
  s.setIn .secondaryEqState (indexId, valueHash, id) (presence present) q

def setSecondaryRangeSlot (indexId : ℕ) (encoded : NumericRangeSortKey) (id : ℕ) (present : Bool) (q : ℕ) : SizedMemtable :=
  s.setIn .secondaryRangeState (indexId, encoded, id) (presence present) q

def setCompoundSlot (indexId : ℕ) (tupleKey : List ℕ) (id : ℕ) (present : Bool) (q : ℕ) : SizedMemtable :=
  s.setIn .secondaryCompoundState (indexId, tupleKey, id) (presence present) q

def setNodeTombstoneSlot (id : ℕ) (present : Bool) (q : ℕ) : SizedMemtable :=
  { s with memtable := { s.memtable with base := s.memtable.base.setNodeTombstoneSlot id present q } }

def setEdgeTombstoneSlot (id : ℕ) (present : Bool) (q : ℕ) : SizedMemtable :=
  { s with memtable := { s.memtable with base := s.memtable.base.setEdgeTombstoneSlot id present q } }

def when (b : Prop) [Decidable b] (f : SizedMemtable → SizedMemtable) : SizedMemtable := if b then f s else s

variable {s}

def retireNodeLabel (old node : NodeRecord) (q : ℕ) (s : SizedMemtable) (labelId : ℕ) : SizedMemtable :=
  let labelRemoved := !node.labelIds.contains labelId
  ((s.when (labelRemoved || old.key != node.key) (·.setNodeKey labelId old.key none q)).when labelRemoved
    (·.setNodeLabelSlot labelId old.id false q)).when (labelRemoved || old.updatedAt != node.updatedAt)
      (·.setTimeSlot (labelId, old.updatedAt, old.id) false q)

def enterNodeLabel (node : NodeRecord) (q : ℕ) (s : SizedMemtable) (labelId : ℕ) : SizedMemtable :=
  ((s.setNodeKey labelId node.key (some node.id) q).setNodeLabelSlot labelId node.id true q).setTimeSlot
    (labelId, node.updatedAt, node.id) true q

def dropNodeLabel (node : NodeRecord) (q : ℕ) (s : SizedMemtable) (labelId : ℕ) : SizedMemtable :=
  ((s.setNodeKey labelId node.key none q).setNodeLabelSlot labelId node.id false q).setTimeSlot
    (labelId, node.updatedAt, node.id) false q

def applyActions (s : SizedMemtable) (actions : IndexActions) (q : ℕ) : SizedMemtable :=
  let s := actions.eq.foldl (fun s a => s.setSecondaryEqSlot a.indexId a.key a.recordId a.present q) s
  let s := actions.range.foldl (fun s a => s.setSecondaryRangeSlot a.indexId a.key a.recordId a.present q) s
  actions.compound.foldl (fun s a => s.setCompoundSlot a.indexId a.key a.recordId a.present q) s

def countNodes (s : SizedMemtable) (count : ℕ → ℕ) : SizedMemtable :=
  { s with memtable := { s.memtable with base := { s.memtable.base with liveNodeCount := count s.memtable.base.liveNodeCount } } }

def countEdges (s : SizedMemtable) (count : ℕ → ℕ) : SizedMemtable :=
  { s with memtable := { s.memtable with base := { s.memtable.base with liveEdgeCount := count s.memtable.base.liveEdgeCount } } }

variable (enc : IndexEncoders)

def applyUpsertNode (s : SizedMemtable) (node : NodeRecord) (q : ℕ) : SizedMemtable :=
  let oldNode := s.memtable.base.currentNode node.id
  let wasDeleted := s.memtable.base.nodeDeleted node.id
  let stored := { node with lastWriteSeq := q }
  let s := oldNode.elim s fun old => old.labelIds.labelIds.foldl (retireNodeLabel old node q) s
  let s := node.labelIds.labelIds.foldl (enterNodeLabel node q) s
  let s := s.applyActions (s.memtable.syncSecondaryIndexEntriesForNodeUpsert enc oldNode stored) q
  let s := s.when wasDeleted (·.setNodeTombstoneSlot node.id false q)
  (s.setNodeState node.id (.live stored) q).when (oldNode = none) (·.countNodes (· + 1))

def retireEdge (old edge : EdgeRecord) (q : ℕ) (s : SizedMemtable) : SizedMemtable :=
  let s := s.when (old.triple ≠ edge.triple ∧ s.memtable.base.currentEdgeTripleId old.triple = some old.id)
    (·.setEdgeTriple old.triple none q)
  let s := s.when (old.labelId ≠ edge.labelId) fun s =>
    (s.setEdgeLabelSlot old.labelId old.id false q).setOrderedEdgeLabelSlot old.labelId old.id false q
  s.when (old.source ≠ edge.source ∨ old.target ≠ edge.target) fun s =>
    (s.setAdjOutSlot old.source old.id none q).setAdjInSlot old.target old.id none q

def enterEdge (oldEdge : Option EdgeRecord) (edge : EdgeRecord) (q : ℕ) (s : SizedMemtable) : SizedMemtable :=
  let s := s.when (shouldUpdateTriple oldEdge edge (s.memtable.base.currentEdgeTripleId edge.triple))
    (·.setEdgeTriple edge.triple (some edge.id) q)
  let s := s.setAdjOutSlot edge.source edge.id (some (adjEntry edge edge.target)) q
  let s := s.setAdjInSlot edge.target edge.id (some (adjEntry edge edge.source)) q
  let s := s.setEdgeLabelSlot edge.labelId edge.id true q
  let s := s.setOrderedEdgeLabelSlot edge.labelId edge.id true q
  s.setOrderedEdgeSlot edge.id true q

def applyUpsertEdge (s : SizedMemtable) (edge : EdgeRecord) (q : ℕ) : SizedMemtable :=
  let oldEdge := s.memtable.base.currentEdge edge.id
  let wasDeleted := s.memtable.base.edgeDeleted edge.id
  let stored := { edge with lastWriteSeq := q }
  let s := oldEdge.elim s fun old => retireEdge old edge q s
  let s := enterEdge oldEdge edge q s
  let s := s.applyActions (s.memtable.syncSecondaryIndexEntriesForEdgeUpsert enc oldEdge stored) q
  let s := s.when wasDeleted (·.setEdgeTombstoneSlot edge.id false q)
  (s.setEdgeState edge.id (.live stored) q).when (oldEdge = none) (·.countEdges (· + 1))

def dropNode (node : NodeRecord) (q : ℕ) (s : SizedMemtable) : SizedMemtable :=
  let s := node.labelIds.labelIds.foldl (dropNodeLabel node q) s
  (s.applyActions (s.memtable.removeSecondaryIndexEntriesForNode enc node) q).countNodes (· - 1)

def applyDeleteNode (s : SizedMemtable) (id : ℕ) (deletedAt : ℤ) (q : ℕ) : SizedMemtable :=
  let s := (s.memtable.base.currentNode id).elim s fun node => dropNode enc node q s
  (s.setNodeState id (.tombstone ⟨deletedAt, q⟩) q).setNodeTombstoneSlot id true q

def dropEdge (edge : EdgeRecord) (id q : ℕ) (s : SizedMemtable) : SizedMemtable :=
  let s := s.when (s.memtable.base.currentEdgeTripleId edge.triple = some id) (·.setEdgeTriple edge.triple none q)
  let s := s.setEdgeLabelSlot edge.labelId edge.id false q
  let s := s.setOrderedEdgeLabelSlot edge.labelId edge.id false q
  let s := (s.setAdjOutSlot edge.source edge.id none q).setAdjInSlot edge.target edge.id none q
  let s := s.setOrderedEdgeSlot edge.id false q
  (s.applyActions (s.memtable.removeSecondaryIndexEntriesForEdge enc edge) q).countEdges (· - 1)

def applyDeleteEdge (s : SizedMemtable) (id : ℕ) (deletedAt : ℤ) (q : ℕ) : SizedMemtable :=
  let s := (s.memtable.base.currentEdge id).elim s fun edge => dropEdge enc edge id q s
  (s.setEdgeState id (.tombstone ⟨deletedAt, q⟩) q).setEdgeTombstoneSlot id true q

def applyOp (s : SizedMemtable) : SeqOp → SizedMemtable
  | (q, .upsertNode node) => s.applyUpsertNode enc node q
  | (q, .upsertEdge edge) => s.applyUpsertEdge enc edge q
  | (q, .deleteNode id deletedAt) => s.applyDeleteNode enc id deletedAt q
  | (q, .deleteEdge id deletedAt) => s.applyDeleteEdge enc id deletedAt q
  | (_, .ensureNodeLabel _ _) | (_, .ensureEdgeLabel _ _)
  | (_, .beginAtomicBatch _ _) | (_, .commitAtomicBatch _ _) => s

def propLookupSize (labelId : ℕ) (pkey : String) (byProp : ByProp) : ℕ :=
  sizeAt estimateSecondaryEqLookupEntry ((byProp.lookup labelId).getD ∅) pkey

def fieldLookupSize (labelId : ℕ) (byLabel : Map ℕ (List ℕ)) : ℕ := sizeAt (fun _ => estimateSecondaryFieldLookupEntry) byLabel labelId

def removeFieldIndexLookup {κ : Type} [DecidableEq κ] (lookups : Map κ (List ℕ)) (k : κ) (indexId : ℕ) : Map κ (List ℕ) :=
  (lookups.lookup k).elim lookups fun indexIds =>
    let indexIds := indexIds.filter (· ≠ indexId)
    if indexIds.isEmpty then lookups.erase k else lookups.insert k indexIds

def removePropLookup (byProp : ByProp) (labelId : ℕ) (pkey : String) (indexId : ℕ) : ByProp :=
  (byProp.lookup labelId).elim byProp fun props =>
    let props := removeFieldIndexLookup props pkey indexId
    if props.entries.isEmpty then byProp.erase labelId else byProp.insert labelId props

def declare (s : SizedMemtable) (entry : SecondaryIndexEntry) (lastError : Option String) : SizedMemtable where
  memtable := { s.memtable with
    secondaryIndexDeclarations := s.memtable.secondaryIndexDeclarations.insert entry.indexId entry }
  lastErrors := Function.update s.lastErrors entry.indexId lastError
  estimatedBytes := s.estimatedBytes + estimateSecondaryDeclEntry lastError entry
  clamped := s.clamped

def withdraw (s : SizedMemtable) (entry : SecondaryIndexEntry) (indexId : ℕ) : SizedMemtable :=
  { s with memtable := { s.memtable with
      secondaryIndexDeclarations := s.memtable.secondaryIndexDeclarations.erase indexId } }.saturatingSub
    (estimateSecondaryDeclEntry (s.lastErrors indexId) entry)

/-- The live records enter a new index with their own sequence numbers. -/
def seed {κ ρ : Type} (records : Map ℕ ρ) (key : ρ → Option κ) (enter : κ → ℕ → ρ → SizedMemtable → SizedMemtable)
    (s : SizedMemtable) : SizedMemtable :=
  records.entries.foldl (fun s e => (key e.2).elim s fun k => enter k e.1 e.2 s) s

def registerSecondaryIndex (s : SizedMemtable) (entry : SecondaryIndexEntry) (lastError : Option String) : SizedMemtable :=
  if (s.memtable.secondaryIndexDeclarations.lookup entry.indexId).isSome then s
  else
    let id := entry.indexId
    let nodes := s.memtable.base.liveNodes
    let edges := s.memtable.base.liveEdges
    let s := s.declare entry lastError
    match entry.target, entry.kind with
    | .nodeProperty labelId pkey, .equality =>
      (s.write .secondaryEqByProp (propLookupSize labelId pkey) (addPropLookup · labelId pkey id)).seed nodes
        (fun node => if node.labelIds.contains labelId then (node.props.lookup pkey).map enc.hashPropEqualityKey else none)
        fun valueHash nodeId node s => s.setSecondaryEqSlot id valueHash nodeId true node.lastWriteSeq
    | .nodeProperty labelId pkey, .range =>
      (s.write .secondaryRangeByProp (propLookupSize labelId pkey) (addPropLookup · labelId pkey id)).seed nodes
        (fun node => if node.labelIds.contains labelId then (node.props.lookup pkey).bind numericRangeSortKeyForValue else none)
        fun encoded nodeId node s => s.setSecondaryRangeSlot id encoded nodeId true node.lastWriteSeq
    | .edgeProperty labelId pkey, .equality =>
      (s.write .secondaryEdgeEqByProp (propLookupSize labelId pkey) (addPropLookup · labelId pkey id)).seed edges
        (fun edge => if edge.labelId = labelId then (edge.props.lookup pkey).map enc.hashPropEqualityKey else none)
        fun valueHash edgeId edge s => s.setSecondaryEqSlot id valueHash edgeId true edge.lastWriteSeq
    | .edgeProperty labelId pkey, .range =>
      (s.write .secondaryEdgeRangeByProp (propLookupSize labelId pkey) (addPropLookup · labelId pkey id)).seed edges
        (fun edge => if edge.labelId = labelId then (edge.props.lookup pkey).bind numericRangeSortKeyForValue else none)
        fun encoded edgeId edge s => s.setSecondaryRangeSlot id encoded edgeId true edge.lastWriteSeq
    | .nodeFieldIndex labelId fields, _ =>
      (s.write .secondaryNodeFieldIndexesByLabel (fieldLookupSize labelId) (addFieldIndexLookup · labelId id)).seed nodes
        (fun node => if node.labelIds.contains labelId then some (enc.encodeNodeCompoundTupleKey labelId fields node) else none)
        fun tupleKey nodeId node s => s.setCompoundSlot id tupleKey nodeId true node.lastWriteSeq
    | .edgeFieldIndex labelId fields, _ =>
      (s.write .secondaryEdgeFieldIndexesByLabel (fieldLookupSize labelId) (addFieldIndexLookup · labelId id)).seed edges
        (fun edge => if edge.labelId = labelId then some (enc.encodeEdgeCompoundTupleKey labelId fields edge) else none)
        fun tupleKey edgeId edge s => s.setCompoundSlot id tupleKey edgeId true edge.lastWriteSeq

/-- The flag tells whether the index was declared. -/
def unregisterSecondaryIndex (s : SizedMemtable) (indexId : ℕ) : SizedMemtable × Bool :=
  (s.memtable.secondaryIndexDeclarations.lookup indexId).elim (s, false) fun entry =>
    let s := s.withdraw entry indexId
    (match entry.target, entry.kind with
    | .nodeProperty labelId pkey, .equality =>
      (s.write .secondaryEqByProp (propLookupSize labelId pkey) (removePropLookup · labelId pkey indexId)).dropIndex
        .secondaryEqState indexId
    | .nodeProperty labelId pkey, .range =>
      (s.write .secondaryRangeByProp (propLookupSize labelId pkey) (removePropLookup · labelId pkey indexId)).dropIndex
        .secondaryRangeState indexId
    | .edgeProperty labelId pkey, .equality =>
      (s.write .secondaryEdgeEqByProp (propLookupSize labelId pkey) (removePropLookup · labelId pkey indexId)).dropIndex
        .secondaryEqState indexId
    | .edgeProperty labelId pkey, .range =>
      (s.write .secondaryEdgeRangeByProp (propLookupSize labelId pkey) (removePropLookup · labelId pkey indexId)).dropIndex
        .secondaryRangeState indexId
    | .nodeFieldIndex labelId _, _ =>
      (s.write .secondaryNodeFieldIndexesByLabel (fieldLookupSize labelId) (removeFieldIndexLookup · labelId indexId)).dropIndex
        .secondaryCompoundState indexId
    | .edgeFieldIndex labelId _, _ =>
      (s.write .secondaryEdgeFieldIndexesByLabel (fieldLookupSize labelId) (removeFieldIndexLookup · labelId indexId)).dropIndex
        .secondaryCompoundState indexId, true)

end SizedMemtable

/-- A call of the memtable that moves the estimate. -/
inductive Event where
  | apply (op : SeqOp)
  | register (entry : SecondaryIndexEntry) (lastError : Option String)
  | unregister (indexId : ℕ)

namespace SizedMemtable
variable (enc : IndexEncoders)

def step (s : SizedMemtable) : Event → SizedMemtable
  | .apply op => s.applyOp enc op
  | .register entry lastError => s.registerSecondaryIndex enc entry lastError
  | .unregister indexId => (s.unregisterSecondaryIndex indexId).1

def run (events : List Event) : SizedMemtable := events.foldl (step enc) empty

theorem total_eqLookup_of_agree {byProp byProp' : ByProp} (labelId : ℕ) (pkey : String)
    (hlabels : ∀ i, i ≠ labelId → byProp'.lookup i = byProp.lookup i)
    (hprops : ∀ i, i ≠ pkey → ((byProp'.lookup labelId).getD ∅).lookup i = ((byProp.lookup labelId).getD ∅).lookup i) :
    totalSize eqLookupSize byProp' + propLookupSize labelId pkey byProp =
      totalSize eqLookupSize byProp + propLookupSize labelId pkey byProp' := by
  have houter := totalSize_of_agree eqLookupSize eqLookupSize labelId (fun _ _ => rfl) hlabels
  have hinner := totalSize_of_agree estimateSecondaryEqLookupEntry estimateSecondaryEqLookupEntry pkey (fun _ _ => rfl) hprops
  have hat (byProp : ByProp) : sizeAt eqLookupSize byProp labelId =
      totalSize estimateSecondaryEqLookupEntry ((byProp.lookup labelId).getD ∅) := by
    rw [sizeAt]
    cases byProp.lookup labelId <;> rfl
  rw [hat, hat] at houter
  simp only [propLookupSize]
  omega

variable {κ : Type}

theorem lookup_removeFieldIndexLookup [DecidableEq κ] (lookups : Map κ (List ℕ)) {k i : κ} (indexId : ℕ)
    (hi : i ≠ k) : (removeFieldIndexLookup lookups k indexId).lookup i = lookups.lookup i := by
  rw [removeFieldIndexLookup]
  cases lookups.lookup k with
  | none => rfl
  | some indexIds =>
    dsimp only [elim_some]
    split
    · exact lookup_erase_ne hi
    · exact lookup_insert_ne hi

theorem lookup_removePropLookup (byProp : ByProp) {labelId i : ℕ} (pkey : String) (indexId : ℕ) (hi : i ≠ labelId) :
    (removePropLookup byProp labelId pkey indexId).lookup i = byProp.lookup i := by
  rw [removePropLookup]
  cases byProp.lookup labelId with
  | none => rfl
  | some props =>
    dsimp only [elim_some]
    split
    · exact lookup_erase_ne hi
    · exact lookup_insert_ne hi

/-- A label that is left without properties is as good as one with none. -/
theorem propsOf_removePropLookup (byProp : ByProp) (labelId : ℕ) (pkey : String) (indexId : ℕ) :
    ((removePropLookup byProp labelId pkey indexId).lookup labelId).getD ∅ =
      removeFieldIndexLookup ((byProp.lookup labelId).getD ∅) pkey indexId := by
  rw [removePropLookup]
  cases hprops : byProp.lookup labelId with
  | none => simp [hprops, removeFieldIndexLookup]
  | some props =>
    dsimp only [elim_some, getD_some]
    split
    · rename_i hempty
      rw [lookup_erase]
      exact AList.ext (isEmpty_iff.mp hempty).symm
    · rw [lookup_insert, getD_some]

section
variable (labelId : ℕ) (pkey : String) (indexId : ℕ) (byProp : ByProp)

theorem total_addPropLookup :
    totalSize eqLookupSize (addPropLookup byProp labelId pkey indexId) + propLookupSize labelId pkey byProp =
      totalSize eqLookupSize byProp + propLookupSize labelId pkey (addPropLookup byProp labelId pkey indexId) := by
  refine total_eqLookup_of_agree labelId pkey (fun i hi => ?_) fun i hi => ?_
  · simp [addPropLookup, hi]
  · simp [addPropLookup, hi]

theorem total_removePropLookup :
    totalSize eqLookupSize (removePropLookup byProp labelId pkey indexId) + propLookupSize labelId pkey byProp =
      totalSize eqLookupSize byProp + propLookupSize labelId pkey (removePropLookup byProp labelId pkey indexId) := by
  refine total_eqLookup_of_agree labelId pkey (fun i hi => lookup_removePropLookup byProp pkey indexId hi) fun i hi => ?_
  rw [propsOf_removePropLookup, lookup_removeFieldIndexLookup _ _ hi]

end

theorem recompute_declarations (lastErrors lastErrors' : ℕ → Option String) (m : IndexedMemtable)
    (decls : Map ℕ SecondaryIndexEntry) :
    recomputeEstimatedSize lastErrors' { m with secondaryIndexDeclarations := decls } +
        totalSize (declSize lastErrors) m.secondaryIndexDeclarations =
      recomputeEstimatedSize lastErrors m + totalSize (declSize lastErrors') decls := by
  simp only [recomputeEstimatedSize]
  omega

variable {s : SizedMemtable}

structure Exact (s : SizedMemtable) : Prop where
  unclamped : s.clamped = false
  bytes : s.estimatedBytes = recomputeEstimatedSize s.lastErrors s.memtable

theorem exact_empty : Exact empty := ⟨rfl, rfl⟩

/-- A subtraction is exact where what it takes is part of the estimate. -/
theorem Exact.saturatingSub {size : ℕ} (hclamped : s.clamped = false)
    (h : s.estimatedBytes = recomputeEstimatedSize s.lastErrors s.memtable + size) : (s.saturatingSub size).Exact where
  unclamped := by simp [SizedMemtable.saturatingSub, hclamped, h]
  bytes := by
    simp only [SizedMemtable.saturatingSub]
    omega

theorem Exact.applySizeDelta {before after : ℕ} (hclamped : s.clamped = false)
    (h : s.estimatedBytes + after = recomputeEstimatedSize s.lastErrors s.memtable + before) :
    (s.applySizeDelta before after).Exact := by
  rw [SizedMemtable.applySizeDelta]
  split
  · refine ⟨hclamped, ?_⟩
    dsimp only
    omega
  · exact saturatingSub hclamped (by omega)

namespace Exact
variable (h : s.Exact)
include h

/-- A write is counted by a cell if the cell tells how the size of the whole map moves. -/
theorem write {α : Type} [DecidableEq κ] {part : Part κ α} {cell : Map κ α → ℕ} {change : Map κ α → Map κ α}
    (hcell : ∀ m, totalSize part.size (change m) + cell m = totalSize part.size m + cell (change m)) :
    (s.write part cell change).Exact := by
  have hset := part.exact_set s.lastErrors s.memtable (change (part.get s.memtable))
  have hmove := hcell (part.get s.memtable)
  have hbytes := h.bytes
  refine applySizeDelta h.unclamped ?_
  dsimp only
  omega

theorem setIn {τ : Type} [DecidableEq κ] (part : Part κ (VersionedSlot τ)) (k : κ) (value : τ) (q : ℕ) : (s.setIn part k value q).Exact :=
  h.write fun m => totalSize_of_agree _ _ k (fun _ _ => rfl) fun i hi => by simp [setSlot, hi]

theorem dropIndex {τ : Type} [DecidableEq κ] (part : Part (ℕ × κ) (VersionedSlot τ)) (indexId : ℕ) :
    (s.dropIndex part indexId).Exact := by
  have hsplit := totalSize_filter_add part.size (fun k => decide (k.1 = indexId)) (part.get s.memtable)
  have hset := part.exact_set s.lastErrors s.memtable
    (filterMapEntries (fun k slot => if k.1 = indexId then none else some slot) (part.get s.memtable))
  have hbytes := h.bytes
  simp only [decide_eq_true_eq] at hsplit
  refine saturatingSub h.unclamped ?_
  dsimp only
  omega

theorem when {b : Prop} [Decidable b] {f : SizedMemtable → SizedMemtable} (hf : ∀ {s}, s.Exact → (f s).Exact) : (s.when b f).Exact := by
  rw [SizedMemtable.when]
  split
  · exact hf h
  · exact h

theorem elim {α : Type} {f : α → SizedMemtable} (a : Option α) (hf : ∀ a, (f a).Exact) : (a.elim s f).Exact := by
  cases a with
  | none => exact h
  | some a => exact hf a

theorem foldl {α : Type} {f : SizedMemtable → α → SizedMemtable} (hf : ∀ {s} a, s.Exact → (f s a).Exact) (l : List α) :
    (l.foldl f s).Exact := by
  induction l generalizing s with
  | nil => exact h
  | cons a l ih => exact ih (hf a h)

theorem applyActions (actions : IndexActions) (q : ℕ) : (s.applyActions actions q).Exact :=
  ((h.foldl (fun _ h => h.setIn _ _ _ _) _).foldl (fun _ h => h.setIn _ _ _ _) _).foldl (fun _ h => h.setIn _ _ _ _) _

section
variable (owner member : ℕ) (value : Option AdjEntry) (q : ℕ)

theorem setAdjOutSlot : (s.setAdjOutSlot owner member value q).Exact :=
  (h.setIn _ _ _ _).setIn _ _ _ _

theorem setAdjInSlot : (s.setAdjInSlot owner member value q).Exact :=
  (h.setIn _ _ _ _).setIn _ _ _ _

end

theorem retireNodeLabel (old node : NodeRecord) (q labelId : ℕ) : (retireNodeLabel old node q s labelId).Exact :=
  ((h.when fun h => h.setIn _ _ _ _).when fun h => h.setIn _ _ _ _).when fun h => h.setIn _ _ _ _

theorem enterNodeLabel (node : NodeRecord) (q labelId : ℕ) : (enterNodeLabel node q s labelId).Exact :=
  ((h.setIn _ _ _ _).setIn _ _ _ _).setIn _ _ _ _

theorem dropNodeLabel (node : NodeRecord) (q labelId : ℕ) : (dropNodeLabel node q s labelId).Exact :=
  ((h.setIn _ _ _ _).setIn _ _ _ _).setIn _ _ _ _

theorem countNodes (count : ℕ → ℕ) : (s.countNodes count).Exact := ⟨h.unclamped, h.bytes⟩

theorem countEdges (count : ℕ → ℕ) : (s.countEdges count).Exact := ⟨h.unclamped, h.bytes⟩

theorem applyUpsertNode (enc : IndexEncoders) (node : NodeRecord) (q : ℕ) : (s.applyUpsertNode enc node q).Exact := by
  have hretired := h.elim (s.memtable.base.currentNode node.id) fun old =>
    h.foldl (fun labelId h => h.retireNodeLabel old node q labelId) old.labelIds.labelIds
  have hentered := hretired.foldl (fun labelId h => h.enterNodeLabel node q labelId) node.labelIds.labelIds
  rw [SizedMemtable.applyUpsertNode]
  refine Exact.when (Exact.setIn (Exact.when (hentered.applyActions _ q) fun h => ?_) _ _ _ _) fun h => h.countNodes _
  exact ⟨h.unclamped, h.bytes⟩

theorem retireEdge (old edge : EdgeRecord) (q : ℕ) : (retireEdge old edge q s).Exact := by
  rw [SizedMemtable.retireEdge]
  refine Exact.when (Exact.when (h.when fun h => h.setIn _ _ _ _) fun h => ?_) fun h => ?_
  · exact (h.setIn _ _ _ _).setIn _ _ _ _
  · exact (h.setAdjOutSlot _ _ _ _).setAdjInSlot _ _ _ _

theorem enterEdge (oldEdge : Option EdgeRecord) (edge : EdgeRecord) (q : ℕ) : (enterEdge oldEdge edge q s).Exact := by
  rw [SizedMemtable.enterEdge]
  refine Exact.setIn (Exact.setIn (Exact.setIn (setAdjInSlot (setAdjOutSlot ?_ _ _ _ _) _ _ _ _) _ _ _ _) _ _ _ _) _ _ _ _
  exact h.when fun h => h.setIn _ _ _ _

section
variable (enc : IndexEncoders)

theorem applyUpsertEdge (edge : EdgeRecord) (q : ℕ) : (s.applyUpsertEdge enc edge q).Exact := by
  have hretired := h.elim (s.memtable.base.currentEdge edge.id) fun old => h.retireEdge old edge q
  have hentered := hretired.enterEdge (s.memtable.base.currentEdge edge.id) edge q
  rw [SizedMemtable.applyUpsertEdge]
  refine Exact.when (Exact.setIn (Exact.when (hentered.applyActions _ q) fun h => ?_) _ _ _ _) fun h => h.countEdges _
  exact ⟨h.unclamped, h.bytes⟩

theorem dropNode (node : NodeRecord) (q : ℕ) : (dropNode enc node q s).Exact := by
  have hdropped := h.foldl (fun labelId h => h.dropNodeLabel node q labelId) node.labelIds.labelIds
  rw [SizedMemtable.dropNode]
  exact (hdropped.applyActions _ q).countNodes _

theorem applyDeleteNode (id : ℕ) (deletedAt : ℤ) (q : ℕ) : (s.applyDeleteNode enc id deletedAt q).Exact := by
  have hdropped := h.elim (s.memtable.base.currentNode id) fun node => h.dropNode enc node q
  have hstate := hdropped.setIn .nodes id (.tombstone ⟨deletedAt, q⟩) q
  exact ⟨hstate.unclamped, hstate.bytes⟩

theorem dropEdge (edge : EdgeRecord) (id q : ℕ) : (dropEdge enc edge id q s).Exact := by
  rw [SizedMemtable.dropEdge]
  refine countEdges (Exact.applyActions (Exact.setIn (setAdjInSlot (setAdjOutSlot ?_ _ _ _ _) _ _ _ _) _ _ _ _) _ q) _
  exact ((h.when fun h => h.setIn _ _ _ _).setIn _ _ _ _).setIn _ _ _ _

theorem applyDeleteEdge (id : ℕ) (deletedAt : ℤ) (q : ℕ) : (s.applyDeleteEdge enc id deletedAt q).Exact := by
  have hdropped := h.elim (s.memtable.base.currentEdge id) fun edge => h.dropEdge enc edge id q
  have hstate := hdropped.setIn .edges id (.tombstone ⟨deletedAt, q⟩) q
  exact ⟨hstate.unclamped, hstate.bytes⟩

theorem applyOp (op : SeqOp) : (s.applyOp enc op).Exact := by
  obtain ⟨q, op⟩ := op
  cases op with
  | upsertNode node => exact h.applyUpsertNode enc node q
  | upsertEdge edge => exact h.applyUpsertEdge enc edge q
  | deleteNode id deletedAt => exact h.applyDeleteNode enc id deletedAt q
  | deleteEdge id deletedAt => exact h.applyDeleteEdge enc id deletedAt q
  | ensureNodeLabel => exact h
  | ensureEdgeLabel => exact h
  | beginAtomicBatch => exact h
  | commitAtomicBatch => exact h

end

theorem declare (entry : SecondaryIndexEntry) (lastError : Option String)
    (hnew : s.memtable.secondaryIndexDeclarations.lookup entry.indexId = none) : (s.declare entry lastError).Exact := by
  have hlookup (i : ℕ) (hi : i ≠ entry.indexId) : (s.memtable.secondaryIndexDeclarations.insert entry.indexId entry).lookup i =
        s.memtable.secondaryIndexDeclarations.lookup i := lookup_insert_ne hi
  have hmove := totalSize_of_agree (declSize s.lastErrors) (declSize (update s.lastErrors entry.indexId lastError))
    entry.indexId (fun i hi => by simp [declSize, update_of_ne hi]) hlookup
  have hset := recompute_declarations s.lastErrors (update s.lastErrors entry.indexId lastError) s.memtable
    (s.memtable.secondaryIndexDeclarations.insert entry.indexId entry)
  have hbytes := h.bytes
  simp only [sizeAt, hnew, lookup_insert, elim_none, elim_some, declSize, update_self] at hmove
  refine ⟨h.unclamped, ?_⟩
  simp only [SizedMemtable.declare]
  omega

theorem withdraw {entry : SecondaryIndexEntry} {indexId : ℕ}
    (hentry : s.memtable.secondaryIndexDeclarations.lookup indexId = some entry) : (s.withdraw entry indexId).Exact := by
  have hmove := totalSize_erase (declSize s.lastErrors) s.memtable.secondaryIndexDeclarations indexId
  have hset := recompute_declarations s.lastErrors s.lastErrors s.memtable
    (s.memtable.secondaryIndexDeclarations.erase indexId)
  have hbytes := h.bytes
  simp only [sizeAt, hentry, elim_some, declSize] at hmove
  refine saturatingSub ?_ ?_
  · exact h.unclamped
  · dsimp only
    omega

theorem seed {ρ : Type} (records : Map ℕ ρ) (key : ρ → Option κ) {enter : κ → ℕ → ρ → SizedMemtable → SizedMemtable}
    (henter : ∀ k id r {s}, s.Exact → (enter k id r s).Exact) : (s.seed records key enter).Exact :=
  h.foldl (fun e h => h.elim (key e.2) fun k => henter k e.1 e.2 h) records.entries

theorem writeFields {part : Part ℕ (List ℕ)} (hpart : part.size = fun _ => estimateSecondaryFieldLookupEntry) (labelId : ℕ)
    {change : Map ℕ (List ℕ) → Map ℕ (List ℕ)} (hchange : ∀ m i, i ≠ labelId → (change m).lookup i = m.lookup i) :
    (s.write part (fieldLookupSize labelId) change).Exact := by
  refine h.write fun m => ?_
  rw [hpart]
  exact totalSize_of_agree _ _ labelId (fun _ _ => rfl) (hchange m)

theorem registerSecondaryIndex (enc : IndexEncoders) (entry : SecondaryIndexEntry) (lastError : Option String) :
    (s.registerSecondaryIndex enc entry lastError).Exact := by
  rw [SizedMemtable.registerSecondaryIndex]
  split
  · exact h
  · rename_i hnew
    have hdeclared := h.declare entry lastError (Option.not_isSome_iff_eq_none.mp hnew)
    dsimp only
    split
    · exact (hdeclared.write (total_addPropLookup _ _ _)).seed _ _ fun _ _ _ _ h => h.setIn _ _ _ _
    · exact (hdeclared.write (total_addPropLookup _ _ _)).seed _ _ fun _ _ _ _ h => h.setIn _ _ _ _
    · exact (hdeclared.write (total_addPropLookup _ _ _)).seed _ _ fun _ _ _ _ h => h.setIn _ _ _ _
    · exact (hdeclared.write (total_addPropLookup _ _ _)).seed _ _ fun _ _ _ _ h => h.setIn _ _ _ _
    · exact (hdeclared.writeFields rfl _ fun m i hi => by simp [addFieldIndexLookup, hi]).seed _ _ fun _ _ _ _ h => h.setIn _ _ _ _
    · exact (hdeclared.writeFields rfl _ fun m i hi => by simp [addFieldIndexLookup, hi]).seed _ _ fun _ _ _ _ h => h.setIn _ _ _ _

theorem unregisterSecondaryIndex (indexId : ℕ) : (s.unregisterSecondaryIndex indexId).1.Exact := by
  rw [SizedMemtable.unregisterSecondaryIndex]
  cases hentry : s.memtable.secondaryIndexDeclarations.lookup indexId with
  | none => exact h
  | some entry =>
    have hwithdrawn := h.withdraw hentry
    dsimp only [elim_some]
    split
    · exact (hwithdrawn.write (total_removePropLookup _ _ _)).dropIndex _ _
    · exact (hwithdrawn.write (total_removePropLookup _ _ _)).dropIndex _ _
    · exact (hwithdrawn.write (total_removePropLookup _ _ _)).dropIndex _ _
    · exact (hwithdrawn.write (total_removePropLookup _ _ _)).dropIndex _ _
    · exact (hwithdrawn.writeFields rfl _ fun m i => lookup_removeFieldIndexLookup m indexId).dropIndex _ _
    · exact (hwithdrawn.writeFields rfl _ fun m i => lookup_removeFieldIndexLookup m indexId).dropIndex _ _

theorem step (enc : IndexEncoders) (event : Event) : (s.step enc event).Exact := by
  cases event with
  | apply op => exact h.applyOp enc op
  | register entry lastError => exact h.registerSecondaryIndex enc entry lastError
  | unregister indexId => exact h.unregisterSecondaryIndex indexId

end Exact

/-- After any run the estimate is the recomputed size, and no subtraction on the way was cut off. -/
theorem estimate_exact_after_run (enc : IndexEncoders) (events : List Event) :
    (run enc events).clamped = false ∧
      (run enc events).estimatedBytes = recomputeEstimatedSize (run enc events).lastErrors (run enc events).memtable := by
  have hrun : (run enc events).Exact := exact_empty.foldl (fun event h => h.step enc event) events
  exact ⟨hrun.unclamped, hrun.bytes⟩

end SizedMemtable

end OverGraph.EstimatedSizes
