import Mathlib.Data.List.Lex
import Mathlib.Data.List.Sort
import OverGraph.SecondaryEntries

/-!
# Reads of the memtable at a snapshot

A read at a snapshot goes through the versions that the snapshot sees. Ordered maps are read in the
order of their keys, hash maps in an order that is not specified: what such a read can return is
given by any order of the visible entries.
-/

namespace OverGraph.SnapshotReads
open AssocMaps VersionedSlots Records Memtable PropertyValues SecondaryEntries

section
variable {κ τ : Type} [DecidableEq κ]

/-- What the snapshot sees under a key. -/
def valueAt (idx : Map κ (VersionedSlot τ)) (s : ℕ) (k : κ) : Option τ := (idx.lookup k).bind (·.readAt s)

def visibleEntries (idx : MembershipMap κ τ) (s : ℕ) : List (κ × τ) :=
  idx.entries.filterMap fun entry => (entry.2.readAt s).join.map fun value => (entry.1, value)

def visibleKeys (idx : MembershipMap κ τ) (s : ℕ) : List κ := (visibleEntries idx s).map (·.1)

/-- The records that the snapshot sees, with their ids. -/
def visibleRecords {ρ : Type} (records : RecordMap ρ) (s : ℕ) : List (ℕ × ρ) :=
  records.entries.filterMap fun entry => ((entry.2.readAt s).bind RecordState.live?).map fun r => (entry.1, r)

def scanAt [LinearOrder κ] (idx : MembershipMap κ τ) (inRange : κ → Bool) (s : ℕ) : List κ :=
  ((visibleKeys idx s).filter inRange).insertionSort (· ≤ ·)

end

/-- Loops over hash maps stop at a limit, if there is one. -/
def takeLimit {α : Type} (limit : Option ℕ) (vs : List α) : List α := limit.elim vs vs.take

section
variable (enc : IndexEncoders) (m : IndexedMemtable) (s : ℕ)

def getNodeAt (id : ℕ) : Option NodeRecord := m.base.getNodeAt id s

def getEdgeAt (id : ℕ) : Option EdgeRecord := m.base.getEdgeAt id s

def isNodeDeletedAt (id : ℕ) : Bool := m.base.isNodeDeletedAt id s

def isEdgeDeletedAt (id : ℕ) : Bool := m.base.isEdgeDeletedAt id s

def nodeTombstoneAt (id : ℕ) : Option TombstoneEntry := (m.base.nodeStateAt id s).bind RecordState.tombstone?

def edgeTombstoneAt (id : ℕ) : Option TombstoneEntry := (m.base.edgeStateAt id s).bind RecordState.tombstone?

def nodeByKeyAt (labelId : ℕ) (key : String) : Option NodeRecord := m.base.nodeByKeyAt labelId key s

def nodeIdByKeyAt (labelId : ℕ) (key : String) : Option ℕ := m.base.nodeIdByKeyAt labelId key s

def edgeByTripleAt (triple : ℕ × ℕ × ℕ) : Option EdgeRecord := m.base.edgeByTripleAt triple s

def underLabel {τ : Type} (idx : MembershipMap (ℕ × ℕ) τ) (labelId : ℕ) : List ℕ :=
  (((visibleEntries idx s).filter fun entry => entry.1.1 = labelId).map fun entry => entry.1.2).insertionSort (· ≤ ·)

def firstAfter (after : Option ℕ) (ids : List ℕ) : Option ℕ := ids.find? fun id => after.all (decide <| · < id)

def visibleNodesByLabelId (labelId : ℕ) : List ℕ := underLabel s m.base.labelNodeIndex labelId

def visibleNodesByLabelIdCount (labelId : ℕ) : ℕ := (visibleNodesByLabelId m s labelId).length

def nextVisibleNodeByLabelIdAfter (labelId : ℕ) (after : Option ℕ) : Option ℕ := firstAfter after (visibleNodesByLabelId m s labelId)

def visibleNodeIdsAt : List ℕ := ((visibleRecords m.base.nodes s).map (·.1)).insertionSort (· ≤ ·)

def visibleNodeCountAt : ℕ := (visibleRecords m.base.nodes s).length

def visibleEdgesByLabelId (labelId : ℕ) : List ℕ := underLabel s m.base.labelEdgeIndex labelId

def visibleEdgesByLabelIdCount (labelId : ℕ) : ℕ := (underLabel s m.orderedLabelEdgeIndex labelId).length

def nextVisibleEdgeByLabelIdAfter (labelId : ℕ) (after : Option ℕ) : Option ℕ :=
  firstAfter after (underLabel s m.orderedLabelEdgeIndex labelId)

def visibleEdgeIdsAt : List ℕ := ((visibleRecords m.base.edges s).map (·.1)).insertionSort (· ≤ ·)

def nextVisibleEdgeIdAfter (after : Option ℕ) : Option ℕ := firstAfter after (scanAt m.base.orderedEdgeIds (fun _ => true) s)

def visibleNodeLabelIds : List ℕ := (((visibleKeys m.base.labelNodeIndex s).map (·.1)).dedup).insertionSort (· ≤ ·)

def nodesByTimeAt (labelId : ℕ) (fromMs toMs : ℤ) : List (ℤ ×ₗ ℕ) :=
  if fromMs > toMs then []
  else (((visibleKeys m.base.timeNodeIndex s).filter fun key =>
    decide (key.1 = labelId) && decide (fromMs ≤ key.2.1) && decide (key.2.1 ≤ toMs)).map fun key =>
      toLex (key.2.1, key.2.2)).insertionSort (· ≤ ·)

def forEachVisibleNodeByTimeRangeAt (labelId : ℕ) (fromMs toMs : ℤ) : List ℕ :=
  (nodesByTimeAt m s labelId fromMs toMs).map fun entry => (ofLex entry).2

def visibleNodesByTimeRange (labelId : ℕ) (fromMs toMs : ℤ) : List ℕ :=
  (forEachVisibleNodeByTimeRangeAt m s labelId fromMs toMs).insertionSort (· ≤ ·)

def visibleNodeTimeRangeCountAt (labelId : ℕ) (fromMs toMs : ℤ) : ℕ := (forEachVisibleNodeByTimeRangeAt m s labelId fromMs toMs).length

def edgeIdsByTripleAt (source target labelId : ℕ) : List ℕ :=
  (((visibleEntries m.base.adjOut s).filter fun entry =>
    decide (entry.1.1 = source) && decide (entry.2.neighborId = target) && decide (entry.2.labelId = labelId)).map
      fun entry => entry.1.2).insertionSort (· ≤ ·)

def collectDeletedNodesAt : List ℕ := (visibleKeys m.base.nodeTombstones s).insertionSort (· ≤ ·)

def collectDeletedEdgesAt : List ℕ := (visibleKeys m.base.edgeTombstones s).insertionSort (· ≤ ·)

/-- The entries of a range index from a start on, in order. -/
def rangeStart (lower : Option (NumericRangeSortKey × Bool)) (after : Option (NumericRangeSortKey × ℕ))
    (entry : NumericRangeSortKey ×ₗ ℕ) : Bool :=
  lower.all (fun bound => if bound.2 then decide (bound.1 ≤ (ofLex entry).1) else decide (bound.1 < (ofLex entry).1)) &&
    after.all fun cursor => decide (toLex cursor < entry)

def secondaryRangePastUpper (encoded : NumericRangeSortKey) (upper : Option (NumericRangeSortKey × Bool)) : Bool :=
  upper.any fun bound => decide (bound.1 < encoded) || !bound.2 && decide (encoded = bound.1)

def rangeEntriesAt (indexId : ℕ) (lower upper : Option (NumericRangeSortKey × Bool))
    (after : Option (NumericRangeSortKey × ℕ)) : List (NumericRangeSortKey ×ₗ ℕ) :=
  ((((visibleKeys m.secondaryRangeState s).filter fun key => decide (key.1 = indexId)).map fun key =>
    toLex (key.2.1, key.2.2)).filter fun entry =>
      rangeStart lower after entry && !secondaryRangePastUpper (ofLex entry).1 upper).insertionSort (· ≤ ·)

def visibleSecondaryRangeEntriesLimited (indexId : ℕ) (lower upper : Option (NumericRangeSortKey × Bool))
    (after : Option (NumericRangeSortKey × ℕ)) (limit : Option ℕ) : List (NumericRangeSortKey ×ₗ ℕ) :=
  takeLimit limit (rangeEntriesAt m s indexId lower upper after)

def visibleSecondaryRangeEntryCount (indexId : ℕ) (lower upper : Option (NumericRangeSortKey × Bool))
    (after : Option (NumericRangeSortKey × ℕ)) : ℕ := (rangeEntriesAt m s indexId lower upper after).length

def compoundIdsAt (indexId : ℕ) (inRange : List ℕ → Bool) : List ℕ :=
  ((((visibleKeys m.secondaryCompoundState s).filter fun key => decide (key.1 = indexId) && inRange key.2.1).map fun key =>
    (toLex (key.2.1, key.2.2) : List ℕ ×ₗ ℕ)).insertionSort (· ≤ ·)).map fun entry => (ofLex entry).2

structure CompoundPrefixBounds where
  lower : List ℕ
  upperExclusive : List ℕ

structure CompoundLowerBound where
  key : List ℕ
  exclusiveComponentPrefix : Bool

structure CompoundRangeBounds where
  lower : Option CompoundLowerBound
  upperExclusive : List ℕ

def findCompoundPrefixAt (indexId : ℕ) (bounds : CompoundPrefixBounds) : List ℕ :=
  compoundIdsAt m s indexId fun key => decide (bounds.lower ≤ key) && decide (key < bounds.upperExclusive)

def countCompoundPrefixAt (indexId : ℕ) (bounds : CompoundPrefixBounds) : ℕ := (findCompoundPrefixAt m s indexId bounds).length

def findCompoundRangeAt (indexId : ℕ) (bounds : CompoundRangeBounds) : List ℕ :=
  compoundIdsAt m s indexId fun key =>
    bounds.lower.all (fun lower => decide (lower.key ≤ key) &&
      !(lower.exclusiveComponentPrefix && lower.key.isPrefixOf key)) && decide (key < bounds.upperExclusive)

def countCompoundRangeAt (indexId : ℕ) (bounds : CompoundRangeBounds) : ℕ := (findCompoundRangeAt m s indexId bounds).length

def idsWithHash (indexId valueHash : ℕ) : List ℕ :=
  ((visibleKeys m.secondaryEqState s).filter fun key => decide (key.1 = indexId) && decide (key.2.1 = valueHash)).map (·.2.2)

/-- The value is checked at the record. -/
def nodeHasValueAt (pkey : String) (value : PropValue) (id : ℕ) : Bool :=
  (getNodeAt m s id).any fun node => (node.props.lookup pkey).any (semanticPropertyEq · value)

def edgeHasValueAt (pkey : String) (value : PropValue) (id : ℕ) : Bool :=
  (getEdgeAt m s id).any fun edge => (edge.props.lookup pkey).any (semanticPropertyEq · value)

def secondaryEqNodeCountAt (indexId : ℕ) (pkey : String) (value : PropValue) : ℕ :=
  ((idsWithHash m s indexId (enc.hashPropEqualityKey value)).filter (nodeHasValueAt m s pkey value)).length

def secondaryEqEdgeCountAt (indexId : ℕ) (pkey : String) (value : PropValue) : ℕ :=
  ((idsWithHash m s indexId (enc.hashPropEqualityKey value)).filter (edgeHasValueAt m s pkey value)).length

def secondaryEqHashCountAt (indexId valueHash : ℕ) : ℕ := (idsWithHash m s indexId valueHash).length

/-- What a search of an equality index can return: it stops at the limit in an order that is not specified. -/
def FindSecondaryEqNodesAtLimited (indexId : ℕ) (pkey : String) (value : PropValue) (maxIds : Option ℕ)
    (res : List ℕ) : Prop :=
  ∃ ids : List ℕ, ids.Perm (idsWithHash m s indexId (enc.hashPropEqualityKey value)) ∧
    res = (takeLimit (maxIds.map (max 1)) (ids.filter (nodeHasValueAt m s pkey value))).insertionSort (· ≤ ·)

def FindSecondaryEqByHashAtLimited (indexId valueHash : ℕ) (maxIds : Option ℕ) (res : List ℕ) : Prop :=
  ∃ ids : List ℕ, ids.Perm (idsWithHash m s indexId valueHash) ∧ res = (takeLimit (maxIds.map (max 1)) ids).insertionSort (· ≤ ·)

def findSecondaryEqNodesAt (indexId : ℕ) (pkey : String) (value : PropValue) : List ℕ :=
  ((idsWithHash m s indexId (enc.hashPropEqualityKey value)).filter (nodeHasValueAt m s pkey value)).insertionSort (· ≤ ·)

inductive Direction where
  | outgoing
  | incoming
  | both
  deriving DecidableEq

structure NeighborRecord where
  nodeId : ℕ
  edgeId : ℕ
  edgeLabelId : ℕ
  weight : F32
  validFrom : ℤ
  validTo : ℤ
  deriving DecidableEq

/-- The results so far and the self loops among them. -/
structure Collected where
  results : List NeighborRecord
  selfLoopEdgeIds : List ℕ

/-- What one adjacency entry adds. -/
def collectEntry (nodeId : ℕ) (accept : AdjEntry → Bool) (limit : ℕ) (dedupeSelfLoops : Bool) (st : Collected)
    (entry : AdjEntry) : Collected :=
  if 0 < limit ∧ limit ≤ st.results.length then st
  else if !accept entry then st
  else if entry.neighborId = nodeId then
    if dedupeSelfLoops && decide (entry.edgeId ∈ st.selfLoopEdgeIds) then st
    else ⟨st.results ++ [⟨entry.neighborId, entry.edgeId, entry.labelId, entry.weight, entry.validFrom, entry.validTo⟩],
      entry.edgeId :: st.selfLoopEdgeIds⟩
  else ⟨st.results ++ [⟨entry.neighborId, entry.edgeId, entry.labelId, entry.weight, entry.validFrom, entry.validTo⟩], st.selfLoopEdgeIds⟩

def adjEntriesAt (adj : MembershipMap (ℕ × ℕ) AdjEntry) (nodeId : ℕ) : List AdjEntry :=
  ((visibleEntries adj s).filter fun entry => entry.1.1 = nodeId).map (·.2)

def collectNeighbors (nodeId : ℕ) (dir : Direction) (accept : AdjEntry → Bool) (limit : ℕ)
    (outEntries inEntries : List AdjEntry) : List NeighborRecord :=
  let collect := collectEntry nodeId accept limit
  (match dir with
    | .outgoing => outEntries.foldl (collect false) ⟨[], []⟩
    | .incoming => inEntries.foldl (collect false) ⟨[], []⟩
    | .both => inEntries.foldl (collect true) (outEntries.foldl (collect false) ⟨[], []⟩)).results

def labelAccepted (fids : Option (List ℕ)) (entry : AdjEntry) : Bool := fids.all (·.contains entry.labelId)

def NeighborsAt (nodeId : ℕ) (dir : Direction) (fids : Option (List ℕ)) (limit : ℕ)
    (res : List NeighborRecord) : Prop :=
  if isNodeDeletedAt m s nodeId then res = []
  else ∃ outEntries inEntries : List AdjEntry, outEntries.Perm (adjEntriesAt s m.base.adjOut nodeId) ∧
    inEntries.Perm (adjEntriesAt s m.base.adjIn nodeId) ∧
    res = collectNeighbors nodeId dir
      (fun entry => labelAccepted fids entry && !isNodeDeletedAt m s entry.neighborId) limit outEntries inEntries

/-- Incident edges are read without a look at the other end. -/
def IncidentEdgesAt (nodeId : ℕ) (dir : Direction) (fids : Option (List ℕ))
    (res : List NeighborRecord) : Prop :=
  if isNodeDeletedAt m s nodeId then res = []
  else ∃ outEntries inEntries : List AdjEntry, outEntries.Perm (adjEntriesAt s m.base.adjOut nodeId) ∧
    inEntries.Perm (adjEntriesAt s m.base.adjIn nodeId) ∧
    res = collectNeighbors nodeId dir (labelAccepted fids) 0 outEntries inEntries

def nextVisibleAdjEdgeAfter (ordered : MembershipMap (ℕ × ℕ) AdjEntry) (nodeId : ℕ) (fids : Option (List ℕ))
    (after : Option ℕ) : Option ℕ :=
  if isNodeDeletedAt m s nodeId then none
  else firstAfter after ((((visibleEntries ordered s).filter fun entry =>
    decide (entry.1.1 = nodeId) && labelAccepted fids entry.2 && !isNodeDeletedAt m s entry.2.neighborId).map
      fun entry => entry.1.2).insertionSort (· ≤ ·))

def nextVisibleEdgeFromEndpointAfter (nodeId : ℕ) (fids : Option (List ℕ)) (after : Option ℕ) : Option ℕ :=
  nextVisibleAdjEdgeAfter m s m.orderedAdjOut nodeId fids after

def nextVisibleEdgeToEndpointAfter (nodeId : ℕ) (fids : Option (List ℕ)) (after : Option ℕ) : Option ℕ :=
  nextVisibleAdjEdgeAfter m s m.orderedAdjIn nodeId fids after

/-- An estimate counts the cells of an endpoint, whatever their versions, and says whether it is exact. -/
structure CountEstimate where
  count : ℕ
  exact : Bool
  deriving DecidableEq

def visibleAdjEdgeCountEstimate (ordered : MembershipMap (ℕ × ℕ) AdjEntry) (fids : Option (List ℕ))
    (nodeId : ℕ) : CountEstimate :=
  if fids = some [] || isNodeDeletedAt m s nodeId then ⟨0, true⟩
  else
    let cells := ordered.keys.filter fun key => key.1 = nodeId
    ⟨cells.length, cells.isEmpty⟩

def addEstimates (estimates : List CountEstimate) : CountEstimate :=
  estimates.foldl (fun total estimate => ⟨total.count + estimate.count, total.exact && estimate.exact⟩) ⟨0, true⟩

def visibleEndpointEdgesCountEstimateAt (nodeIds : List ℕ) (dir : Direction) (fids : Option (List ℕ)) : CountEstimate :=
  let outgoing := addEstimates (nodeIds.map (visibleAdjEdgeCountEstimate m s m.orderedAdjOut fids))
  let incoming := addEstimates (nodeIds.map (visibleAdjEdgeCountEstimate m s m.orderedAdjIn fids))
  match dir with
  | .outgoing => outgoing
  | .incoming => incoming
  | .both => addEstimates [outgoing, incoming]

def ForEachVisibleNodeAt (vis : List NodeRecord) : Prop := vis.Perm ((visibleRecords m.base.nodes s).map (·.2))

/-- The edges that a visit of all visible edges can come by. -/
def ForEachEdgeMetadataAt (vis : List EdgeRecord) : Prop := vis.Perm ((visibleRecords m.base.edges s).map (·.2))

end

end OverGraph.SnapshotReads
