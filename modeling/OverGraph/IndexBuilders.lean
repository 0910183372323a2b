import OverGraph.CompactionPaths
import OverGraph.IndexHeads
import OverGraph.WalCodec

/-!
# The two builders of a segment

A flush writes the live records of a memtable and builds their indexes from the heads of the indexes
that the memtable maintains. A compaction copies the raw bytes of the winning records from its inputs
and builds the indexes from their metadata rows; only the keys are read from the raw bytes.
-/

namespace OverGraph.IndexBuilders
open Records Memtable ByteReaders WalCodec CompactionPaths

structure KeyIndexEntryPlan where
  labelId : ℕ
  key : List UInt8
  nodeId : ℕ
  encodedLen : ℕ

structure AdjacencyGroupPlan where
  nodeId : ℕ
  labelId : ℕ
  offset : ℕ
  postings : List AdjacencyPosting

def keyOrder (entry : KeyIndexEntryPlan) : ℕ ×ₗ List ℕ ×ₗ ℕ := lexTriple (entry.labelId, entry.key.map UInt8.toNat, entry.nodeId)

/-- Two entries name the same label and key for different nodes. -/
def sharesKey (left right : KeyIndexEntryPlan) : Bool :=
  left.labelId == right.labelId && left.key == right.key && left.nodeId != right.nodeId

def keyText (key : List UInt8) : String := (String.fromUTF8? ⟨key.toArray⟩).getD "<invalid utf8>"

/-- Sort the entries; two nodes may not share a label and a key. -/
def finishKeyIndex (entries : List KeyIndexEntryPlan) : Except EngineError (List KeyIndexEntryPlan) :=
  let sorted := entries.insertionSort fun a b => keyOrder a ≤ keyOrder b
  match (sorted.zip sorted.tail).find? fun pair => sharesKey pair.1 pair.2 with
  | some (left, _) => .error (.invalidOperation ("duplicate live node key membership for label " ++
      toString left.labelId ++ " and key '" ++ keyText left.key ++ "'"))
  | none => .ok sorted

/-- The bytes of a number in groups of seven bits. -/
def varintLen (v : ℕ) : ℕ := if 128 ≤ v then varintLen (v / 128) + 1 else 1
termination_by v
decreasing_by omega

/-- The end of a validity as it is stored: zero for an open one, otherwise the successor, which wraps. -/
def validToEnc (validTo : ℤ) : ℕ := if validTo = i64Max then 0 else (signedBits validTo + 1) % 2 ^ 64

/-- The length of the encoding of some postings behind the edge `prevEdgeId`. -/
def postingsLenFrom : ℕ → List AdjacencyPosting → ℕ
  | _, [] => 0
  | prevEdgeId, post :: rest =>
    varintLen (post.edgeId - prevEdgeId) + varintLen post.neighborId + 4 +
      varintLen (signedBits post.validFrom) + varintLen (validToEnc post.validTo) +
      postingsLenFrom post.edgeId rest

def adjacencyPostingsLen (ps : List AdjacencyPosting) : ℕ := postingsLenFrom 0 ps

/-- Lay the groups out one behind the other. -/
def placeGroups : ℕ → List ((ℕ ×ₗ ℕ) × List AdjacencyPosting) → List AdjacencyGroupPlan
  | _, [] => []
  | offset, (key, ps) :: rest => ⟨(ofLex key).1, (ofLex key).2, offset, ps⟩ :: placeGroups (offset + adjacencyPostingsLen ps) rest

def sortPostings (ps : List AdjacencyPosting) : List AdjacencyPosting := ps.insertionSort fun a b => a.edgeId ≤ b.edgeId

def EdgeMetadataIndexEntries.push (entries : EdgeMetadataIndexEntries) (labelId : ℕ) (updatedAt : ℤ) (weight : F32)
    (validFrom validTo : ℤ) (edgeId : ℕ) : EdgeMetadataIndexEntries where
  weight := match encodeEdgeWeightKey weight with
    | some weightKey => entries.weight ++ [(labelId, (weightKey.toNat : ℤ), edgeId)]
    | none => entries.weight
  updatedAt := entries.updatedAt ++ [(labelId, updatedAt, edgeId)]
  validFrom := entries.validFrom ++ [(labelId, validFrom, edgeId)]
  validTo := entries.validTo ++ [(labelId, validTo, edgeId)]

def EdgeMetadataIndexEntries.sortAll (entries : EdgeMetadataIndexEntries) : EdgeMetadataIndexEntries where
  weight := sortMetadata entries.weight
  updatedAt := sortMetadata entries.updatedAt
  validFrom := sortMetadata entries.validFrom
  validTo := sortMetadata entries.validTo

/-- Entries `(from, to, label, edge)` in ascending order. -/
def sortTriples (entries : List (ℕ × ℕ × ℕ × ℕ)) : List (ℕ × ℕ × ℕ × ℕ) :=
  entries.insertionSort fun a b => toLex (a.1, lexTriple a.2) ≤ toLex (b.1, lexTriple b.2)

/-- The core of a segment: the two record components and the plans of the indexes. -/
structure SegmentPlan where
  nodeRecords : List UInt8 × List (ℕ × ℕ × ℕ)
  edgeRecords : List UInt8 × List (ℕ × ℕ × ℕ)
  keyIndex : List KeyIndexEntryPlan
  nodeLabelIndex : List (ℕ × List ℕ)
  timestampIndex : List (ℕ × ℤ × ℕ)
  adjOut : List AdjacencyGroupPlan
  adjIn : List AdjacencyGroupPlan
  edgeLabelIndex : List (ℕ × List ℕ)
  edgeTripleIndex : List (ℕ × ℕ × ℕ × ℕ)
  edgeMetadataIndexes : EdgeMetadataIndexEntries

section
variable (ser : PropsSerializer)

def encodeProps (props : Props) : Except EngineError (List UInt8) :=
  match ser.toVec props with
  | .error msg => .error (.serializationError msg)
  | .ok bytes => .ok (writeU32 bytes.length ++ bytes)

def keyTooLong : EngineError := .serializationError ("node key exceeds maximum length of " ++ toString u16Max ++ " bytes")

def encodeNodeRecordInto (node : NodeRecord) : Except EngineError (List UInt8) :=
  if u16Max < (utf8 node.key).length then .error keyTooLong
  else do
    let props ← encodeProps ser node.props
    .ok (writeU8 node.labelIds.labelIds.length ++ (node.labelIds.labelIds.flatMap writeU32 ++
      (writeU16 (utf8 node.key).length ++ (utf8 node.key ++ (writeI64 node.createdAt ++ writeI64 node.updatedAt ++
        writeF32 node.weight ++ props)))))

def encodeEdgeRecordInto (edge : EdgeRecord) : Except EngineError (List UInt8) := do
  let props ← encodeProps ser edge.props
  .ok (writeU64 edge.source ++ writeU64 edge.target ++ writeU32 edge.labelId ++ writeI64 edge.createdAt ++
    writeI64 edge.updatedAt ++ writeF32 edge.weight ++ writeI64 edge.validFrom ++ writeI64 edge.validTo ++ props)

end

/-- The size of an entry of a record table: an id and an offset. -/
def indexEntrySize : ℕ := 16

/-- The entries of a record table, where each record starts behind the one before. -/
def tableEntries : ℕ → List (ℕ × List UInt8) → List UInt8
  | _, [] => []
  | offset, (id, bytes) :: rest => writeU64 id ++ writeU64 offset ++ tableEntries (offset + bytes.length) rest

/-- A record component: the count, the table, the records one behind the other. -/
def recordPayload (records : List (ℕ × List UInt8)) : List UInt8 :=
  writeU64 records.length ++ tableEntries (8 + records.length * indexEntrySize) records ++ records.flatMap Prod.snd

/-- Where each record starts and how long it is, by its id. -/
def recordSpans : ℕ → List (ℕ × List UInt8) → List (ℕ × ℕ × ℕ)
  | _, [] => []
  | offset, (id, bytes) :: rest => (id, offset, bytes.length) :: recordSpans (offset + bytes.length) rest

/-- A record component with the spans that its metadata rows note. -/
def recordComponent (records : List (ℕ × List UInt8)) : List UInt8 × List (ℕ × ℕ × ℕ) :=
  (recordPayload records, recordSpans (8 + records.length * indexEntrySize) records)

/-- The cells of a hash map that hold a value. -/
def currentCells {κ τ : Type} (idx : MembershipMap κ τ) : List (κ × τ) := idx.entries.filterMap fun e => e.2.current.map fun v => (e.1, v)

def orderedCells {κ τ β : Type} [LinearOrder β] (order : κ → β) (idx : MembershipMap κ τ) : List (κ × Option τ) :=
  (idx.entries.map fun e => (e.1, e.2.current)).insertionSort fun a b => order a.1 ≤ order b.1

structure LabelWalk where
  groups : List (ℕ × List ℕ)
  currentLabelId : Option ℕ
  currentIds : List ℕ

/-- Close the group in progress, unless it is empty. -/
def LabelWalk.close (walk : LabelWalk) : List (ℕ × List ℕ) :=
  match walk.currentLabelId with
  | some labelId => if walk.currentIds.isEmpty then walk.groups else walk.groups ++ [(labelId, walk.currentIds)]
  | none => walk.groups

def LabelWalk.visit (walk : LabelWalk) (cell : (ℕ × ℕ) × Option Unit) : LabelWalk :=
  let walk := if walk.currentLabelId = some cell.1.1 then walk else ⟨walk.close, some cell.1.1, []⟩
  if cell.2.isSome then { walk with currentIds := walk.currentIds ++ [cell.1.2] } else walk

namespace Flush
variable (m : MemtableState)

def nodes : List NodeRecord := m.liveNodes.entries.map Sigma.snd

def edges : List EdgeRecord := m.liveEdges.entries.map Sigma.snd

def nodesById : List NodeRecord := (nodes m).insertionSort fun a b => a.id ≤ b.id

def edgesById : List EdgeRecord := (edges m).insertionSort fun a b => a.id ≤ b.id

def nodeLabelPostingGroupsCurrent : List (ℕ × List ℕ) := ((orderedCells toLex m.labelNodeIndex).foldl LabelWalk.visit ⟨[], none, []⟩).close

def timeNodeIndex : List (ℕ × ℤ × ℕ) := (orderedCells lexTriple m.timeNodeIndex).filterMap fun cell => cell.2.map fun _ => cell.1

def currentLabelMembershipIndex (source : MembershipMap (ℕ × ℕ) Unit) : List (ℕ × List ℕ) :=
  groupsOf ((currentCells source).map fun cell => (cell.1.1, [cell.1.2]))

def currentAdjMap (source : MembershipMap (ℕ × ℕ) AdjEntry) : List (ℕ × List AdjEntry) :=
  groupsOf ((currentCells source).map fun cell => (cell.1.1, [cell.2]))

section
variable (ser : PropsSerializer)

def writeNodesPayload : Except EngineError (List UInt8 × List (ℕ × ℕ × ℕ)) := do
  let records ← (nodesById m).mapM fun node => do
    let bytes ← encodeNodeRecordInto ser node
    .ok (node.id, bytes)
  .ok (recordComponent records)

def writeEdgesPayload : Except EngineError (List UInt8 × List (ℕ × ℕ × ℕ)) := do
  let records ← (edgesById m).mapM fun edge => do
    let bytes ← encodeEdgeRecordInto ser edge
    .ok (edge.id, bytes)
  .ok (recordComponent records)

end

def prepareKeyIndexPayload (nodes : List NodeRecord) : Except EngineError (List KeyIndexEntryPlan) := do
  let entries ← nodes.mapM fun node =>
    if u16Max < (utf8 node.key).length then .error keyTooLong
    else .ok (node.labelIds.labelIds.map fun labelId =>
      KeyIndexEntryPlan.mk labelId (utf8 node.key) node.id (4 + 8 + 2 + (utf8 node.key).length))
  finishKeyIndex entries.flatten

def prepareLabelPostingIndexPayload (idx : List (ℕ × List ℕ)) : List (ℕ × List ℕ) :=
  ((idx.filter fun group => !group.2.isEmpty).map fun group => (group.1, group.2.insertionSort (· ≤ ·))).insertionSort fun a b => a.1 ≤ b.1

def prepareAdjacencyPayloads (adj : List (ℕ × List AdjEntry)) : List AdjacencyGroupPlan :=
  let groups := adj.flatMap fun node =>
    (groupsOf (node.2.map fun entry =>
      (entry.labelId, [AdjacencyPosting.mk entry.edgeId entry.neighborId entry.weight entry.validFrom entry.validTo]))).map
      fun group => (toLex (node.1, group.1), sortPostings group.2)
  placeGroups 0 (groups.insertionSort fun a b => a.1 ≤ b.1)

def prepareEdgeTripleIndexPayload (edges : List EdgeRecord) : List (ℕ × ℕ × ℕ × ℕ) :=
  sortTriples (edges.map fun edge => (edge.source, edge.target, edge.labelId, edge.id))

def prepareFlushEdgeMetadataIndexComponents (edges : List EdgeRecord) : EdgeMetadataIndexEntries :=
  EdgeMetadataIndexEntries.sortAll (edges.foldl (fun entries edge => EdgeMetadataIndexEntries.push entries edge.labelId
    edge.updatedAt edge.weight edge.validFrom edge.validTo edge.id) ⟨[], [], [], []⟩)

/-- What the flush of a memtable writes. -/
def segmentPlan (ser : PropsSerializer) : Except EngineError SegmentPlan := do
  let nodeRecords ← writeNodesPayload m ser
  let edgeRecords ← writeEdgesPayload m ser
  let keyIndex ← prepareKeyIndexPayload (nodes m)
  .ok {
    nodeRecords := nodeRecords
    edgeRecords := edgeRecords
    keyIndex := keyIndex
    nodeLabelIndex := nodeLabelPostingGroupsCurrent m
    timestampIndex := timeNodeIndex m
    adjOut := prepareAdjacencyPayloads (currentAdjMap m.adjOut)
    adjIn := prepareAdjacencyPayloads (currentAdjMap m.adjIn)
    edgeLabelIndex := prepareLabelPostingIndexPayload (currentLabelMembershipIndex m.labelEdgeIndex)
    edgeTripleIndex := prepareEdgeTripleIndexPayload (edges m)
    edgeMetadataIndexes := prepareFlushEdgeMetadataIndexComponents (edges m) }

end Flush

/-- The mapped record components of an input. Their lengths are machine words. -/
structure SourceSegment where
  rawNodesMmap : List UInt8
  rawEdgesMmap : List UInt8
  nodesFit : rawNodesMmap.length < 2 ^ 64
  edgesFit : rawEdgesMmap.length < 2 ^ 64

structure CompactNodeMeta where
  nodeId : ℕ
  dataLen : ℕ
  labelIds : NodeLabelSet
  updatedAt : ℤ
  keyLen : ℕ
  srcSegIdx : ℕ
  srcDataOffset : ℕ

structure CompactEdgeMeta where
  edgeId : ℕ
  dataLen : ℕ
  source : ℕ
  target : ℕ
  labelId : ℕ
  updatedAt : ℤ
  weight : F32
  validFrom : ℤ
  validTo : ℤ
  srcSegIdx : ℕ
  srcDataOffset : ℕ

def checkedAdd (a b : ℕ) : Option ℕ := if a + b < 2 ^ 64 then some (a + b) else none

def orCorrupt {α : Type} (value : Option α) (msg : String) : Except EngineError α := value.elim (.error (.corruptRecord msg)) .ok

/-- Go on where the condition holds, otherwise report corruption. -/
def ensure (cond : Prop) [Decidable cond] (msg : String) : Except EngineError Unit := if cond then .ok () else .error (.corruptRecord msg)

def slice (bytes : List UInt8) (start stop : ℕ) : List UInt8 := (bytes.drop start).take (stop - start)

/-- The mapping of an input; an index past the inputs panics. -/
def sourceMmap (mmaps : List (List UInt8)) (srcSegIdx : ℕ) : Except EngineError (List UInt8) :=
  orCorrupt mmaps[srcSegIdx]? "index out of bounds"

/-- Copy the bytes of one record. -/
def copySpan (kind : String) (mmaps : List (List UInt8)) (id srcSegIdx srcOffset dataLen : ℕ) : Except EngineError (ℕ × List UInt8) := do
  let mmap ← sourceMmap mmaps srcSegIdx
  let stop ← orCorrupt (checkedAdd srcOffset dataLen) (kind ++ " " ++ toString id ++ " data span offset overflow: start=" ++
    toString srcOffset ++ ", len=" ++ toString dataLen)
  ensure (stop ≤ mmap.length) (kind ++ " " ++ toString id ++ " data span [" ++ toString srcOffset ++ ", " ++ toString stop ++
    ") exceeds mmap length " ++ toString mmap.length)
  .ok (id, slice mmap srcOffset stop)

namespace Compaction
variable (segs : List SourceSegment)

def writeV3NodesDat (nodeMetas : List CompactNodeMeta) : Except EngineError (List UInt8 × List (ℕ × ℕ × ℕ)) := do
  let records ← nodeMetas.mapM fun nm => copySpan "node" (segs.map (·.rawNodesMmap)) nm.nodeId nm.srcSegIdx nm.srcDataOffset nm.dataLen
  .ok (recordComponent records)

def writeV3EdgesDat (edgeMetas : List CompactEdgeMeta) : Except EngineError (List UInt8 × List (ℕ × ℕ × ℕ)) := do
  let records ← edgeMetas.mapM fun em => copySpan "edge" (segs.map (·.rawEdgesMmap)) em.edgeId em.srcSegIdx em.srcDataOffset em.dataLen
  .ok (recordComponent records)

def rawNodeKeyBytesFromMeta (nm : CompactNodeMeta) : Except EngineError (List UInt8) := do
  let node := "node " ++ toString nm.nodeId
  let srcMmap ← sourceMmap (segs.map (·.rawNodesMmap)) nm.srcSegIdx
  let recordStart := nm.srcDataOffset
  let recordEnd ← orCorrupt (checkedAdd recordStart nm.dataLen) (node ++ " source record span overflow")
  ensure (recordEnd ≤ srcMmap.length) (node ++ " source record span [" ++ toString recordStart ++ ", " ++
    toString recordEnd ++ ") exceeds source mmap length " ++ toString srcMmap.length)
  ensure (recordStart < recordEnd) (node ++ " source record is empty")
  let rawLabelCount := fromLe (slice srcMmap recordStart (recordStart + 1))
  ensure (rawLabelCount = nm.labelIds.labelIds.length) (node ++ " raw label count " ++ toString rawLabelCount ++
    " does not match metadata label count " ++ toString nm.labelIds.labelIds.length)
  let keyLenOffset ← orCorrupt ((checkedAdd recordStart 1).bind (checkedAdd · (rawLabelCount * 4)))
    (node ++ " key length offset overflow")
  let keyStart ← orCorrupt (checkedAdd keyLenOffset 2) (node ++ " key start offset overflow")
  ensure (keyStart ≤ recordEnd) (node ++ " key length field exceeds source record span")
  let rawKeyLen := fromLe (slice srcMmap keyLenOffset (keyLenOffset + 2))
  ensure (rawKeyLen = nm.keyLen) (node ++ " raw key length " ++ toString rawKeyLen ++
    " does not match metadata key length " ++ toString nm.keyLen)
  let keyEnd ← orCorrupt (checkedAdd keyStart nm.keyLen) (node ++ " key end offset overflow")
  ensure (keyEnd ≤ recordEnd) (node ++ " key bytes [" ++ toString keyStart ++ ", " ++ toString keyEnd ++
    ") exceed source record span ending at " ++ toString recordEnd)
  .ok (slice srcMmap keyStart keyEnd)

def prepareKeyIndexPayloadFromMeta (nodeMetas : List CompactNodeMeta) : Except EngineError (List KeyIndexEntryPlan) := do
  let entries ← nodeMetas.mapM fun nm => do
    let key ← rawNodeKeyBytesFromMeta segs nm
    .ok (nm.labelIds.labelIds.map fun labelId => KeyIndexEntryPlan.mk labelId key nm.nodeId (4 + 8 + 2 + nm.keyLen))
  finishKeyIndex entries.flatten

def prepareNodeLabelIndexPayloadFromMeta (nodeMetas : List CompactNodeMeta) : List (ℕ × List ℕ) :=
  sortedGroups (nodeMetas.flatMap fun nm => nm.labelIds.labelIds.map fun labelId => (labelId, [nm.nodeId]))

def prepareEdgeLabelIndexPayloadFromMeta (edgeMetas : List CompactEdgeMeta) : List (ℕ × List ℕ) :=
  (groupsOf (edgeMetas.map fun em => (em.labelId, [em.edgeId]))).map fun group => (group.1, group.2.insertionSort (· ≤ ·))

def prepareTimestampIndexPayloadFromMeta (nodeMetas : List CompactNodeMeta) : List (ℕ × ℤ × ℕ) :=
  sortMetadata (nodeMetas.flatMap fun nm => nm.labelIds.labelIds.map fun labelId => (labelId, nm.updatedAt, nm.nodeId))

def prepareEdgeTripleIndexPayloadFromMeta (edgeMetas : List CompactEdgeMeta) : List (ℕ × ℕ × ℕ × ℕ) :=
  sortTriples (edgeMetas.map fun em => (em.source, em.target, em.labelId, em.edgeId))

def prepareEdgeMetadataIndexComponentsFromMeta (edgeMetas : List CompactEdgeMeta) : EdgeMetadataIndexEntries :=
  EdgeMetadataIndexEntries.sortAll (edgeMetas.foldl (fun entries em => EdgeMetadataIndexEntries.push entries em.labelId
    em.updatedAt em.weight em.validFrom em.validTo em.edgeId) ⟨[], [], [], []⟩)

def prepareAdjacencyPayloadsFromMeta (edgeMetas : List CompactEdgeMeta) (isOutgoing : Bool) : List AdjacencyGroupPlan :=
  let post (em : CompactEdgeMeta) : (ℕ ×ₗ ℕ) × List AdjacencyPosting :=
    let (nodeId, neighborId) := if isOutgoing then (em.source, em.target) else (em.target, em.source)
    (toLex (nodeId, em.labelId), [⟨em.edgeId, neighborId, em.weight, em.validFrom, em.validTo⟩])
  placeGroups 0 ((groupsOf (edgeMetas.map post)).map fun group => (group.1, sortPostings group.2))

/-- What a compaction writes for the rows of its winners. -/
def segmentPlan (nodeMetas : List CompactNodeMeta) (edgeMetas : List CompactEdgeMeta) : Except EngineError SegmentPlan := do
  let nodeRecords ← writeV3NodesDat segs nodeMetas
  let edgeRecords ← writeV3EdgesDat segs edgeMetas
  let keyIndex ← prepareKeyIndexPayloadFromMeta segs nodeMetas
  .ok {
    nodeRecords := nodeRecords
    edgeRecords := edgeRecords
    keyIndex := keyIndex
    nodeLabelIndex := prepareNodeLabelIndexPayloadFromMeta nodeMetas
    timestampIndex := prepareTimestampIndexPayloadFromMeta nodeMetas
    adjOut := prepareAdjacencyPayloadsFromMeta edgeMetas true
    adjIn := prepareAdjacencyPayloadsFromMeta edgeMetas false
    edgeLabelIndex := prepareEdgeLabelIndexPayloadFromMeta edgeMetas
    edgeTripleIndex := prepareEdgeTripleIndexPayloadFromMeta edgeMetas
    edgeMetadataIndexes := prepareEdgeMetadataIndexComponentsFromMeta edgeMetas }

end Compaction
end OverGraph.IndexBuilders
