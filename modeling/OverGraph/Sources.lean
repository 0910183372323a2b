import OverGraph.BatchLookup
import OverGraph.Segments

/-!
# The layered sources of a read

A read consults the active memtable, then the immutable memtables, then the segments,
each newest first, all at one snapshot. The functions here follow the program's loops:
an early return is a search for the first layer with an opinion, and the batched forms
carry the unresolved lookups from layer to layer. Reads of a well-formed segment do not
fail, so the functions are total.
-/

namespace OverGraph.Sources
open Records Memtable MemtableState Segments LayeredWrites BatchLookup

structure SourceList where
  active : MemtableState
  immutable : List MemtableState
  segments : List Segment
  snapshotSeq : ℕ

structure NodeVisibilityMeta where
  labelIds : NodeLabelSet
  updatedAt : ℤ
  weight : F32

inductive NodeVisibilityState where
  | live (info : NodeVisibilityMeta)
  | deleted
  | missing

def NodeVisibilityState.isMissing : NodeVisibilityState → Bool
  | .missing => true
  | _ => false

def visibilityMeta (node : NodeRecord) : NodeVisibilityMeta := ⟨node.labelIds, node.updatedAt, node.weight⟩

inductive PropertySelection where
  | none
  | keys (names : List String)
  | all

inductive VectorSelection where
  | none
  | dense
  | sparse
  | both

def VectorSelection.needsDense : VectorSelection → Bool
  | .dense | .both => true
  | _ => false

def VectorSelection.needsSparse : VectorSelection → Bool
  | .sparse | .both => true
  | _ => false

structure NodeSelectedFieldNeeds where
  key : Bool := false
  createdAt : Bool := false
  props : PropertySelection := .none
  vectors : VectorSelection := .none

structure NodeMetadataForQuery where
  id : ℕ
  labelIds : NodeLabelSet
  updatedAt : ℤ
  weight : F32

structure SelectedNodeFields where
  info : NodeMetadataForQuery
  key : Option String
  props : Props
  createdAt : Option ℤ
  denseVector : Option DenseVector
  sparseVector : Option SparseVector

def selectedPropsFromMap (props : Props) : PropertySelection → Props
  | .none => ∅
  | .keys names => names.foldl (fun selected name =>
      match props.lookup name with
      | some value => selected.insert name value
      | none => selected) ∅
  | .all => props

def selectedNodeFields (needs : NodeSelectedFieldNeeds) (node : NodeRecord) : SelectedNodeFields where
  info := ⟨node.id, node.labelIds, node.updatedAt, node.weight⟩
  key := if needs.key then some node.key else none
  props := selectedPropsFromMap node.props needs.props
  createdAt := if needs.createdAt then some node.createdAt else none
  denseVector := if needs.vectors.needsDense then node.denseVector else none
  sparseVector := if needs.vectors.needsSparse then node.sparseVector else none

def recordLookup {ρ ν : Type} (project : ρ → ν) : RecordState ρ → Option (Option ν)
  | .live value => some (some (project value))
  | .tombstone _ => none

def nodeLookupAt {ν : Type} (project : NodeRecord → ν) (s : ℕ) (m : MemtableState) : Opinion ℕ (Option ν) :=
  fun id => (m.nodeStateAt id s).map (recordLookup project)

def edgeLookupAt (s : ℕ) (m : MemtableState) : Opinion ℕ (Option EdgeRecord) :=
  fun id => (m.edgeStateAt id s).map (recordLookup fun edge => edge)

def nodeVisibilityStateAt (s : ℕ) (m : MemtableState) (id : ℕ) : NodeVisibilityState :=
  match m.nodeStateAt id s with
  | some (.live node) => .live (visibilityMeta node)
  | some (.tombstone _) => .deleted
  | none => if m.isNodeDeletedAt id s then .deleted else .missing

def batchGetNodesAt (s : ℕ) (m : MemtableState) : Batch ℕ (Option NodeRecord) → Batch ℕ (Option NodeRecord) :=
  cachedResolve (nodeLookupAt (fun node => node) s m)

def batchGetEdgesAt (s : ℕ) (m : MemtableState) : Batch ℕ (Option EdgeRecord) → Batch ℕ (Option EdgeRecord) :=
  cachedResolve (edgeLookupAt s m)

def batchGetNodeSelectedFieldsAt (needs : NodeSelectedFieldNeeds) (s : ℕ) (m : MemtableState) :
    Batch ℕ (Option SelectedNodeFields) → Batch ℕ (Option SelectedNodeFields) :=
  cachedResolve (nodeLookupAt (selectedNodeFields needs) s m)

def batchGetNodeVisibilityMetaAt (s : ℕ) (m : MemtableState) : Batch ℕ NodeVisibilityState → Batch ℕ NodeVisibilityState :=
  stateResolve NodeVisibilityState.isMissing (nodeVisibilityStateAt s m)

def batchEdgesByTriplesAt (s : ℕ) (m : MemtableState) : Batch (ℕ × ℕ × ℕ) (Option EdgeRecord) → Batch (ℕ × ℕ × ℕ) (Option EdgeRecord) :=
  cachedResolve fun triple => (m.edgeByTripleAt triple s).map fun edge => some (some edge)

namespace SourceList
variable (sl : SourceList)

def findNode (id : ℕ) : Option NodeRecord :=
  let inMemtable (m : MemtableState) : Option (Option NodeRecord) :=
    match m.getNodeAt id sl.snapshotSeq with
    | some node => some (some node)
    | none => if m.isNodeDeletedAt id sl.snapshotSeq then some none else none
  let inSegment (seg : Segment) : Option (Option NodeRecord) := if seg.isNodeDeleted id then some none else (seg.getNode id).map some
  (((sl.active :: sl.immutable).findSome? inMemtable).or (sl.segments.findSome? inSegment)).join

def findEdge (id : ℕ) : Option EdgeRecord :=
  let inMemtable (m : MemtableState) : Option (Option EdgeRecord) :=
    match m.getEdgeAt id sl.snapshotSeq with
    | some edge => some (some edge)
    | none => if m.isEdgeDeletedAt id sl.snapshotSeq then some none else none
  let inSegment (seg : Segment) : Option (Option EdgeRecord) := if seg.isEdgeDeleted id then some none else (seg.getEdge id).map some
  (((sl.active :: sl.immutable).findSome? inMemtable).or (sl.segments.findSome? inSegment)).join

/-- The batched lookups go through the memtables as they are, and through the segments
in the order of their keys. -/
def batchFind {κ ρ : Type} (blank : ρ) (le : ℕ × κ → ℕ × κ → Bool)
    (memtableStep : MemtableState → Batch κ ρ → Batch κ ρ)
    (segmentStep : Segment → Batch κ ρ → Batch κ ρ) (keys : List κ) : List ρ :=
  let b := memtableStep sl.active (Batch.start blank keys)
  let b := walk memtableStep sl.immutable b
  if b.remaining.isEmpty then b.results
  else (walk segmentStep sl.segments { b with remaining := b.remaining.mergeSort le }).results

/-- Lookups are sorted by their identifier. -/
def byId (a b : ℕ × ℕ) : Bool := decide (a.2 ≤ b.2)

def findNodes (ids : List ℕ) : List (Option NodeRecord) :=
  sl.batchFind none byId (batchGetNodesAt sl.snapshotSeq)
    (fun seg => storedStep seg.isNodeDeleted seg.getNode) ids

def findEdges (ids : List ℕ) : List (Option EdgeRecord) :=
  sl.batchFind none byId (batchGetEdgesAt sl.snapshotSeq)
    (fun seg => storedStep seg.isEdgeDeleted seg.getEdge) ids

def findNodeVisibilityMeta (ids : List ℕ) : List NodeVisibilityState :=
  sl.batchFind .missing byId (batchGetNodeVisibilityMetaAt sl.snapshotSeq)
    (fun seg => compactStep seg.isNodeDeleted (fun id => (seg.getNode id).map visibilityMeta)
      (some .deleted) .live) ids

def findNodeProjectedFields (needs : NodeSelectedFieldNeeds) (ids : List ℕ) : List (Option SelectedNodeFields) :=
  sl.batchFind none byId (batchGetNodeSelectedFieldsAt needs sl.snapshotSeq)
    (fun seg => compactStep seg.isNodeDeleted
      (fun id => (seg.getNode id).map (selectedNodeFields needs)) none some) ids

def isNodeTombstonedAboveImmutable (nodeId immIdx : ℕ) : Bool :=
  sl.active.isNodeDeletedAt nodeId sl.snapshotSeq ||
    (sl.immutable.take immIdx).any (·.isNodeDeletedAt nodeId sl.snapshotSeq)

def isEdgeTombstonedAboveImmutable (edgeId immIdx : ℕ) : Bool :=
  sl.active.isEdgeDeletedAt edgeId sl.snapshotSeq ||
    (sl.immutable.take immIdx).any (·.isEdgeDeletedAt edgeId sl.snapshotSeq)

def isEdgeTombstonedAboveSegment (edgeId segIdx : ℕ) : Bool :=
  sl.active.isEdgeDeletedAt edgeId sl.snapshotSeq ||
    sl.immutable.any (·.isEdgeDeletedAt edgeId sl.snapshotSeq) ||
    (sl.segments.take segIdx).any (·.isEdgeDeleted edgeId)

abbrev LabelKey := ℕ × String

/-- One immutable memtable: a claim of a node deleted further up closes the lookup
without a candidate. -/
def keySearchImmutable (idOf : MemtableState → LabelKey → Option ℕ)
    (search : ClaimSearch LabelKey ℕ) (epoch : MemtableState × ℕ) : ClaimSearch LabelKey ℕ :=
  if search.remaining.isEmpty then search
  else
    claimStep (fun key => (idOf epoch.1 key).map fun id => if sl.isNodeTombstonedAboveImmutable id epoch.2 then none else some id) search

def keySearchSegment (keys : List LabelKey) (search : ClaimSearch LabelKey ℕ) (seg : Segment) : ClaimSearch LabelKey ℕ :=
  if search.remaining.isEmpty then search
  else
    let resolved := seg.resolveKeysToIds search.remaining
    let found := resolved.map Prod.fst
    ⟨search.remaining.filter fun lookup => !found.contains lookup.1, search.candidates ++ resolved.filterMap fun entry =>
        keys[entry.1]?.map fun key => (entry.1, key, entry.2)⟩

def byLabelKey (a b : ℕ × LabelKey) : Bool := decide (a.2.1 < b.2.1) || (decide (a.2.1 = b.2.1) && decide (a.2.2 ≤ b.2.2))

def collectCandidates (idOf : MemtableState → LabelKey → Option ℕ) (keys : List LabelKey)
    (start : ClaimSearch LabelKey ℕ) : List (ℕ × LabelKey × ℕ) :=
  let search := sl.immutable.zipIdx.foldl (sl.keySearchImmutable idOf) start
  let search := { search with remaining := search.remaining.mergeSort byLabelKey }
  (sl.segments.foldl (keySearchSegment keys) search).candidates

/-- The distinct claimants, ascending. -/
def candidateIds (candidates : List (ℕ × LabelKey × ℕ)) : List ℕ :=
  ((candidates.map fun c => c.2.2).mergeSort fun a b => decide (a ≤ b)).dedup

/-- The claimants that are live and carry one of the labels they are claimed under. -/
def visibleCandidates (candidates : List (ℕ × LabelKey × ℕ)) : List ℕ :=
  let ids := candidateIds candidates
  (ids.zip (sl.findNodeVisibilityMeta ids)).filterMap fun entry =>
    match entry.2 with
    | .live info =>
      if candidates.any fun c => c.2.2 == entry.1 && info.labelIds.contains c.2.1.1 then
        some entry.1
      else none
    | _ => none

/-- Accept a claim if the newest version of the claimant carries the key. -/
def checkNode (visibleIds : List ℕ) (hydra : List (Option NodeRecord)) (claim : LabelKey × ℕ) : Option (Option NodeRecord) :=
  (visibleIds.idxOf? claim.2).bind fun position =>
    (hydra[position]?.join).bind fun node => if node.labelIds.contains claim.1.1 && node.key == claim.1.2 then some (some node) else none

def findNodesByLabelKeys (keys : List LabelKey) : List (Option NodeRecord) :=
  let b := resolve (fun key => (sl.active.nodeByKeyAt key.1 key.2 sl.snapshotSeq).map
    fun node => some (some node)) (Batch.start none keys)
  let candidates := sl.collectCandidates
    (fun m key => (m.nodeByKeyAt key.1 key.2 sl.snapshotSeq).map (·.id)) keys ⟨b.remaining, []⟩
  let visibleIds := sl.visibleCandidates candidates
  storeAll (checkNode visibleIds (sl.findNodes visibleIds)) candidates b.results

/-- Accept a claim if the projected fields of the claimant carry the key. -/
def checkFields (ids : List ℕ) (selected : List (Option SelectedNodeFields))
    (claim : LabelKey × ℕ) : Option (Option ℕ) :=
  (ids.idxOf? claim.2).bind fun position =>
    (selected[position]?.join).bind fun fields =>
      if fields.info.labelIds.contains claim.1.1 && fields.key == some claim.1.2 then
        some (some claim.2)
      else none

def findNodeIdsByLabelKeys (keys : List LabelKey) : List (Option ℕ) :=
  let idOf (m : MemtableState) (key : LabelKey) := m.nodeIdByKeyAt key.1 key.2 sl.snapshotSeq
  let start := claimStep (fun key => (idOf sl.active key).map some) ⟨enumerate keys, []⟩
  let candidates := sl.collectCandidates idOf keys start
  let ids := candidateIds candidates
  storeAll (checkFields ids (sl.findNodeProjectedFields { key := true } ids)) candidates
    (List.replicate keys.length none)

def findNodeByLabelKey (labelId : ℕ) (key : String) : Option NodeRecord := (sl.findNodesByLabelKeys [(labelId, key)]).getLast?.join

def findEdgeByTriple (triple : ℕ × ℕ × ℕ) : Option EdgeRecord :=
  match sl.active.edgeByTripleAt triple sl.snapshotSeq with
  | some edge => some edge
  | none =>
    let inImmutable (epoch : MemtableState × ℕ) : Option (Option EdgeRecord) :=
      (epoch.1.edgeByTripleAt triple sl.snapshotSeq).map fun edge =>
        if sl.isEdgeTombstonedAboveImmutable edge.id epoch.2 then none else some edge
    let inSegment (seg : Segment × ℕ) : Option (Option EdgeRecord) :=
      (seg.1.edgeByTriple triple).map fun edge => if sl.isEdgeTombstonedAboveSegment edge.id seg.2 then none else some edge
    ((sl.immutable.zipIdx.findSome? inImmutable).or (sl.segments.zipIdx.findSome? inSegment)).join

/-- Blank a slot whose edge is deleted further up. -/
def clearSlot (dead : ℕ → Bool) (ress : List (Option EdgeRecord)) (i : ℕ) : List (Option EdgeRecord) :=
  match ress[i]?.join with
  | some edge => if dead edge.id then ress.set i none else ress
  | none => ress

def clearTombstoned (dead : ℕ → Bool) (slots : List ℕ) (ress : List (Option EdgeRecord)) : List (Option EdgeRecord) :=
  slots.foldl (clearSlot dead) ress

def tripleStepImmutable (epoch : MemtableState × ℕ) (b : Batch (ℕ × ℕ × ℕ) (Option EdgeRecord)) : Batch (ℕ × ℕ × ℕ) (Option EdgeRecord) :=
  let next := batchEdgesByTriplesAt sl.snapshotSeq epoch.1 b
  { next with
    results := clearTombstoned (sl.isEdgeTombstonedAboveImmutable · epoch.2)
      (b.remaining.map Prod.fst) next.results }

/-- The slots whose triple the segment knows, and the edges that are not deleted in it. -/
def resolveTriplesBatch (seg : Segment) (b : Batch (ℕ × ℕ × ℕ) (Option EdgeRecord)) : List (Option EdgeRecord) × List ℕ :=
  let resolved := b.remaining.filterMap fun lookup => (seg.firstIdByTriple lookup.2).map fun id => (lookup.1, id)
  let edgeLookups := (resolved.filter fun entry => !seg.isEdgeDeleted entry.2).mergeSort byId
  (storeAll (fun id => (seg.getEdge id).map some) edgeLookups b.results, resolved.map Prod.fst)

def tripleStepSegment (seg : Segment × ℕ) (b : Batch (ℕ × ℕ × ℕ) (Option EdgeRecord)) : Batch (ℕ × ℕ × ℕ) (Option EdgeRecord) :=
  let (ress, found) := resolveTriplesBatch seg.1 b
  ⟨clearTombstoned (sl.isEdgeTombstonedAboveSegment · seg.2) found ress, b.remaining.filter fun lookup => !found.contains lookup.1⟩

/-- Lookups are sorted by source, target and label. -/
def byTriple (a b : ℕ × ℕ × ℕ × ℕ) : Bool :=
  decide (a.2.1 < b.2.1) || (decide (a.2.1 = b.2.1) &&
    (decide (a.2.2.1 < b.2.2.1) || (decide (a.2.2.1 = b.2.2.1) && decide (a.2.2.2 ≤ b.2.2.2))))

def findEdgesByTriples (triples : List (ℕ × ℕ × ℕ)) : List (Option EdgeRecord) :=
  let b := batchEdgesByTriplesAt sl.snapshotSeq sl.active (Batch.start none triples)
  let b := walk sl.tripleStepImmutable sl.immutable.zipIdx b
  if b.remaining.isEmpty then b.results
  else
    (walk sl.tripleStepSegment sl.segments.zipIdx
      { b with remaining := b.remaining.mergeSort byTriple }).results

end SourceList
end OverGraph.Sources
