import OverGraph.Memtable
import OverGraph.PropertyValues
import Mathlib.Data.Prod.Lex

/-!
# The memtable with its ordered and secondary indexes

Besides the maps of the memtable proper there are ordered copies of the adjacency and edge label
maps, and for every declared index the entries of the live records, all in versioned cells. Hashes
and tuple keys are computed by functions that are taken as given.
-/

namespace OverGraph.SecondaryEntries
open AssocMaps VersionedSlots Records Memtable PropertyValues

inductive NodeMetadataField where
  | id
  | key
  | weight
  | createdAt
  | updatedAt

inductive EdgeMetadataField where
  | id
  | source
  | target
  | weight
  | createdAt
  | updatedAt
  | validFrom
  | validTo

inductive NodeIndexField where
  | property (key : String)
  | metadata (field : NodeMetadataField)

inductive EdgeIndexField where
  | property (key : String)
  | metadata (field : EdgeMetadataField)

inductive SecondaryIndexKind where
  | equality
  | range
  deriving DecidableEq

inductive SecondaryIndexTarget where
  | nodeProperty (labelId : ℕ) (pkey : String)
  | edgeProperty (labelId : ℕ) (pkey : String)
  | nodeFieldIndex (labelId : ℕ) (fields : List NodeIndexField)
  | edgeFieldIndex (labelId : ℕ) (fields : List EdgeIndexField)

structure SecondaryIndexEntry where
  indexId : ℕ
  target : SecondaryIndexTarget
  kind : SecondaryIndexKind

/-- What a value is hashed by. -/
inductive EqualityKey where
  | number (key : NumericScalarKey)
  | raw (value : PropValue)

def equalityKey (value : PropValue) : EqualityKey :=
  match numericKey value with
  | some key => .number key
  | none => .raw value

/-- The bytes of a sort key as numbers: the class, the rank and the fraction. -/
abbrev NumericRangeSortKey := ℕ ×ₗ (ℕ ×ₗ ℕ)

instance : DecidableEq (ℕ × NumericRangeSortKey × ℕ) :=
  @instDecidableEqProd _ _ _ (@instDecidableEqProd NumericRangeSortKey ℕ inferInstance _)

def numericRangeSortKey (key : NumericScalarKey) : NumericRangeSortKey :=
  let rankBits := ((key.magnitudeRank + 2 ^ 31) % 2 ^ 32).toNat
  match key.sign with
  | .zero => toLex (1, toLex (0, 0))
  | .positive => toLex (2, toLex (rankBits, key.normalizedFraction))
  | .negative => toLex (0, toLex (2 ^ 32 - 1 - rankBits, 2 ^ 128 - 1 - key.normalizedFraction))

def numericRangeSortKeyForValue (value : PropValue) : Option NumericRangeSortKey := (numericKey value).map numericRangeSortKey

/-- A field of a record; weights are widened by the encoder. -/
inductive CompoundFieldValue where
  | property (value : Option PropValue)
  | metadataU64 (value : ℕ)
  | metadataString (value : String)
  | metadataF32 (value : F32)
  | metadataI64 (value : ℤ)

def nodeCompoundFieldValue (node : NodeRecord) : NodeIndexField → CompoundFieldValue
  | .property key => .property (node.props.lookup key)
  | .metadata .id => .metadataU64 node.id
  | .metadata .key => .metadataString node.key
  | .metadata .weight => .metadataF32 node.weight
  | .metadata .createdAt => .metadataI64 node.createdAt
  | .metadata .updatedAt => .metadataI64 node.updatedAt

def edgeCompoundFieldValue (edge : EdgeRecord) : EdgeIndexField → CompoundFieldValue
  | .property key => .property (edge.props.lookup key)
  | .metadata .id => .metadataU64 edge.id
  | .metadata .source => .metadataU64 edge.source
  | .metadata .target => .metadataU64 edge.target
  | .metadata .weight => .metadataF32 edge.weight
  | .metadata .createdAt => .metadataI64 edge.createdAt
  | .metadata .updatedAt => .metadataI64 edge.updatedAt
  | .metadata .validFrom => .metadataI64 edge.validFrom
  | .metadata .validTo => .metadataI64 edge.validTo

/-- How keys become hashes and bytes. -/
structure IndexEncoders where
  hash : EqualityKey → ℕ
  encodeNodeTuple : ℕ → List NodeIndexField → List CompoundFieldValue → List ℕ
  encodeEdgeTuple : ℕ → List EdgeIndexField → List CompoundFieldValue → List ℕ

namespace IndexEncoders
variable (enc : IndexEncoders)

def hashPropEqualityKey (value : PropValue) : ℕ := enc.hash (equalityKey value)

def encodeNodeCompoundTupleKey (labelId : ℕ) (fields : List NodeIndexField) (node : NodeRecord) : List ℕ :=
  enc.encodeNodeTuple labelId fields (fields.map (nodeCompoundFieldValue node))

def encodeEdgeCompoundTupleKey (labelId : ℕ) (fields : List EdgeIndexField) (edge : EdgeRecord) : List ℕ :=
  enc.encodeEdgeTuple labelId fields (fields.map (edgeCompoundFieldValue edge))

end IndexEncoders

abbrev ByProp := Map ℕ (Map String (List ℕ))

structure IndexedMemtable where
  base : MemtableState
  orderedLabelEdgeIndex : MembershipMap (ℕ × ℕ) Unit
  orderedAdjOut : MembershipMap (ℕ × ℕ) AdjEntry
  orderedAdjIn : MembershipMap (ℕ × ℕ) AdjEntry
  secondaryIndexDeclarations : Map ℕ SecondaryIndexEntry
  secondaryEqByProp : ByProp
  secondaryRangeByProp : ByProp
  secondaryEdgeEqByProp : ByProp
  secondaryEdgeRangeByProp : ByProp
  secondaryNodeFieldIndexesByLabel : Map ℕ (List ℕ)
  secondaryEdgeFieldIndexesByLabel : Map ℕ (List ℕ)
  secondaryEqState : MembershipMap (ℕ × ℕ × ℕ) Unit
  secondaryRangeState : MembershipMap (ℕ × NumericRangeSortKey × ℕ) Unit
  secondaryCompoundState : MembershipMap (ℕ × List ℕ × ℕ) Unit

/-- An entry of an index that is to be set or withdrawn. -/
structure IndexAction (κ : Type) where
  indexId : ℕ
  key : κ
  recordId : ℕ
  present : Bool

structure IndexActions where
  eq : List (IndexAction ℕ)
  range : List (IndexAction NumericRangeSortKey)
  compound : List (IndexAction (List ℕ))

namespace IndexActions

def none : IndexActions := ⟨[], [], []⟩

def append (fst snd : IndexActions) : IndexActions := ⟨fst.eq ++ snd.eq, fst.range ++ snd.range, fst.compound ++ snd.compound⟩

def flatMap {α : Type} (vs : List α) (f : α → IndexActions) : IndexActions :=
  ⟨vs.flatMap fun a => (f a).eq, vs.flatMap fun a => (f a).range, vs.flatMap fun a => (f a).compound⟩

end IndexActions

def optionalSemanticPropertyEq (left right : Option PropValue) : Bool :=
  match left, right with
  | some left, some right => semanticPropertyEq left right
  | none, none => true
  | _, _ => false

/-- The indexes that are declared for a property of a label. -/
def indexesOf (byProp : ByProp) (labelId : ℕ) (pkey : String) : List ℕ := ((byProp.lookup labelId).bind (·.lookup pkey)).getD []

section
variable (enc : IndexEncoders)

def propertyEntries (eqByProp rangeByProp : ByProp) (labelId recordId : ℕ) (props : Props) (present : Bool) : IndexActions where
  eq := props.entries.flatMap fun prop => (indexesOf eqByProp labelId prop.1).map fun indexId =>
    ⟨indexId, enc.hashPropEqualityKey prop.2, recordId, present⟩
  range := props.entries.flatMap fun prop => (indexesOf rangeByProp labelId prop.1).filterMap fun indexId =>
    (numericRangeSortKeyForValue prop.2).map fun encoded => ⟨indexId, encoded, recordId, present⟩
  compound := []

/-- The entries that change when the properties of a record under a label do. -/
def propertyUpdates (eqByProp rangeByProp : ByProp) (labelId oldId newId : ℕ) (old new : Props) : IndexActions where
  eq := ((eqByProp.lookup labelId).elim [] (·.entries)).flatMap fun entry =>
    let oldValue := old.lookup entry.1
    let newValue := new.lookup entry.1
    if optionalSemanticPropertyEq oldValue newValue then []
    else
      oldValue.elim [] (fun value => entry.2.map fun indexId => ⟨indexId, enc.hashPropEqualityKey value, oldId, false⟩) ++
        newValue.elim [] fun value => entry.2.map fun indexId => ⟨indexId, enc.hashPropEqualityKey value, newId, true⟩
  range := ((rangeByProp.lookup labelId).elim [] (·.entries)).flatMap fun entry =>
    let oldEncoded := (old.lookup entry.1).bind numericRangeSortKeyForValue
    let newEncoded := (new.lookup entry.1).bind numericRangeSortKeyForValue
    if oldEncoded = newEncoded then []
    else entry.2.flatMap fun indexId =>
      oldEncoded.elim [] (fun encoded => [⟨indexId, encoded, oldId, false⟩]) ++
        newEncoded.elim [] fun encoded => [⟨indexId, encoded, newId, true⟩]
  compound := []

end

namespace IndexedMemtable
variable (enc : IndexEncoders) (m : IndexedMemtable)

def nodeFieldsOf (indexId : ℕ) : Option (List NodeIndexField) :=
  (m.secondaryIndexDeclarations.lookup indexId).bind fun entry =>
    match entry.target with
    | .nodeFieldIndex _ fields => some fields
    | _ => none

def edgeFieldsOf (indexId : ℕ) : Option (List EdgeIndexField) :=
  (m.secondaryIndexDeclarations.lookup indexId).bind fun entry =>
    match entry.target with
    | .edgeFieldIndex _ fields => some fields
    | _ => none

def collectCompoundIndexEntriesForNodeLabel (labelId : ℕ) (node : NodeRecord) (present : Bool) : List (IndexAction (List ℕ)) :=
  ((m.secondaryNodeFieldIndexesByLabel.lookup labelId).getD []).filterMap fun indexId =>
    (m.nodeFieldsOf indexId).map fun fields => ⟨indexId, enc.encodeNodeCompoundTupleKey labelId fields node, node.id, present⟩

def collectCompoundIndexUpdatesForNodeLabel (labelId : ℕ) (old new : NodeRecord) : List (IndexAction (List ℕ)) :=
  ((m.secondaryNodeFieldIndexesByLabel.lookup labelId).getD []).flatMap fun indexId =>
    (m.nodeFieldsOf indexId).elim [] fun fields =>
      let oldKey := enc.encodeNodeCompoundTupleKey labelId fields old
      let newKey := enc.encodeNodeCompoundTupleKey labelId fields new
      if oldKey = newKey then [] else [⟨indexId, oldKey, old.id, false⟩, ⟨indexId, newKey, new.id, true⟩]

def nodeLabelEntries (node : NodeRecord) (present : Bool) (labelId : ℕ) : IndexActions :=
  { propertyEntries enc m.secondaryEqByProp m.secondaryRangeByProp labelId node.id node.props present with
    compound := m.collectCompoundIndexEntriesForNodeLabel enc labelId node present }

def nodeLabelUpdates (old new : NodeRecord) (labelId : ℕ) : IndexActions :=
  { propertyUpdates enc m.secondaryEqByProp m.secondaryRangeByProp labelId old.id new.id old.props new.props with
    compound := m.collectCompoundIndexUpdatesForNodeLabel enc labelId old new }

def removeSecondaryIndexEntriesForNode (node : NodeRecord) : IndexActions :=
  .flatMap node.labelIds.labelIds (m.nodeLabelEntries enc node false)

/-- Labels that are gone are withdrawn, those that stay are updated and new ones are entered. -/
def syncSecondaryIndexEntriesForNodeUpsert (old : Option NodeRecord) (new : NodeRecord) : IndexActions :=
  match old with
  | none => .flatMap new.labelIds.labelIds (m.nodeLabelEntries enc new true)
  | some old =>
    (IndexActions.flatMap old.labelIds.labelIds fun labelId =>
      if new.labelIds.contains labelId then .none else m.nodeLabelEntries enc old false labelId).append
    (.flatMap new.labelIds.labelIds fun labelId =>
      if old.labelIds.contains labelId then m.nodeLabelUpdates enc old new labelId
      else m.nodeLabelEntries enc new true labelId)

def collectCompoundIndexEntriesForEdgeLabel (labelId : ℕ) (edge : EdgeRecord) (present : Bool) : List (IndexAction (List ℕ)) :=
  ((m.secondaryEdgeFieldIndexesByLabel.lookup labelId).getD []).filterMap fun indexId =>
    (m.edgeFieldsOf indexId).map fun fields => ⟨indexId, enc.encodeEdgeCompoundTupleKey labelId fields edge, edge.id, present⟩

def collectCompoundIndexUpdatesForEdgeLabel (labelId : ℕ) (old new : EdgeRecord) : List (IndexAction (List ℕ)) :=
  ((m.secondaryEdgeFieldIndexesByLabel.lookup labelId).getD []).flatMap fun indexId =>
    (m.edgeFieldsOf indexId).elim [] fun fields =>
      let oldKey := enc.encodeEdgeCompoundTupleKey labelId fields old
      let newKey := enc.encodeEdgeCompoundTupleKey labelId fields new
      if oldKey = newKey then [] else [⟨indexId, oldKey, old.id, false⟩, ⟨indexId, newKey, new.id, true⟩]

def edgeEntries (edge : EdgeRecord) (present : Bool) : IndexActions :=
  { propertyEntries enc m.secondaryEdgeEqByProp m.secondaryEdgeRangeByProp edge.labelId edge.id edge.props present with
    compound := m.collectCompoundIndexEntriesForEdgeLabel enc edge.labelId edge present }

def removeSecondaryIndexEntriesForEdge (edge : EdgeRecord) : IndexActions := m.edgeEntries enc edge false

def syncSecondaryIndexEntriesForEdgeUpsert (old : Option EdgeRecord) (new : EdgeRecord) : IndexActions :=
  match old with
  | none => m.edgeEntries enc new true
  | some old =>
    if old.labelId ≠ new.labelId then
      (m.removeSecondaryIndexEntriesForEdge enc old).append (m.edgeEntries enc new true)
    else
      { propertyUpdates enc m.secondaryEdgeEqByProp m.secondaryEdgeRangeByProp new.labelId old.id new.id old.props new.props with
        compound := m.collectCompoundIndexUpdatesForEdgeLabel enc new.labelId old new }

def setEntries {κ : Type} [DecidableEq κ] (state : MembershipMap (ℕ × κ × ℕ) Unit) (actions : List (IndexAction κ)) (q : ℕ) :
    MembershipMap (ℕ × κ × ℕ) Unit :=
  actions.foldl (fun state action =>
    setSlot state (action.indexId, action.key, action.recordId) (MemtableState.presence action.present) q) state

def applyActions (actions : IndexActions) (q : ℕ) : IndexedMemtable :=
  { m with
    secondaryEqState := setEntries m.secondaryEqState actions.eq q
    secondaryRangeState := setEntries m.secondaryRangeState actions.range q
    secondaryCompoundState := setEntries m.secondaryCompoundState actions.compound q }

def setOrderedAdj (source target id : ℕ) (outEntry inEntry : Option AdjEntry) (q : ℕ) : IndexedMemtable :=
  { m with
    orderedAdjOut := setSlot m.orderedAdjOut (source, id) outEntry q
    orderedAdjIn := setSlot m.orderedAdjIn (target, id) inEntry q }

def setOrderedEdgeLabelSlot (labelId id : ℕ) (present : Bool) (q : ℕ) : IndexedMemtable :=
  { m with orderedLabelEdgeIndex := setSlot m.orderedLabelEdgeIndex (labelId, id) (MemtableState.presence present) q }

def orderedUpsert (old : Option EdgeRecord) (edge : EdgeRecord) (q : ℕ) : IndexedMemtable :=
  let m := match old with
    | some old => if old.labelId ≠ edge.labelId then m.setOrderedEdgeLabelSlot old.labelId old.id false q else m
    | none => m
  let m := match old with
    | some old => if old.source ≠ edge.source ∨ old.target ≠ edge.target then
        m.setOrderedAdj old.source old.target old.id none none q else m
    | none => m
  (m.setOrderedAdj edge.source edge.target edge.id (some (MemtableState.adjEntry edge edge.target))
    (some (MemtableState.adjEntry edge edge.source)) q).setOrderedEdgeLabelSlot edge.labelId edge.id true q

def orderedDelete (edge : EdgeRecord) (q : ℕ) : IndexedMemtable :=
  (m.setOrderedEdgeLabelSlot edge.labelId edge.id false q).setOrderedAdj edge.source edge.target edge.id none none q

/-- The maps of the memtable proper and the indexes are different cells, so they are written one after the other. -/
def applyOp (op : SeqOp) : IndexedMemtable :=
  let indexed := match op with
    | (q, .upsertNode node) =>
      m.applyActions (m.syncSecondaryIndexEntriesForNodeUpsert enc (m.base.currentNode node.id) { node with lastWriteSeq := q }) q
    | (q, .upsertEdge edge) =>
      let old := m.base.currentEdge edge.id
      (m.orderedUpsert old edge q).applyActions
        (m.syncSecondaryIndexEntriesForEdgeUpsert enc old { edge with lastWriteSeq := q }) q
    | (q, .deleteNode id _) => match m.base.currentNode id with
      | some node => m.applyActions (m.removeSecondaryIndexEntriesForNode enc node) q
      | none => m
    | (q, .deleteEdge id _) => match m.base.currentEdge id with
      | some edge => (m.orderedDelete edge q).applyActions (m.removeSecondaryIndexEntriesForEdge enc edge) q
      | none => m
    | (_, .ensureNodeLabel _ _) | (_, .ensureEdgeLabel _ _)
    | (_, .beginAtomicBatch _ _) | (_, .commitAtomicBatch _ _) => m
  { indexed with base := m.base.applyOp op }

def empty : IndexedMemtable := ⟨MemtableState.empty, ∅, ∅, ∅, ∅, ∅, ∅, ∅, ∅, ∅, ∅, ∅, ∅, ∅⟩

def addPropLookup (byProp : ByProp) (labelId : ℕ) (pkey : String) (indexId : ℕ) : ByProp :=
  alter byProp labelId fun props => alter (props.getD ∅) pkey fun ids => ids.getD [] ++ [indexId]

def addFieldIndexLookup (byLabel : Map ℕ (List ℕ)) (labelId indexId : ℕ) : Map ℕ (List ℕ) :=
  alter byLabel labelId fun ids => ids.getD [] ++ [indexId]

/-- The live records of the memtable enter a new index with their own sequence numbers. -/
def seed {κ ρ : Type} [DecidableEq κ] (state : MembershipMap (ℕ × κ × ℕ) Unit) (records : Map ℕ ρ) (indexId : ℕ)
    (key : ρ → Option κ) (seq : ρ → ℕ) : MembershipMap (ℕ × κ × ℕ) Unit :=
  records.entries.foldl (fun state entry => match key entry.2 with
    | some key => setSlot state (indexId, key, entry.1) (some ()) (seq entry.2)
    | none => state) state

def registerSecondaryIndex (entry : SecondaryIndexEntry) : IndexedMemtable :=
  if (m.secondaryIndexDeclarations.lookup entry.indexId).isSome then m
  else
    let decls := m.secondaryIndexDeclarations.insert entry.indexId entry
    let m := { m with secondaryIndexDeclarations := decls }
    match entry.target, entry.kind with
    | .nodeProperty labelId pkey, .equality =>
      { m with
        secondaryEqByProp := addPropLookup m.secondaryEqByProp labelId pkey entry.indexId
        secondaryEqState := seed m.secondaryEqState m.base.liveNodes entry.indexId (fun node =>
          if node.labelIds.contains labelId then (node.props.lookup pkey).map enc.hashPropEqualityKey else none)
          NodeRecord.lastWriteSeq }
    | .nodeProperty labelId pkey, .range =>
      { m with
        secondaryRangeByProp := addPropLookup m.secondaryRangeByProp labelId pkey entry.indexId
        secondaryRangeState := seed m.secondaryRangeState m.base.liveNodes entry.indexId (fun node =>
          if node.labelIds.contains labelId then (node.props.lookup pkey).bind numericRangeSortKeyForValue else none)
          NodeRecord.lastWriteSeq }
    | .edgeProperty labelId pkey, .equality =>
      { m with
        secondaryEdgeEqByProp := addPropLookup m.secondaryEdgeEqByProp labelId pkey entry.indexId
        secondaryEqState := seed m.secondaryEqState m.base.liveEdges entry.indexId (fun edge =>
          if edge.labelId = labelId then (edge.props.lookup pkey).map enc.hashPropEqualityKey else none)
          EdgeRecord.lastWriteSeq }
    | .edgeProperty labelId pkey, .range =>
      { m with
        secondaryEdgeRangeByProp := addPropLookup m.secondaryEdgeRangeByProp labelId pkey entry.indexId
        secondaryRangeState := seed m.secondaryRangeState m.base.liveEdges entry.indexId (fun edge =>
          if edge.labelId = labelId then (edge.props.lookup pkey).bind numericRangeSortKeyForValue else none)
          EdgeRecord.lastWriteSeq }
    | .nodeFieldIndex labelId fields, _ =>
      { m with
        secondaryNodeFieldIndexesByLabel := addFieldIndexLookup m.secondaryNodeFieldIndexesByLabel labelId entry.indexId
        secondaryCompoundState := seed m.secondaryCompoundState m.base.liveNodes entry.indexId (fun node =>
          if node.labelIds.contains labelId then some (enc.encodeNodeCompoundTupleKey labelId fields node) else none)
          NodeRecord.lastWriteSeq }
    | .edgeFieldIndex labelId fields, _ =>
      { m with
        secondaryEdgeFieldIndexesByLabel := addFieldIndexLookup m.secondaryEdgeFieldIndexesByLabel labelId entry.indexId
        secondaryCompoundState := seed m.secondaryCompoundState m.base.liveEdges entry.indexId (fun edge =>
          if edge.labelId = labelId then some (enc.encodeEdgeCompoundTupleKey labelId fields edge) else none)
          EdgeRecord.lastWriteSeq }

/-- The memtable that was opened with its indexes declared and has received a run of operations. -/
def ofOps (entries : List SecondaryIndexEntry) (ops : List SeqOp) : IndexedMemtable :=
  ops.foldl (applyOp enc) (entries.foldl (registerSecondaryIndex enc) empty)

end IndexedMemtable
end OverGraph.SecondaryEntries
