import Mathlib.Data.List.Dedup
import OverGraph.SnapshotReads

/-!
# Snapshots are stable

An operation writes cells at its own sequence number only, so that a snapshot below it sees the
same version of every cell. The reads at the snapshot then return what they returned before.
-/

namespace OverGraph.SnapshotStability
open AssocMaps VersionedSlots Records Memtable SecondaryEntries SnapshotReads List VersionedSlot MemtableState IndexedMemtable RecordState

section
variable {κ τ : Type} [DecidableEq κ] {s q : ℕ}

theorem readAt_replace (slot : VersionedSlot τ) (v : τ) (h : s < q) : (slot.replace q v).readAt s = slot.readAt s := by
  have hlat : ¬q ≤ s := Nat.not_le.mpr h
  rw [VersionedSlot.replace]
  split
  · rename_i hsame
    simp only [VersionedSlot.readAt, hsame, if_neg hlat]
  · simp only [VersionedSlot.readAt, if_neg hlat, findSome?_cons]
    split
    · rename_i hread
      split at hread
      · rename_i hle
        rw [if_pos hle, Option.some.inj hread]
      · cases hread
    · rename_i hread
      split at hread
      · cases hread
      · rename_i hle
        rw [if_neg hle]

/-- The snapshot sees the same under every key. -/
def SameCells (s : ℕ) (before after : Map κ (VersionedSlot τ)) : Prop := ∀ k, valueAt after s k = valueAt before s k

/-- One map comes from another by writes with one sequence number. -/
inductive Written (q : ℕ) (before : Map κ (VersionedSlot τ)) : Map κ (VersionedSlot τ) → Prop
  | refl : Written q before before
  | set {after : Map κ (VersionedSlot τ)} (k : κ) (v : τ) (h : Written q before after) : Written q before (setSlot after k v q)

theorem Written.trans {a b c : Map κ (VersionedSlot τ)} (h : Written q a b) (h' : Written q b c) : Written q a c := by
  induction h' with
  | refl => exact h
  | set k v _ ih => exact .set k v ih

theorem written_setSlot (idx : Map κ (VersionedSlot τ)) (k : κ) (v : τ) : Written q idx (setSlot idx k v q) := .set k v .refl

theorem written_setSparse (idx : MembershipMap ℕ Unit) (k : ℕ) (present : Bool) :
    Written q idx (setSparseMembershipSlot idx k present q) := by
  rw [setSparseMembershipSlot]
  split
  · exact written_setSlot idx k _
  · exact .refl

theorem written_setEntries (idx : MembershipMap (ℕ × κ × ℕ) Unit) (actions : List (IndexAction κ)) :
    Written q idx (setEntries idx actions q) := by
  induction actions generalizing idx with
  | nil => exact .refl
  | cons action actions ih => exact (written_setSlot idx _ _).trans (ih _)

theorem sameCells_setSlot (h : s < q) (idx : Map κ (VersionedSlot τ)) (k : κ) (v : τ) : SameCells s idx (setSlot idx k v q) := by
  intro other
  rw [valueAt, valueAt, setSlot, lookup_alter]
  split
  · rename_i hkey
    rw [hkey]
    cases idx.lookup k with
    | none =>
      show (new q v).readAt s = none
      rw [readAt, if_neg (show ¬(new q v).head.writeSeq ≤ s from Nat.not_le.mpr h)]
      rfl
    | some slot => exact readAt_replace slot v h
  · rfl

section
variable {before after : Map κ (VersionedSlot τ)} (hwr : Written q before after)
include hwr

/-- A snapshot does not see later writes. -/
theorem Written.sameCells (h : s < q) : SameCells s before after := by
  induction hwr with
  | refl => exact fun _ => rfl
  | set k v _ ih => exact fun other => (sameCells_setSlot h _ k v other).trans (ih other)

theorem Written.notYounger (hbef : NotYounger before s) (hq : q ≤ s) : NotYounger after s := by
  induction hwr with
  | refl => exact hbef
  | set k v _ ih => exact ih.setSlot hq k v

end

theorem mem_visibleEntries {idx : MembershipMap κ τ} {k : κ} {v : τ} : (k, v) ∈ visibleEntries idx s ↔ (valueAt idx s k).join = some v := by
  rw [visibleEntries, mem_filterMap]
  constructor
  · intro h
    obtain ⟨⟨key, slot⟩, hslot, hread⟩ := h
    obtain ⟨value, hval, heq⟩ := Option.map_eq_some_iff.mp hread
    obtain ⟨rfl, rfl⟩ := Prod.mk.inj heq
    rw [valueAt, AList.mem_lookup_iff.mpr hslot]
    exact hval
  · intro h
    rw [valueAt] at h
    cases hslot : idx.lookup k with
    | none =>
      rw [hslot] at h
      cases h
    | some slot =>
      rw [hslot] at h
      exact ⟨⟨k, slot⟩, AList.mem_lookup_iff.mp hslot, Option.map_eq_some_iff.mpr ⟨v, h, rfl⟩⟩

omit [DecidableEq κ] in
theorem mem_underLabel {idx : MembershipMap (ℕ × ℕ) τ} {labelId id : ℕ} :
    id ∈ underLabel s idx labelId ↔ (labelId, id) ∈ visibleKeys idx s := by
  rw [underLabel, mem_insertionSort, visibleKeys, mem_map, mem_map]
  constructor
  · rintro ⟨⟨⟨label, other⟩, entry⟩, hmem, rfl⟩
    obtain ⟨hvis, hlab⟩ := mem_filter.mp hmem
    obtain rfl : label = labelId := of_decide_eq_true hlab
    exact ⟨_, hvis, rfl⟩
  · rintro ⟨⟨key, entry⟩, hmem, hkey⟩
    obtain rfl : key = (labelId, id) := hkey
    exact ⟨_, mem_filter.mpr ⟨hmem, decide_eq_true rfl⟩, rfl⟩

omit [DecidableEq κ] in
theorem nodup_filterMap_keys {α β : Type} {entries : List (Sigma fun _ : κ => α)} (h : entries.NodupKeys) (f : κ → α → Option β) :
    (entries.filterMap fun entry => (f entry.1 entry.2).map fun value => (entry.1, value)).Nodup := by
  rw [nodupKeys_iff_pairwise] at h
  rw [Nodup, pairwise_filterMap]
  refine h.imp fun hne fst hfst snd hsnd heq => ?_
  obtain ⟨_, -, rfl⟩ := Option.map_eq_some_iff.mp hfst
  obtain ⟨_, -, rfl⟩ := Option.map_eq_some_iff.mp hsnd
  exact hne (Prod.mk.inj heq).1

section
variable {before after : MembershipMap κ τ} (h : SameCells s before after)
include h

theorem SameCells.visibleEntries : (visibleEntries after s).Perm (visibleEntries before s) := by
  apply (perm_ext_iff_of_nodup (nodup_filterMap_keys after.nodupKeys fun _ slot => (slot.readAt s).join)
    (nodup_filterMap_keys before.nodupKeys fun _ slot => (slot.readAt s).join)).mpr
  intro entry
  rw [show entry = (entry.1, entry.2) from rfl]
  exact (mem_visibleEntries.trans (by rw [h entry.1])).trans mem_visibleEntries.symm

theorem SameCells.visibleKeys :
    (visibleKeys after s).Perm (visibleKeys before s) := h.visibleEntries.map _

end

theorem mem_visibleRecords {ρ : Type} {records : RecordMap ρ} {id : ℕ} {r : ρ} :
    (id, r) ∈ visibleRecords records s ↔ (valueAt records s id).bind live? = some r := by
  rw [visibleRecords, mem_filterMap]
  constructor
  · intro h
    obtain ⟨⟨key, slot⟩, hslot, hread⟩ := h
    obtain ⟨value, hval, heq⟩ := Option.map_eq_some_iff.mp hread
    obtain ⟨rfl, rfl⟩ := Prod.mk.inj heq
    rw [valueAt, AList.mem_lookup_iff.mpr hslot]
    exact hval
  · intro h
    rw [valueAt] at h
    cases hslot : records.lookup id with
    | none =>
      rw [hslot] at h
      cases h
    | some slot =>
      rw [hslot] at h
      exact ⟨⟨id, slot⟩, AList.mem_lookup_iff.mp hslot, Option.map_eq_some_iff.mpr ⟨r, h, rfl⟩⟩

theorem SameCells.visibleRecords {ρ : Type} {before after : RecordMap ρ} (h : SameCells s before after) :
    (visibleRecords after s).Perm (visibleRecords before s) := by
  apply (perm_ext_iff_of_nodup (nodup_filterMap_keys after.nodupKeys fun _ slot => (slot.readAt s).bind live?)
    (nodup_filterMap_keys before.nodupKeys fun _ slot => (slot.readAt s).bind live?)).mpr
  intro entry
  rw [show entry = (entry.1, entry.2) from rfl]
  exact (mem_visibleRecords.trans (by rw [h entry.1])).trans mem_visibleRecords.symm

theorem insertionSort_congr {α : Type} [LinearOrder α] {fst snd : List α} (h : fst.Perm snd) :
    fst.insertionSort (· ≤ ·) = snd.insertionSort (· ≤ ·) := by
  have hperm := (perm_insertionSort (· ≤ ·) fst).trans (h.trans (perm_insertionSort (· ≤ ·) snd).symm)
  exact hperm.eq_of_pairwise' (pairwise_insertionSort _ fst) (pairwise_insertionSort _ snd)

end

/-- The snapshot sees the same in all maps of the memtable proper. -/
structure SameBase (s : ℕ) (before after : MemtableState) : Prop where
  nodes : SameCells s before.nodes after.nodes
  edges : SameCells s before.edges after.edges
  nodeTombstones : SameCells s before.nodeTombstones after.nodeTombstones
  edgeTombstones : SameCells s before.edgeTombstones after.edgeTombstones
  nodeKeyIndex : SameCells s before.nodeKeyIndex after.nodeKeyIndex
  edgeTripleIndex : SameCells s before.edgeTripleIndex after.edgeTripleIndex
  adjOut : SameCells s before.adjOut after.adjOut
  adjIn : SameCells s before.adjIn after.adjIn
  orderedEdgeIds : SameCells s before.orderedEdgeIds after.orderedEdgeIds
  labelNodeIndex : SameCells s before.labelNodeIndex after.labelNodeIndex
  labelEdgeIndex : SameCells s before.labelEdgeIndex after.labelEdgeIndex
  timeNodeIndex : SameCells s before.timeNodeIndex after.timeNodeIndex

/-- The snapshot sees the same in all maps. -/
structure SameAt (s : ℕ) (before after : IndexedMemtable) : Prop where
  base : SameBase s before.base after.base
  orderedLabelEdgeIndex : SameCells s before.orderedLabelEdgeIndex after.orderedLabelEdgeIndex
  orderedAdjOut : SameCells s before.orderedAdjOut after.orderedAdjOut
  orderedAdjIn : SameCells s before.orderedAdjIn after.orderedAdjIn
  secondaryEqState : SameCells s before.secondaryEqState after.secondaryEqState
  secondaryRangeState : SameCells s before.secondaryRangeState after.secondaryRangeState
  secondaryCompoundState : SameCells s before.secondaryCompoundState after.secondaryCompoundState

/-- The maps of the memtable proper come from others by writes with one sequence number. -/
structure WrittenBase (q : ℕ) (before after : MemtableState) : Prop where
  nodes : Written q before.nodes after.nodes
  edges : Written q before.edges after.edges
  nodeTombstones : Written q before.nodeTombstones after.nodeTombstones
  edgeTombstones : Written q before.edgeTombstones after.edgeTombstones
  nodeKeyIndex : Written q before.nodeKeyIndex after.nodeKeyIndex
  edgeTripleIndex : Written q before.edgeTripleIndex after.edgeTripleIndex
  adjOut : Written q before.adjOut after.adjOut
  adjIn : Written q before.adjIn after.adjIn
  orderedEdgeIds : Written q before.orderedEdgeIds after.orderedEdgeIds
  labelNodeIndex : Written q before.labelNodeIndex after.labelNodeIndex
  labelEdgeIndex : Written q before.labelEdgeIndex after.labelEdgeIndex
  timeNodeIndex : Written q before.timeNodeIndex after.timeNodeIndex

/-- All maps come from others by writes with one sequence number. -/
structure WrittenState (q : ℕ) (before after : IndexedMemtable) : Prop where
  base : WrittenBase q before.base after.base
  orderedLabelEdgeIndex : Written q before.orderedLabelEdgeIndex after.orderedLabelEdgeIndex
  orderedAdjOut : Written q before.orderedAdjOut after.orderedAdjOut
  orderedAdjIn : Written q before.orderedAdjIn after.orderedAdjIn
  secondaryEqState : Written q before.secondaryEqState after.secondaryEqState
  secondaryRangeState : Written q before.secondaryRangeState after.secondaryRangeState
  secondaryCompoundState : Written q before.secondaryCompoundState after.secondaryCompoundState

section
variable {q : ℕ} (m : MemtableState)

theorem WrittenBase.refl : WrittenBase q m m := ⟨.refl, .refl, .refl, .refl, .refl, .refl, .refl, .refl, .refl, .refl, .refl, .refl⟩

theorem WrittenBase.trans {a b c : MemtableState} (h : WrittenBase q a b) (h' : WrittenBase q b c) : WrittenBase q a c where
  nodes := h.nodes.trans h'.nodes
  edges := h.edges.trans h'.edges
  nodeTombstones := h.nodeTombstones.trans h'.nodeTombstones
  edgeTombstones := h.edgeTombstones.trans h'.edgeTombstones
  nodeKeyIndex := h.nodeKeyIndex.trans h'.nodeKeyIndex
  edgeTripleIndex := h.edgeTripleIndex.trans h'.edgeTripleIndex
  adjOut := h.adjOut.trans h'.adjOut
  adjIn := h.adjIn.trans h'.adjIn
  orderedEdgeIds := h.orderedEdgeIds.trans h'.orderedEdgeIds
  labelNodeIndex := h.labelNodeIndex.trans h'.labelNodeIndex
  labelEdgeIndex := h.labelEdgeIndex.trans h'.labelEdgeIndex
  timeNodeIndex := h.timeNodeIndex.trans h'.timeNodeIndex

/-- The counters are not versioned, and reads at a snapshot do not look at them. -/
theorem WrittenBase.counts {a b : MemtableState} (h : WrittenBase q a b) (nodeCount edgeCount : ℕ) :
    WrittenBase q a { b with liveNodeCount := nodeCount, liveEdgeCount := edgeCount } :=
  ⟨h.nodes, h.edges, h.nodeTombstones, h.edgeTombstones, h.nodeKeyIndex, h.edgeTripleIndex, h.adjOut, h.adjIn,
    h.orderedEdgeIds, h.labelNodeIndex, h.labelEdgeIndex, h.timeNodeIndex⟩

/-- Choosing between two writes chooses between two states that look the same. -/
theorem WrittenBase.ite {m fst snd : MemtableState} {c : Prop} [Decidable c] (hfst : WrittenBase q m fst)
    (hsnd : WrittenBase q m snd) : WrittenBase q m (if c then fst else snd) := by
  split
  · exact hfst
  · exact hsnd

theorem WrittenBase.foldl {f : MemtableState → ℕ → MemtableState} (h : ∀ m labelId, WrittenBase q m (f m labelId))
    (labelIds : List ℕ) (m : MemtableState) : WrittenBase q m (labelIds.foldl f m) := by
  induction labelIds generalizing m with
  | nil => exact .refl m
  | cons labelId labelIds ih => exact (h m labelId).trans (ih _)

variable (id : ℕ)

theorem writtenBase_setNodeState (state : RecordState NodeRecord) :
    WrittenBase q m (m.setNodeState id state q) := { WrittenBase.refl m with nodes := written_setSlot _ _ _ }

theorem writtenBase_setEdgeState (state : RecordState EdgeRecord) :
    WrittenBase q m (m.setEdgeState id state q) := { WrittenBase.refl m with edges := written_setSlot _ _ _ }

theorem writtenBase_setNodeKey (labelId : ℕ) (key : String) (value : Option ℕ) :
    WrittenBase q m (m.setNodeKey labelId key value q) := { WrittenBase.refl m with nodeKeyIndex := written_setSlot _ _ _ }

theorem writtenBase_setEdgeTriple (triple : ℕ × ℕ × ℕ) (value : Option ℕ) :
    WrittenBase q m (m.setEdgeTriple triple value q) := { WrittenBase.refl m with edgeTripleIndex := written_setSlot _ _ _ }

section
variable (owner member : ℕ) (value : Option AdjEntry)

theorem writtenBase_setAdjOutSlot :
    WrittenBase q m (m.setAdjOutSlot owner member value q) := { WrittenBase.refl m with adjOut := written_setSlot _ _ _ }

theorem writtenBase_setAdjInSlot :
    WrittenBase q m (m.setAdjInSlot owner member value q) := { WrittenBase.refl m with adjIn := written_setSlot _ _ _ }

end

theorem writtenBase_setNodeLabelSlot (labelId id : ℕ) (present : Bool) : WrittenBase q m (m.setNodeLabelSlot labelId id present q) :=
  { WrittenBase.refl m with labelNodeIndex := written_setSlot _ _ _ }

theorem writtenBase_setEdgeLabelSlot (labelId id : ℕ) (present : Bool) : WrittenBase q m (m.setEdgeLabelSlot labelId id present q) :=
  { WrittenBase.refl m with labelEdgeIndex := written_setSlot _ _ _ }

theorem writtenBase_setOrderedEdgeSlot (present : Bool) :
    WrittenBase q m (m.setOrderedEdgeSlot id present q) := { WrittenBase.refl m with orderedEdgeIds := written_setSlot _ _ _ }

theorem writtenBase_setTimeSlot (key : ℕ × ℤ × ℕ) (present : Bool) :
    WrittenBase q m (m.setTimeSlot key present q) := { WrittenBase.refl m with timeNodeIndex := written_setSlot _ _ _ }

theorem writtenBase_setNodeTombstoneSlot (present : Bool) : WrittenBase q m (m.setNodeTombstoneSlot id present q) :=
  { WrittenBase.refl m with nodeTombstones := written_setSparse _ _ _ }

theorem writtenBase_setEdgeTombstoneSlot (present : Bool) : WrittenBase q m (m.setEdgeTombstoneSlot id present q) :=
  { WrittenBase.refl m with edgeTombstones := written_setSparse _ _ _ }

theorem writtenBase_upsertNode (node : NodeRecord) : WrittenBase q m (m.applyUpsertNode node q) := by
  have hreti : ∀ old m labelId, WrittenBase q m (retireNodeLabel old node q m labelId) := by
    intro old m labelId
    refine WrittenBase.trans ?_ (WrittenBase.ite (writtenBase_setTimeSlot _ _ _) (.refl _))
    refine WrittenBase.trans ?_ (WrittenBase.ite (writtenBase_setNodeLabelSlot _ _ _ _) (.refl _))
    exact WrittenBase.ite (writtenBase_setNodeKey _ _ _ _) (.refl _)
  have henter : ∀ m labelId, WrittenBase q m (enterNodeLabel node q m labelId) := fun m labelId =>
    (writtenBase_setNodeKey m labelId _ _).trans ((writtenBase_setNodeLabelSlot _ _ _ _).trans (writtenBase_setTimeSlot _ _ _))
  have hlast : ∀ m' : MemtableState, WrittenBase q m m' →
      WrittenBase q m (if (m.currentNode node.id).isSome then m' else { m' with liveNodeCount := m'.liveNodeCount + 1 }) := by
    intro m' hm
    split
    · exact hm
    · exact hm.counts _ _
  rw [applyUpsertNode]
  apply hlast
  refine WrittenBase.trans ?_ (writtenBase_setNodeState _ _ _)
  refine WrittenBase.trans ?_ (WrittenBase.ite (writtenBase_setNodeTombstoneSlot _ _ _) (.refl _))
  refine WrittenBase.trans ?_ (WrittenBase.foldl henter _ _)
  cases m.currentNode node.id with
  | none => exact .refl m
  | some old => exact WrittenBase.foldl (hreti old) _ m

theorem writtenBase_upsertEdge (edge : EdgeRecord) : WrittenBase q m (m.applyUpsertEdge edge q) := by
  have hreti : ∀ old, WrittenBase q m (retireEdge old edge q m) := by
    intro old
    refine WrittenBase.trans ?_ (WrittenBase.ite ((writtenBase_setAdjOutSlot _ _ _ _).trans (writtenBase_setAdjInSlot _ _ _ _)) (.refl _))
    refine WrittenBase.trans ?_ (WrittenBase.ite (writtenBase_setEdgeLabelSlot _ _ _ _) (.refl _))
    exact WrittenBase.ite (writtenBase_setEdgeTriple _ _ _) (.refl _)
  have hlast : ∀ m' : MemtableState, WrittenBase q m m' →
      WrittenBase q m (if (m.currentEdge edge.id).isSome then m' else { m' with liveEdgeCount := m'.liveEdgeCount + 1 }) := by
    intro m' hm
    split
    · exact hm
    · exact hm.counts _ _
  rw [applyUpsertEdge]
  apply hlast
  refine WrittenBase.trans ?_ (writtenBase_setEdgeState _ _ _)
  refine WrittenBase.trans ?_ (WrittenBase.ite (writtenBase_setEdgeTombstoneSlot _ _ _) (.refl _))
  refine WrittenBase.trans ?_ (writtenBase_setOrderedEdgeSlot _ _ _)
  refine WrittenBase.trans ?_ (writtenBase_setEdgeLabelSlot _ _ _ _)
  refine WrittenBase.trans ?_ (writtenBase_setAdjInSlot _ _ _ _)
  refine WrittenBase.trans ?_ (writtenBase_setAdjOutSlot _ _ _ _)
  refine WrittenBase.trans ?_ (WrittenBase.ite (writtenBase_setEdgeTriple _ _ _) (.refl _))
  cases m.currentEdge edge.id with
  | none => exact .refl m
  | some old => exact hreti old

theorem writtenBase_deleteNode (deletedAt : ℤ) : WrittenBase q m (m.applyDeleteNode id deletedAt q) := by
  have hdrop : ∀ node m labelId, WrittenBase q m (dropNodeLabel node q m labelId) := fun node m labelId =>
    (writtenBase_setNodeKey m labelId _ _).trans ((writtenBase_setNodeLabelSlot _ _ _ _).trans (writtenBase_setTimeSlot _ _ _))
  rw [applyDeleteNode]
  refine WrittenBase.trans ?_ (writtenBase_setNodeTombstoneSlot _ _ _)
  refine WrittenBase.trans ?_ (writtenBase_setNodeState _ _ _)
  cases m.currentNode id with
  | none => exact .refl m
  | some node => exact (WrittenBase.foldl (hdrop node) node.labelIds.labelIds m).counts _ _

theorem writtenBase_deleteEdge (deletedAt : ℤ) : WrittenBase q m (m.applyDeleteEdge id deletedAt q) := by
  have hdrop : ∀ edge, WrittenBase q m (dropEdge edge id q m) := by
    intro edge
    refine WrittenBase.trans ?_ (writtenBase_setOrderedEdgeSlot _ _ _)
    refine WrittenBase.trans ?_ ((writtenBase_setAdjOutSlot _ _ _ _).trans (writtenBase_setAdjInSlot _ _ _ _))
    refine WrittenBase.trans ?_ (writtenBase_setEdgeLabelSlot _ _ _ _)
    exact WrittenBase.ite (writtenBase_setEdgeTriple _ _ _) (.refl _)
  rw [applyDeleteEdge]
  refine WrittenBase.trans ?_ (writtenBase_setEdgeTombstoneSlot _ _ _)
  refine WrittenBase.trans ?_ (writtenBase_setEdgeState _ _ _)
  cases m.currentEdge id with
  | none => exact .refl m
  | some edge => exact (hdrop edge).counts _ _

theorem writtenBase_applyOp (op : SeqOp) : WrittenBase op.1 m (m.applyOp op) := by
  obtain ⟨q, op⟩ := op
  cases op with
  | upsertNode node => exact writtenBase_upsertNode m node
  | upsertEdge edge => exact writtenBase_upsertEdge m edge
  | deleteNode id deletedAt => exact writtenBase_deleteNode m id deletedAt
  | deleteEdge id deletedAt => exact writtenBase_deleteEdge m id deletedAt
  | ensureNodeLabel label labelId | ensureEdgeLabel label labelId
  | beginAtomicBatch firstSeq opCount | commitAtomicBatch firstSeq opCount => exact .refl m

end

section
variable {q : ℕ}

theorem WrittenState.refl (m : IndexedMemtable) : WrittenState q m m := ⟨.refl _, .refl, .refl, .refl, .refl, .refl, .refl⟩

theorem WrittenState.trans {a b c : IndexedMemtable} (h : WrittenState q a b) (h' : WrittenState q b c) : WrittenState q a c where
  base := h.base.trans h'.base
  orderedLabelEdgeIndex := h.orderedLabelEdgeIndex.trans h'.orderedLabelEdgeIndex
  orderedAdjOut := h.orderedAdjOut.trans h'.orderedAdjOut
  orderedAdjIn := h.orderedAdjIn.trans h'.orderedAdjIn
  secondaryEqState := h.secondaryEqState.trans h'.secondaryEqState
  secondaryRangeState := h.secondaryRangeState.trans h'.secondaryRangeState
  secondaryCompoundState := h.secondaryCompoundState.trans h'.secondaryCompoundState

theorem WrittenState.ite {m fst snd : IndexedMemtable} {c : Prop} [Decidable c] (hfst : WrittenState q m fst)
    (hsnd : WrittenState q m snd) : WrittenState q m (if c then fst else snd) := by
  split
  · exact hfst
  · exact hsnd

section
variable (m : IndexedMemtable)

theorem writtenState_applyActions (actions : IndexActions) : WrittenState q m (m.applyActions actions q) :=
  { WrittenState.refl m with
    secondaryEqState := written_setEntries _ _
    secondaryRangeState := written_setEntries _ _
    secondaryCompoundState := written_setEntries _ _ }

theorem writtenState_setOrderedAdj (src tgt id : ℕ) (outEntry inEntry : Option AdjEntry) :
    WrittenState q m (m.setOrderedAdj src tgt id outEntry inEntry q) :=
  { WrittenState.refl m with orderedAdjOut := written_setSlot _ _ _, orderedAdjIn := written_setSlot _ _ _ }

theorem writtenState_setOrderedEdgeLabelSlot (labelId id : ℕ) (present : Bool) :
    WrittenState q m (m.setOrderedEdgeLabelSlot labelId id present q) :=
  { WrittenState.refl m with orderedLabelEdgeIndex := written_setSlot _ _ _ }

theorem writtenState_orderedUpsert (old : Option EdgeRecord) (edge : EdgeRecord) :
    WrittenState q m (m.orderedUpsert old edge q) := by
  rw [orderedUpsert.eq_def]
  refine WrittenState.trans ?_ (writtenState_setOrderedEdgeLabelSlot _ _ _ _)
  refine WrittenState.trans ?_ (writtenState_setOrderedAdj _ _ _ _ _ _)
  cases old with
  | none => exact .refl m
  | some old =>
    refine WrittenState.trans ?_ (WrittenState.ite (writtenState_setOrderedAdj _ _ _ _ _ _) (.refl _))
    exact WrittenState.ite (writtenState_setOrderedEdgeLabelSlot _ _ _ _) (.refl _)

end

theorem writtenState_applyOp (enc : IndexEncoders) (m : IndexedMemtable) (op : SeqOp) : WrittenState op.1 m (m.applyOp enc op) := by
  have hbase := writtenBase_applyOp m.base op
  obtain ⟨q, op⟩ := op
  have hstep : ∀ indexed : IndexedMemtable, WrittenState q m indexed →
      WrittenState q m { indexed with base := m.base.applyOp (q, op) } := fun indexed hidx => { hidx with base := hbase }
  rw [IndexedMemtable.applyOp.eq_def]
  apply hstep
  cases op with
  | upsertNode node => exact writtenState_applyActions m _
  | upsertEdge edge => exact (writtenState_orderedUpsert m _ edge).trans (writtenState_applyActions _ _)
  | deleteNode id deletedAt =>
    dsimp only
    split
    · exact writtenState_applyActions m _
    · exact .refl m
  | deleteEdge id deletedAt =>
    dsimp only
    split
    · refine WrittenState.trans ?_ (writtenState_applyActions _ _)
      exact (writtenState_setOrderedEdgeLabelSlot m _ _ _).trans (writtenState_setOrderedAdj _ _ _ _ _ _)
    · exact .refl m
  | ensureNodeLabel label labelId | ensureEdgeLabel label labelId
  | beginAtomicBatch firstSeq opCount | commitAtomicBatch firstSeq opCount => exact .refl m

end

theorem WrittenBase.sameBase {s q : ℕ} {before after : MemtableState} (h : WrittenBase q before after) (hq : s < q) :
    SameBase s before after where
  nodes := h.nodes.sameCells hq
  edges := h.edges.sameCells hq
  nodeTombstones := h.nodeTombstones.sameCells hq
  edgeTombstones := h.edgeTombstones.sameCells hq
  nodeKeyIndex := h.nodeKeyIndex.sameCells hq
  edgeTripleIndex := h.edgeTripleIndex.sameCells hq
  adjOut := h.adjOut.sameCells hq
  adjIn := h.adjIn.sameCells hq
  orderedEdgeIds := h.orderedEdgeIds.sameCells hq
  labelNodeIndex := h.labelNodeIndex.sameCells hq
  labelEdgeIndex := h.labelEdgeIndex.sameCells hq
  timeNodeIndex := h.timeNodeIndex.sameCells hq

theorem WrittenState.sameAt {s q : ℕ} {before after : IndexedMemtable} (h : WrittenState q before after) (hq : s < q) :
    SameAt s before after where
  base := h.base.sameBase hq
  orderedLabelEdgeIndex := h.orderedLabelEdgeIndex.sameCells hq
  orderedAdjOut := h.orderedAdjOut.sameCells hq
  orderedAdjIn := h.orderedAdjIn.sameCells hq
  secondaryEqState := h.secondaryEqState.sameCells hq
  secondaryRangeState := h.secondaryRangeState.sameCells hq
  secondaryCompoundState := h.secondaryCompoundState.sameCells hq

/-- All reads at the snapshot return the same. Where a hash map is read in its own order, what a read can return is the
same. -/
structure SameReads (enc : IndexEncoders) (s : ℕ) (before after : IndexedMemtable) : Prop where
  getNodeAt : getNodeAt after s = getNodeAt before s
  getEdgeAt : getEdgeAt after s = getEdgeAt before s
  isNodeDeletedAt : isNodeDeletedAt after s = isNodeDeletedAt before s
  isEdgeDeletedAt : isEdgeDeletedAt after s = isEdgeDeletedAt before s
  nodeTombstoneAt : nodeTombstoneAt after s = nodeTombstoneAt before s
  edgeTombstoneAt : edgeTombstoneAt after s = edgeTombstoneAt before s
  nodeByKeyAt : nodeByKeyAt after s = nodeByKeyAt before s
  nodeIdByKeyAt : nodeIdByKeyAt after s = nodeIdByKeyAt before s
  edgeByTripleAt : edgeByTripleAt after s = edgeByTripleAt before s
  visibleNodeIdsAt : visibleNodeIdsAt after s = visibleNodeIdsAt before s
  visibleNodeCountAt : visibleNodeCountAt after s = visibleNodeCountAt before s
  visibleEdgeIdsAt : visibleEdgeIdsAt after s = visibleEdgeIdsAt before s
  visibleNodesByLabelId : visibleNodesByLabelId after s = visibleNodesByLabelId before s
  visibleNodesByLabelIdCount : visibleNodesByLabelIdCount after s = visibleNodesByLabelIdCount before s
  nextVisibleNodeByLabelIdAfter : nextVisibleNodeByLabelIdAfter after s = nextVisibleNodeByLabelIdAfter before s
  visibleNodeLabelIds : visibleNodeLabelIds after s = visibleNodeLabelIds before s
  visibleEdgesByLabelId : visibleEdgesByLabelId after s = visibleEdgesByLabelId before s
  visibleEdgesByLabelIdCount : visibleEdgesByLabelIdCount after s = visibleEdgesByLabelIdCount before s
  nextVisibleEdgeByLabelIdAfter : nextVisibleEdgeByLabelIdAfter after s = nextVisibleEdgeByLabelIdAfter before s
  nextVisibleEdgeIdAfter : nextVisibleEdgeIdAfter after s = nextVisibleEdgeIdAfter before s
  forEachVisibleNodeByTimeRangeAt : forEachVisibleNodeByTimeRangeAt after s = forEachVisibleNodeByTimeRangeAt before s
  visibleNodesByTimeRange : visibleNodesByTimeRange after s = visibleNodesByTimeRange before s
  visibleNodeTimeRangeCountAt : visibleNodeTimeRangeCountAt after s = visibleNodeTimeRangeCountAt before s
  edgeIdsByTripleAt : edgeIdsByTripleAt after s = edgeIdsByTripleAt before s
  collectDeletedNodesAt : collectDeletedNodesAt after s = collectDeletedNodesAt before s
  collectDeletedEdgesAt : collectDeletedEdgesAt after s = collectDeletedEdgesAt before s
  visibleSecondaryRangeEntriesLimited : visibleSecondaryRangeEntriesLimited after s = visibleSecondaryRangeEntriesLimited before s
  visibleSecondaryRangeEntryCount : visibleSecondaryRangeEntryCount after s = visibleSecondaryRangeEntryCount before s
  findCompoundPrefixAt : findCompoundPrefixAt after s = findCompoundPrefixAt before s
  countCompoundPrefixAt : countCompoundPrefixAt after s = countCompoundPrefixAt before s
  findCompoundRangeAt : findCompoundRangeAt after s = findCompoundRangeAt before s
  countCompoundRangeAt : countCompoundRangeAt after s = countCompoundRangeAt before s
  secondaryEqNodeCountAt : secondaryEqNodeCountAt enc after s = secondaryEqNodeCountAt enc before s
  secondaryEqEdgeCountAt : secondaryEqEdgeCountAt enc after s = secondaryEqEdgeCountAt enc before s
  secondaryEqHashCountAt : secondaryEqHashCountAt after s = secondaryEqHashCountAt before s
  findSecondaryEqNodesAt : findSecondaryEqNodesAt enc after s = findSecondaryEqNodesAt enc before s
  findSecondaryEqNodesAtLimited : FindSecondaryEqNodesAtLimited enc after s = FindSecondaryEqNodesAtLimited enc before s
  findSecondaryEqByHashAtLimited : FindSecondaryEqByHashAtLimited after s = FindSecondaryEqByHashAtLimited before s
  neighborsAt : NeighborsAt after s = NeighborsAt before s
  incidentEdgesAt : IncidentEdgesAt after s = IncidentEdgesAt before s
  nextVisibleEdgeFromEndpointAfter : nextVisibleEdgeFromEndpointAfter after s = nextVisibleEdgeFromEndpointAfter before s
  nextVisibleEdgeToEndpointAfter : nextVisibleEdgeToEndpointAfter after s = nextVisibleEdgeToEndpointAfter before s
  forEachVisibleNodeAt : ForEachVisibleNodeAt after s = ForEachVisibleNodeAt before s
  forEachEdgeMetadataAt : ForEachEdgeMetadataAt after s = ForEachEdgeMetadataAt before s

section
variable {s : ℕ} {before after : IndexedMemtable}

section
variable (h : SameAt s before after)
include h

theorem getNodeAt_congr : getNodeAt after s = getNodeAt before s := by
  funext id
  exact congrArg (·.bind live?) (h.base.nodes id)

theorem getEdgeAt_congr : getEdgeAt after s = getEdgeAt before s := by
  funext id
  exact congrArg (·.bind live?) (h.base.edges id)

theorem isNodeDeletedAt_congr : isNodeDeletedAt after s = isNodeDeletedAt before s := by
  funext id
  exact congrArg (·.join.isSome) (h.base.nodeTombstones id)

theorem nodeKeySlotAt_congr (labelId : ℕ) (key : String) :
    after.base.nodeKeySlotAt labelId key s = before.base.nodeKeySlotAt labelId key s :=
  congrArg Option.join (h.base.nodeKeyIndex (labelId, key))

end

theorem underLabel_congr {τ : Type} {fst snd : MembershipMap (ℕ × ℕ) τ} (h : SameCells s fst snd) :
    underLabel s snd = underLabel s fst := by
  funext labelId
  exact insertionSort_congr ((h.visibleEntries.filter _).map _)

section
variable (h : SameAt s before after)
include h

theorem nodesByTimeAt_congr : nodesByTimeAt after s = nodesByTimeAt before s := by
  funext labelId fromMs toMs
  rw [nodesByTimeAt, nodesByTimeAt]
  split
  · rfl
  · exact insertionSort_congr ((h.base.timeNodeIndex.visibleKeys.filter _).map _)

theorem rangeEntriesAt_congr : rangeEntriesAt after s = rangeEntriesAt before s := by
  funext indexId lower upper cursor
  exact insertionSort_congr (((h.secondaryRangeState.visibleKeys.filter _).map _).filter _)

theorem compoundIdsAt_congr : compoundIdsAt after s = compoundIdsAt before s := by
  funext indexId inRange
  rw [compoundIdsAt, compoundIdsAt, insertionSort_congr ((h.secondaryCompoundState.visibleKeys.filter _).map _)]

theorem idsWithHash_congr (indexId valueHash : ℕ) :
    (idsWithHash after s indexId valueHash).Perm (idsWithHash before s indexId valueHash) :=
  (h.secondaryEqState.visibleKeys.filter _).map _

theorem nodeHasValueAt_congr : nodeHasValueAt after s = nodeHasValueAt before s := by
  funext pkey value id
  rw [nodeHasValueAt, nodeHasValueAt, getNodeAt_congr h]

theorem edgeHasValueAt_congr : edgeHasValueAt after s = edgeHasValueAt before s := by
  funext pkey value id
  rw [edgeHasValueAt, edgeHasValueAt, getEdgeAt_congr h]

end

variable {fst snd : MembershipMap (ℕ × ℕ) AdjEntry}

theorem adjEntriesAt_congr (h : SameCells s fst snd) (nodeId : ℕ) :
    (adjEntriesAt s snd nodeId).Perm (adjEntriesAt s fst nodeId) := (h.visibleEntries.filter _).map _

/-- Any order of the entries after is one of the entries before. -/
theorem exists_order_congr {α : Type} {fst snd : List α} (h : snd.Perm fst) {P : List α → Prop} :
    (∃ order, order.Perm snd ∧ P order) ↔ ∃ order, order.Perm fst ∧ P order := by
  constructor
  · intro hexi
    obtain ⟨order, hor, hP⟩ := hexi
    exact ⟨order, hor.trans h, hP⟩
  · intro hexi
    obtain ⟨order, hor, hP⟩ := hexi
    exact ⟨order, hor.trans h.symm, hP⟩

section
variable (h : SameAt s before after)
include h

theorem exists_orders_congr (nodeId : ℕ) {P : List AdjEntry → List AdjEntry → Prop} :
    (∃ outEntries inEntries : List AdjEntry, outEntries.Perm (adjEntriesAt s after.base.adjOut nodeId) ∧
      inEntries.Perm (adjEntriesAt s after.base.adjIn nodeId) ∧ P outEntries inEntries) ↔
    ∃ outEntries inEntries : List AdjEntry, outEntries.Perm (adjEntriesAt s before.base.adjOut nodeId) ∧
      inEntries.Perm (adjEntriesAt s before.base.adjIn nodeId) ∧ P outEntries inEntries := by
  have hout := adjEntriesAt_congr h.base.adjOut nodeId
  have hin := adjEntriesAt_congr h.base.adjIn nodeId
  constructor
  · intro hexi
    obtain ⟨outEntries, inEntries, ho, hi, hP⟩ := hexi
    exact ⟨outEntries, inEntries, ho.trans hout, hi.trans hin, hP⟩
  · intro hexi
    obtain ⟨outEntries, inEntries, ho, hi, hP⟩ := hexi
    exact ⟨outEntries, inEntries, ho.trans hout.symm, hi.trans hin.symm, hP⟩

theorem neighborsAt_congr : NeighborsAt after s = NeighborsAt before s := by
  funext nodeId dir fids limit res
  rw [NeighborsAt, NeighborsAt, isNodeDeletedAt_congr h]
  split
  · rfl
  · exact propext (exists_orders_congr h nodeId)

theorem incidentEdgesAt_congr : IncidentEdgesAt after s = IncidentEdgesAt before s := by
  funext nodeId dir fids res
  rw [IncidentEdgesAt, IncidentEdgesAt, isNodeDeletedAt_congr h]
  split
  · rfl
  · exact propext (exists_orders_congr h nodeId)

theorem nextVisibleAdjEdgeAfter_congr (hord : SameCells s fst snd) :
    nextVisibleAdjEdgeAfter after s snd = nextVisibleAdjEdgeAfter before s fst := by
  funext nodeId fids cursor
  rw [nextVisibleAdjEdgeAfter, nextVisibleAdjEdgeAfter, isNodeDeletedAt_congr h]
  split
  · rfl
  · exact congrArg (firstAfter cursor) (insertionSort_congr ((hord.visibleEntries.filter _).map _))

end

theorem SameAt.sameReads (enc : IndexEncoders) (h : SameAt s before after) : SameReads enc s before after := by
  have hlab := underLabel_congr h.base.labelNodeIndex
  have hord := underLabel_congr h.orderedLabelEdgeIndex
  have htime := nodesByTimeAt_congr h
  have hrng := rangeEntriesAt_congr h
  have hcpd := compoundIdsAt_congr h
  have hnos : visibleNodesByLabelId after s = visibleNodesByLabelId before s := hlab
  have hvisit : forEachVisibleNodeByTimeRangeAt after s = forEachVisibleNodeByTimeRangeAt before s := by
    funext labelId fromMs toMs
    rw [forEachVisibleNodeByTimeRangeAt, forEachVisibleNodeByTimeRangeAt, htime]
  have hst : findCompoundPrefixAt after s = findCompoundPrefixAt before s := by
    funext indexId bounds
    rw [findCompoundPrefixAt, findCompoundPrefixAt, hcpd]
  have hwi : findCompoundRangeAt after s = findCompoundRangeAt before s := by
    funext indexId bounds
    rw [findCompoundRangeAt, findCompoundRangeAt, hcpd]
  constructor
  case getNodeAt => exact getNodeAt_congr h
  case getEdgeAt => exact getEdgeAt_congr h
  case isNodeDeletedAt => exact isNodeDeletedAt_congr h
  case isEdgeDeletedAt => exact funext fun id => congrArg (·.join.isSome) (h.base.edgeTombstones id)
  case nodeTombstoneAt => exact funext fun id => congrArg (·.bind tombstone?) (h.base.nodes id)
  case edgeTombstoneAt => exact funext fun id => congrArg (·.bind tombstone?) (h.base.edges id)
  case nodeByKeyAt =>
    funext labelId key
    show (after.base.nodeKeySlotAt labelId key s).bind (getNodeAt after s) =
      (before.base.nodeKeySlotAt labelId key s).bind (getNodeAt before s)
    rw [nodeKeySlotAt_congr h, getNodeAt_congr h]
  case nodeIdByKeyAt =>
    funext labelId key
    show ((after.base.nodeKeySlotAt labelId key s).bind fun nodeId => (getNodeAt after s nodeId).bind fun node =>
      if node.labelIds.contains labelId && node.key == key then some nodeId else none) =
      (before.base.nodeKeySlotAt labelId key s).bind fun nodeId => (getNodeAt before s nodeId).bind fun node =>
      if node.labelIds.contains labelId && node.key == key then some nodeId else none
    rw [nodeKeySlotAt_congr h, getNodeAt_congr h]
  case edgeByTripleAt =>
    funext triple
    have hslot : after.base.edgeTripleSlotAt triple s = before.base.edgeTripleSlotAt triple s :=
      congrArg Option.join (h.base.edgeTripleIndex triple)
    show (after.base.edgeTripleSlotAt triple s).bind (getEdgeAt after s) = (before.base.edgeTripleSlotAt triple s).bind (getEdgeAt before s)
    rw [hslot, getEdgeAt_congr h]
  case visibleNodeIdsAt => exact insertionSort_congr (h.base.nodes.visibleRecords.map _)
  case visibleNodeCountAt => exact h.base.nodes.visibleRecords.length_eq
  case visibleEdgeIdsAt => exact insertionSort_congr (h.base.edges.visibleRecords.map _)
  case visibleNodesByLabelId => exact hnos
  case visibleNodesByLabelIdCount => exact funext fun labelId => congrArg List.length (congrFun hnos labelId)
  case nextVisibleNodeByLabelIdAfter =>
    exact funext fun labelId => funext fun cursor => congrArg (firstAfter cursor) (congrFun hnos labelId)
  case visibleNodeLabelIds => exact insertionSort_congr (h.base.labelNodeIndex.visibleKeys.map _).dedup
  case visibleEdgesByLabelId => exact underLabel_congr h.base.labelEdgeIndex
  case visibleEdgesByLabelIdCount => exact funext fun labelId => congrArg List.length (congrFun hord labelId)
  case nextVisibleEdgeByLabelIdAfter =>
    exact funext fun labelId => funext fun cursor => congrArg (firstAfter cursor) (congrFun hord labelId)
  case nextVisibleEdgeIdAfter =>
    exact funext fun cursor => congrArg (firstAfter cursor) (insertionSort_congr (h.base.orderedEdgeIds.visibleKeys.filter _))
  case forEachVisibleNodeByTimeRangeAt => exact hvisit
  case visibleNodesByTimeRange =>
    funext labelId fromMs toMs
    rw [visibleNodesByTimeRange, visibleNodesByTimeRange, hvisit]
  case visibleNodeTimeRangeCountAt =>
    funext labelId fromMs toMs
    rw [visibleNodeTimeRangeCountAt, visibleNodeTimeRangeCountAt, hvisit]
  case edgeIdsByTripleAt =>
    exact funext fun src => funext fun tgt => funext fun labelId => insertionSort_congr ((h.base.adjOut.visibleEntries.filter _).map _)
  case collectDeletedNodesAt => exact insertionSort_congr h.base.nodeTombstones.visibleKeys
  case collectDeletedEdgesAt => exact insertionSort_congr h.base.edgeTombstones.visibleKeys
  case visibleSecondaryRangeEntriesLimited =>
    funext indexId lower upper cursor limit
    rw [visibleSecondaryRangeEntriesLimited, visibleSecondaryRangeEntriesLimited, hrng]
  case visibleSecondaryRangeEntryCount =>
    funext indexId lower upper cursor
    rw [visibleSecondaryRangeEntryCount, visibleSecondaryRangeEntryCount, hrng]
  case findCompoundPrefixAt => exact hst
  case countCompoundPrefixAt =>
    funext indexId bounds
    rw [countCompoundPrefixAt, countCompoundPrefixAt, hst]
  case findCompoundRangeAt => exact hwi
  case countCompoundRangeAt =>
    funext indexId bounds
    rw [countCompoundRangeAt, countCompoundRangeAt, hwi]
  case secondaryEqNodeCountAt =>
    funext indexId pkey value
    rw [secondaryEqNodeCountAt, secondaryEqNodeCountAt, nodeHasValueAt_congr h]
    exact ((idsWithHash_congr h _ _).filter _).length_eq
  case secondaryEqEdgeCountAt =>
    funext indexId pkey value
    rw [secondaryEqEdgeCountAt, secondaryEqEdgeCountAt, edgeHasValueAt_congr h]
    exact ((idsWithHash_congr h _ _).filter _).length_eq
  case secondaryEqHashCountAt => exact funext fun indexId => funext fun valueHash => (idsWithHash_congr h indexId valueHash).length_eq
  case findSecondaryEqNodesAt =>
    funext indexId pkey value
    rw [findSecondaryEqNodesAt, findSecondaryEqNodesAt, nodeHasValueAt_congr h]
    exact insertionSort_congr ((idsWithHash_congr h _ _).filter _)
  case findSecondaryEqNodesAtLimited =>
    funext indexId pkey value maxIds res
    rw [FindSecondaryEqNodesAtLimited, FindSecondaryEqNodesAtLimited, nodeHasValueAt_congr h]
    exact propext (exists_order_congr (idsWithHash_congr h _ _))
  case findSecondaryEqByHashAtLimited =>
    funext indexId valueHash maxIds res
    exact propext (exists_order_congr (idsWithHash_congr h indexId valueHash))
  case neighborsAt => exact neighborsAt_congr h
  case incidentEdgesAt => exact incidentEdgesAt_congr h
  case nextVisibleEdgeFromEndpointAfter => exact nextVisibleAdjEdgeAfter_congr h h.orderedAdjOut
  case nextVisibleEdgeToEndpointAfter => exact nextVisibleAdjEdgeAfter_congr h h.orderedAdjIn
  case forEachVisibleNodeAt =>
    funext vis
    have hperm := h.base.nodes.visibleRecords.map (·.2)
    exact propext ⟨fun hvis => hvis.trans hperm, fun hvis => hvis.trans hperm.symm⟩
  case forEachEdgeMetadataAt =>
    funext vis
    have hperm := h.base.edges.visibleRecords.map (·.2)
    exact propext ⟨fun hvis => hvis.trans hperm, fun hvis => hvis.trans hperm.symm⟩

end

/-- An operation above a snapshot changes none of its reads, in any state. -/
theorem reads_stable (enc : IndexEncoders) (m : IndexedMemtable) {s : ℕ} {op : SeqOp} (h : s < op.1) :
    SameReads enc s m (m.applyOp enc op) := ((writtenState_applyOp enc m op).sameAt h).sameReads enc

def plainEncoders : IndexEncoders := ⟨fun _ => 0, fun _ _ _ => [], fun _ _ _ => []⟩

def edgeTo (id target : ℕ) : EdgeRecord := ⟨id, 1, target, 1, ∅, 0, 0, 0, 0, i64Max, 0⟩

def twoEdges : IndexedMemtable := IndexedMemtable.ofOps plainEncoders [] [(1, .upsertEdge (edgeTo 1 2)), (2, .upsertEdge (edgeTo 2 3))]

def threeEdges : IndexedMemtable := twoEdges.applyOp plainEncoders (3, .upsertEdge (edgeTo 3 4))

theorem reads_stable_twoEdges : SameReads plainEncoders 2 twoEdges (twoEdges.applyOp plainEncoders (3, .upsertEdge (edgeTo 3 4))) :=
  reads_stable plainEncoders twoEdges (Nat.lt_succ_self 2)

/-- The estimate of the edges at an endpoint counts later cells, and a limited read of a hash map depends on its order. -/
theorem estimate_not_stable : visibleEndpointEdgesCountEstimateAt twoEdges 2 [1] .outgoing none = ⟨2, false⟩ ∧
    visibleEndpointEdgesCountEstimateAt threeEdges 2 [1] .outgoing none = ⟨3, false⟩ ∧
    ∃ fst snd, NeighborsAt twoEdges 2 1 .outgoing none 1 fst ∧ NeighborsAt threeEdges 2 1 .outgoing none 1 snd ∧
      fst ≠ snd := by
  refine ⟨by decide +kernel, by decide +kernel, ?_⟩
  have hbefore : adjEntriesAt 2 twoEdges.base.adjOut 1 =
      [MemtableState.adjEntry (edgeTo 2 3) 3, MemtableState.adjEntry (edgeTo 1 2) 2] := rfl
  have hafter : adjEntriesAt 2 threeEdges.base.adjOut 1 =
      [MemtableState.adjEntry (edgeTo 2 3) 3, MemtableState.adjEntry (edgeTo 1 2) 2] := rfl
  refine ⟨[⟨3, 2, 1, 0, 0, i64Max⟩], [⟨2, 1, 1, 0, 0, i64Max⟩], ?_, ?_, by decide⟩
  · rw [NeighborsAt, if_neg (by decide +kernel), hbefore]
    exact ⟨_, _, List.Perm.refl _, List.Perm.refl _, rfl⟩
  · rw [NeighborsAt, if_neg (by decide +kernel), hafter]
    exact ⟨_, _, List.Perm.swap _ _ _, List.Perm.refl _, rfl⟩

end OverGraph.SnapshotStability
