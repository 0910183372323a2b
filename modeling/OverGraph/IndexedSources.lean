import OverGraph.Cuts
import OverGraph.EdgeCandidates
import OverGraph.IndexCoherence
import OverGraph.LimitedScans

/-!
# The indexes of layered sources

A memtable keeps its declared indexes as it receives operations, and a segment has a sidecar for each index
that was built for it: the entries of its records, in order. In every layer an index holds an entry for each
record that the layer shows, and no other.
-/

namespace OverGraph.IndexedSources
open AssocMaps Records Memtable Segments LayeredWrites Sources SecondaryEntries SnapshotReads List IndexedMemtable Function SourceList
open MemtableState
open TrackedIndexes IndexFamily SecondaryHeads IndexCoherence LimitedScans

variable {id : ℕ}

section
variable {φ ρ κ : Type} [DecidableEq κ] (F : IndexFamily φ ρ κ)

def keyIn (indexId : ℕ) (r : ρ) : Option κ :=
  (F.declared indexId).bind fun what => if what.1 ∈ F.labels r then F.keyOf what.1 what.2 r else none

theorem entry_eq_some_iff {F : IndexFamily φ ρ κ} {indexId : ℕ} {key : κ} {r : ρ} :
    F.entry r (indexId, key, id) = some () ↔ keyIn F indexId r = some key := by
  rw [IndexFamily.entry, keyIn]
  cases F.declared indexId with
  | none => simp
  | some what => by_cases hlab : what.1 ∈ F.labels r <;> simp [hlab]

end

section
variable {φ ρ κ : Type} [LinearOrder κ] (F : IndexFamily φ ρ κ)

/-- The entries of an index in a segment, by key and then by identifier. -/
def sidecarEntries (records : Map ℕ ρ) (indexId : ℕ) : List (κ ×ₗ ℕ) :=
  (records.entries.filterMap fun stored => (keyIn F indexId stored.2).map fun key => toLex (key, stored.1)).insertionSort (· ≤ ·)

section
variable {F : IndexFamily φ ρ κ} {records : Map ℕ ρ} {indexId : ℕ}

theorem mem_sidecarEntries {key : κ} :
    toLex (key, id) ∈ sidecarEntries F records indexId ↔ ∃ r, records.lookup id = some r ∧ keyIn F indexId r = some key := by
  rw [sidecarEntries, (perm_insertionSort _ _).mem_iff, mem_filterMap]
  constructor
  · intro h
    obtain ⟨⟨stored, r⟩, hsto, hkey⟩ := h
    obtain ⟨key', hkey', heq⟩ := Option.map_eq_some_iff.mp hkey
    obtain ⟨rfl, rfl⟩ := Prod.mk.inj (toLex.injective heq)
    exact ⟨r, AList.mem_lookup_iff.mpr hsto, hkey'⟩
  · intro h
    obtain ⟨r, hrec, hkey⟩ := h
    exact ⟨⟨id, r⟩, AList.mem_lookup_iff.mp hrec, by rw [hkey]; rfl⟩

theorem nodup_sidecarIds :
    ((sidecarEntries F records indexId).map fun entry => (ofLex entry).2).Nodup := by
  have hperm := (perm_insertionSort (· ≤ ·) (records.entries.filterMap fun stored =>
    (keyIn F indexId stored.2).map fun key => (toLex (key, stored.1) : κ ×ₗ ℕ))).map fun entry => (ofLex entry).2
  rw [sidecarEntries, hperm.nodup_iff, Nodup, pairwise_map, pairwise_filterMap]
  refine (nodupKeys_iff_pairwise.mp records.nodupKeys).imp fun hne fst hfst snd hsnd heq => ?_
  obtain ⟨_, -, rfl⟩ := Option.map_eq_some_iff.mp hfst
  obtain ⟨_, -, rfl⟩ := Option.map_eq_some_iff.mp hsnd
  exact hne heq

theorem sorted_sidecarEntries : (sidecarEntries F records indexId).Pairwise (· < ·) := by
  have hle := pairwise_insertionSort (· ≤ ·) (records.entries.filterMap fun stored =>
    (keyIn F indexId stored.2).map fun key => (toLex (key, stored.1) : κ ×ₗ ℕ))
  have hne : (sidecarEntries F records indexId).Pairwise (· ≠ ·) := (@nodup_sidecarIds φ ρ κ _ F records indexId).of_map
  exact hle.imp₂ (fun _ _ => lt_of_le_of_ne) hne

end

end

structure IndexedSegment where
  base : Segment
  available : ℕ → Bool

structure IndexedSourceList where
  active : IndexedMemtable
  immutable : List IndexedMemtable
  segments : List IndexedSegment
  snapshotSeq : ℕ

namespace IndexedSourceList

def base (src : IndexedSourceList) : SourceList := ⟨src.active.base, src.immutable.map (·.base), src.segments.map (·.base), src.snapshotSeq⟩

end IndexedSourceList

variable (enc : IndexEncoders) (decls : Map ℕ SecondaryIndexEntry)

namespace IndexedSegment
variable (seg : IndexedSegment)

/-- A sidecar, if there is one. -/
def sidecar {κ : Type} (indexId : ℕ) (es : List (κ ×ₗ ℕ)) : Option (List (κ ×ₗ ℕ)) := if seg.available indexId then some es else none

def edgeEqSidecar (indexId : ℕ) : Option (List (ℕ ×ₗ ℕ)) :=
  seg.sidecar indexId (sidecarEntries (edgeEqFamily enc decls) seg.base.edges indexId)

def edgeRangeSidecar (indexId : ℕ) : Option (List (NumericRangeSortKey ×ₗ ℕ)) :=
  seg.sidecar indexId (sidecarEntries (edgeRangeFamily decls) seg.base.edges indexId)

def nodeCompoundSidecar (indexId : ℕ) : Option (List (List ℕ ×ₗ ℕ)) :=
  seg.sidecar indexId (sidecarEntries (nodeFieldFamily enc decls) seg.base.nodes indexId)

def edgeCompoundSidecar (indexId : ℕ) : Option (List (List ℕ ×ₗ ℕ)) :=
  seg.sidecar indexId (sidecarEntries (edgeFieldFamily enc decls) seg.base.edges indexId)

end IndexedSegment

def declarationsOf (es : List SecondaryIndexEntry) : Map ℕ SecondaryIndexEntry := (ofOps enc es []).secondaryIndexDeclarations

/-- The memtables are runs of operations under the declared indexes, and no segment deletes a record that it stores. -/
structure Layered (es : List SecondaryIndexEntry) (src : IndexedSourceList) : Prop where
  memtables : ∀ m ∈ src.active :: src.immutable, ∃ ops : List SeqOp,
    ops.Pairwise (fun fst snd => fst.1 < snd.1) ∧ m = ofOps enc es ops
  nodes : ∀ seg ∈ src.segments, ∀ id, seg.base.isNodeDeleted id = true → seg.base.nodes.lookup id = none
  edges : ∀ seg ∈ src.segments, ∀ id, seg.base.isEdgeDeleted id = true → seg.base.edges.lookup id = none

section
variable (es : List SecondaryIndexEntry)

/-- A history that is cut into layers, with the sidecars that are there. -/
def cutSources (L : Cuts.Layering) (available : ℕ → Bool) : IndexedSourceList where
  active := ofOps enc es L.active
  immutable := L.immutable.map (ofOps enc es)
  segments := L.segments.map fun ops => ⟨writeSegment (ofOps ops), available⟩
  snapshotSeq := lastSeq L.history

theorem lookup_nodes_of_deleted (ops : List SeqOp) (hdel : (writeSegment (ofOps ops)).isNodeDeleted id = true) :
    (writeSegment (ofOps ops)).nodes.lookup id = none := by
  have hagree := tombstonesAgree_ofOps ops
  rw [isNodeDeleted_writeSegment hagree] at hdel
  show (ofOps ops).liveNodes.lookup id = none
  rw [lookup_liveNodes, currentNode_eq, (hagree.nodes id).mp hdel]
  rfl

theorem lookup_edges_of_deleted (ops : List SeqOp) (hdel : (writeSegment (ofOps ops)).isEdgeDeleted id = true) :
    (writeSegment (ofOps ops)).edges.lookup id = none := by
  have hagree := tombstonesAgree_ofOps ops
  rw [isEdgeDeleted_writeSegment hagree] at hdel
  show (ofOps ops).liveEdges.lookup id = none
  rw [lookup_liveEdges, currentEdge_eq, (hagree.edges id).mp hdel]
  rfl

/-- Every cut of a history makes layered sources. -/
theorem layered_cutSources {L : Cuts.Layering} (hseqs : L.history.Pairwise fun fst snd => fst.1 < snd.1)
    (available : ℕ → Bool) : Layered enc es (cutSources enc es L available) where
  memtables m hm := by
    have hck : ∃ ops ∈ L.chunks, m = ofOps enc es ops := by
      rcases mem_cons.mp hm with rfl | hm
      · exact ⟨L.active, mem_append_left _ mem_cons_self, rfl⟩
      · obtain ⟨ops, hops, rfl⟩ := mem_map.mp hm
        exact ⟨ops, mem_append_left _ (mem_cons_of_mem _ hops), rfl⟩
    obtain ⟨ops, hops, rfl⟩ := hck
    exact ⟨ops, hseqs.sublist (sublist_flatten_of_mem (mem_reverse.mpr hops)), rfl⟩
  nodes seg hseg id hdel := by
    obtain ⟨ops, -, rfl⟩ := mem_map.mp hseg
    exact lookup_nodes_of_deleted ops hdel
  edges seg hseg id hdel := by
    obtain ⟨ops, -, rfl⟩ := mem_map.mp hseg
    exact lookup_edges_of_deleted ops hdel

end

/-- A layer shows a record, or says that it is gone. -/
def recordOpinion {ρ : Type} (get : ℕ → Option ρ) (deleted : ℕ → Bool) : Opinion ℕ ρ := fun id =>
  match get id with
  | some r => some (some r)
  | none => if deleted id then some none else none

section
variable {ρ : Type} {get : ℕ → Option ρ} {deleted : ℕ → Bool} {id : ℕ}

theorem recordOpinion_eq_some_iff {r : ρ} : recordOpinion get deleted id = some (some r) ↔ get id = some r := by
  rw [recordOpinion]
  cases hget : get id with
  | none => by_cases hdel : deleted id = true <;> simp [hdel]
  | some held => simp

theorem isSome_recordOpinion : (recordOpinion get deleted id).isSome = ((get id).isSome || deleted id) := by
  rw [recordOpinion]
  cases hget : get id with
  | none => by_cases hdel : deleted id = true <;> simp [hdel]
  | some held => simp

theorem isDeletion_recordOpinion (h : deleted id = true → get id = none) : isDeletion (recordOpinion get deleted id) = deleted id := by
  rw [recordOpinion]
  cases hget : get id with
  | none => by_cases hdel : deleted id = true <;> simp [hdel, isDeletion]
  | some held =>
    by_cases hdel : deleted id = true
    · rw [h hdel] at hget
      cases hget
    · simp [isDeletion, hdel]

theorem recordOpinion_of_guarded (h : deleted id = true → get id = none) :
    recordOpinion get deleted id = if deleted id then some none else (get id).map some := by
  rw [recordOpinion]
  by_cases hdel : deleted id = true
  · simp [h hdel, hdel]
  · cases get id <;> simp [hdel]

theorem posts_recordOpinion {wanted : ℕ → ρ → Prop} {ids : List ℕ} (hnd : ids.Nodup)
    (hmem : ∀ id, id ∈ ids ↔ ∃ r, get id = some r ∧ wanted id r) :
    Posts wanted (ids, recordOpinion get deleted) where
  nodup := hnd
  mem id := by
    rw [hmem]
    simp only [recordOpinion_eq_some_iff]

end

section
variable (s : ℕ)

def memtableEdges (m : IndexedMemtable) : Opinion ℕ EdgeRecord := recordOpinion (m.base.getEdgeAt · s) (m.base.isEdgeDeletedAt · s)

def memtableNodes (m : IndexedMemtable) : Opinion ℕ NodeRecord := recordOpinion (m.base.getNodeAt · s) (m.base.isNodeDeletedAt · s)

def segmentEdges (seg : IndexedSegment) : Opinion ℕ EdgeRecord := recordOpinion seg.base.getEdge seg.base.isEdgeDeleted

def segmentNodes (seg : IndexedSegment) : Opinion ℕ NodeRecord := recordOpinion seg.base.getNode seg.base.isNodeDeleted

variable (src : IndexedSourceList)

theorem findEdge_eq (id : ℕ) : src.base.findEdge id =
    visible ((src.active :: src.immutable).map (memtableEdges src.snapshotSeq) ++ src.segments.map segmentEdges) id := by
  rw [findEdge, visible, firstOpinion_append, firstOpinion, firstOpinion, findSome?_map, findSome?_map]
  dsimp only [IndexedSourceList.base]
  rw [← map_cons, findSome?_map, findSome?_map]
  congr 2
  · apply findSome?_congr
    intro m _
    rw [comp_apply, comp_apply, memtableEdges, recordOpinion]
    cases m.base.getEdgeAt id src.snapshotSeq <;> rfl
  · apply findSome?_congr
    intro seg _
    rw [comp_apply, comp_apply, segmentEdges, recordOpinion_of_guarded fun hdel => if_pos hdel]

theorem findNode_eq (id : ℕ) : src.base.findNode id =
    visible ((src.active :: src.immutable).map (memtableNodes src.snapshotSeq) ++ src.segments.map segmentNodes) id := by
  rw [findNode, visible, firstOpinion_append, firstOpinion, firstOpinion, findSome?_map, findSome?_map]
  dsimp only [IndexedSourceList.base]
  rw [← map_cons, findSome?_map, findSome?_map]
  congr 2
  · apply findSome?_congr
    intro m _
    rw [comp_apply, comp_apply, memtableNodes, recordOpinion]
    cases m.base.getNodeAt id src.snapshotSeq <;> rfl
  · apply findSome?_congr
    intro seg _
    rw [comp_apply, comp_apply, segmentNodes, recordOpinion_of_guarded fun hdel => if_pos hdel]

end

section
variable {κ ρ : Type}

/-- Under an index the keys of a memtable are those of the records that it shows. -/
structure Holds (keys : List (ℕ × κ × ℕ)) (indexId : ℕ) (view : ℕ → Option ρ) (keyOf : ρ → Option κ) : Prop where
  nodup : keys.Nodup
  mem : ∀ key id, (indexId, key, id) ∈ keys ↔ ∃ record, view id = some record ∧ keyOf record = some key

variable {keys : List (ℕ × κ × ℕ)} {indexId : ℕ} {view : ℕ → Option ρ} {keyOf : ρ → Option κ}

/-- An identifier has one key at most. -/
theorem Holds.inj (h : Holds keys indexId view keyOf) {fst snd : κ} (hfst : (indexId, fst, id) ∈ keys)
    (hsnd : (indexId, snd, id) ∈ keys) : fst = snd := by
  obtain ⟨r, hrec, hkey⟩ := (h.mem fst id).mp hfst
  obtain ⟨other, hoth, hkey'⟩ := (h.mem snd id).mp hsnd
  rw [hrec] at hoth
  obtain rfl : r = other := Option.some.inj hoth
  rw [hkey] at hkey'
  exact Option.some.inj hkey'

theorem Holds.nodup_ids (h : Holds keys indexId view keyOf) (test : ℕ × κ × ℕ → Bool)
    (htest : ∀ k, test k = true → k.1 = indexId) : ((keys.filter test).map (·.2.2)).Nodup := by
  apply Nodup.map_on _ (h.nodup.filter _)
  intro fst hfst snd hsnd heq
  obtain ⟨hmem, hpass⟩ := mem_filter.mp hfst
  obtain ⟨hmem', hpass'⟩ := mem_filter.mp hsnd
  obtain ⟨i, key, id⟩ := fst
  obtain ⟨j, key', id'⟩ := snd
  obtain rfl : i = indexId := htest _ hpass
  obtain rfl : j = i := htest _ hpass'
  obtain rfl : id = id' := heq
  rw [h.inj hmem hmem']

end

section
variable {φ ψ κ : Type} [DecidableEq κ] {N : IndexFamily φ NodeRecord κ} {E : IndexFamily ψ EdgeRecord κ}
variable {idx : MembershipMap (ℕ × κ × ℕ) Unit} {s : ℕ} {nodes : ℕ → Option NodeRecord} {edges : ℕ → Option EdgeRecord}

omit [DecidableEq κ] in
theorem mem_visibleKeys {k : ℕ × κ × ℕ} : k ∈ visibleKeys idx s ↔ (k, ()) ∈ visibleEntries idx s := by
  rw [visibleKeys, mem_map]
  constructor
  · intro h
    obtain ⟨⟨k', ⟨⟩⟩, hk, rfl⟩ := h
    exact hk
  · exact fun h => ⟨_, h, rfl⟩

section
variable (h : Exactly idx s (bothEntries N E nodes edges)) (hapart : Apart N E) {indexId : ℕ}
include h hapart

theorem holds_edges {what : ℕ × ψ}
    (hdecl : E.declared indexId = some what) : Holds (visibleKeys idx s) indexId edges (keyIn E indexId) where
  nodup := h.1
  mem key id := by
    rw [mem_visibleKeys, h.2, hapart.comm, hapart.nodes_none nodes (indexId, key, id) what hdecl, Option.or_none, entriesOf,
      Option.bind_eq_some_iff]
    simp only [entry_eq_some_iff]

theorem holds_nodes {what : ℕ × φ}
    (hdecl : N.declared indexId = some what) : Holds (visibleKeys idx s) indexId nodes (keyIn N indexId) where
  nodup := h.1
  mem key id := by
    rw [mem_visibleKeys, h.2, bothEntries, hapart.edges_none edges (indexId, key, id) what hdecl, Option.or_none, entriesOf,
      Option.bind_eq_some_iff]
    simp only [entry_eq_some_iff]

end

end

section
variable {enc} {es : List SecondaryIndexEntry} {src : IndexedSourceList} (h : Layered enc es src)
include h

section
variable {m : IndexedMemtable} (hm : m ∈ src.active :: src.immutable)
include hm

/-- The indexes of a memtable hold the entries of its records, under the declarations that the sources are opened with. -/
theorem Layered.indexed (s : ℕ) :
    Exactly m.secondaryEqState s (eqEntries enc (declarationsOf enc es) (getNodeAt m s) (getEdgeAt m s)) ∧
      Exactly m.secondaryRangeState s (rangeEntries (declarationsOf enc es) (getNodeAt m s) (getEdgeAt m s)) ∧
      Exactly m.secondaryCompoundState s (compoundEntries enc (declarationsOf enc es) (getNodeAt m s) (getEdgeAt m s)) := by
  obtain ⟨ops, hseqs, rfl⟩ := h.memtables m hm
  have hxt := secondaryExact_ofOps enc es hseqs s
  have hdecl : (ofOps enc es ops).secondaryIndexDeclarations = declarationsOf enc es := declarations_ofOps enc es [] ops
  rw [← hdecl]
  exact ⟨hxt.eq, hxt.range, hxt.compound⟩

theorem Layered.edgeDeletedAt (id s : ℕ) :
    m.base.isEdgeDeletedAt id s = (edgeTombstoneAt m s id).isSome := by
  obtain ⟨ops, hseqs, rfl⟩ := h.memtables m hm
  obtain ⟨past, later, rfl, hpast, hlat⟩ := exists_cut hseqs s
  have htomb := edgeTombstones_at enc es hpast hlat id
  show (valueAt _ s id).join.isSome = _
  rw [htomb, Option.isSome_map]

theorem Layered.nodeDeletedAt (id s : ℕ) :
    m.base.isNodeDeletedAt id s = (nodeTombstoneAt m s id).isSome := by
  obtain ⟨ops, hseqs, rfl⟩ := h.memtables m hm
  obtain ⟨past, later, rfl, hpast, hlat⟩ := exists_cut hseqs s
  have htomb := nodeTombstones_at enc es hpast hlat id
  show (valueAt _ s id).join.isSome = _
  rw [htomb, Option.isSome_map]

theorem Layered.getEdgeAt_of_deleted {s : ℕ}
    (hdel : m.base.isEdgeDeletedAt id s = true) : m.base.getEdgeAt id s = none := by
  rw [h.edgeDeletedAt hm, edgeTombstoneAt] at hdel
  rw [MemtableState.getEdgeAt]
  cases hsta : m.base.edgeStateAt id s with
  | none => rfl
  | some state =>
    rw [hsta] at hdel
    cases state with
    | live edge => cases hdel
    | tombstone entry => rfl

theorem Layered.getNodeAt_of_deleted {s : ℕ}
    (hdel : m.base.isNodeDeletedAt id s = true) : m.base.getNodeAt id s = none := by
  rw [h.nodeDeletedAt hm, nodeTombstoneAt] at hdel
  rw [MemtableState.getNodeAt]
  cases hsta : m.base.nodeStateAt id s with
  | none => rfl
  | some state =>
    rw [hsta] at hdel
    cases state with
    | live node => cases hdel
    | tombstone entry => rfl

end

section
variable {seg : IndexedSegment} (hseg : seg ∈ src.segments) (id : ℕ)
include hseg

theorem Layered.getEdge : seg.base.getEdge id = seg.base.edges.lookup id := by
  rw [Segment.getEdge]
  by_cases hdel : seg.base.isEdgeDeleted id = true
  · rw [if_pos hdel, h.edges seg hseg id hdel]
  · rw [if_neg hdel]

theorem Layered.getNode : seg.base.getNode id = seg.base.nodes.lookup id := by
  rw [Segment.getNode]
  by_cases hdel : seg.base.isNodeDeleted id = true
  · rw [if_pos hdel, h.nodes seg hseg id hdel]
  · rw [if_neg hdel]

end

end

section
variable {ρ : Type} {m : IndexedMemtable} {s indexId : ℕ} {view : ℕ → Option ρ}

section
variable {keyOf : ρ → Option ℕ} (h : Holds (visibleKeys m.secondaryEqState s) indexId view keyOf)
include h

theorem mem_idsWithHash {valueHash : ℕ} :
    id ∈ idsWithHash m s indexId valueHash ↔ ∃ r, view id = some r ∧ keyOf r = some valueHash := by
  rw [← h.mem, idsWithHash, mem_map]
  constructor
  · intro hid
    obtain ⟨⟨i, hash, id'⟩, hk, rfl⟩ := hid
    obtain ⟨hmem, htest⟩ := mem_filter.mp hk
    rw [Bool.and_eq_true, decide_eq_true_iff, decide_eq_true_iff] at htest
    obtain ⟨rfl, rfl⟩ := htest
    exact hmem
  · exact fun hmem => ⟨_, mem_filter.mpr ⟨hmem, by simp⟩, rfl⟩

theorem nodup_idsWithHash (valueHash : ℕ) : (idsWithHash m s indexId valueHash).Nodup := by
  apply h.nodup_ids
  intro k hk
  rw [Bool.and_eq_true, decide_eq_true_iff] at hk
  exact hk.1

end

def inBounds (lower upper : Option (NumericRangeSortKey × Bool)) (key : NumericRangeSortKey) : Bool :=
  rangeStart lower none (toLex (key, 0)) && !secondaryRangePastUpper key upper

section
variable {keyOf : ρ → Option NumericRangeSortKey} (h : Holds (visibleKeys m.secondaryRangeState s) indexId view keyOf)
include h

theorem mem_rangeEntriesAt {lower upper : Option (NumericRangeSortKey × Bool)}
    {key : NumericRangeSortKey} : toLex (key, id) ∈ rangeEntriesAt m s indexId lower upper none ↔
      ∃ r, view id = some r ∧ keyOf r = some key ∧ inBounds lower upper key = true := by
  rw [rangeEntriesAt, (perm_insertionSort _ _).mem_iff, mem_filter, mem_map]
  constructor
  · intro hmem
    obtain ⟨⟨⟨i, key', id'⟩, hk, heq⟩, hbds⟩ := hmem
    obtain ⟨hkeys, htest⟩ := mem_filter.mp hk
    obtain rfl : i = indexId := of_decide_eq_true htest
    obtain ⟨rfl, rfl⟩ := Prod.mk.inj (toLex.injective heq)
    obtain ⟨r, hrec, hkey⟩ := (h.mem _ _).mp hkeys
    exact ⟨r, hrec, hkey, hbds⟩
  · intro hrec
    obtain ⟨r, hrec, hkey, hbds⟩ := hrec
    have hkeys := (h.mem key id).mpr ⟨r, hrec, hkey⟩
    exact ⟨⟨(indexId, key, id), mem_filter.mpr ⟨hkeys, decide_eq_true rfl⟩, rfl⟩, hbds⟩

theorem nodup_rangeIds (lower upper : Option (NumericRangeSortKey × Bool)) :
    ((rangeEntriesAt m s indexId lower upper none).map fun entry => (ofLex entry).2).Nodup := by
  rw [rangeEntriesAt, ((perm_insertionSort _ _).map _).nodup_iff]
  apply Nodup.sublist (filter_sublist.map _)
  rw [map_map]
  exact h.nodup_ids _ fun k hk => of_decide_eq_true hk

end

section
variable {keyOf : ρ → Option (List ℕ)} (h : Holds (visibleKeys m.secondaryCompoundState s) indexId view keyOf)
include h

theorem mem_compoundIdsAt {inRange : List ℕ → Bool} : id ∈ compoundIdsAt m s indexId inRange ↔ ∃ r, view id = some r ∧ (keyOf r).any inRange = true := by
  rw [compoundIdsAt, mem_map]
  constructor
  · intro hmem
    obtain ⟨entry, hent, rfl⟩ := hmem
    obtain ⟨⟨i, key, id⟩, hk, rfl⟩ := mem_map.mp ((perm_insertionSort _ _).mem_iff.mp hent)
    obtain ⟨hkeys, htest⟩ := mem_filter.mp hk
    rw [Bool.and_eq_true, decide_eq_true_iff] at htest
    obtain ⟨rfl, hin⟩ := htest
    obtain ⟨r, hrec, hkey⟩ := (h.mem _ _).mp hkeys
    exact ⟨r, hrec, by rw [hkey]; exact hin⟩
  · intro hrec
    obtain ⟨r, hrec, hin⟩ := hrec
    cases hkey : keyOf r with
    | none =>
      rw [hkey] at hin
      cases hin
    | some key =>
      rw [hkey] at hin
      have hkeys := (h.mem key id).mpr ⟨r, hrec, hkey⟩
      have htest : (decide (indexId = indexId) && inRange key) = true := by rw [decide_eq_true rfl, Bool.true_and]; exact hin
      exact ⟨toLex (key, id), (perm_insertionSort _ _).mem_iff.mpr
        (mem_map_of_mem (mem_filter.mpr ⟨hkeys, htest⟩)), rfl⟩

theorem nodup_compoundIdsAt (inRange : List ℕ → Bool) : (compoundIdsAt m s indexId inRange).Nodup := by
  rw [compoundIdsAt, ((perm_insertionSort _ _).map _).nodup_iff, map_map]
  apply h.nodup_ids
  intro k hk
  rw [Bool.and_eq_true, decide_eq_true_iff] at hk
  exact hk.1

end

end

end OverGraph.IndexedSources
