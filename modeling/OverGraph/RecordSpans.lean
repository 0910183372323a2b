import OverGraph.IndexBuilders
import OverGraph.PairedLists

/-!
# Rows that hold records

A row holds a record if its columns are those of the record and the bytes it points to are the
encoding of the record. From such rows a compaction copies the component that a flush encodes.
-/

namespace OverGraph.RecordSpans
open Records Memtable ByteReaders WalCodec IndexBuilders Fallible List Option Compaction Flush

/-- The span of the mapping holds the bytes. -/
structure StoredAt (mmap : List UInt8) (offset len : ℕ) (bytes : List UInt8) : Prop where
  fits : offset + len ≤ mmap.length
  length : len = bytes.length
  bytes : slice mmap offset (offset + len) = bytes

section
variable (ser : PropsSerializer) (segs : List SourceSegment)

structure HoldsNode (node : NodeRecord) (nm : CompactNodeMeta) : Prop where
  nodeId : nm.nodeId = node.id
  labelIds : nm.labelIds = node.labelIds
  updatedAt : nm.updatedAt = node.updatedAt
  keyLen : nm.keyLen = (utf8 node.key).length
  stored : ∃ seg bytes, segs[nm.srcSegIdx]? = some seg ∧ encodeNodeRecordInto ser node = .ok bytes ∧
    StoredAt seg.rawNodesMmap nm.srcDataOffset nm.dataLen bytes

structure HoldsEdge (edge : EdgeRecord) (em : CompactEdgeMeta) : Prop where
  edgeId : em.edgeId = edge.id
  source : em.source = edge.source
  target : em.target = edge.target
  labelId : em.labelId = edge.labelId
  updatedAt : em.updatedAt = edge.updatedAt
  weight : em.weight = edge.weight
  validFrom : em.validFrom = edge.validFrom
  validTo : em.validTo = edge.validTo
  stored : ∃ seg bytes, segs[em.srcSegIdx]? = some seg ∧ encodeEdgeRecordInto ser edge = .ok bytes ∧
    StoredAt seg.rawEdgesMmap em.srcDataOffset em.dataLen bytes

/-- The rows hold exactly the live records, in the order of their ids. -/
structure HoldsRecords (m : MemtableState) (nodeMetas : List CompactNodeMeta) (edgeMetas : List CompactEdgeMeta) : Prop where
  nodes : List.Forall₂ (HoldsNode ser segs) (Flush.nodesById m) nodeMetas
  edges : List.Forall₂ (HoldsEdge ser segs) (Flush.edgesById m) edgeMetas

end

section
variable {mmap bytes : List UInt8} {offset len : ℕ}

/-- A part of the stored bytes is found behind what is in front of it. -/
theorem StoredAt.part {before part after : List UInt8} {start stop : ℕ} (h : StoredAt mmap offset len (before ++ (part ++ after)))
    (hst : start = offset + before.length) (hstop : stop = start + part.length) : slice mmap start stop = part := by
  have hlen := h.length
  have hbs := h.bytes
  unfold slice at hbs ⊢
  have hsp : mmap.drop offset = before ++ (part ++ (after ++ (mmap.drop offset).drop len)) := by
    rw [← take_append_drop len (mmap.drop offset)]
    rw [show offset + len - offset = len by omega] at hbs
    rw [hbs]
    simp [append_assoc, hlen]
  rw [hst, ← drop_drop, hsp, drop_left, take_left']
  omega

theorem checkedAdd_eq_some {a b bound : ℕ} (h : a + b ≤ bound) (hbd : bound < 2 ^ 64) : checkedAdd a b = some (a + b) := if_pos (by omega)

theorem ensure_eq_ok {cond : Prop} [Decidable cond] (h : cond) (msg : String) : ensure cond msg = .ok () := if_pos h

theorem copySpan_of_storedAt {mmaps : List (List UInt8)} {srcSegIdx : ℕ} (hmmap : mmaps[srcSegIdx]? = some mmap)
    (hfit : mmap.length < 2 ^ 64) (h : StoredAt mmap offset len bytes) (kind : String) (id : ℕ) :
    copySpan kind mmaps id srcSegIdx offset len = .ok (id, bytes) := by
  unfold copySpan sourceMmap
  rw [hmmap, checkedAdd_eq_some h.fits hfit]
  simp only [orCorrupt, elim_some, ensure_eq_ok h.fits, h.bytes, ok_bind]

theorem encodeNodeRecordInto_layout {ser : PropsSerializer} {node : NodeRecord} {bytes : List UInt8}
    (h : encodeNodeRecordInto ser node = .ok bytes) :
    (utf8 node.key).length ≤ u16Max ∧ ∃ rest, bytes = writeU8 node.labelIds.labelIds.length ++
      (node.labelIds.labelIds.flatMap writeU32 ++ (writeU16 (utf8 node.key).length ++ (utf8 node.key ++ rest))) := by
  unfold encodeNodeRecordInto at h
  split at h
  · cases h
  · rename_i hsh
    obtain ⟨props, hps, h⟩ := bind_ok h
    exact ⟨Nat.le_of_not_lt hsh, _, (Except.ok.inj h).symm⟩

theorem length_labelBytes (labelIds : List ℕ) : (labelIds.flatMap writeU32).length = labelIds.length * 4 := by
  induction labelIds with
  | nil => rfl
  | cons labelId labelIds ih =>
    rw [flatMap_cons, length_append, ih, length_writeU32, length_cons]
    omega

theorem rawNodeKeyBytes_of_holds {ser : PropsSerializer} {segs : List SourceSegment} {node : NodeRecord}
    {nm : CompactNodeMeta} (h : HoldsNode ser segs node nm) :
    rawNodeKeyBytesFromMeta segs nm = .ok (utf8 node.key) := by
  obtain ⟨seg, bytes, hseg, henc, hsto⟩ := h.stored
  obtain ⟨hsh, rest, rfl⟩ := encodeNodeRecordInto_layout henc
  have hmmap : (segs.map (·.rawNodesMmap))[nm.srcSegIdx]? = some seg.rawNodesMmap := by rw [getElem?_map, hseg, map_some]
  have hfit := seg.nodesFit
  have hlen := hsto.length
  have hfits := hsto.fits
  simp only [length_append, length_writeU8, length_writeU16, length_labelBytes] at hlen
  have hboun := node.labelIds.bounded
  unfold maxNodeLabelsPerNode at hboun
  unfold u16Max at hsh
  generalize hcnt : node.labelIds.labelIds.length = count at *
  generalize hkey : (utf8 node.key).length = keyLength at *
  have hcountByte : fromLe (slice seg.rawNodesMmap nm.srcDataOffset (nm.srcDataOffset + 1)) = count := by
    have hfst : slice seg.rawNodesMmap nm.srcDataOffset (nm.srcDataOffset + 1) = writeU8 count :=
      @StoredAt.part _ _ _ [] _ _ _ _ hsto rfl (by rw [length_writeU8])
    rw [hfst]
    exact fromLe_leBytes (by omega)
  have hkeyLen : fromLe (slice seg.rawNodesMmap (nm.srcDataOffset + 1 + count * 4)
      (nm.srcDataOffset + 1 + count * 4 + 2)) = keyLength := by
    rw [← append_assoc] at hsto
    rw [hsto.part (by rw [length_append, length_writeU8, length_labelBytes, hcnt]; omega)
      (by rw [length_writeU16])]
    exact fromLe_leBytes (by omega)
  have hkeyBytes : slice seg.rawNodesMmap (nm.srcDataOffset + 1 + count * 4 + 2)
      (nm.srcDataOffset + 1 + count * 4 + 2 + keyLength) = utf8 node.key := by
    rw [← append_assoc, ← append_assoc] at hsto
    apply hsto.part
    · rw [length_append, length_append, length_writeU8, length_labelBytes, length_writeU16, hcnt]
      omega
    · rw [hkey]
  have hlabs : nm.labelIds.labelIds.length = count := by rw [h.labelIds, hcnt]
  have hmetaKey : nm.keyLen = keyLength := by rw [h.keyLen, hkey]
  unfold rawNodeKeyBytesFromMeta sourceMmap
  rw [hmmap]
  have hnemp : nm.srcDataOffset < nm.srcDataOffset + nm.dataLen := by omega
  have hlabelsAt := @checkedAdd_eq_some nm.srcDataOffset 1 _ (by omega) hfit
  have hkeyLenAt := @checkedAdd_eq_some (nm.srcDataOffset + 1) (count * 4) _ (by omega) hfit
  have hkeyAt := @checkedAdd_eq_some (nm.srcDataOffset + 1 + count * 4) 2 _ (by omega) hfit
  have hkeyStart : nm.srcDataOffset + 1 + count * 4 + 2 ≤ nm.srcDataOffset + nm.dataLen := by omega
  have hkeyEndAt := @checkedAdd_eq_some (nm.srcDataOffset + 1 + count * 4 + 2) keyLength _ (by omega) hfit
  have hkeyEnd : nm.srcDataOffset + 1 + count * 4 + 2 + keyLength ≤ nm.srcDataOffset + nm.dataLen := by omega
  simp only [orCorrupt, elim_some, ok_bind, bind_some, checkedAdd_eq_some hfits hfit, ensure_eq_ok hfits,
    ensure_eq_ok hnemp, hcountByte, ensure_eq_ok hlabs.symm, hlabelsAt, hkeyLenAt, hkeyAt, ensure_eq_ok hkeyStart,
    hkeyLen, hmetaKey, ensure_eq_ok trivial, hkeyEndAt, ensure_eq_ok hkeyEnd, hkeyBytes]

end

section
variable {ser : PropsSerializer} {segs : List SourceSegment}

/-- The compaction copies the node component that the flush encodes. -/
theorem writeNodes_agree {m : MemtableState} {nodeMetas : List CompactNodeMeta}
    (h : Forall₂ (HoldsNode ser segs) (nodesById m) nodeMetas) :
    writeNodesPayload m ser = writeV3NodesDat segs nodeMetas := by
  unfold writeNodesPayload writeV3NodesDat
  rw [mapM_eq_of_forall₂ (h.imp ?_)]
  intro node nm hnode
  obtain ⟨seg, bytes, hseg, henc, hsto⟩ := hnode.stored
  have hmmap : (segs.map (·.rawNodesMmap))[nm.srcSegIdx]? = some seg.rawNodesMmap := by rw [getElem?_map, hseg, map_some]
  rw [henc, copySpan_of_storedAt hmmap seg.nodesFit hsto, hnode.nodeId, ok_bind]

theorem writeEdges_agree {m : MemtableState} {edgeMetas : List CompactEdgeMeta}
    (h : Forall₂ (HoldsEdge ser segs) (edgesById m) edgeMetas) :
    writeEdgesPayload m ser = writeV3EdgesDat segs edgeMetas := by
  unfold writeEdgesPayload writeV3EdgesDat
  rw [mapM_eq_of_forall₂ (h.imp ?_)]
  intro edge em hedge
  obtain ⟨seg, bytes, hseg, henc, hsto⟩ := hedge.stored
  have hmmap : (segs.map (·.rawEdgesMmap))[em.srcSegIdx]? = some seg.rawEdgesMmap := by rw [getElem?_map, hseg, map_some]
  rw [henc, copySpan_of_storedAt hmmap seg.edgesFit hsto, hedge.edgeId, ok_bind]

end

/-- The row of a node next to the component that its record was written to. -/
def nodeRow (srcSegIdx : ℕ) (node : NodeRecord) (span : ℕ × ℕ × ℕ) : CompactNodeMeta :=
  ⟨node.id, span.2.2, node.labelIds, node.updatedAt, (utf8 node.key).length, srcSegIdx, span.2.1⟩

def edgeRow (srcSegIdx : ℕ) (edge : EdgeRecord) (span : ℕ × ℕ × ℕ) : CompactEdgeMeta :=
  ⟨edge.id, span.2.2, edge.source, edge.target, edge.labelId, edge.updatedAt, edge.weight, edge.validFrom, edge.validTo,
    srcSegIdx, span.2.1⟩

end OverGraph.RecordSpans
