import OverGraph.IndexGroups
import OverGraph.RecordSpans
import OverGraph.WalReading

/-!
# The two builders agree

Where the rows hold the live records of a memtable, in whatever inputs the bytes are, the compaction
writes what the flush of the memtable writes.
-/

namespace OverGraph.BuilderAgreement
open VersionedSlots Records Memtable WalCodec CompactionPaths TrackedIndexes IndexHeads List Compaction PairedLists EdgeMetadataIndexEntries MemtableState Forall₂
open GroupedLists IndexBuilders Fallible RecordSpans IndexGroups

section
variable {ser : PropsSerializer} {segs : List SourceSegment}

def keyEntriesOf (node : NodeRecord) : List KeyIndexEntryPlan :=
  node.labelIds.labelIds.map fun labelId => ⟨labelId, utf8 node.key, node.id, 4 + 8 + 2 + (utf8 node.key).length⟩

theorem keyOrder_injective {a b : KeyIndexEntryPlan} (ha : a.encodedLen = 4 + 8 + 2 + a.key.length)
    (hb : b.encodedLen = 4 + 8 + 2 + b.key.length) (h : keyOrder a = keyOrder b) : a = b := by
  obtain ⟨labelId, key, nodeId, encodedLen⟩ := a
  obtain ⟨labelId', key', nodeId', encodedLen'⟩ := b
  have hflds : labelId = labelId' ∧ key.map UInt8.toNat = key'.map UInt8.toNat ∧ nodeId = nodeId' := by simpa [keyOrder, lexTriple] using h
  obtain ⟨rfl, hkey, rfl⟩ := hflds
  obtain rfl := (map_injective_iff.mpr fun x y => UInt8.toNat_inj.mp) hkey
  rw [KeyIndexEntryPlan.mk.injEq]
  exact ⟨rfl, rfl, rfl, ha.trans hb.symm⟩

/-- The order in which the entries are collected does not matter. -/
theorem finishKeyIndex_perm {entries entries' : List KeyIndexEntryPlan} (hperm : entries.Perm entries')
    (hlen : ∀ entry ∈ entries, entry.encodedLen = 4 + 8 + 2 + entry.key.length) :
    finishKeyIndex entries = finishKeyIndex entries' := by
  have hsort : entries.insertionSort (fun a b => keyOrder a ≤ keyOrder b) = entries'.insertionSort fun a b => keyOrder a ≤ keyOrder b := by
    apply sort_eq_of_perm _ hperm
    intro a ha b hb
    exact keyOrder_injective (hlen a ha) (hlen b (hperm.mem_iff.mpr hb))
  unfold finishKeyIndex
  rw [hsort]

theorem nodesById_perm (m : MemtableState) : (Flush.nodesById m).Perm (Flush.nodes m) := perm_insertionSort _ _

theorem edgesById_perm (m : MemtableState) : (Flush.edgesById m).Perm (Flush.edges m) := perm_insertionSort _ _

/-- Both key indexes hold the entries of the nodes, or both name the same clash. -/
theorem keyIndex_agree {m : MemtableState} {nodeMetas : List CompactNodeMeta}
    (h : Forall₂ (HoldsNode ser segs) (Flush.nodesById m) nodeMetas) :
    Flush.prepareKeyIndexPayload (Flush.nodes m) = Compaction.prepareKeyIndexPayloadFromMeta segs nodeMetas := by
  have hsh : ∀ node ∈ Flush.nodes m, (utf8 node.key).length ≤ u16Max := by
    intro node hnode
    obtain ⟨nm, -, hhol⟩ := PairedLists.exists_right h ((nodesById_perm m).mem_iff.mpr hnode)
    obtain ⟨seg, bytes, -, henc, -⟩ := hhol.stored
    exact (encodeNodeRecordInto_layout henc).1
  have hflush : Flush.prepareKeyIndexPayload (Flush.nodes m) = finishKeyIndex ((Flush.nodes m).flatMap keyEntriesOf) := by
    unfold Flush.prepareKeyIndexPayload
    rw [mapM_of_forall (g := keyEntriesOf)]
    · rfl
    · intro node hnode
      exact if_neg (Nat.not_lt.mpr (hsh node hnode))
  have hcpt : Compaction.prepareKeyIndexPayloadFromMeta segs nodeMetas = finishKeyIndex ((Flush.nodesById m).flatMap keyEntriesOf) := by
    unfold Compaction.prepareKeyIndexPayloadFromMeta
    rw [← @mapM_eq_of_forall₂ _ _ _ _ (fun node => .ok (keyEntriesOf node)) _ (Flush.nodesById m) nodeMetas (h.imp ?_)]
    · rw [mapM_of_forall fun _ _ => rfl]
      rfl
    · intro node nm hhol
      rw [rawNodeKeyBytes_of_holds hhol, ok_bind, hhol.labelIds, hhol.nodeId, hhol.keyLen]
      rfl
  rw [hflush, hcpt]
  apply finishKeyIndex_perm ((nodesById_perm m).symm.flatMap_right _)
  intro entry hent
  obtain ⟨node, -, hmem⟩ := mem_flatMap.mp hent
  obtain ⟨labelId, -, rfl⟩ := mem_map.mp hmem
  rfl

end

section
variable {ser : PropsSerializer} {segs : List SourceSegment} {m : MemtableState} {nodeMetas : List CompactNodeMeta}

/-- The entries of a memtable come from its live nodes. -/
theorem entriesOf_nodes (hids : IdsMatch m) {κ τ : Type} {idOf : κ → ℕ} {derive : NodeRecord → κ → Option τ} {k : κ} {v : τ} :
    entriesOf idOf derive m.currentNode k = some v ↔ ∃ node ∈ Flush.nodes m, node.id = idOf k ∧ derive node k = some v := by
  unfold entriesOf
  rw [Option.bind_eq_some_iff]
  constructor
  · rintro ⟨node, hnode, hderive⟩
    have hid := hids.node _ _ hnode
    exact ⟨node, (mem_nodes hids).mpr (by rw [hid]; exact hnode), hid, hderive⟩
  · rintro ⟨node, hnode, hid, hderive⟩
    exact ⟨node, by rw [← hid]; exact (mem_nodes hids).mp hnode, hderive⟩

theorem nodeLabelIndex_agree (hidx : Indexed m) (hids : IdsMatch m)
    (h : Forall₂ (HoldsNode ser segs) (Flush.nodesById m) nodeMetas) :
    Flush.nodeLabelPostingGroupsCurrent m = Compaction.prepareNodeLabelIndexPayloadFromMeta nodeMetas := by
  have hpushes : (Flush.nodesById m).flatMap (fun node => node.labelIds.labelIds.map fun labelId => (labelId, [node.id])) =
      nodeMetas.flatMap fun nm => nm.labelIds.labelIds.map fun labelId => (labelId, [nm.nodeId]) := by
    refine PairedLists.flatMap_eq h ?_
    intro node nm hhol
    rw [hhol.labelIds, hhol.nodeId]
  unfold Compaction.prepareNodeLabelIndexPayloadFromMeta sortedGroups
  rw [← hpushes]
  have hcpt := @grouped_groupsOf ℕ ℕ ℕ _ _ (fun id => id)
    ((Flush.nodesById m).flatMap fun node => node.labelIds.labelIds.map fun labelId => (labelId, [node.id]))
    (fun ids => (ids.insertionSort (· ≤ ·)).dedup)
    (fun ids id => by rw [mem_dedup, (perm_insertionSort _ _).mem_iff]) ?_ (fun group _ => strict_dedup_sort group.2)
  · have hflush := grouped_nodeLabelPostingGroups m
    have hmbr : (fun labelId id => (headAt m.labelNodeIndex (labelId, id)).join = some ()) = fun labelId id =>
        ∃ push ∈ (Flush.nodesById m).flatMap fun node => node.labelIds.labelIds.map fun labelId => (labelId, [node.id]),
          push.1 = labelId ∧ id ∈ push.2 := by
      funext labelId id
      apply propext
      rw [hidx.labels, entriesOf_nodes hids]
      simp only [mem_flatMap, mem_map, (nodesById_perm m).mem_iff, labelEntry]
      grind
    rw [hmbr] at hflush
    exact hflush.unique hcpt
  · intro push hpush
    obtain ⟨node, -, hmem⟩ := mem_flatMap.mp hpush
    obtain ⟨labelId, -, rfl⟩ := mem_map.mp hmem
    exact cons_ne_nil _ _

theorem lexTriple_injective {α β γ : Type} : Function.Injective (@lexTriple α β γ) := by
  intro a b h
  obtain ⟨a, a', a''⟩ := a
  obtain ⟨b, b', b''⟩ := b
  simpa [lexTriple] using h

def timeEntriesOf (node : NodeRecord) : List (ℕ × ℤ × ℕ) := node.labelIds.labelIds.map fun labelId => (labelId, node.updatedAt, node.id)

theorem nodup_timeEntries (hids : IdsMatch m) : ((Flush.nodesById m).flatMap timeEntriesOf).Nodup := by
  have hnd : ((Flush.nodesById m).map (·.id)).Nodup := ((nodesById_perm m).map _).nodup_iff.mpr (nodup_nodes hids)
  refine nodup_flatMap.mpr ⟨?_, (pairwise_map.mp hnd).imp ?_⟩
  · intro node _
    have hlabs : node.labelIds.labelIds.Nodup := node.labelIds.ascending.imp fun hlt => ne_of_lt hlt
    apply hlabs.map
    intro a b hab
    exact (Prod.mk.inj hab).1
  · intro node other hne entry hent hoth
    obtain ⟨labelId, -, rfl⟩ := mem_map.mp hent
    obtain ⟨labelId', -, heq⟩ := mem_map.mp hoth
    exact hne (Prod.mk.inj (Prod.mk.inj heq).2).2.symm

theorem timestampIndex_agree (hidx : Indexed m) (hids : IdsMatch m)
    (h : Forall₂ (HoldsNode ser segs) (Flush.nodesById m) nodeMetas) :
    Flush.timeNodeIndex m = Compaction.prepareTimestampIndexPayloadFromMeta nodeMetas := by
  have hents : (Flush.nodesById m).flatMap timeEntriesOf =
      nodeMetas.flatMap fun nm => nm.labelIds.labelIds.map fun labelId => (labelId, nm.updatedAt, nm.nodeId) := by
    refine PairedLists.flatMap_eq h ?_
    intro node nm hhol
    rw [hhol.labelIds, hhol.nodeId, hhol.updatedAt]
    rfl
  unfold Compaction.prepareTimestampIndexPayloadFromMeta sortMetadata
  rw [← hents]
  have hirrefl : Std.Irrefl fun a b : ℕ × ℤ × ℕ => lexTriple a < lexTriple b := ⟨fun a => lt_irrefl _⟩
  have hasymm : Std.Antisymm fun a b : ℕ × ℤ × ℕ => lexTriple a < lexTriple b :=
    ⟨fun a b hab hba => absurd (lt_trans hab hba) (lt_irrefl _)⟩
  apply List.Pairwise.eq_of_mem_iff (r := fun a b : ℕ × ℤ × ℕ => lexTriple a < lexTriple b)
  · unfold Flush.timeNodeIndex
    refine pairwise_filterMap.mpr ((strict_orderedCells lexTriple_injective).imp ?_)
    intro a b hlt c hc d hd
    obtain ⟨-, -, rfl⟩ := Option.map_eq_some_iff.mp hc
    obtain ⟨-, -, rfl⟩ := Option.map_eq_some_iff.mp hd
    exact hlt
  · exact strict_sort ((nodup_timeEntries hids).map lexTriple_injective)
  · intro entry
    have hflush : entry ∈ Flush.timeNodeIndex m ↔ (headAt m.timeNodeIndex entry).join = some () := by
      rw [← @mem_orderedCells _ _ _ _ _ _ lexTriple]
      unfold Flush.timeNodeIndex
      simp only [mem_filterMap, Option.map_eq_some_iff, Prod.exists]
      grind
    rw [hflush, hidx.times, entriesOf_nodes hids, (perm_insertionSort _ _).mem_iff]
    simp only [mem_flatMap, timeEntriesOf, mem_map, (nodesById_perm m).mem_iff, timeEntry]
    grind

end

section
variable {ser : PropsSerializer} {segs : List SourceSegment} {m : MemtableState} {edgeMetas : List CompactEdgeMeta}

/-- The entries of a memtable come from its live edges. -/
theorem entriesOf_edges (hids : IdsMatch m) {κ τ : Type} {idOf : κ → ℕ} {derive : EdgeRecord → κ → Option τ} {k : κ} {v : τ} :
    entriesOf idOf derive m.currentEdge k = some v ↔ ∃ edge ∈ Flush.edges m, edge.id = idOf k ∧ derive edge k = some v := by
  unfold entriesOf
  rw [Option.bind_eq_some_iff]
  constructor
  · rintro ⟨edge, hedge, hderive⟩
    have hid := hids.edge _ _ hedge
    exact ⟨edge, (mem_edges hids).mpr (by rw [hid]; exact hedge), hid, hderive⟩
  · rintro ⟨edge, hedge, hid, hderive⟩
    exact ⟨edge, by rw [← hid]; exact (mem_edges hids).mp hedge, hderive⟩

theorem nodup_edgesById (hids : IdsMatch m) : ((Flush.edgesById m).map (·.id)).Nodup :=
  ((edgesById_perm m).map _).nodup_iff.mpr (nodup_edges hids)

theorem nodup_keyed (hids : IdsMatch m) {κ : Type} (key : EdgeRecord → κ) :
    ((Flush.edgesById m).map fun edge => (key edge, edge.id)).Nodup := by
  apply @Nodup.of_map _ _ Prod.snd
  rw [map_map]
  exact nodup_edgesById hids

theorem edgeLabelIndex_agree (hidx : Indexed m) (hids : IdsMatch m)
    (h : Forall₂ (HoldsEdge ser segs) (Flush.edgesById m) edgeMetas) :
    Flush.prepareLabelPostingIndexPayload (Flush.currentLabelMembershipIndex m.labelEdgeIndex) =
      Compaction.prepareEdgeLabelIndexPayloadFromMeta edgeMetas := by
  have hpushes : (Flush.edgesById m).map (fun edge => (edge.labelId, [edge.id])) = edgeMetas.map fun em => (em.labelId, [em.edgeId]) := by
    refine PairedLists.map_eq h ?_
    intro edge em hhol
    rw [hhol.labelId, hhol.edgeId]
  have hcpt := @grouped_singles ℕ ℕ EdgeRecord ℕ _ _ (fun id => id) (Flush.edgesById m) (·.labelId) (·.id)
    (nodup_keyed hids _)
  rw [hpushes] at hcpt
  have hcells : ((currentCells m.labelEdgeIndex).map fun cell => (cell.1.1, cell.1.2)).Nodup := nodup_currentCells
  have hgrpd := @grouped_singles ℕ ℕ ((ℕ × ℕ) × Unit) ℕ _ _ (fun id => id) (currentCells m.labelEdgeIndex)
    (fun cell => cell.1.1) (fun cell => cell.1.2) hcells
  have hfil : (Flush.currentLabelMembershipIndex m.labelEdgeIndex).filter (fun group => !group.2.isEmpty) =
      Flush.currentLabelMembershipIndex m.labelEdgeIndex := by
    refine filter_eq_self.mpr fun group hgrp => ?_
    have hfilled := hgrpd.filled _ (mem_map.mpr ⟨group, hgrp, rfl⟩)
    cases hvals : group.2 with
    | nil =>
      rw [hvals] at hfilled
      exact absurd rfl hfilled
    | cons _ _ => rfl
  have hmbr : (fun labelId id => ∃ cell ∈ currentCells m.labelEdgeIndex, cell.1.1 = labelId ∧ cell.1.2 = id) =
      fun labelId id => ∃ edge ∈ Flush.edgesById m, edge.labelId = labelId ∧ edge.id = id := by
    funext labelId id
    apply propext
    have hent : ∀ k, (headAt m.labelEdgeIndex k).join = some () ↔
        ∃ edge ∈ Flush.edges m, edge.id = k.2 ∧ edgeLabelEntry edge k = some () := by
      intro k
      rw [hidx.edgeLabels, entriesOf_edges hids]
    simp only [mem_currentCells, Prod.exists, hent, (edgesById_perm m).mem_iff, edgeLabelEntry]
    grind
  rw [hmbr] at hgrpd
  unfold Flush.prepareLabelPostingIndexPayload
  rw [hfil]
  exact hgrpd.sort.unique hcpt

theorem edgeTripleIndex_agree (h : Forall₂ (HoldsEdge ser segs) (Flush.edgesById m) edgeMetas) :
    Flush.prepareEdgeTripleIndexPayload (Flush.edges m) = Compaction.prepareEdgeTripleIndexPayloadFromMeta edgeMetas := by
  have hents : (Flush.edgesById m).map (fun edge => (edge.source, edge.target, edge.labelId, edge.id)) =
      edgeMetas.map fun em => (em.source, em.target, em.labelId, em.edgeId) := by
    refine PairedLists.map_eq h ?_
    intro edge em hhol
    rw [hhol.source, hhol.target, hhol.labelId, hhol.edgeId]
  unfold Flush.prepareEdgeTripleIndexPayload Compaction.prepareEdgeTripleIndexPayloadFromMeta sortTriples
  rw [← hents]
  apply @sort_eq_of_perm _ _ _ (fun a : ℕ × ℕ × ℕ × ℕ => toLex (a.1, lexTriple a.2))
  · intro a _ b _ heq
    obtain ⟨hfst, hrest⟩ := Prod.mk.inj (toLex.injective heq)
    exact Prod.ext hfst (lexTriple_injective hrest)
  · exact ((edgesById_perm m).symm).map _

/-- The columns that the metadata indexes are built from. -/
structure MetadataRow where
  labelId : ℕ
  updatedAt : ℤ
  weight : F32
  validFrom : ℤ
  validTo : ℤ
  edgeId : ℕ

def pushRow (entries : EdgeMetadataIndexEntries) (row : MetadataRow) : EdgeMetadataIndexEntries :=
  EdgeMetadataIndexEntries.push entries row.labelId row.updatedAt row.weight row.validFrom row.validTo row.edgeId

theorem foldl_pushRow (rows : List MetadataRow) (entries : EdgeMetadataIndexEntries) : rows.foldl pushRow entries = {
    weight := entries.weight ++ rows.filterMap fun row =>
      (encodeEdgeWeightKey row.weight).map fun weightKey => (row.labelId, (weightKey.toNat : ℤ), row.edgeId)
    updatedAt := entries.updatedAt ++ rows.map fun row => (row.labelId, row.updatedAt, row.edgeId)
    validFrom := entries.validFrom ++ rows.map fun row => (row.labelId, row.validFrom, row.edgeId)
    validTo := entries.validTo ++ rows.map fun row => (row.labelId, row.validTo, row.edgeId) } := by
  induction rows generalizing entries with
  | nil => simp
  | cons row rows ih =>
    rw [foldl_cons, ih]
    cases hkey : encodeEdgeWeightKey row.weight <;> simp [pushRow, EdgeMetadataIndexEntries.push, hkey]

theorem sortMetadata_perm {entries entries' : List (ℕ × ℤ × ℕ)} (h : entries.Perm entries') : sortMetadata entries = sortMetadata entries' :=
  sort_eq_of_perm (fun _ _ _ _ heq => lexTriple_injective heq) h

/-- The order in which the rows are pushed does not matter. -/
theorem sortAll_perm {rows rows' : List MetadataRow} (h : rows.Perm rows') (entries : EdgeMetadataIndexEntries) :
    EdgeMetadataIndexEntries.sortAll (rows.foldl pushRow entries) = EdgeMetadataIndexEntries.sortAll (rows'.foldl pushRow entries) := by
  rw [foldl_pushRow, foldl_pushRow]
  unfold EdgeMetadataIndexEntries.sortAll
  dsimp only
  rw [sortMetadata_perm ((h.filterMap _).append_left _), sortMetadata_perm ((h.map fun row => (row.labelId, row.updatedAt, row.edgeId)).append_left _),
    sortMetadata_perm ((h.map fun row => (row.labelId, row.validFrom, row.edgeId)).append_left _),
    sortMetadata_perm ((h.map fun row => (row.labelId, row.validTo, row.edgeId)).append_left _)]

theorem edgeMetadataIndexes_agree (h : Forall₂ (HoldsEdge ser segs) (Flush.edgesById m) edgeMetas) :
    Flush.prepareFlushEdgeMetadataIndexComponents (Flush.edges m) = Compaction.prepareEdgeMetadataIndexComponentsFromMeta edgeMetas := by
  let rowOf (edge : EdgeRecord) : MetadataRow := ⟨edge.labelId, edge.updatedAt, edge.weight, edge.validFrom, edge.validTo, edge.id⟩
  have hrows : (Flush.edgesById m).map rowOf = edgeMetas.map fun em =>
      ⟨em.labelId, em.updatedAt, em.weight, em.validFrom, em.validTo, em.edgeId⟩ := by
    refine PairedLists.map_eq h ?_
    intro edge em hhol
    rw [hhol.labelId, hhol.updatedAt, hhol.weight, hhol.validFrom, hhol.validTo, hhol.edgeId]
  have hperm : ((Flush.edges m).map rowOf).Perm ((Flush.edgesById m).map rowOf) := (edgesById_perm m).symm.map _
  have hsort := sortAll_perm hperm ⟨[], [], [], []⟩
  rw [hrows, foldl_map, foldl_map] at hsort
  exact hsort

def postingOf (ends : EdgeRecord → ℕ × ℕ) (edge : EdgeRecord) : AdjacencyPosting :=
  ⟨edge.id, (ends edge).2, edge.weight, edge.validFrom, edge.validTo⟩

def endEntry (ends : EdgeRecord → ℕ × ℕ) (edge : EdgeRecord) (key : ℕ × ℕ) : Option AdjEntry :=
  if (ends edge).1 = key.1 then some (MemtableState.adjEntry edge (ends edge).2) else none

def entryPosting (entry : AdjEntry) : AdjacencyPosting := ⟨entry.edgeId, entry.neighborId, entry.weight, entry.validFrom, entry.validTo⟩

def ownedGroups (entries : List AdjEntry) : List (ℕ × List AdjacencyPosting) :=
  (groupsOf (entries.map fun entry => (entry.labelId, [entryPosting entry]))).map fun group => (group.1, sortPostings group.2)

section
variable {ends : EdgeRecord → ℕ × ℕ} {idx : MembershipMap (ℕ × ℕ) AdjEntry}

def CellsOfEdges (m : MemtableState) (ends : EdgeRecord → ℕ × ℕ) (idx : MembershipMap (ℕ × ℕ) AdjEntry) : Prop :=
  ∀ cell, cell ∈ currentCells idx ↔ ∃ edge ∈ Flush.edges m, cell = (((ends edge).1, edge.id), MemtableState.adjEntry edge (ends edge).2)

theorem cellsOfEdges (hids : IdsMatch m) (htracks : Tracks idx (entriesOf Prod.snd (endEntry ends) m.currentEdge)) :
    CellsOfEdges m ends idx := by
  intro cell
  obtain ⟨⟨owner, id⟩, entry⟩ := cell
  rw [mem_currentCells, htracks, entriesOf_edges hids]
  simp only [endEntry, Prod.mk.injEq]
  grind

variable {node : ℕ × List AdjEntry}

theorem currentAdjMap_snd (hnode : node ∈ Flush.currentAdjMap idx) :
    node.2 = ((currentCells idx).filter fun cell => cell.1.1 = node.1).map fun cell => cell.2 := group_of_singles hnode

theorem mem_currentAdjMap {owner : ℕ} {entry : AdjEntry} :
    (∃ node ∈ Flush.currentAdjMap idx, node.1 = owner ∧ entry ∈ node.2) ↔ ∃ id, ((owner, id), entry) ∈ currentCells idx := by
  constructor
  · rintro ⟨node, hnode, rfl, hent⟩
    rw [currentAdjMap_snd hnode] at hent
    obtain ⟨⟨⟨owner, id⟩, other⟩, hcell, rfl⟩ := mem_map.mp hent
    obtain ⟨hcell, howner⟩ := mem_filter.mp hcell
    obtain rfl : owner = node.1 := of_decide_eq_true howner
    exact ⟨id, hcell⟩
  · rintro ⟨id, hcell⟩
    have hpush : ∃ push ∈ (currentCells idx).map fun cell => (cell.1.1, [cell.2]), push.1 = owner := ⟨_, mem_map.mpr ⟨_, hcell, rfl⟩, rfl⟩
    have hnode := mem_groupsOf.mpr ⟨hpush, rfl⟩
    refine ⟨_, hnode, rfl, ?_⟩
    rw [currentAdjMap_snd hnode]
    exact mem_map.mpr ⟨_, mem_filter.mpr ⟨hcell, decide_eq_true rfl⟩, rfl⟩

theorem nodup_owned (hcells : CellsOfEdges m ends idx) (hnode : node ∈ Flush.currentAdjMap idx) :
    ((node.2).map fun entry => (entry.labelId, (entryPosting entry).edgeId)).Nodup := by
  apply @Nodup.of_map _ _ Prod.snd
  rw [map_map, currentAdjMap_snd hnode, map_map]
  apply @Nodup.of_map _ _ (fun id => (node.1, id))
  have hkeys : (((currentCells idx).filter fun cell => cell.1.1 = node.1).map
      ((Prod.snd ∘ fun entry : AdjEntry => (entry.labelId, (entryPosting entry).edgeId)) ∘ fun cell => cell.2)).map (fun id => (node.1, id)) =
      ((currentCells idx).filter fun cell => cell.1.1 = node.1).map Prod.fst := by
    rw [map_map]
    apply map_congr_left
    intro cell hmem
    obtain ⟨hcur, howner⟩ := mem_filter.mp hmem
    obtain ⟨edge, -, rfl⟩ := (hcells cell).mp hcur
    rw [← of_decide_eq_true howner]
    rfl
  rw [hkeys]
  exact Nodup.sublist (filter_sublist.map _) nodup_currentCells

/-- The postings collected from the cells are those of the edges. -/
theorem mem_owned (hcells : CellsOfEdges m ends idx) (k : ℕ ×ₗ ℕ) (post : AdjacencyPosting) :
    (∃ node ∈ Flush.currentAdjMap idx, node.1 = (ofLex k).1 ∧ ∃ entry ∈ node.2, entry.labelId = (ofLex k).2 ∧ entryPosting entry = post) ↔
      ∃ edge ∈ Flush.edgesById m, toLex ((ends edge).1, edge.labelId) = k ∧ postingOf ends edge = post := by
  constructor
  · rintro ⟨node, hnode, howner, entry, hent, hlab, rfl⟩
    obtain ⟨id, hcell⟩ := mem_currentAdjMap.mp ⟨node, hnode, howner, hent⟩
    obtain ⟨edge, hedge, heq⟩ := (hcells _).mp hcell
    obtain ⟨hkey, rfl⟩ := Prod.mk.inj heq
    refine ⟨edge, (edgesById_perm m).mem_iff.mpr hedge, ?_, rfl⟩
    exact ofLex.injective (Prod.ext (Prod.mk.inj hkey).1.symm hlab)
  · rintro ⟨edge, hedge, rfl, rfl⟩
    have hcell := (hcells _).mpr ⟨edge, (edgesById_perm m).mem_iff.mp hedge, rfl⟩
    obtain ⟨node, hnode, howner, hent⟩ := mem_currentAdjMap.mpr ⟨_, hcell⟩
    exact ⟨node, hnode, howner, _, hent, rfl, rfl⟩

theorem adjacency_agree (hids : IdsMatch m) (htracks : Tracks idx (entriesOf Prod.snd (endEntry ends) m.currentEdge)) :
    Flush.prepareAdjacencyPayloads (Flush.currentAdjMap idx) = placeGroups 0
      ((groupsOf ((Flush.edgesById m).map fun edge => (toLex ((ends edge).1, edge.labelId), [postingOf ends edge]))).map
        fun group => (group.1, sortPostings group.2)) := by
  have hcells := cellsOfEdges hids htracks
  have hflush := @grouped_nested ℕ AdjacencyPosting _ ℕ _ (·.edgeId) ℕ (List AdjEntry) _ (Flush.currentAdjMap idx) ownedGroups
    (fun entries labelId post => ∃ entry ∈ entries, entry.labelId = labelId ∧ entryPosting entry = post)
    (pairwise_map.mp (keys_groupsOf _)) (fun node hnode => grouped_singles (nodup_owned hcells hnode))
  have hcpt := @grouped_singles (ℕ ×ₗ ℕ) AdjacencyPosting EdgeRecord ℕ _ _ (·.edgeId) (Flush.edgesById m)
    (fun edge => toLex ((ends edge).1, edge.labelId)) (postingOf ends) (nodup_keyed hids _)
  have hmbr := funext fun k => funext fun post => propext (mem_owned hcells k post)
  rw [hmbr] at hflush
  have hsame := hflush.sort.unique hcpt
  unfold sortPostings
  rw [← hsame]
  unfold Flush.prepareAdjacencyPayloads ownedGroups
  simp only [map_map]
  rfl

end

section
variable (hidx : Indexed m) (hids : IdsMatch m) (h : Forall₂ (HoldsEdge ser segs) (Flush.edgesById m) edgeMetas)
include hidx hids h

theorem adjOut_agree :
    Flush.prepareAdjacencyPayloads (Flush.currentAdjMap m.adjOut) = Compaction.prepareAdjacencyPayloadsFromMeta edgeMetas true := by
  rw [@adjacency_agree m (fun edge => (edge.source, edge.target)) m.adjOut hids hidx.out]
  unfold Compaction.prepareAdjacencyPayloadsFromMeta
  dsimp only
  rw [PairedLists.map_eq h ?_]
  intro edge em hhol
  rw [if_pos rfl, hhol.edgeId, hhol.source, hhol.target, hhol.labelId, hhol.weight, hhol.validFrom, hhol.validTo]
  rfl

theorem adjIn_agree :
    Flush.prepareAdjacencyPayloads (Flush.currentAdjMap m.adjIn) = Compaction.prepareAdjacencyPayloadsFromMeta edgeMetas false := by
  rw [@adjacency_agree m (fun edge => (edge.target, edge.source)) m.adjIn hids hidx.inn]
  unfold Compaction.prepareAdjacencyPayloadsFromMeta
  dsimp only
  rw [PairedLists.map_eq h ?_]
  intro edge em hhol
  rw [if_neg Bool.false_ne_true, hhol.edgeId, hhol.source, hhol.target, hhol.labelId, hhol.weight, hhol.validFrom, hhol.validTo]
  rfl

end

end

section
variable (ser : PropsSerializer) (segs : List SourceSegment)

theorem indexed_ofOps (ops : List SeqOp) : Indexed (ofOps ops) := by
  induction ops using List.reverseRecOn with
  | nil => exact indexed_empty
  | append_singleton ops op ih =>
    rw [ofOps_concat]
    exact ih.applyOp (idsMatch_ofOps ops) op

/-- Where the rows hold the live records of a memtable, the flush of the memtable and the compaction
of the rows write the same, or fail alike. -/
theorem flush_eq_compaction (ops : List SeqOp) (nodeMetas : List CompactNodeMeta) (edgeMetas : List CompactEdgeMeta)
    (h : HoldsRecords ser segs (MemtableState.ofOps ops) nodeMetas edgeMetas) :
    Flush.segmentPlan (MemtableState.ofOps ops) ser = Compaction.segmentPlan segs nodeMetas edgeMetas := by
  have hindexed := indexed_ofOps ops
  have hids := idsMatch_ofOps ops
  unfold Flush.segmentPlan Compaction.segmentPlan
  rw [writeNodes_agree h.nodes, writeEdges_agree h.edges, keyIndex_agree h.nodes, nodeLabelIndex_agree hindexed hids h.nodes,
    timestampIndex_agree hindexed hids h.nodes, adjOut_agree hindexed hids h.edges, adjIn_agree hindexed hids h.edges,
    edgeLabelIndex_agree hindexed hids h.edges, edgeTripleIndex_agree h.edges, edgeMetadataIndexes_agree h.edges]

def knowsNode (id : ℕ) (key : String) : NodeRecord := ⟨id, WalReading.firstLabel, key, ∅, 0, 5, 0, none, none, 0⟩

/-- An edge between the nodes that ended before it began. -/
def knowsEdge : EdgeRecord := ⟨3, 1, 2, 7, ∅, 0, 5, 0, 9, -1, 0⟩

/-- The second write of the first node leaves a stale entry in the time index. -/
def knowsOps : List SeqOp :=
  [(1, .upsertNode { knowsNode 1 "a" with updatedAt := 4 }), (2, .upsertNode (knowsNode 2 "b")), (3, .upsertEdge knowsEdge),
    (4, .upsertNode (knowsNode 1 "a"))]

def knowsBytes (encoded : Except EngineError (List UInt8)) : List UInt8 := encoded.toOption.getD []

/-- The first node is in the first input, the second one and the edge are in the other. -/
def knowsInputs : List SourceSegment :=
  [⟨recordPayload [(1, knowsBytes (encodeNodeRecordInto WalReading.emptyProps (knowsNode 1 "a")))], recordPayload [], by decide, by decide⟩,
  ⟨recordPayload [(2, knowsBytes (encodeNodeRecordInto WalReading.emptyProps (knowsNode 2 "b")))],
    recordPayload [(3, knowsBytes (encodeEdgeRecordInto WalReading.emptyProps knowsEdge))], by decide, by decide⟩]

def knowsNodeMetas : List CompactNodeMeta := [nodeRow 0 (knowsNode 1 "a") (1, 24, 33), nodeRow 1 (knowsNode 2 "b") (2, 24, 33)]

def knowsEdgeMetas : List CompactEdgeMeta := [edgeRow 1 knowsEdge (3, 24, 61)]

theorem holdsRecords_knows :
    HoldsRecords WalReading.emptyProps knowsInputs (ofOps knowsOps) knowsNodeMetas knowsEdgeMetas := by
  constructor
  case nodes =>
    refine cons ⟨rfl, rfl, rfl, rfl, _, _, rfl, rfl, ?_⟩
      (cons ⟨rfl, rfl, rfl, rfl, _, _, rfl, rfl, ?_⟩ nil)
    · exact ⟨by decide, rfl, rfl⟩
    · exact ⟨by decide, rfl, rfl⟩
  case edges =>
    refine cons ⟨rfl, rfl, rfl, rfl, rfl, rfl, rfl, rfl, _, _, rfl, rfl, ?_⟩ nil
    exact ⟨by decide, rfl, rfl⟩

theorem flush_eq_compaction_knows : Flush.segmentPlan (MemtableState.ofOps knowsOps) WalReading.emptyProps =
    Compaction.segmentPlan knowsInputs knowsNodeMetas knowsEdgeMetas :=
  flush_eq_compaction WalReading.emptyProps knowsInputs knowsOps knowsNodeMetas knowsEdgeMetas holdsRecords_knows

end

end OverGraph.BuilderAgreement
