import OverGraph.IndexCoherence
import OverGraph.NodeSets
import OverGraph.PagedMerges

/-!
# Reads by pages

Neighbors, the edges of a label and the nodes of a time range are read by pages from the lists of the layers. Identifiers of edges and
nodes are sorted in each layer before they are merged. The neighbors are not: a memtable lists them as its hash maps come, a segment by
label, and both list what leaves a node before what enters it.
-/

namespace OverGraph.PagedReads
open Option hiding mem_map mem_map_of_mem
open AssocMaps VersionedSlots Records Memtable MemtableState GraphView Segments Sources SnapshotReads List Prod
open IndexHeads AdjacencyReads AdjacencyCells SortedMerges PagedMerges
open Degrees (isEdgeValidAt)

structure MergeSources (α : Type) where
  memtableItems : List α
  segmentSortedItems : List (List α)

structure HashOrder where
  outValues : MemtableState → List AdjEntry → List AdjEntry
  inValues : MemtableState → List AdjEntry → List AdjEntry
  outPerm : ∀ m entries, (outValues m entries).Perm entries
  inPerm : ∀ m entries, (inValues m entries).Perm entries

section
variable (sl : SourceList)

section
variable (order : HashOrder) (nodeId : ℕ) (dir : Direction) (fids : Option (List ℕ))

def memtableAccepts (m : MemtableState) (entry : AdjEntry) : Bool :=
  labelAccepted fids entry && !m.isNodeDeletedAt entry.neighborId sl.snapshotSeq

def segmentAccepts (seg : Segment) (entry : AdjEntry) : Bool :=
  labelAccepted fids entry && !seg.isEdgeDeleted entry.edgeId && !seg.isNodeDeleted entry.neighborId

def hashedNeighbors (m : MemtableState) : List NeighborRecord :=
  if m.isNodeDeletedAt nodeId sl.snapshotSeq then []
  else collectNeighbors nodeId dir (memtableAccepts sl fids m) 0
    (order.outValues m (adjEntriesAt sl.snapshotSeq m.adjOut nodeId)) (order.inValues m (adjEntriesAt sl.snapshotSeq m.adjIn nodeId))

def neighborSources : MergeSources NeighborRecord :=
  ⟨hashedNeighbors sl order nodeId dir fids sl.active, sl.immutable.map (hashedNeighbors sl order nodeId dir fids) ++
      sl.segments.map (segmentNeighbors nodeId dir fids)⟩

/-- Without decay and without policies. -/
def neighborsPaged (ops : SliceOps NeighborRecord.edgeId) (now : ℤ) (page : PageRequest) : PageResult NeighborRecord :=
  let sources := neighborSources sl order nodeId dir fids
  mergeSortedPaged ops (fun e => isEdgeTombstoned sl e.edgeId || isNodeTombstoned sl e.nodeId ||
    !isEdgeValidAt e.validFrom e.validTo now) sources.memtableItems sources.segmentSortedItems page

end

section
variable (labelId : ℕ)

def segmentEdgesByLabelId (seg : Segment) : List ℕ :=
  ((seg.edges.entries.filter fun entry => decide (entry.2.labelId = labelId) && !seg.isEdgeDeleted entry.1).map (·.1)).insertionSort
    (· ≤ ·)

def edgeLabelSources : MergeSources ℕ :=
  ⟨underLabel sl.snapshotSeq sl.active.labelEdgeIndex labelId,
    (sl.immutable.map fun m => underLabel sl.snapshotSeq m.labelEdgeIndex labelId) ++ sl.segments.map (segmentEdgesByLabelId labelId)⟩

end

section
variable (labelId : ℕ) (fromMs toMs : ℤ)

def visibleNodesByTimeRange (m : MemtableState) : List ℕ :=
  if fromMs > toMs then []
  else (((visibleKeys m.timeNodeIndex sl.snapshotSeq).filter fun key =>
    decide (key.1 = labelId) && decide (fromMs ≤ key.2.1) && decide (key.2.1 ≤ toMs)).map fun key => key.2.2).insertionSort (· ≤ ·)

def segmentNodesByTimeRange (seg : Segment) : List ℕ :=
  ((seg.nodes.entries.filter fun entry => entry.2.labelIds.contains labelId && decide (fromMs ≤ entry.2.updatedAt) &&
    decide (entry.2.updatedAt ≤ toMs) && !seg.isNodeDeleted entry.1).map (·.1)).insertionSort (· ≤ ·)

def timeRangeSources : MergeSources ℕ :=
  ⟨visibleNodesByTimeRange sl labelId fromMs toMs sl.active,
    sl.immutable.map (visibleNodesByTimeRange sl labelId fromMs toMs) ++ sl.segments.map (segmentNodesByTimeRange labelId fromMs toMs)⟩

end

end

/-- The list of the memtable has no key twice, the others are sorted. -/
structure Right {α : Type} (key : α → ℕ) (sources : MergeSources α) : Prop where
  memtable : (sources.memtableItems.map key).Nodup
  segments : ∀ source ∈ sources.segmentSortedItems, Ascending key source

/-- Every read by pages passes such lists. -/
structure CallersRight (sl : SourceList) (nodeId : ℕ) (dir : Direction) (fids : Option (List ℕ)) (labelId : ℕ)
    (fromMs toMs : ℤ) : Prop where
  neighbors : ∀ order, Right NeighborRecord.edgeId (neighborSources sl order nodeId dir fids)
  edges : Right id (edgeLabelSources sl labelId)
  nodes : Right id (timeRangeSources sl labelId fromMs toMs)

theorem ascending_insertionSort {ids : List ℕ} (h : ids.Nodup) : Ascending id (ids.insertionSort (· ≤ ·)) := by
  have hsort : (ids.insertionSort (· ≤ ·)).Pairwise (· ≤ ·) := pairwise_insertionSort _ _
  have hnd : (ids.insertionSort (· ≤ ·)).Nodup := (perm_insertionSort _ _).nodup_iff.mpr h
  exact hsort.imp₂ (fun a b hle hne => lt_of_le_of_ne hle hne) hnd

theorem nodup_of_ascending {α : Type} {key : α → ℕ} {items : List α} (h : Ascending key items) : (items.map key).Nodup :=
  pairwise_map.mpr (h.imp fun hlt => hlt.ne)

theorem ascending_underLabel {τ : Type} (idx : MembershipMap (ℕ × ℕ) τ) (s labelId : ℕ) : Ascending id (underLabel s idx labelId) := by
  refine ascending_insertionSort ?_
  have hkeys : ((visibleEntries idx s).map (·.1)).Nodup := IndexCoherence.nodup_visibleKeys idx s
  refine Nodup.map_on ?_ ((Nodup.of_map _ hkeys).filter _)
  intro fst hfst snd hsnd hsame
  obtain ⟨hfst, hlab⟩ := mem_filter.mp hfst
  obtain ⟨hsnd, hlab'⟩ := mem_filter.mp hsnd
  exact inj_on_of_nodup_map hkeys hfst hsnd (Prod.ext ((of_decide_eq_true hlab).trans (of_decide_eq_true hlab').symm) hsame)

theorem ascending_storedIds {ρ : Type} (records : Map ℕ ρ) (pick : (Sigma fun _ : ℕ => ρ) → Bool) :
    Ascending id (((records.entries.filter pick).map (·.1)).insertionSort (· ≤ ·)) :=
  ascending_insertionSort ((filter_sublist.map Sigma.fst).nodup records.keys_nodup)

theorem notYounger_times {ops : List SeqOp} {s : ℕ} (h : ∀ op ∈ ops, op.1 ≤ s) : NotYounger (ofOps ops).timeNodeIndex s := by
  induction ops using List.reverseRecOn with
  | nil => exact notYounger_empty s
  | append_singleton ops op ih =>
    have htimes := ih fun op hop => h op (mem_append_left _ hop)
    have hq : op.1 ≤ s := h op (mem_append_right _ (mem_singleton_self op))
    rw [ofOps_concat]
    obtain ⟨q, op⟩ := op
    cases op with
    | upsertNode node =>
      rw [applyOp, timeNodeIndex_upsertNode]
      exact notYounger_setSlots htimes hq
    | deleteNode id deletedAt =>
      rw [applyOp, timeNodeIndex_deleteNode]
      exact notYounger_setSlots htimes hq
    | upsertEdge edge =>
      rw [applyOp, (mk.inj (mk.inj (nodeParts_upsertEdge (ofOps ops) q edge)).2).1]
      exact htimes
    | deleteEdge id deletedAt =>
      rw [applyOp, (mk.inj (mk.inj (nodeParts_deleteEdge (ofOps ops) q id deletedAt)).2).1]
      exact htimes
    | _ => exact htimes

/-- A node has one time, under which it stands once for each of its labels. -/
theorem ascending_visibleNodesByTimeRange {sl : SourceList} {ops : List SeqOp} (h : ∀ op ∈ ops, op.1 ≤ sl.snapshotSeq) (labelId : ℕ)
    (fromMs toMs : ℤ) : Ascending id (visibleNodesByTimeRange sl labelId fromMs toMs (ofOps ops)) := by
  rw [visibleNodesByTimeRange]
  split
  · exact List.Pairwise.nil
  refine ascending_insertionSort (Nodup.map_on ?_ ((IndexCoherence.nodup_visibleKeys _ _).filter _))
  have htime : ∀ key ∈ visibleKeys (ofOps ops).timeNodeIndex sl.snapshotSeq, ∃ node, (ofOps ops).currentNode key.2.2 = some node ∧
      node.updatedAt = key.2.1 := by
    intro key hkey
    obtain ⟨⟨key, entry⟩, hent, rfl⟩ := mem_map.mp hkey
    rw [mem_visibleEntries_of_tracks (notYounger_times h) (BuilderAgreement.indexed_ofOps ops).times, TrackedIndexes.entriesOf,
      bind_eq_some_iff] at hent
    obtain ⟨node, hnode, htime⟩ := hent
    rw [timeEntry, ite_none_right_eq_some] at htime
    exact ⟨node, hnode, htime.1.2⟩
  intro fst hfst snd hsnd hsame
  obtain ⟨hfst, hpick⟩ := mem_filter.mp hfst
  obtain ⟨hsnd, hpick'⟩ := mem_filter.mp hsnd
  rw [Bool.and_eq_true, Bool.and_eq_true, decide_eq_true_eq] at hpick hpick'
  obtain ⟨node, hnode, htimeFirst⟩ := htime fst hfst
  obtain ⟨other, hoth, htimeSecond⟩ := htime snd hsnd
  rw [← hsame, hnode] at hoth
  obtain rfl := some.inj hoth
  exact Prod.ext (hpick.1.1.trans hpick'.1.1.symm) (Prod.ext (htimeFirst.symm.trans htimeSecond) hsame)

theorem right_edgeLabelSources (sl : SourceList) (labelId : ℕ) : Right id (edgeLabelSources sl labelId) := by
  refine ⟨nodup_of_ascending (ascending_underLabel _ _ _), fun src hsrc => ?_⟩
  obtain hsrc | hsrc := mem_append.mp hsrc
  · obtain ⟨m, -, rfl⟩ := mem_map.mp hsrc
    exact ascending_underLabel _ _ _
  · obtain ⟨seg, -, rfl⟩ := mem_map.mp hsrc
    exact ascending_storedIds _ _

theorem right_timeRangeSources {sl : SourceList} (h : Stored sl) (labelId : ℕ) (fromMs toMs : ℤ) :
    Right id (timeRangeSources sl labelId fromMs toMs) := by
  have hmem : ∀ m ∈ sl.active :: sl.immutable, Ascending id (visibleNodesByTimeRange sl labelId fromMs toMs m) := by
    intro m hm
    obtain ⟨ops, rfl, hops⟩ := h.memtables m hm
    exact ascending_visibleNodesByTimeRange hops labelId fromMs toMs
  refine ⟨nodup_of_ascending (hmem _ mem_cons_self), fun src hsrc => ?_⟩
  obtain hsrc | hsrc := mem_append.mp hsrc
  · obtain ⟨m, hm, rfl⟩ := mem_map.mp hsrc
    exact hmem m (mem_cons_of_mem _ hm)
  · obtain ⟨seg, -, rfl⟩ := mem_map.mp hsrc
    exact ascending_storedIds _ _

/-- What only enters the node is listed last, if both directions are asked for. -/
def side (nodeId : ℕ) (dir : Direction) (edge : EdgeRecord) : Bool := decide (dir = .both) && decide (edge.source ≠ nodeId)

def place (nodeId : ℕ) (dir : Direction) (edge : EdgeRecord) : Bool ×ₗ ℕ := toLex (side nodeId dir edge, edge.labelId)

/-- The edge is one that is listed at the node. -/
def Shown (cell : EdgeRecord → ℕ → AdjEntry) (view : ℕ → Option EdgeRecord) (nodeId : ℕ) (dir : Direction) (accept : AdjEntry → Bool)
    (edge : EdgeRecord) : Prop :=
  view edge.id = some edge ∧ (entryAt cell nodeId dir edge).any accept = true

/-- An immutable memtable lists one edge on each side at most, and a segment needs no other order than its own. -/
structure InOrder (sl : SourceList) (nodeId : ℕ) (dir : Direction) (fids : Option (List ℕ)) : Prop where
  memtables : ∀ m ∈ sl.immutable, m.isNodeDeletedAt nodeId sl.snapshotSeq = false → ∀ a b,
    Shown adjEntry (m.getEdgeAt · sl.snapshotSeq) nodeId dir (memtableAccepts sl fids m) a →
    Shown adjEntry (m.getEdgeAt · sl.snapshotSeq) nodeId dir (memtableAccepts sl fids m) b → a.id ≠ b.id →
    side nodeId dir a < side nodeId dir b ∧ a.id < b.id ∨ side nodeId dir b < side nodeId dir a ∧ b.id < a.id
  segments : ∀ seg ∈ sl.segments, ∀ a b,
    Shown storedPosting (seg.edges.lookup ·) nodeId dir (segmentAccepts fids seg) a →
    Shown storedPosting (seg.edges.lookup ·) nodeId dir (segmentAccepts fids seg) b →
    place nodeId dir a < place nodeId dir b → a.id < b.id

variable {edge : EdgeRecord}

section
variable {nodeId : ℕ} {dir : Direction} {accept : AdjEntry → Bool} {cell : EdgeRecord → ℕ → AdjEntry}
variable {view : ℕ → Option EdgeRecord} {outEntries inEntries : List AdjEntry}

def sideEntries (nodeId : ℕ) (dir : Direction) (accept : AdjEntry → Bool) (outEntries inEntries : List AdjEntry) : Bool → List AdjEntry
  | false => if dir = .incoming then inEntries.filter accept else outEntries.filter accept
  | true => if dir = .both then inEntries.filter fun entry => accept entry && decide (entry.neighborId ≠ nodeId) else []

theorem collectNeighbors_sides (hcell : NamesEdge cell) (hout : Cells cell view nodeId EdgeRecord.source EdgeRecord.target outEntries)
    (hin : Cells cell view nodeId EdgeRecord.target EdgeRecord.source inEntries) :
    collectNeighbors nodeId dir accept 0 outEntries inEntries = (sideEntries nodeId dir accept outEntries inEntries false ++
        sideEntries nodeId dir accept outEntries inEntries true).map toRecord := by
  cases dir with
  | outgoing =>
    simp only [collectNeighbors]
    rw [collect_results false hout.nodup, nil_append, filter_congr fun entry _ => takes_all entry]
    exact congrArg _ (append_nil _).symm
  | incoming =>
    simp only [collectNeighbors]
    rw [collect_results false hin.nodup, nil_append, filter_congr fun entry _ => takes_all entry]
    exact congrArg _ (append_nil _).symm
  | both =>
    rw [collectBoth_results hout hin, map_append]
    refine congrArg _ (congrArg _ (filter_congr fun entry hent => ?_))
    rw [Bool.eq_iff_iff, takes_incoming hcell hout hin hent, Bool.and_eq_true, decide_eq_true_eq]

theorem Shown.entry (h : Shown cell view nodeId dir accept edge) :
    ∃ entry, entryAt cell nodeId dir edge = some entry ∧ accept entry = true :=
  (any_eq_true _ _).mp h.2

theorem any_accept {entry : AdjEntry} (hent : entryAt cell nodeId dir edge = some entry) :
    Shown cell view nodeId dir accept edge ↔ view edge.id = some edge ∧ accept entry = true := by
  rw [Shown, hent, any_some]

section
variable (hcell : NamesEdge cell) (hout : Cells cell view nodeId EdgeRecord.source EdgeRecord.target outEntries)
  (hin : Cells cell view nodeId EdgeRecord.target EdgeRecord.source inEntries)
include hcell hout hin

theorem mem_sideEntries {last : Bool} {entry : AdjEntry} :
    entry ∈ sideEntries nodeId dir accept outEntries inEntries last ↔
      ∃ edge, Shown cell view nodeId dir accept edge ∧ side nodeId dir edge = last ∧ entryAt cell nodeId dir edge = some entry := by
  have hlvs : ∀ pick : AdjEntry → Bool, entry ∈ outEntries.filter pick ↔
      ∃ edge, (view edge.id = some edge ∧ pick entry = true) ∧ edge.source = nodeId ∧ cell edge edge.target = entry := by
    intro pick
    rw [mem_filter, hout.mem]
    constructor
    · rintro ⟨⟨edge, hedge, hsrc, rfl⟩, hpick⟩
      rw [hcell.edgeId] at hedge
      exact ⟨edge, ⟨hedge, hpick⟩, hsrc, rfl⟩
    · rintro ⟨edge, ⟨hedge, hpick⟩, hsrc, rfl⟩
      exact ⟨⟨edge, by rw [hcell.edgeId, hedge], hsrc, rfl⟩, hpick⟩
  have henters : ∀ pick : AdjEntry → Bool, entry ∈ inEntries.filter pick ↔
      ∃ edge, (view edge.id = some edge ∧ pick entry = true) ∧ edge.target = nodeId ∧ cell edge edge.source = entry := by
    intro pick
    rw [mem_filter, hin.mem]
    constructor
    · rintro ⟨⟨edge, hedge, htgt, rfl⟩, hpick⟩
      rw [hcell.edgeId] at hedge
      exact ⟨edge, ⟨hedge, hpick⟩, htgt, rfl⟩
    · rintro ⟨edge, ⟨hedge, hpick⟩, htgt, rfl⟩
      exact ⟨⟨edge, by rw [hcell.edgeId, hedge], htgt, rfl⟩, hpick⟩
  have hshown : ∀ edge, Shown cell view nodeId dir accept edge ∧ side nodeId dir edge = last ∧
      entryAt cell nodeId dir edge = some entry ↔ (view edge.id = some edge ∧ accept entry = true) ∧
        side nodeId dir edge = last ∧ entryAt cell nodeId dir edge = some entry := by
    intro edge
    constructor
    · rintro ⟨hshown, hside, hent⟩
      exact ⟨(any_accept hent).mp hshown, hside, hent⟩
    · rintro ⟨hshown, hside, hent⟩
      exact ⟨(any_accept hent).mpr hshown, hside, hent⟩
  simp only [hshown]
  cases dir with
  | outgoing =>
    cases last with
    | false => simp [sideEntries, hlvs, side, entryAt]
    | true => simp [sideEntries, side]
  | incoming =>
    cases last with
    | false => simp [sideEntries, henters, side, entryAt]
    | true => simp [sideEntries, side]
  | both =>
    cases last with
    | false =>
      simp only [sideEntries, reduceCtorEq, if_false, hlvs]
      refine exists_congr fun edge => and_congr_right fun _ => ?_
      by_cases hsrc : edge.source = nodeId
      · simp [side, entryAt, hsrc]
      · simp [side, hsrc]
    | true =>
      simp only [sideEntries, if_true, henters]
      refine exists_congr fun edge => ?_
      by_cases hsrc : edge.source = nodeId
      · refine iff_of_false ?_ ?_
        · rintro ⟨⟨-, hpick⟩, -, rfl⟩
          simp [hcell.neighborId, hsrc] at hpick
        · rintro ⟨-, hside, -⟩
          simp [side, hsrc] at hside
      · constructor
        · rintro ⟨⟨hedge, hpick⟩, htgt, hent⟩
          rw [Bool.and_eq_true] at hpick
          exact ⟨⟨hedge, hpick.1⟩, by simp [side, hsrc], by simp [entryAt, hsrc, htgt, hent]⟩
        · rintro ⟨⟨hedge, haccept⟩, -, hent⟩
          rw [entryAt, if_neg hsrc, ite_none_right_eq_some] at hent
          obtain ⟨htgt, hent⟩ := hent
          obtain rfl := some.inj hent
          exact ⟨⟨hedge, by simp [haccept, hcell.neighborId, hsrc]⟩, htgt, rfl⟩

theorem ascending_sides :
    Ascending NeighborRecord.edgeId (collectNeighbors nodeId dir accept 0 outEntries inEntries) ↔
      Ascending AdjEntry.edgeId (sideEntries nodeId dir accept outEntries inEntries false) ∧
        Ascending AdjEntry.edgeId (sideEntries nodeId dir accept outEntries inEntries true) ∧
          ∀ a b, Shown cell view nodeId dir accept a → Shown cell view nodeId dir accept b →
            side nodeId dir a < side nodeId dir b → a.id < b.id := by
  rw [collectNeighbors_sides hcell hout hin, Ascending, pairwise_map]
  refine pairwise_append.trans (and_congr_right fun _ => and_congr_right fun _ => ?_)
  constructor
  · intro hx a b ha hb hside
    obtain ⟨hfst, hlast⟩ := Bool.lt_iff.mp hside
    obtain ⟨entry, hent, -⟩ := ha.entry
    obtain ⟨other, hoth, -⟩ := hb.entry
    have hlt := hx entry ((mem_sideEntries hcell hout hin).mpr ⟨a, ha, hfst, hent⟩) other
      ((mem_sideEntries hcell hout hin).mpr ⟨b, hb, hlast, hoth⟩)
    rwa [toRecord, toRecord, entryAt_edgeId hcell hent, entryAt_edgeId hcell hoth] at hlt
  · intro hx entry hent other hoth
    obtain ⟨a, ha, hfst, hent⟩ := (mem_sideEntries hcell hout hin).mp hent
    obtain ⟨b, hb, hlast, hoth⟩ := (mem_sideEntries hcell hout hin).mp hoth
    rw [toRecord, toRecord, entryAt_edgeId hcell hent, entryAt_edgeId hcell hoth]
    exact hx a b ha hb (Bool.lt_iff.mpr ⟨hfst, hlast⟩)

end

/-- Two edges of one side are in order where both orders of the side are. -/
theorem eq_of_both_orders {items : List AdjEntry} (h : Ascending AdjEntry.edgeId items) (hrev : Ascending AdjEntry.edgeId items.reverse)
    {a b : AdjEntry} (ha : a ∈ items) (hb : b ∈ items) : a = b := by
  have hnever : items.Pairwise fun _ _ => False := by
    refine (h.and (pairwise_reverse.mp hrev)).imp fun hboth => absurd hboth.1 hboth.2.asymm
  cases items with
  | nil => cases ha
  | cons x items =>
    cases items with
    | nil => rw [mem_singleton.mp ha, mem_singleton.mp hb]
    | cons y items => exact ((pairwise_cons.mp hnever).1 y mem_cons_self).elim

theorem sideEntries_reverse (last : Bool) : sideEntries nodeId dir accept outEntries.reverse inEntries.reverse last =
    (sideEntries nodeId dir accept outEntries inEntries last).reverse := by
  cases last with
  | false =>
    rw [sideEntries, sideEntries]
    split <;> exact filter_reverse
  | true =>
    rw [sideEntries, sideEntries]
    split
    · exact filter_reverse
    · rfl

theorem sideEntries_sublist (last : Bool) : ∃ entries, (entries = outEntries ∨ entries = inEntries) ∧
    (sideEntries nodeId dir accept outEntries inEntries last).Sublist entries := by
  cases last with
  | false =>
    rw [sideEntries]
    split
    · exact ⟨inEntries, Or.inr rfl, filter_sublist⟩
    · exact ⟨outEntries, Or.inl rfl, filter_sublist⟩
  | true =>
    rw [sideEntries]
    split
    · exact ⟨inEntries, Or.inr rfl, filter_sublist⟩
    · exact ⟨inEntries, Or.inr rfl, nil_sublist _⟩

theorem cells_perm {endpoint nbr : EdgeRecord → ℕ} {entries permuted : List AdjEntry}
    (h : Cells cell view nodeId endpoint nbr entries) (hperm : permuted.Perm entries) : Cells cell view nodeId endpoint nbr permuted where
  nodup := (hperm.map AdjEntry.edgeId).nodup_iff.mpr h.nodup
  mem entry := hperm.mem_iff.trans (h.mem entry)

end

section
variable {sl : SourceList} {nodeId : ℕ} {dir : Direction} {fids : Option (List ℕ)}

/-- The postings of a segment come by label, and by edge under a label. -/
theorem ascending_iff_of_labels {items : List AdjEntry} (h : items.Pairwise fun a b => postingOrder a < postingOrder b) :
    Ascending AdjEntry.edgeId items ↔ ∀ a ∈ items, ∀ b ∈ items, a.labelId < b.labelId → a.edgeId < b.edgeId := by
  constructor
  · intro hasc
    have hfwd : items.Pairwise fun a b => a.labelId < b.labelId → a.edgeId < b.edgeId := by
      refine hasc.imp ?_
      intro a b hlt _
      exact hlt
    have hback : items.Pairwise (flip fun a b => a.labelId < b.labelId → a.edgeId < b.edgeId) := by
      refine h.imp fun {a b} hlt hlab => ?_
      obtain hless | ⟨hsame, -⟩ := Prod.Lex.lt_iff.mp hlt
      · exact absurd hlab hless.asymm
      · exact absurd hlab (Eq.not_lt (Eq.symm hsame))
    have hforall := List.Pairwise.forall_of_forall_of_flip (fun _ _ hlt => absurd hlt (lt_irrefl _)) hfwd hback
    exact fun a ha b hb => hforall ha hb
  · intro hlabs
    refine h.imp_of_mem fun {a b} ha hb hlt => ?_
    obtain hless | ⟨-, hless⟩ := Prod.Lex.lt_iff.mp hlt
    · exact hlabs a ha b hb hless
    · exact hless

theorem pairwise_adjPostings {seg : Segment} (hids : ∀ id edge, seg.edges.lookup id = some edge → edge.id = id)
    (endpoint nbr : EdgeRecord → ℕ) :
    (adjPostings seg nodeId endpoint nbr).Pairwise fun a b => postingOrder a < postingOrder b := by
  have htotal : Std.Total fun a b : AdjEntry => postingOrder a ≤ postingOrder b := ⟨fun _ _ => le_total _ _⟩
  have htrans : IsTrans AdjEntry fun a b => postingOrder a ≤ postingOrder b := ⟨fun _ _ _ hab hbc => le_trans hab hbc⟩
  have hsort : (adjPostings seg nodeId endpoint nbr).Pairwise fun a b => postingOrder a ≤ postingOrder b := pairwise_insertionSort _ _
  have hnd := pairwise_map.mp (cells_adjPostings hids nodeId endpoint nbr).nodup
  refine hsort.imp₂ (fun a b hle hne => lt_of_le_of_ne hle fun heq => hne ?_) hnd
  exact (mk.inj (toLex.injective heq)).2

theorem entryAt_labelId {cell : EdgeRecord → ℕ → AdjEntry} (hlab : ∀ edge nbr, (cell edge nbr).labelId = edge.labelId) {entry : AdjEntry} (h : entryAt cell nodeId dir edge = some entry) : entry.labelId = edge.labelId := by
  cases dir with
  | outgoing =>
    obtain ⟨-, hent⟩ := ite_none_right_eq_some.mp h
    rw [← some.inj hent, hlab]
  | incoming =>
    obtain ⟨-, hent⟩ := ite_none_right_eq_some.mp h
    rw [← some.inj hent, hlab]
  | both =>
    rw [entryAt] at h
    split at h
    · rw [← some.inj h, hlab]
    · obtain ⟨-, hent⟩ := ite_none_right_eq_some.mp h
      rw [← some.inj hent, hlab]

theorem ascending_segmentNeighbors {seg : Segment} (hids : ∀ id edge, seg.edges.lookup id = some edge → edge.id = id) :
    Ascending NeighborRecord.edgeId (segmentNeighbors nodeId dir fids seg) ↔ ∀ a b,
      Shown storedPosting (seg.edges.lookup ·) nodeId dir (segmentAccepts fids seg) a →
      Shown storedPosting (seg.edges.lookup ·) nodeId dir (segmentAccepts fids seg) b →
      place nodeId dir a < place nodeId dir b → a.id < b.id := by
  have hout := cells_adjPostings hids nodeId EdgeRecord.source EdgeRecord.target
  have hin := cells_adjPostings hids nodeId EdgeRecord.target EdgeRecord.source
  have hlab : ∀ edge nbr, (storedPosting edge nbr).labelId = edge.labelId := fun _ _ => rfl
  have hside : ∀ last, (sideEntries nodeId dir (segmentAccepts fids seg)
      (adjPostings seg nodeId EdgeRecord.source EdgeRecord.target) (adjPostings seg nodeId EdgeRecord.target EdgeRecord.source) last).Pairwise
        fun a b => postingOrder a < postingOrder b := by
    intro last
    obtain ⟨entries, hents | hents, hsub⟩ := sideEntries_sublist last
    · exact (hents ▸ pairwise_adjPostings hids _ _ : entries.Pairwise _).sublist hsub
    · exact (hents ▸ pairwise_adjPostings hids _ _ : entries.Pairwise _).sublist hsub
  have hnbrs : segmentNeighbors nodeId dir fids seg = collectNeighbors nodeId dir (segmentAccepts fids seg) 0
      (adjPostings seg nodeId EdgeRecord.source EdgeRecord.target) (adjPostings seg nodeId EdgeRecord.target EdgeRecord.source) := rfl
  rw [hnbrs, ascending_sides namesEdge_storedPosting hout hin]
  rw [ascending_iff_of_labels (hside false), ascending_iff_of_labels (hside true)]
  constructor
  · rintro ⟨hfst, hlast, hx⟩ a b ha hb hplace
    obtain hless | ⟨hsame, hless⟩ := Prod.Lex.lt_iff.mp hplace
    · exact hx a b ha hb hless
    · obtain ⟨entry, hent, -⟩ := ha.entry
      obtain ⟨other, hoth, -⟩ := hb.entry
      have hmem := (mem_sideEntries namesEdge_storedPosting hout hin).mpr ⟨a, ha, rfl, hent⟩
      have hmem' := (mem_sideEntries namesEdge_storedPosting hout hin).mpr ⟨b, hb, rfl, hoth⟩
      rw [← show side nodeId dir a = side nodeId dir b from hsame] at hmem'
      rw [← entryAt_edgeId namesEdge_storedPosting hent, ← entryAt_edgeId namesEdge_storedPosting hoth]
      have hlabs : entry.labelId < other.labelId := by
        rw [entryAt_labelId hlab hent, entryAt_labelId hlab hoth]
        exact hless
      cases hsideOf : side nodeId dir a with
      | false =>
        rw [hsideOf] at hmem hmem'
        exact hfst entry hmem other hmem' hlabs
      | true =>
        rw [hsideOf] at hmem hmem'
        exact hlast entry hmem other hmem' hlabs
  · intro hplaces
    have hwi : ∀ last, ∀ entry ∈ sideEntries nodeId dir (segmentAccepts fids seg)
        (adjPostings seg nodeId EdgeRecord.source EdgeRecord.target) (adjPostings seg nodeId EdgeRecord.target EdgeRecord.source) last,
        ∀ other ∈ sideEntries nodeId dir (segmentAccepts fids seg)
        (adjPostings seg nodeId EdgeRecord.source EdgeRecord.target) (adjPostings seg nodeId EdgeRecord.target EdgeRecord.source) last,
        entry.labelId < other.labelId → entry.edgeId < other.edgeId := by
      intro last entry hent other hoth hlabs
      obtain ⟨a, ha, hsideFirst, hent⟩ := (mem_sideEntries namesEdge_storedPosting hout hin).mp hent
      obtain ⟨b, hb, hsideSecond, hoth⟩ := (mem_sideEntries namesEdge_storedPosting hout hin).mp hoth
      rw [entryAt_labelId hlab hent, entryAt_labelId hlab hoth] at hlabs
      rw [entryAt_edgeId namesEdge_storedPosting hent, entryAt_edgeId namesEdge_storedPosting hoth]
      exact hplaces a b ha hb (Prod.Lex.lt_iff.mpr (Or.inr ⟨hsideFirst.trans hsideSecond.symm, hlabs⟩))
    exact ⟨hwi false, hwi true, fun a b ha hb hless => hplaces a b ha hb (Prod.Lex.lt_iff.mpr (Or.inl hless))⟩

/-- The orders in which the maps come as they are, and the other way round. -/
def asListed : HashOrder := ⟨fun _ entries => entries, fun _ entries => entries, fun _ _ => List.Perm.refl _, fun _ _ => List.Perm.refl _⟩

def asReversed : HashOrder :=
  ⟨fun _ entries => entries.reverse, fun _ entries => entries.reverse, fun _ _ => reverse_perm _, fun _ _ => reverse_perm _⟩

section
variable {ops : List SeqOp} (hops : ∀ op ∈ ops, op.1 ≤ sl.snapshotSeq)
include hops

theorem cells_out (order : HashOrder) : Cells adjEntry ((ofOps ops).getEdgeAt · sl.snapshotSeq) nodeId EdgeRecord.source EdgeRecord.target
    (order.outValues (ofOps ops) (adjEntriesAt sl.snapshotSeq (ofOps ops).adjOut nodeId)) := by
  have hview : (fun id => (ofOps ops).getEdgeAt id sl.snapshotSeq) = edgesAfter ops := funext fun id => by
    rw [(settledBy_ofOps hops).getEdgeAt, currentEdge_ofOps]
  rw [hview]
  refine cells_perm (cells_adjEntriesAt (fun id edge hedge => ?_) (fun _ _ _ => mem_adjOut hops) nodeId) (order.outPerm _ _)
  exact edgeLog_id (join_eq_some_iff.mp hedge)

theorem cells_in (order : HashOrder) : Cells adjEntry ((ofOps ops).getEdgeAt · sl.snapshotSeq) nodeId EdgeRecord.target EdgeRecord.source
    (order.inValues (ofOps ops) (adjEntriesAt sl.snapshotSeq (ofOps ops).adjIn nodeId)) := by
  have hview : (fun id => (ofOps ops).getEdgeAt id sl.snapshotSeq) = edgesAfter ops := funext fun id => by
    rw [(settledBy_ofOps hops).getEdgeAt, currentEdge_ofOps]
  rw [hview]
  refine cells_perm (cells_adjEntriesAt (fun id edge hedge => ?_) (fun _ _ _ => mem_adjIn hops) nodeId) (order.inPerm _ _)
  exact edgeLog_id (join_eq_some_iff.mp hedge)

theorem getEdgeAt_id {id : ℕ} (h : (ofOps ops).getEdgeAt id sl.snapshotSeq = some edge) : edge.id = id := by
  rw [(settledBy_ofOps hops).getEdgeAt, currentEdge_ofOps] at h
  exact edgeLog_id (join_eq_some_iff.mp h)

theorem nodup_hashedNeighbors (order : HashOrder) :
    ((hashedNeighbors sl order nodeId dir fids (ofOps ops)).map NeighborRecord.edgeId).Nodup := by
  rw [hashedNeighbors]
  split
  · exact nodup_nil
  · exact (lists_collectNeighbors (memtableAccepts sl fids (ofOps ops)) namesEdge_adjEntry (fun _ _ => getEdgeAt_id hops)
      (cells_out hops order) (cells_in hops order) dir).nodup

/-- A memtable lists its neighbors in order whatever the orders of its maps exactly if it has one on each side at most. -/
theorem ascending_hashedNeighbors : (∀ order, Ascending NeighborRecord.edgeId (hashedNeighbors sl order nodeId dir fids (ofOps ops))) ↔
    ((ofOps ops).isNodeDeletedAt nodeId sl.snapshotSeq = false → ∀ a b,
      Shown adjEntry ((ofOps ops).getEdgeAt · sl.snapshotSeq) nodeId dir (memtableAccepts sl fids (ofOps ops)) a →
      Shown adjEntry ((ofOps ops).getEdgeAt · sl.snapshotSeq) nodeId dir (memtableAccepts sl fids (ofOps ops)) b →
      a.id ≠ b.id → side nodeId dir a < side nodeId dir b ∧ a.id < b.id ∨ side nodeId dir b < side nodeId dir a ∧ b.id < a.id) := by
  by_cases hdel : (ofOps ops).isNodeDeletedAt nodeId sl.snapshotSeq = true
  · simp [hashedNeighbors, hdel, Ascending]
  rw [Bool.not_eq_true] at hdel
  have hkept : ∀ order, hashedNeighbors sl order nodeId dir fids (ofOps ops) =
      collectNeighbors nodeId dir (memtableAccepts sl fids (ofOps ops)) 0
        (order.outValues (ofOps ops) (adjEntriesAt sl.snapshotSeq (ofOps ops).adjOut nodeId))
        (order.inValues (ofOps ops) (adjEntriesAt sl.snapshotSeq (ofOps ops).adjIn nodeId)) := fun order => by
    rw [hashedNeighbors, hdel, if_neg Bool.false_ne_true]
  constructor
  · intro horders _ a b ha hb hne
    have hlist := horders asListed
    have hreve := horders asReversed
    rw [hkept, ascending_sides namesEdge_adjEntry (cells_out hops _) (cells_in hops _)] at hlist hreve
    obtain ⟨hfst, hlast, hx⟩ := hlist
    obtain ⟨hfirstReversed, hlastReversed, -⟩ := hreve
    obtain ⟨entry, hent, -⟩ := ha.entry
    obtain ⟨other, hoth, -⟩ := hb.entry
    have hmem := (mem_sideEntries namesEdge_adjEntry (cells_out hops asListed) (cells_in hops asListed)).mpr ⟨a, ha, rfl, hent⟩
    have hmem' := (mem_sideEntries namesEdge_adjEntry (cells_out hops asListed) (cells_in hops asListed)).mpr ⟨b, hb, rfl, hoth⟩
    obtain hless | hsame | hless := lt_trichotomy (side nodeId dir a) (side nodeId dir b)
    · exact Or.inl ⟨hless, hx a b ha hb hless⟩
    · have hents : entry = other := by
        rw [← hsame] at hmem'
        cases hside : side nodeId dir a with
        | false =>
          rw [hside] at hmem hmem'
          exact eq_of_both_orders hfst (sideEntries_reverse false ▸ hfirstReversed) hmem hmem'
        | true =>
          rw [hside] at hmem hmem'
          exact eq_of_both_orders hlast (sideEntries_reverse true ▸ hlastReversed) hmem hmem'
      rw [← entryAt_edgeId namesEdge_adjEntry hent, ← entryAt_edgeId namesEdge_adjEntry hoth] at hne
      exact absurd (congrArg AdjEntry.edgeId hents) hne
    · exact Or.inr ⟨hless, hx b a hb ha hless⟩
  · intro hpairs order
    have hone : ∀ last, Ascending AdjEntry.edgeId (sideEntries nodeId dir (memtableAccepts sl fids (ofOps ops))
        (order.outValues (ofOps ops) (adjEntriesAt sl.snapshotSeq (ofOps ops).adjOut nodeId))
        (order.inValues (ofOps ops) (adjEntriesAt sl.snapshotSeq (ofOps ops).adjIn nodeId)) last) := by
      intro last
      obtain ⟨entries, hents, hsub⟩ := @sideEntries_sublist nodeId dir (memtableAccepts sl fids (ofOps ops))
        (order.outValues (ofOps ops) (adjEntriesAt sl.snapshotSeq (ofOps ops).adjOut nodeId))
        (order.inValues (ofOps ops) (adjEntriesAt sl.snapshotSeq (ofOps ops).adjIn nodeId)) last
      have hnd : entries.Pairwise fun a b => a.edgeId ≠ b.edgeId := by
        obtain rfl | rfl := hents
        · exact pairwise_map.mp (cells_out hops order).nodup
        · exact pairwise_map.mp (cells_in hops order).nodup
      refine (hnd.sublist hsub).imp_of_mem fun {entry other} hent hoth hne => ?_
      obtain ⟨a, ha, hside, hent⟩ := (mem_sideEntries namesEdge_adjEntry (cells_out hops order) (cells_in hops order)).mp hent
      obtain ⟨b, hb, hside', hoth⟩ := (mem_sideEntries namesEdge_adjEntry (cells_out hops order) (cells_in hops order)).mp hoth
      rw [entryAt_edgeId namesEdge_adjEntry hent, entryAt_edgeId namesEdge_adjEntry hoth] at hne
      have hpair := hpairs hdel a b ha hb hne
      rw [hside, hside'] at hpair
      exact hpair.elim (fun hless => absurd hless.1 (lt_irrefl _)) fun hless => absurd hless.1 (lt_irrefl _)
    rw [hkept, ascending_sides namesEdge_adjEntry (cells_out hops order) (cells_in hops order)]
    refine ⟨hone false, hone true, fun a b ha hb hless => ?_⟩
    by_cases hsame : a.id = b.id
    · have heds : some a = some b := ha.1.symm.trans ((congrArg (fun id => (ofOps ops).getEdgeAt id sl.snapshotSeq) hsame).trans hb.1)
      exact absurd hless (some.inj heds ▸ lt_irrefl _)
    · exact (hpairs hdel a b ha hb hsame).elim And.right fun hoth => absurd hoth.1 hless.asymm

end

end

section
variable {sl : SourceList} {nodeId : ℕ} {dir : Direction} {fids : Option (List ℕ)}

theorem right_neighborSources (h : Stored sl) : (∀ order, Right NeighborRecord.edgeId (neighborSources sl order nodeId dir fids)) ↔
    InOrder sl nodeId dir fids := by
  constructor
  · intro hrt
    refine ⟨fun m hm => ?_, fun seg hseg => ?_⟩
    · obtain ⟨ops, rfl, hops⟩ := h.memtables m (mem_cons_of_mem _ hm)
      exact (ascending_hashedNeighbors hops).mp fun order => (hrt order).segments _ (mem_append_left _ (mem_map_of_mem hm))
    · exact (ascending_segmentNeighbors (h.segments seg hseg)).mp
        ((hrt asListed).segments _ (mem_append_right _ (mem_map_of_mem hseg)))
  · intro hor order
    refine ⟨?_, fun src hsrc => ?_⟩
    · obtain ⟨ops, hact, hops⟩ := h.memtables sl.active mem_cons_self
      rw [neighborSources, hact]
      exact nodup_hashedNeighbors hops order
    · obtain hsrc | hsrc := mem_append.mp hsrc
      · obtain ⟨m, hm, rfl⟩ := mem_map.mp hsrc
        have hpairs := hor.memtables m hm
        obtain ⟨ops, rfl, hops⟩ := h.memtables m (mem_cons_of_mem _ hm)
        exact (ascending_hashedNeighbors hops).mpr hpairs order
      · obtain ⟨seg, hseg, rfl⟩ := mem_map.mp hsrc
        exact (ascending_segmentNeighbors (h.segments seg hseg)).mpr (hor.segments seg hseg)

/-- Over sorted lists the pages are right exactly if the list of the memtable has no key twice, and the reads pass such lists exactly if
no layer lists the edges at the node in another order than that of the edges. -/
theorem pagesRight_and_callersRight {α : Type} {key : α → ℕ} {memtableItems : List α} {segmentSortedItems : List (List α)}
    (hsegments : ∀ source ∈ segmentSortedItems, Ascending key source) (h : Stored sl) (labelId : ℕ) (fromMs toMs : ℤ) :
    (PagesRight key memtableItems segmentSortedItems ↔ (memtableItems.map key).Nodup) ∧
      (CallersRight sl nodeId dir fids labelId fromMs toMs ↔ InOrder sl nodeId dir fids) := by
  refine ⟨pagesRight_iff hsegments, fun hcallers => (right_neighborSources h).mp hcallers.neighbors, fun horder => ?_⟩
  exact ⟨(right_neighborSources h).mpr horder, right_edgeLabelSources sl labelId, right_timeRangeSources h labelId fromMs toMs⟩

end

def labelled (id target labelId : ℕ) : EdgeRecord := ⟨id, 1, target, labelId, ∅, 0, 0, 0, 0, i64Max, 0⟩

/-- A flushed node with an edge of each of two labels. -/
def twoLabels (fst snd : ℕ) : SourceList :=
  ⟨MemtableState.empty, [], [⟨AList.insert 3 (CascadingDeletes.person 3 "c") (AList.insert 2 (CascadingDeletes.person 2 "b")
    (AList.singleton 1 (CascadingDeletes.person 1 "a"))), AList.insert snd (labelled snd 3 2)
      (AList.singleton fst (labelled fst 2 1)), ∅, ∅⟩], 0⟩

theorem lookup_twoLabels {fst snd : ℕ} : ∀ seg ∈ (twoLabels fst snd).segments, ∀ id edge, seg.edges.lookup id = some edge →
    edge = labelled snd 3 2 ∧ id = snd ∨ edge = labelled fst 2 1 ∧ id = fst := by
  intro seg hseg id edge hedge
  rw [mem_singleton.mp hseg] at hedge
  by_cases hsnd : id = snd
  · rw [hsnd, AList.lookup_insert] at hedge
    exact Or.inl ⟨(some.inj hedge).symm, hsnd⟩
  · rw [AList.lookup_insert_ne hsnd] at hedge
    obtain ⟨rfl, hedge⟩ := mem_singleton.mp (AList.mem_lookup_iff.mp hedge) |> Sigma.mk.inj
    exact Or.inr ⟨eq_of_heq hedge, rfl⟩

theorem stored_twoLabels (fst snd : ℕ) : Stored (twoLabels fst snd) where
  memtables m hm := by
    rw [mem_singleton.mp hm]
    exact ⟨[], rfl, fun op hop => absurd hop not_mem_nil⟩
  segments seg hseg id edge hedge := by
    obtain ⟨rfl, rfl⟩ | ⟨rfl, rfl⟩ := lookup_twoLabels seg hseg id edge hedge
    · rfl
    · rfl

/-- Where the edges come in the order of their labels the reads pass what the merge asks for. -/
theorem callersRight_twoLabels : (PagesRight id [2] [[1, 3]] ↔ ([2].map id).Nodup) ∧
    (CallersRight (twoLabels 3 5) 1 .outgoing none 1 0 0 ↔ InOrder (twoLabels 3 5) 1 .outgoing none) :=
  pagesRight_and_callersRight (by simp [Ascending]) (stored_twoLabels 3 5) 1 0 0

/-- The edge 5 of the smaller label comes first, and the edge 3 behind it. -/
theorem not_callersRight_twoLabels : Stored (twoLabels 5 3) ∧ ¬CallersRight (twoLabels 5 3) 1 .outgoing none 1 0 0 ∧
    ∀ order ops, ((neighborsPaged (twoLabels 5 3) order 1 .outgoing none ops 0 ⟨some 1, none⟩).items.map NeighborRecord.edgeId) = [5] := by
  have hsegment : (twoLabels 5 3).segments.map (segmentNeighbors 1 .outgoing none) =
      [[⟨2, 5, 1, 0, 0, i64Max⟩, ⟨3, 3, 2, 0, 0, i64Max⟩]] := by decide
  refine ⟨stored_twoLabels 5 3, fun hcallers => ?_, fun order ops => ?_⟩
  · have hascending := (hcallers.neighbors asListed).segments [⟨2, 5, 1, 0, 0, i64Max⟩, ⟨3, 3, 2, 0, 0, i64Max⟩]
      (mem_append_right _ (hsegment ▸ mem_singleton_self _))
    exact absurd ((pairwise_cons.mp hascending).1 _ (mem_singleton_self _)) (by decide)
  · have hempty : hashedNeighbors (twoLabels 5 3) order 1 .outgoing none (twoLabels 5 3).active = [] := by
      have hnone : order.outValues MemtableState.empty [] = [] := (order.outPerm _ _).eq_nil
      rw [hashedNeighbors]
      split
      · rfl
      · change collectNeighbors 1 .outgoing _ 0 (order.outValues MemtableState.empty []) _ = []
        rw [hnone]
        rfl
    have hsort : ops.sortUnstableByKey [] = [] := (ops.perm []).eq_nil
    rw [neighborsPaged, neighborSources, hempty, hsegment, mergeSortedPaged, hsort]
    rfl

end OverGraph.PagedReads
