import OverGraph.AdjacencyCells
import OverGraph.FirstSeen

/-!
# Reading the edges at a node

The edges at a node are gathered from the layers, newest first, and an edge is taken from the first
layer that has it. A memtable that has deleted the node shows none of its edges; a segment does not look.
What older layers show is checked against the tombstones of all layers, what the active memtable shows
is not.
-/

namespace OverGraph.AdjacencyReads
open Option hiding map_map mem_map mem_map_of_mem merge or_assoc
open Records Memtable MemtableState GraphView LayeredWrites Segments Sources SnapshotReads FirstSeen List EdgeRecord NeighborRecord
open Degrees (isEdgeValidAt)

/-- The end of validity is stored one up, with nothing for an end that never comes. -/
def encodeValidTo (validTo : ℤ) : ℕ := if validTo = i64Max then 0 else ((validTo + 1) % 2 ^ 64).toNat

def decodeValidTo (encoded : ℕ) : ℤ := if encoded = 0 then i64Max else (BitVec.ofNat 64 (encoded - 1)).toInt

/-- An edge as the postings of a segment give it. -/
def storedPosting (edge : EdgeRecord) (neighbor : ℕ) : AdjEntry :=
  { adjEntry edge neighbor with validTo := decodeValidTo (encodeValidTo edge.validTo) }

def postingOrder (entry : AdjEntry) : ℕ ×ₗ ℕ := toLex (entry.labelId, entry.edgeId)

def adjPostings (seg : Segment) (nodeId : ℕ) (endpoint neighbor : EdgeRecord → ℕ) : List AdjEntry :=
  (((seg.edges.entries.filter fun entry => decide (endpoint entry.2 = nodeId)).map fun entry =>
    storedPosting entry.2 (neighbor entry.2)).insertionSort fun a b => postingOrder a ≤ postingOrder b)

section
variable (nodeId : ℕ) (dir : Direction) (fids : Option (List ℕ))

/-- Hash maps are read in the order of the list that stands for them. -/
def neighborsAt (m : MemtableState) (s : ℕ) : List NeighborRecord :=
  if m.isNodeDeletedAt nodeId s then []
  else collectNeighbors nodeId dir
    (fun entry => labelAccepted fids entry && !m.isNodeDeletedAt entry.neighborId s) 0
    (adjEntriesAt s m.adjOut nodeId) (adjEntriesAt s m.adjIn nodeId)

def segmentNeighbors (seg : Segment) : List NeighborRecord :=
  collectNeighbors nodeId dir
    (fun entry => labelAccepted fids entry && !seg.isEdgeDeleted entry.edgeId &&
      !seg.isNodeDeleted entry.neighborId) 0
    (adjPostings seg nodeId source target) (adjPostings seg nodeId target source)

end

section
variable (sl : SourceList)

def isNodeTombstoned (id : ℕ) : Bool :=
  (sl.active :: sl.immutable).any (·.isNodeDeletedAt id sl.snapshotSeq) || sl.segments.any (·.isNodeDeleted id)

def isEdgeTombstoned (id : ℕ) : Bool :=
  (sl.active :: sl.immutable).any (·.isEdgeDeletedAt id sl.snapshotSeq) || sl.segments.any (·.isEdgeDeleted id)

/-- The tombstones of all layers were collected at the same sources. -/
def neighborsRaw (nodeId : ℕ) (dir : Direction) (fids : Option (List ℕ)) (now : ℤ) : List NeighborRecord :=
  let active := neighborsAt nodeId dir fids sl.active sl.snapshotSeq
  let older := (sl.immutable.map fun m => neighborsAt nodeId dir fids m sl.snapshotSeq) ++
    sl.segments.map (segmentNeighbors nodeId dir fids)
  let merged := merge NeighborRecord.edgeId
    (fun rec => !isEdgeTombstoned sl rec.edgeId && !isNodeTombstoned sl rec.nodeId)
    ⟨active, active.map NeighborRecord.edgeId⟩ older
  merged.results.filter fun rec => isEdgeValidAt rec.validFrom rec.validTo now

end

def toRecord (entry : AdjEntry) : NeighborRecord :=
  ⟨entry.neighborId, entry.edgeId, entry.labelId, entry.weight, entry.validFrom, entry.validTo⟩

def endpoints (edge : EdgeRecord) : List ℕ := [edge.source, edge.target]

def entryAt (cell : EdgeRecord → ℕ → AdjEntry) (nodeId : ℕ) (dir : Direction) (edge : EdgeRecord) : Option AdjEntry :=
  match dir with
  | .outgoing => if edge.source = nodeId then some (cell edge edge.target) else none
  | .incoming => if edge.target = nodeId then some (cell edge edge.source) else none
  | .both =>
    if edge.source = nodeId then some (cell edge edge.target)
    else if edge.target = nodeId then some (cell edge edge.source) else none

section
variable (nodeId : ℕ) (dir : Direction) (fids : Option (List ℕ))

/-- A memtable shows its edge at the node unless it has deleted the node or the other end. -/
def memtableOffer (s : ℕ) (m : MemtableState) (edgeId : ℕ) : Option NeighborRecord :=
  if m.isNodeDeletedAt nodeId s then none
  else (((m.getEdgeAt edgeId s).bind (entryAt adjEntry nodeId dir)).filter fun entry =>
    labelAccepted fids entry && !m.isNodeDeletedAt entry.neighborId s).map toRecord

/-- A segment shows its edge at the node unless it has deleted the other end. -/
def segmentOffer (seg : Segment) (edgeId : ℕ) : Option NeighborRecord :=
  (((seg.getEdge edgeId).bind (entryAt storedPosting nodeId dir)).filter fun entry =>
    labelAccepted fids entry && !seg.isNodeDeleted entry.neighborId).map toRecord

end

/-- The entries under a node are those of the edges that have it as their endpoint. -/
structure Cells (cell : EdgeRecord → ℕ → AdjEntry) (view : ℕ → Option EdgeRecord) (nodeId : ℕ)
    (endpoint neighbor : EdgeRecord → ℕ) (es : List AdjEntry) : Prop where
  nodup : (es.map AdjEntry.edgeId).Nodup
  mem : ∀ entry, entry ∈ es ↔ ∃ edge, view entry.edgeId = some edge ∧ endpoint edge = nodeId ∧ entry = cell edge (neighbor edge)

variable {endpoint neighbor : EdgeRecord → ℕ}

section
variable {nodeId : ℕ} {accept : AdjEntry → Bool}

/-- A self loop that was collected before is not collected again. -/
def takes (nodeId : ℕ) (accept : AdjEntry → Bool) (dedupeSelfLoops : Bool) (selfLoopEdgeIds : List ℕ) (entry : AdjEntry) : Bool :=
  accept entry && !(decide (entry.neighborId = nodeId) && dedupeSelfLoops && decide (entry.edgeId ∈ selfLoopEdgeIds))

theorem collectEntry_eq (dedupeSelfLoops : Bool) (st : Collected) (entry : AdjEntry) :
    collectEntry nodeId accept 0 dedupeSelfLoops st entry = if takes nodeId accept dedupeSelfLoops st.selfLoopEdgeIds entry then
        ⟨st.results ++ [toRecord entry], if entry.neighborId = nodeId then entry.edgeId :: st.selfLoopEdgeIds
          else st.selfLoopEdgeIds⟩
      else st := by
  rw [collectEntry, if_neg (by omega), takes]
  cases haccept : accept entry
  · simp
  · by_cases hself : entry.neighborId = nodeId
    · by_cases hseen : dedupeSelfLoops && decide (entry.edgeId ∈ st.selfLoopEdgeIds)
      · simp [hself, hseen]
      · simp [hself, hseen, toRecord]
    · simp [hself, toRecord]

variable {es : List AdjEntry}

/-- Entries with distinct edges are taken as if they were alone. -/
theorem collect_results (dedupeSelfLoops : Bool) (hnd : (es.map AdjEntry.edgeId).Nodup) (st : Collected) :
    (es.foldl (collectEntry nodeId accept 0 dedupeSelfLoops) st).results = st.results ++
      (es.filter (takes nodeId accept dedupeSelfLoops st.selfLoopEdgeIds)).map toRecord := by
  induction es generalizing st with
  | nil => simp
  | cons entry es ih =>
    obtain ⟨hent, hrest⟩ := nodup_cons.mp hnd
    rw [foldl_cons, ih hrest, collectEntry_eq, filter_cons]
    by_cases htakes : takes nodeId accept dedupeSelfLoops st.selfLoopEdgeIds entry = true
    · rw [if_pos htakes, if_pos htakes, map_cons]
      have hfollow : es.filter (takes nodeId accept dedupeSelfLoops (if entry.neighborId = nodeId
            then entry.edgeId :: st.selfLoopEdgeIds else st.selfLoopEdgeIds)) =
          es.filter (takes nodeId accept dedupeSelfLoops st.selfLoopEdgeIds) := by
        apply filter_congr
        intro other hoth
        have hne : other.edgeId ≠ entry.edgeId := fun heq => hent (heq ▸ mem_map_of_mem hoth)
        split
        · simp [takes, hne]
        · rfl
      rw [hfollow, append_assoc, singleton_append]
    · rw [if_neg htakes, if_neg htakes]

theorem mem_selfLoops {st : Collected} {edgeId : ℕ} :
    edgeId ∈ (es.foldl (collectEntry nodeId accept 0 false) st).selfLoopEdgeIds ↔ edgeId ∈ st.selfLoopEdgeIds ∨
      ∃ entry ∈ es, accept entry = true ∧ entry.neighborId = nodeId ∧ edgeId = entry.edgeId := by
  induction es generalizing st with
  | nil => simp
  | cons entry es ih =>
    rw [foldl_cons, ih, collectEntry_eq]
    by_cases haccept : accept entry = true
    · by_cases hself : entry.neighborId = nodeId
      · simp [takes, haccept, hself, or_assoc, or_left_comm]
      · simp [takes, haccept, hself]
    · simp [takes, haccept]

theorem takes_all (entry : AdjEntry) : takes nodeId accept false [] entry = accept entry := by simp [takes]

variable {cell : EdgeRecord → ℕ → AdjEntry} {view : ℕ → Option EdgeRecord} {outEntries inEntries : List AdjEntry}

structure NamesEdge (cell : EdgeRecord → ℕ → AdjEntry) : Prop where
  edgeId : ∀ edge neighbor, (cell edge neighbor).edgeId = edge.id
  neighborId : ∀ edge neighbor, (cell edge neighbor).neighborId = neighbor

theorem collectBoth_results (hout : Cells cell view nodeId source target outEntries)
    (hin : Cells cell view nodeId target source inEntries) :
    collectNeighbors nodeId .both accept 0 outEntries inEntries = (outEntries.filter accept).map toRecord ++
      (inEntries.filter (takes nodeId accept true
        (outEntries.foldl (collectEntry nodeId accept 0 false) ⟨[], []⟩).selfLoopEdgeIds)).map toRecord := by
  simp only [collectNeighbors]
  rw [collect_results true hin.nodup, collect_results false hout.nodup, nil_append, filter_congr fun entry _ => takes_all entry]

/-- A self loop among the incoming entries is taken exactly if it is not taken among the outgoing ones. -/
theorem takes_incoming (hcell : NamesEdge cell) (hout : Cells cell view nodeId source target outEntries)
    (hin : Cells cell view nodeId target source inEntries) {entry : AdjEntry} (hent : entry ∈ inEntries) :
    takes nodeId accept true (outEntries.foldl (collectEntry nodeId accept 0 false) ⟨[], []⟩).selfLoopEdgeIds entry = true ↔
      accept entry = true ∧ entry.neighborId ≠ nodeId := by
  obtain ⟨edge, hview, htgt, rfl⟩ := (hin.mem entry).mp hent
  rw [takes, Bool.and_eq_true, Bool.not_eq_true', Bool.and_true, Bool.and_eq_false_iff, decide_eq_false_iff_not,
    decide_eq_false_iff_not, mem_selfLoops]
  refine and_congr_right fun haccept => ⟨fun h hself => ?_, Or.inl⟩
  refine h.elim (fun hne => hne hself) fun hnot => hnot (Or.inr ⟨cell edge edge.target, ?_, ?_, ?_, ?_⟩)
  · rw [hcell.edgeId] at hview
    refine (hout.mem _).mpr ⟨edge, by rw [hcell.edgeId, hview], ?_, rfl⟩
    rwa [hcell.neighborId] at hself
  · rw [hcell.neighborId] at hself
    rwa [htgt, ← hself]
  · rw [hcell.neighborId, htgt]
  · rw [hcell.edgeId, hcell.edgeId]

theorem mem_taken {pick : AdjEntry → Bool}
    (h : Cells cell view nodeId endpoint neighbor es) {rec : NeighborRecord} : rec ∈ (es.filter pick).map toRecord ↔
      ∃ edge, view rec.edgeId = some edge ∧ endpoint edge = nodeId ∧ cell edge (neighbor edge) ∈ es ∧
        pick (cell edge (neighbor edge)) = true ∧ toRecord (cell edge (neighbor edge)) = rec := by
  rw [mem_map]
  constructor
  · rintro ⟨entry, hent, rfl⟩
    obtain ⟨hmem, hpick⟩ := mem_filter.mp hent
    obtain ⟨edge, hedge, hend, rfl⟩ := (h.mem entry).mp hmem
    exact ⟨edge, hedge, hend, hmem, hpick, rfl⟩
  · rintro ⟨edge, hedge, hend, hmem, hpick, rfl⟩
    exact ⟨_, mem_filter.mpr ⟨hmem, hpick⟩, rfl⟩

theorem nodup_taken (hnd : (es.map AdjEntry.edgeId).Nodup) (pick : AdjEntry → Bool) :
    (((es.filter pick).map toRecord).map edgeId).Nodup := by
  rw [map_map]
  exact (filter_sublist.map AdjEntry.edgeId).nodup hnd

/-- What a layer gathers at a node is what its edges offer there. -/
theorem lists_collectNeighbors (accept : AdjEntry → Bool) (hcell : NamesEdge cell) (hview : ∀ id edge, view id = some edge → edge.id = id)
    (hout : Cells cell view nodeId source target outEntries)
    (hin : Cells cell view nodeId target source inEntries) (dir : Direction) :
    Lists edgeId (collectNeighbors nodeId dir accept 0 outEntries inEntries)
      (fun edgeId => (((view edgeId).bind (entryAt cell nodeId dir)).filter accept).map toRecord) := by
  have hoff : ∀ rec : NeighborRecord,
      ((((view rec.edgeId).bind (entryAt cell nodeId dir)).filter accept).map toRecord = some rec ↔
        ∃ edge, view rec.edgeId = some edge ∧ ∃ entry, entryAt cell nodeId dir edge = some entry ∧
          accept entry = true ∧ toRecord entry = rec) := by
    intro rec
    rw [map_eq_some_iff]
    simp only [filter_eq_some_iff, bind_eq_some_iff]
    constructor
    · rintro ⟨entry, ⟨⟨edge, hedge, hat⟩, haccept⟩, hrec⟩
      exact ⟨edge, hedge, entry, hat, haccept, hrec⟩
    · rintro ⟨edge, hedge, entry, hat, haccept, hrec⟩
      exact ⟨entry, ⟨⟨edge, hedge, hat⟩, haccept⟩, hrec⟩
  have hinOut : ∀ edge, view edge.id = some edge → edge.source = nodeId → cell edge edge.target ∈ outEntries :=
    fun edge hedge hsrc => (hout.mem _).mpr ⟨edge, by rw [hcell.edgeId, hedge], hsrc, rfl⟩
  have hinIn : ∀ edge, view edge.id = some edge → edge.target = nodeId → cell edge edge.source ∈ inEntries :=
    fun edge hedge htgt => (hin.mem _).mpr ⟨edge, by rw [hcell.edgeId, hedge], htgt, rfl⟩
  have hown : ∀ id edge, view id = some edge → view edge.id = some edge := fun id edge hedge => by rw [hview id edge hedge, hedge]
  cases dir with
  | outgoing =>
    have hresu : collectNeighbors nodeId .outgoing accept 0 outEntries inEntries = (outEntries.filter accept).map toRecord := by
      simp only [collectNeighbors]
      rw [collect_results false hout.nodup, nil_append, filter_congr fun entry _ => takes_all entry]
    rw [hresu]
    refine ⟨nodup_taken hout.nodup accept, fun rec => ?_⟩
    rw [hoff, mem_taken hout]
    constructor
    · rintro ⟨edge, hedge, hsrc, -, haccept, hrec⟩
      exact ⟨edge, hedge, _, if_pos hsrc, haccept, hrec⟩
    · rintro ⟨edge, hedge, entry, hat, haccept, hrec⟩
      obtain ⟨hsrc, hent⟩ := ite_none_right_eq_some.mp hat
      obtain rfl := some.inj hent
      exact ⟨edge, hedge, hsrc, hinOut edge (hown _ _ hedge) hsrc, haccept, hrec⟩
  | incoming =>
    have hresu : collectNeighbors nodeId .incoming accept 0 outEntries inEntries = (inEntries.filter accept).map toRecord := by
      simp only [collectNeighbors]
      rw [collect_results false hin.nodup, nil_append, filter_congr fun entry _ => takes_all entry]
    rw [hresu]
    refine ⟨nodup_taken hin.nodup accept, fun rec => ?_⟩
    rw [hoff, mem_taken hin]
    constructor
    · rintro ⟨edge, hedge, htgt, -, haccept, hrec⟩
      exact ⟨edge, hedge, _, if_pos htgt, haccept, hrec⟩
    · rintro ⟨edge, hedge, entry, hat, haccept, hrec⟩
      obtain ⟨htgt, hent⟩ := ite_none_right_eq_some.mp hat
      obtain rfl := some.inj hent
      exact ⟨edge, hedge, htgt, hinIn edge (hown _ _ hedge) htgt, haccept, hrec⟩
  | both =>
    rw [collectBoth_results hout hin]
    refine ⟨?_, fun rec => ?_⟩
    · rw [map_append]
      refine Nodup.append (nodup_taken hout.nodup _) (nodup_taken hin.nodup _) ?_
      intro id hfst hsnd
      obtain ⟨rec, hrec, rfl⟩ := mem_map.mp hfst
      obtain ⟨other, hoth, hsame⟩ := mem_map.mp hsnd
      obtain ⟨edge, hedge, hsrc, -⟩ := (mem_taken hout).mp hrec
      obtain ⟨edge', hedge', -, hmem, htakes, -⟩ := (mem_taken hin).mp hoth
      rw [hsame, hedge] at hedge'
      obtain rfl := some.inj hedge'
      have hne := ((takes_incoming hcell hout hin hmem).mp htakes).2
      rw [hcell.neighborId] at hne
      exact hne hsrc
    · rw [hoff, mem_append, mem_taken hout, mem_taken hin]
      constructor
      · rintro (⟨edge, hedge, hsrc, -, haccept, hrec⟩ | ⟨edge, hedge, htgt, hmem, htakes, hrec⟩)
        · exact ⟨edge, hedge, _, if_pos hsrc, haccept, hrec⟩
        · obtain ⟨haccept, hne⟩ := (takes_incoming hcell hout hin hmem).mp htakes
          rw [hcell.neighborId] at hne
          exact ⟨edge, hedge, _, (if_neg hne).trans (if_pos htgt), haccept, hrec⟩
      · rintro ⟨edge, hedge, entry, hat, haccept, hrec⟩
        by_cases hsrc : edge.source = nodeId
        · have hent := (if_pos hsrc).symm.trans hat
          obtain rfl := some.inj hent
          exact Or.inl ⟨edge, hedge, hsrc, hinOut edge (hown _ _ hedge) hsrc, haccept, hrec⟩
        · obtain ⟨htgt, hent⟩ := ite_none_right_eq_some.mp ((if_neg hsrc).symm.trans hat)
          obtain rfl := some.inj hent
          have hmem := hinIn edge (hown _ _ hedge) htgt
          refine Or.inr ⟨edge, hedge, htgt, hmem, (takes_incoming hcell hout hin hmem).mpr ⟨haccept, ?_⟩, hrec⟩
          rwa [hcell.neighborId]

end

theorem namesEdge_adjEntry : NamesEdge adjEntry := ⟨fun _ _ => rfl, fun _ _ => rfl⟩

theorem namesEdge_storedPosting : NamesEdge storedPosting := ⟨fun _ _ => rfl, fun _ _ => rfl⟩

theorem cells_adjEntriesAt {adj : MembershipMap (ℕ × ℕ) AdjEntry} {s : ℕ} {view : ℕ → Option EdgeRecord} (hview : ∀ id edge, view id = some edge → edge.id = id)
    (hmem : ∀ owner member entry, ((owner, member), entry) ∈ visibleEntries adj s ↔
      ∃ edge, view member = some edge ∧ endpoint edge = owner ∧ entry = adjEntry edge (neighbor edge)) (nodeId : ℕ) :
    Cells adjEntry view nodeId endpoint neighbor (adjEntriesAt s adj nodeId) := by
  have hents : ∀ cell, cell ∈ (visibleEntries adj s).filter (fun entry => entry.1.1 = nodeId) →
      ∃ edge, view cell.1.2 = some edge ∧ endpoint edge = nodeId ∧ cell = ((nodeId, edge.id), adjEntry edge (neighbor edge)) := by
    rintro ⟨⟨owner, member⟩, entry⟩ hcell
    obtain ⟨hvis, howner⟩ := mem_filter.mp hcell
    obtain ⟨edge, hedge, hend, rfl⟩ := (hmem owner member entry).mp hvis
    obtain rfl := of_decide_eq_true howner
    exact ⟨edge, hedge, hend, by rw [hview member edge hedge]⟩
  refine ⟨?_, fun entry => ?_⟩
  · rw [adjEntriesAt, map_map]
    refine Nodup.map_on ?_ ((SnapshotStability.nodup_filterMap_keys adj.nodupKeys fun _ slot => (slot.readAt s).join).filter _)
    intro fst hfst snd hsnd hsame
    obtain ⟨edge, hedge, -, rfl⟩ := hents fst hfst
    obtain ⟨other, hoth, -, rfl⟩ := hents snd hsnd
    have hid : edge.id = other.id := hsame
    have heds : some edge = some other := hedge.symm.trans ((congrArg view hid).trans hoth)
    rw [some.inj heds]
  · rw [adjEntriesAt, mem_map]
    constructor
    · rintro ⟨cell, hcell, rfl⟩
      obtain ⟨edge, hedge, hend, rfl⟩ := hents cell hcell
      exact ⟨edge, hedge, hend, rfl⟩
    · rintro ⟨edge, hedge, hend, rfl⟩
      refine ⟨((nodeId, edge.id), adjEntry edge (neighbor edge)), mem_filter.mpr ⟨?_, decide_eq_true rfl⟩, rfl⟩
      exact (hmem _ _ _).mpr ⟨edge, hedge, hend, rfl⟩

variable {seg : Segment}

theorem cells_adjPostings (hids : ∀ id edge, seg.edges.lookup id = some edge → edge.id = id)
    (nodeId : ℕ) (endpoint neighbor : EdgeRecord → ℕ) :
    Cells storedPosting (seg.edges.lookup ·) nodeId endpoint neighbor (adjPostings seg nodeId endpoint neighbor) := by
  have hkey : ∀ entry ∈ seg.edges.entries, entry.2.id = entry.1 := fun entry hent => hids entry.1 entry.2 (AList.mem_lookup_iff.mpr hent)
  refine ⟨?_, fun entry => ?_⟩
  · rw [adjPostings, ((perm_insertionSort _ _).map _).nodup_iff, map_map]
    refine Nodup.map_on ?_ ((Nodup.of_map Sigma.fst seg.edges.keys_nodup).filter _)
    intro fst hfst snd hsnd hsame
    have hfst' := (mem_filter.mp hfst).1
    have hsnd' := (mem_filter.mp hsnd).1
    have hid : fst.1 = snd.1 := (hkey fst hfst').symm.trans (hsame.trans (hkey snd hsnd'))
    exact inj_on_of_nodup_map seg.edges.keys_nodup hfst' hsnd' hid
  · rw [adjPostings, (perm_insertionSort _ _).mem_iff, mem_map]
    constructor
    · rintro ⟨stored, hsto, rfl⟩
      obtain ⟨hmem, hend⟩ := mem_filter.mp hsto
      refine ⟨stored.2, ?_, of_decide_eq_true hend, rfl⟩
      rw [show (storedPosting stored.2 (neighbor stored.2)).edgeId = stored.1 from hkey stored hmem]
      exact AList.mem_lookup_iff.mpr hmem
    · rintro ⟨edge, hedge, hend, rfl⟩
      exact ⟨⟨_, edge⟩, mem_filter.mpr ⟨AList.mem_lookup_iff.mp hedge, decide_eq_true hend⟩, rfl⟩

/-- The memtables are runs of operations that the snapshot covers, and the segments store edges under their identifiers. -/
structure Stored (sl : SourceList) : Prop where
  memtables : ∀ m ∈ sl.active :: sl.immutable, ∃ ops, m = ofOps ops ∧ ∀ op ∈ ops, op.1 ≤ sl.snapshotSeq
  segments : ∀ seg ∈ sl.segments, ∀ id edge, seg.edges.lookup id = some edge → edge.id = id

theorem Stored.wellFormed {sl : SourceList} (h : Stored sl) : sl.WellFormed where
  settled m hm := by
    obtain ⟨ops, rfl, hseq⟩ := h.memtables m hm
    exact settledBy_ofOps hseq
  tombstones m hm := by
    obtain ⟨ops, rfl, -⟩ := h.memtables m hm
    exact tombstonesAgree_ofOps ops

variable {cell : EdgeRecord → ℕ → AdjEntry}

section
variable {nodeId : ℕ} {dir : Direction} {fids : Option (List ℕ)}

theorem lists_neighborsAt {ops : List SeqOp} {s : ℕ} (h : ∀ op ∈ ops, op.1 ≤ s) :
    Lists edgeId (neighborsAt nodeId dir fids (ofOps ops) s)
      (memtableOffer nodeId dir fids s (ofOps ops)) := by
  by_cases hdel : (ofOps ops).isNodeDeletedAt nodeId s = true
  · refine ⟨?_, fun rec => ?_⟩ <;> simp [neighborsAt, memtableOffer, hdel]
  · have hview : ∀ id edge, edgesAfter ops id = some edge → edge.id = id := fun id edge hedge =>
      edgeLog_id (join_eq_some_iff.mp hedge)
    have hout := cells_adjEntriesAt hview (fun _ _ _ => AdjacencyCells.mem_adjOut h) nodeId
    have hin := cells_adjEntriesAt hview (fun _ _ _ => AdjacencyCells.mem_adjIn h) nodeId
    have hls := lists_collectNeighbors (fun entry => labelAccepted fids entry &&
      !(ofOps ops).isNodeDeletedAt entry.neighborId s) namesEdge_adjEntry hview hout hin dir
    have hget : ∀ edgeId, (ofOps ops).getEdgeAt edgeId s = edgesAfter ops edgeId := fun edgeId => by
      rw [(settledBy_ofOps h).getEdgeAt, currentEdge_ofOps]
    rw [neighborsAt, if_neg hdel]
    refine ⟨hls.nodup, fun rec => ?_⟩
    rw [hls.mem, memtableOffer, if_neg hdel, hget]

theorem lists_active {sl : SourceList} (h : Stored sl) : Lists edgeId (neighborsAt nodeId dir fids sl.active sl.snapshotSeq)
    (memtableOffer nodeId dir fids sl.snapshotSeq sl.active) := by
  obtain ⟨ops, hact, hops⟩ := h.memtables sl.active mem_cons_self
  rw [hact]
  exact lists_neighborsAt hops

theorem entryAt_edgeId (hcell : NamesEdge cell) {edge : EdgeRecord} {entry : AdjEntry}
    (h : entryAt cell nodeId dir edge = some entry) : entry.edgeId = edge.id := by
  cases dir with
  | outgoing =>
    obtain ⟨-, hent⟩ := ite_none_right_eq_some.mp h
    rw [← some.inj hent, hcell.edgeId]
  | incoming =>
    obtain ⟨-, hent⟩ := ite_none_right_eq_some.mp h
    rw [← some.inj hent, hcell.edgeId]
  | both =>
    rw [entryAt] at h
    split at h
    · rw [← some.inj h, hcell.edgeId]
    · obtain ⟨-, hent⟩ := ite_none_right_eq_some.mp h
      rw [← some.inj hent, hcell.edgeId]

theorem lists_segmentNeighbors (hids : ∀ id edge, seg.edges.lookup id = some edge → edge.id = id) :
    Lists edgeId (segmentNeighbors nodeId dir fids seg)
      (segmentOffer nodeId dir fids seg) := by
  have hls := lists_collectNeighbors (fun entry => labelAccepted fids entry &&
    !seg.isEdgeDeleted entry.edgeId && !seg.isNodeDeleted entry.neighborId) namesEdge_storedPosting hids
    (cells_adjPostings hids nodeId source target)
    (cells_adjPostings hids nodeId target source) dir
  have hoff : ∀ edgeId, ((seg.edges.lookup edgeId).bind (entryAt storedPosting nodeId dir)).filter (fun entry =>
      labelAccepted fids entry && !seg.isEdgeDeleted entry.edgeId && !seg.isNodeDeleted entry.neighborId) =
      ((seg.getEdge edgeId).bind (entryAt storedPosting nodeId dir)).filter fun entry =>
        labelAccepted fids entry && !seg.isNodeDeleted entry.neighborId := by
    intro edgeId
    rw [Segment.getEdge]
    cases hedge : seg.edges.lookup edgeId with
    | none => simp
    | some edge =>
      have hdel : ∀ entry ∈ entryAt storedPosting nodeId dir edge, seg.isEdgeDeleted entry.edgeId = seg.isEdgeDeleted edgeId :=
        fun entry hent => by rw [entryAt_edgeId namesEdge_storedPosting hent, hids edgeId edge hedge]
      rw [bind_some]
      cases hat : entryAt storedPosting nodeId dir edge with
      | none => cases seg.isEdgeDeleted edgeId <;> simp [hat]
      | some entry =>
        rw [filter_some, hdel entry hat]
        cases seg.isEdgeDeleted edgeId <;> simp [hat, filter_some]
  refine ⟨hls.nodup, fun rec => ?_⟩
  rw [segmentNeighbors, hls.mem, segmentOffer, hoff]

end

section
variable (sl : SourceList) (nodeId : ℕ) (dir : Direction) (fids : Option (List ℕ))

/-- The first of the older layers that shows the edge at the node. -/
def olderOffer (edgeId : ℕ) : Option NeighborRecord :=
  (sl.immutable.findSome? fun m => memtableOffer nodeId dir fids sl.snapshotSeq m edgeId).or
    (sl.segments.findSome? fun seg => segmentOffer nodeId dir fids seg edgeId)

/-- The edge is taken from the newest layer that shows it at the node; if that is not the active memtable,
no layer may have a tombstone for the edge or its other end. -/
def neighborFound (edgeId : ℕ) : Option NeighborRecord :=
  (memtableOffer nodeId dir fids sl.snapshotSeq sl.active edgeId).or
    ((olderOffer sl nodeId dir fids edgeId).filter fun rec => !isEdgeTombstoned sl edgeId && !isNodeTombstoned sl rec.nodeId)

end

section
variable {sl : SourceList} {nodeId : ℕ} {dir : Direction} {fids : Option (List ℕ)}

variable {rec : NeighborRecord} {edgeId : ℕ}

theorem entryAt_toRecord_edgeId (hcell : NamesEdge cell) {view : Option EdgeRecord}
    (hview : ∀ edge, view = some edge → edge.id = edgeId) {accept : AdjEntry → Bool}
    (h : ((view.bind (entryAt cell nodeId dir)).filter accept).map toRecord = some rec) : rec.edgeId = edgeId := by
  obtain ⟨entry, hent, rfl⟩ := map_eq_some_iff.mp h
  obtain ⟨edge, hedge, hat⟩ := bind_eq_some_iff.mp (filter_eq_some_iff.mp hent).1
  exact (entryAt_edgeId hcell hat).trans (hview edge hedge)

theorem memtableOffer_edgeId {ops : List SeqOp} {s : ℕ} (h : ∀ op ∈ ops, op.1 ≤ s)
    (hoff : memtableOffer nodeId dir fids s (ofOps ops) edgeId = some rec) : rec.edgeId = edgeId := by
  rw [memtableOffer] at hoff
  split at hoff
  · cases hoff
  · refine entryAt_toRecord_edgeId namesEdge_adjEntry (fun edge hedge => ?_) hoff
    rw [(settledBy_ofOps h).getEdgeAt, currentEdge_ofOps] at hedge
    exact edgeLog_id (join_eq_some_iff.mp hedge)

theorem segmentOffer_edgeId (hids : ∀ id edge, seg.edges.lookup id = some edge → edge.id = id)
    (hoff : segmentOffer nodeId dir fids seg edgeId = some rec) : rec.edgeId = edgeId := by
  refine entryAt_toRecord_edgeId namesEdge_storedPosting (fun edge hedge => ?_) hoff
  rw [Segment.getEdge] at hedge
  split at hedge
  · cases hedge
  · exact hids edgeId edge hedge

def olderLists (sl : SourceList) (nodeId : ℕ) (dir : Direction) (fids : Option (List ℕ)) :
    List (List NeighborRecord × (ℕ → Option NeighborRecord)) :=
  (sl.immutable.map fun m => (neighborsAt nodeId dir fids m sl.snapshotSeq, memtableOffer nodeId dir fids sl.snapshotSeq m)) ++
    sl.segments.map fun seg => (segmentNeighbors nodeId dir fids seg, segmentOffer nodeId dir fids seg)

theorem olderLists_lists (h : Stored sl) (nodeId : ℕ) (dir : Direction) (fids : Option (List ℕ)) :
    ∀ l ∈ olderLists sl nodeId dir fids, Lists NeighborRecord.edgeId l.1 l.2 ∧ ∀ edgeId rec, l.2 edgeId = some rec → rec.edgeId = edgeId := by
  intro l hl
  obtain hl | hl := mem_append.mp hl
  · obtain ⟨m, hm, rfl⟩ := mem_map.mp hl
    obtain ⟨ops, rfl, hops⟩ := h.memtables m (mem_cons_of_mem _ hm)
    exact ⟨lists_neighborsAt hops, fun _ _ => memtableOffer_edgeId hops⟩
  · obtain ⟨seg, hseg, rfl⟩ := mem_map.mp hl
    exact ⟨lists_segmentNeighbors (h.segments seg hseg), fun _ _ => segmentOffer_edgeId (h.segments seg hseg)⟩

theorem olderLists_read : (olderLists sl nodeId dir fids).map (·.1) =
    (sl.immutable.map fun m => neighborsAt nodeId dir fids m sl.snapshotSeq) ++ sl.segments.map (segmentNeighbors nodeId dir fids) := by
  rw [olderLists, map_append, map_map, map_map]
  rfl

theorem olderLists_offer : (olderLists sl nodeId dir fids).findSome? (·.2 edgeId) = olderOffer sl nodeId dir fids edgeId := by
  rw [olderLists, findSome?_append, findSome?_map, findSome?_map]
  rfl

section
variable (h : Stored sl)
include h

theorem olderOffer_edgeId (hoff : olderOffer sl nodeId dir fids edgeId = some rec) : rec.edgeId = edgeId := by
  rw [← olderLists_offer] at hoff
  obtain ⟨l, hl, hoff⟩ := exists_of_findSome?_eq_some hoff
  exact (olderLists_lists h nodeId dir fids l hl).2 _ _ hoff

theorem activeOffer_edgeId (hoff : memtableOffer nodeId dir fids sl.snapshotSeq sl.active edgeId = some rec) : rec.edgeId = edgeId := by
  obtain ⟨ops, hact, hops⟩ := h.memtables sl.active mem_cons_self
  rw [hact] at hoff
  exact memtableOffer_edgeId hops hoff

theorem neighborFound_edgeId (hfnd : neighborFound sl nodeId dir fids edgeId = some rec) : rec.edgeId = edgeId := by
  rw [neighborFound, or_eq_some_iff] at hfnd
  obtain hfnd | ⟨-, hfnd⟩ := hfnd
  · exact activeOffer_edgeId h hfnd
  · exact olderOffer_edgeId h (filter_eq_some_iff.mp hfnd).1

/-- A read of the neighbours finds each edge where the layers show it first. -/
theorem mem_neighborsRaw {now : ℤ} : rec ∈ neighborsRaw sl nodeId dir fids now ↔
      neighborFound sl nodeId dir fids rec.edgeId = some rec ∧ isEdgeValidAt rec.validFrom rec.validTo now = true := by
  obtain ⟨ops, hact, hops⟩ := h.memtables sl.active mem_cons_self
  have hls : Lists NeighborRecord.edgeId (neighborsAt nodeId dir fids sl.active sl.snapshotSeq)
      (memtableOffer nodeId dir fids sl.snapshotSeq sl.active) := lists_active h
  have hids : ∀ edgeId rec, memtableOffer nodeId dir fids sl.snapshotSeq sl.active edgeId = some rec → rec.edgeId = edgeId := by
    rw [hact]
    exact fun _ _ => memtableOffer_edgeId hops
  have holder := olderLists_lists h nodeId dir fids
  rw [neighborsRaw, mem_filter, ← olderLists_read]
  refine and_congr_left fun _ => ?_
  rw [mem_merge (fun l hl => (holder l hl).1.mem) (fun l hl => (holder l hl).2), olderLists_offer, hls.mem, mem_ids hls.mem hids, neighborFound]
  cases hoff : memtableOffer nodeId dir fids sl.snapshotSeq sl.active rec.edgeId with
  | some found => simp
  | none =>
    rw [none_or, filter_eq_some_iff]
    simp

theorem nodup_neighborsRaw (now : ℤ) : ((neighborsRaw sl nodeId dir fids now).map NeighborRecord.edgeId).Nodup := by
  obtain ⟨ops, hact, hops⟩ := h.memtables sl.active mem_cons_self
  rw [neighborsRaw]
  refine (filter_sublist.map _).nodup (Merged.Distinct.nodup (Merged.Distinct.merge ⟨?_, ?_⟩))
  · rw [hact]
    exact (lists_neighborsAt hops).nodup
  · exact fun rec hrec => mem_map_of_mem hrec

end

end

end OverGraph.AdjacencyReads
