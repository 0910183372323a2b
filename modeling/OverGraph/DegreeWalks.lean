import OverGraph.AdjacencyReads

/-!
# Counting the edges at a node by a walk

The walk goes through the layers as a read of the neighbours does, and counts the edges and adds up their
weights on the way. Where no layer hides a visible edge it counts the visible edges at the node.
-/

namespace OverGraph.DegreeWalks
open Option hiding any_eq_false filter_filter filter_map map_map mem_map mem_map_of_mem merge or_assoc
open Records Memtable MemtableState LayeredWrites Segments Sources SnapshotReads FirstSeen AdjacencyReads Tallies NeighborRecord EdgeRecord SourceList
open List hiding merge
open Degrees (isEdgeValidAt)

section
variable {W : Type} [AddCommGroup W] (val : F32 → W)

structure WalkState (W : Type) where
  count : ℕ
  weightSum : W
  seenEdges : List ℕ

/-- The active memtable shadows the other layers first. -/
def visitActive (refTime : ℤ) (st : WalkState W) (r : NeighborRecord) : WalkState W :=
  let st := { st with seenEdges := r.edgeId :: st.seenEdges }
  if isEdgeValidAt r.validFrom r.validTo refTime then
    { st with count := st.count + 1, weightSum := st.weightSum + val r.weight }
  else st

def visitOlder (sl : SourceList) (refTime : ℤ) (st : WalkState W) (r : NeighborRecord) : WalkState W :=
  if r.edgeId ∈ st.seenEdges then st
  else
    let st := { st with seenEdges := r.edgeId :: st.seenEdges }
    if isEdgeTombstoned sl r.edgeId || isNodeTombstoned sl r.nodeId then st
    else if isEdgeValidAt r.validFrom r.validTo refTime then
      { st with count := st.count + 1, weightSum := st.weightSum + val r.weight }
    else st

/-- The postings of a segment, where a self loop comes in both directions. -/
def forEachAdjPosting (seg : Segment) (nodeId : ℕ) (dir : Direction) (fids : Option (List ℕ)) : List NeighborRecord :=
  let accept := fun entry : AdjEntry => labelAccepted fids entry && !seg.isEdgeDeleted entry.edgeId &&
    !seg.isNodeDeleted entry.neighborId
  let outgoing := ((adjPostings seg nodeId EdgeRecord.source EdgeRecord.target).filter accept).map toRecord
  let incoming := ((adjPostings seg nodeId EdgeRecord.target EdgeRecord.source).filter accept).map toRecord
  match dir with
  | .outgoing => outgoing
  | .incoming => incoming
  | .both => outgoing ++ incoming

/-- A memtable is visited in the order in which its neighbours are collected. -/
def degreeStatsRawWalk (sl : SourceList) (nodeId : ℕ) (dir : Direction) (fids : Option (List ℕ))
    (refTime : ℤ) : ℕ × W :=
  let st := (neighborsAt nodeId dir fids sl.active sl.snapshotSeq).foldl (visitActive val refTime) ⟨0, 0, []⟩
  let st := sl.immutable.foldl (fun st m => (neighborsAt nodeId dir fids m sl.snapshotSeq).foldl (visitOlder val sl refTime) st) st
  let st := sl.segments.foldl (fun st seg => (forEachAdjPosting seg nodeId dir fids).foldl (visitOlder val sl refTime) st) st
  (st.count, st.weightSum)

end

section
variable {W : Type} [AddCommGroup W] {val : F32 → W} {sl : SourceList} {refTime : ℤ}

def keptRecord (sl : SourceList) (r : NeighborRecord) : Bool := !isEdgeTombstoned sl r.edgeId && !isNodeTombstoned sl r.nodeId

def validRecord (refTime : ℤ) (r : NeighborRecord) : Bool := isEdgeValidAt r.validFrom r.validTo refTime

/-- The walk has counted what the read has taken so far. -/
structure Follows (val : F32 → W) (refTime : ℤ) (walk : WalkState W) (read : Merged ℕ NeighborRecord) : Prop where
  count : walk.count = (read.results.filter (validRecord refTime)).length
  weightSum : walk.weightSum = ((read.results.filter (validRecord refTime)).map (val ·.weight)).sum
  seen : ∀ id, id ∈ walk.seenEdges ↔ id ∈ read.seen

variable {walk : WalkState W} {read : Merged ℕ NeighborRecord}

section
variable (h : Follows val refTime walk read)
include h

theorem Follows.take (r : NeighborRecord) : Follows val refTime (visitActive val refTime walk r)
      ⟨read.results ++ [r], r.edgeId :: read.seen⟩ := by
  have hseen : ∀ id, id ∈ r.edgeId :: walk.seenEdges ↔ id ∈ r.edgeId :: read.seen := fun id => by rw [mem_cons, mem_cons, h.seen]
  have hunfold : isEdgeValidAt r.validFrom r.validTo refTime = validRecord refTime r := rfl
  rw [visitActive, hunfold]
  by_cases hvd : validRecord refTime r = true
  · rw [if_pos hvd]
    refine ⟨?_, ?_, hseen⟩
    · rw [filter_append, filter_cons_of_pos hvd, length_append, ← h.count]
      rfl
    · rw [filter_append, filter_cons_of_pos hvd, map_append, sum_append, ← h.weightSum]
      simp
  · rw [if_neg hvd]
    refine ⟨?_, ?_, hseen⟩
    · rw [filter_append, filter_cons_of_neg hvd, filter_nil, append_nil]
      exact h.count
    · rw [filter_append, filter_cons_of_neg hvd, filter_nil, append_nil]
      exact h.weightSum

theorem Follows.older (r : NeighborRecord) : Follows val refTime (visitOlder val sl refTime walk r)
      (see edgeId (keptRecord sl) read r) := by
  rw [visitOlder, see]
  by_cases hseen : r.edgeId ∈ read.seen
  · rw [if_pos hseen, if_pos ((h.seen _).mpr hseen)]
    exact h
  · rw [if_neg hseen, if_neg fun hmem => hseen ((h.seen _).mp hmem)]
    by_cases hkept : keptRecord sl r = true
    · have hnot : (isEdgeTombstoned sl r.edgeId || isNodeTombstoned sl r.nodeId) = false := by
        rw [keptRecord, Bool.and_eq_true, Bool.not_eq_true', Bool.not_eq_true'] at hkept
        rw [hkept.1, hkept.2]
        rfl
      rw [if_pos hkept]
      simp only [hnot, Bool.false_eq_true, if_false]
      exact h.take r
    · have htomb : (isEdgeTombstoned sl r.edgeId || isNodeTombstoned sl r.nodeId) = true := by
        rw [keptRecord, ← Bool.not_or, Bool.not_eq_true', Bool.not_eq_false] at hkept
        exact hkept
      rw [if_neg hkept]
      simp only [htomb, if_true]
      exact ⟨h.count, h.weightSum, fun id => by rw [mem_cons, mem_cons, h.seen]⟩

theorem Follows.olderList (list : List NeighborRecord) :
    Follows val refTime (list.foldl (visitOlder val sl refTime) walk)
      (list.foldl (see edgeId (keptRecord sl)) read) := by
  induction list generalizing walk read with
  | nil => exact h
  | cons r list ih => exact ih (h.older r)

end

theorem Follows.activeList (list : List NeighborRecord) (h : Follows val refTime walk read) :
    ∃ seen, (∀ id, id ∈ seen ↔ id ∈ list.map edgeId ∨ id ∈ read.seen) ∧
      Follows val refTime (list.foldl (visitActive val refTime) walk) ⟨read.results ++ list, seen⟩ := by
  induction list generalizing walk read with
  | nil =>
    refine ⟨read.seen, by simp, ?_⟩
    rwa [append_nil]
  | cons r list ih =>
    obtain ⟨seen, hseen, hfollow⟩ := ih (h.take r)
    refine ⟨seen, fun id => ?_, ?_⟩
    · rw [hseen, mem_cons, map_cons, mem_cons, or_left_comm, or_assoc]
    · rwa [append_assoc] at hfollow

theorem Follows.sameSeen (h : Follows val refTime walk read) {seen : List ℕ} (hseen : ∀ id, id ∈ seen ↔ id ∈ read.seen) :
    Follows val refTime walk ⟨read.results, seen⟩ :=
  ⟨h.count, h.weightSum, fun id => (h.seen id).trans (hseen id).symm⟩

/-- A self loop that comes a second time was seen. -/
theorem foldl_forEachAdjPosting {seg : Segment} (hids : ∀ id edge, seg.edges.lookup id = some edge → edge.id = id) (nodeId : ℕ)
    (dir : Direction) (fids : Option (List ℕ)) (keep : NeighborRecord → Bool) (st : Merged ℕ NeighborRecord) :
    (segmentNeighbors nodeId dir fids seg).foldl (see edgeId keep) st =
      (forEachAdjPosting seg nodeId dir fids).foldl (see edgeId keep) st := by
  have hout := cells_adjPostings hids nodeId source target
  have hin := cells_adjPostings hids nodeId target source
  rw [segmentNeighbors]
  generalize hent : (fun entry : AdjEntry => labelAccepted fids entry && !seg.isEdgeDeleted entry.edgeId &&
    !seg.isNodeDeleted entry.neighborId) = accept
  simp only [forEachAdjPosting, hent]
  cases dir with
  | outgoing =>
    simp only [collectNeighbors]
    rw [collect_results false hout.nodup, nil_append, filter_congr fun entry _ => takes_all entry]
  | incoming =>
    simp only [collectNeighbors]
    rw [collect_results false hin.nodup, nil_append, filter_congr fun entry _ => takes_all entry]
  | both =>
    rw [collectBoth_results hout hin]
    simp only [foldl_append]
    generalize hloops : ((adjPostings seg nodeId source target).foldl (collectEntry nodeId accept 0 false)
      ⟨[], []⟩).selfLoopEdgeIds = selfLoopEdgeIds
    have hsp : ((adjPostings seg nodeId target source).filter (takes nodeId accept true selfLoopEdgeIds)).map
        toRecord = (((adjPostings seg nodeId target source).filter accept).map toRecord).filter
          fun r => !(decide (r.nodeId = nodeId) && decide (r.edgeId ∈ selfLoopEdgeIds)) := by
      rw [filter_map, filter_filter]
      congr 1
      apply filter_congr
      intro entry _
      rw [takes, Bool.and_true, Bool.and_comm]
      rfl
    rw [hsp]
    apply foldl_filter_seen
    intro r _ hskip
    rw [Bool.not_eq_false', Bool.and_eq_true, decide_eq_true_eq, decide_eq_true_eq, ← hloops, mem_selfLoops] at hskip
    obtain ⟨entry, hmem, haccept, -, hid⟩ := hskip.2.resolve_left not_mem_nil
    refine mem_seen_foldl.mpr (Or.inr ?_)
    rw [hid, map_map]
    exact mem_map.mpr ⟨entry, mem_filter.mpr ⟨hmem, haccept⟩, rfl⟩

/-- The walk counts and adds up what the read of the neighbours returns. -/
theorem degreeStatsRawWalk_eq (h : Stored sl) (nodeId : ℕ) (dir : Direction) (fids : Option (List ℕ)) :
    degreeStatsRawWalk val sl nodeId dir fids refTime = ((neighborsRaw sl nodeId dir fids refTime).length,
        ((neighborsRaw sl nodeId dir fids refTime).map (val ·.weight)).sum) := by
  have hst : Follows val refTime ⟨0, 0, []⟩ ⟨[], []⟩ := ⟨rfl, rfl, fun _ => Iff.rfl⟩
  obtain ⟨seen, hseen, hact⟩ := hst.activeList (neighborsAt nodeId dir fids sl.active sl.snapshotSeq)
  have hmems : ∀ (memtables : List MemtableState) (walk : WalkState W) (read : Merged ℕ NeighborRecord),
      Follows val refTime walk read → Follows val refTime
        (memtables.foldl (fun st m => (neighborsAt nodeId dir fids m sl.snapshotSeq).foldl
          (visitOlder val sl refTime) st) walk)
        (merge edgeId (keptRecord sl) read
          (memtables.map fun m => neighborsAt nodeId dir fids m sl.snapshotSeq)) := by
    intro memtables
    induction memtables with
    | nil => exact fun _ _ hfollow => hfollow
    | cons m memtables ih => exact fun _ _ hfollow => ih _ _ (hfollow.olderList _)
  have hsegs : ∀ (segs : List Segment) (walk : WalkState W) (read : Merged ℕ NeighborRecord),
      (∀ seg ∈ segs, ∀ id edge, seg.edges.lookup id = some edge → edge.id = id) →
      Follows val refTime walk read → Follows val refTime
        (segs.foldl (fun st seg => (forEachAdjPosting seg nodeId dir fids).foldl
          (visitOlder val sl refTime) st) walk)
        (merge edgeId (keptRecord sl) read (segs.map (segmentNeighbors nodeId dir fids))) := by
    intro segs
    induction segs with
    | nil => exact fun _ _ _ hfollow => hfollow
    | cons seg segs ih =>
      intro walk read hids hfollow
      refine ih _ _ (fun other hoth => hids other (mem_cons_of_mem _ hoth)) ?_
      dsimp only
      rw [foldl_forEachAdjPosting (hids seg mem_cons_self)]
      exact hfollow.olderList _
  have hsame : ∀ id, id ∈ (neighborsAt nodeId dir fids sl.active sl.snapshotSeq).map edgeId ↔
      id ∈ seen := fun id => by rw [hseen, or_iff_left not_mem_nil]
  have hread := hsegs sl.segments _ _ h.segments (hmems sl.immutable _ _ (hact.sameSeen hsame))
  rw [nil_append, merge, merge, ← foldl_append, ← merge] at hread
  exact Prod.ext hread.count hread.weightSum

end

def atNode (dir : Direction) (nodeId : ℕ) (edge : EdgeRecord) : Bool :=
  match dir with
  | .outgoing => decide (edge.source = nodeId)
  | .incoming => decide (edge.target = nodeId)
  | .both => decide (edge.source = nodeId) || decide (edge.target = nodeId)

variable {dir : Direction} {nodeId : ℕ}

theorem atNode_congr {fst snd : EdgeRecord} (hsrc : fst.source = snd.source)
    (htgt : fst.target = snd.target) : atNode dir nodeId fst = atNode dir nodeId snd := by
  cases dir <;> simp only [atNode, hsrc, htgt]

variable {edge : EdgeRecord}

theorem entryAt_isSome (cell : EdgeRecord → ℕ → AdjEntry) :
    (entryAt cell nodeId dir edge).isSome = atNode dir nodeId edge := by
  cases dir with
  | outgoing => by_cases hsrc : edge.source = nodeId <;> simp [entryAt, atNode, hsrc]
  | incoming => by_cases htgt : edge.target = nodeId <;> simp [entryAt, atNode, htgt]
  | both =>
    by_cases hsrc : edge.source = nodeId
    · simp [entryAt, atNode, hsrc]
    · by_cases htgt : edge.target = nodeId <;> simp [entryAt, atNode, hsrc, htgt]

variable {cell : EdgeRecord → ℕ → AdjEntry}

theorem entryAt_cell {entry : AdjEntry}
    (h : entryAt cell nodeId dir edge = some entry) : ∃ nbr ∈ endpoints edge, entry = cell edge nbr := by
  have hsrc : edge.source ∈ endpoints edge := mem_cons_self
  have htgt : edge.target ∈ endpoints edge := mem_cons_of_mem _ mem_cons_self
  cases dir with
  | outgoing => exact ⟨_, htgt, (some.inj (ite_none_right_eq_some.mp h).2).symm⟩
  | incoming => exact ⟨_, hsrc, (some.inj (ite_none_right_eq_some.mp h).2).symm⟩
  | both =>
    rw [entryAt] at h
    split at h
    · exact ⟨_, htgt, (some.inj h).symm⟩
    · exact ⟨_, hsrc, (some.inj (ite_none_right_eq_some.mp h).2).symm⟩

/-- A record of an edge, as far as a read of the present edges goes. -/
structure Describes (edge : EdgeRecord) (record : NeighborRecord) : Prop where
  edgeId : record.edgeId = edge.id
  nodeId : record.nodeId ∈ endpoints edge
  weight : record.weight = edge.weight
  validFrom : record.validFrom = edge.validFrom
  validTo : edge.validTo = i64Max → record.validTo = i64Max

section
variable (edge : EdgeRecord) {nbr : ℕ} (h : nbr ∈ endpoints edge)
include h

theorem describes_adjEntry : Describes edge (toRecord (adjEntry edge nbr)) := ⟨rfl, h, rfl, rfl, id⟩

theorem describes_storedPosting : Describes edge (toRecord (storedPosting edge nbr)) := by
  refine ⟨rfl, h, rfl, rfl, fun hnever => ?_⟩
  have henc : encodeValidTo edge.validTo = 0 := if_pos hnever
  show decodeValidTo (encodeValidTo edge.validTo) = i64Max
  rw [henc]
  rfl

end

/-- What one layer shows at a node, and what it says about edges and nodes. -/
structure ShownLayer where
  offer : ℕ → Option NeighborRecord
  edges : Opinion ℕ EdgeRecord
  nodes : Opinion ℕ NodeRecord

/-- The layer shows the edges it has at the node and no others, except where it has deleted one of their ends. -/
structure Shows (nodeId : ℕ) (dir : Direction) (layer : ShownLayer) : Prop where
  offered : ∀ id record, layer.offer id = some record →
    ∃ edge, layer.edges id = some (some edge) ∧ atNode dir nodeId edge = true ∧ Describes edge record
  shown : ∀ id edge, layer.edges id = some (some edge) → atNode dir nodeId edge = true →
    (∀ n ∈ endpoints edge, layer.nodes n ≠ some none) → (layer.offer id).isSome

def memtableShown (s nodeId : ℕ) (dir : Direction) (m : MemtableState) : ShownLayer :=
  ⟨memtableOffer nodeId dir none s m, m.edgeOpinion, m.nodeOpinion⟩

def segmentShown (nodeId : ℕ) (dir : Direction) (seg : Segment) : ShownLayer :=
  ⟨segmentOffer nodeId dir none seg, seg.edgeOpinion, seg.nodeOpinion⟩

theorem atNode_endpoint (h : atNode dir nodeId edge = true) : nodeId ∈ endpoints edge := by
  have hsrc : edge.source ∈ endpoints edge := mem_cons_self
  have htgt : edge.target ∈ endpoints edge := mem_cons_of_mem _ mem_cons_self
  cases dir with
  | outgoing => exact of_decide_eq_true h ▸ hsrc
  | incoming => exact of_decide_eq_true h ▸ htgt
  | both =>
    obtain h | h := (Bool.or_eq_true _ _).mp h
    · exact of_decide_eq_true h ▸ hsrc
    · exact of_decide_eq_true h ▸ htgt

variable {accept : AdjEntry → Bool}

theorem offered_of_view (hdesc : ∀ edge nbr, nbr ∈ endpoints edge →
    Describes edge (toRecord (cell edge nbr))) {view : Option EdgeRecord}
    {r : NeighborRecord}
    (h : ((view.bind (entryAt cell nodeId dir)).filter accept).map toRecord = some r) :
    ∃ edge, view = some edge ∧ atNode dir nodeId edge = true ∧ Describes edge r := by
  obtain ⟨entry, hent, rfl⟩ := map_eq_some_iff.mp h
  obtain ⟨edge, hedge, hat⟩ := bind_eq_some_iff.mp (filter_eq_some_iff.mp hent).1
  obtain ⟨nbr, hnbr, rfl⟩ := entryAt_cell hat
  exact ⟨edge, hedge, by rw [← entryAt_isSome cell, hat]; rfl, hdesc edge nbr hnbr⟩

theorem shown_of_view (hat : atNode dir nodeId edge = true)
    (haccept : ∀ nbr ∈ endpoints edge, accept (cell edge nbr) = true) :
    ((((some edge).bind (entryAt cell nodeId dir)).filter accept).map toRecord).isSome := by
  obtain ⟨entry, hent⟩ := isSome_iff_exists.mp ((entryAt_isSome cell).trans hat)
  obtain ⟨nbr, hnbr, rfl⟩ := entryAt_cell hent
  rw [bind_some, hent, filter_some, if_pos (haccept nbr hnbr)]
  rfl

theorem shows_memtable {ops : List SeqOp} {s : ℕ} (h : ∀ op ∈ ops, op.1 ≤ s) (nodeId : ℕ) (dir : Direction) :
    Shows nodeId dir (memtableShown s nodeId dir (ofOps ops)) := by
  have hset := settledBy_ofOps h
  have hgone : ∀ n, (ofOps ops).isNodeDeletedAt n s = true ↔ (ofOps ops).nodeOpinion n = some none := fun n => by
    rw [hset.isNodeDeletedAt]
    exact (tombstonesAgree_ofOps ops).nodes n
  have hedge : ∀ id edge, (ofOps ops).getEdgeAt id s = some edge ↔ (ofOps ops).edgeOpinion id = some (some edge) := fun id edge => by
    rw [hset.getEdgeAt, currentEdge_eq, join_eq_some_iff]
  refine ⟨fun id r hoff => ?_, fun id edge hop hat hends => ?_⟩
  · simp only [memtableShown, memtableOffer] at hoff
    split at hoff
    · cases hoff
    · obtain ⟨edge, hview, hat, hdesc⟩ := offered_of_view (fun edge _ => describes_adjEntry edge) hoff
      exact ⟨edge, (hedge id edge).mp hview, hat, hdesc⟩
  · have hkept : ∀ n ∈ endpoints edge, (ofOps ops).isNodeDeletedAt n s = false := fun n hn =>
      Bool.eq_false_iff.mpr fun hdel => hends n hn ((hgone n).mp hdel)
    have hnode := hkept nodeId (atNode_endpoint hat)
    simp only [memtableShown, memtableOffer, hnode, Bool.false_eq_true, if_false, (hedge id edge).mpr hop]
    refine shown_of_view hat fun nbr hnbr => ?_
    simp [labelAccepted, adjEntry, hkept nbr hnbr]

theorem shows_segment (seg : Segment) (nodeId : ℕ) (dir : Direction) : Shows nodeId dir (segmentShown nodeId dir seg) := by
  have hedge : ∀ id edge, seg.getEdge id = some edge ↔ seg.edgeOpinion id = some (some edge) := fun id edge => by
    rw [Segment.edgeOpinion, Segment.getEdge]
    split <;> simp
  refine ⟨fun id r hoff => ?_, fun id edge hop hat hends => ?_⟩
  · obtain ⟨edge, hview, hat, hdesc⟩ := offered_of_view (fun edge _ => describes_storedPosting edge) hoff
    exact ⟨edge, (hedge id edge).mp hview, hat, hdesc⟩
  · have hkept : ∀ n ∈ endpoints edge, seg.isNodeDeleted n = false := fun n hn =>
      Bool.eq_false_iff.mpr fun hdel => hends n hn (by simp [segmentShown, Segment.nodeOpinion, hdel])
    simp only [segmentShown, segmentOffer, (hedge id edge).mpr hop]
    refine shown_of_view hat fun nbr hnbr => ?_
    have hsto : (storedPosting edge nbr).neighborId = nbr := rfl
    simp [labelAccepted, hsto, hkept nbr hnbr]

/-- No layer hides a visible edge: what the active memtable has is not at a node it has deleted, what the older layers
have was never deleted, nor were its ends, and an edge has stayed at its nodes. -/
structure Walkable (sl : SourceList) : Prop where
  active : ∀ id edge, sl.active.edgeOpinion id = some (some edge) → ∀ n ∈ endpoints edge, sl.active.nodeOpinion n ≠ some none
  older : ∀ id edge, sl.active.edgeOpinion id = none → visible sl.edgeLayers id = some edge →
    (∀ layer ∈ sl.edgeLayers, layer id ≠ some none) ∧ ∀ n ∈ endpoints edge, ∀ layer ∈ sl.nodeLayers, layer n ≠ some none
  stable : ∀ id edge, visible sl.edgeLayers id = some edge → ∀ layer ∈ sl.edgeLayers, ∀ other, layer id = some (some other) →
    other.source = edge.source ∧ other.target = edge.target

section
variable {sl sl' : SourceList} {olderEdges : List (Opinion ℕ EdgeRecord)}

/-- What a write keeps: it leaves the older layers as they are, an edge it writes is at the nodes where the older layers
have it and at none that is deleted there, and a node it deletes has no edges left. -/
theorem Walkable.write (h : Walkable sl) {olderNodes : List (Opinion ℕ NodeRecord)}
    (heds : sl.edgeLayers = sl.active.edgeOpinion :: olderEdges) (heds' : sl'.edgeLayers = sl'.active.edgeOpinion :: olderEdges)
    (hnos : sl.nodeLayers = sl.active.nodeOpinion :: olderNodes) (hnodes' : sl'.nodeLayers = sl'.active.nodeOpinion :: olderNodes)
    (hedge : ∀ id, sl'.active.edgeOpinion id = sl.active.edgeOpinion id ∨ sl'.active.edgeOpinion id = some none ∨
      ∃ edge, sl'.active.edgeOpinion id = some (some edge) ∧ (∀ n ∈ endpoints edge, sl'.active.nodeOpinion n ≠ some none) ∧
        ∀ lay ∈ olderEdges, ∀ other, lay id = some (some other) → other.source = edge.source ∧ other.target = edge.target)
    (hnode : ∀ n, sl'.active.nodeOpinion n = some none → sl.active.nodeOpinion n = some none ∨
      ∀ id edge, visible sl'.edgeLayers id = some edge → n ∉ endpoints edge) : Walkable sl' := by
  have hsame : ∀ id, sl'.active.edgeOpinion id = sl.active.edgeOpinion id → visible sl'.edgeLayers id = visible sl.edgeLayers id :=
    fun id heq => by rw [visible, visible, heds, heds', firstOpinion_cons, firstOpinion_cons, heq]
  have hfst : ∀ id edge, sl'.active.edgeOpinion id = some (some edge) → visible sl'.edgeLayers id = some edge :=
    fun id edge heq => by
      rw [visible, heds', firstOpinion_cons, heq]
      rfl
  refine ⟨fun id edge hact n hn hgone => ?_, fun id edge hsil hvis => ?_, fun id edge hvis lay hlay other hoth => ?_⟩
  · obtain hbef | hleft := hnode n hgone
    · obtain heq | heq | ⟨written, hwr, hkept, -⟩ := hedge id
      · exact h.active id edge (heq ▸ hact) n hn hbef
      · exact absurd (hact.symm.trans heq) (by simp)
      · cases hact.symm.trans hwr
        exact hkept n hn hgone
    · exact hleft id edge (hfst id edge hact) hn
  · have heq : sl'.active.edgeOpinion id = sl.active.edgeOpinion id := by
      obtain heq | heq | ⟨written, hwr, -⟩ := hedge id
      · exact heq
      · exact absurd (hsil.symm.trans heq) (by simp)
      · exact absurd (hsil.symm.trans hwr) (by simp)
    have holder := h.older id edge (heq ▸ hsil) ((hsame id heq).symm.trans hvis)
    rw [heds, hnos] at holder
    refine ⟨?_, fun n hn => ?_⟩
    · rw [heds']
      intro lay hlay
      obtain rfl | hlay := mem_cons.mp hlay
      · rw [hsil]
        intro hnone
        cases hnone
      · exact holder.1 lay (mem_cons_of_mem _ hlay)
    · rw [hnodes']
      intro lay hlay
      obtain rfl | hlay := mem_cons.mp hlay
      · intro hgone
        obtain hbef | hleft := hnode n hgone
        · exact holder.2 n hn _ mem_cons_self hbef
        · exact hleft id edge hvis hn
      · exact holder.2 n hn lay (mem_cons_of_mem _ hlay)
  · rw [heds'] at hlay
    obtain heq | heq | ⟨written, hwr, -, hstable⟩ := hedge id
    · have hbef : ∃ before ∈ sl.edgeLayers, before id = some (some other) := by
        rw [heds]
        obtain rfl | hlay := mem_cons.mp hlay
        · exact ⟨_, mem_cons_self, heq.symm.trans hoth⟩
        · exact ⟨lay, mem_cons_of_mem _ hlay, hoth⟩
      obtain ⟨before, hmem, hheld⟩ := hbef
      exact h.stable id edge ((hsame id heq).symm.trans hvis) before hmem other hheld
    · rw [visible, heds', firstOpinion_cons, heq] at hvis
      cases hvis
    · cases (hfst id written hwr).symm.trans hvis
      obtain rfl | hlay := mem_cons.mp hlay
      · cases hwr.symm.trans hoth
        exact ⟨rfl, rfl⟩
      · exact hstable lay hlay other hoth

/-- Freezing the active memtable, when nothing in it was deleted in any layer. -/
theorem Walkable.freeze (h : Walkable sl) (hact : sl'.active.edgeOpinion = fun _ => none) (hactive' : sl'.active.nodeOpinion = fun _ => none)
    (heds : sl'.edgeLayers = sl'.active.edgeOpinion :: sl.edgeLayers) (hnos : sl'.nodeLayers = sl'.active.nodeOpinion :: sl.nodeLayers)
    (hbef : sl.edgeLayers = sl.active.edgeOpinion :: olderEdges)
    (hclean : ∀ id edge, sl.active.edgeOpinion id = some (some edge) → (∀ lay ∈ sl.edgeLayers, lay id ≠ some none) ∧
      ∀ n ∈ endpoints edge, ∀ lay ∈ sl.nodeLayers, lay n ≠ some none) : Walkable sl' := by
  have hsame : visible sl'.edgeLayers = visible sl.edgeLayers := by
    funext id
    rw [visible, visible, heds, firstOpinion_cons, hact, none_or]
  refine ⟨fun id edge hedge => ?_, fun id edge _ hvis => ?_, fun id edge hvis lay hlay other hoth => ?_⟩
  · rw [hact] at hedge
    cases hedge
  · rw [hsame] at hvis
    have hkept : (∀ lay ∈ sl.edgeLayers, lay id ≠ some none) ∧ ∀ n ∈ endpoints edge, ∀ lay ∈ sl.nodeLayers, lay n ≠ some none := by
      cases hop : sl.active.edgeOpinion id with
      | none => exact h.older id edge hop hvis
      | some value =>
        rw [visible, hbef, firstOpinion_cons, hop] at hvis
        obtain rfl : value = some edge := hvis
        exact hclean id edge hop
    rw [heds, hnos, hact, hactive']
    refine ⟨fun lay hlay => ?_, fun n hn lay hlay => ?_⟩
    · obtain rfl | hlay := mem_cons.mp hlay
      · intro hnone
        cases hnone
      · exact hkept.1 lay hlay
    · obtain rfl | hlay := mem_cons.mp hlay
      · intro hnone
        cases hnone
      · exact hkept.2 n hn lay hlay
  · rw [hsame] at hvis
    rw [heds, hact] at hlay
    obtain rfl | hlay := mem_cons.mp hlay
    · cases hoth
    · exact h.stable id edge hvis lay hlay other hoth

/-- Replacing the oldest layers by one that has no tombstones and versions of theirs only. -/
theorem Walkable.replace (h : Walkable sl) (hact : sl'.active = sl.active) (hsame : visible sl'.edgeLayers = visible sl.edgeLayers)
    (heds : ∀ lay ∈ sl'.edgeLayers, lay ∈ sl.edgeLayers ∨ ((∀ id, lay id ≠ some none) ∧
      ∀ id edge, lay id = some (some edge) → ∃ old ∈ sl.edgeLayers, old id = some (some edge)))
    (hnos : ∀ lay ∈ sl'.nodeLayers, lay ∈ sl.nodeLayers ∨ ∀ n, lay n ≠ some none) : Walkable sl' := by
  refine ⟨hact ▸ h.active, fun id edge hsil hvis => ?_, fun id edge hvis lay hlay other hoth => ?_⟩
  · rw [hact] at hsil
    rw [hsame] at hvis
    obtain ⟨hkept, hends⟩ := h.older id edge hsil hvis
    refine ⟨fun lay hlay => ?_, fun n hn lay hlay => ?_⟩
    · exact (heds lay hlay).elim (hkept lay) fun hnew => hnew.1 id
    · exact (hnos lay hlay).elim (hends n hn lay) fun hnew => hnew n
  · rw [hsame] at hvis
    obtain hlay | ⟨-, hnew⟩ := heds lay hlay
    · exact h.stable id edge hvis lay hlay other hoth
    · obtain ⟨old, hold, hsameOld⟩ := hnew id other hoth
      exact h.stable id edge hvis old hold other hsameOld

end

section
variable {sl : SourceList} {nodeId : ℕ} {dir : Direction}

def olderShown (sl : SourceList) (nodeId : ℕ) (dir : Direction) : List ShownLayer :=
  sl.immutable.map (memtableShown sl.snapshotSeq nodeId dir) ++ sl.segments.map (segmentShown nodeId dir)

section
variable (sl : SourceList) (nodeId : ℕ) (dir : Direction)

theorem edgeLayers_shown : sl.edgeLayers = sl.active.edgeOpinion :: (olderShown sl nodeId dir).map (·.edges) := by
  simp [edgeLayers, olderShown, memtableShown, segmentShown, Function.comp_def]

theorem nodeLayers_shown : sl.nodeLayers = sl.active.nodeOpinion :: (olderShown sl nodeId dir).map (·.nodes) := by
  simp [nodeLayers, olderShown, memtableShown, segmentShown, Function.comp_def]

end

theorem olderOffer_shown (id : ℕ) : olderOffer sl nodeId dir none id = (olderShown sl nodeId dir).findSome? (·.offer id) := by
  rw [olderShown, findSome?_append, findSome?_map, findSome?_map]
  rfl

variable (h : Stored sl)
include h

theorem shows_active (nodeId : ℕ) (dir : Direction) : Shows nodeId dir (memtableShown sl.snapshotSeq nodeId dir sl.active) := by
  obtain ⟨ops, hact, hops⟩ := h.memtables sl.active mem_cons_self
  rw [hact]
  exact shows_memtable hops nodeId dir

theorem shows_older {lay : ShownLayer} (hlay : lay ∈ olderShown sl nodeId dir) : Shows nodeId dir lay := by
  obtain hlay | hlay := mem_append.mp hlay
  · obtain ⟨m, hm, rfl⟩ := mem_map.mp hlay
    obtain ⟨ops, rfl, hops⟩ := h.memtables m (mem_cons_of_mem _ hm)
    exact shows_memtable hops nodeId dir
  · obtain ⟨seg, -, rfl⟩ := mem_map.mp hlay
    exact shows_segment seg nodeId dir

omit h in
theorem no_layer_gone {ρ : Type} {memtableView : MemtableState → Opinion ℕ ρ} {segmentView : Segment → Opinion ℕ ρ}
    {memtableGone : MemtableState → Bool} {segmentGone : Segment → Bool} {id : ℕ}
    (hmem : ∀ m ∈ sl.active :: sl.immutable, memtableGone m = true ↔ memtableView m id = some none)
    (hseg' : ∀ seg : Segment, segmentGone seg = true ↔ segmentView seg id = some none) :
    ((sl.active :: sl.immutable).any memtableGone || sl.segments.any segmentGone) = false ↔
      ∀ lay ∈ (sl.active :: sl.immutable).map memtableView ++ sl.segments.map segmentView, lay id ≠ some none := by
  rw [Bool.or_eq_false_iff, any_eq_false, any_eq_false]
  constructor
  · rintro ⟨hmems, hsegs⟩ lay hlay
    obtain hlay | hlay := mem_append.mp hlay
    · obtain ⟨m, hm, rfl⟩ := mem_map.mp hlay
      exact fun hgone => hmems m hm ((hmem m hm).mpr hgone)
    · obtain ⟨seg, hseg, rfl⟩ := mem_map.mp hlay
      exact fun hgone => hsegs seg hseg ((hseg' seg).mpr hgone)
  · intro hlays
    refine ⟨fun m hm hgone => ?_, fun seg hseg hgone => ?_⟩
    · exact hlays _ (mem_append_left _ (mem_map_of_mem hm)) ((hmem m hm).mp hgone)
    · exact hlays _ (mem_append_right _ (mem_map_of_mem hseg)) ((hseg' seg).mp hgone)

theorem isEdgeTombstoned_eq_false (id : ℕ) : isEdgeTombstoned sl id = false ↔ ∀ lay ∈ sl.edgeLayers, lay id ≠ some none := by
  rw [isEdgeTombstoned, edgeLayers]
  apply no_layer_gone
  · intro m hm
    rw [(h.wellFormed.settled m hm).isEdgeDeletedAt]
    exact (h.wellFormed.tombstones m hm).edges id
  · intro seg
    rw [Segment.edgeOpinion]
    split <;> simp_all

theorem isNodeTombstoned_eq_false (id : ℕ) : isNodeTombstoned sl id = false ↔ ∀ lay ∈ sl.nodeLayers, lay id ≠ some none := by
  rw [isNodeTombstoned, nodeLayers]
  apply no_layer_gone
  · intro m hm
    rw [(h.wellFormed.settled m hm).isNodeDeletedAt]
    exact (h.wellFormed.tombstones m hm).nodes id
  · intro seg
    rw [Segment.nodeOpinion]
    split <;> simp_all

theorem found_of_visible (hwalk : Walkable sl) {id : ℕ} {edge : EdgeRecord} (hvis : visible sl.edgeLayers id = some edge)
    (hat : atNode dir nodeId edge = true) :
    ∃ r, neighborFound sl nodeId dir none id = some r ∧ Describes edge r := by
  have hact := shows_active h nodeId dir
  have hop := join_eq_some_iff.mp hvis
  rw [edgeLayers_shown sl nodeId dir, firstOpinion_cons, or_eq_some_iff] at hop
  rw [neighborFound]
  obtain hop | ⟨hnone, hop⟩ := hop
  · obtain ⟨r, hoff⟩ := isSome_iff_exists.mp (hact.shown id edge hop hat (hwalk.active id edge hop))
    obtain ⟨other, hoth, -, hdesc⟩ := hact.offered id r hoff
    cases hop.symm.trans hoth
    exact ⟨r, or_eq_some_iff.mpr (Or.inl hoff), hdesc⟩
  · obtain ⟨heds, hnos⟩ := hwalk.older id edge hnone hvis
    rw [firstOpinion, findSome?_map, findSome?_eq_some_iff] at hop
    obtain ⟨newer, lay, rest, hsp, hlay, hnew'⟩ := hop
    have hmem : ∀ other, other ∈ newer ++ lay :: rest → other ∈ olderShown sl nodeId dir := fun other hoth => hsp ▸ hoth
    have hshows := shows_older h (hmem lay (by simp))
    have hends : ∀ n ∈ endpoints edge, lay.nodes n ≠ some none := fun n hn => by
      apply hnos n hn
      rw [nodeLayers_shown sl nodeId dir]
      exact mem_cons_of_mem _ (mem_map_of_mem (hmem lay (by simp)))
    obtain ⟨r, hoff⟩ := isSome_iff_exists.mp (hshows.shown id edge hlay hat hends)
    obtain ⟨other, hoth, -, hdesc⟩ := hshows.offered id r hoff
    cases hlay.symm.trans hoth
    have hfst : olderOffer sl nodeId dir none id = some r := by
      rw [olderOffer_shown, findSome?_eq_some_iff]
      refine ⟨newer, lay, rest, hsp, hoff, fun other hnew => ?_⟩
      cases hnot : other.offer id with
      | none => rfl
      | some r =>
        obtain ⟨held, hheld, -⟩ := (shows_older h (hmem other (mem_append_left _ hnew))).offered id r hnot
        exact absurd (hheld.symm.trans (hnew' other hnew)) (by simp)
    have hsil : memtableOffer nodeId dir none sl.snapshotSeq sl.active id = none := by
      cases hnot : memtableOffer nodeId dir none sl.snapshotSeq sl.active id with
      | none => rfl
      | some r =>
        obtain ⟨held, hheld, -⟩ := hact.offered id r hnot
        exact absurd (hheld.symm.trans hnone) (by simp)
    refine ⟨r, ?_, hdesc⟩
    rw [hsil, hfst, none_or, filter_some, (isEdgeTombstoned_eq_false h id).mpr heds,
      (isNodeTombstoned_eq_false h _).mpr (hnos _ hdesc.nodeId)]
    rfl

theorem visible_of_found (hwalk : Walkable sl) {id : ℕ} {r : NeighborRecord}
    (hfnd : neighborFound sl nodeId dir none id = some r) :
    ∃ edge, visible sl.edgeLayers id = some edge ∧ atNode dir nodeId edge = true ∧ Describes edge r := by
  have hcase := hfnd
  rw [neighborFound, or_eq_some_iff] at hcase
  obtain hoff | ⟨-, holder⟩ := hcase
  · obtain ⟨edge, hedge, hat, hdesc⟩ := (shows_active h nodeId dir).offered id r hoff
    refine ⟨edge, ?_, hat, hdesc⟩
    have hop : sl.active.edgeOpinion id = some (some edge) := hedge
    rw [visible, edgeLayers_shown sl nodeId dir, firstOpinion_cons, hop]
    rfl
  · obtain ⟨hoff, hkept⟩ := filter_eq_some_iff.mp holder
    rw [Bool.and_eq_true, Bool.not_eq_true', isEdgeTombstoned_eq_false h] at hkept
    rw [olderOffer_shown] at hoff
    obtain ⟨lay, hlay, hoff⟩ := exists_of_findSome?_eq_some hoff
    obtain ⟨held, hheld, hat, -⟩ := (shows_older h hlay).offered id r hoff
    have hin : lay.edges ∈ sl.edgeLayers := by
      rw [edgeLayers_shown sl nodeId dir]
      exact mem_cons_of_mem _ (mem_map_of_mem hlay)
    have hvis : ∃ edge, visible sl.edgeLayers id = some edge := by
      cases hfst : firstOpinion sl.edgeLayers id with
      | none => exact absurd (hheld.symm.trans (findSome?_eq_none_iff.mp hfst _ hin)) (by simp)
      | some value =>
        obtain ⟨fst, hfirs, hval⟩ := exists_of_findSome?_eq_some hfst
        cases value with
        | none => exact absurd hval (hkept.1 fst hfirs)
        | some edge => exact ⟨edge, by rw [visible, hfst]; rfl⟩
    obtain ⟨edge, hedge⟩ := hvis
    obtain ⟨hsrc, htgt⟩ := hwalk.stable id edge hedge _ hin held hheld
    have hatEdge : atNode dir nodeId edge = true := by rw [← hat, atNode_congr hsrc htgt]
    obtain ⟨other, hoth, hdesc⟩ := found_of_visible h hwalk hedge hatEdge
    cases hfnd.symm.trans hoth
    exact ⟨edge, hedge, hatEdge, hdesc⟩

/-- The edges at the node are valid at all times from now on. -/
def Present (sl : SourceList) (nodeId : ℕ) (refTime : ℤ) : Prop :=
  ∀ id edge, visible sl.edgeLayers id = some edge → nodeId ∈ endpoints edge → edge.validFrom ≤ refTime ∧ edge.validTo = i64Max

/-- What is worth something at the node is what the read finds there. -/
theorem tally_present {G : Type} [AddCommGroup G] (hwalk : Walkable sl) {refTime : ℤ} (htime : refTime < i64Max)
    (hpres : Present sl nodeId refTime) (dir : Direction) (worth : F32 → G) :
    tally (fun edge => if atNode dir nodeId edge then worth edge.weight else 0) (visible sl.edgeLayers) =
      ((neighborsRaw sl nodeId dir none refTime).map (worth ·.weight)).sum := by
  apply tally_eq_sum edgeId
  · exact nodup_neighborsRaw h refTime
  · intro r hrec
    obtain ⟨hfnd, -⟩ := (mem_neighborsRaw h).mp hrec
    obtain ⟨edge, hedge, hat, hdesc⟩ := visible_of_found h hwalk hfnd
    exact ⟨edge, hedge, by rw [if_pos hat, hdesc.weight]⟩
  · intro id edge hedge hnot
    rw [if_neg]
    intro hat
    obtain ⟨r, hfnd, hdesc⟩ := found_of_visible h hwalk hedge hat
    obtain ⟨hfrom, hto⟩ := hpres id edge hedge (atNode_endpoint hat)
    have hid : r.edgeId = id := neighborFound_edgeId h hfnd
    refine hnot (mem_map.mpr ⟨r, (mem_neighborsRaw h).mpr ⟨hid.symm ▸ hfnd, ?_⟩, hid⟩)
    rw [hdesc.validFrom, hdesc.validTo hto, isEdgeValidAt, Bool.and_eq_true]
    exact ⟨decide_eq_true hfrom, decide_eq_true htime⟩

end

end OverGraph.DegreeWalks
