import OverGraph.CascadingDeletes
import OverGraph.DegreeWalks
import OverGraph.GraphWalks

/-!
# Expanding a frontier

The edges at the nodes of a frontier are gathered from the layers, newest first, each where it is first seen at its node. What
the active memtable shows is taken as it is; what older layers show is checked against the tombstones of all layers, for the
edge, for the neighbour and for the node itself. So the edge is found from one of its ends exactly if it is found from the other.
-/

namespace OverGraph.Expansion
open Option hiding any_eq_false map_map mem_map mem_map_of_mem merge
open Records Memtable MemtableState LayeredWrites Segments Sources SnapshotReads FirstSeen AdjacencyReads List EdgeRecord
open DegreeWalks GraphWalks
open Degrees (isEdgeValidAt)

def reverseDirection : Direction → Direction
  | .outgoing => .incoming
  | .incoming => .outgoing
  | .both => .both

theorem reverseDirection_reverse (dir : Direction) : reverseDirection (reverseDirection dir) = dir := by cases dir <;> rfl

section
variable (sl : SourceList) (dir : Direction) (fids : Option (List ℕ)) (now : ℤ)

/-- An edge is seen once at each node. -/
def postingId (post : ℕ × NeighborRecord) : ℕ × ℕ := (post.1, post.2.edgeId)

/-- The outgoing postings of all nodes come before the incoming ones. -/
def forEachAdjPostingBatch (seg : Segment) (nodeIds : List ℕ) : List (ℕ × NeighborRecord) :=
  let side := fun dir => nodeIds.flatMap fun nodeId => (forEachAdjPosting seg nodeId dir fids).map (nodeId, ·)
  match dir with
  | .both => side .outgoing ++ side .incoming
  | dir => side dir

def forEachAdjEntry (m : MemtableState) (nodeIds : List ℕ) : List (ℕ × NeighborRecord) :=
  nodeIds.flatMap fun nodeId => (neighborsAt nodeId dir fids m sl.snapshotSeq).map (nodeId, ·)

/-- No layer has deleted the edge or one of its ends. -/
def untouched (post : ℕ × NeighborRecord) : Bool :=
  !isEdgeTombstoned sl post.2.edgeId && !(isNodeTombstoned sl post.2.nodeId || isNodeTombstoned sl post.1)

/-- What the visitor is called with, in turn, as long as it does not break off. -/
def expandFrontier (frontier : List ℕ) : List (ℕ × NeighborRecord) :=
  let sortedIds := frontier.insertionSort (· ≤ ·)
  let active := forEachAdjEntry sl dir fids sl.active sortedIds
  let older := (sl.immutable.map fun m => forEachAdjEntry sl dir fids m sortedIds) ++
    sl.segments.map fun seg => forEachAdjPostingBatch dir fids seg sortedIds
  (merge postingId (fun post => validRecord now post.2 && untouched sl post)
    ⟨active.filter fun post => validRecord now post.2, active.map postingId⟩ older).results

end

section
variable (sl : SourceList) (nodeId : ℕ) (dir : Direction) (fids : Option (List ℕ))

/-- The edge is taken from the newest layer that shows it at the node; if that is not the active memtable, no layer may have
a tombstone for the edge or one of its ends. -/
def linkFound (edgeId : ℕ) : Option NeighborRecord :=
  (memtableOffer nodeId dir fids sl.snapshotSeq sl.active edgeId).or
    ((olderOffer sl nodeId dir fids edgeId).filter fun rec =>
      !isEdgeTombstoned sl edgeId && !(isNodeTombstoned sl rec.nodeId || isNodeTombstoned sl nodeId))

/-- The edge leads from one node to the other in the direction, and is valid at the time. -/
def Linked (now : ℤ) (source edgeId nbr : ℕ) : Prop :=
  ∃ rec, linkFound sl source dir fids edgeId = some rec ∧ rec.nodeId = nbr ∧ validRecord now rec = true

end

def Joins (dir : Direction) (edge : EdgeRecord) (nodeId nbr : ℕ) : Prop :=
  match dir with
  | .outgoing => edge.source = nodeId ∧ edge.target = nbr
  | .incoming => edge.target = nodeId ∧ edge.source = nbr
  | .both => edge.source = nodeId ∧ edge.target = nbr ∨ edge.target = nodeId ∧ edge.source = nbr

variable {edge : EdgeRecord}

theorem joins_reverse {dir : Direction} {nodeId nbr : ℕ} :
    Joins (reverseDirection dir) edge nbr nodeId ↔ Joins dir edge nodeId nbr := by
  cases dir with
  | outgoing | incoming => exact and_comm
  | both =>
    simp only [Joins, reverseDirection]
    rw [or_comm, and_comm, and_comm (a := edge.source = nbr)]

theorem entryAt_eq_some (cell : EdgeRecord → ℕ → AdjEntry) {dir : Direction} {nodeId : ℕ} {entry : AdjEntry} :
    entryAt cell nodeId dir edge = some entry ↔ ∃ nbr, Joins dir edge nodeId nbr ∧ entry = cell edge nbr := by
  cases dir with
  | outgoing => by_cases hsrc : edge.source = nodeId <;> simp [entryAt, Joins, hsrc, eq_comm]
  | incoming => by_cases htgt : edge.target = nodeId <;> simp [entryAt, Joins, htgt, eq_comm]
  | both =>
    by_cases hsrc : edge.source = nodeId
    · by_cases htgt : edge.target = nodeId <;> simp [entryAt, Joins, hsrc, htgt, eq_comm]
    · by_cases htgt : edge.target = nodeId <;> simp [entryAt, Joins, hsrc, htgt, eq_comm]

variable {nodeIds : List ℕ}

section
variable {cell : EdgeRecord → ℕ → AdjEntry} {nodeId : ℕ} {dir : Direction} {fids : Option (List ℕ)}
  {rec : NeighborRecord}

theorem offer_eq_some {view : Option EdgeRecord} {accept : AdjEntry → Bool} :
    ((view.bind (entryAt cell nodeId dir)).filter accept).map toRecord = some rec ↔ ∃ edge nbr, view = some edge ∧
      Joins dir edge nodeId nbr ∧ accept (cell edge nbr) = true ∧ toRecord (cell edge nbr) = rec := by
  simp only [map_eq_some_iff, filter_eq_some_iff, bind_eq_some_iff, entryAt_eq_some]
  constructor
  · rintro ⟨entry, ⟨⟨edge, hview, nbr, hjn, rfl⟩, haccept⟩, hrec⟩
    exact ⟨edge, nbr, hview, hjn, haccept, hrec⟩
  · rintro ⟨edge, nbr, hview, hjn, haccept, hrec⟩
    exact ⟨_, ⟨⟨edge, hview, nbr, hjn, rfl⟩, haccept⟩, hrec⟩

theorem segmentOffer_both {seg : Segment} {edgeId : ℕ} :
    segmentOffer nodeId .both fids seg edgeId = some rec ↔ segmentOffer nodeId .outgoing fids seg edgeId = some rec ∨
        segmentOffer nodeId .incoming fids seg edgeId = some rec := by
  simp only [segmentOffer, offer_eq_some]
  constructor
  · rintro ⟨edge, nbr, hview, hjn | hjn, hrest⟩
    · exact Or.inl ⟨edge, nbr, hview, hjn, hrest⟩
    · exact Or.inr ⟨edge, nbr, hview, hjn, hrest⟩
  · rintro (⟨edge, nbr, hview, hjn, hrest⟩ | ⟨edge, nbr, hview, hjn, hrest⟩)
    · exact ⟨edge, nbr, hview, Or.inl hjn, hrest⟩
    · exact ⟨edge, nbr, hview, Or.inr hjn, hrest⟩

section
variable {seg : Segment} (hids : ∀ id edge, seg.edges.lookup id = some edge → edge.id = id)
include hids

theorem mem_forEachAdjPosting : rec ∈ forEachAdjPosting seg nodeId dir fids ↔ segmentOffer nodeId dir fids seg rec.edgeId = some rec := by
  have hout := cells_adjPostings hids nodeId source target
  have hin := cells_adjPostings hids nodeId target source
  have houtg : rec ∈ forEachAdjPosting seg nodeId .outgoing fids ↔ segmentOffer nodeId .outgoing fids seg rec.edgeId = some rec := by
    rw [← (lists_segmentNeighbors hids).mem, segmentNeighbors]
    simp only [collectNeighbors, forEachAdjPosting]
    rw [collect_results false hout.nodup, nil_append, filter_congr fun entry _ => takes_all entry]
  have hinc : rec ∈ forEachAdjPosting seg nodeId .incoming fids ↔ segmentOffer nodeId .incoming fids seg rec.edgeId = some rec := by
    rw [← (lists_segmentNeighbors hids).mem, segmentNeighbors]
    simp only [collectNeighbors, forEachAdjPosting]
    rw [collect_results false hin.nodup, nil_append, filter_congr fun entry _ => takes_all entry]
  cases dir with
  | outgoing => exact houtg
  | incoming => exact hinc
  | both =>
    rw [segmentOffer_both, ← houtg, ← hinc]
    exact mem_append

theorem mem_forEachAdjPostingBatch {post : ℕ × NeighborRecord} : post ∈ forEachAdjPostingBatch dir fids seg nodeIds ↔
      post.1 ∈ nodeIds ∧ segmentOffer post.1 dir fids seg post.2.edgeId = some post.2 := by
  have hside : ∀ dir, post ∈ nodeIds.flatMap (fun nodeId =>
      (forEachAdjPosting seg nodeId dir fids).map (nodeId, ·)) ↔
      post.1 ∈ nodeIds ∧ segmentOffer post.1 dir fids seg post.2.edgeId = some post.2 := by
    intro dir
    rw [mem_flatMap, ← mem_forEachAdjPosting hids]
    constructor
    · rintro ⟨nodeId, hnode, hpost⟩
      obtain ⟨rec, hrec, rfl⟩ := mem_map.mp hpost
      exact ⟨hnode, hrec⟩
    · rintro ⟨hnode, hrec⟩
      exact ⟨post.1, hnode, mem_map.mpr ⟨post.2, hrec, rfl⟩⟩
  cases dir with
  | outgoing => exact hside .outgoing
  | incoming => exact hside .incoming
  | both =>
    rw [segmentOffer_both, and_or_left, ← hside .outgoing, ← hside .incoming]
    exact mem_append

end

theorem mem_forEachAdjEntry {sl : SourceList} {ops : List SeqOp} (hops : ∀ op ∈ ops, op.1 ≤ sl.snapshotSeq)
    {post : ℕ × NeighborRecord} : post ∈ forEachAdjEntry sl dir fids (ofOps ops) nodeIds ↔ post.1 ∈ nodeIds ∧
        memtableOffer post.1 dir fids sl.snapshotSeq (ofOps ops) post.2.edgeId = some post.2 := by
  rw [forEachAdjEntry, mem_flatMap, ← (lists_neighborsAt hops).mem]
  constructor
  · rintro ⟨nodeId, hnode, hpost⟩
    obtain ⟨rec, hrec, rfl⟩ := mem_map.mp hpost
    exact ⟨hnode, hrec⟩
  · rintro ⟨hnode, hrec⟩
    exact ⟨post.1, hnode, mem_map.mpr ⟨post.2, hrec, rfl⟩⟩

end

section
variable {sl : SourceList} {dir : Direction} {fids : Option (List ℕ)} {now : ℤ}

/-- What a layer offers at the nodes of a frontier. -/
def atFrontier (frontier : List ℕ) (offer : ℕ → ℕ → Option NeighborRecord) (id : ℕ × ℕ) : Option (ℕ × NeighborRecord) :=
  if id.1 ∈ frontier then (offer id.1 id.2).map (id.1, ·) else none

variable {post : ℕ × NeighborRecord} {frontier : List ℕ} {offer : ℕ → ℕ → Option NeighborRecord}

theorem atFrontier_eq_some : atFrontier frontier offer (postingId post) = some post ↔
      post.1 ∈ frontier ∧ offer post.1 post.2.edgeId = some post.2 := by
  rw [atFrontier, ite_none_right_eq_some, map_eq_some_iff]
  apply and_congr_right
  intro _
  constructor
  · rintro ⟨rec, hoff, hpost⟩
    obtain rfl : rec = post.2 := congrArg Prod.snd hpost
    exact hoff
  · exact fun hoff => ⟨post.2, hoff, rfl⟩

theorem atFrontier_id
    (hids : ∀ nodeId edgeId rec, offer nodeId edgeId = some rec → rec.edgeId = edgeId) {id : ℕ × ℕ}
    (h : atFrontier frontier offer id = some post) : postingId post = id := by
  rw [atFrontier, ite_none_right_eq_some, map_eq_some_iff] at h
  obtain ⟨-, rec, hoff, rfl⟩ := h
  exact Prod.ext rfl (hids _ _ rec hoff)

def olderOffers (sl : SourceList) (dir : Direction) (fids : Option (List ℕ)) : List (ℕ → ℕ → Option NeighborRecord) :=
  (sl.immutable.map fun m nodeId => memtableOffer nodeId dir fids sl.snapshotSeq m) ++
    sl.segments.map fun seg nodeId => segmentOffer nodeId dir fids seg

theorem olderOffer_eq (nodeId edgeId : ℕ) : olderOffer sl nodeId dir fids edgeId =
    (olderOffers sl dir fids).findSome? fun offer => offer nodeId edgeId := by
  rw [olderOffers, findSome?_append, findSome?_map, findSome?_map]
  rfl

theorem findSome_atFrontier {id : ℕ × ℕ} (h : id.1 ∈ frontier) (offers : List (ℕ → ℕ → Option NeighborRecord)) :
    offers.findSome? (fun offer => atFrontier frontier offer id) = (offers.findSome? fun offer => offer id.1 id.2).map (id.1, ·) := by
  induction offers with
  | nil => rfl
  | cons offer offers ih =>
    rw [findSome?_cons, findSome?_cons, ih, atFrontier, if_pos h]
    cases offer id.1 id.2 <;> rfl

def olderPostings (sl : SourceList) (dir : Direction) (fids : Option (List ℕ)) (frontier : List ℕ) :
    List (List (ℕ × NeighborRecord) × (ℕ × ℕ → Option (ℕ × NeighborRecord))) :=
  (sl.immutable.map fun m => (forEachAdjEntry sl dir fids m frontier,
    atFrontier frontier fun nodeId => memtableOffer nodeId dir fids sl.snapshotSeq m)) ++
    sl.segments.map fun seg => (forEachAdjPostingBatch dir fids seg frontier,
      atFrontier frontier fun nodeId => segmentOffer nodeId dir fids seg)

theorem olderPostings_lists (h : Stored sl) (dir : Direction) (fids : Option (List ℕ)) (frontier : List ℕ) :
    ∀ l ∈ olderPostings sl dir fids frontier,
    (∀ post, post ∈ l.1 ↔ l.2 (postingId post) = some post) ∧ ∀ id post, l.2 id = some post → postingId post = id := by
  intro l hl
  obtain hl | hl := mem_append.mp hl
  · obtain ⟨m, hm, rfl⟩ := mem_map.mp hl
    obtain ⟨ops, rfl, hops⟩ := h.memtables m (mem_cons_of_mem _ hm)
    refine ⟨fun post => ?_, fun id post => ?_⟩
    · rw [mem_forEachAdjEntry hops, atFrontier_eq_some]
    · exact atFrontier_id fun _ _ _ => memtableOffer_edgeId hops
  · obtain ⟨seg, hseg, rfl⟩ := mem_map.mp hl
    refine ⟨fun post => ?_, fun id post => ?_⟩
    · rw [mem_forEachAdjPostingBatch (h.segments seg hseg), atFrontier_eq_some]
    · exact atFrontier_id fun _ _ _ => segmentOffer_edgeId (h.segments seg hseg)

theorem findSome_olderPostings : (olderPostings sl dir fids frontier).findSome? (·.2 (postingId post)) = some post ↔
      post.1 ∈ frontier ∧ olderOffer sl post.1 dir fids post.2.edgeId = some post.2 := by
  have hoffers : (olderPostings sl dir fids frontier).findSome? (·.2 (postingId post)) =
      (olderOffers sl dir fids).findSome? fun offer => atFrontier frontier offer (postingId post) := by
    rw [olderPostings, olderOffers, findSome?_append, findSome?_append, findSome?_map, findSome?_map, findSome?_map, findSome?_map]
    rfl
  rw [hoffers, olderOffer_eq]
  by_cases hmem : post.1 ∈ frontier
  · rw [findSome_atFrontier hmem, and_iff_right hmem, map_eq_some_iff]
    constructor
    · rintro ⟨rec, hoff, hpost⟩
      obtain rfl : rec = post.2 := congrArg Prod.snd hpost
      exact hoff
    · exact fun hoff => ⟨post.2, hoff, rfl⟩
  · refine ⟨fun hsome => ?_, fun hboth => absurd hboth.1 hmem⟩
    obtain ⟨offer, -, hoff⟩ := exists_of_findSome?_eq_some hsome
    exact absurd (atFrontier_eq_some.mp hoff).1 hmem

/-- Postings that are merged with some check of the older ones give each edge at each node where the layers show it first. -/
theorem mem_mergedPostings (h : Stored sl) (keep : ℕ × NeighborRecord → Bool) :
    post ∈ (merge postingId (fun post => validRecord now post.2 && keep post)
      ⟨(forEachAdjEntry sl dir fids sl.active nodeIds).filter fun post => validRecord now post.2,
        (forEachAdjEntry sl dir fids sl.active nodeIds).map postingId⟩
      ((sl.immutable.map fun m => forEachAdjEntry sl dir fids m nodeIds) ++
        sl.segments.map fun seg => forEachAdjPostingBatch dir fids seg nodeIds)).results ↔
      post.1 ∈ nodeIds ∧ (memtableOffer post.1 dir fids sl.snapshotSeq sl.active post.2.edgeId).or
        ((olderOffer sl post.1 dir fids post.2.edgeId).filter fun rec => keep (post.1, rec)) =
          some post.2 ∧ validRecord now post.2 = true := by
  obtain ⟨ops, hact, hops⟩ := h.memtables sl.active mem_cons_self
  have hls := olderPostings_lists h dir fids nodeIds
  have hmap : (sl.immutable.map fun m => forEachAdjEntry sl dir fids m nodeIds) ++
      sl.segments.map (fun seg => forEachAdjPostingBatch dir fids seg nodeIds) =
      (olderPostings sl dir fids nodeIds).map (·.1) := by
    rw [olderPostings, map_append, map_map, map_map]
    rfl
  have hids : ∀ nodeId edgeId rec, memtableOffer nodeId dir fids sl.snapshotSeq sl.active edgeId = some rec → rec.edgeId = edgeId := by
    rw [hact]
    exact fun _ _ _ => memtableOffer_edgeId hops
  have hmem : ∀ other, other ∈ forEachAdjEntry sl dir fids sl.active nodeIds ↔
      atFrontier nodeIds (fun nodeId => memtableOffer nodeId dir fids sl.snapshotSeq sl.active) (postingId other) = some other := by
    intro other
    rw [atFrontier_eq_some, hact]
    exact mem_forEachAdjEntry hops
  rw [hmap, mem_merge (fun l hl => (hls l hl).1) (fun l hl => (hls l hl).2), findSome_olderPostings, mem_filter, hmem,
    mem_ids hmem fun _ _ => atFrontier_id hids, atFrontier_eq_some]
  by_cases hfron : post.1 ∈ nodeIds
  · have hsome : (atFrontier nodeIds (fun nodeId => memtableOffer nodeId dir fids sl.snapshotSeq sl.active)
        (postingId post)).isSome =
        (memtableOffer post.1 dir fids sl.snapshotSeq sl.active post.2.edgeId).isSome := by
      have hat : (postingId post).1 ∈ nodeIds := hfron
      rw [atFrontier, if_pos hat, isSome_map]
      rfl
    rw [hsome]
    cases memtableOffer post.1 dir fids sl.snapshotSeq sl.active post.2.edgeId with
    | some found => simp [hfron]
    | none =>
      rw [none_or, filter_eq_some_iff, Bool.and_eq_true]
      simp only [hfron, reduceCtorEq, and_false, false_and, isSome_none, Bool.false_eq_true, not_false_eq_true, true_and, false_or]
      tauto
  · simp [hfron]

/-- The expansion finds each edge at each node of the frontier where the layers show it first. -/
theorem mem_expandFrontier (h : Stored sl) : post ∈ expandFrontier sl dir fids now frontier ↔ post.1 ∈ frontier ∧
      linkFound sl post.1 dir fids post.2.edgeId = some post.2 ∧ validRecord now post.2 = true := by
  have hsort : post.1 ∈ frontier.insertionSort (· ≤ ·) ↔ post.1 ∈ frontier := (perm_insertionSort _ _).mem_iff
  rw [expandFrontier, mem_mergedPostings h (untouched sl), hsort, linkFound, or_eq_some_iff, or_eq_some_iff,
    filter_eq_some_iff, filter_eq_some_iff]
  rfl

end

section
variable {sl : SourceList} {dir : Direction} {fids : Option (List ℕ)} {nodeId nbr : ℕ}

/-- The same edge, seen from its other end. -/
def turned (nodeId : ℕ) (rec : NeighborRecord) : NeighborRecord := { rec with nodeId := nodeId }

/-- All layers have an edge at the same two nodes: a write finds the identifier of an edge by its ends and its label. -/
def EndsKept (sl : SourceList) : Prop :=
  ∀ lay ∈ sl.edgeLayers, ∀ other ∈ sl.edgeLayers, ∀ id edge edge', lay id = some (some edge) → other id = some (some edge') →
    edge.source = edge'.source ∧ edge.target = edge'.target

theorem Joins.congr {edge' : EdgeRecord} (h : Joins dir edge nodeId nbr) (hsrc : edge.source = edge'.source)
    (htgt : edge.target = edge'.target) : Joins dir edge' nodeId nbr := by
  cases dir <;> simpa only [Joins, ← hsrc, ← htgt] using h

theorem offer_of_joins {cell : EdgeRecord → ℕ → AdjEntry} {view : Option EdgeRecord} {accept : AdjEntry → Bool}
    (hjn : ∀ edge, view = some edge → Joins dir edge nodeId nbr) :
    ((view.bind (entryAt cell nodeId dir)).filter accept).map toRecord =
      (view.filter fun edge => accept (cell edge nbr)).map fun edge => toRecord (cell edge nbr) := by
  cases view with
  | none => rfl
  | some edge =>
    have hent := (entryAt_eq_some cell).mpr ⟨nbr, hjn edge rfl, rfl⟩
    rw [bind_some, hent, filter_some, filter_some]
    split <;> rfl

theorem memtableOffer_turned {s : ℕ} {m : MemtableState} {edgeId : ℕ}
    (hjn : ∀ edge, m.getEdgeAt edgeId s = some edge → Joins dir edge nodeId nbr) :
    memtableOffer nbr (reverseDirection dir) fids s m edgeId = (memtableOffer nodeId dir fids s m edgeId).map (turned nodeId) := by
  rw [memtableOffer, memtableOffer, offer_of_joins hjn, offer_of_joins fun edge hedge => joins_reverse.mpr (hjn edge hedge)]
  cases hnode : m.isNodeDeletedAt nodeId s <;> cases hnbr : m.isNodeDeletedAt nbr s <;>
    cases hview : m.getEdgeAt edgeId s <;> simp [adjEntry, labelAccepted, filter_some, hnode, hnbr]
  all_goals split <;> rfl

variable {seg : Segment}

theorem segmentOffer_turned {edgeId : ℕ} (hjn : ∀ edge, seg.getEdge edgeId = some edge → Joins dir edge nodeId nbr)
    (hnode : seg.isNodeDeleted nodeId = false) (hnbr : seg.isNodeDeleted nbr = false) :
    segmentOffer nbr (reverseDirection dir) fids seg edgeId = (segmentOffer nodeId dir fids seg edgeId).map (turned nodeId) := by
  rw [segmentOffer, segmentOffer, offer_of_joins hjn, offer_of_joins fun edge hedge => joins_reverse.mpr (hjn edge hedge)]
  cases hview : seg.getEdge edgeId with
  | none => rfl
  | some edge =>
    simp [storedPosting, adjEntry, labelAccepted, filter_some, hnode, hnbr]
    split <;> rfl

variable {edgeId : ℕ} {edge : EdgeRecord} {m : MemtableState}

/-- An edge as a memtable or a segment has it is what the layer says about it. -/
theorem memtable_edge (h : Stored sl) (hm : m ∈ sl.active :: sl.immutable)
    (hedge : m.getEdgeAt edgeId sl.snapshotSeq = some edge) : ∃ lay ∈ sl.edgeLayers, lay edgeId = some (some edge) := by
  refine ⟨m.edgeOpinion, mem_append_left _ (mem_map_of_mem hm), ?_⟩
  rwa [(h.wellFormed.settled m hm).getEdgeAt, currentEdge_eq, join_eq_some_iff] at hedge

theorem segment_edge (hseg : seg ∈ sl.segments) (hedge : seg.getEdge edgeId = some edge) :
    ∃ lay ∈ sl.edgeLayers, lay edgeId = some (some edge) := by
  refine ⟨seg.edgeOpinion, mem_append_right _ (mem_map_of_mem hseg), ?_⟩
  have hkept : seg.isEdgeDeleted edgeId = false := by
    rw [Segment.getEdge] at hedge
    split at hedge
    · cases hedge
    · exact Bool.eq_false_iff.mpr ‹_›
  rw [Segment.edgeOpinion, hkept, hedge]
  rfl

/-- The edge is at the two nodes in all layers. -/
def JoinedIn (sl : SourceList) (dir : Direction) (edgeId nodeId nbr : ℕ) : Prop :=
  ∀ lay ∈ sl.edgeLayers, ∀ edge, lay edgeId = some (some edge) → Joins dir edge nodeId nbr

theorem JoinedIn.memtable (h : Stored sl) (hjoin : JoinedIn sl dir edgeId nodeId nbr)
    (hm : m ∈ sl.active :: sl.immutable) (hedge : m.getEdgeAt edgeId sl.snapshotSeq = some edge) :
    Joins dir edge nodeId nbr := by
  obtain ⟨lay, hlay, hsame⟩ := memtable_edge h hm hedge
  exact hjoin lay hlay edge hsame

theorem JoinedIn.segment (hjoin : JoinedIn sl dir edgeId nodeId nbr) (hseg : seg ∈ sl.segments)
    (hedge : seg.getEdge edgeId = some edge) : Joins dir edge nodeId nbr := by
  obtain ⟨lay, hlay, hsame⟩ := segment_edge hseg hedge
  exact hjoin lay hlay edge hsame

variable {rec : NeighborRecord}

theorem memtableOffer_edge {s : ℕ} (hoff : memtableOffer nodeId dir fids s m edgeId = some rec) :
    ∃ edge, m.getEdgeAt edgeId s = some edge ∧ Joins dir edge nodeId rec.nodeId := by
  rw [memtableOffer] at hoff
  split at hoff
  · cases hoff
  · obtain ⟨edge, other, hedge, hjn, -, rfl⟩ := offer_eq_some.mp hoff
    exact ⟨edge, hedge, hjn⟩

theorem segmentOffer_edge (hoff : segmentOffer nodeId dir fids seg edgeId = some rec) :
    ∃ edge, seg.getEdge edgeId = some edge ∧ Joins dir edge nodeId rec.nodeId := by
  obtain ⟨edge, other, hedge, hjn, -, rfl⟩ := offer_eq_some.mp hoff
  exact ⟨edge, hedge, hjn⟩

theorem olderOffer_edge (h : Stored sl) (hoff : olderOffer sl nodeId dir fids edgeId = some rec) :
    ∃ lay ∈ sl.edgeLayers, ∃ edge, lay edgeId = some (some edge) ∧ Joins dir edge nodeId rec.nodeId := by
  rw [olderOffer, or_eq_some_iff] at hoff
  obtain hoff | ⟨-, hoff⟩ := hoff
  · obtain ⟨m, hm, hoff⟩ := exists_of_findSome?_eq_some hoff
    obtain ⟨edge, hedge, hjn⟩ := memtableOffer_edge hoff
    obtain ⟨lay, hlay, hsame⟩ := memtable_edge h (mem_cons_of_mem _ hm) hedge
    exact ⟨lay, hlay, edge, hsame, hjn⟩
  · obtain ⟨seg, hseg, hoff⟩ := exists_of_findSome?_eq_some hoff
    obtain ⟨edge, hedge, hjn⟩ := segmentOffer_edge hoff
    obtain ⟨lay, hlay, hsame⟩ := segment_edge hseg hedge
    exact ⟨lay, hlay, edge, hsame, hjn⟩

theorem neighborFound_edge (h : Stored sl)
    (hfnd : neighborFound sl nodeId dir fids edgeId = some rec) :
    ∃ lay ∈ sl.edgeLayers, ∃ edge, lay edgeId = some (some edge) ∧ Joins dir edge nodeId rec.nodeId := by
  rw [neighborFound, or_eq_some_iff] at hfnd
  obtain hoff | ⟨-, hoff⟩ := hfnd
  · obtain ⟨edge, hedge, hjn⟩ := memtableOffer_edge hoff
    obtain ⟨lay, hlay, hsame⟩ := memtable_edge h mem_cons_self hedge
    exact ⟨lay, hlay, edge, hsame, hjn⟩
  · exact olderOffer_edge h (filter_eq_some_iff.mp hoff).1

theorem neighborFound_of_linkFound (hfnd : linkFound sl nodeId dir fids edgeId = some rec) :
    neighborFound sl nodeId dir fids edgeId = some rec := by
  rw [linkFound, or_eq_some_iff] at hfnd
  rw [neighborFound, or_eq_some_iff]
  obtain hoff | ⟨hnone, hoff⟩ := hfnd
  · exact Or.inl hoff
  · obtain ⟨holder, hkept⟩ := filter_eq_some_iff.mp hoff
    rw [Bool.and_eq_true, Bool.not_eq_true', Bool.not_eq_true', Bool.or_eq_false_iff] at hkept
    refine Or.inr ⟨hnone, filter_eq_some_iff.mpr ⟨holder, ?_⟩⟩
    rw [hkept.1, hkept.2.1]
    rfl

theorem linkFound_of_neighborFound (hnode : isNodeTombstoned sl nodeId = false) :
    linkFound sl nodeId dir fids edgeId = neighborFound sl nodeId dir fids edgeId := by
  rw [linkFound, neighborFound]
  simp only [hnode, Bool.or_false]

theorem not_found_of_empty : neighborFound sl nodeId dir (some []) edgeId ≠ some rec := by
  intro hfnd
  have hmem : ∀ (m : MemtableState) found, memtableOffer nodeId dir (some []) sl.snapshotSeq m edgeId ≠ some found := by
    intro m found hoff
    rw [memtableOffer] at hoff
    split at hoff
    · cases hoff
    · obtain ⟨edge, other, -, -, haccept, -⟩ := offer_eq_some.mp hoff
      simp [labelAccepted] at haccept
  have hseg' : ∀ (seg : Segment) found, segmentOffer nodeId dir (some []) seg edgeId ≠ some found := by
    intro seg found hoff
    obtain ⟨edge, other, -, -, haccept, -⟩ := offer_eq_some.mp hoff
    simp [labelAccepted] at haccept
  rw [neighborFound, or_eq_some_iff] at hfnd
  obtain hoff | ⟨-, hoff⟩ := hfnd
  · exact hmem _ _ hoff
  · have holder := (filter_eq_some_iff.mp hoff).1
    rw [olderOffer, or_eq_some_iff] at holder
    obtain holder | ⟨-, holder⟩ := holder
    · obtain ⟨m, -, hoff⟩ := exists_of_findSome?_eq_some holder
      exact hmem m _ hoff
    · obtain ⟨seg, -, hoff⟩ := exists_of_findSome?_eq_some holder
      exact hseg' seg _ hoff

section
variable (h : Stored sl) (hfnd : linkFound sl nodeId dir fids edgeId = some rec)
include h hfnd

theorem linkFound_edge :
    ∃ lay ∈ sl.edgeLayers, ∃ edge, lay edgeId = some (some edge) ∧ Joins dir edge nodeId rec.nodeId :=
  neighborFound_edge h (neighborFound_of_linkFound hfnd)

theorem linkFound_edgeId : rec.edgeId = edgeId :=
  neighborFound_edgeId h (neighborFound_of_linkFound hfnd)

end

theorem joins_unique {other : ℕ} (h : Joins dir edge nodeId nbr) (h' : Joins dir edge nodeId other) : nbr = other := by
  cases dir with
  | outgoing | incoming => exact h.2.symm.trans h'.2
  | both => obtain ⟨h1, h2⟩ | ⟨h1, h2⟩ := h <;> obtain ⟨h3, h4⟩ | ⟨h3, h4⟩ := h' <;> omega

theorem findSome?_map_congr {α β : Type} {l : List α} {f g : α → Option β} {change : β → β}
    (hsame : ∀ a ∈ l, g a = (f a).map change) : l.findSome? g = (l.findSome? f).map change := by
  induction l with
  | nil => rfl
  | cons a l ih =>
    rw [findSome?_cons, findSome?_cons, hsame a mem_cons_self, ih fun b hb => hsame b (mem_cons_of_mem _ hb)]
    cases f a <;> rfl

theorem filter_const {α : Type} {o : Option α} {p : α → Bool} (c : Bool) (h : ∀ a, o = some a → p a = c) :
    o.filter p = if c then o else none := by
  cases o with
  | none => simp
  | some a => rw [filter_some, h a rfl]

section
variable (h : Stored sl) (hjoin : JoinedIn sl dir edgeId nodeId nbr)
include h hjoin

/-- Where no layer has deleted the two nodes, the older layers offer the edge at both. -/
theorem olderOffer_turned (hnode : isNodeTombstoned sl nodeId = false) (hnbr : isNodeTombstoned sl nbr = false) :
    olderOffer sl nbr (reverseDirection dir) fids edgeId = (olderOffer sl nodeId dir fids edgeId).map (turned nodeId) := by
  have hclean : ∀ id, isNodeTombstoned sl id = false → ∀ seg ∈ sl.segments, seg.isNodeDeleted id = false := by
    intro id htomb seg hseg
    rw [isNodeTombstoned, Bool.or_eq_false_iff, any_eq_false, any_eq_false] at htomb
    exact Bool.eq_false_iff.mpr (htomb.2 seg hseg)
  have hmems : (sl.immutable.findSome? fun m => memtableOffer nbr (reverseDirection dir) fids sl.snapshotSeq m edgeId) =
      (sl.immutable.findSome? fun m => memtableOffer nodeId dir fids sl.snapshotSeq m edgeId).map (turned nodeId) :=
    findSome?_map_congr fun m hm => memtableOffer_turned fun edge hedge => hjoin.memtable h (mem_cons_of_mem _ hm) hedge
  have hsegs : (sl.segments.findSome? fun seg => segmentOffer nbr (reverseDirection dir) fids seg edgeId) =
      (sl.segments.findSome? fun seg => segmentOffer nodeId dir fids seg edgeId).map (turned nodeId) :=
    findSome?_map_congr fun seg hseg => segmentOffer_turned (fun edge hedge => hjoin.segment hseg hedge)
      (hclean nodeId hnode seg hseg) (hclean nbr hnbr seg hseg)
  rw [olderOffer, olderOffer, map_or, hmems, hsegs]

theorem linkFound_turned :
    linkFound sl nbr (reverseDirection dir) fids edgeId = (linkFound sl nodeId dir fids edgeId).map (turned nodeId) := by
  have hact := @memtableOffer_turned dir fids nodeId nbr sl.snapshotSeq sl.active edgeId
    fun edge hedge => hjoin.memtable h mem_cons_self hedge
  have hback : JoinedIn sl (reverseDirection dir) edgeId nbr nodeId := fun lay hlay edge hedge =>
    joins_reverse.mpr (hjoin lay hlay edge hedge)
  have hnode : ∀ rec, olderOffer sl nodeId dir fids edgeId = some rec → rec.nodeId = nbr := by
    intro rec hoff
    obtain ⟨lay, hlay, edge, hedge, hjn⟩ := olderOffer_edge h hoff
    exact (joins_unique (hjoin lay hlay edge hedge) hjn).symm
  have hnbr : ∀ rec, olderOffer sl nbr (reverseDirection dir) fids edgeId = some rec → rec.nodeId = nodeId := by
    intro rec hoff
    obtain ⟨lay, hlay, edge, hedge, hjn⟩ := olderOffer_edge h hoff
    exact (joins_unique (hback lay hlay edge hedge) hjn).symm
  have hhere : ((olderOffer sl nodeId dir fids edgeId).filter fun rec => !isEdgeTombstoned sl edgeId &&
      !(isNodeTombstoned sl rec.nodeId || isNodeTombstoned sl nodeId)) =
      if !isEdgeTombstoned sl edgeId && !(isNodeTombstoned sl nbr || isNodeTombstoned sl nodeId)
        then olderOffer sl nodeId dir fids edgeId else none :=
    filter_const _ fun rec hoff => by rw [hnode rec hoff]
  have hthere : ((olderOffer sl nbr (reverseDirection dir) fids edgeId).filter fun rec =>
      !isEdgeTombstoned sl edgeId && !(isNodeTombstoned sl rec.nodeId || isNodeTombstoned sl nbr)) =
      if !isEdgeTombstoned sl edgeId && !(isNodeTombstoned sl nbr || isNodeTombstoned sl nodeId)
        then olderOffer sl nbr (reverseDirection dir) fids edgeId else none :=
    filter_const _ fun rec hoff => by rw [hnbr rec hoff, Bool.or_comm (isNodeTombstoned sl nodeId)]
  rw [linkFound, linkFound, hact, hhere, hthere, map_or]
  congr 1
  split
  · have hclean : isNodeTombstoned sl nbr = false ∧ isNodeTombstoned sl nodeId = false := by simp_all
    exact olderOffer_turned h hjoin hclean.2 hclean.1
  · rfl

end

/-- A link leads back against the direction. -/
theorem linked_reverse (h : Stored sl) (hends : EndsKept sl) (now : ℤ) :
    Linked sl (reverseDirection dir) fids now = backward (Linked sl dir fids now) := by
  have hturn : ∀ (dir : Direction) src edgeId nbr, Linked sl dir fids now src edgeId nbr →
      Linked sl (reverseDirection dir) fids now nbr edgeId src := by
    rintro dir src edgeId nbr ⟨rec, hfnd, rfl, hvd⟩
    obtain ⟨lay, hlay, edge, hedge, hjn⟩ := linkFound_edge h hfnd
    have hjoin : JoinedIn sl dir edgeId src rec.nodeId := by
      intro other hoth edge' hedge'
      obtain ⟨hsrc, htgt⟩ := hends lay hlay other hoth edgeId edge edge' hedge hedge'
      exact hjn.congr hsrc htgt
    refine ⟨turned src rec, ?_, rfl, hvd⟩
    rw [linkFound_turned h hjoin, hfnd]
    rfl
  funext src edgeId nbr
  apply propext
  constructor
  · intro hlinked
    have hback := hturn _ _ _ _ hlinked
    rwa [reverseDirection_reverse] at hback
  · exact hturn dir nbr edgeId src

theorem neighborFound_visible (h : Stored sl) (hends : EndsKept sl)
    (hfnd : neighborFound sl nodeId dir fids edgeId = some rec) :
    ∃ edge, visible sl.edgeLayers edgeId = some edge ∧ Joins dir edge nodeId rec.nodeId := by
  obtain ⟨lay, hlay, edge, hedge, hjn⟩ := neighborFound_edge h hfnd
  have hvis : ∃ newest, visible sl.edgeLayers edgeId = some newest := by
    rw [neighborFound, or_eq_some_iff] at hfnd
    obtain hoff | ⟨-, hoff⟩ := hfnd
    · obtain ⟨active, hact, -⟩ := memtableOffer_edge hoff
      rw [(h.wellFormed.settled sl.active mem_cons_self).getEdgeAt, currentEdge_eq, join_eq_some_iff] at hact
      refine ⟨active, ?_⟩
      rw [visible, edgeLayers_shown sl nodeId dir, firstOpinion_cons, hact]
      rfl
    · obtain ⟨-, hkept⟩ := filter_eq_some_iff.mp hoff
      rw [Bool.and_eq_true, Bool.not_eq_true', isEdgeTombstoned_eq_false h] at hkept
      cases hfst : firstOpinion sl.edgeLayers edgeId with
      | none => exact absurd (hedge.symm.trans (findSome?_eq_none_iff.mp hfst lay hlay)) (by simp)
      | some opinion =>
        obtain ⟨fst, hmem, hop⟩ := exists_of_findSome?_eq_some hfst
        cases opinion with
        | none => exact absurd hop (hkept.1 fst hmem)
        | some newest => exact ⟨newest, by rw [visible, hfst]; rfl⟩
  obtain ⟨newest, hnewest⟩ := hvis
  obtain ⟨fst, hmem, hop⟩ := exists_of_findSome?_eq_some (join_eq_some_iff.mp hnewest)
  obtain ⟨hsrc, htgt⟩ := hends lay hlay fst hmem edgeId edge newest hedge hop
  exact ⟨newest, hnewest, hjn.congr hsrc htgt⟩

end

open CascadingDeletes in
def graphSources (nodes : List NodeRecord) (edges : List EdgeRecord) : SourceList :=
  applyBatch emptySources (nodes.map WalOp.upsertNode ++ edges.map WalOp.upsertEdge)

section
variable (nodes : List NodeRecord) (edges : List EdgeRecord)

theorem stored_graphSources : Stored (graphSources nodes edges) :=
  CascadingDeletes.stored_applyBatch CascadingDeletes.stored_empty _

theorem endsKept_graphSources : EndsKept (graphSources nodes edges) := by
  intro lay hlay other hoth id edge edge' hedge hedge'
  obtain rfl := mem_singleton.mp hlay
  obtain rfl := mem_singleton.mp hoth
  rw [hedge] at hedge'
  cases hedge'
  exact ⟨rfl, rfl⟩

end

/-- An edge that is valid at all times from zero on. -/
def edgeBetween (id source target : ℕ) : EdgeRecord := ⟨id, source, target, 1, ∅, 0, 0, 0, 0, i64Max, 0⟩

end OverGraph.Expansion
