import OverGraph.Bisection
import OverGraph.GroupedLists
import OverGraph.MemtableHeads

/-!
# Segments

A segment is the frozen head state of a memtable: the live records and the tombstones
in force. Its reader returns exactly what was written, so a segment is modelled by its
contents, and the key index by a search of the records. The triple index is sorted and
searched by halving, which of parallel edges may find any.
-/

namespace OverGraph.Segments
open AssocMaps VersionedSlots Records LayeredWrites GraphView Memtable MemtableState Bisection Option RecordState

structure Segment where
  nodes : Map ℕ NodeRecord
  edges : Map ℕ EdgeRecord
  deletedNodes : Map ℕ TombstoneEntry
  deletedEdges : Map ℕ TombstoneEntry

namespace Segment
variable (seg : Segment)

def isNodeDeleted (id : ℕ) : Bool := (seg.deletedNodes.lookup id).isSome

def isEdgeDeleted (id : ℕ) : Bool := (seg.deletedEdges.lookup id).isSome

def getNode (id : ℕ) : Option NodeRecord := if seg.isNodeDeleted id then none else seg.nodes.lookup id

def getEdge (id : ℕ) : Option EdgeRecord := if seg.isEdgeDeleted id then none else seg.edges.lookup id

/-- The key index holds one entry per live node and label. -/
def nodeIdByKey (labelId : ℕ) (key : String) : Option ℕ :=
  (seg.nodes.entries.find? fun e => e.2.labelIds.contains labelId && e.2.key == key).map (·.1)

def resolveKeysToIds (lookups : List (ℕ × ℕ × String)) : List (ℕ × ℕ) :=
  lookups.filterMap fun lookup => (seg.nodeIdByKey lookup.2.1 lookup.2.2).map fun id => (lookup.1, id)

def tripleOrder (entry : (ℕ × ℕ × ℕ) × ℕ) : ℕ ×ₗ ℕ ×ₗ ℕ ×ₗ ℕ := toLex (entry.1.1, toLex (entry.1.2.1, toLex (entry.1.2.2, entry.2)))

/-- The triple index holds one entry per live edge, sorted. -/
def edgeTripleIndex : List ((ℕ × ℕ × ℕ) × ℕ) :=
  (seg.edges.entries.map fun e => (e.2.triple, e.1)).insertionSort fun a b => tripleOrder a ≤ tripleOrder b

/-- Sources are compared first, then targets, then labels. -/
def tripleSide (triple : ℕ × ℕ × ℕ) (entry : (ℕ × ℕ × ℕ) × ℕ) : Ordering :=
  (compare entry.1.1 triple.1).then ((compare entry.1.2.1 triple.2.1).then (compare entry.1.2.2 triple.2.2))

def edgeIdByTriple (triple : ℕ × ℕ × ℕ) : Option ℕ := (bisect (tripleSide triple) seg.edgeTripleIndex).map (·.2)

def edgeByTriple (triple : ℕ × ℕ × ℕ) : Option EdgeRecord := (seg.edgeIdByTriple triple).bind seg.getEdge

/-- A batch of lookups takes the first entry of a triple, searching for it as well as walking to it. -/
def firstIdByTriple (triple : ℕ × ℕ × ℕ) : Option ℕ := (seg.edgeTripleIndex.find? fun e => e.1 == triple).map (·.2)

/-- What a segment says about a node. -/
def nodeOpinion : Opinion ℕ NodeRecord := fun id => if seg.isNodeDeleted id then some none else (seg.getNode id).map some

/-- What a segment says about an edge. -/
def edgeOpinion : Opinion ℕ EdgeRecord := fun id => if seg.isEdgeDeleted id then some none else (seg.getEdge id).map some

end Segment

/-- The segment a frozen memtable is written to. -/
def writeSegment (m : MemtableState) : Segment := ⟨m.liveNodes, m.liveEdges, m.deletedNodes, m.deletedEdges⟩

theorem lookup_liveNodes (m : MemtableState) (id : ℕ) : m.liveNodes.lookup id = m.currentNode id := by
  rw [liveNodes, lookup_filterMapEntries, currentNode, headAt]
  cases m.nodes.lookup id <;> rfl

theorem lookup_liveEdges (m : MemtableState) (id : ℕ) : m.liveEdges.lookup id = m.currentEdge id := by
  rw [liveEdges, lookup_filterMapEntries, currentEdge, headAt]
  cases m.edges.lookup id <;> rfl

theorem isSome_written {ρ : Type} {records : Map ℕ (VersionedSlot (RecordState ρ))} {tombstones : Map ℕ (VersionedSlot (Option Unit))}
    {id : ℕ} (hagree : (headAt tombstones id).join.isSome = true ↔ (headAt records id).map live? = some none) :
    ((tombstones.lookup id).bind fun slot => slot.current.bind fun _ => (headAt records id).bind tombstone?).isSome =
      (headAt tombstones id).join.isSome := by
  simp only [headAt] at hagree ⊢
  cases ht : tombstones.lookup id with
  | none => simp
  | some slot =>
    simp only [ht, map_some, join_some] at hagree ⊢
    cases hc : slot.current with
    | none => simp [hc]
    | some u =>
      simp only [hc, isSome_some, true_iff] at hagree
      cases hn : records.lookup id with
      | none => simp [hn] at hagree
      | some cell =>
        cases hs : cell.current with
        | live n => simp [hn, hs, live?] at hagree
        | tombstone e => simp [hs, hc, tombstone?]

section
variable {m : MemtableState} (h : TombstonesAgree m)
include h

section
variable (id : ℕ)

theorem isNodeDeleted_writeSegment : (writeSegment m).isNodeDeleted id = m.nodeDeleted id := by
  rw [Segment.isNodeDeleted, writeSegment, deletedNodes, lookup_filterMapEntries]
  exact isSome_written (h.nodes id)

theorem isEdgeDeleted_writeSegment : (writeSegment m).isEdgeDeleted id = m.edgeDeleted id := by
  rw [Segment.isEdgeDeleted, writeSegment, deletedEdges, lookup_filterMapEntries]
  exact isSome_written (h.edges id)

theorem getNode_writeSegment : (writeSegment m).getNode id = m.currentNode id := by
  rw [Segment.getNode, isNodeDeleted_writeSegment h]
  split
  · rename_i hd
    rw [currentNode_eq, (h.nodes id).mp hd]
    rfl
  · exact lookup_liveNodes m id

theorem getEdge_writeSegment : (writeSegment m).getEdge id = m.currentEdge id := by
  rw [Segment.getEdge, isEdgeDeleted_writeSegment h]
  split
  · rename_i hd
    rw [currentEdge_eq, (h.edges id).mp hd]
    rfl
  · exact lookup_liveEdges m id

theorem nodeOpinion_writeSegment : (writeSegment m).nodeOpinion id = m.nodeOpinion id := by
  rw [Segment.nodeOpinion, isNodeDeleted_writeSegment h, getNode_writeSegment h, currentNode_eq]
  have hagree := h.nodes id
  rcases ho : m.nodeOpinion id with - | (- | n) <;> simp_all

theorem edgeOpinion_writeSegment : (writeSegment m).edgeOpinion id = m.edgeOpinion id := by
  rw [Segment.edgeOpinion, isEdgeDeleted_writeSegment h, getEdge_writeSegment h, currentEdge_eq]
  have hagree := h.edges id
  rcases ho : m.edgeOpinion id with - | (- | e) <;> simp_all

end

end

theorem nodeIdByKey_eq_some_iff {seg : Segment} (hu : KeysUnique (seg.nodes.lookup ·)) (l : ℕ) (k : String) (id : ℕ) :
    seg.nodeIdByKey l k = some id ↔ OwnsKey (seg.nodes.lookup ·) l k id := by
  have hcar : ∀ node : NodeRecord, (node.labelIds.contains l && node.key == k) = true ↔ HasKey (l, k) node := by
    intro node
    simp [HasKey]
  have howns : ∀ e ∈ seg.nodes.entries, (e.2.labelIds.contains l && e.2.key == k) = true → OwnsKey (seg.nodes.lookup ·) l k e.1 := by
    intro e he hm'
    exact ⟨e.2, AList.mem_lookup_iff.mpr he, (hcar e.2).mp hm'⟩
  rw [Segment.nodeIdByKey]
  constructor
  · intro h
    obtain ⟨e, hfind, rfl⟩ := map_eq_some_iff.mp h
    have hm' := List.find?_some hfind
    exact howns e (List.mem_of_find?_eq_some hfind) hm'
  · intro hown
    obtain ⟨v, hv, hc⟩ := hown
    have hmem : (⟨id, v⟩ : Sigma fun _ => NodeRecord) ∈ seg.nodes.entries := AList.mem_lookup_iff.mp hv
    cases hfind : seg.nodes.entries.find? (fun e => e.2.labelIds.contains l && e.2.key == k) with
    | none =>
      have hnot := List.find?_eq_none.mp hfind ⟨id, v⟩ hmem
      exact absurd ((hcar v).mpr hc) hnot
    | some e =>
      have hm' := List.find?_some hfind
      have he := howns e (List.mem_of_find?_eq_some hfind) hm'
      exact congrArg some (hu (l, k) _ _ he ⟨v, hv, hc⟩)

namespace Segment
variable {seg : Segment} {t : ℕ × ℕ × ℕ}

theorem tripleSide_eq_iff (entry : (ℕ × ℕ × ℕ) × ℕ) : tripleSide t entry = .eq ↔ entry.1 = t := by simp [tripleSide, Prod.ext_iff]

theorem mem_edgeTripleIndex (entry : (ℕ × ℕ × ℕ) × ℕ) :
    entry ∈ seg.edgeTripleIndex ↔ ∃ edge, seg.edges.lookup entry.2 = some edge ∧ edge.triple = entry.1 := by
  rw [edgeTripleIndex, (List.perm_insertionSort _ _).mem_iff, List.mem_map]
  constructor
  · rintro ⟨e, he, rfl⟩
    exact ⟨e.2, AList.mem_lookup_iff.mpr he, rfl⟩
  · rintro ⟨edge, hedge, htri⟩
    exact ⟨⟨entry.2, edge⟩, AList.mem_lookup_iff.mp hedge, Prod.ext htri rfl⟩

theorem ordered_edgeTripleIndex (seg : Segment) (t : ℕ × ℕ × ℕ) : Ordered (tripleSide t) seg.edgeTripleIndex := by
  refine (GroupedLists.pairwise_sort tripleOrder _).imp fun {a b} hle => ?_
  simp only [tripleOrder, Prod.Lex.toLex_le_toLex] at hle
  simp only [tripleSide, Ordering.then_eq_lt, Ordering.then_eq_gt, compare_lt_iff_lt, compare_gt_iff_gt, compare_eq_iff_eq]
  omega

theorem edgeIdByTriple_some {id : ℕ} (h : seg.edgeIdByTriple t = some id) : ∃ edge, seg.edges.lookup id = some edge ∧ edge.triple = t := by
  obtain ⟨entry, hfnd, rfl⟩ := map_eq_some_iff.mp h
  obtain ⟨hmem, hside⟩ := mem_of_bisect hfnd
  rw [← (tripleSide_eq_iff entry).mp hside]
  exact (mem_edgeTripleIndex entry).mp hmem

theorem edgeIdByTriple_none (h : seg.edgeIdByTriple t = none) {id : ℕ} {edge : EdgeRecord}
    (hedge : seg.edges.lookup id = some edge) : edge.triple ≠ t := by
  intro htri
  have hnone := (bisect_eq_none_iff (ordered_edgeTripleIndex seg t)).mp (map_eq_none_iff.mp h)
  apply hnone (t, id) ((mem_edgeTripleIndex _).mpr ⟨edge, hedge, htri⟩)
  exact (tripleSide_eq_iff _).mpr rfl

end Segment

section
variable {seg : Segment} (hu : TriplesUnique (seg.edges.lookup ·)) (t : ℕ × ℕ × ℕ)
include hu

theorem edgeIdByTriple_eq_some_iff (id : ℕ) :
    seg.edgeIdByTriple t = some id ↔ OwnsTriple (seg.edges.lookup ·) t id := by
  constructor
  · exact Segment.edgeIdByTriple_some
  · intro hown
    have ⟨edge, hedge, htri⟩ := hown
    cases hfnd : seg.edgeIdByTriple t with
    | none => exact absurd htri (Segment.edgeIdByTriple_none hfnd hedge)
    | some other => exact congrArg some (hu t _ _ (Segment.edgeIdByTriple_some hfnd) hown)

theorem firstIdByTriple_eq : seg.firstIdByTriple t = seg.edgeIdByTriple t := by
  have hent : ∀ entry, (seg.edgeTripleIndex.find? fun e => e.1 == t) = some entry → OwnsTriple (seg.edges.lookup ·) t entry.2 := by
    intro entry hfnd
    have hm' := List.find?_some hfnd
    rw [← beq_iff_eq.mp hm']
    exact (Segment.mem_edgeTripleIndex entry).mp (List.mem_of_find?_eq_some hfnd)
  refine ext fun id => ?_
  rw [edgeIdByTriple_eq_some_iff hu, Segment.firstIdByTriple, map_eq_some_iff]
  constructor
  · rintro ⟨entry, hfnd, rfl⟩
    exact hent entry hfnd
  · rintro hown
    have hmem := (Segment.mem_edgeTripleIndex (t, id)).mpr hown
    have hsome : (seg.edgeTripleIndex.find? fun e => e.1 == t).isSome = true := List.find?_isSome.mpr ⟨_, hmem, beq_self_eq_true t⟩
    obtain ⟨entry, hfnd⟩ := isSome_iff_exists.mp hsome
    exact ⟨entry, hfnd, hu t _ _ (hent entry hfnd) hown⟩

end

theorem nodeIdByKey_writeSegment {m : MemtableState} (hu : KeysUnique m.currentNode) (l : ℕ) (k : String) (id : ℕ) :
    (writeSegment m).nodeIdByKey l k = some id ↔ OwnsKey m.currentNode l k id := by
  have hview : ((writeSegment m).nodes.lookup ·) = m.currentNode := funext (lookup_liveNodes m)
  rw [nodeIdByKey_eq_some_iff (hview ▸ hu), hview]

section
variable {m : MemtableState} (hu : TriplesUnique m.currentEdge) (t : ℕ × ℕ × ℕ)
include hu

theorem edgeIdByTriple_writeSegment (id : ℕ) :
    (writeSegment m).edgeIdByTriple t = some id ↔ OwnsTriple m.currentEdge t id := by
  have hview : ((writeSegment m).edges.lookup ·) = m.currentEdge := funext (lookup_liveEdges m)
  rw [edgeIdByTriple_eq_some_iff (hview ▸ hu), hview]

/-- Where no two edges share a triple, the first entry is the only one. -/
theorem firstIdByTriple_writeSegment :
    (writeSegment m).firstIdByTriple t = (writeSegment m).edgeIdByTriple t := by
  have hview : ((writeSegment m).edges.lookup ·) = m.currentEdge := funext (lookup_liveEdges m)
  exact firstIdByTriple_eq (hview ▸ hu) t

end

end OverGraph.Segments
