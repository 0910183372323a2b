import OverGraph.KeyedReads

/-!
# Every layering of a history reads the same

A history of operations may be cut at will into segments, immutable memtables and an
active memtable. Whatever the cut, the reads at the last sequence number are those of
one memtable that received the whole history. Lookups by triple are the exception:
they trust the newest claim on the triple without looking at newer versions of the
claimant, so they agree as long as no edge is ever written with a second triple.
-/

namespace OverGraph.Cuts
open Records LayeredWrites GraphView Memtable MemtableState Segments Sources List SourceList

/-- The operations each layer received, the layers newest first and the operations of a
layer oldest first. -/
structure Layering where
  active : List SeqOp
  immutable : List (List SeqOp)
  segments : List (List SeqOp)

namespace Layering
variable (L : Layering)

def chunks : List (List SeqOp) := L.active :: L.immutable ++ L.segments

def history : List SeqOp := L.chunks.reverse.flatten

/-- The layers these operations produce, read at the last sequence number. -/
def sources : SourceList := ⟨ofOps L.active, L.immutable.map ofOps, L.segments.map fun ops => writeSegment (ofOps ops), lastSeq L.history⟩

/-- The layering that keeps everything in one memtable. -/
def single : Layering := ⟨L.history, [], []⟩

@[simp] theorem history_single : L.single.history = L.history := by simp [single, history, chunks]

variable {L} {ops : List SeqOp}

theorem mem_history (h : ops ∈ L.chunks) {op : SeqOp} (hop : op ∈ ops) : op ∈ L.history := mem_flatten.mpr ⟨ops, by simpa using h, hop⟩

theorem memtable_chunk {m : MemtableState} (hm : m ∈ L.sources.active :: L.sources.immutable) :
    ∃ ops ∈ L.chunks, m = ofOps ops := by
  rcases mem_cons.mp hm with rfl | hm
  · exact ⟨L.active, by simp [chunks], rfl⟩
  · obtain ⟨ops, hops, rfl⟩ := mem_map.mp hm
    exact ⟨ops, by simp [chunks, hops], rfl⟩

theorem segment_chunk {seg : Segment} (hs : seg ∈ L.sources.segments) : ∃ ops ∈ L.chunks, seg = writeSegment (ofOps ops) := by
  obtain ⟨ops, hops, rfl⟩ := mem_map.mp hs
  exact ⟨ops, by simp [chunks, hops], rfl⟩

theorem wellFormed (L : Layering) : L.sources.WellFormed where
  settled m hm := by
    obtain ⟨ops, hops, rfl⟩ := memtable_chunk hm
    exact settledBy_ofOps fun op hop => le_lastSeq (mem_history hops hop)
  tombstones m hm := by
    obtain ⟨ops, -, rfl⟩ := memtable_chunk hm
    exact tombstonesAgree_ofOps ops

theorem segment_nodeOpinion (ops : List SeqOp) : (writeSegment (ofOps ops)).nodeOpinion = nodeLog ops := by
  funext id
  rw [nodeOpinion_writeSegment (tombstonesAgree_ofOps ops), nodeOpinion_ofOps]

theorem segment_edgeOpinion (ops : List SeqOp) : (writeSegment (ofOps ops)).edgeOpinion = edgeLog ops := by
  funext id
  rw [edgeOpinion_writeSegment (tombstonesAgree_ofOps ops), edgeOpinion_ofOps]

section
variable (L : Layering)

theorem nodeLayers_sources : L.sources.nodeLayers = L.chunks.map nodeLog := by
  simp [nodeLayers, sources, chunks, nodeOpinion_ofOps, segment_nodeOpinion, Function.comp_def]

theorem edgeLayers_sources : L.sources.edgeLayers = L.chunks.map edgeLog := by
  simp [edgeLayers, sources, chunks, edgeOpinion_ofOps, segment_edgeOpinion, Function.comp_def]

/-- The nodes the layers show are those the history left. -/
theorem visible_nodes : visible L.sources.nodeLayers = nodesAfter L.history := by
  funext id
  rw [visible, nodeLayers_sources, nodeLog_chunks, nodesAfter, history]

theorem visible_edges : visible L.sources.edgeLayers = edgesAfter L.history := by
  funext id
  rw [visible, edgeLayers_sources, edgeLog_chunks, edgesAfter, history]

end

theorem exists_history_split (hops : ops ∈ L.chunks) : ∃ old new, L.history = (old ++ ops) ++ new := by
  obtain ⟨newer, older, hsp⟩ := append_of_mem hops
  exact ⟨older.reverse.flatten, newer.reverse.flatten, by simp [history, hsp]⟩

theorem chunk_keysUnambiguous (h : KeysUnambiguous L.history)
    (hops : ops ∈ L.chunks) : KeysUnambiguous ops := by
  obtain ⟨old, new, hh⟩ := exists_history_split hops
  rw [hh] at h
  exact h.past.recent

theorem chunk_unambiguous (h : Unambiguous L.history) (hops : ops ∈ L.chunks) : Unambiguous ops := by
  obtain ⟨old, new, hh⟩ := exists_history_split hops
  rw [hh] at h
  exact h.past.recent

theorem older_past {older : List (List SeqOp)} (h : older <:+ L.chunks) : older.reverse.flatten <+: L.history := by
  obtain ⟨newer, hnew'⟩ := h
  rw [history, ← hnew', reverse_append, flatten_append]
  exact prefix_append _ _

theorem keyLayers_sources : L.sources.keyLayers.map (·.opinion) = L.chunks.map nodeLog := by
  rw [keyLayers_opinion, nodeLayers_sources]

theorem keysIndexed (h : KeysUnambiguous L.history) : L.sources.KeysIndexed where
  wellFormed := L.wellFormed
  exact := by
    intro lay hl
    rcases mem_append.mp hl with hl | hl
    · obtain ⟨m, hm, rfl⟩ := mem_map.mp hl
      obtain ⟨ops, hops, rfl⟩ := memtable_chunk hm
      intro k id
      have hix := keyIndexExact_ofOps (chunk_keysUnambiguous h hops) k.1 k.2 id
      simp only [keyLayer, Option.join_eq_some_iff, ← currentNode_eq]
      exact hix
    · obtain ⟨seg, hs, rfl⟩ := mem_map.mp hl
      obtain ⟨ops, hops, rfl⟩ := segment_chunk hs
      intro k id
      have hu := chunk_keysUnambiguous h hops _ (prefix_refl _)
      rw [← currentNode_ofOps] at hu
      simp only [segmentKeyLayer, segment_nodeOpinion]
      rw [nodeIdByKey_writeSegment hu, currentNode_ofOps]
      rfl
  onceUnique := by
    intro older hold
    have hmap := hold.map (·.opinion)
    rw [keyLayers_sources] at hmap
    obtain ⟨chunks, hc, hcks⟩ := suffix_map_iff.mp hmap
    have hview : visible (older.map (·.opinion)) = nodesAfter chunks.reverse.flatten := by
      funext id
      rw [visible, hcks, nodeLog_chunks, nodesAfter]
    rw [hview]
    exact h _ (older_past hc)
  ids := by
    intro lay hl id node hn
    rw [nodeLayers_sources] at hl
    obtain ⟨ops, -, rfl⟩ := mem_map.mp hl
    exact nodeLog_id hn

theorem tripleLayers_sources : L.sources.tripleLayers.map (·.opinion) = L.chunks.map edgeLog := by
  rw [tripleLayers_opinion, edgeLayers_sources]

theorem triplesIndexed (h : Unambiguous L.history) : L.sources.TriplesIndexed where
  wellFormed := L.wellFormed
  exact := by
    intro lay hl
    rcases mem_append.mp hl with hl | hl
    · obtain ⟨m, hm, rfl⟩ := mem_map.mp hl
      obtain ⟨ops, hops, rfl⟩ := memtable_chunk hm
      intro t id
      simp only [tripleLayer, ← currentEdge_eq]
      exact tripleIndexExact_ofOps (chunk_unambiguous h hops) t id
    · obtain ⟨seg, hs, rfl⟩ := mem_map.mp hl
      obtain ⟨ops, hops, rfl⟩ := segment_chunk hs
      intro t id
      have hu := (chunk_unambiguous h hops).triples _ (prefix_refl _)
      rw [← currentEdge_ofOps] at hu
      simp only [segmentTripleLayer, segment_edgeOpinion]
      rw [edgeIdByTriple_writeSegment hu, currentEdge_ofOps]
      rfl
  first := by
    intro seg hs
    obtain ⟨ops, hops, rfl⟩ := segment_chunk hs
    have hu := (chunk_unambiguous h hops).triples _ (prefix_refl _)
    rw [← currentEdge_ofOps] at hu
    exact firstIdByTriple_writeSegment hu
  onceUnique := by
    intro older hold
    have hmap := hold.map (·.opinion)
    rw [tripleLayers_sources] at hmap
    obtain ⟨chunks, hc, hcks⟩ := suffix_map_iff.mp hmap
    have hview : visible (older.map (·.opinion)) = edgesAfter chunks.reverse.flatten := by
      funext id
      rw [visible, hcks, edgeLog_chunks, edgesAfter]
    rw [hview]
    exact h.triples _ (older_past hc)
  ids := by
    intro lay hl id edge he
    rw [edgeLayers_sources] at hl
    obtain ⟨ops, -, rfl⟩ := mem_map.mp hl
    exact edgeLog_id he

theorem triplesKept (h : TriplesFixed L.history) : L.sources.TriplesKept := by
  intro lay hl layer' hl' id edge edge' he he'
  rw [edgeLayers_sources] at hl hl'
  obtain ⟨ops, hops, rfl⟩ := mem_map.mp hl
  obtain ⟨ops', hops', rfl⟩ := mem_map.mp hl'
  obtain ⟨q, e, hmem, rfl⟩ := edgeLog_written he
  obtain ⟨q', e', hmem', rfl⟩ := edgeLog_written he'
  exact h q q' e e' (mem_history hops hmem) (mem_history hops' hmem')
    ((edgeLog_id he).trans (edgeLog_id he').symm)

end Layering

/-- Two source lists answer every node lookup and every edge lookup by identifier alike. -/
structure SameReads (sl sl' : SourceList) : Prop where
  findNode : ∀ id, sl.findNode id = sl'.findNode id
  findNodes : ∀ ids, sl.findNodes ids = sl'.findNodes ids
  findEdge : ∀ id, sl.findEdge id = sl'.findEdge id
  findEdges : ∀ ids, sl.findEdges ids = sl'.findEdges ids
  findNodesByLabelKeys : ∀ keys, sl.findNodesByLabelKeys keys = sl'.findNodesByLabelKeys keys
  findNodeIdsByLabelKeys : ∀ keys, sl.findNodeIdsByLabelKeys keys = sl'.findNodeIdsByLabelKeys keys

/-- Two source lists answer every lookup by triple alike. -/
structure SameTripleReads (sl sl' : SourceList) : Prop where
  findEdgeByTriple : ∀ t, sl.findEdgeByTriple t = sl'.findEdgeByTriple t
  findEdgesByTriples : ∀ ts, sl.findEdgesByTriples ts = sl'.findEdgesByTriples ts

/-- The batched lookups are lists of single lookups. -/
structure BatchesPointwise (sl : SourceList) : Prop where
  nodes : ∀ ids, sl.findNodes ids = ids.map sl.findNode
  edges : ∀ ids, sl.findEdges ids = ids.map sl.findEdge
  keys : ∀ keys, sl.findNodesByLabelKeys keys = keys.map fun key => sl.findNodeByLabelKey key.1 key.2
  ids : ∀ keys, sl.findNodeIdsByLabelKeys keys = (sl.findNodesByLabelKeys keys).map (Option.map (·.id))
  triples : ∀ ts, sl.findEdgesByTriples ts = ts.map sl.findEdgeByTriple

namespace Layering
variable {L L' : Layering}

section
variable (hh : L.history = L'.history) (h : Unambiguous L.history)
include hh h

theorem sameReads : SameReads L.sources L'.sources := by
  have h' : Unambiguous L'.history := hh ▸ h
  have hnos : visible L.sources.nodeLayers = visible L'.sources.nodeLayers := by rw [visible_nodes, visible_nodes, hh]
  have heds : visible L.sources.edgeLayers = visible L'.sources.edgeLayers := by rw [visible_edges, visible_edges, hh]
  refine ⟨fun id => ?_, fun ids => ?_, fun id => ?_, fun ids => ?_, fun keys => ?_, fun keys => ?_⟩
  · rw [L.wellFormed.findNode, L'.wellFormed.findNode, hnos]
  · rw [L.wellFormed.findNodes, L'.wellFormed.findNodes, hnos]
  · rw [L.wellFormed.findEdge, L'.wellFormed.findEdge, heds]
  · rw [L.wellFormed.findEdges, L'.wellFormed.findEdges, heds]
  · rw [(keysIndexed h.keys).findNodesByLabelKeys, (keysIndexed h'.keys).findNodesByLabelKeys, hnos]
  · rw [(keysIndexed h.keys).findNodeIdsByLabelKeys, (keysIndexed h'.keys).findNodeIdsByLabelKeys, hnos]

theorem sameTripleReads (hfixed : TriplesFixed L.history) : SameTripleReads L.sources L'.sources := by
  have h' : Unambiguous L'.history := hh ▸ h
  have hkept' := triplesKept (L := L') (hh ▸ hfixed)
  have hone : ∀ t, L.sources.findEdgeByTriple t = L'.sources.findEdgeByTriple t := fun t => by
    rw [(triplesIndexed h).findEdgeByTriple (triplesKept hfixed),
      (triplesIndexed h').findEdgeByTriple hkept', visible_edges, visible_edges, hh]
  refine ⟨hone, fun ts => ?_⟩
  rw [(triplesIndexed h).findEdgesByTriples, (triplesIndexed h').findEdgesByTriples]
  exact map_congr_left fun t _ => hone t

end

theorem batchesPointwise (h : Unambiguous L.history) : BatchesPointwise L.sources where
  nodes ids := by
    rw [L.wellFormed.findNodes]
    exact map_congr_left fun id _ => (L.wellFormed.findNode id).symm
  edges ids := by
    rw [L.wellFormed.findEdges]
    exact map_congr_left fun id _ => (L.wellFormed.findEdge id).symm
  keys keys := by
    rw [(keysIndexed h.keys).findNodesByLabelKeys]
    exact map_congr_left fun key _ => ((keysIndexed h.keys).findNodeByLabelKey key.1 key.2).symm
  ids keys := by
    rw [(keysIndexed h.keys).findNodesByLabelKeys, (keysIndexed h.keys).findNodeIdsByLabelKeys, map_map]
    rfl
  triples := (triplesIndexed h).findEdgesByTriples

/-- Layering is transparent: whatever the cut of an unambiguous history, lookups by
identifier and by key read as in one memtable, batches read as single lookups, and so do
lookups by triple if every edge keeps its triple. -/
theorem layering_transparent (L : Layering) (h : Unambiguous L.history) :
    SameReads L.sources L.single.sources ∧ BatchesPointwise L.sources ∧
      (TriplesFixed L.history → SameTripleReads L.sources L.single.sources) :=
  ⟨sameReads L.history_single.symm h, batchesPointwise h,
    sameTripleReads L.history_single.symm h⟩

private def plainEdge (id source target labelId : ℕ) : EdgeRecord := ⟨id, source, target, labelId, ∅, 0, 0, 0, 0, 0, 0⟩

private def plainNode (id : ℕ) (key : String) : NodeRecord := ⟨id, .single 1 Nat.one_ne_zero, key, ∅, 0, 0, 0, none, none, 0⟩

/-- A node is renamed in the active memtable over an immutable one and a segment, and an
edge is rewritten in place. -/
private def renamed : Layering where
  active := [(4, .upsertNode (plainNode 7 "b")), (5, .upsertEdge (plainEdge 8 7 7 2))]
  immutable := [[(3, .upsertEdge (plainEdge 8 7 7 2))]]
  segments := [[(1, .upsertNode (plainNode 7 "a")), (2, .deleteEdge 8 0)]]

theorem renamed_unambiguous : Unambiguous renamed.history := unambiguous_of_one_each 7 8 (by decide) (by decide)

theorem layering_transparent_renamed :
    SameReads renamed.sources renamed.single.sources ∧ BatchesPointwise renamed.sources ∧
      SameTripleReads renamed.sources renamed.single.sources := by
  obtain ⟨hreads, hbatch, htriples⟩ := layering_transparent renamed renamed_unambiguous
  refine ⟨hreads, hbatch, htriples ?_⟩
  intro q q' e e' he he' _
  simp only [renamed, history, chunks, reverse_cons, reverse_nil, nil_append,
    cons_append, flatten_cons, flatten_nil, append_nil, mem_cons,
    Prod.mk.injEq, reduceCtorEq, and_false, false_or, WalOp.upsertEdge.injEq, not_mem_nil,
    or_false] at he he'
  obtain ⟨-, rfl⟩ | ⟨-, rfl⟩ := he <;> obtain ⟨-, rfl⟩ | ⟨-, rfl⟩ := he' <;> rfl

/-- An edge whose triple changes in the active memtable. -/
private def moved : Layering where
  active := [(2, .upsertEdge (plainEdge 1 1 4 3))]
  immutable := []
  segments := [[(1, .upsertEdge (plainEdge 1 1 2 3))]]

/-- A lookup by the old triple of a moved edge still finds the old version in the
segment. -/
theorem moved_edge_found_by_old_triple :
    ¬∀ L : Layering, (L.history.map Prod.fst).Pairwise (· < ·) → Unambiguous L.history →
      SameTripleReads L.sources L.single.sources := by
  intro h
  have hmoved := h moved (by decide) (unambiguous_of_one_each 0 1 (by decide) (by decide))
  have hlookup := congrArg (Option.map (·.id)) (hmoved.findEdgeByTriple (1, 2, 3))
  exact absurd hlookup (by decide)

end Layering
end OverGraph.Cuts
