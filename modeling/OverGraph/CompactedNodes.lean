import OverGraph.Compaction
import OverGraph.WritePlans

/-!
# The nodes after a compaction

A compaction keeps the nodes of its inputs exactly when no tombstone is buried: when no
node that the memtables do not mention and that the segments show as live has a tombstone
in an older segment. A delete of an identifier that is only allocated later buries one.
-/

namespace OverGraph.CompactedNodes
open Records LayeredWrites GraphView Memtable MemtableState Segments Sources SourceList Cuts List
open Compaction WritePlans

/-- The sources after all segments were replaced by the compaction of them. -/
def compacted (path : CompactionPath) (sl : SourceList) : SourceList := { sl with segments := [outputOf path sl.segments []] }

def memtableNodes (sl : SourceList) : List (Opinion ℕ NodeRecord) := (sl.active :: sl.immutable).map nodeOpinion

/-- No node the segments decide about is live in them and deleted in one of them. -/
def NoBuriedTombstone (sl : SourceList) : Prop :=
  ∀ id node, firstOpinion (memtableNodes sl) id = none →
    visible (sl.segments.map Segment.nodeOpinion) id = some node → ¬NodeDeletedIn sl.segments id

/-- Two source lists answer every node lookup, by identifier and by key, alike. -/
structure SameNodeReads (sl sl' : SourceList) : Prop where
  findNode : ∀ id, sl.findNode id = sl'.findNode id
  findNodeByLabelKey : ∀ labelId key, sl.findNodeByLabelKey labelId key = sl'.findNodeByLabelKey labelId key
  findNodesByLabelKeys : ∀ keys, sl.findNodesByLabelKeys keys = sl'.findNodesByLabelKeys keys
  findNodeIdsByLabelKeys : ∀ keys, sl.findNodeIdsByLabelKeys keys = sl'.findNodeIdsByLabelKeys keys

variable {sl : SourceList} {path : CompactionPath}

theorem visible_output (hpath : Admissible path sl.segments) (id : ℕ) :
    visible [(outputOf path sl.segments []).nodeOpinion] id = if NodeDeletedIn sl.segments id then none
      else visible (sl.segments.map Segment.nodeOpinion) id := by
  rw [visible, firstOpinion_cons, firstOpinion_nil, Option.or_none, nodeOpinion_outputOf hpath]
  split <;> rfl

/-- The output shows no node that the inputs do not show. -/
theorem visible_of_output (hpath : Admissible path sl.segments) {id : ℕ} {node : NodeRecord}
    (h : visible [(outputOf path sl.segments []).nodeOpinion] id = some node) :
    visible (sl.segments.map Segment.nodeOpinion) id = some node := by
  rw [visible_output hpath] at h
  split at h
  · cases h
  · exact h

theorem nodeLayers_compacted : (compacted path sl).nodeLayers = memtableNodes sl ++ [(outputOf path sl.segments []).nodeOpinion] :=
  rfl

/-- The nodes shown are the same exactly when no tombstone is buried. -/
theorem visible_compacted_iff (hpath : Admissible path sl.segments) :
    visible (compacted path sl).nodeLayers = visible sl.nodeLayers ↔ NoBuriedTombstone sl := by
  constructor
  · intro h id node hsil hlive hdel
    have hid := congrFun h id
    rw [nodeLayers_compacted, visible_of_silent hsil, visible_output hpath, if_pos hdel, nodeLayers,
      ← memtableNodes, visible_of_silent hsil, hlive] at hid
    cases hid
  · intro h
    funext id
    rw [nodeLayers_compacted, nodeLayers, ← memtableNodes]
    cases hmem : firstOpinion (memtableNodes sl) id with
    | some opinion => rw [visible_of_opinion hmem, visible_of_opinion hmem]
    | none =>
      rw [visible_of_silent hmem, visible_of_silent hmem, visible_output hpath]
      split
      · rename_i hdel
        cases hv : visible (sl.segments.map Segment.nodeOpinion) id with
        | none => rfl
        | some node => exact absurd hdel (h id node hmem hv)
      · rfl

theorem wellFormed_compacted (h : sl.WellFormed) : (compacted path sl).WellFormed := ⟨h.settled, h.tombstones⟩

theorem lookup_output (id : ℕ) : (outputOf path sl.segments []).nodes.lookup id =
      visible [(outputOf path sl.segments []).nodeOpinion] id := by
  have hkept : (outputOf path sl.segments []).isNodeDeleted id ≠ true := by
    cases path <;> simp [outputOf, fastMerge, compactStandard, Segment.isNodeDeleted]
  exact (visible_node_of_kept hkept).symm

theorem segments_unique (h : sl.KeysIndexed) : KeysUnique (visible (sl.segments.map Segment.nodeOpinion)) := by
  have hu := h.onceUnique (sl.segments.map segmentKeyLayer) (suffix_append _ _)
  rw [map_map] at hu
  exact hu

section
variable (h : sl.KeysIndexed) (hpath : Admissible path sl.segments)
include h hpath

theorem keysIndexed_compacted : (compacted path sl).KeysIndexed where
  wellFormed := wellFormed_compacted h.wellFormed
  exact := by
    intro lay hl
    obtain hl | hl := mem_append.mp hl
    · exact h.exact lay (mem_append_left _ hl)
    · obtain rfl := mem_singleton.mp hl
      intro k id
      have hview : ((outputOf path sl.segments []).nodes.lookup ·) =
          visible [(outputOf path sl.segments []).nodeOpinion] := funext lookup_output
      have huniq : KeysUnique ((outputOf path sl.segments []).nodes.lookup ·) := by
        rw [hview]
        exact (segments_unique h).mono fun id node => visible_of_output hpath
      have hlay : (fun i => ((outputOf path sl.segments []).nodeOpinion i).join) = ((outputOf path sl.segments []).nodes.lookup ·) := by
        rw [hview]
        funext i
        rw [visible, firstOpinion_cons, firstOpinion_nil, Option.or_none]
      simp only [segmentKeyLayer, hlay]
      exact nodeIdByKey_eq_some_iff huniq k.1 k.2 id
  onceUnique := by
    refine OnceUnique.replace_oldest h.onceUnique fun id node hv => ?_
    have hlays : (sl.segments.map segmentKeyLayer).map (·.opinion) = sl.segments.map Segment.nodeOpinion := by
      rw [map_map]
      rfl
    rw [hlays]
    exact visible_of_output hpath hv
  ids := by
    intro lay hl id node hn
    obtain hl | hl := mem_append.mp hl
    · exact h.ids lay (mem_append_left _ hl) id node hn
    · obtain rfl := mem_singleton.mp hl
      have hout : visible [(outputOf path sl.segments []).nodeOpinion] id = some node := by
        rw [visible, firstOpinion_cons, firstOpinion_nil, Option.or_none, hn]
        rfl
      have hin := visible_of_output hpath hout
      rw [visible, Option.join_eq_some_iff, firstOpinion, findSome?_eq_some_iff] at hin
      obtain ⟨newer, lay, older, hlays, hlay, -⟩ := hin
      apply h.ids lay _ id node hlay
      exact mem_append_right _ (hlays ▸ by simp)

theorem sameNodeReads_iff : SameNodeReads (compacted path sl) sl ↔ NoBuriedTombstone sl := by
  have h' := keysIndexed_compacted h hpath
  constructor
  · intro hsame
    apply (visible_compacted_iff hpath).mp
    funext id
    rw [← h'.wellFormed.findNode, ← h.wellFormed.findNode, hsame.findNode]
  · intro hburied
    have hview := (visible_compacted_iff hpath).mpr hburied
    refine ⟨fun id => ?_, fun labelId key => ?_, fun keys => ?_, fun keys => ?_⟩
    · rw [h'.wellFormed.findNode, h.wellFormed.findNode, hview]
    · rw [h'.findNodeByLabelKey, h.findNodeByLabelKey, hview]
    · rw [h'.findNodesByLabelKeys, h.findNodesByLabelKeys, hview]
    · rw [h'.findNodeIdsByLabelKeys, h.findNodeIdsByLabelKeys, hview]

end

/-- Whatever the cut of an accepted history, replacing the segments by their compaction, on
either path, leaves the node lookups as they were exactly when no tombstone is buried. -/
theorem compaction_keeps_nodes_iff (L : Layering) (path : CompactionPath) (h : Accepted L.history)
    (hpath : Admissible path L.sources.segments) :
    SameNodeReads (compacted path L.sources) L.sources ↔ NoBuriedTombstone L.sources :=
  sameNodeReads_iff (Layering.keysIndexed h.keysUnambiguous) hpath

private def keyedNode (id : ℕ) (key : String) : NodeRecord := ⟨id, .single 1 Nat.one_ne_zero, key, ∅, 0, 0, 0, none, none, 0⟩

/-- A node is written and rewritten below a tombstone of another one. -/
private def rewritten : Layering where
  active := []
  immutable := []
  segments := [[(3, .deleteNode 2 0)], [(2, .upsertNode (keyedNode 1 "b"))], [(1, .upsertNode (keyedNode 1 "a"))]]

theorem compaction_keeps_rewritten_node : SameNodeReads (compacted .unifiedV3 rewritten.sources) rewritten.sources := by
  have hiff := compaction_keeps_nodes_iff rewritten .unifiedV3 (accepted_of_one 1 (by decide)) (.inl rfl)
  apply hiff.mpr
  intro id node _ hv hdel
  have hcollected : collectDeletedNodes rewritten.sources.segments = [2] := by decide
  have hmem := mem_collectDeletedNodes.mpr hdel
  rw [hcollected, mem_singleton] at hmem
  subst hmem
  have hgone : (visible (rewritten.sources.segments.map Segment.nodeOpinion) 2).isNone := by decide
  rw [hv] at hgone
  cases hgone

/-- Node `1` is deleted before its identifier is allocated. -/
private def deletedAhead : Layering where
  active := []
  immutable := []
  segments := [[(2, .upsertNode (keyedNode 1 "a"))], [(1, .deleteNode 1 0)]]

/-- A node written after a delete of its identifier is lost by a compaction. -/
theorem node_deleted_ahead_lost : ¬∀ (L : Layering) (path : CompactionPath), (L.history.map Prod.fst).Pairwise (· < ·) →
      Accepted L.history → Admissible path L.sources.segments → SameNodeReads (compacted path L.sources) L.sources := by
  intro h
  have hsame := h deletedAhead .unifiedV3 (by decide) (accepted_of_one 1 (by decide)) (.inl rfl)
  have hkeys := congrArg (Option.map (·.key)) (hsame.findNode 1)
  exact absurd hkeys (by decide)

end OverGraph.CompactedNodes
