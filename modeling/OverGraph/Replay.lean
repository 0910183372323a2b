import OverGraph.LayeredStore
import OverGraph.WalFrames

/-!
# Replaying a generation of the log

Opening a database replays each generation of the log into a memtable of its own. Bare
operations and committed batches are applied in the order of the log; the versions of the
edges they change are read from the growing memtable over the older layers, so that the
degree deltas come out as the change of the degrees.
-/

namespace OverGraph.Replay
open Records LayeredWrites GraphView Memtable MemtableState Sources Tallies Degrees List
open LayeredStore Store

structure ReplayState (W : Type) where
  memtable : MemtableState
  degreeDeltas : Overlay W
  engineSeq : ℕ

section
variable {W : Type}

def getEdgeCoreFromSources (memtable : MemtableState) (immutable : List (Epoch W))
    (segs : List (SegmentEntry W)) (id : ℕ) : Option EdgeCore :=
  (⟨⟨memtable, ∅⟩, immutable, segs, 0⟩ : Store W).getEdgeCoreForCache id

variable [AddCommGroup W] [DecidableEq W] (val : F32 → W) (immutable : List (Epoch W))
  (segs : List (SegmentEntry W))

def replayApplyNormalizedOp (st : ReplayState W) (op : SeqOp) (oldEdge : Option EdgeCore) : ReplayState W where
  memtable := st.memtable.applyOp op
  degreeDeltas := collectDegreeDeltaForOp val op.2 oldEdge st.degreeDeltas
  engineSeq := max st.engineSeq op.1

/-- A bare operation reads the old version of its edge when it is applied. -/
def replayOne (st : ReplayState W) (op : SeqOp) : ReplayState W :=
  replayApplyNormalizedOp val st op
    ((edgeIdForDegreeOp op.2).bind (getEdgeCoreFromSources st.memtable immutable segs))

/-- A batch reads the old versions of its edges beforehand and follows them. -/
def replayApplyCommittedAtomicBatch (st : ReplayState W) (ops : List SeqOp) : ReplayState W :=
  let states := captureBatchEdgeStates (getEdgeCoreFromSources st.memtable immutable segs)
    (ops.map Prod.snd)
  let applied := ops.foldl (applySequenced val) ⟨st.memtable, states, st.degreeDeltas⟩
  ⟨applied.memtable, applied.degreeDeltas, ops.foldl (fun q op => max q op.1) st.engineSeq⟩

def replayGroup (st : ReplayState W) : List SeqOp → ReplayState W
  | [op] => replayOne val immutable segs st op
  | ops => replayApplyCommittedAtomicBatch val immutable segs st ops

end

variable {W : Type} [AddCommGroup W] [DecidableEq W] {val : F32 → W} {immutable : List (Epoch W)}
  {segs : List (SegmentEntry W)}

/-- The edges below the memtable being replayed. -/
def olderEdges (immutable : List (Epoch W)) (segs : List (SegmentEntry W)) : ℕ → Option EdgeRecord :=
  (⟨Epoch.empty, immutable, segs, 0⟩ : Store W).edges

omit [AddCommGroup W] [DecidableEq W] in
/-- The edges of a store are those of its frozen layers under what its memtable says. -/
theorem edges_eq_edgesOver {s : Store W} {ops : List SeqOp} (h : s.active.memtable = ofOps ops) :
    s.edges = edgesOver (olderEdges s.immutable s.segments) ops := by
  funext id
  simp only [Store.edges, visible, sources, SourceList.edgeLayers, map_cons, cons_append,
    firstOpinion_cons, h, edgeOpinion_ofOps, edgesOver, olderEdges, Epoch.empty]
  cases edgeLog ops id <;> rfl

omit [AddCommGroup W] [DecidableEq W] in
theorem getEdgeCoreFromSources_ofOps (ops : List SeqOp) (id : ℕ) : getEdgeCoreFromSources (ofOps ops) immutable segs id =
      (edgesOver (olderEdges immutable segs) ops id).map edgeCore := by
  rw [getEdgeCoreFromSources, getEdgeCoreForCache, edges_eq_edgesOver rfl]

/-- The state after replaying the given operations. -/
structure Replayed (val : F32 → W) (base : ℕ → Option EdgeRecord) (engineSeq : ℕ) (ops : List SeqOp)
    (st : ReplayState W) : Prop where
  memtable : st.memtable = ofOps ops
  finite : Finitely (edgesOver base ops)
  deltas : ∀ n, st.degreeDeltas.get n = degreeIn val (edgesOver base ops) n - degreeIn val base n
  engineSeq : st.engineSeq = ops.foldl (fun q op => max q op.1) engineSeq

/-- A bare operation is replayed as a batch of its own would be. -/
theorem replayOne_eq (st : ReplayState W) (op : SeqOp) : replayOne val immutable segs st op =
      replayApplyCommittedAtomicBatch val immutable segs st [op] := by
  have hold : (edgeIdForDegreeOp op.2).bind (getEdgeCoreFromSources st.memtable immutable segs) =
      (edgeIdForDegreeOp op.2).bind fun id => ((captureBatchEdgeStates
        (getEdgeCoreFromSources st.memtable immutable segs) [op.2]).lookup id).join := by
    cases hid : edgeIdForDegreeOp op.2 with
    | none => rfl
    | some id => rw [Option.bind_some, Option.bind_some, lookup_captureBatchEdgeStates _ mem_cons_self hid, Option.join_some]
  rw [replayOne, hold]
  rfl

variable {st : ReplayState W} {done : List SeqOp}

section
variable {q : ℕ} (h : Replayed val (olderEdges immutable segs) q done st)
include h

theorem Replayed.batch (ops : List SeqOp) : Replayed val (olderEdges immutable segs) q (done ++ ops)
      (replayApplyCommittedAtomicBatch val immutable segs st ops) := by
  have hfollow : Following val (olderEdges immutable segs)
      (ops.filterMap fun op => edgeIdForDegreeOp op.2) done
      ⟨st.memtable, captureBatchEdgeStates (getEdgeCoreFromSources st.memtable immutable segs)
        (ops.map Prod.snd), st.degreeDeltas⟩ := by
    refine ⟨h.finite, h.deltas, fun id hid => ?_⟩
    obtain ⟨op, hop, hopid⟩ := mem_filterMap.mp hid
    dsimp only
    rw [lookup_captureBatchEdgeStates _ (mem_map_of_mem hop) hopid, h.memtable, getEdgeCoreFromSources_ofOps]
  have hend := hfollow.foldl (fun op hop id hid => mem_filterMap.mpr ⟨op, hop, hid⟩)
  refine ⟨?_, hend.finite, hend.deltas, ?_⟩
  · simp only [replayApplyCommittedAtomicBatch, memtable_foldl, h.memtable, ofOps, foldl_append]
  · simp only [replayApplyCommittedAtomicBatch, h.engineSeq, foldl_append]

theorem Replayed.group (ops : List SeqOp) :
    Replayed val (olderEdges immutable segs) q (done ++ ops) (replayGroup val immutable segs st ops) := by
  rw [replayGroup.eq_def]
  split
  · rw [replayOne_eq]
    exact h.batch _
  · exact h.batch ops

theorem Replayed.groups (groups : List (List SeqOp)) :
    Replayed val (olderEdges immutable segs) q (done ++ groups.flatten)
      (groups.foldl (replayGroup val immutable segs) st) := by
  induction groups generalizing done st with
  | nil => simpa using h
  | cons ops groups ih =>
    rw [flatten_cons, ← append_assoc]
    exact ih (h.group ops)

end

end OverGraph.Replay
