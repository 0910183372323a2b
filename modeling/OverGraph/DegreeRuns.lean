import OverGraph.DegreeFastPath

/-!
# Degrees along a run

The clock does not go back, and no edge is written with a time that is still to come. As long as no layer comes to hide
a visible edge, the entries of the nodes stay what the walk finds, whatever is written, frozen, flushed and compacted.
-/

namespace OverGraph.DegreeRuns
open Option hiding all_eq_true mem_map mem_map_of_mem
open Records LayeredWrites GraphView Memtable MemtableState Segments Sources Compaction List
open Runs LayeredStore Store CompactedEdges CompactedEdges.System AdjacencyReads DegreeWalks DegreeFastPath
open CascadingDeletes (applyBatch sequenced_append stored_applyBatch)

section
variable {sl : SourceList}

def olderEdgeLayers (sl : SourceList) : List (Opinion ℕ EdgeRecord) :=
  sl.immutable.map (·.edgeOpinion) ++ sl.segments.map Segment.edgeOpinion

def olderNodeLayers (sl : SourceList) : List (Opinion ℕ NodeRecord) :=
  sl.immutable.map (·.nodeOpinion) ++ sl.segments.map Segment.nodeOpinion

/-- An edge is not written at a node that the memtable has deleted, nor away from where the older layers have it, and a
node is deleted after its edges. -/
def OpClean (sl : SourceList) : WalOp → Prop
  | .upsertEdge edge => (∀ n ∈ endpoints edge, sl.active.nodeOpinion n ≠ some none) ∧
    ∀ lay ∈ olderEdgeLayers sl, ∀ other, lay edge.id = some (some other) → other.source = edge.source ∧ other.target = edge.target
  | .deleteNode id _ => ∀ edgeId edge, visible sl.edgeLayers edgeId = some edge → id ∉ endpoints edge
  | _ => True

/-- Each operation of a batch sees what those before it did. -/
def BatchClean : SourceList → List WalOp → Prop
  | _, [] => True
  | sl, op :: ops => OpClean sl op ∧ BatchClean (applyBatch sl [op]) ops

/-- Nothing that the active memtable holds was deleted before, in any layer. -/
def FreezeClean (sl : SourceList) : Prop :=
  ∀ id edge, sl.active.edgeOpinion id = some (some edge) → (∀ lay ∈ sl.edgeLayers, lay id ≠ some none) ∧
    ∀ n ∈ endpoints edge, ∀ lay ∈ sl.nodeLayers, lay n ≠ some none

theorem applyBatch_cons (op : WalOp) (ops : List WalOp) : applyBatch sl (op :: ops) = applyBatch (applyBatch sl [op]) ops := by
  have hsequ := sequenced_append sl.snapshotSeq [op] ops
  simp only [singleton_append, length_singleton] at hsequ
  simp only [applyBatch, hsequ, foldl_append, length_cons, length_nil, SourceList.mk.injEq, true_and]
  omega

theorem active_applyBatch (h : Stored sl) (op : WalOp) (id : ℕ) :
    (applyBatch sl [op]).active.edgeOpinion id = (edgeLog [(sl.snapshotSeq + 1, op)] id).or (sl.active.edgeOpinion id) ∧
      (applyBatch sl [op]).active.nodeOpinion id = (nodeLog [(sl.snapshotSeq + 1, op)] id).or (sl.active.nodeOpinion id) := by
  obtain ⟨old, hold, -⟩ := h.memtables sl.active mem_cons_self
  have hact : (applyBatch sl [op]).active = ofOps (old ++ [(sl.snapshotSeq + 1, op)]) := by
    simp only [applyBatch, hold, ofOps, foldl_append]
    rfl
  rw [hact, hold, edgeOpinion_ofOps, edgeOpinion_ofOps, edgeLog_append, nodeOpinion_ofOps, nodeOpinion_ofOps, nodeLog_append]
  exact ⟨rfl, rfl⟩

/-- What one operation says about an edge. -/
theorem edgeLog_singleton (q : ℕ) (op : WalOp) (id : ℕ) : edgeLog [(q, op)] id = none ∨ edgeLog [(q, op)] id = some none ∨
    ∃ edge, op = .upsertEdge edge ∧ edge.id = id ∧ edgeLog [(q, op)] id = some (some { edge with lastWriteSeq := q }) := by
  cases op with
  | upsertEdge edge => by_cases hid : edge.id = id <;> simp [edgeLog, edgeWrites, lastWrite, hid]
  | deleteEdge deleted _ => by_cases hid : deleted = id <;> simp [edgeLog, edgeWrites, lastWrite, hid]
  | _ => exact Or.inl rfl

theorem nodeLog_singleton {q : ℕ} {op : WalOp} {id : ℕ} (h : nodeLog [(q, op)] id = some none) :
    ∃ deletedAt, op = .deleteNode id deletedAt := by
  cases op with
  | upsertNode node => by_cases hid : node.id = id <;> simp [nodeLog, nodeWrites, lastWrite, hid] at h
  | deleteNode deleted deletedAt =>
    by_cases hid : deleted = id
    · exact ⟨deletedAt, by rw [hid]⟩
    · simp [nodeLog, nodeWrites, lastWrite, hid] at h
  | _ => cases h

theorem walkable_op (h : Stored sl) (hwalk : Walkable sl) {op : WalOp} (hclean : OpClean sl op) : Walkable (applyBatch sl [op]) := by
  have hact := active_applyBatch h op
  have heds : sl.edgeLayers = sl.active.edgeOpinion :: olderEdgeLayers sl := rfl
  have heds' : (applyBatch sl [op]).edgeLayers = (applyBatch sl [op]).active.edgeOpinion :: olderEdgeLayers sl := rfl
  have hnos : sl.nodeLayers = sl.active.nodeOpinion :: olderNodeLayers sl := rfl
  have hnodes' : (applyBatch sl [op]).nodeLayers = (applyBatch sl [op]).active.nodeOpinion :: olderNodeLayers sl := rfl
  refine hwalk.write heds heds' hnos hnodes' (fun id => ?_) fun n hgone => ?_
  · rw [(hact id).1]
    obtain hnone | hgone | ⟨edge, rfl, hid, hwr⟩ := edgeLog_singleton (sl.snapshotSeq + 1) op id
    · exact Or.inl (by rw [hnone, none_or])
    · exact Or.inr (Or.inl (by rw [hgone, some_or]))
    · refine Or.inr (Or.inr ⟨_, by rw [hwr, some_or], fun n hn => ?_, fun lay hlay other hoth => ?_⟩)
      · rw [(hact n).2]
        exact hclean.1 n hn
      · exact hclean.2 lay hlay other (hid ▸ hoth)
  · rw [(hact n).2, or_eq_some_iff] at hgone
    obtain hgone | ⟨-, hbef⟩ := hgone
    · obtain ⟨deletedAt, rfl⟩ := nodeLog_singleton hgone
      refine Or.inr fun id edge hedge => hclean id edge ?_
      rw [visible, heds', firstOpinion_cons, (hact id).1] at hedge
      rw [visible, heds, firstOpinion_cons]
      exact hedge
    · exact Or.inl hbef

theorem walkable_applyBatch (h : Stored sl) (hwalk : Walkable sl) {ops : List WalOp} (hclean : BatchClean sl ops) :
    Walkable (applyBatch sl ops) := by
  induction ops generalizing sl with
  | nil => exact hwalk
  | cons op ops ih =>
    rw [applyBatch_cons]
    exact ih (stored_applyBatch h [op]) (walkable_op h hwalk hclean.1) hclean.2

theorem walkable_freezeMemtable (hwalk : Walkable sl) (hclean : FreezeClean sl) : Walkable (CascadingDeletes.freezeMemtable sl) := by
  have hbef : sl.edgeLayers = sl.active.edgeOpinion :: olderEdgeLayers sl := rfl
  exact hwalk.freeze rfl rfl rfl rfl hbef hclean

theorem walkable_adoptFlush {sl' : SourceList} (h : Stored sl) (hwalk : Walkable sl)
    (hstep : CascadingDeletes.adoptFlush sl = some sl') : Walkable sl' := by
  obtain ⟨hnos, heds⟩ := CascadingDeletes.layers_adoptFlush h hstep
  obtain ⟨m, -, rfl⟩ := map_eq_some_iff.mp hstep
  refine hwalk.replace rfl ?_ (fun lay hlay => Or.inl (heds ▸ hlay)) fun lay hlay => Or.inl (hnos ▸ hlay)
  exact congrArg visible heds

theorem output_edge {segs : List Segment} {id : ℕ} {edge : EdgeRecord}
    (h : (compactSegments segs []).edgeOpinion id = some (some edge)) :
    ∃ seg ∈ segs, seg.edgeOpinion id = some (some edge) := by
  have hshown : visible [(compactSegments segs []).edgeOpinion] id = some edge := by
    rw [visible, firstOpinion_cons, h]
    rfl
  have hin := join_eq_some_iff.mp (visible_compactSegments_edge.mp hshown).1
  obtain ⟨lay, hlay, hop⟩ := exists_of_findSome?_eq_some hin
  obtain ⟨seg, hseg, rfl⟩ := mem_map.mp hlay
  exact ⟨seg, hseg, hop⟩

theorem output_tombstones (segs : List Segment) (id : ℕ) :
    (compactSegments segs []).isEdgeDeleted id = false ∧ (compactSegments segs []).isNodeDeleted id = false := by
  rw [compactSegments]
  cases selectCompactionPath segs [] <;> exact ⟨rfl, rfl⟩

end

section
variable {W : Type} [AddCommGroup W] [DecidableEq W] {store : Store W} {newer inputs : List (SegmentEntry W)} {output : ℕ}

theorem mem_replaced (hsegs : store.segments = newer ++ inputs) {seg : Segment}
    (hseg : seg ∈ (replaced store newer inputs output).sources.segments) :
    seg ∈ store.sources.segments ∨ seg = compactSegments (inputs.map (·.segment)) [] := by
  obtain ⟨entry, hent, rfl⟩ := mem_map.mp hseg
  obtain hent | hent := mem_append.mp hent
  · exact Or.inl (mem_map_of_mem (hsegs ▸ mem_append_left _ hent))
  · rw [mem_singleton.mp hent]
    exact Or.inr rfl

omit [AddCommGroup W] [DecidableEq W] in
theorem mem_inputs (hsegs : store.segments = newer ++ inputs) {seg : Segment} (hseg : seg ∈ inputs.map (·.segment)) :
    seg ∈ store.sources.segments := by
  obtain ⟨entry, hent, rfl⟩ := mem_map.mp hseg
  exact mem_map_of_mem (hsegs ▸ mem_append_right _ hent)

theorem stored_replaced (h : Stored store.sources) (hsegs : store.segments = newer ++ inputs) :
    Stored (replaced store newer inputs output).sources := by
  refine ⟨h.memtables, fun seg hseg id edge hedge => ?_⟩
  obtain hseg | rfl := mem_replaced hsegs hseg
  · exact h.segments seg hseg id edge hedge
  · have hop : (compactSegments (inputs.map (·.segment)) []).edgeOpinion id = some (some edge) := by
      rw [edgeOpinion_of_kept (by rw [(output_tombstones _ id).1]; exact Bool.false_ne_true), hedge]
      rfl
    obtain ⟨input, hin', hheld⟩ := output_edge hop
    refine h.segments input (mem_inputs hsegs hin') id edge ?_
    have hkept : input.isEdgeDeleted id ≠ true := fun hgone => by simp [Segment.edgeOpinion, hgone] at hheld
    rw [edgeOpinion_of_kept hkept] at hheld
    obtain ⟨held, hlk, heq⟩ := map_eq_some_iff.mp hheld
    rw [hlk, some.inj heq]

theorem walkable_replaced (hwalk : Walkable store.sources) (hsegs : store.segments = newer ++ inputs)
    (hsame : (replaced store newer inputs output).edges = store.edges) : Walkable (replaced store newer inputs output).sources := by
  refine hwalk.replace rfl hsame (fun lay hlay => ?_) fun lay hlay => ?_
  · obtain hlay | hlay := mem_append.mp hlay
    · exact Or.inl (mem_append_left _ hlay)
    · obtain ⟨seg, hseg, rfl⟩ := mem_map.mp hlay
      obtain hseg | rfl := mem_replaced hsegs hseg
      · exact Or.inl (mem_append_right _ (mem_map_of_mem hseg))
      · refine Or.inr ⟨fun id => ?_, fun id edge hedge => ?_⟩
        · rw [edgeOpinion_of_kept (by rw [(output_tombstones _ id).1]; exact Bool.false_ne_true)]
          simp
        · obtain ⟨input, hin', hheld⟩ := output_edge hedge
          exact ⟨_, mem_append_right _ (mem_map_of_mem (mem_inputs hsegs hin')), hheld⟩
  · obtain hlay | hlay := mem_append.mp hlay
    · exact Or.inl (mem_append_left _ hlay)
    · obtain ⟨seg, hseg, rfl⟩ := mem_map.mp hlay
      obtain hseg | rfl := mem_replaced hsegs hseg
      · exact Or.inl (mem_append_right _ (mem_map_of_mem hseg))
      · refine Or.inr fun id => ?_
        rw [nodeOpinion_of_kept (by rw [(output_tombstones _ id).2]; exact Bool.false_ne_true)]
        simp

end

section
variable {W : Type} [AddCommGroup W] [DecidableEq W] {val : F32 → W}

/-- A system and its clock. -/
structure Timed (W : Type) where
  system : System W
  now : ℤ

/-- An edge is written with times that have come. -/
def timelyOp (now : ℤ) : WalOp → Bool
  | .upsertEdge edge => decide (edge.createdAt ≤ edge.updatedAt) && decide (edge.updatedAt ≤ now)
  | _ => true

def timely (now : ℤ) : Event → Bool
  | .write ops => ops.all (timelyOp now)
  | _ => true

/-- An event at a time that is not before the last one. -/
def step (val : F32 → W) (st : Timed W) (e : Event × ℤ) : Option (Timed W) :=
  if decide (st.now ≤ e.2) && timely e.2 e.1 then (st.system.step val e.1).map (⟨·, e.2⟩) else none

/-- The event hides no visible edge from the walk. -/
def Clean (st : Timed W) (e : Event × ℤ) : Prop :=
  st.system.Careful e.1 ∧ match e.1 with
    | .write ops => BatchClean st.system.store.sources ops
    | .freezeMemtable => FreezeClean st.system.store.sources
    | _ => True

structure Inv (val : F32 → W) (st : Timed W) : Prop where
  system : st.system.Inv val
  stored : Stored st.system.store.sources
  walkable : Walkable st.system.store.sources
  clocked : Clocked st.now st.system.store.edges

theorem sources_write (store : Store W) (ops : List WalOp) :
    (store.appendAndApplyNormalized val ops).sources = applyBatch store.sources ops := by
  rw [sources, memtable_write]
  rfl

theorem clocked_mono {now later : ℤ} (h : now ≤ later) {view : ℕ → Option EdgeRecord} (hclock : Clocked now view) : Clocked later view :=
  fun id edge hedge => ⟨(hclock id edge hedge).1, (hclock id edge hedge).2.trans h⟩

theorem clocked_applyBatch {sl : SourceList} {now : ℤ} (h : Stored sl) (hclock : Clocked now (visible sl.edgeLayers)) {ops : List WalOp}
    (htimely : ∀ op ∈ ops, timelyOp now op = true) : Clocked now (visible (applyBatch sl ops).edgeLayers) := by
  induction ops generalizing sl with
  | nil => exact hclock
  | cons op ops ih =>
    rw [applyBatch_cons]
    refine ih (stored_applyBatch h [op]) ?_ fun other hoth => htimely other (mem_cons_of_mem _ hoth)
    intro id edge hedge
    have heds : sl.edgeLayers = sl.active.edgeOpinion :: olderEdgeLayers sl := rfl
    have heds' : (applyBatch sl [op]).edgeLayers = (applyBatch sl [op]).active.edgeOpinion :: olderEdgeLayers sl := rfl
    rw [visible, heds', firstOpinion_cons, (active_applyBatch h op id).1] at hedge
    obtain hnone | hgone | ⟨written, rfl, -, hwr⟩ := edgeLog_singleton (sl.snapshotSeq + 1) op id
    · rw [hnone, none_or, ← firstOpinion_cons, ← heds] at hedge
      exact hclock id edge hedge
    · rw [hgone, some_or, some_or] at hedge
      cases hedge
    · rw [hwr, some_or, some_or] at hedge
      cases hedge
      have htime := htimely _ mem_cons_self
      rw [timelyOp, Bool.and_eq_true, decide_eq_true_eq, decide_eq_true_eq] at htime
      exact htime

theorem Inv.step {st st' : Timed W} {e : Event × ℤ} (h : Inv val st) (hclean : Clean st e)
    (hstep : DegreeRuns.step val st e = some st') : Inv val st' := by
  obtain ⟨event, now⟩ := e
  obtain ⟨hguard, hsome⟩ := ite_none_right_eq_some.mp hstep
  rw [Bool.and_eq_true, decide_eq_true_eq] at hguard
  obtain ⟨hnow, htimely⟩ := hguard
  obtain ⟨system, hsys, rfl⟩ := map_eq_some_iff.mp hsome
  have hclock := clocked_mono hnow h.clocked
  obtain ⟨hcare, hclean⟩ := hclean
  have hinv := h.system.step hcare hsys
  have hcomp : event.isCompaction = true → Inv val ⟨system, now⟩ := by
    intro hcpt
    obtain ⟨newer, inputs, output, hsegs, hstore, heds⟩ := h.system.compacted hcpt hcare hsys
    refine ⟨hinv, ?_, ?_, ?_⟩
    · show Stored system.store.sources
      rw [hstore]
      exact stored_replaced h.stored hsegs
    · show Walkable system.store.sources
      rw [hstore]
      exact walkable_replaced h.walkable hsegs (hstore ▸ heds)
    · show Clocked now system.store.edges
      rw [heds]
      exact hclock
  cases event with
  | write ops =>
    cases hsys
    refine ⟨hinv, ?_, ?_, ?_⟩
    · show Stored (st.system.store.appendAndApplyNormalized val ops).sources
      rw [sources_write]
      exact stored_applyBatch h.stored ops
    · show Walkable (st.system.store.appendAndApplyNormalized val ops).sources
      rw [sources_write]
      exact walkable_applyBatch h.stored h.walkable hclean
    · show Clocked now (st.system.store.appendAndApplyNormalized val ops).edges
      rw [Store.edges, sources_write]
      exact clocked_applyBatch h.stored hclock (all_eq_true.mp htimely)
  | freezeMemtable =>
    cases hsys
    refine ⟨hinv, CascadingDeletes.stored_freezeMemtable h.stored, walkable_freezeMemtable h.walkable hclean, ?_⟩
    have hlays := (CascadingDeletes.layers_freezeMemtable st.system.store.sources).2
    have heds : st.system.store.freezeMemtable.edges = st.system.store.edges := by
      funext id
      exact congrArg Option.join (congrFun hlays id)
    show Clocked now st.system.store.freezeMemtable.edges
    rw [heds]
    exact hclock
  | adoptFlush =>
    obtain ⟨store, hstore, rfl⟩ := map_eq_some_iff.mp hsys
    have hflush : CascadingDeletes.adoptFlush st.system.store.sources = some store.sources := by
      obtain ⟨epoch, hlast, rfl⟩ := map_eq_some_iff.mp hstore
      rw [CascadingDeletes.adoptFlush]
      simp [sources, List.getLast?_map, hlast, map_dropLast]
    refine ⟨hinv, CascadingDeletes.stored_adoptFlush h.stored hflush, walkable_adoptFlush h.stored h.walkable hflush, ?_⟩
    show Clocked now store.edges
    rw [(h.system.sound.adoptFlush hstore).2]
    exact hclock
  | startBgCompact =>
    rw [System.step, System.startBgCompact] at hsys
    split at hsys
    · cases hsys
    · cases hsys
      exact ⟨hinv, h.stored, h.walkable, hclock⟩
  | discardBgCompact =>
    obtain ⟨bg, -, rfl⟩ := map_eq_some_iff.mp hsys
    exact ⟨hinv, h.stored, h.walkable, hclock⟩
  | applyBgCompactResult | compact => exact hcomp rfl

def start (now : ℤ) : Timed W := ⟨System.empty, now⟩

omit [DecidableEq W] in
theorem inv_start (now : ℤ) : Inv val (start now) := by
  have heds : ∀ id, visible (start (W := W) now).system.store.sources.edgeLayers id = none := fun id => rfl
  have hedge : ∀ lay ∈ (start (W := W) now).system.store.sources.edgeLayers, ∀ id, lay id = none := by
    intro lay hlay id
    obtain rfl := mem_singleton.mp hlay
    rfl
  refine ⟨inv_empty, CascadingDeletes.stored_empty, ⟨fun id edge hact => ?_, fun id edge _ hvis => ?_, fun id edge hvis => ?_⟩,
    fun id edge hvis => ?_⟩
  · cases (hedge _ mem_cons_self id).symm.trans hact
  · cases (heds id).symm.trans hvis
  · cases (heds id).symm.trans hvis
  · cases (heds id).symm.trans hvis

/-- In every run that hides no visible edge and drops none in a compaction, no counter is negative, and an entry without
explicit validities is what the walk finds now and later. -/
theorem degrees_as_walked {now : ℤ} {events : List (Event × ℤ)} {st : Timed W}
    (hclean : Admits (step val) Clean (start now) events) (hrun : run (step val) (start now) events = some st) :
    (∀ n, 0 ≤ (st.system.store.degreeDeltaSum n).outDegree ∧ 0 ≤ (st.system.store.degreeDeltaSum n).inDegree ∧
      0 ≤ (st.system.store.degreeDeltaSum n).selfLoopCount ∧ 0 ≤ (st.system.store.degreeDeltaSum n).temporalEdgeCount) ∧
    ∀ n dir refTime, st.now ≤ refTime → refTime < i64Max →
      (st.system.store.degreeDeltaSum n).temporalEdgeCount = 0 → Countable st.system.store n →
      degreeFastPathResult st.system.store n dir =
        some (degreeStatsRawWalk val st.system.store.sources n dir none refTime) := by
  have hinv : Inv val st := run_invariant (fun _ _ _ h hclean hstep => Inv.step h hclean hstep) (inv_start now) hclean hrun
  refine ⟨fun n => (counters hinv.system.sound n).1, fun n dir refTime hnow htime htemporal hcountable => ?_⟩
  have hplain : Plain val st.system.store n refTime :=
    ⟨hinv.system.sound, hinv.stored, hinv.walkable, clocked_mono hnow hinv.clocked, htime, htemporal⟩
  exact hplain.degreeFastPathResult hcountable dir

end

/-- Known from time zero on. -/
def knows : EdgeRecord := { CascadingDeletes.knownUntilFive with validTo := i64Max }

def people : List WalOp := [.upsertNode (CascadingDeletes.person 1 "a"), .upsertNode (CascadingDeletes.person 2 "b")]

def knownEvents : List (Event × ℤ) := [(.write people, 0), (.write [.upsertEdge knows], 3)]

def knownState : Timed ℤ := (run (step fun _ => (1 : ℤ)) (start 0) knownEvents).get (by decide)

theorem degrees_as_walked_known : degreeFastPathResult knownState.system.store 1 .outgoing =
    some (degreeStatsRawWalk (fun _ => (1 : ℤ)) knownState.system.store.sources 1 .outgoing none 4) := by
  have hrun : run (step fun _ => (1 : ℤ)) (start 0) knownEvents = some knownState := by simp [knownState]
  have hclean : Admits (step fun _ => (1 : ℤ)) Clean (start 0) knownEvents := by
    refine ⟨⟨trivial, trivial, trivial, trivial⟩, fun mid hmid => ⟨⟨trivial, ⟨fun n hn => ?_, fun layer hlayer => ?_⟩, trivial⟩,
      fun _ _ => trivial⟩⟩
    · cases hmid
      obtain rfl | hn := mem_cons.mp hn
      · exact nofun
      · obtain rfl := mem_singleton.mp hn
        exact nofun
    · cases hmid
      cases hlayer
  refine (degrees_as_walked hclean hrun).2 1 .outgoing 4 (by decide) (by decide) (by decide) ?_
  have hone : {id | ∃ edge, knownState.system.store.edges id = some edge ∧ 1 ∈ endpoints edge} ⊆ {1} := by
    rintro id ⟨edge, hedge, -⟩
    by_contra hid
    have hlog : knownState.system.store.edges id = (edgeLog (sequenced 0 (people ++ [.upsertEdge knows])) id).join := by
      have hmemtable : knownState.system.store.active.memtable = ofOps (sequenced 0 (people ++ [.upsertEdge knows])) := rfl
      have hlayers : knownState.system.store.edges id = visible [knownState.system.store.active.memtable.edgeOpinion] id := rfl
      rw [hlayers, hmemtable, visible, firstOpinion_cons, firstOpinion_nil, or_none, edgeOpinion_ofOps]
    have hother : knows.id ≠ id := fun heq => hid heq.symm
    rw [hlog] at hedge
    simp [sequenced, people, edgeLog, edgeWrites, lastWrite, hother] at hedge
  calc {id | ∃ edge, knownState.system.store.edges id = some edge ∧ 1 ∈ endpoints edge}.ncard
      ≤ ({1} : Set ℕ).ncard := Set.ncard_le_ncard hone (Set.finite_singleton 1)
    _ = 1 := Set.ncard_singleton 1
    _ ≤ u32Max := by decide

/-- The node at the other end is deleted before the edge is written. -/
def orphanEvents : List (Event × ℤ) := [(.write people, 0), (.write [.deleteNode 2 1], 1), (.write [.upsertEdge knows], 2)]

def orphanState : Timed ℤ := (run (step fun _ => (1 : ℤ)) (start 0) orphanEvents).get (by decide)

/-- The entry counts the edge, and the walk does not. -/
theorem orphan_edge_counted : ¬∀ (events : List (Event × ℤ)) (st : Timed ℤ),
    run (step fun _ => (1 : ℤ)) (start 0) events = some st → ∀ n dir, (st.system.store.degreeDeltaSum n).temporalEdgeCount = 0 →
      degreeFastPathResult st.system.store n dir =
        some (degreeStatsRawWalk (fun _ => (1 : ℤ)) st.system.store.sources n dir none st.now) := by
  intro h
  have hrun : run (step fun _ => (1 : ℤ)) (start 0) orphanEvents = some orphanState := by simp [orphanState]
  have hentry : degreeFastPathResult orphanState.system.store 1 .outgoing = some (1, 1) := by decide
  have hwalk : degreeStatsRawWalk (fun _ => (1 : ℤ)) orphanState.system.store.sources 1 .outgoing none orphanState.now = (0, 0) := by
    decide
  have hsame := h orphanEvents orphanState hrun 1 .outgoing (by decide)
  rw [hentry, hwalk] at hsame
  exact absurd hsame (by decide)

end OverGraph.DegreeRuns
