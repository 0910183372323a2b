import OverGraph.Degrees
import OverGraph.LayeredReads

/-!
# The running store

The engine keeps an active memtable, frozen memtables waiting to be flushed and segments,
each with the degree deltas of its writes. A batch of operations is applied to the active
memtable one by one while the versions of the edges it touches are followed, so that what
each operation changes is known without further reads.
-/

namespace OverGraph.LayeredStore
open Option hiding mem_map
open AssocMaps Records LayeredWrites GraphView Memtable MemtableState Segments Sources Tallies Degrees List Function AList SourceList Overlay

/-- A memtable and the degree deltas of its writes. -/
structure Epoch (W : Type) where
  memtable : MemtableState
  degreeOverlay : Overlay W

structure SegmentEntry (W : Type) where
  segmentId : ℕ
  segment : Segment
  degreeDelta : Overlay W

/-- The layers of the engine, newest first. -/
structure Store (W : Type) where
  active : Epoch W
  immutable : List (Epoch W)
  segments : List (SegmentEntry W)
  engineSeq : ℕ

def Epoch.empty {W : Type} : Epoch W := ⟨MemtableState.empty, ∅⟩

namespace Store
variable {W : Type} [AddCommGroup W]

omit [AddCommGroup W] in
/-- The sources of a read at the last sequence number. -/
def sources (s : Store W) : SourceList := ⟨s.active.memtable, s.immutable.map (·.memtable), s.segments.map (·.segment), s.engineSeq⟩

omit [AddCommGroup W] in
/-- The edges a read finds. -/
def edges (s : Store W) : ℕ → Option EdgeRecord := visible s.sources.edgeLayers

def degreeDeltaSum (s : Store W) (nodeId : ℕ) : DegreeDelta W :=
  s.active.degreeOverlay.get nodeId + (s.immutable.map (·.degreeOverlay.get nodeId)).sum + (s.segments.map (·.degreeDelta.get nodeId)).sum

omit [AddCommGroup W] in
def getEdgeCoreForCache (s : Store W) (id : ℕ) : Option EdgeCore := (s.edges id).map edgeCore

end Store

def edgeIdForDegreeOp : WalOp → Option ℕ
  | .upsertEdge edge => some edge.id
  | .deleteEdge id _ => some id
  | _ => none

def edgeCoreAfterOp : WalOp → Option EdgeCore
  | .upsertEdge edge => some (edgeCore edge)
  | _ => none

/-- Read the version of an edge before the batch, once. -/
def captureEdgeState (read : ℕ → Option EdgeCore) (states : Map ℕ (Option EdgeCore)) (op : WalOp) : Map ℕ (Option EdgeCore) :=
  match edgeIdForDegreeOp op with
  | none => states
  | some id => if (states.lookup id).isSome then states else states.insert id (read id)

def captureBatchEdgeStates (read : ℕ → Option EdgeCore) (ops : List WalOp) : Map ℕ (Option EdgeCore) := ops.foldl (captureEdgeState read) ∅

structure ApplyState (W : Type) where
  memtable : MemtableState
  edgeStates : Map ℕ (Option EdgeCore)
  degreeDeltas : Overlay W

section
variable {W : Type} [AddCommGroup W] [DecidableEq W] (val : F32 → W)

def applySequenced (st : ApplyState W) (op : SeqOp) : ApplyState W :=
  let edgeId := edgeIdForDegreeOp op.2
  let oldEdge := edgeId.bind fun id => (st.edgeStates.lookup id).join
  { memtable := st.memtable.applyOp op
    degreeDeltas := collectDegreeDeltaForOp val op.2 oldEdge st.degreeDeltas
    edgeStates := match edgeId with
      | some id => st.edgeStates.insert id (edgeCoreAfterOp op.2)
      | none => st.edgeStates }

/-- Number a batch from the sequence number after the given one. -/
def sequenced (baseSeq : ℕ) (ops : List WalOp) : List SeqOp := ops.zipIdx.map fun op => (baseSeq + 1 + op.2, op.1)

def Store.appendAndApplyNormalized (s : Store W) (ops : List WalOp) : Store W :=
  let st := (sequenced s.engineSeq ops).foldl (applySequenced val)
    ⟨s.active.memtable, captureBatchEdgeStates s.getEdgeCoreForCache ops, ∅⟩
  { s with
    active := ⟨st.memtable, s.active.degreeOverlay.addAll st.degreeDeltas⟩
    engineSeq := s.engineSeq + ops.length }

end

/-- The edges after further operations. -/
def edgesOver (base : ℕ → Option EdgeRecord) (ops : List SeqOp) (id : ℕ) : Option EdgeRecord := (edgeLog ops id).getD (base id)

section
variable {W : Type} [AddCommGroup W] [DecidableEq W] {val : F32 → W}
variable {base : ℕ → Option EdgeRecord}

theorem edgesOver_concat (done : List SeqOp) (op : SeqOp) (id : ℕ) :
    edgesOver base (done ++ [op]) id = (edgeLog [op] id).getD (edgesOver base done id) := by
  rw [edgesOver, edgeLog_append, edgesOver]
  cases edgeLog [op] id <;> rfl

theorem edgesOver_upsert (done : List SeqOp) (q : ℕ) (edge : EdgeRecord) : edgesOver base (done ++ [(q, .upsertEdge edge)]) =
      update (edgesOver base done) edge.id (some { edge with lastWriteSeq := q }) := by
  funext id
  rw [edgesOver_concat]
  by_cases h : edge.id = id
  · subst h
    simp [edgeLog, edgeWrites, lastWrite]
  · rw [update_of_ne (Ne.symm h)]
    simp [edgeLog, edgeWrites, lastWrite, h]

theorem edgesOver_delete (done : List SeqOp) (q deleted : ℕ) (deletedAt : ℤ) :
    edgesOver base (done ++ [(q, .deleteEdge deleted deletedAt)]) = update (edgesOver base done) deleted none := by
  funext id
  rw [edgesOver_concat]
  by_cases h : deleted = id
  · subst h
    simp [edgeLog, edgeWrites, lastWrite]
  · rw [update_of_ne (Ne.symm h)]
    simp [edgeLog, edgeWrites, lastWrite, h]

variable {op : SeqOp}

theorem edgesOver_other (done : List SeqOp) (h : edgeIdForDegreeOp op.2 = none) :
    edgesOver base (done ++ [op]) = edgesOver base done := by
  funext id
  rw [edgesOver_concat]
  obtain ⟨q, op⟩ := op
  cases op <;> simp [edgeIdForDegreeOp] at h <;> simp [edgeLog, edgeWrites]

omit [AddCommGroup W] [DecidableEq W] in
theorem finitely_edgesOver (h : Finitely base) (ops : List SeqOp) : Finitely (edgesOver base ops) := by
  induction ops using List.reverseRecOn with
  | nil => exact h
  | append_singleton ops op ih =>
    obtain ⟨q, op⟩ := op
    cases op with
    | upsertEdge edge =>
      rw [edgesOver_upsert]
      exact ih.update _ _
    | deleteEdge id deletedAt =>
      rw [edgesOver_delete]
      exact ih.update _ _
    | _ =>
      rw [edgesOver_other _ rfl]
      exact ih

/-- After part of a batch, the deltas are the change of the degrees so far and the captured
versions are the current ones. -/
structure Following (val : F32 → W) (base : ℕ → Option EdgeRecord) (ids : List ℕ)
    (done : List SeqOp) (st : ApplyState W) : Prop where
  finite : Finitely (edgesOver base done)
  deltas : ∀ n, st.degreeDeltas.get n = degreeIn val (edgesOver base done) n - degreeIn val base n
  states : ∀ id ∈ ids, st.edgeStates.lookup id = some ((edgesOver base done id).map edgeCore)

variable {done : List SeqOp} {st : ApplyState W} {ids : List ℕ}

omit [DecidableEq W] in
theorem Following.insert_states
    (h : Following val base ids done st) (id : ℕ) (edge : Option EdgeRecord) {core : Option EdgeCore}
    (hcore : core = edge.map edgeCore) (i : ℕ) (hi : i ∈ ids) : (st.edgeStates.insert id core).lookup i =
      some ((update (edgesOver base done) id edge i).map edgeCore) := by
  by_cases heq : i = id
  · subst heq
    simp [hcore]
  · rw [lookup_insert_ne heq, update_of_ne heq]
    exact h.states i hi

theorem Following.step_other (h : Following val base ids done st) (hnone : edgeIdForDegreeOp op.2 = none) :
    Following val base ids (done ++ [op]) (applySequenced val st op) := by
  have hdeltas : (applySequenced val st op).degreeDeltas = st.degreeDeltas := by
    obtain ⟨q, op⟩ := op
    cases op <;> simp [edgeIdForDegreeOp] at hnone <;> rfl
  have hstas : (applySequenced val st op).edgeStates = st.edgeStates := by simp only [applySequenced, hnone]
  refine ⟨?_, fun n => ?_, fun i hi => ?_⟩
  · rw [edgesOver_other done hnone]
    exact h.finite
  · rw [edgesOver_other done hnone, hdeltas]
    exact h.deltas n
  · rw [edgesOver_other done hnone, hstas]
    exact h.states i hi

theorem Following.step (h : Following val base ids done st)
    (hid : ∀ id, edgeIdForDegreeOp op.2 = some id → id ∈ ids) :
    Following val base ids (done ++ [op]) (applySequenced val st op) := by
  obtain ⟨q, op⟩ := op
  cases op with
  | upsertEdge edge =>
    have hold := h.states edge.id (hid edge.id rfl)
    refine ⟨?_, fun n => ?_, fun i hi => ?_⟩
    · rw [edgesOver_upsert]
      exact h.finite.update _ _
    · simp only [applySequenced, edgeIdForDegreeOp, bind_some, hold, join_some, get_collectDegreeDeltaForOp_upsert, h.deltas]
      rw [edgesOver_upsert, degreeIn_update val h.finite, map_some, worthAt_some,
        show edgeCore { edge with lastWriteSeq := q } = edgeCore edge from rfl]
      abel
    · rw [edgesOver_upsert]
      exact h.insert_states edge.id (some { edge with lastWriteSeq := q }) rfl i hi
  | deleteEdge deleted deletedAt =>
    have hold := h.states deleted (hid deleted rfl)
    refine ⟨?_, fun n => ?_, fun i hi => ?_⟩
    · rw [edgesOver_delete]
      exact h.finite.update _ _
    · simp only [applySequenced, edgeIdForDegreeOp, bind_some, hold, join_some, get_collectDegreeDeltaForOp_delete, h.deltas]
      rw [edgesOver_delete, degreeIn_update val h.finite, map_none, worthAt_none]
      abel
    · rw [edgesOver_delete]
      exact h.insert_states deleted none rfl i hi
  | _ => exact h.step_other rfl

theorem Following.foldl {todo : List SeqOp} (hids : ∀ op ∈ todo, ∀ id, edgeIdForDegreeOp op.2 = some id → id ∈ ids)
    (h : Following val base ids done st) :
    Following val base ids (done ++ todo) (todo.foldl (applySequenced val) st) := by
  induction todo generalizing done st with
  | nil => rwa [append_nil]
  | cons op todo ih =>
    have hnext := ih (fun o ho => hids o (mem_cons_of_mem _ ho))
      (h.step (hids op mem_cons_self))
    rwa [append_assoc] at hnext

variable {states : Map ℕ (Option EdgeCore)}

theorem lookup_capture_of_mem (read : ℕ → Option EdgeCore) (ops : List WalOp)
    {id : ℕ} (h : states.lookup id = some (read id)) :
    (ops.foldl (captureEdgeState read) states).lookup id = some (read id) := by
  induction ops generalizing states with
  | nil => exact h
  | cons op ops ih =>
    apply ih
    rw [captureEdgeState]
    split
    · exact h
    · rename_i i _
      split
      · exact h
      · by_cases heq : id = i
        · rw [heq, lookup_insert]
        · rw [lookup_insert_ne heq, h]

variable {read : ℕ → Option EdgeCore}

section
variable (hstas : ∀ i core, states.lookup i = some core → core = read i)
include hstas

theorem lookup_captureEdgeState {op : WalOp} {id : ℕ} (hop : edgeIdForDegreeOp op = some id) :
    (captureEdgeState read states op).lookup id = some (read id) := by
  simp only [captureEdgeState, hop]
  split
  · rename_i hsome
    obtain ⟨core, hcore⟩ := isSome_iff_exists.mp hsome
    rw [hcore, hstas id core hcore]
  · rw [lookup_insert]

theorem captureEdgeState_reads (op : WalOp) (i : ℕ)
    (core : Option EdgeCore) (h : (captureEdgeState read states op).lookup i = some core) : core = read i := by
  rw [captureEdgeState] at h
  split at h
  · exact hstas i core h
  · rename_i id _
    split at h
    · exact hstas i core h
    · by_cases heq : i = id
      · subst heq
        rw [lookup_insert] at h
        exact (some.inj h).symm
      · rw [lookup_insert_ne heq] at h
        exact hstas i core h

end

theorem lookup_captureBatchEdgeStates (read : ℕ → Option EdgeCore) {ops : List WalOp} {op : WalOp}
    (hop : op ∈ ops) {id : ℕ} (hid : edgeIdForDegreeOp op = some id) :
    (captureBatchEdgeStates read ops).lookup id = some (read id) := by
  have hgen : ∀ states : Map ℕ (Option EdgeCore),
      (∀ i core, states.lookup i = some core → core = read i) →
      (ops.foldl (captureEdgeState read) states).lookup id = some (read id) := by
    induction ops with
    | nil => cases hop
    | cons o ops ih =>
      intro states hstas
      obtain rfl | hop := mem_cons.mp hop
      · exact lookup_capture_of_mem read ops (lookup_captureEdgeState hstas hid)
      · exact ih hop _ fun i core => captureEdgeState_reads hstas o i core
  exact hgen ∅ fun i core h => by cases h

end

namespace Store
variable {W : Type}

def empty : Store W := ⟨Epoch.empty, [], [], 0⟩

def freezeMemtable (s : Store W) : Store W := { s with active := Epoch.empty, immutable := s.active :: s.immutable }

theorem edges_empty : (empty : Store W).edges = fun _ => none := by
  funext id
  simp [edges, visible, sources, edgeLayers, empty, Epoch.empty]
  rfl

variable [AddCommGroup W] {val : F32 → W} {s s' : Store W}

/-- The memtables are runs of operations, and the degrees are those of the edges shown. -/
structure Sound (val : F32 → W) (s : Store W) : Prop where
  memtables : ∀ epoch ∈ s.active :: s.immutable, ∃ ops, epoch.memtable = ofOps ops ∧ ∀ op ∈ ops, op.1 ≤ s.engineSeq
  finite : Finitely s.edges
  degrees : ∀ n, s.degreeDeltaSum n = degreeIn val s.edges n

section
variable (h : s.Sound val)
include h

theorem Sound.memtable {m : MemtableState}
    (hm : m ∈ s.sources.active :: s.sources.immutable) : ∃ ops, m = ofOps ops ∧ ∀ op ∈ ops, op.1 ≤ s.engineSeq := by
  obtain rfl | hm := mem_cons.mp hm
  · exact h.memtables s.active mem_cons_self
  · obtain ⟨epoch, hepoch, rfl⟩ := mem_map.mp hm
    exact h.memtables epoch (mem_cons_of_mem _ hepoch)

theorem Sound.wellFormed : s.sources.WellFormed where
  settled m hm := by
    obtain ⟨ops, rfl, hseq⟩ := h.memtable hm
    exact settledBy_ofOps hseq
  tombstones m hm := by
    obtain ⟨ops, rfl, -⟩ := h.memtable hm
    exact tombstonesAgree_ofOps ops

theorem Sound.findEdge (id : ℕ) : s.sources.findEdge id = s.edges id := h.wellFormed.findEdge id

theorem Sound.counted : Counted val s.sources.findEdge s.degreeDeltaSum := by
  have hview : s.sources.findEdge = s.edges := funext h.findEdge
  rw [hview]
  exact counted_of_total val h.finite h.degrees

theorem Sound.of_same (hact : s'.active = s.active)
    (himm : s'.immutable = s.immutable) (hseq : s'.engineSeq = s.engineSeq)
    (heds : s'.edges = s.edges) (hsum : ∀ n, s'.degreeDeltaSum n = s.degreeDeltaSum n) : s'.Sound val where
  memtables := by
    rw [hact, himm, hseq]
    exact h.memtables
  finite := heds ▸ h.finite
  degrees n := by rw [hsum, heds, h.degrees]

end

theorem sound_empty : (empty : Store W).Sound val where
  memtables epoch hepoch := by
    obtain rfl := mem_singleton.mp hepoch
    exact ⟨[], rfl, fun op hop => by cases hop⟩
  finite := by
    rw [edges_empty]
    simp [Finitely]
  degrees n := by
    rw [edges_empty, degreeIn, tally_none]
    simp [degreeDeltaSum, empty, Epoch.empty, Overlay.get]

theorem Sound.freezeMemtable (h : s.Sound val) : s.freezeMemtable.Sound val := by
  have heds : s.freezeMemtable.edges = s.edges := by
    funext id
    simp only [edges, visible, sources, edgeLayers, Store.freezeMemtable, map_cons, cons_append, firstOpinion_cons]
    rfl
  refine ⟨?_, heds ▸ h.finite, fun n => ?_⟩
  · intro epoch hepoch
    obtain rfl | hepoch := mem_cons.mp hepoch
    · exact ⟨[], rfl, fun op hop => by cases hop⟩
    · exact h.memtables epoch hepoch
  · rw [heds, ← h.degrees]
    simp [degreeDeltaSum, Store.freezeMemtable, Epoch.empty, Overlay.get]

variable [DecidableEq W]

theorem memtable_foldl (ops : List SeqOp) (st : ApplyState W) :
    (ops.foldl (applySequenced val) st).memtable = ops.foldl applyOp st.memtable :=
  (foldl_hom ApplyState.memtable fun _ _ => rfl).symm

theorem mem_sequenced {baseSeq : ℕ} {ops : List WalOp} {op : SeqOp}
    (h : op ∈ sequenced baseSeq ops) : op.2 ∈ ops ∧ op.1 ≤ baseSeq + ops.length := by
  obtain ⟨⟨o, i⟩, hmem, rfl⟩ := mem_map.mp h
  obtain ⟨hi, hget⟩ := List.mem_zipIdx_iff_getElem?.mp hmem |> List.getElem?_eq_some_iff.mp
  refine ⟨hget ▸ getElem_mem hi, ?_⟩
  dsimp only at hi ⊢
  omega

theorem edges_write (h : s.Sound val) (ops : List WalOp) :
    (s.appendAndApplyNormalized val ops).edges = edgesOver s.edges (sequenced s.engineSeq ops) := by
  obtain ⟨old, hold, -⟩ := h.memtables s.active mem_cons_self
  funext id
  have hact : (s.appendAndApplyNormalized val ops).active.memtable = ofOps (old ++ sequenced s.engineSeq ops) := by
    simp only [appendAndApplyNormalized, memtable_foldl, hold, ofOps, foldl_append]
  simp only [edges, visible, sources, edgeLayers, map_cons, cons_append,
    firstOpinion_cons, hact, hold, edgeOpinion_ofOps, edgeLog_append, edgesOver]
  simp only [appendAndApplyNormalized]
  cases edgeLog (sequenced s.engineSeq ops) id <;> simp

theorem memtable_write (s : Store W) (ops : List WalOp) : (s.appendAndApplyNormalized val ops).active.memtable =
      (sequenced s.engineSeq ops).foldl applyOp s.active.memtable := by
  simp only [appendAndApplyNormalized, memtable_foldl]

theorem following_write (hfin : Finitely s.edges) (ops : List WalOp) :
    Following val s.edges (ops.filterMap edgeIdForDegreeOp) (sequenced s.engineSeq ops)
      ((sequenced s.engineSeq ops).foldl (applySequenced val)
        ⟨s.active.memtable, captureBatchEdgeStates s.getEdgeCoreForCache ops, ∅⟩) := by
  have hfollow : Following val s.edges (ops.filterMap edgeIdForDegreeOp) []
      (⟨s.active.memtable, captureBatchEdgeStates s.getEdgeCoreForCache ops, ∅⟩ : ApplyState W) := by
    refine ⟨hfin, fun n => ?_, fun id hid => ?_⟩
    · rw [show edgesOver s.edges [] = s.edges from rfl, sub_self]
      rfl
    · obtain ⟨op, hop, hopid⟩ := mem_filterMap.mp hid
      exact lookup_captureBatchEdgeStates s.getEdgeCoreForCache hop hopid
  have hids : ∀ op ∈ sequenced s.engineSeq ops, ∀ id, edgeIdForDegreeOp op.2 = some id → id ∈ ops.filterMap edgeIdForDegreeOp :=
    fun op hop id hid => mem_filterMap.mpr ⟨op.2, (mem_sequenced hop).1, hid⟩
  exact hfollow.foldl hids

theorem degreeOverlay_write (val : F32 → W) (hfin : Finitely s.edges) (ops : List WalOp) (n : ℕ) :
    (s.appendAndApplyNormalized val ops).active.degreeOverlay.get n = s.active.degreeOverlay.get n +
        (degreeIn val (edgesOver s.edges (sequenced s.engineSeq ops)) n - degreeIn val s.edges n) := by
  simp only [appendAndApplyNormalized, get_addAll, (following_write hfin ops).deltas n]

theorem Sound.write (h : s.Sound val) (ops : List WalOp) : (s.appendAndApplyNormalized val ops).Sound val := by
  refine ⟨?_, ?_, fun n => ?_⟩
  · intro epoch hepoch
    obtain rfl | himm := mem_cons.mp hepoch
    · obtain ⟨old, hold, hseq⟩ := h.memtables s.active mem_cons_self
      refine ⟨old ++ sequenced s.engineSeq ops, ?_, fun op hop => ?_⟩
      · rw [memtable_write, hold, ofOps, ofOps, foldl_append]
      · obtain hop | hop := mem_append.mp hop
        · exact (hseq op hop).trans (Nat.le_add_right _ _)
        · exact (mem_sequenced hop).2
    · obtain ⟨old, hold, hseq⟩ := h.memtables epoch (mem_cons_of_mem _ himm)
      exact ⟨old, hold, fun op hop => (hseq op hop).trans (Nat.le_add_right _ _)⟩
  · rw [edges_write h]
    exact finitely_edgesOver h.finite _
  · have hover := degreeOverlay_write val h.finite ops n
    have hbef := h.degrees n
    rw [edges_write h]
    simp only [degreeDeltaSum] at hbef ⊢
    rw [hover, ← hbef]
    simp only [appendAndApplyNormalized]
    abel

/-- The oldest frozen memtable becomes the newest segment. -/
def adoptFlush (s : Store W) (segmentId : ℕ) : Option (Store W) :=
  s.immutable.getLast?.map fun epoch =>
    { s with
      immutable := s.immutable.dropLast
      segments := ⟨segmentId, writeSegment epoch.memtable, epoch.degreeOverlay.sortedEntries⟩ ::
        s.segments }

theorem Sound.adoptFlush (h : s.Sound val) {segmentId : ℕ} (hstep : s.adoptFlush segmentId = some s') :
    s'.Sound val ∧ s'.edges = s.edges := by
  obtain ⟨epoch, hlast, rfl⟩ := map_eq_some_iff.mp hstep
  obtain ⟨rest, himm⟩ := getLast?_eq_some_iff.mp hlast
  have hmem : epoch ∈ s.active :: s.immutable := by simp [himm]
  obtain ⟨ops, hops, -⟩ := h.memtables epoch hmem
  have hop : (writeSegment epoch.memtable).edgeOpinion = epoch.memtable.edgeOpinion := by
    funext id
    rw [hops, edgeOpinion_writeSegment (tombstonesAgree_ofOps ops)]
  have heds : ({ s with
      immutable := s.immutable.dropLast
      segments := ⟨segmentId, writeSegment epoch.memtable, epoch.degreeOverlay.sortedEntries⟩ ::
        s.segments } : Store W).edges = s.edges := by
    simp only [edges, sources, edgeLayers, himm, dropLast_concat, map_cons,
      map_append, map_nil, hop, cons_append, append_assoc, nil_append]
  refine ⟨⟨?_, heds ▸ h.finite, fun n => ?_⟩, heds⟩
  · intro e he
    apply h.memtables e
    obtain rfl | he := mem_cons.mp he
    · exact mem_cons_self
    · exact mem_cons_of_mem _ (mem_of_mem_dropLast he)
  · rw [heds, ← h.degrees]
    simp only [degreeDeltaSum, himm, dropLast_concat, map_cons, map_append, map_nil,
      sum_cons, sum_append, sum_nil, get_sortedEntries]
    abel

end Store
end OverGraph.LayeredStore
