import OverGraph.CascadingDeletes
import OverGraph.DegreeWalks

/-!
# Reading a degree without a walk

Where no edge at a node has an explicit validity, the degree is read off the sums of the deltas of the layers. The sums
are right for the visible edges; the walk finds the same edges as long as no layer hides any of them.
-/

namespace OverGraph.DegreeFastPath
open Records LayeredWrites SnapshotReads List Prod Int DegreeFastPath
open Tallies Degrees LayeredStore Store AdjacencyReads DegreeWalks
open CascadingDeletes (applyBatch)

variable {W : Type} [AddCommGroup W]

structure DegreeEntry (W : Type) where
  outDegree : ℕ
  inDegree : ℕ
  outWeightSum : W
  inWeightSum : W
  selfLoopCount : ℕ
  selfLoopWeightSum : W
  temporalEdgeCount : ℕ

def u32Max : ℕ := 2 ^ 32 - 1

def u64Max : ℕ := 2 ^ 64 - 1

def saturatingI64ToU32 (value : ℤ) : ℕ := min value.toNat u32Max

def applyDelta (delta : DegreeDelta W) : DegreeEntry W :=
  let outDegree := saturatingI64ToU32 delta.outDegree
  let inDegree := saturatingI64ToU32 delta.inDegree
  let selfLoopCount := saturatingI64ToU32 delta.selfLoopCount
  { outDegree := outDegree
    inDegree := inDegree
    outWeightSum := if outDegree = 0 then 0 else delta.outWeightSum
    inWeightSum := if inDegree = 0 then 0 else delta.inWeightSum
    selfLoopCount := selfLoopCount
    selfLoopWeightSum := if selfLoopCount = 0 then 0 else delta.selfLoopWeightSum
    temporalEdgeCount := saturatingI64ToU32 delta.temporalEdgeCount }

def degreeEntryStats (entry : DegreeEntry W) : Direction → ℕ × W
  | .outgoing => (entry.outDegree, if entry.outDegree = 0 then 0 else entry.outWeightSum)
  | .incoming => (entry.inDegree, if entry.inDegree = 0 then 0 else entry.inWeightSum)
  | .both =>
    let count := min (entry.outDegree + entry.inDegree) u64Max - entry.selfLoopCount
    (count, if count = 0 then 0 else entry.outWeightSum + entry.inWeightSum - entry.selfLoopWeightSum)

def degreeEntryFastPath (s : Store W) (nodeId : ℕ) : Option (DegreeEntry W) :=
  let entry := applyDelta (s.degreeDeltaSum nodeId)
  if entry.temporalEdgeCount = 0 then some entry else none

def degreeFastPathResult (s : Store W) (nodeId : ℕ) (dir : Direction) : Option (ℕ × W) :=
  (degreeEntryFastPath s nodeId).map (degreeEntryStats · dir)

/-- The count and the weight of a direction, before they are cut to their width. -/
def deltaStats (dir : Direction) : DegreeDelta W →+ ℤ × W where
  toFun d := match dir with
    | .outgoing => (d.outDegree, d.outWeightSum)
    | .incoming => (d.inDegree, d.inWeightSum)
    | .both => (d.outDegree + d.inDegree - d.selfLoopCount, d.outWeightSum + d.inWeightSum - d.selfLoopWeightSum)
  map_zero' := by
    have hzero : (0 : DegreeDelta W) = ⟨0, 0, 0, 0, 0, 0, 0⟩ := rfl
    cases dir <;> simp [hzero]
  map_add' a b := by
    have hadd : a + b = ⟨a.outDegree + b.outDegree, a.inDegree + b.inDegree, a.outWeightSum + b.outWeightSum,
      a.inWeightSum + b.inWeightSum, a.selfLoopCount + b.selfLoopCount, a.selfLoopWeightSum + b.selfLoopWeightSum,
      a.temporalEdgeCount + b.temporalEdgeCount⟩ := rfl
    cases dir with
    | outgoing => rw [hadd]; rfl
    | incoming => rw [hadd]; rfl
    | both =>
      rw [hadd]
      apply Prod.ext
      · show _ = _ + _
        dsimp only
        ring
      · show _ = _ + _
        dsimp only
        abel

def selfLoopStats : DegreeDelta W →+ ℤ × W where
  toFun d := (d.selfLoopCount, d.selfLoopWeightSum)
  map_zero' := rfl
  map_add' _ _ := rfl

/-- No edge has a time that is still to come. -/
def Clocked (now : ℤ) (view : ℕ → Option EdgeRecord) : Prop :=
  ∀ id edge, view id = some edge → edge.createdAt ≤ edge.updatedAt ∧ edge.updatedAt ≤ now

section
variable {val : F32 → W} {s : Store W} {n : ℕ} {now refTime : ℤ}

theorem deltaStats_addValidEdge (dir : Direction) (src tgt : ℕ) (weight : W) :
    deltaStats dir (DegreeDelta.addValidEdge src tgt weight) = if dir = .incoming ∧ src ≠ tgt then 0 else (1, weight) := by
  rw [DegreeDelta.addValidEdge]
  by_cases hloop : src = tgt
  · rw [if_pos hloop, if_neg fun h => h.2 hloop]
    cases dir with
    | outgoing | incoming => rfl
    | both => exact Prod.ext rfl (add_sub_cancel_right weight weight)
  · rw [if_neg hloop]
    cases dir with
    | outgoing => rfl
    | incoming =>
      rw [if_pos ⟨rfl, hloop⟩]
      rfl
    | both =>
      have hwt : weight + 0 - 0 = weight := by rw [add_zero, sub_zero]
      rw [if_neg (by simp)]
      exact Prod.ext rfl hwt

theorem deltaStats_addValidEdgeIncoming (dir : Direction) (weight : W) :
    deltaStats dir (DegreeDelta.addValidEdgeIncoming weight) = if dir = .outgoing then 0 else (1, weight) := by
  cases dir with
  | outgoing | incoming => rfl
  | both =>
    have hwt : 0 + weight - 0 = weight := by rw [zero_add, sub_zero]
    rw [if_neg (by simp)]
    exact Prod.ext rfl hwt

variable {edge : EdgeRecord}

/-- An edge at the node without an explicit validity counts where it is at the node. -/
theorem deltaStats_edgeDelta
    (hpl : n ∈ endpoints edge → (edgeCore edge).valid = true ∧ (edgeCore edge).temporal = false) (dir : Direction) :
    deltaStats dir (edgeDelta val n (edgeCore edge)) = if atNode dir n edge then (1, val edge.weight) else 0 := by
  have hsourceEnd : edge.source ∈ endpoints edge := mem_cons_self
  have htargetEnd : edge.target ∈ endpoints edge := mem_cons_of_mem _ mem_cons_self
  by_cases hend : n ∈ endpoints edge
  · obtain ⟨hvd, hnever⟩ := hpl hend
    have hdelta : edgeDelta val n (edgeCore edge) =
        (if edge.source = n then DegreeDelta.addValidEdge edge.source edge.target (val edge.weight) else 0) +
          (if edge.source ≠ edge.target ∧ edge.target = n then DegreeDelta.addValidEdgeIncoming (val edge.weight) else 0) := by
      have htmp : ¬((edgeCore edge).temporal = true ∧ ((edgeCore edge).source = n ∨ (edgeCore edge).target = n)) :=
        fun h => Bool.false_ne_true (hnever.symm.trans h.1)
      rw [edgeDelta, if_pos hvd, if_neg htmp, add_zero]
      rfl
    rw [hdelta, map_add, apply_ite (deltaStats dir), apply_ite (deltaStats dir), deltaStats_addValidEdge,
      deltaStats_addValidEdgeIncoming, map_zero]
    by_cases hsrc : edge.source = n <;> by_cases htgt : edge.target = n <;> cases dir <;>
      simp [atNode, hsrc, htgt, eq_comm (a := n)]
  · have hsrc : edge.source ≠ n := fun h => hend (h ▸ hsourceEnd)
    have htgt : edge.target ≠ n := fun h => hend (h ▸ htargetEnd)
    have hat : atNode dir n edge = false := by cases dir <;> simp [atNode, hsrc, htgt]
    have hdelta : edgeDelta val n (edgeCore edge) = 0 := by
      have hout : ¬(edgeCore edge).source = n := hsrc
      have hin : ¬(edgeCore edge).target = n := htgt
      simp only [edgeDelta, hout, hin, or_self, and_false, if_false, add_zero, ite_self]
    rw [hdelta, map_zero, hat, if_neg Bool.false_ne_true]

/-- The edges at a node without explicit validities. -/
theorem plain_of_temporal (h : s.Sound val) (htmp : (s.degreeDeltaSum n).temporalEdgeCount = 0)
    {id : ℕ} (hedge : s.edges id = some edge) (hend : n ∈ endpoints edge) :
    edge.validTo = i64Max ∧ edge.validFrom ≤ edge.createdAt := by
  have hcnt := (counted_of_total val h.finite h.degrees).temporal n
  have hfin : {id | ∃ e, s.edges id = some e ∧ (edgeCore e).temporal = true ∧ (e.source = n ∨ e.target = n)}.Finite := by
    apply h.finite.subset
    rintro other ⟨e, he, -⟩ hnone
    cases he.symm.trans hnone
  rw [htmp] at hcnt
  have hemp := (Set.ncard_eq_zero hfin).mp (ofNat_eq_zero.mp hcnt.symm)
  have hnever : ¬(edgeCore edge).temporal = true := by
    intro htemp
    have hmem : id ∈ {id | ∃ e, s.edges id = some e ∧ (edgeCore e).temporal = true ∧ (e.source = n ∨ e.target = n)} := by
      refine ⟨edge, hedge, htemp, ?_⟩
      rw [endpoints, mem_cons, mem_singleton] at hend
      exact hend.imp Eq.symm Eq.symm
    rw [hemp] at hmem
    exact hmem
  rw [EdgeCore.temporal, isCacheBypassEdge, Bool.or_eq_true, not_or, decide_eq_true_eq, decide_eq_true_eq, not_not, not_lt] at hnever
  exact hnever

/-- The counts of a state, with its clock. -/
structure Plain (val : F32 → W) (s : Store W) (n : ℕ) (refTime : ℤ) : Prop where
  sound : s.Sound val
  stored : Stored s.sources
  walkable : Walkable s.sources
  clocked : Clocked refTime s.edges
  time : refTime < i64Max
  temporal : (s.degreeDeltaSum n).temporalEdgeCount = 0

section
variable (h : Plain val s n refTime)
include h

theorem Plain.valid {id : ℕ} (hedge : s.edges id = some edge)
    (hend : n ∈ endpoints edge) : (edgeCore edge).valid = true ∧ (edgeCore edge).temporal = false := by
  obtain ⟨hto, hfrom⟩ := plain_of_temporal h.sound h.temporal hedge hend
  obtain ⟨hcre, hupd⟩ := h.clocked id edge hedge
  have htime := h.time
  constructor
  · rw [EdgeCore.valid, isEdgeValidAt, Bool.and_eq_true, decide_eq_true_eq, decide_eq_true_eq]
    exact ⟨hfrom.trans hcre, lt_of_le_of_lt hupd (htime.trans_eq hto.symm)⟩
  · rw [EdgeCore.temporal, isCacheBypassEdge, Bool.or_eq_false_iff, decide_eq_false_iff_not, decide_eq_false_iff_not]
    exact ⟨not_not.mpr hto, not_lt.mpr hfrom⟩

theorem Plain.present : Present s.sources n refTime := by
  intro id edge hedge hend
  obtain ⟨hto, hfrom⟩ := plain_of_temporal h.sound h.temporal hedge hend
  obtain ⟨hcre, hupd⟩ := h.clocked id edge hedge
  exact ⟨hfrom.trans (hcre.trans hupd), hto⟩

/-- The sums of the deltas are what the walk finds. -/
theorem Plain.deltaStats (dir : Direction) :
    deltaStats dir (s.degreeDeltaSum n) = (((neighborsRaw s.sources n dir none refTime).length : ℤ),
        ((neighborsRaw s.sources n dir none refTime).map (val ·.weight)).sum) := by
  have hworth : ∀ list : List NeighborRecord, (list.map fun r => ((1 : ℤ), val r.weight)).sum =
      ((list.length : ℤ), (list.map (val ·.weight)).sum) := by
    intro list
    induction list with
    | nil => rfl
    | cons r list ih =>
      rw [map_cons, sum_cons, ih, map_cons, sum_cons, length_cons]
      refine Prod.ext ?_ rfl
      push_cast
      exact add_comm _ _
  calc DegreeFastPath.deltaStats dir (s.degreeDeltaSum n)
      = tally (fun edge => DegreeFastPath.deltaStats dir (edgeDelta val n (edgeCore edge))) s.edges := by
        rw [h.sound.degrees, degreeIn, map_tally h.sound.finite]
    _ = tally (fun edge => if atNode dir n edge then ((1 : ℤ), val edge.weight) else 0) (visible s.sources.edgeLayers) :=
        tally_congr fun _ _ hedge => deltaStats_edgeDelta (fun hend => h.valid hedge hend) dir
    _ = ((neighborsRaw s.sources n dir none refTime).map fun r => ((1 : ℤ), val r.weight)).sum :=
        tally_present h.stored h.walkable h.time h.present dir fun weight => (1, val weight)
    _ = _ := hworth _

end

theorem selfLoopStats_edgeDelta {core : EdgeCore} (hnot : ¬(core.valid = true ∧ core.source = n ∧ core.target = n)) :
    selfLoopStats (edgeDelta val n core) = 0 := by
  have hinc : selfLoopStats (DegreeDelta.addValidEdgeIncoming (val core.weight)) = 0 := rfl
  have hmarker : selfLoopStats (DegreeDelta.addTemporalMarker : DegreeDelta W) = 0 := rfl
  have hvd : core.valid = true → core.source = n → selfLoopStats (DegreeDelta.addValidEdge core.source core.target (val core.weight)) = 0 := by
    intro hvd hsrc
    rw [DegreeDelta.addValidEdge, if_neg fun hloop => hnot ⟨hvd, hsrc, hloop.symm.trans hsrc⟩]
    rfl
  rw [edgeDelta, map_add, apply_ite selfLoopStats, apply_ite selfLoopStats, map_add, apply_ite selfLoopStats, apply_ite selfLoopStats,
    hinc, hmarker, map_zero, ite_self, ite_self, add_zero, add_zero, ← ite_and]
  split
  · rename_i hcase
    exact hvd hcase.1 hcase.2
  · rfl

theorem selfLoopWeightSum_eq_zero (h : s.Sound val) (hnone : (s.degreeDeltaSum n).selfLoopCount = 0) :
    (s.degreeDeltaSum n).selfLoopWeightSum = 0 := by
  have hcnt := (counted_of_total val h.finite h.degrees).selfLoops n
  have hfin : {id | ∃ e, s.edges id = some e ∧ (edgeCore e).valid = true ∧ e.source = n ∧ e.target = n}.Finite := by
    apply h.finite.subset
    rintro other ⟨e, he, -⟩ hview
    cases he.symm.trans hview
  rw [hnone] at hcnt
  have hemp := (Set.ncard_eq_zero hfin).mp (ofNat_eq_zero.mp hcnt.symm)
  have hzero : selfLoopStats (s.degreeDeltaSum n) = 0 := by
    rw [h.degrees, degreeIn, map_tally h.finite]
    rw [@tally_congr _ _ _ _ s.edges _ (fun edge => (0 : DegreeDelta W →+ ℤ × W) (edgeDelta val n (edgeCore edge))), ← map_tally h.finite]
    · rfl
    · intro id edge hedge
      have hnot : ¬((edgeCore edge).valid = true ∧ edge.source = n ∧ edge.target = n) := fun hloop => by
        have hmem : id ∈ {id | ∃ e, s.edges id = some e ∧ (edgeCore e).valid = true ∧ e.source = n ∧ e.target = n} := ⟨edge, hedge, hloop⟩
        rw [hemp] at hmem
        exact hmem
      exact selfLoopStats_edgeDelta hnot
  exact congrArg snd hzero

/-- Few enough edges for the counters of an entry. -/
def Countable (s : Store W) (n : ℕ) : Prop := {id | ∃ edge, s.edges id = some edge ∧ n ∈ endpoints edge}.ncard ≤ u32Max

/-- No counter is negative, and where the node has few enough edges none is cut. -/
theorem counters (h : s.Sound val) (n : ℕ) :
    (0 ≤ (s.degreeDeltaSum n).outDegree ∧ 0 ≤ (s.degreeDeltaSum n).inDegree ∧ 0 ≤ (s.degreeDeltaSum n).selfLoopCount ∧
      0 ≤ (s.degreeDeltaSum n).temporalEdgeCount) ∧
    (Countable s n → (s.degreeDeltaSum n).outDegree ≤ u32Max ∧ (s.degreeDeltaSum n).inDegree ≤ u32Max ∧
      (s.degreeDeltaSum n).selfLoopCount ≤ u32Max) := by
  have hcoun := counted_of_total val h.finite h.degrees
  have hfin : {id | ∃ edge, s.edges id = some edge ∧ n ∈ endpoints edge}.Finite := by
    apply h.finite.subset
    rintro other ⟨e, he, -⟩ hview
    cases he.symm.trans hview
  have hfew : ∀ p : EdgeRecord → Prop, (∀ edge, p edge → n ∈ endpoints edge) → Countable s n →
      (({id | ∃ edge, s.edges id = some edge ∧ p edge}.ncard : ℕ) : ℤ) ≤ u32Max := by
    intro p hp hcntb
    refine ofNat_le.mpr ((Set.ncard_le_ncard ?_ hfin).trans hcntb)
    rintro id ⟨edge, hedge, hpe⟩
    exact ⟨edge, hedge, hp edge hpe⟩
  have hsourceEnd : ∀ edge : EdgeRecord, edge.source = n → n ∈ endpoints edge := fun edge heq => heq ▸ mem_cons_self
  have htargetEnd : ∀ edge : EdgeRecord, edge.target = n → n ∈ endpoints edge := fun edge heq => heq ▸ mem_cons_of_mem _ mem_cons_self
  rw [hcoun.outgoing, hcoun.incoming, hcoun.selfLoops, hcoun.temporal]
  refine ⟨⟨natCast_nonneg _, natCast_nonneg _, natCast_nonneg _, natCast_nonneg _⟩, fun hcntb => ⟨?_, ?_, ?_⟩⟩
  · exact hfew _ (fun edge hedge => hsourceEnd edge hedge.2) hcntb
  · exact hfew _ (fun edge hedge => htargetEnd edge hedge.2) hcntb
  · exact hfew _ (fun edge hedge => hsourceEnd edge hedge.2.1) hcntb

theorem saturatingI64ToU32_of_le {count : ℕ} {value : ℤ} (hval : value = count) (hle : value ≤ u32Max) :
    saturatingI64ToU32 value = count := by
  rw [saturatingI64ToU32, hval, toNat_natCast]
  omega

/-- The weight of no edges. -/
theorem sum_of_empty (list : List NeighborRecord) (weight : W) (hwt : weight = (list.map (val ·.weight)).sum) :
    (if list.length = 0 then 0 else weight) = (list.map (val ·.weight)).sum := by
  split
  · rename_i hemp
    rw [length_eq_zero_iff.mp hemp]
    rfl
  · exact hwt

/-- The entry of a node gives what the walk finds. -/
theorem Plain.degreeFastPathResult (h : Plain val s n refTime) (hcntb : Countable s n) (dir : Direction) :
    degreeFastPathResult s n dir = some (degreeStatsRawWalk val s.sources n dir none refTime) := by
  obtain ⟨⟨houtNonneg, hinNonneg, hselfNonneg, -⟩, hcut⟩ := counters h.sound n
  obtain ⟨houtCut, hinCut, hselfCut⟩ := hcut hcntb
  generalize hdelta : s.degreeDeltaSum n = delta at houtNonneg hinNonneg hselfNonneg houtCut hinCut hselfCut
  have hout : (delta.outDegree, delta.outWeightSum) = _ := hdelta ▸ h.deltaStats .outgoing
  have hin : (delta.inDegree, delta.inWeightSum) = _ := hdelta ▸ h.deltaStats .incoming
  have hboth : (delta.outDegree + delta.inDegree - delta.selfLoopCount,
    delta.outWeightSum + delta.inWeightSum - delta.selfLoopWeightSum) = _ := hdelta ▸ h.deltaStats .both
  have hself : delta.selfLoopCount = 0 → delta.selfLoopWeightSum = 0 := hdelta ▸ selfLoopWeightSum_eq_zero h.sound
  have hent : degreeEntryFastPath s n = some (applyDelta delta) := by
    have hnever : (applyDelta (s.degreeDeltaSum n)).temporalEdgeCount = 0 := by
      show saturatingI64ToU32 (s.degreeDeltaSum n).temporalEdgeCount = 0
      rw [h.temporal]
      rfl
    rw [degreeEntryFastPath, ← hdelta]
    exact if_pos hnever
  rw [DegreeFastPath.degreeFastPathResult, hent, Option.map_some, degreeStatsRawWalk_eq h.stored]
  apply congrArg some
  obtain ⟨houtCount, houtWeight⟩ := Prod.mk.inj hout
  obtain ⟨hinCount, hinWeight⟩ := Prod.mk.inj hin
  obtain ⟨hbothCount, hbothWeight⟩ := Prod.mk.inj hboth
  have houtEntry := saturatingI64ToU32_of_le houtCount houtCut
  have hinEntry := saturatingI64ToU32_of_le hinCount hinCut
  have hselfEntry := saturatingI64ToU32_of_le (toNat_of_nonneg hselfNonneg).symm hselfCut
  have houtSum := sum_of_empty _ _ houtWeight
  have hinSum := sum_of_empty _ _ hinWeight
  cases dir with
  | outgoing =>
    show (saturatingI64ToU32 delta.outDegree, if saturatingI64ToU32 delta.outDegree = 0 then 0 else
      if saturatingI64ToU32 delta.outDegree = 0 then 0 else delta.outWeightSum) = _
    rw [houtEntry, houtSum, sum_of_empty _ _ rfl]
  | incoming =>
    show (saturatingI64ToU32 delta.inDegree, if saturatingI64ToU32 delta.inDegree = 0 then 0 else
      if saturatingI64ToU32 delta.inDegree = 0 then 0 else delta.inWeightSum) = _
    rw [hinEntry, hinSum, sum_of_empty _ _ rfl]
  | both =>
    have hselfSum : (if delta.selfLoopCount.toNat = 0 then 0 else delta.selfLoopWeightSum) = delta.selfLoopWeightSum := by
      split
      · rename_i hnone
        exact (hself (by omega)).symm
      · rfl
    have hcnt : min (saturatingI64ToU32 delta.outDegree + saturatingI64ToU32 delta.inDegree) u64Max -
        saturatingI64ToU32 delta.selfLoopCount = (neighborsRaw s.sources n .both none refTime).length := by
      rw [houtEntry, hinEntry, hselfEntry]
      rw [u32Max] at houtCut hinCut
      rw [u64Max]
      omega
    show (min (saturatingI64ToU32 delta.outDegree + saturatingI64ToU32 delta.inDegree) u64Max -
      saturatingI64ToU32 delta.selfLoopCount, if min (saturatingI64ToU32 delta.outDegree + saturatingI64ToU32 delta.inDegree) u64Max -
        saturatingI64ToU32 delta.selfLoopCount = 0 then 0 else
          (if saturatingI64ToU32 delta.outDegree = 0 then 0 else delta.outWeightSum) +
            (if saturatingI64ToU32 delta.inDegree = 0 then 0 else delta.inWeightSum) -
            (if saturatingI64ToU32 delta.selfLoopCount = 0 then 0 else delta.selfLoopWeightSum)) = _
    rw [hcnt, houtEntry, hinEntry, hselfEntry, houtSum, hinSum, hselfSum, ← houtWeight, ← hinWeight, hbothWeight, sum_of_empty _ _ rfl]

end

end OverGraph.DegreeFastPath
