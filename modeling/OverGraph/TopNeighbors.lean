import OverGraph.BoundedHeaps
import OverGraph.Doubles
import OverGraph.NeighborBatches

/-!
# The neighbours with the greatest scores

The neighbours of a node are scored by the weight of the edge, by the start of its validity or by its weight as it decays, and a
heap bounded by the wanted number keeps the best. The heap compares the bits of the scores, which are in the order of the numbers
only without the sign bit.
-/

namespace OverGraph.TopNeighbors
open Records FloatOrder SnapshotReads FirstSeen AdjacencyReads DegreeWalks Expansion PrunePolicies NeighborBatches BoundedHeaps Doubles List NeighborRecord
open Sources LayeredWrites
open NumericRangeKeys (f64Value)

inductive ScoringMode where
  | weight
  | recency
  | decayAdjusted (lambda : F32)
  deriving DecidableEq

/-- The age in hours; the difference of the times is taken in 64 bits. -/
def ageHours (now validFrom : ℤ) : F64 := f64Div (f64FromI64 (max ((now - validFrom).bmod (2 ^ 64)) 0)) (f64FromI64 3600000)

section
variable (exp : F64 → F64) (scoring : ScoringMode) (now : ℤ)

def score (entry : NeighborRecord) : F64 :=
  match scoring with
  | .weight => f64FromF32 entry.weight
  | .recency => f64FromI64 entry.validFrom
  | .decayAdjusted lambda => f64Mul (f64FromF32 entry.weight) (exp (f64Mul (f64Neg (f64FromF32 lambda)) (ageHours now entry.validFrom)))

/-- A decayed score takes the place of the weight. -/
def withScore (entry : NeighborRecord) : NeighborRecord :=
  match scoring with
  | .weight | .recency => entry
  | .decayAdjusted _ => { entry with weight := f32FromF64 (score exp scoring now entry) }

def decayRefused : Bool :=
  match scoring with
  | .weight | .recency => false
  | .decayAdjusted lambda => floatLt lambda 0

variable (sl : SourceList) (pols : Option PrecomputedPruneCutoffs) (dir : Direction) (fids : Option (List ℕ))
  (nodeId : ℕ)

/-- The neighbours of all layers. What the active memtable shows is checked for tombstones as well, and only the edges that stay
count as seen. -/
def mergedEntries : List NeighborRecord :=
  let active := (neighborsAt nodeId dir fids sl.active sl.snapshotSeq).filter (keptRecord sl)
  let older := (sl.immutable.map fun m => neighborsAt nodeId dir fids m sl.snapshotSeq) ++
    sl.segments.map (segmentNeighbors nodeId dir fids)
  (merge NeighborRecord.edgeId (keptRecord sl) ⟨active, active.map NeighborRecord.edgeId⟩ older).results

def allEntries : List NeighborRecord :=
  let entries := mergedEntries sl dir fids nodeId
  let excluded := policyExcludedNodeIds sl pols ((entries.map NeighborRecord.nodeId).insertionSort (· ≤ ·)).dedup
  if excluded.isEmpty then entries else entries.filter fun entry => decide (entry.nodeId ∉ excluded)

def scoredEntries (k : ℕ) : Bounded NeighborRecord :=
  ((allEntries sl pols dir fids nodeId).filter (validRecord now)).foldl
    (pushBounded (fun entry => (score exp scoring now entry).toNat) (withScore exp scoring now) k) ⟨[], []⟩

/-- Scores with the same bits may come out in any order. -/
def TopKNeighbors (k : ℕ) (res : Except String (List NeighborRecord)) : Prop :=
  if k = 0 then res = .ok []
  else if decayRefused scoring then res = .error "decay_lambda must be non-negative"
  else
    let st := scoredEntries exp scoring now sl pols dir fids nodeId k
    ∃ top, st.Descending top ∧ res = .ok (st.records top)

end

section
variable (sl : SourceList) (pols : Option PrecomputedPruneCutoffs) (dir : Direction) (fids : Option (List ℕ))
  (now : ℤ) (nodeId : ℕ)

/-- The edge as the newest layer shows it at the node, unless some layer has deleted it or its other end. -/
def neighborKept (edgeId : ℕ) : Option NeighborRecord :=
  ((memtableOffer nodeId dir fids sl.snapshotSeq sl.active edgeId).or
    (olderOffer sl nodeId dir fids edgeId)).filter (keptRecord sl)

def VisibleNeighbor (rec : NeighborRecord) : Prop :=
  neighborKept sl dir fids nodeId rec.edgeId = some rec ∧ validRecord now rec = true ∧ excludedNode sl pols rec.nodeId = false

end

variable {exp : F64 → F64} {scoring : ScoringMode} {now : ℤ} {sl : SourceList} {pols : Option PrecomputedPruneCutoffs}
  {dir : Direction} {fids : Option (List ℕ)} {nodeId k : ℕ}

/-- The active memtable and an older layer that show the edge show it with the same other end. -/
theorem offers_agree (h : Stored sl) (hends : EndsKept sl) {edgeId : ℕ} {active older : NeighborRecord}
    (hact : memtableOffer nodeId dir fids sl.snapshotSeq sl.active edgeId = some active)
    (holder : olderOffer sl nodeId dir fids edgeId = some older) : keptRecord sl active = keptRecord sl older := by
  obtain ⟨edge, hedge, hjn⟩ := memtableOffer_edge hact
  obtain ⟨lay, hlay, hsame⟩ := memtable_edge h mem_cons_self hedge
  obtain ⟨layer', hlayer', edge', hedge', hjoins'⟩ := olderOffer_edge h holder
  obtain ⟨hsrc, htgt⟩ := hends lay hlay layer' hlayer' edgeId edge edge' hsame hedge'
  have hnode : active.nodeId = older.nodeId := joins_unique (hjn.congr hsrc htgt) hjoins'
  rw [keptRecord, keptRecord, hnode, activeOffer_edgeId h hact, olderOffer_edgeId h holder]

variable {rec : NeighborRecord}

section
variable (h : Stored sl)
include h

theorem mem_mergedEntries (hends : EndsKept sl) : rec ∈ mergedEntries sl dir fids nodeId ↔
      neighborKept sl dir fids nodeId rec.edgeId = some rec := by
  have hlist := olderLists_lists h nodeId dir fids
  generalize hkeeps : (fun edgeId => (memtableOffer nodeId dir fids sl.snapshotSeq sl.active edgeId).filter (keptRecord sl)) = activeKept
  have hkeep : ∀ edgeId, activeKept edgeId =
      (memtableOffer nodeId dir fids sl.snapshotSeq sl.active edgeId).filter (keptRecord sl) := fun edgeId => by rw [← hkeeps]
  have hact : ∀ other, other ∈ (neighborsAt nodeId dir fids sl.active sl.snapshotSeq).filter (keptRecord sl) ↔
      activeKept other.edgeId = some other := by
    intro other
    rw [hkeep, mem_filter, Option.filter_eq_some_iff, (lists_active h).mem]
  have hids : ∀ edgeId other, activeKept edgeId = some other → other.edgeId = edgeId := by
    intro edgeId other hoff
    rw [hkeep] at hoff
    exact activeOffer_edgeId h (Option.filter_eq_some_iff.mp hoff).1
  rw [mergedEntries, ← olderLists_read, mem_merge (fun l hl => (hlist l hl).1.mem) (fun l hl => (hlist l hl).2), olderLists_offer, hact, mem_ids hact hids,
    hkeep, neighborKept]
  cases hoff : memtableOffer nodeId dir fids sl.snapshotSeq sl.active rec.edgeId with
  | none => simp [Option.filter_eq_some_iff]
  | some found =>
    by_cases hkept : keptRecord sl found = true
    · simp [Option.filter, hkept]
    · -- what the active memtable shows was deleted in some layer, and so was what the older lays show
      have hgone : ¬(olderOffer sl nodeId dir fids rec.edgeId = some rec ∧ keptRecord sl rec = true) :=
        fun hboth => hkept ((offers_agree h hends hoff hboth.1).trans hboth.2)
      simp [Option.filter, hkept, hgone]

theorem nodup_mergedEntries : ((mergedEntries sl dir fids nodeId).map edgeId).Nodup := by
  rw [mergedEntries]
  refine Merged.Distinct.nodup (Merged.Distinct.merge ⟨?_, ?_⟩)
  · exact (filter_sublist.map _).nodup (lists_active h).nodup
  · exact fun rec hrec => mem_map_of_mem hrec

theorem mem_allEntries (hends : EndsKept sl) : rec ∈ allEntries sl pols dir fids nodeId ↔
      neighborKept sl dir fids nodeId rec.edgeId = some rec ∧ excludedNode sl pols rec.nodeId = false := by
  have hexc : rec ∈ mergedEntries sl dir fids nodeId → (rec.nodeId ∈ policyExcludedNodeIds sl pols
      (((mergedEntries sl dir fids nodeId).map NeighborRecord.nodeId).insertionSort (· ≤ ·)).dedup ↔
        excludedNode sl pols rec.nodeId = true) := by
    intro hmem
    rw [mem_policyExcludedNodeIds h.wellFormed, and_iff_right (mem_sortedIds.mpr (mem_map_of_mem hmem))]
  rw [← mem_mergedEntries h hends, allEntries]
  split
  · rename_i hemp
    rw [isEmpty_iff.mp hemp] at hexc
    refine ⟨fun hmem => ⟨hmem, ?_⟩, And.left⟩
    rw [Bool.eq_false_iff]
    exact fun hyes => not_mem_nil ((hexc hmem).mpr hyes)
  · rw [mem_filter, decide_eq_true_iff, Bool.eq_false_iff]
    exact and_congr_right fun hmem => not_congr (hexc hmem)

/-- The entries that are scored. -/
theorem mem_valid (hends : EndsKept sl) : rec ∈ (allEntries sl pols dir fids nodeId).filter (validRecord now) ↔
      VisibleNeighbor sl pols dir fids now nodeId rec := by
  rw [mem_filter, mem_allEntries h hends, VisibleNeighbor, and_right_comm, and_assoc]

theorem nodup_valid : ((allEntries sl pols dir fids nodeId).filter (validRecord now)).Nodup := by
  apply Nodup.of_map edgeId
  refine (Sublist.map _ (filter_sublist.trans ?_)).nodup (@nodup_mergedEntries sl dir fids nodeId h)
  rw [allEntries]
  split
  · exact Sublist.refl _
  · exact filter_sublist

end

/-- As many of the visible neighbours as are wanted, in decreasing order of their scores; none left out has a greater score. -/
structure Ranks (isVisible : NeighborRecord → Prop) (value : NeighborRecord → ℚ) (k : ℕ) (chosen : List NeighborRecord) : Prop where
  nodup : chosen.Nodup
  visible : ∀ rec ∈ chosen, isVisible rec
  length : chosen.length = min k {rec | isVisible rec}.ncard
  sorted : chosen.Pairwise fun fst snd => value snd ≤ value fst
  best : ∀ rec, isVisible rec → rec ∉ chosen → ∀ c ∈ chosen, value rec ≤ value c

def scoreValue (exp : F64 → F64) (scoring : ScoringMode) (now : ℤ) (rec : NeighborRecord) : ℚ :=
  (f64Value (score exp scoring now rec)).getD 0

section
variable (exp : F64 → F64) (scoring : ScoringMode) (now : ℤ) (sl : SourceList) (pols : Option PrecomputedPruneCutoffs)
  (dir : Direction) (fids : Option (List ℕ)) (nodeId k : ℕ)

def ReturnsBest : Prop :=
  (∃ res, TopKNeighbors exp scoring now sl pols dir fids nodeId k res) ∧
    ∀ res, TopKNeighbors exp scoring now sl pols dir fids nodeId k res →
      ∃ chosen : List NeighborRecord, res = .ok (chosen.map (withScore exp scoring now)) ∧
        Ranks (VisibleNeighbor sl pols dir fids now nodeId) (scoreValue exp scoring now) k chosen

end

theorem withScore_edgeId (rec : NeighborRecord) : (withScore exp scoring now rec).edgeId = rec.edgeId := by cases scoring <;> rfl

theorem exists_descending {ρ : Type} {st : Bounded ρ} (hsort : st.heap.Pairwise (· ≤ ·)) : ∃ top, st.Descending top := by
  refine ⟨st.heap.reverse, reverse_perm _, ?_⟩
  rw [pairwise_reverse]
  exact hsort.imp fun hle => Prod.Lex.monotone_fst _ _ hle

theorem best_scoredEntries : Best (fun entry => (score exp scoring now entry).toNat) (withScore exp scoring now) k
    ((allEntries sl pols dir fids nodeId).filter (validRecord now))
    (scoredEntries exp scoring now sl pols dir fids nodeId k) :=
  best_foldl _ best_nil

theorem exists_result : ∃ res, TopKNeighbors exp scoring now sl pols dir fids nodeId k res := by
  obtain ⟨top, htop⟩ := exists_descending (@best_scoredEntries exp scoring now sl pols dir fids nodeId k).sorted
  simp only [TopKNeighbors]
  split
  · exact ⟨_, rfl⟩
  · split
    · exact ⟨_, rfl⟩
    · exact ⟨_, top, htop, rfl⟩

theorem visible_eq (h : Stored sl) (hends : EndsKept sl) : {rec | VisibleNeighbor sl pols dir fids now nodeId rec} =
      ((allEntries sl pols dir fids nodeId).filter (validRecord now)).toFinset := by
  ext rec
  rw [Finset.mem_coe, mem_toFinset, mem_valid h hends]
  rfl

theorem greatest_bits (h : Stored sl) (hends : EndsKept sl) (hmode : decayRefused scoring = false) {res : Except String (List NeighborRecord)}
    (hres : TopKNeighbors exp scoring now sl pols dir fids nodeId k res) :
    ∃ kept : List NeighborRecord, res = .ok (kept.map (withScore exp scoring now)) ∧ kept.Nodup ∧
      (∀ rec ∈ kept, VisibleNeighbor sl pols dir fids now nodeId rec) ∧
      kept.length = min k {rec | VisibleNeighbor sl pols dir fids now nodeId rec}.ncard ∧
      (kept.Pairwise fun fst snd => (score exp scoring now snd).toNat ≤ (score exp scoring now fst).toNat) ∧
      ∀ rec, VisibleNeighbor sl pols dir fids now nodeId rec → rec ∉ kept → ∀ c ∈ kept,
        (score exp scoring now rec).toNat ≤ (score exp scoring now c).toNat := by
  by_cases hk : k = 0
  · rw [TopKNeighbors, if_pos hk] at hres
    refine ⟨[], hres, nodup_nil, fun _ hc => absurd hc not_mem_nil, ?_, List.Pairwise.nil, fun _ _ _ _ hc => absurd hc not_mem_nil⟩
    rw [hk, Nat.zero_min]
    rfl
  · rw [TopKNeighbors, if_neg hk, hmode, if_neg Bool.false_ne_true] at hres
    obtain ⟨top, htop, rfl⟩ := hres
    obtain ⟨kept, dropped, hperm, hlen, hsort, hbest, hrecs⟩ := best_scoredEntries.records htop
    have hmem : ∀ rec, VisibleNeighbor sl pols dir fids now nodeId rec ↔ rec ∈ kept ∨ rec ∈ dropped := by
      intro rec
      rw [← mem_valid h hends, ← hperm.mem_iff, mem_append]
    have hcnt : {rec | VisibleNeighbor sl pols dir fids now nodeId rec}.ncard =
        ((allEntries sl pols dir fids nodeId).filter (validRecord now)).length := by
      rw [visible_eq h hends, Set.ncard_coe_finset, toFinset_card_of_nodup (nodup_valid h)]
    refine ⟨kept, congrArg Except.ok hrecs, ?_, fun rec hrec => (hmem rec).mpr (Or.inl hrec), hlen.trans (by rw [hcnt]),
      hsort, fun rec hvis hout c hc => ?_⟩
    · exact (nodup_append.mp (hperm.nodup_iff.mpr (nodup_valid h))).1
    · exact hbest c hc rec (((hmem rec).mp hvis).resolve_left hout)

/-- The scores of edges with finite weights, and of all starts of validity, are numbers. -/
theorem score_number (hwt : rec.weight.toNat % 2 ^ 31 < 0x7F800000)
    (hst : -2 ^ 63 ≤ rec.validFrom ∧ rec.validFrom < 2 ^ 63)
    (hdeca : ∀ lambda, scoring = .decayAdjusted lambda → (f64Value (score exp scoring now rec)).isSome = true) :
    f64Value (score exp scoring now rec) = some (scoreValue exp scoring now rec) := by
  have hsome : (f64Value (score exp scoring now rec)).isSome = true := by
    cases scoring with
    | weight => exact isSome_f64FromF32 hwt
    | recency => exact isSome_f64FromI64 hst.1 hst.2
    | decayAdjusted lambda => exact hdeca lambda rfl
  obtain ⟨value, hval⟩ := Option.isSome_iff_exists.mp hsome
  rw [scoreValue, hval]
  rfl

theorem visible_unique {fst snd : NeighborRecord}
    (hfst : VisibleNeighbor sl pols dir fids now nodeId fst)
    (hsnd : VisibleNeighbor sl pols dir fids now nodeId snd) (hid : fst.edgeId = snd.edgeId) :
    fst = snd := by
  have hfnd := hfst.1
  rw [hid, hsnd.1] at hfnd
  exact (Option.some.inj hfnd).symm

def weighted (id source target : ℕ) (weight : F32) : EdgeRecord := { edgeBetween id source target with weight := weight }

/-- Edges of the weights -1 and 1. -/
def signedEdges : SourceList :=
  graphSources [CascadingDeletes.person 1 "a", CascadingDeletes.person 2 "b", CascadingDeletes.person 3 "c"]
    [weighted 1 1 2 0xBF800000, weighted 2 1 3 0x3F800000]

/-- Edges of the weights 1 and 2. -/
def positiveEdges : SourceList :=
  graphSources [CascadingDeletes.person 1 "a", CascadingDeletes.person 2 "b", CascadingDeletes.person 3 "c"]
    [weighted 1 1 2 0x3F800000, weighted 2 1 3 0x40000000]

end OverGraph.TopNeighbors
