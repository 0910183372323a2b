import OverGraph.NodeFilters
import OverGraph.Degrees

/-!
# Edge candidates

Edges are found by their endpoints, layer by layer, and checked against the labels, the
validity and the filter of a pattern before they are used.
-/

namespace OverGraph.EdgeCandidates
open Option hiding map_map mem_map or
open Records Memtable MemtableState Segments LayeredWrites Sources NodeFilters PrunePolicies FloatOrder List
open Degrees (isEdgeValidAt)

inductive Direction where
  | outgoing
  | incoming
  | both
  deriving DecidableEq

inductive NormalizedEdgeFilter where
  | alwaysTrue
  | alwaysFalse
  | idRange (lower upper : Option ℕ) (lowerInclusive upperInclusive : Bool)
  | property (key : String) (test : PropValue → Bool)
  | propertyExists (key : String)
  | propertyMissing (key : String)
  | weightRange (lower upper : Option F32)
  | updatedAtRange (loMs hiMs : ℤ)
  | createdAtRange (lower upper : Option ℤ) (lowerInclusive upperInclusive : Bool)
  | validAt (epochMs : ℤ)
  | validFromRange (loMs hiMs : ℤ)
  | validToRange (loMs hiMs : ℤ)
  | and (children : List NormalizedEdgeFilter)
  | or (children : List NormalizedEdgeFilter)
  | not (child : NormalizedEdgeFilter)

def i64RangeMatches (value lower upper : ℤ) : Bool := decide (lower ≤ value) && decide (value ≤ upper)

def edgeWeightRangeMatches (value : F32) (lower upper : Option F32) : Bool :=
  !isNan value && !lower.any (floatLt value ·) && !upper.any (floatLt · value)

def NormalizedEdgeFilter.isAlwaysFalse : NormalizedEdgeFilter → Bool
  | .alwaysFalse => true
  | _ => false

mutual

def edgeFilterMatches (edge : EdgeRecord) : NormalizedEdgeFilter → Bool
  | .alwaysTrue => true
  | .alwaysFalse => false
  | .idRange lower upper li ui => u64FlexibleRangeMatches edge.id lower upper li ui
  | .property key test => (edge.props.lookup key).any test
  | .propertyExists key => (edge.props.lookup key).isSome
  | .propertyMissing key => !(edge.props.lookup key).isSome
  | .weightRange lower upper => edgeWeightRangeMatches edge.weight lower upper
  | .updatedAtRange loMs hiMs => i64RangeMatches edge.updatedAt loMs hiMs
  | .createdAtRange lower upper li ui => i64FlexibleRangeMatches edge.createdAt lower upper li ui
  | .validAt epochMs => decide (edge.validFrom ≤ epochMs) && decide (epochMs < edge.validTo)
  | .validFromRange loMs hiMs => i64RangeMatches edge.validFrom loMs hiMs
  | .validToRange loMs hiMs => i64RangeMatches edge.validTo loMs hiMs
  | .and kids => allEdgeMatch edge kids
  | .or kids => anyEdgeMatch edge kids
  | .not child => !edgeFilterMatches edge child

def allEdgeMatch (edge : EdgeRecord) : List NormalizedEdgeFilter → Bool
  | [] => true
  | child :: kids => edgeFilterMatches edge child && allEdgeMatch edge kids

def anyEdgeMatch (edge : EdgeRecord) : List NormalizedEdgeFilter → Bool
  | [] => false
  | child :: kids => edgeFilterMatches edge child || anyEdgeMatch edge kids

end

mutual

/-- What the metadata of an edge alone decides; `none` where a field has to be read. -/
def edgeFilterMetadataOutcome (edge : EdgeRecord) : NormalizedEdgeFilter → Option Bool
  | .alwaysTrue => some true
  | .alwaysFalse => some false
  | .idRange lower upper li ui => some (u64FlexibleRangeMatches edge.id lower upper li ui)
  | .weightRange lower upper => some (edgeWeightRangeMatches edge.weight lower upper)
  | .updatedAtRange loMs hiMs => some (i64RangeMatches edge.updatedAt loMs hiMs)
  | .validAt epochMs => some (decide (edge.validFrom ≤ epochMs) && decide (epochMs < edge.validTo))
  | .validFromRange loMs hiMs => some (i64RangeMatches edge.validFrom loMs hiMs)
  | .validToRange loMs hiMs => some (i64RangeMatches edge.validTo loMs hiMs)
  | .and kids => allEdgeOutcome edge kids
  | .or kids => anyEdgeOutcome edge kids
  | .not child => (edgeFilterMetadataOutcome edge child).map (!·)
  | .property _ _ | .propertyExists _ | .propertyMissing _ | .createdAtRange _ _ _ _ => none

def allEdgeOutcome (edge : EdgeRecord) : List NormalizedEdgeFilter → Option Bool
  | [] => some true
  | child :: kids =>
    match edgeFilterMetadataOutcome edge child with
    | some false => some false
    | some true => allEdgeOutcome edge kids
    | none => if allEdgeOutcome edge kids = some false then some false else none

def anyEdgeOutcome (edge : EdgeRecord) : List NormalizedEdgeFilter → Option Bool
  | [] => some false
  | child :: kids =>
    match edgeFilterMetadataOutcome edge child with
    | some true => some true
    | some false => anyEdgeOutcome edge kids
    | none => if anyEdgeOutcome edge kids = some true then some true else none

end

mutual

theorem edgeMatches_of_outcome (edge : EdgeRecord) : ∀ (filter : NormalizedEdgeFilter) (b : Bool),
    edgeFilterMetadataOutcome edge filter = some b → edgeFilterMatches edge filter = b
  | .alwaysTrue, b, h | .alwaysFalse, b, h | .idRange _ _ _ _, b, h | .weightRange _ _, b, h | .updatedAtRange _ _, b, h
  | .validAt _, b, h | .validFromRange _ _, b, h | .validToRange _ _, b, h => by simpa [edgeFilterMetadataOutcome, edgeFilterMatches] using h
  | .property _ _, b, h | .propertyExists _, b, h | .propertyMissing _, b, h | .createdAtRange _ _ _ _, b, h => by cases h
  | .and kids, b, h => (childrenMatch_of_outcome edge kids).1 b h
  | .or kids, b, h => (childrenMatch_of_outcome edge kids).2 b h
  | .not child, b, h => by
    obtain ⟨c, hc, rfl⟩ := map_eq_some_iff.mp h
    rw [edgeFilterMatches, edgeMatches_of_outcome edge child c hc]

theorem childrenMatch_of_outcome (edge : EdgeRecord) : ∀ kids : List NormalizedEdgeFilter,
    (∀ b, allEdgeOutcome edge kids = some b → allEdgeMatch edge kids = b) ∧
      ∀ b, anyEdgeOutcome edge kids = some b → anyEdgeMatch edge kids = b
  | [] => by simp [allEdgeOutcome, allEdgeMatch, anyEdgeOutcome, anyEdgeMatch]
  | child :: kids => by
    obtain ⟨hall, hany⟩ := childrenMatch_of_outcome edge kids
    rw [allEdgeOutcome, anyEdgeOutcome, allEdgeMatch, anyEdgeMatch]
    cases hc : edgeFilterMetadataOutcome edge child with
    | none =>
      constructor
      · intro b h
        split_ifs at h with hrest
        rw [hall false hrest, Bool.and_false, some.inj h]
      · intro b h
        split_ifs at h with hrest
        rw [hany true hrest, Bool.or_true, some.inj h]
    | some c =>
      rw [edgeMatches_of_outcome edge child c hc]
      cases c with
      | false => exact ⟨fun b h => some.inj h, hany⟩
      | true => exact ⟨hall, fun b h => some.inj h⟩

end

section
variable (sl : SourceList) (pols : Option PrecomputedPruneCutoffs)

/-- A node that is live and that no policy hides. -/
def nodeVisible (id : ℕ) : Bool := (sl.findNode id).any fun node => !pols.any fun cutoffs => cutoffs.excludes node

def labelAllowed (fids : Option (List ℕ)) (edge : EdgeRecord) : Bool := fids.all (·.contains edge.labelId)

/-- The constraints of a pattern on an edge. -/
def edgeAccepted (fids : Option (List ℕ)) (filter : NormalizedEdgeFilter) (atEpoch : ℤ)
    (edge : EdgeRecord) : Bool :=
  labelAllowed fids edge && isEdgeValidAt edge.validFrom edge.validTo atEpoch &&
    (nodeVisible sl pols edge.source && nodeVisible sl pols edge.target) &&
    edgeFilterMatches edge filter

/-- The edge of a candidate that passes: its metadata is checked first and its fields are read
if that does not decide. -/
def verifyEdgeCandidate (fids : Option (List ℕ)) (filter : NormalizedEdgeFilter) (atEpoch : ℤ)
    (id : ℕ) : Option EdgeRecord :=
  (sl.findEdge id).bind fun edge =>
    if labelAllowed fids edge && isEdgeValidAt edge.validFrom edge.validTo atEpoch then
      if nodeVisible sl pols edge.source && nodeVisible sl pols edge.target then
        match edgeFilterMetadataOutcome edge filter with
        | some false => none
        | some true => some edge
        | none => if edgeFilterMatches edge filter then some edge else none
      else none
    else none

theorem verifyEdgeCandidate_eq (fids : Option (List ℕ)) (filter : NormalizedEdgeFilter)
    (atEpoch : ℤ) (id : ℕ) : verifyEdgeCandidate sl pols fids filter atEpoch id =
      (sl.findEdge id).filter (edgeAccepted sl pols fids filter atEpoch) := by
  rw [verifyEdgeCandidate]
  cases sl.findEdge id with
  | none => rfl
  | some edge =>
    have hdcd : (match edgeFilterMetadataOutcome edge filter with
        | some false => none
        | some true => some edge
        | none => if edgeFilterMatches edge filter then some edge else none) =
        if edgeFilterMatches edge filter then some edge else none := by
      cases hout : edgeFilterMetadataOutcome edge filter with
      | none => rfl
      | some b =>
        rw [edgeMatches_of_outcome edge filter b hout]
        cases b <;> rfl
    rw [bind_some, hdcd, filter_some, edgeAccepted]
    by_cases hfst : labelAllowed fids edge && isEdgeValidAt edge.validFrom edge.validTo atEpoch
    · by_cases hvis : nodeVisible sl pols edge.source && nodeVisible sl pols edge.target
      · rw [if_pos hfst, if_pos hvis, hfst, hvis, Bool.true_and, Bool.true_and]
      · rw [if_pos hfst, if_neg hvis, Bool.eq_false_iff.mpr hvis, Bool.and_false, Bool.false_and]
        rfl
    · rw [if_neg hfst, Bool.eq_false_iff.mpr hfst, Bool.false_and, Bool.false_and]
      rfl

end

def endpointMatches (nodeIds : List ℕ) (dir : Direction) (edge : EdgeRecord) : Bool :=
  match dir with
  | .outgoing => nodeIds.contains edge.source
  | .incoming => nodeIds.contains edge.target
  | .both => nodeIds.contains edge.source || nodeIds.contains edge.target

/-- The edges a layer holds and what it says about each. -/
abbrev EdgeLayer := List ℕ × Opinion ℕ EdgeRecord

/-- The edges that match, each from the newest layer that knows it. -/
def scanLayers (test : EdgeRecord → Bool) : (ℕ → Bool) → List EdgeLayer → List ℕ
  | _, [] => []
  | shadowed, (ids, opinion) :: lays =>
    (ids.filter fun id => (opinion id).join.any test && !shadowed id) ++ scanLayers test (fun id => shadowed id || (opinion id).isSome) lays

section
variable (sl : SourceList)

def memtableLayer (m : MemtableState) : EdgeLayer :=
  (m.edges.entries.map (·.1), fun id =>
    match m.getEdgeAt id sl.snapshotSeq with
    | some edge => some (some edge)
    | none => if m.isEdgeDeletedAt id sl.snapshotSeq then some none else none)

def segmentLayer (seg : Segment) : EdgeLayer :=
  (seg.edges.entries.map (·.1), fun id => if seg.isEdgeDeleted id then some none else (seg.getEdge id).map some)

/-- The layers of the edges, newest first. -/
def edgeScanLayers : List EdgeLayer := (sl.active :: sl.immutable).map (memtableLayer sl) ++ sl.segments.map segmentLayer

/-- A memtable shows no edge at an end that it has deleted. -/
def memtableEndpointMatches (m : MemtableState) (nodeIds : List ℕ) (dir : Direction) (edge : EdgeRecord) : Bool :=
  endpointMatches nodeIds dir edge && !m.isNodeDeletedAt edge.source sl.snapshotSeq &&
    !m.isNodeDeletedAt edge.target sl.snapshotSeq

/-- A segment has postings for deleted nodes, but shows none that leads to one. -/
def segmentEndpointMatches (seg : Segment) (nodeIds : List ℕ) (dir : Direction) (edge : EdgeRecord) : Bool :=
  let outgoing := nodeIds.contains edge.source && !seg.isNodeDeleted edge.target
  let incoming := nodeIds.contains edge.target && !seg.isNodeDeleted edge.source
  match dir with
  | .outgoing => outgoing
  | .incoming => incoming
  | .both => outgoing || incoming

def memtableEndpointLayer (nodeIds : List ℕ) (dir : Direction) (m : MemtableState) : EdgeLayer :=
  (((m.edges.entries.map (·.1)).filter fun id =>
    (m.getEdgeAt id sl.snapshotSeq).any (memtableEndpointMatches sl m nodeIds dir)).insertionSort (· ≤ ·), (memtableLayer sl m).2)

def segmentEndpointLayer (nodeIds : List ℕ) (dir : Direction) (seg : Segment) : EdgeLayer :=
  (((seg.edges.entries.map (·.1)).filter fun id =>
    (seg.getEdge id).any (segmentEndpointMatches seg nodeIds dir)).insertionSort (· ≤ ·), (segmentLayer seg).2)

/-- The layers of the edges at the endpoints, newest first. -/
def endpointLayers (nodeIds : List ℕ) (dir : Direction) : List EdgeLayer :=
  (sl.active :: sl.immutable).map (memtableEndpointLayer sl nodeIds dir) ++ sl.segments.map (segmentEndpointLayer nodeIds dir)

def edgeIdsByEndpointsLimited (nodeIds : List ℕ) (dir : Direction) (fids : Option (List ℕ))
    (limit : ℕ) : List ℕ :=
  let found := scanLayers (fun edge => endpointMatches nodeIds dir edge && labelAllowed fids edge)
    (fun _ => false) (endpointLayers sl nodeIds dir)
  ((found.take limit).insertionSort (· ≤ ·)).dedup

end

structure LayerLists (layer : EdgeLayer) : Prop where
  nodup : layer.1.Nodup
  holds : ∀ id edge, layer.2 id = some (some edge) → id ∈ layer.1

variable {test : EdgeRecord → Bool} {lays : List EdgeLayer} {shadowed : ℕ → Bool}

theorem mem_scanLayers {id : ℕ} {edge : EdgeRecord}
    (hls : ∀ lay ∈ lays, lay.2 id = some (some edge) → id ∈ lay.1)
    (hvis : visible (lays.map (·.2)) id = some edge) (htest : test edge = true) (hshad : shadowed id = false) :
    id ∈ scanLayers test shadowed lays := by
  induction lays generalizing shadowed with
  | nil => cases hvis
  | cons lay lays ih =>
    obtain ⟨ids, opinion⟩ := lay
    rw [scanLayers, mem_append]
    rw [visible, map_cons, firstOpinion_cons] at hvis
    dsimp only at hvis
    cases hop : opinion id with
    | none =>
      rw [hop, none_or] at hvis
      refine Or.inr (ih (fun lay hlay => hls lay (mem_cons_of_mem _ hlay)) hvis ?_)
      simp [hshad, hop]
    | some held =>
      rw [hop, some_or, join_some] at hvis
      subst hvis
      refine Or.inl (mem_filter.mpr ⟨hls (ids, opinion) mem_cons_self hop, ?_⟩)
      simp [hop, htest, hshad]

section
variable {id : ℕ} (h : id ∈ scanLayers test shadowed lays)
include h

theorem scanLayers_unshadowed : shadowed id = false := by
  induction lays generalizing shadowed with
  | nil => cases h
  | cons lay lays ih =>
    obtain ⟨ids, opinion⟩ := lay
    rw [scanLayers, mem_append] at h
    rcases h with h | h
    · have hpass := (mem_filter.mp h).2
      rw [Bool.and_eq_true, Bool.not_eq_true'] at hpass
      exact hpass.2
    · have hnot := ih h
      rw [Bool.or_eq_false_iff] at hnot
      exact hnot.1

theorem visible_of_mem_scanLayers : ∃ edge, visible (lays.map (·.2)) id = some edge ∧ test edge = true := by
  induction lays generalizing shadowed with
  | nil => cases h
  | cons lay lays ih =>
    obtain ⟨ids, opinion⟩ := lay
    rw [scanLayers, mem_append] at h
    simp only [visible, map_cons, firstOpinion_cons]
    rcases h with h | h
    · have hpass := (mem_filter.mp h).2
      rw [Bool.and_eq_true] at hpass
      cases hop : opinion id with
      | none => simp [hop] at hpass
      | some held =>
        cases held with
        | none => simp [hop] at hpass
        | some edge =>
          rw [hop] at hpass
          exact ⟨edge, rfl, hpass.1⟩
    · have hunk := scanLayers_unshadowed h
      rw [Bool.or_eq_false_iff] at hunk
      have hnone : opinion id = none := isNone_iff_eq_none.mp (isSome_eq_false_iff.mp hunk.2)
      rw [hnone]
      exact ih h

end

theorem nodup_scanLayers (hls : ∀ lay ∈ lays, lay.1.Nodup) : (scanLayers test shadowed lays).Nodup := by
  induction lays generalizing shadowed with
  | nil => exact nodup_nil
  | cons lay lays ih =>
    obtain ⟨ids, opinion⟩ := lay
    rw [scanLayers]
    refine nodup_append.mpr ⟨(hls _ mem_cons_self).filter _, ih fun lay hlay => hls lay (mem_cons_of_mem _ hlay), ?_⟩
    -- what an older layer adds has no opinion in this one
    intro id hid other hoth heq
    subst heq
    have hshad := scanLayers_unshadowed hoth
    have hpass := (mem_filter.mp hid).2
    rw [Bool.or_eq_false_iff] at hshad
    cases hop : opinion id with
    | none => simp [hop] at hpass
    | some held => simp [hop] at hshad

section
variable {sl : SourceList}

theorem memtableLayer_lists (m : MemtableState) : LayerLists (memtableLayer sl m) where
  nodup := m.edges.nodupKeys
  holds id edge h := by
    have hlk : (m.edges.lookup id).isSome := by
      cases hlk : m.edges.lookup id with
      | some _ => rfl
      | none =>
        have hget : m.getEdgeAt id sl.snapshotSeq = none := by
          rw [getEdgeAt, edgeStateAt, hlk]
          rfl
        simp only [memtableLayer, hget] at h
        split at h
        · cases h
        · cases h
    exact AList.mem_keys.mp (AList.lookup_isSome.mp hlk)

theorem segmentLayer_lists (seg : Segment) : LayerLists (segmentLayer seg) where
  nodup := seg.edges.nodupKeys
  holds id edge h := by
    have hlk : (seg.edges.lookup id).isSome := by
      simp only [segmentLayer, Segment.getEdge] at h
      split at h
      · cases h
      · obtain ⟨held, hheld, -⟩ := map_eq_some_iff.mp h
        rw [hheld]
        rfl
    exact AList.mem_keys.mp (AList.lookup_isSome.mp hlk)

theorem edgeScanLayers_lists : ∀ lay ∈ edgeScanLayers sl, LayerLists lay := by
  intro lay hlay
  rcases mem_append.mp hlay with hlay | hlay
  · obtain ⟨m, -, rfl⟩ := mem_map.mp hlay
    exact memtableLayer_lists m
  · obtain ⟨seg, -, rfl⟩ := mem_map.mp hlay
    exact segmentLayer_lists seg

theorem findEdge_eq_visible (id : ℕ) : sl.findEdge id = visible ((edgeScanLayers sl).map (·.2)) id := by
  rw [SourceList.findEdge, visible, edgeScanLayers, map_append, firstOpinion_append, firstOpinion, firstOpinion,
    map_map, map_map, findSome?_map, findSome?_map]
  rfl

variable {id : ℕ}

/-- A cut of distinct entries that is not full has cut nothing off. -/
theorem mem_sorted_take {found : List ℕ} (hnd : found.Nodup) {cap : ℕ}
    (hcap : (((found.take (cap + 1)).insertionSort (· ≤ ·)).dedup).length ≤ cap) :
    id ∈ ((found.take (cap + 1)).insertionSort (· ≤ ·)).dedup ↔ id ∈ found := by
  have hsort : ((found.take (cap + 1)).insertionSort (· ≤ ·)).Nodup := (perm_insertionSort _ _).nodup_iff.mpr ((take_sublist _ _).nodup hnd)
  have hlen : found.length ≤ cap := by
    rw [hsort.dedup, length_insertionSort, length_take] at hcap
    omega
  rw [mem_dedup, (perm_insertionSort _ _).mem_iff, take_of_length_le (by omega)]

theorem endpointLayers_opinions (nodeIds : List ℕ) (dir : Direction) :
    (endpointLayers sl nodeIds dir).map (·.2) = (edgeScanLayers sl).map (·.2) := by
  simp only [endpointLayers, edgeScanLayers, map_append, map_map]
  rfl

variable {dir : Direction} {nodeIds : List ℕ}

theorem nodup_endpointLayers : ∀ lay ∈ endpointLayers sl nodeIds dir, lay.1.Nodup := by
  intro lay hlay
  rcases mem_append.mp hlay with hlay | hlay
  · obtain ⟨m, -, rfl⟩ := mem_map.mp hlay
    have hls := @memtableLayer_lists sl m
    exact (perm_insertionSort _ _).nodup_iff.mpr (hls.nodup.filter _)
  · obtain ⟨seg, -, rfl⟩ := mem_map.mp hlay
    exact (perm_insertionSort _ _).nodup_iff.mpr ((segmentLayer_lists seg).nodup.filter _)

def NeverDeleted (sl : SourceList) (id : ℕ) : Prop :=
  (∀ m ∈ sl.active :: sl.immutable, m.isNodeDeletedAt id sl.snapshotSeq = false) ∧ ∀ seg ∈ sl.segments, seg.isNodeDeleted id = false

/-- The layers that hold a version of an edge list it at the endpoints: they have not deleted its ends. -/
def ShownAt (sl : SourceList) (nodeIds : List ℕ) (dir : Direction) (id : ℕ) (edge : EdgeRecord) : Prop :=
  (∀ m ∈ sl.active :: sl.immutable, m.getEdgeAt id sl.snapshotSeq = some edge → memtableEndpointMatches sl m nodeIds dir edge = true) ∧
    ∀ seg ∈ sl.segments, seg.getEdge id = some edge → segmentEndpointMatches seg nodeIds dir edge = true

variable {edge : EdgeRecord}

theorem shownAt_of_neverDeleted (hsrc : NeverDeleted sl edge.source) (htgt : NeverDeleted sl edge.target)
    (hend : endpointMatches nodeIds dir edge = true) (id : ℕ) : ShownAt sl nodeIds dir id edge := by
  constructor
  · intro m hm _
    rw [memtableEndpointMatches, hend, hsrc.1 m hm, htgt.1 m hm]
    rfl
  · intro seg hseg _
    cases dir <;>
      simpa only [segmentEndpointMatches, endpointMatches, hsrc.2 seg hseg, htgt.2 seg hseg, Bool.not_false, Bool.and_true]
        using hend

theorem getEdgeAt_of_memtableLayer {m : MemtableState} (h : (memtableLayer sl m).2 id = some (some edge)) :
    m.getEdgeAt id sl.snapshotSeq = some edge := by
  simp only [memtableLayer] at h
  split at h
  · rename_i held hheld
    rw [hheld, some.inj (some.inj h)]
  · split at h <;> cases h

theorem getEdge_of_segmentLayer {seg : Segment} (h : (segmentLayer seg).2 id = some (some edge)) : seg.getEdge id = some edge := by
  simp only [segmentLayer] at h
  split at h
  · cases h
  · obtain ⟨held, hheld, heq⟩ := map_eq_some_iff.mp h
    rw [hheld, some.inj heq]

theorem mem_endpointLayer (hshown : ShownAt sl nodeIds dir id edge) :
    ∀ lay ∈ endpointLayers sl nodeIds dir, lay.2 id = some (some edge) → id ∈ lay.1 := by
  intro lay hlay hop
  rcases mem_append.mp hlay with hlay | hlay
  · obtain ⟨m, hm, rfl⟩ := mem_map.mp hlay
    have hget : m.getEdgeAt id sl.snapshotSeq = some edge := getEdgeAt_of_memtableLayer hop
    refine (perm_insertionSort _ _).mem_iff.mpr (mem_filter.mpr ⟨(memtableLayer_lists m).holds id edge hop, ?_⟩)
    rw [hget, any_some]
    exact hshown.1 m hm hget
  · obtain ⟨seg, hseg, rfl⟩ := mem_map.mp hlay
    have hget : seg.getEdge id = some edge := getEdge_of_segmentLayer hop
    refine (perm_insertionSort _ _).mem_iff.mpr (mem_filter.mpr ⟨(segmentLayer_lists seg).holds id edge hop, ?_⟩)
    rw [hget, any_some]
    exact hshown.2 seg hseg hget

/-- A read that is not cut off has found every visible edge at the endpoints that no layer hides. -/
theorem mem_edgeIdsByEndpointsLimited {fids : Option (List ℕ)}
    {cap : ℕ} (hcap : (edgeIdsByEndpointsLimited sl nodeIds dir fids (cap + 1)).length ≤ cap)
    (hedge : sl.findEdge id = some edge) (hsrc : NeverDeleted sl edge.source)
    (htgt : NeverDeleted sl edge.target) (hend : endpointMatches nodeIds dir edge = true)
    (hlab : labelAllowed fids edge = true) :
    id ∈ edgeIdsByEndpointsLimited sl nodeIds dir fids (cap + 1) := by
  rw [findEdge_eq_visible, ← endpointLayers_opinions nodeIds dir] at hedge
  refine (mem_sorted_take (nodup_scanLayers nodup_endpointLayers) hcap).mpr ?_
  exact mem_scanLayers (mem_endpointLayer (shownAt_of_neverDeleted hsrc htgt hend id)) hedge (by rw [hend, hlab]; rfl) rfl

end

end OverGraph.EdgeCandidates
