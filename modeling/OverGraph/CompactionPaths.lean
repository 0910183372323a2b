import OverGraph.CompactedEdges
import OverGraph.FloatOrder
import Mathlib.Data.String.Basic

/-!
# The two ways to write a compacted segment

Both paths hand the component writer a list of headers sorted by identifier, one for each
record of the output with the position of the input it is copied from. The fast merge
takes the headers of all inputs, the planner those of its winners. Everything else in the
output is built from the inputs and these two lists.
-/

namespace OverGraph.CompactionPaths
open AssocMaps Records Segments Degrees Compaction List List.Pairwise
open FloatOrder

/-- The header of a record: its identifier, the input it is copied from, and the record
stored there. -/
@[ext] structure Meta (ν : Type) where
  id : ℕ
  srcSegIdx : ℕ
  record : ν

/-- The sidecars of the declared indexes of one kind of record, by index identifier. -/
structure Sidecars where
  equality : Map ℕ (List (ℕ × List ℕ))
  range : Map ℕ (List (ℕ × ℕ))

/-- A segment as the component writer reads it. -/
structure Input (W : Type) where
  segment : Segment
  degreeDelta : Option (Overlay W)
  nodeSidecars : Sidecars
  edgeSidecars : Sidecars

def sortById {ν : Type} (metas : List (Meta ν)) : List (Meta ν) := metas.insertionSort fun a b => a.id ≤ b.id

/-- The headers of a segment at a position of the inputs. -/
def metasOf {ν : Type} (m : Map ℕ ν) (segIdx : ℕ) : List (Meta ν) := m.entries.map fun e => ⟨e.1, segIdx, e.2⟩

/-- The first duplicate in a list sorted by identifier. -/
def findDuplicate {ν : Type} (metas : List (Meta ν)) : Option ℕ :=
  ((metas.zip metas.tail).find? fun pair => pair.1.id == pair.2.id).map (·.1.id)

def collectFastMergeMetas {ν : Type} (kind : String) (pick : Segment → Map ℕ ν)
    (segs : List Segment) : Except String (List (Meta ν)) :=
  let metas := sortById (segs.zipIdx.flatMap fun entry => metasOf (pick entry.1) entry.2)
  match findDuplicate metas with
  | some id => .error s!"fast-merge requires non-overlapping {kind} IDs, found duplicate {id}"
  | none => .ok metas

def collectFastMergeNodeMetas (segs : List Segment) : Except String (List (Meta NodeRecord)) := collectFastMergeMetas "node" (·.nodes) segs

def collectFastMergeEdgeMetas (segs : List Segment) : Except String (List (Meta EdgeRecord)) := collectFastMergeMetas "edge" (·.edges) segs

/-- The headers of the winners. The planner notes the segment it meets a record in, which
is the first that has one. -/
def winnerMetas {ν : Type} (pick : Segment → Map ℕ ν) (segs : List Segment) (winners : Map ℕ ν) : List (Meta ν) :=
  sortById (winners.entries.map fun e => ⟨e.1, segs.findIdx fun seg => ((pick seg).lookup e.1).isSome, e.2⟩)

section
variable {κ ν : Type} [LinearOrder κ]

/-- An ordered map from keys to the lists pushed under them. -/
def groupsOf (pushes : List (κ × List ν)) : List (κ × List ν) :=
  ((pushes.map (·.1)).insertionSort (· ≤ ·)).dedup.map fun k => (k, (pushes.filter fun push => push.1 = k).flatMap (·.2))

/-- Sort the identifiers of every group and drop repetitions. -/
def sortedGroups (pushes : List (κ × List ℕ)) : List (κ × List ℕ) :=
  (groupsOf pushes).map fun group => (group.1, (group.2.insertionSort (· ≤ ·)).dedup)

end

/-- Entries in the order of their fields. -/
def lexTriple {α β γ : Type} (e : α × β × γ) : α ×ₗ β ×ₗ γ := toLex (e.1, toLex (e.2.1, e.2.2))

def keyEntries (nm : Meta NodeRecord) : List (ℕ × String × ℕ) := nm.record.labelIds.labelIds.map fun label => (label, nm.record.key, nm.id)

/-- Two entries name the same label and key for different nodes. -/
def clash (left right : ℕ × String × ℕ) : Bool := left.1 == right.1 && left.2.1 == right.2.1 && left.2.2 != right.2.2

/-- One entry per node and label; two nodes may not share a label and a key. -/
def prepareKeyIndexPayloadFromMeta (nodeMetas : List (Meta NodeRecord)) : Except String (List (ℕ × String × ℕ)) :=
  let entries := (nodeMetas.flatMap keyEntries).insertionSort fun a b => lexTriple a ≤ lexTriple b
  match (entries.zip entries.tail).find? fun pair => clash pair.1 pair.2 with
  | some (left, _) => .error s!"duplicate live node key membership for label {left.1} and key '{left.2.1}'"
  | none => .ok entries

def prepareNodeLabelIndexPayloadFromMeta (nodeMetas : List (Meta NodeRecord)) : List (ℕ × List ℕ) :=
  sortedGroups (nodeMetas.flatMap fun nm => nm.record.labelIds.labelIds.map fun label => (label, [nm.id]))

def prepareEdgeLabelIndexPayloadFromMeta (edgeMetas : List (Meta EdgeRecord)) : List (ℕ × List ℕ) :=
  (groupsOf (edgeMetas.map fun em => (em.record.labelId, [em.id]))).map fun group => (group.1, group.2.insertionSort (· ≤ ·))

/-- Entries `(label, value, identifier)` in ascending order. -/
def sortMetadata (entries : List (ℕ × ℤ × ℕ)) : List (ℕ × ℤ × ℕ) := entries.insertionSort fun a b => lexTriple a ≤ lexTriple b

def prepareTimestampIndexPayloadFromMeta (nodeMetas : List (Meta NodeRecord)) : List (ℕ × ℤ × ℕ) :=
  sortMetadata (nodeMetas.flatMap fun nm => nm.record.labelIds.labelIds.map fun label => (label, nm.record.updatedAt, nm.id))

def prepareEdgeTripleIndexPayloadFromMeta (edgeMetas : List (Meta EdgeRecord)) : List (ℕ × ℕ × ℕ × ℕ) :=
  (edgeMetas.map fun em =>
    (em.record.source, em.record.target, em.record.labelId, em.id)).insertionSort fun a b =>
      toLex (a.1, lexTriple a.2) ≤ toLex (b.1, lexTriple b.2)

/-- The order-preserving key of a weight; both zeros share one, a NaN has none. -/
def encodeEdgeWeightKey (weight : F32) : Option F32 :=
  if isNan weight then none
  else
    let bits : F32 := if weight.toNat % 2 ^ 31 = 0 then 0 else weight
    some (if bits.msb then ~~~bits else bits ^^^ (1 <<< 31))

structure EdgeMetadataIndexEntries where
  weight : List (ℕ × ℤ × ℕ)
  updatedAt : List (ℕ × ℤ × ℕ)
  validFrom : List (ℕ × ℤ × ℕ)
  validTo : List (ℕ × ℤ × ℕ)

def prepareEdgeMetadataIndexComponentsFromMeta (edgeMetas : List (Meta EdgeRecord)) : EdgeMetadataIndexEntries where
  weight := sortMetadata (edgeMetas.filterMap fun em =>
    (encodeEdgeWeightKey em.record.weight).map fun k => (em.record.labelId, (k.toNat : ℤ), em.id))
  updatedAt := sortMetadata (edgeMetas.map fun em => (em.record.labelId, em.record.updatedAt, em.id))
  validFrom := sortMetadata (edgeMetas.map fun em => (em.record.labelId, em.record.validFrom, em.id))
  validTo := sortMetadata (edgeMetas.map fun em => (em.record.labelId, em.record.validTo, em.id))

structure AdjacencyPosting where
  edgeId : ℕ
  neighborId : ℕ
  weight : F32
  validFrom : ℤ
  validTo : ℤ

/-- The postings of each node and edge label, in the order of the edges. -/
def prepareAdjacencyPayloadsFromMeta (edgeMetas : List (Meta EdgeRecord)) (isOutgoing : Bool) : List ((ℕ ×ₗ ℕ) × List AdjacencyPosting) :=
  let post (em : Meta EdgeRecord) : (ℕ ×ₗ ℕ) × List AdjacencyPosting :=
    let (nodeId, neighborId) := if isOutgoing then (em.record.source, em.record.target)
      else (em.record.target, em.record.source)
    (toLex (nodeId, em.record.labelId), [⟨em.id, neighborId, em.record.weight, em.record.validFrom, em.record.validTo⟩])
  (groupsOf (edgeMetas.map post)).map fun group => (group.1, group.2.insertionSort fun a b => a.edgeId ≤ b.edgeId)

def degreeSidecarsForSegments {W : Type} (inputs : List (Input W)) : Option (List (Overlay W)) := inputs.mapM (·.degreeDelta)

/-- A declared index over one kind of record. The key of a record is the hash of the
indexed property, its sort key, or the encoded tuple of a compound index. -/
structure DeclaredIndex (ν : Type) where
  indexId : ℕ
  failed : Bool
  labelId : ℕ
  isEquality : Bool
  keyOf : ν → Option ℕ

inductive SidecarPayload where
  | equality (groups : List (ℕ × List ℕ))
  | range (entries : List (ℕ × ℕ))

section
variable {ν : Type} (hasLabel : ν → ℕ → Bool) (sidecars : List Sidecars) (metas : List (Meta ν))
  (idx : DeclaredIndex ν)

/-- The input a surviving record with the label of the index is copied from. -/
def winnerSource (id : ℕ) : Option ℕ := (metas.find? fun m => hasLabel m.record idx.labelId && m.id == id).map (·.srcSegIdx)

/-- Groups of the inputs' sidecars, of which only the surviving identifiers stay. -/
def buildSecondaryEqGroupsFromSourceSidecars (sources : List (List (ℕ × List ℕ))) : List (ℕ × List ℕ) :=
  sortedGroups (sources.zipIdx.flatMap fun source => source.1.map fun group =>
    (group.1, group.2.filter fun id => winnerSource hasLabel metas idx id == some source.2))

def buildSecondaryEqGroupsFromTargetedDecode : List (ℕ × List ℕ) :=
  sortedGroups ((metas.filter fun m => hasLabel m.record idx.labelId).filterMap fun m => (idx.keyOf m.record).map fun k => (k, [m.id]))

/-- Entries in ascending order, each once. -/
def sortRange (entries : List (ℕ × ℕ)) : List (ℕ × ℕ) := (entries.insertionSort fun a b => toLex a ≤ toLex b).dedup

def buildSecondaryRangeEntriesFromSourceSidecars (sources : List (List (ℕ × ℕ))) : List (ℕ × ℕ) :=
  sortRange (sources.zipIdx.flatMap fun source => source.1.filter fun entry => winnerSource hasLabel metas idx entry.2 == some source.2)

def buildSecondaryRangeEntriesFromTargetedDecode : List (ℕ × ℕ) :=
  sortRange ((metas.filter fun m => hasLabel m.record idx.labelId).filterMap fun m => (idx.keyOf m.record).map fun k => (k, m.id))

/-- The sidecars of the inputs are merged where all of them have one and the index has not
failed; otherwise the surviving records are decoded. -/
def writeDeclaredSidecar : SidecarPayload :=
  if idx.isEquality then
    .equality <| match if idx.failed then none else sidecars.mapM (·.equality.lookup idx.indexId) with
      | some sources => buildSecondaryEqGroupsFromSourceSidecars hasLabel metas idx sources
      | none => buildSecondaryEqGroupsFromTargetedDecode hasLabel metas idx
  else
    .range <| match if idx.failed then none else sidecars.mapM (·.range.lookup idx.indexId) with
      | some sources => buildSecondaryRangeEntriesFromSourceSidecars hasLabel metas idx sources
      | none => buildSecondaryRangeEntriesFromTargetedDecode hasLabel metas idx

end

structure SecondaryIndexes where
  nodes : List (DeclaredIndex NodeRecord)
  edges : List (DeclaredIndex EdgeRecord)

structure Contents (W : Type) where
  nodes : List (ℕ × NodeRecord)
  edges : List (ℕ × EdgeRecord)
  keyIndex : List (ℕ × String × ℕ)
  nodeLabelIndex : List (ℕ × List ℕ)
  timestampIndex : List (ℕ × ℤ × ℕ)
  adjOut : List ((ℕ ×ₗ ℕ) × List AdjacencyPosting)
  adjIn : List ((ℕ ×ₗ ℕ) × List AdjacencyPosting)
  edgeLabelIndex : List (ℕ × List ℕ)
  edgeTripleIndex : List (ℕ × ℕ × ℕ × ℕ)
  edgeMetadataIndexes : EdgeMetadataIndexEntries
  degreeDelta : Option (Overlay W)
  nodeSecondaryIndexes : List (ℕ × SidecarPayload)
  edgeSecondaryIndexes : List (ℕ × SidecarPayload)

section
variable {W : Type} [AddCommGroup W] [DecidableEq W] (declared : SecondaryIndexes) (inputs : List (Input W))

def writeIndexesFromMetadata (nodeMetas : List (Meta NodeRecord)) (edgeMetas : List (Meta EdgeRecord))
    (writeDegreeSidecar : Bool) : Except String (Contents W) := do
  let keyIndex ← prepareKeyIndexPayloadFromMeta nodeMetas
  return {
    nodes := nodeMetas.map fun m => (m.id, m.record)
    edges := edgeMetas.map fun m => (m.id, m.record)
    keyIndex
    nodeLabelIndex := prepareNodeLabelIndexPayloadFromMeta nodeMetas
    timestampIndex := prepareTimestampIndexPayloadFromMeta nodeMetas
    adjOut := prepareAdjacencyPayloadsFromMeta edgeMetas true
    adjIn := prepareAdjacencyPayloadsFromMeta edgeMetas false
    edgeLabelIndex := prepareEdgeLabelIndexPayloadFromMeta edgeMetas
    edgeTripleIndex := prepareEdgeTripleIndexPayloadFromMeta edgeMetas
    edgeMetadataIndexes := prepareEdgeMetadataIndexComponentsFromMeta edgeMetas
    degreeDelta := if writeDegreeSidecar then
      (degreeSidecarsForSegments inputs).map Overlay.foldSidecars else none
    nodeSecondaryIndexes := declared.nodes.map fun idx => (idx.indexId,
      writeDeclaredSidecar (fun n => n.labelIds.contains) (inputs.map (·.nodeSidecars)) nodeMetas idx)
    edgeSecondaryIndexes := declared.edges.map fun idx => (idx.indexId,
      writeDeclaredSidecar (fun e label => e.labelId == label) (inputs.map (·.edgeSidecars)) edgeMetas idx) }

def buildFastMergeOutput : Except String (Contents W) := do
  let segs := inputs.map (·.segment)
  let nodeMetas ← collectFastMergeNodeMetas segs
  let edgeMetas ← collectFastMergeEdgeMetas segs
  writeIndexesFromMetadata declared inputs nodeMetas edgeMetas true

def v3BuildOutput (pols : List PrunePolicy) : Except String (Contents W) :=
  let segs := inputs.map (·.segment)
  let plan := v3PlanWinners segs pols (collectDeletedNodes segs) (collectDeletedEdges segs)
  writeIndexesFromMetadata declared inputs (winnerMetas (·.nodes) segs plan.nodes.winners)
    (winnerMetas (·.edges) segs plan.edges.winners) pols.isEmpty

end

/-- The inputs share no identifier. -/
def KeysApart {ν : Type} (maps : List (Map ℕ ν)) : Prop :=
  maps.Pairwise fun a b => ∀ id, (a.lookup id).isSome → (b.lookup id).isSome → False

/-- One range lies before the other. -/
private def Apart (a b : ℕ × ℕ) : Prop := a.2 < b.1 ∨ b.2 < a.1

theorem idRange_bounds {ν : Type} {m : Map ℕ ν} {id : ℕ} {range : ℕ × ℕ}
    (hrng : idRange m = some range) (h : (m.lookup id).isSome) : range.1 ≤ id ∧ id ≤ range.2 := by
  have hmem : id ∈ m.keys := by rwa [AList.lookup_isSome, AList.mem_keys] at h
  rw [idRange] at hrng
  cases hmin : m.keys.min? with
  | none => simp [hmin] at hrng
  | some fst =>
    cases hmax : m.keys.max? with
    | none => simp [hmin, hmax] at hrng
    | some last =>
      simp only [hmin, hmax, Option.some.injEq] at hrng
      subst hrng
      exact ⟨(min?_eq_some_iff.mp hmin).2 id hmem, (List.max?_eq_some_iff.mp hmax).2 id hmem⟩

theorem exists_idRange {ν : Type} {m : Map ℕ ν} {id : ℕ} (h : (m.lookup id).isSome) : ∃ range, idRange m = some range := by
  have hmem : id ∈ m.keys := by rwa [AList.lookup_isSome, AList.mem_keys] at h
  have hne : m.keys ≠ [] := ne_nil_of_mem hmem
  obtain ⟨fst, hmin⟩ := Option.isSome_iff_exists.mp (List.isSome_min?_of_ne_nil hne)
  obtain ⟨last, hmax⟩ := Option.isSome_iff_exists.mp (List.isSome_max?_of_ne_nil hne)
  exact ⟨(fst, last), by simp [idRange, hmin, hmax]⟩

theorem pairwise_apart_of_windows : ∀ ranges : List (ℕ × ℕ), (∀ r ∈ ranges, r.1 ≤ r.2) →
      ((ranges.zip ranges.tail).all fun window => decide (window.1.2 < window.2.1)) = true →
      ranges.Pairwise (fun a b => a.2 < b.1)
  | [], _, _ => nil
  | [_], _, _ => pairwise_singleton _ _
  | a :: b :: rest, hvd, h => by
    simp only [tail_cons, zip_cons_cons, all_cons, Bool.and_eq_true, decide_eq_true_eq] at h
    obtain ⟨hab, hrest⟩ := h
    have ih := pairwise_apart_of_windows (b :: rest)
      (fun r hr => hvd r (mem_cons_of_mem a hr)) hrest
    refine pairwise_cons.mpr ⟨fun c hc => ?_, ih⟩
    rcases mem_cons.mp hc with rfl | hc
    · exact hab
    · have hb := hvd b (by simp)
      have hbc := (pairwise_cons.mp ih).1 c hc
      omega

theorem pairwise_apart {ranges : List (ℕ × ℕ)} (hvd : ∀ r ∈ ranges, r.1 ≤ r.2)
    (h : rangesDisjoint ranges = true) : ranges.Pairwise Apart := by
  have hperm := mergeSort_perm ranges fun a b => decide (a.1 ≤ b.1)
  have hsort := pairwise_apart_of_windows _ (fun r hr => hvd r (hperm.mem_iff.mp hr)) h
  have happart := hsort.imp fun {a b} hab => (Or.inl hab : Apart a b)
  exact (hperm.pairwise_iff fun {a b} hab => hab.symm).mp happart

theorem keysApart_of_rangesDisjoint {ν : Type} {maps : List (Map ℕ ν)}
    (h : rangesDisjoint (maps.filterMap idRange) = true) : KeysApart maps := by
  have hvd : ∀ r ∈ maps.filterMap idRange, r.1 ≤ r.2 := by
    intro r hr
    obtain ⟨m, -, hm⟩ := mem_filterMap.mp hr
    have hsome : ∃ id, (m.lookup id).isSome := by
      rw [idRange] at hm
      cases hmin : m.keys.min? with
      | none => simp [hmin] at hm
      | some fst =>
        have hmem := (min?_eq_some_iff.mp hmin).1
        exact ⟨fst, AList.lookup_isSome.mpr (AList.mem_keys.mp hmem)⟩
    obtain ⟨id, hid⟩ := hsome
    have hbds := idRange_bounds hm hid
    omega
  have hpairs := pairwise_filterMap.mp (pairwise_apart hvd h)
  refine hpairs.imp fun {a b} hab id ha hb => ?_
  obtain ⟨ra, hra⟩ := exists_idRange ha
  obtain ⟨rb, hrb⟩ := exists_idRange hb
  have hboundsA := idRange_bounds hra ha
  have hboundsB := idRange_bounds hrb hb
  rcases hab ra hra rb hrb with hlt | hlt <;> omega

/-- What the choice of the fast merge says about the inputs. -/
structure Eligible (segs : List Segment) : Prop where
  noTombstones : hasTombstones segs = false
  nodes : KeysApart (segs.map (·.nodes))
  edges : KeysApart (segs.map (·.edges))

theorem eligible_of_fastMerge {segs : List Segment}
    (h : selectCompactionPath segs [] = .fastMerge) : Eligible segs := by
  rw [selectCompactionPath] at h
  split at h
  · rename_i hcond
    simp only [isEmpty_nil, Bool.and_true, Bool.and_eq_true, Bool.not_eq_true', segmentsAreNonOverlapping] at hcond
    refine ⟨hcond.1, keysApart_of_rangesDisjoint ?_, keysApart_of_rangesDisjoint ?_⟩
    · rw [filterMap_map]
      exact hcond.2.1
    · rw [filterMap_map]
      exact hcond.2.2
  · cases h

section
variable {ν : Type} {pick : Segment → Map ℕ ν} {segs : List Segment}

/-- The header is that of the record at its position of the inputs. -/
def IsHeader (pick : Segment → Map ℕ ν) (segs : List Segment) (m : Meta ν) : Prop :=
  ∃ seg, segs[m.srcSegIdx]? = some seg ∧ (pick seg).lookup m.id = some m.record

variable {x : Meta ν}

theorem mem_metasOf {m : Map ℕ ν} {segIdx : ℕ} : x ∈ metasOf m segIdx ↔ x.srcSegIdx = segIdx ∧ m.lookup x.id = some x.record := by
  simp only [metasOf, mem_map]
  constructor
  · rintro ⟨e, he, rfl⟩
    exact ⟨rfl, AList.mem_lookup_iff.mpr he⟩
  · rintro ⟨rfl, hlk⟩
    exact ⟨⟨x.id, x.record⟩, AList.mem_lookup_iff.mp hlk, rfl⟩

theorem mem_flatMap_metasOf : x ∈ segs.zipIdx.flatMap (fun entry => metasOf (pick entry.1) entry.2) ↔ IsHeader pick segs x := by
  simp only [mem_flatMap, mem_metasOf, IsHeader]
  constructor
  · rintro ⟨⟨seg, i⟩, hent, hi, hlk⟩
    exact ⟨seg, by rw [hi]; exact mem_zipIdx_iff_getElem?.mp hent, hlk⟩
  · rintro ⟨seg, hseg, hlk⟩
    exact ⟨(seg, x.srcSegIdx), mem_zipIdx_iff_getElem?.mpr hseg, rfl, hlk⟩

/-- Each identifier once, in ascending order. -/
def Ascending (metas : List (Meta ν)) : Prop := metas.Pairwise fun a b => a.id < b.id

theorem Ascending.eq_of_mem_iff {l₁ l₂ : List (Meta ν)} (h₁ : Ascending l₁) (h₂ : Ascending l₂)
    (h : ∀ x, x ∈ l₁ ↔ x ∈ l₂) : l₁ = l₂ := by
  have hirrefl : Std.Irrefl fun a b : Meta ν => a.id < b.id := ⟨fun a => lt_irrefl a.id⟩
  have hasymm : Std.Antisymm fun a b : Meta ν => a.id < b.id := ⟨fun a b hab hba => absurd (lt_trans hab hba) (lt_irrefl a.id)⟩
  exact List.Pairwise.eq_of_mem_iff h₁ h₂ h

theorem mem_sortById {metas : List (Meta ν)} : x ∈ sortById metas ↔ x ∈ metas := (perm_insertionSort _ metas).mem_iff

theorem ascending_sortById {metas : List (Meta ν)}
    (h : metas.Pairwise fun a b => a.id ≠ b.id) : Ascending (sortById metas) := by
  have htotal : Std.Total fun a b : Meta ν => a.id ≤ b.id := ⟨fun a b => le_total a.id b.id⟩
  have htrans : IsTrans (Meta ν) fun a b => a.id ≤ b.id := ⟨fun _ _ _ => le_trans⟩
  have hsort := pairwise_insertionSort (fun a b : Meta ν => a.id ≤ b.id) metas
  have hne : (sortById metas).Pairwise fun a b => a.id ≠ b.id := ((perm_insertionSort _ metas).pairwise_iff fun {a b} hab => hab.symm).mpr h
  exact hsort.imp₂ (fun a b hle hab => lt_of_le_of_ne hle hab) hne

theorem findDuplicate_of_ascending : ∀ {metas : List (Meta ν)}, Ascending metas → findDuplicate metas = none
  | [], _ | [_], _ => rfl
  | a :: b :: rest, h => by
    have ih := findDuplicate_of_ascending (pairwise_cons.mp h).2
    have hab := (pairwise_cons.mp h).1 b (by simp)
    simp only [findDuplicate, tail_cons, Option.map_eq_none_iff] at ih ⊢
    simp only [zip_cons_cons, find?_cons]
    have hne : (a.id == b.id) = false := by simp only [beq_eq_false_iff_ne]; omega
    rw [hne]
    exact ih

theorem pairwise_ne_metasOf (m : Map ℕ ν) (segIdx : ℕ) : (metasOf m segIdx).Pairwise fun a b => a.id ≠ b.id := by
  have hnd : (m.entries.map Sigma.fst).Nodup := m.keys_nodup
  rw [metasOf, pairwise_map]
  exact pairwise_map.mp hnd

/-- Where the inputs share no identifier, the fast merge takes the headers of all of
them. -/
theorem collectFastMergeMetas_spec (kind : String) (h : KeysApart (segs.map pick)) :
    ∃ metas, collectFastMergeMetas kind pick segs = .ok metas ∧ Ascending metas ∧ ∀ x, x ∈ metas ↔ IsHeader pick segs x := by
  have hpairs : segs.zipIdx.Pairwise fun a b =>
      ∀ x ∈ metasOf (pick a.1) a.2, ∀ y ∈ metasOf (pick b.1) b.2, x.id ≠ y.id := by
    have hfst : (segs.zipIdx.map Prod.fst).Pairwise fun a b =>
        ∀ id, ((pick a).lookup id).isSome → ((pick b).lookup id).isSome → False := by
      rw [zipIdx_map_fst]
      exact pairwise_map.mp h
    refine (pairwise_map.mp hfst).imp fun {a b} hab x hx y hy heq => ?_
    have hxl := (mem_metasOf.mp hx).2
    have hyl := (mem_metasOf.mp hy).2
    exact hab x.id (by rw [hxl]; rfl) (by rw [heq, hyl]; rfl)
  have hdist : (segs.zipIdx.flatMap fun entry => metasOf (pick entry.1) entry.2).Pairwise
      fun a b => a.id ≠ b.id :=
    pairwise_flatMap.mpr ⟨fun entry _ => pairwise_ne_metasOf (pick entry.1) entry.2, hpairs⟩
  have hasc := ascending_sortById hdist
  refine ⟨_, ?_, hasc, fun x => mem_sortById.trans mem_flatMap_metasOf⟩
  rw [collectFastMergeMetas]
  simp only [findDuplicate_of_ascending hasc]

theorem ascending_winnerMetas (winners : Map ℕ ν) : Ascending (winnerMetas pick segs winners) := by
  have hnd : (winners.entries.map Sigma.fst).Nodup := winners.keys_nodup
  exact ascending_sortById (pairwise_map.mpr (pairwise_map.mp hnd))

theorem mem_winnerMetas {winners : Map ℕ ν} : x ∈ winnerMetas pick segs winners ↔ winners.lookup x.id = some x.record ∧
      x.srcSegIdx = segs.findIdx fun seg => ((pick seg).lookup x.id).isSome := by
  rw [winnerMetas, mem_sortById, mem_map]
  constructor
  · rintro ⟨e, he, rfl⟩
    exact ⟨AList.mem_lookup_iff.mpr he, rfl⟩
  · rintro ⟨hlk, hidx⟩
    exact ⟨⟨x.id, x.record⟩, AList.mem_lookup_iff.mp hlk, Meta.ext rfl hidx.symm rfl⟩

theorem findSome?_eq_bind_findIdx {α β : Type} (f : α → Option β) (l : List α) :
    l.findSome? f = (l[l.findIdx fun a => (f a).isSome]?).bind f := by
  induction l with
  | nil => rfl
  | cons a l ih =>
    rw [findSome?_cons, findIdx_cons, ih]
    cases hfa : f a with
    | none => simp
    | some b => simp [hfa]

/-- Where the inputs share no identifier, a record is at one position only. -/
theorem isHeader_iff (h : KeysApart (segs.map pick)) : IsHeader pick segs x ↔
      (segs.findSome? fun seg => (pick seg).lookup x.id) = some x.record ∧
        x.srcSegIdx = segs.findIdx fun seg => ((pick seg).lookup x.id).isSome := by
  rw [findSome?_eq_bind_findIdx, Option.bind_eq_some_iff]
  constructor
  · rintro ⟨seg, hget, hlk⟩
    obtain ⟨hlt, hseg⟩ := List.getElem?_eq_some_iff.mp hget
    have hidx : (segs.findIdx fun seg => ((pick seg).lookup x.id).isSome) = x.srcSegIdx := by
      refine (findIdx_eq hlt).mpr ⟨by rw [hseg, hlk]; rfl, fun j hj => ?_⟩
      -- an earlier input with the identifier would share it with this one
      have hapart := pairwise_iff_getElem.mp (pairwise_map.mp h) j x.srcSegIdx
        (by omega) hlt hj x.id
      by_contra hsome
      exact hapart ((Bool.not_eq_false _).mp hsome) (by rw [hseg, hlk]; rfl)
    exact ⟨⟨seg, by rw [hidx]; exact hget, hlk⟩, hidx.symm⟩
  · rintro ⟨⟨seg, hget, hlk⟩, hidx⟩
    exact ⟨seg, by rw [hidx]; exact hget, hlk⟩

/-- The planner's headers are those of the records it keeps. -/
theorem mem_winnerMetas_iff (h : KeysApart (segs.map pick)) {winners : Map ℕ ν} {keeps : ℕ → ν → Prop}
    (hwin : ∀ id v, winners.lookup id = some v ↔ (segs.findSome? fun seg => (pick seg).lookup id) = some v ∧ keeps id v) :
    x ∈ winnerMetas pick segs winners ↔ IsHeader pick segs x ∧ keeps x.id x.record := by
  rw [mem_winnerMetas, hwin, isHeader_iff h]
  tauto

end

section

theorem clash_iff {a b : ℕ × String × ℕ} : clash a b = true ↔ a.1 = b.1 ∧ a.2.1 = b.2.1 ∧ a.2.2 ≠ b.2.2 := by
  simp [clash, and_assoc]

/-- What lies between two entries of a label and key has the same label and key. -/
theorem same_of_between {a b c : ℕ × String × ℕ} (hab : lexTriple a ≤ lexTriple b)
    (hbc : lexTriple b ≤ lexTriple c) (hlab : a.1 = c.1) (hkey : a.2.1 = c.2.1) : a.1 = b.1 ∧ a.2.1 = b.2.1 := by
  simp only [lexTriple, Prod.Lex.le_iff, ofLex_toLex] at hab hbc
  have hlabelB : a.1 = b.1 := by omega
  refine ⟨hlabelB, ?_⟩
  rcases hab with hlt | ⟨-, hab⟩
  · omega
  · rcases hbc with hlt | ⟨-, hbc⟩
    · omega
    · rcases hab with hab | hab
      · rcases hbc with hbc | hbc
        · exact absurd (lt_trans hab hbc) (by rw [hkey]; exact lt_irrefl _)
        · rw [hbc.1] at hab
          exact absurd hab (by rw [hkey]; exact lt_irrefl _)
      · exact hab.1

/-- In a sorted list a clash shows between neighbours. -/
theorem pairwise_of_neighbours : ∀ l : List (ℕ × String × ℕ), (l.Pairwise fun a b => lexTriple a ≤ lexTriple b) →
      (∀ pair ∈ l.zip l.tail, ¬clash pair.1 pair.2 = true) → l.Pairwise fun a b => ¬clash a b = true
  | [], _, _ => nil
  | [_], _, _ => pairwise_singleton _ _
  | x :: y :: rest, hsort, h => by
    obtain ⟨hx, hrest⟩ := pairwise_cons.mp hsort
    have hxy : ¬clash x y = true := h (x, y) (by simp)
    have ih := pairwise_of_neighbours (y :: rest) hrest fun pair hpair => h pair (by simp_all)
    refine pairwise_cons.mpr ⟨fun c hc => ?_, ih⟩
    rcases mem_cons.mp hc with rfl | hc
    · exact hxy
    · intro hclash
      obtain ⟨hlab, hkey, hne⟩ := clash_iff.mp hclash
      obtain ⟨hlabelY, hkeyY⟩ := same_of_between (hx y (by simp)) ((pairwise_cons.mp hrest).1 c hc)
        hlab hkey
      have hyc := (pairwise_cons.mp ih).1 c hc
      rw [clash_iff] at hxy hyc
      -- the neighbour is the same node as both ends
      have hidXY : x.2.2 = y.2.2 := by_contra fun hid => hxy ⟨hlabelY, hkeyY, hid⟩
      have hidYC : y.2.2 = c.2.2 := by_contra fun hid => hyc ⟨hlabelY.symm.trans hlab, hkeyY.symm.trans hkey, hid⟩
      exact hne (hidXY.trans hidYC)

/-- Two nodes of the inputs share a label and a key. -/
def KeysClash (segs : List Segment) : Prop :=
  ∃ seg₁ ∈ segs, ∃ seg₂ ∈ segs, ∃ id₁ id₂ node₁ node₂,
    seg₁.nodes.lookup id₁ = some node₁ ∧ seg₂.nodes.lookup id₂ = some node₂ ∧ id₁ ≠ id₂ ∧
      node₁.key = node₂.key ∧ ∃ label, node₁.labelIds.contains label ∧ node₂.labelIds.contains label

section
variable {segs : List Segment} {metas : List (Meta NodeRecord)} (hmem : ∀ x, x ∈ metas ↔ IsHeader (·.nodes) segs x)
include hmem

theorem exists_clash_iff :
    (∃ a ∈ metas.flatMap keyEntries, ∃ b ∈ metas.flatMap keyEntries, clash a b = true) ↔ KeysClash segs := by
  simp only [mem_flatMap, keyEntries, mem_map]
  constructor
  · rintro ⟨_, ⟨x, hx, label, hlab, rfl⟩, _, ⟨y, hy, label', hlab', rfl⟩, hclash⟩
    obtain ⟨hl, hkey, hid⟩ := clash_iff.mp hclash
    obtain ⟨segX, hsegX, hlookX⟩ := (hmem x).mp hx
    obtain ⟨segY, hsegY, hlookY⟩ := (hmem y).mp hy
    refine ⟨segX, mem_of_getElem? hsegX, segY, mem_of_getElem? hsegY, x.id, y.id, x.record,
      y.record, hlookX, hlookY, hid, hkey, label, ?_, ?_⟩
    · simpa using hlab
    · have hsame : label = label' := hl
      simpa [hsame] using hlab'
  · rintro ⟨seg₁, hseg₁, seg₂, hseg₂, id₁, id₂, node₁, node₂, hlook₁, hlook₂, hne, hkey, label, hl₁, hl₂⟩
    obtain ⟨i, hi⟩ := mem_iff_getElem?.mp hseg₁
    obtain ⟨j, hj⟩ := mem_iff_getElem?.mp hseg₂
    refine ⟨(label, node₁.key, id₁), ⟨⟨id₁, i, node₁⟩, (hmem _).mpr ⟨seg₁, hi, hlook₁⟩, label,
      by simpa using hl₁, rfl⟩, (label, node₂.key, id₂), ⟨⟨id₂, j, node₂⟩,
      (hmem _).mpr ⟨seg₂, hj, hlook₂⟩, label, by simpa using hl₂, rfl⟩, ?_⟩
    exact clash_iff.mpr ⟨rfl, hkey, hne⟩

/-- The key index is refused exactly where two nodes of the inputs share a key. -/
theorem prepareKeyIndex_error_iff :
    (∃ msg, prepareKeyIndexPayloadFromMeta metas = .error msg) ↔ KeysClash segs := by
  rw [← exists_clash_iff hmem, prepareKeyIndexPayloadFromMeta]
  have htotal : Std.Total fun a b : ℕ × String × ℕ => lexTriple a ≤ lexTriple b := ⟨fun a b => le_total (lexTriple a) (lexTriple b)⟩
  have htrans : IsTrans (ℕ × String × ℕ) fun a b => lexTriple a ≤ lexTriple b := ⟨fun _ _ _ => le_trans⟩
  have hsort := pairwise_insertionSort
    (fun a b : ℕ × String × ℕ => lexTriple a ≤ lexTriple b) (metas.flatMap keyEntries)
  have hperm := perm_insertionSort
    (fun a b : ℕ × String × ℕ => lexTriple a ≤ lexTriple b) (metas.flatMap keyEntries)
  generalize (metas.flatMap keyEntries).insertionSort (fun a b => lexTriple a ≤ lexTriple b) = entries
    at hsort hperm ⊢
  simp only [← hperm.mem_iff]
  cases hfind : (entries.zip entries.tail).find? fun pair => clash pair.1 pair.2 with
  | some pair =>
    have hclash := find?_some hfind
    have hzip := of_mem_zip (mem_of_find?_eq_some hfind)
    exact ⟨fun _ => ⟨pair.1, hzip.1, pair.2, mem_of_mem_tail hzip.2, hclash⟩, fun _ => ⟨_, rfl⟩⟩
  | none =>
    have hpairs := pairwise_of_neighbours entries hsort fun pair hpair => find?_eq_none.mp hfind pair hpair
    constructor
    · rintro ⟨msg, hmess⟩
      cases hmess
    · rintro ⟨a, ha, b, hb, hclash⟩
      obtain ⟨hlab, hkey, hne⟩ := clash_iff.mp hclash
      have hsymm : Std.Symm fun x y : ℕ × String × ℕ => ¬clash x y = true := by
        refine ⟨fun x y hxy hyx => hxy ?_⟩
        obtain ⟨hl, hk, hid⟩ := clash_iff.mp hyx
        exact clash_iff.mpr ⟨hl.symm, hk.symm, hid.symm⟩
      have hab : a ≠ b := fun heq => hne (by rw [heq])
      exact absurd hclash (hpairs.forall ha hb hab)

end

end

/-- Every edge of the inputs has both ends among their nodes. -/
def EndpointsPresent (segs : List Segment) : Prop :=
  ∀ seg ∈ segs, ∀ id edge, seg.edges.lookup id = some edge → (∃ other ∈ segs, (other.nodes.lookup edge.source).isSome) ∧
      ∃ other ∈ segs, (other.nodes.lookup edge.target).isSome

section
variable {segs : List Segment}

theorem Eligible.node_winners (h : Eligible segs) (id : ℕ) (node : NodeRecord) :
    (compactStandard segs []).nodes.lookup id = some node ↔ (segs.findSome? fun seg => seg.nodes.lookup id) = some node ∧ True := by
  have hnone : ¬NodeDeletedIn segs id := fun hdel => by simpa [hasTombstones_of_node hdel] using h.noTombstones
  rw [lookup_compactStandard_nodes, if_neg hnone, and_true, newestNode]
  simp

theorem Eligible.edge_winners (h : Eligible segs) (id : ℕ) (edge : EdgeRecord) :
    (compactStandard segs []).edges.lookup id = some edge ↔ (segs.findSome? fun seg => seg.edges.lookup id) = some edge ∧
        ((∃ other ∈ segs, (other.nodes.lookup edge.source).isSome) ∧ ∃ other ∈ segs, (other.nodes.lookup edge.target).isSome) := by
  have hedge : ¬EdgeDeletedIn segs id := fun hdel => by simpa [hasTombstones_of_edge hdel] using h.noTombstones
  have hnode : ∀ n, ¬NodeDeletedIn segs n := fun n hdel => by simpa [hasTombstones_of_node hdel] using h.noTombstones
  rw [lookup_compactStandard_edges, edgeWins_nil, newestEdge]
  refine and_congr_right fun _ => ⟨fun hkept => ⟨hkept.source.2, hkept.target.2⟩, fun hends => ?_⟩
  exact ⟨hedge, ⟨hnode _, hends.1⟩, hnode _, hends.2⟩

end

section
variable {W : Type} [AddCommGroup W] [DecidableEq W]

/-- Where the fast merge is chosen, the two paths write the same segment exactly if two
nodes share a key, so that both are refused, or no edge has an end outside the inputs. -/
theorem buildFastMergeOutput_eq_iff (declared : SecondaryIndexes) (inputs : List (Input W))
    (h : selectCompactionPath (inputs.map (·.segment)) [] = .fastMerge) :
    buildFastMergeOutput declared inputs = v3BuildOutput declared inputs [] ↔
      KeysClash (inputs.map (·.segment)) ∨ EndpointsPresent (inputs.map (·.segment)) := by
  have heligible := eligible_of_fastMerge h
  generalize hsegs : inputs.map (·.segment) = segs at heligible ⊢
  obtain ⟨nodeMetas, hnodes, hascNodes, hmemNodes⟩ := collectFastMergeMetas_spec "node" heligible.nodes
  obtain ⟨edgeMetas, hedges, hascEdges, hmemEdges⟩ := collectFastMergeMetas_spec "edge" heligible.edges
  have hplannedNodes : winnerMetas (·.nodes) segs (compactStandard segs []).nodes = nodeMetas := by
    refine (ascending_winnerMetas _).eq_of_mem_iff hascNodes fun x => ?_
    rw [mem_winnerMetas_iff heligible.nodes heligible.node_winners, hmemNodes, and_true]
  have hplannedEdges := fun x : Meta EdgeRecord =>
    mem_winnerMetas_iff heligible.edges heligible.edge_winners (x := x)
  have hfast : buildFastMergeOutput declared inputs =
      writeIndexesFromMetadata declared inputs nodeMetas edgeMetas true := by
    simp only [buildFastMergeOutput, collectFastMergeNodeMetas, collectFastMergeEdgeMetas, hsegs,
      hnodes, hedges]
    rfl
  have hplan : v3BuildOutput declared inputs [] = writeIndexesFromMetadata declared inputs nodeMetas
      (winnerMetas (·.edges) segs (compactStandard segs []).edges) true := by
    rw [← hplannedNodes, ← hsegs]
    rfl
  rw [hfast, hplan, ← prepareKeyIndex_error_iff hmemNodes]
  simp only [writeIndexesFromMetadata]
  cases hkeys : prepareKeyIndexPayloadFromMeta nodeMetas with
  | error message => exact ⟨fun _ => .inl ⟨message, rfl⟩, fun _ => rfl⟩
  | ok keyIndex =>
    constructor
    · intro heq
      have hedgesEq : edgeMetas.map (fun m => (m.id, m.record)) =
          (winnerMetas (·.edges) segs (compactStandard segs []).edges).map
            fun m => (m.id, m.record) := congrArg Contents.edges (Except.ok.inj heq)
      right
      intro seg hseg id edge hlookup
      obtain ⟨i, hi⟩ := mem_iff_getElem?.mp hseg
      have hheader : (⟨id, i, edge⟩ : Meta EdgeRecord) ∈ edgeMetas := (hmemEdges _).mpr ⟨seg, hi, hlookup⟩
      have hpair := mem_map_of_mem (f := fun m : Meta EdgeRecord => (m.id, m.record)) hheader
      rw [hedgesEq] at hpair
      obtain ⟨y, hy, hyeq⟩ := mem_map.mp hpair
      have hrecord : y.record = edge := congrArg Prod.snd hyeq
      rw [← hrecord]
      exact ((hplannedEdges y).mp hy).2
    · intro hcond
      have hpresent : EndpointsPresent segs := by
        rcases hcond with ⟨message, hmessage⟩ | hpresent
        · cases hmessage
        · exact hpresent
      have heq : winnerMetas (·.edges) segs (compactStandard segs []).edges = edgeMetas := by
        refine (ascending_winnerMetas _).eq_of_mem_iff hascEdges fun x => ?_
        rw [hplannedEdges, hmemEdges]
        refine and_iff_left_of_imp ?_
        rintro ⟨seg, hget, hlookup⟩
        exact hpresent seg (mem_of_getElem? hget) x.id x.record hlookup
      rw [heq]

end

private def plainNode (id : ℕ) (key : String) : NodeRecord := ⟨id, .single 1 Nat.one_ne_zero, key, ∅, 0, 0, 0, none, none, 0⟩

private def plainEdge : EdgeRecord := ⟨1, 1, 2, 1, ∅, 0, 0, 0, 0, i64Max, 0⟩

private def edgeOnly : Segment := ⟨∅, AList.singleton 1 plainEdge, ∅, ∅⟩

private def nodesOnly (nodes : Map ℕ NodeRecord) : Segment := ⟨nodes, ∅, ∅, ∅⟩

private def bareInput (segment : Segment) : Input ℤ := ⟨segment, some ∅, ⟨∅, ∅⟩, ⟨∅, ∅⟩⟩

/-- A segment with an edge under a segment with other nodes. -/
private def inputsWith (nodes : Map ℕ NodeRecord) : List (Input ℤ) := [bareInput (nodesOnly nodes), bareInput edgeOnly]

private def bothEnds : Map ℕ NodeRecord := AList.insert 2 (plainNode 2 "b") (AList.singleton 1 (plainNode 1 "a"))

theorem fastMerge_inputsWith (nodes : Map ℕ NodeRecord) (hne : nodes.keys ≠ []) :
    selectCompactionPath ((inputsWith nodes).map (·.segment)) [] = .fastMerge := by
  have hrng : ∃ range, idRange nodes = some range := by
    obtain ⟨id, hid⟩ := exists_mem_of_ne_nil _ hne
    exact exists_idRange (AList.lookup_isSome.mpr (AList.mem_keys.mp hid))
  obtain ⟨range, hrng⟩ := hrng
  have heds : idRange edgeOnly.edges = some (1, 1) := by decide
  have hnoNodes : idRange edgeOnly.nodes = none := by decide
  have hnoEdges : idRange (nodesOnly nodes).edges = none := by rfl
  have hnos : idRange (nodesOnly nodes).nodes = some range := hrng
  have hclear : hasTombstones [nodesOnly nodes, edgeOnly] = false := by rfl
  simp [selectCompactionPath, inputsWith, bareInput, hclear, segmentsAreNonOverlapping, hnos, heds, hnoNodes, hnoEdges, rangesDisjoint]

theorem edgeOnly_lookup {id : ℕ} {edge : EdgeRecord} (h : edgeOnly.edges.lookup id = some edge) : edge = plainEdge := by
  by_cases hid : id = 1
  · subst hid
    exact (Option.some.inj h).symm
  · exact absurd (AList.mem_lookup_iff.mp h) (by simpa [edgeOnly] using fun heq => absurd heq hid)

theorem paths_agree_on_both_ends :
    buildFastMergeOutput ⟨[], []⟩ (inputsWith bothEnds) = v3BuildOutput ⟨[], []⟩ (inputsWith bothEnds) [] := by
  refine (buildFastMergeOutput_eq_iff _ _ (fastMerge_inputsWith bothEnds (by decide))).mpr (.inr ?_)
  intro seg hseg id edge hlookup
  have hsegs : seg = nodesOnly bothEnds ∨ seg = edgeOnly := by
    simpa [inputsWith, bareInput] using hseg
  rcases hsegs with rfl | rfl
  · cases hlookup
  · rw [edgeOnly_lookup hlookup]
    exact ⟨⟨nodesOnly bothEnds, by simp [inputsWith, bareInput], by decide⟩,
      nodesOnly bothEnds, by simp [inputsWith, bareInput], by decide⟩

private def otherNode : Map ℕ NodeRecord := AList.singleton 5 (plainNode 5 "e")

/-- An edge whose ends have no record stays in the fast merge and not in the plan. -/
theorem paths_differ_on_edge_without_ends : ¬∀ (declared : SecondaryIndexes) (inputs : List (Input ℤ)),
      selectCompactionPath (inputs.map (·.segment)) [] = .fastMerge →
      buildFastMergeOutput declared inputs = v3BuildOutput declared inputs [] := by
  intro h
  have heq := h ⟨[], []⟩ (inputsWith otherNode) (fastMerge_inputsWith otherNode (by decide))
  have hedges := congrArg (fun r => r.toOption.map fun c => c.edges.map Prod.fst) heq
  exact absurd hedges (by decide)

end OverGraph.CompactionPaths
