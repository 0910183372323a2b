import OverGraph.LimitedReads
import OverGraph.PagedReads

/-!
# Candidates under a cap

The planner collects the candidates of a node query from an equality index, from the labels or from the times of the nodes. An equality
read counts the postings that it reads in each layer, before any of them is dropped, and gives up when they are more than its cap; what
it drops is only what a newer layer has deleted. A time read stops when it has as many candidates as it was asked for, and drops stale
ones only after it has gone through all layers. A label scan hands its candidates over in chunks. None of them passes for complete when
something may be missing.
-/

namespace OverGraph.CappedCandidates
open Option hiding map_map mem_map mem_map_of_mem or_assoc
open AssocMaps Records PropertyValues Memtable Segments LayeredWrites SecondaryEntries SnapshotReads SnapshotStability List Nat
open TrackedIndexes IndexFamily SecondaryHeads IndexCoherence LimitedScans IndexedSources CandidateScans
open LimitedReads (HashOrder SecondaryEqPostingChunk secondaryEqPostingChunk nextOffset_lt eqGroup mem_eqGroup chunk_ids exhausted_length posts_layers
  VisibleNode VisibleEdge)

section
variable (src : IndexedSourceList)

/-- Postings are counted before they are checked. -/
structure EqualityRawPostingBudget where
  cap : ℕ
  consumed : ℕ

namespace EqualityRawPostingBudget
variable (budget : EqualityRawPostingBudget)

def remainingSourceLimit : Option ℕ := if budget.consumed > budget.cap then none else some (budget.cap + 1 - budget.consumed)

def nextChunkLimit : Option ℕ := budget.remainingSourceLimit.map (min · 256)

def consume (count : ℕ) : EqualityRawPostingBudget × Bool :=
  (⟨budget.cap, budget.consumed + count⟩, decide (budget.consumed + count > budget.cap))

end EqualityRawPostingBudget

/-- Why a read of an equality index has nothing to return. -/
inductive EqualityStop where
  | rawCapExceeded
  | missingSidecar

structure EqualityRead where
  budget : EqualityRawPostingBudget
  accepted : List ℕ

variable (order : HashOrder) (enc : IndexEncoders) (decls : Map ℕ SecondaryIndexEntry) (indexId : ℕ) (val : PropValue)

def equalityProbeValueHashes : List ℕ := [enc.hashPropEqualityKey val]

def findSecondaryEqNodesByHashAtLimited (m : IndexedMemtable) (valueHash : ℕ) (maxIds : Option ℕ) : List ℕ :=
  (takeLimit (maxIds.map (max 1)) (order.order m valueHash (idsWithHash m src.snapshotSeq indexId valueHash))).insertionSort (· ≤ ·)

/-- The ids of the hashes, and whether some of them may have been cut off. -/
def rawNodesOfHashes (m : IndexedMemtable) (maxIds : Option ℕ) : List ℕ → List ℕ → Bool → List ℕ × Bool
  | [], ids, possiblyTruncated => (finalize ids, possiblyTruncated)
  | valueHash :: valueHashes, ids, possiblyTruncated =>
    let remaining := maxIds.map (· - ids.length)
    if remaining = some 0 then (finalize ids, true)
    else
      let groupIds := findSecondaryEqNodesByHashAtLimited src order indexId m valueHash remaining
      rawNodesOfHashes m maxIds valueHashes (ids ++ groupIds) (possiblyTruncated || remaining.any (decide <| · ≤ groupIds.length))

def memtableSecondaryEqRawNodesForFilter (m : IndexedMemtable) (maxIds : Option ℕ) : List ℕ × Bool :=
  rawNodesOfHashes src order indexId m maxIds (equalityProbeValueHashes enc val) [] false

def readMemtable (deletedAbove : ℕ → Bool) (m : IndexedMemtable) (st : EqualityRead) : Except EqualityStop EqualityRead :=
  match st.budget.remainingSourceLimit with
  | none | some 0 => .error .rawCapExceeded
  | some rawLimit =>
    let raw := memtableSecondaryEqRawNodesForFilter src order enc indexId val m (some rawLimit)
    let counted := st.budget.consume raw.1.length
    if counted.2 || raw.2 then .error .rawCapExceeded
    else .ok ⟨counted.1, st.accepted ++ raw.1.filter fun id => !deletedAbove id⟩

def extendFromSegmentPostings (deleted deletedAbove : ℕ → Bool) (ps : Option (List ℕ)) (offset : ℕ) (st : EqualityRead) :
    Except EqualityStop EqualityRead :=
  match st.budget.nextChunkLimit with
  | none | some 0 => .error .rawCapExceeded
  | some rawLimit =>
    match ps with
    | none => .error .missingSidecar
    | some ps =>
      let chunk := secondaryEqPostingChunk ps deleted offset rawLimit
      let counted := st.budget.consume (chunk.nextOffset - offset)
      let next : EqualityRead := ⟨counted.1, st.accepted ++ chunk.ids.filter fun id => !deletedAbove id⟩
      if counted.2 then .error .rawCapExceeded
      else if _ : chunk.exhausted = true then .ok next
      else extendFromSegmentPostings deleted deletedAbove (some ps) chunk.nextOffset next
termination_by (ps.getD []).length - offset
decreasing_by
  rename_i hexh
  have hnext : offset < chunk.nextOffset ∧ chunk.nextOffset < ps.length := nextOffset_lt hexh
  show ps.length - chunk.nextOffset < ps.length - offset
  omega

def nodeEqEntries (seg : IndexedSegment) : List (ℕ ×ₗ ℕ) := sidecarEntries (nodeEqFamily enc decls) seg.base.nodes indexId

def readSegment (deletedAbove : ℕ → Bool) (seg : IndexedSegment) (st : EqualityRead) : Except EqualityStop EqualityRead :=
  (equalityProbeValueHashes enc val).foldlM (fun st valueHash => extendFromSegmentPostings seg.base.isNodeDeleted deletedAbove
    ((seg.sidecar indexId (nodeEqEntries enc decls indexId seg)).map (eqGroup · valueHash)) 0 st) st

/-- What a memtable adds to the ids that are deleted above the next layer. -/
def deletedInMemtable (m : IndexedMemtable) (id : ℕ) : Bool := decide (id ∈ collectDeletedNodesAt m src.snapshotSeq)

def equalityOutcome (cap : ℕ) : Except EqualityStop EqualityRead := do
  let st ← readMemtable src order enc indexId val (fun _ => false) src.active ⟨⟨cap, 0⟩, []⟩
  let st ← overLayers (deletedInMemtable src) (readMemtable src order enc indexId val) (deletedInMemtable src src.active) src.immutable st
  overLayers (fun seg => seg.base.isNodeDeleted) (readSegment enc decls indexId val)
    (fun id => deletedInMemtable src src.active id || src.immutable.any (deletedInMemtable src · id)) src.segments st

/-- The candidates, without what is to be done about a sidecar that is missing. -/
def readyEqualityCandidateIdsRawLimited (rawPostingCap : ℕ) : Option (List ℕ) :=
  match equalityOutcome src order enc decls indexId val rawPostingCap with
  | .ok st => some (finalize st.accepted)
  | .error _ => none

/-- What the layers list under the hash of the value, and what they say about the nodes. -/
def equalityLayers : List (List ℕ × Opinion ℕ NodeRecord) :=
  let valueHash := enc.hashPropEqualityKey val
  ((src.active :: src.immutable).map fun m => (idsWithHash m src.snapshotSeq indexId valueHash, memtableNodes src.snapshotSeq m)) ++
    src.segments.map fun seg => (eqGroup (nodeEqEntries enc decls indexId seg) valueHash, segmentNodes seg)

section
variable (labelId : ℕ) (fromMs toMs : ℤ)

/-- The next candidate, or all of them once they are as many as may be. -/
def pushUniqueCandidateIdLimited (maxIds : ℕ) (ids : List ℕ) (nodeId : ℕ) : Except (List ℕ) (List ℕ) :=
  if maxIds = 0 then .error ids
  else if nodeId ∈ ids then .ok ids
  else if maxIds ≤ (ids ++ [nodeId]).length then .error (ids ++ [nodeId])
  else .ok (ids ++ [nodeId])

def forEachNodeByTimeRange (seg : Segment) : List ℕ :=
  if fromMs > toMs then []
  else ((((seg.nodes.entries.filter fun entry => entry.2.labelIds.contains labelId && decide (fromMs ≤ entry.2.updatedAt) &&
    decide (entry.2.updatedAt ≤ toMs)).map fun entry => toLex (entry.2.updatedAt, entry.1)).insertionSort (· ≤ ·)).map
      fun entry => (ofLex entry).2).filter fun id => !seg.isNodeDeleted id

/-- The layers, newest first. -/
def timestampLayers : List (List ℕ) :=
  ((src.active :: src.immutable).map fun m => forEachVisibleNodeByTimeRangeAt m src.snapshotSeq labelId fromMs toMs) ++
    src.segments.map fun seg => forEachNodeByTimeRange labelId fromMs toMs seg.base

def filterNodeIdsByCurrentLabelAndTime (ids : List ℕ) : List ℕ :=
  (finalize ids).filter fun id => (src.base.findNode id).any fun node =>
    node.labelIds.contains labelId && decide (fromMs ≤ node.updatedAt) && decide (node.updatedAt ≤ toMs)

def timestampCandidateIds (maxIds : ℕ) : List ℕ :=
  if fromMs > toMs ∨ maxIds = 0 then []
  else
    match (timestampLayers src labelId fromMs toMs).foldlM (fun ids lay => lay.foldlM (pushUniqueCandidateIdLimited maxIds) ids) [] with
    | .error ids => ids.insertionSort (· ≤ ·)
    | .ok ids => filterNodeIdsByCurrentLabelAndTime src labelId fromMs toMs ids

end

def labelNodeSources (labelId : ℕ) : List (List ℕ) :=
  ((src.active :: src.immutable).map fun m => visibleNodesByLabelId m src.snapshotSeq labelId) ++ src.segments.map fun seg =>
    ((seg.base.nodes.entries.filter fun entry => entry.2.labelIds.contains labelId).map (·.1)).insertionSort (· ≤ ·)

def labelEdgeSources (labelId : ℕ) : List (List ℕ) :=
  ((src.active :: src.immutable).map fun m => underLabel src.snapshotSeq m.orderedLabelEdgeIndex labelId) ++ src.segments.map fun seg =>
    ((seg.base.edges.entries.filter fun entry => decide (entry.2.labelId = labelId)).map (·.1)).insertionSort (· ≤ ·)

/-- The chunks that are handed over until the visitor, who knows all of them so far, breaks off; and whether it did. -/
def visitChunks (breaksOff : List (List ℕ) → Bool) (chunkLimit : ℕ) : List ℕ → List ℕ → List (List ℕ) → List (List ℕ) × Bool
  | [], chunk, vis => if chunk = [] then (vis, false) else (vis ++ [chunk], breaksOff (vis ++ [chunk]))
  | id :: ids, chunk, vis =>
    if max chunkLimit 1 ≤ (chunk ++ [id]).length then
      if breaksOff (vis ++ [chunk ++ [id]]) then (vis ++ [chunk ++ [id]], true)
      else visitChunks breaksOff chunkLimit ids [] (vis ++ [chunk ++ [id]])
    else visitChunks breaksOff chunkLimit ids (chunk ++ [id]) vis

def scanRawNodeLabelCandidates (labelIds : List ℕ) (startAfter : Option ℕ) (chunkLimit : ℕ) (breaksOff : List (List ℕ) → Bool) :
    List (List ℕ) × Bool :=
  visitChunks breaksOff chunkLimit (scanSources (fun _ _ => true) startAfter (labelIds.flatMap (labelNodeSources src))) [] []

def scanRawEdgeLabelCandidates (labelId : ℕ) (startAfter : Option ℕ) (chunkLimit : ℕ) (breaksOff : List (List ℕ) → Bool) :
    List (List ℕ) × Bool :=
  visitChunks breaksOff chunkLimit (scanSources (fun _ _ => true) startAfter (labelEdgeSources src labelId)) [] []

/-- The candidates of a source, unless they are more than the cap. -/
def withinCap (eagerCap : ℕ) (ids : Option (List ℕ)) : Option (List ℕ) := ids.filter fun ids => decide (ids.length ≤ eagerCap)

def materializeEquality (eagerCap : ℕ) : Option (List ℕ) :=
  withinCap eagerCap (readyEqualityCandidateIdsRawLimited src order enc decls indexId val eagerCap)

def materializeTimestamp (labelId : ℕ) (loMs hiMs : ℤ) (eagerCap : ℕ) : Option (List ℕ) :=
  withinCap eagerCap (some (timestampCandidateIds src labelId loMs hiMs (eagerCap + 1)))

end

/-- From one state to the next, postings are counted and ids are accepted. -/
structure TakesIn (st next : EqualityRead) (postings : ℕ) (ids : List ℕ) : Prop where
  cap : next.budget.cap = st.budget.cap
  consumed : next.budget.consumed = st.budget.consumed + postings
  within : st.budget.consumed ≤ st.budget.cap → next.budget.consumed ≤ next.budget.cap
  accepted : ∀ id, id ∈ next.accepted ↔ id ∈ st.accepted ∨ id ∈ ids

theorem TakesIn.refl (st : EqualityRead) : TakesIn st st 0 [] := ⟨rfl, rfl, fun h => h, by simp⟩

variable {st : EqualityRead} {ps : ℕ}

theorem TakesIn.trans {mid next : EqualityRead} {more : ℕ} {ids others : List ℕ} (h : TakesIn st mid ps ids)
    (h' : TakesIn mid next more others) : TakesIn st next (ps + more) (ids ++ others) where
  cap := h'.cap.trans h.cap
  consumed := by rw [h'.consumed, h.consumed, add_assoc]
  within hwi := h'.within (h.within hwi)
  accepted id := by rw [h'.accepted, h.accepted, mem_append, or_assoc]

/-- A step that does not give up takes in all of its postings. -/
def Takes (st : EqualityRead) (outcome : Except EqualityStop EqualityRead) (ps : ℕ) (ids : List ℕ) : Prop :=
  ∀ next, outcome = .ok next → TakesIn st next ps ids

theorem takes_ok {next : EqualityRead} {ids : List ℕ} (h : TakesIn st next ps ids) : Takes st (.ok next) ps ids := by
  intro next' heq
  obtain rfl := Except.ok.inj heq
  exact h

theorem takes_error {stop : EqualityStop} {ids : List ℕ} : Takes st (.error stop) ps ids :=
  fun _ h => nomatch h

theorem Takes.bind {fst : Except EqualityStop EqualityRead} {snd : EqualityRead → Except EqualityStop EqualityRead}
    {more : ℕ} {ids others : List ℕ} (hfst : Takes st fst ps ids) (hsnd : ∀ mid, Takes mid (snd mid) more others) :
    Takes st (fst >>= snd) (ps + more) (ids ++ others) := by
  intro next h
  cases fst with
  | error stop => cases h
  | ok mid => exact (hfst mid rfl).trans (hsnd mid next h)

/-- The postings of some layers. -/
def postingCount {ρ : Type} (lays : List (List ℕ × Opinion ℕ ρ)) : ℕ := (lays.map fun lay => lay.1.length).sum

variable {ρ : Type}

theorem Takes.overLayers {τ : Type} {hidden : τ → ℕ → Bool} {step : (ℕ → Bool) → τ → EqualityRead → Except EqualityStop EqualityRead}
    {posted : τ → List ℕ × Opinion ℕ ρ} {lays : List τ} (hhid : ∀ lay ∈ lays, ∀ id, hidden lay id = isDeletion ((posted lay).2 id))
    (h : ∀ above st, ∀ lay ∈ lays, Takes st (step above lay st) (posted lay).1.length ((posted lay).1.filter fun id => !above id))
    (above : ℕ → Bool) (st : EqualityRead) :
    Takes st (LimitedScans.overLayers hidden step above lays st) (postingCount (lays.map posted))
      (unshadowed isDeletion above (lays.map posted)) := by
  induction lays generalizing above st with
  | nil => exact takes_ok (TakesIn.refl st)
  | cons lay lays ih =>
    rw [LimitedScans.overLayers, map_cons, unshadowed, postingCount, map_cons, sum_cons]
    apply (h above st lay mem_cons_self).bind
    intro mid
    simp only [hhid lay mem_cons_self]
    exact ih (fun lay hlay => hhid lay (mem_cons_of_mem _ hlay))
      (fun above st lay hlay => h above st lay (mem_cons_of_mem _ hlay)) _ mid

section
variable {src : IndexedSourceList} {order : HashOrder} {enc : IndexEncoders} {indexId : ℕ} {val : PropValue}
  {m : IndexedMemtable}

/-- A limited read of a memtable that does not reach the limit has found all ids of the hash. -/
theorem rawNodes_perm {limit : ℕ} {ids : List ℕ}
    (hnd : (idsWithHash m src.snapshotSeq indexId (enc.hashPropEqualityKey val)).Nodup)
    (h : memtableSecondaryEqRawNodesForFilter src order enc indexId val m (some limit) = (ids, false)) :
    ids.Perm (idsWithHash m src.snapshotSeq indexId (enc.hashPropEqualityKey val)) := by
  have hor := order.perm m (enc.hashPropEqualityKey val) (idsWithHash m src.snapshotSeq indexId (enc.hashPropEqualityKey val))
  rw [memtableSecondaryEqRawNodesForFilter, equalityProbeValueHashes, rawNodesOfHashes] at h
  split at h
  · cases (Prod.mk.inj h).2
  rw [rawNodesOfHashes, nil_append, Bool.false_or] at h
  obtain ⟨rfl, hsh⟩ := Prod.mk.inj h
  rw [map_some, any_some, decide_eq_false_iff_not, length_nil, Nat.sub_zero, findSecondaryEqNodesByHashAtLimited,
    length_insertionSort] at hsh
  have hall : takeLimit (some (max 1 limit)) (order.order m (enc.hashPropEqualityKey val)
      (idsWithHash m src.snapshotSeq indexId (enc.hashPropEqualityKey val))) =
      order.order m (enc.hashPropEqualityKey val) (idsWithHash m src.snapshotSeq indexId (enc.hashPropEqualityKey val)) := by
    apply take_of_length_le
    by_contra hlong
    apply hsh
    show limit ≤ (take (max 1 limit) _).length
    rw [length_take]
    omega
  have hsort := (perm_insertionSort (· ≤ ·) (order.order m (enc.hashPropEqualityKey val)
    (idsWithHash m src.snapshotSeq indexId (enc.hashPropEqualityKey val)))).trans hor
  rw [map_some, length_nil, Nat.sub_zero, findSecondaryEqNodesByHashAtLimited, map_some, hall]
  exact (finalize_perm (hsort.nodup_iff.mpr hnd)).trans hsort

/-- Counting some postings and accepting their ids, when they are not too many. -/
theorem takesIn_consume {count : ℕ} (hwi : ¬(st.budget.consume count).2 = true) (ids : List ℕ) :
    TakesIn st ⟨(st.budget.consume count).1, st.accepted ++ ids⟩ count ids := by
  rw [EqualityRawPostingBudget.consume, decide_eq_true_iff] at hwi
  exact ⟨rfl, rfl, fun _ => Nat.le_of_not_lt hwi, fun id => mem_append⟩

theorem takes_readMemtable (hnd : (idsWithHash m src.snapshotSeq indexId (enc.hashPropEqualityKey val)).Nodup)
    (deletedAbove : ℕ → Bool) (st : EqualityRead) :
    Takes st (readMemtable src order enc indexId val deletedAbove m st)
      (idsWithHash m src.snapshotSeq indexId (enc.hashPropEqualityKey val)).length
      ((idsWithHash m src.snapshotSeq indexId (enc.hashPropEqualityKey val)).filter fun id => !deletedAbove id) := by
  rw [readMemtable]
  split
  · exact takes_error
  · exact takes_error
  rename_i rawLimit _ _
  cases hraw : memtableSecondaryEqRawNodesForFilter src order enc indexId val m (some rawLimit) with
  | mk ids possiblyTruncated =>
    dsimp only
    split
    · exact takes_error
    · rename_i hgoes
      rw [Bool.or_eq_true, not_or, Bool.not_eq_true possiblyTruncated] at hgoes
      obtain ⟨hwi, rfl⟩ := hgoes
      have hperm := rawNodes_perm hnd hraw
      have htaken := takesIn_consume hwi (ids.filter fun id => !deletedAbove id)
      rw [← hperm.length_eq]
      exact takes_ok ⟨htaken.cap, htaken.consumed, htaken.within, fun id => by rw [htaken.accepted, (hperm.filter _).mem_iff]⟩

theorem chunk_count (ps : List ℕ) (deleted : ℕ → Bool) (start rawLimit : ℕ) :
    (secondaryEqPostingChunk ps deleted start rawLimit).nextOffset - start +
      (ps.drop (secondaryEqPostingChunk ps deleted start rawLimit).nextOffset).length = (ps.drop start).length := by
  rw [length_drop, length_drop, secondaryEqPostingChunk]
  split_ifs with hst
  · dsimp only
    omega
  · dsimp only
    omega

theorem takes_extendFromSegmentPostings {deleted : ℕ → Bool} (deletedAbove : ℕ → Bool) {ps : Option (List ℕ)}
    (hdel : ∀ id ∈ ps.getD [], deleted id = false) (offset : ℕ) (st : EqualityRead) :
    Takes st (extendFromSegmentPostings deleted deletedAbove ps offset st) ((ps.getD []).drop offset).length
      (((ps.getD []).drop offset).filter fun id => !deletedAbove id) := by
  fun_induction extendFromSegmentPostings deleted deletedAbove ps offset st with
  | case1 | case2 | case3 | case4 => exact takes_error
  | case5 offset st rawLimit _ _ ps chunk _ next hwi hexh =>
    have hck : chunk.ids ++ ps.drop chunk.nextOffset = ps.drop offset := chunk_ids hdel offset rawLimit
    have hcnt : chunk.nextOffset - offset + (ps.drop chunk.nextOffset).length = (ps.drop offset).length :=
      chunk_count ps deleted offset rawLimit
    rw [exhausted_length hexh, append_nil] at hck
    rw [exhausted_length hexh, length_nil, add_zero] at hcnt
    rw [getD_some, ← hcnt, ← hck]
    exact takes_ok (takesIn_consume hwi _)
  | case6 offset st rawLimit _ _ ps chunk _ next hwi _ ih =>
    have hck : chunk.ids ++ ps.drop chunk.nextOffset = ps.drop offset := chunk_ids hdel offset rawLimit
    have hcnt : chunk.nextOffset - offset + (ps.drop chunk.nextOffset).length = (ps.drop offset).length :=
      chunk_count ps deleted offset rawLimit
    intro last hlast
    rw [getD_some, ← hcnt, ← hck, filter_append]
    exact (takesIn_consume hwi _).trans (ih hdel last hlast)

section
variable {es : List SecondaryIndexEntry} (h : Layered enc es src)
include h

theorem deletedInMemtable_eq (hm : m ∈ src.active :: src.immutable) (id : ℕ) :
    deletedInMemtable src m id = isDeletion (memtableNodes src.snapshotSeq m id) := by
  refine .trans ?_ (isDeletion_recordOpinion (h.getNodeAt_of_deleted hm)).symm
  rw [deletedInMemtable, Bool.eq_iff_iff, decide_eq_true_iff, collectDeletedNodesAt, mem_insertionSort, visibleKeys, mem_map]
  show _ ↔ (valueAt m.base.nodeTombstones src.snapshotSeq id).join.isSome = true
  rw [isSome_iff_exists]
  constructor
  · rintro ⟨⟨id, entry⟩, hent, rfl⟩
    exact ⟨entry, mem_visibleEntries.mp hent⟩
  · rintro ⟨entry, hent⟩
    exact ⟨(id, entry), mem_visibleEntries.mpr hent, rfl⟩

variable {what : ℕ × String} (hdecl : (nodeEqFamily enc (declarationsOf enc es)).declared indexId = some what)
include hdecl

theorem holds_memtable (hm : m ∈ src.active :: src.immutable) :
    Holds (visibleKeys m.secondaryEqState src.snapshotSeq) indexId (getNodeAt m src.snapshotSeq)
      (keyIn (nodeEqFamily enc (declarationsOf enc es)) indexId) :=
  holds_nodes (h.indexed hm _).1 (apart_eq enc _) hdecl

omit hdecl in
theorem takes_readSegment {seg : IndexedSegment} (hseg : seg ∈ src.segments) (deletedAbove : ℕ → Bool) (st : EqualityRead) :
    Takes st (readSegment enc (declarationsOf enc es) indexId val deletedAbove seg st)
      (eqGroup (nodeEqEntries enc (declarationsOf enc es) indexId seg) (enc.hashPropEqualityKey val)).length
      ((eqGroup (nodeEqEntries enc (declarationsOf enc es) indexId seg) (enc.hashPropEqualityKey val)).filter
        fun id => !deletedAbove id) := by
  rw [readSegment, equalityProbeValueHashes, foldlM_cons]
  simp only [foldlM_nil, bind_pure]
  rw [IndexedSegment.sidecar]
  by_cases hav : seg.available indexId = true
  · rw [if_pos hav, map_some]
    refine @takes_extendFromSegmentPostings seg.base.isNodeDeleted deletedAbove (some _) (fun id hid => ?_) 0 st
    obtain ⟨node, hnode, -⟩ := mem_sidecarEntries.mp (mem_eqGroup.mp hid)
    rw [Bool.eq_false_iff]
    intro hdel
    rw [h.nodes seg hseg id hdel] at hnode
    cases hnode
  · rw [if_neg hav, map_none, extendFromSegmentPostings]
    split <;> exact takes_error

theorem posts_equalityLayers (val : PropValue) : ∀ lay ∈ equalityLayers src enc (declarationsOf enc es) indexId val,
    Posts (fun _ node => keyIn (nodeEqFamily enc (declarationsOf enc es)) indexId node = some (enc.hashPropEqualityKey val)) lay := by
  apply posts_layers
  · intro m hm
    exact posts_recordOpinion (nodup_idsWithHash (holds_memtable h hdecl hm) _) fun id => mem_idsWithHash (holds_memtable h hdecl hm)
  · intro seg hseg
    apply posts_recordOpinion (nodup_sidecarIds.sublist (filter_sublist.map _))
    intro id
    rw [h.getNode hseg]
    exact mem_eqGroup.trans mem_sidecarEntries

/-- An equality read that returns has counted all postings within its cap, and misses no visible node that has the value. -/
theorem equalityRead_complete {cap : ℕ} {ids : List ℕ}
    (hread : readyEqualityCandidateIdsRawLimited src order enc (declarationsOf enc es) indexId val cap = some ids) :
    postingCount (equalityLayers src enc (declarationsOf enc es) indexId val) ≤ cap ∧ ∀ id node, src.base.findNode id = some node →
        keyIn (nodeEqFamily enc (declarationsOf enc es)) indexId node = some (enc.hashPropEqualityKey val) → id ∈ ids := by
  have hposts := posts_equalityLayers h hdecl val
  have htakes : Takes ⟨⟨cap, 0⟩, []⟩ (equalityOutcome src order enc (declarationsOf enc es) indexId val cap)
      (postingCount (equalityLayers src enc (declarationsOf enc es) indexId val))
      (unshadowed isDeletion (fun _ => false)
        (equalityLayers src enc (declarationsOf enc es) indexId val)) := by
    rw [equalityLayers, unshadowed_layers (fun m hm => deletedInMemtable_eq h hm), equalityOutcome, map_cons, cons_append, postingCount,
      map_cons, map_append, sum_cons, sum_append_nat]
    apply Takes.bind
    · have hread := @takes_readMemtable src order enc indexId val src.active (nodup_idsWithHash (holds_memtable h hdecl mem_cons_self) _)
        (fun _ => false) ⟨⟨cap, 0⟩, []⟩
      simpa only [Bool.not_false, filter_true] using hread
    intro mid
    apply Takes.bind
    · apply Takes.overLayers
      · exact fun m hm id => deletedInMemtable_eq h (mem_cons_of_mem _ hm) id
      · exact fun above st m hm => takes_readMemtable (nodup_idsWithHash (holds_memtable h hdecl (mem_cons_of_mem _ hm)) _) above st
    intro mid
    apply Takes.overLayers
    · exact fun seg _ id => (isDeletion_recordOpinion fun hdel => if_pos hdel).symm
    · exact fun above st seg hseg => takes_readSegment h hseg above st
  rw [readyEqualityCandidateIdsRawLimited] at hread
  cases hout : equalityOutcome src order enc (declarationsOf enc es) indexId val cap with
  | error stop =>
    rw [hout] at hread
    cases hread
  | ok last =>
    rw [hout] at hread
    obtain rfl := some.inj hread
    have htaken := htakes last hout
    constructor
    · have hwi := htaken.within (zero_le cap)
      rw [htaken.cap, htaken.consumed, zero_add] at hwi
      exact hwi
    · intro id node hnode hkey
      have hvis : visible ((equalityLayers src enc (declarationsOf enc es) indexId val).map (·.2)) id = some node := by
        rw [equalityLayers, map_append, map_map, map_map, ← hnode, findNode_eq]
        rfl
      rw [mem_finalize, htaken.accepted]
      exact .inr (mem_unshadowed_of_visible hposts hvis hkey rfl)

end

end

variable {node : NodeRecord}

section
variable {enc : IndexEncoders} {es : List SecondaryIndexEntry} {src : IndexedSourceList} {id labelId : ℕ}
  {listM : IndexedMemtable → List ℕ} {listS : IndexedSegment → List ℕ}

/-- A visible record is listed by the layer that shows it. -/
theorem exists_listed {memtable : IndexedMemtable → Opinion ℕ ρ} {segment : IndexedSegment → Opinion ℕ ρ} {r : ρ}
    (h : visible ((src.active :: src.immutable).map memtable ++ src.segments.map segment) id = some r)
    (hmems : ∀ m ∈ src.active :: src.immutable, memtable m id = some (some r) → id ∈ listM m)
    (hsegs : ∀ seg ∈ src.segments, segment seg id = some (some r) → id ∈ listS seg) :
    ∃ source ∈ (src.active :: src.immutable).map listM ++ src.segments.map listS, id ∈ source := by
  obtain ⟨lay, hlay, hop⟩ := exists_of_findSome?_eq_some (join_eq_some_iff.mp h)
  rcases mem_append.mp hlay with hlay | hlay
  · obtain ⟨m, hm, rfl⟩ := mem_map.mp hlay
    exact ⟨_, mem_append_left _ (mem_map_of_mem hm), hmems m hm hop⟩
  · obtain ⟨seg, hseg, rfl⟩ := mem_map.mp hlay
    exact ⟨_, mem_append_right _ (mem_map_of_mem hseg), hsegs seg hseg hop⟩

theorem ascending_listed (hmems : ∀ m, Ascending (listM m))
    (hsegs : ∀ seg, Ascending (listS seg)) : ∀ source ∈ (src.active :: src.immutable).map listM ++ src.segments.map listS, Ascending source := by
  intro source hsrc
  rcases mem_append.mp hsrc with hsrc | hsrc
  · obtain ⟨m, -, rfl⟩ := mem_map.mp hsrc
    exact hmems m
  · obtain ⟨seg, -, rfl⟩ := mem_map.mp hsrc
    exact hsegs seg

theorem mem_storedIds {records : Map ℕ ρ} {r : ρ} {pick : (Sigma fun _ : ℕ => ρ) → Bool}
    (hrec : records.lookup id = some r) (hpick : pick ⟨id, r⟩ = true) :
    id ∈ ((records.entries.filter pick).map (·.1)).insertionSort (· ≤ ·) := by
  rw [mem_insertionSort, mem_map]
  exact ⟨⟨id, r⟩, mem_filter.mpr ⟨AList.mem_lookup_iff.mp hrec, hpick⟩, rfl⟩

/-- An index that holds the entries of the records lists those with an entry. -/
theorem mem_visibleKeys_of_exactly {κ τ : Type} [DecidableEq κ] {idx : MembershipMap κ τ} {s : ℕ} {idOf : κ → ℕ}
    {entry : ρ → κ → Option τ} {view : ℕ → Option ρ} (h : Exactly idx s (entriesOf idOf entry view)) {k : κ} {r : ρ}
    (hrec : view (idOf k) = some r) {v : τ} (hent : entry r k = some v) : k ∈ visibleKeys idx s :=
  mem_map.mpr ⟨(k, v), (h.2 k v).mpr (bind_eq_some_iff.mpr ⟨r, hrec, hent⟩), rfl⟩

section
variable (h : Layered enc es src)
include h

theorem exists_labelNodeSource (hnode : src.base.findNode id = some node)
    (hlab : labelId ∈ node.labelIds.labelIds) : ∃ source ∈ labelNodeSources src labelId, id ∈ source := by
  rw [findNode_eq] at hnode
  apply exists_listed hnode
  · intro m hm hop
    obtain ⟨ops, hseqs, rfl⟩ := h.memtables m hm
    have hview := recordOpinion_eq_some_iff.mp hop
    exact mem_underLabel.mpr (mem_visibleKeys_of_exactly (labelsExact_ofOps enc es hseqs src.snapshotSeq).labels hview (if_pos hlab))
  · intro seg hseg hop
    have hview := recordOpinion_eq_some_iff.mp hop
    rw [h.getNode hseg] at hview
    exact mem_storedIds hview (decide_eq_true hlab)

theorem exists_labelEdgeSource {edge : EdgeRecord} (hedge : src.base.findEdge id = some edge) (hlab : edge.labelId = labelId) :
    ∃ source ∈ labelEdgeSources src labelId, id ∈ source := by
  rw [findEdge_eq] at hedge
  apply exists_listed hedge
  · intro m hm hop
    obtain ⟨ops, hseqs, rfl⟩ := h.memtables m hm
    have hview := recordOpinion_eq_some_iff.mp hop
    exact mem_underLabel.mpr
      (mem_visibleKeys_of_exactly (labelsExact_ofOps enc es hseqs src.snapshotSeq).orderedLabels hview (if_pos hlab))
  · intro seg hseg hop
    have hview := recordOpinion_eq_some_iff.mp hop
    rw [h.getEdge hseg] at hview
    exact mem_storedIds hview (decide_eq_true hlab)

theorem exists_timestampLayer {fromMs toMs : ℤ} (hnode : src.base.findNode id = some node)
    (hlab : labelId ∈ node.labelIds.labelIds) (hfrom : fromMs ≤ node.updatedAt) (hto : node.updatedAt ≤ toMs) :
    ∃ lay ∈ timestampLayers src labelId fromMs toMs, id ∈ lay := by
  have hrng : ¬fromMs > toMs := not_lt.mpr (hfrom.trans hto)
  rw [findNode_eq] at hnode
  apply exists_listed hnode
  · intro m hm hop
    obtain ⟨ops, hseqs, rfl⟩ := h.memtables m hm
    have hview := recordOpinion_eq_some_iff.mp hop
    have hkey : (labelId, node.updatedAt, id) ∈ visibleKeys (IndexedMemtable.ofOps enc es ops).base.timeNodeIndex src.snapshotSeq :=
      mem_visibleKeys_of_exactly (labelsExact_ofOps enc es hseqs src.snapshotSeq).times hview (if_pos ⟨hlab, rfl⟩)
    rw [forEachVisibleNodeByTimeRangeAt, nodesByTimeAt, if_neg hrng, mem_map]
    refine ⟨toLex (node.updatedAt, id), (mem_insertionSort _).mpr (mem_map.mpr ⟨_, mem_filter.mpr ⟨hkey, ?_⟩, rfl⟩), rfl⟩
    simp [hfrom, hto]
  · intro seg hseg hop
    have hview := recordOpinion_eq_some_iff.mp hop
    have hkept : seg.base.isNodeDeleted id = false := by
      rw [Bool.eq_false_iff]
      intro hdel
      rw [Segment.getNode, if_pos hdel] at hview
      cases hview
    rw [h.getNode hseg] at hview
    rw [forEachNodeByTimeRange, if_neg hrng, mem_filter, mem_map, hkept]
    refine ⟨⟨toLex (node.updatedAt, id), (mem_insertionSort _).mpr (mem_map.mpr ⟨⟨id, node⟩, ?_, rfl⟩), rfl⟩, rfl⟩
    exact mem_filter.mpr ⟨AList.mem_lookup_iff.mp hview, by simp [NodeLabelSet.contains, hlab, hfrom, hto]⟩

end

end

theorem flatten_visitChunks {breaksOff : List (List ℕ) → Bool} {chunkLimit : ℕ} {ids chunk : List ℕ} {vis : List (List ℕ)}
    (h : (visitChunks breaksOff chunkLimit ids chunk vis).2 = false) :
    (visitChunks breaksOff chunkLimit ids chunk vis).1.flatten = vis.flatten ++ (chunk ++ ids) := by
  fun_induction visitChunks breaksOff chunkLimit ids chunk vis with
  | case1 | case2 => simp
  | case3 => cases h
  | case4 id ids chunk vis _ _ ih | case5 id ids chunk vis _ ih => simpa [append_assoc] using ih h

/-- Candidates are gathered once each; when they stop short of the limit, all have been. -/
theorem foldlM_push {maxIds : ℕ} (hmax : 0 < maxIds) {candidates ids : List ℕ} (hnd : ids.Nodup) (hroom : ids.length < maxIds) :
    (∀ next, candidates.foldlM (pushUniqueCandidateIdLimited maxIds) ids = .ok next →
      next.Nodup ∧ next.length < maxIds ∧ ∀ id, id ∈ next ↔ id ∈ ids ∨ id ∈ candidates) ∧
    ∀ out, candidates.foldlM (pushUniqueCandidateIdLimited maxIds) ids = .error out → out.length = maxIds := by
  induction candidates generalizing ids with
  | nil =>
    constructor
    · intro next h
      obtain rfl : ids = next := Except.ok.inj h
      exact ⟨hnd, hroom, by simp⟩
    · exact fun out h => nomatch h
  | cons id candidates ih =>
    rw [foldlM_cons, pushUniqueCandidateIdLimited, if_neg hmax.ne']
    by_cases hseen : id ∈ ids
    · rw [if_pos hseen]
      obtain ⟨hok, herr⟩ := ih hnd hroom
      refine ⟨fun next h => ?_, herr⟩
      obtain ⟨hnext, hsh, hmem⟩ := hok next h
      refine ⟨hnext, hsh, fun other => ?_⟩
      rw [hmem, mem_cons]
      by_cases heq : other = id
      · simp [heq, hseen]
      · simp [heq]
    · rw [if_neg hseen, length_append, length_singleton]
      by_cases hfull : maxIds ≤ ids.length + 1
      · rw [if_pos hfull]
        refine ⟨fun next h => (nomatch h), fun out h => ?_⟩
        obtain rfl : ids ++ [id] = out := Except.error.inj h
        rw [length_append, length_singleton]
        omega
      · rw [if_neg hfull]
        have hnext : (ids ++ [id]).Nodup := hnd.append (nodup_singleton id) (disjoint_singleton.mpr hseen)
        obtain ⟨hok, herr⟩ := ih hnext (by rw [length_append, length_singleton]; omega)
        refine ⟨fun next h => ?_, herr⟩
        obtain ⟨hlast, hsh, hmem⟩ := hok next h
        exact ⟨hlast, hsh, fun other => by rw [hmem, mem_append, mem_singleton, mem_cons, or_assoc]⟩

theorem foldlM_layers {σ ε : Type} (step : σ → ℕ → Except ε σ) (lays : List (List ℕ)) (st : σ) :
    lays.foldlM (fun st lay => lay.foldlM step st) st = lays.flatten.foldlM step st := by
  induction lays generalizing st with
  | nil => rfl
  | cons lay lays ih =>
    rw [foldlM_cons, flatten_cons, foldlM_append]
    simp only [ih]

section
variable (src : IndexedSourceList) (enc : IndexEncoders) (es : List SecondaryIndexEntry)

def HasValue (labelId : ℕ) (pkey : String) (val : PropValue) (node : NodeRecord) : Prop :=
  labelId ∈ node.labelIds.labelIds ∧ ∃ held, node.props.lookup pkey = some held ∧ semanticPropertyEq held val = true

def InTimeRange (labelId : ℕ) (fromMs toMs : ℤ) (node : NodeRecord) : Prop :=
  labelId ∈ node.labelIds.labelIds ∧ fromMs ≤ node.updatedAt ∧ node.updatedAt ≤ toMs

/-- What passes for complete has every visible record that matches, and what reaches the cap does not pass for it. -/
structure CandidatesComplete : Prop where
  equality : ∀ order indexId labelId pkey val cap,
    (nodeEqFamily enc (declarationsOf enc es)).declared indexId = some (labelId, pkey) →
    (∀ ids, readyEqualityCandidateIdsRawLimited src order enc (declarationsOf enc es) indexId val cap = some ids →
      ∀ id, VisibleNode src (HasValue labelId pkey val) id → id ∈ ids) ∧
    (cap < postingCount (equalityLayers src enc (declarationsOf enc es) indexId val) →
      materializeEquality src order enc (declarationsOf enc es) indexId val cap = none ∧
        readyEqualityCandidateIdsRawLimited src order enc (declarationsOf enc es) indexId val cap = none)
  timestamps : ∀ labelId fromMs toMs cap,
    (∀ ids, materializeTimestamp src labelId fromMs toMs cap = some ids →
      ∀ id, VisibleNode src (InTimeRange labelId fromMs toMs) id → id ∈ ids) ∧
    (cap < (timestampLayers src labelId fromMs toMs).flatten.dedup.length → materializeTimestamp src labelId fromMs toMs cap = none)
  nodeLabels : ∀ labelIds startAfter chunkLimit breaksOff, (scanRawNodeLabelCandidates src labelIds startAfter chunkLimit breaksOff).2 = false →
    ∀ id, VisibleNode src (fun node => ∃ labelId ∈ labelIds, labelId ∈ node.labelIds.labelIds) id → (∀ cursor ∈ startAfter, cursor < id) →
      id ∈ (scanRawNodeLabelCandidates src labelIds startAfter chunkLimit breaksOff).1.flatten
  edgeLabels : ∀ labelId startAfter chunkLimit breaksOff, (scanRawEdgeLabelCandidates src labelId startAfter chunkLimit breaksOff).2 = false →
    ∀ id, VisibleEdge src (fun edge => edge.labelId = labelId) id → (∀ cursor ∈ startAfter, cursor < id) →
      id ∈ (scanRawEdgeLabelCandidates src labelId startAfter chunkLimit breaksOff).1.flatten

end

section
variable {enc : IndexEncoders} {es : List SecondaryIndexEntry} {src : IndexedSourceList} (h : Layered enc es src)
include h

omit h in
theorem keyIn_of_hasValue {indexId labelId : ℕ} {pkey : String} {val : PropValue}
    (hdecl : (nodeEqFamily enc (declarationsOf enc es)).declared indexId = some (labelId, pkey))
    (hval : HasValue labelId pkey val node) :
    keyIn (nodeEqFamily enc (declarationsOf enc es)) indexId node = some (enc.hashPropEqualityKey val) := by
  obtain ⟨hlab, held, hheld, heq⟩ := hval
  rw [keyIn, hdecl, bind_some]
  show (if labelId ∈ node.labelIds.labelIds then _ else none) = _
  rw [if_pos hlab]
  show (node.props.lookup pkey).map enc.hashPropEqualityKey = _
  rw [hheld, map_some, IndexEncoders.hashPropEqualityKey, semanticPropertyEq_key heq]
  rfl

theorem timestamps_complete (labelId : ℕ) (fromMs toMs : ℤ) (cap : ℕ) :
    (∀ ids, materializeTimestamp src labelId fromMs toMs cap = some ids →
      ∀ id, VisibleNode src (InTimeRange labelId fromMs toMs) id → id ∈ ids) ∧
    (cap < (timestampLayers src labelId fromMs toMs).flatten.dedup.length → materializeTimestamp src labelId fromMs toMs cap = none) := by
  have hpos : ¬cap + 1 = 0 := by omega
  obtain ⟨hok, herr⟩ := @foldlM_push (cap + 1) (succ_pos cap) (timestampLayers src labelId fromMs toMs).flatten [] nodup_nil
    (succ_pos cap)
  rw [materializeTimestamp, timestampCandidateIds, foldlM_layers]
  by_cases hrng : fromMs > toMs
  · rw [if_pos (.inl hrng)]
    constructor
    · rintro ids - id ⟨node, -, -, hfrom, hto⟩
      exact absurd (hfrom.trans hto) (not_le.mpr hrng)
    · intro hcap
      have hemp : (timestampLayers src labelId fromMs toMs).flatten = [] := by
        simp [timestampLayers, forEachVisibleNodeByTimeRangeAt, nodesByTimeAt, forEachNodeByTimeRange, hrng]
      rw [hemp] at hcap
      exact absurd hcap (not_lt_zero _)
  rw [if_neg (not_or.mpr ⟨hrng, hpos⟩)]
  cases hout : (timestampLayers src labelId fromMs toMs).flatten.foldlM (pushUniqueCandidateIdLimited (cap + 1)) [] with
  | error out =>
    have hnone : withinCap cap (some (out.insertionSort (· ≤ ·))) = none := by
      rw [withinCap, filter_some, length_insertionSort, herr out hout, if_neg (by simp)]
    refine ⟨fun ids hids => ?_, fun _ => hnone⟩
    cases hnone.symm.trans hids
  | ok next =>
    obtain ⟨hnd, hsh, hmem⟩ := hok next hout
    constructor
    · rintro ids hids id ⟨node, hnode, hlab, hfrom, hto⟩
      obtain ⟨lay, hlay, hid⟩ := exists_timestampLayer h hnode hlab hfrom hto
      obtain ⟨heq, -⟩ := filter_eq_some_iff.mp hids
      obtain rfl := some.inj heq
      have hgath : id ∈ finalize next := mem_finalize.mpr ((hmem id).mpr (.inr (mem_flatten.mpr ⟨lay, hlay, hid⟩)))
      refine mem_filter.mpr ⟨hgath, ?_⟩
      rw [hnode, any_some]
      simp [NodeLabelSet.contains, hlab, hfrom, hto]
    · intro hcap
      have hperm : next.Perm (timestampLayers src labelId fromMs toMs).flatten.dedup := by
        refine (perm_ext_iff_of_nodup hnd (nodup_dedup _)).mpr fun id => ?_
        rw [hmem, mem_dedup]
        exact or_iff_right not_mem_nil
      rw [← hperm.length_eq] at hcap
      omega

theorem candidates_complete : CandidatesComplete src enc es where
  equality order indexId labelId pkey val cap hdecl := by
    have hnone : cap < postingCount (equalityLayers src enc (declarationsOf enc es) indexId val) →
        readyEqualityCandidateIdsRawLimited src order enc (declarationsOf enc es) indexId val cap = none := by
      intro hcap
      cases hread : readyEqualityCandidateIdsRawLimited src order enc (declarationsOf enc es) indexId val cap with
      | none => rfl
      | some ids => exact absurd hcap (not_lt.mpr (equalityRead_complete h hdecl hread).1)
    refine ⟨fun ids hread id hid => ?_, fun hcap => ⟨?_, hnone hcap⟩⟩
    · obtain ⟨node, hnode, hvalue⟩ := hid
      exact (equalityRead_complete h hdecl hread).2 id node hnode (keyIn_of_hasValue hdecl hvalue)
    · rw [materializeEquality, hnone hcap]
      rfl
  timestamps := timestamps_complete h
  nodeLabels labelIds startAfter chunkLimit breaksOff hall id hid hafter := by
    obtain ⟨node, hnode, labelId, hlabelId, hlabel⟩ := hid
    obtain ⟨source, hsource, hlisted⟩ := exists_labelNodeSource h hnode hlabel
    have hsources : ∀ source ∈ labelIds.flatMap (labelNodeSources src), Ascending source := by
      intro source hsource
      obtain ⟨labelId, -, hsource⟩ := mem_flatMap.mp hsource
      exact ascending_listed (fun m => PagedReads.ascending_underLabel _ _ _) (fun seg => PagedReads.ascending_storedIds _ _) source hsource
    rw [scanRawNodeLabelCandidates, flatten_visitChunks hall]
    exact (mem_scanSources hsources).mpr ⟨⟨source, mem_flatMap.mpr ⟨labelId, hlabelId, hsource⟩, hlisted⟩, hafter⟩
  edgeLabels labelId startAfter chunkLimit breaksOff hall id hid hafter := by
    obtain ⟨edge, hedge, hlabel⟩ := hid
    obtain ⟨source, hsource, hlisted⟩ := exists_labelEdgeSource h hedge hlabel
    have hsources : ∀ source ∈ labelEdgeSources src labelId, Ascending source :=
      ascending_listed (fun m => PagedReads.ascending_underLabel _ _ _) fun seg => PagedReads.ascending_storedIds _ _
    rw [scanRawEdgeLabelCandidates, flatten_visitChunks hall]
    exact (mem_scanSources hsources).mpr ⟨⟨source, hsource, hlisted⟩, hafter⟩

end

def agedNode (id : ℕ) : NodeRecord := { ada with id := id, props := (∅ : Props).insert "age" (.bool true) }

def agedIndexes : List SecondaryIndexEntry := [⟨7, .nodeProperty 4 "age", .equality⟩]

/-- Two nodes have one value; after a freeze, one of them is deleted. -/
def agedNodes : Cuts.Layering where
  active := [(3, .deleteNode 1 0)]
  immutable := [[(1, .upsertNode (agedNode 1)), (2, .upsertNode (agedNode 2))]]
  segments := []

def agedSources : IndexedSourceList := cutSources plainEncoders agedIndexes agedNodes fun _ => true

theorem candidates_complete_agedNodes : CandidatesComplete agedSources plainEncoders agedIndexes :=
  candidates_complete (layered_cutSources plainEncoders agedIndexes (by decide) _)

-- the posting of the deleted node counts as well, so that a cap of one does not do for the other node
example : (readyEqualityCandidateIdsRawLimited agedSources LimitedReads.givenOrder plainEncoders (declarationsOf plainEncoders agedIndexes) 7
      (.bool true) 2, readyEqualityCandidateIdsRawLimited agedSources LimitedReads.givenOrder plainEncoders
      (declarationsOf plainEncoders agedIndexes) 7 (.bool true) 1) = (some [2], none) := by decide +kernel

end OverGraph.CappedCandidates
