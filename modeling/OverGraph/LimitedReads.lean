import OverGraph.IndexedSources

/-!
# Limited reads of the indexes

A limited read goes through the layers, drops the identifiers that a newer layer knows, and stops when it has
enough. An equality read also keeps a budget of postings, and gives up when it is spent; a range read takes
pages from a sidecar; a compound read drops what a newer layer has deleted, and otherwise leaves stale
postings to its callers. None of them is silently incomplete.
-/

namespace OverGraph.LimitedReads
open AssocMaps Records Memtable Segments LayeredWrites Sources SecondaryEntries SnapshotReads List Except
open TrackedIndexes IndexFamily SecondaryHeads IndexCoherence LimitedScans EdgeCandidates IndexedSources

inductive EdgeVisibilityState where
  | live
  | deleted
  | missing
  deriving DecidableEq

def edgeVisibilityStateAt (m : MemtableState) (id s : ℕ) : EdgeVisibilityState :=
  match m.edgeStateAt id s with
  | some (.live _) => .live
  | some (.tombstone _) => .deleted
  | none => if m.isEdgeDeletedAt id s then .deleted else .missing

def knownToMemtable (s : ℕ) (m : IndexedMemtable) (id : ℕ) : Bool := decide (edgeVisibilityStateAt m.base id s ≠ .missing)

def hasEdge (seg : Segment) (id : ℕ) : Bool := (seg.edges.lookup id).isSome

def knownToSegment (seg : IndexedSegment) (id : ℕ) : Bool := hasEdge seg.base id || seg.base.isEdgeDeleted id

variable {deleted : ℕ → Bool} {sidecar : List (NumericRangeSortKey ×ₗ ℕ)} {ps : List ℕ}

section
variable (src : IndexedSourceList)

/-- The active memtable, or an immutable one, knows the edge. -/
def shadowedByMemtables (id : ℕ) : Bool :=
  knownToMemtable src.snapshotSeq src.active id || src.immutable.any (knownToMemtable src.snapshotSeq · id)

inductive LimitedEdgeIndexRead where
  | ready (ids : List ℕ)
  | tooBroad
  | missingSidecar

def LimitedEdgeIndexRead.ids : LimitedEdgeIndexRead → Option (List ℕ)
  | .ready ids => some ids
  | .tooBroad | .missingSidecar => none

/-- The matches so far, and how many postings may still be read. -/
structure EqRead where
  result : List ℕ
  rawRemaining : ℕ

def appendEdgeMatches (result matchingIds : List ℕ) : List ℕ := result ++ finalize matchingIds

def appendEdgeMatchesFiltered (result matchingIds : List ℕ) (isShadowed : ℕ → Bool) : List ℕ :=
  appendEdgeMatches result (matchingIds.filter fun id => !isShadowed id)

/-- The order in which the equality indexes of memtables are gone through. -/
structure HashOrder where
  order : IndexedMemtable → ℕ → List ℕ → List ℕ
  perm : ∀ m valueHash ids, (order m valueHash ids).Perm ids

variable (order : HashOrder) (indexId limit : ℕ)

def findSecondaryEqEdgesByHashAtLimited (m : IndexedMemtable) (valueHash : ℕ) (maxIds : Option ℕ) : List ℕ :=
  (takeLimit (maxIds.map (max 1)) (order.order m valueHash (idsWithHash m src.snapshotSeq indexId valueHash))).insertionSort (· ≤ ·)

/-- A memtable read that spends the whole budget may have been cut off. -/
def readMemtableHash (isShadowed : ℕ → Bool) (m : IndexedMemtable) (st : EqRead) (valueHash : ℕ) : Except LimitedEdgeIndexRead EqRead :=
  let ids := findSecondaryEqEdgesByHashAtLimited src order indexId m valueHash (some st.rawRemaining)
  let rawRemaining := st.rawRemaining - ids.length
  let result := appendEdgeMatchesFiltered st.result ids isShadowed
  if limit ≤ result.length then .error (.ready (finalize result))
  else if rawRemaining = 0 then .error .tooBroad
  else .ok ⟨result, rawRemaining⟩

def readActiveHash (st : EqRead) (valueHash : ℕ) : Except LimitedEdgeIndexRead EqRead :=
  if st.rawRemaining = 0 then .error .tooBroad
  else readMemtableHash src order indexId limit (fun _ => false) src.active st valueHash

structure SecondaryEqPostingChunk where
  ids : List ℕ
  nextOffset : ℕ
  exhausted : Bool

def secondaryEqPostingChunk (ps : List ℕ) (deleted : ℕ → Bool) (start rawLimit : ℕ) : SecondaryEqPostingChunk :=
  if ps.length ≤ start then ⟨[], ps.length, true⟩
  else
    let stop := min (start + max rawLimit 1) ps.length
    ⟨((ps.drop start).take (stop - start)).filter fun id => !deleted id, stop, decide (ps.length ≤ stop)⟩

variable {limit} in
theorem nextOffset_lt {start rawLimit : ℕ}
    (h : ¬(secondaryEqPostingChunk ps deleted start rawLimit).exhausted = true) :
    start < (secondaryEqPostingChunk ps deleted start rawLimit).nextOffset ∧
      (secondaryEqPostingChunk ps deleted start rawLimit).nextOffset < ps.length := by
  rw [secondaryEqPostingChunk] at h ⊢
  split at h
  · exact absurd rfl h
  · rename_i hst
    rw [if_neg hst]
    rw [decide_eq_true_iff] at h
    dsimp only
    omega

def readPostings (deleted isShadowed : ℕ → Bool) (ps : Option (List ℕ)) (offset : ℕ) (st : EqRead) : Except LimitedEdgeIndexRead EqRead :=
  if st.rawRemaining = 0 then .error .tooBroad
  else
    match ps with
    | none => .error .missingSidecar
    | some ps =>
      let rawLimit := min st.rawRemaining 256
      let chunk := secondaryEqPostingChunk ps deleted offset rawLimit
      let rawRemaining := st.rawRemaining - (chunk.nextOffset - offset)
      let result := appendEdgeMatchesFiltered st.result chunk.ids isShadowed
      if limit ≤ result.length then .error (.ready (finalize result))
      else if _ : chunk.exhausted = true then .ok ⟨result, rawRemaining⟩
      else readPostings deleted isShadowed (some ps) chunk.nextOffset ⟨result, rawRemaining⟩
termination_by (ps.getD []).length - offset
decreasing_by
  rename_i hexh
  have hnext : offset < chunk.nextOffset ∧ chunk.nextOffset < ps.length := nextOffset_lt hexh
  show ps.length - chunk.nextOffset < ps.length - offset
  omega

variable (enc : IndexEncoders) (decls : Map ℕ SecondaryIndexEntry)

def eqGroup (sidecar : List (ℕ ×ₗ ℕ)) (valueHash : ℕ) : List ℕ :=
  (sidecar.filter fun entry => (ofLex entry).1 = valueHash).map fun entry => (ofLex entry).2

def readSegmentHash (isShadowed : ℕ → Bool) (seg : IndexedSegment) (st : EqRead) (valueHash : ℕ) : Except LimitedEdgeIndexRead EqRead :=
  readPostings limit seg.base.isEdgeDeleted isShadowed
    ((seg.edgeEqSidecar enc decls indexId).map (eqGroup · valueHash)) 0 st

def edgeEqOutcome (valueHashes : List ℕ) : Except LimitedEdgeIndexRead EqRead := do
  let st ← valueHashes.foldlM (readActiveHash src order indexId limit) ⟨[], limit⟩
  let st ← overLayers (knownToMemtable src.snapshotSeq)
    (fun isShadowed m st => valueHashes.foldlM (readMemtableHash src order indexId limit isShadowed m) st)
    (knownToMemtable src.snapshotSeq src.active) src.immutable st
  overLayers knownToSegment (fun isShadowed seg st => valueHashes.foldlM (readSegmentHash indexId limit enc decls isShadowed seg) st)
    (shadowedByMemtables src) src.segments st

def edgeIdsBySecondaryEqHashesLimitedRead (valueHashes : List ℕ) : LimitedEdgeIndexRead :=
  match edgeEqOutcome src order indexId limit enc decls valueHashes with
  | .ok st => .ready (finalize st.result)
  | .error read => read

/-- A match is added; the read ends when there are enough. -/
def pushEdgeMatchLimited (result : List ℕ) (edgeId : ℕ) : Except (Option (List ℕ)) (List ℕ) :=
  if limit ≤ result.length then .error (some (finalize result))
  else if limit ≤ result.length + 1 then .error (some (finalize (result ++ [edgeId])))
  else .ok (result ++ [edgeId])

def pushUnshadowed (isShadowed : ℕ → Bool) (result : List ℕ) (entry : NumericRangeSortKey ×ₗ ℕ) : Except (Option (List ℕ)) (List ℕ) :=
  if isShadowed (ofLex entry).2 then .ok result else pushEdgeMatchLimited limit result (ofLex entry).2

variable (lower upper : Option (NumericRangeSortKey × Bool))

def readMemtableRange (isShadowed : ℕ → Bool) (m : IndexedMemtable) (result : List ℕ) : Except (Option (List ℕ)) (List ℕ) :=
  (rangeEntriesAt m src.snapshotSeq indexId lower upper none).foldlM (pushUnshadowed limit isShadowed) result

/-- What a sidecar holds in a range after a cursor. -/
def ahead (sidecar : List (NumericRangeSortKey ×ₗ ℕ)) (deleted : ℕ → Bool) (after : Option (NumericRangeSortKey ×ₗ ℕ)) :
    List (NumericRangeSortKey ×ₗ ℕ) :=
  sidecar.filter fun entry => rangeStart lower (after.map ofLex) entry && !secondaryRangePastUpper (ofLex entry).1 upper &&
    !deleted (ofLex entry).2

def rangePage (sidecar : List (NumericRangeSortKey ×ₗ ℕ)) (deleted : ℕ → Bool) (after : Option (NumericRangeSortKey ×ₗ ℕ))
    (pageLimit : ℕ) : List (NumericRangeSortKey ×ₗ ℕ) := (ahead lower upper sidecar deleted after).take pageLimit

variable {after : Option (NumericRangeSortKey ×ₗ ℕ)} {last : NumericRangeSortKey ×ₗ ℕ}

theorem last_rangePage {pageLimit : ℕ}
    (h : (rangePage lower upper sidecar deleted after pageLimit).getLast? = some last) :
    last ∈ sidecar ∧ after.all (decide <| · < last) = true := by
  obtain ⟨hmem, hpass⟩ := mem_filter.mp (mem_of_mem_take (mem_of_getLast? h))
  rw [rangeStart, Bool.and_eq_true, Bool.and_eq_true, Bool.and_eq_true] at hpass
  refine ⟨hmem, ?_⟩
  cases after with
  | none => rfl
  | some cursor => exact hpass.1.1.2

/-- A cursor that moves on has fewer entries ahead. -/
theorem ahead_lt {es : List (NumericRangeSortKey ×ₗ ℕ)}
    (hmem : last ∈ es) (haft : after.all (decide <| · < last) = true) :
    es.countP (fun entry => (some last).all (decide <| · < entry)) <
      es.countP fun entry => after.all (decide <| · < entry) := by
  have hmono : ∀ entry, (some last).all (decide <| · < entry) = true → after.all (decide <| · < entry) = true := by
    intro entry hent
    cases after with
    | none => rfl
    | some cursor => exact decide_eq_true ((of_decide_eq_true haft).trans (of_decide_eq_true hent))
  have hself : (some last).all (decide <| · < last) = false := decide_eq_false (lt_irrefl last)
  induction es with
  | nil => cases hmem
  | cons entry es ih =>
    rw [countP_cons, countP_cons]
    rcases mem_cons.mp hmem with rfl | hmem
    · have hle := countP_mono_left (l := es) fun entry _ => hmono entry
      rw [hself, haft]
      simp only [Bool.false_eq_true, if_false, if_true]
      omega
    · have hlt := ih hmem
      have hhead := hmono entry
      split_ifs with hnew hold hold
      · omega
      · exact absurd (hhead hnew) hold
      · omega
      · omega

def readRangePages (deleted isShadowed : ℕ → Bool) (sidecar : Option (List (NumericRangeSortKey ×ₗ ℕ)))
    (after : Option (NumericRangeSortKey ×ₗ ℕ)) (result : List ℕ) : Except (Option (List ℕ)) (List ℕ) :=
  if limit ≤ result.length then .error (some (finalize result))
  else
    match sidecar with
    | none => .error none
    | some sidecar =>
      let es := rangePage lower upper sidecar deleted after (min (limit - result.length) 256)
      match _ : es.getLast? with
      | none => .ok result
      | some last => do
        let result ← es.foldlM (pushUnshadowed limit isShadowed) result
        readRangePages deleted isShadowed (some sidecar) (some last) result
termination_by (sidecar.getD []).countP fun entry => after.all (decide <| · < entry)
decreasing_by
  rename_i hlast
  have hpage := last_rangePage lower upper hlast
  exact ahead_lt hpage.1 hpage.2

def edgeRangeOutcome : Except (Option (List ℕ)) (List ℕ) := do
  let result ← readMemtableRange src indexId limit lower upper (fun _ => false) src.active []
  let result ← overLayers (knownToMemtable src.snapshotSeq) (readMemtableRange src indexId limit lower upper)
    (knownToMemtable src.snapshotSeq src.active) src.immutable result
  overLayers knownToSegment (fun isShadowed seg result =>
      readRangePages limit lower upper seg.base.isEdgeDeleted isShadowed (seg.edgeRangeSidecar decls indexId) none result)
    (shadowedByMemtables src) src.segments result

/-- `none` where a sidecar is missing. -/
def edgeIdsBySecondaryRangeIndexLimited : Option (List ℕ) :=
  match edgeRangeOutcome src indexId limit decls lower upper with
  | .ok result => some (finalize result)
  | .error read => read

inductive LimitedCompoundIndexRead where
  | ready (ids : List ℕ)
  | tooBroad
  | missingSidecar

def LimitedCompoundIndexRead.ids : LimitedCompoundIndexRead → Option (List ℕ)
  | .ready ids => some ids
  | .tooBroad | .missingSidecar => none

variable (edge : Bool)

def deletedInMemtable (m : IndexedMemtable) (id : ℕ) : Bool :=
  if edge then m.base.isEdgeDeletedAt id src.snapshotSeq else m.base.isNodeDeletedAt id src.snapshotSeq

def deletedInSegment (seg : IndexedSegment) (id : ℕ) : Bool := if edge then seg.base.isEdgeDeleted id else seg.base.isNodeDeleted id

def pushUnseen (result ids : List ℕ) : List ℕ := ids.foldl (fun result id => if id ∈ result then result else result ++ [id]) result

def sortIds (ids : List ℕ) : List ℕ := ids.insertionSort (· ≤ ·)

variable (memtableLookup : IndexedMemtable → List ℕ) (segmentLookup : IndexedSegment → ℕ → Option (List ℕ))

def collectMemtable (isDeletedAbove : ℕ → Bool) (m : IndexedMemtable) (result : List ℕ) : Except LimitedCompoundIndexRead (List ℕ) :=
  let result := pushUnseen result ((memtableLookup m).filter fun id => !isDeletedAbove id)
  if limit ≤ result.length then .error (.ready (sortIds result)) else .ok result

/-- A sidecar is asked for one posting more than is needed, so that a scan that was cut off shows. -/
def collectSegment (isDeletedAbove : ℕ → Bool) (seg : IndexedSegment) (result : List ℕ) : Except LimitedCompoundIndexRead (List ℕ) :=
  let requested := limit - result.length + 1
  match segmentLookup seg requested with
  | none => .error .missingSidecar
  | some ids =>
    let result := pushUnseen result (ids.filter fun id => !isDeletedAbove id)
    if limit ≤ result.length then .error (.ready (sortIds result))
    else if requested ≤ ids.length then .error .tooBroad
    else .ok result

def compoundOutcome : Except LimitedCompoundIndexRead (List ℕ) := do
  let result ← collectMemtable limit memtableLookup (fun _ => false) src.active []
  let result ← overLayers (deletedInMemtable src edge) (collectMemtable limit memtableLookup)
    (deletedInMemtable src edge src.active) src.immutable result
  overLayers (deletedInSegment edge) (collectSegment limit segmentLookup)
    (fun id => deletedInMemtable src edge src.active id || src.immutable.any (deletedInMemtable src edge · id)) src.segments result

def compoundIdsLimited : LimitedCompoundIndexRead :=
  match compoundOutcome src limit edge memtableLookup segmentLookup with
  | .ok result => .ready (sortIds result)
  | .error read => read

/-- The first postings of a sidecar in a range of keys. -/
def compoundCandidatesLimited (sidecar : Option (List (List ℕ ×ₗ ℕ))) (inRange : List ℕ → Bool) (requested : ℕ) : Option (List ℕ) :=
  sidecar.map fun sidecar => ((sidecar.filter fun entry => inRange (ofLex entry).1).map fun entry => (ofLex entry).2).take requested

def inPrefixBounds (bounds : CompoundPrefixBounds) (key : List ℕ) : Bool :=
  decide (bounds.lower ≤ key) && decide (key < bounds.upperExclusive)

def inRangeBounds (bounds : CompoundRangeBounds) (key : List ℕ) : Bool :=
  bounds.lower.all (fun lower => decide (lower.key ≤ key) && !(lower.exclusiveComponentPrefix && lower.key.isPrefixOf key)) &&
    decide (key < bounds.upperExclusive)

def nodeIdsByCompoundPrefixLimited (bounds : CompoundPrefixBounds) : LimitedCompoundIndexRead :=
  compoundIdsLimited src limit false (findCompoundPrefixAt · src.snapshotSeq indexId bounds)
    fun seg => compoundCandidatesLimited (seg.nodeCompoundSidecar enc decls indexId) (inPrefixBounds bounds)

def nodeIdsByCompoundRangeLimited (bounds : CompoundRangeBounds) : LimitedCompoundIndexRead :=
  compoundIdsLimited src limit false (findCompoundRangeAt · src.snapshotSeq indexId bounds)
    fun seg => compoundCandidatesLimited (seg.nodeCompoundSidecar enc decls indexId) (inRangeBounds bounds)

def edgeIdsByCompoundPrefixLimited (bounds : CompoundPrefixBounds) : LimitedCompoundIndexRead :=
  compoundIdsLimited src limit true (findCompoundPrefixAt · src.snapshotSeq indexId bounds)
    fun seg => compoundCandidatesLimited (seg.edgeCompoundSidecar enc decls indexId) (inPrefixBounds bounds)

def edgeIdsByCompoundRangeLimited (bounds : CompoundRangeBounds) : LimitedCompoundIndexRead :=
  compoundIdsLimited src limit true (findCompoundRangeAt · src.snapshotSeq indexId bounds)
    fun seg => compoundCandidatesLimited (seg.edgeCompoundSidecar enc decls indexId) (inRangeBounds bounds)

end

theorem posts_layers {τ τ' ρ : Type} {memtables : List τ} {segments : List τ'} {memtable : τ → List ℕ × Opinion ℕ ρ}
    {segment : τ' → List ℕ × Opinion ℕ ρ} {wanted : ℕ → ρ → Prop} (hmems : ∀ m ∈ memtables, Posts wanted (memtable m))
    (hsegs : ∀ seg ∈ segments, Posts wanted (segment seg)) :
    ∀ lay ∈ memtables.map memtable ++ segments.map segment, Posts wanted lay := by
  intro lay hlay
  rcases mem_append.mp hlay with hlay | hlay
  · obtain ⟨m, hm, rfl⟩ := mem_map.mp hlay
    exact hmems m hm
  · obtain ⟨seg, hseg, rfl⟩ := mem_map.mp hlay
    exact hsegs seg hseg

variable {id : ℕ}

section
variable {enc : IndexEncoders} {es : List SecondaryIndexEntry} {src : IndexedSourceList} (h : Layered enc es src)
include h

theorem knownToMemtable_eq {m : IndexedMemtable} (hm : m ∈ src.active :: src.immutable) (s id : ℕ) :
    knownToMemtable s m id = (memtableEdges s m id).isSome := by
  have hdel := h.edgeDeletedAt hm id s
  rw [edgeTombstoneAt] at hdel
  rw [memtableEdges, isSome_recordOpinion, knownToMemtable, edgeVisibilityStateAt, MemtableState.getEdgeAt]
  cases hsta : m.base.edgeStateAt id s with
  | none =>
    rw [hsta] at hdel
    rw [hdel]
    rfl
  | some state =>
    rw [hsta] at hdel
    rw [hdel]
    cases state <;> rfl

omit h in
theorem knownToSegment_eq (seg : IndexedSegment) (id : ℕ) : knownToSegment seg id = (segmentEdges seg id).isSome := by
  rw [segmentEdges, isSome_recordOpinion, knownToSegment, hasEdge, Segment.getEdge]
  by_cases hdel : seg.base.isEdgeDeleted id = true
  · rw [hdel, Bool.or_true, Bool.or_true]
  · rw [if_neg hdel]

variable {postedM : IndexedMemtable → List ℕ} {postedS : IndexedSegment → List ℕ} {wanted : ℕ → EdgeRecord → Prop}
  (hmems : ∀ m ∈ src.active :: src.immutable, Posts wanted (postedM m, memtableEdges src.snapshotSeq m))
  (hsegs : ∀ seg ∈ src.segments, Posts wanted (postedS seg, segmentEdges seg))

variable (src postedM postedS) in
omit h in
/-- What the layers post of edges that no newer layer knows. -/
def scanned : List ℕ :=
  postedM src.active ++ (unshadowed Option.isSome (knownToMemtable src.snapshotSeq src.active)
      (src.immutable.map fun m => (postedM m, memtableEdges src.snapshotSeq m)) ++
    unshadowed Option.isSome (shadowedByMemtables src) (src.segments.map fun seg => (postedS seg, segmentEdges seg)))

theorem scanned_eq : scanned src postedM postedS = unshadowed Option.isSome (fun _ => false)
    (((src.active :: src.immutable).map fun m => (postedM m, memtableEdges src.snapshotSeq m)) ++
      src.segments.map fun seg => (postedS seg, segmentEdges seg)) := by
  rw [unshadowed_layers fun m hm id => knownToMemtable_eq h hm src.snapshotSeq id]
  rfl

include hmems hsegs

theorem nodup_scanned : (scanned src postedM postedS).Nodup := by
  rw [scanned_eq h]
  exact nodup_unshadowed (posts_layers hmems hsegs)

theorem mem_scanned : id ∈ scanned src postedM postedS ↔ ∃ edge, src.base.findEdge id = some edge ∧ wanted id edge := by
  rw [scanned_eq h, mem_unshadowed (posts_layers hmems hsegs), map_append, map_map, map_map, findEdge_eq]
  exact and_iff_right rfl

end

variable {ids result : List ℕ} {seg : IndexedSegment}

section
variable {src : IndexedSourceList} {order : HashOrder} {indexId limit : ℕ} {result ids found : List ℕ}

/-- What a read appends is what it found, in order and without repetition. -/
theorem appendEdgeMatchesFiltered_subperm (h : ids.Subperm found) (isShadowed : ℕ → Bool) :
    (appendEdgeMatchesFiltered result ids isShadowed).Subperm (result ++ found.filter fun id => !isShadowed id) :=
  (Subperm.refl result).append ((finalize_subperm _).trans (h.filter _))

theorem appendEdgeMatchesFiltered_perm (h : ids.Perm found) (hnd : found.Nodup) (isShadowed : ℕ → Bool) :
    (appendEdgeMatchesFiltered result ids isShadowed).Perm (result ++ found.filter fun id => !isShadowed id) := by
  have hids : (ids.filter fun id => !isShadowed id).Nodup := (h.nodup_iff.mpr hnd).filter _
  exact ((finalize_perm hids).trans (h.filter _)).append_left result

variable {st : EqRead}

/-- A read that stops with enough matches. -/
theorem adds_ready (hsub : result.Subperm (st.result ++ ids)) (hlim : limit ≤ result.length) :
    Adds limit EqRead.result LimitedEdgeIndexRead.ids st (.error (.ready (finalize result))) ids where
  ok next h := by cases h
  stopped e out h hout := by
    obtain rfl := error.inj h
    exact ⟨result, (Option.some.inj hout).symm, hsub, hlim⟩

theorem adds_marker {read : LimitedEdgeIndexRead} (hread : read.ids = none) :
    Adds limit EqRead.result LimitedEdgeIndexRead.ids st (.error read) ids where
  ok next h := by cases h
  stopped e out h hout := by
    obtain rfl := error.inj h
    rw [hread] at hout
    cases hout

theorem adds_next {next : EqRead} (h : next.result.Perm (st.result ++ ids)) :
    Adds limit EqRead.result LimitedEdgeIndexRead.ids st (.ok next) ids where
  ok next' heq := by
    obtain rfl := ok.inj heq
    exact h
  stopped e out heq := by cases heq

theorem adds_readMemtableHash {m : IndexedMemtable} {valueHash : ℕ} (hnd : (idsWithHash m src.snapshotSeq indexId valueHash).Nodup)
    (isShadowed : ℕ → Bool) (st : EqRead) :
    Adds limit EqRead.result LimitedEdgeIndexRead.ids st (readMemtableHash src order indexId limit isShadowed m st valueHash)
      ((idsWithHash m src.snapshotSeq indexId valueHash).filter fun id => !isShadowed id) := by
  have hor := order.perm m valueHash (idsWithHash m src.snapshotSeq indexId valueHash)
  have htaken : (findSecondaryEqEdgesByHashAtLimited src order indexId m valueHash (some st.rawRemaining)).Subperm
      (idsWithHash m src.snapshotSeq indexId valueHash) :=
    (perm_insertionSort _ _).subperm.trans ((take_sublist _ _).subperm.trans hor.subperm)
  rw [readMemtableHash]
  split_ifs with hlim hraw
  · exact adds_ready (appendEdgeMatchesFiltered_subperm htaken isShadowed) hlim
  · exact adds_marker rfl
  · apply adds_next
    apply appendEdgeMatchesFiltered_perm _ hnd
    -- some of the budget is left, so that the read was not cut off
    have hlen : (findSecondaryEqEdgesByHashAtLimited src order indexId m valueHash (some st.rawRemaining)).length =
        min (max 1 st.rawRemaining) (idsWithHash m src.snapshotSeq indexId valueHash).length := by
      rw [findSecondaryEqEdgesByHashAtLimited, length_insertionSort]
      show (take _ _).length = _
      rw [length_take, hor.length_eq]
    rw [findSecondaryEqEdgesByHashAtLimited]
    refine (perm_insertionSort _ _).trans ?_
    show (take _ _).Perm _
    rw [take_of_length_le (by rw [hor.length_eq]; omega)]
    exact hor

theorem adds_readActiveHash {valueHash : ℕ} (hnd : (idsWithHash src.active src.snapshotSeq indexId valueHash).Nodup) (st : EqRead) :
    Adds limit EqRead.result LimitedEdgeIndexRead.ids st (readActiveHash src order indexId limit st valueHash)
      (idsWithHash src.active src.snapshotSeq indexId valueHash) := by
  rw [readActiveHash]
  split_ifs with hraw
  · exact adds_marker rfl
  · have hread := @adds_readMemtableHash src order indexId limit src.active valueHash hnd (fun _ => false) st
    simpa only [Bool.not_false, filter_true] using hread

variable {deleted : ℕ → Bool}

theorem chunk_ids (hdel : ∀ id ∈ ps, deleted id = false) (start rawLimit : ℕ) :
    (secondaryEqPostingChunk ps deleted start rawLimit).ids ++
      ps.drop (secondaryEqPostingChunk ps deleted start rawLimit).nextOffset = ps.drop start := by
  rw [secondaryEqPostingChunk]
  split_ifs with hst
  · rw [drop_of_length_le (Nat.le_refl _), drop_of_length_le hst]
    rfl
  · dsimp only
    have hall : ((ps.drop start).take (min (start + max rawLimit 1) ps.length - start)).filter (fun id => !deleted id) =
        (ps.drop start).take (min (start + max rawLimit 1) ps.length - start) := by
      apply filter_eq_self.mpr
      intro id hid
      rw [hdel id (mem_of_mem_drop (mem_of_mem_take hid))]
      rfl
    rw [hall]
    have hnext : start + (min (start + max rawLimit 1) ps.length - start) = min (start + max rawLimit 1) ps.length := by omega
    have hsp := take_append_drop (min (start + max rawLimit 1) ps.length - start) (ps.drop start)
    rw [drop_drop, hnext] at hsp
    exact hsp

theorem exhausted_length {start rawLimit : ℕ}
    (h : (secondaryEqPostingChunk ps deleted start rawLimit).exhausted = true) :
    ps.drop (secondaryEqPostingChunk ps deleted start rawLimit).nextOffset = [] := by
  rw [secondaryEqPostingChunk] at h ⊢
  split_ifs at h ⊢ with hst
  · exact drop_of_length_le (Nat.le_refl _)
  · exact drop_of_length_le (of_decide_eq_true h)

theorem adds_readPostings (isShadowed : ℕ → Bool) {ps : Option (List ℕ)}
    (hnd : (ps.getD []).Nodup) (hdel : ∀ id ∈ ps.getD [], deleted id = false) (offset : ℕ) (st : EqRead) :
    Adds limit EqRead.result LimitedEdgeIndexRead.ids st (readPostings limit deleted isShadowed ps offset st)
      (((ps.getD []).drop offset).filter fun id => !isShadowed id) := by
  fun_induction readPostings limit deleted isShadowed ps offset st with
  | case1 | case2 => exact adds_marker rfl
  | case3 offset st _ ps rawLimit chunk result hlim =>
    have hck : chunk.ids ++ ps.drop chunk.nextOffset = ps.drop offset := chunk_ids hdel offset rawLimit
    rw [Option.getD_some, ← hck]
    exact adds_ready (appendEdgeMatchesFiltered_subperm (sublist_append_left _ _).subperm isShadowed) hlim
  | case4 offset st _ ps rawLimit chunk _ result _ hexh =>
    have hck : chunk.ids ++ ps.drop chunk.nextOffset = ps.drop offset := chunk_ids hdel offset rawLimit
    have hrest : ps.drop chunk.nextOffset = [] := exhausted_length hexh
    rw [hrest, append_nil] at hck
    apply adds_next
    apply appendEdgeMatchesFiltered_perm _ ((drop_sublist _ _).nodup hnd)
    rw [hck, Option.getD_some]
  | case5 offset st _ ps rawLimit chunk _ result _ _ ih =>
    have hck : chunk.ids ++ ps.drop chunk.nextOffset = ps.drop offset := chunk_ids hdel offset rawLimit
    have hids : chunk.ids.Nodup := by
      apply Nodup.sublist (sublist_append_left chunk.ids (ps.drop chunk.nextOffset))
      rw [hck]
      exact (drop_sublist _ _).nodup hnd
    rw [Option.getD_some, ← hck, filter_append]
    exact (ih hnd hdel).after (appendEdgeMatchesFiltered_perm (Perm.refl _) hids isShadowed)

theorem mem_eqGroup {sidecar : List (ℕ ×ₗ ℕ)} {valueHash : ℕ} : id ∈ eqGroup sidecar valueHash ↔ toLex (valueHash, id) ∈ sidecar := by
  rw [eqGroup, mem_map]
  constructor
  · intro h
    obtain ⟨entry, hent, rfl⟩ := h
    obtain ⟨hmem, hhash⟩ := mem_filter.mp hent
    obtain rfl : (ofLex entry).1 = valueHash := of_decide_eq_true hhash
    exact hmem
  · exact fun h => ⟨_, mem_filter.mpr ⟨h, decide_eq_true rfl⟩, rfl⟩

variable {valueHashes : List ℕ}

/-- The lists of distinct hashes make up what a layer posts. -/
theorem posts_hashes {get : ℕ → Option EdgeRecord} {keyOf : EdgeRecord → Option ℕ} {listOf : ℕ → List ℕ} (hhashes : valueHashes.Nodup) (hnd : ∀ valueHash, (listOf valueHash).Nodup)
    (hmem : ∀ valueHash id, id ∈ listOf valueHash ↔ ∃ edge, get id = some edge ∧ keyOf edge = some valueHash) :
    Posts (fun _ edge => ∃ valueHash ∈ valueHashes, keyOf edge = some valueHash)
      (valueHashes.flatMap listOf, recordOpinion get deleted) := by
  apply posts_recordOpinion
  · apply nodup_flatMap.mpr
    refine ⟨fun valueHash _ => hnd valueHash, hhashes.imp ?_⟩
    -- an edge has one hash at most
    intro fst snd hne id hfst hsnd
    obtain ⟨edge, hedge, hkey⟩ := (hmem fst id).mp hfst
    obtain ⟨other, hoth, hkey'⟩ := (hmem snd id).mp hsnd
    rw [hedge] at hoth
    obtain rfl : edge = other := Option.some.inj hoth
    rw [hkey] at hkey'
    exact hne (Option.some.inj hkey')
  · intro id
    rw [mem_flatMap]
    constructor
    · intro h
      obtain ⟨valueHash, hhash, hid⟩ := h
      obtain ⟨edge, hedge, hkey⟩ := (hmem valueHash id).mp hid
      exact ⟨edge, hedge, valueHash, hhash, hkey⟩
    · intro h
      obtain ⟨edge, hedge, valueHash, hhash, hkey⟩ := h
      exact ⟨valueHash, hhash, (hmem valueHash id).mpr ⟨edge, hedge, hkey⟩⟩

section
variable {enc : IndexEncoders} {es : List SecondaryIndexEntry} (h : Layered enc es src)
include h

theorem adds_readSegmentHash (hseg : seg ∈ src.segments) (isShadowed : ℕ → Bool) (st : EqRead) (valueHash : ℕ) :
    Adds limit EqRead.result LimitedEdgeIndexRead.ids st
      (readSegmentHash indexId limit enc (declarationsOf enc es) isShadowed seg st valueHash)
      ((eqGroup (sidecarEntries (edgeEqFamily enc (declarationsOf enc es)) seg.base.edges indexId) valueHash).filter
        fun id => !isShadowed id) := by
  rw [readSegmentHash, IndexedSegment.edgeEqSidecar, IndexedSegment.sidecar]
  by_cases hav : seg.available indexId = true
  · rw [if_pos hav, Option.map_some]
    refine @adds_readPostings limit seg.base.isEdgeDeleted isShadowed (some _) ?_ ?_ 0 st
    · exact nodup_sidecarIds.sublist (filter_sublist.map _)
    · intro id hid
      obtain ⟨edge, hedge, -⟩ := mem_sidecarEntries.mp (mem_eqGroup.mp hid)
      rw [Bool.eq_false_iff]
      intro hdel
      rw [h.edges seg hseg id hdel] at hedge
      cases hedge
  · rw [if_neg hav, Option.map_none, readPostings]
    split_ifs
    · exact adds_marker rfl
    · exact adds_marker rfl

variable {what : ℕ × String} (hdecl : (edgeEqFamily enc (declarationsOf enc es)).declared indexId = some what)
include hdecl

theorem holds_memtable {m : IndexedMemtable} (hm : m ∈ src.active :: src.immutable) :
    Holds (visibleKeys m.secondaryEqState src.snapshotSeq) indexId (getEdgeAt m src.snapshotSeq)
      (keyIn (edgeEqFamily enc (declarationsOf enc es)) indexId) :=
  holds_edges (h.indexed hm _).1 (apart_eq enc _) hdecl

/-- An equality read returns the visible edges with one of the hashes. -/
theorem eqRead_answers (hhashes : valueHashes.Nodup)
    (hread : edgeIdsBySecondaryEqHashesLimitedRead src order indexId limit enc (declarationsOf enc es) valueHashes = .ready ids) :
    let wanted := fun id => ∃ edge, src.base.findEdge id = some edge ∧
      ∃ valueHash ∈ valueHashes, keyIn (edgeEqFamily enc (declarationsOf enc es)) indexId edge = some valueHash
    Answers limit wanted wanted ids := by
  intro wanted
  have hmems : ∀ m ∈ src.active :: src.immutable,
      Posts (fun _ edge => ∃ valueHash ∈ valueHashes, keyIn (edgeEqFamily enc (declarationsOf enc es)) indexId edge = some valueHash)
        (valueHashes.flatMap (idsWithHash m src.snapshotSeq indexId), memtableEdges src.snapshotSeq m) := by
    intro m hm
    have hhol := holds_memtable h hdecl hm
    exact posts_hashes hhashes (nodup_idsWithHash hhol) fun valueHash id => mem_idsWithHash hhol
  have hsegs : ∀ seg ∈ src.segments,
      Posts (fun _ edge => ∃ valueHash ∈ valueHashes, keyIn (edgeEqFamily enc (declarationsOf enc es)) indexId edge = some valueHash)
        (valueHashes.flatMap (eqGroup (sidecarEntries (edgeEqFamily enc (declarationsOf enc es)) seg.base.edges indexId)),
          segmentEdges seg) := by
    intro seg hseg
    apply posts_hashes hhashes
    · exact fun valueHash => nodup_sidecarIds.sublist (filter_sublist.map _)
    · intro valueHash id
      rw [mem_eqGroup, mem_sidecarEntries, h.getEdge hseg]
  have hadds : Adds limit EqRead.result LimitedEdgeIndexRead.ids ⟨[], limit⟩
      (edgeEqOutcome src order indexId limit enc (declarationsOf enc es) valueHashes)
      (scanned src (fun m => valueHashes.flatMap (idsWithHash m src.snapshotSeq indexId)) fun seg =>
        valueHashes.flatMap (eqGroup (sidecarEntries (edgeEqFamily enc (declarationsOf enc es)) seg.base.edges indexId))) := by
    rw [edgeEqOutcome, scanned]
    apply Adds.bind
    · apply Adds.foldlM
      intro st valueHash _
      exact adds_readActiveHash (nodup_idsWithHash (holds_memtable h hdecl mem_cons_self) valueHash) st
    intro next _
    apply Adds.bind
    · apply Adds.overLayers
      · exact fun m hm id => knownToMemtable_eq h (mem_cons_of_mem _ hm) _ id
      · intro above st m hm
        rw [filter_flatMap]
        apply Adds.foldlM
        intro st valueHash _
        exact adds_readMemtableHash (nodup_idsWithHash (holds_memtable h hdecl (mem_cons_of_mem _ hm)) valueHash) above st
    intro next _
    apply Adds.overLayers
    · exact fun seg _ id => knownToSegment_eq seg id
    · intro above st seg hseg
      rw [filter_flatMap]
      apply Adds.foldlM
      intro st valueHash _
      exact adds_readSegmentHash h hseg above st valueHash
  apply hadds.answers rfl (nodup_scanned h hmems hsegs)
  · rw [edgeIdsBySecondaryEqHashesLimitedRead] at hread
    cases hout : edgeEqOutcome src order indexId limit enc (declarationsOf enc es) valueHashes with
    | error read =>
      rw [hout] at hread
      obtain rfl : read = .ready ids := hread
      rfl
    | ok st =>
      rw [hout] at hread
      exact congrArg some (LimitedEdgeIndexRead.ready.inj hread)
  · exact fun id => mem_scanned h hmems hsegs

end

end

section
variable {src : IndexedSourceList} {indexId limit : ℕ} {lower upper : Option (NumericRangeSortKey × Bool)}

theorem adds_stopped {part : List ℕ} (hsub : part.Subperm (result ++ ids)) (hlim : limit ≤ part.length) :
    Adds limit (fun result => result) (fun read => read) result (.error (some (finalize part))) ids where
  ok next h := by cases h
  stopped e out h hout := by
    obtain rfl := error.inj h
    exact ⟨part, (Option.some.inj hout).symm, hsub, hlim⟩

theorem adds_missing :
    Adds limit (fun result => result) (fun read => read) result (.error (none : Option (List ℕ))) ids where
  ok next h := by cases h
  stopped e out h hout := by
    obtain rfl := error.inj h
    cases hout

theorem adds_pushUnshadowed (isShadowed : ℕ → Bool) (result : List ℕ) (entry : NumericRangeSortKey ×ₗ ℕ) :
    Adds limit (fun result => result) (fun read => read) result (pushUnshadowed limit isShadowed result entry)
      ([(ofLex entry).2].filter fun id => !isShadowed id) := by
  rw [pushUnshadowed]
  by_cases hshad : isShadowed (ofLex entry).2 = true
  · rw [if_pos hshad, filter_cons_of_neg (by simp [hshad])]
    exact adds_ok result
  · rw [if_neg hshad, filter_cons_of_pos (by simp [hshad]), pushEdgeMatchLimited]
    split_ifs with hfull hlast
    · exact adds_stopped (sublist_append_left _ _).subperm hfull
    · apply adds_stopped (Subperm.refl _)
      rw [length_append, length_singleton]
      exact hlast
    · constructor
      case ok =>
        intro next h
        obtain rfl := ok.inj h
        exact Perm.refl _
      case stopped =>
        intro e out h
        cases h

theorem adds_entries (isShadowed : ℕ → Bool) (es : List (NumericRangeSortKey ×ₗ ℕ)) (result : List ℕ) :
    Adds limit (fun result => result) (fun read => read) result (es.foldlM (pushUnshadowed limit isShadowed) result)
      ((es.map fun entry => (ofLex entry).2).filter fun id => !isShadowed id) := by
  have hids : ((es.map fun entry => (ofLex entry).2).filter fun id => !isShadowed id) =
      es.flatMap fun entry => [(ofLex entry).2].filter fun id => !isShadowed id := by
    rw [← filter_flatMap, map_eq_flatMap]
  rw [hids]
  apply Adds.foldlM
  exact fun result entry _ => adds_pushUnshadowed isShadowed result entry

theorem page_append_ahead (hsort : sidecar.Pairwise (· < ·))
    {after : Option (NumericRangeSortKey ×ₗ ℕ)} {pageLimit : ℕ} {last : NumericRangeSortKey ×ₗ ℕ}
    (hlast : (rangePage lower upper sidecar deleted after pageLimit).getLast? = some last) :
    rangePage lower upper sidecar deleted after pageLimit ++ ahead lower upper sidecar deleted (some last) =
      ahead lower upper sidecar deleted after := by
  have haft := (last_rangePage lower upper hlast).2
  have hnarrow : ahead lower upper sidecar deleted (some last) = (ahead lower upper sidecar deleted after).filter (decide <| last < ·) := by
    rw [ahead, ahead, filter_filter]
    apply filter_congr
    intro entry _
    by_cases hlt : last < entry
    · cases after with
      | none => simp [rangeStart, hlt]
      | some cursor =>
        have hcsr : cursor < entry := (of_decide_eq_true haft).trans hlt
        simp [rangeStart, hlt, hcsr]
    · simp [rangeStart, hlt]
  have hahead : (ahead lower upper sidecar deleted after).Pairwise (· < ·) := hsort.sublist filter_sublist
  rw [hnarrow, filter_last_lt hahead hlast]
  exact take_append_drop _ _

theorem adds_readRangePages (isShadowed : ℕ → Bool) {sidecar : Option (List (NumericRangeSortKey ×ₗ ℕ))}
    (hsort : (sidecar.getD []).Pairwise (· < ·)) (after : Option (NumericRangeSortKey ×ₗ ℕ)) (result : List ℕ) :
    Adds limit (fun result => result) (fun read => read) result
      (readRangePages limit lower upper deleted isShadowed sidecar after result)
      (((ahead lower upper (sidecar.getD []) deleted after).map fun entry => (ofLex entry).2).filter fun id => !isShadowed id) := by
  fun_induction readRangePages limit lower upper deleted isShadowed sidecar after result with
  | case1 sidecar after result hlim => exact adds_stopped (sublist_append_left _ _).subperm hlim
  | case2 after result => exact adds_missing
  | case3 after result hlim sidecar es hlast =>
    -- the page asks for one entry at least, so that nothing is ahead
    have hemp : ahead lower upper sidecar deleted after = [] := by
      have htake : (ahead lower upper sidecar deleted after).take (min (limit - result.length) 256) = [] :=
        List.getLast?_eq_none_iff.mp hlast
      rcases take_eq_nil_iff.mp htake with hzero | hnil
      · omega
      · exact hnil
    rw [Option.getD_some, hemp]
    exact adds_ok result
  | case4 after result hlim sidecar es last hlast ih =>
    have hpage : es ++ ahead lower upper sidecar deleted (some last) = ahead lower upper sidecar deleted after :=
      page_append_ahead hsort hlast
    rw [Option.getD_some, ← hpage, map_append, filter_append]
    apply (adds_entries isShadowed es result).bind
    exact fun next _ => ih next hsort

section
variable {enc : IndexEncoders} {es : List SecondaryIndexEntry} (h : Layered enc es src)

theorem adds_readSegmentRange (isShadowed : ℕ → Bool) (result : List ℕ) :
    Adds limit (fun result => result) (fun read => read) result
      (readRangePages limit lower upper seg.base.isEdgeDeleted isShadowed
        (seg.edgeRangeSidecar (declarationsOf enc es) indexId) none result)
      (((ahead lower upper (sidecarEntries (edgeRangeFamily (declarationsOf enc es)) seg.base.edges indexId)
        seg.base.isEdgeDeleted none).map fun entry => (ofLex entry).2).filter fun id => !isShadowed id) := by
  rw [IndexedSegment.edgeRangeSidecar, IndexedSegment.sidecar]
  by_cases hav : seg.available indexId = true
  · rw [if_pos hav]
    exact adds_readRangePages isShadowed sorted_sidecarEntries none result
  · rw [if_neg hav, readRangePages]
    split_ifs with hlim
    · exact adds_stopped (sublist_append_left _ _).subperm hlim
    · exact adds_missing

include h

theorem mem_ahead (hseg : seg ∈ src.segments) :
    id ∈ (ahead lower upper (sidecarEntries (edgeRangeFamily (declarationsOf enc es)) seg.base.edges indexId)
        seg.base.isEdgeDeleted none).map (fun entry => (ofLex entry).2) ↔ ∃ edge, seg.base.getEdge id = some edge ∧
        ∃ key, keyIn (edgeRangeFamily (declarationsOf enc es)) indexId edge = some key ∧ inBounds lower upper key = true := by
  rw [h.getEdge hseg, mem_map]
  constructor
  · intro hid
    obtain ⟨entry, hent, rfl⟩ := hid
    obtain ⟨hmem, hpass⟩ := mem_filter.mp hent
    obtain ⟨edge, hedge, hkey⟩ := (@mem_sidecarEntries (ofLex entry).2 _ _ _ _ _ _ _ (ofLex entry).1).mp hmem
    exact ⟨edge, hedge, (ofLex entry).1, hkey, (Bool.and_eq_true_iff.mp hpass).1⟩
  · intro hedge
    obtain ⟨edge, hedge, key, hkey, hbds⟩ := hedge
    have hlive : seg.base.isEdgeDeleted id = false := by
      rw [Bool.eq_false_iff]
      intro hdel
      rw [h.edges seg hseg id hdel] at hedge
      cases hedge
    refine ⟨toLex (key, id), mem_filter.mpr ⟨mem_sidecarEntries.mpr ⟨edge, hedge, hkey⟩, ?_⟩, rfl⟩
    rw [Bool.and_eq_true]
    exact ⟨hbds, by rw [ofLex_toLex, hlive]; rfl⟩

variable {what : ℕ × String} (hdecl : (edgeRangeFamily (declarationsOf enc es)).declared indexId = some what)
include hdecl

theorem rangeRead_answers (hread : edgeIdsBySecondaryRangeIndexLimited src indexId limit (declarationsOf enc es) lower upper = some ids) :
    let wanted := fun id => ∃ edge, src.base.findEdge id = some edge ∧
      ∃ key, keyIn (edgeRangeFamily (declarationsOf enc es)) indexId edge = some key ∧ inBounds lower upper key = true
    Answers limit wanted wanted ids := by
  intro wanted
  have hmems : ∀ m ∈ src.active :: src.immutable,
      Posts (fun _ edge => ∃ key, keyIn (edgeRangeFamily (declarationsOf enc es)) indexId edge = some key ∧ inBounds lower upper key = true)
        ((rangeEntriesAt m src.snapshotSeq indexId lower upper none).map fun entry => (ofLex entry).2,
          memtableEdges src.snapshotSeq m) := by
    intro m hm
    have hhol := holds_edges (h.indexed hm src.snapshotSeq).2.1 (apart_range _) hdecl
    apply posts_recordOpinion (nodup_rangeIds hhol lower upper)
    intro id
    rw [mem_map]
    constructor
    · intro hid
      obtain ⟨entry, hent, rfl⟩ := hid
      obtain ⟨edge, hedge, hkey, hbds⟩ := (mem_rangeEntriesAt hhol).mp hent
      exact ⟨edge, hedge, _, hkey, hbds⟩
    · intro hedge
      obtain ⟨edge, hedge, key, hkey, hbds⟩ := hedge
      exact ⟨toLex (key, id), (mem_rangeEntriesAt hhol).mpr ⟨edge, hedge, hkey, hbds⟩, rfl⟩
  have hsegs : ∀ seg ∈ src.segments,
      Posts (fun _ edge => ∃ key, keyIn (edgeRangeFamily (declarationsOf enc es)) indexId edge = some key ∧ inBounds lower upper key = true)
        ((ahead lower upper (sidecarEntries (edgeRangeFamily (declarationsOf enc es)) seg.base.edges indexId)
          seg.base.isEdgeDeleted none).map fun entry => (ofLex entry).2, segmentEdges seg) := by
    intro seg hseg
    apply posts_recordOpinion
    · exact nodup_sidecarIds.sublist (filter_sublist.map _)
    · exact fun id => mem_ahead h hseg
  have hadds : Adds limit (fun result => result) (fun read => read) []
      (edgeRangeOutcome src indexId limit (declarationsOf enc es) lower upper)
      (scanned src (fun m => (rangeEntriesAt m src.snapshotSeq indexId lower upper none).map fun entry => (ofLex entry).2) fun seg =>
        (ahead lower upper (sidecarEntries (edgeRangeFamily (declarationsOf enc es)) seg.base.edges indexId)
          seg.base.isEdgeDeleted none).map fun entry => (ofLex entry).2) := by
    rw [edgeRangeOutcome, scanned]
    apply Adds.bind
    · have hact := @adds_entries limit (fun _ => false) (rangeEntriesAt src.active src.snapshotSeq indexId lower upper none) []
      simp only [Bool.not_false, filter_true] at hact
      exact hact
    intro next _
    apply Adds.bind
    · apply Adds.overLayers
      · exact fun m hm id => knownToMemtable_eq h (mem_cons_of_mem _ hm) _ id
      · exact fun above result m _ => adds_entries above _ result
    intro next _
    apply Adds.overLayers
    · exact fun seg _ id => knownToSegment_eq seg id
    · exact fun above result seg _ => adds_readSegmentRange above result
  apply hadds.answers rfl (nodup_scanned h hmems hsegs)
  · rw [edgeIdsBySecondaryRangeIndexLimited] at hread
    cases hout : edgeRangeOutcome src indexId limit (declarationsOf enc es) lower upper with
    | error read =>
      rw [hout] at hread
      exact hread
    | ok result =>
      rw [hout] at hread
      exact hread
  · exact fun id => mem_scanned h hmems hsegs

end

end

section
variable {src : IndexedSourceList} {limit : ℕ} {edge : Bool}

theorem mem_pushUnseen : id ∈ pushUnseen result ids ↔ id ∈ result ∨ id ∈ ids := by
  rw [pushUnseen]
  induction ids generalizing result with
  | nil => simp
  | cons fst ids ih =>
    rw [foldl_cons, ih, mem_cons]
    by_cases hseen : fst ∈ result
    · rw [if_pos hseen]
      grind
    · rw [if_neg hseen, mem_append, mem_singleton, or_assoc]

theorem nodup_pushUnseen (h : result.Nodup) (ids : List ℕ) : (pushUnseen result ids).Nodup := by
  rw [pushUnseen]
  induction ids generalizing result with
  | nil => exact h
  | cons fst ids ih =>
    rw [foldl_cons]
    by_cases hseen : fst ∈ result
    · rw [if_pos hseen]
      exact ih h
    · rw [if_neg hseen]
      apply ih
      exact h.append (nodup_singleton fst) (disjoint_singleton.mpr hseen)

/-- A compound read that stops with enough identifiers. -/
theorem collects_ready {found : List ℕ} (hsub : ids ⊆ found) (hlim : limit ≤ (pushUnseen result ids).length) :
    Collects LimitedCompoundIndexRead.ids limit result (.error (.ready (sortIds (pushUnseen result ids)))) found where
  ok hres next h := by cases h
  stopped hres e out h hout := by
    obtain rfl := error.inj h
    obtain rfl := Option.some.inj hout
    have hperm : (sortIds (pushUnseen result ids)).Perm (pushUnseen result ids) := perm_insertionSort _ _
    refine ⟨hperm.nodup_iff.mpr (nodup_pushUnseen hres ids), by rw [hperm.length_eq]; exact hlim, fun id hid => ?_⟩
    exact (mem_pushUnseen.mp (hperm.mem_iff.mp hid)).imp_right fun hmem => hsub hmem

theorem collects_marker {found : List ℕ} {read : LimitedCompoundIndexRead} (hread : read.ids = none) :
    Collects LimitedCompoundIndexRead.ids limit result (.error read) found where
  ok hres next h := by cases h
  stopped hres e out h hout := by
    obtain rfl := error.inj h
    rw [hread] at hout
    cases hout

theorem collects_next : Collects LimitedCompoundIndexRead.ids limit result (.ok (pushUnseen result ids)) ids where
  ok hres next h := by
    obtain rfl := ok.inj h
    exact ⟨nodup_pushUnseen hres ids, fun id => mem_pushUnseen⟩
  stopped hres e out h hout := by cases h

theorem collects_memtable (memtableLookup : IndexedMemtable → List ℕ) (isDeletedAbove : ℕ → Bool) (m : IndexedMemtable) (result : List ℕ) :
    Collects LimitedCompoundIndexRead.ids limit result (collectMemtable limit memtableLookup isDeletedAbove m result)
      ((memtableLookup m).filter fun id => !isDeletedAbove id) := by
  rw [collectMemtable]
  split_ifs with hlim
  · exact collects_ready (List.Subset.refl _) hlim
  · exact collects_next

theorem collects_segment {segmentLookup : IndexedSegment → ℕ → Option (List ℕ)} {posted : List ℕ}
    (hlk : ∀ n, segmentLookup seg n = none ∨ segmentLookup seg n = some (posted.take n)) (isDeletedAbove : ℕ → Bool)
    (result : List ℕ) :
    Collects LimitedCompoundIndexRead.ids limit result (collectSegment limit segmentLookup isDeletedAbove seg result)
      (posted.filter fun id => !isDeletedAbove id) := by
  rw [collectSegment]
  rcases hlk (limit - result.length + 1) with hnone | hsome
  · rw [hnone]
    exact collects_marker rfl
  · rw [hsome]
    dsimp only
    split_ifs with hlim htrun
    · exact collects_ready ((take_sublist _ _).filter _).subset hlim
    · exact collects_marker rfl
    · -- fewer came than were asked for
      have hall : posted.take (limit - result.length + 1) = posted := by
        apply take_of_length_le
        rw [length_take] at htrun
        omega
      rw [hall]
      exact collects_next

variable {ρ : Type} {view : IndexedMemtable → Opinion ℕ ρ} {segmentView : IndexedSegment → Opinion ℕ ρ} {wanted : ℕ → ρ → Prop}
  {memtableLookup : IndexedMemtable → List ℕ} {segmentLookup : IndexedSegment → ℕ → Option (List ℕ)} {posted : IndexedSegment → List ℕ}
  (hmems : ∀ m ∈ src.active :: src.immutable, Posts wanted (memtableLookup m, view m))
  (hsegs : ∀ seg ∈ src.segments, Posts wanted (posted seg, segmentView seg))
  (hlk : ∀ seg ∈ src.segments, ∀ n, segmentLookup seg n = none ∨ segmentLookup seg n = some ((posted seg).take n))
  (hdel : ∀ m ∈ src.active :: src.immutable, ∀ id, deletedInMemtable src edge m id = isDeletion (view m id))
  (hsegmentDeleted : ∀ seg ∈ src.segments, ∀ id, deletedInSegment edge seg id = isDeletion (segmentView seg id))
include hmems hsegs hlk hdel hsegmentDeleted

theorem compoundRead_answers (hread : compoundIdsLimited src limit edge memtableLookup segmentLookup = .ready ids) :
    let lays := (src.active :: src.immutable).map view ++ src.segments.map segmentView
    Answers limit
      (fun id => (∃ r, visible lays id = some r) ∧
        ((∃ m ∈ src.active :: src.immutable, id ∈ memtableLookup m) ∨ ∃ seg ∈ src.segments, id ∈ posted seg))
      (fun id => ∃ r, visible lays id = some r ∧ wanted id r) ids := by
  intro lays
  have hall := posts_layers hmems hsegs
  have hlays : (((src.active :: src.immutable).map fun m => (memtableLookup m, view m)) ++
      src.segments.map fun seg => (posted seg, segmentView seg)).map (·.2) = lays := by
    rw [map_append, map_map, map_map]
    rfl
  have hcoll : Collects LimitedCompoundIndexRead.ids limit [] (compoundOutcome src limit edge memtableLookup segmentLookup)
      (unshadowed isDeletion (fun _ => false) (((src.active :: src.immutable).map fun m => (memtableLookup m, view m)) ++
        src.segments.map fun seg => (posted seg, segmentView seg))) := by
    rw [compoundOutcome, unshadowed_layers hdel]
    apply Collects.bind
    · simpa only [Bool.not_false, filter_true] using collects_memtable memtableLookup (fun _ => false) src.active []
    intro result
    apply Collects.bind
    · apply Collects.overLayers
      · exact fun m hm id => hdel m (mem_cons_of_mem _ hm) id
      · exact fun above result m _ => collects_memtable memtableLookup above m result
    intro result
    apply Collects.overLayers
    · exact hsegmentDeleted
    · exact fun above result seg hseg => collects_segment (hlk seg hseg) above result
  apply hcoll.answers
  · rw [compoundIdsLimited] at hread
    cases hout : compoundOutcome src limit edge memtableLookup segmentLookup with
    | error read =>
      rw [hout] at hread
      obtain rfl : read = .ready ids := hread
      rfl
    | ok result =>
      rw [hout] at hread
      exact congrArg some (LimitedCompoundIndexRead.ready.inj hread)
  · intro id hid
    obtain ⟨-, hvis, lay, hlay, hmem⟩ := visible_of_mem_unshadowed hall hid
    rw [hlays] at hvis
    refine ⟨hvis, ?_⟩
    rcases mem_append.mp hlay with hlay | hlay
    · obtain ⟨m, hm, rfl⟩ := mem_map.mp hlay
      exact Or.inl ⟨m, hm, hmem⟩
    · obtain ⟨seg, hseg, rfl⟩ := mem_map.mp hlay
      exact Or.inr ⟨seg, hseg, hmem⟩
  · intro id hid
    obtain ⟨r, hrec, hwant⟩ := hid
    rw [← hlays] at hrec
    exact mem_unshadowed_of_visible hall hrec hwant rfl

end

section
variable {enc : IndexEncoders} {es : List SecondaryIndexEntry} {src : IndexedSourceList} {indexId limit : ℕ}

def compoundPosted {φ ρ : Type} (F : IndexFamily φ ρ (List ℕ)) (records : Map ℕ ρ) (indexId : ℕ) (inRange : List ℕ → Bool) : List ℕ :=
  ((sidecarEntries F records indexId).filter fun entry => inRange (ofLex entry).1).map fun entry => (ofLex entry).2

variable {inRange : List ℕ → Bool}

theorem mem_compoundPosted {φ ρ : Type} {F : IndexFamily φ ρ (List ℕ)} {records : Map ℕ ρ} :
    id ∈ compoundPosted F records indexId inRange ↔ ∃ r, records.lookup id = some r ∧ (keyIn F indexId r).any inRange = true := by
  rw [compoundPosted, mem_map]
  constructor
  · intro h
    obtain ⟨entry, hent, rfl⟩ := h
    obtain ⟨hmem, hin⟩ := mem_filter.mp hent
    obtain ⟨r, hrec, hkey⟩ := (@mem_sidecarEntries (ofLex entry).2 _ _ _ _ _ _ _ (ofLex entry).1).mp hmem
    exact ⟨r, hrec, by rw [hkey]; exact hin⟩
  · intro h
    obtain ⟨r, hrec, hin⟩ := h
    cases hkey : keyIn F indexId r with
    | none =>
      rw [hkey] at hin
      cases hin
    | some key =>
      rw [hkey] at hin
      exact ⟨toLex (key, id), mem_filter.mpr ⟨mem_sidecarEntries.mpr ⟨r, hrec, hkey⟩, hin⟩, rfl⟩

section
variable {φ ρ : Type} (F : IndexFamily φ ρ (List ℕ))

theorem compoundCandidatesLimited_sidecar (records : Map ℕ ρ) (seg : IndexedSegment)
    (inRange : List ℕ → Bool) (n : ℕ) :
    compoundCandidatesLimited (seg.sidecar indexId (sidecarEntries F records indexId)) inRange n = none ∨
      compoundCandidatesLimited (seg.sidecar indexId (sidecarEntries F records indexId)) inRange n =
        some ((compoundPosted F records indexId inRange).take n) := by
  rw [IndexedSegment.sidecar]
  by_cases hav : seg.available indexId = true
  · rw [if_pos hav]
    exact Or.inr rfl
  · rw [if_neg hav]
    exact Or.inl rfl

/-- A compound read of one side, with any lookup that goes through the entries in a range of keys. -/
theorem sideCompound_answers (edge : Bool) (records : IndexedSegment → Map ℕ ρ)
    {get : IndexedMemtable → ℕ → Option ρ} {getSegment : IndexedSegment → ℕ → Option ρ} {find : ℕ → Option ρ}
    (hfind : ∀ id, find id = visible (((src.active :: src.immutable).map fun m => recordOpinion (get m) (deletedInMemtable src edge m)) ++
      src.segments.map fun seg => recordOpinion (getSegment seg) (deletedInSegment edge seg)) id)
    (hhol : ∀ m ∈ src.active :: src.immutable,
      Holds (visibleKeys m.secondaryCompoundState src.snapshotSeq) indexId (get m) (keyIn F indexId))
    (hget : ∀ seg ∈ src.segments, ∀ id, getSegment seg id = (records seg).lookup id)
    (hdel : ∀ m ∈ src.active :: src.immutable, ∀ id, deletedInMemtable src edge m id = true → get m id = none)
    (hsegmentDeleted : ∀ seg ∈ src.segments, ∀ id, deletedInSegment edge seg id = true → getSegment seg id = none)
    (hread : compoundIdsLimited src limit edge (compoundIdsAt · src.snapshotSeq indexId inRange)
      (fun seg => compoundCandidatesLimited (seg.sidecar indexId (sidecarEntries F (records seg) indexId)) inRange) = .ready ids) :
    let wanted := fun r => (keyIn F indexId r).any inRange = true
    Answers limit
      (fun id => (∃ r, find id = some r) ∧ ((∃ m ∈ src.active :: src.immutable, ∃ r, get m id = some r ∧ wanted r) ∨
          ∃ seg ∈ src.segments, ∃ r, getSegment seg id = some r ∧ wanted r))
      (fun id => ∃ r, find id = some r ∧ wanted r) ids := by
  intro wanted
  have hsegs : ∀ seg ∈ src.segments, ∀ id, id ∈ compoundPosted F (records seg) indexId inRange ↔
      ∃ r, getSegment seg id = some r ∧ wanted r := by
    intro seg hseg id
    rw [hget seg hseg, mem_compoundPosted]
  have hans := compoundRead_answers (fun m hm => posts_recordOpinion (nodup_compoundIdsAt (hhol m hm) inRange) fun id =>
      mem_compoundIdsAt (hhol m hm))
    (fun seg hseg => posts_recordOpinion (nodup_sidecarIds.sublist (filter_sublist.map _)) (hsegs seg hseg))
    (fun seg _ n => compoundCandidatesLimited_sidecar F (records seg) seg inRange n)
    (fun m hm id => (isDeletion_recordOpinion (hdel m hm id)).symm)
    (fun seg hseg id => (isDeletion_recordOpinion (hsegmentDeleted seg hseg id)).symm) hread
  apply hans.mono
  · intro id hid
    rw [← hfind] at hid
    refine ⟨hid.1, hid.2.imp ?_ ?_⟩
    · exact fun ⟨m, hm, hmem⟩ => ⟨m, hm, (mem_compoundIdsAt (hhol m hm)).mp hmem⟩
    · exact fun ⟨seg, hseg, hmem⟩ => ⟨seg, hseg, (hsegs seg hseg id).mp hmem⟩
  · intro id hid
    rw [← hfind]
    exact hid

end

end

/-- A read by endpoints returns visible edges there, and all that their layers show. -/
theorem endpointRead_answers (sl : SourceList) (nodeIds : List ℕ) (dir : EdgeCandidates.Direction)
    (fids : Option (List ℕ)) (limit : ℕ) : Answers limit
      (fun id => ∃ edge, sl.findEdge id = some edge ∧ endpointMatches nodeIds dir edge = true ∧ labelAllowed fids edge = true)
      (fun id => ∃ edge, sl.findEdge id = some edge ∧ endpointMatches nodeIds dir edge = true ∧
        labelAllowed fids edge = true ∧ ShownAt sl nodeIds dir id edge)
      (edgeIdsByEndpointsLimited sl nodeIds dir fids limit) := by
  have hnd : (scanLayers (fun edge => endpointMatches nodeIds dir edge && labelAllowed fids edge)
      (fun _ => false) (endpointLayers sl nodeIds dir)).Nodup := nodup_scanLayers nodup_endpointLayers
  have htaken := (take_sublist limit _).nodup hnd
  rw [edgeIdsByEndpointsLimited]
  constructor
  case nodup => exact nodup_dedup _
  case sound =>
    intro id hid
    have hmem := mem_of_mem_take (mem_finalize.mp hid)
    obtain ⟨edge, hvis, htest⟩ := visible_of_mem_scanLayers hmem
    rw [endpointLayers_opinions, ← findEdge_eq_visible] at hvis
    rw [Bool.and_eq_true] at htest
    exact ⟨edge, hvis, htest⟩
  case complete =>
    intro hsh id hid
    obtain ⟨edge, hedge, hend, hlab, hshown⟩ := hid
    have hlen := (finalize_perm htaken).length_eq
    rw [length_take] at hlen
    rw [findEdge_eq_visible, ← endpointLayers_opinions nodeIds dir] at hedge
    apply mem_finalize.mpr
    rw [take_of_length_le (by rw [finalize] at hlen; omega)]
    exact mem_scanLayers (mem_endpointLayer hshown) hedge (by rw [hend, hlab]; rfl) rfl

section
variable (src : IndexedSourceList)

/-- The newest version of the edge passes a test. -/
def VisibleEdge (test : EdgeRecord → Prop) (id : ℕ) : Prop := ∃ edge, src.base.findEdge id = some edge ∧ test edge

def VisibleNode (test : NodeRecord → Prop) (id : ℕ) : Prop := ∃ node, src.base.findNode id = some node ∧ test node

/-- The edge is visible, and some version of it passes a test. -/
def PostedEdge (test : EdgeRecord → Prop) (id : ℕ) : Prop :=
  (∃ edge, src.base.findEdge id = some edge) ∧
    ((∃ m ∈ src.active :: src.immutable, ∃ edge, m.base.getEdgeAt id src.snapshotSeq = some edge ∧ test edge) ∨
      ∃ seg ∈ src.segments, ∃ edge, seg.base.getEdge id = some edge ∧ test edge)

def PostedNode (test : NodeRecord → Prop) (id : ℕ) : Prop :=
  (∃ node, src.base.findNode id = some node) ∧
    ((∃ m ∈ src.active :: src.immutable, ∃ node, m.base.getNodeAt id src.snapshotSeq = some node ∧ test node) ∨
      ∃ seg ∈ src.segments, ∃ node, seg.base.getNode id = some node ∧ test node)

variable (enc : IndexEncoders) (es : List SecondaryIndexEntry)

/-- The edge has one of the hashes in an equality index, a key in the range in a range index, or a tuple within the bounds. -/
def hasHash (indexId : ℕ) (valueHashes : List ℕ) (edge : EdgeRecord) : Prop :=
  ∃ valueHash ∈ valueHashes, keyIn (edgeEqFamily enc (declarationsOf enc es)) indexId edge = some valueHash

def inRange (indexId : ℕ) (lower upper : Option (NumericRangeSortKey × Bool)) (edge : EdgeRecord) : Prop :=
  ∃ key, keyIn (edgeRangeFamily (declarationsOf enc es)) indexId edge = some key ∧ inBounds lower upper key = true

def edgeTupleIn (indexId : ℕ) (within : List ℕ → Bool) (edge : EdgeRecord) : Prop :=
  (keyIn (edgeFieldFamily enc (declarationsOf enc es)) indexId edge).any within = true

def nodeTupleIn (indexId : ℕ) (within : List ℕ → Bool) (node : NodeRecord) : Prop :=
  (keyIn (nodeFieldFamily enc (declarationsOf enc es)) indexId node).any within = true

structure LimitedReadsComplete (limit : ℕ) : Prop where
  endpoints : ∀ nodeIds dir fids,
    let wanted := fun edge => endpointMatches nodeIds dir edge = true ∧ labelAllowed fids edge = true
    Answers limit (VisibleEdge src wanted)
      (fun id => VisibleEdge src (fun edge => wanted edge ∧ ShownAt src.base nodeIds dir id edge) id)
      (edgeIdsByEndpointsLimited src.base nodeIds dir fids limit)
  eq : ∀ order indexId what valueHashes ids, (edgeEqFamily enc (declarationsOf enc es)).declared indexId = some what → valueHashes.Nodup →
    edgeIdsBySecondaryEqHashesLimitedRead src order indexId limit enc (declarationsOf enc es) valueHashes = .ready ids →
    Answers limit (VisibleEdge src (hasHash enc es indexId valueHashes)) (VisibleEdge src (hasHash enc es indexId valueHashes)) ids
  range : ∀ indexId what lower upper ids, (edgeRangeFamily (declarationsOf enc es)).declared indexId = some what →
    edgeIdsBySecondaryRangeIndexLimited src indexId limit (declarationsOf enc es) lower upper = some ids →
    Answers limit (VisibleEdge src (inRange enc es indexId lower upper)) (VisibleEdge src (inRange enc es indexId lower upper)) ids
  edgePrefix : ∀ indexId what bounds ids, (edgeFieldFamily enc (declarationsOf enc es)).declared indexId = some what →
    edgeIdsByCompoundPrefixLimited src indexId limit enc (declarationsOf enc es) bounds = .ready ids →
    Answers limit (PostedEdge src (edgeTupleIn enc es indexId (inPrefixBounds bounds)))
      (VisibleEdge src (edgeTupleIn enc es indexId (inPrefixBounds bounds))) ids
  edgeRange : ∀ indexId what bounds ids, (edgeFieldFamily enc (declarationsOf enc es)).declared indexId = some what →
    edgeIdsByCompoundRangeLimited src indexId limit enc (declarationsOf enc es) bounds = .ready ids →
    Answers limit (PostedEdge src (edgeTupleIn enc es indexId (inRangeBounds bounds)))
      (VisibleEdge src (edgeTupleIn enc es indexId (inRangeBounds bounds))) ids
  nodePrefix : ∀ indexId what bounds ids, (nodeFieldFamily enc (declarationsOf enc es)).declared indexId = some what →
    nodeIdsByCompoundPrefixLimited src indexId limit enc (declarationsOf enc es) bounds = .ready ids →
    Answers limit (PostedNode src (nodeTupleIn enc es indexId (inPrefixBounds bounds)))
      (VisibleNode src (nodeTupleIn enc es indexId (inPrefixBounds bounds))) ids
  nodeRange : ∀ indexId what bounds ids, (nodeFieldFamily enc (declarationsOf enc es)).declared indexId = some what →
    nodeIdsByCompoundRangeLimited src indexId limit enc (declarationsOf enc es) bounds = .ready ids →
    Answers limit (PostedNode src (nodeTupleIn enc es indexId (inRangeBounds bounds)))
      (VisibleNode src (nodeTupleIn enc es indexId (inRangeBounds bounds))) ids

end

theorem limited_reads_complete {enc : IndexEncoders} {es : List SecondaryIndexEntry} {src : IndexedSourceList}
    (h : Layered enc es src) (limit : ℕ) : LimitedReadsComplete src enc es limit where
  endpoints nodeIds dir fids := by
    have hanswers := endpointRead_answers src.base nodeIds dir fids limit
    apply hanswers.mono
    · exact fun id hid => hid
    · intro id hid
      obtain ⟨edge, hedge, hwanted, hshown⟩ := hid
      exact ⟨edge, hedge, hwanted.1, hwanted.2, hshown⟩
  eq order indexId what valueHashes ids hdecl hhashes hread := eqRead_answers h hdecl hhashes hread
  range indexId what lower upper ids hdecl hread := rangeRead_answers h hdecl hread
  edgePrefix indexId what bounds ids hdecl hread := sideCompound_answers (edgeFieldFamily enc _) true (·.base.edges) (findEdge_eq src)
    (fun m hm => holds_edges (h.indexed hm _).2.2 (apart_field enc _) hdecl) (fun seg hseg => h.getEdge hseg)
    (fun m hm id => h.getEdgeAt_of_deleted hm) (fun seg _ id hdel => if_pos hdel) hread
  edgeRange indexId what bounds ids hdecl hread := sideCompound_answers (edgeFieldFamily enc _) true (·.base.edges) (findEdge_eq src)
    (fun m hm => holds_edges (h.indexed hm _).2.2 (apart_field enc _) hdecl) (fun seg hseg => h.getEdge hseg)
    (fun m hm id => h.getEdgeAt_of_deleted hm) (fun seg _ id hdel => if_pos hdel) hread
  nodePrefix indexId what bounds ids hdecl hread := sideCompound_answers (nodeFieldFamily enc _) false (·.base.nodes) (findNode_eq src)
    (fun m hm => holds_nodes (h.indexed hm _).2.2 (apart_field enc _) hdecl) (fun seg hseg => h.getNode hseg)
    (fun m hm id => h.getNodeAt_of_deleted hm) (fun seg _ id hdel => if_pos hdel) hread
  nodeRange indexId what bounds ids hdecl hread := sideCompound_answers (nodeFieldFamily enc _) false (·.base.nodes) (findNode_eq src)
    (fun m hm => holds_nodes (h.indexed hm _).2.2 (apart_field enc _) hdecl) (fun seg hseg => h.getNode hseg)
    (fun m hm id => h.getNodeAt_of_deleted hm) (fun seg _ id hdel => if_pos hdel) hread

/-- Tuples are listed by their times, and all values have one hash. -/
def timeEncoders : IndexEncoders where
  hash _ := 7
  encodeNodeTuple _ _ _ := []
  encodeEdgeTuple _ _ vs := vs.map fun value => match value with
    | .metadataI64 time => time.toNat
    | _ => 0

def datedEdge (id : ℕ) (updatedAt : ℤ) : EdgeRecord := ⟨id, 1, 2, 1, (∅ : Props).insert "p" (.bool true), 0, updatedAt, 0, 0, i64Max, 0⟩

def datedIndexes : List SecondaryIndexEntry :=
  [⟨7, .edgeProperty 1 "p", .equality⟩, ⟨8, .edgeFieldIndex 1 [.metadata .updatedAt], .equality⟩]

/-- Two edges are written, one of them again after a freeze, and a third one to a node that was deleted just before. -/
def datedEdges : Cuts.Layering where
  active := [(3, .upsertEdge (datedEdge 1 9)), (4, .deleteNode 3 0), (5, .upsertEdge { datedEdge 3 6 with target := 3 })]
  immutable := [[(1, .upsertEdge (datedEdge 1 5)), (2, .upsertEdge (datedEdge 2 7))]]
  segments := []

def datedSources : IndexedSourceList := cutSources timeEncoders datedIndexes datedEdges fun _ => true

theorem limited_reads_complete_datedEdges : LimitedReadsComplete datedSources timeEncoders datedIndexes 5 :=
  limited_reads_complete (layered_cutSources timeEncoders datedIndexes (by decide) _) 5

def givenOrder : HashOrder := ⟨fun _ _ ids => ids, fun _ _ _ => .refl _⟩

/-- The edge to the deleted node is visible but not listed at its source, the edge that was written again is listed under
its old tuple, and a hash that is given twice counts its edges twice. -/
theorem some_edges_not_listed : (edgeIdsByEndpointsLimited datedSources.base [1] .outgoing none 5 = [1, 2] ∧
      (datedSources.base.findEdge 3).any (endpointMatches [1] .outgoing) = true) ∧
    ((edgeIdsByCompoundPrefixLimited datedSources 8 5 timeEncoders (declarationsOf timeEncoders datedIndexes) ⟨[5], [5, 255]⟩).ids = some [1] ∧
      (datedSources.base.findEdge 1).map (·.updatedAt) = some 9) ∧
    ((edgeIdsBySecondaryEqHashesLimitedRead datedSources givenOrder 7 4 timeEncoders (declarationsOf timeEncoders datedIndexes) [7, 7]).ids =
        some [1, 3] ∧ (datedSources.base.findEdge 2).isSome = true) := by
  refine ⟨⟨?_, ?_⟩, ⟨?_, ?_⟩, ?_, ?_⟩ <;> decide +kernel

end OverGraph.LimitedReads
