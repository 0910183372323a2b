import OverGraph.Fallible
import OverGraph.LimitedReads
import OverGraph.SortedMerges

/-!
# Scanning the edges at endpoints

In every layer each node has a cursor for either direction, in a segment one for each label. The cursors of a layer are
merged, and so are the layers; an edge counts in the newest layer that knows it. The visitor gets the edges in chunks,
and a scan may be resumed behind any edge.
-/

namespace OverGraph.EndpointScans
open Records Memtable Segments LayeredWrites SecondaryEntries SnapshotReads List Nat
open TrackedIndexes IndexHeads IndexCoherence EdgeCandidates IndexedSources LimitedReads SortedMerges
open MemtableState (adjEntry)

/-- The heap holds the next id of each cursor that has one. -/
def distinctIds : ℕ → List (List ℕ) → Option ℕ → List ℕ
  | 0, _, _ => []
  | rds + 1, cursors, lastSeen =>
    match leastHead (fun id => id) cursors with
    | none => []
    | some (edgeId, cursorIndex) =>
      let cursors := cursors.modify cursorIndex List.tail
      if lastSeen = some edgeId then distinctIds rds cursors lastSeen
      else edgeId :: distinctIds rds cursors (some edgeId)

def mergedIds (cursors : List (List ℕ)) : List ℕ := distinctIds ((cursors.map List.length).sum + 1) cursors none

theorem distinctIds_eq {rds : ℕ} {cursors : List (List ℕ)} (h : (cursors.map List.length).sum < rds) (lastSeen : Option ℕ) :
    distinctIds rds cursors lastSeen = firsts (fun id => id) lastSeen (mergeAll (fun id => id) cursors) := by
  induction rds generalizing cursors lastSeen with
  | zero => exact absurd h (not_lt_zero _)
  | succ rds ih =>
    rw [distinctIds]
    cases hlst : leastHead (fun id => id) cursors with
    | none => rw [leastHead_none hlst, firsts]
    | some least =>
      obtain ⟨hmerge, list, hlist⟩ := leastHead_some hlst
      have hsum := sum_length_tail hlist
      dsimp only
      rw [ih (by omega), ih (by omega), hmerge, firsts]

theorem mergedIds_spec {cursors : List (List ℕ)} (h : ∀ ids ∈ cursors, ids.Pairwise (· < ·)) :
    (mergedIds cursors).Pairwise (· < ·) ∧ ∀ id, id ∈ mergedIds cursors ↔ ∃ ids ∈ cursors, id ∈ ids := by
  have hord : ∀ ids ∈ cursors, Ordered (fun id => id) ids := fun ids hids => (h ids hids).imp le_of_lt
  rw [mergedIds, distinctIds_eq (lt_succ_self _), firsts_mergeAll hord]
  refine ⟨ascending_distinctRows, fun id => ?_⟩
  rw [mem_distinctRows, ← mem_mergeAll, ← find?_mergeAll hord]
  constructor
  · exact mem_of_find?_eq_some
  · intro hid
    cases hfind : (mergeAll (fun id => id) cursors).find? fun other => decide (other = id) with
    | none => exact absurd (find?_eq_none.mp hfind id hid) (by simp)
    | some other =>
      have hoth : decide (other = id) = true := @find?_some ℕ (fun y => decide (y = id)) other _ hfind
      rw [of_decide_eq_true hoth]

section
variable {σ ε : Type} (visit : σ → List ℕ → Except ε (σ × Bool)) (chunkLimit : ℕ)

/-- Each id comes with whether a layer above its source knows the edge. The visitor gets a chunk when it is full, and says
whether the scan stops. -/
def scanLoop : ℕ → List (List (ℕ × Bool)) → Option ℕ → List ℕ → σ → Except ε σ
  | 0, _, _, _, state => .ok state
  | rds + 1, srcs, lastSeen, chunk, state =>
    match leastHead Prod.fst srcs with
    | none => if chunk.isEmpty then .ok state else (visit state chunk).map Prod.fst
    | some ((edgeId, shadowed), sourceIndex) =>
      let srcs := srcs.modify sourceIndex List.tail
      if lastSeen = some edgeId then scanLoop rds srcs lastSeen chunk state
      else if shadowed then scanLoop rds srcs (some edgeId) chunk state
      else if chunk.length + 1 < chunkLimit then scanLoop rds srcs (some edgeId) (chunk ++ [edgeId]) state
      else do
        let (state, stop) ← visit state (chunk ++ [edgeId])
        if stop then .ok state else scanLoop rds srcs (some edgeId) [] state

/-- The visitor gets the ids one after the other, in chunks. -/
def visitAll : List ℕ → List ℕ → σ → Except ε σ
  | [], chunk, state => if chunk.isEmpty then .ok state else (visit state chunk).map Prod.fst
  | edgeId :: ids, chunk, state =>
    if chunk.length + 1 < chunkLimit then visitAll ids (chunk ++ [edgeId]) state
    else do
      let (state, stop) ← visit state (chunk ++ [edgeId])
      if stop then .ok state else visitAll ids [] state

theorem scanLoop_eq {rds : ℕ} {srcs : List (List (ℕ × Bool))} (h : (srcs.map List.length).sum < rds)
    (lastSeen : Option ℕ) (chunk : List ℕ) (state : σ) : scanLoop visit chunkLimit rds srcs lastSeen chunk state =
      visitAll visit chunkLimit (((firsts Prod.fst lastSeen (mergeAll Prod.fst srcs)).filter (!·.2)).map Prod.fst) chunk state := by
  induction rds generalizing srcs lastSeen chunk state with
  | zero => exact absurd h (not_lt_zero _)
  | succ rds ih =>
    rw [scanLoop]
    cases hlst : leastHead Prod.fst srcs with
    | none => rw [leastHead_none hlst, firsts, filter_nil, map_nil, visitAll]
    | some least =>
      obtain ⟨⟨edgeId, shadowed⟩, sourceIndex⟩ := least
      obtain ⟨hmerge, list, hlist⟩ := leastHead_some hlst
      have hless : ((srcs.modify sourceIndex tail).map List.length).sum < rds := by
        have hsum := sum_length_tail hlist
        omega
      dsimp only
      simp only [ih hless]
      rw [hmerge, firsts]
      by_cases hseen : lastSeen = some edgeId
      · rw [if_pos hseen, if_pos hseen]
      rw [if_neg hseen, if_neg hseen]
      cases shadowed with
      | true => rfl
      | false => rw [if_neg Bool.false_ne_true, filter_cons_of_pos rfl, map_cons, visitAll]

/-- A visitor that keeps what it gets and never stops the scan. -/
def collect (seen chunk : List ℕ) : Except ε (List ℕ × Bool) := .ok (seen ++ chunk, false)

theorem visitAll_collect (ids chunk seen : List ℕ) :
    visitAll (collect (ε := ε)) chunkLimit ids chunk seen = .ok (seen ++ (chunk ++ ids)) := by
  induction ids generalizing chunk seen with
  | nil =>
    rw [visitAll]
    cases chunk <;> simp [collect, Except.map]
  | cons edgeId ids ih =>
    rw [visitAll]
    split
    · rw [ih, append_assoc, singleton_append]
    · have hnext := ih [] (seen ++ (chunk ++ [edgeId]))
      rw [nil_append, append_assoc, append_assoc, singleton_append] at hnext
      exact hnext

end

/-- The ids of a list behind a cursor. -/
def behind (after : Option ℕ) (ids : List ℕ) : List ℕ := ids.filter fun id => after.all (decide <| · < id)

section
variable (nodeIds : List ℕ) (dir : EdgeCandidates.Direction) (fids : Option (List ℕ)) (startAfter : Option ℕ)

/-- A node, and whether its outgoing edges are read. The order of the cursors does not matter to a merge. -/
def cursorKeys : List (ℕ × Bool) :=
  ((nodeIds.insertionSort (· ≤ ·)).dedup).flatMap fun nodeId => match dir with
    | .outgoing => [(nodeId, true)]
    | .incoming => [(nodeId, false)]
    | .both => [(nodeId, true), (nodeId, false)]

/-- The ids that searches find, each behind the one before. -/
def cursorIds (next : Option ℕ → Option ℕ) : ℕ → Option ℕ → List ℕ
  | 0, _ => []
  | rds + 1, nextAfter => (next nextAfter).elim [] fun edgeId => edgeId :: cursorIds next rds (some edgeId)

def memtableCursor (m : IndexedMemtable) (s : ℕ) (cursor : ℕ × Bool) : List ℕ :=
  if cursor.2 then cursorIds (nextVisibleEdgeFromEndpointAfter m s cursor.1 fids) (visibleEntries m.orderedAdjOut s).length startAfter
  else cursorIds (nextVisibleEdgeToEndpointAfter m s cursor.1 fids) (visibleEntries m.orderedAdjIn s).length startAfter

def memtableEndpointEdgeScanSource (m : IndexedMemtable) (s : ℕ) : List ℕ :=
  mergedIds ((cursorKeys nodeIds dir).map (memtableCursor fids startAfter m s))

/-- The ends of an edge, that of the cursor first. -/
def endsOf (outgoing : Bool) (edge : EdgeRecord) : ℕ × ℕ := if outgoing then (edge.source, edge.target) else (edge.target, edge.source)

/-- The postings of a node under a label, without deleted edges and edges to deleted nodes. -/
def adjPostingEdgeIds (seg : Segment) (cursor : ℕ × Bool) (labelId : ℕ) : List ℕ :=
  ((seg.edges.entries.filter fun stored => decide ((endsOf cursor.2 stored.2).1 = cursor.1) && decide (stored.2.labelId = labelId) &&
    !seg.isEdgeDeleted stored.1 && !seg.isNodeDeleted (endsOf cursor.2 stored.2).2).map (·.1)).insertionSort (· ≤ ·)

def adjPostingCursors (seg : Segment) (cursor : ℕ × Bool) : List (List ℕ) :=
  let labelIds := ((seg.edges.entries.filter fun stored => (endsOf cursor.2 stored.2).1 = cursor.1).map (·.2.labelId)).dedup
  (labelIds.filter fun labelId => fids.all (·.contains labelId)).map fun labelId =>
    (adjPostingEdgeIds seg cursor labelId).dropWhile fun edgeId => !startAfter.all (decide <| · < edgeId)

def segmentEndpointEdgeScanSource (seg : Segment) : List ℕ :=
  mergedIds ((cursorKeys nodeIds dir).flatMap (adjPostingCursors fids startAfter seg))

end

variable {ids : List ℕ}

theorem pairwise_lt_insertionSort (h : ids.Nodup) : (ids.insertionSort (· ≤ ·)).Pairwise (· < ·) :=
  (pairwise_insertionSort (· ≤ ·) ids).imp₂ (fun _ _ => lt_of_le_of_ne) ((perm_insertionSort (· ≤ ·) ids).nodup_iff.mpr h)

theorem cursorIds_eq {next : Option ℕ → Option ℕ} (hids : ids.Pairwise (· < ·)) (hnext : ∀ after, next after = firstAfter after ids)
    {rds : ℕ} {after : Option ℕ} (hrds : (behind after ids).length ≤ rds) : cursorIds next rds after = behind after ids := by
  induction rds generalizing after with
  | zero => rw [cursorIds, length_eq_zero_iff.mp (le_zero.mp hrds)]
  | succ rds ih =>
    have hfst : next after = (behind after ids).head? := by rw [hnext, firstAfter, behind, head?_filter]
    rw [cursorIds, hfst]
    cases hbeh : behind after ids with
    | nil => rfl
    | cons edgeId rest =>
      have hsort : (edgeId :: rest).Pairwise (· < ·) := hbeh ▸ hids.filter _
      have haft : after.all (decide <| · < edgeId) = true := (mem_filter.mp (hbeh ▸ mem_cons_self : edgeId ∈ behind after ids)).2
      -- what is behind the id found is behind the cursor, too
      have hrest : behind (some edgeId) ids = rest := by
        have htwice : behind (some edgeId) ids = behind (some edgeId) (behind after ids) := by
          rw [behind, behind, behind, filter_filter]
          refine filter_congr fun id _ => ?_
          cases after with
          | none => simp
          | some cursor =>
            simp only [Option.all_some, decide_eq_true_eq] at haft
            by_cases hid : edgeId < id
            · simp [hid, haft.trans hid]
            · simp [hid]
        rw [htwice, hbeh, behind, filter_cons_of_neg (by simp), filter_eq_self]
        exact fun id hid => by simpa using (pairwise_cons.mp hsort).1 id hid
      have hfewer : (behind (some edgeId) ids).length ≤ rds := by
        rw [hbeh] at hrds
        exact hrest ▸ le_of_succ_le_succ hrds
      rw [head?_cons, Option.elim_some, ih hfewer, hrest]

theorem dropWhile_eq_behind {after : Option ℕ} (hids : ids.Pairwise (· < ·)) :
    (ids.dropWhile fun id => !after.all (decide <| · < id)) = behind after ids := by
  induction ids with
  | nil => rfl
  | cons id ids ih =>
    obtain ⟨hab, hrest⟩ := pairwise_cons.mp hids
    rw [behind, dropWhile_cons, filter_cons]
    by_cases hid : after.all (decide <| · < id) = true
    · rw [hid, if_neg (by simp), if_pos rfl]
      refine congrArg (id :: ·) (filter_eq_self.mpr fun other hoth => ?_).symm
      cases after with
      | none => rfl
      | some cursor =>
        simp only [Option.all_some, decide_eq_true_eq] at hid ⊢
        exact hid.trans (hab other hoth)
    · rw [if_pos (by simpa using hid), if_neg hid]
      exact ih hrest

section
variable {nodeIds : List ℕ} {dir : EdgeCandidates.Direction} {fids : Option (List ℕ)} {startAfter : Option ℕ}

theorem exists_cursor {edge : EdgeRecord} {accept : ℕ → ℕ → Prop} :
    (∃ cursor ∈ cursorKeys nodeIds dir, (endsOf cursor.2 edge).1 = cursor.1 ∧ accept cursor.1 (endsOf cursor.2 edge).2) ↔
      (dir ≠ .incoming ∧ edge.source ∈ nodeIds ∧ accept edge.source edge.target) ∨
        (dir ≠ .outgoing ∧ edge.target ∈ nodeIds ∧ accept edge.target edge.source) := by
  have hmem : ∀ nodeId, nodeId ∈ (nodeIds.insertionSort (· ≤ ·)).dedup ↔ nodeId ∈ nodeIds := fun nodeId =>
    mem_dedup.trans (perm_insertionSort _ _).mem_iff
  cases dir <;> simp [cursorKeys, hmem, endsOf, exists_or, or_comm]

variable {m : IndexedMemtable} {s : ℕ}

/-- A cursor of a memtable gives the edges at its node, unless the memtable has deleted an end. -/
theorem cursorIds_spec {ordered : MembershipMap (ℕ × ℕ) AdjEntry} {derive : EdgeRecord → ℕ × ℕ → Option AdjEntry} {outgoing : Bool}
    (h : Exactly ordered s (entriesOf Prod.snd derive (getEdgeAt m s)))
    (hderive : ∀ edge key, derive edge key =
      if (endsOf outgoing edge).1 = key.1 then some (adjEntry edge (endsOf outgoing edge).2) else none) (nodeId : ℕ) :
    let ids := cursorIds (nextVisibleAdjEdgeAfter m s ordered nodeId fids) (visibleEntries ordered s).length startAfter
    ids.Pairwise (· < ·) ∧ ∀ id, id ∈ ids ↔ startAfter.all (decide <| · < id) = true ∧ ∃ edge, getEdgeAt m s id = some edge ∧
      labelAllowed fids edge = true ∧ (endsOf outgoing edge).1 = nodeId ∧
        isNodeDeletedAt m s nodeId = false ∧ isNodeDeletedAt m s (endsOf outgoing edge).2 = false := by
  intro ids
  by_cases hgone : isNodeDeletedAt m s nodeId = true
  · have hids : ids = [] := cursorIds_eq .nil (fun after => by rw [nextVisibleAdjEdgeAfter, if_pos hgone]; rfl) (zero_le _)
    rw [hids, hgone]
    simp
  let shown := ((visibleEntries ordered s).filter fun entry =>
    decide (entry.1.1 = nodeId) && labelAccepted fids entry.2 && !isNodeDeletedAt m s entry.2.neighborId).map fun entry => entry.1.2
  have hnd : shown.Nodup := by
    have hents : (visibleEntries ordered s).Nodup := (h.1 : ((visibleEntries ordered s).map (·.1)).Nodup).of_map
    refine Nodup.map_on (fun entry hent other hoth heq => ?_) (hents.filter _)
    obtain ⟨hmem, hpass⟩ := mem_filter.mp hent
    obtain ⟨hmem', hpass'⟩ := mem_filter.mp hoth
    simp only [Bool.and_eq_true, decide_eq_true_eq] at hpass hpass'
    exact inj_on_of_nodup_map h.1 hmem hmem' (Prod.ext (hpass.1.1.trans hpass'.1.1.symm) heq)
  have hsort := pairwise_lt_insertionSort hnd
  have hids : ids = behind startAfter (shown.insertionSort (· ≤ ·)) := by
    refine cursorIds_eq hsort (fun after => by rw [nextVisibleAdjEdgeAfter, if_neg hgone]) ?_
    refine (length_filter_le _ _).trans ?_
    rw [length_insertionSort, length_map]
    exact length_filter_le _ _
  rw [hids]
  refine ⟨hsort.filter _, fun id => ?_⟩
  rw [behind, mem_filter, and_comm, (perm_insertionSort _ _).mem_iff, mem_map]
  refine and_congr_right fun _ => ?_
  constructor
  · rintro ⟨⟨⟨owner, _⟩, entry⟩, hent, rfl⟩
    obtain ⟨hmem, hpass⟩ := mem_filter.mp hent
    obtain ⟨edge, hedge, hderi⟩ := Option.bind_eq_some_iff.mp ((h.2 _ _).mp hmem)
    rw [hderive, Option.ite_none_right_eq_some, Option.some.injEq] at hderi
    obtain ⟨howner, rfl⟩ := hderi
    simp only [Bool.and_eq_true, decide_eq_true_eq, Bool.not_eq_true'] at hpass
    obtain ⟨⟨rfl, hlab⟩, hoth⟩ := hpass
    exact ⟨edge, hedge, hlab, howner, Bool.eq_false_iff.mpr hgone, hoth⟩
  · rintro ⟨edge, hedge, hlab, howner, -, hoth⟩
    refine ⟨((nodeId, id), adjEntry edge (endsOf outgoing edge).2), mem_filter.mpr ⟨(h.2 _ _).mpr ?_, ?_⟩, rfl⟩
    · rw [entriesOf, hedge, Option.bind_some, hderive, if_pos howner]
    · simp only [Bool.and_eq_true, decide_eq_true_eq, Bool.not_eq_true']
      exact ⟨⟨trivial, hlab⟩, hoth⟩

/-- What a layer says about edges, and which of them it lists at the endpoints. -/
abbrev ListingLayer := Opinion ℕ EdgeRecord × (EdgeRecord → Bool)

/-- A source gives the edges that a layer lists with an accepted label behind the start. -/
structure Gives (startAfter : Option ℕ) (fids : Option (List ℕ)) (source : EdgeLayer) (layer : ListingLayer) : Prop where
  opinion : source.2 = layer.1
  ascending : source.1.Pairwise (· < ·)
  mem : ∀ id, id ∈ source.1 ↔ startAfter.all (decide <| · < id) = true ∧
    ∃ edge, layer.1 id = some (some edge) ∧ labelAllowed fids edge = true ∧ layer.2 edge = true

theorem gives_mergedIds (lay : ListingLayer) (accept : ℕ → ℕ → Prop) {cursors : ℕ × Bool → List (List ℕ)}
    (hsort : ∀ cursor, ∀ ids ∈ cursors cursor, ids.Pairwise (· < ·))
    (hmem : ∀ cursor id, (∃ ids ∈ cursors cursor, id ∈ ids) ↔ startAfter.all (decide <| · < id) = true ∧
      ∃ edge, lay.1 id = some (some edge) ∧ labelAllowed fids edge = true ∧
        (endsOf cursor.2 edge).1 = cursor.1 ∧ accept cursor.1 (endsOf cursor.2 edge).2)
    (hls : ∀ edge, (dir ≠ .incoming ∧ edge.source ∈ nodeIds ∧ accept edge.source edge.target) ∨
      (dir ≠ .outgoing ∧ edge.target ∈ nodeIds ∧ accept edge.target edge.source) ↔ lay.2 edge = true) :
    Gives startAfter fids (mergedIds ((cursorKeys nodeIds dir).flatMap cursors), lay.1) lay := by
  have hmrg := mergedIds_spec fun ids (hids : ids ∈ (cursorKeys nodeIds dir).flatMap cursors) => by
    obtain ⟨cursor, -, hids⟩ := mem_flatMap.mp hids
    exact hsort cursor ids hids
  refine ⟨rfl, hmrg.1, fun id => ?_⟩
  rw [hmrg.2]
  constructor
  · rintro ⟨ids, hids, hid⟩
    obtain ⟨cursor, hkey, hids⟩ := mem_flatMap.mp hids
    obtain ⟨haft, edge, hedge, hlab, hends⟩ := (hmem cursor id).mp ⟨ids, hids, hid⟩
    exact ⟨haft, edge, hedge, hlab, (hls edge).mp (exists_cursor.mp ⟨cursor, hkey, hends⟩)⟩
  · rintro ⟨haft, edge, hedge, hlab, hlist⟩
    obtain ⟨cursor, hkey, hends⟩ := exists_cursor.mpr ((hls edge).mpr hlist)
    obtain ⟨ids, hids, hid⟩ := (hmem cursor id).mpr ⟨haft, edge, hedge, hlab, hends⟩
    exact ⟨ids, mem_flatMap.mpr ⟨cursor, hkey, hids⟩, hid⟩

theorem gives_memtable {src : IndexedSourceList}
    (h : Exactly m.orderedAdjOut src.snapshotSeq (entriesOf Prod.snd outEntry (getEdgeAt m src.snapshotSeq)) ∧
      Exactly m.orderedAdjIn src.snapshotSeq (entriesOf Prod.snd inEntry (getEdgeAt m src.snapshotSeq))) :
    Gives startAfter fids
      (memtableEndpointEdgeScanSource nodeIds dir fids startAfter m src.snapshotSeq, (memtableLayer src.base m.base).2)
      ((memtableLayer src.base m.base).2, memtableEndpointMatches src.base m.base nodeIds dir) := by
  have hcsr : ∀ cursor : ℕ × Bool, (memtableCursor fids startAfter m src.snapshotSeq cursor).Pairwise (· < ·) ∧
      ∀ id, id ∈ memtableCursor fids startAfter m src.snapshotSeq cursor ↔ startAfter.all (decide <| · < id) = true ∧
        ∃ edge, getEdgeAt m src.snapshotSeq id = some edge ∧ labelAllowed fids edge = true ∧ (endsOf cursor.2 edge).1 = cursor.1 ∧
          isNodeDeletedAt m src.snapshotSeq cursor.1 = false ∧ isNodeDeletedAt m src.snapshotSeq (endsOf cursor.2 edge).2 = false := by
    rintro ⟨nodeId, outgoing⟩
    cases outgoing with
    | true => exact cursorIds_spec h.1 (fun _ _ => rfl) nodeId
    | false => exact cursorIds_spec h.2 (fun _ _ => rfl) nodeId
  have hop : ∀ id edge, (memtableLayer src.base m.base).2 id = some (some edge) ↔ getEdgeAt m src.snapshotSeq id = some edge := by
    intro id edge
    refine ⟨getEdgeAt_of_memtableLayer, fun hedge => ?_⟩
    have hget : m.base.getEdgeAt id src.base.snapshotSeq = some edge := hedge
    simp only [memtableLayer, hget]
  rw [memtableEndpointEdgeScanSource, map_eq_flatMap]
  refine gives_mergedIds (_, _) (fun fst other =>
      isNodeDeletedAt m src.snapshotSeq fst = false ∧ isNodeDeletedAt m src.snapshotSeq other = false) ?_ ?_ ?_
  · intro cursor ids hids
    rw [mem_singleton.mp hids]
    exact (hcsr cursor).1
  · intro cursor id
    simp only [mem_singleton, exists_eq_left]
    rw [(hcsr cursor).2]
    simp only [hop]
  · intro edge
    simp only [memtableEndpointMatches, endpointMatches, isNodeDeletedAt, IndexedSourceList.base, Bool.and_eq_true, Bool.not_eq_true']
    cases dir <;> simp <;> tauto

theorem gives_segment (seg : Segment) : Gives startAfter fids
    (segmentEndpointEdgeScanSource nodeIds dir fids startAfter seg, (segmentLayer seg).2)
    ((segmentLayer seg).2, segmentEndpointMatches seg nodeIds dir) := by
  have hsort : ∀ cursor labelId, (adjPostingEdgeIds seg cursor labelId).Pairwise (· < ·) := by
    intro cursor labelId
    have hkeys : (seg.edges.entries.map (·.1)).Nodup := seg.edges.nodupKeys
    exact pairwise_lt_insertionSort (hkeys.sublist (filter_sublist.map _))
  refine gives_mergedIds (_, _) (fun _ other => seg.isNodeDeleted other = false) ?_ ?_ ?_
  · intro cursor ids hids
    obtain ⟨labelId, -, rfl⟩ := mem_map.mp hids
    exact (hsort cursor labelId).sublist (dropWhile_sublist _)
  · intro cursor id
    have hop : ∀ edge, (segmentLayer seg).2 id = some (some edge) ↔ ⟨id, edge⟩ ∈ seg.edges.entries ∧ seg.isEdgeDeleted id = false := by
      intro edge
      rw [← AList.mem_lookup_iff, Option.mem_def]
      cases hdel : seg.isEdgeDeleted id <;> simp [segmentLayer, Segment.getEdge, hdel]
    simp only [adjPostingCursors, mem_map, mem_filter, mem_dedup, exists_exists_and_eq_and, dropWhile_eq_behind (hsort cursor _), behind, hop]
    simp only [adjPostingEdgeIds, (perm_insertionSort _ _).mem_iff, mem_map, mem_filter, Bool.and_eq_true, decide_eq_true_eq, Bool.not_eq_true']
    constructor
    · rintro ⟨labelId, ⟨-, hlab⟩, ⟨⟨_, edge⟩, ⟨hmem, ⟨⟨hend, rfl⟩, hedge⟩, hoth⟩, rfl⟩, haft⟩
      exact ⟨haft, edge, ⟨hmem, hedge⟩, hlab, hend, hoth⟩
    · rintro ⟨haft, edge, ⟨hmem, hedge⟩, hlab, hend, hoth⟩
      exact ⟨edge.labelId, ⟨⟨⟨id, edge⟩, ⟨hmem, hend⟩, rfl⟩, hlab⟩, ⟨⟨id, edge⟩, ⟨hmem, ⟨⟨hend, rfl⟩, hedge⟩, hoth⟩, rfl⟩, haft⟩
  · intro edge
    cases dir <;> simp [segmentEndpointMatches]

end

/-- The ids of each layer, with whether a newer layer knows the edge. -/
def tagged : (ℕ → Bool) → List EdgeLayer → List (List (ℕ × Bool))
  | _, [] => []
  | shadowed, (ids, opinion) :: lays => ids.map (fun id => (id, shadowed id)) :: tagged (fun id => shadowed id || (opinion id).isSome) lays

def newestLists (lays : List ListingLayer) (id : ℕ) (edge : EdgeRecord) : Bool :=
  (lays.find? fun lay => (lay.1 id).isSome).any fun lay => lay.2 edge

section
variable {startAfter : Option ℕ} {fids : Option (List ℕ)} {srcs : List EdgeLayer} {lays : List ListingLayer}

theorem find?_tags (tag : ℕ → Bool) (ids : List ℕ) (id : ℕ) :
    (ids.map fun id => (id, tag id)).find? (fun x => decide (x.1 = id)) = if id ∈ ids then some (id, tag id) else none := by
  induction ids with
  | nil => rfl
  | cons fst ids ih =>
    by_cases hfst : fst = id
    · simp [hfst]
    · simp [hfst, ih, Ne.symm hfst]

theorem firstHolding_tagged (h : Forall₂ (Gives startAfter fids) srcs lays) (shadowed : ℕ → Bool) (id : ℕ) :
    firstHolding Prod.fst (tagged shadowed srcs) id = some (id, false) ↔ shadowed id = false ∧
      startAfter.all (decide <| · < id) = true ∧ ∃ edge, visible (lays.map (·.1)) id = some edge ∧
        labelAllowed fids edge = true ∧ newestLists lays id edge = true := by
  simp only [firstHolding, newestLists]
  induction h generalizing shadowed with
  | nil => simp [tagged]
  | @cons source lay srcs lays hfst _ ih =>
    obtain ⟨ids, opinion⟩ := source
    obtain ⟨hop, -, hmem⟩ := hfst
    dsimp only at hop hmem
    rw [tagged, findSome?_cons, find?_tags, find?_cons, visible, map_cons, firstOpinion_cons, hop]
    by_cases hid : id ∈ ids
    · obtain ⟨haft, edge, hedge, hlab, hlist⟩ := (hmem id).mp hid
      simp [hid, hedge, haft, hlist, hlab]
    · rw [if_neg hid]
      dsimp only
      rw [ih]
      cases hheld : lay.1 id with
      | none => simp [visible]
      | some held =>
        rw [hmem, hheld] at hid
        simp only [Option.some.injEq] at hid
        simp [hid]

theorem ordered_tagged (h : ∀ source ∈ srcs, source.1.Pairwise (· < ·)) (shadowed : ℕ → Bool) :
    ∀ ids ∈ tagged shadowed srcs, Ordered Prod.fst ids := by
  induction srcs generalizing shadowed with
  | nil => simp [tagged]
  | cons source srcs ih =>
    rw [tagged, forall_mem_cons]
    exact ⟨pairwise_map.mpr ((h source mem_cons_self).imp le_of_lt), ih (fun other hoth => h other (mem_cons_of_mem _ hoth)) _⟩

end

section
variable (src : IndexedSourceList) (nodeIds : List ℕ) (dir : EdgeCandidates.Direction) (fids : Option (List ℕ))

def endpointEdgeScanSources (startAfter : Option ℕ) : List EdgeLayer :=
  if nodeIds.isEmpty then []
  else (src.active :: src.immutable).map (fun m =>
      (memtableEndpointEdgeScanSource nodeIds dir fids startAfter m src.snapshotSeq, (memtableLayer src.base m.base).2)) ++
    src.segments.map fun seg => (segmentEndpointEdgeScanSource nodeIds dir fids startAfter seg.base, (segmentLayer seg.base).2)

def scanEdgeIdsByEndpointsAfter {σ ε : Type} (startAfter : Option ℕ) (chunkLimit : ℕ) (visit : σ → List ℕ → Except ε (σ × Bool))
    (state : σ) : Except ε σ :=
  let srcs := tagged (fun _ => false) (endpointEdgeScanSources src nodeIds dir fids startAfter)
  scanLoop visit (max chunkLimit 1) ((srcs.map List.length).sum + 1) srcs none [] state

/-- The layers, newest first, with the edges that they list: a memtable none with an end that it has deleted, a segment none
that leads to a node that it has deleted. -/
def listingLayers : List ListingLayer :=
  (src.active :: src.immutable).map (fun m => ((memtableLayer src.base m.base).2, memtableEndpointMatches src.base m.base nodeIds dir)) ++
    src.segments.map fun seg => ((segmentLayer seg.base).2, segmentEndpointMatches seg.base nodeIds dir)

/-- The edge is visible at one of the nodes, with an accepted label, and listed by the layer that it is read from. -/
def Listed (id : ℕ) : Prop :=
  ∃ edge, src.base.findEdge id = some edge ∧ endpointMatches nodeIds dir edge = true ∧ labelAllowed fids edge = true ∧
    newestLists (listingLayers src nodeIds dir) id edge = true

/-- A scan shows the ids in order, in chunks, and goes on behind any of them. -/
structure Enumerates (scan : Option ℕ → List ℕ) : Prop where
  ascending : ∀ startAfter, (scan startAfter).Pairwise (· < ·)
  mem : ∀ startAfter id, id ∈ scan startAfter ↔ startAfter.all (decide <| · < id) = true ∧ Listed src nodeIds dir fids id
  resumes : ∀ startAfter before id rest, scan startAfter = before ++ id :: rest → scan (some id) = rest
  visits : ∀ {σ ε : Type} startAfter chunkLimit (visit : σ → List ℕ → Except ε (σ × Bool)) state,
    scanEdgeIdsByEndpointsAfter src nodeIds dir fids startAfter chunkLimit visit state =
      visitAll visit (max chunkLimit 1) (scan startAfter) [] state
  collects : ∀ startAfter chunkLimit, scanEdgeIdsByEndpointsAfter (ε := Empty) src nodeIds dir fids startAfter chunkLimit collect [] =
    .ok (scan startAfter)

end

section
variable {enc : IndexEncoders} {es : List SecondaryIndexEntry} {src : IndexedSourceList} {nodeIds : List ℕ}
  {dir : EdgeCandidates.Direction} {fids : Option (List ℕ)}

theorem endpointMatches_of_lists {id : ℕ} {edge : EdgeRecord} (h : newestLists (listingLayers src nodeIds dir) id edge = true) :
    endpointMatches nodeIds dir edge = true := by
  obtain ⟨lay, hlay, hls⟩ := (Option.any_eq_true _ _).mp h
  rcases mem_append.mp (mem_of_find?_eq_some hlay) with hmem | hmem
  · obtain ⟨m, -, rfl⟩ := mem_map.mp hmem
    simp only [memtableEndpointMatches, Bool.and_eq_true] at hls
    exact hls.1.1
  · obtain ⟨seg, -, rfl⟩ := mem_map.mp hmem
    cases dir <;> simp_all [segmentEndpointMatches, endpointMatches]
    tauto

theorem gives_sources (h : Layered enc es src) (hnos : nodeIds.isEmpty = false) (startAfter : Option ℕ) : Forall₂ (Gives startAfter fids)
    (endpointEdgeScanSources src nodeIds dir fids startAfter) (listingLayers src nodeIds dir) := by
  rw [endpointEdgeScanSources, hnos, if_neg Bool.false_ne_true, listingLayers]
  apply rel_append
  · rw [forall₂_map_left_iff, forall₂_map_right_iff, forall₂_same]
    intro m hm
    obtain ⟨ops, hseqs, rfl⟩ := h.memtables m hm
    exact gives_memtable (orderedAdj_ofOps enc es hseqs src.snapshotSeq)
  · rw [forall₂_map_left_iff, forall₂_map_right_iff, forall₂_same]
    exact fun seg _ => gives_segment seg.base

def scannedIds (src : IndexedSourceList) (nodeIds : List ℕ) (dir : EdgeCandidates.Direction) (fids : Option (List ℕ))
    (startAfter : Option ℕ) : List ℕ :=
  ((distinctRows Prod.fst (tagged (fun _ => false) (endpointEdgeScanSources src nodeIds dir fids startAfter))).filter
    (!·.2)).map Prod.fst

theorem ascending_scannedIds (startAfter : Option ℕ) : (scannedIds src nodeIds dir fids startAfter).Pairwise (· < ·) :=
  pairwise_map.mpr (ascending_distinctRows.filter _)

theorem mem_scannedIds (h : Layered enc es src) (startAfter : Option ℕ) (id : ℕ) : id ∈ scannedIds src nodeIds dir fids startAfter ↔
      startAfter.all (decide <| · < id) = true ∧ Listed src nodeIds dir fids id := by
  have hfst : id ∈ scannedIds src nodeIds dir fids startAfter ↔ firstHolding Prod.fst
      (tagged (fun _ => false) (endpointEdgeScanSources src nodeIds dir fids startAfter)) id = some (id, false) := by
    simp [scannedIds, mem_distinctRows]
  rw [hfst]
  cases hnos : nodeIds.isEmpty with
  | true =>
    obtain rfl := isEmpty_iff.mp hnos
    refine iff_of_false (by simp [endpointEdgeScanSources, tagged, firstHolding]) ?_
    rintro ⟨-, edge, -, hmat, -⟩
    cases dir <;> cases hmat
  | false =>
    have hview : visible ((listingLayers src nodeIds dir).map (·.1)) id = src.base.findEdge id := by
      rw [findEdge_eq_visible]
      simp only [listingLayers, edgeScanLayers, IndexedSourceList.base, map_append, map_map, map_cons, Function.comp_def]
    rw [firstHolding_tagged (gives_sources h hnos startAfter), hview]
    refine (and_iff_right rfl).trans (and_congr_right fun _ => exists_congr fun edge => and_congr_right fun _ => ?_)
    constructor
    · rintro ⟨hlab, hls⟩
      exact ⟨endpointMatches_of_lists hls, hlab, hls⟩
    · rintro ⟨-, hlab, hls⟩
      exact ⟨hlab, hls⟩

theorem scan_eq (h : Layered enc es src) {σ ε : Type} (startAfter : Option ℕ) (chunkLimit : ℕ)
    (visit : σ → List ℕ → Except ε (σ × Bool)) (state : σ) :
    scanEdgeIdsByEndpointsAfter src nodeIds dir fids startAfter chunkLimit visit state =
      visitAll visit (max chunkLimit 1) (scannedIds src nodeIds dir fids startAfter) [] state := by
  have hsort : ∀ source ∈ endpointEdgeScanSources src nodeIds dir fids startAfter, source.1.Pairwise (· < ·) := by
    intro source hsrc
    cases hnos : nodeIds.isEmpty with
    | true => simp [endpointEdgeScanSources, hnos] at hsrc
    | false =>
      obtain ⟨lay, -, hgives⟩ := Fallible.forall₂_mem (gives_sources h hnos startAfter) hsrc
      exact hgives.ascending
  rw [scanEdgeIdsByEndpointsAfter, scanLoop_eq _ _ (lt_succ_self _), firsts_mergeAll (ordered_tagged hsort _), scannedIds]

/-- A scan by endpoints shows the listed edges in order, whatever the chunks are, and can be resumed behind each. -/
theorem endpoint_scan_resumable (h : Layered enc es src) (nodeIds : List ℕ) (dir : EdgeCandidates.Direction)
    (fids : Option (List ℕ)) : ∃ scan, Enumerates src nodeIds dir fids scan := by
  refine ⟨scannedIds src nodeIds dir fids, ascending_scannedIds, mem_scannedIds h, ?_, scan_eq h, ?_⟩
  · intro startAfter before id rest hscan
    have hsorted : (scannedIds src nodeIds dir fids startAfter).Pairwise (· < ·) := ascending_scannedIds startAfter
    have hmem : ∀ other, other ∈ before ++ id :: rest ↔ startAfter.all (decide <| · < other) = true ∧
        Listed src nodeIds dir fids other := fun other => hscan ▸ mem_scannedIds h startAfter other
    rw [hscan, pairwise_append, pairwise_cons] at hsorted
    obtain ⟨-, ⟨habove, hrest⟩, hbefore⟩ := hsorted
    have hid := ((hmem id).mp (mem_append_right _ mem_cons_self)).1
    refine ascending_ext (α := ℕ) (ascending_scannedIds _) hrest fun other => ?_
    rw [mem_scannedIds h, Option.all_some, decide_eq_true_eq]
    constructor
    · rintro ⟨hother, hlisted⟩
      have hafter : startAfter.all (decide <| · < other) = true := by
        cases startAfter with
        | none => rfl
        | some cursor => exact decide_eq_true ((of_decide_eq_true hid).trans hother)
      rcases mem_append.mp ((hmem other).mpr ⟨hafter, hlisted⟩) with hearlier | hlater
      · exact absurd (hbefore other hearlier id mem_cons_self) hother.asymm
      · exact (mem_cons.mp hlater).resolve_left hother.ne'
    · exact fun hother => ⟨habove other hother, ((hmem other).mp (mem_append_right _ (mem_cons_of_mem _ hother))).2⟩
  · intro startAfter chunkLimit
    rw [scan_eq h, visitAll_collect]
    rfl

/-- The edge 3 leads to a node that its memtable has deleted: it is visible at node 1, but not scanned there. -/
theorem visible_edge_not_scanned :
    (scanEdgeIdsByEndpointsAfter (ε := Empty) datedSources [1] .outgoing none none 5 collect []).toOption = some [1, 2] ∧
      (datedSources.base.findEdge 3).any (endpointMatches [1] .outgoing) = true := by
  refine ⟨?_, ?_⟩ <;> decide +kernel

theorem endpoint_scan_resumable_dated : ∃ scan, Enumerates datedSources [1] .both (some [1]) scan :=
  endpoint_scan_resumable (layered_cutSources timeEncoders datedIndexes (by decide) _) [1] .both (some [1])

end

end OverGraph.EndpointScans
