import OverGraph.AdjacencyCells
import OverGraph.NewestClaims

/-!
# The lookup and the scan of a triple

The lookup of a triple follows the triple indexes, which name one edge of a layer for each triple. The
scan goes through all edges of a layer with the triple and drops those that a newer layer knows. The
scan finds the visible edges with the triple, whatever the cut of the history. The lookup finds one of
them as long as no write takes the named edge away without another one to name, and no flush makes the
search of a segment hit an edge that is gone by then.
-/

namespace OverGraph.TripleLookups
open Option hiding any_eq_true any_map map_map mem_map or_assoc
open Records LayeredWrites GraphView Memtable MemtableState Segments Segment Sources Bisection NewestClaims Cuts AdjacencyCells List Layering
open SnapshotReads (visibleEntries)
open SourceList (tripleLayer segmentTripleLayer)

abbrev TripleLayer := IndexedLayer ℕ (ℕ × ℕ × ℕ) EdgeRecord

variable {edge : EdgeRecord}

section
variable {m : MemtableState} {op : SeqOp} {id : ℕ} {val : Option EdgeRecord} {t : ℕ × ℕ × ℕ}

/-- A write names its own edge, or leaves the name of another one. -/
theorem claim_after (hnames : Names (·.id) HasTriple (tripleLayer m)) (hop : edgeWrites op = [(id, val)]) {i : ℕ}
    (h : (m.applyOp op).currentEdgeTripleId t = some i) :
    (i = id ∧ ∃ edge, val = some edge ∧ HasTriple t edge) ∨ (i ≠ id ∧ m.currentEdgeTripleId t = some i) := by
  -- an edge that is named is live under the triple, so the withdrawal finds it
  have hlive : ∀ j, m.currentEdgeTripleId t = some j → ∃ old, m.currentEdge j = some old ∧ old.triple = t ∧ old.id = j := by
    intro j hj
    obtain ⟨old, hold, htri⟩ := hnames.named t j hj
    exact ⟨old, by rw [currentEdge_eq]; exact congrArg Option.join hold, htri, hnames.ids j old hold⟩
  obtain ⟨q, op⟩ := op
  cases op with
  | upsertEdge edge =>
    obtain ⟨rfl, rfl⟩ := Prod.mk.inj (List.cons.inj hop).1
    rw [applyOp, currentEdgeTripleId_upsertEdge] at h
    by_cases hi : i = edge.id
    · subst hi
      refine .inl ⟨rfl, _, rfl, ?_⟩
      by_contra htri
      rw [if_neg fun heq => htri heq.symm] at h
      split at h
      · cases h
      · rename_i hkept
        obtain ⟨old, hold, htriple', hid⟩ := hlive _ h
        exact hkept (by simp [hold, htriple', hid, h])
    · refine .inr ⟨hi, ?_⟩
      split at h
      · split at h
        · exact absurd (some.inj h).symm hi
        · exact h
      · split at h
        · cases h
        · exact h
  | deleteEdge j deletedAt =>
    obtain ⟨rfl, rfl⟩ := Prod.mk.inj (List.cons.inj hop).1
    rw [applyOp, currentEdgeTripleId_deleteEdge] at h
    split at h
    · cases h
    · rename_i hkept
      refine .inr ⟨?_, h⟩
      rintro rfl
      obtain ⟨old, hold, htri, -⟩ := hlive _ h
      exact hkept (by simp [hold, htri, h])
  | upsertNode node | deleteNode j deletedAt | _ => cases hop

/-- A write under a triple leaves some edge named. -/
theorem claim_taken (hop : edgeWrites op = [(id, val)]) (hval : val = some edge)
    (htri : HasTriple t edge) : ∃ i, (m.applyOp op).currentEdgeTripleId t = some i := by
  obtain ⟨q, op⟩ := op
  cases op with
  | upsertEdge written =>
    obtain ⟨rfl, rfl⟩ := Prod.mk.inj (List.cons.inj hop).1
    obtain rfl := some.inj hval
    have ht : t = written.triple := htri.symm
    rw [applyOp, currentEdgeTripleId_upsertEdge, if_pos ht]
    split
    · exact ⟨written.id, rfl⟩
    · rename_i hshould
      cases hclaim : m.currentEdgeTripleId t with
      | some i => exact ⟨i, rfl⟩
      | none =>
        refine absurd ?_ hshould
        rw [hclaim]
        cases hold : m.currentEdge written.id with
        | none => rfl
        | some old => simp [shouldUpdateTriple]
  | deleteEdge j deletedAt =>
    obtain ⟨rfl, rfl⟩ := Prod.mk.inj (List.cons.inj hop).1
    cases hval
  | upsertNode node | deleteNode j deletedAt | _ => cases hop

/-- The name of another edge is not withdrawn, though it may be taken over. -/
theorem claim_kept (hids : ∀ j old, m.currentEdge j = some old → old.id = j) (hop : edgeWrites op = [(id, val)]) {i : ℕ}
    (hclaim : m.currentEdgeTripleId t = some i) (hi : i ≠ id) : ∃ j, (m.applyOp op).currentEdgeTripleId t = some j := by
  obtain ⟨q, op⟩ := op
  cases op with
  | upsertEdge edge =>
    obtain ⟨rfl, rfl⟩ := Prod.mk.inj (List.cons.inj hop).1
    rw [applyOp, currentEdgeTripleId_upsertEdge, hclaim]
    split
    · split
      · exact ⟨edge.id, rfl⟩
      · exact ⟨i, rfl⟩
    · split
      · rename_i hwdr
        obtain ⟨old, hold, hcond⟩ := (Option.any_eq_true _ _).mp hwdr
        have hsame := (of_decide_eq_true hcond).2
        rw [hids _ _ hold, some.injEq] at hsame
        exact absurd hsame hi
      · exact ⟨i, rfl⟩
  | deleteEdge j deletedAt =>
    obtain ⟨rfl, rfl⟩ := Prod.mk.inj (List.cons.inj hop).1
    rw [applyOp, currentEdgeTripleId_deleteEdge, hclaim]
    split
    · rename_i hwdr
      obtain ⟨old, -, hcond⟩ := (Option.any_eq_true _ _).mp hwdr
      exact absurd (some.inj (of_decide_eq_true hcond).2) hi
    · exact ⟨i, rfl⟩
  | upsertNode node | deleteNode j deletedAt | _ => cases hop

theorem edgeOpinion_write (hop : edgeWrites op = [(id, val)]) (i : ℕ) :
    (m.applyOp op).edgeOpinion i = if i = id then some val else m.edgeOpinion i := by
  rw [edgeOpinion_applyOp, hop]
  by_cases hi : i = id
  · subst hi
    simp [lastWrite]
  · simp [lastWrite, hi, Ne.symm hi]

theorem edgeWrites_cases (op : SeqOp) : edgeWrites op = [] ∨ ∃ id val, edgeWrites op = [(id, val)] := by
  obtain ⟨q, op⟩ := op
  cases op <;> simp [edgeWrites]

theorem edgeOpinion_of_silent (hop : edgeWrites op = []) : (m.applyOp op).edgeOpinion = m.edgeOpinion := by
  funext i
  rw [edgeOpinion_applyOp, hop]
  rfl

theorem tripleLayer_of_silent (hop : edgeWrites op = []) : tripleLayer (m.applyOp op) = tripleLayer m := by
  rw [tripleLayer, tripleLayer, edgeOpinion_of_silent hop]
  congr 1
  exact funext (currentEdgeTripleId_of_silent hop)

end

theorem names_tripleLayer (ops : List SeqOp) : Names (·.id) HasTriple (tripleLayer (ofOps ops)) := by
  have hids : ∀ ops i edge, (tripleLayer (ofOps ops)).opinion i = some (some edge) → edge.id = i := by
    intro ops i edge h
    rw [tripleLayer, edgeOpinion_ofOps] at h
    exact edgeLog_id h
  induction ops using List.reverseRecOn with
  | nil =>
    refine ⟨?_, hids []⟩
    intro t id h
    cases h
  | append_singleton ops op ih =>
    refine ⟨?_, hids _⟩
    rw [ofOps_concat]
    rcases edgeWrites_cases op with hop | ⟨id, val, hop⟩
    · rw [tripleLayer_of_silent hop]
      exact ih.named
    · intro t i h
      rcases claim_after ih hop h with ⟨rfl, edge, rfl, htri⟩ | ⟨hi, hclaim⟩
      · exact ⟨edge, (edgeOpinion_write hop i).trans (if_pos rfl), htri⟩
      · obtain ⟨edge, hedge, htri⟩ := ih.named t i hclaim
        exact ⟨edge, ((edgeOpinion_write hop i).trans (if_neg hi)).trans hedge, htri⟩

variable {id : ℕ}

theorem written_tripleLayer (ops : List SeqOp) {op : SeqOp} {val : Option EdgeRecord}
    (hop : edgeWrites op = [(id, val)]) :
    Written HasTriple (tripleLayer (ofOps ops)) (tripleLayer (ofOps (ops ++ [op]))) id val := by
  have hnames := names_tripleLayer ops
  rw [ofOps_concat]
  constructor
  case opinion => exact edgeOpinion_write hop
  case keeps =>
    intro t i hclaim hi
    refine claim_kept ?_ hop hclaim hi
    intro j old hold
    rw [currentEdge_eq, join_eq_some_iff] at hold
    exact hnames.ids j old hold
  case takes =>
    intro t edge hval htri
    exact claim_taken hop hval htri
  case drops =>
    intro t hclaims hnot
    cases hclaim : (tripleLayer ((ofOps ops).applyOp op)).claim t with
    | none => rfl
    | some i =>
      rcases claim_after hnames hop hclaim with ⟨-, edge, hval, htri⟩ | ⟨hi, hold⟩
      · exact absurd htri (hnot edge hval)
      · exact absurd (hclaims i hold) hi

section
variable (ops : List SeqOp)

theorem opinion_flushed : (segmentTripleLayer (writeSegment (ofOps ops))).opinion = (tripleLayer (ofOps ops)).opinion :=
  funext (edgeOpinion_writeSegment (tombstonesAgree_ofOps ops))

theorem held_flushed :
    (writeSegment (ofOps ops)).edges.lookup id = some edge ↔ (tripleLayer (ofOps ops)).opinion id = some (some edge) := by
  rw [show (writeSegment (ofOps ops)).edges = (ofOps ops).liveEdges from rfl, lookup_liveEdges, currentEdge_eq, join_eq_some_iff]
  rfl

theorem names_flushed : Names (·.id) HasTriple (segmentTripleLayer (writeSegment (ofOps ops))) where
  named t id h := by
    obtain ⟨edge, hedge, htri⟩ := edgeIdByTriple_some h
    rw [opinion_flushed]
    exact ⟨edge, (held_flushed ops).mp hedge, htri⟩
  ids id edge h := by
    rw [opinion_flushed] at h
    exact (names_tripleLayer ops).ids id edge h

/-- The search of a segment finds an edge wherever the segment has one. -/
theorem claimed_flushed {t : ℕ × ℕ × ℕ}
    (hedge : (segmentTripleLayer (writeSegment (ofOps ops))).opinion id = some (some edge)) (htri : HasTriple t edge) :
    claimed (segmentTripleLayer (writeSegment (ofOps ops))) t ≠ none := by
  rw [opinion_flushed] at hedge
  cases hfnd : (writeSegment (ofOps ops)).edgeIdByTriple t with
  | none => exact absurd htri (edgeIdByTriple_none hfnd ((held_flushed ops).mpr hedge))
  | some i =>
    obtain ⟨found, hclm, -⟩ := (names_flushed ops).claimed_of_claim hfnd
    rw [hclm]
    exact some_ne_none found

end

variable {m : MemtableState}

section
variable {sl : SourceList}

theorem deletes_tripleLayer (hwf : sl.WellFormed) (hm : m ∈ sl.active :: sl.immutable) (id : ℕ) :
    m.isEdgeDeletedAt id sl.snapshotSeq = deletes (tripleLayer m) id := by
  rw [(hwf.settled m hm).isEdgeDeletedAt, Bool.eq_iff_iff, deletes_eq_true_iff]
  exact (hwf.tombstones m hm).edges id

theorem deletes_segmentTripleLayer (seg : Segment) (id : ℕ) : seg.isEdgeDeleted id = deletes (segmentTripleLayer seg) id := by
  rw [Bool.eq_iff_iff, deletes_eq_true_iff]
  cases hdel : seg.isEdgeDeleted id with
  | true => simp [segmentTripleLayer, Segment.edgeOpinion, hdel]
  | false => cases hget : seg.getEdge id <;> simp [segmentTripleLayer, Segment.edgeOpinion, hdel, hget]

theorem edgeByTripleAt_claimed (hwf : sl.WellFormed) (hm : m ∈ sl.active :: sl.immutable)
    (t : ℕ × ℕ × ℕ) : m.edgeByTripleAt t sl.snapshotSeq = claimed (tripleLayer m) t := by
  rw [edgeByTripleAt, (hwf.settled m hm).edgeTripleSlotAt, claimed]
  change (m.currentEdgeTripleId t).bind _ = (m.currentEdgeTripleId t).bind _
  congr 1
  funext id
  rw [(hwf.settled m hm).getEdgeAt, currentEdge_eq]
  rfl

theorem edgeByTriple_claimed (seg : Segment) (t : ℕ × ℕ × ℕ) : seg.edgeByTriple t = claimed (segmentTripleLayer seg) t := by
  rw [Segment.edgeByTriple, claimed]
  change (seg.edgeIdByTriple t).bind _ = (seg.edgeIdByTriple t).bind _
  congr 1
  funext id
  change _ = (seg.edgeOpinion id).join
  rw [Segment.edgeOpinion]
  cases hdel : seg.isEdgeDeleted id with
  | true => simp [Segment.getEdge, hdel]
  | false => cases hget : seg.getEdge id <;> simp

theorem any_congr_of_mem {α : Type} {l : List α} {p q : α → Bool} (h : ∀ a ∈ l, p a = q a) : l.any p = l.any q := by
  rw [Bool.eq_iff_iff, any_eq_true, any_eq_true]
  exact exists_congr fun a => and_congr_right fun ha => by rw [h a ha]

theorem dead_immutable (hwf : sl.WellFormed) (j id : ℕ) (_ : j < sl.immutable.length) : sl.isEdgeTombstonedAboveImmutable id (0 + j) =
      ([tripleLayer sl.active] ++ (sl.immutable.take j).map tripleLayer).any (deletes · id) := by
  have hmems : ∀ m ∈ sl.immutable.take j, m.isEdgeDeletedAt id sl.snapshotSeq = deletes (tripleLayer m) id :=
    fun m hm => deletes_tripleLayer hwf (mem_cons_of_mem _ (mem_of_mem_take hm)) id
  rw [SourceList.isEdgeTombstonedAboveImmutable, Nat.zero_add, deletes_tripleLayer hwf mem_cons_self,
    singleton_append, any_cons, any_map, any_congr_of_mem hmems]
  rfl

theorem dead_segment (hwf : sl.WellFormed) (j id : ℕ) (_ : j < sl.segments.length) : sl.isEdgeTombstonedAboveSegment id (0 + j) =
      (([tripleLayer sl.active] ++ sl.immutable.map tripleLayer) ++ (sl.segments.take j).map segmentTripleLayer).any
        (deletes · id) := by
  have hmems : ∀ m ∈ sl.immutable, m.isEdgeDeletedAt id sl.snapshotSeq = deletes (tripleLayer m) id :=
    fun m hm => deletes_tripleLayer hwf (mem_cons_of_mem _ hm) id
  rw [SourceList.isEdgeTombstonedAboveSegment, Nat.zero_add, deletes_tripleLayer hwf mem_cons_self,
    any_congr_of_mem hmems, any_append, any_append, any_cons, any_nil, Bool.or_false,
    any_map, any_map]
  congr 1
  exact any_congr_of_mem fun seg _ => deletes_segmentTripleLayer seg id

/-- The lookup takes the newest edge named under the triple, unless it is deleted above. -/
theorem findEdgeByTriple_eq (hwf : sl.WellFormed) (t : ℕ × ℕ × ℕ) : sl.findEdgeByTriple t = answer (·.id) sl.tripleLayers t := by
  rw [SourceList.findEdgeByTriple, edgeByTripleAt_claimed hwf mem_cons_self, SourceList.tripleLayers, map_cons, cons_append]
  cases hact : claimed (tripleLayer sl.active) t with
  | some edge => rw [answer_of_claimed hact]
  | none =>
    rw [answer_of_unclaimed hact]
    let above : List TripleLayer := [tripleLayer sl.active]
    have hsegs := @findSome?_walk ℕ (ℕ × ℕ × ℕ) EdgeRecord (·.id) Segment segmentTripleLayer
      (fun j id => sl.isEdgeTombstonedAboveSegment id j) t [] none sl.segments (above ++ sl.immutable.map tripleLayer) 0
      (dead_segment hwf) rfl
    have himm := @findSome?_walk ℕ (ℕ × ℕ × ℕ) EdgeRecord (·.id) MemtableState tripleLayer
      (fun j id => sl.isEdgeTombstonedAboveImmutable id j) t (sl.segments.map segmentTripleLayer)
      (sl.segments.zipIdx.findSome? fun seg => (claimed (segmentTripleLayer seg.1) t).map fun edge =>
        if sl.isEdgeTombstonedAboveSegment edge.id seg.2 then none else some edge)
      sl.immutable above 0 (dead_immutable hwf) (by rw [or_none, append_nil] at hsegs; exact hsegs)
    have hpass : (fun edge : EdgeRecord => !above.any (deletes · edge.id)) = fun edge => !deletes (tripleLayer sl.active) edge.id := by
      funext edge
      rw [any_cons, any_nil, Bool.or_false]
    rw [← hpass, ← himm]
    dsimp only
    congr 2
    · refine SourceList.findSome?_congr fun epoch hepoch => ?_
      rw [edgeByTripleAt_claimed hwf (mem_cons_of_mem _ (fst_mem_of_mem_zipIdx hepoch))]
    · refine SourceList.findSome?_congr fun seg _ => ?_
      rw [edgeByTriple_claimed]

end

inductive EdgeVisibilityState where
  | live
  | deleted
  | missing
  deriving DecidableEq

def edgeVisibilityStateAt (m : MemtableState) (id s : ℕ) : EdgeVisibilityState :=
  match m.edgeStateAt id s with
  | some (.live _) => .live
  | some (.tombstone _) => .deleted
  | none => if m.isEdgeDeletedAt id s then .deleted else .missing

def edgeIdsByTripleAt (m : MemtableState) (t : ℕ × ℕ × ℕ) (s : ℕ) : List ℕ :=
  (((visibleEntries m.adjOut s).filter fun entry =>
    decide (entry.1.1 = t.1) && (decide (entry.2.neighborId = t.2.1) && decide (entry.2.labelId = t.2.2))).map
      fun entry => entry.1.2).insertionSort (· ≤ ·)

def hasEdge (seg : Segment) (id : ℕ) : Bool := (seg.edges.lookup id).isSome

/-- The entries from the first one with the triple on, without the deleted edges. -/
def segmentEdgeIdsByTriple (seg : Segment) (t : ℕ × ℕ × ℕ) : List ℕ :=
  ((((equalRun (tripleSide t) seg.edgeTripleIndex).map (·.2)).filter fun id => !seg.isEdgeDeleted id).insertionSort
    (· ≤ ·)).dedup

def appendEdgeMatches (res matchingIds : List ℕ) : List ℕ := res ++ (matchingIds.insertionSort (· ≤ ·)).dedup

def appendEdgeMatchesFiltered (isShadowed : ℕ → Bool) (res matchingIds : List ℕ) : List ℕ :=
  appendEdgeMatches res (matchingIds.filter fun id => !isShadowed id)

section
variable (sl : SourceList)

def isEdgeKnownAt (id : ℕ) (m : MemtableState) : Bool := decide (edgeVisibilityStateAt m id sl.snapshotSeq ≠ .missing)

def isEdgeShadowedAboveImmutable (edgeId immIdx : ℕ) : Bool :=
  isEdgeKnownAt sl edgeId sl.active || (sl.immutable.take immIdx).any (isEdgeKnownAt sl edgeId)

def isEdgeShadowedAboveSegment (edgeId segIdx : ℕ) : Bool :=
  isEdgeKnownAt sl edgeId sl.active || sl.immutable.any (isEdgeKnownAt sl edgeId) ||
    (sl.segments.take segIdx).any fun seg => hasEdge seg edgeId || seg.isEdgeDeleted edgeId

def edgeIdsByTriple (t : ℕ × ℕ × ℕ) : List ℕ :=
  let res := appendEdgeMatches [] (edgeIdsByTripleAt sl.active t sl.snapshotSeq)
  let res := sl.immutable.zipIdx.foldl (fun res epoch =>
    appendEdgeMatchesFiltered (isEdgeShadowedAboveImmutable sl · epoch.2) res
      (edgeIdsByTripleAt epoch.1 t sl.snapshotSeq)) res
  let res := sl.segments.zipIdx.foldl (fun res seg =>
    appendEdgeMatchesFiltered (isEdgeShadowedAboveSegment sl · seg.2) res (segmentEdgeIdsByTriple seg.1 t)) res
  (res.insertionSort (· ≤ ·)).dedup

end

theorem mem_sorted {l : List ℕ} : id ∈ (l.insertionSort (· ≤ ·)).dedup ↔ id ∈ l := by
  rw [mem_dedup, (perm_insertionSort _ l).mem_iff]

theorem mem_foldl_append {σ : Type} {idsOf : σ → List ℕ} {shadowed : σ → ℕ → Bool} {xs : List σ} {res : List ℕ} :
    id ∈ xs.foldl (fun res x => appendEdgeMatchesFiltered (shadowed x) res (idsOf x)) res ↔
      id ∈ res ∨ ∃ x ∈ xs, id ∈ idsOf x ∧ shadowed x id = false := by
  induction xs generalizing res with
  | nil => simp
  | cons x xs ih =>
    rw [foldl_cons, ih, appendEdgeMatchesFiltered, appendEdgeMatches, mem_append, mem_sorted, mem_filter,
      exists_mem_cons_iff, or_assoc, Bool.not_eq_true']

section
variable {ops : List SeqOp} {s : ℕ} {t : ℕ × ℕ × ℕ} {id : ℕ}

theorem mem_edgeIdsByTripleAt (h : ∀ op ∈ ops, op.1 ≤ s) : id ∈ edgeIdsByTripleAt (ofOps ops) t s ↔
      ∃ edge, (tripleLayer (ofOps ops)).opinion id = some (some edge) ∧ HasTriple t edge := by
  rw [edgeIdsByTripleAt, (perm_insertionSort _ _).mem_iff, mem_map]
  constructor
  · rintro ⟨⟨⟨owner, member⟩, entry⟩, hent, rfl⟩
    obtain ⟨hvis, hcond⟩ := mem_filter.mp hent
    obtain ⟨edge, hedge, rfl, rfl⟩ := (mem_adjOut h).mp hvis
    rw [Bool.and_eq_true, Bool.and_eq_true, decide_eq_true_eq, decide_eq_true_eq, decide_eq_true_eq] at hcond
    refine ⟨edge, ?_, Prod.ext hcond.1 (Prod.ext hcond.2.1 hcond.2.2)⟩
    rw [edgesAfter, join_eq_some_iff] at hedge
    rw [tripleLayer, edgeOpinion_ofOps]
    exact hedge
  · rintro ⟨edge, hedge, htri⟩
    refine ⟨((edge.source, id), adjEntry edge edge.target), mem_filter.mpr ⟨(mem_adjOut h).mpr ⟨edge, ?_, rfl, rfl⟩, ?_⟩, rfl⟩
    · rw [tripleLayer, edgeOpinion_ofOps] at hedge
      rw [edgesAfter, join_eq_some_iff]
      exact hedge
    · have ht : edge.triple = t := htri
      subst ht
      simp [EdgeRecord.triple, adjEntry]

theorem mem_segmentEdgeIdsByTriple : id ∈ segmentEdgeIdsByTriple (writeSegment (ofOps ops)) t ↔
      ∃ edge, (segmentTripleLayer (writeSegment (ofOps ops))).opinion id = some (some edge) ∧ HasTriple t edge := by
  rw [segmentEdgeIdsByTriple, mem_sorted, mem_filter, mem_map, opinion_flushed]
  constructor
  · rintro ⟨⟨entry, hent, rfl⟩, -⟩
    obtain ⟨hmem, hside⟩ := (mem_equalRun (ordered_edgeTripleIndex _ t)).mp hent
    obtain ⟨edge, hedge, htri⟩ := (mem_edgeTripleIndex entry).mp hmem
    exact ⟨edge, (held_flushed ops).mp hedge, htri.trans ((tripleSide_eq_iff entry).mp hside)⟩
  · rintro ⟨edge, hedge, htri⟩
    refine ⟨⟨(t, id), (mem_equalRun (ordered_edgeTripleIndex _ t)).mpr ⟨?_, (tripleSide_eq_iff _).mpr rfl⟩, rfl⟩, ?_⟩
    · exact (mem_edgeTripleIndex _).mpr ⟨edge, (held_flushed ops).mpr hedge, htri⟩
    · rw [isEdgeDeleted_writeSegment (tombstonesAgree_ofOps ops), Bool.not_eq_true', ← Bool.not_eq_true, (tombstonesAgree_ofOps ops).edges]
      intro hdel
      have hop : (ofOps ops).edgeOpinion id = some (some edge) := hedge
      rw [hdel] at hop
      cases hop

theorem isEdgeKnownAt_eq {sl : SourceList} (hwf : sl.WellFormed) (hm : m ∈ sl.active :: sl.immutable) :
    isEdgeKnownAt sl id m = knows (tripleLayer m) id := by
  rw [isEdgeKnownAt, edgeVisibilityStateAt, (hwf.settled m hm).edgeStateAt, (hwf.settled m hm).isEdgeDeletedAt, knows]
  have hagree := (hwf.tombstones m hm).edges id
  change _ = (m.edgeOpinion id).isSome
  rw [MemtableState.edgeOpinion] at hagree ⊢
  cases hhead : VersionedSlots.headAt m.edges id with
  | none =>
    rw [hhead] at hagree
    have hdel : m.edgeDeleted id = false := Bool.eq_false_iff.mpr fun h => absurd (hagree.mp h) (by simp)
    simp [hdel]
  | some state => cases state <;> simp

theorem hasEdge_or_deleted (ops : List SeqOp) (id : ℕ) :
    (hasEdge (writeSegment (ofOps ops)) id || (writeSegment (ofOps ops)).isEdgeDeleted id) =
      knows (segmentTripleLayer (writeSegment (ofOps ops))) id := by
  change _ = ((writeSegment (ofOps ops)).edgeOpinion id).isSome
  rw [hasEdge, Segment.edgeOpinion]
  cases hdel : (writeSegment (ofOps ops)).isEdgeDeleted id with
  | true => simp
  | false => simp [Segment.getEdge, hdel]

end

theorem shadowed_immutable (L : Layering) (id j : ℕ) (_ : j < L.sources.immutable.length) :
    isEdgeShadowedAboveImmutable L.sources id (0 + j) =
      ([tripleLayer L.sources.active] ++ (L.sources.immutable.take j).map tripleLayer).any (knows · id) := by
  rw [isEdgeShadowedAboveImmutable, Nat.zero_add, isEdgeKnownAt_eq L.wellFormed mem_cons_self, singleton_append, any_cons, any_map]
  congr 1
  exact any_congr_of_mem fun m hm => isEdgeKnownAt_eq L.wellFormed (mem_cons_of_mem _ (mem_of_mem_take hm))

theorem shadowed_segment (L : Layering) (id j : ℕ) (_ : j < L.sources.segments.length) :
    isEdgeShadowedAboveSegment L.sources id (0 + j) = (([tripleLayer L.sources.active] ++ L.sources.immutable.map tripleLayer) ++
        (L.sources.segments.take j).map segmentTripleLayer).any (knows · id) := by
  rw [isEdgeShadowedAboveSegment, Nat.zero_add, isEdgeKnownAt_eq L.wellFormed mem_cons_self, any_append,
    any_append, any_cons, any_nil, Bool.or_false, any_map, any_map]
  congr 1
  · congr 1
    exact any_congr_of_mem fun m hm => isEdgeKnownAt_eq L.wellFormed (mem_cons_of_mem _ hm)
  · refine any_congr_of_mem fun seg hseg => ?_
    obtain ⟨ops, -, rfl⟩ := mem_map.mp (mem_of_mem_take hseg)
    exact hasEdge_or_deleted ops id

theorem mem_edgeIdsByTriple (L : Layering) (t : ℕ × ℕ × ℕ) (id : ℕ) :
    id ∈ edgeIdsByTriple L.sources t ↔ ∃ edge, edgesAfter L.history id = some edge ∧ HasTriple t edge := by
  have hsegs := @exists_walk ℕ (ℕ × ℕ × ℕ) EdgeRecord Segment segmentTripleLayer
    (fun j => isEdgeShadowedAboveSegment L.sources id j) id (HasTriple t) [] False L.sources.segments
    ([tripleLayer L.sources.active] ++ L.sources.immutable.map tripleLayer) 0 (shadowed_segment L id)
    (by simp [view, visible])
  rw [append_nil] at hsegs
  have himm := @exists_walk ℕ (ℕ × ℕ × ℕ) EdgeRecord MemtableState tripleLayer
    (fun j => isEdgeShadowedAboveImmutable L.sources id j) id (HasTriple t) (L.sources.segments.map segmentTripleLayer)
    _ L.sources.immutable [tripleLayer L.sources.active] 0 (shadowed_immutable L id) hsegs
  have hact := @exists_walk ℕ (ℕ × ℕ × ℕ) EdgeRecord MemtableState tripleLayer (fun _ => false) id (HasTriple t)
    (L.sources.immutable.map tripleLayer ++ L.sources.segments.map segmentTripleLayer) _ [L.sources.active] [] 0
    (fun j hj => by
      obtain rfl : j = 0 := by simpa using hj
      rfl) himm
  have hview : view L.sources.tripleLayers id = edgesAfter L.history id := by
    rw [view, SourceList.tripleLayers_opinion, visible_edges]
  have hseq : ∀ ops ∈ L.chunks, ∀ op ∈ ops, op.1 ≤ lastSeq L.history := fun ops hops op hop => le_lastSeq (mem_history hops hop)
  have hinActive : id ∈ appendEdgeMatches [] (edgeIdsByTripleAt L.sources.active t L.sources.snapshotSeq) ↔
      ∃ edge, (tripleLayer L.sources.active).opinion id = some (some edge) ∧ HasTriple t edge := by
    rw [appendEdgeMatches, nil_append, mem_sorted]
    exact mem_edgeIdsByTripleAt (hseq L.active mem_cons_self)
  have hinImmutable : ∀ epoch ∈ L.sources.immutable.zipIdx, (id ∈ edgeIdsByTripleAt epoch.1 t L.sources.snapshotSeq ↔
      ∃ edge, (tripleLayer epoch.1).opinion id = some (some edge) ∧ HasTriple t edge) := by
    intro epoch hepoch
    obtain ⟨ops, hops, hofOps⟩ := mem_map.mp (fst_mem_of_mem_zipIdx hepoch)
    rw [← hofOps]
    exact mem_edgeIdsByTripleAt (hseq ops (mem_cons_of_mem _ (mem_append_left _ hops)))
  have hinSegment : ∀ seg ∈ L.sources.segments.zipIdx, (id ∈ segmentEdgeIdsByTriple seg.1 t ↔
      ∃ edge, (segmentTripleLayer seg.1).opinion id = some (some edge) ∧ HasTriple t edge) := by
    intro seg hseg
    obtain ⟨ops, -, hofOps⟩ := mem_map.mp (fst_mem_of_mem_zipIdx hseg)
    rw [← hofOps]
    exact mem_segmentEdgeIdsByTriple
  rw [edgeIdsByTriple, mem_sorted, mem_foldl_append, mem_foldl_append, hinActive, or_assoc,
    exists_congr fun epoch => and_congr_right fun hepoch => and_congr_left' (hinImmutable epoch hepoch),
    exists_congr fun seg => and_congr_right fun hseg => and_congr_left' (hinSegment seg hseg), ← hview]
  rw [or_false] at hact
  refine Iff.trans ?_ (hact.trans ?_)
  · simp
  · rw [any_nil, eq_self_iff_true, true_and]
    rfl

/-- The steps that change the layers: an operation on the active memtable, its freezing, and the flush of
the oldest immutable memtable. -/
inductive Event where
  | write (op : SeqOp)
  | freeze
  | flush

def step (L : Layering) : Event → Option Layering
  | .write op => some { L with active := L.active ++ [op] }
  | .freeze => some ⟨[], L.active :: L.immutable, L.segments⟩
  | .flush => L.immutable.getLast?.map fun oldest => { L with immutable := L.immutable.dropLast, segments := oldest :: L.segments }

def memtableLayers (chunks : List (List SeqOp)) : List TripleLayer := chunks.map fun ops => tripleLayer (ofOps ops)

def segmentLayers (chunks : List (List SeqOp)) : List TripleLayer := chunks.map fun ops => segmentTripleLayer (writeSegment (ofOps ops))

theorem tripleLayers_eq (L : Layering) : L.sources.tripleLayers =
    tripleLayer (ofOps L.active) :: (memtableLayers L.immutable ++ segmentLayers L.segments) := by
  rw [SourceList.tripleLayers, sources, map_cons, map_map, map_map]
  rfl

def RightLookups (L : Layering) : Prop := ∀ t, Right (·.id) HasTriple L.sources.tripleLayers t

/-- A write hands each triple that it takes away on to the layers below, and a flush makes no search hit an
edge that is gone. -/
def Harmless (L : Layering) : Event → Prop
  | .write op => ∀ id val, edgeWrites op = [(id, val)] → ∀ t,
    LeavesToOlder HasTriple (tripleLayer (ofOps L.active)) id val t →
      HandsOver (·.id) HasTriple (tripleLayer (ofOps L.active)) (memtableLayers L.immutable ++ segmentLayers L.segments)
        id val t
  | .freeze => True
  | .flush => ∀ oldest, L.immutable.getLast? = some oldest → ∀ t,
    LeadsOn (·.id) HasTriple (memtableLayers (L.active :: L.immutable.dropLast))
      (segmentTripleLayer (writeSegment (ofOps oldest))) (view L.sources.tripleLayers) t

variable {chunks : List (List SeqOp)}

theorem names_memtableLayers {lay : TripleLayer} (h : lay ∈ memtableLayers chunks) : Names (·.id) HasTriple lay := by
  obtain ⟨ops, -, rfl⟩ := mem_map.mp h
  exact names_tripleLayer ops

theorem names_segmentLayers {lay : TripleLayer} (h : lay ∈ segmentLayers chunks) : Names (·.id) HasTriple lay := by
  obtain ⟨ops, -, rfl⟩ := mem_map.mp h
  exact names_flushed ops

/-- The lookups stay right in exactly the harmless steps. -/
theorem rightLookups_step_iff {L L' : Layering} {e : Event} (hrt : RightLookups L) (hstep : step L e = some L') :
    RightLookups L' ↔ Harmless L e := by
  cases e with
  | write op =>
    obtain rfl := some.inj hstep
    rcases edgeWrites_cases op with hop | ⟨id, val, hop⟩
    · refine iff_of_true (fun t => ?_) fun id val hop' => by rw [hop] at hop'; cases hop'
      have h := hrt t
      rw [tripleLayers_eq] at h ⊢
      rw [ofOps_concat, tripleLayer_of_silent hop]
      exact h
    · have hiff : ∀ t, Right (·.id) HasTriple (sources { L with active := L.active ++ [op] }).tripleLayers t ↔
          (LeavesToOlder HasTriple (tripleLayer (ofOps L.active)) id val t → HandsOver (·.id) HasTriple (tripleLayer (ofOps L.active))
              (memtableLayers L.immutable ++ segmentLayers L.segments) id val t) := by
        intro t
        have h := hrt t
        rw [tripleLayers_eq] at h ⊢
        apply (written_tripleLayer L.active hop).right_iff (names_tripleLayer _) (names_tripleLayer _) _ h
        intro lay hlay
        rcases mem_append.mp hlay with hlay | hlay
        · exact names_memtableLayers hlay
        · exact names_segmentLayers hlay
      constructor
      · intro h id' value' hop' t
        obtain ⟨rfl, rfl⟩ := Prod.mk.inj (List.cons.inj (hop.symm.trans hop')).1
        exact (hiff t).mp (h t)
      · intro h t
        exact (hiff t).mpr (h id val hop t)
  | freeze =>
    obtain rfl := some.inj hstep
    refine iff_of_true (fun t => ?_) trivial
    have h := hrt t
    rw [tripleLayers_eq] at h ⊢
    exact (right_of_empty_iff (fun _ => rfl) rfl).mpr h
  | flush =>
    obtain ⟨oldest, holdest, rfl⟩ := map_eq_some_iff.mp hstep
    have himm : L.immutable = L.immutable.dropLast ++ [oldest] := (dropLast_append_getLast? oldest holdest).symm
    have hbef : L.sources.tripleLayers = memtableLayers (L.active :: L.immutable.dropLast) ++
        tripleLayer (ofOps oldest) :: segmentLayers L.segments := by
      rw [tripleLayers_eq]
      conv_lhs => rw [himm]
      simp [memtableLayers]
    have haft : (sources { L with immutable := L.immutable.dropLast, segments := oldest :: L.segments }).tripleLayers =
        memtableLayers (L.active :: L.immutable.dropLast) ++
          segmentTripleLayer (writeSegment (ofOps oldest)) :: segmentLayers L.segments := by
      rw [tripleLayers_eq]
      simp [memtableLayers, segmentLayers]
    have hiff : ∀ t, Right (·.id) HasTriple
          (sources { L with immutable := L.immutable.dropLast, segments := oldest :: L.segments }).tripleLayers t ↔
        LeadsOn (·.id) HasTriple (memtableLayers (L.active :: L.immutable.dropLast))
          (segmentTripleLayer (writeSegment (ofOps oldest))) (view L.sources.tripleLayers) t := by
      intro t
      have h := hrt t
      rw [hbef] at h ⊢
      rw [haft]
      exact right_reindexed_iff (opinion_flushed oldest) (names_tripleLayer oldest)
        (fun id edge hedge htri => claimed_flushed oldest hedge htri) h
    constructor
    · intro h oldest' holdest' t
      obtain rfl := some.inj (holdest.symm.trans holdest')
      exact (hiff t).mp (h t)
    · intro h t
      exact (hiff t).mpr (h oldest holdest t)

def emptyLayering : Layering := ⟨[], [], []⟩

/-- The layers after a run from the empty database whose steps are harmless. -/
structure Reached (L : Layering) (events : List Event) : Prop where
  harmless : Runs.Admits step Harmless emptyLayering events
  run : Runs.run step emptyLayering events = some L

variable {events : List Event} {L : Layering}

theorem Reached.rightLookups (h : Reached L events) : RightLookups L := by
  refine Runs.run_invariant (fun L e L' hrt hadmi hstep => (rightLookups_step_iff hrt hstep).mpr hadmi) ?_
    h.harmless h.run
  intro t i edge hedge
  rw [tripleLayers_eq] at hedge
  cases hedge

/-- A right lookup finds a visible edge with the triple if there is one, and nothing otherwise. -/
theorem find_isSome_iff (h : RightLookups L) (t : ℕ × ℕ × ℕ) :
    (∀ edge, L.sources.findEdgeByTriple t = some edge → edgesAfter L.history edge.id = some edge ∧ HasTriple t edge) ∧
    ((L.sources.findEdgeByTriple t).isSome ↔ ∃ id edge, edgesAfter L.history id = some edge ∧ HasTriple t edge) := by
  have hrt := h t
  have hview : view L.sources.tripleLayers = edgesAfter L.history := by
    funext id
    rw [view, SourceList.tripleLayers_opinion, visible_edges]
  have hnames : ∀ lay ∈ L.sources.tripleLayers, Names (·.id) HasTriple lay := by
    intro lay hlay
    rw [tripleLayers_eq] at hlay
    rcases mem_cons.mp hlay with rfl | hlay
    · exact names_tripleLayer L.active
    rcases mem_append.mp hlay with hlay | hlay
    · exact names_memtableLayers hlay
    · exact names_segmentLayers hlay
  rw [Right, hview, ← findEdgeByTriple_eq L.wellFormed] at hrt
  cases hfind : L.sources.findEdgeByTriple t with
  | none =>
    rw [hfind] at hrt
    constructor
    · rintro edge ⟨⟩
    · apply iff_of_false Bool.false_ne_true
      rintro ⟨id, edge, hedge, htri⟩
      exact hrt id edge hedge htri
  | some edge =>
    rw [hfind] at hrt
    have htri : HasTriple t edge := by
      rw [findEdgeByTriple_eq L.wellFormed] at hfind
      exact answer_carries hnames hfind
    refine ⟨fun edge' hedge' => ?_, iff_of_true rfl ⟨edge.id, edge, hrt, htri⟩⟩
    obtain rfl := some.inj hedge'
    exact ⟨hrt, htri⟩

theorem edgeIdsByTriple_ne_nil_iff (L : Layering) (t : ℕ × ℕ × ℕ) :
    edgeIdsByTriple L.sources t ≠ [] ↔ ∃ id edge, edgesAfter L.history id = some edge ∧ HasTriple t edge := by
  rw [← exists_congr (mem_edgeIdsByTriple L t)]
  constructor
  · exact exists_mem_of_ne_nil _
  · rintro ⟨id, hid⟩
    exact ne_nil_of_mem hid

/-- In every run of harmless steps the lookup of a triple returns a live edge with it exactly if the scan finds
one, and whether they do depends on the history alone, not on its cut. -/
theorem lookup_agrees_with_scan {L : Layering} {events : List Event} (h : Reached L events) (t : ℕ × ℕ × ℕ) :
    (∀ edge, L.sources.findEdgeByTriple t = some edge → edgesAfter L.history edge.id = some edge ∧ HasTriple t edge) ∧
    ((L.sources.findEdgeByTriple t).isSome ↔ edgeIdsByTriple L.sources t ≠ []) ∧
    ∀ L' : Layering, L'.history = L.history → (edgeIdsByTriple L'.sources t ≠ [] ↔ edgeIdsByTriple L.sources t ≠ []) ∧
      ∀ events', Reached L' events' → ((L'.sources.findEdgeByTriple t).isSome ↔ (L.sources.findEdgeByTriple t).isSome) := by
  obtain ⟨hfound, hsome⟩ := find_isSome_iff h.rightLookups t
  refine ⟨hfound, hsome.trans (edgeIdsByTriple_ne_nil_iff L t).symm, fun L' hhistory => ⟨?_, fun events' h' => ?_⟩⟩
  · rw [edgeIdsByTriple_ne_nil_iff, edgeIdsByTriple_ne_nil_iff, hhistory]
  · rw [(find_isSome_iff h'.rightLookups t).2, hsome, hhistory]

def parallelEdge (id : ℕ) : EdgeRecord := ⟨id, 1, 2, 3, ∅, 0, 0, 0, 0, 0, 0⟩

/-- The deletion of the named edge hides the other one from the lookup, not from the scan. -/
theorem other_edge_not_found :
    ¬∀ (L : Layering) (t : ℕ × ℕ × ℕ), (L.sources.findEdgeByTriple t).isSome ↔ edgeIdsByTriple L.sources t ≠ [] := by
  intro h
  have hagree := h ⟨[(1, .upsertEdge (parallelEdge 1)), (2, .upsertEdge (parallelEdge 2)), (3, .deleteEdge 2 0)], [], []⟩
    (1, 2, 3)
  exact absurd (hagree.mpr (by decide)) (by decide)

/-- Two edges with one triple, the older of which is deleted after the memtable is frozen. -/
def olderDeleted : List Event :=
  [.write (1, .upsertEdge (parallelEdge 1)), .write (2, .upsertEdge (parallelEdge 2)), .freeze, .write (3, .deleteEdge 1 0)]

def olderDeletedLayers : Layering := ⟨[(3, .deleteEdge 1 0)], [[(1, .upsertEdge (parallelEdge 1)), (2, .upsertEdge (parallelEdge 2))]], []⟩

theorem harmless_fresh {ops : List SeqOp} {op : SeqOp} (h : ∀ id val, edgeWrites op = [(id, val)] → edgesAfter ops id = none) :
    Harmless ⟨ops, [], []⟩ (.write op) := by
  intro id val hop t _
  refine ⟨fun ⟨w, hw, _⟩ => (nomatch hw), fun ⟨v, hv, _⟩ => ?_⟩
  have hview : view (tripleLayer (ofOps ops) :: (memtableLayers [] ++ segmentLayers [])) id = edgesAfter ops id := by
    rw [view_cons]
    change (((ofOps ops).edgeOpinion id).or none).join = _
    rw [or_none, edgeOpinion_ofOps]
    rfl
  rw [hview, h id val hop] at hv
  cases hv

theorem admits_cons {L L' : Layering} {e : Event} (hharm : Harmless L e) (hstep : step L e = some L')
    (hrest : Runs.Admits step Harmless L' events) : Runs.Admits step Harmless L (e :: events) := by
  refine ⟨hharm, fun L'' hL'' => ?_⟩
  obtain rfl := some.inj (hstep.symm.trans hL'')
  exact hrest

theorem reached_olderDeleted : Reached olderDeletedLayers olderDeleted := by
  refine ⟨?_, rfl⟩
  refine admits_cons (harmless_fresh fun _ _ _ => rfl) rfl (admits_cons (harmless_fresh ?_) rfl (admits_cons trivial rfl
    (admits_cons ?_ rfl trivial)))
  · intro id val hop
    obtain ⟨rfl, -⟩ := Prod.mk.inj (List.cons.inj hop).1
    rfl
  · -- the name of the younger edge takes over
    intro id val hop t _
    obtain ⟨rfl, rfl⟩ := Prod.mk.inj (List.cons.inj hop).1
    refine ⟨fun _ => rfl, fun ⟨v, hv, htri⟩ => ?_⟩
    obtain rfl := some.inj hv
    obtain rfl : (1, 2, 3) = t := htri
    change RightAnswer _ _ _ _ (some { parallelEdge 2 with lastWriteSeq := 2 })
    rfl

theorem lookup_agrees_with_scan_olderDeleted :
    (olderDeletedLayers.sources.findEdgeByTriple (1, 2, 3)).isSome ↔ edgeIdsByTriple olderDeletedLayers.sources (1, 2, 3) ≠ [] :=
  (lookup_agrees_with_scan reached_olderDeleted (1, 2, 3)).2.1

end OverGraph.TripleLookups
