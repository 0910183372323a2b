import OverGraph.Fallible
import OverGraph.RequiredSegments

/-!
# The rows of a required segment

Whatever the order of the edges, the start of the segment and the sources of the candidates,
the rows are those of all assignments of matching edges, in an allowed orientation, to the
edges of the pattern that agree with each other and with the row they extend.
-/

namespace OverGraph.RequiredSegments
open Except Bool
open Option hiding all_eq_true choice mem_map mem_map_of_mem
open Records Sources NodeFilters PrunePolicies EdgeCandidates JoinOrders Fallible List

section
variable {ρ : Type} (sl : SourceList) (pols : Option PrecomputedPruneCutoffs) (atEpoch : ℤ)
variable (nodeQuery : ℕ → NormalizedNodeQuery)

def nodeMatches (slot id : ℕ) : Bool := (sl.findNode id).any (nodeAccepted (nodeQuery slot) pols)

def slotCheck : SlotRef → ℕ → Bool
  | .node slot, id => nodeMatches sl pols nodeQuery slot id
  | .edge _, _ | .hidden _, _ => true

def edgeBindings (edge : RuntimeEdge) (chosen : OrientedEdge) : List (SlotRef × ℕ) :=
  (.node edge.fromSlot, chosen.logicalFrom) :: (.node edge.toSlot, chosen.logicalTo) ::
    ((edge.edgeSlot.map fun slot => (SlotRef.edge slot, chosen.id)).toList ++
      (edge.hiddenSlot.map fun slot => (SlotRef.hidden slot, chosen.id)).toList)

/-- The visible edges that match a pattern edge. -/
def edgeMatches (edge : RuntimeEdge) (id : ℕ) (r : EdgeRecord) : Bool :=
  (edge.candidateEdgeIds.isEmpty || edge.candidateEdgeIds.contains id) &&
    edgeAccepted sl pols edge.labelFilterIds edge.filter atEpoch r

def visibleEdgeIds : List ℕ := scanLayers (fun _ => true) (fun _ => false) (edgeScanLayers sl)

def matchingEdges (edge : RuntimeEdge) : List OrientedEdge :=
  (visibleEdgeIds sl).flatMap fun id => ((sl.findEdge id).filter (edgeMatches sl pols atEpoch edge id)).elim [] (orientedEdges edge id)

def enterBindings (row : GraphBindingRow ρ) (bs : List (SlotRef × ℕ)) : Option (GraphBindingRow ρ) :=
  if consistent (slotCheck sl pols nodeQuery) row.slots bs then
    some { row with slots := assigned row.slots bs }
  else none

def assignmentRows (edges : List RuntimeEdge) (row : GraphBindingRow ρ) : List (GraphBindingRow ρ) :=
  (choices (matchingEdges sl pols atEpoch) edges).filterMap fun choice =>
    enterBindings sl pols nodeQuery row (choiceBindings edgeBindings choice)

end

section
variable {ρ : Type} {sl : SourceList} {pols : Option PrecomputedPruneCutoffs} {atEpoch : ℤ}
variable {nodeQuery : ℕ → NormalizedNodeQuery}

theorem enterBindings_eq (row : GraphBindingRow ρ) (bs : List (SlotRef × ℕ)) : enterBindings sl pols nodeQuery row bs =
      (bindAll (slotCheck sl pols nodeQuery) row.slots bs).map fun slots => ⟨slots, row.rest⟩ := by
  rw [enterBindings, bindAll_eq]
  split <;> rfl

theorem enters_enterBindings : Enters (@enterBindings ρ sl pols nodeQuery) where
  nil row := by rw [enterBindings_eq]; rfl
  append row fst snd := by
    rw [enterBindings_eq, bindAll_append, enterBindings_eq]
    cases bindAll (slotCheck sl pols nodeQuery) row.slots fst with
    | none => rfl
    | some slots => rw [bind_some, map_some, bind_some, enterBindings_eq]
  perm row _ _ h := by rw [enterBindings_eq, enterBindings_eq, bindAll_perm _ _ h]

abbrev extensions (sl : SourceList) (pols : Option PrecomputedPruneCutoffs) (atEpoch : ℤ)
    (nodeQuery : ℕ → NormalizedNodeQuery) (edge : RuntimeEdge) (row : GraphBindingRow ρ) : List (GraphBindingRow ρ) :=
  extend (matchingEdges sl pols atEpoch) edgeBindings (enterBindings sl pols nodeQuery) edge row

abbrev extendedRows (sl : SourceList) (pols : Option PrecomputedPruneCutoffs) (atEpoch : ℤ)
    (nodeQuery : ℕ → NormalizedNodeQuery) (edges : List RuntimeEdge) (row : GraphBindingRow ρ) :
    List (GraphBindingRow ρ) :=
  extendAll (matchingEdges sl pols atEpoch) edgeBindings (enterBindings sl pols nodeQuery)
    edges row

theorem assignmentRows_eq (edges : List RuntimeEdge) (row : GraphBindingRow ρ) : assignmentRows sl pols atEpoch nodeQuery edges row =
      extendedRows sl pols atEpoch nodeQuery edges row := (extendAll_eq enters_enterBindings edges row).symm

theorem bindAll_anyValue (slots : SlotRef → SlotState ℕ) (bs : List (SlotRef × ℕ)) :
    bindAll (slotCheck sl pols nodeQuery) slots bs = if ∀ b ∈ bs, admits (slotCheck sl pols nodeQuery) slots b = true then
        bindAll anyValue slots bs
      else none := by
  have hany : ∀ b, admits (slotCheck sl pols nodeQuery) slots b = true → admits anyValue slots b = true := by
    intro b hadm
    rw [admits] at hadm ⊢
    cases hslot : slots b.1 with
    | unbound => rfl
    | null | bound existing => rw [hslot] at hadm; exact hadm
  rw [bindAll_eq, bindAll_eq]
  split
  · rename_i hcst
    obtain ⟨hadm, hagree⟩ := (consistent_iff _).mp hcst
    rw [if_pos hadm, if_pos ((consistent_iff _).mpr ⟨fun b hbind => hany b (hadm b hbind), hagree⟩)]
  · rename_i hinco
    split
    · rename_i hadm
      rw [if_neg]
      intro hcst
      exact hinco ((consistent_iff _).mpr ⟨hadm, ((consistent_iff _).mp hcst).2⟩)
    · rfl

theorem bindAll_edgeBindings (slots : SlotRef → SlotState ℕ) (edge : RuntimeEdge) (chosen : OrientedEdge) :
    bindAll anyValue slots (edgeBindings edge chosen) = (bindSlot anyValue slots (.node edge.fromSlot) chosen.logicalFrom).bind fun slots =>
        (bindSlot anyValue slots (.node edge.toSlot) chosen.logicalTo).bind fun slots =>
          (bindOptional slots (edge.edgeSlot.map .edge) chosen.id).bind fun slots =>
            bindOptional slots (edge.hiddenSlot.map .hidden) chosen.id := by
  rw [edgeBindings, bindAll]
  congr 1
  funext slots
  rw [bindAll]
  congr 1
  funext slots
  rw [bindAll_append]
  have hopt : ∀ (slots : SlotRef → SlotState ℕ) (slot : Option ℕ) (ref : ℕ → SlotRef),
      bindAll anyValue slots ((slot.map fun slot => (ref slot, chosen.id)).toList) = bindOptional slots (slot.map ref) chosen.id := by
    intro slots slot ref
    cases slot with
    | none => rfl
    | some slot =>
      rw [map_some, toList_some, bindAll, map_some, bindOptional]
      cases bindSlot anyValue slots (ref slot) chosen.id <;> rfl
  rw [hopt]
  congr 1
  funext slots
  rw [hopt]

variable {row : GraphBindingRow ρ}

/-- A candidate whose endpoint a slot does not admit extends nothing. -/
theorem enterBindings_none {bs : List (SlotRef × ℕ)} {b : SlotRef × ℕ}
    (hmem : b ∈ bs) (h : admits (slotCheck sl pols nodeQuery) row.slots b = false) :
    enterBindings sl pols nodeQuery row bs = none := by
  rw [enterBindings, if_neg]
  intro hcst
  have hadm := ((consistent_iff _).mp hcst).1 b hmem
  rw [h] at hadm
  cases hadm

variable {id slot : ℕ}

theorem nodeIdIfBound_eq_some :
    row.nodeIdIfBound slot = some id ↔ row.slots (.node slot) = .bound id := by
  rw [GraphBindingRow.nodeIdIfBound]
  cases row.slots (.node slot) <;> simp

/-- The endpoint of a candidate that passes the checks of a row is admitted by its slot, or the
slot is null. -/
theorem admits_of_checks {verified : List ℕ}
    (hbd : (row.nodeIdIfBound slot).any (fun other => decide (other ≠ id)) = false)
    (hver : ((row.nodeIdIfBound slot).isNone && !verified.contains id) = false)
    (hctn : verified.contains id = nodeMatches sl pols nodeQuery slot id) :
    admits (slotCheck sl pols nodeQuery) row.slots (.node slot, id) = true ∨ row.slots (.node slot) = .null := by
  rw [GraphBindingRow.nodeIdIfBound] at hbd hver
  rw [admits]
  cases hslot : row.slots (.node slot) with
  | unbound =>
    rw [hslot, hctn] at hver
    exact Or.inl (by simpa [slotCheck] using hver)
  | null => exact Or.inr rfl
  | bound existing =>
    rw [hslot] at hbd
    exact Or.inl (by simpa using hbd)

theorem admits_eq_false_of_check (h : (row.nodeIdIfBound slot).any (fun other => decide (other ≠ id)) = true ∨
      ((row.nodeIdIfBound slot).isNone = true ∧ nodeMatches sl pols nodeQuery slot id = false)) :
    admits (slotCheck sl pols nodeQuery) row.slots (.node slot, id) = false := by
  rw [GraphBindingRow.nodeIdIfBound] at h
  rw [admits]
  cases hslot : row.slots (.node slot) with
  | unbound =>
    rw [hslot] at h
    simpa [slotCheck] using h
  | null => rfl
  | bound existing =>
    rw [hslot] at h
    simpa using h

variable {nextRows : List (GraphBindingRow ρ)} {cs : List OrientedEdge}

section
variable {opts : GraphRowOptions} {edge : RuntimeEdge} {verifiedFrom verifiedTo : List ℕ}
variable {row : GraphBindingRow ρ} {chosen : OrientedEdge} {nextRows next : List (GraphBindingRow ρ)}

/-- Binding a candidate adds the row with its bindings entered, if they can be. -/
theorem pushBoundRow_ok (hok : pushBoundRow opts edge row chosen nextRows = .ok next) : next = nextRows ++
      ((bindAll anyValue row.slots (edgeBindings edge chosen)).map fun slots => ⟨slots, row.rest⟩).toList := by
  rw [bindAll_edgeBindings]
  rw [pushBoundRow] at hok
  split at hok
  · rename_i hfrom
    rw [hfrom, ← ok.inj hok]
    exact (append_nil _).symm
  rename_i slots hfrom
  split at hok
  · rename_i hto
    rw [hfrom, bind_some, hto, ← ok.inj hok]
    exact (append_nil _).symm
  rename_i slots hto
  split at hok
  · cases hok
  rename_i slots hrest
  rw [hfrom, bind_some, hto, bind_some, hrest]
  split at hok
  · cases hok
  · exact (ok.inj hok).symm

theorem enterBindings_of_checks
    (hbd : ((row.nodeIdIfBound edge.fromSlot).any (fun id => decide (id ≠ chosen.logicalFrom)) ||
      (row.nodeIdIfBound edge.toSlot).any (fun id => decide (id ≠ chosen.logicalTo))) = false)
    (hfrom : ((row.nodeIdIfBound edge.fromSlot).isNone && !verifiedFrom.contains chosen.logicalFrom) = false)
    (hto : ((row.nodeIdIfBound edge.toSlot).isNone && !verifiedTo.contains chosen.logicalTo) = false)
    (hcontainsFrom : verifiedFrom.contains chosen.logicalFrom = nodeMatches sl pols nodeQuery edge.fromSlot chosen.logicalFrom)
    (hcontainsTo : verifiedTo.contains chosen.logicalTo = nodeMatches sl pols nodeQuery edge.toSlot chosen.logicalTo) :
    enterBindings sl pols nodeQuery row (edgeBindings edge chosen) =
      (bindAll anyValue row.slots (edgeBindings edge chosen)).map fun slots => ⟨slots, row.rest⟩ := by
  rw [enterBindings_eq, bindAll_anyValue]
  split
  · rfl
  · rename_i hnot
    rw [bindAll_eq, if_neg]
    intro hcst
    have hadm := ((consistent_iff _).mp hcst).1
    obtain ⟨hboundFrom, hboundTo⟩ := Bool.or_eq_false_iff.mp hbd
    apply hnot
    intro b hbind
    have hany := hadm b hbind
    have hnull : row.slots b.1 ≠ .null := by
      intro hnull
      rw [admits, hnull] at hany
      cases hany
    rcases mem_cons.mp hbind with rfl | hbind
    · exact (admits_of_checks hboundFrom hfrom hcontainsFrom).resolve_right hnull
    rcases mem_cons.mp hbind with rfl | hbind
    · exact (admits_of_checks hboundTo hto hcontainsTo).resolve_right hnull
    rw [admits] at hany ⊢
    rcases mem_append.mp hbind with hbind | hbind
    · obtain ⟨slot, -, rfl⟩ := map_eq_some_iff.mp (mem_toList.mp hbind)
      exact hany
    · obtain ⟨slot, -, rfl⟩ := map_eq_some_iff.mp (mem_toList.mp hbind)
      exact hany

theorem pushEdgeCandidateRow_ok (hfrom : verifiedFrom.contains chosen.logicalFrom =
      nodeMatches sl pols nodeQuery edge.fromSlot chosen.logicalFrom)
    (hto : (edge.fromSlot = edge.toSlot → chosen.logicalFrom = chosen.logicalTo) →
      verifiedTo.contains chosen.logicalTo = nodeMatches sl pols nodeQuery edge.toSlot chosen.logicalTo)
    (hok : pushEdgeCandidateRow opts edge verifiedFrom verifiedTo row chosen nextRows = .ok next) :
    next = nextRows ++ (enterBindings sl pols nodeQuery row (edgeBindings edge chosen)).toList := by
  have hmemFrom : (SlotRef.node edge.fromSlot, chosen.logicalFrom) ∈ edgeBindings edge chosen := by simp [edgeBindings]
  have hmemTo : (SlotRef.node edge.toSlot, chosen.logicalTo) ∈ edgeBindings edge chosen := by simp [edgeBindings]
  have hnone : enterBindings sl pols nodeQuery row (edgeBindings edge chosen) = none →
      .ok nextRows = (.ok next : Except GraphRowError (List (GraphBindingRow ρ))) →
      next = nextRows ++ (enterBindings sl pols nodeQuery row (edgeBindings edge chosen)).toList := by
    intro hnone hok
    rw [hnone, toList_none, append_nil]
    exact (ok.inj hok).symm
  unfold pushEdgeCandidateRow at hok
  dsimp only at hok
  split at hok
  · rename_i hmism
    refine hnone ?_ hok
    rcases Bool.or_eq_true_iff.mp hmism with hmism | hmism
    · exact enterBindings_none hmemFrom (admits_eq_false_of_check (Or.inl hmism))
    · exact enterBindings_none hmemTo (admits_eq_false_of_check (Or.inl hmism))
  rename_i hagree
  split at hok
  · rename_i hunve
    refine hnone (enterBindings_none hmemFrom (admits_eq_false_of_check (Or.inr ?_))) hok
    rw [and_eq_true, Bool.not_eq_true', hfrom] at hunve
    exact hunve
  rename_i hverifiedFrom
  -- one slot for both endpoints takes a self loop only
  by_cases hloop : edge.fromSlot = edge.toSlot → chosen.logicalFrom = chosen.logicalTo
  · have hto := hto hloop
    split at hok
    · rename_i hunve
      refine hnone (enterBindings_none hmemTo (admits_eq_false_of_check (Or.inr ?_))) hok
      rw [and_eq_true, Bool.not_eq_true', hto] at hunve
      exact hunve
    rename_i hverifiedTo
    rw [enterBindings_of_checks (Bool.eq_false_iff.mpr hagree) (Bool.eq_false_iff.mpr hverifiedFrom)
      (Bool.eq_false_iff.mpr hverifiedTo) hfrom hto]
    exact pushBoundRow_ok hok
  · obtain ⟨hslot, hne⟩ := Classical.not_imp.mp hloop
    have hinco : ∀ check, consistent check row.slots (edgeBindings edge chosen) = true → False := by
      intro check hcst
      exact hne (((consistent_iff _).mp hcst).2 _ hmemFrom _ hmemTo (congrArg SlotRef.node hslot))
    have henter : enterBindings sl pols nodeQuery row (edgeBindings edge chosen) = none := by rw [enterBindings, if_neg (hinco _)]
    split at hok
    · exact hnone henter hok
    · have hpsh := pushBoundRow_ok hok
      rw [bindAll_eq, if_neg (hinco _)] at hpsh
      rw [henter]
      exact hpsh

/-- The sets of verified nodes decide the endpoints of the candidates. -/
structure Decides (sl : SourceList) (pols : Option PrecomputedPruneCutoffs)
    (nodeQuery : ℕ → NormalizedNodeQuery) (edge : RuntimeEdge) (verifiedFrom verifiedTo : List ℕ)
    (cs : List OrientedEdge) : Prop where
  fromSlot : ∀ chosen ∈ cs, verifiedFrom.contains chosen.logicalFrom = nodeMatches sl pols nodeQuery edge.fromSlot chosen.logicalFrom
  toSlot : ∀ chosen ∈ cs, (edge.fromSlot = edge.toSlot → chosen.logicalFrom = chosen.logicalTo) →
    verifiedTo.contains chosen.logicalTo = nodeMatches sl pols nodeQuery edge.toSlot chosen.logicalTo

theorem pushCandidates_ok {res : List (GraphBindingRow ρ) × Bool}
    (hdeci : Decides sl pols nodeQuery edge verifiedFrom verifiedTo cs)
    (hok : pushCandidates opts edge verifiedFrom verifiedTo .allRows row cs nextRows = .ok res) :
    res = (nextRows ++ cs.filterMap fun chosen => enterBindings sl pols nodeQuery row (edgeBindings edge chosen), false) := by
  induction cs generalizing nextRows with
  | nil =>
    rw [pushCandidates] at hok
    rw [← ok.inj hok, filterMap_nil, append_nil]
  | cons chosen cs ih =>
    rw [pushCandidates] at hok
    split at hok
    · cases hok
    rename_i pushed hpsh
    rw [if_neg (by simp [RuntimeGoal.reached])] at hok
    have hpsh := pushEdgeCandidateRow_ok (hdeci.fromSlot chosen mem_cons_self)
      (hdeci.toSlot chosen mem_cons_self) hpsh
    have hrest := ih ⟨fun other hoth => hdeci.fromSlot other (mem_cons_of_mem _ hoth),
      fun other hoth => hdeci.toSlot other (mem_cons_of_mem _ hoth)⟩ hok
    rw [hrest, hpsh, append_assoc, filterMap_cons]
    cases enterBindings sl pols nodeQuery row (edgeBindings edge chosen) <;> rfl

end

variable {rows next : List (GraphBindingRow ρ)}

section
variable {opts : GraphRowOptions} {edge : RuntimeEdge} {verifiedFrom verifiedTo : List ℕ}
variable {cs : List OrientedEdge}

/-- Candidates outside of the bucket of a row extend it by nothing. -/
theorem filterMap_bucketFor (row : GraphBindingRow ρ) : ((bucketFor edge cs row).filterMap fun chosen =>
      enterBindings sl pols nodeQuery row (edgeBindings edge chosen)) =
    cs.filterMap fun chosen => enterBindings sl pols nodeQuery row (edgeBindings edge chosen) := by
  rw [bucketFor, filterMap_filter]
  congr 1
  funext chosen
  split
  · rfl
  · rename_i houtd
    symm
    have hmism : ∀ (bound : Option ℕ) (id : ℕ), ¬(bound.all fun other => decide (id = other)) = true →
        (bound.any fun other => decide (other ≠ id)) = true := by
      intro bound id hnot
      cases bound with
      | none => exact absurd rfl hnot
      | some other => exact decide_eq_true fun heq => hnot (decide_eq_true heq.symm)
    have hmemFrom : (SlotRef.node edge.fromSlot, chosen.logicalFrom) ∈ edgeBindings edge chosen := by simp [edgeBindings]
    have hmemTo : (SlotRef.node edge.toSlot, chosen.logicalTo) ∈ edgeBindings edge chosen := by simp [edgeBindings]
    rw [and_eq_true, not_and_or] at houtd
    rcases houtd with houtd | houtd
    · exact enterBindings_none hmemFrom (admits_eq_false_of_check (Or.inl (hmism _ _ houtd)))
    · exact enterBindings_none hmemTo (admits_eq_false_of_check (Or.inl (hmism _ _ houtd)))

theorem expandRows_ok (hdeci : Decides sl pols nodeQuery edge verifiedFrom verifiedTo cs)
    (hok : expandRows opts edge cs verifiedFrom verifiedTo .allRows rows nextRows = .ok next) :
    next = nextRows ++ rows.flatMap fun row => cs.filterMap fun chosen =>
      enterBindings sl pols nodeQuery row (edgeBindings edge chosen) := by
  induction rows generalizing nextRows with
  | nil =>
    rw [expandRows] at hok
    rw [← ok.inj hok, flatMap_nil, append_nil]
  | cons row rows ih =>
    have hsub : ∀ chosen, chosen ∈ bucketFor edge cs row → chosen ∈ cs := fun chosen hch => mem_of_mem_filter hch
    rw [expandRows] at hok
    split at hok
    · cases hok
    · rename_i pushed hpsh
      have hflag := pushCandidates_ok ⟨fun chosen hch => hdeci.fromSlot chosen (hsub chosen hch),
        fun chosen hch => hdeci.toSlot chosen (hsub chosen hch)⟩ hpsh
      exact absurd (Prod.mk.inj hflag).2 (by simp)
    · rename_i pushed hpsh
      have hrows := pushCandidates_ok ⟨fun chosen hch => hdeci.fromSlot chosen (hsub chosen hch),
        fun chosen hch => hdeci.toSlot chosen (hsub chosen hch)⟩ hpsh
      rw [ih hok, (Prod.mk.inj hrows).1, filterMap_bucketFor, append_assoc, flatMap_cons]

end

variable {chosen : OrientedEdge}

section
variable {srcs : PhysicalSources sl pols} {opts : GraphRowOptions} {edge : RuntimeEdge}

variable {id : ℕ} {ids : List ℕ}

theorem mem_sortedDedup : id ∈ sortedDedup ids ↔ id ∈ ids := by rw [sortedDedup, mem_dedup, (perm_insertionSort _ _).mem_iff]

theorem checkFrontier_ok {checked : List ℕ} (h : checkFrontier opts ids = .ok checked) :
    checked = ids ∧ ids.length ≤ opts.maxFrontier := by
  rw [checkFrontier] at h
  split at h
  · cases h
  · exact ⟨(ok.inj h).symm, by omega⟩

/-- A lookup by endpoints adds every visible edge at them whose ends were never deleted. -/
theorem extendEndpointEdgeIds_ok {fids : Option (List ℕ)} {dir : Direction}
    {nodeIds tgt found : List ℕ}
    (hok : extendEndpointEdgeIds sl opts fids dir nodeIds tgt = .ok found) :
    (∀ id ∈ tgt, id ∈ found) ∧ ∀ id r, sl.findEdge id = some r → NeverDeleted sl r.source →
      NeverDeleted sl r.target → endpointMatches nodeIds dir r = true →
      labelAllowed fids r = true → id ∈ found := by
  rw [extendEndpointEdgeIds] at hok
  split at hok
  · rename_i hemp
    rw [← ok.inj hok]
    refine ⟨fun id hid => hid, ?_⟩
    intro id r _ _ _ hmat
    rw [List.isEmpty_iff.mp hemp] at hmat
    cases dir <;> simp [endpointMatches] at hmat
  · obtain ⟨nodes, hnos, hok⟩ := bind_ok hok
    obtain ⟨rfl, -⟩ := checkFrontier_ok hnos
    obtain ⟨ids, hread, hok⟩ := bind_ok hok
    obtain ⟨rfl, hlen⟩ := checkFrontier_ok hread
    obtain ⟨rfl, -⟩ := checkFrontier_ok hok
    refine ⟨fun id hid => mem_sortedDedup.mpr (mem_append_left _ hid), ?_⟩
    intro id r hrec hsrc htgt hmat hlab
    refine mem_sortedDedup.mpr (mem_append_right _ ?_)
    refine mem_edgeIdsByEndpointsLimited hlen hrec hsrc htgt ?_ hlab
    have hsame : ∀ node, (sortedDedup nodeIds).contains node = nodeIds.contains node := by
      intro node
      rw [Bool.eq_iff_iff, contains_iff_mem, contains_iff_mem, mem_sortedDedup]
    cases dir with
    | outgoing | incoming => rw [endpointMatches, hsame]; exact hmat
    | both => rw [endpointMatches, hsame, hsame]; exact hmat

variable {rows : List (GraphBindingRow ρ)} {r : EdgeRecord}

theorem collectEndpointEdgeIds_complete {found : List ℕ}
    (hok : collectEndpointEdgeIds sl opts edge rows = .ok found) (hrow : row ∈ rows) (hrec : sl.findEdge id = some r) (hfst : NeverDeleted sl r.source)
    (hlast : NeverDeleted sl r.target) (hlab : labelAllowed edge.labelFilterIds r = true) {ends : ℕ × ℕ}
    (hends : ends ∈ graphRowEdgeOrientations edge.direction r.source r.target)
    (hbd : row.nodeIdIfBound edge.fromSlot = some ends.1 ∨ row.nodeIdIfBound edge.toSlot = some ends.2) :
    id ∈ found := by
  obtain ⟨fst, houtg, hok⟩ := bind_ok hok
  obtain ⟨snd, hinc, hthird⟩ := bind_ok hok
  have hout := extendEndpointEdgeIds_ok houtg
  have hin := extendEndpointEdgeIds_ok hinc
  have hboth := extendEndpointEdgeIds_ok hthird
  have hfrom : ∀ node, row.nodeIdIfBound edge.fromSlot = some node →
      node ∈ endpointNodes edge rows (endpointSource edge.direction true) := by
    intro node hnode
    refine mem_flatMap.mpr ⟨row, hrow, mem_append_left _ ?_⟩
    rw [if_pos rfl, hnode]
    exact mem_singleton_self node
  have hto : ∀ node, row.nodeIdIfBound edge.toSlot = some node → node ∈ endpointNodes edge rows (endpointSource edge.direction false) := by
    intro node hnode
    refine mem_flatMap.mpr ⟨row, hrow, mem_append_right _ ?_⟩
    rw [if_pos rfl, hnode]
    exact mem_singleton_self node
  have hsrc : r.source ∈ endpointNodes edge rows .outgoing → id ∈ found := by
    intro hmem
    exact hboth.1 id (hin.1 id (hout.2 id r hrec hfst hlast (contains_iff_mem.mpr hmem) hlab))
  have htgt : r.target ∈ endpointNodes edge rows .incoming → id ∈ found := by
    intro hmem
    exact hboth.1 id (hin.2 id r hrec hfst hlast (contains_iff_mem.mpr hmem) hlab)
  have heither : r.source ∈ endpointNodes edge rows .both ∨ r.target ∈ endpointNodes edge rows .both → id ∈ found := by
    intro hmem
    refine hboth.2 id r hrec hfst hlast ?_ hlab
    rw [endpointMatches, or_eq_true, contains_iff_mem, contains_iff_mem]
    exact hmem
  -- the direction of the pattern says on which side of the record the bound endpoint is
  cases hdir : edge.direction with
  | outgoing =>
    rw [hdir] at hends hfrom hto
    obtain rfl := mem_singleton.mp hends
    rcases hbd with hbd | hbd
    · exact hsrc (hfrom _ hbd)
    · exact htgt (hto _ hbd)
  | incoming =>
    rw [hdir] at hends hfrom hto
    obtain rfl := mem_singleton.mp hends
    rcases hbd with hbd | hbd
    · exact htgt (hfrom _ hbd)
    · exact hsrc (hto _ hbd)
  | both =>
    rw [hdir] at hends hfrom hto
    have hsides : (ends.1 = r.source ∧ ends.2 = r.target) ∨ (ends.1 = r.target ∧ ends.2 = r.source) := by
      rw [graphRowEdgeOrientations] at hends
      split at hends
      · rw [mem_singleton.mp hends]
        exact Or.inl ⟨rfl, rfl⟩
      · rcases mem_cons.mp hends with rfl | hends
        · exact Or.inl ⟨rfl, rfl⟩
        · rw [mem_singleton.mp hends]
          exact Or.inr ⟨rfl, rfl⟩
    have hmem : ends.1 ∈ endpointNodes edge rows .both ∨ ends.2 ∈ endpointNodes edge rows .both := by
      rcases hbd with hbd | hbd
      · exact Or.inl (hfrom _ hbd)
      · exact Or.inr (hto _ hbd)
    rcases hsides with ⟨hfrom, hto⟩ | ⟨hfrom, hto⟩
    · rw [hfrom, hto] at hmem
      exact heither hmem
    · rw [hfrom, hto] at hmem
      exact heither hmem.symm

/-- An orientation of an edge agrees with the bound endpoints of a row. -/
def agrees (edge : RuntimeEdge) (row : GraphBindingRow ρ) (ends : ℕ × ℕ) : Prop :=
  (∀ id, row.nodeIdIfBound edge.fromSlot = some id → id = ends.1) ∧ ∀ id, row.nodeIdIfBound edge.toSlot = some id → id = ends.2

/-- A node that is found was never deleted. -/
def NodesKept (sl : SourceList) : Prop := ∀ id, (sl.findNode id).isSome → NeverDeleted sl id

theorem candidateEdgeIds_complete (hkept : NodesKept sl)
    (hok : candidateEdgeIds sl pols srcs opts edge rows = .ok ids)
    (hrow : row ∈ rows) (hrec : sl.findEdge id = some r)
    (hmat : edgeMatches sl pols atEpoch edge id r = true) {ends : ℕ × ℕ}
    (hends : ends ∈ graphRowEdgeOrientations edge.direction r.source r.target)
    (hagrees : agrees edge row ends) : id ∈ ids := by
  rw [edgeMatches, and_eq_true] at hmat
  obtain ⟨hexpl, hacc⟩ := hmat
  simp only [edgeAccepted, and_eq_true] at hacc
  obtain ⟨⟨⟨hlab, -⟩, hsrc, htgt⟩, hfil⟩ := hacc
  have hkeptNode : ∀ {node}, nodeVisible sl pols node = true → NeverDeleted sl node := by
    intro node hvis
    apply hkept
    rw [nodeVisible] at hvis
    cases hfnd : sl.findNode node with
    | none =>
      rw [hfnd] at hvis
      cases hvis
    | some r => rfl
  have hcoll : ∀ {found}, collectEndpointEdgeIds sl opts edge rows = .ok found → rowHasBoundEndpoint edge row = true → id ∈ found := by
    intro found hfnd hend
    refine collectEndpointEdgeIds_complete hfnd hrow hrec (hkeptNode hsrc) (hkeptNode htgt) hlab hends ?_
    rw [rowHasBoundEndpoint, or_eq_true] at hend
    rcases hend with hend | hend
    · obtain ⟨node, hnode⟩ := isSome_iff_exists.mp hend
      exact Or.inl (hagrees.1 node hnode ▸ hnode)
    · obtain ⟨node, hnode⟩ := isSome_iff_exists.mp hend
      exact Or.inr (hagrees.2 node hnode ▸ hnode)
  have hcov : ∀ {found}, srcs.edgeCandidates edge = .ready found → id ∈ found := by
    intro found hfnd
    exact srcs.edge_covers edge found hfnd id r hrec hlab hfil
  rw [candidateEdgeIds] at hok
  split at hok
  · rename_i hids
    obtain ⟨rfl, -⟩ := checkFrontier_ok hok
    rw [Bool.not_eq_true', Bool.eq_false_iff] at hids
    rw [Bool.eq_false_iff.mpr hids, Bool.false_or, contains_iff_mem] at hexpl
    exact mem_sortedDedup.mpr hexpl
  split at hok
  · rename_i hnever
    rcases Bool.or_eq_true_iff.mp hnever with hnever | hnever
    · cases hfilterCase : edge.filter with
      | alwaysFalse =>
        rw [hfilterCase, edgeFilterMatches] at hfil
        cases hfil
      | _ =>
        rw [hfilterCase] at hnever
        cases hnever
    · cases hlabs : edge.labelFilterIds with
      | none =>
        rw [hlabs] at hnever
        cases hnever
      | some labels =>
        rw [hlabs, any_some, List.isEmpty_iff] at hnever
        rw [hlabs, labelAllowed, hnever] at hlab
        cases hlab
  split at hok
  · rename_i hall
    have hend := all_eq_true.mp hall row hrow
    split at hok
    · split at hok
      · rename_i found hfnd
        rw [← ok.inj hok]
        exact hcov hfnd
      · exact hcoll hok hend
      · exact hcoll hok hend
    · exact hcoll hok hend
  · obtain ⟨collected, -, hok⟩ := bind_ok hok
    split at hok
    · rename_i found hfnd
      rw [← ok.inj hok]
      exact mem_append_right _ (hcov hfnd)
    · cases hok
    · cases hok

section

theorem mem_orientedEdges : chosen ∈ orientedEdges edge id r ↔ chosen.id = id ∧
      (chosen.logicalFrom, chosen.logicalTo) ∈ graphRowEdgeOrientations edge.direction r.source r.target := by
  rw [orientedEdges, mem_map]
  constructor
  · rintro ⟨ends, hends, rfl⟩
    exact ⟨rfl, hends⟩
  · rintro ⟨rfl, hends⟩
    exact ⟨_, hends, rfl⟩

theorem nodup_orientedEdges (id : ℕ) (r : EdgeRecord) : (orientedEdges edge id r).Nodup := by
  rw [orientedEdges]
  refine Nodup.map ?_ ?_
  · intro fst snd heq
    obtain ⟨-, hfrom, hto⟩ := OrientedEdge.mk.inj heq
    exact Prod.ext hfrom hto
  · cases edge.direction with
    | outgoing | incoming => exact nodup_singleton _
    | both =>
      rw [graphRowEdgeOrientations]
      split
      · exact nodup_singleton _
      · rename_i hne
        simp [hne]

theorem nodup_flatMap_oriented (hids : ids.Nodup) (pick : ℕ → Option EdgeRecord) :
    (ids.flatMap fun id => (pick id).elim [] (orientedEdges edge id)).Nodup := by
  refine nodup_flatMap.mpr ⟨?_, ?_⟩
  · intro id _
    cases pick id with
    | none => exact nodup_nil
    | some r => exact nodup_orientedEdges id r
  · refine hids.imp ?_
    intro id other hne chosen hch hoth
    dsimp only at hch hoth
    cases hid : pick id with
    | none => rw [hid] at hch; cases hch
    | some r =>
      cases hpick : pick other with
      | none => rw [hpick] at hoth; cases hoth
      | some otherRecord =>
        rw [hid] at hch
        rw [hpick] at hoth
        exact hne ((mem_orientedEdges.mp hch).1.symm.trans (mem_orientedEdges.mp hoth).1)

theorem mem_flatMap_oriented {pick : ℕ → Option EdgeRecord} :
    (chosen ∈ ids.flatMap fun id => (pick id).elim [] (orientedEdges edge id)) ↔ chosen.id ∈ ids ∧ ∃ r, pick chosen.id = some r ∧
        (chosen.logicalFrom, chosen.logicalTo) ∈ graphRowEdgeOrientations edge.direction r.source r.target := by
  rw [mem_flatMap]
  constructor
  · rintro ⟨id, hid, hch⟩
    cases hpick : pick id with
    | none => rw [hpick] at hch; cases hch
    | some r =>
      rw [hpick] at hch
      obtain ⟨rfl, hends⟩ := mem_orientedEdges.mp hch
      exact ⟨hid, r, hpick, hends⟩
  · rintro ⟨hid, r, hpick, hends⟩
    refine ⟨chosen.id, hid, ?_⟩
    rw [hpick]
    exact mem_orientedEdges.mpr ⟨rfl, hends⟩

theorem visibleEdgeIds_nodup : (visibleEdgeIds sl).Nodup := nodup_scanLayers fun lay hlay => (edgeScanLayers_lists lay hlay).nodup

theorem mem_visibleEdgeIds (h : sl.findEdge id = some r) : id ∈ visibleEdgeIds sl := by
  rw [findEdge_eq_visible] at h
  exact mem_scanLayers (fun lay hlay => (edgeScanLayers_lists lay hlay).holds id r) h rfl rfl

theorem mem_matchingEdges : chosen ∈ matchingEdges sl pols atEpoch edge ↔ ∃ r, sl.findEdge chosen.id = some r ∧
      edgeMatches sl pols atEpoch edge chosen.id r = true ∧
      (chosen.logicalFrom, chosen.logicalTo) ∈ graphRowEdgeOrientations edge.direction r.source r.target := by
  rw [matchingEdges, mem_flatMap_oriented]
  constructor
  · rintro ⟨-, r, hrec, hends⟩
    obtain ⟨hfnd, hmat⟩ := filter_eq_some_iff.mp hrec
    exact ⟨r, hfnd, hmat, hends⟩
  · rintro ⟨r, hfnd, hmat, hends⟩
    exact ⟨mem_visibleEdgeIds hfnd, r, filter_eq_some_iff.mpr ⟨hfnd, hmat⟩, hends⟩

end

theorem candidateEdgeIds_explicit (hok : candidateEdgeIds sl pols srcs opts edge rows = .ok ids) (hid : id ∈ ids) :
    (edge.candidateEdgeIds.isEmpty || edge.candidateEdgeIds.contains id) = true := by
  rw [candidateEdgeIds] at hok
  split at hok
  · obtain ⟨rfl, -⟩ := checkFrontier_ok hok
    rw [or_eq_true, contains_iff_mem]
    exact Or.inr (mem_sortedDedup.mp hid)
  · rename_i hemp
    rw [Bool.not_eq_true', Bool.not_eq_false] at hemp
    rw [hemp, Bool.true_or]

/-- The candidates are matching edges, each orientation once, and all that agree with a row. -/
theorem fixedEdgeCandidates_ok (hkept : NodesKept sl)
    (hok : fixedEdgeCandidates sl pols srcs opts atEpoch edge rows = .ok cs) :
    cs.Nodup ∧ (∀ chosen ∈ cs, chosen ∈ matchingEdges sl pols atEpoch edge) ∧ ∀ row ∈ rows, ∀ chosen ∈ matchingEdges sl pols atEpoch edge,
        agrees edge row (chosen.logicalFrom, chosen.logicalTo) → chosen ∈ cs := by
  obtain ⟨ids, hids, hok⟩ := bind_ok hok
  obtain ⟨checked, hchk, hok⟩ := bind_ok hok
  obtain ⟨rfl, -⟩ := checkFrontier_ok hchk
  have hnd : (sortedDedup ids).Nodup := nodup_dedup _
  dsimp only at hok
  split at hok
  · cases hok
  rw [← ok.inj hok]
  refine ⟨(perm_insertionSort _ _).nodup_iff.mpr (nodup_flatMap_oriented hnd _), ?_, ?_⟩
  · intro chosen hch
    rw [(perm_insertionSort _ _).mem_iff, mem_flatMap_oriented] at hch
    obtain ⟨hid, r, hrec, hends⟩ := hch
    rw [verifyEdgeCandidate_eq] at hrec
    obtain ⟨hfnd, hacc⟩ := filter_eq_some_iff.mp hrec
    refine mem_matchingEdges.mpr ⟨r, hfnd, ?_, hends⟩
    rw [edgeMatches, candidateEdgeIds_explicit hids (mem_sortedDedup.mp hid), Bool.true_and]
    exact hacc
  · intro row hrow chosen hch hagrees
    obtain ⟨r, hfnd, hmat, hends⟩ := mem_matchingEdges.mp hch
    rw [(perm_insertionSort _ _).mem_iff, mem_flatMap_oriented]
    refine ⟨mem_sortedDedup.mpr (candidateEdgeIds_complete hkept hids hrow hfnd hmat hends hagrees), r, ?_, hends⟩
    rw [verifyEdgeCandidate_eq]
    rw [edgeMatches, and_eq_true] at hmat
    exact filter_eq_some_iff.mpr ⟨hfnd, hmat.2⟩

end

theorem filterMap_perm_of_mem {α β : Type} {f : α → Option β} {fst snd : List α} (hfst : fst.Nodup)
    (hsnd : snd.Nodup) (hmem : ∀ a, f a ≠ none → (a ∈ fst ↔ a ∈ snd)) :
    (fst.filterMap f).Perm (snd.filterMap f) := by
  have hfil : ∀ l : List α, l.filterMap f = (l.filter fun a => (f a).isSome).filterMap f := by
    intro l
    rw [filterMap_filter]
    congr 1
    funext a
    cases f a <;> rfl
  rw [hfil fst, hfil snd]
  refine Perm.filterMap f ((perm_ext_iff_of_nodup (hfst.filter _) (hsnd.filter _)).mpr ?_)
  intro a
  rw [mem_filter, mem_filter]
  constructor
  · rintro ⟨ha, hsome⟩
    exact ⟨(hmem a (isSome_iff_ne_none.mp hsome)).mp ha, hsome⟩
  · rintro ⟨ha, hsome⟩
    exact ⟨(hmem a (isSome_iff_ne_none.mp hsome)).mpr ha, hsome⟩

section
variable {edge : RuntimeEdge} {row : GraphBindingRow ρ}

/-- A candidate that extends a row agrees with it. -/
theorem agrees_of_enterBindings (h : enterBindings sl pols nodeQuery row (edgeBindings edge chosen) ≠ none) :
    agrees edge row (chosen.logicalFrom, chosen.logicalTo) := by
  have hadm : ∀ b ∈ edgeBindings edge chosen,
      admits (slotCheck sl pols nodeQuery) row.slots b = true := by
    intro b hbind
    by_contra hnot
    exact h (enterBindings_none hbind (Bool.eq_false_iff.mpr hnot))
  have hslot : ∀ slot id other, (SlotRef.node slot, id) ∈ edgeBindings edge chosen → row.nodeIdIfBound slot = some other → other = id := by
    intro slot id other hmem hbd
    have hadmit := hadm _ hmem
    rw [nodeIdIfBound_eq_some] at hbd
    rw [admits, hbd] at hadmit
    exact of_decide_eq_true hadmit
  constructor
  · intro id hid
    exact hslot edge.fromSlot chosen.logicalFrom id (by simp [edgeBindings]) hid
  · intro id hid
    exact hslot edge.toSlot chosen.logicalTo id (by simp [edgeBindings]) hid

theorem extensions_of_null (hslot : slot ∈ edge.endpoints)
    (hnull : row.slots (.node slot) = .null) :
    extensions sl pols atEpoch nodeQuery edge row = [] := by
  rw [extensions, extend, filterMap_eq_nil_iff]
  intro chosen _
  obtain ⟨id, hmem⟩ : ∃ id, (SlotRef.node slot, id) ∈ edgeBindings edge chosen := by
    rcases mem_cons.mp hslot with rfl | hslot
    · exact ⟨chosen.logicalFrom, by simp [edgeBindings]⟩
    · rw [mem_singleton.mp hslot]
      exact ⟨chosen.logicalTo, by simp [edgeBindings]⟩
  refine enterBindings_none hmem ?_
  rw [admits, hnull]

end

section
variable {srcs : PhysicalSources sl pols} {opts : GraphRowOptions}

theorem decides_verified (h : sl.KeysIndexed) (edge : RuntimeEdge) (cs : List OrientedEdge) : Decides sl pols nodeQuery edge
      (graphRowVerifiedNodeIds sl (nodeQuery edge.fromSlot) pols (cs.map OrientedEdge.logicalFrom))
      (if edge.fromSlot = edge.toSlot then
        graphRowVerifiedNodeIds sl (nodeQuery edge.fromSlot) pols (cs.map OrientedEdge.logicalFrom)
      else graphRowVerifiedNodeIds sl (nodeQuery edge.toSlot) pols (cs.map OrientedEdge.logicalTo))
      cs := by
  have hver : ∀ slot ids id, id ∈ ids → (graphRowVerifiedNodeIds sl (nodeQuery slot) pols ids).contains id =
        nodeMatches sl pols nodeQuery slot id := by
    intro slot ids id hid
    rw [Bool.eq_iff_iff, contains_iff_mem, mem_graphRowVerifiedNodeIds h]
    exact and_iff_right hid
  refine ⟨fun chosen hch => hver _ _ _ (mem_map_of_mem hch), ?_⟩
  intro chosen hch hloop
  split
  · rename_i hslot
    rw [← hloop hslot, ← hslot]
    exact hver _ _ _ (mem_map_of_mem hch)
  · exact hver _ _ _ (mem_map_of_mem hch)

/-- Rows with a null endpoint have no extension. -/
theorem flatMap_live (edge : RuntimeEdge) (rows : List (GraphBindingRow ρ)) : rows.flatMap (extensions sl pols atEpoch nodeQuery edge) =
      (rows.filter fun row => !row.nodeIsNull edge.fromSlot && !row.nodeIsNull edge.toSlot).flatMap
        (extensions sl pols atEpoch nodeQuery edge) := by
  induction rows with
  | nil => rfl
  | cons row rows ih =>
    rw [flatMap_cons, filter_cons]
    split
    · rw [flatMap_cons, ih]
    · rename_i hnull
      have hnone : extensions sl pols atEpoch nodeQuery edge row = [] := by
        rw [and_eq_true, not_and_or, Bool.not_eq_true', Bool.not_eq_true', Bool.not_eq_false, Bool.not_eq_false]
          at hnull
        rcases hnull with hnull | hnull
        · exact extensions_of_null (mem_cons_self) (of_decide_eq_true hnull)
        · exact extensions_of_null (mem_cons_of_mem _ (mem_singleton_self _)) (of_decide_eq_true hnull)
      rw [hnone, nil_append, ih]

/-- Expanding an edge yields the extensions of the rows, whatever the candidates came from. -/
theorem expandFixedEdge_ok (h : sl.KeysIndexed) (hkept : NodesKept sl) {edge : RuntimeEdge}
    (hok : expandFixedEdge sl pols srcs opts atEpoch nodeQuery edge .allRows rows = .ok next) :
    next.Perm (rows.flatMap (extensions sl pols atEpoch nodeQuery edge)) := by
  rw [flatMap_live]
  rw [expandFixedEdge] at hok
  dsimp only at hok
  split at hok
  · rename_i hemp
    rw [List.isEmpty_iff.mp hemp, ← ok.inj hok]
    exact Perm.refl _
  obtain ⟨cs, hcands, hok⟩ := bind_ok hok
  obtain ⟨hnd, hsd, hcomp⟩ := fixedEdgeCandidates_ok hkept hcands
  rw [expandRows_ok (decides_verified h edge cs) hok, nil_append]
  refine Perm.flatMap_left _ fun row hrow => ?_
  refine filterMap_perm_of_mem hnd (nodup_flatMap_oriented visibleEdgeIds_nodup _) ?_
  intro chosen hch
  exact ⟨hsd chosen, fun hmatc => hcomp row hrow chosen hmatc (agrees_of_enterBindings hch)⟩

theorem expandEdges_ok (h : sl.KeysIndexed) (hkept : NodesKept sl) (pat : RuntimePattern) {order : List ℕ}
    (hok : expandEdges sl pols srcs opts atEpoch pat .allRows order rows = .ok next) :
    next.Perm (rows.flatMap (extendedRows sl pols atEpoch pat.nodeQuery
      (order.filterMap (pat.edges[·]?)))) := by
  induction order generalizing rows with
  | nil =>
    rw [expandEdges] at hok
    rw [← ok.inj hok]
    refine Perm.of_eq ?_
    change rows = rows.flatMap fun row => [row]
    exact (flatMap_singleton' rows).symm
  | cons idx order ih =>
    rw [expandEdges] at hok
    cases hedge : pat.edges[idx]? with
    | none =>
      rw [hedge] at hok
      rw [filterMap_cons, hedge]
      exact ih hok
    | some edge =>
      rw [hedge] at hok
      obtain ⟨mid, hmid, hrest⟩ := bind_ok hok
      have hgoal : (if order.isEmpty then RuntimeGoal.allRows else .allRows) = .allRows := ite_self _
      rw [hgoal] at hmid
      have hexpa := expandFixedEdge_ok h hkept hmid
      rw [filterMap_cons, hedge]
      refine (ih hrest).trans ((hexpa.flatMap_right _).trans (Perm.of_eq ?_))
      exact flatMap_assoc

variable {pat : RuntimePattern}

theorem filterMap_order {order : List ℕ} (hperm : order.Perm (range pat.edges.length)) :
    (order.filterMap (pat.edges[·]?)).Perm pat.edges := by
  refine (hperm.filterMap _).trans (Perm.of_eq ?_)
  generalize pat.edges = edges
  induction edges with
  | nil => rfl
  | cons edge edges ih =>
    rw [length_cons, range_succ_eq_map, filterMap_cons, List.getElem?_cons_zero, filterMap_map]
    exact congrArg (edge :: ·) ih

theorem graphRowVerifiedNodeIds_eq (h : sl.KeysIndexed) (query : NormalizedNodeQuery) (candidateIds : List ℕ) :
    graphRowVerifiedNodeIds sl query pols candidateIds = (sortedDedup candidateIds).filter fun id =>
      (sl.findNode id).any (nodeAccepted query pols) := by
  have hck : verifiedOfChunk sl query pols = fun chunk => chunk.filter fun id =>
      (sl.findNode id).any (nodeAccepted query pols) := funext fun chunk => verifiedOfChunk_eq h chunk
  rw [graphRowVerifiedNodeIds, hck, flatMap_def, ← filter_flatten, flatten_chunks (by decide) _ _ (Nat.le_refl _), sortedDedup]

/-- All nodes that match the pattern of a slot. -/
def anchorNodeIds (srcs : PhysicalSources sl pols) (query : NormalizedNodeQuery) : List ℕ :=
  graphRowVerifiedNodeIds sl query pols (srcs.nodeCandidates query)

variable {ids : List ℕ}

theorem initialNodeIds_ok {query : NormalizedNodeQuery}
    (hok : initialNodeIds sl pols srcs opts query = .ok ids) : ids = anchorNodeIds srcs query := by
  rw [initialNodeIds] at hok
  split at hok
  · cases hok
  · exact (ok.inj hok).symm

theorem nodup_anchorNodeIds (h : sl.KeysIndexed) (query : NormalizedNodeQuery) : (anchorNodeIds srcs query).Nodup := by
  rw [anchorNodeIds, graphRowVerifiedNodeIds_eq h]
  exact (nodup_dedup _).filter _

theorem mem_anchorNodeIds (h : sl.KeysIndexed) (slot id : ℕ) :
    id ∈ anchorNodeIds srcs (nodeQuery slot) ↔ nodeMatches sl pols nodeQuery slot id = true := by
  rw [anchorNodeIds, graphRowVerifiedNodeIds_eq h]
  rw [mem_filter, mem_sortedDedup]
  refine and_iff_right_of_imp fun hmat => ?_
  cases hnode : sl.findNode id with
  | none =>
    rw [hnode] at hmat
    cases hmat
  | some node =>
    rw [hnode, any_some] at hmat
    exact srcs.node_covers _ id node hnode hmat

def seedsOf (slot : ℕ) (ids : List ℕ) (row : GraphBindingRow ρ) : List (GraphBindingRow ρ) :=
  match row.slots (.node slot) with
  | .null => []
  | .bound _ => [row]
  | .unbound => ids.map (bindAnchor slot row)

variable {slot : ℕ}

theorem seedRows_ok {anchorIds : Except GraphRowError (List ℕ)}
    (hanchor : ∀ read, anchorIds = .ok read → read = ids) {output seeded : List (GraphBindingRow ρ)}
    (hok : seedRows opts slot anchorIds rows output = .ok seeded) :
    seeded = output ++ rows.flatMap (seedsOf slot ids) := by
  induction rows generalizing output with
  | nil =>
    rw [seedRows] at hok
    rw [← ok.inj hok, flatMap_nil, append_nil]
  | cons row rows ih =>
    rw [flatMap_cons, seedsOf]
    cases hslot : row.slots (.node slot) with
    | null =>
      simp only [seedRows, hslot] at hok
      exact ih hok
    | bound id =>
      simp only [seedRows, hslot] at hok
      rw [ih hok, append_assoc]
    | unbound =>
      cases hids : anchorIds with
      | error error =>
        simp only [seedRows, hslot, hids] at hok
        cases hok
      | ok read =>
        simp only [seedRows, hslot, hids] at hok
        split at hok
        · cases hok
        · rw [← hids] at hok
          rw [ih hok, hanchor read hids, append_assoc]

/-- An anchor that matches is bound as an edge would bind it. -/
theorem bindAnchor_eq (hslot : row.slots (.node slot) = .unbound)
    (hmat : nodeMatches sl pols nodeQuery slot id = true) :
    enterBindings sl pols nodeQuery row [(.node slot, id)] = some (bindAnchor slot row id) := by
  have hadm : admits (slotCheck sl pols nodeQuery) row.slots (.node slot, id) = true := by
    rw [admits, hslot]
    exact hmat
  rw [enterBindings_eq, bindAll, bindSlot_admits, if_pos hadm]
  rfl

/-- Of distinct entries at most one is the one that counts. -/
theorem flatMap_single {α : Type} (hnd : ids.Nodup) {value : ℕ} {res : Option α}
    (hmiss : value ∉ ids → res = none) :
    (ids.flatMap fun id => (if id = value then res else none).toList) = res.toList := by
  induction ids with
  | nil => rw [hmiss (by simp)]; rfl
  | cons id ids ih =>
    obtain ⟨hfst, hrest⟩ := nodup_cons.mp hnd
    rw [flatMap_cons]
    by_cases heq : id = value
    · subst heq
      have hnone : (ids.flatMap fun other => (if other = id then res else none).toList) = [] := by
        rw [flatMap_eq_nil_iff]
        intro other hoth
        have hne : other ≠ id := fun heq => hfst (heq ▸ hoth)
        rw [if_neg hne]
        rfl
      rw [if_pos rfl, hnone, append_nil]
    · rw [if_neg heq]
      refine ih hrest fun hnot => hmiss fun hmem => ?_
      rcases mem_cons.mp hmem with hmem | hmem
      · exact heq hmem.symm
      · exact hnot hmem

section
variable (hnd : ids.Nodup) (hids : ∀ id, id ∈ ids ↔ nodeMatches sl pols nodeQuery slot id = true)
include hnd hids

/-- Seeding a slot before an edge that binds it changes nothing. -/
theorem seedsOf_extensions {edge : RuntimeEdge}
    (hedge : slot ∈ edge.endpoints) (row : GraphBindingRow ρ) :
    ((seedsOf slot ids row).flatMap (extensions sl pols atEpoch nodeQuery edge)).Perm
      (extensions sl pols atEpoch nodeQuery edge row) := by
  rw [seedsOf]
  cases hslot : row.slots (.node slot) with
  | null =>
    rw [extensions_of_null hedge hslot]
    exact Perm.refl _
  | bound id =>
    dsimp only
    rw [flatMap_singleton]
  | unbound =>
    dsimp only
    -- for a candidate only the node at its own endpoint is left of the anchors
    have hends : ∀ chosen : OrientedEdge, ∃ value, (SlotRef.node slot, value) ∈ edgeBindings edge chosen := by
      intro chosen
      rcases mem_cons.mp hedge with rfl | hedge
      · exact ⟨chosen.logicalFrom, by simp [edgeBindings]⟩
      · rw [mem_singleton.mp hedge]
        exact ⟨chosen.logicalTo, by simp [edgeBindings]⟩
    have hseed : ∀ id ∈ ids, extensions sl pols atEpoch nodeQuery edge (bindAnchor slot row id) =
        (matchingEdges sl pols atEpoch edge).flatMap fun chosen =>
          (enterBindings sl pols nodeQuery row ((.node slot, id) :: edgeBindings edge chosen)).toList := by
      intro id hid
      rw [extensions, extend, filterMap_eq_flatMap_toList]
      congr 1
      funext chosen
      have hap : enterBindings sl pols nodeQuery row ([(.node slot, id)] ++ edgeBindings edge chosen) = _ :=
        enters_enterBindings.append row [(.node slot, id)] (edgeBindings edge chosen)
      rw [bindAnchor_eq hslot ((hids id).mp hid), bind_some] at hap
      rw [← hap]
      rfl
    rw [flatMap_map, flatMap_congr hseed]
    refine (flatMap_comm _ _ _).trans (Perm.of_eq ?_)
    rw [extensions, extend, filterMap_eq_flatMap_toList]
    congr 1
    funext chosen
    obtain ⟨value, hval⟩ := hends chosen
    have hone : ∀ id, enterBindings sl pols nodeQuery row ((.node slot, id) :: edgeBindings edge chosen) =
        if id = value then enterBindings sl pols nodeQuery row (edgeBindings edge chosen) else none := by
      intro id
      rw [enterBindings_eq, enterBindings_eq]
      split
      · rename_i heq
        rw [heq, bindAll_cons_mem _ _ hval]
      · rename_i hne
        rw [bindAll_cons_conflict _ _ hval hne]
        rfl
    have hmiss : value ∉ ids → enterBindings sl pols nodeQuery row (edgeBindings edge chosen) = none := by
      intro hnot
      refine enterBindings_none hval ?_
      rw [admits, hslot]
      exact Bool.eq_false_iff.mpr fun hmat => hnot ((hids value).mpr hmat)
    rw [flatMap_congr fun id _ => congrArg Option.toList (hone id)]
    exact flatMap_single hnd hmiss

theorem seedsOf_extendedRows {edges : List RuntimeEdge}
    (hslot : slot ∈ (edges.flatMap RuntimeEdge.endpoints).dedup) (row : GraphBindingRow ρ) :
    ((seedsOf slot ids row).flatMap (extendedRows sl pols atEpoch nodeQuery edges)).Perm
      (extendedRows sl pols atEpoch nodeQuery edges row) := by
  obtain ⟨edge, hedge, hend⟩ := mem_flatMap.mp (mem_dedup.mp hslot)
  obtain ⟨before, after, rfl⟩ := append_of_mem hedge
  have hrows : ∀ row : GraphBindingRow ρ,
      (extendedRows sl pols atEpoch nodeQuery (before ++ edge :: after) row).Perm
        (extendedRows sl pols atEpoch nodeQuery (edge :: (before ++ after)) row) :=
    fun row => extendAll_perm enters_enterBindings perm_middle row
  refine (Perm.flatMap_left _ fun seeded _ => hrows seeded).trans (Perm.trans ?_ (hrows row).symm)
  have hassoc : (seedsOf slot ids row).flatMap
      (extendedRows sl pols atEpoch nodeQuery (edge :: (before ++ after))) =
      ((seedsOf slot ids row).flatMap (extensions sl pols atEpoch nodeQuery edge)).flatMap
        (extendedRows sl pols atEpoch nodeQuery (before ++ after)) := flatMap_assoc.symm
  rw [hassoc]
  exact (seedsOf_extensions hnd hids hend row).flatMap_right _

end

variable {currentRows : Option (List (GraphBindingRow ρ))} {plan : SegmentPlan pat}

theorem startRows_ok (h : sl.KeysIndexed) {rest : ρ}
    (hok : startRows sl pols srcs opts pat plan rest currentRows = .ok rows) :
    (rows.flatMap (extendedRows sl pols atEpoch pat.nodeQuery pat.edges)).Perm
      ((currentRows.getD [.empty rest]).flatMap
        (extendedRows sl pols atEpoch pat.nodeQuery pat.edges)) := by
  -- a node the segment starts from is an endpoint of one of its edges
  have hseed' : ∀ slot, plan.initialDriver = .node slot → ∀ input : List (GraphBindingRow ρ),
      ((input.flatMap (seedsOf slot (anchorNodeIds srcs (pat.nodeQuery slot)))).flatMap
        (extendedRows sl pols atEpoch pat.nodeQuery pat.edges)).Perm
      (input.flatMap (extendedRows sl pols atEpoch pat.nodeQuery pat.edges)) := by
    intro slot hdrv input
    rw [flatMap_assoc]
    refine Perm.flatMap_left _ fun row _ => ?_
    exact seedsOf_extendedRows (nodup_anchorNodeIds h _) (mem_anchorNodeIds h slot) (plan.driver_touches slot hdrv) row
  cases hrows : currentRows with
  | some input =>
    rw [hrows, startRows, seedRequiredSegmentRows.eq_def] at hok
    cases hdrv : plan.initialDriver with
    | node slot =>
      rw [hdrv] at hok
      rw [seedRows_ok (fun read hread => initialNodeIds_ok hread) hok, nil_append]
      exact hseed' slot hdrv input
    | empty =>
      rw [hdrv] at hok
      rw [← ok.inj hok]
      exact Perm.refl _
    | edge idx =>
      rw [hdrv] at hok
      rw [← ok.inj hok]
      exact Perm.refl _
  | none =>
    rw [hrows, startRows, initialRows.eq_def] at hok
    cases hdrv : plan.initialDriver with
    | node slot =>
      rw [hdrv] at hok
      obtain ⟨ids, hids, hok⟩ := bind_ok hok
      have hone : rows = [GraphBindingRow.empty rest].flatMap
          (seedsOf slot (anchorNodeIds srcs (pat.nodeQuery slot))) := by
        rw [← ok.inj hok, ← initialNodeIds_ok hids, flatMap_singleton]
        rfl
      rw [hone]
      exact hseed' slot hdrv _
    | empty =>
      rw [hdrv] at hok
      rw [← ok.inj hok]
      exact Perm.refl _
    | edge idx =>
      rw [hdrv] at hok
      rw [← ok.inj hok]
      exact Perm.refl _

theorem executeRequiredSegment_ok (h : sl.KeysIndexed) (hkept : NodesKept sl) {rest : ρ}
    (hok : executeRequiredSegment sl pols srcs opts atEpoch pat plan rest .allRows
      currentRows = .ok rows) : rows.Perm ((currentRows.getD [.empty rest]).flatMap
      (assignmentRows sl pols atEpoch pat.nodeQuery pat.edges)) := by
  obtain ⟨start, hst, hrest⟩ := bind_ok hok
  have hassi : assignmentRows (ρ := ρ) sl pols atEpoch pat.nodeQuery pat.edges = extendedRows sl pols atEpoch pat.nodeQuery pat.edges :=
    funext fun row => assignmentRows_eq pat.edges row
  rw [hassi]
  refine (expandEdges_ok h hkept pat hrest).trans (Perm.trans ?_ (startRows_ok h hst))
  exact Perm.flatMap_left _ fun row _ => extendAll_perm enters_enterBindings (filterMap_order plan.order_perm) row

end

end

end OverGraph.RequiredSegments
