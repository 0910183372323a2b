import OverGraph.SegmentRows
import OverGraph.WritePlans

/-!
# Patterns as stages of a pipeline

A stage extends the rows of the stages before it. The nodes these bind are checked first; a
run of the segment then fails at a cap only, and otherwise yields the rows of the assignments.
-/

namespace OverGraph.RequiredSegments
open Except hiding error
open Option hiding all_eq_false all_eq_true choice mem_map mem_map_of_mem
open AssocMaps Records LayeredWrites GraphView Memtable Segments Sources NodeFilters PrunePolicies EdgeCandidates JoinOrders Cuts List Function
open WritePlans Fallible

/-- A run that fails has hit a cap, or has nothing to start from. -/
def Capped {α : Type} (run : Except GraphRowError α) : Prop := run ≠ .error .conflictingBinding

theorem Capped.bind {α β : Type} {run : Except GraphRowError α} {next : α → Except GraphRowError β} (h : Capped run)
    (hnext : ∀ a, run = .ok a → Capped (next a)) : Capped (run >>= next) := by
  cases run with
  | error error => exact fun heq => h (congrArg Except.error (Except.error.inj heq))
  | ok a => exact hnext a rfl

theorem capped_ok {α : Type} (a : α) : Capped (.ok a) := by
  intro h
  cases h

variable {pat : RuntimePattern} {slot : ℕ}

section
variable {ρ : Type} {sl : SourceList} {pols : Option PrecomputedPruneCutoffs} {atEpoch : ℤ}
variable {nodeQuery : ℕ → NormalizedNodeQuery} {srcs : PhysicalSources sl pols} {opts : GraphRowOptions}

theorem capped_checkFrontier (ids : List ℕ) : Capped (checkFrontier opts ids) := by
  rw [checkFrontier, Capped]
  split <;> simp

theorem capped_extendEndpointEdgeIds (fids : Option (List ℕ)) (dir : Direction)
    (nodeIds tgt : List ℕ) : Capped (extendEndpointEdgeIds sl opts fids dir nodeIds tgt) := by
  rw [extendEndpointEdgeIds]
  split
  · exact capped_ok _
  · exact (capped_checkFrontier _).bind fun _ _ => (capped_checkFrontier _).bind fun _ _ => capped_checkFrontier _

section
variable (edge : RuntimeEdge) (rows : List (GraphBindingRow ρ))

theorem capped_collectEndpointEdgeIds : Capped (collectEndpointEdgeIds sl opts edge rows) :=
  (capped_extendEndpointEdgeIds _ _ _ _).bind fun _ _ => (capped_extendEndpointEdgeIds _ _ _ _).bind fun _ _ =>
    capped_extendEndpointEdgeIds _ _ _ _

theorem capped_candidateEdgeIds : Capped (candidateEdgeIds sl pols srcs opts edge rows) := by
  have hbd : Capped (boundEdgeIds sl opts edge rows) := by
    rw [boundEdgeIds]
    split
    · exact capped_collectEndpointEdgeIds edge rows
    · exact capped_ok _
  rw [candidateEdgeIds]
  split
  · exact capped_checkFrontier _
  split
  · exact capped_ok _
  split
  · split
    · split
      · exact capped_ok _
      · exact capped_collectEndpointEdgeIds edge rows
      · exact capped_collectEndpointEdgeIds edge rows
    · exact capped_collectEndpointEdgeIds edge rows
  · refine hbd.bind fun ids _ => ?_
    split
    · exact capped_ok _
    · simp [Capped]
    · simp [Capped]

theorem capped_fixedEdgeCandidates :
    Capped (fixedEdgeCandidates sl pols srcs opts atEpoch edge rows) := by
  refine (capped_candidateEdgeIds edge rows).bind fun ids _ => (capped_checkFrontier _).bind fun checked _ => ?_
  dsimp only
  split
  · simp [Capped]
  · exact capped_ok _

end

def FreeFor (edge : RuntimeEdge) (row : GraphBindingRow ρ) : Prop := ∀ slot ∈ edge.occurrenceSlots, row.slots slot = .unbound

variable {edge : RuntimeEdge} {row : GraphBindingRow ρ}

theorem capped_pushBoundRow (hfree : FreeFor edge row)
    (chosen : OrientedEdge) (nextRows : List (GraphBindingRow ρ)) :
    Capped (pushBoundRow opts edge row chosen nextRows) := by
  have hkept : ∀ {slots after : SlotRef → SlotState ℕ} {slot other : SlotRef} {value : ℕ},
      bindSlot anyValue slots slot value = some after → other ≠ slot → after other = slots other := by
    intro slots after slot other value hbind hne
    rw [bindSlot_admits] at hbind
    split at hbind
    · rw [← some.inj hbind, update_of_ne hne]
    · cases hbind
  have hbinds : ∀ (slots : SlotRef → SlotState ℕ) (slot : Option SlotRef), (∀ ref ∈ slot, slots ref = .unbound) →
      ∃ after, bindOptional slots slot chosen.id = some after ∧ ∀ other, other ∉ slot → after other = slots other := by
    intro slots slot hslot
    cases slot with
    | none => exact ⟨slots, rfl, fun _ _ => rfl⟩
    | some ref =>
      refine ⟨update slots ref (.bound chosen.id), ?_, ?_⟩
      · rw [bindOptional, bindSlot, hslot ref rfl]
        rfl
      · intro other hoth
        refine update_of_ne ?_ _ _
        rintro rfl
        exact hoth rfl
  rw [pushBoundRow]
  split
  · exact capped_ok _
  rename_i fst hfst
  split
  · exact capped_ok _
  rename_i snd hsnd
  -- binding the nodes leaves the slots of the edge as they are
  have hfreeSecond : ∀ ref ∈ edge.occurrenceSlots, (∀ slot, ref ≠ .node slot) → snd ref = .unbound := by
    intro ref href hnode
    rw [hkept hsnd (hnode _), hkept hfst (hnode _)]
    exact hfree ref href
  have hedge : ∀ ref ∈ edge.edgeSlot.map SlotRef.edge, snd ref = .unbound := by
    intro ref href
    obtain ⟨slot, -, rfl⟩ := map_eq_some_iff.mp href
    refine hfreeSecond _ (mem_append_left _ (mem_toList.mpr href)) ?_
    intro other heq
    cases heq
  obtain ⟨third, hthird, hkeptThird⟩ := hbinds snd _ hedge
  have hhid : ∀ ref ∈ edge.hiddenSlot.map SlotRef.hidden, third ref = .unbound := by
    intro ref href
    obtain ⟨slot, -, rfl⟩ := map_eq_some_iff.mp href
    rw [hkeptThird]
    · refine hfreeSecond _ (mem_append_right _ (mem_toList.mpr href)) ?_
      intro other heq
      cases heq
    · intro hmem
      obtain ⟨other, -, heq⟩ := map_eq_some_iff.mp hmem
      cases heq
  obtain ⟨fourth, hfourth, -⟩ := hbinds third _ hhid
  rw [hthird, bind_some, hfourth]
  dsimp only
  split
  · simp [Capped]
  · exact capped_ok _

theorem capped_pushCandidates (hfree : FreeFor edge row)
    (verifiedFrom verifiedTo : List ℕ) (goal : RuntimeGoal) (candidates : List OrientedEdge)
    (nextRows : List (GraphBindingRow ρ)) :
    Capped (pushCandidates opts edge verifiedFrom verifiedTo goal row candidates nextRows) := by
  have hpush : ∀ chosen nextRows, Capped (pushEdgeCandidateRow opts edge verifiedFrom verifiedTo row chosen nextRows) := by
    intro chosen nextRows
    rw [pushEdgeCandidateRow]
    split
    · exact capped_ok _
    split
    · exact capped_ok _
    split
    · exact capped_ok _
    · exact capped_pushBoundRow hfree chosen nextRows
  induction candidates generalizing nextRows with
  | nil => exact capped_ok _
  | cons chosen candidates ih =>
    rw [pushCandidates]
    split
    · rename_i error herr
      have hcapped := hpush chosen nextRows
      rw [herr] at hcapped
      exact fun heq => hcapped (congrArg Except.error (Except.error.inj heq))
    · split
      · exact capped_ok _
      · exact ih _

section
variable {rows : List (GraphBindingRow ρ)} (hfree : ∀ row ∈ rows, FreeFor edge row)
include hfree

theorem capped_expandRows (candidates : List OrientedEdge) (verifiedFrom verifiedTo : List ℕ)
    (goal : RuntimeGoal) (nextRows : List (GraphBindingRow ρ)) :
    Capped (expandRows opts edge candidates verifiedFrom verifiedTo goal rows nextRows) := by
  induction rows generalizing nextRows with
  | nil => exact capped_ok _
  | cons row rows ih =>
    rw [expandRows]
    split
    · rename_i error herr
      have hcapped : Capped (pushCandidates opts edge verifiedFrom verifiedTo goal row
          (bucketFor edge candidates row) nextRows) :=
        capped_pushCandidates (hfree row mem_cons_self) verifiedFrom verifiedTo goal _ nextRows
      rw [herr] at hcapped
      exact fun heq => hcapped (congrArg Except.error (Except.error.inj heq))
    · exact capped_ok _
    · exact ih (fun other hoth => hfree other (mem_cons_of_mem _ hoth)) _

theorem capped_expandFixedEdge (goal : RuntimeGoal) :
    Capped (expandFixedEdge sl pols srcs opts atEpoch nodeQuery edge goal rows) := by
  rw [expandFixedEdge]
  dsimp only
  split
  · exact capped_ok _
  · refine (capped_fixedEdgeCandidates edge _).bind fun candidates _ => ?_
    exact capped_expandRows (fun row hrow => hfree row (mem_of_mem_filter hrow)) _ _ _ _ _

end

theorem mem_edgeBindings {chosen : OrientedEdge} {b : SlotRef × ℕ}
    (h : b ∈ edgeBindings edge chosen) : (∃ slot, b.1 = .node slot) ∨ b.1 ∈ edge.occurrenceSlots := by
  rcases mem_cons.mp h with rfl | h
  · exact Or.inl ⟨_, rfl⟩
  rcases mem_cons.mp h with rfl | h
  · exact Or.inl ⟨_, rfl⟩
  rcases mem_append.mp h with h | h
  · obtain ⟨slot, hslot, rfl⟩ := map_eq_some_iff.mp (mem_toList.mp h)
    exact Or.inr (mem_append_left _ (by rw [hslot]; exact mem_singleton_self _))
  · obtain ⟨slot, hslot, rfl⟩ := map_eq_some_iff.mp (mem_toList.mp h)
    exact Or.inr (mem_append_right _ (by rw [hslot]; exact mem_singleton_self _))

theorem node_not_occurrence (edge : RuntimeEdge) (slot : ℕ) : SlotRef.node slot ∉ edge.occurrenceSlots := by
  intro hmem
  rcases mem_append.mp hmem with hmem | hmem
  · obtain ⟨other, -, heq⟩ := map_eq_some_iff.mp (mem_toList.mp hmem)
    cases heq
  · obtain ⟨other, -, heq⟩ := map_eq_some_iff.mp (mem_toList.mp hmem)
    cases heq

theorem freeFor_extension {edge other : RuntimeEdge} {extended : GraphBindingRow ρ}
    (hdist : ∀ slot ∈ other.occurrenceSlots, slot ∉ edge.occurrenceSlots) (hfree : FreeFor other row)
    (hextd : extended ∈ extensions sl pols atEpoch nodeQuery edge row) : FreeFor other extended := by
  obtain ⟨chosen, -, henter⟩ := mem_filterMap.mp hextd
  rw [enterBindings] at henter
  split at henter
  · rw [← some.inj henter]
    intro slot hslot
    have hnone : bindingOf slot (edgeBindings edge chosen) = none := by
      rw [bindingOf_none]
      intro b hbind heq
      rcases mem_edgeBindings hbind with ⟨node, hnode⟩ | hoccu
      · exact node_not_occurrence _ _ (hnode ▸ heq ▸ hslot)
      · exact hdist slot hslot (heq ▸ hoccu)
    change assigned row.slots (edgeBindings edge chosen) slot = .unbound
    rw [assigned, hnone]
    exact hfree slot hslot
  · cases henter

theorem capped_expandEdges (h : sl.KeysIndexed) (hkept : NodesKept sl) (pat : RuntimePattern) {order : List ℕ}
    {rows : List (GraphBindingRow ρ)}
    (hdist : ((order.filterMap (pat.edges[·]?)).flatMap RuntimeEdge.occurrenceSlots).Nodup)
    (hfree : ∀ row ∈ rows, ∀ edge ∈ order.filterMap (pat.edges[·]?), FreeFor edge row) :
    Capped (expandEdges sl pols srcs opts atEpoch pat .allRows order rows) := by
  induction order generalizing rows with
  | nil => exact capped_ok _
  | cons idx order ih =>
    rw [expandEdges]
    cases hedge : pat.edges[idx]? with
    | none =>
      rw [filterMap_cons, hedge] at hdist hfree
      exact ih hdist hfree
    | some edge =>
      rw [filterMap_cons, hedge] at hdist hfree
      rw [flatMap_cons, nodup_append] at hdist
      dsimp only
      rw [ite_self]
      refine (capped_expandFixedEdge (fun row hrow => hfree row hrow edge mem_cons_self) _).bind fun mid hmid => ?_
      refine ih hdist.2.1 ?_
      intro extended hextd other hoth
      have hmem := (expandFixedEdge_ok h hkept hmid).mem_iff.mp hextd
      obtain ⟨row, hrow, hext⟩ := mem_flatMap.mp hmem
      refine freeFor_extension ?_ (hfree row hrow other (mem_cons_of_mem _ hoth)) hext
      intro slot hslot hedge
      exact hdist.2.2 slot hedge slot (mem_flatMap.mpr ⟨other, hoth, hslot⟩) rfl

theorem capped_initialNodeIds (query : NormalizedNodeQuery) : Capped (initialNodeIds sl pols srcs opts query) := by
  rw [initialNodeIds, Capped]
  split <;> simp

theorem capped_seedRows {anchorIds : Except GraphRowError (List ℕ)} (hanchor : Capped anchorIds)
    (rows output : List (GraphBindingRow ρ)) : Capped (seedRows opts slot anchorIds rows output) := by
  induction rows generalizing output with
  | nil => exact capped_ok _
  | cons row rows ih =>
    cases hslot : row.slots (.node slot) with
    | null =>
      simp only [seedRows, hslot]
      exact ih _
    | bound id =>
      simp only [seedRows, hslot]
      exact ih _
    | unbound =>
      cases hids : anchorIds with
      | error error =>
        simp only [seedRows, hslot]
        rw [hids] at hanchor
        exact fun heq => hanchor (congrArg Except.error (Except.error.inj heq))
      | ok ids =>
        simp only [seedRows, hslot]
        split
        · simp [Capped]
        · rw [← hids]
          exact ih _

theorem capped_startRows (pat : RuntimePattern) (plan : SegmentPlan pat) (rest : ρ)
    (currentRows : Option (List (GraphBindingRow ρ))) :
    Capped (startRows sl pols srcs opts pat plan rest currentRows) := by
  cases currentRows with
  | some rows =>
    rw [startRows, seedRequiredSegmentRows.eq_def]
    split
    · exact capped_seedRows (capped_initialNodeIds _) _ _
    · exact capped_ok _
    · exact capped_ok _
  | none =>
    rw [startRows, initialRows.eq_def]
    split
    · exact (capped_initialNodeIds _).bind fun _ _ => capped_ok _
    · exact capped_ok _
    · exact capped_ok _

/-- Seeding binds a node only. -/
theorem freeFor_startRows {plan : SegmentPlan pat} {rest : ρ}
    {currentRows : Option (List (GraphBindingRow ρ))} {rows : List (GraphBindingRow ρ)}
    (hok : startRows sl pols srcs opts pat plan rest currentRows = .ok rows)
    (hfree : ∀ row ∈ currentRows.getD [.empty rest], FreeFor edge row) : ∀ row ∈ rows, FreeFor edge row := by
  have hanchor : ∀ (slot id : ℕ) (row : GraphBindingRow ρ), FreeFor edge row → FreeFor edge (bindAnchor slot row id) := by
    intro slot id row hrow ref href
    change update row.slots (.node slot) (.bound id) ref = .unbound
    rw [update_of_ne]
    · exact hrow ref href
    · rintro rfl
      exact node_not_occurrence edge slot href
  have hsds : ∀ (slot : ℕ) (ids : List ℕ) (row : GraphBindingRow ρ), FreeFor edge row →
      ∀ seeded ∈ seedsOf slot ids row, FreeFor edge seeded := by
    intro slot ids row hrow seeded hseed'
    rw [seedsOf] at hseed'
    split at hseed'
    · cases hseed'
    · rw [mem_singleton.mp hseed']
      exact hrow
    · obtain ⟨id, -, rfl⟩ := mem_map.mp hseed'
      exact hanchor slot id row hrow
  cases hrows : currentRows with
  | some input =>
    rw [hrows] at hfree
    rw [hrows, startRows, seedRequiredSegmentRows.eq_def] at hok
    split at hok
    · rw [seedRows_ok (fun read hread => initialNodeIds_ok hread) hok, nil_append]
      intro seeded hseed'
      obtain ⟨row, hrow, hseed'⟩ := mem_flatMap.mp hseed'
      exact hsds _ _ row (hfree row hrow) seeded hseed'
    · rw [← ok.inj hok]
      exact hfree
    · rw [← ok.inj hok]
      exact hfree
  | none =>
    rw [hrows] at hfree
    rw [hrows, startRows, initialRows.eq_def] at hok
    split at hok
    · obtain ⟨ids, -, hok⟩ := bind_ok hok
      rw [← ok.inj hok]
      intro seeded hseed'
      obtain ⟨id, -, rfl⟩ := mem_map.mp hseed'
      exact hanchor _ id _ (hfree _ mem_cons_self)
    · rw [← ok.inj hok]
      exact hfree
    · rw [← ok.inj hok]
      exact hfree

/-- A segment whose edge aliases are new fails only at a cap or for want of an anchor. -/
theorem capped_executeRequiredSegment (h : sl.KeysIndexed) (hkept : NodesKept sl) (pat : RuntimePattern) (plan : SegmentPlan pat)
    (rest : ρ) (currentRows : Option (List (GraphBindingRow ρ)))
    (hfree : ∀ row ∈ currentRows.getD [.empty rest], ∀ edge ∈ pat.edges, FreeFor edge row) :
    Capped (executeRequiredSegment sl pols srcs opts atEpoch pat plan rest .allRows
      currentRows) := by
  have hor := filterMap_order plan.order_perm
  refine (capped_startRows pat plan rest currentRows).bind fun start hst => capped_expandEdges h hkept pat ?_ ?_
  · exact (hor.flatMap_right _).nodup_iff.mpr pat.slots_distinct
  · intro row hrow edge hedge
    exact freeFor_startRows hst (fun row hrow => hfree row hrow edge (hor.mem_iff.mp hedge)) row hrow

end

section
variable (pat : RuntimePattern)

theorem planFromFrontier_perm (cost : List ℕ → ℕ → ℕ) (fuel : ℕ) (bound remaining : List ℕ) :
    (planFromFrontier pat cost fuel bound remaining).Perm remaining := by
  induction fuel generalizing bound remaining with
  | zero => exact Perm.refl _
  | succ fuel ih =>
    rw [planFromFrontier]
    split
    · exact Perm.refl _
    · rename_i idx hix
      have hmem : idx ∈ remaining := mem_of_mem_filter (argmin_mem hix)
      exact ((ih _ _).cons idx).trans (perm_cons_erase hmem).symm

/-- Start from a node: the edges at the frontier follow. -/
def planFromNode (cost : List ℕ → ℕ → ℕ) (slot : ℕ) (hslot : slot ∈ pat.nodeSlots) : SegmentPlan pat where
  initialDriver := .node slot
  edgeOrder := planFromFrontier pat cost pat.edges.length [slot] (List.range pat.edges.length)
  order_perm := planFromFrontier_perm pat cost _ _ _
  driver_touches other h := by
    obtain rfl := InitialDriver.node.inj h
    exact hslot

def planFromEdge (cost : List ℕ → ℕ → ℕ) (idx : ℕ) (hix : idx < pat.edges.length) : SegmentPlan pat where
  initialDriver := .edge idx
  edgeOrder := idx :: planFromFrontier pat cost pat.edges.length (pat.edges.get ⟨idx, hix⟩).endpoints
    ((List.range pat.edges.length).erase idx)
  order_perm := ((planFromFrontier_perm pat cost _ _ _).cons idx).trans
    (perm_cons_erase (mem_range.mpr hix)).symm
  driver_touches slot h := by cases h

/-- Without a node or edge to start from, the edges keep the order of the query. -/
def planInQueryOrder : SegmentPlan pat where
  initialDriver := .empty
  edgeOrder := List.range pat.edges.length
  order_perm := List.Perm.refl _
  driver_touches slot h := by cases h

end

section
variable {ρ : Type} {sl : SourceList} {pols : Option PrecomputedPruneCutoffs} {atEpoch : ℤ}

/-- A row of the stages before: the node slots it carries are bound to visible nodes or null, the
others and the slots of the edges are free. -/
structure InputRow (sl : SourceList) (pols : Option PrecomputedPruneCutoffs) (pat : RuntimePattern)
    (initialBoundSlots : List ℕ) (row : GraphBindingRow ρ) : Prop where
  carried : ∀ slot ∈ initialBoundSlots, row.slots (.node slot) ≠ .unbound
  fresh : ∀ slot, slot ∉ initialBoundSlots → row.slots (.node slot) = .unbound
  visible : ∀ slot id, row.slots (.node slot) = .bound id → nodeVisible sl pols id = true
  free : ∀ edge ∈ pat.edges, FreeFor edge row

/-- The rows of a pattern over a row: all assignments of its edges to matching edges, in an allowed
orientation, and of its nodes to matching nodes that agree with each other and with the row. -/
def patternRows (sl : SourceList) (pols : Option PrecomputedPruneCutoffs) (atEpoch : ℤ)
    (pat : RuntimePattern) (row : GraphBindingRow ρ) : List (GraphBindingRow ρ) :=
  (choices (matchingEdges sl pols atEpoch) pat.edges).filterMap fun choice =>
    let bs := choiceBindings edgeBindings choice
    if bs.all fun b => slotCheck sl pols pat.nodeQuery b.1 b.2 then
      enterBindings sl pols pat.nodeQuery row bs
    else none

theorem nodeAccepted_of_no_anchor {query : NormalizedNodeQuery} (hkeys : query.keys = [])
    (hanchor : graphRowNodeQueryHasAnchor query = false) (node : NodeRecord) :
    nodeAccepted query pols node = !pols.any fun cutoffs => cutoffs.excludes node := by
  rw [graphRowNodeQueryHasAnchor, Bool.or_eq_false_iff, Bool.or_eq_false_iff] at hanchor
  obtain ⟨⟨hids, hlabs⟩, hfil⟩ := hanchor
  rw [Bool.not_eq_false', List.isEmpty_iff] at hids
  have hlabs : query.labelFilter = .unconstrained := by
    cases hcase : query.labelFilter with
    | unconstrained => rfl
    | empty mode count | labelSet mode ids count => rw [hcase] at hlabs; cases hlabs
  have hfil : query.filter = .alwaysTrue := by
    cases hcase : query.filter with
    | alwaysTrue => rfl
    | _ => rw [hcase] at hfil; cases hfil
  rw [nodeAccepted, hids, hlabs, hkeys, hfil, nodeSatisfies, nodeFilterProjectedMatches, nodeLabelFilterMatches]
  simp

section
variable {pat : RuntimePattern} {choice : List (RuntimeEdge × OrientedEdge)}

section
variable (hchc : choice ∈ choices (matchingEdges sl pols atEpoch) pat.edges)
include hchc

theorem slot_of_binding {id : ℕ} (hmem : (SlotRef.node slot, id) ∈ choiceBindings edgeBindings choice) : slot ∈ pat.nodeSlots := by
  obtain ⟨chosen, hch, hbind⟩ := mem_flatMap.mp hmem
  have hedge : chosen.1 ∈ pat.edges := map_fst_choice hchc ▸ mem_map_of_mem hch
  refine mem_dedup.mpr (mem_flatMap.mpr ⟨chosen.1, hedge, ?_⟩)
  rcases mem_cons.mp hbind with heq | hbind
  · obtain ⟨hslot, -⟩ := Prod.mk.inj heq
    rw [SlotRef.node.inj hslot]
    exact mem_cons_self
  rcases mem_cons.mp hbind with heq | hbind
  · obtain ⟨hslot, -⟩ := Prod.mk.inj heq
    rw [SlotRef.node.inj hslot]
    exact mem_cons_of_mem _ (mem_singleton_self _)
  rcases mem_append.mp hbind with hbind | hbind
  · obtain ⟨other, -, heq⟩ := map_eq_some_iff.mp (mem_toList.mp hbind)
    cases heq
  · obtain ⟨other, -, heq⟩ := map_eq_some_iff.mp (mem_toList.mp hbind)
    cases heq

theorem binding_of_slot (hslot : slot ∈ pat.nodeSlots) : ∃ id, (SlotRef.node slot, id) ∈ choiceBindings edgeBindings choice := by
  obtain ⟨edge, hedge, hend⟩ := mem_flatMap.mp (mem_dedup.mp hslot)
  rw [← map_fst_choice hchc] at hedge
  obtain ⟨⟨edge, chosen⟩, hch, rfl⟩ := mem_map.mp hedge
  have hall : ∀ id, (SlotRef.node slot, id) ∈ edgeBindings edge chosen → (SlotRef.node slot, id) ∈ choiceBindings edgeBindings choice :=
    fun id hmem => mem_flatMap.mpr ⟨(edge, chosen), hch, hmem⟩
  rcases mem_cons.mp hend with rfl | hend
  · exact ⟨chosen.logicalFrom, hall _ (by simp [edgeBindings])⟩
  · rw [mem_singleton.mp hend] at hall ⊢
    exact ⟨chosen.logicalTo, hall _ (by simp [edgeBindings])⟩

end

end

variable {row : GraphBindingRow ρ}

/-- Where the bound nodes of a row match, only the new ones have to be checked. -/
theorem patternRows_eq (hmat : ∀ slot id, row.slots (.node slot) = .bound id → slot ∈ pat.nodeSlots → nodeMatches sl pols pat.nodeQuery slot id = true) :
    patternRows sl pols atEpoch pat row = assignmentRows sl pols atEpoch pat.nodeQuery pat.edges row := by
  refine filterMap_congr fun choice hchc => ?_
  dsimp only
  split
  · rfl
  · rename_i hcheck
    symm
    rw [all_eq_true] at hcheck
    push Not at hcheck
    obtain ⟨⟨ref, id⟩, hbind, hcheck⟩ := hcheck
    refine enterBindings_none hbind ?_
    cases ref with
    | edge slot | hidden slot => exact absurd rfl hcheck
    | node slot =>
      rw [admits]
      cases hsta : row.slots (.node slot) with
      | unbound => exact Bool.eq_false_iff.mpr hcheck
      | null => rfl
      | bound existing =>
        refine decide_eq_false fun heq => hcheck ?_
        rw [← heq]
        exact hmat slot existing hsta (slot_of_binding hchc hbind)

theorem patternRows_nil (hslot : slot ∈ pat.nodeSlots) (hunb : row.slots (.node slot) ≠ .unbound)
    (hmism : ∀ id, row.slots (.node slot) = .bound id → nodeMatches sl pols pat.nodeQuery slot id = false) :
    patternRows sl pols atEpoch pat row = [] := by
  rw [patternRows, filterMap_eq_nil_iff]
  intro choice hchc
  dsimp only
  split
  · rename_i hcheck
    obtain ⟨id, hbind⟩ := binding_of_slot hchc hslot
    have hcheck : nodeMatches sl pols pat.nodeQuery slot id = true := all_eq_true.mp hcheck _ hbind
    refine enterBindings_none hbind ?_
    rw [admits]
    cases hsta : row.slots (.node slot) with
    | unbound => exact absurd hsta hunb
    | null => rfl
    | bound existing =>
      refine decide_eq_false fun heq => ?_
      have hnot := hmism existing hsta
      rw [heq, hcheck] at hnot
      cases hnot
  · rfl

/-- A filter that drops the inputs without results does not change the results. -/
theorem flatMap_filter_eq {α β : Type} {keep : α → Bool} {f g : α → List β} {l : List α}
    (hkept : ∀ a ∈ l, keep a = true → f a = g a) (hdrop : ∀ a ∈ l, keep a = false → g a = []) :
    (l.filter keep).flatMap f = l.flatMap g := by
  induction l with
  | nil => rfl
  | cons a l ih =>
    have ih := ih (fun b hb => hkept b (mem_cons_of_mem _ hb)) fun b hb => hdrop b (mem_cons_of_mem _ hb)
    cases hkeep : keep a with
    | true => rw [filter_cons_of_pos hkeep, flatMap_cons, flatMap_cons, ih, hkept a mem_cons_self hkeep]
    | false => rw [filter_cons_of_neg (by rw [hkeep]; exact Bool.false_ne_true), ih, flatMap_cons, hdrop a mem_cons_self hkeep, nil_append]

theorem nodeMatches_of_visible {id : ℕ}
    (hanchor : graphRowNodeQueryHasAnchor (pat.nodeQuery slot) = false)
    (hvis : nodeVisible sl pols id = true) :
    nodeMatches sl pols pat.nodeQuery slot id = true := by
  rw [nodeVisible] at hvis
  rw [nodeMatches]
  cases hnode : sl.findNode id with
  | none =>
    rw [hnode] at hvis
    cases hvis
  | some node =>
    rw [hnode, any_some] at hvis
    rw [any_some, nodeAccepted_of_no_anchor (pat.keys_resolved slot) hanchor]
    exact hvis

/-- The check of the bound nodes drops the rows that have none over the pattern. -/
theorem flatMap_partition (h : sl.KeysIndexed) {initialBoundSlots : List ℕ}
    {rows : List (GraphBindingRow ρ)} (hin' : ∀ row ∈ rows, InputRow sl pols pat initialBoundSlots row) :
    (partitionInitialBoundNodeConstraintRows sl pols pat initialBoundSlots rows).flatMap
      (assignmentRows sl pols atEpoch pat.nodeQuery pat.edges) =
    rows.flatMap (patternRows sl pols atEpoch pat) := by
  refine flatMap_filter_eq ?_ ?_
  · intro row hrow hkeep
    refine (patternRows_eq ?_).symm
    intro slot id hbd hslot
    have hinit : slot ∈ initialBoundSlots := by
      by_contra hfr
      rw [(hin' row hrow).fresh slot hfr] at hbd
      cases hbd
    cases hanchor : graphRowNodeQueryHasAnchor (pat.nodeQuery slot) with
    | false => exact nodeMatches_of_visible hanchor ((hin' row hrow).visible slot id hbd)
    | true =>
      have hcon : slot ∈ pat.nodeSlots.filter fun slot =>
          initialBoundSlots.contains slot && graphRowNodeQueryHasAnchor (pat.nodeQuery slot) := by
        rw [mem_filter, hanchor, Bool.and_true, contains_iff_mem]
        exact ⟨hslot, hinit⟩
      have hver := all_eq_true.mp hkeep slot hcon
      rw [nodeIdIfBound_eq_some.mpr hbd, any_some, contains_iff_mem, mem_graphRowVerifiedNodeIds h] at hver
      exact hver.2
  · intro row hrow hkeep
    obtain ⟨slot, hcon, hdrop⟩ := all_eq_false.mp hkeep
    obtain ⟨hslot, hanchor⟩ := mem_filter.mp hcon
    rw [Bool.and_eq_true, contains_iff_mem] at hanchor
    refine patternRows_nil hslot ((hin' row hrow).carried slot hanchor.1) ?_
    intro id hbd
    have hmem : id ∈ rows.filterMap (·.nodeIdIfBound slot) := mem_filterMap.mpr ⟨row, hrow, nodeIdIfBound_eq_some.mpr hbd⟩
    rw [nodeIdIfBound_eq_some.mpr hbd, any_some, contains_iff_mem, mem_graphRowVerifiedNodeIds h] at hdrop
    rw [Bool.eq_false_iff]
    exact fun hmat => hdrop ⟨hmem, hmat⟩

theorem mem_partition {initialBoundSlots : List ℕ} {rows : List (GraphBindingRow ρ)}
    (h : row ∈ partitionInitialBoundNodeConstraintRows sl pols pat initialBoundSlots rows) : row ∈ rows :=
  mem_of_mem_filter h

end

section
variable {ρ : Type} {sl : SourceList} {pols : Option PrecomputedPruneCutoffs} {atEpoch : ℤ}
variable {srcs : PhysicalSources sl pols} {opts : GraphRowOptions} {pat : RuntimePattern}
variable {plan : SegmentPlan pat} {initialBoundSlots : List ℕ} {rest : ρ} {rows : Option (List (GraphBindingRow ρ))}

section
variable (h : sl.KeysIndexed) (hkept : NodesKept sl)
  (hin' : ∀ row ∈ rows.getD [], InputRow sl pols pat initialBoundSlots row)
include h hkept hin'

theorem capped_executePatternStage :
    Capped (executePatternStage sl pols srcs opts atEpoch pat plan initialBoundSlots rest
      .allRows rows) := by
  refine capped_executeRequiredSegment h hkept pat plan rest _ ?_
  cases rows with
  | none =>
    intro row hrow edge hedge slot hslot
    rw [mem_singleton.mp hrow]
    rfl
  | some rows =>
    intro row hrow edge hedge
    exact (hin' row (mem_partition hrow)).free edge hedge

theorem executePatternStage_ok {output : List (GraphBindingRow ρ)}
    (hok : executePatternStage sl pols srcs opts atEpoch pat plan initialBoundSlots rest
      .allRows rows = .ok output) :
    output.Perm ((rows.getD [.empty rest]).flatMap (patternRows sl pols atEpoch pat)) := by
  have hperm := executeRequiredSegment_ok h hkept hok
  cases rows with
  | none =>
    have hemp : (none : Option (List (GraphBindingRow ρ))).getD [.empty rest] = [.empty rest] := rfl
    rw [hemp, flatMap_singleton, patternRows_eq fun _ _ hbd => by cases hbd]
    rw [map_none, hemp, flatMap_singleton] at hperm
    exact hperm
  | some rows =>
    rw [getD_some] at hin'
    rw [map_some, getD_some, flatMap_partition h hin'] at hperm
    exact hperm

end

end

/-- A node that the layers of a history show was deleted in none of them. -/
theorem nodesKept {L : Layering} (h : NeverRevived L.history) : NodesKept L.sources := by
  intro id hfnd
  have hwell := L.wellFormed
  have hlay : ∀ lay ∈ L.sources.nodeLayers, lay id ≠ some none := by
    rw [Layering.nodeLayers_sources]
    intro lay hlay hgone
    obtain ⟨ops, hops, rfl⟩ := mem_map.mp hlay
    obtain ⟨old, new, hsp⟩ := Layering.exists_history_split hops
    have hpast : nodeLog (old ++ ops) id = some none := by rw [nodeLog_append, hgone, some_or]
    rw [hwell.findNode, Layering.visible_nodes, nodesAfter, hsp, NeverRevived.deleted (hsp ▸ h) hpast] at hfnd
    cases hfnd
  refine ⟨fun m hm => Bool.eq_false_iff.mpr fun hgone => ?_, fun seg hseg => Bool.eq_false_iff.mpr fun hgone => ?_⟩
  · rw [(hwell.settled m hm).isNodeDeletedAt] at hgone
    exact hlay _ (mem_append_left _ (mem_map_of_mem hm)) (((hwell.tombstones m hm).nodes id).mp hgone)
  · refine hlay _ (mem_append_right _ (mem_map_of_mem hseg)) ?_
    rw [Segment.nodeOpinion, if_pos hgone]

/-- The ids of the nodes that some layer holds. -/
def heldNodeIds (sl : SourceList) : List ℕ :=
  ((sl.active :: sl.immutable).flatMap fun m => m.nodes.entries.map (·.1)) ++ sl.segments.flatMap fun seg => seg.nodes.entries.map (·.1)

theorem mem_heldNodeIds {sl : SourceList} {id : ℕ} {node : NodeRecord} (h : sl.findNode id = some node) : id ∈ heldNodeIds sl := by
  have hheld : ∀ {β : Type} {entries : Map ℕ β}, (entries.lookup id).isSome → id ∈ entries.entries.map (·.1) := by
    intro β entries hlk
    exact AList.mem_keys.mp (AList.lookup_isSome.mp hlk)
  rw [SourceList.findNode, join_eq_some_iff, or_eq_some_iff] at h
  rcases h with h | ⟨-, h⟩
  · obtain ⟨m, hm, hread⟩ := exists_of_findSome?_eq_some h
    refine mem_append_left _ (mem_flatMap.mpr ⟨m, hm, hheld ?_⟩)
    cases hlk : m.nodes.lookup id with
    | some versions => rfl
    | none =>
      simp only [MemtableState.getNodeAt, MemtableState.nodeStateAt, hlk, bind_none] at hread
      split at hread
      · cases hread
      · cases hread
  · obtain ⟨seg, hseg, hread⟩ := exists_of_findSome?_eq_some h
    refine mem_append_right _ (mem_flatMap.mpr ⟨seg, hseg, hheld ?_⟩)
    split at hread
    · cases hread
    · rename_i hdel
      obtain ⟨held, hget, -⟩ := map_eq_some_iff.mp hread
      rw [Segment.getNode, if_neg hdel] at hget
      rw [hget]
      rfl

/-- The sources that read all nodes and all edges. -/
def fullScan (sl : SourceList) (pols : Option PrecomputedPruneCutoffs) : PhysicalSources sl pols where
  nodeCandidates _ := heldNodeIds sl
  edgeCandidates _ := .ready (visibleEdgeIds sl)
  prefersEdgeSource _ _ _ _ := true
  node_covers _ id node hfnd _ := mem_heldNodeIds hfnd
  edge_covers edge ids hready id r hfnd _ _ := by
    rw [← EdgeSourceRead.ready.inj hready]
    exact mem_visibleEdgeIds hfnd

private def loopNode : NodeRecord := ⟨1, .single 1 Nat.one_ne_zero, "a", ∅, 0, 0, 0, none, none, 0⟩

private def loopEdge : EdgeRecord := ⟨1, 1, 1, 1, ∅, 0, 0, 0, 0, 10, 0⟩

/-- A node with an edge to itself. -/
private def selfLoop : Layering := ⟨[(1, .upsertNode loopNode), (2, .upsertEdge loopEdge)], [], []⟩

theorem accepted_selfLoop : Accepted selfLoop.history := accepted_of_one 1 (by decide)

theorem neverRevived_selfLoop : NeverRevived selfLoop.history := neverRevived_of_no_delete (by decide)

/-- Two edges in either direction that share a node. -/
private def twoEdges : RuntimePattern where
  nodeQuery _ := ⟨none, .unconstrained, [], [], .alwaysTrue, true, {}⟩
  keys_resolved _ := rfl
  edges := [⟨0, 1, some 0, none, .both, [], none, .alwaysTrue⟩, ⟨1, 2, some 1, none, .both, [], none, .alwaysTrue⟩]
  slots_distinct := by decide

/-- A row of a stage before, which binds the first node. -/
private def boundFirst : GraphBindingRow Unit := bindAnchor 0 (.empty ()) 1

theorem boundFirst_input : InputRow selfLoop.sources none twoEdges [0] boundFirst where
  carried slot hslot := by
    rw [mem_singleton.mp hslot]
    intro hunb
    cases hunb
  fresh slot hslot := by
    refine update_of_ne ?_ _ _
    intro heq
    exact hslot (mem_singleton.mpr (SlotRef.node.inj heq))
  visible slot id hbd := by
    by_cases hslot : slot = 0
    · rw [hslot] at hbd
      rw [← SlotState.bound.inj hbd]
      decide +kernel
    · rw [show boundFirst.slots (.node slot) = .unbound from
        update_of_ne (fun heq => hslot (SlotRef.node.inj heq)) _ _] at hbd
      cases hbd
  free edge hedge slot hslot := by
    refine update_of_ne ?_ _ _
    intro heq
    rw [heq] at hslot
    exact node_not_occurrence edge 0 hslot

private def loopRows (plan : SegmentPlan twoEdges) : Except GraphRowError (List (GraphBindingRow Unit)) :=
  executePatternStage selfLoop.sources none (fullScan selfLoop.sources none) ⟨10, 10⟩ 5 twoEdges plan [0] () .allRows
    (some [boundFirst])

end OverGraph.RequiredSegments
