import OverGraph.IndexBuilders

/-!
# The groups of a memtable's cells

The heads of an index determine the groups that a flush collects from its cells: the walk over the
label cells in their order, and the maps that the cells are pushed into.
-/

namespace OverGraph.IndexGroups
open AssocMaps VersionedSlots Records Memtable CompactionPaths IndexHeads GroupedLists IndexBuilders List AList Flush Segments

section
variable {κ τ : Type} [DecidableEq κ] {idx : MembershipMap κ τ}

theorem mem_cells {k : κ} {v : τ} :
    (∃ slot, (⟨k, slot⟩ : Sigma fun _ : κ => VersionedSlot (Option τ)) ∈ idx.entries ∧ slot.current = some v) ↔
      (headAt idx k).join = some v := by
  unfold headAt
  constructor
  · rintro ⟨slot, hslot, hv⟩
    rw [mem_lookup_iff.mpr hslot, Option.map_some, Option.join_some, hv]
  · intro h
    cases hslot : idx.lookup k with
    | none =>
      rw [hslot] at h
      cases h
    | some slot =>
      rw [hslot] at h
      exact ⟨slot, mem_lookup_iff.mp hslot, h⟩

theorem mem_currentCells {cell : κ × τ} : cell ∈ currentCells idx ↔ (headAt idx cell.1).join = some cell.2 := by
  obtain ⟨k, v⟩ := cell
  rw [← mem_cells]
  unfold currentCells
  simp only [mem_filterMap, Option.map_eq_some_iff, Prod.mk.injEq]
  constructor
  · rintro ⟨⟨k', slot⟩, hslot, w, hw, rfl, rfl⟩
    exact ⟨slot, hslot, hw⟩
  · rintro ⟨slot, hslot, hv⟩
    exact ⟨⟨k, slot⟩, hslot, v, hv, rfl, rfl⟩

omit [DecidableEq κ] in
theorem nodup_currentCells : ((currentCells idx).map Prod.fst).Nodup := by
  have hkeys : (idx.entries.map Sigma.fst).Nodup := idx.keys_nodup
  unfold currentCells
  refine pairwise_map.mpr (pairwise_filterMap.mpr ((pairwise_map.mp hkeys).imp ?_))
  intro a b hab c hc d hd
  obtain ⟨v, -, rfl⟩ := Option.map_eq_some_iff.mp hc
  obtain ⟨w, -, rfl⟩ := Option.map_eq_some_iff.mp hd
  exact hab

variable {β : Type} [LinearOrder β] {order : κ → β}

theorem mem_orderedCells {k : κ} {v : τ} : (k, some v) ∈ orderedCells order idx ↔ (headAt idx k).join = some v := by
  rw [← mem_cells]
  unfold orderedCells
  rw [(perm_insertionSort _ _).mem_iff, mem_map]
  constructor
  · rintro ⟨⟨k', slot⟩, hslot, heq⟩
    obtain ⟨rfl, hv⟩ := Prod.mk.inj heq
    exact ⟨slot, hslot, hv⟩
  · rintro ⟨slot, hslot, hv⟩
    exact ⟨⟨k, slot⟩, hslot, by rw [hv]⟩

omit [DecidableEq κ] in
theorem strict_orderedCells (hinj : Function.Injective order) : (orderedCells order idx).Pairwise fun a b => order a.1 < order b.1 := by
  have hkeys : (idx.entries.map Sigma.fst).Nodup := idx.keys_nodup
  apply @strict_sort _ _ _ (fun cell : κ × Option τ => order cell.1)
  rw [map_map]
  have hmapped := hkeys.map hinj
  rwa [map_map] at hmapped

end

section
variable {m : MemtableState}

theorem mem_nodes (hids : IdsMatch m) {node : NodeRecord} : node ∈ nodes m ↔ m.currentNode node.id = some node := by
  rw [← lookup_liveNodes]
  unfold nodes
  rw [mem_map]
  constructor
  · rintro ⟨⟨id, r⟩, hent, rfl⟩
    have hlk := mem_lookup_iff.mpr hent
    have hid := hids.node id r ((lookup_liveNodes m id).symm.trans hlk)
    dsimp only at hid ⊢
    rw [hid]
    exact hlk
  · intro hlk
    exact ⟨⟨node.id, node⟩, mem_lookup_iff.mp hlk, rfl⟩

theorem mem_edges (hids : IdsMatch m) {edge : EdgeRecord} : edge ∈ edges m ↔ m.currentEdge edge.id = some edge := by
  rw [← lookup_liveEdges]
  unfold edges
  rw [mem_map]
  constructor
  · rintro ⟨⟨id, r⟩, hent, rfl⟩
    have hlk := mem_lookup_iff.mpr hent
    have hid := hids.edge id r ((lookup_liveEdges m id).symm.trans hlk)
    dsimp only at hid ⊢
    rw [hid]
    exact hlk
  · intro hlk
    exact ⟨⟨edge.id, edge⟩, mem_lookup_iff.mp hlk, rfl⟩

theorem nodup_ids {ρ : Type} {idOf : ρ → ℕ} (records : Map ℕ ρ) (h : ∀ e ∈ records.entries, idOf e.2 = e.1) :
    ((records.entries.map Sigma.snd).map idOf).Nodup := by
  have hkeys : (records.entries.map Sigma.fst).Nodup := records.keys_nodup
  have hsame : (records.entries.map Sigma.snd).map idOf = records.entries.map Sigma.fst := by
    rw [map_map]
    exact map_congr_left h
  rwa [hsame]

theorem nodup_nodes (hids : IdsMatch m) : ((nodes m).map (·.id)).Nodup := by
  apply nodup_ids
  intro e he
  apply hids.node e.1
  rw [← lookup_liveNodes]
  exact mem_lookup_iff.mpr he

theorem nodup_edges (hids : IdsMatch m) : ((edges m).map (·.id)).Nodup := by
  apply nodup_ids
  intro e he
  apply hids.edge e.1
  rw [← lookup_liveEdges]
  exact mem_lookup_iff.mpr he

end

section
variable {κ ν α β : Type} [LinearOrder κ] [LinearOrder β] {order : ν → β} {pushes : List (κ × List ν)}

theorem mem_groupsOf {k : κ} {vs : List ν} : (k, vs) ∈ groupsOf pushes ↔
    (∃ push ∈ pushes, push.1 = k) ∧ vs = (pushes.filter fun push => push.1 = k).flatMap (·.2) := by
  unfold groupsOf
  have hkey : ∀ k, k ∈ ((pushes.map (·.1)).insertionSort (· ≤ ·)).dedup ↔ ∃ push ∈ pushes, push.1 = k := by
    intro k
    rw [mem_dedup, (perm_insertionSort _ _).mem_iff, mem_map]
  simp only [mem_map, hkey, Prod.mk.injEq]
  constructor
  · rintro ⟨k', hpush, rfl, rfl⟩
    exact ⟨hpush, rfl⟩
  · rintro ⟨hpush, rfl⟩
    exact ⟨k, hpush, rfl, rfl⟩

theorem keys_groupsOf (pushes : List (κ × List ν)) : ((groupsOf pushes).map Prod.fst).Pairwise (· < ·) := by
  have hkeys : (groupsOf pushes).map Prod.fst = ((pushes.map (·.1)).insertionSort (· ≤ ·)).dedup := by
    unfold groupsOf
    rw [map_map]
    exact map_id _
  rw [hkeys]
  exact strict_dedup_sort _

theorem grouped_groupsOf {arrange : List ν → List ν}
    (hmem : ∀ vs v, v ∈ arrange vs ↔ v ∈ vs) (hfilled : ∀ push ∈ pushes, push.2 ≠ [])
    (hsort : ∀ group ∈ groupsOf pushes, (arrange group.2).Pairwise fun a b => order a < order b) :
    Grouped order (fun k v => ∃ push ∈ pushes, push.1 = k ∧ v ∈ push.2)
      ((groupsOf pushes).map fun group => (group.1, arrange group.2)) := by
  constructor
  case keys => exact pairwise_map.mpr (pairwise_map.mp (keys_groupsOf pushes))
  case filled =>
    intro group hgrp hemp
    obtain ⟨⟨k, vs⟩, hvals, rfl⟩ := mem_map.mp hgrp
    obtain ⟨⟨push, hpush, hkey⟩, hall⟩ := mem_groupsOf.mp hvals
    obtain ⟨v, hv⟩ := exists_mem_of_ne_nil _ (hfilled push hpush)
    have hin : v ∈ arrange vs := by
      rw [hmem, hall, mem_flatMap]
      exact ⟨push, mem_filter.mpr ⟨hpush, decide_eq_true hkey⟩, hv⟩
    rw [show arrange vs = [] from hemp] at hin
    cases hin
  case sorted =>
    intro group hgrp
    obtain ⟨original, horig, rfl⟩ := mem_map.mp hgrp
    exact hsort original horig
  case mem =>
    intro k v
    constructor
    · rintro ⟨vs, hgrp, hv⟩
      obtain ⟨⟨k', original⟩, horig, heq⟩ := mem_map.mp hgrp
      obtain ⟨rfl, rfl⟩ := Prod.mk.inj heq
      obtain ⟨-, rfl⟩ := mem_groupsOf.mp horig
      rw [hmem, mem_flatMap] at hv
      obtain ⟨push, hpush, hv⟩ := hv
      obtain ⟨hpush, hkey⟩ := mem_filter.mp hpush
      exact ⟨push, hpush, of_decide_eq_true hkey, hv⟩
    · rintro ⟨push, hpush, rfl, hv⟩
      refine ⟨_, mem_map.mpr ⟨_, mem_groupsOf.mpr ⟨⟨push, hpush, rfl⟩, rfl⟩, rfl⟩, ?_⟩
      rw [hmem, mem_flatMap]
      exact ⟨push, mem_filter.mpr ⟨hpush, decide_eq_true rfl⟩, hv⟩

/-- A group of values pushed one at a time. -/
theorem group_of_singles {l : List α} {key : α → κ} {v : α → ν} {group : κ × List ν}
    (h : group ∈ groupsOf (l.map fun a => (key a, [v a]))) : group.2 = (l.filter fun a => key a = group.1).map v := by
  obtain ⟨k, vs⟩ := group
  obtain ⟨-, hvals⟩ := mem_groupsOf.mp h
  dsimp only
  rw [hvals, filter_map, flatMap_map, ← map_eq_flatMap]
  rfl

/-- Values pushed one at a time, with distinct measures in each group, sorted by the measure. -/
theorem grouped_singles {l : List α} {key : α → κ} {val : α → ν} (hnd : (l.map fun a => (key a, order (val a))).Nodup) :
    Grouped order (fun k v => ∃ a ∈ l, key a = k ∧ val a = v)
      ((groupsOf (l.map fun a => (key a, [val a]))).map fun group => (group.1, group.2.insertionSort fun a b => order a ≤ order b)) := by
  have hgrpd := @grouped_groupsOf κ ν β _ _ order (l.map fun a => (key a, [val a]))
    (fun vs => vs.insertionSort fun a b => order a ≤ order b) (fun vs v => mem_sort) ?_ ?_
  · have hmbr : (fun k v => ∃ push ∈ l.map fun a => (key a, [val a]), push.1 = k ∧ v ∈ push.2) =
        fun k v => ∃ a ∈ l, key a = k ∧ val a = v := by
      funext k v
      simp only [mem_map, exists_exists_and_eq_and, mem_singleton, @eq_comm _ v]
    rwa [hmbr] at hgrpd
  · intro push hpush
    obtain ⟨a, -, rfl⟩ := mem_map.mp hpush
    exact cons_ne_nil _ _
  · intro group hgrp
    apply strict_sort
    rw [group_of_singles hgrp, map_map]
    apply @Nodup.of_map _ _ (fun o => (group.1, o))
    have hpaired : ((l.filter fun a => key a = group.1).map (order ∘ val)).map (fun o => (group.1, o)) =
        (l.filter fun a => key a = group.1).map fun a => (key a, order (val a)) := by
      rw [map_map]
      apply map_congr_left
      intro a ha
      rw [Function.comp_apply, Function.comp_apply, of_decide_eq_true (mem_filter.mp ha).2]
    rw [hpaired]
    exact Nodup.sublist (filter_sublist.map _) hnd

end

section

/-- What the walk holds after some cells in ascending order. -/
structure Walked (walk : LabelWalk) (cells : List ((ℕ × ℕ) × Option Unit)) : Prop where
  behind : ∀ group ∈ walk.groups, ∃ labelId, walk.currentLabelId = some labelId ∧ group.1 < labelId
  keys : walk.groups.Pairwise fun a b => a.1 < b.1
  filled : ∀ group ∈ walk.groups, group.2 ≠ []
  sorted : ∀ group ∈ walk.groups, group.2.Pairwise (· < ·)
  ids : walk.currentIds.Pairwise (· < ·)
  unopened : walk.currentLabelId = none → walk.currentIds = []
  mem : ∀ labelId id, ((labelId, id), some ()) ∈ cells ↔
    (∃ values, (labelId, values) ∈ walk.groups ∧ id ∈ values) ∨ walk.currentLabelId = some labelId ∧ id ∈ walk.currentIds

variable {walk : LabelWalk} {cells : List ((ℕ × ℕ) × Option Unit)}

theorem Walked.grouped_close (h : Walked walk cells) :
    Grouped (fun id : ℕ => id) (fun labelId id => ((labelId, id), some ()) ∈ cells) walk.close := by
  have hmem := h.mem
  have hbeh := h.behind
  have hunop := h.unopened
  unfold LabelWalk.close
  cases hlab : walk.currentLabelId with
  | none =>
    rw [hlab] at hmem
    refine ⟨h.keys, h.filled, h.sorted, fun labelId id => ?_⟩
    rw [hmem]
    simp
  | some current =>
    rw [hlab] at hmem hbeh
    dsimp only
    cases hids : walk.currentIds with
    | nil =>
      rw [hids] at hmem
      refine ⟨h.keys, h.filled, h.sorted, fun labelId id => ?_⟩
      rw [hmem]
      simp
    | cons fst others =>
      rw [← hids, if_neg (by rw [hids]; exact Bool.false_ne_true)]
      constructor
      case keys =>
        refine pairwise_append.mpr ⟨h.keys, pairwise_singleton _ _, ?_⟩
        intro group hgrp last hlast
        obtain ⟨labelId, hcur, hlt⟩ := hbeh group hgrp
        rw [mem_singleton.mp hlast, ← Option.some.inj hcur.symm]
        exact hlt
      case filled =>
        intro group hgrp
        rcases mem_append.mp hgrp with hgrp | hgrp
        · exact h.filled group hgrp
        · rw [mem_singleton.mp hgrp, hids]
          exact cons_ne_nil _ _
      case sorted =>
        intro group hgrp
        rcases mem_append.mp hgrp with hgrp | hgrp
        · exact h.sorted group hgrp
        · rw [mem_singleton.mp hgrp]
          exact h.ids
      case mem =>
        intro labelId id
        rw [hmem]
        simp only [mem_append, mem_singleton, Prod.mk.injEq, Option.some.injEq]
        grind

/-- Going on to a later label closes the group in progress. -/
theorem Walked.opened (h : Walked walk cells) {labelId : ℕ} (hlat : ∀ current, walk.currentLabelId = some current → current < labelId) :
    Walked ⟨walk.close, some labelId, []⟩ cells := by
  have hcl := h.grouped_close
  refine ⟨?_, hcl.keys, hcl.filled, hcl.sorted, List.Pairwise.nil, fun _ => rfl, ?_⟩
  · intro group hgrp
    obtain ⟨id, hid⟩ := exists_mem_of_ne_nil _ (hcl.filled group hgrp)
    -- a closed group is the one in progress or lies behind it
    have hcell := (hcl.mem group.1 id).mp ⟨group.2, hgrp, hid⟩
    refine ⟨labelId, rfl, ?_⟩
    rcases (h.mem group.1 id).mp hcell with ⟨vs, hvals, -⟩ | ⟨hcur, -⟩
    · obtain ⟨current, hcur, hlt⟩ := h.behind _ hvals
      exact lt_trans hlt (hlat current hcur)
    · exact hlat group.1 hcur
  · intro label id
    rw [← hcl.mem]
    simp

variable {cell : (ℕ × ℕ) × Option Unit}

/-- A later cell of the open label joins the group in progress if it holds its member. -/
theorem Walked.joined (h : Walked walk cells) (hopen : walk.currentLabelId = some cell.1.1)
    (hlat : ∀ earlier ∈ cells, toLex earlier.1 < toLex cell.1) :
    Walked (if cell.2.isSome then { walk with currentIds := walk.currentIds ++ [cell.1.2] } else walk) (cells ++ [cell]) := by
  obtain ⟨⟨labelId, id⟩, present⟩ := cell
  dsimp only at hopen hlat ⊢
  cases present with
  | none =>
    rw [if_neg (show ¬(none : Option Unit).isSome = true from Bool.false_ne_true)]
    refine ⟨h.behind, h.keys, h.filled, h.sorted, h.ids, h.unopened, fun label other => ?_⟩
    rw [← h.mem]
    simp
  | some _ =>
    refine ⟨h.behind, h.keys, h.filled, h.sorted, ?_, ?_, fun label other => ?_⟩
    · refine pairwise_append.mpr ⟨h.ids, pairwise_singleton _ _, ?_⟩
      intro earlier hear last hlast
      have hcell := (h.mem labelId earlier).mpr (Or.inr ⟨hopen, hear⟩)
      have hlt := hlat _ hcell
      rw [mem_singleton.mp hlast]
      simpa [Prod.Lex.lt_iff] using hlt
    · intro hnone
      rw [hopen] at hnone
      cases hnone
    · have hmem := h.mem label other
      simp only [mem_append, mem_singleton, Prod.mk.injEq]
      grind

def AtLastCell (walk : LabelWalk) (cells : List ((ℕ × ℕ) × Option Unit)) : Prop :=
  ∀ labelId, walk.currentLabelId = some labelId → ∃ cell ∈ cells, cell.1.1 = labelId

theorem walked_visit (h : Walked walk cells) (hlast : AtLastCell walk cells)
    (hlat : ∀ earlier ∈ cells, toLex earlier.1 < toLex cell.1) :
    Walked (walk.visit cell) (cells ++ [cell]) ∧ AtLastCell (walk.visit cell) (cells ++ [cell]) := by
  have hcur : ∀ rest, AtLastCell ⟨rest, some cell.1.1, []⟩ (cells ++ [cell]) := by
    intro rest labelId hlab
    exact ⟨cell, by simp, Option.some.inj hlab⟩
  unfold LabelWalk.visit
  by_cases hopen : walk.currentLabelId = some cell.1.1
  · rw [if_pos hopen]
    refine ⟨h.joined hopen hlat, ?_⟩
    intro labelId hlab
    refine ⟨cell, by simp, ?_⟩
    have hsame : walk.currentLabelId = some labelId := by split at hlab <;> exact hlab
    exact Option.some.inj (hopen.symm.trans hsame)
  · rw [if_neg hopen]
    constructor
    · apply Walked.joined _ rfl hlat
      apply h.opened
      intro current hlab
      obtain ⟨earlier, hear, rfl⟩ := hlast current hlab
      have hle := Prod.Lex.lt_iff.mp (hlat earlier hear)
      have hne : earlier.1.1 ≠ cell.1.1 := fun heq => hopen (by rw [hlab, heq])
      rcases hle with hlt | ⟨heq, -⟩
      · exact hlt
      · exact absurd heq hne
    · intro labelId hlab
      refine ⟨cell, by simp, ?_⟩
      split at hlab <;> exact Option.some.inj hlab

theorem walked_foldl {later : List ((ℕ × ℕ) × Option Unit)} (h : Walked walk cells) (hlast : AtLastCell walk cells)
    (hsort : (cells ++ later).Pairwise fun a b => toLex a.1 < toLex b.1) :
    Walked (later.foldl LabelWalk.visit walk) (cells ++ later) := by
  induction later generalizing walk cells with
  | nil => rwa [append_nil]
  | cons cell later ih =>
    have hear : ∀ earlier ∈ cells, toLex earlier.1 < toLex cell.1 := fun earlier hmem =>
      (pairwise_append.mp hsort).2.2 earlier hmem cell mem_cons_self
    obtain ⟨hwalked, hat⟩ := walked_visit h hlast hear
    rw [append_cons] at hsort ⊢
    exact ih hwalked hat hsort

theorem grouped_nodeLabelPostingGroups (m : MemtableState) :
    Grouped (fun id : ℕ => id) (fun labelId id => (headAt m.labelNodeIndex (labelId, id)).join = some ())
      (nodeLabelPostingGroupsCurrent m) := by
  have hst : Walked ⟨[], none, []⟩ [] := by constructor <;> simp
  have hsort := @strict_orderedCells _ _ m.labelNodeIndex _ _ toLex toLex.injective
  have hwalked := @walked_foldl _ _ (orderedCells toLex m.labelNodeIndex) hst (fun _ hlab => by cases hlab) hsort
  have hgrpd := hwalked.grouped_close
  have hmbr : (fun labelId id => ((labelId, id), some ()) ∈ [] ++ orderedCells toLex m.labelNodeIndex) =
      fun labelId id => (headAt m.labelNodeIndex (labelId, id)).join = some () := by
    funext labelId id
    rw [nil_append]
    exact propext mem_orderedCells
  rwa [hmbr] at hgrpd

end

end OverGraph.IndexGroups
