import Mathlib.Data.List.Dedup
import Mathlib.Data.List.Sort
import Mathlib.Data.Prod.Lex

/-!
# Sorted lists and grouped lists that are determined by their members

Two programs that collect the same entries in different orders and sort them in the end give the
same list, and two that group the same values under the same keys give the same groups.
-/

namespace OverGraph.GroupedLists

open List

section
variable {α β : Type} [LinearOrder β] {order : α → β} {l₁ l₂ : List α}

theorem pairwise_sort (order : α → β) (l : List α) :
    (l.insertionSort fun a b => order a ≤ order b).Pairwise fun a b => order a ≤ order b := by
  have htotal : Std.Total fun a b : α => order a ≤ order b := ⟨fun a b => le_total (order a) (order b)⟩
  have htrans : IsTrans α fun a b => order a ≤ order b := ⟨fun _ _ _ => le_trans⟩
  exact pairwise_insertionSort (fun a b => order a ≤ order b) l

theorem mem_sort {l : List α} {a : α} : a ∈ l.insertionSort (fun a b => order a ≤ order b) ↔ a ∈ l := (perm_insertionSort _ l).mem_iff

section
variable (hinj : ∀ a ∈ l₁, ∀ b ∈ l₂, order a = order b → a = b) (hperm : l₁.Perm l₂)
include hinj hperm

/-- Sorted lists of the same entries are equal where the measure tells the entries apart. -/
theorem eq_of_perm_of_sorted (h₁ : l₁.Pairwise fun a b => order a ≤ order b) (h₂ : l₂.Pairwise fun a b => order a ≤ order b) : l₁ = l₂ := by
  refine Perm.eq_of_pairwise ?_ h₁ h₂ hperm
  intro a b ha hb hab hba
  exact hinj a ha b hb (le_antisymm hab hba)

theorem sort_eq_of_perm :
    l₁.insertionSort (fun a b => order a ≤ order b) = l₂.insertionSort fun a b => order a ≤ order b := by
  have hsort : (l₁.insertionSort fun a b => order a ≤ order b).Perm (l₂.insertionSort fun a b => order a ≤ order b) :=
    (perm_insertionSort _ l₁).trans (hperm.trans (perm_insertionSort _ l₂).symm)
  apply eq_of_perm_of_sorted _ hsort (pairwise_sort order l₁) (pairwise_sort order l₂)
  intro a ha b hb
  exact hinj a (mem_sort.mp ha) b (mem_sort.mp hb)

end

theorem strict_sort {l : List α} (h : (l.map order).Nodup) :
    (l.insertionSort fun a b => order a ≤ order b).Pairwise fun a b => order a < order b := by
  have hnd : ((l.insertionSort fun a b => order a ≤ order b).map order).Nodup := ((perm_insertionSort _ l).map order).nodup_iff.mpr h
  have hne := pairwise_map.mp hnd
  exact (pairwise_sort order l).imp₂ (fun a b hle hne => lt_of_le_of_ne hle hne) hne

theorem strict_dedup_sort [DecidableEq β] (l : List β) : ((l.insertionSort (· ≤ ·)).dedup).Pairwise (· < ·) := by
  have hsort : ((l.insertionSort (· ≤ ·)).dedup).Pairwise (· ≤ ·) := (pairwise_insertionSort (· ≤ ·) l).sublist (dedup_sublist _)
  exact hsort.imp₂ (fun a b hle hne => lt_of_le_of_ne hle hne) (nodup_dedup _)

end

section
variable {κ ν : Type} [LinearOrder κ]

/-- The groups of a relation between keys and values: each key that has a value once and in
ascending order, with its values in the order of a measure. -/
structure Grouped {β : Type} [LinearOrder β] (order : ν → β) (member : κ → ν → Prop) (groups : List (κ × List ν)) : Prop where
  keys : groups.Pairwise fun a b => a.1 < b.1
  filled : ∀ group ∈ groups, group.2 ≠ []
  sorted : ∀ group ∈ groups, group.2.Pairwise fun a b => order a < order b
  mem : ∀ k v, (∃ values, (k, values) ∈ groups ∧ v ∈ values) ↔ member k v

variable {β : Type} [LinearOrder β] {order : ν → β} {member : κ → ν → Prop} {groups groups₁ groups₂ : List (κ × List ν)}

theorem Grouped.group_unique (h : Grouped order member groups) {k : κ} {vs values' : List ν} (hmem : (k, vs) ∈ groups)
    (hmem' : (k, values') ∈ groups) : vs = values' := by
  have hnd : (groups.map Prod.fst).Nodup := pairwise_map.mpr (h.keys.imp fun hlt => ne_of_lt hlt)
  exact congrArg Prod.snd (inj_on_of_nodup_map hnd hmem hmem' rfl)

theorem Grouped.mem_group (h : Grouped order member groups) {k : κ} {vs : List ν} (hmem : (k, vs) ∈ groups) (v : ν) :
    v ∈ vs ↔ member k v := by
  rw [← h.mem]
  constructor
  · intro hv
    exact ⟨vs, hmem, hv⟩
  · rintro ⟨values', hmem', hv⟩
    rwa [h.group_unique hmem hmem']

section
variable (h₁ : Grouped order member groups₁) (h₂ : Grouped order member groups₂)
include h₁ h₂

theorem Grouped.subset {group : κ × List ν} (hmem : group ∈ groups₁) : group ∈ groups₂ := by
  obtain ⟨k, vs⟩ := group
  obtain ⟨v, hv⟩ := exists_mem_of_ne_nil vs (h₁.filled _ hmem)
  obtain ⟨values', hmem', -⟩ := (h₂.mem k v).mpr ((h₁.mem_group hmem v).mp hv)
  have hirrefl : Std.Irrefl fun a b : ν => order a < order b := ⟨fun a => lt_irrefl (order a)⟩
  have hasymm : Std.Antisymm fun a b : ν => order a < order b := ⟨fun a b hab hba => absurd (lt_trans hab hba) (lt_irrefl (order a))⟩
  have hvals : vs = values' :=
    List.Pairwise.eq_of_mem_iff (h₁.sorted _ hmem) (h₂.sorted _ hmem') fun w => (h₁.mem_group hmem w).trans (h₂.mem_group hmem' w).symm
  rwa [hvals]

theorem Grouped.unique : groups₁ = groups₂ := by
  have hirrefl : Std.Irrefl fun a b : κ × List ν => a.1 < b.1 := ⟨fun a => lt_irrefl a.1⟩
  have hasymm : Std.Antisymm fun a b : κ × List ν => a.1 < b.1 := ⟨fun a b hab hba => absurd (lt_trans hab hba) (lt_irrefl a.1)⟩
  exact List.Pairwise.eq_of_mem_iff h₁.keys h₂.keys fun group => ⟨h₁.subset h₂, h₂.subset h₁⟩

end

/-- Groups collected in any order, each under its own key, once they are sorted by their keys. -/
theorem grouped_sort (hkeys : (groups.map Prod.fst).Nodup) (hfilled : ∀ group ∈ groups, group.2 ≠ [])
    (hsort : ∀ group ∈ groups, group.2.Pairwise fun a b => order a < order b)
    (hmem : ∀ k v, (∃ vs, (k, vs) ∈ groups ∧ v ∈ vs) ↔ member k v) :
    Grouped order member (groups.insertionSort fun a b => a.1 ≤ b.1) := by
  constructor
  case keys => exact strict_sort hkeys
  case filled =>
    intro group hgrp
    exact hfilled group ((perm_insertionSort _ groups).mem_iff.mp hgrp)
  case sorted =>
    intro group hgrp
    exact hsort group ((perm_insertionSort _ groups).mem_iff.mp hgrp)
  case mem =>
    intro k v
    rw [← hmem]
    constructor
    · rintro ⟨vs, hgrp, hv⟩
      exact ⟨vs, (perm_insertionSort _ groups).mem_iff.mp hgrp, hv⟩
    · rintro ⟨vs, hgrp, hv⟩
      exact ⟨vs, (perm_insertionSort _ groups).mem_iff.mpr hgrp, hv⟩

theorem Grouped.sort (h : Grouped order member groups) : Grouped order member (groups.insertionSort fun a b => a.1 ≤ b.1) :=
  grouped_sort (pairwise_map.mpr (h.keys.imp fun hlt => ne_of_lt hlt)) h.filled h.sorted h.mem

/-- The groups of each node of an ordered list, under the pairs of the node and their keys. -/
theorem grouped_nested {ι α : Type} [LinearOrder ι] {outer : List (ι × α)} {inner : α → List (κ × List ν)}
    {memberOf : α → κ → ν → Prop} (houter : outer.Pairwise fun a b => a.1 < b.1)
    (hinner : ∀ node ∈ outer, Grouped order (memberOf node.2) (inner node.2)) :
    Grouped order (fun k v => ∃ node ∈ outer, node.1 = (ofLex k).1 ∧ memberOf node.2 (ofLex k).2 v)
      (outer.flatMap fun node => (inner node.2).map fun group => (toLex (node.1, group.1), group.2)) := by
  constructor
  case keys =>
    refine pairwise_flatMap.mpr ⟨?_, houter.imp ?_⟩
    · intro node hnode
      refine pairwise_map.mpr ((hinner node hnode).keys.imp ?_)
      intro a b hlt
      exact Prod.Lex.lt_iff.mpr (Or.inr ⟨rfl, hlt⟩)
    · intro node node' hlt a ha b hb
      obtain ⟨group, -, rfl⟩ := mem_map.mp ha
      obtain ⟨group', -, rfl⟩ := mem_map.mp hb
      exact Prod.Lex.lt_iff.mpr (Or.inl hlt)
  case filled =>
    intro group hgrp
    obtain ⟨node, hnode, hmem⟩ := mem_flatMap.mp hgrp
    obtain ⟨original, horig, rfl⟩ := mem_map.mp hmem
    exact (hinner node hnode).filled original horig
  case sorted =>
    intro group hgrp
    obtain ⟨node, hnode, hmem⟩ := mem_flatMap.mp hgrp
    obtain ⟨original, horig, rfl⟩ := mem_map.mp hmem
    exact (hinner node hnode).sorted original horig
  case mem =>
    intro k v
    constructor
    · rintro ⟨vs, hgrp, hv⟩
      obtain ⟨node, hnode, hmem⟩ := mem_flatMap.mp hgrp
      obtain ⟨⟨key, original⟩, horig, heq⟩ := mem_map.mp hmem
      obtain ⟨rfl, rfl⟩ := Prod.mk.inj heq
      exact ⟨node, hnode, rfl, ((hinner node hnode).mem key v).mp ⟨original, horig, hv⟩⟩
    · rintro ⟨node, hnode, hkey, hmbr⟩
      obtain ⟨vs, hvals, hv⟩ := ((hinner node hnode).mem (ofLex k).2 v).mpr hmbr
      refine ⟨vs, mem_flatMap.mpr ⟨node, hnode, mem_map.mpr ⟨_, hvals, ?_⟩⟩, hv⟩
      rw [hkey]
      rfl

end
end OverGraph.GroupedLists
