import Mathlib.Algebra.Order.BigOperators.Group.List
import Mathlib.Tactic.Abel
import OverGraph.AssocMaps

/-!
# Masses under keys

A finite map of amounts, where a key without an entry has none. Amounts are added under a key or set there,
and the total follows each change.
-/

namespace OverGraph.Masses
open AssocMaps List

variable {κ G : Type*} [DecidableEq κ] [AddCommGroup G]

def massAt (m : Map κ G) (k : κ) : G := (m.lookup k).getD 0

def total (m : Map κ G) : G := (m.entries.map Sigma.snd).sum

/-- Add to the amount under a key, or enter it. -/
def addMass (m : Map κ G) (k : κ) (x : G) : Map κ G := alter m k fun old => old.getD 0 + x

/-- Add amounts one after the other. -/
def addAll (m : Map κ G) (entries : List (κ × G)) : Map κ G := entries.foldl (fun m entry => addMass m entry.1 entry.2) m

theorem massAt_of_not_mem {m : Map κ G} {k : κ} (h : k ∉ m) : massAt m k = 0 := by
  rw [massAt, AList.lookup_eq_none.mpr h]
  rfl

theorem massAt_insert (m : Map κ G) (k k' : κ) (x : G) : massAt (m.insert k x) k' = if k' = k then x else massAt m k' := by
  by_cases h : k' = k
  · subst h
    simp [massAt]
  · simp [massAt, h]

theorem massAt_addMass (m : Map κ G) (k k' : κ) (x : G) : massAt (addMass m k x) k' = if k' = k then massAt m k' + x else massAt m k' := by
  rw [addMass, alter, massAt_insert]
  by_cases h : k' = k
  · rw [if_pos h, if_pos h, h]
    rfl
  · rw [if_neg h, if_neg h]

theorem mem_addMass {m : Map κ G} {k k' : κ} {x : G} : k' ∈ addMass m k x ↔ k' = k ∨ k' ∈ m := AList.mem_insert m

theorem mem_addAll {m : Map κ G} {entries : List (κ × G)} {k : κ} : k ∈ addAll m entries ↔ k ∈ entries.map Prod.fst ∨ k ∈ m := by
  induction entries generalizing m with
  | nil => simp [addAll]
  | cons entry entries ih =>
    rw [addAll, foldl_cons, ← addAll, ih, mem_addMass, map_cons, mem_cons]
    tauto

omit [DecidableEq κ] in
@[simp] theorem total_empty : total (∅ : Map κ G) = 0 := rfl

theorem sum_kerase (entries : List (Sigma fun _ : κ => G)) (k : κ) :
    ((entries.kerase k).map Sigma.snd).sum + (entries.dlookup k).getD 0 = (entries.map Sigma.snd).sum := by
  induction entries with
  | nil => simp
  | cons entry entries ih =>
    obtain ⟨k', x⟩ := entry
    by_cases h : k = k'
    · subst h
      have hkerase : List.kerase k ((⟨k, x⟩ : Sigma fun _ : κ => G) :: entries) = entries := kerase_cons_eq rfl
      rw [hkerase, dlookup_cons_eq, map_cons, sum_cons, add_comm]
      rfl
    · rw [kerase_cons_ne h, dlookup_cons_ne entries (⟨k', x⟩ : Sigma fun _ : κ => G) h, map_cons, map_cons,
        sum_cons, sum_cons, ← ih, add_assoc]

theorem total_insert (m : Map κ G) (k : κ) (x : G) : total (m.insert k x) = total m - massAt m k + x := by
  have hsum := sum_kerase m.entries k
  have hents : (m.insert k x).entries = ⟨k, x⟩ :: m.entries.kerase k := rfl
  rw [total, hents, map_cons, sum_cons, total, ← hsum, massAt, AList.lookup]
  abel

theorem total_addMass (m : Map κ G) (k : κ) (x : G) : total (addMass m k x) = total m + x := by
  rw [addMass, alter, total_insert, massAt]
  abel

theorem total_addAll (m : Map κ G) (entries : List (κ × G)) : total (addAll m entries) = total m + (entries.map Prod.snd).sum := by
  induction entries generalizing m with
  | nil => simp [addAll]
  | cons entry entries ih => rw [addAll, foldl_cons, ← addAll, ih, total_addMass, map_cons, sum_cons, add_assoc]

section
variable [LinearOrder G] [IsOrderedAddMonoid G]

/-- No amount is negative. -/
def Nonneg (m : Map κ G) : Prop := ∀ k, 0 ≤ massAt m k

omit [IsOrderedAddMonoid G] in
theorem nonneg_empty : Nonneg (∅ : Map κ G) := fun _ => le_rfl

variable {m : Map κ G}

omit [IsOrderedAddMonoid G] in
theorem Nonneg.insert (h : Nonneg m) (k : κ) {x : G} (hx : 0 ≤ x) : Nonneg (m.insert k x) := by
  intro k'
  rw [massAt_insert]
  split
  · exact hx
  · exact h k'

theorem Nonneg.addMass (h : Nonneg m) (k : κ) {x : G} (hx : 0 ≤ x) : Nonneg (addMass m k x) := by
  intro k'
  rw [massAt_addMass]
  split
  · exact add_nonneg (h k') hx
  · exact h k'

theorem Nonneg.addAll (h : Nonneg m) {entries : List (κ × G)} (hents : ∀ entry ∈ entries, 0 ≤ entry.2) : Nonneg (addAll m entries) := by
  induction entries generalizing m with
  | nil => exact h
  | cons entry entries ih => exact ih (h.addMass entry.1 (hents entry mem_cons_self)) fun other hoth => hents other (mem_cons_of_mem _ hoth)

theorem Nonneg.total (h : Nonneg m) : 0 ≤ total m := by
  refine sum_nonneg fun x hx => ?_
  obtain ⟨entry, hent, rfl⟩ := mem_map.mp hx
  have hlk : m.lookup entry.1 = some entry.2 := AList.mem_lookup_iff.mpr hent
  have hmass := h entry.1
  rwa [massAt, hlk] at hmass

end

end OverGraph.Masses
