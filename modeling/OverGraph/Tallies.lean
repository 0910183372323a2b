import Mathlib.Algebra.BigOperators.Finprod
import Mathlib.Data.Set.Card

/-!
# Tallies over finite views

A view shows a value or nothing at each identifier, and a value at finitely many of them.
Its tally is the sum of the worths of the values shown. Showing another value at one
identifier changes the tally by the difference of the two worths, so a tally can be kept
incrementally, and the tally of an indicator is a count.
-/

namespace OverGraph.Tallies

open List Function

variable {ι ν G H : Type*} [AddCommGroup G] [AddCommGroup H]

/-- What is shown at an identifier is worth something, nothing is worth zero. -/
def worthAt (worth : ν → G) (shown : Option ν) : G := shown.elim 0 worth

@[simp] theorem worthAt_none (worth : ν → G) : worthAt worth none = 0 := rfl

@[simp] theorem worthAt_some (worth : ν → G) (v : ν) : worthAt worth (some v) = worth v := rfl

/-- The sum of the worths of all values shown. -/
noncomputable def tally (worth : ν → G) (view : ι → Option ν) : G := ∑ᶠ id, worthAt worth (view id)

/-- The view shows a value at finitely many identifiers. -/
def Finitely (view : ι → Option ν) : Prop := {id | view id ≠ none}.Finite

variable {view : ι → Option ν}

theorem Finitely.support (h : Finitely view) (worth : ν → G) : (support fun id => worthAt worth (view id)).Finite := by
  apply h.subset
  intro id hid hnone
  exact hid (by simp [hnone])

theorem tally_none (worth : ν → G) : tally worth (fun _ : ι => none) = 0 := by simp [tally]

variable [DecidableEq ι]

theorem Finitely.update (h : Finitely view) (id : ι) (v : Option ν) : Finitely (update view id v) := by
  apply (h.insert id).subset
  intro i hi
  by_cases heq : i = id
  · exact Set.mem_insert_iff.mpr (.inl heq)
  · exact Set.mem_insert_iff.mpr (.inr fun hnone => hi (by rw [update_of_ne heq, hnone]))

/-- A tally follows an update by the difference it makes. -/
theorem tally_update (h : Finitely view) (worth : ν → G) (id : ι) (v : Option ν) :
    tally worth (update view id v) = tally worth view + (worthAt worth v - worthAt worth (view id)) := by
  have hsp : (fun i => worthAt worth (update view id v i)) = fun i =>
      worthAt worth (view i) + if i = id then worthAt worth v - worthAt worth (view id) else 0 := by
    funext i
    by_cases heq : i = id
    · subst heq
      simp
    · simp [heq]
  have hone : (support fun i =>
      if i = id then worthAt worth v - worthAt worth (view id) else 0).Finite := by
    apply (Set.finite_singleton id).subset
    intro i hi
    by_contra hne
    simp only [Set.mem_singleton_iff] at hne
    simp [hne] at hi
  calc tally worth (update view id v)
      = ∑ᶠ i, (worthAt worth (view i) + if i = id then worthAt worth v - worthAt worth (view id) else 0) := by rw [tally, hsp]
    _ = tally worth view + ∑ᶠ i,
          (if i = id then worthAt worth v - worthAt worth (view id) else 0) :=
        finsum_add_distrib (h.support worth) hone
    _ = tally worth view + (worthAt worth v - worthAt worth (view id)) := by rw [finsum_eq_single _ id fun i hi => if_neg hi, if_pos rfl]

omit [DecidableEq ι] in
theorem map_tally (h : Finitely view) (φ : G →+ H) (worth : ν → G) : φ (tally worth view) = tally (fun v => φ (worth v)) view := by
  rw [tally, φ.map_finsum (h.support worth), tally]
  apply finsum_congr
  intro id
  cases view id <;> simp

omit [DecidableEq ι] in
theorem tally_indicator (h : Finitely view) (p : ν → Prop) [DecidablePred p] :
    tally (fun v => if p v then (1 : ℤ) else 0) view = ({id | ∃ v, view id = some v ∧ p v}.ncard : ℤ) := by
  have hfin : {id | ∃ v, view id = some v ∧ p v}.Finite := by
    apply h.subset
    rintro id ⟨v, hv, -⟩ hnone
    rw [hv] at hnone
    cases hnone
  have hworth : ∀ id, worthAt (fun v => if p v then (1 : ℤ) else 0) (view id) ≠ 0 → ∃ v, view id = some v ∧ p v := by
    intro id hid
    cases hv : view id with
    | none => simp [hv] at hid
    | some v => exact ⟨v, rfl, by simpa [hv] using hid⟩
  have hsupp : (support fun id =>
      worthAt (fun v => if p v then (1 : ℤ) else 0) (view id)) ⊆ hfin.toFinset := by
    intro id hid
    simpa using hworth id hid
  have hone : ∀ id ∈ hfin.toFinset,
      worthAt (fun v => if p v then (1 : ℤ) else 0) (view id) = 1 := by
    intro id hid
    obtain ⟨v, hv, hp⟩ := hfin.mem_toFinset.mp hid
    simp [hv, hp]
  rw [tally, finsum_eq_sum_of_support_subset _ hsupp, Finset.sum_congr rfl hone, Set.ncard_eq_toFinset_card _ hfin]
  simp

theorem tally_eq_sum {ρ : Type*} {worth : ν → G} {list : List ρ} {value : ρ → G} (idOf : ρ → ι)
    (hnd : (list.map idOf).Nodup) (hmem : ∀ r ∈ list, ∃ v, view (idOf r) = some v ∧ worth v = value r)
    (hrest : ∀ id v, view id = some v → id ∉ list.map idOf → worth v = 0) : tally worth view = (list.map value).sum := by
  have hsupp : (support fun id => worthAt worth (view id)) ⊆ (list.map idOf).toFinset := by
    intro id hid
    by_contra hout
    rw [coe_toFinset] at hout
    cases hview : view id with
    | none => exact hid (by simp [hview])
    | some v => exact hid (by simp [hview, hrest id v hview hout])
  have hvals : list.map (fun r => worthAt worth (view (idOf r))) = list.map value := by
    apply map_congr_left
    intro r hr
    obtain ⟨v, hview, hworth⟩ := hmem r hr
    rw [hview, worthAt_some, hworth]
  rw [tally, finsum_eq_sum_of_support_subset _ hsupp, sum_toFinset _ hnd, map_map]
  exact congrArg List.sum hvals

omit [DecidableEq ι] in
theorem tally_congr {view : ι → Option ν} {worth other : ν → G} (h : ∀ id v, view id = some v → worth v = other v) :
    tally worth view = tally other view := by
  apply finsum_congr
  intro id
  cases hview : view id with
  | none => rfl
  | some v => exact h id v hview

end OverGraph.Tallies
