import Mathlib.Data.List.Forall2

/-!
# Lists paired entry by entry

Two lists are paired by a relation when they are as long as each other and related entry
by entry. Here is how such pairs are read and taken apart.
-/

namespace OverGraph.PairedLists

open List

variable {α β γ : Type*} {R : α → β → Prop} {as : List α} {bs : List β}

theorem map_eq {f : α → γ} {g : β → γ} (h : Forall₂ R as bs) (hfg : ∀ a b, R a b → f a = g b) : as.map f = bs.map g := by
  induction h with
  | nil => rfl
  | cons hab _ ih => rw [map_cons, map_cons, hfg _ _ hab, ih]

theorem flatMap_eq {f : α → List γ} {g : β → List γ} (h : Forall₂ R as bs) (hfg : ∀ a b, R a b → f a = g b) :
    as.flatMap f = bs.flatMap g := by
  rw [flatMap_def, flatMap_def, map_eq h hfg]

theorem exists_right (h : Forall₂ R as bs) {a : α} (ha : a ∈ as) : ∃ b ∈ bs, R a b := by
  induction h with
  | nil => cases ha
  | @cons _ b _ _ hab _ ih =>
    obtain rfl | ha := mem_cons.mp ha
    · exact ⟨b, mem_cons_self, hab⟩
    · obtain ⟨b', hb', hR⟩ := ih ha
      exact ⟨b', mem_cons_of_mem _ hb', hR⟩

end OverGraph.PairedLists
