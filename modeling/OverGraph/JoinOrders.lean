import Mathlib.Data.Multiset.Bind

/-!
# Joins by extension

A pattern is a list of pieces, each with its candidates. A row is extended piece by piece with
the bindings of a candidate, as far as they agree with what the row binds already. The rows
do not depend on the order of the pieces: they are those of all choices of one candidate for
each piece whose bindings are consistent.
-/

namespace OverGraph.JoinOrders

open List Function

inductive SlotState (ι : Type*) where
  | unbound
  | null
  | bound (value : ι)
  deriving DecidableEq

section
variable {σ ι : Type*} [DecidableEq σ] [DecidableEq ι] (check : σ → ι → Bool)

def bindSlot (slots : σ → SlotState ι) (slot : σ) (value : ι) : Option (σ → SlotState ι) :=
  match slots slot with
  | .unbound => if check slot value then some (Function.update slots slot (.bound value)) else none
  | .null => none
  | .bound existing => if existing = value then some slots else none

def bindAll (slots : σ → SlotState ι) : List (σ × ι) → Option (σ → SlotState ι)
  | [] => some slots
  | (slot, value) :: bs => (bindSlot check slots slot value).bind fun slots => bindAll slots bs

def admits (slots : σ → SlotState ι) (b : σ × ι) : Bool :=
  match slots b.1 with
  | .unbound => check b.1 b.2
  | .null => false
  | .bound existing => decide (existing = b.2)

/-- The slots admit the bindings, and no slot is bound to two values. -/
def consistent (slots : σ → SlotState ι) (bs : List (σ × ι)) : Bool :=
  bs.all (admits check slots) &&
    bs.all fun b => bs.all fun other => decide (b.1 = other.1 → b.2 = other.2)

def bindingOf (slot : σ) (bs : List (σ × ι)) : Option (σ × ι) := bs.find? fun b => decide (b.1 = slot)

/-- The slots with the bindings entered. -/
def assigned (slots : σ → SlotState ι) (bs : List (σ × ι)) : σ → SlotState ι :=
  fun slot => match bindingOf slot bs with
    | some b => .bound b.2
    | none => slots slot

variable {bs : List (σ × ι)}

theorem consistent_iff {slots : σ → SlotState ι} :
    consistent check slots bs = true ↔ (∀ b ∈ bs, admits check slots b = true) ∧ ∀ b ∈ bs, ∀ other ∈ bs, b.1 = other.1 → b.2 = other.2 := by
  rw [consistent, Bool.and_eq_true, all_eq_true, all_eq_true]
  simp only [all_eq_true, decide_eq_true_eq]

variable {slot : σ}

omit [DecidableEq ι] in
theorem bindingOf_some {b : σ × ι} (h : bindingOf slot bs = some b) : b ∈ bs ∧ b.1 = slot := by
  have hslot := find?_some h
  exact ⟨mem_of_find?_eq_some h, of_decide_eq_true hslot⟩

omit [DecidableEq ι] in
theorem bindingOf_none : bindingOf slot bs = none ↔ ∀ b ∈ bs, b.1 ≠ slot := by simp [bindingOf]

variable (slots : σ → SlotState ι)

section
variable (slot : σ) (value : ι)

theorem bindSlot_admits : bindSlot check slots slot value =
      if admits check slots (slot, value) then some (update slots slot (.bound value)) else none := by
  rw [bindSlot, admits]
  cases hslot : slots slot with
  | unbound | null => rfl
  | bound existing =>
    dsimp only
    by_cases heq : existing = value
    · subst heq
      simp only [if_true, decide_true]
      rw [← hslot, update_eq_self]
    · simp [heq]

theorem admits_update (b : σ × ι) : admits check (update slots slot (.bound value)) b =
      if b.1 = slot then decide (value = b.2) else admits check slots b := by
  rw [admits]
  by_cases heq : b.1 = slot
  · rw [heq, update_self, if_pos rfl]
  · rw [update_of_ne heq, if_neg heq]
    rfl

theorem consistent_cons (bs : List (σ × ι)) :
    consistent check slots ((slot, value) :: bs) = true ↔ admits check slots (slot, value) = true ∧
      consistent check (update slots slot (.bound value)) bs = true := by
  rw [consistent_iff, consistent_iff]
  constructor
  · rintro ⟨hadm, hagree⟩
    refine ⟨hadm _ mem_cons_self, ?_, ?_⟩
    · intro b hbind
      rw [admits_update]
      split
      · rename_i heq
        exact decide_eq_true (hagree (slot, value) mem_cons_self b (mem_cons_of_mem _ hbind) heq.symm)
      · exact hadm b (mem_cons_of_mem _ hbind)
    · intro b hbind other hoth
      exact hagree b (mem_cons_of_mem _ hbind) other (mem_cons_of_mem _ hoth)
  · rintro ⟨hfst, hadm, hagree⟩
    have hslot : ∀ b ∈ bs, b.1 = slot → value = b.2 := by
      intro b hbind heq
      have hadmit := hadm b hbind
      rw [admits_update, if_pos heq] at hadmit
      exact of_decide_eq_true hadmit
    refine ⟨?_, ?_⟩
    · intro b hmem
      rcases mem_cons.mp hmem with rfl | hbind
      · exact hfst
      · by_cases heq : b.1 = slot
        · obtain ⟨other, otherValue⟩ := b
          dsimp only at heq
          subst heq
          have hval : value = otherValue := hslot _ hbind rfl
          rw [← hval]
          exact hfst
        · have hadmit := hadm b hbind
          rw [admits_update, if_neg heq] at hadmit
          exact hadmit
    · intro b hbind other hoth heq
      rcases mem_cons.mp hbind with rfl | hbind <;> rcases mem_cons.mp hoth with rfl | hoth
      · rfl
      · exact hslot other hoth heq.symm
      · exact (hslot b hbind heq).symm
      · exact hagree b hbind other hoth heq

end

theorem assigned_cons {slots : σ → SlotState ι} {value : ι}
    (h : consistent check slots ((slot, value) :: bs) = true) :
    assigned slots ((slot, value) :: bs) = assigned (update slots slot (.bound value)) bs := by
  funext other
  rw [assigned, assigned]
  by_cases heq : slot = other
  · subst heq
    have hfst : bindingOf slot ((slot, value) :: bs) = some (slot, value) := by simp [bindingOf]
    rw [hfst]
    cases hfind : bindingOf slot bs with
    | none => rw [update_self]
    | some b =>
      obtain ⟨hmem, hslot⟩ := bindingOf_some hfind
      have hval := ((consistent_iff check).mp h).2 (slot, value) mem_cons_self b
        (mem_cons_of_mem _ hmem) hslot.symm
      dsimp only at hval ⊢
      rw [hval]
  · have hskip : bindingOf other ((slot, value) :: bs) = bindingOf other bs := by simp [bindingOf, heq]
    rw [hskip, update_of_ne (Ne.symm heq)]

theorem bindAll_eq (bs : List (σ × ι)) : bindAll check slots bs = if consistent check slots bs then some (assigned slots bs) else none := by
  induction bs generalizing slots with
  | nil => rfl
  | cons b bs ih =>
    obtain ⟨slot, value⟩ := b
    rw [bindAll, bindSlot_admits]
    by_cases hadm : admits check slots (slot, value) = true
    · rw [if_pos hadm, Option.bind_some, ih]
      by_cases hrest : consistent check (update slots slot (.bound value)) bs = true
      · have hall := (consistent_cons check slots slot value bs).mpr ⟨hadm, hrest⟩
        rw [if_pos hrest, if_pos hall, assigned_cons check hall]
      · rw [if_neg hrest, if_neg fun hall => hrest ((consistent_cons check slots slot value bs).mp hall).2]
    · rw [if_neg hadm, if_neg fun hall => hadm ((consistent_cons check slots slot value bs).mp hall).1]
      rfl

theorem bindAll_append (fst snd : List (σ × ι)) :
    bindAll check slots (fst ++ snd) = (bindAll check slots fst).bind fun slots => bindAll check slots snd := by
  induction fst generalizing slots with
  | nil => rfl
  | cons b fst ih =>
    rw [cons_append, bindAll, bindAll, Option.bind_assoc]
    congr 1
    funext slots
    exact ih slots

theorem bindAll_perm {fst snd : List (σ × ι)} (h : fst.Perm snd) : bindAll check slots fst = bindAll check slots snd := by
  have hcst : consistent check slots fst = true ↔ consistent check slots snd = true := by simp only [consistent_iff, h.mem_iff]
  rw [bindAll_eq, bindAll_eq]
  by_cases hfst : consistent check slots fst = true
  · rw [if_pos hfst, if_pos (hcst.mp hfst)]
    congr 1
    funext slot
    rw [assigned, assigned]
    cases hfind : bindingOf slot fst with
    | none =>
      have hnone : bindingOf slot snd = none := by
        rw [bindingOf_none] at hfind ⊢
        intro b hbind
        exact hfind b (h.mem_iff.mpr hbind)
      rw [hnone]
    | some b =>
      obtain ⟨hmem, hslot⟩ := bindingOf_some hfind
      cases hoth : bindingOf slot snd with
      | none => exact absurd hslot (bindingOf_none.mp hoth b (h.mem_iff.mp hmem))
      | some other =>
        obtain ⟨hmem', hslot'⟩ := bindingOf_some hoth
        have hval := ((consistent_iff check).mp hfst).2 b hmem other (h.mem_iff.mpr hmem')
          (hslot.trans hslot'.symm)
        dsimp only
        rw [hval]
  · rw [if_neg hfst, if_neg fun hsnd => hfst (hcst.mpr hsnd)]

theorem bindAll_cons_mem {b : σ × ι}
    (h : b ∈ bs) : bindAll check slots (b :: bs) = bindAll check slots bs := by
  have hmem : ∀ other, other ∈ b :: bs ↔ other ∈ bs := by
    intro other
    rw [mem_cons]
    exact ⟨fun hoth => hoth.elim (fun heq => heq ▸ h) id, Or.inr⟩
  have hcst : consistent check slots (b :: bs) = true ↔ consistent check slots bs = true := by simp only [consistent_iff, hmem]
  rw [bindAll_eq, bindAll_eq]
  by_cases hbinds : consistent check slots bs = true
  · rw [if_pos hbinds, if_pos (hcst.mpr hbinds)]
    congr 1
    funext slot
    rw [assigned, assigned]
    by_cases hslot : b.1 = slot
    · have hfst : bindingOf slot (b :: bs) = some b := by simp [bindingOf, hslot]
      rw [hfst]
      cases hoth : bindingOf slot bs with
      | none => exact absurd hslot (bindingOf_none.mp hoth b h)
      | some other =>
        obtain ⟨hmem', hslot'⟩ := bindingOf_some hoth
        dsimp only
        rw [((consistent_iff check).mp hbinds).2 b h other hmem' (hslot.trans hslot'.symm)]
    · have hskip : bindingOf slot (b :: bs) = bindingOf slot bs := by simp [bindingOf, hslot]
      rw [hskip]
  · rw [if_neg hbinds, if_neg fun hall => hbinds (hcst.mp hall)]

theorem bindAll_cons_conflict {value other : ι}
    (h : (slot, other) ∈ bs) (hne : value ≠ other) : bindAll check slots ((slot, value) :: bs) = none := by
  rw [bindAll_eq, if_neg]
  intro hcst
  exact hne (((consistent_iff check).mp hcst).2 _ mem_cons_self _ (mem_cons_of_mem _ h) rfl)

end

theorem flatMap_comm {α β γ : Type*} (fst : List α) (snd : List β) (f : α → β → List γ) :
    (fst.flatMap fun a => snd.flatMap (f a)).Perm (snd.flatMap fun b => fst.flatMap fun a => f a b) := by
  rw [← Multiset.coe_eq_coe]
  simp only [← Multiset.coe_bind]
  exact Multiset.bind_bind (fst : Multiset α) (snd : Multiset β)

section
variable {ε γ ρ β : Type*} (cs : ε → List γ) (bs : ε → γ → List β) (enter : ρ → List β → Option ρ)

def extend (piece : ε) (row : ρ) : List ρ := (cs piece).filterMap fun c => enter row (bs piece c)

def extendAll : List ε → ρ → List ρ
  | [], row => [row]
  | piece :: pieces, row => (extend cs bs enter piece row).flatMap (extendAll pieces)

def choices : List ε → List (List (ε × γ))
  | [] => [[]]
  | piece :: pieces => (cs piece).flatMap fun c => (choices pieces).map fun choice => (piece, c) :: choice

def choiceBindings (choice : List (ε × γ)) : List β := choice.flatMap fun chosen => bs chosen.1 chosen.2

/-- Bindings can be entered in parts and in any order. -/
structure Enters : Prop where
  nil : ∀ row, enter row [] = some row
  append : ∀ row fst snd, enter row (fst ++ snd) = (enter row fst).bind fun row => enter row snd
  perm : ∀ row {fst snd : List β}, fst.Perm snd → enter row fst = enter row snd

variable {cs bs enter}

theorem filterMap_flatMap_option {α δ : Type*} (l : List α) (f : α → Option ρ) (g : ρ → List δ) :
    (l.filterMap f).flatMap g = l.flatMap fun a => ((f a).map g).getD [] := by
  induction l with
  | nil => rfl
  | cons a l ih => cases hf : f a <;> simp [hf, ih]

theorem bind_filterMap {α : Type*} (row : Option ρ) (l : List α) (f : ρ → α → Option ρ) :
    ((row.map fun row => l.filterMap (f row)).getD []) = l.filterMap fun a => row.bind fun row => f row a := by
  cases row with
  | none | some row => simp

theorem map_fst_choice {pieces : List ε} {choice : List (ε × γ)} (h : choice ∈ choices cs pieces) : choice.map Prod.fst = pieces := by
  induction pieces generalizing choice with
  | nil =>
    rw [choices, mem_singleton] at h
    rw [h]
    rfl
  | cons piece pieces ih =>
    rw [choices, mem_flatMap] at h
    obtain ⟨c, -, hmem⟩ := h
    obtain ⟨rest, hrest, rfl⟩ := mem_map.mp hmem
    rw [map_cons, ih hrest]

section
variable (h : Enters enter)
include h

/-- The rows are those of the choices whose bindings can be entered. -/
theorem extendAll_eq (pieces : List ε) (row : ρ) : extendAll cs bs enter pieces row =
      (choices cs pieces).filterMap fun choice => enter row (choiceBindings bs choice) := by
  induction pieces generalizing row with
  | nil => simp [extendAll, choices, choiceBindings, h.nil]
  | cons piece pieces ih =>
    rw [extendAll, extend, filterMap_flatMap_option, choices, filterMap_flatMap]
    congr 1
    funext c
    rw [filterMap_map, funext ih, bind_filterMap]
    congr 1
    funext choice
    rw [← h.append]
    rfl

theorem extend_extend (piece other : ε) (row : ρ) :
    (extend cs bs enter piece row).flatMap (extend cs bs enter other) = (cs piece).flatMap fun c => (cs other).flatMap fun d =>
        (enter row (bs piece c ++ bs other d)).toList := by
  rw [extend, filterMap_flatMap_option]
  congr 1
  funext c
  rw [show extend cs bs enter other = fun row => (cs other).filterMap fun d =>
    enter row (bs other d) from rfl, bind_filterMap, filterMap_eq_flatMap_toList]
  congr 1
  funext d
  rw [h.append]

theorem extend_comm (piece other : ε) (row : ρ) :
    ((extend cs bs enter piece row).flatMap (extend cs bs enter other)).Perm
      ((extend cs bs enter other row).flatMap (extend cs bs enter piece)) := by
  rw [extend_extend h, extend_extend h]
  refine (flatMap_comm _ _ _).trans (Perm.of_eq ?_)
  congr 1
  funext d
  congr 1
  funext c
  rw [h.perm row perm_append_comm]

/-- The order of the pieces does not matter. -/
theorem extendAll_perm {pieces others : List ε} (hperm : pieces.Perm others) (row : ρ) :
    (extendAll cs bs enter pieces row).Perm (extendAll cs bs enter others row) := by
  induction hperm generalizing row with
  | nil => exact Perm.refl _
  | cons piece _ ih => exact Perm.flatMap_left _ fun extended _ => ih extended
  | swap piece other pieces =>
    have hassoc : ∀ fst snd : ε, extendAll cs bs enter (fst :: snd :: pieces) row =
        ((extend cs bs enter fst row).flatMap (extend cs bs enter snd)).flatMap
          (extendAll cs bs enter pieces) := fun fst snd => flatMap_assoc.symm
    rw [hassoc, hassoc]
    exact (extend_comm h other piece row).flatMap_right _
  | trans _ _ ih ih' => exact (ih row).trans (ih' row)

end

end

end OverGraph.JoinOrders
