import Mathlib.Data.List.Dedup
import Mathlib.Data.List.Sort
import Mathlib.Algebra.Order.BigOperators.Group.List
import Mathlib.Tactic.Linarith

/-!
# Merging ascending candidates

Each layer has a list of candidates in ascending order. They are merged, each candidate once.
-/

namespace OverGraph.CandidateScans

open Option hiding mem_map mem_map_of_mem
open List

/-- Ascending, each entry once. -/
abbrev Ascending (ids : List ℕ) : Prop := ids.Pairwise (· < ·)

theorem ascending_insertionSort {ids : List ℕ} (h : ids.Nodup) : Ascending (ids.insertionSort (· ≤ ·)) :=
  ((pairwise_insertionSort (· ≤ ·) ids).and ((perm_insertionSort _ ids).nodup_iff.mpr h)).imp
    fun hab => lt_of_le_of_ne hab.1 hab.2

/-- The least next candidate, and the first list that offers it. -/
def leastSource : List (List ℕ) → Option (ℕ × ℕ)
  | [] => none
  | [] :: srcs => (leastSource srcs).map fun least => (least.1, least.2 + 1)
  | (id :: _) :: srcs =>
    match leastSource srcs with
    | none => some (id, 0)
    | some (other, idx) => if id ≤ other then some (id, 0) else some (other, idx + 1)

/-- Take candidates in ascending order from several lists, each once. The first list that offers
a candidate says whether it is kept. -/
def mergeScan (keep : ℕ → ℕ → Bool) : ℕ → Option ℕ → List (List ℕ) → List ℕ
  | 0, _, _ => []
  | fuel + 1, last, srcs =>
    match leastSource srcs with
    | none => []
    | some (id, idx) =>
      let rest := mergeScan keep fuel (some id) (srcs.modify idx List.tail)
      if last = some id then rest
      else if keep idx id then id :: rest
      else rest

/-- The merge of all that the lists hold above a cursor. -/
def scanSources (keep : ℕ → ℕ → Bool) (after : Option ℕ) (srcs : List (List ℕ)) : List ℕ :=
  let srcs := srcs.map fun source => source.filter fun id => after.all (decide <| · < id)
  mergeScan keep (srcs.map List.length).sum none srcs

theorem leastSource_none {srcs : List (List ℕ)} (h : leastSource srcs = none) : ∀ src ∈ srcs, src = [] := by
  induction srcs with
  | nil => simp
  | cons src srcs ih =>
    cases src with
    | nil =>
      rw [leastSource, map_eq_none_iff] at h
      intro other hoth
      rcases mem_cons.mp hoth with rfl | hoth
      · rfl
      · exact ih h other hoth
    | cons id src =>
      rw [leastSource] at h
      split at h
      · cases h
      · split at h <;> cases h

/-- The least candidate is the head of the list it comes from, at most every candidate, and less
than the candidates of the lists before. -/
theorem leastSource_some {srcs : List (List ℕ)} (hsort : ∀ src ∈ srcs, Ascending src) {id idx : ℕ}
    (h : leastSource srcs = some (id, idx)) :
    (∃ src, srcs[idx]? = some (id :: src)) ∧ (∀ src ∈ srcs, ∀ other ∈ src, id ≤ other) ∧
      ∀ i < idx, ∀ src, srcs[i]? = some src → id ∉ src := by
  induction srcs generalizing idx id with
  | nil => cases h
  | cons src srcs ih =>
    have hrest : ∀ other ∈ srcs, Ascending other := fun other hoth => hsort other (mem_cons_of_mem _ hoth)
    cases src with
    | nil =>
      rw [leastSource, map_eq_some_iff] at h
      obtain ⟨⟨least, position⟩, hlst, heq⟩ := h
      obtain ⟨rfl, rfl⟩ := Prod.mk.inj heq
      obtain ⟨hhead, hle, hfst⟩ := ih hrest hlst
      refine ⟨by simpa using hhead, ?_, ?_⟩
      · intro other hoth
        rcases mem_cons.mp hoth with rfl | hoth
        · simp
        · exact hle other hoth
      · intro i hi other hoth
        cases i with
        | zero =>
          rw [← some.inj hoth]
          simp
        | succ i => exact hfst i (by omega) other (by simpa using hoth)
    | cons head src =>
      have hab : ∀ other ∈ src, head < other := fun other hoth => rel_of_pairwise_cons (hsort _ mem_cons_self) hoth
      have hhere : (∀ other ∈ srcs, ∀ x ∈ other, head ≤ x) → ∀ other ∈ (head :: src) :: srcs, ∀ x ∈ other, head ≤ x := by
        intro hall other hoth x hx
        rcases mem_cons.mp hoth with rfl | hoth
        · rcases mem_cons.mp hx with rfl | hx
          · exact le_refl _
          · exact (hab x hx).le
        · exact hall other hoth x hx
      rw [leastSource] at h
      split at h
      · rename_i hnone
        obtain ⟨rfl, rfl⟩ := Prod.mk.inj (some.inj h)
        refine ⟨⟨src, rfl⟩, hhere ?_, fun i hi => absurd hi (by omega)⟩
        intro other hoth x hx
        rw [leastSource_none hnone other hoth] at hx
        cases hx
      · rename_i least position hlst
        obtain ⟨hhead, hle, hfst⟩ := ih hrest hlst
        split at h
        · rename_i hlt
          obtain ⟨rfl, rfl⟩ := Prod.mk.inj (some.inj h)
          exact ⟨⟨src, rfl⟩, hhere fun other hoth x hx => hlt.trans (hle other hoth x hx), fun i hi => absurd hi (by omega)⟩
        · rename_i hgt
          obtain ⟨rfl, rfl⟩ := Prod.mk.inj (some.inj h)
          refine ⟨by simpa using hhead, ?_, ?_⟩
          · intro other hoth x hx
            rcases mem_cons.mp hoth with rfl | hoth
            · rcases mem_cons.mp hx with rfl | hx
              · omega
              · have := hab x hx
                omega
            · exact hle other hoth x hx
          · intro i hi other hoth
            cases i with
            | zero =>
              rw [← some.inj hoth]
              intro hmem
              rcases mem_cons.mp hmem with hmem | hmem
              · omega
              · have := hab _ hmem
                omega
            | succ i => exact hfst i (by omega) other (by simpa using hoth)

section
variable {srcs : List (List ℕ)} {idx : ℕ}

theorem mem_of_modify {i : ℕ} {src : List ℕ} (h : (srcs.modify idx List.tail)[i]? = some src) :
    ∃ whole, srcs[i]? = some whole ∧ src.Sublist whole ∧ (i ≠ idx → src = whole) ∧ (i = idx → src = whole.tail) := by
  rw [List.getElem?_modify, Option.map_eq_map, map_eq_some_iff] at h
  obtain ⟨whole, hwh, heq⟩ := h
  refine ⟨whole, hwh, ?_, ?_, ?_⟩
  · split at heq
    · rw [← heq]
      exact tail_sublist whole
    · rw [heq]
  · intro hne
    rw [if_neg (Ne.symm hne)] at heq
    exact heq.symm
  · intro hix
    rw [if_pos hix.symm] at heq
    exact heq.symm

theorem sum_length_modify {head : ℕ} {src : List ℕ} (h : srcs[idx]? = some (head :: src)) :
    ((srcs.modify idx List.tail).map List.length).sum + 1 = (srcs.map List.length).sum := by
  induction srcs generalizing idx with
  | nil => cases h
  | cons fst srcs ih =>
    cases idx with
    | zero =>
      rw [some.inj h]
      simp
      omega
    | succ idx =>
      have hrest := @ih idx (by simpa using h)
      simp only [modify_succ_cons, map_cons, sum_cons]
      omega

end

/-- The merge is ascending, above the last candidate, and has the candidates that the first list
to offer them keeps. -/
theorem mergeScan_spec {keep : ℕ → ℕ → Bool} {fuel : ℕ} {last : Option ℕ} {srcs : List (List ℕ)}
    (hsort : ∀ src ∈ srcs, Ascending src) (hfuel : (srcs.map List.length).sum ≤ fuel)
    (hlast : ∀ seen ∈ last, ∀ src ∈ srcs, ∀ id ∈ src, seen ≤ id) :
    Ascending (mergeScan keep fuel last srcs) ∧
    (∀ id ∈ mergeScan keep fuel last srcs, (∀ seen ∈ last, seen < id) ∧ ∃ src ∈ srcs, id ∈ src) ∧
    ∀ i src id, srcs[i]? = some src → id ∈ src →
      (∀ j < i, ∀ other, srcs[j]? = some other → id ∉ other) → keep i id = true → last ≠ some id →
      id ∈ mergeScan keep fuel last srcs := by
  induction fuel generalizing last srcs with
  | zero =>
    refine ⟨List.Pairwise.nil, fun id hid => (not_mem_nil hid).elim, ?_⟩
    intro i src id hsrc hid
    have hpos : src.length ≤ (srcs.map List.length).sum := le_sum_of_mem (mem_map_of_mem (mem_of_getElem? hsrc))
    have := length_pos_of_mem hid
    omega
  | succ fuel ih =>
    rw [mergeScan]
    split
    · rename_i hnone
      refine ⟨List.Pairwise.nil, fun id hid => (not_mem_nil hid).elim, ?_⟩
      intro i src id hsrc hid
      rw [leastSource_none hnone src (mem_of_getElem? hsrc)] at hid
      cases hid
    · rename_i least idx hlst
      obtain ⟨⟨tail, hhead⟩, hle, hfst⟩ := leastSource_some hsort hlst
      have hparts : ∀ src ∈ srcs.modify idx List.tail, ∃ whole ∈ srcs, src.Sublist whole := by
        intro src hsrc
        obtain ⟨i, hi⟩ := mem_iff_getElem?.mp hsrc
        obtain ⟨whole, hwh, hsub, -⟩ := mem_of_modify hi
        exact ⟨whole, mem_of_getElem? hwh, hsub⟩
      obtain ⟨hasc, hab, hcomp⟩ := @ih (some least) (srcs.modify idx List.tail)
        (by
          intro src hsrc
          obtain ⟨whole, hwh, hsub⟩ := hparts src hsrc
          exact (hsort whole hwh).sublist hsub)
        (by
          have := sum_length_modify hhead
          omega)
        (by
          intro seen hseen src hsrc id hid
          rw [← some.inj hseen]
          obtain ⟨whole, hwh, hsub⟩ := hparts src hsrc
          exact hle whole hwh id (hsub.subset hid))
      have hrest : ∀ id ∈ mergeScan keep fuel (some least) (srcs.modify idx List.tail),
          least < id ∧ ∃ src ∈ srcs, id ∈ src := by
        intro id hid
        obtain ⟨hgt, src, hsrc, hmem⟩ := hab id hid
        obtain ⟨whole, hwh, hsub⟩ := hparts src hsrc
        exact ⟨hgt least rfl, whole, hwh, hsub.subset hmem⟩
      have hlastLeast : ∀ seen ∈ last, seen ≤ least := fun seen hseen => hlast seen hseen _ (mem_of_getElem? hhead) least mem_cons_self
      have haft : ∀ id ∈ mergeScan keep fuel (some least) (srcs.modify idx List.tail),
          (∀ seen ∈ last, seen < id) ∧ ∃ src ∈ srcs, id ∈ src := by
        intro id hid
        obtain ⟨hgt, hmem⟩ := hrest id hid
        exact ⟨fun seen hseen => (hlastLeast seen hseen).trans_lt hgt, hmem⟩
      -- a candidate above the least is still offered first by the same list
      have hoth : ∀ i src id, srcs[i]? = some src → id ∈ src →
          (∀ j < i, ∀ other, srcs[j]? = some other → id ∉ other) → keep i id = true → id ≠ least →
          id ∈ mergeScan keep fuel (some least) (srcs.modify idx List.tail) := by
        intro i src id hsrc hid hmin hkeep hne
        have hmodi : ∃ part, (srcs.modify idx List.tail)[i]? = some part ∧ id ∈ part := by
          rw [List.getElem?_modify, hsrc]
          by_cases hi : idx = i
          · rw [← hi, hhead] at hsrc
            refine ⟨tail, ?_, ?_⟩
            · rw [← some.inj hsrc]
              simp [hi]
            · rw [← some.inj hsrc] at hid
              exact (mem_cons.mp hid).resolve_left hne
          · exact ⟨src, by simp [hi], hid⟩
        obtain ⟨part, hpart, hmem⟩ := hmodi
        refine hcomp i part id hpart hmem ?_ hkeep (fun heq => hne (some.inj heq).symm)
        intro j hj other hoth' hmem'
        obtain ⟨whole, hwh, hsub, -⟩ := mem_of_modify hoth'
        exact hmin j hj whole hwh (hsub.subset hmem')
      have hix : ∀ i src, srcs[i]? = some src → least ∈ src → (∀ j < i, ∀ other, srcs[j]? = some other → least ∉ other) → i = idx := by
        intro i src hsrc hmem hmin
        by_contra hne
        rcases Nat.lt_or_ge i idx with hlt | hge
        · exact hfst i hlt src hsrc hmem
        · exact hmin idx (by omega) _ hhead mem_cons_self
      dsimp only
      split
      · rename_i hseen
        refine ⟨hasc, haft, ?_⟩
        intro i src id hsrc hid hmin hkeep hne
        refine hoth i src id hsrc hid hmin hkeep ?_
        rintro rfl
        exact hne hseen
      · rename_i hseen
        have hleastAbove : ∀ seen ∈ last, seen < least := by
          intro seen hmem
          refine lt_of_le_of_ne (hlastLeast seen hmem) ?_
          rintro rfl
          exact hseen hmem
        split
        · refine ⟨pairwise_cons.mpr ⟨fun id hid => (hrest id hid).1, hasc⟩, ?_, ?_⟩
          · intro id hid
            rcases mem_cons.mp hid with rfl | hid
            · exact ⟨hleastAbove, _, mem_of_getElem? hhead, mem_cons_self⟩
            · exact haft id hid
          · intro i src id hsrc hid hmin hkeep hne
            by_cases heq : id = least
            · rw [heq]
              exact mem_cons_self
            · exact mem_cons_of_mem _ (hoth i src id hsrc hid hmin hkeep heq)
        · rename_i hdrop
          refine ⟨hasc, haft, ?_⟩
          intro i src id hsrc hid hmin hkeep hne
          refine hoth i src id hsrc hid hmin hkeep ?_
          rintro rfl
          rw [hix i src hsrc hid hmin] at hkeep
          exact hdrop hkeep

/-- The merge above a cursor. -/
theorem scanSources_spec {keep : ℕ → ℕ → Bool} {after : Option ℕ} {srcs : List (List ℕ)}
    (hsort : ∀ src ∈ srcs, Ascending src) : Ascending (scanSources keep after srcs) ∧
    (∀ id ∈ scanSources keep after srcs, (∀ cursor ∈ after, cursor < id) ∧ ∃ src ∈ srcs, id ∈ src) ∧
    ∀ i src id, srcs[i]? = some src → id ∈ src →
      (∀ j < i, ∀ other, srcs[j]? = some other → id ∉ other) → keep i id = true → (∀ cursor ∈ after, cursor < id) →
      id ∈ scanSources keep after srcs := by
  have hpart : ∀ {i : ℕ} {part : List ℕ},
      (srcs.map fun src => src.filter fun id => after.all (decide <| · < id))[i]? = some part →
      ∃ src, srcs[i]? = some src ∧ part = src.filter fun id => after.all (decide <| · < id) := by
    intro i part h
    rw [getElem?_map, map_eq_some_iff] at h
    obtain ⟨src, hsrc, heq⟩ := h
    exact ⟨src, hsrc, heq.symm⟩
  have hkept : ∀ {src : List ℕ} {id : ℕ},
      id ∈ (src.filter fun id => after.all (decide <| · < id)) ↔ id ∈ src ∧ ∀ cursor ∈ after, cursor < id := by
    intro src id
    rw [mem_filter]
    refine and_congr_right fun _ => ?_
    cases after <;> simp
  obtain ⟨hasc, hab, hcomp⟩ := @mergeScan_spec keep _ none
    (srcs.map fun src => src.filter fun id => after.all (decide <| · < id))
    (by
      intro part hpart
      obtain ⟨src, hsrc, rfl⟩ := mem_map.mp hpart
      exact (hsort src hsrc).sublist filter_sublist)
    (le_refl _) (fun seen hseen => by cases hseen)
  refine ⟨hasc, ?_, ?_⟩
  · intro id hid
    obtain ⟨-, part, hmem, hin⟩ := hab id hid
    obtain ⟨src, hsrc, rfl⟩ := mem_map.mp hmem
    obtain ⟨hin, hcsr⟩ := hkept.mp hin
    exact ⟨hcsr, src, hsrc, hin⟩
  · intro i src id hsrc hid hmin hkeep hcsr
    refine hcomp i (src.filter fun id => after.all (decide <| · < id)) id ?_ (hkept.mpr ⟨hid, hcsr⟩) ?_ hkeep
      (fun heq => by cases heq)
    · rw [getElem?_map, hsrc]
      rfl
    · intro j hj other hoth hmem
      obtain ⟨whole, hwh, rfl⟩ := hpart hoth
      exact hmin j hj whole hwh (hkept.mp hmem).1

/-- A merge that keeps all has what the lists hold above the cursor. -/
theorem mem_scanSources {after : Option ℕ} {srcs : List (List ℕ)} (hsort : ∀ src ∈ srcs, Ascending src) {id : ℕ} :
    id ∈ scanSources (fun _ _ => true) after srcs ↔ (∃ src ∈ srcs, id ∈ src) ∧ ∀ cursor ∈ after, cursor < id := by
  obtain ⟨-, hab, hcomp⟩ := @scanSources_spec (fun _ _ => true) after srcs hsort
  constructor
  · intro hmem
    obtain ⟨hcsr, hsrc⟩ := hab id hmem
    exact ⟨hsrc, hcsr⟩
  · rintro ⟨⟨src, hsrc, hmem⟩, hcsr⟩
    have hsome : ∃ i : ℕ, ∃ src, srcs[i]? = some src ∧ id ∈ src := by
      obtain ⟨i, hi⟩ := mem_iff_getElem?.mp hsrc
      exact ⟨i, src, hi, hmem⟩
    classical
    obtain ⟨fst, hfst, hmemFirst⟩ := Nat.find_spec hsome
    refine hcomp (Nat.find hsome) fst id hfst hmemFirst ?_ rfl hcsr
    intro j hj other hoth hmemOther
    exact Nat.find_min hsome hj ⟨other, hoth, hmemOther⟩

end OverGraph.CandidateScans
