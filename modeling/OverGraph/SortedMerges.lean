import Mathlib.Algebra.GroupWithZero.Nat
import Mathlib.Data.List.Dedup
import Mathlib.Data.List.Sort

/-!
# Merging sorted lists

The least head of several lists is taken again and again, from the first list among equal heads. That merges the lists one into the
other from the back. Of the items of one key in the merge the first is that of the first list that has the key.
-/

namespace OverGraph.SortedMerges

open Option hiding mem_map_of_mem
open List

variable {α : Type} (key : α → ℕ)

def keyLe (a b : α) : Bool := decide (key a ≤ key b)

def leastHead : List (List α) → Option (α × ℕ)
  | [] => none
  | [] :: lists => (leastHead lists).map fun least => (least.1, least.2 + 1)
  | (x :: _) :: lists =>
    match leastHead lists with
    | none => some (x, 0)
    | some (y, idx) => if key x ≤ key y then some (x, 0) else some (y, idx + 1)

def mergeAll (lists : List (List α)) : List α := lists.foldr (fun list merged => list.merge merged (keyLe key)) []

/-- The items whose key is not that of the item before. -/
def firsts (last : Option ℕ) : List α → List α
  | [] => []
  | x :: items => if last = some (key x) then firsts last items else x :: firsts (some (key x)) items

def firstHolding (lists : List (List α)) (k : ℕ) : Option α := lists.findSome? fun list => list.find? fun x => decide (key x = k)

/-- The keys of all lists, in order and once each, with the items of the first lists that have them. -/
def distinctRows (lists : List (List α)) : List α :=
  (((lists.flatMap fun list => list.map key).insertionSort (· ≤ ·)).dedup).filterMap (firstHolding key lists)

/-- The keys never decrease. -/
def Ordered (items : List α) : Prop := items.Pairwise fun a b => key a ≤ key b

/-- The keys increase. -/
def Ascending (items : List α) : Prop := items.Pairwise fun a b => key a < key b

variable {key} {lists : List (List α)}

section
variable {items : List α} (h : Ascending key items) {i j : ℕ} {x y : α} (hx : items[i]? = some x)
  (hy : items[j]? = some y)
include h hx hy

theorem Ascending.lt_of_lt (hij : i < j) : key x < key y := by
  obtain ⟨hi, rfl⟩ := List.getElem?_eq_some_iff.mp hx
  obtain ⟨hj, rfl⟩ := List.getElem?_eq_some_iff.mp hy
  exact pairwise_iff_getElem.mp h i j hi hj hij

theorem Ascending.le_of_le (hij : i ≤ j) : key x ≤ key y := by
  obtain hlt | rfl := hij.lt_or_eq
  · exact (h.lt_of_lt hx hy hlt).le
  · rw [some.inj (hx.symm.trans hy)]

end

theorem mergeAll_cons (list : List α) (lists : List (List α)) :
    mergeAll key (list :: lists) = list.merge (mergeAll key lists) (keyLe key) := rfl

theorem leastHead_none (h : leastHead key lists = none) : mergeAll key lists = [] := by
  induction lists with
  | nil => rfl
  | cons list lists ih =>
    cases list with
    | nil =>
      rw [leastHead, map_eq_none_iff] at h
      rw [mergeAll_cons, ih h, nil_merge]
    | cons x list =>
      rw [leastHead] at h
      split at h
      · cases h
      · split at h <;> cases h

variable {x : α}

theorem leastHead_some {idx : ℕ} (h : leastHead key lists = some (x, idx)) :
    mergeAll key lists = x :: mergeAll key (lists.modify idx tail) ∧ ∃ list, lists[idx]? = some (x :: list) := by
  induction lists generalizing x idx with
  | nil => cases h
  | cons list lists ih =>
    cases list with
    | nil =>
      rw [leastHead, map_eq_some_iff] at h
      obtain ⟨⟨least, position⟩, hlst, heq⟩ := h
      obtain ⟨rfl, rfl⟩ := Prod.mk.inj heq
      obtain ⟨hmerge, hhead⟩ := ih hlst
      refine ⟨?_, by simpa using hhead⟩
      rw [modify_succ_cons, mergeAll_cons, mergeAll_cons, nil_merge, nil_merge, hmerge]
    | cons head list =>
      rw [leastHead] at h
      split at h
      · rename_i hnone
        obtain ⟨rfl, rfl⟩ := Prod.mk.inj (some.inj h)
        refine ⟨?_, list, rfl⟩
        rw [modify_zero_cons, tail_cons, mergeAll_cons, mergeAll_cons, leastHead_none hnone, merge_right, merge_right]
      · rename_i least position hlst
        obtain ⟨hmerge, hhead⟩ := ih hlst
        split at h
        · rename_i hle
          obtain ⟨rfl, rfl⟩ := Prod.mk.inj (some.inj h)
          refine ⟨?_, list, rfl⟩
          rw [modify_zero_cons, tail_cons, mergeAll_cons, mergeAll_cons, hmerge, cons_merge_cons_pos _ _ _ (by simpa [keyLe] using hle)]
        · rename_i hgt
          obtain ⟨rfl, rfl⟩ := Prod.mk.inj (some.inj h)
          refine ⟨?_, by simpa using hhead⟩
          rw [modify_succ_cons, mergeAll_cons, mergeAll_cons, hmerge, cons_merge_cons_neg _ _ _ (by simpa [keyLe] using hgt)]

theorem sum_length_tail {list : List α} {idx : ℕ} (h : lists[idx]? = some (x :: list)) :
    ((lists.modify idx tail).map List.length).sum + 1 = (lists.map List.length).sum := by
  induction lists generalizing idx with
  | nil => cases h
  | cons fst lists ih =>
    cases idx with
    | zero =>
      obtain rfl : fst = x :: list := some.inj h
      rw [modify_zero_cons, map_cons, map_cons, sum_cons, sum_cons, tail_cons, length_cons]
      omega
    | succ idx =>
      have hrest := @ih idx h
      rw [modify_succ_cons, map_cons, map_cons, sum_cons, sum_cons]
      omega

theorem mem_mergeAll : x ∈ mergeAll key lists ↔ ∃ list ∈ lists, x ∈ list := by
  induction lists with
  | nil => simp [mergeAll]
  | cons list lists ih =>
    rw [mergeAll_cons, List.mem_merge, ih]
    simp

variable {left right : List α}

theorem ordered_merge (hleft : Ordered key left) (hrt : Ordered key right) : Ordered key (left.merge right (keyLe key)) := by
  have hpairs : ∀ {items : List α}, Ordered key items ↔ items.Pairwise (fun a b => keyLe key a b = true) := by
    intro items
    simp only [Ordered, keyLe, decide_eq_true_eq]
  rw [hpairs] at hleft hrt ⊢
  refine pairwise_merge (fun a b c hab hbc => ?_) (fun a b => ?_) _ _ hleft hrt
  · rw [keyLe, decide_eq_true_eq] at hab hbc ⊢
    exact hab.trans hbc
  · rw [keyLe, keyLe, Bool.or_eq_true, decide_eq_true_eq, decide_eq_true_eq]
    exact le_total _ _

theorem ordered_mergeAll (h : ∀ list ∈ lists, Ordered key list) : Ordered key (mergeAll key lists) := by
  induction lists with
  | nil => exact List.Pairwise.nil
  | cons list lists ih =>
    rw [mergeAll_cons]
    exact ordered_merge (h list mem_cons_self) (ih fun other hoth => h other (mem_cons_of_mem _ hoth))

variable {items : List α}

/-- A merge keeps the items of one key as they come in the lists, those of the left list first. -/
theorem filter_merge (hleft : Ordered key left) (k : ℕ) : (left.merge right (keyLe key)).filter (fun x => decide (key x = k)) =
      left.filter (fun x => decide (key x = k)) ++ right.filter fun x => decide (key x = k) := by
  induction left generalizing right with
  | nil => rw [nil_merge]; rfl
  | cons a left ih =>
    obtain ⟨ha, hleft'⟩ := pairwise_cons.mp hleft
    induction right with
    | nil => rw [merge_right, filter_nil, append_nil]
    | cons b right ih' =>
      by_cases hle : keyLe key a b = true
      · rw [cons_merge_cons_pos _ _ _ hle, filter_cons, filter_cons, ih hleft']
        split <;> rfl
      · rw [cons_merge_cons_neg _ _ _ hle, filter_cons, ih', filter_cons (x := b)]
        split
        · rename_i hk
          -- The items on the left have larger keys.
          rw [decide_eq_true_eq] at hk
          rw [keyLe, decide_eq_true_eq, not_le] at hle
          have hnone : (a :: left).filter (fun x => decide (key x = k)) = [] := by
            refine filter_eq_nil_iff.mpr fun x hx hkey => ?_
            have hge : key a ≤ key x := by
              obtain rfl | hx := mem_cons.mp hx
              · exact le_rfl
              · exact ha x hx
            rw [decide_eq_true_eq] at hkey
            omega
          rw [hnone]
          rfl
        · rfl

section
variable (h : ∀ list ∈ lists, Ordered key list) (k : ℕ)
include h

theorem filter_mergeAll : (mergeAll key lists).filter (fun x => decide (key x = k)) =
      lists.flatMap fun list => list.filter fun x => decide (key x = k) := by
  induction lists with
  | nil => rfl
  | cons list lists ih =>
    rw [mergeAll_cons, filter_merge (h list mem_cons_self), ih fun other hoth => h other (mem_cons_of_mem _ hoth), flatMap_cons]

theorem find?_mergeAll :
    (mergeAll key lists).find? (fun x => decide (key x = k)) = firstHolding key lists k := by
  rw [← head?_filter, filter_mergeAll h, head?_flatMap, firstHolding]
  simp only [head?_filter]

end

section
variable (h : Ordered key items) {last : Option ℕ} (hlast : ∀ k ∈ last, ∀ x ∈ items, k ≤ key x)
include h hlast

theorem mem_firsts :
    x ∈ firsts key last items ↔ last ≠ some (key x) ∧ items.find? (fun y => decide (key y = key x)) = some x := by
  induction items generalizing last with
  | nil => simp [firsts]
  | cons y items ih =>
    obtain ⟨hy, hitems⟩ := pairwise_cons.mp h
    rw [firsts, find?_cons]
    split
    · rename_i hsame
      rw [ih hitems fun k hk z hz => hlast k hk z (mem_cons_of_mem _ hz)]
      by_cases hx : last = some (key x)
      · simp [hx]
      · have hne : key y ≠ key x := fun heq => hx (heq ▸ hsame)
        simp [hx, hne]
    · rename_i hnew
      rw [mem_cons, ih hitems fun k hk z hz => some.inj hk ▸ hy z hz]
      by_cases hxy : key y = key x
      · rw [hxy, decide_eq_true rfl, ← hxy]
        constructor
        · rintro (rfl | ⟨hne, -⟩)
          · exact ⟨hnew, rfl⟩
          · exact absurd rfl hne
        · rintro ⟨-, heq⟩
          exact Or.inl (some.inj heq).symm
      · have hbel : (items.find? fun z => decide (key z = key x)) = some x → last ≠ some (key x) := by
          rintro hfind rfl
          have hmem := mem_of_find?_eq_some hfind
          have hle := hy x hmem
          have hge := hlast (key x) rfl y mem_cons_self
          exact hxy (le_antisymm hle hge)
        rw [decide_eq_false hxy]
        constructor
        · rintro (rfl | ⟨-, hfind⟩)
          · exact absurd rfl hxy
          · exact ⟨hbel hfind, hfind⟩
        · rintro ⟨-, hfind⟩
          exact Or.inr ⟨fun heq => hxy (some.inj heq), hfind⟩

theorem ascending_firsts : Ascending key (firsts key last items) := by
  induction items generalizing last with
  | nil => exact List.Pairwise.nil
  | cons y items ih =>
    obtain ⟨hy, hitems⟩ := pairwise_cons.mp h
    have hnext : ∀ k ∈ some (key y), ∀ x ∈ items, k ≤ key x := fun k hk z hz => some.inj hk ▸ hy z hz
    rw [firsts]
    split
    · exact ih hitems fun k hk z hz => hlast k hk z (mem_cons_of_mem _ hz)
    · refine pairwise_cons.mpr ⟨fun z hz => ?_, ih hitems hnext⟩
      obtain ⟨hne, hfind⟩ := (mem_firsts hitems hnext).mp hz
      exact lt_of_le_of_ne (hy z (mem_of_find?_eq_some hfind)) fun heq => hne (by rw [heq])

end

theorem ascending_ext (hleft : Ascending key left) (hrt : Ascending key right) (h : ∀ x, x ∈ left ↔ x ∈ right) : left = right := by
  have hnd : ∀ {items : List α}, Ascending key items → items.Nodup := fun hitems =>
    hitems.imp fun hlt heq => absurd (congrArg key heq) hlt.ne
  exact ((perm_ext_iff_of_nodup (hnd hleft) (hnd hrt)).mpr h).eq_of_pairwise
    (fun a b _ _ hab hba => absurd hab hba.asymm) hleft hrt

theorem key_firstHolding {k : ℕ} (h : firstHolding key lists k = some x) : key x = k ∧ ∃ list ∈ lists, x ∈ list := by
  obtain ⟨list, hlist, hfind⟩ := exists_of_findSome?_eq_some h
  have hkey : decide (key x = k) = true := @find?_some α (fun y => decide (key y = k)) x list hfind
  exact ⟨of_decide_eq_true hkey, list, hlist, mem_of_find?_eq_some hfind⟩

theorem mem_distinctRows : x ∈ distinctRows key lists ↔ firstHolding key lists (key x) = some x := by
  rw [distinctRows, mem_filterMap]
  constructor
  · rintro ⟨k, -, hfst⟩
    obtain ⟨rfl, -⟩ := key_firstHolding hfst
    exact hfst
  · intro hfst
    obtain ⟨-, list, hlist, hx⟩ := key_firstHolding hfst
    refine ⟨key x, ?_, hfst⟩
    rw [mem_dedup, (perm_insertionSort _ _).mem_iff, mem_flatMap]
    exact ⟨list, hlist, mem_map_of_mem hx⟩

theorem ascending_distinctRows : Ascending key (distinctRows key lists) := by
  have hkeys : (((lists.flatMap fun list => list.map key).insertionSort (· ≤ ·)).dedup).Pairwise (· < ·) := by
    have hle := (pairwise_insertionSort (· ≤ ·) (lists.flatMap fun list => list.map key)).sublist (dedup_sublist _)
    exact hle.imp₂ (fun a b hle hne => lt_of_le_of_ne hle hne) (nodup_dedup _)
  refine pairwise_filterMap.mpr (hkeys.imp fun hlt x hx y hy => ?_)
  rw [(key_firstHolding hx).1, (key_firstHolding hy).1]
  exact hlt

theorem firsts_mergeAll (h : ∀ list ∈ lists, Ordered key list) : firsts key none (mergeAll key lists) = distinctRows key lists := by
  have hnone : ∀ k ∈ (none : Option ℕ), ∀ x ∈ mergeAll key lists, k ≤ key x := fun k hk => nomatch hk
  refine ascending_ext (ascending_firsts (ordered_mergeAll h) hnone) ascending_distinctRows fun x => ?_
  rw [mem_firsts (ordered_mergeAll h) hnone, find?_mergeAll h, mem_distinctRows]
  exact and_iff_right (some_ne_none _).symm

end OverGraph.SortedMerges
