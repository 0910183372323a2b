import Mathlib.Data.List.Sort
import Mathlib.Data.Prod.Lex

/-!
# The best of a list through a bounded heap

A heap holds at most `k` keys, each with the place of what it was made from. A new key goes in while there is room, and otherwise
takes the place of the least key if it is greater. What is left in the heap are the greatest keys.
-/

namespace OverGraph.BoundedHeaps

open List Perm

variable {α ρ : Type}

/-- The heap with its least entry in front, and what was stored for the entries. -/
structure Bounded (ρ : Type) where
  heap : List (ℕ ×ₗ ℕ)
  scored : List ρ

section
variable (key : α → ℕ) (store : α → ρ) (k : ℕ)

def push (heap : List (ℕ ×ₗ ℕ)) (ent : ℕ ×ₗ ℕ) : List (ℕ ×ₗ ℕ) := heap.orderedInsert (· ≤ ·) ent

def pushBounded (st : Bounded ρ) (item : α) : Bounded ρ :=
  let ent := toLex (key item, st.scored.length)
  if st.heap.length < k then ⟨push st.heap ent, st.scored ++ [store item]⟩
  else match st.heap with
    | [] => st
    | least :: rest => if (ofLex least).1 < key item then ⟨push rest ent, st.scored ++ [store item]⟩ else st

/-- The entries in decreasing order of their keys; entries with one key may stand in any order. -/
def Bounded.Descending (st : Bounded ρ) (top : List (ℕ ×ₗ ℕ)) : Prop :=
  top.Perm st.heap ∧ top.Pairwise fun fst snd => (ofLex snd).1 ≤ (ofLex fst).1

def Bounded.records (st : Bounded ρ) (top : List (ℕ ×ₗ ℕ)) : List ρ := top.filterMap fun ent => st.scored[(ofLex ent).2]?

def Bounded.entryAt (st : Bounded ρ) (ent : ℕ ×ₗ ℕ) : Option (ℕ × ρ) := st.scored[(ofLex ent).2]?.map ((ofLex ent).1, ·)

/-- The heap holds the items with the greatest keys among those seen. -/
structure Best (seen : List α) (st : Bounded ρ) : Prop where
  sorted : st.heap.Pairwise (· ≤ ·)
  chosen : ∃ kept dropped : List α, (kept ++ dropped).Perm seen ∧
    (st.heap.map st.entryAt).Perm (kept.map fun item => some (key item, store item)) ∧ kept.length = min k seen.length ∧
    ∀ c ∈ kept, ∀ d ∈ dropped, key d ≤ key c

end

variable {key : α → ℕ} {store : α → ρ} {k : ℕ} {seen : List α} {st : Bounded ρ}

theorem perm_push (heap : List (ℕ ×ₗ ℕ)) (ent : ℕ ×ₗ ℕ) : (push heap ent).Perm (ent :: heap) := perm_orderedInsert _ _ _

variable {heap : List (ℕ ×ₗ ℕ)}

theorem sorted_push (h : heap.Pairwise (· ≤ ·)) (ent : ℕ ×ₗ ℕ) : (push heap ent).Pairwise (· ≤ ·) := List.Pairwise.orderedInsert _ _ h

theorem best_nil : Best key store k [] ⟨[], []⟩ where
  sorted := List.Pairwise.nil
  chosen := ⟨[], [], nil, nil, (Nat.min_zero k).symm, fun _ hc => absurd hc not_mem_nil⟩

variable {ent : ℕ ×ₗ ℕ}

theorem entryAt_append {value : ℕ × ρ} (h : st.entryAt ent = some value) (r : ρ) :
    (⟨heap, st.scored ++ [r]⟩ : Bounded ρ).entryAt ent = some value := by
  obtain ⟨held, hheld, hval⟩ := Option.map_eq_some_iff.mp h
  obtain ⟨hlt, -⟩ := List.getElem?_eq_some_iff.mp hheld
  rw [Bounded.entryAt, List.getElem?_append_left hlt]
  exact h

theorem entryAt_last (bits : ℕ) (r : ρ) :
    (⟨heap, st.scored ++ [r]⟩ : Bounded ρ).entryAt (toLex (bits, st.scored.length)) = some (bits, r) := by
  simp [Bounded.entryAt]

variable {kept : List α} {es : List (ℕ ×ₗ ℕ)}

section
variable (h : (es.map st.entryAt).Perm (kept.map fun item => some (key item, store item)))
include h

theorem entry_kept (hent : ent ∈ es) :
    ∃ item ∈ kept, st.entryAt ent = some (key item, store item) ∧ (ofLex ent).1 = key item := by
  obtain ⟨item, hitem, hat⟩ := mem_map.mp (h.subset (mem_map_of_mem hent))
  obtain ⟨held, -, hval⟩ := Option.map_eq_some_iff.mp hat.symm
  exact ⟨item, hitem, hat.symm, congrArg Prod.fst hval⟩

theorem kept_entry {item : α} (hitem : item ∈ kept) : ∃ ent ∈ es, (ofLex ent).1 = key item := by
  obtain ⟨ent, hent, hat⟩ := mem_map.mp (h.symm.subset (mem_map_of_mem hitem))
  obtain ⟨held, -, hval⟩ := Option.map_eq_some_iff.mp hat
  exact ⟨ent, hent, congrArg Prod.fst hval⟩

end

/-- A new entry in front of some of the entries that stand for kept items. -/
theorem perm_pushed {es heap : List (ℕ ×ₗ ℕ)}
    (h : (es.map st.entryAt).Perm (kept.map fun item => some (key item, store item))) (item : α) :
    ((push es (toLex (key item, st.scored.length))).map (⟨heap, st.scored ++ [store item]⟩ : Bounded ρ).entryAt).Perm
      ((item :: kept).map fun item => some (key item, store item)) := by
  refine ((perm_push _ _).map _).trans ?_
  rw [map_cons, map_cons, entryAt_last]
  apply Perm.cons
  refine Perm.trans (Perm.of_eq (map_congr_left fun ent hent => ?_)) h
  obtain ⟨held, -, hat, -⟩ := entry_kept h hent
  rw [hat]
  exact entryAt_append hat _

theorem Best.push (h : Best key store k seen st) (item : α) : Best key store k (seen ++ [item]) (pushBounded key store k st item) := by
  obtain ⟨kept, dropped, hseen, hheap, hlen, hbest⟩ := h.chosen
  have hcnt : st.heap.length = kept.length := by rw [← length_map st.entryAt, hheap.length_eq, length_map]
  have htotal : kept.length + dropped.length = seen.length := by rw [← length_append, hseen.length_eq]
  rw [pushBounded]
  split
  · rename_i hroom
    -- as long as there is room nothing was dropped
    have hnone : dropped = [] := length_eq_zero_iff.mp (by omega)
    subst hnone
    rw [append_nil] at hseen
    refine ⟨sorted_push h.sorted _, item :: kept, [], ?_, perm_pushed hheap item, ?_, fun _ _ d hd => absurd hd not_mem_nil⟩
    · rw [append_nil]
      exact (hseen.cons item).trans (perm_append_singleton item seen).symm
    · rw [length_cons, length_append, length_singleton]
      omega
  · rename_i hfull
    have hdrop : ∀ kept' dropped' : List α, (kept' ++ dropped').Perm (kept ++ item :: dropped) → (kept' ++ dropped').Perm (seen ++ [item]) := by
      intro kept' dropped' hperm
      exact (hperm.trans (perm_middle.trans (hseen.cons item))).trans (perm_append_singleton item seen).symm
    have hkeeps : (∀ c ∈ kept, key item ≤ key c) → Best key store k (seen ++ [item]) st := by
      intro hlst
      refine ⟨h.sorted, kept, item :: dropped, hdrop _ _ (Perm.refl _), hheap, ?_, fun c hc d hd => ?_⟩
      · rw [length_append, length_singleton]
        omega
      · obtain rfl | hd := mem_cons.mp hd
        · exact hlst c hc
        · exact hbest c hc d hd
    split
    · rename_i hemp
      apply hkeeps
      intro c hc
      rw [hemp, length_nil] at hcnt
      exact absurd (length_pos_of_mem hc) (by omega)
    · rename_i least rest hsp
      have hsort := h.sorted
      rw [hsp] at hheap hsort hcnt
      obtain ⟨hfst, hrest⟩ := pairwise_cons.mp hsort
      obtain ⟨lowest, hlowest, hat, hkey⟩ := entry_kept hheap mem_cons_self
      have hlow : ∀ ent ∈ rest, key lowest ≤ (ofLex ent).1 := by
        intro ent hent
        rw [← hkey]
        exact Prod.Lex.monotone_fst least ent (hfst ent hent)
      split
      · rename_i hgrea
        rw [hkey] at hgrea
        obtain ⟨before, after, rfl⟩ := append_of_mem hlowest
        have hmv : (before ++ lowest :: after).Perm (lowest :: (before ++ after)) := perm_middle
        have hothers : (rest.map st.entryAt).Perm ((before ++ after).map fun item => some (key item, store item)) := by
          have hcons := hheap.trans (hmv.map _)
          rw [map_cons, map_cons, hat] at hcons
          exact hcons.cons_inv
        have hmem : ∀ c, c ∈ before ++ after → c ∈ before ++ lowest :: after := fun c hc => hmv.symm.subset (mem_cons_of_mem _ hc)
        refine ⟨sorted_push hrest _, item :: (before ++ after), lowest :: dropped, hdrop _ _ ?_, perm_pushed hothers item, ?_, ?_⟩
        · have hswap : (item :: (before ++ after) ++ lowest :: dropped).Perm (item :: lowest :: (before ++ after ++ dropped)) :=
            cons item perm_middle
          exact hswap.trans (perm_middle.trans ((hmv.append_right dropped).cons item)).symm
        · have hheight := congrArg List.length hsp
          simp only [length_append, length_cons, length_nil] at hlen hcnt hheight ⊢
          omega
        · intro c hc d hd
          obtain rfl | hc := mem_cons.mp hc
          · obtain rfl | hd := mem_cons.mp hd
            · exact hgrea.le
            · exact (hbest lowest hlowest d hd).trans hgrea.le
          · obtain rfl | hd := mem_cons.mp hd
            · obtain ⟨ent, hent, hentK⟩ := kept_entry hothers hc
              rw [← hentK]
              exact hlow ent hent
            · exact hbest c (hmem c hc) d hd
      · rename_i hnot
        rw [hkey] at hnot
        rw [← hsp] at hheap
        apply hkeeps
        intro c hc
        obtain ⟨ent, hent, hentK⟩ := kept_entry hheap hc
        rw [hsp] at hent
        apply (Nat.le_of_not_lt hnot).trans
        obtain rfl | hent := mem_cons.mp hent
        · rw [← hkey, hentK]
        · rw [← hentK]
          exact hlow ent hent

theorem best_foldl (items : List α) (h : Best key store k seen st) :
    Best key store k (seen ++ items) (items.foldl (pushBounded key store k) st) := by
  induction items generalizing seen st with
  | nil => rwa [append_nil]
  | cons item items ih =>
    have hnext := ih (h.push item)
    rwa [append_assoc] at hnext

theorem exists_perm_map {β γ : Type} {f : β → γ} {l : List γ} {items : List β} (h : l.Perm (items.map f)) :
    ∃ items' : List β, items'.Perm items ∧ l = items'.map f := by
  induction l generalizing items with
  | nil => exact ⟨[], by rw [map_eq_nil_iff.mp h.symm.eq_nil], rfl⟩
  | cons fst l ih =>
    obtain ⟨item, hitem, rfl⟩ := mem_map.mp (h.subset mem_cons_self)
    obtain ⟨before, after, rfl⟩ := append_of_mem hitem
    have hmv : (before ++ item :: after).Perm (item :: (before ++ after)) := perm_middle
    obtain ⟨rest, hrest, rfl⟩ := ih ((h.trans (hmv.map f)).cons_inv)
    exact ⟨item :: rest, (hrest.cons item).trans hmv.symm, rfl⟩

/-- The records of the heap, in decreasing order of their keys, are those of the items with the greatest keys. -/
theorem Best.records (h : Best key store k seen st) {top : List (ℕ ×ₗ ℕ)} (htop : st.Descending top) :
    ∃ kept dropped : List α, (kept ++ dropped).Perm seen ∧ kept.length = min k seen.length ∧
      (kept.Pairwise fun fst snd => key snd ≤ key fst) ∧ (∀ c ∈ kept, ∀ d ∈ dropped, key d ≤ key c) ∧
      st.records top = kept.map store := by
  obtain ⟨chosen, dropped, hseen, hheap, hlen, hbest⟩ := h.chosen
  obtain ⟨kept, hkept, hents⟩ := exists_perm_map ((htop.1.map st.entryAt).trans hheap)
  have hpairs : top.filterMap st.entryAt = kept.map fun item => (key item, store item) := by
    have hvals := congrArg (List.filterMap id) hents
    rwa [filterMap_map, filterMap_map, Function.id_comp, Function.id_comp, ← Function.comp_def some, filterMap_eq_map] at hvals
  refine ⟨kept, dropped, (hkept.append_right dropped).trans hseen, hkept.length_eq.trans hlen, ?_,
    fun c hc d hd => hbest c (hkept.subset hc) d hd, ?_⟩
  · have hkeys : (top.filterMap st.entryAt).Pairwise fun fst snd => snd.1 ≤ fst.1 := by
      refine htop.2.filterMap st.entryAt fun fst snd hle value hval value' hval' => ?_
      obtain ⟨-, -, rfl⟩ := Option.map_eq_some_iff.mp hval
      obtain ⟨-, -, rfl⟩ := Option.map_eq_some_iff.mp hval'
      exact hle
    rw [hpairs, pairwise_map] at hkeys
    exact hkeys
  · have hrecs := congrArg (List.map Prod.snd) hpairs
    rw [map_filterMap, map_map] at hrecs
    refine (filterMap_congr fun ent _ => ?_).trans hrecs
    simp [Bounded.entryAt]

end OverGraph.BoundedHeaps
