import OverGraph.SortedBytes
import Mathlib.Data.List.Sort
import Mathlib.Algebra.Order.BigOperators.Group.List

/-!
# Lists that are sorted by keys, and the bytes of a list of keys

A list is sorted by the keys of its entries and one entry is kept of each key. A list of byte strings
is written as one string, each with its length before it, and can be told from every other.
-/

namespace OverGraph.KeyedLists
open SortedBytes List

section
variable {α β : Type} [Ord β] [DecidableEq β] (key : α → β)

/-- The first entry of each run of entries with one key, after an entry that is kept. -/
def dedupAfter (kept : α) : List α → List α
  | [] => []
  | a :: as => if key kept = key a then dedupAfter kept as else a :: dedupAfter a as

def dedupByKey : List α → List α
  | [] => []
  | a :: as => a :: dedupAfter key a as

def sortByKey (l : List α) : List α := l.insertionSort fun a b => (compare (key a) (key b)).isLE = true

def sortedDedup (l : List α) : List α := dedupByKey key (sortByKey key l)

variable {key}

omit [Ord β] in
theorem dedupAfter_sublist (l : List α) (kept : α) : (dedupAfter key kept l).Sublist l := by
  induction l generalizing kept with
  | nil => exact Sublist.refl _
  | cons a as ih =>
    rw [dedupAfter]
    split
    · exact (ih kept).cons a
    · exact (ih a).cons_cons a

omit [Ord β] in
theorem dedupByKey_sublist (l : List α) : (dedupByKey key l).Sublist l := by
  cases l with
  | nil => exact Sublist.refl _
  | cons a as => exact (dedupAfter_sublist as a).cons_cons a

variable {l : List α}

omit [Ord β] in
theorem exists_dedupAfter {kept a : α} (h : a ∈ kept :: l) : ∃ b ∈ kept :: dedupAfter key kept l, key b = key a := by
  induction l generalizing kept with
  | nil => exact ⟨a, h, rfl⟩
  | cons c l ih =>
    rw [dedupAfter]
    split
    · rename_i hsame
      rcases mem_cons.mp h with rfl | h
      · exact ⟨a, mem_cons_self, rfl⟩
      · rcases mem_cons.mp h with rfl | h
        · exact ⟨kept, mem_cons_self, hsame⟩
        · exact ih (mem_cons_of_mem _ h)
    · rcases mem_cons.mp h with rfl | h
      · exact ⟨a, mem_cons_self, rfl⟩
      · obtain ⟨b, hb, hkey⟩ := ih h
        exact ⟨b, mem_cons_of_mem _ hb, hkey⟩

variable {a : α}

omit [Ord β] in
theorem exists_dedupByKey (h : a ∈ l) : ∃ b ∈ dedupByKey key l, key b = key a := by
  cases l with
  | nil => cases h
  | cons kept l => exact exists_dedupAfter h

omit [DecidableEq β] in
theorem mem_sortByKey : a ∈ sortByKey key l ↔ a ∈ l := (perm_insertionSort _ l).mem_iff

theorem mem_of_sortedDedup (h : a ∈ sortedDedup key l) : a ∈ l := mem_sortByKey.mp ((dedupByKey_sublist _).subset h)

variable (key) in
theorem exists_sortedDedup (h : a ∈ l) : ∃ b ∈ sortedDedup key l, key b = key a := exists_dedupByKey (mem_sortByKey.mpr h)

variable (key) in
theorem sortedDedup_subperm (l : List α) : ∃ rest, rest.Perm l ∧ (sortedDedup key l).Sublist rest :=
  ⟨_, perm_insertionSort _ l, dedupByKey_sublist _⟩

variable (key) in
theorem sum_sortedDedup_le (weight : α → ℕ) (l : List α) : ((sortedDedup key l).map weight).sum ≤ (l.map weight).sum := by
  obtain ⟨rest, hperm, hsub⟩ := sortedDedup_subperm key l
  calc ((sortedDedup key l).map weight).sum
      ≤ (rest.map weight).sum := (hsub.map weight).sum_le_sum fun _ _ => Nat.zero_le _
    _ = (l.map weight).sum := (hperm.map weight).sum_eq

section
variable {p : α → Bool} {l : List α} (h : ∀ a ∈ l, ∀ b ∈ l, key a = key b → p a = p b)
include h

/-- All entries pass a test that depends on the key where those kept do. -/
theorem all_sortedDedup : (sortedDedup key l).all p = l.all p := by
  rw [Bool.eq_iff_iff, all_eq_true, all_eq_true]
  constructor
  · intro hall a ha
    obtain ⟨b, hb, hkey⟩ := exists_sortedDedup key ha
    rw [← h b (mem_of_sortedDedup hb) a ha hkey]
    exact hall b hb
  · intro hall a ha
    exact hall a (mem_of_sortedDedup ha)

theorem any_sortedDedup : (sortedDedup key l).any p = l.any p := by
  rw [Bool.eq_iff_iff, any_eq_true, any_eq_true]
  constructor
  · rintro ⟨a, ha, hp⟩
    exact ⟨a, mem_of_sortedDedup ha, hp⟩
  · rintro ⟨a, ha, hp⟩
    obtain ⟨b, hb, hkey⟩ := exists_sortedDedup key ha
    refine ⟨b, hb, ?_⟩
    rwa [h b (mem_of_sortedDedup hb) a ha hkey]

end

omit [Ord β] [DecidableEq β] in
theorem map_eq_of_keys {γ : Type} {value : α → γ} {l₁ l₂ : List α} (hkeys : l₁.map key = l₂.map key)
    (h : ∀ a ∈ l₁, ∀ b ∈ l₂, key a = key b → value a = value b) : l₁.map value = l₂.map value := by
  induction l₁ generalizing l₂ with
  | nil =>
    obtain rfl := map_eq_nil_iff.mp hkeys.symm
    rfl
  | cons a l₁ ih =>
    obtain ⟨b, l₂, rfl, hkey, hrest⟩ := map_eq_cons_iff.mp hkeys.symm
    rw [map_cons, map_cons, h a mem_cons_self b mem_cons_self hkey.symm,
      ih hrest.symm fun c hc d hd => h c (mem_cons_of_mem _ hc) d (mem_cons_of_mem _ hd)]

section
variable [Std.TransOrd β] [Std.LawfulEqOrd β]

omit [DecidableEq β] [Std.LawfulEqOrd β] in
theorem pairwise_sortByKey (key : α → β) (l : List α) : (sortByKey key l).Pairwise fun a b => (compare (key a) (key b)).isLE = true := by
  have htotal : Std.Total fun a b : α => (compare (key a) (key b)).isLE = true := by
    refine ⟨fun a b => ?_⟩
    have hswap : compare (key b) (key a) = (compare (key a) (key b)).swap := Std.OrientedCmp.eq_swap
    rw [hswap, Ordering.isLE_swap]
    cases compare (key a) (key b)
    · exact .inl rfl
    · exact .inl rfl
    · exact .inr rfl
  have htrans : IsTrans α fun a b => (compare (key a) (key b)).isLE = true := ⟨fun _ _ _ => Std.TransCmp.isLE_trans⟩
  exact pairwise_insertionSort _ l

theorem pairwise_dedupAfter {kept : α}
    (h : (kept :: l).Pairwise fun a b => (compare (key a) (key b)).isLE = true) :
    (kept :: dedupAfter key kept l).Pairwise fun a b => compare (key a) (key b) = .lt := by
  induction l generalizing kept with
  | nil => exact pairwise_singleton _ _
  | cons a as ih =>
    obtain ⟨hkept, hrest⟩ := pairwise_cons.mp h
    rw [dedupAfter]
    split
    · apply ih
      exact pairwise_cons.mpr ⟨fun b hb => hkept b (mem_cons_of_mem _ hb), (pairwise_cons.mp hrest).2⟩
    · rename_i hne
      have hlt : compare (key kept) (key a) = .lt := by
        have hle := hkept a mem_cons_self
        cases hcmpr : compare (key kept) (key a) with
        | lt => rfl
        | eq => exact absurd (Std.LawfulEqCmp.eq_of_compare hcmpr) hne
        | gt => rw [hcmpr] at hle; cases hle
      have haft := ih hrest
      refine pairwise_cons.mpr ⟨fun b hb => ?_, haft⟩
      rcases mem_cons.mp hb with rfl | hb
      · exact hlt
      · exact Std.TransCmp.lt_trans hlt ((pairwise_cons.mp haft).1 b hb)

theorem ascending_sortedDedup (l : List α) : (sortedDedup key l).Pairwise fun a b => compare (key a) (key b) = .lt := by
  have hsort := pairwise_sortByKey key l
  rw [sortedDedup]
  cases hl : sortByKey key l with
  | nil => exact List.Pairwise.nil
  | cons kept rest =>
    rw [hl] at hsort
    exact pairwise_dedupAfter hsort

end

end

def pushLenPrefixedBytes (bytes : List UInt8) : List UInt8 := beBytes 8 bytes.length ++ bytes

@[simp] theorem length_pushLenPrefixedBytes (bytes : List UInt8) : (pushLenPrefixedBytes bytes).length = 8 + bytes.length := by
  rw [pushLenPrefixedBytes, length_append, length_beBytes]

/-- A string with its length before it ends where the length says. -/
theorem pushLenPrefixedBytes_append_inj {a b s t : List UInt8} (ha : a.length < 2 ^ 64) (hb : b.length < 2 ^ 64)
    (h : pushLenPrefixedBytes a ++ s = pushLenPrefixedBytes b ++ t) : a = b ∧ s = t := by
  rw [pushLenPrefixedBytes, pushLenPrefixedBytes, append_assoc, append_assoc] at h
  obtain ⟨hlens, hrest⟩ := append_inj h (by rw [length_beBytes, length_beBytes])
  have hlen : a.length = b.length := beBytes_injective ha hb hlens
  exact append_inj hrest hlen

theorem pushLenPrefixedBytes_inj {a b : List UInt8} (ha : a.length < 2 ^ 64) (hb : b.length < 2 ^ 64)
    (h : pushLenPrefixedBytes a = pushLenPrefixedBytes b) : a = b := by
  refine (pushLenPrefixedBytes_append_inj (s := []) (t := []) ha hb ?_).1
  rw [append_nil, append_nil, h]

theorem length_lt_of_mem {keys : List (List UInt8)} {bound : ℕ} (h : (keys.flatMap pushLenPrefixedBytes).length < bound)
    {key : List UInt8} (hkey : key ∈ keys) : key.length < bound := by
  induction keys with
  | nil => cases hkey
  | cons fst keys ih =>
    rw [flatMap_cons, length_append, length_pushLenPrefixedBytes] at h
    rcases mem_cons.mp hkey with rfl | hkey
    · omega
    · exact ih (by omega) hkey

/-- A list of strings can be read back from its bytes. -/
theorem flatMap_pushLenPrefixedBytes_inj {as bs : List (List UInt8)} (hlen : (as.flatMap pushLenPrefixedBytes).length < 2 ^ 64)
    (h : as.flatMap pushLenPrefixedBytes = bs.flatMap pushLenPrefixedBytes) : as = bs := by
  induction as generalizing bs with
  | nil =>
    cases bs with
    | nil => rfl
    | cons b bs =>
      have hlens := congrArg List.length h
      rw [flatMap_nil, flatMap_cons, length_append, length_pushLenPrefixedBytes, length_nil] at hlens
      omega
  | cons a as ih =>
    cases bs with
    | nil =>
      have hlens := congrArg List.length h
      rw [flatMap_nil, flatMap_cons, length_append, length_pushLenPrefixedBytes, length_nil] at hlens
      omega
    | cons b bs =>
      have ha := length_lt_of_mem hlen mem_cons_self
      have hb := length_lt_of_mem (h ▸ hlen) mem_cons_self
      rw [flatMap_cons, flatMap_cons] at h
      rw [flatMap_cons, length_append] at hlen
      obtain ⟨rfl, hrest⟩ := pushLenPrefixedBytes_append_inj ha hb h
      rw [ih (by omega) hrest]

end OverGraph.KeyedLists
