import Mathlib.Algebra.GroupWithZero.Nat
import Mathlib.Data.List.AList

/-!
# Further operations on association lists

The hash maps of a program are finite maps whose iteration order is unspecified.
Mathlib's `AList` models them; here are the projection of a map through a partial
function of its entries, the update of the value under one key, and the pass over a
stack of maps in which the first entry of each key decides.
-/

namespace OverGraph.AssocMaps

open List Option AList

variable {κ α β : Type*} [DecidableEq κ]

/-- A finite map from `κ` to `α`. -/
abbrev Map (κ α : Type*) := AList (fun _ : κ => α)

omit [DecidableEq κ] in
theorem filterMap_nodupKeys (f : κ → α → Option β) (l : List (Sigma fun _ : κ => α)) (h : l.NodupKeys) :
    (l.filterMap fun e => (f e.1 e.2).map (Sigma.mk (β := fun _ : κ => β) e.1)).NodupKeys := by
  rw [nodupKeys_iff_pairwise] at h ⊢
  refine pairwise_filterMap.mpr (h.imp ?_)
  intro a b hab c hc d hd
  simp only [map_eq_some_iff] at hc hd
  obtain ⟨-, -, rfl⟩ := hc
  obtain ⟨-, -, rfl⟩ := hd
  exact hab

/-- Keep the entries that have an image, under their own keys. -/
def filterMapEntries (f : κ → α → Option β) (m : Map κ α) : Map κ β :=
  ⟨m.entries.filterMap fun e => (f e.1 e.2).map (Sigma.mk e.1), filterMap_nodupKeys f m.entries m.nodupKeys⟩

omit [DecidableEq κ] in
@[simp] theorem mem_filterMapEntries (f : κ → α → Option β) (m : Map κ α) (k : κ) (b : β) :
    ⟨k, b⟩ ∈ (filterMapEntries f m).entries ↔ ∃ a, (⟨k, a⟩ : Sigma fun _ : κ => α) ∈ m.entries ∧ f k a = some b := by
  simp only [filterMapEntries, mem_filterMap, map_eq_some_iff]
  constructor
  · rintro ⟨⟨k', a⟩, ha, b', hb, h⟩
    cases h
    exact ⟨a, ha, hb⟩
  · rintro ⟨a, ha, hb⟩
    exact ⟨⟨k, a⟩, ha, b, hb, rfl⟩

@[simp] theorem lookup_filterMapEntries (f : κ → α → Option β) (m : Map κ α) (k : κ) :
    (filterMapEntries f m).lookup k = (m.lookup k).bind (f k) := by
  refine Option.ext fun b => ?_
  rw [← mem_def, mem_lookup_iff, mem_filterMapEntries, bind_eq_some_iff]
  constructor
  · rintro ⟨a, ha, hb⟩
    exact ⟨a, AList.mem_lookup_iff.mpr ha, hb⟩
  · rintro ⟨a, ha, hb⟩
    exact ⟨a, AList.mem_lookup_iff.mp ha, hb⟩

/-- Modify the value under a key, or insert one where there is none. -/
def alter (m : Map κ α) (k : κ) (f : Option α → α) : Map κ α := m.insert k (f (m.lookup k))

@[simp] theorem lookup_alter (m : Map κ α) (k k' : κ) (f : Option α → α) :
    (alter m k f).lookup k' = if k' = k then some (f (m.lookup k)) else m.lookup k' := by
  by_cases h : k' = k
  · subst h
    simp [alter]
  · simp [alter, h]

/-- The state of a pass: the keys met so far and the entries that won. -/
structure Pass (κ α : Type*) where
  seen : List κ
  winners : Map κ α

namespace Pass

def start : Pass κ α := ⟨[], ∅⟩

/-- The first entry of a key wins if it is to be kept; later ones are passed over. -/
def offer (keep : κ → α → Bool) (p : Pass κ α) (e : Sigma fun _ : κ => α) : Pass κ α :=
  if e.1 ∈ p.seen then p
  else ⟨e.1 :: p.seen, if keep e.1 e.2 then p.winners.insert e.1 e.2 else p.winners⟩

variable {keep : κ → α → Bool} {k : κ} (es : List (Sigma fun _ : κ => α))

theorem lookup_of_seen {p : Pass κ α}
    (h : k ∈ p.seen) : (es.foldl (offer keep) p).winners.lookup k = p.winners.lookup k := by
  induction es generalizing p with
  | nil => rfl
  | cons e es ih =>
    rw [foldl_cons, offer]
    split
    · exact ih h
    · rename_i hnew
      have hne : k ≠ e.1 := fun heq => hnew (heq ▸ h)
      rw [ih (mem_cons_of_mem _ h)]
      dsimp only
      split
      · exact lookup_insert_ne hne
      · rfl

theorem lookup_of_unseen {p : Pass κ α} (h : k ∉ p.seen) (hnone : p.winners.lookup k = none) :
    (es.foldl (offer keep) p).winners.lookup k = (es.dlookup k).filter (keep k) := by
  induction es generalizing p with
  | nil => exact hnone
  | cons e es ih =>
    obtain ⟨k', a⟩ := e
    rw [foldl_cons]
    by_cases hk : k = k'
    · subst hk
      rw [offer, if_neg h, lookup_of_seen es mem_cons_self, dlookup_cons_eq]
      cases hkeep : keep k a <;> simp [Option.filter, hkeep, hnone]
    · rw [dlookup_cons_ne es (⟨k', a⟩ : Sigma fun _ : κ => α) hk, offer]
      split
      · exact ih h hnone
      · refine ih (by simp [hk, h]) ?_
        dsimp only
        split
        · rw [lookup_insert_ne hk, hnone]
        · exact hnone

theorem lookup_winners : (es.foldl (offer keep) start).winners.lookup k = (es.dlookup k).filter (keep k) :=
  lookup_of_unseen es not_mem_nil rfl

end Pass

/-- The first entry of a key in a stack of maps is that of the first map that has it. -/
theorem dlookup_flatMap_entries (maps : List (Map κ α)) (k : κ) : (maps.flatMap (·.entries)).dlookup k = maps.findSome? (·.lookup k) := by
  induction maps with
  | nil => rfl
  | cons m maps ih =>
    rw [flatMap_cons, dlookup_append, ih, findSome?_cons, AList.lookup]
    cases m.entries.dlookup k <;> rfl

/-- The union of a stack of maps, in which the first map that has a key decides. -/
def unionAll (maps : List (Map κ α)) : Map κ α := maps.foldr (· ∪ ·) ∅

theorem lookup_unionAll (maps : List (Map κ α)) (k : κ) : (unionAll maps).lookup k = maps.findSome? (·.lookup k) := by
  induction maps with
  | nil => rfl
  | cons m maps ih =>
    rw [unionAll, foldr_cons, findSome?_cons]
    cases h : m.lookup k with
    | none => rw [lookup_union_right (AList.lookup_eq_none.mp h), ← ih, unionAll]
    | some a => rw [lookup_union_left (AList.lookup_isSome.mp (by simp [h])), h]

section
variable (size : κ → α → ℕ) (m : Map κ α)

def totalSize : ℕ := (m.entries.map fun e => size e.1 e.2).sum

/-- What a key contributes to the sum. -/
def sizeAt (k : κ) : ℕ := (m.lookup k).elim 0 (size k)

theorem totalSize_erase (k : κ) : totalSize size (m.erase k) + sizeAt size m k = totalSize size m := by
  by_cases hk : k ∈ m.entries.keys
  · obtain ⟨a, before, after, hbef, hm, herase⟩ := exists_of_kerase hk
    have hnone : before.dlookup k = none := dlookup_eq_none.mpr hbef
    have hlk : m.lookup k = some a := by rw [AList.lookup, hm, dlookup_append, hnone, dlookup_cons_eq]; rfl
    have herased : (m.erase k).entries = before ++ after := herase
    simp only [totalSize, sizeAt, hlk, herased, hm, map_append, map_cons, sum_append, sum_cons, elim_some]
    omega
  · have hlk : m.lookup k = none := AList.lookup_eq_none.mpr hk
    have herased : (m.erase k).entries = m.entries := kerase_of_notMem_keys hk
    simp [totalSize, sizeAt, hlk, herased]

variable {m} (size' : κ → α → ℕ) {m' : Map κ α}

/-- Maps that agree on every key but one differ by what that key contributes. -/
theorem totalSize_of_agree (k : κ) (hsize : ∀ i, i ≠ k → size' i = size i) (hm : ∀ i, i ≠ k → m'.lookup i = m.lookup i) :
    totalSize size' m' + sizeAt size m k = totalSize size m + sizeAt size' m' k := by
  have hperm : (m'.erase k).entries.Perm (m.erase k).entries := by
    refine lookup_ext (m'.erase k).nodupKeys (m.erase k).nodupKeys fun i a => ?_
    change a ∈ (m'.erase k).lookup i ↔ a ∈ (m.erase k).lookup i
    by_cases hi : i = k
    · rw [hi, lookup_erase, lookup_erase]
    · rw [lookup_erase_ne hi, lookup_erase_ne hi, hm i hi]
  have hsizes : ∀ e ∈ (m.erase k).entries, size' e.1 e.2 = size e.1 e.2 := by
    intro e he
    have hne : e.1 ≠ k := (AList.mem_erase.mp (mem_keys_of_mem he)).1
    rw [hsize e.1 hne]
  have heq : totalSize size' (m'.erase k) = totalSize size (m.erase k) := (hperm.map _).sum_nat.trans (congrArg sum (map_congr_left hsizes))
  have h := totalSize_erase size m k
  have h' := totalSize_erase size' m' k
  omega

omit [DecidableEq κ] in
/-- A map is the sum of the entries that pass a test and of those that do not. -/
theorem totalSize_filter_add (p : κ → Bool) (m : Map κ α) : totalSize size (filterMapEntries (fun k a => if p k then none else some a) m) +
      totalSize size (filterMapEntries (fun k a => if p k then some a else none) m) = totalSize size m := by
  simp only [totalSize, filterMapEntries]
  induction m.entries with
  | nil => rfl
  | cons e es ih =>
    cases hp : p e.1
    all_goals
      simp only [filterMap_cons, hp, if_true, if_false, Bool.false_eq_true, map_some, map_none, map_cons, sum_cons]
      omega

end

end OverGraph.AssocMaps
