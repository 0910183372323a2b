import Mathlib.Data.List.Nodup

/-!
# The first of each identifier

Lists of records are merged by going through them in turn and taking each identifier where it is first seen.
A record whose identifier was seen before is skipped, and one that is taken may still be left out.
-/

namespace OverGraph.FirstSeen

open List

variable {κ ρ : Type} [DecidableEq κ] (idOf : ρ → κ)

/-- The records taken so far and the identifiers seen. -/
structure Merged (κ ρ : Type) where
  results : List ρ
  seen : List κ

def see (keep : ρ → Bool) (st : Merged κ ρ) (rec : ρ) : Merged κ ρ :=
  if idOf rec ∈ st.seen then st
  else ⟨if keep rec then st.results ++ [rec] else st.results, idOf rec :: st.seen⟩

def merge (keep : ρ → Bool) (st : Merged κ ρ) (lists : List (List ρ)) : Merged κ ρ :=
  lists.foldl (fun st list => list.foldl (see idOf keep) st) st

/-- A list holds one record at most under each identifier. -/
structure Lists (list : List ρ) (offer : κ → Option ρ) : Prop where
  nodup : (list.map idOf).Nodup
  mem : ∀ rec, rec ∈ list ↔ offer (idOf rec) = some rec

variable {idOf} {keep : ρ → Bool} {st : Merged κ ρ}

theorem mem_see {rec other : ρ} : other ∈ (see idOf keep st rec).results ↔
      other ∈ st.results ∨ (other = rec ∧ idOf rec ∉ st.seen ∧ keep rec = true) := by
  rw [see]
  by_cases hseen : idOf rec ∈ st.seen
  · simp [hseen]
  · by_cases hkeep : keep rec = true <;> simp [hseen, hkeep]

variable {rec : ρ}

theorem mem_seen_see {k : κ} : k ∈ (see idOf keep st rec).seen ↔ k ∈ st.seen ∨ k = idOf rec := by
  rw [see]
  by_cases hseen : idOf rec ∈ st.seen
  · simp only [if_pos hseen]
    exact ⟨Or.inl, fun h => h.elim id fun heq => heq ▸ hseen⟩
  · simp [if_neg hseen, or_comm]

variable {list : List ρ}

theorem mem_seen_foldl {k : κ} : k ∈ (list.foldl (see idOf keep) st).seen ↔ k ∈ st.seen ∨ k ∈ list.map idOf := by
  induction list generalizing st with
  | nil => simp
  | cons rec list ih => rw [foldl_cons, ih, mem_seen_see, map_cons, mem_cons, or_assoc]

theorem foldl_filter_seen {pick : ρ → Bool} (h : ∀ rec ∈ list, pick rec = false → idOf rec ∈ st.seen) :
    (list.filter pick).foldl (see idOf keep) st = list.foldl (see idOf keep) st := by
  induction list generalizing st with
  | nil => rfl
  | cons rec list ih =>
    have hrest : ∀ other ∈ list, pick other = false → idOf other ∈ (see idOf keep st rec).seen := fun other hoth hpick =>
      mem_seen_see.mpr (Or.inl (h other (mem_cons_of_mem _ hoth) hpick))
    rw [foldl_cons, ← ih hrest]
    by_cases hpick : pick rec = true
    · rw [filter_cons_of_pos hpick, foldl_cons]
    · have hskip : see idOf keep st rec = st := if_pos (h rec mem_cons_self (Bool.eq_false_iff.mpr hpick))
      rw [filter_cons_of_neg hpick, hskip]

/-- Going through a list takes what was not seen before it, where records with one identifier are one record. -/
theorem mem_foldl (hsame : ∀ fst ∈ list, ∀ snd ∈ list, idOf fst = idOf snd → fst = snd)
    : rec ∈ (list.foldl (see idOf keep) st).results ↔ rec ∈ st.results ∨ (rec ∈ list ∧ idOf rec ∉ st.seen ∧ keep rec = true) := by
  induction list generalizing st with
  | nil => simp
  | cons fst list ih =>
    have hoth : rec ∈ list → idOf rec = idOf fst → rec = fst := fun hmem => hsame rec (mem_cons_of_mem _ hmem) fst mem_cons_self
    have hrest : ∀ a ∈ list, ∀ b ∈ list, idOf a = idOf b → a = b := fun a ha b hb => hsame a (mem_cons_of_mem _ ha) b (mem_cons_of_mem _ hb)
    rw [foldl_cons, ih hrest, mem_see, mem_seen_see, mem_cons]
    constructor
    · rintro ((hold | ⟨rfl, htaken⟩) | ⟨hmem, hunseen, hkeep⟩)
      · exact Or.inl hold
      · exact Or.inr ⟨Or.inl rfl, htaken⟩
      · exact Or.inr ⟨Or.inr hmem, fun hin => hunseen (Or.inl hin), hkeep⟩
    · rintro (hold | ⟨rfl | hmem, hunseen, hkeep⟩)
      · exact Or.inl (Or.inl hold)
      · exact Or.inl (Or.inr ⟨rfl, hunseen, hkeep⟩)
      · by_cases hid : idOf rec = idOf fst
        · obtain rfl := hoth hmem hid
          exact Or.inl (Or.inr ⟨rfl, hunseen, hkeep⟩)
        · exact Or.inr ⟨hmem, fun hin => hin.elim hunseen hid, hkeep⟩

omit [DecidableEq κ] in
/-- What a list holds under an identifier is what it offers there. -/
theorem mem_ids {offer : κ → Option ρ} (hlist : ∀ rec, rec ∈ list ↔ offer (idOf rec) = some rec)
    (hid : ∀ k rec, offer k = some rec → idOf rec = k) {k : κ} : k ∈ list.map idOf ↔ (offer k).isSome := by
  rw [mem_map, Option.isSome_iff_exists]
  constructor
  · rintro ⟨rec, hmem, rfl⟩
    exact ⟨rec, (hlist rec).mp hmem⟩
  · rintro ⟨rec, hoff⟩
    have hrec := hid k rec hoff
    exact ⟨rec, (hlist rec).mpr (hrec.symm ▸ hoff), hrec⟩

/-- The merge takes each identifier from the first list that offers it. -/
theorem mem_merge {lists : List (List ρ × (κ → Option ρ))}
    (hls : ∀ l ∈ lists, ∀ rec, rec ∈ l.1 ↔ l.2 (idOf rec) = some rec)
    (hids : ∀ l ∈ lists, ∀ k rec, l.2 k = some rec → idOf rec = k) :
    rec ∈ (merge idOf keep st (lists.map (·.1))).results ↔ rec ∈ st.results ∨
      (idOf rec ∉ st.seen ∧ lists.findSome? (·.2 (idOf rec)) = some rec ∧ keep rec = true) := by
  induction lists generalizing st with
  | nil => simp [merge]
  | cons l lists ih =>
    have hl := hls l mem_cons_self
    have hsame : ∀ fst ∈ l.1, ∀ snd ∈ l.1, idOf fst = idOf snd → fst = snd := by
      intro fst hfst snd hsnd hid
      have hoff := (hl fst).mp hfst
      rw [hid, (hl snd).mp hsnd] at hoff
      exact (Option.some.inj hoff).symm
    have hmerge : rec ∈ (merge idOf keep (l.1.foldl (see idOf keep) st) (lists.map (·.1))).results ↔ _ :=
      ih (fun l' h => hls l' (mem_cons_of_mem _ h)) fun l' h => hids l' (mem_cons_of_mem _ h)
    rw [map_cons, merge, foldl_cons, ← merge, hmerge, mem_foldl hsame, hl, mem_seen_foldl,
      mem_ids hl (hids l mem_cons_self), findSome?_cons]
    cases hoff : l.2 (idOf rec) with
    | none => simp
    | some found =>
      simp only [Option.some.injEq, Option.isSome_some, or_true, not_true_eq_false, false_and, or_false]
      exact or_congr_right ⟨fun h => ⟨h.2.1, h.1, h.2.2⟩, fun h => ⟨h.2.1, h.1, h.2.2⟩⟩

/-- What was taken was seen, and each identifier was taken once. -/
structure Merged.Distinct (idOf : ρ → κ) (st : Merged κ ρ) : Prop where
  nodup : (st.results.map idOf).Nodup
  seen : ∀ rec ∈ st.results, idOf rec ∈ st.seen

theorem Merged.Distinct.see (h : st.Distinct idOf) (rec : ρ) : (see idOf keep st rec).Distinct idOf := by
  rw [FirstSeen.see]
  by_cases hseen : idOf rec ∈ st.seen
  · rwa [if_pos hseen]
  · rw [if_neg hseen]
    by_cases hkeep : keep rec = true
    · rw [if_pos hkeep]
      refine ⟨?_, ?_⟩
      · rw [map_append, map_singleton]
        refine Nodup.append h.nodup (nodup_singleton _) ?_
        intro k hk hlast
        obtain ⟨other, hoth, rfl⟩ := mem_map.mp hk
        exact hseen (mem_singleton.mp hlast ▸ h.seen other hoth)
      · intro other hoth
        obtain hoth | hoth := mem_append.mp hoth
        · exact mem_cons_of_mem _ (h.seen other hoth)
        · rw [mem_singleton.mp hoth]
          exact mem_cons_self
    · rw [if_neg hkeep]
      exact ⟨h.nodup, fun other hoth => mem_cons_of_mem _ (h.seen other hoth)⟩

theorem Merged.Distinct.merge {lists : List (List ρ)} (h : st.Distinct idOf) : (merge idOf keep st lists).Distinct idOf := by
  induction lists generalizing st with
  | nil => exact h
  | cons list lists ih =>
    have hlist : (list.foldl (FirstSeen.see idOf keep) st).Distinct idOf := by
      clear ih
      induction list generalizing st with
      | nil => exact h
      | cons rec list ih => exact ih (h.see rec)
    exact ih hlist

end OverGraph.FirstSeen
