import OverGraph.LayeredWrites
import OverGraph.VersionedSlots

/-!
# Indexes that track a view

An index of versioned cells tracks a function of its keys if the head of every cell is what the
function gives. Writes maintain this if the last write of a key is what the function now gives, and
every key whose value changes is written.
-/

namespace OverGraph.TrackedIndexes
open AssocMaps VersionedSlots LayeredWrites List

variable {κ τ : Type} [DecidableEq κ]

/-- The heads of the cells are the values of the function. -/
def Tracks (idx : Map κ (VersionedSlot (Option τ))) (derived : κ → Option τ) : Prop := ∀ k, (headAt idx k).join = derived k

/-- Write values under keys, one after the other. -/
def setSlots (idx : Map κ (VersionedSlot (Option τ))) (writes : List (κ × Option τ)) (q : ℕ) :
    Map κ (VersionedSlot (Option τ)) := writes.foldl (fun idx write => setSlot idx write.1 write.2 q) idx

section
variable (idx : Map κ (VersionedSlot (Option τ)))

theorem headAt_setSlots (writes : List (κ × Option τ)) (q : ℕ) (k : κ) :
    headAt (setSlots idx writes q) k = (lastWrite writes k).or (headAt idx k) := by
  induction writes generalizing idx with
  | nil => rfl
  | cons write writes ih =>
    rw [setSlots, foldl_cons, ← setSlots, ih, headAt_setSlot, ← singleton_append, lastWrite_append]
    obtain ⟨key, value⟩ := write
    by_cases hkey : k = key
    · cases lastWrite writes k <;> simp [lastWrite, hkey]
    · cases lastWrite writes k <;> simp [lastWrite, hkey, Ne.symm hkey]

theorem setSlots_append (writes more : List (κ × Option τ)) (q : ℕ) :
    setSlots idx (writes ++ more) q = setSlots (setSlots idx writes q) more q := foldl_append

end

/-- The last write of every key that is written is its value. -/
def Settles (derived : κ → Option τ) (writes : List (κ × Option τ)) : Prop := ∀ k v, lastWrite writes k = some v → v = derived k

/-- Every key whose value changes is written. -/
def Covers (before after : κ → Option τ) (writes : List (κ × Option τ)) : Prop := ∀ k, before k ≠ after k → ∃ v, (k, v) ∈ writes

theorem settles_nil (derived : κ → Option τ) : Settles derived [] := fun k v h => by cases h

variable {derived : κ → Option τ} {fst snd : List (κ × Option τ)}

theorem Settles.append (hfst : Settles derived fst)
    (hsnd : Settles derived snd) : Settles derived (fst ++ snd) := by
  intro k v h
  rw [lastWrite_append] at h
  cases hlast : lastWrite snd k with
  | none =>
    rw [hlast] at h
    exact hfst k v h
  | some w =>
    rw [hlast] at h
    rw [← Option.some.inj h]
    exact hsnd k w hlast

theorem Settles.flatMap {α : Type} {writes : α → List (κ × Option τ)} {vs : List α}
    (h : ∀ a ∈ vs, Settles derived (writes a)) : Settles derived (vs.flatMap writes) := by
  induction vs with
  | nil => exact settles_nil derived
  | cons a vs ih =>
    rw [flatMap_cons]
    exact (h a mem_cons_self).append (ih fun other hoth => h other (mem_cons_of_mem _ hoth))

variable {writes : List (κ × Option τ)}

theorem settles_of_mem (h : ∀ write ∈ writes, write.2 = derived write.1) : Settles derived writes :=
  fun _ _ hlast => h _ (mem_of_lastWrite_eq_some hlast)

/-- Writes that do not settle their keys may be overridden by writes that do. -/
theorem Settles.override
    (hfst : ∀ write ∈ fst, write.2 = derived write.1 ∨ ∃ v, (write.1, v) ∈ snd) (hsnd : Settles derived snd) :
    Settles derived (fst ++ snd) := by
  intro k v h
  rw [lastWrite_append] at h
  cases hlast : lastWrite snd k with
  | none =>
    rw [hlast] at h
    rcases hfst _ (mem_of_lastWrite_eq_some h) with hval | hlat
    · exact hval
    · obtain ⟨w, hw⟩ := hlat
      exact absurd rfl (lastWrite_eq_none_iff.mp hlast _ hw)
  | some w =>
    rw [hlast] at h
    rw [← Option.some.inj h]
    exact hsnd k w hlast

variable {idx : Map κ (VersionedSlot (Option τ))}

section
variable {before after : κ → Option τ} (h : Tracks idx before)
include h

theorem Tracks.set (hsett : Settles after writes) (hcovs : Covers before after writes) (q : ℕ) :
    Tracks (setSlots idx writes q) after := by
  intro k
  rw [headAt_setSlots]
  cases hlast : lastWrite writes k with
  | some v =>
    rw [hsett k v hlast]
    cases after k <;> rfl
  | none =>
    have hsame : before k = after k := by
      by_contra hne
      obtain ⟨v, hv⟩ := hcovs k hne
      exact lastWrite_eq_none_iff.mp hlast _ hv rfl
    rw [Option.none_or, h k, hsame]

theorem Tracks.congr (heq : ∀ k, before k = after k) : Tracks idx after := fun k => (h k).trans (heq k)

end

theorem tracks_empty : Tracks (∅ : Map κ (VersionedSlot (Option τ))) fun _ => none := fun _ => rfl

section
variable {ρ : Type} (idOf : κ → ℕ) (derive : ρ → κ → Option τ)

def entriesOf (view : ℕ → Option ρ) (k : κ) : Option τ := (view (idOf k)).bind (derive · k)

/-- A view after a write of one record. -/
def Replaces (id : ℕ) (rec : Option ρ) (before after : ℕ → Option ρ) : Prop :=
  ∀ other, after other = if other = id then rec else before other

variable {idOf derive} {id : ℕ} {rec : Option ρ} {before after : ℕ → Option ρ}

omit [DecidableEq κ] in
theorem entriesOf_replaces (h : Replaces id rec before after) (k : κ) :
    entriesOf idOf derive after k = if idOf k = id then rec.bind (derive · k) else entriesOf idOf derive before k := by
  rw [entriesOf, h]
  split
  · rfl
  · rfl

variable {writes : List (κ × Option τ)}

omit [DecidableEq κ] in
/-- Only entries of the written record can change. -/
theorem covers_replaces (h : Replaces id rec before after)
    (hwr : ∀ k, idOf k = id → (before id).bind (derive · k) ≠ rec.bind (derive · k) → ∃ v, (k, v) ∈ writes) :
    Covers (entriesOf idOf derive before) (entriesOf idOf derive after) writes := by
  intro k hne
  rw [entriesOf_replaces h] at hne
  split at hne
  · rename_i hid
    apply hwr k hid
    rwa [entriesOf, hid] at hne
  · exact absurd rfl hne

variable (idOf derive id) in
/-- Writes that replace the entries of one version of a record by those of another: they give every
entry its new value, and give it to all that change. -/
structure Moves (old new : Option ρ) (writes : List (κ × Option τ)) : Prop where
  ids : ∀ write ∈ writes, idOf write.1 = id
  settles : Settles (fun k => new.bind (derive · k)) writes
  written : ∀ k, idOf k = id → old.bind (derive · k) ≠ new.bind (derive · k) → ∃ v, (k, v) ∈ writes

theorem Tracks.replace {idx : Map κ (VersionedSlot (Option τ))} (h : Tracks idx (entriesOf idOf derive before))
    (hview : Replaces id rec before after)
    (hmoves : Moves idOf derive id (before id) rec writes) (q : ℕ) :
    Tracks (setSlots idx writes q) (entriesOf idOf derive after) := by
  apply h.set _ (covers_replaces hview hmoves.written)
  intro k v hlast
  rw [entriesOf_replaces hview, if_pos (hmoves.ids _ (mem_of_lastWrite_eq_some hlast))]
  exact hmoves.settles k v hlast

end

end OverGraph.TrackedIndexes
