import OverGraph.AssocMaps

/-!
# Versioned cells

A cell keeps its newest version as the head and its earlier versions as a history,
listed newest first. Writing at the head's own sequence number overwrites the head
in place. Reading at a snapshot returns the newest version that is not younger than
the snapshot.
-/

namespace OverGraph.VersionedSlots
open AssocMaps

variable {τ : Type*}

structure SlotVersion (τ : Type*) where
  writeSeq : ℕ
  value : τ
  deriving DecidableEq, Repr

structure VersionedSlot (τ : Type*) where
  head : SlotVersion τ
  history : List (SlotVersion τ)
  deriving DecidableEq, Repr

namespace VersionedSlot

def new (writeSeq : ℕ) (value : τ) : VersionedSlot τ := ⟨⟨writeSeq, value⟩, []⟩

def replace (slot : VersionedSlot τ) (writeSeq : ℕ) (value : τ) : VersionedSlot τ :=
  if slot.head.writeSeq = writeSeq then { slot with head := ⟨writeSeq, value⟩ }
  else ⟨⟨writeSeq, value⟩, slot.head :: slot.history⟩

def current (slot : VersionedSlot τ) : τ := slot.head.value

/-- The version visible at a snapshot. -/
def readAt (slot : VersionedSlot τ) (snapshotSeq : ℕ) : Option τ :=
  if slot.head.writeSeq ≤ snapshotSeq then some slot.head.value
  else slot.history.findSome? fun version => if version.writeSeq ≤ snapshotSeq then some version.value else none

@[simp] theorem current_new (q : ℕ) (v : τ) : (new q v).current = v := rfl

section
variable (slot : VersionedSlot τ) (q : ℕ) (v : τ)

@[simp] theorem current_replace : (slot.replace q v).current = v := by
  unfold replace current
  split <;> rfl

@[simp] theorem head_writeSeq_replace : (slot.replace q v).head.writeSeq = q := by
  unfold replace
  split <;> rfl

end

/-- At any snapshot the head is not younger than, a read returns the head. -/
theorem readAt_eq_current {slot : VersionedSlot τ} {s : ℕ} (h : slot.head.writeSeq ≤ s) : slot.readAt s = some slot.current := by
  simp [readAt, h, current]

end VersionedSlot

open VersionedSlot

variable {κ : Type*} [DecidableEq κ]

/-- Write a version under a key, opening the cell if the key has none. -/
def setSlot (m : Map κ (VersionedSlot τ)) (k : κ) (value : τ) (writeSeq : ℕ) : Map κ (VersionedSlot τ) :=
  alter m k fun
    | some slot => slot.replace writeSeq value
    | none => new writeSeq value

/-- The newest version under a key. -/
def headAt (m : Map κ (VersionedSlot τ)) (k : κ) : Option τ := (m.lookup k).map current

@[simp] theorem headAt_empty (k : κ) : headAt (∅ : Map κ (VersionedSlot τ)) k = none := rfl

@[simp] theorem headAt_setSlot (m : Map κ (VersionedSlot τ)) (k k' : κ) (v : τ) (q : ℕ) :
    headAt (setSlot m k v q) k' = if k' = k then some v else headAt m k' := by
  by_cases h : k' = k
  · subst h
    simp only [headAt, setSlot, lookup_alter, if_true]
    cases m.lookup k' <;> simp
  · simp [headAt, setSlot, h]

/-- No cell of the map is younger than the snapshot. -/
def NotYounger (m : Map κ (VersionedSlot τ)) (s : ℕ) : Prop := ∀ k slot, m.lookup k = some slot → slot.head.writeSeq ≤ s

theorem notYounger_empty (s : ℕ) : NotYounger (∅ : Map κ (VersionedSlot τ)) s := by
  intro k slot h
  simp at h

variable {m : Map κ (VersionedSlot τ)}

theorem NotYounger.setSlot {s q : ℕ} (h : NotYounger m s)
    (hq : q ≤ s) (k : κ) (v : τ) : NotYounger (setSlot m k v q) s := by
  intro k' slot hs
  by_cases hk : k' = k
  · subst hk
    simp only [VersionedSlots.setSlot, lookup_alter, if_true, Option.some.injEq] at hs
    subst hs
    cases m.lookup k' <;> simpa
  · simp only [VersionedSlots.setSlot, lookup_alter, hk, if_false] at hs
    exact h k' slot hs

/-- A map none of whose cells is younger than the snapshot is read through its heads. -/
theorem NotYounger.readAt {s : ℕ} (h : NotYounger m s) (k : κ) : ((m.lookup k).bind fun slot => slot.readAt s) = headAt m k := by
  unfold headAt
  cases hk : m.lookup k with
  | none => rfl
  | some slot => exact readAt_eq_current (h k slot hk)

end OverGraph.VersionedSlots
