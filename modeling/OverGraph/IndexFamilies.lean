import OverGraph.TrackedIndexes

/-!
# Families of declared indexes

An index is declared for a label and for something that gives the records under the label a key. A
record has an entry in the index if it has the label and a key. When one version of a record replaces
another, the entries may be moved label by label.
-/

namespace OverGraph.TrackedIndexes
open AssocMaps VersionedSlots LayeredWrites List

structure IndexFamily (φ ρ κ : Type) where
  declared : ℕ → Option (ℕ × φ)
  labels : ρ → List ℕ
  keyOf : ℕ → φ → ρ → Option κ

namespace IndexFamily
variable {φ ρ κ : Type} [DecidableEq κ] (F : IndexFamily φ ρ κ)

def labelEntry (labelId : ℕ) (rec : ρ) (k : ℕ × κ × ℕ) : Option Unit :=
  (F.declared k.1).bind fun what => if what.1 = labelId ∧ F.keyOf labelId what.2 rec = some k.2.1 then some () else none

def entry (rec : ρ) (k : ℕ × κ × ℕ) : Option Unit :=
  (F.declared k.1).bind fun what => if what.1 ∈ F.labels rec ∧ F.keyOf what.1 what.2 rec = some k.2.1 then some () else none

def under (labelId : ℕ) (rec : Option ρ) : Option ρ := rec.filter fun rec => decide (labelId ∈ F.labels rec)

variable {labelId : ℕ}

theorem entry_eq_labelEntry {k : ℕ × κ × ℕ} {what : φ} (h : F.declared k.1 = some (labelId, what))
    (rec : Option ρ) : rec.bind (F.entry · k) = (F.under labelId rec).bind (F.labelEntry labelId · k) := by
  cases rec with
  | none => rfl
  | some rec => by_cases hlab : labelId ∈ F.labels rec <;> simp [under, Option.filter, entry, labelEntry, h, hlab]

/-- Writes that move the entries of one label. -/
structure Carries (labelId id : ℕ) (before after : Option ρ) (writes : List ((ℕ × κ × ℕ) × Option Unit)) : Prop where
  moves : Moves (fun k => k.2.2) (F.labelEntry labelId) id before after writes
  declared : ∀ write ∈ writes, ∃ what, F.declared write.1.1 = some (labelId, what)

variable {F} {id : ℕ} {old new : Option ρ}

variable (F id old new) in
/-- Writes that move the entries of all labels. -/
structure CarriesAll (writes : List ((ℕ × κ × ℕ) × Option Unit)) : Prop where
  moves : Moves (fun k => k.2.2) F.entry id old new writes
  declared : ∀ write ∈ writes, ∃ what, F.declared write.1.1 = some what

/-- Writes for each label make up the writes for all. -/
theorem carriesAll_of_chunks {chunks : List (ℕ × List ((ℕ × κ × ℕ) × Option Unit))}
    (hcks : ∀ chunk ∈ chunks, chunk.2 = [] ∨ F.Carries chunk.1 id (F.under chunk.1 old) (F.under chunk.1 new) chunk.2)
    (hall : ∀ labelId, (F.under labelId old ≠ none ∨ F.under labelId new ≠ none) →
      ∃ chunk ∈ chunks, chunk.1 = labelId ∧ F.Carries labelId id (F.under labelId old) (F.under labelId new) chunk.2) :
    F.CarriesAll id old new (chunks.flatMap (·.2)) := by
  have hw' : ∀ write ∈ chunks.flatMap (·.2), ∃ chunk ∈ chunks, write ∈ chunk.2 ∧
      F.Carries chunk.1 id (F.under chunk.1 old) (F.under chunk.1 new) chunk.2 := by
    intro write hw'
    obtain ⟨chunk, hck, hmem⟩ := mem_flatMap.mp hw'
    rcases hcks chunk hck with hemp | hcar
    · rw [hemp] at hmem
      cases hmem
    · exact ⟨chunk, hck, hmem, hcar⟩
  constructor
  case moves =>
    constructor
    case ids =>
      intro write h
      obtain ⟨chunk, -, hmem, hcar⟩ := hw' write h
      exact hcar.moves.ids write hmem
    case settles =>
      apply Settles.flatMap
      intro chunk hck
      rcases hcks chunk hck with hemp | hcar
      · rw [hemp]
        exact settles_nil _
      · intro k v hlast
        obtain ⟨what, hwhat⟩ := hcar.declared _ (mem_of_lastWrite_eq_some hlast)
        show v = new.bind (F.entry · k)
        rw [entry_eq_labelEntry F hwhat]
        exact hcar.moves.settles k v hlast
    case written =>
      intro k hk hne
      cases hdecl : F.declared k.1 with
      | none =>
        have hnone : ∀ rec : Option ρ, rec.bind (F.entry · k) = none := by
          intro rec
          cases rec with
          | none => rfl
          | some rec => simp [entry, hdecl]
        rw [hnone, hnone] at hne
        exact absurd rfl hne
      | some what =>
        obtain ⟨labelId, what⟩ := what
        rw [entry_eq_labelEntry F hdecl, entry_eq_labelEntry F hdecl] at hne
        have hunder : F.under labelId old ≠ none ∨ F.under labelId new ≠ none := by
          by_contra hnone
          rw [not_or, not_not, not_not] at hnone
          rw [hnone.1, hnone.2] at hne
          exact hne rfl
        obtain ⟨chunk, hck, -, hcar⟩ := hall labelId hunder
        obtain ⟨v, hv⟩ := hcar.moves.written k hk hne
        exact ⟨v, mem_flatMap.mpr ⟨chunk, hck, hv⟩⟩
  case declared =>
    intro write h
    obtain ⟨chunk, -, hmem, hcar⟩ := hw' write h
    obtain ⟨what, hwhat⟩ := hcar.declared write hmem
    exact ⟨_, hwhat⟩

/-- Writes for each label of one record, where no other label is concerned. -/
theorem carriesAll_labels {record : ρ} {chunk : ℕ → List ((ℕ × κ × ℕ) × Option Unit)}
    (hck : ∀ labelId ∈ F.labels record, F.Carries labelId id (F.under labelId old) (F.under labelId new) (chunk labelId))
    (hnone : ∀ labelId, labelId ∉ F.labels record → F.under labelId old = none ∧ F.under labelId new = none) :
    F.CarriesAll id old new ((F.labels record).flatMap chunk) := by
  have hflat : (F.labels record).flatMap chunk = ((F.labels record).map fun labelId => (labelId, chunk labelId)).flatMap (·.2) := by
    rw [flatMap_map]
  rw [hflat]
  apply carriesAll_of_chunks
  · intro _ hmem
    obtain ⟨labelId, hlab, rfl⟩ := mem_map.mp hmem
    exact .inr (hck labelId hlab)
  · intro labelId hunder
    have hlab : labelId ∈ F.labels record := by
      by_contra hnot
      exact hunder.elim (fun h => h (hnone labelId hnot).1) fun h => h (hnone labelId hnot).2
    exact ⟨_, mem_map.mpr ⟨labelId, hlab, rfl⟩, rfl, hck labelId hlab⟩

section
variable {rec : ρ} {labelId : ℕ} {writes : List ((ℕ × κ × ℕ) × Option Unit)}

theorem carries_entry {enters : Bool} (hmem : ∀ write, write ∈ writes ↔ ∃ i what key, F.declared i = some (labelId, what) ∧
      F.keyOf labelId what rec = some key ∧ write = ((i, key, id), if enters then some () else none)) :
    F.Carries labelId id (if enters then none else some rec) (if enters then some rec else none) writes := by
  constructor
  case moves =>
    constructor
    case ids => grind
    case settles => exact settles_of_mem (by cases enters <;> grind [labelEntry])
    case written =>
      intro k hk hne
      obtain ⟨i, key, owner⟩ := k
      obtain rfl : owner = id := hk
      cases hdecl : F.declared i with
      | none => simp [labelEntry, hdecl] at hne
      | some what =>
        obtain ⟨labelId', what⟩ := what
        have hboth : labelId' = labelId ∧ F.keyOf labelId what rec = some key := by cases enters <;> grind [labelEntry]
        obtain ⟨rfl, hkey⟩ := hboth
        exact ⟨_, (hmem _).mpr ⟨i, what, key, hdecl, hkey, rfl⟩⟩
  case declared => grind

theorem carries_enter (hmem : ∀ write, write ∈ writes ↔ ∃ i what key, F.declared i = some (labelId, what) ∧
      F.keyOf labelId what rec = some key ∧ write = ((i, key, id), some ())) :
    F.Carries labelId id none (some rec) writes :=
  show F.Carries labelId id (if true then none else _) (if true then _ else none) writes from carries_entry hmem

theorem carries_withdraw (hmem : ∀ write, write ∈ writes ↔ ∃ i what key, F.declared i = some (labelId, what) ∧
      F.keyOf labelId what rec = some key ∧ write = ((i, key, id), none)) :
    F.Carries labelId id (some rec) none writes :=
  show F.Carries labelId id (if false then none else _) (if false then _ else none) writes from carries_entry hmem

end

section
variable {W : Type} (labels : ρ → List ℕ) (es : ρ → Bool → ℕ → List W) (updates : ρ → ρ → ℕ → List W)

/-- Labels that are gone are withdrawn, those that stay are updated and new ones are entered. -/
def syncWrites (old : Option ρ) (new : ρ) : List W :=
  old.elim ((labels new).flatMap (es new true)) fun old =>
    ((labels old).flatMap fun labelId => if labelId ∈ labels new then [] else es old false labelId) ++
    (labels new).flatMap fun labelId => if labelId ∈ labels old then updates old new labelId else es new true labelId

end

section
variable {es : ρ → Bool → ℕ → List ((ℕ × κ × ℕ) × Option Unit)} {updates : ρ → ρ → ℕ → List ((ℕ × κ × ℕ) × Option Unit)}
  {idOf : ρ → ℕ}
  (hents : ∀ rec labelId, F.Carries labelId (idOf rec) none (some rec) (es rec true labelId))
  (hwith : ∀ rec labelId, F.Carries labelId (idOf rec) (some rec) none (es rec false labelId))
  (hupds : ∀ old new labelId, idOf old = idOf new → F.Carries labelId (idOf new) (some old) (some new) (updates old new labelId))

omit [DecidableEq κ] in
theorem under_some_of_mem {rec : ρ} (h : labelId ∈ F.labels rec) :
    F.under labelId (some rec) = some rec := by simp [under, Option.filter, h]

omit [DecidableEq κ] in
theorem under_some_of_not_mem {rec : ρ} (h : labelId ∉ F.labels rec) :
    F.under labelId (some rec) = none := by simp [under, Option.filter, h]

include hents hwith hupds in
theorem carriesAll_syncWrites {new : ρ} (hid : ∀ rec, old = some rec → idOf rec = idOf new) :
    F.CarriesAll (idOf new) old (some new) (syncWrites F.labels es updates old new) := by
  cases old with
  | none =>
    refine carriesAll_labels (fun labelId hlab => ?_) fun labelId hnot => ⟨rfl, under_some_of_not_mem hnot⟩
    rw [under_some_of_mem hlab]
    exact hents new labelId
  | some old =>
    have hsame := hid old rfl
    have hflat : syncWrites F.labels es updates (some old) new =
        (((F.labels old).map fun labelId => (labelId, if labelId ∈ F.labels new then [] else es old false labelId)) ++
        (F.labels new).map fun labelId => (labelId, if labelId ∈ F.labels old then updates old new labelId
          else es new true labelId)).flatMap (·.2) := by
      rw [flatMap_append, flatMap_map, flatMap_map]
      rfl
    have hgone : ∀ labelId, labelId ∉ F.labels new → labelId ∈ F.labels old →
        F.Carries labelId (idOf new) (F.under labelId (some old)) (F.under labelId (some new)) (es old false labelId) := by
      intro labelId hnew hold
      rw [under_some_of_mem hold, under_some_of_not_mem hnew, ← hsame]
      exact hwith old labelId
    have hstays : ∀ labelId, labelId ∈ F.labels new → F.Carries labelId (idOf new) (F.under labelId (some old)) (F.under labelId (some new))
          (if labelId ∈ F.labels old then updates old new labelId else es new true labelId) := by
      intro labelId hnew
      split
      · rename_i hold
        rw [under_some_of_mem hold, under_some_of_mem hnew]
        exact hupds old new labelId hsame
      · rename_i hold
        rw [under_some_of_not_mem hold, under_some_of_mem hnew]
        exact hents new labelId
    rw [hflat]
    apply carriesAll_of_chunks
    · intro chunk hck
      rcases mem_append.mp hck with hfst | hsnd
      · obtain ⟨labelId, hold, rfl⟩ := mem_map.mp hfst
        by_cases hnew : labelId ∈ F.labels new
        · exact .inl (if_pos hnew)
        · right
          dsimp only
          rw [if_neg hnew]
          exact hgone labelId hnew hold
      · obtain ⟨labelId, hnew, rfl⟩ := mem_map.mp hsnd
        exact .inr (hstays labelId hnew)
    · intro labelId hunder
      by_cases hnew : labelId ∈ F.labels new
      · exact ⟨_, mem_append_right _ (mem_map.mpr ⟨labelId, hnew, rfl⟩), rfl, hstays labelId hnew⟩
      · have hold : labelId ∈ F.labels old := by
          by_contra hnot
          rw [under_some_of_not_mem hnot, under_some_of_not_mem hnew] at hunder
          exact hunder.elim (fun h => h rfl) fun h => h rfl
        refine ⟨_, mem_append_left _ (mem_map.mpr ⟨labelId, hold, rfl⟩), rfl, ?_⟩
        dsimp only
        rw [if_neg hnew]
        exact hgone labelId hnew hold

include hwith in
theorem carriesAll_withdraws (old : ρ) : F.CarriesAll (idOf old) (some old) none ((F.labels old).flatMap (es old false)) := by
  refine carriesAll_labels (fun labelId hlab => ?_) fun labelId hnot => ⟨under_some_of_not_mem hnot, rfl⟩
  rw [under_some_of_mem hlab]
  exact hwith old labelId

end

section
variable {before after : ℕ → Option ρ} {idx : Map (ℕ × κ × ℕ) (VersionedSlot (Option Unit))} {other : ℕ × κ × ℕ → Option Unit}

/-- An index that has the entries of a family, and others under keys of other indexes. -/
theorem CarriesAll.tracks (h : Tracks idx fun k => (entriesOf (fun k => k.2.2) F.entry before k).or (other k))
    (hview : Replaces id new before after) {writes : List ((ℕ × κ × ℕ) × Option Unit)}
    (hcar : F.CarriesAll id (before id) new writes)
    (hoth : ∀ k what, F.declared k.1 = some what → other k = none) (q : ℕ) :
    Tracks (setSlots idx writes q) fun k => (entriesOf (fun k => k.2.2) F.entry after k).or (other k) := by
  apply h.set
  · intro k v hlast
    have hmem := mem_of_lastWrite_eq_some hlast
    obtain ⟨what, hwhat⟩ := hcar.declared _ hmem
    show v = (entriesOf (fun k => k.2.2) F.entry after k).or (other k)
    rw [hoth _ _ hwhat, Option.or_none, entriesOf_replaces hview, if_pos (hcar.moves.ids _ hmem)]
    exact hcar.moves.settles k v hlast
  · intro k hne
    apply covers_replaces hview hcar.moves.written
    intro hsame
    exact hne (congrArg (Option.or · (other k)) hsame)

end

end IndexFamily
end OverGraph.TrackedIndexes
