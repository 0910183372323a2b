import Mathlib.Data.List.Basic

/-!
# Logs of keyed writes and first-opinion-wins layers

A log is a list of writes, oldest first; writing `none` deletes the key. A layer
is anything that may or may not have an opinion about a key, and a stack of layers
is consulted newest first. Cutting one log into consecutive chunks and stacking the
last writes of the chunks gives back the last write of the whole log, whatever the
cut.
-/

namespace OverGraph.LayeredWrites
open List

variable {κ ν : Type*}

/-- What one layer knows about each key: nothing, a value, or a deletion. -/
abbrev Opinion (κ ν : Type*) := κ → Option (Option ν)

/-- The newest opinion in a stack that is listed newest first. -/
def firstOpinion (lays : List (Opinion κ ν)) (k : κ) : Option (Option ν) := lays.findSome? (· k)

/-- The value a reader of the stack sees. -/
def visible (lays : List (Opinion κ ν)) (k : κ) : Option ν := (firstOpinion lays k).join

@[simp] theorem firstOpinion_nil (k : κ) : firstOpinion ([] : List (Opinion κ ν)) k = none := rfl

@[simp] theorem firstOpinion_cons (lay : Opinion κ ν) (lays : List (Opinion κ ν)) (k : κ) :
    firstOpinion (lay :: lays) k = (lay k).or (firstOpinion lays k) := by
  simp only [firstOpinion, findSome?_cons]
  cases lay k <;> rfl

theorem firstOpinion_append (newer older : List (Opinion κ ν)) (k : κ) :
    firstOpinion (newer ++ older) k = (firstOpinion newer k).or (firstOpinion older k) := by
  induction newer with
  | nil => rfl
  | cons lay newer ih => simp [ih, Option.or_assoc]

variable {newer older : List (Opinion κ ν)} {k : κ}

/-- An opinion that wins hides everything below it. -/
theorem firstOpinion_of_silent (h : firstOpinion newer k = none) : firstOpinion (newer ++ older) k = firstOpinion older k := by
  simp [firstOpinion_append, h]

theorem visible_of_silent (h : firstOpinion newer k = none) : visible (newer ++ older) k = visible older k := by
  rw [visible, firstOpinion_of_silent h, visible]

theorem visible_of_opinion {opinion : Option ν}
    (h : firstOpinion newer k = some opinion) : visible (newer ++ older) k = opinion := by
  rw [visible, firstOpinion_append, h]
  rfl

/-- A change of the older layers takes away what the newer ones leave to them. -/
theorem visible_lost_iff {newer older older' : List (Opinion κ ν)} {v : ν} :
    visible (newer ++ older) k = some v ∧ visible (newer ++ older') k = none ↔
      firstOpinion newer k = none ∧ visible older k = some v ∧ visible older' k = none := by
  cases h : firstOpinion newer k with
  | none => simp [visible_of_silent h]
  | some opinion =>
    rw [visible_of_opinion h, visible_of_opinion h]
    cases opinion <;> simp

theorem firstOpinion_eq_none_iff {lays : List (Opinion κ ν)} : firstOpinion lays k = none ↔ ∀ lay ∈ lays, lay k = none := by
  simp [firstOpinion]

/-- A layer whose values are seen through a projection. -/
def project {ρ : Type*} (f : ν → ρ) (lay : Opinion κ ν) : Opinion κ ρ := fun k => (lay k).map (Option.map f)

theorem firstOpinion_project {ρ : Type*} (f : ν → ρ) (lays : List (Opinion κ ν)) (k : κ) :
    firstOpinion (lays.map (project f)) k = (firstOpinion lays k).map (Option.map f) := by
  induction lays with
  | nil => rfl
  | cons lay lays ih =>
    simp only [map_cons, firstOpinion_cons, ih, project]
    cases lay k <;> simp

variable [DecidableEq κ]

def lastWrite : List (κ × Option ν) → Opinion κ ν
  | [], _ => none
  | w :: log, k => (lastWrite log k).or (if w.1 = k then some w.2 else none)

@[simp] theorem lastWrite_nil (k : κ) : lastWrite ([] : List (κ × Option ν)) k = none := rfl

theorem lastWrite_append (old new : List (κ × Option ν)) (k : κ) : lastWrite (old ++ new) k = (lastWrite new k).or (lastWrite old k) := by
  induction old with
  | nil => simp
  | cons w old ih => simp [lastWrite, ih, Option.or_assoc]

variable {log : List (κ × Option ν)}

theorem lastWrite_eq_none_iff : lastWrite log k = none ↔ ∀ w ∈ log, w.1 ≠ k := by
  induction log with
  | nil => simp
  | cons w log ih => simp [lastWrite, ih, and_comm]

theorem mem_of_lastWrite_eq_some {v : Option ν} (h : lastWrite log k = some v) : (k, v) ∈ log := by
  induction log with
  | nil => simp at h
  | cons w log ih =>
    rw [lastWrite, Option.or_eq_some_iff] at h
    rcases h with h | ⟨-, h⟩
    · exact mem_cons_of_mem _ (ih h)
    · split at h
      · rename_i hk
        cases h
        exact hk ▸ mem_cons_self
      · cases h

/-! ## Owners

A key may be derived from the value it is found by. Such a key has an owner: an
identifier whose visible value carries it. -/

section
variable {ι : Type*} (carries : κ → ν → Prop)

def Owns (view : ι → Option ν) (k : κ) (id : ι) : Prop := ∃ v, view id = some v ∧ carries k v

def OwnersUnique (view : ι → Option ν) : Prop := ∀ k i j, Owns carries view k i → Owns carries view k j → i = j

open Classical in
/-- The value that carries a key. -/
noncomputable def owner (view : ι → Option ν) (k : κ) : Option ν :=
  if h : ∃ v id, view id = some v ∧ carries k v then some h.choose else none

variable {carries}

omit [DecidableEq κ] in
theorem owner_eq_some_iff {view : ι → Option ν} (hu : OwnersUnique carries view) {k : κ} {v : ν} :
    owner carries view k = some v ↔ ∃ id, view id = some v ∧ carries k v := by
  unfold owner
  split
  · rename_i h
    obtain ⟨id, hid, hc⟩ := h.choose_spec
    refine ⟨fun heq => Option.some.inj heq ▸ ⟨id, hid, hc⟩, fun ⟨id', hid', hc'⟩ => ?_⟩
    obtain rfl := hu k id id' ⟨_, hid, hc⟩ ⟨_, hid', hc'⟩
    exact hid.symm.trans hid'
  · rename_i h
    exact ⟨fun heq => (by cases heq), fun ⟨id, hid⟩ => absurd ⟨v, id, hid⟩ h⟩

/-- A layer together with its own index of who carries which key. -/
structure IndexedLayer (ι κ ν : Type*) where
  opinion : Opinion ι ν
  claim : κ → Option ι

/-- The index of a layer names the owners among the values of that layer. -/
def IndexedLayer.Exact (carries : κ → ν → Prop) (lay : IndexedLayer ι κ ν) : Prop :=
  ∀ k id, lay.claim k = some id ↔ Owns carries (fun i => (lay.opinion i).join) k id

def OnceUnique (carries : κ → ν → Prop) (lays : List (IndexedLayer ι κ ν)) : Prop :=
  ∀ older, older <:+ lays → OwnersUnique carries (visible (older.map (·.opinion)))

omit [DecidableEq κ] in
/-- The owner of a key is named by the newest layer that names anyone for the key, and
no layer above has an opinion about it. -/
theorem owner_claimed {lays : List (IndexedLayer ι κ ν)}
    (hxt : ∀ lay ∈ lays, lay.Exact carries) (hu : OnceUnique carries lays) {k : κ}
    {id : ι} (hown : Owns carries (visible (lays.map (·.opinion))) k id) :
    ∃ newer lay older, lays = newer ++ lay :: older ∧ lay.claim k = some id ∧ ∀ l ∈ newer, l.claim k = none ∧ l.opinion id = none := by
  induction lays with
  | nil =>
    obtain ⟨v, hv, -⟩ := hown
    cases hv
  | cons lay lays ih =>
    obtain ⟨v, hv, hc⟩ := hown
    rcases ho : lay.opinion id with - | (- | w)
    · -- the layer is silent about the owner, so nobody in it can carry the key
      have hbel : visible (lays.map (·.opinion)) id = some v := by simpa [visible, ho] using hv
      have hnone : lay.claim k = none := by
        refine Option.eq_none_iff_forall_ne_some.mpr fun other hoth => ?_
        obtain ⟨w, hw, hcw⟩ := (hxt lay (by simp) k other).mp hoth
        have hw' : visible ((lay :: lays).map (·.opinion)) other = some w := by
          rw [Option.join_eq_some_iff] at hw
          simp [visible, hw]
        have hsame := hu _ (suffix_refl _) k other id ⟨w, hw', hcw⟩ ⟨v, hv, hc⟩
        subst hsame
        simp [ho] at hw
      obtain ⟨newer, l, older, rfl, hl, hab⟩ :=
        ih (fun l hl => hxt l (by simp [hl]))
          (fun older ho => hu older (ho.trans (suffix_cons _ _))) ⟨v, hbel, hc⟩
      refine ⟨lay :: newer, l, older, rfl, hl, fun l' hl' => ?_⟩
      rcases mem_cons.mp hl' with rfl | hl'
      · exact ⟨hnone, ho⟩
      · exact hab l' hl'
    · simp [visible, ho] at hv
    · have hw : w = v := by simpa [visible, ho] using hv
      subst hw
      refine ⟨[], lay, lays, rfl, ?_, by simp⟩
      exact (hxt lay (by simp) k id).mpr ⟨w, by simp [ho], hc⟩

omit [DecidableEq κ] in
/-- Fewer values have fewer owners. -/
theorem OwnersUnique.mono {view view' : ι → Option ν} (hu : OwnersUnique carries view')
    (hsub : ∀ id v, view id = some v → view' id = some v) : OwnersUnique carries view := by
  intro k i j ⟨v, hv, hc⟩ ⟨w, hw, hc'⟩
  exact hu k i j ⟨v, hsub i v hv, hc⟩ ⟨w, hsub j w hw, hc'⟩

/-- Below the same layers, a stack that shows less shows less. -/
theorem visible_append_mono {newer older older' : List (Opinion ι ν)}
    (hsub : ∀ id v, visible older id = some v → visible older' id = some v) {id : ι} {v : ν}
    (hv : visible (newer ++ older) id = some v) : visible (newer ++ older') id = some v := by
  rw [visible, firstOpinion_append] at hv ⊢
  cases hn : firstOpinion newer id with
  | none =>
    rw [hn, Option.none_or] at hv
    exact hsub id v hv
  | some opinion =>
    rw [hn] at hv
    exact hv

omit [DecidableEq κ] in
theorem OnceUnique.replace_oldest {newer older : List (IndexedLayer ι κ ν)}
    {lay : IndexedLayer ι κ ν} (hu : OnceUnique carries (newer ++ older))
    (hsub : ∀ id v, visible [lay.opinion] id = some v →
      visible (older.map (·.opinion)) id = some v) : OnceUnique carries (newer ++ [lay]) := by
  have hmono : ∀ upper, upper <:+ newer → OwnersUnique carries (visible ((upper ++ [lay]).map (·.opinion))) := by
    intro upper hup
    obtain ⟨above, rfl⟩ := hup
    have hwh := hu (upper ++ older) ⟨above, by simp⟩
    refine hwh.mono fun id v hv => ?_
    rw [map_append] at hv ⊢
    exact visible_append_mono hsub hv
  rintro stack ⟨above, hab⟩
  rcases append_eq_append_iff.mp hab with ⟨upper, hnew', hstack⟩ | ⟨upper, habove', hlast⟩
  · rw [hstack]
    exact hmono upper ⟨above, hnew'.symm⟩
  · cases upper with
    | nil =>
      rw [show stack = [] ++ [lay] from hlast.symm]
      exact hmono [] (nil_suffix)
    | cons x upper =>
      have hnil : stack = [] := by
        have hlen := congrArg List.length hlast
        simp only [length_cons, length_nil, length_append] at hlen
        exact eq_nil_of_length_eq_zero (by omega)
      subst hnil
      rintro k i j ⟨v, hv, -⟩
      cases hv

end

end OverGraph.LayeredWrites
