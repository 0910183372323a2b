import OverGraph.AssocMaps
import Mathlib.Data.List.MinMax

/-!
# Label catalogs

Labels are stored in records by numeric ids. The engine keeps a catalog of label tokens for
nodes and one for edges; the manifest holds a part of each, and creation records in the log
hold the rest.
-/

namespace OverGraph.LabelCatalogs

open AssocMaps List AList

/-- Labels of nodes and labels of edges have ids of their own. -/
inductive LabelSpace where
  | node
  | edge
  deriving DecidableEq

inductive LabelError where
  | invalidName
  | reservedId
  | idSpaceExhausted
  | labelConflict
  | idConflict
  | missingLabel
  deriving DecidableEq

/-- White space in the sense of Unicode. -/
def isWhitespace (c : Char) : Bool :=
  let n := c.toNat
  (9 ≤ n && n ≤ 13) || n == 32 || n == 0x85 || n == 0xA0 || n == 0x1680 || (0x2000 ≤ n && n ≤ 0x200A) ||
    n == 0x2028 || n == 0x2029 || n == 0x202F || n == 0x205F || n == 0x3000

def isControl (c : Char) : Bool := c.toNat < 32 || c.toNat == 127

def validLabelTokenName (name : String) : Bool :=
  !name.isEmpty && name.utf8ByteSize ≤ 255 && !(name.toList.head?.any isWhitespace) &&
    !(name.toList.getLast?.any isWhitespace) && !(name.toList.any isControl)

structure ManifestTokens where
  tokens : Map String ℕ
  nextLabelId : ℕ

/-- The tokens of one space in the running engine, with the log generation that holds the
creation record of a label, if one does. -/
structure RuntimeLabelCatalog where
  labelToId : Map String ℕ
  idToLabel : Map ℕ String
  labelWalGeneration : Map String ℕ
  nextLabelId : ℕ

def u32Max : ℕ := 2 ^ 32 - 1

namespace RuntimeLabelCatalog

def rebuildReverseMap : List (Sigma fun _ : String => ℕ) → Map ℕ String → Except LabelError (Map ℕ String)
  | [], reverse => .ok reverse
  | ⟨label, id⟩ :: tokens, reverse =>
    match reverse.lookup id with
    | some _ => .error .idConflict
    | none => rebuildReverseMap tokens (reverse.insert id label)

def fromManifest (man : ManifestTokens) : Except LabelError RuntimeLabelCatalog :=
  match rebuildReverseMap man.tokens.entries ∅ with
  | .error error => .error error
  | .ok reverse => .ok ⟨man.tokens, reverse, ∅, man.nextLabelId⟩

/-- All tokens and the counter. -/
def applyToManifest (cat : RuntimeLabelCatalog) : ManifestTokens := ⟨cat.labelToId, cat.nextLabelId⟩

def isCheckpointed (cat : RuntimeLabelCatalog) (man : ManifestTokens) (maxWalGen : Option ℕ)
    (label : String) (id : ℕ) : Bool :=
  decide (man.tokens.lookup label = some id) ||
    ((cat.labelWalGeneration.lookup label).any fun gen => maxWalGen.any fun maxGeneration => gen ≤ maxGeneration)

def checkpointTokens (cat : RuntimeLabelCatalog) (man : ManifestTokens) (maxWalGen : Option ℕ) : Map String ℕ :=
  cat.labelToId.entries.foldl
    (fun tokens entry => if cat.isCheckpointed man maxWalGen entry.1 entry.2 then
      tokens.insert entry.1 entry.2 else tokens) man.tokens

def maxTokenId (tokens : Map String ℕ) : ℕ := (tokens.entries.map (·.2)).foldr max 0

def applyCheckpointedToManifest (cat : RuntimeLabelCatalog) (man : ManifestTokens)
    (maxWalGen : Option ℕ) : ManifestTokens :=
  let tokens := cat.checkpointTokens man maxWalGen
  ⟨tokens, max man.nextLabelId (maxTokenId tokens + 1)⟩

def recordGeneration (generations : Map String ℕ) (label : String) : Option ℕ → Map String ℕ
  | none => generations
  | some gen => alter generations label fun
    | some existing => min existing gen
    | none => gen

def applyLabel (cat : RuntimeLabelCatalog) (label : String) (id : ℕ) (walGen : Option ℕ) : Except LabelError RuntimeLabelCatalog :=
  if validLabelTokenName label = false then .error .invalidName
  else if id = 0 then .error .reservedId
  else
    match cat.labelToId.lookup label with
    | some existing =>
      if existing = id then
        .ok { cat with labelWalGeneration := recordGeneration cat.labelWalGeneration label walGen }
      else .error .labelConflict
    | none =>
      match cat.idToLabel.lookup id with
      | some _ => .error .idConflict
      | none => .ok
        { labelToId := cat.labelToId.insert label id
          idToLabel := cat.idToLabel.insert id label
          labelWalGeneration := match walGen with
            | none => cat.labelWalGeneration
            | some gen => cat.labelWalGeneration.insert label gen
          nextLabelId := max cat.nextLabelId (id + 1) }

/-- The two maps are inverse to each other, and every id is below the counter. -/
structure WellFormed (cat : RuntimeLabelCatalog) : Prop where
  inverse : ∀ label id, cat.labelToId.lookup label = some id ↔ cat.idToLabel.lookup id = some label
  bound : ∀ label id, cat.labelToId.lookup label = some id → id < cat.nextLabelId
  positive : ∀ label id, cat.labelToId.lookup label = some id → 0 < id
  valid : ∀ label id, cat.labelToId.lookup label = some id → validLabelTokenName label = true
  next_pos : 0 < cat.nextLabelId
  generations : ∀ label gen, cat.labelWalGeneration.lookup label = some gen → ∃ id, cat.labelToId.lookup label = some id

structure Entered (cat after : RuntimeLabelCatalog) (label : String) (id : ℕ) (walGen : Option ℕ) : Prop where
  wellFormed : after.WellFormed
  lookup : ∀ other, after.labelToId.lookup other = if other = label then some id else cat.labelToId.lookup other
  next_le : cat.nextLabelId ≤ after.nextLabelId
  kept : ∀ other gen, cat.labelWalGeneration.lookup other = some gen → ∃ earlier ≤ gen, after.labelWalGeneration.lookup other = some earlier
  recorded : ∀ gen, walGen = some gen → ∃ earlier ≤ gen, after.labelWalGeneration.lookup label = some earlier

variable {generations : Map String ℕ} {walGen : Option ℕ} {label : String}

theorem recordGeneration_kept {other : String} {gen : ℕ} (h : generations.lookup other = some gen) :
    ∃ earlier ≤ gen, (recordGeneration generations label walGen).lookup other = some earlier := by
  cases walGen with
  | none => exact ⟨gen, le_rfl, h⟩
  | some new =>
    rw [recordGeneration, lookup_alter]
    split
    · rename_i heq
      rw [← heq, h]
      exact ⟨min gen new, min_le_left _ _, rfl⟩
    · exact ⟨gen, le_rfl, h⟩

theorem recordGeneration_recorded (generations : Map String ℕ) (label : String) (gen : ℕ) :
    ∃ earlier ≤ gen, (recordGeneration generations label (some gen)).lookup label = some earlier := by
  rw [recordGeneration, lookup_alter, if_pos rfl]
  cases generations.lookup label with
  | none => exact ⟨gen, le_rfl, rfl⟩
  | some existing => exact ⟨min existing gen, min_le_right _ _, rfl⟩

theorem recordGeneration_known {known : String → Prop} {other : String} {gen : ℕ}
    (hkn : ∀ other gen, generations.lookup other = some gen → known other) (hlab : known label)
    (h : (recordGeneration generations label walGen).lookup other = some gen) : known other := by
  cases walGen with
  | none => exact hkn other gen h
  | some new =>
    rw [recordGeneration, lookup_alter] at h
    split at h
    · rename_i heq
      rw [heq]
      exact hlab
    · exact hkn other gen h

variable {cat : RuntimeLabelCatalog}

theorem applyLabel_entered (h : cat.WellFormed) {id : ℕ}
    (walGen : Option ℕ) (hvd : validLabelTokenName label = true) (hid : 0 < id)
    (hlab : ∀ existing, cat.labelToId.lookup label = some existing → existing = id)
    (hinve : ∀ existing, cat.labelToId.lookup existing = some id → existing = label) :
    ∃ after, cat.applyLabel label id walGen = .ok after ∧ Entered cat after label id walGen := by
  unfold applyLabel
  rw [if_neg (by rw [hvd]; exact Bool.noConfusion), if_neg (by omega)]
  cases hlk : cat.labelToId.lookup label with
  | some existing =>
    obtain rfl := hlab existing hlk
    refine ⟨_, if_pos rfl, ?_⟩
    refine ⟨⟨h.inverse, h.bound, h.positive, h.valid, h.next_pos, ?_⟩, ?_, le_rfl, ?_, ?_⟩
    · intro other gen hgen
      exact recordGeneration_known h.generations ⟨_, hlk⟩ hgen
    · intro other
      split
      · rename_i heq
        rw [heq]
        exact hlk
      · rfl
    · intro other gen hgen
      exact recordGeneration_kept hgen
    · intro gen hgen
      rw [hgen]
      exact recordGeneration_recorded _ _ _
  | none =>
    have hfree : cat.idToLabel.lookup id = none := by
      cases hrev : cat.idToLabel.lookup id with
      | none => rfl
      | some existing =>
        have hex := (h.inverse existing id).mpr hrev
        obtain rfl := hinve existing hex
        rw [hlk] at hex
        cases hex
    rw [hfree]
    refine ⟨_, rfl, ?_⟩
    have hins : ∀ other, (cat.labelToId.insert label id).lookup other = if other = label then some id else cat.labelToId.lookup other := by
      intro other
      split
      · rename_i heq
        rw [heq, lookup_insert]
      · rename_i hne
        rw [lookup_insert_ne hne]
    refine ⟨⟨?_, ?_, ?_, ?_, ?_, ?_⟩, hins, le_max_left _ _, ?_, ?_⟩
    · intro other otherId
      rw [hins]
      by_cases hlabel_eq : other = label
      · subst hlabel_eq
        rw [if_pos rfl]
        by_cases hid_eq : otherId = id
        · subst hid_eq
          rw [lookup_insert]
          exact iff_of_true rfl rfl
        · rw [lookup_insert_ne hid_eq, ← h.inverse, hlk]
          refine iff_of_false (fun heq => hid_eq (Option.some.inj heq).symm) (fun heq => ?_)
          cases heq
      · rw [if_neg hlabel_eq]
        by_cases hid_eq : otherId = id
        · subst hid_eq
          rw [lookup_insert, h.inverse, hfree]
          refine iff_of_false (fun heq => ?_) (fun heq => hlabel_eq (Option.some.inj heq).symm)
          cases heq
        · rw [lookup_insert_ne hid_eq]
          exact h.inverse other otherId
    · intro other otherId hoth
      rw [hins] at hoth
      split at hoth
      · rw [← Option.some.inj hoth]
        exact lt_of_lt_of_le (Nat.lt_succ_self id) (le_max_right _ _)
      · exact lt_of_lt_of_le (h.bound other otherId hoth) (le_max_left _ _)
    · intro other otherId hoth
      rw [hins] at hoth
      split at hoth
      · rw [← Option.some.inj hoth]
        exact hid
      · exact h.positive other otherId hoth
    · intro other otherId hoth
      rw [hins] at hoth
      split at hoth
      · rename_i heq
        rw [heq]
        exact hvd
      · exact h.valid other otherId hoth
    · exact lt_of_lt_of_le h.next_pos (le_max_left _ _)
    · intro other gen hgen
      rw [hins]
      split
      · exact ⟨id, rfl⟩
      · rename_i hne
        cases walGen with
        | none => exact h.generations other gen hgen
        | some new =>
          rw [lookup_insert_ne hne] at hgen
          exact h.generations other gen hgen
    · intro other gen hgen
      cases walGen with
      | none => exact ⟨gen, le_rfl, hgen⟩
      | some new =>
        by_cases hlabel_eq : other = label
        · subst hlabel_eq
          obtain ⟨existing, hex⟩ := h.generations _ gen hgen
          rw [hlk] at hex
          cases hex
        · exact ⟨gen, le_rfl, by rw [lookup_insert_ne hlabel_eq]; exact hgen⟩
    · intro gen hgen
      rw [hgen]
      exact ⟨gen, le_rfl, lookup_insert _⟩

theorem rebuildReverseMap_spec : ∀ (tokens : List (Sigma fun _ : String => ℕ)) (reverse : Map ℕ String),
    (tokens.map (·.2)).Nodup → (∀ entry ∈ tokens, reverse.lookup entry.2 = none) →
    ∃ after, rebuildReverseMap tokens reverse = .ok after ∧
      ∀ id label, after.lookup id = some label ↔ ⟨label, id⟩ ∈ tokens ∨ reverse.lookup id = some label
  | [], reverse, _, _ => ⟨reverse, rfl, by simp⟩
  | ⟨label, id⟩ :: tokens, reverse, hnd, hfree => by
    obtain ⟨hfst, hrest⟩ := nodup_cons.mp hnd
    have hnone := hfree ⟨label, id⟩ (by simp)
    obtain ⟨after, haft, hlk⟩ := rebuildReverseMap_spec tokens (reverse.insert id label) hrest (by
      intro entry hent
      have hne : entry.2 ≠ id := by
        intro heq
        exact hfst (mem_map.mpr ⟨entry, hent, heq⟩)
      rw [lookup_insert_ne hne]
      exact hfree entry (mem_cons_of_mem _ hent))
    refine ⟨after, ?_, ?_⟩
    · rw [rebuildReverseMap]
      simp only [hnone]
      exact haft
    · intro other otherLabel
      rw [hlk]
      by_cases heq : other = id
      · subst heq
        rw [lookup_insert, hnone]
        simp only [mem_cons, Sigma.mk.injEq, heq_eq_eq, and_true, Option.some.injEq, reduceCtorEq, or_false]
        constructor
        · rintro (hmem | hlab)
          · exact Or.inr hmem
          · exact Or.inl hlab.symm
        · rintro (hlab | hmem)
          · exact Or.inr hlab.symm
          · exact Or.inl hmem
      · rw [lookup_insert_ne heq]
        simp [heq]

/-- Tokens that can be read: one label for each id, and all ids below the counter. -/
structure Readable (man : ManifestTokens) : Prop where
  injective : ∀ label other id, man.tokens.lookup label = some id → man.tokens.lookup other = some id → label = other
  bound : ∀ label id, man.tokens.lookup label = some id → id < man.nextLabelId
  positive : ∀ label id, man.tokens.lookup label = some id → 0 < id
  valid : ∀ label id, man.tokens.lookup label = some id → validLabelTokenName label = true
  next_pos : 0 < man.nextLabelId

variable {tokens : Map String ℕ}

theorem nodup_ids (hinj : ∀ label other id, tokens.lookup label = some id → tokens.lookup other = some id → label = other) :
    (tokens.entries.map (·.2)).Nodup := by
  have hkeys : (tokens.entries.map Sigma.fst).Nodup := tokens.nodupKeys
  refine (Nodup.of_map _ hkeys).map_on ?_
  intro entry hent other hoth heq
  have hlab := hinj entry.1 other.1 entry.2 (AList.mem_lookup_iff.mpr hent)
    (by rw [heq]; exact AList.mem_lookup_iff.mpr hoth)
  exact Sigma.ext hlab (heq_of_eq heq)

variable {man : ManifestTokens}

theorem fromManifest_ok (h : Readable man) : ∃ cat, fromManifest man = .ok cat ∧ cat.WellFormed ∧
      cat.labelToId = man.tokens ∧ cat.nextLabelId = man.nextLabelId ∧
      ∀ label, cat.labelWalGeneration.lookup label = none := by
  obtain ⟨reverse, hrev, hlk⟩ := rebuildReverseMap_spec man.tokens.entries ∅
    (nodup_ids h.injective) (by simp)
  refine ⟨⟨man.tokens, reverse, ∅, man.nextLabelId⟩, ?_, ?_, rfl, rfl, by simp⟩
  · rw [fromManifest, hrev]
  · refine ⟨fun label id => ?_, h.bound, h.positive, h.valid, h.next_pos, by simp⟩
    rw [hlk, lookup_empty]
    simp only [reduceCtorEq, or_false]
    exact mem_lookup_iff

theorem WellFormed.readable (h : cat.WellFormed) : Readable cat.applyToManifest where
  injective label other id hlab hoth := by
    have hrev := (h.inverse label id).mp hlab
    rw [(h.inverse other id).mp hoth] at hrev
    exact (Option.some.inj hrev).symm
  bound := h.bound
  positive := h.positive
  valid := h.valid
  next_pos := h.next_pos

theorem lookup_foldl_insert (keep : String → ℕ → Bool) : ∀ (entries : List (Sigma fun _ : String => ℕ))
    (tokens : Map String ℕ), (entries.map Sigma.fst).Nodup → ∀ label id,
    (entries.foldl (fun tokens entry => if keep entry.1 entry.2 then tokens.insert entry.1 entry.2 else tokens)
      tokens).lookup label = some id ↔
    (⟨label, id⟩ ∈ entries ∧ keep label id = true) ∨
      (tokens.lookup label = some id ∧ ∀ other, ⟨label, other⟩ ∈ entries → keep label other = false)
  | [], tokens, _, label, id => by simp
  | ⟨fst, firstId⟩ :: entries, tokens, hnd, label, id => by
    obtain ⟨hfst, hrest⟩ := nodup_cons.mp hnd
    have hnot : ∀ otherId, ⟨fst, otherId⟩ ∉ entries := by
      intro otherId hmem
      exact hfst (mem_map.mpr ⟨⟨fst, otherId⟩, hmem, rfl⟩)
    rw [foldl_cons, lookup_foldl_insert keep entries _ hrest]
    by_cases hlab : label = fst
    · subst hlab
      by_cases hkeep : keep label firstId = true
      · simp [hkeep, hnot]
        constructor
        · rintro rfl
          exact ⟨rfl, hkeep⟩
        · rintro ⟨rfl, -⟩
          rfl
      · have hkeep : keep label firstId = false := by simpa using hkeep
        simp [hkeep, hnot]
        rintro rfl
        simp [hkeep]
    · by_cases hkeep : keep fst firstId = true
      · simp [hkeep, hlab, lookup_insert_ne hlab]
      · simp [hkeep, hlab]

theorem lookup_checkpointTokens (hagree : ∀ label id other, man.tokens.lookup label = some id →
      cat.labelToId.lookup label = some other → id = other)
    (maxWalGen : Option ℕ) (label : String) (id : ℕ) :
    (cat.checkpointTokens man maxWalGen).lookup label = some id ↔
      man.tokens.lookup label = some id ∨ (cat.labelToId.lookup label = some id ∧ cat.isCheckpointed man maxWalGen label id = true) := by
  rw [checkpointTokens, lookup_foldl_insert _ _ _ cat.labelToId.nodupKeys]
  have hmem : ∀ id, ⟨label, id⟩ ∈ cat.labelToId.entries ↔ cat.labelToId.lookup label = some id := fun id => AList.mem_lookup_iff.symm
  constructor
  · rintro (⟨hent, hkeep⟩ | ⟨hman, -⟩)
    · exact Or.inr ⟨(hmem id).mp hent, hkeep⟩
    · exact Or.inl hman
  · rintro (hman | ⟨hcat, hkeep⟩)
    · by_cases hcat : cat.labelToId.lookup label = some id
      · exact Or.inl ⟨(hmem id).mpr hcat, by simp [isCheckpointed, hman]⟩
      · refine Or.inr ⟨hman, fun other hoth => ?_⟩
        have hoth := (hmem other).mp hoth
        obtain rfl := hagree label id other hman hoth
        exact absurd hoth hcat
    · exact Or.inl ⟨(hmem id).mpr hcat, hkeep⟩

theorem le_maxTokenId {id : ℕ} (h : tokens.lookup label = some id) : id ≤ maxTokenId tokens := by
  have hmem : id ∈ tokens.entries.map (·.2) := mem_map.mpr ⟨⟨label, id⟩, AList.mem_lookup_iff.mp h, rfl⟩
  rw [maxTokenId]
  generalize tokens.entries.map (·.2) = ids at hmem
  induction ids with
  | nil => cases hmem
  | cons fst ids ih =>
    rcases mem_cons.mp hmem with rfl | hmem
    · exact le_max_left _ _
    · exact le_trans (ih hmem) (le_max_right _ _)

theorem maxTokenId_le {n : ℕ} (h : ∀ label id, tokens.lookup label = some id → id ≤ n) : maxTokenId tokens ≤ n := by
  have hall : ∀ id ∈ tokens.entries.map (·.2), id ≤ n := by
    intro id hid
    obtain ⟨⟨label, id⟩, hent, rfl⟩ := mem_map.mp hid
    exact h label id (AList.mem_lookup_iff.mpr hent)
  rw [maxTokenId]
  generalize tokens.entries.map (·.2) = ids at hall
  induction ids with
  | nil => exact Nat.zero_le _
  | cons fst ids ih => exact max_le (hall fst (by simp)) (ih fun id hid => hall id (mem_cons_of_mem _ hid))

end RuntimeLabelCatalog

end OverGraph.LabelCatalogs
