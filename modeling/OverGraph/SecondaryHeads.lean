import OverGraph.IndexFamilies
import OverGraph.IndexHeads
import OverGraph.SecondaryEntries

/-!
# The secondary indexes of a memtable

The declared indexes are six families: by property values, by the ranks of property values and by
tuples of fields, each for nodes and for edges. The actions of an operation carry the entries of each
label from the old version of the record to the new one.
-/

namespace OverGraph.SecondaryHeads
open Option hiding mem_map
open AssocMaps Records Memtable PropertyValues SecondaryEntries LayeredWrites TrackedIndexes IndexFamily IndexedMemtable
open List hiding indexesOf

section
variable {φ ρ κ : Type} [DecidableEq κ]

/-- Writes that move the entries of some indexes from one key to another. -/
structure MovesKey (id : ℕ) (oldKey newKey : Option κ) (ids : List ℕ) (writes : List ((ℕ × κ × ℕ) × Option Unit)) : Prop where
  within : ∀ write ∈ writes, write.1.1 ∈ ids ∧ write.1.2.2 = id
  settles : Settles (fun k => if newKey = some k.2.1 then some () else none) writes
  written : ∀ i ∈ ids, ∀ key, ¬(oldKey = some key ↔ newKey = some key) → ∃ v, ((i, key, id), v) ∈ writes

theorem movesKey_nil {id : ℕ} {oldKey newKey : Option κ} (h : oldKey = newKey) (ids : List ℕ) :
    MovesKey id oldKey newKey ids [] := ⟨by grind, settles_nil _, by grind⟩

section
variable (id : ℕ) (oldKey newKey : Option κ) (ids : List ℕ)

theorem movesKey_withdrawEnter :
    MovesKey id oldKey newKey ids ((oldKey.elim [] fun key => ids.map fun i => ((i, key, id), none)) ++
      newKey.elim [] fun key => ids.map fun i => ((i, key, id), some ())) := by
  constructor
  case within => cases oldKey <;> cases newKey <;> grind
  case settles =>
    apply Settles.override
    · cases oldKey <;> cases newKey <;> grind
    · apply settles_of_mem
      cases newKey <;> grind
  case written =>
    intro i hi key hne
    by_cases hnew : newKey = some key
    · refine ⟨some (), mem_append_right _ ?_⟩
      rw [hnew]
      exact mem_map.mpr ⟨i, hi, rfl⟩
    · have hold : oldKey = some key := by grind
      refine ⟨none, mem_append_left _ ?_⟩
      rw [hold]
      exact mem_map.mpr ⟨i, hi, rfl⟩

theorem movesKey_flatMap :
    MovesKey id oldKey newKey ids (ids.flatMap fun i => (oldKey.elim [] fun key => [((i, key, id), none)]) ++
      newKey.elim [] fun key => [((i, key, id), some ())]) := by
  constructor
  case within => cases oldKey <;> cases newKey <;> grind
  case settles =>
    apply Settles.flatMap
    intro i hi
    apply Settles.override
    · cases oldKey <;> cases newKey <;> grind
    · apply settles_of_mem
      cases newKey <;> grind
  case written =>
    intro i hi key hne
    by_cases hnew : newKey = some key
    · refine ⟨some (), mem_flatMap.mpr ⟨i, hi, mem_append_right _ ?_⟩⟩
      rw [hnew]
      exact mem_singleton.mpr rfl
    · have hold : oldKey = some key := by grind
      refine ⟨none, mem_flatMap.mpr ⟨i, hi, mem_append_left _ ?_⟩⟩
      rw [hold]
      exact mem_singleton.mpr rfl

end

variable {F : IndexFamily φ ρ κ} {labelId id : ℕ} {old new : ρ}

/-- Blocks for all indexes of a label carry the entries of the label. -/
theorem carries_blocks {blocks : List (List ℕ × List ((ℕ × κ × ℕ) × Option Unit))}
    (hblocks : ∀ block ∈ blocks, ∃ what, (∀ i ∈ block.1, F.declared i = some (labelId, what)) ∧
      MovesKey id (F.keyOf labelId what old) (F.keyOf labelId what new) block.1 block.2)
    (hall : ∀ i what, F.declared i = some (labelId, what) → ∃ block ∈ blocks, i ∈ block.1) :
    F.Carries labelId id (some old) (some new) (blocks.flatMap (·.2)) := by
  constructor
  case moves =>
    constructor
    case ids =>
      intro write hw'
      obtain ⟨block, hblock, hmem⟩ := mem_flatMap.mp hw'
      obtain ⟨what, -, hmoves⟩ := hblocks block hblock
      exact (hmoves.within write hmem).2
    case settles =>
      apply Settles.flatMap
      intro block hblock k v hlast
      obtain ⟨what, hdecl, hmoves⟩ := hblocks block hblock
      have hi := hdecl _ (hmoves.within _ (mem_of_lastWrite_eq_some hlast)).1
      rw [hmoves.settles k v hlast]
      simp [labelEntry, hi]
    case written =>
      intro k hk hne
      obtain ⟨i, key, owner⟩ := k
      obtain rfl : owner = id := hk
      cases hdecl : F.declared i with
      | none => simp [labelEntry, hdecl] at hne
      | some what =>
        obtain ⟨labelId', what⟩ := what
        by_cases hlab : labelId' = labelId
        · subst hlab
          obtain ⟨block, hblock, hi⟩ := hall i what hdecl
          obtain ⟨what', hdecl', hmoves⟩ := hblocks block hblock
          obtain rfl : what = what' := by
            rw [hdecl' i hi] at hdecl
            exact (Prod.mk.inj (some.inj hdecl)).2.symm
          have hkeys : ¬(F.keyOf labelId' what old = some key ↔ F.keyOf labelId' what new = some key) := by
            intro hiff
            simp [labelEntry, hdecl, hiff] at hne
          obtain ⟨v, hv⟩ := hmoves.written i hi key hkeys
          exact ⟨v, mem_flatMap.mpr ⟨block, hblock, hv⟩⟩
        · simp [labelEntry, hdecl, hlab] at hne
  case declared =>
    intro write hw'
    obtain ⟨block, hblock, hmem⟩ := mem_flatMap.mp hw'
    obtain ⟨what, hdecl, hmoves⟩ := hblocks block hblock
    exact ⟨what, hdecl _ (hmoves.within write hmem).1⟩

end

def IndexAction.write {κ : Type} (action : IndexAction κ) : (ℕ × κ × ℕ) × Option Unit :=
  ((action.indexId, action.key, action.recordId), MemtableState.presence action.present)

theorem setEntries_eq_setSlots {κ : Type} [DecidableEq κ] (state : MembershipMap (ℕ × κ × ℕ) Unit) (actions : List (IndexAction κ))
    (q : ℕ) : setEntries state actions q = setSlots state (actions.map IndexAction.write) q := by
  rw [setEntries, setSlots, foldl_map]
  rfl

section
variable {ρ κ : Type} [DecidableEq κ] {byProp : ByProp} {F : IndexFamily String ρ κ}

/-- The table of an index family lists the declared indexes. -/
def ListsProps (byProp : ByProp) (declared : ℕ → Option (ℕ × String)) : Prop :=
  ∀ labelId pkey i, i ∈ indexesOf byProp labelId pkey ↔ declared i = some (labelId, pkey)

omit [DecidableEq κ] in
theorem mem_propertyWrites (hls : ListsProps byProp F.declared) (keyOf : PropValue → Option κ) (labelId id : ℕ) (props : Props)
    (present : Bool) (write : (ℕ × κ × ℕ) × Option Unit) :
    write ∈ (props.entries.flatMap fun prop => (indexesOf byProp labelId prop.1).filterMap fun indexId =>
      (keyOf prop.2).map fun key => (⟨indexId, key, id, present⟩ : IndexAction κ)).map IndexAction.write ↔
    ∃ i pkey key, F.declared i = some (labelId, pkey) ∧ (props.lookup pkey).bind keyOf = some key ∧
      write = ((i, key, id), MemtableState.presence present) := by
  rw [mem_map]
  constructor
  · intro h
    obtain ⟨action, hact', rfl⟩ := h
    obtain ⟨⟨pkey, value⟩, hprop, hact'⟩ := mem_flatMap.mp hact'
    obtain ⟨i, hi, hact'⟩ := mem_filterMap.mp hact'
    obtain ⟨key, hkey, rfl⟩ := map_eq_some_iff.mp hact'
    refine ⟨i, pkey, key, (hls _ _ _).mp hi, ?_, rfl⟩
    rw [AList.mem_lookup_iff.mpr hprop]
    exact hkey
  · intro h
    obtain ⟨i, pkey, key, hi, hkey, rfl⟩ := h
    obtain ⟨value, hval, hkey⟩ := bind_eq_some_iff.mp hkey
    refine ⟨⟨i, key, id, present⟩, ?_, rfl⟩
    apply mem_flatMap.mpr
    refine ⟨⟨pkey, value⟩, AList.mem_lookup_iff.mp hval, ?_⟩
    exact mem_filterMap.mpr ⟨i, (hls _ _ _).mpr hi, map_eq_some_iff.mpr ⟨key, hkey, rfl⟩⟩

theorem carries_properties (hls : ListsProps byProp F.declared) {labelId id : ℕ} {old new : ρ}
    {block : (Sigma fun _ : String => List ℕ) → List ((ℕ × κ × ℕ) × Option Unit)}
    (hblock : ∀ entry, MovesKey id (F.keyOf labelId entry.1 old) (F.keyOf labelId entry.1 new) entry.2 (block entry)) :
    F.Carries labelId id (some old) (some new) (((byProp.lookup labelId).elim [] (·.entries)).flatMap block) := by
  have hflat : ((byProp.lookup labelId).elim [] (·.entries)).flatMap block =
      (((byProp.lookup labelId).elim [] (·.entries)).map fun entry => (entry.2, block entry)).flatMap (·.2) := by
    rw [flatMap_map]
  rw [hflat]
  have hent : ∀ {entry : Sigma fun _ : String => List ℕ}, entry ∈ (byProp.lookup labelId).elim [] (·.entries) →
      indexesOf byProp labelId entry.1 = entry.2 := by
    intro entry hmem
    cases htable : byProp.lookup labelId with
    | none =>
      rw [htable] at hmem
      cases hmem
    | some table =>
      rw [htable] at hmem
      rw [indexesOf, htable, bind_some, AList.mem_lookup_iff.mpr hmem]
      rfl
  apply carries_blocks
  · intro chunk hck
    obtain ⟨entry, hmem, rfl⟩ := mem_map.mp hck
    refine ⟨entry.1, ?_, hblock entry⟩
    intro i hi
    apply (hls _ _ _).mp
    rw [hent hmem]
    exact hi
  · intro i pkey hdecl
    have hi := (hls _ _ _).mpr hdecl
    cases htable : byProp.lookup labelId with
    | none =>
      rw [indexesOf, htable] at hi
      cases hi
    | some table =>
      rw [indexesOf, htable, bind_some] at hi
      cases hids : table.lookup pkey with
      | none =>
        rw [hids] at hi
        cases hi
      | some ids =>
        rw [hids] at hi
        exact ⟨_, mem_map.mpr ⟨⟨pkey, ids⟩, AList.mem_lookup_iff.mp hids, rfl⟩, hi⟩

end

section

def nodeEqTarget (entry : SecondaryIndexEntry) : Option (ℕ × String) :=
  match entry.target, entry.kind with
  | .nodeProperty labelId pkey, .equality => some (labelId, pkey)
  | _, _ => none

def nodeRangeTarget (entry : SecondaryIndexEntry) : Option (ℕ × String) :=
  match entry.target, entry.kind with
  | .nodeProperty labelId pkey, .range => some (labelId, pkey)
  | _, _ => none

def edgeEqTarget (entry : SecondaryIndexEntry) : Option (ℕ × String) :=
  match entry.target, entry.kind with
  | .edgeProperty labelId pkey, .equality => some (labelId, pkey)
  | _, _ => none

def edgeRangeTarget (entry : SecondaryIndexEntry) : Option (ℕ × String) :=
  match entry.target, entry.kind with
  | .edgeProperty labelId pkey, .range => some (labelId, pkey)
  | _, _ => none

def nodeFieldTarget (entry : SecondaryIndexEntry) : Option (ℕ × List NodeIndexField) :=
  match entry.target with
  | .nodeFieldIndex labelId fields => some (labelId, fields)
  | _ => none

def edgeFieldTarget (entry : SecondaryIndexEntry) : Option (ℕ × List EdgeIndexField) :=
  match entry.target with
  | .edgeFieldIndex labelId fields => some (labelId, fields)
  | _ => none

def declaredAs {φ : Type} (target : SecondaryIndexEntry → Option (ℕ × φ)) (decls : Map ℕ SecondaryIndexEntry) (i : ℕ) :
    Option (ℕ × φ) := (decls.lookup i).bind target

variable (enc : IndexEncoders) (decls : Map ℕ SecondaryIndexEntry)

def nodeEqFamily : IndexFamily String NodeRecord ℕ where
  declared := declaredAs nodeEqTarget decls
  labels node := node.labelIds.labelIds
  keyOf _ pkey node := (node.props.lookup pkey).map enc.hashPropEqualityKey

def nodeRangeFamily : IndexFamily String NodeRecord NumericRangeSortKey where
  declared := declaredAs nodeRangeTarget decls
  labels node := node.labelIds.labelIds
  keyOf _ pkey node := (node.props.lookup pkey).bind numericRangeSortKeyForValue

def nodeFieldFamily : IndexFamily (List NodeIndexField) NodeRecord (List ℕ) where
  declared := declaredAs nodeFieldTarget decls
  labels node := node.labelIds.labelIds
  keyOf labelId fields node := some (enc.encodeNodeCompoundTupleKey labelId fields node)

def edgeEqFamily : IndexFamily String EdgeRecord ℕ where
  declared := declaredAs edgeEqTarget decls
  labels edge := [edge.labelId]
  keyOf _ pkey edge := (edge.props.lookup pkey).map enc.hashPropEqualityKey

def edgeRangeFamily : IndexFamily String EdgeRecord NumericRangeSortKey where
  declared := declaredAs edgeRangeTarget decls
  labels edge := [edge.labelId]
  keyOf _ pkey edge := (edge.props.lookup pkey).bind numericRangeSortKeyForValue

def edgeFieldFamily : IndexFamily (List EdgeIndexField) EdgeRecord (List ℕ) where
  declared := declaredAs edgeFieldTarget decls
  labels edge := [edge.labelId]
  keyOf labelId fields edge := some (enc.encodeEdgeCompoundTupleKey labelId fields edge)

end

/-- The tables list the declared indexes under what they are declared for. -/
structure Registered (m : IndexedMemtable) : Prop where
  nodeEq : ListsProps m.secondaryEqByProp (declaredAs nodeEqTarget m.secondaryIndexDeclarations)
  nodeRange : ListsProps m.secondaryRangeByProp (declaredAs nodeRangeTarget m.secondaryIndexDeclarations)
  edgeEq : ListsProps m.secondaryEdgeEqByProp (declaredAs edgeEqTarget m.secondaryIndexDeclarations)
  edgeRange : ListsProps m.secondaryEdgeRangeByProp (declaredAs edgeRangeTarget m.secondaryIndexDeclarations)
  nodeField : ∀ labelId i, i ∈ (m.secondaryNodeFieldIndexesByLabel.lookup labelId).getD [] ↔
    ∃ fields, declaredAs nodeFieldTarget m.secondaryIndexDeclarations i = some (labelId, fields)
  edgeField : ∀ labelId i, i ∈ (m.secondaryEdgeFieldIndexesByLabel.lookup labelId).getD [] ↔
    ∃ fields, declaredAs edgeFieldTarget m.secondaryIndexDeclarations i = some (labelId, fields)

section
variable (enc : IndexEncoders) {ρ : Type} {byProp : ByProp} {props : ρ → Props}

theorem semanticPropertyEq_key {left right : PropValue} (h : semanticPropertyEq left right = true) :
    equalityKey left = equalityKey right := by
  rw [semanticPropertyEq] at h
  rw [equalityKey, equalityKey]
  cases hleft : numericKey left with
  | none =>
    rw [hleft] at h
    rw [eq_of_rawEq h] at hleft ⊢
    rw [hleft]
  | some leftKey =>
    cases hrt : numericKey right with
    | none =>
      rw [hleft, hrt] at h
      rw [eq_of_rawEq h, hrt] at hleft
      cases hleft
    | some rightKey =>
      rw [hleft, hrt] at h
      rw [of_decide_eq_true h]

theorem optionalSemanticPropertyEq_key {left right : Option PropValue} (h : optionalSemanticPropertyEq left right = true) :
    left.map enc.hashPropEqualityKey = right.map enc.hashPropEqualityKey := by
  cases left with
  | none =>
    cases right with
    | none => rfl
    | some right => cases h
  | some left =>
    cases right with
    | none => cases h
    | some right => rw [map_some, map_some, IndexEncoders.hashPropEqualityKey, IndexEncoders.hashPropEqualityKey, semanticPropertyEq_key h]

end

/-- The entry and update writes carry the entries of a family. -/
structure Maintains {φ ρ κ : Type} [DecidableEq κ] (F : IndexFamily φ ρ κ) (idOf : ρ → ℕ)
    (es : ρ → Bool → ℕ → List ((ℕ × κ × ℕ) × Option Unit)) (updates : ρ → ρ → ℕ → List ((ℕ × κ × ℕ) × Option Unit)) : Prop where
  enters : ∀ record labelId, F.Carries labelId (idOf record) none (some record) (es record true labelId)
  withdraws : ∀ record labelId, F.Carries labelId (idOf record) (some record) none (es record false labelId)
  updates : ∀ old new labelId, idOf old = idOf new → F.Carries labelId (idOf new) (some old) (some new) (updates old new labelId)

section
variable (enc : IndexEncoders) {ρ : Type} {F : IndexFamily String ρ ℕ} {props : ρ → Props} {eqByProp : ByProp} (rangeByProp : ByProp)
  (hls : ListsProps eqByProp F.declared)
  (hkey : ∀ labelId pkey record, F.keyOf labelId pkey record = ((props record).lookup pkey).map enc.hashPropEqualityKey)

include hls hkey

theorem mem_eqWrites (record : ρ) (labelId id : ℕ) (present : Bool) (write : (ℕ × ℕ × ℕ) × Option Unit) :
    write ∈ (propertyEntries enc eqByProp rangeByProp labelId id (props record) present).eq.map IndexAction.write ↔
      ∃ i what key, F.declared i = some (labelId, what) ∧ F.keyOf labelId what record = some key ∧
        write = ((i, key, id), MemtableState.presence present) := by
  have hsame : (propertyEntries enc eqByProp rangeByProp labelId id (props record) present).eq =
      (props record).entries.flatMap fun prop => (indexesOf eqByProp labelId prop.1).filterMap fun indexId =>
        (some (enc.hashPropEqualityKey prop.2)).map fun key => ⟨indexId, key, id, present⟩ := by
    simp only [propertyEntries, map_some, filterMap_eq_map']
  rw [hsame, mem_propertyWrites hls (fun value => some (enc.hashPropEqualityKey value))]
  simp only [hkey, map_eq_bind]
  rfl

theorem carries_eqUpdates (old new : ρ) (labelId id : ℕ) : F.Carries labelId id (some old) (some new)
      ((propertyUpdates enc eqByProp rangeByProp labelId id id (props old) (props new)).eq.map IndexAction.write) := by
  unfold propertyUpdates
  rw [map_flatMap]
  apply carries_properties hls
  intro entry
  obtain ⟨pkey, ids⟩ := entry
  rw [hkey, hkey]
  dsimp only
  split
  · rename_i hsame
    exact movesKey_nil (optionalSemanticPropertyEq_key enc hsame) ids
  · have h := movesKey_withdrawEnter id (((props old).lookup pkey).map enc.hashPropEqualityKey)
      (((props new).lookup pkey).map enc.hashPropEqualityKey) ids
    cases hold : (props old).lookup pkey <;> cases hnew : (props new).lookup pkey <;> rw [hold, hnew] at h <;>
      simpa [IndexAction.write, MemtableState.presence, Function.comp_def] using h

theorem maintains_eq (idOf : ρ → ℕ) : Maintains F idOf (fun record present labelId =>
      (propertyEntries enc eqByProp rangeByProp labelId (idOf record) (props record) present).eq.map IndexAction.write)
    fun old new labelId =>
      (propertyUpdates enc eqByProp rangeByProp labelId (idOf old) (idOf new) (props old) (props new)).eq.map IndexAction.write where
  enters record labelId := carries_enter (mem_eqWrites enc rangeByProp hls hkey record labelId (idOf record) true)
  withdraws record labelId := carries_withdraw (mem_eqWrites enc rangeByProp hls hkey record labelId (idOf record) false)
  updates old new labelId hid := by
    rw [hid]
    exact carries_eqUpdates enc rangeByProp hls hkey old new labelId (idOf new)

end

section
variable (enc : IndexEncoders) {ρ : Type} {F : IndexFamily String ρ NumericRangeSortKey} {props : ρ → Props} {rangeByProp : ByProp}
  (eqByProp : ByProp) (hls : ListsProps rangeByProp F.declared)
  (hkey : ∀ labelId pkey record, F.keyOf labelId pkey record = ((props record).lookup pkey).bind numericRangeSortKeyForValue)

include hls hkey

theorem mem_rangeWrites (record : ρ) (labelId id : ℕ) (present : Bool) (write : (ℕ × NumericRangeSortKey × ℕ) × Option Unit) :
    write ∈ (propertyEntries enc eqByProp rangeByProp labelId id (props record) present).range.map IndexAction.write ↔
      ∃ i what key, F.declared i = some (labelId, what) ∧ F.keyOf labelId what record = some key ∧
        write = ((i, key, id), MemtableState.presence present) := by
  simp only [hkey]
  exact mem_propertyWrites hls numericRangeSortKeyForValue labelId id (props record) present write

theorem carries_rangeUpdates (old new : ρ) (labelId id : ℕ) : F.Carries labelId id (some old) (some new)
      ((propertyUpdates enc eqByProp rangeByProp labelId id id (props old) (props new)).range.map IndexAction.write) := by
  unfold propertyUpdates
  rw [map_flatMap]
  apply carries_properties hls
  intro entry
  obtain ⟨pkey, ids⟩ := entry
  rw [hkey, hkey]
  dsimp only
  split
  · rename_i hsame
    exact movesKey_nil hsame ids
  · have h := movesKey_flatMap id (((props old).lookup pkey).bind numericRangeSortKeyForValue)
      (((props new).lookup pkey).bind numericRangeSortKeyForValue) ids
    rw [map_flatMap]
    cases hold : ((props old).lookup pkey).bind numericRangeSortKeyForValue <;>
      cases hnew : ((props new).lookup pkey).bind numericRangeSortKeyForValue <;> rw [hold, hnew] at h <;>
      simpa [IndexAction.write, MemtableState.presence] using h

theorem maintains_range (idOf : ρ → ℕ) : Maintains F idOf (fun record present labelId =>
      (propertyEntries enc eqByProp rangeByProp labelId (idOf record) (props record) present).range.map IndexAction.write)
    fun old new labelId =>
      (propertyUpdates enc eqByProp rangeByProp labelId (idOf old) (idOf new) (props old) (props new)).range.map IndexAction.write where
  enters record labelId := carries_enter (mem_rangeWrites enc eqByProp hls hkey record labelId (idOf record) true)
  withdraws record labelId := carries_withdraw (mem_rangeWrites enc eqByProp hls hkey record labelId (idOf record) false)
  updates old new labelId hid := by
    rw [hid]
    exact carries_rangeUpdates enc eqByProp hls hkey old new labelId (idOf new)

end

section
variable {φ ρ : Type} {F : IndexFamily φ ρ (List ℕ)} {idsOf : ℕ → List ℕ} {fieldsOf : ℕ → Option φ} {encode : ℕ → φ → ρ → List ℕ}
  (hls : ∀ labelId i, i ∈ idsOf labelId ↔ ∃ fields, F.declared i = some (labelId, fields))
  (hflds : ∀ i, fieldsOf i = (F.declared i).map Prod.snd)
  (hkey : ∀ labelId fields record, F.keyOf labelId fields record = some (encode labelId fields record))

include hls hflds hkey

theorem mem_fieldWrites (record : ρ) (labelId id : ℕ) (present : Bool) (write : (ℕ × List ℕ × ℕ) × Option Unit) :
    write ∈ ((idsOf labelId).filterMap fun i => (fieldsOf i).map fun fields =>
      (⟨i, encode labelId fields record, id, present⟩ : IndexAction (List ℕ))).map IndexAction.write ↔
    ∃ i what key, F.declared i = some (labelId, what) ∧ F.keyOf labelId what record = some key ∧
      write = ((i, key, id), MemtableState.presence present) := by
  rw [mem_map]
  constructor
  · intro h
    obtain ⟨action, hact', rfl⟩ := h
    obtain ⟨i, hi, hact'⟩ := mem_filterMap.mp hact'
    obtain ⟨fields, hof, rfl⟩ := map_eq_some_iff.mp hact'
    obtain ⟨what, hwhat⟩ := (hls labelId i).mp hi
    rw [hflds, hwhat] at hof
    obtain rfl := some.inj hof
    exact ⟨i, what, _, hwhat, hkey _ _ _, rfl⟩
  · intro h
    obtain ⟨i, what, key, hwhat, hrec, rfl⟩ := h
    rw [hkey] at hrec
    obtain rfl := some.inj hrec
    refine ⟨⟨i, encode labelId what record, id, present⟩, mem_filterMap.mpr ⟨i, (hls labelId i).mpr ⟨what, hwhat⟩, ?_⟩, rfl⟩
    rw [hflds, hwhat]
    rfl

theorem carries_fieldUpdates (old new : ρ) (labelId id : ℕ) :
    F.Carries labelId id (some old) (some new) (((idsOf labelId).flatMap fun i => (fieldsOf i).elim [] fun fields =>
      if encode labelId fields old = encode labelId fields new then []
      else [(⟨i, encode labelId fields old, id, false⟩ : IndexAction (List ℕ)),
        ⟨i, encode labelId fields new, id, true⟩]).map IndexAction.write) := by
  rw [map_flatMap]
  have hflat : ∀ f : ℕ → List ((ℕ × List ℕ × ℕ) × Option Unit),
      (idsOf labelId).flatMap f = ((idsOf labelId).map fun i => ([i], f i)).flatMap (·.2) := by
    intro f
    rw [flatMap_map]
  rw [hflat]
  apply carries_blocks
  · intro block hblock
    obtain ⟨i, hi, rfl⟩ := mem_map.mp hblock
    obtain ⟨what, hwhat⟩ := (hls labelId i).mp hi
    refine ⟨what, ?_, ?_⟩
    · intro j hj
      rwa [mem_singleton.mp hj]
    · rw [hkey, hkey]
      dsimp only
      rw [hflds, hwhat, map_some, elim_some]
      split
      · rename_i hsame
        exact movesKey_nil (congrArg some hsame) [i]
      · exact movesKey_flatMap id (some (encode labelId what old)) (some (encode labelId what new)) [i]
  · intro i what hwhat
    exact ⟨_, mem_map.mpr ⟨i, (hls labelId i).mpr ⟨what, hwhat⟩, rfl⟩, mem_singleton.mpr rfl⟩

theorem maintains_field (idOf : ρ → ℕ) : Maintains F idOf (fun record present labelId =>
      ((idsOf labelId).filterMap fun i => (fieldsOf i).map fun fields =>
        (⟨i, encode labelId fields record, idOf record, present⟩ : IndexAction (List ℕ))).map IndexAction.write)
    fun old new labelId => ((idsOf labelId).flatMap fun i => (fieldsOf i).elim [] fun fields =>
      if encode labelId fields old = encode labelId fields new then []
      else [(⟨i, encode labelId fields old, idOf old, false⟩ : IndexAction (List ℕ)),
        ⟨i, encode labelId fields new, idOf new, true⟩]).map IndexAction.write where
  enters record labelId := carries_enter (mem_fieldWrites hls hflds hkey record labelId (idOf record) true)
  withdraws record labelId := carries_withdraw (mem_fieldWrites hls hflds hkey record labelId (idOf record) false)
  updates old new labelId hid := by
    rw [hid]
    exact carries_fieldUpdates hls hflds hkey old new labelId (idOf new)

end

theorem nodeFieldsOf_eq (m : IndexedMemtable) (i : ℕ) :
    m.nodeFieldsOf i = (declaredAs nodeFieldTarget m.secondaryIndexDeclarations i).map Prod.snd := by
  rw [nodeFieldsOf, declaredAs]
  cases m.secondaryIndexDeclarations.lookup i with
  | none => rfl
  | some entry =>
    simp only [bind_some, nodeFieldTarget]
    cases entry.target <;> rfl

theorem edgeFieldsOf_eq (m : IndexedMemtable) (i : ℕ) :
    m.edgeFieldsOf i = (declaredAs edgeFieldTarget m.secondaryIndexDeclarations i).map Prod.snd := by
  rw [edgeFieldsOf, declaredAs]
  cases m.secondaryIndexDeclarations.lookup i with
  | none => rfl
  | some entry =>
    simp only [bind_some, edgeFieldTarget]
    cases entry.target <;> rfl

/-- A part of the actions: the parts of a list of actions are the parts of each. -/
structure Part {κ : Type} (part : IndexActions → List (IndexAction κ)) : Prop where
  none : part .none = []
  append : ∀ fst snd, part (fst.append snd) = part fst ++ part snd
  flatMap : ∀ (values : List ℕ) (f : ℕ → IndexActions), part (.flatMap values f) = values.flatMap fun a => part (f a)

theorem part_eq : Part IndexActions.eq := ⟨rfl, fun _ _ => rfl, fun _ _ => rfl⟩
theorem part_range : Part IndexActions.range := ⟨rfl, fun _ _ => rfl, fun _ _ => rfl⟩
theorem part_compound : Part IndexActions.compound := ⟨rfl, fun _ _ => rfl, fun _ _ => rfl⟩

section
variable (enc : IndexEncoders) (m : IndexedMemtable) {κ : Type} {part : IndexActions → List (IndexAction κ)} (hpart : Part part)

def nodeEntryWrites (part : IndexActions → List (IndexAction κ)) (node : NodeRecord) (present : Bool) (labelId : ℕ) :
    List ((ℕ × κ × ℕ) × Option Unit) := (part (m.nodeLabelEntries enc node present labelId)).map IndexAction.write

def nodeUpdateWrites (part : IndexActions → List (IndexAction κ)) (old new : NodeRecord) (labelId : ℕ) :
    List ((ℕ × κ × ℕ) × Option Unit) := (part (m.nodeLabelUpdates enc old new labelId)).map IndexAction.write

def edgeEntryWrites (part : IndexActions → List (IndexAction κ)) (edge : EdgeRecord) (present : Bool) (labelId : ℕ) :
    List ((ℕ × κ × ℕ) × Option Unit) := (part (m.edgeEntries enc { edge with labelId := labelId } present)).map IndexAction.write

def edgeUpdateWrites (part : IndexActions → List (IndexAction κ)) (old new : EdgeRecord) (labelId : ℕ) : List ((ℕ × κ × ℕ) × Option Unit) :=
  (part { propertyUpdates enc m.secondaryEdgeEqByProp m.secondaryEdgeRangeByProp labelId old.id new.id old.props new.props with
    compound := m.collectCompoundIndexUpdatesForEdgeLabel enc labelId old new }).map IndexAction.write

include hpart

theorem syncNode_writes (old : Option NodeRecord) (new : NodeRecord) :
    (part (m.syncSecondaryIndexEntriesForNodeUpsert enc old new)).map IndexAction.write =
      syncWrites (fun node : NodeRecord => node.labelIds.labelIds) (nodeEntryWrites enc m part) (nodeUpdateWrites enc m part) old new := by
  cases old with
  | none =>
    show (part (.flatMap _ _)).map _ = _
    rw [hpart.flatMap, map_flatMap]
    rfl
  | some old =>
    show (part (IndexActions.append (.flatMap _ _) (.flatMap _ _))).map _ = _
    rw [hpart.append, hpart.flatMap, hpart.flatMap, map_append, map_flatMap, map_flatMap]
    apply congrArg₂
    · apply congrArg (List.flatMap · old.labelIds.labelIds)
      funext labelId
      simp only [NodeLabelSet.contains, decide_eq_true_eq]
      split
      · rw [hpart.none]
        rfl
      · rfl
    · apply congrArg (List.flatMap · new.labelIds.labelIds)
      funext labelId
      simp only [NodeLabelSet.contains, decide_eq_true_eq]
      split <;> rfl

theorem removeNode_writes (node : NodeRecord) : (part (m.removeSecondaryIndexEntriesForNode enc node)).map IndexAction.write =
      node.labelIds.labelIds.flatMap (nodeEntryWrites enc m part node false) := by
  rw [removeSecondaryIndexEntriesForNode, hpart.flatMap, map_flatMap]
  rfl

theorem syncEdge_writes (old : Option EdgeRecord) (new : EdgeRecord) :
    (part (m.syncSecondaryIndexEntriesForEdgeUpsert enc old new)).map IndexAction.write =
      syncWrites (fun edge : EdgeRecord => [edge.labelId]) (edgeEntryWrites enc m part) (edgeUpdateWrites enc m part) old new := by
  cases old with
  | none => exact (append_nil _).symm
  | some old =>
    unfold syncSecondaryIndexEntriesForEdgeUpsert syncWrites
    rw [elim_some, flatMap_cons, flatMap_nil, flatMap_cons, flatMap_nil]
    dsimp only
    by_cases hlab : old.labelId = new.labelId
    · rw [if_neg (not_not.mpr hlab), if_pos (mem_singleton.mpr hlab), if_pos (mem_singleton.mpr hlab.symm)]
      simp only [append_nil, nil_append]
      rfl
    · rw [if_pos hlab, if_neg (fun h => hlab (mem_singleton.mp h)),
        if_neg (fun h => hlab (mem_singleton.mp h).symm), hpart.append, map_append]
      simp only [append_nil]
      rfl

omit hpart in
theorem removeEdge_writes (edge : EdgeRecord) : (part (m.removeSecondaryIndexEntriesForEdge enc edge)).map IndexAction.write =
      [edge.labelId].flatMap (edgeEntryWrites enc m part edge false) := by
  rw [flatMap_cons, flatMap_nil, append_nil]
  rfl

end

section
variable (enc : IndexEncoders) {m : IndexedMemtable} (hreg : Registered m)

include hreg

theorem maintains_nodeEq : Maintains (nodeEqFamily enc m.secondaryIndexDeclarations) NodeRecord.id
    (nodeEntryWrites enc m IndexActions.eq) (nodeUpdateWrites enc m IndexActions.eq) :=
  maintains_eq enc m.secondaryRangeByProp hreg.nodeEq (fun _ _ _ => rfl) NodeRecord.id

theorem maintains_nodeRange : Maintains (nodeRangeFamily m.secondaryIndexDeclarations) NodeRecord.id
    (nodeEntryWrites enc m IndexActions.range) (nodeUpdateWrites enc m IndexActions.range) :=
  maintains_range enc m.secondaryEqByProp hreg.nodeRange (fun _ _ _ => rfl) NodeRecord.id

theorem maintains_nodeField : Maintains (nodeFieldFamily enc m.secondaryIndexDeclarations) NodeRecord.id
    (nodeEntryWrites enc m IndexActions.compound) (nodeUpdateWrites enc m IndexActions.compound) :=
  maintains_field hreg.nodeField (nodeFieldsOf_eq m) (fun _ _ _ => rfl) NodeRecord.id

theorem maintains_edgeEq : Maintains (edgeEqFamily enc m.secondaryIndexDeclarations) EdgeRecord.id
    (edgeEntryWrites enc m IndexActions.eq) (edgeUpdateWrites enc m IndexActions.eq) :=
  maintains_eq enc m.secondaryEdgeRangeByProp hreg.edgeEq (fun _ _ _ => rfl) EdgeRecord.id

theorem maintains_edgeRange : Maintains (edgeRangeFamily m.secondaryIndexDeclarations) EdgeRecord.id
    (edgeEntryWrites enc m IndexActions.range) (edgeUpdateWrites enc m IndexActions.range) :=
  maintains_range enc m.secondaryEdgeEqByProp hreg.edgeRange (fun _ _ _ => rfl) EdgeRecord.id

theorem maintains_edgeField : Maintains (edgeFieldFamily enc m.secondaryIndexDeclarations) EdgeRecord.id
    (edgeEntryWrites enc m IndexActions.compound) (edgeUpdateWrites enc m IndexActions.compound) := by
  have h := @maintains_field _ _ (edgeFieldFamily enc m.secondaryIndexDeclarations) _ _ _ hreg.edgeField (edgeFieldsOf_eq m)
    (fun _ _ _ => rfl) EdgeRecord.id
  exact h

end

section
variable {φ ρ κ : Type} [DecidableEq κ] {F : IndexFamily φ ρ κ} {idOf : ρ → ℕ}
  {es : ρ → Bool → ℕ → List ((ℕ × κ × ℕ) × Option Unit)} {updates : ρ → ρ → ℕ → List ((ℕ × κ × ℕ) × Option Unit)}
  (hmain : Maintains F idOf es updates) {other : ℕ × κ × ℕ → Option Unit}
  (hoth : ∀ k what, F.declared k.1 = some what → other k = none) {before after : ℕ → Option ρ}
  {actions : List (IndexAction κ)} {state : MembershipMap (ℕ × κ × ℕ) Unit} (q : ℕ)
include hmain hoth

theorem tracks_sync (new : ρ) (hacti : actions.map IndexAction.write = syncWrites F.labels es updates (before (idOf new)) new)
    (hids : ∀ record, before (idOf new) = some record → idOf record = idOf new) (hview : Replaces (idOf new) (some new) before after)
    (h : Tracks state fun k => (entriesOf (fun k => k.2.2) F.entry before k).or (other k)) :
    Tracks (setEntries state actions q) fun k => (entriesOf (fun k => k.2.2) F.entry after k).or (other k) := by
  rw [setEntries_eq_setSlots, hacti]
  exact CarriesAll.tracks h hview (carriesAll_syncWrites hmain.enters hmain.withdraws hmain.updates hids) hoth q

theorem tracks_remove {old : ρ} (hacti : actions.map IndexAction.write = (F.labels old).flatMap (es old false))
    (hold : before (idOf old) = some old) (hview : Replaces (idOf old) none before after)
    (h : Tracks state fun k => (entriesOf (fun k => k.2.2) F.entry before k).or (other k)) :
    Tracks (setEntries state actions q) fun k => (entriesOf (fun k => k.2.2) F.entry after k).or (other k) := by
  rw [setEntries_eq_setSlots, hacti]
  have hcar := carriesAll_withdraws hmain.withdraws old
  rw [← hold] at hcar
  exact CarriesAll.tracks h hview hcar hoth q

end

end OverGraph.SecondaryHeads
