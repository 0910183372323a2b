import OverGraph.BindingRows
import OverGraph.SemanticEquality

/-!
# Equality, canonical keys and sort keys

Values are compared in comparisons, grouped by their canonical keys and ordered by their sort atoms.
Two values are equal exactly if they have one canonical key, and exactly if their atoms compare
equal. The bytes of a list of keys can be read back in one way only.
-/

namespace OverGraph.CanonicalKeys
open Records PropertyValues NumericRangeKeys SortKeys BindingRows SemanticEquality Fallible WalCodec SortedBytes List

def numericKeyForEvalValue : GraphEvalValue → Except EvalError (Option NumericScalarKey)
  | .int val => .ok (some (numericKeyFromI64 val))
  | .uint val => .ok (some (numericKeyFromU64 val))
  | .float bits => (finiteKey "graph row non-finite floats are not valid in comparison contexts" bits).map some
  | _ => .ok none

def partialCmpNumericEvalValues (left right : GraphEvalValue) : Except EvalError (Option Ordering) := do
  match ← numericKeyForEvalValue left, ← numericKeyForEvalValue right with
  | some left, some right => .ok (some (compareNumericKeys left right))
  | _, _ => .ok none

mutual

def graphValuesEqual (left right : GraphEvalValue) : Except EvalError Bool :=
  match partialCmpNumericEvalValues left right with
  | .error error => .error error
  | .ok (some ordering) => .ok (ordering == .eq)
  | .ok none =>
    match left, right with
    | .null, .null => .ok true
    | .bool left, .bool right => .ok (left == right)
    | .string left, .string right => .ok (left == right)
    | .bytes left, .bytes right => .ok (left == right)
    | .list left, .list right => if left.length ≠ right.length then .ok false else zippedEqual left right
    | .map left, .map right => if left.length ≠ right.length then .ok false else entriesEqual left right
    | .node left, .node right => .ok (left == right)
    | .edge left, .edge right => .ok (left == right)
    | .path nodes edges, .path nodes' edges' => .ok (nodes == nodes' && edges == edges')
    | _, _ => .ok false

def zippedEqual : List GraphEvalValue → List GraphEvalValue → Except EvalError Bool
  | left :: lefts, right :: rights =>
    match graphValuesEqual left right with
    | .error error => .error error
    | .ok false => .ok false
    | .ok true => zippedEqual lefts rights
  | _, _ => .ok true

def entriesEqual : List (String × GraphEvalValue) → List (String × GraphEvalValue) → Except EvalError Bool
  | [], _ => .ok true
  | (key, left) :: lefts, rights =>
    match valueOf rights key with
    | none => .ok false
    | some right =>
      match graphValuesEqual left right with
      | .error error => .error error
      | .ok false => .ok false
      | .ok true => entriesEqual lefts rights

end

def pushCanonicalLen (length : ℕ) : Except EvalError (List UInt8) :=
  if length < 2 ^ 32 then .ok (beBytes 4 length) else .error (.invalid "graph canonical key is too large")

def pushCanonicalBytes (val : List UInt8) : Except EvalError (List UInt8) := do
  .ok ((← pushCanonicalLen val.length) ++ val)

def pushCanonicalU64Vec (vs : List ℕ) : Except EvalError (List UInt8) := do
  .ok ((← pushCanonicalLen vs.length) ++ vs.flatMap (beBytes 8))

mutual

def encodeGraphCanonicalKey : GraphCanonicalKey → Except EvalError (List UInt8)
  | .null => .ok [0]
  | .bool val => .ok [1, val.toUInt8]
  | .number key => .ok (2 :: key)
  | .string val => (pushCanonicalBytes (utf8 val)).map (3 :: ·)
  | .bytes val => (pushCanonicalBytes val).map (4 :: ·)
  | .node id => .ok (5 :: beBytes 8 id)
  | .edge id => .ok (6 :: beBytes 8 id)
  | .path nodes edges => do .ok (7 :: ((← pushCanonicalU64Vec nodes) ++ (← pushCanonicalU64Vec edges)))
  | .list items => (do .ok ((← pushCanonicalLen items.length) ++ (← encodeItems items))).map (8 :: ·)
  | .map es => (do .ok ((← pushCanonicalLen es.length) ++ (← encodeEntries es))).map (9 :: ·)

def encodeItems : List GraphCanonicalKey → Except EvalError (List UInt8)
  | [] => .ok []
  | key :: keys => do .ok ((← encodeGraphCanonicalKey key) ++ (← encodeItems keys))

def encodeEntries : List (String × GraphCanonicalKey) → Except EvalError (List UInt8)
  | [] => .ok []
  | (name, key) :: es => do
    .ok (((← pushCanonicalBytes (utf8 name)) ++ (← encodeGraphCanonicalKey key)) ++ (← encodeEntries es))

end

def encodeGraphCanonicalKeys (keys : List GraphCanonicalKey) : Except EvalError (List UInt8) := do
  .ok ((← pushCanonicalLen keys.length) ++ (← encodeItems keys))

/-- The kinds of keys, as their first byte tells them. -/
def keyTag : GraphCanonicalKey → UInt8
  | .null => 0
  | .bool _ => 1
  | .number _ => 2
  | .string _ => 3
  | .bytes _ => 4
  | .node _ => 5
  | .edge _ => 6
  | .path _ _ => 7
  | .list _ => 8
  | .map _ => 9

def valueTag : GraphEvalValue → UInt8
  | .null => 0
  | .bool _ => 1
  | .int _ | .uint _ | .float _ => 2
  | .string _ => 3
  | .bytes _ => 4
  | .node _ => 5
  | .edge _ => 6
  | .path _ _ => 7
  | .list _ => 8
  | .map _ => 9

/-- Integers and identifiers fit their words, floats are finite and the keys of a map ascend. -/
inductive Held : GraphEvalValue → Prop
  | null : Held .null
  | bool (val : Bool) : Held (.bool val)
  | int {val : ℤ} (h : -2 ^ 63 ≤ val ∧ val < 2 ^ 63) : Held (.int val)
  | uint {val : ℕ} (h : val < 2 ^ 64) : Held (.uint val)
  | float {bits : F64} (h : (numericKeyFromF64 bits).isSome) : Held (.float bits)
  | string (val : String) : Held (.string val)
  | bytes (val : List UInt8) : Held (.bytes val)
  | node {id : ℕ} (h : id < 2 ^ 64) : Held (.node id)
  | edge {id : ℕ} (h : id < 2 ^ 64) : Held (.edge id)
  | path {nodes edges : List ℕ} (hnodes : ∀ id ∈ nodes, id < 2 ^ 64) (hedges : ∀ id ∈ edges, id < 2 ^ 64) : Held (.path nodes edges)
  | list {items : List GraphEvalValue} (h : ∀ item ∈ items, Held item) : Held (.list items)
  | map {es : List (String × GraphEvalValue)} (hascending : es.Pairwise fun a b => a.1 < b.1)
      (h : ∀ entry ∈ es, Held entry.2) : Held (.map es)

/-- The key of a number has its fixed length, identifiers fit their words. -/
inductive KeyFits : GraphCanonicalKey → Prop
  | null : KeyFits .null
  | bool (val : Bool) : KeyFits (.bool val)
  | number {key : List UInt8} (h : key.length = numericRangeKeyBytes) : KeyFits (.number key)
  | string (val : String) : KeyFits (.string val)
  | bytes (val : List UInt8) : KeyFits (.bytes val)
  | node {id : ℕ} (h : id < 2 ^ 64) : KeyFits (.node id)
  | edge {id : ℕ} (h : id < 2 ^ 64) : KeyFits (.edge id)
  | path {nodes edges : List ℕ} (hnodes : ∀ id ∈ nodes, id < 2 ^ 64) (hedges : ∀ id ∈ edges, id < 2 ^ 64) : KeyFits (.path nodes edges)
  | list {items : List GraphCanonicalKey} (h : ∀ item ∈ items, KeyFits item) : KeyFits (.list items)
  | map {es : List (String × GraphCanonicalKey)} (h : ∀ entry ∈ es, KeyFits entry.2) : KeyFits (.map es)

theorem canonicalKeysForItems_ok {items : List GraphEvalValue} {keys : List GraphCanonicalKey} :
    canonicalKeysForItems items = .ok keys ↔ Forall₂ (fun item key => graphCanonicalKeyForValue item = .ok key) items keys := by
  rw [← mapM_ok]
  induction items generalizing keys with
  | nil => rw [canonicalKeysForItems]; rfl
  | cons item items ih =>
    rw [canonicalKeysForItems, mapM_cons]
    cases graphCanonicalKeyForValue item with
    | error error => rfl
    | ok key =>
      rw [ok_bind, ok_bind]
      cases hrest : canonicalKeysForItems items with
      | error error =>
        cases hmap : items.mapM graphCanonicalKeyForValue with
        | error other => exact ⟨nofun, nofun⟩
        | ok others => exact absurd (ih.mpr hmap) (by rw [hrest]; nofun)
      | ok others =>
        rw [ih.mp hrest]
        rfl

def KeyedEntry (entry : String × GraphEvalValue) (keyed : String × GraphCanonicalKey) : Prop :=
  entry.1 = keyed.1 ∧ graphCanonicalKeyForValue entry.2 = .ok keyed.2

variable {es : List (String × GraphEvalValue)} {keys : List (String × GraphCanonicalKey)}

theorem canonicalKeysForEntries_ok : canonicalKeysForEntries es = .ok keys ↔ Forall₂ KeyedEntry es keys := by
  induction es generalizing keys with
  | nil =>
    rw [canonicalKeysForEntries]
    constructor
    · intro h
      cases h
      exact .nil
    · intro h
      cases h
      rfl
  | cons entry es ih =>
    rw [canonicalKeysForEntries]
    constructor
    · intro h
      obtain ⟨key, hkey, h⟩ := bind_ok h
      obtain ⟨rest, hrest, h⟩ := bind_ok h
      cases h
      exact .cons ⟨rfl, hkey⟩ (ih.mp hrest)
    · intro h
      cases h with
      | cons hhead htail =>
        rename_i keyed _
        obtain ⟨name, key⟩ := keyed
        obtain ⟨rfl, hkey⟩ := hhead
        rw [hkey, ok_bind, ih.mpr htail, ok_bind]

variable {val : GraphEvalValue}

theorem Held.exists_key (h : Held val) : ∃ key, graphCanonicalKeyForValue val = .ok key ∧ KeyFits key := by
  induction h with
  | null => exact ⟨.null, by rw [graphCanonicalKeyForValue], .null⟩
  | bool val => exact ⟨.bool val, by rw [graphCanonicalKeyForValue], .bool val⟩
  | int _ | uint _ => exact ⟨.number (numberKey _), by rw [graphCanonicalKeyForValue], .number (NumericRangeSortKey.length_eq _)⟩
  | float h =>
    obtain ⟨num, hnum⟩ := Option.isSome_iff_exists.mp h
    exact ⟨.number (numberKey num), by rw [graphCanonicalKeyForValue, finiteKey, hnum]; rfl, .number (NumericRangeSortKey.length_eq _)⟩
  | string val => exact ⟨.string val, by rw [graphCanonicalKeyForValue], .string val⟩
  | bytes val => exact ⟨.bytes val, by rw [graphCanonicalKeyForValue], .bytes val⟩
  | node h => exact ⟨_, by rw [graphCanonicalKeyForValue], .node h⟩
  | edge h => exact ⟨_, by rw [graphCanonicalKeyForValue], .edge h⟩
  | path hnos heds => exact ⟨_, by rw [graphCanonicalKeyForValue], .path hnos heds⟩
  | list _ ih =>
    obtain ⟨keys, hkeys⟩ := exists_forall₂ ih
    refine ⟨.list keys, ?_, .list fun key hmem => ?_⟩
    · rw [graphCanonicalKeyForValue, canonicalKeysForItems_ok.mpr (hkeys.imp fun _ _ h => h.1)]
      rfl
    · obtain ⟨_, _, h⟩ := forall₂_mem hkeys.flip hmem
      exact h.2
  | @map es _ _ ih =>
    obtain ⟨keys, hkeys⟩ : ∃ keys, Forall₂ (fun entry keyed => KeyedEntry entry keyed ∧ KeyFits keyed.2) es keys := by
      refine exists_forall₂ fun entry hent => ?_
      obtain ⟨key, hkey, hfits⟩ := ih entry hent
      exact ⟨(entry.1, key), ⟨rfl, hkey⟩, hfits⟩
    refine ⟨.map keys, ?_, .map fun keyed hmem => ?_⟩
    · rw [graphCanonicalKeyForValue, canonicalKeysForEntries_ok.mpr (hkeys.imp fun _ _ h => h.1)]
      rfl
    · obtain ⟨_, _, h⟩ := forall₂_mem hkeys.flip hmem
      exact h.2

variable {key : GraphCanonicalKey}

theorem keyTag_of_key (h : graphCanonicalKeyForValue val = .ok key) : keyTag key = valueTag val := by
  cases val <;> rw [graphCanonicalKeyForValue] at h
  case float bits =>
    obtain ⟨_, _, rfl⟩ := map_ok h
    rfl
  case list items =>
    obtain ⟨_, _, rfl⟩ := map_ok h
    rfl
  case map es =>
    obtain ⟨_, _, rfl⟩ := map_ok h
    rfl
  all_goals
    cases h
    rfl

/-- The comparison answers, and it says whether the keys are one. -/
def Agrees (left right : GraphEvalValue) (leftKey rightKey : GraphCanonicalKey) : Prop :=
  ∃ equal, graphValuesEqual left right = .ok equal ∧ (equal = true ↔ leftKey = rightKey)

theorem Held.numeric (h : Held val) : numericKeyForEvalValue val = .ok none ∧ valueTag val ≠ 2 ∨
    ∃ num, Proper num ∧ RankFits num ∧ numericKeyForEvalValue val = .ok (some num) ∧
      graphCanonicalKeyForValue val = .ok (.number (numberKey num)) := by
  cases h with
  | @int val h =>
    obtain ⟨hprop, hrank, -⟩ := @numericKey_spec _ (.int val) h rfl
    exact .inr ⟨_, hprop, hrank, rfl, by rw [graphCanonicalKeyForValue]⟩
  | @uint val h =>
    obtain ⟨hprop, hrank, -⟩ := @numericKey_spec _ (.uint val) h rfl
    exact .inr ⟨_, hprop, hrank, rfl, by rw [graphCanonicalKeyForValue]⟩
  | @float bits h =>
    obtain ⟨num, hnum⟩ := Option.isSome_iff_exists.mp h
    obtain ⟨hprop, hrank, -⟩ := @numericKey_spec num (.float bits) trivial hnum
    refine .inr ⟨num, hprop, hrank, ?_, ?_⟩
    · rw [numericKeyForEvalValue, finiteKey, hnum]
      rfl
    · rw [graphCanonicalKeyForValue, finiteKey, hnum]
      rfl
  | _ => exact .inl ⟨rfl, by rw [valueTag]; decide⟩

theorem compare_eq_iff {a b : NumericScalarKey} (ha : Proper a) (hb : Proper b) (hra : RankFits a) (hrb : RankFits b) :
    compareNumericKeys a b = .eq ↔ numberKey a = numberKey b := by
  rw [← compare_numericRangeSortKey ha hb hra hrb]
  constructor
  · exact eq_of_compare
  · intro h
    rw [numberKey, numberKey] at h
    rw [h]
    exact compare_self _

section
variable {left right : GraphEvalValue} {leftKey rightKey : GraphCanonicalKey} (hleft : Held left) (hrt : Held right)
include hleft hrt

theorem partialCmp_none (h : ¬(valueTag left = 2 ∧ valueTag right = 2)) : partialCmpNumericEvalValues left right = .ok none := by
  rw [partialCmpNumericEvalValues]
  rcases hleft.numeric with ⟨hl, -⟩ | ⟨a, -, -, hl, hkey⟩ <;> rcases hrt.numeric with ⟨hr, -⟩ | ⟨b, -, -, hr, hkey'⟩
  · rw [hl, hr]
    rfl
  · rw [hl, hr]
    rfl
  · rw [hl, hr]
    rfl
  · exact absurd ⟨(keyTag_of_key hkey).symm, (keyTag_of_key hkey').symm⟩ h

section
variable (hkey : graphCanonicalKeyForValue left = .ok leftKey)
  (hkey' : graphCanonicalKeyForValue right = .ok rightKey)
include hkey hkey'

theorem agrees_of_tags (h : valueTag left ≠ valueTag right) : Agrees left right leftKey rightKey := by
  have hnone := partialCmp_none hleft hrt fun hboth => h (hboth.1.trans hboth.2.symm)
  refine ⟨false, ?_, nofun, ?_⟩
  · rw [graphValuesEqual.eq_def, hnone]
    cases left <;> cases right <;> first | rfl | exact absurd rfl h
  · rintro rfl
    exact absurd ((keyTag_of_key hkey).symm.trans (keyTag_of_key hkey')) h

theorem agrees_numbers (h : valueTag left = 2) (h' : valueTag right = 2) : Agrees left right leftKey rightKey := by
  obtain ⟨a, ha, hra, hl, hkeyLeft⟩ := hleft.numeric.resolve_left fun hnone => hnone.2 h
  obtain ⟨b, hb, hrb, hr, hkeyRight⟩ := hrt.numeric.resolve_left fun hnone => hnone.2 h'
  have hcmpr : partialCmpNumericEvalValues left right = .ok (some (compareNumericKeys a b)) := by
    rw [partialCmpNumericEvalValues, hl, hr]
    rfl
  obtain rfl := Except.ok.inj (hkeyLeft.symm.trans hkey)
  obtain rfl := Except.ok.inj (hkeyRight.symm.trans hkey')
  refine ⟨_, by rw [graphValuesEqual.eq_def, hcmpr], ?_⟩
  rw [beq_iff_eq, compare_eq_iff ha hb hra hrb, GraphCanonicalKey.number.injEq]

/-- Values of one kind that hold no others. -/
theorem agrees_flat (htag : valueTag left = valueTag right) (hflat : valueTag left ≠ 2 ∧ valueTag left < 8) : Agrees left right leftKey rightKey := by
  have hnone := partialCmp_none hleft hrt fun hboth => hflat.1 hboth.1
  rw [Agrees, graphValuesEqual.eq_def, hnone]
  cases left with
  | int _ | uint _ | float _ | list _ | map _ => exact absurd hflat (by rw [valueTag]; decide)
  | null | bool _ | string _ | bytes _ | node _ | edge _ | path _ _ =>
    cases right <;> first
      | exact absurd htag (by rw [valueTag, valueTag]; decide)
      | (rw [graphCanonicalKeyForValue] at hkey hkey'
         obtain rfl := Except.ok.inj hkey
         obtain rfl := Except.ok.inj hkey'
         exact ⟨_, rfl, by simp⟩)

end

end

/-- What the comparison of a value with others says. -/
def AgreesWithAll (left : GraphEvalValue) : Prop := ∀ {right leftKey rightKey}, Held right →
  graphCanonicalKeyForValue left = .ok leftKey → graphCanonicalKeyForValue right = .ok rightKey → Agrees left right leftKey rightKey

theorem zippedEqual_agrees {lefts rights : List GraphEvalValue} {leftKeys rightKeys : List GraphCanonicalKey}
    (hlefts : ∀ left ∈ lefts, AgreesWithAll left) (hrights : ∀ right ∈ rights, Held right) (hlen : lefts.length = rights.length)
    (hkeys : Forall₂ (fun item key => graphCanonicalKeyForValue item = .ok key) lefts leftKeys)
    (hkeys' : Forall₂ (fun item key => graphCanonicalKeyForValue item = .ok key) rights rightKeys) :
    ∃ equal, zippedEqual lefts rights = .ok equal ∧ (equal = true ↔ leftKeys = rightKeys) := by
  induction hkeys generalizing rights rightKeys with
  | nil =>
    obtain rfl := length_eq_zero_iff.mp hlen.symm
    cases hkeys'
    exact ⟨true, by rw [zippedEqual.eq_def], by simp⟩
  | cons hkey _ ih =>
    cases hkeys' with
    | nil => cases hlen
    | cons hkey' hkeys' =>
      obtain ⟨equal, heq', hiff⟩ := hlefts _ mem_cons_self (hrights _ mem_cons_self) hkey hkey'
      obtain ⟨rest, hrest, hrestIff⟩ := ih (fun left h => hlefts left (mem_cons_of_mem _ h))
        (fun right h => hrights right (mem_cons_of_mem _ h)) (Nat.succ.inj hlen) hkeys'
      rw [zippedEqual, heq', List.cons.injEq, ← hiff, ← hrestIff]
      cases equal with
      | false => exact ⟨false, rfl, by simp⟩
      | true => exact ⟨rest, hrest, by simp⟩

theorem entriesEqual_agrees {lefts rights : List (String × GraphEvalValue)} {leftKeys rightKeys : List (String × GraphCanonicalKey)}
    (hlefts : ∀ left ∈ lefts, AgreesWithAll left.2) (hrights : ∀ right ∈ rights, Held right.2)
    (hasc : rights.Pairwise fun a b => a.1 < b.1) (hkeys : Forall₂ KeyedEntry lefts leftKeys)
    (hkeys' : Forall₂ KeyedEntry rights rightKeys) :
    ∃ equal, entriesEqual lefts rights = .ok equal ∧ (equal = true ↔ ∀ keyed ∈ leftKeys, keyed ∈ rightKeys) := by
  induction hkeys with
  | nil => exact ⟨true, by rw [entriesEqual], by simp⟩
  | @cons left keyed lefts leftKeys hkey _ ih =>
    obtain ⟨rest, hrest, hrestIff⟩ := ih fun other h => hlefts other (mem_cons_of_mem _ h)
    rw [entriesEqual]
    cases hval : valueOf rights left.1 with
    | none =>
      refine ⟨false, rfl, nofun, fun hall => ?_⟩
      obtain ⟨other, hoth, hkd⟩ := forall₂_mem hkeys'.flip (hall keyed mem_cons_self)
      have hfnd := valueOf_of_mem hasc hoth
      rw [hkd.1, ← hkey.1, hval] at hfnd
      cases hfnd
    | some right =>
      have hmem := mem_of_valueOf hval
      obtain ⟨other, hoth, hkd⟩ := forall₂_mem hkeys' hmem
      obtain ⟨equal, heq', hiff⟩ := hlefts left mem_cons_self (hrights _ hmem) hkey.2 hkd.2
      have hsame : equal = true ↔ keyed ∈ rightKeys := by
        rw [hiff]
        constructor
        · intro heq
          rwa [show keyed = other from Prod.ext (hkey.1.symm.trans hkd.1) heq]
        · intro hin
          obtain ⟨found, hfnd, hfoundKeyed⟩ := forall₂_mem hkeys'.flip hin
          have hsome := valueOf_of_mem hasc hfnd
          rw [hfoundKeyed.1, ← hkey.1, hval] at hsome
          obtain rfl := Option.some.inj hsome
          exact Except.ok.inj (hfoundKeyed.2.symm.trans hkd.2)
      dsimp only at heq' ⊢
      rw [heq']
      cases equal with
      | false => exact ⟨false, rfl, nofun, fun hall => hsame.mpr (hall keyed mem_cons_self)⟩
      | true =>
        refine ⟨rest, hrest, ?_⟩
        rw [hrestIff, forall_mem_cons]
        exact (and_iff_right (hsame.mp rfl)).symm

theorem ascending_keys (h : Forall₂ KeyedEntry es keys) (hasc : es.Pairwise fun a b => a.1 < b.1) : keys.Pairwise fun a b => a.1 < b.1 := by
  have hnames : es.map Prod.fst = keys.map Prod.fst := by
    induction h with
    | nil => rfl
    | cons hkd _ ih => rw [map_cons, map_cons, hkd.1, ih (pairwise_cons.mp hasc).2]
  exact pairwise_map.mp (hnames ▸ pairwise_map.mpr hasc)

theorem agrees_scalar {left : GraphEvalValue} (hleft : Held left) (hsca : valueTag left < 8) : AgreesWithAll left := by
  intro right leftKey rightKey hrt hkey hkey'
  by_cases htag : valueTag left = valueTag right
  · by_cases hnum : valueTag left = 2
    · exact agrees_numbers hleft hrt hkey hkey' hnum (htag.symm.trans hnum)
    · exact agrees_flat hleft hrt hkey hkey' htag ⟨hnum, hsca⟩
  · exact agrees_of_tags hleft hrt hkey hkey' htag

theorem agrees {left : GraphEvalValue} (hleft : Held left) : AgreesWithAll left := by
  induction hleft with
  | @list items h ih =>
    intro right leftKey rightKey hrt hkey hkey'
    by_cases htag : valueTag right = 8
    · have hnone := partialCmp_none (.list h) hrt fun hboth => absurd hboth.1 (by rw [valueTag]; decide)
      cases hrt with
      | @list items' h' =>
        rw [graphCanonicalKeyForValue] at hkey hkey'
        obtain ⟨keys, hkeys, rfl⟩ := map_ok hkey
        obtain ⟨keys', hkeys', rfl⟩ := map_ok hkey'
        have hall := canonicalKeysForItems_ok.mp hkeys
        have hall' := canonicalKeysForItems_ok.mp hkeys'
        rw [Agrees, graphValuesEqual, hnone, GraphCanonicalKey.list.injEq]
        dsimp only
        by_cases hlen : items.length = items'.length
        · rw [if_neg (not_not_intro hlen)]
          exact zippedEqual_agrees ih h' hlen hall hall'
        · rw [if_pos hlen]
          refine ⟨false, rfl, nofun, ?_⟩
          rintro rfl
          exact absurd (hall.length_eq.trans hall'.length_eq.symm) hlen
      | _ => exact absurd htag (by rw [valueTag]; decide)
    · exact agrees_of_tags (.list h) hrt hkey hkey' (Ne.symm htag)
  | @map es hasc h ih =>
    intro right leftKey rightKey hrt hkey hkey'
    by_cases htag : valueTag right = 9
    · have hnone := partialCmp_none (.map hasc h) hrt fun hboth => absurd hboth.1 (by rw [valueTag]; decide)
      cases hrt with
      | @map entries' hasc' h' =>
        rw [graphCanonicalKeyForValue] at hkey hkey'
        obtain ⟨keys, hkeys, rfl⟩ := map_ok hkey
        obtain ⟨keys', hkeys', rfl⟩ := map_ok hkey'
        have hall := canonicalKeysForEntries_ok.mp hkeys
        have hall' := canonicalKeysForEntries_ok.mp hkeys'
        rw [Agrees, graphValuesEqual, hnone, GraphCanonicalKey.map.injEq]
        dsimp only
        by_cases hlen : es.length = entries'.length
        · rw [if_neg (not_not_intro hlen)]
          obtain ⟨equal, heq', hiff⟩ := entriesEqual_agrees ih h' hasc' hall hall'
          refine ⟨equal, heq', hiff.trans ⟨fun hsub => ?_, fun heq keyed hmem => heq ▸ hmem⟩⟩
          exact eq_of_entries_subset (ascending_keys hall hasc) (ascending_keys hall' hasc')
            (hall.length_eq.symm.trans (hlen.trans hall'.length_eq)) hsub
        · rw [if_pos hlen]
          refine ⟨false, rfl, nofun, ?_⟩
          rintro rfl
          exact absurd (hall.length_eq.trans hall'.length_eq.symm) hlen
      | _ => exact absurd htag (by rw [valueTag]; decide)
    · exact agrees_of_tags (.map hasc h) hrt hkey hkey' (Ne.symm htag)
  | null => exact agrees_scalar .null (by decide)
  | bool val => exact agrees_scalar (.bool val) (by rw [valueTag]; decide)
  | int h => exact agrees_scalar (.int h) (by rw [valueTag]; decide)
  | uint h => exact agrees_scalar (.uint h) (by rw [valueTag]; decide)
  | float h => exact agrees_scalar (.float h) (by rw [valueTag]; decide)
  | string val => exact agrees_scalar (.string val) (by rw [valueTag]; decide)
  | bytes val => exact agrees_scalar (.bytes val) (by rw [valueTag]; decide)
  | node h => exact agrees_scalar (.node h) (by rw [valueTag]; decide)
  | edge h => exact agrees_scalar (.edge h) (by rw [valueTag]; decide)
  | path hnos heds => exact agrees_scalar (.path hnos heds) (by rw [valueTag]; decide)

mutual

def atomOfKey : GraphCanonicalKey → GraphSortAtom
  | .null => .null
  | .bool val => .bool val
  | .number key => .number (keyBytes key)
  | .string val => .string (keyBytes (utf8 val))
  | .bytes val => .bytes (keyBytes val)
  | .node id => .node id
  | .edge id => .edge id
  | .path nodes edges => .path edges.length nodes edges
  | .list items => .list (atomsOfItems items)
  | .map es => .map (atomsOfEntries es)

def atomsOfItems : List GraphCanonicalKey → List GraphSortAtom
  | [] => []
  | key :: keys => atomOfKey key :: atomsOfItems keys

def atomsOfEntries : List (String × GraphCanonicalKey) → List (List ℕ × GraphSortAtom)
  | [] => []
  | (name, key) :: es => (keyBytes (utf8 name), atomOfKey key) :: atomsOfEntries es

end

theorem keyBytes_inj {a b : List UInt8} (h : keyBytes a = keyBytes b) : a = b := map_injective_iff.mpr (fun _ _ => UInt8.toNat_inj.mp) h

mutual

theorem atomOfKey_inj : ∀ {a b : GraphCanonicalKey}, atomOfKey a = atomOfKey b → a = b
  | .null, b, h | .bool _, b, h | .node _, b, h | .edge _, b, h | .path _ _, b, h => by cases b <;> simp_all [atomOfKey]
  | .number key, b, h => by
    cases b with
    | number key' =>
      rw [atomOfKey, atomOfKey] at h
      rw [keyBytes_inj (GraphSortAtom.number.inj h)]
    | _ => simp [atomOfKey] at h
  | .string val, b, h => by
    cases b with
    | string value' =>
      rw [atomOfKey, atomOfKey] at h
      rw [utf8_inj (keyBytes_inj (GraphSortAtom.string.inj h))]
    | _ => simp [atomOfKey] at h
  | .bytes val, b, h => by
    cases b with
    | bytes value' =>
      rw [atomOfKey, atomOfKey] at h
      rw [keyBytes_inj (GraphSortAtom.bytes.inj h)]
    | _ => simp [atomOfKey] at h
  | .list items, b, h => by
    cases b with
    | list items' =>
      rw [atomOfKey, atomOfKey] at h
      rw [atomsOfItems_inj (GraphSortAtom.list.inj h)]
    | _ => simp [atomOfKey] at h
  | .map es, b, h => by
    cases b with
    | map entries' =>
      rw [atomOfKey, atomOfKey] at h
      rw [atomsOfEntries_inj (GraphSortAtom.map.inj h)]
    | _ => simp [atomOfKey] at h

theorem atomsOfItems_inj : ∀ {as bs : List GraphCanonicalKey}, atomsOfItems as = atomsOfItems bs → as = bs
  | [], [], _ => rfl
  | [], _ :: _, h | _ :: _, [], h => by cases h
  | a :: as, b :: bs, h => by
    rw [atomsOfItems, atomsOfItems] at h
    rw [atomOfKey_inj (List.cons.inj h).1, atomsOfItems_inj (List.cons.inj h).2]

theorem atomsOfEntries_inj : ∀ {as bs : List (String × GraphCanonicalKey)}, atomsOfEntries as = atomsOfEntries bs → as = bs
  | [], [], _ => rfl
  | [], _ :: _, h | _ :: _, [], h => by cases h
  | (name, a) :: as, (name', b) :: bs, h => by
    rw [atomsOfEntries, atomsOfEntries] at h
    obtain ⟨hent, hrest⟩ := List.cons.inj h
    obtain ⟨hname, hatom⟩ := Prod.mk.inj hent
    rw [utf8_inj (keyBytes_inj hname), atomOfKey_inj hatom, atomsOfEntries_inj hrest]

end

mutual

theorem atom_of_key : ∀ {val : GraphEvalValue} {key : GraphCanonicalKey}, graphCanonicalKeyForValue val = .ok key →
    graphLogicalSortAtomForValue val = .ok (atomOfKey key)
  | .list items, key, h => by
    rw [graphCanonicalKeyForValue] at h
    obtain ⟨keys, hkeys, rfl⟩ := map_ok h
    rw [graphLogicalSortAtomForValue, atoms_of_items hkeys, atomOfKey]
    rfl
  | .map es, key, h => by
    rw [graphCanonicalKeyForValue] at h
    obtain ⟨keys, hkeys, rfl⟩ := map_ok h
    rw [graphLogicalSortAtomForValue, atoms_of_entries hkeys, atomOfKey]
    rfl
  | .float bits, key, h => by
    rw [graphCanonicalKeyForValue, finiteKey] at h
    rw [graphLogicalSortAtomForValue, graphSortAtomForValue, finiteKey]
    · cases hnum : numericKeyFromF64 bits with
      | none =>
        rw [hnum] at h
        cases h
      | some num =>
        rw [hnum] at h
        cases h
        rfl
    all_goals exact nofun
  | .null, _, h | .bool _, _, h | .int _, _, h | .uint _, _, h | .string _, _, h | .bytes _, _, h | .node _, _, h | .edge _, _, h
  | .path _ _, _, h => by
    rw [graphCanonicalKeyForValue] at h
    cases h
    rfl

theorem atoms_of_items : ∀ {items : List GraphEvalValue} {keys : List GraphCanonicalKey}, canonicalKeysForItems items = .ok keys →
    logicalAtomsForItems items = .ok (atomsOfItems keys)
  | [], _, h => by
    cases h
    rfl
  | item :: items, _, h => by
    rw [canonicalKeysForItems] at h
    obtain ⟨key, hkey, h⟩ := bind_ok h
    obtain ⟨keys, hkeys, h⟩ := bind_ok h
    cases h
    rw [logicalAtomsForItems, atom_of_key hkey, ok_bind, atoms_of_items hkeys, ok_bind, atomsOfItems]

theorem atoms_of_entries : ∀ {es : List (String × GraphEvalValue)} {keys : List (String × GraphCanonicalKey)},
    canonicalKeysForEntries es = .ok keys → logicalAtomsForEntries es = .ok (atomsOfEntries keys)
  | [], _, h => by
    cases h
    rfl
  | (name, val) :: es, _, h => by
    rw [canonicalKeysForEntries] at h
    obtain ⟨key, hkey, h⟩ := bind_ok h
    obtain ⟨keys, hkeys, h⟩ := bind_ok h
    cases h
    rw [logicalAtomsForEntries, atom_of_key hkey, ok_bind, atoms_of_entries hkeys, ok_bind, atomsOfEntries]

end

/-- The bytes of the first, followed by anything, are those of the second, followed by anything, only if
both are one. -/
def Delimits {α : Type} (encode : α → Except EvalError (List UInt8)) (a b : α) : Prop :=
  ∀ {x y s t}, encode a = .ok x → encode b = .ok y → x ++ s = y ++ t → a = b ∧ s = t

theorem beBytes_delimits {width m n : ℕ} (hm : m < 256 ^ width) (hn : n < 256 ^ width) : Delimits (fun k => .ok (beBytes width k)) m n := by
  intro x y s t hx hy h
  cases hx
  cases hy
  obtain ⟨hbs, hrest⟩ := append_inj h (by rw [length_beBytes, length_beBytes])
  exact ⟨beBytes_injective hm hn hbs, hrest⟩

/-- One after the other. -/
theorem pair_delimits {α β : Type} {f : α → Except EvalError (List UInt8)} {g : β → Except EvalError (List UInt8)} {a a' : α} {b b' : β}
    (hf : Delimits f a a') (hg : a = a' → Delimits g b b') :
    Delimits (fun pair : α × β => do .ok ((← f pair.1) ++ (← g pair.2))) (a, b) (a', b') := by
  intro x y s t hx hy h
  obtain ⟨fst, hfst, hx⟩ := bind_ok hx
  obtain ⟨snd, hsnd, hx⟩ := bind_ok hx
  obtain ⟨first', hfst', hy⟩ := bind_ok hy
  obtain ⟨second', hsnd', hy⟩ := bind_ok hy
  cases hx
  cases hy
  rw [append_assoc, append_assoc] at h
  obtain ⟨hsame, h⟩ := hf hfst hfst' h
  obtain ⟨hsame', h⟩ := hg hsame hsnd hsnd' h
  exact ⟨Prod.ext hsame hsame', h⟩

/-- As many of one kind, one after the other. -/
theorem list_delimits {α : Type} {f : α → Except EvalError (List UInt8)} {g : List α → Except EvalError (List UInt8)}
    (hnil : g [] = .ok []) (hcons : ∀ a as, g (a :: as) = do .ok ((← f a) ++ (← g as))) {as bs : List α}
    (h : ∀ a ∈ as, ∀ b ∈ bs, Delimits f a b) (hlen : as.length = bs.length) : Delimits g as bs := by
  induction as generalizing bs with
  | nil =>
    obtain rfl := length_eq_zero_iff.mp hlen.symm
    intro x y s t hx hy hxy
    obtain rfl := Except.ok.inj (hx.symm.trans hnil)
    obtain rfl := Except.ok.inj (hy.symm.trans hnil)
    exact ⟨rfl, hxy⟩
  | cons a as ih =>
    obtain ⟨b, bs, rfl⟩ := exists_cons_of_length_eq_add_one hlen.symm
    intro x y s t hx hy hxy
    rw [hcons] at hx hy
    obtain ⟨hpair, hrest⟩ := pair_delimits (h a mem_cons_self b mem_cons_self)
      (fun _ => ih (fun c hc d hd => h c (mem_cons_of_mem _ hc) d (mem_cons_of_mem _ hd)) (Nat.succ.inj hlen)) hx hy hxy
    obtain ⟨rfl, rfl⟩ := Prod.mk.inj hpair
    exact ⟨rfl, hrest⟩

theorem pushCanonicalLen_delimits (m n : ℕ) : Delimits pushCanonicalLen m n := by
  intro x y s t hx hy h
  rw [pushCanonicalLen] at hx hy
  split at hx
  · split at hy
    · exact beBytes_delimits (by omega) (by omega) hx hy h
    · cases hy
  · cases hx

/-- After their number. -/
theorem counted_delimits {α : Type} {g : List α → Except EvalError (List UInt8)} {as bs : List α}
    (h : as.length = bs.length → Delimits g as bs) : Delimits (fun l => do .ok ((← pushCanonicalLen l.length) ++ (← g l))) as bs := by
  intro x y s t hx hy hxy
  obtain ⟨hpair, hrest⟩ := pair_delimits (pushCanonicalLen_delimits as.length bs.length) h hx hy hxy
  exact ⟨(Prod.mk.inj hpair).2, hrest⟩

theorem pushCanonicalBytes_delimits (a b : List UInt8) : Delimits pushCanonicalBytes a b := by
  apply @counted_delimits _ .ok
  intro hlen x y s t hx hy h
  cases hx
  cases hy
  exact append_inj h hlen

theorem pushCanonicalU64Vec_delimits {as bs : List ℕ} (has : ∀ a ∈ as, a < 2 ^ 64) (hbs : ∀ b ∈ bs, b < 2 ^ 64) :
    Delimits pushCanonicalU64Vec as bs := by
  apply @counted_delimits _ fun vs => .ok (vs.flatMap (beBytes 8))
  exact @list_delimits _ (fun val => .ok (beBytes 8 val)) _ rfl (fun _ _ => rfl) as bs fun a ha b hb =>
    beBytes_delimits (has a ha) (hbs b hb)

theorem encode_tag {x : List UInt8} (h : encodeGraphCanonicalKey key = .ok x) : x.head? = some (keyTag key) := by
  cases key <;> rw [encodeGraphCanonicalKey] at h
  case null | bool | number | node | edge =>
    cases h
    rfl
  case string | bytes | list | map =>
    obtain ⟨_, _, rfl⟩ := map_ok h
    rfl
  case path =>
    obtain ⟨_, _, h⟩ := bind_ok h
    obtain ⟨_, _, h⟩ := bind_ok h
    cases h
    rfl

theorem tag_eq {a b : GraphCanonicalKey} {x y s t : List UInt8} (hx : encodeGraphCanonicalKey a = .ok x)
    (hy : encodeGraphCanonicalKey b = .ok y) (h : x ++ s = y ++ t) : keyTag a = keyTag b := by
  have hheads := congrArg List.head? h
  rwa [head?_append, head?_append, encode_tag hx, encode_tag hy, Option.some_or, Option.some_or, Option.some.injEq] at hheads

theorem tagged_delimits {α : Type} {f : α → Except EvalError (List UInt8)} {a b : α} (h : Delimits f a b) (tag : UInt8) :
    Delimits (fun c => (f c).map (tag :: ·)) a b := by
  intro x y s t hx hy hxy
  obtain ⟨rest, hrest, rfl⟩ := map_ok hx
  obtain ⟨rest', hrest', rfl⟩ := map_ok hy
  exact h hrest hrest' (List.cons.inj hxy).2

def encodeEntry (entry : String × GraphCanonicalKey) : Except EvalError (List UInt8) := do
  .ok ((← pushCanonicalBytes (utf8 entry.1)) ++ (← encodeGraphCanonicalKey entry.2))

theorem encodeEntries_cons (entry : String × GraphCanonicalKey) (es : List (String × GraphCanonicalKey)) :
    encodeEntries (entry :: es) = (do .ok ((← encodeEntry entry) ++ (← encodeEntries es))) := by
  simp only [encodeEntries, encodeEntry, bind_assoc, ok_bind]

theorem key_delimits {a : GraphCanonicalKey} (ha : KeyFits a) : ∀ b, KeyFits b → Delimits encodeGraphCanonicalKey a b := by
  induction ha with
  | null =>
    intro b hb x y s t hx hy h
    cases hb with
    | null =>
      cases hx
      cases hy
      exact ⟨rfl, (List.cons.inj h).2⟩
    | _ => exact absurd (tag_eq hx hy h) (by rw [keyTag, keyTag]; decide)
  | bool val =>
    intro b hb x y s t hx hy h
    cases hb with
    | bool value' =>
      cases hx
      cases hy
      obtain ⟨hval, hrest⟩ := List.cons.inj (List.cons.inj h).2
      refine ⟨?_, hrest⟩
      cases val <;> cases value' <;> first | rfl | exact absurd hval (by decide)
    | _ => exact absurd (tag_eq hx hy h) (by rw [keyTag, keyTag]; decide)
  | number hkey =>
    intro b hb x y s t hx hy h
    cases hb with
    | number hkey' =>
      cases hx
      cases hy
      obtain ⟨rfl, hrest⟩ := append_inj (List.cons.inj h).2 (hkey.trans hkey'.symm)
      exact ⟨rfl, hrest⟩
    | _ => exact absurd (tag_eq hx hy h) (by rw [keyTag, keyTag]; decide)
  | string val =>
    intro b hb x y s t hx hy h
    cases hb with
    | string value' =>
      obtain ⟨hval, hrest⟩ := tagged_delimits (pushCanonicalBytes_delimits _ _) 3 hx hy h
      exact ⟨by rw [utf8_inj hval], hrest⟩
    | _ => exact absurd (tag_eq hx hy h) (by rw [keyTag, keyTag]; decide)
  | bytes val =>
    intro b hb x y s t hx hy h
    cases hb with
    | bytes value' =>
      obtain ⟨rfl, hrest⟩ := tagged_delimits (pushCanonicalBytes_delimits _ _) 4 hx hy h
      exact ⟨rfl, hrest⟩
    | _ => exact absurd (tag_eq hx hy h) (by rw [keyTag, keyTag]; decide)
  | node hid =>
    intro b hb x y s t hx hy h
    cases hb with
    | node hid' =>
      obtain ⟨rfl, hrest⟩ := @tagged_delimits _ (fun id => .ok (beBytes 8 id)) _ _ (beBytes_delimits hid hid') 5 _ _ _ _ hx hy h
      exact ⟨rfl, hrest⟩
    | _ => exact absurd (tag_eq hx hy h) (by rw [keyTag, keyTag]; decide)
  | edge hid =>
    intro b hb x y s t hx hy h
    cases hb with
    | edge hid' =>
      obtain ⟨rfl, hrest⟩ := @tagged_delimits _ (fun id => .ok (beBytes 8 id)) _ _ (beBytes_delimits hid hid') 6 _ _ _ _ hx hy h
      exact ⟨rfl, hrest⟩
    | _ => exact absurd (tag_eq hx hy h) (by rw [keyTag, keyTag]; decide)
  | path hnos heds =>
    intro b hb x y s t hx hy h
    cases hb with
    | path hnodes' heds' =>
      obtain ⟨nodes, hn, hx⟩ := bind_ok hx
      obtain ⟨edges, he, hx⟩ := bind_ok hx
      obtain ⟨nodes', hn', hy⟩ := bind_ok hy
      obtain ⟨edges', he', hy⟩ := bind_ok hy
      cases hx
      cases hy
      have h : nodes ++ edges ++ s = nodes' ++ edges' ++ t := (List.cons.inj h).2
      rw [append_assoc, append_assoc] at h
      obtain ⟨hsame, h⟩ := pushCanonicalU64Vec_delimits hnos hnodes' hn hn' h
      obtain ⟨hsame', h⟩ := pushCanonicalU64Vec_delimits heds heds' he he' h
      exact ⟨by rw [hsame, hsame'], h⟩
    | _ => exact absurd (tag_eq hx hy h) (by rw [keyTag, keyTag]; decide)
  | @list items _ ih =>
    intro b hb x y s t hx hy h
    cases hb with
    | @list items' hitems' =>
      have hitems := @list_delimits _ encodeGraphCanonicalKey encodeItems rfl (fun _ _ => rfl) items items' fun a ha b hb =>
        ih a ha b (hitems' b hb)
      obtain ⟨rfl, hrest⟩ := tagged_delimits (@counted_delimits _ encodeItems _ _ hitems) 8 hx hy h
      exact ⟨rfl, hrest⟩
    | _ => exact absurd (tag_eq hx hy h) (by rw [keyTag, keyTag]; decide)
  | @map es _ ih =>
    intro b hb x y s t hx hy h
    cases hb with
    | @map entries' hentr' =>
      have hents := @list_delimits _ encodeEntry encodeEntries rfl encodeEntries_cons es entries' fun a ha b hb =>
        @pair_delimits _ _ (fun name => pushCanonicalBytes (utf8 name)) encodeGraphCanonicalKey a.1 b.1 a.2 b.2
          (fun hx hy h => (pushCanonicalBytes_delimits _ _ hx hy h).imp_left utf8_inj) fun _ => ih a ha b.2 (hentr' b hb)
      obtain ⟨rfl, hrest⟩ := tagged_delimits (@counted_delimits _ encodeEntries _ _ hents) 9 hx hy h
      exact ⟨rfl, hrest⟩
    | _ => exact absurd (tag_eq hx hy h) (by rw [keyTag, keyTag]; decide)

/-- The keys, the comparison and the atoms of two values. -/
structure ThreeAgree (left right : GraphEvalValue) (leftKey rightKey : GraphCanonicalKey) (leftAtom rightAtom : GraphSortAtom) : Prop where
  leftKeyed : graphCanonicalKeyForValue left = .ok leftKey ∧ KeyFits leftKey
  rightKeyed : graphCanonicalKeyForValue right = .ok rightKey ∧ KeyFits rightKey
  leftOrdered : graphLogicalSortAtomForValue left = .ok leftAtom
  rightOrdered : graphLogicalSortAtomForValue right = .ok rightAtom
  equal : graphValuesEqual left right = .ok (decide (leftKey = rightKey))
  compared : compareGraphSortAtoms leftAtom rightAtom = .eq ↔ leftKey = rightKey

theorem threeAgree {left right : GraphEvalValue} (hleft : Held left) (hrt : Held right) :
    ∃ leftKey rightKey leftAtom rightAtom, ThreeAgree left right leftKey rightKey leftAtom rightAtom := by
  obtain ⟨leftKey, hkey, hfits⟩ := hleft.exists_key
  obtain ⟨rightKey, hkey', hfits'⟩ := hrt.exists_key
  obtain ⟨equal, heq', hiff⟩ := agrees hleft hrt hkey hkey'
  refine ⟨leftKey, rightKey, _, _, ⟨hkey, hfits⟩, ⟨hkey', hfits'⟩, atom_of_key hkey, atom_of_key hkey', ?_, ?_⟩
  · cases equal with
    | true => rw [heq', decide_eq_true (hiff.mp rfl)]
    | false => rw [heq', decide_eq_false fun h => nomatch hiff.mpr h]
  · constructor
    · exact fun h => atomOfKey_inj (Std.LawfulEqCmp.eq_of_compare h)
    · rintro rfl
      exact Std.ReflCmp.compare_self

/-- Values are equal exactly if they have one canonical key and exactly if their atoms compare equal, the
bytes of a list of keys tell the keys, and the atoms are in a total order. -/
theorem keys_agree : (∀ left right, Held left → Held right →
      ∃ leftKey rightKey leftAtom rightAtom, ThreeAgree left right leftKey rightKey leftAtom rightAtom) ∧
      (∀ (keys others : List GraphCanonicalKey) (bytes : List UInt8), (∀ key ∈ keys, KeyFits key) → (∀ key ∈ others, KeyFits key) →
        encodeGraphCanonicalKeys keys = .ok bytes → encodeGraphCanonicalKeys others = .ok bytes → keys = others) ∧
      (∀ a b, compareGraphSortAtoms a b = (compareGraphSortAtoms b a).swap) ∧
      (∀ a b c, (compareGraphSortAtoms a b).isLE → (compareGraphSortAtoms b c).isLE → (compareGraphSortAtoms a c).isLE) ∧
      ∀ a b, compareGraphSortAtoms a b = .eq ↔ a = b := by
  refine ⟨fun _ _ => threeAgree, ?_, fun _ _ => Std.OrientedCmp.eq_swap, fun _ _ _ => Std.TransCmp.isLE_trans, ?_⟩
  · intro keys others bytes hkeys hothers h h'
    have hitems := @list_delimits _ encodeGraphCanonicalKey encodeItems rfl (fun _ _ => rfl) keys others fun a ha b hb =>
      key_delimits (hkeys a ha) b (hothers b hb)
    exact (@counted_delimits _ encodeItems _ _ hitems _ _ [] [] h h' rfl).1
  · intro a b
    constructor
    · exact Std.LawfulEqCmp.eq_of_compare
    · rintro rfl
      exact Std.ReflCmp.compare_self

/-- The integer one and the float one. -/
theorem keys_agree_one : ∃ leftKey rightKey leftAtom rightAtom,
    ThreeAgree (.list [.int 1, .null]) (.list [.float 0x3ff0000000000000, .null]) leftKey rightKey leftAtom rightAtom := by
  apply keys_agree.1
  · refine .list fun item hitem => ?_
    rcases mem_cons.mp hitem with rfl | hitem
    · exact .int (by decide)
    · obtain rfl := mem_singleton.mp hitem
      exact .null
  · refine .list fun item hitem => ?_
    rcases mem_cons.mp hitem with rfl | hitem
    · exact .float (by decide)
    · obtain rfl := mem_singleton.mp hitem
      exact .null

end OverGraph.CanonicalKeys
