import OverGraph.FilterTrees
import OverGraph.NumericRanges
import OverGraph.SemanticEquality
import OverGraph.WalCodec

/-!
# Tests of properties and the contradictions between them

A property of a record is tested for equality, for membership in a list, for lying in a range, for
being there and for not being there. The tests of a conjunction are gathered key by key: two values
that differ, ranges that do not meet, a value outside its range, or a key that has to be there and
has to be missing contradict each other.
-/

namespace OverGraph.PropertyFilters
open PropertyValues (NumericScalarKey PropertyRangeBound numericKey numericRangeValueWithinBounds structuralValueContainsFloatZero
  propertyInLinearVerifyThreshold)
open Except AList
open Option hiding all_eq_true any_eq_false any_eq_true any_map mem_map_of_mem or
open AssocMaps Records KeyedLists FilterTrees NumericRanges SemanticEquality NumericRangeKeys WalCodec Fallible List

inductive PropertyFilter where
  | propertyEquals (key : String) (value : PropValue)
  | propertyIn (key : String) (values : List PropValue) (valueKeys : List (List UInt8))
  | propertyRange (key : String) (lower upper : Option PropertyRangeBound)
  | propertyExists (key : String)
  | propertyMissing (key : String)

/-- Where a key is in an ascending list. -/
def binarySearch (keys : List (List UInt8)) (target : List UInt8) : Option ℕ := keys.findIdx? fun key => decide (key = target)

section
variable (toVec : PropValue → List UInt8)

def propValueCanonicalBytes (value : PropValue) : List UInt8 := semanticEqualityKeyBytes toVec value

/-- A long list is searched for the key of the candidate, and the value found there compared. -/
def propertyInFilterMatches (c : PropValue) (vs : List PropValue) (valueKeys : List (List UInt8)) : Bool :=
  if vs.length ≤ propertyInLinearVerifyThreshold || vs.length != valueKeys.length ||
      structuralValueContainsFloatZero c then
    vs.any (semanticEq c)
  else match binarySearch valueKeys (propValueCanonicalBytes toVec c) with
    | some idx => vs[idx]?.any (semanticEq c)
    | none => false

def PropertyFilter.meets (props : Props) : PropertyFilter → Bool
  | .propertyEquals key value => (props.lookup key).any (semanticEq · value)
  | .propertyIn key vs valueKeys => (props.lookup key).any (propertyInFilterMatches toVec · vs valueKeys)
  | .propertyRange key lower upper => (props.lookup key).any (numericRangeValueWithinBounds · lower upper)
  | .propertyExists key => (props.lookup key).isSome
  | .propertyMissing key => !(props.lookup key).isSome

/-- A bound that was validated is a number. -/
def semanticRangeBoundKeyBytes (bound : PropertyRangeBound) : List UInt8 :=
  (if bound.inclusive then 1 else 0) ::
    match numericKey bound.value with
    | some key => pushNumericKeyBytes key
    | none => []

def pushRangeBoundStructuralKey : Option PropertyRangeBound → List UInt8
  | some bound => 1 :: pushLenPrefixedBytes (semanticRangeBoundKeyBytes bound)
  | none => [0]

def PropertyFilter.structuralKey : PropertyFilter → List UInt8
  | .propertyEquals key value => 2 :: (pushLenPrefixedBytes (utf8 key) ++ pushLenPrefixedBytes (propValueCanonicalBytes toVec value))
  | .propertyIn key _ valueKeys => 3 :: (pushLenPrefixedBytes (utf8 key) ++ valueKeys.flatMap pushLenPrefixedBytes)
  | .propertyRange key lower upper =>
    4 :: (pushLenPrefixedBytes (utf8 key) ++ (pushRangeBoundStructuralKey lower ++ pushRangeBoundStructuralKey upper))
  | .propertyExists key => 5 :: pushLenPrefixedBytes (utf8 key)
  | .propertyMissing key => 6 :: pushLenPrefixedBytes (utf8 key)

end

/-- What the children of a conjunction say about each key. -/
structure Constraints where
  eqByKey : Map String PropValue
  rangesByKey : Map String ValidatedNumericRange
  existsKeys : List String
  missingKeys : List String

def Constraints.empty : Constraints := ⟨∅, ∅, [], []⟩

/-- The ranges with one more; nothing if that leaves no number. -/
def insertRangeConstraint (rangesByKey : Map String ValidatedNumericRange) (key : String) (range : ValidatedNumericRange) :
    Option (Map String ValidatedNumericRange) :=
  if range.isEmpty then none
  else match rangesByKey.lookup key with
    | some existing =>
      let intersected := intersectValidatedNumericRanges existing range
      if intersected.isEmpty then none else some (rangesByKey.insert key intersected)
    | none => some (rangesByKey.insert key range)

/-- The constraints with one more test; nothing if it contradicts them. Whether a membership test
needs its key to be there is not the same for nodes and for edges. -/
def Constraints.add (inNeedsKey : Bool) (cstrs : Constraints) : PropertyFilter → Except String (Option Constraints)
  | .propertyEquals key value =>
    match cstrs.eqByKey.lookup key with
    | some existing =>
      if !semanticEq existing value then return none
      else return some { cstrs with existsKeys := key :: cstrs.existsKeys }
    | none => return some { cstrs with
        eqByKey := cstrs.eqByKey.insert key value, existsKeys := key :: cstrs.existsKeys }
  | .propertyRange key lower upper => do
    let range ← validateNumericRangeBounds lower upper
    match insertRangeConstraint cstrs.rangesByKey key range with
    | none => return none
    | some rangesByKey => return some { cstrs with rangesByKey, existsKeys := key :: cstrs.existsKeys }
  | .propertyIn key _ _ => return some (if inNeedsKey then { cstrs with existsKeys := key :: cstrs.existsKeys } else cstrs)
  | .propertyExists key => return some { cstrs with existsKeys := key :: cstrs.existsKeys }
  | .propertyMissing key => return some { cstrs with missingKeys := key :: cstrs.missingKeys }

def Constraints.addAll (inNeedsKey : Bool) : List PropertyFilter → Constraints → Except String (Option Constraints)
  | [], cstrs => return some cstrs
  | filter :: filters, cstrs => do
    match ← cstrs.add inNeedsKey filter with
    | none => return none
    | some cstrs => addAll inNeedsKey filters cstrs

/-- A key that has to be there is missing, or a value is outside its range. -/
def Constraints.conflict (cstrs : Constraints) : Bool :=
  cstrs.existsKeys.any (cstrs.missingKeys.contains ·) ||
    cstrs.eqByKey.entries.any fun entry => (cstrs.rangesByKey.lookup entry.1).any fun range => !propValueWithinValidatedRange entry.2 range

section
variable {Test : Type} (asProperty : Test → Option PropertyFilter) (inNeedsKey : Bool)

def propertyOf : NormalizedFilter Test → Option PropertyFilter
  | .test t => asProperty t
  | _ => none

/-- That a key is there follows from a value it has to equal. -/
def isKept (cstrs : Constraints) (child : NormalizedFilter Test) : Bool :=
  match propertyOf asProperty child with
  | some (.propertyExists key) => !(cstrs.eqByKey.lookup key).isSome
  | _ => true

def pruneConjunction (flattened : List (NormalizedFilter Test)) : Except String (Option (List (NormalizedFilter Test))) := do
  match ← Constraints.addAll inNeedsKey (flattened.filterMap (propertyOf asProperty)) .empty with
  | none => return none
  | some cstrs =>
    if cstrs.conflict then return none
    else return some (flattened.filter (isKept asProperty cstrs))

end

/-- The values the program holds, and what it relies on in the serialization of those that are no
numbers. -/
structure Serializes (toVec : PropValue → List UInt8) (held : PropValue → Prop) : Prop where
  wellFormed : ∀ {value}, held value → WellFormed value
  injective : ∀ {a b}, held a → held b → toVec a = toVec b → a = b

variable {stored : PropValue}

section
variable {toVec : PropValue → List UInt8} {held : PropValue → Prop} {a b : PropValue} {key : NumericScalarKey}

theorem number_of_structural (h : structuralPropertyEq a b = true) (hb : numericKey b = some key) : a = b := by
  cases b with
  | int value | uint value | float bits => cases a <;> simp_all [structuralPropertyEq]
  | null | bool _ | string _ | bytes _ | array _ | map _ => cases hb

theorem semanticEq_congr (h : equalityClass a = equalityClass b) (stored : PropValue) : semanticEq stored a = semanticEq stored b := by
  rw [equalityClass, equalityClass] at h
  rw [semanticEq, semanticEq]
  cases hleft : numericKey a with
  | none =>
    cases hrt : numericKey b with
    | none =>
      rw [hleft, hrt] at h
      rw [Sum.inr.inj h]
    | some key =>
      rw [hleft, hrt] at h
      cases h
  | some key =>
    cases hrt : numericKey b with
    | none =>
      rw [hleft, hrt] at h
      cases h
    | some other =>
      rw [hleft, hrt] at h
      obtain rfl := Sum.inl.inj h
      cases hsto : numericKey stored with
      | some num => rfl
      | none =>
        have hnone : ∀ {value : PropValue} {key}, numericKey value = some key → structuralPropertyEq stored value = false := by
          intro value key hval
          by_contra htrue
          rw [number_of_structural (Bool.not_eq_false _ |>.mp htrue) hval, hval] at hsto
          cases hsto
        rw [hnone hleft, hnone hrt]

theorem numericKey_of_class {value : PropValue} (h : equalityClass value = .inl key) : numericKey value = some key := by
  rw [equalityClass] at h
  cases hnum : numericKey value with
  | none =>
    rw [hnum] at h
    cases h
  | some other =>
    rw [hnum] at h
    rw [Sum.inl.inj h]

variable (hser : Serializes toVec held)
include hser

/-- Values with the same bytes equal the same values. -/
theorem semanticEq_of_bytes (ha : held a) (hb : held b)
    (h : propValueCanonicalBytes toVec a = propValueCanonicalBytes toVec b) (stored : PropValue) :
    semanticEq stored a = semanticEq stored b :=
  semanticEq_congr (class_of_keyBytes (hser.injective ha hb) (hser.wellFormed ha) (hser.wellFormed hb) h) stored

/-- What one value equals is equal, and equals the same values. -/
theorem semanticEq_of_both {a b : PropValue} (hsto : held stored) (ha : held a) (hb : held b)
    (hleft : semanticEq stored a = true) (hrt : semanticEq stored b = true) : semanticEq a b = true := by
  have hs := hser.wellFormed hsto
  cases hnum : numericKey stored with
  | none =>
    have hstru := hleft
    rw [semanticEq, hnum] at hstru
    rwa [eq_of_structural hs (hser.wellFormed ha) hstru] at hrt
  | some key =>
    have hclass : equalityClass stored = .inl key := by rw [equalityClass, hnum]
    have hleftClass := equalityClass_eq hs (hser.wellFormed ha) hleft
    have hrightClass := equalityClass_eq hs (hser.wellFormed hb) hrt
    rw [semanticEq, numericKey_of_class (hleftClass.symm.trans hclass), numericKey_of_class (hrightClass.symm.trans hclass)]
    exact decide_eq_true rfl

/-- The search among the keys finds what the list has. -/
theorem propertyInFilterMatches_eq {c : PropValue} {vs : List PropValue} {valueKeys : List (List UInt8)}
    (hcand : held c) (hvals : ∀ value ∈ vs, held value)
    (hkeys : valueKeys = vs.map (propValueCanonicalBytes toVec)) :
    propertyInFilterMatches toVec c vs valueKeys = vs.any (semanticEq c) := by
  rw [propertyInFilterMatches]
  split
  · rfl
  cases hfnd : binarySearch valueKeys (propValueCanonicalBytes toVec c) with
  | some idx =>
    obtain ⟨hix, hkey, -⟩ := findIdx?_eq_some_iff_getElem.mp hfnd
    rw [hkeys, length_map] at hix
    have hbs : propValueCanonicalBytes toVec vs[idx] = propValueCanonicalBytes toVec c := by
      subst hkeys
      rw [getElem_map] at hkey
      exact of_decide_eq_true hkey
    dsimp only
    rw [getElem?_eq_getElem hix, any_some, Bool.eq_iff_iff, any_eq_true]
    constructor
    · exact fun heq' => ⟨_, getElem_mem hix, heq'⟩
    · rintro ⟨value, hval, heq'⟩
      have hsame : propValueCanonicalBytes toVec c = propValueCanonicalBytes toVec value :=
        keyBytes_of_class (equalityClass_eq (hser.wellFormed hcand) (hser.wellFormed (hvals value hval)) heq')
      rwa [semanticEq_of_bytes hser (hvals _ (getElem_mem hix)) (hvals value hval) (hbs.trans hsame)]
  | none =>
    rw [Bool.eq_iff_iff]
    refine ⟨nofun, fun hany => ?_⟩
    obtain ⟨value, hval, heq'⟩ := any_eq_true.mp hany
    have hsame : propValueCanonicalBytes toVec c = propValueCanonicalBytes toVec value :=
      keyBytes_of_class (equalityClass_eq (hser.wellFormed hcand) (hser.wellFormed (hvals value hval)) heq')
    have hnot := List.findIdx?_eq_none_iff.mp hfnd (propValueCanonicalBytes toVec value) (hkeys ▸ mem_map_of_mem hval)
    exact absurd hsame.symm (of_decide_eq_false hnot)

end

/-- A test as the pass builds it: the values are held, the list of a membership test is in the order
of its keys, and the bounds of a range are numbers. -/
def PropertyFilter.Good (toVec : PropValue → List UInt8) (held : PropValue → Prop) : PropertyFilter → Prop
  | .propertyEquals _ value => held value
  | .propertyIn _ vs valueKeys => (∀ value ∈ vs, held value) ∧
    valueKeys = vs.map (propValueCanonicalBytes toVec) ∧ valueKeys.Pairwise fun a b => compare a b = .lt
  | .propertyRange _ lower upper => (∃ range, validateNumericRangeBounds lower upper = .ok range) ∧
    (∀ bound ∈ lower, held bound.value) ∧ ∀ bound ∈ upper, held bound.value
  | .propertyExists _ | .propertyMissing _ => True

section
variable {toVec : PropValue → List UInt8} {held : PropValue → Prop}

theorem key_inj {a b : String} {s t : List UInt8} (hlen : (pushLenPrefixedBytes (utf8 a) ++ s).length < 2 ^ 64)
    (h : pushLenPrefixedBytes (utf8 a) ++ s = pushLenPrefixedBytes (utf8 b) ++ t) : a = b ∧ s = t := by
  have hlens := congrArg List.length h
  rw [length_append, length_pushLenPrefixedBytes] at hlen hlens
  rw [length_append, length_pushLenPrefixedBytes] at hlens
  obtain ⟨hkey, hrest⟩ := pushLenPrefixedBytes_append_inj (by omega) (by omega) h
  exact ⟨utf8_inj hkey, hrest⟩

theorem name_inj {a b : String} {tag : UInt8} (hlen : (tag :: pushLenPrefixedBytes (utf8 a)).length < 2 ^ 64)
    (h : tag :: pushLenPrefixedBytes (utf8 a) = tag :: pushLenPrefixedBytes (utf8 b)) : a = b := by
  refine (key_inj (s := []) (t := []) ?_ ?_).1
  · rw [append_nil]
    exact Nat.lt_of_succ_lt hlen
  · rw [append_nil, append_nil, (List.cons.inj h).2]

/-- What a range test reads of a bound. -/
def boundNumber (bound : PropertyRangeBound) : Option NumericScalarKey × Bool := (numericKey bound.value, bound.inclusive)

variable {lower upper : Option PropertyRangeBound}

theorem within_congr {lower' upper' : Option PropertyRangeBound} (hlo : lower.map boundNumber = lower'.map boundNumber)
    (hup : upper.map boundNumber = upper'.map boundNumber) (value : PropValue) :
    numericRangeValueWithinBounds value lower upper = numericRangeValueWithinBounds value lower' upper' := by
  have hall : ∀ (bound : Option PropertyRangeBound) (meets : NumericScalarKey → Bool → Bool),
      bound.all (fun bound => (numericKey bound.value).any (meets · bound.inclusive)) =
        (bound.map boundNumber).all fun num => num.1.any (meets · num.2) := by
    intro bound meets
    cases bound <;> rfl
  rw [numericRangeValueWithinBounds, numericRangeValueWithinBounds]
  congr 1
  funext key
  rw [hall lower (PropertyValues.meetsLower key), hall upper (PropertyValues.meetsUpper key), hlo, hup,
    ← hall lower' (PropertyValues.meetsLower key), ← hall upper' (PropertyValues.meetsUpper key)]

theorem boundBytes_inj {a b : PropertyRangeBound} {left right : NumericScalarKey} (ha : FitsWord a.value) (hb : FitsWord b.value)
    (hleft : numericKey a.value = some left) (hrt : numericKey b.value = some right)
    (h : semanticRangeBoundKeyBytes a = semanticRangeBoundKeyBytes b) : boundNumber a = boundNumber b := by
  rw [semanticRangeBoundKeyBytes, semanticRangeBoundKeyBytes, hleft, hrt] at h
  obtain ⟨hflag, hkey⟩ := List.cons.inj h
  have hincl : a.inclusive = b.inclusive := by
    cases ha : a.inclusive <;> cases hb : b.inclusive <;> rw [ha, hb] at hflag <;> first | rfl | cases hflag
  rw [boundNumber, boundNumber, hleft, hrt, hincl, pushNumericKeyBytes_injective ha hb hleft hrt hkey]

theorem length_boundBytes {bound : PropertyRangeBound} {key : NumericScalarKey} (h : numericKey bound.value = some key) :
    (semanticRangeBoundKeyBytes bound).length < 2 ^ 64 := by
  rw [semanticRangeBoundKeyBytes, h, length_cons]
  simp only [pushNumericKeyBytes, length_cons, length_append, SortedBytes.length_beBytes]
  omega

/-- The bytes of a bound end where those of another do only if they stand for the same bound. -/
theorem pushRangeBound_append_inj {s t : List UInt8}
    (hlo : ∀ bound ∈ lower, FitsWord bound.value ∧ ∃ key, numericKey bound.value = some key)
    (hup : ∀ bound ∈ upper, FitsWord bound.value ∧ ∃ key, numericKey bound.value = some key)
    (h : pushRangeBoundStructuralKey lower ++ s = pushRangeBoundStructuralKey upper ++ t) :
    lower.map boundNumber = upper.map boundNumber ∧ s = t := by
  cases lower with
  | none =>
    cases upper with
    | none => exact ⟨rfl, (List.cons.inj h).2⟩
    | some high => cases (List.cons.inj h).1
  | some low =>
    cases upper with
    | none => cases (List.cons.inj h).1
    | some high =>
      obtain ⟨hlowFits, left, hleft⟩ := hlo low rfl
      obtain ⟨hhighFits, right, hrt⟩ := hup high rfl
      obtain ⟨hbs, hrest⟩ := pushLenPrefixedBytes_append_inj (length_boundBytes hleft) (length_boundBytes hrt) (List.cons.inj h).2
      refine ⟨?_, hrest⟩
      rw [map_some, map_some, boundBytes_inj hlowFits hhighFits hleft hrt hbs]

variable (hser : Serializes toVec held)
include hser

/-- Tests with one key are met by the same records. -/
theorem PropertyFilter.meets_of_key {p q : PropertyFilter} (hp : p.Good toVec held) (hq : q.Good toVec held)
    (hlen : (p.structuralKey toVec).length < 2 ^ 64) (h : p.structuralKey toVec = q.structuralKey toVec) {props : Props}
    (hps : ∀ {key value}, props.lookup key = some value → held value) : p.meets toVec props = q.meets toVec props := by
  cases p with
  | propertyEquals key value =>
    cases q with
    | propertyEquals other right =>
      rw [structuralKey] at hlen
      obtain ⟨rfl, hval⟩ := key_inj (Nat.lt_of_succ_lt hlen) (List.cons.inj h).2
      have hlens := congrArg List.length hval
      rw [length_cons, length_append, length_pushLenPrefixedBytes, length_pushLenPrefixedBytes] at hlen
      rw [length_pushLenPrefixedBytes, length_pushLenPrefixedBytes] at hlens
      have hbs := pushLenPrefixedBytes_inj (by omega) (by omega) hval
      rw [meets, meets]
      congr 1
      funext stored
      exact semanticEq_of_bytes hser hp hq hbs stored
    | _ => exact absurd (List.cons.inj h).1 (by decide)
  | propertyIn key vs valueKeys =>
    cases q with
    | propertyIn other others otherKeys =>
      rw [structuralKey] at hlen
      obtain ⟨rfl, hvals⟩ := key_inj (Nat.lt_of_succ_lt hlen) (List.cons.inj h).2
      obtain ⟨hheld, hkeys, -⟩ := hp
      obtain ⟨hheld', hkeys', -⟩ := hq
      rw [length_cons, length_append] at hlen
      have hsame : valueKeys = otherKeys := flatMap_pushLenPrefixedBytes_inj (by omega) hvals
      have hans : ∀ stored, vs.any (semanticEq stored) = others.any (semanticEq stored) := by
        intro stored
        have hmap : vs.map (semanticEq stored) = others.map (semanticEq stored) :=
          map_eq_of_keys (hkeys.symm.trans (hsame.trans hkeys')) fun a ha b hb hbs =>
            semanticEq_of_bytes hser (hheld a ha) (hheld' b hb) hbs stored
        rw [← Function.id_comp (semanticEq stored), ← any_map, hmap, any_map]
      rw [meets, meets]
      cases hsto : props.lookup key with
      | none => rfl
      | some stored =>
        have hheldStored := hps hsto
        rw [any_some, any_some, propertyInFilterMatches_eq hser hheldStored hheld hkeys,
          propertyInFilterMatches_eq hser hheldStored hheld' hkeys', hans]
    | _ => exact absurd (List.cons.inj h).1 (by decide)
  | propertyRange key lower upper =>
    cases q with
    | propertyRange other lower' upper' =>
      rw [structuralKey] at hlen
      obtain ⟨rfl, hbds⟩ := key_inj (Nat.lt_of_succ_lt hlen) (List.cons.inj h).2
      obtain ⟨⟨range, hvd⟩, hlo, hup⟩ := hp
      obtain ⟨⟨range', hvalid'⟩, hlower', hupper'⟩ := hq
      obtain ⟨hnum, hnumberUpper⟩ := numeric_of_validated hvd
      obtain ⟨hnumber', hnumberUpper'⟩ := numeric_of_validated hvalid'
      obtain ⟨hlowers, hrest⟩ := pushRangeBound_append_inj
        (fun bound hbd => ⟨(hser.wellFormed (hlo bound hbd)).fits, hnum bound hbd⟩)
        (fun bound hbd => ⟨(hser.wellFormed (hlower' bound hbd)).fits, hnumber' bound hbd⟩) hbds
      obtain ⟨huppers, -⟩ := pushRangeBound_append_inj (s := []) (t := [])
        (fun bound hbd => ⟨(hser.wellFormed (hup bound hbd)).fits, hnumberUpper bound hbd⟩)
        (fun bound hbd => ⟨(hser.wellFormed (hupper' bound hbd)).fits, hnumberUpper' bound hbd⟩)
        (by rw [append_nil, append_nil, hrest])
      rw [meets, meets]
      congr 1
      funext stored
      exact within_congr hlowers huppers stored
    | _ => exact absurd (List.cons.inj h).1 (by decide)
  | propertyExists key =>
    cases q with
    | propertyExists other => rw [name_inj hlen h]
    | _ => exact absurd (List.cons.inj h).1 (by decide)
  | propertyMissing key =>
    cases q with
    | propertyMissing other => rw [name_inj hlen h]
    | _ => exact absurd (List.cons.inj h).1 (by decide)

end

variable {filters : List PropertyFilter}

section
variable {toVec : PropValue → List UInt8} {held : PropValue → Prop} {props : Props}

/-- The properties of a record meet what was gathered. -/
structure Constraints.MetBy (held : PropValue → Prop) (props : Props) (cstrs : Constraints) : Prop where
  eqByKey : ∀ {key value}, cstrs.eqByKey.lookup key = some value →
    held value ∧ ∃ stored, props.lookup key = some stored ∧ semanticEq stored value = true
  rangesByKey : ∀ {key range}, cstrs.rangesByKey.lookup key = some range →
    ProperRange range ∧ ∃ stored, props.lookup key = some stored ∧ propValueWithinValidatedRange stored range = true
  existsKeys : ∀ key ∈ cstrs.existsKeys, (props.lookup key).isSome = true
  missingKeys : ∀ key ∈ cstrs.missingKeys, (props.lookup key).isSome = false

theorem metBy_empty : Constraints.empty.MetBy held props where
  eqByKey h := by cases h
  rangesByKey h := by cases h
  existsKeys := nofun
  missingKeys := nofun

variable {cstrs : Constraints}

theorem Constraints.MetBy.exists (h : cstrs.MetBy held props) {key : String}
    (hkey : (props.lookup key).isSome = true) :
    ({ cstrs with existsKeys := key :: cstrs.existsKeys } : Constraints).MetBy held props where
  eqByKey := h.eqByKey
  rangesByKey := h.rangesByKey
  existsKeys := forall_mem_cons.mpr ⟨hkey, h.existsKeys⟩
  missingKeys := h.missingKeys

/-- A number in a range is within all ranges gathered for its key. -/
theorem within_of_both {left right : ValidatedNumericRange} (hsto : FitsWord stored)
    (hleft : ProperRange left) (hrt : ProperRange right) (hl : propValueWithinValidatedRange stored left = true)
    (hr : propValueWithinValidatedRange stored right = true) :
    propValueWithinValidatedRange stored (intersectValidatedNumericRanges left right) = true := by
  rw [propValueWithinValidatedRange] at hl hr ⊢
  cases hkey : numericKey stored with
  | none =>
    rw [hkey] at hl
    cases hl
  | some key =>
    rw [hkey, any_some] at hl hr
    rw [any_some]
    exact (within_intersect_iff (numericKey_spec hsto hkey).1 hleft hrt).mpr ⟨hl, hr⟩

theorem isEmpty_of_within {range : ValidatedNumericRange}
    (h : propValueWithinValidatedRange stored range = true) : range.isEmpty = false := by
  obtain ⟨key, -, hwi⟩ := (Option.any_eq_true _ _).mp h
  exact (within_iff.mp hwi).1

variable (hser : Serializes toVec held) (hps : ∀ {key value}, props.lookup key = some value → held value)
include hser hps

variable {res : Option Constraints}

/-- A test that the record meets contradicts nothing it meets. -/
theorem Constraints.MetBy.add {filter : PropertyFilter} {inNeedsKey : Bool}
    (h : cstrs.MetBy held props) (hgood : filter.Good toVec held)
    (hmeets : filter.meets toVec props = true) (hadd : cstrs.add inNeedsKey filter = .ok res) :
    ∃ added, res = some added ∧ added.MetBy held props := by
  cases filter with
  | propertyEquals key value =>
    obtain ⟨stored, hsto, heq'⟩ := (Option.any_eq_true _ _).mp hmeets
    have hthere : (props.lookup key).isSome = true := by rw [hsto]; rfl
    rw [Constraints.add] at hadd
    cases hex : cstrs.eqByKey.lookup key with
    | some existing =>
      rw [hex] at hadd
      obtain ⟨hheld, other, hoth, hotherEqual⟩ := h.eqByKey hex
      obtain rfl := some.inj (hsto.symm.trans hoth)
      have hboth := semanticEq_of_both hser (hps hsto) hheld hgood hotherEqual heq'
      simp only [hboth, Bool.not_true, Bool.false_eq_true, if_false] at hadd
      obtain rfl := ok.inj hadd
      exact ⟨_, rfl, h.exists hthere⟩
    | none =>
      rw [hex] at hadd
      obtain rfl := ok.inj hadd
      have hinsd : ({ cstrs with eqByKey := cstrs.eqByKey.insert key value } : Constraints).MetBy held props := by
        refine { h with eqByKey := ?_ }
        intro other found hfnd
        by_cases hsame : other = key
        · subst hsame
          rw [lookup_insert] at hfnd
          obtain rfl := some.inj hfnd
          exact ⟨hgood, stored, hsto, heq'⟩
        · rw [lookup_insert_ne hsame] at hfnd
          exact h.eqByKey hfnd
      exact ⟨_, rfl, hinsd.exists hthere⟩
  | propertyRange key lower upper =>
    obtain ⟨stored, hsto, hbetw⟩ := (Option.any_eq_true _ _).mp hmeets
    have hthere : (props.lookup key).isSome = true := by rw [hsto]; rfl
    obtain ⟨-, hlo, hup⟩ := hgood
    rw [Constraints.add] at hadd
    obtain ⟨range, hrng, hadd⟩ := bind_ok hadd
    have hfits := (hser.wellFormed (hps hsto)).fits
    have hlowerFits : ∀ bound ∈ lower, FitsWord bound.value := fun bound hbd => (hser.wellFormed (hlo bound hbd)).fits
    have hupperFits : ∀ bound ∈ upper, FitsWord bound.value := fun bound hbd => (hser.wellFormed (hup bound hbd)).fits
    have hprop := proper_validated hrng hlowerFits hupperFits
    have hwi := (within_validated hrng hlowerFits hupperFits hfits).trans hbetw
    have hranges : ∃ ranges, insertRangeConstraint cstrs.rangesByKey key range = some ranges ∧
        ({ cstrs with rangesByKey := ranges } : Constraints).MetBy held props := by
      -- the record is in the range that is put under the key
      have hput : ∀ {put : ValidatedNumericRange}, ProperRange put → propValueWithinValidatedRange stored put = true →
          ({ cstrs with rangesByKey := cstrs.rangesByKey.insert key put } : Constraints).MetBy held props := by
        intro put hputProper hputWithin
        refine { h with rangesByKey := ?_ }
        intro other found hfnd
        by_cases hsame : other = key
        · subst hsame
          rw [lookup_insert] at hfnd
          obtain rfl := some.inj hfnd
          exact ⟨hputProper, stored, hsto, hputWithin⟩
        · rw [lookup_insert_ne hsame] at hfnd
          exact h.rangesByKey hfnd
      rw [insertRangeConstraint, isEmpty_of_within hwi, if_neg Bool.false_ne_true]
      cases hex : cstrs.rangesByKey.lookup key with
      | none => exact ⟨_, rfl, hput hprop hwi⟩
      | some existing =>
        obtain ⟨hexistingProper, other, hoth, hotherWithin⟩ := h.rangesByKey hex
        obtain rfl := some.inj (hsto.symm.trans hoth)
        have hboth := within_of_both hfits hexistingProper hprop hotherWithin hwi
        refine ⟨_, ?_, hput (hexistingProper.intersect hprop) hboth⟩
        dsimp only
        rw [isEmpty_of_within hboth, if_neg Bool.false_ne_true]
    obtain ⟨ranges, hinsd, hmet⟩ := hranges
    rw [hinsd] at hadd
    obtain rfl := ok.inj hadd
    exact ⟨_, rfl, hmet.exists hthere⟩
  | propertyIn key vs valueKeys =>
    obtain ⟨stored, hsto, -⟩ := (Option.any_eq_true _ _).mp hmeets
    have hthere : (props.lookup key).isSome = true := by rw [hsto]; rfl
    obtain rfl := ok.inj hadd
    refine ⟨_, rfl, ?_⟩
    split
    · exact h.exists hthere
    · exact h
  | propertyExists key =>
    obtain rfl := ok.inj hadd
    exact ⟨_, rfl, h.exists hmeets⟩
  | propertyMissing key =>
    obtain rfl := ok.inj hadd
    refine ⟨_, rfl, { h with missingKeys := forall_mem_cons.mpr ⟨?_, h.missingKeys⟩ }⟩
    rw [PropertyFilter.meets, Bool.not_eq_true'] at hmeets
    exact hmeets

/-- Tests that the record meets contradict each other nowhere. -/
theorem Constraints.MetBy.addAll {inNeedsKey : Bool}
    (h : cstrs.MetBy held props) (hgood : ∀ filter ∈ filters, filter.Good toVec held)
    (hmeets : ∀ filter ∈ filters, filter.meets toVec props = true)
    (hadd : cstrs.addAll inNeedsKey filters = .ok res) : ∃ added, res = some added ∧ added.MetBy held props := by
  induction filters generalizing cstrs with
  | nil =>
    obtain rfl := ok.inj hadd
    exact ⟨cstrs, rfl, h⟩
  | cons filter filters ih =>
    obtain ⟨hgood, hgoods⟩ := forall_mem_cons.mp hgood
    obtain ⟨hmeet, hmeets⟩ := forall_mem_cons.mp hmeets
    rw [Constraints.addAll] at hadd
    obtain ⟨step, hstep, hadd⟩ := bind_ok hadd
    obtain ⟨added, rfl, hadded⟩ := h.add hser hps hgood hmeet hstep
    exact ih hadded hgoods hmeets hadd

/-- What the record meets is without conflict. -/
theorem Constraints.MetBy.conflict (h : cstrs.MetBy held props) : cstrs.conflict = false := by
  rw [Constraints.conflict, Bool.or_eq_false_iff]
  constructor
  · rw [any_eq_false]
    intro key hkey hmiss
    have hnot := h.missingKeys key (contains_iff_mem.mp hmiss)
    rw [h.existsKeys key hkey] at hnot
    cases hnot
  · rw [any_eq_false]
    rintro ⟨key, value⟩ hent hconf
    obtain ⟨range, hrng, hnot⟩ := (Option.any_eq_true _ _).mp hconf
    obtain ⟨hheld, stored, hsto, heq'⟩ := h.eqByKey (AList.mem_lookup_iff.mpr hent)
    obtain ⟨-, other, hoth, hwi⟩ := h.rangesByKey hrng
    obtain rfl := some.inj (hsto.symm.trans hoth)
    -- the stored number is in the range, and the value is that number
    obtain ⟨num, hnum, hinside⟩ := (Option.any_eq_true _ _).mp hwi
    have hclass := equalityClass_eq (hser.wellFormed (hps hsto)) (hser.wellFormed hheld) heq'
    have hval : numericKey value = some num := by
      apply numericKey_of_class
      rw [← hclass, equalityClass, hnum]
    rw [propValueWithinValidatedRange, hval, any_some, hinside] at hnot
    cases hnot

end

section
variable {Test : Type} {asProperty : Test → Option PropertyFilter} {inNeedsKey : Bool}

variable {filter : PropertyFilter}

theorem eqByKey_of_add {cstrs added : Constraints} {key : String}
    (hadd : cstrs.add inNeedsKey filter = .ok (some added)) (h : (added.eqByKey.lookup key).isSome = true) :
    (cstrs.eqByKey.lookup key).isSome = true ∨ ∃ value, filter = .propertyEquals key value := by
  cases filter with
  | propertyEquals other value =>
    rw [Constraints.add] at hadd
    split at hadd
    · split at hadd
      · cases hadd
      · obtain rfl := some.inj (ok.inj hadd)
        exact .inl h
    · obtain rfl := some.inj (ok.inj hadd)
      by_cases hsame : key = other
      · subst hsame
        exact .inr ⟨value, rfl⟩
      · dsimp only at h
        rw [lookup_insert_ne hsame] at h
        exact .inl h
  | propertyRange other lower upper =>
    rw [Constraints.add] at hadd
    obtain ⟨range, -, hadd⟩ := bind_ok hadd
    split at hadd
    · cases hadd
    · obtain rfl := some.inj (ok.inj hadd)
      exact .inl h
  | propertyIn other vs valueKeys =>
    obtain rfl := some.inj (ok.inj hadd)
    split at h
    · exact .inl h
    · exact .inl h
  | propertyExists other =>
    obtain rfl := some.inj (ok.inj hadd)
    exact .inl h
  | propertyMissing other =>
    obtain rfl := some.inj (ok.inj hadd)
    exact .inl h

/-- A key has a value it must equal because a test says so. -/
theorem mem_of_eqByKey {cstrs added : Constraints} {key : String}
    (hadd : cstrs.addAll inNeedsKey filters = .ok (some added)) (h : (added.eqByKey.lookup key).isSome = true) :
    (cstrs.eqByKey.lookup key).isSome = true ∨ ∃ value, PropertyFilter.propertyEquals key value ∈ filters := by
  induction filters generalizing cstrs with
  | nil =>
    obtain rfl := some.inj (ok.inj hadd)
    exact .inl h
  | cons filter filters ih =>
    rw [Constraints.addAll] at hadd
    obtain ⟨step, hstep, hadd⟩ := bind_ok hadd
    cases step with
    | none => cases hadd
    | some next =>
      rcases ih hadd with hnext | ⟨value, hval⟩
      · rcases eqByKey_of_add hstep hnext with hthere | ⟨value, rfl⟩
        · exact .inl hthere
        · exact .inr ⟨value, mem_cons_self⟩
      · exact .inr ⟨value, mem_cons_of_mem _ hval⟩

variable {child : NormalizedFilter Test}

theorem test_of_propertyOf (h : propertyOf asProperty child = some filter) : ∃ t, child = .test t ∧ asProperty t = some filter := by
  cases child with
  | test t => exact ⟨t, rfl, h⟩
  | alwaysTrue | alwaysFalse | and _ | or _ | not _ => cases h

variable {toVec : PropValue → List UInt8} {held : PropValue → Prop} {props : Props} {good : Test → Prop} {holds : Test → Bool}
  (hprp : ∀ {t filter}, asProperty t = some filter → good t → filter.Good toVec held ∧ holds t = filter.meets toVec props)
include hprp

theorem meets_of_propertyOf (heach : child.Each good) (h : propertyOf asProperty child = some filter) :
    filter.Good toVec held ∧ child.meets holds = filter.meets toVec props := by
  obtain ⟨t, rfl, ht⟩ := test_of_propertyOf h
  cases heach with
  | test hgood => exact hprp ht hgood

variable {flattened : List (NormalizedFilter Test)} (heach : ∀ child ∈ flattened, child.Each good)
include heach

/-- A conjunction that is found contradictory is met by no record. -/
theorem all_of_pruned_none (hser : Serializes toVec held) (hps : ∀ {key value}, props.lookup key = some value → held value)
    (h : pruneConjunction asProperty inNeedsKey flattened = .ok none) :
    flattened.all (NormalizedFilter.meets holds) = false := by
  by_contra hall
  have hmeets := all_eq_true.mp ((Bool.not_eq_false _).mp hall)
  have hfilt : ∀ filter ∈ flattened.filterMap (propertyOf asProperty),
      filter.Good toVec held ∧ filter.meets toVec props = true := by
    intro filter hfil
    obtain ⟨child, hkid, hof⟩ := mem_filterMap.mp hfil
    obtain ⟨hgood, hsame⟩ := meets_of_propertyOf hprp (heach child hkid) hof
    exact ⟨hgood, hsame.symm.trans (hmeets child hkid)⟩
  rw [pruneConjunction] at h
  obtain ⟨res, hres, h⟩ := bind_ok h
  obtain ⟨cstrs, rfl, hmet⟩ := metBy_empty.addAll hser hps (fun filter hfil => (hfilt filter hfil).1)
    (fun filter hfil => (hfilt filter hfil).2) hres
  dsimp only at h
  rw [hmet.conflict hser hps, if_neg Bool.false_ne_true] at h
  cases h

/-- What is left of a conjunction is met by the same records. -/
theorem all_of_pruned_some {kept : List (NormalizedFilter Test)}
    (h : pruneConjunction asProperty inNeedsKey flattened = .ok (some kept)) :
    kept.Sublist flattened ∧ kept.all (NormalizedFilter.meets holds) = flattened.all (NormalizedFilter.meets holds) := by
  rw [pruneConjunction] at h
  obtain ⟨res, hres, h⟩ := bind_ok h
  cases res with
  | none => cases h
  | some cstrs =>
    dsimp only at h
    split at h
    · cases h
    obtain rfl := some.inj (ok.inj h)
    refine ⟨filter_sublist, ?_⟩
    rw [Bool.eq_iff_iff, all_eq_true, all_eq_true]
    constructor
    · intro hall child hkid
      by_cases hkept : isKept asProperty cstrs child = true
      · exact hall child (mem_filter.mpr ⟨hkid, hkept⟩)
      · -- the key is there because of the value that it has to equal
        rw [isKept] at hkept
        split at hkept
        · rename_i key hof
          rw [Bool.not_eq_true, Bool.not_eq_false'] at hkept
          rcases mem_of_eqByKey hres hkept with hthere | ⟨value, hval⟩
          · cases hthere
          · obtain ⟨other, hoth, hotherOf⟩ := mem_filterMap.mp hval
            have hstays : isKept asProperty cstrs other = true := by rw [isKept, hotherOf]
            have heq' := hall other (mem_filter.mpr ⟨hoth, hstays⟩)
            rw [(meets_of_propertyOf hprp (heach other hoth) hotherOf).2] at heq'
            obtain ⟨stored, hsto, -⟩ := (Option.any_eq_true _ _).mp heq'
            rw [(meets_of_propertyOf hprp (heach child hkid) hof).2, PropertyFilter.meets, hsto]
            rfl
        · exact absurd rfl hkept
    · exact fun hall child hkid => hall child (mem_filter.mp hkid).1

end

end OverGraph.PropertyFilters
