import OverGraph.FilterConditions
import OverGraph.EdgeCandidates

/-!
# Normalization of node and edge filters

The filter of a query is normalized before it is planned and checked. A record meets the normalized
filter exactly when it meets the filter that was written, so nothing that can be met is found
contradictory, and filters with one structural key are met by the same records.
-/

namespace OverGraph.FilterNormalization
open PropertyValues (PropertyRangeBound)
open Except Bool SortedBytes
open Option hiding or
open Records Sources FloatOrder KeyedLists FilterTrees SemanticEquality PropertyFilters FilterConditions WalCodec List
  Fallible
open NodeFilters (u64FlexibleRangeMatches i64FlexibleRangeMatches f32FlexibleRangeMatches)
open EdgeCandidates (i64RangeMatches edgeWeightRangeMatches)

inductive NodeCondition where
  | idRange (range : FlexibleRange ℕ)
  | keyEquals (value : String)
  | keyIn (values : List String)
  | property (condition : PropertyCondition)
  | updatedAtRange (loMs hiMs : Option ℤ)
  | weightRange (range : FlexibleRange F32)
  | createdAtRange (range : FlexibleRange ℤ)

abbrev NodeFilterExpr := FilterExpr NodeCondition

inductive NodeTest where
  | idRange (range : FlexibleRange ℕ)
  | keyEquals (value : String)
  | keyIn (values : List String)
  | property (filter : PropertyFilter)
  | updatedAtRange (loMs hiMs : ℤ)
  | weightRange (range : FlexibleRange F32)
  | createdAtRange (range : FlexibleRange ℤ)

abbrev NormalizedNodeFilter := NormalizedFilter NodeTest

/-- The condition read plainly. -/
def NodeCondition.holds (node : NodeRecord) : NodeCondition → Bool
  | .idRange range => range.matches (fun a b => decide (a < b)) (fun a b => decide (a = b)) node.id
  | .keyEquals value => decide (node.key = value)
  | .keyIn vs => vs.contains node.key
  | .property cond => cond.holds node.props
  | .updatedAtRange loMs hiMs => timeInRange loMs hiMs node.updatedAt
  | .weightRange range => !isNan node.weight && range.matches floatLt floatEq node.weight
  | .createdAtRange range => range.matches (fun a b => decide (a < b)) (fun a b => decide (a = b)) node.createdAt

def NodeFilterExpr.metBy (node : NodeRecord) (expr : NodeFilterExpr) : Bool := expr.meets (NodeCondition.holds node)

section
variable (toVec : PropValue → List UInt8)

def NodeTest.holds (sel : SelectedNodeFields) : NodeTest → Bool
  | .idRange range => u64FlexibleRangeMatches sel.info.id range.lower range.upper range.lowerInclusive range.upperInclusive
  | .keyEquals value => decide (sel.key = some value)
  | .keyIn vs => sel.key.any (vs.contains ·)
  | .property filter => filter.meets toVec sel.props
  | .updatedAtRange loMs hiMs => decide (loMs ≤ sel.info.updatedAt) && decide (sel.info.updatedAt ≤ hiMs)
  | .weightRange range => f32FlexibleRangeMatches sel.info.weight range.lower range.upper range.lowerInclusive range.upperInclusive
  | .createdAtRange range => sel.createdAt.any (i64FlexibleRangeMatches · range.lower range.upper range.lowerInclusive range.upperInclusive)

def nodeFilterProjectedMatches (filter : NormalizedNodeFilter) (sel : SelectedNodeFields) : Bool := filter.meets (NodeTest.holds toVec sel)

def NodeTest.structuralKey : NodeTest → List UInt8
  | .idRange range => 11 :: range.bytes u64Bytes 0
  | .keyEquals value => 12 :: pushLenPrefixedBytes (utf8 value)
  | .keyIn vs => 13 :: (vs.map utf8).flatMap pushLenPrefixedBytes
  | .property filter => filter.structuralKey toVec
  | .updatedAtRange loMs hiMs => 7 :: (i64Bytes loMs ++ i64Bytes hiMs)
  | .weightRange range => 14 :: range.bytes f32Bytes 0
  | .createdAtRange range => 15 :: range.bytes i64Bytes 0

def normalizeKeyIn (vs : List String) : NodeTest :=
  match sortedDedup id vs with
  | [value] => .keyEquals value
  | deduped => .keyIn deduped

def normalizeNodeWeightRange (range : FlexibleRange F32) : Except String NormalizedNodeFilter :=
  if range.lower.isNone && range.upper.isNone then .error "node weight range filters require at least one bound"
  else if range.lower.any isNan || range.upper.any isNan then .error "node weight range bounds must not be NaN"
  else if range.isEmpty floatLt floatEq then return .alwaysFalse
  else return .test (.weightRange range)

def normalizeNodeCondition : NodeCondition → Except String NormalizedNodeFilter
  | .idRange range => do
    match ← normalizeU64FlexibleRange range "node id" with
    | none => return .alwaysFalse
    | some range => return .test (.idRange range)
  | .keyEquals value =>
    if value.isEmpty then .error "node key equals filters require a non-empty key"
    else return .test (.keyEquals value)
  | .keyIn vs =>
    if vs.isEmpty then .error "node key in filters must contain at least one value"
    else if vs.any String.isEmpty then .error "node key in filters require non-empty keys"
    else return .test (normalizeKeyIn vs)
  | .property cond =>
    normalizePropertyCondition toVec NodeTest.property "" (.error "property in filters must contain at least one value") cond
  | .updatedAtRange loMs hiMs => do
    match ← normalizeI64Range loMs hiMs "updated-at" with
    | none => return .alwaysFalse
    | some (loMs, hiMs) => return .test (.updatedAtRange loMs hiMs)
  | .weightRange range => normalizeNodeWeightRange range
  | .createdAtRange range => do
    match ← normalizeI64FlexibleRange range "node created-at" with
    | none => return .alwaysFalse
    | some range => return .test (.createdAtRange range)

def NodeTest.asProperty : NodeTest → Option PropertyFilter
  | .property filter => some filter
  | _ => none

/-- That a property is there and that it is missing are each other's negation. -/
def NodeTest.negated : NodeTest → Option NodeTest
  | .property (.propertyExists key) => some (.property (.propertyMissing key))
  | .property (.propertyMissing key) => some (.property (.propertyExists key))
  | _ => none

def nodeRules : Rules NodeCondition NodeTest where
  leaf := normalizeNodeCondition toVec
  negated := NodeTest.negated
  prune := pruneConjunction NodeTest.asProperty false
  testKey := NodeTest.structuralKey toVec
  andTag := 8
  orTag := 9
  notTag := 10
  emptyAnd := "and filters must contain at least one child"
  emptyOr := "or filters must contain at least one child"

def normalizeNodeFilterExpr (expr : NodeFilterExpr) : Except String NormalizedNodeFilter := (nodeRules toVec).normalize expr

def nodeStructuralKey (filter : NormalizedNodeFilter) : List UInt8 := (nodeRules toVec).structuralKey filter

end

/-- The constants of a condition are those the program can hold. -/
def NodeCondition.Held (held : PropValue → Prop) : NodeCondition → Prop
  | .idRange range => (∀ bound ∈ range.lower, FitsU64 bound) ∧ ∀ bound ∈ range.upper, FitsU64 bound
  | .property cond => cond.Held held
  | .updatedAtRange loMs hiMs => (∀ bound ∈ loMs, FitsI64 bound) ∧ ∀ bound ∈ hiMs, FitsI64 bound
  | .createdAtRange range => (∀ bound ∈ range.lower, FitsI64 bound) ∧ ∀ bound ∈ range.upper, FitsI64 bound
  | .keyEquals _ | .keyIn _ | .weightRange _ => True

/-- A test as the pass builds it. -/
def NodeTest.Good (toVec : PropValue → List UInt8) (held : PropValue → Prop) : NodeTest → Prop
  | .idRange range => (∀ bound ∈ range.lower, FitsU64 bound) ∧ ∀ bound ∈ range.upper, FitsU64 bound
  | .keyIn vs => vs.Pairwise fun a b => compare a b = .lt
  | .property filter => filter.Good toVec held
  | .updatedAtRange loMs hiMs => FitsI64 loMs ∧ FitsI64 hiMs
  | .createdAtRange range => (∀ bound ∈ range.lower, FitsI64 bound) ∧ ∀ bound ∈ range.upper, FitsI64 bound
  | .keyEquals _ | .weightRange _ => True

/-- The tags of the tests of a property count as one. -/
def propertyKind (tag : UInt8) : UInt8 := if tag ∈ ([2, 3, 4, 5, 6] : List UInt8) then 2 else tag

theorem propertyKind_key (toVec : PropValue → List UInt8) (filter : PropertyFilter) :
    propertyKind ((filter.structuralKey toVec).headD 0) = 2 := by
  cases filter <;> rfl

def NodeTest.kind : NodeTest → UInt8
  | .idRange _ => 11
  | .keyEquals _ => 12
  | .keyIn _ => 13
  | .property _ => 2
  | .updatedAtRange _ _ => 7
  | .weightRange _ => 14
  | .createdAtRange _ => 15

theorem NodeTest.kind_eq (toVec : PropValue → List UInt8) (t : NodeTest) : t.kind = propertyKind ((t.structuralKey toVec).headD 0) := by
  cases t with
  | property filter => exact (propertyKind_key toVec filter).symm
  | idRange _ | keyEquals _ | keyIn _ | updatedAtRange _ _ | weightRange _ | createdAtRange _ => rfl

theorem nodeRules_tagged (toVec : PropValue → List UInt8) : (nodeRules toVec).Tagged where
  nodup := by
    change ([0, 1, 8, 9, 10] : List UInt8).Nodup
    decide
  tests t := by
    change ∃ tag rest, t.structuralKey toVec = tag :: rest ∧ tag ∉ ([0, 1, 8, 9, 10] : List UInt8)
    cases t with
    | property filter => cases filter <;> exact ⟨_, _, rfl, by decide⟩
    | idRange _ | keyEquals _ | keyIn _ | updatedAtRange _ _ | weightRange _ | createdAtRange _ => exact ⟨_, _, rfl, by decide⟩

theorem u64Range_inj {left right : FlexibleRange ℕ} (hleft : (∀ a ∈ left.lower, FitsU64 a) ∧ ∀ a ∈ left.upper, FitsU64 a)
    (hrt : (∀ a ∈ right.lower, FitsU64 a) ∧ ∀ a ∈ right.upper, FitsU64 a)
    (h : left.bytes u64Bytes 0 = right.bytes u64Bytes 0) : left = right :=
  FlexibleRange.bytes_inj (fun _ => length_beBytes _ _) (fun _ _ => u64Bytes_inj)
    (by rw [FitsU64]; decide) hleft hrt h

theorem i64Range_inj {left right : FlexibleRange ℤ} (hleft : (∀ a ∈ left.lower, FitsI64 a) ∧ ∀ a ∈ left.upper, FitsI64 a)
    (hrt : (∀ a ∈ right.lower, FitsI64 a) ∧ ∀ a ∈ right.upper, FitsI64 a)
    (h : left.bytes i64Bytes 0 = right.bytes i64Bytes 0) : left = right :=
  FlexibleRange.bytes_inj (fun _ => length_beBytes _ _) (fun _ _ => i64Bytes_inj)
    (by rw [FitsI64, i64Min, i64Max]; decide) hleft hrt h

theorem f32Range_inj {left right : FlexibleRange F32} (h : left.bytes f32Bytes 0 = right.bytes f32Bytes 0) : left = right :=
  @FlexibleRange.bytes_inj F32 f32Bytes 0 4 (fun _ => True) (fun _ => length_beBytes _ _)
    (fun _ _ _ _ => f32Bytes_inj) trivial left right ⟨fun _ _ => trivial, fun _ _ => trivial⟩ ⟨fun _ _ => trivial, fun _ _ => trivial⟩ h

theorem i64Pair_inj {lower upper lower' upper' : ℤ} (hleft : FitsI64 lower ∧ FitsI64 upper)
    (hrt : FitsI64 lower' ∧ FitsI64 upper') (h : i64Bytes lower ++ i64Bytes upper = i64Bytes lower' ++ i64Bytes upper') :
    lower = lower' ∧ upper = upper' := by
  obtain ⟨hlo, hup⟩ := append_inj h (by rw [i64Bytes, i64Bytes, length_beBytes, length_beBytes])
  exact ⟨i64Bytes_inj hleft.1 hrt.1 hlo, i64Bytes_inj hleft.2 hrt.2 hup⟩

section
variable {toVec : PropValue → List UInt8} {held : PropValue → Prop} (hser : Serializes toVec held)
  {sel : SelectedNodeFields} (hps : ∀ {key value}, sel.props.lookup key = some value → held value)
include hser hps

theorem NodeTest.holds_of_key (t u : NodeTest) (ht : t.Good toVec held) (hu : u.Good toVec held)
    (hlen : (t.structuralKey toVec).length < 2 ^ 64) (h : t.structuralKey toVec = u.structuralKey toVec) :
    t.holds toVec sel = u.holds toVec sel := by
  have hkind : t.kind = u.kind := by rw [t.kind_eq toVec, u.kind_eq toVec, h]
  cases t <;> cases u <;> try exact absurd hkind (by rw [kind, kind]; decide)
  case idRange.idRange => rw [u64Range_inj ht hu (List.cons.inj h).2]
  case keyEquals.keyEquals => rw [name_inj hlen h]
  case keyIn.keyIn =>
    have hkeys := flatMap_pushLenPrefixedBytes_inj (Nat.lt_of_succ_lt hlen) (List.cons.inj h).2
    rw [map_injective_iff.mpr (fun _ _ => utf8_inj) hkeys]
  case property.property => exact PropertyFilter.meets_of_key hser ht hu hlen h hps
  case updatedAtRange.updatedAtRange =>
    obtain ⟨rfl, rfl⟩ := i64Pair_inj ht hu (List.cons.inj h).2
    rfl
  case weightRange.weightRange => rw [f32Range_inj (List.cons.inj h).2]
  case createdAtRange.createdAtRange => rw [i64Range_inj ht hu (List.cons.inj h).2]

end

def allFields (node : NodeRecord) : SelectedNodeFields := selectedNodeFields ⟨true, true, .all, .both⟩ node

/-- A record as the program holds it. -/
structure NodeHeld (held : PropValue → Prop) (node : NodeRecord) : Prop where
  props : ∀ {key value}, node.props.lookup key = some value → held value
  updatedAt : FitsI64 node.updatedAt

theorem u64_empty {range : FlexibleRange ℕ} (h : range.isEmpty (fun a b => decide (a < b)) (fun a b => decide (a = b)) = true)
    (value : ℕ) : range.matches (fun a b => decide (a < b)) (fun a b => decide (a = b)) value = false :=
  matches_of_empty id (fun _ _ => of_decide_eq_true) (fun _ _ => of_decide_eq_true) (fun _ _ => ⟨rfl, rfl⟩) (fun _ _ => ⟨rfl, rfl⟩) h

theorem i64_empty {range : FlexibleRange ℤ} (h : range.isEmpty (fun a b => decide (a < b)) (fun a b => decide (a = b)) = true)
    (value : ℤ) : range.matches (fun a b => decide (a < b)) (fun a b => decide (a = b)) value = false :=
  matches_of_empty id (fun _ _ => of_decide_eq_true) (fun _ _ => of_decide_eq_true) (fun _ _ => ⟨rfl, rfl⟩) (fun _ _ => ⟨rfl, rfl⟩) h

theorem floatLt_eq {a b : F32} (ha : isNan a = false) (hb : isNan b = false) :
    floatLt a b = decide (orderValue a < orderValue b) ∧ floatEq a b = decide (orderValue a = orderValue b) := by
  rw [floatLt, floatEq, ha, hb]
  exact ⟨rfl, rfl⟩

theorem f32_empty {range : FlexibleRange F32} (hlo : range.lower.any isNan = false) (hup : range.upper.any isNan = false)
    (h : range.isEmpty floatLt floatEq = true) {value : F32} (hval : isNan value = false) :
    range.matches floatLt floatEq value = false := by
  have hnum : ∀ {bound : Option F32}, bound.any isNan = false → ∀ x ∈ bound, isNan x = false := by
    intro bound hbd x hx
    rw [hx] at hbd
    exact hbd
  apply matches_of_empty orderValue _ _ _ _ h
  · intro a b hlt
    rw [floatLt, and_eq_true] at hlt
    exact of_decide_eq_true hlt.2
  · intro a b heq
    rw [floatEq, and_eq_true] at heq
    exact of_decide_eq_true heq.2
  · exact fun lower hmem => floatLt_eq hval (hnum hlo lower hmem)
  · exact fun upper hmem => ⟨(floatLt_eq (hnum hup upper hmem) hval).1, (floatLt_eq hval (hnum hup upper hmem)).2⟩

theorem normalizeKeyIn_spec {toVec : PropValue → List UInt8} {held : PropValue → Prop} {vs : List String} (node : NodeRecord) :
    (normalizeKeyIn vs).Good toVec held ∧ (normalizeKeyIn vs).holds toVec (allFields node) = (NodeCondition.keyIn vs).holds node := by
  have hctn : (sortedDedup id vs).contains node.key = vs.contains node.key := by
    rw [Bool.eq_iff_iff, contains_iff_mem, contains_iff_mem]
    constructor
    · exact mem_of_sortedDedup
    · intro hmem
      obtain ⟨other, hoth, rfl⟩ := exists_sortedDedup id hmem
      exact hoth
  rw [normalizeKeyIn, NodeCondition.holds, ← hctn]
  split
  · rename_i value hone
    refine ⟨trivial, ?_⟩
    rw [hone, NodeTest.holds, Bool.eq_iff_iff, decide_eq_true_iff, contains_iff_mem, mem_singleton]
    exact some_inj
  · exact ⟨ascending_sortedDedup vs, rfl⟩

section
variable {toVec : PropValue → List UInt8} {held : PropValue → Prop} (hser : Serializes toVec held) {node : NodeRecord}
  (hnode : NodeHeld held node)
include hser hnode

theorem normalizeNodeCondition_spec {cond : NodeCondition} {norm : NormalizedNodeFilter}
    (hcond : cond.Held held) (h : normalizeNodeCondition toVec cond = .ok norm) :
    norm.Each (NodeTest.Good toVec held) ∧ norm.meets (NodeTest.holds toVec (allFields node)) = cond.holds node := by
  cases cond with
  | idRange range =>
    obtain ⟨res, hres, h⟩ := bind_ok h
    rcases normalizeFlexibleRange_ok hres with ⟨rfl, hemp⟩ | rfl
    · obtain rfl := ok.inj h
      exact ⟨.alwaysFalse, (u64_empty hemp node.id).symm⟩
    · obtain rfl := ok.inj h
      exact ⟨.test hcond, rfl⟩
  | keyEquals value =>
    rw [normalizeNodeCondition] at h
    split at h
    · cases h
    obtain rfl := ok.inj h
    refine ⟨.test trivial, ?_⟩
    rw [NormalizedFilter.meets, NodeTest.holds, NodeCondition.holds]
    congr 1
    exact propext some_inj
  | keyIn vs =>
    rw [normalizeNodeCondition] at h
    split at h
    · cases h
    split at h
    · cases h
    obtain rfl := ok.inj h
    obtain ⟨hgood, hhol⟩ := normalizeKeyIn_spec node
    exact ⟨.test hgood, hhol⟩
  | property cond =>
    refine normalizePropertyCondition_spec hser hnode.props ?_ hcond ?_ ?_ h
    · intro _ hemp
      cases hemp
    · exact fun _ hgood => hgood
    · exact fun _ => rfl
  | updatedAtRange loMs hiMs =>
    obtain ⟨res, hres, h⟩ := bind_ok h
    rcases normalizeI64Range_ok hres with ⟨rfl, hnil⟩ | rfl
    · obtain rfl := ok.inj h
      exact ⟨.alwaysFalse, (hnil node.updatedAt hnode.updatedAt).symm⟩
    · obtain rfl := ok.inj h
      refine ⟨.test ⟨fits_getD (by rw [FitsI64, i64Min, i64Max]; decide) hcond.1,
        fits_getD (by rw [FitsI64, i64Min, i64Max]; decide) hcond.2⟩, ?_⟩
      rw [NodeCondition.holds, timeInRange_eq hnode.updatedAt]
      rfl
  | weightRange range =>
    change normalizeNodeWeightRange range = .ok norm at h
    rw [normalizeNodeWeightRange] at h
    split at h
    · cases h
    split at h
    · cases h
    rename_i hnumb
    rw [not_eq_true, or_eq_false_iff] at hnumb
    split at h
    · rename_i hemp
      obtain rfl := ok.inj h
      refine ⟨.alwaysFalse, ?_⟩
      rw [NodeCondition.holds]
      cases hnan : isNan node.weight with
      | true => rfl
      | false =>
        rw [f32_empty hnumb.1 hnumb.2 hemp hnan]
        rfl
    · obtain rfl := ok.inj h
      exact ⟨.test trivial, rfl⟩
  | createdAtRange range =>
    obtain ⟨res, hres, h⟩ := bind_ok h
    rcases normalizeFlexibleRange_ok hres with ⟨rfl, hemp⟩ | rfl
    · obtain rfl := ok.inj h
      exact ⟨.alwaysFalse, (i64_empty hemp node.createdAt).symm⟩
    · obtain rfl := ok.inj h
      exact ⟨.test hcond, rfl⟩

omit hser hnode in
theorem NodeTest.property_of {t : NodeTest} {filter : PropertyFilter} (h : t.asProperty = some filter) : t = .property filter := by
  cases t with
  | property other => exact congrArg _ (some.inj h)
  | idRange _ | keyEquals _ | keyIn _ | updatedAtRange _ _ | weightRange _ | createdAtRange _ => cases h

theorem nodeRules_sound : (nodeRules toVec).Sound (NodeCondition.Held held) (NodeTest.Good toVec held) (NodeCondition.holds node)
    (NodeTest.holds toVec (allFields node)) where
  leaf := normalizeNodeCondition_spec hser hnode
  negated := by
    intro t u ht h
    cases t with
    | property filter =>
      cases filter with
      | propertyExists key =>
        obtain rfl := some.inj h
        exact ⟨trivial, rfl, rfl⟩
      | propertyMissing key =>
        obtain rfl := some.inj h
        exact ⟨trivial, rfl, (not_not _).symm⟩
      | propertyEquals _ _ | propertyIn _ _ _ | propertyRange _ _ _ => cases h
    | idRange _ | keyEquals _ | keyIn _ | updatedAtRange _ _ | weightRange _ | createdAtRange _ => cases h
  contradicts := fun heach h => all_of_pruned_none
    (fun hof hgood => by obtain rfl := NodeTest.property_of hof; exact ⟨hgood, rfl⟩) heach hser hnode.props h
  keeps := fun heach h => all_of_pruned_some
    (fun hof hgood => by obtain rfl := NodeTest.property_of hof; exact ⟨hgood, rfl⟩) heach h
  tests := NodeTest.holds_of_key hser hnode.props

end

inductive EdgeCondition where
  | idRange (range : FlexibleRange ℕ)
  | property (condition : PropertyCondition)
  | weightRange (lower upper : Option F32)
  | updatedAtRange (loMs hiMs : Option ℤ)
  | createdAtRange (range : FlexibleRange ℤ)
  | validAt (epochMs : ℤ)
  | validFromRange (loMs hiMs : Option ℤ)
  | validToRange (loMs hiMs : Option ℤ)

abbrev EdgeFilterExpr := FilterExpr EdgeCondition

inductive EdgeTest where
  | idRange (range : FlexibleRange ℕ)
  | property (filter : PropertyFilter)
  | weightRange (lower upper : Option F32)
  | updatedAtRange (loMs hiMs : ℤ)
  | createdAtRange (range : FlexibleRange ℤ)
  | validAt (epochMs : ℤ)
  | validFromRange (loMs hiMs : ℤ)
  | validToRange (loMs hiMs : ℤ)

abbrev NormalizedEdgeFilter := NormalizedFilter EdgeTest

/-- The condition read plainly. -/
def EdgeCondition.holds (edge : EdgeRecord) : EdgeCondition → Bool
  | .idRange range => range.matches (fun a b => decide (a < b)) (fun a b => decide (a = b)) edge.id
  | .property cond => cond.holds edge.props
  | .weightRange lower upper =>
    !isNan edge.weight && lower.all (fun lower => !floatLt edge.weight lower) && upper.all (fun upper => !floatLt upper edge.weight)
  | .updatedAtRange loMs hiMs => timeInRange loMs hiMs edge.updatedAt
  | .createdAtRange range => range.matches (fun a b => decide (a < b)) (fun a b => decide (a = b)) edge.createdAt
  | .validAt epochMs => decide (edge.validFrom ≤ epochMs) && decide (epochMs < edge.validTo)
  | .validFromRange loMs hiMs => timeInRange loMs hiMs edge.validFrom
  | .validToRange loMs hiMs => timeInRange loMs hiMs edge.validTo

def EdgeFilterExpr.metBy (edge : EdgeRecord) (expr : EdgeFilterExpr) : Bool := expr.meets (EdgeCondition.holds edge)

section
variable (toVec : PropValue → List UInt8)

def EdgeTest.holds (edge : EdgeRecord) : EdgeTest → Bool
  | .idRange range => u64FlexibleRangeMatches edge.id range.lower range.upper range.lowerInclusive range.upperInclusive
  | .property filter => filter.meets toVec edge.props
  | .weightRange lower upper => edgeWeightRangeMatches edge.weight lower upper
  | .updatedAtRange loMs hiMs => i64RangeMatches edge.updatedAt loMs hiMs
  | .createdAtRange range => i64FlexibleRangeMatches edge.createdAt range.lower range.upper range.lowerInclusive range.upperInclusive
  | .validAt epochMs => decide (edge.validFrom ≤ epochMs) && decide (epochMs < edge.validTo)
  | .validFromRange loMs hiMs => i64RangeMatches edge.validFrom loMs hiMs
  | .validToRange loMs hiMs => i64RangeMatches edge.validTo loMs hiMs

def edgeFilterMatches (filter : NormalizedEdgeFilter) (edge : EdgeRecord) : Bool := filter.meets (EdgeTest.holds toVec edge)

def EdgeTest.structuralKey : EdgeTest → List UInt8
  | .idRange range => 15 :: range.bytes u64Bytes 0
  | .property filter => filter.structuralKey toVec
  | .weightRange lower upper => 7 :: (f32Bytes (lower.getD 0) ++ (f32Bytes (upper.getD 0) ++ [flag lower.isSome, flag upper.isSome]))
  | .updatedAtRange loMs hiMs => 8 :: (i64Bytes loMs ++ i64Bytes hiMs)
  | .createdAtRange range => 16 :: range.bytes i64Bytes 0
  | .validAt epochMs => 9 :: i64Bytes epochMs
  | .validFromRange loMs hiMs => 10 :: (i64Bytes loMs ++ i64Bytes hiMs)
  | .validToRange loMs hiMs => 11 :: (i64Bytes loMs ++ i64Bytes hiMs)

def normalizeWeightRange (lower upper : Option F32) : Except String NormalizedEdgeFilter :=
  if lower.isNone && upper.isNone then .error "edge weight range filters require at least one bound"
  else if lower.any isNan || upper.any isNan then .error "edge weight range bounds must not be NaN"
  else if lower.any fun lower => upper.any fun upper => floatLt upper lower then return .alwaysFalse
  else return .test (.weightRange lower upper)

def normalizeTimeCondition (loMs hiMs : Option ℤ) (ctx : String) (test : ℤ → ℤ → EdgeTest) : Except String NormalizedEdgeFilter := do
  match ← normalizeI64Range loMs hiMs ctx with
  | none => return .alwaysFalse
  | some (loMs, hiMs) => return .test (test loMs hiMs)

def normalizeEdgeCondition : EdgeCondition → Except String NormalizedEdgeFilter
  | .idRange range => do
    match ← normalizeU64FlexibleRange range "edge id" with
    | none => return .alwaysFalse
    | some range => return .test (.idRange range)
  | .property cond => normalizePropertyCondition toVec EdgeTest.property "edge " (return .alwaysFalse) cond
  | .weightRange lower upper => normalizeWeightRange lower upper
  | .updatedAtRange loMs hiMs => normalizeTimeCondition loMs hiMs "edge updated-at" .updatedAtRange
  | .createdAtRange range => do
    match ← normalizeI64FlexibleRange range "edge created-at" with
    | none => return .alwaysFalse
    | some range => return .test (.createdAtRange range)
  | .validAt epochMs => return .test (.validAt epochMs)
  | .validFromRange loMs hiMs => normalizeTimeCondition loMs hiMs "edge valid-from" .validFromRange
  | .validToRange loMs hiMs => normalizeTimeCondition loMs hiMs "edge valid-to" .validToRange

def EdgeTest.asProperty : EdgeTest → Option PropertyFilter
  | .property filter => some filter
  | _ => none

def EdgeTest.negated : EdgeTest → Option EdgeTest
  | .property (.propertyExists key) => some (.property (.propertyMissing key))
  | .property (.propertyMissing key) => some (.property (.propertyExists key))
  | _ => none

/-- Other than for nodes, a membership test needs its key to be there. -/
def edgeRules : Rules EdgeCondition EdgeTest where
  leaf := normalizeEdgeCondition toVec
  negated := EdgeTest.negated
  prune := pruneConjunction EdgeTest.asProperty true
  testKey := EdgeTest.structuralKey toVec
  andTag := 12
  orTag := 13
  notTag := 14
  emptyAnd := "edge and filters must contain at least one child"
  emptyOr := "edge or filters must contain at least one child"

def normalizeEdgeFilterExpr (expr : EdgeFilterExpr) : Except String NormalizedEdgeFilter := (edgeRules toVec).normalize expr

def edgeStructuralKey (filter : NormalizedEdgeFilter) : List UInt8 := (edgeRules toVec).structuralKey filter

end

def EdgeCondition.Held (held : PropValue → Prop) : EdgeCondition → Prop
  | .idRange range => (∀ bound ∈ range.lower, FitsU64 bound) ∧ ∀ bound ∈ range.upper, FitsU64 bound
  | .property cond => cond.Held held
  | .updatedAtRange loMs hiMs | .validFromRange loMs hiMs | .validToRange loMs hiMs =>
    (∀ bound ∈ loMs, FitsI64 bound) ∧ ∀ bound ∈ hiMs, FitsI64 bound
  | .createdAtRange range => (∀ bound ∈ range.lower, FitsI64 bound) ∧ ∀ bound ∈ range.upper, FitsI64 bound
  | .validAt epochMs => FitsI64 epochMs
  | .weightRange _ _ => True

def EdgeTest.Good (toVec : PropValue → List UInt8) (held : PropValue → Prop) : EdgeTest → Prop
  | .idRange range => (∀ bound ∈ range.lower, FitsU64 bound) ∧ ∀ bound ∈ range.upper, FitsU64 bound
  | .property filter => filter.Good toVec held
  | .updatedAtRange loMs hiMs | .validFromRange loMs hiMs | .validToRange loMs hiMs => FitsI64 loMs ∧ FitsI64 hiMs
  | .createdAtRange range => (∀ bound ∈ range.lower, FitsI64 bound) ∧ ∀ bound ∈ range.upper, FitsI64 bound
  | .validAt epochMs => FitsI64 epochMs
  | .weightRange _ _ => True

def EdgeTest.kind : EdgeTest → UInt8
  | .idRange _ => 15
  | .property _ => 2
  | .weightRange _ _ => 7
  | .updatedAtRange _ _ => 8
  | .createdAtRange _ => 16
  | .validAt _ => 9
  | .validFromRange _ _ => 10
  | .validToRange _ _ => 11

theorem EdgeTest.kind_eq (toVec : PropValue → List UInt8) (t : EdgeTest) : t.kind = propertyKind ((t.structuralKey toVec).headD 0) := by
  cases t with
  | property filter => exact (propertyKind_key toVec filter).symm
  | idRange _ | weightRange _ _ | updatedAtRange _ _ | createdAtRange _ | validAt _ | validFromRange _ _ | validToRange _ _ => rfl

theorem edgeRules_tagged (toVec : PropValue → List UInt8) : (edgeRules toVec).Tagged where
  nodup := by
    change ([0, 1, 12, 13, 14] : List UInt8).Nodup
    decide
  tests t := by
    change ∃ tag rest, t.structuralKey toVec = tag :: rest ∧ tag ∉ ([0, 1, 12, 13, 14] : List UInt8)
    cases t with
    | property filter => cases filter <;> exact ⟨_, _, rfl, by decide⟩
    | idRange _ | weightRange _ _ | updatedAtRange _ _ | createdAtRange _ | validAt _ | validFromRange _ _ | validToRange _ _ =>
      exact ⟨_, _, rfl, by decide⟩

section
variable {toVec : PropValue → List UInt8} {held : PropValue → Prop} (hser : Serializes toVec held)
  {edge : EdgeRecord} (hps : ∀ {key value}, edge.props.lookup key = some value → held value)
include hser hps

theorem EdgeTest.holds_of_key (t u : EdgeTest) (ht : t.Good toVec held) (hu : u.Good toVec held)
    (hlen : (t.structuralKey toVec).length < 2 ^ 64) (h : t.structuralKey toVec = u.structuralKey toVec) :
    t.holds toVec edge = u.holds toVec edge := by
  have hkind : t.kind = u.kind := by rw [t.kind_eq toVec, u.kind_eq toVec, h]
  cases t <;> cases u <;> try exact absurd hkind (by rw [kind, kind]; decide)
  case idRange.idRange => rw [u64Range_inj ht hu (List.cons.inj h).2]
  case property.property => exact PropertyFilter.meets_of_key hser ht hu hlen h hps
  case weightRange.weightRange =>
    have hbs := (List.cons.inj h).2
    obtain ⟨hlo, hbs⟩ := append_inj hbs (by rw [f32Bytes, f32Bytes, length_beBytes, length_beBytes])
    obtain ⟨hup, hbs⟩ := append_inj hbs (by rw [f32Bytes, f32Bytes, length_beBytes, length_beBytes])
    obtain ⟨hlowerSome, hbs⟩ := List.cons.inj hbs
    obtain ⟨hupperSome, -⟩ := List.cons.inj hbs
    rw [option_of_getD (flag_inj hlowerSome) (f32Bytes_inj hlo), option_of_getD (flag_inj hupperSome) (f32Bytes_inj hup)]
  case updatedAtRange.updatedAtRange | validFromRange.validFromRange | validToRange.validToRange =>
    obtain ⟨rfl, rfl⟩ := i64Pair_inj ht hu (List.cons.inj h).2
    rfl
  case createdAtRange.createdAtRange => rw [i64Range_inj ht hu (List.cons.inj h).2]
  case validAt.validAt => rw [i64Bytes_inj ht hu (List.cons.inj h).2]

end

structure EdgeHeld (held : PropValue → Prop) (edge : EdgeRecord) : Prop where
  props : ∀ {key value}, edge.props.lookup key = some value → held value
  updatedAt : FitsI64 edge.updatedAt
  validFrom : FitsI64 edge.validFrom
  validTo : FitsI64 edge.validTo

/-- No weight is at least one bound and at most a smaller one. -/
theorem weightRange_crossed {lower upper : Option F32} {edge : EdgeRecord}
    (h : (lower.any fun lower => upper.any fun upper => floatLt upper lower) = true) :
    (EdgeCondition.weightRange lower upper).holds edge = false := by
  obtain ⟨low, rfl, hup⟩ := (any_eq_true _ _).mp h
  obtain ⟨high, rfl, hless⟩ := (any_eq_true _ _).mp hup
  rw [floatLt, and_eq_true, and_eq_true, not_eq_true', not_eq_true', decide_eq_true_iff] at hless
  obtain ⟨⟨hhigh, hlow⟩, hx⟩ := hless
  rw [EdgeCondition.holds]
  cases hnan : isNan edge.weight with
  | true => rfl
  | false =>
    rw [all_some, all_some, (floatLt_eq hnan hlow).1, (floatLt_eq hhigh hnan).1]
    rcases lt_or_ge (orderValue edge.weight) (orderValue low) with hbel | hab
    · rw [decide_eq_true hbel]
      rfl
    · rw [decide_eq_true (hx.trans_le hab), Bool.not_true, Bool.and_false]

section
variable {toVec : PropValue → List UInt8} {held : PropValue → Prop} {norm : NormalizedEdgeFilter}

theorem normalizeTimeCondition_spec {loMs hiMs : Option ℤ} {ctx : String} {test : ℤ → ℤ → EdgeTest}
    {edge : EdgeRecord} {time : ℤ} (htime : FitsI64 time)
    (hbds : (∀ bound ∈ loMs, FitsI64 bound) ∧ ∀ bound ∈ hiMs, FitsI64 bound)
    (h : normalizeTimeCondition loMs hiMs ctx test = .ok norm)
    (hgood : ∀ lower upper, FitsI64 lower ∧ FitsI64 upper → (test lower upper).Good toVec held)
    (hhol : ∀ lower upper, (test lower upper).holds toVec edge = i64RangeMatches time lower upper) :
    norm.Each (EdgeTest.Good toVec held) ∧ norm.meets (EdgeTest.holds toVec edge) = timeInRange loMs hiMs time := by
  obtain ⟨res, hres, h⟩ := bind_ok h
  rcases normalizeI64Range_ok hres with ⟨rfl, hnil⟩ | rfl
  · obtain rfl := ok.inj h
    exact ⟨.alwaysFalse, (hnil time htime).symm⟩
  · obtain rfl := ok.inj h
    refine ⟨.test (hgood _ _ ⟨fits_getD (by rw [FitsI64, i64Min, i64Max]; decide) hbds.1,
      fits_getD (by rw [FitsI64, i64Min, i64Max]; decide) hbds.2⟩), ?_⟩
    rw [timeInRange_eq htime]
    exact hhol _ _

variable (hser : Serializes toVec held) {edge : EdgeRecord} (hedge : EdgeHeld held edge)
include hser hedge

theorem normalizeEdgeCondition_spec {cond : EdgeCondition}
    (hcond : cond.Held held) (h : normalizeEdgeCondition toVec cond = .ok norm) :
    norm.Each (EdgeTest.Good toVec held) ∧ norm.meets (EdgeTest.holds toVec edge) = cond.holds edge := by
  cases cond with
  | idRange range =>
    obtain ⟨res, hres, h⟩ := bind_ok h
    rcases normalizeFlexibleRange_ok hres with ⟨rfl, hemp⟩ | rfl
    · obtain rfl := ok.inj h
      exact ⟨.alwaysFalse, (u64_empty hemp edge.id).symm⟩
    · obtain rfl := ok.inj h
      exact ⟨.test hcond, rfl⟩
  | property cond =>
    refine normalizePropertyCondition_spec hser hedge.props ?_ hcond ?_ ?_ h
    · exact fun _ hemp => (ok.inj hemp).symm
    · exact fun _ hgood => hgood
    · exact fun _ => rfl
  | weightRange lower upper =>
    have hpl : (EdgeTest.weightRange lower upper).holds toVec edge = (EdgeCondition.weightRange lower upper).holds edge := by
      cases lower <;> cases upper <;> rfl
    change normalizeWeightRange lower upper = .ok norm at h
    rw [normalizeWeightRange] at h
    split at h
    · cases h
    split at h
    · cases h
    split at h
    · rename_i hx
      obtain rfl := ok.inj h
      exact ⟨.alwaysFalse, (weightRange_crossed hx).symm⟩
    · obtain rfl := ok.inj h
      exact ⟨.test trivial, hpl⟩
  | updatedAtRange loMs hiMs => exact normalizeTimeCondition_spec hedge.updatedAt hcond h (fun _ _ hfits => hfits) fun _ _ => rfl
  | createdAtRange range =>
    obtain ⟨res, hres, h⟩ := bind_ok h
    rcases normalizeFlexibleRange_ok hres with ⟨rfl, hemp⟩ | rfl
    · obtain rfl := ok.inj h
      exact ⟨.alwaysFalse, (i64_empty hemp edge.createdAt).symm⟩
    · obtain rfl := ok.inj h
      exact ⟨.test hcond, rfl⟩
  | validAt epochMs =>
    obtain rfl := ok.inj h
    exact ⟨.test hcond, rfl⟩
  | validFromRange loMs hiMs => exact normalizeTimeCondition_spec hedge.validFrom hcond h (fun _ _ hfits => hfits) fun _ _ => rfl
  | validToRange loMs hiMs => exact normalizeTimeCondition_spec hedge.validTo hcond h (fun _ _ hfits => hfits) fun _ _ => rfl

omit hser hedge in
theorem EdgeTest.property_of {t : EdgeTest} {filter : PropertyFilter} (h : t.asProperty = some filter) : t = .property filter := by
  cases t with
  | property other => exact congrArg _ (some.inj h)
  | idRange _ | weightRange _ _ | updatedAtRange _ _ | createdAtRange _ | validAt _ | validFromRange _ _ | validToRange _ _ => cases h

theorem edgeRules_sound : (edgeRules toVec).Sound (EdgeCondition.Held held) (EdgeTest.Good toVec held) (EdgeCondition.holds edge)
    (EdgeTest.holds toVec edge) where
  leaf := normalizeEdgeCondition_spec hser hedge
  negated := by
    intro t u ht h
    cases t with
    | property filter =>
      cases filter with
      | propertyExists key =>
        obtain rfl := some.inj h
        exact ⟨trivial, rfl, rfl⟩
      | propertyMissing key =>
        obtain rfl := some.inj h
        exact ⟨trivial, rfl, (not_not _).symm⟩
      | propertyEquals _ _ | propertyIn _ _ _ | propertyRange _ _ _ => cases h
    | idRange _ | weightRange _ _ | updatedAtRange _ _ | createdAtRange _ | validAt _ | validFromRange _ _ | validToRange _ _ => cases h
  contradicts := fun heach h => all_of_pruned_none
    (fun hof hgood => by obtain rfl := EdgeTest.property_of hof; exact ⟨hgood, rfl⟩) heach hser hedge.props h
  keeps := fun heach h => all_of_pruned_some
    (fun hof hgood => by obtain rfl := EdgeTest.property_of hof; exact ⟨hgood, rfl⟩) heach h
  tests := EdgeTest.holds_of_key hser hedge.props

end

section
variable (toVec : PropValue → List UInt8) (held : PropValue → Prop)

/-- The constants are those the program can hold, and the keys have lengths that are written in eight
bytes. -/
def NodeFilterExpr.Held (expr : NodeFilterExpr) : Prop := expr.Each (NodeCondition.Held held) ∧ (nodeRules toVec).size expr < 2 ^ 64

def EdgeFilterExpr.Held (expr : EdgeFilterExpr) : Prop := expr.Each (EdgeCondition.Held held) ∧ (edgeRules toVec).size expr < 2 ^ 64

/-- What a normalization promises about the records of one kind. -/
structure PreservesMeaning {Expr Filter Record : Type} (normalize : Expr → Except String Filter) (structuralKey : Filter → List UInt8)
    (conjunction : List Expr → Expr) (contradiction : Filter) (metBy : Record → Expr → Bool) (satisfies : Filter → Record → Bool)
    (exprHeld : Expr → Prop) (recordHeld : Record → Prop) : Prop where
  meaning : ∀ expr filter, exprHeld expr → normalize expr = .ok filter →
    ∀ record, recordHeld record → satisfies filter record = metBy record expr
  satisfiable : ∀ children, exprHeld (conjunction children) → normalize (conjunction children) = .ok contradiction →
    ∀ record, recordHeld record → metBy record (conjunction children) = false
  keys : ∀ left right leftFilter rightFilter, exprHeld left → exprHeld right → normalize left = .ok leftFilter →
    normalize right = .ok rightFilter → structuralKey leftFilter = structuralKey rightFilter →
    ∀ record, recordHeld record → satisfies leftFilter record = satisfies rightFilter record

theorem preserves_of_sound {Leaf Test Record : Type} {rules : Rules Leaf Test} {fits : Leaf → Prop} {good : Test → Prop}
    {leafHolds : Record → Leaf → Bool} {holds : Record → Test → Bool} {recordHeld : Record → Prop} (htags : rules.Tagged)
    (hsd : ∀ r, recordHeld r → rules.Sound fits good (leafHolds r) (holds r)) :
    PreservesMeaning rules.normalize rules.structuralKey .and .alwaysFalse (fun r expr => expr.meets (leafHolds r))
      (fun filter r => filter.meets (holds r)) (fun expr => expr.Each fits ∧ rules.size expr < 2 ^ 64) recordHeld where
  meaning := by
    intro expr filter hexpr hnrm r hrec
    exact ((hsd r hrec).standsFor htags expr filter hexpr.1 hexpr.2 hnrm).meets
  satisfiable := by
    intro kids hexpr hnrm r hrec
    have hstands := (hsd r hrec).standsFor htags _ _ hexpr.1 hexpr.2 hnrm
    rw [← hstands.meets]
    rfl
  keys := by
    intro left right leftFilter rightFilter hleft hrt hnrm hnorm' hkey r hrec
    have hleftStands := (hsd r hrec).standsFor htags left leftFilter hleft.1 hleft.2 hnrm
    have hrightStands := (hsd r hrec).standsFor htags right rightFilter hrt.1 hrt.2 hnorm'
    exact Rules.meets_of_key htags (hsd r hrec).tests leftFilter rightFilter hleftStands.each hrightStands.each
      (hleftStands.length.trans_lt hleft.2) hkey

/-- Normalizing a filter of nodes or of edges preserves its meaning. -/
theorem normalization_preserves_meaning (hser : Serializes toVec held) :
    PreservesMeaning (normalizeNodeFilterExpr toVec) (nodeStructuralKey toVec) .and .alwaysFalse NodeFilterExpr.metBy
        (fun filter node => nodeFilterProjectedMatches toVec filter (allFields node)) (NodeFilterExpr.Held toVec held) (NodeHeld held) ∧
      PreservesMeaning (normalizeEdgeFilterExpr toVec) (edgeStructuralKey toVec) .and .alwaysFalse EdgeFilterExpr.metBy
        (edgeFilterMatches toVec) (EdgeFilterExpr.Held toVec held) (EdgeHeld held) :=
  ⟨preserves_of_sound (nodeRules_tagged toVec) fun _ hnode => nodeRules_sound hser hnode,
    preserves_of_sound (edgeRules_tagged toVec) fun _ hedge => edgeRules_sound hser hedge⟩

def nullNode : NodeRecord := ⟨1, NodeLabelSet.single 1 Nat.one_ne_zero, "n", (∅ : Props).insert "k" .null, 0, 0, 0, none, none, 0⟩

theorem normalization_preserves_meaning_null :
    nodeFilterProjectedMatches namedForms (.test (.property (.propertyEquals "k" .null))) (allFields nullNode) =
      NodeFilterExpr.metBy nullNode
        (.and [.leaf (.property (.propertyExists "k")), .leaf (.property (.propertyEquals "k" .null))]) := by
  have hser : Serializes namedForms fun value => value = .null := by
    constructor
    · rintro value rfl
      rw [WellFormed]
      trivial
    · rintro a b rfl rfl -
      rfl
  refine (normalization_preserves_meaning namedForms _ hser).1.meaning _ _ ⟨?_, ?_⟩ ?_ nullNode ⟨?_, ?_⟩
  · refine .and fun child hchild => ?_
    rcases mem_cons.mp hchild with rfl | hchild
    · exact .leaf trivial
    · obtain rfl := mem_singleton.mp hchild
      exact .leaf rfl
  · decide
  · rfl
  · intro key value h
    by_cases hkey : key = "k"
    · subst hkey
      exact (some.inj h).symm
    · rw [nullNode, AList.lookup_insert_ne hkey] at h
      cases h
  · rw [FitsI64]
    decide

end

section
variable (toVec : PropValue → List UInt8)

def valueTest : PropertyFilter → PropValue → Bool
  | .propertyEquals _ value => (semanticEq · value)
  | .propertyIn _ vs valueKeys => (propertyInFilterMatches toVec · vs valueKeys)
  | .propertyRange _ lower upper => (PropertyValues.numericRangeValueWithinBounds · lower upper)
  | .propertyExists _ => fun _ => true
  | .propertyMissing _ => fun _ => false

def NodeTest.checked : NodeTest → NodeFilters.NormalizedNodeFilter
  | .idRange range => .idRange range.lower range.upper range.lowerInclusive range.upperInclusive
  | .keyEquals value => .keyEquals value
  | .keyIn vs => .keyIn vs
  | .property (.propertyExists key) => .propertyExists key
  | .property (.propertyMissing key) => .propertyMissing key
  | .property (.propertyEquals key value) => .property key (valueTest toVec (.propertyEquals key value))
  | .property (.propertyIn key vs valueKeys) => .property key (valueTest toVec (.propertyIn key vs valueKeys))
  | .property (.propertyRange key lower upper) => .property key (valueTest toVec (.propertyRange key lower upper))
  | .updatedAtRange loMs hiMs => .updatedAtRange loMs hiMs
  | .weightRange range => .weightRange range.lower range.upper range.lowerInclusive range.upperInclusive
  | .createdAtRange range => .createdAtRange range.lower range.upper range.lowerInclusive range.upperInclusive

mutual

def checkedNodeFilter : NormalizedNodeFilter → NodeFilters.NormalizedNodeFilter
  | .alwaysTrue => .alwaysTrue
  | .alwaysFalse => .alwaysFalse
  | .test t => t.checked toVec
  | .and kids => .and (checkedNodeFilters kids)
  | .or kids => .or (checkedNodeFilters kids)
  | .not child => .not (checkedNodeFilter child)

def checkedNodeFilters : List NormalizedNodeFilter → List NodeFilters.NormalizedNodeFilter
  | [] => []
  | child :: kids => checkedNodeFilter child :: checkedNodeFilters kids

end

theorem checkedNodeFilter_matches (sel : SelectedNodeFields) (filter : NormalizedNodeFilter) :
    NodeFilters.nodeFilterProjectedMatches sel (checkedNodeFilter toVec filter) = nodeFilterProjectedMatches toVec filter sel := by
  induction filter using NormalizedFilter.inductOn with
  | alwaysTrue | alwaysFalse => rfl
  | test t =>
    cases t with
    | property filter => cases filter <;> rfl
    | idRange _ | keyEquals _ | keyIn _ | updatedAtRange _ _ | weightRange _ | createdAtRange _ => rfl
  | and kids ih =>
    rw [nodeFilterProjectedMatches, NormalizedFilter.meets_and, checkedNodeFilter, NodeFilters.nodeFilterProjectedMatches]
    induction kids with
    | nil => rfl
    | cons child kids ihChildren =>
      rw [checkedNodeFilters, NodeFilters.allProjectedMatch, ih child mem_cons_self,
        ihChildren fun other hoth => ih other (mem_cons_of_mem _ hoth), all_cons]
      rfl
  | or kids ih =>
    rw [nodeFilterProjectedMatches, NormalizedFilter.meets_or, checkedNodeFilter, NodeFilters.nodeFilterProjectedMatches]
    induction kids with
    | nil => rfl
    | cons child kids ihChildren =>
      rw [checkedNodeFilters, NodeFilters.anyProjectedMatch, ih child mem_cons_self,
        ihChildren fun other hoth => ih other (mem_cons_of_mem _ hoth), any_cons]
      rfl
  | not child ih =>
    rw [checkedNodeFilter, NodeFilters.nodeFilterProjectedMatches, ih]
    rfl

def EdgeTest.checked : EdgeTest → EdgeCandidates.NormalizedEdgeFilter
  | .idRange range => .idRange range.lower range.upper range.lowerInclusive range.upperInclusive
  | .property (.propertyExists key) => .propertyExists key
  | .property (.propertyMissing key) => .propertyMissing key
  | .property (.propertyEquals key value) => .property key (valueTest toVec (.propertyEquals key value))
  | .property (.propertyIn key vs valueKeys) => .property key (valueTest toVec (.propertyIn key vs valueKeys))
  | .property (.propertyRange key lower upper) => .property key (valueTest toVec (.propertyRange key lower upper))
  | .weightRange lower upper => .weightRange lower upper
  | .updatedAtRange loMs hiMs => .updatedAtRange loMs hiMs
  | .createdAtRange range => .createdAtRange range.lower range.upper range.lowerInclusive range.upperInclusive
  | .validAt epochMs => .validAt epochMs
  | .validFromRange loMs hiMs => .validFromRange loMs hiMs
  | .validToRange loMs hiMs => .validToRange loMs hiMs

mutual

def checkedEdgeFilter : NormalizedEdgeFilter → EdgeCandidates.NormalizedEdgeFilter
  | .alwaysTrue => .alwaysTrue
  | .alwaysFalse => .alwaysFalse
  | .test t => t.checked toVec
  | .and kids => .and (checkedEdgeFilters kids)
  | .or kids => .or (checkedEdgeFilters kids)
  | .not child => .not (checkedEdgeFilter child)

def checkedEdgeFilters : List NormalizedEdgeFilter → List EdgeCandidates.NormalizedEdgeFilter
  | [] => []
  | child :: kids => checkedEdgeFilter child :: checkedEdgeFilters kids

end

theorem checkedEdgeFilter_matches (edge : EdgeRecord) (filter : NormalizedEdgeFilter) :
    EdgeCandidates.edgeFilterMatches edge (checkedEdgeFilter toVec filter) = edgeFilterMatches toVec filter edge := by
  induction filter using NormalizedFilter.inductOn with
  | alwaysTrue | alwaysFalse => rfl
  | test t =>
    cases t with
    | property filter => cases filter <;> rfl
    | idRange _ | weightRange _ _ | updatedAtRange _ _ | createdAtRange _ | validAt _ | validFromRange _ _ | validToRange _ _ => rfl
  | and kids ih =>
    rw [edgeFilterMatches, NormalizedFilter.meets_and, checkedEdgeFilter, EdgeCandidates.edgeFilterMatches]
    induction kids with
    | nil => rfl
    | cons child kids ihChildren =>
      rw [checkedEdgeFilters, EdgeCandidates.allEdgeMatch, ih child mem_cons_self,
        ihChildren fun other hoth => ih other (mem_cons_of_mem _ hoth), all_cons]
      rfl
  | or kids ih =>
    rw [edgeFilterMatches, NormalizedFilter.meets_or, checkedEdgeFilter, EdgeCandidates.edgeFilterMatches]
    induction kids with
    | nil => rfl
    | cons child kids ihChildren =>
      rw [checkedEdgeFilters, EdgeCandidates.anyEdgeMatch, ih child mem_cons_self,
        ihChildren fun other hoth => ih other (mem_cons_of_mem _ hoth), any_cons]
      rfl
  | not child ih =>
    rw [checkedEdgeFilter, EdgeCandidates.edgeFilterMatches, ih]
    rfl

end

end OverGraph.FilterNormalization
