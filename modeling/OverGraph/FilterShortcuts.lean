import OverGraph.FilterNormalization

/-!
# Shortcuts of the evaluation of filters

What the metadata of a record decides is not evaluated again, and a long list of values is not
compared value by value: it is searched for the bytes of the candidate by halving. Both answer what
the evaluation of the filter on the full record answers.
-/

namespace OverGraph.FilterShortcuts
open Records Sources Bisection FilterTrees PropertyFilters FilterConditions SemanticEquality FilterNormalization List
open NodeFilters (nodeFilterMetadataOutcome projectedMatches_of_outcome)

/-- The position of the target, found by halving. -/
def halvingSearch (keys : List (List UInt8)) (target : List UInt8) : Option ℕ :=
  (bisect (fun entry => compare entry.1 target) keys.zipIdx).map Prod.snd

variable {keys : List (List UInt8)}

section
variable (h : keys.Pairwise fun a b => compare a b = .lt) (tgt : List UInt8)
include h

theorem ordered_zipIdx : Ordered (fun entry => compare entry.1 tgt) keys.zipIdx := by
  have hkeys : (keys.zipIdx.map Prod.fst).Pairwise fun a b => compare a b = .lt := by rwa [zipIdx_map_fst]
  exact ordered_compare (pairwise_map.mp hkeys) tgt

/-- In an ascending list there is one position to find. -/
theorem halvingSearch_eq : halvingSearch keys tgt = binarySearch keys tgt := by
  rw [halvingSearch, binarySearch]
  cases hfnd : keys.findIdx? fun key => decide (key = tgt) with
  | none =>
    rw [Option.map_eq_none_iff, bisect_eq_none_iff (ordered_zipIdx h tgt)]
    intro entry hent hside
    have hkey := findIdx?_eq_none_iff.mp hfnd entry.1 (fst_mem_of_mem_zipIdx hent)
    exact of_decide_eq_false hkey (Std.LawfulEqCmp.eq_of_compare hside)
  | some idx =>
    obtain ⟨hix, hkey, -⟩ := findIdx?_eq_some_iff_getElem.mp hfnd
    have htgt : keys[idx] = tgt := of_decide_eq_true hkey
    cases hbisect : bisect (fun entry => compare entry.1 tgt) keys.zipIdx with
    | none =>
      have hmem : (keys[idx], idx) ∈ keys.zipIdx := mk_mem_zipIdx_iff_getElem?.mpr (getElem?_eq_getElem hix)
      exact absurd (by rw [htgt]; exact Std.ReflCmp.compare_self)
        ((bisect_eq_none_iff (ordered_zipIdx h tgt)).mp hbisect _ hmem)
    | some entry =>
      obtain ⟨hmem, hside⟩ := mem_of_bisect hbisect
      obtain ⟨hoth, hat⟩ := List.getElem?_eq_some_iff.mp (List.mk_mem_zipIdx_iff_getElem?.mp hmem)
      have hsame : keys[entry.2] = tgt := hat.trans (Std.LawfulEqCmp.eq_of_compare hside)
      have hnd : keys.Nodup := h.imp fun {a b} hab heq => by
        have hself : compare b b = .eq := Std.ReflCmp.compare_self
        rw [heq, hself] at hab
        cases hab
      rw [Option.map_some, (List.Nodup.getElem_inj_iff hnd).mp (hsame.trans htgt.symm)]

end

section
variable (toVec : PropValue → List UInt8) {held : PropValue → Prop}

def SearchAgrees (held : PropValue → Prop) : PropertyFilter → Prop
  | .propertyIn _ vs valueKeys => ∀ c, held c →
    halvingSearch valueKeys (propValueCanonicalBytes toVec c) = binarySearch valueKeys (propValueCanonicalBytes toVec c) ∧
      propertyInFilterMatches toVec c vs valueKeys = vs.any (semanticEq c)
  | .propertyEquals _ _ | .propertyRange _ _ _ | .propertyExists _ | .propertyMissing _ => True

variable {toVec}

theorem searchAgrees_of_good (hser : Serializes toVec held) {filter : PropertyFilter} (h : filter.Good toVec held) :
    SearchAgrees toVec held filter := by
  cases filter with
  | propertyIn key vs valueKeys =>
    obtain ⟨hvals, hkeys, hasc⟩ := h
    exact fun c hcand => ⟨halvingSearch_eq hasc _, propertyInFilterMatches_eq hser hcand hvals hkeys⟩
  | propertyEquals _ _ | propertyRange _ _ _ | propertyExists _ | propertyMissing _ => trivial

/-- The tests of properties in what the rules make of an expression can be searched. -/
theorem each_searchAgrees {Leaf Test : Type} {rules : Rules Leaf Test} {fits : Leaf → Prop} {good : Test → Prop} {leafHolds : Leaf → Bool}
    {holds : Test → Bool} (htags : rules.Tagged) (hsd : rules.Sound fits good leafHolds holds) {property : Test → Option PropertyFilter}
    (hgood : ∀ t filter, good t → property t = some filter → SearchAgrees toVec held filter) {expr : FilterExpr Leaf}
    {normalized : NormalizedFilter Test} (hexpr : expr.Each fits ∧ rules.size expr < 2 ^ 64)
    (h : rules.normalize expr = .ok normalized) :
    normalized.Each fun t => ∀ filter, property t = some filter → SearchAgrees toVec held filter := by
  have heach := (hsd.standsFor htags expr normalized hexpr.1 hexpr.2 h).each
  exact heach.imp fun t ht filter => hgood t filter ht

/-- A node without properties. -/
def bareNode : NodeRecord := ⟨1, NodeLabelSet.single 1 Nat.one_ne_zero, "", ∅, 0, 0, 0, none, none, 0⟩

theorem bareNode_held : NodeHeld held bareNode := by
  constructor
  · intro key value h
    cases h
  · rw [FitsI64]
    decide

def bareEdge : EdgeRecord := ⟨1, 1, 1, 1, ∅, 0, 0, 0, 0, 0, 0⟩

theorem bareEdge_held : EdgeHeld held bareEdge := by
  constructor
  · intro key value h
    cases h
  all_goals
    rw [FitsI64]
    decide

/-- The metadata decides only what the full record says, and the search of a long list answers what its
values answer one by one. -/
theorem shortcuts_agree (hserial : Serializes toVec held) :
    (∀ (filter : NormalizedNodeFilter) (selected : SelectedNodeFields) (b : Bool),
      nodeFilterMetadataOutcome selected.info (checkedNodeFilter toVec filter) = some b →
        nodeFilterProjectedMatches toVec filter selected = b) ∧
      (∀ (filter : NormalizedEdgeFilter) (edge : EdgeRecord) (b : Bool),
        EdgeCandidates.edgeFilterMetadataOutcome edge (checkedEdgeFilter toVec filter) = some b →
          edgeFilterMatches toVec filter edge = b) ∧
      (∀ (expr : NodeFilterExpr) (normalized : NormalizedNodeFilter), NodeFilterExpr.Held toVec held expr →
        normalizeNodeFilterExpr toVec expr = .ok normalized →
          normalized.Each fun t => ∀ filter, t.asProperty = some filter → SearchAgrees toVec held filter) ∧
      ∀ (expr : EdgeFilterExpr) (normalized : NormalizedEdgeFilter), EdgeFilterExpr.Held toVec held expr →
        normalizeEdgeFilterExpr toVec expr = .ok normalized →
          normalized.Each fun t => ∀ filter, t.asProperty = some filter → SearchAgrees toVec held filter := by
  refine ⟨?_, ?_, ?_, ?_⟩
  · intro filter selected b h
    rw [← checkedNodeFilter_matches]
    exact projectedMatches_of_outcome selected _ b h
  · intro filter edge b h
    rw [← checkedEdgeFilter_matches]
    exact EdgeCandidates.edgeMatches_of_outcome edge _ b h
  · intro expr normalized hexpr h
    refine each_searchAgrees (nodeRules_tagged toVec) (nodeRules_sound hserial bareNode_held) ?_ hexpr h
    intro t filter ht hproperty
    rw [NodeTest.property_of hproperty] at ht
    exact searchAgrees_of_good hserial ht
  · intro expr normalized hexpr h
    refine each_searchAgrees (edgeRules_tagged toVec) (edgeRules_sound hserial bareEdge_held) ?_ hexpr h
    intro t filter ht hproperty
    rw [EdgeTest.property_of hproperty] at ht
    exact searchAgrees_of_good hserial ht

theorem shortcuts_agree_null : nodeFilterProjectedMatches namedForms
      (.or [.test (.updatedAtRange 0 5), .test (.property (.propertyEquals "k" .null))]) (allFields bareNode) = true := by
  have hserial : Serializes namedForms fun value => value = .null := by
    constructor
    · rintro value rfl
      rw [WellFormed]
      trivial
    · rintro a b rfl rfl -
      rfl
  exact (shortcuts_agree hserial).1 _ _ true rfl

end

end OverGraph.FilterShortcuts
