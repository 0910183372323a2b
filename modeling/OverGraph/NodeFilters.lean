import OverGraph.KeyedReads
import OverGraph.PrunePolicies

/-!
# Node queries and the check of their candidates

A query restricts labels, identifiers and keys, and carries a tree of tests. A candidate
is checked in two steps: what its metadata decides is decided first, and only where that
does not settle the tree are the fields it tests read.
-/

namespace OverGraph.NodeFilters
open Records LayeredWrites Sources SourceList PrunePolicies FloatOrder BatchLookup List

def flexibleRangeMatches {α : Type} (lt eq : α → α → Bool) (value : α) (lower upper : Option α)
    (lowerInclusive upperInclusive : Bool) : Bool :=
  lower.all (fun lower => !(lt value lower || (eq value lower && !lowerInclusive))) &&
    upper.all (fun upper => !(lt upper value || (eq value upper && !upperInclusive)))

def u64FlexibleRangeMatches : ℕ → Option ℕ → Option ℕ → Bool → Bool → Bool :=
  flexibleRangeMatches (fun a b => decide (a < b)) (fun a b => decide (a = b))

def i64FlexibleRangeMatches : ℤ → Option ℤ → Option ℤ → Bool → Bool → Bool :=
  flexibleRangeMatches (fun a b => decide (a < b)) (fun a b => decide (a = b))

def f32FlexibleRangeMatches (value : F32) (lower upper : Option F32) (lowerInclusive upperInclusive : Bool) : Bool :=
  !isNan value && flexibleRangeMatches floatLt floatEq value lower upper lowerInclusive upperInclusive

inductive NormalizedNodeFilter where
  | alwaysTrue
  | alwaysFalse
  | idRange (lower upper : Option ℕ) (lowerInclusive upperInclusive : Bool)
  | keyEquals (value : String)
  | keyIn (values : List String)
  | property (key : String) (test : PropValue → Bool)
  | propertyExists (key : String)
  | propertyMissing (key : String)
  | updatedAtRange (loMs hiMs : ℤ)
  | weightRange (lower upper : Option F32) (lowerInclusive upperInclusive : Bool)
  | createdAtRange (lower upper : Option ℤ) (lowerInclusive upperInclusive : Bool)
  | and (children : List NormalizedNodeFilter)
  | or (children : List NormalizedNodeFilter)
  | not (child : NormalizedNodeFilter)

mutual

def nodeFilterProjectedMatches (selected : SelectedNodeFields) : NormalizedNodeFilter → Bool
  | .alwaysTrue => true
  | .alwaysFalse => false
  | .idRange lower upper li ui => u64FlexibleRangeMatches selected.info.id lower upper li ui
  | .keyEquals value => decide (selected.key = some value)
  | .keyIn vs => selected.key.any (vs.contains ·)
  | .property key test => (selected.props.lookup key).any test
  | .propertyExists key => (selected.props.lookup key).isSome
  | .propertyMissing key => !(selected.props.lookup key).isSome
  | .updatedAtRange loMs hiMs => decide (loMs ≤ selected.info.updatedAt) && decide (selected.info.updatedAt ≤ hiMs)
  | .weightRange lower upper li ui => f32FlexibleRangeMatches selected.info.weight lower upper li ui
  | .createdAtRange lower upper li ui => selected.createdAt.any (i64FlexibleRangeMatches · lower upper li ui)
  | .and kids => allProjectedMatch selected kids
  | .or kids => anyProjectedMatch selected kids
  | .not child => !nodeFilterProjectedMatches selected child

def allProjectedMatch (selected : SelectedNodeFields) : List NormalizedNodeFilter → Bool
  | [] => true
  | child :: kids => nodeFilterProjectedMatches selected child && allProjectedMatch selected kids

def anyProjectedMatch (selected : SelectedNodeFields) : List NormalizedNodeFilter → Bool
  | [] => false
  | child :: kids => nodeFilterProjectedMatches selected child || anyProjectedMatch selected kids

end

mutual

/-- What the metadata alone decides; `none` where a field has to be read. -/
def nodeFilterMetadataOutcome (info : NodeMetadataForQuery) : NormalizedNodeFilter → Option Bool
  | .alwaysTrue => some true
  | .alwaysFalse => some false
  | .idRange lower upper li ui => some (u64FlexibleRangeMatches info.id lower upper li ui)
  | .weightRange lower upper li ui => some (f32FlexibleRangeMatches info.weight lower upper li ui)
  | .updatedAtRange loMs hiMs => some (decide (loMs ≤ info.updatedAt) && decide (info.updatedAt ≤ hiMs))
  | .and kids => allMetadataOutcome info kids
  | .or kids => anyMetadataOutcome info kids
  | .not child => (nodeFilterMetadataOutcome info child).map (!·)
  | .keyEquals _ | .keyIn _ | .property _ _ | .propertyExists _ | .propertyMissing _
  | .createdAtRange _ _ _ _ => none

/-- A false child decides, also after an undecided one. -/
def allMetadataOutcome (info : NodeMetadataForQuery) : List NormalizedNodeFilter → Option Bool
  | [] => some true
  | child :: kids =>
    match nodeFilterMetadataOutcome info child with
    | some false => some false
    | some true => allMetadataOutcome info kids
    | none => if allMetadataOutcome info kids = some false then some false else none

def anyMetadataOutcome (info : NodeMetadataForQuery) : List NormalizedNodeFilter → Option Bool
  | [] => some false
  | child :: kids =>
    match nodeFilterMetadataOutcome info child with
    | some true => some true
    | some false => anyMetadataOutcome info kids
    | none => if anyMetadataOutcome info kids = some true then some true else none

end

mutual

def nodeFilterNeedsKey : NormalizedNodeFilter → Bool
  | .keyEquals _ | .keyIn _ => true
  | .and kids | .or kids => anyNeedsKey kids
  | .not child => nodeFilterNeedsKey child
  | _ => false

def anyNeedsKey : List NormalizedNodeFilter → Bool
  | [] => false
  | child :: kids => nodeFilterNeedsKey child || anyNeedsKey kids

end

mutual

def nodeFilterNeedsCreatedAt : NormalizedNodeFilter → Bool
  | .createdAtRange _ _ _ _ => true
  | .and kids | .or kids => anyNeedsCreatedAt kids
  | .not child => nodeFilterNeedsCreatedAt child
  | _ => false

def anyNeedsCreatedAt : List NormalizedNodeFilter → Bool
  | [] => false
  | child :: kids => nodeFilterNeedsCreatedAt child || anyNeedsCreatedAt kids

end

mutual

def collectNodeFilterPropertyKeys (keys : List String) : NormalizedNodeFilter → List String
  | .property key _ | .propertyExists key | .propertyMissing key => if keys.contains key then keys else keys ++ [key]
  | .and kids | .or kids => collectAllPropertyKeys keys kids
  | .not child => collectNodeFilterPropertyKeys keys child
  | _ => keys

def collectAllPropertyKeys (keys : List String) : List NormalizedNodeFilter → List String
  | [] => keys
  | child :: kids => collectAllPropertyKeys (collectNodeFilterPropertyKeys keys child) kids

end

inductive LabelMatchMode where
  | any
  | all
  deriving DecidableEq

inductive ResolvedNodeLabelFilter where
  | unconstrained
  | empty (mode : LabelMatchMode) (unknownLabelCount : ℕ)
  | labelSet (mode : LabelMatchMode) (labelIds : NodeLabelSet) (unknownLabelCount : ℕ)

def nodeLabelFilterMatches : ResolvedNodeLabelFilter → NodeLabelSet → Bool
  | .unconstrained, _ => true
  | .empty _ _, _ => false
  | .labelSet .any labelIds _, labels => labelIds.labelIds.any (labels.contains ·)
  | .labelSet .all labelIds _, labels => labelIds.labelIds.all (labels.contains ·)

structure PageRequest where
  limit : Option ℕ := none
  after : Option ℕ := none

structure NormalizedNodeQuery where
  singleLabelId : Option ℕ
  labelFilter : ResolvedNodeLabelFilter
  ids : List ℕ
  keys : List String
  filter : NormalizedNodeFilter
  allowFullScan : Bool
  page : PageRequest

def queryNodeMetadataConstraintsMatch (query : NormalizedNodeQuery) (info : NodeMetadataForQuery)
    (pols : Option PrecomputedPruneCutoffs) : Bool :=
  nodeLabelFilterMatches query.labelFilter info.labelIds &&
    (query.ids.isEmpty || query.ids.contains info.id) &&
    !pols.any fun cutoffs => cutoffs.excludesFields info.labelIds info.updatedAt info.weight

def queryNodeSelectedFieldsMatch (query : NormalizedNodeQuery) (selected : SelectedNodeFields) : Bool :=
  (query.keys.isEmpty || selected.key.any (query.keys.contains ·)) &&
    nodeFilterProjectedMatches selected query.filter

def nodeQueryMetaFromVisibility (id : ℕ) (info : NodeVisibilityMeta) : NodeMetadataForQuery :=
  ⟨id, info.labelIds, info.updatedAt, info.weight⟩

section
variable (sl : SourceList) (query : NormalizedNodeQuery) (pols : Option PrecomputedPruneCutoffs)

def verificationNeeds : NodeSelectedFieldNeeds where
  key := !query.keys.isEmpty || nodeFilterNeedsKey query.filter
  createdAt := nodeFilterNeedsCreatedAt query.filter
  props := .keys (collectNodeFilterPropertyKeys [] query.filter)

/-- Whether a candidate passes on its metadata, and if so whether its fields have to be
read. -/
def metadataDecision (id : ℕ) : NodeVisibilityState → Option Bool
  | .live info =>
    let queryMeta := nodeQueryMetaFromVisibility id info
    if queryNodeMetadataConstraintsMatch query queryMeta pols then
      match nodeFilterMetadataOutcome queryMeta query.filter with
      | some false => none
      | some true => some (verificationNeeds query).key
      | none => some true
    else none
  | _ => none

/-- The candidates of a chunk that pass, in their order. -/
def verifiedOfChunk (chunk : List ℕ) : List ℕ :=
  let decisions := (chunk.zip (sl.findNodeVisibilityMeta chunk)).filterMap fun c =>
    (metadataDecision query pols c.1 c.2).map fun needs => (c.1, needs)
  let projectedIds := (decisions.filter (·.2)).map (·.1)
  let proj := sl.findNodeProjectedFields (verificationNeeds query) projectedIds
  let projectedMatches := ((projectedIds.zip proj).filter fun c => c.2.any (queryNodeSelectedFieldsMatch query)).map (·.1)
  (decisions.filter fun decision => !decision.2 || projectedMatches.contains decision.1).map (·.1)

/-- Consecutive parts of a list, of a given size except for the last. -/
def chunks {α : Type} (size : ℕ) : ℕ → List α → List (List α)
  | 0, _ => []
  | _ + 1, [] => []
  | fuel + 1, l => l.take size :: chunks size fuel (l.drop size)

def queryVerifyChunk : ℕ := 256

/-- The candidates, each once and in ascending order, that pass. -/
def graphRowVerifiedNodeIds (candidateIds : List ℕ) : List ℕ :=
  let candidateIds := (candidateIds.insertionSort (· ≤ ·)).dedup
  (chunks queryVerifyChunk candidateIds.length candidateIds).flatMap (verifiedOfChunk sl query pols)

end

mutual

/-- What the metadata decides is what the fields would say. -/
theorem projectedMatches_of_outcome (selected : SelectedNodeFields) : ∀ (filter : NormalizedNodeFilter) (b : Bool),
      nodeFilterMetadataOutcome selected.info filter = some b → nodeFilterProjectedMatches selected filter = b
  | .alwaysTrue, b, h | .alwaysFalse, b, h | .idRange _ _ _ _, b, h | .weightRange _ _ _ _, b, h | .updatedAtRange _ _, b, h => by simpa [nodeFilterMetadataOutcome, nodeFilterProjectedMatches] using h
  | .keyEquals _, b, h | .keyIn _, b, h | .property _ _, b, h | .propertyExists _, b, h | .propertyMissing _, b, h
  | .createdAtRange _ _ _ _, b, h => by cases h
  | .and kids, b, h => (childrenMatch_of_outcome selected kids).1 b h
  | .or kids, b, h => (childrenMatch_of_outcome selected kids).2 b h
  | .not child, b, h => by
    obtain ⟨c, hc, rfl⟩ := Option.map_eq_some_iff.mp h
    rw [nodeFilterProjectedMatches, projectedMatches_of_outcome selected child c hc]

theorem childrenMatch_of_outcome (selected : SelectedNodeFields) : ∀ kids : List NormalizedNodeFilter,
    (∀ b, allMetadataOutcome selected.info kids = some b → allProjectedMatch selected kids = b) ∧
      ∀ b, anyMetadataOutcome selected.info kids = some b → anyProjectedMatch selected kids = b
  | [] => by simp [allMetadataOutcome, allProjectedMatch, anyMetadataOutcome, anyProjectedMatch]
  | child :: kids => by
    obtain ⟨hall, hany⟩ := childrenMatch_of_outcome selected kids
    rw [allMetadataOutcome, anyMetadataOutcome, allProjectedMatch, anyProjectedMatch]
    cases hc : nodeFilterMetadataOutcome selected.info child with
    | none =>
      constructor
      · intro b h
        split_ifs at h with hrest
        rw [hall false hrest, Bool.and_false, Option.some.inj h]
      · intro b h
        split_ifs at h with hrest
        rw [hany true hrest, Bool.or_true, Option.some.inj h]
    | some c =>
      rw [projectedMatches_of_outcome selected child c hc]
      cases c with
      | false => exact ⟨fun b h => Option.some.inj h, hany⟩
      | true => exact ⟨hall, fun b h => Option.some.inj h⟩

end

mutual

theorem subset_collectPropertyKeys (keys : List String) : ∀ filter : NormalizedNodeFilter, keys ⊆ collectNodeFilterPropertyKeys keys filter
  | .property _ _ | .propertyExists _ | .propertyMissing _ => by
    rw [collectNodeFilterPropertyKeys]
    split
    · exact fun _ h => h
    · exact subset_append_left _ _
  | .and kids | .or kids => by
    rw [collectNodeFilterPropertyKeys]
    exact subset_collectAllPropertyKeys keys kids
  | .not child => by
    rw [collectNodeFilterPropertyKeys]
    exact subset_collectPropertyKeys keys child
  | .alwaysTrue | .alwaysFalse | .idRange _ _ _ _ | .weightRange _ _ _ _ | .updatedAtRange _ _
  | .keyEquals _ | .keyIn _ | .createdAtRange _ _ _ _ => fun _ h => h

theorem subset_collectAllPropertyKeys (keys : List String) : ∀ kids : List NormalizedNodeFilter, keys ⊆ collectAllPropertyKeys keys kids
  | [] => fun _ h => h
  | child :: kids => by
    rw [collectAllPropertyKeys]
    exact fun _ h => subset_collectAllPropertyKeys _ kids (subset_collectPropertyKeys keys child h)

end

theorem mem_collected (keys : List String) (key : String) : key ∈ if keys.contains key then keys else keys ++ [key] := by
  split
  · rename_i h
    simpa using h
  · simp

/-- Two projections of a record agree on a list of properties. -/
private def SameProps (s t : SelectedNodeFields) (keys : List String) : Prop := ∀ key ∈ keys, s.props.lookup key = t.props.lookup key

section
variable {s t : SelectedNodeFields}

mutual

/-- A filter sees only the fields it needs. -/
theorem projectedMatches_congr (hinfo : s.info = t.info) (keys : List String) : ∀ filter : NormalizedNodeFilter,
    (nodeFilterNeedsKey filter = true → s.key = t.key) →
    (nodeFilterNeedsCreatedAt filter = true → s.createdAt = t.createdAt) →
    SameProps s t (collectNodeFilterPropertyKeys keys filter) →
    nodeFilterProjectedMatches s filter = nodeFilterProjectedMatches t filter
  | .alwaysTrue, _, _, _ | .alwaysFalse, _, _, _ => rfl
  | .idRange _ _ _ _, _, _, _ | .weightRange _ _ _ _, _, _, _ | .updatedAtRange _ _, _, _, _ => by
    simp only [nodeFilterProjectedMatches, hinfo]
  | .keyEquals _, hkey, _, _ | .keyIn _, hkey, _, _ => by simp only [nodeFilterProjectedMatches, hkey rfl]
  | .createdAtRange _ _ _ _, _, hcre, _ => by simp only [nodeFilterProjectedMatches, hcre rfl]
  | .property key _, _, _, hps | .propertyExists key, _, _, hps
  | .propertyMissing key, _, _, hps => by simp only [nodeFilterProjectedMatches, hps key (mem_collected keys key)]
  | .and kids, hkey, hcre, hps => (childrenMatch_congr hinfo keys kids hkey hcre hps).1
  | .or kids, hkey, hcre, hps => (childrenMatch_congr hinfo keys kids hkey hcre hps).2
  | .not child, hkey, hcre, hps => by
    rw [nodeFilterProjectedMatches, nodeFilterProjectedMatches, projectedMatches_congr hinfo keys child hkey hcre hps]

theorem childrenMatch_congr (hinfo : s.info = t.info) (keys : List String) : ∀ kids : List NormalizedNodeFilter,
    (anyNeedsKey kids = true → s.key = t.key) →
    (anyNeedsCreatedAt kids = true → s.createdAt = t.createdAt) →
    SameProps s t (collectAllPropertyKeys keys kids) →
    allProjectedMatch s kids = allProjectedMatch t kids ∧ anyProjectedMatch s kids = anyProjectedMatch t kids
  | [], _, _, _ => ⟨rfl, rfl⟩
  | child :: kids, hkey, hcre, hps => by
    have hkid := projectedMatches_congr hinfo keys child (fun h => hkey (by simp [anyNeedsKey, h]))
      (fun h => hcre (by simp [anyNeedsCreatedAt, h]))
      (fun key hk => hps key (subset_collectAllPropertyKeys _ kids hk))
    obtain ⟨hall, hany⟩ := childrenMatch_congr hinfo (collectNodeFilterPropertyKeys keys child) kids
      (fun h => hkey (by simp [anyNeedsKey, h])) (fun h => hcre (by simp [anyNeedsCreatedAt, h])) hps
    rw [allProjectedMatch, allProjectedMatch, anyProjectedMatch, anyProjectedMatch, hkid, hall, hany]
    exact ⟨rfl, rfl⟩

end

end

def nodeFields (node : NodeRecord) : SelectedNodeFields := selectedNodeFields ⟨true, true, .all, .none⟩ node

def nodeSatisfies (filter : NormalizedNodeFilter) (node : NodeRecord) : Bool := nodeFilterProjectedMatches (nodeFields node) filter

/-- A record satisfies all constraints of a query. -/
def nodeAccepted (query : NormalizedNodeQuery) (pols : Option PrecomputedPruneCutoffs)
    (node : NodeRecord) : Bool :=
  nodeLabelFilterMatches query.labelFilter node.labelIds &&
    (query.ids.isEmpty || query.ids.contains node.id) &&
    (!pols.any fun cutoffs => cutoffs.excludes node) &&
    (query.keys.isEmpty || query.keys.contains node.key) && nodeSatisfies query.filter node

theorem lookup_foldl_selected (props : Props) (key : String) (names : List String) (selected : Props) :
    (names.foldl (fun selected name =>
      match props.lookup name with
      | some value => selected.insert name value
      | none => selected) selected).lookup key =
      if key ∈ names then (props.lookup key).or (selected.lookup key) else selected.lookup key := by
  induction names generalizing selected with
  | nil => simp
  | cons name names ih =>
    rw [foldl_cons, ih]
    cases hname : props.lookup name with
    | none =>
      by_cases hk : key = name
      · subst hk
        simp [hname]
      · simp [hk]
    | some value =>
      by_cases hk : key = name
      · subst hk
        simp [hname]
      · simp [hk, AList.lookup_insert_ne]

theorem sameProps_selected (node : NodeRecord) (names : List String) (needs : NodeSelectedFieldNeeds)
    (hps : needs.props = .keys names) : SameProps (selectedNodeFields needs node) (nodeFields node) names := by
  intro key hkey
  have hlk := lookup_foldl_selected node.props key names ∅
  simp only [hkey, if_true, AList.lookup_empty, Option.or_none] at hlk
  simp only [selectedNodeFields, hps]
  exact hlk

/-- The fields read decide the filter and the keys as the whole record does. -/
theorem selectedFieldsMatch_eq (query : NormalizedNodeQuery) (node : NodeRecord) :
    queryNodeSelectedFieldsMatch query (selectedNodeFields (verificationNeeds query) node) =
      ((query.keys.isEmpty || query.keys.contains node.key) && nodeSatisfies query.filter node) := by
  have hfil : nodeFilterProjectedMatches (selectedNodeFields (verificationNeeds query) node) query.filter =
      nodeSatisfies query.filter node := by
    have hinfo : (selectedNodeFields (verificationNeeds query) node).info = (nodeFields node).info := rfl
    refine projectedMatches_congr hinfo [] query.filter (fun h => ?_) (fun h => ?_)
      (sameProps_selected node _ (verificationNeeds query) rfl)
    · simp [selectedNodeFields, verificationNeeds, nodeFields, h]
    · simp [selectedNodeFields, verificationNeeds, nodeFields, h]
  rw [queryNodeSelectedFieldsMatch, hfil]
  cases hkeys : query.keys.isEmpty with
  | true => simp
  | false => simp [selectedNodeFields, verificationNeeds, hkeys]

section
variable {sl : SourceList} {query : NormalizedNodeQuery} {pols : Option PrecomputedPruneCutoffs}

/-- The candidate passes, on its metadata alone or with its fields. -/
private def passes (query : NormalizedNodeQuery) (pols : Option PrecomputedPruneCutoffs)
    (id : ℕ) (node : NodeRecord) : Bool :=
  match metadataDecision query pols id (.live (visibilityMeta node)) with
  | none => false
  | some needs => !needs || queryNodeSelectedFieldsMatch query (selectedNodeFields (verificationNeeds query) node)

theorem passes_eq (query : NormalizedNodeQuery) (pols : Option PrecomputedPruneCutoffs)
    (node : NodeRecord) : passes query pols node.id node = nodeAccepted query pols node := by
  have hdec : metadataDecision query pols node.id (.live (visibilityMeta node)) =
      if queryNodeMetadataConstraintsMatch query (nodeFields node).info pols then
        match nodeFilterMetadataOutcome (nodeFields node).info query.filter with
        | some false => none
        | some true => some (verificationNeeds query).key
        | none => some true
      else none := rfl
  have hacc : nodeAccepted query pols node = (queryNodeMetadataConstraintsMatch query (nodeFields node).info pols &&
        (query.keys.isEmpty || query.keys.contains node.key) && nodeSatisfies query.filter node) := rfl
  rw [passes, hdec, hacc]
  by_cases hpass : queryNodeMetadataConstraintsMatch query (nodeFields node).info pols = true
  · rw [if_pos hpass, hpass, Bool.true_and]
    cases hout : nodeFilterMetadataOutcome (nodeFields node).info query.filter with
    | none => simp [selectedFieldsMatch_eq]
    | some b =>
      have hfil : nodeSatisfies query.filter node = b := projectedMatches_of_outcome (nodeFields node) query.filter b hout
      cases b with
      | false => simp [hfil]
      | true =>
        -- without keys to read the metadata has decided
        cases hneeds : (verificationNeeds query).key with
        | true => simp [selectedFieldsMatch_eq, hfil]
        | false =>
          have hkeys : query.keys = [] := by
            simp only [verificationNeeds, Bool.or_eq_false_iff, Bool.not_eq_false', List.isEmpty_iff] at hneeds
            exact hneeds.1
          simp [hfil, hkeys]
  · rw [if_neg hpass, Bool.eq_false_iff.mpr hpass]
    rfl

/-- The decision about each candidate that is visible. -/
private def decisionOf (sl : SourceList) (query : NormalizedNodeQuery)
    (pols : Option PrecomputedPruneCutoffs) (id : ℕ) : Option Bool :=
  (visible sl.nodeLayers id).bind fun node => metadataDecision query pols id (.live (visibilityMeta node))

theorem decisions_eq (h : sl.WellFormed) (chunk : List ℕ) : (chunk.zip (sl.findNodeVisibilityMeta chunk)).filterMap (fun c =>
      (metadataDecision query pols c.1 c.2).map fun needs => (c.1, needs)) =
      chunk.filterMap fun id => (decisionOf sl query pols id).map fun needs => (id, needs) := by
  rw [h.findNodeVisibilityMeta, ← map_prod_left_eq_zip, filterMap_map]
  refine filterMap_congr fun id _ => ?_
  simp only [Function.comp_apply, decisionOf, visible]
  rcases firstOpinion sl.nodeLayers id with - | (- | node) <;>
    simp [visibilityOpinion, shown, metadataDecision]

/-- Of the candidates with a decision, those stay that need no fields or are found among the
ones whose fields match. -/
theorem filter_decisions {chunk found : List ℕ} {decision : ℕ → Option Bool} {keep : ℕ → Bool}
    (hkeep : ∀ id ∈ chunk, keep id = match decision id with
      | none => false
      | some needs => !needs || found.contains id) :
    ((chunk.filterMap fun id => (decision id).map fun needs => (id, needs)).filter
      fun d => !d.2 || found.contains d.1).map (·.1) = chunk.filter keep := by
  induction chunk with
  | nil => rfl
  | cons id chunk ih =>
    have hid := hkeep id (by simp)
    have hrest := ih fun other hoth => hkeep other (mem_cons_of_mem _ hoth)
    rw [filter_cons, ← hrest]
    cases hdec : decision id with
    | none =>
      rw [hdec] at hid
      simp [hdec, hid]
    | some needs =>
      rw [hdec] at hid
      simp only [filterMap_cons, hdec, Option.map_some, filter_cons, hid]
      split <;> rfl

theorem verifiedOfChunk_eq (h : sl.KeysIndexed) (chunk : List ℕ) : verifiedOfChunk sl query pols chunk =
      chunk.filter fun id => (sl.findNode id).any (nodeAccepted query pols) := by
  rw [verifiedOfChunk, decisions_eq h.wellFormed]
  apply filter_decisions
  intro id hid
  rw [h.wellFormed.findNode]
  cases hnode : visible sl.nodeLayers id with
  | none => simp [decisionOf, hnode]
  | some node =>
    have hdec : decisionOf sl query pols id = metadataDecision query pols id (.live (visibilityMeta node)) := by
      rw [decisionOf, hnode]
      rfl
    have hpass := passes_eq query pols node
    rw [h.visible_id hnode, passes, ← hdec] at hpass
    rw [Option.any_some, ← hpass]
    cases hneeds : decisionOf sl query pols id with
    | none => rfl
    | some needs =>
      cases needs with
      | false => rfl
      | true =>
        -- the candidate is among those whose fields are read
        rw [h.wellFormed.findNodeProjectedFields, ← map_prod_left_eq_zip]
        simp only [Bool.not_true, Bool.false_or]
        rw [Bool.eq_iff_iff, contains_iff_mem]
        have hread : id ∈ ((chunk.filterMap fun id =>
            (decisionOf sl query pols id).map fun needs => (id, needs)).filter (·.2)).map (·.1) :=
          mem_map.mpr ⟨(id, true), mem_filter.mpr
            ⟨mem_filterMap.mpr ⟨id, hid, by rw [hneeds]; rfl⟩, rfl⟩, rfl⟩
        constructor
        · intro hm'
          exact mem_map.mpr ⟨_, mem_filter.mpr ⟨mem_map_of_mem hread, by simp [hnode, hm']⟩, rfl⟩
        · intro hfnd
          obtain ⟨c, hcand, rfl⟩ := mem_map.mp hfnd
          obtain ⟨hmem, hm'⟩ := mem_filter.mp hcand
          obtain ⟨other, -, rfl⟩ := mem_map.mp hmem
          simpa [hnode] using hm'

theorem flatten_chunks {α : Type} {size : ℕ} (hsize : 0 < size) (fuel : ℕ) (l : List α)
    (hfuel : l.length ≤ fuel) : (chunks size fuel l).flatten = l := by
  induction fuel generalizing l with
  | zero =>
    have hnil : l = [] := length_eq_zero_iff.mp (Nat.le_zero.mp hfuel)
    simp [hnil, chunks]
  | succ fuel ih =>
    cases l with
    | nil => rfl
    | cons a l =>
      have hlen : ((a :: l).drop size).length ≤ fuel := by
        simp only [length_drop, length_cons] at hfuel ⊢
        omega
      rw [chunks.eq_3 _ _ _ (cons_ne_nil a l), flatten_cons, ih _ hlen, take_append_drop]

theorem mem_iff_mem_chunks {α : Type} {size : ℕ} (hsize : 0 < size) (l : List α) (a : α) :
    a ∈ l ↔ ∃ chunk ∈ chunks size l.length l, a ∈ chunk := by
  rw [← mem_flatten, flatten_chunks hsize _ _ (Nat.le_refl _)]

/-- A candidate passes exactly if the query accepts the node it names. -/
theorem mem_graphRowVerifiedNodeIds (h : sl.KeysIndexed) {candidateIds : List ℕ} {id : ℕ} :
    id ∈ graphRowVerifiedNodeIds sl query pols candidateIds ↔ id ∈ candidateIds ∧ (sl.findNode id).any (nodeAccepted query pols) := by
  rw [graphRowVerifiedNodeIds, mem_flatMap]
  simp only [verifiedOfChunk_eq h, mem_filter]
  have hsort : id ∈ (candidateIds.insertionSort (· ≤ ·)).dedup ↔ id ∈ candidateIds := by rw [mem_dedup, (perm_insertionSort _ _).mem_iff]
  rw [← hsort, @mem_iff_mem_chunks ℕ queryVerifyChunk (by decide)]
  constructor
  · rintro ⟨chunk, hck, hid, hacc⟩
    exact ⟨⟨chunk, hck, hid⟩, hacc⟩
  · rintro ⟨⟨chunk, hck, hid⟩, hacc⟩
    exact ⟨chunk, hck, hid, hacc⟩

end

end OverGraph.NodeFilters
