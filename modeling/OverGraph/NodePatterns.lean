import OverGraph.NodeFilters
import OverGraph.WritePlans

/-!
# Node patterns of graph-row queries

A pattern names nodes by labels, identifiers, keys and a filter. Before it runs, its keys
are resolved to identifiers and put into the list of identifiers, whose emptiness means
that there is no constraint.
-/

namespace OverGraph.NodePatterns
open Option hiding all_eq_true any_eq_true mem_map or
open AssocMaps Records LayeredWrites Sources SourceList Cuts WritePlans PrunePolicies NodeFilters List Fallible Except ResolvedNodeLabelFilter

abbrev LabelCatalog := Map String ℕ

/-- The white space characters of Unicode. -/
def isWhitespace (ch : Char) : Bool :=
  let c := ch.toNat
  (9 ≤ c && c ≤ 13) || c == 0x20 || c == 0x85 || c == 0xA0 || c == 0x1680 || (0x2000 ≤ c && c ≤ 0x200A) ||
    c == 0x2028 || c == 0x2029 || c == 0x202F || c == 0x205F || c == 0x3000

def validateLabelTokenName (name : String) : Except String Unit :=
  if name.isEmpty then .error "label token name must not be empty"
  else if name.utf8ByteSize > 255 then
    .error s!"label token name must be at most 255 UTF-8 bytes, got {name.utf8ByteSize}"
  else if name.toList.head?.any isWhitespace || name.toList.getLast?.any isWhitespace then
    .error "label token name must not contain leading or trailing whitespace"
  else if name.toList.any fun ch => decide (ch.toNat < 32) || ch.toNat == 127 then
    .error "label token name must not contain ASCII control characters or NUL"
  else .ok ()

/-- The first name that stands in the list before. -/
def findDuplicateLabel : List String → List String → Option String
  | _, [] => none
  | seen, label :: labels => if seen.contains label then some label else findDuplicateLabel (label :: seen) labels

def validatePublicNodeLabelList (labels : List String) : Except String Unit := do
  labels.forM validateLabelTokenName
  if labels.isEmpty then .error "node label set must contain at least one label"
  else if labels.length > maxNodeLabelsPerNode then
    .error s!"node label set must contain at most {maxNodeLabelsPerNode} labels"
  else match findDuplicateLabel [] labels with
    | some label => .error s!"node label set contains duplicate label '{label}'"
    | none => .ok ()

def fromLabelIds (labelIds : List ℕ) : Except String NodeLabelSet :=
  let sorted := labelIds.insertionSort (· ≤ ·)
  if hbd : maxNodeLabelsPerNode < sorted.length then
    .error s!"node label set must contain at most {maxNodeLabelsPerNode} labels"
  else if hne : sorted = [] then .error "node label set must contain at least one label"
  else if hzero : 0 ∈ sorted then .error "node label token ID 0 is reserved"
  else if hasc : sorted.Pairwise (· < ·) then
    .ok ⟨sorted, hasc, hne, hzero, Nat.le_of_not_lt hbd⟩
  else
    let duplicate := (((sorted.zip sorted.tail).find? fun pair => pair.1 == pair.2).map (·.1)).getD 0
    .error s!"node label set contains duplicate label ID {duplicate}"

structure NodeLabelFilter where
  labels : List String
  mode : LabelMatchMode

section
variable (cat : LabelCatalog)

def resolveNodeLabelForRead (label : String) : Except String (Option ℕ) := do
  validateLabelTokenName label
  .ok (cat.lookup label)

def resolveNodeLabelFilterRequest : Option NodeLabelFilter → Except String ResolvedNodeLabelFilter
  | none => .ok .unconstrained
  | some filter => do
    validatePublicNodeLabelList filter.labels
    let resolved ← filter.labels.mapM (resolveNodeLabelForRead cat)
    let known := resolved.filterMap fun labelId => labelId
    let unknownLabelCount := resolved.length - known.length
    if known.isEmpty || (filter.mode = .all && unknownLabelCount > 0) then
      .ok (.empty filter.mode unknownLabelCount)
    else do
      let labelIds ← fromLabelIds known
      .ok (.labelSet filter.mode labelIds unknownLabelCount)

end

structure NodeKeyQuery where
  label : String
  key : String
  deriving DecidableEq

structure GraphNodePattern where
  labelFilter : Option NodeLabelFilter
  ids : List ℕ
  keys : List NodeKeyQuery
  filter : Option NormalizedNodeFilter

def ResolvedNodeLabelFilter.isEmptyConstraint : ResolvedNodeLabelFilter → Bool
  | .empty _ _ => true
  | _ => false

def singleResolvedLabelId : ResolvedNodeLabelFilter → Option ℕ
  | .labelSet _ labelIds _ => match labelIds.labelIds with
    | [labelId] => some labelId
    | _ => none
  | _ => none

/-- The keys with known labels, and whether a label is unknown. -/
def resolveKeyRefs (cat : LabelCatalog) (keys : List NodeKeyQuery) : Except String (List (ℕ × String) × Bool) := do
  let resolved ← keys.mapM fun key => do
    let labelId ← resolveNodeLabelForRead cat key.label
    .ok (labelId.map fun labelId => (labelId, key.key))
  .ok (resolved.filterMap (fun ref => ref), resolved.any (·.isNone))

def normalizeGraphRowRuntimeNode (sl : SourceList) (cat : LabelCatalog) (allowFullScan : Bool)
    (node : GraphNodePattern) : Except String NormalizedNodeQuery := do
  let labelFilter ← resolveNodeLabelFilterRequest cat node.labelFilter
  let (keyRefs, unknownLabel) ← resolveKeyRefs cat node.keys
  let filter := if ResolvedNodeLabelFilter.isEmptyConstraint labelFilter || unknownLabel then .alwaysFalse
    else node.filter.getD .alwaysTrue
  let ids := node.ids ++ (sl.findNodeIdsByLabelKeys keyRefs).filterMap fun id => id
  .ok {
    singleLabelId := singleResolvedLabelId labelFilter
    labelFilter
    ids := (ids.insertionSort (· ≤ ·)).dedup
    keys := []
    filter
    allowFullScan
    page := {} }

section
variable (sl : SourceList) (cat : LabelCatalog) (pols : Option PrecomputedPruneCutoffs)

def HasLabel (node : NodeRecord) (label : String) : Prop :=
  ∃ labelId, cat.lookup label = some labelId ∧ node.labelIds.contains labelId = true

def LabelsMatch (node : NodeRecord) : Option NodeLabelFilter → Prop
  | none => True
  | some ⟨labels, .any⟩ => ∃ label ∈ labels, HasLabel cat node label
  | some ⟨labels, .all⟩ => ∀ label ∈ labels, HasLabel cat node label

def OwnsOneOf (node : NodeRecord) (keys : List NodeKeyQuery) : Prop := ∃ key ∈ keys, HasLabel cat node key.label ∧ node.key = key.key

/-- A visible node that meets all of the pattern but its identifiers and keys. -/
structure Eligible (pat : GraphNodePattern) (id : ℕ) (node : NodeRecord) : Prop where
  found : sl.findNode id = some node
  admitted : (pols.any fun cutoffs => cutoffs.excludes node) = false
  labels : LabelsMatch cat node pat.labelFilter
  filter : ∀ filter, pat.filter = some filter → nodeSatisfies filter node = true

/-- The conjunction of the constraints of a pattern. -/
def PatternMatches (pat : GraphNodePattern) (id : ℕ) : Prop :=
  ∃ node, Eligible sl cat pols pat id node ∧ (pat.ids ≠ [] → id ∈ pat.ids) ∧ (pat.keys ≠ [] → OwnsOneOf cat node pat.keys)

/-- The node can be bound to the alias of the pattern. -/
def Bindable (query : NormalizedNodeQuery) (id : ℕ) : Prop := ∃ candidates, id ∈ graphRowVerifiedNodeIds sl query pols candidates

/-- The keys do not change the answer. -/
def KeysHarmless (pat : GraphNodePattern) : Prop :=
  if pat.keys = [] then True
  else if ∃ key ∈ pat.keys, cat.lookup key.label = none then
    ∀ id node, Eligible sl cat pols pat id node → (pat.ids ≠ [] → id ∈ pat.ids) → ¬OwnsOneOf cat node pat.keys
  else if pat.ids = [] then
    (∃ id node, sl.findNode id = some node ∧ OwnsOneOf cat node pat.keys) ∨ ∀ id node, ¬Eligible sl cat pols pat id node
  else ∀ id node, Eligible sl cat pols pat id node → (id ∈ pat.ids ↔ OwnsOneOf cat node pat.keys)

end

/-- Keys are pushed into a pattern with a single required label. -/
def nodeKeyPushdownSupported : Option NodeLabelFilter → Bool
  | some ⟨labels, .all⟩ => labels.length == 1
  | _ => false

/-- Push the keys an equality or a membership test of the key names; `none` where the test
stays a residual predicate. -/
def pushNodeKeys (node : GraphNodePattern) (keys : List String) : Option GraphNodePattern :=
  if nodeKeyPushdownSupported node.labelFilter && node.keys.isEmpty then
    some { node with keys := node.keys ++ keys.map fun key => ⟨((node.labelFilter.bind fun filter => filter.labels.head?).getD ""), key⟩ }
  else none

section
variable {cat : LabelCatalog}

theorem mapM_ok {α β : Type} {f : α → Except String β} {g : α → β} (hf : ∀ a b, f a = .ok b → b = g a) {l : List α} {r : List β}
    (h : l.mapM f = .ok r) : r = l.map g := by
  rw [Fallible.mapM_ok] at h
  induction h with
  | nil => rfl
  | cons hab _ ih => rw [hf _ _ hab, ih, map_cons]

theorem resolveNodeLabelForRead_ok {label : String} {labelId : Option ℕ}
    (h : resolveNodeLabelForRead cat label = .ok labelId) : labelId = cat.lookup label := by
  rw [resolveNodeLabelForRead] at h
  obtain ⟨_, -, h⟩ := bind_ok h
  exact (ok.inj h).symm

theorem mem_fromLabelIds {labelIds : List ℕ} {set : NodeLabelSet}
    (h : fromLabelIds labelIds = .ok set) (labelId : ℕ) : labelId ∈ set.labelIds ↔ labelId ∈ labelIds := by
  rw [fromLabelIds] at h
  dsimp only at h
  split at h
  · cases h
  · split at h
    · cases h
    · split at h
      · cases h
      · split at h
        · cases h
          exact (perm_insertionSort _ labelIds).mem_iff
        · cases h

private def knownLabels (cat : LabelCatalog) (labels : List String) : List ℕ := labels.filterMap cat.lookup

theorem labels_ne_nil {labels : List String} (h : validatePublicNodeLabelList labels = .ok ()) : labels ≠ [] := by
  rintro rfl
  simp [validatePublicNodeLabelList, Except.bind, bind, pure, Except.pure] at h

variable {resolved : ResolvedNodeLabelFilter}

theorem resolve_cases {filter : NodeLabelFilter}
    (h : resolveNodeLabelFilterRequest cat (some filter) = .ok resolved) : filter.labels ≠ [] ∧
      (((knownLabels cat filter.labels = [] ∨ filter.mode = .all ∧ ∃ label ∈ filter.labels, cat.lookup label = none) ∧
        ∃ n, resolved = .empty filter.mode n) ∨
      ((filter.mode = .all → ∀ label ∈ filter.labels, cat.lookup label ≠ none) ∧ ∃ set n, resolved = .labelSet filter.mode set n ∧
          ∀ labelId, labelId ∈ set.labelIds ↔ labelId ∈ knownLabels cat filter.labels)) := by
  rw [resolveNodeLabelFilterRequest] at h
  obtain ⟨_, hvd, h⟩ := bind_ok h
  obtain ⟨labelIds, hmap, h⟩ := bind_ok h
  have hlabelIds : labelIds = filter.labels.map cat.lookup := mapM_ok (fun _ _ => resolveNodeLabelForRead_ok) hmap
  subst hlabelIds
  have hkn : ((filter.labels.map cat.lookup).filterMap fun labelId => labelId) = knownLabels cat filter.labels := by
    rw [filterMap_map]
    rfl
  have hunk : 0 < (filter.labels.map cat.lookup).length - (knownLabels cat filter.labels).length ↔
      ∃ label ∈ filter.labels, cat.lookup label = none := by
    rw [length_map, Nat.sub_pos_iff_lt, knownLabels]
    simpa only [exists_prop] using length_filterMap_lt_length_iff_exists
  rw [hkn] at h
  dsimp only at h
  refine ⟨labels_ne_nil hvd, ?_⟩
  split at h
  · rename_i hemp
    simp only [Bool.or_eq_true, List.isEmpty_iff, Bool.and_eq_true, decide_eq_true_eq, gt_iff_lt, hunk] at hemp
    cases h
    exact .inl ⟨hemp, _, rfl⟩
  · rename_i hsome
    simp only [Bool.or_eq_true, List.isEmpty_iff, Bool.and_eq_true, decide_eq_true_eq, gt_iff_lt,
      hunk, not_or, not_and, not_exists] at hsome
    obtain ⟨set, hset, h⟩ := bind_ok h
    exact .inr ⟨hsome.2, set, _, (ok.inj h).symm, mem_fromLabelIds hset⟩

theorem mem_knownLabels {labels : List String} {labelId : ℕ} :
    labelId ∈ knownLabels cat labels ↔ ∃ label ∈ labels, cat.lookup label = some labelId := by
  simp [knownLabels]

theorem labelFilterMatches_iff {filter : Option NodeLabelFilter}
    (h : resolveNodeLabelFilterRequest cat filter = .ok resolved) (node : NodeRecord) :
    nodeLabelFilterMatches resolved node.labelIds = true ↔ LabelsMatch cat node filter := by
  cases filter with
  | none =>
    cases h
    exact ⟨fun _ => trivial, fun _ => rfl⟩
  | some filter =>
    obtain ⟨labels, mode⟩ := filter
    obtain ⟨hne, ⟨hemp, n, rfl⟩ | ⟨hall, set, n, rfl, hset⟩⟩ := resolve_cases h
    · simp only [nodeLabelFilterMatches, Bool.false_eq_true, false_iff]
      obtain ⟨fst, hfst⟩ := exists_mem_of_ne_nil _ hne
      cases mode with
      | any =>
        rintro ⟨label, hlab, labelId, hlk, -⟩
        have hnil := hemp.resolve_right fun hmode => by cases hmode.1
        have hmem := mem_knownLabels.mpr ⟨label, hlab, hlk⟩
        rw [hnil] at hmem
        cases hmem
      | all =>
        intro hm'
        rcases hemp with hnil | ⟨-, label, hlab, hnone⟩
        · obtain ⟨labelId, hlk, -⟩ := hm' fst hfst
          have hmem := mem_knownLabels.mpr ⟨fst, hfst, hlk⟩
          rw [hnil] at hmem
          cases hmem
        · obtain ⟨labelId, hlk, -⟩ := hm' label hlab
          rw [hnone] at hlk
          cases hlk
    · cases mode with
      | any =>
        simp only [nodeLabelFilterMatches, any_eq_true, hset, mem_knownLabels, LabelsMatch, HasLabel]
        constructor
        · rintro ⟨labelId, ⟨label, hlab, hlk⟩, hhas⟩
          exact ⟨label, hlab, labelId, hlk, hhas⟩
        · rintro ⟨label, hlab, labelId, hlk, hhas⟩
          exact ⟨labelId, ⟨label, hlab, hlk⟩, hhas⟩
      | all =>
        simp only [nodeLabelFilterMatches, all_eq_true, hset, mem_knownLabels, LabelsMatch, HasLabel]
        constructor
        · intro hm' label hlab
          obtain ⟨labelId, hlk⟩ := ne_none_iff_exists'.mp (hall rfl label hlab)
          exact ⟨labelId, hlk, hm' labelId ⟨label, hlab, hlk⟩⟩
        · rintro hm' labelId ⟨label, hlab, hlk⟩
          obtain ⟨other, hoth, hhas⟩ := hm' label hlab
          rw [hlk] at hoth
          rwa [some.inj hoth]

theorem resolveKeyRefs_ok {keys : List NodeKeyQuery} {refs : List (ℕ × String)} {unknown : Bool}
    (h : resolveKeyRefs cat keys = .ok (refs, unknown)) :
    refs = keys.filterMap (fun key => (cat.lookup key.label).map fun labelId => (labelId, key.key)) ∧
      (unknown = true ↔ ∃ key ∈ keys, cat.lookup key.label = none) := by
  rw [resolveKeyRefs] at h
  generalize hread : (fun key : NodeKeyQuery => do
    let labelId ← resolveNodeLabelForRead cat key.label
    (.ok (labelId.map fun labelId => (labelId, key.key)) : Except String (Option (ℕ × String)))) = read at h
  have hok : ∀ key ref, read key = .ok ref → ref = (cat.lookup key.label).map fun labelId => (labelId, key.key) := by
    intro key ref hkey
    rw [← hread] at hkey
    obtain ⟨labelId, hlab, hkey⟩ := bind_ok hkey
    rw [← resolveNodeLabelForRead_ok hlab]
    exact (ok.inj hkey).symm
  obtain ⟨resolved, hmap, h⟩ := bind_ok h
  obtain ⟨hrefs, hunk⟩ := Prod.mk.inj (ok.inj h)
  rw [mapM_ok hok hmap] at hrefs hunk
  refine ⟨?_, ?_⟩
  · rw [← hrefs, filterMap_map]
    rfl
  · simp [← hunk]

end

section
variable {sl : SourceList} {cat : LabelCatalog} {pols : Option PrecomputedPruneCutoffs}

/-- The identifiers the keys resolve to are those of the nodes that own one. -/
theorem mem_resolvedIds (h : sl.KeysIndexed) {keys : List NodeKeyQuery} {id : ℕ} :
    id ∈ (sl.findNodeIdsByLabelKeys (keys.filterMap fun key =>
        (cat.lookup key.label).map fun labelId => (labelId, key.key))).filterMap (fun id => id) ↔
      ∃ node, sl.findNode id = some node ∧ OwnsOneOf cat node keys := by
  rw [h.findNodeIdsByLabelKeys, filterMap_map, mem_filterMap]
  simp only [Function.comp_apply, map_eq_some_iff, owner_eq_some_iff h.unique, h.wellFormed.findNode]
  constructor
  · rintro ⟨ref, href, node, ⟨other, hvis, hkey⟩, rfl⟩
    obtain ⟨key, hkeyMem, hrefKey⟩ := mem_filterMap.mp href
    obtain ⟨labelId, hlab, rfl⟩ := map_eq_some_iff.mp hrefKey
    have hid := h.visible_id hvis
    refine ⟨node, by rw [hid]; exact hvis, key, hkeyMem, ⟨labelId, hlab, ?_⟩, hkey.2⟩
    simpa using hkey.1
  · rintro ⟨node, hvis, key, hkeyMem, ⟨labelId, hlab, hhas⟩, hkey⟩
    refine ⟨(labelId, key.key), mem_filterMap.mpr ⟨key, hkeyMem, by simp [hlab]⟩, node, ⟨id, hvis, ?_⟩, h.visible_id hvis⟩
    exact ⟨by simpa using hhas, hkey⟩

variable {pat : GraphNodePattern} {query : NormalizedNodeQuery}

/-- What the query of a pattern accepts. -/
theorem bindable_iff (h : sl.KeysIndexed) {allowFullScan : Bool}
    (hqry : normalizeGraphRowRuntimeNode sl cat allowFullScan pat = .ok query) (id : ℕ) :
    Bindable sl pols query id ↔ ∃ node, Eligible sl cat pols pat id node ∧ (¬∃ key ∈ pat.keys, cat.lookup key.label = none) ∧
        (pat.ids = [] ∧ (∀ other otherNode, sl.findNode other = some otherNode →
            ¬OwnsOneOf cat otherNode pat.keys) ∨ id ∈ pat.ids ∨ OwnsOneOf cat node pat.keys) := by
  have hbind : Bindable sl pols query id ↔ (sl.findNode id).any (nodeAccepted query pols) := by
    simp only [Bindable, mem_graphRowVerifiedNodeIds h]
    exact ⟨fun ⟨_, _, hacc⟩ => hacc, fun hacc => ⟨[id], by simp, hacc⟩⟩
  rw [normalizeGraphRowRuntimeNode] at hqry
  obtain ⟨labelFilter, hlabs, hqry⟩ := bind_ok hqry
  obtain ⟨⟨refs, unknown⟩, hkeys, hqry⟩ := bind_ok hqry
  obtain ⟨rfl, hunk⟩ := resolveKeyRefs_ok hkeys
  obtain rfl := ok.inj hqry
  rw [hbind, ← hunk]
  have hids : ∀ ids : List ℕ, ((ids.insertionSort (· ≤ ·)).dedup = [] ↔ ids = []) ∧
      ∀ id, id ∈ (ids.insertionSort (· ≤ ·)).dedup ↔ id ∈ ids := by
    intro ids
    have hmem : ∀ id, id ∈ (ids.insertionSort (· ≤ ·)).dedup ↔ id ∈ ids := fun id => by rw [mem_dedup, (perm_insertionSort _ _).mem_iff]
    refine ⟨?_, hmem⟩
    simp only [eq_nil_iff_forall_not_mem, hmem]
  cases hnode : sl.findNode id with
  | none =>
    refine ⟨fun hacc => absurd hacc (by simp), ?_⟩
    rintro ⟨node, hel, -⟩
    rw [hel.found] at hnode
    cases hnode
  | some node =>
    have hid : node.id = id := h.visible_id (by rw [← h.wellFormed.findNode]; exact hnode)
    have hfil : nodeSatisfies (if ResolvedNodeLabelFilter.isEmptyConstraint labelFilter || unknown then
        .alwaysFalse else pat.filter.getD .alwaysTrue) node = true ↔
        ResolvedNodeLabelFilter.isEmptyConstraint labelFilter = false ∧ unknown = false ∧
          ∀ filter, pat.filter = some filter → nodeSatisfies filter node = true := by
      cases ResolvedNodeLabelFilter.isEmptyConstraint labelFilter <;> cases unknown <;>
        cases pat.filter <;>
        simp [nodeSatisfies, nodeFilterProjectedMatches]
    have hemp : nodeLabelFilterMatches labelFilter node.labelIds = true →
        ResolvedNodeLabelFilter.isEmptyConstraint labelFilter = false := by
      cases labelFilter <;> simp [nodeLabelFilterMatches, ResolvedNodeLabelFilter.isEmptyConstraint]
    have hnone : (sl.findNodeIdsByLabelKeys (pat.keys.filterMap fun key =>
        (cat.lookup key.label).map fun labelId => (labelId, key.key))).filterMap (fun id => id) = [] ↔
        ∀ other otherNode, sl.findNode other = some otherNode → ¬OwnsOneOf cat otherNode pat.keys := by
      simp only [eq_nil_iff_forall_not_mem, mem_resolvedIds h, not_exists, not_and]
    simp only [any_some, nodeAccepted, Bool.and_eq_true]
    rw [hfil]
    simp only [isEmpty_nil, Bool.true_or, and_true, Bool.or_eq_true, List.isEmpty_iff, (hids _).1, contains_iff_mem, (hids _).2,
      append_eq_nil_iff, mem_append, hid, mem_resolvedIds h, hnone,
      labelFilterMatches_iff hlabs, Bool.not_eq_true']
    constructor
    · rintro ⟨⟨⟨hlabelsMatch, hcons⟩, hadmi⟩, -, hunknownFalse, hfilterHolds⟩
      refine ⟨node, ⟨hnode, hadmi, hlabelsMatch, hfilterHolds⟩, by simp [hunknownFalse], ?_⟩
      rcases hcons with hnil | hmem | ⟨other, hoth, howned⟩
      · exact .inl hnil
      · exact .inr (.inl hmem)
      · rw [hnode] at hoth
        cases hoth
        exact .inr (.inr howned)
    · rintro ⟨other, hel, hkn, hcons⟩
      have hsame : other = node := by
        have hfnd := hel.found
        rw [hnode] at hfnd
        exact (some.inj hfnd).symm
      subst hsame
      have hmat := (labelFilterMatches_iff hlabs other).mpr hel.labels
      refine ⟨⟨⟨hel.labels, ?_⟩, hel.admitted⟩, hemp hmat, by simpa using hkn, hel.filter⟩
      rcases hcons with hnil | hmem | howned
      · exact .inl hnil
      · exact .inr (.inl hmem)
      · exact .inr (.inr ⟨other, hnode, howned⟩)

theorem eligible_unique {id : ℕ} {node other : NodeRecord}
    (h : Eligible sl cat pols pat id node)
    (h' : Eligible sl cat pols pat id other) : node = other :=
  some.inj (h.found.symm.trans h'.found)

theorem bindable_eq_pattern_iff (h : sl.KeysIndexed) {allowFullScan : Bool}
    (hqry : normalizeGraphRowRuntimeNode sl cat allowFullScan pat = .ok query) :
    (∀ id, Bindable sl pols query id ↔ PatternMatches sl cat pols pat id) ↔ KeysHarmless sl cat pols pat := by
  simp only [bindable_iff h hqry, PatternMatches, KeysHarmless]
  split
  · rename_i hkeys
    have hnoOwner : ∀ node, ¬OwnsOneOf cat node [] := fun node ⟨_, hkey, _⟩ => by cases hkey
    refine iff_of_true (fun id => exists_congr fun node => and_congr_right fun _ => ?_) trivial
    simp only [hnoOwner, hkeys, ne_eq, not_true, false_imp_iff, and_true, or_false, not_false_iff,
      implies_true, not_mem_nil, false_and, exists_false, true_and]
    tauto
  · rename_i hkeys
    split
    · rename_i hunk
      simp only [hunk, not_true, false_and, and_false, exists_false, false_iff, not_exists, not_and, hkeys,
        ne_eq, not_false_iff, true_imp_iff]
    · rename_i hkn
      split
      · rename_i hids
        simp only [hkn, hids, not_false_iff, true_and, ne_eq, not_true, false_imp_iff, hkeys, true_imp_iff, not_mem_nil, false_or]
        constructor
        · intro hsame
          by_contra hnot
          rw [not_or] at hnot
          obtain ⟨hnoOwner, hexi⟩ := hnot
          apply hexi
          intro id node hel
          obtain ⟨other, hel', howns⟩ := (hsame id).mp
            ⟨node, hel, .inl fun other otherNode hfnd howns => hnoOwner ⟨other, otherNode, hfnd, howns⟩⟩
          exact hnoOwner ⟨id, other, hel'.found, howns⟩
        · rintro (⟨other, otherNode, hfnd, howns⟩ | hnone) id
          · refine exists_congr fun node => and_congr_right fun _ => ?_
            exact or_iff_right fun hnoOwner => hnoOwner other otherNode hfnd howns
          · exact ⟨fun ⟨node, hel, _⟩ => absurd hel (hnone id node), fun ⟨node, hel, _⟩ => absurd hel (hnone id node)⟩
      · rename_i hids
        simp only [hkn, hids, not_false_iff, true_and, ne_eq, false_and, false_or, true_imp_iff, hkeys]
        constructor
        · intro hsame id node hel
          constructor
          · intro hmem
            obtain ⟨other, hel', -, howns⟩ := (hsame id).mp ⟨node, hel, .inl hmem⟩
            rwa [eligible_unique hel hel']
          · intro howns
            obtain ⟨other, -, hmem, -⟩ := (hsame id).mp ⟨node, hel, .inr howns⟩
            exact hmem
        · intro hsame id
          refine exists_congr fun node => and_congr_right fun hel => ?_
          rw [hsame id node hel]
          tauto

/-- The keys pushed into a pattern select the nodes with one of these keys. -/
theorem pushed_matches {base pat : GraphNodePattern} {keys : List String} (hkeys : keys ≠ [])
    (hpush : pushNodeKeys base keys = some pat) (id : ℕ) : PatternMatches sl cat pols pat id ↔
      PatternMatches sl cat pols base id ∧ ∃ node, sl.findNode id = some node ∧ node.key ∈ keys := by
  rw [pushNodeKeys] at hpush
  split at hpush
  · rename_i hsupp
    simp only [Bool.and_eq_true, List.isEmpty_iff] at hsupp
    obtain ⟨hlabs, hnone⟩ := hsupp
    cases hpush
    have hfil : ∃ label, base.labelFilter = some ⟨[label], .all⟩ := by
      rcases hf : base.labelFilter with - | ⟨labels, - | -⟩
      · simp [hf, nodeKeyPushdownSupported] at hlabs
      · simp [hf, nodeKeyPushdownSupported] at hlabs
      · simp only [hf, nodeKeyPushdownSupported, beq_iff_eq, length_eq_one_iff] at hlabs
        obtain ⟨label, rfl⟩ := hlabs
        exact ⟨label, rfl⟩
    obtain ⟨label, hlab⟩ := hfil
    simp only [PatternMatches, hnone, hlab, nil_append, bind_some, head?_cons,
      getD_some, ne_eq, map_eq_nil_iff, hkeys, not_false_iff, true_imp_iff, not_true, false_imp_iff,
      and_true]
    constructor
    · rintro ⟨node, hel, hids, key, hkey, -, hown⟩
      obtain ⟨name, hname, rfl⟩ := mem_map.mp hkey
      refine ⟨⟨node, ⟨hel.found, hel.admitted, ?_, hel.filter⟩, hids⟩, node, hel.found, by rw [hown]; exact hname⟩
      exact hlab ▸ hel.labels
    · rintro ⟨⟨node, hel, hids⟩, other, hfnd, hname⟩
      have hsame : other = node := some.inj (hfnd.symm.trans hel.found)
      subst hsame
      have hhas : HasLabel cat other label := by
        have hm' := hel.labels
        rw [hlab] at hm'
        exact hm' label (by simp)
      exact ⟨other, ⟨hel.found, hel.admitted, hlab ▸ hel.labels, hel.filter⟩, hids,
        ⟨label, other.key⟩, mem_map.mpr ⟨other.key, hname, rfl⟩, hhas, rfl⟩
  · cases hpush

end

/-- Whatever the state, the nodes that can be bound are those that meet all constraints of
the pattern, and a pushed key predicate selects the nodes it is true of, exactly where the
keys do no harm. -/
theorem constraints_conjunctive_iff (L : Layering) (h : Accepted L.history) (cat : LabelCatalog)
    (pols : Option PrecomputedPruneCutoffs) (allowFullScan : Bool) (pat : GraphNodePattern)
    (query : NormalizedNodeQuery)
    (hquery : normalizeGraphRowRuntimeNode L.sources cat allowFullScan pat = .ok query) :
    ((∀ id, Bindable L.sources pols query id ↔ PatternMatches L.sources cat pols pat id) ↔
      KeysHarmless L.sources cat pols pat) ∧
    ∀ base keys, keys ≠ [] → pushNodeKeys base keys = some pat → ((∀ id, Bindable L.sources pols query id ↔
          PatternMatches L.sources cat pols base id ∧
            ∃ node, L.sources.findNode id = some node ∧ node.key ∈ keys) ↔
        KeysHarmless L.sources cat pols pat) := by
  have hindexed := Layering.keysIndexed h.keysUnambiguous
  refine ⟨bindable_eq_pattern_iff hindexed hquery, fun base keys hkeys hpush => ?_⟩
  simp only [← pushed_matches hkeys hpush]
  exact bindable_eq_pattern_iff hindexed hquery

private def keyed (id : ℕ) (key : String) : NodeRecord := ⟨id, .single 1 Nat.one_ne_zero, key, ∅, 0, 0, 0, none, none, 0⟩

/-- One node, with the key `a`. -/
private def oneKeyed : Layering := ⟨[(1, .upsertNode (keyed 1 "a"))], [], []⟩

private def oneLabel : LabelCatalog := AList.singleton "N" 1

private def labelled : GraphNodePattern := ⟨some ⟨["N"], .all⟩, [], [], none⟩

private def queryOf (pat : GraphNodePattern) : NormalizedNodeQuery :=
  ((normalizeGraphRowRuntimeNode oneKeyed.sources oneLabel false pat).toOption).getD
    ⟨none, .unconstrained, [], [], .alwaysFalse, false, {}⟩

theorem normalize_queryOf {pat : GraphNodePattern}
    (h : (normalizeGraphRowRuntimeNode oneKeyed.sources oneLabel false pat).toOption.isSome) :
    normalizeGraphRowRuntimeNode oneKeyed.sources oneLabel false pat = .ok (queryOf pat) := by
  rw [queryOf]
  cases hq : normalizeGraphRowRuntimeNode oneKeyed.sources oneLabel false pat with
  | error msg => simp [hq, Except.toOption] at h
  | ok query => rfl

theorem accepted_oneKeyed : Accepted oneKeyed.history := accepted_of_one 1 (by decide)

private def withKey (key : String) : GraphNodePattern := { labelled with keys := [⟨"N", key⟩] }

/-- A key that a visible node owns selects this node. -/
theorem existing_key_selects_node : (∀ id, Bindable oneKeyed.sources none (queryOf (withKey "a")) id ↔
        PatternMatches oneKeyed.sources oneLabel none (withKey "a") id) ∧
      ∀ id, Bindable oneKeyed.sources none (queryOf (withKey "a")) id ↔
        PatternMatches oneKeyed.sources oneLabel none labelled id ∧
          ∃ node, oneKeyed.sources.findNode id = some node ∧ node.key ∈ ["a"] := by
  have hiff := constraints_conjunctive_iff oneKeyed accepted_oneKeyed oneLabel none false (withKey "a")
    (queryOf (withKey "a")) (normalize_queryOf (by decide))
  obtain ⟨node, hnode⟩ := isSome_iff_exists.mp
    (show (oneKeyed.sources.findNode 1).isSome by decide)
  have hkey : (oneKeyed.sources.findNode 1).map (fun n => (n.key, n.labelIds.contains 1)) =
      some ("a", true) := by decide
  rw [hnode, map_some, some.injEq, Prod.mk.injEq] at hkey
  have hharmless : KeysHarmless oneKeyed.sources oneLabel none (withKey "a") := by
    have hids : (withKey "a").ids = [] := rfl
    rw [KeysHarmless, if_neg (by simp [withKey]), if_neg (by decide),
      if_pos hids]
    exact .inl ⟨1, node, hnode, ⟨"N", "a"⟩, by simp [withKey], ⟨1, rfl, hkey.2⟩, hkey.1⟩
  exact ⟨hiff.1.mpr hharmless, (hiff.2 labelled ["a"] (by simp) rfl).mpr hharmless⟩

/-- A key that no visible node owns does not restrict the pattern at all. -/
theorem missing_key_selects_everything :
    ¬∀ (L : Layering) (cat : LabelCatalog) (pols : Option PrecomputedPruneCutoffs)
      (allowFullScan : Bool) (pat : GraphNodePattern) (query : NormalizedNodeQuery),
      Accepted L.history → normalizeGraphRowRuntimeNode L.sources cat allowFullScan pat = .ok query →
      ∀ id, Bindable L.sources pols query id ↔ PatternMatches L.sources cat pols pat id := by
  intro h
  have hbind : Bindable oneKeyed.sources none (queryOf (withKey "b")) 1 := ⟨[1], by decide⟩
  obtain ⟨node, heligible, -, howns⟩ := (h oneKeyed oneLabel none false (withKey "b") (queryOf (withKey "b"))
    accepted_oneKeyed (normalize_queryOf (by decide)) 1).mp hbind
  obtain ⟨key, hkey, -, hname⟩ := howns (by simp [withKey])
  have hb : node.key = "b" := by
    rw [hname, mem_singleton.mp hkey]
  have ha : (oneKeyed.sources.findNode 1).map (·.key) = some "a" := by decide
  rw [heligible.found, map_some, hb] at ha
  exact absurd ha (by decide)

end OverGraph.NodePatterns
