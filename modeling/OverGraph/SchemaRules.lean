import OverGraph.Doubles
import OverGraph.WalCodec

/-!
# The rules of a schema

A schema for a node label or an edge label is checked against single records, and the rules of an edge schema on the labels of
its ends against the nodes there. An end that does not exist breaks every such rule. What a rule says about a node depends
only on which of the labels it mentions the node has.
-/

namespace OverGraph.SchemaRules
open Option hiding any_eq_false any_eq_true or
open AssocMaps Records PropertyValues Doubles WalCodec Fallible List

structure SchemaValidationFailure where
  path : String
  message : String
  deriving DecidableEq

abbrev Check := Except SchemaValidationFailure Unit

def schemaLabelDisplay (labelId : ℕ) : Option String → String
  | some labelName => s!"'{labelName}' (id {labelId})"
  | none => s!"id {labelId}"

def nodeSchemaViolation (node : NodeRecord) (schemaLabelId : ℕ) (schemaLabelName : Option String) (path expected actual : String) :
    SchemaValidationFailure :=
  let label := schemaLabelDisplay schemaLabelId schemaLabelName
  ⟨path, s!"schema violation: node id {node.id} label {label} path {path} expected {expected}; actual {actual}"⟩

def edgeSchemaViolation (edge : EdgeRecord) (schemaLabelName : Option String) (path expected actual : String) : SchemaValidationFailure :=
  let label := schemaLabelDisplay edge.labelId schemaLabelName
  ⟨path, s!"schema violation: edge id {edge.id} label {label} path {path} expected {expected}; actual {actual}"⟩

def ensure (holds : Bool) (failure : SchemaValidationFailure) : Check := if holds then .ok () else .error failure

structure DebugFormat where
  value : PropValue → String
  weight : F32 → String

structure CompiledNumericBound where
  value : PropValue
  key : NumericScalarKey
  inclusive : Bool

inductive SchemaValueType where
  | bool | int | uint | float | number | string | bytes | array | map

structure CompiledEnumValue where
  value : PropValue
  numericKey : Option NumericScalarKey

structure CompiledPropertyRule where
  key : String
  required : Bool
  nullable : Bool
  types : List SchemaValueType
  numericMin : Option CompiledNumericBound
  numericMax : Option CompiledNumericBound
  stringMinBytes : Option ℕ
  stringMaxBytes : Option ℕ
  bytesMinLen : Option ℕ
  bytesMaxLen : Option ℕ
  arrayMinItems : Option ℕ
  arrayMaxItems : Option ℕ
  mapMinEntries : Option ℕ
  mapMaxEntries : Option ℕ
  enumValues : List CompiledEnumValue

structure CompiledStringFieldRule where
  minBytes : Option ℕ
  maxBytes : Option ℕ
  enumValues : List String

structure CompiledNumericFieldRule where
  min : Option CompiledNumericBound
  max : Option CompiledNumericBound
  finite : Bool

def SchemaValueType.name : SchemaValueType → String
  | .bool => "Bool"
  | .int => "Int"
  | .uint => "UInt"
  | .float => "Float"
  | .number => "Number"
  | .string => "String"
  | .bytes => "Bytes"
  | .array => "Array"
  | .map => "Map"

def propValueTypeName : PropValue → String
  | .null => "null"
  | .bool _ => "bool"
  | .int _ => "int"
  | .uint _ => "uint"
  | .float _ => "float"
  | .string _ => "string"
  | .bytes _ => "bytes"
  | .array _ => "array"
  | .map _ => "map"

def schemaValueTypeMatches : SchemaValueType → PropValue → Bool
  | .bool, .bool _ | .int, .int _ | .uint, .uint _ | .float, .float _ | .string, .string _ | .bytes, .bytes _
  | .array, .array _ | .map, .map _ => true
  | .number, value => (numericKey value).isSome
  | _, _ => false

def compiledEnumValueMatches (c : CompiledEnumValue) (value : PropValue) : Bool :=
  match c.numericKey, numericKey value with
  | some candidateKey, some valueKey => decide (candidateKey = valueKey)
  | _, _ => semanticPropertyEq value c.value

def f32IsFinite (bits : F32) : Bool := decide (bits.toNat % 2 ^ 31 < 0x7f800000)

section
variable (debug : DebugFormat)

def validateLenBounds (len : ℕ) (min max : Option ℕ) (summary path : String)
    (makeError : String → String → String → SchemaValidationFailure) : Check := do
  if let some min := min then
    ensure (decide (min ≤ len)) (makeError path s!"{summary} >= {min}" s!"{len}")
  if let some max := max then
    ensure (decide (len ≤ max)) (makeError path s!"{summary} <= {max}" s!"{len}")

def validateNumericBoundPair (valueKey : NumericScalarKey) (min max : Option CompiledNumericBound) (path actual : String)
    (makeError : String → String → String → SchemaValidationFailure) : Check := do
  if let some bound := min then
    let ordering := compareNumericKeys valueKey bound.key
    let sign := if bound.inclusive then ">=" else ">"
    ensure (ordering == .gt || (ordering == .eq && bound.inclusive)) (makeError path s!"numeric value {sign} {debug.value bound.value}" actual)
  if let some bound := max then
    let ordering := compareNumericKeys valueKey bound.key
    let sign := if bound.inclusive then "<=" else "<"
    ensure (ordering == .lt || (ordering == .eq && bound.inclusive)) (makeError path s!"numeric value {sign} {debug.value bound.value}" actual)

def validatePropertyNumericBounds (rule : CompiledPropertyRule) (value : PropValue) (path : String)
    (makeError : String → String → String → SchemaValidationFailure) : Check :=
  if rule.numericMin.isNone && rule.numericMax.isNone then .ok ()
  else match numericKey value with
    | none => .error (makeError path "finite numeric value" (debug.value value))
    | some valueKey => validateNumericBoundPair debug valueKey rule.numericMin rule.numericMax path (debug.value value) makeError

def validateTypeSpecificPropertyBounds (rule : CompiledPropertyRule) (value : PropValue) (path : String)
    (makeError : String → String → String → SchemaValidationFailure) : Check :=
  match value with
  | .string s => validateLenBounds (utf8 s).length rule.stringMinBytes rule.stringMaxBytes "UTF-8 byte length" path makeError
  | .bytes bs => validateLenBounds bs.length rule.bytesMinLen rule.bytesMaxLen "byte length" path makeError
  | .array items => validateLenBounds items.length rule.arrayMinItems rule.arrayMaxItems "array item count" path makeError
  | .map entries => validateLenBounds entries.length rule.mapMinEntries rule.mapMaxEntries "map entry count" path makeError
  | .null | .bool _ | .int _ | .uint _ | .float _ => .ok ()

def validatePropertyRule (rule : CompiledPropertyRule) (value : Option PropValue)
    (makeError : String → String → String → SchemaValidationFailure) : Check :=
  let path := "properties." ++ rule.key
  match value with
  | none => ensure (!rule.required) (makeError path "required property" "missing")
  | some .null => ensure rule.nullable (makeError path "non-null value" "null")
  | some value => do
    let typeNames := ", ".intercalate (rule.types.map (·.name))
    ensure (rule.types.isEmpty || rule.types.any (schemaValueTypeMatches · value))
      (makeError path s!"type in [{typeNames}]" (propValueTypeName value))
    validatePropertyNumericBounds debug rule value path makeError
    validateTypeSpecificPropertyBounds rule value path makeError
    ensure (rule.enumValues.isEmpty || rule.enumValues.any (compiledEnumValueMatches · value))
      (makeError path s!"one of {rule.enumValues.length} enum values" (debug.value value))

def validateStringFieldRule (value : String) (rule : CompiledStringFieldRule) (makeError : String → String → SchemaValidationFailure) :
    Check := do
  validateLenBounds (utf8 value).length rule.minBytes rule.maxBytes "UTF-8 byte length" "" fun _ => makeError
  ensure (rule.enumValues.isEmpty || rule.enumValues.contains value) (makeError s!"one of {rule.enumValues.length} enum values" value)

def validateWeightRule (weight : F32) (rule : CompiledNumericFieldRule) (makeError : String → String → SchemaValidationFailure) :
    Check := do
  ensure (!rule.finite || f32IsFinite weight) (makeError "finite weight" (debug.weight weight))
  if rule.min.isSome || rule.max.isSome then
    match numericKey (.float (f64FromF32 weight)) with
    | none => .error (makeError "finite numeric weight within bounds" (debug.weight weight))
    | some valueKey => validateNumericBoundPair debug valueKey rule.min rule.max "weight" (debug.weight weight) fun _ => makeError

end

structure CompiledLabelRule where
  allOf : List ℕ
  anyOf : List ℕ
  noneOf : List ℕ

/-- The labels that a rule mentions. -/
def CompiledLabelRule.labels (rule : CompiledLabelRule) : List ℕ := rule.allOf ++ rule.anyOf ++ rule.noneOf

def validateCompiledLabelRule (rule : CompiledLabelRule) (labels : NodeLabelSet) (pathBase : String)
    (makeError : String → String → SchemaValidationFailure) : Check := do
  rule.allOf.forM fun labelId => ensure (labels.contains labelId) (makeError (pathBase ++ ".all_of") s!"label_id {labelId} to be present")
  ensure (rule.anyOf.isEmpty || rule.anyOf.any labels.contains) (makeError (pathBase ++ ".any_of") s!"one of label_ids {rule.anyOf}")
  rule.noneOf.forM fun labelId => ensure (!labels.contains labelId) (makeError (pathBase ++ ".none_of") s!"label_id {labelId} to be absent")

def missingEndpointRulePath (endpoint : String) (rule : CompiledLabelRule) : String :=
  if !rule.allOf.isEmpty then endpoint ++ ".labels.all_of"
  else if !rule.anyOf.isEmpty then endpoint ++ ".labels.any_of"
  else endpoint ++ ".labels.none_of"

def validateEdgeEndpointLabelRule (edge : EdgeRecord) (schemaLabelName : Option String) (endpoint : String) (endpointNodeId : ℕ)
    (rule : CompiledLabelRule) : Option NodeLabelSet → Check
  | none => .error (edgeSchemaViolation edge schemaLabelName (missingEndpointRulePath endpoint rule)
      "existing endpoint with labels satisfying endpoint rule" s!"{endpoint} endpoint node id {endpointNodeId} missing endpoint")
  | some labels => validateCompiledLabelRule rule labels (endpoint ++ ".labels") fun path expected =>
      edgeSchemaViolation edge schemaLabelName path expected s!"{endpoint} endpoint node id {endpointNodeId} labels {labels.labelIds}"

inductive SchemaAdditionalProperties where
  | allow
  | reject
  deriving DecidableEq

inductive SchemaVectorPresence where
  | optional
  | required
  | forbidden

structure CompiledDenseVectorRule where
  presence : SchemaVectorPresence
  dimension : Option ℕ

structure CompiledSparseVectorRule where
  presence : SchemaVectorPresence
  minEntries : Option ℕ
  maxEntries : Option ℕ
  maxDimensionId : Option ℕ

structure EdgeValidityRule where
  requireValidFromBeforeValidTo : Bool
  validFromMin : Option ℤ
  validFromMax : Option ℤ
  validToMin : Option ℤ
  validToMax : Option ℤ
  allowOpenEndedValidTo : Bool

structure CompiledNodeSchema where
  labelId : ℕ
  labelName : Option String
  additionalProperties : SchemaAdditionalProperties
  properties : List CompiledPropertyRule
  propertyKeys : List String
  key : Option CompiledStringFieldRule
  labelConstraints : Option CompiledLabelRule
  weight : Option CompiledNumericFieldRule
  denseVector : Option CompiledDenseVectorRule
  sparseVector : Option CompiledSparseVectorRule

structure CompiledEdgeSchema where
  labelId : ℕ
  labelName : Option String
  additionalProperties : SchemaAdditionalProperties
  properties : List CompiledPropertyRule
  propertyKeys : List String
  source : Option CompiledLabelRule
  target : Option CompiledLabelRule
  allowSelfLoops : Bool
  weight : Option CompiledNumericFieldRule
  validity : Option EdgeValidityRule

structure DenseVectorConfig where
  dimension : ℕ
  hnswM : ℕ
  hnswEfConstruction : ℕ

def validateDenseVector (vs : DenseVector) (config : DenseVectorConfig) : Except String Unit :=
  if config.dimension = 0 then .error "dense vector dimension must be > 0"
  else if config.hnswM = 0 then .error "dense HNSW m must be > 0"
  else if config.hnswEfConstruction = 0 then .error "dense HNSW ef_construction must be > 0"
  else if config.hnswEfConstruction < config.hnswM then
    .error s!"dense HNSW ef_construction ({config.hnswEfConstruction}) must be >= m ({config.hnswM})"
  else if vs.length ≠ config.dimension then
    .error s!"dense vector length {vs.length} does not match configured dimension {config.dimension}"
  else if vs.all f32IsFinite then .ok ()
  else .error "dense vector contains NaN or infinite value"

def validateDenseVectorRule (node : NodeRecord) (sch : CompiledNodeSchema) (rule : CompiledDenseVectorRule)
    (denseConfig : Option DenseVectorConfig) : Check := do
  let violation := nodeSchemaViolation node sch.labelId sch.labelName "dense_vector"
  if let (some schemaDimension, some config) := (rule.dimension, denseConfig) then
    ensure (decide (schemaDimension = config.dimension))
      (violation s!"schema dimension {schemaDimension} to match DB dimension {config.dimension}" "dimension mismatch")
  match rule.presence, node.denseVector with
  | .required, none => .error (violation "present dense vector" "absent")
  | .forbidden, some _ => .error (violation "absent dense vector" "present")
  | .optional, _ | .required, some _ | .forbidden, none => .ok ()
  if let (some vs, some config) := (node.denseVector, denseConfig) then
    match validateDenseVector vs config with
    | .ok () => .ok ()
    | .error msg => .error (violation "valid dense vector for DB config" msg)

def validateSparseVectorRule (node : NodeRecord) (sch : CompiledNodeSchema) (rule : CompiledSparseVectorRule) : Check := do
  let violation := nodeSchemaViolation node sch.labelId sch.labelName "sparse_vector"
  match rule.presence, node.sparseVector with
  | .required, none => .error (violation "present sparse vector" "absent")
  | .forbidden, some _ => .error (violation "absent sparse vector" "present")
  | .optional, _ | .required, some _ | .forbidden, none => .ok ()
  if let some vector := node.sparseVector then
    validateLenBounds vector.length rule.minEntries rule.maxEntries "entry count" "" fun _ => violation
    if let some maxDimensionId := rule.maxDimensionId then
      if let some entry := vector.find? fun entry => decide (maxDimensionId < entry.1) then
        .error (violation s!"dimension_id <= {maxDimensionId}" s!"{entry.1}")

def validateNodeClosedProperties (node : NodeRecord) (applicable : List CompiledNodeSchema) : Check :=
  match applicable.find? (·.additionalProperties == .reject) with
  | none => .ok ()
  | some sch =>
    let allowed := applicable.flatMap (·.propertyKeys)
    node.props.entries.forM fun entry => ensure (allowed.contains entry.1)
      (nodeSchemaViolation node sch.labelId sch.labelName ("properties." ++ entry.1) "property declared by applicable node schema"
        "undeclared property")

def validateEdgeClosedProperties (edge : EdgeRecord) (sch : CompiledEdgeSchema) : Check :=
  if sch.additionalProperties ≠ .reject then .ok ()
  else edge.props.entries.forM fun entry => ensure (sch.propertyKeys.contains entry.1)
    (edgeSchemaViolation edge sch.labelName ("properties." ++ entry.1) "property declared by edge schema" "undeclared property")

def validateEdgeValidityRule (edge : EdgeRecord) (labelName : Option String) (rule : EdgeValidityRule) : Check := do
  let violation := edgeSchemaViolation edge labelName
  ensure (!rule.requireValidFromBeforeValidTo || decide (edge.validFrom < edge.validTo))
    (violation "validity.valid_from" "valid_from < valid_to" s!"valid_from {edge.validFrom} valid_to {edge.validTo}")
  if let some min := rule.validFromMin then
    ensure (decide (min ≤ edge.validFrom)) (violation "validity.valid_from" s!"valid_from >= {min}" s!"{edge.validFrom}")
  if let some max := rule.validFromMax then
    ensure (decide (edge.validFrom ≤ max)) (violation "validity.valid_from" s!"valid_from <= {max}" s!"{edge.validFrom}")
  if let some min := rule.validToMin then
    ensure (decide (min ≤ edge.validTo)) (violation "validity.valid_to" s!"valid_to >= {min}" s!"{edge.validTo}")
  if let some max := rule.validToMax then
    ensure (decide (edge.validTo ≤ max)) (violation "validity.valid_to" s!"valid_to <= {max}" s!"{edge.validTo}")
  ensure (rule.allowOpenEndedValidTo || decide (edge.validTo ≠ i64Max))
    (violation "validity.valid_to" "finite valid_to" "open-ended i64::MAX")

structure RuntimeSchemaCatalog where
  nodeByLabelId : Map ℕ CompiledNodeSchema
  edgeByLabelId : Map ℕ CompiledEdgeSchema
  nodeSchemaLabelIds : List ℕ
  edgeSchemaLabelIds : List ℕ
  endpointRelevantNodeLabelIds : List ℕ
  endpointConstrainedEdgeLabelIds : List ℕ
  isEmpty : Bool
  hasEdgeEndpointConstraints : Bool

namespace RuntimeSchemaCatalog

def addNodeSchema (cat : RuntimeSchemaCatalog) (sch : CompiledNodeSchema) : RuntimeSchemaCatalog :=
  { cat with
    nodeSchemaLabelIds := sch.labelId :: cat.nodeSchemaLabelIds
    nodeByLabelId := cat.nodeByLabelId.insert sch.labelId sch }

/-- A rule on one end of the edges with a label. -/
def addEndpointRule (labelId : ℕ) (cat : RuntimeSchemaCatalog) : Option CompiledLabelRule → RuntimeSchemaCatalog
  | none => cat
  | some rule =>
    { cat with
      hasEdgeEndpointConstraints := true
      endpointConstrainedEdgeLabelIds := cat.endpointConstrainedEdgeLabelIds ++ [labelId]
      endpointRelevantNodeLabelIds := rule.labels ++ cat.endpointRelevantNodeLabelIds }

def addEdgeSchema (cat : RuntimeSchemaCatalog) (sch : CompiledEdgeSchema) : RuntimeSchemaCatalog :=
  let cat := { cat with edgeSchemaLabelIds := sch.labelId :: cat.edgeSchemaLabelIds }
  let cat := addEndpointRule sch.labelId (addEndpointRule sch.labelId cat sch.source) sch.target
  { cat with edgeByLabelId := cat.edgeByLabelId.insert sch.labelId sch }

/-- The catalog of a manifest whose entries are compiled. -/
def fromManifest (nodeSchemas : List CompiledNodeSchema) (edgeSchemas : List CompiledEdgeSchema) : RuntimeSchemaCatalog :=
  let start : RuntimeSchemaCatalog := ⟨∅, ∅, [], [], [], [], nodeSchemas.isEmpty && edgeSchemas.isEmpty, false⟩
  let cat := edgeSchemas.foldl addEdgeSchema (nodeSchemas.foldl addNodeSchema start)
  { cat with
    endpointConstrainedEdgeLabelIds := (cat.endpointConstrainedEdgeLabelIds.insertionSort (· ≤ ·)).dedup }

variable (debug : DebugFormat) (cat : RuntimeSchemaCatalog)

def nodeHasApplicableSchema (labels : NodeLabelSet) : Bool := labels.labelIds.any cat.nodeSchemaLabelIds.contains

def applicableNodeSchemas (labels : NodeLabelSet) : List CompiledNodeSchema :=
  (labels.labelIds.filterMap cat.nodeByLabelId.lookup).take maxNodeLabelsPerNode

def edgeHasApplicableSchema (labelId : ℕ) : Bool := cat.edgeSchemaLabelIds.contains labelId

def edgeHasWalValidationRules (labelId : ℕ) : Bool :=
  (cat.edgeByLabelId.lookup labelId).any fun sch =>
    !sch.properties.isEmpty || sch.additionalProperties == .reject || sch.weight.isSome || sch.validity.isSome ||
      sch.source.isSome || sch.target.isSome || !sch.allowSelfLoops

def edgeSchemaHasEndpointRules (labelId : ℕ) : Bool :=
  (cat.edgeByLabelId.lookup labelId).any fun sch => sch.source.isSome || sch.target.isSome

def labelChangeMayAffectEndpointRules (oldLabels finalLabels : Option NodeLabelSet) (deleted : Bool) : Bool :=
  cat.hasEdgeEndpointConstraints && (deleted || cat.endpointRelevantNodeLabelIds.any fun labelId =>
    oldLabels.any (·.contains labelId) != finalLabels.any (·.contains labelId))

def validateNodeRecordDetailed (node : NodeRecord) (denseConfig : Option DenseVectorConfig) : Check :=
  if cat.isEmpty || !cat.nodeHasApplicableSchema node.labelIds then .ok ()
  else do
    let applicable := cat.applicableNodeSchemas node.labelIds
    let violation := fun sch : CompiledNodeSchema => nodeSchemaViolation node sch.labelId sch.labelName
    applicable.forM fun sch => sch.labelConstraints.forM fun rule =>
      validateCompiledLabelRule rule node.labelIds "labels" fun path expected =>
        violation sch path expected s!"labels {node.labelIds.labelIds}"
    applicable.forM fun sch => sch.key.forM fun rule => validateStringFieldRule node.key rule (violation sch "key")
    applicable.forM fun sch => sch.weight.forM fun rule => validateWeightRule debug node.weight rule (violation sch "weight")
    applicable.forM fun sch => do
      sch.denseVector.forM fun rule => validateDenseVectorRule node sch rule denseConfig
      sch.sparseVector.forM fun rule => validateSparseVectorRule node sch rule
    applicable.forM fun sch => sch.properties.forM fun rule => validatePropertyRule debug rule (node.props.lookup rule.key) (violation sch)
    validateNodeClosedProperties node applicable

def validateEdgeRecordDetailed (edge : EdgeRecord) : Check :=
  if cat.isEmpty || !cat.edgeHasApplicableSchema edge.labelId then .ok ()
  else match cat.edgeByLabelId.lookup edge.labelId with
    | none => .ok ()
    | some sch => do
      let violation := edgeSchemaViolation edge sch.labelName
      sch.weight.forM fun rule => validateWeightRule debug edge.weight rule (violation "weight")
      sch.validity.forM fun rule => validateEdgeValidityRule edge sch.labelName rule
      sch.properties.forM fun rule => validatePropertyRule debug rule (edge.props.lookup rule.key) violation
      validateEdgeClosedProperties edge sch
      ensure (sch.allowSelfLoops || decide (edge.source ≠ edge.target))
        (violation "self_loop" "from and to to differ" s!"from {edge.source} to {edge.target}")

def validateEdgeEndpointLabelsDetailed (edge : EdgeRecord) (sourceLabels targetLabels : Option NodeLabelSet) : Check :=
  if cat.isEmpty || !cat.edgeHasApplicableSchema edge.labelId then .ok ()
  else match cat.edgeByLabelId.lookup edge.labelId with
    | none => .ok ()
    | some sch => do
      sch.source.forM fun rule => validateEdgeEndpointLabelRule edge sch.labelName "from" edge.source rule sourceLabels
      sch.target.forM fun rule => validateEdgeEndpointLabelRule edge sch.labelName "to" edge.target rule targetLabels

end RuntimeSchemaCatalog

theorem ensure_ok {holds : Bool} {failure : SchemaValidationFailure} : ensure holds failure = .ok () ↔ holds = true := by
  cases holds with
  | false => exact ⟨nofun, nofun⟩
  | true => exact ⟨fun _ => rfl, fun _ => rfl⟩

variable {makeError : String → String → SchemaValidationFailure}

theorem validateCompiledLabelRule_ok {rule : CompiledLabelRule} {labels : NodeLabelSet} {pathBase : String} : validateCompiledLabelRule rule labels pathBase makeError = .ok () ↔
      (∀ labelId ∈ rule.allOf, labels.contains labelId = true) ∧
        ((rule.anyOf.isEmpty || rule.anyOf.any labels.contains) = true ∧ ∀ labelId ∈ rule.noneOf, labels.contains labelId = false) := by
  rw [validateCompiledLabelRule, seq_ok, seq_ok, forM_ok, forM_ok, ensure_ok]
  simp only [ensure_ok, Bool.not_eq_true']

/-- Two label sets that agree on the labels of a rule both pass it or both break it. -/
theorem validateCompiledLabelRule_congr {rule : CompiledLabelRule} {old final : NodeLabelSet} {pathBase pathBase' : String}
    {makeError' : String → String → SchemaValidationFailure}
    (hsame : ∀ labelId ∈ rule.labels, old.contains labelId = final.contains labelId)
    (h : validateCompiledLabelRule rule old pathBase makeError = .ok ()) : validateCompiledLabelRule rule final pathBase' makeError' = .ok () := by
  obtain ⟨hall, hany, hnone⟩ := validateCompiledLabelRule_ok.mp h
  apply validateCompiledLabelRule_ok.mpr
  refine ⟨?_, ?_, ?_⟩
  · intro labelId hlab
    rw [← hsame labelId (mem_append_left _ (mem_append_left _ hlab))]
    exact hall labelId hlab
  · have heq : rule.anyOf.any final.contains = rule.anyOf.any old.contains := by
      rw [Bool.eq_iff_iff, any_eq_true, any_eq_true]
      apply exists_congr
      intro labelId
      apply and_congr_right
      intro hlab
      rw [hsame labelId (mem_append_left _ (mem_append_right _ hlab))]
    rw [heq]
    exact hany
  · intro labelId hlab
    rw [← hsame labelId (mem_append_right _ hlab)]
    exact hnone labelId hlab

namespace RuntimeSchemaCatalog

structure KnowsRule (cat : RuntimeSchemaCatalog) (labelId : ℕ) (rule : CompiledLabelRule) : Prop where
  constraints : cat.hasEdgeEndpointConstraints = true
  constrained : labelId ∈ cat.endpointConstrainedEdgeLabelIds
  relevant : ∀ id ∈ rule.labels, id ∈ cat.endpointRelevantNodeLabelIds

def KnowsEndpointRules (cat : RuntimeSchemaCatalog) : Prop :=
  ∀ labelId sch, cat.edgeByLabelId.lookup labelId = some sch →
    ∀ rule, sch.source = some rule ∨ sch.target = some rule → cat.KnowsRule labelId rule

variable {labelId : ℕ}

theorem KnowsRule.addEndpointRule {cat : RuntimeSchemaCatalog} {rule : CompiledLabelRule}
    (h : cat.KnowsRule labelId rule) (other : ℕ) (added : Option CompiledLabelRule) :
    (addEndpointRule other cat added).KnowsRule labelId rule := by
  cases added with
  | none => exact h
  | some added => exact ⟨rfl, mem_append_left _ h.constrained, fun id hid => mem_append_right _ (h.relevant id hid)⟩

section
variable (cat : RuntimeSchemaCatalog) (labelId : ℕ)

theorem knowsRule_addEndpointRule (rule : CompiledLabelRule) :
    (addEndpointRule labelId cat (some rule)).KnowsRule labelId rule :=
  ⟨rfl, mem_append_right _ mem_cons_self, fun _ hid => mem_append_left _ hid⟩

theorem edgeByLabelId_addEndpointRule (added : Option CompiledLabelRule) :
    (addEndpointRule labelId cat added).edgeByLabelId = cat.edgeByLabelId := by
  cases added <;> rfl

end

theorem KnowsEndpointRules.addEdgeSchema {cat : RuntimeSchemaCatalog} (h : cat.KnowsEndpointRules) (added : CompiledEdgeSchema) :
    (cat.addEdgeSchema added).KnowsEndpointRules := by
  intro labelId sch hlk rule hrule
  have hins : (cat.addEdgeSchema added).edgeByLabelId = cat.edgeByLabelId.insert added.labelId added := by
    simp only [RuntimeSchemaCatalog.addEdgeSchema, edgeByLabelId_addEndpointRule]
  rw [hins] at hlk
  by_cases hlab : labelId = added.labelId
  · subst hlab
    rw [AList.lookup_insert] at hlk
    obtain rfl := some.inj hlk
    have hknows : (addEndpointRule added.labelId (addEndpointRule added.labelId
        { cat with edgeSchemaLabelIds := added.labelId :: cat.edgeSchemaLabelIds } added.source) added.target).KnowsRule
          added.labelId rule := by
      rcases hrule with hrule | hrule
      · rw [hrule]
        exact (knowsRule_addEndpointRule _ _ _).addEndpointRule _ _
      · rw [hrule]
        exact knowsRule_addEndpointRule _ _ _
    exact ⟨hknows.constraints, hknows.constrained, hknows.relevant⟩
  · rw [AList.lookup_insert_ne hlab] at hlk
    have hold := h labelId sch hlk rule hrule
    have hst : RuntimeSchemaCatalog.KnowsRule { cat with edgeSchemaLabelIds := added.labelId :: cat.edgeSchemaLabelIds }
        labelId rule := ⟨hold.constraints, hold.constrained, hold.relevant⟩
    have hknows := (hst.addEndpointRule added.labelId added.source).addEndpointRule added.labelId added.target
    exact ⟨hknows.constraints, hknows.constrained, hknows.relevant⟩

theorem knowsEndpointRules_fromManifest (nodeSchemas : List CompiledNodeSchema) (edgeSchemas : List CompiledEdgeSchema) :
    (fromManifest nodeSchemas edgeSchemas).KnowsEndpointRules := by
  have hfold : ∀ (schemas : List CompiledEdgeSchema) (cat : RuntimeSchemaCatalog), cat.KnowsEndpointRules →
      (schemas.foldl RuntimeSchemaCatalog.addEdgeSchema cat).KnowsEndpointRules := by
    intro schemas
    induction schemas with
    | nil => exact fun _ h => h
    | cons sch schemas ih => exact fun cat h => ih _ (h.addEdgeSchema sch)
  have hnos : ∀ (schemas : List CompiledNodeSchema) (cat : RuntimeSchemaCatalog), cat.edgeByLabelId = ∅ →
      (schemas.foldl addNodeSchema cat).edgeByLabelId = ∅ := by
    intro schemas
    induction schemas with
    | nil => exact fun _ h => h
    | cons sch schemas ih => exact fun cat h => ih _ h
  intro labelId sch hlk rule hrule
  have hknows := hfold edgeSchemas _ (fun labelId sch hlk => by
    rw [hnos nodeSchemas ⟨∅, ∅, [], [], [], [], nodeSchemas.isEmpty && edgeSchemas.isEmpty, false⟩ rfl] at hlk
    cases hlk) labelId sch hlk rule hrule
  refine ⟨hknows.constraints, ?_, hknows.relevant⟩
  apply mem_dedup.mpr
  exact (perm_insertionSort _ _).mem_iff.mpr hknows.constrained

section
variable {debug : DebugFormat} {cat : RuntimeSchemaCatalog}

theorem validateNodeRecordDetailed_unconstrained {node : NodeRecord} (h : cat.nodeHasApplicableSchema node.labelIds = false)
    (denseConfig : Option DenseVectorConfig) : cat.validateNodeRecordDetailed debug node denseConfig = .ok () := by
  rw [validateNodeRecordDetailed, h, Bool.not_false, Bool.or_true]
  rfl

variable {edge : EdgeRecord}

theorem validateEdgeRecordDetailed_unconstrained (h : cat.edgeHasWalValidationRules edge.labelId = false) :
    cat.validateEdgeRecordDetailed debug edge = .ok () := by
  rw [validateEdgeRecordDetailed]
  split
  · rfl
  · rw [edgeHasWalValidationRules] at h
    cases hsch : cat.edgeByLabelId.lookup edge.labelId with
    | none => rfl
    | some sch =>
      rw [hsch, any_some] at h
      simp only [Bool.or_eq_false_iff, Bool.not_eq_false', List.isEmpty_iff, isSome_eq_false_iff, isNone_iff_eq_none,
        beq_eq_false_iff_ne] at h
      obtain ⟨⟨⟨⟨⟨⟨hprop, haddi⟩, hwt⟩, hvali⟩, -⟩, -⟩, hloops⟩ := h
      simp only [hprop, hwt, hvali, hloops, validateEdgeClosedProperties, if_pos haddi]
      rfl

theorem validateEdgeEndpointLabelsDetailed_unconstrained (h : cat.edgeSchemaHasEndpointRules edge.labelId = false)
    (sourceLabels targetLabels : Option NodeLabelSet) :
    cat.validateEdgeEndpointLabelsDetailed edge sourceLabels targetLabels = .ok () := by
  rw [validateEdgeEndpointLabelsDetailed]
  split
  · rfl
  · rw [edgeSchemaHasEndpointRules] at h
    cases hsch : cat.edgeByLabelId.lookup edge.labelId with
    | none => rfl
    | some sch =>
      rw [hsch, any_some] at h
      simp only [Bool.or_eq_false_iff, isSome_eq_false_iff, isNone_iff_eq_none] at h
      simp only [h.1, h.2]
      rfl

theorem edgeSchemaHasEndpointRules_eq_false (h : cat.edgeHasWalValidationRules labelId = false) :
    cat.edgeSchemaHasEndpointRules labelId = false := by
  rw [edgeHasWalValidationRules] at h
  rw [edgeSchemaHasEndpointRules]
  cases hsch : cat.edgeByLabelId.lookup labelId with
  | none => rfl
  | some sch =>
    rw [hsch, any_some] at h
    simp only [Bool.or_eq_false_iff] at h
    rw [any_some, h.1.1.2, h.1.2]
    rfl

/-- The node is as it was as far as endpoint rules are concerned. -/
def LabelsKept (cat : RuntimeSchemaCatalog) (old final : Option NodeLabelSet) : Prop :=
  old = final ∨ ∃ labels, final = some labels ∧
    ∀ labelId ∈ cat.endpointRelevantNodeLabelIds, old.any (·.contains labelId) = labels.contains labelId

theorem labelsKept_of_unaffected {old : Option NodeLabelSet} {labels : NodeLabelSet} (hcons : cat.hasEdgeEndpointConstraints = true)
    (h : cat.labelChangeMayAffectEndpointRules old (some labels) false = false) : cat.LabelsKept old (some labels) := by
  refine Or.inr ⟨labels, rfl, fun labelId hlab => ?_⟩
  rw [labelChangeMayAffectEndpointRules, hcons, Bool.true_and, Bool.false_or, any_eq_false] at h
  simpa using h labelId hlab

theorem LabelsKept.rule {old final : Option NodeLabelSet} (hkept : cat.LabelsKept old final) {rule : CompiledLabelRule}
    (hknows : cat.KnowsRule labelId rule) {name : Option String} {endpoint : String} {nodeId : ℕ}
    (h : validateEdgeEndpointLabelRule edge name endpoint nodeId rule old = .ok ()) :
    validateEdgeEndpointLabelRule edge name endpoint nodeId rule final = .ok () := by
  rcases hkept with rfl | ⟨labels, rfl, hsame⟩
  · exact h
  · cases old with
    | none => cases h
    | some old =>
      simp only [validateEdgeEndpointLabelRule] at h ⊢
      exact validateCompiledLabelRule_congr (fun labelId hlab => hsame labelId (hknows.relevant labelId hlab)) h

theorem validateEdgeEndpointLabelsDetailed_kept (hcat : cat.KnowsEndpointRules)
    {sourceLabels sourceLabels' targetLabels targetLabels' : Option NodeLabelSet} (hsrc : cat.LabelsKept sourceLabels sourceLabels')
    (htgt : cat.LabelsKept targetLabels targetLabels')
    (h : cat.validateEdgeEndpointLabelsDetailed edge sourceLabels targetLabels = .ok ()) :
    cat.validateEdgeEndpointLabelsDetailed edge sourceLabels' targetLabels' = .ok () := by
  rw [validateEdgeEndpointLabelsDetailed] at h ⊢
  split
  · rfl
  · rename_i happl
    rw [if_neg happl] at h
    cases hsch : cat.edgeByLabelId.lookup edge.labelId with
    | none => rfl
    | some sch =>
      simp only [hsch, seq_ok, option_forM_ok] at h ⊢
      constructor
      · exact fun rule hrule => hsrc.rule (hcat _ _ hsch rule (Or.inl hrule)) (h.1 rule hrule)
      · exact fun rule hrule => htgt.rule (hcat _ _ hsch rule (Or.inr hrule)) (h.2 rule hrule)

theorem constraints_of_endpointRules (hcat : cat.KnowsEndpointRules)
    (h : cat.edgeSchemaHasEndpointRules labelId = true) :
    cat.hasEdgeEndpointConstraints = true ∧ labelId ∈ cat.endpointConstrainedEdgeLabelIds := by
  rw [edgeSchemaHasEndpointRules, Option.any_eq_true] at h
  obtain ⟨sch, hsch, hrules⟩ := h
  rw [Bool.or_eq_true, isSome_iff_exists, isSome_iff_exists] at hrules
  rcases hrules with ⟨rule, hrule⟩ | ⟨rule, hrule⟩
  · exact ⟨(hcat _ _ hsch rule (Or.inl hrule)).constraints, (hcat _ _ hsch rule (Or.inl hrule)).constrained⟩
  · exact ⟨(hcat _ _ hsch rule (Or.inr hrule)).constraints, (hcat _ _ hsch rule (Or.inr hrule)).constrained⟩

end

end RuntimeSchemaCatalog

end OverGraph.SchemaRules
