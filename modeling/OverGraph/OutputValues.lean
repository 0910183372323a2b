import Mathlib.Data.List.Basic
import Mathlib.Order.Basic

/-!
# Output values of a pipeline

Nodes and edges travel through the stages of a pipeline with the fields that a stage happened
to read. Before the output is projected, the fields its projections need are read for all
entities that carry no fields yet, and are put into every entity with one of these ids.
-/

namespace OverGraph.OutputValues

open List
open Except hiding error

inductive PropertySelection where
  | none
  | keys (names : List String)
  | all
  deriving DecidableEq

namespace PropertySelection

def selects : PropertySelection → String → Bool
  | .none, _ => false
  | .keys names, key => decide (key ∈ names)
  | .all, _ => true

def merge : PropertySelection → PropertySelection → PropertySelection
  | .all, _ => .all
  | _, .all => .all
  | .none, selection => selection
  | selection, .none => selection
  | .keys left, .keys right => .keys (left ++ right.filter fun key => key ∉ left)

end PropertySelection

/-- Which fields of an entity are read with its metadata, and which a record may lack. -/
structure EntityKind (F : Type) where
  always : F → Bool
  optional : F → Bool

/-- A visible record. -/
structure Record {F : Type} (kind : EntityKind F) (X P : Type) where
  fields : F → Option X
  props : List (String × P)
  present : ∀ field, kind.optional field = false → (fields field).isSome

/-- The fields to read besides the metadata. -/
structure FieldNeeds (F : Type) where
  fields : F → Bool
  props : PropertySelection

namespace FieldNeeds
variable {F : Type}

def merge (left right : FieldNeeds F) : FieldNeeds F := ⟨fun field => left.fields field || right.fields field, left.props.merge right.props⟩

def everything : FieldNeeds F := ⟨fun _ => true, .all⟩

end FieldNeeds

/-- The fields an entity carries. -/
structure Element (F X P : Type) where
  fields : F → Option X
  props : List (String × P)

/-- The fields that are emitted. -/
structure Emission (F : Type) where
  id : Bool
  fields : List F
  props : PropertySelection

inductive ProjectionError where
  | unloadedField
  | selectedKindMismatch
  | projectedModeNeedsSelection
  deriving DecidableEq

structure EntityValue (F X P : Type) where
  id : Option ℕ
  fields : List (F × Option X)
  props : Option (List (String × P))

section
variable {F X P : Type} (kind : EntityKind F)

def elementFromSelected (r : Record kind X P) (needs : FieldNeeds F) : Element F X P :=
  ⟨fun field => if kind.always field || needs.fields field then r.fields field else none,
    r.props.filter fun entry => needs.props.selects entry.1⟩

def Emission.reads (emi : Emission F) : Bool := !emi.fields.isEmpty || decide (emi.props ≠ .none)

def selectedProps (selection : PropertySelection) (props : List (String × P)) : Option (List (String × P)) :=
  if selection = .none then none else some (props.filter fun entry => selection.selects entry.1)

/-- A field that is emitted has to be there, unless a record may lack it. -/
def projectElement (id : ℕ) (element : Option (Element F X P)) (emi : Emission F) : Except ProjectionError (EntityValue F X P) :=
  if emi.reads then
    match element with
    | none => .error .unloadedField
    | some element =>
      if emi.fields.all fun field => kind.optional field || (element.fields field).isSome then
        .ok ⟨if emi.id then some id else none, emi.fields.map fun field => (field, element.fields field),
          selectedProps emi.props element.props⟩
      else .error .unloadedField
  else .ok ⟨if emi.id then some id else none, [], none⟩

/-- The loaded fields suffice for what is emitted of the record. -/
def Covers (r : Record kind X P) (loaded : FieldNeeds F) (emi : Emission F) : Prop :=
  (∀ field ∈ emi.fields, kind.always field = true ∨ loaded.fields field = true ∨ r.fields field = none) ∧
    ∀ entry ∈ r.props, emi.props.selects entry.1 = true → loaded.props.selects entry.1 = true

end

inductive NodeField where
  | labels
  | key
  | weight
  | createdAt
  | updatedAt
  | denseVector
  | sparseVector
  deriving DecidableEq

inductive EdgeField where
  | source
  | target
  | label
  | weight
  | createdAt
  | updatedAt
  | validFrom
  | validTo
  deriving DecidableEq

def nodeKind : EntityKind NodeField where
  always
    | .labels | .weight | .updatedAt => true
    | .key | .createdAt | .denseVector | .sparseVector => false
  optional
    | .denseVector | .sparseVector => true
    | .labels | .key | .weight | .createdAt | .updatedAt => false

def edgeKind : EntityKind EdgeField where
  always
    | .createdAt => false
    | .source | .target | .label | .weight | .updatedAt | .validFrom | .validTo => true
  optional _ := false

/-- The visible records. -/
structure State (X P : Type) where
  nodes : ℕ → Option (Record nodeKind X P)
  edges : ℕ → Option (Record edgeKind X P)

/-- A bound entity with what a stage has read of it, if any has. -/
structure Bound (F : Type) where
  id : ℕ
  loaded : Option (FieldNeeds F)

inductive EvalValue (S : Type) where
  | null
  | scalar (value : S)
  | node (node : Bound NodeField)
  | edge (edge : Bound EdgeField)
  | path (nodes : List (Bound NodeField)) (edges : List (Bound EdgeField))
  | list (items : List (EvalValue S))
  | map (entries : List (String × EvalValue S))

inductive GraphValue (S X P : Type) where
  | null
  | scalar (value : S)
  | nodeId (id : ℕ)
  | edgeId (id : ℕ)
  | node (value : EntityValue NodeField X P)
  | edge (value : EntityValue EdgeField X P)
  | path (nodeIds edgeIds : List ℕ) (nodes : Option (List (EntityValue NodeField X P)))
      (edges : Option (List (EntityValue EdgeField X P)))
  | list (items : List (GraphValue S X P))
  | map (entries : List (String × GraphValue S X P))

inductive GraphElementProjection where
  | idOnly
  | compact
  | full

inductive GraphVectorSelection where
  | none
  | dense
  | sparse
  | both
  deriving DecidableEq

structure GraphSelectedNodeProjection where
  id : Bool
  labels : Bool
  key : Bool
  props : PropertySelection
  weight : Bool
  createdAt : Bool
  updatedAt : Bool
  vectors : GraphVectorSelection

structure GraphSelectedEdgeProjection where
  id : Bool
  source : Bool
  target : Bool
  label : Bool
  props : PropertySelection
  weight : Bool
  createdAt : Bool
  updatedAt : Bool
  validFrom : Bool
  validTo : Bool

structure GraphSelectedPathProjection where
  nodeIds : Bool
  edgeIds : Bool
  nodes : Option GraphSelectedNodeProjection
  edges : Option GraphSelectedEdgeProjection

inductive GraphSelectedProjection where
  | node (selected : GraphSelectedNodeProjection)
  | edge (selected : GraphSelectedEdgeProjection)
  | path (selected : GraphSelectedPathProjection)

inductive GraphReturnProjection where
  | auto
  | idOnly
  | element (element : GraphElementProjection)
  | selected (selected : GraphSelectedProjection)

inductive GraphOutputMode where
  | ids
  | elements
  | projected

structure GraphOutputOptions where
  mode : GraphOutputMode
  includeVectors : Bool

def GraphVectorSelection.needsDense : GraphVectorSelection → Bool
  | .dense | .both => true
  | .none | .sparse => false

def GraphVectorSelection.needsSparse : GraphVectorSelection → Bool
  | .sparse | .both => true
  | .none | .dense => false

/-- The listed fields whose flag is set. -/
def flagged {F : Type} (flags : List (Bool × F)) : List F := (flags.filter (·.1)).map (·.2)

def nodeElementEmission (includeVectors : Bool) : GraphElementProjection → Emission NodeField
  | .idOnly => ⟨true, [], .none⟩
  | .compact => ⟨true, [.labels, .key], .none⟩
  | .full => ⟨true, [.labels, .key, .weight, .createdAt, .updatedAt] ++
      flagged [(includeVectors, .denseVector), (includeVectors, .sparseVector)], .all⟩

def edgeElementEmission : GraphElementProjection → Emission EdgeField
  | .idOnly => ⟨true, [], .none⟩
  | .compact => ⟨true, [.source, .target, .label], .none⟩
  | .full => ⟨true, [.source, .target, .label, .weight, .createdAt, .updatedAt, .validFrom, .validTo], .all⟩

def nodeSelectedEmission (includeVectors : Bool) (selected : GraphSelectedNodeProjection) : Emission NodeField :=
  ⟨selected.id, flagged [(selected.labels, .labels), (selected.key, .key), (selected.weight, .weight),
    (selected.createdAt, .createdAt), (selected.updatedAt, .updatedAt),
    (includeVectors && selected.vectors.needsDense, .denseVector),
    (includeVectors && selected.vectors.needsSparse, .sparseVector)], selected.props⟩

def edgeSelectedEmission (selected : GraphSelectedEdgeProjection) : Emission EdgeField :=
  ⟨selected.id, flagged [(selected.source, .source), (selected.target, .target), (selected.label, .label),
    (selected.weight, .weight), (selected.createdAt, .createdAt), (selected.updatedAt, .updatedAt),
    (selected.validFrom, .validFrom), (selected.validTo, .validTo)], selected.props⟩

/-- A value is put out by its id, as an element, or with selected fields. -/
inductive OutputForm where
  | ids
  | element (element : GraphElementProjection)
  | selected (selected : GraphSelectedProjection)

def outputForm (output : GraphOutputOptions) : GraphReturnProjection → Except ProjectionError OutputForm
  | .auto =>
    match output.mode with
    | .ids => .ok .ids
    | .elements => .ok (.element .full)
    | .projected => .error .projectedModeNeedsSelection
  | .idOnly => .ok .ids
  | .element element => .ok (.element element)
  | .selected selected => .ok (.selected selected)

section
variable {S X P : Type} (state : State X P) (output : GraphOutputOptions)

def traverse {α β ε : Type} (f : α → Except ε β) : List α → Except ε (List β)
  | [] => .ok []
  | a :: as =>
    match f a with
    | .error error => .error error
    | .ok b =>
      match traverse f as with
      | .error error => .error error
      | .ok bs => .ok (b :: bs)

def boundElement {F : Type} {kind : EntityKind F} (rs : ℕ → Option (Record kind X P)) (entity : Bound F) : Option (Element F X P) :=
  entity.loaded.bind fun needs => (rs entity.id).map fun r => elementFromSelected kind r needs

def projectNode (node : Bound NodeField) (emi : Emission NodeField) : Except ProjectionError (EntityValue NodeField X P) :=
  projectElement nodeKind node.id (boundElement state.nodes node) emi

def projectEdge (edge : Bound EdgeField) (emi : Emission EdgeField) : Except ProjectionError (EntityValue EdgeField X P) :=
  projectElement edgeKind edge.id (boundElement state.edges edge) emi

/-- What is emitted of a node, nothing but its id under `ids`. -/
def nodeEmission : OutputForm → Except ProjectionError (Option (Emission NodeField))
  | .ids => .ok none
  | .element element => .ok (some (nodeElementEmission output.includeVectors element))
  | .selected (.node selected) => .ok (some (nodeSelectedEmission output.includeVectors selected))
  | .selected _ => .error .selectedKindMismatch

def edgeEmission : OutputForm → Except ProjectionError (Option (Emission EdgeField))
  | .ids => .ok none
  | .element element => .ok (some (edgeElementEmission element))
  | .selected (.edge selected) => .ok (some (edgeSelectedEmission selected))
  | .selected _ => .error .selectedKindMismatch

structure PathEmission where
  nodeIds : Bool
  edgeIds : Bool
  nodes : Option (Emission NodeField)
  edges : Option (Emission EdgeField)

def pathEmission : OutputForm → Except ProjectionError PathEmission
  | .ids => .ok ⟨true, true, none, none⟩
  | .element .idOnly => .ok ⟨true, true, none, none⟩
  | .element element => .ok ⟨true, true, some (nodeElementEmission output.includeVectors element), some (edgeElementEmission element)⟩
  | .selected (.path selected) => .ok ⟨selected.nodeIds, selected.edgeIds,
      selected.nodes.map (nodeSelectedEmission output.includeVectors), selected.edges.map edgeSelectedEmission⟩
  | .selected _ => .error .selectedKindMismatch

def traverseOption {α β ε E : Type} (f : α → E → Except ε β) (items : List α) : Option E → Except ε (Option (List β))
  | none => .ok none
  | some emi => (traverse (f · emi) items).map some

def projectPath (nodes : List (Bound NodeField)) (edges : List (Bound EdgeField)) (emi : PathEmission) :
    Except ProjectionError (GraphValue S X P) :=
  match traverseOption (projectNode state) nodes emi.nodes with
  | .error error => .error error
  | .ok nodeValues =>
    match traverseOption (projectEdge state) edges emi.edges with
    | .error error => .error error
    | .ok edgeValues => .ok (.path (if emi.nodeIds then nodes.map (·.id) else [])
        (if emi.edgeIds then edges.map (·.id) else []) nodeValues edgeValues)

mutual

def projectValue (form : OutputForm) : EvalValue S → Except ProjectionError (GraphValue S X P)
  | .null => .ok .null
  | .scalar value =>
    match form with
    | .selected _ => .error .selectedKindMismatch
    | _ => .ok (.scalar value)
  | .node node =>
    match nodeEmission output form with
    | .error error => .error error
    | .ok none => .ok (.nodeId node.id)
    | .ok (some emi) => (projectNode state node emi).map .node
  | .edge edge =>
    match edgeEmission form with
    | .error error => .error error
    | .ok none => .ok (.edgeId edge.id)
    | .ok (some emi) => (projectEdge state edge emi).map .edge
  | .path nodes edges =>
    match pathEmission output form with
    | .error error => .error error
    | .ok emi => projectPath state nodes edges emi
  | .list items => (projectList form items).map .list
  | .map entries => (projectEntries form entries).map .map

def projectList (form : OutputForm) : List (EvalValue S) → Except ProjectionError (List (GraphValue S X P))
  | [] => .ok []
  | item :: items =>
    match projectValue form item with
    | .error error => .error error
    | .ok value =>
      match projectList form items with
      | .error error => .error error
      | .ok vs => .ok (value :: vs)

def projectEntries (form : OutputForm) : List (String × EvalValue S) → Except ProjectionError (List (String × GraphValue S X P))
  | [] => .ok []
  | (key, item) :: entries =>
    match projectValue form item with
    | .error error => .error error
    | .ok value =>
      match projectEntries form entries with
      | .error error => .error error
      | .ok vs => .ok ((key, value) :: vs)

end

def EvalValue.isNull : EvalValue S → Bool
  | .null => true
  | _ => false

def graphEvalToOutputValue (value : EvalValue S) (prj : GraphReturnProjection) : Except ProjectionError (GraphValue S X P) :=
  if value.isNull then .ok .null
  else
    match outputForm output prj with
    | .error error => .error error
    | .ok form => projectValue state output form value

def nodeNeedsFromElement : GraphElementProjection → FieldNeeds NodeField
  | .idOnly => ⟨fun _ => false, .none⟩
  | .compact => ⟨fun field => decide (field = .key), .none⟩
  | .full => ⟨fun
      | .key | .createdAt => true
      | .denseVector | .sparseVector => output.includeVectors
      | .labels | .weight | .updatedAt => false, .all⟩

def edgeNeedsFromElement : GraphElementProjection → FieldNeeds EdgeField
  | .idOnly => ⟨fun _ => false, .none⟩
  | .compact => ⟨fun _ => false, .none⟩
  | .full => ⟨fun field => decide (field = .createdAt), .all⟩

def nodeSourceNeedsFromElement : GraphElementProjection → Option (FieldNeeds NodeField)
  | .idOnly => none
  | .compact => some (nodeNeedsFromElement output .compact)
  | .full => some (nodeNeedsFromElement output .full)

def edgeSourceNeedsFromElement : GraphElementProjection → Option (FieldNeeds EdgeField)
  | .idOnly => none
  | .compact => some (edgeNeedsFromElement .compact)
  | .full => some (edgeNeedsFromElement .full)

def nodeSourceNeedsFromSelected (selected : GraphSelectedNodeProjection) : Option (FieldNeeds NodeField) :=
  if selected.labels || selected.key || selected.weight || selected.createdAt || selected.updatedAt ||
      decide (selected.props ≠ .none) || decide (selected.vectors ≠ .none) then
    some ⟨fun
      | .key => selected.key
      | .createdAt => selected.createdAt
      | .denseVector => selected.vectors.needsDense
      | .sparseVector => selected.vectors.needsSparse
      | .labels | .weight | .updatedAt => false, selected.props⟩
  else none

def edgeSourceNeedsFromSelected (selected : GraphSelectedEdgeProjection) : Option (FieldNeeds EdgeField) :=
  if selected.source || selected.target || selected.label || selected.weight || selected.createdAt ||
      selected.updatedAt || selected.validFrom || selected.validTo || decide (selected.props ≠ .none) then
    some ⟨fun field => decide (field = .createdAt) && selected.createdAt, selected.props⟩
  else none

def nodeOutputHydrationNeeds : OutputForm → Option (FieldNeeds NodeField)
  | .ids => none
  | .element element => nodeSourceNeedsFromElement output element
  | .selected (.node selected) => nodeSourceNeedsFromSelected selected
  | .selected _ => none

def edgeOutputHydrationNeeds : OutputForm → Option (FieldNeeds EdgeField)
  | .ids => none
  | .element element => edgeSourceNeedsFromElement element
  | .selected (.edge selected) => edgeSourceNeedsFromSelected selected
  | .selected _ => none

def pathNodeHydrationNeeds : OutputForm → Option (FieldNeeds NodeField)
  | .ids => none
  | .element element => nodeSourceNeedsFromElement output element
  | .selected (.path selected) => selected.nodes.bind nodeSourceNeedsFromSelected
  | .selected _ => none

def pathEdgeHydrationNeeds : OutputForm → Option (FieldNeeds EdgeField)
  | .ids => none
  | .element element => edgeSourceNeedsFromElement element
  | .selected (.path selected) => selected.edges.bind edgeSourceNeedsFromSelected
  | .selected _ => none

/-- An entity that carries no element asks for what its projection needs. -/
def entityNeeds {F : Type} {kind : EntityKind F} (rs : ℕ → Option (Record kind X P))
    (needs : Option (FieldNeeds F)) (entity : Bound F) : List (ℕ × FieldNeeds F) :=
  match boundElement rs entity, needs with
  | none, some needs => [(entity.id, needs)]
  | _, _ => []

mutual

def collectNodeNeeds (form : OutputForm) : EvalValue S → List (ℕ × FieldNeeds NodeField)
  | .node node => entityNeeds state.nodes (nodeOutputHydrationNeeds output form) node
  | .path nodes _ => nodes.flatMap (entityNeeds state.nodes (pathNodeHydrationNeeds output form))
  | .list items => collectNodeNeedsList form items
  | .map entries => collectNodeNeedsEntries form entries
  | .null | .scalar _ | .edge _ => []

def collectNodeNeedsList (form : OutputForm) : List (EvalValue S) → List (ℕ × FieldNeeds NodeField)
  | [] => []
  | item :: items => collectNodeNeeds form item ++ collectNodeNeedsList form items

def collectNodeNeedsEntries (form : OutputForm) : List (String × EvalValue S) → List (ℕ × FieldNeeds NodeField)
  | [] => []
  | (_, item) :: entries => collectNodeNeeds form item ++ collectNodeNeedsEntries form entries

end

mutual

def collectEdgeNeeds (form : OutputForm) : EvalValue S → List (ℕ × FieldNeeds EdgeField)
  | .edge edge => entityNeeds state.edges (edgeOutputHydrationNeeds form) edge
  | .path _ edges => edges.flatMap (entityNeeds state.edges (pathEdgeHydrationNeeds form))
  | .list items => collectEdgeNeedsList form items
  | .map entries => collectEdgeNeedsEntries form entries
  | .null | .scalar _ | .node _ => []

def collectEdgeNeedsList (form : OutputForm) : List (EvalValue S) → List (ℕ × FieldNeeds EdgeField)
  | [] => []
  | item :: items => collectEdgeNeeds form item ++ collectEdgeNeedsList form items

def collectEdgeNeedsEntries (form : OutputForm) : List (String × EvalValue S) → List (ℕ × FieldNeeds EdgeField)
  | [] => []
  | (_, item) :: entries => collectEdgeNeeds form item ++ collectEdgeNeedsEntries form entries

end

def mergedNeeds {F : Type} (asked : List (ℕ × FieldNeeds F)) (id : ℕ) : Option (FieldNeeds F) :=
  match asked.filter fun entry => decide (entry.1 = id) with
  | [] => none
  | entry :: entries => some (entries.foldl (fun merged entry => merged.merge entry.2) entry.2)

/-- An entity with an id that was asked for takes what was read for it. -/
def hydrateEntity {F : Type} {kind : EntityKind F} (rs : ℕ → Option (Record kind X P))
    (asked : List (ℕ × FieldNeeds F)) (entity : Bound F) : Bound F :=
  match mergedNeeds asked entity.id, rs entity.id with
  | some needs, some _ => { entity with loaded := some needs }
  | _, _ => entity

mutual

/-- Change the nodes and the edges of a value. -/
def mapEntities (f : Bound NodeField → Bound NodeField) (g : Bound EdgeField → Bound EdgeField) : EvalValue S → EvalValue S
  | .null => .null
  | .scalar value => .scalar value
  | .node node => .node (f node)
  | .edge edge => .edge (g edge)
  | .path nodes edges => .path (nodes.map f) (edges.map g)
  | .list items => .list (mapEntitiesList f g items)
  | .map entries => .map (mapEntitiesEntries f g entries)

def mapEntitiesList (f : Bound NodeField → Bound NodeField) (g : Bound EdgeField → Bound EdgeField) :
    List (EvalValue S) → List (EvalValue S)
  | [] => []
  | item :: items => mapEntities f g item :: mapEntitiesList f g items

def mapEntitiesEntries (f : Bound NodeField → Bound NodeField) (g : Bound EdgeField → Bound EdgeField) :
    List (String × EvalValue S) → List (String × EvalValue S)
  | [] => []
  | (key, item) :: entries => (key, mapEntities f g item) :: mapEntitiesEntries f g entries

end

/-- A value of the output with its projection, that of its column or of its union branch. -/
structure Cell (S : Type) where
  value : EvalValue S
  projection : GraphReturnProjection

def cellNodeNeeds (cell : Cell S) : List (ℕ × FieldNeeds NodeField) :=
  match outputForm output cell.projection with
  | .error _ => []
  | .ok form => collectNodeNeeds state output form cell.value

def cellEdgeNeeds (cell : Cell S) : List (ℕ × FieldNeeds EdgeField) :=
  match outputForm output cell.projection with
  | .error _ => []
  | .ok form => collectEdgeNeeds state form cell.value

def hydrateOutputValue (nodeNeeds : List (ℕ × FieldNeeds NodeField)) (edgeNeeds : List (ℕ × FieldNeeds EdgeField))
    (value : EvalValue S) : EvalValue S :=
  mapEntities (hydrateEntity state.nodes nodeNeeds) (hydrateEntity state.edges edgeNeeds) value

def pipelineProjectOutputRows (rows : List (List (Cell S))) : Except ProjectionError (List (List (GraphValue S X P))) :=
  let nodeNeeds := rows.flatten.flatMap (cellNodeNeeds state output)
  let edgeNeeds := rows.flatten.flatMap (cellEdgeNeeds state output)
  traverse (traverse fun cell =>
    graphEvalToOutputValue state output (hydrateOutputValue state nodeNeeds edgeNeeds cell.value) cell.projection) rows

def loadFully {F : Type} (entity : Bound F) : Bound F := { entity with loaded := some .everything }

/-- The output of the visible records, whatever was read before. -/
def completeOutputRows (rows : List (List (Cell S))) : Except ProjectionError (List (List (GraphValue S X P))) :=
  traverse (traverse fun cell => graphEvalToOutputValue state output (mapEntities loadFully loadFully cell.value) cell.projection) rows

mutual

/-- The nodes of a value with what is emitted of each. -/
def nodeUses (form : OutputForm) : EvalValue S → List (Bound NodeField × Emission NodeField)
  | .node node =>
    match nodeEmission output form with
    | .ok (some emi) => [(node, emi)]
    | _ => []
  | .path nodes _ =>
    match pathEmission output form with
    | .ok ⟨_, _, some emi, _⟩ => nodes.map fun node => (node, emi)
    | _ => []
  | .list items => nodeUsesList form items
  | .map entries => nodeUsesEntries form entries
  | .null | .scalar _ | .edge _ => []

def nodeUsesList (form : OutputForm) : List (EvalValue S) → List (Bound NodeField × Emission NodeField)
  | [] => []
  | item :: items => nodeUses form item ++ nodeUsesList form items

def nodeUsesEntries (form : OutputForm) : List (String × EvalValue S) → List (Bound NodeField × Emission NodeField)
  | [] => []
  | (_, item) :: entries => nodeUses form item ++ nodeUsesEntries form entries

end

mutual

def edgeUses (form : OutputForm) : EvalValue S → List (Bound EdgeField × Emission EdgeField)
  | .edge edge =>
    match edgeEmission form with
    | .ok (some emi) => [(edge, emi)]
    | _ => []
  | .path _ edges =>
    match pathEmission output form with
    | .ok ⟨_, _, _, some emi⟩ => edges.map fun edge => (edge, emi)
    | _ => []
  | .list items => edgeUsesList form items
  | .map entries => edgeUsesEntries form entries
  | .null | .scalar _ | .node _ => []

def edgeUsesList (form : OutputForm) : List (EvalValue S) → List (Bound EdgeField × Emission EdgeField)
  | [] => []
  | item :: items => edgeUses form item ++ edgeUsesList form items

def edgeUsesEntries (form : OutputForm) : List (String × EvalValue S) → List (Bound EdgeField × Emission EdgeField)
  | [] => []
  | (_, item) :: entries => edgeUses form item ++ edgeUsesEntries form entries

end

def cellNodeUses (cell : Cell S) : List (Bound NodeField × Emission NodeField) :=
  match outputForm output cell.projection with
  | .error _ => []
  | .ok form => nodeUses output form cell.value

def cellEdgeUses (cell : Cell S) : List (Bound EdgeField × Emission EdgeField) :=
  match outputForm output cell.projection with
  | .error _ => []
  | .ok form => edgeUses output form cell.value

/-- An entity that is put out with fields: if some entity of the same id carries no element and
asks for fields, what is asked for its id covers them, and otherwise what it carries does. -/
def UseCovered {F : Type} {kind : EntityKind F} (rs : ℕ → Option (Record kind X P))
    (asked : List (ℕ × FieldNeeds F)) (use : Bound F × Emission F) : Prop :=
  use.2.reads = true → ∀ r, rs use.1.id = some r → match mergedNeeds asked use.1.id with
    | some needs => Covers kind r needs use.2
    | none => ∃ loaded, use.1.loaded = some loaded ∧ Covers kind r loaded use.2

def OutputCovered (rows : List (List (Cell S))) : Prop :=
  (∀ use ∈ rows.flatten.flatMap (cellNodeUses output), UseCovered state.nodes (rows.flatten.flatMap (cellNodeNeeds state output)) use) ∧
  ∀ use ∈ rows.flatten.flatMap (cellEdgeUses output),
    UseCovered state.edges (rows.flatten.flatMap (cellEdgeNeeds state output)) use

end

section
variable {F X P : Type} {kind : EntityKind F} {rs : ℕ → Option (Record kind X P)}

theorem elementFromSelected_everything (r : Record kind X P) : elementFromSelected kind r .everything = ⟨r.fields, r.props⟩ := by
  simp [elementFromSelected, FieldNeeds.everything, PropertySelection.selects]

variable {emi : Emission F}

theorem projectElement_everything (r : Record kind X P) (id : ℕ) (hreads : emi.reads = true) :
    projectElement kind id (some (elementFromSelected kind r .everything)) emi =
      .ok ⟨if emi.id then some id else none, emi.fields.map fun field => (field, r.fields field), selectedProps emi.props r.props⟩ := by
  rw [projectElement, if_pos hreads, elementFromSelected_everything]
  refine if_pos (all_eq_true.mpr fun field _ => ?_)
  cases hopt : kind.optional field with
  | true => rfl
  | false => exact r.present field hopt

/-- The fields that were read give the fields of the record if and only if they cover them. -/
theorem projectElement_eq_iff (r : Record kind X P) (id : ℕ) (loaded : FieldNeeds F)
    (hreads : emi.reads = true) : projectElement kind id (some (elementFromSelected kind r loaded)) emi =
      projectElement kind id (some (elementFromSelected kind r .everything)) emi ↔
    Covers kind r loaded emi := by
  rw [projectElement_everything r id hreads, projectElement, if_pos hreads]
  constructor
  · intro h
    split at h
    · have hval := ok.inj h
      simp only [EntityValue.mk.injEq, true_and] at hval
      obtain ⟨hflds, hps⟩ := hval
      constructor
      · intro field hfld
        have hsame := map_inj_left.mp hflds field hfld
        simp only [elementFromSelected, Prod.mk.injEq, true_and] at hsame
        by_cases hread : (kind.always field || loaded.fields field) = true
        · rcases Bool.or_eq_true_iff.mp hread with halways | hloaded
          · exact Or.inl halways
          · exact Or.inr (Or.inl hloaded)
        · rw [if_neg hread] at hsame
          exact Or.inr (Or.inr hsame.symm)
      · intro entry hent hsel
        rw [selectedProps, selectedProps] at hps
        have hnone : emi.props ≠ .none := by
          intro hnone
          rw [hnone] at hsel
          cases hsel
        rw [if_neg hnone, if_neg hnone] at hps
        have hmem : entry ∈ r.props.filter fun entry => emi.props.selects entry.1 := mem_filter.mpr ⟨hent, hsel⟩
        rw [← Option.some.inj hps] at hmem
        exact (mem_filter.mp (mem_filter.mp hmem).1).2
    · cases h
  · intro ⟨hflds, hps⟩
    have hsame : ∀ field ∈ emi.fields, (elementFromSelected kind r loaded).fields field = r.fields field := by
      intro field hfld
      simp only [elementFromSelected]
      split
      · rfl
      · rename_i hread
        rcases hflds field hfld with halways | hloaded | hnone
        · exact absurd (by rw [halways]; rfl) hread
        · exact absurd (by rw [hloaded, Bool.or_true]) hread
        · exact hnone.symm
    have hall : (emi.fields.all fun field =>
        kind.optional field || ((elementFromSelected kind r loaded).fields field).isSome) = true := by
      refine all_eq_true.mpr fun field hfld => ?_
      rw [hsame field hfld]
      cases hopt : kind.optional field with
      | true => rfl
      | false => exact r.present field hopt
    have hprops_eq : selectedProps emi.props (elementFromSelected kind r loaded).props = selectedProps emi.props r.props := by
      rw [selectedProps, selectedProps]
      split
      · rfl
      · refine congrArg some ?_
        simp only [elementFromSelected, filter_filter]
        refine filter_congr fun entry hent => ?_
        cases hsel : emi.props.selects entry.1 with
        | false => rfl
        | true => rw [hps entry hent hsel]
                  rfl
    rw [if_pos hall, hprops_eq]
    refine congrArg Except.ok ?_
    rw [EntityValue.mk.injEq]
    exact ⟨rfl, map_congr_left fun field hfld => by rw [hsame field hfld], rfl⟩

/-- How an entity is put out. -/
private def projectBound (rs : ℕ → Option (Record kind X P)) (entity : Bound F) (emi : Emission F) :
    Except ProjectionError (EntityValue F X P) :=
  projectElement kind entity.id (boundElement rs entity) emi

/-- With the fields read for the output an entity is put out like with all of its fields if
and only if it is covered. -/
theorem hydrateEntity_eq_iff (asked : List (ℕ × FieldNeeds F)) (entity : Bound F) (emi : Emission F)
    (hok : ∃ value, projectBound rs (loadFully entity) emi = .ok value) :
    projectBound rs (hydrateEntity rs asked entity) emi = projectBound rs (loadFully entity) emi ↔ UseCovered rs asked (entity, emi) := by
  cases hreads : emi.reads with
  | false =>
    refine iff_of_true ?_ fun h => ?_
    · have hid : (hydrateEntity rs asked entity).id = (loadFully entity).id := by
        rw [hydrateEntity]
        split <;> rfl
      simp [projectBound, projectElement, hreads, hid]
    · rw [hreads] at h
      cases h
  | true =>
    obtain ⟨value, hval⟩ := hok
    cases hrec : rs entity.id with
    | none => simp [projectBound, projectElement, hreads, boundElement, loadFully, hrec] at hval
    | some r =>
      have hfull : boundElement rs (loadFully entity) = some (elementFromSelected kind r .everything) := by
        simp [boundElement, loadFully, hrec]
      have hiff : UseCovered rs asked (entity, emi) ↔ match mergedNeeds asked entity.id with
          | some needs => Covers kind r needs emi
          | none => ∃ loaded, entity.loaded = some loaded ∧ Covers kind r loaded emi := by
        constructor
        · intro h
          exact h hreads r hrec
        · intro h _ other hoth
          have hoth : rs entity.id = some other := hoth
          rw [hrec] at hoth
          rw [← Option.some.inj hoth]
          exact h
      rw [hiff]
      cases hasked : mergedNeeds asked entity.id with
      | some needs =>
        have hhydr : hydrateEntity rs asked entity = { entity with loaded := some needs } := by rw [hydrateEntity, hasked, hrec]
        have helem : boundElement rs { entity with loaded := some needs } = some (elementFromSelected kind r needs) := by
          simp [boundElement, hrec]
        rw [projectBound, projectBound, hhydr, helem, hfull]
        exact projectElement_eq_iff r entity.id needs hreads
      | none =>
        have hhydr : hydrateEntity rs asked entity = entity := by rw [hydrateEntity, hasked]
        rw [hhydr]
        cases hloaded : entity.loaded with
        | none =>
          refine iff_of_false ?_ ?_
          · rw [hval]
            simp [projectBound, projectElement, hreads, boundElement, hloaded]
          · simp
        | some loaded =>
          have helem : boundElement rs entity = some (elementFromSelected kind r loaded) := by simp [boundElement, hrec, hloaded]
          rw [projectBound, projectBound, helem, hfull]
          refine (projectElement_eq_iff r entity.id loaded hreads).trans ?_
          simp

end

theorem map_eq_ok_iff {α β ε : Type} {res : Except ε α} {f : α → β} {out : β} :
    res.map f = .ok out ↔ ∃ value, res = .ok value ∧ f value = out := by
  cases res with
  | error error | ok value => simp [Except.map]

/-- If one traversal succeeds, another one gives the same result exactly if it does so item by
item. -/
theorem traverse_eq_iff {α β ε : Type} {f g : α → Except ε β} :
    ∀ {items : List α} {out : List β}, traverse g items = .ok out → (∀ item ∈ items, ∃ value, g item = .ok value) ∧
        (traverse f items = .ok out ↔ ∀ item ∈ items, f item = g item)
  | [], out, h => by
    rw [traverse] at h ⊢
    exact ⟨by simp, by simp [h]⟩
  | item :: items, out, h => by
    rw [traverse] at h
    cases hitem : g item with
    | error error => simp [hitem] at h
    | ok value =>
      cases hitems : traverse g items with
      | error error => simp [hitem, hitems] at h
      | ok vs =>
        simp only [hitem, hitems, ok.injEq] at h
        subst h
        obtain ⟨hok, hiff⟩ := traverse_eq_iff (f := f) hitems
        constructor
        · intro other hoth
          rcases mem_cons.mp hoth with rfl | hoth
          · exact ⟨value, hitem⟩
          · exact hok other hoth
        · rw [forall_mem_cons, ← hiff, hitem, traverse]
          cases f item with
          | error error => simp
          | ok value' =>
            cases traverse f items with
            | error error | ok values' => simp

theorem traverse_map {α β γ ε : Type} (f : β → Except ε γ) (g : α → β) (items : List α) :
    traverse f (items.map g) = traverse (fun item => f (g item)) items := by
  induction items with
  | nil => rfl
  | cons item items ih => rw [map_cons, traverse, traverse, ih]

section
variable {S X P : Type} {state : State X P} {output : GraphOutputOptions}
  {f f' : Bound NodeField → Bound NodeField} {g g' : Bound EdgeField → Bound EdgeField}

/-- The nodes and edges of a value are put out the same way before and after a change, and
the second way succeeds. -/
private structure SameUses (state : State X P) (f f' : Bound NodeField → Bound NodeField)
    (g g' : Bound EdgeField → Bound EdgeField) (nodes : List (Bound NodeField × Emission NodeField))
    (edges : List (Bound EdgeField × Emission EdgeField)) : Prop where
  node : ∀ use ∈ nodes, projectNode state (f use.1) use.2 = projectNode state (f' use.1) use.2
  edge : ∀ use ∈ edges, projectEdge state (g use.1) use.2 = projectEdge state (g' use.1) use.2

private structure UsesSucceed (state : State X P) (f' : Bound NodeField → Bound NodeField)
    (g' : Bound EdgeField → Bound EdgeField) (nodes : List (Bound NodeField × Emission NodeField))
    (edges : List (Bound EdgeField × Emission EdgeField)) : Prop where
  node : ∀ use ∈ nodes, ∃ value, projectNode state (f' use.1) use.2 = .ok value
  edge : ∀ use ∈ edges, ∃ value, projectEdge state (g' use.1) use.2 = .ok value

variable {nodes nodes' : List (Bound NodeField × Emission NodeField)}

variable {edges edges' : List (Bound EdgeField × Emission EdgeField)}

theorem sameUses_append : SameUses state f f' g g' (nodes ++ nodes') (edges ++ edges') ↔
      SameUses state f f' g g' nodes edges ∧ SameUses state f f' g g' nodes' edges' := by
  constructor
  · intro ⟨hnos, heds⟩
    rw [forall_mem_append] at hnos heds
    exact ⟨⟨hnos.1, heds.1⟩, ⟨hnos.2, heds.2⟩⟩
  · intro ⟨⟨hnos, heds⟩, ⟨hnodes', heds'⟩⟩
    exact ⟨forall_mem_append.mpr ⟨hnos, hnodes'⟩, forall_mem_append.mpr ⟨heds, heds'⟩⟩

theorem UsesSucceed.append (h : UsesSucceed state f' g' nodes edges)
    (h' : UsesSucceed state f' g' nodes' edges') : UsesSucceed state f' g' (nodes ++ nodes') (edges ++ edges') :=
  ⟨forall_mem_append.mpr ⟨h.node, h'.node⟩, forall_mem_append.mpr ⟨h.edge, h'.edge⟩⟩

theorem traverseOption_eq_iff {F : Type} {V : Type} {p : Bound F → Emission F → Except ProjectionError V}
    {a a' : Bound F → Bound F} {items : List (Bound F)} {emi : Option (Emission F)} {out : Option (List V)}
    (h : traverseOption p (items.map a') emi = .ok out) :
    (∀ e, emi = some e → ∀ item ∈ items, ∃ value, p (a' item) e = .ok value) ∧ (traverseOption p (items.map a) emi = .ok out ↔
        ∀ e, emi = some e → ∀ item ∈ items, p (a item) e = p (a' item) e) := by
  cases emi with
  | none => simpa [traverseOption] using h
  | some e =>
    rw [traverseOption, traverse_map] at h
    obtain ⟨vs, hvals, rfl⟩ := map_eq_ok_iff.mp h
    obtain ⟨hok, hiff⟩ := traverse_eq_iff (f := fun item => p (a item) e) hvals
    constructor
    · intro e' he'
      rw [← Option.some.inj he']
      exact hok
    · rw [traverseOption, traverse_map, map_eq_ok_iff]
      constructor
      · intro ⟨values', hvals', hsame⟩ e' he'
        rw [← Option.some.inj he']
        rw [Option.some.inj hsame] at hvals'
        exact hiff.mp hvals'
      · intro hall
        exact ⟨vs, hiff.mpr (hall e rfl), rfl⟩

variable {out : GraphValue S X P}

theorem projectPath_eq_iff {nodes : List (Bound NodeField)} {edges : List (Bound EdgeField)}
    {emi : PathEmission} (hf : ∀ node, (f node).id = (f' node).id)
    (hg : ∀ edge, (g edge).id = (g' edge).id)
    (h : projectPath state (nodes.map f') (edges.map g') emi = .ok out) :
    let nodeUses := match emi.nodes with
      | some e => nodes.map fun node => (node, e)
      | none => []
    let edgeUses := match emi.edges with
      | some e => edges.map fun edge => (edge, e)
      | none => []
    UsesSucceed state f' g' nodeUses edgeUses ∧ (projectPath state (nodes.map f) (edges.map g) emi = .ok out ↔
        SameUses state f f' g g' nodeUses edgeUses) := by
  intro nodeUses edgeUses
  have hnode_uses : ∀ q : Bound NodeField × Emission NodeField → Prop,
      (∀ use ∈ nodeUses, q use) ↔ ∀ e, emi.nodes = some e → ∀ node ∈ nodes, q (node, e) := by
    intro q
    cases hemi : emi.nodes with
    | none | some e => simp [nodeUses, hemi]
  have hedge_uses : ∀ q : Bound EdgeField × Emission EdgeField → Prop,
      (∀ use ∈ edgeUses, q use) ↔ ∀ e, emi.edges = some e → ∀ edge ∈ edges, q (edge, e) := by
    intro q
    cases hemi : emi.edges with
    | none | some e => simp [edgeUses, hemi]
  have hnode_ids : (nodes.map f).map (·.id) = (nodes.map f').map (·.id) := by simp [hf]
  have hedge_ids : (edges.map g).map (·.id) = (edges.map g').map (·.id) := by simp [hg]
  rw [projectPath] at h
  cases hnos : traverseOption (projectNode state) (nodes.map f') emi.nodes with
  | error error => simp [hnos] at h
  | ok nodeValues =>
    cases heds : traverseOption (projectEdge state) (edges.map g') emi.edges with
    | error error => simp [hnos, heds] at h
    | ok edgeValues =>
      simp only [hnos, heds, ok.injEq] at h
      subst h
      obtain ⟨hnode_ok, hnode_iff⟩ := traverseOption_eq_iff (a := f) hnos
      obtain ⟨hedge_ok, hedge_iff⟩ := traverseOption_eq_iff (a := g) heds
      refine ⟨⟨(hnode_uses _).mpr hnode_ok, (hedge_uses _).mpr hedge_ok⟩, ?_⟩
      have hsp : SameUses state f f' g g' nodeUses edgeUses ↔ traverseOption (projectNode state) (nodes.map f) emi.nodes = .ok nodeValues ∧
            traverseOption (projectEdge state) (edges.map g) emi.edges = .ok edgeValues := by
        rw [hnode_iff, hedge_iff]
        constructor
        · intro hsame
          exact ⟨(hnode_uses _).mp hsame.node, (hedge_uses _).mp hsame.edge⟩
        · intro hsame
          exact ⟨(hnode_uses _).mpr hsame.1, (hedge_uses _).mpr hsame.2⟩
      rw [hsp, projectPath, hnode_ids, hedge_ids]
      cases traverseOption (projectNode state) (nodes.map f) emi.nodes with
      | error error => simp
      | ok nodeValues' =>
        cases traverseOption (projectEdge state) (edges.map g) emi.edges with
        | error error | ok edgeValues' => simp

theorem usesSucceed_nil : UsesSucceed state f' g' [] [] := ⟨by simp, by simp⟩

theorem sameUses_nil : SameUses state f f' g g' [] [] := ⟨by simp, by simp⟩

theorem projectNodeValue_eq_iff (hf : ∀ node, (f node).id = (f' node).id) (form : OutputForm) (node : Bound NodeField) (out : GraphValue S X P)
    (h : projectValue state output form (mapEntities f' g' (.node node)) = .ok out) :
    UsesSucceed state f' g' (nodeUses output form (.node node : EvalValue S)) [] ∧
      (projectValue state output form (mapEntities f g (.node node)) = .ok out ↔
        SameUses state f f' g g' (nodeUses output form (.node node : EvalValue S)) []) := by
  rw [mapEntities, projectValue] at h
  rw [mapEntities, projectValue, nodeUses]
  cases hemi : nodeEmission output form with
  | error error => simp [hemi] at h
  | ok emi =>
    cases emi with
    | none =>
      simp only [hemi, ok.injEq] at h
      simp only [hf, h]
      exact ⟨usesSucceed_nil, iff_of_true trivial sameUses_nil⟩
    | some emi =>
      simp only [hemi] at h
      obtain ⟨value, hval, rfl⟩ := map_eq_ok_iff.mp h
      constructor
      · exact ⟨by simpa using ⟨value, hval⟩, by simp⟩
      · have hsame : SameUses state f f' g g' [(node, emi)] [] ↔ projectNode state (f node) emi = projectNode state (f' node) emi := by
          constructor
          · intro hsame
            exact hsame.node (node, emi) (by simp)
          · intro hnode
            exact ⟨by simpa using hnode, by simp⟩
        rw [hsame, map_eq_ok_iff, hval]
        simp

theorem projectEdgeValue_eq_iff (hg : ∀ edge, (g edge).id = (g' edge).id) (form : OutputForm) (edge : Bound EdgeField) (out : GraphValue S X P)
    (h : projectValue state output form (mapEntities f' g' (.edge edge)) = .ok out) :
    UsesSucceed state f' g' [] (edgeUses output form (.edge edge : EvalValue S)) ∧
      (projectValue state output form (mapEntities f g (.edge edge)) = .ok out ↔
        SameUses state f f' g g' [] (edgeUses output form (.edge edge : EvalValue S))) := by
  rw [mapEntities, projectValue] at h
  rw [mapEntities, projectValue, edgeUses]
  cases hemi : edgeEmission form with
  | error error => simp [hemi] at h
  | ok emi =>
    cases emi with
    | none =>
      simp only [hemi, ok.injEq] at h
      simp only [hg, h]
      exact ⟨usesSucceed_nil, iff_of_true trivial sameUses_nil⟩
    | some emi =>
      simp only [hemi] at h
      obtain ⟨value, hval, rfl⟩ := map_eq_ok_iff.mp h
      constructor
      · exact ⟨by simp, by simpa using ⟨value, hval⟩⟩
      · have hsame : SameUses state f f' g g' [] [(edge, emi)] ↔ projectEdge state (g edge) emi = projectEdge state (g' edge) emi := by
          constructor
          · intro hsame
            exact hsame.edge (edge, emi) (by simp)
          · intro hedge
            exact ⟨by simp, by simpa using hedge⟩
        rw [hsame, map_eq_ok_iff, hval]
        simp

mutual

/-- If a value is put out one way, it is put out another way with the same result exactly if
each of its nodes and edges is. -/
theorem projectValue_eq_iff (hf : ∀ node, (f node).id = (f' node).id)
    (hg : ∀ edge, (g edge).id = (g' edge).id) (form : OutputForm) :
    ∀ (value : EvalValue S) (out : GraphValue S X P),
    projectValue state output form (mapEntities f' g' value) = .ok out →
      UsesSucceed state f' g' (nodeUses output form value) (edgeUses output form value) ∧
        (projectValue state output form (mapEntities f g value) = .ok out ↔
          SameUses state f f' g g' (nodeUses output form value) (edgeUses output form value))
  | .null, out, h => by
    rw [mapEntities] at h ⊢
    rw [nodeUses, edgeUses]
    exact ⟨usesSucceed_nil, iff_of_true h sameUses_nil⟩
  | .scalar value, out, h => by
    rw [mapEntities] at h ⊢
    rw [nodeUses, edgeUses]
    exact ⟨usesSucceed_nil, iff_of_true h sameUses_nil⟩
  | .node node, out, h => projectNodeValue_eq_iff hf form node out h
  | .edge edge, out, h => projectEdgeValue_eq_iff hg form edge out h
  | .path nodes edges, out, h => by
    rw [mapEntities, projectValue] at h
    rw [mapEntities, projectValue, nodeUses, edgeUses]
    cases hemi : pathEmission output form with
    | error error => simp [hemi] at h
    | ok emi =>
      simp only [hemi] at h
      have hpath := projectPath_eq_iff hf hg h
      obtain ⟨nodeIds, edgeIds, nodeEmission, edgeEmission⟩ := emi
      cases nodeEmission <;> cases edgeEmission <;> exact hpath
  | .list items, out, h => by
    rw [mapEntities, projectValue] at h
    obtain ⟨vs, hvals, rfl⟩ := map_eq_ok_iff.mp h
    obtain ⟨hok, hiff⟩ := projectList_eq_iff hf hg form items vs hvals
    rw [mapEntities, projectValue, nodeUses, edgeUses, map_eq_ok_iff]
    exact ⟨hok, Iff.trans (by simp) hiff⟩
  | .map entries, out, h => by
    rw [mapEntities, projectValue] at h
    obtain ⟨vs, hvals, rfl⟩ := map_eq_ok_iff.mp h
    obtain ⟨hok, hiff⟩ := projectEntries_eq_iff hf hg form entries vs hvals
    rw [mapEntities, projectValue, nodeUses, edgeUses, map_eq_ok_iff]
    exact ⟨hok, Iff.trans (by simp) hiff⟩

theorem projectList_eq_iff (hf : ∀ node, (f node).id = (f' node).id)
    (hg : ∀ edge, (g edge).id = (g' edge).id) (form : OutputForm) :
    ∀ (items : List (EvalValue S)) (out : List (GraphValue S X P)),
    projectList state output form (mapEntitiesList f' g' items) = .ok out →
      UsesSucceed state f' g' (nodeUsesList output form items) (edgeUsesList output form items) ∧
        (projectList state output form (mapEntitiesList f g items) = .ok out ↔
          SameUses state f f' g g' (nodeUsesList output form items) (edgeUsesList output form items))
  | [], out, h => by
    rw [mapEntitiesList] at h ⊢
    rw [nodeUsesList, edgeUsesList]
    exact ⟨usesSucceed_nil, iff_of_true h sameUses_nil⟩
  | item :: items, out, h => by
    rw [mapEntitiesList, projectList] at h
    cases hitem : projectValue state output form (mapEntities f' g' item) with
    | error error => simp [hitem] at h
    | ok value =>
      cases hitems : projectList state output form (mapEntitiesList f' g' items) with
      | error error => simp [hitem, hitems] at h
      | ok vs =>
        simp only [hitem, hitems, ok.injEq] at h
        subst h
        obtain ⟨hok, hiff⟩ := projectValue_eq_iff hf hg form item value hitem
        obtain ⟨hoks, hiffs⟩ := projectList_eq_iff hf hg form items vs hitems
        rw [nodeUsesList, edgeUsesList, sameUses_append, ← hiff, ← hiffs, mapEntitiesList, projectList]
        refine ⟨hok.append hoks, ?_⟩
        cases projectValue state output form (mapEntities f g item) with
        | error error => simp
        | ok value' =>
          cases projectList state output form (mapEntitiesList f g items) with
          | error error | ok values' => simp

theorem projectEntries_eq_iff (hf : ∀ node, (f node).id = (f' node).id)
    (hg : ∀ edge, (g edge).id = (g' edge).id) (form : OutputForm) :
    ∀ (entries : List (String × EvalValue S))
    (out : List (String × GraphValue S X P)),
    projectEntries state output form (mapEntitiesEntries f' g' entries) = .ok out →
      UsesSucceed state f' g' (nodeUsesEntries output form entries) (edgeUsesEntries output form entries) ∧
        (projectEntries state output form (mapEntitiesEntries f g entries) = .ok out ↔
          SameUses state f f' g g' (nodeUsesEntries output form entries) (edgeUsesEntries output form entries))
  | [], out, h => by
    rw [mapEntitiesEntries] at h ⊢
    rw [nodeUsesEntries, edgeUsesEntries]
    exact ⟨usesSucceed_nil, iff_of_true h sameUses_nil⟩
  | (key, item) :: entries, out, h => by
    rw [mapEntitiesEntries, projectEntries] at h
    cases hitem : projectValue state output form (mapEntities f' g' item) with
    | error error => simp [hitem] at h
    | ok value =>
      cases hitems : projectEntries state output form (mapEntitiesEntries f' g' entries) with
      | error error => simp [hitem, hitems] at h
      | ok vs =>
        simp only [hitem, hitems, ok.injEq] at h
        subst h
        obtain ⟨hok, hiff⟩ := projectValue_eq_iff hf hg form item value hitem
        obtain ⟨hoks, hiffs⟩ := projectEntries_eq_iff hf hg form entries vs hitems
        rw [nodeUsesEntries, edgeUsesEntries, sameUses_append, ← hiff, ← hiffs, mapEntitiesEntries, projectEntries]
        refine ⟨hok.append hoks, ?_⟩
        cases projectValue state output form (mapEntities f g item) with
        | error error => simp
        | ok value' =>
          cases projectEntries state output form (mapEntitiesEntries f g entries) with
          | error error | ok values' => simp

end

theorem isNull_mapEntities (value : EvalValue S) : (mapEntities f g value).isNull = value.isNull := by cases value <;> rfl

theorem cell_eq_iff (hf : ∀ node, (f node).id = (f' node).id) (hg : ∀ edge, (g edge).id = (g' edge).id)
    (cell : Cell S) (h : graphEvalToOutputValue state output (mapEntities f' g' cell.value) cell.projection = .ok out) :
    UsesSucceed state f' g' (cellNodeUses output cell) (cellEdgeUses output cell) ∧
      (graphEvalToOutputValue state output (mapEntities f g cell.value) cell.projection = .ok out ↔
        SameUses state f f' g g' (cellNodeUses output cell) (cellEdgeUses output cell)) := by
  obtain ⟨value, prj⟩ := cell
  rw [graphEvalToOutputValue, isNull_mapEntities] at h ⊢
  by_cases hnull : value.isNull = true
  · have hval : value = .null := by
      cases value <;> first | rfl | cases hnull
    subst hval
    have hnos : cellNodeUses output (⟨.null, prj⟩ : Cell S) = [] := by
      rw [cellNodeUses]
      split
      · rfl
      · rw [nodeUses]
    have heds : cellEdgeUses output (⟨.null, prj⟩ : Cell S) = [] := by
      rw [cellEdgeUses]
      split
      · rfl
      · rw [edgeUses]
    rw [hnos, heds]
    exact ⟨usesSucceed_nil, iff_of_true h sameUses_nil⟩
  · rw [if_neg hnull] at h ⊢
    rw [cellNodeUses, cellEdgeUses]
    cases hform : outputForm output prj with
    | error error => simp [hform] at h
    | ok form =>
      simp only [hform] at h
      exact projectValue_eq_iff hf hg form value out h

end

section
variable {S X P : Type}

theorem id_hydrateEntity {F : Type} {kind : EntityKind F} (rs : ℕ → Option (Record kind X P))
    (asked : List (ℕ × FieldNeeds F)) (entity : Bound F) :
    (hydrateEntity rs asked entity).id = (loadFully entity).id := by
  rw [hydrateEntity]
  split <;> rfl

/-- If every projection fits its value and every entity that is put out with fields is visible,
the output is complete if and only if the output is covered by what was read. -/
theorem pipelineProjectOutputRows_complete_iff (state : State X P) (output : GraphOutputOptions)
    (rows : List (List (Cell S))) (out : List (List (GraphValue S X P)))
    (h : completeOutputRows state output rows = .ok out) :
    pipelineProjectOutputRows state output rows = .ok out ↔ OutputCovered state output rows := by
  rw [pipelineProjectOutputRows, OutputCovered]
  generalize rows.flatten.flatMap (cellNodeNeeds state output) = nodeNeeds
  generalize rows.flatten.flatMap (cellEdgeNeeds state output) = edgeNeeds
  obtain ⟨hrows_ok, hrows⟩ := traverse_eq_iff (f := traverse fun cell =>
    graphEvalToOutputValue state output (hydrateOutputValue state nodeNeeds edgeNeeds cell.value) cell.projection) h
  refine hrows.trans ?_
  -- cell by cell, and then entity by entity
  have hcell : ∀ row ∈ rows, ∀ cell ∈ row,
      (graphEvalToOutputValue state output (hydrateOutputValue state nodeNeeds edgeNeeds cell.value) cell.projection =
        graphEvalToOutputValue state output (mapEntities loadFully loadFully cell.value) cell.projection ↔
      (∀ use ∈ cellNodeUses output cell, UseCovered state.nodes nodeNeeds use) ∧
        ∀ use ∈ cellEdgeUses output cell, UseCovered state.edges edgeNeeds use) := by
    intro row hrow cell hmem
    obtain ⟨values, hvalues⟩ := hrows_ok row hrow
    obtain ⟨value, hvalue⟩ := (traverse_eq_iff (f := fun cell =>
      graphEvalToOutputValue state output (mapEntities loadFully loadFully cell.value) cell.projection) hvalues).1 cell hmem
    obtain ⟨hok, hiff⟩ := cell_eq_iff (id_hydrateEntity state.nodes nodeNeeds)
      (id_hydrateEntity state.edges edgeNeeds) cell hvalue
    rw [hvalue]
    refine hiff.trans ⟨fun hsame => ⟨fun use huse => ?_, fun use huse => ?_⟩, fun hcovered => ⟨fun use huse => ?_, fun use huse => ?_⟩⟩
    · exact (hydrateEntity_eq_iff nodeNeeds use.1 use.2 (hok.node use huse)).mp (hsame.node use huse)
    · exact (hydrateEntity_eq_iff edgeNeeds use.1 use.2 (hok.edge use huse)).mp (hsame.edge use huse)
    · exact (hydrateEntity_eq_iff nodeNeeds use.1 use.2 (hok.node use huse)).mpr (hcovered.1 use huse)
    · exact (hydrateEntity_eq_iff edgeNeeds use.1 use.2 (hok.edge use huse)).mpr (hcovered.2 use huse)
  have hrow : ∀ row ∈ rows,
      (traverse (fun cell => graphEvalToOutputValue state output
          (hydrateOutputValue state nodeNeeds edgeNeeds cell.value) cell.projection) row =
        traverse (fun cell => graphEvalToOutputValue state output
          (mapEntities loadFully loadFully cell.value) cell.projection) row ↔
      ∀ cell ∈ row, (∀ use ∈ cellNodeUses output cell, UseCovered state.nodes nodeNeeds use) ∧
        ∀ use ∈ cellEdgeUses output cell, UseCovered state.edges edgeNeeds use) := by
    intro row hmem
    obtain ⟨values, hvalues⟩ := hrows_ok row hmem
    rw [hvalues]
    refine (traverse_eq_iff hvalues).2.trans (forall₂_congr fun cell hcell_mem => ?_)
    exact hcell row hmem cell hcell_mem
  constructor
  · intro hall
    constructor
    · intro use huse
      obtain ⟨cell, hcell_mem, hcell_use⟩ := mem_flatMap.mp huse
      obtain ⟨row, hrow_mem, hmem⟩ := mem_flatten.mp hcell_mem
      exact ((hrow row hrow_mem).mp (hall row hrow_mem) cell hmem).1 use hcell_use
    · intro use huse
      obtain ⟨cell, hcell_mem, hcell_use⟩ := mem_flatMap.mp huse
      obtain ⟨row, hrow_mem, hmem⟩ := mem_flatten.mp hcell_mem
      exact ((hrow row hrow_mem).mp (hall row hrow_mem) cell hmem).2 use hcell_use
  · intro ⟨hnodes, hedges⟩ row hrow_mem
    refine (hrow row hrow_mem).mpr fun cell hmem => ?_
    have hcell_mem := mem_flatten.mpr ⟨row, hrow_mem, hmem⟩
    exact ⟨fun use huse => hnodes use (mem_flatMap.mpr ⟨cell, hcell_mem, huse⟩),
      fun use huse => hedges use (mem_flatMap.mpr ⟨cell, hcell_mem, huse⟩)⟩

end

/-- One node with the properties age and name, and no edges. -/
def onePerson : State String ℕ where
  nodes
    | 1 => some
      { fields := fun
          | .labels => some "Person"
          | .key => some "p"
          | .weight => some "1"
          | .createdAt => some "10"
          | .updatedAt => some "20"
          | .denseVector | .sparseVector => none
        props := [("age", 30), ("name", 7)]
        present := by
          intro field hfld
          cases field <;> first | rfl | cases hfld }
    | _ => none
  edges _ := none

/-- A list with the node, of which a stage may have read something. -/
def collectedPerson (loaded : Option (FieldNeeds NodeField)) : List (List (Cell Unit)) := [[⟨.list [.node ⟨1, loaded⟩], .auto⟩]]

def elementsOutput : GraphOutputOptions := ⟨.elements, false⟩

def completePerson : List (List (GraphValue Unit String ℕ)) :=
  [[.list [.node ⟨some 1, [(.labels, some "Person"), (.key, some "p"), (.weight, some "1"),
    (.createdAt, some "10"), (.updatedAt, some "20")], some [("age", 30), ("name", 7)]⟩]]]

/-- Of a node that no stage has read all fields are put out. -/
theorem unread_person_complete :
    completeOutputRows onePerson elementsOutput (collectedPerson none) = .ok completePerson ∧
      pipelineProjectOutputRows onePerson elementsOutput (collectedPerson none) = .ok completePerson ∧
      OutputCovered onePerson elementsOutput (collectedPerson none) :=
  ⟨rfl, rfl, (pipelineProjectOutputRows_complete_iff onePerson elementsOutput (collectedPerson none)
    completePerson rfl).mp rfl⟩

/-- A stage read the age of the node before it was collected: its key is not read any more. -/
theorem sorted_person_unloaded :
    completeOutputRows onePerson elementsOutput (collectedPerson (some ⟨fun _ => false, .keys ["age"]⟩)) =
        .ok completePerson ∧
      pipelineProjectOutputRows onePerson elementsOutput (collectedPerson (some ⟨fun _ => false, .keys ["age"]⟩)) =
        .error .unloadedField :=
  ⟨rfl, rfl⟩

end OverGraph.OutputValues
