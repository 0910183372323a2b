import OverGraph.NumericRangeKeys
import OverGraph.SortKeys
import OverGraph.WalCodec

/-!
# Rows of bindings

A row of a graph pipeline has a slot for each binding of a schema, which is unbound, null or bound to a value of its kind. Rows are
told apart by the canonical keys of their values, in which a number is its numeric value whatever its type, and ordered by sort atoms.
Neither exists for a float that is not finite.
-/

namespace OverGraph.BindingRows
open Records PropertyValues NumericRangeKeys SortKeys Bool

/-- Nodes and edges are given by their identifiers, their fields are read from the snapshot. -/
inductive GraphEvalValue where
  | null
  | bool (value : Bool)
  | int (value : ℤ)
  | uint (value : ℕ)
  | float (bits : F64)
  | string (value : String)
  | bytes (value : List UInt8)
  | list (items : List GraphEvalValue)
  | map (entries : List (String × GraphEvalValue))
  | node (id : ℕ)
  | edge (id : ℕ)
  | path (nodes edges : List ℕ)
  deriving BEq

inductive EvalError where
  | unbound (slot : ℕ)
  | invalid (message : String)
  deriving DecidableEq

inductive GraphCanonicalKey where
  | null
  | bool (value : Bool)
  | number (key : List UInt8)
  | string (value : String)
  | bytes (value : List UInt8)
  | node (id : ℕ)
  | edge (id : ℕ)
  | path (nodes edges : List ℕ)
  | list (items : List GraphCanonicalKey)
  | map (entries : List (String × GraphCanonicalKey))

section

def GraphEvalValue.isNull : GraphEvalValue → Bool
  | .null => true
  | _ => false

def numberKey (key : NumericScalarKey) : List UInt8 := (numericRangeSortKey key).bytes

def finiteKey (msg : String) (bits : F64) : Except EvalError NumericScalarKey :=
  match numericKeyFromF64 bits with
  | some key => .ok key
  | none => .error (.invalid msg)

def keyBytes (bytes : List UInt8) : List ℕ := bytes.map UInt8.toNat

mutual

def graphCanonicalKeyForValue : GraphEvalValue → Except EvalError GraphCanonicalKey
  | .null => .ok .null
  | .bool value => .ok (.bool value)
  | .int value => .ok (.number (numberKey (numericKeyFromI64 value)))
  | .uint value => .ok (.number (numberKey (numericKeyFromU64 value)))
  | .float bits =>
    (finiteKey "graph pipeline non-finite floats are not valid in canonical keys" bits).map fun key => .number (numberKey key)
  | .string value => .ok (.string value)
  | .bytes value => .ok (.bytes value)
  | .node id => .ok (.node id)
  | .edge id => .ok (.edge id)
  | .path nodes edges => .ok (.path nodes edges)
  | .list items => (canonicalKeysForItems items).map .list
  | .map entries => (canonicalKeysForEntries entries).map .map

def canonicalKeysForItems : List GraphEvalValue → Except EvalError (List GraphCanonicalKey)
  | [] => .ok []
  | item :: items => do
    let key ← graphCanonicalKeyForValue item
    let keys ← canonicalKeysForItems items
    .ok (key :: keys)

def canonicalKeysForEntries : List (String × GraphEvalValue) → Except EvalError (List (String × GraphCanonicalKey))
  | [] => .ok []
  | (name, value) :: entries => do
    let key ← graphCanonicalKeyForValue value
    let keys ← canonicalKeysForEntries entries
    .ok ((name, key) :: keys)

end

def graphSortAtomForValue : GraphEvalValue → Except EvalError GraphSortAtom
  | .null => .ok .null
  | .bool value => .ok (.bool value)
  | .int value => .ok (.number (keyBytes (numberKey (numericKeyFromI64 value))))
  | .uint value => .ok (.number (keyBytes (numberKey (numericKeyFromU64 value))))
  | .float bits =>
    (finiteKey "graph row non-finite floats are not valid in order contexts" bits).map fun key => .number (keyBytes (numberKey key))
  | .string value => .ok (.string (keyBytes (WalCodec.utf8 value)))
  | .bytes value => .ok (.bytes (keyBytes value))
  | .node id => .ok (.node id)
  | .edge id => .ok (.edge id)
  | .path nodes edges => .ok (.path edges.length nodes edges)
  | .list _ | .map _ => .error (.invalid "graph row list and map values are not orderable")

mutual

def graphLogicalSortAtomForValue : GraphEvalValue → Except EvalError GraphSortAtom
  | .list items => (logicalAtomsForItems items).map .list
  | .map entries => (logicalAtomsForEntries entries).map .map
  | value => graphSortAtomForValue value

def logicalAtomsForItems : List GraphEvalValue → Except EvalError (List GraphSortAtom)
  | [] => .ok []
  | item :: items => do
    let atom ← graphLogicalSortAtomForValue item
    let atoms ← logicalAtomsForItems items
    .ok (atom :: atoms)

def logicalAtomsForEntries : List (String × GraphEvalValue) → Except EvalError (List (List ℕ × GraphSortAtom))
  | [] => .ok []
  | (name, value) :: entries => do
    let atom ← graphLogicalSortAtomForValue value
    let atoms ← logicalAtomsForEntries entries
    .ok ((keyBytes (WalCodec.utf8 name), atom) :: atoms)

end

end

section

mutual

def sameKey : GraphCanonicalKey → GraphCanonicalKey → Bool
  | .null, .null => true
  | .bool a, .bool b => a == b
  | .number a, .number b => a == b
  | .string a, .string b => a == b
  | .bytes a, .bytes b => a == b
  | .node a, .node b => a == b
  | .edge a, .edge b => a == b
  | .path nodes edges, .path nodes' edges' => nodes == nodes' && edges == edges'
  | .list items, .list items' => sameItems items items'
  | .map entries, .map entries' => sameEntries entries entries'
  | _, _ => false

def sameItems : List GraphCanonicalKey → List GraphCanonicalKey → Bool
  | [], [] => true
  | key :: keys, key' :: keys' => sameKey key key' && sameItems keys keys'
  | _, _ => false

def sameEntries : List (String × GraphCanonicalKey) → List (String × GraphCanonicalKey) → Bool
  | [], [] => true
  | (name, key) :: entries, (name', key') :: entries' => name == name' && sameKey key key' && sameEntries entries entries'
  | _, _ => false

end

mutual

theorem sameKey_iff : ∀ a b : GraphCanonicalKey, sameKey a b = true ↔ a = b
  | .list items, b => by cases b <;> simp [sameKey, sameItems_iff items]
  | .map entries, b => by cases b <;> simp [sameKey, sameEntries_iff entries]
  | .null, b | .bool _, b | .number _, b | .string _, b | .bytes _, b | .node _, b | .edge _, b | .path _ _, b => by cases b <;> simp [sameKey]

theorem sameItems_iff : ∀ a b : List GraphCanonicalKey, sameItems a b = true ↔ a = b
  | [], b => by cases b <;> simp [sameItems]
  | key :: keys, b => by
    cases b with
    | nil => simp [sameItems]
    | cons key' keys' => rw [sameItems, and_eq_true, sameKey_iff key, sameItems_iff keys, List.cons.injEq]

theorem sameEntries_iff : ∀ a b : List (String × GraphCanonicalKey), sameEntries a b = true ↔ a = b
  | [], b => by cases b <;> simp [sameEntries]
  | (name, key) :: entries, b => by
    cases b with
    | nil => simp [sameEntries]
    | cons entry' entries' =>
      rw [sameEntries, and_eq_true, and_eq_true, sameKey_iff key, sameEntries_iff entries, beq_iff_eq, List.cons.injEq, ← Prod.mk.injEq]

end

instance : DecidableEq GraphCanonicalKey := fun a b => decidable_of_iff _ (sameKey_iff a b)

instance : LawfulBEq (List GraphCanonicalKey) := inferInstance

end

inductive SlotKind where
  | node
  | edge
  | path
  | scalar
  deriving DecidableEq

structure Slot where
  name : String
  userAlias : Option String
  kind : SlotKind
  nullable : Bool
  deriving DecidableEq

/-- A slot is referred to by its place among all slots. -/
abbrev Schema := List Slot

inductive SlotState where
  | unbound
  | null
  | bound (value : GraphEvalValue)

abbrev Row := List SlotState

def emptyRow (sch : Schema) : Row := sch.map fun _ => .unbound

def outOfBounds (slot : ℕ) : EvalError := .invalid s!"graph row slot {slot} is out of bounds"

def evalValue (slot : ℕ) : SlotState → Except EvalError GraphEvalValue
  | .unbound => .error (.unbound slot)
  | .null => .ok .null
  | .bound value => .ok value

def valueForSlot (row : Row) (slot : ℕ) : Except EvalError GraphEvalValue :=
  match row[slot]? with
  | none => .error (outOfBounds slot)
  | some state => evalValue slot state

/-- Which values a slot holds. -/
def SlotKind.holds : SlotKind → GraphEvalValue → Bool
  | .node, .node _ => true
  | .edge, .edge _ => true
  | .path, .path _ _ => true
  | .scalar, _ => true
  | _, _ => false

def bindPipelineValueToSlot (sch : Schema) (row : Row) (slot : ℕ) (value : GraphEvalValue) : Except EvalError Row :=
  match sch[slot]?, row[slot]? with
  | some info, some state =>
    if value.isNull then
      if !info.nullable then .error (.invalid s!"graph row binding '{info.name}' is not nullable")
      else match state with
        | .bound _ => .error (.invalid s!"graph row binding '{info.name}' is already bound and cannot be set to null")
        | _ => .ok (row.set slot .null)
    else if !info.kind.holds value then .error (.invalid "graph pipeline cannot bind value to slot")
    else match state with
      | .unbound => .ok (row.set slot (.bound value))
      | .null => .error (.invalid "graph row null binding cannot be rebound")
      | .bound existing => if existing == value then .ok row else .error (.invalid "graph row conflicting binding")
  | _, _ => .error (outOfBounds slot)

structure PipelineSlotMapping where
  source : ℕ
  target : ℕ

/-- What is mapped is copied. -/
def bindMappings (sch : Schema) (source : Row) (mappings : List PipelineSlotMapping) (row : Row) : Except EvalError Row :=
  mappings.foldlM (fun row mapping => do
    let value ← valueForSlot source mapping.source
    bindPipelineValueToSlot sch row mapping.target value) row

def graphCanonicalKeyForRowSlots (row : Row) (slots : List ℕ) : Except EvalError (List GraphCanonicalKey) :=
  slots.mapM fun slot => do
    let value ← valueForSlot row slot
    graphCanonicalKeyForValue value

def slotForAlias (sch : Schema) (name : String) : Option ℕ := sch.findIdx? fun slot => slot.userAlias == some name

/-- A new slot stands behind the others. -/
def addAliasedSlot (sch : Schema) (name : String) (kind : SlotKind) (nullable : Bool) : Except EvalError (Schema × ℕ) :=
  if name.isEmpty then .error (.invalid "graph row binding alias must be non-empty")
  else if (slotForAlias sch name).isSome then .error (.invalid s!"graph row binding alias '{name}' is already assigned a slot")
  else .ok (sch ++ [⟨name, some name, kind, nullable⟩], sch.length)

/-- Prefixes of the names of generated slots. -/
def reservedAlias (name : String) : Bool := name.startsWith "__gql_" || name.startsWith "__og_"

def validateGraphPipelineUserAlias (name ctx : String) : Except EvalError Unit :=
  if reservedAlias name then .error (.invalid s!"graph pipeline {ctx} '{name}' uses a reserved internal alias prefix") else .ok ()

def Slot.admits (slot : Slot) : SlotState → Bool
  | .unbound => false
  | .null => slot.nullable
  | .bound value => !value.isNull && slot.kind.holds value

def Fits (sch : Schema) (row : Row) : Prop := List.Forall₂ (fun slot state => slot.admits state = true) sch row

variable {sch : Schema} {row : Row}

theorem Fits.length (h : Fits sch row) : sch.length = row.length := List.Forall₂.length_eq h

theorem Fits.state (h : Fits sch row) {slot : ℕ} {info : Slot} (hinfo : sch[slot]? = some info) :
    ∃ state, row[slot]? = some state ∧ info.admits state = true := by
  obtain ⟨hbd, rfl⟩ := List.getElem?_eq_some_iff.mp hinfo
  have hrow : slot < row.length := h.length ▸ hbd
  exact ⟨row[slot], List.getElem?_eq_getElem hrow, List.Forall₂.get h hbd hrow⟩

/-- What is read from a slot. -/
def SlotState.value : SlotState → GraphEvalValue
  | .bound value => value
  | _ => .null

variable {state : SlotState}

theorem evalValue_of_admits {info : Slot} (h : info.admits state = true) (slot : ℕ) :
    evalValue slot state = .ok state.value := by
  cases state with
  | unbound => cases h
  | null | bound value => rfl

theorem eq_of_value_eq {fst snd : Slot} {other : SlotState} (h : fst.admits state = true) (h' : snd.admits other = true)
    (heq : state.value = other.value) : state = other := by
  cases state with
  | unbound => cases h
  | null =>
    cases other with
    | unbound => cases h'
    | null => rfl
    | bound value =>
      obtain rfl : GraphEvalValue.null = value := heq
      cases h'
  | bound value =>
    cases other with
    | unbound => cases h'
    | null =>
      obtain rfl : value = GraphEvalValue.null := heq
      cases h
    | bound other => exact congrArg _ heq

/-- A value that was read from a slot may be bound to an unbound slot of the same kind. -/
theorem bind_of_admits {slot : ℕ} {info tgt : Slot} (hadm : info.admits state = true)
    (htgt : sch[slot]? = some tgt) (hkind : tgt.kind = info.kind) (hnullable : tgt.nullable = info.nullable)
    (hrow : row[slot]? = some .unbound) : bindPipelineValueToSlot sch row slot state.value = .ok (row.set slot state) := by
  rw [bindPipelineValueToSlot, htgt, hrow]
  cases state with
  | unbound => cases hadm
  | null =>
    have hnull : tgt.nullable = true := hnullable.trans hadm
    simp [SlotState.value, GraphEvalValue.isNull, hnull]
  | bound value =>
    obtain ⟨hval, hhol⟩ := (and_eq_true _ _).mp hadm
    rw [not_eq_true'] at hval
    simp [SlotState.value, hval, hkind, hhol]

end OverGraph.BindingRows
