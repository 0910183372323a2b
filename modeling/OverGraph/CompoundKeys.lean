import OverGraph.SemanticEquality
import OverGraph.ShrinkingTuples
import OverGraph.SecondaryEntries
import OverGraph.WalCodec
import Mathlib.Tactic.IntervalCases

/-!
# Keys of compound indexes

The key of a tuple is the bytes of its components, each with its class and length before it. Text and
bytes are written in full up to a limit and as a hash beyond it; a tuple that is too long has its
longest components hashed until it fits.
-/

namespace OverGraph.CompoundKeys
open Records ByteReaders SortedBytes NumericRangeKeys SemanticEquality ShrinkingTuples WalCodec Fallible List Function
open SecondaryEntries (NodeMetadataField EdgeMetadataField NodeIndexField EdgeIndexField nodeCompoundFieldValue edgeCompoundFieldValue)

def maxSecondaryIndexFields : ℕ := 8

def maxCompoundComponentBytes : ℕ := 1024

def maxCompoundTupleBytes : ℕ := 4096

inductive SecondaryIndexFieldManifest where
  | property (key : String)
  | nodeMetadata (field : NodeMetadataField)
  | edgeMetadata (field : EdgeMetadataField)

inductive TargetKind where
  | node
  | edge

inductive CompoundFieldValue where
  | property (val : Option PropValue)
  | metadataString (val : String)
  | metadataI64 (val : ℤ)
  | metadataU64 (val : ℕ)
  | metadataF64 (val : F64)

structure CompoundTupleContext where
  targetKind : TargetKind
  targetLabelId : ℕ
  fields : List SecondaryIndexFieldManifest

inductive CompoundComponentClass where
  | missing
  | null
  | boolFalse
  | boolTrue
  | numeric
  | string
  | bytes
  | equalityHash
  deriving DecidableEq

def CompoundComponentClass.tag : CompoundComponentClass → UInt8
  | .missing => 0x01
  | .null => 0x02
  | .boolFalse => 0x03
  | .boolTrue => 0x04
  | .numeric => 0x10
  | .string => 0x20
  | .bytes => 0x30
  | .equalityHash => 0x40

def TargetKind.tag : TargetKind → UInt8
  | .node => 1
  | .edge => 2

def fieldSourceTag : SecondaryIndexFieldManifest → UInt8
  | .property _ => 1
  | .nodeMetadata _ => 2
  | .edgeMetadata _ => 3

def nodeMetadataIndexFieldName : NodeMetadataField → String
  | .id => "id"
  | .key => "key"
  | .weight => "weight"
  | .createdAt => "created_at"
  | .updatedAt => "updated_at"

def edgeMetadataIndexFieldName : EdgeMetadataField → String
  | .id => "id"
  | .source => "from"
  | .target => "to"
  | .weight => "weight"
  | .createdAt => "created_at"
  | .updatedAt => "updated_at"
  | .validFrom => "valid_from"
  | .validTo => "valid_to"

def canonicalFieldName : SecondaryIndexFieldManifest → String
  | .property key => key
  | .nodeMetadata field => nodeMetadataIndexFieldName field
  | .edgeMetadata field => edgeMetadataIndexFieldName field

def fnv1a (bytes : List UInt8) : ℕ := bytes.foldl (fun hash b => ((hash ^^^ b.toNat) * 0x100000001b3) % 2 ^ 64) 0xcbf29ce484222325

def putLenPrefixed (bytes : List UInt8) : List UInt8 := leBytes 8 bytes.length ++ bytes

def emitComponent (cls : CompoundComponentClass) (payload : List UInt8) : Except String (List UInt8) :=
  if 2 ^ 16 ≤ payload.length then
    .error s!"compound secondary index unavailable: component payload length {payload.length} exceeds u16"
  else .ok (cls.tag :: (beBytes 2 payload.length ++ payload))

structure ComponentEncoding where
  bytes : List UInt8
  hashableVariableLen : Option ℕ

def equalityHashPayload (ctx : CompoundTupleContext) (ord : ℕ) (field : SecondaryIndexFieldManifest)
    (semanticBytes : List UInt8) : List UInt8 :=
  leBytes 8 (fnv1a (utf8 "compound-equality-component-v1" ++ (ctx.targetKind.tag :: (leBytes 4 ctx.targetLabelId ++
    (leBytes 2 ctx.fields.length ++ (leBytes 2 ord ++ (fieldSourceTag field ::
      (putLenPrefixed (utf8 (canonicalFieldName field)) ++ (leBytes 8 (fnv1a semanticBytes) ++ putLenPrefixed semanticBytes)))))))))

def validateValueMatchesField (field : SecondaryIndexFieldManifest) (val : CompoundFieldValue) (ord : ℕ) : Except String Unit :=
  let valid := match field, val with
    | .property _, .property _ => true
    | .nodeMetadata .id, .metadataU64 _ => true
    | .nodeMetadata .key, .metadataString _ => true
    | .nodeMetadata .weight, .metadataF64 _ => true
    | .nodeMetadata .createdAt, .metadataI64 _ => true
    | .nodeMetadata .updatedAt, .metadataI64 _ => true
    | .edgeMetadata .id, .metadataU64 _ => true
    | .edgeMetadata .source, .metadataU64 _ => true
    | .edgeMetadata .target, .metadataU64 _ => true
    | .edgeMetadata .weight, .metadataF64 _ => true
    | .edgeMetadata .createdAt, .metadataI64 _ => true
    | .edgeMetadata .updatedAt, .metadataI64 _ => true
    | .edgeMetadata .validFrom, .metadataI64 _ => true
    | .edgeMetadata .validTo, .metadataI64 _ => true
    | _, _ => false
  if valid then .ok ()
  else .error s!"compound secondary index unavailable: value for field ordinal {ord} is incompatible with declaration field"

section
variable (toVec : PropValue → List UInt8) (ctx : CompoundTupleContext)

def hashedComponent (ord : ℕ) (field : SecondaryIndexFieldManifest) (val : PropValue) : Except String ComponentEncoding := do
  let bytes ← emitComponent .equalityHash (equalityHashPayload ctx ord field (semanticEqualityKeyBytes toVec val))
  return ⟨bytes, none⟩

def fixedComponent (cls : CompoundComponentClass) (payload : List UInt8) : Except String ComponentEncoding := do
  let bytes ← emitComponent cls payload
  return ⟨bytes, none⟩

/-- Text and bytes are hashed when they are too long, or when asked for. -/
def variableComponent (ord : ℕ) (field : SecondaryIndexFieldManifest) (val : PropValue) (cls : CompoundComponentClass)
    (payload : List UInt8) (forceHash : Bool) : Except String ComponentEncoding :=
  if payload.length > maxCompoundComponentBytes || forceHash then hashedComponent toVec ctx ord field val
  else do
    let bytes ← emitComponent cls payload
    return ⟨bytes, some payload.length⟩

/-- A number by its sort key, and by its hash when it is not finite. -/
def numericComponent (ord : ℕ) (field : SecondaryIndexFieldManifest) (val : PropValue) : Except String ComponentEncoding :=
  match numericRangeSortKeyForValue val with
  | some key => fixedComponent .numeric key.bytes
  | none => hashedComponent toVec ctx ord field val

def encodePropertyComponent (ord : ℕ) (field : SecondaryIndexFieldManifest) (val : PropValue) (forceHash : Bool) :
    Except String ComponentEncoding :=
  match val with
  | .null => fixedComponent .null []
  | .bool false => fixedComponent .boolFalse []
  | .bool true => fixedComponent .boolTrue []
  | .int _ | .uint _ | .float _ => numericComponent toVec ctx ord field val
  | .string text => variableComponent toVec ctx ord field val .string (utf8 text) forceHash
  | .bytes bytes => variableComponent toVec ctx ord field val .bytes bytes forceHash
  | .array _ | .map _ => hashedComponent toVec ctx ord field val

def encodeComponent (ord : ℕ) (field : SecondaryIndexFieldManifest) (val : CompoundFieldValue) (forceHash : Bool) :
    Except String ComponentEncoding := do
  validateValueMatchesField field val ord
  match val with
  | .property none => fixedComponent .missing []
  | .property (some val) => encodePropertyComponent toVec ctx ord field val forceHash
  | .metadataString text => variableComponent toVec ctx ord field (.string text) .string (utf8 text) forceHash
  | .metadataI64 val => numericComponent toVec ctx ord field (.int val)
  | .metadataU64 val => numericComponent toVec ctx ord field (.uint val)
  | .metadataF64 val => numericComponent toVec ctx ord field (.float val)

/-- One pass over the tuple, with the components to hash. -/
def encodeAll (vs : List CompoundFieldValue) (forceHash : ℕ → Bool) : Except String (List ComponentEncoding) :=
  (ctx.fields.zip vs).zipIdx.mapM fun ((field, val), ord) => encodeComponent toVec ctx ord field val (forceHash ord)

/-- What a pass decides: the tuple fits, or one more component is to be hashed. -/
def finishPass (encoded : List ComponentEncoding) (forceHash : ℕ → Bool) : Except String (List UInt8 ⊕ ℕ) :=
  let totalLen := (encoded.map fun component => component.bytes.length).sum
  if totalLen ≤ maxCompoundTupleBytes then .ok (.inl (encoded.map ComponentEncoding.bytes).flatten)
  else
    match heaviest (candidates (encoded.zipIdx.map fun (component, ord) =>
      if forceHash ord then none else component.hashableVariableLen)) with
    | none => .error s!"compound secondary index unavailable: encoded tuple length {totalLen} exceeds {maxCompoundTupleBytes} bytes"
    | some (ord, _) => .ok (.inr ord)

def encodeLoop (vs : List CompoundFieldValue) : ℕ → (ℕ → Bool) → Except String (List UInt8)
  | 0, _ => .error "compound secondary index unavailable: out of passes"
  | fuel + 1, forceHash => do
    let encoded ← encodeAll toVec ctx vs forceHash
    match (← finishPass encoded forceHash) with
    | .inl tuple => return tuple
    | .inr ord => encodeLoop vs fuel (Function.update forceHash ord true)

def encodeCompoundComponents (vs : List CompoundFieldValue) : Except String (List UInt8) :=
  if 1 ≤ ctx.fields.length ∧ ctx.fields.length ≤ maxSecondaryIndexFields then
    encodeLoop toVec ctx vs (vs.length + 1) fun _ => false
  else .error s!"compound secondary index unavailable: field count {ctx.fields.length} is outside 1..={maxSecondaryIndexFields}"

def encodeCompoundTupleKey (vs : List CompoundFieldValue) : Except String (List UInt8) :=
  if vs.length ≠ ctx.fields.length then
    .error s!"compound secondary index unavailable: tuple value count {vs.length} does not match field count {ctx.fields.length}"
  else encodeCompoundComponents toVec ctx vs

def encodeCompoundTuplePrefix (vs : List CompoundFieldValue) : Except String (List UInt8) :=
  if vs.length > ctx.fields.length then
    .error s!"compound secondary index unavailable: tuple prefix value count {vs.length} exceeds field count {ctx.fields.length}"
  else encodeCompoundComponents toVec ctx vs

end

/-- The values fit the fields they are for. -/
structure Matches (ctx : CompoundTupleContext) (vs : List CompoundFieldValue) : Prop where
  length_eq : vs.length = ctx.fields.length
  valid : ∀ i field val, ctx.fields[i]? = some field → vs[i]? = some val → validateValueMatchesField field val i = .ok ()

/-- The length of a text that is written in full unless the tuple is too long. -/
def hashableLength : CompoundFieldValue → Option ℕ
  | .property (some (.string text)) | .metadataString text =>
    if (utf8 text).length ≤ maxCompoundComponentBytes then some (utf8 text).length else none
  | .property (some (.bytes bytes)) => if bytes.length ≤ maxCompoundComponentBytes then some bytes.length else none
  | _ => none

def hashedLength : ℕ := 11

def numericLength (val : PropValue) : ℕ := if (numericRangeSortKeyForValue val).isSome then 27 else hashedLength

def unhashableLength : CompoundFieldValue → ℕ
  | .property none | .property (some .null) | .property (some (.bool _)) => 3
  | .property (some (.int val)) | .metadataI64 val => numericLength (.int val)
  | .property (some (.uint val)) | .metadataU64 val => numericLength (.uint val)
  | .property (some (.float val)) | .metadataF64 val => numericLength (.float val)
  | .property (some (.string _)) | .property (some (.bytes _)) | .metadataString _ => hashedLength
  | .property (some (.array _)) | .property (some (.map _)) => hashedLength

/-- The length of a component that is not hashed for the tuple's sake. -/
def plainLength (val : CompoundFieldValue) : ℕ :=
  match hashableLength val with
  | some length => 3 + length
  | none => unhashableLength val

section
variable (toVec : PropValue → List UInt8) (ctx : CompoundTupleContext)

/-- A component has its two forms, whichever is asked for. -/
def Renders (ord : ℕ) (field : SecondaryIndexFieldManifest) (val : CompoundFieldValue) (p : Piece UInt8) : Prop :=
  ∀ force, encodeComponent toVec ctx ord field val force = .ok ⟨p.render force, p.open force⟩

variable {cls : CompoundComponentClass}

theorem emitComponent_ok {payload : List UInt8} (h : payload.length < 2 ^ 16) :
    emitComponent cls payload = .ok (cls.tag :: (beBytes 2 payload.length ++ payload)) := by
  rw [emitComponent, if_neg (by omega)]

theorem length_emitted (cls : CompoundComponentClass) (payload : List UInt8) :
    (cls.tag :: (beBytes 2 payload.length ++ payload)).length = 3 + payload.length := by
  rw [length_cons, length_append, length_beBytes]
  omega

def fixedPiece (bytes : List UInt8) : Piece UInt8 := ⟨bytes, bytes, none⟩

theorem render_fixedPiece (bytes : List UInt8) (force : Bool) :
    (⟨(fixedPiece bytes).render force, (fixedPiece bytes).open force⟩ : ComponentEncoding) = ⟨bytes, none⟩ := by
  cases force <;> rfl

theorem hashedComponent_ok (ord : ℕ) (field : SecondaryIndexFieldManifest) (val : PropValue) :
    ∃ payload : List UInt8, payload.length = 8 ∧ hashedComponent toVec ctx ord field val =
      .ok ⟨CompoundComponentClass.equalityHash.tag :: (beBytes 2 payload.length ++ payload), none⟩ := by
  refine ⟨equalityHashPayload ctx ord field (semanticEqualityKeyBytes toVec val), length_leBytes 8 _, ?_⟩
  rw [hashedComponent, emitComponent_ok]
  · rfl
  · rw [equalityHashPayload, length_leBytes]
    decide

structure PieceOf (val : CompoundFieldValue) (p : Piece UInt8) : Prop where
  weight : p.weight = hashableLength val
  plain : p.plain.length = plainLength val
  small : p.weight = none → p.plain = p.hashed ∧ p.plain.length ≤ 27
  forms : p.weight.isSome = true → p.hashed.length = hashedLength ∧
    ∃ a b plain hashed, p.plain = a :: plain ∧ p.hashed = b :: hashed ∧ a ≠ b

variable {val : CompoundFieldValue}

theorem pieceOf_fixed {bytes : List UInt8} (hwt : hashableLength val = none)
    (hlen : bytes.length = plainLength val) (hsm : bytes.length ≤ 27) : PieceOf val (fixedPiece bytes) where
  weight := hwt.symm
  plain := hlen
  small := fun _ => ⟨rfl, hsm⟩
  forms := fun h => Bool.noConfusion h

variable {field : SecondaryIndexFieldManifest} {ord : ℕ}

/-- A component that has one form only. -/
theorem exists_fixed {x : Except String ComponentEncoding} {bytes : List UInt8} (hx : x = .ok ⟨bytes, none⟩)
    (henc : ∀ force, encodeComponent toVec ctx ord field val force = x)
    (hwt : hashableLength val = none) (hlen : bytes.length = plainLength val) (hsm : bytes.length ≤ 27) :
    ∃ p, Renders toVec ctx ord field val p ∧ PieceOf val p := by
  refine ⟨fixedPiece bytes, ?_, pieceOf_fixed hwt hlen hsm⟩
  intro force
  rw [henc, hx, render_fixedPiece]

variable {prop : PropValue}

theorem exists_hashed
    (henc : ∀ force, encodeComponent toVec ctx ord field val force = hashedComponent toVec ctx ord field prop)
    (hwt : hashableLength val = none) (hlen : plainLength val = hashedLength) :
    ∃ p, Renders toVec ctx ord field val p ∧ PieceOf val p := by
  obtain ⟨payload, height, hhashed⟩ := hashedComponent_ok toVec ctx ord field prop
  apply exists_fixed toVec ctx hhashed henc hwt
  · rw [length_emitted, height, hlen]
    rfl
  · rw [length_emitted, height]
    decide

theorem exists_numeric {ord : ℕ} {field : SecondaryIndexFieldManifest} {val : CompoundFieldValue} {prop : PropValue}
    (henc : ∀ force, encodeComponent toVec ctx ord field val force = numericComponent toVec ctx ord field prop)
    (hwt : hashableLength val = none) (hlen : plainLength val = numericLength prop) :
    ∃ p, Renders toVec ctx ord field val p ∧ PieceOf val p := by
  rw [numericLength] at hlen
  cases hkey : numericRangeSortKeyForValue prop with
  | none =>
    rw [hkey] at hlen
    apply exists_hashed toVec ctx _ hwt hlen
    · exact prop
    · intro force
      rw [henc, numericComponent, hkey]
  | some key =>
    have hbs : key.bytes.length = 24 := key.length_eq
    rw [hkey] at hlen
    have hfixed : numericComponent toVec ctx ord field prop =
        .ok ⟨CompoundComponentClass.numeric.tag :: (beBytes 2 key.bytes.length ++ key.bytes), none⟩ := by
      rw [numericComponent, hkey]
      dsimp only
      rw [fixedComponent, emitComponent_ok (by omega)]
      rfl
    apply exists_fixed toVec ctx hfixed henc hwt
    · rw [length_emitted, hbs, hlen]
      rfl
    · rw [length_emitted, hbs]

/-- Text and bytes have two forms while they are short enough. -/
theorem exists_variable {payload : List UInt8} (hclass : cls.tag ≠ CompoundComponentClass.equalityHash.tag)
    (henc : ∀ force, encodeComponent toVec ctx ord field val force = variableComponent toVec ctx ord field prop cls payload force)
    (hwt : hashableLength val = if payload.length ≤ maxCompoundComponentBytes then some payload.length else none)
    (hlong : ¬payload.length ≤ maxCompoundComponentBytes → plainLength val = hashedLength) :
    ∃ p, Renders toVec ctx ord field val p ∧ PieceOf val p := by
  by_cases hsh : payload.length ≤ maxCompoundComponentBytes
  · rw [if_pos hsh] at hwt
    obtain ⟨short, height, hhashed⟩ := hashedComponent_ok toVec ctx ord field prop
    have hword : payload.length < 2 ^ 16 := lt_of_le_of_lt hsh (by decide)
    refine ⟨⟨cls.tag :: (beBytes 2 payload.length ++ payload),
      CompoundComponentClass.equalityHash.tag :: (beBytes 2 short.length ++ short), some payload.length⟩, ?_,
      hwt.symm, ?_, nofun, ?_⟩
    · intro force
      rw [henc, variableComponent]
      cases force with
      | true =>
        rw [Bool.or_true, if_pos rfl]
        exact hhashed
      | false =>
        rw [if_neg (by simp [Nat.not_lt.mpr hsh]), emitComponent_ok hword]
        rfl
    · rw [plainLength, hwt]
      exact length_emitted cls payload
    · intro _
      refine ⟨?_, _, _, _, _, rfl, rfl, hclass⟩
      rw [length_emitted, height]
      rfl
  · rw [if_neg hsh] at hwt
    apply exists_hashed toVec ctx _ hwt (hlong hsh)
    · exact prop
    · intro force
      rw [henc, variableComponent, if_pos (by simp [Nat.lt_of_not_le hsh])]

theorem exists_piece (hvd : validateValueMatchesField field val ord = .ok ()) : ∃ p, Renders toVec ctx ord field val p ∧ PieceOf val p := by
  have henc : ∀ {f : Bool → Except String ComponentEncoding} {val : CompoundFieldValue},
      validateValueMatchesField field val ord = .ok () →
      (∀ force, encodeComponent toVec ctx ord field val force = (do validateValueMatchesField field val ord; f force)) →
      ∀ force, encodeComponent toVec ctx ord field val force = f force := by
    intro f val hok h force
    rw [h, hok]
    rfl
  cases val with
  | property val =>
    cases val with
    | none => exact exists_fixed toVec ctx rfl (henc hvd fun _ => rfl) rfl rfl (by decide)
    | some val =>
      cases val with
      | null => exact exists_fixed toVec ctx rfl (henc hvd fun _ => rfl) rfl rfl (by decide)
      | bool b =>
        cases b with
        | false | true => exact exists_fixed toVec ctx rfl (henc hvd fun _ => rfl) rfl rfl (by decide)
      | int val => exact @exists_numeric _ _ _ _ _ (.int val) (henc hvd fun _ => rfl) rfl rfl
      | uint val => exact @exists_numeric _ _ _ _ _ (.uint val) (henc hvd fun _ => rfl) rfl rfl
      | float val => exact exists_numeric toVec ctx (henc hvd fun _ => rfl) rfl rfl
      | string text =>
        apply exists_variable toVec ctx (by decide) (henc hvd fun _ => rfl) rfl
        intro hlong
        rw [plainLength, hashableLength, if_neg hlong]
        rfl
      | bytes bytes =>
        apply exists_variable toVec ctx (by decide) (henc hvd fun _ => rfl) rfl
        intro hlong
        rw [plainLength, hashableLength, if_neg hlong]
        rfl
      | array items | map entries => exact exists_hashed toVec ctx (henc hvd fun _ => rfl) rfl rfl
  | metadataString text =>
    apply exists_variable toVec ctx (by decide) (henc hvd fun _ => rfl) rfl
    intro hlong
    rw [plainLength, hashableLength, if_neg hlong]
    rfl
  | metadataI64 val | metadataU64 val | metadataF64 val => exact exists_numeric toVec ctx (henc hvd fun _ => rfl) rfl rfl

end

structure PiecesOf (toVec : PropValue → List UInt8) (ctx : CompoundTupleContext) (vs : List CompoundFieldValue)
    (ps : List (Piece UInt8)) : Prop where
  length_eq : ps.length = vs.length
  piece : ∀ i field val, ctx.fields[i]? = some field → vs[i]? = some val →
    ∃ p, ps[i]? = some p ∧ Renders toVec ctx i field val p ∧ PieceOf val p

section
variable {toVec : PropValue → List UInt8} {ctx : CompoundTupleContext} {vs : List CompoundFieldValue}
  {ps : List (Piece UInt8)}

theorem Matches.exists_pieces (h : Matches ctx vs) : ∃ ps, PiecesOf toVec ctx vs ps := by
  have hex : ∀ i : Fin vs.length, ∃ p, ∀ field, ctx.fields[i.1]? = some field →
      Renders toVec ctx i.1 field vs[i.1] p ∧ PieceOf vs[i.1] p := by
    intro i
    have hlt : i.1 < ctx.fields.length := by
      rw [← h.length_eq]
      exact i.2
    obtain ⟨p, hp⟩ := exists_piece toVec ctx
      (h.valid i.1 _ _ (List.getElem?_eq_getElem hlt) (List.getElem?_eq_getElem i.2))
    refine ⟨p, ?_⟩
    intro field hfld
    rw [List.getElem?_eq_getElem hlt] at hfld
    obtain rfl := Option.some.inj hfld
    exact hp
  choose piece hpiece using hex
  refine ⟨List.ofFn piece, length_ofFn, ?_⟩
  intro i field val hfld hval
  obtain ⟨hlt, rfl⟩ := List.getElem?_eq_some_iff.mp hval
  refine ⟨piece ⟨i, hlt⟩, ?_, hpiece ⟨i, hlt⟩ field hfld⟩
  rw [List.getElem?_ofFn, dif_pos hlt]

theorem PiecesOf.take (h : PiecesOf toVec ctx vs ps) (k : ℕ) : PiecesOf toVec ctx (vs.take k) (ps.take k) := by
  refine ⟨?_, ?_⟩
  · rw [length_take, length_take, h.length_eq]
  · intro i field val hfld hval
    rw [getElem?_take] at hval ⊢
    split at hval
    · rename_i hi
      rw [if_pos hi]
      exact h.piece i field val hfld hval
    · cases hval

/-- What one pass encodes. -/
def encoded (ps : List (Piece UInt8)) (force : ℕ → Bool) : List ComponentEncoding :=
  ps.zipIdx.map fun (p, i) => ⟨p.render (force i), p.open (force i)⟩

theorem getElem?_encoded (ps : List (Piece UInt8)) (force : ℕ → Bool) (i : ℕ) :
    (encoded ps force)[i]? = (ps[i]?).map fun p => ⟨p.render (force i), p.open (force i)⟩ := by
  rw [encoded, getElem?_map, getElem?_zipIdx, Option.map_map]
  simp [comp_def]

theorem PiecesOf.encodeAll_eq (h : PiecesOf toVec ctx vs ps) (hlen : vs.length ≤ ctx.fields.length)
    (force : ℕ → Bool) : encodeAll toVec ctx vs force = .ok (encoded ps force) := by
  have hzip : (ctx.fields.zip vs).length = ps.length := by rw [length_zip, h.length_eq, Nat.min_eq_right hlen]
  have hpieces : (ctx.fields.zip vs).zipIdx.map (fun entry =>
      ((encoded ps force)[entry.2]?).getD ⟨[], none⟩) = encoded ps force := by
    apply ext_getElem?
    intro i
    rw [getElem?_map, getElem?_zipIdx, Option.map_map]
    cases hent : (ctx.fields.zip vs)[i]? with
    | none =>
      have hbeyond := List.getElem?_eq_none_iff.mp hent
      rw [getElem?_encoded, List.getElem?_eq_none_iff.mpr (by omega)]
      rfl
    | some entry =>
      have hlt := (List.getElem?_eq_some_iff.mp hent).1
      have hin : i < (encoded ps force).length := by
        rw [encoded, length_map, length_zipIdx]
        omega
      rw [List.getElem?_eq_getElem hin, Option.map_some]
      change some (((encoded ps force)[0 + i]?).getD _) = _
      rw [Nat.zero_add, List.getElem?_eq_getElem hin]
      rfl
  rw [encodeAll, ← hpieces]
  apply mapM_of_forall
  intro entry hent
  obtain ⟨⟨field, val⟩, i⟩ := entry
  have hget := mem_zipIdx_iff_getElem?.mp hent
  obtain ⟨hfld, hval⟩ := List.getElem?_zip_eq_some.mp hget
  obtain ⟨p, hp, hrend, -⟩ := h.piece i field val hfld hval
  rw [getElem?_encoded, hp]
  exact hrend (force i)

theorem finishPass_encoded (ps : List (Piece UInt8)) (force : ℕ → Bool) : totalLength ps force ≤ maxCompoundTupleBytes ∧
        finishPass (encoded ps force) force = .ok (.inl (write ps force).flatten) ∨
      ¬totalLength ps force ≤ maxCompoundTupleBytes ∧
        ∀ ord w, heaviest (candidates (ps.zipIdx.map fun (p, i) => p.open (force i))) = some (ord, w) →
          finishPass (encoded ps force) force = .ok (.inr ord) := by
  have hbs : (encoded ps force).map ComponentEncoding.bytes = write ps force := by
    rw [encoded, write, map_map]
    rfl
  have htotal : ((encoded ps force).map fun component => component.bytes.length).sum = totalLength ps force := by
    rw [totalLength, ← hbs, map_map]
    rfl
  have hopen : ((encoded ps force).zipIdx.map fun (component, ord) =>
      if force ord then none else component.hashableVariableLen) = ps.zipIdx.map fun (p, i) => p.open (force i) := by
    apply ext_getElem?
    intro i
    rw [getElem?_map, getElem?_zipIdx, Option.map_map, getElem?_encoded, getElem?_map, getElem?_zipIdx, Option.map_map, Option.map_map]
    cases ps[i]? with
    | none => rfl
    | some p =>
      simp only [Option.map_some, comp_apply, Nat.zero_add, Piece.open]
      split <;> rfl
  rw [finishPass, htotal, hbs, hopen]
  by_cases hfits : totalLength ps force ≤ maxCompoundTupleBytes
  · exact .inl ⟨hfits, if_pos hfits⟩
  · refine .inr ⟨hfits, ?_⟩
    intro ord w hbest
    rw [if_neg hfits, hbest]

section
variable (h : PiecesOf toVec ctx vs ps) (hlen : vs.length ≤ ctx.fields.length)
include h hlen

theorem PiecesOf.encodeLoop_eq {fuel : ℕ} {force : ℕ → Bool} {tuple : List UInt8} (hrun : shrink maxCompoundTupleBytes ps fuel force = some tuple) :
    encodeLoop toVec ctx vs fuel force = .ok tuple := by
  induction fuel generalizing force with
  | zero => cases hrun
  | succ fuel ih =>
    rw [shrink] at hrun
    rw [encodeLoop, h.encodeAll_eq hlen, ok_bind]
    rcases finishPass_encoded ps force with ⟨hfits, hpass⟩ | ⟨hlong, hpass⟩
    · rw [if_pos hfits] at hrun
      obtain rfl := Option.some.inj hrun
      rw [hpass, ok_bind]
      rfl
    · rw [if_neg hlong] at hrun
      cases hbest : heaviest (candidates (ps.zipIdx.map fun (p, i) => p.open (force i))) with
      | none =>
        rw [hbest] at hrun
        cases hrun
      | some best =>
        obtain ⟨ord, w⟩ := best
        rw [hbest] at hrun
        rw [hpass ord w hbest, ok_bind]
        exact ih hrun

theorem PiecesOf.sizes (hflds : ctx.fields.length ≤ maxSecondaryIndexFields) : Sizes maxCompoundTupleBytes 3 hashedLength 27 ps := by
  have hmbr : ∀ p ∈ ps, ∃ val, PieceOf val p := by
    intro p hp
    obtain ⟨i, hi, hget⟩ := getElem_of_mem hp
    have hval : i < vs.length := by
      rw [← h.length_eq]
      exact hi
    obtain ⟨q, hq, -, hpiece⟩ := h.piece i _ _ (List.getElem?_eq_getElem (hval.trans_le hlen))
      (List.getElem?_eq_getElem hval)
    rw [List.getElem?_eq_getElem hi, hget] at hq
    obtain rfl := Option.some.inj hq
    exact ⟨_, hpiece⟩
  refine ⟨?_, ?_, by decide, ?_⟩
  · intro p hp hwt
    obtain ⟨val, hpiece⟩ := hmbr p hp
    exact hpiece.small hwt
  · intro p hp w hwt
    obtain ⟨val, hpiece⟩ := hmbr p hp
    have hval := hpiece.weight
    rw [hwt] at hval
    refine ⟨?_, (hpiece.forms (by rw [hwt]; rfl)).1⟩
    rw [hpiece.plain, plainLength, ← hval]
  · have height : ps.length ≤ 8 := by
      rw [h.length_eq]
      exact hlen.trans hflds
    rw [maxCompoundTupleBytes]
    omega

/-- The encoder always succeeds, and writes short what overflows. -/
theorem PiecesOf.encode_eq (hpos : 1 ≤ ctx.fields.length) (hflds : ctx.fields.length ≤ maxSecondaryIndexFields) :
    encodeCompoundComponents toVec ctx vs = .ok (write ps (shortForms maxCompoundTupleBytes ps)).flatten := by
  have hrun := (h.sizes hlen hflds).shrink_eq.1
  rw [encodeCompoundComponents, if_pos ⟨hpos, hflds⟩, ← h.length_eq]
  exact h.encodeLoop_eq hlen hrun

end

/-- A text is hashed before another. -/
def longer (vs : List CompoundFieldValue) (i j : ℕ) : Bool :=
  match vs[i]?.bind hashableLength, vs[j]?.bind hashableLength with
  | some w, some v => decide (w < v ∨ w = v ∧ i < j)
  | _, _ => false

def lengthWithLongerHashed (vs : List CompoundFieldValue) (i : ℕ) : ℕ :=
  (vs.zipIdx.map fun (val, j) => if longer vs i j then hashedLength else plainLength val).sum

/-- The text is hashed because the tuple is too long. -/
def CrowdedOut (vs : List CompoundFieldValue) (i : ℕ) : Prop :=
  (vs[i]?.bind hashableLength).isSome = true ∧ maxCompoundTupleBytes < lengthWithLongerHashed vs i

section
variable (h : PiecesOf toVec ctx vs ps) (hlen : vs.length ≤ ctx.fields.length) (i : ℕ)
include h hlen

theorem PiecesOf.getElem? :
    vs[i]? = none ∧ ps[i]? = none ∨ ∃ val p, vs[i]? = some val ∧ ps[i]? = some p ∧ PieceOf val p := by
  cases hval : vs[i]? with
  | none =>
    refine .inl ⟨rfl, ?_⟩
    rw [List.getElem?_eq_none_iff] at hval ⊢
    rw [h.length_eq]
    exact hval
  | some val =>
    have hlt := (List.getElem?_eq_some_iff.mp hval).1
    obtain ⟨p, hp, -, hpiece⟩ := h.piece i _ val (List.getElem?_eq_getElem (hlt.trans_le hlen)) hval
    exact .inr ⟨val, p, rfl, hp, hpiece⟩

theorem PiecesOf.weightAt_eq : weightAt ps i = vs[i]?.bind hashableLength := by
  rw [weightAt]
  rcases h.getElem? hlen i with ⟨hval, hp⟩ | ⟨val, p, hval, hp, hpiece⟩
  · rw [hval, hp]
    rfl
  · rw [hval, hp]
    exact hpiece.weight

theorem PiecesOf.overflows_iff : Overflows maxCompoundTupleBytes ps i ↔ CrowdedOut vs i := by
  have hab : ∀ j, above ps i j = longer vs i j := by
    intro j
    rewrite [above, longer, h.weightAt_eq hlen, h.weightAt_eq hlen]
    rfl
  have htotal : totalLength ps (above ps i) = lengthWithLongerHashed vs i := by
    rw [totalLength, lengthWithLongerHashed]
    congr 1
    apply ext_getElem?
    intro j
    rw [getElem?_map, getElem?_write, Option.map_map, getElem?_map, getElem?_zipIdx, Option.map_map]
    rcases h.getElem? hlen j with ⟨hval, hp⟩ | ⟨val, p, hval, hp, hpiece⟩
    · rw [hval, hp]
      rfl
    · rw [hval, hp]
      simp only [Option.map_some, comp_apply, Nat.zero_add, hab, Piece.render]
      split
      · rename_i hlong
        rw [← hab] at hlong
        obtain ⟨-, v, -, hv, -⟩ := above_iff.mp hlong
        have hwt : p.weight.isSome = true := by
          rw [weightAt, hp] at hv
          have hsome : p.weight = some v := hv
          rw [hsome]
          rfl
        rw [(hpiece.forms hwt).1]
      · rw [hpiece.plain]
  rw [Overflows, CrowdedOut, h.weightAt_eq hlen, htotal]

end

section
variable (h : PiecesOf toVec ctx vs ps)
include h

theorem PiecesOf.prefix_iff (hlen : vs.length = ctx.fields.length)
    {k : ℕ} (hk : k ≤ ctx.fields.length) :
    (write (ps.take k) (shortForms maxCompoundTupleBytes (ps.take k))).flatten <+:
        (write ps (shortForms maxCompoundTupleBytes ps)).flatten ↔
      ∀ i < k, CrowdedOut vs i → CrowdedOut (vs.take k) i := by
  have hforms : ∀ p ∈ ps, p.weight.isSome = true → ∃ a b plain hashed, p.plain = a :: plain ∧ p.hashed = b :: hashed ∧ a ≠ b := by
    intro p hp hwt
    obtain ⟨i, hi⟩ := mem_iff_getElem?.mp hp
    rcases h.getElem? hlen.le i with ⟨-, hnone⟩ | ⟨val, q, -, hq, hpiece⟩
    · rw [hi] at hnone
      cases hnone
    · rw [hi] at hq
      obtain rfl := Option.some.inj hq
      exact (hpiece.forms hwt).2
  have hkp : k ≤ ps.length := by
    rw [h.length_eq, hlen]
    exact hk
  have htake : (vs.take k).length ≤ ctx.fields.length := by
    rw [length_take]
    omega
  apply (flatten_take_prefix_iff hkp hforms).trans
  apply forall_congr'
  intro i
  rw [h.overflows_iff hlen.le, (h.take k).overflows_iff htake]

section
variable (hpos : 1 ≤ ctx.fields.length) (hflds : ctx.fields.length ≤ maxSecondaryIndexFields)
include hpos hflds

theorem PiecesOf.encodeTuple_eq (hlen : vs.length = ctx.fields.length) :
    encodeCompoundTupleKey toVec ctx vs = .ok (write ps (shortForms maxCompoundTupleBytes ps)).flatten := by
  rw [encodeCompoundTupleKey, if_neg (not_not.mpr hlen)]
  exact h.encode_eq hlen.le hpos hflds

theorem PiecesOf.encodePrefix_eq (hlen : vs.length ≤ ctx.fields.length) :
    encodeCompoundTuplePrefix toVec ctx vs = .ok (write ps (shortForms maxCompoundTupleBytes ps)).flatten := by
  rw [encodeCompoundTuplePrefix, if_neg (not_lt.mpr hlen)]
  exact h.encode_eq hlen hpos hflds

end

end

end

/-- Both encoders succeed on matching values. The encoded beginning of a tuple is a beginning of the
tuple's key exactly if every text of it that is hashed in the key for its length is hashed in the
beginning as well. -/
theorem beginning_of_key_iff (toVec : PropValue → List UInt8) (ctx : CompoundTupleContext)
    (vs : List CompoundFieldValue) (hpos : 1 ≤ ctx.fields.length)
    (hfields : ctx.fields.length ≤ maxSecondaryIndexFields) (hmatches : Matches ctx vs) (k : ℕ)
    (hk : k ≤ ctx.fields.length) : ∃ key beginning, encodeCompoundTupleKey toVec ctx vs = .ok key ∧
      encodeCompoundTuplePrefix toVec ctx (vs.take k) = .ok beginning ∧
      (beginning <+: key ↔ ∀ i < k, CrowdedOut vs i → CrowdedOut (vs.take k) i) := by
  obtain ⟨ps, hps⟩ := @Matches.exists_pieces toVec _ _ hmatches
  have hlen := hmatches.length_eq
  have htakelength : (vs.take k).length ≤ ctx.fields.length := by
    rw [length_take]
    omega
  exact ⟨_, _, hps.encodeTuple_eq hpos hfields hlen, (hps.take k).encodePrefix_eq hpos hfields htakelength,
    hps.prefix_iff hlen hk⟩

def nodeFieldManifest : NodeIndexField → SecondaryIndexFieldManifest
  | .property key => .property key
  | .metadata field => .nodeMetadata field

def edgeFieldManifest : EdgeIndexField → SecondaryIndexFieldManifest
  | .property key => .property key
  | .metadata field => .edgeMetadata field

def widened (toF64 : F32 → F64) : SecondaryEntries.CompoundFieldValue → CompoundFieldValue
  | .property val => .property val
  | .metadataU64 val => .metadataU64 val
  | .metadataString val => .metadataString val
  | .metadataF32 val => .metadataF64 (toF64 val)
  | .metadataI64 val => .metadataI64 val

section
variable (toVec : PropValue → List UInt8) (toF64 : F32 → F64) (labelId : ℕ)

/-- The memtable expects these to succeed. -/
def encodeNodeCompoundTupleKey (fields : List NodeIndexField) (node : NodeRecord) : Except String (List UInt8) :=
  encodeCompoundTupleKey toVec ⟨.node, labelId, fields.map nodeFieldManifest⟩
    (fields.map fun field => widened toF64 (nodeCompoundFieldValue node field))

def encodeEdgeCompoundTupleKey (fields : List EdgeIndexField) (edge : EdgeRecord) : Except String (List UInt8) :=
  encodeCompoundTupleKey toVec ⟨.edge, labelId, fields.map edgeFieldManifest⟩
    (fields.map fun field => widened toF64 (edgeCompoundFieldValue edge field))

end

theorem matches_of_fields {φ : Type} (kind : TargetKind) (labelId : ℕ) (fields : List φ) {man : φ → SecondaryIndexFieldManifest}
    {valueOf : φ → CompoundFieldValue} (h : ∀ field i, validateValueMatchesField (man field) (valueOf field) i = .ok ()) :
    Matches ⟨kind, labelId, fields.map man⟩ (fields.map valueOf) := by
  refine ⟨by rw [length_map, length_map], ?_⟩
  intro i field val hfld hval
  rw [getElem?_map] at hfld hval
  obtain ⟨given, hgiven, rfl⟩ := Option.map_eq_some_iff.mp hfld
  rw [hgiven] at hval
  rw [← Option.some.inj hval]
  exact h given i

/-- Tuples with a value for every field have keys within the limit, and so have all records under a
declaration for them. -/
theorem keys_always_encoded (toVec : PropValue → List UInt8) :
    (∀ ctx vs, 1 ≤ ctx.fields.length → ctx.fields.length ≤ maxSecondaryIndexFields → Matches ctx vs →
      ∃ key, encodeCompoundTupleKey toVec ctx vs = .ok key ∧ key.length ≤ maxCompoundTupleBytes) ∧
    (∀ (toF64 : F32 → F64) labelId (fields : List NodeIndexField), 1 ≤ fields.length → fields.length ≤ maxSecondaryIndexFields →
      ∀ node, ∃ key, encodeNodeCompoundTupleKey toVec toF64 labelId fields node = .ok key ∧ key.length ≤ maxCompoundTupleBytes) ∧
    ∀ (toF64 : F32 → F64) labelId (fields : List EdgeIndexField), 1 ≤ fields.length → fields.length ≤ maxSecondaryIndexFields →
      ∀ edge, ∃ key, encodeEdgeCompoundTupleKey toVec toF64 labelId fields edge = .ok key ∧ key.length ≤ maxCompoundTupleBytes := by
  have hencoded : ∀ ctx vs, 1 ≤ ctx.fields.length → ctx.fields.length ≤ maxSecondaryIndexFields →
      Matches ctx vs →
        ∃ key, encodeCompoundTupleKey toVec ctx vs = .ok key ∧ key.length ≤ maxCompoundTupleBytes := by
    intro ctx vs hpos hfields hmatches
    obtain ⟨ps, hps⟩ := @Matches.exists_pieces toVec _ _ hmatches
    refine ⟨_, hps.encodeTuple_eq hpos hfields hmatches.length_eq, ?_⟩
    rw [length_flatten]
    exact (hps.sizes hmatches.length_eq.le hfields).shrink_eq.2
  refine ⟨hencoded, ?_, ?_⟩
  · intro toF64 labelId fields hpos hfields node
    rw [← length_map nodeFieldManifest] at hpos hfields
    refine hencoded _ _ hpos hfields (matches_of_fields .node labelId fields fun field i => ?_)
    cases field with
    | property key => rfl
    | metadata field => cases field <;> rfl
  · intro toF64 labelId fields hpos hfields edge
    rw [← length_map edgeFieldManifest] at hpos hfields
    refine hencoded _ _ hpos hfields (matches_of_fields .edge labelId fields fun field i => ?_)
    cases field with
    | property key => rfl
    | metadata field => cases field <;> rfl

def fiveFields : CompoundTupleContext := ⟨.node, 7, [.property "a", .property "b", .property "c", .property "d", .property "e"]⟩

/-- The serialized form of a value that is a run of some hundred zero bytes. -/
def blobForm : PropValue → List UInt8
  | .bytes bytes => [0x81, 0xa5, 0x42, 0x79, 0x74, 0x65, 0x73, 0xdc] ++ (beBytes 2 bytes.length ++ bytes)
  | _ => []

/-- One long value before four that are a little shorter. -/
def fiveBlobs : List CompoundFieldValue :=
  [.property (some (.bytes (List.replicate 1024 0))), .property (some (.bytes (List.replicate 1000 0))),
    .property (some (.bytes (List.replicate 1000 0))), .property (some (.bytes (List.replicate 1000 0))),
    .property (some (.bytes (List.replicate 1000 0)))]

theorem fiveBlobs_match : Matches fiveFields fiveBlobs := by
  refine ⟨rfl, ?_⟩
  intro i field val hfld hval
  obtain ⟨hi, hget⟩ := List.getElem?_eq_some_iff.mp hval
  obtain ⟨hi', hget'⟩ := List.getElem?_eq_some_iff.mp hfld
  have hsm : i < 5 := hi
  interval_cases i <;> (cases hget; cases hget'; rfl)

theorem hashableLength_blob {n : ℕ} (hn : n ≤ maxCompoundComponentBytes) :
    hashableLength (.property (some (.bytes (replicate n 0)))) = some n := by
  rw [hashableLength, length_replicate, if_pos hn]

theorem plainLength_blob {n : ℕ} (hn : n ≤ maxCompoundComponentBytes) :
    plainLength (.property (some (.bytes (replicate n 0)))) = 3 + n := by
  rw [plainLength, hashableLength_blob hn]

/-- The key hashes the first component of the long tuple, its prefix alone does not. -/
theorem long_tuple_loses_prefix : ¬∀ (toVec : PropValue → List UInt8) (ctx : CompoundTupleContext)
    (vs : List CompoundFieldValue) (k : ℕ) (key beginning : List UInt8), 1 ≤ ctx.fields.length →
    ctx.fields.length ≤ maxSecondaryIndexFields → Matches ctx vs → k ≤ ctx.fields.length →
    encodeCompoundTupleKey toVec ctx vs = .ok key →
    encodeCompoundTuplePrefix toVec ctx (vs.take k) = .ok beginning → beginning <+: key := by
  intro hall
  obtain ⟨ps, hps⟩ := @Matches.exists_pieces blobForm _ _ fiveBlobs_match
  have hbeginning := hall blobForm fiveFields fiveBlobs 1 _ _ (by decide) (by decide) fiveBlobs_match (by decide)
    (hps.encodeTuple_eq (by decide) (by decide) rfl) ((hps.take 1).encodePrefix_eq (by decide) (by decide) (by decide))
  have hcrowded := (hps.prefix_iff rfl (by decide : 1 ≤ 5)).mp hbeginning 0 Nat.one_pos
  have hlong : hashableLength (.property (some (.bytes (List.replicate 1024 0)))) = some 1024 := hashableLength_blob le_rfl
  have hshort : hashableLength (.property (some (.bytes (List.replicate 1000 0)))) = some 1000 :=
    hashableLength_blob (by decide)
  have hlonglength : plainLength (.property (some (.bytes (List.replicate 1024 0)))) = 1027 := plainLength_blob le_rfl
  have hshortlength : plainLength (.property (some (.bytes (List.replicate 1000 0)))) = 1003 := plainLength_blob (by decide)
  have hout : CrowdedOut fiveBlobs 0 := by
    simp [-List.reduceReplicate, CrowdedOut, lengthWithLongerHashed, fiveBlobs, longer, hlong, hshort, hlonglength, hshortlength,
      maxCompoundTupleBytes]
  have hin : ¬CrowdedOut (fiveBlobs.take 1) 0 := by
    simp [-List.reduceReplicate, CrowdedOut, lengthWithLongerHashed, fiveBlobs, longer, hlong, hlonglength, maxCompoundTupleBytes]
  exact hin (hcrowded hout)

theorem beginning_of_key_iff_blobs : ∃ key beginning, encodeCompoundTupleKey blobForm fiveFields fiveBlobs = .ok key ∧
      encodeCompoundTuplePrefix blobForm fiveFields (fiveBlobs.take 1) = .ok beginning ∧
      (beginning <+: key ↔ ∀ i < 1, CrowdedOut fiveBlobs i → CrowdedOut (fiveBlobs.take 1) i) :=
  beginning_of_key_iff blobForm fiveFields fiveBlobs (by decide) (by decide) fiveBlobs_match 1 (by decide)

theorem keys_always_encoded_blobs :
    ∃ key, encodeCompoundTupleKey blobForm fiveFields fiveBlobs = .ok key ∧ key.length ≤ maxCompoundTupleBytes :=
  (keys_always_encoded blobForm).1 fiveFields fiveBlobs (by decide) (by decide) fiveBlobs_match

end OverGraph.CompoundKeys
