import OverGraph.ByteReaders
import OverGraph.Records

/-!
# The encoding of logged operations

Every field is written little-endian behind the tag of the operation. Property maps are encoded
by a serializer that is taken as given.
-/

namespace OverGraph.WalCodec
open Records ByteReaders Fallible List Option Except

inductive EngineError where
  | corruptRecord (message : String)
  | corruptWal (message : String)
  | serializationError (message : String)
  | invalidOperation (message : String)
  deriving DecidableEq

def EngineError.display : EngineError → String
  | .corruptRecord msg => "corrupt record: " ++ msg
  | .corruptWal msg => "corrupt WAL: " ++ msg
  | .serializationError msg => "serialization error: " ++ msg
  | .invalidOperation msg => "invalid operation: " ++ msg

/-- The serializer of property maps reads back what it wrote. -/
structure PropsSerializer where
  toVec : Props → Except String (List UInt8)
  fromSlice : List UInt8 → Except String Props
  roundTrip : ∀ {props bytes}, toVec props = .ok bytes → fromSlice bytes = .ok props

abbrev ByteReader := Reader EngineError

def maxBytesLen : ℕ := 64 * 1024 * 1024

def u16Max : ℕ := 65535

def writeU8 (n : ℕ) : List UInt8 := leBytes 1 n
def writeU16 (n : ℕ) : List UInt8 := leBytes 2 n
def writeU32 (n : ℕ) : List UInt8 := leBytes 4 n
def writeU64 (n : ℕ) : List UInt8 := leBytes 8 n
def writeI64 (i : ℤ) : List UInt8 := leBytes 8 (signedBits i)
def writeF32 (bits : F32) : List UInt8 := leBytes 4 bits.toNat

def writeSparseVectorEntry (entry : ℕ × F32) : List UInt8 := writeU32 entry.1 ++ writeF32 entry.2

def writeBytes (data : List UInt8) : Except EngineError (List UInt8) :=
  if maxBytesLen < data.length then
    .error (.serializationError ("bytes payload too large: " ++ toString data.length ++ " bytes (max " ++ toString maxBytesLen ++ ")"))
  else .ok (writeU32 data.length ++ data)

/-- The bytes of a string. -/
def utf8 (s : String) : List UInt8 := s.toByteArray.data.toList

theorem utf8_inj {a b : String} (h : utf8 a = utf8 b) : a = b := by
  rw [utf8, utf8] at h
  apply String.toByteArray_inj.mp
  exact ByteArray.ext (Array.ext' h)

def writeStr (s : String) : Except EngineError (List UInt8) :=
  if u16Max < (utf8 s).length then
    .error (.serializationError ("string too long: " ++ toString (utf8 s).length ++ " bytes (max " ++ toString u16Max ++ ")"))
  else .ok (writeU16 (utf8 s).length ++ utf8 s)

def eof (what : String) : EngineError := .corruptRecord ("unexpected EOF reading " ++ what)

def readU8 : ByteReader ℕ := readUnsigned 1 (eof "u8")
def readU16 : ByteReader ℕ := readUnsigned 2 (eof "u16")
def readU32 : ByteReader ℕ := readUnsigned 4 (eof "u32")
def readU64 : ByteReader ℕ := readUnsigned 8 (eof "u64")
def readI64 : ByteReader ℤ := ofSignedBits <$> readUnsigned 8 (eof "i64")
def readF32 : ByteReader F32 := BitVec.ofNat 32 <$> readUnsigned 4 (eof "f32")

def readBytes : ByteReader (List UInt8) := do
  let len ← readU32
  if maxBytesLen < len then
    throw (.corruptRecord ("bytes payload too large: " ++ toString len ++ " (max " ++ toString maxBytesLen ++ ")"))
  else readExact len (eof "bytes")

def fromUtf8 (bytes : List UInt8) : ByteReader String :=
  match String.fromUTF8? ⟨bytes.toArray⟩ with
  | some s => pure s
  | none => throw (.corruptRecord "invalid UTF-8 in string")

def readStr : ByteReader String := do
  let len ← readU16
  let bytes ← readExact len (eof "string")
  fromUtf8 bytes

def readSparseVectorEntry : ByteReader (ℕ × F32) := do
  let dimensionId ← readU32
  let weight ← readF32
  pure (dimensionId, weight)

/-- The identifiers of a set, each above the one before. -/
def readAscending : ℕ → Option ℕ → ByteReader (List ℕ)
  | 0, _ => pure []
  | n + 1, last => do
    let labelId ← readU32
    if last.any (decide <| labelId ≤ ·) then
      throw (.corruptRecord "node WAL label IDs must be sorted ascending and unique")
    else
      let rest ← readAscending n (some labelId)
      pure (labelId :: rest)

def fromCanonicalIds (labelIds : List ℕ) : Except EngineError NodeLabelSet :=
  if hne : labelIds = [] then .error (.invalidOperation "node label set must contain at least one label")
  else if hlen : maxNodeLabelsPerNode < labelIds.length then
    .error (.invalidOperation ("node label set must contain at most " ++ toString maxNodeLabelsPerNode ++ " labels"))
  else if hzero : 0 ∈ labelIds then .error (.invalidOperation "node label token ID 0 is reserved")
  else if hasc : labelIds.Pairwise (· < ·) then .ok ⟨labelIds, hasc, hne, hzero, Nat.not_lt.mp hlen⟩
  else .error (.invalidOperation "node label IDs must be sorted ascending and unique")

def readNodeLabelSet : ByteReader NodeLabelSet := do
  let count ← readU8
  if count = 0 then throw (.corruptRecord "node WAL label_count must be at least 1")
  else if maxNodeLabelsPerNode < count then
    throw (.corruptRecord ("node WAL label_count " ++ toString count ++ " exceeds maximum " ++ toString maxNodeLabelsPerNode))
  else
    let ids ← readAscending count none
    match fromCanonicalIds ids with
    | .ok labels => pure labels
    | .error err => throw (.corruptRecord ("invalid node WAL label set: " ++ err.display))

inductive OpTag where
  | upsertNode
  | upsertEdge
  | deleteNode
  | deleteEdge
  | ensureNodeLabel
  | ensureEdgeLabel
  | beginAtomicBatch
  | commitAtomicBatch
  deriving DecidableEq

def OpTag.toU8 : OpTag → ℕ
  | .upsertNode => 1
  | .upsertEdge => 2
  | .deleteNode => 3
  | .deleteEdge => 4
  | .ensureNodeLabel => 5
  | .ensureEdgeLabel => 6
  | .beginAtomicBatch => 7
  | .commitAtomicBatch => 8

def OpTag.fromU8 : ℕ → Option OpTag
  | 1 => some .upsertNode
  | 2 => some .upsertEdge
  | 3 => some .deleteNode
  | 4 => some .deleteEdge
  | 5 => some .ensureNodeLabel
  | 6 => some .ensureEdgeLabel
  | 7 => some .beginAtomicBatch
  | 8 => some .commitAtomicBatch
  | _ => none

def writeTag (tag : OpTag) : List UInt8 := writeU8 tag.toU8

/-- The bits that say which vectors follow. -/
def vectorFlags (node : NodeRecord) : ℕ := (if node.denseVector.isSome then 1 else 0) + if node.sparseVector.isSome then 2 else 0

def writeDense (dense : DenseVector) : List UInt8 := writeU32 dense.length ++ dense.flatMap writeF32

def writeSparse (sparse : SparseVector) : List UInt8 := writeU32 sparse.length ++ sparse.flatMap writeSparseVectorEntry

section
variable (ser : PropsSerializer)

def writeProps (props : Props) : Except EngineError (List UInt8) :=
  match ser.toVec props with
  | .error msg => .error (.serializationError msg)
  | .ok bytes => writeBytes bytes

def encodeWalOp : WalOp → Except EngineError (List UInt8)
  | .upsertNode node => do
    let key ← writeStr node.key
    let props ← writeProps ser node.props
    .ok (writeTag .upsertNode ++ writeU64 node.id ++ writeU8 node.labelIds.labelIds.length ++
      node.labelIds.labelIds.flatMap writeU32 ++ key ++ writeI64 node.createdAt ++ writeI64 node.updatedAt ++
      writeF32 node.weight ++ props ++ writeU8 (vectorFlags node) ++ node.denseVector.elim [] writeDense ++
      node.sparseVector.elim [] writeSparse)
  | .upsertEdge edge => do
    let props ← writeProps ser edge.props
    .ok (writeTag .upsertEdge ++ writeU64 edge.id ++ writeU64 edge.source ++ writeU64 edge.target ++
      writeU32 edge.labelId ++ writeI64 edge.createdAt ++ writeI64 edge.updatedAt ++ writeF32 edge.weight ++ props ++
      writeI64 edge.validFrom ++ writeI64 edge.validTo)
  | .deleteNode id deletedAt => .ok (writeTag .deleteNode ++ writeU64 id ++ writeI64 deletedAt)
  | .deleteEdge id deletedAt => .ok (writeTag .deleteEdge ++ writeU64 id ++ writeI64 deletedAt)
  | .ensureNodeLabel label labelId => do
    let name ← writeStr label
    .ok (writeTag .ensureNodeLabel ++ name ++ writeU32 labelId)
  | .ensureEdgeLabel label labelId => do
    let name ← writeStr label
    .ok (writeTag .ensureEdgeLabel ++ name ++ writeU32 labelId)
  | .beginAtomicBatch firstSeq opCount => .ok (writeTag .beginAtomicBatch ++ writeU64 firstSeq ++ writeU32 opCount)
  | .commitAtomicBatch firstSeq opCount => .ok (writeTag .commitAtomicBatch ++ writeU64 firstSeq ++ writeU32 opCount)

def rejectTrailingBytes (ctx : String) : ByteReader Unit := do
  let left ← remainingBytes
  if left = 0 then pure () else throw (.corruptRecord ("unexpected trailing bytes in " ++ ctx))

def readProps : ByteReader Props := do
  let bytes ← readBytes
  match ser.fromSlice bytes with
  | .ok props => pure props
  | .error msg => throw (.serializationError msg)

def readDense : ByteReader DenseVector := do
  let len ← readU32
  readMany readF32 len

def readSparse : ByteReader SparseVector := do
  let len ← readU32
  readMany readSparseVectorEntry len

def binary8 (n : ℕ) : String :=
  let digits := Nat.toDigits 2 n
  String.ofList (List.replicate (8 - digits.length) '0' ++ digits)

def readOptional {α : Type} (present : Bool) (p : ByteReader α) : ByteReader (Option α) := if present then some <$> p else pure none

def readFlaggedVectors : ByteReader (Option DenseVector × Option SparseVector) := do
  let flags ← readU8
  if 4 ≤ flags then throw (.corruptRecord ("invalid vector flags on node WAL op: 0b" ++ binary8 flags))
  else
    let dense ← readOptional (decide (flags % 2 = 1)) readDense
    let sparse ← readOptional (decide (2 ≤ flags)) readSparse
    rejectTrailingBytes "node WAL op"
    pure (dense, sparse)

/-- Records without the flags have no vectors. -/
def readVectors : ByteReader (Option DenseVector × Option SparseVector) := do
  let left ← remainingBytes
  if left = 0 then pure (none, none) else readFlaggedVectors

def readNode : ByteReader WalOp := do
  let id ← readU64
  let labelIds ← readNodeLabelSet
  let key ← readStr
  let createdAt ← readI64
  let updatedAt ← readI64
  let weight ← readF32
  let props ← readProps ser
  let vectors ← readVectors
  pure (.upsertNode ⟨id, labelIds, key, props, createdAt, updatedAt, weight, vectors.1, vectors.2, 0⟩)

def readEdge : ByteReader WalOp := do
  let id ← readU64
  let source ← readU64
  let target ← readU64
  let labelId ← readU32
  let createdAt ← readI64
  let updatedAt ← readI64
  let weight ← readF32
  let props ← readProps ser
  let validFrom ← readI64
  let validTo ← readI64
  rejectTrailingBytes "edge WAL op"
  pure (.upsertEdge ⟨id, source, target, labelId, props, createdAt, updatedAt, weight, validFrom, validTo, 0⟩)

def readDelete (op : ℕ → ℤ → WalOp) (ctx : String) : ByteReader WalOp := do
  let id ← readU64
  let deletedAt ← readI64
  rejectTrailingBytes ctx
  pure (op id deletedAt)

def readEnsureLabel (op : String → ℕ → WalOp) (ctx : String) : ByteReader WalOp := do
  let label ← readStr
  let labelId ← readU32
  rejectTrailingBytes ctx
  pure (op label labelId)

def readBatchMark (op : ℕ → ℕ → WalOp) (ctx : String) : ByteReader WalOp := do
  let firstSeq ← readU64
  let opCount ← readU32
  rejectTrailingBytes ctx
  pure (op firstSeq opCount)

def readTagged : OpTag → ByteReader WalOp
  | .upsertNode => readNode ser
  | .upsertEdge => readEdge ser
  | .deleteNode => readDelete .deleteNode "delete-node WAL op"
  | .deleteEdge => readDelete .deleteEdge "delete-edge WAL op"
  | .ensureNodeLabel => readEnsureLabel .ensureNodeLabel "ensure-node-label WAL op"
  | .ensureEdgeLabel => readEnsureLabel .ensureEdgeLabel "ensure-edge-label WAL op"
  | .beginAtomicBatch => readBatchMark .beginAtomicBatch "begin-atomic-batch WAL op"
  | .commitAtomicBatch => readBatchMark .commitAtomicBatch "commit-atomic-batch WAL op"

def readWalOp : ByteReader WalOp := do
  let opTag ← readU8
  match OpTag.fromU8 opTag with
  | some tag => readTagged ser tag
  | none => throw (.corruptRecord ("unknown op tag: " ++ toString opTag))

def decodeWalOp (data : List UInt8) : Except EngineError WalOp := (readWalOp ser).run data |>.map (·.1)

end

variable {n : ℕ}

theorem reads_u8 (h : n < 2 ^ 8) : Reads readU8 (writeU8 n) n := reads_readUnsigned h _
theorem reads_u16 (h : n < 2 ^ 16) : Reads readU16 (writeU16 n) n := reads_readUnsigned h _
theorem reads_u32 (h : n < 2 ^ 32) : Reads readU32 (writeU32 n) n := reads_readUnsigned h _
theorem reads_u64 (h : n < 2 ^ 64) : Reads readU64 (writeU64 n) n := reads_readUnsigned h _

/-- A number of the range of an `i64`. -/
def I64 (i : ℤ) : Prop := -2 ^ 63 ≤ i ∧ i < 2 ^ 63

theorem reads_u32_mod (n : ℕ) : Reads readU32 (writeU32 n) (n % 2 ^ 32) := reads_readUnsigned_mod 4 n _

theorem reads_i64 {i : ℤ} (h : I64 i) : Reads readI64 (writeI64 i) i := by
  have hread := (reads_readUnsigned (signedBits_lt i) (eof "i64")).map ofSignedBits
  rwa [ofSignedBits_signedBits h.1 h.2] at hread

theorem reads_f32 (bits : F32) : Reads readF32 (writeF32 bits) bits := by
  have hread := (@reads_readUnsigned _ 4 _ bits.isLt (eof "f32")).map (BitVec.ofNat 32)
  rwa [BitVec.ofNat_toNat, BitVec.setWidth_eq] at hread

theorem reads_sparseVectorEntry {entry : ℕ × F32} (h : entry.1 < 2 ^ 32) :
    Reads readSparseVectorEntry (writeSparseVectorEntry entry) entry := by
  have hpure : Reads (pure (entry.1, entry.2) : ByteReader (ℕ × F32)) [] entry := Reads.pure _
  have hall := (reads_u32 h).bind (k := fun dimensionId => do
    let weight ← readF32
    pure (dimensionId, weight)) ((reads_f32 entry.2).bind (k := fun weight => pure (entry.1, weight)) hpure)
  rwa [append_nil] at hall

theorem reads_bytes {data bytes : List UInt8} (h : writeBytes data = .ok bytes) : Reads readBytes bytes data := by
  rw [writeBytes] at h
  split at h
  · cases h
  · rename_i hfits
    obtain rfl := ok.inj h
    have hbd : data.length < 2 ^ 32 := by
      rw [maxBytesLen] at hfits
      omega
    refine (reads_u32 hbd).bind ?_
    rw [if_neg hfits]
    exact reads_readExact data _

theorem fromUtf8_utf8 (s : String) : fromUtf8 (utf8 s) = pure s := by
  have hbs : (⟨(utf8 s).toArray⟩ : ByteArray) = s.toByteArray := by rw [utf8, Array.toArray_toList]
  have hstring : String.fromUTF8? s.toByteArray = some s := dif_pos s.isValidUTF8
  rw [fromUtf8, hbs, hstring]

variable {bytes : List UInt8}

theorem reads_str {s : String} (h : writeStr s = .ok bytes) : Reads readStr bytes s := by
  rw [writeStr] at h
  split at h
  · cases h
  · rename_i hfits
    obtain rfl := ok.inj h
    have hbd : (utf8 s).length < 2 ^ 16 := by
      rw [u16Max] at hfits
      omega
    have hpure : Reads (fromUtf8 (utf8 s)) [] s := by
      rw [fromUtf8_utf8]
      exact Reads.pure s
    have hbody := (reads_readExact (utf8 s) (eof "string")).bind hpure
    rw [append_nil] at hbody
    exact (reads_u16 hbd).bind hbody

theorem reads_ascending {labelIds : List ℕ} (hasc : labelIds.Pairwise (· < ·)) (hbd : ∀ labelId ∈ labelIds, labelId < 2 ^ 32)
    {last : Option ℕ} (hlast : ∀ labelId ∈ labelIds, ∀ seen ∈ last, seen < labelId) :
    Reads (readAscending labelIds.length last) (labelIds.flatMap writeU32) labelIds := by
  induction labelIds generalizing last with
  | nil => exact Reads.pure []
  | cons labelId labelIds ih =>
    have habov : ∀ other ∈ labelIds, ∀ seen ∈ some labelId, seen < other := by
      intro other hoth seen hseen
      rw [← some.inj hseen]
      exact rel_of_pairwise_cons hasc hoth
    have hrest := ih hasc.of_cons (fun other hoth => hbd other (mem_cons_of_mem _ hoth)) habov
    have hab : ¬last.any (decide <| labelId ≤ ·) = true := by
      intro hany
      obtain ⟨seen, hseen, hle⟩ := (any_eq_true _ _).mp hany
      have hlt := hlast labelId mem_cons_self seen hseen
      have hle := of_decide_eq_true hle
      omega
    have hpure : Reads (pure (labelId :: labelIds) : ByteReader (List ℕ)) [] (labelId :: labelIds) := Reads.pure _
    have hbody := hrest.bind (k := fun rest => pure (labelId :: rest)) hpure
    rw [append_nil] at hbody
    refine (reads_u32 (hbd labelId mem_cons_self)).bind ?_
    rw [if_neg hab]
    exact hbody

theorem fromCanonicalIds_labelIds (labels : NodeLabelSet) : fromCanonicalIds labels.labelIds = .ok labels := by
  rw [fromCanonicalIds, dif_neg labels.nonempty, dif_neg (Nat.not_lt.mpr labels.bounded), dif_neg labels.reserved, dif_pos labels.ascending]

theorem reads_nodeLabelSet {labels : NodeLabelSet} (hbd : ∀ labelId ∈ labels.labelIds, labelId < 2 ^ 32) :
    Reads readNodeLabelSet (writeU8 labels.labelIds.length ++ labels.labelIds.flatMap writeU32) labels := by
  have hcnt : labels.labelIds.length < 2 ^ 8 := by
    have hle := labels.bounded
    rw [maxNodeLabelsPerNode] at hle
    omega
  have hpos : ¬labels.labelIds.length = 0 := fun hzero => labels.nonempty (length_eq_zero_iff.mp hzero)
  have hids : Reads (readAscending labels.labelIds.length none) (labels.labelIds.flatMap writeU32) labels.labelIds :=
    reads_ascending labels.ascending hbd fun labelId _ seen hseen => by cases hseen
  have hset : Reads (match fromCanonicalIds labels.labelIds with
      | .ok labels => pure labels
      | .error err => throw (.corruptRecord ("invalid node WAL label set: " ++ err.display)) : ByteReader NodeLabelSet)
      [] labels := by
    rw [fromCanonicalIds_labelIds]
    exact Reads.pure labels
  have hbody := hids.bind (k := fun ids => match fromCanonicalIds ids with
      | .ok labels => pure labels
      | .error err => throw (.corruptRecord ("invalid node WAL label set: " ++ err.display))) hset
  rw [append_nil] at hbody
  refine (reads_u8 hcnt).bind ?_
  rw [if_neg hpos, if_neg (Nat.not_lt.mpr labels.bounded)]
  exact hbody

variable {ser : PropsSerializer}

theorem reads_props {props : Props}
    (h : writeProps ser props = .ok bytes) : Reads (readProps ser) bytes props := by
  rw [writeProps] at h
  split at h
  · cases h
  · rename_i data hdata
    have hpure : Reads (match ser.fromSlice data with
        | .ok props => pure props
        | .error msg => throw (.serializationError msg) : ByteReader Props) [] props := by
      rw [ser.roundTrip hdata]
      exact Reads.pure props
    have hall := (reads_bytes h).bind (k := fun data => match ser.fromSlice data with
        | .ok props => pure props
        | .error msg => throw (.serializationError msg)) hpure
    rwa [append_nil] at hall

theorem reads_dense {dense : DenseVector} (h : dense.length < 2 ^ 32) : Reads readDense (writeDense dense) dense :=
  (reads_u32 h).bind (reads_readMany fun bits _ => reads_f32 bits)

theorem reads_sparse {sparse : SparseVector} (h : sparse.length < 2 ^ 32) (hdims : ∀ entry ∈ sparse, entry.1 < 2 ^ 32) :
    Reads readSparse (writeSparse sparse) sparse :=
  (reads_u32 h).bind (reads_readMany fun entry hent => reads_sparseVectorEntry (hdims entry hent))

variable {α : Type} {encode : α → List UInt8} {p : ByteReader α}

theorem reads_optional {value : Option α}
    (h : ∀ a ∈ value, Reads p (encode a) a) : Reads (readOptional value.isSome p) (value.elim [] encode) value := by
  cases value with
  | none => exact Reads.pure none
  | some a => exact (h a rfl).map some

structure VectorsFit (node : NodeRecord) : Prop where
  dense : ∀ dense ∈ node.denseVector, dense.length < 2 ^ 32
  sparse : ∀ sparse ∈ node.sparseVector, sparse.length < 2 ^ 32
  dimensions : ∀ sparse ∈ node.sparseVector, ∀ entry ∈ sparse, entry.1 < 2 ^ 32

theorem run_readVectors (bytes : List UInt8) : readVectors.run bytes =
    (if bytes.length = 0 then pure (none, none) else readFlaggedVectors).run bytes := rfl

theorem length_of_reads {value : Option (List α)} {input left : List UInt8} {found : Option (List α)}
    (h : (readOptional value.isSome (do
      let len ← readU32
      readMany p len)).run (value.elim [] (fun vs => writeU32 vs.length ++ vs.flatMap encode) ++ input) =
        .ok (found, left)) (hsame : found = value) : ∀ vs ∈ value, vs.length < 2 ^ 32 := by
  subst hsame
  rintro vs rfl
  rw [Option.isSome_some, readOptional, if_pos rfl, StateT.run_map] at h
  obtain ⟨res, hrun, hres⟩ := map_ok h
  obtain ⟨hvals, -⟩ := Prod.mk.inj hres
  rw [elim_some, append_assoc, StateT.run_bind, reads_u32_mod] at hrun
  have hlen := yields_readMany p _ _ _ _ hrun
  rw [← some.inj hvals] at hlen
  rw [hlen]
  exact Nat.mod_lt _ (Nat.two_pow_pos 32)

variable {node : NodeRecord}

/-- The vectors are read back exactly if their lengths were not cut. -/
theorem reads_vectors_iff (hdims : ∀ sparse ∈ node.sparseVector, ∀ entry ∈ sparse, entry.1 < 2 ^ 32) :
    ReadsLast readVectors (writeU8 (vectorFlags node) ++ node.denseVector.elim [] writeDense ++
      node.sparseVector.elim [] writeSparse) (node.denseVector, node.sparseVector) ↔ VectorsFit node := by
  have hflags : vectorFlags node < 4 := by
    rw [vectorFlags]
    split <;> split <;> omega
  have hdense : decide (vectorFlags node % 2 = 1) = node.denseVector.isSome := by
    rw [vectorFlags]
    cases node.denseVector.isSome <;> cases node.sparseVector.isSome <;> rfl
  have hsparse : decide (2 ≤ vectorFlags node) = node.sparseVector.isSome := by
    rw [vectorFlags]
    cases node.denseVector.isSome <;> cases node.sparseVector.isSome <;> rfl
  -- the flags are there, so the record is of the new form
  have hpres : (writeU8 (vectorFlags node) ++ (node.denseVector.elim [] writeDense ++
      (node.sparseVector.elim [] writeSparse ++ []))).length ≠ 0 := by
    rw [length_append, writeU8, length_leBytes]
    omega
  rw [append_assoc, ← append_nil (node.sparseVector.elim [] writeSparse), ReadsLast, run_readVectors, if_neg hpres]
  refine (reads_u8 (by omega)).bindLast_iff.trans ?_
  rw [if_neg (by omega), hdense, hsparse]
  have hreadDense : (∀ dense ∈ node.denseVector, dense.length < 2 ^ 32) →
      Reads (readOptional node.denseVector.isSome readDense) (node.denseVector.elim [] writeDense) node.denseVector :=
    fun hfits => reads_optional fun dense hmem => reads_dense (hfits dense hmem)
  constructor
  · intro hread
    have hrun : (readOptional node.denseVector.isSome readDense >>= _).run _ = _ := hread
    rw [StateT.run_bind] at hrun
    obtain ⟨⟨dense, left⟩, hfnd, hrest⟩ := bind_ok hrun
    have hfst : Yields (do
        let sparse ← readOptional node.sparseVector.isSome readSparse
        rejectTrailingBytes "node WAL op"
        pure (dense, sparse) : ByteReader _) fun vectors => vectors.1 = dense :=
      Yields.bind fun _ => Yields.bind fun _ => Yields.pure rfl
    have hdenseFits := length_of_reads hfnd (hfst _ _ _ hrest).symm
    have hrun := (hreadDense hdenseFits).bindLast_iff.mp hread
    rw [ReadsLast, StateT.run_bind] at hrun
    obtain ⟨⟨sparse, left⟩, hfnd, hrest⟩ := bind_ok hrun
    have hsnd : Yields (do
        rejectTrailingBytes "node WAL op"
        pure (node.denseVector, sparse) : ByteReader _) fun vectors => vectors.2 = sparse :=
      Yields.bind fun _ => Yields.pure rfl
    exact ⟨hdenseFits, length_of_reads hfnd (hsnd _ _ _ hrest).symm, hdims⟩
  · intro hfits
    refine (hreadDense hfits.dense).bindLast ?_
    refine (reads_optional fun sparse hmem => ?_).bindLast rfl
    exact reads_sparse (hfits.sparse sparse hmem) (hdims sparse hmem)

/-- Values of the machine types that hold them. -/
def InRange : WalOp → Prop
  | .upsertNode node => node.id < 2 ^ 64 ∧ (∀ labelId ∈ node.labelIds.labelIds, labelId < 2 ^ 32) ∧ I64 node.createdAt ∧
      I64 node.updatedAt ∧ ∀ sparse ∈ node.sparseVector, ∀ entry ∈ sparse, entry.1 < 2 ^ 32
  | .upsertEdge edge => edge.id < 2 ^ 64 ∧ edge.source < 2 ^ 64 ∧ edge.target < 2 ^ 64 ∧ edge.labelId < 2 ^ 32 ∧
      I64 edge.createdAt ∧ I64 edge.updatedAt ∧ I64 edge.validFrom ∧ I64 edge.validTo
  | .deleteNode id deletedAt | .deleteEdge id deletedAt => id < 2 ^ 64 ∧ I64 deletedAt
  | .ensureNodeLabel _ labelId | .ensureEdgeLabel _ labelId => labelId < 2 ^ 32
  | .beginAtomicBatch firstSeq opCount | .commitAtomicBatch firstSeq opCount => firstSeq < 2 ^ 64 ∧ opCount < 2 ^ 32

def vectorBytes : WalOp → ℕ
  | .upsertNode node => 4 * (node.denseVector.getD []).length + 8 * (node.sparseVector.getD []).length
  | _ => 0

/-- An operation as the log keeps it: the write sequence of a record is not part of it. -/
def asLogged : WalOp → WalOp
  | .upsertNode node => .upsertNode { node with lastWriteSeq := 0 }
  | .upsertEdge edge => .upsertEdge { edge with lastWriteSeq := 0 }
  | op => op

theorem vectorsFit_of_bytes (hrng : InRange (.upsertNode node))
    (hsize : vectorBytes (.upsertNode node) < 2 ^ 32) : VectorsFit node where
  dense dense hdense := by
    rw [vectorBytes, mem_def.mp hdense, getD_some] at hsize
    omega
  sparse sparse hsparse := by
    rw [vectorBytes, mem_def.mp hsparse, getD_some] at hsize
    omega
  dimensions := hrng.2.2.2.2

theorem reads_node_iff (hrng : InRange (.upsertNode node)) {key props vectors : List UInt8}
    (hkey : writeStr node.key = .ok key) (hps : writeProps ser node.props = .ok props) :
    ReadsLast (readNode ser) (writeU64 node.id ++ ((writeU8 node.labelIds.labelIds.length ++
      node.labelIds.labelIds.flatMap writeU32) ++ (key ++ (writeI64 node.createdAt ++ (writeI64 node.updatedAt ++
      (writeF32 node.weight ++ (props ++ vectors))))))) (asLogged (.upsertNode node)) ↔
    ReadsLast readVectors vectors (node.denseVector, node.sparseVector) := by
  obtain ⟨hid, hlabs, hcre, hupd, -⟩ := hrng
  refine (reads_u64 hid).bindLast_iff.trans ?_
  refine (reads_nodeLabelSet hlabs).bindLast_iff.trans ?_
  refine (reads_str hkey).bindLast_iff.trans ?_
  refine (reads_i64 hcre).bindLast_iff.trans ?_
  refine (reads_i64 hupd).bindLast_iff.trans ?_
  refine (reads_f32 node.weight).bindLast_iff.trans ?_
  refine (reads_props hps).bindLast_iff.trans ?_
  rw [ReadsLast, StateT.run_bind, ReadsLast]
  constructor
  · intro h
    obtain ⟨⟨found, left⟩, hfnd, h⟩ := bind_ok h
    obtain ⟨hop, rfl⟩ := Prod.mk.inj (ok.inj h)
    injection hop with hnode
    injection hnode with _ _ _ _ _ _ _ hdense hsparse
    rw [hfnd, ← hdense, ← hsparse]
  · intro h
    rw [h]
    rfl

theorem reads_edge {edge : EdgeRecord} (hrng : InRange (.upsertEdge edge))
    {props : List UInt8} (hps : writeProps ser edge.props = .ok props) :
    ReadsLast (readEdge ser) (writeU64 edge.id ++ (writeU64 edge.source ++ (writeU64 edge.target ++
      (writeU32 edge.labelId ++ (writeI64 edge.createdAt ++ (writeI64 edge.updatedAt ++ (writeF32 edge.weight ++
      (props ++ (writeI64 edge.validFrom ++ (writeI64 edge.validTo ++ [])))))))))) (asLogged (.upsertEdge edge)) := by
  obtain ⟨hid, hsrc, htgt, hlab, hcre, hupd, hfrom, hto⟩ := hrng
  refine (reads_u64 hid).bindLast ?_
  refine (reads_u64 hsrc).bindLast ?_
  refine (reads_u64 htgt).bindLast ?_
  refine (reads_u32 hlab).bindLast ?_
  refine (reads_i64 hcre).bindLast ?_
  refine (reads_i64 hupd).bindLast ?_
  refine (reads_f32 edge.weight).bindLast ?_
  refine (reads_props hps).bindLast ?_
  refine (reads_i64 hfrom).bindLast ?_
  exact (reads_i64 hto).bindLast rfl

theorem reads_delete (op : ℕ → ℤ → WalOp) {ctx : String} {id : ℕ} {deletedAt : ℤ} (hid : id < 2 ^ 64)
    (hdel : I64 deletedAt) :
    ReadsLast (readDelete op ctx) (writeU64 id ++ (writeI64 deletedAt ++ [])) (op id deletedAt) :=
  (reads_u64 hid).bindLast ((reads_i64 hdel).bindLast rfl)

theorem reads_ensureLabel (op : String → ℕ → WalOp) {ctx label : String} {labelId : ℕ} {name : List UInt8}
    (hname : writeStr label = .ok name) (hlab : labelId < 2 ^ 32) :
    ReadsLast (readEnsureLabel op ctx) (name ++ (writeU32 labelId ++ [])) (op label labelId) :=
  (reads_str hname).bindLast ((reads_u32 hlab).bindLast rfl)

theorem reads_batchMark (op : ℕ → ℕ → WalOp) {ctx : String} {firstSeq opCount : ℕ} (hfst : firstSeq < 2 ^ 64)
    (hcnt : opCount < 2 ^ 32) :
    ReadsLast (readBatchMark op ctx) (writeU64 firstSeq ++ (writeU32 opCount ++ [])) (op firstSeq opCount) :=
  (reads_u64 hfst).bindLast ((reads_u32 hcnt).bindLast rfl)

theorem fromU8_toU8 (tag : OpTag) : OpTag.fromU8 tag.toU8 = some tag := by cases tag <;> rfl

variable {op : WalOp}

theorem readsLast_tagged (ser : PropsSerializer) (tag : OpTag) {body : List UInt8} :
    ReadsLast (readWalOp ser) (writeTag tag ++ body) op ↔ ReadsLast (readTagged ser tag) body op := by
  have hbd : tag.toU8 < 2 ^ 8 := by cases tag <;> decide
  refine (reads_u8 hbd).bindLast_iff.trans ?_
  rw [fromU8_toU8]

section
variable {ser : PropsSerializer}

theorem decodeWalOp_of_reads (h : ReadsLast (readWalOp ser) bytes op) : decodeWalOp ser bytes = .ok op := by
  rw [decodeWalOp, h]
  rfl

/-- What is encoded is read back, as the log keeps it, exactly if the lengths of vectors were not cut. -/
theorem readsLast_encodeWalOp_iff (hrng : InRange op) (h : encodeWalOp ser op = .ok bytes) :
    ReadsLast (readWalOp ser) bytes (asLogged op) ↔ ∀ node, op = .upsertNode node → VectorsFit node := by
  have hoth : ReadsLast (readWalOp ser) bytes (asLogged op) → (∀ node, op ≠ .upsertNode node) →
      (ReadsLast (readWalOp ser) bytes (asLogged op) ↔ ∀ node, op = .upsertNode node → VectorsFit node) :=
    fun hread hno => iff_of_true hread fun node hnode => absurd hnode (hno node)
  cases op with
  | upsertNode node =>
    rw [encodeWalOp] at h
    obtain ⟨key, hkey, h⟩ := bind_ok h
    obtain ⟨props, hps, h⟩ := bind_ok h
    rw [← ok.inj h]
    have hread := (readsLast_tagged ser .upsertNode).trans
      ((reads_node_iff hrng hkey hps).trans (reads_vectors_iff hrng.2.2.2.2))
    simp only [append_assoc] at hread ⊢
    refine hread.trans ⟨?_, fun hfits => hfits node rfl⟩
    rintro hfits other hsame
    rw [← WalOp.upsertNode.inj hsame]
    exact hfits
  | upsertEdge edge =>
    rw [encodeWalOp] at h
    obtain ⟨props, hps, h⟩ := bind_ok h
    apply hoth _ fun _ hop => WalOp.noConfusion hop
    rw [← ok.inj h]
    have hread := (readsLast_tagged ser .upsertEdge).mpr (reads_edge hrng hps)
    simpa only [append_assoc, append_nil] using hread
  | deleteNode id deletedAt =>
    apply hoth _ fun _ hop => WalOp.noConfusion hop
    rw [← ok.inj h]
    have hread := (readsLast_tagged ser .deleteNode).mpr (reads_delete .deleteNode hrng.1 hrng.2)
    simpa only [append_assoc, append_nil, asLogged] using hread
  | deleteEdge id deletedAt =>
    apply hoth _ fun _ hop => WalOp.noConfusion hop
    rw [← ok.inj h]
    have hread := (readsLast_tagged ser .deleteEdge).mpr (reads_delete .deleteEdge hrng.1 hrng.2)
    simpa only [append_assoc, append_nil, asLogged] using hread
  | ensureNodeLabel label labelId =>
    rw [encodeWalOp] at h
    obtain ⟨name, hname, h⟩ := bind_ok h
    apply hoth _ fun _ hop => WalOp.noConfusion hop
    rw [← ok.inj h]
    have hread := (readsLast_tagged ser .ensureNodeLabel).mpr (reads_ensureLabel .ensureNodeLabel hname hrng)
    simpa only [append_assoc, append_nil, asLogged] using hread
  | ensureEdgeLabel label labelId =>
    rw [encodeWalOp] at h
    obtain ⟨name, hname, h⟩ := bind_ok h
    apply hoth _ fun _ hop => WalOp.noConfusion hop
    rw [← ok.inj h]
    have hread := (readsLast_tagged ser .ensureEdgeLabel).mpr (reads_ensureLabel .ensureEdgeLabel hname hrng)
    simpa only [append_assoc, append_nil, asLogged] using hread
  | beginAtomicBatch firstSeq opCount =>
    apply hoth _ fun _ hop => WalOp.noConfusion hop
    rw [← ok.inj h]
    have hread := (readsLast_tagged ser .beginAtomicBatch).mpr (reads_batchMark .beginAtomicBatch hrng.1 hrng.2)
    simpa only [append_assoc, append_nil, asLogged] using hread
  | commitAtomicBatch firstSeq opCount =>
    apply hoth _ fun _ hop => WalOp.noConfusion hop
    rw [← ok.inj h]
    have hread := (readsLast_tagged ser .commitAtomicBatch).mpr (reads_batchMark .commitAtomicBatch hrng.1 hrng.2)
    simpa only [append_assoc, append_nil, asLogged] using hread

theorem decodeWalOp_encodeWalOp (hrng : InRange op)
    (hsize : vectorBytes op < 2 ^ 32) (h : encodeWalOp ser op = .ok bytes) :
    decodeWalOp ser bytes = .ok (asLogged op) := by
  refine decodeWalOp_of_reads ((readsLast_encodeWalOp_iff hrng h).mpr ?_)
  rintro node rfl
  exact vectorsFit_of_bytes hrng hsize

end

theorem length_flatMap_const {α β : Type} {encode : α → List β} {size : ℕ} (h : ∀ a, (encode a).length = size)
    (vs : List α) : (vs.flatMap encode).length = size * vs.length := by
  induction vs with
  | nil => rfl
  | cons a vs ih =>
    rw [flatMap_cons, length_append, ih, h, length_cons, Nat.mul_succ]
    omega

@[simp] theorem length_writeU8 (n : ℕ) : (writeU8 n).length = 1 := length_leBytes 1 n
@[simp] theorem length_writeU16 (n : ℕ) : (writeU16 n).length = 2 := length_leBytes 2 n
@[simp] theorem length_writeU32 (n : ℕ) : (writeU32 n).length = 4 := length_leBytes 4 n
@[simp] theorem length_writeU64 (n : ℕ) : (writeU64 n).length = 8 := length_leBytes 8 n
@[simp] theorem length_writeI64 (i : ℤ) : (writeI64 i).length = 8 := length_leBytes 8 _
@[simp] theorem length_writeF32 (bits : F32) : (writeF32 bits).length = 4 := length_leBytes 4 _
@[simp] theorem length_writeTag (tag : OpTag) : (writeTag tag).length = 1 := length_leBytes 1 _

theorem length_writeStr {s : String} (h : writeStr s = .ok bytes) : bytes.length ≤ 2 + u16Max := by
  rw [writeStr] at h
  split at h
  · cases h
  · rename_i hfits
    rw [← ok.inj h, length_append, length_writeU16]
    omega

theorem length_writeProps {props : Props}
    (h : writeProps ser props = .ok bytes) : bytes.length ≤ 4 + maxBytesLen := by
  rw [writeProps] at h
  split at h
  · cases h
  · rw [writeBytes] at h
    split at h
    · cases h
    · rename_i hfits
      rw [← ok.inj h, length_append, length_writeU32]
      omega

theorem length_vectors (node : NodeRecord) : (node.denseVector.elim [] writeDense).length +
    (node.sparseVector.elim [] writeSparse).length ≤ 8 + vectorBytes (.upsertNode node) ∧
    vectorBytes (.upsertNode node) ≤ (node.denseVector.elim [] writeDense).length + (node.sparseVector.elim [] writeSparse).length := by
  have hdense : ∀ dense : DenseVector, (writeDense dense).length = 4 + 4 * dense.length := by
    intro dense
    rw [writeDense, length_append, length_flatMap_const length_writeF32, length_writeU32]
  have hsparse : ∀ sparse : SparseVector, (writeSparse sparse).length = 4 + 8 * sparse.length := by
    intro sparse
    have hent : ∀ entry, (writeSparseVectorEntry entry).length = 8 := by
      intro entry
      rw [writeSparseVectorEntry, length_append, length_writeU32, length_writeF32]
    rw [writeSparse, length_append, length_flatMap_const hent, length_writeU32]
  rw [vectorBytes]
  cases node.denseVector <;> cases node.sparseVector <;>
    simp only [elim_none, elim_some, getD_none, getD_some, length_nil, hdense, hsparse] <;>
    omega

/-- Besides its vectors an operation takes a bounded number of bytes. -/
theorem length_encodeWalOp (h : encodeWalOp ser op = .ok bytes) :
    bytes.length ≤ maxBytesLen + 2 * u16Max + vectorBytes op ∧ vectorBytes op ≤ bytes.length := by
  have hmax : maxBytesLen = 67108864 := rfl
  have hkeyMax : u16Max = 65535 := rfl
  cases op with
  | upsertNode node =>
    rw [encodeWalOp] at h
    obtain ⟨key, hkey, h⟩ := bind_ok h
    obtain ⟨props, hps, h⟩ := bind_ok h
    have hlabs : node.labelIds.labelIds.length ≤ 10 := node.labelIds.bounded
    have hvecs := length_vectors node
    have hkeyLen := length_writeStr hkey
    have hpropsLen := length_writeProps hps
    rw [← ok.inj h]
    simp only [length_append, length_writeTag, length_writeU8, length_writeU64, length_writeI64,
      length_writeF32, length_flatMap_const length_writeU32]
    omega
  | upsertEdge edge =>
    rw [encodeWalOp] at h
    obtain ⟨props, hps, h⟩ := bind_ok h
    have hpropsLen := length_writeProps hps
    have hvecs : vectorBytes (.upsertEdge edge) = 0 := rfl
    rw [← ok.inj h, hvecs]
    simp only [length_append, length_writeTag, length_writeU32, length_writeU64, length_writeI64, length_writeF32]
    omega
  | deleteNode id deletedAt | deleteEdge id deletedAt =>
    rw [← ok.inj h]
    simp only [length_append, length_writeTag, length_writeU64, length_writeI64, vectorBytes]
    omega
  | ensureNodeLabel label labelId | ensureEdgeLabel label labelId =>
    rw [encodeWalOp] at h
    obtain ⟨name, hname, h⟩ := bind_ok h
    have hnameLen := length_writeStr hname
    rw [← ok.inj h]
    simp only [length_append, length_writeTag, length_writeU32, vectorBytes]
    omega
  | beginAtomicBatch firstSeq opCount | commitAtomicBatch firstSeq opCount =>
    rw [← ok.inj h]
    simp only [length_append, length_writeTag, length_writeU32, length_writeU64, vectorBytes]
    omega

theorem spends_f32 : Spends readF32 fun _ => 4 := Spends.map (spends_readUnsigned 4 _)

theorem spends_sparseVectorEntry : Spends readSparseVectorEntry fun _ => 8 := by
  refine (spends_readUnsigned 4 _).bind fun dimensionId => ?_
  exact spends_f32.bind fun weight => Spends.pure rfl

theorem spends_dense : Spends readDense fun dense => 4 * dense.length :=
  (spends_readUnsigned 4 _).bind fun len => (spends_readMany spends_f32 len).weaken fun _ => Nat.sub_le _ _

theorem spends_sparse : Spends readSparse fun sparse => 8 * sparse.length :=
  (spends_readUnsigned 4 _).bind fun len => (spends_readMany spends_sparseVectorEntry len).weaken fun _ => Nat.sub_le _ _

theorem spends_optional {size : α → ℕ} (h : Spends p size) (present : Bool) :
    Spends (readOptional present p) fun value => value.elim 0 size := by
  cases present with
  | true => exact Spends.map h
  | false => exact Spends.pure rfl

theorem spends_vectors : Spends readVectors fun vectors => 4 * (vectors.1.getD []).length + 8 * (vectors.2.getD []).length := by
  have hpair : Spends readFlaggedVectors
      fun vectors => 4 * (vectors.1.getD []).length + 8 * (vectors.2.getD []).length := by
    refine (spends_readUnsigned 1 _).bind fun flags => ?_
    split
    · exact Spends.throw _ _
    · refine (spends_optional spends_dense _).bind fun dense => ?_
      refine (spends_optional spends_sparse _).bind fun sparse => ?_
      refine @Spends.bind _ _ _ _ _ (fun _ => 0) _ ?_ fun _ => Spends.pure ?_
      · refine spends_remainingBytes.bind fun left => ?_
        split
        · exact Spends.pure rfl
        · exact Spends.throw _ _
      · cases dense <;> cases sparse <;>
          simp only [elim_none, elim_some, getD_none, getD_some, length_nil] <;> omega
  refine spends_remainingBytes.bind fun left => ?_
  split
  · exact Spends.pure rfl
  · exact hpair

theorem spends_unsigned (width : ℕ) (e : EngineError) (f : ℕ → α) :
    Spends (f <$> readUnsigned width e) fun _ => 0 := Spends.map (spends_readUnsigned width e).free

theorem spends_reject (ctx : String) : Spends (rejectTrailingBytes ctx) fun _ => 0 := by
  refine spends_remainingBytes.bind fun left => ?_
  split
  · exact Spends.pure rfl
  · exact Spends.throw _ _

theorem spends_ascending (n : ℕ) (last : Option ℕ) : Spends (readAscending n last) fun _ => 0 := by
  induction n generalizing last with
  | zero => exact Spends.pure rfl
  | succ n ih =>
    refine (spends_readUnsigned 4 _).free.bind fun labelId => ?_
    split
    · exact Spends.throw _ _
    · exact (ih _).bind fun rest => Spends.pure rfl

theorem spends_nodeLabelSet : Spends readNodeLabelSet fun _ => 0 := by
  refine (spends_readUnsigned 1 _).free.bind fun count => ?_
  split
  · exact Spends.throw _ _
  · split
    · exact Spends.throw _ _
    · refine (spends_ascending _ _).bind fun ids => ?_
      split
      · exact Spends.pure rfl
      · exact Spends.throw _ _

theorem spends_str : Spends readStr fun _ => 0 := by
  refine (spends_readUnsigned 2 _).free.bind fun len => ?_
  refine (spends_readExact len _).free.bind fun bytes => ?_
  rw [fromUtf8]
  split
  · exact Spends.pure rfl
  · exact Spends.throw _ _

section
variable (ser : PropsSerializer)

theorem spends_props : Spends (readProps ser) fun _ => 0 := by
  refine @Spends.bind _ _ _ _ _ (fun _ => 0) _ ?_ fun data => ?_
  · refine (spends_readUnsigned 4 _).free.bind fun len => ?_
    split
    · exact Spends.throw _ _
    · exact (spends_readExact len _).free
  · split
    · exact Spends.pure rfl
    · exact Spends.throw _ _

theorem spends_node : Spends (readNode ser) vectorBytes := by
  refine (spends_readUnsigned 8 _).free.bind fun id => ?_
  refine spends_nodeLabelSet.bind fun labelIds => ?_
  refine spends_str.bind fun key => ?_
  refine (spends_unsigned 8 _ _).bind fun createdAt => ?_
  refine (spends_unsigned 8 _ _).bind fun updatedAt => ?_
  refine (spends_unsigned 4 _ _).bind fun weight => ?_
  refine (spends_props ser).bind fun props => ?_
  refine spends_vectors.bind fun vectors => Spends.pure ?_
  simp only [vectorBytes, Nat.sub_zero, Nat.sub_self]

theorem spends_tagged (tag : OpTag) : Spends (readTagged ser tag) vectorBytes := by
  cases tag with
  | upsertNode => exact spends_node ser
  | upsertEdge =>
    refine (spends_readUnsigned 8 _).free.bind fun id => ?_
    refine (spends_readUnsigned 8 _).free.bind fun src => ?_
    refine (spends_readUnsigned 8 _).free.bind fun tgt => ?_
    refine (spends_readUnsigned 4 _).free.bind fun labelId => ?_
    refine (spends_unsigned 8 _ _).bind fun createdAt => ?_
    refine (spends_unsigned 8 _ _).bind fun updatedAt => ?_
    refine (spends_unsigned 4 _ _).bind fun weight => ?_
    refine (spends_props ser).bind fun props => ?_
    refine (spends_unsigned 8 _ _).bind fun validFrom => ?_
    refine (spends_unsigned 8 _ _).bind fun validTo => ?_
    exact (spends_reject _).bind fun _ => Spends.pure rfl
  | deleteNode | deleteEdge =>
    refine (spends_readUnsigned 8 _).free.bind fun id => ?_
    refine (spends_unsigned 8 _ _).bind fun deletedAt => ?_
    exact (spends_reject _).bind fun _ => Spends.pure rfl
  | ensureNodeLabel | ensureEdgeLabel =>
    refine spends_str.bind fun label => ?_
    refine (spends_readUnsigned 4 _).free.bind fun labelId => ?_
    exact (spends_reject _).bind fun _ => Spends.pure rfl
  | beginAtomicBatch | commitAtomicBatch =>
    refine (spends_readUnsigned 8 _).free.bind fun firstSeq => ?_
    refine (spends_readUnsigned 4 _).free.bind fun opCount => ?_
    exact (spends_reject _).bind fun _ => Spends.pure rfl

end

theorem vectorBytes_of_decode {data : List UInt8}
    (h : decodeWalOp ser data = .ok op) : vectorBytes op ≤ data.length := by
  have hspends : Spends (readWalOp ser) vectorBytes := by
    refine (spends_readUnsigned 1 _).free.bind fun opTag => ?_
    split
    · rename_i tag htag
      exact spends_tagged ser tag
    · exact Spends.throw _ _
  rw [decodeWalOp] at h
  obtain ⟨found, hread, rfl⟩ := map_ok h
  exact (Nat.le_add_right _ _).trans (hspends data found.1 found.2 hread)

end OverGraph.WalCodec
