import OverGraph.PropertyValues
import OverGraph.RecordSpans
import OverGraph.SortedMerges
import OverGraph.WalReading

/-!
# Degree sidecars

A sidecar holds the degree deltas of nodes in the order of their ids, and the first id of every block of them.
A lookup halves the blocks and then one block. A fold merges sidecars and adds up what they have for a node.
-/

namespace OverGraph.DegreeSidecars
open Option hiding mem_map_of_mem
open Bisection ByteReaders Fallible IndexBuilders List PropertyValues RecordSpans Records SortedMerges Prod
open WalCodec (EngineError length_flatMap_const)
open WalReading (crc32Fast)

/-- The counts and the sums by their bits. -/
structure DegreeDelta where
  outDegree : BitVec 64
  inDegree : BitVec 64
  outWeightSum : F64
  inWeightSum : F64
  selfLoopCount : BitVec 64
  selfLoopWeightSum : F64
  temporalEdgeCount : BitVec 64
  deriving DecidableEq

namespace DegreeDelta

def zero : DegreeDelta := ⟨0, 0, 0, 0, 0, 0, 0⟩

def isZero (delta : DegreeDelta) : Bool :=
  delta.outDegree == 0 && delta.inDegree == 0 && f64IsZero delta.outWeightSum && f64IsZero delta.inWeightSum &&
    delta.selfLoopCount == 0 && f64IsZero delta.selfLoopWeightSum && delta.temporalEdgeCount == 0

/-- The counts wrap around; how weights are added is a parameter. -/
def addAssignDelta (add : F64 → F64 → F64) (delta other : DegreeDelta) : DegreeDelta where
  outDegree := delta.outDegree + other.outDegree
  inDegree := delta.inDegree + other.inDegree
  outWeightSum := add delta.outWeightSum other.outWeightSum
  inWeightSum := add delta.inWeightSum other.inWeightSum
  selfLoopCount := delta.selfLoopCount + other.selfLoopCount
  selfLoopWeightSum := add delta.selfLoopWeightSum other.selfLoopWeightSum
  temporalEdgeCount := delta.temporalEdgeCount + other.temporalEdgeCount

end DegreeDelta

abbrev Entry := BitVec 64 × DegreeDelta

def nodeId (entry : Entry) : ℕ := entry.1.toNat

def degreeDeltaMagic : List UInt8 := [79, 71, 68, 68, 76, 84, 48, 49]
def degreeDeltaFormatVersion : ℕ := 1
def degreeDeltaBlockSize : ℕ := 256
def headerSize : ℕ := 32
def blockIndexEntrySize : ℕ := 16
def deltaEntrySize : ℕ := 64
def crcSize : ℕ := 4

def blockCountOf (entryCount : ℕ) : ℕ := if entryCount = 0 then 0 else (entryCount + (degreeDeltaBlockSize - 1)) / degreeDeltaBlockSize

def writeWord (word : BitVec 64) : List UInt8 := leBytes 8 word.toNat

def blockWords (block : BitVec 64 × ℕ) : List (BitVec 64) := [block.1, BitVec.ofNat 64 block.2]

def entryWords (entry : Entry) : List (BitVec 64) :=
  [entry.1, entry.2.outDegree, entry.2.inDegree, entry.2.outWeightSum, entry.2.inWeightSum, entry.2.selfLoopCount,
    entry.2.selfLoopWeightSum, entry.2.temporalEdgeCount]

def sidecarWords (blocks : List (BitVec 64 × ℕ)) (es : List Entry) : List (BitVec 64) :=
  BitVec.ofNat 64 es.length :: BitVec.ofNat 64 blocks.length ::
    (blocks.flatMap blockWords ++ es.flatMap entryWords)

/-- What the checksum protects. -/
def sidecarBody (blocks : List (BitVec 64 × ℕ)) (es : List Entry) : List UInt8 :=
  degreeDeltaMagic ++ (leBytes 4 degreeDeltaFormatVersion ++ (leBytes 4 degreeDeltaBlockSize ++ (sidecarWords blocks es).flatMap writeWord))

def sidecarPayload (crc32 : List UInt8 → BitVec 32) (blocks : List (BitVec 64 × ℕ)) (es : List Entry) : List UInt8 :=
  sidecarBody blocks es ++ leBytes 4 (crc32 (sidecarBody blocks es)).toNat

/-- The first id of every block and where the block starts. -/
def blockIndexOf (es : List Entry) : List (BitVec 64 × ℕ) :=
  (List.range (blockCountOf es.length)).map fun block =>
    ((es[block * degreeDeltaBlockSize]?).elim 0 Prod.fst, block * degreeDeltaBlockSize)

def encodeSortedDegreeDeltaSidecarUnchecked (crc32 : List UInt8 → BitVec 32) (es : List Entry) : List UInt8 :=
  sidecarPayload crc32 (blockIndexOf es) es

def validateSortedDegreeDeltaEntries (previousNodeId : Option (BitVec 64)) : List Entry → Except EngineError Unit
  | [] => .ok ()
  | entry :: es =>
    if entry.2.isZero then .error (.invalidOperation "sorted degree sidecar entries must not include zero deltas")
    else if previousNodeId.any fun previous => decide (nodeId entry ≤ previous.toNat) then
      .error (.invalidOperation "sorted degree sidecar entries must be strictly ordered by node id")
    else validateSortedDegreeDeltaEntries (some entry.1) es

def writeSortedDegreeDeltaSidecarPayload (crc32 : List UInt8 → BitVec 32) (es : List Entry) : Except EngineError (List UInt8) := do
  validateSortedDegreeDeltaEntries none es
  .ok (encodeSortedDegreeDeltaSidecarUnchecked crc32 es)

structure DegreeSidecar where
  payload : List UInt8
  entryCount : ℕ
  blockCount : ℕ

def readWord (data : List UInt8) (offset : ℕ) : BitVec 64 := BitVec.ofNat 64 (fromLe (slice data offset (offset + 8)))

def blockFirstNodeId (data : List UInt8) (block : ℕ) : BitVec 64 := readWord data (headerSize + block * blockIndexEntrySize)

def readSidecarEntry (data : List UInt8) (blockCount idx : ℕ) : Entry :=
  let field j := readWord data (headerSize + blockCount * blockIndexEntrySize + idx * deltaEntrySize + 8 * j)
  (field 0, ⟨field 1, field 2, field 3, field 4, field 5, field 6, field 7⟩)

namespace DegreeSidecar
variable (sidecar : DegreeSidecar)

def blockFirsts : List (BitVec 64) := (List.range sidecar.blockCount).map (blockFirstNodeId sidecar.payload)

def entries : List Entry := (List.range sidecar.entryCount).map (readSidecarEntry sidecar.payload sidecar.blockCount)

def lookup (id : BitVec 64) : DegreeDelta :=
  if sidecar.entryCount = 0 ∨ sidecar.blockCount = 0 then .zero
  else
    let lo := cut (fun fst => decide (fst.toNat ≤ id.toNat)) sidecar.blockFirsts
    if lo = 0 then .zero
    else
      let start := (lo - 1) * degreeDeltaBlockSize
      let stop := min (start + degreeDeltaBlockSize) sidecar.entryCount
      (bisectLoop (fun entry => compare (nodeId entry) id.toNat) sidecar.entries (stop - start) start stop).elim .zero Prod.snd

end DegreeSidecar

def readBytesAt (kind : String) (width : ℕ) (data : List UInt8) (offset : ℕ) : Except EngineError (List UInt8) := do
  let stop ← orCorrupt (checkedAdd offset width) ("degree sidecar " ++ kind ++ " offset overflow")
  ensure (stop ≤ data.length) ("degree sidecar " ++ kind ++ " read at offset " ++ toString offset ++ " exceeds length " ++
    toString data.length)
  .ok (slice data offset stop)

def readU32At (data : List UInt8) (offset : ℕ) : Except EngineError ℕ := do
  let bytes ← readBytesAt "u32" 4 data offset
  .ok (fromLe bytes)

def readU64At (data : List UInt8) (offset : ℕ) : Except EngineError (BitVec 64) := do
  let bytes ← readBytesAt "u64" 8 data offset
  .ok (BitVec.ofNat 64 (fromLe bytes))

def checkedMul (a b : ℕ) : Option ℕ := if a * b < 2 ^ 64 then some (a * b) else none

def validateDegreeSidecarShape (data : List UInt8) : Except EngineError (ℕ × ℕ) := do
  ensure (headerSize + crcSize ≤ data.length) ("degree sidecar length " ++ toString data.length ++ " is smaller than header")
  ensure (data.take 8 = degreeDeltaMagic) "degree sidecar magic mismatch"
  let formatVersion ← readU32At data 8
  ensure (formatVersion = degreeDeltaFormatVersion) ("unsupported degree sidecar version " ++ toString formatVersion)
  let blockSize ← readU32At data 12
  ensure (blockSize = degreeDeltaBlockSize) ("unsupported degree sidecar block size " ++ toString blockSize)
  let entryCount ← readU64At data 16
  let blockCount ← readU64At data 24
  ensure (blockCount.toNat = blockCountOf entryCount.toNat) ("degree sidecar block count " ++ toString blockCount.toNat ++
    " does not match entry count " ++ toString entryCount.toNat)
  let blocksLen ← orCorrupt (checkedMul blockCount.toNat blockIndexEntrySize) "degree sidecar block index length overflow"
  let entriesStart ← orCorrupt (checkedAdd headerSize blocksLen) "degree sidecar entries offset overflow"
  let entriesLen ← orCorrupt (checkedMul entryCount.toNat deltaEntrySize) "degree sidecar entries length overflow"
  let entriesEnd ← orCorrupt (checkedAdd entriesStart entriesLen) "degree sidecar length overflow"
  let expectedLen ← orCorrupt (checkedAdd entriesEnd crcSize) "degree sidecar length overflow"
  ensure (data.length = expectedLen) ("degree sidecar length " ++ toString data.length ++ " does not match expected " ++
    toString expectedLen)
  .ok (entryCount.toNat, blockCount.toNat)

/-- A sidecar opens if its lengths fit. -/
def openSidecar (data : List UInt8) : Except EngineError DegreeSidecar := do
  let shape ← validateDegreeSidecarShape data
  .ok ⟨data, shape.1, shape.2⟩

def checkEntries (prevNodeId : Option (BitVec 64)) (idx : ℕ) : List Entry → Except EngineError Unit
  | [] => .ok ()
  | entry :: es => do
    ensure (∀ prev ∈ prevNodeId, prev.toNat < nodeId entry) ("degree sidecar node IDs are not strictly sorted at entry " ++ toString idx)
    ensure (entry.2.isZero = false) ("degree sidecar contains zero delta at entry " ++ toString idx)
    checkEntries (some entry.1) (idx + 1) es

def checkBlock (sidecar : DegreeSidecar) (block : ℕ) : Except EngineError Unit := do
  let firstNodeId ← readU64At sidecar.payload (headerSize + block * blockIndexEntrySize)
  let entryStart ← readU64At sidecar.payload (headerSize + block * blockIndexEntrySize + 8)
  ensure (entryStart.toNat = block * degreeDeltaBlockSize) ("degree sidecar block " ++ toString block ++ " starts at " ++
    toString entryStart.toNat ++ ", expected " ++ toString (block * degreeDeltaBlockSize))
  ensure (entryStart.toNat < sidecar.entryCount) ("degree sidecar block " ++ toString block ++ " start " ++
    toString entryStart.toNat ++ " exceeds entry count " ++ toString sidecar.entryCount)
  let actualFirst := (readSidecarEntry sidecar.payload sidecar.blockCount entryStart.toNat).1
  ensure (firstNodeId = actualFirst) ("degree sidecar block " ++ toString block ++ " first node " ++
    toString firstNodeId.toNat ++ " does not match entry " ++ toString actualFirst.toNat)

def validateDegreeSidecar (crc32 : List UInt8 → BitVec 32) (data : List UInt8) : Except EngineError Unit := do
  let sidecar ← openSidecar data
  let storedCrc ← readU32At data (data.length - crcSize)
  ensure (storedCrc = (crc32 (data.take (data.length - crcSize))).toNat) "degree sidecar CRC mismatch"
  checkEntries none 0 sidecar.entries
  let _ ← (List.range sidecar.blockCount).mapM (checkBlock sidecar)
  .ok ()

section
variable (add : F64 → F64 → F64)

def remaining (curs : List (List Entry)) : ℕ := (curs.map List.length).sum

/-- Add up what the cursors at a node have for it, in the order of the cursors. -/
def consumeDegreeCursors (id : BitVec 64) : ℕ → List (List Entry) → DegreeDelta → DegreeDelta × List (List Entry)
  | 0, curs, sum => (sum, curs)
  | rounds + 1, curs, sum =>
    match leastHead nodeId curs with
    | none => (sum, curs)
    | some (entry, idx) =>
      if entry.1 = id then
        consumeDegreeCursors id rounds (curs.modify idx List.tail) (sum.addAssignDelta add entry.2)
      else (sum, curs)

def foldDegreeCursors : ℕ → List (List Entry) → List Entry
  | 0, _ => []
  | rounds + 1, curs =>
    match leastHead nodeId curs with
    | none => []
    | some (fst, _) =>
      let consumed := consumeDegreeCursors add fst.1 (remaining curs) curs .zero
      if consumed.1.isZero then foldDegreeCursors rounds consumed.2
      else (fst.1, consumed.1) :: foldDegreeCursors rounds consumed.2

/-- The entries that are emitted. -/
def forEachFoldedDegreeEntry (sidecars : List DegreeSidecar) : List Entry :=
  let curs := sidecars.map (·.entries)
  foldDegreeCursors add (remaining curs) curs

/-- A block starts with every entry that finds the last one full. -/
def pushBlocks : ℕ → List Entry → List (BitVec 64 × ℕ)
  | _, [] => []
  | entryCount, entry :: es =>
    if entryCount % degreeDeltaBlockSize = 0 then (entry.1, entryCount) :: pushBlocks (entryCount + 1) es
    else pushBlocks (entryCount + 1) es

def writeFoldedDegreeDeltaSidecarPayloadFromSidecars (crc32 : List UInt8 → BitVec 32) (sidecars : List DegreeSidecar) :
    Except EngineError (List UInt8) := do
  let _ ← sidecars.mapM fun sidecar => validateDegreeSidecar crc32 sidecar.payload
  let folded := forEachFoldedDegreeEntry add sidecars
  .ok (sidecarPayload crc32 (pushBlocks 0 folded) folded)

end

section
variable {before part after : List UInt8} {words : List (BitVec 64)} {start stop : ℕ}

theorem slice_middle (hst : start = before.length) (hstop : stop = start + part.length) :
    slice (before ++ (part ++ after)) start stop = part := by
  rw [slice, hstop, hst, drop_left, Nat.add_sub_cancel_left, take_left]

theorem length_writeWord (word : BitVec 64) : (writeWord word).length = 8 := length_leBytes 8 _

theorem readWord_words {k : ℕ} {word : BitVec 64} (hword : words[k]? = some word) (hst : start = before.length + 8 * k) :
    readWord (before ++ (words.flatMap writeWord ++ after)) start = word := by
  obtain ⟨hlt, rfl⟩ := List.getElem?_eq_some_iff.mp hword
  have hsp : words.flatMap writeWord = (words.take k).flatMap writeWord ++
      (writeWord words[k] ++ (words.drop (k + 1)).flatMap writeWord) := by
    rw [← flatMap_cons, ← flatMap_append, ← drop_eq_getElem_cons hlt, take_append_drop]
  have hlen : start = (before ++ (words.take k).flatMap writeWord).length := by
    rw [length_append, length_flatMap_const length_writeWord, length_take, Nat.min_eq_left hlt.le, hst]
  rw [readWord, hsp, append_assoc, append_assoc, ← append_assoc, slice_middle hlen (by rw [length_writeWord]), writeWord,
    fromLe_leBytes words[k].isLt, BitVec.ofNat_toNat, BitVec.setWidth_eq]

/-- The place of a member in chunks of one length. -/
theorem getElem?_chunks {α β : Type} {f : α → List β} {width : ℕ} (hwid : ∀ a, (f a).length = width) {as : List α}
    {i j : ℕ} {a : α} (ha : as[i]? = some a) (hj : j < width) : (as.flatMap f)[width * i + j]? = (f a)[j]? := by
  induction as generalizing i with
  | nil => cases ha
  | cons fst as ih =>
    cases i with
    | zero =>
      obtain rfl : fst = a := some.inj ha
      rw [flatMap_cons, Nat.mul_zero, Nat.zero_add, List.getElem?_append_left (by rw [hwid]; exact hj)]
    | succ i =>
      rw [flatMap_cons, List.getElem?_append_right (by rw [hwid, Nat.mul_succ]; omega), hwid, ← ih ha]
      congr 1
      rw [Nat.mul_succ]
      omega

end

section
variable {blocks : List (BitVec 64 × ℕ)} {es : List Entry} {i j : ℕ} {word : BitVec 64}

theorem length_blockWords (block : BitVec 64 × ℕ) : (blockWords block).length = 2 := rfl

theorem length_entryWords (entry : Entry) : (entryWords entry).length = 8 := rfl

theorem sidecarWords_block {block : BitVec 64 × ℕ} (hblock : blocks[i]? = some block) (hword : (blockWords block)[j]? = some word) :
    (sidecarWords blocks es)[2 + 2 * i + j]? = some word := by
  have hj : j < 2 := (List.getElem?_eq_some_iff.mp hword).1
  have hck := getElem?_chunks length_blockWords hblock hj
  have hi := (List.getElem?_eq_some_iff.mp (hck.trans hword)).1
  rw [show 2 + 2 * i + j = 2 * i + j + 1 + 1 by omega, sidecarWords, List.getElem?_cons_succ, List.getElem?_cons_succ,
    List.getElem?_append_left hi, hck, hword]

theorem sidecarWords_entry {entry : Entry} (hent : es[i]? = some entry) (hword : (entryWords entry)[j]? = some word) :
    (sidecarWords blocks es)[2 + 2 * blocks.length + (8 * i + j)]? = some word := by
  have hj : j < 8 := (List.getElem?_eq_some_iff.mp hword).1
  have hlen := length_flatMap_const length_blockWords blocks
  rw [show 2 + 2 * blocks.length + (8 * i + j) = 2 * blocks.length + (8 * i + j) + 1 + 1 by omega, sidecarWords,
    List.getElem?_cons_succ, List.getElem?_cons_succ, List.getElem?_append_right (by omega), hlen,
    Nat.add_sub_cancel_left, getElem?_chunks length_entryWords hent hj, hword]

theorem length_sidecarWords : (sidecarWords blocks es).length = 2 + 2 * blocks.length + 8 * es.length := by
  rw [sidecarWords, length_cons, length_cons, length_append, length_flatMap_const length_blockWords, length_flatMap_const length_entryWords]
  omega

variable (crc32 : List UInt8 → BitVec 32)

theorem sidecarPayload_eq : sidecarPayload crc32 blocks es =
    (degreeDeltaMagic ++ (leBytes 4 degreeDeltaFormatVersion ++ leBytes 4 degreeDeltaBlockSize)) ++
      ((sidecarWords blocks es).flatMap writeWord ++ leBytes 4 (crc32 (sidecarBody blocks es)).toNat) := by
  simp only [sidecarPayload, sidecarBody, append_assoc]

theorem length_sidecarBody : (sidecarBody blocks es).length =
    headerSize + blocks.length * blockIndexEntrySize + es.length * deltaEntrySize := by
  simp only [sidecarBody, length_append, length_leBytes, length_flatMap_const length_writeWord, length_sidecarWords,
    headerSize, blockIndexEntrySize, deltaEntrySize]
  have hmagic : degreeDeltaMagic.length = 8 := rfl
  omega

theorem length_sidecarPayload : (sidecarPayload crc32 blocks es).length =
    headerSize + blocks.length * blockIndexEntrySize + es.length * deltaEntrySize + crcSize := by
  rw [sidecarPayload, length_append, length_sidecarBody, length_leBytes, crcSize]

theorem readWord_payload {offset : ℕ} (hword : (sidecarWords blocks es)[i]? = some word) (hoffset : offset = 16 + 8 * i) :
    readWord (sidecarPayload crc32 blocks es) offset = word := by
  rw [sidecarPayload_eq]
  exact readWord_words hword hoffset

theorem blockFirstNodeId_payload {block : BitVec 64 × ℕ} (hblock : blocks[i]? = some block) :
    blockFirstNodeId (sidecarPayload crc32 blocks es) i = block.1 :=
  readWord_payload crc32 (sidecarWords_block (j := 0) hblock rfl) (by rw [headerSize, blockIndexEntrySize]; omega)

theorem readSidecarEntry_payload {entry : Entry} (hent : es[i]? = some entry) :
    readSidecarEntry (sidecarPayload crc32 blocks es) blocks.length i = entry := by
  have hfld : ∀ j word, (entryWords entry)[j]? = some word → readWord (sidecarPayload crc32 blocks es)
      (headerSize + blocks.length * blockIndexEntrySize + i * deltaEntrySize + 8 * j) = word := by
    intro j word hword
    refine readWord_payload crc32 (sidecarWords_entry hent hword) ?_
    rw [headerSize, blockIndexEntrySize, deltaEntrySize]
    omega
  simp only [readSidecarEntry]
  rw [hfld 0 _ rfl, hfld 1 _ rfl, hfld 2 _ rfl, hfld 3 _ rfl, hfld 4 _ rfl, hfld 5 _ rfl, hfld 6 _ rfl, hfld 7 _ rfl]

end

section
variable {es : List Entry}

theorem blockCountOf_eq (entryCount : ℕ) : blockCountOf entryCount = (entryCount + 255) / 256 := by
  rw [blockCountOf, degreeDeltaBlockSize]
  split <;> omega

theorem lt_blockCountOf {block entryCount : ℕ} : block < blockCountOf entryCount ↔ block * degreeDeltaBlockSize < entryCount := by
  rw [blockCountOf_eq, degreeDeltaBlockSize]
  omega

theorem length_blockIndexOf (es : List Entry) : (blockIndexOf es).length = blockCountOf es.length := by
  rw [blockIndexOf, length_map, length_range]

theorem getElem?_blockIndexOf {block : ℕ} {entry : Entry} (hent : es[block * degreeDeltaBlockSize]? = some entry) :
    (blockIndexOf es)[block]? = some (entry.1, block * degreeDeltaBlockSize) := by
  have hblock := lt_blockCountOf.mpr (List.getElem?_eq_some_iff.mp hent).1
  rw [blockIndexOf, List.getElem?_map, List.getElem?_range hblock, map_some, hent]
  rfl

theorem exists_first {block : ℕ} (h : block < blockCountOf es.length) : ∃ entry, es[block * degreeDeltaBlockSize]? = some entry :=
  ⟨_, getElem?_eq_getElem (lt_blockCountOf.mp h)⟩

end

section
variable (crc32 : List UInt8 → BitVec 32) (es : List Entry)

/-- What a sidecar of these entries reads. -/
def openedSidecar : DegreeSidecar where
  payload := encodeSortedDegreeDeltaSidecarUnchecked crc32 es
  entryCount := es.length
  blockCount := blockCountOf es.length

theorem map_range_eq {α : Type} {read : ℕ → α} {vs : List α} (h : ∀ i value, vs[i]? = some value → read i = value) :
    (range vs.length).map read = vs := by
  refine List.ext_getElem (by rw [length_map, length_range]) fun i hi hi' => ?_
  rw [getElem_map, getElem_range]
  exact h i _ (getElem?_eq_getElem hi')

theorem entries_opened : (openedSidecar crc32 es).entries = es := by
  refine map_range_eq fun i entry hent => ?_
  have hread := @readSidecarEntry_payload (blockIndexOf es) es i crc32 entry hent
  rwa [length_blockIndexOf] at hread

theorem blockFirsts_opened : (openedSidecar crc32 es).blockFirsts = (blockIndexOf es).map fst := by
  have hread := @map_range_eq _ (blockFirstNodeId (encodeSortedDegreeDeltaSidecarUnchecked crc32 es))
    ((blockIndexOf es).map fst) fun i fst hfst => by
      rw [List.getElem?_map, map_eq_some_iff] at hfst
      obtain ⟨block, hblock, rfl⟩ := hfst
      exact blockFirstNodeId_payload crc32 hblock
  rwa [length_map, length_blockIndexOf] at hread

variable {crc32 es}

theorem readBytesAt_eq {kind : String} {width offset : ℕ} {data : List UInt8} (h : offset + width ≤ data.length)
    (hfits : data.length < 2 ^ 64) : readBytesAt kind width data offset = .ok (slice data offset (offset + width)) := by
  simp only [readBytesAt, checkedAdd_eq_some h hfits, orCorrupt, elim_some, ok_bind, ensure_eq_ok h]

theorem readU64At_eq {offset : ℕ} {data : List UInt8} (h : offset + 8 ≤ data.length) (hfits : data.length < 2 ^ 64) :
    readU64At data offset = .ok (readWord data offset) := by
  rw [readU64At, readBytesAt_eq h hfits, ok_bind, readWord]

theorem readU32At_middle {before after : List UInt8} {n offset : ℕ} (hn : n < 256 ^ 4) (hoffset : offset = before.length)
    (hfits : (before ++ (leBytes 4 n ++ after)).length < 2 ^ 64) :
    readU32At (before ++ (leBytes 4 n ++ after)) offset = .ok n := by
  have hle : offset + 4 ≤ (before ++ (leBytes 4 n ++ after)).length := by
    rw [length_append, length_append, length_leBytes]
    omega
  rw [readU32At, readBytesAt_eq hle hfits, ok_bind, slice_middle hoffset (by rw [length_leBytes]), fromLe_leBytes hn]

theorem validateDegreeSidecarShape_encode {data : List UInt8} (hdata : data = encodeSortedDegreeDeltaSidecarUnchecked crc32 es)
    (hfits : data.length < 2 ^ 64) : validateDegreeSidecarShape data = .ok (es.length, blockCountOf es.length) := by
  rw [encodeSortedDegreeDeltaSidecarUnchecked] at hdata
  have hlen : data.length = 32 + blockCountOf es.length * 16 + es.length * 64 + 4 := by
    rw [hdata, length_sidecarPayload, length_blockIndexOf]
    rfl
  have hvers : readU32At data 8 = .ok degreeDeltaFormatVersion := by
    rw [hdata, sidecarPayload, sidecarBody, append_assoc, append_assoc] at hfits ⊢
    exact readU32At_middle (by decide) rfl hfits
  have hsize : readU32At data 12 = .ok degreeDeltaBlockSize := by
    rw [hdata, sidecarPayload, sidecarBody, append_assoc, append_assoc, append_assoc, ← append_assoc] at hfits ⊢
    exact readU32At_middle (by decide) rfl hfits
  have hcnt : readU64At data 16 = .ok (BitVec.ofNat 64 es.length) := by
    rw [readU64At_eq (by omega) hfits, hdata]
    exact congrArg _ (readWord_payload (i := 0) crc32 rfl rfl)
  have hblocks : readU64At data 24 = .ok (BitVec.ofNat 64 (blockCountOf es.length)) := by
    rw [readU64At_eq (by omega) hfits, ← length_blockIndexOf, hdata]
    exact congrArg _ (readWord_payload (i := 1) crc32 rfl rfl)
  have hmagic : data.take 8 = degreeDeltaMagic := by
    rw [hdata]
    rfl
  have hents : (BitVec.ofNat 64 es.length).toNat = es.length := by rw [BitVec.toNat_ofNat, Nat.mod_eq_of_lt (by omega)]
  have hblockCount : (BitVec.ofNat 64 (blockCountOf es.length)).toNat = blockCountOf es.length := by
    rw [BitVec.toNat_ofNat, Nat.mod_eq_of_lt (by omega)]
  have hblocksLen : checkedMul (blockCountOf es.length) 16 = some (blockCountOf es.length * 16) := if_pos (by omega)
  have hst : checkedAdd 32 (blockCountOf es.length * 16) = some (32 + blockCountOf es.length * 16) := if_pos (by omega)
  have hentriesLen : checkedMul es.length 64 = some (es.length * 64) := if_pos (by omega)
  have hend : checkedAdd (32 + blockCountOf es.length * 16) (es.length * 64) =
      some (32 + blockCountOf es.length * 16 + es.length * 64) := if_pos (by omega)
  have hexpe : checkedAdd (32 + blockCountOf es.length * 16 + es.length * 64) 4 =
      some (32 + blockCountOf es.length * 16 + es.length * 64 + 4) := if_pos (by omega)
  have hhdr : headerSize + crcSize ≤ data.length := by
    rw [hlen, headerSize, crcSize]
    omega
  rw [validateDegreeSidecarShape, ensure_eq_ok hhdr, ok_bind]
  simp only [hmagic, hvers, hsize, hcnt, hblocks, hents, hblockCount, hlen, headerSize, crcSize, blockIndexEntrySize,
    deltaEntrySize, hblocksLen, hst, hentriesLen, hend, hexpe, orCorrupt, elim_some, ok_bind, ensure, if_true]

theorem openSidecar_encode (hfits : (encodeSortedDegreeDeltaSidecarUnchecked crc32 es).length < 2 ^ 64) :
    openSidecar (encodeSortedDegreeDeltaSidecarUnchecked crc32 es) = .ok (openedSidecar crc32 es) := by
  rw [openSidecar, validateDegreeSidecarShape_encode rfl hfits]
  rfl

end

section
variable {es : List Entry} {id : BitVec 64} {delta : DegreeDelta}

def deltaOf (es : List Entry) (id : BitVec 64) : Option DegreeDelta := (es.find? fun entry => decide (nodeId entry = id.toNat)).map Prod.snd

def deltasAt (es : List Entry) (id : BitVec 64) : List DegreeDelta := (es.filter fun entry => decide (nodeId entry = id.toNat)).map Prod.snd

theorem mem_deltasAt : delta ∈ deltasAt es id ↔ (id, delta) ∈ es := by
  rw [deltasAt, List.mem_map]
  constructor
  · rintro ⟨⟨other, _⟩, hent, rfl⟩
    obtain ⟨hmem, hkey⟩ := mem_filter.mp hent
    obtain rfl : other = id := BitVec.eq_of_toNat_eq (of_decide_eq_true hkey)
    exact hmem
  · exact fun hmem => ⟨_, mem_filter.mpr ⟨hmem, decide_eq_true rfl⟩, rfl⟩

theorem deltasAt_eq_nil (h : ∀ entry ∈ es, entry.1 ≠ id) : deltasAt es id = [] :=
  eq_nil_iff_forall_not_mem.mpr fun _ hdelta => h _ (mem_deltasAt.mp hdelta) rfl

section
variable (hsort : Ascending nodeId es)
include hsort

/-- Sorted entries have one delta for a node at most. -/
theorem deltasAt_eq (id : BitVec 64) : deltasAt es id = (deltaOf es id).toList := by
  induction es with
  | nil => rfl
  | cons fst es ih =>
    obtain ⟨hfst, hrest⟩ := pairwise_cons.mp hsort
    rw [deltasAt, deltaOf, filter_cons, find?_cons]
    cases hkey : decide (nodeId fst = id.toNat) with
    | true =>
      have hnone : deltasAt es id = [] := deltasAt_eq_nil fun entry hent heq =>
        (hfst entry hent).ne ((of_decide_eq_true hkey).trans (congrArg BitVec.toNat heq.symm))
      rw [if_pos rfl, map_cons]
      exact congrArg _ hnone
    | false => exact ih hrest

theorem deltaOf_eq_some : deltaOf es id = some delta ↔ (id, delta) ∈ es := by
  rw [← mem_deltasAt, deltasAt_eq hsort, mem_toList]

theorem closed_firsts (id : BitVec 64) :
    Closed (fun fst => decide (fst.toNat ≤ id.toNat)) ((blockIndexOf es).map fst) := by
  rw [blockIndexOf, List.map_map]
  refine pairwise_map.mpr (pairwise_lt_range.imp_of_mem fun {a b} ha hb hab hbel => ?_)
  obtain ⟨fst, hfst⟩ := exists_first (mem_range.mp ha)
  obtain ⟨snd, hsnd⟩ := exists_first (mem_range.mp hb)
  have hlt := hsort.lt_of_lt hfst hsnd (Nat.mul_lt_mul_of_pos_right hab (by decide))
  simp only [Function.comp, hfst, hsnd, elim_some, decide_eq_true_eq] at hbel ⊢
  exact hlt.le.trans hbel

/-- The blocks that start at or before an entry end with the block of the entry. -/
theorem cut_firsts {i : ℕ} (hent : es[i]? = some (id, delta)) :
    cut (fun fst => decide (fst.toNat ≤ id.toNat)) ((blockIndexOf es).map fst) = i / degreeDeltaBlockSize + 1 := by
  have hcnt := fun i => @Closed.getElem?_any _ _ i _ (closed_firsts hsort id)
  rw [cut_eq (closed_firsts hsort id)]
  have hi := (List.getElem?_eq_some_iff.mp hent).1
  have hst : i / degreeDeltaBlockSize * degreeDeltaBlockSize ≤ i := Nat.div_mul_le_self i _
  obtain ⟨fst, hfst⟩ := exists_first (lt_blockCountOf.mpr (hst.trans_lt hi))
  have hown : i / degreeDeltaBlockSize < ((blockIndexOf es).map Prod.fst).countP fun fst => decide (fst.toNat ≤ id.toNat) := by
    rw [← hcnt, List.getElem?_map, getElem?_blockIndexOf hfst]
    exact decide_eq_true (hsort.le_of_le hfst hent hst)
  have hnext : ¬ i / degreeDeltaBlockSize + 1 < ((blockIndexOf es).map Prod.fst).countP fun fst =>
      decide (fst.toNat ≤ id.toNat) := by
    rw [← hcnt, Option.any_eq_true]
    rintro ⟨fst, hfst, hbel⟩
    rw [List.getElem?_map, map_eq_some_iff] at hfst
    obtain ⟨block, hblock, rfl⟩ := hfst
    have hlt := (List.getElem?_eq_some_iff.mp hblock).1
    rw [length_blockIndexOf] at hlt
    obtain ⟨next, hnext⟩ := exists_first hlt
    rw [getElem?_blockIndexOf hnext] at hblock
    obtain rfl := some.inj hblock
    have hi : i < (i / degreeDeltaBlockSize + 1) * degreeDeltaBlockSize := by
      rw [degreeDeltaBlockSize]
      omega
    have haft := hsort.lt_of_lt hent hnext hi
    exact absurd (of_decide_eq_true hbel) haft.not_ge
  omega

end

/-- A lookup gives the delta of the node, or none at all. -/
theorem lookup_opened (crc32 : List UInt8 → BitVec 32) (hsort : Ascending nodeId es) (id : BitVec 64) :
    (openedSidecar crc32 es).lookup id = (deltaOf es id).getD .zero := by
  have hord := @ordered_compare _ _ _ _ _ nodeId (hsort.imp fun hlt => compare_lt_iff_lt.mpr hlt) id.toNat
  have hnone : (∀ (i : ℕ) delta, es[i]? ≠ some (id, delta)) → (deltaOf es id).getD .zero = .zero := by
    intro habs
    cases hdelta : deltaOf es id with
    | none => rfl
    | some delta =>
      obtain ⟨i, hi⟩ := mem_iff_getElem?.mp ((deltaOf_eq_some hsort).mp hdelta)
      exact absurd hi (habs i delta)
  rw [DegreeSidecar.lookup, blockFirsts_opened, entries_opened]
  by_cases hemp : (openedSidecar crc32 es).entryCount = 0 ∨ (openedSidecar crc32 es).blockCount = 0
  · rw [if_pos hemp]
    refine (hnone fun i delta hi => ?_).symm
    have hlt : 0 < es.length := Nat.zero_lt_of_lt (List.getElem?_eq_some_iff.mp hi).1
    have hblock := lt_blockCountOf.mpr ((Nat.zero_mul _).trans_lt hlt)
    exact hemp.elim hlt.ne' hblock.ne'
  rw [if_neg hemp]
  by_cases hbef : cut (fun fst => decide (fst.toNat ≤ id.toNat)) ((blockIndexOf es).map fst) = 0
  · rw [if_pos hbef]
    refine (hnone fun i delta hi => ?_).symm
    exact Nat.succ_ne_zero _ ((cut_firsts hsort hi).symm.trans hbef)
  rw [if_neg hbef]
  generalize hlo : cut _ _ = lo
  dsimp only [openedSidecar]
  cases hfnd : bisectLoop (fun entry => compare (nodeId entry) id.toNat) es
    (min ((lo - 1) * degreeDeltaBlockSize + degreeDeltaBlockSize) es.length - (lo - 1) * degreeDeltaBlockSize)
    ((lo - 1) * degreeDeltaBlockSize) (min ((lo - 1) * degreeDeltaBlockSize + degreeDeltaBlockSize) es.length) with
  | some entry =>
    obtain ⟨hmem, hside⟩ := mem_of_bisectLoop hfnd
    obtain rfl : entry.1 = id := BitVec.eq_of_toNat_eq (compare_eq_iff_eq.mp hside)
    rw [(deltaOf_eq_some hsort).mpr hmem]
    rfl
  | none =>
    -- The block of an entry at the node is the one that is searched.
    refine (hnone fun i delta hi => ?_).symm
    have hlt := (List.getElem?_eq_some_iff.mp hi).1
    obtain rfl := (cut_firsts hsort hi).symm.trans hlo
    rw [Nat.add_sub_cancel, degreeDeltaBlockSize] at hfnd
    exact bisectLoop_ne_none hord le_rfl (Nat.min_le_right _ _) (Nat.div_mul_le_self i 256) (by omega) hi
      (compare_eq_iff_eq.mpr rfl) hfnd

end

section
variable {crc32 : List UInt8 → BitVec 32} {es : List Entry}

theorem validated_ok {previousNodeId : Option (BitVec 64)} (h : validateSortedDegreeDeltaEntries previousNodeId es = .ok ()) :
    (∀ previous ∈ previousNodeId, ∀ entry ∈ es, previous.toNat < nodeId entry) ∧ Ascending nodeId es ∧
      ∀ entry ∈ es, entry.2.isZero = false := by
  induction es generalizing previousNodeId with
  | nil => exact ⟨fun _ _ _ h => absurd h not_mem_nil, List.Pairwise.nil, fun _ h => absurd h not_mem_nil⟩
  | cons entry es ih =>
    rw [validateSortedDegreeDeltaEntries] at h
    split at h
    · cases h
    rename_i hzero
    split at h
    · cases h
    rename_i hbef
    obtain ⟨haft, hsort, hrest⟩ := ih h
    have hfst : ∀ previous ∈ previousNodeId, previous.toNat < nodeId entry := by
      rintro previous rfl
      simpa using hbef
    refine ⟨fun previous hprev other hoth => ?_, pairwise_cons.mpr ⟨haft _ rfl, hsort⟩, fun other hoth => ?_⟩
    · obtain rfl | hoth := mem_cons.mp hoth
      · exact hfst previous hprev
      · exact (hfst previous hprev).trans (haft _ rfl other hoth)
    · obtain rfl | hoth := mem_cons.mp hoth
      · exact Bool.eq_false_of_not_eq_true hzero
      · exact hrest other hoth

/-- What was written was in order and had no zero. -/
theorem written_ok {payload : List UInt8} (h : writeSortedDegreeDeltaSidecarPayload crc32 es = .ok payload) :
    Ascending nodeId es ∧ (∀ entry ∈ es, entry.2.isZero = false) ∧ encodeSortedDegreeDeltaSidecarUnchecked crc32 es = payload := by
  obtain ⟨_, hvd, hpay⟩ := bind_ok h
  obtain ⟨-, hsort, hzero⟩ := validated_ok hvd
  exact ⟨hsort, hzero, Except.ok.inj hpay⟩

theorem checkEntries_ok {prevNodeId : Option (BitVec 64)} {idx : ℕ} (hsort : Ascending nodeId es)
    (hprev : ∀ prev ∈ prevNodeId, ∀ entry ∈ es, prev.toNat < nodeId entry) (hzero : ∀ entry ∈ es, entry.2.isZero = false) :
    checkEntries prevNodeId idx es = .ok () := by
  induction es generalizing prevNodeId idx with
  | nil => rfl
  | cons entry es ih =>
    obtain ⟨hfst, hrest⟩ := pairwise_cons.mp hsort
    have hbef : ∀ prev ∈ prevNodeId, prev.toNat < nodeId entry := fun prev hmem => hprev prev hmem entry mem_cons_self
    rw [checkEntries, ensure_eq_ok hbef, ok_bind, ensure_eq_ok (hzero entry mem_cons_self), ok_bind]
    exact ih hrest (fun prev hmem other hoth => some.inj hmem ▸ hfst other hoth)
      fun other hoth => hzero other (mem_cons_of_mem _ hoth)

theorem checkBlock_ok (hfits : (encodeSortedDegreeDeltaSidecarUnchecked crc32 es).length < 2 ^ 64) {block : ℕ}
    (hblock : block < blockCountOf es.length) : checkBlock (openedSidecar crc32 es) block = .ok () := by
  obtain ⟨fst, hfst⟩ := exists_first hblock
  have hat := getElem?_blockIndexOf hfst
  have hlen := @length_sidecarPayload (blockIndexOf es) es crc32
  rw [length_blockIndexOf, headerSize, blockIndexEntrySize, deltaEntrySize, crcSize] at hlen
  rw [encodeSortedDegreeDeltaSidecarUnchecked] at hfits
  have hid : readU64At (sidecarPayload crc32 (blockIndexOf es) es) (headerSize + block * blockIndexEntrySize) = .ok fst.1 := by
    rw [headerSize, blockIndexEntrySize, readU64At_eq (by omega) hfits]
    exact congrArg _ (blockFirstNodeId_payload crc32 hat)
  have hst : readU64At (sidecarPayload crc32 (blockIndexOf es) es)
      (headerSize + block * blockIndexEntrySize + 8) = .ok (BitVec.ofNat 64 (block * degreeDeltaBlockSize)) := by
    rw [headerSize, blockIndexEntrySize, readU64At_eq (by omega) hfits]
    exact congrArg _ (readWord_payload crc32 (sidecarWords_block (j := 1) hat rfl) (by omega))
  have hin := lt_blockCountOf.mp hblock
  have hword : (BitVec.ofNat 64 (block * degreeDeltaBlockSize)).toNat = block * degreeDeltaBlockSize := by
    rw [BitVec.toNat_ofNat, Nat.mod_eq_of_lt (by omega)]
  have hread := @readSidecarEntry_payload (blockIndexOf es) es _ crc32 fst hfst
  rw [length_blockIndexOf] at hread
  simp only [checkBlock, openedSidecar, encodeSortedDegreeDeltaSidecarUnchecked, hid, hst, hword, hread, ok_bind, ensure,
    if_true, if_pos hin]

theorem validateDegreeSidecar_encode (hsort : Ascending nodeId es) (hzero : ∀ entry ∈ es, entry.2.isZero = false)
    (hfits : (encodeSortedDegreeDeltaSidecarUnchecked crc32 es).length < 2 ^ 64) :
    validateDegreeSidecar crc32 (encodeSortedDegreeDeltaSidecarUnchecked crc32 es) = .ok () := by
  have hblocks : (range (blockCountOf es.length)).mapM (checkBlock (openedSidecar crc32 es)) =
      .ok ((range (blockCountOf es.length)).map fun _ => ()) :=
    mapM_of_forall fun block hblock => checkBlock_ok hfits (mem_range.mp hblock)
  have hents : checkEntries none 0 (openedSidecar crc32 es).entries = .ok () := by
    rw [entries_opened]
    exact checkEntries_ok hsort (fun prev hprev => absurd hprev (Option.not_mem_none _)) hzero
  have hbody : (encodeSortedDegreeDeltaSidecarUnchecked crc32 es).length - crcSize = (sidecarBody (blockIndexOf es) es).length := by
    rw [encodeSortedDegreeDeltaSidecarUnchecked, sidecarPayload, length_append, length_leBytes, crcSize, Nat.add_sub_cancel]
  have hcrc : readU32At (encodeSortedDegreeDeltaSidecarUnchecked crc32 es)
      ((encodeSortedDegreeDeltaSidecarUnchecked crc32 es).length - crcSize) = .ok (crc32 (sidecarBody (blockIndexOf es) es)).toNat := by
    rw [hbody]
    rw [encodeSortedDegreeDeltaSidecarUnchecked, sidecarPayload, ← append_nil (leBytes 4 _)] at hfits ⊢
    exact readU32At_middle (BitVec.isLt _) rfl hfits
  rw [validateDegreeSidecar, openSidecar_encode hfits, ok_bind, hcrc, ok_bind, hbody, encodeSortedDegreeDeltaSidecarUnchecked,
    sidecarPayload, take_left, ensure_eq_ok rfl, ok_bind, hents, ok_bind]
  simp only [openedSidecar] at hblocks ⊢
  rw [hblocks]
  rfl

end

section
variable {es : List Entry}

theorem pushBlocks_append (entryCount : ℕ) (es more : List Entry) :
    pushBlocks entryCount (es ++ more) = pushBlocks entryCount es ++ pushBlocks (entryCount + es.length) more := by
  induction es generalizing entryCount with
  | nil => rfl
  | cons entry es ih =>
    rw [cons_append, pushBlocks, pushBlocks, ih, length_cons, Nat.add_right_comm entryCount 1, Nat.add_assoc]
    split <;> rfl

/-- The index collected on the way is the one of the entries. -/
theorem pushBlocks_eq (es : List Entry) : pushBlocks 0 es = blockIndexOf es := by
  induction es using List.reverseRecOn with
  | nil => rfl
  | append_singleton es entry ih =>
    have hold : (range (blockCountOf es.length)).map (fun block =>
        (((es ++ [entry])[block * degreeDeltaBlockSize]?).elim 0 fst, block * degreeDeltaBlockSize)) =
          blockIndexOf es := by
      refine map_congr_left fun block hblock => ?_
      rw [List.getElem?_append_left (lt_blockCountOf.mp (mem_range.mp hblock))]
    have hcnt := blockCountOf_eq es.length
    have hmore := blockCountOf_eq (es.length + 1)
    rw [pushBlocks_append, ih, pushBlocks, pushBlocks, Nat.zero_add, blockIndexOf.eq_def (es ++ [entry]), length_append, length_singleton]
    split
    · rename_i hfull
      rw [degreeDeltaBlockSize] at hfull
      have hst : blockCountOf es.length * degreeDeltaBlockSize = es.length := by
        rw [hcnt, degreeDeltaBlockSize]
        omega
      rw [show blockCountOf (es.length + 1) = blockCountOf es.length + 1 by omega, range_succ, map_append, hold,
        List.map_singleton, hst, getElem?_concat_length]
      rfl
    · rename_i hpart
      rw [degreeDeltaBlockSize] at hpart
      rw [show blockCountOf (es.length + 1) = blockCountOf es.length by omega, hold, append_nil]

end

section
variable {add : F64 → F64 → F64} {curs : List (List Entry)} {id : BitVec 64} {sum : DegreeDelta} {rounds : ℕ}

def total (add : F64 → F64 → F64) (deltas : List DegreeDelta) (sum : DegreeDelta) : DegreeDelta :=
  deltas.foldl (fun sum delta => sum.addAssignDelta add delta) sum

theorem deltasAt_append (run rest : List Entry) (id : BitVec 64) : deltasAt (run ++ rest) id = deltasAt run id ++ deltasAt rest id := by
  rw [deltasAt, filter_append, map_append, deltasAt, deltasAt]

theorem remaining_modify {entry : Entry} {idx : ℕ} (h : leastHead nodeId curs = some (entry, idx)) :
    remaining (curs.modify idx tail) + 1 = remaining curs := by
  obtain ⟨-, list, hlist⟩ := leastHead_some h
  exact sum_length_tail hlist

theorem merged_of_drained (h : remaining curs = 0) : mergeAll nodeId curs = [] := by
  cases hlst : leastHead nodeId curs with
  | none => exact leastHead_none hlst
  | some least =>
    have hcnt := @remaining_modify _ _ least.2 hlst
    omega

/-- The cursors give up a run of entries for the node, and none of what they keep comes first with it. -/
structure Consumes (add : F64 → F64 → F64) (id : BitVec 64) (curs : List (List Entry)) (sum : DegreeDelta)
    (consumed : DegreeDelta × List (List Entry)) (run : List Entry) : Prop where
  merged : mergeAll nodeId curs = run ++ mergeAll nodeId consumed.2
  same : ∀ entry ∈ run, entry.1 = id
  other : ∀ entry ∈ (mergeAll nodeId consumed.2).head?, entry.1 ≠ id
  summed : consumed.1 = total add (run.map Prod.snd) sum
  count : remaining consumed.2 + run.length = remaining curs

theorem consumes_nothing (h : ∀ entry ∈ (mergeAll nodeId curs).head?, entry.1 ≠ id) : Consumes add id curs sum (sum, curs) [] :=
  ⟨rfl, fun _ hmem => absurd hmem not_mem_nil, h, rfl, rfl⟩

theorem exists_consumes (hrds : remaining curs ≤ rounds) :
    ∃ run, Consumes add id curs sum (consumeDegreeCursors add id rounds curs sum) run := by
  induction rounds generalizing curs sum with
  | zero => exact ⟨[], consumes_nothing (by simp [merged_of_drained (Nat.le_zero.mp hrds)])⟩
  | succ rounds ih =>
    rw [consumeDegreeCursors]
    cases hlst : leastHead nodeId curs with
    | none => exact ⟨[], consumes_nothing (by simp [leastHead_none hlst])⟩
    | some least =>
      obtain ⟨entry, idx⟩ := least
      have hmrg := (leastHead_some hlst).1
      have hcnt := remaining_modify hlst
      dsimp only
      split
      · rename_i hsame
        obtain ⟨run, hrun⟩ := @ih (curs.modify idx tail) (sum.addAssignDelta add entry.2) (by omega)
        refine ⟨entry :: run, ?_, ?_, hrun.other, hrun.summed, ?_⟩
        · rw [hmrg, hrun.merged, cons_append]
        · exact fun other hoth => (mem_cons.mp hoth).elim (fun heq => heq ▸ hsame) (hrun.same other)
        · have hrest := hrun.count
          rw [length_cons]
          omega
      · rename_i hoth
        refine ⟨[], consumes_nothing fun fst hfst => ?_⟩
        rw [hmrg] at hfst
        rwa [← some.inj hfst]

/-- The run is all that the cursors have for the least node. -/
theorem Consumes.above {fst : Entry} {rest run : List Entry} {consumed : DegreeDelta × List (List Entry)}
    (h : Consumes add fst.1 curs sum consumed run) (hfst : mergeAll nodeId curs = fst :: rest)
    (hord : SortedMerges.Ordered nodeId (mergeAll nodeId curs)) :
    run ≠ [] ∧ ∀ entry ∈ mergeAll nodeId consumed.2, nodeId fst < nodeId entry := by
  have hne : run ≠ [] := by
    rintro rfl
    have hmrg := h.merged
    rw [nil_append, hfst] at hmrg
    exact h.other fst (by rw [← hmrg]; rfl) rfl
  refine ⟨hne, fun entry hent => ?_⟩
  rw [h.merged] at hord
  obtain ⟨-, hrest, hx⟩ := pairwise_append.mp hord
  obtain ⟨member, hmbr⟩ := exists_mem_of_ne_nil run hne
  have hid : nodeId member = nodeId fst := congrArg BitVec.toNat (h.same member hmbr)
  cases hlist : mergeAll nodeId consumed.2 with
  | nil =>
    rw [hlist] at hent
    cases hent
  | cons head tail =>
    rw [hlist] at hent hrest hx
    have hle := hx member hmbr head mem_cons_self
    have hoth : nodeId head ≠ nodeId fst := fun heq => h.other head (by rw [hlist]; rfl) (BitVec.eq_of_toNat_eq heq)
    have hhead : nodeId fst < nodeId head := by omega
    obtain rfl | htail := mem_cons.mp hent
    · exact hhead
    · exact hhead.trans_le ((pairwise_cons.mp hrest).1 entry htail)

theorem Consumes.deltasAt_eq {fst : Entry} {run : List Entry} {consumed : DegreeDelta × List (List Entry)}
    (h : Consumes add fst.1 curs .zero consumed run)
    (hab : ∀ entry ∈ mergeAll nodeId consumed.2, nodeId fst < nodeId entry) (id : BitVec 64) :
    total add (deltasAt (mergeAll nodeId curs) id) .zero =
      if id = fst.1 then consumed.1 else total add (deltasAt (mergeAll nodeId consumed.2) id) .zero := by
  rw [h.merged, deltasAt_append]
  split
  · rename_i hid
    have hrest : deltasAt (mergeAll nodeId consumed.2) id = [] := deltasAt_eq_nil fun entry hent heq =>
      absurd (hab entry hent) (by rw [nodeId, nodeId, heq, hid]; exact lt_irrefl _)
    have hrun : deltasAt run id = run.map snd := by
      rw [deltasAt, filter_eq_self.mpr fun entry hent => ?_]
      exact decide_eq_true (congrArg BitVec.toNat ((h.same entry hent).trans hid.symm))
    rw [hrest, hrun, append_nil, h.summed]
  · rename_i hid
    rw [deltasAt_eq_nil fun entry hent heq => hid (heq.symm.trans (h.same entry hent)), nil_append]

/-- The folded entries are in order, and hold for each node the sum of what the merged entries have for it, unless that is zero. -/
structure Folds (add : F64 → F64 → F64) (merged folded : List Entry) : Prop where
  sorted : Ascending nodeId folded
  length : folded.length ≤ merged.length
  mem : ∀ id delta, (id, delta) ∈ folded ↔ delta = total add (deltasAt merged id) .zero ∧ delta.isZero = false

theorem Folds.nil : Folds add [] [] := by
  refine ⟨List.Pairwise.nil, le_rfl, fun id delta => ⟨fun hmem => absurd hmem not_mem_nil, ?_⟩⟩
  rintro ⟨rfl, hzero⟩
  cases hzero

theorem Folds.above {merged folded : List Entry} (h : Folds add merged folded) {bound : ℕ}
    (hab : ∀ entry ∈ merged, bound < nodeId entry) : ∀ entry ∈ folded, bound < nodeId entry := by
  intro entry hent
  obtain ⟨hdelta, hzero⟩ := (h.mem entry.1 entry.2).mp hent
  by_contra hle
  have hnone : deltasAt merged entry.1 = [] := deltasAt_eq_nil fun other hoth heq =>
    hle ((hab other hoth).trans_eq (congrArg BitVec.toNat heq))
  rw [hnone] at hdelta
  rw [hdelta] at hzero
  cases hzero

theorem foldDegreeCursors_spec (hrds : remaining curs ≤ rounds) (hord : SortedMerges.Ordered nodeId (mergeAll nodeId curs)) :
    Folds add (mergeAll nodeId curs) (foldDegreeCursors add rounds curs) := by
  induction rounds generalizing curs with
  | zero =>
    rw [merged_of_drained (Nat.le_zero.mp hrds)]
    exact Folds.nil
  | succ rounds ih =>
    rw [foldDegreeCursors]
    cases hlst : leastHead nodeId curs with
    | none =>
      rw [leastHead_none hlst]
      exact Folds.nil
    | some least =>
      obtain ⟨fst, idx⟩ := least
      obtain ⟨run, hrun⟩ := @exists_consumes add curs fst.1 .zero (remaining curs) le_rfl
      obtain ⟨hne, hab⟩ := hrun.above (leastHead_some hlst).1 hord
      have hsum := hrun.deltasAt_eq hab
      have hcnt := hrun.count
      have hpos := length_pos_iff.mpr hne
      rw [hrun.merged] at hord
      dsimp only
      generalize consumeDegreeCursors add fst.1 (remaining curs) curs .zero = consumed at *
      have hrest := @ih consumed.2 (by omega) (pairwise_append.mp hord).2.1
      have hlat := hrest.above hab
      have hlen : (foldDegreeCursors add rounds consumed.2).length + 1 ≤ (mergeAll nodeId curs).length := by
        have hle := hrest.length
        rw [hrun.merged, length_append]
        omega
      have hfst : ∀ delta, (fst.1, delta) ∉ foldDegreeCursors add rounds consumed.2 := fun delta hmem => (hlat (fst.1, delta) hmem).ne rfl
      split
      · rename_i hzero
        refine ⟨hrest.sorted, hlen.trans' (Nat.le_succ _), fun id delta => ?_⟩
        rw [hsum]
        split
        · rename_i hid
          rw [hid]
          refine iff_of_false (hfst delta) ?_
          rintro ⟨rfl, hnonz⟩
          rw [hzero] at hnonz
          cases hnonz
        · exact hrest.mem id delta
      · rename_i hzero
        refine ⟨pairwise_cons.mpr ⟨hlat, hrest.sorted⟩, hlen, fun id delta => ?_⟩
        rw [hsum, mem_cons, mk.injEq]
        split
        · rename_i hid
          rw [hid]
          constructor
          · rintro (⟨-, rfl⟩ | hmem)
            · exact ⟨rfl, Bool.eq_false_of_not_eq_true hzero⟩
            · exact absurd hmem (hfst delta)
          · exact fun h => Or.inl ⟨rfl, h.1⟩
        · rename_i hid
          rw [hrest.mem]
          exact or_iff_right fun h => hid h.1

end

section
variable {crc32 : List UInt8 → BitVec 32} {add : F64 → F64 → F64} {lists : List (List Entry)}

theorem length_mergeAll (lists : List (List Entry)) : (mergeAll nodeId lists).length = remaining lists := by
  induction lists with
  | nil => rfl
  | cons list lists ih => rw [mergeAll_cons, List.length_merge, ih, remaining, remaining, map_cons, sum_cons]

theorem deltasAt_mergeAll (hsort : ∀ es ∈ lists, Ascending nodeId es) (id : BitVec 64) :
    deltasAt (mergeAll nodeId lists) id = lists.filterMap fun es => deltaOf es id := by
  have hord : ∀ es ∈ lists, SortedMerges.Ordered nodeId es := fun es hents => (hsort es hents).imp le_of_lt
  rw [deltasAt, filter_mergeAll hord, map_flatMap, filterMap_eq_flatMap_toList]
  exact flatMap_congr fun es hents => deltasAt_eq (hsort es hents) id

theorem length_encode (es : List Entry) : (encodeSortedDegreeDeltaSidecarUnchecked crc32 es).length =
    36 + (es.length + 255) / 256 * 16 + es.length * 64 := by
  rw [encodeSortedDegreeDeltaSidecarUnchecked, length_sidecarPayload, length_blockIndexOf, blockCountOf_eq, headerSize,
    blockIndexEntrySize, deltaEntrySize, crcSize]
  omega

/-- The entries of all sidecars fit in one. -/
theorem fits_folded {folded : List Entry} (hlen : folded.length ≤ remaining lists)
    (hfits : (lists.map fun es => (encodeSortedDegreeDeltaSidecarUnchecked crc32 es).length).sum < 2 ^ 64) :
    (encodeSortedDegreeDeltaSidecarUnchecked crc32 folded).length < 2 ^ 64 := by
  have hsum : 36 * lists.length + (remaining lists + 255) / 256 * 16 + remaining lists * 64 ≤
      (lists.map fun es => (encodeSortedDegreeDeltaSidecarUnchecked crc32 es).length).sum := by
    clear hlen hfits
    induction lists with
    | nil => exact le_rfl
    | cons es lists ih =>
      have hlen := @length_encode crc32 es
      have hcnt : remaining (es :: lists) = es.length + remaining lists := by rw [remaining, map_cons, sum_cons, remaining]
      rw [map_cons, sum_cons, length_cons, hcnt]
      omega
  have hnone : lists.length = 0 → remaining lists = 0 := by
    intro hemp
    obtain rfl := length_eq_zero_iff.mp hemp
    rfl
  rw [length_encode]
  omega

/-- A lookup in an encoded sidecar gives the delta of the node, zero where it has none. A fold of written sidecars is a valid
sidecar, and has for each node the sum of what they have for it, unless that is zero. -/
theorem degree_sidecars_exact (crc32 : List UInt8 → BitVec 32) (add : F64 → F64 → F64) :
    (∀ es, Ascending nodeId es → (encodeSortedDegreeDeltaSidecarUnchecked crc32 es).length < 2 ^ 64 →
      ∃ sidecar, openSidecar (encodeSortedDegreeDeltaSidecarUnchecked crc32 es) = .ok sidecar ∧
        ∀ id, sidecar.lookup id = (deltaOf es id).getD .zero) ∧
    ∀ (lists : List (List Entry)) (payloads : List (List UInt8)),
      lists.mapM (writeSortedDegreeDeltaSidecarPayload crc32) = .ok payloads → (payloads.map List.length).sum < 2 ^ 64 →
      ∃ sidecars bytes folded, payloads.mapM openSidecar = .ok sidecars ∧
        writeFoldedDegreeDeltaSidecarPayloadFromSidecars add crc32 sidecars = .ok bytes ∧
        validateDegreeSidecar crc32 bytes = .ok () ∧ openSidecar bytes = .ok folded ∧
        ∀ id, folded.lookup id =
            (let sum := total add (lists.filterMap fun es => deltaOf es id) .zero
            if sum.isZero then .zero else sum) ∧
          ∀ delta, (id, delta) ∈ folded.entries ↔
            delta = total add (lists.filterMap fun es => deltaOf es id) .zero ∧ delta.isZero = false := by
  refine ⟨fun es hsort hfits => ⟨_, openSidecar_encode hfits, lookup_opened crc32 hsort⟩, fun lists payloads hwr hfits => ?_⟩
  rw [mapM_ok] at hwr
  have hls : ∀ es ∈ lists, Ascending nodeId es ∧ ∀ entry ∈ es, entry.2.isZero = false := by
    intro es hes
    obtain ⟨payload, -, hpay⟩ := forall₂_mem hwr hes
    exact ⟨(written_ok hpay).1, (written_ok hpay).2.1⟩
  obtain rfl : lists.map (encodeSortedDegreeDeltaSidecarUnchecked crc32) = payloads := by
    rw [← forall₂_eq_eq_eq, forall₂_map_left_iff]
    exact hwr.imp fun _ _ hpay => (written_ok hpay).2.2
  rw [List.map_map] at hfits
  have hsort : ∀ es ∈ lists, Ascending nodeId es := fun es hes => (hls es hes).1
  have hmrg : SortedMerges.Ordered nodeId (mergeAll nodeId lists) :=
    ordered_mergeAll fun es hes => (hsort es hes).imp le_of_lt
  have heach : ∀ es ∈ lists, (encodeSortedDegreeDeltaSidecarUnchecked crc32 es).length < 2 ^ 64 :=
    fun es hes => (le_sum_of_mem (mem_map_of_mem hes)).trans_lt hfits
  obtain ⟨hasc, hlen, hmem⟩ := @foldDegreeCursors_spec add lists _ le_rfl hmrg
  rw [length_mergeAll] at hlen
  have hcurs : (lists.map (openedSidecar crc32)).map (·.entries) = lists := by
    rw [List.map_map]
    exact (map_congr_left fun es _ => entries_opened crc32 es).trans (List.map_id _)
  have hopen : (lists.map (encodeSortedDegreeDeltaSidecarUnchecked crc32)).mapM openSidecar =
      .ok (lists.map (openedSidecar crc32)) := by
    rw [mapM_ok, forall₂_map_left_iff, forall₂_map_right_iff, forall₂_same]
    exact fun es hes => openSidecar_encode (heach es hes)
  have hvd : (lists.map (openedSidecar crc32)).mapM (fun sidecar => validateDegreeSidecar crc32 sidecar.payload) =
      .ok ((lists.map (openedSidecar crc32)).map fun _ => ()) := by
    refine mapM_of_forall fun sidecar hside => ?_
    obtain ⟨es, hes, rfl⟩ := List.mem_map.mp hside
    exact validateDegreeSidecar_encode (hsort es hes) (hls es hes).2 (heach es hes)
  have hfolded := fits_folded hlen hfits
  refine ⟨_, _, _, hopen, ?_, validateDegreeSidecar_encode hasc (fun entry hent => ((hmem entry.1 entry.2).mp hent).2) hfolded,
    openSidecar_encode hfolded, fun id => ?_⟩
  · rw [writeFoldedDegreeDeltaSidecarPayloadFromSidecars, hvd, ok_bind]
    simp only [forEachFoldedDegreeEntry, hcurs, pushBlocks_eq]
    rfl
  · have hsum := hmem id
    rw [deltasAt_mergeAll hsort] at hsum
    rw [lookup_opened crc32 hasc, entries_opened]
    refine ⟨?_, hsum⟩
    dsimp only
    split
    · rename_i hzero
      cases hdelta : deltaOf (foldDegreeCursors add (remaining lists) lists) id with
      | none => rfl
      | some delta =>
        obtain ⟨rfl, hnonz⟩ := (hsum delta).mp ((deltaOf_eq_some hasc).mp hdelta)
        rw [hzero] at hnonz
        cases hnonz
    · rename_i hnonz
      rw [(deltaOf_eq_some hasc).mpr ((hsum _).mpr ⟨rfl, Bool.eq_false_of_not_eq_true hnonz⟩)]
      rfl

/-- What the first sidecar has for node 3 is taken back by the second. -/
def cancelling : List (List Entry) := [[(3, ⟨1, 0, 0, 0, 0, 0, 0⟩), (7, ⟨0, 2, 0, 0, 0, 0, 0⟩)], [(3, ⟨-1, 0, 0, 0, 0, 0, 0⟩)]]

theorem degree_sidecars_exact_cancelling :
    (∀ es ∈ cancelling, ∃ sidecar, openSidecar (encodeSortedDegreeDeltaSidecarUnchecked crc32Fast es) = .ok sidecar ∧
      sidecar.lookup 5 = .zero) ∧
    ∃ sidecars bytes folded, (cancelling.map (encodeSortedDegreeDeltaSidecarUnchecked crc32Fast)).mapM openSidecar = .ok sidecars ∧
      writeFoldedDegreeDeltaSidecarPayloadFromSidecars (fun a b => if b = 0 then a else b) crc32Fast sidecars = .ok bytes ∧
      openSidecar bytes = .ok folded ∧ folded.lookup 3 = .zero ∧ folded.lookup 7 = ⟨0, 2, 0, 0, 0, 0, 0⟩ := by
  obtain ⟨hone, hfold⟩ := degree_sidecars_exact crc32Fast fun a b => if b = 0 then a else b
  constructor
  · intro es hes
    have hlist : (es.Pairwise fun a b => nodeId a < nodeId b) ∧ es.length ≤ 2 ∧ deltaOf es 5 = none := by
      revert es
      decide
    obtain ⟨sidecar, hopen, hlk⟩ := hone es hlist.1 (by rw [length_encode]; omega)
    exact ⟨sidecar, hopen, by rw [hlk, hlist.2.2]; rfl⟩
  · obtain ⟨sidecars, bytes, folded, hopen, hwr, -, hfolded, hat⟩ := hfold cancelling
      (cancelling.map (encodeSortedDegreeDeltaSidecarUnchecked crc32Fast)) rfl (by simp [cancelling, length_encode])
    exact ⟨sidecars, bytes, folded, hopen, hwr, hfolded, (hat 3).1.trans (by decide), (hat 7).1.trans (by decide)⟩

end

end OverGraph.DegreeSidecars
