import OverGraph.WalCodec
import OverGraph.WalFrames

/-!
# Log files

A file of the log is a header and frames: a length, a checksum, and the sequence number with the
encoded operation. The reader takes frames until one does not fit, fails its checksum, or does
not continue an open batch.
-/

namespace OverGraph.WalFiles
open Records ByteReaders WalCodec WalFrames Fallible List Except Nat

def walMagic : List UInt8 := [79, 86, 71, 82]

def walVersion : ℕ := 3

def walHeaderSize : ℕ := 8

/-- The most bytes that a record can have for the reader. -/
def maxWalRecordSize : ℕ := 64 * 1024 * 1024

def walHeader : List UInt8 := walMagic ++ writeU32 walVersion

section
variable (ser : PropsSerializer) (crc32 : List UInt8 → BitVec 32)

/-- The part of a frame that the checksum protects. -/
def payload (engineSeq : ℕ) (op : WalOp) : Except EngineError (List UInt8) := do
  let bytes ← encodeWalOp ser op
  .ok (writeU64 engineSeq ++ bytes)

/-- The length field has 32 bits. -/
def frameBytes (payload : List UInt8) : List UInt8 := writeU32 payload.length ++ (writeU32 (crc32 payload).toNat ++ payload)

def encodeFrame (engineSeq : ℕ) (op : WalOp) : Except EngineError (List UInt8) := do
  let bytes ← payload ser engineSeq op
  .ok (frameBytes crc32 bytes)

def encodeFrames : List SeqOp → Except EngineError (List UInt8)
  | [] => .ok []
  | (seq, op) :: frames => do
    let frame ← encodeFrame ser crc32 seq op
    let rest ← encodeFrames frames
    .ok (frame ++ rest)

/-- The sequence numbers of a batch count up from the first. -/
def checkContiguous : ℕ → List SeqOp → Except EngineError Unit
  | _, [] => .ok ()
  | expected, op :: ops =>
    if u64Max < expected then .error (.invalidOperation "atomic WAL batch sequence range overflows u64")
    else if op.1 = expected then checkContiguous (expected + 1) ops
    else .error (.invalidOperation "atomic WAL batch sequences must be contiguous")

/-- The frames that an append writes. -/
def batchFrames (ops : List SeqOp) : Except EngineError (List SeqOp) :=
  match ops with
  | [] => .ok []
  | [op] => .ok [op]
  | op :: next :: rest =>
    let batch := op :: next :: rest
    if u32Max < batch.length then .error (.invalidOperation "atomic WAL batch op_count exceeds u32::MAX")
    else if op.1 = 0 then .error (.invalidOperation "atomic WAL batch first sequence must be nonzero")
    else match checkContiguous op.1 batch with
      | .error err => .error err
      | .ok () => .ok ((op.1, .beginAtomicBatch op.1 batch.length) :: batch ++ [(op.1, .commitAtomicBatch op.1 batch.length)])

/-- Append one operation, or several as one batch. -/
inductive Append where
  | single (engineSeq : ℕ) (op : WalOp)
  | batch (ops : List SeqOp)

def Append.ops : Append → List SeqOp
  | .single engineSeq op => [(engineSeq, op)]
  | .batch ops => ops

def appendBytes (call : Append) : Except EngineError (List UInt8) :=
  match call with
  | .single engineSeq op => encodeFrame ser crc32 engineSeq op
  | .batch ops => do
    let frames ← batchFrames ops
    encodeFrames ser crc32 frames

/-- The bytes that a run of appends adds, if all are accepted. -/
def appendAll : List Append → Except EngineError (List UInt8)
  | [] => .ok []
  | call :: calls => do
    let bytes ← appendBytes ser crc32 call
    let rest ← appendAll calls
    .ok (bytes ++ rest)

def validateWalHeader (header : List UInt8) : Except EngineError Unit :=
  if header.take 4 ≠ walMagic then
    .error (.corruptWal ("invalid WAL magic: expected " ++ toString walMagic ++ ", got " ++ toString (header.take 4)))
  else if fromLe (header.drop 4) ≠ walVersion then
    .error (.corruptWal ("unsupported WAL version: expected " ++ toString walVersion ++ ", got " ++ toString (fromLe (header.drop 4))))
  else .ok ()

def nextFrame (bytes : List UInt8) : Option (List UInt8 × List UInt8) :=
  if bytes.length < 4 then none
  else
    let payloadLen := fromLe (bytes.take 4)
    if payloadLen = 0 || decide (maxWalRecordSize < payloadLen) then none
    else if bytes.length < 8 + payloadLen then none
    else
      let payload := (bytes.drop 8).take payloadLen
      if (crc32 payload).toNat ≠ fromLe ((bytes.drop 4).take 4) then none
      else if payload.length < 8 then none
      else some (payload, bytes.drop (8 + payloadLen))

def isBatchMark : OpTag → Bool
  | .beginAtomicBatch | .commitAtomicBatch => true
  | _ => false

/-- An operation that cannot be decoded ends the log, or makes it corrupt. -/
def decodeFailure (st : ReadState) (walopBytes : List UInt8) (err : EngineError) : Except EngineError ReadState :=
  match walopBytes.head?.bind fun tag => OpTag.fromU8 tag.toNat with
  | none => .ok st
  | some tag =>
    if isBatchMark tag || st.openBatch.isSome then .ok st
    else .error (.corruptWal ("failed to decode WAL record: " ++ err.display))

def readFrames : ℕ → ReadState → List UInt8 → Except EngineError ReadState
  | 0, st, _ => .ok st
  | fuel + 1, st, bytes =>
    match nextFrame crc32 bytes with
    | none => .ok st
    | some (payload, rest) =>
      match decodeWalOp ser (payload.drop 8) with
      | .error err => decodeFailure st (payload.drop 8) err
      | .ok op =>
        match readStep st (st.pos + 8 + payload.length) (fromLe (payload.take 8), op) with
        | none => .ok st
        | some st => readFrames fuel st rest

/-- The records of a file and the length of its durable part. -/
def readPath (file : List UInt8) : Except EngineError WalReadResult :=
  if file.length = 0 then .ok ⟨[], 0⟩
  else if file.length < walHeaderSize then .error (.corruptWal "WAL file too small for header")
  else match validateWalHeader (file.take walHeaderSize) with
    | .error err => .error err
    | .ok () =>
      match readFrames ser crc32 file.length ⟨[], none, walHeaderSize, walHeaderSize⟩ (file.drop walHeaderSize) with
      | .error err => .error err
      | .ok st => .ok ⟨st.records, st.durableLen⟩

/-- Open a file for appending: an empty one gets a header. -/
def openGeneration (file : List UInt8) : Except EngineError (List UInt8) :=
  if file.length = 0 then .ok walHeader
  else if file.length < walHeaderSize then .error (.corruptWal "WAL file too small for header")
  else match validateWalHeader (file.take walHeaderSize) with
    | .error err => .error err
    | .ok () => .ok file

def truncateWalGenerationTo (file : List UInt8) (durableLen : ℕ) : List UInt8 := file.take durableLen

end

/-- The record that the log keeps of an operation. -/
def logged (op : SeqOp) : SeqOp := (op.1, asLogged op.2)

/-- Several operations stand between control frames. -/
def framesOf : List SeqOp → List SeqOp
  | [] => []
  | [op] => [op]
  | op :: next :: rest =>
    let batch := op :: next :: rest
    (op.1, .beginAtomicBatch op.1 batch.length) :: batch ++ [(op.1, .commitAtomicBatch op.1 batch.length)]

/-- The records of the frames that a run of appends writes. -/
def writtenRecords (calls : List Append) : List SeqOp := (calls.flatMap fun call => framesOf call.ops).map logged

/-- The operations of a run of appends, as the log keeps them. -/
def writtenOps (calls : List Append) : List SeqOp := (calls.flatMap Append.ops).map logged

variable {frames : List SeqOp}

section
variable (ser : PropsSerializer) (crc32 : List UInt8 → BitVec 32)

def payloadOf (frame : SeqOp) : List UInt8 := (payload ser frame.1 frame.2).toOption.getD []

def Encodes (frame : SeqOp) : Prop := payload ser frame.1 frame.2 = .ok (payloadOf ser frame)

def bytesOf (frames : List SeqOp) : List UInt8 := frames.flatMap fun frame => frameBytes crc32 (payloadOf ser frame)

/-- The reader accepts records of the size. -/
def Fits (frame : SeqOp) : Prop := (payloadOf ser frame).length ≤ maxWalRecordSize

variable {ser crc32} {bytes : List UInt8}

theorem encodes_of_payload {frame : SeqOp} (h : payload ser frame.1 frame.2 = .ok bytes) :
    payloadOf ser frame = bytes ∧ Encodes ser frame := by
  have heq : payloadOf ser frame = bytes := by
    rw [payloadOf, h]
    rfl
  rw [Encodes, heq]
  exact ⟨rfl, h⟩

theorem encodeFrames_ok (h : encodeFrames ser crc32 frames = .ok bytes) :
    bytes = bytesOf ser crc32 frames ∧ ∀ frame ∈ frames, Encodes ser frame := by
  induction frames generalizing bytes with
  | nil =>
    rw [← ok.inj h]
    exact ⟨rfl, fun frame hfrm => (not_mem_nil hfrm).elim⟩
  | cons frame frames ih =>
    rw [encodeFrames, encodeFrame] at h
    obtain ⟨_, hfrm, h⟩ := bind_ok h
    obtain ⟨fst, hpayl, hfrm⟩ := bind_ok hfrm
    obtain rfl := ok.inj hfrm
    obtain ⟨rest, hrest, h⟩ := bind_ok h
    obtain ⟨hfst, hencs⟩ := encodes_of_payload hpayl
    obtain ⟨hbs, hall⟩ := ih hrest
    rw [← ok.inj h, bytesOf, flatMap_cons, hfst, ← bytesOf, ← hbs]
    refine ⟨rfl, fun other hoth => ?_⟩
    rcases mem_cons.mp hoth with rfl | hoth
    · exact hencs
    · exact hall other hoth

theorem checkContiguous_ok {expected : ℕ} {ops : List SeqOp} (h : checkContiguous expected ops = .ok ()) :
    contiguous expected ops = true := by
  induction ops generalizing expected with
  | nil => rfl
  | cons op ops ih =>
    rw [checkContiguous] at h
    split at h
    · cases h
    · split at h
      · rename_i hbd heq
        rw [contiguous, ih h, heq]
        simp
        omega
      · cases h

theorem batchFrames_ok {ops : List SeqOp} (h : batchFrames ops = .ok frames) :
    frames = framesOf ops ∧ appendBatch ops = some frames := by
  match ops with
  | [] =>
    rw [← ok.inj h]
    exact ⟨rfl, rfl⟩
  | [op] =>
    rw [← ok.inj h]
    exact ⟨rfl, rfl⟩
  | op :: next :: rest =>
    simp only [batchFrames] at h
    split at h
    · cases h
    · split at h
      · cases h
      · rename_i hcnt hfst
        split at h
        · cases h
        · rename_i hcheck
          rw [← ok.inj h]
          refine ⟨rfl, ?_⟩
          have hctg := checkContiguous_ok hcheck
          have hreje : ¬(decide (u32Max < (op :: next :: rest).length) || op.1 == 0 ||
              !contiguous op.1 (op :: next :: rest)) = true := by
            rw [hctg]
            simp only [Bool.not_true, Bool.or_false, Bool.or_eq_true, decide_eq_true_eq, beq_iff_eq, not_or]
            exact ⟨hcnt, hfst⟩
          simp only [appendBatch]
          rw [if_neg hreje]

theorem appendBytes_ok {call : Append} (h : appendBytes ser crc32 call = .ok bytes) :
    bytes = bytesOf ser crc32 (framesOf call.ops) ∧ (∀ frame ∈ framesOf call.ops, Encodes ser frame) ∧
      appendBatch call.ops = some (framesOf call.ops) := by
  cases call with
  | single engineSeq op =>
    have hfrs : encodeFrames ser crc32 [(engineSeq, op)] = .ok bytes := by
      have hcall : encodeFrame ser crc32 engineSeq op = .ok bytes := h
      rw [encodeFrames, hcall]
      show Except.ok (bytes ++ []) = _
      rw [append_nil]
    obtain ⟨hbs, hencs⟩ := encodeFrames_ok hfrs
    exact ⟨hbs, hencs, rfl⟩
  | batch ops =>
    rw [appendBytes] at h
    obtain ⟨frames, hbatch, h⟩ := bind_ok h
    obtain ⟨hfrs, hap⟩ := batchFrames_ok hbatch
    obtain ⟨hbs, hencs⟩ := encodeFrames_ok h
    rw [hfrs] at hbs hencs hap
    exact ⟨hbs, hencs, hap⟩

def rawFrames (calls : List Append) : List SeqOp := calls.flatMap fun call => framesOf call.ops

theorem appendAll_ok {calls : List Append} (h : appendAll ser crc32 calls = .ok bytes) :
    bytes = bytesOf ser crc32 (rawFrames calls) ∧ (∀ frame ∈ rawFrames calls, Encodes ser frame) ∧
      ∀ call ∈ calls, appendBatch call.ops = some (framesOf call.ops) := by
  induction calls generalizing bytes with
  | nil =>
    rw [← ok.inj h]
    exact ⟨rfl, fun frame hfrm => (not_mem_nil hfrm).elim, fun call hcall => (not_mem_nil hcall).elim⟩
  | cons call calls ih =>
    rw [appendAll] at h
    obtain ⟨fst, hcall, h⟩ := bind_ok h
    obtain ⟨rest, hrest, h⟩ := bind_ok h
    obtain ⟨hfst, hencs, hap⟩ := appendBytes_ok hcall
    obtain ⟨hbs, hall, happd⟩ := ih hrest
    rw [← ok.inj h]
    refine ⟨?_, ?_, ?_⟩
    · show fst ++ rest = _
      rw [rawFrames, flatMap_cons, bytesOf, flatMap_append, hfst, hbs]
      rfl
    · intro frame hfrm
      rcases mem_append.mp hfrm with hfrm | hfrm
      · exact hencs frame hfrm
      · exact hall frame hfrm
    · intro other hoth
      rcases mem_cons.mp hoth with rfl | hoth
      · exact hap
      · exact happd other hoth

end

section
variable {ser : PropsSerializer} {crc32 : List UInt8 → BitVec 32}

@[simp] theorem length_frameBytes (payload : List UInt8) : (frameBytes crc32 payload).length = 8 + payload.length := by
  rw [frameBytes, length_append, length_append, length_writeU32, length_writeU32]
  omega

/-- What the reader makes of bytes behind a length and a checksum. -/
theorem nextFrame_header (len : ℕ) (crc : BitVec 32) (body : List UInt8) : nextFrame crc32 (writeU32 len ++ (writeU32 crc.toNat ++ body)) =
      if len % 2 ^ 32 = 0 || decide (maxWalRecordSize < len % 2 ^ 32) then none
      else if body.length < len % 2 ^ 32 then none
      else if (crc32 (body.take (len % 2 ^ 32))).toNat ≠ crc.toNat then none
      else if (body.take (len % 2 ^ 32)).length < 8 then none
      else some (body.take (len % 2 ^ 32), body.drop (len % 2 ^ 32)) := by
  have hlength : (writeU32 len ++ (writeU32 crc.toNat ++ body)).length = 8 + body.length := by
    rw [length_append, length_append, length_writeU32, length_writeU32]
    omega
  have hlen : fromLe ((writeU32 len ++ (writeU32 crc.toNat ++ body)).take 4) = len % 2 ^ 32 := by
    rw [take_left' (length_writeU32 _), writeU32, fromLe_leBytes_mod, show 256 ^ 4 = 2 ^ 32 from rfl]
  have haft : (writeU32 len ++ (writeU32 crc.toNat ++ body)).drop 4 = writeU32 crc.toNat ++ body := drop_left' (length_writeU32 _)
  have hcrc : fromLe ((writeU32 crc.toNat ++ body).take 4) = crc.toNat := by
    rw [take_left' (length_writeU32 _), writeU32, fromLe_leBytes crc.isLt]
  have hdrop : ∀ n, (writeU32 len ++ (writeU32 crc.toNat ++ body)).drop (8 + n) = body.drop n := by
    intro n
    rw [← drop_drop, show 8 = 4 + 4 from rfl, ← drop_drop, haft, drop_left' (length_writeU32 _)]
  have hbody : (writeU32 len ++ (writeU32 crc.toNat ++ body)).drop 8 = body := hdrop 0
  have hsh : (8 + body.length < 8 + len % 2 ^ 32) ↔ (body.length < len % 2 ^ 32) := by omega
  rw [nextFrame, if_neg (by omega)]
  simp only [hlen, haft, hcrc, hbody, hdrop, hlength, hsh]

theorem nextFrame_fits {payload : List UInt8} (hsh : payload.length ≤ maxWalRecordSize) (hlong : 8 ≤ payload.length)
    (rest : List UInt8) : nextFrame crc32 (frameBytes crc32 payload ++ rest) = some (payload, rest) := by
  have hmod : payload.length % 2 ^ 32 = payload.length := by
    rw [maxWalRecordSize] at hsh
    omega
  rw [frameBytes, append_assoc, append_assoc, nextFrame_header, hmod, take_left, drop_left, if_neg, if_neg, if_neg, if_neg]
  · omega
  · simp
  · rw [length_append]
    omega
  · simp only [Bool.or_eq_true, decide_eq_true_eq, not_or]
    omega

/-- The length field of a very large frame wraps around; the checksum is not that of the bytes it then stands for. -/
def RejectsCut (crc32 : List UInt8 → BitVec 32) (payload : List UInt8) : Prop :=
  2 ^ 32 ≤ payload.length → crc32 (payload.take (payload.length % 2 ^ 32)) ≠ crc32 payload

/-- A frame that is too large is not read. -/
theorem nextFrame_oversize {payload : List UInt8} (hlarge : maxWalRecordSize < payload.length)
    (hcrc : RejectsCut crc32 payload) (rest : List UInt8) : nextFrame crc32 (frameBytes crc32 payload ++ rest) = none := by
  rw [frameBytes, append_assoc, append_assoc, nextFrame_header]
  split
  · rfl
  · rename_i hlen
    simp only [Bool.or_eq_true, decide_eq_true_eq, not_or, not_lt] at hlen
    split
    · rfl
    · have htake : (payload ++ rest).take (payload.length % 2 ^ 32) = payload.take (payload.length % 2 ^ 32) :=
        take_append_of_le_length (by omega)
      have hdiffer : (crc32 ((payload ++ rest).take (payload.length % 2 ^ 32))).toNat ≠ (crc32 payload).toNat := by
        rw [htake]
        exact fun heq => hcrc (by rw [maxWalRecordSize] at *; omega) (BitVec.eq_of_toNat_eq heq)
      rw [if_pos hdiffer]

/-- A frame that was cut short is not read. -/
theorem nextFrame_torn {payload cut : List UInt8} (hcut : cut <+: frameBytes crc32 payload)
    (hne : cut ≠ frameBytes crc32 payload) (hcrc : RejectsCut crc32 payload) : nextFrame crc32 cut = none := by
  have hlt : cut.length < (frameBytes crc32 payload).length := lt_of_le_of_ne hcut.length_le fun heq => hne (hcut.eq_of_length heq)
  rw [length_frameBytes] at hlt
  have hfront : cut = (frameBytes crc32 payload).take cut.length := prefix_iff_eq_take.mp hcut
  rcases lt_or_ge cut.length 8 with hhdr | hhdr
  · rw [nextFrame]
    split
    · rfl
    · dsimp only
      split
      · rfl
      · rename_i hlen
        simp only [Bool.or_eq_true, decide_eq_true_eq, not_or, not_lt] at hlen
        rw [if_pos (by omega)]
  · obtain ⟨m, hm⟩ : ∃ m, cut.length = 4 + (4 + m) := ⟨cut.length - 8, by omega⟩
    have hbody : cut = writeU32 payload.length ++ (writeU32 (crc32 payload).toNat ++ payload.take m) := by
      have hfst := length_writeU32 payload.length
      have hsnd := length_writeU32 (crc32 payload).toNat
      rw [hfront, hm, frameBytes]
      nth_rewrite 1 [← hfst]
      rw [take_length_add_append]
      nth_rewrite 1 [← hsnd]
      rw [take_length_add_append]
    rw [hbody, nextFrame_header]
    split
    · rfl
    · rename_i hlen
      simp only [Bool.or_eq_true, decide_eq_true_eq, not_or, not_lt] at hlen
      split
      · rfl
      · rename_i hlong
        rw [length_take, not_lt] at hlong
        have htake : (payload.take m).take (payload.length % 2 ^ 32) = payload.take (payload.length % 2 ^ 32) := by
          rw [take_take, min_eq_left (by omega)]
        have hdiffer : (crc32 ((payload.take m).take (payload.length % 2 ^ 32))).toNat ≠ (crc32 payload).toNat := by
          rw [htake]
          exact fun heq => hcrc (by omega) (BitVec.eq_of_toNat_eq heq)
        rw [if_pos hdiffer]

variable {frame : SeqOp}

theorem payload_ok {bytes : List UInt8} (h : payload ser frame.1 frame.2 = .ok bytes) :
    ∃ body, encodeWalOp ser frame.2 = .ok body ∧ bytes = writeU64 frame.1 ++ body := by
  rw [payload] at h
  obtain ⟨body, hbody, h⟩ := bind_ok h
  exact ⟨body, hbody, (ok.inj h).symm⟩

/-- A frame as the writer makes them. -/
structure Sound (ser : PropsSerializer) (frame : SeqOp) : Prop where
  encodes : Encodes ser frame
  seq : frame.1 < 2 ^ 64
  range : InRange frame.2

theorem Sound.body (h : Sound ser frame) : ∃ body, encodeWalOp ser frame.2 = .ok body ∧ payloadOf ser frame = writeU64 frame.1 ++ body :=
  payload_ok h.encodes

theorem Sound.long (h : Sound ser frame) : 8 ≤ (payloadOf ser frame).length := by
  obtain ⟨body, -, heq⟩ := h.body
  rw [heq, length_append, length_writeU64]
  omega

/-- A frame that fits is read as the record that the log keeps. -/
theorem Sound.read (h : Sound ser frame) (hfits : Fits ser frame) : fromLe ((payloadOf ser frame).take 8) = frame.1 ∧
      decodeWalOp ser ((payloadOf ser frame).drop 8) = .ok (asLogged frame.2) := by
  obtain ⟨body, hbody, heq⟩ := h.body
  have hsize : vectorBytes frame.2 < 2 ^ 32 := by
    have hvecs := (length_encodeWalOp hbody).2
    have hlen : (payloadOf ser frame).length ≤ maxWalRecordSize := hfits
    rw [heq, length_append, maxWalRecordSize] at hlen
    omega
  rw [heq, take_left' (length_writeU64 _), drop_left' (length_writeU64 _), writeU64, fromLe_leBytes h.seq]
  exact ⟨rfl, decodeWalOp_encodeWalOp h.range hsize hbody⟩

def mapPos (f : ℕ → ℕ) (st : ReadState) : ReadState := ⟨st.records, st.openBatch, f st.pos, f st.durableLen⟩

/-- The reader does the same wherever the frame ends. -/
theorem readStep_mapPos (f : ℕ → ℕ) (st : ReadState) (frameEnd : ℕ) (frame : SeqOp) :
    readStep (mapPos f st) (f frameEnd) frame = (readStep st frameEnd frame).map (mapPos f) := by
  obtain ⟨q, op⟩ := frame
  obtain ⟨records, openBatch, pos, durableLen⟩ := st
  cases openBatch with
  | none =>
    cases op <;> simp only [readStep, mapPos] <;> try rfl
    case beginAtomicBatch firstSeq opCount => cases ReadAtomicBatch.new firstSeq opCount <;> rfl
  | some batch =>
    cases op <;> simp only [readStep, mapPos, Option.bind_some] <;> try rfl
    case commitAtomicBatch firstSeq opCount => split <;> rfl
    all_goals cases batch.pushNormalOp q <;> rfl

theorem readStep_records {st st' : ReadState} {frameEnd : ℕ} (h : readStep st frameEnd frame = some st') :
    st'.records = st.records ++ [frame] ∧ st'.pos = frameEnd := by
  obtain ⟨q, op⟩ := frame
  cases op <;> simp only [readStep] at h
  case beginAtomicBatch firstSeq opCount =>
    split at h
    · cases h
    · obtain ⟨batch, -, rfl⟩ := Option.map_eq_some_iff.mp h
      exact ⟨rfl, rfl⟩
  case commitAtomicBatch firstSeq opCount =>
    obtain ⟨batch, -, h⟩ := Option.bind_eq_some_iff.mp h
    split at h
    · rw [← Option.some.inj h]
      exact ⟨rfl, rfl⟩
    · cases h
  all_goals
    split at h
    · obtain ⟨batch, -, rfl⟩ := Option.map_eq_some_iff.mp h
      exact ⟨rfl, rfl⟩
    · rw [← Option.some.inj h]
      exact ⟨rfl, rfl⟩

/-- The offset in the file of the end of the first frames. -/
def offset (ser : PropsSerializer) (crc32 : List UInt8 → BitVec 32) (frames : List SeqOp) (n : ℕ) : ℕ :=
  walHeaderSize + (bytesOf ser crc32 (frames.take n)).length

theorem offset_succ {done more : List SeqOp} : offset ser crc32 (done ++ frame :: more) (done.length + 1) =
      offset ser crc32 (done ++ frame :: more) done.length + 8 + (payloadOf ser frame).length := by
  have hdone : (done ++ frame :: more).take done.length = done := take_left
  have hnext : (done ++ frame :: more).take (done.length + 1) = done ++ [frame] := by rw [append_cons, take_left' (by simp)]
  rw [offset, offset, hdone, hnext, bytesOf, flatMap_append, length_append, flatMap_singleton, length_frameBytes, ← bytesOf]
  omega

/-- The reader goes through whole frames like the loop over their records. -/
theorem readFrames_whole {all done whole more : List SeqOp} (hall : all = done ++ (whole ++ more))
    (hgood : ∀ frame ∈ whole, Sound ser frame ∧ Fits ser frame) {st : ReadState} (hpos : st.pos = done.length)
    (hrecs : (readLoop st (whole.map logged)).records = st.records ++ whole.map logged) (fuel : ℕ) (torn : List UInt8) :
    readFrames ser crc32 (whole.length + fuel) (mapPos (offset ser crc32 all) st)
        (bytesOf ser crc32 whole ++ torn) =
      readFrames ser crc32 fuel (mapPos (offset ser crc32 all) (readLoop st (whole.map logged))) torn := by
  induction whole generalizing done st with
  | nil =>
    rw [length_nil, Nat.zero_add]
    rfl
  | cons frame whole ih =>
    obtain ⟨hsd, hfits⟩ := hgood frame mem_cons_self
    obtain ⟨hseq, hdecode⟩ := hsd.read hfits
    have hbs : bytesOf ser crc32 (frame :: whole) ++ torn =
        frameBytes crc32 (payloadOf ser frame) ++ (bytesOf ser crc32 whole ++ torn) := by
      rw [bytesOf, flatMap_cons, append_assoc]
      rfl
    have hend : (mapPos (offset ser crc32 all) st).pos + 8 + (payloadOf ser frame).length = offset ser crc32 all (st.pos + 1) := by
      rw [mapPos, hpos, hall, cons_append, offset_succ]
    have hloop : readLoop st ((frame :: whole).map logged) =
        (readStep st (st.pos + 1) (logged frame)).elim st fun st => readLoop st (whole.map logged) := by
      rewrite [map_cons, readLoop]
      cases readStep st (st.pos + 1) (logged frame) with
      | none | some next => rfl
    rw [hloop] at hrecs ⊢
    have hstep := readStep_mapPos (offset ser crc32 all) st (st.pos + 1) (logged frame)
    rw [length_cons, add_right_comm, readFrames, hbs, nextFrame_fits hfits hsd.long]
    dsimp only
    rw [hdecode]
    dsimp only
    rw [hseq, hend, show (frame.1, asLogged frame.2) = logged frame from rfl, hstep]
    cases hread : readStep st (st.pos + 1) (logged frame) with
    | none =>
      rw [hread] at hrecs
      have hlen : st.records.length = (st.records ++ (frame :: whole).map logged).length := congrArg List.length hrecs
      rw [length_append, length_map, length_cons] at hlen
      omega
    | some st' =>
      rw [hread] at hrecs
      obtain ⟨hst, hpos'⟩ := readStep_records hread
      have hdone : all = (done ++ [frame]) ++ (whole ++ more) := by
        rw [hall, append_assoc]
        rfl
      refine ih hdone (fun other hoth => hgood other (mem_cons_of_mem _ hoth)) ?_ ?_
      · rw [hpos', hpos, length_append, length_singleton]
      · rw [Option.elim_some] at hrecs
        rw [hrecs, hst, append_assoc]
        rfl

theorem nextFrame_nil : nextFrame crc32 [] = none := rfl

/-- A cut of the bytes has a number of whole frames, and then nothing that can be read. -/
theorem cut_frames (hcrc : ∀ frame ∈ frames, RejectsCut crc32 (payloadOf ser frame))
    {cut : List UInt8} (hcut : cut <+: bytesOf ser crc32 frames) :
    ∃ whole more torn, frames = whole ++ more ∧ (∀ frame ∈ whole, Fits ser frame) ∧
      cut = bytesOf ser crc32 whole ++ torn ∧ nextFrame crc32 torn = none := by
  induction frames generalizing cut with
  | nil =>
    obtain rfl := prefix_nil.mp hcut
    exact ⟨[], [], [], rfl, fun frame hfrm => (not_mem_nil hfrm).elim, rfl, nextFrame_nil⟩
  | cons frame frames ih =>
    have hfst := hcrc frame mem_cons_self
    rw [bytesOf, flatMap_cons, ← bytesOf] at hcut
    by_cases hread : frameBytes crc32 (payloadOf ser frame) <+: cut
    · obtain ⟨left, rfl⟩ := hread
      by_cases hfits : Fits ser frame
      · obtain ⟨whole, more, torn, hfrs, hall, hleft, hnone⟩ :=
          ih (fun other hoth => hcrc other (mem_cons_of_mem _ hoth)) ((prefix_append_right_inj _).mp hcut)
        refine ⟨frame :: whole, more, torn, by rw [hfrs]; rfl, ?_, ?_, hnone⟩
        · intro other hoth
          rcases mem_cons.mp hoth with rfl | hoth
          · exact hfits
          · exact hall other hoth
        · rw [hleft, bytesOf, bytesOf, flatMap_cons, append_assoc]
      · exact ⟨[], frame :: frames, _, rfl, fun other hoth => (not_mem_nil hoth).elim, rfl,
          nextFrame_oversize (Nat.not_le.mp hfits) hfst left⟩
    · have hpart : cut <+: frameBytes crc32 (payloadOf ser frame) :=
        (List.prefix_or_prefix_of_prefix hcut (prefix_append _ _)).resolve_right hread
      have hne : cut ≠ frameBytes crc32 (payloadOf ser frame) := fun heq => hread (heq ▸ prefix_refl _)
      exact ⟨[], frame :: frames, cut, rfl, fun other hoth => (not_mem_nil hoth).elim, rfl, nextFrame_torn hpart hne hfst⟩

end

end OverGraph.WalFiles
