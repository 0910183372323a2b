import OverGraph.Runs
import OverGraph.WalReading

/-!
# Appends and syncs that fail

A write to the log may fail after some of its bytes went out, and a sync may fail after some of the
buffer reached the file. The engine goes on: a call that failed does not use up its sequence
numbers, and the next call writes behind whatever went out.
-/

namespace OverGraph.WalFailures
open Option hiding mem_map
open Records WalCodec WalFrames WalFiles WalReading Runs List

/-- The file, the buffer in front of it, and how much of the file has been synced. -/
structure WalWriter where
  file : List UInt8
  buffer : List UInt8
  synced : ℕ

/-- How a write goes: how much of the buffer it moves to the file, and after how many of its bytes it fails. -/
structure WriteIo where
  moved : ℕ
  failsAfter : Option ℕ

/-- How a sync goes: it covers the file, or fails after it moved some of the buffer. -/
inductive SyncIo where
  | done
  | fails (moved : ℕ)

namespace WalWriter

/-- What goes out of the bytes of a write. -/
def emitted (bytes : List UInt8) (io : WriteIo) : List UInt8 := io.failsAfter.elim bytes bytes.take

def writeAll (w : WalWriter) (bytes : List UInt8) (io : WriteIo) : WalWriter :=
  let all := w.buffer ++ emitted bytes io
  { w with file := w.file ++ all.take io.moved, buffer := all.drop io.moved }

/-- Flush the buffer and sync the file. What a failed flush did not write stays in the buffer. -/
def sync (w : WalWriter) : SyncIo → WalWriter
  | .done => ⟨w.file ++ w.buffer, [], (w.file ++ w.buffer).length⟩
  | .fails moved => { w with file := w.file ++ w.buffer.take moved, buffer := w.buffer.drop moved }

end WalWriter

inductive WalSyncMode where
  | immediate
  | groupCommit (hardCapBytes : ℕ)

def maxSyncFailures : ℕ := 5

/-- An operation of a write plan: no mark of a batch, and its fields have the ranges of their types. -/
structure PlannedOp where
  op : WalOp
  plain : isControl op = false
  inRange : InRange op

/-- A call of the engine: one operation, or several as one batch. -/
inductive Call where
  | one (op : PlannedOp)
  | many (ops : List PlannedOp)

def Call.planned : Call → List PlannedOp
  | .one op => [op]
  | .many ops => ops

/-- The append of a call behind the last sequence number. -/
def Call.append (engineSeq : ℕ) : Call → Append
  | .one op => .single (engineSeq + 1) op.op
  | .many ops => .batch (ops.zipIdx.map fun entry => (engineSeq + 1 + entry.2, entry.1.op))

/-- The log of an engine, with the appends that were acknowledged, how many of them a sync followed,
and those that were refused. -/
structure LogState where
  mode : WalSyncMode
  wal : WalWriter
  bufferedBytes : ℕ
  syncErrorCount : ℕ
  poisoned : Option String
  engineSeq : ℕ
  acknowledged : List Append
  covered : ℕ
  refused : List Append

/-- A new log: the header is written and synced. -/
def LogState.opened (mode : WalSyncMode) : LogState := ⟨mode, ⟨walHeader, [], walHeaderSize⟩, 0, 0, none, 0, [], 0, []⟩

inductive Event where
  | write (call : Call) (io : WriteIo) (syncIo : SyncIo)
  | sync (io : SyncIo)
  | threadSync (io : SyncIo)
  | shutdownSync (io : SyncIo)

section
variable (ser : PropsSerializer) (crc32 : List UInt8 → BitVec 32)

namespace LogState

def refuse (s : LogState) (call : Append) : LogState := { s with refused := s.refused ++ [call] }

def acknowledge (s : LogState) (call : Append) : LogState :=
  { s with engineSeq := s.engineSeq + call.ops.length, acknowledged := s.acknowledged ++ [call] }

/-- Everything acknowledged so far is followed by a sync. -/
def cover (s : LogState) : LogState := { s with covered := s.acknowledged.length }

/-- The append itself, and in the immediate mode the sync behind it. -/
def append (s : LogState) (call : Append) (bytes : List UInt8) (io : WriteIo) (syncIo : SyncIo) : LogState :=
  let written := { s with wal := s.wal.writeAll bytes io }
  match io.failsAfter with
  | some _ => written.refuse call
  | none =>
    match s.mode with
    | .immediate =>
      let synced := { written with wal := written.wal.sync syncIo }
      match syncIo with
      | .done => (synced.acknowledge call).cover
      | .fails _ => synced.refuse call
    | .groupCommit _ => { written with bufferedBytes := written.bufferedBytes + bytes.length }.acknowledge call

def isPoisoned (s : LogState) : Bool :=
  match s.mode with
  | .immediate => false
  | .groupCommit _ => s.poisoned.isSome

/-- A writer waits at the hard cap. -/
def isBlocked (s : LogState) : Bool :=
  match s.mode with
  | .immediate => false
  | .groupCommit hardCapBytes => decide (hardCapBytes ≤ s.bufferedBytes)

/-- A call does not go on at the hard cap, nor past the last sequence number. -/
def write (s : LogState) (call : Call) (io : WriteIo) (syncIo : SyncIo) : Option LogState :=
  let append := call.append s.engineSeq
  if s.isPoisoned then some (s.refuse append)
  else if s.isBlocked || decide (2 ^ 64 ≤ s.engineSeq + 1 + call.planned.length) then none
  else match appendBytes ser crc32 append with
    | .error _ => some (s.refuse append)
    | .ok bytes => some (s.append append bytes io syncIo)

def syncBuffered (s : LogState) (io : SyncIo) : LogState :=
  if s.bufferedBytes = 0 then s
  else
    let synced := { s with wal := s.wal.sync io }
    match io with
    | .done => { synced with bufferedBytes := 0, syncErrorCount := 0 }.cover
    | .fails _ => synced

/-- A caller's sync; a poisoned engine refuses it. -/
def syncCall (s : LogState) (io : SyncIo) : LogState :=
  match s.mode with
  | .immediate => s
  | .groupCommit _ => if s.poisoned.isSome then s else s.syncBuffered io

/-- The sync thread counts failures in a row, and poisons the engine at the fifth. -/
def threadSync (s : LogState) (io : SyncIo) : Option LogState :=
  match s.mode with
  | .immediate => none
  | .groupCommit _ =>
    if s.poisoned.isSome then none
    else
      let synced := s.syncBuffered io
      match io with
      | .done => some synced
      | .fails _ =>
        if s.bufferedBytes = 0 then some s
        else
          let count := s.syncErrorCount + 1
          some { synced with
            syncErrorCount := count
            poisoned := if maxSyncFailures ≤ count then
                some ("WAL sync failed " ++ toString count ++ " consecutive times")
              else none }

/-- The last sync when the engine is closed, also of a poisoned one. -/
def shutdownSync (s : LogState) (io : SyncIo) : LogState :=
  match s.mode with
  | .immediate => s
  | .groupCommit _ => s.syncBuffered io

def step (s : LogState) : Event → Option LogState
  | .write call io syncIo => s.write ser crc32 call io syncIo
  | .sync io => some (s.syncCall io)
  | .threadSync io => s.threadSync io
  | .shutdownSync io => some (s.shutdownSync io)

end LogState

/-- Whatever a crash leaves of the file beyond what was synced, the reader returns a beginning of the
acknowledged operations under their sequence numbers, with all that a sync followed, and so nothing
of a call that was refused. -/
def Recovers (s : LogState) : Prop :=
  ∀ cut, cut <+: s.wal.file → s.wal.synced ≤ cut.length → ∃ res, readPath ser crc32 cut = .ok res ∧
    plainRecords res.records <+: writtenOps s.acknowledged ∧
    writtenOps (s.acknowledged.take s.covered) <+: plainRecords res.records

/-- A write that fails has emitted nothing, no write fails in its sync, and its records are not
larger than the reader accepts. -/
def Clean (s : LogState) : Event → Prop
  | .write call io syncIo => (∀ n, io.failsAfter = some n → n = 0) ∧ (s.mode = .immediate → syncIo = .done) ∧
      ∀ op ∈ (call.append s.engineSeq).ops, Fits ser op
  | _ => True

end

section
variable {ser : PropsSerializer} {crc32 : List UInt8 → BitVec 32}

/-- What covers a number of whole appends gives all their records. -/
theorem readPath_covered {calls : List Append} {bytes cut : List UInt8} {covered : ℕ}
    (h : appendAll ser crc32 calls = .ok bytes) (hcalls : Wellformed calls)
    (hfits : ∀ frame ∈ rawFrames calls, Fits ser frame) (hcut : cut <+: bytes)
    (hcovs : (bytesOf ser crc32 (rawFrames (calls.take covered))).length ≤ cut.length) :
    ∃ res whole more, readPath ser crc32 (walHeader ++ cut) = .ok res ∧ res.records = whole.map logged ∧
      rawFrames calls = whole ++ more ∧ rawFrames (calls.take covered) <+: whole ∧ bytesOf ser crc32 whole <+: cut := by
  have hsd := sound_frames h hcalls
  have hcrc : ∀ frame ∈ rawFrames calls, RejectsCut crc32 (payloadOf ser frame) := by
    intro frame hfrm hwraps
    have hsh := hfits frame hfrm
    rw [Fits, maxWalRecordSize] at hsh
    omega
  have hbs := (appendAll_ok h).1
  have hsp : rawFrames calls = rawFrames (calls.take covered) ++ rawFrames (calls.drop covered) := by
    rw [← rawFrames_append, take_append_drop]
  rw [hbs] at hcut
  obtain ⟨whole, more, torn, hfrs, hwh, rfl, hnone⟩ := cut_frames hcrc hcut
  obtain ⟨kept, fuel, openBatch, pos, -, -, hread⟩ := readPath_frames h hcalls hfrs hwh torn
  rw [readFrames_stop _ _ hnone] at hread
  refine ⟨_, whole, more, hread, rfl, hfrs, ?_, prefix_append _ _⟩
  have hfst : rawFrames (calls.take covered) <+: rawFrames calls := by
    rw [hsp]
    exact prefix_append _ _
  have hbegin : whole <+: rawFrames calls := by
    rw [hfrs]
    exact prefix_append _ _
  rcases prefix_or_prefix_of_prefix hfst hbegin with hdone | hsh
  · exact hdone
  · obtain ⟨left, hleft⟩ := hsh
    cases left with
    | nil =>
      rewrite [← hleft, append_nil]
      exact prefix_rfl
    | cons frame rest =>
      -- the next frame is whole and fits, so that the reader would not have stopped
      exfalso
      have hmem : frame ∈ rawFrames calls := by
        apply hfst.subset
        rw [← hleft]
        exact mem_append_right _ mem_cons_self
      have hpart : bytesOf ser crc32 (frame :: rest) <+: torn := by
        have hall : bytesOf ser crc32 whole ++ bytesOf ser crc32 (frame :: rest) <+:
            bytesOf ser crc32 (rawFrames calls) := by
          rw [← bytesOf_append, hleft, hsp, bytesOf_append]
          exact prefix_append _ _
        have hlong : (bytesOf ser crc32 whole ++ bytesOf ser crc32 (frame :: rest)).length ≤
            (bytesOf ser crc32 whole ++ torn).length := by
          rw [← bytesOf_append, hleft]
          exact hcovs
        exact (prefix_append_right_inj _).mp (prefix_of_prefix_length_le hall hcut hlong)
      obtain ⟨tail, rfl⟩ := hpart
      rw [bytesOf, flatMap_cons, append_assoc, nextFrame_fits (hfits frame hmem) (hsd frame hmem).long] at hnone
      cases hnone

/-- The log of the acknowledged appends, and of nothing else. -/
structure Consistent (ser : PropsSerializer) (crc32 : List UInt8 → BitVec 32) (s : LogState) : Prop where
  stream : ∃ bytes, appendAll ser crc32 s.acknowledged = .ok bytes ∧ s.wal.file ++ s.wal.buffer = walHeader ++ bytes
  wellformed : Wellformed s.acknowledged
  fits : ∀ op ∈ s.acknowledged.flatMap Append.ops, Fits ser op
  header : walHeaderSize ≤ s.wal.synced
  covered_le : s.covered ≤ s.acknowledged.length
  covered : (walHeader ++ bytesOf ser crc32 (rawFrames (s.acknowledged.take s.covered))).length ≤ s.wal.synced

variable {s s' : LogState}

theorem Consistent.recovers (h : Consistent ser crc32 s) : Recovers ser crc32 s := by
  intro cut hcut hsync
  obtain ⟨bytes, hbs, hstrm⟩ := h.stream
  have hfile : cut <+: walHeader ++ bytes := by
    rw [← hstrm]
    exact hcut.trans (prefix_append _ _)
  have hhdr : walHeader.length ≤ cut.length := h.header.trans hsync
  obtain ⟨rest, rfl⟩ : walHeader <+: cut := prefix_of_prefix_length_le (prefix_append _ _) hfile hhdr
  have hcovs : (bytesOf ser crc32 (rawFrames (s.acknowledged.take s.covered))).length ≤ rest.length := by
    have hle := h.covered.trans hsync
    rw [length_append, length_append] at hle
    omega
  have hfrs := (fits_frames_iff hbs h.wellformed).mpr h.fits
  obtain ⟨res, whole, more, hread, hrecs, hwh, hbegin, -⟩ :=
    readPath_covered hbs h.wellformed hfrs ((prefix_append_right_inj _).mp hfile) hcovs
  refine ⟨res, hread, ?_, ?_⟩
  · rw [hrecs, ← plainRecords_written h.wellformed, writtenRecords, ← rawFrames, hwh, map_append]
    exact prefix_filter (prefix_append _ _)
  · rw [hrecs, ← plainRecords_written (h.wellformed.take s.covered), writtenRecords, ← rawFrames]
    exact prefix_filter (hbegin.map logged)

theorem consistent_opened (mode : WalSyncMode) : Consistent ser crc32 (LogState.opened mode) := by
  constructor
  case stream => exact ⟨[], rfl, rfl⟩
  case wellformed =>
    intro call hcall
    cases hcall
  case fits =>
    intro op hop
    cases hop
  case header => exact le_refl _
  case covered_le => exact le_refl _
  case covered => exact le_refl _

/-- The writer may move bytes from the buffer to the file. -/
theorem Consistent.move (h : Consistent ser crc32 s) (hack : s'.acknowledged = s.acknowledged)
    (hcov : s'.covered = s.covered) (hsync : s'.wal.synced = s.wal.synced)
    (hstrm : s'.wal.file ++ s'.wal.buffer = s.wal.file ++ s.wal.buffer) : Consistent ser crc32 s' := by
  constructor
  case stream =>
    rw [hack, hstrm]
    exact h.stream
  case wellformed => exact hack ▸ h.wellformed
  case fits => exact hack ▸ h.fits
  case header => exact hsync ▸ h.header
  case covered_le =>
    rw [hack, hcov]
    exact h.covered_le
  case covered =>
    rw [hack, hcov, hsync]
    exact h.covered

theorem writeAll_stream (w : WalWriter) (bytes : List UInt8) (io : WriteIo) :
    (w.writeAll bytes io).file ++ (w.writeAll bytes io).buffer = w.file ++ w.buffer ++ WalWriter.emitted bytes io := by
  unfold WalWriter.writeAll
  dsimp only
  rw [append_assoc, take_append_drop, append_assoc]

theorem sync_fails_stream (w : WalWriter) (moved : ℕ) :
    (w.sync (.fails moved)).file ++ (w.sync (.fails moved)).buffer = w.file ++ w.buffer := by
  unfold WalWriter.sync
  dsimp only
  rw [append_assoc, take_append_drop]

section
variable (h : Consistent ser crc32 s)
include h

/-- A whole append behind the stream may be acknowledged. -/
theorem Consistent.extend {call : Append} {bytes : List UInt8}
    (hbs : appendBytes ser crc32 call = .ok bytes) (hcall : Wellformed [call])
    (hfits : ∀ op ∈ call.ops, Fits ser op) (hack : s'.acknowledged = s.acknowledged ++ [call])
    (hcov : s'.covered = s.covered) (hsync : s'.wal.synced = s.wal.synced)
    (hstrm : s'.wal.file ++ s'.wal.buffer = s.wal.file ++ s.wal.buffer ++ bytes) : Consistent ser crc32 s' := by
  obtain ⟨fst, hfst, hold⟩ := h.stream
  have hone : appendAll ser crc32 [call] = .ok bytes := by
    rw [appendAll, hbs]
    show Except.ok (bytes ++ []) = _
    rw [append_nil]
  constructor
  case stream =>
    rw [hack, hstrm, hold, append_assoc]
    exact ⟨fst ++ bytes, appendAll_append.mpr ⟨fst, bytes, hfst, hone, rfl⟩, rfl⟩
  case wellformed => exact hack ▸ h.wellformed.append hcall
  case fits =>
    rw [hack, flatMap_append, flatMap_singleton]
    intro op hop
    rcases mem_append.mp hop with hop | hop
    · exact h.fits op hop
    · exact hfits op hop
  case header => exact hsync ▸ h.header
  case covered_le =>
    rw [hack, hcov, length_append]
    exact h.covered_le.trans (Nat.le_add_right _ _)
  case covered =>
    rw [hack, hcov, hsync, take_append_of_le_length h.covered_le]
    exact h.covered

/-- A sync that goes through covers everything acknowledged. -/
theorem Consistent.synced (hack : s'.acknowledged = s.acknowledged)
    (hcov : s'.covered = s.acknowledged.length) (hwal : s'.wal = s.wal.sync .done) : Consistent ser crc32 s' := by
  obtain ⟨bytes, hbs, hstrm⟩ := h.stream
  have hfile : s'.wal.file = walHeader ++ bytes := by
    rw [hwal, ← hstrm]
    rfl
  have hlen : s'.wal.synced = (walHeader ++ bytes).length := by
    rw [hwal, ← hstrm]
    rfl
  constructor
  case stream =>
    refine ⟨bytes, by rw [hack]; exact hbs, ?_⟩
    rw [hfile, hwal]
    exact append_nil _
  case wellformed => exact hack ▸ h.wellformed
  case fits => exact hack ▸ h.fits
  case header =>
    rw [hlen, length_append]
    exact Nat.le_add_right _ _
  case covered_le => rw [hcov, hack]
  case covered => rw [hcov, hack, take_length, hlen, (appendAll_ok hbs).1]

theorem Consistent.syncBuffered (io : SyncIo) : Consistent ser crc32 (s.syncBuffered io) := by
  unfold LogState.syncBuffered
  split
  · exact h
  · cases io with
    | done => exact h.synced rfl rfl rfl
    | fails moved => exact h.move rfl rfl rfl (sync_fails_stream s.wal moved)

end

theorem wellformed_append {engineSeq : ℕ} {call : Call} (hlast : engineSeq + 1 + call.planned.length < 2 ^ 64) :
    Wellformed [call.append engineSeq] := by
  intro append hap op hop
  obtain rfl := mem_singleton.mp hap
  cases call with
  | one planned =>
    obtain rfl := mem_singleton.mp hop
    refine ⟨planned.plain, ?_, planned.inRange⟩
    dsimp only [Call.planned, length_singleton] at hlast ⊢
    omega
  | many planned =>
    obtain ⟨⟨entry, i⟩, hent, rfl⟩ := mem_map.mp hop
    have hi := (mem_zipIdx hent).2.1
    refine ⟨entry.plain, ?_, entry.inRange⟩
    dsimp only [Call.planned] at hlast hi ⊢
    omega

theorem Consistent.write (h : Consistent ser crc32 s) {call : Call} {io : WriteIo} {syncIo : SyncIo}
    (hclean : Clean ser s (.write call io syncIo)) (hw' : s.write ser crc32 call io syncIo = some s') :
    Consistent ser crc32 s' := by
  obtain ⟨hnil, hsyncs, hfits⟩ := hclean
  unfold LogState.write at hw'
  dsimp only at hw'
  split at hw'
  · obtain rfl := some.inj hw'
    exact h.move rfl rfl rfl rfl
  · split at hw'
    · cases hw'
    · rename_i hgoes
      simp only [Bool.or_eq_true, decide_eq_true_eq, not_or, Nat.not_le] at hgoes
      cases hbs : appendBytes ser crc32 (call.append s.engineSeq) with
      | error err =>
        rw [hbs] at hw'
        obtain rfl := some.inj hw'
        exact h.move rfl rfl rfl rfl
      | ok bytes =>
        rw [hbs] at hw'
        obtain rfl := some.inj hw'
        have hstrm := writeAll_stream s.wal bytes io
        unfold LogState.append
        cases hfails : io.failsAfter with
        | some n =>
          obtain rfl := hnil n hfails
          rw [WalWriter.emitted, hfails, elim_some, take_zero, append_nil] at hstrm
          exact h.move rfl rfl rfl hstrm
        | none =>
          rw [WalWriter.emitted, hfails, elim_none] at hstrm
          have hextd : ∀ bufferedBytes, Consistent ser crc32
              ({ s with wal := s.wal.writeAll bytes io, bufferedBytes := bufferedBytes }.acknowledge (call.append s.engineSeq)) :=
            fun _ => h.extend hbs (wellformed_append hgoes.2) hfits rfl rfl rfl hstrm
          dsimp only
          cases hmode : s.mode with
          | immediate =>
            rw [hsyncs hmode]
            exact (hextd s.bufferedBytes).synced rfl rfl rfl
          | groupCommit hardCapBytes => exact (hextd (s.bufferedBytes + bytes.length)).move rfl rfl rfl rfl

theorem Consistent.step (h : Consistent ser crc32 s) {event : Event} (hclean : Clean ser s event)
    (hstep : s.step ser crc32 event = some s') : Consistent ser crc32 s' := by
  cases event with
  | write call io syncIo => exact h.write hclean hstep
  | sync io =>
    obtain rfl := some.inj hstep
    unfold LogState.syncCall
    split
    · exact h
    · split
      · exact h
      · exact h.syncBuffered io
  | threadSync io =>
    replace hstep : s.threadSync io = some s' := hstep
    unfold LogState.threadSync at hstep
    split at hstep
    · cases hstep
    · split at hstep
      · cases hstep
      · have hsync := h.syncBuffered io
        cases io with
        | done =>
          obtain rfl := some.inj hstep
          exact hsync
        | fails moved =>
          dsimp only at hstep
          split at hstep
          · obtain rfl := some.inj hstep
            exact h
          · obtain rfl := some.inj hstep
            exact hsync.move rfl rfl rfl rfl
  | shutdownSync io =>
    obtain rfl := some.inj hstep
    unfold LogState.shutdownSync
    split
    · exact h
    · exact h.syncBuffered io

end

/-- In every run in which no write that fails leaves bytes behind and no record is too large, the
acknowledged and synced operations are recovered at every point, and those of refused calls are not. -/
theorem clean_run_recovers (ser : PropsSerializer) (crc32 : List UInt8 → BitVec 32) (mode : WalSyncMode)
    (events : List Event) (s : LogState)
    (hclean : Admits (LogState.step ser crc32) (Clean ser) (LogState.opened mode) events)
    (hrun : run (LogState.step ser crc32) (LogState.opened mode) events = some s) : Recovers ser crc32 s := by
  have hinvariant := @run_invariant _ _ (LogState.step ser crc32) (Clean ser) (Consistent ser crc32)
    (fun _ _ _ h hclean hstep => h.step hclean hstep) _ _ _ (consistent_opened mode) hclean hrun
  exact hinvariant.recovers

def plannedNode (dense : Option DenseVector) : PlannedOp := ⟨nodeWith dense, rfl, inRange_nodeWith dense⟩

/-- The first write fails behind the length of its frame, the second one is acknowledged and synced. -/
def tornThenAcknowledged : List Event :=
  [.write (.one (plannedNode (some (List.replicate 16 0)))) ⟨0, some 4⟩ .done, .write (.one (plannedNode none)) ⟨0, none⟩ .done]

/-- What a reader finds after a run: how many operations are covered, and how many records there are. -/
def found (s : LogState) : ℕ × Option ℕ :=
  ((writtenOps (s.acknowledged.take s.covered)).length, (readPath emptyProps crc32Fast s.wal.file).toOption.map (·.records.length))

/-- What stands in the file is shorter than the length of the frame that was cut short. -/
theorem found_torn : (run (LogState.step emptyProps crc32Fast) (LogState.opened .immediate) tornThenAcknowledged).map found =
    some (1, some 0) := by decide +kernel

theorem torn_write_loses_later : ∃ s, run (LogState.step emptyProps crc32Fast) (LogState.opened .immediate) tornThenAcknowledged =
    some s ∧ ¬Recovers emptyProps crc32Fast s := by
  obtain ⟨s, hrun, hfound⟩ := map_eq_some_iff.mp found_torn
  obtain ⟨hcovered, hrecords⟩ := Prod.mk.inj hfound
  refine ⟨s, hrun, fun hrecovers => ?_⟩
  have hsynced : s.wal.synced ≤ s.wal.file.length := by
    have hs : some s.wal = some _ := (congrArg (Option.map LogState.wal) hrun).symm
    rw [some.inj hs]
    exact le_refl _
  obtain ⟨result, hread, -, hmissing⟩ := hrecovers s.wal.file prefix_rfl hsynced
  rw [hread] at hrecords
  have hnone : result.records.length = 0 := some.inj hrecords
  have hlen := hmissing.length_le
  rw [hcovered, plainRecords] at hlen
  have hfilter := length_filter_le (fun record => !isControl record.2) result.records
  omega

/-- The first write fails before any byte went out. -/
def refusedThenAcknowledged : List Event :=
  [.write (.one (plannedNode (some (List.replicate 16 0)))) ⟨0, some 0⟩ .done, .write (.one (plannedNode none)) ⟨0, none⟩ .done]

theorem clean_run_recovers_refused : ∃ s, run (LogState.step emptyProps crc32Fast) (LogState.opened .immediate)
    refusedThenAcknowledged = some s ∧ s.covered = 1 ∧ Recovers emptyProps crc32Fast s := by
  have hsmall : ∀ dense : Option DenseVector, dense = none ∨ dense = some (List.replicate 16 0) →
      Fits emptyProps (1, nodeWith dense) := by
    rintro dense (rfl | rfl)
    · exact fits_nodeWith
    · have hlen : (payloadOf emptyProps (1, nodeWith (some (List.replicate 16 0)))).length = 119 := by decide +kernel
      rw [Fits, hlen, maxWalRecordSize]
      omega
  refine ⟨_, rfl, rfl, clean_run_recovers emptyProps crc32Fast .immediate refusedThenAcknowledged _ ?_ rfl⟩
  refine ⟨⟨fun n hn => (some.inj hn).symm, fun _ => rfl, fun op hop => ?_⟩, fun s hs => ⟨⟨fun n hn => ?_, fun _ => rfl, fun op hop => ?_⟩, fun _ _ => trivial⟩⟩
  · obtain rfl := mem_singleton.mp hop
    exact hsmall _ (Or.inr rfl)
  · cases hn
  · obtain rfl := some.inj hs
    obtain rfl := mem_singleton.mp hop
    exact hsmall _ (Or.inl rfl)

end OverGraph.WalFailures
