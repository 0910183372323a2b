import OverGraph.WalFiles

/-!
# Reading log files back

A cut of a file of the log reads back as a beginning of what was written, and its durable part is
a number of whole appends. Records that are larger than the reader accepts are the ones it
does not return.
-/

namespace OverGraph.WalReading
open Records ByteReaders WalCodec WalFrames WalFiles Fallible List Except Nat Yields

@[simp] theorem isControl_asLogged (op : WalOp) : isControl (asLogged op) = isControl op := by cases op <;> rfl

@[simp] theorem vectorBytes_asLogged (op : WalOp) : vectorBytes (asLogged op) = vectorBytes op := by cases op <;> rfl

theorem contiguous_logged (q : ℕ) (ops : List SeqOp) : contiguous q (ops.map logged) = contiguous q ops := by
  induction ops generalizing q with
  | nil => rfl
  | cons op ops ih =>
    rw [map_cons, contiguous, contiguous, ih]
    rfl

theorem framesOf_logged (ops : List SeqOp) : framesOf (ops.map logged) = (framesOf ops).map logged := by
  match ops with
  | [] | [op] => rfl
  | op :: next :: rest => simp [framesOf, logged, asLogged]

theorem appendBatch_logged {ops : List SeqOp} (h : appendBatch ops = some (framesOf ops)) :
    appendBatch (ops.map logged) = some ((framesOf ops).map logged) := by
  match ops with
  | [] | [op] => rfl
  | op :: next :: rest =>
    rw [← framesOf_logged]
    simp only [appendBatch] at h
    split at h
    · cases h
    · rename_i hacc
      have hctg := contiguous_logged op.1 (op :: next :: rest)
      simp only [map_cons, length_cons] at hctg hacc
      simp only [map_cons, appendBatch, length_cons, length_map]
      rw [show (logged op).1 = op.1 from rfl, hctg, if_neg hacc]
      simp [framesOf, logged]

/-- The batches of a run, as the log keeps them. -/
def batchesOf (calls : List Append) : List (List SeqOp) := (calls.map fun call => call.ops.map logged).filter fun batch => !batch.isEmpty

/-- The operations are not marks of batches and their fields have the ranges of their types. -/
def Wellformed (calls : List Append) : Prop := ∀ call ∈ calls, ∀ op ∈ call.ops, isControl op.2 = false ∧ op.1 < 2 ^ 64 ∧ InRange op.2

theorem rawFrames_cons (call : Append) (calls : List Append) : rawFrames (call :: calls) = framesOf call.ops ++ rawFrames calls := by
  rw [rawFrames, flatMap_cons]
  rfl

theorem rawFrames_append (calls more : List Append) : rawFrames (calls ++ more) = rawFrames calls ++ rawFrames more := flatMap_append

theorem appended_frames {batch frames : List SeqOp} (h : Appended batch frames) : frames = framesOf batch := by
  have hacc := h.accepted
  match batch, hacc with
  | [], hacc | [op], hacc => exact (Option.some.inj hacc).symm
  | op :: next :: rest, hacc =>
    simp only [appendBatch] at hacc
    split at hacc
    · cases hacc
    · exact (Option.some.inj hacc).symm

theorem logged_frames {batches : List (List SeqOp)} {frames : List SeqOp} (h : Logged batches frames) :
    frames = batches.flatMap framesOf := by
  obtain ⟨chunks, hcks, rfl⟩ := h
  induction hcks with
  | nil => rfl
  | cons hfst _ ih => rw [flatten_cons, flatMap_cons, ih, appended_frames hfst]

theorem flatMap_batchesOf (calls : List Append) : (batchesOf calls).flatMap framesOf = (rawFrames calls).map logged := by
  induction calls with
  | nil => rfl
  | cons call calls ih =>
    rw [rawFrames_cons, map_append, ← framesOf_logged, ← ih, batchesOf, map_cons]
    by_cases hemp : call.ops = []
    · rw [filter_cons_of_neg (by simp [hemp]), hemp]
      rfl
    · rw [filter_cons_of_pos (by simpa using hemp), flatMap_cons]
      rfl

variable {calls : List Append}

theorem logged_calls (hpl : ∀ call ∈ calls, ∀ op ∈ call.ops, isControl op.2 = false)
    (hacc : ∀ call ∈ calls, appendBatch call.ops = some (framesOf call.ops)) :
    Logged (batchesOf calls) ((rawFrames calls).map logged) := by
  induction calls with
  | nil => exact logged_nil
  | cons call calls ih =>
    have hrest := ih (fun other hoth => hpl other (mem_cons_of_mem _ hoth))
      (fun other hoth => hacc other (mem_cons_of_mem _ hoth))
    rw [rawFrames_cons, map_append, batchesOf, map_cons]
    by_cases hemp : call.ops = []
    · rw [filter_cons_of_neg (by simp [hemp]), hemp]
      exact hrest
    · obtain ⟨chunks, hcks, hfrs⟩ := hrest
      rw [filter_cons_of_pos (by simpa using hemp)]
      have hfst : Appended (call.ops.map logged) ((framesOf call.ops).map logged) := by
        refine ⟨appendBatch_logged (hacc call mem_cons_self), by simpa using hemp, fun op hop => ?_⟩
        obtain ⟨src, hsrc, rfl⟩ := mem_map.mp hop
        rw [logged, isControl_asLogged]
        exact hpl call mem_cons_self src hsrc
      exact ⟨(framesOf call.ops).map logged :: chunks, .cons hfst hcks, by rw [hfrs, flatten_cons]⟩

theorem take_batchesOf (calls : List Append) (n : ℕ) : ∃ kept ≤ calls.length, (batchesOf calls).take n = batchesOf (calls.take kept) := by
  induction calls generalizing n with
  | nil => exact ⟨0, le_refl _, take_nil⟩
  | cons call calls ih =>
    rw [batchesOf, map_cons]
    by_cases hemp : call.ops = []
    · rw [filter_cons_of_neg (by simp [hemp])]
      obtain ⟨kept, hkept, heq⟩ := ih n
      refine ⟨kept + 1, Nat.succ_le_succ hkept, ?_⟩
      rw [take_succ_cons, ← batchesOf, heq, batchesOf, batchesOf, map_cons, filter_cons_of_neg (by simp [hemp])]
    · rw [filter_cons_of_pos (by simpa using hemp)]
      cases n with
      | zero => exact ⟨0, Nat.zero_le _, rfl⟩
      | succ n =>
        obtain ⟨kept, hkept, heq⟩ := ih n
        refine ⟨kept + 1, Nat.succ_le_succ hkept, ?_⟩
        rw [take_succ_cons, take_succ_cons, ← batchesOf, heq, batchesOf, batchesOf, map_cons, filter_cons_of_pos (by simpa using hemp)]

section
variable {ser : PropsSerializer} {crc32 : List UInt8 → BitVec 32}

variable {bytes : List UInt8}

theorem appendAll_append {more : List Append} :
    appendAll ser crc32 (calls ++ more) = .ok bytes ↔ ∃ fst rest, appendAll ser crc32 calls = .ok fst ∧
      appendAll ser crc32 more = .ok rest ∧ bytes = fst ++ rest := by
  induction calls generalizing bytes with
  | nil => simp [appendAll]
  | cons call calls ih =>
    constructor
    · intro h
      rw [cons_append, appendAll] at h
      obtain ⟨head, hcall, h⟩ := bind_ok h
      obtain ⟨tail, htail, h⟩ := bind_ok h
      obtain ⟨fst, rest, hfst, hrest, rfl⟩ := ih.mp htail
      rw [appendAll, hcall, hfst]
      refine ⟨head ++ fst, rest, rfl, hrest, ?_⟩
      rw [← ok.inj h, append_assoc]
    · rintro ⟨fst, rest, hfst, hrest, rfl⟩
      rw [appendAll] at hfst
      obtain ⟨head, hcall, hfst⟩ := bind_ok hfst
      obtain ⟨body, hcalls, hfst⟩ := bind_ok hfst
      obtain rfl := ok.inj hfst
      rw [cons_append, appendAll, hcall, ih.mpr ⟨body, rest, hcalls, hrest, rfl⟩, append_assoc]
      rfl

variable {calls : List Append}

theorem appendAll_take (h : appendAll ser crc32 calls = .ok bytes) (n : ℕ) :
    appendAll ser crc32 (calls.take n) = .ok (bytesOf ser crc32 (rawFrames (calls.take n))) := by
  rw [← take_append_drop n calls] at h
  obtain ⟨fst, rest, hfst, -⟩ := appendAll_append.mp h
  rw [hfst, (appendAll_ok hfst).1]

theorem bytesOf_append (frames more : List SeqOp) :
    bytesOf ser crc32 (frames ++ more) = bytesOf ser crc32 frames ++ bytesOf ser crc32 more :=
  flatMap_append

theorem length_bytesOf (frames : List SeqOp) : frames.length ≤ (bytesOf ser crc32 frames).length := by
  induction frames with
  | nil => exact Nat.zero_le _
  | cons frame frames ih =>
    rw [bytesOf, flatMap_cons, ← bytesOf, length_append, length_frameBytes, length_cons]
    omega

variable {ops : List SeqOp} {frame : SeqOp}

/-- What the frames of a batch have in common with its operations, and the marks too. -/
theorem mem_framesOf (h : frame ∈ framesOf ops) : frame ∈ ops ∨
    ∃ fst ∈ ops, frame.1 = fst.1 ∧ (frame.2 = .beginAtomicBatch fst.1 ops.length ∨ frame.2 = .commitAtomicBatch fst.1 ops.length) := by
  match ops with
  | [] => exact (not_mem_nil h).elim
  | [op] => exact .inl h
  | op :: next :: rest =>
    rcases mem_append.mp h with h | h
    · rcases mem_cons.mp h with rfl | h
      · exact .inr ⟨op, mem_cons_self, rfl, .inl rfl⟩
      · exact .inl h
    · obtain rfl := mem_singleton.mp h
      exact .inr ⟨op, mem_cons_self, rfl, .inr rfl⟩

theorem opCount_lt (h : appendBatch ops = some (framesOf ops)) (hlong : 2 ≤ ops.length) : ops.length < 2 ^ 32 := by
  match ops with
  | [] | [op] => simp at hlong
  | op :: next :: rest =>
    simp only [appendBatch] at h
    split at h
    · cases h
    · rename_i hacc
      simp only [Bool.or_eq_true, decide_eq_true_eq, not_or, not_lt] at hacc
      have hmax : u32Max = 2 ^ 32 - 1 := rfl
      omega

theorem mem_framesOf_long (h : frame ∈ framesOf ops) (hnot : frame ∉ ops) : 2 ≤ ops.length := by
  match ops with
  | [] => exact (not_mem_nil h).elim
  | [op] => exact absurd h hnot
  | op :: next :: rest => simp

theorem sound_frames (h : appendAll ser crc32 calls = .ok bytes)
    (hcalls : Wellformed calls) : ∀ frame ∈ rawFrames calls, Sound ser frame := by
  obtain ⟨-, hencs, hacc⟩ := appendAll_ok h
  intro frame hfrm
  have hall := hfrm
  obtain ⟨call, hcall, hfrm⟩ := mem_flatMap.mp hfrm
  by_cases hop : frame ∈ call.ops
  · obtain ⟨-, hseq, hrng⟩ := hcalls call hcall frame hop
    exact ⟨hencs frame hall, hseq, hrng⟩
  · have hcnt := opCount_lt (hacc call hcall) (mem_framesOf_long hfrm hop)
    obtain ⟨fst, hfst, hseq, hmark⟩ := (mem_framesOf hfrm).resolve_left hop
    have hbd := (hcalls call hcall fst hfst).2.1
    refine ⟨hencs frame hall, hseq ▸ hbd, ?_⟩
    rcases hmark with hmark | hmark <;> rw [hmark] <;> exact ⟨hbd, hcnt⟩

theorem validateWalHeader_walHeader : validateWalHeader walHeader = .ok () := by
  have hmagic : walHeader.take 4 = walMagic := rfl
  have hvers : fromLe (walHeader.drop 4) = walVersion := fromLe_leBytes (show walVersion < 256 ^ 4 by decide)
  rw [validateWalHeader, if_neg (fun h => h hmagic), if_neg (fun h => h hvers)]

theorem readFrames_stop (fuel : ℕ) (st : ReadState) (h : nextFrame crc32 bytes = none) : readFrames ser crc32 fuel st bytes = .ok st := by
  cases fuel with
  | zero => rfl
  | succ fuel => rw [readFrames, h]

/-- The file of a header and frames is read from its first frame on. -/
theorem readPath_header (bytes : List UInt8) : readPath ser crc32 (walHeader ++ bytes) =
    match readFrames ser crc32 (8 + bytes.length) ⟨[], none, walHeaderSize, walHeaderSize⟩ bytes with
    | .error err => .error err
    | .ok st => .ok ⟨st.records, st.durableLen⟩ := by
  have hlen : (walHeader ++ bytes).length = 8 + bytes.length := by
    rw [length_append]
    rfl
  have htake : (walHeader ++ bytes).take walHeaderSize = walHeader := take_left' rfl
  have hdrop : (walHeader ++ bytes).drop walHeaderSize = bytes := drop_left' rfl
  rewrite [readPath, hlen, if_neg (by omega), if_neg (by rw [walHeaderSize]; omega), htake, validateWalHeader_walHeader, hdrop]
  rfl

section
variable (h : appendAll ser crc32 calls = .ok bytes) (hcalls : Wellformed calls)
include h hcalls

/-- Whole frames of a run of appends are read before anything that follows them. -/
theorem readPath_frames {whole more : List SeqOp} (hfrs : rawFrames calls = whole ++ more)
    (hfits : ∀ frame ∈ whole, Fits ser frame) (torn : List UInt8) :
    ∃ kept fuel openBatch pos, kept ≤ calls.length ∧ rawFrames (calls.take kept) <+: whole ∧
      readPath ser crc32 (walHeader ++ (bytesOf ser crc32 whole ++ torn)) =
        match readFrames ser crc32 (fuel + 1) ⟨whole.map logged, openBatch, pos,
          walHeaderSize + (bytesOf ser crc32 (rawFrames (calls.take kept))).length⟩ torn with
        | .error err => .error err
        | .ok st => .ok ⟨st.records, st.durableLen⟩ := by
  obtain ⟨-, -, hacc⟩ := appendAll_ok h
  have hpl : ∀ call ∈ calls, ∀ op ∈ call.ops, isControl op.2 = false := fun call hcall op hop => (hcalls call hcall op hop).1
  have hlog' := logged_calls hpl hacc
  have hcut : whole.map logged <+: (rawFrames calls).map logged := by
    rw [hfrs, map_append]
    exact prefix_append _ _
  obtain ⟨n, durable, hread⟩ := hlog'.cut hcut
  obtain ⟨kept, hkept, htake⟩ := take_batchesOf calls n
  have hdur : durable = (rawFrames (calls.take kept)).map logged := by rw [logged_frames hread.logged, htake, flatMap_batchesOf]
  have hbegin : rawFrames (calls.take kept) <+: whole := by
    have hfst : rawFrames (calls.take kept) <+: rawFrames calls := by
      nth_rewrite 2 [← take_append_drop kept calls]
      rw [rawFrames_append]
      exact prefix_append _ _
    rw [hfrs] at hfst
    refine prefix_of_prefix_length_le hfst (prefix_append _ _) ?_
    have hle := hread.durable_cut.length_le
    rwa [hdur, length_map, length_map] at hle
  obtain ⟨fuel, hfuel⟩ : ∃ fuel, 8 + (bytesOf ser crc32 whole ++ torn).length = whole.length + (fuel + 1) := by
    have hle := @length_bytesOf ser crc32 whole
    rw [length_append]
    exact ⟨7 + (bytesOf ser crc32 whole).length + torn.length - whole.length, by omega⟩
  have hsd := sound_frames h hcalls
  have hgood : ∀ frame ∈ whole, Sound ser frame ∧ Fits ser frame := by
    intro frame hfrm
    refine ⟨hsd frame ?_, hfits frame hfrm⟩
    rw [hfrs]
    exact mem_append_left _ hfrm
  have hrecs := hread.records
  have hlen := hread.durableLen
  rw [readGenerationRecoverable] at hrecs hlen
  dsimp only at hrecs hlen
  have hloop := @readFrames_whole ser crc32 (rawFrames calls) [] whole more hfrs hgood ⟨[], none, 0, 0⟩ rfl
    hrecs (fuel + 1) torn
  refine ⟨kept, fuel, (readLoop ⟨[], none, 0, 0⟩ (whole.map logged)).openBatch,
    offset ser crc32 (rawFrames calls) (readLoop ⟨[], none, 0, 0⟩ (whole.map logged)).pos, hkept, hbegin, ?_⟩
  have hst : mapPos (offset ser crc32 (rawFrames calls)) ⟨[], none, 0, 0⟩ = ⟨[], none, walHeaderSize, walHeaderSize⟩ := rfl
  have hoffset : offset ser crc32 (rawFrames calls) durable.length =
      walHeaderSize + (bytesOf ser crc32 (rawFrames (calls.take kept))).length := by
    have hfst : rawFrames (calls.take kept) <+: rawFrames calls := hbegin.trans (hfrs ▸ prefix_append _ _)
    rw [offset, hdur, length_map, ← prefix_iff_eq_take.mp hfst]
  rw [readPath_header, hfuel, ← hst, hloop, mapPos, hrecs, hlen, hoffset]

theorem readPath_cut (hcrc : ∀ frame ∈ rawFrames calls, RejectsCut crc32 (payloadOf ser frame))
    {cut : List UInt8} (hcut : cut <+: bytes) :
    ∃ whole more kept, rawFrames calls = whole ++ more ∧ (∀ frame ∈ whole, Fits ser frame) ∧ kept ≤ calls.length ∧
      rawFrames (calls.take kept) <+: whole ∧ bytesOf ser crc32 (rawFrames (calls.take kept)) <+: cut ∧
      readPath ser crc32 (walHeader ++ cut) = .ok ⟨whole.map logged,
        walHeaderSize + (bytesOf ser crc32 (rawFrames (calls.take kept))).length⟩ := by
  rw [(appendAll_ok h).1] at hcut
  obtain ⟨whole, more, torn, hfrs, hfits, rfl, hnone⟩ := cut_frames hcrc hcut
  obtain ⟨kept, fuel, openBatch, pos, hkept, ⟨later, rfl⟩, hread⟩ := readPath_frames h hcalls hfrs hfits torn
  refine ⟨_, more, kept, hfrs, hfits, hkept, prefix_append _ _, ?_, ?_⟩
  · rw [bytesOf_append, append_assoc]
    exact prefix_append _ _
  · rw [hread, readFrames_stop _ _ hnone]

end

theorem yields_node (ser : PropsSerializer) : Yields (readNode ser) fun op => isControl op = false := by
  refine bind fun id => ?_
  refine bind fun labelIds => ?_
  refine bind fun key => ?_
  refine bind fun createdAt => ?_
  refine bind fun updatedAt => ?_
  refine bind fun weight => ?_
  refine bind fun props => ?_
  refine bind fun vectors => ?_
  exact pure rfl

theorem decodeWalOp_node {body : List UInt8} {n : ℕ} {op : WalOp}
    (h : decodeWalOp ser ((writeTag .upsertNode ++ body).take n) = .ok op) : isControl op = false := by
  cases n with
  | zero =>
    rw [take_zero] at h
    cases h
  | succ n =>
    have htake : (writeTag .upsertNode ++ body).take (n + 1) = writeTag .upsertNode ++ body.take n := rfl
    have htag := reads_u8 (show OpTag.upsertNode.toU8 < 2 ^ 8 by decide) (body.take n)
    have hread : (readWalOp ser).run (writeTag .upsertNode ++ body.take n) = (readNode ser).run (body.take n) := by
      rw [readWalOp, StateT.run_bind]
      have hfst : readU8.run (writeTag .upsertNode ++ body.take n) = .ok (OpTag.upsertNode.toU8, body.take n) := htag
      rw [hfst]
      rfl
    rw [htake, decodeWalOp, hread] at h
    obtain ⟨found, hnode, rfl⟩ := map_ok h
    exact yields_node ser _ found.1 found.2 hnode

variable {st st' : ReadState}

theorem decodeFailure_ok {err : EngineError} (h : decodeFailure st bytes err = .ok st') : st' = st := by
  rw [decodeFailure] at h
  split at h
  · exact (ok.inj h).symm
  · split at h
    · exact (ok.inj h).symm
    · cases h

theorem readFrames_records {fuel : ℕ}
    (h : readFrames ser crc32 fuel st bytes = .ok st') : st.records <+: st'.records := by
  induction fuel generalizing st bytes with
  | zero => exact ok.inj h ▸ prefix_refl _
  | succ fuel ih =>
    rw [readFrames] at h
    split at h
    · exact ok.inj h ▸ prefix_refl _
    · split at h
      · exact decodeFailure_ok h ▸ prefix_refl _
      · split at h
        · exact ok.inj h ▸ prefix_refl _
        · rename_i hstep
          obtain ⟨hrecs, -⟩ := readStep_records hstep
          exact (hrecs ▸ prefix_append _ _ : st.records <+: _).trans (ih h)

/-- The frame of a large node is not read, or something smaller is read in its place. -/
theorem readFrames_oversize {seq fuel : ℕ} {body payload rest : List UInt8}
    (hpayl : payload = writeU64 seq ++ (writeTag .upsertNode ++ body)) (hlarge : maxWalRecordSize < payload.length)
    (h : readFrames ser crc32 (fuel + 1) st (frameBytes crc32 payload ++ rest) = .ok st') :
    st'.records = st.records ∨ ∃ r more, st'.records = st.records ++ r :: more ∧
      isControl r.2 = false ∧ vectorBytes r.2 ≤ maxWalRecordSize := by
  rw [readFrames, frameBytes, append_assoc, append_assoc, nextFrame_header] at h
  split at h
  · rw [ok.inj h]
    exact .inl rfl
  · rename_i taken left hfrm
    split at hfrm
    · cases hfrm
    · rename_i hlen
      simp only [Bool.or_eq_true, decide_eq_true_eq, not_or, not_lt] at hlen
      split at hfrm
      · cases hfrm
      · split at hfrm
        · cases hfrm
        · split at hfrm
          · cases hfrm
          · obtain ⟨rfl, rfl⟩ := Prod.mk.inj (Option.some.inj hfrm)
            have hpart : (payload ++ rest).take (payload.length % 2 ^ 32) = payload.take (payload.length % 2 ^ 32) :=
              take_append_of_le_length (by omega)
            rw [hpart] at h
            split at h
            · rw [decodeFailure_ok h]
              exact .inl rfl
            · rename_i op hdecode
              split at h
              · rw [ok.inj h]
                exact .inl rfl
              · rename_i hstep
                obtain ⟨hrecs, -⟩ := readStep_records hstep
                obtain ⟨more, hmore⟩ := readFrames_records h
                refine .inr ⟨(fromLe ((payload.take (payload.length % 2 ^ 32)).take 8), op), more, ?_, ?_, ?_⟩
                · rw [← hmore, hrecs, append_assoc]
                  rfl
                · rw [drop_take, hpayl, drop_left' (length_writeU64 _)] at hdecode
                  exact decodeWalOp_node hdecode
                · have hbs := vectorBytes_of_decode hdecode
                  rw [length_drop, length_take] at hbs
                  show vectorBytes op ≤ maxWalRecordSize
                  omega

/-- A frame whose length wraps around is a node with large vectors. -/
theorem wraps_node (h : Sound ser frame) (hlarge : 2 ^ 32 ≤ (payloadOf ser frame).length) :
    (∃ body, payloadOf ser frame = writeU64 frame.1 ++ (writeTag .upsertNode ++ body)) ∧
      isControl frame.2 = false ∧ maxWalRecordSize < vectorBytes frame.2 := by
  obtain ⟨body, hbody, heq⟩ := h.body
  have hlen := (length_encodeWalOp hbody).1
  rw [heq, length_append, length_writeU64] at hlarge
  have hvecs : maxWalRecordSize < vectorBytes frame.2 := by
    have hmax : maxBytesLen = 67108864 := rfl
    have hkeyMax : u16Max = 65535 := rfl
    have hrecordMax : maxWalRecordSize = 67108864 := rfl
    omega
  obtain ⟨seq, op⟩ := frame
  cases op with
  | upsertNode node =>
    refine ⟨?_, rfl, hvecs⟩
    rw [encodeWalOp] at hbody
    obtain ⟨key, hkey, hbody⟩ := bind_ok hbody
    obtain ⟨props, hps, hbody⟩ := bind_ok hbody
    rw [heq, ← ok.inj hbody]
    exact ⟨_, rfl⟩
  | _ => exact absurd hvecs (not_lt_zero _)

/-- The frames that the reader takes before one that is too large. -/
theorem readFrames_large (h : Sound ser frame) (hlarge : ¬Fits ser frame) {fuel : ℕ} {rest : List UInt8}
    (hread : readFrames ser crc32 (fuel + 1) st (frameBytes crc32 (payloadOf ser frame) ++ rest) = .ok st') :
    st'.records = st.records ∨ (isControl frame.2 = false ∧ ∃ r more, st'.records = st.records ++ r :: more ∧
      isControl r.2 = false ∧ r ≠ logged frame) := by
  rcases lt_or_ge (payloadOf ser frame).length (2 ^ 32) with hsm | hwraps
  · have hcrc : RejectsCut crc32 (payloadOf ser frame) := fun hwraps => absurd hsm (Nat.not_lt.mpr hwraps)
    rw [readFrames_stop _ _ (nextFrame_oversize (Nat.not_le.mp hlarge) hcrc rest)] at hread
    exact .inl (congrArg ReadState.records (ok.inj hread).symm)
  · obtain ⟨⟨body, hbody⟩, hpl, hvecs⟩ := wraps_node h hwraps
    obtain hsame | ⟨r, more, hrecs, hrec, hbs⟩ := readFrames_oversize hbody (Nat.not_le.mp hlarge) hread
    · exact .inl hsame
    · refine .inr ⟨hpl, r, more, hrecs, hrec, fun heq => ?_⟩
      rw [heq, logged, vectorBytes_asLogged] at hbs
      omega

/-- The operations among records. -/
def plainRecords (records : List SeqOp) : List SeqOp := records.filter fun r => !isControl r.2

theorem plainRecords_append (records more : List SeqOp) :
    plainRecords (records ++ more) = plainRecords records ++ plainRecords more := filter_append _ _

theorem plainRecords_logged (frames : List SeqOp) : plainRecords (frames.map logged) = (plainRecords frames).map logged := by
  rw [plainRecords, filter_map, plainRecords]
  congr 1
  exact filter_congr fun frame _ => by rw [Function.comp_apply, logged, isControl_asLogged]

theorem plainRecords_self (h : ∀ op ∈ ops, isControl op.2 = false) : plainRecords ops = ops :=
  filter_eq_self.mpr fun op hop => by rw [h op hop]; rfl

theorem plainRecords_framesOf (h : ∀ op ∈ ops, isControl op.2 = false) : plainRecords (framesOf ops) = ops := by
  match ops with
  | [] => rfl
  | [op] => exact plainRecords_self h
  | op :: next :: rest =>
    have hself := plainRecords_self h
    rw [framesOf, plainRecords_append]
    have hbegin : plainRecords ((op.1, .beginAtomicBatch op.1 (op :: next :: rest).length) :: op :: next :: rest) =
        plainRecords (op :: next :: rest) := filter_cons_of_neg (by simp [isControl])
    rw [hbegin, hself]
    exact append_nil _

theorem plainRecords_rawFrames (h : Wellformed calls) : plainRecords (rawFrames calls) = calls.flatMap Append.ops := by
  induction calls with
  | nil => rfl
  | cons call calls ih =>
    have hcall : ∀ op ∈ call.ops, isControl op.2 = false := fun op hop => (h call mem_cons_self op hop).1
    rw [rawFrames_cons, plainRecords_append, plainRecords_framesOf hcall,
      ih fun other hoth => h other (mem_cons_of_mem _ hoth), flatMap_cons]

theorem plainRecords_written (h : Wellformed calls) : plainRecords (writtenRecords calls) = writtenOps calls := by
  rw [writtenRecords, ← rawFrames, plainRecords_logged, plainRecords_rawFrames h, writtenOps]

theorem fits_mark (h : Sound ser frame) (hmark : isControl frame.2 = true) : Fits ser frame := by
  obtain ⟨body, hbody, heq⟩ := h.body
  obtain ⟨seq, op⟩ := frame
  have hmax : maxWalRecordSize = 67108864 := rfl
  cases op with
  | beginAtomicBatch firstSeq opCount | commitAtomicBatch firstSeq opCount =>
    rw [Fits, heq, ← ok.inj hbody]
    simp only [length_append, length_writeU64, length_writeTag, length_writeU32]
    omega
  | _ => cases hmark

/-- The marks of batches are small. -/
theorem fits_frames_iff (h : appendAll ser crc32 calls = .ok bytes)
    (hcalls : Wellformed calls) : (∀ frame ∈ rawFrames calls, Fits ser frame) ↔ ∀ op ∈ calls.flatMap Append.ops, Fits ser op := by
  have hsd := sound_frames h hcalls
  rw [← plainRecords_rawFrames hcalls]
  constructor
  · intro hall op hop
    exact hall op (mem_of_mem_filter hop)
  · intro hall frame hfrm
    cases hmark : isControl frame.2 with
    | true => exact fits_mark (hsd frame hfrm) hmark
    | false => exact hall frame (mem_filter.mpr ⟨hfrm, by rw [hmark]; rfl⟩)

theorem first_large (frames : List SeqOp) : (∀ frame ∈ frames, Fits ser frame) ∨
    ∃ whole large more, frames = whole ++ large :: more ∧ (∀ frame ∈ whole, Fits ser frame) ∧ ¬Fits ser large := by
  induction frames with
  | nil => exact .inl fun frame hfrm => (not_mem_nil hfrm).elim
  | cons fst frames ih =>
    by_cases hfst : Fits ser fst
    · obtain hall | ⟨whole, large, more, rfl, hwh, hlarge⟩ := ih
      · exact .inl (forall_mem_cons.mpr ⟨hfst, hall⟩)
      · exact .inr ⟨fst :: whole, large, more, rfl, forall_mem_cons.mpr ⟨hfst, hwh⟩, hlarge⟩
    · exact .inr ⟨[], fst, frames, rfl, fun frame hfrm => (not_mem_nil hfrm).elim, hfst⟩

theorem readPath_fits {bytes : List UInt8} (h : appendAll ser crc32 calls = .ok bytes)
    (hcalls : Wellformed calls) (hfits : ∀ frame ∈ rawFrames calls, Fits ser frame) :
    ∃ durableLen, readPath ser crc32 (walHeader ++ bytes) = .ok ⟨writtenRecords calls, durableLen⟩ := by
  obtain ⟨kept, fuel, openBatch, pos, -, -, hread⟩ := readPath_frames h hcalls (append_nil _).symm hfits []
  rw [append_nil, ← (appendAll_ok h).1, readFrames_stop _ _ nextFrame_nil] at hread
  exact ⟨_, hread⟩

theorem fits_of_readPath (h : appendAll ser crc32 calls = .ok bytes)
    (hcalls : Wellformed calls) {res : WalReadResult} (hread : readPath ser crc32 (walHeader ++ bytes) = .ok res)
    (hall : plainRecords res.records = writtenOps calls) : ∀ frame ∈ rawFrames calls, Fits ser frame := by
  obtain hfits | ⟨whole, large, more, hfrs, hwh, hlarge⟩ := first_large (rawFrames calls)
  · exact hfits
  · exfalso
    have hsd : Sound ser large := by
      apply sound_frames h hcalls
      rw [hfrs]
      exact mem_append_right _ mem_cons_self
    have hpl : isControl large.2 = false := by
      cases hmark : isControl large.2 with
      | true => exact absurd (fits_mark hsd hmark) hlarge
      | false => rfl
    have hwr : plainRecords res.records = plainRecords (whole.map logged) ++ logged large :: plainRecords (more.map logged) := by
      rw [hall, ← plainRecords_written hcalls, writtenRecords, ← rawFrames, hfrs, map_append, plainRecords_append, map_cons]
      congr 1
      exact filter_cons_of_pos (by rw [logged, isControl_asLogged, hpl]; rfl)
    have hbs : bytes = bytesOf ser crc32 whole ++ (frameBytes crc32 (payloadOf ser large) ++ bytesOf ser crc32 more) := by
      rw [(appendAll_ok h).1, hfrs, bytesOf_append]
      rfl
    obtain ⟨kept, fuel, openBatch, pos, -, -, hfile⟩ := readPath_frames h hcalls hfrs hwh
      (frameBytes crc32 (payloadOf ser large) ++ bytesOf ser crc32 more)
    rw [← hbs, hread] at hfile
    split at hfile
    · cases hfile
    · rename_i st hfrm
      have hrecs : res.records = st.records := congrArg WalReadResult.records (ok.inj hfile)
      rw [hrecs] at hwr
      obtain hsame | ⟨-, r, later, hsame, hrec, hdiff⟩ := readFrames_large hsd hlarge hfrm
      · rw [hsame] at hwr
        have hnil : [] = logged large :: plainRecords (more.map logged) := append_cancel_left ((append_nil _).trans hwr)
        cases hnil
      · have hkeep : plainRecords (r :: later) = r :: plainRecords later :=
          filter_cons_of_pos (by rw [hrec]; rfl)
        rw [hsame, plainRecords_append, hkeep] at hwr
        exact hdiff (List.cons.inj (append_cancel_left hwr)).1

/-- What the log returns of a file is what was appended, exactly if no operation is larger than the reader accepts. -/
theorem readPath_returns_iff {calls : List Append} {bytes : List UInt8} (h : appendAll ser crc32 calls = .ok bytes)
    (hcalls : Wellformed calls) : (∃ result, readPath ser crc32 (walHeader ++ bytes) = .ok result ∧
      plainRecords result.records = writtenOps calls) ↔ ∀ op ∈ calls.flatMap Append.ops, Fits ser op := by
  rw [← fits_frames_iff h hcalls]
  constructor
  · intro hreturns
    obtain ⟨result, hread, hall⟩ := hreturns
    exact fits_of_readPath h hcalls hread hall
  · intro hfits
    obtain ⟨durableLen, hread⟩ := readPath_fits h hcalls hfits
    exact ⟨_, hread, plainRecords_written hcalls⟩

/-- A serializer that knows the empty map only. -/
def emptyProps : PropsSerializer where
  toVec props := if props.entries = [] then .ok [128] else .error "not empty"
  fromSlice bytes := if bytes = [128] then .ok ∅ else .error "not empty"
  roundTrip := by
    intro props bytes h
    split at h
    · rename_i hemp
      obtain rfl := ok.inj h
      rw [if_pos rfl]
      exact congrArg Except.ok (AList.ext hemp).symm
    · cases h

def crcByte (crc : BitVec 32) (byte : UInt8) : BitVec 32 :=
  (List.range 8).foldl (fun crc _ => if crc.getLsbD 0 then (crc >>> 1) ^^^ 0xEDB88320#32 else crc >>> 1)
    (crc ^^^ byte.toBitVec.setWidth 32)

/-- The checksum of frames. -/
def crc32Fast (bytes : List UInt8) : BitVec 32 := ~~~(bytes.foldl crcByte 0xFFFFFFFF#32)

def firstLabel : NodeLabelSet := ⟨[1], by decide, by decide, by decide, by decide⟩

def nodeWith (dense : Option DenseVector) : WalOp := .upsertNode ⟨1, firstLabel, "n", ∅, 0, 0, 0, dense, none, 0⟩

theorem inRange_nodeWith (dense : Option DenseVector) : InRange (nodeWith dense) := by
  have hid : (1 : ℕ) < 2 ^ 64 := by decide
  have htime : I64 0 := ⟨by decide, by decide⟩
  refine ⟨hid, fun labelId hlab => ?_, htime, htime, fun sparse hsparse => ?_⟩
  · obtain rfl := mem_singleton.mp hlab
    decide
  · cases hsparse

def nodeAppend (dense : Option DenseVector) : List Append := [.single 1 (nodeWith dense)]

theorem appendAll_nodeAppend (dense : Option DenseVector) :
    ∃ bytes, appendAll emptyProps crc32Fast (nodeAppend dense) = .ok bytes := ⟨_, rfl⟩

theorem wellformed_nodeAppend (dense : Option DenseVector) : Wellformed (nodeAppend dense) := by
  intro call hcall op hop
  obtain rfl := mem_singleton.mp hcall
  obtain rfl := mem_singleton.mp hop
  exact ⟨rfl, show (1 : ℕ) < 2 ^ 64 by decide, inRange_nodeWith dense⟩

theorem not_fits_nodeWith {dense : DenseVector} (h : 2 ^ 24 ≤ dense.length) : ¬Fits emptyProps (1, nodeWith (some dense)) := by
  intro hfits
  obtain ⟨bytes, hbs⟩ := appendAll_nodeAppend (some dense)
  have hsd : Sound emptyProps (1, nodeWith (some dense)) := sound_frames hbs (wellformed_nodeAppend _) _ mem_cons_self
  obtain ⟨body, hbody, heq⟩ := hsd.body
  have hvecs : 4 * dense.length + 8 * 0 ≤ body.length := (length_encodeWalOp hbody).2
  rw [Fits, heq, length_append, length_writeU64, maxWalRecordSize] at hfits
  omega

theorem fits_nodeWith : Fits emptyProps (1, nodeWith none) := by
  have hlen : (payloadOf emptyProps (1, nodeWith none)).length = 51 := by decide
  rw [Fits, hlen, maxWalRecordSize]
  omega

theorem large_vector_lost : ∃ bytes, appendAll emptyProps crc32Fast (nodeAppend (some (List.replicate (2 ^ 24) 0))) = .ok bytes ∧
    ¬∃ result, readPath emptyProps crc32Fast (walHeader ++ bytes) = .ok result ∧
      plainRecords result.records = writtenOps (nodeAppend (some (List.replicate (2 ^ 24) 0))) := by
  obtain ⟨bytes, hbytes⟩ := appendAll_nodeAppend (some (List.replicate (2 ^ 24) 0))
  refine ⟨bytes, hbytes, fun hreturns => ?_⟩
  obtain ⟨result, hread, hall⟩ := hreturns
  have hfits := fits_of_readPath hbytes (wellformed_nodeAppend _) hread hall
  exact not_fits_nodeWith (length_replicate.ge) (hfits _ mem_cons_self)

theorem small_node_returned : ∃ bytes, appendAll emptyProps crc32Fast (nodeAppend none) = .ok bytes ∧
    ((∃ result, readPath emptyProps crc32Fast (walHeader ++ bytes) = .ok result ∧
      plainRecords result.records = writtenOps (nodeAppend none)) ↔
      ∀ op ∈ (nodeAppend none).flatMap Append.ops, Fits emptyProps op) := by
  obtain ⟨bytes, hbytes⟩ := appendAll_nodeAppend none
  exact ⟨bytes, hbytes, readPath_returns_iff hbytes (wellformed_nodeAppend none)⟩

/-- A file recovers to a number of whole appends: what is read is a beginning of what was written, and it can be cut at
its durable length and appended to. -/
structure RecoversFrom (ser : PropsSerializer) (crc32 : List UInt8 → BitVec 32) (calls more : List Append)
    (file moreBytes : List UInt8) (result : WalReadResult) (kept : ℕ) (durable : List UInt8) : Prop where
  read : readPath ser crc32 file = .ok result
  records : result.records <+: writtenRecords calls
  ops : plainRecords result.records <+: writtenOps calls
  kept_le : kept ≤ calls.length
  boundary : appendAll ser crc32 (calls.take kept) = .ok durable
  durableLen : result.durableLen = walHeaderSize + durable.length
  truncated : truncateWalGenerationTo file result.durableLen = walHeader ++ durable
  reopened : openGeneration (walHeader ++ durable) = .ok (walHeader ++ durable)
  continued : ∃ durableLen, readPath ser crc32 (walHeader ++ durable ++ moreBytes) =
    .ok ⟨writtenRecords (calls.take kept) ++ writtenRecords more, durableLen⟩

theorem openGeneration_header (bytes : List UInt8) : openGeneration (walHeader ++ bytes) = .ok (walHeader ++ bytes) := by
  have hlen : (walHeader ++ bytes).length = 8 + bytes.length := by
    rw [length_append]
    rfl
  have htake : (walHeader ++ bytes).take walHeaderSize = walHeader := take_left' rfl
  rw [openGeneration, hlen, if_neg (by omega), if_neg (by rw [walHeaderSize]; omega), htake, validateWalHeader_walHeader]

theorem writtenRecords_append (calls more : List Append) :
    writtenRecords (calls ++ more) = writtenRecords calls ++ writtenRecords more := by
  rw [writtenRecords, flatMap_append, map_append]
  rfl

theorem prefix_filter {records all : List SeqOp} (h : records <+: all) : plainRecords records <+: plainRecords all := by
  obtain ⟨more, rfl⟩ := h
  rw [plainRecords_append]
  exact prefix_append _ _

theorem Wellformed.take (h : Wellformed calls) (n : ℕ) : Wellformed (calls.take n) := fun call hcall => h call (mem_of_mem_take hcall)

theorem Wellformed.append {more : List Append} (h : Wellformed calls) (hmore : Wellformed more) : Wellformed (calls ++ more) := by
  intro call hcall
  rcases mem_append.mp hcall with hcall | hcall
  · exact h call hcall
  · exact hmore call hcall

/-- Every cut of a file recovers, and goes on if no operation appended later is larger than the reader accepts. -/
theorem cut_recovers_iff {calls more : List Append} {bytes moreBytes file : List UInt8}
    (h : appendAll ser crc32 calls = .ok bytes) (hmore : appendAll ser crc32 more = .ok moreBytes)
    (hcalls : Wellformed calls) (hlater : Wellformed more)
    (hcrc : ∀ frame ∈ rawFrames calls, RejectsCut crc32 (payloadOf ser frame)) (hfile : file <+: walHeader ++ bytes)
    (hheader : walHeaderSize ≤ file.length) :
    (∃ result kept durable, RecoversFrom ser crc32 calls more file moreBytes result kept durable) ↔
      ∀ op ∈ more.flatMap Append.ops, Fits ser op := by
  obtain ⟨cut, rfl⟩ : walHeader <+: file := prefix_of_prefix_length_le (prefix_append _ _) hfile hheader
  have hcut : cut <+: bytes := (prefix_append_right_inj _).mp hfile
  obtain ⟨whole, left, kept, hframes, hwhole, hkept, hbegin, hdurable, hread⟩ := readPath_cut h hcalls hcrc hcut
  have hall : ∀ n, appendAll ser crc32 (calls.take n ++ more) =
      .ok (bytesOf ser crc32 (rawFrames (calls.take n)) ++ moreBytes) := fun n =>
    appendAll_append.mpr ⟨_, _, appendAll_take h n, hmore, rfl⟩
  have hwell : ∀ n, Wellformed (calls.take n ++ more) := fun n => (hcalls.take n).append hlater
  constructor
  · intro hrecovers
    obtain ⟨result, n, durable, hrecovers⟩ := hrecovers
    obtain ⟨durableLen, hcontinued⟩ := hrecovers.continued
    have hbytes : durable = bytesOf ser crc32 (rawFrames (calls.take n)) :=
      (appendAll_ok hrecovers.boundary).1
    rw [hbytes, append_assoc] at hcontinued
    rw [← writtenRecords_append] at hcontinued
    have hfits := fits_of_readPath (hall n) (hwell n) hcontinued (plainRecords_written (hwell n))
    rw [← fits_frames_iff hmore hlater]
    intro frame hframe
    apply hfits
    rw [rawFrames_append]
    exact mem_append_right _ hframe
  · intro hfits
    refine ⟨_, kept, _, hread, ?_, ?_, hkept, appendAll_take h kept, rfl, ?_, openGeneration_header _, ?_⟩
    · rw [writtenRecords, ← rawFrames, hframes, map_append]
      exact prefix_append _ _
    · rw [← plainRecords_written hcalls]
      apply prefix_filter
      rw [writtenRecords, ← rawFrames, hframes, map_append]
      exact prefix_append _ _
    · obtain ⟨tail, rfl⟩ := hdurable
      rw [truncateWalGenerationTo, ← append_assoc]
      apply take_left'
      rw [length_append]
      rfl
    · have hmoreFits := (fits_frames_iff hmore hlater).mpr hfits
      have hframesFit : ∀ frame ∈ rawFrames (calls.take kept ++ more), Fits ser frame := by
        intro frame hframe
        rw [rawFrames_append] at hframe
        rcases mem_append.mp hframe with hframe | hframe
        · exact hwhole frame (hbegin.subset hframe)
        · exact hmoreFits frame hframe
      obtain ⟨durableLen, hagain⟩ := readPath_fits (hall kept) (hwell kept) hframesFit
      rw [writtenRecords_append, ← append_assoc] at hagain
      exact ⟨durableLen, hagain⟩

theorem rejectsCut_nodeWith : RejectsCut crc32Fast (payloadOf emptyProps (1, nodeWith none)) := by
  intro hwraps
  have hfits := fits_nodeWith
  rw [Fits, maxWalRecordSize] at hfits
  omega

/-- An empty log recovers, and then loses the large vector. -/
theorem cut_loses_later : ∃ bytes, appendAll emptyProps crc32Fast (nodeAppend (some (List.replicate (2 ^ 24) 0))) = .ok bytes ∧
    ¬∃ result kept durable, RecoversFrom emptyProps crc32Fast []
      (nodeAppend (some (List.replicate (2 ^ 24) 0))) walHeader bytes result kept durable := by
  obtain ⟨bytes, hbytes⟩ := appendAll_nodeAppend (some (List.replicate (2 ^ 24) 0))
  refine ⟨bytes, hbytes, fun hrecovers => ?_⟩
  obtain ⟨result, kept, durable, hrecovers⟩ := hrecovers
  obtain ⟨durableLen, hcontinued⟩ := hrecovers.continued
  have hboundary := hrecovers.boundary
  rw [take_nil] at hboundary hcontinued
  rw [← ok.inj hboundary, append_nil] at hcontinued
  have hwell := wellformed_nodeAppend (some (List.replicate (2 ^ 24) 0))
  have hfits := fits_of_readPath hbytes hwell hcontinued (plainRecords_written hwell)
  exact not_fits_nodeWith (length_replicate.ge) (hfits _ mem_cons_self)

/-- A file that is cut before its only record goes on after the crash. -/
theorem cut_goes_on : ∃ bytes, appendAll emptyProps crc32Fast (nodeAppend none) = .ok bytes ∧
    ((∃ result kept durable, RecoversFrom emptyProps crc32Fast (nodeAppend none) (nodeAppend none) walHeader bytes
      result kept durable) ↔ ∀ op ∈ (nodeAppend none).flatMap Append.ops, Fits emptyProps op) := by
  obtain ⟨bytes, hbytes⟩ := appendAll_nodeAppend none
  have hwell := wellformed_nodeAppend none
  have hcrc : ∀ frame ∈ rawFrames (nodeAppend none), RejectsCut crc32Fast (payloadOf emptyProps frame) := by
    intro frame hframe
    obtain rfl := mem_singleton.mp hframe
    exact rejectsCut_nodeWith
  exact ⟨bytes, hbytes, cut_recovers_iff hbytes hbytes hwell hwell hcrc (prefix_append _ _) (Nat.le_refl _)⟩

end

/-- Decoding gives back what was encoded, to the last byte, exactly if the lengths of the vectors fit in
the four bytes that they are written in. -/
theorem roundTrip_iff {ser : PropsSerializer} {op : WalOp} {bytes : List UInt8} (hrange : InRange op)
    (h : encodeWalOp ser op = .ok bytes) :
    decodeWalOp ser bytes = .ok (asLogged op) ∧ ReadsLast (readWalOp ser) bytes (asLogged op) ↔
      ∀ node, op = .upsertNode node → VectorsFit node := by
  have hread := readsLast_encodeWalOp_iff hrange h
  exact ⟨fun hdecoded => hread.mp hdecoded.2, fun hfits => ⟨decodeWalOp_of_reads (hread.mpr hfits), hread.mpr hfits⟩⟩

theorem roundTrip_iff_small : ∃ bytes, encodeWalOp emptyProps (nodeWith none) = .ok bytes ∧
    (decodeWalOp emptyProps bytes = .ok (asLogged (nodeWith none)) ∧
      ReadsLast (readWalOp emptyProps) bytes (asLogged (nodeWith none)) ↔
        ∀ node, nodeWith none = .upsertNode node → VectorsFit node) :=
  ⟨_, rfl, roundTrip_iff (inRange_nodeWith none) rfl⟩

def sparseNode (sparse : SparseVector) : WalOp := .upsertNode ⟨1, firstLabel, "n", ∅, 0, 0, 0, none, some sparse, 0⟩

theorem encode_sparseNode (sparse : SparseVector) : ∃ bytes, encodeWalOp emptyProps (sparseNode sparse) = .ok bytes := ⟨_, rfl⟩

/-- A vector with an entry for every dimension is written with the length zero. -/
theorem every_dimension_not_decoded : ¬∀ (ser : PropsSerializer) (op : WalOp) (bytes : List UInt8), InRange op →
    encodeWalOp ser op = .ok bytes →
      decodeWalOp ser bytes = .ok (asLogged op) ∧ ReadsLast (readWalOp ser) bytes (asLogged op) := by
  intro hall
  have hrange : InRange (sparseNode ((List.range (2 ^ 32)).map fun dimension => (dimension, 0x3f800000))) := by
    obtain ⟨hid, hlabels, hcreated, hupdated, -⟩ := inRange_nodeWith none
    refine ⟨hid, hlabels, hcreated, hupdated, ?_⟩
    intro sparse hsparse entry hentry
    rw [← Option.some.inj hsparse] at hentry
    obtain ⟨dimension, hdimension, rfl⟩ := mem_map.mp hentry
    exact mem_range.mp hdimension
  obtain ⟨bytes, hbytes⟩ := encode_sparseNode ((List.range (2 ^ 32)).map fun dimension => (dimension, 0x3f800000))
  have hfits := (roundTrip_iff hrange hbytes).mp (hall emptyProps _ bytes hrange hbytes) _ rfl
  have hlength := hfits.sparse _ rfl
  rw [length_map, length_range] at hlength
  exact hlength.false

end OverGraph.WalReading
