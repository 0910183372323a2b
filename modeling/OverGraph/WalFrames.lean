import OverGraph.Records

/-!
# Frames of the write-ahead log

An append writes a single operation as one frame and several as one batch between a begin
and a commit frame. The reader stops at the first frame that does not fit, and replay
applies a batch only when its commit frame is reached, so that any cut of the log replays
as a number of whole appends.
-/

namespace OverGraph.WalFrames
open Records List Nat

def u32Max : ℕ := 2 ^ 32 - 1

def u64Max : ℕ := 2 ^ 64 - 1

def isControl : WalOp → Bool
  | .beginAtomicBatch _ _ | .commitAtomicBatch _ _ => true
  | _ => false

/-- The sequence numbers count up from the given one without leaving the range. -/
def contiguous : ℕ → List SeqOp → Bool
  | _, [] => true
  | q, op :: ops => op.1 == q && decide (q ≤ u64Max) && contiguous (q + 1) ops

/-- The frames an append writes, if it is accepted. -/
def appendBatch : List SeqOp → Option (List SeqOp)
  | [] => some []
  | [op] => some [op]
  | op :: next :: ops =>
    let batch := op :: next :: ops
    let firstSeq := op.1
    if decide (u32Max < batch.length) || firstSeq == 0 || !contiguous firstSeq batch then none
    else some ((firstSeq, .beginAtomicBatch firstSeq batch.length) :: batch ++ [(firstSeq, .commitAtomicBatch firstSeq batch.length)])

structure ReadAtomicBatch where
  firstSeq : ℕ
  opCount : ℕ
  opsRead : ℕ

namespace ReadAtomicBatch

def new (firstSeq opCount : ℕ) : Option ReadAtomicBatch :=
  if firstSeq == 0 || decide (opCount < 2) then none else some ⟨firstSeq, opCount, 0⟩

def pushNormalOp (b : ReadAtomicBatch) (q : ℕ) : Option ReadAtomicBatch :=
  if b.opCount ≤ b.opsRead then none
  else if u64Max < b.firstSeq + b.opsRead then none
  else if q = b.firstSeq + b.opsRead then some { b with opsRead := b.opsRead + 1 }
  else none

def matchesCommit (b : ReadAtomicBatch) (firstSeq opCount : ℕ) : Bool :=
  b.firstSeq == firstSeq && b.opCount == opCount && b.opsRead == opCount

end ReadAtomicBatch

/-- The reader's loop variables; positions are offsets into the log. -/
structure ReadState where
  records : List SeqOp
  openBatch : Option ReadAtomicBatch
  pos : ℕ
  durableLen : ℕ

/-- What the reader does with a frame that ends at the given offset, unless it stops. -/
def readStep (st : ReadState) (frameEnd : ℕ) (frame : SeqOp) : Option ReadState :=
  match frame.2 with
  | .beginAtomicBatch firstSeq opCount =>
    if st.openBatch.isSome then none
    else (ReadAtomicBatch.new firstSeq opCount).map fun batch =>
      { st with records := st.records ++ [frame], openBatch := some batch, pos := frameEnd }
  | .commitAtomicBatch firstSeq opCount =>
    st.openBatch.bind fun batch =>
      if batch.matchesCommit firstSeq opCount then
        some ⟨st.records ++ [frame], none, frameEnd, frameEnd⟩
      else none
  | _ =>
    match st.openBatch with
    | some batch => (batch.pushNormalOp frame.1).map fun batch =>
        { st with records := st.records ++ [frame], openBatch := some batch, pos := frameEnd }
    | none => some ⟨st.records ++ [frame], none, frameEnd, frameEnd⟩

/-- The loop over the frames of a log whose offsets count frames. -/
def readLoop : ReadState → List SeqOp → ReadState
  | st, [] => st
  | st, frame :: frames =>
    match readStep st (st.pos + 1) frame with
    | some st => readLoop st frames
    | none => st

structure WalReadResult where
  records : List SeqOp
  durableLen : ℕ

def readGenerationRecoverable (frames : List SeqOp) : WalReadResult :=
  let st := readLoop ⟨[], none, 0, 0⟩ frames
  ⟨st.records, st.durableLen⟩

structure ReplayAtomicBatch where
  firstSeq : ℕ
  opCount : ℕ
  ops : List SeqOp

namespace ReplayAtomicBatch

def new (firstSeq opCount : ℕ) : Option ReplayAtomicBatch :=
  if firstSeq == 0 || decide (opCount < 2) then none else some ⟨firstSeq, opCount, []⟩

def push (b : ReplayAtomicBatch) (op : SeqOp) : Option ReplayAtomicBatch :=
  if b.opCount ≤ b.ops.length then none else some { b with ops := b.ops ++ [op] }

def matchesCommit (b : ReplayAtomicBatch) (firstSeq opCount : ℕ) : Bool :=
  b.firstSeq == firstSeq && b.opCount == opCount && b.ops.length == opCount &&
    contiguous b.firstSeq b.ops

end ReplayAtomicBatch

/-- The groups of operations replay applies together, up to the record it stops at. -/
def replayGroups : Option ReplayAtomicBatch → List SeqOp → List (List SeqOp)
  | _, [] => []
  | openBatch, (q, op) :: records =>
    match op with
    | .beginAtomicBatch firstSeq opCount =>
      if openBatch.isSome then []
      else match ReplayAtomicBatch.new firstSeq opCount with
        | some batch => replayGroups (some batch) records
        | none => []
    | .commitAtomicBatch firstSeq opCount =>
      match openBatch with
      | some batch => if batch.matchesCommit firstSeq opCount then batch.ops :: replayGroups none records else []
      | none => []
    | op =>
      match openBatch with
      | some batch => match batch.push (q, op) with
        | some batch => replayGroups (some batch) records
        | none => []
      | none => [(q, op)] :: replayGroups none records

/-- The frames of an accepted append of ordinary operations. -/
structure Appended (batch frames : List SeqOp) : Prop where
  accepted : appendBatch batch = some frames
  nonempty : batch ≠ []
  plain : ∀ op ∈ batch, isControl op.2 = false

/-- The frames of a log are those of the appends, one after the other. -/
def Logged (batches : List (List SeqOp)) (frames : List SeqOp) : Prop :=
  ∃ chunks, List.Forall₂ Appended batches chunks ∧ frames = chunks.flatten

theorem logged_nil : Logged [] [] := ⟨[], .nil, rfl⟩

variable {frames : List SeqOp} {batches : List (List SeqOp)}

/-- An append is one bare frame or a batch between its control frames. -/
theorem Appended.shape {batch frames : List SeqOp} (h : Appended batch frames) : (∃ op, batch = [op] ∧ frames = [op]) ∨
      ∃ firstSeq, firstSeq ≠ 0 ∧ 2 ≤ batch.length ∧ contiguous firstSeq batch = true ∧
        frames = (firstSeq, .beginAtomicBatch firstSeq batch.length) :: batch ++
          [(firstSeq, .commitAtomicBatch firstSeq batch.length)] := by
  match batch, h with
  | [], h => exact absurd rfl h.nonempty
  | [op], h =>
    have hfrs := h.accepted
    simp only [appendBatch, Option.some.injEq] at hfrs
    exact .inl ⟨op, rfl, hfrs.symm⟩
  | op :: next :: ops, h =>
    have hfrs := h.accepted
    simp only [appendBatch] at hfrs
    split at hfrs
    · cases hfrs
    · rename_i hok
      simp only [Bool.or_eq_true, decide_eq_true_eq, beq_iff_eq, Bool.not_eq_eq_eq_not, Bool.not_true, not_or, Bool.not_eq_false] at hok
      refine .inr ⟨op.1, hok.1.2, ?_, hok.2, (Option.some.inj hfrs).symm⟩
      simp only [length_cons]
      omega

variable {ops : List SeqOp}

theorem contiguous_cons {q : ℕ} {op : SeqOp} (h : contiguous q (op :: ops) = true) :
    op.1 = q ∧ q ≤ u64Max ∧ contiguous (q + 1) ops = true := by
  simpa [contiguous, and_assoc] using h

theorem contiguous_of_beginning {q : ℕ} {part : List SeqOp}
    (h : contiguous q ops = true) (hpart : part <+: ops) : contiguous q part = true := by
  induction part generalizing q ops with
  | nil => rfl
  | cons op part ih =>
    obtain ⟨rest, rfl⟩ := hpart
    obtain ⟨hq, hmax, hnext⟩ := contiguous_cons h
    have hrest := ih hnext (prefix_append part rest)
    simp [contiguous, hq, hmax, hrest]

variable {frame : SeqOp}

theorem readStep_bare {st : ReadState} (hopen : st.openBatch = none)
    (h : isControl frame.2 = false) (n : ℕ) : readStep st n frame = some ⟨st.records ++ [frame], none, n, n⟩ := by
  obtain ⟨q, op⟩ := frame
  cases op <;> first | (cases h; done) | simp only [readStep, hopen]

theorem readStep_inside {st : ReadState} {b : ReadAtomicBatch} (hopen : st.openBatch = some b) (h : isControl frame.2 = false) (hroom : b.opsRead < b.opCount)
    (hq : frame.1 = b.firstSeq + b.opsRead) (hmax : frame.1 ≤ u64Max) (n : ℕ) : readStep st n frame =
      some ⟨st.records ++ [frame], some { b with opsRead := b.opsRead + 1 }, n, st.durableLen⟩ := by
  have hpush : b.pushNormalOp frame.1 = some { b with opsRead := b.opsRead + 1 } := by
    rw [ReadAtomicBatch.pushNormalOp, if_neg (by omega), if_neg (by omega), if_pos hq]
  obtain ⟨q, op⟩ := frame
  cases op <;> first | (cases h; done) | simp only [readStep, hopen, hpush, Option.map_some]

variable {firstSeq : ℕ}

theorem readLoop_batch {n : ℕ}
    (hpl : ∀ op ∈ ops, isControl op.2 = false) (rest : List SeqOp) (rs : List SeqOp) (i p d : ℕ)
    (hseq : contiguous (firstSeq + i) ops = true) (hroom : i + ops.length ≤ n) :
    readLoop ⟨rs, some ⟨firstSeq, n, i⟩, p, d⟩ (ops ++ rest) =
      readLoop ⟨rs ++ ops, some ⟨firstSeq, n, i + ops.length⟩, p + ops.length, d⟩ rest := by
  induction ops generalizing rs i p with
  | nil => simp
  | cons op ops ih =>
    obtain ⟨hq, hmax, hnext⟩ := contiguous_cons hseq
    rw [length_cons] at hroom
    rw [cons_append, readLoop, readStep_inside rfl (hpl op mem_cons_self) (by dsimp only; omega) hq (by omega)]
    dsimp only
    rw [ih (fun o ho => hpl o (mem_cons_of_mem _ ho)) _ _ _ hnext (by omega)]
    simp only [append_assoc, singleton_append, length_cons, add_assoc, add_comm 1]

theorem readStep_begin {opCount : ℕ} (hfst : firstSeq ≠ 0) (hcnt : 2 ≤ opCount)
    (rs : List SeqOp) (q p d n : ℕ) : readStep ⟨rs, none, p, d⟩ n (q, .beginAtomicBatch firstSeq opCount) =
      some ⟨rs ++ [(q, .beginAtomicBatch firstSeq opCount)], some ⟨firstSeq, opCount, 0⟩, n, d⟩ := by
  have hnew : ReadAtomicBatch.new firstSeq opCount = some ⟨firstSeq, opCount, 0⟩ := by
    rw [ReadAtomicBatch.new, if_neg]
    simp only [Bool.or_eq_true, beq_iff_eq, decide_eq_true_eq, not_or]
    omega
  simp [readStep, hnew]

section
variable {batch frames : List SeqOp} (h : Appended batch frames)
include h

/-- The reader goes through a whole append. -/
theorem readLoop_appended (rs rest : List SeqOp) (p : ℕ) : readLoop ⟨rs, none, p, p⟩ (frames ++ rest) =
      readLoop ⟨rs ++ frames, none, p + frames.length, p + frames.length⟩ rest := by
  obtain ⟨op, hb, rfl⟩ | ⟨firstSeq, hfst, hlen, hseq, rfl⟩ := h.shape
  · rw [singleton_append, readLoop, readStep_bare rfl (h.plain op (by simp [hb]))]
    rfl
  · rw [cons_append, cons_append, readLoop, readStep_begin hfst hlen]
    dsimp only
    rw [append_assoc, readLoop_batch h.plain _ _ 0 _ _ hseq (by omega)]
    simp only [singleton_append, readLoop, readStep, Option.bind_some,
      ReadAtomicBatch.matchesCommit, beq_self_eq_true, zero_add, Bool.and_self, if_true]
    simp only [append_assoc, cons_append, nil_append, length_cons, length_append, length_nil, add_assoc, add_comm 1]

/-- A proper beginning of an append's frames lacks the commit frame. -/
theorem Appended.beginning {cut : List SeqOp} (hcut : cut <+: frames) (hne : cut ≠ frames) :
    cut = [] ∨ ∃ firstSeq part, firstSeq ≠ 0 ∧ 2 ≤ batch.length ∧ part <+: batch ∧ contiguous firstSeq part = true ∧
      cut = (firstSeq, .beginAtomicBatch firstSeq batch.length) :: part := by
  obtain ⟨op, -, rfl⟩ | ⟨firstSeq, hfst, hlen, hseq, rfl⟩ := h.shape
  · rw [prefix_cons_iff] at hcut
    obtain rfl | ⟨part, rfl, hpart⟩ := hcut
    · exact .inl rfl
    · exact absurd (by rw [prefix_nil.mp hpart]) hne
  · rw [cons_append, prefix_cons_iff] at hcut
    obtain rfl | ⟨part, rfl, hpart⟩ := hcut
    · exact .inl rfl
    · rw [prefix_concat_iff] at hpart
      obtain rfl | hpart := hpart
      · exact absurd rfl hne
      · exact .inr ⟨firstSeq, part, hfst, hlen, hpart, contiguous_of_beginning hseq hpart, rfl⟩

end

/-- The reader keeps the frames of an append that was cut short, but nothing of it counts
as durable. -/
theorem readLoop_beginning {batch frames : List SeqOp} (h : Appended batch frames)
    {cut : List SeqOp} (hcut : cut <+: frames) (hne : cut ≠ frames) (rs : List SeqOp) (p : ℕ) :
    (readLoop ⟨rs, none, p, p⟩ cut).records = rs ++ cut ∧ (readLoop ⟨rs, none, p, p⟩ cut).durableLen = p := by
  obtain rfl | ⟨firstSeq, part, hfst, hlen, hpart, hseq, rfl⟩ := h.beginning hcut hne
  · simp [readLoop]
  · have hpl : ∀ op ∈ part, isControl op.2 = false := fun op hop => h.plain op (hpart.subset hop)
    have hpartLen := hpart.length_le
    rw [readLoop, readStep_begin hfst hlen]
    dsimp only
    rw [← append_nil part, readLoop_batch hpl _ _ 0 _ _ hseq (by omega)]
    simp [readLoop]

theorem replayGroups_bare (h : isControl frame.2 = false) (rest : List SeqOp) :
    replayGroups none (frame :: rest) = [frame] :: replayGroups none rest := by
  obtain ⟨q, op⟩ := frame
  cases op <;> first | (cases h; done) | simp only [replayGroups]

theorem replayGroups_inside {b : ReplayAtomicBatch}
    (hpl : ∀ op ∈ ops, isControl op.2 = false) (hroom : b.ops.length + ops.length ≤ b.opCount) (rest : List SeqOp) :
    replayGroups (some b) (ops ++ rest) = replayGroups (some { b with ops := b.ops ++ ops }) rest := by
  induction ops generalizing b with
  | nil => simp
  | cons frame ops ih =>
    rw [length_cons] at hroom
    have hpush : b.push frame = some { b with ops := b.ops ++ [frame] } := by rw [ReplayAtomicBatch.push, if_neg (by omega)]
    have hstep : replayGroups (some b) (frame :: (ops ++ rest)) = replayGroups (some { b with ops := b.ops ++ [frame] }) (ops ++ rest) := by
      have hfrm := hpl frame mem_cons_self
      obtain ⟨q, op⟩ := frame
      cases op <;> first | (cases hfrm; done) | simp only [replayGroups, hpush]
    rw [cons_append, hstep, ih (fun o ho => hpl o (mem_cons_of_mem _ ho))]
    · simp
    · simp only [length_append, length_singleton]
      omega

theorem replayGroups_begin {opCount : ℕ} (hfst : firstSeq ≠ 0) (hcnt : 2 ≤ opCount)
    (q : ℕ) (rest : List SeqOp) : replayGroups none ((q, .beginAtomicBatch firstSeq opCount) :: rest) =
      replayGroups (some ⟨firstSeq, opCount, []⟩) rest := by
  have hnew : ReplayAtomicBatch.new firstSeq opCount = some ⟨firstSeq, opCount, []⟩ := by
    rw [ReplayAtomicBatch.new, if_neg]
    simp only [Bool.or_eq_true, beq_iff_eq, decide_eq_true_eq, not_or]
    omega
  simp [replayGroups, hnew]

section
variable {batch frames : List SeqOp} (h : Appended batch frames)
include h

theorem replayGroups_appended (rest : List SeqOp) :
    replayGroups none (frames ++ rest) = batch :: replayGroups none rest := by
  obtain ⟨op, hb, rfl⟩ | ⟨firstSeq, hfst, hlen, hseq, rfl⟩ := h.shape
  · rw [singleton_append, replayGroups_bare (h.plain op (by simp [hb])), hb]
  · rw [cons_append, cons_append, replayGroups_begin hfst hlen, append_assoc, replayGroups_inside h.plain (by simp)]
    simp [replayGroups, ReplayAtomicBatch.matchesCommit, hseq]

theorem replayGroups_beginning {cut : List SeqOp} (hcut : cut <+: frames) (hne : cut ≠ frames) : replayGroups none cut = [] := by
  obtain rfl | ⟨firstSeq, part, hfst, hlen, hpart, hseq, rfl⟩ := h.beginning hcut hne
  · rfl
  · have hpl : ∀ op ∈ part, isControl op.2 = false := fun op hop => h.plain op (hpart.subset hop)
    have hpartLen := hpart.length_le
    rw [replayGroups_begin hfst hlen, ← append_nil part, replayGroups_inside hpl (by simpa using hpartLen)]
    rfl

end

/-- A cut of a log reads back whole and replays as a number of whole appends, whose frames
are its durable part. -/
structure CutAt (batches : List (List SeqOp)) (cut : List SeqOp) (kept : ℕ) (durable : List SeqOp) : Prop where
  durable_cut : durable <+: cut
  logged : Logged (batches.take kept) durable
  records : (readGenerationRecoverable cut).records = cut
  durableLen : (readGenerationRecoverable cut).durableLen = durable.length
  groups : replayGroups none cut = batches.take kept

theorem cut_read {batches chunks : List (List SeqOp)} (h : Forall₂ Appended batches chunks)
    {cut : List SeqOp} (hcut : cut <+: chunks.flatten) (rs : List SeqOp) (p : ℕ) :
    ∃ kept durable, durable <+: cut ∧ Logged (batches.take kept) durable ∧ (readLoop ⟨rs, none, p, p⟩ cut).records = rs ++ cut ∧
      (readLoop ⟨rs, none, p, p⟩ cut).durableLen = p + durable.length ∧ replayGroups none cut = batches.take kept := by
  induction h generalizing cut rs p with
  | nil =>
    obtain rfl := prefix_nil.mp hcut
    exact ⟨0, [], prefix_refl _, logged_nil, by simp [readLoop], by simp [readLoop], rfl⟩
  | @cons batch frames batches chunks hb hrest ih =>
    rw [flatten_cons] at hcut
    -- either the first append is whole, and the rest is cut, or it is cut itself
    by_cases hwh : frames <+: cut
    · obtain ⟨more, rfl⟩ := hwh
      obtain ⟨kept, durable, hdur, ⟨done, hdone, rfl⟩, hread, hlen, hgrps⟩ :=
        ih ((prefix_append_right_inj _).mp hcut) (rs ++ frames) (p + frames.length)
      refine ⟨kept + 1, frames ++ done.flatten, (prefix_append_right_inj _).mpr hdur, ⟨frames :: done, .cons hb hdone, rfl⟩, ?_, ?_, ?_⟩
      · rw [readLoop_appended hb, hread, append_assoc]
      · rw [readLoop_appended hb, hlen, length_append, add_assoc]
      · rw [replayGroups_appended hb, hgrps, take_succ_cons]
    · have hpart : cut <+: frames :=
        (List.prefix_or_prefix_of_prefix hcut (prefix_append _ _)).resolve_right hwh
      have hne : cut ≠ frames := fun heq => hwh (heq ▸ prefix_refl _)
      obtain ⟨hread, hlen⟩ := readLoop_beginning hb hpart hne rs p
      exact ⟨0, [], nil_prefix, logged_nil, hread, hlen, replayGroups_beginning hb hpart hne⟩

/-- Whatever the cut, whole appends survive. -/
theorem Logged.cut (h : Logged batches frames)
    {cut : List SeqOp} (hcut : cut <+: frames) : ∃ kept durable, CutAt batches cut kept durable := by
  obtain ⟨chunks, hcks, rfl⟩ := h
  obtain ⟨kept, durable, hdur, hlog', hread, hlen, hgrps⟩ := cut_read hcks hcut [] 0
  exact ⟨kept, durable, hdur, hlog', hread, hlen.trans (zero_add _), hgrps⟩

/-- A whole log replays as its appends. -/
theorem Logged.groups (h : Logged batches frames) : replayGroups none frames = batches := by
  obtain ⟨chunks, hcks, rfl⟩ := h
  induction hcks with
  | nil => rfl
  | cons hb _ ih => rw [flatten_cons, replayGroups_appended hb, ih]

theorem replayGroups_mono (openBatch : Option ReplayAtomicBatch) (records more : List SeqOp) :
    replayGroups openBatch records <+: replayGroups openBatch (records ++ more) := by
  induction records generalizing openBatch with
  | nil => exact nil_prefix
  | cons r records ih =>
    obtain ⟨q, op⟩ := r
    cases op with
    | beginAtomicBatch firstSeq opCount =>
      simp only [cons_append, replayGroups]
      split
      · exact prefix_refl _
      · split
        · exact ih _
        · exact prefix_refl _
    | commitAtomicBatch firstSeq opCount =>
      simp only [cons_append, replayGroups]
      split
      · split
        · exact (prefix_cons_inj _).mpr (ih _)
        · exact prefix_refl _
      · exact prefix_refl _
    | _ =>
      simp only [cons_append, replayGroups]
      split
      · split
        · exact ih _
        · exact prefix_refl _
      · exact (prefix_cons_inj _).mpr (ih _)

end OverGraph.WalFrames
