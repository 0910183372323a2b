import OverGraph.ReplayedCommits

/-!
# Commits that fail

A commit checks the schema, looks up the edges it replaces, appends the plan to the log, syncs the log, applies the plan and does
what flush work is due; each of these may fail. A failure up to the append leaves the engine as it was. A failure of the flush work
is reported by the write that ran it, and that write took effect.
-/

namespace OverGraph.FailedCommits
open Records LayeredWrites Memtable Sources LayeredStore List Store
open WalFrames WalCodec WalFiles WalReading WalFailures ReplayedCommits Fallible
open VectorForms (WeightSum DenseVectorConfig)
open LabelRecovery (Catalogs)

inductive CommitError where
  | io (message : String)
  | walSyncFailed (message : String)
  | schemaViolation (message : String)
  | step (error : StepError)

/-- How the flush work goes: the error of the flush pipeline that is surfaced first, whether the memtable has reached the threshold,
and what fails in the freeze and in the handing over. A manifest write that fails may still have reached the disk. -/
structure FlushIo where
  pipelineError : Option CommitError
  due : Bool
  syncError : Option CommitError
  manifestError : Option (CommitError × Bool)
  openError : Option CommitError
  enqueueError : Option CommitError

/-- How a commit goes: a write to the log fails after some of its bytes, and the log may be poisoned. -/
structure CommitIo where
  schemaError : Option CommitError
  lookupError : Option CommitError
  poisoned : Option String
  writeFails : Option (ℕ × CommitError)
  syncError : Option CommitError
  flush : FlushIo

/-- The engine core with what went out to the log of its generation, and with the log of the next generation when the manifest
names one. -/
structure LoggedCore (W : Type) where
  core : EngineCore W
  file : List UInt8
  next : Option (List UInt8)
  nextWalGenerationId : ℕ

section
variable {W : Type} [AddCommGroup W] [DecidableEq W] (ser : PropsSerializer) (crc32 : List UInt8 → BitVec 32) (val : F32 → W)
  (mode : WalSyncMode)

/-- The counters of identifiers stay where the plan has moved them. -/
def LoggedCore.withCounters (s : LoggedCore W) (plan : CoreWritePlan) : LoggedCore W :=
  { s with core := { s.core with nextNodeId := plan.nextNodeId, nextEdgeId := plan.nextEdgeId } }

def planAppend (core : EngineCore W) (plan : CoreWritePlan) : Append :=
  match plan.ops with
  | [op] => .single (core.store.engineSeq + 1) op.op
  | ops => .batch (sequenced core.store.engineSeq (ops.map (·.op)))

/-- The operations up to the first whose label cannot be entered. -/
def applyUpTo (core : EngineCore W) : List SeqOp → EngineCore W
  | [] => core
  | op :: ops =>
    let core := { core with store := { core.store with engineSeq := op.1 } }
    match applyLabelTokenOpAfterWalAppend core.activeWalGenerationId core.catalogs op.2 with
    | .error _ => core
    | .ok cats =>
      applyUpTo { core with
        catalogs := cats
        store := { core.store with active := { core.store.active with memtable := core.store.active.memtable.applyOp op } } } ops

/-- What goes out of an encoded append. In the mode of group commits no sync follows, but a log that is poisoned takes nothing. -/
def walAppend (io : CommitIo) (encoded : Except EngineError (List UInt8)) : Option CommitError × List UInt8 :=
  match mode, io.poisoned with
  | .groupCommit _, some msg => (some (.walSyncFailed msg), [])
  | _, _ =>
    match encoded with
    | .error error => (some (.step (.engine error)), [])
    | .ok bytes =>
      match io.writeFails with
      | some (count, error) => (some error, bytes.take count)
      | none => (match mode with | .immediate => io.syncError | .groupCommit _ => none, bytes)

def appendAndApply (s : LoggedCore W) (plan : CoreWritePlan) (io : CommitIo) : Option CommitError × LoggedCore W :=
  if plan.ops = [] then (none, s.withCounters plan)
  else match io.lookupError with
    | some error => (some error, s.withCounters plan)
    | none =>
      match walAppend mode io (appendBytes ser crc32 (planAppend s.core plan)) with
      | (some error, out) => (some error, { s.withCounters plan with file := s.file ++ out })
      | (none, out) =>
        match EngineCore.commitCoreWritePlan ser crc32 val s.core plan with
        | .ok core => (none, { s with core := core, file := s.file ++ out })
        | .error error => (some (.step error), { s with core := applyUpTo s.core (planAppend s.core plan).ops, file := s.file ++ out })

/-- The active memtable becomes the newest frozen one. -/
def rotate (newWalGen : ℕ) (core : EngineCore W) : EngineCore W :=
  { core with store := core.store.freezeMemtable, activeWalGenerationId := newWalGen, appends := [] }

def freezeMemtable (s : LoggedCore W) (io : FlushIo) : Option CommitError × LoggedCore W :=
  if memtableIsEmpty s.core.store.active.memtable then (none, s)
  else match io.syncError with
    | some error => (some error, s)
    | none => match io.manifestError with
      | some (error, recorded) => (some error, if recorded then { s with next := some [] } else s)
      | none => match io.openError with
        | some error => (some error, { s with next := some [] })
        | none => (none, { s with core := rotate s.nextWalGenerationId s.core, next := some walHeader })

def maybeAutoFlush (s : LoggedCore W) (io : FlushIo) : Option CommitError × LoggedCore W :=
  match io.pipelineError with
  | some error => (some error, s)
  | none =>
    if io.due then
      match freezeMemtable s io with
      | (some error, s) => (some error, s)
      | (none, s) => (io.enqueueError, s)
    else (none, s)

/-- A plan that violates the schema gives its identifiers back; a schema check that could not be made does not. -/
def commitCoreWritePlan (s : LoggedCore W) (plan : CoreWritePlan) (autoFlush : Bool) (io : CommitIo) : Option CommitError × LoggedCore W :=
  match io.schemaError with
  | some (.schemaViolation msg) => (some (.schemaViolation msg), s)
  | some error => (some error, s.withCounters plan)
  | none =>
    match appendAndApply ser crc32 val mode s plan io with
    | (some error, s) => (some error, s)
    | (none, s) => if autoFlush then maybeAutoFlush s io.flush else (none, s)

end

section
variable {W : Type} [AddCommGroup W] [DecidableEq W] (ser : PropsSerializer) (crc32 : List UInt8 → BitVec 32) (val : F32 → W)
  (sum : WeightSum) (dense : Option DenseVectorConfig)

def restored (opened : EngineCore W) (replayed : ReplayedGeneration W) : EngineCore W :=
  { opened with
    store := { opened.store with active := ⟨replayed.memtable, replayed.degreeOverlay⟩, engineSeq := replayed.engineSeq }
    catalogs := replayed.catalogs
    nextNodeId := nextNodeIdOnOpen opened.nextNodeId replayed.memtable
    nextEdgeId := nextEdgeIdOnOpen opened.nextEdgeId replayed.memtable }

/-- The logs are replayed over the core that the generation began with. -/
def reopen (start : EngineCore W) (s : LoggedCore W) : Except StepError (EngineCore W) := do
  let replayed ← replayWalGenerationToMemtableAndOverlay ser crc32 val sum dense start s.file
  let core := restored start replayed
  match s.next with
  | none => .ok core
  | some file =>
    let frozen := rotate s.nextWalGenerationId core
    let replayed ← replayWalGenerationToMemtableAndOverlay ser crc32 val sum dense frozen file
    .ok (restored frozen replayed)

end

section
variable {W : Type}

/-- Reads find the same records, and the sequence number and the labels are the same. -/
structure Agree (core other : EngineCore W) : Prop where
  nodes : visible core.store.sources.nodeLayers = visible other.store.sources.nodeLayers
  edges : visible core.store.sources.edgeLayers = visible other.store.sources.edgeLayers
  engineSeq : core.store.engineSeq = other.store.engineSeq
  catalogs : core.catalogs = other.catalogs

theorem Agree.refl (core : EngineCore W) : Agree core core := ⟨rfl, rfl, rfl, rfl⟩

theorem Agree.trans {fst snd third : EngineCore W} (h : Agree fst snd) (h' : Agree snd third) : Agree fst third :=
  ⟨h.nodes.trans h'.nodes, h.edges.trans h'.edges, h.engineSeq.trans h'.engineSeq, h.catalogs.trans h'.catalogs⟩

theorem agree_rotate (newWalGen : ℕ) (core : EngineCore W) : Agree (rotate newWalGen core) core where
  nodes := by
    funext id
    simp only [visible, Store.sources, SourceList.nodeLayers, rotate, Store.freezeMemtable, map_cons, cons_append, firstOpinion_cons]
    rfl
  edges := by
    funext id
    simp only [visible, Store.sources, SourceList.edgeLayers, rotate, Store.freezeMemtable, map_cons, cons_append, firstOpinion_cons]
    rfl
  engineSeq := rfl
  catalogs := rfl

theorem Agree.rotate {core other : EngineCore W} (h : Agree core other) (newWalGen : ℕ) : Agree (FailedCommits.rotate newWalGen core) other :=
  (agree_rotate newWalGen core).trans h

end

section
variable {W : Type} [AddCommGroup W] [DecidableEq W] {ser : PropsSerializer} {crc32 : List UInt8 → BitVec 32} {val : F32 → W}
  {sum : WeightSum} {dense : Option DenseVectorConfig} {start core : EngineCore W} {s : LoggedCore W}

/-- The log holds the appends of the core, and no next generation has begun. -/
structure Intact (ser : PropsSerializer) (crc32 : List UInt8 → BitVec 32) (val : F32 → W) (sum : WeightSum)
    (dense : Option DenseVectorConfig) (start : EngineCore W) (s : LoggedCore W) : Prop where
  running : Running ser crc32 val sum dense start s.core
  file : ∃ bytes, appendAll ser crc32 s.core.appends = .ok bytes ∧ s.file = walHeader ++ bytes
  fits : ∀ op ∈ s.core.written, Fits ser op
  next : s.next = none

/-- Opening the database again gives a core that reads as this one. -/
def Reopens (ser : PropsSerializer) (crc32 : List UInt8 → BitVec 32) (val : F32 → W) (sum : WeightSum)
    (dense : Option DenseVectorConfig) (start : EngineCore W) (s : LoggedCore W) (core : EngineCore W) : Prop :=
  ∃ reopened, reopen ser crc32 val sum dense start s = .ok reopened ∧ Agree reopened core

variable {replayed : ReplayedGeneration W}

omit [DecidableEq W] in
theorem agree_restored (h : Running ser crc32 val sum dense start core)
    (hrcv : Recovered start core replayed) : Agree (restored start replayed) core := by
  have hsrcs : (restored start replayed).store.sources = core.store.sources := by
    rw [sources, sources, h.immutable, h.segments, ← hrcv.memtable, ← hrcv.engineSeq]
    rfl
  exact ⟨by rw [hsrcs], by rw [hsrcs], hrcv.engineSeq, hrcv.catalogs⟩

/-- A log without records replays to nothing. -/
theorem replay_blank {file : List UInt8} (hfile : file = [] ∨ file = walHeader) (opened : EngineCore W) :
    ∃ durableLen, replayWalGenerationToMemtableAndOverlay ser crc32 val sum dense opened file =
      .ok ⟨MemtableState.empty, ∅, opened.catalogs, opened.store.engineSeq, durableLen⟩ := by
  have hread : ∃ durableLen, readPath ser crc32 file = .ok ⟨[], durableLen⟩ := by
    obtain rfl | rfl := hfile
    · exact ⟨0, rfl⟩
    · have hblank := @readPath_fits ser crc32 [] [] rfl (fun _ hcall => absurd hcall not_mem_nil)
        fun _ hfrm => absurd hfrm not_mem_nil
      rw [append_nil] at hblank
      exact hblank
  obtain ⟨durableLen, hread⟩ := hread
  refine ⟨durableLen, ?_⟩
  rw [replayWalGenerationToMemtableAndOverlay, hread]
  rfl

/-- The log of a generation that has begun but holds nothing changes nothing. -/
theorem reopens_of_replayed
    (hreplay : replayWalGenerationToMemtableAndOverlay ser crc32 val sum dense start s.file = .ok replayed)
    (hagree : Agree (restored start replayed) core) (hnext : s.next = none ∨ s.next = some [] ∨ s.next = some walHeader) :
    Reopens ser crc32 val sum dense start s core := by
  have hblank : ∀ file, (file = [] ∨ file = walHeader) → s.next = some file → Reopens ser crc32 val sum dense start s core := by
    intro file hfile hsome
    obtain ⟨durableLen, hemp⟩ := @replay_blank W _ _ ser crc32 val sum dense file hfile
      (rotate s.nextWalGenerationId (restored start replayed))
    refine ⟨restored (rotate s.nextWalGenerationId (restored start replayed)) ⟨MemtableState.empty, ∅,
      (restored start replayed).catalogs, (restored start replayed).store.engineSeq, durableLen⟩, ?_,
      Agree.trans ?_ (hagree.rotate s.nextWalGenerationId)⟩
    · rw [reopen, hreplay, ok_bind, hsome]
      dsimp only
      rewrite [hemp, ok_bind]
      rfl
    · exact ⟨rfl, rfl, rfl, rfl⟩
  obtain hnone | hemp | hhdr := hnext
  · refine ⟨restored start replayed, ?_, hagree⟩
    rw [reopen, hreplay, ok_bind, hnone]
  · exact hblank [] (Or.inl rfl) hemp
  · exact hblank walHeader (Or.inr rfl) hhdr

variable {bytes : List UInt8}

/-- The log of a core recovers to it. -/
theorem reopens_of_file (h : Running ser crc32 val sum dense start core)
    (hbs : appendAll ser crc32 core.appends = .ok bytes) (hfits : ∀ op ∈ core.written, Fits ser op)
    (hfile : s.file = walHeader ++ bytes) (hnext : s.next = none ∨ s.next = some [] ∨ s.next = some walHeader) :
    Reopens ser crc32 val sum dense start s core := by
  obtain ⟨durableLen, hread⟩ := readPath_fits hbs h.wellformed ((fits_frames_iff hbs h.wellformed).mpr hfits)
  obtain ⟨-, -, hacc⟩ := appendAll_ok hbs
  have hgrps := (logged_calls (fun call hcall op hop => (h.wellformed call hcall op hop).1) hacc).groups
  obtain ⟨replayed, hrep, hrcv⟩ := h.recovered hread hgrps
  rw [← hfile] at hrep
  exact reopens_of_replayed hrep (agree_restored h hrcv) hnext

/-- A part of an append behind the log of a core is not recovered. -/
theorem reopens_of_torn (h : Running ser crc32 val sum dense start core) {bytes appended torn : List UInt8} {append : Append}
    (hbs : appendAll ser crc32 core.appends = .ok bytes) (hap : appendBytes ser crc32 append = .ok appended)
    (hwell : Wellformed [append]) (hfits : ∀ op ∈ (core.appends ++ [append]).flatMap Append.ops, Fits ser op)
    (htorn : torn <+: appended) (hne : torn ≠ appended) (hfile : s.file = walHeader ++ (bytes ++ torn)) (hnext : s.next = none) :
    Reopens ser crc32 val sum dense start s core := by
  obtain ⟨res, hread, hgrps⟩ := groups_of_torn hbs hap (h.wellformed.append hwell) hfits htorn hne
  obtain ⟨replayed, hrep, hrcv⟩ := h.recovered hread hgrps
  rw [← hfile] at hrep
  exact reopens_of_replayed hrep (agree_restored h hrcv) (Or.inl hnext)

omit [AddCommGroup W] [DecidableEq W] in
/-- The flush work keeps what was logged and what reads see. -/
theorem maybeAutoFlush_keeps (hnext : s.next = none) (io : FlushIo) : (maybeAutoFlush s io).2.file = s.file ∧
    Agree (maybeAutoFlush s io).2.core s.core ∧ ((maybeAutoFlush s io).2.next = none ∨ (maybeAutoFlush s io).2.next = some [] ∨
      (maybeAutoFlush s io).2.next = some walHeader) := by
  have hfreeze : (freezeMemtable s io).2.file = s.file ∧ Agree (freezeMemtable s io).2.core s.core ∧
      ((freezeMemtable s io).2.next = none ∨ (freezeMemtable s io).2.next = some [] ∨ (freezeMemtable s io).2.next = some walHeader) := by
    rw [freezeMemtable]
    split
    · exact ⟨rfl, Agree.refl _, Or.inl hnext⟩
    · split
      · exact ⟨rfl, Agree.refl _, Or.inl hnext⟩
      · split
        · rename_i error recorded hman
          cases recorded with
          | false => exact ⟨rfl, Agree.refl _, Or.inl hnext⟩
          | true => exact ⟨rfl, Agree.refl _, Or.inr (Or.inl rfl)⟩
        · split
          · exact ⟨rfl, Agree.refl _, Or.inr (Or.inl rfl)⟩
          · exact ⟨rfl, agree_rotate _ _, Or.inr (Or.inr rfl)⟩
  rw [maybeAutoFlush]
  split
  · exact ⟨rfl, Agree.refl _, Or.inl hnext⟩
  · split
    · split
      · rename_i error after hfrozen
        rw [hfrozen] at hfreeze
        exact hfreeze
      · rename_i after hfrozen
        rw [hfrozen] at hfreeze
        exact hfreeze
    · exact ⟨rfl, Agree.refl _, Or.inl hnext⟩

variable (ser crc32) in
/-- The schema check, the lookups and the append with its sync succeed. -/
def Logged (mode : WalSyncMode) (s : LoggedCore W) (plan : CoreWritePlan) (io : CommitIo) : Prop :=
  io.schemaError = none ∧ (plan.ops = [] ∨ (io.lookupError = none ∧
    (walAppend mode io (appendBytes ser crc32 (planAppend s.core plan))).1 = none))

variable (ser crc32) in
def WholeAppend (mode : WalSyncMode) (s : LoggedCore W) (plan : CoreWritePlan) (io : CommitIo) : Prop :=
  io.schemaError = none ∧ io.lookupError = none ∧ ∃ bytes, appendBytes ser crc32 (planAppend s.core plan) = .ok bytes ∧
    (walAppend mode io (.ok bytes)).2 = bytes

theorem walAppend_out (mode : WalSyncMode) (io : CommitIo) (bytes : List UInt8) : (walAppend mode io (.ok bytes)).2 <+: bytes := by
  unfold walAppend
  split
  · exact nil_prefix
  · dsimp only
    split
    · exact take_prefix _ _
    · exact prefix_rfl

theorem walAppend_error (mode : WalSyncMode) (io : CommitIo) (error : EngineError) : (walAppend mode io (.error error)).2 = [] := by
  unfold walAppend
  split <;> rfl

/-- An append that succeeds puts out all its bytes. -/
theorem walAppend_ok {mode : WalSyncMode} {io : CommitIo} {encoded : Except EngineError (List UInt8)} (h : (walAppend mode io encoded).1 = none) :
    ∃ bytes, encoded = .ok bytes ∧ walAppend mode io encoded = (none, bytes) := by
  unfold walAppend at h ⊢
  split at h
  · cases h
  · cases encoded with
    | error error => cases h
    | ok bytes =>
      refine ⟨bytes, rfl, ?_⟩
      cases hws : io.writeFails with
      | some failure =>
        rw [hws] at h
        cases h
      | none =>
        rw [hws] at h
        dsimp only at h ⊢
        rw [h]

variable {plan : CoreWritePlan}

/-- A plan whose labels can be entered is committed behind its append. -/
theorem exists_commit (hsome : plan.ops ≠ []) (hbs : appendBytes ser crc32 (planAppend core plan) = .ok bytes)
    (henters : ∃ cats, (plan.ops.map (·.op)).foldlM (applyLabelTokenOpAfterWalAppend core.activeWalGenerationId) core.catalogs = .ok cats) :
    ∃ core', EngineCore.commitCoreWritePlan ser crc32 val core plan = .ok core' ∧ core'.appends = core.appends ++ [planAppend core plan] := by
  obtain ⟨cats, hcats⟩ := henters
  have happd : ∀ store, EngineCore.commitAppend ser crc32 core plan (planAppend core plan) store =
      .ok ⟨store, cats, plan.nextNodeId, plan.nextEdgeId, core.activeWalGenerationId, core.appends ++ [planAppend core plan]⟩ := by
    intro store
    rw [EngineCore.commitAppend, hbs, hcats, ok_bind]
  unfold EngineCore.commitCoreWritePlan
  split
  · rename_i hemp
    exact absurd hemp hsome
  · rename_i op hops
    have hap : planAppend core plan = .single (core.store.engineSeq + 1) op.op := by rw [planAppend, hops]
    rw [← hap]
    exact ⟨_, happd _, rfl⟩
  · rename_i hmany
    have hap : planAppend core plan = .batch (sequenced core.store.engineSeq (plan.ops.map (·.op))) := by
      rw [planAppend]
      split
      · rename_i op hops
        exact absurd hops (hmany op)
      · rfl
    rw [← hap]
    exact ⟨_, happd _, rfl⟩

/-- Behind a plan that was applied the flush work changes neither what reads see nor what is recovered. -/
theorem reopens_of_applied (h : Running ser crc32 val sum dense start core)
    (hbs : appendAll ser crc32 core.appends = .ok bytes) (hfits : ∀ op ∈ core.written, Fits ser op)
    (hcore : s.core = core) (hfile : s.file = walHeader ++ bytes) (hnext : s.next = none) (autoFlush : Bool) (io : FlushIo) :
    Agree (if autoFlush then maybeAutoFlush s io else (none, s)).2.core core ∧
      Reopens ser crc32 val sum dense start (if autoFlush then maybeAutoFlush s io else (none, s)).2 core := by
  cases autoFlush with
  | false =>
    rw [if_neg Bool.false_ne_true, hcore]
    exact ⟨Agree.refl core, reopens_of_file h hbs hfits hfile (Or.inl hnext)⟩
  | true =>
    obtain ⟨hkept, hagree, hgene⟩ := maybeAutoFlush_keeps hnext io
    rw [if_pos rfl, ← hcore]
    rw [← hcore] at h hbs hfits
    refine ⟨hagree, ?_⟩
    exact reopens_of_file h hbs hfits (hkept.trans hfile) hgene

/-- A commit whose append and sync succeed takes effect, also if the flush work behind it fails and the error is reported. One that
fails before leaves the engine as it was, and unless all bytes of its append went out, so does what is recovered. -/
theorem Intact.commit (h : Intact ser crc32 val sum dense start s)
    (hplan : Planned sum dense s.core plan)
    (henters : ∃ cats, (plan.ops.map (·.op)).foldlM (applyLabelTokenOpAfterWalAppend s.core.activeWalGenerationId) s.core.catalogs =
      .ok cats)
    (hfits : ∀ op ∈ (planAppend s.core plan).ops, Fits ser op) (mode : WalSyncMode) (autoFlush : Bool) (io : CommitIo) :
    (Logged ser crc32 mode s plan io → ∃ core, EngineCore.commitCoreWritePlan ser crc32 val s.core plan = .ok core ∧
      Agree (commitCoreWritePlan ser crc32 val mode s plan autoFlush io).2.core core ∧
      Reopens ser crc32 val sum dense start (commitCoreWritePlan ser crc32 val mode s plan autoFlush io).2 core) ∧
    (¬Logged ser crc32 mode s plan io → (commitCoreWritePlan ser crc32 val mode s plan autoFlush io).1.isSome = true ∧
      Agree (commitCoreWritePlan ser crc32 val mode s plan autoFlush io).2.core s.core ∧
      (¬WholeAppend ser crc32 mode s plan io →
        Reopens ser crc32 val sum dense start (commitCoreWritePlan ser crc32 val mode s plan autoFlush io).2 s.core)) := by
  obtain ⟨bytes, hbs, hfile⟩ := h.file
  have hsame : Reopens ser crc32 val sum dense start s s.core := reopens_of_file h.running hbs h.fits hfile (Or.inl h.next)
  have hcoun : Reopens ser crc32 val sum dense start (s.withCounters plan) s.core :=
    reopens_of_file h.running hbs h.fits hfile (Or.inl h.next)
  have hagree : Agree (s.withCounters plan).core s.core := ⟨rfl, rfl, rfl, rfl⟩
  constructor
  · rintro ⟨hsch, hlog'⟩
    rw [commitCoreWritePlan, hsch]
    dsimp only
    by_cases hemp : plan.ops = []
    · have hcom : EngineCore.commitCoreWritePlan ser crc32 val s.core plan = .ok (s.withCounters plan).core := by
        rw [EngineCore.commitCoreWritePlan, hemp]
        rfl
      refine ⟨_, hcom, ?_⟩
      rw [appendAndApply, if_pos hemp]
      exact reopens_of_applied (h.running.commit hplan hcom) hbs h.fits rfl hfile h.next autoFlush io.flush
    · obtain ⟨hlk, happd⟩ := hlog'.resolve_left hemp
      obtain ⟨appended, hap, hout⟩ := walAppend_ok happd
      obtain ⟨core, hcom, happe⟩ := exists_commit hemp hap henters
      refine ⟨core, hcom, ?_⟩
      have hall := appendAll_snoc hbs hap
      rw [← happe] at hall
      have hwr : ∀ op ∈ core.written, Fits ser op := by
        intro op hop
        rw [EngineCore.written, happe, flatMap_append, flatMap_singleton] at hop
        exact (mem_append.mp hop).elim (h.fits op) (hfits op)
      rw [appendAndApply, if_neg hemp, hlk]
      dsimp only
      rw [hout]
      dsimp only
      rw [hcom]
      exact reopens_of_applied (s := { s with core := core, file := s.file ++ appended }) (h.running.commit hplan hcom) hall hwr rfl
        (by rw [hfile, append_assoc]) h.next autoFlush io.flush
  · intro hnot
    rw [commitCoreWritePlan]
    split
    · exact ⟨rfl, Agree.refl _, fun _ => hsame⟩
    · exact ⟨rfl, hagree, fun _ => hcoun⟩
    · rename_i hsch
      have hsome : plan.ops ≠ [] := fun hemp => hnot ⟨hsch, Or.inl hemp⟩
      rw [appendAndApply, if_neg hsome]
      cases hlk : io.lookupError with
      | some error => exact ⟨rfl, hagree, fun _ => hcoun⟩
      | none =>
        dsimp only
        cases hout : walAppend mode io (appendBytes ser crc32 (planAppend s.core plan)) with
        | mk error out =>
          cases error with
          | none => exact absurd ⟨hsch, Or.inr ⟨hlk, by rw [hout]⟩⟩ hnot
          | some error =>
            refine ⟨rfl, hagree, fun hsh => ?_⟩
            have hgone : (walAppend mode io (appendBytes ser crc32 (planAppend s.core plan))).2 = out := by rw [hout]
            cases hap : appendBytes ser crc32 (planAppend s.core plan) with
            | error error =>
              rw [hap, walAppend_error] at hgone
              subst hgone
              exact reopens_of_file h.running hbs h.fits (by dsimp only; rw [hfile, append_nil]) (Or.inl h.next)
            | ok appended =>
              rw [hap] at hgone
              have hwh : out ≠ appended := fun heq => hsh ⟨hsch, hlk, appended, hap, hgone.trans heq⟩
              obtain ⟨core, hcom, happe⟩ := exists_commit hsome hap henters
              have hwell := (h.running.commit hplan hcom).wellformed
              rw [happe] at hwell
              refine reopens_of_torn h.running hbs hap (fun call hcall => hwell call (mem_append_right _ hcall)) ?_
                (hgone ▸ walAppend_out mode io appended) hwh (by dsimp only; rw [hfile, append_assoc]) h.next
              intro op hop
              rw [flatMap_append, flatMap_singleton] at hop
              exact (mem_append.mp hop).elim (h.fits op) (hfits op)

/-- A commit behind any acknowledged plans of a generation is reported and recovered as it took effect: with its append and sync
through it is applied as a whole, whatever the flush work reports; otherwise it is an error and nothing is applied, and unless all
bytes of the append went out nothing of it is recovered. -/
theorem commit_takes_effect (hstart : Opened start) {plans : List CoreWritePlan}
    (hplanned : Runs.Admits (EngineCore.step ser crc32 val) (Planned sum dense) start plans)
    (hrun : Runs.run (EngineCore.step ser crc32 val) start plans = some core) {bytes : List UInt8}
    (hbytes : appendAll ser crc32 core.appends = .ok bytes) {plan : CoreWritePlan} (hplan : Planned sum dense core plan)
    (henters : ∃ catalogs, (plan.ops.map (·.op)).foldlM (applyLabelTokenOpAfterWalAppend core.activeWalGenerationId) core.catalogs =
      .ok catalogs)
    (hfits : ∀ op ∈ core.written ++ (planAppend core plan).ops, Fits ser op) (mode : WalSyncMode) (autoFlush : Bool) (io : CommitIo)
    (nextWalGen : ℕ) {out : Option CommitError × LoggedCore W}
    (hout : commitCoreWritePlan ser crc32 val mode ⟨core, walHeader ++ bytes, none, nextWalGen⟩ plan autoFlush io = out) :
    (Logged ser crc32 mode ⟨core, walHeader ++ bytes, none, nextWalGen⟩ plan io →
      ∃ applied, EngineCore.commitCoreWritePlan ser crc32 val core plan = .ok applied ∧ Agree out.2.core applied ∧
        Reopens ser crc32 val sum dense start out.2 applied) ∧
    (¬Logged ser crc32 mode ⟨core, walHeader ++ bytes, none, nextWalGen⟩ plan io → out.1.isSome = true ∧ Agree out.2.core core ∧
      (¬WholeAppend ser crc32 mode ⟨core, walHeader ++ bytes, none, nextWalGen⟩ plan io →
        Reopens ser crc32 val sum dense start out.2 core)) := by
  have hintact : Intact ser crc32 val sum dense start ⟨core, walHeader ++ bytes, none, nextWalGen⟩ := by
    refine ⟨Running.run hstart hplanned hrun, ⟨bytes, hbytes, rfl⟩, fun op hop => ?_, rfl⟩
    exact hfits op (mem_append_left _ hop)
  rw [← hout]
  exact hintact.commit hplan henters (fun op hop => hfits op (mem_append_right _ hop)) mode autoFlush io

end

/-- Nothing fails but an earlier flush, whose error has not been reported. -/
def unreportedFlushError : CommitIo where
  schemaError := none
  lookupError := none
  poisoned := none
  writeFails := none
  syncError := none
  flush := ⟨some (.io "segment write failed"), false, none, none, none, none⟩

/-- The log of a new database, empty so far. -/
def newLog : LoggedCore ℤ := ⟨newCore, walHeader ++ [], none, 1⟩

/-- The write that reports the error of an earlier flush has taken effect. -/
theorem error_with_effect : ¬∀ io, (commitCoreWritePlan emptyProps crc32Fast countEdges .immediate newLog labelledPlan true io).1.isSome = true →
    Agree (commitCoreWritePlan emptyProps crc32Fast countEdges .immediate newLog labelledPlan true io).2.core newCore := by
  intro hnothing
  have hagree := hnothing unreportedFlushError rfl
  have hseq : (commitCoreWritePlan emptyProps crc32Fast countEdges .immediate newLog labelledPlan true unreportedFlushError).2.core.store.engineSeq
      = 2 := rfl
  rw [hagree.engineSeq] at hseq
  cases hseq

theorem commit_takes_effect_flush_error :
    ∃ applied, EngineCore.commitCoreWritePlan emptyProps crc32Fast countEdges newCore labelledPlan = .ok applied ∧
      Agree (commitCoreWritePlan emptyProps crc32Fast countEdges .immediate newLog labelledPlan true unreportedFlushError).2.core applied ∧
      Reopens emptyProps crc32Fast countEdges firstWeight none newCore
        (commitCoreWritePlan emptyProps crc32Fast countEdges .immediate newLog labelledPlan true unreportedFlushError).2 applied := by
  have hfits : ∀ op ∈ newCore.written ++ (planAppend newCore labelledPlan).ops, Fits emptyProps op := by
    intro op hop
    have hops : newCore.written ++ (planAppend newCore labelledPlan).ops = [(1, .ensureNodeLabel "A" 1), (2, nodeWith none)] := rfl
    have hlabel : (payloadOf emptyProps (1, .ensureNodeLabel "A" 1)).length = 16 := by decide
    have hnode : (payloadOf emptyProps (2, nodeWith none)).length = 51 := by decide
    rw [hops] at hop
    rcases mem_cons.mp hop with rfl | hop
    · rw [Fits, hlabel, maxWalRecordSize]
      omega
    · obtain rfl := mem_singleton.mp hop
      rw [Fits, hnode, maxWalRecordSize]
      omega
  have hplanned : Runs.Admits (EngineCore.step emptyProps crc32Fast countEdges) (Planned firstWeight none) newCore [] := trivial
  have heffect := commit_takes_effect opened_newCore hplanned rfl rfl planned_labelled ⟨_, rfl⟩ hfits .immediate true
    unreportedFlushError 1 rfl
  exact heffect.1 ⟨rfl, Or.inr ⟨rfl, rfl⟩⟩

end OverGraph.FailedCommits
