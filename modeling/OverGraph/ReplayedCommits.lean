import OverGraph.LabelRecovery
import OverGraph.Replay
import OverGraph.VectorForms
import OverGraph.WalFailures

/-!
# Committed plans and their replay

A committed write plan is appended to the log of the generation and applied to the active
memtable, the degree overlay and the label catalogs. Opening the database reads the log back and
applies it once more, on a path of its own. Both end in the same state; only the counters of
identifiers may come out higher, as deletes of identifiers that were never given out count when
the database is opened.
-/

namespace OverGraph.ReplayedCommits
open Except hiding map_id error
open Option hiding map_id map_map max_le mem_map
open AssocMaps Records LayeredWrites GraphView Memtable MemtableState Segments Tallies Degrees LayeredStore Store List
open WalFrames WalCodec WalFiles WalReading WalFailures Replay VectorForms Fallible Runs
open LabelCatalogs (LabelSpace LabelError RuntimeLabelCatalog)
open LabelRecovery (Catalogs setCatalog setCatalog_self setCatalog_other)

inductive StepError where
  | engine (error : EngineError)
  | label (error : LabelError)

def enterLabel (walGen : ℕ) (catalogs : Catalogs) (space : LabelSpace) (label : String) (id : ℕ) : Except StepError Catalogs :=
  match (catalogs space).applyLabel label id (some walGen) with
  | .error error => .error (.label error)
  | .ok cat => .ok (setCatalog catalogs space cat)

def applyLabelTokenOpAfterWalAppend (walGen : ℕ) (catalogs : Catalogs) : WalOp → Except StepError Catalogs
  | .ensureNodeLabel label labelId => enterLabel walGen catalogs .node label labelId
  | .ensureEdgeLabel label labelId => enterLabel walGen catalogs .edge label labelId
  | _ => .ok catalogs

def validateOrApplyReplayedLabelTokenOp (walGen : ℕ) (catalogs : Catalogs) : WalOp → Except StepError Catalogs
  | .ensureNodeLabel label labelId => enterLabel walGen catalogs .node label labelId
  | .ensureEdgeLabel label labelId => enterLabel walGen catalogs .edge label labelId
  | .upsertNode node =>
    match node.labelIds.labelIds.find? fun labelId => ((catalogs .node).idToLabel.lookup labelId).isNone with
    | some labelId => .error (.engine (.corruptWal ("node record " ++ toString node.id ++
        " references missing node label label_id " ++ toString labelId)))
    | none => .ok catalogs
  | .upsertEdge edge =>
    if ((catalogs .edge).idToLabel.lookup edge.labelId).isSome then .ok catalogs
    else .error (.engine (.corruptWal ("edge record " ++ toString edge.id ++
      " references missing edge-label label_id " ++ toString edge.labelId)))
  | .deleteNode _ _ | .deleteEdge _ _ => .ok catalogs
  | .beginAtomicBatch _ _ | .commitAtomicBatch _ _ => .error (.engine (.corruptWal "WAL atomic batch marker reached normal replay apply"))

structure CoreWritePlan where
  ops : List PlannedOp
  nextNodeId : ℕ
  nextEdgeId : ℕ

structure EngineCore (W : Type) where
  store : Store W
  catalogs : Catalogs
  nextNodeId : ℕ
  nextEdgeId : ℕ
  activeWalGenerationId : ℕ
  appends : List Append

section
variable {W : Type} [AddCommGroup W] [DecidableEq W] (ser : PropsSerializer)
  (crc32 : List UInt8 → BitVec 32) (val : F32 → W)

def appendAndApplyOneNormalized (s : Store W) (op : WalOp) : Store W :=
  { s with
    active :=
      { memtable := s.active.memtable.applyOp (s.engineSeq + 1, op)
        degreeOverlay := s.active.degreeOverlay.addAll (collectDegreeDeltaForOp val op
          ((edgeIdForDegreeOp op).bind s.getEdgeCoreForCache) ∅) }
    engineSeq := s.engineSeq + 1 }

namespace EngineCore

def commitAppend (core : EngineCore W) (plan : CoreWritePlan) (append : Append) (store : Store W) : Except StepError (EngineCore W) :=
  match appendBytes ser crc32 append with
  | .error error => .error (.engine error)
  | .ok _ => do
    let catalogs ← (plan.ops.map (·.op)).foldlM (applyLabelTokenOpAfterWalAppend core.activeWalGenerationId) core.catalogs
    .ok ⟨store, catalogs, plan.nextNodeId, plan.nextEdgeId, core.activeWalGenerationId, core.appends ++ [append]⟩

def commitCoreWritePlan (core : EngineCore W) (plan : CoreWritePlan) : Except StepError (EngineCore W) :=
  match plan.ops with
  | [] => .ok { core with nextNodeId := plan.nextNodeId, nextEdgeId := plan.nextEdgeId }
  | [op] => commitAppend ser crc32 core plan (.single (core.store.engineSeq + 1) op.op)
      (appendAndApplyOneNormalized val core.store op.op)
  | ops => commitAppend ser crc32 core plan (.batch (sequenced core.store.engineSeq (ops.map (·.op))))
      (core.store.appendAndApplyNormalized val (ops.map (·.op)))

/-- A plan that is refused is no event. -/
def step (core : EngineCore W) (plan : CoreWritePlan) : Option (EngineCore W) := (commitCoreWritePlan ser crc32 val core plan).toOption

/-- The operations of the generation under their sequence numbers. -/
def written (core : EngineCore W) : List SeqOp := core.appends.flatMap Append.ops

end EngineCore

structure ReplayedGeneration (W : Type) where
  memtable : MemtableState
  degreeOverlay : Overlay W
  catalogs : Catalogs
  engineSeq : ℕ
  durableLen : ℕ

variable (sum : WeightSum) (dense : Option DenseVectorConfig)

/-- A bare operation or a committed batch: all of it is normalised, then its labels are entered,
then it is applied. -/
def replayChecked (walGen : ℕ) (immutable : List (Epoch W)) (segs : List (SegmentEntry W))
    (st : ReplayState W × Catalogs) (ops : List SeqOp) : Except StepError (ReplayState W × Catalogs) := do
  let ops ← ops.mapM fun op =>
    match normalizeWalOpForReplay sum dense op.2 with
    | .error error => .error (.engine error)
    | .ok normal => .ok (op.1, normal)
  let catalogs ← ops.foldlM (fun catalogs op => validateOrApplyReplayedLabelTokenOp walGen catalogs op.2) st.2
  .ok (replayGroup val immutable segs st.1 ops, catalogs)

def replayWalGenerationToMemtableAndOverlay (opened : EngineCore W) (file : List UInt8) : Except StepError (ReplayedGeneration W) :=
  match readPath ser crc32 file with
  | .error error => .error (.engine error)
  | .ok res => do
    let st ← (replayGroups none res.records).foldlM
      (replayChecked val sum dense opened.activeWalGenerationId opened.store.immutable opened.store.segments)
      (⟨MemtableState.empty, ∅, opened.store.engineSeq⟩, opened.catalogs)
    .ok ⟨st.1.memtable, st.1.degreeDeltas, st.2, st.1.engineSeq, res.durableLen⟩

end

def maxNodeId (m : MemtableState) : ℕ := m.nodes.keys.foldr max 0

def maxEdgeId (m : MemtableState) : ℕ := m.edges.keys.foldr max 0

/-- The counter on open, from that of the manifest and the older memtables. -/
def nextNodeIdOnOpen (older : ℕ) (m : MemtableState) : ℕ := max older (maxNodeId m + 1)

def nextEdgeIdOnOpen (older : ℕ) (m : MemtableState) : ℕ := max older (maxEdgeId m + 1)

def upsertedNode : WalOp → Option ℕ
  | .upsertNode node => some node.id
  | _ => none

def upsertedEdge : WalOp → Option ℕ
  | .upsertEdge edge => some edge.id
  | _ => none

def deletedNode : WalOp → Option ℕ
  | .deleteNode id _ => some id
  | _ => none

def deletedEdge : WalOp → Option ℕ
  | .deleteEdge id _ => some id
  | _ => none

/-- A counter moves over the identifiers it gives out, and all that are written are below it. -/
structure Allocated (ids : List ℕ) (before after : ℕ) : Prop where
  le : before ≤ after
  below : ∀ id ∈ ids, id < after
  used : before < after → ∃ id ∈ ids, id + 1 = after

/-- The labels of a record are in the catalogs or created before it. -/
def LabelsKnown (catalogs : Catalogs) (earlier : List WalOp) : WalOp → Prop
  | .upsertNode node => ∀ labelId ∈ node.labelIds.labelIds,
      ((catalogs .node).idToLabel.lookup labelId).isSome ∨ ∃ label, WalOp.ensureNodeLabel label labelId ∈ earlier
  | .upsertEdge edge =>
      ((catalogs .edge).idToLabel.lookup edge.labelId).isSome ∨ ∃ label, WalOp.ensureEdgeLabel label edge.labelId ∈ earlier
  | _ => True

variable {W : Type} [AddCommGroup W] [DecidableEq W]

/-- A plan made for a core: its vectors are normalised, its labels resolved, its identifiers are
old ones or taken from the counters, and its sequence numbers have the range of their type. -/
structure Planned (sum : WeightSum) (dense : Option DenseVectorConfig) (core : EngineCore W) (plan : CoreWritePlan) : Prop where
  normal : ∀ op ∈ plan.ops, ∃ source, normalizeWalOpForWrite sum dense source = .ok op.op
  labels : ∀ earlier op later, plan.ops.map (·.op) = earlier ++ op :: later → LabelsKnown core.catalogs earlier op
  nodes : Allocated ((plan.ops.map (·.op)).filterMap upsertedNode) core.nextNodeId plan.nextNodeId
  edges : Allocated ((plan.ops.map (·.op)).filterMap upsertedEdge) core.nextEdgeId plan.nextEdgeId
  sequences : core.store.engineSeq + plan.ops.length < 2 ^ 64

/-- A core whose active generation is new. -/
structure Opened (core : EngineCore W) : Prop where
  active : core.store.active = Epoch.empty
  appends : core.appends = []
  catalogs : ∀ space, (core.catalogs space).WellFormed

variable {ids : List ℕ}

theorem Allocated.append {more : List ℕ} {before mid after : ℕ} (h : Allocated ids before mid)
    (hmore : Allocated more mid after) : Allocated (ids ++ more) before after where
  le := h.le.trans hmore.le
  below id hid := by
    rcases mem_append.mp hid with hid | hid
    · exact (h.below id hid).trans_le hmore.le
    · exact hmore.below id hid
  used hlt := by
    rcases hmore.le.eq_or_lt with heq | hmv
    · obtain ⟨id, hid, hlast⟩ := h.used (heq ▸ hlt)
      exact ⟨id, mem_append_left _ hid, hlast.trans heq⟩
    · obtain ⟨id, hid, hlast⟩ := hmore.used hmv
      exact ⟨id, mem_append_right _ hid, hlast⟩

theorem le_foldr_max {id : ℕ} (h : id ∈ ids) : id ≤ ids.foldr max 0 := by
  induction ids with
  | nil => cases h
  | cons fst ids ih =>
    rcases mem_cons.mp h with rfl | h
    · exact le_max_left _ _
    · exact (ih h).trans (le_max_right _ _)

theorem foldr_max_le {n : ℕ} (h : ∀ id ∈ ids, id ≤ n) : ids.foldr max 0 ≤ n := by
  induction ids with
  | nil => exact Nat.zero_le n
  | cons fst ids ih => exact max_le (h fst mem_cons_self) (ih fun id hid => h id (mem_cons_of_mem _ hid))

/-- The counter on open is the running one, or higher because of a delete. -/
theorem Allocated.onOpen {upserted deleted keys : List ℕ} {before after : ℕ} (h : Allocated upserted before after)
    (hkeys : ∀ id, id ∈ keys ↔ id ∈ upserted ∨ id ∈ deleted) :
    max before (keys.foldr max 0 + 1) = max after (deleted.foldr max 0 + 1) := by
  apply le_antisymm
  · refine max_le (h.le.trans (le_max_left _ _)) ?_
    have hbd : keys.foldr max 0 ≤ max after (deleted.foldr max 0 + 1) - 1 := by
      apply foldr_max_le
      intro id hid
      rcases (hkeys id).mp hid with hid | hid
      · have hlt := h.below id hid
        omega
      · have hle := le_foldr_max hid
        omega
    omega
  · refine max_le ?_ ?_
    · rcases h.le.eq_or_lt with heq | hmv
      · rw [← heq]
        exact le_max_left _ _
      · obtain ⟨id, hid, hlast⟩ := h.used hmv
        have hle := le_foldr_max ((hkeys id).mpr (Or.inl hid))
        omega
    · have hbd : deleted.foldr max 0 ≤ keys.foldr max 0 :=
        foldr_max_le fun id hid => le_foldr_max ((hkeys id).mpr (Or.inr hid))
      omega

variable {op : WalOp}

section
variable {walGen : ℕ} {catalogs after : Catalogs}

/-- Catalogs that keep the ids of others. -/
def Knows (catalogs after : Catalogs) : Prop := ∀ space id, ((catalogs space).idToLabel.lookup id).isSome →
  ((after space).idToLabel.lookup id).isSome

theorem applyLabel_ok {cat entered : RuntimeLabelCatalog} (h : cat.WellFormed) {label : String} {id : ℕ}
    {walGen : Option ℕ} (hapl : cat.applyLabel label id walGen = .ok entered) :
    entered.WellFormed ∧ (entered.idToLabel.lookup id).isSome ∧
      ∀ other, (cat.idToLabel.lookup other).isSome → (entered.idToLabel.lookup other).isSome := by
  have hcases := hapl
  unfold RuntimeLabelCatalog.applyLabel at hcases
  split at hcases
  · cases hcases
  · rename_i hvd
    split at hcases
    · cases hcases
    · rename_i hid
      have hagree : (∀ existing, cat.labelToId.lookup label = some existing → existing = id) ∧
          ∀ existing, cat.labelToId.lookup existing = some id → existing = label := by
        split at hcases
        · rename_i existing hlk
          split at hcases
          · rename_i heq
            subst heq
            refine ⟨fun other hoth => some.inj (hoth.symm.trans hlk), fun other hoth => ?_⟩
            have hinve := (h.inverse other existing).mp hoth
            rw [(h.inverse label existing).mp hlk] at hinve
            exact (some.inj hinve).symm
          · cases hcases
        · rename_i hlk
          split at hcases
          · cases hcases
          · rename_i hfree
            refine ⟨fun other hoth => ?_, fun other hoth => ?_⟩
            · rw [hlk] at hoth
              cases hoth
            · rw [(h.inverse other id).mp hoth] at hfree
              cases hfree
      obtain ⟨found, hfnd, hentd⟩ := RuntimeLabelCatalog.applyLabel_entered h walGen
        (by simpa using hvd) (by omega) hagree.1 hagree.2
      obtain rfl := ok.inj (hfnd.symm.trans hapl)
      have hself : found.labelToId.lookup label = some id := by rw [hentd.lookup, if_pos rfl]
      refine ⟨hentd.wellFormed, ?_, fun other hoth => ?_⟩
      · rw [(hentd.wellFormed.inverse label id).mp hself]
        rfl
      · obtain ⟨name, hname⟩ := isSome_iff_exists.mp hoth
        have hkn := (h.inverse name other).mpr hname
        have hkept : found.labelToId.lookup name = some other := by
          rw [hentd.lookup]
          split
          · rename_i heq
            rw [hagree.1 other (heq ▸ hkn)]
          · exact hkn
        rw [(hentd.wellFormed.inverse name other).mp hkept]
        rfl

theorem enterLabel_ok (h : ∀ space, (catalogs space).WellFormed) {space : LabelSpace} {label : String} {id : ℕ}
    (hentd : enterLabel walGen catalogs space label id = .ok after) :
    (∀ space, (after space).WellFormed) ∧ ((after space).idToLabel.lookup id).isSome ∧ Knows catalogs after := by
  rw [enterLabel] at hentd
  split at hentd
  · cases hentd
  · rename_i cat hapl
    obtain rfl := ok.inj hentd
    obtain ⟨hwf, hself, hkeeps⟩ := applyLabel_ok (h space) hapl
    refine ⟨fun other => ?_, ?_, fun other id hid => ?_⟩
    · by_cases hoth : other = space
      · rw [hoth, setCatalog_self]
        exact hwf
      · rw [setCatalog_other _ _ hoth]
        exact h other
    · rw [setCatalog_self]
      exact hself
    · by_cases hoth : other = space
      · rw [hoth] at hid ⊢
        rw [setCatalog_self]
        exact hkeeps id hid
      · rw [setCatalog_other _ _ hoth]
        exact hid

/-- Replay accepts an operation whose labels are known, and enters the same tokens. -/
theorem replayed_label (hpl : isControl op = false) (hkn : LabelsKnown catalogs [] op)
    (hapl : applyLabelTokenOpAfterWalAppend walGen catalogs op = .ok after) :
    validateOrApplyReplayedLabelTokenOp walGen catalogs op = .ok after := by
  cases op with
  | upsertNode node =>
    have hnone : (node.labelIds.labelIds.find? fun labelId => ((catalogs .node).idToLabel.lookup labelId).isNone) = none := by
      apply find?_eq_none.mpr
      intro labelId hlab
      rcases hkn labelId hlab with hsome | ⟨label, hmem⟩
      · rw [isNone_iff_eq_none]
        exact isSome_iff_ne_none.mp hsome
      · cases hmem
    rw [validateOrApplyReplayedLabelTokenOp, hnone]
    exact hapl
  | upsertEdge edge =>
    rcases hkn with hsome | ⟨label, hmem⟩
    · rw [validateOrApplyReplayedLabelTokenOp, if_pos hsome]
      exact hapl
    · cases hmem
  | beginAtomicBatch firstSeq opCount | commitAtomicBatch firstSeq opCount => cases hpl
  | _ => exact hapl

theorem appliedLabel_ok (h : ∀ space, (catalogs space).WellFormed)
    (hapl : applyLabelTokenOpAfterWalAppend walGen catalogs op = .ok after) :
    (∀ space, (after space).WellFormed) ∧ Knows catalogs after ∧
      (∀ label id, op = .ensureNodeLabel label id → ((after .node).idToLabel.lookup id).isSome) ∧
      ∀ label id, op = .ensureEdgeLabel label id → ((after .edge).idToLabel.lookup id).isSome := by
  cases op with
  | ensureNodeLabel label labelId =>
    obtain ⟨hwf, hself, hknows⟩ := enterLabel_ok h hapl
    exact ⟨hwf, hknows, fun name id heq => (WalOp.ensureNodeLabel.inj heq).2 ▸ hself, fun name id heq => (nomatch heq)⟩
  | ensureEdgeLabel label labelId =>
    obtain ⟨hwf, hself, hknows⟩ := enterLabel_ok h hapl
    exact ⟨hwf, hknows, fun name id heq => (nomatch heq), fun name id heq => (WalOp.ensureEdgeLabel.inj heq).2 ▸ hself⟩
  | _ =>
    obtain rfl := ok.inj hapl
    exact ⟨h, fun space id hid => hid, fun label id heq => (nomatch heq), fun label id heq => (nomatch heq)⟩

/-- What is known or created earlier is known later. -/
theorem LabelsKnown.step (h : ∀ space, (catalogs space).WellFormed) {fst : WalOp} {earlier : List WalOp}
    (hapl : applyLabelTokenOpAfterWalAppend walGen catalogs fst = .ok after)
    (hkn : LabelsKnown catalogs (fst :: earlier) op) : LabelsKnown after earlier op := by
  obtain ⟨-, hknows, hnode, hedge⟩ := appliedLabel_ok h hapl
  cases op with
  | upsertNode node =>
    intro labelId hlab
    rcases hkn labelId hlab with hsome | ⟨label, hmem⟩
    · exact Or.inl (hknows _ _ hsome)
    · rcases mem_cons.mp hmem with heq | hmem
      · exact Or.inl (hnode label labelId heq.symm)
      · exact Or.inr ⟨label, hmem⟩
  | upsertEdge edge =>
    rcases hkn with hsome | ⟨label, hmem⟩
    · exact Or.inl (hknows _ _ hsome)
    · rcases mem_cons.mp hmem with heq | hmem
      · exact Or.inl (hedge label _ heq.symm)
      · exact Or.inr ⟨label, hmem⟩
  | _ => trivial

theorem replayed_labels {ops : List WalOp} (hpl : ∀ op ∈ ops, isControl op = false)
    (h : ∀ space, (catalogs space).WellFormed)
    (hkn : ∀ earlier op later, ops = earlier ++ op :: later → LabelsKnown catalogs earlier op)
    (hapl : ops.foldlM (applyLabelTokenOpAfterWalAppend walGen) catalogs = .ok after) :
    ops.foldlM (validateOrApplyReplayedLabelTokenOp walGen) catalogs = .ok after ∧ ∀ space, (after space).WellFormed := by
  induction ops generalizing catalogs with
  | nil =>
    obtain rfl := ok.inj hapl
    exact ⟨rfl, h⟩
  | cons op ops ih =>
    rw [foldlM_cons] at hapl
    obtain ⟨mid, hmid, hrest⟩ := bind_ok hapl
    have hfst := replayed_label (hpl op mem_cons_self) (hkn [] op ops rfl) hmid
    obtain ⟨hrep, hwf⟩ := ih (fun other hoth => hpl other (mem_cons_of_mem _ hoth))
      (appliedLabel_ok h hmid).1
      (fun earlier other later heq => (hkn (op :: earlier) other later (by rw [heq]; rfl)).step h hmid) hrest
    rw [foldlM_cons, hfst]
    exact ⟨hrep, hwf⟩

/-- The write sequences the log leaves out do not matter. -/
theorem replayed_asLogged (catalogs : Catalogs) (op : WalOp) : validateOrApplyReplayedLabelTokenOp walGen catalogs (asLogged op) =
      validateOrApplyReplayedLabelTokenOp walGen catalogs op := by
  cases op <;> rfl

end

theorem applyOp_logged (m : MemtableState) (op : SeqOp) : m.applyOp (logged op) = m.applyOp op := by
  obtain ⟨q, op⟩ := op
  cases op <;> rfl

theorem ofOps_logged (ops : List SeqOp) : ofOps (ops.map logged) = ofOps ops := by
  rw [ofOps, ofOps, foldl_map]
  exact congrArg (fun f => List.foldl f MemtableState.empty ops) (funext fun m => funext fun op => applyOp_logged m op)

theorem edgeLog_logged (ops : List SeqOp) : edgeLog (ops.map logged) = edgeLog ops := by
  rw [edgeLog, edgeLog, flatMap_map]
  have hws : (fun op => edgeWrites (logged op)) = edgeWrites := by
    funext op
    obtain ⟨q, op⟩ := op
    cases op <;> rfl
  rw [hws]

theorem edgesOver_append (base : ℕ → Option EdgeRecord) (ops more : List SeqOp) :
    edgesOver base (ops ++ more) = edgesOver (edgesOver base ops) more := by
  funext id
  rw [edgesOver, edgesOver, edgesOver, edgeLog_append]
  cases edgeLog more id <;> rfl

theorem edgesOver_logged (base : ℕ → Option EdgeRecord) (ops : List SeqOp) : edgesOver base (ops.map logged) = edgesOver base ops := by
  funext id
  rw [edgesOver, edgesOver, edgeLog_logged]

theorem normalize_asLogged {sum : WeightSum} {dense : Option DenseVectorConfig}
    (h : normalizeWalOpForWrite sum dense op = .ok op) :
    normalizeWalOpForWrite sum dense (asLogged op) = .ok (asLogged op) := by
  cases op with
  | upsertNode node =>
    obtain ⟨vectors, hvecs, hnode⟩ := bind_ok h
    have hsame := WalOp.upsertNode.inj (ok.inj hnode)
    change normalizeNodeVectorsForWrite sum dense node.denseVector node.sparseVector >>= _ = _
    rw [hvecs, ok_bind, ← hsame]
    rfl
  | upsertEdge edge => rfl
  | _ => exact h

theorem foldl_max_sequenced (q : ℕ) (ops : List WalOp) : (sequenced q ops).foldl (fun last op => max last op.1) q = q + ops.length := by
  have hgen : ∀ (ops : List WalOp) (fst last : ℕ), last ≤ q + fst → fst = 0 ∨ last = q + fst →
      ((ops.zipIdx fst).map fun op => (q + 1 + op.2, op.1)).foldl (fun last op => max last op.1) last =
        if ops = [] then last else q + fst + ops.length := by
    intro ops
    induction ops with
    | nil =>
      intro fst last hle hlast
      rfl
    | cons op ops ih =>
      intro fst last hle hlast
      rw [zipIdx_cons, map_cons, foldl_cons, ih (fst + 1) _ (by dsimp only; omega) (Or.inr (by dsimp only; omega))]
      rw [if_neg (cons_ne_nil op ops), length_cons]
      split
      · rename_i hemp
        rw [hemp]
        dsimp only [length_nil]
        omega
      · omega
  have hall := hgen ops 0 q (Nat.le_add_right q 0) (Or.inl rfl)
  rw [sequenced, hall]
  split
  · rename_i hemp
    rw [hemp]
    rfl
  · omega

section
variable {ser : PropsSerializer} {crc32 : List UInt8 → BitVec 32} {val : F32 → W} {sum : WeightSum}
  {dense : Option DenseVectorConfig} {start core core' : EngineCore W}

/-- The core after committing plans, by the operations it has logged since it was opened. -/
structure Running (ser : PropsSerializer) (crc32 : List UInt8 → BitVec 32) (val : F32 → W) (sum : WeightSum)
    (dense : Option DenseVectorConfig) (start core : EngineCore W) : Prop where
  immutable : core.store.immutable = start.store.immutable
  segments : core.store.segments = start.store.segments
  generation : core.activeWalGenerationId = start.activeWalGenerationId
  bytes : ∃ bytes, appendAll ser crc32 core.appends = .ok bytes
  wellformed : Wellformed core.appends
  memtable : core.store.active.memtable = ofOps core.written
  finite : Finitely (edgesOver (olderEdges start.store.immutable start.store.segments) core.written)
  overlay : ∀ n, core.store.active.degreeOverlay.get n =
    degreeIn val (edgesOver (olderEdges start.store.immutable start.store.segments) core.written) n -
      degreeIn val (olderEdges start.store.immutable start.store.segments) n
  engineSeq : core.written.foldl (fun last op => max last op.1) start.store.engineSeq = core.store.engineSeq
  normal : ∀ op ∈ core.written, normalizeWalOpForWrite sum dense op.2 = .ok op.2
  labels : (core.written.map Prod.snd).foldlM (validateOrApplyReplayedLabelTokenOp start.activeWalGenerationId)
    start.catalogs = .ok core.catalogs
  catalogs : ∀ space, (core.catalogs space).WellFormed
  nodes : Allocated (core.written.filterMap fun op => upsertedNode op.2) start.nextNodeId core.nextNodeId
  edges : Allocated (core.written.filterMap fun op => upsertedEdge op.2) start.nextEdgeId core.nextEdgeId

omit [AddCommGroup W] [DecidableEq W] in
theorem finitely_olderEdges (immutable : List (Epoch W)) (segs : List (SegmentEntry W)) : Finitely (olderEdges immutable segs) := by
  apply (finite_toSet ((immutable.flatMap fun epoch => epoch.memtable.edges.keys) ++
    segs.flatMap fun entry => entry.segment.edges.keys)).subset
  intro id hid
  obtain ⟨edge, hedge⟩ := ne_none_iff_exists'.mp hid
  obtain ⟨lay, hlay, hop⟩ := exists_of_findSome?_eq_some (join_eq_some_iff.mp hedge)
  rcases mem_append.mp hlay with hlay | hlay
  · obtain ⟨m, hm, rfl⟩ := mem_map.mp hlay
    rcases mem_cons.mp hm with rfl | hm
    · cases hop
    · obtain ⟨epoch, hepoch, rfl⟩ := mem_map.mp hm
      refine mem_append_left _ (mem_flatMap.mpr ⟨epoch, hepoch, ?_⟩)
      obtain ⟨state, hsta, -⟩ := map_eq_some_iff.mp hop
      obtain ⟨slot, hslot, -⟩ := map_eq_some_iff.mp hsta
      rw [← AList.mem_keys, ← AList.lookup_isSome, hslot]
      rfl
  · obtain ⟨seg, hseg, rfl⟩ := mem_map.mp hlay
    obtain ⟨entry, hent, rfl⟩ := mem_map.mp hseg
    refine mem_append_right _ (mem_flatMap.mpr ⟨entry, hent, ?_⟩)
    rw [← AList.mem_keys, ← AList.lookup_isSome]
    rw [Segment.edgeOpinion] at hop
    split at hop
    · cases hop
    · obtain ⟨found, hfnd, -⟩ := map_eq_some_iff.mp hop
      rw [Segment.getEdge] at hfnd
      split at hfnd
      · cases hfnd
      · rw [hfnd]
        rfl

omit [DecidableEq W] in
theorem running_opened (h : Opened start) : Running ser crc32 val sum dense start start := by
  have hwr : start.written = [] := by rw [EngineCore.written, h.appends, flatMap_nil]
  refine ⟨rfl, rfl, rfl, ?_, ?_, ?_, ?_, ?_, ?_, ?_, ?_, h.catalogs, ?_, ?_⟩
  · rw [h.appends]
    exact ⟨[], rfl⟩
  · intro append hap
    rw [h.appends] at hap
    cases hap
  · rw [hwr, h.active]
    rfl
  · rw [hwr]
    exact finitely_olderEdges _ _
  · intro n
    rw [hwr, h.active]
    exact (sub_self _).symm
  · rw [hwr, foldl_nil]
  · intro op hop
    rw [hwr] at hop
    cases hop
  · rw [hwr]
    rfl
  · rw [hwr]
    exact ⟨le_rfl, fun id hid => (not_mem_nil hid).elim, fun hlt => absurd hlt (lt_irrefl _)⟩
  · rw [hwr]
    exact ⟨le_rfl, fun id hid => (not_mem_nil hid).elim, fun hlt => absurd hlt (lt_irrefl _)⟩

/-- A single operation is applied as a batch of its own would be. -/
theorem appendAndApplyOne_eq (s : Store W) (op : WalOp) : appendAndApplyOneNormalized val s op = s.appendAndApplyNormalized val [op] := by
  have hold : (edgeIdForDegreeOp op).bind s.getEdgeCoreForCache =
      (edgeIdForDegreeOp op).bind fun id => ((captureBatchEdgeStates s.getEdgeCoreForCache [op]).lookup id).join := by
    cases hid : edgeIdForDegreeOp op with
    | none => rfl
    | some id => rw [bind_some, bind_some, lookup_captureBatchEdgeStates _ mem_cons_self hid, join_some]
  rw [appendAndApplyOneNormalized, hold]
  rfl

/-- A commit is an append of the plan's operations behind the last sequence number. -/
theorem commit_cases {plan : CoreWritePlan} (h : EngineCore.commitCoreWritePlan ser crc32 val core plan = .ok core') :
    (plan.ops = [] ∧ core' = { core with nextNodeId := plan.nextNodeId, nextEdgeId := plan.nextEdgeId }) ∨
      ∃ append bytes catalogs, append.ops = sequenced core.store.engineSeq (plan.ops.map (·.op)) ∧
        appendBytes ser crc32 append = .ok bytes ∧
        (plan.ops.map (·.op)).foldlM (applyLabelTokenOpAfterWalAppend core.activeWalGenerationId) core.catalogs = .ok catalogs ∧
        core' = ⟨core.store.appendAndApplyNormalized val (plan.ops.map (·.op)), catalogs, plan.nextNodeId, plan.nextEdgeId,
          core.activeWalGenerationId, core.appends ++ [append]⟩ := by
  have happd : ∀ append store, EngineCore.commitAppend ser crc32 core plan append store = .ok core' →
      ∃ bytes catalogs, appendBytes ser crc32 append = .ok bytes ∧
        (plan.ops.map (·.op)).foldlM (applyLabelTokenOpAfterWalAppend core.activeWalGenerationId) core.catalogs = .ok catalogs ∧
        core' = ⟨store, catalogs, plan.nextNodeId, plan.nextEdgeId, core.activeWalGenerationId, core.appends ++ [append]⟩ := by
    intro append store hcom
    rw [EngineCore.commitAppend] at hcom
    cases hbs : appendBytes ser crc32 append with
    | error error =>
      rw [hbs] at hcom
      cases hcom
    | ok bytes =>
      rw [hbs] at hcom
      obtain ⟨catalogs, hcats, heq⟩ := bind_ok hcom
      exact ⟨bytes, catalogs, rfl, hcats, (ok.inj heq).symm⟩
  unfold EngineCore.commitCoreWritePlan at h
  split at h
  · rename_i hemp
    exact Or.inl ⟨hemp, (ok.inj h).symm⟩
  · rename_i op hops
    obtain ⟨bytes, catalogs, hbs, hcats, heq⟩ := happd _ _ h
    refine Or.inr ⟨_, bytes, catalogs, ?_, hbs, hcats, ?_⟩
    · rw [hops]
      rfl
    · rw [heq, appendAndApplyOne_eq, hops]
      rfl
  · obtain ⟨bytes, catalogs, hbs, hcats, heq⟩ := happd _ _ h
    exact Or.inr ⟨_, bytes, catalogs, rfl, hbs, hcats, heq⟩

theorem map_snd_sequenced (q : ℕ) (ops : List WalOp) : (sequenced q ops).map Prod.snd = ops := by
  rw [sequenced, map_map]
  exact zipIdx_map_fst 0 ops

theorem Running.commit (h : Running ser crc32 val sum dense start core) {plan : CoreWritePlan}
    (hplan : Planned sum dense core plan)
    (hcom : EngineCore.commitCoreWritePlan ser crc32 val core plan = .ok core') :
    Running ser crc32 val sum dense start core' := by
  rcases commit_cases hcom with ⟨hemp, rfl⟩ | ⟨append, bytes, catalogs, hops, hbs, hcats, rfl⟩
  · have hnos := h.nodes.append hplan.nodes
    have heds := h.edges.append hplan.edges
    rw [hemp, map_nil, filterMap_nil, append_nil] at hnos heds
    exact ⟨h.immutable, h.segments, h.generation, h.bytes, h.wellformed, h.memtable, h.finite, h.overlay, h.engineSeq, h.normal,
      h.labels, h.catalogs, hnos, heds⟩
  · obtain ⟨earlier, hear⟩ := h.bytes
    have hwr : (⟨core.store.appendAndApplyNormalized val (plan.ops.map (·.op)), catalogs, plan.nextNodeId,
        plan.nextEdgeId, core.activeWalGenerationId, core.appends ++ [append]⟩ : EngineCore W).written =
        core.written ++ sequenced core.store.engineSeq (plan.ops.map (·.op)) := by
      rw [EngineCore.written, flatMap_append, flatMap_singleton, hops]
      rfl
    have heds : core.store.edges = edgesOver (olderEdges start.store.immutable start.store.segments) core.written := by
      rw [edges_eq_edgesOver h.memtable, h.immutable, h.segments]
    have hplanned : ∀ op ∈ sequenced core.store.engineSeq (plan.ops.map (·.op)), ∃ planned ∈ plan.ops, planned.op = op.2 ∧
        op.1 ≤ core.store.engineSeq + plan.ops.length := by
      intro op hop
      obtain ⟨hmem, hle⟩ := mem_sequenced hop
      obtain ⟨planned, hplanned, heq⟩ := mem_map.mp hmem
      rw [length_map] at hle
      exact ⟨planned, hplanned, heq, hle⟩
    have hids : ∀ f : WalOp → Option ℕ, (sequenced core.store.engineSeq (plan.ops.map (·.op))).filterMap (fun op => f op.2) =
        (plan.ops.map (·.op)).filterMap f := by
      intro f
      nth_rewrite 2 [← map_snd_sequenced core.store.engineSeq (plan.ops.map (·.op))]
      rw [filterMap_map]
      rfl
    have hlabs := h.labels
    rw [← h.generation] at hlabs
    obtain ⟨hrep, hwf⟩ := replayed_labels (fun op hop => by
      obtain ⟨planned, -, rfl⟩ := mem_map.mp hop
      exact planned.plain) h.catalogs hplan.labels hcats
    refine ⟨h.immutable, h.segments, h.generation, ?_, ?_, ?_, ?_, ?_, ?_, ?_, ?_, hwf, ?_, ?_⟩
    · refine ⟨earlier ++ bytes, appendAll_append.mpr ⟨earlier, bytes, hear, ?_, rfl⟩⟩
      change (appendBytes ser crc32 append >>= fun bytes => appendAll ser crc32 [] >>= fun rest => Except.ok (bytes ++ rest)) = _
      rw [hbs]
      exact congrArg Except.ok (append_nil bytes)
    · apply h.wellformed.append
      intro other hoth op hop
      obtain rfl := mem_singleton.mp hoth
      rw [hops] at hop
      obtain ⟨planned, -, heq, hle⟩ := hplanned op hop
      rw [← heq]
      exact ⟨planned.plain, hle.trans_lt hplan.sequences, planned.inRange⟩
    · rw [hwr, memtable_write, h.memtable, ofOps, ofOps, foldl_append]
    · rw [hwr, edgesOver_append]
      exact finitely_edgesOver h.finite _
    · intro n
      have hmv := degreeOverlay_write val (heds ▸ h.finite) (plan.ops.map (·.op)) n
      rw [hwr, edgesOver_append, ← heds, hmv, h.overlay n, ← heds]
      abel
    · rw [hwr, foldl_append, h.engineSeq, foldl_max_sequenced]
      rfl
    · intro op hop
      rw [hwr] at hop
      rcases mem_append.mp hop with hop | hop
      · exact h.normal op hop
      · obtain ⟨planned, hmem, heq, -⟩ := hplanned op hop
        obtain ⟨src, hsrc⟩ := hplan.normal planned hmem
        rw [← heq]
        exact normalizeWalOp_normal hsrc
    · rw [hwr, map_append, map_snd_sequenced, foldlM_append, ← h.generation, hlabs]
      exact hrep
    · rw [hwr, filterMap_append, hids]
      exact h.nodes.append hplan.nodes
    · rw [hwr, filterMap_append, hids]
      exact h.edges.append hplan.edges

/-- The state after replay is that of the core; a counter is higher if a deleted identifier was. -/
structure Recovered (start core : EngineCore W) (replayed : ReplayedGeneration W) : Prop where
  memtable : replayed.memtable = core.store.active.memtable
  degreeOverlay : ∀ n, replayed.degreeOverlay.get n = core.store.active.degreeOverlay.get n
  catalogs : replayed.catalogs = core.catalogs
  engineSeq : replayed.engineSeq = core.store.engineSeq
  nextNodeId : nextNodeIdOnOpen start.nextNodeId replayed.memtable =
    max core.nextNodeId ((core.written.filterMap fun op => deletedNode op.2).foldr max 0 + 1)
  nextEdgeId : nextEdgeIdOnOpen start.nextEdgeId replayed.memtable =
    max core.nextEdgeId ((core.written.filterMap fun op => deletedEdge op.2).foldr max 0 + 1)

theorem mem_writes {ν : Type} {writes : SeqOp → List (ℕ × ν)} {upserted deleted : WalOp → Option ℕ}
    (h : ∀ op id, (∃ write ∈ writes op, write.1 = id) ↔ upserted op.2 = some id ∨ deleted op.2 = some id)
    (ops : List SeqOp) (id : ℕ) : (∃ write ∈ ops.flatMap writes, write.1 = id) ↔
      id ∈ (ops.filterMap fun op => upserted op.2) ∨ id ∈ ops.filterMap fun op => deleted op.2 := by
  simp only [mem_filterMap, mem_flatMap]
  constructor
  · intro hw'
    obtain ⟨write, ⟨op, hop, hw'⟩, hid⟩ := hw'
    rcases (h op id).mp ⟨write, hw', hid⟩ with hid | hid
    · exact Or.inl ⟨op, hop, hid⟩
    · exact Or.inr ⟨op, hop, hid⟩
  · intro hid
    rcases hid with ⟨op, hop, hid⟩ | ⟨op, hop, hid⟩
    · obtain ⟨write, hw', hid⟩ := (h op id).mpr (Or.inl hid)
      exact ⟨write, ⟨op, hop, hw'⟩, hid⟩
    · obtain ⟨write, hw', hid⟩ := (h op id).mpr (Or.inr hid)
      exact ⟨write, ⟨op, hop, hw'⟩, hid⟩

theorem mem_keys_of_log {τ ν : Type} {m : Map ℕ (VersionedSlots.VersionedSlot τ)} {opinion : τ → Option ν} {writes : List (ℕ × Option ν)} {id : ℕ}
    (h : (VersionedSlots.headAt m id).map opinion = lastWrite writes id) : id ∈ m.keys ↔ ∃ write ∈ writes, write.1 = id := by
  have hws : lastWrite writes id ≠ none ↔ ∃ write ∈ writes, write.1 = id := by
    rw [Ne, lastWrite_eq_none_iff]
    push Not
    rfl
  rw [← hws, ← h, ← AList.mem_keys, ← AList.lookup_isSome, VersionedSlots.headAt]
  cases m.lookup id <;> simp

theorem mem_nodes_ofOps (ops : List SeqOp) (id : ℕ) : id ∈ (ofOps ops).nodes.keys ↔
    id ∈ (ops.filterMap fun op => upsertedNode op.2) ∨ id ∈ ops.filterMap fun op => deletedNode op.2 := by
  rw [mem_keys_of_log (congrFun (nodeOpinion_ofOps ops) id)]
  apply mem_writes
  intro op id
  obtain ⟨q, op⟩ := op
  cases op <;> simp [nodeWrites, upsertedNode, deletedNode]

theorem mem_edges_ofOps (ops : List SeqOp) (id : ℕ) : id ∈ (ofOps ops).edges.keys ↔
    id ∈ (ops.filterMap fun op => upsertedEdge op.2) ∨ id ∈ ops.filterMap fun op => deletedEdge op.2 := by
  rw [mem_keys_of_log (congrFun (edgeOpinion_ofOps ops) id)]
  apply mem_writes
  intro op id
  obtain ⟨q, op⟩ := op
  cases op <;> simp [edgeWrites, upsertedEdge, deletedEdge]

theorem replayChecked_groups {walGen : ℕ} {immutable : List (Epoch W)} {segs : List (SegmentEntry W)}
    {groups : List (List SeqOp)}
    (h : ∀ op ∈ groups.flatten, normalizeWalOpForWrite sum dense op.2 = .ok op.2) {st : ReplayState W}
    {catalogs after : Catalogs}
    (hlabs : (groups.flatten.map Prod.snd).foldlM (validateOrApplyReplayedLabelTokenOp walGen) catalogs = .ok after) :
    groups.foldlM (replayChecked val sum dense walGen immutable segs) (st, catalogs) =
      .ok (groups.foldl (replayGroup val immutable segs) st, after) := by
  induction groups generalizing st catalogs with
  | nil =>
    obtain rfl := ok.inj hlabs
    rfl
  | cons ops groups ih =>
    rw [flatten_cons] at h hlabs
    rw [map_append, foldlM_append] at hlabs
    obtain ⟨mid, hmid, hrest⟩ := bind_ok hlabs
    have hops : (ops.mapM fun op => match normalizeWalOpForReplay sum dense op.2 with
        | .error error => Except.error (StepError.engine error)
        | .ok normal => .ok (op.1, normal)) = .ok (ops.map id) := by
      apply mapM_of_forall
      intro op hop
      rw [normalizeForReplay_normal (h op (mem_append_left _ hop))]
      rfl
    have hentd : ops.foldlM (fun catalogs op => validateOrApplyReplayedLabelTokenOp walGen catalogs op.2) catalogs = .ok mid := by
      rw [foldlM_map] at hmid
      exact hmid
    rw [foldlM_cons, replayChecked, hops, ok_bind, map_id, hentd, ok_bind, ok_bind, ih (fun op hop => h op (mem_append_right _ hop)) hrest]
    rfl

theorem flatten_batchesOf (calls : List Append) : (batchesOf calls).flatten = (calls.flatMap Append.ops).map logged := by
  induction calls with
  | nil => rfl
  | cons call calls ih =>
    rw [flatMap_cons, map_append, ← ih, batchesOf, map_cons]
    by_cases hemp : call.ops = []
    · rw [filter_cons_of_neg (by simp [hemp]), hemp]
      rfl
    · rw [filter_cons_of_pos (by simpa using hemp), flatten_cons]
      rfl

/-- A file whose records are the appends of a core recovers to that core. -/
theorem Running.recovered (h : Running ser crc32 val sum dense start core)
    {file : List UInt8} {res : WalReadResult} (hread : readPath ser crc32 file = .ok res)
    (hgrps : replayGroups none res.records = batchesOf core.appends) :
    ∃ replayed, replayWalGenerationToMemtableAndOverlay ser crc32 val sum dense start file = .ok replayed ∧
      Recovered start core replayed := by
  have hflat : (batchesOf core.appends).flatten = core.written.map logged := flatten_batchesOf core.appends
  have hnormal : ∀ op ∈ (batchesOf core.appends).flatten, normalizeWalOpForWrite sum dense op.2 = .ok op.2 := by
    intro op hop
    rw [hflat] at hop
    obtain ⟨src, hsrc, rfl⟩ := mem_map.mp hop
    exact normalize_asLogged (h.normal src hsrc)
  have hlabs : ((batchesOf core.appends).flatten.map Prod.snd).foldlM
      (validateOrApplyReplayedLabelTokenOp start.activeWalGenerationId) start.catalogs = .ok core.catalogs := by
    rw [hflat, map_map, ← h.labels, foldlM_map, foldlM_map]
    congr 1
    funext catalogs op
    exact replayed_asLogged catalogs op.2
  have hstartState : Replayed val (olderEdges start.store.immutable start.store.segments) start.store.engineSeq []
      (⟨MemtableState.empty, ∅, start.store.engineSeq⟩ : ReplayState W) := by
    refine ⟨rfl, finitely_olderEdges _ _, fun n => ?_, rfl⟩
    rw [show edgesOver (olderEdges start.store.immutable start.store.segments) [] =
      olderEdges start.store.immutable start.store.segments from rfl, sub_self]
    rfl
  have hrep := hstartState.groups (batchesOf core.appends)
  rw [nil_append, hflat] at hrep
  let st := (batchesOf core.appends).foldl (replayGroup val start.store.immutable start.store.segments)
    ⟨MemtableState.empty, ∅, start.store.engineSeq⟩
  have hreplay : replayWalGenerationToMemtableAndOverlay ser crc32 val sum dense start file =
      .ok ⟨st.memtable, st.degreeDeltas, core.catalogs, st.engineSeq, res.durableLen⟩ := by
    rw [replayWalGenerationToMemtableAndOverlay, hread]
    dsimp only
    rw [hgrps, replayChecked_groups hnormal hlabs]
    rfl
  have hmem := hrep.memtable.trans ((ofOps_logged core.written).trans h.memtable.symm)
  refine ⟨_, hreplay, hmem, ?_, rfl, ?_, ?_, ?_⟩
  · intro n
    rw [h.overlay n]
    exact (hrep.deltas n).trans (by rw [edgesOver_logged])
  · rw [← h.engineSeq]
    refine hrep.engineSeq.trans ?_
    rw [foldl_map]
    rfl
  · rw [nextNodeIdOnOpen, maxNodeId]
    dsimp only
    rw [hmem, h.memtable]
    exact h.nodes.onOpen (mem_nodes_ofOps core.written)
  · rw [nextEdgeIdOnOpen, maxEdgeId]
    dsimp only
    rw [hmem, h.memtable]
    exact h.edges.onOpen (mem_edges_ofOps core.written)

theorem appendAll_snoc {calls : List Append} {append : Append} {bytes appended : List UInt8}
    (h : appendAll ser crc32 calls = .ok bytes) (hap : appendBytes ser crc32 append = .ok appended) :
    appendAll ser crc32 (calls ++ [append]) = .ok (bytes ++ appended) := by
  refine appendAll_append.mpr ⟨bytes, appended, h, ?_, rfl⟩
  change (appendBytes ser crc32 append >>= fun bytes => appendAll ser crc32 [] >>= fun rest => Except.ok (bytes ++ rest)) = _
  rw [hap]
  exact congrArg Except.ok (append_nil appended)

/-- A batch that is not complete in the log is not among the groups that replay applies. -/
theorem groups_of_torn {calls : List Append} {append : Append} {bytes appended torn : List UInt8}
    (h : appendAll ser crc32 calls = .ok bytes) (hap : appendBytes ser crc32 append = .ok appended)
    (hcalls : Wellformed (calls ++ [append])) (hfits : ∀ op ∈ (calls ++ [append]).flatMap Append.ops, Fits ser op)
    (htorn : torn <+: appended) (hne : torn ≠ appended) :
    ∃ res, readPath ser crc32 (walHeader ++ (bytes ++ torn)) = .ok res ∧ replayGroups none res.records = batchesOf calls := by
  have hall := appendAll_snoc h hap
  have hbs := (appendAll_ok hall).1
  have htake : (calls ++ [append]).take calls.length = calls := take_left' rfl
  have hcovs : (bytesOf ser crc32 (rawFrames ((calls ++ [append]).take calls.length))).length ≤
      (bytes ++ torn).length := by
    rw [htake, ← (appendAll_ok h).1, length_append]
    exact Nat.le_add_right _ _
  obtain ⟨res, whole, more, hread, hrecs, hfrs, hbegin, hwh⟩ := readPath_covered hall hcalls
    ((fits_frames_iff hall hcalls).mpr hfits) ((prefix_append_right_inj _).mpr htorn) hcovs
  refine ⟨res, hread, ?_⟩
  have hpart : whole ≠ rawFrames (calls ++ [append]) := by
    intro heq
    rw [heq, ← hbs] at hwh
    exact hne (htorn.eq_of_length_le ((prefix_append_right_inj _).mp hwh).length_le)
  obtain ⟨-, -, hacc⟩ := appendAll_ok hall
  have hlog' := logged_calls (fun call hcall op hop => (hcalls call hcall op hop).1) hacc
  have hcut : whole.map logged <+: (rawFrames (calls ++ [append])).map logged := by
    rw [hfrs, map_append]
    exact prefix_append _ _
  obtain ⟨kept, durable, hkept⟩ := hlog'.cut hcut
  have hsp : batchesOf (calls ++ [append]) = batchesOf calls ++ batchesOf [append] := by
    rw [batchesOf, map_append, filter_append]
    rfl
  have hlast : (batchesOf [append]).length ≤ 1 := length_filter_le _ _
  have hear : batchesOf calls <+: replayGroups none (whole.map logged) := by
    obtain ⟨-, -, hbef⟩ := appendAll_ok h
    have hfst := (logged_calls (fun call hcall op hop => (hcalls call (mem_append_left _ hcall) op hop).1)
      hbef).groups
    obtain ⟨later, hlat⟩ := hbegin
    rw [htake] at hlat
    rw [← hfst, ← hlat, map_append]
    exact replayGroups_mono none _ _
  have hsh : kept < (batchesOf (calls ++ [append])).length := by
    by_contra hle
    have hdur := hkept.logged
    rw [take_of_length_le (Nat.not_lt.mp hle)] at hdur
    have hsame : durable = (rawFrames (calls ++ [append])).map logged := by rw [logged_frames hdur, flatMap_batchesOf]
    have hlen := hkept.durable_cut.length_le
    rw [hsame, length_map, length_map] at hlen
    have hwholePart : whole <+: rawFrames (calls ++ [append]) := by
      rw [hfrs]
      exact prefix_append _ _
    exact hpart (hwholePart.eq_of_length_le hlen)
  rw [hrecs, hkept.groups]
  rw [hkept.groups] at hear
  have hlong := hear.length_le
  rw [hsp, length_append] at hsh
  rw [length_take] at hlong
  have hxt : kept = (batchesOf calls).length := by omega
  rw [hsp, hxt, take_left']
  rfl

theorem Running.run {plans : List CoreWritePlan} (hst : Opened start)
    (hplanned : Admits (EngineCore.step ser crc32 val) (Planned sum dense) start plans)
    (hrun : run (EngineCore.step ser crc32 val) start plans = some core) :
    Running ser crc32 val sum dense start core := by
  refine run_invariant (fun core plan core' hrunning hplan hstep => ?_) (running_opened hst) hplanned hrun
  refine hrunning.commit hplan ?_
  rw [EngineCore.step] at hstep
  cases hcom : EngineCore.commitCoreWritePlan ser crc32 val core plan with
  | error error =>
    rw [hcom] at hstep
    cases hstep
  | ok after =>
    rw [hcom] at hstep
    rw [some.inj hstep]

end

section

def newCatalog : RuntimeLabelCatalog := ⟨∅, ∅, ∅, 1⟩

def newCore : EngineCore ℤ := ⟨Store.empty, fun _ => newCatalog, 1, 1, 0, []⟩

/-- A sum that the vectors below never need. -/
def firstWeight : WeightSum := ⟨fun fst _ => fst, fun hfst _ => hfst⟩

def countEdges : F32 → ℤ := fun _ => 1

theorem opened_newCore : Opened newCore where
  active := rfl
  appends := rfl
  catalogs _ :=
    { inverse := fun _ _ => ⟨fun h => (nomatch h), fun h => (nomatch h)⟩
      bound := fun _ _ h => (nomatch h)
      positive := fun _ _ h => (nomatch h)
      valid := fun _ _ h => (nomatch h)
      next_pos := Nat.one_pos
      generations := fun _ _ h => (nomatch h) }

def deletePlan : CoreWritePlan := ⟨[⟨.deleteNode 1000 0, rfl, by decide, by decide, by decide⟩], 1, 1⟩

theorem planned_delete : Planned firstWeight none newCore deletePlan where
  normal op hop := ⟨op.op, by
    obtain rfl := mem_singleton.mp hop
    rfl⟩
  labels earlier op later heq := by
    have hmem : op ∈ deletePlan.ops.map (·.op) := by
      rw [heq]
      exact mem_append_right _ mem_cons_self
    obtain rfl := mem_singleton.mp hmem
    trivial
  nodes := ⟨le_rfl, fun id hid => (not_mem_nil hid).elim, fun hlt => absurd hlt (lt_irrefl _)⟩
  edges := ⟨le_rfl, fun id hid => (not_mem_nil hid).elim, fun hlt => absurd hlt (lt_irrefl _)⟩
  sequences := by decide

def labelledPlan : CoreWritePlan := ⟨[⟨.ensureNodeLabel "A" 1, rfl, show 1 < 2 ^ 32 by decide⟩, plannedNode none], 2, 1⟩

theorem planned_labelled : Planned firstWeight none newCore labelledPlan where
  normal op hop := ⟨op.op, by
    rcases mem_cons.mp hop with rfl | hop
    · rfl
    · obtain rfl := mem_singleton.mp hop
      rfl⟩
  labels earlier op later heq := by
    cases earlier with
    | nil =>
      obtain ⟨rfl, -⟩ := List.cons.inj heq
      trivial
    | cons fst earlier =>
      obtain ⟨rfl, hrest⟩ := List.cons.inj heq
      cases earlier with
      | nil =>
        obtain ⟨rfl, -⟩ := List.cons.inj hrest
        intro labelId hlab
        obtain rfl := mem_singleton.mp hlab
        exact Or.inr ⟨"A", mem_cons_self⟩
      | cons snd earlier =>
        obtain ⟨-, hnone⟩ := List.cons.inj hrest
        exact (append_ne_nil_of_right_ne_nil earlier (cons_ne_nil op later) hnone.symm).elim
  nodes := ⟨by decide, fun id hid => by
    obtain rfl := mem_singleton.mp hid
    decide, fun _ => ⟨1, mem_cons_self, rfl⟩⟩
  edges := ⟨le_rfl, fun id hid => (not_mem_nil hid).elim, fun hlt => absurd hlt (lt_irrefl _)⟩
  sequences := by decide

end

end OverGraph.ReplayedCommits
