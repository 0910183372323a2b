import OverGraph.LabelCatalogs
import OverGraph.Runs

/-!
# Labels across crashes

The label tokens live in the running engine, in the manifest on disk and in creation records
of the log. Tokens are logged with the records that use them or staged in the manifest;
manifest writes carry the tokens of the generations whose log may be retired.
-/

namespace OverGraph.LabelRecovery

open LabelCatalogs List Prod
open Except hiding error

/-- A record as it is stored, by the ids of its labels; the names are those it was written with. -/
structure LabelledRecord where
  space : LabelSpace
  labels : List (String × ℕ)

inductive WalOp where
  | ensureLabel (space : LabelSpace) (label : String) (id : ℕ)
  | upsert (record : LabelledRecord)

abbrev Catalogs := LabelSpace → RuntimeLabelCatalog

def setCatalog (catalogs : Catalogs) (space : LabelSpace) (cat : RuntimeLabelCatalog) : Catalogs :=
  fun other => if other = space then cat else catalogs other

/-- The label part of an operation, when it is written and when it is replayed. -/
def applyLabelTokenOp (walGen : Option ℕ) (catalogs : Catalogs) : WalOp → Except LabelError Catalogs
  | .ensureLabel space label id =>
    match (catalogs space).applyLabel label id walGen with
    | .error error => .error error
    | .ok cat => .ok (setCatalog catalogs space cat)
  | .upsert r =>
    if r.labels.all fun entry => ((catalogs r.space).idToLabel.lookup entry.2).isSome then .ok catalogs
    else .error .missingLabel

def applyLabelTokenOps (walGen : Option ℕ) : Catalogs → List WalOp → Except LabelError Catalogs
  | catalogs, [] => .ok catalogs
  | catalogs, op :: ops =>
    match applyLabelTokenOp walGen catalogs op with
    | .error error => .error error
    | .ok catalogs => applyLabelTokenOps walGen catalogs ops

/-- The labels of a write that have no id yet get the next ids. -/
structure LabelResolutionPlan where
  catalogs : Catalogs
  labelsToCreate : LabelSpace → List (String × ℕ)
  nextLabelId : LabelSpace → ℕ

namespace LabelResolutionPlan

def fromCatalogs (catalogs : Catalogs) : LabelResolutionPlan := ⟨catalogs, fun _ => [], fun space => (catalogs space).nextLabelId⟩

def create (plan : LabelResolutionPlan) (space : LabelSpace) (label : String) : LabelResolutionPlan :=
  { plan with
    labelsToCreate := fun other => if other = space then plan.labelsToCreate space ++ [(label, plan.nextLabelId space)]
      else plan.labelsToCreate other
    nextLabelId := fun other => if other = space then plan.nextLabelId space + 1 else plan.nextLabelId other }

def resolveLabelForWrite (plan : LabelResolutionPlan) (space : LabelSpace) (label : String) : Except LabelError (ℕ × LabelResolutionPlan) :=
  match (plan.catalogs space).labelToId.lookup label with
  | some id => .ok (id, plan)
  | none =>
    match (plan.labelsToCreate space).lookup label with
    | some id => .ok (id, plan)
    | none =>
      if validLabelTokenName label = false then .error .invalidName
      else if plan.nextLabelId space = u32Max then .error .idSpaceExhausted
      else .ok (plan.nextLabelId space, plan.create space label)

def resolveLabels (space : LabelSpace) : LabelResolutionPlan → List String → Except LabelError (List (String × ℕ) × LabelResolutionPlan)
  | plan, [] => .ok ([], plan)
  | plan, label :: labels =>
    match plan.resolveLabelForWrite space label with
    | .error error => .error error
    | .ok (id, plan) =>
      match resolveLabels space plan labels with
      | .error error => .error error
      | .ok (entries, plan) => .ok ((label, id) :: entries, plan)

def resolveRecords : LabelResolutionPlan → List (LabelSpace × List String) → Except LabelError (List LabelledRecord × LabelResolutionPlan)
  | plan, [] => .ok ([], plan)
  | plan, (space, labels) :: records =>
    match resolveLabels space plan labels with
    | .error error => .error error
    | .ok (entries, plan) =>
      match resolveRecords plan records with
      | .error error => .error error
      | .ok (resolved, plan) => .ok (⟨space, entries⟩ :: resolved, plan)

def tokenOps (plan : LabelResolutionPlan) : List WalOp :=
  ((plan.labelsToCreate .node).map fun entry => .ensureLabel .node entry.1 entry.2) ++
    (plan.labelsToCreate .edge).map fun entry => .ensureLabel .edge entry.1 entry.2

end LabelResolutionPlan

open LabelResolutionPlan

/-- The operations of a write: the new labels, then the records. -/
def planWrite (catalogs : Catalogs) (ensured records : List (LabelSpace × List String)) : Except LabelError (List WalOp) :=
  match resolveRecords (fromCatalogs catalogs) ensured with
  | .error error => .error error
  | .ok (_, plan) =>
    match resolveRecords plan records with
    | .error error => .error error
    | .ok (resolved, plan) => .ok (plan.tokenOps ++ resolved.map .upsert)

abbrev Manifest := LabelSpace → ManifestTokens

def stageLabelToken (man : ManifestTokens) (label : String) (id : ℕ) : Except LabelError ManifestTokens :=
  if validLabelTokenName label = false then .error .invalidName
  else
    match man.tokens.lookup label with
    | some existing => if existing = id then .ok man else .error .labelConflict
    | none =>
      if man.tokens.entries.any fun entry => decide (entry.2 = id) then .error .idConflict
      else .ok ⟨man.tokens.insert label id, max man.nextLabelId (id + 1)⟩

def stageLabelTokens (man : Manifest) : List (LabelSpace × String × ℕ) → Except LabelError Manifest
  | [] => .ok man
  | (space, label, id) :: entries =>
    match stageLabelToken (man space) label id with
    | .error error => .error error
    | .ok tokens => stageLabelTokens (fun other => if other = space then tokens else man other) entries

def mergeRuntimeLabelCatalog (catalogs : Catalogs) : Manifest := fun space => (catalogs space).applyToManifest

def mergeCheckpointedLabelCatalog (catalogs : Catalogs) (man : Manifest) (maxWalGen : Option ℕ) :
    Manifest := fun space => (catalogs space).applyCheckpointedToManifest (man space) maxWalGen

/-- The disk and, unless it has stopped, the engine. A generation of the log is a list of
batches that are replayed as a whole. -/
structure State where
  manifest : Manifest
  nextWalGeneration : ℕ
  frozen : List (ℕ × List (List WalOp))
  activeGeneration : ℕ
  synced : List (List WalOp)
  buffered : List (List WalOp)
  segments : List LabelledRecord
  running : Option Catalogs

/-- A new database. -/
def State.initial : State where
  manifest := fun _ => ⟨∅, 1⟩
  nextWalGeneration := 1
  frozen := []
  activeGeneration := 0
  synced := []
  buffered := []
  segments := []
  running := none

def recordsOf (ops : List WalOp) : List LabelledRecord :=
  ops.filterMap fun
    | .upsert r => some r
    | .ensureLabel _ _ _ => none

def replayGenerations : List (ℕ × List (List WalOp)) → Catalogs → Except LabelError Catalogs
  | [], catalogs => .ok catalogs
  | (gen, batches) :: generations, catalogs =>
    match applyLabelTokenOps (some gen) catalogs batches.flatten with
    | .error error => .error error
    | .ok catalogs => replayGenerations generations catalogs

/-- The catalogs on open: the tokens of the manifest, then the frozen generations in the order
they were frozen in, then the active one. -/
def openCatalogs (s : State) : Except LabelError Catalogs :=
  match RuntimeLabelCatalog.fromManifest (s.manifest .node), RuntimeLabelCatalog.fromManifest (s.manifest .edge) with
  | .error error, _ => .error error
  | _, .error error => .error error
  | .ok node, .ok edge => replayGenerations (s.frozen ++ [(s.activeGeneration, s.synced)])
    fun
      | .node => node
      | .edge => edge

/-- Stage labels in the manifest and enter the new ones. A schema change publishes the runtime
catalog and stages the new labels; the other changes stage all of their labels. -/
def stageLabels (catalogs : Catalogs) (man : Manifest) (checkpointable : Option ℕ)
    (requests : List (LabelSpace × List String)) (publishRuntime : Bool) : Except LabelError (Manifest × Catalogs) :=
  match resolveRecords (fromCatalogs catalogs) requests with
  | .error error => .error error
  | .ok (resolved, plan) =>
    let current := mergeCheckpointedLabelCatalog catalogs man checkpointable
    let created := (plan.labelsToCreate .node).map (fun entry => (LabelSpace.node, entry)) ++
      (plan.labelsToCreate .edge).map fun entry => (LabelSpace.edge, entry)
    let all := resolved.flatMap fun r => r.labels.map fun entry => (r.space, entry)
    match stageLabelTokens (if publishRuntime then mergeRuntimeLabelCatalog catalogs else current)
        (if publishRuntime then created else all) with
    | .error error => .error error
    | .ok staged =>
      match applyLabelTokenOps none catalogs plan.tokenOps with
      | .error error => .error error
      | .ok after => .ok (mergeCheckpointedLabelCatalog catalogs staged checkpointable, after)

inductive Event where
  /-- Log a batch: new labels and records. -/
  | write (ensured records : List (LabelSpace × List String))
  | stage (requests : List (LabelSpace × List String)) (publishRuntime : Bool)
  | syncWal
  | freeze
  | writeSynced
  | writeCheckpointed (maxWalGen : Option ℕ)
  /-- Publish the segment of a frozen generation and retire its log. -/
  | publish (index : ℕ)
  /-- Stop at any point; some of the batches that were not synced may have reached the disk. -/
  | crash (kept : ℕ)
  | openDb

def checkpointable (s : State) : Option ℕ := if s.activeGeneration = 0 then none else some (s.activeGeneration - 1)

def step (s : State) : Event → Option State
  | .write ensured records => s.running.bind fun catalogs =>
    match planWrite catalogs ensured records with
    | .error _ => none
    | .ok ops =>
      match applyLabelTokenOps (some s.activeGeneration) catalogs ops with
      | .error _ => none
      | .ok after => some { s with buffered := s.buffered ++ [ops], running := some after }
  | .stage requests publishRuntime => s.running.bind fun catalogs =>
    match stageLabels catalogs s.manifest (checkpointable s) requests publishRuntime with
    | .error _ => none
    | .ok (man, after) => some { s with manifest := man, running := some after }
  | .syncWal => s.running.map fun _ => { s with synced := s.synced ++ s.buffered, buffered := [] }
  | .freeze => s.running.map fun catalogs =>
    { s with
      manifest := mergeRuntimeLabelCatalog catalogs
      frozen := s.frozen ++ [(s.activeGeneration, s.synced ++ s.buffered)]
      activeGeneration := s.nextWalGeneration
      nextWalGeneration := s.nextWalGeneration + 1
      synced := []
      buffered := [] }
  | .writeSynced => s.running.map fun catalogs => { s with manifest := mergeRuntimeLabelCatalog catalogs }
  | .writeCheckpointed maxWalGen => s.running.map fun catalogs =>
    { s with manifest := mergeCheckpointedLabelCatalog catalogs s.manifest maxWalGen }
  | .publish idx => s.running.bind fun catalogs => (s.frozen[idx]?).map fun (gen, batches) =>
    { s with
      manifest := mergeCheckpointedLabelCatalog catalogs s.manifest (some gen)
      frozen := s.frozen.eraseIdx idx
      segments := s.segments ++ recordsOf batches.flatten }
  | .crash kept => some { s with synced := s.synced ++ s.buffered.take kept, buffered := [], running := none }
  | .openDb =>
    match s.running, openCatalogs s with
    | none, .ok catalogs => some { s with running := some catalogs }
    | _, _ => none

/-- Which labels have which ids. -/
abbrev Assignment := LabelSpace → String → ℕ → Prop

structure Coherent (assigned : Assignment) : Prop where
  functional : ∀ {space label id other}, assigned space label id → assigned space label other → id = other
  injective : ∀ {space label other id}, assigned space label id → assigned space other id → label = other
  positive : ∀ {space label id}, assigned space label id → 0 < id
  valid : ∀ {space label id}, assigned space label id → validLabelTokenName label = true

theorem Coherent.subset {assigned other : Assignment} (h : Coherent assigned)
    (hsub : ∀ space label id, other space label id → assigned space label id) : Coherent other where
  functional hid hoth := h.functional (hsub _ _ _ hid) (hsub _ _ _ hoth)
  injective hid hoth := h.injective (hsub _ _ _ hid) (hsub _ _ _ hoth)
  positive hid := h.positive (hsub _ _ _ hid)
  valid hid := h.valid (hsub _ _ _ hid)

def runtimeKnows (catalogs : Catalogs) : Assignment := fun space label id => (catalogs space).labelToId.lookup label = some id

def manifestKnows (man : Manifest) : Assignment := fun space label id => (man space).tokens.lookup label = some id

/-- The labels known before, and those the operations create. -/
def withOps (known : Assignment) (ops : List WalOp) : Assignment :=
  fun space label id => known space label id ∨ WalOp.ensureLabel space label id ∈ ops

/-- Each record uses labels that are known or were created before it. -/
def Grounded : Assignment → List WalOp → Prop
  | _, [] => True
  | known, .ensureLabel space label id :: ops => Grounded (withOps known [.ensureLabel space label id]) ops
  | known, .upsert r :: ops => (∀ entry ∈ r.labels, known r.space entry.1 entry.2) ∧ Grounded known ops

variable {ops : List WalOp}

theorem Grounded.mono {known other : Assignment} (h : Grounded known ops)
    (hsub : ∀ space label id, known space label id → other space label id) : Grounded other ops := by
  induction ops generalizing known other with
  | nil => trivial
  | cons op ops ih =>
    cases op with
    | ensureLabel space label id => exact ih h fun _ _ _ hkn => Or.imp_left (hsub _ _ _) hkn
    | upsert r => exact ⟨fun entry hent => hsub _ _ _ (h.1 entry hent), ih h.2 hsub⟩

variable {known : Assignment}

theorem grounded_append {ops more : List WalOp} :
    Grounded known (ops ++ more) ↔ Grounded known ops ∧ Grounded (withOps known ops) more := by
  induction ops generalizing known with
  | nil =>
    have hsame : withOps known [] = known := by
      funext space label id
      simp [withOps]
    rw [nil_append, hsame, Grounded, true_and]
  | cons op ops ih =>
    cases op with
    | ensureLabel space label id =>
      have hsame : withOps (withOps known [.ensureLabel space label id]) ops = withOps known (.ensureLabel space label id :: ops) := by
        funext other otherLabel otherId
        simp [withOps, or_assoc]
      rw [cons_append, Grounded, ih, hsame]
      rfl
    | upsert r =>
      have hsame : withOps known (.upsert r :: ops) = withOps known ops := by
        funext other otherLabel otherId
        simp [withOps]
      rw [cons_append, Grounded, ih, hsame, ← and_assoc]
      rfl

theorem grounded_records (h : Grounded known ops) {r : LabelledRecord}
    (hrec : r ∈ recordsOf ops) {entry : String × ℕ} (hent : entry ∈ r.labels) :
    withOps known ops r.space entry.1 entry.2 := by
  induction ops generalizing known with
  | nil => cases hrec
  | cons op ops ih =>
    cases op with
    | ensureLabel space label id =>
      rcases ih h hrec with hkn | hmem
      · rcases hkn with hkn | hfst
        · exact Or.inl hkn
        · exact Or.inr (mem_cons.mpr (Or.inl (mem_singleton.mp hfst)))
      · exact Or.inr (mem_cons_of_mem _ hmem)
    | upsert fst =>
      rcases mem_cons.mp hrec with rfl | hrec
      · exact Or.inl (h.1 entry hent)
      · exact Or.imp_right (mem_cons_of_mem _) (ih h.2 hrec)

/-- The catalogs after operations of a generation. -/
structure Applied (catalogs after : Catalogs) (walGen : Option ℕ) (ops : List WalOp) : Prop where
  wellFormed : ∀ space, (after space).WellFormed
  knows : ∀ space label id, runtimeKnows after space label id ↔ withOps (runtimeKnows catalogs) ops space label id
  next_le : ∀ space, (catalogs space).nextLabelId ≤ (after space).nextLabelId
  kept : ∀ space label gen, (catalogs space).labelWalGeneration.lookup label = some gen →
    ∃ earlier ≤ gen, (after space).labelWalGeneration.lookup label = some earlier
  recorded : ∀ gen, walGen = some gen → ∀ space label id, WalOp.ensureLabel space label id ∈ ops →
    ∃ earlier ≤ gen, (after space).labelWalGeneration.lookup label = some earlier

variable {catalogs : Catalogs}

theorem Applied.refl (h : ∀ space, (catalogs space).WellFormed) (walGen : Option ℕ) : Applied catalogs catalogs walGen [] where
  wellFormed := h
  knows := by simp [withOps]
  next_le _ := le_rfl
  kept _ _ gen hgen := ⟨gen, le_rfl, hgen⟩
  recorded := by simp

theorem setCatalog_self (catalogs : Catalogs) (space : LabelSpace) (cat : RuntimeLabelCatalog) :
    setCatalog catalogs space cat space = cat := if_pos rfl

variable {space other : LabelSpace}

theorem setCatalog_other (catalogs : Catalogs) (cat : RuntimeLabelCatalog)
    (h : other ≠ space) : setCatalog catalogs space cat other = catalogs other := if_neg h

variable {space : LabelSpace} {label : String} {id : ℕ} {assigned : Assignment}

/-- A creation record of a coherent assignment is applied. -/
theorem applyEnsure_ok (hcoh : Coherent assigned) (hwf : ∀ space, (catalogs space).WellFormed)
    (hsub : ∀ space label id, runtimeKnows catalogs space label id → assigned space label id)
    (hasg : assigned space label id) (walGen : Option ℕ) :
    ∃ after, applyLabelTokenOp walGen catalogs (.ensureLabel space label id) = .ok after ∧
      Applied catalogs after walGen [.ensureLabel space label id] := by
  obtain ⟨cat, hcat, hentd⟩ := RuntimeLabelCatalog.applyLabel_entered (hwf space) walGen
    (hcoh.valid hasg) (hcoh.positive hasg)
    (fun existing hex => hcoh.functional (hsub space label existing hex) hasg)
    (fun existing hex => hcoh.injective (hsub space existing id hex) hasg)
  refine ⟨setCatalog catalogs space cat, ?_, ?_, ?_, ?_, ?_, ?_⟩
  · rw [applyLabelTokenOp, hcat]
  · intro other
    by_cases hoth : other = space
    · rw [hoth, setCatalog_self]
      exact hentd.wellFormed
    · rw [setCatalog_other _ _ hoth]
      exact hwf other
  · intro other otherLabel otherId
    rw [runtimeKnows, withOps, mem_singleton, WalOp.ensureLabel.injEq]
    by_cases hoth : other = space
    · rw [hoth, setCatalog_self, hentd.lookup]
      by_cases hlab : otherLabel = label
      · rw [if_pos hlab, hlab]
        constructor
        · intro hid
          exact Or.inr ⟨rfl, rfl, (Option.some.inj hid).symm⟩
        · rintro (hkn | ⟨-, -, hid⟩)
          · rw [hcoh.functional (hsub space label otherId hkn) hasg]
          · rw [hid]
      · rw [if_neg hlab]
        simp [hlab, runtimeKnows]
    · rw [setCatalog_other _ _ hoth]
      simp [hoth, runtimeKnows]
  · intro other
    by_cases hoth : other = space
    · rw [hoth, setCatalog_self]
      exact hentd.next_le
    · rw [setCatalog_other _ _ hoth]
  · intro other otherLabel gen hgen
    by_cases hoth : other = space
    · rw [hoth] at hgen ⊢
      rw [setCatalog_self]
      exact hentd.kept otherLabel gen hgen
    · rw [setCatalog_other _ _ hoth]
      exact ⟨gen, le_rfl, hgen⟩
  · intro gen hgen other otherLabel otherId hmem
    obtain ⟨rfl, rfl, rfl⟩ := WalOp.ensureLabel.inj (mem_singleton.mp hmem)
    rw [setCatalog_self]
    exact hentd.recorded gen hgen

theorem Applied.cons {catalogs mid after : Catalogs} {walGen : Option ℕ} {op : WalOp} {ops : List WalOp}
    (h : Applied catalogs mid walGen [op]) (h' : Applied mid after walGen ops) :
    Applied catalogs after walGen (op :: ops) where
  wellFormed := h'.wellFormed
  knows space label id := by rw [h'.knows, withOps, h.knows, withOps, withOps, mem_singleton, mem_cons, or_assoc]
  next_le space := le_trans (h.next_le space) (h'.next_le space)
  kept space label gen hgen := by
    obtain ⟨earlier, hle, hear⟩ := h.kept space label gen hgen
    obtain ⟨earliest, hle', hearl⟩ := h'.kept space label earlier hear
    exact ⟨earliest, le_trans hle' hle, hearl⟩
  recorded gen hgen space label id hmem := by
    rcases mem_cons.mp hmem with heq | hmem
    · obtain ⟨earlier, hle, hear⟩ := h.recorded gen hgen space label id (by simp [heq])
      obtain ⟨earliest, hle', hearl⟩ := h'.kept space label earlier hear
      exact ⟨earliest, le_trans hle' hle, hearl⟩
    · exact h'.recorded gen hgen space label id hmem

/-- Operations whose labels agree with a coherent assignment, and whose records are grounded,
are applied without an error. -/
theorem applyLabelTokenOps_ok (hcoh : Coherent assigned) (walGen : Option ℕ)
    (hwf : ∀ space, (catalogs space).WellFormed)
    (hsub : ∀ space label id, runtimeKnows catalogs space label id → assigned space label id)
    (hops : ∀ space label id, WalOp.ensureLabel space label id ∈ ops → assigned space label id)
    (hgnd : Grounded (runtimeKnows catalogs) ops) :
    ∃ after, applyLabelTokenOps walGen catalogs ops = .ok after ∧ Applied catalogs after walGen ops := by
  induction ops generalizing catalogs with
  | nil => exact ⟨catalogs, rfl, Applied.refl hwf walGen⟩
  | cons op ops ih =>
    cases op with
    | ensureLabel space label id =>
      obtain ⟨mid, hmid, happ⟩ := applyEnsure_ok hcoh hwf hsub (hops space label id (by simp)) walGen
      obtain ⟨after, haft, happl'⟩ := ih happ.wellFormed
        (fun other otherLabel otherId hkn => by
          rcases (happ.knows other otherLabel otherId).mp hkn with hkn | hmem
          · exact hsub other otherLabel otherId hkn
          · exact hops other otherLabel otherId (mem_cons.mpr (Or.inl (mem_singleton.mp hmem))))
        (fun other otherLabel otherId hmem => hops other otherLabel otherId (mem_cons_of_mem _ hmem))
        (Grounded.mono hgnd fun other otherLabel otherId hkn => (happ.knows other otherLabel otherId).mpr hkn)
      refine ⟨after, ?_, happ.cons happl'⟩
      rw [applyLabelTokenOps, hmid]
      exact haft
    | upsert r =>
      have hkn : (r.labels.all fun entry => ((catalogs r.space).idToLabel.lookup entry.2).isSome) = true := by
        refine all_eq_true.mpr fun entry hent => ?_
        rw [((hwf r.space).inverse entry.1 entry.2).mp (hgnd.1 entry hent)]
        rfl
      obtain ⟨after, haft, happ⟩ := ih hwf hsub
        (fun other otherLabel otherId hmem => hops other otherLabel otherId (mem_cons_of_mem _ hmem)) hgnd.2
      refine ⟨after, ?_, ?_⟩
      · rw [applyLabelTokenOps, applyLabelTokenOp, if_pos hkn]
        exact haft
      · have hfst : Applied catalogs catalogs walGen [.upsert r] :=
          { Applied.refl hwf walGen with
            knows := by simp [withOps]
            recorded := by simp }
        exact hfst.cons happ

def planKnows (plan : LabelResolutionPlan) : Assignment :=
  fun space label id => runtimeKnows plan.catalogs space label id ∨ (label, id) ∈ plan.labelsToCreate space

/-- The new labels of a plan are new, and so are their ids. -/
structure PlanHolds (catalogs : Catalogs) (plan : LabelResolutionPlan) : Prop where
  same : plan.catalogs = catalogs
  next_le : ∀ space, (catalogs space).nextLabelId ≤ plan.nextLabelId space
  unknown : ∀ space, ∀ entry ∈ plan.labelsToCreate space, (catalogs space).labelToId.lookup entry.1 = none
  from_next : ∀ space, ∀ entry ∈ plan.labelsToCreate space, (catalogs space).nextLabelId ≤ entry.2
  below_next : ∀ space, ∀ entry ∈ plan.labelsToCreate space, entry.2 < plan.nextLabelId space
  valid : ∀ space, ∀ entry ∈ plan.labelsToCreate space, validLabelTokenName entry.1 = true
  labels : ∀ space, ((plan.labelsToCreate space).map (·.1)).Nodup
  ids : ∀ space, ((plan.labelsToCreate space).map (·.2)).Nodup

theorem planHolds_fromCatalogs (catalogs : Catalogs) : PlanHolds catalogs (fromCatalogs catalogs) where
  same := rfl
  next_le _ := le_rfl
  unknown := by simp [fromCatalogs]
  from_next := by simp [fromCatalogs]
  below_next := by simp [fromCatalogs]
  valid := by simp [fromCatalogs]
  labels := by simp [fromCatalogs]
  ids := by simp [fromCatalogs]

section
variable (plan : LabelResolutionPlan)

theorem create_self (space : LabelSpace) (label : String) :
    (plan.create space label).labelsToCreate space = plan.labelsToCreate space ++ [(label, plan.nextLabelId space)] := if_pos rfl

theorem create_other (label : String)
    (h : other ≠ space) : (plan.create space label).labelsToCreate other = plan.labelsToCreate other := if_neg h

theorem create_next_le (space other : LabelSpace) (label : String) :
    plan.nextLabelId other ≤ (plan.create space label).nextLabelId other := by
  rw [create]
  dsimp only
  split
  · rename_i heq
    rw [heq]
    omega
  · exact le_rfl

end

variable {plan : LabelResolutionPlan}

theorem PlanHolds.create (h : PlanHolds catalogs plan) (hunk : (catalogs space).labelToId.lookup label = none)
    (hnew : label ∉ (plan.labelsToCreate space).map (·.1)) (hvd : validLabelTokenName label = true) :
    PlanHolds catalogs (plan.create space label) := by
  have hsp : ∀ (q : LabelSpace → String × ℕ → Prop), (∀ other, ∀ entry ∈ plan.labelsToCreate other, q other entry) →
      q space (label, plan.nextLabelId space) → ∀ other, ∀ entry ∈ (plan.create space label).labelsToCreate other,
      q other entry := by
    intro q hold hnew other entry hent
    by_cases hoth : other = space
    · subst hoth
      rw [create_self] at hent
      rcases mem_append.mp hent with hent | hent
      · exact hold other entry hent
      · rw [mem_singleton.mp hent]
        exact hnew
    · rw [create_other plan label hoth] at hent
      exact hold other entry hent
  refine ⟨h.same, fun other => le_trans (h.next_le other) (create_next_le plan space other label),
    hsp _ h.unknown hunk, hsp _ h.from_next (h.next_le space), ?_, hsp _ h.valid hvd, ?_, ?_⟩
  · refine hsp (fun other entry => entry.2 < (plan.create space label).nextLabelId other) ?_ ?_
    · intro other entry hent
      exact lt_of_lt_of_le (h.below_next other entry hent) (create_next_le plan space other label)
    · simp [LabelResolutionPlan.create]
  · intro other
    by_cases hoth : other = space
    · subst hoth
      rw [create_self, map_append, map_singleton]
      refine nodup_append.mpr ⟨h.labels other, nodup_singleton _, ?_⟩
      intro fst hfst snd hsnd heq
      rw [heq, mem_singleton.mp hsnd] at hfst
      exact hnew hfst
    · rw [create_other plan label hoth]
      exact h.labels other
  · intro other
    by_cases hoth : other = space
    · subst hoth
      rw [create_self, map_append, map_singleton]
      refine nodup_append.mpr ⟨h.ids other, nodup_singleton _, ?_⟩
      intro fst hfst snd hsnd heq
      rw [mem_singleton.mp hsnd] at heq
      obtain ⟨entry, hent, rfl⟩ := mem_map.mp hfst
      exact absurd heq (h.below_next other entry hent).ne
    · rw [create_other plan label hoth]
      exact h.ids other

theorem planKnows_create {label otherLabel : String}
    (h : planKnows plan other otherLabel id) : planKnows (plan.create space label) other otherLabel id := by
  refine Or.imp_right (fun hmem => ?_) h
  by_cases hoth : other = space
  · subst hoth
    rw [create_self]
    exact mem_append_left _ hmem
  · rw [create_other plan label hoth]
    exact hmem

structure Resolves (catalogs : Catalogs) (plan after : LabelResolutionPlan) (resolved : List LabelledRecord) : Prop where
  holds : PlanHolds catalogs after
  knows : ∀ space label id, planKnows plan space label id → planKnows after space label id
  names : ∀ record ∈ resolved, ∀ entry ∈ record.labels, planKnows after record.space entry.1 entry.2
  created : ∀ space, ∀ entry ∈ after.labelsToCreate space,
    entry ∈ plan.labelsToCreate space ∨ ∃ record ∈ resolved, record.space = space ∧ entry ∈ record.labels

theorem Resolves.refl (h : PlanHolds catalogs plan) : Resolves catalogs plan plan [] where
  holds := h
  knows _ _ _ hkn := hkn
  names := by simp
  created _ _ hent := Or.inl hent

variable {fst snd : List LabelledRecord} {after plan : LabelResolutionPlan}

theorem Resolves.trans {mid : LabelResolutionPlan}
    (h : Resolves catalogs plan mid fst) (h' : Resolves catalogs mid after snd) :
    Resolves catalogs plan after (fst ++ snd) where
  holds := h'.holds
  knows space label id hkn := h'.knows space label id (h.knows space label id hkn)
  names r hrec entry hent := by
    rcases mem_append.mp hrec with hrec | hrec
    · exact h'.knows _ _ _ (h.names r hrec entry hent)
    · exact h'.names r hrec entry hent
  created space entry hent := by
    rcases h'.created space entry hent with hent | ⟨r, hrec, hspace⟩
    · rcases h.created space entry hent with hent | ⟨r, hrec, hspace⟩
      · exact Or.inl hent
      · exact Or.inr ⟨r, mem_append_left _ hrec, hspace⟩
    · exact Or.inr ⟨r, mem_append_right _ hrec, hspace⟩

/-- The same labels, split otherwise over the records. -/
theorem Resolves.regroup (h : Resolves catalogs plan after fst)
    (hsame : ∀ space entry, (∃ r ∈ snd, r.space = space ∧ entry ∈ r.labels) ↔
      ∃ r ∈ fst, r.space = space ∧ entry ∈ r.labels) : Resolves catalogs plan after snd where
  holds := h.holds
  knows := h.knows
  names r hrec entry hent := by
    obtain ⟨other, hoth, hspace, hent⟩ := (hsame r.space entry).mp ⟨r, hrec, rfl, hent⟩
    rw [← hspace]
    exact h.names other hoth entry hent
  created space entry hent := Or.imp_right (hsame space entry).mpr (h.created space entry hent)

theorem resolveLabelForWrite_spec (h : PlanHolds catalogs plan)
    (hok : plan.resolveLabelForWrite space label = .ok (id, after)) :
    Resolves catalogs plan after [⟨space, [(label, id)]⟩] := by
  have hbuild : PlanHolds catalogs after →
      (∀ other otherLabel otherId, planKnows plan other otherLabel otherId → planKnows after other otherLabel otherId) →
      planKnows after space label id →
      (∀ other, ∀ entry ∈ after.labelsToCreate other, entry ∈ plan.labelsToCreate other ∨
        (space = other ∧ entry = (label, id))) → Resolves catalogs plan after [⟨space, [(label, id)]⟩] := by
    intro hhol hknows hkn hcre
    refine ⟨hhol, hknows, ?_, ?_⟩
    · intro r hrec entry hent
      rw [mem_singleton.mp hrec] at hent ⊢
      rw [mem_singleton.mp hent]
      exact hkn
    · intro other entry hent
      refine Or.imp_right (fun ⟨hspace, heq⟩ => ?_) (hcre other entry hent)
      exact ⟨_, mem_singleton_self _, hspace, mem_singleton.mpr heq⟩
  rw [resolveLabelForWrite] at hok
  cases hcat : (plan.catalogs space).labelToId.lookup label with
  | some existing =>
    simp only [hcat, ok.injEq, Prod.mk.injEq] at hok
    obtain ⟨rfl, rfl⟩ := hok
    exact hbuild h (fun _ _ _ hkn => hkn) (Or.inl hcat) fun _ _ hent => Or.inl hent
  | none =>
    cases hcre : (plan.labelsToCreate space).lookup label with
    | some existing =>
      simp only [hcat, hcre, ok.injEq, Prod.mk.injEq] at hok
      obtain ⟨rfl, rfl⟩ := hok
      obtain ⟨before, tail, hsp, -⟩ := lookup_eq_some_iff.mp hcre
      refine hbuild h (fun _ _ _ hkn => hkn) (Or.inr ?_) fun _ _ hent => Or.inl hent
      rw [hsp]
      simp
    | none =>
      simp only [hcat, hcre] at hok
      split at hok
      · cases hok
      · rename_i hvd
        split at hok
        · cases hok
        · simp only [ok.injEq, Prod.mk.injEq] at hok
          obtain ⟨rfl, rfl⟩ := hok
          have hnew : label ∉ (plan.labelsToCreate space).map (·.1) := by
            intro hmem
            obtain ⟨entry, hent, heq⟩ := mem_map.mp hmem
            have := lookup_eq_none_iff.mp hcre entry hent
            simp [heq] at this
          refine hbuild (h.create ?_ hnew (by simpa using hvd)) (fun _ _ _ => planKnows_create) (Or.inr ?_) ?_
          · rw [← h.same]
            exact hcat
          · rw [create_self]
            simp
          · intro other entry hent
            by_cases hoth : other = space
            · subst hoth
              rw [create_self] at hent
              exact Or.imp_right (fun hlast => ⟨rfl, mem_singleton.mp hlast⟩) (mem_append.mp hent)
            · rw [create_other plan label hoth] at hent
              exact Or.inl hent

theorem resolveLabels_spec {labels : List String} {entries : List (String × ℕ)} (h : PlanHolds catalogs plan)
    (hok : resolveLabels space plan labels = .ok (entries, after)) :
    Resolves catalogs plan after [⟨space, entries⟩] := by
  induction labels generalizing plan entries with
  | nil =>
    rw [resolveLabels] at hok
    obtain ⟨rfl, rfl⟩ := mk.inj (ok.inj hok)
    exact (Resolves.refl h).regroup (by simp)
  | cons label labels ih =>
    rw [resolveLabels] at hok
    split at hok
    · cases hok
    · rename_i id mid hmid
      split at hok
      · cases hok
      · rename_i rest after' hrest
        obtain ⟨rfl, rfl⟩ := mk.inj (ok.inj hok)
        have hfst := resolveLabelForWrite_spec h hmid
        refine (hfst.trans (ih hfst.holds hrest)).regroup ?_
        intro other entry
        simp [and_or_left]

variable {records : List (LabelSpace × List String)}

theorem resolveRecords_spec {resolved : List LabelledRecord} (h : PlanHolds catalogs plan)
    (hok : resolveRecords plan records = .ok (resolved, after)) : Resolves catalogs plan after resolved := by
  induction records generalizing plan resolved with
  | nil =>
    rw [resolveRecords] at hok
    obtain ⟨rfl, rfl⟩ := mk.inj (ok.inj hok)
    exact Resolves.refl h
  | cons r records ih =>
    obtain ⟨space, labels⟩ := r
    rw [resolveRecords] at hok
    split at hok
    · cases hok
    · rename_i entries mid hmid
      split at hok
      · cases hok
      · rename_i rest after' hrest
        obtain ⟨rfl, rfl⟩ := mk.inj (ok.inj hok)
        have hfst := resolveLabels_spec h hmid
        exact hfst.trans (ih hfst.holds hrest)

theorem ensureLabel_mem_tokenOps : WalOp.ensureLabel space label id ∈ plan.tokenOps ↔ (label, id) ∈ plan.labelsToCreate space := by
  rw [tokenOps, mem_append, mem_map, mem_map]
  cases space <;> simp

theorem grounded_upserts {records : List LabelledRecord}
    (h : ∀ r ∈ records, ∀ entry ∈ r.labels, known r.space entry.1 entry.2) :
    Grounded known (records.map .upsert) := by
  induction records with
  | nil => trivial
  | cons r records ih => exact ⟨h r mem_cons_self, ih fun other hoth => h other (mem_cons_of_mem _ hoth)⟩

theorem grounded_tokenOps (known : Assignment) (plan : LabelResolutionPlan) : Grounded known plan.tokenOps := by
  have hmap : ∀ (known : Assignment) (space : LabelSpace) (entries : List (String × ℕ)),
      Grounded known (entries.map fun entry => .ensureLabel space entry.1 entry.2) := by
    intro known space entries
    induction entries generalizing known with
    | nil => trivial
    | cons entry entries ih => exact ih _
  exact grounded_append.mpr ⟨hmap _ _ _, hmap _ _ _⟩

/-- The labels after the creation records of a plan are those the plan knows. -/
theorem withOps_tokenOps (h : PlanHolds catalogs plan) : withOps (runtimeKnows catalogs) plan.tokenOps = planKnows plan := by
  funext space label id
  rw [withOps, planKnows, ensureLabel_mem_tokenOps, h.same]

theorem PlanHolds.coherent (h : PlanHolds catalogs plan)
    (hwf : ∀ space, (catalogs space).WellFormed) : Coherent (planKnows plan) := by
  have hkn : ∀ {space label id}, planKnows plan space label id →
      runtimeKnows catalogs space label id ∨ (label, id) ∈ plan.labelsToCreate space := by
    intro space label id hkn
    rw [← h.same]
    exact hkn
  -- a label of the catalog is not created, and its id is below those that are
  have hapart : ∀ {space label id other}, runtimeKnows catalogs space label id → (label, other) ∈ plan.labelsToCreate space → False := by
    intro space label id other hcat hcre
    have hnone := h.unknown space _ hcre
    rw [runtimeKnows, hnone] at hcat
    cases hcat
  have hbel : ∀ {space label other id}, runtimeKnows catalogs space label id → (other, id) ∈ plan.labelsToCreate space → False := by
    intro space label other id hcat hcre
    have hlt := (hwf space).bound label id hcat
    have hle := h.from_next space _ hcre
    dsimp only at hle
    omega
  refine ⟨?_, ?_, ?_, ?_⟩
  · intro space label id other hid hoth
    rcases hkn hid with hid | hid <;> rcases hkn hoth with hoth | hoth
    · exact Option.some.inj (hid.symm.trans hoth)
    · exact (hapart hid hoth).elim
    · exact (hapart hoth hid).elim
    · exact (mk.inj (inj_on_of_nodup_map (h.labels space) hid hoth rfl)).2
  · intro space label other id hid hoth
    rcases hkn hid with hid | hid <;> rcases hkn hoth with hoth | hoth
    · have hrev := ((hwf space).inverse label id).mp hid
      rw [((hwf space).inverse other id).mp hoth] at hrev
      exact (Option.some.inj hrev).symm
    · exact (hbel hid hoth).elim
    · exact (hbel hoth hid).elim
    · exact (mk.inj (inj_on_of_nodup_map (h.ids space) hid hoth rfl)).1
  · intro space label id hid
    rcases hkn hid with hid | hid
    · exact (hwf space).positive label id hid
    · exact lt_of_lt_of_le (hwf space).next_pos (h.from_next space _ hid)
  · intro space label id hid
    rcases hkn hid with hid | hid
    · exact (hwf space).valid label id hid
    · exact h.valid space _ hid

/-- The operations of a write agree with the catalogs, and their records use labels that are
known by then. -/
theorem planWrite_spec (hwf : ∀ space, (catalogs space).WellFormed) {ensured : List (LabelSpace × List String)}
    (hok : planWrite catalogs ensured records = .ok ops) :
    Coherent (withOps (runtimeKnows catalogs) ops) ∧ Grounded (runtimeKnows catalogs) ops := by
  rw [planWrite] at hok
  split at hok
  · cases hok
  · rename_i plan' hensu
    split at hok
    · cases hok
    · rename_i resolved plan hrslv
      obtain rfl := ok.inj hok
      have hplan := resolveRecords_spec (resolveRecords_spec (planHolds_fromCatalogs catalogs) hensu).holds hrslv
      have hknows := withOps_tokenOps hplan.holds
      constructor
      · refine (hplan.holds.coherent hwf).subset fun space label id hkn => ?_
        rw [← hknows]
        refine Or.imp_right (fun hmem => ?_) hkn
        rcases mem_append.mp hmem with hmem | hmem
        · exact hmem
        · obtain ⟨r, -, heq⟩ := mem_map.mp hmem
          cases heq
      · refine grounded_append.mpr ⟨grounded_tokenOps _ _, ?_⟩
        rw [hknows]
        exact grounded_upserts hplan.names

end OverGraph.LabelRecovery
