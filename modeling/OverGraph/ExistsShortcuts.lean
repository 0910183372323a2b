import OverGraph.SubqueryPipelines

/-!
# Existence is the existence of a row

Asking whether a subquery has a row agrees with running it, unless the probe gives up at a limit of zero behind which the stages make rows
out of none, as an aggregation without group keys does.
-/

namespace OverGraph.ExistsShortcuts
open LayeredWrites Sources RequiredSegments BindingRows PipelineExpressions ProjectStages List Option Except Prod Nat
open MatchGoals SpentBudgets SubqueryPipelines Cuts WritePlans Fallible

variable {O Q : Type} {sl : SourceList} (ctx : ReadContext O Q sl)

/-- The pipeline behind the first projection whose limit is zero. -/
def stagesBehindCut : List (Stage O) → Option (Schema × List (Stage O))
  | [] => none
  | .project stage :: stgs => if stage.limit = some 0 then some (stage.outputSchema, stgs) else stagesBehindCut stgs
  | _ :: stgs => stagesBehindCut stgs

def behindCut : Pipeline O → Option (Pipeline O)
  | .plain shape stgs => (stagesBehindCut stgs).map fun rest => .plain { shape with initialSchema := rest.1 } rest.2
  | .union shape stgs stage brs => (stagesBehindCut stgs).map fun rest => .union { shape with initialSchema := rest.1 } rest.2 stage brs

def RowsFromNone (pipe : Pipeline O) : Prop := ∃ bud flow left, executePipeline ctx pipe [] bud = .ok (flow, left) ∧ flow.rows ≠ []

/-- The probe gives up, and the stages it does not look at would have made a row. -/
def CutTooEarly (pipe : Pipeline O) (plan : Option (ExistsProbePlan O)) : Prop :=
  (∃ found, plan = some ⟨found, true⟩) ∧ ∃ rest, behindCut pipe = some rest ∧ RowsFromNone ctx rest

def HasNoRows (pipe : Pipeline O) (initialRows : List Row) : Prop := ∃ bud left, allSubqueryRows ctx pipe initialRows bud = .ok ([], left)

mutual

def MissesRows (initialRows : List Row) : Pipeline O → Prop
  | .plain shape stgs => CutTooEarly ctx (.plain shape stgs) (pipelineExistsProbePlan ctx false stgs)
  | .union _ [] _ brs => SomeMisses initialRows brs ∧ NoneFound initialRows brs
  | .union shape (fst :: stgs) stage brs =>
    CutTooEarly ctx (.union shape (fst :: stgs) stage brs) (pipelineExistsProbePlan ctx true (fst :: stgs))

def SomeMisses (initialRows : List Row) : Branches O → Prop
  | .nil => False
  | .cons _ pipe brs => MissesRows initialRows pipe ∨ SomeMisses initialRows brs

def NoneFound (initialRows : List Row) : Branches O → Prop
  | .nil => True
  | .cons _ pipe brs => (MissesRows initialRows pipe ∨ HasNoRows ctx pipe initialRows) ∧ NoneFound initialRows brs

end

section

section
variable (opts : ProjectOptions)

theorem priced_cappedFlow (sch : Schema) (rows : List Row) :
    Priced mk fun bud => cappedFlow opts sch (rows, bud) := by
  simp only [cappedFlow]
  exact priced_after fun _ _ => priced_ok (⟨sch, rows⟩ : Flow)

theorem priced_executeStage (flow : Flow) (stage : Stage O) :
    Priced mk fun bud => executeStage ctx opts (flow, bud) stage := by
  cases stage with
  | pattern stage =>
    simp only [executeStage]
    exact priced_after fun rows _ => priced_cappedFlow opts stage.outputSchema rows
  | optionalMatch stage => exact (stage.priced flow.schema flow.rows).bind fun rows => priced_cappedFlow opts stage.outputSchema rows
  | shortestPath stage =>
    simp only [executeStage]
    exact priced_after fun rows _ => priced_cappedFlow opts stage.outputSchema rows
  | project stage =>
    refine (priced_projectStageRows ctx.language opts stage flow.rows).bind fun rows => ?_
    exact priced_ite (fun _ => priced_ok (⟨stage.outputSchema, rows⟩ : Flow)) fun _ => priced_cappedFlow opts stage.outputSchema rows
  | call stage query =>
    exact (priced_callRows query stage opts.toPipelineOptions flow.rows).bind fun rows => priced_cappedFlow opts stage.outputSchema rows

theorem priced_executeStages (stgs : List (Stage O)) (flow : Flow) :
    Priced mk fun bud => executeStages ctx opts stgs (flow, bud) :=
  priced_foldlM (fun stage _ flow => priced_executeStage ctx opts flow stage) flow

end

mutual

theorem priced_executePipeline : ∀ (pipe : Pipeline O) (initialRows : List Row),
    Priced mk fun bud => executePipeline ctx pipe initialRows bud
  | .plain shape stgs, initialRows => by
    simp only [executePipeline]
    exact priced_executeStages ctx shape.options stgs ⟨shape.initialSchema, initialRows⟩
  | .union shape stgs stage brs, initialRows => by
    simp only [executePipeline]
    refine (priced_executeStages ctx shape.options stgs ⟨shape.initialSchema, initialRows⟩).bind fun flow => ?_
    refine (priced_executeBranches stage brs flow.rows []).bind fun rows => ?_
    dsimp only
    exact priced_after fun merged _ => priced_cappedFlow shape.options stage.outputSchema merged

theorem priced_executeBranches (stage : UnionStage) : ∀ (brs : Branches O) (initialRows rows : List Row),
    Priced mk fun bud => executeBranches ctx stage brs initialRows (rows, bud)
  | .nil, initialRows, rows => by
    simp only [executeBranches]
    exact priced_ok rows
  | .cons outputMappings pipe brs, initialRows, rows => by
    simp only [executeBranches]
    refine (priced_executePipeline pipe initialRows).bind fun flow => ?_
    dsimp only
    refine priced_after fun final _ => priced_after fun output _ => ?_
    exact priced_executeBranches stage brs initialRows (rows ++ output)

end

theorem priced_allSubqueryRows (pipe : Pipeline O) (initialRows : List Row) :
    Priced mk fun bud => allSubqueryRows ctx pipe initialRows bud := by
  simp only [allSubqueryRows]
  refine (priced_executePipeline ctx pipe initialRows).bind fun flow => ?_
  dsimp only
  exact priced_after fun final _ => priced_ok final

end

variable {rows : List Row} {stgs : List (Stage O)} {bud : Budget}

section
variable {ctx} {stage : NormalizedProjectStage O} {opts : ProjectOptions}

theorem length_projected {lang : Language O Q} {proj : List Row}
    (h : executePipelineScalarProjectStage lang opts stage rows = .ok proj) : proj.length = rows.length := by
  have hrun : ∀ (rows start proj : List Row), rows.foldlM (pushProjected lang opts stage) start = .ok proj →
      proj.length = start.length + rows.length := by
    intro rows
    induction rows with
    | nil =>
      intro start proj h
      exact ok.inj h ▸ rfl
    | cons row rows ih =>
      intro start proj h
      rw [foldlM_cons] at h
      obtain ⟨next, hnext, h⟩ := bind_ok h
      obtain ⟨output, -, hnext⟩ := bind_ok hnext
      obtain ⟨_, -, hnext⟩ := bind_ok hnext
      rw [ih next proj h, ← ok.inj hnext, length_append, length_singleton, length_cons]
      omega
  rw [hrun rows [] proj h, length_nil, zero_add]

/-- What the probe accepts of a projection. -/
structure Plain (stage : NormalizedProjectStage O) : Prop where
  distinct : stage.distinct = false
  aggregate : stage.aggregate = none
  whereExpr : stage.whereExpr = none
  existsPredicates : stage.existsPredicates = []
  orderBy : stage.orderBy = []
  skip : stage.skip = 0

theorem plain_of_allows (h : pipelineProjectAllowsPhysicalExistsProbe ctx stage = true) : Plain stage := by
  simp only [pipelineProjectAllowsPhysicalExistsProbe, Bool.and_eq_true, Bool.not_eq_true', isNone_iff_eq_none, List.isEmpty_iff,
    decide_eq_true_eq] at h
  exact ⟨h.1.1.1.1.1.1, h.1.1.1.1.1.2, h.1.1.1.1.2, h.1.1.1.2, h.1.1.2, h.1.2⟩

/-- Such a projection gives each row a row, up to its limit, and runs no subquery. -/
theorem projectStageRows_of_plain (hpl : Plain stage) {output : List Row}
    {left : Budget} (h : projectStageRows ctx.language opts stage rows bud = .ok (output, left)) :
    left = bud ∧ output.length = (stage.limit.elim rows.length fun limit => min limit rows.length) := by
  obtain ⟨proj, hproj, h⟩ := bind_ok h
  obtain ⟨unique, huniq, h⟩ := bind_ok h
  obtain ⟨ordered, hord, h⟩ := bind_ok h
  rw [uniqueRows, hpl.distinct, if_neg Bool.false_ne_true] at huniq
  rw [orderRows, hpl.orderBy, isEmpty_nil, if_pos rfl] at hord
  rw [projectRows, hpl.aggregate] at hproj
  obtain rfl := ok.inj huniq
  obtain rfl := ok.inj hord
  split at h
  · cases h
  · obtain ⟨evaluated, heval, h⟩ := bind_ok h
    rw [evaluatePipelineExistsPredicates, hpl.existsPredicates] at heval
    obtain rfl := ok.inj heval
    obtain ⟨filtered, hfild, h⟩ := bind_ok h
    rw [keepHeld, hpl.whereExpr] at hfild
    obtain rfl := ok.inj hfild
    obtain ⟨rfl, rfl⟩ := mk.inj (ok.inj h)
    refine ⟨rfl, ?_⟩
    rw [cut, hpl.skip, drop_zero]
    cases stage.limit with
    | none => exact length_projected hproj
    | some limit =>
      dsimp only [elim_some]
      rw [length_take, length_projected hproj]

/-- A projection of the pipeline that keeps a row where there is one. -/
def KeepsRow (stage : Stage O) : Prop := ∃ project, stage = .project project ∧ Plain project ∧ project.limit ≠ some 0

variable {st st' : Flow × Budget}

theorem executeStage_project (hpl : Plain stage) (h : executeStage ctx opts st (.project stage) = .ok st') :
    st'.1.schema = stage.outputSchema ∧ st'.2 = st.2 ∧
      st'.1.rows.length = (stage.limit.elim st.1.rows.length fun limit => min limit st.1.rows.length) := by
  obtain ⟨⟨output, left⟩, hres, h⟩ := bind_ok h
  obtain ⟨rfl, hlen⟩ := projectStageRows_of_plain hpl hres
  split at h
  · rw [← ok.inj h]
    exact ⟨rfl, rfl, hlen⟩
  · obtain ⟨_, -, h⟩ := bind_ok h
    rw [← ok.inj h]
    exact ⟨rfl, rfl, hlen⟩

theorem executeStages_keeps (hkeeps : ∀ stage ∈ stgs, KeepsRow stage)
    (h : executeStages ctx opts stgs st = .ok st') : 0 < st'.1.rows.length ↔ 0 < st.1.rows.length := by
  refine foldlM_keeps (fun st' => 0 < st'.1.rows.length ↔ 0 < st.1.rows.length) (fun stage hstg before after hbef hstep => ?_) Iff.rfl h
  obtain ⟨project, rfl, hpl, hlim⟩ := hkeeps stage hstg
  rw [← hbef, (executeStage_project hpl hstep).2.2]
  cases hprj : project.limit with
  | none => rfl
  | some limit =>
    have hpos : limit ≠ 0 := fun hzero => hlim (hprj.trans (congrArg some hzero))
    dsimp only [elim_some]
    omega

end

variable {stage : NormalizedProjectStage O} {opts : ProjectOptions}

section
variable {ctx}

theorem stagesBehindCut_append {before : List (Stage O)} (hkeeps : ∀ stage ∈ before, KeepsRow stage)
    (hlim : stage.limit = some 0) (rest : List (Stage O)) :
    stagesBehindCut (before ++ .project stage :: rest) = some (stage.outputSchema, rest) := by
  induction before with
  | nil => exact if_pos hlim
  | cons fst before ih =>
    obtain ⟨project, rfl, -, hkept⟩ := hkeeps fst mem_cons_self
    rw [cons_append, stagesBehindCut, if_neg hkept]
    exact ih fun stage hstg => hkeeps stage (mem_cons_of_mem _ hstg)

/-- What the stages behind a match are like. -/
structure Probed (endsInUnion : Bool) (found : Option (MatchStage O)) (stgs : List (Stage O)) (plan : ExistsProbePlan O) : Prop where
  matchStage : plan.matchStage = found
  open_keeps : plan.alwaysFalse = false → endsInUnion = false ∧ ∀ stage ∈ stgs, KeepsRow stage
  cut : plan.alwaysFalse = true → ∃ before stage rest, stgs = before ++ .project stage :: rest ∧ (∀ kept ∈ before, KeepsRow kept) ∧
    Plain stage ∧ stage.limit = some 0

variable {plan : ExistsProbePlan O} {stgs : List (Stage O)} {endsInUnion : Bool}

theorem probed_of_noMatch {matchCount : ℕ} {found : Option (MatchStage O)}
    (hnone : ∀ stage ∈ stgs, stage.isMatch = false)
    (h : probeStages ctx matchCount endsInUnion found stgs = some plan) : Probed endsInUnion found stgs plan := by
  induction stgs with
  | nil =>
    rw [probeStages] at h
    split at h
    · cases h
    · rename_i hends
      obtain rfl := some.inj h
      exact ⟨rfl, fun _ => ⟨Bool.eq_false_iff.mpr hends, nofun⟩, nofun⟩
  | cons stage stgs ih =>
    cases stage with
    | pattern stage => cases hnone _ mem_cons_self
    | optionalMatch stage | shortestPath stage | call stage query => cases h
    | project stage =>
      rw [probeStages] at h
      split at h
      · cases h
      split at h
      · cases h
      rename_i hallows
      have hallo : pipelineProjectAllowsPhysicalExistsProbe ctx stage = true :=
        (Bool.not_eq_false _).mp fun hnot => hallows (by rw [hnot]; rfl)
      have hpl := plain_of_allows hallo
      split at h
      · rename_i hlim
        obtain rfl := some.inj h
        exact ⟨rfl, nofun, fun _ => ⟨[], stage, stgs, rfl, nofun, hpl, hlim⟩⟩
      · rename_i hlim
        have hprb := ih (fun stage hstg => hnone stage (mem_cons_of_mem _ hstg)) h
        have hkept : KeepsRow (Stage.project stage) := ⟨stage, rfl, hpl, hlim⟩
        refine ⟨hprb.matchStage, fun hopen => ?_, fun hcut => ?_⟩
        · obtain ⟨hends, hkeeps⟩ := hprb.open_keeps hopen
          exact ⟨hends, forall_mem_cons.mpr ⟨hkept, hkeeps⟩⟩
        · obtain ⟨before, cutStage, rest, rfl, hkeeps, hcutPlain, hcutLimit⟩ := hprb.cut hcut
          exact ⟨.project stage :: before, cutStage, rest, rfl, forall_mem_cons.mpr ⟨hkept, hkeeps⟩, hcutPlain, hcutLimit⟩

/-- The probe allows one match at most, which comes first. -/
theorem probed_of_plan (h : pipelineExistsProbePlan ctx endsInUnion stgs = some plan) : Probed endsInUnion none stgs plan ∨
      ∃ stage rest, stgs = .pattern stage :: rest ∧ graphRowQueryAllowsPhysicalExistsProbe stage = true ∧
        Probed endsInUnion (some stage) rest plan := by
  rw [pipelineExistsProbePlan] at h
  split at h
  · cases h
  rename_i hcnt
  have hnone : ∀ rest : List (Stage O), rest.countP Stage.isMatch = 0 → ∀ stage ∈ rest, stage.isMatch = false := by
    intro rest hrest stage hstg
    exact Bool.eq_false_iff.mpr (countP_eq_zero.mp hrest stage hstg)
  cases stgs with
  | nil => exact Or.inl (probed_of_noMatch (forall_mem_nil _) h)
  | cons fst rest =>
    cases fst with
    | pattern stage =>
      rw [probeStages] at h
      split at h
      · rename_i hallows
        refine Or.inr ⟨stage, rest, rfl, hallows, probed_of_noMatch (hnone rest ?_) h⟩
        rw [countP_cons_of_pos rfl] at hcnt
        omega
      · cases h
    | optionalMatch stage | shortestPath stage | call stage query => cases h
    | project stage =>
      by_cases hrest : rest.countP Stage.isMatch = 0
      · exact Or.inl (probed_of_noMatch (forall_mem_cons.mpr ⟨rfl, hnone rest hrest⟩) h)
      · rw [countP_cons_of_neg Bool.false_ne_true] at h hcnt
        have hone : rest.countP Stage.isMatch = 1 := by omega
        rw [hone, probeStages] at h
        cases h

theorem executeStages_append (opts : ProjectOptions) (fst snd : List (Stage O)) (st : Flow × Budget) :
    executeStages ctx opts (fst ++ snd) st = executeStages ctx opts fst st >>= executeStages ctx opts snd :=
  foldlM_append

theorem executeStages_cons (opts : ProjectOptions) (stage : Stage O) (stgs : List (Stage O)) (st : Flow × Budget) :
    executeStages ctx opts (stage :: stgs) st = executeStage ctx opts st stage >>= executeStages ctx opts stgs :=
  foldlM_cons

/-- Behind a limit of zero the stages run from no rows. -/
theorem executeStages_behindCut {before rest : List (Stage O)}
    (hpl : Plain stage) (hlim : stage.limit = some 0) {st st' : Flow × Budget}
    (h : executeStages ctx opts (before ++ .project stage :: rest) st = .ok st') :
    ∃ bud, executeStages ctx opts rest (⟨stage.outputSchema, []⟩, bud) = .ok st' := by
  rw [executeStages_append] at h
  obtain ⟨mid, -, h⟩ := bind_ok h
  rw [executeStages_cons] at h
  obtain ⟨⟨⟨sch, rows⟩, bud⟩, hcut, h⟩ := bind_ok h
  obtain ⟨rfl, -, hlen⟩ := executeStage_project hpl hcut
  rw [hlim, elim_some, zero_min, length_eq_zero_iff] at hlen
  obtain rfl : rows = [] := hlen
  exact ⟨bud, h⟩

theorem stages_of_cut
    (h : pipelineExistsProbePlan ctx endsInUnion stgs = some plan) (hcut : plan.alwaysFalse = true) :
    ∃ sch rest, stagesBehindCut stgs = some (sch, rest) ∧ ∀ opts st st', executeStages ctx opts stgs st = .ok st' →
        ∃ bud, executeStages ctx opts rest (⟨sch, []⟩, bud) = .ok st' := by
  obtain hprb | ⟨fst, behind, rfl, -, hprb⟩ := probed_of_plan h
  · obtain ⟨before, stage, rest, rfl, hkeeps, hpl, hlim⟩ := hprb.cut hcut
    exact ⟨_, _, stagesBehindCut_append hkeeps hlim rest, fun opts st st' hrun => executeStages_behindCut hpl hlim hrun⟩
  · obtain ⟨before, stage, rest, rfl, hkeeps, hpl, hlim⟩ := hprb.cut hcut
    refine ⟨_, _, stagesBehindCut_append hkeeps hlim rest, fun opts st st' hrun => ?_⟩
    rw [executeStages_cons] at hrun
    obtain ⟨mid, -, hrun⟩ := bind_ok hrun
    exact executeStages_behindCut hpl hlim hrun

end

section
variable {ctx} {shape : PipelineShape O}

theorem length_prepared {final : List Row} (h : pipelinePrepareFinalRows ctx shape rows = .ok final) : final.length = rows.length := by
  rw [pipelinePrepareFinalRows] at h
  split at h
  · cases h
  · obtain ⟨keyed, hkd, h⟩ := bind_ok h
    rw [← ok.inj h, length_map, length_insertionSort, ← (mapM_ok.mp hkd).length_eq, length_zipIdx]

/-- What an answer owes to the rows of the subquery. -/
structure Answers (rows : List Row) (missed : Prop) (left : Budget) (result : Except EvalError (Bool × Budget)) : Prop where
  answer : ∃ found left', result = .ok (found, left') ∧ Cheaper left' left ∧ (found = true ↔ rows ≠ [] ∧ ¬missed)
  missed_rows : missed → rows ≠ []

variable {initialRows rows : List Row} {bud left less : Budget} {pipe : Pipeline O}

theorem answers_rows
    (hrows : allSubqueryRows ctx pipe initialRows bud = .ok (rows, left)) (hless : Cheaper less bud) :
    Answers rows (CutTooEarly ctx pipe none) left (existsByRows ctx pipe none initialRows less) := by
  have hnot : ¬CutTooEarly ctx pipe none := fun hcut => nomatch hcut.1
  obtain ⟨left', hrun, hleft⟩ := (priced_allSubqueryRows ctx pipe initialRows).cheaper hrows hless
  refine ⟨⟨!(rows.take (min pipe.shape.pageLimit pipe.shape.maxRows)).isEmpty, left', ?_, hleft, ?_⟩, fun hcut => absurd hcut hnot⟩
  · rw [existsByRows, executePipelineSubqueryRows, hrun]
    rfl
  · have hpos : min pipe.shape.pageLimit pipe.shape.maxRows ≠ 0 := by
      have hlim := pipe.shape.limit_pos
      have hmost := pipe.shape.limit_le
      omega
    rw [Bool.not_eq_true', Bool.eq_false_iff, ne_eq, List.isEmpty_iff, take_eq_nil_iff]
    exact ⟨fun h => ⟨fun hnil => h (Or.inr hnil), hnot⟩, fun h hnil => hnil.elim hpos h.1⟩

section
variable {endsInUnion : Bool} {stgs : List (Stage O)} {plan : ExistsProbePlan O}
  (hpipe : pipe = .plain pipe.shape stgs ∨ ∃ stage brs, pipe = .union pipe.shape stgs stage brs)
  (hplan : pipelineExistsProbePlan ctx endsInUnion stgs = some plan) (hcut : plan.alwaysFalse = true)
include hpipe hplan hcut

theorem behindCut_run {initialRows : List Row}
    {left : Budget} {flow : Flow} (hrun : executePipeline ctx pipe initialRows bud = .ok (flow, left)) :
    ∃ rest, behindCut pipe = some rest ∧ ∃ budget', executePipeline ctx rest [] budget' = .ok (flow, left) := by
  obtain ⟨sch, rest, hrest, hstages⟩ := stages_of_cut hplan hcut
  obtain hpipe | ⟨stage, brs, hpipe⟩ := hpipe
  · rw [hpipe, executePipeline] at hrun
    obtain ⟨budget', hbeh⟩ := hstages _ _ _ hrun
    rw [hpipe, behindCut, hrest]
    exact ⟨_, rfl, budget', by rw [executePipeline]; exact hbeh⟩
  · rw [hpipe, executePipeline] at hrun
    obtain ⟨mid, hmid, hrun⟩ := bind_ok hrun
    obtain ⟨budget', hbeh⟩ := hstages _ _ _ hmid
    rw [hpipe, behindCut, hrest]
    exact ⟨_, rfl, budget', by rw [executePipeline, hbeh, ok_bind]; exact hrun⟩

theorem answers_cut (hrows : allSubqueryRows ctx pipe initialRows bud = .ok (rows, left)) (hless : Cheaper less bud) :
    Answers rows (CutTooEarly ctx pipe (some plan)) left (existsByRows ctx pipe (some plan) initialRows less) := by
  obtain ⟨found, always⟩ := plan
  obtain rfl : always = true := hcut
  have hleft := (priced_allSubqueryRows ctx pipe initialRows).left hrows hless
  obtain ⟨⟨flow, left'⟩, hrun, hfinl⟩ := bind_ok hrows
  obtain ⟨final, hprep, hfinl⟩ := bind_ok hfinl
  obtain ⟨rfl, rfl⟩ := mk.inj (ok.inj hfinl)
  obtain ⟨rest, hrest, budget', hbeh⟩ := behindCut_run hpipe hplan rfl hrun
  have hemp : final = [] ↔ flow.rows = [] := by rw [← length_eq_zero_iff, length_prepared hprep, length_eq_zero_iff]
  have hmis : CutTooEarly ctx pipe (some ⟨found, true⟩) ↔ final ≠ [] := by
    rw [ne_eq, hemp]
    constructor
    · rintro ⟨-, rest', hrest', budget'', flow', left'', hflow', hne⟩
      obtain rfl := some.inj (hrest'.symm.trans hrest)
      rw [(priced_executePipeline ctx rest' []).same hbeh hflow']
      exact hne
    · exact fun hne => ⟨⟨found, rfl⟩, rest, hrest, budget', flow, _, hbeh, hne⟩
  refine ⟨⟨false, less, ?_, hleft, ?_⟩, hmis.mp⟩
  · rw [existsByRows, executeExistsProbe, Bool.true_or, if_pos rfl]
    rfl
  · exact ⟨nofun, fun h => absurd (hmis.mpr h.1) h.2⟩

end

theorem executeMatchStage_length {stage : MatchStage O} (hallows : graphRowQueryAllowsPhysicalExistsProbe stage = true) {sch : Schema}
    {output : List Row} (h : executeMatchStage ctx sch stage rows = .ok output) :
    ∃ input matched, matchInput sch stage rows = .ok input ∧ matchRows ctx stage .allRows input = .ok matched ∧
      output.length = matched.length := by
  obtain ⟨input, hin', h⟩ := bind_ok h
  obtain ⟨matched, hmatc, h⟩ := bind_ok h
  obtain ⟨_, -, h⟩ := bind_ok h
  obtain ⟨filtered, hfild, h⟩ := bind_ok h
  have hwhere : stage.whereExpr = none := by
    simp only [graphRowQueryAllowsPhysicalExistsProbe, Bool.and_eq_true, isNone_iff_eq_none] at hallows
    exact hallows.1.1
  rw [filterMatched, hwhere] at hfild
  obtain rfl := ok.inj hfild
  exact ⟨input, matched, hin', hmatc, by rw [← (mapM_ok.mp h).length_eq, length_map]⟩

theorem answers_probe (hidx : sl.KeysIndexed) {plan : ExistsProbePlan O}
    (hplan : pipelineExistsProbePlan ctx false stgs = some plan) (hopen : plan.alwaysFalse = false)
    (hinit : initialRows ≠ [])
    (hrows : allSubqueryRows ctx (.plain shape stgs) initialRows bud = .ok (rows, left)) (hless : Cheaper less bud) :
    Answers rows (CutTooEarly ctx (.plain shape stgs) (some plan)) left
      (existsByRows ctx (.plain shape stgs) (some plan) initialRows less) := by
  obtain ⟨found, always⟩ := plan
  obtain rfl : always = false := hopen
  have hleft := (priced_allSubqueryRows ctx (.plain shape stgs) initialRows).left hrows hless
  have hnot : ¬CutTooEarly ctx (.plain shape stgs) (some ⟨found, false⟩) := by
    rintro ⟨⟨found', hplan'⟩, -⟩
    cases hplan'
  obtain ⟨⟨flow, left'⟩, hrun, hfinl⟩ := bind_ok hrows
  obtain ⟨final, hprep, hfinl⟩ := bind_ok hfinl
  obtain ⟨rfl, rfl⟩ := mk.inj (ok.inj hfinl)
  rw [executePipeline] at hrun
  have hlive : initialRows.isEmpty = false := Bool.eq_false_iff.mpr fun hemp => hinit (List.isEmpty_iff.mp hemp)
  suffices hprobe : ∃ answer, executeExistsProbe ctx shape.initialSchema ⟨found, false⟩ initialRows = .ok answer ∧
      (answer = true ↔ 0 < flow.rows.length) by
    obtain ⟨answer, hanswer, hiff⟩ := hprobe
    refine ⟨⟨answer, less, ?_, hleft, ?_⟩, fun hcut => absurd hcut hnot⟩
    · rw [existsByRows]
      dsimp only [Pipeline.shape]
      rw [hanswer]
      rfl
    · rw [hiff, ← length_prepared hprep, length_pos_iff]
      exact ⟨fun h => ⟨h, hnot⟩, fun h => h.1⟩
  rw [executeExistsProbe, hlive, Bool.or_false, if_neg Bool.false_ne_true]
  obtain hprb | ⟨stage, rest, rfl, hallows, hprb⟩ := probed_of_plan hplan
  · obtain rfl : found = none := hprb.matchStage
    refine ⟨true, rfl, iff_of_true rfl ?_⟩
    exact (executeStages_keeps (hprb.open_keeps rfl).2 hrun).mpr (length_pos_iff.mpr hinit)
  · obtain rfl : found = some stage := hprb.matchStage
    rw [executeStages_cons] at hrun
    obtain ⟨mid, hmid, hrun⟩ := bind_ok hrun
    obtain ⟨output, houtp, hmid⟩ := bind_ok hmid
    obtain ⟨_, -, hmid⟩ := bind_ok hmid
    obtain ⟨input, matched, hin', hmatc, hlen⟩ := executeMatchStage_length hallows houtp
    obtain ⟨fst, hfst, hsrv⟩ := servedBy_executeMatch hidx stage.plan stage.initialBoundSlots
      ⟨emptyRow stage.bindingSchema, fun _ => none⟩ input matched hmatc
    refine ⟨!fst.isEmpty, ?_, ?_⟩
    · dsimp only
      rw [hin', ok_bind, matchRows, hfst, ok_bind]
    · have hflow := executeStages_keeps (hprb.open_keeps rfl).2 hrun
      rw [hflow, ← ok.inj hmid, hlen, ← hsrv.pos_iff, Bool.not_eq_true', Bool.eq_false_iff, ne_eq, List.isEmpty_iff, length_pos_iff]

theorem unionRows_pos {stage : UnionStage} {merged : List Row} (h : unionRows stage rows = .ok merged) :
    0 < merged.length ↔ 0 < rows.length := by
  rw [unionRows] at h
  split at h
  · rw [ok.inj h]
  · obtain ⟨st, hst, h⟩ := bind_ok h
    obtain rfl : st.rows = merged := ok.inj h
    -- keys are seen as soon as there are rows
    have hrun : ∀ (rows : List Row) (start st : Unique), rows.foldlM (unionDistinctStep stage) start = .ok st →
        start.seen.length = start.rows.length → (0 < st.rows.length ↔ 0 < start.rows.length + rows.length) := by
      intro rows
      induction rows with
      | nil =>
        intro start st h _
        rw [ok.inj h, length_nil, add_zero]
      | cons row rows ih =>
        intro start st h hlen
        rw [foldlM_cons] at h
        obtain ⟨next, hnext, h⟩ := bind_ok h
        obtain ⟨key, -, hnext⟩ := bind_ok hnext
        split at hnext
        · rename_i hseen
          obtain rfl := ok.inj hnext
          have hpos := length_pos_of_mem hseen
          rw [ih _ st h hlen, length_cons]
          omega
        · split at hnext
          · cases hnext
          · have hseen : next.seen.length = next.rows.length := by
              rw [← ok.inj hnext, length_append, length_append, hlen]
              rfl
            rw [ih next st h hseen, ← ok.inj hnext, length_append, length_singleton, length_cons]
            omega
    rw [hrun rows ⟨[], []⟩ st hst rfl, length_nil, zero_add]

structure UnionAnswers (ctx : ReadContext O Q sl) (branches : Branches O) (initialRows before rows : List Row) (left : Budget)
    (result : Except EvalError (Bool × Budget)) : Prop where
  answer : ∃ found left', result = .ok (found, left') ∧ Cheaper left' left ∧ (found = true ↔ ¬NoneFound ctx initialRows branches)
  kept : before.length ≤ rows.length
  missed : SomeMisses ctx initialRows branches → 0 < rows.length
  found : ¬NoneFound ctx initialRows branches → 0 < rows.length
  from_branch : 0 < rows.length → 0 < before.length ∨ SomeMisses ctx initialRows branches ∨ ¬NoneFound ctx initialRows branches

mutual

theorem answers_exists (hidx : sl.KeysIndexed) : ∀ (pipe : Pipeline O) {initialRows rows : List Row} {bud left less : Budget},
    initialRows ≠ [] → allSubqueryRows ctx pipe initialRows bud = .ok (rows, left) → Cheaper less bud →
    Answers rows (MissesRows ctx initialRows pipe) left (executePipelineSubqueryExists ctx pipe initialRows less)
  | .plain shape stgs, initialRows, rows, bud, left, less, hinit, hrows, hless => by
    rw [MissesRows, executePipelineSubqueryExists]
    cases hplan : pipelineExistsProbePlan ctx false stgs with
    | none => exact answers_rows hrows hless
    | some plan =>
      by_cases hcut : plan.alwaysFalse = true
      · exact answers_cut (Or.inl rfl) hplan hcut hrows hless
      · exact answers_probe hidx hplan (Bool.eq_false_iff.mpr hcut) hinit hrows hless
  | .union shape [] stage brs, initialRows, rows, bud, left, less, hinit, hrows, hless => by
    obtain ⟨⟨flow, left'⟩, hrun, hfinl⟩ := bind_ok hrows
    obtain ⟨final, hprep, hfinl⟩ := bind_ok hfinl
    obtain ⟨rfl, rfl⟩ := mk.inj (ok.inj hfinl)
    rw [executePipeline] at hrun
    obtain ⟨st, hst, hrun⟩ := bind_ok hrun
    obtain rfl := ok.inj hst
    obtain ⟨⟨found, left''⟩, hbran, hrun⟩ := bind_ok hrun
    obtain ⟨merged, hmrg, hrun⟩ := bind_ok hrun
    obtain ⟨_, -, hrun⟩ := bind_ok hrun
    obtain ⟨rfl, rfl⟩ := mk.inj (ok.inj hrun)
    have hans := answers_union hidx brs hinit hbran hless
    have hpos : final ≠ [] ↔ 0 < found.length := by rw [← length_pos_iff, length_prepared hprep, unionRows_pos hmrg]
    have hlive : initialRows.isEmpty = false := Bool.eq_false_iff.mpr fun hemp => hinit (List.isEmpty_iff.mp hemp)
    rw [MissesRows, executePipelineSubqueryExists, hlive, if_neg Bool.false_ne_true]
    obtain ⟨answer, left', hres, hchea, hiff⟩ := hans.answer
    refine ⟨⟨answer, left', hres, hchea, ?_⟩, fun hmis => hpos.mpr (hans.missed hmis.1)⟩
    rw [hiff]
    constructor
    · exact fun hnone => ⟨hpos.mpr (hans.found hnone), fun hmis => hnone hmis.2⟩
    · rintro ⟨hrows, hmis⟩ hnone
      obtain hbef | hsome | hfnd := hans.from_branch (hpos.mp hrows)
      · exact lt_irrefl 0 hbef
      · exact hmis ⟨hsome, hnone⟩
      · exact hfnd hnone
  | .union shape (fst :: stgs) stage brs, initialRows, rows, bud, left, less, hinit, hrows, hless => by
    rw [MissesRows, executePipelineSubqueryExists]
    cases hplan : pipelineExistsProbePlan ctx true (fst :: stgs) with
    | none => exact answers_rows hrows hless
    | some plan =>
      by_cases hcut : plan.alwaysFalse = true
      · exact answers_cut (Or.inr ⟨stage, brs, rfl⟩) hplan hcut hrows hless
      · -- behind the stages there is a union, so that the probe gives up
        exfalso
        obtain hprb | ⟨_, _, -, -, hprb⟩ := probed_of_plan hplan
        · cases (hprb.open_keeps (Bool.eq_false_iff.mpr hcut)).1
        · cases (hprb.open_keeps (Bool.eq_false_iff.mpr hcut)).1

theorem answers_union (hidx : sl.KeysIndexed) : ∀ (brs : Branches O) {stage : UnionStage} {initialRows before rows : List Row}
    {bud left less : Budget}, initialRows ≠ [] →
    executeBranches ctx stage brs initialRows (before, bud) = .ok (rows, left) → Cheaper less bud →
    UnionAnswers ctx brs initialRows before rows left (executeUnionExists ctx brs initialRows less)
  | .nil, stage, initialRows, before, rows, bud, left, less, hinit, hrun, hless => by
    rw [executeBranches] at hrun
    obtain ⟨rfl, rfl⟩ := mk.inj (ok.inj hrun)
    refine ⟨⟨false, less, by rw [executeUnionExists], hless, ?_⟩, le_refl _, False.elim, fun hnone => absurd trivial hnone, Or.inl⟩
    exact ⟨nofun, fun hnone => absurd trivial hnone⟩
  | .cons outputMappings pipe brs, stage, initialRows, before, rows, bud, left, less, hinit, hrun, hless => by
    rw [executeBranches] at hrun
    obtain ⟨⟨flow, mid⟩, hflow, hrun⟩ := bind_ok hrun
    obtain ⟨final, hfinl, hrun⟩ := bind_ok hrun
    obtain ⟨output, houtp, hrun⟩ := bind_ok hrun
    have hbranch : allSubqueryRows ctx pipe initialRows bud = .ok (final, mid) := by rw [allSubqueryRows, hflow, ok_bind, hfinl, ok_bind]
    have hlen : output.length = final.length := by rw [← (mapM_ok.mp houtp).length_eq, length_zipIdx]
    have hpipe := answers_exists hidx pipe hinit hbranch hless
    obtain ⟨found, left', hexi, hchea, hiff⟩ := hpipe.answer
    have hrest := answers_union hidx brs hinit hrun hchea
    have hemp : HasNoRows ctx pipe initialRows ↔ final = [] := by
      constructor
      · rintro ⟨budget', left'', hnone⟩
        exact (priced_allSubqueryRows ctx pipe initialRows).same hbranch hnone
      · rintro rfl
        exact ⟨bud, mid, hbranch⟩
    have hfinal_pos : final ≠ [] → 0 < rows.length := by
      intro hne
      have hkept : (before ++ output).length ≤ rows.length := hrest.kept
      rw [length_append, hlen] at hkept
      have hpos := length_pos_iff.mpr hne
      omega
    have hnone_found : NoneFound ctx initialRows (.cons outputMappings pipe brs) ↔ ¬found = true ∧ NoneFound ctx initialRows brs := by
      rw [NoneFound, hemp, hiff, and_congr_left_iff]
      intro _
      tauto
    refine ⟨?_, ?_, ?_, ?_, ?_⟩
    · rw [executeUnionExists, hexi, ok_bind]
      by_cases hfnd : found = true
      · rw [if_pos hfnd]
        refine ⟨found, left', rfl, ?_, ?_⟩
        · exact (priced_executeBranches ctx stage brs initialRows (before ++ output)).left hrun hchea
        · exact iff_of_true hfnd fun hnone => (hnone_found.mp hnone).1 hfnd
      · rw [if_neg hfnd]
        obtain ⟨later, left'', hlat, hchea', hiff'⟩ := hrest.answer
        refine ⟨later, left'', hlat, hchea', ?_⟩
        rw [hiff', hnone_found, not_and_or, not_not]
        tauto
    · have hkept : (before ++ output).length ≤ rows.length := hrest.kept
      rw [length_append] at hkept
      omega
    · rintro (hmis | hmis)
      · exact hfinal_pos (hpipe.missed_rows hmis)
      · exact hrest.missed hmis
    · intro hnone
      rw [hnone_found, not_and_or, not_not, hiff] at hnone
      obtain ⟨hne, -⟩ | hnone := hnone
      · exact hfinal_pos hne
      · exact hrest.found hnone
    · intro hpos
      obtain hbef | hsome | hfnd := hrest.from_branch hpos
      · rw [length_append, hlen] at hbef
        by_cases hne : final = []
        · rw [hne, length_nil, add_zero] at hbef
          exact Or.inl hbef
        · by_cases hmis : MissesRows ctx initialRows pipe
          · exact Or.inr (Or.inl (Or.inl hmis))
          · exact Or.inr (Or.inr fun hnone => (hnone_found.mp hnone).1 (hiff.mpr ⟨hne, hmis⟩))
      · exact Or.inr (Or.inl (Or.inr hsome))
      · exact Or.inr (Or.inr fun hnone => hfnd (hnone_found.mp hnone).2)

end

end

section
variable {ctx}

/-- A projection of rows or of groups with a key, or a call. -/
def NoneFromNone : Stage O → Prop
  | .project stage => ∀ aggregate, stage.aggregate = some aggregate → aggregate.groupKeys ≠ []
  | .call _ _ => True
  | .pattern _ | .optionalMatch _ | .shortestPath _ => False

theorem projectRows_nil {lang : Language O Q}
    (hkd : ∀ aggregate, stage.aggregate = some aggregate → aggregate.groupKeys ≠ []) :
    projectRows lang opts stage [] = .ok [] := by
  rw [projectRows]
  cases hagg : stage.aggregate with
  | none => rfl
  | some aggregate =>
    have hkeys : aggregate.groupKeys.isEmpty = false := Bool.eq_false_iff.mpr fun hemp => hkd aggregate hagg (List.isEmpty_iff.mp hemp)
    dsimp only
    rw [executePipelineAggregateStage, foldlM_nil, hkeys, Bool.and_false]
    rfl

theorem evaluatePipelineExistsPredicates_nil {res : List Row × Budget}
    (h : evaluatePipelineExistsPredicates stage bud [] = .ok res) : res.1 = [] := by
  refine foldlM_keeps (fun st => st.1 = []) (fun pred _ st st' hst hstep => ?_) rfl h
  obtain ⟨rows, bud⟩ := st
  obtain rfl : rows = [] := hst
  obtain ⟨collected, -, hstep⟩ := bind_ok hstep
  obtain ⟨runs, -, hstep⟩ := bind_ok hstep
  obtain ⟨bound, hbd, hstep⟩ := bind_ok hstep
  rw [zip_nil_left] at hbd
  rw [← ok.inj hstep]
  exact (ok.inj hbd).symm

theorem executeStage_nil {stage : Stage O} (hnone : NoneFromNone stage) {sch : Schema}
    {st : Flow × Budget} (h : executeStage ctx opts (⟨sch, []⟩, bud) stage = .ok st) : st.1.rows = [] := by
  cases stage with
  | pattern stage | optionalMatch stage | shortestPath stage => exact hnone.elim
  | project stage =>
    obtain ⟨⟨output, left⟩, hrows, h⟩ := bind_ok h
    have houtp : output = [] := by
      obtain ⟨proj, hproj, hrows⟩ := bind_ok hrows
      obtain ⟨unique, huniq, hrows⟩ := bind_ok hrows
      obtain ⟨ordered, hord, hrows⟩ := bind_ok hrows
      rw [projectRows_nil hnone] at hproj
      obtain rfl := ok.inj hproj
      have hemp : unique = [] := by
        rw [uniqueRows] at huniq
        split at huniq
        · exact (ok.inj huniq).symm
        · exact (ok.inj huniq).symm
      subst hemp
      have hemp : ordered = [] := by
        rw [orderRows] at hord
        split at hord
        · exact (ok.inj hord).symm
        · split at hord
          · cases hord
          · exact (ok.inj hord).symm
      subst hemp
      split at hrows
      · cases hrows
      · obtain ⟨evaluated, heval, hrows⟩ := bind_ok hrows
        obtain ⟨filtered, hfild, hrows⟩ := bind_ok hrows
        have hcut : cut stage [] = [] := by
          rw [cut, drop_nil]
          cases stage.limit with
          | none => rfl
          | some limit => exact take_nil
        rw [hcut] at heval
        rw [evaluatePipelineExistsPredicates_nil heval, keepHeld] at hfild
        obtain ⟨rfl, -⟩ := mk.inj (ok.inj hrows)
        cases hwhere : stage.whereExpr with
        | none =>
          rw [hwhere] at hfild
          exact (ok.inj hfild).symm
        | some expr =>
          rw [hwhere] at hfild
          exact (ok.inj hfild).symm
    subst houtp
    split at h
    · rw [← ok.inj h]
    · obtain ⟨_, -, h⟩ := bind_ok h
      rw [← ok.inj h]
  | call stage query =>
    obtain ⟨⟨output, left⟩, hrows, h⟩ := bind_ok h
    obtain ⟨collected, -, hrows⟩ := bind_ok hrows
    obtain ⟨runs, -, hrows⟩ := bind_ok hrows
    obtain ⟨joined, hjoin, hrows⟩ := bind_ok hrows
    rw [zip_nil_left] at hjoin
    obtain ⟨rfl, -⟩ := mk.inj (ok.inj hrows)
    obtain rfl := ok.inj hjoin
    obtain ⟨_, -, h⟩ := bind_ok h
    rw [← ok.inj h]

/-- Nothing is missed behind a limit of zero where the stages do not make rows out of none. -/
theorem not_missesRows {shape : PipelineShape O}
    (hrest : ∀ sch rest, stagesBehindCut stgs = some (sch, rest) → ∀ stage ∈ rest, NoneFromNone stage) (initialRows : List Row) :
    ¬MissesRows ctx initialRows (.plain shape stgs) := by
  rw [MissesRows]
  rintro ⟨-, rest, hbeh, bud, flow, left, hrun, hrows⟩
  obtain ⟨⟨sch, behind⟩, hstages, rfl⟩ := map_eq_some_iff.mp hbeh
  rw [executePipeline] at hrun
  refine hrows ?_
  exact foldlM_keeps (fun st => st.1.rows = []) (fun stage hstg st st' hst hstep => by
    obtain ⟨⟨sch, rows⟩, bud⟩ := st
    obtain rfl : rows = [] := hst
    exact executeStage_nil (hrest _ _ hstages stage hstg) hstep) rfl hrun

end

/-- Where a subquery can be run for all its rows, asking whether it has one agrees with that exactly where no row is missed. -/
theorem exists_agrees_iff (L : Layering) (h : Accepted L.history) (ctx : ReadContext O Q L.sources) (pipe : Pipeline O)
    (initialRows : List Row) (hinitial : initialRows ≠ []) (bud : Budget) {rows : List Row} {left : Budget}
    (hrows : allSubqueryRows ctx pipe initialRows bud = .ok (rows, left)) :
    (∃ found left', executePipelineSubqueryExists ctx pipe initialRows bud = .ok (found, left') ∧ (found = true ↔ rows ≠ [])) ↔
      ¬MissesRows ctx initialRows pipe := by
  have hanswers := answers_exists (Layering.keysIndexed h.keysUnambiguous) pipe hinitial hrows ⟨rfl, Nat.le_refl _⟩
  obtain ⟨found, left', hexists, -, hiff⟩ := hanswers.answer
  constructor
  · rintro ⟨found', left'', hexists', hiff'⟩ hmissed
    obtain ⟨rfl, -⟩ := Prod.mk.inj (ok.inj (hexists'.symm.trans hexists))
    exact (hiff.mp (hiff'.mpr (hanswers.missed_rows hmissed))).2 hmissed
  · intro hmissed
    exact ⟨found, left', hexists, hiff.trans (and_iff_left hmissed)⟩

def countLanguage : Language Empty Unit where
  sameOperator operator := operator.elim
  sameQuery _ _ := true
  buildsCollection operator := operator.elim
  containsAggregate _ := false
  evaluate operator := operator.elim
  evaluate_unbound {operator} := operator.elim
  readField _ _ := .ok .null
  prepare _ _ := .error "no subqueries"
  State := ℕ
  newState _ _ := 0
  accumulate state _ := .ok (state + 1)
  finalValue state := .ok (.uint state)
  encodeKeys _ := .ok []

def emptyContext : ReadContext Empty Unit (Layering.sources ⟨[], [], []⟩) where
  policyCutoffs := none
  sources := { fullScan _ none with
    firstCandidates := (fullScan _ none).nodeCandidates
    first_covers := (fullScan _ none).node_covers }
  effectiveAtEpoch := 0
  language := countLanguage
  encodeSortAtoms _ := .ok []
  probeOperator operator := operator.elim

def someOptions : ProjectOptions where
  maxSubqueryInvocations := 10
  maxPipelineRows := 10
  maxGroups := 10
  maxSubqueryDepth := 10
  maxOrderMaterialization := 10
  maxSkip := 10

/-- `WITH 1 AS x LIMIT 0`, or another limit. -/
def oneLimited (limit : Option ℕ) : GraphProjectStage Empty Unit where
  kind := .with
  items := .items [⟨.literal (.int 1), some "x"⟩]
  distinct := false
  whereExpr := none
  orderBy := []
  skip := none
  limit := limit.map fun limit => .literal (.uint limit)

/-- `RETURN count(*) AS n`. -/
def returnCount : GraphProjectStage Empty Unit where
  kind := .return
  items := .items [⟨.aggregateCall .count false none, some "n"⟩]
  distinct := false
  whereExpr := none
  orderBy := []
  skip := none
  limit := none

def oneSchema : Schema := [⟨"x", some "x", .scalar, true⟩]

def oneStage (limit : Option ℕ) : NormalizedProjectStage Empty where
  kind := .with
  distinct := false
  inputSchema := []
  outputSchema := oneSchema
  items := [⟨"x", 0, none, some (.literal (.int 1)), none⟩]
  internalMappings := []
  distinctSlots := [0]
  aggregate := none
  whereExpr := none
  existsPredicates := []
  orderBy := []
  skip := 0
  limit := limit

def countStage : NormalizedProjectStage Empty where
  kind := .return
  distinct := false
  inputSchema := oneSchema
  outputSchema := [⟨"n", some "n", .scalar, true⟩]
  items := [⟨"n", 0, none, none, some (.binding 0)⟩]
  internalMappings := []
  distinctSlots := [0]
  aggregate := some ⟨[⟨"__gql_agg_0", some "__gql_agg_0", .scalar, true⟩], [], [⟨.count, false, none, 0⟩], [], none⟩
  whereExpr := none
  existsPredicates := []
  orderBy := []
  skip := 0
  limit := none

/-- `WITH 1 AS x LIMIT .. RETURN count(*) AS n`. -/
def countOfOne (limit : Option ℕ) : Pipeline Empty := .plain
  ⟨[], [⟨"n", some "n", .scalar, true⟩], [], false, 1, 10, someOptions, by decide, by decide⟩ [.project (oneStage limit), .project countStage]

/-- The count over no rows is a row, which the probe does not find. -/
theorem count_behind_zero_limit_missed :
    normalizePipelineProjectStage countLanguage someOptions 1 (oneLimited (some 0)) [] = .ok (oneStage (some 0)) ∧
      normalizePipelineProjectStage countLanguage someOptions 1 returnCount oneSchema = .ok countStage ∧
      allSubqueryRows emptyContext (countOfOne (some 0)) [[]] ⟨10, 0⟩ = .ok ([[.bound (.uint 0)]], ⟨10, 0⟩) ∧
      executePipelineSubqueryExists emptyContext (countOfOne (some 0)) [[]] ⟨10, 0⟩ = .ok (false, ⟨10, 0⟩) :=
  ⟨rfl, rfl, rfl, rfl⟩

theorem accepted_nothing : Accepted (Layering.history ⟨[], [], []⟩) := by
  intro past q node hprefix
  obtain ⟨rest, hrest⟩ := hprefix
  cases past <;> cases hrest

/-- With another limit it is found. -/
theorem count_behind_limit_found : ∃ found left', executePipelineSubqueryExists emptyContext (countOfOne (some 2)) [[]] ⟨10, 0⟩ =
    .ok (found, left') ∧ (found = true ↔ ([[.bound (.uint 1)]] : List Row) ≠ []) := by
  refine (exists_agrees_iff ⟨[], [], []⟩ accepted_nothing emptyContext (countOfOne (some 2)) [[]] (by decide) ⟨10, 0⟩ rfl).mpr ?_
  exact not_missesRows (fun schema rest hrest => by cases hrest) [[]]

end OverGraph.ExistsShortcuts
