import OverGraph.ProjectStages

/-!
# What a run spends

A run that invokes subqueries takes a number of invocations from its budget. What it comes to, and how much it takes, does not depend on
the budget: it is the same for every budget that has as much left.
-/

namespace OverGraph.SpentBudgets
open BindingRows SubqueryCaches PipelineExpressions ProjectStages Fallible Nat SpentBudgets Except Prod SubqueryInvocationBudget

abbrev Budget := SubqueryInvocationBudget

def Affords (bud : Budget) (cost : ℕ) : Prop := cost ≠ 0 → bud.used + cost ≤ bud.max

def charge (bud : Budget) (cost : ℕ) : Budget := { bud with used := bud.used + cost }

theorem charge_charge (bud : Budget) (fst snd : ℕ) : charge (charge bud fst) snd = charge bud (fst + snd) := by
  rw [charge, charge, charge, add_assoc]

theorem affords_zero (bud : Budget) : Affords bud 0 := fun h => absurd rfl h

theorem affords_add {bud : Budget} {fst snd : ℕ} : Affords bud (fst + snd) ↔ Affords bud fst ∧ Affords (charge bud fst) snd := by
  rw [Affords, Affords, Affords, charge]
  dsimp only
  omega

structure Cheaper (less more : Budget) : Prop where
  max_eq : less.max = more.max
  used_le : less.used ≤ more.used

variable {less more : Budget}

theorem Cheaper.affords (h : Cheaper less more) {cost : ℕ} (haffo : Affords more cost) : Affords less cost := by
  intro hcost
  have hmore := haffo hcost
  rw [h.max_eq]
  exact Nat.le_trans (Nat.add_le_add_right h.used_le cost) hmore

theorem Cheaper.charge (h : Cheaper less more) (cost : ℕ) : Cheaper (SpentBudgets.charge less cost) (SpentBudgets.charge more cost) :=
  ⟨h.max_eq, Nat.add_le_add_right h.used_le cost⟩

theorem Cheaper.of_charged (h : Cheaper less more) (cost : ℕ) : Cheaper less (SpentBudgets.charge more cost) :=
  ⟨h.max_eq, Nat.le_trans h.used_le (Nat.le_add_right _ _)⟩

section
variable {σ σ' τ τ' α ε : Type}

/-- A run, with the budget that is left in what it returns, comes to the same with any budget that affords it. -/
def Priced (put : τ → Budget → σ) (run : Budget → Except ε σ) : Prop :=
  ∀ bud res, run bud = .ok res → ∃ value cost, res = put value (charge bud cost) ∧ Affords bud cost ∧
    ∀ other, Affords other cost → run other = .ok (put value (charge other cost))

variable {put : τ → Budget → σ} {put' : τ' → Budget → σ'}

theorem priced_ok (value : τ) : Priced put fun bud => (.ok (put value bud) : Except ε σ) := by
  intro bud res h
  exact ⟨value, 0, (ok.inj h).symm, affords_zero bud, fun other _ => rfl⟩

theorem priced_error {error : Budget → ε} : Priced put fun bud => (.error (error bud) : Except ε σ) := by
  intro bud res h
  cases h

theorem Priced.bind {run : Budget → Except ε σ} (h : Priced put run) {next : σ → Except ε σ'}
    (hnext : ∀ value, Priced put' fun bud => next (put value bud)) : Priced put' fun bud => run bud >>= next := by
  intro bud res hrun
  obtain ⟨mid, hmid, hres⟩ := bind_ok hrun
  obtain ⟨value, cost, rfl, haffo, hoth⟩ := h bud mid hmid
  obtain ⟨value', cost', rfl, haffo', hoth'⟩ := hnext value (charge bud cost) res hres
  refine ⟨value', cost + cost', by rw [charge_charge], affords_add.mpr ⟨haffo, haffo'⟩, fun other hafford => ?_⟩
  obtain ⟨hfst, hsnd⟩ := affords_add.mp hafford
  dsimp only
  rw [hoth other hfst, ok_bind, ← charge_charge]
  exact hoth' _ hsnd

/-- What does not look at the budget may come first. -/
theorem priced_after {value : Except ε α} {run : α → Budget → Except ε σ} (h : ∀ a, value = .ok a → Priced put (run a)) :
    Priced put fun bud => value >>= fun a => run a bud := by
  cases value with
  | error error => exact priced_error
  | ok a => exact h a rfl

theorem priced_ite {p : Prop} [Decidable p] {run run' : Budget → Except ε σ} (h : p → Priced put run) (h' : ¬p → Priced put run') :
    Priced put fun bud => if p then run bud else run' bud := by
  by_cases hp : p
  · simp only [if_pos hp]
    exact h hp
  · simp only [if_neg hp]
    exact h' hp

theorem priced_foldlM {f : σ → α → Except ε σ} {l : List α} (hstep : ∀ a ∈ l, ∀ value, Priced put fun bud => f (put value bud) a)
    (value : τ) : Priced put fun bud => l.foldlM f (put value bud) := by
  induction l generalizing value with
  | nil => exact priced_ok value
  | cons a l ih =>
    have hcons : (fun bud => (a :: l).foldlM f (put value bud)) = fun bud => f (put value bud) a >>= fun s => l.foldlM f s :=
      funext fun bud => List.foldlM_cons
    rw [hcons]
    exact (hstep a List.mem_cons_self value).bind fun next => ih (fun b hb => hstep b (List.mem_cons_of_mem _ hb)) next

variable {run : Budget → Except ε (α × Budget)}

/-- Two budgets that are enough do not tell runs apart. -/
theorem Priced.same (h : Priced mk run) {fst snd left left' : Budget} {a b : α}
    (ha : run fst = .ok (a, left)) (hb : run snd = .ok (b, left')) : a = b := by
  obtain ⟨value, cost, hval, -, hoth⟩ := h fst _ ha
  obtain ⟨value', cost', hval', -, hoth'⟩ := h snd _ hb
  have hrun := hoth ⟨cost + cost', 0⟩ fun _ => by dsimp only; omega
  rw [hoth' ⟨cost + cost', 0⟩ fun _ => by dsimp only; omega] at hrun
  rw [(mk.inj hval).1, (mk.inj hval').1]
  exact (mk.inj (ok.inj hrun)).1.symm

/-- With less used of the budget the run takes as much, too. -/
theorem Priced.cheaper (h : Priced mk run) {bud left : Budget} {a : α}
    (ha : run bud = .ok (a, left)) {less : Budget} (hless : Cheaper less bud) : ∃ left', run less = .ok (a, left') ∧ Cheaper left' left := by
  obtain ⟨value, cost, hval, haffo, hoth⟩ := h bud _ ha
  obtain ⟨rfl, rfl⟩ := mk.inj hval
  exact ⟨_, hoth less (hless.affords haffo), hless.charge cost⟩

/-- What is left is no more than there was. -/
theorem Priced.left (h : Priced mk run) {bud left : Budget} {a : α}
    (ha : run bud = .ok (a, left)) {less : Budget} (hless : Cheaper less bud) : Cheaper less left := by
  obtain ⟨value, cost, hval, -, -⟩ := h bud _ ha
  obtain ⟨rfl, rfl⟩ := mk.inj hval
  exact hless.of_charged cost

end

theorem priced_reserve (operator : String) : Priced (fun (_ : Unit) bud => bud) fun bud => bud.reserve operator := by
  intro bud res h
  dsimp only at h
  rw [reserve] at h
  split at h
  · cases h
  · rename_i hroom
    refine ⟨(), 1, (Except.ok.inj h).symm, fun _ => Nat.lt_of_not_le hroom, fun other hoth => ?_⟩
    exact if_neg (Nat.not_le.mpr (hoth Nat.one_ne_zero))

theorem priced_spend (nested : ℕ) : Priced (fun (_ : Unit) bud => bud) fun bud => bud.spend nested := by
  intro bud res h
  dsimp only at h
  rw [spend] at h
  split at h
  · cases h
  · rename_i hroom
    refine ⟨(), nested, (ok.inj h).symm, fun hnested => ?_, fun other hoth => ?_⟩
    · exact Nat.le_of_not_lt fun hover => hroom ⟨hnested, hover⟩
    · exact if_neg fun hover => Nat.not_lt.mpr (hoth hover.1) hover.2

def putCollected (value : List Representative × List (List GraphCanonicalKey)) (bud : Budget) : Collected := ⟨value.1, value.2, bud⟩

section
variable (importSlots : List ℕ) (operator : String) (maxRepresentatives : Option ℕ)

theorem priced_collectRow (row : Row)
    (value : List Representative × List (List GraphCanonicalKey)) :
    Priced putCollected fun bud => collectRow importSlots operator maxRepresentatives (putCollected value bud) row := by
  refine priced_after fun key _ => ?_
  change Priced putCollected fun bud =>
    if (value.1.any fun rep => rep.key = key) = true then
      .ok (putCollected (value.1.map fun rep => if rep.key = key then { rep with outerCount := rep.outerCount + 1 } else rep,
        value.2 ++ [key]) bud)
    else if (maxRepresentatives.any fun most => decide (most ≤ value.1.length)) = true then
      .error (.invalid s!"graph pipeline {operator} exceeded max_subquery_invocations")
    else bud.reserve operator >>= fun left => .ok (putCollected (value.1 ++ [⟨key, row, 1⟩], value.2 ++ [key]) left)
  refine priced_ite (fun _ => priced_ok _) fun _ => priced_ite (fun _ => priced_error) fun _ => ?_
  exact (priced_reserve operator).bind fun _ => @priced_ok _ _ EvalError putCollected (value.1 ++ [⟨key, row, 1⟩], value.2 ++ [key])

theorem priced_collectRepresentatives (rows : List Row) :
    Priced putCollected fun bud => collectRepresentatives importSlots operator maxRepresentatives bud rows :=
  priced_foldlM (fun row _ value => priced_collectRow importSlots operator maxRepresentatives row value) ([], [])

end

def putExistsRuns (cache : List (List GraphCanonicalKey × Bool)) (bud : Budget) : ExistsRuns := ⟨cache, bud⟩

section
variable (subquery : ExistsSubquery) (sch : Schema) (pred : ExistsPredicate)

theorem priced_runExists (rep : Representative) (cache : List (List GraphCanonicalKey × Bool)) :
    Priced putExistsRuns fun bud => runExists subquery sch pred (putExistsRuns cache bud) rep :=
  priced_after fun run _ => (priced_spend run.nested).bind fun _ => @priced_ok _ _ EvalError putExistsRuns (cache ++ [(rep.key, run.holds)])

theorem priced_evaluateExistsPredicate (rows : List Row) :
    Priced mk fun bud => evaluateExistsPredicate subquery sch pred bud rows := by
  refine (priced_collectRepresentatives pred.imports.importSlots "EXISTS" none rows).bind fun collected => ?_
  dsimp only [putCollected]
  have hruns : Priced putExistsRuns fun bud => collected.1.foldlM (runExists subquery sch pred) ⟨[], bud⟩ :=
    priced_foldlM (fun rep _ cache => priced_runExists subquery sch pred rep cache) []
  refine hruns.bind fun cache => ?_
  dsimp only [putExistsRuns]
  exact priced_after fun bound _ => priced_ok bound

end

def putCallRuns (value : List (List GraphCanonicalKey × List Row) × ℕ × ℕ) (bud : Budget) : CallRuns := ⟨value.1, value.2.1, value.2.2, bud⟩

theorem priced_runRepresentative (subquery : Subquery) (stage : CallStage) (opts : PipelineOptions) (rep : Representative)
    (value : List (List GraphCanonicalKey × List Row) × ℕ × ℕ) :
    Priced putCallRuns fun bud => runRepresentative subquery stage opts (putCallRuns value bud) rep := by
  refine priced_after fun run _ => ?_
  dsimp only [putCallRuns]
  refine (priced_spend run.nested).bind fun _ => priced_after fun _ _ => priced_after fun _ _ => ?_
  exact @priced_ok _ _ EvalError putCallRuns (value.1 ++ [(rep.key, run.rows)], value.2.1 + run.rows.length,
    value.2.2 + run.rows.length * rep.outerCount)

def callRows (subquery : Subquery) (stage : CallStage) (opts : PipelineOptions) (rows : List Row) (bud : Budget) :
    Except EvalError (List Row × Budget) := do
  let collected ← collectRepresentatives stage.imports.importSlots "CALL" (some opts.maxSubqueryInvocations) bud rows
  let runs ← collected.representatives.foldlM (runRepresentative subquery stage opts) ⟨[], 0, 0, collected.budget⟩
  let output ← (rows.zip collected.rowKeys).foldlM (joinOuterRow stage opts runs.cache) []
  .ok (output, runs.budget)

section
variable (subquery : Subquery) (stage : CallStage) (opts : PipelineOptions) (rows : List Row)

theorem callRows_fst (bud : Budget) :
    (callRows subquery stage opts rows bud).map fst = executePipelineCallStage subquery stage opts bud rows := by
  rw [callRows, executePipelineCallStage]
  cases collectRepresentatives stage.imports.importSlots "CALL" (some opts.maxSubqueryInvocations) bud rows with
  | error error => rfl
  | ok collected =>
    rw [ok_bind, ok_bind]
    cases collected.representatives.foldlM (runRepresentative subquery stage opts) ⟨[], 0, 0, collected.budget⟩ with
    | error error => rfl
    | ok runs =>
      rw [ok_bind, ok_bind]
      cases (rows.zip collected.rowKeys).foldlM (joinOuterRow stage opts runs.cache) [] <;> rfl

theorem priced_callRows : Priced mk (callRows subquery stage opts rows) := by
  refine (priced_collectRepresentatives stage.imports.importSlots "CALL" (some opts.maxSubqueryInvocations) rows).bind fun collected => ?_
  dsimp only [putCollected]
  have hruns : Priced putCallRuns fun bud => collected.1.foldlM (runRepresentative subquery stage opts) ⟨[], 0, 0, bud⟩ :=
    priced_foldlM (fun rep _ value => priced_runRepresentative subquery stage opts rep value) ([], 0, 0)
  refine hruns.bind fun value => ?_
  dsimp only [putCallRuns]
  exact priced_after fun output _ => priced_ok output

end

variable {O Q : Type}

/-- The rows of which the filter holds, once its subqueries are run. -/
def keepHeld (lang : Language O Q) (stage : NormalizedProjectStage O) (rows : List Row) : Except EvalError (List Row) :=
  match stage.whereExpr with
  | none => .ok rows
  | some expr => rows.foldlM (filterStep lang expr) []

def projectStageRows (lang : Language O Q) (opts : ProjectOptions) (stage : NormalizedProjectStage O) (rows : List Row) (bud : Budget) :
    Except EvalError (List Row × Budget) := do
  let proj ← projectRows lang opts stage rows
  let unique ← uniqueRows opts stage proj
  let ordered ← orderRows lang opts stage unique
  if opts.maxSkip < stage.skip then
    .error (.invalid s!"graph pipeline projection SKIP {stage.skip} exceeds max_skip {opts.maxSkip}")
  else do
    let (rows, bud) ← evaluatePipelineExistsPredicates stage bud (cut stage ordered)
    let filtered ← keepHeld lang stage rows
    .ok (filtered, bud)

section
variable (lang : Language O Q) (opts : ProjectOptions) (stage : NormalizedProjectStage O) (rows : List Row)

theorem projectStageRows_fst (bud : Budget) : (projectStageRows lang opts stage rows bud).map fst = executePipelineProjectStage lang opts stage bud rows := by
  rw [projectStageRows, executePipelineProjectStage]
  cases projectRows lang opts stage rows with
  | error error => rfl
  | ok proj =>
    rw [ok_bind, ok_bind]
    cases uniqueRows opts stage proj with
    | error error => rfl
    | ok unique =>
      rw [ok_bind, ok_bind]
      cases orderRows lang opts stage unique with
      | error error => rfl
      | ok ordered =>
        rw [ok_bind, ok_bind]
        split
        · rfl
        · rw [filterRows]
          cases evaluatePipelineExistsPredicates stage bud (cut stage ordered) with
          | error error => rfl
          | ok evaluated =>
            obtain ⟨rows, left⟩ := evaluated
            rw [ok_bind, ok_bind]
            change Except.map Prod.fst (keepHeld lang stage rows >>= fun filtered => .ok (filtered, left)) = keepHeld lang stage rows
            cases keepHeld lang stage rows <;> rfl

theorem priced_projectStageRows : Priced mk (projectStageRows lang opts stage rows) := by
  refine priced_after fun proj _ => priced_after fun unique _ => priced_after fun ordered _ => ?_
  refine priced_ite (fun _ => priced_error) fun _ => ?_
  have hpred : Priced mk fun bud => evaluatePipelineExistsPredicates stage bud (cut stage ordered) :=
    priced_foldlM (fun pred _ rows => priced_evaluateExistsPredicate pred.subquery stage.outputSchema pred.predicate rows) _
  refine hpred.bind fun rows => ?_
  exact priced_after fun filtered _ => priced_ok filtered

end

end OverGraph.SpentBudgets
