import OverGraph.BindingRows

/-!
# Shared subqueries

A subquery is run for the first of the outer rows with one key, and its result serves all of them. The key of a row is that of the values
it imports, in which numbers of different types are the same if they have one numeric value.
-/

namespace OverGraph.SubqueryCaches
open BindingRows Fallible List Except Function List.Forall₂ SlotState Nat

structure Imports where
  initialSchema : Schema
  importSlots : List ℕ
  importMappings : List PipelineSlotMapping

def importAlias (inputSchema : Schema) (imports : Imports) (name : String) : Except EvalError Imports := do
  validateGraphPipelineUserAlias name "subquery import alias"
  if (slotForAlias imports.initialSchema name).isSome then
    .error (.invalid s!"GraphSubqueryStage imports alias '{name}' more than once")
  else match slotForAlias inputSchema name with
    | none => .error (.invalid s!"GraphSubqueryStage import alias '{name}' is not available in pipeline scope")
    | some source =>
      match inputSchema[source]? with
      | none => .error (.invalid s!"GraphSubqueryStage import alias '{name}' slot is missing")
      | some info => do
        let (sch, target) ← addAliasedSlot imports.initialSchema name info.kind info.nullable
        .ok ⟨sch, imports.importSlots ++ [source], imports.importMappings ++ [⟨source, target⟩]⟩

def pipelineImportSchemaAndMappings (inputSchema : Schema) (aliases : List String) : Except EvalError Imports :=
  aliases.foldlM (importAlias inputSchema) ⟨[], [], []⟩

def bridgeSlot (inputSchema outputSchema : Schema) (row output : Row) (mapping : PipelineSlotMapping) : Except EvalError Row := do
  let value ← valueForSlot row mapping.source
  match inputSchema[mapping.source]?, outputSchema[mapping.target]? with
  | some source, some target =>
    if source.kind ≠ target.kind then .error (.invalid s!"graph pipeline slot kind mismatch for alias '{source.name}'")
    else bindPipelineValueToSlot outputSchema output mapping.target value
  | _, _ => .error (.invalid "graph pipeline slot is missing")

def bridgeRow (inputSchema outputSchema : Schema) (mappings : List PipelineSlotMapping) (row : Row) : Except EvalError Row :=
  mappings.foldlM (bridgeSlot inputSchema outputSchema row) (emptyRow outputSchema)

/-- How many invocations are left, for a subquery and for those it nests. -/
structure SubqueryInvocationBudget where
  max : ℕ
  used : ℕ

def SubqueryInvocationBudget.reserve (bud : SubqueryInvocationBudget) (operator : String) : Except EvalError SubqueryInvocationBudget :=
  if bud.max ≤ bud.used then
    .error (.invalid s!"graph pipeline {operator} exceeded max_subquery_invocations {bud.max}")
  else .ok { bud with used := bud.used + 1 }

/-- What a run takes for the subqueries that it nests. -/
def SubqueryInvocationBudget.spend (bud : SubqueryInvocationBudget) (nested : ℕ) : Except EvalError SubqueryInvocationBudget :=
  if nested ≠ 0 ∧ bud.max < bud.used + nested then .error (.invalid s!"graph pipeline exceeded max_subquery_invocations {bud.max}")
  else .ok { bud with used := bud.used + nested }

structure Representative where
  key : List GraphCanonicalKey
  row : Row
  outerCount : ℕ

structure Collected where
  representatives : List Representative
  rowKeys : List (List GraphCanonicalKey)
  budget : SubqueryInvocationBudget

section
variable (importSlots : List ℕ) (operator : String) (maxRepresentatives : Option ℕ)

/-- A call limits its own invocations, too. -/
def collectRow (st : Collected) (row : Row) : Except EvalError Collected := do
  let key ← graphCanonicalKeyForRowSlots row importSlots
  if st.representatives.any fun rep => rep.key = key then
    .ok ⟨st.representatives.map fun rep => if rep.key = key then { rep with outerCount := rep.outerCount + 1 } else rep,
      st.rowKeys ++ [key], st.budget⟩
  else if maxRepresentatives.any fun most => decide (most ≤ st.representatives.length) then
    .error (.invalid s!"graph pipeline {operator} exceeded max_subquery_invocations")
  else do
    let bud ← st.budget.reserve operator
    .ok ⟨st.representatives ++ [⟨key, row, 1⟩], st.rowKeys ++ [key], bud⟩

def collectRepresentatives (bud : SubqueryInvocationBudget) (rows : List Row) : Except EvalError Collected :=
  rows.foldlM (collectRow importSlots operator maxRepresentatives) ⟨[], [], bud⟩

end

/-- The rows of a subquery and how many subqueries it ran itself. -/
structure SubqueryRun where
  rows : List Row
  nested : ℕ

abbrev Subquery := Row → Except EvalError SubqueryRun

structure CallStage where
  inputSchema : Schema
  imports : Imports
  outputSchema : Schema
  inputMappings : List PipelineSlotMapping
  outputMappings : List PipelineSlotMapping

structure PipelineOptions where
  maxSubqueryInvocations : ℕ
  maxPipelineRows : ℕ

def enforceIntermediateRows (count : ℕ) (opts : PipelineOptions) : Except EvalError Unit :=
  if opts.maxPipelineRows < count then .error (.invalid s!"graph pipeline exceeded max_pipeline_rows {opts.maxPipelineRows}")
  else .ok ()

structure CallRuns where
  cache : List (List GraphCanonicalKey × List Row)
  cachedSubqueryRows : ℕ
  projectedJoinRows : ℕ
  budget : SubqueryInvocationBudget

section
variable (subquery : Subquery) (stage : CallStage) (opts : PipelineOptions)

def callOutputRow (outer subqueryRow : Row) : Except EvalError Row := do
  let output ← bindMappings stage.outputSchema outer stage.inputMappings (emptyRow stage.outputSchema)
  bindMappings stage.outputSchema subqueryRow stage.outputMappings output

def runFor (row : Row) : Except EvalError SubqueryRun := do
  let initial ← bridgeRow stage.inputSchema stage.imports.initialSchema stage.imports.importMappings row
  subquery initial

def runRepresentative (st : CallRuns) (rep : Representative) : Except EvalError CallRuns := do
  let run ← runFor subquery stage rep.row
  let bud ← st.budget.spend run.nested
  let cachedSubqueryRows := st.cachedSubqueryRows + run.rows.length
  enforceIntermediateRows cachedSubqueryRows opts
  let projectedJoinRows := st.projectedJoinRows + run.rows.length * rep.outerCount
  enforceIntermediateRows projectedJoinRows opts
  .ok ⟨st.cache ++ [(rep.key, run.rows)], cachedSubqueryRows, projectedJoinRows, bud⟩

def joinSubqueryRow (outer : Row) (outputRows : List Row) (subqueryRow : Row) : Except EvalError (List Row) := do
  enforceIntermediateRows (outputRows.length + 1) opts
  let output ← callOutputRow stage outer subqueryRow
  .ok (outputRows ++ [output])

def joinOuterRow (cache : List (List GraphCanonicalKey × List Row)) (outputRows : List Row) (entry : Row × List GraphCanonicalKey) :
    Except EvalError (List Row) :=
  match cache.lookup entry.2 with
  | none => .error (.invalid "graph pipeline CALL cache is missing a correlation key")
  | some subqueryRows => subqueryRows.foldlM (joinSubqueryRow stage opts entry.1) outputRows

def executePipelineCallStage (bud : SubqueryInvocationBudget) (rows : List Row) : Except EvalError (List Row) := do
  let collected ← collectRepresentatives stage.imports.importSlots "CALL" (some opts.maxSubqueryInvocations) bud rows
  let runs ← collected.representatives.foldlM (runRepresentative subquery stage opts) ⟨[], 0, 0, collected.budget⟩
  (rows.zip collected.rowKeys).foldlM (joinOuterRow stage opts runs.cache) []

/-- The subquery is run for each outer row, without any limit. -/
def separateRows (row : Row) : Except EvalError (List Row) := do
  let run ← runFor subquery stage row
  run.rows.mapM (callOutputRow stage row)

def executeSeparately (rows : List Row) : Except EvalError (List Row) := do
  let outputs ← rows.mapM (separateRows subquery stage)
  .ok outputs.flatten

end

structure ExistsPredicate where
  imports : Imports
  outputSlot : ℕ

/-- Whether a subquery has a row, and how many subqueries it ran itself. -/
structure ExistsRun where
  holds : Bool
  nested : ℕ

abbrev ExistsSubquery := Row → Except EvalError ExistsRun

structure ExistsRuns where
  cache : List (List GraphCanonicalKey × Bool)
  budget : SubqueryInvocationBudget

section
variable (subquery : ExistsSubquery) (sch : Schema) (pred : ExistsPredicate)

def existsFor (row : Row) : Except EvalError ExistsRun := do
  let initial ← bridgeRow sch pred.imports.initialSchema pred.imports.importMappings row
  subquery initial

def runExists (st : ExistsRuns) (rep : Representative) : Except EvalError ExistsRuns := do
  let run ← existsFor subquery sch pred rep.row
  let bud ← st.budget.spend run.nested
  .ok ⟨st.cache ++ [(rep.key, run.holds)], bud⟩

def bindExists (cache : List (List GraphCanonicalKey × Bool)) (entry : Row × List GraphCanonicalKey) : Except EvalError Row :=
  match cache.lookup entry.2 with
  | none => .error (.invalid "graph pipeline EXISTS cache is missing a correlation key")
  | some holds => bindPipelineValueToSlot sch entry.1 pred.outputSlot (.bool holds)

def evaluateExistsPredicate (bud : SubqueryInvocationBudget) (rows : List Row) :
    Except EvalError (List Row × SubqueryInvocationBudget) := do
  let collected ← collectRepresentatives pred.imports.importSlots "EXISTS" none bud rows
  let runs ← collected.representatives.foldlM (runExists subquery sch pred) ⟨[], collected.budget⟩
  let bound ← (rows.zip collected.rowKeys).mapM (bindExists sch pred runs.cache)
  .ok (bound, runs.budget)

/-- The predicate is evaluated for each row, without any limit. -/
def existsSeparately (row : Row) : Except EvalError Row := do
  let run ← existsFor subquery sch pred row
  bindPipelineValueToSlot sch row pred.outputSlot (.bool run.holds)

end

structure ImportsOf (sch : Schema) (imports : Imports) : Prop where
  mappings : imports.importMappings = imports.importSlots.mapIdx fun target source => ⟨source, target⟩
  slots : List.Forall₂ (fun source slot => ∃ info, sch[source]? = some info ∧ slot.kind = info.kind ∧ slot.nullable = info.nullable)
    imports.importSlots imports.initialSchema

variable {sch : Schema}

theorem addAliasedSlot_ok {schema' : Schema} {name : String} {kind : SlotKind} {nullable : Bool} {slot : ℕ}
    (h : addAliasedSlot sch name kind nullable = .ok (schema', slot)) :
    schema' = sch ++ [⟨name, some name, kind, nullable⟩] ∧ slot = sch.length := by
  rw [addAliasedSlot] at h
  split at h
  · cases h
  · split at h
    · cases h
    · obtain ⟨rfl, rfl⟩ := Prod.mk.inj (ok.inj h)
      exact ⟨rfl, rfl⟩

theorem importsOf_step {imports imports' : Imports} (h : ImportsOf sch imports) {name : String}
    (hstep : importAlias sch imports name = .ok imports') : ImportsOf sch imports' := by
  obtain ⟨_, -, hstep⟩ := bind_ok hstep
  split at hstep
  · cases hstep
  split at hstep
  · cases hstep
  split at hstep
  · cases hstep
  · rename_i src _ info hinfo
    obtain ⟨⟨schema', tgt⟩, hadd, hstep⟩ := bind_ok hstep
    obtain ⟨rfl, rfl⟩ := addAliasedSlot_ok hadd
    obtain rfl := ok.inj hstep
    constructor
    · rw [h.mappings, mapIdx_concat, h.slots.length_eq]
    · exact rel_append h.slots (cons ⟨info, hinfo, rfl, rfl⟩ nil)

theorem importsOf_of_ok {aliases : List String} {imports : Imports}
    (h : pipelineImportSchemaAndMappings sch aliases = .ok imports) : ImportsOf sch imports := by
  have hrun : ∀ (names : List String) (start : Imports), ImportsOf sch start → names.foldlM (importAlias sch) start = .ok imports →
      ImportsOf sch imports := by
    intro names
    induction names with
    | nil =>
      intro start hst hfold
      exact ok.inj hfold ▸ hst
    | cons name names ih =>
      intro start hst hfold
      rw [foldlM_cons] at hfold
      obtain ⟨next, hnext, hfold⟩ := bind_ok hfold
      exact ih next (importsOf_step hst hnext) hfold
  exact hrun aliases _ ⟨rfl, nil⟩ h

theorem ImportsOf.extend {longer : Schema} {imports : Imports} (h : ImportsOf sch imports) (hext : sch <+: longer) :
    ImportsOf longer imports where
  mappings := h.mappings
  slots := h.slots.imp fun src slot hinfo => by
    obtain ⟨info, hinfo, hslot⟩ := hinfo
    obtain ⟨rest, rfl⟩ := hext
    exact ⟨info, (List.getElem?_append_left (List.getElem?_eq_some_iff.mp hinfo).1).trans hinfo, hslot⟩

/-- The imported slots are bound, or null where they may be. -/
def FitsAt (sch : Schema) (slots : List ℕ) (row : Row) : Prop :=
  ∀ slot ∈ slots, ∀ info, sch[slot]? = some info → ∃ state, row[slot]? = some state ∧ info.admits state = true

def importStates (slots : List ℕ) (row : Row) : List SlotState := slots.map fun slot => (row[slot]?).getD .unbound

def importValues (slots : List ℕ) (row : Row) : Except EvalError (List GraphEvalValue) := slots.mapM (valueForSlot row)

section
variable {sch : Schema} {imports : Imports} {row : Row}

section
variable (himp : ImportsOf sch imports) (hrow : FitsAt sch imports.importSlots row)
include himp hrow

theorem fitsAt_state {slot : ℕ}
    (hslot : slot ∈ imports.importSlots) : ∃ info state, sch[slot]? = some info ∧ row[slot]? = some state ∧ info.admits state = true := by
  obtain ⟨i, hbd, hget⟩ := mem_iff_getElem.mp hslot
  obtain ⟨info, hinfo, -⟩ := get himp.slots hbd (himp.slots.length_eq ▸ hbd)
  rw [get_eq_getElem, hget] at hinfo
  obtain ⟨state, hsta, hadm⟩ := hrow slot hslot info hinfo
  exact ⟨info, state, hinfo, hsta, hadm⟩

theorem importValues_eq :
    importValues imports.importSlots row = .ok ((importStates imports.importSlots row).map value) := by
  rw [importStates, map_map]
  refine mapM_of_forall fun slot hslot => ?_
  obtain ⟨info, state, -, hsta, hadm⟩ := fitsAt_state himp hrow hslot
  rw [valueForSlot, hsta, comp_apply, hsta]
  exact evalValue_of_admits hadm slot

end

/-- The slot that a state comes from, and the one it goes to. -/
structure Carries (sch initialSchema : Schema) (row : Row) (source target : ℕ) (info slot : Slot) (state : SlotState) : Prop where
  sourceSlot : sch[source]? = some info
  targetSlot : initialSchema[target]? = some slot
  stateAt : row[source]? = some state
  admits : info.admits state = true
  kind : slot.kind = info.kind
  nullable : slot.nullable = info.nullable

theorem bridgeSlot_eq {initialSchema : Schema} {src tgt : ℕ} {info slot : Slot} {state : SlotState}
    (h : Carries sch initialSchema row src tgt info slot state) {output : Row} (houtp : output[tgt]? = some .unbound) :
    bridgeSlot sch initialSchema row output ⟨src, tgt⟩ = .ok (output.set tgt state) := by
  have hval : valueForSlot row src = .ok state.value := by
    rw [valueForSlot, h.stateAt]
    exact evalValue_of_admits h.admits src
  rw [bridgeSlot, hval, ok_bind, h.sourceSlot, h.targetSlot]
  dsimp only
  rw [if_neg (not_not.mpr h.kind.symm)]
  exact bind_of_admits h.admits h.targetSlot h.kind h.nullable houtp

theorem bridge_run {initialSchema : Schema} (sources : List ℕ) (before : List SlotState)
    (h : ∀ i src, sources[i]? = some src → ∃ info slot state, Carries sch initialSchema row src (before.length + i) info slot state) :
    (sources.mapIdx fun i src => (⟨src, before.length + i⟩ : PipelineSlotMapping)).foldlM (bridgeSlot sch initialSchema row)
      (before ++ sources.map fun _ => .unbound) = .ok (before ++ importStates sources row) := by
  induction sources generalizing before with
  | nil => rfl
  | cons src sources ih =>
    obtain ⟨info, slot, state, hcar⟩ := h 0 src rfl
    rw [Nat.add_zero] at hcar
    have hunb : (before ++ SlotState.unbound :: sources.map fun _ => SlotState.unbound)[before.length]? = some .unbound := by
      rw [getElem?_append_right (Nat.le_refl _), Nat.sub_self]
      rfl
    have hset : (before ++ SlotState.unbound :: sources.map fun _ => SlotState.unbound).set before.length state =
        (before ++ [state]) ++ sources.map fun _ => SlotState.unbound := by
      rw [set_append_right _ _ (Nat.le_refl _), Nat.sub_self, set_cons_zero, append_assoc]
      rfl
    have hplace : ∀ i, before.length + (i + 1) = (before ++ [state]).length + i := fun i => by
      rw [length_append, length_singleton]
      omega
    have hnext := ih (before ++ [state]) fun i other hoth => hplace i ▸ h (i + 1) other hoth
    rw [mapIdx_cons, foldlM_cons, map_cons, add_zero, bridgeSlot_eq hcar hunb, ok_bind, hset]
    simp only [hplace]
    rw [hnext, importStates, importStates, map_cons, hcar.stateAt, append_assoc]
    rfl

section
variable (himp : ImportsOf sch imports) (hrow : FitsAt sch imports.importSlots row)
include himp hrow

/-- A subquery starts from the states of the imported slots. -/
theorem bridgeRow_eq :
    bridgeRow sch imports.initialSchema imports.importMappings row = .ok (importStates imports.importSlots row) := by
  have hemp : emptyRow imports.initialSchema = imports.importSlots.map fun _ => unbound := by
    rw [emptyRow, map_const', map_const', himp.slots.length_eq]
  have hrun := @bridge_run sch row imports.initialSchema imports.importSlots [] fun i src hsrc => by
    obtain ⟨hbd, rfl⟩ := List.getElem?_eq_some_iff.mp hsrc
    have hlen := himp.slots.length_eq
    obtain ⟨info, hinfo, hkind, hnull⟩ := get himp.slots hbd (hlen ▸ hbd)
    obtain ⟨state, hsta, hadm⟩ := hrow _ (getElem_mem hbd) info hinfo
    refine ⟨info, _, state, hinfo, ?_, hsta, hadm, hkind, hnull⟩
    rw [length_nil, zero_add]
    exact getElem?_eq_getElem (hlen ▸ hbd)
  rw [bridgeRow, himp.mappings, hemp]
  simp only [length_nil, zero_add, nil_append] at hrun
  exact hrun

theorem key_eq : graphCanonicalKeyForRowSlots row imports.importSlots =
      (importStates imports.importSlots row).mapM fun state => graphCanonicalKeyForValue state.value := by
  rw [graphCanonicalKeyForRowSlots, importStates, mapM_map]
  refine mapM_eq_of_forall₂ (forall₂_same.mpr fun slot hslot => ?_)
  obtain ⟨info, state, -, hsta, hadm⟩ := fitsAt_state himp hrow hslot
  rw [valueForSlot, hsta]
  dsimp only
  rw [evalValue_of_admits hadm, ok_bind, comp_apply, hsta, Option.getD_some]

end

theorem importStates_eq_iff {other : Row} (himp : ImportsOf sch imports) (hrow : FitsAt sch imports.importSlots row)
    (hoth : FitsAt sch imports.importSlots other) : importStates imports.importSlots row = importStates imports.importSlots other ↔
      importValues imports.importSlots row = importValues imports.importSlots other := by
  rw [importValues_eq himp hrow, importValues_eq himp hoth]
  constructor
  · intro h
    rw [h]
  · intro h
    have hvals := ok.inj h
    rw [importStates, importStates, map_map, map_map] at hvals
    refine map_congr_left fun slot hslot => ?_
    obtain ⟨info, state, -, hsta, hadm⟩ := fitsAt_state himp hrow hslot
    obtain ⟨info', state', -, hstate', hadmits'⟩ := fitsAt_state himp hoth hslot
    have hval := map_inj_left.mp hvals slot hslot
    rw [comp_apply, comp_apply, hsta, hstate'] at hval
    rw [hsta, hstate']
    exact eq_of_value_eq hadm hadmits' hval

end

variable {row : Row} {st : Collected}

section
variable {slots : List ℕ} {operator : String} {maxRepresentatives : Option ℕ} {start : SubqueryInvocationBudget}

/-- The representatives are the first rows of all keys that were seen. -/
structure CollectedFrom (slots : List ℕ) (start : SubqueryInvocationBudget) (seen : List Row) (st : Collected) : Prop where
  keys : List.Forall₂ (fun row key => graphCanonicalKeyForRowSlots row slots = .ok key) seen st.rowKeys
  nodup : (st.representatives.map Representative.key).Nodup
  first : ∀ rep ∈ st.representatives, ∃ before after, seen = before ++ rep.row :: after ∧
    graphCanonicalKeyForRowSlots rep.row slots = .ok rep.key ∧ ∀ row ∈ before, graphCanonicalKeyForRowSlots row slots ≠ .ok rep.key
  covered : ∀ key ∈ st.rowKeys, key ∈ st.representatives.map Representative.key
  counts : ∀ rep ∈ st.representatives, rep.outerCount = st.rowKeys.count rep.key
  budget : st.budget = { start with used := start.used + st.representatives.length }

variable {st : Collected} {seen : List Row}

theorem CollectedFrom.rowKey (h : CollectedFrom slots start seen st) {rep : Representative}
    (hrep : rep ∈ st.representatives) : rep.key ∈ st.rowKeys := by
  obtain ⟨before, after, hseen, hfst, -⟩ := h.first rep hrep
  obtain ⟨key, hmem, hkey⟩ := forall₂_mem h.keys (hseen ▸ (by simp) : rep.row ∈ seen)
  rw [hfst] at hkey
  exact ok.inj hkey ▸ hmem

theorem CollectedFrom.length_le (h : CollectedFrom slots start seen st) : st.representatives.length ≤ seen.length := by
  have hsub : (st.representatives.map Representative.key).Subperm st.rowKeys := by
    refine h.nodup.subperm fun key hkey => ?_
    obtain ⟨rep, hrep, rfl⟩ := mem_map.mp hkey
    exact h.rowKey hrep
  have hlen := hsub.length_le
  rw [length_map] at hlen
  rw [h.keys.length_eq]
  exact hlen

theorem collectedFrom_step {st' : Collected} (h : CollectedFrom slots start seen st)
    (hstep : collectRow slots operator maxRepresentatives st row = .ok st') : CollectedFrom slots start (seen ++ [row]) st' := by
  obtain ⟨key, hkey, hstep⟩ := bind_ok hstep
  have hkeys : List.Forall₂ (fun row key => graphCanonicalKeyForRowSlots row slots = .ok key) (seen ++ [row]) (st.rowKeys ++ [key]) :=
    rel_append h.keys (cons hkey nil)
  split at hstep
  · rename_i hkn
    obtain rfl := ok.inj hstep
    rw [any_eq_true] at hkn
    obtain ⟨known, hkn, hsame⟩ := hkn
    rw [decide_eq_true_eq] at hsame
    have hmap : (st.representatives.map fun rep => if rep.key = key then { rep with outerCount := rep.outerCount + 1 } else rep).map
        Representative.key = st.representatives.map Representative.key := by
      rw [map_map]
      exact map_congr_left fun rep _ => by rw [comp_apply]; split <;> rfl
    refine ⟨hkeys, hmap ▸ h.nodup, fun rep hrep => ?_, fun other hoth => ?_, fun rep hrep => ?_, ?_⟩
    · obtain ⟨old, hold, rfl⟩ := mem_map.mp hrep
      obtain ⟨before, after, hseen, hfst, hbef⟩ := h.first old hold
      refine ⟨before, after ++ [row], ?_, ?_, ?_⟩
      · rw [hseen, append_assoc]
        split <;> rfl
      · split <;> exact hfst
      · split <;> exact hbef
    · rw [hmap]
      obtain hoth | hoth := mem_append.mp hoth
      · exact h.covered other hoth
      · obtain rfl := mem_singleton.mp hoth
        exact hsame ▸ mem_map_of_mem hkn
    · obtain ⟨old, hold, rfl⟩ := mem_map.mp hrep
      rw [count_append, count_singleton]
      by_cases hold' : old.key = key
      · rw [if_pos hold', hold', ← hold', h.counts old hold]
        simp
      · rw [if_neg hold', h.counts old hold, if_neg (by simpa using Ne.symm hold')]
        rfl
    · rw [length_map]
      exact h.budget
  · rename_i hnew
    split at hstep
    · cases hstep
    obtain ⟨bud, hbdg, hstep⟩ := bind_ok hstep
    obtain rfl := ok.inj hstep
    have hfr : key ∉ st.representatives.map Representative.key := by
      intro hmem
      obtain ⟨rep, hrep, hsame⟩ := mem_map.mp hmem
      exact hnew (any_eq_true.mpr ⟨rep, hrep, decide_eq_true hsame⟩)
    refine ⟨hkeys, ?_, fun rep hrep => ?_, fun other hoth => ?_, fun rep hrep => ?_, ?_⟩
    · rw [map_append]
      refine Nodup.append h.nodup (nodup_singleton _) fun other hoth hsame => hfr ?_
      obtain rfl : other = key := mem_singleton.mp hsame
      exact hoth
    · obtain hrep | hrep := mem_append.mp hrep
      · obtain ⟨before, after, hseen, hfst, hbef⟩ := h.first rep hrep
        exact ⟨before, after ++ [row], by rw [hseen, append_assoc]; rfl, hfst, hbef⟩
      · obtain rfl := mem_singleton.mp hrep
        refine ⟨seen, [], rfl, hkey, fun other hoth hsame => ?_⟩
        obtain ⟨seenKey, hmem, hseen⟩ := forall₂_mem h.keys hoth
        rw [hsame] at hseen
        obtain rfl : key = seenKey := ok.inj hseen
        exact hfr (h.covered key hmem)
    · rw [map_append]
      obtain hoth | hoth := mem_append.mp hoth
      · exact mem_append_left _ (h.covered other hoth)
      · exact mem_append_right _ hoth
    · rw [count_append]
      obtain hrep | hrep := mem_append.mp hrep
      · have hne : rep.key ≠ key := fun hsame => hfr (hsame ▸ mem_map_of_mem hrep)
        rw [h.counts rep hrep, count_singleton, if_neg (by simpa using Ne.symm hne)]
        rfl
      · obtain rfl := mem_singleton.mp hrep
        rw [count_eq_zero.mpr fun hmem => hfr (h.covered key hmem), count_singleton_self]
    · rw [SubqueryInvocationBudget.reserve] at hbdg
      split at hbdg
      · cases hbdg
      · rw [← ok.inj hbdg, h.budget, length_append]
        rfl

theorem collectedFrom_run {rows : List Row}
    (h : collectRepresentatives slots operator maxRepresentatives start rows = .ok st) : CollectedFrom slots start rows st := by
  have hrun : ∀ (rest seen : List Row) (mid : Collected), CollectedFrom slots start seen mid →
      rest.foldlM (collectRow slots operator maxRepresentatives) mid = .ok st → CollectedFrom slots start (seen ++ rest) st := by
    intro rest
    induction rest with
    | nil =>
      intro seen mid hmid hfold
      rw [append_nil]
      exact ok.inj hfold ▸ hmid
    | cons row rest ih =>
      intro seen mid hmid hfold
      rw [foldlM_cons] at hfold
      obtain ⟨next, hnext, hfold⟩ := bind_ok hfold
      have hall := ih (seen ++ [row]) next (collectedFrom_step hmid hnext) hfold
      rwa [append_assoc] at hall
  have hnone : CollectedFrom slots start [] ⟨[], [], start⟩ := ⟨nil, nodup_nil, nofun, nofun, nofun, rfl⟩
  exact hrun rows [] _ hnone h

theorem exists_collected {rows : List Row} (hkd : ∀ row ∈ rows, ∃ key, graphCanonicalKeyForRowSlots row slots = .ok key)
    (hmost : ∀ most ∈ maxRepresentatives, rows.length ≤ most) (hbdg : start.used + rows.length ≤ start.max) :
    ∃ st, collectRepresentatives slots operator maxRepresentatives start rows = .ok st := by
  have hrun : ∀ (rest seen : List Row) (mid : Collected), CollectedFrom slots start seen mid → rows = seen ++ rest →
      ∃ st, rest.foldlM (collectRow slots operator maxRepresentatives) mid = .ok st := by
    intro rest
    induction rest with
    | nil => exact fun _ mid _ _ => ⟨mid, rfl⟩
    | cons row rest ih =>
      intro seen mid hmid hrows
      obtain ⟨key, hkey⟩ := hkd row (hrows ▸ by simp)
      have hroom : mid.representatives.length < rows.length := by
        have hle := hmid.length_le
        rw [hrows, length_append, length_cons]
        omega
      have hstep : ∃ next, collectRow slots operator maxRepresentatives mid row = .ok next := by
        rw [collectRow, hkey, ok_bind]
        split
        · exact ⟨_, rfl⟩
        · rw [if_neg, SubqueryInvocationBudget.reserve, if_neg]
          · exact ⟨_, rfl⟩
          · rw [hmid.budget]
            dsimp only
            omega
          · rw [Option.any_eq_true]
            rintro ⟨most, hmem, hfull⟩
            have hlim := hmost most hmem
            rw [decide_eq_true_eq] at hfull
            omega
      obtain ⟨next, hnext⟩ := hstep
      obtain ⟨st, hst⟩ := ih (seen ++ [row]) next (collectedFrom_step hmid hnext) (by rw [append_assoc]; exact hrows)
      exact ⟨st, by rw [foldlM_cons, hnext, ok_bind, hst]⟩
  exact hrun rows [] _ ⟨nil, nodup_nil, nofun, nofun, nofun, rfl⟩ rfl

theorem lookup_cache {β : Type} (reps : List Representative) (res : List GraphCanonicalKey → β) {key : List GraphCanonicalKey}
    (hkey : key ∈ reps.map Representative.key) : (reps.map fun rep => (rep.key, res rep.key)).lookup key = some (res key) := by
  induction reps with
  | nil => cases hkey
  | cons rep reps ih =>
    rw [map_cons, lookup_cons]
    by_cases hsame : key = rep.key
    · rw [hsame, beq_self_eq_true]
    · rw [beq_false_of_ne hsame]
      exact ih ((mem_cons.mp hkey).resolve_left hsame)

theorem cache_of_ok {σ ρ β : Type} (cache : σ → List (List GraphCanonicalKey × β)) (runRow : Row → Except EvalError ρ) (res : ρ → β)
    (default : ρ) {step : σ → Representative → Except EvalError σ} (hstep : ∀ st st' rep, step st rep = .ok st' →
      ∃ run, runRow rep.row = .ok run ∧ cache st' = cache st ++ [(rep.key, res run)]) {reps : List Representative}
    (hnd : (reps.map Representative.key).Nodup) {st st' : σ} (h : reps.foldlM step st = .ok st') :
    ∃ run : List GraphCanonicalKey → ρ, (∀ rep ∈ reps, runRow rep.row = .ok (run rep.key)) ∧
      cache st' = cache st ++ reps.map fun rep => (rep.key, res (run rep.key)) := by
  induction reps generalizing st with
  | nil => exact ⟨fun _ => default, nofun, by rw [← ok.inj h, map_nil, append_nil]⟩
  | cons rep reps ih =>
    rw [foldlM_cons] at h
    obtain ⟨mid, hmid, h⟩ := bind_ok h
    obtain ⟨hfr, hrest⟩ := nodup_cons.mp hnd
    obtain ⟨run, hruns, hcache⟩ := ih hrest h
    obtain ⟨fst, hfst, hmid⟩ := hstep st mid rep hmid
    have hoth : ∀ other ∈ reps, update run rep.key fst other.key = run other.key := by
      intro other hmem
      have hne : other.key ≠ rep.key := fun hsame => hfr (hsame ▸ mem_map_of_mem hmem)
      exact update_of_ne hne _ _
    refine ⟨update run rep.key fst, fun other hmem => ?_, ?_⟩
    · obtain rfl | hmem := mem_cons.mp hmem
      · rw [update_self, hfst]
      · rw [hoth other hmem, hruns other hmem]
    · rw [hcache, hmid, map_cons, update_self, append_assoc, singleton_append]
      exact congrArg _ (congrArg _ (map_congr_left fun other hmem => by rw [hoth other hmem]))

theorem spend_ok {bud : SubqueryInvocationBudget} {nested : ℕ} (h : bud.used + nested ≤ bud.max) :
    bud.spend nested = .ok { bud with used := bud.used + nested } := by
  rw [SubqueryInvocationBudget.spend, if_neg]
  rintro ⟨-, hover⟩
  omega

section
variable {rows : List Row} (h : CollectedFrom slots start rows st) (cost : List GraphCanonicalKey → ℕ)
include h

/-- The keys of the representatives are some of those of the rows. -/
theorem CollectedFrom.sum_le :
    (st.representatives.map fun rep => cost rep.key).sum ≤ (st.rowKeys.map cost).sum := by
  have hsub : (st.representatives.map Representative.key).Subperm st.rowKeys := by
    refine h.nodup.subperm fun key hkey => ?_
    obtain ⟨rep, hrep, rfl⟩ := mem_map.mp hkey
    exact h.rowKey hrep
  obtain ⟨kept, hperm, hsublist⟩ := hsub
  have hmap : (st.representatives.map fun rep => cost rep.key) = (st.representatives.map Representative.key).map cost := by
    rw [map_map]
    rfl
  rw [hmap, ← (hperm.map cost).sum_eq]
  exact (hsublist.map cost).sum_le_sum fun _ _ => zero_le _

/-- Each key counts as often as it occurs. -/
theorem CollectedFrom.sum_counted :
    (st.representatives.map fun rep => cost rep.key * rep.outerCount).sum = (st.rowKeys.map cost).sum := by
  have hset : (st.representatives.map Representative.key).toFinset = st.rowKeys.toFinset := by
    ext key
    rw [mem_toFinset, mem_toFinset]
    refine ⟨fun hkey => ?_, h.covered key⟩
    obtain ⟨rep, hrep, rfl⟩ := mem_map.mp hkey
    exact h.rowKey hrep
  have hmap : (st.representatives.map fun rep => cost rep.key * rep.outerCount) =
      (st.representatives.map Representative.key).map fun key => st.rowKeys.count key * cost key := by
    rw [map_map]
    refine map_congr_left fun rep hrep => ?_
    rw [comp_apply, h.counts rep hrep, mul_comm]
  rw [hmap, Finset.sum_list_map_count st.rowKeys cost, ← hset, sum_toFinset _ h.nodup]
  -- The two counts compare keys in the same way.
  refine congrArg List.sum (map_congr_left fun key _ => ?_)
  rw [smul_eq_mul]
  exact congrArg (fun beq => @List.count _ beq key st.rowKeys * cost key) (lawful_beq_subsingleton _ _)

end

end

section
variable {subquery : Subquery} {stage : CallStage} {opts : PipelineOptions}

theorem runs_of_ok {reps : List Representative} (hnd : (reps.map Representative.key).Nodup) {st st' : CallRuns}
    (h : reps.foldlM (runRepresentative subquery stage opts) st = .ok st') : ∃ run : List GraphCanonicalKey → SubqueryRun,
      (∀ rep ∈ reps, runFor subquery stage rep.row = .ok (run rep.key)) ∧
        st'.cache = st.cache ++ reps.map fun rep => (rep.key, (run rep.key).rows) := by
  refine cache_of_ok CallRuns.cache (runFor subquery stage) SubqueryRun.rows ⟨[], 0⟩ (fun mid next rep hstep => ?_) hnd h
  obtain ⟨run, hrun, hstep⟩ := bind_ok hstep
  obtain ⟨bud, -, hstep⟩ := bind_ok hstep
  obtain ⟨_, -, hstep⟩ := bind_ok hstep
  obtain ⟨_, -, hstep⟩ := bind_ok hstep
  exact ⟨run, hrun, by rw [← ok.inj hstep]⟩

theorem exists_runs {run : List GraphCanonicalKey → SubqueryRun} {reps : List Representative}
    (hruns : ∀ rep ∈ reps, runFor subquery stage rep.row = .ok (run rep.key)) {st : CallRuns}
    (hcach : st.cachedSubqueryRows + (reps.map fun rep => (run rep.key).rows.length).sum ≤ opts.maxPipelineRows)
    (hjoin : st.projectedJoinRows + (reps.map fun rep => (run rep.key).rows.length * rep.outerCount).sum ≤ opts.maxPipelineRows)
    (hbdg : st.budget.used + (reps.map fun rep => (run rep.key).nested).sum ≤ st.budget.max) :
    ∃ st', reps.foldlM (runRepresentative subquery stage opts) st = .ok st' := by
  induction reps generalizing st with
  | nil => exact ⟨st, rfl⟩
  | cons rep reps ih =>
    rw [map_cons, sum_cons] at hcach hjoin hbdg
    have hstep : runRepresentative subquery stage opts st rep = .ok ⟨st.cache ++ [(rep.key, (run rep.key).rows)],
        st.cachedSubqueryRows + (run rep.key).rows.length, st.projectedJoinRows + (run rep.key).rows.length * rep.outerCount,
        { st.budget with used := st.budget.used + (run rep.key).nested }⟩ := by
      rw [runRepresentative, hruns rep mem_cons_self, ok_bind, spend_ok (by omega), ok_bind]
      dsimp only
      rw [enforceIntermediateRows, if_neg (by omega), ok_bind, enforceIntermediateRows, if_neg (by omega), ok_bind]
    rw [foldlM_cons, hstep, ok_bind]
    refine ih (fun other hoth => hruns other (mem_cons_of_mem _ hoth)) ?_ ?_ ?_
    · dsimp only
      omega
    · dsimp only
      omega
    · dsimp only
      omega

theorem joined_of_ok {outer : Row} {subqueryRows out out' : List Row}
    (h : subqueryRows.foldlM (joinSubqueryRow stage opts outer) out = .ok out') :
    ∃ outputs, subqueryRows.mapM (callOutputRow stage outer) = .ok outputs ∧ out' = out ++ outputs := by
  induction subqueryRows generalizing out with
  | nil => exact ⟨[], rfl, by rw [← ok.inj h, append_nil]⟩
  | cons subqueryRow subqueryRows ih =>
    rw [foldlM_cons] at h
    obtain ⟨mid, hmid, h⟩ := bind_ok h
    obtain ⟨_, -, hmid⟩ := bind_ok hmid
    obtain ⟨output, houtp, hmid⟩ := bind_ok hmid
    obtain ⟨outputs, houts, rfl⟩ := ih h
    refine ⟨output :: outputs, by rw [mapM_cons, houtp, ok_bind, houts]; rfl, ?_⟩
    rw [← ok.inj hmid, append_assoc, singleton_append]

theorem exists_joined {outer : Row} {subqueryRows out outputs : List Row} (h : subqueryRows.mapM (callOutputRow stage outer) = .ok outputs)
    (hroom : out.length + outputs.length ≤ opts.maxPipelineRows) :
    subqueryRows.foldlM (joinSubqueryRow stage opts outer) out = .ok (out ++ outputs) := by
  induction subqueryRows generalizing out outputs with
  | nil =>
    obtain rfl : [] = outputs := ok.inj h
    rw [append_nil]
    rfl
  | cons subqueryRow subqueryRows ih =>
    rw [mapM_ok] at h
    cases h with
    | @cons _ output _ outputs houtp hrest =>
      rw [length_cons] at hroom
      rw [foldlM_cons, joinSubqueryRow, enforceIntermediateRows, if_neg (by omega), ok_bind, houtp, ok_bind, ok_bind,
        ih (mapM_ok.mpr hrest) (by rw [length_append, length_singleton]; omega), append_assoc, singleton_append]

section
variable {cache : List (List GraphCanonicalKey × List Row)} {entries : List (Row × List GraphCanonicalKey)}

theorem outputs_of_ok {out out' : List Row}
    (h : entries.foldlM (joinOuterRow stage opts cache) out = .ok out') : ∃ outputs, List.Forall₂ (fun entry outs =>
      ∃ subqueryRows, cache.lookup entry.2 = some subqueryRows ∧ subqueryRows.mapM (callOutputRow stage entry.1) = .ok outs) entries outputs ∧
        out' = out ++ outputs.flatten := by
  induction entries generalizing out with
  | nil => exact ⟨[], nil, by rw [← ok.inj h, flatten_nil, append_nil]⟩
  | cons entry entries ih =>
    rw [foldlM_cons] at h
    obtain ⟨mid, hmid, h⟩ := bind_ok h
    obtain ⟨outputs, houtputs, rfl⟩ := ih h
    rw [joinOuterRow] at hmid
    split at hmid
    · cases hmid
    · rename_i subqueryRows hlk
      obtain ⟨outs, houts, rfl⟩ := joined_of_ok hmid
      exact ⟨outs :: outputs, cons ⟨subqueryRows, hlk, houts⟩ houtputs, by rw [flatten_cons, append_assoc]⟩

theorem exists_outputs {outputs : List (List Row)} (h : List.Forall₂ (fun entry outs => ∃ subqueryRows, cache.lookup entry.2 = some subqueryRows ∧
      subqueryRows.mapM (callOutputRow stage entry.1) = .ok outs) entries outputs) {out : List Row}
    (hroom : out.length + outputs.flatten.length ≤ opts.maxPipelineRows) :
    entries.foldlM (joinOuterRow stage opts cache) out = .ok (out ++ outputs.flatten) := by
  induction h generalizing out with
  | nil =>
    rw [flatten_nil, append_nil]
    rfl
  | @cons entry outs entries outputs hent _ ih =>
    obtain ⟨subqueryRows, hlk, houts⟩ := hent
    rw [flatten_cons, length_append] at hroom
    rw [foldlM_cons, joinOuterRow, hlk]
    dsimp only
    rw [exists_joined houts (by omega), ok_bind, ih (by rw [length_append]; omega), flatten_cons, append_assoc]

end

end

section
variable {subquery : ExistsSubquery} {sch : Schema} {pred : ExistsPredicate}

theorem existsRuns_of_ok {reps : List Representative} (hnd : (reps.map Representative.key).Nodup) {st st' : ExistsRuns}
    (h : reps.foldlM (runExists subquery sch pred) st = .ok st') : ∃ run : List GraphCanonicalKey → ExistsRun,
      (∀ rep ∈ reps, existsFor subquery sch pred rep.row = .ok (run rep.key)) ∧
        st'.cache = st.cache ++ reps.map fun rep => (rep.key, (run rep.key).holds) := by
  refine cache_of_ok ExistsRuns.cache (existsFor subquery sch pred) ExistsRun.holds ⟨false, 0⟩ (fun mid next rep hstep => ?_) hnd h
  obtain ⟨run, hrun, hstep⟩ := bind_ok hstep
  obtain ⟨bud, -, hstep⟩ := bind_ok hstep
  exact ⟨run, hrun, by rw [← ok.inj hstep]⟩

theorem exists_existsRuns {run : List GraphCanonicalKey → ExistsRun} {reps : List Representative}
    (hruns : ∀ rep ∈ reps, existsFor subquery sch pred rep.row = .ok (run rep.key)) {st : ExistsRuns}
    (hbdg : st.budget.used + (reps.map fun rep => (run rep.key).nested).sum ≤ st.budget.max) :
    ∃ st', reps.foldlM (runExists subquery sch pred) st = .ok st' := by
  induction reps generalizing st with
  | nil => exact ⟨st, rfl⟩
  | cons rep reps ih =>
    rw [map_cons, sum_cons] at hbdg
    rw [foldlM_cons, runExists, hruns rep mem_cons_self, ok_bind, spend_ok (by omega), ok_bind, ok_bind]
    refine ih (fun other hoth => hruns other (mem_cons_of_mem _ hoth)) ?_
    dsimp only
    omega

end

structure KeysTell (slots : List ℕ) (rows : List Row) : Prop where
  keyed : ∀ row ∈ rows, ∃ key, graphCanonicalKeyForRowSlots row slots = .ok key
  told : ∀ a ∈ rows, ∀ b ∈ rows, graphCanonicalKeyForRowSlots a slots = graphCanonicalKeyForRowSlots b slots →
    importValues slots a = importValues slots b

/-- A call gives the rows of a run for each outer row, and gives them wherever the limits leave room for these runs. -/
structure CallTransparent (stage : CallStage) (rows : List Row) : Prop where
  sound : ∀ subquery opts budget out, executePipelineCallStage subquery stage opts budget rows = .ok out →
    executeSeparately subquery stage rows = .ok out
  complete : ∀ subquery opts budget out runs, executeSeparately subquery stage rows = .ok out →
    List.Forall₂ (fun row run => runFor subquery stage row = .ok run) rows runs → rows.length ≤ opts.maxSubqueryInvocations →
    budget.used + rows.length + (runs.map SubqueryRun.nested).sum ≤ budget.max → out.length ≤ opts.maxPipelineRows →
    executePipelineCallStage subquery stage opts budget rows = .ok out

structure ExistsTransparent (sch : Schema) (pred : ExistsPredicate) (rows : List Row) : Prop where
  sound : ∀ subquery budget out budget', evaluateExistsPredicate subquery sch pred budget rows = .ok (out, budget') →
    rows.mapM (existsSeparately subquery sch pred) = .ok out
  complete : ∀ subquery budget out runs, rows.mapM (existsSeparately subquery sch pred) = .ok out →
    List.Forall₂ (fun row run => existsFor subquery sch pred row = .ok run) rows runs →
    budget.used + rows.length + (runs.map ExistsRun.nested).sum ≤ budget.max →
    ∃ budget', evaluateExistsPredicate subquery sch pred budget rows = .ok (out, budget')

section
variable {slots : List ℕ} {rows : List Row} {ρ : Type} {runRow : Row → Except EvalError ρ}

theorem exists_run_of_key (hsame : ∀ a ∈ rows, ∀ b ∈ rows, graphCanonicalKeyForRowSlots a slots = graphCanonicalKeyForRowSlots b slots →
      runRow a = runRow b) (default : ρ) {runs : List ρ} (hruns : List.Forall₂ (fun row run => runRow row = .ok run) rows runs) :
    ∃ run : List GraphCanonicalKey → ρ, ∀ row ∈ rows, ∀ key, graphCanonicalKeyForRowSlots row slots = .ok key → runRow row = .ok (run key) := by
  have hkey : ∀ key, ∃ run, ∀ row ∈ rows, graphCanonicalKeyForRowSlots row slots = .ok key → runRow row = .ok run := by
    intro key
    by_cases hsome : ∃ row ∈ rows, graphCanonicalKeyForRowSlots row slots = .ok key
    · obtain ⟨fst, hfst, hkey⟩ := hsome
      obtain ⟨run, -, hrun⟩ := forall₂_mem hruns hfst
      exact ⟨run, fun row hrow hrowKey => (hsame row hrow fst hfst (hrowKey.trans hkey.symm)).trans hrun⟩
    · exact ⟨default, fun row hrow hrowKey => absurd ⟨row, hrow, hrowKey⟩ hsome⟩
  choose run hrun using hkey
  exact ⟨run, fun row hrow key => hrun key row hrow⟩

variable {start : SubqueryInvocationBudget}

theorem CollectedFrom.row_mem (h : CollectedFrom slots start rows st) {rep : Representative}
    (hrep : rep ∈ st.representatives) : rep.row ∈ rows ∧ graphCanonicalKeyForRowSlots rep.row slots = .ok rep.key := by
  obtain ⟨before, after, hrows, hkey, -⟩ := h.first rep hrep
  exact ⟨hrows ▸ by simp, hkey⟩

/-- Where a key stands for several imports, some row is not run for its own. -/
theorem exists_unserved (hkd : ∀ row ∈ rows, ∃ key, graphCanonicalKeyForRowSlots row slots = .ok key) {a b : Row} (ha : a ∈ rows) (hb : b ∈ rows)
    (hkeys : graphCanonicalKeyForRowSlots a slots = graphCanonicalKeyForRowSlots b slots)
    (hvals : importStates slots a ≠ importStates slots b) (hstas : ∀ fst ∈ rows, ∀ snd ∈ rows,
      importStates slots fst = importStates slots snd → graphCanonicalKeyForRowSlots fst slots = graphCanonicalKeyForRowSlots snd slots) (h : CollectedFrom slots start rows st) :
    ∃ row ∈ rows, ∀ rep ∈ st.representatives, importStates slots rep.row ≠ importStates slots row := by
  obtain ⟨key, hkey⟩ := hkd a ha
  -- All representatives with the states of a row have its key, and there is only one of them.
  have hone : ∀ row ∈ rows, graphCanonicalKeyForRowSlots row slots = .ok key → ∀ rep ∈ st.representatives,
      importStates slots rep.row = importStates slots row → rep.key = key := by
    intro row hrow hrowKey rep hrep hsame
    obtain ⟨hmem, hrepKey⟩ := h.row_mem hrep
    have hkeys := hstas rep.row hmem row hrow hsame
    rw [hrepKey, hrowKey] at hkeys
    exact ok.inj hkeys
  by_contra hserved
  push Not at hserved
  obtain ⟨fst, hfst, hsameFirst⟩ := hserved a ha
  obtain ⟨snd, hsnd, hsameSecond⟩ := hserved b hb
  have hkeyFirst := hone a ha hkey fst hfst hsameFirst
  have hkeySecond := hone b hb (hkeys.symm.trans hkey) snd hsnd hsameSecond
  have heq : fst = snd := inj_on_of_nodup_map h.nodup hfst hsnd (hkeyFirst.trans hkeySecond.symm)
  exact hvals (hsameFirst.symm.trans (heq ▸ hsameSecond))

end

section
variable {sch : Schema} {imports : Imports} {rows : List Row}

theorem keys_of_states (himp : ImportsOf sch imports) (hrows : ∀ row ∈ rows, FitsAt sch imports.importSlots row) :
    ∀ fst ∈ rows, ∀ snd ∈ rows, importStates imports.importSlots fst = importStates imports.importSlots snd →
      graphCanonicalKeyForRowSlots fst imports.importSlots = graphCanonicalKeyForRowSlots snd imports.importSlots := by
  intro fst hfst snd hsnd hsame
  rw [key_eq himp (hrows fst hfst), key_eq himp (hrows snd hsnd), hsame]

theorem KeysTell.states (h : KeysTell imports.importSlots rows) (himp : ImportsOf sch imports)
    (hrows : ∀ row ∈ rows, FitsAt sch imports.importSlots row) {a b : Row} (ha : a ∈ rows) (hb : b ∈ rows)
    (hkeys : graphCanonicalKeyForRowSlots a imports.importSlots = graphCanonicalKeyForRowSlots b imports.importSlots) :
    importStates imports.importSlots a = importStates imports.importSlots b :=
  (importStates_eq_iff himp (hrows a ha) (hrows b hb)).mpr (h.told a ha b hb hkeys)

end

section
variable {stage : CallStage} {rows : List Row}

theorem runFor_eq (himp : ImportsOf stage.inputSchema stage.imports)
    (hrow : FitsAt stage.inputSchema stage.imports.importSlots row) (subquery : Subquery) :
    runFor subquery stage row = subquery (importStates stage.imports.importSlots row) := by
  rw [runFor, bridgeRow_eq himp hrow, ok_bind]

theorem callTransparent_of_keysTell (himp : ImportsOf stage.inputSchema stage.imports)
    (hrows : ∀ row ∈ rows, FitsAt stage.inputSchema stage.imports.importSlots row) (h : KeysTell stage.imports.importSlots rows) :
    CallTransparent stage rows := by
  have hsame : ∀ subquery, ∀ a ∈ rows, ∀ b ∈ rows, graphCanonicalKeyForRowSlots a stage.imports.importSlots =
      graphCanonicalKeyForRowSlots b stage.imports.importSlots → runFor subquery stage a = runFor subquery stage b := by
    intro subquery a ha b hb hkeys
    rw [runFor_eq himp (hrows a ha), runFor_eq himp (hrows b hb), h.states himp hrows ha hb hkeys]
  constructor
  · intro subquery opts bud out hout
    obtain ⟨st, hst, hout⟩ := bind_ok hout
    obtain ⟨runs, hfold, hout⟩ := bind_ok hout
    have hcoll := collectedFrom_run hst
    obtain ⟨run, hruns, hcache⟩ := runs_of_ok hcoll.nodup hfold
    obtain ⟨outputs, houtputs, rfl⟩ := outputs_of_ok hout
    have hrowsRun : List.Forall₂ (fun row outs => separateRows subquery stage row = .ok outs) rows outputs := by
      refine forall₂_of_zip hcoll.keys houtputs fun row hrow key hkeyMem outs hkey hent => ?_
      obtain ⟨subqueryRows, hlk, houts⟩ := hent
      obtain ⟨rep, hrep, rfl⟩ := mem_map.mp (hcoll.covered key hkeyMem)
      obtain ⟨hrepMem, hrepKey⟩ := hcoll.row_mem hrep
      rw [hcache, nil_append, lookup_cache _ (fun key => (run key).rows) (mem_map_of_mem hrep)] at hlk
      rw [separateRows, hsame subquery row hrow rep.row hrepMem (hkey.trans hrepKey.symm), hruns rep hrep, ok_bind,
        Option.some.inj hlk, houts]
    rw [executeSeparately, mapM_ok.mpr hrowsRun, ok_bind, nil_append]
  · intro subquery opts bud out runs hout hruns hmost hbdg hroom
    obtain ⟨outputs, houtputs, hout⟩ := bind_ok hout
    obtain rfl := ok.inj hout
    obtain ⟨run, hrun⟩ := exists_run_of_key (hsame subquery) ⟨[], 0⟩ hruns
    obtain ⟨st, hst⟩ := @exists_collected stage.imports.importSlots "CALL" (some opts.maxSubqueryInvocations) bud rows h.keyed
      (fun most hmem => Option.some.inj hmem ▸ hmost) (by omega)
    have hcoll := collectedFrom_run hst
    have hnested : runs.map SubqueryRun.nested = st.rowKeys.map fun key => (run key).nested := by
      refine map_eq_of_forall₂ hcoll.keys hruns fun row hrow key own hkey hown => ?_
      rw [hrun row hrow key hkey] at hown
      rw [ok.inj hown]
    have hent : ∀ row ∈ rows, ∀ key outs, graphCanonicalKeyForRowSlots row stage.imports.importSlots = .ok key →
        separateRows subquery stage row = .ok outs → (run key).rows.mapM (callOutputRow stage row) = .ok outs := by
      intro row hrow key outs hkey houts
      rwa [separateRows, hrun row hrow key hkey, ok_bind] at houts
    have hlens : outputs.map List.length = st.rowKeys.map fun key => (run key).rows.length := by
      refine map_eq_of_forall₂ hcoll.keys (mapM_ok.mp houtputs) fun row hrow key outs hkey houts => ?_
      exact (mapM_ok.mp (hent row hrow key outs hkey houts)).length_eq.symm
    rw [length_flatten, hlens] at hroom
    rw [hnested] at hbdg
    have hreps := hcoll.length_le
    have hcost := hcoll.sum_le fun key => (run key).nested
    have hcach := hcoll.sum_le fun key => (run key).rows.length
    have hjoined := hcoll.sum_counted fun key => (run key).rows.length
    obtain ⟨final, hfold⟩ := @exists_runs subquery stage opts run st.representatives (fun rep hrep => by
        obtain ⟨hmem, hkey⟩ := hcoll.row_mem hrep
        exact hrun rep.row hmem rep.key hkey) ⟨[], 0, 0, st.budget⟩ (by dsimp only; omega) (by dsimp only; omega)
      (by rw [hcoll.budget]; dsimp only; omega)
    obtain ⟨run', hruns', hcache⟩ := runs_of_ok hcoll.nodup hfold
    have houtp' : List.Forall₂ (fun (entry : Row × List GraphCanonicalKey) outs => ∃ subqueryRows,
        final.cache.lookup entry.2 = some subqueryRows ∧ subqueryRows.mapM (callOutputRow stage entry.1) = .ok outs)
        (rows.zip st.rowKeys) outputs := by
      refine forall₂_zip hcoll.keys (mapM_ok.mp houtputs) fun row hrow key hkeyMem outs hkey houts => ?_
      obtain ⟨rep, hrep, rfl⟩ := mem_map.mp (hcoll.covered key hkeyMem)
      obtain ⟨hmem, hrepKey⟩ := hcoll.row_mem hrep
      have hrunSame : run' rep.key = run rep.key := by
        have hown := hruns' rep hrep
        rw [hrun rep.row hmem rep.key hrepKey] at hown
        exact (ok.inj hown).symm
      refine ⟨(run' rep.key).rows, ?_, ?_⟩
      · rw [hcache, nil_append]
        exact lookup_cache _ (fun key => (run' key).rows) (mem_map_of_mem hrep)
      · rw [hrunSame]
        exact hent row hrow rep.key outs hkey houts
    have hjoin := @exists_outputs stage opts final.cache (rows.zip st.rowKeys) outputs houtp' []
      (by rw [length_nil, zero_add, length_flatten, hlens]; exact hroom)
    rw [executePipelineCallStage, hst, ok_bind, hfold, ok_bind, hjoin, nil_append]

/-- A subquery without rows, except that it fails from the given states. -/
noncomputable def failsFrom (states : Option Row) : Subquery := fun row => by
  classical exact if states = some row then .error (.invalid "") else .ok ⟨[], 0⟩

theorem keysTell_of_callTransparent (himp : ImportsOf stage.inputSchema stage.imports)
    (hrows : ∀ row ∈ rows, FitsAt stage.inputSchema stage.imports.importSlots row) (h : CallTransparent stage rows) :
    KeysTell stage.imports.importSlots rows := by
  have hemp : ∀ row ∈ rows, runFor (failsFrom none) stage row = .ok ⟨[], 0⟩ := fun row hrow => by
    rw [runFor_eq himp (hrows row hrow), failsFrom, if_neg nofun]
  have hnone : ∀ items : List Row, (items.map fun _ => ([] : List Row)).flatten = [] := fun items =>
    flatten_eq_nil_iff.mpr fun outs houts => by
      obtain ⟨_, -, rfl⟩ := mem_map.mp houts
      rfl
  have hsep : executeSeparately (failsFrom none) stage rows = .ok [] := by
    rw [executeSeparately, mapM_of_forall (g := fun _ => []) fun row hrow => by rw [separateRows, hemp row hrow, ok_bind]; rfl,
      ok_bind, hnone]
  obtain ⟨st, hst, -⟩ := bind_ok (h.complete (failsFrom none) ⟨rows.length, 0⟩ ⟨rows.length, 0⟩ [] (rows.map fun _ => ⟨[], 0⟩) hsep
    (forall₂_map_right_iff.mpr (forall₂_same.mpr hemp)) le_rfl (by simp) (zero_le _))
  have hcoll := collectedFrom_run hst
  have hkd : ∀ row ∈ rows, ∃ key, graphCanonicalKeyForRowSlots row stage.imports.importSlots = .ok key := fun row hrow => by
    obtain ⟨key, -, hkey⟩ := forall₂_mem hcoll.keys hrow
    exact ⟨key, hkey⟩
  refine ⟨hkd, fun a ha b hb hkeys => ?_⟩
  by_contra hvals
  rw [← importStates_eq_iff himp (hrows a ha) (hrows b hb)] at hvals
  obtain ⟨row, hrow, hunse⟩ := exists_unserved hkd ha hb hkeys hvals (keys_of_states himp hrows) hcoll
  -- A subquery that fails for the row that no representative stands for.
  have hreps : ∀ rep ∈ st.representatives, runFor (failsFrom (some (importStates stage.imports.importSlots row))) stage rep.row =
      .ok ⟨[], 0⟩ := by
    intro rep hrep
    rw [runFor_eq himp (hrows rep.row (hcoll.row_mem hrep).1), failsFrom, if_neg fun heq => hunse rep hrep (Option.some.inj heq).symm]
  obtain ⟨final, hfold⟩ := @exists_runs _ stage ⟨rows.length, 0⟩ (fun _ => ⟨[], 0⟩) st.representatives hreps ⟨[], 0, 0, st.budget⟩
    (by simp) (by simp) (by
      have hlen := hcoll.length_le
      rw [hcoll.budget]
      simpa using hlen)
  obtain ⟨run, hruns, hcache⟩ := runs_of_ok hcoll.nodup hfold
  have houtputs : List.Forall₂ (fun (entry : Row × List GraphCanonicalKey) outs => ∃ subqueryRows,
      final.cache.lookup entry.2 = some subqueryRows ∧ subqueryRows.mapM (callOutputRow stage entry.1) = .ok outs)
      (rows.zip st.rowKeys) (rows.map fun _ => []) := by
    refine forall₂_zip hcoll.keys (forall₂_map_right_iff.mpr (forall₂_same.mpr fun _ _ => rfl) :
      List.Forall₂ (fun _ outs => outs = []) rows (rows.map fun _ => [])) fun other hoth key hkeyMem outs hkey houts => ?_
    obtain ⟨rep, hrep, rfl⟩ := mem_map.mp (hcoll.covered key hkeyMem)
    subst houts
    refine ⟨[], ?_, rfl⟩
    rw [hcache, nil_append, lookup_cache _ (fun key => (run key).rows) (mem_map_of_mem hrep)]
    have hown := hruns rep hrep
    rw [hreps rep hrep] at hown
    rw [← ok.inj hown]
  have hshared : executePipelineCallStage (failsFrom (some (importStates stage.imports.importSlots row))) stage ⟨rows.length, 0⟩
      ⟨rows.length, 0⟩ rows = .ok [] := by
    have hjoin := @exists_outputs stage ⟨rows.length, 0⟩ final.cache (rows.zip st.rowKeys) _ houtputs [] (by simp)
    rw [executePipelineCallStage, hst, ok_bind, hfold, ok_bind, hjoin, hnone, append_nil]
  obtain ⟨outputs, hall, -⟩ := bind_ok (h.sound _ _ _ _ hshared)
  obtain ⟨outs, -, houts⟩ := forall₂_mem (mapM_ok.mp hall) hrow
  obtain ⟨run, hrun, -⟩ := bind_ok houts
  rw [runFor_eq himp (hrows row hrow), failsFrom, if_pos rfl] at hrun
  cases hrun

end

section
variable {sch : Schema} {pred : ExistsPredicate} {rows : List Row}

theorem existsFor_eq (himp : ImportsOf sch pred.imports) (hrow : FitsAt sch pred.imports.importSlots row)
    (subquery : ExistsSubquery) : existsFor subquery sch pred row = subquery (importStates pred.imports.importSlots row) := by
  rw [existsFor, bridgeRow_eq himp hrow, ok_bind]

theorem existsTransparent_of_keysTell (himp : ImportsOf sch pred.imports)
    (hrows : ∀ row ∈ rows, FitsAt sch pred.imports.importSlots row) (h : KeysTell pred.imports.importSlots rows) :
    ExistsTransparent sch pred rows := by
  have hsame : ∀ subquery, ∀ a ∈ rows, ∀ b ∈ rows, graphCanonicalKeyForRowSlots a pred.imports.importSlots =
      graphCanonicalKeyForRowSlots b pred.imports.importSlots →
      existsFor subquery sch pred a = existsFor subquery sch pred b := by
    intro subquery a ha b hb hkeys
    rw [existsFor_eq himp (hrows a ha), existsFor_eq himp (hrows b hb), h.states himp hrows ha hb hkeys]
  constructor
  · intro subquery bud out budget' hout
    obtain ⟨st, hst, hout⟩ := bind_ok hout
    obtain ⟨runs, hfold, hout⟩ := bind_ok hout
    obtain ⟨bound, hbd, hout⟩ := bind_ok hout
    obtain ⟨rfl, -⟩ := Prod.mk.inj (ok.inj hout)
    have hcoll := collectedFrom_run hst
    obtain ⟨run, hruns, hcache⟩ := existsRuns_of_ok hcoll.nodup hfold
    refine mapM_ok.mpr (forall₂_of_zip hcoll.keys (mapM_ok.mp hbd) fun row hrow key hkeyMem out hkey hent => ?_)
    obtain ⟨rep, hrep, rfl⟩ := mem_map.mp (hcoll.covered key hkeyMem)
    obtain ⟨hrepMem, hrepKey⟩ := hcoll.row_mem hrep
    rw [bindExists, hcache, nil_append, lookup_cache _ (fun key => (run key).holds) (mem_map_of_mem hrep)] at hent
    rw [existsSeparately, hsame subquery row hrow rep.row hrepMem (hkey.trans hrepKey.symm), hruns rep hrep, ok_bind]
    exact hent
  · intro subquery bud out runs hout hruns hbdg
    obtain ⟨run, hrun⟩ := exists_run_of_key (hsame subquery) ⟨false, 0⟩ hruns
    obtain ⟨st, hst⟩ := @exists_collected pred.imports.importSlots "EXISTS" none bud rows h.keyed nofun (by omega)
    have hcoll := collectedFrom_run hst
    have hnested : runs.map ExistsRun.nested = st.rowKeys.map fun key => (run key).nested := by
      refine map_eq_of_forall₂ hcoll.keys hruns fun row hrow key own hkey hown => ?_
      rw [hrun row hrow key hkey] at hown
      rw [ok.inj hown]
    rw [hnested] at hbdg
    have hreps := hcoll.length_le
    have hcost := hcoll.sum_le fun key => (run key).nested
    have hrepRuns : ∀ rep ∈ st.representatives, existsFor subquery sch pred rep.row = .ok (run rep.key) := fun rep hrep => by
      obtain ⟨hmem, hkey⟩ := hcoll.row_mem hrep
      exact hrun rep.row hmem rep.key hkey
    obtain ⟨final, hfold⟩ := @exists_existsRuns subquery sch pred run st.representatives hrepRuns ⟨[], st.budget⟩
      (by rw [hcoll.budget]; dsimp only; omega)
    obtain ⟨run', hruns', hcache⟩ := existsRuns_of_ok hcoll.nodup hfold
    refine ⟨final.budget, ?_⟩
    have hbd : (rows.zip st.rowKeys).mapM (bindExists sch pred final.cache) = .ok out := by
      refine mapM_ok.mpr (forall₂_zip hcoll.keys (mapM_ok.mp hout) fun row hrow key hkeyMem bound hkey hown => ?_)
      obtain ⟨rep, hrep, rfl⟩ := mem_map.mp (hcoll.covered key hkeyMem)
      have hrunSame : run' rep.key = run rep.key := by
        have hown := hruns' rep hrep
        rw [hrepRuns rep hrep] at hown
        exact (ok.inj hown).symm
      rw [existsSeparately, hrun row hrow rep.key hkey, ok_bind] at hown
      rw [bindExists, hcache, nil_append, lookup_cache _ (fun key => (run' key).holds) (mem_map_of_mem hrep)]
      dsimp only
      rw [hrunSame]
      exact hown
    rw [evaluateExistsPredicate, hst, ok_bind, hfold, ok_bind, hbd, ok_bind]

/-- A subquery without rows, except that it fails from the given states. -/
noncomputable def existsFailsFrom (states : Option Row) : ExistsSubquery := fun row => do
  let _ ← failsFrom states row
  .ok ⟨false, 0⟩

/-- The slot of the result is not yet bound and holds any value. -/
structure ResultSlot (sch : Schema) (slot : ℕ) (rows : List Row) : Prop where
  scalar : ∃ info, sch[slot]? = some info ∧ info.kind = .scalar
  unbound : ∀ row ∈ rows, row[slot]? = some .unbound

theorem ResultSlot.bind {slot : ℕ} (h : ResultSlot sch slot rows) (hrow : row ∈ rows) (holds : Bool) :
    bindPipelineValueToSlot sch row slot (.bool holds) = .ok (row.set slot (.bound (.bool holds))) := by
  obtain ⟨info, hinfo, hsca⟩ := h.scalar
  rw [bindPipelineValueToSlot, hinfo, h.unbound row hrow]
  simp [GraphEvalValue.isNull, hsca, SlotKind.holds]

theorem keysTell_of_existsTransparent (himp : ImportsOf sch pred.imports)
    (hrows : ∀ row ∈ rows, FitsAt sch pred.imports.importSlots row) (hslot : ResultSlot sch pred.outputSlot rows)
    (h : ExistsTransparent sch pred rows) : KeysTell pred.imports.importSlots rows := by
  have hemp : ∀ row ∈ rows, existsFor (existsFailsFrom none) sch pred row = .ok ⟨false, 0⟩ := fun row hrow => by
    rw [existsFor_eq himp (hrows row hrow), existsFailsFrom, failsFrom, if_neg nofun, ok_bind]
  have hsep : rows.mapM (existsSeparately (existsFailsFrom none) sch pred) =
      .ok (rows.map fun row => row.set pred.outputSlot (.bound (.bool false))) := by
    refine mapM_of_forall fun row hrow => ?_
    rw [existsSeparately, hemp row hrow, ok_bind]
    exact hslot.bind hrow false
  obtain ⟨budget', hall⟩ := h.complete (existsFailsFrom none) ⟨rows.length, 0⟩ _ (rows.map fun _ => ⟨false, 0⟩) hsep
    (forall₂_map_right_iff.mpr (forall₂_same.mpr hemp)) (by simp)
  obtain ⟨st, hst, -⟩ := bind_ok hall
  have hcoll := collectedFrom_run hst
  have hkd : ∀ row ∈ rows, ∃ key, graphCanonicalKeyForRowSlots row pred.imports.importSlots = .ok key := fun row hrow => by
    obtain ⟨key, -, hkey⟩ := forall₂_mem hcoll.keys hrow
    exact ⟨key, hkey⟩
  refine ⟨hkd, fun a ha b hb hkeys => ?_⟩
  by_contra hvals
  rw [← importStates_eq_iff himp (hrows a ha) (hrows b hb)] at hvals
  obtain ⟨row, hrow, hunse⟩ := exists_unserved hkd ha hb hkeys hvals (keys_of_states himp hrows) hcoll
  -- A subquery that fails for the row that no representative stands for.
  have hreps : ∀ rep ∈ st.representatives,
      existsFor (existsFailsFrom (some (importStates pred.imports.importSlots row))) sch pred rep.row = .ok ⟨false, 0⟩ := by
    intro rep hrep
    rw [existsFor_eq himp (hrows rep.row (hcoll.row_mem hrep).1), existsFailsFrom, failsFrom,
      if_neg fun heq => hunse rep hrep (Option.some.inj heq).symm, ok_bind]
  obtain ⟨final, hfold⟩ := @exists_existsRuns _ sch pred (fun _ => ⟨false, 0⟩) st.representatives hreps ⟨[], st.budget⟩ (by
      have hlen := hcoll.length_le
      rw [hcoll.budget]
      simpa using hlen)
  obtain ⟨run, hruns, hcache⟩ := existsRuns_of_ok hcoll.nodup hfold
  have hbd : ∃ out, (rows.zip st.rowKeys).mapM (bindExists sch pred final.cache) = .ok out := by
    refine ⟨rows.map fun row => row.set pred.outputSlot (.bound (.bool false)), mapM_ok.mpr ?_⟩
    refine forall₂_zip hcoll.keys (mapM_ok.mp hsep) fun other hoth key hkeyMem out hkey hown => ?_
    obtain ⟨rep, hrep, rfl⟩ := mem_map.mp (hcoll.covered key hkeyMem)
    have hrun := hruns rep hrep
    rw [hreps rep hrep] at hrun
    rw [existsSeparately, hemp other hoth, ok_bind] at hown
    rw [bindExists, hcache, nil_append, lookup_cache _ (fun key => (run key).holds) (mem_map_of_mem hrep), ← ok.inj hrun]
    exact hown
  obtain ⟨out, hbd⟩ := hbd
  have hshared : evaluateExistsPredicate (existsFailsFrom (some (importStates pred.imports.importSlots row))) sch pred
      ⟨rows.length, 0⟩ rows = .ok (out, final.budget) := by
    rw [evaluateExistsPredicate, hst, ok_bind, hfold, ok_bind, hbd, ok_bind]
  obtain ⟨bound, -, hown⟩ := forall₂_mem (mapM_ok.mp (h.sound _ _ _ _ hshared)) hrow
  obtain ⟨run, hrun, -⟩ := bind_ok hown
  rw [existsFor_eq himp (hrows row hrow), existsFailsFrom, failsFrom, if_pos rfl] at hrun
  cases hrun

end

/-- What a call or a predicate gives is what a run for each outer row gives, if and only if rows with one key import the same values. -/
theorem sharing_transparent_iff {inputSchema : Schema} {aliases : List String} {imports : Imports}
    (himports : pipelineImportSchemaAndMappings inputSchema aliases = .ok imports) :
    (∀ stage rows, stage.inputSchema = inputSchema → stage.imports = imports →
      (∀ row ∈ rows, FitsAt inputSchema imports.importSlots row) → (CallTransparent stage rows ↔ KeysTell imports.importSlots rows)) ∧
    (∀ sch outputSlot rows, inputSchema <+: sch → (∀ row ∈ rows, FitsAt sch imports.importSlots row) →
      ResultSlot sch outputSlot rows →
      (ExistsTransparent sch ⟨imports, outputSlot⟩ rows ↔ KeysTell imports.importSlots rows)) := by
  have hof := importsOf_of_ok himports
  constructor
  · rintro stage rows rfl rfl hrows
    exact ⟨keysTell_of_callTransparent hof hrows, callTransparent_of_keysTell hof hrows⟩
  · intro sch outputSlot rows hextends hrows hslot
    have hlonger := hof.extend hextends
    exact ⟨@keysTell_of_existsTransparent sch ⟨imports, outputSlot⟩ rows hlonger hrows hslot,
      @existsTransparent_of_keysTell sch ⟨imports, outputSlot⟩ rows hlonger hrows⟩

def xSchema : Schema := [⟨"x", some "x", .scalar, true⟩]

def xImports : Imports := ⟨xSchema, [0], [⟨0, 0⟩]⟩

/-- The rows `x = 1` and `x = 1.0`. -/
def oneRows : List Row := [[.bound (.int 1)], [.bound (.float 0x3FF0000000000000)]]

/-- `CALL { WITH x RETURN x AS y }`. -/
def returnImport : CallStage where
  inputSchema := xSchema
  imports := xImports
  outputSchema := xSchema ++ [⟨"y", some "y", .scalar, true⟩]
  inputMappings := [⟨0, 0⟩]
  outputMappings := [⟨0, 1⟩]

/-- The rows `x = 1`, `x = 2` and `x = 1`. -/
def intRows : List Row := [[.bound (.int 1)], [.bound (.int 2)], [.bound (.int 1)]]

theorem keysTell_intRows : KeysTell xImports.importSlots intRows := by
  constructor
  · intro row hrow
    simp only [intRows, mem_cons, not_mem_nil, or_false] at hrow
    rcases hrow with rfl | rfl | rfl <;> exact ⟨_, rfl⟩
  · intro a ha b hb hkeys
    simp only [intRows, mem_cons, not_mem_nil, or_false] at ha hb
    rcases ha with rfl | rfl | rfl <;> rcases hb with rfl | rfl | rfl <;> first
      | rfl
      | exact absurd (ok.inj hkeys) (by decide)

theorem sharing_transparent_intRows : CallTransparent returnImport intRows ∧ ¬CallTransparent returnImport oneRows := by
  have hiff := (@sharing_transparent_iff xSchema ["x"] xImports rfl).1 returnImport
  have hfits : ∀ rows ∈ [intRows, oneRows], ∀ row ∈ rows, FitsAt xSchema xImports.importSlots row := by
    intro rows hrows row hrow slot hslot info hinfo
    obtain rfl := mem_singleton.mp hslot
    obtain rfl := Option.some.inj hinfo
    simp only [intRows, oneRows, mem_cons, not_mem_nil, or_false] at hrows
    rcases hrows with rfl | rfl <;> simp only [mem_cons, not_mem_nil, or_false] at hrow
    · rcases hrow with rfl | rfl | rfl <;> exact ⟨_, rfl, rfl⟩
    · rcases hrow with rfl | rfl <;> exact ⟨_, rfl, rfl⟩
  refine ⟨(hiff intRows rfl rfl (hfits intRows (by simp))).mpr keysTell_intRows, fun hcall => ?_⟩
  have htell := (hiff oneRows rfl rfl (hfits oneRows (by simp))).mp hcall
  have hvalues := htell.told [.bound (.int 1)] mem_cons_self [.bound (.float 0x3FF0000000000000)] (mem_cons_of_mem _ mem_cons_self)
    (by decide +kernel)
  cases hvalues

theorem not_callTransparent_ones : executePipelineCallStage (fun row => .ok ⟨[row], 0⟩) returnImport ⟨10, 10⟩ ⟨10, 0⟩ oneRows =
      .ok [[.bound (.int 1), .bound (.int 1)], [.bound (.float 0x3FF0000000000000), .bound (.int 1)]] ∧
    executeSeparately (fun row => .ok ⟨[row], 0⟩) returnImport oneRows =
      .ok [[.bound (.int 1), .bound (.int 1)], [.bound (.float 0x3FF0000000000000), .bound (.float 0x3FF0000000000000)]] := by
  constructor <;> rfl

end OverGraph.SubqueryCaches
