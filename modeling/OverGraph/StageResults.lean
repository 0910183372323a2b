import OverGraph.ProjectStages

/-!
# What a projection stage gives

The slots of a stage are bound by its projection, save those of the subqueries of its filter, which are bound only once the rows are
sorted and cut. Sorting reads every slot.
-/

namespace OverGraph.StageResults
open BindingRows SubqueryCaches PipelineExpressions ProjectStages Fallible List Except PipelineSlotMapping SlotExpr NormalizedAggregateCall Avoids SubqueryInvocationBudget

def IsUnbound : EvalError → Prop
  | .unbound _ => True
  | .invalid _ => False

/-- The slots of a row that are bound or null. -/
structure Covers (slots : List ℕ) (width : ℕ) (row : Row) : Prop where
  length : row.length = width
  unbound : ∀ slot < width, row[slot]? = some .unbound ↔ slot ∉ slots

def storedState (value : GraphEvalValue) : SlotState := if value.isNull then .null else .bound value

theorem covers_emptyRow (sch : Schema) : Covers [] sch.length (emptyRow sch) where
  length := length_map _
  unbound slot hslot := by
    rw [emptyRow, getElem?_map, getElem?_eq_getElem hslot]
    simp

variable {α : Type}

theorem avoids_invalid (msg : String) : Avoids IsUnbound (.error (.invalid msg) : Except EvalError α) := avoids_error id

theorem avoids_raise (res : Except String α) : Avoids IsUnbound (raise res) := by
  cases res with
  | error msg => exact avoids_invalid msg
  | ok a => exact avoids_ok a

theorem avoids_bindPipelineValueToSlot (sch : Schema) (row : Row) (slot : ℕ) (value : GraphEvalValue) :
    Avoids IsUnbound (bindPipelineValueToSlot sch row slot value) := by
  rw [bindPipelineValueToSlot]
  repeat' split
  all_goals first
    | exact avoids_ok _
    | exact avoids_invalid _

variable {slot : ℕ} {row : Row}

/-- A slot that was unbound holds the value, the others are kept. -/
theorem bind_spec {sch : Schema} {row' : Row} {value : GraphEvalValue}
    (h : bindPipelineValueToSlot sch row slot value = .ok row') : slot < row.length ∧ row'.length = row.length ∧
      (∀ other ≠ slot, row'[other]? = row[other]?) ∧ row'[slot]? ≠ some .unbound ∧
      (row[slot]? = some .unbound → row'[slot]? = some (storedState value)) := by
  rw [bindPipelineValueToSlot] at h
  split at h
  · rename_i info state _ hsta
    obtain ⟨hbd, -⟩ := List.getElem?_eq_some_iff.mp hsta
    have hset : ∀ state', row.set slot state' = row' → state' ≠ .unbound → slot < row.length ∧ row'.length = row.length ∧
        (∀ other ≠ slot, row'[other]? = row[other]?) ∧ row'[slot]? ≠ some .unbound ∧ row'[slot]? = some state' := by
      rintro state' rfl hstate'
      have hself : (row.set slot state')[slot]? = some state' := List.getElem?_set_self hbd
      refine ⟨hbd, length_set, fun other hoth => getElem?_set_ne hoth.symm, ?_, hself⟩
      rw [hself]
      exact fun heq => hstate' (Option.some.inj heq)
    split at h
    · rename_i hnull
      have hsto : storedState value = .null := if_pos hnull
      split at h
      · cases h
      split at h
      · cases h
      · obtain ⟨h₁, h₂, h₃, h₄, h₅⟩ := hset _ (ok.inj h) (by rintro ⟨⟩)
        exact ⟨h₁, h₂, h₃, h₄, fun _ => hsto ▸ h₅⟩
    · rename_i hnull
      have hsto : storedState value = .bound value := if_neg hnull
      split at h
      · cases h
      split at h
      · obtain ⟨h₁, h₂, h₃, h₄, h₅⟩ := hset _ (ok.inj h) (by rintro ⟨⟩)
        exact ⟨h₁, h₂, h₃, h₄, fun _ => hsto ▸ h₅⟩
      · cases h
      · split at h
        · obtain rfl := ok.inj h
          refine ⟨hbd, rfl, fun _ _ => rfl, ?_, fun hunb => ?_⟩
          · rw [hsta]
            rintro ⟨⟩
          · rw [hsta] at hunb
            cases hunb
        · cases h
  · cases h

variable {slots : List ℕ} {width : ℕ}

theorem Covers.bind {slot : ℕ} {row' : Row} {sch : Schema} {value : GraphEvalValue}
    (h : Covers slots width row) (hbind : bindPipelineValueToSlot sch row slot value = .ok row') :
    Covers (slots ++ [slot]) width row' := by
  obtain ⟨-, hlen, hoth, hself, -⟩ := bind_spec hbind
  refine ⟨hlen.trans h.length, fun other hwid => ?_⟩
  by_cases heq : other = slot
  · subst heq
    simp [hself]
  · rw [hoth other heq, h.unbound other hwid]
    simp [heq]

/-- Each step binds its slot. -/
theorem covers_run {row' : Row} {f : Row → α → Except EvalError Row} {l : List α}
    (tgt : α → ℕ) {sch : Schema} (hf : ∀ a ∈ l, ∀ row row', f row a = .ok row' →
      ∃ value, bindPipelineValueToSlot sch row (tgt a) value = .ok row') (h : Covers slots width row)
    (hrun : l.foldlM f row = .ok row') : Covers (slots ++ l.map tgt) width row' := by
  induction l generalizing slots row with
  | nil =>
    rw [← ok.inj hrun, map_nil, append_nil]
    exact h
  | cons a l ih =>
    rw [foldlM_cons] at hrun
    obtain ⟨mid, hmid, hrun⟩ := bind_ok hrun
    obtain ⟨value, hval⟩ := hf a mem_cons_self row mid hmid
    rw [map_cons, append_cons]
    exact ih (fun b hb => hf b (mem_cons_of_mem _ hb)) (h.bind hval) hrun

/-- Every slot is bound or null. -/
def Filled (row : Row) : Prop := ∀ slot : ℕ, row[slot]? ≠ some SlotState.unbound

theorem Covers.filled (h : Covers slots width row) (hall : ∀ slot < width, slot ∈ slots) :
    Filled row := by
  intro slot hslot
  have hwid : slot < width := h.length ▸ (List.getElem?_eq_some_iff.mp hslot).1
  exact (h.unbound slot hwid).mp hslot (hall slot hwid)

theorem avoids_valueForSlot (h : row[slot]? ≠ some .unbound) : Avoids IsUnbound (valueForSlot row slot) := by
  rw [valueForSlot]
  split
  · exact avoids_invalid _
  · rename_i state hsta
    cases state with
    | unbound => exact absurd hsta h
    | null | bound value => exact avoids_ok _

section
variable {O Q : Type} (lang : Language O Q) {row : Row}

mutual

theorem avoids_evalBoundGraphExpr (h : Filled row) : ∀ expr : BoundExpr O, Avoids IsUnbound (evalBoundGraphExpr lang row expr)
  | .literal value => avoids_ok _
  | .binding slot => avoids_valueForSlot (h slot)
  | .field slot field => (avoids_valueForSlot (h slot)).bind fun _ _ => avoids_raise _
  | .apply operator args => by
    intro error herr hunb
    cases error with
    | invalid msg => exact hunb
    | unbound slot =>
      have hmem := lang.evaluate_unbound herr
      exact avoids_evalBoundGraphExprs h args _ hmem _ rfl trivial

theorem avoids_evalBoundGraphExprs (h : Filled row) : ∀ args : List (BoundExpr O),
    ∀ res ∈ evalBoundGraphExprs lang row args, Avoids IsUnbound res
  | [], _, hmem => nomatch hmem
  | arg :: args, res, hmem => by
    rw [evalBoundGraphExprs] at hmem
    obtain rfl | hmem := mem_cons.mp hmem
    · exact avoids_evalBoundGraphExpr h arg
    · exact avoids_evalBoundGraphExprs h args res hmem

end

theorem avoids_evalBoundGraphPredicate (h : Filled row) (expr : BoundExpr O) :
    Avoids IsUnbound (evalBoundGraphPredicate lang row expr) := by
  refine (avoids_evalBoundGraphExpr lang h expr).bind fun value _ => ?_
  split
  · exact avoids_ok _
  · exact avoids_ok _
  · exact avoids_invalid _

end

theorem reservedAlias_existsAlias (idx : ℕ) : reservedAlias (existsAlias idx) = true := by
  rw [reservedAlias, Bool.or_eq_true]
  right
  have hname : existsAlias idx = "__og_exists_" ++ toString idx := rfl
  have hsp : "__og_exists_" = "__og_" ++ "exists_" := by decide
  rw [String.startsWith_string_iff, hname, hsp, String.append_assoc, String.toList_append]
  exact prefix_append _ _

theorem reservedAlias_existsOutputAlias (sch : Schema) (fuel idx : ℕ) : reservedAlias (existsOutputAlias sch fuel idx) = true := by
  induction fuel generalizing idx with
  | zero => exact reservedAlias_existsAlias idx
  | succ fuel ih =>
    rw [existsOutputAlias]
    split
    · exact reservedAlias_existsAlias idx
    · exact ih (idx + 1)

variable {name : String}

theorem slotForAlias_some {sch : Schema} (h : slotForAlias sch name = some slot) :
    ∃ info, sch[slot]? = some info ∧ info.userAlias = some name := by
  rw [slotForAlias, findIdx?_eq_some_iff_getElem] at h
  obtain ⟨hbd, halias, -⟩ := h
  exact ⟨sch[slot], getElem?_eq_getElem hbd, eq_of_beq halias⟩

variable {longer : Schema}

theorem getElem?_of_prefix {sch : Schema} (h : sch <+: longer) {info : Slot} (hinfo : sch[slot]? = some info) :
    longer[slot]? = some info := by
  obtain ⟨rest, rfl⟩ := h
  exact (List.getElem?_append_left (List.getElem?_eq_some_iff.mp hinfo).1).trans hinfo

def NamedByUser (sch : Schema) (slot : ℕ) : Prop :=
  ∃ info, sch[slot]? = some info ∧ ∃ name, info.userAlias = some name ∧ reservedAlias name = false

def HoldsExists (sch : Schema) (slot : ℕ) : Prop :=
  ∃ info, sch[slot]? = some info ∧ info.kind = .scalar ∧ ∃ name, info.userAlias = some name ∧ reservedAlias name = true

/-- Every slot is bound by the projection or holds the result of a subquery, and none does both. -/
structure Layout (sch : Schema) (bound hidden : List ℕ) : Prop where
  slots : (bound ++ hidden).Perm (List.range sch.length)
  hidden : ∀ slot ∈ hidden, HoldsExists sch slot

theorem NamedByUser.extend {sch : Schema} (h : NamedByUser sch slot) (hext : sch <+: longer) : NamedByUser longer slot := by
  obtain ⟨info, hinfo, hname⟩ := h
  exact ⟨info, getElem?_of_prefix hext hinfo, hname⟩

theorem HoldsExists.extend {sch : Schema} (h : HoldsExists sch slot) (hext : sch <+: longer) : HoldsExists longer slot := by
  obtain ⟨info, hinfo, hname⟩ := h
  exact ⟨info, getElem?_of_prefix hext hinfo, hname⟩

theorem HoldsExists.not_named {sch : Schema} (h : HoldsExists sch slot) : ¬NamedByUser sch slot := by
  obtain ⟨info, hinfo, -, name, hname, hresv⟩ := h
  rintro ⟨info', hinfo', name', hname', hfree⟩
  rw [hinfo] at hinfo'
  obtain rfl := Option.some.inj hinfo'
  rw [hname] at hname'
  obtain rfl := Option.some.inj hname'
  rw [hresv] at hfree
  cases hfree

theorem Layout.mem_bound_iff {sch : Schema} {bound hidden : List ℕ} (h : Layout sch bound hidden)
    (hslot : slot < sch.length) : slot ∈ bound ↔ slot ∉ hidden := by
  have hnd : (bound ++ hidden).Nodup := h.slots.nodup_iff.mpr nodup_range
  have hmem : slot ∈ bound ∨ slot ∈ hidden := mem_append.mp (h.slots.mem_iff.mpr (mem_range.mpr hslot))
  constructor
  · exact fun hbd hhid => disjoint_of_nodup_append hnd hbd hhid
  · exact fun hhid => hmem.resolve_right hhid

theorem layout_nil : Layout [] [] [] := ⟨Perm.refl _, nofun⟩

section
variable {sch : Schema} {bound hidden : List ℕ} (h : Layout sch bound hidden)
include h

theorem Layout.addBound (info : Slot) : Layout (sch ++ [info]) (bound ++ [sch.length]) hidden where
  slots := by
    rw [length_append, length_singleton, range_succ]
    refine Perm.trans ?_ (h.slots.append_right _)
    rw [append_assoc, append_assoc]
    exact (perm_append_comm).append_left _
  hidden slot hslot := (h.hidden slot hslot).extend (prefix_append _ _)

theorem Layout.addHidden (hresv : reservedAlias name = true) :
    Layout (sch ++ [⟨name, some name, .scalar, false⟩]) bound (hidden ++ [sch.length]) where
  slots := by
    rw [length_append, length_singleton, range_succ, ← append_assoc]
    exact h.slots.append_right _
  hidden slot hslot := by
    obtain hslot | hslot := mem_append.mp hslot
    · exact (h.hidden slot hslot).extend (prefix_append _ _)
    · obtain rfl := mem_singleton.mp hslot
      exact ⟨_, getElem?_concat_length, rfl, name, rfl, hresv⟩

end

def outputSlots (predicates : List NormalizedExistsPredicate) : List ℕ := predicates.map fun pred => pred.predicate.outputSlot

structure Ready (sch : Schema) (pred : NormalizedExistsPredicate) : Prop where
  imports : ImportsOf sch pred.predicate.imports
  named : ∀ slot ∈ pred.predicate.imports.importSlots, NamedByUser sch slot
  subquery : ∀ row, Avoids IsUnbound (pred.subquery row)

theorem Ready.extend {sch : Schema} {pred : NormalizedExistsPredicate} (h : Ready sch pred)
    (hext : sch <+: longer) : Ready longer pred where
  imports := h.imports.extend hext
  named slot hslot := (h.named slot hslot).extend hext
  subquery := h.subquery

theorem imports_named {sch : Schema} {aliases : List String} {imports : Imports}
    (h : pipelineImportSchemaAndMappings sch aliases = .ok imports) : ∀ slot ∈ imports.importSlots, NamedByUser sch slot := by
  suffices hkeeps : ∀ name ∈ aliases, ∀ start next : Imports, (∀ slot ∈ start.importSlots, NamedByUser sch slot) →
      importAlias sch start name = .ok next → ∀ slot ∈ next.importSlots, NamedByUser sch slot by
    exact foldlM_keeps (fun imports : Imports => ∀ slot ∈ imports.importSlots, NamedByUser sch slot) hkeeps (fun slot hslot => absurd hslot not_mem_nil) h
  intro name _ start next hst hstep
  obtain ⟨_, hvd, hstep⟩ := bind_ok hstep
  have hfree : reservedAlias name = false := by
    rw [validateGraphPipelineUserAlias] at hvd
    split at hvd
    · cases hvd
    · exact Bool.eq_false_iff.mpr ‹_›
  split at hstep
  · cases hstep
  split at hstep
  · cases hstep
  split at hstep
  · cases hstep
  · rename_i src hsrc _ info _
    obtain ⟨⟨schema', tgt⟩, -, hstep⟩ := bind_ok hstep
    obtain rfl := ok.inj hstep
    intro slot hslot
    obtain hslot | hslot := mem_append.mp hslot
    · exact hst slot hslot
    · obtain rfl := mem_singleton.mp hslot
      obtain ⟨info', hinfo', halias⟩ := slotForAlias_some hsrc
      exact ⟨info', hinfo', name, halias, hfree⟩

/-- What holds while the subqueries of a filter are taken out. -/
structure Taken (bound : List ℕ) (start : Schema) (st : Rewriting) : Prop where
  extends_start : start <+: st.schema
  layout : Layout st.schema bound (outputSlots st.predicates)
  ready : ∀ pred ∈ st.predicates, Ready st.schema pred

section
variable {O Q : Type} {lang : Language O Q} {maxSubqueryDepth subqueryDepth : ℕ} {bound : List ℕ} {start : Schema}

theorem taken_takeExists {st st' : Rewriting} (h : Taken bound start st) {importAliases : List String} {query : Q} {expr : GraphExpr O Q}
    (hstep : takeExists lang maxSubqueryDepth subqueryDepth st importAliases query = .ok (expr, st')) : Taken bound start st' := by
  rw [takeExists] at hstep
  split at hstep
  · cases hstep
  obtain ⟨imports, himp, hstep⟩ := bind_ok hstep
  obtain ⟨subquery, -, hstep⟩ := bind_ok hstep
  obtain ⟨⟨sch, outputSlot⟩, hadd, hstep⟩ := bind_ok hstep
  obtain ⟨rfl, rfl⟩ := addAliasedSlot_ok hadd
  obtain ⟨-, rfl⟩ := Prod.mk.inj (ok.inj hstep)
  have hext : ∀ info, st.schema <+: st.schema ++ [info] := fun info => prefix_append _ _
  refine ⟨h.extends_start.trans (hext _), ?_, fun pred hpred => ?_⟩
  · rw [outputSlots, map_append]
    exact h.layout.addHidden (reservedAlias_existsOutputAlias _ _ _)
  · obtain hpred | hpred := mem_append.mp hpred
    · exact (h.ready pred hpred).extend (hext _)
    · obtain rfl := mem_singleton.mp hpred
      exact ⟨(importsOf_of_ok himp).extend (hext _), fun slot hslot => (imports_named himp slot hslot).extend (hext _),
        fun row => avoids_raise _⟩

mutual

theorem taken_rewriteExpr {st st' : Rewriting} (h : Taken bound start st) : ∀ {expr expr' : GraphExpr O Q},
    rewritePipelineExistsExpr lang maxSubqueryDepth subqueryDepth st expr = .ok (expr', st') → Taken bound start st'
  | .existsSubquery _ _, _, hrun => taken_takeExists h hrun
  | .apply _ args, _, hrun => by
    obtain ⟨⟨args', mid⟩, hargs, hrun⟩ := bind_ok hrun
    obtain ⟨-, rfl⟩ := Prod.mk.inj (ok.inj hrun)
    exact taken_rewriteAll h hargs
  | .aggregateCall _ _ arg, _, hrun => by
    obtain ⟨⟨arg', mid⟩, harg, hrun⟩ := bind_ok hrun
    obtain ⟨-, rfl⟩ := Prod.mk.inj (ok.inj hrun)
    exact taken_rewriteArg h harg
  | .literal _, _, hrun | .binding _, _, hrun | .field _ _, _, hrun => (Prod.mk.inj (ok.inj hrun)).2 ▸ h

theorem taken_rewriteAll {st st' : Rewriting} (h : Taken bound start st) : ∀ {args args' : List (GraphExpr O Q)},
    rewritePipelineExistsAll lang maxSubqueryDepth subqueryDepth st args = .ok (args', st') → Taken bound start st'
  | [], _, hrun => (Prod.mk.inj (ok.inj hrun)).2 ▸ h
  | arg :: args, _, hrun => by
    obtain ⟨⟨arg', mid⟩, harg, hrun⟩ := bind_ok hrun
    obtain ⟨⟨args', last⟩, hargs, hrun⟩ := bind_ok hrun
    obtain ⟨-, rfl⟩ := Prod.mk.inj (ok.inj hrun)
    exact taken_rewriteAll (taken_rewriteExpr h harg) hargs

theorem taken_rewriteArg {st st' : Rewriting} (h : Taken bound start st) : ∀ {arg arg' : Option (GraphExpr O Q)},
    rewritePipelineExistsArg lang maxSubqueryDepth subqueryDepth st arg = .ok (arg', st') → Taken bound start st'
  | none, _, hrun => (Prod.mk.inj (ok.inj hrun)).2 ▸ h
  | some arg, _, hrun => by
    obtain ⟨⟨arg', mid⟩, harg, hrun⟩ := bind_ok hrun
    obtain ⟨-, rfl⟩ := Prod.mk.inj (ok.inj hrun)
    exact taken_rewriteExpr h harg

end

end

def projectedSlots {O : Type} (stage : NormalizedProjectStage O) : List ℕ :=
  match stage.aggregate with
  | none => stage.internalMappings.map PipelineSlotMapping.target ++ stage.items.map NormalizedItem.outputSlot
  | some aggregate => aggregate.internalCursorSlot.toList ++ stage.items.map NormalizedItem.outputSlot ++ aggregate.orderOutputs.map SlotExpr.slot

theorem visible_named {sch : Schema} : ∀ slot ∈ pipelineVisibleSlots sch, NamedByUser sch slot := by
  intro slot hslot
  obtain ⟨hbd, hvis⟩ := mem_filter.mp hslot
  rw [getElem?_eq_getElem (mem_range.mp hbd), Option.any_some, pipelineSlotIsUserVisible] at hvis
  split at hvis
  · cases hvis
  · rename_i name hname
    exact ⟨_, getElem?_eq_getElem (mem_range.mp hbd), name, hname, by simpa using hvis⟩

variable {inputSchema : Schema}

theorem addPipelineOutputSlot_ok {outputSchema sch : Schema} {src : Option ℕ}
    (h : addPipelineOutputSlot inputSchema outputSchema name src = .ok (sch, slot)) :
    ∃ info, sch = outputSchema ++ [info] ∧ slot = outputSchema.length ∧ (src = none → info.kind = .scalar ∧ info.nullable = true) ∧
      (∀ place, src = some place → ∃ from', inputSchema[place]? = some from' ∧ info.kind = from'.kind ∧ info.nullable = from'.nullable) := by
  cases src with
  | none =>
    obtain ⟨rfl, rfl⟩ := addAliasedSlot_ok h
    exact ⟨_, rfl, rfl, fun _ => ⟨rfl, rfl⟩, nofun⟩
  | some place =>
    rw [addPipelineOutputSlot] at h
    split at h
    · cases h
    · rename_i info hinfo
      obtain ⟨rfl, rfl⟩ := addAliasedSlot_ok h
      exact ⟨_, rfl, rfl, nofun, fun other hoth => ⟨info, Option.some.inj hoth ▸ hinfo, rfl, rfl⟩⟩

/-- The slot of an item holds what the item gives. -/
structure Placed {O : Type} (inputSchema sch : Schema) (item : NormalizedItem O) : Prop where
  copied : ∀ source, item.sourceSlot = some source → item.expr = none ∧ ∃ info from', sch[item.outputSlot]? = some info ∧
    inputSchema[source]? = some from' ∧ info.kind = from'.kind ∧ info.nullable = from'.nullable
  computed : item.sourceSlot = none → (∃ expr, item.expr = some expr) ∧ ∃ info, sch[item.outputSlot]? = some info ∧
    info.kind = .scalar ∧ info.nullable = true

theorem Placed.extend {O : Type} {sch : Schema} {item : NormalizedItem O} (h : Placed inputSchema sch item)
    (hext : sch <+: longer) : Placed inputSchema longer item where
  copied src hsrc := by
    obtain ⟨hexpr, info, from', hinfo, hrest⟩ := h.copied src hsrc
    exact ⟨hexpr, info, from', getElem?_of_prefix hext hinfo, hrest⟩
  computed hsrc := by
    obtain ⟨hexpr, info, hinfo, hrest⟩ := h.computed hsrc
    exact ⟨hexpr, info, getElem?_of_prefix hext hinfo, hrest⟩

/-- The cursor is copied from the slot of the input to a slot that is never null. -/
structure Mapped (inputSchema sch : Schema) (mapping : PipelineSlotMapping) : Prop where
  source : pipelineInternalCursorSlot inputSchema = some mapping.source
  target : ∃ info, sch[mapping.target]? = some info ∧ info.kind = .scalar ∧ info.nullable = false

structure Laid {O : Type} (inputSchema : Schema) (stage : NormalizedProjectStage O) : Prop where
  input : stage.inputSchema = inputSchema
  layout : Layout stage.outputSchema (projectedSlots stage) (outputSlots stage.existsPredicates)
  ready : ∀ pred ∈ stage.existsPredicates, Ready stage.outputSchema pred
  distinct : ∀ slot ∈ stage.distinctSlots, NamedByUser stage.outputSchema slot
  groups : ∀ aggregate, stage.aggregate = some aggregate → ∀ slot < aggregate.evalSchema.length,
    slot ∈ aggregate.groupKeys.map SlotExpr.slot ++ aggregate.calls.map NormalizedAggregateCall.evalSlot
  placed : stage.aggregate = none → ∀ item ∈ stage.items, Placed inputSchema stage.outputSchema item
  mapped : stage.aggregate = none → ∀ mapping ∈ stage.internalMappings, Mapped inputSchema stage.outputSchema mapping

section
variable {O Q : Type} {lang : Language O Q} {opts : ProjectOptions} {subqueryDepth : ℕ}

theorem taken_normalizeFilter {whereExpr : Option (GraphExpr O Q)} {sch : Schema} {filter : FilterParts O} {bound : List ℕ}
    (hlyt : Layout sch bound []) (h : normalizeFilter lang opts subqueryDepth whereExpr sch = .ok filter) :
    Taken bound sch ⟨filter.schema, filter.predicates⟩ := by
  have hst : Taken bound sch ⟨sch, []⟩ := ⟨prefix_refl _, hlyt, nofun⟩
  cases whereExpr with
  | none => exact ok.inj h ▸ hst
  | some expr =>
    obtain ⟨⟨expr', st⟩, hrewr, h⟩ := bind_ok h
    obtain ⟨bounded, -, h⟩ := bind_ok h
    exact ok.inj h ▸ taken_rewriteExpr hst hrewr

/-- Items are bound one after the other. -/
structure ItemsLaid (inputSchema : Schema) (before : List ℕ) (st : ItemsState O) : Prop where
  layout : Layout st.schema (before ++ st.items.map NormalizedItem.outputSlot) []
  placed : ∀ item ∈ st.items, Placed inputSchema st.schema item

variable {before : List ℕ}

theorem itemsLaid_step {st st' : ItemsState O} {item : GraphProjectItem O Q}
    (h : ItemsLaid inputSchema before st) (hstep : normalizeItem inputSchema st item = .ok st') : ItemsLaid inputSchema before st' := by
  obtain ⟨outputName, -, hstep⟩ := bind_ok hstep
  obtain ⟨⟨sch, outputSlot⟩, hadd, hstep⟩ := bind_ok hstep
  obtain ⟨expr, hexpr, hstep⟩ := bind_ok hstep
  obtain rfl := ok.inj hstep
  obtain ⟨info, rfl, rfl, hcomp, hcopied⟩ := addPipelineOutputSlot_ok hadd
  have hself : (st.schema ++ [info])[st.schema.length]? = some info := getElem?_concat_length
  constructor
  · rw [map_append, ← append_assoc]
    exact h.layout.addBound info
  · intro other hoth
    obtain hoth | hoth := mem_append.mp hoth
    · exact (h.placed other hoth).extend (prefix_append _ _)
    · obtain rfl := mem_singleton.mp hoth
      constructor
      · intro src hsrc
        obtain ⟨from', hfrom⟩ := hcopied src hsrc
        dsimp only at hsrc
        rw [hsrc] at hexpr
        exact ⟨(ok.inj hexpr).symm, info, from', hself, hfrom⟩
      · intro hsrc
        dsimp only at hsrc
        rw [hsrc, bindItemExpr] at hexpr
        refine ⟨?_, info, hself, hcomp hsrc⟩
        obtain ⟨bound, hbind, hexpr⟩ := bind_ok hexpr
        exact ⟨bound, (ok.inj hexpr).symm⟩

structure Started (inputSchema start : Schema) (mappings : List PipelineSlotMapping) : Prop where
  layout : Layout start (mappings.map PipelineSlotMapping.target) []
  mapped : ∀ mapping ∈ mappings, Mapped inputSchema start mapping
  cursor : (aggregateCursor inputSchema start).1 = start ∧ (aggregateCursor inputSchema start).2.toList = mappings.map PipelineSlotMapping.target

variable {mappings : List PipelineSlotMapping}

theorem started_of_mappings (h : pipelineInternalCursorMappings inputSchema
      (if (pipelineInternalCursorSlot inputSchema).isSome then (ensurePipelineCursorKeySlot []).1 else []) = .ok mappings) :
    Started inputSchema (if (pipelineInternalCursorSlot inputSchema).isSome then (ensurePipelineCursorKeySlot []).1 else []) mappings := by
  rw [pipelineInternalCursorMappings] at h
  cases hcsr : pipelineInternalCursorSlot inputSchema with
  | none =>
    rw [hcsr] at h
    obtain rfl := ok.inj h
    exact ⟨layout_nil, nofun, by simp [aggregateCursor, hcsr]⟩
  | some src =>
    rw [hcsr] at h
    obtain rfl := ok.inj h
    refine ⟨layout_nil.addBound _, fun mapping hmap' => ?_, ?_⟩
    · obtain rfl := mem_singleton.mp hmap'
      exact ⟨hcsr, _, rfl, rfl, rfl⟩
    · rw [aggregateCursor, hcsr]
      exact ⟨rfl, rfl⟩

variable {projectItems : List (GraphProjectItem O Q)} {norm : NormalizedProjectStage O}
  {stage : GraphProjectStage O Q} {start : Schema}

theorem laid_scalar (hstart : Started inputSchema start mappings)
    (h : normalizeScalarProjectStage lang opts subqueryDepth stage inputSchema start mappings projectItems = .ok norm) :
    Laid inputSchema norm := by
  obtain ⟨proj, hproj, h⟩ := bind_ok h
  obtain ⟨filter, hfil, h⟩ := bind_ok h
  obtain ⟨orderBy, -, h⟩ := bind_ok h
  obtain ⟨skip, -, h⟩ := bind_ok h
  obtain ⟨limit, -, h⟩ := bind_ok h
  obtain rfl := ok.inj h
  have hitems : ItemsLaid inputSchema (mappings.map target) proj :=
    foldlM_keeps (ItemsLaid inputSchema _) (fun _ _ _ _ => itemsLaid_step)
      ⟨by simpa using hstart.layout, fun _ hitem => absurd hitem not_mem_nil⟩ hproj
  have hgrows : start <+: proj.schema := by
    refine foldlM_keeps (fun st => start <+: st.schema) (fun item _ st next hst hstep => ?_) (prefix_refl _) hproj
    obtain ⟨outputName, -, hstep⟩ := bind_ok hstep
    obtain ⟨⟨sch, outputSlot⟩, hadd, hstep⟩ := bind_ok hstep
    obtain ⟨expr, -, hstep⟩ := bind_ok hstep
    obtain rfl := ok.inj hstep
    obtain ⟨info, rfl, -⟩ := addPipelineOutputSlot_ok hadd
    exact hst.trans (prefix_append _ _)
  have htaken := taken_normalizeFilter hitems.layout hfil
  refine ⟨rfl, htaken.layout, htaken.ready, visible_named, nofun, fun _ item hitem => ?_, fun _ mapping hmap' => ?_⟩
  · exact (hitems.placed item hitem).extend htaken.extends_start
  · obtain ⟨hsrc, info, htgt, hinfo⟩ := hstart.mapped mapping hmap'
    exact ⟨hsrc, info, getElem?_of_prefix (hgrows.trans htaken.extends_start) htgt, hinfo⟩

theorem layout_groups {groupExprs : List (GraphExpr O Q)} {groups : GroupsState O}
    (h : groupExprs.foldlM (normalizeGroupKey inputSchema) ⟨[], []⟩ = .ok groups) :
    Layout groups.evalSchema (groups.groupKeys.map SlotExpr.slot) [] := by
  refine foldlM_keeps (fun st => Layout st.evalSchema (st.groupKeys.map SlotExpr.slot) []) (fun expr _ st next hst hstep => ?_) layout_nil h
  obtain ⟨⟨evalSchema, evalSlot⟩, hadd, hstep⟩ := bind_ok hstep
  obtain ⟨bounded, -, hstep⟩ := bind_ok hstep
  obtain ⟨rfl, rfl⟩ := addAliasedSlot_ok hadd
  obtain rfl := ok.inj hstep
  rw [map_append]
  exact hst.addBound _

variable {evalSchema : Schema}

theorem layout_calls {aggregateCalls : List (AggregateCallExpr O Q)}
    {calls : CallsState O} (hlyt : Layout evalSchema before [])
    (h : aggregateCalls.foldlM (normalizeCall inputSchema) ⟨evalSchema, []⟩ = .ok calls) :
    Layout calls.evalSchema (before ++ calls.calls.map NormalizedAggregateCall.evalSlot) [] := by
  refine foldlM_keeps (fun st => Layout st.evalSchema (before ++ st.calls.map NormalizedAggregateCall.evalSlot) [])
    (fun call _ st next hst hstep => ?_) (by simpa using hlyt) h
  obtain ⟨arg, -, hstep⟩ := bind_ok hstep
  obtain ⟨⟨sch, evalSlot⟩, hadd, hstep⟩ := bind_ok hstep
  obtain ⟨rfl, rfl⟩ := addAliasedSlot_ok hadd
  obtain rfl := ok.inj hstep
  rw [map_append, ← append_assoc]
  exact hst.addBound _

theorem layout_rewritten {sch : Schema} {analysis : AggregateAnalysis O Q}
    {items : RewriteState O Q} (hlyt : Layout sch before [])
    (h : projectItems.foldlM (rewriteItem lang inputSchema) ⟨sch, [], analysis⟩ = .ok items) :
    Layout items.schema (before ++ items.items.map RewrittenItem.outputSlot) [] := by
  refine foldlM_keeps (fun st => Layout st.schema (before ++ st.items.map RewrittenItem.outputSlot) [])
    (fun item _ st next hst hstep => ?_) (by simpa using hlyt) h
  obtain ⟨outputName, -, hstep⟩ := bind_ok hstep
  obtain ⟨⟨rewritten, analysis'⟩, -, hstep⟩ := bind_ok hstep
  obtain ⟨⟨schema', outputSlot⟩, hadd, hstep⟩ := bind_ok hstep
  obtain ⟨info, rfl, rfl, -, -⟩ := addPipelineOutputSlot_ok hadd
  obtain rfl := ok.inj hstep
  rw [map_append, ← append_assoc]
  exact hst.addBound info

/-- The slots of orders are bound, and nothing else changes. -/
structure OrdersLaid (start : Schema) (before hidden : List ℕ) (st : FinalOrderState O Q) : Prop where
  extends_start : start <+: st.schema
  layout : Layout st.schema (before ++ st.orderOutputs.map SlotExpr.slot) hidden

theorem ordersLaid_step {before hidden : List ℕ} {st st' : FinalOrderState O Q} {item : GraphOrderItem O Q}
    (h : OrdersLaid start before hidden st) (hstep : finalOrderItem evalSchema st item = .ok st') : OrdersLaid start before hidden st' := by
  rw [finalOrderItem] at hstep
  split at hstep
  · obtain rfl := ok.inj hstep
    exact ⟨h.extends_start, h.layout⟩
  · obtain ⟨bounded, -, hstep⟩ := bind_ok hstep
    obtain ⟨⟨sch, outputSlot⟩, hadd, hstep⟩ := bind_ok hstep
    obtain ⟨rfl, rfl⟩ := addAliasedSlot_ok hadd
    obtain rfl := ok.inj hstep
    refine ⟨h.extends_start.trans (prefix_append _ _), ?_⟩
    rw [map_append, ← append_assoc]
    exact h.layout.addBound _

theorem outputSlots_normalized {items : List (RewrittenItem O Q)} {norm : List (NormalizedItem O)}
    (h : items.mapM (normalizeRewritten evalSchema) = .ok norm) :
    norm.map NormalizedItem.outputSlot = items.map RewrittenItem.outputSlot := by
  have hall := mapM_ok.mp h
  refine map_eq_of_forall₂ (forall₂_same.mpr fun _ _ => rfl : Forall₂ (fun a b => b = a) items items) hall
    fun item _ a b ha hb => ?_
  subst ha
  obtain ⟨bounded, -, hb⟩ := bind_ok hb
  obtain rfl := ok.inj hb
  rfl

theorem laid_aggregate (hst : Started inputSchema start mappings)
    (h : normalizeAggregateProjectStage lang opts subqueryDepth stage inputSchema start mappings projectItems = .ok norm) :
    Laid inputSchema norm := by
  obtain ⟨outputNames, -, h⟩ := bind_ok h
  obtain ⟨groups, hgrps, h⟩ := bind_ok h
  obtain ⟨items, hitems, h⟩ := bind_ok h
  obtain ⟨orders, -, h⟩ := bind_ok h
  obtain ⟨calls, hcalls, h⟩ := bind_ok h
  obtain ⟨normalizedItems, hnorm, h⟩ := bind_ok h
  obtain ⟨filter, hfil, h⟩ := bind_ok h
  obtain ⟨final, hfinl, h⟩ := bind_ok h
  obtain ⟨orderBy, -, h⟩ := bind_ok h
  obtain ⟨skip, -, h⟩ := bind_ok h
  obtain ⟨limit, -, h⟩ := bind_ok h
  obtain rfl := ok.inj h
  have hevals := layout_calls (layout_groups hgrps) hcalls
  have hlyt : Layout (aggregateCursor inputSchema start).1 (aggregateCursor inputSchema start).2.toList [] := by
    rw [hst.cursor.1, hst.cursor.2]
    exact hst.layout
  have htaken := taken_normalizeFilter (layout_rewritten hlyt hitems) hfil
  have horders : OrdersLaid filter.schema _ (outputSlots filter.predicates) final :=
    foldlM_keeps (OrdersLaid filter.schema _ _) (fun _ _ _ _ => ordersLaid_step) ⟨prefix_refl _, by simpa using htaken.layout⟩ hfinl
  refine ⟨rfl, ?_, fun pred hpred => (htaken.ready pred hpred).extend horders.extends_start, visible_named, ?_, nofun, nofun⟩
  · rw [projectedSlots]
    dsimp only
    rw [outputSlots_normalized hnorm]
    exact horders.layout
  · intro aggregate hagg slot hslot
    obtain rfl := Option.some.inj hagg
    exact (hevals.mem_bound_iff hslot).mpr not_mem_nil

theorem laid_of_normalized (h : normalizePipelineProjectStage lang opts subqueryDepth stage inputSchema = .ok norm) : Laid inputSchema norm := by
  obtain ⟨mappings, hmaps, h⟩ := bind_ok h
  obtain ⟨projectItems, -, h⟩ := bind_ok h
  have hst := started_of_mappings hmaps
  split at h
  · split at h
    · cases h
    · exact laid_aggregate hst h
  · exact laid_scalar hst h

end

section

mutual

theorem avoids_graphCanonicalKeyForValue : ∀ value, Avoids IsUnbound (graphCanonicalKeyForValue value)
  | .null | .bool _ | .int _ | .uint _ => avoids_ok _
  | .float bits => by
    rw [graphCanonicalKeyForValue, finiteKey]
    split
    · exact avoids_ok _
    · exact avoids_invalid _
  | .string _ | .bytes _ | .node _ | .edge _ | .path _ _ => avoids_ok _
  | .list items => (avoids_canonicalKeysForItems items).map
  | .map entries => (avoids_canonicalKeysForEntries entries).map

theorem avoids_canonicalKeysForItems : ∀ items, Avoids IsUnbound (canonicalKeysForItems items)
  | [] => avoids_ok _
  | item :: items => (avoids_graphCanonicalKeyForValue item).bind fun _ _ =>
    (avoids_canonicalKeysForItems items).bind fun _ _ => avoids_ok _

theorem avoids_canonicalKeysForEntries : ∀ entries, Avoids IsUnbound (canonicalKeysForEntries entries)
  | [] => avoids_ok _
  | (_, value) :: entries => (avoids_graphCanonicalKeyForValue value).bind fun _ _ =>
    (avoids_canonicalKeysForEntries entries).bind fun _ _ => avoids_ok _

end

theorem avoids_graphSortAtomForValue (value : GraphEvalValue) : Avoids IsUnbound (graphSortAtomForValue value) := by
  cases value with
  | float bits =>
    rw [graphSortAtomForValue, finiteKey]
    split
    · exact avoids_ok _
    · exact avoids_invalid _
  | list items | map entries => exact avoids_invalid _
  | _ => exact avoids_ok _

mutual

theorem avoids_graphLogicalSortAtomForValue : ∀ value, Avoids IsUnbound (graphLogicalSortAtomForValue value)
  | .list items => (avoids_logicalAtomsForItems items).map
  | .map entries => (avoids_logicalAtomsForEntries entries).map
  | .null | .bool _ | .int _ | .uint _ => avoids_ok _
  | .float bits => avoids_graphSortAtomForValue (.float bits)
  | .string _ | .bytes _ | .node _ | .edge _ | .path _ _ => avoids_ok _

theorem avoids_logicalAtomsForItems : ∀ items, Avoids IsUnbound (logicalAtomsForItems items)
  | [] => avoids_ok _
  | item :: items => (avoids_graphLogicalSortAtomForValue item).bind fun _ _ =>
    (avoids_logicalAtomsForItems items).bind fun _ _ => avoids_ok _

theorem avoids_logicalAtomsForEntries : ∀ entries, Avoids IsUnbound (logicalAtomsForEntries entries)
  | [] => avoids_ok _
  | (_, value) :: entries => (avoids_graphLogicalSortAtomForValue value).bind fun _ _ =>
    (avoids_logicalAtomsForEntries entries).bind fun _ _ => avoids_ok _

end

theorem avoids_rowKey (h : ∀ slot ∈ slots, row[slot]? ≠ some .unbound) :
    Avoids IsUnbound (graphCanonicalKeyForRowSlots row slots) :=
  mapM fun slot hslot => (avoids_valueForSlot (h slot hslot)).bind fun value _ => avoids_graphCanonicalKeyForValue value

end

variable {rows : List Row}

section
variable {sch : Schema} {pred : NormalizedExistsPredicate}

def UserFilled (sch : Schema) (row : Row) : Prop := ∀ slot, NamedByUser sch slot → row[slot]? ≠ some .unbound

variable {bud : SubqueryInvocationBudget}

theorem avoids_collectRepresentatives {operator : String} {most : Option ℕ} (h : ∀ row ∈ rows, ∀ slot ∈ slots, row[slot]? ≠ some .unbound) :
    Avoids IsUnbound (collectRepresentatives slots operator most bud rows) := by
  refine foldlM (fun _ => True) (fun row hrow st _ => ?_) (fun _ _ _ _ _ _ => trivial) trivial
  refine (avoids_rowKey (h row hrow)).bind fun key _ => ?_
  split
  · exact avoids_ok _
  split
  · exact avoids_invalid _
  · refine bind ?_ fun _ _ => avoids_ok _
    rw [reserve]
    split
    · exact avoids_invalid _
    · exact avoids_ok _

theorem avoids_existsFor (hready : Ready sch pred) (hrow : UserFilled sch row) :
    Avoids IsUnbound (existsFor pred.subquery sch pred.predicate row) := by
  refine bind ?_ fun initial _ => hready.subquery initial
  refine foldlM (fun _ => True) (fun mapping hmap' output _ => ?_) (fun _ _ _ _ _ _ => trivial) trivial
  have hsrc : mapping.source ∈ pred.predicate.imports.importSlots := by
    rw [hready.imports.mappings] at hmap'
    obtain ⟨place, hplace, rfl⟩ := mem_mapIdx.mp hmap'
    exact getElem_mem hplace
  refine (avoids_valueForSlot (hrow _ (hready.named _ hsrc))).bind fun value _ => ?_
  split
  · split
    · exact avoids_invalid _
    · exact avoids_bindPipelineValueToSlot _ _ _ _
  · exact avoids_invalid _

theorem avoids_evaluateExistsPredicate (hready : Ready sch pred) (hrows : ∀ row ∈ rows, UserFilled sch row)
    (bud : SubqueryInvocationBudget) :
    Avoids IsUnbound (evaluateExistsPredicate pred.subquery sch pred.predicate bud rows) := by
  refine (avoids_collectRepresentatives fun row hrow slot hslot => hrows row hrow slot (hready.named slot hslot)).bind
    fun collected hcoll => ?_
  have hof := collectedFrom_run hcoll
  refine bind ?_ fun runs _ => ?_
  · refine foldlM (fun _ => True) (fun rep hrep st _ => ?_) (fun _ _ _ _ _ _ => trivial) trivial
    refine (avoids_existsFor hready (hrows _ (hof.row_mem hrep).1)).bind fun run _ => ?_
    refine bind ?_ fun _ _ => avoids_ok _
    rw [spend]
    split
    · exact avoids_invalid _
    · exact avoids_ok _
  · refine bind (mapM fun ent _ => ?_) fun _ _ => avoids_ok _
    rw [bindExists]
    split
    · exact avoids_invalid _
    · exact avoids_bindPipelineValueToSlot _ _ _ _

/-- Every row gets the slot of the result. -/
theorem covers_evaluated {marked : List Row} {budget' : SubqueryInvocationBudget}
    (hrows : ∀ row ∈ rows, Covers slots width row)
    (h : evaluateExistsPredicate pred.subquery sch pred.predicate bud rows = .ok (marked, budget')) :
    ∀ row ∈ marked, Covers (slots ++ [pred.predicate.outputSlot]) width row := by
  obtain ⟨collected, -, h⟩ := bind_ok h
  obtain ⟨runs, -, h⟩ := bind_ok h
  obtain ⟨bound, hbd, h⟩ := bind_ok h
  obtain ⟨rfl, -⟩ := Prod.mk.inj (ok.inj h)
  intro row hrow
  obtain ⟨ent, hent, hbind⟩ := forall₂_mem (mapM_ok.mp hbd).flip hrow
  rw [bindExists] at hbind
  split at hbind
  · cases hbind
  · exact (hrows ent.1 (of_mem_zip hent).1).bind hbind

theorem evaluated_run {predicates : List NormalizedExistsPredicate}
    (hready : ∀ pred ∈ predicates, Ready sch pred) (hnamed : ∀ slot, NamedByUser sch slot → slot < width ∧ slot ∈ slots) (hrows : ∀ row ∈ rows, Covers slots width row) (bud : SubqueryInvocationBudget) :
    let run := predicates.foldlM (fun (st : List Row × SubqueryInvocationBudget) pred =>
      evaluateExistsPredicate pred.subquery sch pred.predicate st.2 st.1) (rows, bud)
    Avoids IsUnbound run ∧ ∀ marked budget', run = .ok (marked, budget') →
      ∀ row ∈ marked, Covers (slots ++ outputSlots predicates) width row := by
  induction predicates generalizing slots rows bud with
  | nil =>
    refine ⟨avoids_ok _, fun marked budget' h => ?_⟩
    obtain ⟨rfl, -⟩ := Prod.mk.inj (ok.inj h)
    rwa [outputSlots, map_nil, append_nil]
  | cons pred predicates ih =>
    have hfilled : ∀ row ∈ rows, UserFilled sch row := by
      intro row hrow slot hslot hunb
      obtain ⟨hwid, hmem⟩ := hnamed slot hslot
      exact ((hrows row hrow).unbound slot hwid).mp hunb hmem
    have hrest : ∀ mid, evaluateExistsPredicate pred.subquery sch pred.predicate bud rows = .ok mid →
        _ := fun mid hmid => ih (fun other hoth => hready other (mem_cons_of_mem _ hoth))
          (fun slot hslot => ⟨(hnamed slot hslot).1, mem_append_left _ (hnamed slot hslot).2⟩)
          (covers_evaluated hrows hmid) mid.2
    constructor
    · rw [foldlM_cons]
      exact (avoids_evaluateExistsPredicate (hready pred mem_cons_self) hfilled bud).bind fun mid hmid => (hrest mid hmid).1
    · intro marked budget' h
      rw [foldlM_cons] at h
      obtain ⟨mid, hmid, h⟩ := bind_ok h
      have hmarked := (hrest mid hmid).2 marked budget' h
      rwa [append_assoc] at hmarked

end

section
variable {O Q : Type} {lang : Language O Q} {opts : ProjectOptions} {stage : NormalizedProjectStage O} {inputSchema : Schema}

def StageRow (stage : NormalizedProjectStage O) (row : Row) : Prop := Covers (projectedSlots stage) stage.outputSchema.length row

section
variable {row : Row} (hrow : Filled row)
include hrow

theorem avoids_bindMappings (sch : Schema) (mappings : List PipelineSlotMapping) (output : Row) :
    Avoids IsUnbound (bindMappings sch row mappings output) :=
  foldlM (fun _ => True) (fun mapping _ _ _ => (avoids_valueForSlot (hrow mapping.source)).bind fun _ _ =>
    avoids_bindPipelineValueToSlot _ _ _ _) (fun _ _ _ _ _ _ => trivial) trivial

theorem avoids_itemValue (item : NormalizedItem O) : Avoids IsUnbound (itemValue lang row item) := by
  rw [itemValue]
  split
  · exact avoids_valueForSlot (hrow _)
  · exact avoids_evalBoundGraphExpr lang hrow _
  · exact avoids_invalid _

theorem avoids_projectRow : Avoids IsUnbound (projectRow lang stage row) := by
  refine (avoids_bindMappings hrow _ _ _).bind fun output _ => ?_
  exact foldlM (fun _ => True) (fun item _ _ _ => (avoids_itemValue hrow item).bind fun _ _ =>
    avoids_bindPipelineValueToSlot _ _ _ _) (fun _ _ _ _ _ _ => trivial) trivial

end

theorem covers_projectRow {out : Row} (h : projectRow lang stage row = .ok out) :
    Covers (stage.internalMappings.map target ++ stage.items.map NormalizedItem.outputSlot) stage.outputSchema.length out := by
  obtain ⟨output, hmapped, h⟩ := bind_ok h
  have houtp : Covers ([] ++ stage.internalMappings.map target) stage.outputSchema.length output := by
    refine @covers_run _ _ _ _ _ _ _ _ stage.outputSchema (fun mapping _ before after hstep => ?_) (covers_emptyRow _) hmapped
    obtain ⟨value, -, hbind⟩ := bind_ok hstep
    exact ⟨value, hbind⟩
  refine @covers_run _ _ _ _ _ _ _ _ stage.outputSchema (fun item _ before after hstep => ?_) houtp h
  obtain ⟨value, -, hbind⟩ := bind_ok hstep
  exact ⟨value, hbind⟩

theorem avoids_enforcePipelineRows (count : ℕ) : Avoids IsUnbound (enforcePipelineRows opts stage count) := by
  rw [enforcePipelineRows]
  split
  · exact avoids_invalid _
  · exact avoids_ok _

variable {aggregate : NormalizedAggregate O}

structure GroupFits (aggregate : NormalizedAggregate O) (group : AggregateGroup lang.State) : Prop where
  values : group.values.length = aggregate.groupKeys.length
  states : group.states.length = aggregate.calls.length

theorem length_of_mapM {β : Type} {f : α → Except EvalError β} {l : List α} {ress : List β} (h : l.mapM f = .ok ress) :
    ress.length = l.length := (mapM_ok.mp h).length_eq.symm

theorem groupFits_newGroup {vs : List GraphEvalValue} (h : vs.length = aggregate.groupKeys.length) :
    GroupFits aggregate (newGroup lang aggregate vs) := ⟨h, length_map _⟩

theorem length_accumulateCalls {states states' : List lang.State} (h : states.length = aggregate.calls.length)
    (hstep : accumulateCalls lang aggregate row states = .ok states') : states'.length = aggregate.calls.length := by
  rw [length_of_mapM hstep, length_zip, h, Nat.min_self]

theorem groupFits_step {groups groups' : Groups lang} (h : ∀ ent ∈ groups, GroupFits aggregate ent.2)
    (hstep : accumulateRow lang opts aggregate groups row = .ok groups') : ∀ ent ∈ groups', GroupFits aggregate ent.2 := by
  obtain ⟨vs, hvals, hstep⟩ := bind_ok hstep
  obtain ⟨key, -, hstep⟩ := bind_ok hstep
  intro ent hent
  split at hstep
  · rename_i group hlk
    obtain ⟨states, hstas, hstep⟩ := bind_ok hstep
    obtain rfl := ok.inj hstep
    obtain ⟨before, hbef, rfl⟩ := mem_map.mp hent
    split
    · obtain ⟨before, after, rfl, -⟩ := lookup_eq_some_iff.mp hlk
      have hgrp := h (key, group) (by simp)
      exact ⟨hgrp.values, length_accumulateCalls hgrp.states hstas⟩
    · exact h before hbef
  · split at hstep
    · cases hstep
    · obtain ⟨states, hstas, hstep⟩ := bind_ok hstep
      obtain rfl := ok.inj hstep
      obtain hent | hent := mem_append.mp hent
      · exact h ent hent
      · obtain rfl := mem_singleton.mp hent
        have hnew := @groupFits_newGroup O Q lang aggregate vs (length_of_mapM hvals)
        exact ⟨hnew.values, length_accumulateCalls hnew.states hstas⟩

theorem avoids_accumulateRow {groups : Groups lang} (hrow : Filled row) :
    Avoids IsUnbound (accumulateRow lang opts aggregate groups row) := by
  have hcalls : ∀ states, Avoids IsUnbound (accumulateCalls lang aggregate row states) := by
    refine fun states => mapM fun ent _ => ?_
    rw [accumulateCall]
    split
    · exact avoids_raise _
    · refine (avoids_evalBoundGraphExpr lang hrow _).bind fun value _ => ?_
      split
      · exact avoids_ok _
      · exact avoids_raise _
  refine (Avoids.mapM fun group _ => avoids_evalBoundGraphExpr lang hrow group.expr).bind fun vs _ => ?_
  refine (Avoids.mapM fun value _ => avoids_graphCanonicalKeyForValue value).bind fun key _ => ?_
  split
  · exact (hcalls _).bind fun _ _ => avoids_ok _
  · split
    · exact avoids_invalid _
    · exact (hcalls _).bind fun _ _ => avoids_ok _

theorem avoids_groupEvalRow (group : AggregateGroup lang.State) : Avoids IsUnbound (groupEvalRow lang aggregate group) := by
  refine bind (foldlM (fun _ => True) (fun ent _ _ _ => avoids_bindPipelineValueToSlot _ _ _ _)
    (fun _ _ _ _ _ _ => trivial) trivial) fun evalRow _ => ?_
  exact foldlM (fun _ => True) (fun ent _ _ _ => (avoids_raise _).bind fun _ _ => avoids_bindPipelineValueToSlot _ _ _ _)
    (fun _ _ _ _ _ _ => trivial) trivial

theorem filled_groupEvalRow (hlaid : Laid inputSchema stage) (hagg : stage.aggregate = some aggregate)
    {group : AggregateGroup lang.State} (hgrp : GroupFits aggregate group) {evalRow : Row}
    (h : groupEvalRow lang aggregate group = .ok evalRow) : Filled evalRow := by
  obtain ⟨middle, hmid, h⟩ := bind_ok h
  have hvals : Covers ([] ++ (group.values.zip aggregate.groupKeys).map fun ent => ent.2.slot) aggregate.evalSchema.length middle :=
    @covers_run _ _ _ _ _ _ _ _ aggregate.evalSchema (fun ent _ before after hstep => ⟨_, hstep⟩) (covers_emptyRow _) hmid
  have hcalls := @covers_run _ _ _ _ _ _ _ (fun ent : lang.State × NormalizedAggregateCall O => ent.2.evalSlot)
    aggregate.evalSchema (fun ent _ before after hstep => by
      obtain ⟨value, -, hbind⟩ := bind_ok hstep
      exact ⟨value, hbind⟩) hvals h
  have hkeys : ((group.values.zip aggregate.groupKeys).map fun ent => ent.2.slot) = aggregate.groupKeys.map slot := by
    have hsnd := congrArg (List.map slot) (map_snd_zip hgrp.values.ge)
    rwa [map_map] at hsnd
  have hslots : ((group.states.zip aggregate.calls).map fun ent => ent.2.evalSlot) =
      aggregate.calls.map evalSlot := by
    have hsnd := congrArg (List.map evalSlot) (map_snd_zip hgrp.states.ge)
    rwa [map_map] at hsnd
  rw [hkeys, hslots, nil_append] at hcalls
  exact hcalls.filled (hlaid.groups aggregate hagg)

variable {ent : List GraphCanonicalKey × AggregateGroup lang.State}

theorem avoids_groupRow (hlaid : Laid inputSchema stage) (hagg : stage.aggregate = some aggregate)
    (hgrp : GroupFits aggregate ent.2) : Avoids IsUnbound (groupRow lang stage aggregate ent) := by
  refine (avoids_groupEvalRow ent.2).bind fun evalRow hevalRow => ?_
  have hfilled := filled_groupEvalRow hlaid hagg hgrp hevalRow
  refine bind ?_ fun output _ => bind ?_ fun output' _ => ?_
  · rw [bindCursor]
    split
    · exact avoids_ok _
    · exact (avoids_raise _).bind fun _ _ => avoids_bindPipelineValueToSlot _ _ _ _
  · exact foldlM (fun _ => True) (fun order _ _ _ => (avoids_evalBoundGraphExpr lang hfilled _).bind fun _ _ =>
      avoids_bindPipelineValueToSlot _ _ _ _) (fun _ _ _ _ _ _ => trivial) trivial
  · refine foldlM (fun _ => True) (fun item _ _ _ => ?_) (fun _ _ _ _ _ _ => trivial) trivial
    rw [bindAggregateItem]
    split
    · exact avoids_invalid _
    · exact (avoids_evalBoundGraphExpr lang hfilled _).bind fun _ _ => avoids_bindPipelineValueToSlot _ _ _ _

theorem covers_groupRow (hagg : stage.aggregate = some aggregate)
    {out : Row} (h : groupRow lang stage aggregate ent = .ok out) : StageRow stage out := by
  obtain ⟨evalRow, -, h⟩ := bind_ok h
  obtain ⟨start, hst, h⟩ := bind_ok h
  obtain ⟨output, houtp, h⟩ := bind_ok h
  have hcsr : Covers aggregate.internalCursorSlot.toList stage.outputSchema.length start := by
    rw [bindCursor] at hst
    split at hst
    · rename_i hnone
      rw [hnone, ← ok.inj hst]
      exact covers_emptyRow _
    · rename_i slot hsome
      obtain ⟨bytes, -, hbind⟩ := bind_ok hst
      rw [hsome]
      exact (covers_emptyRow _).bind hbind
  have horders := @covers_run _ _ _ _ _ _ _ slot stage.outputSchema (fun order _ before after hstep => by
      obtain ⟨value, -, hbind⟩ := bind_ok hstep
      exact ⟨value, hbind⟩) hcsr houtp
  have hitems := @covers_run _ _ _ _ _ _ _ NormalizedItem.outputSlot stage.outputSchema (fun item _ before after hstep => by
      rw [bindAggregateItem] at hstep
      split at hstep
      · cases hstep
      · obtain ⟨value, -, hbind⟩ := bind_ok hstep
        exact ⟨value, hbind⟩) horders h
  refine ⟨hitems.length, fun slot hslot => (hitems.unbound slot hslot).trans (not_congr ?_)⟩
  rw [projectedSlots, hagg]
  simp only [mem_append]
  tauto

theorem projected_spec (hlaid : Laid inputSchema stage) (hrows : ∀ row ∈ rows, Filled row) :
    Avoids IsUnbound (projectRows lang opts stage rows) ∧
      ∀ proj, projectRows lang opts stage rows = .ok proj → ∀ row ∈ proj, StageRow stage row := by
  rw [projectRows]
  split
  · rename_i hnone
    constructor
    · refine foldlM (fun _ => True) (fun row hrow _ _ => ?_) (fun _ _ _ _ _ _ => trivial) trivial
      exact (avoids_projectRow (hrows row hrow)).bind fun _ _ => (avoids_enforcePipelineRows _).bind fun _ _ => avoids_ok _
    · intro proj h
      refine foldlM_keeps (fun st : List Row => ∀ row ∈ st, StageRow stage row) (fun row _ st next hst hstep => ?_)
        (fun _ hmem => absurd hmem not_mem_nil) h
      obtain ⟨output, houtp, hstep⟩ := bind_ok hstep
      obtain ⟨_, -, hstep⟩ := bind_ok hstep
      obtain rfl := ok.inj hstep
      intro other hoth
      obtain hoth | hoth := mem_append.mp hoth
      · exact hst other hoth
      · obtain rfl := mem_singleton.mp hoth
        have hcovs := covers_projectRow houtp
        rw [StageRow, projectedSlots, hnone]
        exact hcovs
  · rename_i aggregate hagg
    have hfits : ∀ groups, rows.foldlM (accumulateRow lang opts aggregate) [] = .ok groups →
        ∀ ent ∈ groups, GroupFits aggregate ent.2 := fun groups hgrps =>
      foldlM_keeps (fun st : Groups lang => ∀ ent ∈ st, GroupFits aggregate ent.2) (fun row _ st next => groupFits_step)
        (fun _ hmem => absurd hmem not_mem_nil) hgrps
    have hord : ∀ groups, rows.foldlM (accumulateRow lang opts aggregate) [] = .ok groups →
        ∀ ent ∈ (if rows.isEmpty && aggregate.groupKeys.isEmpty then [([], newGroup lang aggregate [])] else groups).insertionSort
          fun a b => (compareKeyLists a.1 b.1).isLE, GroupFits aggregate ent.2 := by
      intro groups hgrps ent hent
      rw [mem_insertionSort] at hent
      split at hent
      · rename_i hemp
        obtain rfl := mem_singleton.mp hent
        have hnokeys := isEmpty_iff.mp ((Bool.and_eq_true _ _).mp hemp).2
        exact groupFits_newGroup (by rw [hnokeys]; rfl)
      · exact hfits groups hgrps ent hent
    constructor
    · refine bind ?_ fun groups hgrps => ?_
      · exact foldlM (fun _ => True) (fun row hrow _ _ => avoids_accumulateRow (hrows row hrow)) (fun _ _ _ _ _ _ => trivial) trivial
      · refine foldlM (fun _ => True) (fun ent hent _ _ => ?_) (fun _ _ _ _ _ _ => trivial) trivial
        exact (avoids_groupRow hlaid hagg (hord groups hgrps ent hent)).bind fun _ _ =>
          (avoids_enforcePipelineRows _).bind fun _ _ => avoids_ok _
    · intro proj h
      obtain ⟨groups, -, h⟩ := bind_ok h
      refine foldlM_keeps (fun st : List Row => ∀ row ∈ st, StageRow stage row) (fun ent _ st next hst hstep => ?_)
        (fun _ hmem => absurd hmem not_mem_nil) h
      obtain ⟨output, houtp, hstep⟩ := bind_ok hstep
      obtain ⟨_, -, hstep⟩ := bind_ok hstep
      obtain rfl := ok.inj hstep
      intro other hoth
      obtain hoth | hoth := mem_append.mp hoth
      · exact hst other hoth
      · obtain rfl := mem_singleton.mp hoth
        exact covers_groupRow hagg houtp

end

end OverGraph.StageResults
