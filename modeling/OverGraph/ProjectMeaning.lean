import OverGraph.StageResults

/-!
# The meaning of a projection stage

What a stage gives is defined step by step, without its caps and without its sort keys of whole rows, and compared with what it computes.
-/

namespace OverGraph.ProjectMeaning
open Except hiding map_id
open BindingRows SubqueryCaches PipelineExpressions ProjectStages StageResults SortKeys Fallible List Avoids

section
variable {α β : Type} [DecidableEq β] (key : α → β)

def firstOccurrences : List α → List α
  | [] => []
  | a :: l => a :: (firstOccurrences l).filter fun b => key b ≠ key a

theorem mem_of_mem_firstOccurrences {l : List α} {a : α} (h : a ∈ firstOccurrences key l) : a ∈ l := by
  induction l with
  | nil => exact h
  | cons b l ih =>
    rw [firstOccurrences] at h
    obtain rfl | h := mem_cons.mp h
    · exact mem_cons_self
    · exact mem_cons_of_mem _ (ih (mem_filter.mp h).1)

theorem firstOccurrences_eq_nil {l : List α} : firstOccurrences key l = [] ↔ l = [] := by
  cases l with
  | nil => exact Iff.rfl
  | cons a l => exact ⟨nofun, nofun⟩

end

section
variable {O Q : Type} (lang : Language O Q) (opts : ProjectOptions) (stage : NormalizedProjectStage O)

/-- Each slot holds what it is given, and those of subqueries nothing. -/
structure RowProjects (row out : Row) : Prop where
  width : out.length = stage.outputSchema.length
  mapped : ∀ mapping ∈ stage.internalMappings, ∃ value, valueForSlot row mapping.source = .ok value ∧
    out[mapping.target]? = some (storedState value)
  items : ∀ item ∈ stage.items, ∃ value, itemValue lang row item = .ok value ∧ out[item.outputSlot]? = some (storedState value)
  hidden : ∀ slot ∈ outputSlots stage.existsPredicates, out[slot]? = some .unbound

def Projects (rows proj : List Row) : Prop :=
  match stage.aggregate with
  | none => List.Forall₂ (RowProjects lang stage) rows proj
  | some aggregate => executePipelineAggregateStage lang opts stage aggregate rows = .ok proj

/-- Of the rows with equal values in the columns the first is kept. -/
def distinctRows (proj : List Row) : List Row :=
  if stage.distinct then firstOccurrences (fun row => graphCanonicalKeyForRowSlots row stage.distinctSlots) proj else proj

/-- The rows are sorted by their keys; without keys they stay as they are. -/
structure Ordered (unique ordered : List Row) : Prop where
  perm : ordered.Perm unique
  unsorted : stage.orderBy = [] → ordered = unique
  sorted : ordered.Pairwise fun a b => ∀ keyA keyB, pipelineExplicitSortKey lang stage a = .ok keyA →
    pipelineExplicitSortKey lang stage b = .ok keyB → (compareGraphFinalKeysByDirections (orderDirections stage) ⟨keyA, []⟩ ⟨keyB, []⟩).isLE

def keptRows (marked : List Row) : List Row :=
  match stage.whereExpr with
  | none => marked
  | some expr => marked.filter fun row => evalBoundGraphPredicate lang row expr = .ok true

/-- The rows are made distinct, sorted, cut and filtered, in this order. -/
structure Gives (budget : SubqueryInvocationBudget) (proj ordered marked out : List Row) : Prop where
  sorts : Ordered lang stage (distinctRows stage proj) ordered
  marks : ∃ budget', evaluatePipelineExistsPredicates stage budget (cut stage ordered) = .ok (marked, budget')
  keeps : out = keptRows lang stage marked

/-- The expressions that come after the projection evaluate. -/
structure Evaluates (budget : SubqueryInvocationBudget) (proj : List Row) : Prop where
  orders : ∀ row ∈ proj, ∃ key, pipelineExplicitSortKey lang stage row = .ok key
  filters : ∀ ordered, Ordered lang stage (distinctRows stage proj) ordered →
    ∃ marked budget', evaluatePipelineExistsPredicates stage budget (cut stage ordered) = .ok (marked, budget') ∧
      ∀ expr, stage.whereExpr = some expr → ∀ row ∈ marked, ∃ holds, evalBoundGraphPredicate lang row expr = .ok holds

structure WithinCaps (rows proj : List Row) : Prop where
  pipelineRows : stage.aggregate = none → stage.kind ≠ .return → rows.length ≤ opts.maxPipelineRows
  groups : stage.distinct = true → (distinctRows stage proj).length ≤ opts.maxGroups
  orderMaterialization : stage.orderBy ≠ [] → (distinctRows stage proj).length ≤ opts.maxOrderMaterialization
  skip : stage.skip ≤ opts.maxSkip

/-- The stage fails for no unbound slot, and gives what it means. -/
structure Right (budget : SubqueryInvocationBudget) (rows proj : List Row) : Prop where
  bound : ∀ slot, executePipelineProjectStage lang opts stage budget rows ≠ .error (.unbound slot)
  gives : ∃ ordered marked out, executePipelineProjectStage lang opts stage budget rows = .ok out ∧
    Gives lang stage budget proj ordered marked out

end

section
variable {O Q : Type} {lang : Language O Q} {opts : ProjectOptions} {stage : NormalizedProjectStage O} {inputSchema : Schema}

def Takes (info : Slot) (value : GraphEvalValue) : Prop := if value.isNull then info.nullable = true else info.kind.holds value = true

variable {row : Row} {sch : Schema}

theorem bind_takes {slot : ℕ} {info : Slot} {value : GraphEvalValue} (hinfo : sch[slot]? = some info)
    (hrow : row[slot]? = some .unbound) (htakes : Takes info value) :
    bindPipelineValueToSlot sch row slot value = .ok (row.set slot (storedState value)) := by
  rw [bindPipelineValueToSlot, hinfo, hrow]
  rw [Takes] at htakes
  by_cases hnull : value.isNull
  · rw [if_pos hnull] at htakes
    simp [hnull, htakes, storedState]
  · rw [if_neg hnull] at htakes
    simp [hnull, htakes, storedState]

theorem takes_of_admits {from' info : Slot} {state : SlotState} (h : from'.admits state = true) (hkind : info.kind = from'.kind)
    (hnull : info.nullable = from'.nullable) : Takes info state.value := by
  cases state with
  | unbound => cases h
  | null => exact hnull.trans h
  | bound value =>
    obtain ⟨hval, hhol⟩ := (Bool.and_eq_true _ _).mp h
    rw [Bool.not_eq_true'] at hval
    rw [Takes, SlotState.value, if_neg (by simp [hval]), hkind]
    exact hhol

/-- Values are bound to slots that are not yet bound. -/
theorem exists_bound {α : Type} {sch : Schema} (valueOf : α → Except EvalError GraphEvalValue) (tgt : α → ℕ) {l : List α} {row : Row}
    (hvals : ∀ a ∈ l, ∃ value info, valueOf a = .ok value ∧ sch[tgt a]? = some info ∧ Takes info value)
    (hnd : (l.map tgt).Nodup) (hrow : ∀ a ∈ l, row[tgt a]? = some .unbound) :
    ∃ row', l.foldlM (fun output a => do
        let value ← valueOf a
        bindPipelineValueToSlot sch output (tgt a) value) row = .ok row' ∧ row'.length = row.length ∧
      (∀ a ∈ l, ∃ value, valueOf a = .ok value ∧ row'[tgt a]? = some (storedState value)) ∧
      ∀ slot ∉ l.map tgt, row'[slot]? = row[slot]? := by
  induction l generalizing row with
  | nil => exact ⟨row, rfl, rfl, nofun, fun _ _ => rfl⟩
  | cons a l ih =>
    rw [map_cons, nodup_cons] at hnd
    obtain ⟨value, info, hval, hinfo, htakes⟩ := hvals a mem_cons_self
    have hbind := bind_takes hinfo (hrow a mem_cons_self) htakes
    obtain ⟨-, hlen, hoth, -, hself⟩ := bind_spec hbind
    have hne : ∀ b ∈ l, tgt b ≠ tgt a := fun b hb heq => hnd.1 (heq ▸ mem_map_of_mem hb)
    obtain ⟨row', hrun, hlength', hvals', hkept⟩ := @ih (row.set (tgt a) (storedState value))
      (fun b hb => hvals b (mem_cons_of_mem _ hb)) hnd.2
      (fun b hb => (hoth _ (hne b hb)).trans (hrow b (mem_cons_of_mem _ hb)))
    refine ⟨row', ?_, hlength'.trans hlen, fun b hb => ?_, fun slot hslot => ?_⟩
    · rw [foldlM_cons, hval, ok_bind, hbind, ok_bind, hrun]
    · obtain rfl | hb := mem_cons.mp hb
      · exact ⟨value, hval, (hkept _ hnd.1).trans (hself (hrow b mem_cons_self))⟩
      · exact hvals' b hb
    · rw [map_cons, mem_cons, not_or] at hslot
      exact (hkept slot hslot.2).trans (hoth slot hslot.1)

/-- The cursor of the input is never null. -/
def CursorSet (inputSchema : Schema) : Prop :=
  ∀ slot info, pipelineInternalCursorSlot inputSchema = some slot → inputSchema[slot]? = some info → info.nullable = false

section
variable (hlaid : Laid inputSchema stage) (hsca : stage.aggregate = none)
include hlaid hsca

theorem exists_rowProjects (hcsr : CursorSet inputSchema)
    (hrow : Fits inputSchema row) (hitems : ∀ item ∈ stage.items, ∃ value, itemValue lang row item = .ok value) :
    ∃ out, projectRow lang stage row = .ok out ∧ RowProjects lang stage row out := by
  have hlyt := hlaid.layout
  rw [projectedSlots, hsca] at hlyt
  have hnd : (stage.internalMappings.map PipelineSlotMapping.target ++ stage.items.map NormalizedItem.outputSlot).Nodup :=
    (nodup_append.mp (hlyt.slots.nodup_iff.mpr nodup_range)).1
  obtain ⟨hnodupMappings, hnodupItems, hdisj⟩ := nodup_append'.mp hnd
  have hread : ∀ slot info, inputSchema[slot]? = some info → ∃ state, valueForSlot row slot = .ok state.value ∧ info.admits state = true := by
    intro slot info hinfo
    obtain ⟨state, hsta, hadm⟩ := hrow.state hinfo
    exact ⟨state, by rw [valueForSlot, hsta]; exact evalValue_of_admits hadm slot, hadm⟩
  have hemp : ∀ (slot : ℕ) (info : Slot), stage.outputSchema[slot]? = some info → (emptyRow stage.outputSchema)[slot]? = some .unbound := by
    intro slot info hinfo
    rw [emptyRow, getElem?_map, hinfo]
    rfl
  have hmaps : ∀ mapping ∈ stage.internalMappings, ∃ value info, valueForSlot row mapping.source = .ok value ∧
      stage.outputSchema[mapping.target]? = some info ∧ Takes info value := by
    intro mapping hmap'
    obtain ⟨hsrc, info, hinfo, hkind, hnull⟩ := hlaid.mapped hsca mapping hmap'
    have hfnd := hsrc
    rw [pipelineInternalCursorSlot, findIdx?_eq_some_iff_getElem] at hfnd
    obtain ⟨hbd, hslot, -⟩ := hfnd
    have hfrom : inputSchema[mapping.source]? = some inputSchema[mapping.source] := List.getElem?_eq_getElem hbd
    obtain ⟨state, hval, hadm⟩ := hread _ _ hfrom
    refine ⟨state.value, info, hval, hinfo, takes_of_admits hadm ?_ ?_⟩
    · simp only [Bool.and_eq_true, beq_iff_eq] at hslot
      rw [hkind, hslot.1.1]
    · rw [hnull, hcsr _ _ hsrc hfrom]
  obtain ⟨output, houtp, hlen, hmapped, hkept⟩ := @exists_bound _ stage.outputSchema
    (fun mapping : PipelineSlotMapping => valueForSlot row mapping.source) PipelineSlotMapping.target _ (emptyRow stage.outputSchema)
    hmaps hnodupMappings (fun mapping hmap' => by
      obtain ⟨-, info, hinfo, -⟩ := hlaid.mapped hsca mapping hmap'
      exact hemp _ _ hinfo)
  have hitemInfo : ∀ item ∈ stage.items, ∃ info, stage.outputSchema[item.outputSlot]? = some info := by
    intro item hitem
    have hplaced := hlaid.placed hsca item hitem
    cases hsrc : item.sourceSlot with
    | none =>
      obtain ⟨-, info, hinfo, -⟩ := hplaced.computed hsrc
      exact ⟨info, hinfo⟩
    | some src =>
      obtain ⟨-, info, -, hinfo, -⟩ := hplaced.copied src hsrc
      exact ⟨info, hinfo⟩
  have htaken : ∀ item ∈ stage.items, ∃ value info, itemValue lang row item = .ok value ∧
      stage.outputSchema[item.outputSlot]? = some info ∧ Takes info value := by
    intro item hitem
    have hplaced := hlaid.placed hsca item hitem
    cases hsrc : item.sourceSlot with
    | none =>
      obtain ⟨value, hval⟩ := hitems item hitem
      obtain ⟨-, info, hinfo, hkind, hnull⟩ := hplaced.computed hsrc
      refine ⟨value, info, hval, hinfo, ?_⟩
      rw [Takes]
      split
      · exact hnull
      · rw [hkind]
        cases value <;> rfl
    | some src =>
      obtain ⟨hexpr, info, from', hinfo, hfrom, hkind, hnull⟩ := hplaced.copied src hsrc
      obtain ⟨state, hval, hadm⟩ := hread _ _ hfrom
      exact ⟨state.value, info, by rw [itemValue, hsrc, hexpr]; exact hval, hinfo, takes_of_admits hadm hkind hnull⟩
  obtain ⟨out, hout, hlengthOut, hitemsOut, hkeptOut⟩ := @exists_bound _ stage.outputSchema (itemValue lang row)
    NormalizedItem.outputSlot _ output htaken hnodupItems (fun item hitem => by
      obtain ⟨info, hinfo⟩ := hitemInfo item hitem
      rw [hkept _ fun hmem => hdisj hmem (mem_map_of_mem hitem)]
      exact hemp _ _ hinfo)
  have hprj : projectRow lang stage row = .ok out := by
    have hmap : bindMappings stage.outputSchema row stage.internalMappings (emptyRow stage.outputSchema) = .ok output := houtp
    rw [projectRow, hmap, ok_bind]
    exact hout
  refine ⟨out, hprj, ⟨hlengthOut.trans (hlen.trans (length_map _)), fun mapping hmap' => ?_, hitemsOut, fun slot hslot => ?_⟩⟩
  · obtain ⟨value, hval, hsto⟩ := hmapped mapping hmap'
    exact ⟨value, hval, (hkeptOut _ fun hmem => hdisj (mem_map_of_mem hmap') hmem).trans hsto⟩
  · have hcovs := covers_projectRow hprj
    obtain ⟨info, hinfo, -⟩ := hlyt.hidden slot hslot
    have hwid := (List.getElem?_eq_some_iff.mp hinfo).1
    exact (hcovs.unbound slot hwid).mpr fun hmem => (hlyt.mem_bound_iff hwid).mp hmem hslot

theorem RowProjects.unique {row out out' : Row}
    (h : RowProjects lang stage row out) (h' : RowProjects lang stage row out') : out = out' := by
  have hlyt := hlaid.layout
  rw [projectedSlots, hsca] at hlyt
  refine ext_getElem? fun slot => ?_
  by_cases hwid : slot < stage.outputSchema.length
  · have hmem := hlyt.slots.mem_iff.mpr (mem_range.mpr hwid)
    rw [mem_append, mem_append] at hmem
    obtain (hslot | hslot) | hslot := hmem
    · obtain ⟨mapping, hmap', rfl⟩ := mem_map.mp hslot
      obtain ⟨value, hval, hsto⟩ := h.mapped mapping hmap'
      obtain ⟨value', hval', hsto'⟩ := h'.mapped mapping hmap'
      rw [hval] at hval'
      obtain rfl := ok.inj hval'
      rw [hsto, hsto']
    · obtain ⟨item, hitem, rfl⟩ := mem_map.mp hslot
      obtain ⟨value, hval, hsto⟩ := h.items item hitem
      obtain ⟨value', hval', hsto'⟩ := h'.items item hitem
      rw [hval] at hval'
      obtain rfl := ok.inj hval'
      rw [hsto, hsto']
    · rw [h.hidden slot hslot, h'.hidden slot hslot]
  · rw [getElem?_eq_none (by rw [h.width]; omega), getElem?_eq_none (by rw [h'.width]; omega)]

/-- Rows that fit the input and whose items evaluate have a projection, which is what the stage computes within its caps. -/
theorem exists_projects (hcsr : CursorSet inputSchema) {rows : List Row}
    (hrows : ∀ row ∈ rows, Fits inputSchema row)
    (hitems : ∀ row ∈ rows, ∀ item ∈ stage.items, ∃ value, itemValue lang row item = .ok value) :
    ∃ proj, Projects lang opts stage rows proj := by
  have hall : ∀ row ∈ rows, ∃ out, RowProjects lang stage row out := fun row hrow => by
    obtain ⟨out, -, hout⟩ := exists_rowProjects hlaid hsca hcsr (hrows row hrow) (hitems row hrow)
    exact ⟨out, hout⟩
  obtain ⟨proj, hproj⟩ := exists_forall₂ hall
  refine ⟨proj, ?_⟩
  unfold Projects
  rwa [hsca]

end

theorem pushProjected_run {rows outs before : List Row} (h : Forall₂ (fun row out => projectRow lang stage row = .ok out) rows outs)
    (hcap : stage.kind ≠ .return → before.length + rows.length ≤ opts.maxPipelineRows) :
    rows.foldlM (pushProjected lang opts stage) before = .ok (before ++ outs) := by
  induction h generalizing before with
  | nil =>
    rw [append_nil]
    rfl
  | @cons row out rows outs hrow _ ih =>
    have hroom : enforcePipelineRows opts stage (before.length + 1) = .ok () := if_neg fun ⟨hkind, hlt⟩ => by
      have hle := hcap hkind
      rw [length_cons] at hle
      omega
    rw [foldlM_cons, pushProjected, hrow, ok_bind, hroom, ok_bind, ok_bind, ih, append_assoc, singleton_append]
    intro hkind
    have hle := hcap hkind
    rw [length_cons] at hle
    rw [length_append, length_singleton]
    omega

theorem projectRows_of_projects (hlaid : Laid inputSchema stage) (hcsr : CursorSet inputSchema) {rows proj : List Row}
    (hrows : ∀ row ∈ rows, Fits inputSchema row) (h : Projects lang opts stage rows proj)
    (hcap : stage.aggregate = none → stage.kind ≠ .return → rows.length ≤ opts.maxPipelineRows) :
    projectRows lang opts stage rows = .ok proj := by
  rw [projectRows]
  unfold Projects at h
  cases hsca : stage.aggregate with
  | some aggregate =>
    rw [hsca] at h
    exact h
  | none =>
    rw [hsca] at h
    have hprj : Forall₂ (fun row out => projectRow lang stage row = .ok out) rows proj := by
      refine forall₂_imp_mem h fun row hrow out hout => ?_
      have hitems : ∀ item ∈ stage.items, ∃ value, itemValue lang row item = .ok value := fun item hitem => by
        obtain ⟨value, hval, -⟩ := hout.items item hitem
        exact ⟨value, hval⟩
      obtain ⟨out', hout', hproj⟩ := exists_rowProjects hlaid hsca hcsr (hrows row hrow) hitems
      rwa [hout.unique hlaid hsca hproj]
    exact @pushProjected_run _ _ _ opts _ _ _ [] hprj fun hkind => by
      rw [length_nil, Nat.zero_add]
      exact hcap hsca hkind

theorem distinct_run {st : Unique} {rows : List Row} (hkd : ∀ row ∈ rows, ∃ key, graphCanonicalKeyForRowSlots row stage.distinctSlots = .ok key)
    (hcap : st.seen.length + ((firstOccurrences (fun row => graphCanonicalKeyForRowSlots row stage.distinctSlots) rows).filter
      fun row => ∀ key ∈ st.seen, graphCanonicalKeyForRowSlots row stage.distinctSlots ≠ .ok key).length ≤ opts.maxGroups) :
    ∃ st', rows.foldlM (distinctStep opts stage) st = .ok st' ∧
      st'.rows = st.rows ++ (firstOccurrences (fun row => graphCanonicalKeyForRowSlots row stage.distinctSlots) rows).filter
        fun row => ∀ key ∈ st.seen, graphCanonicalKeyForRowSlots row stage.distinctSlots ≠ .ok key := by
  induction rows generalizing st with
  | nil => exact ⟨st, rfl, (append_nil _).symm⟩
  | cons row rows ih =>
    obtain ⟨key, hkey⟩ := hkd row mem_cons_self
    have hrest := fun other hoth => hkd other (mem_cons_of_mem _ hoth)
    rw [firstOccurrences, filter_cons, filter_filter] at hcap ⊢
    rw [foldlM_cons, distinctStep, hkey, ok_bind]
    by_cases hseen : key ∈ st.seen
    · -- The row is dropped, and so are those with its key.
      have hfalse : ¬∀ other ∈ st.seen, (Except.ok key : Except EvalError _) ≠ .ok other := fun h => h key hseen rfl
      have hfil : ∀ l : List Row, l.filter (fun other => decide (∀ key ∈ st.seen, graphCanonicalKeyForRowSlots other stage.distinctSlots ≠ .ok key) &&
          decide (graphCanonicalKeyForRowSlots other stage.distinctSlots ≠ .ok key)) =
          l.filter fun other => ∀ key ∈ st.seen, graphCanonicalKeyForRowSlots other stage.distinctSlots ≠ .ok key := by
        refine fun l => filter_congr fun other _ => ?_
        rw [← Bool.decide_and, decide_eq_decide]
        exact ⟨And.left, fun h => ⟨h, h key hseen⟩⟩
      have hdrop : ¬decide (∀ other ∈ st.seen, (Except.ok key : Except EvalError _) ≠ .ok other) = true := by rwa [decide_eq_true_iff]
      rw [hkey, if_neg hdrop, hfil] at hcap
      rw [if_neg hdrop, hfil, if_pos hseen, ok_bind]
      exact ih hrest hcap
    · have htrue : ∀ other ∈ st.seen, (Except.ok key : Except EvalError _) ≠ .ok other := fun other hoth heq =>
        hseen (ok.inj heq ▸ hoth)
      have hfil : ∀ l : List Row, l.filter (fun other => decide (∀ key ∈ st.seen, graphCanonicalKeyForRowSlots other stage.distinctSlots ≠ .ok key) &&
          decide (graphCanonicalKeyForRowSlots other stage.distinctSlots ≠ .ok key)) =
          l.filter fun other => ∀ key' ∈ st.seen ++ [key], graphCanonicalKeyForRowSlots other stage.distinctSlots ≠ .ok key' := by
        refine fun l => filter_congr fun other _ => ?_
        rw [← Bool.decide_and, decide_eq_decide, forall_mem_append, forall_mem_singleton]
      rw [hkey, if_pos (decide_eq_true htrue), hfil, length_cons] at hcap
      rw [if_pos (decide_eq_true htrue), hfil, if_neg hseen, if_neg (by omega), ok_bind]
      obtain ⟨st', hrun, hrows⟩ := @ih ⟨st.seen ++ [key], st.rows ++ [row]⟩ hrest (by
        dsimp only
        rw [length_append, length_singleton]
        omega)
      exact ⟨st', hrun, by rw [hrows, append_assoc, singleton_append]⟩

variable {proj : List Row}

theorem distinct_ok_iff (hdist : stage.distinct = true)
    (hcap : (distinctRows stage proj).length ≤ opts.maxGroups) :
    (∃ unique, pipelineApplyDistinct opts stage proj = .ok unique) ↔
      ∀ row ∈ proj, ∃ key, graphCanonicalKeyForRowSlots row stage.distinctSlots = .ok key := by
  constructor
  · rintro ⟨unique, h⟩ row hrow
    obtain ⟨st, hst, -⟩ := bind_ok h
    obtain ⟨before, after, hstep⟩ := foldlM_steps hst hrow
    obtain ⟨key, hkey, -⟩ := bind_ok hstep
    exact ⟨key, hkey⟩
  · intro hkd
    obtain ⟨st, hst, -⟩ := @distinct_run O opts stage ⟨[], []⟩ proj hkd (by simpa [distinctRows, hdist] using hcap)
    exact ⟨st.rows, by rw [pipelineApplyDistinct, hst, ok_bind]⟩

theorem distinct_eq {proj unique : List Row} (hdist : stage.distinct = true)
    (hcap : (distinctRows stage proj).length ≤ opts.maxGroups)
    (h : pipelineApplyDistinct opts stage proj = .ok unique) : unique = distinctRows stage proj := by
  have hkd := (distinct_ok_iff hdist hcap).mp ⟨unique, h⟩
  obtain ⟨st, hst, hrows⟩ := @distinct_run O opts stage ⟨[], []⟩ proj hkd (by simpa [distinctRows, hdist] using hcap)
  rw [pipelineApplyDistinct, hst, ok_bind] at h
  rw [← ok.inj h, hrows, distinctRows, if_pos hdist]
  simp

theorem mem_of_mem_distinctRows (h : row ∈ distinctRows stage proj) : row ∈ proj := by
  rw [distinctRows] at h
  split at h
  · exact mem_of_mem_firstOccurrences _ h
  · exact h

theorem distinctRows_eq_nil : distinctRows stage proj = [] ↔ proj = [] := by
  rw [distinctRows]
  split
  · exact firstOccurrences_eq_nil _
  · exact Iff.rfl

/-- The keys of whole rows only decide between rows with equal sort keys. -/
theorem isLE_sortKeys {directions : List GraphOrderDirection} {left right : FinalKey} (h : (compareSortKeys directions left right).isLE) :
    (compareSortKeys directions ⟨left.sortKey, []⟩ ⟨right.sortKey, []⟩).isLE := by
  induction directions generalizing left right with
  | nil => rfl
  | cons dir directions ih =>
    obtain ⟨leftSort, left⟩ := left
    obtain ⟨rightSort, right⟩ := right
    cases leftSort with
    | nil => exact h
    | cons leftAtom leftSort =>
      cases rightSort with
      | nil => exact h
      | cons rightAtom rightSort =>
        rw [compareSortKeys] at h ⊢
        cases hfst : compareDirected dir leftAtom rightAtom with
        | lt => rfl
        | gt =>
          rw [hfst] at h
          cases h
        | eq =>
          rw [hfst] at h
          exact ih h

theorem ordered_of_sort {unique ordered : List Row} (hor : stage.orderBy ≠ [])
    (h : sortPipelineRows lang stage unique = .ok ordered) : Ordered lang stage unique ordered := by
  obtain ⟨keyed, hkd, h⟩ := bind_ok h
  obtain rfl := ok.inj h
  have hall := mapM_ok.mp hkd
  have hkeys : ∀ entry ∈ keyed, pipelineExplicitSortKey lang stage entry.1 = .ok entry.2.sortKey := by
    intro entry hent
    obtain ⟨row, -, hrow⟩ := forall₂_mem hall.flip hent
    obtain ⟨sortKey, hsortKey, hrow⟩ := bind_ok hrow
    obtain ⟨logicalKey, -, hrow⟩ := bind_ok hrow
    rw [← ok.inj hrow]
    exact hsortKey
  have hrows : keyed.map Prod.fst = unique := by
    have hfst := map_eq_of_forall₂ (f := id) (g := Prod.fst) (forall₂_same.mpr fun row _ => rfl :
      Forall₂ (fun a b => b = a) unique unique) hall fun row _ a entry ha hent => by
        obtain ⟨sortKey, -, hent⟩ := bind_ok hent
        obtain ⟨logicalKey, -, hent⟩ := bind_ok hent
        rw [← ok.inj hent, ha]
        rfl
    rwa [map_id] at hfst
  have htotal : Std.Total fun a b : Row × FinalKey => (compareGraphFinalKeysByDirections (orderDirections stage) a.2 b.2).isLE := by
    constructor
    intro left right
    by_cases hle : (compareGraphFinalKeysByDirections (orderDirections stage) left.2 right.2).isLE
    · exact Or.inl hle
    · refine Or.inr ?_
      rw [Std.OrientedCmp.lt_of_not_isLE hle]
      rfl
  have htrans : IsTrans (Row × FinalKey) fun a b => (compareGraphFinalKeysByDirections (orderDirections stage) a.2 b.2).isLE :=
    ⟨fun _ _ _ => Std.TransCmp.isLE_trans⟩
  refine ⟨?_, fun hnone => absurd hnone hor, ?_⟩
  · rw [← hrows]
    exact (perm_insertionSort _ _).map _
  · rw [pairwise_map]
    refine (pairwise_insertionSort _ keyed).imp_of_mem fun {a b} ha hb hle keyA keyB hkeyA hkeyB => ?_
    rw [hkeys a ((mem_insertionSort _).mp ha)] at hkeyA
    rw [hkeys b ((mem_insertionSort _).mp hb)] at hkeyB
    rw [← ok.inj hkeyA, ← ok.inj hkeyB]
    exact isLE_sortKeys hle

theorem sort_ok_iff {unique : List Row} (hkeys : ∀ row ∈ unique, ∃ key, pipelineExplicitSortKey lang stage row = .ok key) :
    (∃ ordered, sortPipelineRows lang stage unique = .ok ordered) ↔
      ∀ row ∈ unique, ∃ key, logicalSortKey stage.outputSchema row = .ok key := by
  constructor
  · rintro ⟨ordered, h⟩ row hrow
    obtain ⟨keyed, hkd, -⟩ := bind_ok h
    obtain ⟨entry, -, hent⟩ := forall₂_mem (mapM_ok.mp hkd) hrow
    obtain ⟨sortKey, -, hent⟩ := bind_ok hent
    obtain ⟨logicalKey, hlogicalKey, -⟩ := bind_ok hent
    exact ⟨logicalKey, hlogicalKey⟩
  · intro hlogi
    have hall : ∀ row ∈ unique, ∃ entry, keyedRow lang stage row = .ok entry := fun row hrow => by
      obtain ⟨sortKey, hsortKey⟩ := hkeys row hrow
      obtain ⟨logicalKey, hlogicalKey⟩ := hlogi row hrow
      exact ⟨(row, ⟨sortKey, logicalKey⟩), by rw [keyedRow, hsortKey, ok_bind, hlogicalKey, ok_bind]⟩
    obtain ⟨keyed, hkd⟩ := exists_forall₂ hall
    exact ⟨_, by rw [sortPipelineRows, mapM_ok.mpr hkd, ok_bind]⟩

/-- A key of the whole row is made of atoms of bound slots. -/
theorem logicalSortKey_ok_iff (hwid : row.length = sch.length) : (∃ key, logicalSortKey sch row = .ok key) ↔
      Filled row ∧ ∀ state ∈ row, ∃ atom, graphLogicalSortAtomForValue state.value = .ok atom := by
  have hread : ∀ (slot : ℕ) (state : SlotState), row[slot]? = some state → state ≠ .unbound → valueForSlot row slot = .ok state.value := by
    intro slot state hsta hbd
    rw [valueForSlot, hsta]
    cases state with
    | unbound => exact absurd rfl hbd
    | null | bound value => rfl
  constructor
  · rintro ⟨key, hkey⟩
    have hslots : ∀ slot < row.length, ∃ atom, slotSortAtom row slot = .ok atom := fun slot hslot => by
      obtain ⟨atom, -, hatom⟩ := forall₂_mem (mapM_ok.mp hkey) (mem_range.mpr (hwid ▸ hslot))
      exact ⟨atom, hatom⟩
    have hfilled : Filled row := by
      intro slot hslot
      obtain ⟨atom, hatom⟩ := hslots slot (List.getElem?_eq_some_iff.mp hslot).1
      obtain ⟨value, hval, -⟩ := bind_ok hatom
      rw [valueForSlot, hslot] at hval
      cases hval
    refine ⟨hfilled, fun state hsta => ?_⟩
    obtain ⟨slot, hslot, rfl⟩ := mem_iff_getElem.mp hsta
    have hget : row[slot]? = some row[slot] := List.getElem?_eq_getElem hslot
    obtain ⟨atom, hatom⟩ := hslots slot hslot
    rw [slotSortAtom, hread slot _ hget (fun hunb => hfilled slot (hget.trans (congrArg some hunb))), ok_bind] at hatom
    exact ⟨atom, hatom⟩
  · rintro ⟨hfilled, hatoms⟩
    have hall : ∀ slot ∈ range sch.length, ∃ atom, slotSortAtom row slot = .ok atom := fun slot hslot => by
      have hbd : slot < row.length := hwid ▸ mem_range.mp hslot
      have hget : row[slot]? = some row[slot] := List.getElem?_eq_getElem hbd
      obtain ⟨atom, hatom⟩ := hatoms row[slot] (getElem_mem hbd)
      refine ⟨atom, ?_⟩
      rw [slotSortAtom, hread slot _ hget (fun hunb => hfilled slot (hget.trans (congrArg some hunb))), ok_bind, hatom]
    obtain ⟨key, hkey⟩ := exists_forall₂ hall
    exact ⟨key, mapM_ok.mpr hkey⟩

theorem filter_run {expr : BoundExpr O} {marked before : List Row}
    (h : ∀ row ∈ marked, ∃ holds, evalBoundGraphPredicate lang row expr = .ok holds) :
    marked.foldlM (filterStep lang expr) before =
      .ok (before ++ marked.filter fun row => evalBoundGraphPredicate lang row expr = .ok true) := by
  induction marked generalizing before with
  | nil =>
    rw [filter_nil, append_nil]
    rfl
  | cons row marked ih =>
    obtain ⟨holds, hhol⟩ := h row mem_cons_self
    rw [foldlM_cons, filterStep, hhol, ok_bind, ok_bind, ih fun other hoth => h other (mem_cons_of_mem _ hoth), filter_cons, hhol]
    cases holds <;> simp

end

section
variable {O Q : Type} {lang : Language O Q} {opts : ProjectOptions} {stage : NormalizedProjectStage O} {inputSchema : Schema}

variable {rows : List Row}

section
variable (hlaid : Laid inputSchema stage) (hrows : ∀ row ∈ rows, StageRow stage row) (bud : SubqueryInvocationBudget)
include hlaid hrows

theorem evaluated_spec : Avoids IsUnbound (evaluatePipelineExistsPredicates stage bud rows) ∧
      ∀ marked budget', evaluatePipelineExistsPredicates stage bud rows = .ok (marked, budget') → ∀ row ∈ marked, Filled row := by
  have hnamed : ∀ slot, NamedByUser stage.outputSchema slot → slot < stage.outputSchema.length ∧ slot ∈ projectedSlots stage := by
    intro slot hname
    obtain ⟨info, hinfo, -⟩ := id hname
    have hwid := (List.getElem?_eq_some_iff.mp hinfo).1
    exact ⟨hwid, (hlaid.layout.mem_bound_iff hwid).mpr fun hhid => (hlaid.layout.hidden slot hhid).not_named hname⟩
  obtain ⟨havoids, hcovs⟩ := evaluated_run hlaid.ready hnamed hrows bud
  refine ⟨havoids, fun marked budget' h row hrow => ?_⟩
  exact (hcovs marked budget' h row hrow).filled fun slot hslot => hlaid.layout.slots.mem_iff.mpr (mem_range.mpr hslot)

theorem avoids_filterRows : Avoids IsUnbound (filterRows lang stage bud rows) := by
  obtain ⟨havoids, hfilled⟩ := evaluated_spec hlaid hrows bud
  refine havoids.bind fun ⟨marked, budget'⟩ hmarked => ?_
  cases stage.whereExpr with
  | none => exact avoids_ok _
  | some expr =>
    refine foldlM (fun _ => True) (fun row hrow _ _ => ?_) (fun _ _ _ _ _ _ => trivial) trivial
    exact (avoids_evalBoundGraphPredicate lang (hfilled marked budget' hmarked row hrow) expr).bind fun _ _ => avoids_ok _

end

section
variable {row : Row} (hlaid : Laid inputSchema stage)
include hlaid

theorem stageRow_named (h : StageRow stage row) {slot : ℕ}
    (hslot : NamedByUser stage.outputSchema slot) : row[slot]? ≠ some .unbound := by
  intro hunb
  obtain ⟨info, hinfo, -⟩ := id hslot
  have hwid := (List.getElem?_eq_some_iff.mp hinfo).1
  refine (h.unbound slot hwid).mp hunb ((hlaid.layout.mem_bound_iff hwid).mpr fun hhid => ?_)
  exact (hlaid.layout.hidden slot hhid).not_named hslot

theorem stageRow_filled (hexi : stage.existsPredicates = []) (h : StageRow stage row) :
    Filled row := by
  refine Covers.filled h fun slot hslot => (hlaid.layout.mem_bound_iff hslot).mpr ?_
  rw [hexi]
  exact not_mem_nil

/-- A slot of a subquery is unbound before the filter. -/
theorem stageRow_not_filled (hexi : stage.existsPredicates ≠ []) (h : StageRow stage row) :
    ¬Filled row := by
  obtain ⟨pred, hpred⟩ := exists_mem_of_ne_nil _ hexi
  have hslot : pred.predicate.outputSlot ∈ outputSlots stage.existsPredicates := mem_map_of_mem hpred
  obtain ⟨info, hinfo, -⟩ := hlaid.layout.hidden _ hslot
  have hwid := (List.getElem?_eq_some_iff.mp hinfo).1
  exact fun hfilled => hfilled _ ((h.unbound _ hwid).mpr fun hmem => (hlaid.layout.mem_bound_iff hwid).mp hmem hslot)

end

theorem avoids_sortPipelineRows (hrows : ∀ row ∈ rows, Filled row) : Avoids IsUnbound (sortPipelineRows lang stage rows) := by
  refine bind (mapM fun row hrow => ?_) fun _ _ => avoids_ok _
  refine bind (mapM fun item _ => ?_) fun _ _ => bind (mapM fun slot _ => ?_) fun _ _ => avoids_ok _
  · exact (avoids_evalBoundGraphExpr lang (hrows row hrow) _).bind fun _ _ => avoids_graphSortAtomForValue _
  · exact (avoids_valueForSlot (hrows row hrow slot)).bind fun _ _ => avoids_graphLogicalSortAtomForValue _

theorem mem_of_distinct {proj unique : List Row}
    (h : uniqueRows opts stage proj = .ok unique) : ∀ row ∈ unique, row ∈ proj := by
  rw [uniqueRows] at h
  split at h
  · obtain ⟨st, hst, h⟩ := bind_ok h
    rw [← ok.inj h]
    refine foldlM_keeps (fun st : ProjectStages.Unique => ∀ row ∈ st.rows, row ∈ proj) (fun row hrow st next hmem hstep => ?_)
      (fun _ hmem => absurd hmem not_mem_nil) hst
    obtain ⟨key, -, hstep⟩ := bind_ok hstep
    split at hstep
    · exact ok.inj hstep ▸ hmem
    split at hstep
    · cases hstep
    · rw [← ok.inj hstep]
      intro other hoth
      obtain hoth | hoth := mem_append.mp hoth
      · exact hmem other hoth
      · obtain rfl := mem_singleton.mp hoth
        exact hrow
  · exact fun row hrow => ok.inj h ▸ hrow

theorem mem_of_order {unique ordered : List Row} (h : orderRows lang opts stage unique = .ok ordered) : ∀ row ∈ ordered, row ∈ unique := by
  rw [orderRows] at h
  split at h
  · exact fun row hrow => ok.inj h ▸ hrow
  split at h
  · cases h
  · rename_i hnemp _
    have hor : stage.orderBy ≠ [] := fun hnil => hnemp (by rw [hnil]; rfl)
    exact fun row hrow => (ordered_of_sort hor h).perm.mem_iff.mp hrow

theorem mem_of_mem_cut {row : Row} (h : row ∈ cut stage rows) : row ∈ rows := by
  rw [cut] at h
  split at h
  · exact mem_of_mem_drop h
  · exact mem_of_mem_drop (mem_of_mem_take h)

/-- Without an order, and without subqueries in the filter, no step reads an unbound slot. -/
theorem avoids_execute (hlaid : Laid inputSchema stage) (hrows : ∀ row ∈ rows, Filled row)
    (hsafe : stage.orderBy = [] ∨ stage.existsPredicates = []) (bud : SubqueryInvocationBudget) :
    Avoids IsUnbound (executePipelineProjectStage lang opts stage bud rows) := by
  obtain ⟨havoids, hproj⟩ := @projected_spec rows O Q lang opts stage inputSchema hlaid hrows
  refine havoids.bind fun proj hprj => bind ?_ fun unique huniq => bind ?_ fun ordered hord => ?_
  · rw [uniqueRows]
    split
    · refine bind ?_ fun _ _ => avoids_ok _
      refine foldlM (fun _ => True) (fun row hrow _ _ => ?_) (fun _ _ _ _ _ _ => trivial) trivial
      refine (avoids_rowKey fun slot hslot => stageRow_named hlaid (hproj proj hprj row hrow) (hlaid.distinct slot hslot)).bind fun key _ => ?_
      split
      · exact avoids_ok _
      split
      · exact avoids_invalid _
      · exact avoids_ok _
    · exact avoids_ok _
  · rw [orderRows]
    split
    · exact avoids_ok _
    split
    · exact avoids_invalid _
    · rename_i hnemp _
      have hexi : stage.existsPredicates = [] := hsafe.resolve_left fun hnil => hnemp (by rw [hnil]; rfl)
      exact avoids_sortPipelineRows fun row hrow => stageRow_filled hlaid hexi (hproj proj hprj row (mem_of_distinct huniq row hrow))
  · split
    · exact avoids_invalid _
    · exact avoids_filterRows hlaid (fun row hrow => hproj proj hprj row
        (mem_of_distinct huniq row (mem_of_order hord row (mem_of_mem_cut hrow)))) bud

theorem uniqueRows_eq {proj : List Row} (hcap : stage.distinct = true → (distinctRows stage proj).length ≤ opts.maxGroups) :
    (∃ unique, uniqueRows opts stage proj = .ok unique) ↔
      (stage.distinct = true → ∀ row ∈ proj, ∃ key, graphCanonicalKeyForRowSlots row stage.distinctSlots = .ok key) := by
  rw [uniqueRows]
  split
  · rename_i hdist
    rw [distinct_ok_iff hdist (hcap hdist)]
    exact ⟨fun h _ => h, fun h => h hdist⟩
  · rename_i hdist
    exact ⟨fun _ h => absurd h hdist, fun _ => ⟨proj, rfl⟩⟩

theorem unique_eq {proj unique : List Row} (hcap : stage.distinct = true → (distinctRows stage proj).length ≤ opts.maxGroups)
    (h : uniqueRows opts stage proj = .ok unique) : unique = distinctRows stage proj := by
  rw [uniqueRows] at h
  split at h
  · rename_i hdist
    exact distinct_eq hdist (hcap hdist) h
  · rename_i hdist
    rw [distinctRows, if_neg hdist, ok.inj h]

/-- Rows are sorted unless one of them has a slot that is not bound yet, or a value that has no place in the order. -/
def Sortable (stage : NormalizedProjectStage O) (proj : List Row) : Prop :=
  stage.orderBy = [] ∨ proj = [] ∨ (stage.existsPredicates = [] ∧
    ∀ row ∈ distinctRows stage proj, ∀ state ∈ row, ∃ atom, graphLogicalSortAtomForValue state.value = .ok atom)

theorem ordered_of_unsorted {unique : List Row} (hor : stage.orderBy = []) : Ordered lang stage unique unique := by
  refine ⟨Perm.refl _, fun _ => rfl, pairwise_of_forall fun a b keyA keyB hkeyA hkeyB => ?_⟩
  rw [orderDirections, hor]
  rfl

theorem orderRows_iff (hlaid : Laid inputSchema stage) {proj : List Row} (hproj : ∀ row ∈ proj, StageRow stage row)
    (hkeys : ∀ row ∈ proj, ∃ key, pipelineExplicitSortKey lang stage row = .ok key)
    (hcap : stage.orderBy ≠ [] → (distinctRows stage proj).length ≤ opts.maxOrderMaterialization) :
    ((∃ ordered, orderRows lang opts stage (distinctRows stage proj) = .ok ordered) ↔ Sortable stage proj) ∧
      ∀ ordered, orderRows lang opts stage (distinctRows stage proj) = .ok ordered →
        Ordered lang stage (distinctRows stage proj) ordered := by
  rw [orderRows]
  by_cases hor : stage.orderBy = []
  · rw [if_pos (by rw [hor]; rfl)]
    refine ⟨⟨fun _ => Or.inl hor, fun _ => ⟨_, rfl⟩⟩, fun ordered h => ?_⟩
    rw [← ok.inj h]
    exact ordered_of_unsorted hor
  · rw [if_neg (by rwa [List.isEmpty_iff]), if_neg (by have hle := hcap hor; omega)]
    refine ⟨?_, fun ordered h => ordered_of_sort hor h⟩
    have huniq : ∀ row ∈ distinctRows stage proj, StageRow stage row := fun row hrow => hproj row (mem_of_mem_distinctRows hrow)
    rw [sort_ok_iff fun row hrow => hkeys row (mem_of_mem_distinctRows hrow)]
    constructor
    · intro hlogi
      by_cases hemp : proj = []
      · exact Or.inr (Or.inl hemp)
      have hall := fun row hrow => (logicalSortKey_ok_iff (huniq row hrow).length).mp (hlogi row hrow)
      refine Or.inr (Or.inr ⟨?_, fun row hrow => (hall row hrow).2⟩)
      by_contra hexi
      obtain ⟨row, hrow⟩ := exists_mem_of_ne_nil _ (distinctRows_eq_nil.not.mpr hemp : distinctRows stage proj ≠ [])
      exact stageRow_not_filled hlaid hexi (huniq row hrow) (hall row hrow).1
    · rintro (hnil | hemp | ⟨hexi, hatoms⟩)
      · exact absurd hnil hor
      · rw [distinctRows_eq_nil.mpr hemp]
        exact nofun
      · intro row hrow
        exact (logicalSortKey_ok_iff (huniq row hrow).length).mpr ⟨stageRow_filled hlaid hexi (huniq row hrow), hatoms row hrow⟩

theorem filled_of_fits {sch : Schema} {row : Row} (h : Fits sch row) : Filled row := by
  intro slot hslot
  have hbd : slot < sch.length := h.length ▸ (List.getElem?_eq_some_iff.mp hslot).1
  obtain ⟨state, hsta, hadm⟩ := h.state (List.getElem?_eq_getElem hbd)
  rw [hslot] at hsta
  obtain rfl := Option.some.inj hsta
  cases hadm

theorem right_iff (hlaid : Laid inputSchema stage) (hcsr : CursorSet inputSchema) {rows proj : List Row}
    (hrows : ∀ row ∈ rows, Fits inputSchema row) {bud : SubqueryInvocationBudget} (hproj : Projects lang opts stage rows proj)
    (hcaps : WithinCaps opts stage rows proj) (heval : Evaluates lang stage bud proj) :
    Right lang opts stage bud rows proj ↔
      (stage.distinct = true → ∀ row ∈ proj, ∃ key, graphCanonicalKeyForRowSlots row stage.distinctSlots = .ok key) ∧
        Sortable stage proj := by
  have hprj := projectRows_of_projects hlaid hcsr hrows hproj hcaps.pipelineRows
  have hstageRows := (projected_spec hlaid fun row hrow => filled_of_fits (hrows row hrow)).2 proj hprj
  obtain ⟨hsortable, hord⟩ := orderRows_iff hlaid hstageRows heval.orders hcaps.orderMaterialization
  constructor
  · rintro ⟨-, ordered, marked, out, hrun, -⟩
    rw [executePipelineProjectStage, hprj, ok_bind] at hrun
    obtain ⟨unique, huniq, hrun⟩ := bind_ok hrun
    obtain ⟨sorted, hsort, -⟩ := bind_ok hrun
    rw [unique_eq hcaps.groups huniq] at hsort
    exact ⟨(uniqueRows_eq hcaps.groups).mp ⟨unique, huniq⟩, hsortable.mp ⟨sorted, hsort⟩⟩
  · rintro ⟨hkd, hsorts⟩
    obtain ⟨unique, huniq⟩ := (uniqueRows_eq hcaps.groups).mpr hkd
    obtain ⟨ordered, hsort⟩ := hsortable.mpr hsorts
    have horders := hord ordered hsort
    obtain ⟨marked, budget', hmarked, hhol⟩ := heval.filters ordered horders
    have hfil : filterRows lang stage bud (cut stage ordered) = .ok (keptRows lang stage marked) := by
      rw [filterRows, hmarked, ok_bind, keptRows]
      cases hwhere : stage.whereExpr with
      | none => rfl
      | some expr => exact filter_run (hhol expr hwhere)
    have hrun : executePipelineProjectStage lang opts stage bud rows = .ok (keptRows lang stage marked) := by
      rw [executePipelineProjectStage, hprj, ok_bind, huniq, ok_bind, unique_eq hcaps.groups huniq, hsort, ok_bind,
        if_neg (by have hle := hcaps.skip; omega), hfil]
    refine ⟨fun slot herr => ?_, ordered, marked, _, hrun, horders, ⟨budget', hmarked⟩, rfl⟩
    rw [hrun] at herr
    cases herr

/-- A stage whose filter asks for subqueries does not fail for an unbound slot unless it sorts. Within its caps, and where its expressions
evaluate, it gives what it means if and only if rows to be made distinct have keys and rows to be sorted have no slot of a subquery and no
value without a place in the order. -/
theorem project_stage_right_iff {stage : GraphProjectStage O Q} {normalized : NormalizedProjectStage O} {subqueryDepth : ℕ}
    (hnormal : normalizePipelineProjectStage lang opts subqueryDepth stage inputSchema = .ok normalized)
    (hcursor : CursorSet inputSchema) {rows : List Row} (hrows : ∀ row ∈ rows, Fits inputSchema row) (budget : SubqueryInvocationBudget) :
    (normalized.orderBy = [] ∨ normalized.existsPredicates = [] →
      ∀ slot, executePipelineProjectStage lang opts normalized budget rows ≠ .error (.unbound slot)) ∧
    (normalized.aggregate = none → (∀ row ∈ rows, ∀ item ∈ normalized.items, ∃ value, itemValue lang row item = .ok value) →
      ∃ proj, Projects lang opts normalized rows proj) ∧
    ∀ proj, Projects lang opts normalized rows proj → WithinCaps opts normalized rows proj →
      Evaluates lang normalized budget proj → (Right lang opts normalized budget rows proj ↔
          (normalized.distinct = true → ∀ row ∈ proj, ∃ key, graphCanonicalKeyForRowSlots row normalized.distinctSlots = .ok key) ∧
            Sortable normalized proj) := by
  have hlaid := laid_of_normalized hnormal
  refine ⟨fun hsafe slot herror => ?_, fun hscalar hitems => exists_projects hlaid hscalar hcursor hrows hitems,
    fun proj => right_iff hlaid hcursor hrows⟩
  exact avoids_execute hlaid (fun row hrow => filled_of_fits (hrows row hrow)) hsafe budget _ herror trivial

end

/-- A language without operators, in which every subquery has a row. -/
def plainLanguage : Language Empty Unit where
  sameOperator _ _ := true
  sameQuery _ _ := true
  buildsCollection _ := false
  containsAggregate _ := false
  evaluate operator _ := nomatch operator
  evaluate_unbound {operator} := nomatch operator
  readField _ _ := .ok .null
  prepare _ _ := .ok fun _ => .ok ⟨true, 0⟩
  State := Unit
  newState _ _ := ()
  accumulate _ _ := .ok ()
  finalValue _ := .ok .null
  encodeKeys _ := .ok []

def plainOptions : ProjectOptions where
  maxSubqueryInvocations := 10
  maxPipelineRows := 10
  maxGroups := 10
  maxSubqueryDepth := 10
  maxOrderMaterialization := 10
  maxSkip := 10

/-- `WITH x ORDER BY x WHERE EXISTS { .. }`, or without the order. -/
def withExists (orderBy : List (GraphOrderItem Empty Unit)) : GraphProjectStage Empty Unit where
  kind := .with
  items := .items [⟨.binding "x", none⟩]
  distinct := false
  whereExpr := some (.existsSubquery ["x"] ())
  orderBy := orderBy
  skip := none
  limit := none

def runStage (stage : GraphProjectStage Empty Unit) (rows : List Row) : Except EvalError (List Row) := do
  let normalized ← normalizePipelineProjectStage plainLanguage plainOptions 0 stage xSchema
  executePipelineProjectStage plainLanguage plainOptions normalized ⟨10, 0⟩ rows

/-- The order makes the stage fail. -/
theorem sorted_exists_unbound : runStage (withExists [⟨.binding "x", .asc⟩]) [[.bound (.int 1)]] = .error (.unbound 1) ∧
    runStage (withExists []) [[.bound (.int 1)]] = .ok [[.bound (.int 1), .bound (.bool true)]] := by
  constructor <;> rfl

/-- `WITH DISTINCT x ORDER BY x`. -/
def distinctSorted : GraphProjectStage Empty Unit where
  kind := .with
  items := .items [⟨.binding "x", none⟩]
  distinct := true
  whereExpr := none
  orderBy := [⟨.binding "x", .asc⟩]
  skip := none
  limit := none

def distinctSortedStage : NormalizedProjectStage Empty where
  kind := .with
  distinct := true
  inputSchema := xSchema
  outputSchema := xSchema
  items := [⟨"x", 0, some 0, none, none⟩]
  internalMappings := []
  distinctSlots := [0]
  aggregate := none
  whereExpr := none
  existsPredicates := []
  orderBy := [⟨.binding 0, .asc⟩]
  skip := 0
  limit := none

theorem right_distinctSorted : Right plainLanguage plainOptions distinctSortedStage ⟨10, 0⟩ intRows intRows := by
  have hmem : ∀ row ∈ intRows, ∃ value, row = [.bound (.int value)] := by
    intro row hrow
    simp only [intRows, mem_cons, not_mem_nil, or_false] at hrow
    rcases hrow with rfl | rfl | rfl <;> exact ⟨_, rfl⟩
  have hfits : ∀ row ∈ intRows, Fits xSchema row := by
    intro row hrow
    obtain ⟨value, rfl⟩ := hmem row hrow
    exact List.Forall₂.cons rfl List.Forall₂.nil
  obtain ⟨-, -, hright⟩ := @project_stage_right_iff Empty Unit plainLanguage plainOptions xSchema distinctSorted distinctSortedStage 0 rfl
    (fun slot info hslot => by cases hslot) intRows hfits ⟨10, 0⟩
  refine (hright intRows ?_ ⟨by decide, fun _ => by decide, fun _ => by decide, by decide⟩ ⟨fun row hrow => ?_, fun ordered _ => ?_⟩).mpr
    ⟨fun _ row hrow => ?_, Or.inr (Or.inr ⟨rfl, fun row hrow state hstate => ?_⟩)⟩
  · refine forall₂_same.mpr fun row hrow => ?_
    obtain ⟨value, rfl⟩ := hmem row hrow
    refine ⟨rfl, ?_, fun item hitem => ?_, ?_⟩
    · rintro _ ⟨⟩
    · obtain rfl := mem_singleton.mp hitem
      exact ⟨.int value, rfl, rfl⟩
    · rintro _ ⟨⟩
  · obtain ⟨value, rfl⟩ := hmem row hrow
    exact ⟨_, rfl⟩
  · refine ⟨_, _, rfl, ?_⟩
    rintro _ ⟨⟩
  · obtain ⟨value, rfl⟩ := hmem row hrow
    exact ⟨_, rfl⟩
  · obtain ⟨value, rfl⟩ := hmem row (mem_of_mem_distinctRows hrow)
    obtain rfl := mem_singleton.mp hstate
    exact ⟨_, rfl⟩

end OverGraph.ProjectMeaning
