import Mathlib.Algebra.Group.TransferInstance
import Mathlib.Tactic.Abel
import OverGraph.Tallies
import OverGraph.Records

/-!
# Degrees kept as deltas

The engine does not count the edges of a node. Each layer carries the changes its writes
made to the degree of each node, and a read adds them up. What an edge contributes is
taken out when the edge is rewritten or deleted and put in when it is written, so the sum
over all layers is the tally of the edges. Weights are summed exactly, in any
commutative group.
-/

namespace OverGraph.Degrees
open AssocMaps Records Tallies List

/-- The change one layer makes to the degree of a node. -/
@[ext] structure DegreeDelta (W : Type) where
  outDegree : ℤ
  inDegree : ℤ
  outWeightSum : W
  inWeightSum : W
  selfLoopCount : ℤ
  selfLoopWeightSum : W
  temporalEdgeCount : ℤ
  deriving DecidableEq

namespace DegreeDelta
variable {W : Type}

/-- The fields of a delta. -/
def fields : DegreeDelta W ≃ ℤ × ℤ × W × W × ℤ × W × ℤ where
  toFun d := (d.outDegree, d.inDegree, d.outWeightSum, d.inWeightSum, d.selfLoopCount, d.selfLoopWeightSum, d.temporalEdgeCount)
  invFun f := ⟨f.1, f.2.1, f.2.2.1, f.2.2.2.1, f.2.2.2.2.1, f.2.2.2.2.2.1, f.2.2.2.2.2.2⟩
  left_inv _ := rfl
  right_inv _ := rfl

instance [AddCommGroup W] : AddCommGroup (DegreeDelta W) := fields.addCommGroup

variable [AddCommGroup W]

def outDegreeHom : DegreeDelta W →+ ℤ where
  toFun := outDegree
  map_zero' := rfl
  map_add' _ _ := rfl

@[simp] theorem outDegreeHom_apply (d : DegreeDelta W) : outDegreeHom d = d.outDegree := rfl

def inDegreeHom : DegreeDelta W →+ ℤ where
  toFun := inDegree
  map_zero' := rfl
  map_add' _ _ := rfl

@[simp] theorem inDegreeHom_apply (d : DegreeDelta W) : inDegreeHom d = d.inDegree := rfl

def selfLoopCountHom : DegreeDelta W →+ ℤ where
  toFun := selfLoopCount
  map_zero' := rfl
  map_add' _ _ := rfl

@[simp] theorem selfLoopCountHom_apply (d : DegreeDelta W) : selfLoopCountHom d = d.selfLoopCount := rfl

def temporalEdgeCountHom : DegreeDelta W →+ ℤ where
  toFun := temporalEdgeCount
  map_zero' := rfl
  map_add' _ _ := rfl

@[simp] theorem temporalEdgeCountHom_apply (d : DegreeDelta W) : temporalEdgeCountHom d = d.temporalEdgeCount := rfl

def addValidEdge (source target : ℕ) (weight : W) : DegreeDelta W :=
  if source = target then ⟨1, 1, weight, weight, 1, weight, 0⟩ else ⟨1, 0, weight, 0, 0, 0, 0⟩

def addValidEdgeIncoming (weight : W) : DegreeDelta W := ⟨0, 1, 0, weight, 0, 0, 0⟩

def removeValidEdge (source target : ℕ) (weight : W) : DegreeDelta W := -addValidEdge source target weight

def removeValidEdgeIncoming (weight : W) : DegreeDelta W := -addValidEdgeIncoming weight

def addTemporalMarker : DegreeDelta W := ⟨0, 0, 0, 0, 0, 0, 1⟩

def removeTemporalMarker : DegreeDelta W := ⟨0, 0, 0, 0, 0, 0, -1⟩

theorem removeTemporalMarker_eq : removeTemporalMarker = -(addTemporalMarker : DegreeDelta W) := by
  refine DegreeDelta.ext rfl rfl ?_ ?_ rfl ?_ rfl <;> exact (neg_zero (G := W)).symm

end DegreeDelta

/-- The deltas of one layer; nodes without an entry are unchanged. -/
abbrev Overlay (W : Type) := Map ℕ (DegreeDelta W)

namespace Overlay
variable {W : Type} [AddCommGroup W] [DecidableEq W]

omit [DecidableEq W] in
def get (o : Overlay W) (nodeId : ℕ) : DegreeDelta W := (o.lookup nodeId).getD 0

/-- Entries that become zero are removed. -/
def addDelta (o : Overlay W) (nodeId : ℕ) (delta : DegreeDelta W) : Overlay W :=
  if delta = 0 then o
  else
    let entry := get o nodeId + delta
    if entry = 0 then o.erase nodeId else o.insert nodeId entry

theorem get_addDelta (o : Overlay W) (nodeId n : ℕ) (delta : DegreeDelta W) :
    get (addDelta o nodeId delta) n = get o n + if nodeId = n then delta else 0 := by
  rw [addDelta]
  split
  · rename_i hzero
    simp [hzero]
  · dsimp only
    by_cases hn : nodeId = n
    · subst hn
      split
      · rename_i hsum
        rw [get, AList.lookup_erase, if_pos rfl, hsum]
        rfl
      · simp [get]
    · have hne : n ≠ nodeId := fun h => hn h.symm
      split
      · rw [get, AList.lookup_erase_ne hne, add_zero, get]
      · rw [get, AList.lookup_insert_ne hne, add_zero, get]

/-- Add every entry of a map of deltas. -/
def addAll (o : Overlay W) (deltas : Overlay W) : Overlay W := deltas.entries.foldl (fun o e => addDelta o e.1 e.2) o

theorem get_foldl_addDelta (entries : List (Sigma fun _ : ℕ => DegreeDelta W))
    (h : entries.NodupKeys) (o : Overlay W) (n : ℕ) : get (entries.foldl (fun o e => addDelta o e.1 e.2) o) n =
      get o n + (entries.dlookup n).getD 0 := by
  induction entries generalizing o with
  | nil => simp
  | cons e entries ih =>
    obtain ⟨nodeId, delta⟩ := e
    obtain ⟨hnew, hrest⟩ := nodupKeys_cons.mp h
    rw [foldl_cons, ih hrest, get_addDelta]
    by_cases hn : nodeId = n
    · subst hn
      rw [dlookup_eq_none.mpr hnew, dlookup_cons_eq]
      simp
    · have hne : n ≠ nodeId := fun heq => hn heq.symm
      rw [dlookup_cons_ne entries (⟨nodeId, delta⟩ : Sigma fun _ : ℕ => DegreeDelta W) hne]
      simp [hn]

theorem get_addAll (o deltas : Overlay W) (n : ℕ) : get (addAll o deltas) n = get o n + get deltas n :=
  get_foldl_addDelta deltas.entries deltas.nodupKeys o n

/-- The sidecar of a flushed overlay. -/
def sortedEntries (o : Overlay W) : Overlay W := filterMapEntries (fun _ delta => if delta = 0 then none else some delta) o

@[simp] theorem get_sortedEntries (o : Overlay W) (n : ℕ) : get (sortedEntries o) n = get o n := by
  rw [get, sortedEntries, lookup_filterMapEntries, get]
  cases o.lookup n with
  | none => rfl
  | some delta => by_cases h : delta = 0 <;> simp [h]

/-- The sidecar a compaction writes: the sums of the inputs' entries. -/
def foldSidecars (sidecars : List (Overlay W)) : Overlay W := sidecars.foldl addAll ∅

theorem get_foldl_addAll (sidecars : List (Overlay W)) (o : Overlay W) (n : ℕ) :
    get (sidecars.foldl addAll o) n = get o n + (sidecars.map (get · n)).sum := by
  induction sidecars generalizing o with
  | nil => simp
  | cons s sidecars ih => rw [foldl_cons, ih, get_addAll, map_cons, sum_cons, add_assoc]

theorem get_foldSidecars (sidecars : List (Overlay W)) (n : ℕ) : get (foldSidecars sidecars) n = (sidecars.map (get · n)).sum := by
  rw [foldSidecars, get_foldl_addAll]
  exact zero_add _

end Overlay

/-- The fields of an edge that its contribution depends on. -/
structure EdgeCore where
  source : ℕ
  target : ℕ
  createdAt : ℤ
  updatedAt : ℤ
  weight : F32
  validFrom : ℤ
  validTo : ℤ

def edgeCore (e : EdgeRecord) : EdgeCore := ⟨e.source, e.target, e.createdAt, e.updatedAt, e.weight, e.validFrom, e.validTo⟩

def isEdgeValidAt (validFrom validTo now : ℤ) : Bool := decide (validFrom ≤ now) && decide (validTo > now)

/-- An edge with an explicit validity interval. -/
def isCacheBypassEdge (validFrom validTo createdAt : ℤ) : Bool := decide (validTo ≠ i64Max) || decide (validFrom > createdAt)

namespace EdgeCore

/-- The edge was valid when it was written. -/
def valid (e : EdgeCore) : Bool := isEdgeValidAt e.validFrom e.validTo e.updatedAt

def temporal (e : EdgeCore) : Bool := isCacheBypassEdge e.validFrom e.validTo e.createdAt

end EdgeCore

section
variable {W : Type} [AddCommGroup W] [DecidableEq W] (val : F32 → W)
open DegreeDelta Overlay

def addValidEdgeDelta (deltas : Overlay W) (e : EdgeCore) (add : Bool) : Overlay W :=
  let deltas := addDelta deltas e.source
    (if add then addValidEdge e.source e.target (val e.weight)
      else removeValidEdge e.source e.target (val e.weight))
  if e.source ≠ e.target then
    addDelta deltas e.target
      (if add then addValidEdgeIncoming (val e.weight) else removeValidEdgeIncoming (val e.weight))
  else deltas

def addTemporalEdgeDelta (deltas : Overlay W) (e : EdgeCore) (add : Bool) : Overlay W :=
  let delta := if add then addTemporalMarker else removeTemporalMarker
  let deltas := addDelta deltas e.source delta
  if e.source ≠ e.target then addDelta deltas e.target delta else deltas

/-- Put the contribution of an edge in, or take it out. -/
def collectEdge (deltas : Overlay W) (e : EdgeCore) (add : Bool) : Overlay W :=
  let deltas := if e.valid then addValidEdgeDelta val deltas e add else deltas
  if e.temporal then addTemporalEdgeDelta deltas e add else deltas

def collectDegreeDeltaForOldEdge (deltas : Overlay W) (old : EdgeCore) : Overlay W := collectEdge val deltas old false

def collectDegreeDeltaForNewEdge (deltas : Overlay W) (edge : EdgeCore) : Overlay W := collectEdge val deltas edge true

def collectDegreeDeltaForOp (op : WalOp) (oldEdge : Option EdgeCore) (deltas : Overlay W) : Overlay W :=
  match op with
  | .upsertEdge edge =>
    let deltas := match oldEdge with
      | some old => collectDegreeDeltaForOldEdge val deltas old
      | none => deltas
    collectDegreeDeltaForNewEdge val deltas (edgeCore edge)
  | .deleteEdge _ _ =>
    match oldEdge with
    | some old => collectDegreeDeltaForOldEdge val deltas old
    | none => deltas
  | _ => deltas

/-- What an edge contributes to the degree of a node. -/
def edgeDelta (n : ℕ) (e : EdgeCore) : DegreeDelta W :=
  (if e.valid then
    (if e.source = n then addValidEdge e.source e.target (val e.weight) else 0) +
      (if e.source ≠ e.target ∧ e.target = n then addValidEdgeIncoming (val e.weight) else 0)
  else 0) +
  (if e.temporal ∧ (e.source = n ∨ e.target = n) then addTemporalMarker else 0)

/-- A contribution, with its sign. -/
private def signed (add : Bool) (delta : DegreeDelta W) : DegreeDelta W := if add then delta else -delta

omit [DecidableEq W] in
theorem ite_neg (add : Bool) (delta : DegreeDelta W) : (if add = true then delta else -delta) = signed add delta := rfl

omit [DecidableEq W] in
theorem signed_zero (add : Bool) : signed add (0 : DegreeDelta W) = 0 := by cases add <;> simp [signed]

omit [DecidableEq W] in
theorem signed_add (add : Bool) (a b : DegreeDelta W) : signed add (a + b) = signed add a + signed add b := by
  cases add <;> simp [signed, add_comm]

omit [DecidableEq W] in
theorem signed_ite (add : Bool) (p : Prop) [Decidable p] (delta : DegreeDelta W) :
    signed add (if p then delta else 0) = if p then signed add delta else 0 := by
  by_cases h : p
  · rw [if_pos h, if_pos h]
  · rw [if_neg h, if_neg h, signed_zero]

section
variable (deltas : Overlay W) (e : EdgeCore) (add : Bool) (n : ℕ)

theorem get_addValidEdgeDelta :
    get (addValidEdgeDelta val deltas e add) n = get deltas n + signed add
      ((if e.source = n then addValidEdge e.source e.target (val e.weight) else 0) +
        (if e.source ≠ e.target ∧ e.target = n then addValidEdgeIncoming (val e.weight) else 0)) := by
  simp only [addValidEdgeDelta, removeValidEdge, removeValidEdgeIncoming, ite_neg]
  rw [signed_add, signed_ite, signed_ite]
  by_cases hloop : e.source = e.target
  · rw [if_neg (not_not.mpr hloop), get_addDelta]
    simp [hloop]
  · rw [if_pos hloop, get_addDelta, get_addDelta, add_assoc]
    simp [hloop]

theorem get_addTemporalEdgeDelta :
    get (addTemporalEdgeDelta deltas e add) n = get deltas n + signed add
      (if e.source = n ∨ e.target = n then addTemporalMarker else 0) := by
  simp only [addTemporalEdgeDelta, removeTemporalMarker_eq, ite_neg]
  rw [signed_ite]
  by_cases hloop : e.source = e.target
  · rw [if_neg (not_not.mpr hloop), get_addDelta]
    simp [hloop]
  · rw [if_pos hloop, get_addDelta, get_addDelta, add_assoc]
    by_cases hs : e.source = n
    · have ht : e.target ≠ n := fun ht => hloop (hs.trans ht.symm)
      simp [hs, ht]
    · simp [hs]

theorem get_collectEdge :
    get (collectEdge val deltas e add) n = get deltas n + signed add (edgeDelta val n e) := by
  rw [collectEdge, edgeDelta, signed_add]
  cases hv : e.valid <;> cases ht : e.temporal <;>
    simp [get_addTemporalEdgeDelta, get_addValidEdgeDelta, signed_zero, add_assoc]

end

/-- Collecting the deltas of an operation replaces the old contribution by the new one. -/
theorem get_collectDegreeDeltaForOp_upsert (edge : EdgeRecord) (oldEdge : Option EdgeCore)
    (deltas : Overlay W) (n : ℕ) :
    get (collectDegreeDeltaForOp val (.upsertEdge edge) oldEdge deltas) n = get deltas n +
      (edgeDelta val n (edgeCore edge) - worthAt (edgeDelta val n) oldEdge) := by
  cases oldEdge with
  | none => simp [collectDegreeDeltaForOp, collectDegreeDeltaForNewEdge, get_collectEdge, signed]
  | some old =>
    simp only [collectDegreeDeltaForOp, collectDegreeDeltaForNewEdge, collectDegreeDeltaForOldEdge,
      get_collectEdge, signed, if_true, Bool.false_eq_true, if_false, worthAt_some]
    abel

theorem get_collectDegreeDeltaForOp_delete (id : ℕ) (deletedAt : ℤ) (oldEdge : Option EdgeCore)
    (deltas : Overlay W) (n : ℕ) :
    get (collectDegreeDeltaForOp val (.deleteEdge id deletedAt) oldEdge deltas) n = get deltas n +
      (0 - worthAt (edgeDelta val n) oldEdge) := by
  cases oldEdge with
  | none => simp [collectDegreeDeltaForOp]
  | some old => simp [collectDegreeDeltaForOp, collectDegreeDeltaForOldEdge, get_collectEdge, signed]

end

section
variable {W : Type} [AddCommGroup W] (val : F32 → W)
open DegreeDelta

/-- The degree of a node in a view of the edges. -/
noncomputable def degreeIn (view : ℕ → Option EdgeRecord) (n : ℕ) : DegreeDelta W := tally (fun e => edgeDelta val n (edgeCore e)) view

theorem worthAt_core (n : ℕ) (edge : Option EdgeRecord) : worthAt (fun e => edgeDelta val n (edgeCore e)) edge =
      worthAt (edgeDelta val n) (edge.map edgeCore) := by
  cases edge <;> rfl

variable {view : ℕ → Option EdgeRecord}

theorem degreeIn_update (h : Finitely view) (id : ℕ) (edge : Option EdgeRecord) (n : ℕ) :
    degreeIn val (Function.update view id edge) n = degreeIn val view n +
      (worthAt (edgeDelta val n) (edge.map edgeCore) - worthAt (edgeDelta val n) ((view id).map edgeCore)) := by
  rw [degreeIn, tally_update h, worthAt_core, worthAt_core, degreeIn]

/-- The degree deltas are those of the edges shown: the sums of their contributions, and in
particular the numbers of edges that leave and enter the node, that do both, and that
have an explicit validity. -/
structure Counted (view : ℕ → Option EdgeRecord) (sum : ℕ → DegreeDelta W) : Prop where
  total : ∀ n, sum n = degreeIn val view n
  outgoing : ∀ n, (sum n).outDegree = {id | ∃ e, view id = some e ∧ (edgeCore e).valid = true ∧ e.source = n}.ncard
  incoming : ∀ n, (sum n).inDegree = {id | ∃ e, view id = some e ∧ (edgeCore e).valid = true ∧ e.target = n}.ncard
  selfLoops : ∀ n, (sum n).selfLoopCount = {id | ∃ e, view id = some e ∧ (edgeCore e).valid = true ∧ e.source = n ∧ e.target = n}.ncard
  temporal : ∀ n, (sum n).temporalEdgeCount =
    {id | ∃ e, view id = some e ∧ (edgeCore e).temporal = true ∧ (e.source = n ∨ e.target = n)}.ncard

/-- An additive field of the tally counts the edges that contribute one to it. -/
theorem field_tally (hfin : Finitely view)
    (field : DegreeDelta W →+ ℤ) (n : ℕ) (p : EdgeRecord → Prop) [DecidablePred p]
    (h : ∀ e, field (edgeDelta val n (edgeCore e)) = if p e then 1 else 0) :
    field (degreeIn val view n) = {id | ∃ e, view id = some e ∧ p e}.ncard := by
  rw [degreeIn, map_tally hfin, funext h, tally_indicator hfin]

theorem field_edgeDelta (field : DegreeDelta W →+ ℤ) (n : ℕ) (e : EdgeRecord) : field (edgeDelta val n (edgeCore e)) =
      (if (edgeCore e).valid then
        (if e.source = n then field (.addValidEdge e.source e.target (val e.weight)) else 0) +
        (if e.source ≠ e.target ∧ e.target = n then field (.addValidEdgeIncoming (val e.weight)) else 0)
      else 0) +
      (if (edgeCore e).temporal ∧ (e.source = n ∨ e.target = n) then field .addTemporalMarker else 0) := by
  simp only [edgeDelta, map_add, apply_ite field, map_zero]
  rfl

theorem counted_of_total (hfin : Finitely view)
    {sum : ℕ → DegreeDelta W} (h : ∀ n, sum n = degreeIn val view n) : Counted val view sum := by
  constructor
  case total => exact h
  all_goals
    intro n
    rw [h]
  case' outgoing => apply field_tally val hfin outDegreeHom n
  case' incoming => apply field_tally val hfin inDegreeHom n
  case' selfLoops => apply field_tally val hfin selfLoopCountHom n
  case' temporal => apply field_tally val hfin temporalEdgeCountHom n
  all_goals
    intro e
    rw [field_edgeDelta]
    by_cases hs : e.source = n <;> by_cases ht : e.target = n <;>
      simp [hs, ht, eq_comm (a := n), addValidEdge, addValidEdgeIncoming, addTemporalMarker]

end
end OverGraph.Degrees
