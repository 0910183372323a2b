import OverGraph.SecondaryHeads
import OverGraph.SnapshotStability

/-!
# Indexes are coherent at every snapshot

The heads of all indexes are the entries of the live records, after every run. A snapshot sees the
heads of the memtable that received the operations up to it, so that at every snapshot the indexes
hold the entries of the records that are live there, and nothing else.
-/

namespace OverGraph.IndexCoherence
open Option hiding mem_map
open AssocMaps VersionedSlots Records Memtable GraphView SecondaryEntries SnapshotReads SnapshotStability IndexedMemtable RecordState
open List hiding indexesOf
open TrackedIndexes IndexFamily IndexHeads SecondaryHeads

section
variable {φ ψ κ : Type} [DecidableEq κ] (N : IndexFamily φ NodeRecord κ) (E : IndexFamily ψ EdgeRecord κ)

def bothEntries (nodes : ℕ → Option NodeRecord) (edges : ℕ → Option EdgeRecord) (k : ℕ × κ × ℕ) : Option Unit :=
  (entriesOf (fun k => k.2.2) N.entry nodes k).or (entriesOf (fun k => k.2.2) E.entry edges k)

/-- No index is declared for nodes and for edges. -/
def Apart : Prop := ∀ i, N.declared i = none ∨ E.declared i = none

variable {N E}

theorem entriesOf_undeclared {ρ χ : Type} {F : IndexFamily χ ρ κ} {k : ℕ × κ × ℕ} (h : F.declared k.1 = none) (view : ℕ → Option ρ) :
    entriesOf (fun k => k.2.2) F.entry view k = none := by
  rw [entriesOf]
  cases view k.2.2 with
  | none => rfl
  | some r => simp [entry, h]

theorem Apart.edges_none (h : Apart N E) (edges : ℕ → Option EdgeRecord) (k : ℕ × κ × ℕ) (what : ℕ × φ)
    (hk : N.declared k.1 = some what) : entriesOf (fun k => k.2.2) E.entry edges k = none := by
  apply entriesOf_undeclared
  rcases h k.1 with hnone | hnone
  · rw [hk] at hnone
    cases hnone
  · exact hnone

section
variable (h : Apart N E) (nodes : ℕ → Option NodeRecord)
include h

theorem Apart.nodes_none (k : ℕ × κ × ℕ) (what : ℕ × ψ)
    (hk : E.declared k.1 = some what) : entriesOf (fun k => k.2.2) N.entry nodes k = none := by
  apply entriesOf_undeclared
  rcases h k.1 with hnone | hnone
  · exact hnone
  · rw [hk] at hnone
    cases hnone

theorem Apart.comm (edges : ℕ → Option EdgeRecord) (k : ℕ × κ × ℕ) :
    bothEntries N E nodes edges k = (entriesOf (fun k => k.2.2) E.entry edges k).or (entriesOf (fun k => k.2.2) N.entry nodes k) := by
  rw [bothEntries]
  rcases h k.1 with hnone | hnone
  · rw [entriesOf_undeclared hnone, none_or, or_none]
  · rw [entriesOf_undeclared hnone edges, none_or, or_none]

end

end

theorem apart_eq (enc : IndexEncoders) (decls : Map ℕ SecondaryIndexEntry) : Apart (nodeEqFamily enc decls) (edgeEqFamily enc decls) := by
  intro i
  simp only [nodeEqFamily, edgeEqFamily, declaredAs]
  cases decls.lookup i with
  | none => exact .inl rfl
  | some entry =>
    obtain ⟨_, target, kind⟩ := entry
    cases target <;> cases kind <;> simp [nodeEqTarget, edgeEqTarget]

theorem apart_range (decls : Map ℕ SecondaryIndexEntry) : Apart (nodeRangeFamily decls) (edgeRangeFamily decls) := by
  intro i
  simp only [nodeRangeFamily, edgeRangeFamily, declaredAs]
  cases decls.lookup i with
  | none => exact .inl rfl
  | some entry =>
    obtain ⟨_, target, kind⟩ := entry
    cases target <;> cases kind <;> simp [nodeRangeTarget, edgeRangeTarget]

theorem apart_field (enc : IndexEncoders) (decls : Map ℕ SecondaryIndexEntry) :
    Apart (nodeFieldFamily enc decls) (edgeFieldFamily enc decls) := by
  intro i
  simp only [nodeFieldFamily, edgeFieldFamily, declaredAs]
  cases decls.lookup i with
  | none => exact .inl rfl
  | some entry =>
    obtain ⟨_, target, kind⟩ := entry
    cases target <;> simp [nodeFieldTarget, edgeFieldTarget]

variable (enc : IndexEncoders)

/-- The entries of an equality index, a range index and a compound index. -/
def eqEntries (decls : Map ℕ SecondaryIndexEntry) := bothEntries (nodeEqFamily enc decls) (edgeEqFamily enc decls)

def rangeEntries (decls : Map ℕ SecondaryIndexEntry) := bothEntries (nodeRangeFamily decls) (edgeRangeFamily decls)

def compoundEntries (decls : Map ℕ SecondaryIndexEntry) := bothEntries (nodeFieldFamily enc decls) (edgeFieldFamily enc decls)

/-- The heads of all indexes are the entries of the live records. -/
structure HeadsExact (m : IndexedMemtable) : Prop where
  registered : Registered m
  indexed : Indexed m.base
  orderedOut : Tracks m.orderedAdjOut (entriesOf Prod.snd outEntry m.base.currentEdge)
  orderedIn : Tracks m.orderedAdjIn (entriesOf Prod.snd inEntry m.base.currentEdge)
  orderedLabels : Tracks m.orderedLabelEdgeIndex (entriesOf Prod.snd edgeLabelEntry m.base.currentEdge)
  eq : Tracks m.secondaryEqState (eqEntries enc m.secondaryIndexDeclarations m.base.currentNode m.base.currentEdge)
  range : Tracks m.secondaryRangeState (rangeEntries m.secondaryIndexDeclarations m.base.currentNode m.base.currentEdge)
  compound : Tracks m.secondaryCompoundState (compoundEntries enc m.secondaryIndexDeclarations m.base.currentNode m.base.currentEdge)

theorem orderedUpsert_eq (m : IndexedMemtable) (old : Option EdgeRecord) (edge : EdgeRecord) (q : ℕ) : m.orderedUpsert old edge q = { m with
      orderedLabelEdgeIndex := setSlots m.orderedLabelEdgeIndex (upsertEdgeLabelWrites edge old) q
      orderedAdjOut := setSlots m.orderedAdjOut (upsertOutWrites edge old) q
      orderedAdjIn := setSlots m.orderedAdjIn (upsertInWrites edge old) q } := by
  unfold orderedUpsert upsertEdgeLabelWrites upsertOutWrites upsertInWrites
  cases old with
  | none => rfl
  | some old =>
    dsimp only [elim_some]
    split_ifs <;> rfl

variable {m : IndexedMemtable}

theorem registered_applyOp (h : Registered m) (op : SeqOp) : Registered (m.applyOp enc op) := by
  obtain ⟨q, op⟩ := op
  cases op with
  | upsertNode node => exact ⟨h.nodeEq, h.nodeRange, h.edgeEq, h.edgeRange, h.nodeField, h.edgeField⟩
  | upsertEdge edge =>
    unfold applyOp
    dsimp only
    rw [orderedUpsert_eq]
    exact ⟨h.nodeEq, h.nodeRange, h.edgeEq, h.edgeRange, h.nodeField, h.edgeField⟩
  | deleteNode id deletedAt =>
    unfold applyOp
    dsimp only
    cases m.base.currentNode id <;> exact ⟨h.nodeEq, h.nodeRange, h.edgeEq, h.edgeRange, h.nodeField, h.edgeField⟩
  | deleteEdge id deletedAt =>
    unfold applyOp
    dsimp only
    cases m.base.currentEdge id <;> exact ⟨h.nodeEq, h.nodeRange, h.edgeEq, h.edgeRange, h.nodeField, h.edgeField⟩
  | ensureNodeLabel _ _ | ensureEdgeLabel _ _ | beginAtomicBatch _ _ | commitAtomicBatch _ _ => exact ⟨h.nodeEq, h.nodeRange, h.edgeEq, h.edgeRange, h.nodeField, h.edgeField⟩

section
variable {enc} {m : IndexedMemtable}

theorem HeadsExact.upsertNode (h : HeadsExact enc m) (hids : IdsMatch m.base) (node : NodeRecord) (q : ℕ) :
    HeadsExact enc (m.applyOp enc (q, .upsertNode node)) := by
  have hview := currentNode_upsertNode m.base q node
  have heds : (m.base.applyUpsertNode node q).currentEdge = m.base.currentEdge :=
    @currentEdge_applyOp_of_silent m.base (q, .upsertNode node) rfl
  constructor
  case registered => exact registered_applyOp enc h.registered _
  case indexed => exact h.indexed.applyOp hids (q, .upsertNode node)
  case orderedOut => exact heds.symm ▸ h.orderedOut
  case orderedIn => exact heds.symm ▸ h.orderedIn
  case orderedLabels => exact heds.symm ▸ h.orderedLabels
  case eq =>
    exact heds.symm ▸ tracks_sync (maintains_nodeEq enc h.registered)
      ((apart_eq enc m.secondaryIndexDeclarations).edges_none m.base.currentEdge) q { node with lastWriteSeq := q }
      (syncNode_writes enc m part_eq _ _) (hids.node node.id) hview h.eq
  case range =>
    exact heds.symm ▸ tracks_sync (maintains_nodeRange enc h.registered)
      ((apart_range m.secondaryIndexDeclarations).edges_none m.base.currentEdge) q { node with lastWriteSeq := q }
      (syncNode_writes enc m part_range _ _) (hids.node node.id) hview h.range
  case compound =>
    exact heds.symm ▸ tracks_sync (maintains_nodeField enc h.registered)
      ((apart_field enc m.secondaryIndexDeclarations).edges_none m.base.currentEdge) q { node with lastWriteSeq := q }
      (syncNode_writes enc m part_compound _ _) (hids.node node.id) hview h.compound

/-- Deleting what is not live changes no index. -/
theorem HeadsExact.congr {after : IndexedMemtable} (h : HeadsExact enc m) (hidx : Indexed after.base)
    (hnos : after.base.currentNode = m.base.currentNode) (heds : after.base.currentEdge = m.base.currentEdge)
    (hsame : after = { m with base := after.base }) : HeadsExact enc after := by
  rw [hsame]
  constructor
  case registered =>
    obtain ⟨hnodeEq, hnodeRange, hedgeEq, hedgeRange, hnodeField, hedgeField⟩ := h.registered
    exact ⟨hnodeEq, hnodeRange, hedgeEq, hedgeRange, hnodeField, hedgeField⟩
  case indexed => exact hidx
  case orderedOut => exact heds.symm ▸ h.orderedOut
  case orderedIn => exact heds.symm ▸ h.orderedIn
  case orderedLabels => exact heds.symm ▸ h.orderedLabels
  case eq => exact hnos.symm ▸ heds.symm ▸ h.eq
  case range => exact hnos.symm ▸ heds.symm ▸ h.range
  case compound => exact hnos.symm ▸ heds.symm ▸ h.compound

section
variable (h : HeadsExact enc m) (hids : IdsMatch m.base)
include h hids

theorem HeadsExact.deleteNode (id : ℕ) (deletedAt : ℤ) (q : ℕ) :
    HeadsExact enc (m.applyOp enc (q, .deleteNode id deletedAt)) := by
  have hview := currentNode_deleteNode m.base q id deletedAt
  have heds : (m.base.applyDeleteNode id deletedAt q).currentEdge = m.base.currentEdge :=
    @currentEdge_applyOp_of_silent m.base (q, .deleteNode id deletedAt) rfl
  have hidx : Indexed (m.base.applyDeleteNode id deletedAt q) := h.indexed.applyOp hids (q, .deleteNode id deletedAt)
  have hapl : m.applyOp enc (q, .deleteNode id deletedAt) = { ((m.base.currentNode id).elim m fun node =>
      m.applyActions (m.removeSecondaryIndexEntriesForNode enc node) q) with base := m.base.applyDeleteNode id deletedAt q } := by
    rw [applyOp]
    cases m.base.currentNode id <;> rfl
  have hreg := registered_applyOp enc h.registered (q, .deleteNode id deletedAt)
  rw [hapl] at hreg ⊢
  cases hold : m.base.currentNode id with
  | none =>
    apply h.congr hidx _ heds rfl
    funext other
    rw [hview other]
    split
    · rename_i hoth
      rw [hoth, hold]
    · rfl
  | some old =>
    rw [hold] at hreg
    obtain rfl := hids.node id old hold
    constructor
    case registered => exact hreg
    case indexed => exact hidx
    case orderedOut => exact heds.symm ▸ h.orderedOut
    case orderedIn => exact heds.symm ▸ h.orderedIn
    case orderedLabels => exact heds.symm ▸ h.orderedLabels
    case eq =>
      exact heds.symm ▸ tracks_remove (maintains_nodeEq enc h.registered)
        ((apart_eq enc m.secondaryIndexDeclarations).edges_none m.base.currentEdge) q (removeNode_writes enc m part_eq old) hold hview h.eq
    case range =>
      exact heds.symm ▸ tracks_remove (maintains_nodeRange enc h.registered)
        ((apart_range m.secondaryIndexDeclarations).edges_none m.base.currentEdge) q (removeNode_writes enc m part_range old) hold hview h.range
    case compound =>
      exact heds.symm ▸ tracks_remove (maintains_nodeField enc h.registered)
        ((apart_field enc m.secondaryIndexDeclarations).edges_none m.base.currentEdge) q (removeNode_writes enc m part_compound old) hold hview h.compound

theorem HeadsExact.upsertEdge (edge : EdgeRecord) (q : ℕ) :
    HeadsExact enc (m.applyOp enc (q, .upsertEdge edge)) := by
  have hview := currentEdge_upsertEdge m.base q edge
  have hnos : (m.base.applyUpsertEdge edge q).currentNode = m.base.currentNode :=
    @currentNode_applyOp_of_silent m.base (q, .upsertEdge edge) rfl
  have hreg := registered_applyOp enc h.registered (q, .upsertEdge edge)
  have hidx : Indexed (m.base.applyUpsertEdge edge q) := h.indexed.applyOp hids (q, .upsertEdge edge)
  have hapl : m.applyOp enc (q, .upsertEdge edge) = { (m.orderedUpsert (m.base.currentEdge edge.id) edge q).applyActions
      (m.syncSecondaryIndexEntriesForEdgeUpsert enc (m.base.currentEdge edge.id) { edge with lastWriteSeq := q }) q with
      base := m.base.applyUpsertEdge edge q } := rfl
  rw [hapl, orderedUpsert_eq] at hreg ⊢
  have heqs := apart_eq enc m.secondaryIndexDeclarations
  have hranges := apart_range m.secondaryIndexDeclarations
  have hflds := apart_field enc m.secondaryIndexDeclarations
  constructor
  case registered => exact hreg
  case indexed => exact hidx
  case orderedOut => exact h.orderedOut.replace hview (moves_upsertOutWrites (hids.edge _) (storedAs edge q)) q
  case orderedIn => exact h.orderedIn.replace hview (moves_upsertInWrites (hids.edge _) (storedAs edge q)) q
  case orderedLabels => exact h.orderedLabels.replace hview (moves_upsertEdgeLabelWrites (hids.edge _) (storedAs edge q)) q
  case eq =>
    have hstep := tracks_sync (maintains_edgeEq enc h.registered) (heqs.nodes_none m.base.currentNode) q { edge with lastWriteSeq := q }
      (syncEdge_writes enc m part_eq _ _) (hids.edge edge.id) hview (h.eq.congr (heqs.comm _ _))
    exact hnos.symm ▸ hstep.congr fun k => (heqs.comm _ _ k).symm
  case range =>
    have hstep := tracks_sync (maintains_edgeRange enc h.registered) (hranges.nodes_none m.base.currentNode) q { edge with lastWriteSeq := q }
      (syncEdge_writes enc m part_range _ _) (hids.edge edge.id) hview (h.range.congr (hranges.comm _ _))
    exact hnos.symm ▸ hstep.congr fun k => (hranges.comm _ _ k).symm
  case compound =>
    have hstep := tracks_sync (maintains_edgeField enc h.registered) (hflds.nodes_none m.base.currentNode) q { edge with lastWriteSeq := q }
      (syncEdge_writes enc m part_compound _ _) (hids.edge edge.id) hview (h.compound.congr (hflds.comm _ _))
    exact hnos.symm ▸ hstep.congr fun k => (hflds.comm _ _ k).symm

theorem HeadsExact.deleteEdge (id : ℕ) (deletedAt : ℤ) (q : ℕ) :
    HeadsExact enc (m.applyOp enc (q, .deleteEdge id deletedAt)) := by
  have hview := currentEdge_deleteEdge m.base q id deletedAt
  have hnos : (m.base.applyDeleteEdge id deletedAt q).currentNode = m.base.currentNode :=
    @currentNode_applyOp_of_silent m.base (q, .deleteEdge id deletedAt) rfl
  have hidx : Indexed (m.base.applyDeleteEdge id deletedAt q) := h.indexed.applyOp hids (q, .deleteEdge id deletedAt)
  have hreg := registered_applyOp enc h.registered (q, .deleteEdge id deletedAt)
  have hapl : m.applyOp enc (q, .deleteEdge id deletedAt) = { ((m.base.currentEdge id).elim m fun edge =>
      (m.orderedDelete edge q).applyActions (m.removeSecondaryIndexEntriesForEdge enc edge) q) with base := m.base.applyDeleteEdge id deletedAt q } := by
    rw [applyOp]
    cases m.base.currentEdge id <;> rfl
  rw [hapl] at hreg ⊢
  have heqs := apart_eq enc m.secondaryIndexDeclarations
  have hranges := apart_range m.secondaryIndexDeclarations
  have hflds := apart_field enc m.secondaryIndexDeclarations
  cases hold : m.base.currentEdge id with
  | none =>
    apply h.congr hidx hnos _ rfl
    funext other
    rw [hview other]
    split
    · rename_i hoth
      rw [hoth, hold]
    · rfl
  | some old =>
    rw [hold] at hreg
    have hid := hids.edge id
    obtain rfl := hid old hold
    have hout := @moves_delete (m.base.currentEdge old.id) old.id _ _ _ Prod.snd outEntry (fun r => (r.source, r.id)) hid
      (by grind [outEntry])
    have hin := @moves_delete (m.base.currentEdge old.id) old.id _ _ _ Prod.snd inEntry (fun r => (r.target, r.id)) hid
      (by grind [inEntry])
    have hlab := @moves_delete (m.base.currentEdge old.id) old.id _ _ _ Prod.snd edgeLabelEntry
      (fun r => (r.labelId, r.id)) hid (by grind [edgeLabelEntry])
    have hout' := h.orderedOut.replace hview hout q
    have hin' := h.orderedIn.replace hview hin q
    have hlab' := h.orderedLabels.replace hview hlab q
    rw [hold] at hout' hin' hlab'
    constructor
    case registered => exact hreg
    case indexed => exact hidx
    case orderedOut => exact hout'
    case orderedIn => exact hin'
    case orderedLabels => exact hlab'
    case eq =>
      have hstep := tracks_remove (maintains_edgeEq enc h.registered) (heqs.nodes_none m.base.currentNode) q
        (removeEdge_writes enc m old) hold hview (h.eq.congr (heqs.comm _ _))
      exact hnos.symm ▸ hstep.congr fun k => (heqs.comm _ _ k).symm
    case range =>
      have hstep := tracks_remove (maintains_edgeRange enc h.registered) (hranges.nodes_none m.base.currentNode) q
        (removeEdge_writes enc m old) hold hview (h.range.congr (hranges.comm _ _))
      exact hnos.symm ▸ hstep.congr fun k => (hranges.comm _ _ k).symm
    case compound =>
      have hstep := tracks_remove (maintains_edgeField enc h.registered) (hflds.nodes_none m.base.currentNode) q
        (removeEdge_writes enc m old) hold hview (h.compound.congr (hflds.comm _ _))
      exact hnos.symm ▸ hstep.congr fun k => (hflds.comm _ _ k).symm

theorem HeadsExact.applyOp (op : SeqOp) : HeadsExact enc (m.applyOp enc op) := by
  obtain ⟨q, op⟩ := op
  cases op with
  | upsertNode node => exact h.upsertNode hids node q
  | upsertEdge edge => exact h.upsertEdge hids edge q
  | deleteNode id deletedAt => exact h.deleteNode hids id deletedAt q
  | deleteEdge id deletedAt => exact h.deleteEdge hids id deletedAt q
  | ensureNodeLabel _ _ | ensureEdgeLabel _ _ | beginAtomicBatch _ _ | commitAtomicBatch _ _ => exact h

end

end

section
variable {φ : Type} {target : SecondaryIndexEntry → Option (ℕ × φ)} {decls : Map ℕ SecondaryIndexEntry} {i : ℕ}
  {declared : SecondaryIndexEntry}

theorem declaredAs_insert (j : ℕ) : declaredAs target (decls.insert i declared) j =
    if j = i then target declared else declaredAs target decls j := by
  rw [declaredAs, declaredAs]
  split
  · rename_i hj
    rw [hj, AList.lookup_insert]
    rfl
  · rename_i hj
    rw [AList.lookup_insert_ne hj]

theorem declaredAs_fresh (hfr : decls.lookup i = none) : declaredAs target decls i = none := by
  rw [declaredAs, hfr]
  rfl

theorem indexesOf_addPropLookup (byProp : ByProp) (labelId other : ℕ) (pkey name : String) (i : ℕ) :
    indexesOf (addPropLookup byProp labelId pkey i) other name =
      if other = labelId ∧ name = pkey then indexesOf byProp other name ++ [i] else indexesOf byProp other name := by
  rw [indexesOf, indexesOf, addPropLookup, lookup_alter]
  by_cases hlab : other = labelId
  · subst hlab
    rw [if_pos rfl, bind_some, lookup_alter]
    by_cases hname : name = pkey
    · subst hname
      cases byProp.lookup other <;> simp
    · cases byProp.lookup other <;> simp [hname]
  · simp [hlab]

variable (hfr : decls.lookup i = none)

include hfr

section
variable {target : SecondaryIndexEntry → Option (ℕ × String)} {byProp : ByProp}

theorem listsProps_other (h : ListsProps byProp (declaredAs target decls)) (hoth : target declared = none) :
    ListsProps byProp (declaredAs target (decls.insert i declared)) := by
  intro labelId pkey j
  rw [h, declaredAs_insert]
  split
  · rename_i hj
    rw [hj, declaredAs_fresh hfr, hoth]
  · rfl

theorem listsProps_add {labelId : ℕ} {pkey : String}
    (h : ListsProps byProp (declaredAs target decls)) (htgt : target declared = some (labelId, pkey)) :
    ListsProps (addPropLookup byProp labelId pkey i) (declaredAs target (decls.insert i declared)) := by
  intro other name j
  rw [indexesOf_addPropLookup, declaredAs_insert]
  have hold := h other name j
  by_cases hj : j = i
  · subst hj
    rw [declaredAs_fresh hfr] at hold
    rw [if_pos rfl, htgt]
    split
    · rename_i hsame
      simp [hsame]
    · rename_i hne
      rw [hold]
      grind
  · rw [if_neg hj, ← hold]
    split
    · simp [hj]
    · rfl

end

variable {table : Map ℕ (List ℕ)}

theorem listsFields_other
    (h : ∀ labelId j, j ∈ (table.lookup labelId).getD [] ↔ ∃ fields, declaredAs target decls j = some (labelId, fields))
    (hoth : target declared = none) (labelId j : ℕ) :
    j ∈ (table.lookup labelId).getD [] ↔ ∃ fields, declaredAs target (decls.insert i declared) j = some (labelId, fields) := by
  rw [h, declaredAs_insert]
  split
  · rename_i hj
    rw [hj, declaredAs_fresh hfr, hoth]
  · rfl

theorem listsFields_add {labelId : ℕ} {fields : φ}
    (h : ∀ labelId j, j ∈ (table.lookup labelId).getD [] ↔ ∃ fields, declaredAs target decls j = some (labelId, fields))
    (htgt : target declared = some (labelId, fields)) (other j : ℕ) :
    j ∈ ((addFieldIndexLookup table labelId i).lookup other).getD [] ↔
      ∃ fields, declaredAs target (decls.insert i declared) j = some (other, fields) := by
  rw [addFieldIndexLookup, lookup_alter, declaredAs_insert]
  have hold := h other j
  by_cases hj : j = i
  · subst hj
    rw [declaredAs_fresh hfr] at hold
    rw [if_pos rfl, htgt]
    split
    · rename_i hsame
      simp [hsame]
    · rename_i hne
      rw [hold]
      grind
  · rw [if_neg hj, ← hold]
    split
    · rename_i hsame
      subst hsame
      simp [hj]
    · rfl

end

/-- A memtable that only has declarations. -/
structure Opened (m : IndexedMemtable) : Prop where
  registered : Registered m
  base : m.base = MemtableState.empty
  orderedLabels : m.orderedLabelEdgeIndex = ∅
  orderedOut : m.orderedAdjOut = ∅
  orderedIn : m.orderedAdjIn = ∅
  eq : m.secondaryEqState = ∅
  range : m.secondaryRangeState = ∅
  compound : m.secondaryCompoundState = ∅

theorem opened_empty : Opened empty := by
  have hemp : ∀ j, (∅ : Map ℕ SecondaryIndexEntry).lookup j = none := fun _ => rfl
  refine ⟨?_, rfl, rfl, rfl, rfl, rfl, rfl, rfl⟩
  constructor
  case nodeEq => exact fun labelId pkey j => by simp [empty, declaredAs, indexesOf]
  case nodeRange => exact fun labelId pkey j => by simp [empty, declaredAs, indexesOf]
  case edgeEq => exact fun labelId pkey j => by simp [empty, declaredAs, indexesOf]
  case edgeRange => exact fun labelId pkey j => by simp [empty, declaredAs, indexesOf]
  case nodeField => exact fun labelId j => by simp [empty, declaredAs]
  case edgeField => exact fun labelId j => by simp [empty, declaredAs]

theorem seed_nothing {κ ρ : Type} [DecidableEq κ] (state : MembershipMap (ℕ × κ × ℕ) Unit) {records : Map ℕ ρ}
    (h : records.entries = []) (indexId : ℕ) (key : ρ → Option κ) (seq : ρ → ℕ) :
    seed state records indexId key seq = state := by
  rw [seed, h]
  rfl

theorem Opened.register (h : Opened m) (declared : SecondaryIndexEntry) :
    Opened (m.registerSecondaryIndex enc declared) := by
  have hnos : m.base.liveNodes.entries = [] := by
    rw [h.base]
    rfl
  have heds : m.base.liveEdges.entries = [] := by
    rw [h.base]
    rfl
  obtain ⟨hreg, hbase, hlabs, hout, hin, heq, hrng, hcpd⟩ := h
  obtain ⟨hnodeEq, hnodeRange, hedgeEq, hedgeRange, hnodeField, hedgeField⟩ := hreg
  unfold registerSecondaryIndex
  split
  · exact ⟨⟨hnodeEq, hnodeRange, hedgeEq, hedgeRange, hnodeField, hedgeField⟩, hbase, hlabs, hout, hin, heq, hrng, hcpd⟩
  · rename_i hnew
    have hfr : m.secondaryIndexDeclarations.lookup declared.indexId = none := by simpa using hnew
    dsimp only
    obtain ⟨indexId, target, kind⟩ := declared
    dsimp only at hfr ⊢
    -- whatever the index is on, one of the lists grows and one of the states is seeded with nothing
    split
    all_goals
      constructor
      case registered =>
        constructor
        case nodeEq => first | exact listsProps_other hfr hnodeEq rfl | exact listsProps_add hfr hnodeEq rfl
        case nodeRange => first | exact listsProps_other hfr hnodeRange rfl | exact listsProps_add hfr hnodeRange rfl
        case edgeEq => first | exact listsProps_other hfr hedgeEq rfl | exact listsProps_add hfr hedgeEq rfl
        case edgeRange => first | exact listsProps_other hfr hedgeRange rfl | exact listsProps_add hfr hedgeRange rfl
        case nodeField => first | exact listsFields_other hfr hnodeField rfl | exact listsFields_add hfr hnodeField rfl
        case edgeField => first | exact listsFields_other hfr hedgeField rfl | exact listsFields_add hfr hedgeField rfl
      case base => exact hbase
      case orderedLabels => exact hlabs
      case orderedOut => exact hout
      case orderedIn => exact hin
      case eq => first | exact heq | (simp only [seed_nothing _ hnos]; exact heq) | (simp only [seed_nothing _ heds]; exact heq)
      case range => first | exact hrng | (simp only [seed_nothing _ hnos]; exact hrng) | (simp only [seed_nothing _ heds]; exact hrng)
      case compound => first | exact hcpd | (simp only [seed_nothing _ hnos]; exact hcpd) | (simp only [seed_nothing _ heds]; exact hcpd)

theorem Opened.headsExact (h : Opened m) : HeadsExact enc m := by
  obtain ⟨hreg, hbase, hlabs, hout, hin, heq, hrng, hcpd⟩ := h
  have hnos : ∀ id, m.base.currentNode id = none := by
    rw [hbase]
    exact fun _ => rfl
  have heds : ∀ id, m.base.currentEdge id = none := by
    rw [hbase]
    exact fun _ => rfl
  constructor
  case registered => exact hreg
  case indexed => exact hbase.symm ▸ indexed_empty
  case orderedOut =>
    rw [hout]
    exact tracks_empty.congr fun k => by simp [entriesOf, heds]
  case orderedIn =>
    rw [hin]
    exact tracks_empty.congr fun k => by simp [entriesOf, heds]
  case orderedLabels =>
    rw [hlabs]
    exact tracks_empty.congr fun k => by simp [entriesOf, heds]
  case eq =>
    rw [heq]
    exact tracks_empty.congr fun k => by simp [eqEntries, bothEntries, entriesOf, hnos, heds]
  case range =>
    rw [hrng]
    exact tracks_empty.congr fun k => by simp [rangeEntries, bothEntries, entriesOf, hnos, heds]
  case compound =>
    rw [hcpd]
    exact tracks_empty.congr fun k => by simp [compoundEntries, bothEntries, entriesOf, hnos, heds]

section
variable (es : List SecondaryIndexEntry)

theorem opened_register (h : Opened m) : Opened (es.foldl (registerSecondaryIndex enc) m) := by
  induction es generalizing m with
  | nil => exact h
  | cons declared es ih => exact ih (h.register enc declared)

theorem ofOps_concat (ops : List SeqOp) (op : SeqOp) :
    ofOps enc es (ops ++ [op]) = (ofOps enc es ops).applyOp enc op := by
  rw [ofOps, foldl_append]
  rfl

theorem ofOps_base (ops : List SeqOp) : (ofOps enc es ops).base = MemtableState.ofOps ops := by
  induction ops using List.reverseRecOn with
  | nil => exact (opened_register enc es opened_empty).base
  | append_singleton ops op ih =>
    rw [ofOps_concat, MemtableState.ofOps_concat, ← ih]
    rfl

theorem headsExact_ofOps (ops : List SeqOp) : HeadsExact enc (ofOps enc es ops) := by
  induction ops using List.reverseRecOn with
  | nil => exact (opened_register enc es opened_empty).headsExact enc
  | append_singleton ops op ih =>
    rw [ofOps_concat]
    apply ih.applyOp
    rw [ofOps_base]
    exact idsMatch_ofOps ops

end

theorem declarations_applyOp (m : IndexedMemtable) (op : SeqOp) :
    (m.applyOp enc op).secondaryIndexDeclarations = m.secondaryIndexDeclarations := by
  obtain ⟨q, op⟩ := op
  unfold applyOp
  cases op with
  | upsertEdge edge =>
    dsimp only
    rw [orderedUpsert_eq]
    rfl
  | deleteNode id deletedAt =>
    dsimp only
    cases m.base.currentNode id <;> rfl
  | deleteEdge id deletedAt =>
    dsimp only
    cases m.base.currentEdge id <;> rfl
  | _ => rfl

theorem declarations_ofOps (es : List SecondaryIndexEntry) (ops more : List SeqOp) :
    (ofOps enc es (ops ++ more)).secondaryIndexDeclarations = (ofOps enc es ops).secondaryIndexDeclarations := by
  induction more using List.reverseRecOn with
  | nil => rw [append_nil]
  | append_singleton more op ih => rw [← append_assoc, ofOps_concat, declarations_applyOp, ih]

section
variable {enc} {κ τ : Type} [DecidableEq κ] {s : ℕ}

/-- A map of the state, which operations write at their own sequence numbers. -/
structure Cells (enc : IndexEncoders) (π : IndexedMemtable → Map κ (VersionedSlot τ)) : Prop where
  written : ∀ m op, Written op.1 (π m) (π (m.applyOp enc op))
  opened : ∀ m, Opened m → π m = ∅

variable {π : IndexedMemtable → Map κ (VersionedSlot τ)}

section
variable (h : Cells enc π) (es : List SecondaryIndexEntry)
include h

theorem Cells.notYounger {ops : List SeqOp} (hops : ∀ op ∈ ops, op.1 ≤ s) : NotYounger (π (ofOps enc es ops)) s := by
  induction ops using List.reverseRecOn with
  | nil =>
    have hemp : π (ofOps enc es []) = ∅ := h.opened _ (opened_register enc es opened_empty)
    rw [hemp]
    exact notYounger_empty s
  | append_singleton ops op ih =>
    rw [ofOps_concat]
    exact (h.written _ op).notYounger (ih fun other hoth => hops other (mem_append_left _ hoth))
      (hops op (mem_append_right _ mem_cons_self))

theorem Cells.sameCells (ops : List SeqOp) {later : List SeqOp} (hlat : ∀ op ∈ later, s < op.1) :
    SameCells s (π (ofOps enc es ops)) (π (ofOps enc es (ops ++ later))) := by
  induction later using List.reverseRecOn with
  | nil =>
    rw [append_nil]
    exact fun _ => rfl
  | append_singleton later op ih =>
    rw [← append_assoc, ofOps_concat]
    intro k
    rw [(h.written _ op).sameCells (hlat op (mem_append_right _ mem_cons_self)) k]
    exact ih (fun other hoth => hlat other (mem_append_left _ hoth)) k

end

/-- A snapshot sees the heads of the memtable that received the operations up to it. -/
theorem Cells.valueAt {π : IndexedMemtable → Map κ (VersionedSlot τ)} (h : Cells enc π) (es : List SecondaryIndexEntry)
    {ops later : List SeqOp} (hops : ∀ op ∈ ops, op.1 ≤ s) (hlat : ∀ op ∈ later, s < op.1) (k : κ) :
    valueAt (π (ofOps enc es (ops ++ later))) s k = headAt (π (ofOps enc es ops)) k :=
  (h.sameCells es ops hlat k).trans ((h.notYounger es hops).readAt k)

end

variable {ops : List SeqOp}

/-- Sequence numbers that grow can be cut at a snapshot. -/
theorem exists_cut (h : ops.Pairwise fun fst snd => fst.1 < snd.1) (s : ℕ) :
    ∃ past later, ops = past ++ later ∧ (∀ op ∈ past, op.1 ≤ s) ∧ ∀ op ∈ later, s < op.1 := by
  induction ops with
  | nil => exact ⟨[], [], rfl, by simp, by simp⟩
  | cons op ops ih =>
    obtain ⟨hfst, hrest⟩ := pairwise_cons.mp h
    by_cases hop : op.1 ≤ s
    · obtain ⟨past, later, rfl, hpast, hlat⟩ := ih hrest
      refine ⟨op :: past, later, rfl, ?_, hlat⟩
      intro other hoth
      rcases mem_cons.mp hoth with rfl | hmem
      · exact hop
      · exact hpast other hmem
    · refine ⟨[], op :: ops, rfl, by simp, ?_⟩
      intro other hoth
      rcases mem_cons.mp hoth with rfl | hmem
      · exact Nat.lt_of_not_le hop
      · exact (Nat.lt_of_not_le hop).trans (hfst other hmem)

section
variable {κ τ : Type} [DecidableEq κ]

/-- A snapshot sees the derived entries in an index, each once, and no others. -/
def Exactly (idx : MembershipMap κ τ) (s : ℕ) (derived : κ → Option τ) : Prop :=
  (visibleKeys idx s).Nodup ∧ ∀ k v, (k, v) ∈ visibleEntries idx s ↔ derived k = some v

omit [DecidableEq κ] in
theorem nodup_visibleKeys (idx : MembershipMap κ τ) (s : ℕ) : (visibleKeys idx s).Nodup := by
  have hkeys := nodupKeys_iff_pairwise.mp idx.nodupKeys
  rw [visibleKeys, Nodup, pairwise_map, visibleEntries, pairwise_filterMap]
  refine hkeys.imp fun hne fst hfst snd hsnd heq => ?_
  obtain ⟨_, -, rfl⟩ := map_eq_some_iff.mp hfst
  obtain ⟨_, -, rfl⟩ := map_eq_some_iff.mp hsnd
  exact hne heq

theorem exactly_of_valueAt {idx : MembershipMap κ τ} {s : ℕ} {derived : κ → Option τ}
    (h : ∀ k, (valueAt idx s k).join = derived k) : Exactly idx s derived := by
  refine ⟨nodup_visibleKeys idx s, fun k v => ?_⟩
  rw [mem_visibleEntries, h]

end

variable {enc} in
theorem Cells.exactly {κ τ : Type} [DecidableEq κ] {π : IndexedMemtable → MembershipMap κ τ} (h : Cells enc π)
    (es : List SecondaryIndexEntry) {s : ℕ} {past later : List SeqOp} (hpast : ∀ op ∈ past, op.1 ≤ s)
    (hlat : ∀ op ∈ later, s < op.1) {derived : κ → Option τ} (hheads : Tracks (π (ofOps enc es past)) derived) :
    Exactly (π (ofOps enc es (past ++ later))) s derived :=
  exactly_of_valueAt fun k => (congrArg Option.join (h.valueAt es hpast hlat k)).trans (hheads k)

/-- At a snapshot the indexes hold the entries of the records that are live there. The counters have no versions:
they count the records that are live now. -/
structure CoherentAt (m : IndexedMemtable) (s : ℕ) : Prop where
  labels : Exactly m.base.labelNodeIndex s (entriesOf Prod.snd labelEntry (getNodeAt m s))
  times : Exactly m.base.timeNodeIndex s (entriesOf (fun k => k.2.2) timeEntry (getNodeAt m s))
  keysNodup : (visibleKeys m.base.nodeKeyIndex s).Nodup
  keys : ∀ labelId key id, ((labelId, key), id) ∈ visibleEntries m.base.nodeKeyIndex s ↔ OwnsKey (getNodeAt m s) labelId key id
  out : Exactly m.base.adjOut s (entriesOf Prod.snd outEntry (getEdgeAt m s))
  inn : Exactly m.base.adjIn s (entriesOf Prod.snd inEntry (getEdgeAt m s))
  orderedOut : Exactly m.orderedAdjOut s (entriesOf Prod.snd outEntry (getEdgeAt m s))
  orderedIn : Exactly m.orderedAdjIn s (entriesOf Prod.snd inEntry (getEdgeAt m s))
  edgeLabels : Exactly m.base.labelEdgeIndex s (entriesOf Prod.snd edgeLabelEntry (getEdgeAt m s))
  orderedLabels : Exactly m.orderedLabelEdgeIndex s (entriesOf Prod.snd edgeLabelEntry (getEdgeAt m s))
  edgeIds : Exactly m.base.orderedEdgeIds s (entriesOf (fun k => k) edgeIdEntry (getEdgeAt m s))
  nodeTombstones : Exactly m.base.nodeTombstones s fun id => (nodeTombstoneAt m s id).map fun _ => ()
  edgeTombstones : Exactly m.base.edgeTombstones s fun id => (edgeTombstoneAt m s id).map fun _ => ()
  eq : Exactly m.secondaryEqState s (eqEntries enc m.secondaryIndexDeclarations (getNodeAt m s) (getEdgeAt m s))
  range : Exactly m.secondaryRangeState s (rangeEntries m.secondaryIndexDeclarations (getNodeAt m s) (getEdgeAt m s))
  compound : Exactly m.secondaryCompoundState s
    (compoundEntries enc m.secondaryIndexDeclarations (getNodeAt m s) (getEdgeAt m s))
  nodesNodup : ((visibleRecords m.base.nodes s).map (·.1)).Nodup
  nodes : ∀ id record, (id, record) ∈ visibleRecords m.base.nodes s ↔ getNodeAt m s id = some record
  edgesNodup : ((visibleRecords m.base.edges s).map (·.1)).Nodup
  edges : ∀ id record, (id, record) ∈ visibleRecords m.base.edges s ↔ getEdgeAt m s id = some record
  nodeCountAt : Counts (visibleNodeCountAt m s) (getNodeAt m s)
  nodeCount : Counts m.base.liveNodeCount m.base.currentNode
  edgeCount : Counts m.base.liveEdgeCount m.base.currentEdge

variable {ρ : Type}

theorem nodup_visibleRecords (records : RecordMap ρ) (s : ℕ) : ((visibleRecords records s).map (·.1)).Nodup := by
  have hkeys := nodupKeys_iff_pairwise.mp records.nodupKeys
  rw [Nodup, pairwise_map, visibleRecords, pairwise_filterMap]
  refine hkeys.imp fun hne fst hfst snd hsnd heq => ?_
  obtain ⟨_, -, rfl⟩ := map_eq_some_iff.mp hfst
  obtain ⟨_, -, rfl⟩ := map_eq_some_iff.mp hsnd
  exact hne heq

theorem counts_visibleRecords (records : RecordMap ρ) (s : ℕ) :
    Counts (visibleRecords records s).length fun id => (valueAt records s id).bind live? := by
  refine ⟨((visibleRecords records s).map (·.1)).toFinset, ?_, ?_⟩
  · intro id
    rw [List.mem_toFinset, mem_map, isSome_iff_exists]
    constructor
    · intro h
      obtain ⟨⟨_, r⟩, hmem, rfl⟩ := h
      exact ⟨r, mem_visibleRecords.mp hmem⟩
    · intro h
      obtain ⟨r, hrec⟩ := h
      exact ⟨(id, r), mem_visibleRecords.mpr hrec, rfl⟩
  · rw [toFinset_card_of_nodup (nodup_visibleRecords records s), length_map]

theorem tombstone_entry {cell : Option (Option Unit)} {state : Option (RecordState ρ)}
    (h : cell.join.isSome = true ↔ state.map live? = some none) :
    cell.join = (state.bind tombstone?).map fun _ => () := by
  cases state with
  | none =>
    cases hcell : cell.join with
    | none => rfl
    | some present => simp [hcell] at h
  | some state =>
    cases state with
    | live value =>
      cases hcell : cell.join with
      | none => rfl
      | some present => simp [hcell, live?] at h
    | tombstone entry =>
      cases hcell : cell.join with
      | none => simp [hcell, live?] at h
      | some present => rfl

/-- At a snapshot the secondary indexes hold the entries of the records that are live there. -/
structure SecondaryExact (m : IndexedMemtable) (s : ℕ) : Prop where
  eq : Exactly m.secondaryEqState s (eqEntries enc m.secondaryIndexDeclarations (getNodeAt m s) (getEdgeAt m s))
  range : Exactly m.secondaryRangeState s (rangeEntries m.secondaryIndexDeclarations (getNodeAt m s) (getEdgeAt m s))
  compound : Exactly m.secondaryCompoundState s
    (compoundEntries enc m.secondaryIndexDeclarations (getNodeAt m s) (getEdgeAt m s))

section
variable (es : List SecondaryIndexEntry) {past later : List SeqOp} {s : ℕ} (hpast : ∀ op ∈ past, op.1 ≤ s)
  (hlat : ∀ op ∈ later, s < op.1)
include hpast hlat

theorem nodeState_at (id : ℕ) : valueAt (ofOps enc es (past ++ later)).base.nodes s id = headAt (ofOps enc es past).base.nodes id :=
  @Cells.valueAt enc _ _ _ s (fun m => m.base.nodes)
    ⟨fun m op => (writtenState_applyOp enc m op).base.nodes, fun m h => by rw [h.base]; rfl⟩ es past later hpast hlat id

theorem edgeState_at (id : ℕ) : valueAt (ofOps enc es (past ++ later)).base.edges s id = headAt (ofOps enc es past).base.edges id :=
  @Cells.valueAt enc _ _ _ s (fun m => m.base.edges)
    ⟨fun m op => (writtenState_applyOp enc m op).base.edges, fun m h => by rw [h.base]; rfl⟩ es past later hpast hlat id

theorem getNodeAt_ofOps : getNodeAt (ofOps enc es (past ++ later)) s = (ofOps enc es past).base.currentNode :=
  funext fun id => congrArg (·.bind live?) (nodeState_at enc es hpast hlat id)

theorem getEdgeAt_ofOps : getEdgeAt (ofOps enc es (past ++ later)) s = (ofOps enc es past).base.currentEdge :=
  funext fun id => congrArg (·.bind live?) (edgeState_at enc es hpast hlat id)

theorem nodeTombstones_at (id : ℕ) : (valueAt (ofOps enc es (past ++ later)).base.nodeTombstones s id).join =
    (nodeTombstoneAt (ofOps enc es (past ++ later)) s id).map fun _ => () := by
  have hcells := @Cells.valueAt enc _ _ _ s (fun m => m.base.nodeTombstones)
    ⟨fun m op => (writtenState_applyOp enc m op).base.nodeTombstones, fun m h => by rw [h.base]; rfl⟩ es past later hpast hlat id
  have hsta := nodeState_at enc es hpast hlat id
  show _ = ((valueAt (ofOps enc es (past ++ later)).base.nodes s id).bind tombstone?).map _
  rw [hcells, hsta, ofOps_base]
  exact tombstone_entry ((MemtableState.tombstonesAgree_ofOps past).nodes id)

theorem edgeTombstones_at (id : ℕ) : (valueAt (ofOps enc es (past ++ later)).base.edgeTombstones s id).join =
    (edgeTombstoneAt (ofOps enc es (past ++ later)) s id).map fun _ => () := by
  have hcells := @Cells.valueAt enc _ _ _ s (fun m => m.base.edgeTombstones)
    ⟨fun m op => (writtenState_applyOp enc m op).base.edgeTombstones, fun m h => by rw [h.base]; rfl⟩ es past later hpast hlat id
  have hsta := edgeState_at enc es hpast hlat id
  show _ = ((valueAt (ofOps enc es (past ++ later)).base.edges s id).bind tombstone?).map _
  rw [hcells, hsta, ofOps_base]
  exact tombstone_entry ((MemtableState.tombstonesAgree_ofOps past).edges id)

/-- A map of the base memtable that tracks the live records holds their entries. -/
theorem exactly_base {κ τ : Type} [DecidableEq κ] {π : MemtableState → MembershipMap κ τ} {derived : κ → Option τ}
    (hwr : ∀ (m : IndexedMemtable) (op : SeqOp), Written op.1 (π m.base) (π (m.applyOp enc op).base)) (hemp : π .empty = ∅)
    (hheads : Tracks (π (ofOps enc es past).base) derived) :
    Exactly (π (ofOps enc es (past ++ later)).base) s derived :=
  @Cells.exactly enc _ _ _ (fun m => π m.base) ⟨hwr, fun m h => by rw [h.base]; exact hemp⟩ es s past later hpast hlat _ hheads

end

structure LabelsExact (m : IndexedMemtable) (s : ℕ) : Prop where
  labels : Exactly m.base.labelNodeIndex s (entriesOf Prod.snd labelEntry (getNodeAt m s))
  times : Exactly m.base.timeNodeIndex s (entriesOf (fun k => k.2.2) timeEntry (getNodeAt m s))
  orderedLabels : Exactly m.orderedLabelEdgeIndex s (entriesOf Prod.snd edgeLabelEntry (getEdgeAt m s))

section
variable (es : List SecondaryIndexEntry) (hseqs : ops.Pairwise fun fst snd => fst.1 < snd.1) (s : ℕ)
include hseqs

theorem labelsExact_ofOps : LabelsExact (ofOps enc es ops) s := by
  obtain ⟨past, later, rfl, hpast, hlat⟩ := exists_cut hseqs s
  have hwr := writtenState_applyOp enc
  have hheads := headsExact_ofOps enc es past
  constructor
  case labels =>
    rw [getNodeAt_ofOps enc es hpast hlat]
    exact exactly_base enc es hpast hlat (fun m op => (hwr m op).base.labelNodeIndex) rfl hheads.indexed.labels
  case times =>
    rw [getNodeAt_ofOps enc es hpast hlat]
    exact exactly_base enc es hpast hlat (fun m op => (hwr m op).base.timeNodeIndex) rfl hheads.indexed.times
  case orderedLabels =>
    rw [getEdgeAt_ofOps enc es hpast hlat]
    exact @Cells.exactly enc _ _ _ (fun m => m.orderedLabelEdgeIndex) ⟨fun m op => (hwr m op).orderedLabelEdgeIndex, fun m h => h.orderedLabels⟩ es s past later
      hpast hlat _ hheads.orderedLabels

theorem orderedAdj_ofOps :
    Exactly (ofOps enc es ops).orderedAdjOut s (entriesOf Prod.snd outEntry (getEdgeAt (ofOps enc es ops) s)) ∧
      Exactly (ofOps enc es ops).orderedAdjIn s (entriesOf Prod.snd inEntry (getEdgeAt (ofOps enc es ops) s)) := by
  obtain ⟨past, later, rfl, hpast, hlat⟩ := exists_cut hseqs s
  have hwr := writtenState_applyOp enc
  have hheads := headsExact_ofOps enc es past
  rw [getEdgeAt_ofOps enc es hpast hlat]
  constructor
  · exact @Cells.exactly enc _ _ _ (fun m => m.orderedAdjOut) ⟨fun m op => (hwr m op).orderedAdjOut, fun m h => h.orderedOut⟩ es s past later
      hpast hlat _ hheads.orderedOut
  · exact @Cells.exactly enc _ _ _ (fun m => m.orderedAdjIn) ⟨fun m op => (hwr m op).orderedAdjIn, fun m h => h.orderedIn⟩ es s past later
      hpast hlat _ hheads.orderedIn

theorem secondaryExact_ofOps : SecondaryExact enc (ofOps enc es ops) s := by
  obtain ⟨past, later, rfl, hpast, hlat⟩ := exists_cut hseqs s
  have hwr := writtenState_applyOp enc
  have hheads := headsExact_ofOps enc es past
  constructor <;> rw [getNodeAt_ofOps enc es hpast hlat, getEdgeAt_ofOps enc es hpast hlat, declarations_ofOps]
  case eq =>
    exact @Cells.exactly enc _ _ _ (fun m => m.secondaryEqState) ⟨fun m op => (hwr m op).secondaryEqState, fun m h => h.eq⟩ es s past later
      hpast hlat _ hheads.eq
  case range =>
    exact @Cells.exactly enc _ _ _ (fun m => m.secondaryRangeState) ⟨fun m op => (hwr m op).secondaryRangeState, fun m h => h.range⟩ es s past later
      hpast hlat _ hheads.range
  case compound =>
    exact @Cells.exactly enc _ _ _ (fun m => m.secondaryCompoundState) ⟨fun m op => (hwr m op).secondaryCompoundState, fun m h => h.compound⟩ es s past later
      hpast hlat _ hheads.compound

end

/-- At every snapshot of a run the indexes hold the entries of the live records, each once, and no others. -/
theorem coherentAt_ofOps (es : List SecondaryIndexEntry) {ops : List SeqOp}
    (hseqs : ops.Pairwise fun fst snd => fst.1 < snd.1) (hkeys : KeysUnambiguous ops) (s : ℕ) :
    CoherentAt enc (ofOps enc es ops) s := by
  obtain ⟨past, later, rfl, hpast, hlat⟩ := exists_cut hseqs s
  have hwritten := writtenState_applyOp enc
  have hheads := headsExact_ofOps enc es past
  have hbase := ofOps_base enc es past
  have hsecondary := secondaryExact_ofOps enc es hseqs s
  have hlabels := labelsExact_ofOps enc es hseqs s
  have hadj := orderedAdj_ofOps enc es hseqs s
  have hnode := getNodeAt_ofOps enc es hpast hlat
  have hedge := getEdgeAt_ofOps enc es hpast hlat
  constructor
  case labels => exact hlabels.labels
  case times => exact hlabels.times
  case keysNodup => exact nodup_visibleKeys _ s
  case keys =>
    intro labelId key id
    have hcells : Cells enc (fun m => m.base.nodeKeyIndex) :=
      ⟨fun m op => (hwritten m op).base.nodeKeyIndex, fun m h => by rw [h.base]; rfl⟩
    have hexact := MemtableState.keyIndexExact_ofOps hkeys.past labelId key id
    rw [mem_visibleEntries, hcells.valueAt es hpast hlat, hnode, hbase, ← hexact]
    exact join_eq_some_iff
  case out =>
    rw [hedge]
    exact exactly_base enc es hpast hlat (fun m op => (hwritten m op).base.adjOut) rfl hheads.indexed.out
  case inn =>
    rw [hedge]
    exact exactly_base enc es hpast hlat (fun m op => (hwritten m op).base.adjIn) rfl hheads.indexed.inn
  case orderedOut => exact hadj.1
  case orderedIn => exact hadj.2
  case edgeLabels =>
    rw [hedge]
    exact exactly_base enc es hpast hlat (fun m op => (hwritten m op).base.labelEdgeIndex) rfl hheads.indexed.edgeLabels
  case orderedLabels => exact hlabels.orderedLabels
  case edgeIds =>
    rw [hedge]
    exact exactly_base enc es hpast hlat (fun m op => (hwritten m op).base.orderedEdgeIds) rfl hheads.indexed.edgeIds
  case nodeTombstones => exact exactly_of_valueAt (nodeTombstones_at enc es hpast hlat)
  case edgeTombstones => exact exactly_of_valueAt (edgeTombstones_at enc es hpast hlat)
  case eq => exact hsecondary.eq
  case range => exact hsecondary.range
  case compound => exact hsecondary.compound
  case nodesNodup => exact nodup_visibleRecords _ s
  case nodes => exact fun _ _ => mem_visibleRecords
  case edgesNodup => exact nodup_visibleRecords _ s
  case edges => exact fun _ _ => mem_visibleRecords
  case nodeCountAt => exact counts_visibleRecords _ s
  case nodeCount => exact (headsExact_ofOps enc es (past ++ later)).indexed.nodeCount
  case edgeCount => exact (headsExact_ofOps enc es (past ++ later)).indexed.edgeCount

def ada : NodeRecord := ⟨1, .single 4 (by decide), "ada", ∅, 0, 0, 0, none, none, 0⟩

/-- A node is written, gets an edge and is deleted. -/
def writtenThenDeleted : List SeqOp := [(1, .upsertNode ada), (2, .upsertEdge (edgeTo 1 2)), (3, .deleteNode 1 0)]

theorem coherentAt_writtenThenDeleted : CoherentAt plainEncoders
    (ofOps plainEncoders [⟨7, .nodeProperty 4 "age", .equality⟩] writtenThenDeleted) 2 :=
  coherentAt_ofOps plainEncoders _ (by decide) (unambiguous_of_one_each 1 1 (by decide) (by decide)).keys 2

end OverGraph.IndexCoherence
