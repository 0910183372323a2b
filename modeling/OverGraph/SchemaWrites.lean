import OverGraph.CascadingDeletes
import OverGraph.EdgeCandidates
import OverGraph.LimitedScans
import OverGraph.SchemaRules

/-!
# Schema checks of a list of writes

Before a list of writes is logged, the records it leaves behind are checked, and so are the edges at the nodes that it deletes or
relabels. These edges are found by a scan of the layers, and a layer does not list an edge whose other end it has deleted. Such an
edge is missed, though it exists and a check of all edges would find it.
-/

namespace OverGraph.SchemaWrites
open Option hiding any_eq_false map_map
open AssocMaps Records LayeredWrites GraphView Memtable MemtableState Segments Sources SourceList BatchLookup List SchemaWrites
open AdjacencyReads CascadingDeletes EdgeCandidates LayeredStore SchemaRules Fallible RuntimeSchemaCatalog
open NodeFilters (chunks flatten_chunks mem_iff_mem_chunks)
open LimitedScans (finalize mem_finalize)

/-- What a list of operations leaves behind, as far as the schema asks for it. -/
structure SchemaWriteOverlay where
  finalNodes : Map ℕ NodeRecord
  finalEdges : Map ℕ EdgeRecord
  deletedNodes : List ℕ
  deletedEdges : List ℕ
  finalUpsertedEdges : List ℕ
  nodeOrder : List ℕ
  edgeOrder : List ℕ

def SchemaWriteOverlay.new : SchemaWriteOverlay := ⟨∅, ∅, [], [], [], [], []⟩

section
variable (debug : DebugFormat) (cat : RuntimeSchemaCatalog) (dense : Option DenseVectorConfig) (sl : SourceList)

def opMayNeedValidation : WalOp → Bool
  | .upsertNode node => cat.nodeHasApplicableSchema node.labelIds || cat.hasEdgeEndpointConstraints
  | .upsertEdge edge => cat.edgeHasWalValidationRules edge.labelId
  | .deleteNode _ _ => cat.hasEdgeEndpointConstraints
  | .deleteEdge _ _ | .ensureNodeLabel _ _ | .ensureEdgeLabel _ _ | .beginAtomicBatch _ _ | .commitAtomicBatch _ _ => false

def schemaWalOpsMayNeedValidation (ops : List WalOp) : Bool := ops.any (opMayNeedValidation cat)

def stageOp (ovl : SchemaWriteOverlay) : WalOp → SchemaWriteOverlay
  | .upsertNode node =>
    let ovl := { ovl with deletedNodes := ovl.deletedNodes.filter (· != node.id) }
    if cat.hasEdgeEndpointConstraints || cat.nodeHasApplicableSchema node.labelIds then
      { ovl with finalNodes := ovl.finalNodes.insert node.id node, nodeOrder := ovl.nodeOrder ++ [node.id] }
    else { ovl with finalNodes := ovl.finalNodes.erase node.id }
  | .upsertEdge edge =>
    let ovl :=
      { ovl with
        deletedEdges := ovl.deletedEdges.filter (· != edge.id)
        finalUpsertedEdges := ovl.finalUpsertedEdges.insert edge.id }
    if cat.edgeHasWalValidationRules edge.labelId then
      { ovl with finalEdges := ovl.finalEdges.insert edge.id edge, edgeOrder := ovl.edgeOrder ++ [edge.id] }
    else { ovl with finalEdges := ovl.finalEdges.erase edge.id }
  | .deleteNode id _ => { ovl with deletedNodes := ovl.deletedNodes.insert id, finalNodes := ovl.finalNodes.erase id }
  | .deleteEdge id _ =>
    { ovl with
      deletedEdges := ovl.deletedEdges.insert id
      finalEdges := ovl.finalEdges.erase id
      finalUpsertedEdges := ovl.finalUpsertedEdges.filter (· != id) }
  | .ensureNodeLabel _ _ | .ensureEdgeLabel _ _ | .beginAtomicBatch _ _ | .commitAtomicBatch _ _ => ovl

def buildSchemaWriteOverlay (ops : List WalOp) : SchemaWriteOverlay := ops.foldl (stageOp cat) .new

def schemaEndpointValidationChunkSize : ℕ := 4096

inductive SchemaEndpointNodeState where
  | live (labels : NodeLabelSet)
  | missing

def SchemaEndpointNodeState.labels : SchemaEndpointNodeState → Option NodeLabelSet
  | .live labels => some labels
  | .missing => none

abbrev SchemaEndpointLabelCache := Map ℕ SchemaEndpointNodeState

def endpointState : NodeVisibilityState → SchemaEndpointNodeState
  | .live info => .live info.labelIds
  | .deleted | .missing => .missing

/-- A node that the overlay knows goes to the cache; another one that is not there yet is looked up later. -/
def hydrateStaged (ovl : SchemaWriteOverlay) (st : SchemaEndpointLabelCache × List ℕ) (nodeId : ℕ) : SchemaEndpointLabelCache × List ℕ :=
  if (st.1.lookup nodeId).isSome then st
  else match ovl.finalNodes.lookup nodeId with
    | some node => (st.1.insert nodeId (.live node.labelIds), st.2)
    | none => if ovl.deletedNodes.contains nodeId then (st.1.insert nodeId .missing, st.2) else (st.1, st.2 ++ [nodeId])

def hydrateCurrent (cache : SchemaEndpointLabelCache) (chunk : List ℕ) : SchemaEndpointLabelCache :=
  (chunk.zip (sl.findNodeVisibilityMeta chunk)).foldl (fun cache entry => cache.insert entry.1 (endpointState entry.2)) cache

def hydrateNodeIds (ovl : SchemaWriteOverlay) (cache : SchemaEndpointLabelCache) (nodeIds : List ℕ) : SchemaEndpointLabelCache :=
  let staged := (finalize nodeIds).foldl (hydrateStaged ovl) (cache, [])
  (chunks schemaEndpointValidationChunkSize staged.2.length staged.2).foldl (hydrateCurrent sl) staged.1

def labelsFor (cache : SchemaEndpointLabelCache) (nodeId : ℕ) : Option NodeLabelSet :=
  (cache.lookup nodeId).bind SchemaEndpointNodeState.labels

def validateEndpoints (cache : SchemaEndpointLabelCache) (edges : List EdgeRecord) : Check :=
  edges.forM fun edge => cat.validateEdgeEndpointLabelsDetailed edge (labelsFor cache edge.source) (labelsFor cache edge.target)

/-- The nodes of the overlay whose labels change for an endpoint rule, and the deleted nodes. -/
def candidateNodeIds (ovl : SchemaWriteOverlay) : List ℕ :=
  let finalNodeIds := finalize (ovl.finalNodes.entries.map (·.1))
  let relabelled := (finalNodeIds.zip (sl.findNodeVisibilityMeta finalNodeIds)).filterMap fun entry =>
    if cat.labelChangeMayAffectEndpointRules ((isLive entry.2).map (·.labelIds))
        ((ovl.finalNodes.lookup entry.1).map (·.labelIds)) false
    then some entry.1 else none
  finalize (relabelled ++ ovl.deletedNodes)

def scanEdgeIdsByEndpoints (nodeIds : List ℕ) (dir : EdgeCandidates.Direction) (fids : Option (List ℕ)) : List ℕ :=
  finalize (scanLayers (fun edge => endpointMatches nodeIds dir edge && labelAllowed fids edge)
    (fun _ => false) (endpointLayers sl nodeIds dir))

/-- A chunk of the scan: the edges that the list leaves alone are checked. -/
def validateChunk (ovl : SchemaWriteOverlay) (cache : SchemaEndpointLabelCache) (chunk : List ℕ) :
    Except SchemaValidationFailure SchemaEndpointLabelCache := do
  let edgeIds := chunk.filter fun id => !(ovl.deletedEdges.contains id || ovl.finalUpsertedEdges.contains id)
  let edges := ((sl.findEdges edgeIds).filterMap id).filter fun edge => cat.edgeSchemaHasEndpointRules edge.labelId
  let cache := hydrateNodeIds sl ovl cache (edges.flatMap fun edge => [edge.source, edge.target])
  validateEndpoints cat cache edges
  pure cache

def validateEndpointIncidentEdges (ovl : SchemaWriteOverlay) (cache : SchemaEndpointLabelCache) : Check :=
  if !cat.hasEdgeEndpointConstraints || cat.endpointConstrainedEdgeLabelIds.isEmpty then .ok ()
  else do
    let scanned := scanEdgeIdsByEndpoints sl (candidateNodeIds cat sl ovl) .both (some cat.endpointConstrainedEdgeLabelIds)
    let _ ← (chunks schemaEndpointValidationChunkSize scanned.length scanned).foldlM (validateChunk cat sl ovl) cache

def validateSchemaWriteOverlay (ovl : SchemaWriteOverlay) : Check := do
  (ovl.nodeOrder.eraseDups.filterMap ovl.finalNodes.lookup).forM fun node => cat.validateNodeRecordDetailed debug node dense
  let edges := ovl.edgeOrder.eraseDups.filterMap ovl.finalEdges.lookup
  edges.forM (cat.validateEdgeRecordDetailed debug)
  let endpointEdges := edges.filter fun edge => cat.edgeSchemaHasEndpointRules edge.labelId
  let cache := hydrateNodeIds sl ovl ∅ (endpointEdges.flatMap fun edge => [edge.source, edge.target])
  validateEndpoints cat cache endpointEdges
  validateEndpointIncidentEdges cat sl ovl cache

/-- The failure is reported by its message. -/
def validateSchemaForWalOps (ops : List WalOp) : Except String Unit :=
  if cat.isEmpty || !schemaWalOpsMayNeedValidation cat ops then .ok ()
  else (validateSchemaWriteOverlay debug cat dense sl (buildSchemaWriteOverlay cat ops)).mapError (·.message)

def labelsAt (nodeId : ℕ) : Option NodeLabelSet := (sl.findNode nodeId).map (·.labelIds)

def NodeSatisfies (node : NodeRecord) : Prop := cat.validateNodeRecordDetailed debug node dense = .ok ()

def EdgeSatisfies (edge : EdgeRecord) : Prop :=
  cat.validateEdgeRecordDetailed debug edge = .ok () ∧
    cat.validateEdgeEndpointLabelsDetailed edge (labelsAt sl edge.source) (labelsAt sl edge.target) = .ok ()

structure Satisfies : Prop where
  nodes : ∀ id node, sl.findNode id = some node → NodeSatisfies debug cat dense node
  edges : ∀ id edge, sl.findEdge id = some edge → EdgeSatisfies debug cat sl edge

end

section
variable {cat : RuntimeSchemaCatalog} {ovl : SchemaWriteOverlay} {baseSeq : ℕ} {ops : List WalOp}

/-- The overlay has what the list says last about a node. A node that no rule concerns is left out. -/
def NodeStaged (cat : RuntimeSchemaCatalog) (ovl : SchemaWriteOverlay) (id : ℕ) : Option (Option NodeRecord) → Prop
  | none => ovl.finalNodes.lookup id = none ∧ id ∉ ovl.deletedNodes
  | some none => ovl.finalNodes.lookup id = none ∧ id ∈ ovl.deletedNodes
  | some (some node) => id ∉ ovl.deletedNodes ∧ ((ovl.finalNodes.lookup id = none ∧ cat.hasEdgeEndpointConstraints = false ∧
          cat.nodeHasApplicableSchema node.labelIds = false) ∨
        ∃ planned, ovl.finalNodes.lookup id = some planned ∧ id ∈ ovl.nodeOrder ∧ node = { planned with lastWriteSeq := node.lastWriteSeq })

/-- The overlay has what the list says last about an edge. -/
def EdgeStaged (cat : RuntimeSchemaCatalog) (ovl : SchemaWriteOverlay) (id : ℕ) : Option (Option EdgeRecord) → Prop
  | none => ovl.finalEdges.lookup id = none ∧ id ∉ ovl.deletedEdges ∧ id ∉ ovl.finalUpsertedEdges
  | some none => ovl.finalEdges.lookup id = none ∧ id ∈ ovl.deletedEdges
  | some (some edge) => id ∈ ovl.finalUpsertedEdges ∧
      ((ovl.finalEdges.lookup id = none ∧ cat.edgeHasWalValidationRules edge.labelId = false) ∨
        ∃ planned, ovl.finalEdges.lookup id = some planned ∧ id ∈ ovl.edgeOrder ∧ edge = { planned with lastWriteSeq := edge.lastWriteSeq })

structure Staged (cat : RuntimeSchemaCatalog) (baseSeq : ℕ) (ops : List WalOp) (ovl : SchemaWriteOverlay) : Prop where
  node : ∀ id, NodeStaged cat ovl id (nodeLog (sequenced baseSeq ops) id)
  edge : ∀ id, EdgeStaged cat ovl id (edgeLog (sequenced baseSeq ops) id)

theorem staged_new : Staged cat baseSeq [] .new := ⟨fun _ => ⟨rfl, not_mem_nil⟩, fun _ => ⟨rfl, not_mem_nil, not_mem_nil⟩⟩

variable {word : Option (Option NodeRecord)} {id : ℕ} {overlay' : SchemaWriteOverlay}

/-- The fields that say something about a node. -/
theorem NodeStaged.congr
    (h : NodeStaged cat ovl id word) (hnos : overlay'.finalNodes.lookup id = ovl.finalNodes.lookup id)
    (hdel : id ∈ overlay'.deletedNodes ↔ id ∈ ovl.deletedNodes) (hor : id ∈ ovl.nodeOrder → id ∈ overlay'.nodeOrder) :
    NodeStaged cat overlay' id word := by
  rcases word with - | - | node
  · exact ⟨hnos.trans h.1, fun hid => h.2 (hdel.mp hid)⟩
  · exact ⟨hnos.trans h.1, hdel.mpr h.2⟩
  · refine ⟨fun hid => h.1 (hdel.mp hid), h.2.imp ?_ ?_⟩
    · exact fun hnone => ⟨hnos.trans hnone.1, hnone.2⟩
    · exact fun ⟨planned, hplan, hin, heq⟩ => ⟨planned, hnos.trans hplan, hor hin, heq⟩

theorem EdgeStaged.congr {word : Option (Option EdgeRecord)}
    (h : EdgeStaged cat ovl id word) (heds : overlay'.finalEdges.lookup id = ovl.finalEdges.lookup id)
    (hdel : id ∈ overlay'.deletedEdges ↔ id ∈ ovl.deletedEdges)
    (hupse : id ∈ overlay'.finalUpsertedEdges ↔ id ∈ ovl.finalUpsertedEdges)
    (hor : id ∈ ovl.edgeOrder → id ∈ overlay'.edgeOrder) : EdgeStaged cat overlay' id word := by
  rcases word with - | - | edge
  · exact ⟨heds.trans h.1, fun hid => h.2.1 (hdel.mp hid), fun hid => h.2.2 (hupse.mp hid)⟩
  · exact ⟨heds.trans h.1, hdel.mpr h.2⟩
  · refine ⟨hupse.mpr h.1, h.2.imp ?_ ?_⟩
    · exact fun hnone => ⟨heds.trans hnone.1, hnone.2⟩
    · exact fun ⟨planned, hplan, hin, heq⟩ => ⟨planned, heds.trans hplan, hor hin, heq⟩

theorem nodeStaged_stageOp (h : NodeStaged cat ovl id word) (q : ℕ) (op : WalOp) :
    NodeStaged cat (stageOp cat ovl op) id ((nodeLog [(q, op)] id).or word) := by
  cases op with
  | upsertNode node =>
    by_cases hid : node.id = id
    · subst hid
      have hword : nodeLog [(q, .upsertNode node)] node.id = some (some { node with lastWriteSeq := q }) := by
        simp [nodeLog, nodeWrites, lastWrite]
      rw [hword, some_or, stageOp]
      split
      · refine ⟨?_, Or.inr ⟨node, AList.lookup_insert _, mem_append_right _ mem_cons_self, rfl⟩⟩
        simp
      · rename_i hfree
        rw [Bool.or_eq_true, not_or, Bool.not_eq_true, Bool.not_eq_true] at hfree
        exact ⟨by simp, Or.inl ⟨AList.lookup_erase _ _, hfree⟩⟩
    · have hword : nodeLog [(q, .upsertNode node)] id = none := by simp [nodeLog, nodeWrites, lastWrite, hid]
      rw [hword, none_or, stageOp]
      have hne : id ≠ node.id := fun heq => hid heq.symm
      split
      · exact h.congr (AList.lookup_insert_ne hne) (by simp [hne]) fun hin => mem_append_left _ hin
      · exact h.congr (AList.lookup_erase_ne hne) (by simp [hne]) fun hin => hin
  | deleteNode nodeId deletedAt =>
    by_cases hid : nodeId = id
    · subst hid
      have hword : nodeLog [(q, .deleteNode nodeId deletedAt)] nodeId = some none := by simp [nodeLog, nodeWrites, lastWrite]
      rw [hword, some_or]
      exact ⟨AList.lookup_erase _ _, mem_insert_self⟩
    · have hword : nodeLog [(q, .deleteNode nodeId deletedAt)] id = none := by simp [nodeLog, nodeWrites, lastWrite, hid]
      have hne : id ≠ nodeId := fun heq => hid heq.symm
      rw [hword, none_or]
      exact h.congr (AList.lookup_erase_ne hne) (by simp [stageOp, hne]) fun hin => hin
  | upsertEdge edge =>
    rw [show nodeLog [(q, .upsertEdge edge)] id = none from rfl, none_or, stageOp]
    split
    · exact h.congr rfl Iff.rfl fun hin => hin
    · exact h.congr rfl Iff.rfl fun hin => hin
  | deleteEdge edgeId deletedAt => exact h.congr rfl Iff.rfl fun hin => hin
  | ensureNodeLabel label labelId | ensureEdgeLabel label labelId | beginAtomicBatch firstSeq opCount
  | commitAtomicBatch firstSeq opCount => exact h

theorem edgeStaged_stageOp {word : Option (Option EdgeRecord)} (h : EdgeStaged cat ovl id word) (q : ℕ) (op : WalOp) :
    EdgeStaged cat (stageOp cat ovl op) id ((edgeLog [(q, op)] id).or word) := by
  cases op with
  | upsertEdge edge =>
    by_cases hid : edge.id = id
    · subst hid
      have hword : edgeLog [(q, .upsertEdge edge)] edge.id = some (some { edge with lastWriteSeq := q }) := by
        simp [edgeLog, edgeWrites, lastWrite]
      rw [hword, some_or, stageOp]
      split
      · exact ⟨mem_insert_self, Or.inr ⟨edge, AList.lookup_insert _, mem_append_right _ mem_cons_self, rfl⟩⟩
      · rename_i hfree
        exact ⟨mem_insert_self, Or.inl ⟨AList.lookup_erase _ _, Bool.not_eq_true _ ▸ hfree⟩⟩
    · have hword : edgeLog [(q, .upsertEdge edge)] id = none := by simp [edgeLog, edgeWrites, lastWrite, hid]
      rw [hword, none_or, stageOp]
      have hne : id ≠ edge.id := fun heq => hid heq.symm
      split
      · exact h.congr (AList.lookup_insert_ne hne) (by simp [hne]) (by simp [hne]) fun hin => mem_append_left _ hin
      · exact h.congr (AList.lookup_erase_ne hne) (by simp [hne]) (by simp [hne]) fun hin => hin
  | deleteEdge edgeId deletedAt =>
    by_cases hid : edgeId = id
    · subst hid
      have hword : edgeLog [(q, .deleteEdge edgeId deletedAt)] edgeId = some none := by simp [edgeLog, edgeWrites, lastWrite]
      rw [hword, some_or]
      exact ⟨AList.lookup_erase _ _, mem_insert_self⟩
    · have hword : edgeLog [(q, .deleteEdge edgeId deletedAt)] id = none := by simp [edgeLog, edgeWrites, lastWrite, hid]
      have hne : id ≠ edgeId := fun heq => hid heq.symm
      rw [hword, none_or]
      exact h.congr (AList.lookup_erase_ne hne) (by simp [stageOp, hne]) (by simp [stageOp, hne]) fun hin => hin
  | upsertNode node =>
    rw [show edgeLog [(q, .upsertNode node)] id = none from rfl, none_or, stageOp]
    split
    · exact h.congr rfl Iff.rfl Iff.rfl fun hin => hin
    · exact h.congr rfl Iff.rfl Iff.rfl fun hin => hin
  | deleteNode nodeId deletedAt => exact h.congr rfl Iff.rfl Iff.rfl fun hin => hin
  | ensureNodeLabel label labelId | ensureEdgeLabel label labelId | beginAtomicBatch firstSeq opCount
  | commitAtomicBatch firstSeq opCount => exact h

theorem staged_buildSchemaWriteOverlay (cat : RuntimeSchemaCatalog) (baseSeq : ℕ) (ops : List WalOp) :
    Staged cat baseSeq ops (buildSchemaWriteOverlay cat ops) := by
  induction ops using List.reverseRecOn with
  | nil => exact staged_new
  | append_singleton ops op ih =>
    have hlast : sequenced (baseSeq + ops.length) [op] = [(baseSeq + ops.length + 1 + 0, op)] := rfl
    rw [buildSchemaWriteOverlay, foldl_append, foldl_cons, foldl_nil]
    constructor
    · intro id
      rw [sequenced_append, nodeLog_append, hlast]
      exact nodeStaged_stageOp (ih.node id) _ op
    · intro id
      rw [sequenced_append, edgeLog_append, hlast]
      exact edgeStaged_stageOp (ih.edge id) _ op

end

variable {nodeIds : List ℕ}

section
variable {sl : SourceList} {ovl : SchemaWriteOverlay} {cache : SchemaEndpointLabelCache}

/-- The state of a node once the list is applied. -/
def finalState (sl : SourceList) (ovl : SchemaWriteOverlay) (nodeId : ℕ) : SchemaEndpointNodeState :=
  match ovl.finalNodes.lookup nodeId with
  | some node => .live node.labelIds
  | none =>
    if ovl.deletedNodes.contains nodeId then .missing
    else endpointState (shown .missing (visibilityOpinion (firstOpinion sl.nodeLayers nodeId)))

def Hydrated (sl : SourceList) (ovl : SchemaWriteOverlay) (cache : SchemaEndpointLabelCache) : Prop :=
  ∀ id state, cache.lookup id = some state → state = finalState sl ovl id

theorem hydrated_empty : Hydrated sl ovl ∅ := nofun

theorem Hydrated.insert (h : Hydrated sl ovl cache) {nodeId : ℕ} {state : SchemaEndpointNodeState}
    (hsta : state = finalState sl ovl nodeId) : Hydrated sl ovl (cache.insert nodeId state) := by
  intro id found hfnd
  by_cases hid : id = nodeId
  · subst hid
    rw [AList.lookup_insert] at hfnd
    exact (some.inj hfnd).symm.trans hsta
  · rw [AList.lookup_insert_ne hid] at hfnd
    exact h id found hfnd

theorem isSome_lookup_insert (nodeId : ℕ) (state : SchemaEndpointNodeState) {id : ℕ} (h : (cache.lookup id).isSome ∨ id = nodeId) :
    ((cache.insert nodeId state).lookup id).isSome := by
  by_cases hid : id = nodeId
  · subst hid
    rw [AList.lookup_insert]
    rfl
  · rw [AList.lookup_insert_ne hid]
    exact h.resolve_right hid

/-- The nodes seen so far are in the cache, or the overlay does not know them and they wait. -/
structure Hydrating (sl : SourceList) (ovl : SchemaWriteOverlay) (seen : List ℕ) (st : SchemaEndpointLabelCache × List ℕ) : Prop where
  states : Hydrated sl ovl st.1
  unknown : ∀ id ∈ st.2, ovl.finalNodes.lookup id = none ∧ ovl.deletedNodes.contains id = false
  covers : ∀ id ∈ seen, (st.1.lookup id).isSome ∨ id ∈ st.2

variable {st : SchemaEndpointLabelCache × List ℕ}

theorem Hydrating.hydrateStaged {seen : List ℕ} (h : Hydrating sl ovl seen st) (nodeId : ℕ) :
    Hydrating sl ovl (nodeId :: seen) (hydrateStaged ovl st nodeId) := by
  have hins : ∀ state, state = finalState sl ovl nodeId → Hydrating sl ovl (nodeId :: seen) (st.1.insert nodeId state, st.2) := by
    intro state hsta
    refine ⟨h.states.insert hsta, h.unknown, fun id hid => ?_⟩
    rcases mem_cons.mp hid with rfl | hid
    · exact Or.inl (isSome_lookup_insert _ _ (Or.inr rfl))
    · exact (h.covers id hid).imp (fun hsome => isSome_lookup_insert _ _ (Or.inl hsome)) fun hin => hin
  rw [SchemaWrites.hydrateStaged]
  split
  · rename_i hcach
    refine ⟨h.states, h.unknown, fun id hid => ?_⟩
    rcases mem_cons.mp hid with rfl | hid
    · exact Or.inl hcach
    · exact h.covers id hid
  · split
    · rename_i node hnode
      exact hins _ (by rw [finalState, hnode])
    · rename_i hnode
      split
      · rename_i hdel
        exact hins _ (by rw [finalState, hnode, if_pos hdel])
      · rename_i hdel
        refine ⟨h.states, ?_, ?_⟩
        · intro id hid
          rcases mem_append.mp hid with hid | hid
          · exact h.unknown id hid
          · obtain rfl := mem_singleton.mp hid
            exact ⟨hnode, Bool.not_eq_true _ ▸ hdel⟩
        · intro id hid
          rcases mem_cons.mp hid with rfl | hid
          · exact Or.inr (mem_append_right _ mem_cons_self)
          · exact (h.covers id hid).imp (fun hsome => hsome) fun hin => mem_append_left _ hin

theorem hydrating_foldl {seen : List ℕ} (h : Hydrating sl ovl seen st) (nodeIds : List ℕ) :
    Hydrating sl ovl (nodeIds ++ seen) (nodeIds.foldl (hydrateStaged ovl) st) := by
  induction nodeIds generalizing seen st with
  | nil => exact h
  | cons nodeId nodeIds ih =>
    have hrest := ih (h.hydrateStaged nodeId)
    refine ⟨hrest.states, hrest.unknown, fun id hid => hrest.covers id ?_⟩
    simp only [cons_append, mem_cons, mem_append] at hid ⊢
    tauto

theorem hydrateCurrent_eq (h : sl.WellFormed) (cache : SchemaEndpointLabelCache) (chunk : List ℕ) :
    hydrateCurrent sl cache chunk = chunk.foldl (fun cache id =>
      cache.insert id (endpointState (shown .missing (visibilityOpinion (firstOpinion sl.nodeLayers id))))) cache := by
  rw [hydrateCurrent, h.findNodeVisibilityMeta, ← map_prod_left_eq_zip, foldl_map]

theorem hydrated_foldl (h : Hydrated sl ovl cache)
    (hunk : ∀ id ∈ nodeIds, ovl.finalNodes.lookup id = none ∧ ovl.deletedNodes.contains id = false) :
    let final := nodeIds.foldl (fun cache id =>
      cache.insert id (endpointState (shown .missing (visibilityOpinion (firstOpinion sl.nodeLayers id))))) cache
    Hydrated sl ovl final ∧ ∀ id, (cache.lookup id).isSome ∨ id ∈ nodeIds → (final.lookup id).isSome := by
  induction nodeIds generalizing cache with
  | nil => exact ⟨h, fun id hid => hid.resolve_right not_mem_nil⟩
  | cons nodeId nodeIds ih =>
    obtain ⟨hnode, hdel⟩ := hunk nodeId mem_cons_self
    have hsta : endpointState (shown .missing (visibilityOpinion (firstOpinion sl.nodeLayers nodeId))) = finalState sl ovl nodeId := by
      rw [finalState, hnode, hdel]
      rfl
    obtain ⟨hstas, hcovs⟩ := ih (h.insert hsta) fun id hid => hunk id (mem_cons_of_mem _ hid)
    refine ⟨hstas, fun id hid => hcovs id ?_⟩
    rcases hid with hid | hid
    · exact Or.inl (isSome_lookup_insert _ _ (Or.inl hid))
    · rcases mem_cons.mp hid with rfl | hid
      · exact Or.inl (isSome_lookup_insert _ _ (Or.inr rfl))
      · exact Or.inr hid

theorem hydrateNodeIds_spec (hw : sl.WellFormed) (h : Hydrated sl ovl cache) (nodeIds : List ℕ) :
    Hydrated sl ovl (hydrateNodeIds sl ovl cache nodeIds) ∧
      ∀ id ∈ nodeIds, labelsFor (hydrateNodeIds sl ovl cache nodeIds) id = (finalState sl ovl id).labels := by
  have hst : Hydrating sl ovl [] (cache, []) := ⟨h, fun _ => nofun, fun _ => nofun⟩
  have hstgd := hydrating_foldl hst (finalize nodeIds)
  have hflat : ∀ (parts : List (List ℕ)) (cache : SchemaEndpointLabelCache), parts.foldl (hydrateCurrent sl) cache =
      parts.flatten.foldl (fun cache id =>
        cache.insert id (endpointState (shown .missing (visibilityOpinion (firstOpinion sl.nodeLayers id))))) cache := by
    intro parts
    induction parts with
    | nil => exact fun _ => rfl
    | cons part parts ih =>
      intro cache
      rw [foldl_cons, ih, flatten_cons, foldl_append, hydrateCurrent_eq hw]
  obtain ⟨hstas, hcovs⟩ := hydrated_foldl hstgd.states hstgd.unknown
  rw [hydrateNodeIds, hflat, flatten_chunks (by decide) _ _ (Nat.le_refl _)]
  refine ⟨hstas, fun id hid => ?_⟩
  obtain ⟨state, hsta⟩ := isSome_iff_exists.mp
    (hcovs id (hstgd.covers id (mem_append_left _ (mem_finalize.mpr hid))))
  rw [labelsFor, hsta, hstas id state hsta]
  rfl

end

section
variable {debug : DebugFormat} {cat : RuntimeSchemaCatalog} {dense : Option DenseVectorConfig} {sl : SourceList}
  {ovl : SchemaWriteOverlay}

/-- The edge fits the labels that its ends have once the list is applied. -/
def EndpointsHold (cat : RuntimeSchemaCatalog) (sl : SourceList) (ovl : SchemaWriteOverlay) (edge : EdgeRecord) : Prop :=
  cat.validateEdgeEndpointLabelsDetailed edge (finalState sl ovl edge.source).labels (finalState sl ovl edge.target).labels = .ok ()

variable {cache : SchemaEndpointLabelCache}

theorem validateEndpoints_ok (hw : sl.WellFormed) (h : Hydrated sl ovl cache) (edges : List EdgeRecord) :
    validateEndpoints cat (hydrateNodeIds sl ovl cache (edges.flatMap fun edge => [edge.source, edge.target])) edges = .ok () ↔
      ∀ edge ∈ edges, EndpointsHold cat sl ovl edge := by
  have hlabs := (hydrateNodeIds_spec hw h (edges.flatMap fun edge => [edge.source, edge.target])).2
  rw [validateEndpoints, forM_ok]
  apply forall₂_congr
  intro edge hedge
  rw [hlabs edge.source (mem_flatMap.mpr ⟨edge, hedge, mem_cons_self⟩),
    hlabs edge.target (mem_flatMap.mpr ⟨edge, hedge, mem_cons_of_mem _ mem_cons_self⟩), EndpointsHold]

/-- Only edges with endpoint rules need a look at their ends. -/
theorem endpointsHold_filter {edges : List EdgeRecord} :
    (∀ edge ∈ edges.filter fun edge => cat.edgeSchemaHasEndpointRules edge.labelId, EndpointsHold cat sl ovl edge) ↔
      ∀ edge ∈ edges, EndpointsHold cat sl ovl edge := by
  constructor
  · intro h edge hedge
    cases hrules : cat.edgeSchemaHasEndpointRules edge.labelId with
    | true => exact h edge (mem_filter.mpr ⟨hedge, hrules⟩)
    | false => exact validateEdgeEndpointLabelsDetailed_unconstrained hrules _ _
  · exact fun h edge hedge => h edge (mem_filter.mp hedge).1

/-- The list leaves the edge alone, as far as the overlay tells. -/
def untouched (ovl : SchemaWriteOverlay) (id : ℕ) : Bool := !(ovl.deletedEdges.contains id || ovl.finalUpsertedEdges.contains id)

/-- The untouched edges among those listed fit their ends. -/
def ChunkHolds (cat : RuntimeSchemaCatalog) (sl : SourceList) (ovl : SchemaWriteOverlay) (chunk : List ℕ) : Prop :=
  ∀ id ∈ chunk, untouched ovl id = true → ∀ edge, visible sl.edgeLayers id = some edge → EndpointsHold cat sl ovl edge

def chunkEdges (cat : RuntimeSchemaCatalog) (sl : SourceList) (ovl : SchemaWriteOverlay) (chunk : List ℕ) : List EdgeRecord :=
  ((sl.findEdges (chunk.filter (untouched ovl))).filterMap id).filter fun edge => cat.edgeSchemaHasEndpointRules edge.labelId

theorem endpointsHold_chunkEdges (hw : sl.WellFormed) (chunk : List ℕ) :
    (∀ edge ∈ chunkEdges cat sl ovl chunk, EndpointsHold cat sl ovl edge) ↔ ChunkHolds cat sl ovl chunk := by
  rw [chunkEdges, endpointsHold_filter, hw.findEdges, filterMap_map]
  constructor
  · intro heds id hid hunt edge hedge
    exact heds edge (mem_filterMap.mpr ⟨id, mem_filter.mpr ⟨hid, hunt⟩, hedge⟩)
  · intro hck edge hedge
    obtain ⟨id, hid, hvis⟩ := mem_filterMap.mp hedge
    exact hck id (mem_filter.mp hid).1 (mem_filter.mp hid).2 edge hvis

section
variable (hw : sl.WellFormed) {cache : SchemaEndpointLabelCache} (h : Hydrated sl ovl cache)
include hw h

theorem validateChunk_spec (chunk : List ℕ) :
    (ChunkHolds cat sl ovl chunk ∧ ∃ cache', validateChunk cat sl ovl cache chunk = .ok cache' ∧ Hydrated sl ovl cache') ∨
      (¬ChunkHolds cat sl ovl chunk ∧ ∃ failure, validateChunk cat sl ovl cache chunk = .error failure) := by
  have hcheck := (validateEndpoints_ok hw h (chunkEdges cat sl ovl chunk)).trans (endpointsHold_chunkEdges hw chunk)
  have hstas := (hydrateNodeIds_spec hw h ((chunkEdges cat sl ovl chunk).flatMap fun edge => [edge.source, edge.target])).1
  cases hres : validateEndpoints cat (hydrateNodeIds sl ovl cache ((chunkEdges cat sl ovl chunk).flatMap fun edge =>
      [edge.source, edge.target])) (chunkEdges cat sl ovl chunk) with
  | ok passed =>
    refine Or.inl ⟨hcheck.mp hres, _, ?_, hstas⟩
    exact congrArg (· >>= fun _ => pure _) hres
  | error failure =>
    refine Or.inr ⟨fun hck => ?_, failure, congrArg (· >>= fun _ => pure _) hres⟩
    rw [hcheck.mpr hck] at hres
    cases hres

theorem foldlM_validateChunk_ok (parts : List (List ℕ)) :
    (∃ final, parts.foldlM (validateChunk cat sl ovl) cache = .ok final) ↔ ∀ chunk ∈ parts, ChunkHolds cat sl ovl chunk := by
  induction parts generalizing cache with
  | nil => exact ⟨fun _ => nofun, fun _ => ⟨cache, rfl⟩⟩
  | cons part parts ih =>
    rw [foldlM_cons, forall_mem_cons]
    rcases validateChunk_spec hw h part with ⟨hpart, cache', hok, hcache'⟩ | ⟨hpart, failure, herr⟩
    · rw [hok, Fallible.ok_bind, ih hcache']
      exact ⟨fun hrest => ⟨hpart, hrest⟩, fun hrest => hrest.2⟩
    · rw [herr]
      exact ⟨nofun, fun hrest => absurd hrest.1 hpart⟩

end

def scannedEdges (cat : RuntimeSchemaCatalog) (sl : SourceList) (ovl : SchemaWriteOverlay) : List ℕ :=
  scanEdgeIdsByEndpoints sl (SchemaWrites.candidateNodeIds cat sl ovl) .both (some cat.endpointConstrainedEdgeLabelIds)

theorem validateEndpointIncidentEdges_ok (hcat : cat.KnowsEndpointRules) (hw : sl.WellFormed)
    (h : Hydrated sl ovl cache) :
    validateEndpointIncidentEdges cat sl ovl cache = .ok () ↔ ChunkHolds cat sl ovl (scannedEdges cat sl ovl) := by
  rw [validateEndpointIncidentEdges]
  split
  · rename_i hfree
    refine iff_of_true rfl fun id _ _ edge _ => ?_
    cases hrules : cat.edgeSchemaHasEndpointRules edge.labelId with
    | false => exact validateEdgeEndpointLabelsDetailed_unconstrained hrules _ _
    | true =>
      obtain ⟨hcons, hcon⟩ := constraints_of_endpointRules hcat hrules
      rw [hcons, Bool.not_true, Bool.false_or, List.isEmpty_iff] at hfree
      rw [hfree] at hcon
      cases hcon
  · have hcks := @foldlM_validateChunk_ok cat sl ovl hw cache h
      (chunks schemaEndpointValidationChunkSize (scannedEdges cat sl ovl).length (scannedEdges cat sl ovl))
    have hflat : ChunkHolds cat sl ovl (scannedEdges cat sl ovl) ↔
        ∀ chunk ∈ chunks schemaEndpointValidationChunkSize (scannedEdges cat sl ovl).length (scannedEdges cat sl ovl),
          ChunkHolds cat sl ovl chunk := by
      have hmem := @mem_iff_mem_chunks ℕ schemaEndpointValidationChunkSize (by decide) (scannedEdges cat sl ovl)
      constructor
      · exact fun hall chunk hck id hid => hall id ((hmem id).mpr ⟨chunk, hck, hid⟩)
      · intro hall id hid
        obtain ⟨chunk, hck, hid⟩ := (hmem id).mp hid
        exact hall chunk hck id hid
    rw [hflat, ← hcks]
    change (List.foldlM (validateChunk cat sl ovl) cache _ >>= fun _ => pure PUnit.unit) = _ ↔ _
    rw [← scannedEdges]
    constructor
    · intro hok
      obtain ⟨final, hfinl, -⟩ := Fallible.bind_ok hok
      exact ⟨final, hfinl⟩
    · rintro ⟨final, hfinl⟩
      rw [hfinl]
      rfl

/-- The nodes and edges that the overlay has pass, and so do the edges that the scan lists. -/
theorem validateSchemaWriteOverlay_ok (hcat : cat.KnowsEndpointRules) (hw : sl.WellFormed) :
    validateSchemaWriteOverlay debug cat dense sl ovl = .ok () ↔
      (∀ id ∈ ovl.nodeOrder, ∀ node, ovl.finalNodes.lookup id = some node → NodeSatisfies debug cat dense node) ∧
        (∀ id ∈ ovl.edgeOrder, ∀ edge, ovl.finalEdges.lookup id = some edge →
          cat.validateEdgeRecordDetailed debug edge = .ok () ∧ EndpointsHold cat sl ovl edge) ∧
            ChunkHolds cat sl ovl (scannedEdges cat sl ovl) := by
  have hmem : ∀ {β : Type} (order : List ℕ) (find : ℕ → Option β) (P : β → Prop),
      (∀ b ∈ order.eraseDups.filterMap find, P b) ↔ ∀ id ∈ order, ∀ b, find id = some b → P b := by
    intro β order find P
    constructor
    · intro h id hid b hb
      exact h b (mem_filterMap.mpr ⟨id, mem_eraseDups.mpr hid, hb⟩)
    · intro h b hb
      obtain ⟨id, hid, hfind⟩ := mem_filterMap.mp hb
      exact h id (mem_eraseDups.mp hid) b hfind
  rw [validateSchemaWriteOverlay, seq_ok, forM_ok, hmem]
  apply and_congr_right
  intro _
  rw [seq_ok, forM_ok, seq_ok, validateEndpoints_ok hw hydrated_empty, endpointsHold_filter,
    validateEndpointIncidentEdges_ok hcat hw (hydrateNodeIds_spec hw hydrated_empty _).1, ← and_assoc, hmem, hmem]
  apply and_congr_left
  intro _
  constructor
  · exact fun h id hid edge hedge => ⟨h.1 id hid edge hedge, h.2 id hid edge hedge⟩
  · exact fun h => ⟨fun id hid edge hedge => (h id hid edge hedge).1, fun id hid edge hedge => (h id hid edge hedge).2⟩

end

theorem mem_scanLayers_iff {test : EdgeRecord → Bool} {lays : List EdgeLayer} {shadowed : ℕ → Bool} {id : ℕ} (hshad : shadowed id = false) :
    id ∈ scanLayers test shadowed lays ↔
      ∃ lay, lays.find? (fun lay => (lay.2 id).isSome) = some lay ∧ id ∈ lay.1 ∧ (lay.2 id).join.any test = true := by
  induction lays generalizing shadowed with
  | nil => exact ⟨nofun, fun ⟨_, h, _⟩ => nomatch h⟩
  | cons lay lays ih =>
    obtain ⟨ids, opinion⟩ := lay
    rw [scanLayers, mem_append, mem_filter, hshad, Bool.not_false, Bool.and_true]
    cases hop : opinion id with
    | none =>
      have hrest := @ih (fun id => shadowed id || (opinion id).isSome) (by rw [hshad, hop]; rfl)
      rw [hrest, find?_cons_of_neg (by simp [hop])]
      exact ⟨fun h => h.resolve_left fun hfst => (by cases hfst.2), Or.inr⟩
    | some held =>
      rw [find?_cons_of_pos (by simp [hop])]
      constructor
      · rintro (hfst | hrest)
        · refine ⟨_, rfl, hfst.1, ?_⟩
          rw [show ((ids, opinion) : EdgeLayer).2 id = some held from hop]
          exact hfst.2
        · have hunk := scanLayers_unshadowed hrest
          rw [hop, isSome_some, Bool.or_true] at hunk
          cases hunk
      · rintro ⟨found, hfnd, hid, htest⟩
        obtain rfl := some.inj hfnd
        rw [show ((ids, opinion) : EdgeLayer).2 id = some held from hop] at htest
        exact Or.inl ⟨hid, htest⟩

theorem firstOpinion_find {α ν : Type} (opinion : α → Opinion ℕ ν) (lays : List α) (id : ℕ) :
    firstOpinion (lays.map opinion) id = (lays.find? fun lay => (opinion lay id).isSome).bind fun lay => opinion lay id := by
  induction lays with
  | nil => rfl
  | cons lay lays ih =>
    rw [map_cons, firstOpinion_cons]
    cases hop : opinion lay id with
    | none => rw [find?_cons_of_neg (by simp [hop]), none_or, ih]
    | some held => rw [find?_cons_of_pos (by simp [hop]), some_or, bind_some, hop]

section
variable (cat : RuntimeSchemaCatalog) (sl : SourceList) (ops : List WalOp)

/-- The list deletes the node, or relabels it for an endpoint rule. -/
def Changed (nodeId : ℕ) : Prop :=
  match nodeLog (sequenced sl.snapshotSeq ops) nodeId with
  | none => False
  | some none => True
  | some (some node) => cat.labelChangeMayAffectEndpointRules (labelsAt sl nodeId) (some node.labelIds) false = true

def MemtableHides (m : MemtableState) (edge : EdgeRecord) : Prop :=
  m.isNodeDeletedAt edge.source sl.snapshotSeq = true ∨ m.isNodeDeletedAt edge.target sl.snapshotSeq = true

/-- A segment has deleted the end across from each changed one. -/
def SegmentHides (seg : Segment) (edge : EdgeRecord) : Prop :=
  (Changed cat sl ops edge.source → seg.isNodeDeleted edge.target = true) ∧
    (Changed cat sl ops edge.target → seg.isNodeDeleted edge.source = true)

/-- The newest layer that knows the edge has deleted an end of it, so that the scan does not list it. -/
def Hidden (id : ℕ) (edge : EdgeRecord) : Prop :=
  match (sl.active :: sl.immutable).find? fun m => ((memtableLayer sl m).2 id).isSome with
  | some m => MemtableHides sl m edge
  | none =>
    match sl.segments.find? fun seg => ((segmentLayer seg).2 id).isSome with
    | some seg => SegmentHides cat sl ops seg edge
    | none => False

end

variable {edge : EdgeRecord}

section
variable {cat : RuntimeSchemaCatalog} {sl : SourceList} {ops : List WalOp}

variable {dir : EdgeCandidates.Direction}

theorem mem_memtableEndpointLayer {m : MemtableState} {id : ℕ}
    (h : (memtableLayer sl m).2 id = some (some edge)) :
    id ∈ (memtableEndpointLayer sl nodeIds dir m).1 ↔ memtableEndpointMatches sl m nodeIds dir edge = true := by
  rw [memtableEndpointLayer, (perm_insertionSort _ _).mem_iff, mem_filter, getEdgeAt_of_memtableLayer h, any_some]
  exact and_iff_right ((memtableLayer_lists m).holds id edge h)

theorem mem_segmentEndpointLayer {seg : Segment} {id : ℕ}
    (h : (segmentLayer seg).2 id = some (some edge)) :
    id ∈ (segmentEndpointLayer nodeIds dir seg).1 ↔ segmentEndpointMatches seg nodeIds dir edge = true := by
  rw [segmentEndpointLayer, (perm_insertionSort _ _).mem_iff, mem_filter, getEdge_of_segmentLayer h, any_some]
  exact and_iff_right ((segmentLayer_lists seg).holds id edge h)

section
variable {nodeIds : List ℕ} (hnos : ∀ id, nodeIds.contains id = true ↔ Changed cat sl ops id) {fids : Option (List ℕ)}
  {id : ℕ} {edge : EdgeRecord}
include hnos

theorem endpointMatches_changed : endpointMatches nodeIds .both edge = true ↔
    Changed cat sl ops edge.source ∨ Changed cat sl ops edge.target := by
  rw [endpointMatches, Bool.or_eq_true, hnos, hnos]

theorem memtable_lists {m : MemtableState} (h : (memtableLayer sl m).2 id = some (some edge)) :
    (id ∈ (memtableEndpointLayer sl nodeIds .both m).1 ∧ ((memtableEndpointLayer sl nodeIds .both m).2 id).join.any (fun edge =>
        endpointMatches nodeIds .both edge && labelAllowed fids edge) = true) ↔
      (Changed cat sl ops edge.source ∨ Changed cat sl ops edge.target) ∧ labelAllowed fids edge = true ∧ ¬MemtableHides sl m edge := by
  have hends := @endpointMatches_changed cat sl ops nodeIds hnos edge
  rw [mem_memtableEndpointLayer h, show (memtableEndpointLayer sl nodeIds .both m).2 id = some (some edge) from h, join_some,
    any_some, memtableEndpointMatches, Bool.and_eq_true, Bool.and_eq_true, Bool.and_eq_true, hends, Bool.not_eq_true',
    Bool.not_eq_true', MemtableHides, not_or, Bool.not_eq_true, Bool.not_eq_true]
  constructor
  · rintro ⟨⟨⟨hchg, hsrc⟩, htgt⟩, -, hlab⟩
    exact ⟨hchg, hlab, hsrc, htgt⟩
  · rintro ⟨hchg, hlab, hsrc, htgt⟩
    exact ⟨⟨⟨hchg, hsrc⟩, htgt⟩, hchg, hlab⟩

theorem segment_lists {seg : Segment} (h : (segmentLayer seg).2 id = some (some edge)) :
    (id ∈ (segmentEndpointLayer nodeIds .both seg).1 ∧ ((segmentEndpointLayer nodeIds .both seg).2 id).join.any (fun edge =>
        endpointMatches nodeIds .both edge && labelAllowed fids edge) = true) ↔
      (Changed cat sl ops edge.source ∨ Changed cat sl ops edge.target) ∧ labelAllowed fids edge = true ∧
        ¬SegmentHides cat sl ops seg edge := by
  have hends := @endpointMatches_changed cat sl ops nodeIds hnos edge
  rw [mem_segmentEndpointLayer h, show (segmentEndpointLayer nodeIds .both seg).2 id = some (some edge) from h, join_some,
    any_some, segmentEndpointMatches, Bool.or_eq_true, Bool.and_eq_true, Bool.and_eq_true, Bool.and_eq_true, hnos, hnos, hends,
    Bool.not_eq_true', Bool.not_eq_true', SegmentHides, not_and_or, Classical.not_imp, Classical.not_imp, Bool.not_eq_true, Bool.not_eq_true]
  constructor
  · rintro ⟨hlist, hchg, hlab⟩
    exact ⟨hchg, hlab, hlist⟩
  · rintro ⟨hchg, hlab, hlist⟩
    exact ⟨hlist, hchg, hlab⟩

/-- Among the edges at changed nodes, the scan lists those that are not hidden. -/
theorem mem_scanEdgeIdsByEndpoints (hedge : sl.findEdge id = some edge) : id ∈ scanEdgeIdsByEndpoints sl nodeIds .both fids ↔
      (Changed cat sl ops edge.source ∨ Changed cat sl ops edge.target) ∧ labelAllowed fids edge = true ∧ ¬Hidden cat sl ops id edge := by
  rw [findEdge_eq_visible, visible, edgeScanLayers, map_append, firstOpinion_append, map_map, map_map, firstOpinion_find,
    firstOpinion_find] at hedge
  rw [scanEdgeIdsByEndpoints, mem_finalize, mem_scanLayers_iff rfl, endpointLayers, List.find?_append, List.find?_map, List.find?_map, Hidden]
  have hmems : ((fun lay : EdgeLayer => (lay.2 id).isSome) ∘ memtableEndpointLayer sl nodeIds .both) =
      fun m => ((memtableLayer sl m).2 id).isSome := rfl
  have hsegs : ((fun lay : EdgeLayer => (lay.2 id).isSome) ∘ segmentEndpointLayer nodeIds .both) =
      fun seg => ((segmentLayer seg).2 id).isSome := rfl
  rw [hmems, hsegs]
  simp only [Function.comp_apply] at hedge
  -- the layer that knows the edge holds it
  have hheld : ∀ {opinion rest : Option (Option EdgeRecord)}, opinion.isSome = true → (opinion.or rest).join = some edge →
      opinion = some (some edge) := by
    intro opinion rest hsome hjoin
    obtain ⟨held, rfl⟩ := isSome_iff_exists.mp hsome
    exact congrArg some hjoin
  cases hm : (sl.active :: sl.immutable).find? fun m => ((memtableLayer sl m).2 id).isSome with
  | some m =>
    rw [hm, bind_some] at hedge
    have hop := hheld (by simpa using find?_some hm) hedge
    rw [map_some, some_or, ← memtable_lists hnos hop]
    simp only [some.injEq, exists_eq_left']
  | none =>
    rw [hm, bind_none, none_or] at hedge
    cases hseg : sl.segments.find? fun seg => ((segmentLayer seg).2 id).isSome with
    | none =>
      rw [hseg] at hedge
      cases hedge
    | some seg =>
      rw [hseg, bind_some] at hedge
      have hop := hheld (by simpa using find?_some hseg) ((congrArg Option.join or_none).trans hedge)
      rw [map_none, none_or, map_some, ← segment_lists hnos hop]
      simp only [some.injEq, exists_eq_left']

end

end

theorem untouched_iff {cat : RuntimeSchemaCatalog} {baseSeq : ℕ} {ops : List WalOp} {ovl : SchemaWriteOverlay}
    (hstgd : Staged cat baseSeq ops ovl) (id : ℕ) : untouched ovl id = true ↔ edgeLog (sequenced baseSeq ops) id = none := by
  have hstg := hstgd.edge id
  rw [untouched, Bool.not_eq_true', Bool.or_eq_false_iff, contains_eq_mem, contains_eq_mem, decide_eq_false_iff_not,
    decide_eq_false_iff_not]
  cases hlog : edgeLog (sequenced baseSeq ops) id with
  | none =>
    rw [hlog] at hstg
    exact iff_of_true hstg.2 rfl
  | some word =>
    rw [hlog] at hstg
    cases word with
    | none => exact iff_of_false (fun hunt => hunt.1 hstg.2) nofun
    | some edge => exact iff_of_false (fun hunt => hunt.2 hstg.1) nofun

section
variable {debug : DebugFormat} {cat : RuntimeSchemaCatalog} {dense : Option DenseVectorConfig} {sl : SourceList} {ops : List WalOp}
  (h : Stored sl)
include h

section
variable (id : ℕ)

theorem findNode_applyBatch : (applyBatch sl ops).findNode id =
    ((nodeLog (sequenced sl.snapshotSeq ops) id).or (firstOpinion sl.nodeLayers id)).join := by
  rw [(stored_applyBatch h ops).wellFormed.findNode, visible, nodeOpinion_applyBatch h]

theorem findEdge_after : (applyBatch sl ops).findEdge id = (edgeLog (sequenced sl.snapshotSeq ops) id).getD (sl.findEdge id) := by
  rw [findEdge_applyBatch h]
  rfl

theorem labelsAt_applyBatch : labelsAt (applyBatch sl ops) id = match nodeLog (sequenced sl.snapshotSeq ops) id with
    | none => labelsAt sl id
    | some word => word.map (·.labelIds) := by
  rw [labelsAt, findNode_applyBatch h]
  cases nodeLog (sequenced sl.snapshotSeq ops) id with
  | none => rw [none_or, labelsAt, h.wellFormed.findNode, visible]
  | some word => rfl

theorem labels_endpointState :
    (endpointState (shown .missing (visibilityOpinion (firstOpinion sl.nodeLayers id)))).labels = labelsAt sl id := by
  rw [labelsAt, h.wellFormed.findNode, visible]
  rcases firstOpinion sl.nodeLayers id with - | - | node <;> rfl

theorem labels_isLive :
    (isLive (shown .missing (visibilityOpinion (firstOpinion sl.nodeLayers id)))).map (·.labelIds) = labelsAt sl id := by
  rw [labelsAt, h.wellFormed.findNode, visible]
  rcases firstOpinion sl.nodeLayers id with - | - | node <;> rfl

end

section
variable {ovl : SchemaWriteOverlay} (hstgd : Staged cat sl.snapshotSeq ops ovl)
include hstgd

theorem labels_finalState (hcons : cat.hasEdgeEndpointConstraints = true) (id : ℕ) :
    (finalState sl ovl id).labels = labelsAt (applyBatch sl ops) id := by
  have hnode := hstgd.node id
  rw [labelsAt_applyBatch h, finalState]
  cases hlog : nodeLog (sequenced sl.snapshotSeq ops) id with
  | none =>
    rw [hlog] at hnode
    rw [hnode.1]
    simp only [contains_eq_mem, hnode.2, decide_false, Bool.false_eq_true, if_false]
    exact labels_endpointState h id
  | some word =>
    rw [hlog] at hnode
    cases word with
    | none =>
      rw [hnode.1]
      simp only [contains_eq_mem, hnode.2, decide_true, if_true]
      rfl
    | some node =>
      rcases hnode.2 with ⟨-, hfree, -⟩ | ⟨planned, hplan, -, heq⟩
      · rw [hcons] at hfree
        cases hfree
      · rw [hplan, heq]
        rfl

theorem endpointsHold_iff (hcat : cat.KnowsEndpointRules) (edge : EdgeRecord) : EndpointsHold cat sl ovl edge ↔
    cat.validateEdgeEndpointLabelsDetailed edge (labelsAt (applyBatch sl ops) edge.source) (labelsAt (applyBatch sl ops) edge.target) =
      .ok () := by
  rw [EndpointsHold]
  cases hrules : cat.edgeSchemaHasEndpointRules edge.labelId with
  | false =>
    exact iff_of_true (validateEdgeEndpointLabelsDetailed_unconstrained hrules _ _)
      (validateEdgeEndpointLabelsDetailed_unconstrained hrules _ _)
  | true =>
    have hcons := (constraints_of_endpointRules hcat hrules).1
    rw [labels_finalState h hstgd hcons, labels_finalState h hstgd hcons]

theorem mem_candidateNodeIds (hcons : cat.hasEdgeEndpointConstraints = true) (id : ℕ) :
    id ∈ candidateNodeIds cat sl ovl ↔ Changed cat sl ops id := by
  have hnode := hstgd.node id
  have hkeys : id ∈ ovl.finalNodes.entries.map (·.1) ↔ (ovl.finalNodes.lookup id).isSome = true :=
    (AList.lookup_isSome.trans AList.mem_keys).symm
  rw [candidateNodeIds, mem_finalize, mem_append, h.wellFormed.findNodeVisibilityMeta, ← map_prod_left_eq_zip,
    filterMap_map, mem_filterMap, Changed]
  simp only [Function.comp_apply, ite_none_right_eq_some, some.injEq, mem_finalize]
  have hrela : (∃ a, a ∈ ovl.finalNodes.entries.map (·.1) ∧ cat.labelChangeMayAffectEndpointRules
      ((isLive (shown .missing (visibilityOpinion (firstOpinion sl.nodeLayers a)))).map (·.labelIds))
        ((ovl.finalNodes.lookup a).map (·.labelIds)) false = true ∧ a = id) ↔
      (ovl.finalNodes.lookup id).isSome = true ∧ cat.labelChangeMayAffectEndpointRules (labelsAt sl id)
        ((ovl.finalNodes.lookup id).map (·.labelIds)) false = true := by
    rw [← hkeys, ← labels_isLive h]
    exact ⟨fun ⟨a, hin, hchng, heq⟩ => heq ▸ ⟨hin, hchng⟩, fun ⟨hin, hchng⟩ => ⟨id, hin, hchng, rfl⟩⟩
  rw [hrela]
  cases hlog : nodeLog (sequenced sl.snapshotSeq ops) id with
  | none =>
    rw [hlog] at hnode
    rw [hnode.1]
    exact ⟨fun hor => hor.elim (fun hsome => by cases hsome.1) hnode.2, False.elim⟩
  | some word =>
    rw [hlog] at hnode
    cases word with
    | none => exact iff_of_true (Or.inr hnode.2) trivial
    | some node =>
      rcases hnode.2 with ⟨-, hfree, -⟩ | ⟨planned, hplan, -, heq⟩
      · rw [hcons] at hfree
        cases hfree
      · rw [hplan, heq]
        exact ⟨fun hor => hor.elim (fun hsome => hsome.2) fun hin => absurd hin hnode.1, fun hchng => Or.inl ⟨rfl, hchng⟩⟩

end

end

section
variable (debug : DebugFormat) (cat : RuntimeSchemaCatalog) (dense : Option DenseVectorConfig) (sl : SourceList) (ops : List WalOp)

/-- An edge that the list leaves alone breaks the catalog, and the scan does not list it. -/
def HiddenBreak (id : ℕ) (edge : EdgeRecord) : Prop :=
  edgeLog (sequenced sl.snapshotSeq ops) id = none ∧ sl.findEdge id = some edge ∧ ¬EdgeSatisfies debug cat (applyBatch sl ops) edge ∧
    Hidden cat sl ops id edge

def ShownBreak : Prop :=
  (∃ id node, (applyBatch sl ops).findNode id = some node ∧ ¬NodeSatisfies debug cat dense node) ∨
    ∃ id edge, (applyBatch sl ops).findEdge id = some edge ∧ ¬EdgeSatisfies debug cat (applyBatch sl ops) edge ∧
      ¬HiddenBreak debug cat sl ops id edge

variable {debug cat dense sl ops}

/-- The catalog is broken by what is shown or by what is hidden. -/
theorem satisfies_iff (h : Stored sl) : Satisfies debug cat dense (applyBatch sl ops) ↔
    ¬ShownBreak debug cat dense sl ops ∧ ¬∃ id edge, HiddenBreak debug cat sl ops id edge := by
  constructor
  · intro hall
    constructor
    · rintro (⟨id, node, hnode, hbreak⟩ | ⟨id, edge, hedge, hbreak, -⟩)
      · exact hbreak (hall.nodes id node hnode)
      · exact hbreak (hall.edges id edge hedge)
    · rintro ⟨id, edge, hlog, hedge, hbreak, -⟩
      exact hbreak (hall.edges id edge (by rw [findEdge_after h, hlog]; exact hedge))
  · rintro ⟨hshown, hhid⟩
    constructor
    · intro id node hnode
      by_contra hbreak
      exact hshown (Or.inl ⟨id, node, hnode, hbreak⟩)
    · intro id edge hedge
      by_contra hbreak
      exact hshown (Or.inr ⟨id, edge, hedge, hbreak, fun hidden => hhid ⟨id, edge, hidden⟩⟩)

variable (h : Stored sl) (hcat : cat.KnowsEndpointRules) (hsat : Satisfies debug cat dense sl)
include h hcat hsat

/-- An edge that the list leaves alone and that meets no changed node still fits its ends. -/
theorem endpoints_kept {id : ℕ} (hedge : sl.findEdge id = some edge) (hsrc : ¬Changed cat sl ops edge.source)
    (htgt : ¬Changed cat sl ops edge.target) :
    cat.validateEdgeEndpointLabelsDetailed edge (labelsAt (applyBatch sl ops) edge.source) (labelsAt (applyBatch sl ops) edge.target) =
      .ok () := by
  cases hrules : cat.edgeSchemaHasEndpointRules edge.labelId with
  | false => exact validateEdgeEndpointLabelsDetailed_unconstrained hrules _ _
  | true =>
    have hcons := (constraints_of_endpointRules hcat hrules).1
    have hkept : ∀ nodeId, ¬Changed cat sl ops nodeId → cat.LabelsKept (labelsAt sl nodeId) (labelsAt (applyBatch sl ops) nodeId) := by
      intro nodeId hchg
      rw [labelsAt_applyBatch h]
      rw [Changed] at hchg
      revert hchg
      rcases nodeLog (sequenced sl.snapshotSeq ops) nodeId with - | - | node
      · exact fun _ => Or.inl rfl
      · exact fun hchg => absurd trivial hchg
      · intro hchg
        rw [Bool.not_eq_true] at hchg
        exact labelsKept_of_unaffected hcons hchg
    exact validateEdgeEndpointLabelsDetailed_kept hcat (hkept _ hsrc) (hkept _ htgt) (hsat.edges id edge hedge).2

/-- The check of the overlay fails exactly if a node breaks the catalog or an edge that is not hidden. -/
theorem validateSchemaWriteOverlay_iff : validateSchemaWriteOverlay debug cat dense sl (buildSchemaWriteOverlay cat ops) = .ok () ↔
      ¬ShownBreak debug cat dense sl ops := by
  have hstgd := staged_buildSchemaWriteOverlay cat sl.snapshotSeq ops
  have hends := endpointsHold_iff h hstgd hcat
  rw [validateSchemaWriteOverlay_ok hcat h.wellFormed]
  constructor
  · rintro ⟨hnos, heds, hck⟩ (⟨id, node, hnode, hbreak⟩ | ⟨id, edge, hedge, hbreak, hshown⟩)
    · have hstg := hstgd.node id
      rw [findNode_applyBatch h] at hnode
      cases hlog : nodeLog (sequenced sl.snapshotSeq ops) id with
      | none =>
        rw [hlog, none_or] at hnode
        exact hbreak (hsat.nodes id node (by rw [h.wellFormed.findNode, visible, hnode]))
      | some word =>
        rw [hlog] at hstg hnode
        obtain rfl : word = some node := hnode
        rcases hstg.2 with ⟨-, -, hfree⟩ | ⟨planned, hplan, hor, heq⟩
        · exact hbreak (validateNodeRecordDetailed_unconstrained hfree _)
        · rw [heq] at hbreak
          exact hbreak (hnos id hor planned hplan)
    · have hstg := hstgd.edge id
      rw [findEdge_after h] at hedge
      cases hlog : edgeLog (sequenced sl.snapshotSeq ops) id with
      | none =>
        rw [hlog] at hedge
        have hkept : sl.findEdge id = some edge := hedge
        have hvis : ¬Hidden cat sl ops id edge := fun hhid => hshown ⟨hlog, hkept, hbreak, hhid⟩
        refine hbreak ⟨(hsat.edges id edge hkept).1, ?_⟩
        by_cases hchg : Changed cat sl ops edge.source ∨ Changed cat sl ops edge.target
        · cases hrules : cat.edgeSchemaHasEndpointRules edge.labelId with
          | false => exact validateEdgeEndpointLabelsDetailed_unconstrained hrules _ _
          | true =>
            -- the scan lists the edge
            obtain ⟨hcons, hcon⟩ := constraints_of_endpointRules hcat hrules
            apply (hends edge).mp
            apply hck id _ ((untouched_iff hstgd id).mpr hlog) edge (by rw [← h.wellFormed.findEdge, hkept])
            refine (mem_scanEdgeIdsByEndpoints (fun nodeId => contains_iff_mem.trans
              (mem_candidateNodeIds h hstgd hcons nodeId)) hkept).mpr ⟨hchg, ?_, hvis⟩
            exact contains_iff_mem.mpr hcon
        · rw [not_or] at hchg
          exact endpoints_kept h hcat hsat hkept hchg.1 hchg.2
      | some word =>
        rw [hlog] at hstg hedge
        obtain rfl : word = some edge := hedge
        rcases hstg.2 with ⟨-, hfree⟩ | ⟨planned, hplan, hor, heq⟩
        · exact hbreak ⟨validateEdgeRecordDetailed_unconstrained hfree, validateEdgeEndpointLabelsDetailed_unconstrained
              (edgeSchemaHasEndpointRules_eq_false hfree) _ _⟩
        · rw [heq] at hbreak
          obtain ⟨hrec, hend⟩ := heds id hor planned hplan
          exact hbreak ⟨hrec, (hends planned).mp hend⟩
  · intro hshown
    have hnode : ∀ id node, (applyBatch sl ops).findNode id = some node → NodeSatisfies debug cat dense node := by
      intro id node hnode
      by_contra hbreak
      exact hshown (Or.inl ⟨id, node, hnode, hbreak⟩)
    have hedge : ∀ id edge, (applyBatch sl ops).findEdge id = some edge → ¬HiddenBreak debug cat sl ops id edge →
        EdgeSatisfies debug cat (applyBatch sl ops) edge := by
      intro id edge hedge hhid
      by_contra hbreak
      exact hshown (Or.inr ⟨id, edge, hedge, hbreak, hhid⟩)
    refine ⟨?_, ?_, ?_⟩
    · intro id _ planned hplan
      have hstg := hstgd.node id
      cases hlog : nodeLog (sequenced sl.snapshotSeq ops) id with
      | none =>
        rw [hlog, NodeStaged, hplan] at hstg
        cases hstg.1
      | some word =>
        rw [hlog] at hstg
        cases word with
        | none =>
          rw [NodeStaged, hplan] at hstg
          cases hstg.1
        | some node =>
          rcases hstg.2 with ⟨hnone, -⟩ | ⟨other, hoth, -, heq⟩
          · rw [hplan] at hnone
            cases hnone
          · obtain rfl := some.inj (hplan.symm.trans hoth)
            have hsatisfied := hnode id node (by rw [findNode_applyBatch h, hlog]; rfl)
            rw [heq] at hsatisfied
            exact hsatisfied
    · intro id _ planned hplan
      have hstg := hstgd.edge id
      cases hlog : edgeLog (sequenced sl.snapshotSeq ops) id with
      | none =>
        rw [hlog, EdgeStaged, hplan] at hstg
        cases hstg.1
      | some word =>
        rw [hlog] at hstg
        cases word with
        | none =>
          rw [EdgeStaged, hplan] at hstg
          cases hstg.1
        | some edge =>
          rcases hstg.2 with ⟨hnone, -⟩ | ⟨other, hoth, -, heq⟩
          · rw [hplan] at hnone
            cases hnone
          · obtain rfl := some.inj (hplan.symm.trans hoth)
            have hsatisfied := hedge id edge (by rw [findEdge_after h, hlog]; rfl) fun hhid => by
              rw [HiddenBreak, hlog] at hhid
              cases hhid.1
            rw [heq] at hsatisfied
            exact ⟨hsatisfied.1, (hends planned).mpr hsatisfied.2⟩
    · intro id hid hunt edge hvis
      have hlog := (untouched_iff hstgd id).mp hunt
      have hkept : sl.findEdge id = some edge := by rw [h.wellFormed.findEdge, hvis]
      apply (hends edge).mpr
      cases hrules : cat.edgeSchemaHasEndpointRules edge.labelId with
      | false => exact validateEdgeEndpointLabelsDetailed_unconstrained hrules _ _
      | true =>
        obtain ⟨hcons, -⟩ := constraints_of_endpointRules hcat hrules
        have hlist := (mem_scanEdgeIdsByEndpoints (fun nodeId => contains_iff_mem.trans
          (mem_candidateNodeIds h hstgd hcons nodeId)) hkept).mp hid
        refine (hedge id edge (by rw [findEdge_after h, hlog]; exact hkept) ?_).2
        exact fun hhid => hlist.2.2 hhid.2.2.2

theorem not_shownBreak_of_unneeded (hneed : schemaWalOpsMayNeedValidation cat ops = false) : ¬ShownBreak debug cat dense sl ops := by
  rw [schemaWalOpsMayNeedValidation, any_eq_false] at hneed
  have hop : ∀ {q : ℕ} {op : WalOp}, (q, op) ∈ sequenced sl.snapshotSeq ops → opMayNeedValidation cat op = false := by
    intro q op hmem
    simpa using hneed op (Store.mem_sequenced hmem).1
  rintro (⟨id, node, hnode, hbreak⟩ | ⟨id, edge, hedge, hbreak, -⟩)
  · rw [findNode_applyBatch h] at hnode
    cases hlog : nodeLog (sequenced sl.snapshotSeq ops) id with
    | none =>
      rw [hlog, none_or] at hnode
      exact hbreak (hsat.nodes id node (by rw [h.wellFormed.findNode, visible, hnode]))
    | some word =>
      rw [hlog] at hnode
      obtain rfl : word = some node := hnode
      obtain ⟨⟨q, op⟩, hmem, hw'⟩ := mem_flatMap.mp (mem_of_lastWrite_eq_some hlog)
      have hfree := hop hmem
      cases op <;> simp only [nodeWrites, mem_singleton, not_mem_nil, Prod.mk.injEq, some.injEq, reduceCtorEq, and_false] at hw'
      rw [hw'.2] at hbreak
      rw [opMayNeedValidation, Bool.or_eq_false_iff] at hfree
      exact hbreak (validateNodeRecordDetailed_unconstrained hfree.1 _)
  · rw [findEdge_after h] at hedge
    cases hlog : edgeLog (sequenced sl.snapshotSeq ops) id with
    | none =>
      rw [hlog] at hedge
      have hkept : sl.findEdge id = some edge := hedge
      refine hbreak ⟨(hsat.edges id edge hkept).1, ?_⟩
      cases hrules : cat.edgeSchemaHasEndpointRules edge.labelId with
      | false => exact validateEdgeEndpointLabelsDetailed_unconstrained hrules _ _
      | true =>
        have hcons := (constraints_of_endpointRules hcat hrules).1
        -- no operation writes a node
        have hunch : ∀ nodeId, ¬Changed cat sl ops nodeId := by
          intro nodeId hchg
          have hnone : nodeLog (sequenced sl.snapshotSeq ops) nodeId = none := by
            apply lastWrite_eq_none_iff.mpr
            intro write hw'
            obtain ⟨⟨q, op⟩, hmem, hin⟩ := mem_flatMap.mp hw'
            have hfree := hop hmem
            cases op <;> simp only [nodeWrites, not_mem_nil] at hin
            · rw [opMayNeedValidation, hcons, Bool.or_true] at hfree
              cases hfree
            · rw [opMayNeedValidation, hcons] at hfree
              cases hfree
          rw [Changed, hnone] at hchg
          exact hchg
        exact endpoints_kept h hcat hsat hkept (hunch _) (hunch _)
    | some word =>
      rw [hlog] at hedge
      obtain rfl : word = some edge := hedge
      obtain ⟨⟨q, op⟩, hmem, hw'⟩ := mem_flatMap.mp (mem_of_lastWrite_eq_some hlog)
      have hfree := hop hmem
      cases op <;> simp only [edgeWrites, mem_singleton, not_mem_nil, Prod.mk.injEq, some.injEq, reduceCtorEq, and_false] at hw'
      rw [hw'.2] at hbreak
      exact hbreak ⟨validateEdgeRecordDetailed_unconstrained hfree, validateEdgeEndpointLabelsDetailed_unconstrained
          (edgeSchemaHasEndpointRules_eq_false hfree) _ _⟩

theorem validateSchemaForWalOps_iff : validateSchemaForWalOps debug cat dense sl ops = .ok () ↔ ¬ShownBreak debug cat dense sl ops := by
  rw [validateSchemaForWalOps]
  split
  · rename_i hfree
    refine iff_of_true rfl ?_
    rw [Bool.or_eq_true, Bool.not_eq_true'] at hfree
    rcases hfree with hemp | hneed
    · rintro (⟨id, node, -, hbreak⟩ | ⟨id, edge, -, hbreak, -⟩)
      · exact hbreak (by rw [NodeSatisfies, validateNodeRecordDetailed, hemp, Bool.true_or]; rfl)
      · exact hbreak ⟨by rw [validateEdgeRecordDetailed, hemp, Bool.true_or]; rfl,
          by rw [validateEdgeEndpointLabelsDetailed, hemp, Bool.true_or]; rfl⟩
    · exact not_shownBreak_of_unneeded h hcat hsat hneed
  · rw [← validateSchemaWriteOverlay_iff h hcat hsat]
    cases validateSchemaWriteOverlay debug cat dense sl (buildSchemaWriteOverlay cat ops) with
    | ok passed => exact iff_of_true rfl rfl
    | error failure => refine iff_of_false ?_ ?_ <;> rintro ⟨⟩

end

/-- The check of a list of writes agrees with a check of all that the list leaves behind, unless an edge that the scan misses breaks the
catalog and nothing else does. -/
theorem enforcement_exact_iff (debug : DebugFormat) (nodeSchemas : List CompiledNodeSchema) (edgeSchemas : List CompiledEdgeSchema)
    (dense : Option DenseVectorConfig) (sl : SourceList) (h : Stored sl)
    (hsat : Satisfies debug (.fromManifest nodeSchemas edgeSchemas) dense sl) (ops : List WalOp) :
    (validateSchemaForWalOps debug (.fromManifest nodeSchemas edgeSchemas) dense sl ops = .ok () ↔
        Satisfies debug (.fromManifest nodeSchemas edgeSchemas) dense (applyBatch sl ops)) ↔
      ((∃ id edge, HiddenBreak debug (.fromManifest nodeSchemas edgeSchemas) sl ops id edge) →
        ShownBreak debug (.fromManifest nodeSchemas edgeSchemas) dense sl ops) := by
  have hcat := knowsEndpointRules_fromManifest nodeSchemas edgeSchemas
  rw [validateSchemaForWalOps_iff h hcat hsat, satisfies_iff h]
  constructor
  · intro hexact hhidden
    by_contra hshown
    exact (hexact.mp hshown).2 hhidden
  · intro hreported
    exact ⟨fun hshown => ⟨hshown, fun hhidden => hshown (hreported hhidden)⟩, fun hboth => hboth.1⟩

/-- Edges with label 1 come from nodes with label 1. -/
def fromLabelOne : CompiledEdgeSchema := ⟨1, none, .allow, [], [], some ⟨[1], [], []⟩, none, true, none, none⟩

def plainFormat : DebugFormat := ⟨fun _ => "", fun _ => ""⟩

def edgeToDeleted : EdgeRecord := ⟨1, 1, 2, 1, ∅, 0, 0, 0, 0, i64Max, 0⟩

def deletedTarget : List WalOp := [.upsertNode (person 1 "a"), .upsertNode (person 2 "b"), .deleteNode 2 0, .upsertEdge edgeToDeleted]

/-- Node 1 loses its label for another one. -/
def relabelling : List WalOp := [.upsertNode { person 1 "a" with labelIds := .single 2 (by decide) }]

theorem satisfies_deletedTarget : Satisfies plainFormat (.fromManifest [] [fromLabelOne]) none (applyBatch emptySources deletedTarget) where
  nodes id node _ := by
    apply validateNodeRecordDetailed_unconstrained
    rw [nodeHasApplicableSchema, any_eq_false]
    intro labelId _
    exact Bool.false_ne_true
  edges id edge hedge := by
    rw [findEdge_after stored_empty] at hedge
    cases hlog : edgeLog (sequenced emptySources.snapshotSeq deletedTarget) id with
    | none =>
      rw [hlog] at hedge
      cases hedge
    | some word =>
      rw [hlog] at hedge
      obtain rfl : word = some edge := hedge
      have hw' := mem_of_lastWrite_eq_some hlog
      obtain heq : (id, some edge) = (1, some { edgeToDeleted with lastWriteSeq := 4 }) := mem_singleton.mp hw'
      obtain rfl := some.inj (Prod.mk.inj heq).2
      exact ⟨by decide +kernel, by decide +kernel⟩

/-- The edge is missed: the check passes, and then its source has not the label that it must have. -/
theorem enforcement_not_exact : ¬∀ (debug : DebugFormat) (nodeSchemas : List CompiledNodeSchema) (edgeSchemas : List CompiledEdgeSchema)
    (dense : Option DenseVectorConfig) (sl : SourceList), Stored sl →
      Satisfies debug (.fromManifest nodeSchemas edgeSchemas) dense sl → ∀ ops : List WalOp,
        (validateSchemaForWalOps debug (.fromManifest nodeSchemas edgeSchemas) dense sl ops = .ok () ↔
          Satisfies debug (.fromManifest nodeSchemas edgeSchemas) dense (applyBatch sl ops)) := by
  intro hexact
  have hiff := hexact plainFormat [] [fromLabelOne] none _ (stored_applyBatch stored_empty deletedTarget) satisfies_deletedTarget relabelling
  have hall := hiff.mp (by decide +kernel)
  have hkept : (applyBatch (applyBatch emptySources deletedTarget) relabelling).findEdge 1 =
      some { edgeToDeleted with lastWriteSeq := 4 } := by
    rw [findEdge_after (stored_applyBatch stored_empty deletedTarget), findEdge_after stored_empty]
    rfl
  have hends := (hall.edges 1 _ hkept).2
  revert hends
  decide +kernel

theorem enforcement_exact_empty : validateSchemaForWalOps plainFormat (.fromManifest [] [fromLabelOne]) none
      (applyBatch emptySources deletedTarget) [] = .ok () ↔
    Satisfies plainFormat (.fromManifest [] [fromLabelOne]) none (applyBatch (applyBatch emptySources deletedTarget) []) := by
  refine (enforcement_exact_iff plainFormat [] [fromLabelOne] none _ (stored_applyBatch stored_empty deletedTarget) satisfies_deletedTarget []).mpr ?_
  rintro ⟨id, edge, -, hedge, hbreak, -⟩
  exact absurd (satisfies_deletedTarget.edges id edge hedge) hbreak

end OverGraph.SchemaWrites
