import OverGraph.Cuts
import OverGraph.Fallible
import OverGraph.Ledgers

/-!
# Planning writes

A write is planned against the layered reads before it is logged. The upsert of a node
looks up its key under each of its labels: if one node owns them all it is rewritten, if
two nodes do the write is refused, and if none does the next identifier is taken. Deletes
are accepted for any identifier. Histories of accepted writes never give a key to two
nodes.
-/

namespace OverGraph.WritePlans
open Records LayeredWrites GraphView Sources Fallible Ledgers List

inductive WriteError where
  | nodeKeyConflict (key : String) (winner other : ℕ)
  deriving DecidableEq, Repr

/-- What planning reads: the layered sources and the identifier counters. -/
structure WriteCore where
  sources : SourceList
  nextNodeId : ℕ
  nextEdgeId : ℕ
  edgeUniqueness : Bool

/-- A node to be written, its labels resolved and its vectors normalised. -/
structure NodeInput where
  labelIds : NodeLabelSet
  key : String
  props : Props
  weight : F32
  denseVector : Option DenseVector
  sparseVector : Option SparseVector

structure EdgeInput where
  source : ℕ
  target : ℕ
  labelId : ℕ
  props : Props
  weight : F32
  validFrom : Option ℤ
  validTo : Option ℤ

/-- All the nodes found have to be the same one. -/
def agreeOnWinner (key : String) : Option (ℕ × ℤ) → List (ℕ × ℤ) → Except WriteError (Option (ℕ × ℤ))
  | winner, [] => .ok winner
  | none, node :: found => agreeOnWinner key (some node) found
  | some winner, node :: found =>
    if winner.1 ≠ node.1 then .error (.nodeKeyConflict key winner.1 node.1)
    else agreeOnWinner key (some winner) found

def findExistingNodeForLabelSet (sl : SourceList) (labelIds : NodeLabelSet) (key : String) : Except WriteError (Option (ℕ × ℤ)) :=
  let existing := sl.findNodesByLabelKeys (labelIds.labelIds.map fun labelId => (labelId, key))
  agreeOnWinner key none (existing.filterMap fun node => node.map fun n => (n.id, n.createdAt))

def planUpsertNode (core : WriteCore) (input : NodeInput) (now : ℤ) : Except WriteError (NodeRecord × WriteCore) :=
  (findExistingNodeForLabelSet core.sources input.labelIds input.key).map fun existing =>
    let (id, createdAt, core) := match existing with
      | some (id, createdAt) => (id, createdAt, core)
      | none => (core.nextNodeId, now, { core with nextNodeId := core.nextNodeId + 1 })
    (⟨id, input.labelIds, input.key, input.props, createdAt, now, input.weight, input.denseVector, input.sparseVector, 0⟩, core)

def findExistingEdge (sl : SourceList) (source target labelId : ℕ) : Option (ℕ × ℤ) :=
  (sl.findEdgeByTriple (source, target, labelId)).map fun edge => (edge.id, edge.createdAt)

/-- The endpoints are not looked up. -/
def planUpsertEdge (core : WriteCore) (input : EdgeInput) (now : ℤ) : EdgeRecord × WriteCore :=
  let existing := if core.edgeUniqueness then
    findExistingEdge core.sources input.source input.target input.labelId else none
  let (id, createdAt, core) := match existing with
    | some (id, createdAt) => (id, createdAt, core)
    | none => (core.nextEdgeId, now, { core with nextEdgeId := core.nextEdgeId + 1 })
  (⟨id, input.source, input.target, input.labelId, input.props, createdAt, now, input.weight,
    input.validFrom.getD createdAt, input.validTo.getD i64Max, 0⟩, core)

/-- Whoever owns the key of the node under one of its labels is the node itself. -/
def KeyFree (nodes : ℕ → Option NodeRecord) (node : NodeRecord) : Prop :=
  ∀ labelId ∈ node.labelIds.labelIds, ∀ id, OwnsKey nodes labelId node.key id → id = node.id

/-- Every upsert of a node was planned against the history before it. -/
def Accepted (ops : List SeqOp) : Prop := ∀ past q node, past ++ [(q, WalOp.upsertNode node)] <+: ops → KeyFree (nodesAfter past) node

/-- A node that was deleted is not written again: identifiers are not given out a second time. -/
def NeverRevived (ops : List SeqOp) : Prop := ∀ past q node, past ++ [(q, WalOp.upsertNode node)] <+: ops → nodeLog past node.id ≠ some none

theorem agreeOnWinner_mem {key : String} {found : List (ℕ × ℤ)} {start winner : Option (ℕ × ℤ)}
    (h : agreeOnWinner key start found = .ok winner) :
    ∀ node, node ∈ start.toList ∨ node ∈ found → ∃ w, winner = some w ∧ w.1 = node.1 := by
  induction found generalizing start with
  | nil =>
    intro node hnode
    cases h
    exact ⟨node, by simpa using hnode, rfl⟩
  | cons n found ih =>
    intro node hnode
    cases start with
    | none => exact ih h node (by simpa [eq_comm] using hnode)
    | some s =>
      rw [agreeOnWinner] at h
      split at h
      · cases h
      · rename_i heq
        have hsame : s.1 = n.1 := not_not.mp heq
        obtain hst | hfnd := hnode
        · exact ih h node (.inl hst)
        · obtain rfl | hfnd := mem_cons.mp hfnd
          · obtain ⟨w, hw, hws⟩ := ih h s (.inl (by simp))
            exact ⟨w, hw, hws.trans hsame⟩
          · exact ih h node (.inr hfnd)

/-- Whoever owns the key under one of the labels is the node the lookup agrees on. -/
theorem findExisting_owner {sl : SourceList} (h : sl.KeysIndexed) {labelIds : NodeLabelSet}
    {key : String} {existing : Option (ℕ × ℤ)}
    (hfind : findExistingNodeForLabelSet sl labelIds key = .ok existing) {labelId id : ℕ}
    (hl : labelId ∈ labelIds.labelIds) (hown : OwnsKey (visible sl.nodeLayers) labelId key id) :
    ∃ w, existing = some w ∧ w.1 = id := by
  obtain ⟨node, hnode, hkey⟩ := hown
  have howner : owner HasKey (visible sl.nodeLayers) (labelId, key) = some node := (owner_eq_some_iff h.unique).mpr ⟨id, hnode, hkey⟩
  rw [findExistingNodeForLabelSet, h.findNodesByLabelKeys] at hfind
  have hmem : (node.id, node.createdAt) ∈
      ((labelIds.labelIds.map fun labelId => (labelId, key)).map
        (owner HasKey (visible sl.nodeLayers))).filterMap
          fun node => node.map fun n => (n.id, n.createdAt) := by
    apply mem_filterMap.mpr
    refine ⟨some node, ?_, rfl⟩
    rw [map_map]
    exact mem_map.mpr ⟨labelId, hl, howner⟩
  obtain ⟨w, hw, hid⟩ := agreeOnWinner_mem hfind _ (.inr hmem)
  exact ⟨w, hw, hid.trans (h.visible_id hnode)⟩

variable {node : NodeRecord} {core' core : WriteCore} {input : NodeInput}

/-- A planned upsert takes no key from another node. -/
theorem planUpsertNode_input {now : ℤ} (hplan : planUpsertNode core input now = .ok (node, core')) :
    node.key = input.key ∧ node.labelIds = input.labelIds ∧ node.props = input.props := by
  rw [planUpsertNode] at hplan
  obtain ⟨existing, -, hplan⟩ := bind_ok hplan
  cases existing with
  | none | some w =>
    cases Except.ok.inj hplan
    exact ⟨rfl, rfl, rfl⟩

theorem planUpsertNode_keyFree (h : core.sources.KeysIndexed) {now : ℤ}
    (hplan : planUpsertNode core input now = .ok (node, core')) : KeyFree (visible core.sources.nodeLayers) node := by
  obtain ⟨hkey, hlabs, -⟩ := planUpsertNode_input hplan
  rw [planUpsertNode] at hplan
  obtain ⟨existing, hfind, hplan⟩ := bind_ok hplan
  have hnode := congrArg Prod.fst (Except.ok.inj hplan)
  intro labelId hl id hown
  rw [hlabs] at hl
  rw [hkey] at hown
  obtain ⟨w, rfl, hw⟩ := findExisting_owner h hfind hl hown
  exact hw.symm.trans (congrArg NodeRecord.id hnode)

theorem agreeOnWinner_found {key : String} {found : List (ℕ × ℤ)} {start winner : Option (ℕ × ℤ)}
    (h : agreeOnWinner key start found = .ok winner) {w : ℕ × ℤ} (hw : winner = some w) : start = some w ∨ w ∈ found := by
  induction found generalizing start with
  | nil => cases start <;> exact Or.inl ((Except.ok.inj h).trans hw)
  | cons node found ih =>
    cases start with
    | none =>
      obtain hst | hmem := ih h
      · exact Or.inr (Option.some.inj hst ▸ mem_cons_self)
      · exact Or.inr (mem_cons_of_mem _ hmem)
    | some s =>
      rw [agreeOnWinner] at h
      split at h
      · cases h
      · exact (ih h).imp id (mem_cons_of_mem _)

/-- What stays of a node from its creation on. -/
def nodeIdent (node : NodeRecord) : String × ℤ := (node.key, node.createdAt)

/-- A planned upsert rewrites the node that has the key, or takes a new number. -/
theorem planUpsertNode_kept (h : core.sources.KeysIndexed) {log : Log NodeRecord}
    (hlog : visible core.sources.nodeLayers = current log) {now : ℤ}
    (hplan : planUpsertNode core input now = .ok (node, core')) (q : ℕ) :
    Kept nodeIdent log core.nextNodeId node.id { node with lastWriteSeq := q } core'.nextNodeId ∧
      core' = { core with nextNodeId := core'.nextNodeId } := by
  rw [planUpsertNode] at hplan
  obtain ⟨existing, hfind, hplan⟩ := bind_ok hplan
  cases existing with
  | none =>
    cases Except.ok.inj hplan
    exact ⟨.create le_rfl (Nat.lt_succ_self _), rfl⟩
  | some w =>
    cases Except.ok.inj hplan
    rw [findExistingNodeForLabelSet, h.findNodesByLabelKeys] at hfind
    obtain hst | hmem := agreeOnWinner_found hfind rfl
    · cases hst
    · obtain ⟨found, hfnd, hw⟩ := mem_filterMap.mp hmem
      obtain ⟨held, rfl, rfl⟩ := Option.map_eq_some_iff.mp hw
      obtain ⟨key, hkey, howner⟩ := mem_map.mp hfnd
      obtain ⟨labelId, -, rfl⟩ := mem_map.mp hkey
      obtain ⟨id, hvis, -, hheld⟩ := (owner_eq_some_iff h.unique).mp howner
      obtain rfl := h.visible_id hvis
      exact ⟨.rewrite (hlog ▸ hvis) (Prod.ext hheld.symm rfl), rfl⟩

theorem KeyFree.free {nodes : ℕ → Option NodeRecord} (h : KeyFree nodes node) (q : ℕ) (k : ℕ × String) (j : ℕ)
    (hk : HasKey k { node with lastWriteSeq := q }) (hown : Owns HasKey nodes k j) : j = node.id := by
  obtain ⟨labelId, key⟩ := k
  obtain ⟨hl, rfl⟩ := hk
  exact h labelId hl j hown

variable {ops : List SeqOp}

/-- Accepted writes never give a key to two nodes. -/
theorem Accepted.keysUnambiguous (h : Accepted ops) : KeysUnambiguous ops := by
  intro past
  -- along the history, one operation at a time
  induction past using List.reverseRecOn with
  | nil =>
    rintro - k i j ⟨v, hv, -⟩
    cases hv
  | append_singleton past op ih =>
    intro hpast
    have huniq := ih ((prefix_append past [op]).trans hpast)
    change OwnersUnique HasKey (current ((past ++ [op]).flatMap nodeWrites))
    rw [flatMap_append, flatMap_singleton]
    obtain ⟨q, op⟩ := op
    cases op with
    | upsertNode node => exact unique_write huniq (KeyFree.free (h past q node hpast) q)
    | deleteNode id t => exact unique_delete huniq id
    | _ => exact (append_nil (past.flatMap nodeWrites)).symm ▸ huniq

theorem NeverRevived.past {past new : List SeqOp} (h : NeverRevived (past ++ new)) : NeverRevived past :=
  fun before q node hbef => h before q node (hbef.trans (prefix_append past new))

/-- What was deleted stays deleted. -/
theorem NeverRevived.deleted {past new : List SeqOp} (h : NeverRevived (past ++ new)) {id : ℕ} (hgone : nodeLog past id = some none) :
    nodeLog (past ++ new) id = some none := by
  induction new using List.reverseRecOn with
  | nil => rwa [append_nil]
  | append_singleton new op ih =>
    rw [← append_assoc] at h ⊢
    have hbef := ih h.past
    obtain ⟨q, op⟩ := op
    rw [nodeLog_append, hbef]
    cases op with
    | upsertNode node =>
      have hne : node.id ≠ id := fun heq => h (past ++ new) q node prefix_rfl (heq ▸ hbef)
      simp [nodeLog, nodeWrites, lastWrite, hne]
    | deleteNode deleted deletedAt => by_cases heq : deleted = id <;> simp [nodeLog, nodeWrites, lastWrite, heq]
    | _ => simp [nodeLog, nodeWrites]

theorem neverRevived_of_no_delete (h : ∀ w ∈ ops.flatMap nodeWrites, w.2.isSome) : NeverRevived ops := by
  intro past q node hpast hgone
  obtain ⟨op, hop, hw⟩ := mem_flatMap.mp (mem_of_lastWrite_eq_some hgone)
  have hsome := h _ (mem_flatMap.mpr ⟨op, hpast.mem (mem_append_left _ hop), hw⟩)
  cases hsome

theorem accepted_of_one (i : ℕ)
    (hnode : ∀ w ∈ ops.flatMap nodeWrites, w.2.isSome → w.1 = i) : Accepted ops := by
  rintro past q node hpast labelId hl id ⟨v, hv, -⟩
  have hupsert : node.id = i := by
    refine hnode (node.id, some { node with lastWriteSeq := q }) ?_ rfl
    exact mem_flatMap.mpr ⟨(q, .upsertNode node), hpast.mem (by simp), by simp [nodeWrites]⟩
  rw [nodesAfter, Option.join_eq_some_iff] at hv
  obtain ⟨op, hop, hw⟩ := mem_flatMap.mp (mem_of_lastWrite_eq_some hv)
  rw [hupsert]
  refine hnode (id, some v) ?_ rfl
  exact mem_flatMap.mpr ⟨op, hpast.mem (mem_append_left _ hop), hw⟩

end OverGraph.WritePlans
