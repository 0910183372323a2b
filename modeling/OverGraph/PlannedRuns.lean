import OverGraph.CascadingDeletes
import OverGraph.NodePatterns
import OverGraph.ReplayedCommits

/-!
# Runs of planned writes

Requests are planned one after another, each against the layers that the earlier ones left, while memtables are
frozen and flushed in between and the database may crash and be opened again without the last writes. Whatever the
run, its log is a ledger of nodes and one of edges: keys are never shared, nor triples where they are to be unique,
and the indexes of the layers find just what is live.
-/

namespace OverGraph.PlannedRuns
open Records LayeredWrites GraphView Sources Cuts WritePlans CascadingDeletes PrunePolicies Ledgers Fallible LayeredStore
open NodePatterns ReplayedCommits Memtable MemtableState List

def conflictText : WriteError → String
  | .nodeKeyConflict key winner other =>
    s!"node key conflict for key '{key}': requested label memberships resolve to node IDs {winner} and {other}"

section
variable (sl : SourceList) (now : ℤ)

def planAddNodeLabel (id labelId : ℕ) : Except String (List WalOp) :=
  match (sl.findNodes [id]).head?.join with
  | none => .error s!"node {id} does not exist"
  | some current =>
    if current.labelIds.contains labelId then .ok []
    else if current.labelIds.labelIds.length = maxNodeLabelsPerNode then
      .error s!"node label set must contain at most {maxNodeLabelsPerNode} labels"
    else match ((sl.findNodeByLabelKey labelId current.key).map (·.id)).filter (· ≠ current.id) with
      | some existing => .error (conflictText (.nodeKeyConflict current.key current.id existing))
      | none => (fromLabelIds (current.labelIds.labelIds ++ [labelId])).map fun labelIds =>
        [.upsertNode { current with updatedAt := now, labelIds := labelIds }]

def planRemoveNodeLabel (id : ℕ) (labelId : Option ℕ) : Except String (List WalOp) :=
  match (sl.findNodes [id]).head?.join with
  | none => .error s!"node {id} does not exist"
  | some current =>
    match labelId.filter (current.labelIds.contains ·) with
    | none => .ok []
    | some labelId =>
      if current.labelIds.labelIds.length = 1 then .error "cannot remove the last node label"
      else (fromLabelIds (current.labelIds.labelIds.filter (· ≠ labelId))).map fun labelIds =>
        [.upsertNode { current with updatedAt := now, labelIds := labelIds }]

def planInvalidateEdge (id : ℕ) (validTo : ℤ) : List WalOp :=
  ((sl.findEdge id).map fun edge => WalOp.upsertEdge { edge with updatedAt := now, validTo := validTo }).toList

end

inductive Request where
  | upsertNode (input : NodeInput)
  | addNodeLabel (id labelId : ℕ)
  | removeNodeLabel (id : ℕ) (labelId : Option ℕ)
  | upsertEdge (input : EdgeInput)
  | invalidateEdge (id : ℕ) (validTo : ℤ)
  | deleteEdge (id : ℕ)
  | deleteNode (id : ℕ)
  | prune (policy : ResolvedPrunePolicy)

/-- What is logged after the labels that the request creates. -/
def planCoreWrite (core : WriteCore) (clock : Clock) : Request → Except String (List WalOp × WriteCore)
  | .upsertNode input =>
    match planUpsertNode core input (clock 0) with
    | .error conflict => .error (conflictText conflict)
    | .ok (node, core) => .ok ([.upsertNode node], core)
  | .addNodeLabel id labelId => (planAddNodeLabel core.sources (clock 0) id labelId).map (·, core)
  | .removeNodeLabel id labelId => (planRemoveNodeLabel core.sources (clock 0) id labelId).map (·, core)
  | .upsertEdge input =>
    let (edge, core) := planUpsertEdge core input (clock 0)
    .ok ([.upsertEdge edge], core)
  | .invalidateEdge id validTo => .ok (planInvalidateEdge core.sources (clock 0) id validTo, core)
  | .deleteEdge id => .ok ([.deleteEdge id (clock 0)], core)
  | .deleteNode id => .ok (planDeleteNode core.sources clock id, core)
  | .prune policy => .ok (planPrune core.sources clock ⟨[], []⟩ policy, core)

/-- What the layers have received, and the counters: those of the engine and those of the manifest. -/
structure Engine where
  layers : Layering
  nextNodeId : ℕ
  nextEdgeId : ℕ
  manifest : ℕ × ℕ

/-- Opened after a crash, the active generation has only what was kept of it. -/
inductive Event where
  | write (newLabels : NewLabels) (clock : Clock) (request : Request)
  | freezeMemtable
  | adoptFlush
  | crash (kept : ℕ)

def append (L : Layering) (ops : List WalOp) : Layering := { L with active := L.active ++ sequenced (lastSeq L.history) ops }

def Engine.mergeRuntimeManifestCounters (e : Engine) : ℕ × ℕ := (max e.manifest.1 e.nextNodeId, max e.manifest.2 e.nextEdgeId)

def freezeMemtable (e : Engine) : Engine :=
  if memtableIsEmpty (ofOps e.layers.active) then e
  else { e with
    layers := ⟨[], e.layers.active :: e.layers.immutable, e.layers.segments⟩
    manifest := e.mergeRuntimeManifestCounters }

/-- The oldest of the frozen memtables becomes the newest segment. -/
def adoptFlush (e : Engine) : Engine :=
  match e.layers.immutable.getLast? with
  | none => e
  | some ops => { e with
    layers := ⟨e.layers.active, e.layers.immutable.dropLast, ops :: e.layers.segments⟩
    manifest := e.mergeRuntimeManifestCounters }

def openAgain (e : Engine) (kept : ℕ) : Engine :=
  let layers : Layering := { e.layers with active := e.layers.active.take kept }
  let memtables := (layers.active :: layers.immutable).map ofOps
  ⟨layers, memtables.foldl nextNodeIdOnOpen e.manifest.1, memtables.foldl nextEdgeIdOnOpen e.manifest.2, e.manifest⟩

section
variable (edgeUniqueness : Bool)

def Engine.core (e : Engine) : WriteCore := ⟨e.layers.sources, e.nextNodeId, e.nextEdgeId, edgeUniqueness⟩

/-- A request that is refused changes nothing. -/
def step (e : Engine) : Event → Engine
  | .write newLabels clock request =>
    match planCoreWrite (e.core edgeUniqueness) clock request with
    | .ok (ops, core) => ⟨append e.layers (pushTokenOps newLabels ++ ops), core.nextNodeId, core.nextEdgeId, e.manifest⟩
    | .error _ => e
  | .freezeMemtable => freezeMemtable e
  | .adoptFlush => adoptFlush e
  | .crash kept => openAgain e kept

/-- The triple is a key where triples are to be unique. -/
def KeyTriple (triple : ℕ × ℕ × ℕ) (edge : EdgeRecord) : Prop := edgeUniqueness = true ∧ HasTriple triple edge

/-- What stays of an edge from its creation on. -/
def edgeIdent (edge : EdgeRecord) : (ℕ × ℕ × ℕ) × ℤ := (edge.triple, edge.createdAt)

/-- The log is a ledger of nodes and one of edges. -/
structure Planned (log : List SeqOp) (nextNodeId nextEdgeId : ℕ) : Prop where
  nodes : Ledger HasKey nodeIdent (log.flatMap nodeWrites) nextNodeId
  edges : Ledger (KeyTriple edgeUniqueness) edgeIdent (log.flatMap edgeWrites) nextEdgeId

end

/-- Whoever has been given an identifier keeps its key and time of creation. -/
def KeysFixed (ops : List SeqOp) : Prop :=
  ∀ q q' n n', (q, WalOp.upsertNode n) ∈ ops → (q', WalOp.upsertNode n') ∈ ops → n.id = n'.id → nodeIdent n = nodeIdent n'

variable {u : Bool} {log : List SeqOp} {n m b : ℕ} {ops : List WalOp} {id : ℕ}

namespace Planned

section
variable (h : Planned u log n m)
include h

theorem keys : KeysUnambiguous log := by
  intro past hpast
  have hpast := hpast.flatMap nodeWrites
  exact (h.nodes.past hpast fun _ _ hmem => h.nodes.lt_next (hpast.subset hmem)).unique

theorem triples (hu : u = true) : Unambiguous log where
  keys := h.keys
  triples := by
    intro past hpast triple i j ⟨v, hv, hi⟩ ⟨w, hw, hj⟩
    have hpast := hpast.flatMap edgeWrites
    have hled := h.edges.past hpast fun _ _ hmem => h.edges.lt_next (hpast.subset hmem)
    exact hled.unique triple i j ⟨v, hv, hu, hi⟩ ⟨w, hw, hu, hj⟩

theorem triplesFixed : TriplesFixed log := by
  intro q q' e e' he he' hid
  have hmem : (e.id, some { e with lastWriteSeq := q }) ∈ log.flatMap edgeWrites := mem_flatMap.mpr ⟨_, he, mem_singleton_self _⟩
  refine congrArg Prod.fst (h.edges.fixed hmem (w := { e' with lastWriteSeq := q' }) ?_)
  rw [hid]
  exact mem_flatMap.mpr ⟨_, he', mem_singleton_self _⟩

theorem keysFixed : KeysFixed log := by
  intro q q' e e' he he' hid
  have hmem : (e.id, some { e with lastWriteSeq := q }) ∈ log.flatMap nodeWrites := mem_flatMap.mpr ⟨_, he, mem_singleton_self _⟩
  refine h.nodes.fixed hmem (w := { e' with lastWriteSeq := q' }) ?_
  rw [hid]
  exact mem_flatMap.mpr ⟨_, he', mem_singleton_self _⟩

theorem nothing : Planned u (log ++ sequenced b []) n m := (append_nil log).symm ▸ h

theorem upsertNode {node : NodeRecord} {next : ℕ} (hfree : KeyFree (nodesAfter log) node)
    (hkept : ∀ q, Kept nodeIdent (log.flatMap nodeWrites) n node.id { node with lastWriteSeq := q } next) :
    Planned u (log ++ sequenced b [.upsertNode node]) next m where
  nodes := by
    rw [flatMap_append]
    exact h.nodes.write (hfree.free _) (hkept _)
  edges := by
    rw [flatMap_append]
    exact (append_nil (log.flatMap edgeWrites)).symm ▸ h.edges

theorem upsertEdge {edge : EdgeRecord} {next : ℕ}
    (hfree : u = true → ∀ j, OwnsTriple (edgesAfter log) edge.triple j → j = edge.id)
    (hkept : ∀ q, Kept edgeIdent (log.flatMap edgeWrites) m edge.id { edge with lastWriteSeq := q } next) :
    Planned u (log ++ sequenced b [.upsertEdge edge]) n next where
  nodes := by
    rw [flatMap_append]
    exact (append_nil (log.flatMap nodeWrites)).symm ▸ h.nodes
  edges := by
    rw [flatMap_append]
    refine h.edges.write ?_ (hkept _)
    rintro triple j ⟨hu, rfl⟩ ⟨v, hv, -, hj⟩
    exact hfree hu j ⟨v, hv, hj⟩

theorem deletes (hdel : ∀ op ∈ ops, IsDelete op) : Planned u (log ++ sequenced b ops) n m := by
  have hnone : ∀ op ∈ sequenced b ops, (∀ w ∈ nodeWrites op, w.2 = none) ∧ ∀ w ∈ edgeWrites op, w.2 = none := by
    rintro ⟨q, op⟩ hop
    have hop := hdel op (Store.mem_sequenced hop).1
    cases op <;> simp [IsDelete, deletedEdge?, deletedNode?] at hop <;> simp [nodeWrites, edgeWrites]
  constructor
  · rw [flatMap_append]
    exact h.nodes.deletes (forall_mem_flatMap.mpr fun op hop => (hnone op hop).1)
  · rw [flatMap_append]
    exact h.edges.deletes (forall_mem_flatMap.mpr fun op hop => (hnone op hop).2)

end

/-- Labels write nothing. -/
theorem flatMap_labels {ν : Type} {writes : SeqOp → List ν} {tokens : List WalOp} (h : ∀ op ∈ tokens, ∀ q, writes (q, op) = []) :
    (log ++ sequenced b (tokens ++ ops)).flatMap writes = (log ++ sequenced (b + tokens.length) ops).flatMap writes := by
  rw [sequenced_append, flatMap_append, flatMap_append, flatMap_append,
    flatMap_eq_nil_iff.mpr fun op hop => h op.2 (Store.mem_sequenced hop).1 op.1, nil_append]

theorem newLabels {labels : NewLabels} (h : Planned u (log ++ sequenced (b + (pushTokenOps labels).length) ops) n m) :
    Planned u (log ++ sequenced b (pushTokenOps labels ++ ops)) n m where
  nodes := by
    rw [flatMap_labels fun op hop q => (silent_pushTokenOps labels op hop q).2]
    exact h.nodes
  edges := by
    rw [flatMap_labels fun op hop q => (silent_pushTokenOps labels op hop q).1]
    exact h.edges

section
variable {L : Layering} (h : Planned u L.history n m)
include h

theorem keysIndexed : L.sources.KeysIndexed := L.keysIndexed h.keys

theorem triplesIndexed (hu : u = true) : L.sources.TriplesIndexed ∧ L.sources.TriplesKept :=
  ⟨L.triplesIndexed (h.triples hu), L.triplesKept h.triplesFixed⟩

variable {now : ℤ}

/-- An edge planned is the one that has the triple, or takes the next number. -/
theorem planUpsertEdge {input : EdgeInput} {edge : EdgeRecord} {core : WriteCore}
    (hplan : planUpsertEdge ⟨L.sources, n, m, u⟩ input now = (edge, core)) :
    Planned u (L.history ++ sequenced b [.upsertEdge edge]) core.nextNodeId core.nextEdgeId := by
  unfold WritePlans.planUpsertEdge at hplan
  rcases hexist : (if u then findExistingEdge L.sources input.source input.target input.labelId else none) with - | ⟨id, createdAt⟩
  · rw [hexist] at hplan
    cases hplan
    refine h.upsertEdge ?_ fun q => .create le_rfl (Nat.lt_succ_self _)
    rintro hu j ⟨v, hv, hj⟩
    obtain ⟨hix, hkept⟩ := h.triplesIndexed hu
    rw [if_pos hu, findExistingEdge, Option.map_eq_none_iff, hix.findEdgeByTriple hkept, L.visible_edges] at hexist
    cases hexist.symm.trans ((owner_eq_some_iff ((h.triples hu).triples _ prefix_rfl)).mpr ⟨j, hv, hj⟩)
  · rw [hexist] at hplan
    cases hplan
    split at hexist
    · rename_i hu
      obtain ⟨hix, hkept⟩ := h.triplesIndexed hu
      obtain ⟨old, hold, hpair⟩ := Option.map_eq_some_iff.mp hexist
      rw [hix.findEdgeByTriple hkept, owner_eq_some_iff hix.unique, L.visible_edges] at hold
      obtain ⟨i, hvis, htriple⟩ := hold
      obtain rfl : i = id := (edgeLog_id (Option.join_eq_some_iff.mp hvis)).symm.trans (congrArg Prod.fst hpair)
      refine h.upsertEdge (fun _ j hown => ?_) fun q => .rewrite hvis (Prod.ext htriple.symm (congrArg Prod.snd hpair).symm)
      exact hix.unique _ j i (L.visible_edges ▸ hown) ⟨old, L.visible_edges ▸ hvis, htriple⟩
    · cases hexist

/-- A live node is rewritten under labels whose keys nobody else has. -/
theorem relabel {held : NodeRecord} (hheld : nodesAfter L.history id = some held) {labelIds : NodeLabelSet}
    (hfree : ∀ labelId ∈ labelIds.labelIds, labelId ∉ held.labelIds.labelIds →
      ∀ j, OwnsKey (nodesAfter L.history) labelId held.key j → j = held.id) :
    Planned u (L.history ++ sequenced b [.upsertNode { held with updatedAt := now, labelIds := labelIds }]) n m := by
  obtain rfl := nodeLog_id (Option.join_eq_some_iff.mp hheld)
  refine h.upsertNode (fun labelId hl j hown => ?_) fun q => Kept.rewrite (hheld : _ = some held) rfl
  by_cases hold : labelId ∈ held.labelIds.labelIds
  · exact h.keys _ prefix_rfl _ j held.id hown ⟨held, hheld, hold, rfl⟩
  · exact hfree labelId hl hold j hown

omit h in
theorem findNodes_one (L : Layering) (id : ℕ) : (L.sources.findNodes [id]).head?.join = nodesAfter L.history id := by
  rw [L.wellFormed.findNodes, L.visible_nodes]
  rfl

theorem planAddNodeLabel {labelId : ℕ}
    (hplan : planAddNodeLabel L.sources now id labelId = .ok ops) : Planned u (L.history ++ sequenced b ops) n m := by
  rw [PlannedRuns.planAddNodeLabel, findNodes_one] at hplan
  split at hplan
  · cases hplan
  · rename_i held hheld
    split at hplan
    · cases hplan
      exact h.nothing
    · split at hplan
      · cases hplan
      · split at hplan
        · cases hplan
        · rename_i hother
          obtain ⟨labelIds, hset, rfl⟩ := map_ok hplan
          refine h.relabel hheld fun label hl hnew j hown => ?_
          obtain hl | hl := mem_append.mp ((mem_fromLabelIds hset label).mp hl)
          · exact absurd hl hnew
          · rw [mem_singleton.mp hl] at hown
            obtain ⟨v, hv, hj⟩ := hown
            have hfound := (owner_eq_some_iff h.keysIndexed.unique).mpr ⟨j, L.visible_nodes ▸ hv, hj⟩
            rw [h.keysIndexed.findNodeByLabelKey, hfound] at hother
            by_contra hne
            simp [nodeLog_id (Option.join_eq_some_iff.mp hv), hne] at hother

theorem planRemoveNodeLabel {labelId : Option ℕ}
    (hplan : planRemoveNodeLabel L.sources now id labelId = .ok ops) : Planned u (L.history ++ sequenced b ops) n m := by
  rw [PlannedRuns.planRemoveNodeLabel, findNodes_one] at hplan
  split at hplan
  · cases hplan
  · rename_i held hheld
    split at hplan
    · cases hplan
      exact h.nothing
    · split at hplan
      · cases hplan
      · obtain ⟨labelIds, hset, rfl⟩ := map_ok hplan
        refine h.relabel hheld fun label hl hnew _ _ => ?_
        exact absurd (mem_filter.mp ((mem_fromLabelIds hset label).mp hl)).1 hnew

theorem planInvalidateEdge (id : ℕ) (validTo now : ℤ) :
    Planned u (L.history ++ sequenced b (planInvalidateEdge L.sources now id validTo)) n m := by
  rw [PlannedRuns.planInvalidateEdge, L.wellFormed.findEdge, L.visible_edges]
  cases hedge : edgesAfter L.history id with
  | none => exact h.nothing
  | some edge =>
    obtain rfl := edgeLog_id (Option.join_eq_some_iff.mp hedge)
    refine h.upsertEdge (fun hu j hown => ?_) fun q => Kept.rewrite (hedge : _ = some edge) rfl
    exact (h.triples hu).triples _ prefix_rfl _ j edge.id hown ⟨edge, hedge, rfl⟩

/-- Whatever is planned, the log stays a ledger. -/
theorem planCoreWrite {clock : Clock} {request : Request} {core : WriteCore}
    (hplan : planCoreWrite ⟨L.sources, n, m, u⟩ clock request = .ok (ops, core)) :
    Planned u (L.history ++ sequenced b ops) core.nextNodeId core.nextEdgeId := by
  cases request with
  | upsertNode input =>
    rw [PlannedRuns.planCoreWrite] at hplan
    split at hplan
    · cases hplan
    · rename_i node core hnode
      cases hplan
      have hkept := planUpsertNode_kept h.keysIndexed L.visible_nodes hnode
      have hfree := planUpsertNode_keyFree h.keysIndexed hnode
      rw [(hkept 0).2]
      exact h.upsertNode (L.visible_nodes ▸ hfree) fun q => (hkept q).1
  | addNodeLabel id labelId =>
    obtain ⟨ops, hops, heq⟩ := map_ok hplan
    cases heq
    exact h.planAddNodeLabel hops
  | removeNodeLabel id labelId =>
    obtain ⟨ops, hops, heq⟩ := map_ok hplan
    cases heq
    exact h.planRemoveNodeLabel hops
  | upsertEdge input =>
    cases hplan
    exact h.planUpsertEdge rfl
  | invalidateEdge id validTo =>
    cases hplan
    exact h.planInvalidateEdge id validTo (clock 0)
  | deleteEdge id =>
    cases hplan
    exact h.deletes (by simp [IsDelete, deletedEdge?])
  | deleteNode id =>
    cases hplan
    refine h.deletes fun op hop => ?_
    obtain hop | hop := mem_append.mp (show op ∈ planDeleteNode L.sources clock id from hop)
    · obtain ⟨_, -, rfl⟩ := mem_map.mp hop
      exact .inl rfl
    · exact .inr (mem_singleton.mp hop ▸ rfl)
  | prune policy =>
    cases hplan
    obtain ⟨⟨⟨dels, hops, hdel, -⟩, -⟩, -⟩ := (deleting_start (pushTokenOps ⟨[], []⟩)).targets
      L.sources clock (fun _ => []) (collectPruneTargets L.sources policy (clock 0)).zipIdx
    rw [planPrune, hops]
    exact h.deletes hdel

end
end Planned

theorem numbered_nodes : Numbered NodeRecord.id (log.flatMap nodeWrites) := fun _ _ hv => nodeLog_id (Option.join_eq_some_iff.mp hv)

theorem numbered_edges : Numbered EdgeRecord.id (log.flatMap edgeWrites) := fun _ _ hv => edgeLog_id (Option.join_eq_some_iff.mp hv)

variable {L : Layering}

theorem Planned.findNodeByLabelKey (h : Planned u L.history n m) (labelId : ℕ) (key : String) :
    L.sources.findNodeByLabelKey labelId key = owner HasKey (current (L.history.flatMap nodeWrites)) (labelId, key) := by
  rw [h.keysIndexed.findNodeByLabelKey, L.visible_nodes]
  rfl

theorem Planned.findEdgeByTriple (h : Planned u L.history n m) (hu : u = true) (triple : ℕ × ℕ × ℕ) :
    L.sources.findEdgeByTriple triple = owner HasTriple (current (L.history.flatMap edgeWrites)) triple := by
  obtain ⟨hix, hkept⟩ := h.triplesIndexed hu
  rw [hix.findEdgeByTriple hkept, L.visible_edges]
  rfl

theorem history_append (L : Layering) (ops : List WalOp) : (append L ops).history = L.history ++ sequenced (lastSeq L.history) ops := by
  simp [append, Layering.history, Layering.chunks]

/-- Every number that the operations write is below the counter. -/
def NumberedBelow {ν : Type} (writes : SeqOp → Log ν) (next : ℕ) (ops : List SeqOp) : Prop :=
  ∀ id v, (id, some v) ∈ ops.flatMap writes → id < next

/-- The manifest has counted what is in the segments. -/
structure Opened (u : Bool) (e : Engine) : Prop where
  planned : Planned u e.layers.history e.nextNodeId e.nextEdgeId
  nodes : ∀ ops ∈ e.layers.segments, NumberedBelow nodeWrites e.manifest.1 ops
  edges : ∀ ops ∈ e.layers.segments, NumberedBelow edgeWrites e.manifest.2 ops

theorem lt_foldl_onOpen (top : MemtableState → ℕ) {mems : List MemtableState} {older : ℕ} (h : id < older ∨ ∃ m ∈ mems, id ≤ top m) :
    id < mems.foldl (fun older m => max older (top m + 1)) older := by
  induction mems generalizing older with
  | nil => simpa using h
  | cons m mems ih =>
    apply ih
    obtain hold | ⟨m', hm, hle⟩ := h
    · exact .inl (lt_max_of_lt_left hold)
    · obtain rfl | hm := mem_cons.mp hm
      · exact .inl (lt_max_of_lt_right (Nat.lt_succ_of_le hle))
      · exact .inr ⟨m', hm, hle⟩

theorem numberedBelow_onOpen {ν : Type} {writes : SeqOp → Log ν} {top : MemtableState → ℕ} {older : ℕ}
    (htop : ∀ ops, ∀ write ∈ ops.flatMap writes, write.1 ≤ top (ofOps ops)) (hseg : ∀ ops ∈ L.segments, NumberedBelow writes older ops) :
    NumberedBelow writes (((L.active :: L.immutable).map ofOps).foldl (fun older m => max older (top m + 1)) older) L.history := by
  intro id v hmem
  obtain ⟨op, hop, hwrite⟩ := mem_flatMap.mp hmem
  obtain ⟨ops, hops, hop⟩ := mem_flatten.mp hop
  have hmem := mem_flatMap.mpr ⟨op, hop, hwrite⟩
  apply lt_foldl_onOpen
  obtain hops | hops := mem_append.mp (mem_reverse.mp hops)
  · exact .inr ⟨_, mem_map_of_mem hops, htop ops _ hmem⟩
  · exact .inl (hseg ops hops id v hmem)

theorem le_maxNodeId (ops : List SeqOp) : ∀ write ∈ ops.flatMap nodeWrites, write.1 ≤ maxNodeId (ofOps ops) :=
  fun write hwrite => le_max_of_le ((mem_keys_of_log (congrFun (nodeOpinion_ofOps ops) _)).mpr ⟨write, hwrite, rfl⟩) le_rfl

theorem le_maxEdgeId (ops : List SeqOp) : ∀ write ∈ ops.flatMap edgeWrites, write.1 ≤ maxEdgeId (ofOps ops) :=
  fun write hwrite => le_max_of_le ((mem_keys_of_log (congrFun (edgeOpinion_ofOps ops) _)).mpr ⟨write, hwrite, rfl⟩) le_rfl

namespace Opened
variable {e : Engine}

/-- The layers of the same log, once the manifest has been written. -/
theorem saved (h : Opened u e) (hsame : L.history = e.layers.history) (hsegs : ∀ ops ∈ L.segments, ops ∈ e.layers.chunks) :
    Opened u { e with layers := L, manifest := e.mergeRuntimeManifestCounters } where
  planned := hsame.symm ▸ h.planned
  nodes ops hops id v hmem := by
    obtain ⟨op, hop, hwrite⟩ := mem_flatMap.mp hmem
    exact lt_max_of_lt_right (h.planned.nodes.lt_next (mem_flatMap.mpr ⟨op, Layering.mem_history (hsegs ops hops) hop, hwrite⟩))
  edges ops hops id v hmem := by
    obtain ⟨op, hop, hwrite⟩ := mem_flatMap.mp hmem
    exact lt_max_of_lt_right (h.planned.edges.lt_next (mem_flatMap.mpr ⟨op, Layering.mem_history (hsegs ops hops) hop, hwrite⟩))

/-- What is lost is the end of the log, and the counters found on opening are past what is left. -/
theorem openAgain (h : Opened u e) (kept : ℕ) : Opened u (openAgain e kept) where
  planned := by
    have hpast : (PlannedRuns.openAgain e kept).layers.history <+: e.layers.history := by
      simpa [PlannedRuns.openAgain, Layering.history, Layering.chunks, prefix_append_right_inj] using take_prefix kept e.layers.active
    exact ⟨h.planned.nodes.past (hpast.flatMap _) (numberedBelow_onOpen le_maxNodeId h.nodes),
      h.planned.edges.past (hpast.flatMap _) (numberedBelow_onOpen le_maxEdgeId h.edges)⟩
  nodes := h.nodes
  edges := h.edges

theorem step (h : Opened u e) (event : Event) : Opened u (step u e event) := by
  cases event with
  | write labels clock request =>
    rw [PlannedRuns.step]
    split
    · rename_i ops core hplan
      refine ⟨?_, h.nodes, h.edges⟩
      rw [history_append]
      exact (h.planned.planCoreWrite hplan).newLabels
    · exact h
  | freezeMemtable =>
    rw [PlannedRuns.step, freezeMemtable]
    split
    · exact h
    · apply h.saved
      · simp [Layering.history, Layering.chunks]
      · exact fun ops hops => mem_append_right _ hops
  | adoptFlush =>
    rw [PlannedRuns.step, adoptFlush]
    split
    · exact h
    · rename_i ops hlast
      obtain ⟨rest, hrest⟩ := getLast?_eq_some_iff.mp hlast
      apply h.saved <;> simp [Layering.history, Layering.chunks, hrest]
      tauto
  | crash kept => exact h.openAgain kept

end Opened

/-- What one looks up is what was written, or what was found before under another number. -/
def FindsWritten {κ ν : Type} (carries : κ → ν → Prop) (number : ν → ℕ) (found found' : κ → Option ν) (id : ℕ) (written : Option ν) : Prop :=
  ∀ k v, found' k = some v ↔ written = some v ∧ carries k v ∨ found k = some v ∧ number v ≠ id

def nodeByKey (e : Engine) (k : ℕ × String) : Option NodeRecord := e.layers.sources.findNodeByLabelKey k.1 k.2

def edgeByTriple (e : Engine) (triple : ℕ × ℕ × ℕ) : Option EdgeRecord := e.layers.sources.findEdgeByTriple triple

section
variable {e e' : Engine} (h : Opened u e) (h' : Opened u e') {id : ℕ}
include h h'

theorem Opened.findsNode {written : Option NodeRecord}
    (hlog : e'.layers.history.flatMap nodeWrites = e.layers.history.flatMap nodeWrites ++ [(id, written)])
    (hwritten : ∀ node ∈ written, node.id = id) : FindsWritten HasKey (·.id) (nodeByKey e) (nodeByKey e') id written := by
  intro k node
  rw [nodeByKey, nodeByKey, h.planned.findNodeByLabelKey, h'.planned.findNodeByLabelKey, hlog]
  exact owner_concat_iff (h.planned.keys _ prefix_rfl) (hlog ▸ h'.planned.keys _ prefix_rfl) numbered_nodes hwritten

theorem Opened.findsEdge (hu : u = true) {written : Option EdgeRecord}
    (hlog : e'.layers.history.flatMap edgeWrites = e.layers.history.flatMap edgeWrites ++ [(id, written)])
    (hwritten : ∀ edge ∈ written, edge.id = id) : FindsWritten HasTriple (·.id) (edgeByTriple e) (edgeByTriple e') id written := by
  have hunique := (h'.planned.triples hu).triples _ prefix_rfl
  intro triple edge
  rw [edgeByTriple, edgeByTriple, h.planned.findEdgeByTriple hu, h'.planned.findEdgeByTriple hu, hlog]
  exact owner_concat_iff ((h.planned.triples hu).triples _ prefix_rfl) (hlog ▸ hunique) numbered_edges hwritten

end

theorem flatMap_append_labels {ν : Type} {writes : SeqOp → List ν} {tokens : List WalOp} (L : Layering)
    (h : ∀ op ∈ tokens, ∀ q, writes (q, op) = []) : (append L (tokens ++ ops)).history.flatMap writes =
      L.history.flatMap writes ++ (sequenced (lastSeq L.history + tokens.length) ops).flatMap writes := by
  rw [history_append, Planned.flatMap_labels h, flatMap_append]

/-- A database created empty, after the events. -/
def run (edgeUniqueness : Bool) (events : List Event) : Engine := events.foldl (step edgeUniqueness) ⟨⟨[], [], []⟩, 1, 1, (1, 1)⟩

section
variable (edgeUniqueness : Bool) (events : List Event)

def logAfter : List SeqOp := (run edgeUniqueness events).layers.history

def sourcesAfter : SourceList := (run edgeUniqueness events).layers.sources

def answer (labels : NewLabels) (clock : Clock) (request : Request) : Engine :=
  step edgeUniqueness (run edgeUniqueness events) (.write labels clock request)

theorem opened_run : Opened edgeUniqueness (run edgeUniqueness events) :=
  foldlRecOn events _ ⟨⟨.empty _, .empty _⟩, by simp, by simp⟩ fun _ h event _ => h.step event

/-- After any such run the lookups by key find just the live nodes that have it, and so do the lookups by triple where
triples are to be unique. -/
theorem lookups_exact_after_run :
    (∀ labelId key node, (sourcesAfter edgeUniqueness events).findNodeByLabelKey labelId key = some node ↔
      HasKey (labelId, key) node ∧ (sourcesAfter edgeUniqueness events).findNode node.id = some node) ∧
    (edgeUniqueness = true → ∀ triple edge, (sourcesAfter edgeUniqueness events).findEdgeByTriple triple = some edge ↔
      HasTriple triple edge ∧ (sourcesAfter edgeUniqueness events).findEdge edge.id = some edge) := by
  have h := (opened_run edgeUniqueness events).planned
  rw [sourcesAfter]
  refine ⟨fun labelId key node => ?_, fun hu triple edge => ?_⟩
  · rw [h.findNodeByLabelKey, h.keysIndexed.wellFormed.findNode, Layering.visible_nodes]
    exact owner_iff (h.keys _ prefix_rfl) numbered_nodes
  · rw [h.findEdgeByTriple hu, h.keysIndexed.wellFormed.findEdge, Layering.visible_edges]
    exact owner_iff ((h.triples hu).triples _ prefix_rfl) numbered_edges

end
end OverGraph.PlannedRuns
