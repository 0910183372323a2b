import Mathlib.Data.List.Induction
import OverGraph.GraphView
import OverGraph.Memtable

/-!
# What an operation does to the heads of a memtable

Every operation writes at most one record cell, so the record heads of a memtable are
the last writes of the operations it received. The tombstone cells agree with the
record cells, and the key and triple indexes point at the live owner as long as no
key and no triple ever has two live owners.
-/

namespace OverGraph.Memtable.MemtableState
open VersionedSlots Records LayeredWrites GraphView List Option RecordState MemtableState

/-- What the head of a memtable says about a node. -/
def nodeOpinion (m : MemtableState) : Opinion ℕ NodeRecord := fun id => (headAt m.nodes id).map RecordState.live?

/-- What the head of a memtable says about an edge. -/
def edgeOpinion (m : MemtableState) : Opinion ℕ EdgeRecord := fun id => (headAt m.edges id).map RecordState.live?

theorem currentNode_eq (m : MemtableState) (id : ℕ) : m.currentNode id = (m.nodeOpinion id).join := by
  simp only [currentNode, nodeOpinion]
  cases headAt m.nodes id <;> rfl

theorem currentEdge_eq (m : MemtableState) (id : ℕ) : m.currentEdge id = (m.edgeOpinion id).join := by
  simp only [currentEdge, edgeOpinion]
  cases headAt m.edges id <;> rfl

/-- The cells that point reads consult. The adjacency, label and time indexes and the
counters are left out. -/
structure PointCells where
  nodes : RecordMap NodeRecord
  edges : RecordMap EdgeRecord
  nodeTombstones : MembershipMap ℕ Unit
  edgeTombstones : MembershipMap ℕ Unit
  nodeKeyIndex : LookupMap (ℕ × String)
  edgeTripleIndex : LookupMap (ℕ × ℕ × ℕ)

def pointCells (m : MemtableState) : PointCells := ⟨m.nodes, m.edges, m.nodeTombstones, m.edgeTombstones, m.nodeKeyIndex, m.edgeTripleIndex⟩

variable {g : LookupMap (ℕ × String) → ℕ → LookupMap (ℕ × String)}

section
variable (m : MemtableState)

private def retireKeys (old node : NodeRecord) (q : ℕ) (idx : LookupMap (ℕ × String)) (l : ℕ) : LookupMap (ℕ × String) :=
  if !node.labelIds.contains l || old.key != node.key then setSlot idx (l, old.key) none q
  else idx

private def writeKeys (key : String) (value : Option ℕ) (q : ℕ) (idx : LookupMap (ℕ × String))
    (l : ℕ) : LookupMap (ℕ × String) := setSlot idx (l, key) value q

theorem retireNodeLabel_pointCells (old node : NodeRecord) (q l : ℕ) : (retireNodeLabel old node q m l).pointCells =
      { m.pointCells with nodeKeyIndex := retireKeys old node q m.nodeKeyIndex l } := by
  unfold retireNodeLabel retireKeys
  cases node.labelIds.contains l <;> cases old.key != node.key <;>
    cases old.updatedAt != node.updatedAt <;> rfl

/-- A loop over labels that writes the key index in its own way and no other cell. -/
theorem foldl_pointCells {f : MemtableState → ℕ → MemtableState}
    (h : ∀ m l, (f m l).pointCells = { m.pointCells with nodeKeyIndex := g m.nodeKeyIndex l })
    (ls : List ℕ) : (ls.foldl f m).pointCells = { m.pointCells with nodeKeyIndex := ls.foldl g m.nodeKeyIndex } := by
  induction ls generalizing m with
  | nil => rfl
  | cons l ls ih =>
    have hkey : (f m l).nodeKeyIndex = g m.nodeKeyIndex l := congrArg PointCells.nodeKeyIndex (h m l)
    rw [foldl_cons, foldl_cons, ih, h, hkey]

private def upsertKeys (node : NodeRecord) (q : ℕ) : LookupMap (ℕ × String) :=
  node.labelIds.labelIds.foldl (writeKeys node.key (some node.id) q)
    (match m.currentNode node.id with
      | some old => old.labelIds.labelIds.foldl (retireKeys old node q) m.nodeKeyIndex
      | none => m.nodeKeyIndex)

theorem applyUpsertNode_pointCells (node : NodeRecord) (q : ℕ) : (m.applyUpsertNode node q).pointCells = { m.pointCells with
        nodes := setSlot m.nodes node.id (.live { node with lastWriteSeq := q }) q
        nodeTombstones := if m.nodeDeleted node.id then
          setSparseMembershipSlot m.nodeTombstones node.id false q else m.nodeTombstones
        nodeKeyIndex := m.upsertKeys node q } := by
  have henter (m : MemtableState) := foldl_pointCells m (f := enterNodeLabel node q)
    (g := writeKeys node.key (some node.id) q) (fun _ _ => rfl) node.labelIds.labelIds
  unfold applyUpsertNode upsertKeys
  cases hold : m.currentNode node.id with
  | none =>
    have h := henter m
    simp only [pointCells, PointCells.mk.injEq] at h ⊢
    cases m.nodeDeleted node.id <;>
      simp [setNodeTombstoneSlot, setNodeState, h]
  | some old =>
    have h := henter (old.labelIds.labelIds.foldl (retireNodeLabel old node q) m)
    have h' := foldl_pointCells m (retireNodeLabel_pointCells · old node q) old.labelIds.labelIds
    simp only [pointCells, PointCells.mk.injEq] at h h' ⊢
    cases m.nodeDeleted node.id <;>
      simp [setNodeTombstoneSlot, setNodeState, h, h']

private def deleteKeys (id q : ℕ) : LookupMap (ℕ × String) :=
  match m.currentNode id with
  | some node => node.labelIds.labelIds.foldl (writeKeys node.key none q) m.nodeKeyIndex
  | none => m.nodeKeyIndex

theorem applyDeleteNode_pointCells (id : ℕ) (deletedAt : ℤ) (q : ℕ) :
    (m.applyDeleteNode id deletedAt q).pointCells = { m.pointCells with
        nodes := setSlot m.nodes id (.tombstone ⟨deletedAt, q⟩) q
        nodeTombstones := setSparseMembershipSlot m.nodeTombstones id true q
        nodeKeyIndex := m.deleteKeys id q } := by
  unfold applyDeleteNode deleteKeys
  cases m.currentNode id with
  | none => rfl
  | some node =>
    have h := foldl_pointCells m (f := dropNodeLabel node q) (g := writeKeys node.key none q)
      (fun _ _ => rfl) node.labelIds.labelIds
    simp only [pointCells, PointCells.mk.injEq] at h ⊢
    simp [setNodeTombstoneSlot, setNodeState, h]

/-- The triple index after the withdrawal of a replaced edge. -/
private def retiredTriples (edge : EdgeRecord) (q : ℕ) : LookupMap (ℕ × ℕ × ℕ) :=
  match m.currentEdge edge.id with
  | some old =>
    if old.triple ≠ edge.triple ∧ m.currentEdgeTripleId old.triple = some old.id then
      setSlot m.edgeTripleIndex old.triple none q
    else m.edgeTripleIndex
  | none => m.edgeTripleIndex

private def upsertTriples (edge : EdgeRecord) (q : ℕ) : LookupMap (ℕ × ℕ × ℕ) :=
  if shouldUpdateTriple (m.currentEdge edge.id) edge
      (headAt (m.retiredTriples edge q) edge.triple).join then
    setSlot (m.retiredTriples edge q) edge.triple (some edge.id) q
  else m.retiredTriples edge q

theorem retireEdge_pointCells (old edge : EdgeRecord) (q : ℕ) : (retireEdge old edge q m).pointCells = { m.pointCells with
        edgeTripleIndex :=
          if old.triple ≠ edge.triple ∧ m.currentEdgeTripleId old.triple = some old.id then
            setSlot m.edgeTripleIndex old.triple none q
          else m.edgeTripleIndex } := by
  unfold retireEdge
  dsimp only
  split_ifs <;> rfl

theorem applyUpsertEdge_pointCells (edge : EdgeRecord) (q : ℕ) : (m.applyUpsertEdge edge q).pointCells = { m.pointCells with
        edges := setSlot m.edges edge.id (.live { edge with lastWriteSeq := q }) q
        edgeTombstones := if m.edgeDeleted edge.id then
          setSparseMembershipSlot m.edgeTombstones edge.id false q else m.edgeTombstones
        edgeTripleIndex := m.upsertTriples edge q } := by
  unfold applyUpsertEdge upsertTriples retiredTriples
  cases m.currentEdge edge.id with
  | none =>
    cases m.edgeDeleted edge.id <;>
      simp [pointCells, setEdgeTriple, setAdjOutSlot, setAdjInSlot, setEdgeLabelSlot,
        setOrderedEdgeSlot, setEdgeState, setEdgeTombstoneSlot, shouldUpdateTriple]
  | some old =>
    have h := retireEdge_pointCells m old edge q
    simp only [pointCells, PointCells.mk.injEq] at h
    obtain ⟨h₁, h₂, h₃, h₄, h₅, h₆⟩ := h
    simp only [← h₆]
    simp only [currentEdgeTripleId]
    by_cases hs : shouldUpdateTriple (some old) edge
        (headAt (retireEdge old edge q m).edgeTripleIndex edge.triple).join <;>
      cases m.edgeDeleted edge.id <;>
      simp [pointCells, setEdgeTriple, setAdjOutSlot, setAdjInSlot, setEdgeLabelSlot,
        setOrderedEdgeSlot, setEdgeState, setEdgeTombstoneSlot, h₁, h₂, h₃, h₄, h₅, hs]

private def deleteTriples (id q : ℕ) : LookupMap (ℕ × ℕ × ℕ) :=
  match m.currentEdge id with
  | some edge =>
    if m.currentEdgeTripleId edge.triple = some id then
      setSlot m.edgeTripleIndex edge.triple none q
    else m.edgeTripleIndex
  | none => m.edgeTripleIndex

theorem applyDeleteEdge_pointCells (id : ℕ) (deletedAt : ℤ) (q : ℕ) :
    (m.applyDeleteEdge id deletedAt q).pointCells = { m.pointCells with
        edges := setSlot m.edges id (.tombstone ⟨deletedAt, q⟩) q
        edgeTombstones := setSparseMembershipSlot m.edgeTombstones id true q
        edgeTripleIndex := m.deleteTriples id q } := by
  unfold applyDeleteEdge deleteTriples
  cases m.currentEdge id with
  | none => rfl
  | some edge =>
    unfold dropEdge
    dsimp only
    split_ifs <;> rfl

end

theorem headAt_setSparse (map : MembershipMap ℕ Unit) (k k' : ℕ) (present : Bool) (q : ℕ) :
    (headAt (setSparseMembershipSlot map k present q) k').join = if k' = k then presence present else (headAt map k').join := by
  unfold setSparseMembershipSlot
  split
  · by_cases h : k' = k <;> simp [h]
  · rename_i hc
    simp only [Bool.or_eq_true, not_or, Bool.not_eq_true, isSome_eq_false_iff, isNone_iff_eq_none] at hc
    by_cases h : k' = k
    · subst h
      simp [hc, headAt, presence]
    · simp [h]

theorem headAt_clear (map : MembershipMap ℕ Unit) (k k' q : ℕ) (deleted : Bool)
    (h : (headAt map k).join.isSome = deleted) :
    (headAt (if deleted then setSparseMembershipSlot map k false q else map) k').join = if k' = k then none else (headAt map k').join := by
  cases deleted with
  | true => simpa [presence] using headAt_setSparse map k k' false q
  | false =>
    by_cases hk : k' = k
    · subst hk
      simpa using h
    · simp [hk]

variable {m : MemtableState}

theorem cells_of_pointCells {c : PointCells} (h : m.pointCells = c) :
    m.nodes = c.nodes ∧ m.edges = c.edges ∧ m.nodeTombstones = c.nodeTombstones ∧
      m.edgeTombstones = c.edgeTombstones ∧ m.nodeKeyIndex = c.nodeKeyIndex ∧
      m.edgeTripleIndex = c.edgeTripleIndex := by
  subst h
  exact ⟨rfl, rfl, rfl, rfl, rfl, rfl⟩

/-- A tombstone flag after an operation: the write, or else the old flag. -/
private def flagAfter {ρ : Type} (write : Option (Option ρ)) (old : Bool) : Bool :=
  match write with
  | some value => value.isNone
  | none => old

/-- At most one record is written, with the tombstone next to it. -/
private def WritesCells {ρ : Type} (writes : List (ℕ × Option ρ)) (rs records' : RecordMap ρ)
    (tombstones tombstones' : MembershipMap ℕ Unit) : Prop :=
  (writes = [] ∧ records' = rs ∧ tombstones' = tombstones) ∨
  (∃ id value q, writes = [(id, some value)] ∧ records' = setSlot rs id (.live value) q ∧
    tombstones' = if (headAt tombstones id).join.isSome then setSparseMembershipSlot tombstones id false q else tombstones) ∨
  ∃ id tombstone q, writes = [(id, none)] ∧ records' = setSlot rs id (.tombstone tombstone) q ∧
    tombstones' = setSparseMembershipSlot tombstones id true q

theorem nodeCells_applyOp (m : MemtableState) (op : SeqOp) :
    WritesCells (nodeWrites op) m.nodes (m.applyOp op).nodes m.nodeTombstones (m.applyOp op).nodeTombstones := by
  obtain ⟨q, op⟩ := op
  cases op with
  | upsertNode node =>
    obtain ⟨hr, -, ht, -⟩ := cells_of_pointCells (m.applyUpsertNode_pointCells node q)
    exact .inr (.inl ⟨_, _, q, rfl, hr, ht⟩)
  | deleteNode id deletedAt =>
    obtain ⟨hr, -, ht, -⟩ := cells_of_pointCells (m.applyDeleteNode_pointCells id deletedAt q)
    exact .inr (.inr ⟨_, _, q, rfl, hr, ht⟩)
  | upsertEdge edge =>
    obtain ⟨hr, -, ht, -⟩ := cells_of_pointCells (m.applyUpsertEdge_pointCells edge q)
    exact .inl ⟨rfl, hr, ht⟩
  | deleteEdge id deletedAt =>
    obtain ⟨hr, -, ht, -⟩ := cells_of_pointCells (m.applyDeleteEdge_pointCells id deletedAt q)
    exact .inl ⟨rfl, hr, ht⟩
  | _ => exact .inl ⟨rfl, rfl, rfl⟩

theorem edgeCells_applyOp (m : MemtableState) (op : SeqOp) :
    WritesCells (edgeWrites op) m.edges (m.applyOp op).edges m.edgeTombstones (m.applyOp op).edgeTombstones := by
  obtain ⟨q, op⟩ := op
  cases op with
  | upsertNode node =>
    obtain ⟨-, hr, -, ht, -⟩ := cells_of_pointCells (m.applyUpsertNode_pointCells node q)
    exact .inl ⟨rfl, hr, ht⟩
  | deleteNode id deletedAt =>
    obtain ⟨-, hr, -, ht, -⟩ := cells_of_pointCells (m.applyDeleteNode_pointCells id deletedAt q)
    exact .inl ⟨rfl, hr, ht⟩
  | upsertEdge edge =>
    obtain ⟨-, hr, -, ht, -⟩ := cells_of_pointCells (m.applyUpsertEdge_pointCells edge q)
    exact .inr (.inl ⟨_, _, q, rfl, hr, ht⟩)
  | deleteEdge id deletedAt =>
    obtain ⟨-, hr, -, ht, -⟩ := cells_of_pointCells (m.applyDeleteEdge_pointCells id deletedAt q)
    exact .inr (.inr ⟨_, _, q, rfl, hr, ht⟩)
  | _ => exact .inl ⟨rfl, rfl, rfl⟩

section
variable {ρ : Type} {writes : List (ℕ × Option ρ)} {rs records' : RecordMap ρ}
  {tombstones tombstones' : MembershipMap ℕ Unit} (h : WritesCells writes rs records' tombstones tombstones')
include h

theorem WritesCells.opinion (k : ℕ) : (headAt records' k).map live? =
    (lastWrite writes k).or ((headAt rs k).map live?) := by
  obtain ⟨rfl, rfl, -⟩ | ⟨id, value, q, rfl, rfl, -⟩ | ⟨id, tombstone, q, rfl, rfl, -⟩ := h
  · simp [lastWrite]
  all_goals
    by_cases hid : k = id
    · simp [lastWrite, hid, live?]
    · simp [lastWrite, hid, Ne.symm hid]

theorem WritesCells.deleted (k : ℕ) : (headAt tombstones' k).join.isSome =
    flagAfter (lastWrite writes k) (headAt tombstones k).join.isSome := by
  obtain ⟨rfl, -, rfl⟩ | ⟨id, value, q, rfl, -, rfl⟩ | ⟨id, tombstone, q, rfl, -, rfl⟩ := h
  · simp [lastWrite, flagAfter]
  · rw [headAt_clear tombstones id k q _ rfl]
    by_cases hid : k = id
    · simp [lastWrite, hid, flagAfter]
    · simp [lastWrite, hid, Ne.symm hid, flagAfter]
  · rw [headAt_setSparse]
    by_cases hid : k = id
    · simp [lastWrite, hid, flagAfter, presence]
    · simp [lastWrite, hid, Ne.symm hid, flagAfter]

end

section
variable (m : MemtableState) (op : SeqOp) (id : ℕ)

theorem nodeOpinion_applyOp :
    (m.applyOp op).nodeOpinion id = (lastWrite (nodeWrites op) id).or (m.nodeOpinion id) :=
  (nodeCells_applyOp m op).opinion id

theorem edgeOpinion_applyOp :
    (m.applyOp op).edgeOpinion id = (lastWrite (edgeWrites op) id).or (m.edgeOpinion id) :=
  (edgeCells_applyOp m op).opinion id

end

variable (ops : List SeqOp)

theorem ofOps_concat (op : SeqOp) : ofOps (ops ++ [op]) = (ofOps ops).applyOp op := by simp [ofOps]

/-- The heads of a memtable are the last writes of the operations it received. -/
theorem nodeOpinion_ofOps : (ofOps ops).nodeOpinion = nodeLog ops := by
  funext id
  induction ops using List.reverseRecOn with
  | nil => rfl
  | append_singleton ops op ih =>
    rw [ofOps_concat, nodeOpinion_applyOp, ih, nodeLog_append]
    simp [nodeLog]

theorem edgeOpinion_ofOps : (ofOps ops).edgeOpinion = edgeLog ops := by
  funext id
  induction ops using List.reverseRecOn with
  | nil => rfl
  | append_singleton ops op ih =>
    rw [ofOps_concat, edgeOpinion_applyOp, ih, edgeLog_append]
    simp [edgeLog]

theorem currentNode_ofOps : (ofOps ops).currentNode = nodesAfter ops := by
  funext id
  rw [currentNode_eq, nodeOpinion_ofOps, nodesAfter]

theorem currentEdge_ofOps : (ofOps ops).currentEdge = edgesAfter ops := by
  funext id
  rw [currentEdge_eq, edgeOpinion_ofOps, edgesAfter]

/-- The tombstone cells say exactly what the record cells say. -/
structure TombstonesAgree (m : MemtableState) : Prop where
  nodes : ∀ id, m.nodeDeleted id = true ↔ m.nodeOpinion id = some none
  edges : ∀ id, m.edgeDeleted id = true ↔ m.edgeOpinion id = some none

theorem flagAfter_iff {ρ : Type} {write opinion : Option (Option ρ)} {old : Bool}
    (h : old = true ↔ opinion = some none) : flagAfter write old = true ↔ write.or opinion = some none := by
  rcases write with - | (- | value) <;> simp [flagAfter, h]

theorem TombstonesAgree.applyOp (h : TombstonesAgree m) (op : SeqOp) : TombstonesAgree (m.applyOp op) where
  nodes id := by
    rw [nodeDeleted, (nodeCells_applyOp m op).deleted, nodeOpinion_applyOp]
    exact flagAfter_iff (h.nodes id)
  edges id := by
    rw [edgeDeleted, (edgeCells_applyOp m op).deleted, edgeOpinion_applyOp]
    exact flagAfter_iff (h.edges id)

theorem tombstonesAgree_ofOps : TombstonesAgree (ofOps ops) := by
  induction ops using List.reverseRecOn with
  | nil => constructor <;> intro id <;> simp [ofOps, empty, nodeDeleted, nodeOpinion, edgeDeleted, edgeOpinion]
  | append_singleton ops op ih => exact ofOps_concat ops op ▸ ih.applyOp op

section
variable {κ ρ : Type} {carries : κ → ρ → Prop} {view view' : ℕ → Option ρ} {find find' : κ → Option ℕ} {id : ℕ} {carried : κ → Prop}

/-- An index of owners stays one if it names the written record for what that carries, and nothing for what only the record before
it did. -/
theorem owners_write (h : ∀ k i, find k = some i ↔ Owns carries view k i) (hview : ∀ i, i ≠ id → view' i = view i)
    (hself : ∀ k, Owns carries view' k id ↔ carried k) (hu : OwnersUnique carries view) (hu' : OwnersUnique carries view')
    (hfind : ∀ k, (carried k → find' k = some id) ∧ (¬carried k → Owns carries view k id → find' k = none) ∧
      (¬carried k → ¬Owns carries view k id → find' k = find k)) (k : κ) (i : ℕ) :
    find' k = some i ↔ Owns carries view' k i := by
  obtain ⟨hnew, hgone, hkept⟩ := hfind k
  have hoth : i ≠ id → (Owns carries view' k i ↔ Owns carries view k i) := fun hi => by rw [Owns, Owns, hview i hi]
  by_cases hk : carried k
  · rw [hnew hk, some.injEq]
    exact ⟨fun hi => hi ▸ (hself k).mpr hk, fun ho => hu' k _ _ ((hself k).mpr hk) ho⟩
  by_cases hid : i = id
  · subst hid
    refine iff_of_false (fun hi => ?_) fun ho => hk ((hself k).mp ho)
    by_cases ho : Owns carries view k i
    · cases (hgone hk ho).symm.trans hi
    · exact ho ((h k i).mp ((hkept hk ho).symm.trans hi))
  · rw [hoth hid]
    by_cases ho : Owns carries view k id
    · refine iff_of_false (fun hi => ?_) fun hi => hid (hu k _ _ hi ho)
      cases (hgone hk ho).symm.trans hi
    · rw [hkept hk ho, h]

end

/-- The key index points at the live owner of each key, and at nothing else. -/
def KeyIndexExact (m : MemtableState) : Prop := ∀ l k id, headAt m.nodeKeyIndex (l, k) = some (some id) ↔ OwnsKey m.currentNode l k id

theorem headAt_foldl_writeKeys (key : String) (value : Option ℕ) (q : ℕ)
    (idx : LookupMap (ℕ × String)) (ls : List ℕ) (l : ℕ) (k : String) :
    headAt (ls.foldl (writeKeys key value q) idx) (l, k) = if l ∈ ls ∧ k = key then some value else headAt idx (l, k) := by
  induction ls generalizing idx with
  | nil => simp
  | cons l' ls ih =>
    rw [foldl_cons, ih, writeKeys, headAt_setSlot]
    by_cases hk : k = key <;> by_cases hl : l ∈ ls <;> by_cases hl' : l = l' <;> simp [hk, hl, hl']

theorem headAt_foldl_retireKeys (old node : NodeRecord) (q : ℕ)
    (idx : LookupMap (ℕ × String)) (ls : List ℕ) (l : ℕ) (k : String) :
    headAt (ls.foldl (retireKeys old node q) idx) (l, k) =
      if l ∈ ls ∧ k = old.key ∧ (l ∉ node.labelIds.labelIds ∨ old.key ≠ node.key) then some none
      else headAt idx (l, k) := by
  induction ls generalizing idx with
  | nil => simp
  | cons l' ls ih =>
    rw [foldl_cons, ih, retireKeys, apply_ite (headAt · (l, k)), headAt_setSlot]
    by_cases hl : l = l'
    · subst hl
      by_cases hk : k = old.key <;> by_cases hn : l ∈ node.labelIds.labelIds <;>
        by_cases ho : old.key = node.key <;> simp +contextual [NodeLabelSet.contains, hk, hn, ho]
    · simp [hl]

variable {m' : MemtableState}

theorem currentNode_congr (h : m'.nodes = m.nodes) : m'.currentNode = m.currentNode := by
  funext id
  simp [currentNode, h]

variable {state : RecordState NodeRecord} {id q : ℕ}

theorem currentNode_setSlot (h : m'.nodes = setSlot m.nodes id state q) (i : ℕ) :
    m'.currentNode i = if i = id then state.live? else m.currentNode i := by
  by_cases hi : i = id <;> simp [currentNode, h, hi]

theorem headAt_upsertKeys (m : MemtableState) (node : NodeRecord) (q : ℕ) (key : ℕ × String) :
    (HasKey key node → (headAt (m.upsertKeys node q) key).join = some node.id) ∧
    (¬HasKey key node → Owns HasKey m.currentNode key node.id → (headAt (m.upsertKeys node q) key).join = none) ∧
    (¬HasKey key node → ¬Owns HasKey m.currentNode key node.id →
      (headAt (m.upsertKeys node q) key).join = (headAt m.nodeKeyIndex key).join) := by
  obtain ⟨l, k⟩ := key
  have hhas : HasKey (l, k) node ↔ l ∈ node.labelIds.labelIds ∧ k = node.key := and_congr_right fun _ => eq_comm
  rw [hhas, upsertKeys, headAt_foldl_writeKeys]
  refine ⟨fun ha => by rw [if_pos ha]; rfl, fun ha hown => ?_, fun ha hown => ?_⟩ <;> rw [if_neg ha]
  · obtain ⟨old, hold, hl, hk⟩ := hown
    simp only [hold, headAt_foldl_retireKeys]
    rw [if_pos ⟨hl, hk.symm, (not_and_or.mp ha).imp_right (hk ▸ ·)⟩]
    rfl
  · cases hold : m.currentNode node.id with
    | none => rfl
    | some old =>
      simp only [headAt_foldl_retireKeys]
      rw [if_neg fun ⟨hl, hk, _⟩ => hown ⟨old, hold, hl, hk.symm⟩]

theorem KeyIndexExact.find (h : KeyIndexExact m) (key : ℕ × String) (id : ℕ) :
    (headAt m.nodeKeyIndex key).join = some id ↔ Owns HasKey m.currentNode key id :=
  join_eq_some_iff.trans (h key.1 key.2 id)

theorem KeyIndexExact.applyUpsertNode (h : KeyIndexExact m)
    (node : NodeRecord) (q : ℕ) (hu : KeysUnique m.currentNode)
    (hu' : KeysUnique (m.applyUpsertNode node q).currentNode) : KeyIndexExact (m.applyUpsertNode node q) := by
  obtain ⟨hn, -, -, -, hk, -⟩ := cells_of_pointCells (m.applyUpsertNode_pointCells node q)
  intro l k id
  rw [← join_eq_some_iff, hk]
  refine owners_write h.find (fun i hi => (currentNode_setSlot hn i).trans (if_neg hi)) (fun key => ?_) hu hu'
    (m.headAt_upsertKeys node q) (l, k) id
  simp [Owns, currentNode_setSlot hn, live?, HasKey]

theorem headAt_deleteKeys (m : MemtableState) (id q : ℕ) (key : ℕ × String) :
    (Owns HasKey m.currentNode key id → (headAt (m.deleteKeys id q) key).join = none) ∧ (¬Owns HasKey m.currentNode key id →
      (headAt (m.deleteKeys id q) key).join = (headAt m.nodeKeyIndex key).join) := by
  obtain ⟨l, k⟩ := key
  unfold deleteKeys
  refine ⟨fun ⟨node, hnode, hl, hk⟩ => ?_, fun hown => ?_⟩
  · simp only [hnode, headAt_foldl_writeKeys]
    rw [if_pos ⟨hl, hk.symm⟩]
    rfl
  · cases hnode : m.currentNode id with
    | none => rfl
    | some node =>
      simp only [headAt_foldl_writeKeys]
      rw [if_neg fun ⟨hl, hk⟩ => hown ⟨node, hnode, hl, hk.symm⟩]

theorem KeyIndexExact.applyDeleteNode (h : KeyIndexExact m) (i : ℕ)
    (deletedAt : ℤ) (q : ℕ) (hu : KeysUnique m.currentNode) (hu' : KeysUnique (m.applyDeleteNode i deletedAt q).currentNode) :
    KeyIndexExact (m.applyDeleteNode i deletedAt q) := by
  obtain ⟨hn, -, -, -, hk, -⟩ := cells_of_pointCells (m.applyDeleteNode_pointCells i deletedAt q)
  intro l k id
  rw [← join_eq_some_iff, hk]
  refine owners_write h.find (fun i hi => (currentNode_setSlot hn i).trans (if_neg hi)) (fun key => ?_) hu hu'
    (fun key => ⟨False.elim, fun _ => (m.headAt_deleteKeys i q key).1, fun _ => (m.headAt_deleteKeys i q key).2⟩) (l, k) id
  simp [Owns, currentNode_setSlot hn, live?]

theorem KeyIndexExact.applyOp (h : KeyIndexExact m) (op : SeqOp)
    (hu : KeysUnique m.currentNode) (hu' : KeysUnique (m.applyOp op).currentNode) : KeyIndexExact (m.applyOp op) := by
  obtain ⟨q, op⟩ := op
  cases op with
  | upsertNode node => exact h.applyUpsertNode node q hu hu'
  | deleteNode i deletedAt => exact h.applyDeleteNode i deletedAt q hu hu'
  | upsertEdge edge =>
    obtain ⟨hn, -, -, -, hk, -⟩ := cells_of_pointCells (m.applyUpsertEdge_pointCells edge q)
    intro l k id
    simp only [MemtableState.applyOp, hk, currentNode_congr hn]
    exact h l k id
  | deleteEdge i deletedAt =>
    obtain ⟨hn, -, -, -, hk, -⟩ := cells_of_pointCells (m.applyDeleteEdge_pointCells i deletedAt q)
    intro l k id
    simp only [MemtableState.applyOp, hk, currentNode_congr hn]
    exact h l k id
  | _ => exact h

variable {ops : List SeqOp}

theorem keyIndexExact_ofOps (h : KeysUnambiguous ops) : KeyIndexExact (ofOps ops) := by
  induction ops using List.reverseRecOn with
  | nil => intro l k id; simp [ofOps, empty, Owns, currentNode]
  | append_singleton ops op ih =>
    rw [ofOps_concat]
    refine (ih h.past).applyOp op ?_ ?_
    · rw [currentNode_ofOps]
      exact h _ (prefix_append _ _)
    · rw [← ofOps_concat, currentNode_ofOps]
      exact h _ (prefix_refl _)

/-- The triple index points at the live owner of each triple, and at nothing else. -/
def TripleIndexExact (m : MemtableState) : Prop := ∀ t id, m.currentEdgeTripleId t = some id ↔ OwnsTriple m.currentEdge t id

theorem currentEdge_congr (h : m'.edges = m.edges) : m'.currentEdge = m.currentEdge := by
  funext id
  simp [currentEdge, h]

theorem currentEdge_setSlot {state : RecordState EdgeRecord}
    (h : m'.edges = setSlot m.edges id state q) (i : ℕ) : m'.currentEdge i = if i = id then state.live? else m.currentEdge i := by
  by_cases hi : i = id <;> simp [currentEdge, h, hi]

/-- While the index is exact an upsert always takes its triple and clears the triple
it leaves. -/
theorem headAt_upsertTriples (h : TripleIndexExact m)
    (hids : ∀ id e, m.currentEdge id = some e → e.id = id) (edge : EdgeRecord) (q : ℕ) (t : ℕ × ℕ × ℕ) :
    (edge.triple = t → (headAt (m.upsertTriples edge q) t).join = some edge.id) ∧
    (edge.triple ≠ t → OwnsTriple m.currentEdge t edge.id → (headAt (m.upsertTriples edge q) t).join = none) ∧
    (edge.triple ≠ t → ¬OwnsTriple m.currentEdge t edge.id → (headAt (m.upsertTriples edge q) t).join = m.currentEdgeTripleId t) := by
  have hshould : m.upsertTriples edge q = setSlot (m.retiredTriples edge q) edge.triple (some edge.id) q := by
    unfold upsertTriples
    refine if_pos ?_
    cases hold : m.currentEdge edge.id with
    | none => rfl
    | some old =>
      by_cases heq : old.triple = edge.triple
      · have hcur := (h edge.triple edge.id).mpr ⟨old, hold, heq⟩
        simp only [currentEdgeTripleId] at hcur
        simp [shouldUpdateTriple, retiredTriples, hold, heq, hcur]
      · simp [shouldUpdateTriple, heq]
  rw [hshould, headAt_setSlot]
  refine ⟨fun ht => by simp [ht], fun ht hown => ?_, fun ht hown => ?_⟩ <;> rw [if_neg (Ne.symm ht)]
  · obtain ⟨old, hold, rfl⟩ := hown
    have hcur : m.currentEdgeTripleId old.triple = some old.id := by
      rw [hids _ _ hold]
      exact (h _ _).mpr ⟨old, hold, rfl⟩
    simp [retiredTriples, hold, Ne.symm ht, hcur]
  · cases hold : m.currentEdge edge.id with
    | none => simp [retiredTriples, hold, currentEdgeTripleId]
    | some old =>
      have hne : t ≠ old.triple := fun heq => hown ⟨old, hold, heq.symm⟩
      simp only [retiredTriples, hold]
      split_ifs <;> simp [hne, currentEdgeTripleId]

theorem TripleIndexExact.applyUpsertEdge (h : TripleIndexExact m)
    (edge : EdgeRecord) (q : ℕ) (hids : ∀ id e, m.currentEdge id = some e → e.id = id)
    (hu : TriplesUnique m.currentEdge) (hu' : TriplesUnique (m.applyUpsertEdge edge q).currentEdge) :
    TripleIndexExact (m.applyUpsertEdge edge q) := by
  obtain ⟨-, he, -, -, -, ht⟩ := cells_of_pointCells (m.applyUpsertEdge_pointCells edge q)
  intro t id
  rw [currentEdgeTripleId, ht]
  refine owners_write h (fun i hi => (currentEdge_setSlot he i).trans (if_neg hi)) (fun t => ?_) hu hu'
    (headAt_upsertTriples h hids edge q) t id
  simp [Owns, currentEdge_setSlot he, live?, HasTriple, EdgeRecord.triple]

theorem headAt_deleteTriples (h : TripleIndexExact m) (id q : ℕ) (t : ℕ × ℕ × ℕ) :
    (OwnsTriple m.currentEdge t id → (headAt (m.deleteTriples id q) t).join = none) ∧ (¬OwnsTriple m.currentEdge t id →
      (headAt (m.deleteTriples id q) t).join = m.currentEdgeTripleId t) := by
  unfold deleteTriples
  refine ⟨fun ⟨edge, hedge, heq⟩ => ?_, fun hown => ?_⟩
  · have hcur := (h t id).mpr ⟨edge, hedge, heq⟩
    subst heq
    simp [hedge, hcur]
  · cases hedge : m.currentEdge id with
    | none => rfl
    | some edge =>
      have hne : t ≠ edge.triple := fun heq => hown ⟨edge, hedge, heq.symm⟩
      dsimp only
      split_ifs <;> simp [hne, currentEdgeTripleId]

theorem TripleIndexExact.applyDeleteEdge (h : TripleIndexExact m)
    (i : ℕ) (deletedAt : ℤ) (q : ℕ) (hu : TriplesUnique m.currentEdge) (hu' : TriplesUnique (m.applyDeleteEdge i deletedAt q).currentEdge) :
    TripleIndexExact (m.applyDeleteEdge i deletedAt q) := by
  obtain ⟨-, he, -, -, -, ht⟩ := cells_of_pointCells (m.applyDeleteEdge_pointCells i deletedAt q)
  intro t id
  rw [currentEdgeTripleId, ht]
  refine owners_write h (fun i hi => (currentEdge_setSlot he i).trans (if_neg hi)) (fun t => ?_) hu hu'
    (fun t => ⟨False.elim, fun _ => (headAt_deleteTriples h i q t).1, fun _ => (headAt_deleteTriples h i q t).2⟩) t id
  simp [Owns, currentEdge_setSlot he, live?]

theorem TripleIndexExact.applyOp (h : TripleIndexExact m) (op : SeqOp)
    (hids : ∀ id e, m.currentEdge id = some e → e.id = id) (hu : TriplesUnique m.currentEdge)
    (hu' : TriplesUnique (m.applyOp op).currentEdge) : TripleIndexExact (m.applyOp op) := by
  obtain ⟨q, op⟩ := op
  cases op with
  | upsertEdge edge => exact h.applyUpsertEdge edge q hids hu hu'
  | deleteEdge i deletedAt => exact h.applyDeleteEdge i deletedAt q hu hu'
  | upsertNode node =>
    obtain ⟨-, he, -, -, -, ht⟩ := cells_of_pointCells (m.applyUpsertNode_pointCells node q)
    intro t id
    simp only [MemtableState.applyOp, currentEdgeTripleId, ht, currentEdge_congr he]
    exact h t id
  | deleteNode i deletedAt =>
    obtain ⟨-, he, -, -, -, ht⟩ := cells_of_pointCells (m.applyDeleteNode_pointCells i deletedAt q)
    intro t id
    simp only [MemtableState.applyOp, currentEdgeTripleId, ht, currentEdge_congr he]
    exact h t id
  | _ => exact h

theorem tripleIndexExact_ofOps (h : Unambiguous ops) : TripleIndexExact (ofOps ops) := by
  induction ops using List.reverseRecOn with
  | nil => intro t id; simp [ofOps, empty, Owns, currentEdge, currentEdgeTripleId]
  | append_singleton ops op ih =>
    rw [ofOps_concat]
    refine (ih h.past).applyOp op ?_ ?_ ?_
    · intro id e he
      rw [currentEdge_ofOps, edgesAfter, join_eq_some_iff] at he
      exact edgeLog_id he
    · rw [currentEdge_ofOps]
      exact h.triples _ (prefix_append _ _)
    · rw [← ofOps_concat, currentEdge_ofOps]
      exact h.triples _ (prefix_refl _)

/-! Where several edges share a triple the index names one of them at most. -/

theorem currentEdgeTripleId_upsertEdge (m : MemtableState) (edge : EdgeRecord) (q : ℕ) (t : ℕ × ℕ × ℕ) :
    (m.applyUpsertEdge edge q).currentEdgeTripleId t = if t = edge.triple then
        if shouldUpdateTriple (m.currentEdge edge.id) edge (m.currentEdgeTripleId t) then some edge.id
        else m.currentEdgeTripleId t
      else if (m.currentEdge edge.id).any fun old => old.triple = t ∧ m.currentEdgeTripleId t = some old.id then none
      else m.currentEdgeTripleId t := by
  have ht : (m.applyUpsertEdge edge q).edgeTripleIndex = m.upsertTriples edge q :=
    (cells_of_pointCells (m.applyUpsertEdge_pointCells edge q)).2.2.2.2.2
  have hretd : (headAt (m.retiredTriples edge q) t).join = if (m.currentEdge edge.id).any fun old => old.triple = t ∧ t ≠ edge.triple ∧
        m.currentEdgeTripleId t = some old.id then none else m.currentEdgeTripleId t := by
    unfold retiredTriples
    cases m.currentEdge edge.id with
    | none => rfl
    | some old =>
      dsimp only
      by_cases hold : old.triple = t
      · subst hold
        rw [any_some]
        split_ifs with hleft hrt <;> simp_all [currentEdgeTripleId]
      · simp only [any_some, hold, false_and, decide_false, Bool.false_eq_true, if_false]
        split_ifs
        · rw [headAt_setSlot, if_neg (Ne.symm hold)]
          rfl
        · rfl
  rw [currentEdgeTripleId, ht, upsertTriples]
  by_cases hself : t = edge.triple
  · subst hself
    rw [if_pos rfl]
    have hkept : (headAt (m.retiredTriples edge q) edge.triple).join = m.currentEdgeTripleId edge.triple := by
      rw [hretd, if_neg]
      cases m.currentEdge edge.id <;> simp
    rw [hkept]
    split
    · rw [headAt_setSlot, if_pos rfl]
      rfl
    · exact hkept
  · rw [if_neg hself]
    have hkept : (headAt (m.retiredTriples edge q) t).join =
        if (m.currentEdge edge.id).any fun old => old.triple = t ∧ m.currentEdgeTripleId t = some old.id then none
        else m.currentEdgeTripleId t := by
      rw [hretd]
      simp only [ne_eq, hself, not_false_eq_true, true_and]
    split
    · rw [headAt_setSlot, if_neg hself]
      exact hkept
    · exact hkept

theorem currentEdgeTripleId_deleteEdge (m : MemtableState) (id : ℕ) (deletedAt : ℤ) (q : ℕ) (t : ℕ × ℕ × ℕ) :
    (m.applyDeleteEdge id deletedAt q).currentEdgeTripleId t =
      if (m.currentEdge id).any fun edge => edge.triple = t ∧ m.currentEdgeTripleId t = some id then none
      else m.currentEdgeTripleId t := by
  have ht : (m.applyDeleteEdge id deletedAt q).edgeTripleIndex = m.deleteTriples id q :=
    (cells_of_pointCells (m.applyDeleteEdge_pointCells id deletedAt q)).2.2.2.2.2
  rw [currentEdgeTripleId, ht, deleteTriples]
  cases m.currentEdge id with
  | none => rfl
  | some edge =>
    dsimp only
    by_cases hedge : edge.triple = t
    · subst hedge
      rw [any_some]
      split_ifs with hleft hrt <;> simp_all [currentEdgeTripleId]
    · simp only [any_some, hedge, false_and, decide_false, Bool.false_eq_true, if_false]
      split_ifs
      · rw [headAt_setSlot, if_neg (Ne.symm hedge)]
        rfl
      · rfl

theorem currentEdgeTripleId_of_silent {op : SeqOp} (h : edgeWrites op = []) (t : ℕ × ℕ × ℕ) :
    (m.applyOp op).currentEdgeTripleId t = m.currentEdgeTripleId t := by
  obtain ⟨q, op⟩ := op
  cases op with
  | upsertEdge edge | deleteEdge id deletedAt => cases h
  | upsertNode node =>
    have ht : (m.applyUpsertNode node q).edgeTripleIndex = m.edgeTripleIndex :=
      (cells_of_pointCells (m.applyUpsertNode_pointCells node q)).2.2.2.2.2
    rw [applyOp, currentEdgeTripleId, ht, currentEdgeTripleId]
  | deleteNode id deletedAt =>
    have ht : (m.applyDeleteNode id deletedAt q).edgeTripleIndex = m.edgeTripleIndex :=
      (cells_of_pointCells (m.applyDeleteNode_pointCells id deletedAt q)).2.2.2.2.2
    rw [applyOp, currentEdgeTripleId, ht, currentEdgeTripleId]
  | _ => rfl

/-- No cell that a point read consults is younger than the snapshot. -/
structure SettledBy (m : MemtableState) (s : ℕ) : Prop where
  nodes : NotYounger m.nodes s
  edges : NotYounger m.edges s
  nodeTombstones : NotYounger m.nodeTombstones s
  edgeTombstones : NotYounger m.edgeTombstones s
  nodeKeyIndex : NotYounger m.nodeKeyIndex s
  edgeTripleIndex : NotYounger m.edgeTripleIndex s

variable {s : ℕ}

theorem notYounger_setSparse {map : MembershipMap ℕ Unit} {q : ℕ} (h : NotYounger map s)
    (hq : q ≤ s) (k : ℕ) (present : Bool) : NotYounger (setSparseMembershipSlot map k present q) s := by
  unfold setSparseMembershipSlot
  split
  · exact h.setSlot hq k _
  · exact h

theorem notYounger_foldl (hg : ∀ idx l, NotYounger idx s → NotYounger (g idx l) s)
    {idx : LookupMap (ℕ × String)} (h : NotYounger idx s) (ls : List ℕ) : NotYounger (ls.foldl g idx) s := by
  induction ls generalizing idx with
  | nil => exact h
  | cons l ls ih => exact ih (hg idx l h)

theorem notYounger_retireKeys (old node : NodeRecord) {q : ℕ} (hq : q ≤ s)
    (idx : LookupMap (ℕ × String)) (l : ℕ) (h : NotYounger idx s) :
    NotYounger (retireKeys old node q idx l) s := by
  unfold retireKeys
  split
  · exact h.setSlot hq _ _
  · exact h

section
variable {m : MemtableState}

section
variable {s q : ℕ} (h : NotYounger m.nodeKeyIndex s) (hq : q ≤ s)
include h hq

theorem notYounger_upsertKeys (node : NodeRecord) : NotYounger (m.upsertKeys node q) s := by
  refine notYounger_foldl (fun _ _ hi => hi.setSlot hq _ _) ?_ _
  cases m.currentNode node.id with
  | none => exact h
  | some old => exact notYounger_foldl (notYounger_retireKeys old node hq) h _

theorem notYounger_deleteKeys (id : ℕ) : NotYounger (m.deleteKeys id q) s := by
  unfold deleteKeys
  cases m.currentNode id with
  | none => exact h
  | some node => exact notYounger_foldl (fun _ _ hi => hi.setSlot hq _ _) h _

end

section
variable {s q : ℕ} (h : NotYounger m.edgeTripleIndex s) (hq : q ≤ s)
include h hq

theorem notYounger_upsertTriples (edge : EdgeRecord) : NotYounger (m.upsertTriples edge q) s := by
  have hr : NotYounger (m.retiredTriples edge q) s := by
    unfold retiredTriples
    cases m.currentEdge edge.id with
    | none => exact h
    | some old =>
      dsimp only
      split
      · exact h.setSlot hq _ _
      · exact h
  unfold upsertTriples
  split
  · exact hr.setSlot hq _ _
  · exact hr

theorem notYounger_deleteTriples (id : ℕ) : NotYounger (m.deleteTriples id q) s := by
  unfold deleteTriples
  cases m.currentEdge id with
  | none => exact h
  | some edge =>
    dsimp only
    split
    · exact h.setSlot hq _ _
    · exact h

end

theorem SettledBy.of_pointCells {c : PointCells}
    (h : m.pointCells = c) (hn : NotYounger c.nodes s) (he : NotYounger c.edges s)
    (hnt : NotYounger c.nodeTombstones s) (het : NotYounger c.edgeTombstones s)
    (hk : NotYounger c.nodeKeyIndex s) (ht : NotYounger c.edgeTripleIndex s) : SettledBy m s := by
  subst h
  exact ⟨hn, he, hnt, het, hk, ht⟩

theorem SettledBy.applyOp (h : SettledBy m s) {op : SeqOp}
    (hq : op.1 ≤ s) : SettledBy (m.applyOp op) s := by
  obtain ⟨q, op⟩ := op
  cases op with
  | upsertNode node =>
    refine .of_pointCells (m.applyUpsertNode_pointCells node q) (h.nodes.setSlot hq _ _) h.edges ?_
      h.edgeTombstones (notYounger_upsertKeys h.nodeKeyIndex hq node) h.edgeTripleIndex
    dsimp only
    split
    · exact notYounger_setSparse h.nodeTombstones hq _ _
    · exact h.nodeTombstones
  | upsertEdge edge =>
    refine .of_pointCells (m.applyUpsertEdge_pointCells edge q) h.nodes (h.edges.setSlot hq _ _)
      h.nodeTombstones ?_ h.nodeKeyIndex (notYounger_upsertTriples h.edgeTripleIndex hq edge)
    dsimp only
    split
    · exact notYounger_setSparse h.edgeTombstones hq _ _
    · exact h.edgeTombstones
  | deleteNode i deletedAt =>
    exact .of_pointCells (m.applyDeleteNode_pointCells i deletedAt q) (h.nodes.setSlot hq _ _)
      h.edges (notYounger_setSparse h.nodeTombstones hq _ _) h.edgeTombstones
      (notYounger_deleteKeys h.nodeKeyIndex hq i) h.edgeTripleIndex
  | deleteEdge i deletedAt =>
    exact .of_pointCells (m.applyDeleteEdge_pointCells i deletedAt q) h.nodes
      (h.edges.setSlot hq _ _) h.nodeTombstones (notYounger_setSparse h.edgeTombstones hq _ _)
      h.nodeKeyIndex (notYounger_deleteTriples h.edgeTripleIndex hq i)
  | _ => exact h

end

theorem settledBy_ofOps (h : ∀ op ∈ ops, op.1 ≤ s) : SettledBy (ofOps ops) s := by
  induction ops using List.reverseRecOn with
  | nil => exact ⟨notYounger_empty s, notYounger_empty s, notYounger_empty s, notYounger_empty s, notYounger_empty s, notYounger_empty s⟩
  | append_singleton ops op ih =>
    rw [ofOps_concat]
    exact (ih fun o ho => h o (by simp [ho])).applyOp (h op (by simp))

section
variable {m : MemtableState} {s : ℕ} (h : SettledBy m s)
include h

section
variable (id : ℕ)

theorem SettledBy.nodeStateAt : m.nodeStateAt id s = headAt m.nodes id := h.nodes.readAt id

theorem SettledBy.edgeStateAt : m.edgeStateAt id s = headAt m.edges id := h.edges.readAt id

theorem SettledBy.getNodeAt : m.getNodeAt id s = m.currentNode id := by rw [MemtableState.getNodeAt, h.nodeStateAt, currentNode]

theorem SettledBy.getEdgeAt : m.getEdgeAt id s = m.currentEdge id := by rw [MemtableState.getEdgeAt, h.edgeStateAt, currentEdge]

theorem SettledBy.isNodeDeletedAt : m.isNodeDeletedAt id s = m.nodeDeleted id := by
  rw [MemtableState.isNodeDeletedAt, h.nodeTombstones.readAt, nodeDeleted]

theorem SettledBy.isEdgeDeletedAt : m.isEdgeDeletedAt id s = m.edgeDeleted id := by
  rw [MemtableState.isEdgeDeletedAt, h.edgeTombstones.readAt, edgeDeleted]

end

theorem SettledBy.nodeKeySlotAt (l : ℕ) (k : String) : m.nodeKeySlotAt l k s = (headAt m.nodeKeyIndex (l, k)).join := by
  rw [MemtableState.nodeKeySlotAt, h.nodeKeyIndex.readAt]

theorem SettledBy.edgeTripleSlotAt (t : ℕ × ℕ × ℕ) : m.edgeTripleSlotAt t s = m.currentEdgeTripleId t := by
  rw [MemtableState.edgeTripleSlotAt, h.edgeTripleIndex.readAt, currentEdgeTripleId]

end

end OverGraph.Memtable.MemtableState
