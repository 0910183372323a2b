import Mathlib.Data.Finset.Card
import OverGraph.MemtableHeads
import OverGraph.TrackedIndexes

/-!
# The label, time and adjacency indexes of a memtable

The heads of these indexes are the entries of the live records. One operation replaces one record;
it withdraws the entries of the old version that the new one does not have and enters those of the
new one.
-/

namespace OverGraph.IndexHeads
open VersionedSlots Records Memtable LayeredWrites GraphView TrackedIndexes List MemtableState Finset Prod

def labelEntry (node : NodeRecord) (key : ℕ × ℕ) : Option Unit := if key.1 ∈ node.labelIds.labelIds then some () else none

def timeEntry (node : NodeRecord) (key : ℕ × ℤ × ℕ) : Option Unit :=
  if key.1 ∈ node.labelIds.labelIds ∧ node.updatedAt = key.2.1 then some () else none

def outEntry (edge : EdgeRecord) (key : ℕ × ℕ) : Option AdjEntry := if edge.source = key.1 then some (adjEntry edge edge.target) else none

def inEntry (edge : EdgeRecord) (key : ℕ × ℕ) : Option AdjEntry := if edge.target = key.1 then some (adjEntry edge edge.source) else none

def edgeLabelEntry (edge : EdgeRecord) (key : ℕ × ℕ) : Option Unit := if edge.labelId = key.1 then some () else none

def edgeIdEntry (_ : EdgeRecord) (_ : ℕ) : Option Unit := some ()

section
variable {κ τ : Type} [DecidableEq κ]

theorem foldl_project {σ : Type} {β : Type} {π : σ → β} {f : σ → ℕ → σ} {g : β → ℕ → β}
    (h : ∀ m labelId, π (f m labelId) = g (π m) labelId) (labelIds : List ℕ) (m : σ) :
    π (labelIds.foldl f m) = labelIds.foldl g (π m) := by
  induction labelIds generalizing m with
  | nil => rfl
  | cons labelId labelIds ih => rw [foldl_cons, foldl_cons, ih, h]

section
variable (idx : MembershipMap κ τ) (key : ℕ → κ) (v : Option τ) (q : ℕ)

theorem foldl_setSlot (labelIds : List ℕ) :
    labelIds.foldl (fun idx labelId => setSlot idx (key labelId) v q) idx =
      setSlots idx (labelIds.map fun labelId => (key labelId, v)) q := by
  rw [setSlots, foldl_map]

theorem foldl_setSlot_if (keep : ℕ → Bool) (labelIds : List ℕ) :
    labelIds.foldl (fun idx labelId => if keep labelId then setSlot idx (key labelId) v q else idx) idx =
      setSlots idx ((labelIds.filter keep).map fun labelId => (key labelId, v)) q := by
  rw [← foldl_setSlot, foldl_filter]

end

end

section
variable (m : MemtableState) (node : NodeRecord) (q : ℕ)

def upsertLabelWrites (old : Option NodeRecord) : List ((ℕ × ℕ) × Option Unit) :=
  (old.elim [] fun old => (old.labelIds.labelIds.filter fun labelId => !node.labelIds.contains labelId).map fun labelId =>
    ((labelId, old.id), none)) ++ node.labelIds.labelIds.map fun labelId => ((labelId, node.id), some ())

def upsertTimeWrites (old : Option NodeRecord) : List ((ℕ × ℤ × ℕ) × Option Unit) :=
  (old.elim [] fun old => (old.labelIds.labelIds.filter fun labelId =>
    !node.labelIds.contains labelId || old.updatedAt != node.updatedAt).map fun labelId => ((labelId, old.updatedAt, old.id), none)) ++
    node.labelIds.labelIds.map fun labelId => ((labelId, node.updatedAt, node.id), some ())

section
variable {κ : Type} [DecidableEq κ] {π : MemtableState → MembershipMap κ Unit} {r : NodeRecord → ℕ → Bool} {k : NodeRecord → ℕ → κ}

/-- An upsert withdraws the labels retired and enters those of the node. -/
theorem index_upsertNode (hlast : π (m.applyUpsertNode node q) = π (node.labelIds.labelIds.foldl (enterNodeLabel node q)
      ((m.currentNode node.id).elim m fun old => old.labelIds.labelIds.foldl (retireNodeLabel old node q) m)))
    (henter : ∀ m labelId, π (enterNodeLabel node q m labelId) = setSlot (π m) (k node labelId) (some ()) q)
    (hreti : ∀ old m labelId, π (retireNodeLabel old node q m labelId) =
      if r old labelId then setSlot (π m) (k old labelId) none q else π m) :
    π (m.applyUpsertNode node q) = setSlots (π m) (((m.currentNode node.id).elim [] fun old =>
      (old.labelIds.labelIds.filter (r old)).map fun labelId => (k old labelId, none)) ++
        node.labelIds.labelIds.map fun labelId => (k node labelId, some ())) q := by
  have hnew := @foldl_project _ _ π _ (fun idx labelId => setSlot idx (k node labelId) (some ()) q) henter
  rw [hlast, hnew, setSlots_append, ← foldl_setSlot]
  cases m.currentNode node.id with
  | none => rfl
  | some old =>
    have hold := @foldl_project _ _ π _ (fun idx labelId => if r old labelId then setSlot idx (k old labelId) none q else idx) (hreti old)
    rw [Option.elim_some, hold, foldl_setSlot_if]
    rfl

end

theorem labelNodeIndex_upsertNode : (m.applyUpsertNode node q).labelNodeIndex =
    setSlots m.labelNodeIndex (upsertLabelWrites node (m.currentNode node.id)) q := by
  refine index_upsertNode m node q (r := fun _ labelId => !node.labelIds.contains labelId) (k := fun rec labelId => (labelId, rec.id))
    ?_ (fun _ _ => rfl) fun old m labelId => ?_
  · unfold applyUpsertNode
    cases m.currentNode node.id <;> cases m.nodeDeleted node.id <;> rfl
  · unfold retireNodeLabel
    cases node.labelIds.contains labelId <;> cases old.key != node.key <;> cases old.updatedAt != node.updatedAt <;> rfl

theorem timeNodeIndex_upsertNode : (m.applyUpsertNode node q).timeNodeIndex =
    setSlots m.timeNodeIndex (upsertTimeWrites node (m.currentNode node.id)) q := by
  refine index_upsertNode m node q (r := fun old labelId => !node.labelIds.contains labelId || old.updatedAt != node.updatedAt)
    (k := fun rec labelId => (labelId, rec.updatedAt, rec.id)) ?_ (fun _ _ => rfl) fun old m labelId => ?_
  · unfold applyUpsertNode
    cases m.currentNode node.id <;> cases m.nodeDeleted node.id <;> rfl
  · unfold retireNodeLabel
    cases node.labelIds.contains labelId <;> cases old.key != node.key <;> cases old.updatedAt != node.updatedAt <;> rfl

def deleteLabelWrites (old : Option NodeRecord) : List ((ℕ × ℕ) × Option Unit) :=
  old.elim [] fun old => old.labelIds.labelIds.map fun labelId => ((labelId, old.id), none)

def deleteTimeWrites (old : Option NodeRecord) : List ((ℕ × ℤ × ℕ) × Option Unit) :=
  old.elim [] fun old => old.labelIds.labelIds.map fun labelId => ((labelId, old.updatedAt, old.id), none)

theorem labelNodeIndex_deleteNode (id : ℕ) (deletedAt : ℤ) : (m.applyDeleteNode id deletedAt q).labelNodeIndex =
    setSlots m.labelNodeIndex (deleteLabelWrites (m.currentNode id)) q := by
  unfold applyDeleteNode deleteLabelWrites
  cases m.currentNode id with
  | none => rfl
  | some old =>
    have hdrop := @foldl_project _ _ labelNodeIndex (dropNodeLabel old q)
      (fun idx labelId => setSlot idx (labelId, old.id) none q) (fun _ _ => rfl) old.labelIds.labelIds m
    exact hdrop.trans (foldl_setSlot _ _ _ _ _)

theorem timeNodeIndex_deleteNode (id : ℕ) (deletedAt : ℤ) : (m.applyDeleteNode id deletedAt q).timeNodeIndex =
    setSlots m.timeNodeIndex (deleteTimeWrites (m.currentNode id)) q := by
  unfold applyDeleteNode deleteTimeWrites
  cases m.currentNode id with
  | none => rfl
  | some old =>
    have hdrop := @foldl_project _ _ timeNodeIndex (dropNodeLabel old q)
      (fun idx labelId => setSlot idx (labelId, old.updatedAt, old.id) none q) (fun _ _ => rfl) old.labelIds.labelIds m
    exact hdrop.trans (foldl_setSlot _ _ _ _ _)

end

section
variable (m : MemtableState) (edge : EdgeRecord) (q : ℕ)

/-- The entries of the old ends go when an end has changed. -/
def upsertOutWrites (old : Option EdgeRecord) : List ((ℕ × ℕ) × Option AdjEntry) :=
  (old.elim [] fun old => if old.source ≠ edge.source ∨ old.target ≠ edge.target then [((old.source, old.id), none)] else []) ++
    [((edge.source, edge.id), some (adjEntry edge edge.target))]

def upsertInWrites (old : Option EdgeRecord) : List ((ℕ × ℕ) × Option AdjEntry) :=
  (old.elim [] fun old => if old.source ≠ edge.source ∨ old.target ≠ edge.target then [((old.target, old.id), none)] else []) ++
    [((edge.target, edge.id), some (adjEntry edge edge.source))]

def upsertEdgeLabelWrites (old : Option EdgeRecord) : List ((ℕ × ℕ) × Option Unit) :=
  (old.elim [] fun old => if old.labelId ≠ edge.labelId then [((old.labelId, old.id), none)] else []) ++
    [((edge.labelId, edge.id), some ())]

theorem edgeIndexes_upsertEdge : (m.applyUpsertEdge edge q).adjOut = setSlots m.adjOut (upsertOutWrites edge (m.currentEdge edge.id)) q ∧
    (m.applyUpsertEdge edge q).adjIn = setSlots m.adjIn (upsertInWrites edge (m.currentEdge edge.id)) q ∧
    (m.applyUpsertEdge edge q).labelEdgeIndex = setSlots m.labelEdgeIndex (upsertEdgeLabelWrites edge (m.currentEdge edge.id)) q ∧
    (m.applyUpsertEdge edge q).orderedEdgeIds = setSlots m.orderedEdgeIds [(edge.id, some ())] q := by
  unfold applyUpsertEdge upsertOutWrites upsertInWrites upsertEdgeLabelWrites
  have hlast : ∀ (m' : MemtableState) (triple : Bool), (if triple then m'.setEdgeTriple edge.triple (some edge.id) q else m').adjOut = m'.adjOut ∧
      (if triple then m'.setEdgeTriple edge.triple (some edge.id) q else m').adjIn = m'.adjIn ∧
      (if triple then m'.setEdgeTriple edge.triple (some edge.id) q else m').labelEdgeIndex = m'.labelEdgeIndex ∧
      (if triple then m'.setEdgeTriple edge.triple (some edge.id) q else m').orderedEdgeIds = m'.orderedEdgeIds := by
    intro m' triple
    cases triple <;> exact ⟨rfl, rfl, rfl, rfl⟩
  cases m.currentEdge edge.id with
  | none =>
    dsimp only
    obtain ⟨hout, hin, hlab, hids⟩ := hlast m (shouldUpdateTriple none edge (m.currentEdgeTripleId edge.triple))
    cases m.edgeDeleted edge.id <;>
      exact ⟨congrArg (setSlot · _ _ q) hout, congrArg (setSlot · _ _ q) hin, congrArg (setSlot · _ _ q) hlab,
        congrArg (setSlot · _ _ q) hids⟩
  | some old =>
    have hreti : (retireEdge old edge q m).adjOut =
          setSlots m.adjOut (if old.source ≠ edge.source ∨ old.target ≠ edge.target then [((old.source, old.id), none)] else []) q ∧
        (retireEdge old edge q m).adjIn =
          setSlots m.adjIn (if old.source ≠ edge.source ∨ old.target ≠ edge.target then [((old.target, old.id), none)] else []) q ∧
        (retireEdge old edge q m).labelEdgeIndex =
          setSlots m.labelEdgeIndex (if old.labelId ≠ edge.labelId then [((old.labelId, old.id), none)] else []) q ∧
        (retireEdge old edge q m).orderedEdgeIds = m.orderedEdgeIds := by
      unfold retireEdge
      dsimp only
      split_ifs <;> exact ⟨rfl, rfl, rfl, rfl⟩
    obtain ⟨hout', hin', hlab', hids'⟩ := hreti
    dsimp only [Option.elim_some]
    rw [setSlots_append, setSlots_append, setSlots_append, ← hout', ← hin', ← hlab', ← hids']
    obtain ⟨hout, hin, hlab, hids⟩ := hlast (retireEdge old edge q m) (shouldUpdateTriple
      (some old) edge ((retireEdge old edge q m).currentEdgeTripleId edge.triple))
    cases m.edgeDeleted edge.id <;>
      exact ⟨congrArg (setSlot · _ _ q) hout, congrArg (setSlot · _ _ q) hin, congrArg (setSlot · _ _ q) hlab,
        congrArg (setSlot · _ _ q) hids⟩

theorem edgeIndexes_deleteEdge (id : ℕ) (deletedAt : ℤ) : (m.applyDeleteEdge id deletedAt q).adjOut =
      setSlots m.adjOut ((m.currentEdge id).elim [] fun old => [((old.source, old.id), none)]) q ∧
    (m.applyDeleteEdge id deletedAt q).adjIn = setSlots m.adjIn ((m.currentEdge id).elim [] fun old => [((old.target, old.id), none)]) q ∧
    (m.applyDeleteEdge id deletedAt q).labelEdgeIndex =
      setSlots m.labelEdgeIndex ((m.currentEdge id).elim [] fun old => [((old.labelId, old.id), none)]) q ∧
    (m.applyDeleteEdge id deletedAt q).orderedEdgeIds =
      setSlots m.orderedEdgeIds ((m.currentEdge id).elim [] fun old => [(old.id, none)]) q := by
  unfold applyDeleteEdge dropEdge
  cases m.currentEdge id with
  | none => exact ⟨rfl, rfl, rfl, rfl⟩
  | some old =>
    dsimp only
    split <;> exact ⟨rfl, rfl, rfl, rfl⟩

end

section
variable {node stored : NodeRecord} {old : Option NodeRecord} {id : ℕ}

section
variable (hid : ∀ rec, old = some rec → rec.id = node.id) (hsto : stored.labelIds = node.labelIds)
include hid hsto

theorem moves_upsertLabelWrites :
    Moves snd labelEntry node.id old (some stored) (upsertLabelWrites node old) := by
  have hws : ∀ write, write ∈ upsertLabelWrites node old ↔
      (∃ rec, old = some rec ∧ ∃ labelId ∈ rec.labelIds.labelIds, labelId ∉ node.labelIds.labelIds ∧
        write = ((labelId, node.id), none)) ∨ ∃ labelId ∈ node.labelIds.labelIds, write = ((labelId, node.id), some ()) := by
    intro write
    unfold upsertLabelWrites
    cases old with
    | none => grind
    | some rec => grind [NodeLabelSet.contains]
  constructor
  case ids => grind
  case settles =>
    apply settles_of_mem
    grind [labelEntry]
  case written =>
    intro k hk hne
    obtain ⟨labelId, owner⟩ := k
    obtain rfl : owner = node.id := hk
    by_cases hnew : labelId ∈ node.labelIds.labelIds
    · exact ⟨some (), (hws _).mpr (.inr ⟨labelId, hnew, rfl⟩)⟩
    · cases old with
      | none => grind [labelEntry]
      | some rec =>
        refine ⟨none, (hws _).mpr (.inl ⟨rec, rfl, labelId, ?_, hnew, rfl⟩)⟩
        grind [labelEntry]

theorem moves_upsertTimeWrites (htime : stored.updatedAt = node.updatedAt) :
    Moves (fun k => k.2.2) timeEntry node.id old (some stored) (upsertTimeWrites node old) := by
  have hws : ∀ write, write ∈ upsertTimeWrites node old ↔ (∃ rec, old = some rec ∧ ∃ labelId ∈ rec.labelIds.labelIds,
        (labelId ∉ node.labelIds.labelIds ∨ rec.updatedAt ≠ node.updatedAt) ∧
        write = ((labelId, rec.updatedAt, node.id), none)) ∨
      ∃ labelId ∈ node.labelIds.labelIds, write = ((labelId, node.updatedAt, node.id), some ()) := by
    intro write
    unfold upsertTimeWrites
    cases old with
    | none => grind
    | some rec => grind [NodeLabelSet.contains]
  constructor
  case ids => grind
  case settles =>
    apply settles_of_mem
    grind [timeEntry]
  case written =>
    intro k hk hne
    obtain ⟨labelId, time, owner⟩ := k
    obtain rfl : owner = node.id := hk
    by_cases hnew : labelId ∈ node.labelIds.labelIds ∧ node.updatedAt = time
    · obtain ⟨hnew, rfl⟩ := hnew
      exact ⟨some (), (hws _).mpr (.inr ⟨labelId, hnew, rfl⟩)⟩
    · cases old with
      | none => grind [timeEntry]
      | some rec =>
        have hold : labelId ∈ rec.labelIds.labelIds ∧ rec.updatedAt = time := by grind [timeEntry]
        obtain ⟨hold, rfl⟩ := hold
        exact ⟨none, (hws _).mpr (.inl ⟨rec, rfl, labelId, hold, by grind, rfl⟩)⟩

end

theorem moves_deleteLabelWrites (hid : ∀ rec, old = some rec → rec.id = id) :
    Moves snd labelEntry id old none (deleteLabelWrites old) := by
  unfold deleteLabelWrites
  cases old with
  | none => exact ⟨by grind, settles_nil _, by grind⟩
  | some rec =>
    obtain rfl := hid rec rfl
    constructor
    case ids => grind
    case settles =>
      apply settles_of_mem
      grind
    case written =>
      intro k hk hne
      obtain ⟨labelId, owner⟩ := k
      obtain rfl : owner = rec.id := hk
      exact ⟨none, mem_map.mpr ⟨labelId, by grind [labelEntry], rfl⟩⟩

theorem moves_deleteTimeWrites (hid : ∀ rec, old = some rec → rec.id = id) :
    Moves (fun k => k.2.2) timeEntry id old none (deleteTimeWrites old) := by
  unfold deleteTimeWrites
  cases old with
  | none => exact ⟨by grind, settles_nil _, by grind⟩
  | some rec =>
    obtain rfl := hid rec rfl
    constructor
    case ids => grind
    case settles =>
      apply settles_of_mem
      grind
    case written =>
      intro k hk hne
      obtain ⟨labelId, time, owner⟩ := k
      obtain rfl : owner = rec.id := hk
      have hold : labelId ∈ rec.labelIds.labelIds ∧ rec.updatedAt = time := by grind [timeEntry]
      obtain ⟨hold, rfl⟩ := hold
      exact ⟨none, mem_map.mpr ⟨labelId, hold, rfl⟩⟩

end

section
variable {edge stored : EdgeRecord} {old : Option EdgeRecord} {id : ℕ}

/-- The ends, the label and the attributes of a stored edge are those of the operation. -/
structure StoredAs (edge stored : EdgeRecord) : Prop where
  source : stored.source = edge.source
  target : stored.target = edge.target
  labelId : stored.labelId = edge.labelId
  out : adjEntry stored edge.target = adjEntry edge edge.target
  inn : adjEntry stored edge.source = adjEntry edge edge.source

section
variable (hid : ∀ rec, old = some rec → rec.id = edge.id) (hsto : StoredAs edge stored)
include hid hsto

theorem moves_upsertOutWrites :
    Moves snd outEntry edge.id old (some stored) (upsertOutWrites edge old) := by
  obtain ⟨hsrc, htgt, -, hout, -⟩ := hsto
  unfold upsertOutWrites
  constructor
  case ids => cases old <;> grind
  case settles =>
    apply Settles.override
    · intro write hw'
      cases old with
      | none => cases hw'
      | some rec => grind [outEntry]
    · apply settles_of_mem
      grind [outEntry]
  case written =>
    intro k hk hne
    obtain ⟨owner, member⟩ := k
    obtain rfl : member = edge.id := hk
    cases old <;> grind [outEntry]

theorem moves_upsertInWrites :
    Moves snd inEntry edge.id old (some stored) (upsertInWrites edge old) := by
  obtain ⟨hsrc, htgt, -, -, hin⟩ := hsto
  unfold upsertInWrites
  constructor
  case ids => cases old <;> grind
  case settles =>
    apply Settles.override
    · intro write hw'
      cases old with
      | none => cases hw'
      | some rec => grind [inEntry]
    · apply settles_of_mem
      grind [inEntry]
  case written =>
    intro k hk hne
    obtain ⟨owner, member⟩ := k
    obtain rfl : member = edge.id := hk
    cases old <;> grind [inEntry]

theorem moves_upsertEdgeLabelWrites :
    Moves snd edgeLabelEntry edge.id old (some stored) (upsertEdgeLabelWrites edge old) := by
  have hlab := hsto.labelId
  unfold upsertEdgeLabelWrites
  constructor
  case ids => cases old <;> grind
  case settles =>
    apply settles_of_mem
    cases old <;> grind [edgeLabelEntry]
  case written =>
    intro k hk hne
    obtain ⟨labelId, member⟩ := k
    obtain rfl : member = edge.id := hk
    cases old <;> grind [edgeLabelEntry]

end

theorem moves_upsertEdgeIdWrites : Moves (fun k => k) edgeIdEntry edge.id old (some stored) [(edge.id, some ())] := by
  constructor
  case ids => grind
  case settles => exact settles_of_mem (by grind [edgeIdEntry])
  case written => grind

/-- An entry that is withdrawn under the key that the record had. -/
theorem moves_delete {κ τ : Type} [DecidableEq κ] {idOf : κ → ℕ} {derive : EdgeRecord → κ → Option τ} {keyOf : EdgeRecord → κ}
    (hid : ∀ rec, old = some rec → idOf (keyOf rec) = id)
    (hkey : ∀ rec k, old = some rec → idOf k = id → derive rec k ≠ none → k = keyOf rec) :
    Moves idOf derive id old none (old.elim [] fun rec => [(keyOf rec, none)]) := by
  cases old with
  | none => exact ⟨by grind, settles_nil _, by grind⟩
  | some rec =>
    constructor
    case ids => grind
    case settles => exact settles_of_mem (by grind)
    case written => grind

end

section
variable (m : MemtableState) (q : ℕ)

theorem replaces_of_written {ρ : Type} {before after : ℕ → Option ρ} {opinion opinion' : ℕ → Option (Option ρ)} {id : ℕ}
    {rec : Option ρ} (hbef : ∀ id, before id = (opinion id).join) (haft : ∀ id, after id = (opinion' id).join)
    (h : ∀ other, opinion' other = (lastWrite [(id, rec)] other).or (opinion other)) : Replaces id rec before after := by
  intro other
  rw [hbef, haft, h]
  by_cases hoth : other = id
  · simp [lastWrite, hoth]
  · simp [lastWrite, hoth, Ne.symm hoth]

theorem currentNode_upsertNode (node : NodeRecord) :
    Replaces node.id (some { node with lastWriteSeq := q }) m.currentNode (m.applyUpsertNode node q).currentNode :=
  replaces_of_written m.currentNode_eq (currentNode_eq _) (m.nodeOpinion_applyOp (q, .upsertNode node))

theorem currentNode_deleteNode (id : ℕ) (deletedAt : ℤ) : Replaces id none m.currentNode (m.applyDeleteNode id deletedAt q).currentNode :=
  replaces_of_written m.currentNode_eq (currentNode_eq _) (m.nodeOpinion_applyOp (q, .deleteNode id deletedAt))

theorem currentEdge_upsertEdge (edge : EdgeRecord) :
    Replaces edge.id (some { edge with lastWriteSeq := q }) m.currentEdge (m.applyUpsertEdge edge q).currentEdge :=
  replaces_of_written m.currentEdge_eq (currentEdge_eq _) (m.edgeOpinion_applyOp (q, .upsertEdge edge))

theorem currentEdge_deleteEdge (id : ℕ) (deletedAt : ℤ) : Replaces id none m.currentEdge (m.applyDeleteEdge id deletedAt q).currentEdge :=
  replaces_of_written m.currentEdge_eq (currentEdge_eq _) (m.edgeOpinion_applyOp (q, .deleteEdge id deletedAt))

/-- An operation on edges leaves the nodes alone, and the other way round. -/
theorem currentNode_applyOp_of_silent {op : SeqOp} (h : nodeWrites op = []) : (m.applyOp op).currentNode = m.currentNode := by
  funext id
  rw [currentNode_eq, currentNode_eq, nodeOpinion_applyOp, h]
  rfl

theorem currentEdge_applyOp_of_silent {op : SeqOp} (h : edgeWrites op = []) : (m.applyOp op).currentEdge = m.currentEdge := by
  funext id
  rw [currentEdge_eq, currentEdge_eq, edgeOpinion_applyOp, h]
  rfl

end

/-- The indexes of edges, and how many there are. -/
def edgeParts (m : MemtableState) := (m.adjOut, m.adjIn, m.labelEdgeIndex, m.orderedEdgeIds, m.liveEdgeCount)

/-- The indexes of nodes, and how many there are. -/
def nodeParts (m : MemtableState) := (m.labelNodeIndex, m.timeNodeIndex, m.liveNodeCount)

theorem foldl_keep {σ β : Type} {π : σ → β} {f : σ → ℕ → σ} (h : ∀ m labelId, π (f m labelId) = π m) (labelIds : List ℕ) (m : σ) :
    π (labelIds.foldl f m) = π m := by
  induction labelIds generalizing m with
  | nil => rfl
  | cons labelId labelIds ih => rw [foldl_cons, ih, h]

section
variable (m : MemtableState) (q : ℕ)

theorem edgeParts_upsertNode (node : NodeRecord) : edgeParts (m.applyUpsertNode node q) = edgeParts m := by
  have henter (m : MemtableState) := @foldl_keep _ _ edgeParts (enterNodeLabel node q) (fun _ _ => rfl)
    node.labelIds.labelIds m
  have hreti : ∀ old m labelId, edgeParts (retireNodeLabel old node q m labelId) = edgeParts m := by
    intro old m labelId
    unfold retireNodeLabel
    cases node.labelIds.contains labelId <;> cases old.key != node.key <;> cases old.updatedAt != node.updatedAt <;> rfl
  unfold applyUpsertNode
  cases m.currentNode node.id with
  | none => cases m.nodeDeleted node.id <;> exact henter m
  | some old =>
    have hold := foldl_keep (hreti old) old.labelIds.labelIds m
    cases m.nodeDeleted node.id <;> exact (henter _).trans hold

theorem edgeParts_deleteNode (id : ℕ) (deletedAt : ℤ) : edgeParts (m.applyDeleteNode id deletedAt q) = edgeParts m := by
  unfold applyDeleteNode
  cases m.currentNode id with
  | none => rfl
  | some old => exact @foldl_keep _ _ edgeParts (dropNodeLabel old q) (fun _ _ => rfl) old.labelIds.labelIds m

/-- A write that leaves a part of the state alone. -/
structure Keeps {β : Type} (π : MemtableState → β) (f : MemtableState → MemtableState) : Prop where
  keeps : ∀ m, π (f m) = π m

theorem Keeps.ite {β : Type} {π : MemtableState → β} {f : MemtableState → MemtableState} (h : Keeps π f) (c : Bool) (m : MemtableState) :
    π (if c then f m else m) = π m := by
  cases c with
  | true => exact h.keeps m
  | false => rfl

/-- The writes of cells that an upsert of an edge makes after the old version is withdrawn. -/
theorem keeps_upsertEdge {β : Type} {π : MemtableState → β} (edge : EdgeRecord)
    (htri : Keeps π (·.setEdgeTriple edge.triple (some edge.id) q))
    (hout : Keeps π (·.setAdjOutSlot edge.source edge.id (some (adjEntry edge edge.target)) q))
    (hin : Keeps π (·.setAdjInSlot edge.target edge.id (some (adjEntry edge edge.source)) q))
    (hlab : Keeps π (·.setEdgeLabelSlot edge.labelId edge.id true q)) (hid : Keeps π (·.setOrderedEdgeSlot edge.id true q))
    (htomb : Keeps π (·.setEdgeTombstoneSlot edge.id false q))
    (hsta : Keeps π (·.setEdgeState edge.id (.live { edge with lastWriteSeq := q }) q))
    (hreti : ∀ old, π (retireEdge old edge q m) = π m) :
    ∃ m', π m' = π m ∧ m.applyUpsertEdge edge q =
      if (m.currentEdge edge.id).isSome then m' else { m' with liveEdgeCount := m'.liveEdgeCount + 1 } := by
  unfold applyUpsertEdge
  refine ⟨_, ?_, rfl⟩
  refine (hsta.keeps _).trans ((htomb.ite _ _).trans ((hid.keeps _).trans ((hlab.keeps _).trans ((hin.keeps _).trans
    ((hout.keeps _).trans ((htri.ite _ _).trans ?_))))))
  cases m.currentEdge edge.id with
  | none => rfl
  | some old => exact hreti old

theorem nodeParts_upsertEdge (edge : EdgeRecord) : nodeParts (m.applyUpsertEdge edge q) = nodeParts m := by
  have hreti : ∀ old, nodeParts (retireEdge old edge q m) = nodeParts m := by
    intro old
    unfold retireEdge
    dsimp only
    split_ifs <;> rfl
  obtain ⟨m', hm', hapl⟩ := @keeps_upsertEdge m q _ nodeParts edge ⟨fun _ => rfl⟩ ⟨fun _ => rfl⟩ ⟨fun _ => rfl⟩ ⟨fun _ => rfl⟩
    ⟨fun _ => rfl⟩ ⟨fun _ => rfl⟩ ⟨fun _ => rfl⟩ hreti
  rw [hapl, ← hm']
  split
  · rfl
  · rfl

theorem liveEdgeCount_upsertEdge (edge : EdgeRecord) : (m.applyUpsertEdge edge q).liveEdgeCount =
    if (m.currentEdge edge.id).isSome then m.liveEdgeCount else m.liveEdgeCount + 1 := by
  have hreti : ∀ old, (retireEdge old edge q m).liveEdgeCount = m.liveEdgeCount := by
    intro old
    unfold retireEdge
    dsimp only
    split_ifs <;> rfl
  obtain ⟨m', hm', hapl⟩ := @keeps_upsertEdge m q _ liveEdgeCount edge ⟨fun _ => rfl⟩ ⟨fun _ => rfl⟩ ⟨fun _ => rfl⟩
    ⟨fun _ => rfl⟩ ⟨fun _ => rfl⟩ ⟨fun _ => rfl⟩ ⟨fun _ => rfl⟩ hreti
  rw [hapl, ← hm']
  split
  · rfl
  · rfl

theorem liveNodeCount_upsertNode (node : NodeRecord) : (m.applyUpsertNode node q).liveNodeCount =
    if (m.currentNode node.id).isSome then m.liveNodeCount else m.liveNodeCount + 1 := by
  have henter (m : MemtableState) := @foldl_keep _ _ liveNodeCount (enterNodeLabel node q) (fun _ _ => rfl)
    node.labelIds.labelIds m
  have hreti : ∀ old m labelId, (retireNodeLabel old node q m labelId).liveNodeCount = m.liveNodeCount := by
    intro old m labelId
    unfold retireNodeLabel
    cases node.labelIds.contains labelId <;> cases old.key != node.key <;> cases old.updatedAt != node.updatedAt <;> rfl
  unfold applyUpsertNode
  cases m.currentNode node.id with
  | none => cases m.nodeDeleted node.id <;> exact congrArg (· + 1) (henter m)
  | some old =>
    have hold := foldl_keep (hreti old) old.labelIds.labelIds m
    cases m.nodeDeleted node.id <;> exact (henter _).trans hold

section
variable (id : ℕ) (deletedAt : ℤ)

theorem liveNodeCount_deleteNode : (m.applyDeleteNode id deletedAt q).liveNodeCount =
    if (m.currentNode id).isSome then m.liveNodeCount - 1 else m.liveNodeCount := by
  unfold applyDeleteNode
  cases m.currentNode id with
  | none => rfl
  | some old =>
    exact congrArg (· - 1)
      (@foldl_keep _ _ liveNodeCount (dropNodeLabel old q) (fun _ _ => rfl) old.labelIds.labelIds m)

theorem liveEdgeCount_deleteEdge : (m.applyDeleteEdge id deletedAt q).liveEdgeCount =
    if (m.currentEdge id).isSome then m.liveEdgeCount - 1 else m.liveEdgeCount := by
  unfold applyDeleteEdge dropEdge
  cases m.currentEdge id with
  | none => rfl
  | some old =>
    dsimp only
    split <;> rfl

theorem nodeParts_deleteEdge : nodeParts (m.applyDeleteEdge id deletedAt q) = nodeParts m := by
  unfold applyDeleteEdge dropEdge
  cases m.currentEdge id with
  | none => rfl
  | some old =>
    dsimp only
    split <;> rfl

end

end

def Counts {ρ : Type} (n : ℕ) (view : ℕ → Option ρ) : Prop := ∃ ids : Finset ℕ, (∀ id, id ∈ ids ↔ (view id).isSome) ∧ n = ids.card

section
variable {ρ : Type} {n id : ℕ} {rec : ρ} {before after : ℕ → Option ρ}

theorem Counts.insert (h : Counts n before) (hview : Replaces id (some rec) before after) :
    Counts (if (before id).isSome then n else n + 1) after := by
  obtain ⟨ids, hids, rfl⟩ := h
  refine ⟨insert id ids, ?_, ?_⟩
  · intro other
    rw [mem_insert, hids, hview other]
    split
    · rename_i hoth
      simp [hoth]
    · rename_i hoth
      simp [hoth]
  · split
    · rename_i hold
      rw [insert_eq_of_mem ((hids id).mpr hold)]
    · rename_i hold
      rw [card_insert_of_notMem fun hmem => hold ((hids id).mp hmem)]

theorem Counts.erase (h : Counts n before) (hview : Replaces id none before after) :
    Counts (if (before id).isSome then n - 1 else n) after := by
  obtain ⟨ids, hids, rfl⟩ := h
  refine ⟨ids.erase id, ?_, ?_⟩
  · intro other
    rw [mem_erase, hids, hview other]
    split
    · rename_i hoth
      simp [hoth]
    · rename_i hoth
      simp [hoth]
  · split
    · rename_i hold
      rw [card_erase_of_mem ((hids id).mpr hold)]
    · rename_i hold
      rw [erase_eq_of_notMem fun hmem => hold ((hids id).mp hmem)]

end

/-- The heads of the indexes are the entries of the live records. -/
structure Indexed (m : MemtableState) : Prop where
  labels : Tracks m.labelNodeIndex (entriesOf Prod.snd labelEntry m.currentNode)
  times : Tracks m.timeNodeIndex (entriesOf (fun k => k.2.2) timeEntry m.currentNode)
  out : Tracks m.adjOut (entriesOf Prod.snd outEntry m.currentEdge)
  inn : Tracks m.adjIn (entriesOf Prod.snd inEntry m.currentEdge)
  edgeLabels : Tracks m.labelEdgeIndex (entriesOf Prod.snd edgeLabelEntry m.currentEdge)
  edgeIds : Tracks m.orderedEdgeIds (entriesOf (fun k => k) edgeIdEntry m.currentEdge)
  nodeCount : Counts m.liveNodeCount m.currentNode
  edgeCount : Counts m.liveEdgeCount m.currentEdge

/-- Records are stored under their own ids. -/
structure IdsMatch (m : MemtableState) : Prop where
  node : ∀ id rec, m.currentNode id = some rec → rec.id = id
  edge : ∀ id rec, m.currentEdge id = some rec → rec.id = id

theorem idsMatch_ofOps (ops : List SeqOp) : IdsMatch (ofOps ops) where
  node id rec h := by
    rw [currentNode_ofOps, nodesAfter] at h
    apply @nodeLog_id ops
    cases hlog : nodeLog ops id with
    | none =>
      rw [hlog] at h
      cases h
    | some opinion =>
      rw [hlog] at h
      exact congrArg some h
  edge id rec h := by
    rw [currentEdge_ofOps, edgesAfter] at h
    apply @edgeLog_id ops
    cases hlog : edgeLog ops id with
    | none =>
      rw [hlog] at h
      cases h
    | some opinion =>
      rw [hlog] at h
      exact congrArg some h

theorem storedAs (edge : EdgeRecord) (q : ℕ) : StoredAs edge { edge with lastWriteSeq := q } := ⟨rfl, rfl, rfl, rfl, rfl⟩

theorem counts_nothing {ρ : Type} : Counts 0 fun _ => (none : Option ρ) := ⟨∅, by simp, rfl⟩

theorem indexed_empty : Indexed empty :=
  ⟨fun _ => rfl, fun _ => rfl, fun _ => rfl, fun _ => rfl, fun _ => rfl, fun _ => rfl, counts_nothing, counts_nothing⟩

theorem Indexed.applyOp {m : MemtableState} (h : Indexed m) (hids : IdsMatch m) (op : SeqOp) : Indexed (m.applyOp op) := by
  obtain ⟨q, op⟩ := op
  cases op with
  | upsertNode node =>
    have hview := currentNode_upsertNode m q node
    have heds : (m.applyUpsertNode node q).currentEdge = m.currentEdge := @currentEdge_applyOp_of_silent m (q, .upsertNode node) rfl
    obtain ⟨hout, hparts⟩ := mk.inj (edgeParts_upsertNode m q node)
    obtain ⟨hin, hparts⟩ := mk.inj hparts
    obtain ⟨hlabs, hparts⟩ := mk.inj hparts
    obtain ⟨hedgeIds, hcnt⟩ := mk.inj hparts
    constructor
    case labels => exact (labelNodeIndex_upsertNode m node q).symm ▸ h.labels.replace hview (moves_upsertLabelWrites (hids.node _) rfl) q
    case times => exact (timeNodeIndex_upsertNode m node q).symm ▸ h.times.replace hview (moves_upsertTimeWrites (hids.node _) rfl rfl) q
    case out => exact hout.symm ▸ heds.symm ▸ h.out
    case inn => exact hin.symm ▸ heds.symm ▸ h.inn
    case edgeLabels => exact hlabs.symm ▸ heds.symm ▸ h.edgeLabels
    case edgeIds => exact hedgeIds.symm ▸ heds.symm ▸ h.edgeIds
    case nodeCount => exact (liveNodeCount_upsertNode m q node).symm ▸ h.nodeCount.insert hview
    case edgeCount => exact hcnt.symm ▸ heds.symm ▸ h.edgeCount
  | deleteNode id deletedAt =>
    have hview := currentNode_deleteNode m q id deletedAt
    have heds : (m.applyDeleteNode id deletedAt q).currentEdge = m.currentEdge :=
      @currentEdge_applyOp_of_silent m (q, .deleteNode id deletedAt) rfl
    obtain ⟨hout, hparts⟩ := mk.inj (edgeParts_deleteNode m q id deletedAt)
    obtain ⟨hin, hparts⟩ := mk.inj hparts
    obtain ⟨hlabs, hparts⟩ := mk.inj hparts
    obtain ⟨hedgeIds, hcnt⟩ := mk.inj hparts
    constructor
    case labels =>
      exact (labelNodeIndex_deleteNode m q id deletedAt).symm ▸
        h.labels.replace hview (moves_deleteLabelWrites (hids.node id)) q
    case times =>
      exact (timeNodeIndex_deleteNode m q id deletedAt).symm ▸
        h.times.replace hview (moves_deleteTimeWrites (hids.node id)) q
    case out => exact hout.symm ▸ heds.symm ▸ h.out
    case inn => exact hin.symm ▸ heds.symm ▸ h.inn
    case edgeLabels => exact hlabs.symm ▸ heds.symm ▸ h.edgeLabels
    case edgeIds => exact hedgeIds.symm ▸ heds.symm ▸ h.edgeIds
    case nodeCount => exact (liveNodeCount_deleteNode m q id deletedAt).symm ▸ h.nodeCount.erase hview
    case edgeCount => exact hcnt.symm ▸ heds.symm ▸ h.edgeCount
  | upsertEdge edge =>
    have hview := currentEdge_upsertEdge m q edge
    have hnos : (m.applyUpsertEdge edge q).currentNode = m.currentNode := @currentNode_applyOp_of_silent m (q, .upsertEdge edge) rfl
    obtain ⟨hlabs, hparts⟩ := mk.inj (nodeParts_upsertEdge m q edge)
    obtain ⟨htimes, hcnt⟩ := mk.inj hparts
    obtain ⟨hout, hin, hedgeLabels, hedgeIds⟩ := edgeIndexes_upsertEdge m edge q
    constructor
    case labels => exact hlabs.symm ▸ hnos.symm ▸ h.labels
    case times => exact htimes.symm ▸ hnos.symm ▸ h.times
    case out => exact hout.symm ▸ h.out.replace hview (moves_upsertOutWrites (hids.edge _) (storedAs edge q)) q
    case inn => exact hin.symm ▸ h.inn.replace hview (moves_upsertInWrites (hids.edge _) (storedAs edge q)) q
    case edgeLabels => exact hedgeLabels.symm ▸ h.edgeLabels.replace hview (moves_upsertEdgeLabelWrites (hids.edge _) (storedAs edge q)) q
    case edgeIds => exact hedgeIds.symm ▸ h.edgeIds.replace hview moves_upsertEdgeIdWrites q
    case nodeCount => exact hcnt.symm ▸ hnos.symm ▸ h.nodeCount
    case edgeCount => exact (liveEdgeCount_upsertEdge m q edge).symm ▸ h.edgeCount.insert hview
  | deleteEdge id deletedAt =>
    have hview := currentEdge_deleteEdge m q id deletedAt
    have hnos : (m.applyDeleteEdge id deletedAt q).currentNode = m.currentNode :=
      @currentNode_applyOp_of_silent m (q, .deleteEdge id deletedAt) rfl
    obtain ⟨hlabs, hparts⟩ := mk.inj (nodeParts_deleteEdge m q id deletedAt)
    obtain ⟨htimes, hcnt⟩ := mk.inj hparts
    obtain ⟨hout, hin, hedgeLabels, hedgeIds⟩ := edgeIndexes_deleteEdge m q id deletedAt
    have hid := hids.edge id
    constructor
    case labels => exact hlabs.symm ▸ hnos.symm ▸ h.labels
    case times => exact htimes.symm ▸ hnos.symm ▸ h.times
    case out => exact hout.symm ▸ h.out.replace hview (moves_delete (hids.edge id) (by grind [outEntry])) q
    case inn => exact hin.symm ▸ h.inn.replace hview (moves_delete (hids.edge id) (by grind [inEntry])) q
    case edgeLabels => exact hedgeLabels.symm ▸ h.edgeLabels.replace hview (moves_delete (hids.edge id) (by grind [edgeLabelEntry])) q
    case edgeIds => exact hedgeIds.symm ▸ h.edgeIds.replace hview (moves_delete (hids.edge id) (by grind)) q
    case nodeCount => exact hcnt.symm ▸ hnos.symm ▸ h.nodeCount
    case edgeCount => exact (liveEdgeCount_deleteEdge m q id deletedAt).symm ▸ h.edgeCount.erase hview
  | ensureNodeLabel _ _ | ensureEdgeLabel _ _ | beginAtomicBatch _ _ | commitAtomicBatch _ _ => exact h

end OverGraph.IndexHeads
