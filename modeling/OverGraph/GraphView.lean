import OverGraph.Records
import OverGraph.LayeredWrites

/-!
# The graph a history of writes describes

A history of operations describes two partial maps, from identifiers to nodes and to
edges: what the last write of each identifier left. Every storage layout of the
database stands for such a pair of maps, and a history is unambiguous when at each of
its moments no key and no triple has two live owners.
-/

namespace OverGraph.GraphView
open Records LayeredWrites List Option

/-- The node write an operation performs, if it performs one. -/
def nodeWrites : SeqOp → List (ℕ × Option NodeRecord)
  | (q, .upsertNode node) => [(node.id, some { node with lastWriteSeq := q })]
  | (_, .deleteNode id _) => [(id, none)]
  | _ => []

/-- The edge write an operation performs, if it performs one. -/
def edgeWrites : SeqOp → List (ℕ × Option EdgeRecord)
  | (q, .upsertEdge edge) => [(edge.id, some { edge with lastWriteSeq := q })]
  | (_, .deleteEdge id _) => [(id, none)]
  | _ => []

/-- The last word of a run of operations on each node. -/
def nodeLog (ops : List SeqOp) : Opinion ℕ NodeRecord := lastWrite (ops.flatMap nodeWrites)

/-- The last word of a run of operations on each edge. -/
def edgeLog (ops : List SeqOp) : Opinion ℕ EdgeRecord := lastWrite (ops.flatMap edgeWrites)

/-- The nodes that exist after a run of operations. -/
def nodesAfter (ops : List SeqOp) (id : ℕ) : Option NodeRecord := (nodeLog ops id).join

/-- The edges that exist after a run of operations. -/
def edgesAfter (ops : List SeqOp) (id : ℕ) : Option EdgeRecord := (edgeLog ops id).join

theorem nodeLog_append (old new : List SeqOp) (id : ℕ) : nodeLog (old ++ new) id = (nodeLog new id).or (nodeLog old id) := by
  simp [nodeLog, lastWrite_append]

theorem edgeLog_append (old new : List SeqOp) (id : ℕ) : edgeLog (old ++ new) id = (edgeLog new id).or (edgeLog old id) := by
  simp [edgeLog, lastWrite_append]

theorem nodeLog_chunks (chunks : List (List SeqOp)) (id : ℕ) :
    firstOpinion (chunks.map nodeLog) id = nodeLog chunks.reverse.flatten id := by
  induction chunks with
  | nil => rfl
  | cons chunk chunks ih => simp [ih, nodeLog_append]

theorem edgeLog_chunks (chunks : List (List SeqOp)) (id : ℕ) :
    firstOpinion (chunks.map edgeLog) id = edgeLog chunks.reverse.flatten id := by
  induction chunks with
  | nil => rfl
  | cons chunk chunks ih => simp [ih, edgeLog_append]

theorem nodeLog_id {ops : List SeqOp} {id : ℕ} {node : NodeRecord}
    (h : nodeLog ops id = some (some node)) : node.id = id := by
  have hmem := mem_of_lastWrite_eq_some h
  obtain ⟨⟨q, op⟩, -, hop⟩ := mem_flatMap.mp hmem
  cases op <;> simp [nodeWrites] at hop
  obtain ⟨rfl, rfl⟩ := hop
  rfl

theorem edgeLog_id {ops : List SeqOp} {id : ℕ} {edge : EdgeRecord}
    (h : edgeLog ops id = some (some edge)) : edge.id = id := by
  have hmem := mem_of_lastWrite_eq_some h
  obtain ⟨⟨q, op⟩, -, hop⟩ := mem_flatMap.mp hmem
  cases op <;> simp [edgeWrites] at hop
  obtain ⟨rfl, rfl⟩ := hop
  rfl

variable {id : ℕ} {ops : List SeqOp} {edge : EdgeRecord}

/-- A live edge is the last upsert of its identifier. -/
theorem edgeLog_written (h : edgeLog ops id = some (some edge)) :
    ∃ q e, (q, WalOp.upsertEdge e) ∈ ops ∧ edge = { e with lastWriteSeq := q } := by
  have hmem := mem_of_lastWrite_eq_some h
  obtain ⟨⟨q, op⟩, hop, hw⟩ := mem_flatMap.mp hmem
  cases op <;> simp [edgeWrites] at hw
  exact ⟨q, _, hop, hw.2⟩

def HasKey (labelKey : ℕ × String) (node : NodeRecord) : Prop := labelKey.1 ∈ node.labelIds.labelIds ∧ node.key = labelKey.2

/-- The edge has these endpoints and this label. -/
def HasTriple (triple : ℕ × ℕ × ℕ) (edge : EdgeRecord) : Prop := edge.triple = triple

abbrev OwnsKey (nodes : ℕ → Option NodeRecord) (labelId : ℕ) (key : String) (id : ℕ) : Prop := Owns HasKey nodes (labelId, key) id

abbrev OwnsTriple (edges : ℕ → Option EdgeRecord) (triple : ℕ × ℕ × ℕ) (id : ℕ) : Prop := Owns HasTriple edges triple id

abbrev KeysUnique (nodes : ℕ → Option NodeRecord) : Prop := OwnersUnique HasKey nodes

abbrev TriplesUnique (edges : ℕ → Option EdgeRecord) : Prop := OwnersUnique HasTriple edges

/-- At every moment of the history each key has one owner at most. -/
def KeysUnambiguous (ops : List SeqOp) : Prop := ∀ past, past <+: ops → KeysUnique (nodesAfter past)

/-- At every moment of the history each key and each triple has one owner at most. -/
structure Unambiguous (ops : List SeqOp) : Prop where
  keys : ∀ past, past <+: ops → KeysUnique (nodesAfter past)
  triples : ∀ past, past <+: ops → TriplesUnique (edgesAfter past)

variable {old new : List SeqOp}

theorem KeysUnambiguous.past (h : KeysUnambiguous (old ++ new)) : KeysUnambiguous old := fun _ hp => h _ (hp.trans (prefix_append _ _))

theorem Unambiguous.past (h : Unambiguous (old ++ new)) : Unambiguous old where
  keys := KeysUnambiguous.past h.keys
  triples := fun _ hp => h.triples _ (hp.trans (prefix_append _ _))

theorem nodesAfter_of_suffix {node : NodeRecord}
    (h : nodesAfter new id = some node) : nodesAfter (old ++ new) id = some node := by
  rw [nodesAfter, join_eq_some_iff] at h
  simp [nodesAfter, nodeLog_append, h]

theorem edgesAfter_of_suffix (h : edgesAfter new id = some edge) : edgesAfter (old ++ new) id = some edge := by
  rw [edgesAfter, join_eq_some_iff] at h
  simp [edgesAfter, edgeLog_append, h]

theorem KeysUnambiguous.recent (h : KeysUnambiguous (old ++ new)) : KeysUnambiguous new := by
  rintro past hp k i j ⟨n, hn, hl⟩ ⟨n', hn', hl'⟩
  exact h (old ++ past) ((prefix_append_right_inj old).mpr hp) k i j
    ⟨n, nodesAfter_of_suffix hn, hl⟩ ⟨n', nodesAfter_of_suffix hn', hl'⟩

theorem Unambiguous.recent (h : Unambiguous (old ++ new)) : Unambiguous new where
  keys := KeysUnambiguous.recent h.keys
  triples := by
    rintro past hp t i j ⟨e, he, ht⟩ ⟨e', he', ht'⟩
    exact h.triples (old ++ past) ((prefix_append_right_inj old).mpr hp) t i j
      ⟨e, edgesAfter_of_suffix he, ht⟩ ⟨e', edgesAfter_of_suffix he', ht'⟩

/-- A history that only ever writes one node and one edge is unambiguous. -/
theorem unambiguous_of_one_each (i j : ℕ) (hnode : ∀ w ∈ ops.flatMap nodeWrites, w.1 = i)
    (hedge : ∀ w ∈ ops.flatMap edgeWrites, w.1 = j) : Unambiguous ops where
  keys := by
    have hone : ∀ past, past <+: ops → ∀ k id, Owns HasKey (nodesAfter past) k id → id = i := by
      rintro past hp k id ⟨node, hn, -⟩
      rw [nodesAfter, join_eq_some_iff] at hn
      obtain ⟨op, hop, hw⟩ := mem_flatMap.mp (mem_of_lastWrite_eq_some hn)
      exact hnode (id, some node) (mem_flatMap.mpr ⟨op, hp.mem hop, hw⟩)
    intro past hp k a b ha hb
    rw [hone past hp k a ha, hone past hp k b hb]
  triples := by
    have hone : ∀ past, past <+: ops → ∀ t id, Owns HasTriple (edgesAfter past) t id → id = j := by
      rintro past hp t id ⟨edge, he, -⟩
      rw [edgesAfter, join_eq_some_iff] at he
      obtain ⟨op, hop, hw⟩ := mem_flatMap.mp (mem_of_lastWrite_eq_some he)
      exact hedge (id, some edge) (mem_flatMap.mpr ⟨op, hp.mem hop, hw⟩)
    intro past hp t a b ha hb
    rw [hone past hp t a ha, hone past hp t b hb]

/-- Every upsert of an edge keeps the endpoints and the label it was first written
with. -/
def TriplesFixed (ops : List SeqOp) : Prop :=
  ∀ q q' e e', (q, WalOp.upsertEdge e) ∈ ops → (q', WalOp.upsertEdge e') ∈ ops → e.id = e'.id → e.triple = e'.triple

end OverGraph.GraphView
