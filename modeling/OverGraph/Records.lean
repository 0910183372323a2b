import Mathlib.Algebra.Group.Int.Defs
import OverGraph.AssocMaps

/-!
# Stored records and logged operations

Identifiers, label tokens and sequence numbers are natural numbers, timestamps are
integers, and floating-point fields are kept as their bit patterns: nothing in the
storage layers computes with them. Property maps are finite maps from names to
values.
-/

namespace OverGraph.Records
open AssocMaps List

/-- Bit pattern of a 32-bit float. -/
abbrev F32 := BitVec 32

/-- Bit pattern of a 64-bit float. -/
abbrev F64 := BitVec 64

inductive PropValue where
  | null
  | bool (b : Bool)
  | int (i : ℤ)
  | uint (u : ℕ)
  | float (bits : F64)
  | string (s : String)
  | bytes (bs : List UInt8)
  | array (items : List PropValue)
  | map (entries : List (String × PropValue))

abbrev Props := Map String PropValue
abbrev DenseVector := List F32
abbrev SparseVector := List (ℕ × F32)

def maxNodeLabelsPerNode : ℕ := 10

/-- The end of an edge that is valid for ever. -/
def i64Max : ℤ := 9223372036854775807

/-- A canonical label set: nonempty, strictly ascending, without the reserved token
`0`, and of bounded size. -/
structure NodeLabelSet where
  labelIds : List ℕ
  ascending : labelIds.Pairwise (· < ·)
  nonempty : labelIds ≠ []
  reserved : 0 ∉ labelIds
  bounded : labelIds.length ≤ maxNodeLabelsPerNode
  deriving DecidableEq

/-- Binary search in an ascending list decides membership. -/
def NodeLabelSet.contains (s : NodeLabelSet) (labelId : ℕ) : Bool := decide (labelId ∈ s.labelIds)

@[simp] theorem NodeLabelSet.contains_iff (s : NodeLabelSet) (l : ℕ) : s.contains l = true ↔ l ∈ s.labelIds := by simp [contains]

def NodeLabelSet.single (labelId : ℕ) (h : labelId ≠ 0) : NodeLabelSet where
  labelIds := [labelId]
  ascending := pairwise_singleton _ _
  nonempty := cons_ne_nil _ _
  reserved := by simpa using h.symm
  bounded := by simp [maxNodeLabelsPerNode]

structure NodeRecord where
  id : ℕ
  labelIds : NodeLabelSet
  key : String
  props : Props
  createdAt : ℤ
  updatedAt : ℤ
  weight : F32
  denseVector : Option DenseVector
  sparseVector : Option SparseVector
  lastWriteSeq : ℕ

structure EdgeRecord where
  id : ℕ
  source : ℕ
  target : ℕ
  labelId : ℕ
  props : Props
  createdAt : ℤ
  updatedAt : ℤ
  weight : F32
  validFrom : ℤ
  validTo : ℤ
  lastWriteSeq : ℕ

/-- The `(from, to, label)` triple of an edge. -/
def EdgeRecord.triple (e : EdgeRecord) : ℕ × ℕ × ℕ := (e.source, e.target, e.labelId)

structure TombstoneEntry where
  deletedAt : ℤ
  lastWriteSeq : ℕ
  deriving DecidableEq, Repr

inductive WalOp where
  | upsertNode (node : NodeRecord)
  | upsertEdge (edge : EdgeRecord)
  | deleteNode (id : ℕ) (deletedAt : ℤ)
  | deleteEdge (id : ℕ) (deletedAt : ℤ)
  | ensureNodeLabel (label : String) (labelId : ℕ)
  | ensureEdgeLabel (label : String) (labelId : ℕ)
  | beginAtomicBatch (firstSeq opCount : ℕ)
  | commitAtomicBatch (firstSeq opCount : ℕ)

/-- An operation together with the sequence number it is applied with. -/
abbrev SeqOp := ℕ × WalOp

/-- The largest sequence number of a run of operations. -/
def lastSeq (ops : List SeqOp) : ℕ := (ops.map Prod.fst).foldr max 0

theorem le_lastSeq {ops : List SeqOp} {op : SeqOp} (h : op ∈ ops) : op.1 ≤ lastSeq ops := by
  induction ops with
  | nil => cases h
  | cons o ops ih =>
    simp only [lastSeq, map_cons, foldr_cons]
    rcases mem_cons.mp h with rfl | h
    · exact le_max_left _ _
    · exact le_trans (ih h) (le_max_right _ _)

end OverGraph.Records
