import OverGraph.BuilderAgreement
import OverGraph.SnapshotStability

/-!
# The adjacency cells of a memtable

A memtable keeps the edges at each node in two membership maps, one for the edges that leave the node
and one for those that reach it. A read at the last sequence number finds the cells of the live edges.
-/

namespace OverGraph.AdjacencyCells
open VersionedSlots Records Memtable MemtableState GraphView SnapshotReads SnapshotStability TrackedIndexes IndexHeads Option

theorem notYounger_setSlots {κ τ : Type} [DecidableEq κ] {idx : MembershipMap κ τ} {writes : List (κ × Option τ)} {s q : ℕ}
    (h : NotYounger idx s) (hq : q ≤ s) : NotYounger (setSlots idx writes q) s := by
  induction writes generalizing idx with
  | nil => exact h
  | cons write writes ih => exact ih (h.setSlot hq _ _)

theorem notYounger_adjacency {ops : List SeqOp} {s : ℕ} (h : ∀ op ∈ ops, op.1 ≤ s) :
    NotYounger (ofOps ops).adjOut s ∧ NotYounger (ofOps ops).adjIn s := by
  induction ops using List.reverseRecOn with
  | nil => exact ⟨notYounger_empty s, notYounger_empty s⟩
  | append_singleton ops op ih =>
    obtain ⟨hout, hin⟩ := ih fun op hop => h op (List.mem_append_left _ hop)
    have hq : op.1 ≤ s := h op (List.mem_append_right _ (List.mem_singleton_self op))
    rw [ofOps_concat]
    obtain ⟨q, op⟩ := op
    cases op with
    | upsertNode node =>
      have hparts := Prod.mk.inj (edgeParts_upsertNode (ofOps ops) q node)
      rw [applyOp, hparts.1, (Prod.mk.inj hparts.2).1]
      exact ⟨hout, hin⟩
    | deleteNode id deletedAt =>
      have hparts := Prod.mk.inj (edgeParts_deleteNode (ofOps ops) q id deletedAt)
      rw [applyOp, hparts.1, (Prod.mk.inj hparts.2).1]
      exact ⟨hout, hin⟩
    | upsertEdge edge =>
      obtain ⟨hadjOut, hadjIn, -⟩ := edgeIndexes_upsertEdge (ofOps ops) edge q
      rw [applyOp, hadjOut, hadjIn]
      exact ⟨notYounger_setSlots hout hq, notYounger_setSlots hin hq⟩
    | deleteEdge id deletedAt =>
      obtain ⟨hadjOut, hadjIn, -⟩ := edgeIndexes_deleteEdge (ofOps ops) q id deletedAt
      rw [applyOp, hadjOut, hadjIn]
      exact ⟨notYounger_setSlots hout hq, notYounger_setSlots hin hq⟩
    | _ => exact ⟨hout, hin⟩

theorem mem_visibleEntries_of_tracks {κ τ : Type} [DecidableEq κ] {idx : MembershipMap κ τ} {derived : κ → Option τ} {s : ℕ}
    (hyoung : NotYounger idx s) (htracks : Tracks idx derived) {k : κ} {entry : τ} :
    (k, entry) ∈ visibleEntries idx s ↔ derived k = some entry := by
  rw [mem_visibleEntries, valueAt, hyoung.readAt, htracks]

section
variable {ops : List SeqOp} {s : ℕ} (h : ∀ op ∈ ops, op.1 ≤ s)
include h

theorem mem_adjOut {owner member : ℕ} {entry : AdjEntry} : ((owner, member), entry) ∈ visibleEntries (ofOps ops).adjOut s ↔
      ∃ edge, edgesAfter ops member = some edge ∧ edge.source = owner ∧ entry = adjEntry edge edge.target := by
  rw [mem_visibleEntries_of_tracks (notYounger_adjacency h).1 (BuilderAgreement.indexed_ofOps ops).out, entriesOf, currentEdge_ofOps,
    bind_eq_some_iff]
  simp only [outEntry, ite_none_right_eq_some, some.injEq, @eq_comm _ entry]

theorem mem_adjIn {owner member : ℕ} {entry : AdjEntry} : ((owner, member), entry) ∈ visibleEntries (ofOps ops).adjIn s ↔
      ∃ edge, edgesAfter ops member = some edge ∧ edge.target = owner ∧ entry = adjEntry edge edge.source := by
  rw [mem_visibleEntries_of_tracks (notYounger_adjacency h).2 (BuilderAgreement.indexed_ofOps ops).inn, entriesOf, currentEdge_ofOps,
    bind_eq_some_iff]
  simp only [inEntry, ite_none_right_eq_some, some.injEq, @eq_comm _ entry]

end

end OverGraph.AdjacencyCells
