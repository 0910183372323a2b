import OverGraph.Runs
import OverGraph.Sources

/-!
# The order of the segments on disk and in memory

The durable manifest lists the segments oldest first, the running engine keeps them
newest first, and the recency of a segment is its position. A flush appends its segment
to the manifest and, when it is adopted, puts it in front of the list in memory. A
compaction replaces its inputs by its output, which the manifest lists last, as its
newest segment, while the engine puts it at the end, as its oldest. The two agree as
long as the compaction leaves nothing beside its output.
-/

namespace OverGraph.SegmentOrder
open Runs Memtable Segments Sources List Nat

/-- A background compaction: the segments it reads and the segment it writes. -/
structure BgCompact where
  inputs : List ℕ
  output : ℕ
  deriving DecidableEq, Repr

structure EngineState where
  manifest : List ℕ
  segments : List ℕ
  building : List ℕ
  published : List ℕ
  bgCompact : Option BgCompact
  nextSegmentId : ℕ
  deriving DecidableEq, Repr

namespace EngineState
variable (s : EngineState)

/-- A database that was just opened. -/
def opened (man : List ℕ) (nextSegmentId : ℕ) : EngineState := ⟨man, man.reverse, [], [], none, nextSegmentId⟩

inductive Event where
  | enqueueFlush
  | publishFlush (segId : ℕ)
  | adoptFlush
  | startBgCompact
  | applyBgCompactResult
  | discardBgCompact
  | compact
  | reopen

/-- A frozen memtable is handed to the build worker under a fresh segment id. -/
def enqueueFlush : EngineState := { s with building := s.building ++ [s.nextSegmentId], nextSegmentId := s.nextSegmentId + 1 }

/-- The publish worker appends a built segment to the manifest. -/
def publishFlush (segId : ℕ) : Option EngineState :=
  if segId ∈ s.building then
    some { s with
      manifest := if segId ∈ s.manifest then s.manifest else s.manifest ++ [segId]
      building := s.building.erase segId
      published := s.published ++ [segId] }
  else none

def adoptFlush : Option EngineState :=
  match s.published with
  | [] => none
  | segId :: rest => some { s with segments := segId :: s.segments, published := rest }

def startBgCompact : Option EngineState :=
  if s.bgCompact.isSome || s.segments.length < 2 then none
  else some { s with
    bgCompact := some ⟨s.segments, s.nextSegmentId⟩, nextSegmentId := s.nextSegmentId + 1 }

/-- The result is dropped if the manifest no longer has one of its inputs. -/
def applyBgCompactResult : Option EngineState :=
  s.bgCompact.map fun bg =>
    if bg.inputs.all (s.manifest.contains ·) then
      { s with
        manifest := s.manifest.filter (!bg.inputs.contains ·) ++ [bg.output]
        segments := s.segments.filter (!bg.inputs.contains ·) ++ [bg.output]
        bgCompact := none }
    else { s with bgCompact := none }

/-- The background compaction was cancelled or failed. -/
def discardBgCompact : Option EngineState := s.bgCompact.map fun _ => { s with bgCompact := none }

/-- A foreground compaction has waited for the background one and flushed everything. -/
def compact : Option EngineState :=
  if s.bgCompact.isSome || !s.building.isEmpty || !s.published.isEmpty || s.segments.length < 2 then
    none
  else some { s with
    manifest := s.manifest.filter (!s.segments.contains ·) ++ [s.nextSegmentId]
    segments := [s.nextSegmentId]
    nextSegmentId := s.nextSegmentId + 1 }

/-- Closing adopts what is published; opening loads the manifest newest first. -/
def reopen : EngineState := opened s.manifest s.nextSegmentId

def step (s : EngineState) : Event → Option EngineState
  | .enqueueFlush => some s.enqueueFlush
  | .publishFlush segId => s.publishFlush segId
  | .adoptFlush => s.adoptFlush
  | .startBgCompact => s.startBgCompact
  | .applyBgCompactResult => s.applyBgCompactResult
  | .discardBgCompact => s.discardBgCompact
  | .compact => s.compact
  | .reopen => some s.reopen

/-- The segments in memory, newest first, once everything published is adopted. -/
def adoptedSegments : List ℕ := s.published.reverse ++ s.segments

/-- The sources of a read over the given segments. -/
def sourcesOver (content : ℕ → Segment) (active : MemtableState) (immutable : List MemtableState)
    (snapshotSeq : ℕ) (segs : List ℕ) : SourceList :=
  ⟨active, immutable, segs.map content, snapshotSeq⟩

/-- Reopening keeps the order of the segments and so the value of every read. -/
structure KeptByReopen : Prop where
  order : s.reopen.segments = s.adoptedSegments
  reads : ∀ content active immutable snapshotSeq,
    let before := sourcesOver content active immutable snapshotSeq s.adoptedSegments
    let after := sourcesOver content active immutable snapshotSeq s.reopen.segments
    (∀ id, after.findNode id = before.findNode id) ∧ (∀ id, after.findEdge id = before.findEdge id) ∧
      ∀ labelId key, after.findNodeByLabelKey labelId key = before.findNodeByLabelKey labelId key

/-- The manifest lists nothing but the inputs of the running compaction. -/
def OnlyInputs : Prop := ∀ bg, s.bgCompact = some bg → ∀ id ∈ s.manifest, id ∈ bg.inputs

/-- A compaction result is only applied over its own inputs. -/
def Undisturbed (s : EngineState) (e : Event) : Prop :=
  match e with
  | .applyBgCompactResult => s.OnlyInputs
  | _ => True

/-- Disk and memory list the same segments, and no identifier is in two places. -/
structure InOrder (s : EngineState) : Prop where
  order : s.manifest.reverse = s.adoptedSegments
  nodup : s.manifest.Nodup
  fresh : ∀ id ∈ s.manifest, id < s.nextSegmentId
  buildingNodup : s.building.Nodup
  buildingNew : ∀ id ∈ s.building, id < s.nextSegmentId ∧ id ∉ s.manifest
  outputNew : ∀ bg, s.bgCompact = some bg → bg.output < s.nextSegmentId ∧ bg.output ∉ s.manifest ∧ bg.output ∉ s.building
  inputsAdopted : ∀ bg, s.bgCompact = some bg → ∀ id ∈ bg.inputs,
    id < s.nextSegmentId ∧ id ∉ s.published ∧ id ∉ s.building

variable {s s' : EngineState}

theorem InOrder.mem_manifest (h : s.InOrder) {id : ℕ} : id ∈ s.manifest ↔ id ∈ s.published ∨ id ∈ s.segments := by
  rw [← mem_reverse, h.order, adoptedSegments, mem_append, mem_reverse]

theorem inOrder_opened {man : List ℕ} {next : ℕ} (hnd : man.Nodup)
    (hfr : ∀ id ∈ man, id < next) : (opened man next).InOrder where
  order := by simp [opened, adoptedSegments]
  nodup := hnd
  fresh := hfr
  buildingNodup := nodup_nil
  buildingNew := by simp [opened]
  outputNew := by simp [opened]
  inputsAdopted := by simp [opened]

section
variable (h : s.InOrder)
include h

theorem InOrder.enqueueFlush : s.enqueueFlush.InOrder where
  order := h.order
  nodup := h.nodup
  fresh id hid := Nat.lt_succ_of_lt (h.fresh id hid)
  buildingNodup := by
    refine nodup_append.mpr ⟨h.buildingNodup, nodup_singleton _, ?_⟩
    intro a ha b hb
    obtain rfl := mem_singleton.mp hb
    have hlt := (h.buildingNew a ha).1
    omega
  buildingNew id hid := by
    rcases mem_append.mp hid with hid | hid
    · exact ⟨Nat.lt_succ_of_lt (h.buildingNew id hid).1, (h.buildingNew id hid).2⟩
    · obtain rfl := mem_singleton.mp hid
      exact ⟨lt_succ_self _, fun hmem => lt_irrefl _ (h.fresh _ hmem)⟩
  outputNew bg hbg := by
    obtain ⟨hlt, hman, hbuild⟩ := h.outputNew bg hbg
    refine ⟨Nat.lt_succ_of_lt hlt, hman, fun hmem => ?_⟩
    rcases mem_append.mp hmem with hmem | hmem
    · exact hbuild hmem
    · exact Nat.ne_of_lt hlt (mem_singleton.mp hmem)
  inputsAdopted bg hbg id hid := by
    obtain ⟨hlt, hpub, hbuild⟩ := h.inputsAdopted bg hbg id hid
    refine ⟨Nat.lt_succ_of_lt hlt, hpub, fun hmem => ?_⟩
    rcases mem_append.mp hmem with hmem | hmem
    · exact hbuild hmem
    · exact Nat.ne_of_lt hlt (mem_singleton.mp hmem)

theorem InOrder.publishFlush {segId : ℕ} (hstep : s.publishFlush segId = some s') : s'.InOrder := by
  unfold EngineState.publishFlush at hstep
  split at hstep
  · rename_i hmem
    obtain ⟨hlt, hnew⟩ := h.buildingNew segId hmem
    rw [if_neg hnew] at hstep
    cases hstep
    refine ⟨?_, ?_, ?_, ?_, ?_, ?_, ?_⟩
    · have hor := h.order
      simp only [adoptedSegments] at hor
      simp [adoptedSegments, hor]
    · refine nodup_append.mpr ⟨h.nodup, nodup_singleton _, ?_⟩
      intro a ha b hb
      obtain rfl := mem_singleton.mp hb
      exact fun heq => hnew (heq ▸ ha)
    · intro id hid
      rcases mem_append.mp hid with hid | hid
      · exact h.fresh id hid
      · exact mem_singleton.mp hid ▸ hlt
    · exact h.buildingNodup.erase segId
    · intro id hid
      obtain ⟨hne, hid⟩ := h.buildingNodup.mem_erase_iff.mp hid
      refine ⟨(h.buildingNew id hid).1, fun hman => ?_⟩
      rcases mem_append.mp hman with hman | hman
      · exact (h.buildingNew id hid).2 hman
      · exact hne (mem_singleton.mp hman)
    · intro bg hbg
      obtain ⟨hout, hman, hbuild⟩ := h.outputNew bg hbg
      refine ⟨hout, fun hmem' => ?_, fun hmem' => hbuild (mem_of_mem_erase hmem')⟩
      rcases mem_append.mp hmem' with hmem' | hmem'
      · exact hman hmem'
      · exact hbuild (mem_singleton.mp hmem' ▸ hmem)
    · intro bg hbg id hid
      obtain ⟨hin, hpub, hbuild⟩ := h.inputsAdopted bg hbg id hid
      refine ⟨hin, fun hmem' => ?_, fun hmem' => hbuild (mem_of_mem_erase hmem')⟩
      rcases mem_append.mp hmem' with hmem' | hmem'
      · exact hpub hmem'
      · exact hbuild (mem_singleton.mp hmem' ▸ hmem)
  · cases hstep

theorem InOrder.adoptFlush (hstep : s.adoptFlush = some s') : s'.InOrder := by
  unfold EngineState.adoptFlush at hstep
  split at hstep
  · cases hstep
  · rename_i segId rest hpub
    cases hstep
    refine ⟨?_, h.nodup, h.fresh, h.buildingNodup, h.buildingNew, h.outputNew, ?_⟩
    · have hor := h.order
      simp only [adoptedSegments, hpub] at hor
      simpa [adoptedSegments] using hor
    · intro bg hbg id hid
      obtain ⟨hin, hnot, hbuild⟩ := h.inputsAdopted bg hbg id hid
      exact ⟨hin, fun hmem => hnot (hpub ▸ mem_cons_of_mem _ hmem), hbuild⟩

theorem InOrder.published_not_segment {id : ℕ} (hid : id ∈ s.segments) : id ∉ s.published := by
  have hnd : (s.published.reverse ++ s.segments).Nodup := by
    have := nodup_reverse.mpr h.nodup
    rwa [h.order, adoptedSegments] at this
  intro hpub
  exact (nodup_append.mp hnd).2.2 id (mem_reverse.mpr hpub) id hid rfl

theorem InOrder.startBgCompact (hstep : s.startBgCompact = some s') : s'.InOrder := by
  unfold EngineState.startBgCompact at hstep
  split at hstep
  · cases hstep
  · cases hstep
    refine ⟨h.order, h.nodup, fun id hid => Nat.lt_succ_of_lt (h.fresh id hid), h.buildingNodup,
      fun id hid => ⟨Nat.lt_succ_of_lt (h.buildingNew id hid).1, (h.buildingNew id hid).2⟩, ?_, ?_⟩
    · rintro bg hbg
      cases hbg
      exact ⟨lt_succ_self _, fun hmem => lt_irrefl _ (h.fresh _ hmem), fun hmem => lt_irrefl _ (h.buildingNew _ hmem).1⟩
    · rintro bg hbg id hid
      cases hbg
      have hman : id ∈ s.manifest := h.mem_manifest.mpr (.inr hid)
      exact ⟨Nat.lt_succ_of_lt (h.fresh id hman), h.published_not_segment hid, fun hbuild => (h.buildingNew id hbuild).2 hman⟩

theorem InOrder.discarded : { s with bgCompact := none }.InOrder :=
  ⟨h.order, h.nodup, h.fresh, h.buildingNodup, h.buildingNew, fun _ hbg => (by cases hbg), fun _ hbg => (by cases hbg)⟩

/-- Over its own inputs a compaction leaves its output and nothing else. -/
theorem InOrder.applyBgCompactResult (honly : s.OnlyInputs)
    (hstep : s.applyBgCompactResult = some s') : s'.InOrder := by
  obtain ⟨bg, hbg, rfl⟩ := Option.map_eq_some_iff.mp hstep
  split
  · have hman : s.manifest.filter (!bg.inputs.contains ·) = [] := by
      simpa using honly bg hbg
    have hseg : s.segments.filter (!bg.inputs.contains ·) = [] := by
      simpa using fun id hid => honly bg hbg id (h.mem_manifest.mpr (.inr hid))
    have hpub : s.published = [] := by
      refine eq_nil_iff_forall_not_mem.mpr fun id hid => ?_
      exact (h.inputsAdopted bg hbg id (honly bg hbg id (h.mem_manifest.mpr (.inl hid)))).2.1 hid
    obtain ⟨hlt, -, hbuild⟩ := h.outputNew bg hbg
    refine ⟨?_, ?_, ?_, h.buildingNodup, ?_, fun _ hbg => (by cases hbg), fun _ hbg => (by cases hbg)⟩
    · simp only [adoptedSegments, hman, hseg, hpub]
      rfl
    · simp only [hman]
      exact nodup_singleton _
    · simp only [hman]
      exact fun id hid => mem_singleton.mp hid ▸ hlt
    · intro id hid
      refine ⟨(h.buildingNew id hid).1, ?_⟩
      simp only [hman, nil_append, mem_singleton]
      exact fun heq => hbuild (heq ▸ hid)
  · exact h.discarded

theorem InOrder.compact (hstep : s.compact = some s') : s'.InOrder := by
  unfold EngineState.compact at hstep
  split at hstep
  · cases hstep
  · rename_i hguard
    simp only [Bool.or_eq_true, not_or, Bool.not_eq_true, Option.isSome_eq_false_iff,
      Option.isNone_iff_eq_none, Bool.not_eq_false', List.isEmpty_iff, decide_eq_true_eq] at hguard
    obtain ⟨⟨⟨hbg, hbuild⟩, hpub⟩, -⟩ := hguard
    cases hstep
    have hman : s.manifest.filter (!s.segments.contains ·) = [] := by
      simpa using fun id hid => (h.mem_manifest.mp hid).resolve_left (by simp [hpub])
    refine ⟨?_, ?_, ?_, h.buildingNodup, ?_, ?_, ?_⟩
    · simp only [adoptedSegments, hman, hpub]
      rfl
    · simp only [hman]
      exact nodup_singleton _
    · simp only [hman]
      exact fun id hid => mem_singleton.mp hid ▸ lt_succ_self _
    · simp [hbuild]
    · simp [hbg]
    · simp [hbg]

end

/-- An undisturbed step keeps disk and memory in the same order. -/
theorem InOrder.step {e : Event} (h : s.InOrder) (hcalm : Undisturbed s e)
    (hstep : s.step e = some s') : s'.InOrder := by
  cases e with
  | enqueueFlush =>
    cases hstep
    exact h.enqueueFlush
  | publishFlush segId => exact h.publishFlush hstep
  | adoptFlush => exact h.adoptFlush hstep
  | startBgCompact => exact h.startBgCompact hstep
  | applyBgCompactResult => exact h.applyBgCompactResult hcalm hstep
  | discardBgCompact =>
    obtain ⟨bg, -, rfl⟩ := Option.map_eq_some_iff.mp hstep
    exact h.discarded
  | compact => exact h.compact hstep
  | reopen =>
    cases hstep
    exact inOrder_opened h.nodup h.fresh

theorem InOrder.keptByReopen (h : s.InOrder) : s.KeptByReopen where
  order := h.order
  reads content active immutable snapshotSeq := by
    have hor : s.reopen.segments = s.adoptedSegments := h.order
    rw [hor]
    exact ⟨fun _ => rfl, fun _ => rfl, fun _ _ => rfl⟩

/-- In every run in which background compactions are only applied over their own inputs,
reopening keeps the order of the segments and the value of every read, in every state
reached. -/
theorem reopen_keeps_order {manifest : List ℕ} {next : ℕ} {events : List Event}
    (hnodup : manifest.Nodup) (hfresh : ∀ id ∈ manifest, id < next)
    (hcalm : Admits step Undisturbed (opened manifest next) events)
    (hrun : run step (opened manifest next) events = some s) : s.KeptByReopen :=
  (run_invariant (fun _ _ _ h hcalm hstep => InOrder.step h hcalm hstep)
    (inOrder_opened hnodup hfresh) hcalm hrun).keptByReopen

/-- Two flushes, a background compaction of both, a third flush and a foreground
compaction. -/
private def calmEvents : List Event :=
  [.enqueueFlush, .publishFlush 1, .adoptFlush, .enqueueFlush, .publishFlush 2, .adoptFlush,
    .startBgCompact, .applyBgCompactResult, .enqueueFlush, .publishFlush 4, .adoptFlush, .compact]

theorem reopen_keeps_order_calm :
    ∃ s, run step (opened [] 1) calmEvents = some s ∧ s.segments = [5] ∧ s.KeptByReopen := by
  have hrun : run step (opened [] 1) calmEvents = some ⟨[5], [5], [], [], none, 6⟩ := by decide
  refine ⟨_, hrun, rfl, reopen_keeps_order nodup_nil (by simp) ?_ hrun⟩
  simp [calmEvents, Admits, Undisturbed, OnlyInputs, step, opened, EngineState.enqueueFlush,
    EngineState.publishFlush, EngineState.adoptFlush, EngineState.startBgCompact,
    EngineState.applyBgCompactResult]

private def oneNode (key : String) : Segment where
  nodes := AList.singleton 7 ⟨7, .single 1 Nat.one_ne_zero, key, ∅, 0, 0, 0, none, none, 0⟩
  edges := ∅
  deletedNodes := ∅
  deletedEdges := ∅

/-- A flush is published while a background compaction of the two segments before it is
running. Its node is read before the reopening, the compacted one after. -/
theorem flush_during_compaction_reordered :
    ¬∀ (manifest : List ℕ) (next : ℕ) (events : List Event) (s : EngineState), manifest.Nodup →
      (∀ id ∈ manifest, id < next) → run step (opened manifest next) events = some s → s.KeptByReopen := by
  intro h
  have hkept := h [1, 2] 3
    [.startBgCompact, .enqueueFlush, .publishFlush 4, .adoptFlush, .applyBgCompactResult] _
    (by decide) (by decide) rfl
  have hreads := (hkept.reads (fun id => if id = 4 then oneNode "new" else oneNode "old")
    MemtableState.empty [] 0).1 7
  have hkeys := congrArg (Option.map (·.key)) hreads
  exact absurd hkeys (by decide)

end EngineState
end OverGraph.SegmentOrder
