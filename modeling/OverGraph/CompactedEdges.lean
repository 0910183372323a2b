import OverGraph.Compaction
import OverGraph.LayeredStore
import OverGraph.Runs

/-!
# The edges after a compaction

A compaction judges an edge by its inputs alone: it drops the edge if any of them has a
tombstone for it or for one of its endpoints, or if an endpoint has no record in any of
them. Newer layers and endpoints without a record are not considered. The degrees of the
output are the sums of those of the inputs whatever edges were dropped. Along a run whose
compactions drop no visible edge, the degrees read are those of the edges.
-/

namespace OverGraph.CompactedEdges
open Option hiding map_map mem_map mem_map_of_mem
open Records LayeredWrites Memtable MemtableState Segments Sources Compaction List
open Runs Degrees LayeredStore Store

/-- A background compaction: the segments it read and the identifier of its output. -/
structure BgCompact (W : Type) where
  inputs : List (SegmentEntry W)
  output : ℕ

structure System (W : Type) where
  store : Store W
  nextSegmentId : ℕ
  bgCompact : Option (BgCompact W)

inductive Event where
  | write (ops : List WalOp)
  | freezeMemtable
  | adoptFlush
  | startBgCompact
  | applyBgCompactResult
  | discardBgCompact
  | compact

def Event.isCompaction : Event → Bool
  | .applyBgCompactResult | .compact => true
  | _ => false

namespace System
variable {W : Type} [AddCommGroup W] [DecidableEq W]

def compactEntries (inputs : List (SegmentEntry W)) (output : ℕ) : SegmentEntry W :=
  ⟨output, compactSegments (inputs.map (·.segment)) [], Overlay.foldSidecars (inputs.map (·.degreeDelta))⟩

/-- The segments a compaction does not read. -/
def beside (segs inputs : List (SegmentEntry W)) : List (SegmentEntry W) :=
  segs.filter fun entry => !(inputs.map (·.segmentId)).contains entry.segmentId

def adoptFlush (s : System W) : Option (System W) :=
  (s.store.adoptFlush s.nextSegmentId).map fun store => { s with store := store, nextSegmentId := s.nextSegmentId + 1 }

def startBgCompact (s : System W) : Option (System W) :=
  if s.bgCompact.isSome || s.store.segments.length < 2 then none
  else some { s with
    bgCompact := some ⟨s.store.segments, s.nextSegmentId⟩, nextSegmentId := s.nextSegmentId + 1 }

/-- The output goes below the segments that were flushed meanwhile. -/
def applyBgCompactResult (s : System W) : Option (System W) :=
  s.bgCompact.map fun bg =>
    { s with
      store := { s.store with
        segments := beside s.store.segments bg.inputs ++ [compactEntries bg.inputs bg.output] }
      bgCompact := none }

def discardBgCompact (s : System W) : Option (System W) := s.bgCompact.map fun _ => { s with bgCompact := none }

/-- A foreground compaction has flushed everything and waited for the background one. -/
def compact (s : System W) : Option (System W) :=
  if s.bgCompact.isSome || !s.store.immutable.isEmpty || !memtableIsEmpty s.store.active.memtable ||
      s.store.segments.length < 2 then none
  else some { s with
    store := { s.store with segments := [compactEntries s.store.segments s.nextSegmentId] }
    nextSegmentId := s.nextSegmentId + 1 }

def step (val : F32 → W) (s : System W) : Event → Option (System W)
  | .write ops => some { s with store := s.store.appendAndApplyNormalized val ops }
  | .freezeMemtable => some { s with store := s.store.freezeMemtable }
  | .adoptFlush => s.adoptFlush
  | .startBgCompact => s.startBgCompact
  | .applyBgCompactResult => s.applyBgCompactResult
  | .discardBgCompact => s.discardBgCompact
  | .compact => s.compact

omit [AddCommGroup W] [DecidableEq W] in
def empty : System W := ⟨Store.empty, 1, none⟩

/-- What the layers above the inputs say about edges. -/
def newerEdges (s : System W) (inputs : List (SegmentEntry W)) : List (Opinion ℕ EdgeRecord) :=
  ((s.store.active :: s.store.immutable).map fun epoch => epoch.memtable.edgeOpinion) ++
    (beside s.store.segments inputs).map fun entry => entry.segment.edgeOpinion

/-- Every edge that the newer layers do not mention and the inputs show is one the
compaction keeps. -/
def KeepsEdges (newer : List (Opinion ℕ EdgeRecord)) (inputs : List Segment) : Prop :=
  ∀ id edge, firstOpinion newer id = none → visible (inputs.map Segment.edgeOpinion) id = some edge → KeepsEdge inputs id edge

/-- The compaction an event performs, if it performs one, keeps the edges. -/
def Careful (s : System W) : Event → Prop
  | .applyBgCompactResult => ∀ bg, s.bgCompact = some bg → KeepsEdges (s.newerEdges bg.inputs) (bg.inputs.map (·.segment))
  | .compact => KeepsEdges (s.newerEdges s.store.segments) (s.store.segments.map (·.segment))
  | _ => True

/-- What is below the same layers is seen the same exactly when no visible edge is
dropped. -/
theorem visible_compacted_iff (newer : List (Opinion ℕ EdgeRecord)) (inputs : List Segment) :
    visible (newer ++ [(compactSegments inputs []).edgeOpinion]) =
      visible (newer ++ inputs.map Segment.edgeOpinion) ↔ KeepsEdges newer inputs := by
  constructor
  · intro h id edge hsil hlive
    have hid := congrFun h id
    simp only [visible, firstOpinion_of_silent hsil] at hid
    exact (visible_compactSegments_edge.mp (hid.trans hlive)).2
  · intro h
    funext id
    cases hnew' : firstOpinion newer id with
    | some opinion => simp only [visible, firstOpinion_append, hnew', some_or]
    | none =>
      simp only [visible, firstOpinion_of_silent hnew']
      refine ext fun edge => ?_
      change visible _ id = _ ↔ visible _ id = _
      rw [visible_compactSegments_edge]
      exact ⟨fun hout => hout.1, fun hin => ⟨hin, h id edge hnew' hin⟩⟩

section
variable {val : F32 → W} {store : Store W} {newer inputs : List (SegmentEntry W)} {output : ℕ}

/-- The store after a compaction of its oldest segments. -/
def replaced (store : Store W) (newer inputs : List (SegmentEntry W)) (output : ℕ) : Store W :=
  { store with segments := newer ++ [compactEntries inputs output] }

/-- What the memtables and the newer segments say about edges. -/
def above (store : Store W) (newer : List (SegmentEntry W)) : List (Opinion ℕ EdgeRecord) :=
  ((store.active :: store.immutable).map fun epoch => epoch.memtable.edgeOpinion) ++ newer.map fun entry => entry.segment.edgeOpinion

theorem edges_replaced_iff (hsegs : store.segments = newer ++ inputs) :
    (replaced store newer inputs output).edges = store.edges ↔ KeepsEdges (above store newer) (inputs.map (·.segment)) := by
  have hbef : store.sources.edgeLayers = above store newer ++ (inputs.map (·.segment)).map Segment.edgeOpinion := by
    simp [sources, SourceList.edgeLayers, above, hsegs, Function.comp_def]
  have haft : (replaced store newer inputs output).sources.edgeLayers =
      above store newer ++ [(compactSegments (inputs.map (·.segment)) []).edgeOpinion] := by
    simp [sources, SourceList.edgeLayers, above, replaced, compactEntries, Function.comp_def]
  rw [Store.edges, Store.edges, hbef, haft]
  exact visible_compacted_iff _ _

theorem degreeDeltaSum_replaced (hsegs : store.segments = newer ++ inputs) (n : ℕ) :
    (replaced store newer inputs output).degreeDeltaSum n = store.degreeDeltaSum n := by
  simp only [degreeDeltaSum, replaced, hsegs, map_append, sum_append, map_cons,
    map_nil, sum_cons, sum_nil, add_zero, compactEntries, Overlay.get_foldSidecars,
    map_map, Function.comp_def]

theorem findEdge_replaced (h : store.Sound val) (id : ℕ) :
    (replaced store newer inputs output).sources.findEdge id = (replaced store newer inputs output).edges id := by
  have hwell : (replaced store newer inputs output).sources.WellFormed := ⟨h.wellFormed.settled, h.wellFormed.tombstones⟩
  exact hwell.findEdge id

theorem sound_replaced (h : store.Sound val) (hsegs : store.segments = newer ++ inputs)
    (hkeeps : KeepsEdges (above store newer) (inputs.map (·.segment))) :
    (replaced store newer inputs output).Sound val :=
  h.of_same rfl rfl rfl ((edges_replaced_iff hsegs).mpr hkeeps) (degreeDeltaSum_replaced hsegs)

/-- Reads by identifier are kept and the degrees are counts exactly when no visible edge is
dropped. -/
theorem intact_replaced_iff (h : store.Sound val) (hsegs : store.segments = newer ++ inputs) :
    ((∀ id, (replaced store newer inputs output).sources.findEdge id = store.sources.findEdge id) ∧
      Counted val (replaced store newer inputs output).sources.findEdge
        (replaced store newer inputs output).degreeDeltaSum) ↔
      KeepsEdges (above store newer) (inputs.map (·.segment)) := by
  constructor
  · rintro ⟨hsame, -⟩
    apply (edges_replaced_iff hsegs).mp
    funext id
    rw [← findEdge_replaced h, hsame, h.findEdge]
  · intro hkeeps
    have hsd : (replaced store newer inputs output).Sound val := sound_replaced h hsegs hkeeps
    refine ⟨fun id => ?_, hsd.counted⟩
    rw [hsd.findEdge, h.findEdge, (edges_replaced_iff hsegs).mpr hkeeps]

end

structure Inv (val : F32 → W) (s : System W) : Prop where
  sound : s.store.Sound val
  nodup : (s.store.segments.map (·.segmentId)).Nodup
  fresh : ∀ entry ∈ s.store.segments, entry.segmentId < s.nextSegmentId
  running : ∀ bg, s.bgCompact = some bg → bg.inputs <:+ s.store.segments ∧
    bg.output < s.nextSegmentId ∧ ∀ entry ∈ s.store.segments, entry.segmentId ≠ bg.output

variable {val : F32 → W} {s s' : System W}

omit [AddCommGroup W] [DecidableEq W] in
theorem beside_eq {newer inputs : List (SegmentEntry W)}
    (h : ((newer ++ inputs).map (·.segmentId)).Nodup) : beside (newer ++ inputs) inputs = newer := by
  rw [map_append] at h
  have hdisj := (nodup_append.mp h).2.2
  have hnew' : ∀ entry ∈ newer,
      (!(inputs.map (·.segmentId)).contains entry.segmentId) = true := by
    intro entry hent
    simp only [Bool.not_eq_true', contains_eq_mem, decide_eq_false_iff_not]
    intro hin
    exact hdisj _ (mem_map_of_mem hent) _ hin rfl
  have hinputs : ∀ entry ∈ inputs,
      ¬(!(inputs.map (·.segmentId)).contains entry.segmentId) = true := by
    intro entry hent
    simpa using ⟨entry, hent, rfl⟩
  rw [beside, filter_append, filter_eq_self.mpr hnew', filter_eq_nil_iff.mpr hinputs, append_nil]

omit [DecidableEq W] in
theorem inv_empty : (empty : System W).Inv val where
  sound := sound_empty
  nodup := nodup_nil
  fresh := by simp [empty, Store.empty]
  running := by simp [empty]

omit [DecidableEq W] in
theorem Inv.withStore (h : s.Inv val) {store : Store W} (hsd : store.Sound val)
    (hsegs : store.segments = s.store.segments) : { s with store := store }.Inv val := by
  refine ⟨hsd, ?_, ?_, ?_⟩
  · simpa only [hsegs] using h.nodup
  · simpa only [hsegs] using h.fresh
  · simpa only [hsegs] using h.running

theorem Inv.adoptFlush (h : s.Inv val) (hstep : s.adoptFlush = some s') : s'.Inv val := by
  obtain ⟨store, hstore, rfl⟩ := map_eq_some_iff.mp hstep
  obtain ⟨epoch, -, rfl⟩ := map_eq_some_iff.mp hstore
  have hold : ∀ entry ∈ s.store.segments, entry.segmentId ≠ s.nextSegmentId := fun entry hent => Nat.ne_of_lt (h.fresh entry hent)
  refine ⟨(h.sound.adoptFlush hstore).1, ?_, ?_, ?_⟩
  · refine nodup_cons.mpr ⟨?_, h.nodup⟩
    intro hmem
    obtain ⟨entry, hent, heq⟩ := mem_map.mp hmem
    exact hold entry hent heq
  · intro entry hent
    obtain rfl | hent := mem_cons.mp hent
    · exact Nat.lt_succ_self _
    · exact Nat.lt_succ_of_lt (h.fresh entry hent)
  · intro bg hbg
    obtain ⟨hsuf, hlt, hne⟩ := h.running bg hbg
    refine ⟨hsuf.trans (suffix_cons _ _), Nat.lt_succ_of_lt hlt, ?_⟩
    intro entry hent
    obtain rfl | hent := mem_cons.mp hent
    · exact Nat.ne_of_gt hlt
    · exact hne entry hent

omit [DecidableEq W] in
theorem Inv.startBgCompact (h : s.Inv val) (hstep : s.startBgCompact = some s') : s'.Inv val := by
  rw [System.startBgCompact] at hstep
  split at hstep
  · cases hstep
  · cases hstep
    refine ⟨h.sound, h.nodup, fun entry he => Nat.lt_succ_of_lt (h.fresh entry he), ?_⟩
    rintro bg hbg
    cases hbg
    exact ⟨suffix_refl _, Nat.lt_succ_self _, fun entry he => Nat.ne_of_lt (h.fresh entry he)⟩

omit [DecidableEq W] in
theorem Inv.discarded (h : s.Inv val) : { s with bgCompact := none }.Inv val :=
  ⟨h.sound, h.nodup, h.fresh, fun _ hbg => by cases hbg⟩

theorem Inv.applyBgCompactResult (h : s.Inv val) (hcare : s.Careful .applyBgCompactResult)
    (hstep : s.applyBgCompactResult = some s') : s'.Inv val := by
  obtain ⟨bg, hbg, rfl⟩ := map_eq_some_iff.mp hstep
  obtain ⟨⟨newer, hsegs⟩, hlt, hne⟩ := h.running bg hbg
  have hbeside : beside s.store.segments bg.inputs = newer := by
    rw [← hsegs]
    exact beside_eq (hsegs ▸ h.nodup)
  have hkeeps := hcare bg hbg
  rw [newerEdges, hbeside] at hkeeps
  have hnew' : ∀ entry ∈ newer, entry ∈ s.store.segments := fun entry hent => hsegs ▸ mem_append_left _ hent
  simp only [hbeside]
  refine ⟨sound_replaced h.sound hsegs.symm hkeeps, ?_, ?_, fun _ hbg => by cases hbg⟩
  · simp only [map_append, map_cons, map_nil]
    refine nodup_append.mpr ⟨?_, nodup_singleton _, ?_⟩
    · have hnd := h.nodup
      rw [← hsegs, map_append] at hnd
      exact (nodup_append.mp hnd).1
    · intro a ha b hb
      obtain ⟨entry, hent, rfl⟩ := mem_map.mp ha
      obtain rfl := mem_singleton.mp hb
      exact hne entry (hnew' entry hent)
  · intro entry hent
    obtain hent | hent := mem_append.mp hent
    · exact h.fresh entry (hnew' entry hent)
    · obtain rfl := mem_singleton.mp hent
      exact hlt

theorem compact_eq_some (hstep : s.compact = some s') : s' = { s with
    store := replaced s.store [] s.store.segments s.nextSegmentId
    nextSegmentId := s.nextSegmentId + 1 } ∧ s.bgCompact = none := by
  rw [System.compact] at hstep
  split at hstep
  · cases hstep
  · rename_i hguard
    simp only [Bool.or_eq_true, not_or, not_isSome_iff_eq_none] at hguard
    cases hstep
    exact ⟨rfl, hguard.1.1.1⟩

omit [DecidableEq W] in
theorem newerEdges_all (h : s.Inv val) : s.newerEdges s.store.segments = above s.store [] := by
  have hbeside : beside s.store.segments s.store.segments = [] := @beside_eq W [] s.store.segments h.nodup
  rw [newerEdges, hbeside, above]

theorem Inv.compact (h : s.Inv val) (hcare : s.Careful .compact)
    (hstep : s.compact = some s') : s'.Inv val := by
  obtain ⟨rfl, hbg⟩ := compact_eq_some hstep
  have hkeeps := hcare
  rw [Careful, newerEdges_all h] at hkeeps
  refine ⟨sound_replaced h.sound rfl hkeeps, nodup_singleton _, ?_, ?_⟩
  · intro entry hent
    obtain rfl := mem_singleton.mp hent
    exact Nat.lt_succ_self _
  · intro bg hbg'
    rw [hbg] at hbg'
    cases hbg'

variable {e : Event}

theorem Inv.step (h : s.Inv val) (hcare : s.Careful e) (hstep : s.step val e = some s') : s'.Inv val := by
  cases e with
  | write ops =>
    cases hstep
    exact h.withStore (h.sound.write ops) rfl
  | freezeMemtable =>
    cases hstep
    exact h.withStore h.sound.freezeMemtable rfl
  | adoptFlush => exact h.adoptFlush hstep
  | startBgCompact => exact h.startBgCompact hstep
  | applyBgCompactResult => exact h.applyBgCompactResult hcare hstep
  | discardBgCompact =>
    obtain ⟨bg, -, rfl⟩ := map_eq_some_iff.mp hstep
    exact h.discarded
  | compact => exact h.compact hcare hstep

/-- A compaction that drops no visible edge replaces the oldest segments and shows the same edges. -/
theorem Inv.compacted (h : s.Inv val) (he : e.isCompaction = true) (hcare : s.Careful e)
    (hstep : s.step val e = some s') : ∃ newer inputs output, s.store.segments = newer ++ inputs ∧
      s'.store = replaced s.store newer inputs output ∧ s'.store.edges = s.store.edges := by
  cases e with
  | applyBgCompactResult =>
    obtain ⟨bg, hbg, rfl⟩ := map_eq_some_iff.mp hstep
    obtain ⟨⟨newer, hsegs⟩, -, -⟩ := h.running bg hbg
    have hbeside : beside s.store.segments bg.inputs = newer := by
      rw [← hsegs]
      exact beside_eq (hsegs ▸ h.nodup)
    have hkeeps := hcare bg hbg
    rw [newerEdges, hbeside] at hkeeps
    simp only [hbeside]
    exact ⟨newer, bg.inputs, bg.output, hsegs.symm, rfl, (edges_replaced_iff hsegs.symm).mpr hkeeps⟩
  | compact =>
    obtain ⟨rfl, -⟩ := compact_eq_some hstep
    rw [Careful, newerEdges_all h] at hcare
    exact ⟨[], s.store.segments, s.nextSegmentId, rfl, rfl, (edges_replaced_iff rfl).mpr hcare⟩
  | _ => cases he

/-- The edges found by identifier are those found before, and the degrees read are those of
the edges found. -/
def EdgesIntact (val : F32 → W) (s s' : System W) : Prop :=
  (∀ id, s'.store.sources.findEdge id = s.store.sources.findEdge id) ∧ Counted val s'.store.sources.findEdge s'.store.degreeDeltaSum

theorem Inv.edgesIntact_iff (h : s.Inv val) (he : e.isCompaction = true)
    (hstep : s.step val e = some s') : EdgesIntact val s s' ↔ s.Careful e := by
  cases e with
  | applyBgCompactResult =>
    obtain ⟨bg, hbg, rfl⟩ := map_eq_some_iff.mp hstep
    obtain ⟨⟨newer, hsegs⟩, -, -⟩ := h.running bg hbg
    have hbeside : beside s.store.segments bg.inputs = newer := by
      rw [← hsegs]
      exact beside_eq (hsegs ▸ h.nodup)
    have hcare : s.Careful .applyBgCompactResult ↔ KeepsEdges (above s.store newer) (bg.inputs.map (·.segment)) := by
      simp only [Careful, hbg, some.injEq, forall_eq', newerEdges, hbeside]
      rfl
    rw [hcare, EdgesIntact]
    simp only [hbeside]
    exact intact_replaced_iff h.sound hsegs.symm
  | compact =>
    obtain ⟨rfl, -⟩ := compact_eq_some hstep
    rw [Careful, newerEdges_all h]
    exact intact_replaced_iff h.sound rfl
  | _ => cases he

/-- In every run whose compactions dropped no visible edge, the degrees read are those of
the edges found, and a further compaction keeps both exactly if it drops none either. -/
theorem compaction_keeps_edges_iff {events : List Event}
    (hcareful : Admits (step val) Careful (empty : System W) events) (hrun : run (step val) empty events = some s) :
    Counted val s.store.sources.findEdge s.store.degreeDeltaSum ∧
      ∀ e s', e.isCompaction = true → s.step val e = some s' → (EdgesIntact val s s' ↔ s.Careful e) := by
  have hinv : s.Inv val := run_invariant (fun _ _ _ h hcareful hstep => Inv.step h hcareful hstep)
    inv_empty hcareful hrun
  exact ⟨hinv.sound.counted, fun e s' he hstep => hinv.edgesIntact_iff he hstep⟩

private def bareNode (id : ℕ) (key : String) : NodeRecord := ⟨id, .single 1 Nat.one_ne_zero, key, ∅, 0, 0, 0, none, none, 0⟩

private def bareEdge (id source target : ℕ) : EdgeRecord := ⟨id, source, target, 1, ∅, 0, 0, 0, 0, i64Max, 0⟩

/-- An edge and its endpoints are flushed, then a tombstone of another edge. -/
private def closedEvents : List Event :=
  [.write [.upsertNode (bareNode 1 "a"), .upsertNode (bareNode 2 "b"), .upsertEdge (bareEdge 1 1 2)],
    .freezeMemtable, .adoptFlush, .write [.deleteEdge 5 0], .freezeMemtable, .adoptFlush]

private def closedState : System ℤ := (run (step fun _ => (1 : ℤ)) empty closedEvents).get (by decide)

theorem closedState_careful : closedState.Careful .compact := by
  intro id edge _ hv
  have hkeys : (closedState.store.segments.map (·.segment)).flatMap (·.edges.keys) = [1] := by decide
  have hid := mem_keys_of_visible hv
  rw [hkeys, mem_singleton] at hid
  subst hid
  have hends : (visible ((closedState.store.segments.map (·.segment)).map Segment.edgeOpinion) 1).map
      (fun e => (e.source, e.target)) = some (1, 2) := by decide
  rw [hv] at hends
  obtain ⟨hsrc, htgt⟩ := Prod.mk.inj (some.inj hends)
  refine .inr ⟨by decide, ?_, ?_⟩
  · rw [hsrc]
    decide
  · rw [htgt]
    decide

theorem compaction_keeps_closed_edge : ∃ s', closedState.step (fun _ => (1 : ℤ)) .compact = some s' ∧
      EdgesIntact (fun _ => (1 : ℤ)) closedState s' := by
  have hrun : run (step fun _ => (1 : ℤ)) empty closedEvents = some closedState := by
    simp [closedState]
  have hcareful : Admits (step fun _ => (1 : ℤ)) Careful (empty : System ℤ) closedEvents := by
    simp [closedEvents, Admits, Careful]
  obtain ⟨s', hs'⟩ := isSome_iff_exists.mp
    (show (closedState.step (fun _ => (1 : ℤ)) .compact).isSome by decide)
  exact ⟨s', hs', ((compaction_keeps_edges_iff hcareful hrun).2 .compact s' rfl hs').mpr
    closedState_careful⟩

/-- An edge is written for endpoints that have no record. -/
private def openEvents : List Event :=
  [.write [.upsertEdge (bareEdge 1 1 2)], .freezeMemtable, .adoptFlush, .write [.deleteNode 9 0], .freezeMemtable, .adoptFlush]

private def openState : System ℤ := (run (step fun _ => (1 : ℤ)) empty openEvents).get (by decide)

private def openCompacted : System ℤ := (openState.step (fun _ => (1 : ℤ)) .compact).get (by decide)

/-- A compaction drops the edge, and the degrees still count it. -/
theorem edge_without_endpoints_lost : ¬∀ (events : List Event) (e : Event) (s s' : System ℤ), e.isCompaction = true →
      run (step fun _ => (1 : ℤ)) empty events = some s → s.step (fun _ => (1 : ℤ)) e = some s' →
      EdgesIntact (fun _ => (1 : ℤ)) s s' := by
  intro h
  have hintact := h openEvents .compact openState openCompacted rfl (by simp [openState])
    (by simp [openCompacted])
  have hids := congrArg (Option.map (·.id)) (hintact.1 1)
  exact absurd hids (by decide)

end System
end OverGraph.CompactedEdges
