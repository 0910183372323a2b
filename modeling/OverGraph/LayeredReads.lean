import OverGraph.Sources

/-!
# Layered reads see the newest opinion

A source list stands for a stack of opinions about nodes and about edges. Every read
by identifier, alone or in a batch, returns what the newest opinion says; a read by
key or by triple returns the owner, as long as owners were unique whenever a layer was
the newest one.
-/

namespace OverGraph.Sources
open VersionedSlots Records Memtable MemtableState Segments LayeredWrites BatchLookup List SourceList NodeVisibilityState

namespace SourceList

/-- The memtables can be read at the snapshot through their heads. -/
structure WellFormed (sl : SourceList) : Prop where
  settled : ∀ m ∈ sl.active :: sl.immutable, SettledBy m sl.snapshotSeq
  tombstones : ∀ m ∈ sl.active :: sl.immutable, TombstonesAgree m

variable (sl : SourceList)

/-- What the layers say about nodes, newest first. -/
def nodeLayers : List (Opinion ℕ NodeRecord) := (sl.active :: sl.immutable).map nodeOpinion ++ sl.segments.map Segment.nodeOpinion

/-- What the layers say about edges, newest first. -/
def edgeLayers : List (Opinion ℕ EdgeRecord) := (sl.active :: sl.immutable).map edgeOpinion ++ sl.segments.map Segment.edgeOpinion

variable {sl}

theorem findSome?_congr {α β : Type*} {l : List α} {f g : α → Option β}
    (h : ∀ a ∈ l, f a = g a) : l.findSome? f = l.findSome? g := by
  induction l with
  | nil => rfl
  | cons a l ih => rw [findSome?_cons, findSome?_cons, h a (by simp), ih fun b hb => h b (by simp [hb])]

theorem WellFormed.findNode (h : sl.WellFormed) (id : ℕ) : sl.findNode id = visible sl.nodeLayers id := by
  unfold SourceList.findNode visible
  rw [nodeLayers, firstOpinion_append, firstOpinion, firstOpinion, findSome?_map, findSome?_map]
  dsimp only
  congr 2
  refine findSome?_congr fun m hm => ?_
  rw [(h.settled m hm).getNodeAt, (h.settled m hm).isNodeDeletedAt, currentNode_eq]
  have hagree := (h.tombstones m hm).nodes id
  rcases ho : m.nodeOpinion id with - | (- | n) <;> simp_all

theorem WellFormed.findEdge (h : sl.WellFormed) (id : ℕ) : sl.findEdge id = visible sl.edgeLayers id := by
  unfold SourceList.findEdge visible
  rw [edgeLayers, firstOpinion_append, firstOpinion, firstOpinion, findSome?_map, findSome?_map]
  dsimp only
  congr 2
  refine findSome?_congr fun m hm => ?_
  rw [(h.settled m hm).getEdgeAt, (h.settled m hm).isEdgeDeletedAt, currentEdge_eq]
  have hagree := (h.tombstones m hm).edges id
  rcases ho : m.edgeOpinion id with - | (- | e) <;> simp_all

/-- A batched lookup whose steps settle their layers returns what the stack shows. -/
theorem batchFind_eq {κ ρ : Type} {blank : ρ} {le : ℕ × κ → ℕ × κ → Bool}
    {memtableStep : MemtableState → Batch κ ρ → Batch κ ρ}
    {segmentStep : Segment → Batch κ ρ → Batch κ ρ} {keys : List κ}
    (inMemtable : MemtableState → Opinion κ ρ) (inSegment : Segment → Opinion κ ρ)
    (hmem : ∀ m ∈ sl.active :: sl.immutable, ∀ seen b, Settled keys blank seen b →
      Settled keys blank (below seen (inMemtable m)) (memtableStep m b))
    (hseg : ∀ seg ∈ sl.segments, ∀ seen b, Settled keys blank seen b →
      Settled keys blank (below seen (inSegment seg)) (segmentStep seg b)) :
    sl.batchFind blank le memtableStep segmentStep keys = keys.map fun k => shown blank
      (firstOpinion ((sl.active :: sl.immutable).map inMemtable ++ sl.segments.map inSegment) k) := by
  have hact := hmem sl.active (by simp) _ _ (settled_start keys blank)
  have himm := hact.walk fun m (hm : m ∈ sl.immutable) => hmem m (by simp [hm])
  unfold batchFind
  dsimp only
  generalize walk memtableStep sl.immutable _ = b at himm ⊢
  have hall : Settled keys blank (below (below (below (fun _ => none) (inMemtable sl.active))
      (firstOpinion (sl.immutable.map inMemtable))) (firstOpinion (sl.segments.map inSegment)))
      (if b.remaining.isEmpty then b
        else walk segmentStep sl.segments { b with remaining := b.remaining.mergeSort le }) := by
    split
    · rename_i hemp
      exact himm.exhausted (by simpa using hemp) _
    · exact (himm.reorder (mergeSort_perm _ _)).walk hseg
  have hres := hall.results
  rw [apply_ite Batch.results] at hres
  rw [hres]
  refine map_congr_left fun k _ => ?_
  simp [below, firstOpinion_append, Option.or_assoc]

theorem nodeLookupAt_eq {ν : Type} (f : NodeRecord → ν) {m : MemtableState} {s : ℕ}
    (h : SettledBy m s) : nodeLookupAt f s m = project (fun n => some (f n)) m.nodeOpinion := by
  funext id
  simp only [nodeLookupAt, h.nodeStateAt, project, nodeOpinion, Option.map_map]
  congr 1
  funext state
  cases state <;> rfl

theorem edgeLookupAt_eq {m : MemtableState} {s : ℕ} (h : SettledBy m s) : edgeLookupAt s m = project some m.edgeOpinion := by
  funext id
  simp only [edgeLookupAt, h.edgeStateAt, project, edgeOpinion, Option.map_map]
  congr 1
  funext state
  cases state <;> rfl

theorem shown_project {ν ρ : Type} (f : ν → ρ) (o : Option (Option ν)) :
    shown none (o.map (Option.map fun v => some (f v))) = o.join.map f := by
  rcases o with - | (- | v) <;> rfl

/-- A batch of projected node lookups, whichever way the segments are read. -/
theorem batchFind_nodes {ν : Type} (h : sl.WellFormed) (f : NodeRecord → ν)
    {segmentStep : Segment → Batch ℕ (Option ν) → Batch ℕ (Option ν)} {ids : List ℕ}
    (hseg : ∀ seg ∈ sl.segments, ∀ seen b, Settled ids none seen b → Settled ids none (below seen (storedOpinion seg.isNodeDeleted
        (fun id => (seg.getNode id).map f) none some)) (segmentStep seg b)) :
    sl.batchFind none byId (fun m => cachedResolve (nodeLookupAt f sl.snapshotSeq m)) segmentStep ids =
      ids.map fun id => (visible sl.nodeLayers id).map f := by
  have hsto : ∀ seg : Segment, storedOpinion seg.isNodeDeleted (fun id => (seg.getNode id).map f)
      none some = project (fun n => some (f n)) seg.nodeOpinion := by
    intro seg
    funext id
    cases hd : seg.isNodeDeleted id <;>
      simp [storedOpinion, project, Segment.nodeOpinion, hd, Function.comp_def]
  rw [batchFind_eq (fun m => project (fun n => some (f n)) m.nodeOpinion)
    (fun seg => project (fun n => some (f n)) seg.nodeOpinion)
    (fun m hm seen b hb => by
      rw [← nodeLookupAt_eq f (h.settled m hm)]
      exact hb.cachedResolve _)
    (fun seg hs seen b hb => hsto seg ▸ hseg seg hs seen b hb)]
  refine map_congr_left fun id _ => ?_
  rw [visible, ← shown_project, ← firstOpinion_project, nodeLayers, map_append, map_map, map_map]
  rfl

theorem WellFormed.findNodes (h : sl.WellFormed) (ids : List ℕ) : sl.findNodes ids = ids.map (visible sl.nodeLayers) := by
  refine (batchFind_nodes h (fun n => n) fun seg _ seen b hb => ?_).trans (by simp)
  simpa using hb.storedStep seg.isNodeDeleted seg.getNode

theorem WellFormed.findNodeProjectedFields (h : sl.WellFormed) (needs : NodeSelectedFieldNeeds)
    (ids : List ℕ) : sl.findNodeProjectedFields needs ids = ids.map fun id => (visible sl.nodeLayers id).map (selectedNodeFields needs) :=
  batchFind_nodes h (selectedNodeFields needs) fun _ _ _ _ hb => hb.compactStep _ _ _ _

theorem WellFormed.findEdges (h : sl.WellFormed) (ids : List ℕ) : sl.findEdges ids = ids.map (visible sl.edgeLayers) := by
  have hsto : ∀ seg : Segment, storedOpinion seg.isEdgeDeleted seg.getEdge none some = project some seg.edgeOpinion := by
    intro seg
    funext id
    cases hd : seg.isEdgeDeleted id <;>
      simp [storedOpinion, project, Segment.edgeOpinion, hd, Function.comp_def]
  rw [SourceList.findEdges, batchFind_eq (fun m => project some m.edgeOpinion)
    (fun seg => project some seg.edgeOpinion)
    (fun m hm seen b hb => by
      rw [← edgeLookupAt_eq (h.settled m hm)]
      exact hb.cachedResolve _)
    (fun seg _ seen b hb => hsto seg ▸ hb.storedStep _ _)]
  refine map_congr_left fun id _ => ?_
  have hshown := shown_project (fun e : EdgeRecord => e) (firstOpinion sl.edgeLayers id)
  rw [Option.map_id'] at hshown
  rw [visible, ← hshown, ← firstOpinion_project, edgeLayers, map_append, map_map, map_map]
  rfl

/-- What the visibility state of a node says about it. -/
def visibilityOpinion : Option (Option NodeRecord) → Option (Option NodeVisibilityState)
  | none => none
  | some none => some (some .deleted)
  | some (some node) => some (some (.live (visibilityMeta node)))

theorem firstOpinion_visibility (lays : List (Opinion ℕ NodeRecord)) (id : ℕ) :
    firstOpinion (lays.map fun lay id => visibilityOpinion (lay id)) id = visibilityOpinion (firstOpinion lays id) := by
  induction lays with
  | nil => rfl
  | cons lay lays ih =>
    simp only [map_cons, firstOpinion_cons, ih]
    rcases lay id with - | (- | n) <;> simp [visibilityOpinion]

theorem WellFormed.findNodeVisibilityMeta (h : sl.WellFormed) (ids : List ℕ) : sl.findNodeVisibilityMeta ids = ids.map fun id =>
      shown .missing (visibilityOpinion (firstOpinion sl.nodeLayers id)) := by
  rw [SourceList.findNodeVisibilityMeta, batchFind_eq
    (fun m id => visibilityOpinion (m.nodeOpinion id))
    (fun seg id => visibilityOpinion (seg.nodeOpinion id)) ?_ ?_]
  · refine map_congr_left fun id _ => ?_
    rw [← firstOpinion_visibility, nodeLayers, map_append, map_map, map_map]
    rfl
  · intro m hm seen b hb
    rw [batchGetNodeVisibilityMetaAt, stateResolve_eq]
    convert hb.resolve _ using 2
    funext id
    simp only [stateOpinion, nodeVisibilityStateAt, (h.settled m hm).nodeStateAt, (h.settled m hm).isNodeDeletedAt, nodeOpinion]
    have hagree := (h.tombstones m hm).nodes id
    simp only [nodeOpinion] at hagree
    rcases hc : headAt m.nodes id with - | (n | e)
    · simp_all [visibilityOpinion, isMissing]
    · simp [visibilityOpinion, isMissing, RecordState.live?]
    · simp [visibilityOpinion, isMissing, RecordState.live?]
  · intro seg _ seen b hb
    convert hb.compactStep seg.isNodeDeleted (fun id => (seg.getNode id).map visibilityMeta)
      (some .deleted) .live using 2
    funext id
    cases hd : seg.isNodeDeleted id <;> cases hg : seg.getNode id <;>
      simp [storedOpinion, Segment.nodeOpinion, visibilityOpinion, hd, hg]

section
variable {α β ι κ ν : Type*} {inMemtable : α → IndexedLayer ι κ ν}
  {inSegment : β → IndexedLayer ι κ ν} {carries : κ → ν → Prop}

/-- The layer claims nobody for the key and has no opinion about the identifier. -/
def Passive (lay : IndexedLayer ι κ ν) (k : κ) (id : ι) : Prop := lay.claim k = none ∧ lay.opinion id = none

/-- The first claim on an owned key names the owner, and every layer above it is passive. -/
inductive FirstClaim (inMemtable : α → IndexedLayer ι κ ν)
    (inSegment : β → IndexedLayer ι κ ν) (a : α) (as : List α) (bs : List β) (k : κ) (id : ι) : Prop
  | active (hclaim : (inMemtable a).claim k = some id)
  | immutable (ha : Passive (inMemtable a) k id) (newer older : List α) (m : α)
      (has : as = newer ++ m :: older) (hnewer : ∀ l ∈ newer, Passive (inMemtable l) k id)
      (hclaim : (inMemtable m).claim k = some id)
  | segment (hmem : ∀ l ∈ a :: as, Passive (inMemtable l) k id) (newer older : List β) (seg : β)
      (hbs : bs = newer ++ seg :: older) (hnewer : ∀ l ∈ newer, Passive (inSegment l) k id)
      (hclaim : (inSegment seg).claim k = some id)

theorem firstClaim_of_owns {a : α} {as : List α} {bs : List β} {k : κ} {id : ι}
    (hxt : ∀ lay ∈ (a :: as).map inMemtable ++ bs.map inSegment, lay.Exact carries)
    (hu : OnceUnique carries ((a :: as).map inMemtable ++ bs.map inSegment)) (hown : Owns carries
      (visible (((a :: as).map inMemtable ++ bs.map inSegment).map (·.opinion))) k id) :
    FirstClaim inMemtable inSegment a as bs k id := by
  obtain ⟨newer, lay, older, hlays, hclaim, hnew'⟩ := owner_claimed hxt hu hown
  rcases append_eq_append_iff.mp hlays with ⟨mid, hmid, hbs⟩ | ⟨mid, hmid, hbs⟩
  · -- the claim comes from a segment
    obtain ⟨newerSegs, rest, rfl, rfl, hrest⟩ := map_eq_append_iff.mp hbs
    obtain ⟨seg, older, rfl, rfl, -⟩ := map_eq_cons_iff.mp hrest
    refine .segment (fun l hl => hnew' _ ?_) newerSegs older seg rfl (fun l hl => hnew' _ ?_) hclaim
    · rw [hmid]
      exact mem_append_left _ (mem_map_of_mem hl)
    · rw [hmid]
      exact mem_append_right _ (mem_map_of_mem hl)
  · -- the claim comes from a memtable
    cases mid with
    | nil =>
      obtain ⟨seg, older, rfl, rfl, -⟩ := map_eq_cons_iff.mp hbs.symm
      refine .segment (fun l hl => hnew' _ ?_) [] older seg rfl (by simp) hclaim
      rw [append_nil] at hmid
      exact hmid ▸ mem_map_of_mem hl
    | cons l mid =>
      obtain ⟨rfl, -⟩ := cons_eq_cons.mp hbs
      cases newer with
      | nil =>
        obtain ⟨rfl, -⟩ := cons_eq_cons.mp hmid
        exact .active hclaim
      | cons l newer =>
        obtain ⟨rfl, has⟩ := cons_eq_cons.mp hmid
        obtain ⟨newerMems, rest, rfl, rfl, hrest⟩ := map_eq_append_iff.mp has
        obtain ⟨m, older, rfl, rfl, -⟩ := map_eq_cons_iff.mp hrest
        exact .immutable (hnew' _ (by simp)) newerMems older m rfl
          (fun l hl => hnew' _ (by simp [mem_map_of_mem hl])) hclaim

end

end SourceList
end OverGraph.Sources
