import OverGraph.LayeredReads

/-!
# Layered lookups by key and by triple

A lookup by key takes the newest claim on the key and verifies it against the newest
version of the claimant; a lookup by triple takes the newest claim and only checks
that the claimant is not deleted further up. The first returns the owner whenever
owners were unique at each layer boundary; the second needs in addition that an edge
never changes its triple.
-/

namespace OverGraph.Sources.SourceList
open Option hiding any_eq_false any_eq_true map_map mem_map mem_map_of_mem
open VersionedSlots Records Memtable MemtableState Segments LayeredWrites BatchLookup List Function Batch SourceList
open GraphView

def keyLayer (m : MemtableState) : IndexedLayer ℕ LabelKey NodeRecord := ⟨m.nodeOpinion, fun k => (headAt m.nodeKeyIndex k).join⟩

def segmentKeyLayer (seg : Segment) : IndexedLayer ℕ LabelKey NodeRecord := ⟨seg.nodeOpinion, fun k => seg.nodeIdByKey k.1 k.2⟩

def tripleLayer (m : MemtableState) : IndexedLayer ℕ (ℕ × ℕ × ℕ) EdgeRecord := ⟨m.edgeOpinion, m.currentEdgeTripleId⟩

def segmentTripleLayer (seg : Segment) : IndexedLayer ℕ (ℕ × ℕ × ℕ) EdgeRecord := ⟨seg.edgeOpinion, seg.edgeIdByTriple⟩

variable (sl : SourceList)

def keyLayers : List (IndexedLayer ℕ LabelKey NodeRecord) := (sl.active :: sl.immutable).map keyLayer ++ sl.segments.map segmentKeyLayer

def tripleLayers : List (IndexedLayer ℕ (ℕ × ℕ × ℕ) EdgeRecord) :=
  (sl.active :: sl.immutable).map tripleLayer ++ sl.segments.map segmentTripleLayer

theorem keyLayers_opinion : sl.keyLayers.map (·.opinion) = sl.nodeLayers := by
  simp [keyLayers, nodeLayers, keyLayer, segmentKeyLayer, comp_def]

theorem tripleLayers_opinion : sl.tripleLayers.map (·.opinion) = sl.edgeLayers := by
  simp [tripleLayers, edgeLayers, tripleLayer, segmentTripleLayer, comp_def]

/-- The key indexes are exact in every layer and owners were unique whenever a layer was
the newest one. -/
structure KeysIndexed : Prop where
  wellFormed : sl.WellFormed
  exact : ∀ layer ∈ sl.keyLayers, layer.Exact HasKey
  onceUnique : OnceUnique HasKey sl.keyLayers
  ids : ∀ layer ∈ sl.nodeLayers, ∀ id node, layer id = some (some node) → node.id = id

variable {sl} {id : ℕ}

section
variable (h : sl.KeysIndexed)
include h

theorem KeysIndexed.unique : KeysUnique (visible sl.nodeLayers) := by
  have hu := h.onceUnique _ (suffix_refl _)
  rwa [keyLayers_opinion] at hu

theorem KeysIndexed.visible_id {node : NodeRecord}
    (hv : visible sl.nodeLayers id = some node) : node.id = id := by
  rw [visible, join_eq_some_iff, firstOpinion, findSome?_eq_some_iff] at hv
  obtain ⟨newer, lay, older, hlays, hlay, -⟩ := hv
  exact h.ids lay (by simp [hlays]) id node hlay

variable {m : MemtableState}

section
variable (hm : m ∈ sl.active :: sl.immutable)
include hm

theorem KeysIndexed.nodeByKeyAt (k : LabelKey) : m.nodeByKeyAt k.1 k.2 sl.snapshotSeq = ((keyLayer m).claim k).bind fun id => (m.nodeOpinion id).join := by
  rw [MemtableState.nodeByKeyAt, (h.wellFormed.settled m hm).nodeKeySlotAt]
  congr 1
  funext id
  rw [(h.wellFormed.settled m hm).getNodeAt, currentNode_eq]

theorem KeysIndexed.claimed {k : LabelKey} (hc : (keyLayer m).claim k = some id) :
    ∃ node, (m.nodeOpinion id).join = some node ∧ HasKey k node ∧ node.id = id := by
  have hmem : keyLayer m ∈ sl.keyLayers := mem_append_left _ (mem_map_of_mem hm)
  obtain ⟨node, hnode, hkey⟩ := (h.exact _ hmem k id).mp hc
  have hlay : m.nodeOpinion ∈ sl.nodeLayers := mem_append_left _ (mem_map_of_mem hm)
  exact ⟨node, hnode, hkey, h.ids _ hlay id node (join_eq_some_iff.mp hnode)⟩

theorem KeysIndexed.idOf_node (k : LabelKey) :
    (m.nodeByKeyAt k.1 k.2 sl.snapshotSeq).map (·.id) = (keyLayer m).claim k := by
  rw [h.nodeByKeyAt hm]
  cases hc : (keyLayer m).claim k with
  | none => rfl
  | some id =>
    obtain ⟨node, hnode, -, hid⟩ := h.claimed hm hc
    simp [hnode, hid]

theorem KeysIndexed.idOf_id (k : LabelKey) : m.nodeIdByKeyAt k.1 k.2 sl.snapshotSeq = (keyLayer m).claim k := by
  rw [MemtableState.nodeIdByKeyAt, (h.wellFormed.settled m hm).nodeKeySlotAt]
  change ((keyLayer m).claim k).bind _ = _
  cases hc : (keyLayer m).claim k with
  | none => rfl
  | some id =>
    obtain ⟨node, hnode, ⟨hl, hk⟩, -⟩ := h.claimed hm hc
    simp [(h.wellFormed.settled m hm).getNodeAt, currentNode_eq, hnode, hl, hk]

end

end

/-- The claim of an immutable memtable, withdrawn if its node is deleted further up. -/
private def immutableClaim (sl : SourceList) (epoch : MemtableState × ℕ) : Opinion LabelKey ℕ :=
  fun k => ((keyLayer epoch.1).claim k).map fun id => if sl.isNodeTombstonedAboveImmutable id epoch.2 then none else some id

private def segmentClaim (seg : Segment) : Opinion LabelKey ℕ := fun k => ((segmentKeyLayer seg).claim k).map some

/-- The claims below the active memtable, newest first. -/
private def claimsBelow (sl : SourceList) : List (Opinion LabelKey ℕ) :=
  sl.immutable.zipIdx.map (immutableClaim sl) ++ sl.segments.map segmentClaim

section
variable {keys : List LabelKey} {seen : Opinion LabelKey ℕ} {search : ClaimSearch LabelKey ℕ}

theorem claimed_foldl {σ : Type*} {step : ClaimSearch LabelKey ℕ → σ → ClaimSearch LabelKey ℕ}
    {claim : σ → Opinion LabelKey ℕ} {lays : List σ}
    (hstep : ∀ lay ∈ lays, ∀ seen search, Claimed keys seen search →
      Claimed keys (below seen (claim lay)) (step search lay)) (h : Claimed keys seen search) :
    Claimed keys (below seen (firstOpinion (lays.map claim))) (lays.foldl step search) := by
  induction lays generalizing seen search with
  | nil =>
    have hseen : below seen (firstOpinion []) = seen := by
      funext k
      simp [below]
    simpa [hseen] using h
  | cons lay lays ih =>
    have hnext := ih (fun l hl => hstep l (by simp [hl])) (hstep lay (by simp) seen search h)
    have hseen : below (below seen (claim lay)) (firstOpinion (lays.map claim)) = below seen (firstOpinion ((lay :: lays).map claim)) := by
      funext k
      simp [below, Option.or_assoc]
    rwa [hseen] at hnext

variable {idOf : MemtableState → LabelKey → Option ℕ}

theorem claimed_immutable {epoch : MemtableState × ℕ} (hid : ∀ k, idOf epoch.1 k = (keyLayer epoch.1).claim k)
    (h : Claimed keys seen search) :
    Claimed keys (below seen (immutableClaim sl epoch)) (sl.keySearchImmutable idOf search epoch) := by
  unfold keySearchImmutable
  split
  · rename_i hemp
    exact h.exhausted (by simpa using hemp) _
  · simp only [hid]
    exact h.claimStep _

theorem claimed_segment (seg : Segment) (h : Claimed keys seen search) :
    Claimed keys (below seen (segmentClaim seg)) (keySearchSegment keys search seg) := by
  unfold keySearchSegment
  split
  · rename_i hemp
    exact h.exhausted (by simpa using hemp) _
  · have hkey : ∀ lookup ∈ search.remaining, keys[lookup.1]? = some lookup.2 := fun lookup hl =>
      ((h.remaining _ _).mp hl).1
    convert h.claimStep (segmentClaim seg) using 1
    simp only [claimStep, Segment.resolveKeysToIds, ClaimSearch.mk.injEq, append_cancel_left_eq]
    refine ⟨filter_congr fun lookup hl => ?_, ?_⟩
    · -- a slot is found exactly when its own key is claimed
      rw [Bool.eq_iff_iff, Bool.not_eq_true', ← Bool.not_eq_true, contains_iff_mem]
      constructor
      · intro hfnd
        by_contra hclaim
        obtain ⟨id, hid⟩ : ∃ id, seg.nodeIdByKey lookup.2.1 lookup.2.2 = some id := by
          simpa [segmentClaim, segmentKeyLayer, ne_none_iff_exists'] using hclaim
        exact hfnd (mem_map.mpr ⟨(lookup.1, id), mem_filterMap.mpr ⟨lookup, hl, by simp [hid]⟩, rfl⟩)
      · intro hclaim hfnd
        obtain ⟨⟨i, id⟩, hmem, hi⟩ := mem_map.mp hfnd
        obtain ⟨other, hoth, hid⟩ := mem_filterMap.mp hmem
        obtain ⟨id', hid', hpair⟩ := map_eq_some_iff.mp hid
        obtain ⟨rfl, rfl⟩ := Prod.mk.inj hpair
        have hsame : other.2 = lookup.2 := by
          have hk := hkey other hoth
          rw [show other.1 = lookup.1 from hi, hkey lookup hl] at hk
          exact (some.inj hk).symm
        simp [segmentClaim, segmentKeyLayer, ← hsame, hid'] at hclaim
    · rw [filterMap_filterMap]
      refine filterMap_congr fun lookup hl => ?_
      cases hid : seg.nodeIdByKey lookup.2.1 lookup.2.2 <;>
        simp [segmentClaim, segmentKeyLayer, hid, hkey lookup hl]

theorem claimed_collect {start : ClaimSearch LabelKey ℕ}
    (hid : ∀ m ∈ sl.immutable, ∀ k, idOf m k = (keyLayer m).claim k) (h : Claimed keys seen start) :
    ∃ search, Claimed keys (below seen (firstOpinion (claimsBelow sl))) search ∧
      search.candidates = sl.collectCandidates idOf keys start := by
  have himm : Claimed keys (below seen (firstOpinion (sl.immutable.zipIdx.map (immutableClaim sl))))
      (sl.immutable.zipIdx.foldl (sl.keySearchImmutable idOf) start) :=
    claimed_foldl (fun epoch he _ _ hs => claimed_immutable (hid epoch.1 (fst_mem_of_mem_zipIdx he)) hs) h
  have hseg := claimed_foldl (fun seg (_ : seg ∈ sl.segments) _ _ hs => claimed_segment seg hs)
    (himm.reorder (mergeSort_perm _ byLabelKey))
  refine ⟨_, ?_, rfl⟩
  convert hseg using 1
  funext k
  simp [below, claimsBelow, firstOpinion_append, Option.or_assoc]

end

theorem firstOpinion_of_split {κ ν : Type*} {newer older : List (Opinion κ ν)}
    {lay : Opinion κ ν} {k : κ} {o : Option ν} (hnew' : ∀ l ∈ newer, l k = none)
    (hlay : lay k = some o) : firstOpinion (newer ++ lay :: older) k = some o := by
  rw [firstOpinion_of_silent (firstOpinion_eq_none_iff.mpr hnew'), firstOpinion_cons, hlay]
  rfl

variable {m : MemtableState}

theorem not_deleted_of_silent {s : ℕ} (hs : SettledBy m s)
    (ht : TombstonesAgree m) (h : m.nodeOpinion id = none) : m.isNodeDeletedAt id s = false := by
  rw [hs.isNodeDeletedAt, ← Bool.not_eq_true, ht.nodes, h]
  simp

variable {k : LabelKey} {id : ℕ}

theorem KeysIndexed.owner_found (h : sl.KeysIndexed) (hown : Owns HasKey (visible sl.nodeLayers) k id) :
    (keyLayer sl.active).claim k = some id ∨ ((keyLayer sl.active).claim k = none ∧ firstOpinion (claimsBelow sl) k = some (some id)) := by
  rw [← keyLayers_opinion] at hown
  cases firstClaim_of_owns h.exact h.onceUnique hown with
  | active hclaim => exact .inl hclaim
  | immutable ha newer older m has hnew' hclaim =>
    refine .inr ⟨ha.1, ?_⟩
    have hdead : sl.isNodeTombstonedAboveImmutable id newer.length = false := by
      rw [isNodeTombstonedAboveImmutable, has, take_left, Bool.or_eq_false_iff, any_eq_false]
      have hwf := h.wellFormed
      refine ⟨not_deleted_of_silent (hwf.settled _ (by simp)) (hwf.tombstones _ (by simp)) ha.2, fun l hl => ?_⟩
      have hmem : l ∈ sl.active :: sl.immutable := by simp [has, hl]
      simpa using not_deleted_of_silent (hwf.settled l hmem) (hwf.tombstones l hmem) (hnew' l hl).2
    rw [claimsBelow, has, zipIdx_append, zipIdx_cons, map_append, append_assoc, map_cons, cons_append]
    refine firstOpinion_of_split ?_ ?_
    · intro l hl
      obtain ⟨epoch, he, rfl⟩ := mem_map.mp hl
      simp [immutableClaim, (hnew' _ (fst_mem_of_mem_zipIdx he)).1]
    · simp [immutableClaim, hclaim, hdead]
  | segment hmem newer older seg hbs hnew' hclaim =>
    refine .inr ⟨(hmem _ (by simp)).1, ?_⟩
    rw [claimsBelow, hbs, map_append, ← append_assoc, map_cons]
    refine firstOpinion_of_split ?_ (by simp [segmentClaim, hclaim])
    intro l hl
    rcases mem_append.mp hl with hl | hl
    · obtain ⟨epoch, he, rfl⟩ := mem_map.mp hl
      have hm := fst_mem_of_mem_zipIdx he
      simp [immutableClaim, (hmem epoch.1 (by simp [hm])).1]
    · obtain ⟨seg', hs, rfl⟩ := mem_map.mp hl
      simp [segmentClaim, (hnew' _ hs).1]

theorem idxOf?_bind_map {α : Type} (l : List ℕ) (f : ℕ → Option α) (a : ℕ) :
    ((l.idxOf? a).bind fun p => (l.map f)[p]?.join) = if a ∈ l then f a else none := by
  induction l with
  | nil => rfl
  | cons b l ih =>
    by_cases hb : b = a
    · subst hb
      simp [idxOf?_cons]
    · simp only [idxOf?_cons, beq_iff_eq, hb, if_false, bind_map, comp_def,
        map_cons, getElem?_cons_succ, ih, mem_cons, Ne.symm hb, false_or]

/-- The claimant if its newest version still carries the key. -/
private def verify (nodes : ℕ → Option NodeRecord) (claim : LabelKey × ℕ) : Option NodeRecord :=
  (nodes claim.2).bind fun node => if node.labelIds.contains claim.1.1 && node.key == claim.1.2 then some node else none

theorem verify_eq_some_iff {nodes : ℕ → Option NodeRecord}
    {node : NodeRecord} : verify nodes (k, id) = some node ↔ nodes id = some node ∧ HasKey k node := by
  simp only [verify, bind_eq_some_iff, HasKey]
  constructor
  · rintro ⟨n, hn, hif⟩
    split at hif
    · rename_i hc
      cases hif
      exact ⟨hn, by simpa using hc⟩
    · cases hif
  · rintro ⟨hn, hk⟩
    exact ⟨node, hn, by simpa using hk⟩

variable {cs : List (ℕ × LabelKey × ℕ)}

theorem mem_candidateIds : id ∈ candidateIds cs ↔ ∃ c ∈ cs, c.2.2 = id := by simp [candidateIds]

/-- Once the claims of all layers are known, the verified claims are the owners. -/
theorem KeysIndexed.verified (h : sl.KeysIndexed) (hact : (keyLayer sl.active).claim k = none) :
    ((firstOpinion (claimsBelow sl) k).join.bind fun id => verify (visible sl.nodeLayers) (k, id)) =
      owner HasKey (visible sl.nodeLayers) k := by
  refine ext fun node => ?_
  rw [owner_eq_some_iff h.unique, bind_eq_some_iff]
  constructor
  · rintro ⟨id, -, hv⟩
    exact ⟨id, verify_eq_some_iff.mp hv⟩
  · rintro ⟨id, hnode, hkey⟩
    refine ⟨id, ?_, verify_eq_some_iff.mpr ⟨hnode, hkey⟩⟩
    rcases h.owner_found ⟨node, hnode, hkey⟩ with hc | ⟨-, hc⟩
    · rw [hact] at hc
      cases hc
    · rw [hc]
      rfl

theorem KeysIndexed.active_owner (h : sl.KeysIndexed) (hc : (keyLayer sl.active).claim k = some id) :
    ∃ node, (sl.active.nodeOpinion id).join = some node ∧ visible sl.nodeLayers id = some node ∧ HasKey k node ∧ node.id = id ∧
      owner HasKey (visible sl.nodeLayers) k = some node := by
  obtain ⟨node, hnode, hkey, hid⟩ := h.claimed (by simp) hc
  have hv : visible sl.nodeLayers id = some node := by
    rw [join_eq_some_iff] at hnode
    simp [visible, nodeLayers, hnode]
  exact ⟨node, hnode, hv, hkey, hid, (owner_eq_some_iff h.unique).mpr ⟨id, hv, hkey⟩⟩

theorem mem_visibleCandidates (h : sl.KeysIndexed) : id ∈ sl.visibleCandidates cs ↔
      ∃ node, visible sl.nodeLayers id = some node ∧ ∃ c ∈ cs, c.2.2 = id ∧ c.2.1.1 ∈ node.labelIds.labelIds := by
  have hids : ∀ c ∈ cs, c.2.2 ∈ candidateIds cs := fun c hc => mem_candidateIds.mpr ⟨c, hc, rfl⟩
  unfold visibleCandidates
  simp only [h.wellFormed.findNodeVisibilityMeta]
  rw [zip_map_self, filterMap_map, mem_filterMap]
  constructor
  · rintro ⟨i, hi, hif⟩
    simp only [comp_apply] at hif
    rcases ho : firstOpinion sl.nodeLayers i with - | (- | node)
    · simp [ho, visibilityOpinion, shown] at hif
    · simp [ho, visibilityOpinion, shown] at hif
    · simp only [ho, visibilityOpinion, shown, join_some, getD_some] at hif
      split at hif
      · rename_i hany
        cases hif
        obtain ⟨c, hc, hm'⟩ := any_eq_true.mp hany
        simp only [Bool.and_eq_true, beq_iff_eq, NodeLabelSet.contains_iff] at hm'
        exact ⟨node, by simp [visible, ho], c, hc, hm'⟩
      · cases hif
  · rintro ⟨node, hnode, c, hc, rfl, hl⟩
    refine ⟨c.2.2, hids c hc, ?_⟩
    rw [visible, join_eq_some_iff] at hnode
    simp only [comp_apply, hnode, visibilityOpinion, shown, join_some, getD_some]
    refine if_pos (any_eq_true.mpr ⟨c, hc, ?_⟩)
    simpa [visibilityMeta] using hl

variable {c : ℕ × LabelKey × ℕ}

section
variable (h : sl.KeysIndexed)
include h

/-- The check of the program is the check against the newest version. -/
theorem checkNode_eq (hc : c ∈ cs) :
    checkNode (sl.visibleCandidates cs) (sl.findNodes (sl.visibleCandidates cs)) c.2 = (verify (visible sl.nodeLayers) c.2).map some := by
  have hsp : checkNode (sl.visibleCandidates cs)
      (sl.findNodes (sl.visibleCandidates cs)) c.2 =
      (((sl.visibleCandidates cs).idxOf? c.2.2).bind fun p =>
        ((sl.visibleCandidates cs).map (visible sl.nodeLayers))[p]?.join).bind fun node =>
          if node.labelIds.contains c.2.1.1 && node.key == c.2.1.2 then some (some node) else none := by
    rw [checkNode, h.wellFormed.findNodes, bind_assoc]
  rw [hsp, idxOf?_bind_map]
  unfold verify
  split
  · cases visible sl.nodeLayers c.2.2 with
    | none => rfl
    | some node => simp only [bind_some]; split <;> rfl
  · rename_i hnot
    cases hv : visible sl.nodeLayers c.2.2 with
    | none => rfl
    | some node =>
      have hl : ¬c.2.1.1 ∈ node.labelIds.labelIds := fun hl => hnot ((mem_visibleCandidates h).mpr ⟨node, hv, c, hc, rfl, hl⟩)
      simp [NodeLabelSet.contains, hl]

theorem checkFields_eq (hc : c ∈ cs) : checkFields (candidateIds cs)
        (sl.findNodeProjectedFields { key := true } (candidateIds cs)) c.2 =
      (verify (visible sl.nodeLayers) c.2).map fun _ => some c.2.2 := by
  have hsp : checkFields (candidateIds cs)
      (sl.findNodeProjectedFields { key := true } (candidateIds cs)) c.2 =
      (((candidateIds cs).idxOf? c.2.2).bind fun p =>
        ((candidateIds cs).map fun id => (visible sl.nodeLayers id).map (selectedNodeFields { key := true }))[p]?.join).bind
        fun fields => if fields.info.labelIds.contains c.2.1.1 && fields.key == some c.2.1.2 then
          some (some c.2.2) else none := by
    rw [checkFields, h.wellFormed.findNodeProjectedFields, bind_assoc]
  rw [hsp, idxOf?_bind_map, if_pos (mem_candidateIds.mpr ⟨c, hc, rfl⟩)]
  unfold verify
  cases visible sl.nodeLayers c.2.2 with
  | none => rfl
  | some node =>
    simp only [map_some, bind_some, selectedNodeFields, if_true]
    by_cases hm : node.labelIds.contains c.2.1.1 = true <;> by_cases hk : node.key = c.2.1.2 <;>
      simp [hm, hk]

theorem KeysIndexed.findNodesByLabelKeys (keys : List LabelKey) :
    sl.findNodesByLabelKeys keys = keys.map (owner HasKey (visible sl.nodeLayers)) := by
  -- the slots the active memtable fills, and the lookups it leaves open
  let inActive : Opinion LabelKey (Option NodeRecord) := fun k =>
    (sl.active.nodeByKeyAt k.1 k.2 sl.snapshotSeq).map fun node => some (some node)
  have hb : Settled keys none (below (fun _ => none) inActive)
      (resolve inActive (start none keys)) := (settled_start keys none).resolve inActive
  have hst : Claimed keys (fun k => (inActive k).map fun _ => none)
      (⟨(resolve inActive (start none keys)).remaining, []⟩ : ClaimSearch LabelKey ℕ) := by
    refine ⟨fun i k => ?_, fun i k id => ?_⟩
    · rw [hb.remaining]
      simp [below]
    · cases inActive k <;> simp
  obtain ⟨search, hsrch, hcands⟩ := claimed_collect
    (fun m (hm : m ∈ sl.immutable) k => h.idOf_node (by simp [hm]) k) hst
  unfold SourceList.findNodesByLabelKeys
  dsimp only
  change storeAll _ (sl.collectCandidates _ keys
    ⟨(resolve inActive (Batch.start none keys)).remaining, []⟩)
    (resolve inActive (Batch.start none keys)).results = _
  rw [← hcands, storeAll_congr (g := fun claim => (verify (visible sl.nodeLayers) claim).map some)
    (fun c hc => checkNode_eq h hc), hb.results, hsrch.storeAll]
  refine map_congr_left fun k _ => ?_
  have hnode := h.nodeByKeyAt mem_cons_self k
  cases hc : (keyLayer sl.active).claim k with
  | some id =>
    obtain ⟨node, hop, -, -, -, howner⟩ := h.active_owner hc
    simp [inActive, hnode, hc, hop, below, shown, howner]
  | none =>
    have hin : inActive k = none := by simp [inActive, hnode, hc]
    rw [← h.verified hc]
    simp only [below, hin, map_none, none_or, shown, join_none, getD_none]
    cases (firstOpinion (claimsBelow sl) k).join with
    | none => rfl
    | some id =>
      simp only [bind_some]
      cases verify (visible sl.nodeLayers) (k, id) <;> rfl

/-- The identifier lookup is the projection of the node lookup. -/
theorem KeysIndexed.findNodeIdsByLabelKeys (keys : List LabelKey) :
    sl.findNodeIdsByLabelKeys keys = keys.map fun k => (owner HasKey (visible sl.nodeLayers) k).map (·.id) := by
  have hst := (claimed_start keys).claimStep fun k => ((keyLayer sl.active).claim k).map some
  obtain ⟨search, hsrch, hcands⟩ := claimed_collect
    (fun m (hm : m ∈ sl.immutable) k => h.idOf_id (by simp [hm]) k) hst
  have hact : (fun k => (sl.active.nodeIdByKeyAt k.1 k.2 sl.snapshotSeq).map some) =
      fun k : LabelKey => ((keyLayer sl.active).claim k).map some := by
    funext k
    rw [h.idOf_id mem_cons_self]
  unfold SourceList.findNodeIdsByLabelKeys
  dsimp only
  rw [hact, ← hcands, storeAll_congr (g := fun claim =>
    (verify (visible sl.nodeLayers) claim).map fun _ => some claim.2)
    (fun c hc => checkFields_eq h hc), ← map_const', hsrch.storeAll]
  refine map_congr_left fun k _ => ?_
  cases hc : (keyLayer sl.active).claim k with
  | some id =>
    obtain ⟨node, -, hv, hkey, hid, howner⟩ := h.active_owner hc
    simp [below, hc, verify_eq_some_iff.mpr ⟨hv, hkey⟩, howner, hid]
  | none =>
    rw [← h.verified hc]
    simp only [below, hc, map_none, none_or]
    cases (firstOpinion (claimsBelow sl) k).join with
    | none => rfl
    | some id =>
      cases hv : verify (visible sl.nodeLayers) (k, id) with
      | none => simp [hv]
      | some node => simp [hv, h.visible_id (verify_eq_some_iff.mp hv).1]

theorem KeysIndexed.findNodeByLabelKey (labelId : ℕ) (key : String) :
    sl.findNodeByLabelKey labelId key = owner HasKey (visible sl.nodeLayers) (labelId, key) := by
  rw [SourceList.findNodeByLabelKey, h.findNodesByLabelKeys]
  rfl

end

/-- The triple indexes are exact in every layer and owners were unique whenever a layer
was the newest one. -/
structure TriplesIndexed (sl : SourceList) : Prop where
  wellFormed : sl.WellFormed
  exact : ∀ layer ∈ sl.tripleLayers, layer.Exact HasTriple
  first : ∀ seg ∈ sl.segments, ∀ t, seg.firstIdByTriple t = seg.edgeIdByTriple t
  onceUnique : OnceUnique HasTriple sl.tripleLayers
  ids : ∀ layer ∈ sl.edgeLayers, ∀ id edge, layer id = some (some edge) → edge.id = id

/-- The versions of an edge agree on its triple. -/
def TriplesKept (sl : SourceList) : Prop :=
  ∀ lay ∈ sl.edgeLayers, ∀ layer' ∈ sl.edgeLayers, ∀ id edge edge',
    lay id = some (some edge) → layer' id = some (some edge') → edge.triple = edge'.triple

private def claimedEdge (lay : IndexedLayer ℕ (ℕ × ℕ × ℕ) EdgeRecord) (t : ℕ × ℕ × ℕ) :
    Option EdgeRecord := (lay.claim t).bind fun id => (lay.opinion id).join

/-- The claim of a layer, withdrawn if its edge is deleted further up. -/
private def tripleClaim (dead : ℕ → Bool) (lay : IndexedLayer ℕ (ℕ × ℕ × ℕ) EdgeRecord) : Opinion (ℕ × ℕ × ℕ) EdgeRecord :=
  fun t => (claimedEdge lay t).map fun edge => if dead edge.id then none else some edge

private def tripleClaims (sl : SourceList) : List (Opinion (ℕ × ℕ × ℕ) EdgeRecord) :=
  tripleClaim (fun _ => false) (tripleLayer sl.active) ::
    (sl.immutable.zipIdx.map (fun epoch => tripleClaim (sl.isEdgeTombstonedAboveImmutable · epoch.2) (tripleLayer epoch.1)) ++
    sl.segments.zipIdx.map fun seg => tripleClaim (sl.isEdgeTombstonedAboveSegment · seg.2) (segmentTripleLayer seg.1))

section
variable (h : sl.TriplesIndexed)
include h

theorem TriplesIndexed.unique : TriplesUnique (visible sl.edgeLayers) := by
  have hu := h.onceUnique _ (suffix_refl _)
  rwa [tripleLayers_opinion] at hu

theorem TriplesIndexed.edgeByTripleAt (hm : m ∈ sl.active :: sl.immutable) (t : ℕ × ℕ × ℕ) :
    m.edgeByTripleAt t sl.snapshotSeq = claimedEdge (tripleLayer m) t := by
  rw [MemtableState.edgeByTripleAt, (h.wellFormed.settled m hm).edgeTripleSlotAt]
  change (m.currentEdgeTripleId t).bind _ = (m.currentEdgeTripleId t).bind _
  congr 1
  funext id
  rw [(h.wellFormed.settled m hm).getEdgeAt, currentEdge_eq]
  rfl

end

theorem join_edgeOpinion (seg : Segment) (id : ℕ) : (seg.edgeOpinion id).join = seg.getEdge id := by
  unfold Segment.edgeOpinion Segment.getEdge
  cases seg.isEdgeDeleted id with
  | true => rfl
  | false => cases seg.edges.lookup id <;> simp

theorem edgeByTriple_eq (seg : Segment) (t : ℕ × ℕ × ℕ) : seg.edgeByTriple t = claimedEdge (segmentTripleLayer seg) t := by
  simp [Segment.edgeByTriple, claimedEdge, segmentTripleLayer, join_edgeOpinion]

theorem TriplesIndexed.findEdgeByTriple_claims (h : sl.TriplesIndexed) (t : ℕ × ℕ × ℕ) :
    sl.findEdgeByTriple t = (firstOpinion (tripleClaims sl) t).join := by
  unfold findEdgeByTriple tripleClaims
  rw [h.edgeByTripleAt mem_cons_self, firstOpinion_cons, firstOpinion_append, firstOpinion, firstOpinion, findSome?_map, findSome?_map]
  cases hc : claimedEdge (tripleLayer sl.active) t with
  | some edge => simp [tripleClaim, hc]
  | none =>
    simp only [tripleClaim, hc, map_none, none_or]
    congr 2
    · refine findSome?_congr fun epoch he => ?_
      have hm := fst_mem_of_mem_zipIdx he
      rw [h.edgeByTripleAt (mem_cons_of_mem _ hm)]
      rfl
    · refine findSome?_congr fun seg _ => ?_
      rw [edgeByTriple_eq]
      rfl

/-- What is left of a slot once deleted edges are blanked. -/
private def blankDead (dead : ℕ → Bool) (slot : Option EdgeRecord) : Option EdgeRecord :=
  slot.bind fun edge => if dead edge.id then none else some edge

variable (dead : ℕ → Bool)

/-- What a layer answers, once deleted edges are blanked. -/
private def withdrawn (claim : Opinion (ℕ × ℕ × ℕ) EdgeRecord) : Opinion (ℕ × ℕ × ℕ) EdgeRecord := fun t => (claim t).map (blankDead dead)

private def tripleAnswers (sl : SourceList) : List (Opinion (ℕ × ℕ × ℕ) EdgeRecord) :=
  (fun t => (sl.active.edgeByTripleAt t sl.snapshotSeq).map some) ::
    (sl.immutable.zipIdx.map (fun epoch => withdrawn (sl.isEdgeTombstonedAboveImmutable · epoch.2)
      fun t => (epoch.1.edgeByTripleAt t sl.snapshotSeq).map some) ++
    sl.segments.zipIdx.map fun seg => withdrawn (sl.isEdgeTombstonedAboveSegment · seg.2)
      fun t => (seg.1.firstIdByTriple t).map seg.1.getEdge)

theorem blankDead_idem (slot : Option EdgeRecord) : blankDead dead (blankDead dead slot) = blankDead dead slot := by
  cases slot with
  | none => rfl
  | some edge => cases hd : dead edge.id <;> simp [blankDead, hd]

theorem getElem?_clearSlot (ress : List (Option EdgeRecord)) (j i : ℕ) : (clearSlot dead ress j)[i]? =
      if i = j then ress[i]?.map (blankDead dead) else ress[i]? := by
  unfold clearSlot
  rcases hr : ress[j]? with - | (- | edge)
  · by_cases hij : i = j <;> simp [hij, hr]
  · by_cases hij : i = j <;> simp [hij, hr, blankDead]
  · obtain ⟨hlt, hget⟩ := List.getElem?_eq_some_iff.mp hr
    cases hd : dead edge.id <;> by_cases hij : i = j
    · simp [hij, hr, blankDead, hd]
    · simp [hij, hd]
    · simp [hij, blankDead, hd, hlt, hget]
    · simp [hij, hd, Ne.symm hij]

theorem length_clearSlot (ress : List (Option EdgeRecord)) (j : ℕ) : (clearSlot dead ress j).length = ress.length := by
  unfold clearSlot
  split
  · split <;> simp
  · rfl

section
variable (slots : List ℕ) (ress : List (Option EdgeRecord))

theorem getElem?_clearTombstoned (i : ℕ) :
    (clearTombstoned dead slots ress)[i]? = if i ∈ slots then ress[i]?.map (blankDead dead) else ress[i]? := by
  induction slots generalizing ress with
  | nil => rfl
  | cons j slots ih =>
    rw [clearTombstoned, foldl_cons, ← clearTombstoned, ih, getElem?_clearSlot]
    by_cases hij : i = j
    · subst hij
      by_cases hi : i ∈ slots <;> simp [hi, comp_def, blankDead_idem]
    · simp [hij]

theorem length_clearTombstoned : (clearTombstoned dead slots ress).length = ress.length := by
  induction slots generalizing ress with
  | nil => rfl
  | cons j slots ih => rw [clearTombstoned, foldl_cons, ← clearTombstoned, ih, length_clearSlot]

end

section
variable {triples : List (ℕ × ℕ × ℕ)} {seen : Opinion (ℕ × ℕ × ℕ) (Option EdgeRecord)}
  {b : Batch (ℕ × ℕ × ℕ) (Option EdgeRecord)}

variable (sl) in
theorem settled_tripleActive (m : MemtableState) (hb : Settled triples none seen b) :
    Settled triples none (below seen (project some fun t => (m.edgeByTripleAt t sl.snapshotSeq).map some))
      (batchEdgesByTriplesAt sl.snapshotSeq m b) := by
  have hop : (project some fun t => (m.edgeByTripleAt t sl.snapshotSeq).map some) =
      fun t => (m.edgeByTripleAt t sl.snapshotSeq).map fun e => some (some e) := by
    funext t
    simp [project, comp_def]
  rw [batchEdgesByTriplesAt, hop]
  exact hb.cachedResolve _

section
variable (claim : Opinion (ℕ × ℕ × ℕ) EdgeRecord) (t : ℕ × ℕ × ℕ)

theorem shown_withdrawn :
    shown none (project some (withdrawn dead claim) t) = blankDead dead (claim t).join := by
  rcases hc : claim t with - | (- | edge)
  · simp [project, withdrawn, shown, blankDead, hc]
  · simp [project, withdrawn, shown, blankDead, hc]
  · cases hd : dead edge.id <;> simp [project, withdrawn, shown, blankDead, hc, hd]

theorem project_withdrawn_eq_none :
    project some (withdrawn dead claim) t = none ↔ claim t = none := by
  simp [project, withdrawn]

end

variable (sl) in
theorem settled_tripleImmutable (epoch : MemtableState × ℕ) (hb : Settled triples none seen b) :
    Settled triples none (below seen (project some (withdrawn (sl.isEdgeTombstonedAboveImmutable · epoch.2)
        fun t => (epoch.1.edgeByTripleAt t sl.snapshotSeq).map some))) (sl.tripleStepImmutable epoch b) := by
  have hnext := settled_tripleActive sl epoch.1 hb
  have hlen := length_clearTombstoned (sl.isEdgeTombstonedAboveImmutable · epoch.2)
    (b.remaining.map Prod.fst) (batchEdgesByTriplesAt sl.snapshotSeq epoch.1 b).results
  refine hb.next _ ?_ ?_ ?_ ?_
  · rw [tripleStepImmutable, hlen, hnext.results, hb.results, length_map, length_map]
  · intro i t hi hs
    have hmem : i ∈ b.remaining.map Prod.fst := mem_map.mpr ⟨(i, t), (hb.remaining i t).mpr ⟨hi, hs⟩, rfl⟩
    rw [tripleStepImmutable, getElem?_clearTombstoned, if_pos hmem, hnext.slot hi, shown_withdrawn, map_some, below, hs]
    cases hc : epoch.1.edgeByTripleAt t sl.snapshotSeq <;> simp [project, hc, shown]
  · intro i t hi hs
    have hmem : i ∉ b.remaining.map Prod.fst := by
      intro hmem
      obtain ⟨⟨j, t'⟩, hj, rfl⟩ := mem_map.mp hmem
      obtain ⟨hi', hs'⟩ := (hb.remaining j t').mp hj
      exact hs (some.inj (hi.symm.trans hi') ▸ hs')
    rw [tripleStepImmutable, getElem?_clearTombstoned, if_neg hmem, hnext.slot hi, hb.slot hi]
    obtain ⟨o, ho⟩ := ne_none_iff_exists'.mp hs
    simp [below, ho]
  · intro i t
    rw [project_withdrawn_eq_none, tripleStepImmutable, hnext.remaining, hb.remaining]
    simp [below, project, and_assoc]

variable {seg : Segment}

theorem mem_found {i : ℕ} : i ∈ (resolveTriplesBatch seg b).2 ↔ ∃ t id, (i, t) ∈ b.remaining ∧ seg.firstIdByTriple t = some id := by
  simp only [resolveTriplesBatch, mem_map, mem_filterMap, map_eq_some_iff]
  constructor
  · rintro ⟨entry, ⟨⟨j, t⟩, hmem, id, hid, rfl⟩, rfl⟩
    exact ⟨t, id, hmem, hid⟩
  · rintro ⟨t, id, hmem, hid⟩
    exact ⟨(i, id), ⟨(i, t), hmem, id, hid, rfl⟩, rfl⟩

/-- A slot that is found holds what the segment has under the identifier, and stays blank where that is deleted. -/
theorem getElem?_resolveTriples (hb : Settled triples none seen b) (i : ℕ) : (resolveTriplesBatch seg b).1[i]? =
      if i ∈ (resolveTriplesBatch seg b).2 then
        triples[i]?.map fun t => (seg.firstIdByTriple t).bind seg.getEdge
      else b.results[i]? := by
  have hlk : ∀ j id, (j, id) ∈ ((b.remaining.filterMap fun lookup =>
      (seg.firstIdByTriple lookup.2).map fun id => (lookup.1, id)).filter
        fun entry => !seg.isEdgeDeleted entry.2).mergeSort byId ↔
      (∃ t, (j, t) ∈ b.remaining ∧ seg.firstIdByTriple t = some id) ∧ seg.isEdgeDeleted id = false := by
    intro j id
    rw [(mergeSort_perm _ _).mem_iff, mem_filter, mem_filterMap]
    refine and_congr ⟨?_, ?_⟩ (by simp)
    · rintro ⟨⟨j', t⟩, hmem, hid⟩
      obtain ⟨id', hid', heq⟩ := map_eq_some_iff.mp hid
      obtain ⟨rfl, rfl⟩ := Prod.mk.inj heq
      exact ⟨t, hmem, hid'⟩
    · rintro ⟨t, hmem, hid⟩
      exact ⟨(j, t), hmem, by simp [hid]⟩
  have howned : SlotsOwned (((b.remaining.filterMap fun lookup =>
      (seg.firstIdByTriple lookup.2).map fun id => (lookup.1, id)).filter
        fun entry => !seg.isEdgeDeleted entry.2).mergeSort byId) := by
    intro j id id' hid hid'
    obtain ⟨⟨t, ht, hid⟩, -⟩ := (hlk j id).mp hid
    obtain ⟨⟨t', ht', hid'⟩, -⟩ := (hlk j id').mp hid'
    rw [hb.slotsOwned j t t' ht ht', hid'] at hid
    exact (some.inj hid).symm
  have hsil : (∀ id, (∃ t, (i, t) ∈ b.remaining ∧ seg.firstIdByTriple t = some id) → seg.getEdge id = none) →
      (resolveTriplesBatch seg b).1[i]? = b.results[i]? := by
    intro hnone
    refine getElem?_storeAll_of_silent (fun id => (seg.getEdge id).map some) (fun id hid => ?_) b.results
    rw [hnone id ((hlk i id).mp hid).1, map_none]
  split
  · rename_i hfnd
    obtain ⟨t, id, hmem, hid⟩ := mem_found.mp hfnd
    rw [((hb.remaining i t).mp hmem).1, map_some, hid, bind_some]
    cases hget : seg.getEdge id with
    | some edge =>
      have hlive : seg.isEdgeDeleted id = false := by
        cases hd : seg.isEdgeDeleted id with
        | false => rfl
        | true => simp [Segment.getEdge, hd] at hget
      exact getElem?_storeAll_of_mem (fun id => (seg.getEdge id).map some) howned
        ((hlk i id).mpr ⟨⟨t, hmem, hid⟩, hlive⟩) (by simp [hget]) (hb.slot_lt hmem)
    | none =>
      rw [hsil, hb.slot_blank hmem]
      rintro id' ⟨t', hmem', hid'⟩
      rw [hb.slotsOwned i t' t hmem' hmem, hid] at hid'
      exact some.inj hid' ▸ hget
  · rename_i hfnd
    refine hsil fun id hid => absurd ?_ hfnd
    obtain ⟨t, hmem, hid⟩ := hid
    exact mem_found.mpr ⟨t, id, hmem, hid⟩

theorem settled_tripleSegment (seg : Segment × ℕ) (hb : Settled triples none seen b) : Settled triples none
      (below seen (project some (withdrawn (sl.isEdgeTombstonedAboveSegment · seg.2)
        fun t => (seg.1.firstIdByTriple t).map seg.1.getEdge)))
      (sl.tripleStepSegment seg b) := by
  have hfnd : ∀ i t, (i, t) ∈ b.remaining → (i ∈ (resolveTriplesBatch seg.1 b).2 ↔ seg.1.firstIdByTriple t ≠ none) := by
    intro i t hmem
    rw [mem_found, ne_none_iff_exists']
    constructor
    · rintro ⟨t', id, hmem', hid⟩
      exact ⟨id, hb.slotsOwned i t t' hmem hmem' ▸ hid⟩
    · rintro ⟨id, hid⟩
      exact ⟨t, id, hmem, hid⟩
  refine hb.next _ ?_ ?_ ?_ ?_
  · simp [tripleStepSegment, length_clearTombstoned, resolveTriplesBatch]
  · intro i t hi hs
    have hmem := (hb.remaining i t).mpr ⟨hi, hs⟩
    simp only [tripleStepSegment]
    rw [getElem?_clearTombstoned, getElem?_resolveTriples hb, shown_withdrawn]
    split
    · cases hid : seg.1.firstIdByTriple t <;> simp [hi, hid]
    · rename_i hnot
      have hnone : seg.1.firstIdByTriple t = none := by simpa [hfnd i t hmem] using hnot
      rw [hb.slot_blank hmem, hnone]
      rfl
  · intro i t hi hs
    have hnot : i ∉ (resolveTriplesBatch seg.1 b).2 := by
      rw [mem_found]
      rintro ⟨t', id, hmem, -⟩
      obtain ⟨hi', hs'⟩ := (hb.remaining i t').mp hmem
      exact hs (some.inj (hi.symm.trans hi') ▸ hs')
    simp only [tripleStepSegment]
    rw [getElem?_clearTombstoned, if_neg hnot, getElem?_resolveTriples hb, if_neg hnot]
  · intro i t
    rw [project_withdrawn_eq_none, map_eq_none_iff]
    simp only [tripleStepSegment, mem_filter, Bool.not_eq_true', ← Bool.not_eq_true, contains_iff_mem]
    refine and_congr_right fun hmem => ?_
    rw [hfnd i t hmem, not_ne_iff]

section
variable (sl : SourceList) (triples : List (ℕ × ℕ × ℕ))

/-- Every slot of a batch of triple lookups holds what the layers say about its own triple. -/
theorem findEdgesByTriples_layers :
    sl.findEdgesByTriples triples = triples.map fun t => (firstOpinion (tripleAnswers sl) t).join := by
  have hact := settled_tripleActive sl sl.active (settled_start triples none)
  have himm := hact.walk fun epoch (_ : epoch ∈ sl.immutable.zipIdx) _ _ hb => settled_tripleImmutable sl epoch hb
  unfold findEdgesByTriples
  dsimp only
  generalize walk sl.tripleStepImmutable sl.immutable.zipIdx _ = b at himm ⊢
  have hall : Settled triples none (below (below (below (fun _ => none)
      (project some fun t => (sl.active.edgeByTripleAt t sl.snapshotSeq).map some))
      (firstOpinion (sl.immutable.zipIdx.map fun epoch => project some
        (withdrawn (sl.isEdgeTombstonedAboveImmutable · epoch.2)
          fun t => (epoch.1.edgeByTripleAt t sl.snapshotSeq).map some))))
      (firstOpinion (sl.segments.zipIdx.map fun seg => project some
        (withdrawn (sl.isEdgeTombstonedAboveSegment · seg.2)
          fun t => (seg.1.firstIdByTriple t).map seg.1.getEdge))))
      (if b.remaining.isEmpty then b
        else walk sl.tripleStepSegment sl.segments.zipIdx
          { b with remaining := b.remaining.mergeSort byTriple }) := by
    split
    · rename_i hemp
      exact himm.exhausted (by simpa using hemp) _
    · exact (himm.reorder (mergeSort_perm _ _)).walk fun seg _ _ _ hb => settled_tripleSegment seg hb
  have hres := hall.results
  rw [apply_ite results] at hres
  rw [hres]
  refine map_congr_left fun t _ => ?_
  have hshown := shown_project (fun e : EdgeRecord => e) (firstOpinion (tripleAnswers sl) t)
  rw [Option.map_id'] at hshown
  rw [← hshown, ← firstOpinion_project]
  congr 1
  simp only [tripleAnswers, map_cons, map_append, map_map, firstOpinion_cons, firstOpinion_append, below, none_or, Option.or_assoc]
  rfl

/-- The answer to one lookup of a batch does not depend on the others. -/
theorem findEdgesByTriples_each :
    sl.findEdgesByTriples triples = triples.map fun t => (sl.findEdgesByTriples [t]).head?.join := by
  simp [findEdgesByTriples_layers]

end

/-- Where the indexes are exact the layers say what they claim. -/
theorem TriplesIndexed.tripleAnswers_eq (h : sl.TriplesIndexed) : tripleAnswers sl = tripleClaims sl := by
  have hmap : ∀ dead (claimed : ℕ × ℕ × ℕ → Option EdgeRecord), (withdrawn dead fun t => (claimed t).map some) =
      fun t => (claimed t).map fun edge : EdgeRecord => if dead edge.id then none else some edge := by
    intro dead claimed
    funext t
    simp [withdrawn, blankDead, comp_def]
  unfold tripleAnswers tripleClaims
  congr 1
  · funext t
    simp [h.edgeByTripleAt mem_cons_self, tripleClaim]
  · congr 1
    · refine map_congr_left fun epoch he => ?_
      have hm := mem_cons_of_mem sl.active (fst_mem_of_mem_zipIdx he)
      simp only [hmap, h.edgeByTripleAt hm]
      rfl
    · refine map_congr_left fun seg hs => ?_
      have hm := fst_mem_of_mem_zipIdx hs
      have hxt := h.exact _ (mem_append_right _ (mem_map_of_mem hm))
      have hclaim : (fun t => (seg.1.firstIdByTriple t).map seg.1.getEdge) =
          fun t => (claimedEdge (segmentTripleLayer seg.1) t).map some := by
        funext t
        rw [h.first _ hm]
        cases hid : seg.1.edgeIdByTriple t with
        | none => simp [← edgeByTriple_eq, Segment.edgeByTriple, hid]
        | some id =>
          obtain ⟨edge, hedge, -⟩ := (hxt t id).mp hid
          have hget : seg.1.getEdge id = some edge := by rw [← join_edgeOpinion]; exact hedge
          simp [← edgeByTriple_eq, Segment.edgeByTriple, hid, hget]
      rw [hclaim, hmap]
      rfl

theorem TriplesIndexed.findEdgesByTriples_claims (h : sl.TriplesIndexed) (triples : List (ℕ × ℕ × ℕ)) :
    sl.findEdgesByTriples triples = triples.map fun t => (firstOpinion (tripleClaims sl) t).join := by
  rw [findEdgesByTriples_layers, h.tripleAnswers_eq]

end

theorem zipIdx_split {α : Type*} {l : List α} {newer older : List (α × ℕ)} {a : α × ℕ}
    (h : l.zipIdx = newer ++ a :: older) :
    l = newer.map Prod.fst ++ a.1 :: older.map Prod.fst ∧ a.2 = newer.length := by
  constructor
  · have hfst := congrArg (List.map Prod.fst) h
    simpa using hfst
  · have hget : l.zipIdx[newer.length]? = some a := by simp [h]
    rw [getElem?_zipIdx, map_eq_some_iff] at hget
    obtain ⟨x, -, rfl⟩ := hget
    simp

variable {edge : EdgeRecord}

theorem tripleClaim_eq_some {dead : ℕ → Bool}
    {lay : IndexedLayer ℕ (ℕ × ℕ × ℕ) EdgeRecord} {t : ℕ × ℕ × ℕ}
    (hc : tripleClaim dead lay t = some (some edge)) : claimedEdge lay t = some edge ∧ dead edge.id = false := by
  obtain ⟨e, he, hif⟩ := map_eq_some_iff.mp hc
  cases hd : dead e.id with
  | true => simp [hd] at hif
  | false =>
    obtain rfl : e = edge := by simpa [hd] using hif
    exact ⟨he, hd⟩

section
variable (h : sl.TriplesIndexed)
include h

variable {t : ℕ × ℕ × ℕ}

/-- A claim that nothing above contests is the owner's: whatever a layer above knew of
the edge would be a deletion or a claim on the same triple. -/
theorem TriplesIndexed.owns_of_uncontested (hkept : sl.TriplesKept)
    (above : List (IndexedLayer ℕ (ℕ × ℕ × ℕ) EdgeRecord)) (lay : IndexedLayer ℕ (ℕ × ℕ × ℕ) EdgeRecord)
    (below : List (IndexedLayer ℕ (ℕ × ℕ × ℕ) EdgeRecord)) (hlays : sl.tripleLayers = above ++ lay :: below) (hedge : claimedEdge lay t = some edge) (hnone : ∀ l ∈ above, claimedEdge l t = none)
    (hlive : ∀ l ∈ above, l.opinion edge.id ≠ some none) :
    ∃ id, visible sl.edgeLayers id = some edge ∧ HasTriple t edge := by
  have hmem : lay ∈ sl.tripleLayers := by simp [hlays]
  have hopinions : ∀ l ∈ sl.tripleLayers, l.opinion ∈ sl.edgeLayers := fun l hl => by
    rw [← tripleLayers_opinion]
    exact mem_map_of_mem hl
  obtain ⟨id, hclaim, hop⟩ := bind_eq_some_iff.mp hedge
  obtain ⟨e, he, ht⟩ := (h.exact lay hmem t id).mp hclaim
  obtain rfl : e = edge := some.inj (he.symm.trans hop)
  rw [join_eq_some_iff] at hop
  have hid := h.ids _ (hopinions lay hmem) id e hop
  have hsil : ∀ l ∈ above, l.opinion id = none := by
    intro l hl
    have hl' : l ∈ sl.tripleLayers := by simp [hlays, hl]
    rcases ho : l.opinion id with - | (- | e')
    · rfl
    · exact absurd (hid ▸ ho) (hlive l hl)
    · have ht' : HasTriple t e' :=
        (hkept _ (hopinions l hl') _ (hopinions lay hmem) id e' e ho hop).trans ht
      have hc := (h.exact l hl' t id).mpr ⟨e', by simp [ho], ht'⟩
      have hn := hnone l hl
      simp [claimedEdge, hc, ho] at hn
  refine ⟨id, ?_, ht⟩
  have hfst : firstOpinion ((above ++ lay :: below).map (·.opinion)) id = some (some e) := by
    rw [map_append, map_cons]
    refine firstOpinion_of_split (fun o ho => ?_) hop
    obtain ⟨l, hl, rfl⟩ := mem_map.mp ho
    exact hsil l hl
  rw [visible, ← tripleLayers_opinion, hlays, hfst]
  rfl

theorem TriplesIndexed.deleted_of_tombstone (hm : m ∈ sl.active :: sl.immutable) (ho : m.edgeOpinion id = some none) :
    m.isEdgeDeletedAt id sl.snapshotSeq = true := by
  rw [(h.wellFormed.settled m hm).isEdgeDeletedAt, (h.wellFormed.tombstones m hm).edges, ho]

theorem TriplesIndexed.owns_of_firstClaim (hkept : sl.TriplesKept)
    (hfst : firstOpinion (tripleClaims sl) t = some (some edge)) :
    ∃ id, visible sl.edgeLayers id = some edge ∧ HasTriple t edge := by
  rw [tripleClaims, firstOpinion_cons, firstOpinion_append, or_eq_some_iff, or_eq_some_iff] at hfst
  rcases hfst with hc | ⟨ha, hc | ⟨himm, hc⟩⟩
  · obtain ⟨he, -⟩ := tripleClaim_eq_some hc
    exact h.owns_of_uncontested hkept [] _ _ rfl he (by simp) (by simp)
  · -- an immutable memtable claims the triple
    have ha' : claimedEdge (tripleLayer sl.active) t = none := by simpa [tripleClaim] using ha
    rw [firstOpinion, findSome?_map, findSome?_eq_some_iff] at hc
    obtain ⟨newer, epoch, older, hsp, hc, hnew'⟩ := hc
    rw [comp_apply] at hc
    obtain ⟨he, hdead⟩ := tripleClaim_eq_some hc
    obtain ⟨himm, hidx⟩ := zipIdx_split hsp
    rw [hidx, isEdgeTombstonedAboveImmutable, himm, ← length_map Prod.fst, take_left, Bool.or_eq_false_iff, any_eq_false] at hdead
    have hmem : ∀ m ∈ newer.map Prod.fst, m ∈ sl.active :: sl.immutable := fun m hm => by
      rw [himm]
      simp only [mem_cons, mem_append]
      exact .inr (.inl hm)
    refine h.owns_of_uncontested hkept ((sl.active :: newer.map Prod.fst).map tripleLayer)
      (tripleLayer epoch.1)
      ((older.map Prod.fst).map tripleLayer ++ sl.segments.map segmentTripleLayer) ?_ he ?_ ?_
    · simp [tripleLayers, himm]
    · rintro l hl
      obtain ⟨m, hm, rfl⟩ := mem_map.mp hl
      rcases mem_cons.mp hm with rfl | hm
      · exact ha'
      · obtain ⟨e, hen, rfl⟩ := mem_map.mp hm
        simpa [tripleClaim] using hnew' e hen
    · rintro l hl ho
      obtain ⟨m, hm, rfl⟩ := mem_map.mp hl
      rcases mem_cons.mp hm with rfl | hm
      · rw [h.deleted_of_tombstone mem_cons_self ho] at hdead
        exact Bool.noConfusion hdead.1
      · exact hdead.2 m hm (h.deleted_of_tombstone (hmem m hm) ho)
  · -- a segment claims the triple
    have ha' : claimedEdge (tripleLayer sl.active) t = none := by simpa [tripleClaim] using ha
    have himm' : ∀ m ∈ sl.immutable, claimedEdge (tripleLayer m) t = none := by
      intro m hm
      obtain ⟨i, hi⟩ := mem_iff_getElem?.mp hm
      have hz : (m, i) ∈ sl.immutable.zipIdx := mem_zipIdx_iff_getElem?.mpr hi
      have := firstOpinion_eq_none_iff.mp himm _ (mem_map_of_mem hz)
      simpa [tripleClaim] using this
    rw [firstOpinion, findSome?_map, findSome?_eq_some_iff] at hc
    obtain ⟨newer, seg, older, hsp, hc, hnew'⟩ := hc
    rw [comp_apply] at hc
    obtain ⟨he, hdead⟩ := tripleClaim_eq_some hc
    obtain ⟨hsegs, hidx⟩ := zipIdx_split hsp
    rw [hidx, isEdgeTombstonedAboveSegment, hsegs, ← length_map Prod.fst, take_left,
      Bool.or_eq_false_iff, Bool.or_eq_false_iff, any_eq_false, any_eq_false] at hdead
    obtain ⟨⟨hdact, hdimm⟩, hdsegs⟩ := hdead
    refine h.owns_of_uncontested hkept
      ((sl.active :: sl.immutable).map tripleLayer ++ (newer.map Prod.fst).map segmentTripleLayer)
      (segmentTripleLayer seg.1) ((older.map Prod.fst).map segmentTripleLayer) ?_ he ?_ ?_
    · simp [tripleLayers, hsegs]
    · rintro l hl
      rcases mem_append.mp hl with hl | hl
      · obtain ⟨m, hm, rfl⟩ := mem_map.mp hl
        rcases mem_cons.mp hm with rfl | hm
        · exact ha'
        · exact himm' m hm
      · obtain ⟨s, hs, rfl⟩ := mem_map.mp hl
        obtain ⟨e, hen, rfl⟩ := mem_map.mp hs
        simpa [tripleClaim] using hnew' e hen
    · rintro l hl ho
      rcases mem_append.mp hl with hl | hl
      · obtain ⟨m, hm, rfl⟩ := mem_map.mp hl
        have hd := h.deleted_of_tombstone hm ho
        rcases mem_cons.mp hm with rfl | hm
        · rw [hdact] at hd
          cases hd
        · exact hdimm m hm hd
      · obtain ⟨s, hs, rfl⟩ := mem_map.mp hl
        refine hdsegs s hs ?_
        by_contra hd
        simp [segmentTripleLayer, Segment.edgeOpinion, hd] at ho

theorem TriplesIndexed.firstClaim_of_owns (hown : Owns HasTriple (visible sl.edgeLayers) t id) :
    ∃ edge, firstOpinion (tripleClaims sl) t = some (some edge) := by
  have hclm : ∀ lay ∈ sl.tripleLayers, lay.claim t = some id → ∃ edge, claimedEdge lay t = some edge ∧ edge.id = id := by
    intro lay hl hc
    obtain ⟨edge, he, -⟩ := (h.exact lay hl t id).mp hc
    refine ⟨edge, by simpa [claimedEdge, hc] using he, h.ids lay.opinion ?_ id edge ?_⟩
    · rw [← tripleLayers_opinion]
      exact mem_map_of_mem hl
    · exact join_eq_some_iff.mp he
  have hpass : ∀ lay : IndexedLayer ℕ (ℕ × ℕ × ℕ) EdgeRecord, Passive lay t id →
      ∀ dead, tripleClaim dead lay t = none := fun lay hp dead => by
    simp [tripleClaim, claimedEdge, hp.1]
  have halive : ∀ m ∈ sl.active :: sl.immutable, Passive (tripleLayer m) t id →
      m.isEdgeDeletedAt id sl.snapshotSeq = false := fun m hm hp => by
    rw [(h.wellFormed.settled m hm).isEdgeDeletedAt, ← Bool.not_eq_true,
      (h.wellFormed.tombstones m hm).edges, show m.edgeOpinion id = none from hp.2]
    simp
  rw [← tripleLayers_opinion] at hown
  cases SourceList.firstClaim_of_owns h.exact h.onceUnique hown with
  | active hclaim =>
    obtain ⟨edge, he, -⟩ := hclm _ (by simp [tripleLayers]) hclaim
    exact ⟨edge, by simp [tripleClaims, tripleClaim, he]⟩
  | immutable ha newer older m has hnew' hclaim =>
    obtain ⟨edge, he, hid⟩ := hclm _ (by simp [tripleLayers, has]) hclaim
    have hdead : sl.isEdgeTombstonedAboveImmutable id newer.length = false := by
      rw [isEdgeTombstonedAboveImmutable, has, take_left, Bool.or_eq_false_iff, any_eq_false]
      refine ⟨halive _ (by simp) ha, fun l hl => ?_⟩
      simpa using halive l (by simp [has, hl]) (hnew' l hl)
    refine ⟨edge, ?_⟩
    rw [tripleClaims, has, zipIdx_append, zipIdx_cons, map_append, map_cons, append_assoc, cons_append, ← cons_append]
    refine firstOpinion_of_split ?_ ?_
    · intro l hl
      rcases mem_cons.mp hl with rfl | hl
      · exact hpass _ ha _
      · obtain ⟨epoch, hm, rfl⟩ := mem_map.mp hl
        exact hpass _ (hnew' _ (fst_mem_of_mem_zipIdx hm)) _
    · simp [tripleClaim, he, hid, hdead]
  | segment hmem newer older seg hbs hnew' hclaim =>
    obtain ⟨edge, he, hid⟩ := hclm _ (by simp [tripleLayers, hbs]) hclaim
    have hdead : sl.isEdgeTombstonedAboveSegment id newer.length = false := by
      rw [isEdgeTombstonedAboveSegment, hbs, take_left, Bool.or_eq_false_iff, Bool.or_eq_false_iff, any_eq_false, any_eq_false]
      refine ⟨⟨halive _ (by simp) (hmem _ (by simp)), fun l hl => ?_⟩, fun s hs hd => ?_⟩
      · simpa using halive l (by simp [hl]) (hmem l (by simp [hl]))
      · have hnone : s.edgeOpinion id = none := (hnew' s hs).2
        simp [Segment.edgeOpinion, hd] at hnone
    refine ⟨edge, ?_⟩
    rw [tripleClaims, hbs, zipIdx_append, zipIdx_cons, map_append, map_cons, ← append_assoc, ← cons_append]
    refine firstOpinion_of_split ?_ ?_
    · intro l hl
      rcases mem_cons.mp hl with rfl | hl
      · exact hpass _ (hmem _ (by simp)) _
      rcases mem_append.mp hl with hl | hl
      · obtain ⟨epoch, hm, rfl⟩ := mem_map.mp hl
        have hm' := fst_mem_of_mem_zipIdx hm
        exact hpass _ (hmem _ (by simp [hm'])) _
      · obtain ⟨s, hs, rfl⟩ := mem_map.mp hl
        exact hpass _ (hnew' _ (fst_mem_of_mem_zipIdx hs)) _
    · simp [tripleClaim, he, hid, hdead]

theorem TriplesIndexed.firstClaim_owner (hkept : sl.TriplesKept) (t : ℕ × ℕ × ℕ) :
    (firstOpinion (tripleClaims sl) t).join = owner HasTriple (visible sl.edgeLayers) t := by
  refine ext fun edge => ?_
  rw [owner_eq_some_iff h.unique, join_eq_some_iff]
  refine ⟨h.owns_of_firstClaim hkept, fun ⟨id, hv, ht⟩ => ?_⟩
  obtain ⟨e, he⟩ := h.firstClaim_of_owns ⟨edge, hv, ht⟩
  obtain ⟨id', hv', ht'⟩ := h.owns_of_firstClaim hkept he
  obtain rfl := h.unique t id id' ⟨edge, hv, ht⟩ ⟨e, hv', ht'⟩
  rw [he, some.inj (hv'.symm.trans hv)]

theorem TriplesIndexed.findEdgeByTriple (hkept : sl.TriplesKept) (t : ℕ × ℕ × ℕ) :
    sl.findEdgeByTriple t = owner HasTriple (visible sl.edgeLayers) t := by
  rw [h.findEdgeByTriple_claims, h.firstClaim_owner hkept]

theorem TriplesIndexed.findEdgesByTriples (triples : List (ℕ × ℕ × ℕ)) :
    sl.findEdgesByTriples triples = triples.map sl.findEdgeByTriple := by
  rw [h.findEdgesByTriples_claims]
  exact map_congr_left fun t _ => (h.findEdgeByTriple_claims t).symm

end

end OverGraph.Sources.SourceList
