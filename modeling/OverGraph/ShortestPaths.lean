import OverGraph.PathSearch

/-!
# Both searches together find a shortest path
-/

namespace OverGraph.ShortestPaths
open Sources SnapshotReads AdjacencyReads GraphWalks Expansion PrunePolicies PathSearch LayeredWrites List Candidate
open CascadingDeletes (isLive)
open EdgeCandidates (nodeVisible)

section
variable (sl : SourceList) (dir : Direction) (fids : Option (List ℕ)) (now : ℤ)
  (pols : Option PrecomputedPruneCutoffs)

/-- Without policies every node can be passed, also one without a record. -/
def Passable (nodeId : ℕ) : Prop := pols.isSome → nodeVisible sl pols nodeId = true

def PathArc (source edgeId nbr : ℕ) : Prop := Linked sl dir fids now source edgeId nbr ∧ Passable sl pols source ∧ Passable sl pols nbr

/-- The nodes and the edges of a walk along links in the direction. -/
def IsPath {C : Type} (source target : ℕ) (path : ShortestPath C) : Prop :=
  ∃ steps, IsWalk (PathArc sl dir fids now pols) source steps target ∧ path.nodes = nodesOf source steps ∧ path.edges = edgesOf steps

end

section
variable {sl : SourceList} {dir : Direction} {fids : Option (List ℕ)} {now : ℤ}
  {pols : Option PrecomputedPruneCutoffs}

theorem pathArc_reverse (h : Stored sl) (hends : EndsKept sl) : PathArc sl (reverseDirection dir) fids now pols =
      backward (PathArc sl dir fids now pols) := by
  funext source edgeId nbr
  simp only [PathArc, backward]
  rw [linked_reverse h hends, backward, and_comm (a := Passable sl pols source)]

theorem visibleNodeIds_eq (h : sl.WellFormed) (nodeIds : List ℕ) :
    visibleNodeIds sl pols nodeIds = nodeIds.filter (nodeVisible sl pols) := by
  rw [visibleNodeIds, h.findNodeVisibilityMeta, ← map_prod_left_eq_zip, filterMap_map, ← filterMap_eq_filter]
  apply filterMap_congr
  intro nodeId _
  simp only [Function.comp_apply, nodeVisible, h.findNode, visible, Option.guard]
  rcases firstOpinion sl.nodeLayers nodeId with - | (- | node) <;>
    simp [BatchLookup.shown, SourceList.visibilityOpinion, isLive, visibilityMeta, PrecomputedPruneCutoffs.excludes]

/-- What is dropped from a layer is hidden by a policy, and what stays can be passed. -/
theorem mem_retainVisible (h : sl.WellFormed) {lay : List Candidate} {cand : Candidate} :
    cand ∈ retainVisible sl pols lay ↔ cand ∈ lay ∧ Passable sl pols cand.neighbor := by
  cases pols with
  | none => simp [retainVisible, Passable]
  | some cutoffs =>
    simp only [retainVisible, visibleNodeIds_eq h, mem_filter, decide_eq_true_eq, Passable, Option.isSome_some, forall_const]
    constructor
    · rintro ⟨hmem, -, hvis⟩
      exact ⟨hmem, hvis⟩
    · rintro ⟨hmem, hvis⟩
      exact ⟨hmem, mem_map_of_mem hmem, hvis⟩

end

section
variable {vis blockedHidden opp : Finset ℕ} {stops : Bool}

/-- What a layer that is being found holds. -/
structure Discovery (vis blockedHidden opp : Finset ℕ) (stops : Bool) (postings : List (ℕ × NeighborRecord))
    (lay : List Candidate) : Prop where
  nodup : (lay.map Candidate.neighbor).Nodup
  found : ∀ cand ∈ lay, cand.neighbor ∉ vis ∧ cand.neighbor ∉ blockedHidden ∧
    ∃ posting ∈ postings, cand = ⟨posting.2.nodeId, posting.1, posting.2.edgeId⟩
  complete : (stops = true ∧ ∃ cand ∈ lay, cand.neighbor ∈ opp) ∨ ∀ posting ∈ postings,
    posting.2.nodeId ∈ vis ∨ posting.2.nodeId ∈ blockedHidden ∨ posting.2.nodeId ∈ lay.map Candidate.neighbor

variable {lay : List Candidate}

theorem discover_spec {seen : List (ℕ × NeighborRecord)} (ps : List (ℕ × NeighborRecord))
    (h : Discovery vis blockedHidden opp false seen lay) :
    Discovery vis blockedHidden opp stops (seen ++ ps) (discover vis blockedHidden opp stops ps lay) := by
  induction ps generalizing seen lay with
  | nil =>
    rw [append_nil, discover]
    exact ⟨h.nodup, h.found, Or.inr (h.complete.resolve_left fun hnot => Bool.false_ne_true hnot.1)⟩
  | cons post ps ih =>
    have hcomp := h.complete.resolve_left fun hnot => Bool.false_ne_true hnot.1
    have hfnd : ∀ cand ∈ lay, cand.neighbor ∉ vis ∧ cand.neighbor ∉ blockedHidden ∧
        ∃ other ∈ seen ++ [post], cand = ⟨other.2.nodeId, other.1, other.2.edgeId⟩ := by
      intro cand hcand
      obtain ⟨hvis, hhid, other, hoth, heq⟩ := h.found cand hcand
      exact ⟨hvis, hhid, other, mem_append_left _ hoth, heq⟩
    rw [discover, append_cons]
    by_cases hskip : post.2.nodeId ∈ vis ∨ post.2.nodeId ∈ blockedHidden ∨ post.2.nodeId ∈ lay.map neighbor
    · rw [if_pos hskip]
      refine ih ⟨h.nodup, hfnd, Or.inr fun other hoth => ?_⟩
      obtain hoth | hoth := mem_append.mp hoth
      · exact hcomp other hoth
      · rwa [mem_singleton.mp hoth]
    · rw [if_neg hskip]
      obtain ⟨hvis, hrest⟩ := not_or.mp hskip
      obtain ⟨hhid, hnew⟩ := not_or.mp hrest
      have hnext : ∀ stopped : Bool, Discovery vis blockedHidden opp stopped (seen ++ [post])
          (lay ++ [⟨post.2.nodeId, post.1, post.2.edgeId⟩]) := by
        intro stopped
        refine ⟨?_, fun cand hcand => ?_, Or.inr fun other hoth => ?_⟩
        · rw [map_append, map_singleton]
          exact h.nodup.append (nodup_singleton _) (disjoint_singleton.mpr hnew)
        · obtain hcand | hcand := mem_append.mp hcand
          · exact hfnd cand hcand
          · rw [mem_singleton.mp hcand]
            exact ⟨hvis, hhid, post, mem_append_right _ mem_cons_self, rfl⟩
        · rw [map_append, mem_append]
          obtain hoth | hoth := mem_append.mp hoth
          · obtain hold | hold | hold := hcomp other hoth
            · exact Or.inl hold
            · exact Or.inr (Or.inl hold)
            · exact Or.inr (Or.inr (Or.inl hold))
          · rw [mem_singleton.mp hoth]
            exact Or.inr (Or.inr (Or.inr mem_cons_self))
      split
      · rename_i hstop
        rw [Bool.and_eq_true, decide_eq_true_eq] at hstop
        refine ⟨(hnext stops).nodup, fun cand hcand => ?_, Or.inl ⟨hstop.1, _, mem_append_right _ mem_cons_self, hstop.2⟩⟩
        obtain ⟨hvis, hhid, other, hoth, heq⟩ := (hnext stops).found cand hcand
        exact ⟨hvis, hhid, other, mem_append_left _ hoth, heq⟩
      · exact ih (hnext false)

theorem discover_start (ps : List (ℕ × NeighborRecord)) : Discovery vis blockedHidden opp stops ps
    (discover vis blockedHidden opp stops ps []) := by
  have hemp : Discovery vis blockedHidden opp false [] [] :=
    ⟨nodup_nil, fun _ hnil => absurd hnil not_mem_nil, Or.inr fun _ hnil => absurd hnil not_mem_nil⟩
  exact discover_spec ps hemp

theorem lookup_enterLayer (hnd : (lay.map neighbor).Nodup) (parent : ParentMap) (nodeId : ℕ) :
    (lay.foldl (fun parent cand => parent.insert cand.neighbor (cand.source, cand.edgeId)) parent).lookup nodeId =
      ((lay.find? fun cand => decide (cand.neighbor = nodeId)).map fun cand => (cand.source, cand.edgeId)).or (parent.lookup nodeId) := by
  induction lay generalizing parent with
  | nil => rfl
  | cons cand lay ih =>
    obtain ⟨hfst, hrest⟩ := nodup_cons.mp hnd
    rw [foldl_cons, ih hrest, find?_cons]
    by_cases hsame : cand.neighbor = nodeId
    · have hnone : lay.find? (fun cand => decide (cand.neighbor = nodeId)) = none := by
        rw [find?_eq_none]
        intro other hoth heq
        apply hfst
        rw [hsame, ← of_decide_eq_true heq]
        exact mem_map_of_mem hoth
      rw [hnone, hsame]
      simp
    · rw [AList.lookup_insert_ne (Ne.symm hsame)]
      simp [hsame]

end

variable {meeting : ℕ}

section
variable {sl : SourceList} {dir : Direction} {fids : Option (List ℕ)} {now : ℤ}
  {pols : Option PrecomputedPruneCutoffs} {root : ℕ} {own : Side} {opp blockedHidden : Finset ℕ}

/-- A search holds a ball around its root, and the parents lead back from each node in it. -/
structure Reached (sl : SourceList) (pols : Option PrecomputedPruneCutoffs) (arc : ℕ → ℕ → ℕ → Prop) (root : ℕ)
    (side : Side) : Prop where
  ball : Ball arc root side.depth (· ∈ side.visited) side.frontier
  rootless : side.parent.lookup root = none
  known : ∀ v, (side.parent.lookup v).isSome → v ∈ side.visited
  climbs : ∀ k v, k ≤ side.depth → Nearest arc k root v → Climbs arc (side.parent.lookup ·) root k v
  passable : ∀ v ∈ side.visited, Passable sl pols v

theorem reached_start (arc : ℕ → ℕ → ℕ → Prop) (hpass : Passable sl pols root) : Reached sl pols arc root (startSide root) := by
  have hball := ball_start arc root
  refine ⟨⟨fun v => ?_, hball.frontier⟩, rfl, fun v hv => ?_, fun k v hk hnear => ?_, fun v hv => ?_⟩
  · exact Finset.mem_singleton.trans (hball.visited v)
  · cases hv
  · obtain rfl := Nat.le_zero.mp hk
    exact (hops_zero.mp hnear.1).symm
  · rwa [Finset.mem_singleton.mp hv]

/-- The layer that a round enters. -/
def newLayer (sl : SourceList) (fids : Option (List ℕ)) (now : ℤ) (pols : Option PrecomputedPruneCutoffs)
    (dir : Direction) (own : Side) (opp blockedHidden : Finset ℕ) : List Candidate :=
  retainVisible sl pols (discover own.visited blockedHidden opp pols.isNone
    (expandFrontier sl dir fids now own.frontier) [])

theorem nodup_newLayer : ((newLayer sl fids now pols dir own opp blockedHidden).map neighbor).Nodup := by
  have hfnd := @discover_start own.visited blockedHidden opp pols.isNone
    (expandFrontier sl dir fids now own.frontier)
  rw [newLayer]
  cases pols with
  | none => exact hfnd.nodup
  | some cutoffs => exact (filter_sublist.map _).nodup hfnd.nodup

section
variable (h : Stored sl) (hrch : Reached sl pols (PathArc sl dir fids now pols) root own)
include h hrch

variable {cand : Candidate}

theorem arc_of_newLayer
    (hcand : cand ∈ newLayer sl fids now pols dir own opp blockedHidden) :
    cand.neighbor ∉ own.visited ∧ cand.source ∈ own.frontier ∧ PathArc sl dir fids now pols cand.source cand.edgeId cand.neighbor := by
  obtain ⟨hmem, hpass⟩ := (mem_retainVisible h.wellFormed).mp hcand
  obtain ⟨hvis, -, post, hpost, heq⟩ := (discover_start _).found cand hmem
  obtain ⟨hsrc, hfnd, hvd⟩ := (mem_expandFrontier h).mp hpost
  subst heq
  refine ⟨hvis, hsrc, ⟨post.2, hfnd, rfl, hvd⟩, ?_, hpass⟩
  apply hrch.passable
  exact (hrch.ball.visited _).mpr ⟨_, le_rfl, ((hrch.ball.frontier _).mp hsrc).1⟩

/-- A layer that did not stop at a contact has all nodes that are new. -/
theorem newLayer_complete (hhid : ∀ v ∈ blockedHidden, ¬Passable sl pols v) :
    (∃ v ∈ (newLayer sl fids now pols dir own opp blockedHidden).map neighbor, v ∈ opp) ∨
      ∀ v, v ∈ (newLayer sl fids now pols dir own opp blockedHidden).map neighbor ↔
        v ∉ own.visited ∧ ∃ s ∈ own.frontier, ∃ e, PathArc sl dir fids now pols s e v := by
  have hfnd := @discover_start own.visited blockedHidden opp pols.isNone
    (expandFrontier sl dir fids now own.frontier)
  obtain ⟨hnone, cand, hcand, hctc⟩ | hcomp := hfnd.complete
  · refine Or.inl ⟨cand.neighbor, mem_map_of_mem ((mem_retainVisible h.wellFormed).mpr ⟨hcand, fun hsome => ?_⟩), hctc⟩
    rw [Option.isNone_iff_eq_none] at hnone
    rw [hnone] at hsome
    cases hsome
  · refine Or.inr fun v => ⟨fun hv => ?_, ?_⟩
    · obtain ⟨cand, hcand, rfl⟩ := mem_map.mp hv
      obtain ⟨hvis, hsrc, harc⟩ := arc_of_newLayer h hrch hcand
      exact ⟨hvis, _, hsrc, _, harc⟩
    · rintro ⟨hvis, s, hs, e, ⟨r, hlink, rfl, hvd⟩, -, hpass⟩
      have hid : r.edgeId = e := linkFound_edgeId h hlink
      have hpost : (s, r) ∈ expandFrontier sl dir fids now own.frontier := (mem_expandFrontier h).mpr ⟨hs, hid.symm ▸ hlink, hvd⟩
      obtain hold | hold | hnew := hcomp _ hpost
      · exact absurd hold hvis
      · exact absurd hpass (hhid _ hold)
      · obtain ⟨cand, hcand, heq⟩ := mem_map.mp hnew
        rw [← heq]
        exact mem_map_of_mem ((mem_retainVisible h.wellFormed).mpr ⟨hcand, heq.symm ▸ hpass⟩)

omit h hrch in
theorem lookup_other (parent : ParentMap) {v : ℕ}
    (hv : v ∉ (newLayer sl fids now pols dir own opp blockedHidden).map neighbor) :
    ((newLayer sl fids now pols dir own opp blockedHidden).foldl (fun parent cand =>
      parent.insert cand.neighbor (cand.source, cand.edgeId)) parent).lookup v = parent.lookup v := by
  rw [lookup_enterLayer nodup_newLayer, find?_eq_none.mpr, Option.map_none, Option.none_or]
  intro cand hcand heq
  exact hv (mem_map.mpr ⟨cand, hcand, of_decide_eq_true heq⟩)

/-- The parents of a node that was visited before stay as they are. -/
theorem lookup_visited (opp blockedHidden : Finset ℕ) (parent : ParentMap) {v : ℕ} (hv : v ∈ own.visited) :
    ((newLayer sl fids now pols dir own opp blockedHidden).foldl (fun parent cand =>
      parent.insert cand.neighbor (cand.source, cand.edgeId)) parent).lookup v = parent.lookup v := by
  apply lookup_other
  intro hnew
  obtain ⟨cand, hcand, rfl⟩ := mem_map.mp hnew
  exact (arc_of_newLayer h hrch hcand).1 hv

theorem climbs_kept (opp blockedHidden : Finset ℕ) {k v : ℕ}
    (hclimbs : Climbs (PathArc sl dir fids now pols) (own.parent.lookup ·) root k v) :
    Climbs (PathArc sl dir fids now pols)
      (((newLayer sl fids now pols dir own opp blockedHidden).foldl (fun parent cand =>
        parent.insert cand.neighbor (cand.source, cand.edgeId)) own.parent).lookup ·) root k v := by
  apply hclimbs.mono
  intro j x _ hx
  obtain ⟨p, e, hpar, -⟩ := hx
  exact lookup_visited h hrch opp blockedHidden own.parent (hrch.known x (Option.isSome_iff_exists.mpr ⟨_, hpar⟩))

/-- Each node of the layer leads back to the root. -/
theorem climbs_newLayer
    (hcand : cand ∈ newLayer sl fids now pols dir own opp blockedHidden) :
    Climbs (PathArc sl dir fids now pols)
      (((newLayer sl fids now pols dir own opp blockedHidden).foldl (fun parent cand =>
        parent.insert cand.neighbor (cand.source, cand.edgeId)) own.parent).lookup ·) root (own.depth + 1)
      cand.neighbor := by
  obtain ⟨-, hsrc, harc⟩ := arc_of_newLayer h hrch hcand
  refine ⟨cand.source, cand.edgeId, ?_, harc, ?_⟩
  · dsimp only
    rw [lookup_enterLayer nodup_newLayer, find_candidate nodup_newLayer hcand]
    rfl
  · exact climbs_kept h hrch opp blockedHidden (hrch.climbs own.depth _ le_rfl ((hrch.ball.frontier _).mp hsrc))

omit hrch in
/-- What a policy hides is blocked, and no more. -/
theorem hidden_expandSide (hhid : ∀ v ∈ blockedHidden, ¬Passable sl pols v) :
    ∀ v ∈ (expandSide sl fids now pols dir own opp blockedHidden).2.1,
      ¬Passable sl pols v := by
  intro v hv
  obtain hv | hv := Finset.mem_union.mp hv
  · exact hhid v hv
  · obtain ⟨hfnd, hdrop⟩ := mem_filter.mp (mem_toFinset.mp hv)
    obtain ⟨cand, hcand, rfl⟩ := mem_map.mp hfnd
    intro hpass
    apply of_decide_eq_true hdrop
    exact mem_map_of_mem ((mem_retainVisible h.wellFormed).mpr ⟨hcand, hpass⟩)

/-- A round without a contact leaves the search around a larger ball, still apart from the other. -/
theorem expandSide_none (hhid : ∀ v ∈ blockedHidden, ¬Passable sl pols v)
    (hnone : (expandSide sl fids now pols dir own opp blockedHidden).2.2 = none) :
    Reached sl pols (PathArc sl dir fids now pols) root
        (expandSide sl fids now pols dir own opp blockedHidden).1 ∧
      ∀ v ∈ (expandSide sl fids now pols dir own opp blockedHidden).1.visited,
        v ∈ own.visited ∨ v ∉ opp := by
  have hapart : ∀ v ∈ (newLayer sl fids now pols dir own opp blockedHidden).map
      neighbor, v ∉ opp := by
    intro v hv hctc
    exact find?_eq_none.mp hnone v hv (decide_eq_true hctc)
  have hcomp := (newLayer_complete h hrch hhid).resolve_left fun ⟨v, hv, hctc⟩ => hapart v hv hctc
  have hball := hrch.ball.grow hcomp
  have hfron : (expandSide sl fids now pols dir own opp blockedHidden).1.frontier =
      (newLayer sl fids now pols dir own opp blockedHidden).map neighbor := by
    show (expandSide sl fids now pols dir own opp blockedHidden).2.2.elim _ _ = _
    rw [hnone]
    rfl
  have hvis : ∀ v, v ∈ (expandSide sl fids now pols dir own opp blockedHidden).1.visited ↔
      v ∈ own.visited ∨ v ∈ (newLayer sl fids now pols dir own opp blockedHidden).map
        neighbor := fun v => Finset.mem_union.trans (or_congr_right mem_toFinset)
  have hroot : root ∈ own.visited := (hrch.ball.visited root).mpr ⟨0, Nat.zero_le _, hops_zero.mpr rfl⟩
  refine ⟨⟨⟨fun v => (hvis v).trans (hball.visited v), hfron ▸ hball.frontier⟩, ?_, fun v hv => ?_, fun k v hk hnear => ?_,
    fun v hv => ?_⟩, fun v hv => ?_⟩
  · exact (lookup_visited h hrch opp blockedHidden own.parent hroot).trans hrch.rootless
  · apply (hvis v).mpr
    by_cases hnew : v ∈ (newLayer sl fids now pols dir own opp blockedHidden).map
        neighbor
    · exact Or.inr hnew
    · have hsame := lookup_other own.parent hnew
      exact Or.inl (hrch.known v (hsame ▸ hv))
  · obtain hle | rfl := Nat.le_succ_iff.mp hk
    · exact climbs_kept h hrch opp blockedHidden (hrch.climbs k v hle hnear)
    · obtain ⟨cand, hcand, rfl⟩ := mem_map.mp ((hball.frontier v).mpr hnear)
      exact climbs_newLayer h hrch hcand
  · obtain hold | hnew := (hvis v).mp hv
    · exact hrch.passable v hold
    · obtain ⟨cand, hcand, rfl⟩ := mem_map.mp hnew
      exact (arc_of_newLayer h hrch hcand).2.2.2.2
  · exact ((hvis v).mp hv).imp_right (hapart v)

/-- A round with a contact has found a node of the other search that is one step further out. -/
theorem expandSide_some (hsome : (expandSide sl fids now pols dir own opp blockedHidden).2.2 = some meeting) :
    let side := (expandSide sl fids now pols dir own opp blockedHidden).1
    meeting ∈ opp ∧ Nearest (PathArc sl dir fids now pols) (own.depth + 1) root meeting ∧ side.parent.lookup root = none ∧
      Climbs (PathArc sl dir fids now pols) (side.parent.lookup ·) root (own.depth + 1) meeting := by
  have hctc : meeting ∈ opp := by simpa using find?_some hsome
  obtain ⟨cand, hcand, rfl⟩ := mem_map.mp (mem_of_find?_eq_some hsome)
  obtain ⟨hnew, hsrc, harc⟩ := arc_of_newLayer h hrch hcand
  refine ⟨hctc, hrch.ball.nearest_of_new hnew hsrc harc, ?_, climbs_newLayer h hrch hcand⟩
  have hroot : root ∈ own.visited := (hrch.ball.visited root).mpr ⟨0, Nat.zero_le _, hops_zero.mpr rfl⟩
  exact (lookup_visited h hrch opp blockedHidden own.parent hroot).trans hrch.rootless

end

end

section
variable {sl : SourceList} {dir : Direction} {fids : Option (List ℕ)} {now : ℤ}
  {pols : Option PrecomputedPruneCutoffs} {source target : ℕ}

/-- The ways back from a meeting to both ends make one walk. -/
theorem reconstruct_walk {arc : ℕ → ℕ → ℕ → Prop} {fwdParent bwdParent : ParentMap} {k j : ℕ}
    (hsrc : fwdParent.lookup source = none) (hfwd : Climbs arc (fwdParent.lookup ·) source k meeting)
    (htgt : bwdParent.lookup target = none) (hbwd : Climbs (backward arc) (bwdParent.lookup ·) target j meeting) :
    ∃ steps, IsWalk arc source steps target ∧ (reconstructBidirPath fwdParent bwdParent meeting).nodes = nodesOf source steps ∧
      (reconstructBidirPath fwdParent bwdParent meeting).edges = edgesOf steps ∧ steps.length = k + j := by
  obtain ⟨hup, huple⟩ := climb_walk hsrc hfwd (climbs_le hsrc hfwd)
  obtain ⟨hdown, hdownlength⟩ := climb_walk htgt hbwd (climbs_le htgt hbwd)
  have hnos : nodesOf source (backSteps meeting ((ancestors fwdParent meeting).map Prod.swap)) = _ := nodesOf_backSteps hup
  have heds := @edgesOf_backSteps ℕ ℕ meeting ((ancestors fwdParent meeting).map Prod.swap)
  refine ⟨backSteps meeting ((ancestors fwdParent meeting).map Prod.swap) ++ (ancestors bwdParent meeting).map Prod.swap,
    isWalk_append.mpr ⟨meeting, isWalk_backSteps hup, hdown⟩, ?_, ?_, ?_⟩
  · rw [nodesOf, map_append, ← cons_append]
    rw [nodesOf, nodesOf] at hnos
    rw [hnos, map_map, map_map]
    rfl
  · rw [edgesOf, map_append]
    rw [edgesOf, edgesOf] at heds
    rw [heds, map_map, map_map]
    rfl
  · rw [length_append, length_backSteps, length_map, length_map, ancestors, ancestors, huple, hdownlength]

/-- Both searches are balls around their ends, apart from each other. -/
structure Searching (sl : SourceList) (pols : Option PrecomputedPruneCutoffs) (arc : ℕ → ℕ → ℕ → Prop) (source target : ℕ)
    (st : SearchState) : Prop where
  fwd : Reached sl pols arc source st.fwd
  bwd : Reached sl pols (backward arc) target st.bwd
  apart : ∀ v ∈ st.fwd.visited, v ∉ st.bwd.visited
  hidden : ∀ v ∈ st.blockedHidden, ¬Passable sl pols v

section
variable (h : Stored sl) (hends : EndsKept sl)
include h hends

theorem expandSmaller_none {st st' : SearchState}
    (hst : Searching sl pols (PathArc sl dir fids now pols) source target st)
    (hstep : expandSmaller sl fids now pols dir st = (st', none)) :
    Searching sl pols (PathArc sl dir fids now pols) source target st' ∧
      st'.fwd.depth + st'.bwd.depth = st.fwd.depth + st.bwd.depth + 1 := by
  have hfwd := hst.fwd
  have hbwd := hst.bwd
  rw [← pathArc_reverse h hends] at hbwd
  rw [expandSmaller] at hstep
  split at hstep
  · obtain ⟨hsta, hnone⟩ := Prod.mk.inj hstep
    obtain ⟨hrch, hcases⟩ := expandSide_none h hfwd hst.hidden hnone
    subst hsta
    refine ⟨⟨hrch, hst.bwd, fun v hv => ?_, hidden_expandSide h hst.hidden⟩, ?_⟩
    · exact (hcases v hv).elim (hst.apart v) id
    · show st.fwd.depth + 1 + st.bwd.depth = _
      omega
  · obtain ⟨hsta, hnone⟩ := Prod.mk.inj hstep
    obtain ⟨hrch, hcases⟩ := expandSide_none h hbwd hst.hidden hnone
    subst hsta
    rw [pathArc_reverse h hends] at hrch
    refine ⟨⟨hst.fwd, hrch, fun v hv hoth => ?_, hidden_expandSide h hst.hidden⟩, ?_⟩
    · exact (hcases v hoth).elim (hst.apart v hv) fun hnot => hnot hv
    · show st.fwd.depth + (st.bwd.depth + 1) = _
      omega

theorem expandSmaller_some {st st' : SearchState}
    (hst : Searching sl pols (PathArc sl dir fids now pols) source target st)
    (hstep : expandSmaller sl fids now pols dir st = (st', some meeting)) :
    ∃ steps, IsWalk (PathArc sl dir fids now pols) source steps target ∧
      (reconstructBidirPath st'.fwd.parent st'.bwd.parent meeting).nodes = nodesOf source steps ∧
      (reconstructBidirPath st'.fwd.parent st'.bwd.parent meeting).edges = edgesOf steps ∧
      Nearest (PathArc sl dir fids now pols) steps.length source target ∧
      steps.length ≤ st.fwd.depth + st.bwd.depth + 1 := by
  have hfwd := hst.fwd
  have hbwd := hst.bwd
  rw [← pathArc_reverse h hends] at hbwd
  rw [expandSmaller] at hstep
  split at hstep
  · obtain ⟨hsta, hsome⟩ := Prod.mk.inj hstep
    obtain ⟨hmeet, hnear, hroot, hclimbs⟩ := expandSide_some h hfwd hsome
    obtain ⟨i, hi, hops⟩ := (hst.bwd.ball.visited meeting).mp hmeet
    obtain ⟨j, hj, hback⟩ := exists_nearest hops
    subst hsta
    obtain ⟨steps, hwalk, hnos, heds, hlen⟩ := reconstruct_walk hroot hclimbs hst.bwd.rootless
      (hst.bwd.climbs j meeting (by omega) hback)
    refine ⟨steps, hwalk, hnos, heds, ?_, by omega⟩
    rw [hlen]
    exact hst.fwd.ball.contact hst.bwd.ball hst.apart hnear hmeet hback
  · obtain ⟨hsta, hsome⟩ := Prod.mk.inj hstep
    obtain ⟨hmeet, hnear, hroot, hclimbs⟩ := expandSide_some h hbwd hsome
    rw [pathArc_reverse h hends] at hnear hclimbs
    obtain ⟨i, hi, hops⟩ := (hst.fwd.ball.visited meeting).mp hmeet
    obtain ⟨j, hj, hforth⟩ := exists_nearest hops
    subst hsta
    obtain ⟨steps, hwalk, hnos, heds, hlen⟩ := reconstruct_walk hst.fwd.rootless
      (hst.fwd.climbs j meeting (by omega) hforth) hroot hclimbs
    refine ⟨steps, hwalk, hnos, heds, ?_, by omega⟩
    rw [hlen, Nat.add_comm]
    apply nearest_backward.mp
    exact hst.bwd.ball.contact hst.fwd.ball (fun v hv hoth => hst.apart v hoth hv) hnear hmeet hforth

/-- While the searches are apart, the rounds that are left are as many as the hops that may still be added. -/
theorem bfsRounds_spec {maxD rds : ℕ} {st : SearchState}
    (hst : Searching sl pols (PathArc sl dir fids now pols) source target st)
    (hrds : maxD ≤ rds + (st.fwd.depth + st.bwd.depth)) :
    match bfsRounds sl fids now pols dir maxD rds st with
    | some path => ∃ steps, IsWalk (PathArc sl dir fids now pols) source steps target ∧
        path.nodes = nodesOf source steps ∧ path.edges = edgesOf steps ∧ path.totalCost = path.edges.length ∧
        Nearest (PathArc sl dir fids now pols) steps.length source target ∧ steps.length ≤ maxD
    | none => ∀ k ≤ maxD, ¬Hops (PathArc sl dir fids now pols) k source target := by
  have hfar : maxD ≤ st.fwd.depth + st.bwd.depth → ∀ k ≤ maxD, ¬Hops (PathArc sl dir fids now pols) k source target := by
    intro hdeep k hk hops
    have hlong := hst.fwd.ball.apart hst.bwd.ball hst.apart hops
    omega
  induction rds generalizing st with
  | zero => exact hfar (by omega)
  | succ rds ih =>
    rw [bfsRounds]
    by_cases hemp : (st.fwd.frontier.isEmpty || st.bwd.frontier.isEmpty) = true
    · rw [if_pos hemp]
      intro k _
      have hfwd := hst.fwd.ball
      have hbwd := hst.bwd.ball
      obtain hnil | hnil := (Bool.or_eq_true _ _).mp hemp
      · rw [isEmpty_iff.mp hnil] at hfwd
        exact hfwd.cut hbwd hst.apart
      · rw [isEmpty_iff.mp hnil] at hbwd
        intro hops
        exact hbwd.cut hfwd (fun v hv hoth => hst.apart v hoth hv) (hops_backward.mpr hops)
    · rw [if_neg hemp]
      by_cases hdeep : maxD ≤ st.fwd.depth + st.bwd.depth
      · rw [if_pos hdeep]
        exact hfar hdeep
      · rw [if_neg hdeep]
        rcases hstep : expandSmaller sl fids now pols dir st with ⟨next, meetingNode⟩
        cases meetingNode with
        | none =>
          obtain ⟨hnext, hdep⟩ := expandSmaller_none h hends hst hstep
          refine ih hnext (by omega) fun hdeep k hk hops => ?_
          have hlong := hnext.fwd.ball.apart hnext.bwd.ball hnext.apart hops
          omega
        | some meeting =>
          obtain ⟨steps, hwalk, hnos, heds, hnear, hlen⟩ := expandSmaller_some h hends hst hstep
          exact ⟨steps, hwalk, hnos, heds, rfl, hnear, by omega⟩

end

end

section
variable {sl : SourceList} {dir : Direction} {fids : Option (List ℕ)} {now : ℤ}
  {pols : Option PrecomputedPruneCutoffs} {source target : ℕ}

/-- The searches start apart, as the callers answer for a path from a node to itself without a search. -/
theorem searching_start (hne : source ≠ target) (hsrc : Passable sl pols source) (htgt : Passable sl pols target)
    (arc : ℕ → ℕ → ℕ → Prop) : Searching sl pols arc source target ⟨startSide source, startSide target, ∅⟩ := by
  refine ⟨reached_start arc hsrc, reached_start (backward arc) htgt, fun v hv hoth => ?_, fun v hv => ?_⟩
  · exact hne ((Finset.mem_singleton.mp hv).symm.trans (Finset.mem_singleton.mp hoth))
  · exact absurd hv (Finset.notMem_empty v)

theorem IsPath.hops {path : ShortestPath ℕ} (h : IsPath sl dir fids now pols source target path) :
    Hops (PathArc sl dir fids now pols) path.edges.length source target := by
  obtain ⟨steps, hwalk, -, heds⟩ := h
  exact ⟨steps, hwalk, by rw [heds, edgesOf, length_map]⟩

end

end OverGraph.ShortestPaths
