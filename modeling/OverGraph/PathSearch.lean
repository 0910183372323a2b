import OverGraph.EdgeCandidates
import OverGraph.Expansion

/-!
# Shortest paths by hops

Two searches go out from the ends of the path, and the one with the smaller frontier goes on. Without policies a round stops
at the first node that the other search has visited; with policies it goes to its end, and the nodes that a policy hides are
dropped then. Both searches keep a ball of the nodes around their end, and as long as the balls are apart every walk between the
ends is longer than both depths together.
-/

namespace OverGraph.PathSearch
open AssocMaps Sources SnapshotReads GraphWalks Expansion PrunePolicies List
open CascadingDeletes (isLive)
open EdgeCandidates (nodeVisible)

structure ShortestPath (C : Type) where
  nodes : List ℕ
  edges : List ℕ
  totalCost : C

/-- From a node to the one it was found at, with the edge. -/
abbrev ParentMap := Map ℕ (ℕ × ℕ)

/-- The parents of a node, up to one that has none. -/
def ancestors (parent : ParentMap) (nodeId : ℕ) : List (ℕ × ℕ) := climb (parent.lookup ·) parent.keys.length nodeId

/-- The cost is the number of hops. -/
def reconstructBidirPath (fwdParent bwdParent : ParentMap) (meeting : ℕ) : ShortestPath ℕ :=
  let fwd := ancestors fwdParent meeting
  let bwd := ancestors bwdParent meeting
  let edges := (fwd.map Prod.snd).reverse ++ bwd.map Prod.snd
  ⟨(meeting :: fwd.map Prod.fst).reverse ++ bwd.map Prod.fst, edges, edges.length⟩

def u32Max : ℕ := 2 ^ 32 - 1

section
variable (sl : SourceList) (fids : Option (List ℕ)) (now : ℤ) (pols : Option PrecomputedPruneCutoffs)

def visibleNodeIds (nodeIds : List ℕ) : List ℕ :=
  (nodeIds.zip (sl.findNodeVisibilityMeta nodeIds)).filterMap fun entry =>
    if (isLive entry.2).any fun info => !pols.any fun cutoffs => cutoffs.excludesFields info.labelIds info.updatedAt info.weight
    then some entry.1 else none

/-- A node of a new layer, with the node and the edge it was found by. -/
structure Candidate where
  neighbor : ℕ
  source : ℕ
  edgeId : ℕ

theorem find_candidate {lay : List Candidate} (hnd : (lay.map Candidate.neighbor).Nodup) {c : Candidate}
    (hcand : c ∈ lay) : lay.find? (fun other => decide (other.neighbor = c.neighbor)) = some c := by
  have hsome : (lay.find? fun other => decide (other.neighbor = c.neighbor)).isSome := List.find?_isSome.mpr ⟨c, hcand, by simp⟩
  obtain ⟨other, hoth⟩ := Option.isSome_iff_exists.mp hsome
  have hsame : other.neighbor = c.neighbor := by simpa using find?_some hoth
  rw [hoth, inj_on_of_nodup_map hnd (mem_of_find?_eq_some hoth) hcand hsame]

/-- The layer, in the order in which its nodes are found; where there are no policies it ends at the first contact. -/
def discover (vis blockedHidden opp : Finset ℕ) (stops : Bool) : List (ℕ × NeighborRecord) → List Candidate → List Candidate
  | [], lay => lay
  | post :: ps, lay =>
    if post.2.nodeId ∈ vis ∨ post.2.nodeId ∈ blockedHidden ∨ post.2.nodeId ∈ lay.map Candidate.neighbor then
      discover vis blockedHidden opp stops ps lay
    else
      let lay := lay ++ [⟨post.2.nodeId, post.1, post.2.edgeId⟩]
      if stops && decide (post.2.nodeId ∈ opp) then lay
      else discover vis blockedHidden opp stops ps lay

/-- With policies, what they hide is taken out of the layer. -/
def retainVisible (lay : List Candidate) : List Candidate :=
  match pols with
  | none => lay
  | some cutoffs =>
    let visible := visibleNodeIds sl (some cutoffs) (lay.map Candidate.neighbor)
    lay.filter fun c => decide (c.neighbor ∈ visible)

/-- One of the two searches. -/
structure Side where
  frontier : List ℕ
  visited : Finset ℕ
  parent : ParentMap
  depth : ℕ

/-- One round of a search: the search after it, the hidden nodes, and the first contact with the other. -/
def expandSide (dir : Direction) (own : Side) (opp blockedHidden : Finset ℕ) : Side × Finset ℕ × Option ℕ :=
  let found := discover own.visited blockedHidden opp pols.isNone
    (expandFrontier sl dir fids now own.frontier) []
  let lay := retainVisible sl pols found
  let nodeIds := lay.map Candidate.neighbor
  let blockedHidden := blockedHidden ∪ ((found.map Candidate.neighbor).filter (· ∉ nodeIds)).toFinset
  let meetingNode := nodeIds.find? (· ∈ opp)
  let side : Side :=
    { frontier := meetingNode.elim nodeIds nodeIds.erase
      visited := own.visited ∪ nodeIds.toFinset
      parent := lay.foldl (fun parent c => parent.insert c.neighbor (c.source, c.edgeId)) own.parent
      depth := own.depth + 1 }
  (side, blockedHidden, meetingNode)

structure SearchState where
  fwd : Side
  bwd : Side
  blockedHidden : Finset ℕ

def expandSmaller (dir : Direction) (st : SearchState) : SearchState × Option ℕ :=
  if st.fwd.frontier.length ≤ st.bwd.frontier.length then
    let (fwd, blockedHidden, meetingNode) := expandSide sl fids now pols dir st.fwd st.bwd.visited st.blockedHidden
    (⟨fwd, st.bwd, blockedHidden⟩, meetingNode)
  else
    let (bwd, blockedHidden, meetingNode) := expandSide sl fids now pols (reverseDirection dir) st.bwd st.fwd.visited st.blockedHidden
    (⟨st.fwd, bwd, blockedHidden⟩, meetingNode)

/-- Each round makes one of the depths greater, so that there are no more rounds than hops allowed. -/
def bfsRounds (dir : Direction) (maxD : ℕ) : ℕ → SearchState → Option (ShortestPath ℕ)
  | 0, _ => none
  | rds + 1, st =>
    if st.fwd.frontier.isEmpty || st.bwd.frontier.isEmpty then none
    else if maxD ≤ st.fwd.depth + st.bwd.depth then none
    else match expandSmaller sl fids now pols dir st with
      | (st, some meeting) => some (reconstructBidirPath st.fwd.parent st.bwd.parent meeting)
      | (st, none) => bfsRounds dir maxD rds st

def startSide (nodeId : ℕ) : Side := ⟨[nodeId], {nodeId}, ∅, 0⟩

def bfsShortestPath (source target : ℕ) (dir : Direction) (maxDepth : Option ℕ) : Option (ShortestPath ℕ) :=
  bfsRounds sl fids now pols dir (maxDepth.getD u32Max) (maxDepth.getD u32Max)
    ⟨startSide source, startSide target, ∅⟩

def discoverIds (vis blockedHidden opp : Finset ℕ) (stops : Bool) : List (ℕ × NeighborRecord) → List ℕ → List ℕ
  | [], lay => lay
  | post :: ps, lay =>
    if post.2.nodeId ∉ vis ∧ post.2.nodeId ∉ blockedHidden ∧ post.2.nodeId ∉ lay then
      let lay := lay ++ [post.2.nodeId]
      if stops && decide (post.2.nodeId ∈ opp) then lay
      else discoverIds vis blockedHidden opp stops ps lay
    else discoverIds vis blockedHidden opp stops ps lay

def retainVisibleIds (lay : List ℕ) : List ℕ :=
  match pols with
  | none => lay
  | some cutoffs =>
    let visible := visibleNodeIds sl (some cutoffs) lay
    lay.filter fun nodeId => decide (nodeId ∈ visible)

structure PlainSide where
  frontier : List ℕ
  visited : Finset ℕ
  depth : ℕ

def expandPlainSide (dir : Direction) (own : PlainSide) (opp blockedHidden : Finset ℕ) : PlainSide × Finset ℕ × Bool :=
  let found := discoverIds own.visited blockedHidden opp pols.isNone
    (expandFrontier sl dir fids now own.frontier) []
  let lay := retainVisibleIds sl pols found
  let blockedHidden := blockedHidden ∪ (found.filter (· ∉ lay)).toFinset
  let meetingNode := lay.find? (· ∈ opp)
  (⟨meetingNode.elim lay lay.erase, own.visited ∪ lay.toFinset, own.depth + 1⟩, blockedHidden, meetingNode.isSome)

structure PlainState where
  fwd : PlainSide
  bwd : PlainSide
  blockedHidden : Finset ℕ

def expandSmallerPlain (dir : Direction) (st : PlainState) : PlainState × Bool :=
  if st.fwd.frontier.length ≤ st.bwd.frontier.length then
    let (fwd, blockedHidden, found) := expandPlainSide sl fids now pols dir st.fwd st.bwd.visited st.blockedHidden
    (⟨fwd, st.bwd, blockedHidden⟩, found)
  else
    let (bwd, blockedHidden, found) := expandPlainSide sl fids now pols (reverseDirection dir) st.bwd st.fwd.visited st.blockedHidden
    (⟨st.fwd, bwd, blockedHidden⟩, found)

def connectedRounds (dir : Direction) (maxD : ℕ) : ℕ → PlainState → Bool
  | 0, _ => false
  | rds + 1, st =>
    if st.fwd.frontier.isEmpty || st.bwd.frontier.isEmpty then false
    else if maxD ≤ st.fwd.depth + st.bwd.depth then false
    else match expandSmallerPlain sl fids now pols dir st with
      | (_, true) => true
      | (st, false) => connectedRounds dir maxD rds st

def bfsIsConnected (source target : ℕ) (dir : Direction) (maxDepth : Option ℕ) : Bool :=
  connectedRounds sl fids now pols dir (maxDepth.getD u32Max) (maxDepth.getD u32Max)
    ⟨⟨[source], {source}, 0⟩, ⟨[target], {target}, 0⟩, ∅⟩

end

section
variable {sl : SourceList} {fids : Option (List ℕ)} {now : ℤ} {pols : Option PrecomputedPruneCutoffs}

def Side.plain (side : Side) : PlainSide := ⟨side.frontier, side.visited, side.depth⟩

def SearchState.plain (st : SearchState) : PlainState := ⟨st.fwd.plain, st.bwd.plain, st.blockedHidden⟩

theorem discoverIds_eq (vis blockedHidden opp : Finset ℕ) (stops : Bool) (ps : List (ℕ × NeighborRecord))
    (lay : List Candidate) : discoverIds vis blockedHidden opp stops ps (lay.map Candidate.neighbor) =
      (discover vis blockedHidden opp stops ps lay).map Candidate.neighbor := by
  induction ps generalizing lay with
  | nil => rfl
  | cons post ps ih =>
    rw [discoverIds, discover]
    by_cases hskip : post.2.nodeId ∈ vis ∨ post.2.nodeId ∈ blockedHidden ∨ post.2.nodeId ∈ lay.map Candidate.neighbor
    · have hnot : ¬(post.2.nodeId ∉ vis ∧ post.2.nodeId ∉ blockedHidden ∧ post.2.nodeId ∉ lay.map Candidate.neighbor) := by
        tauto
      rw [if_pos hskip, if_neg hnot, ih]
    · have hnew : post.2.nodeId ∉ vis ∧ post.2.nodeId ∉ blockedHidden ∧ post.2.nodeId ∉ lay.map Candidate.neighbor := by
        tauto
      have hnext := ih (lay ++ [⟨post.2.nodeId, post.1, post.2.edgeId⟩])
      rw [map_append, map_singleton] at hnext
      rw [if_neg hskip, if_pos hnew, apply_ite (List.map Candidate.neighbor), map_append, map_singleton]
      simp only [hnext]

theorem retainVisibleIds_eq (lay : List Candidate) : retainVisibleIds sl pols (lay.map Candidate.neighbor) =
    (retainVisible sl pols lay).map Candidate.neighbor := by
  cases pols with
  | none => rfl
  | some cutoffs => exact filter_map

theorem expandPlainSide_eq (dir : Direction) (own : Side) (opp blockedHidden : Finset ℕ) :
    expandPlainSide sl fids now pols dir own.plain opp blockedHidden =
      let (side, blockedHidden, meetingNode) := expandSide sl fids now pols dir own opp blockedHidden
      (side.plain, blockedHidden, meetingNode.isSome) := by
  have hfnd := discoverIds_eq own.visited blockedHidden opp pols.isNone
    (expandFrontier sl dir fids now own.frontier) []
  rw [map_nil] at hfnd
  simp only [expandPlainSide, expandSide, Side.plain, hfnd, retainVisibleIds_eq]

theorem expandSmallerPlain_eq (dir : Direction) (st : SearchState) : expandSmallerPlain sl fids now pols dir st.plain =
      ((expandSmaller sl fids now pols dir st).1.plain, (expandSmaller sl fids now pols dir st).2.isSome) := by
  have hfwd := @expandPlainSide_eq sl fids now pols dir st.fwd st.bwd.plain.visited st.blockedHidden
  have hbwd := @expandPlainSide_eq sl fids now pols (reverseDirection dir) st.bwd
    st.fwd.plain.visited st.blockedHidden
  by_cases hsm : st.fwd.frontier.length ≤ st.bwd.frontier.length
  · have hpl : st.plain.fwd.frontier.length ≤ st.plain.bwd.frontier.length := hsm
    rw [expandSmallerPlain, expandSmaller, if_pos hsm, if_pos hpl]
    simp only [SearchState.plain, hfwd]
    rfl
  · have hpl : ¬st.plain.fwd.frontier.length ≤ st.plain.bwd.frontier.length := hsm
    rw [expandSmallerPlain, expandSmaller, if_neg hsm, if_neg hpl]
    simp only [SearchState.plain, hbwd]
    rfl

theorem connectedRounds_eq (dir : Direction) (maxD rds : ℕ) (st : SearchState) :
    connectedRounds sl fids now pols dir maxD rds st.plain = (bfsRounds sl fids now pols dir maxD rds st).isSome := by
  induction rds generalizing st with
  | zero => rfl
  | succ rds ih =>
    have hstep := @expandSmallerPlain_eq sl fids now pols dir st
    rw [connectedRounds, bfsRounds, hstep]
    show (if st.fwd.frontier.isEmpty || st.bwd.frontier.isEmpty then false
      else if maxD ≤ st.fwd.depth + st.bwd.depth then false else _) = _
    split
    · rfl
    · split
      · rfl
      · obtain ⟨next, meetingNode⟩ := expandSmaller sl fids now pols dir st
        cases meetingNode with
        | none => exact ih next
        | some meeting => rfl

/-- The search without the path answers whether the other finds one. -/
theorem bfsIsConnected_eq (src tgt : ℕ) (dir : Direction) (maxDepth : Option ℕ) :
    bfsIsConnected sl fids now pols src tgt dir maxDepth = (bfsShortestPath sl fids now pols src tgt dir maxDepth).isSome :=
  connectedRounds_eq dir _ _ ⟨startSide src, startSide tgt, ∅⟩

end

end OverGraph.PathSearch
