import OverGraph.KeysetPages
import OverGraph.NodePatterns
import OverGraph.ShortestPaths

/-!
# Traversals in pages

A traversal goes out from its start layer by layer and emits the nodes of each layer in the order of their identifiers. A page
is found by the same search from the start, with the hits up to the cursor left out. Without policies and without a filter on
what is emitted every node found is passed; otherwise only nodes with a record are.
-/

namespace OverGraph.Traversals
open Records Sources SnapshotReads AdjacencyReads GraphWalks Expansion PrunePolicies LayeredWrites KeysetPages List Nat BatchLookup SourceList List.Pairwise
open NodeFilters (ResolvedNodeLabelFilter nodeLabelFilterMatches)
open NodePatterns (ResolvedNodeLabelFilter.isEmptyConstraint)
open CascadingDeletes (isLive)
open EdgeCandidates (nodeVisible)
open PathSearch (Candidate)

structure TraversalHit where
  nodeId : ℕ
  depth : ℕ
  viaEdgeId : Option ℕ
  score : Option F64
  deriving DecidableEq

structure TraversalCursor where
  depth : ℕ
  lastNodeId : ℕ
  deriving DecidableEq

structure TraversalPageResult where
  items : List TraversalHit
  nextCursor : Option TraversalCursor
  deriving DecidableEq

/-- The options after the labels are resolved. -/
structure TraverseOptions where
  minDepth : ℕ
  direction : Direction
  decayLambda : Option F64
  limit : Option ℕ
  cursor : Option TraversalCursor

/-- Neither infinite nor a NaN, and not below zero. -/
def finiteNonNegative (bits : F64) : Bool :=
  decide (bits.toNat % 2 ^ 63 < 0x7ff0000000000000) && (decide (bits.toNat < 2 ^ 63) || decide (bits.toNat % 2 ^ 63 = 0))

def traversalAfterCursor (cursor : Option TraversalCursor) (depth nodeId : ℕ) : Bool :=
  match cursor with
  | none => true
  | some cursor => match compare depth cursor.depth with
    | .gt => true
    | .lt => false
    | .eq => decide (cursor.lastNodeId < nodeId)

/-- The hits of a page so far; a page that has more takes no further hit. -/
structure PageState where
  hits : List TraversalHit
  lastEmitted : Option TraversalCursor
  hasMore : Bool

/-- A page without a limit ends at `usize::MAX` hits, which do not fit into memory. -/
def emitHit (limit : Option ℕ) (cursor : Option TraversalCursor) (page : PageState) (hit : TraversalHit) : PageState :=
  if page.hasMore || !traversalAfterCursor cursor hit.depth hit.nodeId then page
  else if limit.any (· ≤ page.hits.length) then { page with hasMore := true }
  else ⟨page.hits ++ [hit], some ⟨hit.depth, hit.nodeId⟩, false⟩

/-- The least pair of a node and an edge leads to a new node. -/
def noteCandidate (visited blockedHidden : Finset ℕ) (lay : List Candidate) (post : ℕ × NeighborRecord) : List Candidate :=
  if post.2.nodeId ∈ visited then lay
  else if post.2.nodeId ∈ lay.map Candidate.neighbor then
    lay.map fun c =>
      if c.neighbor = post.2.nodeId ∧ toLex (post.1, post.2.edgeId) < toLex (c.source, c.edgeId)
      then ⟨post.2.nodeId, post.1, post.2.edgeId⟩ else c
  else if post.2.nodeId ∈ blockedHidden then lay
  else lay ++ [⟨post.2.nodeId, post.1, post.2.edgeId⟩]

section
variable (sl : SourceList) (fids : Option (List ℕ)) (now : ℤ) (pols : Option PrecomputedPruneCutoffs)
  (emitF : ResolvedNodeLabelFilter) (scoreOf : F64 → ℕ → F64)

structure LayerClasses where
  visible : List ℕ
  emitted : List ℕ
  blockedHidden : Finset ℕ

/-- A node without a record is left out, but not blocked. -/
def classifyNode (classes : LayerClasses) (entry : ℕ × NodeVisibilityState) : LayerClasses :=
  match isLive entry.2 with
  | none => classes
  | some info =>
    if pols.any fun cutoffs => cutoffs.excludesFields info.labelIds info.updatedAt info.weight then
      { classes with blockedHidden := insert entry.1 classes.blockedHidden }
    else
      { classes with
        visible := classes.visible ++ [entry.1]
        emitted := if nodeLabelFilterMatches emitF info.labelIds then classes.emitted ++ [entry.1] else classes.emitted }

def isUnconstrained : ResolvedNodeLabelFilter → Bool
  | .unconstrained => true
  | _ => false

def classifyTraversalLayer (layerOrder : List ℕ) (blockedHidden : Finset ℕ) : LayerClasses :=
  let layerOrder := layerOrder.insertionSort (· ≤ ·)
  if pols.isNone && isUnconstrained emitF then ⟨layerOrder, layerOrder, blockedHidden⟩
  else (layerOrder.zip (sl.findNodeVisibilityMeta layerOrder)).foldl (classifyNode pols emitF) ⟨[], [], blockedHidden⟩

structure TraverseState where
  frontier : List ℕ
  visited : Finset ℕ
  blockedHidden : Finset ℕ
  depth : ℕ

def traversalScore (decayLambda : Option F64) (depth : ℕ) : Option F64 := decayLambda.map (scoreOf · depth)

def layerHits (opts : TraverseOptions) (lay : List Candidate) (depth : ℕ) (emitted : List ℕ) : List TraversalHit :=
  if opts.minDepth ≤ depth then
    emitted.map fun nodeId => ⟨nodeId, depth, (lay.find? fun c => decide (c.neighbor = nodeId)).map Candidate.edgeId,
      traversalScore scoreOf opts.decayLambda depth⟩
  else []

def traverseRounds (opts : TraverseOptions) : ℕ → TraverseState → PageState → PageState
  | 0, _, page => page
  | rds + 1, st, page =>
    if st.frontier.isEmpty then page
    else
      let lay := (expandFrontier sl opts.direction fids now st.frontier).foldl
        (noteCandidate st.visited st.blockedHidden) []
      if lay.isEmpty then page
      else
        let classes := classifyTraversalLayer sl pols emitF (lay.map Candidate.neighbor) st.blockedHidden
        let page := (layerHits scoreOf opts lay (st.depth + 1) classes.emitted).foldl (emitHit opts.limit opts.cursor) page
        if page.hasMore then page
        else traverseRounds opts rds
          ⟨classes.visible, st.visited ∪ classes.visible.toFinset, classes.blockedHidden, st.depth + 1⟩ page

def toPage (page : PageState) : TraversalPageResult := ⟨page.hits, if page.hasMore then page.lastEmitted else none⟩

def startHits (opts : TraverseOptions) (start : ℕ) (startNode : NodeRecord) : List TraversalHit :=
  if opts.minDepth = 0 ∧ nodeLabelFilterMatches emitF startNode.labelIds = true then
    [⟨start, 0, none, traversalScore scoreOf opts.decayLambda 0⟩]
  else []

def traverseWithoutEdges (opts : TraverseOptions) (start : ℕ) (startNode : NodeRecord) : TraversalPageResult :=
  if opts.limit = some 0 || decide (0 < opts.minDepth) || !traversalAfterCursor opts.cursor 0 start ||
      !nodeLabelFilterMatches emitF startNode.labelIds then ⟨[], none⟩
  else ⟨[⟨start, 0, none, traversalScore scoreOf opts.decayLambda 0⟩], none⟩

def traverseResolved (start maxDepth : ℕ) (opts : TraverseOptions) : TraversalPageResult :=
  if opts.limit = some 0 then ⟨[], none⟩
  else match sl.findNode start with
    | none => ⟨[], none⟩
    | some startNode =>
      if pols.any fun cutoffs => cutoffs.excludes startNode then ⟨[], none⟩
      else if fids.any (·.isEmpty) then traverseWithoutEdges emitF scoreOf opts start startNode
      else
        let page := (startHits emitF scoreOf opts start startNode).foldl (emitHit opts.limit opts.cursor) ⟨[], none, false⟩
        toPage (traverseRounds sl fids now pols emitF scoreOf opts maxDepth
          ⟨[start], {start}, ∅, 0⟩ page)

/-- The checks are made before the labels are looked up, and once more for the resolved traversal. -/
def traverse (start maxDepth : ℕ) (opts : TraverseOptions) : Except String TraversalPageResult :=
  if maxDepth < opts.minDepth then .error "min_depth must be <= max_depth"
  else if opts.decayLambda.any fun lambda => !finiteNonNegative lambda then .error "decay_lambda must be finite and non-negative"
  else if ResolvedNodeLabelFilter.isEmptyConstraint emitF then .ok ⟨[], none⟩
  else .ok (traverseResolved sl fids now pols emitF scoreOf start maxDepth opts)

end

section

def hitKey (hit : TraversalHit) : TraversalCursor := ⟨hit.depth, hit.nodeId⟩

/-- By depth, then by identifier. -/
def cursorCmp : TraversalCursor → TraversalCursor → Ordering :=
  compareLex (compareOn TraversalCursor.depth) (compareOn TraversalCursor.lastNodeId)

instance : Std.TransCmp cursorCmp := inferInstanceAs (Std.TransCmp (compareLex _ _))

theorem cursorCmp_lt {a b : TraversalCursor} :
    cursorCmp a b = .lt ↔ a.depth < b.depth ∨ a.depth = b.depth ∧ a.lastNodeId < b.lastNodeId := by
  rw [cursorCmp, compareLex, compareOn, compareOn, Ordering.then_eq_lt, compare_lt_iff_lt, compare_eq_iff_eq, compare_lt_iff_lt]

theorem traversalAfterCursor_some (cursor : TraversalCursor) (hit : TraversalHit) :
    traversalAfterCursor (some cursor) hit.depth hit.nodeId = (cursorCmp (hitKey hit) cursor).isGT := by
  rw [traversalAfterCursor, cursorCmp, compareLex, compareOn, compareOn, hitKey]
  cases hdep : compare hit.depth cursor.depth with
  | lt | gt => simp
  | eq =>
    cases hnode : compare hit.nodeId cursor.lastNodeId with
    | lt => simp [Nat.not_lt.mpr (le_of_lt (Nat.compare_eq_lt.mp hnode))]
    | eq => simp [Nat.compare_eq_eq.mp hnode]
    | gt => simp [Nat.compare_eq_gt.mp hnode]

variable (limit : Option ℕ) (cursor : Option TraversalCursor)

def afterCursor (hits : List TraversalHit) : List TraversalHit := hits.filter fun hit => traversalAfterCursor cursor hit.depth hit.nodeId

def upToLimit (hits : List TraversalHit) : List TraversalHit := limit.elim hits (hits.take ·)

def pageOf (hits : List TraversalHit) : PageState :=
  ⟨upToLimit limit (afterCursor cursor hits), (upToLimit limit (afterCursor cursor hits)).getLast?.map hitKey,
    limit.any (· < (afterCursor cursor hits).length)⟩

theorem emitHit_pageOf (hits : List TraversalHit) (hit : TraversalHit) :
    emitHit limit cursor (pageOf limit cursor hits) hit = pageOf limit cursor (hits ++ [hit]) := by
  have haft : afterCursor cursor (hits ++ [hit]) = afterCursor cursor hits ++
      if traversalAfterCursor cursor hit.depth hit.nodeId then [hit] else [] := by
    rw [afterCursor, filter_append, filter_cons, filter_nil]
    rfl
  rw [emitHit]
  cases hcsr : traversalAfterCursor cursor hit.depth hit.nodeId with
  | false =>
    rw [hcsr, if_neg Bool.false_ne_true, append_nil] at haft
    simp [pageOf, haft]
  | true =>
    rw [hcsr, if_pos rfl] at haft
    cases limit with
    | none => simp [pageOf, upToLimit, haft, hitKey]
    | some n =>
      by_cases hmore : n < (afterCursor cursor hits).length
      · have hlong : n ≤ (afterCursor cursor hits).length := le_of_lt hmore
        simp [pageOf, upToLimit, haft, hmore, hlong, take_append_of_le_length hlong]
      · have hall : (afterCursor cursor hits).take n = afterCursor cursor hits := take_of_length_le (by omega)
        by_cases hfull : n ≤ (afterCursor cursor hits).length
        · have hsame : n - (afterCursor cursor hits).length = 0 := by omega
          simp [pageOf, upToLimit, haft, hmore, hfull, hall, take_append, hsame]
        · obtain ⟨rest, hrest⟩ : ∃ rest, n - (afterCursor cursor hits).length = rest + 1 :=
            ⟨n - (afterCursor cursor hits).length - 1, by omega⟩
          simp [pageOf, upToLimit, haft, hmore, hfull, hall, take_append, hrest, hitKey]

theorem foldl_emitHit (before hits : List TraversalHit) :
    hits.foldl (emitHit limit cursor) (pageOf limit cursor before) = pageOf limit cursor (before ++ hits) := by
  induction hits generalizing before with
  | nil => rw [append_nil, foldl_nil]
  | cons hit hits ih => rw [foldl_cons, emitHit_pageOf, ih, append_assoc, singleton_append]

theorem foldl_emitHit_more {page : PageState} (hmore : page.hasMore = true) (hits : List TraversalHit) :
    hits.foldl (emitHit limit cursor) page = page := by
  induction hits with
  | nil => rfl
  | cons hit hits ih =>
    have hstep : emitHit limit cursor page hit = page := by rw [emitHit, hmore, Bool.true_or, if_pos rfl]
    rw [foldl_cons, hstep, ih]

end

section
variable {visited blockedHidden : Finset ℕ}

/-- What the layer holds of the postings so far: each new node once, with the least pair that leads to it. -/
structure Collected (visited blockedHidden : Finset ℕ) (postings : List (ℕ × NeighborRecord)) (lay : List Candidate) : Prop where
  nodup : (lay.map Candidate.neighbor).Nodup
  fresh : ∀ candidate ∈ lay, candidate.neighbor ∉ visited ∧ candidate.neighbor ∉ blockedHidden
  found : ∀ candidate ∈ lay, ∃ post ∈ postings, candidate = ⟨post.2.nodeId, post.1, post.2.edgeId⟩
  least : ∀ candidate ∈ lay, ∀ post ∈ postings, post.2.nodeId = candidate.neighbor →
    toLex (candidate.source, candidate.edgeId) ≤ toLex (post.1, post.2.edgeId)
  complete : ∀ post ∈ postings, post.2.nodeId ∈ visited ∨ post.2.nodeId ∈ blockedHidden ∨ post.2.nodeId ∈ lay.map Candidate.neighbor

/-- The candidate of a node gives way to a smaller pair. -/
def lowered (post : ℕ × NeighborRecord) (c : Candidate) : Candidate :=
  if c.neighbor = post.2.nodeId ∧ toLex (post.1, post.2.edgeId) < toLex (c.source, c.edgeId)
  then ⟨post.2.nodeId, post.1, post.2.edgeId⟩ else c

variable (post : ℕ × NeighborRecord)

theorem lowered_neighbor (c : Candidate) : (lowered post c).neighbor = c.neighbor := by
  rw [lowered]
  split
  · rename_i hlo
    exact hlo.1.symm
  · rfl

theorem lowered_le (c : Candidate) : toLex ((lowered post c).source, (lowered post c).edgeId) ≤ toLex (c.source, c.edgeId) := by
  rw [lowered]
  split
  · rename_i hlo
    exact le_of_lt hlo.2
  · exact le_rfl

theorem lowered_le_posting {post : ℕ × NeighborRecord} {c : Candidate} (h : post.2.nodeId = c.neighbor) :
    toLex ((lowered post c).source, (lowered post c).edgeId) ≤ toLex (post.1, post.2.edgeId) := by
  rw [lowered]
  by_cases hless : toLex (post.1, post.2.edgeId) < toLex (c.source, c.edgeId)
  · rw [if_pos ⟨h.symm, hless⟩]
  · rw [if_neg fun hlo => hless hlo.2]
    exact not_lt.mp hless

theorem map_lowered (lay : List Candidate) : (lay.map (lowered post)).map Candidate.neighbor = lay.map Candidate.neighbor := by
  rw [map_map]
  exact map_congr_left fun c _ => lowered_neighbor post c

variable {lay : List Candidate}

theorem Collected.note {ps : List (ℕ × NeighborRecord)} (h : Collected visited blockedHidden ps lay)
    (post : ℕ × NeighborRecord) :
    Collected visited blockedHidden (ps ++ [post]) (noteCandidate visited blockedHidden lay post) := by
  have hfnd : ∀ c ∈ lay, ∃ other ∈ ps ++ [post], c = ⟨other.2.nodeId, other.1, other.2.edgeId⟩ := by
    intro c hcand
    obtain ⟨other, hoth, heq⟩ := h.found c hcand
    exact ⟨other, mem_append_left _ hoth, heq⟩
  have hskip : (post.2.nodeId ∈ visited ∨ post.2.nodeId ∈ blockedHidden) → post.2.nodeId ∉ lay.map Candidate.neighbor := by
    intro hold hmem
    obtain ⟨c, hcand, heq⟩ := mem_map.mp hmem
    obtain ⟨hvis, hhid⟩ := h.fresh c hcand
    rw [heq] at hvis hhid
    exact hold.elim hvis hhid
  have hsame : (post.2.nodeId ∈ visited ∨ post.2.nodeId ∈ blockedHidden) → Collected visited blockedHidden (ps ++ [post]) lay := by
    intro hold
    refine ⟨h.nodup, h.fresh, hfnd, fun c hcand other hoth hnbr => ?_, fun other hoth => ?_⟩
    · obtain hoth | hoth := mem_append.mp hoth
      · exact h.least c hcand other hoth hnbr
      · rw [mem_singleton.mp hoth] at hnbr
        exact absurd (hnbr ▸ mem_map_of_mem hcand) (hskip hold)
    · obtain hoth | hoth := mem_append.mp hoth
      · exact h.complete other hoth
      · rw [mem_singleton.mp hoth, ← or_assoc]
        exact Or.inl hold
  rw [noteCandidate]
  split
  · rename_i hvis
    exact hsame (Or.inl hvis)
  · rename_i hvis
    split
    · rename_i hkn
      have hmap : lay.map (fun c => if c.neighbor = post.2.nodeId ∧ toLex (post.1, post.2.edgeId) < toLex (c.source, c.edgeId)
          then (⟨post.2.nodeId, post.1, post.2.edgeId⟩ : Candidate) else c) = lay.map (lowered post) := rfl
      rw [hmap]
      refine ⟨(map_lowered post lay).symm ▸ h.nodup, fun c hcand => ?_, fun c hcand => ?_,
        fun c hcand other hoth hnbr => ?_, fun other hoth => ?_⟩
      · obtain ⟨before, hbef, rfl⟩ := mem_map.mp hcand
        rw [lowered_neighbor]
        exact h.fresh before hbef
      · obtain ⟨before, hbef, rfl⟩ := mem_map.mp hcand
        rw [lowered]
        split
        · exact ⟨post, mem_append_right _ mem_cons_self, rfl⟩
        · exact hfnd before hbef
      · obtain ⟨before, hbef, rfl⟩ := mem_map.mp hcand
        rw [lowered_neighbor] at hnbr
        obtain hoth | hoth := mem_append.mp hoth
        · exact (lowered_le post before).trans (h.least before hbef other hoth hnbr)
        · rw [mem_singleton.mp hoth] at hnbr ⊢
          exact lowered_le_posting hnbr
      · rw [map_lowered]
        obtain hoth | hoth := mem_append.mp hoth
        · exact h.complete other hoth
        · rw [mem_singleton.mp hoth]
          exact Or.inr (Or.inr hkn)
    · rename_i hnew
      split
      · rename_i hhid
        exact hsame (Or.inr hhid)
      · rename_i hhid
        have hcases : ∀ c ∈ lay ++ [(⟨post.2.nodeId, post.1, post.2.edgeId⟩ : Candidate)],
            c ∈ lay ∨ c = ⟨post.2.nodeId, post.1, post.2.edgeId⟩ := by
          intro c hcand
          exact (mem_append.mp hcand).imp_right mem_singleton.mp
        refine ⟨?_, fun c hcand => ?_, fun c hcand => ?_, fun c hcand other hoth hnbr => ?_, fun other hoth => ?_⟩
        · rw [map_append, map_singleton]
          exact h.nodup.append (nodup_singleton _) (disjoint_singleton.mpr hnew)
        · obtain hcand | rfl := hcases c hcand
          · exact h.fresh c hcand
          · exact ⟨hvis, hhid⟩
        · obtain hcand | rfl := hcases c hcand
          · exact hfnd c hcand
          · exact ⟨post, mem_append_right _ mem_cons_self, rfl⟩
        · obtain hcand | rfl := hcases c hcand
          · obtain hoth | hoth := mem_append.mp hoth
            · exact h.least c hcand other hoth hnbr
            · rw [mem_singleton.mp hoth] at hnbr
              exact absurd (hnbr ▸ mem_map_of_mem hcand) hnew
          · obtain hoth | hoth := mem_append.mp hoth
            · have hsameNode : other.2.nodeId = post.2.nodeId := hnbr
              have hcomp := h.complete other hoth
              rw [hsameNode] at hcomp
              tauto
            · rw [mem_singleton.mp hoth]
        · rw [map_append, mem_append]
          obtain hoth | hoth := mem_append.mp hoth
          · obtain hold | hold | hold := h.complete other hoth
            · exact Or.inl hold
            · exact Or.inr (Or.inl hold)
            · exact Or.inr (Or.inr (Or.inl hold))
          · rw [mem_singleton.mp hoth]
            exact Or.inr (Or.inr (Or.inr mem_cons_self))

theorem collected_foldl {seen : List (ℕ × NeighborRecord)} (ps : List (ℕ × NeighborRecord))
    (h : Collected visited blockedHidden seen lay) :
    Collected visited blockedHidden (seen ++ ps) (ps.foldl (noteCandidate visited blockedHidden) lay) := by
  induction ps generalizing seen lay with
  | nil => rwa [append_nil]
  | cons post ps ih =>
    rw [append_cons]
    exact ih (h.note post)

theorem collected_layer (visited blockedHidden : Finset ℕ) (ps : List (ℕ × NeighborRecord)) :
    Collected visited blockedHidden ps (ps.foldl (noteCandidate visited blockedHidden) []) := by
  have hemp : Collected visited blockedHidden [] [] := by refine ⟨nodup_nil, ?_, ?_, ?_, ?_⟩ <;> exact fun _ hnil => absurd hnil not_mem_nil
  exact collected_foldl ps hemp

end

section
variable (sl : SourceList) (pols : Option PrecomputedPruneCutoffs) (emitF : ResolvedNodeLabelFilter)

/-- Without policies and without a filter every node is passed, otherwise those that are seen to be visible. -/
def crossable (nodeId : ℕ) : Bool := (pols.isNone && isUnconstrained emitF) || nodeVisible sl pols nodeId

/-- A filter matches the record of a node. -/
def matching (nodeId : ℕ) : Bool := isUnconstrained emitF || (sl.findNode nodeId).any fun node => nodeLabelFilterMatches emitF node.labelIds

variable {sl pols emitF}

theorem isLive_findNode (h : sl.WellFormed) (nodeId : ℕ) :
    isLive (shown .missing (visibilityOpinion (firstOpinion sl.nodeLayers nodeId))) =
      (sl.findNode nodeId).map visibilityMeta := by
  rw [h.findNode, visible]
  rcases firstOpinion sl.nodeLayers nodeId with - | (- | node) <;> rfl

theorem matching_some {nodeId : ℕ} {node : NodeRecord} (hfind : sl.findNode nodeId = some node) :
    matching sl emitF nodeId = nodeLabelFilterMatches emitF node.labelIds := by
  rw [matching, hfind]
  cases emitF <;> rfl

theorem crossable_full (hfull : (pols.isNone && isUnconstrained emitF) = false) (nodeId : ℕ) : crossable sl pols emitF nodeId =
      (sl.findNode nodeId).any fun node => !pols.any fun cutoffs => cutoffs.excludes node := by
  rw [crossable, hfull, Bool.false_or, nodeVisible]

section
variable (h : sl.WellFormed) (hfull : (pols.isNone && isUnconstrained emitF) = false)
include h hfull

theorem classifyNode_spec (nodeId : ℕ) (classes : LayerClasses) :
    let res := classifyNode pols emitF classes (nodeId, shown .missing
      (visibilityOpinion (firstOpinion sl.nodeLayers nodeId)))
    res.visible = classes.visible ++ [nodeId].filter (crossable sl pols emitF) ∧
      res.emitted = classes.emitted ++ [nodeId].filter (fun nodeId => crossable sl pols emitF nodeId &&
        matching sl emitF nodeId) ∧
      ∀ v ∈ res.blockedHidden, v ∈ classes.blockedHidden ∨ crossable sl pols emitF v = false := by
  have hx := @crossable_full sl pols emitF hfull nodeId
  rw [classifyNode, isLive_findNode h]
  cases hfind : sl.findNode nodeId with
  | none =>
    rw [hfind] at hx
    have hnot : crossable sl pols emitF nodeId = false := hx
    exact ⟨by simp [hnot], by simp [hnot], fun v hv => Or.inl hv⟩
  | some node =>
    rw [hfind] at hx
    have hm' := @matching_some sl emitF nodeId node hfind
    by_cases hexc : (pols.any fun cutoffs => cutoffs.excludes node) = true
    · have hnot : crossable sl pols emitF nodeId = false := by simp [hx, hexc]
      have hflds : (pols.any fun cutoffs => cutoffs.excludesFields (visibilityMeta node).labelIds
          (visibilityMeta node).updatedAt (visibilityMeta node).weight) = true := hexc
      simp only [Option.map_some, hflds, if_true, filter_cons, hnot, Bool.false_and, Bool.false_eq_true, if_false,
        filter_nil, append_nil, true_and]
      intro v hv
      obtain rfl | hv := Finset.mem_insert.mp hv
      · exact Or.inr hnot
      · exact Or.inl hv
    · have hyes : crossable sl pols emitF nodeId = true := by simp [hx, hexc]
      have hflds : (pols.any fun cutoffs => cutoffs.excludesFields (visibilityMeta node).labelIds
          (visibilityMeta node).updatedAt (visibilityMeta node).weight) = false := Bool.eq_false_iff.mpr hexc
      have hlabs : matching sl emitF nodeId = nodeLabelFilterMatches emitF (visibilityMeta node).labelIds := hm'
      simp only [Option.map_some, hflds, Bool.false_eq_true, if_false, filter_cons, hyes, hlabs, Bool.true_and, if_true, filter_nil]
      refine ⟨trivial, ?_, fun v hv => Or.inl hv⟩
      split <;> simp

theorem foldl_classifyNode (nodeIds : List ℕ) (classes : LayerClasses) :
    let res := (nodeIds.map fun nodeId => (nodeId, shown .missing
      (visibilityOpinion (firstOpinion sl.nodeLayers nodeId)))).foldl (classifyNode pols emitF) classes
    res.visible = classes.visible ++ nodeIds.filter (crossable sl pols emitF) ∧
      res.emitted = classes.emitted ++ nodeIds.filter (fun nodeId => crossable sl pols emitF nodeId &&
        matching sl emitF nodeId) ∧
      ∀ v ∈ res.blockedHidden, v ∈ classes.blockedHidden ∨ crossable sl pols emitF v = false := by
  induction nodeIds generalizing classes with
  | nil => exact ⟨(append_nil _).symm, (append_nil _).symm, fun _ hv => Or.inl hv⟩
  | cons nodeId nodeIds ih =>
    obtain ⟨hfst, hfirstEmitted, hfirstBlocked⟩ := classifyNode_spec h hfull nodeId classes
    obtain ⟨hvis, hemit, hblk⟩ := ih (classifyNode pols emitF classes (nodeId,
      shown .missing (visibilityOpinion (firstOpinion sl.nodeLayers nodeId))))
    rw [← singleton_append, map_append, map_singleton, foldl_append, foldl_cons, foldl_nil]
    refine ⟨?_, ?_, fun v hv => (hblk v hv).elim (hfirstBlocked v) Or.inr⟩
    · rw [filter_append, ← append_assoc, ← hfst]
      exact hvis
    · rw [filter_append, ← append_assoc, ← hfirstEmitted]
      exact hemit

end

theorem classifyTraversalLayer_spec (h : sl.WellFormed) (layerOrder : List ℕ) (blockedHidden : Finset ℕ) :
    let res := classifyTraversalLayer sl pols emitF layerOrder blockedHidden
    res.visible = (layerOrder.insertionSort (· ≤ ·)).filter (crossable sl pols emitF) ∧
      res.emitted = (layerOrder.insertionSort (· ≤ ·)).filter (fun nodeId => crossable sl pols emitF nodeId &&
        matching sl emitF nodeId) ∧
      ∀ v ∈ res.blockedHidden, v ∈ blockedHidden ∨ crossable sl pols emitF v = false := by
  rw [classifyTraversalLayer]
  by_cases hpl : (pols.isNone && isUnconstrained emitF) = true
  · have hall : ∀ nodeId, crossable sl pols emitF nodeId = true := fun nodeId => by
      rw [crossable, hpl, Bool.true_or]
    have hm' : ∀ nodeId, matching sl emitF nodeId = true := fun nodeId => by rw [matching, ((Bool.and_eq_true _ _).mp hpl).2, Bool.true_or]
    rw [if_pos hpl]
    refine ⟨?_, ?_, fun v hv => Or.inl hv⟩
    · exact (filter_eq_self.mpr fun nodeId _ => hall nodeId).symm
    · exact (filter_eq_self.mpr fun nodeId _ => by rw [hall, hm']; rfl).symm
  · rw [if_neg hpl, h.findNodeVisibilityMeta, ← map_prod_left_eq_zip]
    exact foldl_classifyNode h (Bool.eq_false_iff.mpr hpl) _ _

end

section
variable (sl : SourceList) (fids : Option (List ℕ)) (now : ℤ) (pols : Option PrecomputedPruneCutoffs)
  (emitF : ResolvedNodeLabelFilter) (scoreOf : F64 → ℕ → F64)

/-- The hits that the rounds would emit if no page ended. -/
def roundHits (opts : TraverseOptions) : ℕ → TraverseState → List TraversalHit
  | 0, _ => []
  | rds + 1, st =>
    if st.frontier.isEmpty then []
    else
      let lay := (expandFrontier sl opts.direction fids now st.frontier).foldl
        (noteCandidate st.visited st.blockedHidden) []
      if lay.isEmpty then []
      else
        let classes := classifyTraversalLayer sl pols emitF (lay.map Candidate.neighbor) st.blockedHidden
        layerHits scoreOf opts lay (st.depth + 1) classes.emitted ++ roundHits opts rds
          ⟨classes.visible, st.visited ∪ classes.visible.toFinset, classes.blockedHidden, st.depth + 1⟩

/-- The rounds stop at the end of a page, but the page is that of all hits. -/
theorem traverseRounds_eq (opts : TraverseOptions) (rds : ℕ) (st : TraverseState) (page : PageState) (hopen : page.hasMore = false) :
    traverseRounds sl fids now pols emitF scoreOf opts rds st page = (roundHits sl fids now pols emitF scoreOf opts rds st).foldl
        (emitHit opts.limit opts.cursor) page := by
  induction rds generalizing st page with
  | zero => rfl
  | succ rds ih =>
    rw [traverseRounds, roundHits]
    split
    · rfl
    · dsimp only
      split
      · rfl
      · rw [foldl_append]
        split
        · rename_i hmore
          rw [foldl_emitHit_more _ _ hmore]
        · rename_i hmore
          exact ih _ _ (Bool.eq_false_iff.mpr hmore)

/-- An arc of the traversal leads to a node that can be passed. -/
def TraverseArc (dir : Direction) (source edgeId nbr : ℕ) : Prop :=
  Linked sl dir fids now source edgeId nbr ∧ crossable sl pols emitF nbr = true

end

/-- The least pair of a node at a distance and an edge that leads on. -/
def ViaLink (arc : ℕ → ℕ → ℕ → Prop) (root k nodeId source edgeId : ℕ) : Prop :=
  Nearest arc k root source ∧ arc source edgeId nodeId ∧
    ∀ source' edgeId', Nearest arc k root source' → arc source' edgeId' nodeId → toLex (source, edgeId) ≤ toLex (source', edgeId')

/-- What a traversal should return: a node at its distance, with the edge of the least pair that leads to it. -/
structure IsHit (arc : ℕ → ℕ → ℕ → Prop) (root minDepth : ℕ) (matches' : ℕ → Bool) (score : ℕ → Option F64) (hit : TraversalHit) :
    Prop where
  deep : minDepth ≤ hit.depth
  nearest : Nearest arc hit.depth root hit.nodeId
  emitted : matches' hit.nodeId = true
  via : match hit.depth with
    | 0 => hit.viaEdgeId = none
    | k + 1 => ∃ source edgeId, hit.viaEdgeId = some edgeId ∧ ViaLink arc root k hit.nodeId source edgeId
  score : hit.score = score hit.depth

/-- The hits at the depths of a range, in order. -/
structure HitsWithin (arc : ℕ → ℕ → ℕ → Prop) (root minDepth : ℕ) (matches' : ℕ → Bool) (score : ℕ → Option F64) (above upTo : ℕ)
    (hits : List TraversalHit) : Prop where
  sorted : hits.Pairwise fun a b => cursorCmp (hitKey a) (hitKey b) = .lt
  mem : ∀ hit, hit ∈ hits ↔ above < hit.depth ∧ hit.depth ≤ upTo ∧ IsHit arc root minDepth matches' score hit

variable {arc : ℕ → ℕ → ℕ → Prop}

theorem ViaLink.unique {root k nodeId src edgeId source' edgeId' : ℕ}
    (h : ViaLink arc root k nodeId src edgeId) (h' : ViaLink arc root k nodeId source' edgeId') : src = source' ∧ edgeId = edgeId' := by
  have heq := le_antisymm (h.2.2 source' edgeId' h'.1 h'.2.1) (h'.2.2 src edgeId h.1 h.2.1)
  exact Prod.mk.inj heq

section
variable {arc : ℕ → ℕ → ℕ → Prop} {root minDepth : ℕ} {matches' : ℕ → Bool} {score : ℕ → Option F64} {low middle high : ℕ}

theorem HitsWithin.append {fst snd : List TraversalHit} (h : HitsWithin arc root minDepth matches' score low middle fst)
    (h' : HitsWithin arc root minDepth matches' score middle high snd) (hlow : low ≤ middle) (hhigh : middle ≤ high) :
    HitsWithin arc root minDepth matches' score low high (fst ++ snd) := by
  refine ⟨pairwise_append.mpr ⟨h.sorted, h'.sorted, fun a ha b hb => ?_⟩, fun hit => ?_⟩
  · obtain ⟨-, hle, -⟩ := (h.mem a).mp ha
    obtain ⟨hlt, -⟩ := (h'.mem b).mp hb
    exact cursorCmp_lt.mpr (Or.inl (hle.trans_lt hlt))
  · rw [mem_append, h.mem, h'.mem]
    constructor
    · rintro (⟨hl, hu, hhit⟩ | ⟨hl, hu, hhit⟩)
      · exact ⟨hl, hu.trans hhigh, hhit⟩
      · exact ⟨hlow.trans_lt hl, hu, hhit⟩
    · rintro ⟨hl, hu, hhit⟩
      obtain hle | hlt := le_or_gt hit.depth middle
      · exact Or.inl ⟨hl, hle, hhit⟩
      · exact Or.inr ⟨hlt, hu, hhit⟩

theorem hitsWithin_nil {visited : ℕ → Prop} (hball : Ball arc root low visited []) :
    HitsWithin arc root minDepth matches' score low high [] := by
  refine ⟨nil, fun hit => ⟨fun hnil => absurd hnil not_mem_nil, ?_⟩⟩
  rintro ⟨hlow, -, hhit⟩
  obtain ⟨i, hi, hops⟩ := (hball.visited _).mp (hball.exhausted hhit.nearest.1)
  exact absurd hops (hhit.nearest.2 i (by omega))

end

section
variable {sl : SourceList} {fids : Option (List ℕ)} {now : ℤ} {pols : Option PrecomputedPruneCutoffs}
  {emitF : ResolvedNodeLabelFilter} {dir : Direction} {start : ℕ} {st : TraverseState}

/-- The search has visited a ball around the start, and has blocked nodes only that cannot be passed. -/
structure Around (sl : SourceList) (pols : Option PrecomputedPruneCutoffs) (emitF : ResolvedNodeLabelFilter)
    (arc : ℕ → ℕ → ℕ → Prop) (start : ℕ) (st : TraverseState) : Prop where
  ball : Ball arc start st.depth (· ∈ st.visited) st.frontier
  blocked : ∀ v ∈ st.blockedHidden, crossable sl pols emitF v = false

variable (sl fids now dir st) in
def nextLayer : List Candidate := (expandFrontier sl dir fids now st.frontier).foldl (noteCandidate st.visited st.blockedHidden) []

variable (h : Stored sl)
  (haround : Around sl pols emitF (TraverseArc sl fids now pols emitF dir) start st)
include h haround

/-- A node of the layer that can be passed is found by the least pair that leads to it. -/
theorem viaLink_of_nextLayer {c : Candidate} (hcand : c ∈ nextLayer sl fids now dir st)
    (hx : crossable sl pols emitF c.neighbor = true) :
    c.neighbor ∉ st.visited ∧ c.source ∈ st.frontier ∧ ViaLink (TraverseArc sl fids now pols emitF dir) start st.depth c.neighbor
        c.source c.edgeId := by
  have hlay := collected_layer st.visited st.blockedHidden (expandFrontier sl dir fids now st.frontier)
  obtain ⟨post, hpost, heq⟩ := hlay.found c hcand
  have hfr := (hlay.fresh c hcand).1
  have hlst := hlay.least c hcand
  obtain ⟨hsrc, hfnd, hvd⟩ := (mem_expandFrontier h).mp hpost
  subst heq
  refine ⟨hfr, hsrc, (haround.ball.frontier _).mp hsrc, ⟨⟨post.2, hfnd, rfl, hvd⟩, hx⟩, ?_⟩
  rintro src edgeId hnear ⟨⟨r, hlink, hnode, hrec⟩, -⟩
  have hid : r.edgeId = edgeId := linkFound_edgeId h hlink
  have hoth : (src, r) ∈ expandFrontier sl dir fids now st.frontier :=
    (mem_expandFrontier h).mpr ⟨(haround.ball.frontier src).mpr hnear, hid.symm ▸ hlink, hrec⟩
  have hle := hlst _ hoth hnode
  rwa [hid] at hle

/-- The nodes of the layer that can be passed are those that are new. -/
theorem mem_visible {v : ℕ} : (v ∈ (nextLayer sl fids now dir st).map Candidate.neighbor ∧ crossable sl pols emitF v = true) ↔
      v ∉ st.visited ∧ ∃ s ∈ st.frontier, ∃ e,
        TraverseArc sl fids now pols emitF dir s e v := by
  constructor
  · rintro ⟨hv, hx⟩
    obtain ⟨c, hcand, rfl⟩ := mem_map.mp hv
    obtain ⟨hnew, hsrc, -, harc, -⟩ := viaLink_of_nextLayer h haround hcand hx
    exact ⟨hnew, _, hsrc, _, harc⟩
  · rintro ⟨hnew, s, hs, e, ⟨r, hlink, rfl, hvd⟩, hx⟩
    have hlay := collected_layer st.visited st.blockedHidden (expandFrontier sl dir fids now st.frontier)
    have hid : r.edgeId = e := linkFound_edgeId h hlink
    have hpost : (s, r) ∈ expandFrontier sl dir fids now st.frontier := (mem_expandFrontier h).mpr ⟨hs, hid.symm ▸ hlink, hvd⟩
    obtain hold | hold | hmem := hlay.complete _ hpost
    · exact absurd hold hnew
    · rw [haround.blocked _ hold] at hx
      cases hx
    · exact ⟨hmem, hx⟩

theorem hitsWithin_layerHits (scoreOf : F64 → ℕ → F64) (opts : TraverseOptions) :
    HitsWithin (TraverseArc sl fids now pols emitF dir) start opts.minDepth
      (matching sl emitF) (traversalScore scoreOf opts.decayLambda) st.depth (st.depth + 1)
      (layerHits scoreOf opts (nextLayer sl fids now dir st) (st.depth + 1)
        (((nextLayer sl fids now dir st).map Candidate.neighbor).insertionSort (· ≤ ·) |>.filter
          fun nodeId => crossable sl pols emitF nodeId && matching sl emitF nodeId)) := by
  have hlay := collected_layer st.visited st.blockedHidden (expandFrontier sl dir fids now st.frontier)
  have hasc : (((nextLayer sl fids now dir st).map Candidate.neighbor).insertionSort (· ≤ ·)).Pairwise (· < ·) :=
    @GroupedLists.strict_sort ℕ ℕ _ id _ (by rw [map_id]; exact hlay.nodup)
  have hgrown : ∀ v, Nearest (TraverseArc sl fids now pols emitF dir) (st.depth + 1) start v ↔
      v ∈ (nextLayer sl fids now dir st).map Candidate.neighbor ∧ crossable sl pols emitF v = true := by
    intro v
    rw [mem_visible h haround]
    constructor
    · intro hnear
      refine ⟨fun hold => ?_, ?_⟩
      · obtain ⟨i, hi, hops⟩ := (haround.ball.visited v).mp hold
        exact hnear.2 i (by omega) hops
      · obtain ⟨s, hs, e, harc⟩ := hnear.pred
        exact ⟨s, (haround.ball.frontier s).mpr hs, e, harc⟩
    · rintro ⟨hnew, s, hs, e, harc⟩
      exact haround.ball.nearest_of_new hnew hs harc
  have hvia : ∀ v, v ∈ (nextLayer sl fids now dir st).map Candidate.neighbor → crossable sl pols emitF v = true → ∃ src edgeId,
        ((nextLayer sl fids now dir st).find? fun c => decide (c.neighbor = v)).map
          Candidate.edgeId = some edgeId ∧
        ViaLink (TraverseArc sl fids now pols emitF dir) start st.depth v src edgeId := by
    intro v hv hx
    obtain ⟨c, hcand, rfl⟩ := mem_map.mp hv
    refine ⟨c.source, c.edgeId, ?_, (viaLink_of_nextLayer h haround hcand hx).2.2⟩
    have hfind : (nextLayer sl fids now dir st).find?
        (fun other => decide (other.neighbor = c.neighbor)) = some c :=
      PathSearch.find_candidate hlay.nodup hcand
    rw [hfind]
    rfl
  rw [layerHits]
  split
  · rename_i hdeep
    refine ⟨?_, fun hit => ?_⟩
    · rw [pairwise_map]
      refine (hasc.filter _).imp ?_
      intro a b hless
      exact cursorCmp_lt.mpr (Or.inr ⟨rfl, hless⟩)
    · rw [mem_map]
      constructor
      · rintro ⟨v, hv, rfl⟩
        obtain ⟨hmem, hkept⟩ := mem_filter.mp hv
        obtain ⟨hx, hm'⟩ := (Bool.and_eq_true _ _).mp hkept
        have hlaye := (perm_insertionSort _ _).mem_iff.mp hmem
        exact ⟨lt_succ_self _, le_rfl, hdeep, (hgrown v).mpr ⟨hlaye, hx⟩, hm', hvia v hlaye hx, rfl⟩
      · rintro ⟨hlow, hhigh, hhit⟩
        obtain ⟨nodeId, depth, viaEdgeId, score⟩ := hit
        obtain rfl : depth = st.depth + 1 := by
          simp only at hlow hhigh
          omega
        obtain ⟨hmem, hx⟩ := (hgrown nodeId).mp hhit.nearest
        refine ⟨nodeId, mem_filter.mpr ⟨(perm_insertionSort _ _).mem_iff.mpr hmem, ?_⟩, ?_⟩
        · rw [hx, Bool.true_and]
          exact hhit.emitted
        · obtain ⟨src, edgeId, hfnd, hlink⟩ := hvia nodeId hmem hx
          obtain ⟨source', edgeId', hvia', hlink'⟩ := hhit.via
          simp only at hvia' hlink'
          obtain ⟨-, rfl⟩ := hlink.unique hlink'
          rw [hfnd, hvia', TraversalHit.mk.injEq]
          exact ⟨rfl, rfl, rfl, hhit.score.symm⟩
  · rename_i hshal
    refine ⟨nil, fun hit => ⟨fun hnil => absurd hnil not_mem_nil, ?_⟩⟩
    rintro ⟨hlow, hhigh, hhit⟩
    have hdeep := hhit.deep
    omega

end

section
variable {sl : SourceList} {fids : Option (List ℕ)} {now : ℤ} {pols : Option PrecomputedPruneCutoffs}
  {emitF : ResolvedNodeLabelFilter} {start : ℕ} {scoreOf : F64 → ℕ → F64} {opts : TraverseOptions}

/-- Each round adds the hits of one depth, and the search stays around the start. -/
theorem hitsWithin_roundHits (h : Stored sl) (rds : ℕ) {st : TraverseState} (haround : Around sl pols emitF
      (TraverseArc sl fids now pols emitF opts.direction) start st) :
    HitsWithin (TraverseArc sl fids now pols emitF opts.direction) start opts.minDepth
      (matching sl emitF) (traversalScore scoreOf opts.decayLambda) st.depth (st.depth + rds)
      (roundHits sl fids now pols emitF scoreOf opts rds st) := by
  induction rds generalizing st with
  | zero =>
    refine ⟨nil, fun hit => ⟨fun hnil => absurd hnil not_mem_nil, ?_⟩⟩
    rintro ⟨hlow, hhigh, -⟩
    omega
  | succ rds ih =>
    rw [roundHits]
    split
    · rename_i hemp
      have hball := haround.ball
      rw [isEmpty_iff.mp hemp] at hball
      exact hitsWithin_nil hball
    · change HitsWithin _ _ _ _ _ _ _ (if (nextLayer sl fids now opts.direction st).isEmpty then []
        else layerHits scoreOf opts (nextLayer sl fids now opts.direction st) (st.depth + 1)
          (classifyTraversalLayer sl pols emitF
            ((nextLayer sl fids now opts.direction st).map Candidate.neighbor) st.blockedHidden).emitted ++ _)
      obtain ⟨hvis, hemit, hblk⟩ := @classifyTraversalLayer_spec sl pols emitF h.wellFormed
        ((nextLayer sl fids now opts.direction st).map Candidate.neighbor) st.blockedHidden
      have hnext : ∀ v, v ∈ (classifyTraversalLayer sl pols emitF
          ((nextLayer sl fids now opts.direction st).map Candidate.neighbor) st.blockedHidden).visible ↔
          v ∉ st.visited ∧ ∃ s ∈ st.frontier, ∃ e,
            TraverseArc sl fids now pols emitF opts.direction s e v := by
        intro v
        rw [hvis, mem_filter, (perm_insertionSort _ _).mem_iff, mem_visible h haround]
      have hgrown := haround.ball.grow hnext
      split
      · rename_i hemp
        have hnil : (classifyTraversalLayer sl pols emitF
            ((nextLayer sl fids now opts.direction st).map Candidate.neighbor) st.blockedHidden).visible = [] := by
          rw [hvis, isEmpty_iff.mp hemp]
          rfl
        rw [hnil] at hgrown
        have hfst := hitsWithin_layerHits h haround scoreOf opts
        have hnone : ∀ lay, layerHits scoreOf opts lay (st.depth + 1) [] = [] := fun lay => by
          rw [layerHits]
          split <;> rfl
        rw [isEmpty_iff.mp hemp, map_nil, insertionSort_nil, filter_nil, hnone] at hfst
        exact hfst.append (hitsWithin_nil hgrown) (le_succ _) (by omega)
      · rw [hemit]
        have hfst := hitsWithin_layerHits h haround scoreOf opts
        have hstep : Around sl pols emitF
            (TraverseArc sl fids now pols emitF opts.direction) start
            ⟨(classifyTraversalLayer sl pols emitF
                ((nextLayer sl fids now opts.direction st).map Candidate.neighbor) st.blockedHidden).visible,
              st.visited ∪ (classifyTraversalLayer sl pols emitF
                ((nextLayer sl fids now opts.direction st).map Candidate.neighbor) st.blockedHidden).visible.toFinset,
              (classifyTraversalLayer sl pols emitF
                ((nextLayer sl fids now opts.direction st).map Candidate.neighbor) st.blockedHidden).blockedHidden,
              st.depth + 1⟩ := by
          refine ⟨⟨fun v => ?_, hgrown.frontier⟩, fun v hv => ?_⟩
          · exact Finset.mem_union.trans ((or_congr_right mem_toFinset).trans (hgrown.visited v))
          · exact (hblk v hv).elim (haround.blocked v) id
        have hrest := ih hstep
        rw [add_assoc, add_comm 1 rds] at hrest
        exact hfst.append hrest (le_succ _) (by omega)

theorem around_start (arc : ℕ → ℕ → ℕ → Prop) : Around sl pols emitF arc start ⟨[start], {start}, ∅, 0⟩ := by
  have hball := ball_start arc start
  refine ⟨⟨fun v => ?_, hball.frontier⟩, fun v hv => absurd hv (Finset.notMem_empty v)⟩
  exact Finset.mem_singleton.trans (hball.visited v)

end

section
variable (sl : SourceList) (fids : Option (List ℕ)) (now : ℤ) (pols : Option PrecomputedPruneCutoffs)
  (emitF : ResolvedNodeLabelFilter) (scoreOf : F64 → ℕ → F64) (start maxDepth : ℕ) (opts : TraverseOptions)

/-- All that a traversal has to return, over all its pages. -/
def allHits : List TraversalHit :=
  match sl.findNode start with
  | none => []
  | some startNode =>
    if pols.any fun cutoffs => cutoffs.excludes startNode then []
    else startHits emitF scoreOf opts start startNode ++ roundHits sl fids now pols emitF scoreOf opts maxDepth ⟨[start], {start}, ∅, 0⟩

variable {sl fids now pols emitF scoreOf start maxDepth opts}

theorem not_linked_of_empty {dir : Direction} {src edgeId nbr : ℕ} : ¬Linked sl dir (some []) now src edgeId nbr := by
  rintro ⟨r, hfnd, -⟩
  exact not_found_of_empty (neighborFound_of_linkFound hfnd)

theorem roundHits_of_empty (h : Stored sl) : roundHits sl (some []) now pols emitF scoreOf opts maxDepth ⟨[start], {start}, ∅, 0⟩ = [] := by
  have hwi := @hitsWithin_roundHits sl (some []) now pols emitF start scoreOf opts h maxDepth
    ⟨[start], {start}, ∅, 0⟩ (around_start _)
  rw [eq_nil_iff_forall_not_mem]
  intro hit hmem
  obtain ⟨hlow, -, hhit⟩ := (hwi.mem hit).mp hmem
  obtain ⟨k, hk⟩ : ∃ k, hit.depth = k + 1 := ⟨hit.depth - 1, by simp only at hlow; omega⟩
  have hnear := hhit.nearest
  rw [hk] at hnear
  obtain ⟨s, -, e, hlinked, -⟩ := hnear.pred
  exact not_linked_of_empty hlinked

theorem traverseWithoutEdges_eq (hlim : opts.limit ≠ some 0) (startNode : NodeRecord) :
    traverseWithoutEdges emitF scoreOf opts start startNode =
      toPage (pageOf opts.limit opts.cursor (startHits emitF scoreOf opts start startNode)) := by
  rw [traverseWithoutEdges, startHits]
  by_cases hst : opts.minDepth = 0 ∧ nodeLabelFilterMatches emitF startNode.labelIds = true
  · rw [if_pos hst]
    cases haft : traversalAfterCursor opts.cursor 0 start with
    | false => cases hlimits : opts.limit <;> simp [toPage, pageOf, upToLimit, afterCursor, haft]
    | true =>
      cases hlimits : opts.limit with
      | none => simp [toPage, pageOf, upToLimit, afterCursor, haft, hst]
      | some n =>
        obtain ⟨m, rfl⟩ : ∃ m, n = m + 1 := ⟨n - 1, by have hpos : n ≠ 0 := fun hzero => hlim (hzero ▸ hlimits); omega⟩
        simp [toPage, pageOf, upToLimit, afterCursor, haft, hst]
  · have hskip : (decide (0 < opts.minDepth) || !nodeLabelFilterMatches emitF startNode.labelIds) = true := by
      rw [Bool.or_eq_true, decide_eq_true_eq, Bool.not_eq_true', Bool.eq_false_iff]
      by_contra hnot
      rw [not_or, not_not, pos_iff_ne_zero, not_not] at hnot
      exact hst hnot
    have hout : (decide (opts.limit = some 0) || decide (0 < opts.minDepth) || !traversalAfterCursor opts.cursor 0 start ||
        !nodeLabelFilterMatches emitF startNode.labelIds) = true := by
      rw [Bool.or_eq_true] at hskip
      obtain hdeep | hfil := hskip
      · rw [hdeep, Bool.or_true, Bool.true_or, Bool.true_or]
      · rw [hfil, Bool.or_true]
    rw [if_neg hst, if_pos hout]
    cases hlimits : opts.limit <;> simp [toPage, pageOf, upToLimit, afterCursor]

theorem traverseResolved_eq (h : Stored sl) (hlim : opts.limit ≠ some 0) :
    traverseResolved sl fids now pols emitF scoreOf start maxDepth opts = toPage (pageOf opts.limit opts.cursor
        (allHits sl fids now pols emitF scoreOf start maxDepth opts)) := by
  have hemp : toPage (pageOf opts.limit opts.cursor []) = ⟨[], none⟩ := by
    cases hlimits : opts.limit with
    | none => rfl
    | some n => simp [toPage, pageOf, upToLimit, afterCursor]
  rw [traverseResolved, if_neg hlim, allHits]
  cases hfind : sl.findNode start with
  | none => exact hemp.symm
  | some startNode =>
    dsimp only
    split
    · exact hemp.symm
    · split
      · rename_i hnola
        obtain rfl : fids = some [] := by
          cases fids with
          | none => cases hnola
          | some labelIds => rw [isEmpty_iff.mp hnola]
        rw [roundHits_of_empty h, append_nil]
        exact traverseWithoutEdges_eq hlim startNode
      · have hst : (startHits emitF scoreOf opts start startNode).foldl (emitHit opts.limit opts.cursor) ⟨[], none, false⟩ =
            pageOf opts.limit opts.cursor (startHits emitF scoreOf opts start startNode) := by
          have hnil : pageOf opts.limit opts.cursor [] = ⟨[], none, false⟩ := by
            cases hlimits : opts.limit <;> simp [pageOf, upToLimit, afterCursor]
          rw [← hnil, foldl_emitHit, nil_append]
        have hopen : (pageOf opts.limit opts.cursor (startHits emitF scoreOf opts start startNode)).hasMore = false := by
          have hone : (afterCursor opts.cursor (startHits emitF scoreOf opts start startNode)).length ≤ 1 := by
            refine (length_filter_le _ _).trans ?_
            rw [startHits]
            split <;> simp
          cases hlimits : opts.limit with
          | none => rfl
          | some n =>
            have hpos : n ≠ 0 := fun hzero => hlim (hzero ▸ hlimits)
            simp only [pageOf, Option.any_some, decide_eq_false_iff_not]
            omega
        rw [hst, traverseRounds_eq _ _ _ _ _ _ _ _ _ _ hopen, foldl_emitHit]

/-- The hits are in order, and are what a traversal should return. -/
structure HitsUpTo (arc : ℕ → ℕ → ℕ → Prop) (root minDepth : ℕ) (matches' : ℕ → Bool) (score : ℕ → Option F64) (maxDepth : ℕ)
    (shown : Prop) (hits : List TraversalHit) : Prop where
  sorted : hits.Pairwise fun a b => cursorCmp (hitKey a) (hitKey b) = .lt
  mem : ∀ hit, hit ∈ hits ↔ shown ∧ hit.depth ≤ maxDepth ∧ IsHit arc root minDepth matches' score hit

theorem nodeVisible_some {startNode : NodeRecord} (hfind : sl.findNode start = some startNode) :
    nodeVisible sl pols start = true ↔ ¬(pols.any fun cutoffs => cutoffs.excludes startNode) = true := by
  rw [nodeVisible, hfind, Option.any_some, Bool.not_eq_true', Bool.not_eq_true]

theorem allHits_spec (h : Stored sl) : HitsUpTo (TraverseArc sl fids now pols emitF opts.direction) start opts.minDepth
      (matching sl emitF) (traversalScore scoreOf opts.decayLambda) maxDepth (nodeVisible sl pols start = true)
      (allHits sl fids now pols emitF scoreOf start maxDepth opts) := by
  have hnothing : nodeVisible sl pols start ≠ true → HitsUpTo
      (TraverseArc sl fids now pols emitF opts.direction) start opts.minDepth
      (matching sl emitF) (traversalScore scoreOf opts.decayLambda) maxDepth (nodeVisible sl pols start = true) [] :=
    fun hnot => ⟨nil, fun hit => ⟨fun hnil => absurd hnil not_mem_nil, fun hshown => absurd hshown.1 hnot⟩⟩
  rw [allHits]
  cases hfind : sl.findNode start with
  | none => exact hnothing fun hvis => by rw [nodeVisible, hfind] at hvis; cases hvis
  | some startNode =>
    dsimp only
    split
    · rename_i hexc
      exact hnothing fun hvis => (nodeVisible_some hfind).mp hvis hexc
    · rename_i hexc
      have hvis := (@nodeVisible_some sl pols start startNode hfind).mpr hexc
      have hrds := @hitsWithin_roundHits sl fids now pols emitF start scoreOf opts h maxDepth
        ⟨[start], {start}, ∅, 0⟩ (around_start _)
      simp only [Nat.zero_add] at hrds
      have hst : ∀ hit, hit ∈ startHits emitF scoreOf opts start startNode ↔ hit.depth = 0 ∧
          IsHit (TraverseArc sl fids now pols emitF opts.direction) start opts.minDepth
            (matching sl emitF) (traversalScore scoreOf opts.decayLambda) hit := by
        intro hit
        have hm' := @matching_some sl emitF start startNode hfind
        rw [startHits]
        constructor
        · intro hmem
          split at hmem
          · rename_i hemit
            obtain rfl := mem_singleton.mp hmem
            refine ⟨rfl, le_of_eq hemit.1, ⟨hops_zero.mpr rfl, fun i hi => absurd hi (not_lt_zero i)⟩, ?_, rfl, rfl⟩
            exact hm'.trans hemit.2
          · exact absurd hmem not_mem_nil
        · rintro ⟨hzero, hhit⟩
          obtain ⟨nodeId, depth, viaEdgeId, score⟩ := hit
          obtain rfl : depth = 0 := hzero
          obtain rfl : start = nodeId := hops_zero.mp hhit.nearest.1
          have hvia : viaEdgeId = none := hhit.via
          have hscore : score = traversalScore scoreOf opts.decayLambda 0 := hhit.score
          rw [if_pos ⟨Nat.le_zero.mp hhit.deep, hm'.symm.trans hhit.emitted⟩, hvia, hscore]
          exact mem_singleton_self _
      refine ⟨pairwise_append.mpr ⟨?_, hrds.sorted, fun a ha b hb => ?_⟩, fun hit => ?_⟩
      · rw [startHits]
        split
        · exact pairwise_singleton _ _
        · exact nil
      · refine cursorCmp_lt.mpr (Or.inl ?_)
        rw [hitKey, hitKey, ((hst a).mp ha).1]
        exact ((hrds.mem b).mp hb).1
      · rw [mem_append, hst, hrds.mem]
        constructor
        · rintro (⟨hzero, hhit⟩ | ⟨hlow, hhigh, hhit⟩)
          · exact ⟨hvis, by omega, hhit⟩
          · exact ⟨hvis, hhigh, hhit⟩
        · rintro ⟨-, hhigh, hhit⟩
          obtain hzero | hpos := Nat.eq_zero_or_pos hit.depth
          · exact Or.inl ⟨hzero, hhit⟩
          · exact Or.inr ⟨hpos, hhigh, hhit⟩

theorem HitsUpTo.unique {root minDepth : ℕ} {matches' : ℕ → Bool} {score : ℕ → Option F64} {shown : Prop}
    {fst snd : List TraversalHit} (h : HitsUpTo arc root minDepth matches' score maxDepth shown fst)
    (h' : HitsUpTo arc root minDepth matches' score maxDepth shown snd) : fst = snd := by
  have hperm : fst.Perm snd := by
    have hnd : ∀ hits : List TraversalHit, hits.Pairwise (fun a b => cursorCmp (hitKey a) (hitKey b) = .lt) → hits.Nodup := by
      intro hits hsort
      refine hsort.imp fun {a b} hlt heq => ?_
      have hself : cursorCmp (hitKey b) (hitKey b) = .eq := Std.ReflCmp.compare_self
      rw [heq, hself] at hlt
      cases hlt
    exact (perm_ext_iff_of_nodup (hnd _ h.sorted) (hnd _ h'.sorted)).mpr fun hit => (h.mem hit).trans (h'.mem hit).symm
  refine hperm.eq_of_pairwise ?_ h.sorted h'.sorted
  intro a b _ _ hab hba
  rw [Std.OrientedCmp.gt_of_lt hba] at hab
  cases hab

theorem matching_empty (hemp : NodePatterns.ResolvedNodeLabelFilter.isEmptyConstraint emitF = true) (nodeId : ℕ) :
    matching sl emitF nodeId = false := by
  cases emitF with
  | empty mode unknownLabelCount =>
    rw [matching]
    cases sl.findNode nodeId <;> rfl
  | _ => cases hemp

/-- A request that passes the checks gets the page of all hits. -/
theorem traverse_eq (h : Stored sl) (hlim : opts.limit ≠ some 0) (hdep : opts.minDepth ≤ maxDepth)
    (hdecay : (opts.decayLambda.any fun lambda => !finiteNonNegative lambda) = false) :
    traverse sl fids now pols emitF scoreOf start maxDepth opts = .ok (toPage
      (pageOf opts.limit opts.cursor
        (allHits sl fids now pols emitF scoreOf start maxDepth opts))) := by
  rw [traverse, if_neg (Nat.not_lt.mpr hdep), hdecay, if_neg Bool.false_ne_true]
  split
  · rename_i hemp
    have hnone : allHits sl fids now pols emitF scoreOf start maxDepth opts = [] := by
      rw [eq_nil_iff_forall_not_mem]
      intro hit hmem
      have hemit := ((allHits_spec h).mem hit).mp hmem |>.2.2.emitted
      rw [matching_empty hemp] at hemit
      cases hemit
    rw [hnone]
    cases hlimits : opts.limit <;> simp [toPage, pageOf, upToLimit, afterCursor]
  · rw [traverseResolved_eq h hlim]

end

section
variable (sl : SourceList) (fids : Option (List ℕ)) (now : ℤ) (pols : Option PrecomputedPruneCutoffs)
  (emitF : ResolvedNodeLabelFilter) (scoreOf : F64 → ℕ → F64) (start maxDepth : ℕ)

/-- A caller asks for the next page until there is no cursor. -/
def followPages (opts : TraverseOptions) : ℕ → Option TraversalCursor → Option (List TraversalHit)
  | 0, _ => none
  | requests + 1, cursor =>
    match traverse sl fids now pols emitF scoreOf start maxDepth { opts with cursor := cursor } with
    | .ok ⟨items, none⟩ => some items
    | .ok ⟨items, some next⟩ => (followPages opts requests (some next)).map (items ++ ·)
    | .error _ => none

variable {sl fids now pols emitF scoreOf start maxDepth} {opts : TraverseOptions}

section
variable (limit : Option ℕ) (cursor : Option TraversalCursor)

theorem roundHits_page (rds : ℕ) (st : TraverseState) :
    roundHits sl fids now pols emitF scoreOf { opts with limit := limit, cursor := cursor } rds st =
      roundHits sl fids now pols emitF scoreOf opts rds st := by
  induction rds generalizing st with
  | zero => rfl
  | succ rds ih =>
    simp only [roundHits, ih]
    rfl

/-- The limit and the cursor have no say in what there is to return. -/
theorem allHits_page : allHits sl fids now pols emitF scoreOf start maxDepth
        { opts with limit := limit, cursor := cursor } =
      allHits sl fids now pols emitF scoreOf start maxDepth opts := by
  simp only [allHits, roundHits_page]
  rfl

end

theorem noTie_of_sorted {hits : List TraversalHit} (hsort : hits.Pairwise fun a b => cursorCmp (hitKey a) (hitKey b) = .lt)
    (limit : ℕ) : NoTie cursorCmp hitKey limit hits := by
  intro k _ before a b after heq _
  rw [heq] at hsort
  obtain ⟨-, haft, -⟩ := pairwise_append.mp hsort
  exact rel_of_pairwise_cons haft mem_cons_self

/-- What remains of the list at a cursor. -/
def restAt (hits : List TraversalHit) : Option TraversalCursor → List TraversalHit
  | none => hits
  | some cursor => above cursorCmp hitKey hits cursor

theorem toPage_pageOf (hits : List TraversalHit) (limit : ℕ) (cursor : Option TraversalCursor) : toPage (pageOf (some limit) cursor hits) =
      ⟨(page hitKey limit (restAt hits cursor)).1, (page hitKey limit (restAt hits cursor)).2⟩ := by
  have hrest : afterCursor cursor hits = restAt hits cursor := by
    cases cursor with
    | none => exact filter_eq_self.mpr fun _ _ => rfl
    | some cursor => exact filter_congr fun hit _ => traversalAfterCursor_some cursor hit
  rw [toPage, pageOf, hrest, page]
  simp only [upToLimit, Option.elim_some, Option.any_some, decide_eq_true_eq]

section
variable (h : Stored sl) {limit : ℕ} (hpos : 0 < limit) (hlim : opts.limit = some limit)
  (hdep : opts.minDepth ≤ maxDepth) (hdecay : (opts.decayLambda.any fun lambda => !finiteNonNegative lambda) = false)
include h hpos hlim hdep hdecay

theorem followPages_collect (requests : ℕ) (cursor : Option TraversalCursor) :
    followPages sl fids now pols emitF scoreOf start maxDepth opts requests cursor =
      collect cursorCmp hitKey limit (allHits sl fids now pols emitF scoreOf start maxDepth opts)
        requests (restAt (allHits sl fids now pols emitF scoreOf start maxDepth opts) cursor) := by
  induction requests generalizing cursor with
  | zero => rfl
  | succ requests ih =>
    have hlimit' : ({ opts with cursor := cursor } : TraverseOptions).limit ≠ some 0 := by
      rw [hlim]
      simp only [ne_eq, Option.some.injEq]
      omega
    have hpage := @traverse_eq sl fids now pols emitF scoreOf start maxDepth
      { opts with cursor := cursor } h hlimit' hdep hdecay
    have hsame : allHits sl fids now pols emitF scoreOf start maxDepth { opts with cursor := cursor } =
        allHits sl fids now pols emitF scoreOf start maxDepth opts :=
      allHits_page opts.limit cursor
    rw [followPages, hpage, hsame, collect]
    simp only [hlim, toPage_pageOf]
    rcases page hitKey limit (restAt (allHits sl fids now pols emitF scoreOf start maxDepth opts) cursor)
      with ⟨items, next⟩
    cases next with
    | none => rfl
    | some next => exact congrArg (Option.map (items ++ ·)) (ih (some next))

/-- The pages put together are the list of all hits. -/
theorem followPages_eq {requests : ℕ} (hreqs : (allHits sl fids now pols emitF scoreOf start maxDepth opts).length < requests) :
    followPages sl fids now pols emitF scoreOf start maxDepth opts requests none =
      some (allHits sl fids now pols emitF scoreOf start maxDepth opts) := by
  have hsort := (@allHits_spec sl fids now pols emitF scoreOf start maxDepth opts h).sorted
  have hweak := hsort.imp fun {a b} (hlt : cursorCmp (hitKey a) (hitKey b) = .lt) =>
    (show (cursorCmp (hitKey a) (hitKey b)).isLE by rw [hlt]; rfl)
  obtain ⟨pages, hcol, -, hall, -⟩ := collect_spec hpos hweak requests [] _ rfl hreqs
  rw [followPages_collect h hpos hlim hdep hdecay]
  exact hcol.trans (congrArg some (hall (noTie_of_sorted hsort limit)))

end

end

end OverGraph.Traversals
