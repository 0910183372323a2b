import OverGraph.EmitFilters
import OverGraph.NodeSets
import OverGraph.Subgraphs
import OverGraph.UnionFinds

/-!
# Components

All components come from one scan of the outgoing edges of the selected nodes with a union-find, and a component alone from a search
that goes out from its node in both directions. Each component is named by its least node. The search without a filter and without
policies also passes and returns nodes without a record, which the scan does not know.
-/

namespace OverGraph.Components
open AssocMaps Records Sources SnapshotReads FirstSeen AdjacencyReads GraphWalks Expansion PrunePolicies List AList
open NeighborBatches NodeSets Subgraphs UnionFinds
open NodeFilters (ResolvedNodeLabelFilter nodeLabelFilterMatches)
open NodePatterns (ResolvedNodeLabelFilter.isEmptyConstraint)
open Traversals (isUnconstrained)
open DegreeWalks (validRecord)

section
variable (sl : SourceList) (pols : Option PrecomputedPruneCutoffs) (labelUpperBound : ℕ → Option ℕ)
  (edgeF : Option (List ℕ)) (nodeF : ResolvedNodeLabelFilter) (now : ℤ)

/-- The outgoing edges at the nodes, each where it is first seen. -/
def outgoingPostings (nodeIds : List ℕ) : List (ℕ × NeighborRecord) :=
  let active := forEachAdjEntry sl .outgoing edgeF sl.active nodeIds
  let older := (sl.immutable.map fun m => forEachAdjEntry sl .outgoing edgeF m nodeIds) ++
    sl.segments.map fun seg => forEachAdjPostingBatch .outgoing edgeF seg nodeIds
  (merge postingId (fun post => validRecord now post.2 &&
      (!isEdgeTombstoned sl post.2.edgeId && !isNodeTombstoned sl post.2.nodeId))
    ⟨active.filter fun post => validRecord now post.2, active.map postingId⟩ older).results

/-- The unions are made in the order of the scan. -/
def unionPairs (nodeIds : List ℕ) : List (ℕ × ℕ) :=
  ((outgoingPostings sl edgeF now nodeIds).filter fun post => decide (post.2.nodeId ∈ nodeIds)).map
    fun post => (post.1, post.2.nodeId)

/-- The least node under each root. -/
def noteMin (st : UnionFind ℕ × Map ℕ ℕ) (id : ℕ) : UnionFind ℕ × Map ℕ ℕ :=
  let (root, uf) := st.1.find id
  (uf, st.2.insert root (match st.2.lookup root with
    | some least => if id < least then id else least
    | none => id))

/-- A root without a least node would be a panic. -/
def noteComponent (rootToMin : Map ℕ ℕ) (st : UnionFind ℕ × Map ℕ ℕ) (id : ℕ) : UnionFind ℕ × Map ℕ ℕ :=
  let (root, uf) := st.1.find id
  (uf, match rootToMin.lookup root with
    | some least => st.2.insert id least
    | none => st.2)

def connectedComponents : Map ℕ ℕ :=
  if ResolvedNodeLabelFilter.isEmptyConstraint nodeF then ∅
  else
    let nodeIds := collectNodeIdsForResolvedLabelFilter sl pols labelUpperBound nodeF
    if nodeIds.isEmpty then ∅
    else if edgeF.any (·.isEmpty) then nodeIds.foldl (fun res id => res.insert id id) ∅
    else
      let uf := (unionPairs sl edgeF now nodeIds).foldl (fun uf pair => uf.union pair.1 pair.2)
        (nodeIds.foldl UnionFind.makeSet UnionFind.empty)
      let (uf, rootToMin) := nodeIds.foldl noteMin (uf, ∅)
      (nodeIds.foldl (noteComponent rootToMin) (uf, ∅)).2

end

section
variable (sl : SourceList) (pols : Option PrecomputedPruneCutoffs) (edgeF : Option (List ℕ))
  (nodeF : ResolvedNodeLabelFilter) (now : ℤ)

structure Discovered where
  processed : Finset ℕ
  candidateIds : List ℕ

def processNeighbor (st : Discovered) (entry : NeighborRecord) : Discovered :=
  if entry.nodeId ∈ st.processed then st else ⟨insert entry.nodeId st.processed, st.candidateIds ++ [entry.nodeId]⟩

def nextFrontier (candidateIds : List ℕ) : List ℕ :=
  if isUnconstrained nodeF && pols.isNone then candidateIds
  else filterNodeIdsByResolvedLabelFilter sl pols nodeF candidateIds

/-- The rounds of the search, as long as there are rounds left. -/
def componentRounds : ℕ → Finset ℕ → List ℕ → List ℕ → Option (List ℕ)
  | 0, _, _, _ => none
  | rds + 1, processed, component, frontier =>
    if frontier.isEmpty then some component
    else
      let allNeighbors := neighborsBatchResolved sl pols .both edgeF now frontier
      let found := (allNeighbors.flatMap Prod.snd).foldl processNeighbor ⟨processed, []⟩
      if found.candidateIds.isEmpty then some component
      else
        let next := nextFrontier sl pols nodeF found.candidateIds
        componentRounds rds found.processed (component ++ next) next

def componentOf (rds nodeId : ℕ) : Option (List ℕ) :=
  if ResolvedNodeLabelFilter.isEmptyConstraint nodeF then some []
  else match getNode sl pols nodeId with
    | none => some []
    | some startNode =>
      if !nodeLabelFilterMatches nodeF startNode.labelIds then some []
      else if edgeF.any (·.isEmpty) then some [nodeId]
      else (componentRounds sl pols edgeF nodeF now rds {nodeId} [nodeId] [nodeId]).map
        (List.insertionSort (· ≤ ·))

end

section
variable {f : ℕ → ℕ} {uf : UnionFind ℕ} {nodeIds : List ℕ}

def RootsAs (f : ℕ → ℕ) (uf : UnionFind ℕ) : Prop := Forest uf.parentOf ∧ ∀ y s, Root uf.parentOf y s ↔ Root f y s

theorem RootsAs.find (h : RootsAs f uf) (id : ℕ) : Root f id (uf.find id).1 ∧ RootsAs f (uf.find id).2 := by
  obtain ⟨hroot, hforest, hroots⟩ := UnionFind.find_spec h.1 id
  exact ⟨(h.2 _ _).mp hroot, hforest, fun y s => (hroots y s).trans (h.2 y s)⟩

/-- Each root has its least node among those seen. -/
def MinsOf (f : ℕ → ℕ) (seen : List ℕ) (mins : Map ℕ ℕ) : Prop :=
  ∀ r, match mins.lookup r with
    | none => ∀ id ∈ seen, ¬Root f id r
    | some least => IsLeast {id | id ∈ seen ∧ Root f id r} least

variable {st : UnionFind ℕ × Map ℕ ℕ} {seen : List ℕ}

theorem minsOf_note (hroots : RootsAs f st.1) (hmins : MinsOf f seen st.2) (id : ℕ) :
    RootsAs f (noteMin st id).1 ∧ MinsOf f (seen ++ [id]) (noteMin st id).2 := by
  obtain ⟨hroot, hkept⟩ := hroots.find id
  refine ⟨hkept, fun r => ?_⟩
  have hbef := hmins r
  have hnote : (noteMin st id).2 = st.2.insert (st.1.find id).1 (match st.2.lookup (st.1.find id).1 with
    | some least => if id < least then id else least
    | none => id) := rfl
  rw [hnote]
  by_cases hsame : r = (st.1.find id).1
  · rw [← hsame, lookup_insert]
    rw [← hsame] at hroot
    cases hlk : st.2.lookup r with
    | none =>
      rw [hlk] at hbef
      refine ⟨⟨mem_append_right _ (mem_singleton_self id), hroot⟩, ?_⟩
      rintro other ⟨hoth, hrooted⟩
      obtain hold | hnew := mem_append.mp hoth
      · exact absurd hrooted (hbef other hold)
      · rw [mem_singleton.mp hnew]
    | some least =>
      rw [hlk] at hbef
      obtain ⟨⟨hseen, hleastRoot⟩, hbd⟩ := hbef
      have hlo : ∀ bound, bound ≤ least → bound ≤ id → bound ∈ lowerBounds {other | other ∈ seen ++ [id] ∧ Root f other r} := by
        rintro bound hlst hid other ⟨hoth, hrooted⟩
        obtain hold | hnew := mem_append.mp hoth
        · exact hlst.trans (hbd ⟨hold, hrooted⟩)
        · rwa [mem_singleton.mp hnew]
      dsimp only
      split
      · exact ⟨⟨mem_append_right _ (mem_singleton_self id), hroot⟩, hlo id (by omega) le_rfl⟩
      · exact ⟨⟨mem_append_left _ hseen, hleastRoot⟩, hlo least le_rfl (by omega)⟩
  · rw [lookup_insert_ne hsame]
    have hoth : ¬Root f id r := fun hrooted => hsame (hrooted.unique hroot)
    cases hlk : st.2.lookup r with
    | none =>
      rw [hlk] at hbef
      intro other hmem
      obtain hold | hnew := mem_append.mp hmem
      · exact hbef other hold
      · rw [mem_singleton.mp hnew]
        exact hoth
    | some least =>
      rw [hlk] at hbef
      refine ⟨⟨mem_append_left _ hbef.1.1, hbef.1.2⟩, ?_⟩
      rintro other' ⟨hmem, hrooted⟩
      obtain hold | hnew := mem_append.mp hmem
      · exact hbef.2 ⟨hold, hrooted⟩
      · exact absurd (mem_singleton.mp hnew ▸ hrooted) hoth

theorem minsOf_foldl (nodeIds : List ℕ) (hroots : RootsAs f st.1) (hmins : MinsOf f seen st.2) :
    RootsAs f (nodeIds.foldl noteMin st).1 ∧ MinsOf f (seen ++ nodeIds) (nodeIds.foldl noteMin st).2 := by
  induction nodeIds generalizing st seen with
  | nil => exact ⟨hroots, by rwa [append_nil]⟩
  | cons id nodeIds ih =>
    obtain ⟨hroots', hmins'⟩ := minsOf_note hroots hmins id
    rw [append_cons]
    exact ih hroots' hmins'

def NamedBy (f : ℕ → ℕ) (nodeIds seen : List ℕ) (components : Map ℕ ℕ) : Prop :=
  ∀ id c, components.lookup id = some c ↔ id ∈ seen ∧ IsLeast {v | v ∈ nodeIds ∧ SameClass f id v} c

variable {rootToMin : Map ℕ ℕ}

theorem namedBy_note (hmins : MinsOf f nodeIds rootToMin)
    (hroots : RootsAs f st.1) (hnamed : NamedBy f nodeIds seen st.2) {id : ℕ} (hid : id ∈ nodeIds) :
    RootsAs f (noteComponent rootToMin st id).1 ∧ NamedBy f nodeIds (seen ++ [id]) (noteComponent rootToMin st id).2 := by
  obtain ⟨hroot, hkept⟩ := hroots.find id
  refine ⟨hkept, fun other c => ?_⟩
  have hclass : ∀ v, SameClass f id v ↔ Root f v (st.1.find id).1 := by
    intro v
    constructor
    · rintro ⟨r, hidr, hv⟩
      rwa [hidr.unique hroot] at hv
    · exact fun hv => ⟨_, hroot, hv⟩
  have hnote : (noteComponent rootToMin st id).2 = match rootToMin.lookup (st.1.find id).1 with
    | some least => st.2.insert id least
    | none => st.2 := rfl
  have hfnd := hmins (st.1.find id).1
  rw [hnote]
  cases hlk : rootToMin.lookup (st.1.find id).1 with
  | none =>
    rw [hlk] at hfnd
    exact absurd hroot (hfnd id hid)
  | some least =>
    rw [hlk] at hfnd
    have hlst : IsLeast {v | v ∈ nodeIds ∧ SameClass f id v} least := by simpa only [hclass] using hfnd
    dsimp only
    by_cases hsame : other = id
    · rw [hsame, lookup_insert, Option.some.injEq]
      constructor
      · rintro rfl
        exact ⟨mem_append_right _ (mem_singleton_self id), hlst⟩
      · exact fun h => hlst.unique h.2
    · rw [lookup_insert_ne hsame, hnamed, mem_append, mem_singleton]
      simp only [hsame, or_false]

theorem namedBy_foldl (hmins : MinsOf f nodeIds rootToMin) (rest : List ℕ) (hrest : ∀ id ∈ rest, id ∈ nodeIds)
    (hroots : RootsAs f st.1) (hnamed : NamedBy f nodeIds seen st.2) :
    NamedBy f nodeIds (seen ++ rest) (rest.foldl (noteComponent rootToMin) st).2 := by
  induction rest generalizing st seen with
  | nil => rwa [append_nil]
  | cons id rest ih =>
    obtain ⟨hroots', hnamed'⟩ := namedBy_note hmins hroots hnamed (hrest id mem_cons_self)
    rw [append_cons]
    exact ih (fun other hoth => hrest other (mem_cons_of_mem _ hoth)) hroots' hnamed'

/-- The nodes named by the least node of their class. -/
theorem namedBy_unions (nodeIds : List ℕ) (pairs : List (ℕ × ℕ)) :
    let uf := pairs.foldl (fun uf pair => uf.union pair.1 pair.2) (nodeIds.foldl UnionFind.makeSet UnionFind.empty)
    let mins := nodeIds.foldl noteMin (uf, ∅)
    ∀ id c, (nodeIds.foldl (noteComponent mins.2) (mins.1, ∅)).2.lookup id = some c ↔
      id ∈ nodeIds ∧ IsLeast {v | v ∈ nodeIds ∧ Relation.EqvGen (fun u v => (u, v) ∈ pairs) id v} c := by
  intro uf mins nodeId c
  have hst : (nodeIds.foldl UnionFind.makeSet (UnionFind.empty : UnionFind ℕ)).parentOf = id := UnionFind.makeSets_parentOf nodeIds
  obtain ⟨hforest, hclass⟩ := @UnionFind.unions_spec ℕ _ (nodeIds.foldl UnionFind.makeSet UnionFind.empty)
    (hst ▸ UnionFind.forest_id) pairs
  have hsame : ∀ x y, SameClass uf.parentOf x y ↔ Relation.EqvGen (fun u v => (u, v) ∈ pairs) x y := by
    intro x y
    rw [hclass, hst]
    constructor
    · intro hgen
      apply (Equivalence.eqvGen_iff (Relation.EqvGen.is_equivalence _)).mp
      apply hgen.mono
      rintro u v (heq | hpair)
      · rw [UnionFind.sameClass_id.mp heq]
        exact .refl _
      · exact .rel _ _ hpair
    · intro hgen
      exact hgen.mono fun u v hpair => Or.inr hpair
  have hroots : RootsAs uf.parentOf uf := ⟨hforest, fun _ _ => Iff.rfl⟩
  have hnone : MinsOf uf.parentOf [] (∅ : Map ℕ ℕ) := fun r => fun other hoth => absurd hoth not_mem_nil
  obtain ⟨hroots', hmins⟩ := minsOf_foldl nodeIds (show RootsAs uf.parentOf (uf, (∅ : Map ℕ ℕ)).1 from hroots) hnone
  rw [nil_append] at hmins
  have hunna : NamedBy uf.parentOf nodeIds [] (∅ : Map ℕ ℕ) := by
    intro other least
    rw [lookup_empty]
    exact ⟨fun h => absurd h (by simp), fun h => absurd h.1 not_mem_nil⟩
  have hnamed := namedBy_foldl hmins nodeIds (fun _ hoth => hoth) (show RootsAs uf.parentOf (mins.1, (∅ : Map ℕ ℕ)).1 from hroots')
    hunna nodeId c
  rw [nil_append] at hnamed
  simpa only [hsame] using hnamed

end

variable {v : ℕ}

section
variable (sl : SourceList) (pols : Option PrecomputedPruneCutoffs) (edgeF : Option (List ℕ))
  (nodeF : ResolvedNodeLabelFilter) (now : ℤ)

/-- A valid visible edge between selected nodes. -/
def Adjacent (u v : ℕ) : Prop :=
  selected sl pols nodeF u = true ∧ selected sl pols nodeF v = true ∧ ∃ e, Linked sl .outgoing edgeF now u e v

def Connected : ℕ → ℕ → Prop := Relation.EqvGen (Adjacent sl pols edgeF nodeF now)

/-- The identifier of a deleted node is not given out again. -/
def NodesKept (sl : SourceList) : Prop := ∀ id, isNodeTombstoned sl id = true → sl.findNode id = none

variable {sl pols edgeF nodeF now}

theorem selected_record (h : selected sl pols nodeF v = true) : (sl.findNode v).isSome := (selected_iff.mp h).2.2

theorem not_tombstoned (hnos : NodesKept sl) (h : (sl.findNode v).isSome) : isNodeTombstoned sl v = false := by
  rw [← Bool.not_eq_true]
  intro htomb
  rw [hnos v htomb] at h
  cases h

variable {u e v : ℕ} {dir : Direction}

/-- An edge read at a selected node in some direction is a link there. -/
theorem linked_iff (hnos : NodesKept sl) (hu : (sl.findNode u).isSome)
    (hv : selected sl pols nodeF v = true) :
    Follows sl pols dir edgeF now u e v ↔ Linked sl dir edgeF now u e v := by
  rw [Follows, Linked, linkFound_of_neighborFound (not_tombstoned hnos hu)]
  have hkept := (selected_iff.mp hv).2.1
  constructor
  · rintro ⟨r, hfnd, hnbr, hvd, -⟩
    exact ⟨r, hfnd, hnbr, hvd⟩
  · rintro ⟨r, hfnd, hnbr, hvd⟩
    exact ⟨r, hfnd, hnbr, hvd, hkept⟩

/-- In both directions an edge is found where it is found in its own direction. -/
theorem linkFound_both (h : Stored sl) (hdir : dir ≠ .both) (hjoin : JoinedIn sl dir e u v) :
    linkFound sl u .both edgeF e = linkFound sl u dir edgeF e := by
  have hboth : ∀ {edge : EdgeRecord}, Joins dir edge u v → Joins .both edge u v := by
    intro edge hjn
    cases dir with
    | outgoing => exact Or.inl hjn
    | incoming => exact Or.inr hjn
    | both => exact absurd rfl hdir
  have hmem : ∀ m ∈ sl.active :: sl.immutable, memtableOffer u .both edgeF sl.snapshotSeq m e =
      memtableOffer u dir edgeF sl.snapshotSeq m e := by
    intro m hm
    rw [memtableOffer, memtableOffer, offer_of_joins fun edge hedge => hboth (hjoin.memtable h hm hedge),
      offer_of_joins fun edge hedge => hjoin.memtable h hm hedge]
  have hseg' : ∀ seg ∈ sl.segments, segmentOffer u .both edgeF seg e = segmentOffer u dir edgeF seg e := by
    intro seg hseg
    rw [segmentOffer, segmentOffer, offer_of_joins fun edge hedge => hboth (hjoin.segment hseg hedge),
      offer_of_joins fun edge hedge => hjoin.segment hseg hedge]
  rw [linkFound, linkFound, hmem sl.active mem_cons_self, olderOffer, olderOffer,
    SourceList.findSome?_congr fun m hm => hmem m (mem_cons_of_mem _ hm), SourceList.findSome?_congr hseg']

theorem linked_both (h : Stored sl) (hends : EndsKept sl) : Linked sl .both edgeF now u e v ↔
      Linked sl .outgoing edgeF now u e v ∨ Linked sl .outgoing edgeF now v e u := by
  have hinc : Linked sl .outgoing edgeF now v e u ↔ Linked sl .incoming edgeF now u e v := by
    have hrev := @linked_reverse sl .incoming edgeF h hends now
    have hat := congrFun (congrFun (congrFun hrev v) e) u
    exact Iff.of_eq hat
  rw [hinc]
  constructor
  · rintro ⟨r, hfnd, rfl, hvd⟩
    obtain ⟨lay, hlay, edge, hedge, hjn⟩ := linkFound_edge h hfnd
    obtain hout | hin := hjn
    · have hjoin : JoinedIn sl .outgoing e u r.nodeId := by
        intro other hoth edge' hedge'
        obtain ⟨hsrc, htgt⟩ := hends lay hlay other hoth e edge edge' hedge hedge'
        exact Joins.congr (show Joins .outgoing edge u r.nodeId from hout) hsrc htgt
      rw [linkFound_both h (by decide) hjoin] at hfnd
      exact Or.inl ⟨r, hfnd, rfl, hvd⟩
    · have hjoin : JoinedIn sl .incoming e u r.nodeId := by
        intro other hoth edge' hedge'
        obtain ⟨hsrc, htgt⟩ := hends lay hlay other hoth e edge edge' hedge hedge'
        exact Joins.congr (show Joins .incoming edge u r.nodeId from hin) hsrc htgt
      rw [linkFound_both h (by decide) hjoin] at hfnd
      exact Or.inr ⟨r, hfnd, rfl, hvd⟩
  · have hturn : ∀ dir : Direction, dir ≠ .both → Linked sl dir edgeF now u e v → Linked sl .both edgeF now u e v := by
      rintro dir hdir ⟨r, hfnd, rfl, hvd⟩
      obtain ⟨lay, hlay, edge, hedge, hjn⟩ := linkFound_edge h hfnd
      have hjoin : JoinedIn sl dir e u r.nodeId := by
        intro other hoth edge' hedge'
        obtain ⟨hsrc, htgt⟩ := hends lay hlay other hoth e edge edge' hedge hedge'
        exact hjn.congr hsrc htgt
      exact ⟨r, (linkFound_both h hdir hjoin).trans hfnd, rfl, hvd⟩
    rintro (hout | hin)
    · exact hturn .outgoing (by decide) hout
    · exact hturn .incoming (by decide) hin

theorem mem_outgoingPostings (h : Stored sl) {nodeIds : List ℕ} {post : ℕ × NeighborRecord} :
    post ∈ outgoingPostings sl edgeF now nodeIds ↔ post.1 ∈ nodeIds ∧
      neighborFound sl post.1 .outgoing edgeF post.2.edgeId = some post.2 ∧ validRecord now post.2 = true := by
  rw [outgoingPostings, mem_mergedPostings h fun post => !isEdgeTombstoned sl post.2.edgeId && !isNodeTombstoned sl post.2.nodeId,
    neighborFound, Option.or_eq_some_iff, Option.or_eq_some_iff, Option.filter_eq_some_iff, Option.filter_eq_some_iff]

theorem mem_unionPairs (h : Stored sl) (hnos : NodesKept sl) {nodeIds : List ℕ}
    (hids : ∀ v, v ∈ nodeIds ↔ selected sl pols nodeF v = true) {u : ℕ} :
    (u, v) ∈ unionPairs sl edgeF now nodeIds ↔ Adjacent sl pols edgeF nodeF now u v := by
  rw [unionPairs, mem_map]
  constructor
  · rintro ⟨⟨src, r⟩, hpost, hpair⟩
    obtain ⟨rfl, rfl⟩ := Prod.mk.inj hpair
    obtain ⟨hmem, hnbr⟩ := mem_filter.mp hpost
    obtain ⟨hsrc, hfnd, hvd⟩ := (mem_outgoingPostings h).mp hmem
    have hsel := (hids _).mp hsrc
    refine ⟨hsel, (hids _).mp (of_decide_eq_true hnbr), r.edgeId, r, ?_, rfl, hvd⟩
    rwa [linkFound_of_neighborFound (not_tombstoned hnos (selected_record hsel))]
  · rintro ⟨hu, hv, e, r, hfnd, rfl, hvd⟩
    obtain rfl := linkFound_edgeId h hfnd
    refine ⟨(u, r), mem_filter.mpr ⟨(mem_outgoingPostings h).mpr ⟨(hids u).mpr hu, ?_, hvd⟩, ?_⟩, rfl⟩
    · exact neighborFound_of_linkFound hfnd
    · exact decide_eq_true ((hids _).mpr hv)

theorem Connected.selected {u : ℕ} (h : Connected sl pols edgeF nodeF now u v) :
    selected sl pols nodeF u = true ↔ selected sl pols nodeF v = true := by
  induction h with
  | rel u v hadj => exact iff_of_true hadj.1 hadj.2.1
  | refl u => exact Iff.rfl
  | symm u v _ ih => exact ih.symm
  | trans u v w _ _ ih ih' => exact ih.trans ih'

theorem connected_of_empty {u : ℕ} (h : Connected sl pols (some []) nodeF now u v) : u = v := by
  induction h with
  | rel u v hadj =>
    obtain ⟨-, -, e, r, hfnd, -⟩ := hadj
    exact absurd (neighborFound_of_linkFound hfnd) not_found_of_empty
  | refl u => rfl
  | symm u v _ ih => exact ih.symm
  | trans u v w _ _ ih ih' => exact ih.trans ih'

theorem lookup_singletons (nodeIds : List ℕ) (v c : ℕ) :
    (nodeIds.foldl (fun (res : Map ℕ ℕ) id => res.insert id id) ∅).lookup v = some c ↔ v ∈ nodeIds ∧ v = c := by
  have hgen : ∀ (rest : List ℕ) (res : Map ℕ ℕ) (seen : List ℕ), (∀ v c, res.lookup v = some c ↔ v ∈ seen ∧ v = c) →
      ((rest.foldl (fun (res : Map ℕ ℕ) id => res.insert id id) res).lookup v = some c ↔ v ∈ seen ++ rest ∧ v = c) := by
    intro rest
    induction rest with
    | nil =>
      intro res seen hres
      rw [append_nil]
      exact hres v c
    | cons id rest ih =>
      intro res seen hres
      rw [foldl_cons, append_cons]
      apply ih
      intro v c
      by_cases hsame : v = id
      · rw [hsame, lookup_insert, Option.some.injEq]
        exact ⟨fun heq => ⟨mem_append_right _ (mem_singleton_self id), heq⟩, And.right⟩
      · rw [lookup_insert_ne hsame, hres, mem_append, mem_singleton]
        simp only [hsame, or_false]
  have hemp := hgen nodeIds ∅ [] fun v c => by simp
  rwa [nil_append] at hemp

theorem lookup_connectedComponents (h : Stored sl) (hnos : NodesKept sl) (labelUpperBound : ℕ → Option ℕ) (v c : ℕ) :
    (connectedComponents sl pols labelUpperBound edgeF nodeF now).lookup v = some c ↔ selected sl pols nodeF v = true ∧
        IsLeast {w | Connected sl pols edgeF nodeF now v w} c := by
  have hids : ∀ v, v ∈ collectNodeIdsForResolvedLabelFilter sl pols labelUpperBound nodeF ↔
      selected sl pols nodeF v = true := fun v => mem_collectNodeIds h
  have hnil : (∀ v, selected sl pols nodeF v ≠ true) → ((∅ : Map ℕ ℕ).lookup v = some c ↔ selected sl pols nodeF v = true ∧
        IsLeast {w | Connected sl pols edgeF nodeF now v w} c) := fun hnone =>
    ⟨fun hsome => absurd hsome (by simp), fun hsel => absurd hsel.1 (hnone v)⟩
  rw [connectedComponents]
  generalize hcoll : collectNodeIdsForResolvedLabelFilter sl pols labelUpperBound nodeF = nodeIds at hids ⊢
  split
  · rename_i hemp
    apply hnil
    intro v hsel
    obtain ⟨node, -, hmat⟩ := (Option.any_eq_true _ _).mp hsel
    cases nodeF with
    | empty mode unknownLabelCount => simp [nodeLabelFilterMatches] at hmat
    | _ => cases hemp
  · dsimp only
    split
    · rename_i hemp
      apply hnil
      intro v hsel
      have hmem := (hids v).mpr hsel
      rw [isEmpty_iff.mp hemp] at hmem
      exact not_mem_nil hmem
    · split
      · rename_i hnola
        obtain rfl : edgeF = some [] := by
          cases edgeF with
          | none => cases hnola
          | some labelIds => rw [isEmpty_iff.mp hnola]
        rw [lookup_singletons, hids]
        apply and_congr_right
        intro hsel
        have hclass : {w | Connected sl pols (some []) nodeF now v w} = {v} :=
          Set.ext fun w => ⟨fun hw => (connected_of_empty hw).symm, fun hw => hw ▸ .refl v⟩
        rw [hclass]
        exact ⟨fun heq => heq ▸ isLeast_singleton, fun hlst => isLeast_singleton.unique hlst⟩
      · have hnamed := namedBy_unions nodeIds (unionPairs sl edgeF now nodeIds) v c
        refine hnamed.trans ?_
        rw [hids]
        apply and_congr_right
        intro hsel
        have hclass : {w | w ∈ nodeIds ∧ Relation.EqvGen (fun u w => (u, w) ∈ unionPairs sl edgeF now nodeIds) v w} =
            {w | Connected sl pols edgeF nodeF now v w} := by
          have hpairs : (fun u w => (u, w) ∈ unionPairs sl edgeF now nodeIds) = Adjacent sl pols edgeF nodeF now := by
            funext u w
            exact propext (mem_unionPairs h hnos hids)
          rw [hpairs]
          refine Set.ext fun w => ⟨And.right, fun hw => ⟨?_, hw⟩⟩
          exact (hids w).mpr ((Connected.selected hw).mp hsel)
        rw [hclass]

end

section
variable (sl : SourceList) (pols : Option PrecomputedPruneCutoffs) (edgeF : Option (List ℕ))
  (nodeF : ResolvedNodeLabelFilter) (now : ℤ)

/-- A node joins the component: without a filter and policies every node does. -/
def joins (nodeId : ℕ) : Bool := (isUnconstrained nodeF && pols.isNone) || selected sl pols nodeF nodeId

def ComponentArc (source edgeId nbr : ℕ) : Prop := Follows sl pols .both edgeF now source edgeId nbr ∧ joins sl pols nodeF nbr = true

variable {sl pols edgeF nodeF now}

/-- The new neighbours of a level, each once. -/
theorem processNeighbor_foldl (entries : List NeighborRecord) (st : Discovered)
    (hnd : st.candidateIds.Nodup) (hproc : ∀ v ∈ st.candidateIds, v ∈ st.processed) :
    let found := entries.foldl processNeighbor st
    found.candidateIds.Nodup ∧ (∀ v, v ∈ found.processed ↔ v ∈ st.processed ∨ ∃ entry ∈ entries, entry.nodeId = v) ∧
      ∀ v, v ∈ found.candidateIds ↔ v ∈ st.candidateIds ∨ v ∉ st.processed ∧ ∃ entry ∈ entries, entry.nodeId = v := by
  induction entries generalizing st with
  | nil => exact ⟨hnd, fun v => by simp, fun v => by simp⟩
  | cons entry entries ih =>
    have hsp : ∀ v, (∃ other ∈ entry :: entries, other.nodeId = v) ↔ entry.nodeId = v ∨ ∃ other ∈ entries, other.nodeId = v := by
      intro v
      simp only [mem_cons, or_and_right, exists_or, exists_eq_left]
    rw [foldl_cons, processNeighbor]
    split
    · rename_i hold
      obtain ⟨hnd', hmem, hcands⟩ := ih st hnd hproc
      refine ⟨hnd', fun v => ?_, fun v => ?_⟩
      · rw [hmem, hsp]
        constructor
        · rintro (hin | hin)
          · exact Or.inl hin
          · exact Or.inr (Or.inr hin)
        · rintro (hin | rfl | hin)
          · exact Or.inl hin
          · exact Or.inl hold
          · exact Or.inr hin
      · rw [hcands, hsp]
        constructor
        · rintro (hin | ⟨hnew, hin⟩)
          · exact Or.inl hin
          · exact Or.inr ⟨hnew, Or.inr hin⟩
        · rintro (hin | ⟨hnew, rfl | hin⟩)
          · exact Or.inl hin
          · exact absurd hold hnew
          · exact Or.inr ⟨hnew, hin⟩
    · rename_i hnew
      have hfr : entry.nodeId ∉ st.candidateIds := fun hin => hnew (hproc _ hin)
      obtain ⟨hnd', hmem, hcands⟩ := ih ⟨insert entry.nodeId st.processed, st.candidateIds ++ [entry.nodeId]⟩
        (nodup_append.mpr ⟨hnd, nodup_singleton _, by
          rintro a ha b hb rfl
          exact hfr (mem_singleton.mp hb ▸ ha)⟩)
        (by
          intro v hv
          obtain hv | hv := mem_append.mp hv
          · exact Finset.mem_insert_of_mem (hproc v hv)
          · rw [mem_singleton.mp hv]
            exact Finset.mem_insert_self _ _)
      refine ⟨hnd', fun v => ?_, fun v => ?_⟩
      · rw [hmem, hsp, Finset.mem_insert, or_assoc, or_left_comm, eq_comm]
      · rw [hcands, hsp, mem_append, mem_singleton, Finset.mem_insert, or_assoc]
        by_cases hsame : v = entry.nodeId
        · simp [hsame, hnew]
        · simp [hsame, Ne.symm hsame]

theorem nodup_batchKeys (frontier : List ℕ) : ((neighborsBatchResolved sl pols .both edgeF now frontier).map Prod.fst).Nodup := by
  have hraw : ((neighborsBatchRaw sl .both edgeF now frontier).map Prod.fst).Nodup := by
    rw [neighborsBatchRaw, retainNonempty_map, map_map]
    exact Nodup.map (fun _ _ heq => heq) ((nodup_sortedIds frontier).filter _)
  rw [neighborsBatchResolved]
  split
  · exact hraw
  · dsimp only
    split
    · exact hraw
    · refine Nodup.sublist (filter_sublist.map _) ?_
      rwa [map_map]

theorem lookup_of_mem {ress : List (ℕ × List NeighborRecord)} (hnd : (ress.map Prod.fst).Nodup) {nodeId : ℕ}
    {entries : List NeighborRecord} (hmem : (nodeId, entries) ∈ ress) : ress.lookup nodeId = some entries := by
  induction ress with
  | nil => exact absurd hmem not_mem_nil
  | cons fst ress ih =>
    obtain ⟨hfst, hrest⟩ := nodup_cons.mp hnd
    obtain rfl | hmem := mem_cons.mp hmem
    · exact lookup_cons_self
    · have hne : nodeId ≠ fst.1 := fun heq => hfst (mem_map.mpr ⟨(nodeId, entries), hmem, heq⟩)
      rw [lookup_cons, beq_false_of_ne hne]
      exact ih hrest hmem

theorem exists_batchEntry (h : Stored sl) {frontier : List ℕ} :
    (∃ entry ∈ (neighborsBatchResolved sl pols .both edgeF now frontier).flatMap Prod.snd, entry.nodeId = v) ↔
      ∃ a ∈ frontier, ∃ e, Follows sl pols .both edgeF now a e v := by
  have hreach := @exists_entry sl pols .both edgeF now h frontier fun _ nodeId => nodeId = v
  have hsame : (∃ entry ∈ (neighborsBatchResolved sl pols .both edgeF now frontier).flatMap Prod.snd,
      entry.nodeId = v) ↔ ∃ entry ∈ frontier.flatMap (entriesOf (neighborsBatchResolved sl pols .both edgeF now
        frontier)), entry.nodeId = v := by
    constructor
    · rintro ⟨entry, hent, hnode⟩
      obtain ⟨⟨a, entries⟩, hmem, hent⟩ := mem_flatMap.mp hent
      have hlk := lookup_of_mem (nodup_batchKeys frontier) hmem
      have hat : entry ∈ entriesOf (neighborsBatchResolved sl pols .both edgeF now frontier) a := by
        rw [entriesOf, hlk]
        exact hent
      exact ⟨entry, mem_flatMap.mpr ⟨a, ((mem_entriesOf h).mp hat).1, hat⟩, hnode⟩
    · rintro ⟨entry, hent, hnode⟩
      obtain ⟨a, -, hent⟩ := mem_flatMap.mp hent
      rw [entriesOf] at hent
      cases hlk : (neighborsBatchResolved sl pols .both edgeF now frontier).lookup a with
      | none =>
        rw [hlk] at hent
        exact absurd hent not_mem_nil
      | some entries =>
        rw [hlk] at hent
        obtain ⟨before, after, hsp, -⟩ := lookup_eq_some_iff.mp hlk
        exact ⟨entry, mem_flatMap.mpr ⟨(a, entries), by rw [hsp]; simp, hent⟩, hnode⟩
  rw [hsame, hreach]
  constructor
  · rintro ⟨a, ha, e, _, hfol, rfl⟩
    exact ⟨a, ha, e, hfol⟩
  · rintro ⟨a, ha, e, hfol⟩
    exact ⟨a, ha, e, v, hfol, rfl⟩

variable {candidateIds : List ℕ}

theorem mem_nextFrontier (h : sl.WellFormed) :
    v ∈ nextFrontier sl pols nodeF candidateIds ↔ v ∈ candidateIds ∧ joins sl pols nodeF v = true := by
  rw [nextFrontier, joins]
  split
  · rename_i hfree
    rw [hfree, Bool.true_or]
    exact (and_iff_left rfl).symm
  · rename_i hbd
    rw [mem_filterNodeIds h, Bool.and_comm, Bool.or_eq_true, Bool.and_comm]

theorem nodup_nextFrontier (h : sl.WellFormed) (hnd : candidateIds.Nodup) : (nextFrontier sl pols nodeF candidateIds).Nodup := by
  rw [nextFrontier]
  split
  · exact hnd
  · exact nodup_filterNodeIds h

/-- The layers have finitely many edges, so that the search ends. -/
theorem finite_neighbors (h : Stored sl) : ∃ ends : Finset ℕ, ∀ dir a e b,
    Follows sl pols dir edgeF now a e b → a ∈ ends ∧ b ∈ ends := by
  have hlay : ∀ lay ∈ sl.edgeLayers, ∃ ids : Finset ℕ, ∀ id edge, lay id = some (some edge) → id ∈ ids := by
    intro lay hlay
    obtain hmem | hmem := mem_append.mp hlay
    · obtain ⟨m, -, rfl⟩ := mem_map.mp hmem
      refine ⟨m.edges.keys.toFinset, fun id edge hedge => ?_⟩
      rw [mem_toFinset, ← AList.mem_keys]
      apply AList.lookup_isSome.mp
      rw [Memtable.MemtableState.edgeOpinion, VersionedSlots.headAt] at hedge
      cases hlk : m.edges.lookup id with
      | some slot => rfl
      | none => rw [hlk] at hedge; cases hedge
    · obtain ⟨seg, -, rfl⟩ := mem_map.mp hmem
      refine ⟨seg.edges.keys.toFinset, fun id edge hedge => ?_⟩
      rw [mem_toFinset, ← AList.mem_keys]
      apply AList.lookup_isSome.mp
      rw [Segments.Segment.edgeOpinion, Segments.Segment.getEdge] at hedge
      cases hlk : seg.edges.lookup id with
      | some edge' => rfl
      | none =>
        rw [hlk] at hedge
        split at hedge <;> simp at hedge
  have hends : ∀ lay ∈ sl.edgeLayers, {b | ∃ id edge, lay id = some (some edge) ∧ b ∈ endpoints edge}.Finite := by
    intro lay hmem
    obtain ⟨ids, hids⟩ := hlay lay hmem
    refine (ids.biUnion fun id => (lay id).join.elim ∅ fun edge => (endpoints edge).toFinset).finite_toSet.subset ?_
    rintro b ⟨id, edge, hedge, hb⟩
    refine Finset.mem_coe.mpr (Finset.mem_biUnion.mpr ⟨id, hids id edge hedge, ?_⟩)
    rw [hedge]
    exact mem_toFinset.mpr hb
  obtain hfin := Set.Finite.biUnion (finite_toSet sl.edgeLayers) hends
  refine ⟨hfin.toFinset, ?_⟩
  rintro dir a e b ⟨r, hfnd, rfl, -⟩
  obtain ⟨lay, hmem, edge, hedge, hjn⟩ := neighborFound_edge h hfnd
  have hend : ∀ {v : ℕ}, v = edge.source ∨ v = edge.target → v ∈ hfin.toFinset := by
    intro v hv
    rw [Set.Finite.mem_toFinset]
    refine Set.mem_biUnion hmem ⟨e, edge, hedge, ?_⟩
    rw [endpoints, mem_cons, mem_singleton]
    exact hv
  cases dir with
  | outgoing => exact ⟨hend (Or.inl hjn.1.symm), hend (Or.inr hjn.2.symm)⟩
  | incoming => exact ⟨hend (Or.inr hjn.1.symm), hend (Or.inl hjn.2.symm)⟩
  | both =>
    obtain hout | hin := hjn
    · exact ⟨hend (Or.inl hout.1.symm), hend (Or.inr hout.2.symm)⟩
    · exact ⟨hend (Or.inr hin.1.symm), hend (Or.inl hin.2.symm)⟩

/-- With enough rounds the search returns the nodes that can be reached. -/
theorem componentRounds_spec (h : Stored sl) {start : ℕ} {ends : Finset ℕ} (hends : ∀ dir a e b,
    Follows sl pols dir edgeF now a e b → b ∈ ends) (rds : ℕ) {depth : ℕ} {processed : Finset ℕ}
    {component frontier : List ℕ} (hrds : (ends \ processed).card < rds)
    (hball : Ball (ComponentArc sl pols edgeF nodeF now) start depth (· ∈ component) frontier)
    (hnd : component.Nodup) (hcmp : ∀ v ∈ component, v ∈ processed)
    (hproc : ∀ v ∈ processed, joins sl pols nodeF v = true → v ∈ component) :
    ∃ res, componentRounds sl pols edgeF nodeF now rds processed component frontier = some res ∧ res.Nodup ∧ ∀ v, v ∈ res ↔
          ∃ k, Hops (ComponentArc sl pols edgeF nodeF now) k start v := by
  have hdone : ∀ {depth : ℕ} {component : List ℕ}, Ball (ComponentArc sl pols edgeF nodeF now) start
      depth (· ∈ component) [] → ∀ v, v ∈ component ↔ ∃ k, Hops (ComponentArc sl pols edgeF nodeF now) k start v := by
    intro depth component hball v
    constructor
    · intro hv
      obtain ⟨i, -, hops⟩ := (hball.visited v).mp hv
      exact ⟨i, hops⟩
    · rintro ⟨k, hops⟩
      exact hball.exhausted hops
  induction rds generalizing depth processed component frontier with
  | zero => exact absurd hrds (Nat.not_lt_zero _)
  | succ rds ih =>
    rw [componentRounds]
    split
    · rename_i hemp
      rw [isEmpty_iff.mp hemp] at hball
      exact ⟨component, rfl, hnd, hdone hball⟩
    · have hfnd := processNeighbor_foldl ((neighborsBatchResolved sl pols .both edgeF now frontier).flatMap
        Prod.snd) ⟨processed, []⟩ nodup_nil fun v hv => absurd hv not_mem_nil
      dsimp only at hfnd ⊢
      generalize ((neighborsBatchResolved sl pols .both edgeF now frontier).flatMap Prod.snd).foldl
        processNeighbor ⟨processed, []⟩ = found at hfnd ⊢
      obtain ⟨hdist, hmem, hcands⟩ := hfnd
      have hnew : ∀ v, v ∈ found.candidateIds ↔ v ∉ processed ∧ ∃ a ∈ frontier, ∃ e, Follows sl pols .both edgeF now a e v := by
        intro v
        rw [hcands, exists_batchEntry h]
        simp
      have hnext : ∀ v, v ∈ nextFrontier sl pols nodeF found.candidateIds ↔ v ∉ component ∧
          ∃ a ∈ frontier, ∃ e, ComponentArc sl pols edgeF nodeF now a e v := by
        intro v
        rw [mem_nextFrontier h.wellFormed, hnew]
        constructor
        · rintro ⟨⟨hfr, a, ha, e, hfol⟩, hjn⟩
          exact ⟨fun hold => hfr (hcmp v hold), a, ha, e, hfol, hjn⟩
        · rintro ⟨hfr, a, ha, e, hfol, hjn⟩
          exact ⟨⟨fun hold => hfr (hproc v hold hjn), a, ha, e, hfol⟩, hjn⟩
      have hgrown := hball.grow hnext
      split
      · rename_i hemp
        rw [isEmpty_iff.mp hemp] at hgrown
        have hnone : nextFrontier sl pols nodeF [] = [] := by
          rw [eq_nil_iff_forall_not_mem]
          exact fun v hv => absurd ((mem_nextFrontier h.wellFormed).mp hv).1 not_mem_nil
        rw [hnone] at hgrown
        refine ⟨component, rfl, hnd, @hdone (depth + 1) _ ⟨fun v => ?_, hgrown.frontier⟩⟩
        rw [← hgrown.visited]
        simp
      · rename_i hsome
        obtain ⟨fst, hfst⟩ := exists_mem_of_ne_nil _ fun hnil => hsome (isEmpty_iff.mpr hnil)
        obtain ⟨hfr, a, ha, e, hfol⟩ := (hnew fst).mp hfst
        have hall : ∀ v, v ∈ found.processed ↔ v ∈ processed ∨ v ∈ found.candidateIds := by
          intro v
          rw [hmem, hnew, exists_batchEntry h]
          by_cases hold : v ∈ processed <;> simp [hold]
        refine ih ?_ ⟨fun v => ?_, hgrown.frontier⟩ ?_ (fun v hv => ?_) fun v hv hjn => ?_
        · have hless : (ends \ found.processed).card < (ends \ processed).card := by
            apply Finset.card_lt_card
            refine Finset.ssubset_iff_subset_ne.mpr ⟨Finset.sdiff_subset_sdiff subset_rfl fun v hv => (hall v).mpr (Or.inl hv), ?_⟩
            intro hsame
            have hin : fst ∈ ends \ processed := Finset.mem_sdiff.mpr ⟨hends _ _ _ _ hfol, hfr⟩
            rw [← hsame] at hin
            exact (Finset.mem_sdiff.mp hin).2 ((hall fst).mpr (Or.inr hfst))
          omega
        · rw [mem_append]
          exact hgrown.visited v
        · refine Nodup.append hnd (nodup_nextFrontier h.wellFormed hdist) fun v hold hnew' => ?_
          exact ((hnext v).mp hnew').1 hold
        · obtain hold | hnew' := mem_append.mp hv
          · exact (hall v).mpr (Or.inl (hcmp v hold))
          · exact (hall v).mpr (Or.inr ((mem_nextFrontier h.wellFormed).mp hnew').1)
        · obtain hold | hcand := (hall v).mp hv
          · exact mem_append_left _ (hproc v hold hjn)
          · exact mem_append_right _ ((mem_nextFrontier h.wellFormed).mpr ⟨hcand, hjn⟩)

end

section
variable (sl : SourceList) (pols : Option PrecomputedPruneCutoffs) (labelUpperBound : ℕ → Option ℕ)
  (edgeF : Option (List ℕ)) (nodeF : ResolvedNodeLabelFilter) (now : ℤ) (nodeId : ℕ)

/-- The nodes that a result names like the node, in order. -/
def membersOf (components : Map ℕ ℕ) (nodeId : ℕ) : List ℕ :=
  match components.lookup nodeId with
  | none => []
  | some c => (components.keys.filter fun m => decide (components.lookup m = some c)).insertionSort (· ≤ ·)

/-- The component of a node is what the components of all nodes say, and each of these is named by its least node. -/
structure ComponentsAgree : Prop where
  component : ∃ enough, ∀ rounds, enough ≤ rounds → componentOf sl pols edgeF nodeF now rounds nodeId =
      some (membersOf (connectedComponents sl pols labelUpperBound edgeF nodeF now) nodeId)
  components : ∀ m c, (connectedComponents sl pols labelUpperBound edgeF nodeF now).lookup m =
    some c ↔ selected sl pols nodeF m = true ∧ IsLeast {v | Connected sl pols edgeF nodeF now m v} c

def ReachesRecords : Prop := ∀ k v, Hops (Follows sl pols .both edgeF now) k nodeId v → (sl.findNode v).isSome

variable {sl pols labelUpperBound edgeF nodeF now nodeId}

theorem sorted_unique {fst snd : List ℕ} (hfst : fst.Nodup) (hsnd : snd.Nodup) (hmem : ∀ v, v ∈ fst ↔ v ∈ snd) :
    fst.insertionSort (· ≤ ·) = snd.insertionSort (· ≤ ·) := by
  have hperm : fst.Perm snd := (perm_ext_iff_of_nodup hfst hsnd).mpr hmem
  have hsort := ((perm_insertionSort (· ≤ ·) fst).trans hperm).trans (perm_insertionSort (· ≤ ·) snd).symm
  exact hsort.eq_of_pairwise (fun a b _ _ hab hba => le_antisymm hab hba) (pairwise_insertionSort (· ≤ ·) fst)
    (pairwise_insertionSort (· ≤ ·) snd)

/-- The component that the search returns, with enough rounds. -/
theorem componentOf_spec (h : Stored sl) (hsel : selected sl pols nodeF nodeId = true) : ∃ res : List ℕ, res.Nodup ∧ (∀ v, v ∈ res ↔
        ∃ k, Hops (ComponentArc sl pols edgeF nodeF now) k nodeId v) ∧
      ∃ enough, ∀ rds, enough ≤ rds → componentOf sl pols edgeF nodeF now rds nodeId = some (res.insertionSort (· ≤ ·)) := by
  have hjn : joins sl pols nodeF nodeId = true := by rw [joins, hsel, Bool.or_true]
  obtain ⟨-, hkept, hrec⟩ := selected_iff.mp hsel
  obtain ⟨startNode, hget⟩ := Option.isSome_iff_exists.mp (getNode_isSome.mpr ⟨hrec, hkept⟩)
  have hmat := hsel
  rw [getNode_selected hget] at hmat
  have hfits : ResolvedNodeLabelFilter.isEmptyConstraint nodeF = false := by
    cases nodeF with
    | empty mode unknownLabelCount => simp [nodeLabelFilterMatches] at hmat
    | _ => rfl
  have hsrch : ∀ rds, componentOf sl pols edgeF nodeF now rds nodeId = if edgeF.any (·.isEmpty) then some [nodeId]
      else (componentRounds sl pols edgeF nodeF now rds {nodeId} [nodeId] [nodeId]).map
        (insertionSort (· ≤ ·)) := by
    intro rds
    rw [componentOf, hfits, if_neg Bool.false_ne_true, hget]
    dsimp only
    rw [hmat, Bool.not_true, if_neg Bool.false_ne_true]
  by_cases hlabs : edgeF.any (·.isEmpty) = true
  · obtain rfl : edgeF = some [] := by
      cases edgeF with
      | none => cases hlabs
      | some labelIds => rw [isEmpty_iff.mp hlabs]
    refine ⟨[nodeId], nodup_singleton _, fun v => ?_, 0, fun rds _ => by rw [hsrch, if_pos hlabs]; rfl⟩
    rw [mem_singleton]
    constructor
    · rintro rfl
      exact ⟨0, hops_zero.mpr rfl⟩
    · rintro ⟨k, hops⟩
      cases k with
      | zero => exact (hops_zero.mp hops).symm
      | succ k =>
        obtain ⟨a, -, e, ⟨r, hfnd, -⟩, -⟩ := hops_succ.mp hops
        exact absurd hfnd not_found_of_empty
  · obtain ⟨ends, hends⟩ := @finite_neighbors sl pols edgeF now h
    have hst := ball_start (ComponentArc sl pols edgeF nodeF now) nodeId
    have hrun : ∀ rds, (ends \ {nodeId}).card < rds → _ := fun rds hrds =>
      @componentRounds_spec sl pols edgeF nodeF now h nodeId ends
        (fun dir a e b hfol => (hends dir a e b hfol).2) rds 0 {nodeId} [nodeId]
        [nodeId] hrds ⟨fun v => mem_singleton.trans (hst.visited v), hst.frontier⟩ (nodup_singleton _)
        (fun v hv => Finset.mem_singleton.mpr (mem_singleton.mp hv)) fun v hv _ => mem_singleton.mpr (Finset.mem_singleton.mp hv)
    obtain ⟨res, -, hnd, hmem⟩ := hrun _ (Nat.lt_succ_self _)
    refine ⟨res, hnd, hmem, (ends \ {nodeId}).card + 1, fun rds hrds => ?_⟩
    obtain ⟨other, hoth, hnd', hmem'⟩ := hrun rds hrds
    rw [hsrch, if_neg hlabs, hoth, Option.map_some, sorted_unique hnd' hnd fun v => (hmem' v).trans (hmem v).symm]

theorem componentOf_hidden (hhid : selected sl pols nodeF nodeId = false) (rds : ℕ) :
    componentOf sl pols edgeF nodeF now rds nodeId = some [] := by
  rw [componentOf]
  split
  · rfl
  · cases hget : getNode sl pols nodeId with
    | none => rfl
    | some startNode =>
      dsimp only
      rw [getNode_selected hget] at hhid
      rw [hhid, Bool.not_false, if_pos rfl]

theorem hops_iff_connected (h : Stored sl) (hends : EndsKept sl) (hnos : NodesKept sl)
    (hsel : selected sl pols nodeF nodeId = true) (hrecs : pols.isSome ∨ isUnconstrained nodeF = false ∨
      ReachesRecords sl pols edgeF now nodeId) (v : ℕ) :
    (∃ k, Hops (ComponentArc sl pols edgeF nodeF now) k nodeId v) ↔ Connected sl pols edgeF nodeF now nodeId v := by
  have hlink : ∀ {u e v}, selected sl pols nodeF u = true → selected sl pols nodeF v = true →
      (Follows sl pols .both edgeF now u e v ↔ Linked sl .outgoing edgeF now u e v ∨ Linked sl .outgoing edgeF now v e u) :=
    fun hu hv => (linked_iff hnos (selected_record hu) hv).trans (linked_both h hends)
  constructor
  · rintro ⟨k, hops⟩
    induction k generalizing v with
    | zero => exact hops_zero.mp hops ▸ .refl _
    | succ k ih =>
      obtain ⟨u, hops', e, hfol, hjn⟩ := hops_succ.mp hops
      have hconn := ih u hops'
      have hu := hconn.selected.mp hsel
      have hv : selected sl pols nodeF v = true := by
        rw [joins, Bool.or_eq_true] at hjn
        obtain hfree | hbd := hjn
        · rw [Bool.and_eq_true] at hfree
          obtain hsome | hcon | hreach := hrecs
          · rw [Option.isNone_iff_eq_none.mp hfree.2] at hsome
            cases hsome
          · rw [hfree.1] at hcon
            cases hcon
          · obtain ⟨-, -, -, -, hkept⟩ := id hfol
            have hwalk := EmitFilters.hops_mono (fun a e b harc => And.left harc) hops
            exact selected_iff.mpr ⟨by rw [passes, hfree.1, Bool.true_or], hkept, hreach (k + 1) v hwalk⟩
        · exact hbd
      apply hconn.trans
      obtain hout | hin := (hlink hu hv).mp hfol
      · exact .rel _ _ ⟨hu, hv, e, hout⟩
      · exact .symm _ _ (.rel _ _ ⟨hv, hu, e, hin⟩)
  · intro hconn
    have hstep : ∀ {u v e}, selected sl pols nodeF u = true → selected sl pols nodeF v = true →
        Linked sl .outgoing edgeF now u e v ∨ Linked sl .outgoing edgeF now v e u →
        (∃ k, Hops (ComponentArc sl pols edgeF nodeF now) k nodeId u) →
        ∃ k, Hops (ComponentArc sl pols edgeF nodeF now) k nodeId v := by
      rintro u v e hu hv hlinked ⟨k, hops⟩
      exact ⟨k + 1, hops_succ.mpr ⟨u, hops, e, (hlink hu hv).mpr hlinked, by rw [joins, hv, Bool.or_true]⟩⟩
    have hboth : ∀ {u v}, Connected sl pols edgeF nodeF now u v → ((∃ k, Hops (ComponentArc sl pols edgeF nodeF now) k nodeId u) ↔
          ∃ k, Hops (ComponentArc sl pols edgeF nodeF now) k nodeId v) := by
      intro u v huv
      induction huv with
      | rel u v hadj =>
        obtain ⟨hu, hv, e, hlinked⟩ := hadj
        exact ⟨hstep hu hv (Or.inl hlinked), hstep hv hu (Or.inr hlinked)⟩
      | refl u => exact Iff.rfl
      | symm u v _ ih => exact ih.symm
      | trans u v w _ _ ih ih' => exact ih.trans ih'
    exact (hboth hconn).mp ⟨0, hops_zero.mpr rfl⟩

theorem mem_membersOf (h : Stored sl) (hnos : NodesKept sl) (hsel : selected sl pols nodeF nodeId = true) :
    ∃ members : List ℕ, members.Nodup ∧ (∀ v, v ∈ members ↔ Connected sl pols edgeF nodeF now nodeId v) ∧
      membersOf (connectedComponents sl pols labelUpperBound edgeF nodeF now) nodeId = members.insertionSort (· ≤ ·) := by
  have hlk := @lookup_connectedComponents sl pols edgeF nodeF now h hnos labelUpperBound
  generalize connectedComponents sl pols labelUpperBound edgeF nodeF now = components at hlk ⊢
  have hlst : ∃ c, IsLeast {w | Connected sl pols edgeF nodeF now nodeId w} c := by
    obtain ⟨c, hc, hmin⟩ := (inferInstance : WellFoundedLT ℕ).wf.has_min
      {w | Connected sl pols edgeF nodeF now nodeId w} ⟨nodeId, .refl _⟩
    exact ⟨c, hc, fun w hw => not_lt.mp (hmin w hw)⟩
  obtain ⟨c, hc⟩ := hlst
  have hnamed := (hlk nodeId c).mpr ⟨hsel, hc⟩
  refine ⟨components.keys.filter fun m => decide (components.lookup m = some c), components.keys_nodup.filter _, fun v => ?_, ?_⟩
  · rw [mem_filter, decide_eq_true_eq]
    constructor
    · rintro ⟨-, hv⟩
      obtain ⟨-, hlst⟩ := (hlk v c).mp hv
      have hback : Connected sl pols edgeF nodeF now v c := hlst.1
      exact Relation.EqvGen.trans _ _ _ hc.1 (.symm _ _ hback)
    · intro hconn
      have hsame : {w | Connected sl pols edgeF nodeF now v w} = {w | Connected sl pols edgeF nodeF now nodeId w} :=
        Set.ext fun w => ⟨fun hw => Relation.EqvGen.trans _ _ _ hconn hw, fun hw => Relation.EqvGen.trans _ _ _ (.symm _ _ hconn) hw⟩
      have hv : components.lookup v = some c := (hlk v c).mpr ⟨hconn.selected.mp hsel, hsame ▸ hc⟩
      exact ⟨AList.mem_keys.mp (AList.lookup_isSome.mp (by rw [hv]; rfl)), hv⟩
  · rw [membersOf, hnamed]

end

theorem nodesKept_strayEdge : NodesKept strayEdge := by
  intro id htomb
  have hnone : isNodeTombstoned strayEdge id = false := rfl
  rw [hnone] at htomb
  cases htomb

end OverGraph.Components
