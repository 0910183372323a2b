import OverGraph.Traversals

/-!
# A filter on what a traversal emits

The filter is meant for the hits alone. But without policies a traversal with a filter looks up the nodes of each layer and goes on
only from those that have a record, where a traversal without one goes on from every node. The hits are the same as long as
no node is found first through one that has no record.
-/

namespace OverGraph.EmitFilters
open Records Sources SnapshotReads AdjacencyReads GraphWalks Expansion PrunePolicies Traversals List Nat
open NodeFilters (ResolvedNodeLabelFilter nodeLabelFilterMatches)
open EdgeCandidates (nodeVisible)

section
variable (sl : SourceList) (fids : Option (List ℕ)) (now : ℤ) (pols : Option PrecomputedPruneCutoffs)
  (scoreOf : F64 → ℕ → F64) (dir : Direction) (start maxDepth pageLimit : ℕ)

/-- An arc of the traversal without a filter. -/
abbrev PlainArc : ℕ → ℕ → ℕ → Prop := TraverseArc sl fids now pols .unconstrained dir

/-- The single page without a filter has the nodes at the depths asked for, in order and with the least pairs; a filter takes the
matching hits out of it; and the pages put together are the single page. -/
def TraversesRight : Prop :=
  ∀ opts : TraverseOptions, opts.direction = dir → opts.minDepth ≤ maxDepth →
    (opts.decayLambda.any fun lambda => !finiteNonNegative lambda) = false → opts.limit = none → opts.cursor = none →
    ∃ hits, traverse sl fids now pols .unconstrained scoreOf start maxDepth opts = .ok ⟨hits, none⟩ ∧
      HitsUpTo (PlainArc sl fids now pols dir) start opts.minDepth (fun _ => true)
        (traversalScore scoreOf opts.decayLambda) maxDepth (nodeVisible sl pols start = true) hits ∧
      ∀ emitF, traverse sl fids now pols emitF scoreOf start maxDepth opts =
          .ok ⟨hits.filter fun hit => matching sl emitF hit.nodeId, none⟩ ∧
        ∀ requests, hits.length < requests → followPages sl fids now pols emitF scoreOf start maxDepth
            { opts with limit := some pageLimit } requests none = some (hits.filter fun hit => matching sl emitF hit.nodeId)

def FoundThroughRecords : Prop :=
  ∀ k nodeId, k < maxDepth → (sl.findNode nodeId).isSome → Nearest (PlainArc sl fids now pols dir) (k + 1) start nodeId →
    ∀ source edgeId, ViaLink (PlainArc sl fids now pols dir) start k nodeId source edgeId → (sl.findNode source).isSome

end

section
variable {sl : SourceList} {fids : Option (List ℕ)} {now : ℤ} {pols : Option PrecomputedPruneCutoffs}
  {scoreOf : F64 → ℕ → F64} {dir : Direction} {start maxDepth : ℕ} {emitF : ResolvedNodeLabelFilter}

theorem nodeVisible_none (nodeId : ℕ) : nodeVisible sl none nodeId = (sl.findNode nodeId).isSome := by
  rw [nodeVisible]
  cases sl.findNode nodeId <;> rfl

/-- With policies, or without a filter, the same nodes are passed. -/
theorem crossable_same (hsame : pols.isSome ∨ isUnconstrained emitF = true) (nodeId : ℕ) :
    crossable sl pols emitF nodeId = crossable sl pols .unconstrained nodeId := by
  obtain hsome | hpl := hsame
  · obtain ⟨cutoffs, rfl⟩ := Option.isSome_iff_exists.mp hsome
    rfl
  · rw [crossable, hpl]
    rfl

variable {nodeId : ℕ}

theorem matching_record (hfil : isUnconstrained emitF = false) (h : matching sl emitF nodeId = true) :
    (sl.findNode nodeId).isSome := by
  rw [matching, hfil, Bool.false_or] at h
  cases hfind : sl.findNode nodeId with
  | none => rw [hfind] at h; cases h
  | some node => rfl

/-- A link of a node at a distance is among the links of the nodes that are as far. -/
theorem exists_viaLink {arc : ℕ → ℕ → ℕ → Prop} {root k : ℕ} (h : Nearest arc (k + 1) root nodeId) :
    ∃ src edgeId, ViaLink arc root k nodeId src edgeId := by
  obtain ⟨src, hsrc, edgeId, harc⟩ := h.pred
  obtain ⟨least, ⟨hnear, hlst⟩, hmin⟩ := (inferInstance : WellFoundedLT (ℕ ×ₗ ℕ)).wf.has_min
    {pair : ℕ ×ₗ ℕ | Nearest arc k root (ofLex pair).1 ∧ arc (ofLex pair).1 (ofLex pair).2 nodeId} ⟨toLex (src, edgeId), hsrc, harc⟩
  exact ⟨(ofLex least).1, (ofLex least).2, hnear, hlst, fun source' edgeId' hsource' harc' =>
    not_lt.mp (hmin (toLex (source', edgeId')) ⟨hsource', harc'⟩)⟩

theorem hops_mono {arc other : ℕ → ℕ → ℕ → Prop} (harc : ∀ a e b, arc a e b → other a e b) {k a b : ℕ} (h : Hops arc k a b) :
    Hops other k a b := by
  obtain ⟨steps, hwalk, hlen⟩ := h
  exact ⟨steps, isWalk_mono harc hwalk, hlen⟩

section
variable (hfil : isUnconstrained emitF = false)
include hfil

theorem filterArc_iff {a e b : ℕ} : TraverseArc sl fids now none emitF dir a e b ↔
      PlainArc sl fids now none dir a e b ∧ (sl.findNode b).isSome := by
  rw [PlainArc, TraverseArc, TraverseArc, crossable, crossable, hfil, nodeVisible_none]
  simp [isUnconstrained]

section
variable (hrecs : FoundThroughRecords sl fids now none dir start maxDepth)
include hrecs

/-- Where nodes are found through records, a node with a record is as near with the filter, by the same link. -/
theorem nearest_filter (k : ℕ) (hk : k ≤ maxDepth)
    (hrec : (sl.findNode nodeId).isSome) (h : Nearest (PlainArc sl fids now none dir) k start nodeId) :
    Nearest (TraverseArc sl fids now none emitF dir) k start nodeId := by
  have hsub : ∀ a e b, TraverseArc sl fids now none emitF dir a e b →
      PlainArc sl fids now none dir a e b := fun a e b harc => ((filterArc_iff hfil).mp harc).1
  refine ⟨?_, fun i hi hops => h.2 i hi (hops_mono hsub hops)⟩
  induction k generalizing nodeId with
  | zero => exact hops_zero.mpr (hops_zero.mp h.1)
  | succ k ih =>
    obtain ⟨src, edgeId, hlink⟩ := exists_viaLink h
    have hsrc := hrecs k nodeId (by omega) hrec h src edgeId hlink
    exact hops_succ.mpr ⟨src, ih (by omega) hsrc hlink.1, edgeId, (filterArc_iff hfil).mpr ⟨hlink.2.1, hrec⟩⟩

theorem viaLink_filter {k src edgeId : ℕ} (hk : k < maxDepth) (hrec : (sl.findNode nodeId).isSome)
    (h : Nearest (PlainArc sl fids now none dir) (k + 1) start nodeId)
    (hlink : ViaLink (PlainArc sl fids now none dir) start k nodeId src edgeId) :
    ViaLink (TraverseArc sl fids now none emitF dir) start k nodeId src edgeId := by
  have hsrc := hrecs k nodeId hk hrec h src edgeId hlink
  refine ⟨nearest_filter hfil hrecs k (by omega) hsrc hlink.1, (filterArc_iff hfil).mpr ⟨hlink.2.1, hrec⟩, ?_⟩
  intro source' edgeId' hnear' harc'
  obtain ⟨hpl, -⟩ := (filterArc_iff hfil).mp harc'
  apply hlink.2.2 source' edgeId' _ hpl
  refine ⟨hops_mono (fun a e b harc => ((filterArc_iff hfil).mp harc).1) hnear'.1, fun i hi hops => ?_⟩
  exact h.2 (i + 1) (by omega) (hops_succ.mpr ⟨source', hops, edgeId', hpl⟩)

/-- The hits with a filter are the matching hits without one. -/
theorem isHit_filter {minDepth : ℕ} {score : ℕ → Option F64}
    {hit : TraversalHit} (hdep : hit.depth ≤ maxDepth) :
    IsHit (TraverseArc sl fids now none emitF dir) start minDepth (matching sl emitF) score hit ↔
      IsHit (PlainArc sl fids now none dir) start minDepth (fun _ => true) score hit ∧ matching sl emitF hit.nodeId = true := by
  obtain ⟨nodeId, depth, viaEdgeId, hitScore⟩ := hit
  have hsub : ∀ a e b, TraverseArc sl fids now none emitF dir a e b →
      PlainArc sl fids now none dir a e b := fun a e b harc => ((filterArc_iff hfil).mp harc).1
  constructor
  · intro hhit
    have hrec := matching_record hfil hhit.emitted
    obtain ⟨i, hi, hpl⟩ := exists_nearest (hops_mono hsub hhit.nearest.1)
    have hnear : Nearest (PlainArc sl fids now none dir) depth start nodeId := by
      have hsame : i = depth := (nearest_filter hfil hrecs i (hi.trans hdep) hrec hpl).unique hhit.nearest
      rwa [hsame] at hpl
    refine ⟨⟨hhit.deep, hnear, rfl, ?_, hhit.score⟩, hhit.emitted⟩
    cases depth with
    | zero => exact hhit.via
    | succ k =>
      obtain ⟨src, edgeId, hvia, hlink⟩ := hhit.via
      obtain ⟨source', edgeId', hplainLink⟩ := exists_viaLink hnear
      obtain ⟨rfl, rfl⟩ := (viaLink_filter hfil hrecs (lt_of_succ_le hdep) hrec hnear hplainLink).unique hlink
      exact ⟨source', edgeId', hvia, hplainLink⟩
  · rintro ⟨hhit, hm'⟩
    have hrec := matching_record hfil hm'
    refine ⟨hhit.deep, nearest_filter hfil hrecs depth hdep hrec hhit.nearest, hm', ?_, hhit.score⟩
    cases depth with
    | zero => exact hhit.via
    | succ k =>
      obtain ⟨src, edgeId, hvia, hlink⟩ := hhit.via
      exact ⟨src, edgeId, hvia, viaLink_filter hfil hrecs (lt_of_succ_le hdep) hrec hhit.nearest hlink⟩

end

end

/-- With a filter all hits are the matching hits without one. -/
def KeepsMatching (sl : SourceList) (fids : Option (List ℕ)) (now : ℤ) (pols : Option PrecomputedPruneCutoffs)
    (scoreOf : F64 → ℕ → F64) (start maxDepth : ℕ) (opts : TraverseOptions) : Prop :=
  ∀ emitF, allHits sl fids now pols emitF scoreOf start maxDepth opts =
    (allHits sl fids now pols .unconstrained scoreOf start maxDepth opts).filter
      fun hit => matching sl emitF hit.nodeId

variable {opts : TraverseOptions}

theorem hitsUpTo_filter {hits : List TraversalHit}
    (h : HitsUpTo (PlainArc sl fids now pols opts.direction) start opts.minDepth (fun _ => true)
      (traversalScore scoreOf opts.decayLambda) maxDepth (nodeVisible sl pols start = true) hits)
    (hsame : ∀ hit : TraversalHit, hit.depth ≤ maxDepth → (IsHit (TraverseArc sl fids now pols emitF opts.direction) start opts.minDepth
          (matching sl emitF) (traversalScore scoreOf opts.decayLambda) hit ↔
        IsHit (PlainArc sl fids now pols opts.direction) start opts.minDepth (fun _ => true)
          (traversalScore scoreOf opts.decayLambda) hit ∧ matching sl emitF hit.nodeId = true)) :
    HitsUpTo (TraverseArc sl fids now pols emitF opts.direction) start opts.minDepth
      (matching sl emitF) (traversalScore scoreOf opts.decayLambda) maxDepth (nodeVisible sl pols start = true)
      (hits.filter fun hit => matching sl emitF hit.nodeId) := by
  refine ⟨h.sorted.filter _, fun hit => ?_⟩
  rw [mem_filter, h.mem]
  constructor
  · rintro ⟨⟨hshown, hdep, hhit⟩, hm'⟩
    exact ⟨hshown, hdep, (hsame hit hdep).mpr ⟨hhit, hm'⟩⟩
  · rintro ⟨hshown, hdep, hhit⟩
    obtain ⟨hpl, hm'⟩ := (hsame hit hdep).mp hhit
    exact ⟨⟨hshown, hdep, hpl⟩, hm'⟩

theorem plain_spec (h : Stored sl) (opts : TraverseOptions) :
    HitsUpTo (PlainArc sl fids now pols opts.direction) start opts.minDepth (fun _ => true)
      (traversalScore scoreOf opts.decayLambda) maxDepth (nodeVisible sl pols start = true)
      (allHits sl fids now pols .unconstrained scoreOf start maxDepth opts) :=
  allHits_spec h

theorem keepsMatching_of_hidden (h : Stored sl) (hhid : nodeVisible sl pols start = false) (opts : TraverseOptions) :
    KeepsMatching sl fids now pols scoreOf start maxDepth opts ∧
      allHits sl fids now pols .unconstrained scoreOf start maxDepth opts = [] := by
  have hnil : ∀ emitF, allHits sl fids now pols emitF scoreOf start maxDepth opts = [] := by
    intro emitF
    rw [eq_nil_iff_forall_not_mem]
    intro hit hmem
    have hshown := (((allHits_spec h).mem hit).mp hmem).1
    rw [hhid] at hshown
    cases hshown
  refine ⟨fun emitF => ?_, hnil _⟩
  rw [hnil, hnil, filter_nil]

theorem keepsMatching (h : Stored sl) (opts : TraverseOptions)
    (hthro : pols.isSome ∨ FoundThroughRecords sl fids now pols opts.direction start maxDepth) :
    KeepsMatching sl fids now pols scoreOf start maxDepth opts := by
  intro emitF
  apply HitsUpTo.unique (allHits_spec h)
  apply hitsUpTo_filter (plain_spec h opts)
  intro hit hdep
  have harcs : (pols.isSome ∨ isUnconstrained emitF = true) → TraverseArc sl fids now pols emitF opts.direction =
        PlainArc sl fids now pols opts.direction := by
    intro hsame
    funext src edgeId nbr
    rw [PlainArc, TraverseArc, TraverseArc, crossable_same hsame]
  have hmatc : (pols.isSome ∨ isUnconstrained emitF = true) → (IsHit (TraverseArc sl fids now pols emitF opts.direction) start opts.minDepth
          (matching sl emitF) (traversalScore scoreOf opts.decayLambda) hit ↔
        IsHit (PlainArc sl fids now pols opts.direction) start opts.minDepth (fun _ => true)
          (traversalScore scoreOf opts.decayLambda) hit ∧ matching sl emitF hit.nodeId = true) := by
    intro hsame
    rw [harcs hsame]
    constructor
    · exact fun hhit => ⟨⟨hhit.deep, hhit.nearest, rfl, hhit.via, hhit.score⟩, hhit.emitted⟩
    · exact fun hhit => ⟨hhit.1.deep, hhit.1.nearest, hhit.2, hhit.1.via, hhit.1.score⟩
  obtain hsome | hrecs := hthro
  · exact hmatc (Or.inl hsome)
  · cases hcuto : pols with
    | some cutoffs =>
      rw [← hcuto]
      exact hmatc (Or.inl (by rw [hcuto]; rfl))
    | none =>
      cases hpl : isUnconstrained emitF with
      | true =>
        rw [← hcuto]
        exact hmatc (Or.inr hpl)
      | false =>
        rw [hcuto] at hrecs
        exact isHit_filter hpl hrecs hdep

/-- The traversal asked for with the least depth and without scores. -/
def plainOptions (dir : Direction) : TraverseOptions := ⟨0, dir, none, none, none⟩

theorem foundThroughRecords (h : Stored sl) (hends : EndsKept sl) (hst : nodeVisible sl none start = true)
    (hkeeps : KeepsMatching sl fids now none scoreOf start maxDepth (plainOptions dir)) :
    FoundThroughRecords sl fids now none dir start maxDepth := by
  intro k nodeId hk hrec hnear src edgeId hlink
  obtain ⟨node, hnode⟩ := Option.isSome_iff_exists.mp hrec
  -- a filter that the node's own labels pass
  have hm' : matching sl (.labelSet .all node.labelIds 0) nodeId = true := by
    rw [matching_some hnode, nodeLabelFilterMatches]
    simp [NodeLabelSet.contains]
  have hhit : (⟨nodeId, k + 1, some edgeId, none⟩ : TraversalHit) ∈
      allHits sl fids now none .unconstrained scoreOf start maxDepth (plainOptions dir) :=
    ((plain_spec h (plainOptions dir)).mem _).mpr ⟨hst, hk, Nat.zero_le _, hnear, rfl, ⟨src, edgeId, rfl, hlink⟩, rfl⟩
  have hkept : (⟨nodeId, k + 1, some edgeId, none⟩ : TraversalHit) ∈
      allHits sl fids now none (.labelSet .all node.labelIds 0) scoreOf start maxDepth (plainOptions dir) := by
    rw [hkeeps]
    exact mem_filter.mpr ⟨hhit, hm'⟩
  obtain ⟨source', edgeId', hvia, hlink'⟩ := ((allHits_spec h).mem _).mp hkept |>.2.2.via
  obtain rfl := Option.some.inj hvia
  -- an edge leads to a node from one other node
  have hsrc : src = source' := by
    have hback : ∀ other, Linked sl dir fids now other edgeId nodeId → Linked sl (reverseDirection dir) fids now nodeId edgeId other := by
      intro other hlinked
      rw [linked_reverse h hends]
      exact hlinked
    obtain ⟨r, hfnd, rfl, -⟩ := hback src hlink.2.1.1
    obtain ⟨record', hfound', rfl, -⟩ := hback source' hlink'.2.1.1
    rw [hfnd] at hfound'
    rw [Option.some.inj hfound']
  rw [hsrc]
  -- with the filter only records are passed
  have hpassed : crossable sl none (.labelSet .all node.labelIds 0) source' = true := by
    obtain hzero | hpos := Nat.eq_zero_or_pos k
    · obtain rfl : start = source' := hops_zero.mp (hzero ▸ hlink'.1.1)
      exact hst
    · obtain ⟨before, hsucc⟩ := Nat.exists_eq_succ_of_ne_zero (Nat.pos_iff_ne_zero.mp hpos)
      obtain ⟨_, _, _, hpassed⟩ := hops_succ.mp (hsucc ▸ hlink'.1.1)
      exact hpassed.2
  have hvis : nodeVisible sl none source' = true := hpassed
  rwa [nodeVisible_none] at hvis

theorem traverse_single (h : Stored sl) (hlim : opts.limit = none) (hcsr : opts.cursor = none)
    (hdep : opts.minDepth ≤ maxDepth) (hdecay : (opts.decayLambda.any fun lambda => !finiteNonNegative lambda) = false) :
    traverse sl fids now pols emitF scoreOf start maxDepth opts =
      .ok ⟨allHits sl fids now pols emitF scoreOf start maxDepth opts, none⟩ := by
  have hall : ∀ hits : List TraversalHit, afterCursor none hits = hits := fun hits => filter_eq_self.mpr fun _ _ => rfl
  rw [traverse_eq h (by rw [hlim]; exact nofun) hdep hdecay, hlim, hcsr, toPage, pageOf, hall]
  rfl

theorem followPages_zero (hdep : opts.minDepth ≤ maxDepth)
    (hdecay : (opts.decayLambda.any fun lambda => !finiteNonNegative lambda) = false) (requests : ℕ) :
    followPages sl fids now pols emitF scoreOf start maxDepth { opts with limit := some 0 }
      (requests + 1) none = some [] := by
  have hemp : Traversals.traverse sl fids now pols emitF scoreOf start maxDepth
      { opts with limit := some 0, cursor := none } = .ok ⟨[], none⟩ := by
    rw [Traversals.traverse, if_neg (Nat.not_lt.mpr hdep), hdecay, if_neg Bool.false_ne_true, traverseResolved, if_pos rfl, ite_self]
  rw [followPages, hemp]

end

/-- Node 2 has no record and lies between nodes 1 and 3. -/
def gapSources : SourceList :=
  graphSources [CascadingDeletes.person 1 "a", CascadingDeletes.person 3 "c"] [edgeBetween 1 1 2, edgeBetween 2 2 3]

end OverGraph.EmitFilters
