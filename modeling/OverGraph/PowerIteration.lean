import Mathlib.Data.List.GetD
import OverGraph.ForwardPush

/-!
# Power iteration

A search from the seeds finds the nodes that count, wave by wave. Their ranks stand in one list in the order of their ids, and beside it
the weighted edges with places for ids. In each iteration the rank of a node goes to its neighbours, that of a node without outgoing
weight to the seeds, and the seeds have what is left. All edges lead to places in the list, so that no rank is lost.
-/

namespace OverGraph.PowerIteration
open AssocMaps ForwardPush List Nat

structure Discovery where
  discovered : Finset ℕ
  nextWave : List ℕ
  neighborCache : Map ℕ (List (ℕ × ℚ))

def discoverNeighbor (st : Discovery) (entry : ℕ × ℚ) : Discovery :=
  if entry.1 ∈ st.discovered then st
  else { st with discovered := insert entry.1 st.discovered, nextWave := st.nextWave ++ [entry.1] }

def discoverNode (allNeighbors : ℕ → List (ℕ × ℚ)) (st : Discovery) (nodeId : ℕ) : Discovery :=
  let entries := allNeighbors nodeId
  let st := entries.foldl discoverNeighbor st
  { st with neighborCache := st.neighborCache.insert nodeId entries }

/-- The waves of the search, as long as there are rounds left. -/
def discoverWaves (readNeighbors : List ℕ → ℕ → List (ℕ × ℚ)) : ℕ → Discovery → Option Discovery
  | 0, _ => none
  | rds + 1, st =>
    if st.nextWave.isEmpty then some st
    else discoverWaves readNeighbors rds (st.nextWave.foldl (discoverNode (readNeighbors st.nextWave)) { st with nextWave := [] })

def startDiscovery (seeds : List ℕ) : Discovery := ⟨seeds.toFinset, seeds, ∅⟩

structure Dense where
  isDangling : List Bool
  denseNeighbors : List (List (ℕ × ℚ))

/-- An id without a place would be a panic. -/
def idToIdx (idxToId : List ℕ) (id : ℕ) : ℕ := idxToId.idxOf id

def denseNode (idxToId : List ℕ) (dense : Dense) (entry : Sigma fun _ : ℕ => List (ℕ × ℚ)) : Dense :=
  let idx := idToIdx idxToId entry.1
  if entry.2.isEmpty then dense
  else if 0 < totalWeight entry.2 then
    ⟨dense.isDangling.set idx false, dense.denseNeighbors.set idx ((normalized entry.2).map fun nbr => (idToIdx idxToId nbr.1, nbr.2))⟩
  else dense

def buildDense (idxToId : List ℕ) (neighborCache : Map ℕ (List (ℕ × ℚ))) : Dense :=
  neighborCache.entries.foldl (denseNode idxToId) ⟨List.replicate idxToId.length true, List.replicate idxToId.length []⟩

section
variable (dense : Dense) (seedIndices : List ℕ) (damp : ℚ)

/-- An index beyond the list would be a panic. -/
def addRank (rank : List ℚ) (idx : ℕ) (x : ℚ) : List ℚ := rank.modify idx (· + x)

def spreadRank (rank : List ℚ) (st : List ℚ × ℚ) (i : ℕ) : List ℚ × ℚ :=
  let r := rank.getD i 0
  if r = 0 then st
  else if dense.isDangling.getD i true then (st.1, st.2 + r)
  else ((dense.denseNeighbors.getD i []).foldl (fun newRank entry => addRank newRank entry.1 (damp * r * entry.2)) st.1, st.2)

def startRank (n : ℕ) : List ℚ :=
  seedIndices.foldl (fun rank si => rank.set si (1 / (seedIndices.length : ℚ))) (List.replicate n 0)

def powerStep (rank : List ℚ) : List ℚ :=
  let spread := (List.range rank.length).foldl (spreadRank dense damp rank) (List.replicate rank.length 0, 0)
  let danglingPerSeed := damp * spread.2 / (seedIndices.length : ℚ)
  let teleport := (1 - damp) / (seedIndices.length : ℚ)
  seedIndices.foldl (fun newRank si => addRank newRank si (teleport + danglingPerSeed)) spread.1

/-- How far two lists of ranks are apart. -/
def rankDelta (rank newRank : List ℚ) : ℚ := (List.zipWith (fun old new => |old - new|) rank newRank).sum

structure PowerResult where
  rank : List ℚ
  iterations : ℕ
  converged : Bool

def powerIterations (epsilon : ℚ) : ℕ → PowerResult → PowerResult
  | 0, st => st
  | k + 1, st =>
    let newRank := powerStep dense seedIndices damp st.rank
    if rankDelta st.rank newRank < epsilon then ⟨newRank, st.iterations + 1, true⟩
    else powerIterations epsilon k ⟨newRank, st.iterations + 1, false⟩

end

section
variable {graph : WeightedGraph} {st : Discovery}

/-- What holds in a wave of the search that began with the nodes `before`. -/
structure Discovering (graph : WeightedGraph) (before : Finset ℕ) (st : Discovery) : Prop where
  grows : before ⊆ st.discovered
  wave : ∀ v ∈ st.nextWave, v ∈ st.discovered ∧ v ∉ before ∧ v ∈ graph.nodes
  cached : ∀ v entries, st.neighborCache.lookup v = some entries → v ∈ st.discovered ∧ ∀ entry ∈ entries, entry.1 ∈ st.discovered

variable {before : Finset ℕ}

theorem Discovering.discoverNeighbor (h : Discovering graph before st) {entry : ℕ × ℚ} (hent : entry.1 ∈ graph.nodes) :
    Discovering graph before (discoverNeighbor st entry) ∧ entry.1 ∈ (discoverNeighbor st entry).discovered ∧
      st.discovered ⊆ (discoverNeighbor st entry).discovered := by
  rw [PowerIteration.discoverNeighbor]
  split
  · rename_i hmem
    exact ⟨h, hmem, Finset.Subset.refl _⟩
  · rename_i hnew
    refine ⟨⟨fun v hv => Finset.mem_insert_of_mem (h.grows hv), fun v hv => ?_, fun v entries hlk => ?_⟩,
      Finset.mem_insert_self _ _, Finset.subset_insert _ _⟩
    · obtain hv | hv := mem_append.mp hv
      · obtain ⟨hmem, hrest⟩ := h.wave v hv
        exact ⟨Finset.mem_insert_of_mem hmem, hrest⟩
      · obtain rfl := mem_singleton.mp hv
        exact ⟨Finset.mem_insert_self _ _, fun hbef => hnew (h.grows hbef), hent⟩
    · obtain ⟨hmem, hents⟩ := h.cached v entries hlk
      exact ⟨Finset.mem_insert_of_mem hmem, fun other hoth => Finset.mem_insert_of_mem (hents other hoth)⟩

theorem Discovering.discoverNeighbors {entries : List (ℕ × ℚ)} (hents : ∀ entry ∈ entries, entry.1 ∈ graph.nodes)
    (h : Discovering graph before st) : Discovering graph before (entries.foldl PowerIteration.discoverNeighbor st) ∧
      (∀ entry ∈ entries, entry.1 ∈ (entries.foldl PowerIteration.discoverNeighbor st).discovered) ∧
      st.discovered ⊆ (entries.foldl PowerIteration.discoverNeighbor st).discovered := by
  induction entries generalizing st with
  | nil => exact ⟨h, fun entry hent => absurd hent not_mem_nil, Finset.Subset.refl _⟩
  | cons entry entries ih =>
    obtain ⟨hnext, hfst, hgrows⟩ := h.discoverNeighbor (hents entry mem_cons_self)
    obtain ⟨hall, hrest, hmore⟩ := ih (fun other hoth => hents other (mem_cons_of_mem _ hoth)) hnext
    refine ⟨hall, fun other hoth => ?_, hgrows.trans hmore⟩
    obtain rfl | hoth := mem_cons.mp hoth
    · exact hmore hfst
    · exact hrest other hoth

variable {allNeighbors : ℕ → List (ℕ × ℚ)}

theorem Discovering.discoverNode {nodeId : ℕ}
    (hread : allNeighbors nodeId = graph.neighbors nodeId) (hnode : nodeId ∈ before) (h : Discovering graph before st) :
    Discovering graph before (discoverNode allNeighbors st nodeId) := by
  obtain ⟨hall, hents, -⟩ := h.discoverNeighbors fun entry (hent : entry ∈ graph.neighbors nodeId) => (graph.ends nodeId entry hent).2
  rw [PowerIteration.discoverNode, hread]
  refine ⟨hall.grows, hall.wave, fun v entries hlk => ?_⟩
  by_cases hv : v = nodeId
  · subst hv
    rw [AList.lookup_insert, Option.some.injEq] at hlk
    subst hlk
    exact ⟨hall.grows hnode, hents⟩
  · rw [AList.lookup_insert_ne hv] at hlk
    exact hall.cached v entries hlk

theorem Discovering.discoverAll {wave : List ℕ}
    (hread : ∀ id ∈ wave, allNeighbors id = graph.neighbors id) (hwave : ∀ id ∈ wave, id ∈ before) (h : Discovering graph before st) :
    Discovering graph before (wave.foldl (PowerIteration.discoverNode allNeighbors) st) := by
  induction wave generalizing st with
  | nil => exact h
  | cons id wave ih =>
    exact ih (fun other hoth => hread other (mem_cons_of_mem _ hoth)) (fun other hoth => hwave other (mem_cons_of_mem _ hoth))
      (h.discoverNode (hread id mem_cons_self) (hwave id mem_cons_self))

/-- Between waves the nodes of the next one are found. -/
structure Found (seeds : List ℕ) (st : Discovery) : Prop where
  seeds : ∀ seed ∈ seeds, seed ∈ st.discovered
  cached : ∀ v entries, st.neighborCache.lookup v = some entries → v ∈ st.discovered ∧ ∀ entry ∈ entries, entry.1 ∈ st.discovered

/-- With enough rounds the search ends, and what it has cached leads to what it has found. -/
theorem discoverWaves_found {readNeighbors : List ℕ → ℕ → List (ℕ × ℚ)} {seeds : List ℕ}
    (hread : ∀ ids, ∀ id ∈ ids, readNeighbors ids id = graph.neighbors id) (rds : ℕ)
    (hwave : ∀ v ∈ st.nextWave, v ∈ st.discovered) (hfnd : Found seeds st) :
    (∀ res, discoverWaves readNeighbors rds st = some res → Found seeds res) ∧
      ((graph.nodes \ st.discovered).card + 1 < rds → ∃ res, discoverWaves readNeighbors rds st = some res) := by
  induction rds generalizing st with
  | zero =>
    refine ⟨fun res hres => ?_, fun hrds => absurd hrds (not_lt_zero _)⟩
    rw [discoverWaves] at hres
    cases hres
  | succ rds ih =>
    rw [discoverWaves]
    split
    · refine ⟨fun res hres => ?_, fun _ => ⟨st, rfl⟩⟩
      obtain rfl := Option.some.inj hres
      exact hfnd
    · have hnext : Discovering graph st.discovered (st.nextWave.foldl (discoverNode (readNeighbors st.nextWave)) { st with nextWave := [] }) :=
        Discovering.discoverAll (fun id hid => hread st.nextWave id hid) hwave
          ⟨Finset.Subset.refl _, fun v hv => absurd hv not_mem_nil, hfnd.cached⟩
      generalize hst : st.nextWave.foldl (discoverNode (readNeighbors st.nextWave)) { st with nextWave := [] } = next at hnext ⊢
      obtain ⟨hall, hends⟩ := ih (fun v hv => (hnext.wave v hv).1) ⟨fun seed hseed => hnext.grows (hfnd.seeds seed hseed), hnext.cached⟩
      refine ⟨hall, fun hrds => ?_⟩
      cases hemp : next.nextWave with
      | nil =>
        obtain ⟨rds, rfl⟩ := exists_eq_succ_of_ne_zero (show rds ≠ 0 by omega)
        refine ⟨next, ?_⟩
        rw [discoverWaves, hemp, isEmpty_nil, if_pos rfl]
      | cons v rest =>
        -- A wave with a node has found one of the nodes that were left.
        have hv := hnext.wave v (by rw [hemp]; exact mem_cons_self)
        have hless : (graph.nodes \ next.discovered).card < (graph.nodes \ st.discovered).card := by
          refine Finset.card_lt_card (Finset.ssubset_iff_of_subset (Finset.sdiff_subset_sdiff (Finset.Subset.refl _) hnext.grows) |>.mpr ?_)
          exact ⟨v, Finset.mem_sdiff.mpr ⟨hv.2.2, hv.2.1⟩, fun hmem => (Finset.mem_sdiff.mp hmem).2 hv.1⟩
        exact hends (by omega)

end

section
variable {seedIndices : List ℕ} {damp : ℚ} {dense : Dense}

/-- All edges lead to places below `n`, and the weights that leave a node that is not dangling sum to one. -/
structure InBounds (n : ℕ) (dense : Dense) : Prop where
  places : ∀ i, ∀ entry ∈ dense.denseNeighbors.getD i [], entry.1 < n
  weights : ∀ i, dense.isDangling.getD i true = false → ((dense.denseNeighbors.getD i []).map Prod.snd).sum = 1

theorem getD_set {α : Type} (l : List α) (i j : ℕ) (x d : α) :
    (l.set i x).getD j d = l.getD j d ∨ i = j ∧ j < l.length ∧ (l.set i x).getD j d = x := by
  by_cases hij : i = j
  · subst hij
    by_cases hlen : i < l.length
    · right
      exact ⟨rfl, hlen, by simp [List.getD, hlen]⟩
    · left
      rw [set_eq_of_length_le (not_lt.mp hlen)]
  · left
    simp [List.getD, hij]

theorem InBounds.denseNode {idxToId : List ℕ} {entry : Sigma fun _ : ℕ => List (ℕ × ℚ)} (h : InBounds idxToId.length dense)
    (hlens : dense.isDangling.length = dense.denseNeighbors.length) (hent : ∀ nbr ∈ entry.2, nbr.1 ∈ idxToId) :
    InBounds idxToId.length (denseNode idxToId dense entry) ∧
      (denseNode idxToId dense entry).isDangling.length = (denseNode idxToId dense entry).denseNeighbors.length := by
  rw [PowerIteration.denseNode]
  split
  · exact ⟨h, hlens⟩
  split
  · rename_i hwt
    have hsum := sum_normalized hwt 1
    refine ⟨⟨fun i nbr hnbr => ?_, fun i hdang => ?_⟩, by simpa using hlens⟩
    · obtain hsame | ⟨-, -, hset⟩ := getD_set dense.denseNeighbors (idToIdx idxToId entry.1) i
        ((normalized entry.2).map fun nbr => (idToIdx idxToId nbr.1, nbr.2)) []
      · dsimp only at hnbr
        rw [hsame] at hnbr
        exact h.places i nbr hnbr
      · dsimp only at hnbr
        rw [hset] at hnbr
        obtain ⟨other, hoth, rfl⟩ := mem_map.mp hnbr
        obtain ⟨raw, hraw, rfl⟩ := mem_map.mp hoth
        exact idxOf_lt_length_of_mem (hent raw hraw)
    · dsimp only at hdang ⊢
      by_cases hi : idToIdx idxToId entry.1 = i ∧ i < dense.denseNeighbors.length
      · obtain ⟨rfl, hi⟩ := hi
        rw [getD_eq_getElem _ _ (by simpa using hi), getElem_set_self]
        simpa [Function.comp_def] using hsum
      · obtain hsame | ⟨heq, hlen, -⟩ := getD_set dense.denseNeighbors (idToIdx idxToId entry.1) i
          ((normalized entry.2).map fun nbr => (idToIdx idxToId nbr.1, nbr.2)) []
        · obtain hflag | ⟨heq, hlen, -⟩ := getD_set dense.isDangling (idToIdx idxToId entry.1) i false true
          · rw [hsame]
            exact h.weights i (hflag ▸ hdang)
          · exact absurd ⟨heq, hlens ▸ hlen⟩ hi
        · exact absurd ⟨heq, hlen⟩ hi
  · exact ⟨h, hlens⟩

/-- The dense lists that are built from a cache whose edges lead to nodes found. -/
theorem buildDense_inBounds {idxToId : List ℕ} {neighborCache : Map ℕ (List (ℕ × ℚ))}
    (hcache : ∀ v entries, neighborCache.lookup v = some entries → ∀ entry ∈ entries, entry.1 ∈ idxToId) :
    InBounds idxToId.length (buildDense idxToId neighborCache) := by
  have hents : ∀ entry ∈ neighborCache.entries, ∀ nbr ∈ entry.2, nbr.1 ∈ idxToId := fun entry hent =>
    hcache entry.1 entry.2 (AList.mem_lookup_iff.mpr hent)
  have hfold : ∀ (entries : List (Sigma fun _ : ℕ => List (ℕ × ℚ))) (dense : Dense), (∀ entry ∈ entries, ∀ nbr ∈ entry.2, nbr.1 ∈ idxToId) →
      InBounds idxToId.length dense → dense.isDangling.length = dense.denseNeighbors.length →
      InBounds idxToId.length (entries.foldl (PowerIteration.denseNode idxToId) dense) := by
    intro entries
    induction entries with
    | nil => exact fun _ _ hdense _ => hdense
    | cons entry entries ih =>
      intro dense hall hdense hlens
      obtain ⟨hnext, hleng'⟩ := hdense.denseNode hlens (hall entry mem_cons_self)
      exact ih _ (fun other hoth => hall other (mem_cons_of_mem _ hoth)) hnext hleng'
  refine hfold _ _ hents ⟨fun i entry hent => ?_, fun i hdang => ?_⟩ (by simp)
  · exfalso
    rw [getD_eq_getElem?_getD, getElem?_getD_replicate_default_eq] at hent
    exact not_mem_nil hent
  · rw [getD_eq_getElem?_getD, getElem?_getD_replicate_default_eq] at hdang
    cases hdang

theorem length_addRank (rank : List ℚ) (idx : ℕ) (x : ℚ) : (addRank rank idx x).length = rank.length := length_modify _ _ _

variable {rank : List ℚ}

theorem sum_addRank {idx : ℕ} (x : ℚ) (h : idx < rank.length) : (addRank rank idx x).sum = rank.sum + x := by
  induction rank generalizing idx with
  | nil => exact absurd h (not_lt_zero _)
  | cons r rank ih =>
    cases idx with
    | zero =>
      simp only [addRank, modify_zero_cons, sum_cons]
      ring
    | succ idx =>
      have hrest := ih (lt_of_succ_lt_succ h)
      simp only [addRank, modify_succ_cons, sum_cons] at hrest ⊢
      rw [hrest, add_assoc]

theorem addRanks {α : Type} (entries : List α) (idx : α → ℕ) (x : α → ℚ) (h : ∀ entry ∈ entries, idx entry < rank.length) :
    (entries.foldl (fun rank entry => addRank rank (idx entry) (x entry)) rank).length = rank.length ∧
      (entries.foldl (fun rank entry => addRank rank (idx entry) (x entry)) rank).sum = rank.sum + (entries.map x).sum := by
  induction entries generalizing rank with
  | nil => exact ⟨rfl, by simp⟩
  | cons entry entries ih =>
    obtain ⟨hlen, hsum⟩ := @ih (addRank rank (idx entry) (x entry)) fun other hoth => by
      rw [length_addRank]
      exact h other (mem_cons_of_mem _ hoth)
    rw [foldl_cons]
    refine ⟨hlen.trans (length_addRank _ _ _), ?_⟩
    rw [hsum, sum_addRank _ (h entry mem_cons_self), map_cons, sum_cons, add_assoc]

variable {rank : List ℚ}

theorem spreadRank_spec {st : List ℚ × ℚ} (h : InBounds st.1.length dense) (i : ℕ) :
    (spreadRank dense damp rank st i).1.length = st.1.length ∧
      (spreadRank dense damp rank st i).1.sum + damp * (spreadRank dense damp rank st i).2 =
        st.1.sum + damp * st.2 + damp * rank.getD i 0 := by
  rw [spreadRank]
  split
  · rename_i hzero
    exact ⟨rfl, by rw [hzero, mul_zero, add_zero]⟩
  split
  · exact ⟨rfl, by ring⟩
  · rename_i hdang
    obtain ⟨hlen, hsum⟩ := addRanks (dense.denseNeighbors.getD i []) Prod.fst (fun entry => damp * rank.getD i 0 * entry.2) (h.places i)
    refine ⟨hlen, ?_⟩
    have hwts := h.weights i (eq_false_of_ne_true hdang)
    have hshare : ((dense.denseNeighbors.getD i []).map fun entry => damp * rank.getD i 0 * entry.2).sum = damp * rank.getD i 0 := by
      rw [sum_map_mul_left, hwts, mul_one]
    rw [hsum, hshare]
    ring

theorem spreadRanks (indices : List ℕ) {st : List ℚ × ℚ} (h : InBounds st.1.length dense) :
    (indices.foldl (spreadRank dense damp rank) st).1.length = st.1.length ∧
      (indices.foldl (spreadRank dense damp rank) st).1.sum + damp * (indices.foldl (spreadRank dense damp rank) st).2 =
        st.1.sum + damp * st.2 + damp * (indices.map fun i => rank.getD i 0).sum := by
  induction indices generalizing st with
  | nil => exact ⟨rfl, by simp⟩
  | cons i indices ih =>
    obtain ⟨hfst, hsum⟩ := @spreadRank_spec damp dense rank st h i
    obtain ⟨hlen, hrest⟩ := @ih (spreadRank dense damp rank st i) (hfst.symm ▸ h)
    rw [foldl_cons]
    refine ⟨hlen.trans hfst, ?_⟩
    rw [hrest, hsum, map_cons, sum_cons]
    ring

theorem map_getD_range (rank : List ℚ) : (range rank.length).map (fun i => rank.getD i 0) = rank := by
  refine ext_getElem (by simp) fun i hi hi' => ?_
  rw [getElem_map, getElem_range, getD_eq_getElem _ _ hi']

theorem powerStep_sum (hsds : seedIndices ≠ []) (hplaces : ∀ si ∈ seedIndices, si < rank.length)
    (h : InBounds rank.length dense) (hsum : rank.sum = 1) :
    (powerStep dense seedIndices damp rank).length = rank.length ∧ (powerStep dense seedIndices damp rank).sum = 1 := by
  have hlength : (seedIndices.length : ℚ) ≠ 0 := by simpa using hsds
  obtain ⟨hspr, hmass⟩ := @spreadRanks damp dense rank (range rank.length) (replicate rank.length 0, 0)
    (by simpa using h)
  rw [map_getD_range, hsum] at hmass
  simp only [length_replicate, sum_replicate, nsmul_zero, mul_zero, add_zero, zero_add, mul_one] at hspr hmass
  rw [powerStep]
  generalize (range rank.length).foldl (spreadRank dense damp rank) (replicate rank.length 0, 0) = spread at hspr hmass ⊢
  obtain ⟨hlen, hadded⟩ := addRanks seedIndices id
    (fun _ => (1 - damp) / (seedIndices.length : ℚ) + damp * spread.2 / (seedIndices.length : ℚ)) (hspr.symm ▸ hplaces)
  refine ⟨hlen.trans hspr, hadded.trans ?_⟩
  have hseedShare : (seedIndices.map fun _ => (1 - damp) / (seedIndices.length : ℚ) + damp * spread.2 / (seedIndices.length : ℚ)).sum =
      1 - damp + damp * spread.2 := by
    rw [map_const', sum_replicate, nsmul_eq_mul, mul_add, mul_div_cancel₀ _ hlength, mul_div_cancel₀ _ hlength]
  rw [hseedShare]
  linarith

theorem startRank_sum {n : ℕ} (hsds : seedIndices ≠ []) (hnd : seedIndices.Nodup) (hplaces : ∀ si ∈ seedIndices, si < n) :
    (startRank seedIndices n).length = n ∧ (startRank seedIndices n).sum = 1 := by
  have hlength : (seedIndices.length : ℚ) ≠ 0 := by simpa using hsds
  have hfold : ∀ (indices : List ℕ) (x : ℚ) (rank : List ℚ), indices.Nodup → (∀ si ∈ indices, si < rank.length ∧ rank.getD si 0 = 0) →
      (indices.foldl (fun rank si => rank.set si x) rank).length = rank.length ∧
        (indices.foldl (fun rank si => rank.set si x) rank).sum = rank.sum + indices.length * x := by
    intro indices x
    induction indices with
    | nil => exact fun rank _ _ => ⟨rfl, by simp⟩
    | cons si indices ih =>
      intro rank hdist hfr
      obtain ⟨hfst, hrest⟩ := nodup_cons.mp hdist
      obtain ⟨hplace, hzero⟩ := hfr si mem_cons_self
      obtain ⟨hlen, hsum⟩ := ih (rank.set si x) hrest fun other hoth => by
        obtain ⟨hplace', hzero'⟩ := hfr other (mem_cons_of_mem _ hoth)
        refine ⟨by simpa using hplace', ?_⟩
        obtain hsame | ⟨heq, -, -⟩ := getD_set rank si other x 0
        · rw [hsame, hzero']
        · exact absurd (heq ▸ hoth) hfst
      rw [foldl_cons]
      refine ⟨hlen.trans (length_set ..), ?_⟩
      rw [getD_eq_getElem _ _ hplace] at hzero
      rw [hsum, sum_set' rank si x, dif_pos hplace, hzero, length_cons, cast_succ]
      ring
  obtain ⟨hlen, hsum⟩ := hfold seedIndices (1 / (seedIndices.length : ℚ)) (replicate n 0) hnd fun si hsi =>
    ⟨by simpa using hplaces si hsi, by rw [getD_eq_getElem?_getD, getElem?_getD_replicate_default_eq]⟩
  refine ⟨hlen.trans length_replicate, hsum.trans ?_⟩
  rw [sum_replicate, nsmul_zero, zero_add, mul_one_div_cancel hlength]

/-- The ranks returned are those after as many iterations as are returned with them. -/
theorem powerIterations_rank (epsilon : ℚ) (k : ℕ) (st : PowerResult) :
    ∃ n ≤ k, (powerIterations dense seedIndices damp epsilon k st).iterations = st.iterations + n ∧
      (powerIterations dense seedIndices damp epsilon k st).rank = (powerStep dense seedIndices damp)^[n] st.rank := by
  induction k generalizing st with
  | zero => exact ⟨0, le_rfl, rfl, rfl⟩
  | succ k ih =>
    rw [powerIterations]
    split
    · exact ⟨1, Nat.succ_le_succ (Nat.zero_le k), rfl, rfl⟩
    · obtain ⟨n, hn, hiter, hrank⟩ := ih ⟨powerStep dense seedIndices damp st.rank, st.iterations + 1, false⟩
      refine ⟨n + 1, Nat.succ_le_succ hn, hiter.trans ?_, hrank⟩
      rw [add_assoc, add_comm 1 n]

end

end OverGraph.PowerIteration
