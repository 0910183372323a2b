import OverGraph.Components
import OverGraph.PowerIteration
import OverGraph.TopNeighbors

/-!
# Personalised page rank

The ranks of the nodes for some seeds, by power iteration or by forward push. The seeds are the live nodes among those given, and the
neighbours are read in batches from the layers, where what a node has does not depend on the batch. Arithmetic is that of the rationals.
-/

namespace OverGraph.PageRank
open Masses Records Memtable Sources AdjacencyReads LayeredWrites PrunePolicies NeighborBatches Expansion List TopNeighbors
open ForwardPush PowerIteration Subgraphs Components Doubles
open NumericRangeKeys (f64Value)
open WalCodec (EngineError)

section
variable (sl : SourceList) (pols : Option PrecomputedPruneCutoffs) (edgeF : Option (List ℕ)) (now : ℤ)

def weightValue (weight : F32) : ℚ := (f64Value (f64FromF32 weight)).getD 0

def readNeighbors (nodeIds : List ℕ) (nodeId : ℕ) : List (ℕ × ℚ) :=
  (entriesOf (neighborsBatchResolved sl pols .outgoing edgeF now nodeIds) nodeId).map
    fun entry => (entry.nodeId, weightValue entry.weight)

/-- Seeds without a record would take mass and appear in the result. -/
def liveSeeds (seedNodeIds : List ℕ) : List ℕ :=
  let s := (seedNodeIds.insertionSort (· ≤ ·)).dedup
  (s.zip (sl.findNodes s)).filterMap fun entry => entry.2.map fun _ => entry.1

/-- The ids that were found, with the places of the seeds and the edges between places. -/
structure PowerSetup where
  idxToId : List ℕ
  dense : Dense
  seedIndices : List ℕ

def powerSetup (seeds : List ℕ) (found : Discovery) : PowerSetup :=
  let idxToId := found.discovered.sort
  ⟨idxToId, buildDense idxToId found.neighborCache, seeds.map (idToIdx idxToId)⟩

def PowerSetup.startRank (setup : PowerSetup) : List ℚ := PowerIteration.startRank setup.seedIndices setup.idxToId.length

def PowerSetup.powerStep (setup : PowerSetup) (damp : ℚ) : List ℚ → List ℚ := PowerIteration.powerStep setup.dense setup.seedIndices damp

end

section
variable {sl : SourceList} {pols : Option PrecomputedPruneCutoffs} {edgeF : Option (List ℕ)} {now : ℤ}

/-- The edges that leave a node. -/
def outgoing (sl : SourceList) (pols : Option PrecomputedPruneCutoffs) (edgeF : Option (List ℕ)) (now : ℤ)
    (nodeId : ℕ) : List (ℕ × ℚ) := readNeighbors sl pols edgeF now [nodeId] nodeId

/-- The weights of the edges at all nodes are finite and not negative. -/
def WeightsNonneg (sl : SourceList) (pols : Option PrecomputedPruneCutoffs) (edgeF : Option (List ℕ)) (now : ℤ) : Prop :=
  ∀ a e r, Follows sl pols .outgoing edgeF now a e r.nodeId →
    neighborFound sl a .outgoing edgeF e = some r → ∃ x, f64Value (f64FromF32 r.weight) = some x ∧ 0 ≤ x

section
variable (h : Stored sl)
include h

theorem readNeighbors_eq {nodeIds : List ℕ} {nodeId : ℕ} (hmem : nodeId ∈ nodeIds) :
    readNeighbors sl pols edgeF now nodeIds nodeId = outgoing sl pols edgeF now nodeId := by
  rw [outgoing, readNeighbors, readNeighbors, entriesOf_neighborsBatchResolved h.wellFormed, entriesOf_neighborsBatchResolved h.wellFormed,
    if_pos hmem, if_pos (mem_singleton_self nodeId)]

theorem mem_outgoing {nodeId : ℕ} {entry : ℕ × ℚ}
    (hent : entry ∈ outgoing sl pols edgeF now nodeId) :
    ∃ e r, Follows sl pols .outgoing edgeF now nodeId e r.nodeId ∧
      neighborFound sl nodeId .outgoing edgeF e = some r ∧ entry = (r.nodeId, weightValue r.weight) := by
  obtain ⟨r, hrec, rfl⟩ := mem_map.mp hent
  obtain ⟨-, hfnd, hvd, hexc⟩ := (mem_entriesOf h).mp hrec
  exact ⟨r.edgeId, r, ⟨r, hfnd, rfl, hvd, hexc⟩, hfnd, rfl⟩

/-- The edges that are read form a finite graph. -/
theorem exists_graph (hwts : WeightsNonneg sl pols edgeF now) :
    ∃ graph : WeightedGraph, graph.neighbors = outgoing sl pols edgeF now := by
  obtain ⟨nodes, hnos⟩ := @finite_neighbors sl pols edgeF now h
  refine ⟨⟨outgoing sl pols edgeF now, nodes, fun v entry hent => ?_, fun v entry hent => ?_⟩, rfl⟩
  · obtain ⟨e, r, hfol, -, rfl⟩ := mem_outgoing h hent
    exact hnos .outgoing v e r.nodeId hfol
  · obtain ⟨e, r, hfol, hfnd, rfl⟩ := mem_outgoing h hent
    obtain ⟨x, hx, hnonneg⟩ := hwts v e r hfol hfnd
    rw [weightValue, hx, Option.getD_some]
    exact hnonneg

theorem liveSeeds_eq (seedNodeIds : List ℕ) :
    liveSeeds sl seedNodeIds = (seedNodeIds.insertionSort (· ≤ ·)).dedup.filter fun id => (visible sl.nodeLayers id).isSome := by
  rw [liveSeeds, h.wellFormed.findNodes, ← map_prod_left_eq_zip, filterMap_map, ← filterMap_eq_filter]
  refine filterMap_congr fun id _ => ?_
  rw [Function.comp_apply]
  cases hvis : visible sl.nodeLayers id with
  | none | some node => simp [Option.guard, hvis]

theorem liveSeeds_nodup (seedNodeIds : List ℕ) : (liveSeeds sl seedNodeIds).Nodup := by
  rw [liveSeeds_eq h]
  exact (nodup_sortedIds seedNodeIds).filter _

end

end

section
variable {sl : SourceList} {pols : Option PrecomputedPruneCutoffs} {edgeF : Option (List ℕ)} {now : ℤ}
  {seeds : List ℕ} {damp : ℚ}

theorem PowerSetup.iterate_sum {found : Discovery} (hnd : seeds.Nodup) (hsds : seeds ≠ []) (hfnd : Found seeds found) (k : ℕ) :
    (((powerSetup seeds found).powerStep damp)^[k] (powerSetup seeds found).startRank).length = (powerSetup seeds found).idxToId.length ∧
      (((powerSetup seeds found).powerStep damp)^[k] (powerSetup seeds found).startRank).sum = 1 := by
  have hplace : ∀ id ∈ found.discovered, idToIdx found.discovered.sort id < found.discovered.sort.length := fun id hid =>
    idxOf_lt_length_of_mem ((Finset.mem_sort _).mpr hid)
  have hindi : seeds.map (idToIdx found.discovered.sort) ≠ [] := by simpa using hsds
  have hbds : ∀ si ∈ seeds.map (idToIdx found.discovered.sort), si < found.discovered.sort.length := by
    intro si hsi
    obtain ⟨seed, hseed, rfl⟩ := mem_map.mp hsi
    exact hplace seed (hfnd.seeds seed hseed)
  have hdist : (seeds.map (idToIdx found.discovered.sort)).Nodup := by
    refine hnd.map_on fun one hone two htwo hsame => ?_
    exact idxOf_inj ((Finset.mem_sort _).mpr (hfnd.seeds one hone)) |>.mp hsame
  have hdense : InBounds found.discovered.sort.length (buildDense found.discovered.sort found.neighborCache) :=
    buildDense_inBounds fun v entries hlk entry hent => (Finset.mem_sort _).mpr ((hfnd.cached v entries hlk).2 entry hent)
  induction k with
  | zero => exact startRank_sum hindi hdist hbds
  | succ k ih =>
    rw [Function.iterate_succ_apply']
    generalize ((powerSetup seeds found).powerStep damp)^[k] (powerSetup seeds found).startRank = rank at ih ⊢
    obtain ⟨hlen, hsum⟩ := ih
    have hstep := @powerStep_sum (seeds.map (idToIdx found.discovered.sort)) damp (buildDense found.discovered.sort found.neighborCache) rank
      hindi (hlen.symm ▸ hbds) (hlen.symm ▸ hdense) hsum
    exact ⟨hstep.1.trans hlen, hstep.2⟩

theorem startDiscovery_found (seeds : List ℕ) : Found seeds (startDiscovery seeds) :=
  ⟨fun _ hseed => mem_toFinset.mpr hseed, fun v entries hlk => by cases hlk⟩

theorem discoverWaves_spec (h : Stored sl) (hwts : WeightsNonneg sl pols edgeF now) (seeds : List ℕ) :
    (∃ rds found, discoverWaves (readNeighbors sl pols edgeF now) rds (startDiscovery seeds) = some found) ∧
      ∀ rds found, discoverWaves (readNeighbors sl pols edgeF now) rds (startDiscovery seeds) = some found → Found seeds found := by
  obtain ⟨graph, hgraph⟩ := exists_graph h hwts
  have hspec := fun rds => @discoverWaves_found graph (startDiscovery seeds) (readNeighbors sl pols edgeF now) seeds
    (fun ids id hid => by rw [hgraph, readNeighbors_eq h hid]) rds (fun _ hseed => mem_toFinset.mpr hseed) (startDiscovery_found seeds)
  refine ⟨⟨(graph.nodes \ (startDiscovery seeds).discovered).card + 2, ?_⟩, fun rds => (hspec rds).1⟩
  exact (hspec _).2 (Nat.lt_succ_self _)

variable (sl pols edgeF now seeds damp) in
/-- What both methods keep for these seeds. -/
structure ConservesMass : Prop where
  discovers : ∃ rounds found,
    discoverWaves (readNeighbors sl pols edgeF now) rounds (startDiscovery seeds) = some found
  ranks : ∀ rounds found,
    discoverWaves (readNeighbors sl pols edgeF now) rounds (startDiscovery seeds) = some found →
      ∀ k, (((powerSetup seeds found).powerStep damp)^[k] (powerSetup seeds found).startRank).sum = 1
  returned : ∀ rounds found,
    discoverWaves (readNeighbors sl pols edgeF now) rounds (startDiscovery seeds) = some found →
      ∀ epsilon maxIterations, (powerIterations (powerSetup seeds found).dense (powerSetup seeds found).seedIndices damp epsilon
        maxIterations ⟨(powerSetup seeds found).startRank, 0, false⟩).rank.sum = 1
  waves : ∀ tol, 0 < tol → ∀ k,
    total ((pushWave (readNeighbors sl pols edgeF now) seeds damp tol)^[k] (startPush seeds)).reserve +
      total ((pushWave (readNeighbors sl pols edgeF now) seeds damp tol)^[k] (startPush seeds)).residual = 1
  ends : ∀ tol, 0 < tol → ∃ rounds st,
    pushWaves (readNeighbors sl pols edgeF now) seeds damp tol rounds (startPush seeds) = some st
  exit : ∀ tol, 0 < tol → ∀ rounds st,
    pushWaves (readNeighbors sl pols edgeF now) seeds damp tol rounds (startPush seeds) = some st →
      ∀ v, activation (totalWeight (outgoing sl pols edgeF now v)) (massAt st.residual v) ≤ tol

/-- Over the live seeds of any request, both methods conserve mass, and forward push comes to an end with small residuals. -/
theorem conserves_mass (h : Stored sl) (hweights : WeightsNonneg sl pols edgeF now) (seedNodeIds : List ℕ)
    (hseeds : liveSeeds sl seedNodeIds ≠ []) (hdamping : 0 < damp) (hbelow : damp < 1) :
    ConservesMass sl pols edgeF now (liveSeeds sl seedNodeIds) damp := by
  obtain ⟨hdiscovers, hfound⟩ := discoverWaves_spec h hweights (liveSeeds sl seedNodeIds)
  obtain ⟨graph, hgraph⟩ := exists_graph h hweights
  have hread : ∀ ids, ∀ id ∈ ids, readNeighbors sl pols edgeF now ids id = graph.neighbors id := by
    intro ids id hid
    rw [hgraph, readNeighbors_eq h hid]
  have hstart : ∀ tol least, Balanced graph damp tol least (· ∈ (startPush (liveSeeds sl seedNodeIds)).pending) 0
      (startPush (liveSeeds sl seedNodeIds)) := fun _ _ => startPush_balanced hseeds
  have hends : ∀ tol, 0 < tol → ∃ waves, ∀ rounds, waves < rounds →
      pushWaves (readNeighbors sl pols edgeF now) (liveSeeds sl seedNodeIds) damp tol rounds
        (startPush (liveSeeds sl seedNodeIds)) =
      some ((pushWave (readNeighbors sl pols edgeF now) (liveSeeds sl seedNodeIds) damp tol)^[waves]
        (startPush (liveSeeds sl seedNodeIds))) := by
    intro tol htolerance
    obtain ⟨least, hpos, hleast⟩ := graph.exists_least htolerance
    obtain ⟨k, hdone⟩ := (hstart tol least).ends hread hseeds hdamping hbelow hleast hpos
    obtain ⟨waves, -, hwaves⟩ := pushWaves_of_iterate hdone
    exact ⟨waves, hwaves⟩
  have hranks : ∀ rounds found, discoverWaves (readNeighbors sl pols edgeF now) rounds
      (startDiscovery (liveSeeds sl seedNodeIds)) = some found → ∀ k, (((powerSetup (liveSeeds sl seedNodeIds) found).powerStep damp)^[k]
        (powerSetup (liveSeeds sl seedNodeIds) found).startRank).sum = 1 := fun rounds found hdiscovered k =>
    (PowerSetup.iterate_sum (liveSeeds_nodup h seedNodeIds) hseeds (hfound rounds found hdiscovered) k).2
  refine ⟨hdiscovers, hranks, fun rounds found hdiscovered epsilon maxIterations => ?_, fun tol htolerance k => ?_,
    fun tol htolerance => ?_, fun tol htolerance rounds st hst v => ?_⟩
  · obtain ⟨n, -, -, hrank⟩ := powerIterations_rank epsilon maxIterations ⟨(powerSetup (liveSeeds sl seedNodeIds) found).startRank, 0, false⟩
    rw [hrank]
    exact hranks rounds found hdiscovered n
  · obtain ⟨least, -, hleast⟩ := graph.exists_least htolerance
    have hmass := ((hstart tol least).iterate hread hseeds hdamping hbelow hleast k).mass
    rw [add_zero] at hmass
    exact hmass
  · obtain ⟨waves, hwaves⟩ := hends tol htolerance
    exact ⟨waves + 1, _, hwaves _ (Nat.lt_succ_self _)⟩
  · obtain ⟨least, -, hleast⟩ := graph.exists_least htolerance
    obtain ⟨k, hpending, hiterate⟩ := pushWaves_iterate hst
    have hsettled := ((hstart tol least).iterate hread hseeds hdamping hbelow hleast k).settled v
    rw [hiterate, hpending] at hsettled
    rw [← hgraph]
    obtain hzero | ⟨-, hsmall⟩ := hsettled (Finset.notMem_empty v)
    · rw [hzero, activation_zero]
      exact htolerance.le
    · exact hsmall

end

theorem weightsNonneg_positiveEdges : WeightsNonneg positiveEdges none none 0 := by
  have hsrc : ∀ lay ∈ positiveEdges.edgeLayers, ∀ id edge, lay id = some (some edge) → edge.source = 1 := by
    intro lay hlay id edge hedge
    obtain rfl := mem_singleton.mp hlay
    have hid : id = 2 ∨ id = 1 := by
      have hkeys : positiveEdges.active.edges.keys = [2, 1] := by decide
      have hmem : id ∈ positiveEdges.active.edges.keys := by
        rw [← AList.mem_keys]
        apply AList.lookup_isSome.mp
        rw [MemtableState.edgeOpinion, VersionedSlots.headAt] at hedge
        cases hlk : positiveEdges.active.edges.lookup id with
        | some slot => rfl
        | none => rw [hlk] at hedge; cases hedge
      rw [hkeys] at hmem
      simpa using hmem
    have hsrcs : ∀ id ∈ [2, 1], (positiveEdges.active.edgeOpinion id).join.all fun edge => decide (edge.source = 1) := by
      decide
    have hone := hsrcs id (by simpa using hid)
    rw [show positiveEdges.active.edgeOpinion id = some (some edge) from hedge] at hone
    simpa using hone
  have hsto : Stored positiveEdges := stored_graphSources _ _
  intro a e r hfol hfnd
  obtain ⟨lay, hlay, edge, hedge, hjn⟩ := neighborFound_edge hsto hfnd
  obtain rfl : a = 1 := hjn.1.symm.trans (hsrc lay hlay e edge hedge)
  obtain ⟨other, hoth, -, hvd, hexc⟩ := hfol
  rw [hfnd] at hoth
  obtain rfl := Option.some.inj hoth
  have hmem : r ∈ entriesOf (neighborsBatchResolved positiveEdges none .outgoing none 0 [1]) 1 := by
    rw [mem_entriesOf hsto]
    exact ⟨mem_singleton_self 1, by rw [neighborFound_edgeId hsto hfnd]; exact hfnd, hvd, hexc⟩
  have hwts : ∀ other ∈ entriesOf (neighborsBatchResolved positiveEdges none .outgoing none 0 [1]) 1,
      other.weight = 0x3F800000 ∨ other.weight = 0x40000000 := by
    decide
  obtain hwt | hwt := hwts r hmem
  · refine ⟨1, ?_, zero_le_one⟩
    have hbits : f64FromF32 (0x3F800000 : F32) = 0x3FF0000000000000 := by decide
    have hnat : (0x3FF0000000000000 : F64).toNat = 0x3FF0000000000000 := rfl
    have hsign : (0x3FF0000000000000 : F64).msb = false := rfl
    rw [hwt, hbits, f64Value, hnat, hsign]
    norm_num
  · refine ⟨2, ?_, zero_le_two⟩
    have hbits : f64FromF32 (0x40000000 : F32) = 0x4000000000000000 := by decide
    have hnat : (0x4000000000000000 : F64).toNat = 0x4000000000000000 := rfl
    have hsign : (0x4000000000000000 : F64).msb = false := rfl
    rw [hwt, hbits, f64Value, hnat, hsign]
    norm_num

/-- Half of what reaches node 1 goes on to its two neighbours. -/
theorem conserves_mass_positiveEdges : ConservesMass TopNeighbors.positiveEdges none none 0 (liveSeeds TopNeighbors.positiveEdges [1]) (1 / 2) :=
  conserves_mass (stored_graphSources _ _) weightsNonneg_positiveEdges [1]
    (by rw [liveSeeds_eq (stored_graphSources _ _)]; decide) (by norm_num) (by norm_num)

end OverGraph.PageRank
