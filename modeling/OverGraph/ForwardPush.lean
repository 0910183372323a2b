import Mathlib.Algebra.BigOperators.Ring.List
import Mathlib.Algebra.Order.Archimedean.Basic
import Mathlib.Data.Finset.Sort
import Mathlib.Tactic.Positivity
import OverGraph.Masses

/-!
# Forward push

Mass starts at the seeds as residual. A wave takes the pending nodes in order, reads the neighbours of those it has not seen and pushes
the residual of each node whose residual is large for its out-weight: a share stays there as reserve, the rest goes to the neighbours or,
where there are none, back to the seeds. What arrives is added after the wave, and a node that it makes large, or that has not been seen,
is pending again. No wave makes or loses mass, and as every push leaves some in the reserve, the waves come to an end.
-/

namespace OverGraph.ForwardPush
open AssocMaps Masses List AList Nat Function

structure PushState where
  reserve : Map ℕ ℚ
  residual : Map ℕ ℚ
  pending : Finset ℕ
  neighborCache : Map ℕ (List (ℕ × ℚ))
  outWeightSums : Map ℕ ℚ
  pushes : ℕ

/-- What a wave has collected beside what it has changed. -/
structure Wave where
  st : PushState
  waveUpdates : Map ℕ ℚ
  danglingSeedAdd : ℚ

def totalWeight (rawNeighbors : List (ℕ × ℚ)) : ℚ := (rawNeighbors.map Prod.snd).sum

def normalized (rawNeighbors : List (ℕ × ℚ)) : List (ℕ × ℚ) := rawNeighbors.map fun entry => (entry.1, entry.2 / totalWeight rawNeighbors)

/-- The residual as it counts at a node. -/
def activation (outWeightSum res : ℚ) : ℚ := if 0 < outWeightSum then res / outWeightSum else res

section
variable (readNeighbors : List ℕ → ℕ → List (ℕ × ℚ)) (seeds : List ℕ) (damp tol : ℚ)

def seedMasses : List (ℕ × ℚ) := seeds.map fun seed => (seed, 1 / (seeds.length : ℚ))

def startPush : PushState := ⟨∅, addAll ∅ (seedMasses seeds), seeds.toFinset, ∅, ∅, 0⟩

def cacheNeighbors (allNeighbors : ℕ → List (ℕ × ℚ)) (st : PushState) (nodeId : ℕ) : PushState :=
  let rawNeighbors := allNeighbors nodeId
  if 0 < totalWeight rawNeighbors then
    { st with outWeightSums := st.outWeightSums.insert nodeId (totalWeight rawNeighbors)
              neighborCache := st.neighborCache.insert nodeId (normalized rawNeighbors) }
  else { st with outWeightSums := st.outWeightSums.insert nodeId 0, neighborCache := st.neighborCache.insert nodeId [] }

/-- The nodes of a wave are all cached when it pushes them; one that is not would be a panic. -/
def pushNode (w : Wave) (nodeId : ℕ) : Wave :=
  let res := massAt w.st.residual nodeId
  if res = 0 then w
  else if activation (massAt w.st.outWeightSums nodeId) res ≤ tol then w
  else
    let st := { w.st with residual := w.st.residual.insert nodeId 0, reserve := addMass w.st.reserve nodeId ((1 - damp) * res)
                          pushes := w.st.pushes + 1 }
    let pushedMass := damp * res
    let neighbors := (w.st.neighborCache.lookup nodeId).getD []
    if neighbors.isEmpty then ⟨st, w.waveUpdates, w.danglingSeedAdd + pushedMass / (seeds.length : ℚ)⟩
    else ⟨st, addAll w.waveUpdates (neighbors.map fun entry => (entry.1, pushedMass * entry.2)), w.danglingSeedAdd⟩

def applyUpdate (st : PushState) (nodeId : ℕ) (delta : ℚ) : PushState :=
  let nextResidual := massAt st.residual nodeId + delta
  let st := { st with residual := addMass st.residual nodeId delta }
  if nextResidual = 0 then st
  else match st.outWeightSums.lookup nodeId with
    | some outWeightSum => if tol < activation outWeightSum nextResidual then { st with pending := insert nodeId st.pending } else st
    | none => { st with pending := insert nodeId st.pending }

def collectWave (st : PushState) : Wave :=
  let wave := st.pending.sort
  let uncached := wave.filter fun id => decide (id ∉ st.neighborCache)
  let cached := uncached.foldl (cacheNeighbors (readNeighbors uncached)) { st with pending := ∅ }
  let w := wave.foldl (pushNode seeds damp tol) ⟨cached, ∅, 0⟩
  if w.danglingSeedAdd ≠ 0 then { w with waveUpdates := addAll w.waveUpdates (seeds.map fun seed => (seed, w.danglingSeedAdd)) } else w

def pushWave (st : PushState) : PushState :=
  let w := collectWave readNeighbors seeds damp tol st
  w.waveUpdates.entries.foldl (fun st entry => applyUpdate tol st entry.1 entry.2) w.st

/-- The waves until no node is pending, as long as there are rounds left. -/
def pushWaves : ℕ → PushState → Option PushState
  | 0, _ => none
  | rds + 1, st => if st.pending = ∅ then some st else pushWaves rds (pushWave readNeighbors seeds damp tol st)

end

/-- A graph whose edges start and end at finitely many nodes. -/
structure WeightedGraph where
  neighbors : ℕ → List (ℕ × ℚ)
  nodes : Finset ℕ
  ends : ∀ v, ∀ entry ∈ neighbors v, v ∈ nodes ∧ entry.1 ∈ nodes
  nonneg : ∀ v, ∀ entry ∈ neighbors v, 0 ≤ entry.2

def WeightedGraph.outWeight (graph : WeightedGraph) (v : ℕ) : ℚ := totalWeight (graph.neighbors v)

/-- The residual left at a node that need not be pushed. -/
def Settled (graph : WeightedGraph) (tol : ℚ) (residual : Map ℕ ℚ) (v : ℕ) : Prop :=
  activation (graph.outWeight v) (massAt residual v) ≤ tol

structure Cached (graph : WeightedGraph) (st : PushState) (v : ℕ) : Prop where
  weight : st.outWeightSums.lookup v = some (graph.outWeight v)
  neighbors : st.neighborCache.lookup v = some (if 0 < graph.outWeight v then normalized (graph.neighbors v) else [])

structure Uncached (st : PushState) (v : ℕ) : Prop where
  weight : st.outWeightSums.lookup v = none
  neighbors : st.neighborCache.lookup v = none

/-- What holds while the nodes in `open` may still have too large a residual and the mass `moving` is on its way. -/
structure Balanced (graph : WeightedGraph) (damp tol least : ℚ) (waiting : ℕ → Prop) (moving : ℚ) (st : PushState) : Prop where
  mass : total st.reserve + total st.residual + moving = 1
  reserve : Nonneg st.reserve
  residual : Nonneg st.residual
  cache : ∀ v, Cached graph st v ∨ Uncached st v
  settled : ∀ v, ¬ waiting v → massAt st.residual v = 0 ∨ Cached graph st v ∧ Settled graph tol st.residual v
  pushed : (st.pushes : ℚ) * ((1 - damp) * least) ≤ total st.reserve

section
variable {graph : WeightedGraph}

theorem WeightedGraph.outWeight_nonneg (graph : WeightedGraph) (v : ℕ) : 0 ≤ graph.outWeight v := by
  refine sum_nonneg fun x hx => ?_
  obtain ⟨entry, hent, rfl⟩ := mem_map.mp hx
  exact graph.nonneg v entry hent

theorem sum_normalized {rawNeighbors : List (ℕ × ℚ)} (h : 0 < totalWeight rawNeighbors) (x : ℚ) :
    (((normalized rawNeighbors).map fun entry => (entry.1, x * entry.2)).map Prod.snd).sum = x := by
  have hmap : ((normalized rawNeighbors).map fun entry => (entry.1, x * entry.2)).map Prod.snd =
      (rawNeighbors.map Prod.snd).map fun w => x / totalWeight rawNeighbors * w := by
    rw [normalized, map_map, map_map, map_map]
    refine map_congr_left fun entry _ => ?_
    simp only [comp_apply]
    ring
  rw [hmap, sum_map_mul_left, map_id', ← totalWeight, div_mul_cancel₀ x h.ne']

/-- Where edges leave a node, they have some least weight in the whole graph. -/
theorem WeightedGraph.exists_least (graph : WeightedGraph) {tol : ℚ} (htol : 0 < tol) :
    ∃ least : ℚ, 0 < least ∧ ∀ v res, tol < activation (graph.outWeight v) res → least < res := by
  have hbd : ∀ nodes : Finset ℕ, ∃ least : ℚ, 0 < least ∧ least ≤ 1 ∧ ∀ v ∈ nodes, 0 < graph.outWeight v → least ≤ graph.outWeight v := by
    intro nodes
    induction nodes using Finset.induction_on with
    | empty => exact ⟨1, one_pos, le_rfl, fun v hv => absurd hv (Finset.notMem_empty v)⟩
    | insert v nodes _ ih =>
      obtain ⟨least, hpos, hone, hlst⟩ := ih
      by_cases hv : 0 < graph.outWeight v
      · refine ⟨min least (graph.outWeight v), lt_min hpos hv, (min_le_left _ _).trans hone, fun u hu hwt => ?_⟩
        obtain rfl | hu := Finset.mem_insert.mp hu
        · exact min_le_right _ _
        · exact (min_le_left _ _).trans (hlst u hu hwt)
      · refine ⟨least, hpos, hone, fun u hu hwt => ?_⟩
        obtain rfl | hu := Finset.mem_insert.mp hu
        · exact absurd hwt hv
        · exact hlst u hu hwt
  obtain ⟨least, hpos, hone, hlst⟩ := hbd graph.nodes
  refine ⟨tol * least, mul_pos htol hpos, fun v res hact => ?_⟩
  rw [activation] at hact
  split at hact
  · rename_i hwt
    have hnode : v ∈ graph.nodes := by
      cases hnbrs : graph.neighbors v with
      | nil => rw [WeightedGraph.outWeight, hnbrs] at hwt; exact absurd hwt (lt_irrefl _)
      | cons entry rest => exact (graph.ends v entry (by rw [hnbrs]; exact mem_cons_self)).1
    calc tol * least ≤ tol * graph.outWeight v := mul_le_mul_of_nonneg_left (hlst v hnode hwt) htol.le
      _ < res := (lt_div_iff₀ hwt).mp hact
  · exact (mul_le_of_le_one_right htol.le hone).trans_lt hact

theorem activation_zero (weight : ℚ) : activation weight 0 = 0 := by rw [activation, zero_div, ite_self]

end

section
variable {graph : WeightedGraph} {seeds : List ℕ} {damp tol least : ℚ} {st : PushState}

theorem startPush_balanced (hsds : seeds ≠ []) : Balanced graph damp tol least (· ∈ (startPush seeds).pending) 0 (startPush seeds) := by
  have hlen : (seeds.length : ℚ) ≠ 0 := by simpa using hsds
  have hkeys : (seedMasses seeds).map Prod.fst = seeds := by simp [seedMasses, comp_def]
  have hsum : ((seedMasses seeds).map Prod.snd).sum = 1 := by simp [seedMasses, comp_def, mul_inv_cancel₀ hlen]
  constructor
  · simp only [startPush]
    rw [total_addAll, hsum, total_empty]
    norm_num
  · exact nonneg_empty
  · refine nonneg_empty.addAll fun entry hent => ?_
    obtain ⟨seed, -, rfl⟩ := mem_map.mp hent
    positivity
  · exact fun v => Or.inr ⟨rfl, rfl⟩
  · intro v hv
    left
    have hmem : v ∉ addAll ∅ (seedMasses seeds) := by
      rw [mem_addAll, hkeys]
      rintro (hseed | hemp)
      · exact hv (mem_toFinset.mpr hseed)
      · exact notMem_empty v hemp
    exact massAt_of_not_mem hmem
  · simp [startPush]

variable {allNeighbors : ℕ → List (ℕ × ℚ)} {nodeId : ℕ}

section
variable (graph : WeightedGraph) (hread : allNeighbors nodeId = graph.neighbors nodeId) (st : PushState)
include hread

/-- Reading the neighbours of a node caches them and changes nothing else. -/
theorem cacheNeighbors_eq : cacheNeighbors allNeighbors st nodeId = { st with
      outWeightSums := st.outWeightSums.insert nodeId (graph.outWeight nodeId)
      neighborCache := st.neighborCache.insert nodeId
        (if 0 < graph.outWeight nodeId then normalized (graph.neighbors nodeId) else []) } := by
  rw [cacheNeighbors, hread, WeightedGraph.outWeight]
  split
  · rfl
  · rename_i hwt
    rw [le_antisymm (not_lt.mp hwt) (graph.outWeight_nonneg nodeId)]

theorem cacheNeighbors_cached : Cached graph (cacheNeighbors allNeighbors st nodeId) nodeId := by
  rw [cacheNeighbors_eq graph hread]
  exact ⟨lookup_insert _, lookup_insert _⟩

end

theorem Cached.cacheNeighbors {v : ℕ} (hcach : Cached graph st v)
    (hread : allNeighbors nodeId = graph.neighbors nodeId) : Cached graph (cacheNeighbors allNeighbors st nodeId) v := by
  by_cases hv : v = nodeId
  · subst hv
    exact cacheNeighbors_cached graph hread st
  · rw [cacheNeighbors_eq graph hread]
    exact ⟨(lookup_insert_ne hv).trans hcach.weight, (lookup_insert_ne hv).trans hcach.neighbors⟩

theorem Balanced.cacheNeighbors {waiting : ℕ → Prop} {moving : ℚ} (h : Balanced graph damp tol least waiting moving st)
    (hread : allNeighbors nodeId = graph.neighbors nodeId) :
    Balanced graph damp tol least waiting moving (cacheNeighbors allNeighbors st nodeId) := by
  have hcache : ∀ v, Cached graph (ForwardPush.cacheNeighbors allNeighbors st nodeId) v ∨
      Uncached (ForwardPush.cacheNeighbors allNeighbors st nodeId) v := by
    intro v
    by_cases hv : v = nodeId
    · subst hv
      exact Or.inl (cacheNeighbors_cached graph hread st)
    · obtain hcach | hunca := h.cache v
      · exact Or.inl (hcach.cacheNeighbors hread)
      · right
        rw [cacheNeighbors_eq graph hread]
        exact ⟨(lookup_insert_ne hv).trans hunca.weight, (lookup_insert_ne hv).trans hunca.neighbors⟩
  have hset : ∀ v, ¬ waiting v → massAt st.residual v = 0 ∨
      Cached graph (ForwardPush.cacheNeighbors allNeighbors st nodeId) v ∧ Settled graph tol st.residual v := by
    intro v hv
    obtain hzero | ⟨hcach, hsm⟩ := h.settled v hv
    · exact Or.inl hzero
    · exact Or.inr ⟨hcach.cacheNeighbors hread, hsm⟩
  rw [cacheNeighbors_eq graph hread] at hcache hset ⊢
  exact ⟨h.mass, h.reserve, h.residual, hcache, hset, h.pushed⟩

/-- After the reads of a wave all its nodes are cached. -/
theorem Balanced.readAll {waiting : ℕ → Prop} {moving : ℚ} (uncached : List ℕ)
    (hread : ∀ id ∈ uncached, allNeighbors id = graph.neighbors id) {st : PushState}
    (h : Balanced graph damp tol least waiting moving st) :
    Balanced graph damp tol least waiting moving (uncached.foldl (ForwardPush.cacheNeighbors allNeighbors) st) ∧
      (∀ v, v ∈ uncached ∨ Cached graph st v → Cached graph (uncached.foldl (ForwardPush.cacheNeighbors allNeighbors) st) v) ∧
      (uncached.foldl (ForwardPush.cacheNeighbors allNeighbors) st).pending = st.pending ∧
      (uncached.foldl (ForwardPush.cacheNeighbors allNeighbors) st).pushes = st.pushes := by
  induction uncached generalizing st with
  | nil => exact ⟨h, fun v hv => hv.resolve_left not_mem_nil, rfl, rfl⟩
  | cons id uncached ih =>
    have hfst := hread id mem_cons_self
    obtain ⟨hbal, hcach, hpend, hpushes⟩ := ih (fun other hoth => hread other (mem_cons_of_mem _ hoth)) (h.cacheNeighbors hfst)
    rw [foldl_cons]
    refine ⟨hbal, fun v hv => ?_, ?_, ?_⟩
    · obtain hmem | hbef := hv
      · obtain rfl | hmem := mem_cons.mp hmem
        · exact hcach v (Or.inr (cacheNeighbors_cached graph hfst st))
        · exact hcach v (Or.inl hmem)
      · exact hcach v (Or.inr (hbef.cacheNeighbors hfst))
    · rw [hpend, cacheNeighbors_eq graph hfst]
    · rw [hpushes, cacheNeighbors_eq graph hfst]

def Wave.moving (seeds : List ℕ) (w : Wave) : ℚ := total w.waveUpdates + w.danglingSeedAdd * seeds.length

/-- What holds in a wave while the nodes in `rest` have not had their turn and `before` pushes had been made when it began. -/
structure WaveBalanced (graph : WeightedGraph) (seeds : List ℕ) (damp tol least : ℚ) (before : ℕ) (rest : List ℕ) (w : Wave) : Prop where
  balanced : Balanced graph damp tol least (· ∈ rest) (w.moving seeds) w.st
  updates : Nonneg w.waveUpdates
  dangling : 0 ≤ w.danglingSeedAdd
  cached : ∀ v ∈ rest, Cached graph w.st v
  pending : w.st.pending = ∅
  quiet : before < w.st.pushes ∨ before = w.st.pushes ∧ w.waveUpdates = ∅ ∧ w.danglingSeedAdd = 0

/-- A push takes the residual of a node; all of it that does not stay there moves. -/
theorem pushNode_cases {w : Wave} {v : ℕ} (hsds : seeds ≠ []) (hdamp : 0 < damp) (hcach : Cached graph w.st v)
    (hresi : 0 ≤ massAt w.st.residual v) :
    pushNode seeds damp tol w v = w ∧ (massAt w.st.residual v = 0 ∨ Settled graph tol w.st.residual v) ∨
    tol < activation (graph.outWeight v) (massAt w.st.residual v) ∧ (pushNode seeds damp tol w v).st = { w.st with
        residual := w.st.residual.insert v 0
        reserve := addMass w.st.reserve v ((1 - damp) * massAt w.st.residual v)
        pushes := w.st.pushes + 1 } ∧
      (pushNode seeds damp tol w v).moving seeds = w.moving seeds + damp * massAt w.st.residual v ∧
      (Nonneg w.waveUpdates → Nonneg (pushNode seeds damp tol w v).waveUpdates) ∧
      (0 ≤ w.danglingSeedAdd → 0 ≤ (pushNode seeds damp tol w v).danglingSeedAdd) := by
  have hlen : (seeds.length : ℚ) ≠ 0 := by simpa using hsds
  have hwt : massAt w.st.outWeightSums v = graph.outWeight v := by rw [massAt, hcach.weight]; rfl
  have hpsh : 0 ≤ damp * massAt w.st.residual v := mul_nonneg hdamp.le hresi
  rw [pushNode, hwt, hcach.neighbors, Option.getD_some]
  dsimp only
  split
  · rename_i hzero
    exact Or.inl ⟨rfl, Or.inl hzero⟩
  split
  · rename_i hsm
    exact Or.inl ⟨rfl, Or.inr hsm⟩
  rename_i hlarge
  right
  refine ⟨not_le.mp hlarge, ?_⟩
  by_cases hout : 0 < graph.outWeight v
  · have hsum := sum_normalized hout (damp * massAt w.st.residual v)
    have hsome : (normalized (graph.neighbors v)).isEmpty = false := by
      rw [WeightedGraph.outWeight] at hout
      cases hnbrs : graph.neighbors v with
      | nil => rw [hnbrs] at hout; exact absurd hout (lt_irrefl _)
      | cons entry rest => rfl
    rw [if_pos hout, hsome, if_neg Bool.false_ne_true]
    refine ⟨rfl, ?_, fun h => h.addAll fun entry hent => ?_, id⟩
    · rw [Wave.moving, total_addAll, hsum, Wave.moving]
      ring
    · obtain ⟨other, hoth, rfl⟩ := mem_map.mp hent
      obtain ⟨raw, hraw, rfl⟩ := mem_map.mp hoth
      exact mul_nonneg hpsh (div_nonneg (graph.nonneg v raw hraw) hout.le)
  · rw [if_neg hout, isEmpty_nil, if_pos rfl]
    refine ⟨rfl, ?_, id, fun h => add_nonneg h (div_nonneg hpsh (cast_nonneg _))⟩
    rw [Wave.moving, Wave.moving, add_mul, div_mul_cancel₀ _ hlen, add_assoc]

theorem WaveBalanced.pushNode {before : ℕ} {rest : List ℕ} {v : ℕ} {w : Wave} (hsds : seeds ≠ []) (hdamp : 0 < damp)
    (hbel : damp < 1) (hlst : ∀ v res, tol < activation (graph.outWeight v) res → least < res)
    (h : WaveBalanced graph seeds damp tol least before (v :: rest) w) :
    WaveBalanced graph seeds damp tol least before rest (pushNode seeds damp tol w v) := by
  have hcach := h.cached v mem_cons_self
  have hkeep : 0 < 1 - damp := sub_pos.mpr hbel
  obtain ⟨heq, hsm⟩ | ⟨hlarge, hst, hmoving, hupds, hdang⟩ :=
    @pushNode_cases graph seeds damp tol w v hsds hdamp hcach (h.balanced.residual v)
  · rw [heq]
    refine ⟨⟨h.balanced.mass, h.balanced.reserve, h.balanced.residual, h.balanced.cache, fun u hu => ?_, h.balanced.pushed⟩, h.updates,
      h.dangling, fun u hu => h.cached u (mem_cons_of_mem _ hu), h.pending, h.quiet⟩
    by_cases huv : u = v
    · subst huv
      exact hsm.imp id fun hset => ⟨hcach, hset⟩
    · exact h.balanced.settled u fun hmem => (mem_cons.mp hmem).elim huv hu
  · have hres := hlst v _ hlarge
    have hcaches : ∀ u, Cached graph w.st u → Cached graph (ForwardPush.pushNode seeds damp tol w v).st u := by
      intro u hu
      rw [hst]
      exact ⟨hu.weight, hu.neighbors⟩
    refine ⟨⟨?_, ?_, ?_, fun u => ?_, fun u hu => ?_, ?_⟩, hupds h.updates, hdang h.dangling,
      fun u hu => hcaches u (h.cached u (mem_cons_of_mem _ hu)), ?_, ?_⟩
    · have hmass := h.balanced.mass
      rw [hmoving, hst]
      simp only [total_addMass, total_insert]
      linarith
    · rw [hst]
      exact h.balanced.reserve.addMass v (mul_nonneg hkeep.le (h.balanced.residual v))
    · rw [hst]
      exact h.balanced.residual.insert v le_rfl
    · obtain hu | hu := h.balanced.cache u
      · exact Or.inl (hcaches u hu)
      · right
        rw [hst]
        exact ⟨hu.weight, hu.neighbors⟩
    · by_cases huv : u = v
      · subst huv
        left
        rw [hst]
        simp only [massAt_insert, if_true]
      · obtain hzero | ⟨hoth, hset⟩ := h.balanced.settled u fun hmem => (mem_cons.mp hmem).elim huv hu
        · left
          rw [hst]
          simpa only [massAt_insert, if_neg huv] using hzero
        · right
          refine ⟨hcaches u hoth, ?_⟩
          rw [Settled, hst]
          simp only [massAt_insert, if_neg huv]
          exact hset
    · have hbef := h.balanced.pushed
      have hstays : (1 - damp) * least ≤ (1 - damp) * massAt w.st.residual v := mul_le_mul_of_nonneg_left hres.le hkeep.le
      rw [hst]
      simp only [total_addMass, cast_add, cast_one]
      linarith
    · rw [hst]
      exact h.pending
    · left
      rw [hst]
      obtain hmore | ⟨hsame, -⟩ := h.quiet
      · exact hmore.trans (lt_succ_self _)
      · rw [hsame]
        exact lt_succ_self _

/-- After the turns of all nodes of a wave none has too large a residual. -/
theorem WaveBalanced.pushAll {before : ℕ} {wave : List ℕ} {w : Wave} (hsds : seeds ≠ []) (hdamp : 0 < damp)
    (hbel : damp < 1) (hlst : ∀ v res, tol < activation (graph.outWeight v) res → least < res)
    (h : WaveBalanced graph seeds damp tol least before wave w) :
    WaveBalanced graph seeds damp tol least before [] (wave.foldl (ForwardPush.pushNode seeds damp tol) w) := by
  induction wave generalizing w with
  | nil => exact h
  | cons v wave ih => exact ih (h.pushNode hsds hdamp hbel hlst)

theorem Balanced.applyUpdate {moving delta : ℚ} {v : ℕ} (hdelta : 0 ≤ delta)
    (h : Balanced graph damp tol least (· ∈ st.pending) (delta + moving) st) :
    Balanced graph damp tol least (· ∈ (applyUpdate tol st v delta).pending) moving (applyUpdate tol st v delta) := by
  have hmass : total st.reserve + total (addMass st.residual v delta) + moving = 1 := by
    have hbef := h.mass
    rw [total_addMass]
    linarith
  have hnext : massAt (addMass st.residual v delta) v = massAt st.residual v + delta := by rw [massAt_addMass, if_pos rfl]
  have hoth : ∀ u ∉ st.pending, u ≠ v → massAt (addMass st.residual v delta) u = 0 ∨
      Cached graph st u ∧ Settled graph tol (addMass st.residual v delta) u := by
    intro u hu huv
    have hsame : massAt (addMass st.residual v delta) u = massAt st.residual u := by rw [massAt_addMass, if_neg huv]
    rw [Settled, hsame]
    exact h.settled u hu
  -- A node that becomes pending need not be settled.
  have hwaits : ∀ u ∉ insert v st.pending, massAt (addMass st.residual v delta) u = 0 ∨
      Cached graph st u ∧ Settled graph tol (addMass st.residual v delta) u := by
    intro u hu
    rw [Finset.mem_insert, not_or] at hu
    exact hoth u hu.2 hu.1
  have hbuild : ∀ {pending : Finset ℕ}, (∀ u ∉ pending, massAt (addMass st.residual v delta) u = 0 ∨
      Cached graph st u ∧ Settled graph tol (addMass st.residual v delta) u) →
      Balanced graph damp tol least (· ∈ pending) moving
        { st with residual := addMass st.residual v delta, pending := pending } := by
    intro pending hset
    refine ⟨hmass, h.reserve, h.residual.addMass v hdelta, fun u => ?_, fun u hu => ?_, h.pushed⟩
    · exact (h.cache u).imp (fun hu => ⟨hu.weight, hu.neighbors⟩) fun hu => ⟨hu.weight, hu.neighbors⟩
    · exact (hset u hu).imp id fun hboth => ⟨⟨hboth.1.weight, hboth.1.neighbors⟩, hboth.2⟩
  rw [ForwardPush.applyUpdate]
  dsimp only
  split
  · rename_i hzero
    refine hbuild fun u hu => ?_
    by_cases huv : u = v
    · rw [huv, hnext]
      exact Or.inl hzero
    · exact hoth u hu huv
  · split
    · rename_i outWeightSum hlk
      split
      · exact hbuild hwaits
      · rename_i hsm
        refine hbuild fun u hu => ?_
        by_cases huv : u = v
        · subst huv
          right
          obtain hcach | hunca := h.cache u
          · rw [hcach.weight] at hlk
            rw [Settled, hnext, Option.some.inj hlk]
            exact ⟨hcach, not_lt.mp hsm⟩
          · rw [hunca.weight] at hlk
            cases hlk
        · exact hoth u hu huv
    · exact hbuild hwaits

theorem Balanced.applyAll {moving : ℚ} (updates : List (Sigma fun _ : ℕ => ℚ)) (hupds : ∀ entry ∈ updates, 0 ≤ entry.2)
    {st : PushState} (h : Balanced graph damp tol least (· ∈ st.pending) ((updates.map Sigma.snd).sum + moving) st) :
    Balanced graph damp tol least
      (· ∈ (updates.foldl (fun st entry => ForwardPush.applyUpdate tol st entry.1 entry.2) st).pending) moving
      (updates.foldl (fun st entry => ForwardPush.applyUpdate tol st entry.1 entry.2) st) := by
  induction updates generalizing st with
  | nil => simpa using h
  | cons entry updates ih =>
    rw [map_cons, sum_cons, add_assoc] at h
    exact ih (fun other hoth => hupds other (mem_cons_of_mem _ hoth)) (h.applyUpdate (hupds entry mem_cons_self))

theorem applyUpdate_pushes (v : ℕ) (delta : ℚ) : (applyUpdate tol st v delta).pushes = st.pushes := by
  rw [applyUpdate]
  dsimp only
  split
  · rfl
  · split
    · split <;> rfl
    · rfl

theorem applyAll_pushes (updates : List (Sigma fun _ : ℕ => ℚ)) (st : PushState) :
    (updates.foldl (fun st entry => applyUpdate tol st entry.1 entry.2) st).pushes = st.pushes := by
  induction updates generalizing st with
  | nil => rfl
  | cons entry updates ih => rw [foldl_cons, ih, applyUpdate_pushes]

section
variable {readNeighbors : List ℕ → ℕ → List (ℕ × ℚ)} (hread : ∀ ids, ∀ id ∈ ids, readNeighbors ids id = graph.neighbors id)
  (hsds : seeds ≠ []) (hdamp : 0 < damp) (hbel : damp < 1)
  (hlst : ∀ v res, tol < activation (graph.outWeight v) res → least < res)
include hread hsds hdamp hbel hlst

section
variable (h : Balanced graph damp tol least (· ∈ st.pending) 0 st)
include h

theorem Balanced.collectWave :
    Balanced graph damp tol least (· ∈ (collectWave readNeighbors seeds damp tol st).st.pending)
        (total (collectWave readNeighbors seeds damp tol st).waveUpdates)
        (collectWave readNeighbors seeds damp tol st).st ∧
      Nonneg (collectWave readNeighbors seeds damp tol st).waveUpdates ∧
      (st.pushes < (collectWave readNeighbors seeds damp tol st).st.pushes ∨ (collectWave readNeighbors seeds damp tol st).st.pending = ∅ ∧
        (collectWave readNeighbors seeds damp tol st).waveUpdates = ∅) := by
  generalize hwave : st.pending.sort = wave
  have hmem : ∀ v, v ∈ wave ↔ v ∈ st.pending := by
    intro v
    rw [← hwave, Finset.mem_sort]
  generalize hunca : (wave.filter fun id => decide (id ∉ st.neighborCache)) = uncached
  have hdrai : Balanced graph damp tol least (· ∈ wave) 0 { st with pending := ∅ } :=
    ⟨h.mass, h.reserve, h.residual, fun v => (h.cache v).imp (fun hv => ⟨hv.weight, hv.neighbors⟩) fun hv => ⟨hv.weight, hv.neighbors⟩,
      fun v hv => (h.settled v fun hpend => hv ((hmem v).mpr hpend)).imp id fun hboth =>
        ⟨⟨hboth.1.weight, hboth.1.neighbors⟩, hboth.2⟩, h.pushed⟩
  obtain ⟨hbal, hcach, hpend, hpushes⟩ := hdrai.readAll uncached fun id hid => hread uncached id hid
  generalize hst : uncached.foldl (ForwardPush.cacheNeighbors (readNeighbors uncached)) { st with pending := ∅ } = cached at *
  have hstart : WaveBalanced graph seeds damp tol least st.pushes wave ⟨cached, ∅, 0⟩ := by
    refine ⟨?_, nonneg_empty, le_rfl, fun v hv => hcach v ?_, hpend, Or.inr ⟨hpushes.symm, rfl, rfl⟩⟩
    · rw [Wave.moving, total_empty, zero_mul, add_zero]
      exact hbal
    · by_cases hnew : v ∈ st.neighborCache
      · right
        obtain hv | hv := hdrai.cache v
        · exact hv
        · exact absurd hnew (AList.lookup_eq_none.mp hv.neighbors)
      · left
        rw [← hunca, mem_filter, decide_eq_true_eq]
        exact ⟨hv, hnew⟩
  have hdone := hstart.pushAll hsds hdamp hbel hlst
  rw [ForwardPush.collectWave]
  simp only [hwave, hunca, hst]
  generalize wave.foldl (ForwardPush.pushNode seeds damp tol) ⟨cached, ∅, 0⟩ = w at hdone ⊢
  have hset := hdone.balanced
  have hnone : (fun v => v ∈ w.st.pending) = (· ∈ ([] : List ℕ)) := by
    rw [hdone.pending]
    funext v
    simp
  split
  · rename_i hdang
    dsimp only
    rw [hnone]
    refine ⟨?_, hdone.updates.addAll fun entry hent => ?_, Or.inl ?_⟩
    · have hsum : total (addAll w.waveUpdates (seeds.map fun seed => (seed, w.danglingSeedAdd))) = w.moving seeds := by
        rw [total_addAll, map_map, Wave.moving]
        simp [comp_def, mul_comm]
      rw [hsum]
      exact hset
    · obtain ⟨seed, -, rfl⟩ := mem_map.mp hent
      exact hdone.dangling
    · obtain hmore | ⟨-, -, hzero⟩ := hdone.quiet
      · exact hmore
      · exact absurd hzero hdang
  · rename_i hdang
    rw [not_not] at hdang
    rw [hnone]
    refine ⟨?_, hdone.updates, ?_⟩
    · have hsum : total w.waveUpdates = w.moving seeds := by rw [Wave.moving, hdang, zero_mul, add_zero]
      rw [hsum]
      exact hset
    · exact hdone.quiet.imp id fun hsame => ⟨hdone.pending, hsame.2.1⟩

theorem Balanced.pushWave :
    Balanced graph damp tol least (· ∈ (pushWave readNeighbors seeds damp tol st).pending) 0
        (pushWave readNeighbors seeds damp tol st) ∧
      (st.pushes < (pushWave readNeighbors seeds damp tol st).pushes ∨ (pushWave readNeighbors seeds damp tol st).pending = ∅) := by
  obtain ⟨hbal, hupds, hquiet⟩ := h.collectWave hread hsds hdamp hbel hlst
  rw [ForwardPush.pushWave]
  generalize ForwardPush.collectWave readNeighbors seeds damp tol st = w at *
  constructor
  · refine Balanced.applyAll w.waveUpdates.entries (fun entry hent => ?_) (by rw [add_zero]; exact hbal)
    have hmass := hupds entry.1
    have hlk : w.waveUpdates.lookup entry.1 = some entry.2 := AList.mem_lookup_iff.mpr hent
    rw [massAt, hlk] at hmass
    exact hmass
  · obtain hmore | ⟨hpend, hemp⟩ := hquiet
    · left
      rw [applyAll_pushes]
      exact hmore
    · right
      rw [hemp]
      exact hpend

theorem Balanced.iterate (waves : ℕ) :
    Balanced graph damp tol least (· ∈ ((ForwardPush.pushWave readNeighbors seeds damp tol)^[waves] st).pending) 0
      ((ForwardPush.pushWave readNeighbors seeds damp tol)^[waves] st) := by
  induction waves with
  | zero => exact h
  | succ waves ih =>
    rw [iterate_succ_apply']
    exact (ih.pushWave hread hsds hdamp hbel hlst).1

/-- As long as nodes are pending every wave has pushed. -/
theorem Balanced.waves_le_pushes (waves : ℕ) :
    (∃ k ≤ waves, ((ForwardPush.pushWave readNeighbors seeds damp tol)^[k] st).pending = ∅) ∨
      waves ≤ ((ForwardPush.pushWave readNeighbors seeds damp tol)^[waves] st).pushes := by
  induction waves with
  | zero => exact Or.inr (Nat.zero_le _)
  | succ waves ih =>
    obtain ⟨k, hk, hdone⟩ | hpushes := ih
    · exact Or.inl ⟨k, hk.trans (le_succ _), hdone⟩
    · have hstep := ((h.iterate hread hsds hdamp hbel hlst waves).pushWave hread hsds hdamp hbel
        hlst).2
      rw [← iterate_succ_apply' (ForwardPush.pushWave readNeighbors seeds damp tol)] at hstep
      obtain hmore | hdone := hstep
      · exact Or.inr (Nat.succ_le_of_lt (hpushes.trans_lt hmore))
      · exact Or.inl ⟨waves + 1, le_rfl, hdone⟩

end

/-- Every push leaves a share of the least pushed residual in the reserve, which never holds more than all mass. -/
theorem Balanced.ends (hpos : 0 < least) (h : Balanced graph damp tol least (· ∈ st.pending) 0 st) :
    ∃ k, ((ForwardPush.pushWave readNeighbors seeds damp tol)^[k] st).pending = ∅ := by
  have hshare : 0 < (1 - damp) * least := mul_pos (sub_pos.mpr hbel) hpos
  obtain ⟨waves, hwaves⟩ := exists_nat_gt (1 / ((1 - damp) * least))
  obtain ⟨k, -, hdone⟩ | hpushes := h.waves_le_pushes hread hsds hdamp hbel hlst waves
  · exact ⟨k, hdone⟩
  · exfalso
    have hbal := h.iterate hread hsds hdamp hbel hlst waves
    generalize (ForwardPush.pushWave readNeighbors seeds damp tol)^[waves] st = st' at hbal hpushes
    have hresi := hbal.residual.total
    have hmass := hbal.mass
    have hrese : total st'.reserve ≤ 1 := by linarith
    have hcast : (waves : ℚ) ≤ st'.pushes := Nat.cast_le.mpr hpushes
    have hone : 1 < (waves : ℚ) * ((1 - damp) * least) := (div_lt_iff₀ hshare).mp hwaves
    have hless : (waves : ℚ) * ((1 - damp) * least) ≤ st'.pushes * ((1 - damp) * least) := mul_le_mul_of_nonneg_right hcast hshare.le
    linarith [hbal.pushed]

end

section
variable {readNeighbors : List ℕ → ℕ → List (ℕ × ℚ)}

/-- The waves end where no node is pending after as many of them. -/
theorem pushWaves_of_iterate {k : ℕ}
    (hdone : ((pushWave readNeighbors seeds damp tol)^[k] st).pending = ∅) :
    ∃ waves, ((pushWave readNeighbors seeds damp tol)^[waves] st).pending = ∅ ∧ ∀ rds, waves < rds →
      pushWaves readNeighbors seeds damp tol rds st = some ((pushWave readNeighbors seeds damp tol)^[waves] st) := by
  induction k generalizing st with
  | zero =>
    refine ⟨0, hdone, fun rds hrds => ?_⟩
    obtain ⟨rds, rfl⟩ := exists_eq_succ_of_ne_zero hrds.ne'
    have hemp : st.pending = ∅ := hdone
    rw [pushWaves, if_pos hemp]
    rfl
  | succ k ih =>
    by_cases hemp : st.pending = ∅
    · refine ⟨0, hemp, fun rds hrds => ?_⟩
      obtain ⟨rds, rfl⟩ := exists_eq_succ_of_ne_zero hrds.ne'
      rw [pushWaves, if_pos hemp]
      rfl
    · obtain ⟨waves, hend, hwaves⟩ := ih hdone
      refine ⟨waves + 1, hend, fun rds hrds => ?_⟩
      obtain ⟨rds, rfl⟩ := exists_eq_succ_of_ne_zero (Nat.zero_lt_of_lt hrds).ne'
      rw [pushWaves, if_neg hemp, hwaves rds (lt_of_succ_lt_succ hrds)]
      rfl

/-- The state at the end is that after some wave, and no node is pending. -/
theorem pushWaves_iterate {rds : ℕ} {st' : PushState}
    (hdone : pushWaves readNeighbors seeds damp tol rds st = some st') :
    ∃ waves, st'.pending = ∅ ∧ (pushWave readNeighbors seeds damp tol)^[waves] st = st' := by
  induction rds generalizing st with
  | zero => cases hdone
  | succ rds ih =>
    rw [pushWaves] at hdone
    split at hdone
    · rename_i hemp
      obtain rfl := Option.some.inj hdone
      exact ⟨0, hemp, rfl⟩
    · obtain ⟨waves, hemp, hwaves⟩ := ih hdone
      exact ⟨waves + 1, hemp, hwaves⟩

end

end

end OverGraph.ForwardPush
