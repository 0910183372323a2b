import Mathlib.Data.List.AList
import Mathlib.Data.List.Perm.Subperm

/-!
# Walks in a labelled graph

A walk is given by its steps, each an edge and the node it leads to. What a search has reached after some rounds is a ball
around its root, and two balls that do not meet, one along the arcs and one against them, bound the length of every walk
from one root to the other.
-/

namespace OverGraph.GraphWalks

open List

variable {V E : Type*}

def IsWalk (arc : V → E → V → Prop) : V → List (E × V) → V → Prop
  | a, [], b => a = b
  | a, step :: steps, b => arc a step.1 step.2 ∧ IsWalk arc step.2 steps b

/-- The arcs taken against their direction. -/
def backward (arc : V → E → V → Prop) : V → E → V → Prop := fun a e b => arc b e a

/-- The nodes of a walk, its start first. -/
def nodesOf (a : V) (steps : List (E × V)) : List V := a :: steps.map Prod.snd

def edgesOf (steps : List (E × V)) : List E := steps.map Prod.fst

def backSteps : V → List (E × V) → List (E × V)
  | _, [] => []
  | a, step :: steps => backSteps step.2 steps ++ [(step.1, a)]

section
variable {arc : V → E → V → Prop} {a b : V} {steps : List (E × V)}

theorem isWalk_append {fst snd : List (E × V)} : IsWalk arc a (fst ++ snd) b ↔ ∃ c, IsWalk arc a fst c ∧ IsWalk arc c snd b := by
  induction fst generalizing a with
  | nil => simp [IsWalk]
  | cons step fst ih => simp only [cons_append, IsWalk, ih, and_assoc, exists_and_left]

theorem isWalk_concat {e : E} {c : V} : IsWalk arc a (steps ++ [(e, c)]) b ↔ (∃ p, IsWalk arc a steps p ∧ arc p e c) ∧ c = b := by
  rw [isWalk_append]
  simp only [IsWalk]
  constructor
  · rintro ⟨p, hsteps, harc, hend⟩
    exact ⟨⟨p, hsteps, harc⟩, hend⟩
  · rintro ⟨⟨p, hsteps, harc⟩, hend⟩
    exact ⟨p, hsteps, harc, hend⟩

theorem length_backSteps (a : V) (steps : List (E × V)) : (backSteps a steps).length = steps.length := by
  induction steps generalizing a with
  | nil => rfl
  | cons step steps ih =>
    rw [backSteps, length_append, ih]
    rfl

theorem edgesOf_backSteps (a : V) (steps : List (E × V)) : edgesOf (backSteps a steps) = (edgesOf steps).reverse := by
  induction steps generalizing a with
  | nil => rfl
  | cons step steps ih =>
    have hrest := ih step.2
    rw [edgesOf] at hrest ⊢
    rw [backSteps, map_append, hrest]
    simp [edgesOf]

theorem nodesOf_backSteps (h : IsWalk arc a steps b) : nodesOf b (backSteps a steps) = (nodesOf a steps).reverse := by
  induction steps generalizing a with
  | nil =>
    obtain rfl : a = b := h
    rfl
  | cons step steps ih =>
    have hrest := ih h.2
    rw [nodesOf] at hrest ⊢
    rw [backSteps, map_append, ← cons_append, hrest]
    simp [nodesOf]

theorem isWalk_backSteps (h : IsWalk arc a steps b) : IsWalk (backward arc) b (backSteps a steps) a := by
  induction steps generalizing a with
  | nil =>
    obtain rfl : a = b := h
    rfl
  | cons step steps ih => exact isWalk_concat.mpr ⟨⟨step.2, ih h.2, h.1⟩, rfl⟩

/-- A walk passes through one node after a number of its steps. -/
theorem isWalk_take {i : ℕ} (h : IsWalk arc a steps b) : ∃ c, IsWalk arc a (steps.take i) c ∧ IsWalk arc c (steps.drop i) b :=
  isWalk_append.mp (by rwa [take_append_drop])

theorem isWalk_mono {other : V → E → V → Prop} (harc : ∀ a e b, arc a e b → other a e b) (h : IsWalk arc a steps b) :
    IsWalk other a steps b := by
  induction steps generalizing a with
  | nil => exact h
  | cons step steps ih => exact ⟨harc _ _ _ h.1, ih h.2⟩

end

def Hops (arc : V → E → V → Prop) (k : ℕ) (a b : V) : Prop := ∃ steps, IsWalk arc a steps b ∧ steps.length = k

/-- No walk takes fewer steps. -/
def Nearest (arc : V → E → V → Prop) (k : ℕ) (a b : V) : Prop := Hops arc k a b ∧ ∀ i < k, ¬Hops arc i a b

section
variable {arc : V → E → V → Prop} {a b : V} {k : ℕ}

theorem hops_zero : Hops arc 0 a b ↔ a = b := by
  constructor
  · rintro ⟨steps, hwalk, hlen⟩
    rw [eq_nil_of_length_eq_zero hlen] at hwalk
    exact hwalk
  · intro h
    exact ⟨[], h, rfl⟩

theorem hops_add {i j : ℕ} : Hops arc (i + j) a b ↔ ∃ c, Hops arc i a c ∧ Hops arc j c b := by
  constructor
  · rintro ⟨steps, hwalk, hlen⟩
    obtain ⟨c, hfst, hsnd⟩ := isWalk_take (i := i) hwalk
    refine ⟨c, ⟨_, hfst, ?_⟩, ⟨_, hsnd, ?_⟩⟩
    · rw [length_take]
      omega
    · rw [length_drop]
      omega
  · rintro ⟨c, ⟨fst, hfst, rfl⟩, ⟨snd, hsnd, rfl⟩⟩
    exact ⟨fst ++ snd, isWalk_append.mpr ⟨c, hfst, hsnd⟩, length_append⟩

theorem hops_one : Hops arc 1 a b ↔ ∃ e, arc a e b := by
  constructor
  · rintro ⟨steps, hwalk, hlen⟩
    obtain ⟨step, rfl⟩ := length_eq_one_iff.mp hlen
    obtain ⟨harc, hend⟩ := hwalk
    obtain rfl : step.2 = b := hend
    exact ⟨step.1, harc⟩
  · rintro ⟨e, harc⟩
    exact ⟨[(e, b)], ⟨harc, rfl⟩, rfl⟩

theorem hops_succ : Hops arc (k + 1) a b ↔ ∃ c, Hops arc k a c ∧ ∃ e, arc c e b := by
  rw [hops_add]
  simp only [hops_one]

theorem hops_of_backward (h : Hops (backward arc) k b a) : Hops arc k a b := by
  obtain ⟨steps, hwalk, rfl⟩ := h
  exact ⟨backSteps b steps, isWalk_backSteps hwalk, length_backSteps b steps⟩

theorem hops_backward : Hops (backward arc) k b a ↔ Hops arc k a b := ⟨hops_of_backward, fun h => hops_of_backward h⟩

theorem exists_nearest (h : Hops arc k a b) : ∃ i ≤ k, Nearest arc i a b := by
  induction k using Nat.strong_induction_on with
  | _ k ih =>
    by_cases hless : ∃ i < k, Hops arc i a b
    · obtain ⟨i, hi, hops⟩ := hless
      obtain ⟨j, hj, hnear⟩ := ih i hi hops
      exact ⟨j, by omega, hnear⟩
    · exact ⟨k, le_rfl, h, fun i hi hops => hless ⟨i, hi, hops⟩⟩

theorem Nearest.unique {j : ℕ} (h : Nearest arc k a b) (h' : Nearest arc j a b) : k = j := by
  by_contra hne
  obtain hlt | hlt := Nat.lt_or_gt_of_ne hne
  · exact h'.2 k hlt h.1
  · exact h.2 j hlt h'.1

theorem nearest_backward : Nearest (backward arc) k b a ↔ Nearest arc k a b := by simp only [Nearest, hops_backward]

/-- The last step to a node comes from one that is nearer. -/
theorem Nearest.pred (h : Nearest arc (k + 1) a b) : ∃ c, Nearest arc k a c ∧ ∃ e, arc c e b := by
  obtain ⟨c, hops, e, harc⟩ := hops_succ.mp h.1
  refine ⟨c, ⟨hops, fun i hi hless => ?_⟩, e, harc⟩
  exact h.2 (i + 1) (by omega) (hops_succ.mpr ⟨c, hless, e, harc⟩)

end

/-- What has been reached in a number of rounds, and what was reached in the last of them. -/
structure Ball (arc : V → E → V → Prop) (root : V) (depth : ℕ) (visited : V → Prop) (frontier : List V) : Prop where
  visited : ∀ v, visited v ↔ ∃ i ≤ depth, Hops arc i root v
  frontier : ∀ v, v ∈ frontier ↔ Nearest arc depth root v

variable {k : ℕ}

section
variable {arc : V → E → V → Prop} {root : V} {depth : ℕ} {visited : V → Prop} {frontier : List V}

theorem ball_start (arc : V → E → V → Prop) (root : V) : Ball arc root 0 (· = root) [root] := by
  have hzero : ∀ v, Hops arc 0 root v ↔ v = root := fun v => hops_zero.trans eq_comm
  refine ⟨fun v => ⟨fun h => ⟨0, le_rfl, (hzero v).mpr h⟩, ?_⟩, fun v => ?_⟩
  · rintro ⟨i, hi, hops⟩
    obtain rfl : i = 0 := by omega
    exact (hzero v).mp hops
  · rw [mem_singleton, Nearest, hzero]
    exact ⟨fun h => ⟨h, fun i hi => absurd hi (by omega)⟩, And.left⟩

/-- A node that is new is one step further out. -/
theorem Ball.nearest_of_new (h : Ball arc root depth visited frontier) {v s : V} {e : E} (hnew : ¬visited v) (hs : s ∈ frontier)
    (harc : arc s e v) : Nearest arc (depth + 1) root v := by
  have hops := ((h.frontier s).mp hs).1
  refine ⟨hops_succ.mpr ⟨s, hops, e, harc⟩, fun i hi hless => hnew ?_⟩
  exact (h.visited v).mpr ⟨i, by omega, hless⟩

theorem Ball.grow (h : Ball arc root depth visited frontier) {next : List V}
    (hnext : ∀ v, v ∈ next ↔ ¬visited v ∧ ∃ s ∈ frontier, ∃ e, arc s e v) :
    Ball arc root (depth + 1) (fun v => visited v ∨ v ∈ next) next := by
  have hmem : ∀ v, v ∈ next ↔ Nearest arc (depth + 1) root v := by
    intro v
    rw [hnext]
    constructor
    · rintro ⟨hnew, s, hs, e, harc⟩
      exact h.nearest_of_new hnew hs harc
    · intro hnear
      refine ⟨fun hold => ?_, ?_⟩
      · obtain ⟨i, hi, hops⟩ := (h.visited v).mp hold
        exact hnear.2 i (by omega) hops
      · obtain ⟨s, hs, e, harc⟩ := hnear.pred
        exact ⟨s, (h.frontier s).mpr hs, e, harc⟩
  refine ⟨fun v => ?_, hmem⟩
  rw [h.visited, hmem]
  constructor
  · rintro (⟨i, hi, hops⟩ | hnear)
    · exact ⟨i, by omega, hops⟩
    · exact ⟨depth + 1, le_rfl, hnear.1⟩
  · rintro ⟨i, hi, hops⟩
    obtain ⟨j, hj, hnear⟩ := exists_nearest hops
    obtain hle | rfl : j ≤ depth ∨ j = depth + 1 := by omega
    · exact Or.inl ⟨j, hle, hnear.1⟩
    · exact Or.inr hnear

/-- A ball with nothing on its rim holds all there is to reach. -/
theorem Ball.exhausted (h : Ball arc root depth visited []) {v : V} (hops : Hops arc k root v) : visited v := by
  obtain ⟨i, -, hnear⟩ := exists_nearest hops
  by_cases hi : i ≤ depth
  · exact (h.visited v).mpr ⟨i, hi, hnear.1⟩
  · obtain ⟨j, rfl⟩ : ∃ j, i = depth + j := ⟨i - depth, by omega⟩
    obtain ⟨c, hc, hrest⟩ := hops_add.mp hnear.1
    have hrim : Nearest arc depth root c := by
      refine ⟨hc, fun l hl hless => ?_⟩
      exact hnear.2 (l + j) (by omega) (hops_add.mpr ⟨c, hless, hrest⟩)
    exact absurd ((h.frontier c).mpr hrim) not_mem_nil

variable {target : V} {depth' : ℕ} {visited' : V → Prop} {frontier' : List V}

/-- Balls around both ends that do not meet leave no short walk. -/
theorem Ball.apart (h : Ball arc root depth visited frontier) (h' : Ball (backward arc) target depth' visited' frontier')
    (hapart : ∀ v, visited v → ¬visited' v) (hops : Hops arc k root target) : depth + depth' < k := by
  by_contra hle
  obtain ⟨i, j, rfl, hi, hj⟩ : ∃ i j, k = i + j ∧ i ≤ depth ∧ j ≤ depth' := ⟨min k depth, k - min k depth, by omega, by omega, by omega⟩
  obtain ⟨c, hfst, hsnd⟩ := hops_add.mp hops
  exact hapart c ((h.visited c).mpr ⟨i, hi, hfst⟩) ((h'.visited c).mpr ⟨j, hj, hops_backward.mpr hsnd⟩)

theorem Ball.cut (h : Ball arc root depth visited []) (h' : Ball (backward arc) target depth' visited' frontier')
    (hapart : ∀ v, visited v → ¬visited' v) : ¬Hops arc k root target := by
  intro hops
  apply hapart target (h.exhausted hops)
  exact (h'.visited target).mpr ⟨0, by omega, hops_zero.mpr rfl⟩

/-- Where a new node of one ball lies in the other, the way through it is a shortest one. -/
theorem Ball.contact (h : Ball arc root depth visited frontier) (h' : Ball (backward arc) target depth' visited' frontier')
    (hapart : ∀ v, visited v → ¬visited' v) {meeting : V} {j : ℕ} (hnew : Nearest arc (depth + 1) root meeting)
    (hmeet : visited' meeting) (hj : Nearest (backward arc) j target meeting) : Nearest arc (depth + 1 + j) root target := by
  obtain ⟨i, hi, hops⟩ := (h'.visited meeting).mp hmeet
  obtain ⟨l, hl, hnear⟩ := exists_nearest hops
  obtain rfl := hnear.unique hj
  refine ⟨hops_add.mpr ⟨meeting, hnew.1, hops_backward.mp hj.1⟩, fun k hk hless => ?_⟩
  have hlong := h.apart h' hapart hless
  omega

end

/-- The way up from a node, as far as there are parents and at most so many steps. -/
def climb (parent : V → Option (V × E)) : ℕ → V → List (V × E)
  | 0, _ => []
  | fuel + 1, v => match parent v with
    | some (p, e) => (p, e) :: climb parent fuel p
    | none => []

/-- The parents of a node lead to the root in a number of steps along arcs. -/
def Climbs (arc : V → E → V → Prop) (parent : V → Option (V × E)) (root : V) : ℕ → V → Prop
  | 0, v => v = root
  | k + 1, v => ∃ p e, parent v = some (p, e) ∧ arc p e v ∧ Climbs arc parent root k p

section
variable {arc : V → E → V → Prop} {parent : V → Option (V × E)} {root : V} {v : V}

theorem climbs_unique (hroot : parent root = none) {j : ℕ} (h : Climbs arc parent root k v) (h' : Climbs arc parent root j v) :
    k = j := by
  induction k generalizing j v with
  | zero =>
    obtain rfl : v = root := h
    cases j with
    | zero => rfl
    | succ j =>
      obtain ⟨p, e, hpar, -⟩ := h'
      rw [hroot] at hpar
      cases hpar
  | succ k ih =>
    obtain ⟨p, e, hpar, -, hclimbs⟩ := h
    cases j with
    | zero =>
      obtain rfl : v = root := h'
      rw [hroot] at hpar
      cases hpar
    | succ j =>
      obtain ⟨p', e', hpar', -, hclimbs'⟩ := h'
      rw [hpar] at hpar'
      cases hpar'
      rw [ih hclimbs hclimbs']

theorem climb_walk (hroot : parent root = none) {fuel : ℕ} (h : Climbs arc parent root k v) (hfuel : k ≤ fuel) :
    IsWalk (backward arc) v ((climb parent fuel v).map Prod.swap) root ∧ (climb parent fuel v).length = k := by
  induction k generalizing v fuel with
  | zero =>
    obtain rfl : v = root := h
    have hstop : climb parent fuel v = [] := by
      cases fuel with
      | zero => rfl
      | succ fuel => rw [climb, hroot]
    rw [hstop]
    exact ⟨rfl, rfl⟩
  | succ k ih =>
    obtain ⟨p, e, hpar, harc, hclimbs⟩ := h
    obtain ⟨fuel, rfl⟩ : ∃ rest, fuel = rest + 1 := ⟨fuel - 1, by omega⟩
    obtain ⟨hwalk, hlen⟩ := ih hclimbs (Nat.le_of_succ_le_succ hfuel)
    rw [climb, hpar]
    exact ⟨⟨harc, hwalk⟩, congrArg (· + 1) hlen⟩

/-- Each parent on the way is under a key of its own, so that the way is not longer than there are keys. -/
theorem climbs_le [DecidableEq V] {table : AList fun _ : V => V × E} (hroot : table.lookup root = none)
    (h : Climbs arc (table.lookup ·) root k v) : k ≤ table.keys.length := by
  have hway : ∃ way : List V, way.Nodup ∧ way.length = k ∧ ∀ x ∈ way, ∃ j, j < k ∧ Climbs arc (table.lookup ·) root (j + 1) x := by
    induction k generalizing v with
    | zero => exact ⟨[], nodup_nil, rfl, fun x hx => absurd hx not_mem_nil⟩
    | succ k ih =>
      have hnode := h
      obtain ⟨p, e, -, -, hclimbs⟩ := h
      obtain ⟨way, hnd, hlen, hmem⟩ := ih hclimbs
      refine ⟨v :: way, nodup_cons.mpr ⟨fun hv => ?_, hnd⟩, congrArg (· + 1) hlen, fun x hx => ?_⟩
      · obtain ⟨j, hj, hagain⟩ := hmem v hv
        have hsame := climbs_unique hroot hnode hagain
        omega
      · obtain rfl | hx := mem_cons.mp hx
        · exact ⟨k, by omega, hnode⟩
        · obtain ⟨j, hj, hclimb⟩ := hmem x hx
          exact ⟨j, by omega, hclimb⟩
  obtain ⟨way, hnd, rfl, hmem⟩ := hway
  apply Subperm.length_le
  apply hnd.subperm
  intro x hx
  obtain ⟨j, -, p, e, hpar, -⟩ := hmem x hx
  exact AList.mem_keys.mp (AList.lookup_isSome.mp (Option.isSome_iff_exists.mpr ⟨_, hpar⟩))

/-- Parents that are added at other nodes do not change the way. -/
theorem Climbs.mono {parent' : V → Option (V × E)} (h : Climbs arc parent root k v)
    (hsame : ∀ j x, j < k → Climbs arc parent root (j + 1) x → parent' x = parent x) : Climbs arc parent' root k v := by
  induction k generalizing v with
  | zero => exact h
  | succ k ih =>
    have hpar' := hsame k v (Nat.lt_succ_self k) h
    obtain ⟨p, e, hpar, harc, hclimbs⟩ := h
    exact ⟨p, e, hpar'.trans hpar, harc, ih hclimbs fun j x hj => hsame j x (Nat.lt_succ_of_lt hj)⟩

end

end OverGraph.GraphWalks
