import Mathlib.Data.List.Basic
import Mathlib.Order.Basic

/-!
# Sort keys of rows

Rows are ordered by the atoms of their explicit sort expressions, each in its direction with
nulls at the end, and then by their logical keys. The comparison of atoms is shown to be a
total preorder through an encoding as labelled trees.
-/

namespace OverGraph.SortKeys
open Ordering Std.TransCmp

/-- The atom a value is ordered by. Numbers are given by the bytes of their range key, texts
by their bytes. -/
inductive GraphSortAtom where
  | null
  | bool (value : Bool)
  | number (rangeKey : List ℕ)
  | string (bytes : List ℕ)
  | bytes (bytes : List ℕ)
  | node (id : ℕ)
  | edge (id : ℕ)
  | path (hopCount : ℕ) (nodes edges : List ℕ)
  | list (items : List GraphSortAtom)
  | map (entries : List (List ℕ × GraphSortAtom))

def graphSortAtomRank : GraphSortAtom → ℕ
  | .null => 255
  | .bool _ => 0
  | .number _ => 1
  | .string _ => 2
  | .bytes _ => 3
  | .node _ => 4
  | .edge _ => 5
  | .path _ _ _ => 6
  | .list _ => 7
  | .map _ => 8

mutual

def compareGraphSortAtoms : GraphSortAtom → GraphSortAtom → Ordering
  | .bool left, .bool right => compare left right
  | .number left, .number right => compare left right
  | .string left, .string right => compare left right
  | .bytes left, .bytes right => compare left right
  | .node left, .node right => compare left right
  | .edge left, .edge right => compare left right
  | .path leftHops leftNodes leftEdges, .path rightHops rightNodes rightEdges =>
    (compare leftHops rightHops).then ((compare leftNodes rightNodes).then (compare leftEdges rightEdges))
  | .list left, .list right => compareAtomLists left right
  | .map left, .map right => compareAtomMaps left right
  | left, right => compare (graphSortAtomRank left) (graphSortAtomRank right)

def compareAtomLists : List GraphSortAtom → List GraphSortAtom → Ordering
  | [], [] => .eq
  | [], _ :: _ => .lt
  | _ :: _, [] => .gt
  | left :: lefts, right :: rights => (compareGraphSortAtoms left right).then (compareAtomLists lefts rights)

def compareAtomMaps : List (List ℕ × GraphSortAtom) → List (List ℕ × GraphSortAtom) → Ordering
  | [], [] => .eq
  | [], _ :: _ => .lt
  | _ :: _, [] => .gt
  | (leftKey, left) :: lefts, (rightKey, right) :: rights =>
    ((compare leftKey rightKey).then (compareGraphSortAtoms left right)).then (compareAtomMaps lefts rights)

end

def compareGraphLogicalKeys (left right : List GraphSortAtom) : Ordering := compareAtomLists left right

inductive GraphOrderDirection where
  | asc
  | desc
  deriving DecidableEq

/-- A descending direction turns the order, but not that of nulls. -/
def compareDirected (direction : GraphOrderDirection) : GraphSortAtom → GraphSortAtom → Ordering
  | .null, right => compareGraphSortAtoms .null right
  | left, .null => compareGraphSortAtoms left .null
  | left, right =>
    match direction with
    | .asc => compareGraphSortAtoms left right
    | .desc => (compareGraphSortAtoms left right).swap

/-- What rows are sorted and pages are cut by. -/
structure FinalKey where
  sortKey : List GraphSortAtom
  logicalKey : List GraphSortAtom

/-- The explicit keys in their directions; a key that ends too soon comes first. -/
def compareSortKeys : List GraphOrderDirection → FinalKey → FinalKey → Ordering
  | [], left, right => compareGraphLogicalKeys left.logicalKey right.logicalKey
  | direction :: directions, ⟨leftAtom :: leftSort, left⟩, ⟨rightAtom :: rightSort, right⟩ =>
    (compareDirected direction leftAtom rightAtom).then
      (compareSortKeys directions ⟨leftSort, left⟩ ⟨rightSort, right⟩)
  | _ :: _, left, right => compare left.sortKey.length right.sortKey.length

def compareGraphFinalKeysByDirections (directions : List GraphOrderDirection) (left right : FinalKey) : Ordering :=
  compareSortKeys directions left right

/-- The third comparison is the one that two comparisons in a row force. -/
structure Chain (fst snd whole : Ordering) : Prop where
  left : fst = .eq → whole = snd
  right : snd = .eq → whole = fst
  lt : fst = .lt → snd = .lt → whole = .lt
  gt : fst = .gt → snd = .gt → whole = .gt

theorem Chain.then {a b c d e f : Ordering} (h : Chain a b c) (h' : Chain d e f) : Chain (a.then d) (b.then e) (c.then f) := by
  obtain ⟨h₁, h₂, h₃, h₄⟩ := h
  cases a with
  | eq =>
    obtain rfl := h₁ rfl
    cases c with
    | eq => exact h'
    | lt => exact ⟨fun _ => rfl, fun h => (nomatch h), fun _ _ => rfl, fun _ h => (nomatch h)⟩
    | gt => exact ⟨fun _ => rfl, fun h => (nomatch h), fun _ h => (nomatch h), fun _ _ => rfl⟩
  | lt =>
    cases b with
    | eq =>
      obtain rfl := h₂ rfl
      exact ⟨fun h => (nomatch h), fun _ => rfl, fun _ _ => rfl, fun h => (nomatch h)⟩
    | lt =>
      obtain rfl := h₃ rfl rfl
      exact ⟨fun h => (nomatch h), fun h => (nomatch h), fun _ _ => rfl, fun h => (nomatch h)⟩
    | gt => exact ⟨fun h => (nomatch h), fun h => (nomatch h), fun _ h => (nomatch h), fun h => (nomatch h)⟩
  | gt =>
    cases b with
    | eq =>
      obtain rfl := h₂ rfl
      exact ⟨fun h => (nomatch h), fun _ => rfl, fun h => (nomatch h), fun _ _ => rfl⟩
    | gt =>
      obtain rfl := h₄ rfl rfl
      exact ⟨fun h => (nomatch h), fun h => (nomatch h), fun h => (nomatch h), fun _ _ => rfl⟩
    | lt => exact ⟨fun h => (nomatch h), fun h => (nomatch h), fun h => (nomatch h), fun _ h => (nomatch h)⟩

theorem Chain.swap {a b c : Ordering} (h : Chain a b c) : Chain a.swap b.swap c.swap := by
  obtain ⟨h₁, h₂, h₃, h₄⟩ := h
  refine ⟨fun ha => ?_, fun hb => ?_, fun ha hb => ?_, fun ha hb => ?_⟩
  · rw [h₁ (swap_inj.mp ha)]
  · rw [h₂ (swap_inj.mp hb)]
  · rw [h₄ (swap_inj.mp ha) (swap_inj.mp hb)]
    rfl
  · rw [h₃ (swap_inj.mp ha) (swap_inj.mp hb)]
    rfl

variable {α : Type} {cmp : α → α → Ordering}

theorem chain_of_transCmp [Std.TransCmp cmp] (a b c : α) : Chain (cmp a b) (cmp b c) (cmp a c) where
  left h := congr_left h
  right h := (congr_right h).symm
  lt h h' := lt_trans h h'
  gt h h' := gt_trans h h'

theorem transCmp_of_chain (hswap : ∀ a b, cmp a b = (cmp b a).swap)
    (hchain : ∀ a b c, Chain (cmp a b) (cmp b c) (cmp a c)) : Std.TransCmp cmp where
  eq_swap := hswap _ _
  isLE_trans := by
    intro a b c hab hbc
    have h := hchain a b c
    cases hfst : cmp a b with
    | eq =>
      rw [h.left hfst]
      exact hbc
    | lt =>
      cases hsnd : cmp b c with
      | eq =>
        rw [h.right hsnd]
        exact hab
      | lt =>
        rw [h.lt hfst hsnd]
        rfl
      | gt =>
        rw [hsnd] at hbc
        cases hbc
    | gt =>
      rw [hfst] at hab
      cases hab

/-- A label and the trees under it. -/
inductive SortTree where
  | node (label : List (List ℕ)) (children : List SortTree)

mutual

def compareTrees : SortTree → SortTree → Ordering
  | .node left lefts, .node right rights => (compare left right).then (compareForests lefts rights)

def compareForests : List SortTree → List SortTree → Ordering
  | [], [] => .eq
  | [], _ :: _ => .lt
  | _ :: _, [] => .gt
  | left :: lefts, right :: rights => (compareTrees left right).then (compareForests lefts rights)

end

mutual

theorem compareTrees_swap : ∀ left right : SortTree, compareTrees left right = (compareTrees right left).swap
  | .node left lefts, .node right rights => by
    rw [compareTrees, compareTrees, swap_then, ← compareForests_swap lefts rights, ← Std.OrientedOrd.eq_swap]

theorem compareForests_swap : ∀ lefts rights : List SortTree,
    compareForests lefts rights = (compareForests rights lefts).swap
  | [], [] | [], _ :: _ | _ :: _, [] => rfl
  | left :: lefts, right :: rights => by
    rw [compareForests, compareForests, swap_then, ← compareForests_swap lefts rights, ← compareTrees_swap left right]

end

variable (o : Ordering)

theorem chain_lt_left : Chain .lt o .lt := ⟨fun h => (nomatch h), fun _ => rfl, fun _ _ => rfl, fun h => (nomatch h)⟩

theorem chain_gt_right : Chain o .gt .gt := ⟨fun _ => rfl, fun h => (nomatch h), fun _ h => (nomatch h), fun _ _ => rfl⟩

theorem chain_eq_left : Chain .eq o o := ⟨fun _ => rfl, fun h => h, fun h => (nomatch h), fun h => (nomatch h)⟩

theorem chain_eq_right : Chain o .eq o := ⟨fun h => h, fun _ => rfl, fun _ h => (nomatch h), fun _ h => (nomatch h)⟩

theorem chain_lt_gt : Chain .lt .gt o := ⟨fun h => (nomatch h), fun h => (nomatch h), fun _ h => (nomatch h), fun h => (nomatch h)⟩

theorem chain_gt_lt : Chain .gt .lt o := ⟨fun h => (nomatch h), fun h => (nomatch h), fun h => (nomatch h), fun _ h => (nomatch h)⟩

mutual

theorem compareTrees_chain : ∀ a b c : SortTree,
    Chain (compareTrees a b) (compareTrees b c) (compareTrees a c)
  | .node a as, .node b bs, .node c cs => by
    rw [compareTrees, compareTrees, compareTrees]
    exact (chain_of_transCmp a b c).then (compareForests_chain as bs cs)

theorem compareForests_chain : ∀ as bs cs : List SortTree,
    Chain (compareForests as bs) (compareForests bs cs) (compareForests as cs)
  | [], [], _ => chain_eq_left _
  | _ :: _, [], [] => chain_eq_right _
  | [], _ :: _, [] => chain_lt_gt _
  | [], _ :: _, _ :: _ => chain_lt_left _
  | _ :: _, _ :: _, [] => chain_gt_right _
  | _ :: _, [], _ :: _ => chain_gt_lt _
  | a :: as, b :: bs, c :: cs => by
    rw [compareForests, compareForests, compareForests]
    exact (compareTrees_chain a b c).then (compareForests_chain as bs cs)

end

mutual

def atomTree : GraphSortAtom → SortTree
  | .null => .node [[255]] []
  | .bool value => .node [[0], [value.toNat]] []
  | .number rangeKey => .node [[1], rangeKey] []
  | .string bytes => .node [[2], bytes] []
  | .bytes bytes => .node [[3], bytes] []
  | .node id => .node [[4], [id]] []
  | .edge id => .node [[5], [id]] []
  | .path hopCount nodes edges => .node [[6], [hopCount], nodes, edges] []
  | .list items => .node [[7]] (atomForest items)
  | .map entries => .node [[8]] (entryForest entries)

def atomForest : List GraphSortAtom → List SortTree
  | [] => []
  | item :: items => atomTree item :: atomForest items

def entryForest : List (List ℕ × GraphSortAtom) → List SortTree
  | [] => []
  | (key, value) :: entries => .node [key] [atomTree value] :: entryForest entries

end

theorem compare_cons [Ord α] (a b : α) (as bs : List α) :
    compare (a :: as) (b :: bs) = (compare a b).then (compare as bs) := List.compareLex_cons_cons

theorem compare_nil [Ord α] : compare ([] : List α) [] = .eq := rfl

theorem compare_self_nat (n : ℕ) : compare n n = .eq := Std.ReflOrd.compare_self

theorem compare_toNat (a b : Bool) : compare a.toNat b.toNat = compare a b := by cases a <;> cases b <;> rfl

mutual

theorem compareGraphSortAtoms_eq : ∀ a b : GraphSortAtom,
    compareGraphSortAtoms a b = compareTrees (atomTree a) (atomTree b)
  | .null, b => by cases b <;> rfl
  | .bool x, b => by
    cases b with
    | bool y =>
      simp only [compareGraphSortAtoms, atomTree, compareTrees, compareForests, compare_cons, compare_nil,
        compare_self_nat, compare_toNat, then_eq, eq_then]
    | _ => rfl
  | .number x, b => by
    cases b with
    | number y =>
      simp only [compareGraphSortAtoms, atomTree, compareTrees, compareForests, compare_cons, compare_nil,
        compare_self_nat, then_eq, eq_then]
    | _ => rfl
  | .string x, b => by
    cases b with
    | string y =>
      simp only [compareGraphSortAtoms, atomTree, compareTrees, compareForests, compare_cons, compare_nil,
        compare_self_nat, then_eq, eq_then]
    | _ => rfl
  | .bytes x, b => by
    cases b with
    | bytes y =>
      simp only [compareGraphSortAtoms, atomTree, compareTrees, compareForests, compare_cons, compare_nil,
        compare_self_nat, then_eq, eq_then]
    | _ => rfl
  | .node x, b => by
    cases b with
    | node y =>
      simp only [compareGraphSortAtoms, atomTree, compareTrees, compareForests, compare_cons, compare_nil,
        compare_self_nat, then_eq, eq_then]
    | _ => rfl
  | .edge x, b => by
    cases b with
    | edge y =>
      simp only [compareGraphSortAtoms, atomTree, compareTrees, compareForests, compare_cons, compare_nil,
        compare_self_nat, then_eq, eq_then]
    | _ => rfl
  | .path x nodes edges, b => by
    cases b with
    | path y nodes' edges' =>
      simp only [compareGraphSortAtoms, atomTree, compareTrees, compareForests, compare_cons, compare_nil,
        compare_self_nat, then_eq, eq_then]
    | _ => rfl
  | .list items, b => by
    cases b with
    | list items' =>
      simp only [compareGraphSortAtoms, atomTree, compareTrees, compare_cons, compare_nil, compare_self_nat,
        eq_then, compareAtomLists_eq items items']
    | _ => rfl
  | .map entries, b => by
    cases b with
    | map entries' =>
      simp only [compareGraphSortAtoms, atomTree, compareTrees, compare_cons, compare_nil, compare_self_nat,
        eq_then, compareAtomMaps_eq entries entries']
    | _ => rfl

theorem compareAtomLists_eq : ∀ as bs : List GraphSortAtom,
    compareAtomLists as bs = compareForests (atomForest as) (atomForest bs)
  | [], [] | [], _ :: _ | _ :: _, [] => rfl
  | a :: as, b :: bs => by
    rw [compareAtomLists, atomForest, atomForest, compareForests, compareGraphSortAtoms_eq a b, compareAtomLists_eq as bs]

theorem compareAtomMaps_eq : ∀ as bs : List (List ℕ × GraphSortAtom),
    compareAtomMaps as bs = compareForests (entryForest as) (entryForest bs)
  | [], [] | [], _ :: _ | _ :: _, [] => rfl
  | (key, a) :: as, (key', b) :: bs => by
    rw [compareAtomMaps, entryForest, entryForest, compareForests, compareGraphSortAtoms_eq a b, compareAtomMaps_eq as bs]
    simp only [compareTrees, compareForests, compare_cons, compare_nil, then_eq]

end

mutual

theorem eq_of_compareTrees : ∀ {a b : SortTree}, compareTrees a b = .eq → a = b
  | .node a as, .node b bs, h => by
    rw [compareTrees, then_eq_eq] at h
    rw [Std.LawfulEqCmp.eq_of_compare h.1, eq_of_compareForests h.2]

theorem eq_of_compareForests : ∀ {as bs : List SortTree}, compareForests as bs = .eq → as = bs
  | [], [], _ => rfl
  | [], _ :: _, h | _ :: _, [], h => nomatch h
  | a :: as, b :: bs, h => by
    rw [compareForests, then_eq_eq] at h
    rw [eq_of_compareTrees h.1, eq_of_compareForests h.2]

end

mutual

theorem atomTree_inj : ∀ {a b : GraphSortAtom}, atomTree a = atomTree b → a = b
  | .bool x, b, h => by
    cases b with
    | bool y => cases x <;> cases y <;> simp_all [atomTree]
    | _ => simp [atomTree] at h
  | .list items, b, h => by
    cases b with
    | list items' => rw [atomForest_inj (SortTree.node.inj h).2]
    | _ => simp [atomTree] at h
  | .map entries, b, h => by
    cases b with
    | map entries' => rw [entryForest_inj (SortTree.node.inj h).2]
    | _ => simp [atomTree] at h
  | .null, b, h | .number _, b, h | .string _, b, h | .bytes _, b, h | .node _, b, h | .edge _, b, h | .path _ _ _, b, h => by
    cases b <;> simp_all [atomTree]

theorem atomForest_inj : ∀ {as bs : List GraphSortAtom}, atomForest as = atomForest bs → as = bs
  | [], [], _ => rfl
  | [], _ :: _, h | _ :: _, [], h => nomatch h
  | a :: as, b :: bs, h => by rw [atomTree_inj (List.cons.inj h).1, atomForest_inj (List.cons.inj h).2]

theorem entryForest_inj : ∀ {as bs : List (List ℕ × GraphSortAtom)}, entryForest as = entryForest bs → as = bs
  | [], [], _ => rfl
  | [], _ :: _, h | _ :: _, [], h => nomatch h
  | (key, a) :: as, (key', b) :: bs, h => by
    obtain ⟨hhead, htail⟩ := List.cons.inj h
    obtain ⟨hkey, hval⟩ := SortTree.node.inj hhead
    rw [(List.cons.inj hkey).1, atomTree_inj (List.cons.inj hval).1, entryForest_inj htail]

end

instance : Std.TransCmp compareGraphSortAtoms :=
  transCmp_of_chain
    (fun a b => by rw [compareGraphSortAtoms_eq, compareGraphSortAtoms_eq, ← compareTrees_swap])
    fun a b c => by
      rw [compareGraphSortAtoms_eq, compareGraphSortAtoms_eq, compareGraphSortAtoms_eq]
      exact compareTrees_chain _ _ _

instance : Std.LawfulEqCmp compareGraphSortAtoms where
  eq_of_compare h := atomTree_inj (eq_of_compareTrees (by rwa [compareGraphSortAtoms_eq] at h))

theorem compareGraphLogicalKeys_swap (left right : List GraphSortAtom) :
    compareGraphLogicalKeys left right = (compareGraphLogicalKeys right left).swap := by
  rw [compareGraphLogicalKeys, compareGraphLogicalKeys, compareAtomLists_eq, compareAtomLists_eq, ← compareForests_swap]

theorem compareGraphLogicalKeys_chain (a b c : List GraphSortAtom) :
    Chain (compareGraphLogicalKeys a b) (compareGraphLogicalKeys b c) (compareGraphLogicalKeys a c) := by
  rw [compareGraphLogicalKeys, compareGraphLogicalKeys, compareGraphLogicalKeys, compareAtomLists_eq,
    compareAtomLists_eq, compareAtomLists_eq]
  exact compareForests_chain _ _ _

theorem compare_null_right {atom : GraphSortAtom} (h : atom ≠ .null) : compareGraphSortAtoms atom .null = .lt := by
  cases atom with
  | null => exact absurd rfl h
  | _ => rfl

theorem compare_null_left {atom : GraphSortAtom} (h : atom ≠ .null) : compareGraphSortAtoms .null atom = .gt := by
  cases atom with
  | null => exact absurd rfl h
  | _ => rfl

variable (direction : GraphOrderDirection)

theorem compareDirected_null_left (atom : GraphSortAtom) :
    compareDirected direction .null atom = compareGraphSortAtoms .null atom := by
  cases atom <;> rfl

theorem compareDirected_null_right (atom : GraphSortAtom) :
    compareDirected direction atom .null = compareGraphSortAtoms atom .null := by
  cases atom <;> rfl

theorem compareDirected_asc (left right : GraphSortAtom) : compareDirected .asc left right = compareGraphSortAtoms left right := by
  cases left <;> cases right <;> rfl

theorem compareDirected_desc {left right : GraphSortAtom} (hleft : left ≠ .null) (hrt : right ≠ .null) :
    compareDirected .desc left right = (compareGraphSortAtoms left right).swap := by
  rw [compareDirected]
  · exact hleft
  · exact hrt

theorem compareGraphSortAtoms_swap (left right : GraphSortAtom) :
    compareGraphSortAtoms left right = (compareGraphSortAtoms right left).swap := Std.OrientedCmp.eq_swap

theorem compareDirected_swap (left right : GraphSortAtom) :
    compareDirected direction left right = (compareDirected direction right left).swap := by
  cases direction with
  | asc =>
    rw [compareDirected_asc, compareDirected_asc]
    exact compareGraphSortAtoms_swap left right
  | desc =>
    by_cases hleft : left = .null
    · rw [hleft, compareDirected_null_left, compareDirected_null_right]
      exact compareGraphSortAtoms_swap _ _
    · by_cases hrt : right = .null
      · rw [hrt, compareDirected_null_left, compareDirected_null_right]
        exact compareGraphSortAtoms_swap _ _
      · rw [compareDirected_desc hleft hrt, compareDirected_desc hrt hleft]
        exact congrArg swap (compareGraphSortAtoms_swap left right)

theorem compareDirected_chain (a b c : GraphSortAtom) :
    Chain (compareDirected direction a b) (compareDirected direction b c) (compareDirected direction a c) := by
  cases direction with
  | asc =>
    rw [compareDirected_asc, compareDirected_asc, compareDirected_asc]
    exact chain_of_transCmp a b c
  | desc =>
    -- a null stays at the end
    have hself : compareGraphSortAtoms .null .null = .eq := rfl
    by_cases hb : b = .null
    · rw [hb, compareDirected_null_right, compareDirected_null_left]
      by_cases ha : a = .null
      · rw [ha, compareDirected_null_left, hself]
        exact chain_eq_left _
      · rw [compare_null_right ha]
        by_cases hc : c = .null
        · rw [hc, compareDirected_null_right, hself, compare_null_right ha]
          exact chain_eq_right _
        · rw [compare_null_left hc]
          exact chain_lt_gt _
    · by_cases ha : a = .null
      · rw [ha, compareDirected_null_left, compare_null_left hb, compareDirected_null_left]
        by_cases hc : c = .null
        · rw [hc, compareDirected_null_right, compare_null_right hb]
          exact chain_gt_lt _
        · rw [compare_null_left hc]
          cases compareDirected .desc b c with
          | lt => exact chain_gt_lt _
          | eq => exact chain_eq_right _
          | gt => exact chain_gt_right _
      · by_cases hc : c = .null
        · rw [hc, compareDirected_null_right, compareDirected_null_right, compare_null_right hb, compare_null_right ha]
          cases compareDirected .desc a b with
          | lt => exact chain_lt_left _
          | eq => exact chain_eq_left _
          | gt => exact chain_gt_lt _
        · rw [compareDirected_desc ha hb, compareDirected_desc hb hc, compareDirected_desc ha hc]
          exact (chain_of_transCmp a b c).swap

theorem compareSortKeys_swap (directions : List GraphOrderDirection) (left right : FinalKey) :
    compareSortKeys directions left right = (compareSortKeys directions right left).swap := by
  induction directions generalizing left right with
  | nil => exact compareGraphLogicalKeys_swap _ _
  | cons direction directions ih =>
    obtain ⟨leftSort, left⟩ := left
    obtain ⟨rightSort, right⟩ := right
    cases leftSort with
    | nil => cases rightSort <;> rfl
    | cons leftAtom leftSort =>
      cases rightSort with
      | nil => rfl
      | cons rightAtom rightSort => rw [compareSortKeys, compareSortKeys, swap_then, ← compareDirected_swap, ← ih]

theorem compareSortKeys_chain (directions : List GraphOrderDirection) (a b c : FinalKey) :
    Chain (compareSortKeys directions a b) (compareSortKeys directions b c) (compareSortKeys directions a c) := by
  induction directions generalizing a b c with
  | nil => exact compareGraphLogicalKeys_chain _ _ _
  | cons direction directions ih =>
    obtain ⟨as, a⟩ := a
    obtain ⟨bs, b⟩ := b
    obtain ⟨cs, c⟩ := c
    cases as with
    | nil =>
      cases bs with
      | nil =>
        cases cs with
        | nil | cons z cs => exact chain_eq_left _
      | cons y bs =>
        cases cs with
        | nil => exact chain_lt_gt _
        | cons z cs => exact chain_lt_left _
    | cons x as =>
      cases bs with
      | nil =>
        cases cs with
        | nil => exact chain_eq_right _
        | cons z cs => exact chain_gt_lt _
      | cons y bs =>
        cases cs with
        | nil => exact chain_gt_right _
        | cons z cs =>
          rw [compareSortKeys, compareSortKeys, compareSortKeys]
          exact (compareDirected_chain direction x y z).then (ih ⟨as, a⟩ ⟨bs, b⟩ ⟨cs, c⟩)

/-- Final rows are compared by a total preorder. -/
instance (directions : List GraphOrderDirection) : Std.TransCmp (compareGraphFinalKeysByDirections directions) :=
  transCmp_of_chain (compareSortKeys_swap directions) (compareSortKeys_chain directions)

end OverGraph.SortKeys
