import OverGraph.KeyedLists

/-!
# Normalization of Boolean filters

A filter is a tree of conjunctions, disjunctions and negations over conditions. It is normalized from
the leaves up: constants vanish, nested conjunctions are flattened, children are told apart by a key
of bytes, and conjunctions that contradict themselves are found. Where the rules for the conditions
are sound, so is the normalization of every tree.
-/

namespace OverGraph.FilterTrees
open KeyedLists Fallible List Except Nat

inductive FilterExpr (Leaf : Type) where
  | leaf (condition : Leaf)
  | and (kids : List (FilterExpr Leaf))
  | or (kids : List (FilterExpr Leaf))
  | not (child : FilterExpr Leaf)

inductive NormalizedFilter (Test : Type) where
  | alwaysTrue
  | alwaysFalse
  | test (test : Test)
  | and (kids : List (NormalizedFilter Test))
  | or (kids : List (NormalizedFilter Test))
  | not (child : NormalizedFilter Test)

variable {Leaf Test : Type}

section

/-- Induction over a tree: what holds for all children holds for the node above them. -/
@[elab_as_elim]
theorem FilterExpr.inductOn {motive : FilterExpr Leaf → Prop} (leaf : ∀ cond, motive (.leaf cond))
    (and : ∀ kids, (∀ child ∈ kids, motive child) → motive (.and kids))
    (or : ∀ kids, (∀ child ∈ kids, motive child) → motive (.or kids))
    (not : ∀ child, motive child → motive (.not child)) (expr : FilterExpr Leaf) : motive expr := by
  apply FilterExpr.rec (motive_1 := motive) (motive_2 := fun kids => ∀ child ∈ kids, motive child)
  · exact leaf
  · exact and
  · exact or
  · exact not
  · exact nofun
  · exact fun child kids hkid hkids => forall_mem_cons.mpr ⟨hkid, hkids⟩

@[elab_as_elim]
theorem NormalizedFilter.inductOn {motive : NormalizedFilter Test → Prop} (alwaysTrue : motive .alwaysTrue)
    (alwaysFalse : motive .alwaysFalse) (test : ∀ t, motive (.test t))
    (and : ∀ kids, (∀ child ∈ kids, motive child) → motive (.and kids))
    (or : ∀ kids, (∀ child ∈ kids, motive child) → motive (.or kids))
    (not : ∀ child, motive child → motive (.not child)) (filter : NormalizedFilter Test) : motive filter := by
  apply NormalizedFilter.rec (motive_1 := motive) (motive_2 := fun kids => ∀ child ∈ kids, motive child)
  · exact alwaysTrue
  · exact alwaysFalse
  · exact test
  · exact and
  · exact or
  · exact not
  · exact nofun
  · exact fun child kids hkid hkids => forall_mem_cons.mpr ⟨hkid, hkids⟩

end

section
variable (leafHolds : Leaf → Bool) (holds : Test → Bool)

mutual

def FilterExpr.meets : FilterExpr Leaf → Bool
  | .leaf cond => leafHolds cond
  | .and kids => allMeet kids
  | .or kids => anyMeets kids
  | .not child => !child.meets

def allMeet : List (FilterExpr Leaf) → Bool
  | [] => true
  | child :: kids => child.meets && allMeet kids

def anyMeets : List (FilterExpr Leaf) → Bool
  | [] => false
  | child :: kids => child.meets || anyMeets kids

end

mutual

def NormalizedFilter.meets : NormalizedFilter Test → Bool
  | .alwaysTrue => true
  | .alwaysFalse => false
  | .test t => holds t
  | .and kids => allNormalizedMeet kids
  | .or kids => anyNormalizedMeets kids
  | .not child => !child.meets

def allNormalizedMeet : List (NormalizedFilter Test) → Bool
  | [] => true
  | child :: kids => child.meets && allNormalizedMeet kids

def anyNormalizedMeets : List (NormalizedFilter Test) → Bool
  | [] => false
  | child :: kids => child.meets || anyNormalizedMeets kids

end

@[simp] theorem FilterExpr.meets_and (kids : List (FilterExpr Leaf)) :
    (FilterExpr.and kids).meets leafHolds = kids.all (FilterExpr.meets leafHolds) := by
  rw [FilterExpr.meets]
  induction kids with
  | nil => rfl
  | cons child kids ih => rw [allMeet, ih, all_cons]

@[simp] theorem FilterExpr.meets_or (kids : List (FilterExpr Leaf)) :
    (FilterExpr.or kids).meets leafHolds = kids.any (FilterExpr.meets leafHolds) := by
  rw [FilterExpr.meets]
  induction kids with
  | nil => rfl
  | cons child kids ih => rw [anyMeets, ih, any_cons]

@[simp] theorem NormalizedFilter.meets_and (kids : List (NormalizedFilter Test)) :
    (NormalizedFilter.and kids).meets holds = kids.all (NormalizedFilter.meets holds) := by
  rw [NormalizedFilter.meets]
  induction kids with
  | nil => rfl
  | cons child kids ih => rw [allNormalizedMeet, ih, all_cons]

@[simp] theorem NormalizedFilter.meets_or (kids : List (NormalizedFilter Test)) :
    (NormalizedFilter.or kids).meets holds = kids.any (NormalizedFilter.meets holds) := by
  rw [NormalizedFilter.meets]
  induction kids with
  | nil => rfl
  | cons child kids ih => rw [anyNormalizedMeets, ih, any_cons]

end

/-- Every condition of the tree is one of those allowed. -/
inductive FilterExpr.Each (fits : Leaf → Prop) : FilterExpr Leaf → Prop
  | leaf {condition : Leaf} (h : fits condition) : Each fits (.leaf condition)
  | and {kids : List (FilterExpr Leaf)} (h : ∀ child ∈ kids, Each fits child) : Each fits (.and kids)
  | or {kids : List (FilterExpr Leaf)} (h : ∀ child ∈ kids, Each fits child) : Each fits (.or kids)
  | not {child : FilterExpr Leaf} (h : Each fits child) : Each fits (.not child)

inductive NormalizedFilter.Each (good : Test → Prop) : NormalizedFilter Test → Prop
  | alwaysTrue : Each good .alwaysTrue
  | alwaysFalse : Each good .alwaysFalse
  | test {t : Test} (h : good t) : Each good (.test t)
  | and {kids : List (NormalizedFilter Test)} (h : ∀ child ∈ kids, Each good child) : Each good (.and kids)
  | or {kids : List (NormalizedFilter Test)} (h : ∀ child ∈ kids, Each good child) : Each good (.or kids)
  | not {child : NormalizedFilter Test} (h : Each good child) : Each good (.not child)

theorem NormalizedFilter.Each.imp {good better : Test → Prop} (himp : ∀ t, good t → better t) {filter : NormalizedFilter Test}
    (h : filter.Each good) : filter.Each better := by
  induction h with
  | alwaysTrue => exact .alwaysTrue
  | alwaysFalse => exact .alwaysFalse
  | test h => exact .test (himp _ h)
  | and _ ih => exact .and ih
  | or _ ih => exact .or ih
  | not _ ih => exact .not ih

/-- What a language of conditions adds: the normal form of a condition, tests that are each other's
negation, the test of a conjunction for contradictions, and the bytes of the keys. -/
structure Rules (Leaf Test : Type) where
  leaf : Leaf → Except String (NormalizedFilter Test)
  negated : Test → Option Test
  prune : List (NormalizedFilter Test) → Except String (Option (List (NormalizedFilter Test)))
  testKey : Test → List UInt8
  andTag : UInt8
  orTag : UInt8
  notTag : UInt8
  emptyAnd : String
  emptyOr : String

namespace Rules
variable (rules : Rules Leaf Test)

mutual

def structuralKey : NormalizedFilter Test → List UInt8
  | .alwaysTrue => [0]
  | .alwaysFalse => [1]
  | .test t => rules.testKey t
  | .and kids => rules.andTag :: childKeys kids
  | .or kids => rules.orTag :: childKeys kids
  | .not child => rules.notTag :: pushLenPrefixedBytes (structuralKey child)

def childKeys : List (NormalizedFilter Test) → List UInt8
  | [] => []
  | child :: kids => pushLenPrefixedBytes (structuralKey child) ++ childKeys kids

end

/-- What a child adds to a conjunction: nothing is left of one that decides it. -/
def spreadAnd : NormalizedFilter Test → Option (List (NormalizedFilter Test))
  | .alwaysFalse => none
  | .alwaysTrue => some []
  | .and grandchildren => some grandchildren
  | norm => some [norm]

def spreadOr : NormalizedFilter Test → Option (List (NormalizedFilter Test))
  | .alwaysTrue => none
  | .alwaysFalse => some []
  | .or grandchildren => some grandchildren
  | norm => some [norm]

def negate : NormalizedFilter Test → NormalizedFilter Test
  | .alwaysTrue => .alwaysFalse
  | .alwaysFalse => .alwaysTrue
  | .test t =>
    match rules.negated t with
    | some other => .test other
    | none => .not (.test t)
  | .not grandchild => grandchild
  | norm => .not norm

def rebuild (empty : NormalizedFilter Test) (many : List (NormalizedFilter Test) → NormalizedFilter Test) :
    List (NormalizedFilter Test) → NormalizedFilter Test
  | [] => empty
  | [child] => child
  | kids => many kids

def childrenSortedDedup (kids : List (NormalizedFilter Test)) : List (NormalizedFilter Test) := sortedDedup rules.structuralKey kids

def normalizeNormalizedAnd (flattened : List (NormalizedFilter Test)) : Except String (NormalizedFilter Test) := do
  match ← rules.prune flattened with
  | none => return .alwaysFalse
  | some kept => return rebuild .alwaysTrue .and (rules.childrenSortedDedup kept)

mutual

def normalize : FilterExpr Leaf → Except String (NormalizedFilter Test)
  | .leaf cond => rules.leaf cond
  | .and kids =>
    if kids.isEmpty then .error rules.emptyAnd
    else do
      match ← flatten kids spreadAnd [] with
      | none => return .alwaysFalse
      | some flattened => rules.normalizeNormalizedAnd flattened
  | .or kids =>
    if kids.isEmpty then .error rules.emptyOr
    else do
      match ← flatten kids spreadOr [] with
      | none => return .alwaysTrue
      | some flattened => return rebuild .alwaysFalse .or (rules.childrenSortedDedup flattened)
  | .not child => do
    let norm ← normalize child
    return rules.negate norm

/-- The children are normalized in their order, up to one that decides. -/
def flatten : List (FilterExpr Leaf) → (NormalizedFilter Test → Option (List (NormalizedFilter Test))) →
    List (NormalizedFilter Test) → Except String (Option (List (NormalizedFilter Test)))
  | [], _, flattened => return some flattened
  | child :: kids, spread, flattened => do
    let norm ← normalize child
    match spread norm with
    | none => return none
    | some added => flatten kids spread (flattened ++ added)

end

mutual

/-- The bytes that the tree can take in a key. -/
def size : FilterExpr Leaf → ℕ
  | .leaf cond =>
    match rules.leaf cond with
    | .ok norm => (rules.structuralKey norm).length
    | .error _ => 0
  | .and kids => 1 + childrenSize kids
  | .or kids => 1 + childrenSize kids
  | .not child => 9 + size child

def childrenSize : List (FilterExpr Leaf) → ℕ
  | [] => 0
  | child :: kids => 8 + size child + childrenSize kids

end

/-- What a child takes in the key of the node above it. -/
def weight (norm : NormalizedFilter Test) : ℕ := 8 + (rules.structuralKey norm).length

theorem childKeys_eq (kids : List (NormalizedFilter Test)) :
    rules.childKeys kids = (kids.map rules.structuralKey).flatMap pushLenPrefixedBytes := by
  induction kids with
  | nil => rfl
  | cons child kids ih => rw [childKeys, ih, map_cons, flatMap_cons]

theorem length_childKeys (kids : List (NormalizedFilter Test)) : (rules.childKeys kids).length = (kids.map rules.weight).sum := by
  induction kids with
  | nil => rfl
  | cons child kids ih => rw [childKeys, length_append, length_pushLenPrefixedBytes, ih, map_cons, sum_cons, weight]

theorem childrenSize_eq (kids : List (FilterExpr Leaf)) : rules.childrenSize kids = (kids.map fun child => 8 + rules.size child).sum := by
  induction kids with
  | nil => rfl
  | cons child kids ih => rw [childrenSize, ih, map_cons, sum_cons]

theorem size_le_of_mem {child : FilterExpr Leaf} {kids : List (FilterExpr Leaf)} (h : child ∈ kids) :
    rules.size child ≤ rules.childrenSize kids := by
  rw [childrenSize_eq]
  have hle : 8 + rules.size child ≤ (kids.map fun child => 8 + rules.size child).sum := le_sum_of_mem (mem_map_of_mem h)
  omega

variable {child : NormalizedFilter Test} {kids : List (NormalizedFilter Test)}

theorem weight_le_of_mem (h : child ∈ kids) :
    rules.weight child ≤ (kids.map rules.weight).sum := le_sum_of_mem (mem_map_of_mem h)

variable {rules}

/-- The tags of the nodes differ, and no test has one of them. -/
structure Tagged (rules : Rules Leaf Test) : Prop where
  nodup : [0, 1, rules.andTag, rules.orTag, rules.notTag].Nodup
  tests : ∀ t, ∃ tag rest, rules.testKey t = tag :: rest ∧ tag ∉ [0, 1, rules.andTag, rules.orTag, rules.notTag]

/-- The tag of a node that is no test. -/
def shape (rules : Rules Leaf Test) : NormalizedFilter Test → Option UInt8
  | .alwaysTrue => some 0
  | .alwaysFalse => some 1
  | .test _ => none
  | .and _ => some rules.andTag
  | .or _ => some rules.orTag
  | .not _ => some rules.notTag

theorem Tagged.shape_eq (htags : Tagged rules) (norm : NormalizedFilter Test) : shape rules norm = (rules.structuralKey norm).head?.filter
      fun tag => decide (tag ∈ [0, 1, rules.andTag, rules.orTag, rules.notTag]) := by
  cases norm with
  | test t =>
    obtain ⟨tag, rest, hkey, hnot⟩ := htags.tests t
    rw [structuralKey, hkey, shape, head?_cons, Option.filter_some, decide_eq_false hnot]
    rfl
  | alwaysTrue | alwaysFalse | and _ | or _ | not _ => simp [structuralKey, shape, Option.filter]

/-- Two nodes of one kind. -/
inductive SameNode : NormalizedFilter Test → NormalizedFilter Test → Prop
  | alwaysTrue : SameNode .alwaysTrue .alwaysTrue
  | alwaysFalse : SameNode .alwaysFalse .alwaysFalse
  | test (t u : Test) : SameNode (.test t) (.test u)
  | and (fs gs : List (NormalizedFilter Test)) : SameNode (.and fs) (.and gs)
  | or (fs gs : List (NormalizedFilter Test)) : SameNode (.or fs) (.or gs)
  | not (f g : NormalizedFilter Test) : SameNode (.not f) (.not g)

/-- Equal keys begin with the same tag. -/
theorem Tagged.sameNode (htags : Tagged rules) {f g : NormalizedFilter Test}
    (h : rules.structuralKey f = rules.structuralKey g) : SameNode f g := by
  have hshape : shape rules f = shape rules g := by rw [htags.shape_eq, htags.shape_eq, h]
  have hnd := htags.nodup
  simp only [nodup_cons, mem_cons, not_mem_nil, or_false, not_or] at hnd
  cases f <;> cases g <;> first | constructor | (simp only [shape] at hshape; grind)

theorem child_key_lt (hlen : (rules.childKeys kids).length < 2 ^ 64) (h : child ∈ kids) :
    (rules.structuralKey child).length < 2 ^ 64 := by
  have hwt := rules.weight_le_of_mem h
  rw [length_childKeys] at hlen
  rw [weight] at hwt
  omega

theorem childKeys_inj {fs gs : List (NormalizedFilter Test)} (hlen : (rules.childKeys fs).length < 2 ^ 64)
    (h : rules.childKeys fs = rules.childKeys gs) : fs.map rules.structuralKey = gs.map rules.structuralKey := by
  rw [childKeys_eq] at hlen
  apply flatMap_pushLenPrefixedBytes_inj hlen
  rw [← childKeys_eq, ← childKeys_eq, h]

variable {fits : Leaf → Prop} {good : Test → Prop} {leafHolds : Leaf → Bool} {holds : Test → Bool}

theorem meets_of_key (htags : Tagged rules)
    (htests : ∀ t u, good t → good u → (rules.testKey t).length < 2 ^ 64 → rules.testKey t = rules.testKey u → holds t = holds u)
    (f : NormalizedFilter Test) : ∀ g, f.Each good → g.Each good → (rules.structuralKey f).length < 2 ^ 64 →
      rules.structuralKey f = rules.structuralKey g → f.meets holds = g.meets holds := by
  -- children with the same keys are met alike, one by one
  have hkids : ∀ {fs gs : List (NormalizedFilter Test)}, (rules.childKeys fs).length < 2 ^ 64 →
      rules.childKeys fs = rules.childKeys gs → (∀ f ∈ fs, f.Each good) → (∀ g ∈ gs, g.Each good) →
      (∀ f ∈ fs, ∀ g, f.Each good → g.Each good → (rules.structuralKey f).length < 2 ^ 64 →
        rules.structuralKey f = rules.structuralKey g → f.meets holds = g.meets holds) →
      fs.map (NormalizedFilter.meets holds) = gs.map (NormalizedFilter.meets holds) := by
    intro fs gs hlen hkeys hfs hgs ih
    apply map_eq_of_keys (childKeys_inj hlen hkeys)
    intro f hf g hg hkey
    exact ih f hf g (hfs f hf) (hgs g hg) (child_key_lt hlen hf) hkey
  induction f using NormalizedFilter.inductOn with
  | alwaysTrue | alwaysFalse =>
    intro g hf hg hlen hkey
    cases htags.sameNode hkey
    rfl
  | test t =>
    intro g hf hg hlen hkey
    cases htags.sameNode hkey with
    | test t u =>
      cases hf with
      | test ht =>
        cases hg with
        | test hu => exact htests t u ht hu hlen hkey
  | and fs ih =>
    intro g hf hg hlen hkey
    cases htags.sameNode hkey with
    | and fs gs =>
      cases hf with
      | and hfs =>
        cases hg with
        | and hgs =>
          rw [structuralKey, structuralKey] at hkey
          rw [structuralKey] at hlen
          have hmeets := hkids (lt_of_succ_lt hlen) (List.cons.inj hkey).2 hfs hgs ih
          rw [NormalizedFilter.meets_and, NormalizedFilter.meets_and, ← Function.id_comp (NormalizedFilter.meets holds),
            ← all_map, ← all_map, hmeets]
  | or fs ih =>
    intro g hf hg hlen hkey
    cases htags.sameNode hkey with
    | or fs gs =>
      cases hf with
      | or hfs =>
        cases hg with
        | or hgs =>
          rw [structuralKey, structuralKey] at hkey
          rw [structuralKey] at hlen
          have hmeets := hkids (lt_of_succ_lt hlen) (List.cons.inj hkey).2 hfs hgs ih
          rw [NormalizedFilter.meets_or, NormalizedFilter.meets_or, ← Function.id_comp (NormalizedFilter.meets holds),
            ← any_map, ← any_map, hmeets]
  | not f ih =>
    intro g hf hg hlen hkey
    cases htags.sameNode hkey with
    | not f g =>
      cases hf with
      | not hf =>
        cases hg with
        | not hg =>
          rw [structuralKey, structuralKey] at hkey
          rw [structuralKey, length_cons, length_pushLenPrefixedBytes] at hlen
          have hlens := congrArg List.length hkey
          rw [length_cons, length_cons, length_pushLenPrefixedBytes, length_pushLenPrefixedBytes] at hlens
          have hkid := pushLenPrefixedBytes_inj (by omega) (by omega) (List.cons.inj hkey).2
          rw [NormalizedFilter.meets, NormalizedFilter.meets, ih g hf hg (by omega) hkid]

/-- What the rules promise about one record: conditions and their tests agree, and a conjunction that
is pruned is met as before. -/
structure Sound (rules : Rules Leaf Test) (fits : Leaf → Prop) (good : Test → Prop) (leafHolds : Leaf → Bool)
    (holds : Test → Bool) : Prop where
  leaf : ∀ {condition norm}, fits condition → rules.leaf condition = .ok norm → norm.Each good ∧ norm.meets holds = leafHolds condition
  negated : ∀ {t u}, good t → rules.negated t = some u → good u ∧ (rules.testKey u).length = (rules.testKey t).length ∧ holds u = !holds t
  contradicts : ∀ {filters}, (∀ f ∈ filters, f.Each good) → rules.prune filters = .ok none →
    filters.all (NormalizedFilter.meets holds) = false
  keeps : ∀ {filters kept}, (∀ f ∈ filters, f.Each good) → rules.prune filters = .ok (some kept) →
    kept.Sublist filters ∧ kept.all (NormalizedFilter.meets holds) = filters.all (NormalizedFilter.meets holds)
  tests : ∀ t u, good t → good u → (rules.testKey t).length < 2 ^ 64 → rules.testKey t = rules.testKey u → holds t = holds u

structure StandsFor (rules : Rules Leaf Test) (good : Test → Prop) (leafHolds : Leaf → Bool) (holds : Test → Bool)
    (expr : FilterExpr Leaf) (norm : NormalizedFilter Test) : Prop where
  each : norm.Each good
  length : (rules.structuralKey norm).length ≤ rules.size expr
  meets : norm.meets holds = expr.meets leafHolds

/-- What one child contributes to the node above it. -/
structure Adds (rules : Rules Leaf Test) (good : Test → Prop) (holds : Test → Bool)
    (join : (NormalizedFilter Test → Bool) → List (NormalizedFilter Test) → Bool) (norm : NormalizedFilter Test)
    (added : List (NormalizedFilter Test)) : Prop where
  each : ∀ f ∈ added, f.Each good
  weight : (added.map rules.weight).sum ≤ rules.weight norm
  meets : join (NormalizedFilter.meets holds) added = norm.meets holds

variable {norm : NormalizedFilter Test}

theorem adds_self {join : (NormalizedFilter Test → Bool) → List (NormalizedFilter Test) → Bool}
    (hjoin : ∀ p f, join p [f] = p f) (h : norm.Each good) :
    Adds rules good holds join norm [norm] where
  each := forall_mem_singleton.mpr h
  weight := by rw [map_singleton, sum_singleton]
  meets := hjoin _ _

theorem spreadAnd_none (h : spreadAnd norm = none) : norm.meets holds = false := by
  cases norm with
  | alwaysFalse => rfl
  | alwaysTrue | test _ | and _ | or _ | not _ => cases h

variable {added : List (NormalizedFilter Test)}

theorem spreadAnd_some (h : spreadAnd norm = some added) (heach : norm.Each good) :
    Adds rules good holds (fun p l => l.all p) norm added := by
  have hself : Adds rules good holds (fun p l => l.all p) norm [norm] :=
    adds_self (fun p f => by rw [all_cons, all_nil, Bool.and_true]) heach
  cases norm with
  | alwaysFalse => cases h
  | alwaysTrue =>
    obtain rfl := Option.some.inj h
    exact ⟨nofun, Nat.zero_le _, rfl⟩
  | and grandchildren =>
    obtain rfl := Option.some.inj h
    cases heach with
    | and heach =>
      refine ⟨heach, ?_, (NormalizedFilter.meets_and _ _).symm⟩
      rw [weight, structuralKey, length_cons, length_childKeys]
      omega
  | test _ | or _ | not _ =>
    obtain rfl := Option.some.inj h
    exact hself

theorem spreadOr_none (h : spreadOr norm = none) : norm.meets holds = true := by
  cases norm with
  | alwaysTrue => rfl
  | alwaysFalse | test _ | and _ | or _ | not _ => cases h

theorem spreadOr_some (h : spreadOr norm = some added) (heach : norm.Each good) :
    Adds rules good holds (fun p l => l.any p) norm added := by
  have hself : Adds rules good holds (fun p l => l.any p) norm [norm] :=
    adds_self (fun p f => by rw [any_cons, any_nil, Bool.or_false]) heach
  cases norm with
  | alwaysTrue => cases h
  | alwaysFalse =>
    obtain rfl := Option.some.inj h
    exact ⟨nofun, Nat.zero_le _, rfl⟩
  | or grandchildren =>
    obtain rfl := Option.some.inj h
    cases heach with
    | or heach =>
      refine ⟨heach, ?_, (NormalizedFilter.meets_or _ _).symm⟩
      rw [weight, structuralKey, length_cons, length_childKeys]
      omega
  | test _ | and _ | not _ =>
    obtain rfl := Option.some.inj h
    exact hself

variable {spread : NormalizedFilter Test → Option (List (NormalizedFilter Test))}

/-- A child that decided was among them, or each child added its own. -/
theorem flatten_cases
    {kids : List (FilterExpr Leaf)} {flattened : List (NormalizedFilter Test)} {res : Option (List (NormalizedFilter Test))}
    (h : rules.flatten kids spread flattened = .ok res) :
    (res = none ∧ ∃ child ∈ kids, ∃ norm, rules.normalize child = .ok norm ∧ spread norm = none) ∨
    ∃ added, res = some (flattened ++ added.flatten) ∧ Forall₂
      (fun child own => ∃ norm, rules.normalize child = .ok norm ∧ spread norm = some own) kids added := by
  induction kids generalizing flattened with
  | nil =>
    rw [flatten] at h
    obtain rfl := ok.inj h
    exact .inr ⟨[], by rw [flatten_nil, append_nil], Forall₂.nil⟩
  | cons child kids ih =>
    rw [flatten] at h
    obtain ⟨norm, hnorm, h⟩ := bind_ok h
    cases hspr : spread norm with
    | none =>
      rw [hspr] at h
      obtain rfl := ok.inj h
      exact .inl ⟨rfl, child, mem_cons_self, norm, hnorm, hspr⟩
    | some own =>
      rw [hspr] at h
      rcases ih h with ⟨rfl, other, hoth, hdcd⟩ | ⟨added, rfl, hadded⟩
      · exact .inl ⟨rfl, other, mem_cons_of_mem _ hoth, hdcd⟩
      · refine .inr ⟨own :: added, ?_, Forall₂.cons ⟨norm, hnorm, hspr⟩ hadded⟩
        rw [flatten_cons, append_assoc]

/-- Together the children add what the node has. -/
theorem adds_flatten (join : (NormalizedFilter Test → Bool) → List (NormalizedFilter Test) → Bool)
    (joinExpr : List (FilterExpr Leaf) → Bool) (op : Bool → Bool → Bool) (hnil : ∀ p, join p [] = joinExpr [])
    (hap : ∀ p l l', join p (l ++ l') = op (join p l) (join p l'))
    (hcons : ∀ child kids, joinExpr (child :: kids) = op (child.meets leafHolds) (joinExpr kids))
    (hspr : ∀ {norm own}, spread norm = some own → norm.Each good → Adds rules good holds join norm own)
    {kids : List (FilterExpr Leaf)} {added : List (List (NormalizedFilter Test))}
    (hkids : ∀ child ∈ kids, ∀ norm, rules.normalize child = .ok norm → StandsFor rules good leafHolds holds child norm)
    (h : Forall₂ (fun child own => ∃ norm, rules.normalize child = .ok norm ∧ spread norm = some own)
      kids added) :
    (∀ f ∈ added.flatten, f.Each good) ∧ (added.flatten.map rules.weight).sum ≤ rules.childrenSize kids ∧
      join (NormalizedFilter.meets holds) added.flatten = joinExpr kids := by
  induction h with
  | nil => exact ⟨nofun, Nat.zero_le _, hnil _⟩
  | cons hown _ ih =>
    obtain ⟨norm, hnorm, hown⟩ := hown
    have hstands := hkids _ mem_cons_self norm hnorm
    have hadds := hspr hown hstands.each
    obtain ⟨heach, hwt, hmeets⟩ := ih fun child hkid => hkids child (mem_cons_of_mem _ hkid)
    rw [flatten_cons]
    refine ⟨?_, ?_, ?_⟩
    · exact forall_mem_append.mpr ⟨hadds.each, heach⟩
    · have hlen := hstands.length
      have hown := hadds.weight
      rw [weight] at hown
      rw [map_append, sum_append_nat, childrenSize]
      omega
    · rw [hap, hadds.meets, hmeets, hstands.meets, hcons]

section
variable (rules) (holds) {kids : List (NormalizedFilter Test)} (heach : ∀ f ∈ kids, f.Each good)
include heach

theorem rebuild_and : (rebuild .alwaysTrue .and kids).Each good ∧
    (rules.structuralKey (rebuild .alwaysTrue .and kids)).length ≤ 1 + (kids.map rules.weight).sum ∧
    (rebuild .alwaysTrue .and kids).meets holds = kids.all (NormalizedFilter.meets holds) := by
  match kids with
  | [] => exact ⟨.alwaysTrue, le_refl _, rfl⟩
  | [child] =>
    refine ⟨heach child mem_cons_self, ?_, ?_⟩
    · rw [rebuild, map_singleton, sum_singleton, weight]
      omega
    · rw [rebuild, all_cons, all_nil, Bool.and_true]
  | fst :: snd :: rest =>
    refine ⟨.and heach, ?_, NormalizedFilter.meets_and _ _⟩
    rw [rebuild, structuralKey, length_cons, length_childKeys, add_comm]
    · exact nofun
    · exact nofun

theorem rebuild_or : (rebuild .alwaysFalse .or kids).Each good ∧
    (rules.structuralKey (rebuild .alwaysFalse .or kids)).length ≤ 1 + (kids.map rules.weight).sum ∧
    (rebuild .alwaysFalse .or kids).meets holds = kids.any (NormalizedFilter.meets holds) := by
  match kids with
  | [] => exact ⟨.alwaysFalse, le_refl _, rfl⟩
  | [child] =>
    refine ⟨heach child mem_cons_self, ?_, ?_⟩
    · rw [rebuild, map_singleton, sum_singleton, weight]
      omega
    · rw [rebuild, any_cons, any_nil, Bool.or_false]
  | fst :: snd :: rest =>
    refine ⟨.or heach, ?_, NormalizedFilter.meets_or _ _⟩
    rw [rebuild, structuralKey, length_cons, length_childKeys, add_comm]
    · exact nofun
    · exact nofun

end

section
variable (htags : rules.Tagged) (hsd : rules.Sound fits good leafHolds holds)
include htags hsd

/-- Among short keys, equal ones are met alike. -/
theorem Sound.meets_alike (heach : ∀ f ∈ kids, f.Each good)
    (hsh : (kids.map rules.weight).sum < 2 ^ 64) : ∀ f ∈ kids, ∀ g ∈ kids,
      rules.structuralKey f = rules.structuralKey g → f.meets holds = g.meets holds := by
  intro f hf g hg hkey
  have hwt := rules.weight_le_of_mem hf
  rw [weight] at hwt
  exact meets_of_key htags hsd.tests f g (heach f hf) (heach g hg) (by omega) hkey

variable {filters : List (NormalizedFilter Test)}

theorem Sound.conjunction {norm : NormalizedFilter Test}
    (heach : ∀ f ∈ filters, f.Each good) (hsh : (filters.map rules.weight).sum < 2 ^ 64)
    (h : rules.normalizeNormalizedAnd filters = .ok norm) : norm.Each good ∧
      (rules.structuralKey norm).length ≤ 1 + (filters.map rules.weight).sum ∧
      norm.meets holds = filters.all (NormalizedFilter.meets holds) := by
  rw [normalizeNormalizedAnd] at h
  obtain ⟨pruned, hpruned, h⟩ := bind_ok h
  cases pruned with
  | none =>
    obtain rfl := ok.inj h
    exact ⟨.alwaysFalse, by rw [structuralKey, length_singleton]; omega, (hsd.contradicts heach hpruned).symm⟩
  | some kept =>
    obtain rfl := ok.inj h
    obtain ⟨hsub, hmeets⟩ := hsd.keeps heach hpruned
    have hkept : ∀ f ∈ kept, f.Each good := fun f hf => heach f (hsub.subset hf)
    have hsum : (kept.map rules.weight).sum ≤ (filters.map rules.weight).sum := (hsub.map rules.weight).sum_le_sum fun _ _ => Nat.zero_le _
    have hdedup := sum_sortedDedup_le rules.structuralKey rules.weight kept
    have hsort : ∀ f ∈ rules.childrenSortedDedup kept, f.Each good := fun f hf => hkept f (mem_of_sortedDedup hf)
    obtain ⟨hrebu, hlen, hall⟩ := rebuild_and rules holds hsort
    refine ⟨hrebu, ?_, ?_⟩
    · rw [childrenSortedDedup] at hlen ⊢
      omega
    · rw [hall, childrenSortedDedup, all_sortedDedup (hsd.meets_alike htags hkept (by omega)), hmeets]

theorem Sound.disjunction (heach : ∀ f ∈ filters, f.Each good) (hsh : (filters.map rules.weight).sum < 2 ^ 64) :
    (rebuild .alwaysFalse .or (rules.childrenSortedDedup filters)).Each good ∧
      (rules.structuralKey (rebuild .alwaysFalse .or (rules.childrenSortedDedup filters))).length ≤ 1 + (filters.map rules.weight).sum ∧
      (rebuild .alwaysFalse .or (rules.childrenSortedDedup filters)).meets holds = filters.any (NormalizedFilter.meets holds) := by
  have hdedup := sum_sortedDedup_le rules.structuralKey rules.weight filters
  have hsort : ∀ f ∈ rules.childrenSortedDedup filters, f.Each good := fun f hf => heach f (mem_of_sortedDedup hf)
  obtain ⟨hrebu, hlen, hany⟩ := rebuild_or rules holds hsort
  refine ⟨hrebu, ?_, ?_⟩
  · rw [childrenSortedDedup] at hlen ⊢
    omega
  · rw [hany, childrenSortedDedup, any_sortedDedup (hsd.meets_alike htags heach hsh)]

omit htags in
theorem Sound.negation {norm : NormalizedFilter Test} (heach : norm.Each good) : (rules.negate norm).Each good ∧
      (rules.structuralKey (rules.negate norm)).length ≤ 9 + (rules.structuralKey norm).length ∧
      (rules.negate norm).meets holds = !norm.meets holds := by
  have hnot : (NormalizedFilter.not norm).Each good ∧ (rules.structuralKey (.not norm)).length ≤ 9 + (rules.structuralKey norm).length ∧
      (NormalizedFilter.not norm).meets holds = !norm.meets holds := by
    refine ⟨.not heach, ?_, rfl⟩
    rw [structuralKey, length_cons, length_pushLenPrefixedBytes]
    omega
  cases norm with
  | alwaysTrue => exact ⟨.alwaysFalse, by simp [negate, structuralKey], rfl⟩
  | alwaysFalse => exact ⟨.alwaysTrue, by simp [negate, structuralKey], rfl⟩
  | test t =>
    rw [negate]
    cases hnega : rules.negated t with
    | none => exact hnot
    | some u =>
      cases heach with
      | test ht =>
        obtain ⟨hu, hlen, hhol⟩ := hsd.negated ht hnega
        refine ⟨.test hu, ?_, hhol⟩
        rw [structuralKey, structuralKey, hlen]
        omega
  | not grandchild =>
    cases heach with
    | not heach =>
      refine ⟨heach, ?_, ?_⟩
      · rw [negate, structuralKey, length_cons, length_pushLenPrefixedBytes]
        omega
      · rw [negate, NormalizedFilter.meets, Bool.not_not]
  | and _ | or _ => exact hnot

/-- The normalized filter is met by the records that meet the expression. -/
theorem Sound.standsFor (expr : FilterExpr Leaf) : ∀ norm, expr.Each fits → rules.size expr < 2 ^ 64 →
    rules.normalize expr = .ok norm → StandsFor rules good leafHolds holds expr norm := by
  induction expr using FilterExpr.inductOn with
  | leaf cond =>
    intro norm heach hsize h
    cases heach with
    | leaf hfits =>
      rw [normalize] at h
      obtain ⟨hnorm, hmeets⟩ := hsd.leaf hfits h
      refine ⟨hnorm, ?_, hmeets⟩
      rw [size, h]
  | and kids ih =>
    intro norm heach hsize h
    cases heach with
    | and heach =>
      rw [size] at hsize
      rw [normalize] at h
      split at h
      · cases h
      obtain ⟨res, hres, h⟩ := bind_ok h
      rcases flatten_cases hres with ⟨rfl, child, hkid, decided, hdcd, hspr⟩ | ⟨added, rfl, hadded⟩
      · -- one child is met by nothing
        obtain rfl := ok.inj h
        have hlt := rules.size_le_of_mem hkid
        have hstands := ih child hkid decided (heach child hkid) (by omega) hdcd
        refine ⟨.alwaysFalse, ?_, ?_⟩
        · rw [structuralKey, size, length_singleton]
          omega
        · rw [FilterExpr.meets_and]
          refine (all_eq_false.mpr ⟨child, hkid, ?_⟩).symm
          rw [← hstands.meets, spreadAnd_none hspr]
          exact nofun
      · rw [nil_append] at h
        have hkids : ∀ child ∈ kids, ∀ norm, rules.normalize child = .ok norm → StandsFor rules good leafHolds holds child norm := by
          intro child hkid norm hnorm
          have hlt := rules.size_le_of_mem hkid
          exact ih child hkid norm (heach child hkid) (by omega) hnorm
        obtain ⟨hadded, hwt, hmeets⟩ := adds_flatten (fun p l => l.all p) (fun l => l.all (FilterExpr.meets leafHolds))
          and (fun _ => rfl) (fun _ _ _ => all_append) (fun _ _ => all_cons) spreadAnd_some hkids hadded
        obtain ⟨hnorm, hlen, hall⟩ := hsd.conjunction htags hadded (by omega) h
        refine ⟨hnorm, ?_, ?_⟩
        · rw [size]
          omega
        · rw [hall, hmeets, FilterExpr.meets_and]
  | or kids ih =>
    intro norm heach hsize h
    cases heach with
    | or heach =>
      rw [size] at hsize
      rw [normalize] at h
      split at h
      · cases h
      obtain ⟨res, hres, h⟩ := bind_ok h
      rcases flatten_cases hres with ⟨rfl, child, hkid, decided, hdcd, hspr⟩ | ⟨added, rfl, hadded⟩
      · -- one child is met by everything
        obtain rfl := ok.inj h
        have hlt := rules.size_le_of_mem hkid
        have hstands := ih child hkid decided (heach child hkid) (by omega) hdcd
        refine ⟨.alwaysTrue, ?_, ?_⟩
        · rw [structuralKey, size, length_singleton]
          omega
        · rw [FilterExpr.meets_or]
          refine (any_eq_true.mpr ⟨child, hkid, ?_⟩).symm
          rw [← hstands.meets, spreadOr_none hspr]
      · obtain rfl := ok.inj h
        rw [nil_append]
        have hkids : ∀ child ∈ kids, ∀ norm, rules.normalize child = .ok norm → StandsFor rules good leafHolds holds child norm := by
          intro child hkid norm hnorm
          have hlt := rules.size_le_of_mem hkid
          exact ih child hkid norm (heach child hkid) (by omega) hnorm
        obtain ⟨hadded, hwt, hmeets⟩ := adds_flatten (fun p l => l.any p) (fun l => l.any (FilterExpr.meets leafHolds))
          or (fun _ => rfl) (fun _ _ _ => any_append) (fun _ _ => any_cons) spreadOr_some hkids hadded
        obtain ⟨hnorm, hlen, hany⟩ := hsd.disjunction htags hadded (by omega)
        refine ⟨hnorm, ?_, ?_⟩
        · rw [size]
          omega
        · rw [hany, hmeets, FilterExpr.meets_or]
  | not child ih =>
    intro norm heach hsize h
    cases heach with
    | not heach =>
      rw [size] at hsize
      rw [normalize] at h
      obtain ⟨inner, hinner, h⟩ := bind_ok h
      obtain rfl := ok.inj h
      have hstands := ih inner heach (by omega) hinner
      obtain ⟨hnega, hlen, hmeets⟩ := hsd.negation hstands.each
      refine ⟨hnega, ?_, ?_⟩
      · have hkid := hstands.length
        rw [size]
        omega
      · rw [hmeets, hstands.meets, FilterExpr.meets]

end

end Rules
end OverGraph.FilterTrees
