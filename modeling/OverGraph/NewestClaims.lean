import OverGraph.LayeredWrites

/-!
# Lookups that trust the newest claim

Every layer of a stack has an index of its own, and a lookup takes the value named by the newest
layer that names one, unless it is deleted in a layer above. Several values may carry one key, of
which an index names one. The lookup is right at a key if what it returns is visible, and if it
returns nothing only where nothing visible carries the key. It stays right when the value that an
index named is taken away only if a layer below names another one that is still visible.
-/

namespace OverGraph.NewestClaims
open Option hiding or_assoc
open LayeredWrites List

variable {ι κ ν : Type*} (ident : ν → ι)

/-- The value that the index of a layer names. -/
def claimed (layer : IndexedLayer ι κ ν) (k : κ) : Option ν := (layer.claim k).bind fun i => (layer.opinion i).join

def deletes (layer : IndexedLayer ι κ ν) (i : ι) : Bool := (layer.opinion i).any Option.isNone

/-- The newest value named under a key, unless it is deleted above. -/
def answer : List (IndexedLayer ι κ ν) → κ → Option ν
  | [], _ => none
  | layer :: older, k => (claimed layer k).or ((answer older k).filter fun v => !deletes layer (ident v))

def view (lays : List (IndexedLayer ι κ ν)) : ι → Option ν := visible (lays.map (·.opinion))

/-- An index names values of its layer that carry the key, and values are stored under their own
identifiers. -/
structure Names (carries : κ → ν → Prop) (layer : IndexedLayer ι κ ν) : Prop where
  named : ∀ k i, layer.claim k = some i → ∃ v, layer.opinion i = some (some v) ∧ carries k v
  ids : ∀ i v, layer.opinion i = some (some v) → ident v = i

/-- What the lookup may return where the view is this. -/
def RightAnswer (carries : κ → ν → Prop) (seen : ι → Option ν) (k : κ) : Option ν → Prop
  | some v => seen (ident v) = some v
  | none => ∀ i v, seen i = some v → ¬carries k v

def Right (carries : κ → ν → Prop) (lays : List (IndexedLayer ι κ ν)) (k : κ) : Prop :=
  RightAnswer ident carries (view lays) k (answer ident lays k)

variable {ident} {carries : κ → ν → Prop}

section
variable {layer : IndexedLayer ι κ ν} {older : List (IndexedLayer ι κ ν)} {k : κ} {i : ι}

theorem deletes_eq_true_iff : deletes layer i = true ↔ layer.opinion i = some none := by
  rw [deletes]
  rcases layer.opinion i with - | (- | v) <;> simp

theorem view_cons (layer : IndexedLayer ι κ ν) (older : List (IndexedLayer ι κ ν)) (i : ι) :
    view (layer :: older) i = ((layer.opinion i).or (firstOpinion (older.map (·.opinion)) i)).join := by
  rw [view, visible, map_cons, firstOpinion_cons]

variable {v : ν}

theorem view_of_held (h : layer.opinion i = some (some v)) : view (layer :: older) i = some v := by
  rw [view_cons, h]
  rfl

theorem Names.claimed_eq (h : Names ident carries layer) (hv : claimed layer k = some v) :
    layer.claim k = some (ident v) ∧ layer.opinion (ident v) = some (some v) ∧ carries k v := by
  obtain ⟨i, hclaim, hjoin⟩ := bind_eq_some_iff.mp hv
  obtain ⟨w, hw, hcar⟩ := h.named k i hclaim
  rw [hw, join_some, some.injEq] at hjoin
  subst hjoin
  obtain rfl := h.ids i w hw
  exact ⟨hclaim, hw, hcar⟩

theorem Names.claimed_of_claim (h : Names ident carries layer) (hclaim : layer.claim k = some i) :
    ∃ v, claimed layer k = some v ∧ ident v = i ∧ layer.opinion i = some (some v) ∧ carries k v := by
  obtain ⟨v, hv, hcar⟩ := h.named k i hclaim
  refine ⟨v, ?_, h.ids i v hv, hv, hcar⟩
  rw [claimed, hclaim, bind_some, hv, join_some]

theorem claimed_of_no_claim (hclaim : layer.claim k = none) : claimed layer k = none := by rw [claimed, hclaim, bind_none]

theorem answer_of_claimed (h : claimed layer k = some v) : answer ident (layer :: older) k = some v := by rw [answer, h, some_or]

theorem answer_of_unclaimed (h : claimed layer k = none) :
    answer ident (layer :: older) k = (answer ident older k).filter fun v => !deletes layer (ident v) := by
  rw [answer, h, none_or]

theorem answer_carries {lays : List (IndexedLayer ι κ ν)} (hnames : ∀ l ∈ lays, Names ident carries l)
    (h : answer ident lays k = some v) : carries k v := by
  induction lays with
  | nil => cases h
  | cons layer lays ih =>
    rw [answer, or_eq_some_iff] at h
    rcases h with h | ⟨-, h⟩
    · exact ((hnames layer mem_cons_self).claimed_eq h).2.2
    · exact ih (fun l hl => hnames l (mem_cons_of_mem _ hl)) (filter_eq_some_iff.mp h).1

theorem right_of_claim (hnames : Names ident carries layer) (hclaim : layer.claim k = some i) : Right ident carries (layer :: older) k := by
  obtain ⟨v, hv, rfl, hop, -⟩ := hnames.claimed_of_claim hclaim
  rw [Right, answer_of_claimed hv]
  exact view_of_held hop

theorem right_of_empty_iff (hop : ∀ i, layer.opinion i = none) (hclaim : layer.claim k = none) :
    Right ident carries (layer :: older) k ↔ Right ident carries older k := by
  have hview : view (layer :: older) = view older := by
    funext i
    rw [view_cons, hop, none_or]
    rfl
  have hdele : ∀ i, deletes layer i = false := fun i => by rw [deletes, hop]; rfl
  have hall : (answer ident older k).filter (fun v => !deletes layer (ident v)) = answer ident older k := by
    cases answer ident older k <;> simp [hdele]
  rw [Right, Right, hview, answer_of_unclaimed (claimed_of_no_claim hclaim), hall]

variable [DecidableEq ι]

/-- The newest layer after a write of one identifier. -/
structure Written (carries : κ → ν → Prop) (layer layer' : IndexedLayer ι κ ν) (id : ι) (val : Option ν) : Prop where
  opinion : ∀ i, layer'.opinion i = if i = id then some val else layer.opinion i
  keeps : ∀ k i, layer.claim k = some i → i ≠ id → ∃ j, layer'.claim k = some j
  takes : ∀ k v, val = some v → carries k v → ∃ i, layer'.claim k = some i
  drops : ∀ k, (∀ i, layer.claim k = some i → i = id) → (∀ v, val = some v → ¬carries k v) → layer'.claim k = none

/-- What the layers below name under a key, were the identifier gone. -/
def successor (ident : ν → ι) (layer : IndexedLayer ι κ ν) (older : List (IndexedLayer ι κ ν)) (id : ι) (k : κ) : Option ν :=
  (answer ident older k).filter fun w => decide (ident w ≠ id) && !deletes layer (ident w)

/-- What a write takes off a key, the layers below can replace: if the newest layer names nothing
else under the key, then they do not name an older version of the same identifier that comes back
into force, and if the identifier carried the key, they name a visible value or there is none. -/
structure HandsOver (ident : ν → ι) (carries : κ → ν → Prop) (layer : IndexedLayer ι κ ν)
    (older : List (IndexedLayer ι κ ν)) (id : ι) (val : Option ν) (k : κ) : Prop where
  revives : (∃ w, answer ident older k = some w ∧ ident w = id) → val = none
  replaced : (∃ v, view (layer :: older) id = some v ∧ carries k v) →
    RightAnswer ident carries (fun i => if i = id then none else view (layer :: older) i) k
      (successor ident layer older id k)

/-- The write leaves the key to the layers below. -/
def LeavesToOlder (carries : κ → ν → Prop) (layer : IndexedLayer ι κ ν) (id : ι) (val : Option ν) (k : κ) : Prop :=
  (∀ i, layer.claim k = some i → i = id) ∧ ∀ v, val = some v → ¬carries k v

section
variable {layer' : IndexedLayer ι κ ν} {id : ι} {val : Option ν}

section
variable (h : Written carries layer layer' id val)
include h

theorem Written.view_eq (i : ι) :
    view (layer' :: older) i = if i = id then val else view (layer :: older) i := by
  rw [view_cons, h.opinion, view_cons]
  split
  · rfl
  · rfl

theorem Written.deletes_eq (i : ι) :
    deletes layer' i = if i = id then val.isNone else deletes layer i := by
  rw [deletes, h.opinion, deletes]
  split
  · rfl
  · rfl

/-- Where the write leaves the key to the layers below, the lookup answers with the successor. -/
theorem Written.answer_eq (hlvs : LeavesToOlder carries layer id val k)
    (hrevi : (∃ w, answer ident older k = some w ∧ ident w = id) → val = none) :
    answer ident (layer' :: older) k = successor ident layer older id k := by
  rw [answer_of_unclaimed (claimed_of_no_claim (h.drops k hlvs.1 hlvs.2)), successor]
  cases hw : answer ident older k with
  | none => rfl
  | some w =>
    rw [filter_some, filter_some, h.deletes_eq]
    by_cases hid : ident w = id
    · rw [if_pos hid, hrevi ⟨w, hw, hid⟩]
      simp [hid]
    · rw [if_neg hid]
      simp [hid]

end

/-- A key that the identifier did not carry has the same answer before and after. -/
theorem successor_of_not_carried (hnames : Names ident carries layer) (hwh : ∀ l ∈ older, Names ident carries l)
    (hclaims : ∀ i, layer.claim k = some i → i = id)
    (hnot : ¬∃ v, view (layer :: older) id = some v ∧ carries k v) (hrt : Right ident carries (layer :: older) k) :
    RightAnswer ident carries (fun i => if i = id then none else view (layer :: older) i) k
      (successor ident layer older id k) := by
  have hclaim : layer.claim k = none := by
    cases hclaim : layer.claim k with
    | none => rfl
    | some i =>
      obtain ⟨v, -, -, hop, hcar⟩ := hnames.claimed_of_claim hclaim
      obtain rfl := hclaims i hclaim
      exact absurd ⟨v, view_of_held hop, hcar⟩ hnot
  rw [Right, answer_of_unclaimed (claimed_of_no_claim hclaim)] at hrt
  rw [successor]
  have hothers : ∀ {i v}, (if i = id then none else view (layer :: older) i) = some v → view (layer :: older) i = some v := by
    intro i v hv
    split at hv
    · cases hv
    · exact hv
  cases hw : answer ident older k with
  | none =>
    rw [hw] at hrt
    intro i v hv
    exact hrt i v (hothers hv)
  | some w =>
    rw [hw, filter_some] at hrt
    rw [filter_some]
    cases hdead : deletes layer (ident w) with
    | true =>
      rw [hdead] at hrt
      simp only [Bool.not_true, Bool.and_false]
      intro i v hv
      exact hrt i v (hothers hv)
    | false =>
      rw [hdead] at hrt
      have hvis : view (layer :: older) (ident w) = some w := hrt
      have hid : ident w ≠ id := by
        intro hid
        exact hnot ⟨w, hid ▸ hvis, answer_carries hwh hw⟩
      simp only [Bool.not_false, Bool.and_true, hid, ne_eq, not_false_eq_true, decide_true, if_true]
      rw [RightAnswer, if_neg hid]
      exact hvis

/-- The lookup is right after the write exactly if the layers below can replace what it takes away. -/
theorem Written.right_iff (h : Written carries layer layer' id val) (hnames : Names ident carries layer)
    (hnames' : Names ident carries layer') (hwh : ∀ l ∈ older, Names ident carries l)
    (hrt : Right ident carries (layer :: older) k) : Right ident carries (layer' :: older) k ↔
      (LeavesToOlder carries layer id val k → HandsOver ident carries layer older id val k) := by
  by_cases hlvs : LeavesToOlder carries layer id val k
  · have hseen : ∀ i v, (if i = id then none else view (layer :: older) i) = some v → view (layer' :: older) i = some v := by
      intro i v hv
      rw [h.view_eq]
      split at hv
      · cases hv
      · rename_i hid
        rw [if_neg hid]
        exact hv
    have hseen' : ∀ i v, view (layer' :: older) i = some v → carries k v → (if i = id then none else view (layer :: older) i) = some v := by
      intro i v hv hcar
      rw [h.view_eq] at hv
      split at hv
      · exact absurd hcar (hlvs.2 v hv)
      · rename_i hid
        rw [if_neg hid]
        exact hv
    constructor
    · intro hrt' _
      have hrevi : (∃ w, answer ident older k = some w ∧ ident w = id) → val = none := by
        rintro ⟨w, hw, rfl⟩
        by_contra hval
        obtain ⟨v, rfl⟩ := ne_none_iff_exists'.mp hval
        have hanswer : answer ident (layer' :: older) k = some w := by
          rw [answer_of_unclaimed (claimed_of_no_claim (h.drops k hlvs.1 hlvs.2)), hw, filter_some, h.deletes_eq, if_pos rfl]
          rfl
        rw [Right, hanswer, RightAnswer, h.view_eq, if_pos rfl] at hrt'
        exact hlvs.2 w hrt' (answer_carries hwh hw)
      refine ⟨hrevi, fun _ => ?_⟩
      rw [Right, h.answer_eq hlvs hrevi] at hrt'
      cases hsucc : successor ident layer older id k with
      | none =>
        rw [hsucc] at hrt'
        intro i v hv
        exact hrt' i v (hseen i v hv)
      | some w =>
        rw [hsucc] at hrt'
        obtain ⟨hw, hpass⟩ := filter_eq_some_iff.mp hsucc
        exact hseen' _ _ hrt' (answer_carries hwh hw)
    · intro hcond
      obtain ⟨hrevi, hrepl⟩ := hcond hlvs
      have hanswer : RightAnswer ident carries (fun i => if i = id then none else view (layer :: older) i) k
          (successor ident layer older id k) := by
        by_cases hcarr : ∃ v, view (layer :: older) id = some v ∧ carries k v
        · exact hrepl hcarr
        · exact successor_of_not_carried hnames hwh hlvs.1 hcarr hrt
      rw [Right, h.answer_eq hlvs hrevi]
      cases hsucc : successor ident layer older id k with
      | none =>
        rw [hsucc] at hanswer
        intro i v hv hcar
        exact hanswer i v (hseen' i v hv hcar) hcar
      | some w =>
        rw [hsucc] at hanswer
        exact hseen _ _ hanswer
  · have hclaim : ∃ i, layer'.claim k = some i := by
      rw [LeavesToOlder, not_and_or] at hlvs
      push Not at hlvs
      rcases hlvs with ⟨i, hi, hid⟩ | ⟨v, hv, hcar⟩
      · exact h.keeps k i hi hid
      · exact h.takes k v hv hcar
    obtain ⟨i, hi⟩ := hclaim
    exact iff_of_true (right_of_claim hnames' hi) fun habsurd => absurd habsurd hlvs

end

end

section
variable {newer older : List (IndexedLayer ι κ ν)} {layer layer' : IndexedLayer ι κ ν} {k : κ}

/-- Below layers that name nothing under the key the answer is what they let through. -/
theorem answer_append_of_silent (hsil : ∀ l ∈ newer, claimed l k = none) (rest : List (IndexedLayer ι κ ν)) :
    answer ident (newer ++ rest) k = (answer ident rest k).filter fun v => !newer.any (deletes · (ident v)) := by
  induction newer with
  | nil =>
    rw [nil_append]
    cases answer ident rest k with
    | none | some v => rfl
  | cons l newer ih =>
    rw [cons_append, answer_of_unclaimed (hsil l mem_cons_self), ih fun l hl => hsil l (mem_cons_of_mem _ hl)]
    cases answer ident rest k with
    | none => rfl
    | some v =>
      rw [filter_some, filter_some, any_cons]
      cases newer.any (deletes · (ident v)) <;> cases hdead : deletes l (ident v) <;> simp [hdead]

/-- Below layers that name something under the key nothing counts. -/
theorem answer_append_of_claimed (hclm : ¬∀ l ∈ newer, claimed l k = none) (rest rest' : List (IndexedLayer ι κ ν)) :
    answer ident (newer ++ rest) k = answer ident (newer ++ rest') k := by
  induction newer with
  | nil => exact absurd (fun l hl => absurd hl not_mem_nil) hclm
  | cons l newer ih =>
    rw [cons_append, cons_append, answer, answer]
    cases hl : claimed l k with
    | some v => rfl
    | none =>
      rw [ih]
      intro hsil
      apply hclm
      intro l' hl'
      rcases mem_cons.mp hl' with rfl | hl'
      · exact hl
      · exact hsil l' hl'

/-- Where no newer layer names a value, the one that the new index names is visible, or deleted above
with no visible value left under the key. -/
def LeadsOn (ident : ν → ι) (carries : κ → ν → Prop) (newer : List (IndexedLayer ι κ ν)) (layer' : IndexedLayer ι κ ν)
    (seen : ι → Option ν) (k : κ) : Prop :=
  (∀ l ∈ newer, claimed l k = none) → ∀ w, claimed layer' k = some w →
    RightAnswer ident carries seen k (if newer.any (deletes · (ident w)) then none else some w)

/-- A layer whose index is built anew and names a value wherever the layer has one. -/
theorem right_reindexed_iff (hop : layer'.opinion = layer.opinion) (hnames : Names ident carries layer)
    (hcomp : ∀ i v, layer'.opinion i = some (some v) → carries k v → claimed layer' k ≠ none)
    (hrt : Right ident carries (newer ++ layer :: older) k) : Right ident carries (newer ++ layer' :: older) k ↔
      LeadsOn ident carries newer layer' (view (newer ++ layer :: older)) k := by
  have hview : view (newer ++ layer' :: older) = view (newer ++ layer :: older) := by
    rw [view, view, map_append, map_append, map_cons, map_cons, hop]
  rw [Right, hview]
  by_cases hsil : ∀ l ∈ newer, claimed l k = none
  · cases hclm : claimed layer' k with
    | none =>
      have huncl : claimed layer k = none := by
        cases hv : claimed layer k with
        | none => rfl
        | some v =>
          obtain ⟨-, hheld, hcar⟩ := hnames.claimed_eq hv
          exact absurd hclm (hcomp (ident v) v (hop ▸ hheld) hcar)
      have hdele : deletes layer' = deletes layer := by
        funext i
        rw [deletes, deletes, hop]
      refine iff_of_true ?_ fun _ w hw => by rw [hclm] at hw; cases hw
      rw [Right, answer_append_of_silent hsil, answer_of_unclaimed huncl] at hrt
      rw [answer_append_of_silent hsil, answer_of_unclaimed hclm, hdele]
      exact hrt
    | some w =>
      rw [answer_append_of_silent hsil, answer_of_claimed hclm, filter_some, LeadsOn, hclm]
      simp only [some.injEq, forall_eq']
      rw [forall_prop_of_true hsil]
      cases newer.any (deletes · (ident w)) <;> rfl
  · rw [answer_append_of_claimed hsil (layer' :: older) (layer :: older)]
    exact iff_of_true hrt fun habsurd => absurd habsurd hsil

end

/-- A loop through the layers that stops at the first value named under the key and drops it if it is
deleted above computes the answer. -/
theorem findSome?_walk {σ : Type*} {layerOf : σ → IndexedLayer ι κ ν} {dead : ℕ → ι → Bool} {k : κ}
    {rest : List (IndexedLayer ι κ ν)} {found : Option (Option ν)} (xs : List σ) (above : List (IndexedLayer ι κ ν)) (n : ℕ)
    (hdead : ∀ j i, j < xs.length → dead (n + j) i = (above ++ (xs.take j).map layerOf).any (deletes · i))
    (hrest : found.join = (answer ident rest k).filter fun v => !(above ++ xs.map layerOf).any (deletes · (ident v))) :
    (((xs.zipIdx n).findSome? fun x => (claimed (layerOf x.1) k).map fun v =>
        if dead x.2 (ident v) then none else some v).or found).join =
      (answer ident (xs.map layerOf ++ rest) k).filter fun v => !above.any (deletes · (ident v)) := by
  induction xs generalizing above n with
  | nil => simpa using hrest
  | cons x xs ih =>
    rw [zipIdx_cons, findSome?_cons, map_cons, cons_append]
    cases hclm : claimed (layerOf x) k with
    | some v =>
      have hhere := hdead 0 (ident v) (Nat.zero_lt_succ _)
      rw [Nat.add_zero, take_zero, map_nil, append_nil] at hhere
      rw [map_some, some_or, join_some, answer_of_claimed hclm, filter_some, hhere]
      cases above.any (deletes · (ident v)) <;> rfl
    | none =>
      rw [map_none, answer_of_unclaimed hclm]
      rw [ih (above ++ [layerOf x]) (n + 1)]
      · rw [Option.filter_filter]
        congr 1
        funext v
        rw [any_append, any_cons, any_nil, Bool.or_false, Bool.not_or, Bool.and_comm]
      · intro j i hj
        have hnext := hdead (j + 1) i (Nat.succ_lt_succ hj)
        rw [take_succ_cons, map_cons] at hnext
        rw [Nat.add_assoc, Nat.add_comm 1 j, hnext, append_assoc, singleton_append]
      · rw [hrest, map_cons, append_assoc, singleton_append]

def knows (layer : IndexedLayer ι κ ν) (i : ι) : Bool := (layer.opinion i).isSome

/-- A scan of all values of the layers that drops those that a newer layer knows finds the visible values. -/
theorem exists_walk {σ : Type*} {layerOf : σ → IndexedLayer ι κ ν} {shadowed : ℕ → Bool} {i : ι} {wanted : ν → Prop}
    {rest : List (IndexedLayer ι κ ν)} {found : Prop} (xs : List σ) (above : List (IndexedLayer ι κ ν)) (n : ℕ)
    (hshad : ∀ j, j < xs.length → shadowed (n + j) = (above ++ (xs.take j).map layerOf).any (knows · i))
    (hrest : found ↔ (above ++ xs.map layerOf).any (knows · i) = false ∧ ∃ v, view rest i = some v ∧ wanted v) :
    ((∃ x ∈ xs.zipIdx n, (∃ v, (layerOf x.1).opinion i = some (some v) ∧ wanted v) ∧ shadowed x.2 = false) ∨ found) ↔
      above.any (knows · i) = false ∧ ∃ v, view (xs.map layerOf ++ rest) i = some v ∧ wanted v := by
  induction xs generalizing above n with
  | nil => simpa using hrest
  | cons x xs ih =>
    have hhere := hshad 0 (Nat.zero_lt_succ _)
    rw [Nat.add_zero, take_zero, map_nil, append_nil] at hhere
    have hlat := ih (above ++ [layerOf x]) (n + 1) (by
      intro j hj
      have hnext := hshad (j + 1) (Nat.succ_lt_succ hj)
      rw [take_succ_cons, map_cons] at hnext
      rw [Nat.add_assoc, Nat.add_comm 1 j, hnext, append_assoc, singleton_append])
      (by rw [hrest, map_cons, append_assoc, singleton_append])
    rw [any_append, any_cons, any_nil, Bool.or_false, Bool.or_eq_false_iff] at hlat
    rw [zipIdx_cons, exists_mem_cons_iff, or_assoc, hlat, map_cons, cons_append, view_cons, hhere]
    cases hop : (layerOf x).opinion i with
    | none => simp [knows, hop, view, visible]
    | some held => cases held <;> simp [knows, hop, and_comm]

end OverGraph.NewestClaims
