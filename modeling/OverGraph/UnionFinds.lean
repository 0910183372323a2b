import Mathlib.Data.Finset.Card
import Mathlib.Data.List.AList
import Mathlib.Data.Nat.Find

/-!
# Union-find

A forest is a function to parents in which every element leads to a root. Pointing an element at its root leaves all roots as they
are, and pointing one root at another joins their classes. A table of parents with ranks is kept such a forest by compressing the
way to the root and by joining the root of lower rank below the other. After any unions two elements have one root exactly if the
unions connect them.
-/

namespace OverGraph.UnionFinds

open List Function

variable {V : Type} [DecidableEq V]

/-- The element leads to the root. -/
def Root (f : V → V) (x r : V) : Prop := (∃ k, f^[k] x = r) ∧ f r = r

def Forest (f : V → V) : Prop := ∀ x, ∃ r, Root f x r

/-- Two elements have one root. -/
def SameClass (f : V → V) (x y : V) : Prop := ∃ r, Root f x r ∧ Root f y r

section
variable {f : V → V} {x y r s : V}

omit [DecidableEq V] in
theorem root_self (h : f r = r) : Root f r r := ⟨⟨0, rfl⟩, h⟩

omit [DecidableEq V] in
theorem Root.step (h : Root f (f x) r) : Root f x r := by
  obtain ⟨⟨k, hk⟩, hr⟩ := h
  exact ⟨⟨k + 1, hk⟩, hr⟩

omit [DecidableEq V] in
theorem iterate_stay (h : f r = r) (k : ℕ) : f^[k] r = r := iterate_fixed h k

omit [DecidableEq V] in
theorem Root.unique (h : Root f x r) (h' : Root f x s) : r = s := by
  obtain ⟨⟨k, rfl⟩, hr⟩ := h
  obtain ⟨⟨j, rfl⟩, hs⟩ := h'
  obtain hle | hle := Nat.le_total k j
  · obtain ⟨d, rfl⟩ := Nat.exists_eq_add_of_le hle
    rw [Nat.add_comm, iterate_add_apply, iterate_stay hr]
  · obtain ⟨d, rfl⟩ := Nat.exists_eq_add_of_le hle
    rw [Nat.add_comm, iterate_add_apply, iterate_stay hs]

omit [DecidableEq V] in
theorem Root.eq_of_fixed (h : Root f x r) (hx : f x = x) : r = x := h.unique (root_self hx)

omit [DecidableEq V] in
theorem Root.parent (h : Root f x r) : Root f (f x) r := by
  obtain ⟨⟨k, hk⟩, hr⟩ := h
  refine ⟨⟨k, ?_⟩, hr⟩
  rw [← iterate_succ_apply, iterate_succ_apply', hk, hr]

omit [DecidableEq V] in
theorem Root.induct {motive : V → Prop} (h : Root f x r) (hroot : motive r) (hstep : ∀ y, f y ≠ y → Root f (f y) r → motive (f y) → motive y) :
    motive x := by
  obtain ⟨⟨k, hk⟩, hr⟩ := h
  induction k generalizing x with
  | zero => exact (show x = r from hk) ▸ hroot
  | succ k ih =>
    by_cases hx : f x = x
    · have hsame : x = r := by rwa [iterate_succ_apply, hx, iterate_stay hx] at hk
      exact hsame ▸ hroot
    · exact hstep x hx ⟨⟨k, hk⟩, hr⟩ (ih hk)

theorem root_compress (hf : Forest f) (hx : Root f x r) : Root (update f x r) y s ↔ Root f y s := by
  have hroot : ∀ {t}, f t = t → update f x r t = t := by
    intro t ht
    by_cases htx : t = x
    · rw [htx, update_self, ← htx]
      exact (htx ▸ hx).eq_of_fixed ht
    · rw [update_of_ne htx, ht]
  have hkeep : ∀ y s, Root f y s → Root (update f x r) y s := by
    intro y s hy
    apply @Root.induct _ f y s (fun z => Root (update f x r) z s) hy (root_self (hroot hy.2))
    intro z hz hway hnext
    apply Root.step
    by_cases hzx : z = x
    · rw [hzx, update_self]
      have hsame : s = r := hway.unique (hzx ▸ hx.parent)
      rw [← hsame]
      apply root_self
      rw [hsame]
      exact hroot (hsame ▸ hy.2)
    · rwa [update_of_ne hzx]
  constructor
  · intro hy
    obtain ⟨t, ht⟩ := hf y
    rwa [hy.unique (hkeep y t ht)]
  · exact hkeep y s

theorem forest_compress (hf : Forest f) (hx : Root f x r) : Forest (update f x r) := by
  intro y
  obtain ⟨s, hs⟩ := hf y
  exact ⟨s, (root_compress hf hx).mpr hs⟩

/-- Pointing one root at another moves its class below the other. -/
theorem root_join {a b : V} (ha : f a = a) (hb : f b = b) (hne : a ≠ b) (hy : Root f y s) :
    Root (update f a b) y (if s = a then b else s) := by
  have hbstay : update f a b b = b := by rw [update_of_ne hne.symm, hb]
  apply @Root.induct _ f y s (fun z => Root (update f a b) z (if s = a then b else s)) hy
  · split
    · rename_i hsame
      apply Root.step
      rw [hsame, update_self]
      exact root_self hbstay
    · rename_i hoth
      exact root_self (by rw [update_of_ne hoth, hy.2])
  · intro z hz _ hnext
    apply Root.step
    rwa [update_of_ne fun hza => hz (by rw [hza, ha])]

theorem forest_join {a b : V} (hf : Forest f) (ha : f a = a) (hb : f b = b) (hne : a ≠ b) : Forest (update f a b) := by
  intro y
  obtain ⟨s, hs⟩ := hf y
  exact ⟨_, root_join ha hb hne hs⟩

omit [DecidableEq V] in
theorem sameClass_congr {f g : V → V} (h : ∀ y s, Root f y s ↔ Root g y s) : SameClass f = SameClass g := by
  funext x y
  apply propext
  exact exists_congr fun r => and_congr (h x r) (h y r)

omit [DecidableEq V] in
theorem sameClass_equivalence (hf : Forest f) : Equivalence (SameClass f) where
  refl x := by
    obtain ⟨r, hr⟩ := hf x
    exact ⟨r, hr, hr⟩
  symm := fun ⟨r, hx, hy⟩ => ⟨r, hy, hx⟩
  trans := by
    rintro x y z ⟨r, hx, hy⟩ ⟨s, hy', hz⟩
    obtain rfl := hy.unique hy'
    exact ⟨r, hx, hz⟩

theorem sameClass_join {a b p q : V} (hf : Forest f) (hp : Root f p a) (hq : Root f q b) (hne : a ≠ b) :
    SameClass (update f a b) x y ↔ Relation.EqvGen (fun u v => SameClass f u v ∨ u = p ∧ v = q) x y := by
  have hjoin : ∀ {z s}, Root f z s → Root (update f a b) z (if s = a then b else s) := fun hz => root_join hp.2 hq.2 hne hz
  have hf' := forest_join hf hp.2 hq.2 hne
  constructor
  · rintro ⟨r, hx, hy⟩
    obtain ⟨s, hs⟩ := hf x
    obtain ⟨t, ht⟩ := hf y
    have hxr := hx.unique (hjoin hs)
    have hyr := hy.unique (hjoin ht)
    have hpq : Relation.EqvGen (fun u v => SameClass f u v ∨ u = p ∧ v = q) p q := .rel _ _ (Or.inr ⟨rfl, rfl⟩)
    have hold : ∀ {u v w}, Root f u w → Root f v w → Relation.EqvGen (fun u v => SameClass f u v ∨ u = p ∧ v = q) u v :=
      fun hu hv => .rel _ _ (Or.inl ⟨_, hu, hv⟩)
    by_cases hsa : s = a
    · by_cases hta : t = a
      · exact hold hs (hta.trans hsa.symm ▸ ht)
      · rw [if_pos hsa] at hxr
        rw [if_neg hta] at hyr
        have htb : t = b := hyr.symm.trans hxr
        exact (hold (hsa ▸ hs) hp).trans _ _ _ (hpq.trans _ _ _ (hold hq (htb ▸ ht)))
    · by_cases hta : t = a
      · rw [if_neg hsa] at hxr
        rw [if_pos hta] at hyr
        have hsb : s = b := hxr.symm.trans hyr
        exact (hold (hsb ▸ hs) hq).trans _ _ _ ((hpq.symm _ _).trans _ _ _ (hold hp (hta ▸ ht)))
      · rw [if_neg hsa] at hxr
        rw [if_neg hta] at hyr
        exact hold hs (hyr.symm.trans hxr ▸ ht)
  · intro hgen
    apply (Equivalence.eqvGen_iff (sameClass_equivalence hf')).mp
    apply hgen.mono
    rintro u v (⟨r, hu, hv⟩ | ⟨rfl, rfl⟩)
    · exact ⟨_, hjoin hu, hjoin hv⟩
    · refine ⟨b, ?_, ?_⟩
      · have hroot := hjoin hp
        rwa [if_pos rfl] at hroot
      · have hroot := hjoin hq
        rwa [if_neg hne.symm] at hroot

end

structure UnionFind (V : Type) [DecidableEq V] where
  parent : AList fun _ : V => V
  rank : AList fun _ : V => ℕ

namespace UnionFind

def parentIn (parent : AList fun _ : V => V) (x : V) : V := (parent.lookup x).getD x

def parentOf (uf : UnionFind V) : V → V := parentIn uf.parent

def empty : UnionFind V := ⟨∅, ∅⟩

def makeSet (uf : UnionFind V) (x : V) : UnionFind V := { uf with parent := uf.parent.insert x x }

/-- Up to an element that is its own parent. -/
def rootFrom (uf : UnionFind V) : ℕ → V → V
  | 0, x => x
  | fuel + 1, x => if uf.parentOf x = x then x else rootFrom uf fuel (uf.parentOf x)

/-- Each element on the way is pointed at the root. -/
def compress (root : V) : ℕ → V → (AList fun _ : V => V) → AList fun _ : V => V
  | 0, _, parent => parent
  | fuel + 1, x, parent => if x = root then parent else compress root fuel (parentIn parent x) (parent.insert x root)

/-- The way to the root is not longer than there are keys. -/
def find (uf : UnionFind V) (x : V) : V × UnionFind V :=
  let root := uf.rootFrom uf.parent.keys.length x
  (root, { uf with parent := compress root uf.parent.keys.length x uf.parent })

def union (uf : UnionFind V) (a b : V) : UnionFind V :=
  let (ra, uf) := uf.find a
  let (rb, uf) := uf.find b
  if ra = rb then uf
  else
    let rankA := (uf.rank.lookup ra).getD 0
    let rankB := (uf.rank.lookup rb).getD 0
    match compare rankA rankB with
    | .lt => { uf with parent := uf.parent.insert ra rb }
    | .gt => { uf with parent := uf.parent.insert rb ra }
    | .eq => ⟨uf.parent.insert rb ra, uf.rank.insert ra (rankA + 1)⟩

variable {uf : UnionFind V}

theorem parentIn_insert (parent : AList fun _ : V => V) (x r : V) : parentIn (parent.insert x r) = update (parentIn parent) x r := by
  funext y
  rw [parentIn]
  by_cases hyx : y = x
  · rw [hyx, AList.lookup_insert, update_self]
    rfl
  · rw [AList.lookup_insert_ne hyx, update_of_ne hyx]
    rfl

/-- The way to a root has no element twice, and each element below the root is a key. -/
theorem exists_short_way {x r : V} (h : Root uf.parentOf x r) : ∃ k ≤ uf.parent.keys.length, uf.parentOf^[k] x = r := by
  obtain ⟨⟨k, hk⟩, hr⟩ := h
  have hfixed : ∃ k, uf.parentOf (uf.parentOf^[k] x) = uf.parentOf^[k] x := ⟨k, by rw [hk, hr]⟩
  obtain ⟨hlst, hmin⟩ := And.intro (Nat.find_spec hfixed) fun j (hj : j < Nat.find hfixed) => Nat.find_min hfixed hj
  generalize Nat.find hfixed = least at hlst hmin
  refine ⟨least, ?_, (Root.unique ⟨⟨least, rfl⟩, hlst⟩ ⟨⟨k, hk⟩, hr⟩)⟩
  have hnd : ((range least).map fun i => uf.parentOf^[i] x).Nodup := by
    refine Nodup.map_on ?_ nodup_range
    have hfwd : ∀ i j, i < j → j < least → uf.parentOf^[i] x ≠ uf.parentOf^[j] x := by
      intro i j hij hj hsame
      -- the way from the earlier place would be shorter
      have hjump : uf.parentOf^[least - j + i] x = uf.parentOf^[least] x := by
        rw [iterate_add_apply, hsame, ← iterate_add_apply, Nat.sub_add_cancel hj.le]
      exact hmin (least - j + i) (by omega) (by rw [hjump, hlst])
    intro i hi j hj hsame
    rw [mem_range] at hi hj
    obtain hlt | heq | hlt := Nat.lt_trichotomy i j
    · exact absurd hsame (hfwd i j hlt hj)
    · exact heq
    · exact absurd hsame.symm (hfwd j i hlt hi)
  have hkeys : ∀ y ∈ (range least).map (fun i => uf.parentOf^[i] x), y ∈ uf.parent.keys := by
    intro y hy
    obtain ⟨i, hi, rfl⟩ := mem_map.mp hy
    by_contra hmiss
    apply hmin i (mem_range.mp hi)
    have hnone : uf.parent.lookup (uf.parentOf^[i] x) = none := AList.lookup_eq_none.mpr fun hmem => hmiss (AList.mem_keys.mpr hmem)
    rw [parentOf, parentIn] at *
    rw [hnone]
    rfl
  have hlen := (Nodup.subperm hnd hkeys).length_le
  rwa [length_map, length_range] at hlen

theorem rootFrom_eq {k fuel : ℕ} (hfuel : k ≤ fuel) {x r : V} (hway : uf.parentOf^[k] x = r) (hr : uf.parentOf r = r) :
    uf.rootFrom fuel x = r := by
  induction k generalizing x fuel with
  | zero =>
    obtain rfl : x = r := hway
    cases fuel with
    | zero => rfl
    | succ fuel => rw [rootFrom, if_pos hr]
  | succ k ih =>
    obtain ⟨fuel, rfl⟩ : ∃ rest, fuel = rest + 1 := ⟨fuel - 1, by omega⟩
    rw [rootFrom]
    split
    · rename_i hx
      rwa [iterate_succ_apply, hx, iterate_stay hx] at hway
    · exact ih (by omega) hway

theorem compress_spec {root : V} (fuel : ℕ) {parent : AList fun _ : V => V} {x : V} (hf : Forest (parentIn parent))
    (hx : Root (parentIn parent) x root) : Forest (parentIn (compress root fuel x parent)) ∧
      ∀ y s, Root (parentIn (compress root fuel x parent)) y s ↔ Root (parentIn parent) y s := by
  induction fuel generalizing parent x with
  | zero => exact ⟨hf, fun _ _ => Iff.rfl⟩
  | succ fuel ih =>
    rw [compress]
    split
    · exact ⟨hf, fun _ _ => Iff.rfl⟩
    · have hins := parentIn_insert parent x root
      have hforest : Forest (parentIn (parent.insert x root)) := hins ▸ forest_compress hf hx
      have hroots : ∀ y s, Root (parentIn (parent.insert x root)) y s ↔ Root (parentIn parent) y s := fun y s => hins ▸ root_compress hf hx
      obtain ⟨hforest', hroots'⟩ := ih hforest ((hroots _ _).mpr hx.parent)
      exact ⟨hforest', fun y s => (hroots' y s).trans (hroots y s)⟩

section
variable (hf : Forest uf.parentOf)
include hf

/-- A search finds the root and leaves all roots. -/
theorem find_spec (x : V) : Root uf.parentOf x (uf.find x).1 ∧ Forest (uf.find x).2.parentOf ∧
      ∀ y s, Root (uf.find x).2.parentOf y s ↔ Root uf.parentOf y s := by
  obtain ⟨r, hr⟩ := hf x
  obtain ⟨k, hk, hway⟩ := exists_short_way hr
  have hfnd : uf.rootFrom uf.parent.keys.length x = r := rootFrom_eq hk hway hr.2
  have hroot : (uf.find x).1 = r := hfnd
  obtain ⟨hforest, hroots⟩ := compress_spec uf.parent.keys.length hf hr
  rw [hroot]
  refine ⟨hr, ?_, ?_⟩
  · rw [find, hfnd]
    exact hforest
  · rw [find, hfnd]
    exact hroots

/-- A union joins two classes. -/
theorem union_spec (a b : V) : Forest (uf.union a b).parentOf ∧ ∀ x y, SameClass (uf.union a b).parentOf x y ↔
      Relation.EqvGen (fun u v => SameClass uf.parentOf u v ∨ u = a ∧ v = b) x y := by
  obtain ⟨hra, hforestA, hrootsA⟩ := find_spec hf a
  obtain ⟨hrb, hforestB, hrootsB⟩ := find_spec hforestA b
  rw [union]
  generalize uf.find a = foundA at hra hforestA hrootsA hrb hforestB hrootsB ⊢
  obtain ⟨ra, ufA⟩ := foundA
  dsimp only at hra hforestA hrootsA hrb hforestB hrootsB ⊢
  generalize ufA.find b = foundB at hrb hforestB hrootsB ⊢
  obtain ⟨rb, ufB⟩ := foundB
  dsimp only at hrb hforestB hrootsB ⊢
  have hroots : ∀ y s, Root ufB.parentOf y s ↔ Root uf.parentOf y s := fun y s => (hrootsB y s).trans (hrootsA y s)
  have hclass : SameClass ufB.parentOf = SameClass uf.parentOf := sameClass_congr hroots
  have hrootA : Root ufB.parentOf a ra := (hroots a ra).mpr hra
  have hrootB : Root ufB.parentOf b rb := (hrootsB b rb).mpr hrb
  rw [← hclass]
  split
  · rename_i hsame
    refine ⟨hforestB, fun x y => ⟨fun hxy => .rel _ _ (Or.inl hxy), fun hgen => ?_⟩⟩
    apply (Equivalence.eqvGen_iff (sameClass_equivalence hforestB)).mp
    apply hgen.mono
    rintro u v (huv | ⟨rfl, rfl⟩)
    · exact huv
    · exact ⟨ra, hrootA, hsame ▸ hrootB⟩
  · rename_i hne
    -- either root goes below the other
    have hbel : ∀ rank, Forest (UnionFind.parentOf ⟨ufB.parent.insert rb ra, rank⟩) ∧
        ∀ x y, SameClass (UnionFind.parentOf ⟨ufB.parent.insert rb ra, rank⟩) x y ↔
          Relation.EqvGen (fun u v => SameClass ufB.parentOf u v ∨ u = a ∧ v = b) x y := by
      intro rank
      have hins : UnionFind.parentOf ⟨ufB.parent.insert rb ra, rank⟩ = update ufB.parentOf rb ra := parentIn_insert _ _ _
      rw [hins]
      refine ⟨forest_join hforestB hrootB.2 hrootA.2 (Ne.symm hne), fun x y => ?_⟩
      rw [sameClass_join hforestB hrootB hrootA (Ne.symm hne)]
      have hturn : ∀ {p q : V}, Relation.EqvGen (fun u v => SameClass ufB.parentOf u v ∨ u = p ∧ v = q) x y →
          Relation.EqvGen (fun u v => SameClass ufB.parentOf u v ∨ u = q ∧ v = p) x y := by
        intro p q hgen
        apply (Equivalence.eqvGen_iff (Relation.EqvGen.is_equivalence _)).mp
        apply hgen.mono
        rintro u v (huv | ⟨rfl, rfl⟩)
        · exact .rel _ _ (Or.inl huv)
        · exact .symm _ _ (.rel _ _ (Or.inr ⟨rfl, rfl⟩))
      exact ⟨hturn, hturn⟩
    split
    · have hins : UnionFind.parentOf ⟨ufB.parent.insert ra rb, ufB.rank⟩ = update ufB.parentOf ra rb := parentIn_insert _ _ _
      rw [hins]
      exact ⟨forest_join hforestB hrootA.2 hrootB.2 hne, fun x y => sameClass_join hforestB hrootA hrootB hne⟩
    · exact hbel _
    · exact hbel _

/-- After any unions two elements have one root exactly if the unions connect them. -/
theorem unions_spec (pairs : List (V × V)) :
    Forest (pairs.foldl (fun uf pair => uf.union pair.1 pair.2) uf).parentOf ∧
      ∀ x y, SameClass (pairs.foldl (fun uf pair => uf.union pair.1 pair.2) uf).parentOf x y ↔
        Relation.EqvGen (fun u v => SameClass uf.parentOf u v ∨ (u, v) ∈ pairs) x y := by
  induction pairs generalizing uf with
  | nil =>
    refine ⟨hf, fun x y => ?_⟩
    simp only [foldl_nil, not_mem_nil, or_false]
    exact (Equivalence.eqvGen_iff (sameClass_equivalence hf)).symm
  | cons pair pairs ih =>
    obtain ⟨hforest, hclass⟩ := @union_spec V _ uf hf pair.1 pair.2
    obtain ⟨hforest', hclass'⟩ := ih hforest
    refine ⟨hforest', fun x y => (hclass' x y).trans ?_⟩
    constructor
    · intro hgen
      apply (Equivalence.eqvGen_iff (Relation.EqvGen.is_equivalence _)).mp
      apply hgen.mono
      rintro u v (huv | huv)
      · apply ((hclass u v).mp huv).mono
        rintro p q (hpq | ⟨rfl, rfl⟩)
        · exact Or.inl hpq
        · exact Or.inr mem_cons_self
      · exact .rel _ _ (Or.inr (mem_cons_of_mem _ huv))
    · intro hgen
      apply hgen.mono
      rintro u v (huv | huv)
      · exact Or.inl ((hclass u v).mpr (.rel _ _ (Or.inl huv)))
      · obtain heq | huv := mem_cons.mp huv
        · exact Or.inl ((hclass u v).mpr (.rel _ _ (Or.inr (Prod.mk.inj heq))))
        · exact Or.inr huv

end

/-- Elements that are made sets of their own are roots. -/
theorem makeSets_parentOf (elements : List V) : (elements.foldl makeSet (empty : UnionFind V)).parentOf = id := by
  have hgen : ∀ (elements : List V) (uf : UnionFind V), uf.parentOf = id → (elements.foldl makeSet uf).parentOf = id := by
    intro elements
    induction elements with
    | nil => exact fun _ h => h
    | cons x elements ih =>
      intro uf huf
      apply ih
      have hins : (makeSet uf x).parentOf = update uf.parentOf x x := parentIn_insert _ _ _
      rw [hins, huf]
      exact update_eq_self x id
  exact hgen elements empty rfl

omit [DecidableEq V] in
theorem forest_id : Forest (id : V → V) := fun x => ⟨x, root_self rfl⟩

omit [DecidableEq V] in
theorem sameClass_id {x y : V} : SameClass id x y ↔ x = y := by
  constructor
  · rintro ⟨r, hx, hy⟩
    exact (hx.eq_of_fixed rfl).symm.trans (hy.eq_of_fixed rfl)
  · rintro rfl
    exact ⟨x, root_self rfl, root_self rfl⟩

end UnionFind

end OverGraph.UnionFinds
