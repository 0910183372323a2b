import Mathlib.Data.Finset.Card
import Mathlib.Algebra.Order.BigOperators.Group.List
import Mathlib.Algebra.Order.Group.Nat
import Mathlib.Data.Nat.Cast.Basic

/-!
# Tuples shortened piece by piece

A tuple is written piece after piece. While it is too long, the heaviest piece still written in full,
the last of them among equals, is replaced by its short form. Which pieces end up short is decided by
one sum for each piece: the length with all heavier pieces short.
-/

namespace OverGraph.ShrinkingTuples

open Option hiding map_map mem_map
open List Function

variable {β : Type}

/-- A piece with a weight has two forms; one without is never shortened. -/
structure Piece (β : Type) where
  plain : List β
  hashed : List β
  weight : Option ℕ

def Piece.render (p : Piece β) (force : Bool) : List β := if force then p.hashed else p.plain

/-- The weight of a piece that can still be shortened. -/
def Piece.open (p : Piece β) (force : Bool) : Option ℕ := if force then none else p.weight

/-- The pieces that can be shortened, with their positions. -/
def candidates (lens : List (Option ℕ)) : List (ℕ × ℕ) := (lens.mapIdx fun ord len => len.map (Prod.mk ord)).filterMap id

/-- The last of the heaviest candidates. -/
def heaviest : List (ℕ × ℕ) → Option (ℕ × ℕ)
  | [] => none
  | x :: xs =>
    match heaviest xs with
    | none => some x
    | some best => if best.2 < x.2 then some x else some best

def write (ps : List (Piece β)) (force : ℕ → Bool) : List (List β) := ps.zipIdx.map fun (p, i) => p.render (force i)

def totalLength (ps : List (Piece β)) (force : ℕ → Bool) : ℕ := ((write ps force).map List.length).sum

def shrink (limit : ℕ) (ps : List (Piece β)) : ℕ → (ℕ → Bool) → Option (List β)
  | 0, _ => none
  | fuel + 1, force =>
    if totalLength ps force ≤ limit then some (write ps force).flatten
    else match heaviest (candidates (ps.zipIdx.map fun (p, i) => p.open (force i))) with
      | none => none
      | some (ord, _) => shrink limit ps fuel (Function.update force ord true)

variable {i : ℕ}

theorem mem_candidates {lens : List (Option ℕ)} {w : ℕ} : (i, w) ∈ candidates lens ↔ lens[i]? = some (some w) := by
  rw [candidates, mem_filterMap]
  simp only [id_eq, exists_eq_right, mem_mapIdx]
  constructor
  · intro h
    obtain ⟨j, hj, heq⟩ := h
    obtain ⟨len, hlen, hpair⟩ := map_eq_some_iff.mp heq
    obtain ⟨rfl, rfl⟩ := Prod.mk.inj hpair
    rw [List.getElem?_eq_getElem hj, hlen]
  · intro h
    obtain ⟨hi, heq⟩ := List.getElem?_eq_some_iff.mp h
    exact ⟨i, hi, by rw [heq]; rfl⟩

theorem pairwise_candidates (lens : List (Option ℕ)) : (candidates lens).Pairwise fun a b => a.1 < b.1 := by
  have hidx : (lens.mapIdx fun ord len => len.map (Prod.mk ord)).Pairwise
      fun a b => ∀ x ∈ a, ∀ y ∈ b, x.1 < y.1 := by
    rw [pairwise_iff_getElem]
    intro i j hi hj hij x hx y hy
    rw [getElem_mapIdx] at hx hy
    obtain ⟨-, -, rfl⟩ := map_eq_some_iff.mp hx
    obtain ⟨-, -, rfl⟩ := map_eq_some_iff.mp hy
    exact hij
  rw [candidates]
  apply hidx.filterMap
  intro a b h x hx y hy
  exact h x hx y hy

variable {l : List (ℕ × ℕ)}

theorem heaviest_spec (hsort : l.Pairwise fun a b => a.1 < b.1) {best : ℕ × ℕ} (h : heaviest l = some best) :
    best ∈ l ∧ ∀ x ∈ l, x ≠ best → x.2 < best.2 ∨ x.2 = best.2 ∧ x.1 < best.1 := by
  induction l generalizing best with
  | nil => cases h
  | cons x xs ih =>
    obtain ⟨hfst, hrest⟩ := pairwise_cons.mp hsort
    rw [heaviest] at h
    cases hxs : heaviest xs with
    | none =>
      rw [hxs] at h
      obtain rfl := some.inj h
      have hnil : xs = [] := by
        cases xs with
        | nil => rfl
        | cons y ys =>
          rw [heaviest] at hxs
          split at hxs
          · cases hxs
          · split at hxs <;> cases hxs
      rw [hnil]
      refine ⟨mem_cons_self, ?_⟩
      intro y hy hne
      exact absurd (mem_singleton.mp hy) hne
    | some other =>
      rw [hxs] at h
      obtain ⟨hmem, hmax⟩ := ih hrest hxs
      dsimp only at h
      split at h
      · rename_i hlt
        obtain rfl := some.inj h
        refine ⟨mem_cons_self, ?_⟩
        intro y hy hne
        rcases mem_cons.mp hy with rfl | hy
        · exact absurd rfl hne
        · by_cases hoth : y = other
          · exact .inl (by rw [hoth]; exact hlt)
          · have hy' := hmax y hy hoth
            exact .inl (by omega)
      · rename_i hge
        obtain rfl := some.inj h
        refine ⟨mem_cons_of_mem _ hmem, ?_⟩
        intro y hy hne
        rcases mem_cons.mp hy with rfl | hy
        · have hpos := hfst _ hmem
          omega
        · exact hmax y hy hne

theorem exists_heaviest (h : l ≠ []) : ∃ best, heaviest l = some best := by
  cases l with
  | nil => exact absurd rfl h
  | cons x xs =>
    rw [heaviest]
    split
    · exact ⟨_, rfl⟩
    · split <;> exact ⟨_, rfl⟩

variable {ps : List (Piece β)} {force : ℕ → Bool}

theorem write_congr {other : ℕ → Bool}
    (h : ∀ i (p : Piece β), ps[i]? = some p → p.render (force i) = p.render (other i)) : write ps force = write ps other := by
  apply map_congr_left
  intro entry hent
  exact h entry.2 entry.1 (mem_zipIdx_iff_getElem?.mp hent)

section
variable (ps : List (Piece β))

theorem getElem?_write (force : ℕ → Bool) (i : ℕ) :
    (write ps force)[i]? = (ps[i]?).map fun p => p.render (force i) := by
  rw [write, getElem?_map, getElem?_zipIdx, Option.map_map]
  simp [comp_def]

theorem write_take (k : ℕ) (force : ℕ → Bool) : write (ps.take k) force = (write ps force).take k := by
  apply ext_getElem?
  intro i
  rw [getElem?_write, getElem?_take, getElem?_take, getElem?_write]
  split <;> rfl

theorem totalLength_take_le (k : ℕ) (force : ℕ → Bool) : totalLength (ps.take k) force ≤ totalLength ps force := by
  rw [totalLength, totalLength, write_take, map_take]
  exact (take_sublist k _).sum_le_sum fun _ _ => Nat.zero_le _

end

theorem totalLength_le {other : ℕ → Bool}
    (h : ∀ i (p : Piece β), ps[i]? = some p → (p.render (force i)).length ≤ (p.render (other i)).length) :
    totalLength ps force ≤ totalLength ps other := by
  rw [totalLength, totalLength, write, write, map_map, map_map]
  apply sum_le_sum
  intro entry hent
  exact h entry.2 entry.1 (mem_zipIdx_iff_getElem?.mp hent)

variable {force : ℕ → Bool}

theorem totalLength_le_of_small {small : ℕ}
    (h : ∀ i (p : Piece β), ps[i]? = some p → (p.render (force i)).length ≤ small) : totalLength ps force ≤ ps.length * small := by
  rw [totalLength, write, map_map]
  have hsum := sum_le_card_nsmul (ps.zipIdx.map (List.length ∘ fun (p, i) => p.render (force i))) small (by
    intro n hn
    obtain ⟨entry, hent, rfl⟩ := mem_map.mp hn
    exact h entry.2 entry.1 (mem_zipIdx_iff_getElem?.mp hent))
  rwa [length_map, length_zipIdx, nsmul_eq_mul, Nat.cast_id] at hsum

def weightAt (ps : List (Piece β)) (i : ℕ) : Option ℕ := ps[i]?.bind Piece.weight

/-- A piece is shortened before another. -/
def above (ps : List (Piece β)) (i j : ℕ) : Bool :=
  match weightAt ps i, weightAt ps j with
  | some w, some v => decide (w < v ∨ w = v ∧ i < j)
  | _, _ => false

/-- The tuple is too long even with all heavier pieces short. -/
def Overflows (limit : ℕ) (ps : List (Piece β)) (i : ℕ) : Prop := (weightAt ps i).isSome = true ∧ limit < totalLength ps (above ps i)

/-- Pieces of two forms grow with their weight, their short forms and the other pieces are small, and
small pieces fit. -/
structure Sizes (limit overhead short small : ℕ) (ps : List (Piece β)) : Prop where
  fixed : ∀ p ∈ ps, p.weight = none → p.plain = p.hashed ∧ p.plain.length ≤ small
  weighted : ∀ p ∈ ps, ∀ w, p.weight = some w → p.plain.length = overhead + w ∧ p.hashed.length = short
  short_le : short ≤ small
  fits : ps.length * small ≤ limit

/-- What holds of the pieces shortened so far. -/
structure Shortened (limit : ℕ) (ps : List (Piece β)) (force : ℕ → Bool) : Prop where
  overflows : ∀ j, force j = true → Overflows limit ps j
  closed : ∀ i j, force i = true → above ps i j = true → force j = true

theorem above_iff {j : ℕ} : above ps i j = true ↔
    ∃ w v, weightAt ps i = some w ∧ weightAt ps j = some v ∧ (w < v ∨ w = v ∧ i < j) := by
  rw [above]
  cases weightAt ps i with
  | none => simp
  | some w =>
    cases weightAt ps j with
    | none | some v => simp

theorem above_total {j : ℕ} (hi : (weightAt ps i).isSome = true)
    (hj : (weightAt ps j).isSome = true) (hne : i ≠ j) : above ps i j = true ∨ above ps j i = true := by
  obtain ⟨w, hw⟩ := isSome_iff_exists.mp hi
  obtain ⟨v, hv⟩ := isSome_iff_exists.mp hj
  rw [above_iff, above_iff]
  rcases lt_trichotomy w v with h | h | h
  · exact .inl ⟨w, v, hw, hv, .inl h⟩
  · rcases lt_or_gt_of_ne hne with hij | hij
    · exact .inl ⟨w, v, hw, hv, .inr ⟨h, hij⟩⟩
    · exact .inr ⟨v, w, hv, hw, .inr ⟨h.symm, hij⟩⟩
  · exact .inr ⟨v, w, hv, hw, .inl h⟩

section
variable {limit overhead short small : ℕ} {ps : List (Piece β)} (h : Sizes limit overhead short small ps)
include h

/-- Once the tuple fits, it fits too with the pieces above one still in full. -/
theorem Sizes.not_overflows (hforce : Shortened limit ps force) (hfits : totalLength ps force ≤ limit) (hi : force i = false) : ¬Overflows limit ps i := by
  rintro ⟨hwt, hlong⟩
  obtain ⟨w, hw⟩ := isSome_iff_exists.mp hwt
  by_cases hgrows : ∃ j v, above ps i j = true ∧ weightAt ps j = some v ∧ overhead + v < short
  · -- then the pieces below are light, and all pieces are small
    obtain ⟨j, v, habove, hv, hlight⟩ := hgrows
    have hwv : w ≤ v := by
      obtain ⟨w', v', hw', hv', hle⟩ := above_iff.mp habove
      rw [hw] at hw'
      rw [hv] at hv'
      obtain rfl := some.inj hw'
      obtain rfl := some.inj hv'
      omega
    have hsm : totalLength ps (above ps i) ≤ ps.length * small := by
      apply totalLength_le_of_small
      intro k p hp
      have hmem := mem_of_getElem? hp
      have hsh := h.short_le
      rw [Piece.render]
      cases hpw : p.weight with
      | none =>
        obtain ⟨hsame, hle⟩ := h.fixed p hmem hpw
        split
        · rwa [← hsame]
        · exact hle
      | some u =>
        obtain ⟨hpl, hhashed⟩ := h.weighted p hmem u hpw
        have hu : weightAt ps k = some u := by rw [weightAt, hp]; exact hpw
        split
        · omega
        · rename_i hbel
          have hle : ¬(w < u ∨ w = u ∧ i < k) := fun hlt => hbel (above_iff.mpr ⟨w, u, hw, hu, hlt⟩)
          omega
    have hall := h.fits
    omega
  · have hle : totalLength ps (above ps i) ≤ totalLength ps force := by
      apply totalLength_le
      intro k p hp
      have hmem := mem_of_getElem? hp
      cases hforced : force k with
      | true =>
        have hk := (hforce.overflows k hforced).1
        have hne : i ≠ k := by
          rintro rfl
          rw [hforced] at hi
          cases hi
        have habove : above ps i k = true := by
          rcases above_total hwt hk hne with hab | hab
          · exact hab
          · rw [hforce.closed k i hforced hab] at hi
            cases hi
        rw [habove]
      | false =>
        rw [Piece.render, Piece.render, if_neg Bool.false_ne_true]
        split
        · rename_i habove
          obtain ⟨_, v, -, hv, -⟩ := above_iff.mp habove
          have hpv : p.weight = some v := by
            rw [weightAt, hp] at hv
            exact hv
          obtain ⟨hpl, hhashed⟩ := h.weighted p hmem v hpv
          have hheavy : ¬overhead + v < short := fun hlight => hgrows ⟨k, v, habove, hv, hlight⟩
          omega
        · exact le_rfl
    omega

end

theorem mem_open {w : ℕ} :
    (i, w) ∈ candidates (ps.zipIdx.map fun (p, i) => p.open (force i)) ↔ force i = false ∧ weightAt ps i = some w := by
  have hget : (ps.zipIdx.map fun (p, i) => p.open (force i))[i]? = (ps[i]?).map fun p => p.open (force i) := by
    rw [getElem?_map, getElem?_zipIdx, Option.map_map]
    simp [comp_def]
  rw [mem_candidates, hget, weightAt]
  cases ps[i]? with
  | none => simp
  | some p =>
    cases hforced : force i with
    | true | false => simp [Piece.open]

section
variable {limit : ℕ} {ps : List (Piece β)} (hforce : Shortened limit ps force)
include hforce

/-- The pieces shortened so far are those above the next one. -/
theorem Shortened.eq_above {ord w : ℕ} (hbest : heaviest (candidates (ps.zipIdx.map fun (p, i) => p.open (force i))) = some (ord, w)) :
    force ord = false ∧ weightAt ps ord = some w ∧ force = above ps ord := by
  obtain ⟨hmem, hmax⟩ := heaviest_spec (pairwise_candidates _) hbest
  obtain ⟨hopen, hwt⟩ := mem_open.mp hmem
  refine ⟨hopen, hwt, ?_⟩
  funext j
  cases hj : force j with
  | true =>
    have hne : ord ≠ j := by
      rintro rfl
      rw [hj] at hopen
      cases hopen
    rcases above_total (by rw [hwt]; rfl) (hforce.overflows j hj).1 hne with hab | hab
    · exact hab.symm
    · rw [hforce.closed j ord hj hab] at hopen
      cases hopen
  | false =>
    symm
    rw [← Bool.not_eq_true, above_iff]
    rintro ⟨w', v, hw', hv, habove⟩
    rw [hwt] at hw'
    obtain rfl := some.inj hw'
    have hne : (j, v) ≠ (ord, w) := by
      intro heq
      obtain ⟨rfl, rfl⟩ := Prod.mk.inj heq
      omega
    have hle := hmax (j, v) (mem_open.mpr ⟨hj, hv⟩) hne
    dsimp only at hle
    omega

theorem Shortened.step (hlong : limit < totalLength ps force) {ord w : ℕ}
    (hbest : heaviest (candidates (ps.zipIdx.map fun (p, i) => p.open (force i))) = some (ord, w)) :
    Shortened limit ps (update force ord true) := by
  obtain ⟨hopen, hwt, hab⟩ := hforce.eq_above hbest
  have hupd : ∀ {j : ℕ}, update force ord true j = true → j = ord ∨ force j = true := by
    intro j hj
    by_cases hsame : j = ord
    · exact .inl hsame
    · rw [update_of_ne hsame] at hj
      exact .inr hj
  have hkept : ∀ {j : ℕ}, force j = true → update force ord true j = true := by
    intro j hj
    by_cases hsame : j = ord
    · rw [hsame, update_self]
    · rw [update_of_ne hsame, hj]
  constructor
  · intro j hj
    rcases hupd hj with rfl | hj
    · refine ⟨by rw [hwt]; rfl, ?_⟩
      rw [← hab]
      exact hlong
    · exact hforce.overflows j hj
  · intro i j hi hij
    rcases hupd hi with rfl | hi
    · rw [← hab] at hij
      exact hkept hij
    · exact hkept (hforce.closed i j hi hij)

end

/-- The pieces not shortened yet. -/
def remaining (ps : List (Piece β)) (force : ℕ → Bool) : ℕ := ((Finset.range ps.length).filter fun i => force i = false).card

theorem remaining_update {ord : ℕ} (hlt : ord < ps.length)
    (hopen : force ord = false) : remaining ps (update force ord true) < remaining ps force := by
  apply Finset.card_lt_card
  refine ⟨?_, ?_⟩
  · intro i hi
    obtain ⟨hrng, hfalse⟩ := Finset.mem_filter.mp hi
    refine Finset.mem_filter.mpr ⟨hrng, ?_⟩
    by_cases hsame : i = ord
    · rw [hsame, hopen]
    · rwa [update_of_ne hsame] at hfalse
  · intro hsub
    have hmem := hsub (Finset.mem_filter.mpr ⟨Finset.mem_range.mpr hlt, hopen⟩)
    have hfalse := (Finset.mem_filter.mp hmem).2
    rw [update_self] at hfalse
    cases hfalse

section
variable {limit overhead short small : ℕ} {ps : List (Piece β)} (h : Sizes limit overhead short small ps)
include h

/-- With every piece of two forms short, the tuple fits. -/
theorem Sizes.fits_of_no_candidate (hnone : heaviest (candidates (ps.zipIdx.map fun (p, i) => p.open (force i))) = none) : totalLength ps force ≤ limit := by
  have hemp : candidates (ps.zipIdx.map fun (p, i) => p.open (force i)) = [] := by
    by_contra hne
    obtain ⟨best, hbest⟩ := exists_heaviest hne
    rw [hbest] at hnone
    cases hnone
  have hsm : totalLength ps force ≤ ps.length * small := by
    apply totalLength_le_of_small
    intro i p hp
    have hmem := mem_of_getElem? hp
    rw [Piece.render]
    cases hpw : p.weight with
    | none =>
      obtain ⟨hsame, hle⟩ := h.fixed p hmem hpw
      split
      · rwa [← hsame]
      · exact hle
    | some w =>
      have hforced : force i = true := by
        rw [← Bool.not_eq_false]
        intro hopen
        have hcand := mem_open.mpr ⟨hopen, show weightAt ps i = some w by rw [weightAt, hp]; exact hpw⟩
        rw [hemp] at hcand
        cases hcand
      rw [if_pos hforced, (h.weighted p hmem w hpw).2]
      exact h.short_le
  exact hsm.trans h.fits

theorem Sizes.shrink_spec {fuel : ℕ} (hforce : Shortened limit ps force)
    (hfuel : remaining ps force < fuel) :
    ∃ final, shrink limit ps fuel force = some (write ps final).flatten ∧ Shortened limit ps final ∧ totalLength ps final ≤ limit := by
  induction fuel generalizing force with
  | zero => exact absurd hfuel (Nat.not_lt_zero _)
  | succ fuel ih =>
    rw [shrink]
    split
    · rename_i hfits
      exact ⟨force, rfl, hforce, hfits⟩
    · rename_i hlong
      cases hbest : heaviest (candidates (ps.zipIdx.map fun (p, i) => p.open (force i))) with
      | none => exact absurd (h.fits_of_no_candidate hbest) hlong
      | some best =>
        obtain ⟨ord, w⟩ := best
        obtain ⟨hopen, hwt, -⟩ := hforce.eq_above hbest
        have hlt : ord < ps.length := by
          rw [weightAt] at hwt
          obtain ⟨p, hp, -⟩ := bind_eq_some_iff.mp hwt
          exact (List.getElem?_eq_some_iff.mp hp).1
        have hfewer := remaining_update hlt hopen
        exact ih (hforce.step (not_le.mp hlong) hbest) (by omega)

end

instance (limit : ℕ) (ps : List (Piece β)) (i : ℕ) : Decidable (Overflows limit ps i) := inferInstanceAs (Decidable (_ ∧ _))

/-- The pieces written short. -/
def shortForms (limit : ℕ) (ps : List (Piece β)) (i : ℕ) : Bool := decide (Overflows limit ps i)

/-- The loop shortens exactly the pieces that overflow, and then the tuple fits. -/
theorem Sizes.shrink_eq {limit overhead short small : ℕ} (h : Sizes limit overhead short small ps) :
    shrink limit ps (ps.length + 1) (fun _ => false) = some (write ps (shortForms limit ps)).flatten ∧
      totalLength ps (shortForms limit ps) ≤ limit := by
  have hst : Shortened limit ps fun _ => false := ⟨fun _ h => Bool.noConfusion h, fun _ _ h => Bool.noConfusion h⟩
  have hfuel : remaining ps (fun _ => false) < ps.length + 1 := by
    have hcard := Finset.card_filter_le (Finset.range ps.length) fun _ => false = false
    rw [Finset.card_range] at hcard
    exact Nat.lt_succ_of_le hcard
  obtain ⟨final, hrun, hsh, hfits⟩ := h.shrink_spec hst hfuel
  have hfinl : final = shortForms limit ps := by
    funext i
    cases hi : final i with
    | true => exact (decide_eq_true (hsh.overflows i hi)).symm
    | false => exact (decide_eq_false (h.not_overflows hsh hfits hi)).symm
  rw [hfinl] at hrun hfits
  exact ⟨hrun, hfits⟩

variable {k i : ℕ}

theorem weightAt_take (hi : i < k) : weightAt (ps.take k) i = weightAt ps i := by
  rw [weightAt, weightAt, getElem?_take, if_pos hi]

theorem lt_of_weightAt_take (h : (weightAt (ps.take k) i).isSome = true) : i < k := by
  by_contra hge
  rw [weightAt, getElem?_take, if_neg hge] at h
  cases h

theorem Overflows.of_take {limit : ℕ} (h : Overflows limit (ps.take k) i) : Overflows limit ps i := by
  have hi := lt_of_weightAt_take h.1
  have hsame : totalLength (ps.take k) (above (ps.take k) i) = totalLength (ps.take k) (above ps i) := by
    rw [totalLength, totalLength]
    congr 2
    apply write_congr
    intro j p hp
    have hj : j < k := by
      by_contra hge
      rw [getElem?_take, if_neg hge] at hp
      cases hp
    rw [above, above, weightAt_take hi, weightAt_take hj]
  have hle := totalLength_take_le ps k (above ps i)
  obtain ⟨hwt, hlong⟩ := h
  rw [weightAt_take hi] at hwt
  exact ⟨hwt, by omega⟩

/-- The written beginning is a beginning of the written tuple exactly if no piece of it is shortened
on account of what follows. -/
theorem flatten_take_prefix_iff {limit : ℕ} {k : ℕ} (hk : k ≤ ps.length)
    (hforms : ∀ p ∈ ps, p.weight.isSome = true → ∃ a b plain hashed, p.plain = a :: plain ∧ p.hashed = b :: hashed ∧ a ≠ b) :
    (write (ps.take k) (shortForms limit (ps.take k))).flatten <+: (write ps (shortForms limit ps)).flatten ↔
      ∀ i < k, Overflows limit ps i → Overflows limit (ps.take k) i := by
  constructor
  · intro hprefix i hi hover
    induction i using Nat.strong_induction_on with
    | _ i ih =>
    by_contra hnot
    have hlt : i < ps.length := by omega
    have hget : ps[i]? = some ps[i] := List.getElem?_eq_getElem hlt
    have hpiece : ps[i].weight.isSome = true := by
      have hwt := hover.1
      rw [weightAt, hget] at hwt
      exact hwt
    obtain ⟨a, b, plain, hashed, hpl, hhashed, hne⟩ := hforms ps[i] (getElem_mem hlt) hpiece
    have hbel : (write (ps.take k) (shortForms limit (ps.take k))).take i = (write ps (shortForms limit ps)).take i := by
      rw [← write_take, ← write_take, take_take, Nat.min_eq_left hi.le]
      apply write_congr
      intro j p hp
      have hj : j < i := by
        by_contra hge
        rw [getElem?_take, if_neg hge] at hp
        cases hp
      have hiff : Overflows limit (ps.take k) j ↔ Overflows limit ps j := ⟨Overflows.of_take, ih j hj (by omega)⟩
      rw [shortForms, shortForms, decide_eq_decide.mpr hiff]
    have hcutl : (write (ps.take k) (shortForms limit (ps.take k)))[i]? = some ps[i].plain := by
      rw [getElem?_write, getElem?_take, if_pos hi, hget, map_some, shortForms, decide_eq_false hnot]
      rfl
    have hcutr : (write ps (shortForms limit ps))[i]? = some ps[i].hashed := by
      rw [getElem?_write, hget, map_some, shortForms, decide_eq_true hover]
      rfl
    obtain ⟨hleft, hleftget⟩ := List.getElem?_eq_some_iff.mp hcutl
    obtain ⟨hrt, hrigh⟩ := List.getElem?_eq_some_iff.mp hcutr
    rw [← take_append_drop i (write (ps.take k) _), ← take_append_drop i (write ps _), hbel,
      flatten_append, flatten_append, prefix_append_right_inj, drop_eq_getElem_cons hleft,
      drop_eq_getElem_cons hrt, hleftget, hrigh, flatten_cons, flatten_cons, hpl, hhashed,
      cons_append, cons_append, cons_prefix_cons] at hprefix
    exact hne hprefix.1
  · intro h
    have hsame : write (ps.take k) (shortForms limit (ps.take k)) = (write ps (shortForms limit ps)).take k := by
      rw [← write_take]
      apply write_congr
      intro j p hp
      have hj : j < k := by
        by_contra hge
        rw [getElem?_take, if_neg hge] at hp
        cases hp
      have hiff : Overflows limit (ps.take k) j ↔ Overflows limit ps j := ⟨Overflows.of_take, h j hj⟩
      rw [shortForms, shortForms, decide_eq_decide.mpr hiff]
    rw [hsame]
    refine ⟨((write ps (shortForms limit ps)).drop k).flatten, ?_⟩
    rw [← flatten_append, take_append_drop]

end OverGraph.ShrinkingTuples
