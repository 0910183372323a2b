import Mathlib.Data.List.TakeWhile

/-!
# Searching a sorted list by halving

The side of an entry says whether it lies before the target, at it or after it. Halving finds an
entry at the target whenever there is one, though not necessarily the first, and the first entry
that does not lie before it.
-/

namespace OverGraph.Bisection

open List Option Nat

variable {α : Type*} (side : α → Ordering)

/-- No entry before the target follows one that is not, and none after it precedes one that is not. -/
def Ordered (es : List α) : Prop := es.Pairwise fun a b => (side b = .lt → side a = .lt) ∧ (side a = .gt → side b = .gt)

/-- Each round halves the range at least, so its length bounds the rounds. -/
def bisectLoop (es : List α) : ℕ → ℕ → ℕ → Option α
  | 0, _, _ => none
  | rds + 1, lo, hi =>
    if lo < hi then
      match es[lo + (hi - lo) / 2]? with
      | none => none
      | some ent =>
        match side ent with
        | .lt => bisectLoop es rds (lo + (hi - lo) / 2 + 1) hi
        | .gt => bisectLoop es rds lo (lo + (hi - lo) / 2)
        | .eq => some ent
    else none

/-- Some entry at the target. -/
def bisect (es : List α) : Option α := bisectLoop side es es.length 0 es.length

def lowerBoundLoop (es : List α) : ℕ → ℕ → ℕ → ℕ
  | 0, lo, _ => lo
  | rds + 1, lo, hi =>
    if lo < hi then
      if (es[lo + (hi - lo) / 2]?).any fun ent => side ent == .lt then
        lowerBoundLoop es rds (lo + (hi - lo) / 2 + 1) hi
      else lowerBoundLoop es rds lo (lo + (hi - lo) / 2)
    else lo

/-- The first position whose entry does not lie before the target. -/
def lowerBound (es : List α) : ℕ := lowerBoundLoop side es es.length 0 es.length

/-- The entries at the target, from the first one on. -/
def equalRun (es : List α) : List α := (es.drop (lowerBound side es)).takeWhile fun ent => side ent == .eq

variable {side} {es : List α} {rds lo hi : ℕ}

theorem mem_of_bisectLoop {ent : α} (h : bisectLoop side es rds lo hi = some ent) : ent ∈ es ∧ side ent = .eq := by
  induction rds generalizing lo hi with
  | zero => cases h
  | succ rds ih =>
    rw [bisectLoop] at h
    split at h
    · cases hmid : es[lo + (hi - lo) / 2]? with
      | none =>
        rw [hmid] at h
        cases h
      | some middle =>
        rw [hmid] at h
        cases hside : side middle with
        | lt | gt => exact ih (by simpa only [hside] using h)
        | eq =>
          obtain rfl : middle = ent := by simpa only [hside, some.injEq] using h
          exact ⟨mem_of_getElem? hmid, hside⟩
    · cases h

theorem mem_of_bisect {ent : α} (h : bisect side es = some ent) : ent ∈ es ∧ side ent = .eq := mem_of_bisectLoop h

/-- Entries in the order of a key are ordered around every target. -/
theorem ordered_compare {β : Type*} [Ord β] [Std.TransOrd β] {key : α → β}
    (h : es.Pairwise fun a b => compare (key a) (key b) = .lt) (tgt : β) :
    Ordered (fun ent => compare (key ent) tgt) es := by
  refine h.imp fun {a b} hab => ⟨fun hb => Std.TransCmp.lt_trans hab hb, fun ha => ?_⟩
  exact Std.OrientedCmp.gt_iff_lt.mpr (Std.TransCmp.lt_trans (Std.OrientedCmp.gt_iff_lt.mp ha) hab)

variable {i : ℕ}

section
variable (hord : Ordered side es)
include hord

theorem Ordered.before {j : ℕ} {a b : α} (hij : i < j) (ha : es[i]? = some a) (hb : es[j]? = some b) :
    (side b = .lt → side a = .lt) ∧ (side a = .gt → side b = .gt) := by
  obtain ⟨hi, rfl⟩ := List.getElem?_eq_some_iff.mp ha
  obtain ⟨hj, rfl⟩ := List.getElem?_eq_some_iff.mp hb
  exact pairwise_iff_getElem.mp hord i j hi hj hij

/-- An entry at the target lies behind every entry before the target and ahead of every entry after it. -/
theorem Ordered.position {j : ℕ} {ent other : α} (hent : es[i]? = some ent) (heq : side ent = .eq)
    (hoth : es[j]? = some other) : (side other = .lt → j < i) ∧ (side other = .gt → i < j) := by
  constructor
  · intro hlt
    by_contra hle
    rcases lt_or_ge i j with hbef | hat
    · rw [(hord.before hbef hent hoth).1 hlt] at heq
      cases heq
    · obtain rfl : i = j := by omega
      rw [some.inj (hoth.symm.trans hent), heq] at hlt
      cases hlt
  · intro hgt
    by_contra hle
    rcases lt_or_ge j i with haft | hat
    · rw [(hord.before haft hoth hent).2 hgt] at heq
      cases heq
    · obtain rfl : i = j := by omega
      rw [some.inj (hoth.symm.trans hent), heq] at hgt
      cases hgt

variable {ent : α}

/-- An entry at the target lies on the half that is kept. -/
theorem bisectLoop_ne_none (hrds : hi - lo ≤ rds) (hhi : hi ≤ es.length)
    (hlo : lo ≤ i) (hi' : i < hi) (hent : es[i]? = some ent) (heq : side ent = .eq) :
    bisectLoop side es rds lo hi ≠ none := by
  induction rds generalizing lo hi with
  | zero => omega
  | succ rds ih =>
    obtain ⟨middle, hmid⟩ : ∃ middle, es[lo + (hi - lo) / 2]? = some middle := ⟨_, getElem?_eq_getElem (by omega)⟩
    have hpos' := hord.position hent heq hmid
    rw [bisectLoop, if_pos (by omega), hmid]
    cases hside : side middle with
    | lt =>
      have hlt := hpos'.1 hside
      simp only [hside]
      exact ih (by omega) hhi (by omega) hi'
    | gt =>
      have hgt := hpos'.2 hside
      simp only [hside]
      exact ih (by omega) (by omega) hlo (by omega)
    | eq =>
      simp only [hside]
      exact some_ne_none middle

/-- Halving finds an entry at the target if there is one. -/
theorem bisect_eq_none_iff : bisect side es = none ↔ ∀ ent ∈ es, side ent ≠ .eq := by
  constructor
  · intro hnone ent hent heq
    obtain ⟨i, hi⟩ := mem_iff_getElem?.mp hent
    have hlt := (List.getElem?_eq_some_iff.mp hi).1
    exact bisectLoop_ne_none hord (sub_le _ _) le_rfl (Nat.zero_le i) hlt hi heq hnone
  · intro hall
    cases hfnd : bisect side es with
    | none => rfl
    | some ent =>
      obtain ⟨hmem, heq⟩ := mem_of_bisect hfnd
      exact absurd heq (hall ent hmem)

omit hord in
theorem lt_cut_iff {cut : ℕ} (hbef : ∀ i ent, i < cut → es[i]? = some ent → side ent = .lt)
    (haft : ∀ i ent, cut ≤ i → es[i]? = some ent → side ent ≠ .lt)
    (hent : es[i]? = some ent) : i < cut ↔ side ent = .lt := by
  constructor
  · intro hlt
    exact hbef i ent hlt hent
  · intro hside
    by_contra hge
    exact haft i ent (by omega) hent hside

/-- The range keeps the positions before the target on its left and the others on its right. -/
theorem lowerBoundLoop_splits (hrds : hi - lo ≤ rds) (hle : lo ≤ hi) (hhi : hi ≤ es.length)
    (hbef : ∀ i ent, i < lo → es[i]? = some ent → side ent = .lt)
    (haft : ∀ i ent, hi ≤ i → es[i]? = some ent → side ent ≠ .lt)
    (hent : es[i]? = some ent) : i < lowerBoundLoop side es rds lo hi ↔ side ent = .lt := by
  induction rds generalizing lo hi with
  | zero =>
    obtain rfl : lo = hi := by omega
    exact lt_cut_iff hbef haft hent
  | succ rds ih =>
    rw [lowerBoundLoop]
    split
    · rename_i hlt
      obtain ⟨middle, hmid⟩ : ∃ middle, es[lo + (hi - lo) / 2]? = some middle := ⟨_, getElem?_eq_getElem (by omega)⟩
      rw [hmid, any_some]
      split
      · rename_i hbel
        have hleft : ∀ j other, j < lo + (hi - lo) / 2 + 1 → es[j]? = some other → side other = .lt := by
          intro j other hj hoth
          rcases lt_or_ge j (lo + (hi - lo) / 2) with hlt' | hge
          · exact (hord.before hlt' hoth hmid).1 (beq_iff_eq.mp hbel)
          · obtain rfl : j = lo + (hi - lo) / 2 := by omega
            rw [some.inj (hoth.symm.trans hmid)]
            exact beq_iff_eq.mp hbel
        exact ih (by omega) (by omega) hhi hleft haft
      · rename_i hbel
        have hrt : ∀ j other, lo + (hi - lo) / 2 ≤ j → es[j]? = some other → side other ≠ .lt := by
          intro j other hj hoth hside
          apply hbel
          rcases lt_or_ge (lo + (hi - lo) / 2) j with hlt' | hge
          · exact beq_iff_eq.mpr ((hord.before hlt' hmid hoth).1 hside)
          · obtain rfl : j = lo + (hi - lo) / 2 := by omega
            rw [some.inj (hmid.symm.trans hoth)]
            exact beq_iff_eq.mpr hside
        exact ih (by omega) (by omega) (by omega) hbef hrt
    · obtain rfl : lo = hi := by omega
      exact lt_cut_iff hbef haft hent

theorem lt_lowerBound_iff (hent : es[i]? = some ent) : i < lowerBound side es ↔ side ent = .lt := by
  apply lowerBoundLoop_splits hord (sub_le _ _) (Nat.zero_le _) le_rfl _ _ hent
  · intro j _ hj
    omega
  · intro j other hj hoth
    have hlt := (List.getElem?_eq_some_iff.mp hoth).1
    omega

/-- The run that starts at the lower bound holds every entry at the target. -/
theorem mem_equalRun : ent ∈ equalRun side es ↔ ent ∈ es ∧ side ent = .eq := by
  constructor
  · intro hmem
    rw [equalRun] at hmem
    have hside := mem_takeWhile_imp hmem
    exact ⟨mem_of_mem_drop ((takeWhile_sublist _).subset hmem), beq_iff_eq.mp hside⟩
  · rintro ⟨hmem, heq⟩
    obtain ⟨i, hi⟩ := mem_iff_getElem?.mp hmem
    have hst : lowerBound side es ≤ i := by
      by_contra hlt
      have hside := (lt_lowerBound_iff hord hi).mp (by omega)
      rw [heq] at hside
      cases hside
    have hsplits : ∀ j other, es[j]? = some other → (j < lowerBound side es ↔ side other = .lt) :=
      fun j other hoth => lt_lowerBound_iff hord hoth
    rw [equalRun]
    generalize lowerBound side es = start at hsplits hst
    -- every entry from the lower bound up to this one lies at the target
    have hdrop : es.drop start = (es.drop start).take (i - start) ++ es.drop i := by
      have hsp := take_append_drop (i - start) (es.drop start)
      rw [drop_drop, Nat.add_sub_cancel' hst] at hsp
      exact hsp.symm
    have hhead : es.drop i = ent :: es.drop (i + 1) := by
      obtain ⟨hlt, hget⟩ := List.getElem?_eq_some_iff.mp hi
      rw [drop_eq_getElem_cons hlt, hget]
    rw [hdrop, hhead, takeWhile_append_of_pos, takeWhile_cons_of_pos (by rw [heq]; rfl)]
    · exact mem_append_right _ mem_cons_self
    · intro other hoth
      obtain ⟨j, hj⟩ := mem_iff_getElem?.mp hoth
      rw [getElem?_take] at hj
      split at hj
      · rename_i hjlt
        rw [getElem?_drop] at hj
        have hnotlt := mt (hsplits (start + j) other hj).mpr (by omega)
        have hnotgt := mt (hord.before (by omega : start + j < i) hj hi).2 (by rw [heq]; exact Ordering.noConfusion)
        cases hside : side other with
        | lt => exact absurd hside hnotlt
        | eq => rfl
        | gt => exact absurd hside hnotgt
      · cases hj

end

section
variable {below : α → Bool}

/-- No entry that passes the test follows one that fails it. -/
def Closed (below : α → Bool) (es : List α) : Prop := es.Pairwise fun a b => below b = true → below a = true

/-- The first position of a range whose entry fails the test. -/
def cutBetween (below : α → Bool) (es : List α) (start stop : ℕ) : ℕ :=
  lowerBoundLoop (fun ent => if below ent then .lt else .gt) es (stop - start) start stop

def cut (below : α → Bool) (es : List α) : ℕ := cutBetween below es 0 es.length

theorem lowerBoundLoop_eq {cut : ℕ} (hrds : hi - lo ≤ rds) (hlo : lo ≤ cut) (hhi : cut ≤ hi)
    (hcut : ∀ i, lo ≤ i → i < hi → ((es[i]?).any (fun ent => side ent == .lt) = true ↔ i < cut)) :
    lowerBoundLoop side es rds lo hi = cut := by
  induction rds generalizing lo hi with
  | zero =>
    rw [lowerBoundLoop]
    omega
  | succ rds ih =>
    rw [lowerBoundLoop]
    split
    · have hmid := hcut (lo + (hi - lo) / 2) (by omega) (by omega)
      split
      · rename_i hbel
        have hlt := hmid.mp hbel
        exact ih (by omega) (by omega) hhi fun i hi' => hcut i (by omega)
      · rename_i hbel
        have hge := mt hmid.mpr hbel
        exact ih (by omega) hlo (by omega) fun i hi' hi'' => hcut i hi' (by omega)
    · omega

/-- The entries that pass come first. -/
theorem Closed.split (hcl : Closed below es) : es.filter below ++ es.filter (fun ent => !below ent) = es := by
  induction es with
  | nil => rfl
  | cons ent es ih =>
    obtain ⟨hhead, htail⟩ := pairwise_cons.mp hcl
    cases hbel : below ent with
    | true => rw [filter_cons_of_pos hbel, filter_cons_of_neg (by rw [hbel]; simp), cons_append, ih htail]
    | false =>
      have hnone : ∀ other ∈ es, below other = false := by
        intro other hoth
        by_contra hpass
        rw [hhead other hoth (by simpa using hpass)] at hbel
        cases hbel
      have hfil : es.filter below = [] := filter_eq_nil_iff.mpr fun other hoth => by simp [hnone other hoth]
      have hkept : es.filter (fun ent => !below ent) = es := filter_eq_self.mpr fun other hoth => by simp [hnone other hoth]
      rw [filter_cons_of_neg (by rw [hbel]; simp), filter_cons_of_pos (by rw [hbel]; rfl), hfil, hkept, nil_append]

theorem Closed.getElem?_any (hcl : Closed below es) : (es[i]?).any below = true ↔ i < es.countP below := by
  rw [countP_eq_length_filter]
  constructor
  · intro hpass
    by_contra hge
    rw [← hcl.split, getElem?_append_right (by omega), Option.any_eq_true] at hpass
    obtain ⟨ent, hent, hbel⟩ := hpass
    have hfails := (mem_filter.mp (mem_of_getElem? hent)).2
    rw [hbel] at hfails
    cases hfails
  · intro hlt
    rw [← hcl.split, getElem?_append_left hlt, getElem?_eq_getElem hlt]
    exact (mem_filter.mp (getElem_mem hlt)).2

/-- Halving a range counts the entries in it that pass. -/
theorem cutBetween_eq {start stop : ℕ} (hst : start ≤ stop) (hstop : stop ≤ es.length)
    (hcl : Closed below ((es.drop start).take (stop - start))) :
    cutBetween below es start stop = start + ((es.drop start).take (stop - start)).countP below := by
  have hcnt := countP_le_length (p := below) (l := (es.drop start).take (stop - start))
  rw [length_take, length_drop] at hcnt
  apply lowerBoundLoop_eq le_rfl (by omega) (by omega)
  intro i hi hi'
  have hpos' := hcl.getElem?_any (i := i - start)
  rw [List.getElem?_take_of_lt (by omega), getElem?_drop, Nat.add_sub_cancel' hi] at hpos'
  have htest : (fun ent : α => (if below ent then Ordering.lt else Ordering.gt) == .lt) = below := by
    funext ent
    cases below ent <;> rfl
  rw [htest, hpos']
  omega

section
variable (hcl : Closed below es)
include hcl

theorem cut_eq : cut below es = es.countP below := by
  have hall : (es.drop 0).take (es.length - 0) = es := by rw [drop_zero, Nat.sub_zero, take_length]
  rw [cut, cutBetween_eq (Nat.zero_le _) le_rfl (by rw [hall]; exact hcl), hall, Nat.zero_add]

theorem Closed.drop : es.drop (es.countP below) = es.filter fun ent => !below ent := by
  have hsp := congrArg (List.drop (es.countP below)) hcl.split
  rw [countP_eq_length_filter, drop_left] at hsp
  rw [countP_eq_length_filter, hsp]

theorem Closed.take : es.take (es.countP below) = es.filter below := by
  have hsp := congrArg (List.take (es.countP below)) hcl.split
  rw [countP_eq_length_filter, take_left] at hsp
  rw [countP_eq_length_filter]
  exact hsp.symm

theorem Closed.countP_drop {start : ℕ} : (es.drop start).countP below = es.countP below - start := by
  induction es generalizing start with
  | nil => simp
  | cons ent es ih =>
    obtain ⟨hhead, htail⟩ := pairwise_cons.mp hcl
    cases start with
    | zero => rfl
    | succ start =>
      rw [drop_succ_cons, ih htail, countP_cons]
      split
      · omega
      · rename_i hfails
        have hnone : es.countP below = 0 := countP_eq_zero.mpr fun other hoth hpass => hfails (hhead other hoth hpass)
        omega

theorem Closed.filter_drop {start : ℕ} :
    (es.drop start).filter below = (es.drop start).take (es.countP below - start) := by
  have hdrop : Closed below (es.drop start) := hcl.sublist (drop_sublist _ _)
  rw [← hdrop.take, hcl.countP_drop]

end

end

end OverGraph.Bisection
