import Mathlib.Data.List.Sort

/-!
# Pages of a sorted list

Pages are cut from a sorted list that is computed again for each page: a page holds the first
entries with a key above the last key of the page before it. Entries that share a key with the
last entry of a page are skipped.
-/

namespace OverGraph.KeysetPages

open List Nat Std.OrientedCmp Std.TransCmp

variable {ρ κ : Type} (cmp : κ → κ → Ordering) (key : ρ → κ)

/-- The entries above a key. -/
def above (rows : List ρ) (last : κ) : List ρ := rows.filter fun row => (cmp (key row) last).isGT

/-- A page of what remains, with the key to go on after if something is left. -/
def page (limit : ℕ) (rest : List ρ) : List ρ × Option κ :=
  (rest.take limit, if limit < rest.length then (rest.take limit).getLast?.map key else none)

/-- The pages one after the other, from what remains, until there is no key to go on after. -/
def collect (limit : ℕ) (rows : List ρ) : ℕ → List ρ → Option (List ρ)
  | 0, _ => none
  | fuel + 1, rest =>
    match page key limit rest with
    | (entries, none) => some entries
    | (entries, some last) => (collect limit rows fuel (above cmp key rows last)).map (entries ++ ·)

/-- No boundary between two pages is between entries of one key. -/
def NoTie (limit : ℕ) (rest : List ρ) : Prop :=
  ∀ k, 0 < k → ∀ before a b after, rest = before ++ a :: b :: after → before.length + 1 = k * limit → cmp (key a) (key b) = .lt

variable {cmp key} [Std.TransCmp cmp] {limit : ℕ}

omit [Std.TransCmp cmp] in
/-- The first page ends well and so do the others. -/
theorem noTie_append_iff {before tail : List ρ} {a b : ρ} (hlen : before.length + 1 = limit) :
    NoTie cmp key limit (before ++ a :: b :: tail) ↔ cmp (key a) (key b) = .lt ∧ NoTie cmp key limit (b :: tail) := by
  constructor
  · intro h
    refine ⟨h 1 (by omega) before a b tail rfl (by omega), ?_⟩
    intro k hk fst x y after heq hfst
    refine h (k + 1) (by omega) (before ++ a :: fst) x y after ?_ ?_
    · rw [heq, append_assoc]
      rfl
    · rw [length_append, length_cons, Nat.add_mul, Nat.one_mul, ← hfst]
      omega
  · intro ⟨hlt, hrest⟩ k hk fst x y after heq hfst
    obtain rfl | ⟨k, rfl⟩ : k = 1 ∨ ∃ j, k = j + 2 := by
      rcases k with _ | _ | k
      · omega
      · exact Or.inl rfl
      · exact Or.inr ⟨k, rfl⟩
    · have hsame : before.length = fst.length := by omega
      obtain ⟨-, hcons⟩ := append_inj heq hsame
      simp only [List.cons.injEq] at hcons
      rw [← hcons.1, ← hcons.2.1]
      exact hlt
    · have hlong : before.length + 1 ≤ fst.length := by
        have : (k + 2) * limit = (k + 1) * limit + limit := by rw [show k + 2 = (k + 1) + 1 from rfl, succ_mul]
        have : limit ≤ (k + 1) * limit := Nat.le_mul_of_pos_left _ (by omega)
        omega
      have hdrop := congrArg (drop (before.length + 1)) heq
      have hleft : (before ++ a :: b :: tail).drop (before.length + 1) = b :: tail := by
        rw [show before ++ a :: b :: tail = (before ++ [a]) ++ b :: tail by simp,
          show before.length + 1 = (before ++ [a]).length by simp, drop_left]
      rw [hleft, drop_append_of_le_length hlong] at hdrop
      refine hrest (k + 1) (by omega) (fst.drop (before.length + 1)) x y after hdrop ?_
      rw [length_drop]
      have : (k + 2) * limit = (k + 1) * limit + limit := by rw [show k + 2 = (k + 1) + 1 from rfl, succ_mul]
      omega

/-- In a sorted list the entries above a key are the end of the list. -/
theorem eq_append_above (last : κ) : ∀ {rows : List ρ},
    rows.Pairwise (fun a b => (cmp (key a) (key b)).isLE) →
    ∃ fst, rows = fst ++ above cmp key rows last ∧ ∀ row ∈ fst, (cmp (key row) last).isGT = false
  | [], _ => ⟨[], rfl, by simp⟩
  | row :: rows, h => by
    obtain ⟨hrow, hrows⟩ := pairwise_cons.mp h
    by_cases hgt : (cmp (key row) last).isGT
    · have hall : above cmp key rows last = rows := by
        refine filter_eq_self.mpr fun other hoth => ?_
        have hle := hrow other hoth
        have hlt : cmp last (key row) = .lt := lt_of_gt (by simpa using hgt)
        have hlt' : cmp last (key other) = .lt := lt_of_lt_of_isLE hlt hle
        rw [gt_of_lt hlt']
        rfl
      refine ⟨[], ?_, by simp⟩
      rw [above, filter_cons, if_pos hgt]
      change row :: rows = row :: above cmp key rows last
      rw [hall]
    · obtain ⟨fst, heq, hfst⟩ := eq_append_above last hrows
      refine ⟨row :: fst, ?_, ?_⟩
      · rw [above, filter_cons, if_neg hgt, cons_append]
        exact congrArg (row :: ·) heq
      · intro other hoth
        rcases mem_cons.mp hoth with rfl | hoth
        · exact Bool.eq_false_iff.mpr hgt
        · exact hfst other hoth

/-- Following the keys from what remains ends. It returns all that remains if no boundary
between two pages is between entries of one key, and otherwise less. -/
theorem collect_spec (hlim : 0 < limit) {rows : List ρ}
    (hsort : rows.Pairwise fun a b => (cmp (key a) (key b)).isLE) :
    ∀ (fuel : ℕ) (done rest : List ρ), rows = done ++ rest → rest.length < fuel →
      ∃ pages, collect cmp key limit rows fuel rest = some pages ∧ pages.length ≤ rest.length ∧
        (NoTie cmp key limit rest → pages = rest) ∧ (pages.length = rest.length → NoTie cmp key limit rest) := by
  intro fuel
  induction fuel with
  | zero =>
    intro done rest _ hfuel
    omega
  | succ fuel ih =>
    intro done rest hrows hfuel
    by_cases hmore : limit < rest.length
    · -- the page ends with `last`, and `b` is the fst entry after it
      obtain ⟨before, last, hpage⟩ : ∃ before last, rest.take limit = before ++ [last] := by
        rcases eq_nil_or_concat (rest.take limit) with hnil | ⟨before, last, h⟩
        · rw [take_eq_nil_iff] at hnil
          rcases hnil with h | h
          · omega
          · rw [h] at hmore
            simp at hmore
        · exact ⟨before, last, by simpa using h⟩
      obtain ⟨b, tail, htail⟩ : ∃ b tail, rest.drop limit = b :: tail := by
        cases hdrop : rest.drop limit with
        | nil =>
          rw [drop_eq_nil_iff] at hdrop
          omega
        | cons b tail => exact ⟨b, tail, rfl⟩
      have hrest : rest = before ++ last :: b :: tail := by
        rw [← take_append_drop limit rest, hpage, htail, append_assoc]
        rfl
      have hlen : before.length + 1 = limit := by
        have := congrArg List.length hpage
        rw [length_take, min_eq_left (le_of_lt hmore), length_append] at this
        simpa using this.symm
      have hrows' : rows = (done ++ before ++ [last]) ++ b :: tail := by
        rw [hrows, hrest]
        simp
      have hpairs := hsort
      rw [hrows'] at hpairs
      obtain ⟨hleft, hrt, hx⟩ := pairwise_append.mp hpairs
      -- nothing up to the end of the page is above its last key
      have hbel : above cmp key rows (key last) = above cmp key (b :: tail) (key last) := by
        have hnone : above cmp key (done ++ before ++ [last]) (key last) = [] := by
          refine filter_eq_nil_iff.mpr fun row hrow => ?_
          have hle : (cmp (key row) (key last)).isLE := by
            rcases mem_append.mp hrow with hrow | hrow
            · exact (pairwise_append.mp hleft).2.2 row hrow last (by simp)
            · have hself : cmp (key last) (key last) = .eq := Std.ReflCmp.compare_self
              rw [mem_singleton.mp hrow, hself]
              rfl
          cases hcmp : cmp (key row) (key last) with
          | lt | eq => simp
          | gt =>
            rw [hcmp] at hle
            cases hle
        rw [hrows', above, filter_append]
        change above cmp key (done ++ before ++ [last]) (key last) ++ _ = _
        rw [hnone]
        rfl
      obtain ⟨fst, hsp, hfst⟩ := eq_append_above (key last) hrt
      obtain ⟨pages, hcol, hle, hall, hnoTie⟩ := ih (done ++ before ++ [last] ++ fst)
        (above cmp key rows (key last)) (by rw [hbel, append_assoc, ← hsp, hrows'])
        (by
          have := congrArg List.length hsp
          rw [← hbel, length_append] at this
          rw [hrest] at hfuel
          simp only [length_append, length_cons] at hfuel this
          omega)
      have hres : collect cmp key limit rows (fuel + 1) rest = some (before ++ [last] ++ pages) := by
        simp only [collect, page, if_pos hmore, hpage, List.getLast?_append, List.getLast?_singleton, Option.some_or, Option.map_some, hcol]
      refine ⟨_, hres, ?_, ?_⟩
      · have := congrArg List.length hsp
        rw [← hbel, length_append] at this
        rw [hrest]
        simp only [length_append, length_cons, length_nil] at this ⊢
        omega
      · rw [hrest, noTie_append_iff hlen]
        by_cases hlt : cmp (key last) (key b) = .lt
        · -- all that is left is above the page
          have hkept : above cmp key rows (key last) = b :: tail := by
            rw [hbel]
            cases fst with
            | nil => exact hsp.symm
            | cons row fst =>
              obtain ⟨rfl, -⟩ := List.cons.inj hsp
              have hnot := hfst b (by simp)
              rw [gt_of_lt hlt] at hnot
              cases hnot
          rw [hkept] at hall hnoTie
          constructor
          · intro h
            rw [hall h.2]
            simp
          · intro h
            refine ⟨hlt, hnoTie ?_⟩
            simp only [length_append, length_cons, length_nil] at h ⊢
            omega
        · -- an entry with the last key is lost
          have hlost : (above cmp key rows (key last)).length < (b :: tail).length := by
            cases fst with
            | nil =>
              have hb : b ∈ above cmp key (b :: tail) (key last) := by
                rw [← nil_append (above cmp key (b :: tail) (key last)), ← hsp]
                simp
              have hgt : cmp (key b) (key last) = .gt := by simpa using (mem_filter.mp hb).2
              exact absurd (lt_of_gt hgt) hlt
            | cons row fst =>
              have := congrArg List.length hsp
              rw [← hbel] at this
              simp only [length_append, length_cons] at this ⊢
              omega
          constructor
          · intro h
            exact absurd h.1 hlt
          · intro h
            simp only [length_append, length_cons, length_nil] at h hlost
            omega
    · have hall : rest.take limit = rest := take_of_length_le (by omega)
      refine ⟨rest, ?_, le_refl _, ?_⟩
      · simp only [collect, page, if_neg hmore, hall]
      · refine ⟨fun _ => rfl, fun _ k hk before a b after heq hlen => ?_⟩
        have hlong : rest.length = before.length + (after.length + 2) := by
          rw [heq, length_append]
          rfl
        have : limit ≤ k * limit := Nat.le_mul_of_pos_left _ hk
        omega

/-- How many entries have a smaller key. -/
def below (cmp : κ → κ → Ordering) (key : ρ → κ) (rows : List ρ) (row : ρ) : ℕ := rows.countP fun other => (cmp (key other) (key row)).isLT

/-- How many entries have a key that is not larger. -/
def upTo (cmp : κ → κ → Ordering) (key : ρ → κ) (rows : List ρ) (row : ρ) : ℕ := rows.countP fun other => (cmp (key other) (key row)).isLE

/-- A boundary is between the entries that share the key of an entry. -/
def Splits (cmp : κ → κ → Ordering) (key : ρ → κ) (skip limit : ℕ) (rows : List ρ) (row : ρ) : Prop :=
  ∃ k, 0 < k ∧ below cmp key rows row < skip + k * limit ∧ skip + k * limit < upTo cmp key rows row

omit [Std.TransCmp cmp] in
theorem splits_congr {rows other : List ρ} (h : rows.Perm other) (skip limit : ℕ) (row : ρ) :
    Splits cmp key skip limit rows row ↔ Splits cmp key skip limit other row := by
  rw [Splits, Splits, below, below, upTo, upTo, h.countP_eq, h.countP_eq]

/-- The entries at a place and before it have the key of an entry if and only if its rank says
so. -/
theorem tie_iff_rank {before after : List ρ} {a b : ρ}
    (hsort : (before ++ a :: b :: after).Pairwise fun a b => (cmp (key a) (key b)).isLE) :
    cmp (key a) (key b) ≠ .lt ↔ ∃ row ∈ before ++ a :: b :: after,
      below cmp key (before ++ a :: b :: after) row < before.length + 1 ∧
        before.length + 1 < upTo cmp key (before ++ a :: b :: after) row := by
  obtain ⟨hbef, hrest, hx⟩ := pairwise_append.mp hsort
  obtain ⟨ha, htail⟩ := pairwise_cons.mp hrest
  obtain ⟨hb, -⟩ := pairwise_cons.mp htail
  have hself : ∀ row : ρ, cmp (key row) (key row) = .eq := fun _ => Std.ReflCmp.compare_self
  constructor
  · intro htie
    have hab : cmp (key a) (key b) = .eq := by
      have hle := ha b (by simp)
      cases hcmp : cmp (key a) (key b) with
      | lt => exact absurd hcmp htie
      | eq => rfl
      | gt =>
        rw [hcmp] at hle
        cases hle
    refine ⟨b, by simp, ?_, ?_⟩
    · have hnone : after.countP (fun other => (cmp (key other) (key b)).isLT) = 0 := by
        refine countP_eq_zero.mpr fun other hoth hlt => ?_
        exact not_lt_of_isLE (hb other hoth) (by simpa using hlt)
      have hfst : before.countP (fun other => (cmp (key other) (key b)).isLT) ≤ before.length := countP_le_length
      simp only [below, countP_append, countP_cons, hnone, hab, hself]
      simp
      omega
    · have hall : before.countP (fun other => (cmp (key other) (key b)).isLE) = before.length :=
        countP_eq_length.mpr fun other hoth => hx other hoth b (by simp)
      simp only [upTo, countP_append, countP_cons, hall, hab, hself]
      simp
  · rintro ⟨row, hrow, hbel, hupTo⟩ hlt
    by_cases hrow_a : (cmp (key row) (key a)).isLE
    · -- then `b` and all after it have larger keys
      have hgt : ∀ other ∈ b :: after, (cmp (key other) (key row)).isLE = false := by
        intro other hoth
        have hle : (cmp (key b) (key other)).isLE := by
          rcases mem_cons.mp hoth with rfl | hoth
          · rw [hself]
            rfl
          · exact hb other hoth
        have hrow_lt : cmp (key row) (key other) = .lt := lt_of_isLE_of_lt hrow_a (lt_of_lt_of_isLE hlt hle)
        rw [gt_of_lt hrow_lt]
        rfl
      have hnone : (b :: after).countP (fun other => (cmp (key other) (key row)).isLE) = 0 :=
        countP_eq_zero.mpr fun other hoth => by simp [hgt other hoth]
      have hfst : (before ++ [a]).countP (fun other => (cmp (key other) (key row)).isLE) ≤
          (before ++ [a]).length := countP_le_length
      rw [upTo, show before ++ a :: b :: after = (before ++ [a]) ++ b :: after by simp, countP_append, hnone] at hupTo
      rw [length_append] at hfst
      simp only [length_singleton] at hfst
      omega
    · -- then `a` and all before it have smaller keys
      have hlt_row : ∀ other ∈ before ++ [a], (cmp (key other) (key row)).isLT := by
        intro other hoth
        have hle : (cmp (key other) (key a)).isLE := by
          rcases mem_append.mp hoth with hoth | hoth
          · exact hx other hoth a (by simp)
          · rw [mem_singleton.mp hoth, hself]
            rfl
        have ha_row : cmp (key a) (key row) = .lt := lt_of_not_isLE hrow_a
        rw [lt_of_isLE_of_lt hle ha_row]
        rfl
      have hall : (before ++ [a]).countP (fun other => (cmp (key other) (key row)).isLT) =
          (before ++ [a]).length := countP_eq_length.mpr hlt_row
      rw [below, show before ++ a :: b :: after = (before ++ [a]) ++ b :: after by simp, countP_append, hall, length_append] at hbel
      simp only [length_singleton] at hbel
      omega

/-- No boundary is between entries of one key if and only if the ranks say so. -/
theorem noTie_drop_iff (hlim : 0 < limit) {rows : List ρ}
    (hsort : rows.Pairwise fun a b => (cmp (key a) (key b)).isLE) (skip : ℕ) :
    NoTie cmp key limit (rows.drop skip) ↔ ∀ row ∈ rows, ¬Splits cmp key skip limit rows row := by
  constructor
  · intro h row hrow ⟨k, hk, hbel, hupTo⟩
    have hlong : upTo cmp key rows row ≤ rows.length := countP_le_length
    have hkl : 0 < k * limit := Nat.mul_pos hk hlim
    -- the boundary is inside the list
    obtain ⟨a, tail, hfst⟩ : ∃ a tail, rows.drop (skip + k * limit - 1) = a :: tail := by
      cases hdrop : rows.drop (skip + k * limit - 1) with
      | nil =>
        rw [drop_eq_nil_iff] at hdrop
        omega
      | cons a tail => exact ⟨a, tail, rfl⟩
    have htail : rows.drop (skip + k * limit) = tail := by
      rw [show skip + k * limit = (skip + k * limit - 1) + 1 by omega, ← drop_drop, hfst]
      rfl
    obtain ⟨b, after, rfl⟩ : ∃ b after, tail = b :: after := by
      cases tail with
      | nil =>
        rw [drop_eq_nil_iff] at htail
        omega
      | cons b after => exact ⟨b, after, rfl⟩
    have hsp : rows = rows.take (skip + k * limit - 1) ++ a :: b :: after := by rw [← hfst, take_append_drop]
    have hlen : (rows.take (skip + k * limit - 1)).length = skip + k * limit - 1 := by
      rw [length_take]
      omega
    have htie : cmp (key a) (key b) ≠ .lt := by
      rw [hsp] at hsort
      refine (tie_iff_rank hsort).mpr ⟨row, ?_, ?_, ?_⟩
      · rwa [← hsp]
      · rw [← hsp, hlen]
        omega
      · rw [← hsp, hlen]
        omega
    refine htie (h k hk ((rows.take (skip + k * limit - 1)).drop skip) a b after ?_ ?_)
    · conv_lhs => rw [hsp]
      rw [drop_append_of_le_length (by omega)]
    · rw [length_drop, hlen]
      omega
  · intro h k hk before a b after heq hlen
    by_contra hlt
    have hskip : skip ≤ rows.length := by
      by_contra hlong
      rw [drop_eq_nil_iff.mpr (by omega)] at heq
      simp at heq
    have hsp : rows = (rows.take skip ++ before) ++ a :: b :: after := by rw [append_assoc, ← heq, take_append_drop]
    have hplace : (rows.take skip ++ before).length + 1 = skip + k * limit := by
      rw [length_append, length_take]
      omega
    have hpairs := hsort
    rw [hsp] at hpairs
    obtain ⟨row, hrow, hbel, hupTo⟩ := (tie_iff_rank hpairs).mp hlt
    rw [← hsp] at hrow hbel hupTo
    exact h row hrow ⟨k, hk, by omega, by omega⟩

end OverGraph.KeysetPages
