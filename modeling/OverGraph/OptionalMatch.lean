import Mathlib.Data.List.Perm.Basic
import Mathlib.Data.List.Perm.Lattice
import Mathlib.Data.List.Dedup

/-!
# Optional matches of a pipeline

An optional match joins each incoming row with its matches, or extends it by nulls. The
matches of all rows are computed at once; a candidate filter then puts them back to their
rows through the key of the incoming slots, so that rows with one key share their matches.
-/

namespace OverGraph.OptionalMatch

open List List.Perm

/-- A row of bindings by slot, `none` where the slot is null. Two values are the same if
their canonical keys are. -/
abbrev Row (V : Type) := ℕ → Option V

variable {V : Type} [DecidableEq V]

/-- Take the given slots from another row. -/
def copySlotsFrom (row source : Row V) (slots : List ℕ) : Row V := fun slot => if slot ∈ slots then source slot else row slot

def setNull (row : Row V) (slots : List ℕ) : Row V := fun slot => if slot ∈ slots then none else row slot

def keyForSlots (slots : List ℕ) (row : Row V) : List (Option V) := slots.map row

def anySlotNull (row : Row V) (slots : List ℕ) : Bool := slots.any fun slot => (row slot).isNone

/-- The plan of an optional match. The pattern yields, from a row that binds its dependency
slots, the rows of its pieces that pass the condition of the group. -/
structure MatchStage (V : Type) where
  inputSlots : List ℕ
  optionalSlots : List ℕ
  dependencySlots : List ℕ
  introducedSlots : List ℕ
  /-- The constraints on nodes that incoming rows bind. -/
  seedAccepts : Row V → Bool
  patternRows : Row V → List (Row V)
  dependency_subset : dependencySlots ⊆ inputSlots
  optional_fresh : ∀ slot ∈ optionalSlots, slot ∉ inputSlots
  introduced_fresh : ∀ slot ∈ introducedSlots, slot ∉ inputSlots
  optional_subset : optionalSlots ⊆ introducedSlots
  /-- A row of the pattern keeps what it depends on. -/
  keeps : ∀ row, ∀ hit ∈ patternRows row, ∀ slot ∈ dependencySlots, hit slot = row slot
  /-- What a pattern binds depends on its dependency slots only. -/
  local_rows : ∀ row other, (∀ slot ∈ dependencySlots, row slot = other slot) →
    (patternRows row).map (fun hit => copySlotsFrom (fun _ => none) hit introducedSlots) =
      (patternRows other).map fun hit => copySlotsFrom (fun _ => none) hit introducedSlots
  /-- A row of the pattern binds one of the optional slots, if there are any. -/
  binds : optionalSlots ≠ [] → ∀ row, ∀ hit ∈ patternRows row, ∃ slot ∈ optionalSlots, hit slot ≠ none

namespace MatchStage
variable (stage : MatchStage V)

/-- The incoming rows in the schema of the stage. -/
def bridgeRows (rows : List (Row V)) : List (Row V) := rows.map fun row slot => if slot ∈ stage.inputSlots then row slot else none

def inputKey (row : Row V) : List (Option V) := keyForSlots stage.inputSlots row

/-- Left rows with one binding of the dependency slots; the first one represents them. -/
structure LeftGroup (V : Type) where
  key : List (Option V)
  representative : Row V
  rows : List (Row V)

def addLeft (groups : List (LeftGroup V)) (row : Row V) : List (LeftGroup V) :=
  let key := keyForSlots stage.dependencySlots row
  if groups.any fun group => decide (group.key = key) then
    groups.map fun group => if group.key = key then { group with rows := group.rows ++ [row] } else group
  else groups ++ [⟨key, row, [row]⟩]

def joinRow (hits : List (Row V)) (left : Row V) : List (Row V) :=
  if hits.isEmpty then [setNull left stage.introducedSlots]
  else hits.map fun hit => copySlotsFrom left hit stage.introducedSlots

def executeUncorrelatedOptionalGroup (leftRows : List (Row V)) : List (Row V) :=
  let groupRows := stage.patternRows fun _ => none
  leftRows.flatMap (stage.joinRow groupRows)

def executeCorrelatedOptionalGroup (leftRows : List (Row V)) : List (Row V) :=
  let dependencyNullMisses := leftRows.filter (anySlotNull · stage.dependencySlots)
  let leftGroups := (leftRows.filter fun row => !anySlotNull row stage.dependencySlots).foldl stage.addLeft []
  let groupRows := (leftGroups.map (·.representative)).flatMap stage.patternRows
  let joined := leftGroups.flatMap fun group =>
    let hits := groupRows.filter fun row => decide (keyForSlots stage.dependencySlots row = group.key)
    group.rows.flatMap (stage.joinRow hits)
  joined ++ dependencyNullMisses.map fun row => setNull row stage.introducedSlots

def executeOptionalGroup (leftRows : List (Row V)) : List (Row V) :=
  if stage.dependencySlots.isEmpty then stage.executeUncorrelatedOptionalGroup leftRows
  else stage.executeCorrelatedOptionalGroup leftRows

/-- The rows of the stage before the candidate filter. Incoming rows whose bound nodes fail a
constraint of the pattern are misses. -/
def executeGraphRowStage (initialRows : List (Row V)) : List (Row V) :=
  let validRows := initialRows.filter stage.seedAccepts
  let invalidRows := initialRows.filter fun row => !stage.seedAccepts row
  stage.executeOptionalGroup validRows ++ invalidRows.map fun row => setNull row stage.optionalSlots

def optionalRowIsMiss (row : Row V) : Bool := !stage.optionalSlots.isEmpty && stage.optionalSlots.all fun slot => (row slot).isNone

def applyOptionalCandidateFilter (passes : Row V → Bool) (leftRows rows : List (Row V)) : List (Row V) :=
  let missRows := rows.filter stage.optionalRowIsMiss
  let hitRows := (rows.filter fun row => !stage.optionalRowIsMiss row).filter passes
  leftRows.flatMap fun left =>
    let hits := hitRows.filter fun row => decide (stage.inputKey row = stage.inputKey left)
    let misses := missRows.filter fun row => decide (stage.inputKey row = stage.inputKey left)
    if !hits.isEmpty then hits
    else if !misses.isEmpty then misses
    else [setNull left stage.optionalSlots]

/-- The optional match with a candidate filter. -/
def execute (passes : Row V → Bool) (rows : List (Row V)) : List (Row V) :=
  let leftRows := stage.bridgeRows rows
  stage.applyOptionalCandidateFilter passes leftRows (stage.executeGraphRowStage leftRows)

def matchesOf (left : Row V) : List (Row V) :=
  if stage.seedAccepts left && !anySlotNull left stage.dependencySlots then
    (stage.patternRows left).map fun hit => copySlotsFrom left hit stage.introducedSlots
  else []

/-- Each row with its matches that pass, or once with nulls. -/
def leftOuterJoin (passes : Row V → Bool) (rows : List (Row V)) : List (Row V) :=
  (stage.bridgeRows rows).flatMap fun left =>
    if (stage.matchesOf left).filter passes = [] then [setNull left stage.optionalSlots]
    else (stage.matchesOf left).filter passes

/-- Rows that share a key have matches (or the stage has no optional slot to tell a miss by),
and none of these passes. -/
def RepeatsHarmless (passes : Row V → Bool) (rows : List (Row V)) : Prop :=
  ∀ left ∈ stage.bridgeRows rows,
    2 ≤ ((stage.bridgeRows rows).filter fun row => decide (stage.inputKey row = stage.inputKey left)).length →
    (if stage.matchesOf left = [] then stage.optionalSlots = [] ∧ passes left = false
      else ∀ hit ∈ stage.matchesOf left, passes hit = false)

section
variable {stage}

/-- A row that binds nothing but incoming slots. -/
def Bridged (stage : MatchStage V) (row : Row V) : Prop := ∀ slot, slot ∉ stage.inputSlots → row slot = none

variable {rows : List (Row V)} {row : Row V}

omit [DecidableEq V] in
theorem bridged_of_mem (h : row ∈ stage.bridgeRows rows) : stage.Bridged row := by
  obtain ⟨src, -, rfl⟩ := mem_map.mp h
  intro slot hslot
  simp [hslot]

omit [DecidableEq V] in
theorem setNull_of_bridged (h : stage.Bridged row) {slots : List ℕ}
    (hfr : ∀ slot ∈ slots, slot ∉ stage.inputSlots) : setNull row slots = row := by
  funext slot
  rw [setNull]
  split
  · rename_i hslot
    exact (h slot (hfr slot hslot)).symm
  · rfl

omit [DecidableEq V] in
theorem eq_of_inputKey_eq {row other : Row V} (hrow : stage.Bridged row) (hoth : stage.Bridged other)
    (h : stage.inputKey row = stage.inputKey other) : row = other := by
  funext slot
  by_cases hslot : slot ∈ stage.inputSlots
  · exact map_inj_left.mp h slot hslot
  · rw [hrow slot hslot, hoth slot hslot]

/-- What the stage yields for one row before the filter. -/
private def rowResult (stage : MatchStage V) (left : Row V) : List (Row V) :=
  if stage.matchesOf left = [] then [left] else stage.matchesOf left

omit [DecidableEq V] in
theorem copySlotsFrom_restrict (left hit : Row V) (slots : List ℕ) :
    copySlotsFrom left (copySlotsFrom (fun _ => none) hit slots) slots = copySlotsFrom left hit slots := by
  funext slot
  simp only [copySlotsFrom]
  split <;> rfl

variable {left : Row V}

omit [DecidableEq V] in
theorem joinRow_eq {other : Row V} (hleft : stage.Bridged left)
    (hseed : stage.seedAccepts left = true) (hnull : anySlotNull left stage.dependencySlots = false)
    (hsame : ∀ slot ∈ stage.dependencySlots, other slot = left slot) :
    stage.joinRow (stage.patternRows other) left = rowResult stage left := by
  have hlocal := stage.local_rows other left hsame
  have hmat : stage.matchesOf left = (stage.patternRows other).map fun hit => copySlotsFrom left hit stage.introducedSlots := by
    have hcopy := congrArg (List.map fun hit => copySlotsFrom left hit stage.introducedSlots) hlocal
    simp only [map_map, Function.comp_def, copySlotsFrom_restrict] at hcopy
    rw [matchesOf, hseed, hnull, hcopy]
    rfl
  rw [joinRow, rowResult, hmat]
  cases stage.patternRows other with
  | nil => simp [setNull_of_bridged hleft stage.introduced_fresh]
  | cons hit hits => simp

omit [DecidableEq V] in
theorem rowResult_of_no_match (h : stage.matchesOf left = []) : rowResult stage left = [left] := if_pos h

/-- The groups hold the rows, each under its own key. -/
private structure Grouped (stage : MatchStage V) (rows : List (Row V)) (groups : List (LeftGroup V)) : Prop where
  perm : (groups.flatMap (·.rows)).Perm rows
  distinct : groups.Pairwise fun a b => a.key ≠ b.key
  representative : ∀ group ∈ groups, keyForSlots stage.dependencySlots group.representative = group.key
  members : ∀ group ∈ groups, ∀ row ∈ group.rows, keyForSlots stage.dependencySlots row = group.key

theorem perm_add_member {key : List (Option V)} : ∀ {groups : List (LeftGroup V)},
    groups.Pairwise (fun a b => a.key ≠ b.key) → (∃ group ∈ groups, group.key = key) →
    ((groups.map fun group => if group.key = key then { group with rows := group.rows ++ [row] }
      else group).flatMap (·.rows)).Perm (groups.flatMap (·.rows) ++ [row])
  | [], _, h => by simp at h
  | group :: groups, hdist, h => by
    obtain ⟨hfst, hrest⟩ := pairwise_cons.mp hdist
    rw [map_cons, flatMap_cons, flatMap_cons]
    by_cases hkey : group.key = key
    · have hothers : (groups.map fun group => if group.key = key then
          { group with rows := group.rows ++ [row] } else group) = groups := by
        refine (map_congr_left fun other hoth => ?_).trans (map_id groups)
        rw [if_neg fun heq => hfst other hoth (hkey.trans heq.symm)]
        rfl
      rw [if_pos hkey, hothers, append_assoc, append_assoc]
      exact append_left _ perm_append_comm
    · rw [if_neg hkey, append_assoc]
      refine append_left _ (perm_add_member hrest ?_)
      obtain ⟨other, hoth, hother_key⟩ := h
      rcases mem_cons.mp hoth with rfl | hoth
      · exact absurd hother_key hkey
      · exact ⟨other, hoth, hother_key⟩

variable {groups : List (LeftGroup V)}

theorem Grouped.addLeft (h : Grouped stage rows groups) (row : Row V) :
    Grouped stage (rows ++ [row]) (stage.addLeft groups row) := by
  rw [MatchStage.addLeft]
  split
  · rename_i hkn
    have hexi : ∃ group ∈ groups, group.key = keyForSlots stage.dependencySlots row := by simpa using hkn
    refine ⟨(perm_add_member h.distinct hexi).trans (h.perm.append_right [row]), ?_, ?_, ?_⟩
    · refine pairwise_map.mpr (h.distinct.imp fun {a b} hab => ?_)
      split <;> split <;> exact hab
    · intro group hgrp
      obtain ⟨old, hold, rfl⟩ := mem_map.mp hgrp
      split
      · exact h.representative old hold
      · exact h.representative old hold
    · intro group hgrp
      obtain ⟨old, hold, rfl⟩ := mem_map.mp hgrp
      split
      · rename_i hkey
        intro other hoth
        rcases mem_append.mp hoth with hoth | hoth
        · exact h.members old hold other hoth
        · rw [mem_singleton.mp hoth]
          exact hkey.symm
      · exact h.members old hold
  · rename_i hnew
    have hfr : ∀ group ∈ groups, group.key ≠ keyForSlots stage.dependencySlots row := by
      intro group hgrp heq
      apply hnew
      simpa using ⟨group, hgrp, heq⟩
    refine ⟨?_, ?_, ?_, ?_⟩
    · rw [flatMap_append, flatMap_singleton]
      exact h.perm.append_right [row]
    · refine pairwise_append.mpr ⟨h.distinct, pairwise_singleton _ _, ?_⟩
      intro group hgrp other hoth
      rw [mem_singleton.mp hoth]
      exact hfr group hgrp
    · intro group hgrp
      rcases mem_append.mp hgrp with hgrp | hgrp
      · exact h.representative group hgrp
      · rw [mem_singleton.mp hgrp]
    · intro group hgrp
      rcases mem_append.mp hgrp with hgrp | hgrp
      · exact h.members group hgrp
      · rw [mem_singleton.mp hgrp]
        intro other hoth
        rw [mem_singleton.mp hoth]

theorem grouped_foldl (stage : MatchStage V) (rows : List (Row V)) : Grouped stage rows (rows.foldl stage.addLeft []) := by
  have hgen : ∀ (todo done : List (Row V)) (groups : List (LeftGroup V)), Grouped stage done groups →
      Grouped stage (done ++ todo) (todo.foldl stage.addLeft groups) := by
    intro todo
    induction todo with
    | nil => simp
    | cons row todo ih =>
      intro done groups h
      have hstep := ih (done ++ [row]) (stage.addLeft groups row) (h.addLeft row)
      rwa [append_assoc] at hstep
  exact hgen rows [] [] ⟨List.Perm.refl _, List.Pairwise.nil, by simp, by simp⟩

omit [DecidableEq V] in
theorem flatMap_group {F : LeftGroup V → List (Row V)} {group : LeftGroup V} :
    ∀ {groups : List (LeftGroup V)}, groups.Pairwise (fun a b => a.key ≠ b.key) → group ∈ groups →
      (∀ other ∈ groups, other.key ≠ group.key → F other = []) → groups.flatMap F = F group
  | [], _, hmem, _ => by cases hmem
  | fst :: groups, hdist, hmem, hemp => by
    obtain ⟨hfst, hrest⟩ := pairwise_cons.mp hdist
    rw [flatMap_cons]
    rcases mem_cons.mp hmem with rfl | hmem
    · have hothers : groups.flatMap F = [] := flatMap_eq_nil_iff.mpr fun other hoth =>
        hemp other (mem_cons_of_mem _ hoth) (hfst other hoth).symm
      rw [hothers, append_nil]
    · rw [hemp fst (by simp) (hfst group hmem), nil_append]
      exact flatMap_group hrest hmem fun other hoth => hemp other (mem_cons_of_mem _ hoth)

/-- Of the rows found for all representatives, those with the key of a group were found for
its own. -/
theorem hits_eq (h : Grouped stage rows groups) {group : LeftGroup V} (hgrp : group ∈ groups) :
    ((groups.map (·.representative)).flatMap stage.patternRows).filter
        (fun row => decide (keyForSlots stage.dependencySlots row = group.key)) =
      stage.patternRows group.representative := by
  have hkey : ∀ other ∈ groups, ∀ hit ∈ stage.patternRows other.representative,
      keyForSlots stage.dependencySlots hit = other.key := by
    intro other hoth hit hhit
    rw [← h.representative other hoth]
    exact map_congr_left fun slot hslot => stage.keeps _ hit hhit slot hslot
  rw [filter_flatMap, flatMap_map, flatMap_group h.distinct hgrp]
  · exact filter_eq_self.mpr fun hit hhit => by simp [hkey group hgrp hit hhit]
  · intro other hoth hne
    refine filter_eq_nil_iff.mpr fun hit hhit => ?_
    simp [hkey other hoth hit hhit, hne]

omit [DecidableEq V] in
theorem matchesOf_of_null (h : anySlotNull left stage.dependencySlots = true) : stage.matchesOf left = [] := by
  simp [matchesOf, h]

omit [DecidableEq V] in
theorem matchesOf_of_invalid (h : stage.seedAccepts left = false) : stage.matchesOf left = [] := by
  simp [matchesOf, h]

omit [DecidableEq V] in
/-- Rows without a match, extended by nulls, yield themselves. -/
theorem map_setNull_eq {slots : List ℕ}
    (hfr : ∀ slot ∈ slots, slot ∉ stage.inputSlots) (hrows : ∀ row ∈ rows, stage.Bridged row)
    (hnone : ∀ row ∈ rows, stage.matchesOf row = []) :
    (rows.map fun row => setNull row slots) = rows.flatMap (rowResult stage) := by
  induction rows with
  | nil => rfl
  | cons row rows ih =>
    rw [map_cons, flatMap_cons, rowResult_of_no_match (hnone row (by simp)), setNull_of_bridged (hrows row (by simp)) hfr,
      ih (fun r hr => hrows r (mem_cons_of_mem _ hr)) fun r hr => hnone r (mem_cons_of_mem _ hr)]
    rfl

section
variable (stage : MatchStage V) (rows : List (Row V)) (hrows : ∀ row ∈ rows, stage.Bridged row)
include hrows

theorem executeOptionalGroup_eq (hsds : ∀ row ∈ rows, stage.seedAccepts row = true) : ∃ order : List (Row V), order.Perm rows ∧
      stage.executeOptionalGroup rows = order.flatMap (rowResult stage) := by
  rw [executeOptionalGroup]
  split
  · rename_i hnone
    rw [List.isEmpty_iff] at hnone
    refine ⟨rows, List.Perm.refl _, flatMap_congr fun left hleft => ?_⟩
    exact joinRow_eq (hrows left hleft) (hsds left hleft) (by simp [hnone, anySlotNull]) (by simp [hnone])
  · rw [executeCorrelatedOptionalGroup]
    have hgrpd := grouped_foldl stage (rows.filter fun row => !anySlotNull row stage.dependencySlots)
    generalize (rows.filter fun row => !anySlotNull row stage.dependencySlots).foldl stage.addLeft [] = groups
      at hgrpd ⊢
    refine ⟨groups.flatMap (·.rows) ++ rows.filter (anySlotNull · stage.dependencySlots), ?_, ?_⟩
    · refine (hgrpd.perm.append_right _).trans (perm_append_comm.trans ?_)
      exact filter_append_perm _ rows
    · rw [flatMap_append]
      congr 1
      · rw [flatMap_assoc]
        refine flatMap_congr fun group hgrp => flatMap_congr fun left hleft => ?_
        have hmem := hgrpd.perm.mem_iff.mp (mem_flatMap.mpr ⟨group, hgrp, hleft⟩)
        obtain ⟨hrow, hnull⟩ := mem_filter.mp hmem
        rw [hits_eq hgrpd hgrp]
        refine joinRow_eq (hrows left hrow) (hsds left hrow) (by simpa using hnull) ?_
        have hkeys := (hgrpd.representative group hgrp).trans (hgrpd.members group hgrp left hleft).symm
        exact map_inj_left.mp hkeys
      · refine map_setNull_eq stage.introduced_fresh (fun row hrow => ?_) fun row hrow => ?_
        · exact hrows row (mem_filter.mp hrow).1
        · exact matchesOf_of_null (mem_filter.mp hrow).2

/-- The stage yields, in some order of the rows, what each of them yields. -/
theorem executeGraphRowStage_eq : ∃ order : List (Row V), order.Perm rows ∧
      stage.executeGraphRowStage rows = order.flatMap (rowResult stage) := by
  obtain ⟨order, hperm, hvd⟩ := executeOptionalGroup_eq stage (rows.filter stage.seedAccepts)
    (fun row hrow => hrows row (mem_filter.mp hrow).1) fun row hrow => (mem_filter.mp hrow).2
  refine ⟨order ++ rows.filter fun row => !stage.seedAccepts row, ?_, ?_⟩
  · exact (hperm.append_right _).trans (filter_append_perm _ rows)
  · rw [executeGraphRowStage, hvd, flatMap_append]
    congr 1
    refine map_setNull_eq stage.optional_fresh (fun row hrow => hrows row (mem_filter.mp hrow).1) ?_
    intro row hrow
    exact matchesOf_of_invalid (by simpa using (mem_filter.mp hrow).2)

end

omit [DecidableEq V] in
theorem inputKey_copySlotsFrom (left hit : Row V) :
    stage.inputKey (copySlotsFrom left hit stage.introducedSlots) = stage.inputKey left := by
  refine map_congr_left fun slot hslot => ?_
  rw [copySlotsFrom, if_neg fun hfr => stage.introduced_fresh slot hfr hslot]

omit [DecidableEq V] in
theorem inputKey_of_mem_matchesOf {hit : Row V} (h : hit ∈ stage.matchesOf left) :
    stage.inputKey hit = stage.inputKey left := by
  rw [matchesOf] at h
  split at h
  · obtain ⟨row, -, rfl⟩ := mem_map.mp h
    exact inputKey_copySlotsFrom left row
  · cases h

omit [DecidableEq V] in
theorem inputKey_of_mem_rowResult {row : Row V} (h : row ∈ rowResult stage left) :
    stage.inputKey row = stage.inputKey left := by
  rw [rowResult] at h
  split at h
  · rw [mem_singleton.mp h]
  · exact inputKey_of_mem_matchesOf h

/-- How many incoming rows have the key of a row. -/
private def repeats (stage : MatchStage V) (leftRows : List (Row V)) (left : Row V) : ℕ :=
  (leftRows.filter fun row => decide (stage.inputKey row = stage.inputKey left)).length

omit [DecidableEq V] in
theorem flatMap_of_forall_eq {f : Row V → List (Row V)} :
    ∀ {rows : List (Row V)}, (∀ row ∈ rows, row = left) → rows.flatMap f = (replicate rows.length (f left)).flatten
  | [], _ => rfl
  | row :: rows, h => by
    rw [flatMap_cons, h row (by simp), flatMap_of_forall_eq fun r hr => h r (mem_cons_of_mem _ hr)]
    rfl

/-- The rows put back to an incoming row: as many copies of its own as rows have its key. -/
theorem bucket_eq {leftRows order : List (Row V)} (hrows : ∀ row ∈ leftRows, stage.Bridged row)
    (hperm : order.Perm leftRows) (keep : Row V → Bool) (hleft : left ∈ leftRows) :
    ((order.flatMap (rowResult stage)).filter keep).filter
        (fun row => decide (stage.inputKey row = stage.inputKey left)) =
      (replicate (repeats stage leftRows left) ((rowResult stage left).filter keep)).flatten := by
  have hsame : ∀ row ∈ order.filter (fun row => decide (stage.inputKey row = stage.inputKey left)), row = left := by
    intro row hrow
    obtain ⟨hmem, hkey⟩ := mem_filter.mp hrow
    exact eq_of_inputKey_eq (hrows row (hperm.mem_iff.mp hmem)) (hrows left hleft) (by simpa using hkey)
  have hlen : (order.filter fun row => decide (stage.inputKey row = stage.inputKey left)).length =
      repeats stage leftRows left := (hperm.filter _).length_eq
  rw [← hlen, ← flatMap_of_forall_eq (f := fun row => (rowResult stage row).filter keep) hsame, filter_flatMap, filter_flatMap]
  clear hlen hsame hperm
  induction order with
  | nil => rfl
  | cons row order ih =>
    have hkeys : ∀ other ∈ (rowResult stage row).filter keep, stage.inputKey other = stage.inputKey row :=
      fun other hoth => inputKey_of_mem_rowResult (mem_filter.mp hoth).1
    rw [flatMap_cons, filter_cons, ih]
    by_cases hkey : stage.inputKey row = stage.inputKey left
    · rw [if_pos (by simpa using hkey), flatMap_cons]
      congr 1
      exact filter_eq_self.mpr fun other hoth => by simp [hkeys other hoth, hkey]
    · have hnone : ((rowResult stage row).filter keep).filter
          (fun row => decide (stage.inputKey row = stage.inputKey left)) = [] :=
        filter_eq_nil_iff.mpr fun other hoth => by simp [hkeys other hoth, hkey]
      rw [if_neg (by simpa using hkey), hnone, nil_append]

omit [DecidableEq V] in
theorem miss_of_bridged (h : stage.Bridged left) : stage.optionalRowIsMiss left = !stage.optionalSlots.isEmpty := by
  have hnull : (stage.optionalSlots.all fun slot => (left slot).isNone) = true := by
    refine all_eq_true.mpr fun slot hslot => ?_
    rw [h slot (stage.optional_fresh slot hslot)]
    rfl
  rw [optionalRowIsMiss, hnull, Bool.and_true]

omit [DecidableEq V] in
theorem not_miss_of_mem_matchesOf {hit : Row V} (h : hit ∈ stage.matchesOf left) : stage.optionalRowIsMiss hit = false := by
  rw [matchesOf] at h
  split at h
  · obtain ⟨row, hrow, rfl⟩ := mem_map.mp h
    rw [optionalRowIsMiss, Bool.and_eq_false_iff, or_iff_not_imp_left]
    intro hslots
    obtain ⟨slot, hslot, hbd⟩ := stage.binds (by simpa using hslots) left row hrow
    refine all_eq_false.mpr ⟨slot, hslot, ?_⟩
    rw [copySlotsFrom, if_pos (stage.optional_subset hslot)]
    simpa using hbd
  · cases h

/-- What the filter emits for one incoming row. -/
private def block (stage : MatchStage V) (passes : Row V → Bool) (rows : List (Row V)) (left : Row V) : List (Row V) :=
  let hits := ((rows.filter fun row => !stage.optionalRowIsMiss row).filter passes).filter
    fun row => decide (stage.inputKey row = stage.inputKey left)
  let misses := (rows.filter stage.optionalRowIsMiss).filter
    fun row => decide (stage.inputKey row = stage.inputKey left)
  if !hits.isEmpty then hits
  else if !misses.isEmpty then misses
  else [setNull left stage.optionalSlots]

/-- What the join has for one incoming row. -/
private def joined (stage : MatchStage V) (passes : Row V → Bool) (left : Row V) : List (Row V) :=
  if (stage.matchesOf left).filter passes = [] then [setNull left stage.optionalSlots]
  else (stage.matchesOf left).filter passes

/-- A row that may be repeated: its matches are not misses, and none of them passes. -/
private def Harmless (stage : MatchStage V) (passes : Row V → Bool) (left : Row V) : Prop :=
  if stage.matchesOf left = [] then stage.optionalSlots = [] ∧ passes left = false
  else ∀ hit ∈ stage.matchesOf left, passes hit = false

omit [DecidableEq V] in
theorem joined_length_pos (stage : MatchStage V) (passes : Row V → Bool) (left : Row V) :
    0 < (joined stage passes left).length := by
  rw [joined]
  split
  · simp
  · rename_i hsome
    exact length_pos_of_ne_nil hsome

theorem repeats_pos (stage : MatchStage V) {leftRows : List (Row V)} (h : left ∈ leftRows) :
    0 < repeats stage leftRows left := by
  refine length_pos_of_mem (a := left) (mem_filter.mpr ⟨h, ?_⟩)
  simp

omit [DecidableEq V] in
theorem length_flatten_replicate (n : ℕ) (rows : List (Row V)) : (replicate n rows).flatten.length = n * rows.length := by
  rw [length_flatten, map_replicate, sum_replicate_nat]

omit [DecidableEq V] in
theorem isEmpty_flatten_replicate {n : ℕ} (hn : 0 < n) (rows : List (Row V)) :
    (replicate n rows).flatten.isEmpty = rows.isEmpty := by
  obtain ⟨n, rfl⟩ := Nat.exists_eq_add_of_lt hn
  cases rows with
  | nil => simp
  | cons row rows => simp [replicate_succ]

section
variable {leftRows order : List (Row V)} {left : Row V} (passes : Row V → Bool)
  (hrows : ∀ row ∈ leftRows, stage.Bridged row) (hperm : order.Perm leftRows) (hleft : left ∈ leftRows)
include hrows hperm hleft

/-- The hits and the misses of a row are repeated with its key. -/
theorem block_eq_of_own : block stage passes (order.flatMap (rowResult stage)) left =
    (let own := ((rowResult stage left).filter fun row => !stage.optionalRowIsMiss row).filter passes
      let missed := (rowResult stage left).filter stage.optionalRowIsMiss
      if own ≠ [] then (replicate (repeats stage leftRows left) own).flatten
      else if missed ≠ [] then (replicate (repeats stage leftRows left) missed).flatten
      else [left]) := by
  have hhits := bucket_eq hrows hperm (fun row => passes row && !stage.optionalRowIsMiss row) hleft
  simp only [← filter_filter] at hhits
  have hmisses := bucket_eq hrows hperm stage.optionalRowIsMiss hleft
  simp only [block]
  rw [hhits, hmisses, setNull_of_bridged (hrows left hleft) stage.optional_fresh]
  have hpos := repeats_pos stage hleft
  generalize ((rowResult stage left).filter fun row => !stage.optionalRowIsMiss row).filter passes = own
  generalize (rowResult stage left).filter stage.optionalRowIsMiss = missed
  rw [isEmpty_flatten_replicate hpos, isEmpty_flatten_replicate hpos]
  cases own with
  | cons hit hits => rfl
  | nil =>
    cases missed with
    | cons miss misses | nil => rfl

theorem block_of_harmless (h : Harmless stage passes left) :
    block stage passes (order.flatMap (rowResult stage)) left = joined stage passes left := by
  rw [block_eq_of_own passes hrows hperm hleft, joined, setNull_of_bridged (hrows left hleft) stage.optional_fresh]
  rw [Harmless] at h
  by_cases hmat : stage.matchesOf left = []
  · rw [if_pos hmat] at h
    have hmiss := miss_of_bridged (hrows left hleft)
    rw [h.1] at hmiss
    simp [rowResult, hmat, h.2, hmiss]
  · rw [if_neg hmat] at h
    have hown : (stage.matchesOf left).filter passes = [] := filter_eq_nil_iff.mpr fun hit hhit => by simp [h hit hhit]
    have hmis : (stage.matchesOf left).filter stage.optionalRowIsMiss = [] :=
      filter_eq_nil_iff.mpr fun hit hhit => by simp [not_miss_of_mem_matchesOf hhit]
    have hall : ((stage.matchesOf left).filter fun row => !stage.optionalRowIsMiss row) = stage.matchesOf left :=
      filter_eq_self.mpr fun hit hhit => by simp [not_miss_of_mem_matchesOf hhit]
    rw [rowResult, if_neg hmat, hall, hown, hmis]
    simp

theorem block_of_not_harmless (h : ¬Harmless stage passes left) : block stage passes (order.flatMap (rowResult stage)) left =
      (replicate (repeats stage leftRows left) (joined stage passes left)).flatten := by
  rw [block_eq_of_own passes hrows hperm hleft, joined, setNull_of_bridged (hrows left hleft) stage.optional_fresh]
  rw [Harmless] at h
  by_cases hmat : stage.matchesOf left = []
  · rw [if_pos hmat] at h
    have hmiss := miss_of_bridged (hrows left hleft)
    rw [rowResult, if_pos hmat, hmat]
    by_cases hslots : stage.optionalSlots = []
    · have hpass : passes left = true := by simpa [hslots] using h
      rw [hslots] at hmiss
      simp [hmiss, hpass]
    · have hmis : stage.optionalRowIsMiss left = true := by
        rw [hmiss]
        simpa using hslots
      simp [hmis]
  · rw [if_neg hmat] at h
    have hall : ((stage.matchesOf left).filter fun row => !stage.optionalRowIsMiss row) = stage.matchesOf left :=
      filter_eq_self.mpr fun hit hhit => by simp [not_miss_of_mem_matchesOf hhit]
    have hown : (stage.matchesOf left).filter passes ≠ [] := by
      intro hnone
      apply h
      intro hit hhit
      simpa using filter_eq_nil_iff.mp hnone hit hhit
    rw [rowResult, if_neg hmat, hall, if_pos hown, if_neg hown]

end

theorem execute_eq_flatMap (stage : MatchStage V) (passes : Row V → Bool) (rows : List (Row V)) :
    ∃ order : List (Row V), order.Perm (stage.bridgeRows rows) ∧ stage.execute passes rows =
        (stage.bridgeRows rows).flatMap (block stage passes (order.flatMap (rowResult stage))) := by
  obtain ⟨order, hperm, hstg⟩ := executeGraphRowStage_eq stage (stage.bridgeRows rows) fun row => bridged_of_mem
  refine ⟨order, hperm, ?_⟩
  simp only [execute, applyOptionalCandidateFilter, hstg]
  rfl

omit [DecidableEq V] in
theorem length_flatMap_lt {f g : Row V → List (Row V)} : ∀ {rows : List (Row V)} {row : Row V},
    row ∈ rows → (∀ r ∈ rows, (f r).length ≤ (g r).length) → (f row).length < (g row).length →
    (rows.flatMap f).length < (rows.flatMap g).length
  | fst :: rows, row, hmem, hle, hlt => by
    rw [flatMap_cons, flatMap_cons, length_append, length_append]
    have hfst := hle fst (by simp)
    rcases mem_cons.mp hmem with rfl | hmem
    · have hrest : ∀ rows : List (Row V), (∀ r ∈ rows, (f r).length ≤ (g r).length) →
          (rows.flatMap f).length ≤ (rows.flatMap g).length := by
        intro rows
        induction rows with
        | nil => simp
        | cons r rows ih =>
          intro h
          rw [flatMap_cons, flatMap_cons, length_append, length_append]
          have := h r (by simp)
          have := ih fun r hr => h r (mem_cons_of_mem _ hr)
          omega
      have := hrest rows fun r hr => hle r (mem_cons_of_mem _ hr)
      omega
    · have := length_flatMap_lt hmem (fun r hr => hle r (mem_cons_of_mem _ hr)) hlt
      omega

theorem length_lt_of_harmful {passes : Row V → Bool} (h : ¬stage.RepeatsHarmless passes rows) :
    (stage.leftOuterJoin passes rows).length < (stage.execute passes rows).length := by
  obtain ⟨order, hperm, hexec⟩ := execute_eq_flatMap stage passes rows
  have hbrid : ∀ row ∈ stage.bridgeRows rows, stage.Bridged row := fun row => bridged_of_mem
  rw [hexec]
  simp only [RepeatsHarmless, not_forall] at h
  obtain ⟨left, hleft, htwice, hharm⟩ := h
  refine length_flatMap_lt hleft (fun row hrow => ?_) ?_
  · by_cases hrow_harm : Harmless stage passes row
    · rw [block_of_harmless passes hbrid hperm hrow hrow_harm]
      exact Nat.le_refl _
    · rw [block_of_not_harmless passes hbrid hperm hrow hrow_harm]
      have hpos := repeats_pos stage hrow
      rw [length_flatten_replicate]
      exact Nat.le_mul_of_pos_left _ hpos
  · rw [block_of_not_harmless passes hbrid hperm hleft hharm]
    have hpos := joined_length_pos stage passes left
    change 2 ≤ repeats stage (stage.bridgeRows rows) left at htwice
    rw [length_flatten_replicate]
    calc (joined stage passes left).length < 2 * (joined stage passes left).length := by omega
      _ ≤ repeats stage (stage.bridgeRows rows) left * (joined stage passes left).length := Nat.mul_le_mul_right _ htwice

theorem execute_eq_of_harmless {passes : Row V → Bool}
    (h : stage.RepeatsHarmless passes rows) : stage.execute passes rows = stage.leftOuterJoin passes rows := by
  obtain ⟨order, hperm, hexec⟩ := execute_eq_flatMap stage passes rows
  have hbrid : ∀ row ∈ stage.bridgeRows rows, stage.Bridged row := fun row => bridged_of_mem
  rw [hexec]
  refine flatMap_congr fun left hleft => ?_
  change _ = joined stage passes left
  by_cases hharm : Harmless stage passes left
  · exact block_of_harmless passes hbrid hperm hleft hharm
  · have honce : repeats stage (stage.bridgeRows rows) left = 1 := by
      have hpos := repeats_pos stage hleft
      by_contra hne
      exact hharm (h left hleft (by change 2 ≤ repeats stage (stage.bridgeRows rows) left; omega))
    rw [block_of_not_harmless passes hbrid hperm hleft hharm, honce]
    simp

end

/-- The optional match is the left outer join, in its order and also only up to order, exactly
if each row whose key another incoming row has too has matches and none of them passes. -/
theorem execute_leftOuterJoin_iff (stage : MatchStage V) (passes : Row V → Bool) (rows : List (Row V)) :
    (stage.execute passes rows = stage.leftOuterJoin passes rows ↔ stage.RepeatsHarmless passes rows) ∧
    ((stage.execute passes rows).Perm (stage.leftOuterJoin passes rows) ↔ stage.RepeatsHarmless passes rows) := by
  have hnot : ¬stage.RepeatsHarmless passes rows →
      ¬(stage.execute passes rows).Perm (stage.leftOuterJoin passes rows) := by
    intro hharm hperm
    have hlen := length_lt_of_harmful hharm
    rw [hperm.length_eq] at hlen
    exact Nat.lt_irrefl _ hlen
  constructor
  · constructor
    · intro heq
      by_contra hharm
      apply hnot hharm
      rw [heq]
    · exact execute_eq_of_harmless
  · constructor
    · intro hperm
      by_contra hharm
      exact hnot hharm hperm
    · intro h
      rw [execute_eq_of_harmless h]

/-- An edge from node 1 to node 7, matched from the node in slot 0 into slot 1. -/
def oneNeighbor : MatchStage ℕ where
  inputSlots := [0]
  optionalSlots := [1]
  dependencySlots := [0]
  introducedSlots := [1]
  seedAccepts := fun _ => true
  patternRows := fun row => if row 0 = some 1 then [copySlotsFrom row (fun _ => some 7) [1]] else []
  dependency_subset := by simp
  optional_fresh := by simp
  introduced_fresh := by simp
  optional_subset := by simp
  keeps := by
    intro row hit hhit slot hslot
    rw [mem_singleton.mp hslot]
    split at hhit
    · rw [mem_singleton.mp hhit]
      rfl
    · cases hhit
  local_rows := by
    intro row other hsame
    rw [hsame 0 (by simp)]
    split
    · refine congrArg (fun row => [row]) (funext fun slot => ?_)
      simp only [copySlotsFrom]
      split <;> rfl
    · rfl
  binds := by
    intro _ row hit hhit
    refine ⟨1, by simp, ?_⟩
    split at hhit
    · rw [mem_singleton.mp hhit]
      simp [copySlotsFrom]
    · cases hhit

/-- Two equal rows with one match each: the join has two rows, the stage returns four. -/
theorem equal_rows_share_matches : ¬(oneNeighbor.execute (fun _ => true) [fun _ => some 1, fun _ => some 1]).Perm
      (oneNeighbor.leftOuterJoin (fun _ => true) [fun _ => some 1, fun _ => some 1]) := by
  intro hperm
  have hlen := hperm.length_eq
  revert hlen
  decide

end MatchStage

end OverGraph.OptionalMatch
