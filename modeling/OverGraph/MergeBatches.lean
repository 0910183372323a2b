import Mathlib.Data.Finset.Lattice.Lemmas
import Mathlib.Data.String.Basic
import OverGraph.NodePatterns

/-!
# Batches of merged rows

A batch of MERGE rows is planned over the targets that earlier rows have matched or created. What the
other rows refer to is looked up in the snapshot once, before the first row. A row whose target is known
by then matches it, and the first row of any other key creates its target.
-/

namespace OverGraph.MergeBatches
open AssocMaps LayeredWrites GraphView Sources Cuts WritePlans NodePatterns Fallible List Except
open Option (map_eq_some_iff bind_eq_some_iff)

inductive MergeTarget
  | existing (id : ℕ)
  | created (slot : ℕ)

inductive RowOutcome
  | existing (id : ℕ)
  | matchedLocal (slot : ℕ)
  | create (slot : ℕ)

def RowOutcome.existingId : RowOutcome → Option ℕ
  | .existing id => some id
  | _ => none

section
variable {κ ρ ω τ : Type} [DecidableEq κ]

/-- The targets met so far, and the next slot for a created one. -/
structure Targets (κ : Type) where
  known : Map κ MergeTarget
  next : ℕ

/-- How rows are read, what their keys refer to in the snapshot, and how outcomes are written. A row without a
key has an outcome of its own. -/
structure RowForm (κ ρ ω τ : Type) where
  keyOf : ρ → κ ⊕ ω
  refOf : κ → Option τ
  refOf_inj : ∀ k k' ref, refOf k = some ref → refOf k' = some ref → k = k'
  render : κ → RowOutcome → ω
  existingId : ω → Option ℕ
  existingId_render : ∀ key id, existingId (render key (.existing id)) = some id

/-- The counter of slots saturates. -/
def mergeRow (find : κ → Option ℕ) (targets : Targets κ) (key : κ) : RowOutcome × Targets κ :=
  match targets.known.lookup key with
  | some (.existing id) => (.existing id, targets)
  | some (.created slot) => (.matchedLocal slot, targets)
  | none => match find key with
    | some id => (.existing id, ⟨targets.known.insert key (.existing id), targets.next⟩)
    | none => (.create targets.next, ⟨targets.known.insert key (.created targets.next), min (targets.next + 1) (2 ^ 64 - 1)⟩)

variable (form : RowForm κ ρ ω τ) (find : κ → Option ℕ)

def RowForm.foundBy (answer : τ → Option ℕ) (key : κ) : Option ℕ := (form.refOf key).bind answer

def mergeRows : Targets κ → List ρ → List ω × Targets κ
  | targets, [] => ([], targets)
  | targets, row :: rows =>
    let (outcome, targets) := match form.keyOf row with
      | .inl key => (mergeRow find targets key).map (form.render key) id
      | .inr outcome => (outcome, targets)
    let (outcomes, after) := mergeRows targets rows
    (outcome :: outcomes, after)

variable {form find} {targets : Targets κ} {rows : List ρ} {key k : κ}

theorem mergeRows_append (xs ys : List ρ) : mergeRows form find targets (xs ++ ys) =
    ((mergeRows form find targets xs).1 ++ (mergeRows form find (mergeRows form find targets xs).2 ys).1,
      (mergeRows form find (mergeRows form find targets xs).2 ys).2) := by
  induction xs generalizing targets with
  | nil => rfl
  | cons row xs ih => simp [mergeRows, ih]

theorem length_mergeRows : (mergeRows form find targets rows).1.length = rows.length := by
  induction rows generalizing targets with
  | nil => rfl
  | cons row rows ih => simp [mergeRows, ih]

theorem lookup_mergeRow (h : k = key → targets.known.lookup key ≠ none) :
    (mergeRow find targets key).2.known.lookup k = targets.known.lookup k := by
  rcases hkn : targets.known.lookup key with - | (id | slot)
  · have hne : k ≠ key := fun heq => h heq hkn
    cases hfind : find key <;> simp [mergeRow, hkn, hfind, hne]
  · simp [mergeRow, hkn]
  · simp [mergeRow, hkn]

theorem known_mergeRow : (mergeRow find targets key).2.known.lookup k = none ↔ targets.known.lookup k = none ∧ k ≠ key := by
  by_cases hkey : k = key
  · subst hkey
    rcases hkn : targets.known.lookup k with - | (id | slot)
    · cases hfind : find k <;> simp [mergeRow, hkn, hfind]
    · simp [mergeRow, hkn]
    · simp [mergeRow, hkn]
  · rw [lookup_mergeRow fun heq => absurd heq hkey]
    simp [hkey]

theorem known_mergeRows : (mergeRows form find targets rows).2.known.lookup k = none ↔
    targets.known.lookup k = none ∧ ∀ row ∈ rows, form.keyOf row ≠ .inl k := by
  induction rows generalizing targets with
  | nil => simp [mergeRows]
  | cons row rows ih =>
    cases hrow : form.keyOf row with
    | inl key => simp [mergeRows, hrow, ih, known_mergeRow, and_assoc, @eq_comm κ key k]
    | inr outcome => simp [mergeRows, hrow, ih]

/-- Only the keys without a target are searched for. -/
theorem mergeRows_congr {find' : κ → Option ℕ}
    (h : ∀ row ∈ rows, ∀ k, form.keyOf row = .inl k → targets.known.lookup k = none → find k = find' k) :
    mergeRows form find targets rows = mergeRows form find' targets rows := by
  induction rows generalizing targets with
  | nil => rfl
  | cons row rows ih =>
    have hrest := fun other hoth => h other (mem_cons_of_mem _ hoth)
    cases hrow : form.keyOf row with
    | inl key =>
      have hsame : mergeRow find targets key = mergeRow find' targets key := by
        rcases hkn : targets.known.lookup key with - | (id | slot)
        · simp only [mergeRow, hkn, h row mem_cons_self key hrow hkn]
        · simp [mergeRow, hkn]
        · simp [mergeRow, hkn]
      have hnext : mergeRows form find (mergeRow find' targets key).2 rows = mergeRows form find' (mergeRow find' targets key).2 rows :=
        ih fun other hoth k hk hnone => hrest other hoth k hk (known_mergeRow.mp hnone).1
      simp [mergeRows, hrow, hsame, hnext]
    | inr outcome => simp [mergeRows, hrow, ih hrest]

/-- What is found for a key shows in a row. -/
theorem existing_mem {row : ρ} (hmem : row ∈ rows) (hk : form.keyOf row = .inl k) (hkn : targets.known.lookup k = none)
    {id : ℕ} (hfind : find k = some id) :
    form.render k (.existing id) ∈ (mergeRows form find targets rows).1 := by
  induction rows generalizing targets with
  | nil => cases hmem
  | cons head rows ih =>
    by_cases hkey : form.keyOf head = .inl k
    · simp [mergeRows, mergeRow, hkey, hkn, hfind]
    · have htail : row ∈ rows := (mem_cons.mp hmem).resolve_left fun heq => hkey (heq ▸ hk)
      have hnone : (mergeRows form find targets [head]).2.known.lookup k = none := known_mergeRows.mpr ⟨hkn, by simpa using hkey⟩
      exact mem_cons_of_mem _ (ih htail hnone)

theorem matched_of_created {slot : ℕ} (h : targets.known.lookup k = some (.created slot)) :
    Forall₂ (fun row outcome => form.keyOf row = .inl k → outcome = form.render k (.matchedLocal slot)) rows
      (mergeRows form find targets rows).1 := by
  induction rows generalizing targets with
  | nil => exact .nil
  | cons row rows ih =>
    cases hrow : form.keyOf row with
    | inl key =>
      have haft : (mergeRow find targets key).2.known.lookup k = some (.created slot) := by
        rw [lookup_mergeRow fun heq => heq ▸ by simp [h], h]
      simp only [mergeRows, hrow]
      refine .cons (fun heq => ?_) (ih haft)
      obtain rfl := Sum.inl.inj (hrow.symm.trans heq)
      simp [mergeRow, h]
    | inr outcome =>
      simp only [mergeRows, hrow]
      exact .cons (fun heq => by cases hrow.symm.trans heq) (ih h)

variable (form k) in
/-- The first row of a key creates its target, and the later ones match it. -/
def CreatedOnce (before after : List ρ) (outcomes : List ω) : Prop :=
  ∃ slot earlier later, outcomes = earlier ++ form.render k (.create slot) :: later ∧ earlier.length = before.length ∧
    Forall₂ (fun other outcome => form.keyOf other = .inl k → outcome = form.render k (.matchedLocal slot)) after later

theorem created_once {before after : List ρ} {row : ρ} (hk : form.keyOf row = .inl k)
    (hbef : ∀ other ∈ before, form.keyOf other ≠ .inl k) (hkn : targets.known.lookup k = none) (hfind : find k = none) :
    CreatedOnce form k before after (mergeRows form find targets (before ++ row :: after)).1 := by
  have hnone : (mergeRows form find targets before).2.known.lookup k = none := known_mergeRows.mpr ⟨hkn, hbef⟩
  have haft : (mergeRow find (mergeRows form find targets before).2 k).2.known.lookup k =
      some (.created (mergeRows form find targets before).2.next) := by
    simp [mergeRow, hnone, hfind]
  refine ⟨_, (mergeRows form find targets before).1,
    (mergeRows form find (mergeRow find (mergeRows form find targets before).2 k).2 after).1, ?_, length_mergeRows,
    matched_of_created haft⟩
  rw [mergeRows_append, mergeRows, hk]
  simp [mergeRow, hnone, hfind]

structure MergeBatch (ω : Type) where
  rows : List ω
  existingIds : Finset ℕ
  snapshotLookupCount : ℕ

variable [LinearOrder τ]

variable (form) in
/-- What the rows without a known target refer to. -/
def lookupRefs (targets : Targets κ) (rows : List ρ) : List τ :=
  ((rows.filterMap fun row => (form.keyOf row).getLeft?.bind fun key =>
    if (targets.known.lookup key).isSome then none else form.refOf key).insertionSort (· ≤ ·)).dedup

variable (form) (check : List ρ → Except String Unit) (lookup : List τ → Except String (List (τ × ℕ))) in
def planRows (targets : Targets κ) (rows : List ρ) : Except String (MergeBatch ω × Targets κ) := do
  check rows
  let refs := lookupRefs form targets rows
  let snapshotMatches ← lookup refs
  let (outcomes, after) := mergeRows form (form.foundBy (List.lookup · snapshotMatches)) targets rows
  .ok (⟨outcomes, (snapshotMatches.map (·.2) ++ outcomes.filterMap form.existingId).toFinset, refs.length⟩, after)

/-- A lookup answers each reference for itself, and fails where one of them is not good. -/
def Answers (lookup : List τ → Except String (List (τ × ℕ))) (good : τ → Prop) (answer : τ → Option ℕ) : Prop :=
  ∀ refs found, lookup refs = .ok found ↔ (∀ ref ∈ refs, good ref) ∧ found = refs.filterMap fun ref => (answer ref).map (ref, ·)

variable {check : List ρ → Except String Unit} {lookup : List τ → Except String (List (τ × ℕ))} {good : τ → Prop} {answer : τ → Option ℕ}

theorem mem_lookupRefs {ref : τ} : ref ∈ lookupRefs form targets rows ↔
    ∃ row ∈ rows, ∃ k, form.keyOf row = .inl k ∧ targets.known.lookup k = none ∧ form.refOf k = some ref := by
  simp only [lookupRefs, mem_dedup, mem_insertionSort, mem_filterMap, bind_eq_some_iff, Sum.getLeft?_eq_some_iff]
  refine exists_congr fun row => and_congr_right fun _ => exists_congr fun k => and_congr_right fun _ => ?_
  cases hkn : targets.known.lookup k <;> simp

theorem lookup_answers (refs : List τ) (ref : τ) :
    List.lookup ref (refs.filterMap fun ref => (answer ref).map (ref, ·)) = if ref ∈ refs then answer ref else none := by
  induction refs with
  | nil => rfl
  | cons other refs ih =>
    by_cases href : ref = other
    · subst href
      cases hanswer : answer ref <;> simp [hanswer, ih]
    · have hne : (ref == other) = false := by simpa using href
      cases hanswer : answer other <;> simp [hanswer, ih, href, List.lookup_cons, hne]

variable (form answer) in
/-- The outcome of a batch, from the answer to each reference alone. -/
def planned (targets : Targets κ) (rows : List ρ) : MergeBatch ω × Targets κ :=
  let (outcomes, after) := mergeRows form (form.foundBy answer) targets rows
  (⟨outcomes, (outcomes.filterMap form.existingId).toFinset, (lookupRefs form targets rows).length⟩, after)

theorem planRows_ok_iff (h : Answers lookup good answer) {out : MergeBatch ω × Targets κ} :
    planRows form check lookup targets rows = .ok out ↔ (check rows = .ok () ∧
      ∀ ref ∈ lookupRefs form targets rows, good ref) ∧ planned form answer targets rows = out := by
  rw [planned]
  generalize hrefs : lookupRefs form targets rows = refs
  have hrows : mergeRows form (form.foundBy (List.lookup · (refs.filterMap fun ref => (answer ref).map (ref, ·)))) targets
      rows = mergeRows form (form.foundBy answer) targets rows := by
    apply mergeRows_congr
    intro row hrow k hk hkn
    cases href : form.refOf k with
    | none => simp [RowForm.foundBy, href]
    | some ref =>
      have hmem : ref ∈ refs := hrefs ▸ mem_lookupRefs.mpr ⟨row, hrow, k, hk, hkn, href⟩
      simp [RowForm.foundBy, href, lookup_answers, hmem]
  -- what was found shows in the rows
  have hids : ((refs.filterMap fun ref => (answer ref).map (ref, ·)).map (·.2) ++
      (mergeRows form (form.foundBy answer) targets rows).1.filterMap form.existingId).toFinset =
      ((mergeRows form (form.foundBy answer) targets rows).1.filterMap form.existingId).toFinset := by
    rw [toFinset_append, Finset.union_eq_right]
    intro id hid
    obtain ⟨_, hfnd, rfl⟩ := mem_map.mp (mem_toFinset.mp hid)
    obtain ⟨ref, href, hpair⟩ := mem_filterMap.mp hfnd
    obtain ⟨id, hanswer, rfl⟩ := map_eq_some_iff.mp hpair
    obtain ⟨row, hrow, k, hk, hkn, hof⟩ := mem_lookupRefs.mp (hrefs ▸ href)
    have hfnd : form.foundBy answer k = some id := by rw [RowForm.foundBy, hof, Option.bind_some, hanswer]
    exact mem_toFinset.mpr (mem_filterMap.mpr ⟨_, existing_mem hrow hk hkn hfnd, form.existingId_render k id⟩)
  rw [planRows, hrefs]
  constructor
  · intro hplan
    obtain ⟨_, hchk, hrest⟩ := bind_ok hplan
    obtain ⟨found, hfnd, hout⟩ := bind_ok hrest
    obtain ⟨hgood, rfl⟩ := (h refs found).mp hfnd
    rw [hrows] at hout
    dsimp only at hout
    rw [hids] at hout
    exact ⟨⟨hchk, hgood⟩, ok.inj hout⟩
  · rintro ⟨⟨hchk, hgood⟩, rfl⟩
    rw [hchk, ok_bind]
    dsimp only
    rw [(h refs _).mpr ⟨hgood, rfl⟩, ok_bind, hrows, hids]

def MergeBatch.append (fst snd : MergeBatch ω) : MergeBatch ω :=
  ⟨fst.rows ++ snd.rows, fst.existingIds ∪ snd.existingIds, fst.snapshotLookupCount + snd.snapshotLookupCount⟩

/-- A plan over two lists is the plan over the first followed by the plan over the second. -/
def Composes {ρ β σ : Type} (plan : σ → List ρ → Except String (β × σ)) (append : β → β → β) : Prop :=
  ∀ ovl xs ys batch after, plan ovl (xs ++ ys) = .ok (batch, after) ↔
    ∃ fst between snd, plan ovl xs = .ok (fst, between) ∧ plan between ys = .ok (snd, after) ∧ append fst snd = batch

theorem planRows_composes (h : Answers lookup good answer)
    (hcheck : ∀ xs ys, check (xs ++ ys) = .ok () ↔ check xs = .ok () ∧ check ys = .ok ()) :
    Composes (planRows form check lookup) MergeBatch.append := by
  intro targets xs ys batch after
  generalize hbetw : (mergeRows form (form.foundBy answer) targets xs).2 = between
  have hkn : ∀ k, between.known.lookup k = none ↔ targets.known.lookup k = none ∧ ∀ row ∈ xs, form.keyOf row ≠ .inl k := by
    intro k
    rw [← hbetw, known_mergeRows]
  have hmem : ∀ ref, ref ∈ lookupRefs form targets (xs ++ ys) ↔ ref ∈ lookupRefs form targets xs ++ lookupRefs form between ys := by
    intro ref
    simp only [mem_append, mem_lookupRefs, hkn]
    constructor
    · rintro ⟨row, hrow, k, hk, hnone, href⟩
      by_cases hx : ∀ row ∈ xs, form.keyOf row ≠ .inl k
      · exact .inr ⟨row, hrow.resolve_left fun hrow => hx row hrow hk, k, hk, ⟨hnone, hx⟩, href⟩
      · push Not at hx
        obtain ⟨other, hoth, hk⟩ := hx
        exact .inl ⟨other, hoth, k, hk, hnone, href⟩
    · rintro (⟨row, hrow, hlooked⟩ | ⟨row, hrow, k, hk, ⟨hnone, -⟩, href⟩)
      · exact ⟨row, .inl hrow, hlooked⟩
      · exact ⟨row, .inr hrow, k, hk, hnone, href⟩
  have hapart : (lookupRefs form targets xs).Disjoint (lookupRefs form between ys) := by
    intro ref hx hy
    obtain ⟨row, hrow, k, hk, -, href⟩ := mem_lookupRefs.mp hx
    obtain ⟨_, -, k', -, hnone, href'⟩ := mem_lookupRefs.mp hy
    exact ((hkn k').mp hnone).2 row hrow (form.refOf_inj k k' ref href href' ▸ hk)
  have hperm : (lookupRefs form targets (xs ++ ys)).Perm
      (lookupRefs form targets xs ++ lookupRefs form between ys) :=
    (perm_ext_iff_of_nodup (nodup_dedup _) ((nodup_dedup _).append (nodup_dedup _) hapart)).mpr hmem
  have hplan : planned form answer targets (xs ++ ys) =
      ((planned form answer targets xs).1.append (planned form answer between ys).1, (planned form answer between ys).2) := by
    simp [planned, mergeRows_append, hbetw, hperm.length_eq, MergeBatch.append]
  have hgood : (∀ ref ∈ lookupRefs form targets (xs ++ ys), good ref) ↔
      (∀ ref ∈ lookupRefs form targets xs, good ref) ∧ ∀ ref ∈ lookupRefs form between ys, good ref := by
    simp only [hmem, forall_mem_append]
  have haft : (planned form answer targets xs).2 = between := hbetw
  simp only [planRows_ok_iff h, hgood, hcheck, hplan]
  constructor
  · rintro ⟨⟨⟨hcx, hcy⟩, hx, hy⟩, heq⟩
    obtain ⟨rfl, rfl⟩ := Prod.mk.inj heq
    exact ⟨_, between, _, ⟨⟨hcx, hx⟩, Prod.ext rfl haft⟩, ⟨⟨hcy, hy⟩, rfl⟩, rfl⟩
  · rintro ⟨fst, other, snd, ⟨⟨hcx, hx⟩, hfst⟩, ⟨⟨hcy, hy⟩, hsnd⟩, rfl⟩
    rw [hfst] at haft ⊢
    obtain rfl : other = between := haft
    rw [hsnd]
    exact ⟨⟨⟨hcx, hcy⟩, hx, hy⟩, rfl⟩

/-- References with known labels are looked up in one list. -/
def lookupMatches {ι ν : Type} (resolve : τ → Except String (Option ι)) (find : List ι → List (Option ν)) (idOf : ν → ℕ)
    (refs : List τ) : Except String (List (τ × ℕ)) := do
  let resolved ← refs.mapM fun ref => do
    let target ← resolve ref
    .ok (target.map fun target => (ref, target))
  let resolved := resolved.reduceOption
  if resolved.isEmpty then .ok []
  else .ok (((resolved.map (·.1)).zip (find (resolved.map (·.2)))).filterMap fun entry => entry.2.map fun r => (entry.1, idOf r))

omit [LinearOrder τ] in
theorem answers_lookupMatches {ι ν : Type} {resolve : τ → Except String (Option ι)} {find : List ι → List (Option ν)}
    {idOf : ν → ℕ} {one : ι → Option ν} (hfind : ∀ targets, find targets = targets.map one) :
    Answers (lookupMatches resolve find idOf) (fun ref => ∃ tgt, resolve ref = .ok tgt)
      fun ref => ((resolve ref).toOption.join.bind one).map idOf := by
  intro refs found
  have hback : (∀ ref ∈ refs, ∃ tgt, resolve ref = .ok tgt) → (refs.mapM fun ref => do
      let tgt ← resolve ref
      Except.ok (tgt.map fun tgt => (ref, tgt))) =
      .ok (refs.map fun ref => (resolve ref).toOption.join.map fun tgt => (ref, tgt)) := by
    intro hok
    apply mapM_of_forall
    intro ref href
    obtain ⟨tgt, htgt⟩ := hok ref href
    simp [htgt, ok_bind, Except.toOption]
  have hans : lookupMatches resolve find idOf refs = (refs.mapM fun ref => do
      let tgt ← resolve ref
      Except.ok (tgt.map fun tgt => (ref, tgt))) >>= fun resolved =>
        .ok (resolved.reduceOption.filterMap fun entry => (one entry.2).map fun r => (entry.1, idOf r)) := by
    rw [lookupMatches]
    congr 1
    funext resolved
    cases hemp : resolved.reduceOption with
    | nil => rfl
    | cons entry rest =>
      rw [if_neg (by simp), hfind, map_map, zip_map', filterMap_map]
      rfl
  have hsame : (refs.map fun ref => (resolve ref).toOption.join.map fun tgt => (ref, tgt)).reduceOption.filterMap
      (fun entry => (one entry.2).map fun r => (entry.1, idOf r)) = refs.filterMap fun ref =>
        (((resolve ref).toOption.join.bind one).map idOf).map (ref, ·) := by
    change ((refs.map _).filterMap id).filterMap _ = _
    rw [filterMap_map, filterMap_filterMap]
    refine filterMap_congr fun ref _ => ?_
    cases htgt : (resolve ref).toOption.join <;> simp [htgt, Function.comp_def]
  rw [hans, ← hsame]
  constructor
  · intro h
    obtain ⟨resolved, hrslv, hfnd⟩ := bind_ok h
    have hok : ∀ ref ∈ refs, ∃ tgt, resolve ref = .ok tgt := by
      intro ref href
      obtain ⟨entry, -, hent⟩ := forall₂_mem (mapM_ok.mp hrslv) href
      obtain ⟨tgt, htgt, -⟩ := bind_ok hent
      exact ⟨tgt, htgt⟩
    rw [hback hok] at hrslv
    rw [← ok.inj hrslv] at hfnd
    exact ⟨hok, (ok.inj hfnd).symm⟩
  · rintro ⟨hok, rfl⟩
    rw [hback hok, ok_bind]

end

inductive TxnLocalRef
  | slot (n : ℕ)
  | alias (name : String)
  deriving DecidableEq

/-- A reference is also the key of an endpoint. -/
inductive TxnNodeRef
  | id (id : ℕ)
  | key (label key : String)
  | localRef (ref : TxnLocalRef)
  deriving DecidableEq

def TxnNodeRef.isKey : TxnNodeRef → Bool
  | .key _ _ => true
  | _ => false

/-- An input is also the key it is merged under. -/
structure TxnUniqueEdgeMergeInput where
  source : TxnNodeRef
  target : TxnNodeRef
  label : String
  deriving DecidableEq

abbrev Triple := ℕ ×ₗ ℕ ×ₗ String

def txnCommittedEdgeMergeTriple (input : TxnUniqueEdgeMergeInput) : Option Triple :=
  match input.source, input.target with
  | .id source, .id target => some (toLex (source, toLex (target, input.label)))
  | _, _ => none

variable {input : TxnUniqueEdgeMergeInput}

theorem committed_parts {triple : Triple}
    (h : txnCommittedEdgeMergeTriple input = some triple) : input.source = .id (ofLex triple).1 ∧
      input.target = .id (ofLex (ofLex triple).2).1 ∧ input.label = (ofLex (ofLex triple).2).2 := by
  obtain ⟨src, tgt, label⟩ := input
  cases src <;> cases tgt <;> cases h
  exact ⟨rfl, rfl, rfl⟩

theorem committed_inj {other : TxnUniqueEdgeMergeInput} {triple : Triple}
    (h : txnCommittedEdgeMergeTriple input = some triple) (hoth : txnCommittedEdgeMergeTriple other = some triple) :
    input = other := by
  obtain ⟨hsrc, htgt, hlab⟩ := committed_parts h
  obtain ⟨hsource', htarget', hlab'⟩ := committed_parts hoth
  cases input
  cases other
  simp_all

inductive TxnUniqueEdgeMergeRowOutcome
  | skippedNull
  | existing (id : ℕ)
  | matchedLocal (slot : ℕ)
  | create (slot : ℕ) (source target : TxnNodeRef) (label : String)

def TxnUniqueEdgeMergeRowOutcome.existingId : TxnUniqueEdgeMergeRowOutcome → Option ℕ
  | .existing id => some id
  | _ => none

abbrev TxnKeyedNodeMergeBatchOutcome := MergeBatch RowOutcome

abbrev TxnUniqueEdgeMergeBatchOutcome := MergeBatch TxnUniqueEdgeMergeRowOutcome

def nodeForm : RowForm (String × String) (String × String) RowOutcome (String ×ₗ String) where
  keyOf := .inl
  refOf key := some (toLex key)
  refOf_inj _ _ _ h h' := toLex.injective (Option.some.inj (h.trans h'.symm))
  render _ outcome := outcome
  existingId := RowOutcome.existingId
  existingId_render _ _ := rfl

def TxnUniqueEdgeMergeInput.outcome (input : TxnUniqueEdgeMergeInput) : RowOutcome → TxnUniqueEdgeMergeRowOutcome
  | .existing id => .existing id
  | .matchedLocal slot => .matchedLocal slot
  | .create slot => .create slot input.source input.target input.label

def edgeForm : RowForm TxnUniqueEdgeMergeInput (Option TxnUniqueEdgeMergeInput) TxnUniqueEdgeMergeRowOutcome
    Triple where
  keyOf := fun row => row.elim (.inr .skippedNull) .inl
  refOf := txnCommittedEdgeMergeTriple
  refOf_inj _ _ _ := committed_inj
  render := TxnUniqueEdgeMergeInput.outcome
  existingId := TxnUniqueEdgeMergeRowOutcome.existingId
  existingId_render _ _ := rfl

def missingTriple : TxnUniqueEdgeMergeRowOutcome → Option Triple
  | .create _ source target label => txnCommittedEdgeMergeTriple ⟨source, target, label⟩
  | _ => none

def TxnUniqueEdgeMergeBatchOutcome.missingCommittedTriples (batch : TxnUniqueEdgeMergeBatchOutcome) :
    Finset Triple := (batch.rows.filterMap missingTriple).toFinset

/-- What the planners read of a transaction; its snapshot is a cut of accepted writes. -/
structure WriteTxn where
  snapshot : Layering
  accepted : Accepted snapshot.history
  nodeLabels : LabelCatalog
  edgeLabels : LabelCatalog
  edgeUniqueness : Bool
  closed : Bool

namespace WriteTxn
variable (txn : WriteTxn)

def ensureOpen : Except String Unit := if txn.closed then .error "transaction is closed" else .ok ()

def resolveNodeKey (key : String ×ₗ String) : Except String (Option (ℕ × String)) := do
  let labelId ← resolveNodeLabelForRead txn.nodeLabels (ofLex key).1
  .ok (labelId.map fun labelId => (labelId, (ofLex key).2))

def gqlLookupNodeMergeKeys : List (String ×ₗ String) → Except String (List ((String ×ₗ String) × ℕ)) :=
  lookupMatches txn.resolveNodeKey txn.snapshot.sources.findNodesByLabelKeys (·.id)

/-- Labels of edges are resolved as labels of nodes are. -/
def resolveEdgeTriple (triple : Triple) : Except String (Option (ℕ × ℕ × ℕ)) := do
  let labelId ← resolveNodeLabelForRead txn.edgeLabels (ofLex (ofLex triple).2).2
  .ok (labelId.map fun labelId => ((ofLex triple).1, (ofLex (ofLex triple).2).1, labelId))

def gqlLookupEdgeMergeTriples : List Triple → Except String (List (Triple × ℕ)) :=
  lookupMatches txn.resolveEdgeTriple txn.snapshot.sources.findEdgesByTriples (·.id)

/-- An overlay holds the targets of nodes and those of relationships; each planner works on its own. -/
def planKeyedNodeMergeBatch : Targets (String × String) → List (String × String) →
    Except String (TxnKeyedNodeMergeBatchOutcome × Targets (String × String)) :=
  planRows nodeForm (fun _ => txn.ensureOpen) txn.gqlLookupNodeMergeKeys

def checkInputs (inputs : List (Option TxnUniqueEdgeMergeInput)) : Except String Unit := do
  txn.ensureOpen
  if !txn.edgeUniqueness then .error "GQL relationship MERGE requires edge_uniqueness=true"
  else if inputs.any (·.any fun input => input.source.isKey || input.target.isKey) then
    .error "transaction relationship MERGE planner requires resolved node IDs or local refs"
  else .ok ()

def planUniqueEdgeMergeBatch : Targets TxnUniqueEdgeMergeInput → List (Option TxnUniqueEdgeMergeInput) →
    Except String (TxnUniqueEdgeMergeBatchOutcome × Targets TxnUniqueEdgeMergeInput) :=
  planRows edgeForm txn.checkInputs txn.gqlLookupEdgeMergeTriples

theorem answers_nodeKeys : Answers txn.gqlLookupNodeMergeKeys (fun key => ∃ tgt, txn.resolveNodeKey key = .ok tgt)
    fun key => ((txn.resolveNodeKey key).toOption.join.bind
      (owner HasKey (visible txn.snapshot.sources.nodeLayers))).map (·.id) :=
  answers_lookupMatches (Layering.keysIndexed txn.accepted.keysUnambiguous).findNodesByLabelKeys

theorem answers_edgeTriples : Answers txn.gqlLookupEdgeMergeTriples
    (fun triple => ∃ tgt, txn.resolveEdgeTriple triple = .ok tgt)
    fun triple => ((txn.resolveEdgeTriple triple).toOption.join.bind
      fun t => (txn.snapshot.sources.findEdgesByTriples [t]).head?.join).map (·.id) :=
  answers_lookupMatches (SourceList.findEdgesByTriples_each _)

theorem checkInputs_append (xs ys : List (Option TxnUniqueEdgeMergeInput)) :
    txn.checkInputs (xs ++ ys) = .ok () ↔ txn.checkInputs xs = .ok () ∧ txn.checkInputs ys = .ok () := by
  simp only [checkInputs, seq_ok, any_append, Bool.or_eq_true]
  split_ifs <;> simp_all

theorem resolved_label {ι : Type} {cat : LabelCatalog} {label : String} {f : ℕ → ι} {tgt : ι}
    (h : (do
      let labelId ← resolveNodeLabelForRead cat label
      ok (labelId.map f)).toOption.join = some tgt) : ∃ labelId, cat.lookup label = some labelId ∧ f labelId = tgt := by
  cases hlab : resolveNodeLabelForRead cat label with
  | error msg =>
    rw [hlab] at h
    cases h
  | ok found =>
    rw [hlab, ok_bind] at h
    rw [← resolveNodeLabelForRead_ok hlab]
    exact map_eq_some_iff.mp h

def NodeMissing (key : String × String) : Prop :=
  ∀ labelId id, txn.nodeLabels.lookup key.1 = some labelId → ¬OwnsKey (visible txn.snapshot.sources.nodeLayers) labelId key.2 id

/-- A relationship between committed nodes is not found. -/
def EdgeMissing (input : TxnUniqueEdgeMergeInput) : Prop :=
  ∀ source target labelId, input.source = .id source → input.target = .id target → txn.edgeLabels.lookup input.label = some labelId →
    txn.snapshot.sources.findEdgesByTriples [(source, target, labelId)] = [none]

theorem nodeMissing_found {key : String × String} (h : txn.NodeMissing key) :
    nodeForm.foundBy (fun key => ((txn.resolveNodeKey key).toOption.join.bind
      (owner HasKey (visible txn.snapshot.sources.nodeLayers))).map (·.id)) key = none := by
  rw [RowForm.foundBy, nodeForm, Option.bind_some, Option.map_eq_none_iff, Option.bind_eq_none_iff]
  intro tgt htgt
  obtain ⟨labelId, hlab, rfl⟩ := resolved_label htgt
  cases howner : owner HasKey (visible txn.snapshot.sources.nodeLayers) (labelId, key.2) with
  | none => exact howner
  | some node =>
    obtain ⟨id, hnode⟩ := (owner_eq_some_iff (Layering.keysIndexed txn.accepted.keysUnambiguous).unique).mp howner
    exact absurd ⟨node, hnode⟩ (h labelId id hlab)

theorem edgeMissing_found (h : txn.EdgeMissing input) :
    edgeForm.foundBy (fun triple => ((txn.resolveEdgeTriple triple).toOption.join.bind
      fun t => (txn.snapshot.sources.findEdgesByTriples [t]).head?.join).map (·.id)) input = none := by
  rw [RowForm.foundBy, Option.bind_eq_none_iff]
  intro triple htri
  rw [Option.map_eq_none_iff, Option.bind_eq_none_iff]
  intro tgt htgt
  obtain ⟨labelId, hlab, rfl⟩ := resolved_label htgt
  obtain ⟨hsrc, htgt, hname⟩ := committed_parts htri
  rw [h _ _ labelId hsrc htgt (hname ▸ hlab)]
  rfl

/-- Two batches over one overlay are one batch over both lists of rows, and the first row of what is missing
creates it. -/
theorem merge_batches_compose :
    (Composes txn.planKeyedNodeMergeBatch .append ∧ ∀ targets before key after outcome, key ∉ before →
      targets.known.lookup key = none → txn.NodeMissing key →
      txn.planKeyedNodeMergeBatch targets (before ++ key :: after) = .ok outcome →
      CreatedOnce nodeForm key before after outcome.1.rows) ∧
    (Composes txn.planUniqueEdgeMergeBatch .append ∧ ∀ targets before input after outcome, some input ∉ before →
      targets.known.lookup input = none → txn.EdgeMissing input →
      txn.planUniqueEdgeMergeBatch targets (before ++ some input :: after) = .ok outcome →
      CreatedOnce edgeForm input before after outcome.1.rows) := by
  refine ⟨⟨?_, ?_⟩, ?_, ?_⟩
  · exact planRows_composes txn.answers_nodeKeys fun _ _ => (and_self_iff).symm
  · intro targets before key after outcome hbefore hknown hmissing hplan
    rw [← ((planRows_ok_iff txn.answers_nodeKeys).mp hplan).2]
    exact created_once rfl (fun other hother heq => hbefore (Sum.inl.inj heq ▸ hother)) hknown
      (txn.nodeMissing_found hmissing)
  · exact planRows_composes txn.answers_edgeTriples txn.checkInputs_append
  · intro targets before input after outcome hbefore hknown hmissing hplan
    rw [← ((planRows_ok_iff txn.answers_edgeTriples).mp hplan).2]
    refine created_once rfl (fun other hother heq => ?_) hknown (txn.edgeMissing_found hmissing)
    cases other with
    | none => cases heq
    | some row => exact hbefore (Sum.inl.inj heq ▸ hother)

end WriteTxn

end OverGraph.MergeBatches
