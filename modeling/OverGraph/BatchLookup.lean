import Mathlib.Data.List.Induction
import OverGraph.AssocMaps
import OverGraph.LayeredWrites

/-!
# Batched lookups through a stack of layers

A batch of keys is resolved layer by layer. A result slot is opened for every key,
the unresolved lookups are carried as pairs of a slot and a key, and each layer
answers those it has an opinion about: a value is stored in the slot, a deletion
leaves the slot blank, and only lookups without an opinion go on to the next layer.
The bookkeeping differs from loop to loop; what every loop keeps is `Settled`: the
slots hold what the layers passed so far say, and the lookups carried on are those
they say nothing about.
-/

namespace OverGraph.BatchLookup
open Option hiding filter_map get map_id' map_map
open AssocMaps LayeredWrites List

variable {κ ρ : Type*}

/-- The result slots and the lookups that no layer has answered yet. -/
structure Batch (κ ρ : Type*) where
  results : List ρ
  remaining : List (ℕ × κ)

/-- The keys with their positions. -/
def enumerate (keys : List κ) : List (ℕ × κ) := keys.zipIdx.map Prod.swap

def Batch.start (blank : ρ) (keys : List κ) : Batch κ ρ :=
  ⟨List.replicate keys.length blank, enumerate keys⟩

variable {i : ℕ} {k : κ}

theorem mem_enumerate {keys : List κ} : (i, k) ∈ enumerate keys ↔ keys[i]? = some k := by
  simp [enumerate, mem_zipIdx_iff_getElem?]

/-- What a slot shows once a key has been asked of some layers. -/
def shown (blank : ρ) (opinion : Option (Option ρ)) : ρ := opinion.join.getD blank

/-- The slots show what the layers passed so far say, and the lookups carried on are
those on which they are silent. -/
structure Settled (keys : List κ) (blank : ρ) (seen : Opinion κ ρ) (b : Batch κ ρ) : Prop where
  results : b.results = keys.map fun k => shown blank (seen k)
  remaining : ∀ i k, (i, k) ∈ b.remaining ↔ keys[i]? = some k ∧ seen k = none

theorem settled_start (keys : List κ) (blank : ρ) : Settled keys blank (fun _ => none) (Batch.start blank keys) where
  results := by simp [Batch.start, shown]
  remaining i k := by simp [Batch.start, mem_enumerate]

/-- The opinion of a stack extended by one older layer. -/
def below (seen layer : Opinion κ ρ) : Opinion κ ρ := fun k => (seen k).or (layer k)

section
variable {keys : List κ} {blank : ρ} {seen : Opinion κ ρ} {b : Batch κ ρ}

section
variable (h : Settled keys blank seen b)
include h

theorem Settled.reorder {remaining : List (ℕ × κ)}
    (hperm : remaining.Perm b.remaining) : Settled keys blank seen { b with remaining } where
  results := h.results
  remaining i k := by rw [hperm.mem_iff, h.remaining]

theorem Settled.exhausted (hemp : b.remaining = [])
    (layer : Opinion κ ρ) : Settled keys blank (below seen layer) b where
  results := by
    rw [h.results]
    refine map_congr_left fun k hk => ?_
    obtain ⟨i, hi⟩ := mem_iff_getElem?.mp hk
    cases hs : seen k with
    | some o => simp [below, hs]
    | none => exact absurd ((h.remaining i k).mpr ⟨hi, hs⟩) (by simp [hemp])
  remaining i k := by
    simp only [hemp, not_mem_nil, false_iff, below, or_eq_none_iff, not_and]
    intro hi hs
    exact absurd ((h.remaining i k).mpr ⟨hi, hs⟩) (by simp [hemp])

theorem Settled.slot (hi : keys[i]? = some k) : b.results[i]? = some (shown blank (seen k)) := by
  simp [h.results, hi]

end

/-- To settle one more layer, say what each slot and each lookup has become. -/
theorem Settled.next {b' : Batch κ ρ} (h : Settled keys blank seen b) (layer : Opinion κ ρ)
    (hlen : b'.results.length = b.results.length) (hslot : ∀ (i : ℕ) k, keys[i]? = some k → seen k = none →
      b'.results[i]? = some (shown blank (layer k)))
    (hkept : ∀ (i : ℕ) k, keys[i]? = some k → seen k ≠ none → b'.results[i]? = b.results[i]?)
    (hrem : ∀ i k, (i, k) ∈ b'.remaining ↔ (i, k) ∈ b.remaining ∧ layer k = none) :
    Settled keys blank (below seen layer) b' where
  results := by
    refine ext_getElem? fun i => ?_
    cases hi : keys[i]? with
    | none =>
      have hlt : keys.length ≤ i := by simpa using hi
      have hb : b.results.length = keys.length := by simp [h.results]
      rw [getElem?_eq_none (by omega), getElem?_map, hi, map_none]
    | some k =>
      rw [getElem?_map, hi, map_some]
      cases hs : seen k with
      | none => simp [hslot i k hi hs, below, hs]
      | some o => simp [hkept i k hi (by simp [hs]), h.slot hi, below, hs]
  remaining i k := by
    rw [hrem, h.remaining]
    simp [below, and_assoc]

end

/-- Store the answers that exist, each in its own slot. -/
def storeAll (answer : κ → Option ρ) (lookups : List (ℕ × κ)) (ress : List ρ) : List ρ :=
  lookups.foldl (fun ress lookup =>
    match answer lookup.2 with
    | some r => ress.set lookup.1 r
    | none => ress) ress

/-- Each slot belongs to one key. -/
def SlotsOwned (lookups : List (ℕ × κ)) : Prop := ∀ i k k', (i, k) ∈ lookups → (i, k') ∈ lookups → k = k'

variable (answer : κ → Option ρ)

theorem storeAll_cons (lookup : ℕ × κ) (lookups : List (ℕ × κ))
    (ress : List ρ) : storeAll answer (lookup :: lookups) ress = storeAll answer lookups (match answer lookup.2 with
        | some r => ress.set lookup.1 r
        | none => ress) := rfl

@[simp] theorem length_storeAll (lookups : List (ℕ × κ))
    (ress : List ρ) : (storeAll answer lookups ress).length = ress.length := by
  induction lookups generalizing ress with
  | nil => rfl
  | cons lookup lookups ih =>
    rw [storeAll_cons, ih]
    cases answer lookup.2 <;> simp

theorem storeAll_append (fst snd : List (ℕ × κ)) (ress : List ρ) : storeAll answer (fst ++ snd) ress =
      storeAll answer snd (storeAll answer fst ress) := foldl_append

theorem storeAll_concat (passed : List (ℕ × κ)) (lookup : ℕ × κ)
    (slots : List ρ) : storeAll answer (passed ++ [lookup]) slots = match answer lookup.2 with
      | some r => (storeAll answer passed slots).set lookup.1 r
      | none => storeAll answer passed slots := by
  rw [storeAll_append]
  rfl

variable {lookups : List (ℕ × κ)}

/-- A slot none of whose lookups has an answer is left as it was. -/
theorem getElem?_storeAll_of_silent (h : ∀ k, (i, k) ∈ lookups → answer k = none) (ress : List ρ) :
    (storeAll answer lookups ress)[i]? = ress[i]? := by
  induction lookups generalizing ress with
  | nil => rfl
  | cons lookup lookups ih =>
    rw [storeAll_cons, ih fun k hk => h k (by simp [hk])]
    obtain ⟨j, k⟩ := lookup
    by_cases hj : j = i
    · simp [h k (by simp [hj])]
    · cases answer k <;> simp [getElem?_set_ne hj]

theorem getElem?_storeAll_of_mem {r : ρ} (howned : SlotsOwned lookups) (hmem : (i, k) ∈ lookups) (hr : answer k = some r)
    {ress : List ρ} (hi : i < ress.length) : (storeAll answer lookups ress)[i]? = some r := by
  induction lookups using List.reverseRecOn with
  | nil => cases hmem
  | append_singleton lookups lookup ih =>
    obtain ⟨j, k'⟩ := lookup
    rw [storeAll_append, storeAll, foldl_cons, foldl_nil]
    by_cases hj : j = i
    · subst hj
      have hkk : k' = k := howned j k' k (by simp) hmem
      subst hkk
      simp [hr, hi]
    · have hmem' : (i, k) ∈ lookups := by simpa [Ne.symm hj] using hmem
      have hear := ih (fun i k k' h h' => howned i k k' (by simp [h]) (by simp [h'])) hmem'
      cases answer k' with
      | none => exact hear
      | some r' => rw [getElem?_set_ne hj]; exact hear

theorem storeAll_congr {f g : κ → Option ρ} (h : ∀ lookup ∈ lookups, f lookup.2 = g lookup.2) (ress : List ρ) :
    storeAll f lookups ress = storeAll g lookups ress := by
  induction lookups generalizing ress with
  | nil => rfl
  | cons lookup lookups ih => rw [storeAll_cons, storeAll_cons, h lookup (by simp), ih fun l hl => h l (by simp [hl])]

/-- One layer answers the lookups it has an opinion about. -/
def resolve (layer : Opinion κ ρ) (b : Batch κ ρ) : Batch κ ρ :=
  ⟨storeAll (fun k => (layer k).join) b.remaining b.results, b.remaining.filter fun lookup => (layer lookup.2).isNone⟩

section
variable {keys : List κ} {blank : ρ} {seen : Opinion κ ρ} {b : Batch κ ρ}

section
variable (h : Settled keys blank seen b)
include h

theorem Settled.slotsOwned : SlotsOwned b.remaining := by
  intro i k k' hk hk'
  have h₁ := ((h.remaining i k).mp hk).1
  have h₂ := ((h.remaining i k').mp hk').1
  exact some.inj (h₁.symm.trans h₂)

theorem Settled.slot_lt (hmem : (i, k) ∈ b.remaining) : i < b.results.length := by
  have hi := ((h.remaining i k).mp hmem).1
  rw [h.results, length_map]
  exact (List.getElem?_eq_some_iff.mp hi).1

theorem Settled.slot_blank (hmem : (i, k) ∈ b.remaining) : b.results[i]? = some blank := by
  obtain ⟨hi, hs⟩ := (h.remaining i k).mp hmem
  rw [h.slot hi, hs]
  rfl

theorem Settled.resolve (layer : Opinion κ ρ) :
    Settled keys blank (below seen layer) (resolve layer b) := by
  refine h.next layer (by simp [BatchLookup.resolve]) ?_ ?_ ?_
  · intro i k hi hs
    have hmem := (h.remaining i k).mpr ⟨hi, hs⟩
    cases hr : (layer k).join with
    | some r =>
      have hstore := getElem?_storeAll_of_mem (fun k => (layer k).join)
        h.slotsOwned hmem hr (h.slot_lt hmem)
      simpa [BatchLookup.resolve, shown, hr] using hstore
    | none =>
      rw [BatchLookup.resolve, getElem?_storeAll_of_silent, h.slot_blank hmem, shown, hr]
      · rfl
      · intro k' hk'
        rw [h.slotsOwned i k' k hk' hmem, hr]
  · intro i k hi hs
    refine getElem?_storeAll_of_silent (fun k => (layer k).join) (fun k' hk' => absurd ?_ hs) _
    obtain ⟨hi', hs'⟩ := (h.remaining i k').mp hk'
    rwa [some.inj (hi.symm.trans hi')]
  · intro i k
    simp [BatchLookup.resolve]

end

end

/-! ## Stored layers

A stored layer keeps its deletions apart from its records. The lookups it has deleted
are dropped first, those it has a record for are then filled in. -/

variable {b : Batch κ ρ}

section
variable {ν : Type*} (deleted : κ → Bool) (get : κ → Option ν)

/-- What a stored layer says, when it writes `mark` for a deletion and `wrap v` for a
record. -/
def storedOpinion (mark : Option ρ) (wrap : ν → ρ) : Opinion κ ρ :=
  fun k => if deleted k then some mark else (get k).map fun v => some (wrap v)

theorem zip_map_self {α β : Type*} (l : List α) (f : α → β) : l.zip (l.map f) = l.map fun a => (a, f a) := by
  simpa using zip_map' (f := fun a => a) (g := f) (l := l)

/-- The loop that recognises the answered lookups by their filled slots. -/
def storedStep (b : Batch κ (Option ν)) : Batch κ (Option ν) :=
  let remaining := b.remaining.filter fun lookup => !deleted lookup.2
  if remaining.isEmpty then { b with remaining }
  else
    let ress := storeAll (fun k => (get k).map some) remaining b.results
    ⟨ress, remaining.filter fun lookup => ress[lookup.1]?.join.isNone⟩

/-- The loop that reads the layer into a scratch list of its own first. -/
def compactStep (mark : Option ρ) (wrap : ν → ρ) (b : Batch κ ρ) : Batch κ ρ :=
  let ress := storeAll (fun k => if deleted k then mark else none) b.remaining b.results
  let remaining := b.remaining.filter fun lookup => !deleted lookup.2
  if remaining.isEmpty then ⟨ress, remaining⟩
  else
    let segmentResults := storeAll (fun k => (get k).map some)
      (enumerate (remaining.map Prod.snd)) (List.replicate remaining.length none)
    let paired := remaining.zip segmentResults
    ⟨paired.foldl (fun ress entry =>
        match entry.2 with
        | some v => ress.set entry.1.1 (wrap v)
        | none => ress) ress,
      (paired.filter fun entry => entry.2.isNone).map Prod.fst⟩

private def deletions (mark : Option ρ) : Opinion κ ρ := fun k => if deleted k then some mark else none

private def records (wrap : ν → ρ) : Opinion κ ρ := fun k => (get k).map fun v => some (wrap v)

theorem below_deletions_records (seen : Opinion κ ρ) (mark : Option ρ) (wrap : ν → ρ) :
    below (below seen (deletions deleted mark)) (records get wrap) = below seen (storedOpinion deleted get mark wrap) := by
  funext k
  cases hd : deleted k <;> simp [below, deletions, records, storedOpinion, hd]

theorem resolve_deletions (mark : Option ρ) (b : Batch κ ρ) : resolve (deletions deleted mark) b =
      ⟨storeAll (fun k => if deleted k then mark else none) b.remaining b.results, b.remaining.filter fun lookup => !deleted lookup.2⟩ := by
  have hjoin : (fun k => (deletions deleted mark k).join) = fun k => if deleted k then mark else none := by
    funext k
    cases hd : deleted k <;> simp [deletions, hd]
  have hnone : (fun lookup : ℕ × κ => (deletions deleted mark lookup.2).isNone) = fun lookup => !deleted lookup.2 := by
    funext lookup
    cases hd : deleted lookup.2 <;> simp [deletions, hd]
  rw [resolve, hjoin, hnone]

theorem storeAll_silent (lookups : List (ℕ × κ)) (ress : List ρ) : storeAll (fun _ => none) lookups ress = ress := by
  induction lookups with
  | nil => rfl
  | cons lookup lookups ih => exact ih

theorem segmentResults_eq (keys : List κ) :
    storeAll (fun k => (get k).map some) (enumerate keys) (replicate keys.length none) = keys.map get := by
  have h := ((settled_start keys (none : Option ν)).resolve (records get some)).results
  have hjoin : (fun k => (records get some k).join) = fun k => (get k).map some := by
    funext k
    cases hg : get k <;> simp [records, hg]
  rw [BatchLookup.resolve, hjoin] at h
  refine h.trans (map_congr_left fun k _ => ?_)
  cases hg : get k <;> simp [below, records, shown, hg]

theorem compactStep_eq (mark : Option ρ) (wrap : ν → ρ) (b : Batch κ ρ) : compactStep deleted get mark wrap b =
      resolve (records get wrap) (resolve (deletions deleted mark) b) := by
  rw [resolve_deletions]
  unfold compactStep
  generalize b.remaining.filter (fun lookup => !deleted lookup.2) = remaining
  dsimp only
  have hseg := segmentResults_eq get (remaining.map Prod.snd)
  rw [length_map] at hseg
  rw [hseg, map_map]
  simp only [Function.comp_def, zip_map_self, foldl_map, filter_map, map_map, map_id']
  cases remaining with
  | nil => rfl
  | cons lookup remaining =>
    simp only [isEmpty_cons, Bool.false_eq_true, if_false, resolve, Batch.mk.injEq]
    refine ⟨?_, ?_⟩
    · unfold storeAll
      congr 1
      funext ress lookup
      cases hg : get lookup.2 <;> simp [records, hg]
    · congr 1
      funext lookup
      cases hg : get lookup.2 <;> simp [records, hg]

variable {keys : List κ} {seen : Opinion κ ρ}

theorem Settled.compactStep {blank : ρ} (h : Settled keys blank seen b)
    (mark : Option ρ) (wrap : ν → ρ) : Settled keys blank (below seen (storedOpinion deleted get mark wrap))
      (compactStep deleted get mark wrap b) := by
  rw [compactStep_eq, ← below_deletions_records]
  exact (h.resolve _).resolve _

theorem Settled.storedStep {seen : Opinion κ (Option ν)} {b : Batch κ (Option ν)} (h : Settled keys none seen b) :
    Settled keys none (below seen (storedOpinion deleted get none some)) (storedStep deleted get b) := by
  have h₁ := h.resolve (deletions deleted (none : Option (Option ν)))
  have hb : BatchLookup.resolve (deletions deleted (none : Option (Option ν))) b =
      { b with remaining := b.remaining.filter fun lookup => !deleted lookup.2 } := by
    rw [resolve_deletions]
    simp [storeAll_silent]
  rw [hb] at h₁
  have h₂ := h₁.resolve (records get some)
  rw [below_deletions_records] at h₂
  -- an open slot is blank, so it is filled exactly when the layer has a record
  have hfilled : ∀ lookup ∈ b.remaining.filter (fun lookup => !deleted lookup.2),
      (storeAll (fun k => (get k).map some) (b.remaining.filter fun lookup => !deleted lookup.2)
        b.results)[lookup.1]?.join.isNone = (get lookup.2).isNone := by
    intro lookup hmem
    cases hg : get lookup.2 with
    | some v =>
      have hanswer : (get lookup.2).map some = some (some v) := by rw [hg, map_some]
      rw [getElem?_storeAll_of_mem (fun k => (get k).map some) h₁.slotsOwned hmem hanswer
        (h₁.slot_lt hmem)]
      rfl
    | none =>
      rw [getElem?_storeAll_of_silent, h₁.slot_blank hmem]
      · rfl
      · intro k hk
        rw [h₁.slotsOwned _ _ _ hk hmem, hg]
        rfl
  have heq : BatchLookup.storedStep deleted get b = BatchLookup.resolve (records get some)
      { b with remaining := b.remaining.filter fun lookup => !deleted lookup.2 } := by
    have hjoin : (fun k => (records get some k).join) = fun k => (get k).map some := by
      funext k
      cases hg : get k <;> simp [records, hg]
    unfold BatchLookup.storedStep BatchLookup.resolve
    rw [hjoin]
    generalize b.remaining.filter (fun lookup => !deleted lookup.2) = remaining at hfilled ⊢
    dsimp only
    rw [filter_congr hfilled]
    cases remaining with
    | nil => rfl
    | cons lookup remaining => simp [records]
  rwa [heq]

end

section
variable {σ : Type*} {keys : List κ} {blank : ρ}

/-- Ask layer after layer until every lookup is answered. -/
def walk (step : σ → Batch κ ρ → Batch κ ρ) : List σ → Batch κ ρ → Batch κ ρ
  | [], b => b
  | layer :: lays, b => if b.remaining.isEmpty then b else walk step lays (step layer b)

/-- A walk whose every step settles its layer settles the stack. -/
theorem Settled.walk {step : σ → Batch κ ρ → Batch κ ρ} {opinion : σ → Opinion κ ρ} {lays : List σ}
    (hstep : ∀ layer ∈ lays, ∀ seen b, Settled keys blank seen b → Settled keys blank (below seen (opinion layer)) (step layer b))
    {seen : Opinion κ ρ} (h : Settled keys blank seen b) :
    Settled keys blank (below seen (firstOpinion (lays.map opinion))) (walk step lays b) := by
  induction lays generalizing seen b with
  | nil =>
    have hseen : below seen (firstOpinion []) = seen := by
      funext k
      simp [below]
    simpa [BatchLookup.walk, hseen] using h
  | cons layer lays ih =>
    unfold BatchLookup.walk
    split
    · rename_i hemp
      exact h.exhausted (by simpa using hemp) _
    · have hnext := ih (fun l hl => hstep l (by simp [hl])) (hstep layer (by simp) seen b h)
      have hseen : below (below seen (opinion layer)) (firstOpinion (lays.map opinion)) =
          below seen (firstOpinion ((layer :: lays).map opinion)) := by
        funext k
        simp [below, Option.or_assoc]
      rwa [hseen] at hnext

end

/-! ## Collecting claims

Where a layer can only say who claims a key, the claims are collected and verified
later. A search carries the open lookups and the claims, each with its slot. -/

section
variable {ι : Type*}

structure ClaimSearch (κ ι : Type*) where
  remaining : List (ℕ × κ)
  candidates : List (ℕ × κ × ι)

/-- One layer: a withdrawn claim closes the lookup without a candidate. -/
def claimStep (layer : Opinion κ ι) (search : ClaimSearch κ ι) : ClaimSearch κ ι :=
  ⟨search.remaining.filter fun lookup => (layer lookup.2).isNone, search.candidates ++ search.remaining.filterMap fun lookup =>
      (layer lookup.2).join.map fun id => (lookup.1, lookup.2, id)⟩

structure Claimed (keys : List κ) (seen : Opinion κ ι) (search : ClaimSearch κ ι) : Prop where
  remaining : ∀ i k, (i, k) ∈ search.remaining ↔ keys[i]? = some k ∧ seen k = none
  candidates : ∀ i k id,
    (i, k, id) ∈ search.candidates ↔ keys[i]? = some k ∧ seen k = some (some id)

theorem claimed_start (keys : List κ) : Claimed keys (fun _ => none) (⟨enumerate keys, []⟩ : ClaimSearch κ ι) where
  remaining i k := by simp [mem_enumerate]
  candidates i k id := by simp

variable {keys : List κ} {seen : Opinion κ ι} {search : ClaimSearch κ ι}

section
variable (h : Claimed keys seen search)
include h

theorem Claimed.reorder {remaining : List (ℕ × κ)}
    (hperm : remaining.Perm search.remaining) : Claimed keys seen { search with remaining } where
  remaining i k := by rw [hperm.mem_iff, h.remaining]
  candidates := h.candidates

theorem Claimed.claimStep (layer : Opinion κ ι) :
    Claimed keys (below seen layer) (claimStep layer search) where
  remaining i k := by simp [BatchLookup.claimStep, h.remaining, below, and_assoc]
  candidates i k id := by
    simp only [BatchLookup.claimStep, mem_append, h.candidates, mem_filterMap,
      Prod.exists, h.remaining, map_eq_some_iff, join_eq_some_iff, Prod.mk.injEq,
      below, or_eq_some_iff]
    constructor
    · rintro (⟨hi, hs⟩ | ⟨i', k', ⟨hi, hs⟩, id', hl, rfl, rfl, rfl⟩)
      · exact ⟨hi, .inl hs⟩
      · exact ⟨hi, .inr ⟨hs, hl⟩⟩
    · rintro ⟨hi, hs | ⟨hs, hl⟩⟩
      · exact .inl ⟨hi, hs⟩
      · exact .inr ⟨i, k, ⟨hi, hs⟩, id, hl, rfl, rfl, rfl⟩

theorem Claimed.exhausted (hemp : search.remaining = [])
    (layer : Opinion κ ι) : Claimed keys (below seen layer) search := by
  have hnone : ∀ (i : ℕ) k, keys[i]? = some k → seen k ≠ none := fun i k hi hs => absurd ((h.remaining i k).mpr ⟨hi, hs⟩) (by simp [hemp])
  refine ⟨fun i k => ?_, fun i k id => ?_⟩
  · simp only [hemp, not_mem_nil, false_iff, below, or_eq_none_iff, not_and]
    exact fun hi hs => absurd hs (hnone i k hi)
  · simp only [h.candidates, below, or_eq_some_iff]
    exact and_congr_right fun hi => ⟨.inl, fun hs => hs.resolve_right fun hs => hnone i k hi hs.1⟩

theorem Claimed.slotsOwned : SlotsOwned search.candidates := by
  rintro i ⟨k, id⟩ ⟨k', id'⟩ hk hk'
  obtain ⟨hi, hs⟩ := (h.candidates i k id).mp hk
  obtain ⟨hi', hs'⟩ := (h.candidates i k' id').mp hk'
  obtain rfl : k = k' := some.inj (hi.symm.trans hi')
  rw [hs, some.injEq, some.injEq] at hs'
  rw [hs']

/-- Storing what passes a check gives every key its checked claim. -/
theorem Claimed.storeAll (check : κ × ι → Option ρ) (known : κ → ρ) :
    storeAll check search.candidates (keys.map known) = keys.map fun k => ((seen k).join.bind fun id => check (k, id)).getD (known k) := by
  refine ext_getElem? fun i => ?_
  rw [getElem?_map]
  cases hi : keys[i]? with
  | none =>
    have hlt : keys.length ≤ i := by simpa using hi
    rw [getElem?_eq_none (by simpa using hlt), map_none]
  | some k =>
    have hlt : i < (keys.map known).length := by
      rw [length_map]
      exact (List.getElem?_eq_some_iff.mp hi).1
    rw [map_some]
    cases hc : (seen k).join.bind fun id => check (k, id) with
    | some r =>
      obtain ⟨id, hid, hr⟩ := bind_eq_some_iff.mp hc
      have hmem := (h.candidates i k id).mpr ⟨hi, join_eq_some_iff.mp hid⟩
      exact getElem?_storeAll_of_mem check h.slotsOwned hmem hr hlt
    | none =>
      rw [getElem?_storeAll_of_silent check, getElem?_map, hi]
      · rfl
      · rintro ⟨k', id⟩ hmem
        obtain ⟨hi', hs⟩ := (h.candidates i k' id).mp hmem
        obtain rfl : k = k' := some.inj (hi.symm.trans hi')
        simpa [hs] using hc

end

end

/-! ## Looking up with a cache

A layer that is asked about the same key more than once remembers its first answer:
the slot that already holds the value, or that the key was deleted or missing. -/

inductive CachedLookup where
  | live (cachedIdx : ℕ)
  | tombstone
  | miss
  deriving DecidableEq, Repr

variable [DecidableEq κ]

/-- The state of the cached loop. -/
structure CachedBatch (κ ρ : Type*) [DecidableEq κ] extends Batch κ ρ where
  cache : Map κ CachedLookup

def cachedStep (layer : Opinion κ ρ) (c : CachedBatch κ ρ) (lookup : ℕ × κ) : CachedBatch κ ρ :=
  match c.cache.lookup lookup.2 with
  | some (.live cachedIdx) =>
    match c.results[cachedIdx]? with
    | some r => { c with results := c.results.set lookup.1 r }
    | none => c
  | some .tombstone => c
  | some .miss => { c with remaining := c.remaining ++ [lookup] }
  | none =>
    match layer lookup.2 with
    | some (some r) =>
      { c with
        results := c.results.set lookup.1 r
        cache := c.cache.insert lookup.2 (.live lookup.1) }
    | some none => { c with cache := c.cache.insert lookup.2 .tombstone }
    | none =>
      { c with
        remaining := c.remaining ++ [lookup]
        cache := c.cache.insert lookup.2 .miss }

/-- Ask one layer about every open lookup, consulting the cache first. -/
def cachedResolve (layer : Opinion κ ρ) (b : Batch κ ρ) : Batch κ ρ := (b.remaining.foldl (cachedStep layer) ⟨⟨b.results, []⟩, ∅⟩).toBatch

/-- A cache entry tells the truth about its key. -/
private def EntryTrue (layer : Opinion κ ρ) (slots : List ρ) (passed : List (ℕ × κ)) (k : κ) : CachedLookup → Prop
  | .live idx => (idx, k) ∈ passed ∧ idx < slots.length ∧ ∃ r, layer k = some (some r)
  | .tombstone => layer k = some none
  | .miss => layer k = none

/-- Halfway through, the loop has resolved the lookups it has passed. -/
private structure CacheSound (layer : Opinion κ ρ) (slots : List ρ) (passed : List (ℕ × κ))
    (c : CachedBatch κ ρ) : Prop where
  results : c.results = storeAll (fun k => (layer k).join) passed slots
  remaining : c.remaining = passed.filter fun lookup => (layer lookup.2).isNone
  cache : ∀ k entry, c.cache.lookup k = some entry → EntryTrue layer slots passed k entry

omit [DecidableEq κ] in
theorem EntryTrue.grow {layer : Opinion κ ρ} {slots : List ρ} {passed : List (ℕ × κ)} {entry : CachedLookup} (h : EntryTrue layer slots passed k entry) (lookup : ℕ × κ) :
    EntryTrue layer slots (passed ++ [lookup]) k entry := by
  cases entry with
  | live idx => exact ⟨by simp [h.1], h.2⟩
  | tombstone | miss => exact h

variable {passed : List (ℕ × κ)} {layer : Opinion κ ρ} {slots : List ρ} {c : CachedBatch κ ρ}

theorem CacheSound.insert (h : CacheSound layer slots passed c) (lookup : ℕ × κ)
    {entry : CachedLookup} (hent : EntryTrue layer slots (passed ++ [lookup]) lookup.2 entry) :
    ∀ k e, (c.cache.insert lookup.2 entry).lookup k = some e → EntryTrue layer slots (passed ++ [lookup]) k e := by
  intro k e he
  by_cases hk : k = lookup.2
  · subst hk
    rw [AList.lookup_insert, some.injEq] at he
    exact he ▸ hent
  · rw [AList.lookup_insert_ne hk] at he
    exact (h.cache k e he).grow lookup

theorem CacheSound.step (h : CacheSound layer slots passed c) {lookup : ℕ × κ}
    (howned : SlotsOwned passed) (hlt : lookup.1 < slots.length) :
    CacheSound layer slots (passed ++ [lookup]) (cachedStep layer c lookup) := by
  unfold cachedStep
  cases hcache : c.cache.lookup lookup.2 with
  | some entry =>
    have htrue := h.cache _ _ hcache
    have hgrow := fun k e he => (h.cache k e he).grow lookup
    cases entry with
    | live idx =>
      obtain ⟨hmem, hidx, r, hr⟩ := htrue
      -- the slot the cache names still holds the value it was given
      have hslot : c.results[idx]? = some r := by
        rw [h.results]
        exact getElem?_storeAll_of_mem _ howned hmem (by simp [hr]) hidx
      simp only [hslot]
      exact ⟨by simp [storeAll_concat, hr, h.results], by simp [hr, h.remaining], hgrow⟩
    | tombstone =>
      have hd : layer lookup.2 = some none := htrue
      exact ⟨by simp [storeAll_concat, hd, h.results], by simp [hd, h.remaining], hgrow⟩
    | miss =>
      have hm : layer lookup.2 = none := htrue
      exact ⟨by simp [storeAll_concat, hm, h.results], by simp [hm, h.remaining], hgrow⟩
  | none =>
    rcases hl : layer lookup.2 with - | (- | r)
    · exact ⟨by simp [storeAll_concat, hl, h.results], by simp [hl, h.remaining], h.insert lookup hl⟩
    · exact ⟨by simp [storeAll_concat, hl, h.results], by simp [hl, h.remaining], h.insert lookup hl⟩
    · exact ⟨by simp [storeAll_concat, hl, h.results], by simp [hl, h.remaining], h.insert lookup ⟨by simp, hlt, r, hl⟩⟩

theorem cacheSound_run (layer : Opinion κ ρ) (slots : List ρ) (lookups : List (ℕ × κ))
    (howned : SlotsOwned lookups) (hlt : ∀ lookup ∈ lookups, lookup.1 < slots.length) :
    CacheSound layer slots lookups (lookups.foldl (cachedStep layer) ⟨⟨slots, []⟩, ∅⟩) := by
  induction lookups using List.reverseRecOn with
  | nil => exact ⟨rfl, rfl, fun k e he => by simp at he⟩
  | append_singleton lookups lookup ih =>
    rw [foldl_append]
    have howned' : SlotsOwned lookups := fun i k k' h h' => howned i k k' (by simp [h]) (by simp [h'])
    exact (ih howned' fun l hl => hlt l (by simp [hl])).step howned' (hlt lookup (by simp))

/-- The cache changes nothing but the number of times the layer is asked. -/
theorem cachedResolve_eq (layer : Opinion κ ρ) (howned : SlotsOwned b.remaining)
    (hlt : ∀ lookup ∈ b.remaining, lookup.1 < b.results.length) : cachedResolve layer b = resolve layer b := by
  have h := cacheSound_run layer b.results b.remaining howned hlt
  rw [cachedResolve, resolve, ← h.results, ← h.remaining]

theorem Settled.cachedResolve {keys : List κ} {blank : ρ} {seen : Opinion κ ρ}
    (h : Settled keys blank seen b) (layer : Opinion κ ρ) :
    Settled keys blank (below seen layer) (cachedResolve layer b) := by
  rw [cachedResolve_eq layer h.slotsOwned fun lookup hl => h.slot_lt hl]
  exact h.resolve layer

/-! ## Looking up with a cache of states

The same loop where the cache holds the answer itself and not its slot. -/

structure StateBatch (κ ρ : Type*) [DecidableEq κ] extends Batch κ ρ where
  cache : Map κ ρ

def stateStep (missing : ρ → Bool) (state : κ → ρ) (c : StateBatch κ ρ) (lookup : ℕ × κ) : StateBatch κ ρ :=
  let r := (c.cache.lookup lookup.2).getD (state lookup.2)
  let cache := if (c.cache.lookup lookup.2).isSome then c.cache else c.cache.insert lookup.2 r
  if missing r then { c with remaining := c.remaining ++ [lookup], cache }
  else { c with results := c.results.set lookup.1 r, cache }

def stateResolve (missing : ρ → Bool) (state : κ → ρ) (b : Batch κ ρ) : Batch κ ρ :=
  (b.remaining.foldl (stateStep missing state) ⟨⟨b.results, []⟩, ∅⟩).toBatch

/-- The opinion behind a table of states. -/
def stateOpinion (missing : ρ → Bool) (state : κ → ρ) : Opinion κ ρ := fun k => if missing (state k) then none else some (some (state k))

section
variable (missing : ρ → Bool) (state : κ → ρ)

theorem stateStep_run (slots : List ρ) (lookups : List (ℕ × κ)) :
    let c := lookups.foldl (stateStep missing state) ⟨⟨slots, []⟩, ∅⟩
    c.results = storeAll (fun k => (stateOpinion missing state k).join) lookups slots ∧
      c.remaining = lookups.filter (fun l => (stateOpinion missing state l.2).isNone) ∧
      ∀ k r, c.cache.lookup k = some r → r = state k := by
  induction lookups using List.reverseRecOn with
  | nil => exact ⟨rfl, rfl, fun k r hr => by simp at hr⟩
  | append_singleton lookups lookup ih =>
    obtain ⟨hres, hrem, hcache⟩ := ih
    rw [foldl_append, foldl_cons, foldl_nil]
    generalize lookups.foldl (stateStep missing state) ⟨⟨slots, []⟩, ∅⟩ = c at hres hrem hcache
    have hr : (c.cache.lookup lookup.2).getD (state lookup.2) = state lookup.2 := by
      cases h : c.cache.lookup lookup.2 with
      | none => rfl
      | some r => exact hcache _ _ h
    have hcache' : ∀ k r, (if (c.cache.lookup lookup.2).isSome then c.cache
        else c.cache.insert lookup.2 (state lookup.2)).lookup k = some r → r = state k := by
      intro k r hk
      split at hk
      · exact hcache k r hk
      · by_cases he : k = lookup.2
        · subst he
          simpa using hk.symm
        · rw [AList.lookup_insert_ne he] at hk
          exact hcache k r hk
    unfold stateStep
    simp only [hr]
    by_cases hm : missing (state lookup.2) = true
    · exact ⟨by simp [hm, storeAll_concat, stateOpinion, hres], by simp [hm, stateOpinion, hrem], by simpa [hm] using hcache'⟩
    · exact ⟨by simp [hm, storeAll_concat, stateOpinion, hres], by simp [hm, stateOpinion, hrem], by simpa [hm] using hcache'⟩

theorem stateResolve_eq (b : Batch κ ρ) :
    stateResolve missing state b = resolve (stateOpinion missing state) b := by
  obtain ⟨hres, hrem, -⟩ := stateStep_run missing state b.results b.remaining
  rw [stateResolve, resolve, ← hres, ← hrem]

end

end OverGraph.BatchLookup
