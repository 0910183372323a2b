import Mathlib.Data.List.Dedup
import Mathlib.Data.List.Sort
import OverGraph.LayeredWrites

/-!
# Limited scans of layers

A limited read gathers identifiers layer by layer and returns what it has as soon as there are enough, or
gives up with a marker. What it returns is complete below the limit, provided that every step hands on all
it found, and that a step which stops early has as many distinct identifiers as the limit asks for.
-/

namespace OverGraph.LimitedScans
open LayeredWrites List

variable {ι ρ : Type*}

/-- What a limited read returns: distinct identifiers that may be there, and all that must be, below the limit. -/
structure Answers (limit : ℕ) (may must : ι → Prop) (ids : List ι) : Prop where
  nodup : ids.Nodup
  sound : ∀ id ∈ ids, may id
  complete : ids.length < limit → ∀ id, must id → id ∈ ids

variable {ids : List ι}

theorem Answers.mono {limit : ℕ} {may must may' must' : ι → Prop} (h : Answers limit may must ids)
    (hmay : ∀ id, may id → may' id) (hmust : ∀ id, must' id → must id) : Answers limit may' must' ids where
  nodup := h.nodup
  sound id hid := hmay id (h.sound id hid)
  complete hsh id hid := h.complete hsh id (hmust id hid)

/-- The identifiers that the layers list, each layer with what it says, where no newer layer hides them. -/
def unshadowed (hides : Option (Option ρ) → Bool) : (ι → Bool) → List (List ι × Opinion ι ρ) → List ι
  | _, [] => []
  | above, (ids, opinion) :: lays => (ids.filter fun id => !above id) ++ unshadowed hides (fun id => above id || hides (opinion id)) lays

/-- A layer lists the wanted records that it shows, each once. -/
structure Posts (wanted : ι → ρ → Prop) (layer : List ι × Opinion ι ρ) : Prop where
  nodup : layer.1.Nodup
  mem : ∀ id, id ∈ layer.1 ↔ ∃ record, layer.2 id = some (some record) ∧ wanted id record

section
variable {wanted : ι → ρ → Prop} {lays : List (List ι × Opinion ι ρ)} {above : ι → Bool}

theorem unshadowed_append (hides : Option (Option ρ) → Bool) (newer older : List (List ι × Opinion ι ρ)) :
    unshadowed hides above (newer ++ older) =
      unshadowed hides above newer ++ unshadowed hides (fun id => above id || newer.any fun lay => hides (lay.2 id)) older := by
  induction newer generalizing above with
  | nil => simp [unshadowed]
  | cons lay newer ih =>
    obtain ⟨ids, opinion⟩ := lay
    rw [cons_append, unshadowed, unshadowed, ih, append_assoc]
    simp only [any_cons, Bool.or_assoc]

theorem unshadowed_layers {τ : Type*} {hides : Option (Option ρ) → Bool} {hidden : τ → ι → Bool} {posted : τ → List ι × Opinion ι ρ}
    {fst : τ} {others : List τ} (hhid : ∀ lay ∈ fst :: others, ∀ id, hidden lay id = hides ((posted lay).2 id))
    (below : List (List ι × Opinion ι ρ)) :
    unshadowed hides (fun _ => false) ((fst :: others).map posted ++ below) = (posted fst).1 ++
      (unshadowed hides (hidden fst) (others.map posted) ++
        unshadowed hides (fun id => hidden fst id || others.any (hidden · id)) below) := by
  have hfst : (fun id => false || hides ((posted fst).2 id)) = hidden fst := by
    funext id
    rw [hhid fst mem_cons_self, Bool.false_or]
  have hab : (fun id => hidden fst id || (others.map posted).any fun lay => hides (lay.2 id)) =
      fun id => hidden fst id || others.any (hidden · id) := by
    funext id
    rw [any_map]
    congr 1
    rw [Bool.eq_iff_iff, any_eq_true, any_eq_true]
    apply exists_congr
    intro lay
    apply and_congr_right
    intro hlay
    rw [Function.comp_apply, hhid lay (mem_cons_of_mem _ hlay)]
  rw [map_cons, cons_append, unshadowed, hfst, unshadowed_append, hab]
  simp only [Bool.not_false, filter_true]

/-- Where every opinion hides, a scan finds the wanted records that are visible. -/
theorem mem_unshadowed (h : ∀ lay ∈ lays, Posts wanted lay) {id : ι} : id ∈ unshadowed Option.isSome above lays ↔
      above id = false ∧ ∃ r, visible (lays.map (·.2)) id = some r ∧ wanted id r := by
  induction lays generalizing above with
  | nil => simp [unshadowed, visible, firstOpinion]
  | cons lay lays ih =>
    obtain ⟨ids, opinion⟩ := lay
    have hposts := (h (ids, opinion) mem_cons_self).mem id
    have hrest := @ih (fun id => above id || (opinion id).isSome) fun lay hlay => h lay (mem_cons_of_mem _ hlay)
    dsimp only at hposts
    rw [unshadowed, mem_append, mem_filter, hrest, hposts]
    simp only [visible, map_cons, firstOpinion_cons]
    cases hop : opinion id with
    | none => simp
    | some held =>
      cases held with
      | none => simp
      | some r => simp [and_comm]

theorem nodup_unshadowed (h : ∀ lay ∈ lays, Posts wanted lay) : (unshadowed Option.isSome above lays).Nodup := by
  induction lays generalizing above with
  | nil => exact nodup_nil
  | cons lay lays ih =>
    obtain ⟨ids, opinion⟩ := lay
    have hposts := h (ids, opinion) mem_cons_self
    have hrest : ∀ lay ∈ lays, Posts wanted lay := fun lay hlay => h lay (mem_cons_of_mem _ hlay)
    rw [unshadowed]
    apply Nodup.append (hposts.nodup.filter _) (ih hrest)
    -- what an older layer adds is not known to this one
    intro id hid hoth
    obtain ⟨r, hrec, -⟩ := (hposts.mem id).mp (mem_of_mem_filter hid)
    have hunk := ((mem_unshadowed hrest).mp hoth).1
    dsimp only at hrec
    rw [Bool.or_eq_false_iff, hrec] at hunk
    cases hunk.2

/-- The opinion that a record is gone. -/
def isDeletion : Option (Option ρ) → Bool
  | some none => true
  | _ => false

section
variable (h : ∀ lay ∈ lays, Posts wanted lay) {id : ι}
include h

/-- Where only deletions hide, an identifier that is found is visible, and some layer lists it. -/
theorem visible_of_mem_unshadowed (hid : id ∈ unshadowed isDeletion above lays) :
    above id = false ∧ (∃ r, visible (lays.map (·.2)) id = some r) ∧ ∃ lay ∈ lays, id ∈ lay.1 := by
  induction lays generalizing above with
  | nil => cases hid
  | cons lay lays ih =>
    obtain ⟨ids, opinion⟩ := lay
    rw [unshadowed, mem_append] at hid
    simp only [visible, map_cons, firstOpinion_cons]
    rcases hid with hid | hid
    · obtain ⟨hmem, hab⟩ := mem_filter.mp hid
      obtain ⟨r, hrec, -⟩ := ((h (ids, opinion) mem_cons_self).mem id).mp hmem
      dsimp only at hrec
      refine ⟨by simpa using hab, ⟨r, ?_⟩, (ids, opinion), mem_cons_self, hmem⟩
      rw [hrec]
      rfl
    · obtain ⟨hab, ⟨r, hrec⟩, lay, hlay, hmem⟩ := ih (fun lay hlay => h lay (mem_cons_of_mem _ hlay)) hid
      rw [Bool.or_eq_false_iff] at hab
      refine ⟨hab.1, ?_, lay, mem_cons_of_mem _ hlay, hmem⟩
      cases hop : opinion id with
      | none => exact ⟨r, hrec⟩
      | some held =>
        cases held with
        | none =>
          rw [hop] at hab
          cases hab.2
        | some newer => exact ⟨newer, rfl⟩

theorem mem_unshadowed_of_visible {r : ρ}
    (hvis : visible (lays.map (·.2)) id = some r) (hwant : wanted id r) (hab : above id = false) :
    id ∈ unshadowed isDeletion above lays := by
  induction lays generalizing above with
  | nil => cases hvis
  | cons lay lays ih =>
    obtain ⟨ids, opinion⟩ := lay
    simp only [visible, map_cons, firstOpinion_cons] at hvis
    rw [unshadowed, mem_append]
    cases hop : opinion id with
    | none =>
      rw [hop] at hvis
      apply Or.inr
      apply ih (fun lay hlay => h lay (mem_cons_of_mem _ hlay)) hvis
      rw [hab, hop]
      rfl
    | some held =>
      rw [hop] at hvis
      obtain rfl : held = some r := hvis
      apply Or.inl
      apply mem_filter.mpr
      exact ⟨((h (ids, opinion) mem_cons_self).mem id).mpr ⟨r, hop, hwant⟩, by rw [hab]; rfl⟩

end

end

/-- One layer after the other, each below what the newer ones hide. -/
def overLayers {τ σ ε : Type*} (hidden : τ → ι → Bool) (step : (ι → Bool) → τ → σ → Except ε σ) : (ι → Bool) → List τ → σ → Except ε σ
  | _, [], st => .ok st
  | above, lay :: lays, st => step above lay st >>= overLayers hidden step (fun id => above id || hidden lay id) lays

section
variable [LinearOrder ι]

/-- What a read hands out, in order. -/
def finalize (ids : List ι) : List ι := (ids.insertionSort (· ≤ ·)).dedup

theorem mem_finalize {id : ι} : id ∈ finalize ids ↔ id ∈ ids := by rw [finalize, mem_dedup, (perm_insertionSort _ _).mem_iff]

theorem finalize_perm (h : ids.Nodup) : (finalize ids).Perm ids := by
  have hsort : (ids.insertionSort (· ≤ ·)).Nodup := (perm_insertionSort _ _).nodup_iff.mpr h
  rw [finalize, hsort.dedup]
  exact perm_insertionSort _ _

theorem finalize_subperm (ids : List ι) : (finalize ids).Subperm ids := (dedup_sublist _).subperm.trans (perm_insertionSort _ _).subperm

variable {τ σ ε α : Type*} (limit : ℕ) (gathered : σ → List ι) (answer : ε → Option (List ι))

/-- An outcome that is handed out holds the limit's number of what has been gathered or is to come. -/
def Full (out ids : List ι) : Prop := ∃ part, out = finalize part ∧ part.Subperm ids ∧ limit ≤ part.length

def handedOut (final : σ → List ι) (answer : ε → Option (List ι)) : Except ε σ → Option (List ι)
  | .ok st => some (final st)
  | .error e => answer e

/-- From a state, a step adds some identifiers, or it stops with enough of them or with a marker. -/
structure Adds (st : σ) (outcome : Except ε σ) (ids : List ι) : Prop where
  ok : ∀ next, outcome = .ok next → (gathered next).Perm (gathered st ++ ids)
  stopped : ∀ e out, outcome = .error e → answer e = some out → Full limit out (gathered st ++ ids)

variable {limit gathered answer} {more out : List ι}

theorem Full.mono (h : Full limit out ids) (hsub : ids.Subperm more) : Full limit out more := by
  obtain ⟨part, hout, hpart, hlen⟩ := h
  exact ⟨part, hout, hpart.trans hsub, hlen⟩

theorem adds_ok (st : σ) : Adds limit gathered answer st (.ok st) [] where
  ok next h := by
    cases h
    rw [append_nil]
  stopped e out h := by cases h

variable {outcome : Except ε σ}

/-- A step that follows what has been added already. -/
theorem Adds.after {st mid : σ} (hmid : (gathered mid).Perm (gathered st ++ ids))
    (h : Adds limit gathered answer mid outcome more) : Adds limit gathered answer st outcome (ids ++ more) := by
  have hboth : (gathered mid ++ more).Perm (gathered st ++ (ids ++ more)) := by
    rw [← append_assoc]
    exact hmid.append_right more
  constructor
  case ok =>
    intro next hnext
    exact (h.ok next hnext).trans hboth
  case stopped =>
    intro e out herr hout
    exact (h.stopped e out herr hout).mono hboth.subperm

/-- Two steps add what both add. -/
theorem Adds.bind {st : σ} {fst : Except ε σ} {snd : σ → Except ε σ}
    (hfst : Adds limit gathered answer st fst ids)
    (hsnd : ∀ next, fst = .ok next → Adds limit gathered answer next (snd next) more) :
    Adds limit gathered answer st (fst >>= snd) (ids ++ more) := by
  cases fst with
  | error e =>
    constructor
    case ok =>
      intro next h
      cases h
    case stopped =>
      intro e' out h hout
      obtain rfl : e = e' := Except.error.inj h
      apply (hfst.stopped e out rfl hout).mono
      rw [← append_assoc]
      exact (sublist_append_left _ _).subperm
  | ok mid => exact (hsnd mid rfl).after (hfst.ok mid rfl)

theorem Adds.foldlM {f : σ → α → Except ε σ} {ids : α → List ι} {items : List α}
    (h : ∀ st, ∀ a ∈ items, Adds limit gathered answer st (f st a) (ids a)) (st : σ) :
    Adds limit gathered answer st (items.foldlM f st) (items.flatMap ids) := by
  induction items generalizing st with
  | nil => exact adds_ok st
  | cons a items ih =>
    rw [foldlM_cons, flatMap_cons]
    apply (h st a mem_cons_self).bind
    exact fun next _ => ih (fun st b hb => h st b (mem_cons_of_mem _ hb)) next

variable {posted : τ → List ι × Opinion ι ρ} {hides : Option (Option ρ) → Bool} {hidden : τ → ι → Bool}

theorem Adds.overLayers {step : (ι → Bool) → τ → σ → Except ε σ} {lays : List τ}
    (hhid : ∀ lay ∈ lays, ∀ id, hidden lay id = hides ((posted lay).2 id)) (h : ∀ above st, ∀ lay ∈ lays,
      Adds limit gathered answer st (step above lay st) ((posted lay).1.filter fun id => !above id))
    (above : ι → Bool) (st : σ) :
    Adds limit gathered answer st (overLayers hidden step above lays st) (unshadowed hides above (lays.map posted)) := by
  induction lays generalizing above st with
  | nil => exact adds_ok st
  | cons lay lays ih =>
    rw [LimitedScans.overLayers, map_cons, unshadowed]
    apply (h above st lay mem_cons_self).bind
    intro next _
    simp only [hhid lay mem_cons_self]
    exact ih (fun lay hlay => hhid lay (mem_cons_of_mem _ hlay))
      (fun above st lay hlay => h above st lay (mem_cons_of_mem _ hlay)) _ next

/-- A read that starts with nothing and hands out what it has gathered in the end. -/
theorem Adds.answers {start : σ} (h : Adds limit gathered answer start outcome ids)
    (hst : gathered start = []) (hnd : ids.Nodup) (hout : handedOut (fun st => finalize (gathered st)) answer outcome = some out)
    {wanted : ι → Prop} (hwant : ∀ id, id ∈ ids ↔ wanted id) : Answers limit wanted wanted out := by
  have hpart : ∃ part, out = finalize part ∧ part.Subperm ids ∧ (limit ≤ part.length ∨ part.Perm ids) := by
    cases outcome with
    | error e =>
      obtain ⟨part, hfinl, hsub, hlen⟩ := h.stopped e out rfl hout
      rw [hst, nil_append] at hsub
      exact ⟨part, hfinl, hsub, Or.inl hlen⟩
    | ok st =>
      have hperm := h.ok st rfl
      rw [hst, nil_append] at hperm
      exact ⟨gathered st, (Option.some.inj hout).symm, hperm.subperm, Or.inr hperm⟩
  obtain ⟨part, rfl, hsub, hlen⟩ := hpart
  have hdist : part.Nodup := by
    obtain ⟨l, hperm, hsublist⟩ := hsub
    exact hperm.nodup_iff.mp (hsublist.nodup hnd)
  constructor
  case nodup => exact nodup_dedup _
  case sound =>
    intro id hid
    exact (hwant id).mp (hsub.subset (mem_finalize.mp hid))
  case complete =>
    intro hsh id hid
    rw [(finalize_perm hdist).length_eq] at hsh
    rcases hlen with hlen | hperm
    · omega
    · exact mem_finalize.mpr (hperm.mem_iff.mpr ((hwant id).mpr hid))

theorem filter_last_lt {entries : List ι} (hsort : entries.Pairwise (· < ·)) {n : ℕ} {last : ι}
    (hlast : (entries.take n).getLast? = some last) : entries.filter (decide <| last < ·) = entries.drop n := by
  obtain ⟨page, hpage⟩ := getLast?_eq_some_iff.mp hlast
  have hsp : (page ++ [last]) ++ entries.drop n = entries := by rw [← hpage, take_append_drop]
  rw [← hsp] at hsort
  obtain ⟨hin, -, hbeh⟩ := pairwise_append.mp hsort
  obtain ⟨-, -, hbef⟩ := pairwise_append.mp hin
  conv_lhs => rw [← hsp, filter_append]
  have hnone : (page ++ [last]).filter (decide <| last < ·) = [] := by
    apply filter_eq_nil_iff.mpr
    intro entry hent
    rw [decide_eq_true_iff, not_lt]
    rcases mem_append.mp hent with hent | hent
    · exact (hbef entry hent last mem_cons_self).le
    · exact (mem_singleton.mp hent).le
  have hall : (entries.drop n).filter (decide <| last < ·) = entries.drop n := by
    apply filter_eq_self.mpr
    intro entry hent
    exact decide_eq_true (hbeh last (mem_append_right _ mem_cons_self) entry hent)
  rw [hnone, hall, nil_append]

/-- From distinct identifiers, a step adds those of a list that are new, or it stops with enough or with a marker. -/
structure Collects (answer : ε → Option (List ι)) (limit : ℕ) (st : List ι) (outcome : Except ε (List ι)) (ids : List ι) : Prop where
  ok : st.Nodup → ∀ next, outcome = .ok next → next.Nodup ∧ ∀ id, id ∈ next ↔ id ∈ st ∨ id ∈ ids
  stopped : st.Nodup → ∀ e out, outcome = .error e → answer e = some out → out.Nodup ∧ limit ≤ out.length ∧ ∀ id ∈ out, id ∈ st ∨ id ∈ ids

omit [LinearOrder ι] in
theorem collects_ok (st : List ι) : Collects answer limit st (.ok st) [] where
  ok hst next h := by
    cases h
    exact ⟨hst, fun id => by simp⟩
  stopped hst e out h := by cases h

omit [LinearOrder ι] in
theorem Collects.bind {st : List ι} {fst : Except ε (List ι)} {snd : List ι → Except ε (List ι)}
    (hfst : Collects answer limit st fst ids) (hsnd : ∀ next, Collects answer limit next (snd next) more) :
    Collects answer limit st (fst >>= snd) (ids ++ more) := by
  cases fst with
  | error e =>
    constructor
    case ok =>
      intro hst next h
      cases h
    case stopped =>
      intro hst e' out h hout
      obtain rfl : e = e' := Except.error.inj h
      obtain ⟨hnd, hlen, hmem⟩ := hfst.stopped hst e out rfl hout
      exact ⟨hnd, hlen, fun id hid => (hmem id hid).imp_right fun hmem => mem_append_left _ hmem⟩
  | ok mid =>
    constructor
    case ok =>
      intro hst next h
      obtain ⟨hmid, hmem⟩ := hfst.ok hst mid rfl
      obtain ⟨hnext, hmore⟩ := (hsnd mid).ok hmid next h
      exact ⟨hnext, fun id => by rw [hmore, hmem, mem_append, or_assoc]⟩
    case stopped =>
      intro hst e out h hout
      obtain ⟨hmid, hmem⟩ := hfst.ok hst mid rfl
      obtain ⟨hnd, hlen, hmore⟩ := (hsnd mid).stopped hmid e out h hout
      refine ⟨hnd, hlen, fun id hid => ?_⟩
      rw [mem_append, ← or_assoc, ← hmem]
      exact hmore id hid

omit [LinearOrder ι] in
theorem Collects.overLayers {step : (ι → Bool) → τ → List ι → Except ε (List ι)} {lays : List τ}
    (hhid : ∀ lay ∈ lays, ∀ id, hidden lay id = hides ((posted lay).2 id)) (h : ∀ above st, ∀ lay ∈ lays,
      Collects answer limit st (step above lay st) ((posted lay).1.filter fun id => !above id))
    (above : ι → Bool) (st : List ι) :
    Collects answer limit st (overLayers hidden step above lays st) (unshadowed hides above (lays.map posted)) := by
  induction lays generalizing above st with
  | nil => exact collects_ok st
  | cons lay lays ih =>
    rw [LimitedScans.overLayers, map_cons, unshadowed]
    apply (h above st lay mem_cons_self).bind
    intro next
    simp only [hhid lay mem_cons_self]
    exact ih (fun lay hlay => hhid lay (mem_cons_of_mem _ hlay))
      (fun above st lay hlay => h above st lay (mem_cons_of_mem _ hlay)) _ next

theorem Collects.answers {outcome : Except ε (List ι)} (h : Collects answer limit [] outcome ids)
    (hout : handedOut (·.insertionSort (· ≤ ·)) answer outcome = some out) {may must : ι → Prop} (hmay : ∀ id ∈ ids, may id)
    (hmust : ∀ id, must id → id ∈ ids) : Answers limit may must out := by
  cases outcome with
  | error e =>
    obtain ⟨hnd, hlen, hmem⟩ := h.stopped nodup_nil e out rfl hout
    constructor
    case nodup => exact hnd
    case sound => exact fun id hid => hmay id ((hmem id hid).resolve_left not_mem_nil)
    case complete =>
      intro hsh
      omega
  | ok st =>
    obtain ⟨hnd, hmem⟩ := h.ok nodup_nil st rfl
    obtain rfl : st.insertionSort (· ≤ ·) = out := Option.some.inj hout
    have hperm := perm_insertionSort (· ≤ ·) st
    constructor
    case nodup => exact hperm.nodup_iff.mpr hnd
    case sound => exact fun id hid => hmay id (((hmem id).mp (hperm.mem_iff.mp hid)).resolve_left not_mem_nil)
    case complete => exact fun _ id hid => hperm.mem_iff.mpr ((hmem id).mpr (Or.inr (hmust id hid)))

end

end OverGraph.LimitedScans
