import Mathlib.Data.List.Forall2

/-!
# Runs of fallible steps

A run of steps that may fail stops at the first failure. Two runs whose steps agree on paired inputs
give the same results, or the same failure.
-/

namespace OverGraph.Fallible

open List Except Forall₂

section
variable {α β ε : Type}

theorem ok_bind (a : α) (f : α → Except ε β) : (ok a >>= f) = f a := rfl

theorem map_ok {f : α → β} {x : Except ε α} {b : β} (h : x.map f = .ok b) : ∃ a, x = .ok a ∧ b = f a := by
  cases x with
  | error error => cases h
  | ok a => exact ⟨a, rfl, (ok.inj h).symm⟩

/-- What a run that succeeded went through. -/
theorem bind_ok {x : Except ε α} {f : α → Except ε β} {b : β} (h : (x >>= f) = .ok b) : ∃ a, x = .ok a ∧ f a = .ok b := by
  cases x with
  | error error => cases h
  | ok a => exact ⟨a, rfl, h⟩

theorem seq_ok {x y : Except ε Unit} : (x >>= fun _ => y) = .ok () ↔ x = .ok () ∧ y = .ok () := by
  cases x with
  | error error => exact ⟨nofun, fun h => nomatch h.1⟩
  | ok _ => exact ⟨fun h => ⟨rfl, h⟩, fun h => h.2⟩

end

section
variable {α β γ ε : Type}

theorem mapM_of_forall {f : α → Except ε β} {g : α → β} {l : List α} (h : ∀ a ∈ l, f a = .ok (g a)) : l.mapM f = .ok (l.map g) := by
  induction l with
  | nil => rfl
  | cons a l ih =>
    rw [mapM_cons, h a mem_cons_self, ih fun other hoth => h other (mem_cons_of_mem _ hoth)]
    rfl

theorem mapM_ok {f : α → Except ε β} {l : List α} {ress : List β} : l.mapM f = .ok ress ↔ Forall₂ (fun a b => f a = .ok b) l ress := by
  induction l generalizing ress with
  | nil => exact ⟨fun h => ok.inj h ▸ nil, fun h => by cases h; rfl⟩
  | cons a l ih =>
    rw [mapM_cons]
    constructor
    · intro h
      obtain ⟨b, hb, h⟩ := bind_ok h
      obtain ⟨rest, hrest, h⟩ := bind_ok h
      obtain rfl := ok.inj h
      exact cons hb (ih.mp hrest)
    · intro h
      cases h with
      | cons hb hrest => rw [hb, ok_bind, ih.mpr hrest, ok_bind]; rfl

theorem mapM_eq_of_forall₂ {f : α → Except ε γ} {g : β → Except ε γ} {l₁ : List α} {l₂ : List β}
    (h : Forall₂ (fun a b => f a = g b) l₁ l₂) : l₁.mapM f = l₂.mapM g := by
  induction h with
  | nil => rfl
  | cons hab _ ih => rw [mapM_cons, mapM_cons, hab, ih]

variable {R : α → β → Prop} {as : List α} {bs : List β} {T : α → γ → Prop} {S : α × β → γ → Prop}

variable {cs : List γ}

/-- What pairs the members of one list with those of two others pairs those of the others. -/
theorem forall₂_of_zip
    (h : Forall₂ R as bs) (h' : Forall₂ S (as.zip bs) cs) (himp : ∀ a ∈ as, ∀ b ∈ bs, ∀ c, R a b → S (a, b) c → T a c) :
    Forall₂ T as cs := by
  induction h generalizing cs with
  | nil =>
    cases h'
    exact nil
  | @cons a b as bs hab _ ih =>
    cases h' with
    | cons hc hcs =>
      exact cons (himp a mem_cons_self b mem_cons_self _ hab hc) (ih hcs fun a' ha b' hb =>
        himp a' (mem_cons_of_mem _ ha) b' (mem_cons_of_mem _ hb))

theorem forall₂_zip
    (h : Forall₂ R as bs) (h' : Forall₂ T as cs) (himp : ∀ a ∈ as, ∀ b ∈ bs, ∀ c, R a b → T a c → S (a, b) c) :
    Forall₂ S (as.zip bs) cs := by
  induction h generalizing cs with
  | nil =>
    cases h'
    exact nil
  | @cons a b as bs hab _ ih =>
    cases h' with
    | cons hc hcs =>
      exact cons (himp a mem_cons_self b mem_cons_self _ hab hc) (ih hcs fun a' ha b' hb =>
        himp a' (mem_cons_of_mem _ ha) b' (mem_cons_of_mem _ hb))

theorem map_eq_of_forall₂ {δ : Type} {f : β → δ} {g : γ → δ}
    (h : Forall₂ R as bs) (h' : Forall₂ T as cs) (himp : ∀ a ∈ as, ∀ b c, R a b → T a c → g c = f b) : cs.map g = bs.map f := by
  induction h generalizing cs with
  | nil =>
    cases h'
    rfl
  | @cons a b as bs hab _ ih =>
    cases h' with
    | cons hc hcs => rw [map_cons, map_cons, himp a mem_cons_self _ _ hab hc, ih hcs fun a' ha => himp a' (mem_cons_of_mem _ ha)]

theorem forall₂_mem (h : Forall₂ R as bs) {a : α} (ha : a ∈ as) : ∃ b ∈ bs, R a b := by
  induction h with
  | nil => cases ha
  | cons hab _ ih =>
    obtain rfl | ha := mem_cons.mp ha
    · exact ⟨_, mem_cons_self, hab⟩
    · obtain ⟨b, hb, hR⟩ := ih ha
      exact ⟨b, mem_cons_of_mem _ hb, hR⟩

theorem exists_forall₂ (h : ∀ a ∈ as, ∃ b, R a b) : ∃ bs, Forall₂ R as bs := by
  induction as with
  | nil => exact ⟨[], nil⟩
  | cons a as ih =>
    obtain ⟨b, hb⟩ := h a mem_cons_self
    obtain ⟨bs, hbs⟩ := ih fun a' ha => h a' (mem_cons_of_mem _ ha)
    exact ⟨b :: bs, cons hb hbs⟩

theorem forall₂_imp_mem {R S : α → β → Prop} (h : Forall₂ R as bs) (himp : ∀ a ∈ as, ∀ b, R a b → S a b) : Forall₂ S as bs := by
  induction h with
  | nil => exact nil
  | cons hab _ ih => exact cons (himp _ mem_cons_self _ hab) (ih fun a ha => himp a (mem_cons_of_mem _ ha))

variable {check : α → Except ε Unit}

theorem forM_ok {l : List α} : l.forM check = .ok () ↔ ∀ a ∈ l, check a = .ok () := by
  induction l with
  | nil => exact ⟨fun _ => nofun, fun _ => rfl⟩
  | cons a l ih => rw [forM_eq_forM, forM_cons, seq_ok, ← forM_eq_forM, ih, forall_mem_cons]

theorem option_forM_ok {o : Option α} : o.forM check = .ok () ↔ ∀ a, o = some a → check a = .ok () := by
  cases o with
  | none => exact ⟨fun _ => nofun, fun _ => rfl⟩
  | some a => exact ⟨fun h b hb => Option.some.inj hb ▸ h, fun h => h a rfl⟩

end

section
variable {α β ε σ : Type} {bad : ε → Prop} {f : σ → α → Except ε σ} {l : List α}

theorem foldlM_keeps (inv : σ → Prop)
    (hstep : ∀ a ∈ l, ∀ s s', inv s → f s a = .ok s' → inv s') {s s' : σ} (hs : inv s) (h : l.foldlM f s = .ok s') : inv s' := by
  induction l generalizing s with
  | nil => exact ok.inj h ▸ hs
  | cons a l ih =>
    rw [foldlM_cons] at h
    obtain ⟨mid, hmid, h⟩ := bind_ok h
    exact ih (fun b hb => hstep b (mem_cons_of_mem _ hb)) (hstep a mem_cons_self s mid hs hmid) h

theorem foldlM_steps {s s' : σ} (h : l.foldlM f s = .ok s') {a : α} (ha : a ∈ l) : ∃ before after, f before a = .ok after := by
  induction l generalizing s with
  | nil => cases ha
  | cons b l ih =>
    rw [foldlM_cons] at h
    obtain ⟨mid, hmid, h⟩ := bind_ok h
    obtain rfl | ha := mem_cons.mp ha
    · exact ⟨s, mid, hmid⟩
    · exact ih h ha

/-- A result that is not one of the bad failures. -/
def Avoids (bad : ε → Prop) (res : Except ε α) : Prop := ∀ error, res = .error error → ¬bad error

theorem avoids_ok (a : α) : Avoids bad (.ok a) := nofun

theorem avoids_error {error : ε} (h : ¬bad error) : Avoids bad (.error error : Except ε α) := fun _ hoth => Except.error.inj hoth ▸ h

theorem Avoids.bind {x : Except ε α} {f : α → Except ε β} (h : Avoids bad x) (hf : ∀ a, x = .ok a → Avoids bad (f a)) :
    Avoids bad (x >>= f) := by
  cases x with
  | error error => exact fun other hoth => h other (Except.error.inj hoth ▸ rfl)
  | ok a => exact hf a rfl

theorem Avoids.map {x : Except ε α} {f : α → β} (h : Avoids bad x) : Avoids bad (x.map f) := by
  cases x with
  | error error => exact fun other hoth => h other (Except.error.inj hoth ▸ rfl)
  | ok a => exact avoids_ok _

theorem Avoids.mapM {f : α → Except ε β} (h : ∀ a ∈ l, Avoids bad (f a)) : Avoids bad (l.mapM f) := by
  induction l with
  | nil => exact avoids_ok _
  | cons a l ih =>
    rw [mapM_cons]
    refine (h a mem_cons_self).bind fun b _ => ?_
    exact (ih fun a' ha => h a' (mem_cons_of_mem _ ha)).bind fun bs _ => avoids_ok _

theorem Avoids.foldlM (inv : σ → Prop) (h : ∀ a ∈ l, ∀ s, inv s → Avoids bad (f s a))
    (hstep : ∀ a ∈ l, ∀ s s', inv s → f s a = .ok s' → inv s') {s : σ} (hs : inv s) : Avoids bad (l.foldlM f s) := by
  induction l generalizing s with
  | nil => exact avoids_ok _
  | cons a l ih =>
    rw [foldlM_cons]
    refine (h a mem_cons_self s hs).bind fun mid hmid => ?_
    exact ih (fun b hb => h b (mem_cons_of_mem _ hb)) (fun b hb => hstep b (mem_cons_of_mem _ hb))
      (hstep a mem_cons_self s mid hs hmid)

end

end OverGraph.Fallible
