import OverGraph.Fallible

/-!
# Runs that stop when they have something

A run over a list stops after the step that makes its state done. The states have a size that no step takes down, and are done when it is
not zero. Where the run that does not stop succeeds, the run that stops succeeds, too, and has something if the other has.
-/

namespace OverGraph.StoppedRuns
open Fallible List

variable {σ α ε : Type}

/-- Take one item after the other until the state is done. -/
def runUntil (done : σ → Bool) (step : σ → α → Except ε σ) : List α → σ → Except ε σ
  | [], s => .ok s
  | a :: l, s => do
    let s ← step s a
    if done s then .ok s else runUntil done step l s

theorem runUntil_never (step : σ → α → Except ε σ) (l : List α) (s : σ) : runUntil (fun _ => false) step l s = l.foldlM step s := by
  induction l generalizing s with
  | nil => rfl
  | cons a l ih =>
    rw [runUntil, foldlM_cons]
    cases step s a with
    | error error => rfl
    | ok next => exact ih next

/-- The first state is the second one, or has a part of what the second one has. -/
def Serves (size : σ → ℕ) (u t : σ) : Prop := u = t ∨ 0 < size u ∧ size u ≤ size t

section
variable {size : σ → ℕ} {u t : σ}

theorem serves_refl (s : σ) : Serves size s s := Or.inl rfl

theorem Serves.le (h : Serves size u t) : size u ≤ size t := by
  obtain rfl | ⟨-, hle⟩ := h
  · exact Nat.le_refl _
  · exact hle

theorem Serves.pos_iff (h : Serves size u t) : 0 < size u ↔ 0 < size t := by
  refine ⟨fun hu => Nat.lt_of_lt_of_le hu h.le, fun ht => ?_⟩
  obtain rfl | ⟨hu, -⟩ := h
  · exact ht
  · exact hu

theorem Serves.map {τ : Type} {size' : τ → ℕ} {f : σ → τ} (h : Serves size u t) (hf : ∀ s, size' (f s) = size s) :
    Serves size' (f u) (f t) := by
  obtain rfl | ⟨hu, hle⟩ := h
  · exact serves_refl _
  · exact Or.inr ⟨(hf u).symm ▸ hu, (hf u).symm ▸ (hf t).symm ▸ hle⟩

end

/-- What a run that stops owes to one that does not. -/
def ServedBy (size : σ → ℕ) (one all : Except ε σ) : Prop := ∀ t, all = .ok t → ∃ u, one = .ok u ∧ Serves size u t

variable {size : σ → ℕ}

theorem servedBy_refl (run : Except ε σ) : ServedBy size run run := fun t ht => ⟨t, ht, serves_refl t⟩

theorem ServedBy.map {τ : Type} {size' : τ → ℕ} {one all : Except ε σ} (h : ServedBy size one all) {f : σ → τ}
    (hf : ∀ s, size' (f s) = size s) : ServedBy size' (one.map f) (all.map f) := by
  intro t ht
  cases all with
  | error error => cases ht
  | ok s =>
    obtain rfl := Except.ok.inj ht
    obtain ⟨u, rfl, hsrv⟩ := h s rfl
    exact ⟨f u, rfl, hsrv.map hf⟩

variable {one all : Except ε σ}

theorem ServedBy.mapError {ε' : Type} (h : ServedBy size one all) {f : ε → ε'} :
    ServedBy size (one.mapError f) (all.mapError f) := by
  intro t ht
  cases all with
  | error error => cases ht
  | ok s =>
    obtain rfl := Except.ok.inj ht
    obtain ⟨u, rfl, hsrv⟩ := h s rfl
    exact ⟨u, rfl, hsrv⟩

/-- A check that passes passes for what is smaller. -/
theorem ServedBy.bind_check (h : ServedBy size one all) {check : σ → Except ε σ}
    (hid : ∀ s t, check s = .ok t → t = s) (hsmal : ∀ s t, size s ≤ size t → check t = .ok t → check s = .ok s) :
    ServedBy size (one >>= check) (all >>= check) := by
  intro t ht
  obtain ⟨s, hs, ht⟩ := bind_ok ht
  obtain rfl := hid s t ht
  obtain ⟨u, hu, hsrv⟩ := h _ hs
  rw [hu, ok_bind]
  exact ⟨u, hsmal u _ hsrv.le ht, hsrv⟩

/-- The steps of a run that stops may themselves stop early. -/
theorem servedBy_runUntil {done : σ → Bool} {all one : σ → α → Except ε σ} {l : List α}
    (hdone : ∀ s, done s = true ↔ 0 < size s) (hone : ∀ a ∈ l, ∀ s, ServedBy size (one s a) (all s a))
    (hgrows : ∀ a ∈ l, ∀ s t, all s a = .ok t → size s ≤ size t) (s : σ) :
    ServedBy size (runUntil done one l s) (l.foldlM all s) := by
  intro t h
  induction l generalizing s with
  | nil => exact ⟨s, rfl, Or.inl (Except.ok.inj h)⟩
  | cons a l ih =>
    rw [foldlM_cons] at h
    obtain ⟨next, hnext, h⟩ := bind_ok h
    obtain ⟨reached, hrch, hsrv⟩ := hone a mem_cons_self s next hnext
    have hlat : size next ≤ size t := foldlM_keeps (fun s => size next ≤ size s)
      (fun b hb s s' hs hstep => Nat.le_trans hs (hgrows b (mem_cons_of_mem _ hb) s s' hstep)) (Nat.le_refl _) h
    rw [runUntil, hrch, ok_bind]
    by_cases hpos : done reached = true
    · exact ⟨reached, if_pos hpos, Or.inr ⟨(hdone reached).mp hpos, Nat.le_trans hsrv.le hlat⟩⟩
    · rw [if_neg hpos]
      obtain rfl | ⟨hrch, -⟩ := hsrv
      · exact ih (fun b hb => hone b (mem_cons_of_mem _ hb)) (fun b hb => hgrows b (mem_cons_of_mem _ hb)) reached h
      · exact absurd ((hdone reached).mpr hrch) hpos

end OverGraph.StoppedRuns
