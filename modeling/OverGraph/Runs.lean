import Mathlib.Data.List.Basic

/-!
# Runs of a partial step function

A system is given by what each event does to a state, where an event that is not
enabled has no successor. A run is a list of events; an invariant holds along every
run all of whose events are taken in states that admit them.
-/

namespace OverGraph.Runs

variable {σ ε : Type*}

/-- The state after a list of events, if every one of them is enabled. -/
def run (step : σ → ε → Option σ) : σ → List ε → Option σ
  | s, [] => some s
  | s, e :: es => (step s e).bind fun s' => run step s' es

/-- Each event of the run is taken in a state that admits it. -/
def Admits (step : σ → ε → Option σ) (admitted : σ → ε → Prop) : σ → List ε → Prop
  | _, [] => True
  | s, e :: es => admitted s e ∧ ∀ s', step s e = some s' → Admits step admitted s' es

variable {step : σ → ε → Option σ} {admitted : σ → ε → Prop}

theorem run_cons_eq_some {s s' : σ} {e : ε} {es : List ε} :
    run step s (e :: es) = some s' ↔ ∃ mid, step s e = some mid ∧ run step mid es = some s' :=
  Option.bind_eq_some_iff

/-- What every admitted step preserves, every admitted run preserves. -/
theorem run_invariant {inv : σ → Prop} (hstep : ∀ s e s', inv s → admitted s e → step s e = some s' → inv s')
    {s s' : σ} {es : List ε} (hinv : inv s) (hadm : Admits step admitted s es)
    (hrun : run step s es = some s') : inv s' := by
  induction es generalizing s with
  | nil =>
    cases hrun
    exact hinv
  | cons e es ih =>
    obtain ⟨mid, hmid, hrest⟩ := run_cons_eq_some.mp hrun
    exact ih (hstep s e mid hinv hadm.1 hmid) (hadm.2 mid hmid) hrest

end OverGraph.Runs
