import OverGraph.LayeredWrites

/-!
# Ledgers of numbered records

A ledger is a log whose records are numbered by a counter. An entry deletes whatever has a number, rewrites a live
record without touching what identifies it, or creates a record under the next number, and no record takes a key
that another one has. Then no two records ever share a key, and what identifies a record never changes.
-/

namespace OverGraph.Ledgers
open LayeredWrites List

abbrev Log (ν : Type*) := List (ℕ × Option ν)

variable {κ ν τ : Type*} {log : Log ν} {next id : ℕ} {v w : ν}

/-- The live records. -/
def current (log : Log ν) (id : ℕ) : Option ν := (lastWrite log id).join

/-- Nobody but the record itself has a key of the value. -/
def Free (carries : κ → ν → Prop) (log : Log ν) (id : ℕ) (v : ν) : Prop := ∀ k j, carries k v → Owns carries (current log) k j → j = id

/-- A live record is rewritten, or one is created under a new number. -/
inductive Kept (ident : ν → τ) (log : Log ν) (next id : ℕ) (v : ν) : ℕ → Prop
  | rewrite {old : ν} (hlive : current log id = some old) (hsame : ident v = ident old) : Kept ident log next id v next
  | create {next' : ℕ} (hnew : next ≤ id) (hlt : id < next') : Kept ident log next id v next'

inductive Ledger (carries : κ → ν → Prop) (ident : ν → τ) : Log ν → ℕ → Prop
  | empty (next : ℕ) : Ledger carries ident [] next
  | delete {log : Log ν} {next : ℕ} (h : Ledger carries ident log next) (id : ℕ) : Ledger carries ident (log ++ [(id, none)]) next
  | write {log : Log ν} {next next' id : ℕ} {v : ν} (h : Ledger carries ident log next) (hfree : Free carries log id v)
    (hkept : Kept ident log next id v next') : Ledger carries ident (log ++ [(id, some v)]) next'

theorem current_concat (log : Log ν) (w : ℕ × Option ν) (id : ℕ) : current (log ++ [w]) id = if w.1 = id then w.2 else current log id := by
  rw [current, lastWrite_append]
  by_cases h : w.1 = id <;> simp [lastWrite, h, current]

theorem mem_of_current (h : current log id = some v) : (id, some v) ∈ log := mem_of_lastWrite_eq_some (Option.join_eq_some_iff.mp h)

variable {carries : κ → ν → Prop} {ident : ν → τ}

theorem unique_write (h : OwnersUnique carries (current log)) (hfree : Free carries log id v) :
    OwnersUnique carries (current (log ++ [(id, some v)])) := by
  rintro k i j ⟨a, ha, hka⟩ ⟨b, hb, hkb⟩
  rw [current_concat] at ha hb
  split at ha <;> split at hb
  · rename_i hi hj
    exact hi.symm.trans hj
  · rename_i hi _
    cases ha
    exact hi.symm.trans (hfree k j hka ⟨b, hb, hkb⟩).symm
  · rename_i _ hj
    cases hb
    exact (hfree k i hkb ⟨a, ha, hka⟩).trans hj
  · exact h k i j ⟨a, ha, hka⟩ ⟨b, hb, hkb⟩

theorem unique_delete (h : OwnersUnique carries (current log)) (id : ℕ) : OwnersUnique carries (current (log ++ [(id, none)])) := by
  refine h.mono fun i v hv => ?_
  rw [current_concat] at hv
  split at hv
  · cases hv
  · exact hv

namespace Ledger

section
variable (h : Ledger carries ident log next)
include h

/-- No two records share a key. -/
theorem unique : OwnersUnique carries (current log) := by
  induction h with
  | empty next =>
    rintro k i j ⟨v, hv, -⟩
    cases hv
  | delete _ id ih => exact unique_delete ih id
  | write _ hfree _ ih => exact unique_write ih hfree

theorem lt_next (hmem : (id, some v) ∈ log) : id < next := by
  induction h generalizing v with
  | empty next => cases hmem
  | delete _ _ ih => exact ih (by simpa using hmem)
  | write _ _ hkept ih =>
    obtain hmem | hlast := mem_append.mp hmem
    · cases hkept with
      | rewrite => exact ih hmem
      | create hnew hlt => exact Nat.lt_trans (ih hmem) (Nat.lt_of_le_of_lt hnew hlt)
    · cases mem_singleton.mp hlast
      cases hkept with
      | rewrite hlive => exact ih (mem_of_current hlive)
      | create _ hlt => exact hlt

/-- What identifies a record never changes, whatever becomes of it. -/
theorem fixed (hv : (id, some v) ∈ log) (hw : (id, some w) ∈ log) : ident v = ident w := by
  induction h generalizing v w with
  | empty next => cases hv
  | delete _ _ ih => exact ih (by simpa using hv) (by simpa using hw)
  | @write log next _ id' new h _ hkept ih =>
    have hold : ∀ {u : ν}, (id, some u) ∈ log → id = id' → ident u = ident new := by
      rintro u hu rfl
      cases hkept with
      | rewrite hlive hsame => exact (ih hu (mem_of_current hlive)).trans hsame.symm
      | create hnew => exact absurd (h.lt_next hu) (Nat.not_lt.mpr hnew)
    obtain hv | hv := mem_append.mp hv <;> obtain hw | hw := mem_append.mp hw
    · exact ih hv hw
    · cases mem_singleton.mp hw
      exact hold ‹_› rfl
    · cases mem_singleton.mp hv
      exact (hold ‹_› rfl).symm
    · cases mem_singleton.mp hv
      cases mem_singleton.mp hw
      rfl

/-- Every beginning of a ledger is one, under any counter that is past its numbers. -/
theorem past {past : Log ν} (hpast : past <+: log) {n : ℕ}
    (hlt : ∀ id v, (id, some v) ∈ past → id < n) : Ledger carries ident past n := by
  induction h generalizing past n with
  | empty next => exact prefix_nil.mp hpast ▸ .empty n
  | delete _ id ih =>
    obtain rfl | hpast := prefix_concat_iff.mp hpast
    · exact (ih prefix_rfl fun i v hv => hlt i v (mem_append_left _ hv)).delete id
    · exact ih hpast hlt
  | write h hfree hkept ih =>
    obtain rfl | hpast := prefix_concat_iff.mp hpast
    · cases hkept with
      | rewrite hlive hsame => exact (ih prefix_rfl fun i v hv => hlt i v (mem_append_left _ hv)).write hfree (.rewrite hlive hsame)
      | create hnew => exact h.write hfree (.create hnew (hlt _ _ (mem_append_right _ mem_cons_self)))
    · exact ih hpast hlt

theorem deletes {dels : Log ν} (hdel : ∀ w ∈ dels, w.2 = none) :
    Ledger carries ident (log ++ dels) next := by
  induction dels generalizing log with
  | nil => rwa [append_nil]
  | cons w dels ih =>
    obtain ⟨id, value⟩ := w
    obtain rfl : value = none := hdel _ mem_cons_self
    rw [append_cons]
    exact ih (h.delete id) fun w hw => hdel w (mem_cons_of_mem _ hw)

end

end Ledger

section
variable {number : ν → ℕ} {k : κ}

/-- Numbers of records are where they are found. -/
def Numbered (number : ν → ℕ) (log : Log ν) : Prop := ∀ id v, current log id = some v → number v = id

/-- Under a key one finds just the live record that has it. -/
theorem owner_iff (h : OwnersUnique carries (current log)) (hnum : Numbered number log) :
    owner carries (current log) k = some v ↔ carries k v ∧ current log (number v) = some v := by
  rw [owner_eq_some_iff h]
  constructor
  · rintro ⟨id, hv, hk⟩
    exact ⟨hk, hnum id v hv ▸ hv⟩
  · rintro ⟨hk, hv⟩
    exact ⟨_, hv, hk⟩

/-- After one more write, what is found is what was written, or found before under another number. -/
theorem owner_concat_iff {written : Option ν} (h : OwnersUnique carries (current log))
    (h' : OwnersUnique carries (current (log ++ [(id, written)]))) (hnum : Numbered number log) (hwritten : ∀ w ∈ written, number w = id) :
    owner carries (current (log ++ [(id, written)])) k = some v ↔
      written = some v ∧ carries k v ∨ owner carries (current log) k = some v ∧ number v ≠ id := by
  have hnum' : Numbered number (log ++ [(id, written)]) := by
    intro i w hw
    rw [current_concat] at hw
    split at hw
    · rename_i hi
      exact (hwritten w hw).trans hi
    · exact hnum i w hw
  rw [owner_iff h' hnum', owner_iff h hnum, current_concat]
  by_cases hid : id = number v
  · simp [hid, and_comm]
  · have hother : written ≠ some v := fun hv => hid (hwritten v hv).symm
    simp [hid, hother, Ne.symm hid]

end

end OverGraph.Ledgers
