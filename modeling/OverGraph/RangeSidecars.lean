import OverGraph.BuilderAgreement
import OverGraph.FilterConditions
import OverGraph.LimitedReads

/-!
# Ranges of the sidecars of a segment

A range of a property index is cut out of entries in the order of value and node, a range of an edge metadata index
out of entries in the order of label, value and edge. Bounds, cursors and labels become the targets of searches by
halving; the scans stop early where no later entry can match, and the counts subtract positions.
-/

namespace OverGraph.RangeSidecars
open Option hiding bind_congr filter_filter filter_map mem_map
open Records AssocMaps Bisection FloatOrder CompactionPaths FilterConditions List Nat
open BuilderAgreement (lexTriple_injective)
open SnapshotReads (rangeStart secondaryRangePastUpper)
open LimitedReads (ahead)
open SecondaryEntries (NumericRangeSortKey)
open WalFrames (u64Max)

def beforeTarget (target : NumericRangeSortKey ×ₗ ℕ) (strict : Bool) (current : NumericRangeSortKey ×ₗ ℕ) : Bool :=
  decide (current < target) || strict && decide (current = target)

def secondaryRangeSidecarLowerBound (es : List (NumericRangeSortKey ×ₗ ℕ)) (target : NumericRangeSortKey ×ₗ ℕ)
    (strict : Bool) : ℕ :=
  cut (beforeTarget target strict) es

def lowerTarget (lower : NumericRangeSortKey × Bool) : (NumericRangeSortKey ×ₗ ℕ) × Bool :=
  if lower.2 then (toLex (lower.1, 0), false) else (toLex (lower.1, u64Max), true)

/-- The later of the two targets, left out if either leaves it out. -/
def startTarget (lower : Option (NumericRangeSortKey × Bool)) (after : Option (NumericRangeSortKey ×ₗ ℕ)) :
    Option ((NumericRangeSortKey ×ₗ ℕ) × Bool) :=
  match after with
  | none => lower.map lowerTarget
  | some after =>
    match lower.map lowerTarget with
    | some existing =>
      if after < existing.1 then some existing
      else if existing.1 < after then some (after, true)
      else some (existing.1, existing.2 || true)
    | none => some (after, true)

def secondaryRangeSidecarStartIndex (es : List (NumericRangeSortKey ×ₗ ℕ))
    (lower : Option (NumericRangeSortKey × Bool)) (after : Option (NumericRangeSortKey ×ₗ ℕ)) : ℕ :=
  match startTarget lower after with
  | some (target, strict) => secondaryRangeSidecarLowerBound es target strict
  | none => 0

def secondaryRangeSidecarEndIndex (es : List (NumericRangeSortKey ×ₗ ℕ))
    (upper : Option (NumericRangeSortKey × Bool)) : ℕ :=
  match upper with
  | none => es.length
  | some (value, true) => secondaryRangeSidecarLowerBound es (toLex (value, u64Max)) true
  | some (value, false) => secondaryRangeSidecarLowerBound es (toLex (value, 0)) false

/-- The entries from the start on, up to the upper bound or the limit. -/
def scanFrom (deletedNodes : Map ℕ TombstoneEntry) (upper : Option (NumericRangeSortKey × Bool)) (limit : Option ℕ)
    (ress : List (NumericRangeSortKey ×ₗ ℕ)) : List (NumericRangeSortKey ×ₗ ℕ) → List (NumericRangeSortKey ×ₗ ℕ)
  | [] => ress
  | entry :: rest =>
    if secondaryRangePastUpper (ofLex entry).1 upper then ress
    else if (deletedNodes.lookup (ofLex entry).2).isSome then scanFrom deletedNodes upper limit ress rest
    else if limit.any (· ≤ ress.length + 1) then ress ++ [entry]
    else scanFrom deletedNodes upper limit (ress ++ [entry]) rest

/-- A scan of entries of which some are not shown. -/
def scanShown (isShown : NumericRangeSortKey ×ₗ ℕ → Bool) (upper : Option (NumericRangeSortKey × Bool)) (limit : Option ℕ)
    (ress : List (NumericRangeSortKey ×ₗ ℕ)) : List (NumericRangeSortKey ×ₗ ℕ) → List (NumericRangeSortKey ×ₗ ℕ)
  | [] => ress
  | entry :: rest =>
    if secondaryRangePastUpper (ofLex entry).1 upper then ress
    else if !isShown entry then scanShown isShown upper limit ress rest
    else if limit.any (· ≤ ress.length + 1) then ress ++ [entry]
    else scanShown isShown upper limit (ress ++ [entry]) rest

def findNodesInSecondaryRangeSidecar (es : List (NumericRangeSortKey ×ₗ ℕ)) (deletedNodes : Map ℕ TombstoneEntry)
    (lower upper : Option (NumericRangeSortKey × Bool)) (after : Option (NumericRangeSortKey ×ₗ ℕ)) (limit : Option ℕ) :
    List (NumericRangeSortKey ×ₗ ℕ) :=
  if es.length = 0 then []
  else scanFrom deletedNodes upper limit [] (es.drop (secondaryRangeSidecarStartIndex es lower after))

def countNodesInSecondaryRangeSidecar (es : List (NumericRangeSortKey ×ₗ ℕ)) (deletedNodes : Map ℕ TombstoneEntry)
    (lower upper : Option (NumericRangeSortKey × Bool)) : ℕ :=
  if es.length = 0 then 0
  else
    let startIndex := secondaryRangeSidecarStartIndex es lower none
    let endIndex := secondaryRangeSidecarEndIndex es upper
    if endIndex ≤ startIndex then 0
    else if deletedNodes.keys.isEmpty then endIndex - startIndex
    else ((es.drop startIndex).take (endIndex - startIndex)).countP fun entry => !(deletedNodes.lookup (ofLex entry).2).isSome

section
variable {es : List (NumericRangeSortKey ×ₗ ℕ)} {deletedNodes : Map ℕ TombstoneEntry}
variable {lower upper : Option (NumericRangeSortKey × Bool)} {after : Option (NumericRangeSortKey ×ₗ ℕ)}

theorem beforeTarget_iff {tgt current : NumericRangeSortKey ×ₗ ℕ} {strict : Bool} :
    beforeTarget tgt strict current = true ↔ current < tgt ∨ strict = true ∧ current = tgt := by
  simp [beforeTarget]

section
variable (hsort : es.Pairwise (· ≤ ·)) (tgt : NumericRangeSortKey ×ₗ ℕ) (strict : Bool)
include hsort

theorem closed_beforeTarget : Closed (beforeTarget tgt strict) es := by
  apply hsort.imp
  intro a b hab hb
  rw [beforeTarget_iff] at hb ⊢
  rcases hb with hlt | ⟨hstrict, rfl⟩
  · exact Or.inl (hab.trans_lt hlt)
  · exact hab.lt_or_eq.imp_right fun heq => ⟨hstrict, heq⟩

theorem drop_lowerBound :
    es.drop (secondaryRangeSidecarLowerBound es tgt strict) = es.filter fun entry => !beforeTarget tgt strict entry := by
  have hcl := closed_beforeTarget hsort tgt strict
  rw [secondaryRangeSidecarLowerBound, cut_eq hcl, hcl.drop]

end

variable {entry : NumericRangeSortKey ×ₗ ℕ}

theorem lt_toLex_iff {value : NumericRangeSortKey} {id : ℕ} :
    entry < toLex (value, id) ↔ (ofLex entry).1 < value ∨ (ofLex entry).1 = value ∧ (ofLex entry).2 < id :=
  Prod.Lex.lt_iff

/-- Identifiers fit in 64 bits, so that the greatest one closes a value. -/
theorem beforeTarget_lower (hid : (ofLex entry).2 ≤ u64Max) (bound : NumericRangeSortKey × Bool) :
    beforeTarget (lowerTarget bound).1 (lowerTarget bound).2 entry =
      !(if bound.2 then decide (bound.1 ≤ (ofLex entry).1) else decide (bound.1 < (ofLex entry).1)) := by
  obtain ⟨value, inclusive⟩ := bound
  rw [Bool.eq_iff_iff, beforeTarget_iff]
  cases inclusive with
  | true => simp [lowerTarget, lt_toLex_iff]
  | false =>
    have hlast : entry = toLex (value, u64Max) ↔ (ofLex entry).1 = value ∧ (ofLex entry).2 = u64Max := by
      rw [← ofLex_inj, ofLex_toLex, Prod.ext_iff]
    simp only [lowerTarget, Bool.false_eq_true, if_false, lt_toLex_iff, hlast, true_and, Bool.not_eq_true',
      decide_eq_false_iff_not, not_lt, le_iff_lt_or_eq]
    have hcases := hid.lt_or_eq
    tauto

variable {entry : NumericRangeSortKey ×ₗ ℕ}

theorem beforeTarget_after {after : NumericRangeSortKey ×ₗ ℕ} : beforeTarget after true entry = !decide (after < entry) := by
  rw [Bool.eq_iff_iff, beforeTarget_iff]
  simp [← le_iff_lt_or_eq]

theorem beforeTarget_mono {fst snd : NumericRangeSortKey ×ₗ ℕ} {strict strict' : Bool} (h : fst < snd)
    (hbef : beforeTarget fst strict entry = true) : beforeTarget snd strict' entry = true := by
  rw [beforeTarget_iff] at hbef ⊢
  rcases hbef with hlt | ⟨-, rfl⟩
  · exact Or.inl (hlt.trans h)
  · exact Or.inl h

/-- The later target cuts off what either of them cuts off. -/
theorem beforeTarget_later (bound : NumericRangeSortKey × Bool) (after entry : NumericRangeSortKey ×ₗ ℕ) :
    ((startTarget (some bound) (some after)).any fun tgt => beforeTarget tgt.1 tgt.2 entry) =
      (beforeTarget (lowerTarget bound).1 (lowerTarget bound).2 entry || beforeTarget after true entry) := by
  rw [startTarget, map_some]
  obtain ⟨tgt, strict⟩ := lowerTarget bound
  dsimp only
  split_ifs with hlt hgt
  · have hmono : beforeTarget after true entry = true → beforeTarget tgt strict entry = true := beforeTarget_mono hlt
    cases haft : beforeTarget after true entry with
    | false => simp
    | true => simp [hmono haft]
  · have hmono : beforeTarget tgt strict entry = true → beforeTarget after true entry = true := beforeTarget_mono hgt
    cases hbef : beforeTarget tgt strict entry with
    | false => simp
    | true => simp [hmono hbef]
  · obtain rfl : tgt = after := le_antisymm (not_lt.mp hlt) (not_lt.mp hgt)
    rw [Bool.or_true, any_some, beforeTarget, beforeTarget]
    cases decide (entry < tgt) <;> cases strict <;> simp

/-- What comes before the start lies before the lower bound or not after the cursor. -/
theorem beforeStart (hid : (ofLex entry).2 ≤ u64Max) : (!(startTarget lower after).any fun tgt => beforeTarget tgt.1 tgt.2 entry) =
      rangeStart lower (after.map ofLex) entry := by
  cases lower with
  | none =>
    cases after with
    | none => rfl
    | some after =>
      simp only [startTarget, map_none, any_some, beforeTarget_after, Bool.not_not]
      rfl
  | some bound =>
    cases after with
    | none => simp [startTarget, rangeStart, beforeTarget_lower hid]
    | some after =>
      rw [beforeTarget_later, beforeTarget_lower hid, beforeTarget_after, ← Bool.not_and, Bool.not_not]
      rfl

theorem drop_startIndex (hsort : es.Pairwise (· ≤ ·)) (hids : ∀ entry ∈ es, (ofLex entry).2 ≤ u64Max) :
    es.drop (secondaryRangeSidecarStartIndex es lower after) = es.filter (rangeStart lower (after.map ofLex)) := by
  rw [← filter_congr fun entry hent => @beforeStart lower after entry (hids entry hent), secondaryRangeSidecarStartIndex]
  cases startTarget lower after with
  | none => simp
  | some tgt => exact drop_lowerBound hsort tgt.1 tgt.2

theorem pastUpper_mono {fst snd : NumericRangeSortKey ×ₗ ℕ} (h : fst ≤ snd)
    (hpast : secondaryRangePastUpper (ofLex fst).1 upper = true) : secondaryRangePastUpper (ofLex snd).1 upper = true := by
  have hval : (ofLex fst).1 ≤ (ofLex snd).1 := by
    rcases Prod.Lex.le_iff.mp h with hlt | ⟨heq, -⟩
    · exact hlt.le
    · exact heq.le
  cases upper with
  | none => exact hpast
  | some bound =>
    simp only [secondaryRangePastUpper, any_some, Bool.or_eq_true, Bool.and_eq_true, decide_eq_true_iff] at hpast ⊢
    rcases hpast with hlt | ⟨hexcl, heq⟩
    · exact Or.inl (hlt.trans_le hval)
    · exact (hval.lt_or_eq).imp (fun hlt => heq ▸ hlt) fun hsame => ⟨hexcl, hsame.symm.trans heq⟩

variable {ress rest : List (NumericRangeSortKey ×ₗ ℕ)} {limit : Option ℕ}

/-- The scan collects what is not past the upper bound and is shown, up to the limit. -/
theorem scanShown_eq {isShown : NumericRangeSortKey ×ₗ ℕ → Bool}
    (hsort : rest.Pairwise (· ≤ ·)) (hlim : ∀ n ∈ limit, ress.length < n) :
    scanShown isShown upper limit ress rest = ress ++ (limit.elim id fun n => take (n - ress.length))
      (rest.filter fun entry => !secondaryRangePastUpper (ofLex entry).1 upper && isShown entry) := by
  induction rest generalizing ress with
  | nil => cases limit <;> simp [scanShown]
  | cons entry rest ih =>
    obtain ⟨hhead, htail⟩ := pairwise_cons.mp hsort
    rw [scanShown]
    split
    · rename_i hpast
      rw [filter_eq_nil_iff.mpr]
      · cases limit <;> simp
      · intro other hoth
        rcases mem_cons.mp hoth with rfl | hoth
        · simp [hpast]
        · simp [pastUpper_mono (hhead other hoth) hpast]
    · rename_i hpast
      split
      · rename_i hhid
        rw [ih htail hlim, filter_cons_of_neg (by simpa using fun _ => hhid)]
      · rename_i hshown
        rw [filter_cons_of_pos (by simpa [hpast] using hshown)]
        cases limit with
        | none =>
          rw [if_neg (by simp), ih htail (by simp)]
          simp
        | some n =>
          have hn := hlim n rfl
          rw [any_some]
          split
          · rename_i hfull
            obtain rfl : n = ress.length + 1 := by
              have hle := of_decide_eq_true hfull
              omega
            simp
          · rename_i hfull
            have hmore : ress.length + 1 < n := by simpa using hfull
            rw [ih htail (by simpa using hmore)]
            simp only [elim_some, length_append, length_singleton, append_assoc, singleton_append]
            rw [show n - ress.length = n - (ress.length + 1) + 1 by omega, take_succ_cons]

theorem scanFrom_eq_scanShown : scanFrom deletedNodes upper limit ress rest =
      scanShown (fun entry => !(deletedNodes.lookup (ofLex entry).2).isSome) upper limit ress rest := by
  induction rest generalizing ress with
  | nil => rfl
  | cons entry rest ih => rw [scanFrom, scanShown, Bool.not_not, ih, ih]

/-- A search returns the first entries in the range after the cursor. -/
theorem findNodes_eq (hsort : es.Pairwise (· ≤ ·))
    (hids : ∀ entry ∈ es, (ofLex entry).2 ≤ u64Max) (hlim : ∀ n ∈ limit, 0 < n) :
    findNodesInSecondaryRangeSidecar es deletedNodes lower upper after limit = (limit.elim id take)
      (ahead lower upper es (fun id => (deletedNodes.lookup id).isSome) after) := by
  rw [findNodesInSecondaryRangeSidecar]
  split
  · rename_i hemp
    obtain rfl := length_eq_zero_iff.mp hemp
    cases limit <;> simp [ahead]
  · rw [scanFrom_eq_scanShown, scanShown_eq (hsort.sublist (drop_sublist _ _)) hlim, drop_startIndex hsort hids, filter_filter, ahead]
    have hfil : ∀ entry ∈ es, (!secondaryRangePastUpper (ofLex entry).1 upper && !(deletedNodes.lookup (ofLex entry).2).isSome &&
        rangeStart lower (after.map ofLex) entry) = (rangeStart lower (after.map ofLex) entry &&
          !secondaryRangePastUpper (ofLex entry).1 upper && !(deletedNodes.lookup (ofLex entry).2).isSome) := by
      intro entry _
      rw [Bool.and_comm, Bool.and_assoc]
    rw [filter_congr hfil]
    rfl

theorem beforeTarget_upper (hid : (ofLex entry).2 ≤ u64Max) (value : NumericRangeSortKey) :
    beforeTarget (toLex (value, u64Max)) true entry = !secondaryRangePastUpper (ofLex entry).1 (some (value, true)) ∧
      beforeTarget (toLex (value, 0)) false entry = !secondaryRangePastUpper (ofLex entry).1 (some (value, false)) := by
  have hincl := beforeTarget_lower hid (value, false)
  have hexcl := beforeTarget_lower hid (value, true)
  simp only [lowerTarget, Bool.false_eq_true, if_false, if_true] at hincl hexcl
  rw [hincl, hexcl]
  constructor
  · simp [secondaryRangePastUpper]
  · simp [secondaryRangePastUpper, le_iff_lt_or_eq, eq_comm]

section
variable (hsort : es.Pairwise (· ≤ ·))
include hsort

theorem take_endIndex (hids : ∀ entry ∈ es, (ofLex entry).2 ≤ u64Max) :
    secondaryRangeSidecarEndIndex es upper = es.countP fun entry => !secondaryRangePastUpper (ofLex entry).1 upper := by
  cases upper with
  | none => simp [secondaryRangeSidecarEndIndex, secondaryRangePastUpper]
  | some bound =>
    obtain ⟨value, inclusive⟩ := bound
    have hcnt : ∀ tgt strict, secondaryRangeSidecarLowerBound es tgt strict = es.countP (beforeTarget tgt strict) :=
      fun tgt strict => cut_eq (closed_beforeTarget hsort tgt strict)
    cases inclusive with
    | true =>
      rw [secondaryRangeSidecarEndIndex, hcnt]
      exact countP_congr fun entry hent => by rw [(beforeTarget_upper (hids entry hent) value).1]
    | false =>
      rw [secondaryRangeSidecarEndIndex, hcnt]
      exact countP_congr fun entry hent => by rw [(beforeTarget_upper (hids entry hent) value).2]

theorem closed_notPast :
    Closed (fun entry : NumericRangeSortKey ×ₗ ℕ => !secondaryRangePastUpper (ofLex entry).1 upper) es := by
  apply hsort.imp
  intro a b hab hb
  by_contra hpast
  have hlat : secondaryRangePastUpper (ofLex b).1 upper = true := pastUpper_mono hab (by simpa using hpast)
  simp [hlat] at hb

/-- A count is the length of the search without limit. -/
theorem countNodes_eq (hids : ∀ entry ∈ es, (ofLex entry).2 ≤ u64Max) :
    countNodesInSecondaryRangeSidecar es deletedNodes lower upper =
      (findNodesInSecondaryRangeSidecar es deletedNodes lower upper none none).length := by
  rw [countNodesInSecondaryRangeSidecar, findNodesInSecondaryRangeSidecar]
  split
  · rfl
  · have hspan := @Closed.filter_drop _ es _ (@closed_notPast es upper hsort) (secondaryRangeSidecarStartIndex es lower none)
    rw [scanFrom_eq_scanShown, scanShown_eq (hsort.sublist (drop_sublist _ _)) (by simp), ← filter_filter, ← filter_comm, hspan,
      ← take_endIndex hsort hids]
    dsimp only [elim_none, id, nil_append]
    split
    · rename_i hemp
      rw [Nat.sub_eq_zero_of_le hemp]
      rfl
    · rename_i hspan
      have hend : secondaryRangeSidecarEndIndex es upper ≤ es.length := by
        rw [take_endIndex hsort hids]
        exact countP_le_length
      split
      · rename_i hnone
        have hlive : ∀ id, deletedNodes.lookup id = none := by
          intro id
          apply AList.lookup_eq_none.mpr
          rw [AList.mem_keys, isEmpty_iff.mp hnone]
          exact not_mem_nil
        rw [filter_eq_self.mpr fun entry _ => by simp [hlive], length_take, length_drop]
        omega
      · rw [countP_eq_length_filter]

end

end

structure RangeBoundFlags (α : Type) where
  lower : Option α
  lowerInclusive : Bool
  upper : Option α
  upperInclusive : Bool

def belowLower (bounds : RangeBoundFlags ℤ) (value : ℤ) : Bool :=
  bounds.lower.any fun lower => if bounds.lowerInclusive then decide (value < lower) else decide (value ≤ lower)

def pastUpper (bounds : RangeBoundFlags ℤ) (value : ℤ) : Bool :=
  bounds.upper.any fun upper => if bounds.upperInclusive then decide (upper < value) else decide (upper ≤ value)

def keyMatchesBounds (value : ℤ) (bounds : RangeBoundFlags ℤ) : Bool := !belowLower bounds value && !pastUpper bounds value

/-- The order-preserving key of a weight as a number. -/
def weightKey (weight : F32) : Option ℤ := (encodeEdgeWeightKey weight).map fun key => key.toNat

def boundKey : Option F32 → Option (Option ℤ)
  | some bound => (weightKey bound).map some
  | none => some none

def weightKeyBounds (bounds : RangeBoundFlags F32) : Option (RangeBoundFlags ℤ) := do
  let lower ← boundKey bounds.lower
  let upper ← boundKey bounds.upper
  pure ⟨lower, bounds.lowerInclusive, upper, bounds.upperInclusive⟩

section
variable {σ ρ : Type}

/-- Within a label the scan ends past the upper bound; the callback may end it anywhere. -/
def scanEntries (deletedEdges : Map ℕ TombstoneEntry) (labelId : Option ℕ) (bounds : RangeBoundFlags ℤ) (callback : σ → ℕ → Except ρ σ)
    (state : σ) : List (ℕ × ℤ × ℕ) → Except ρ σ
  | [] => .ok state
  | entry :: rest =>
    if labelId.any (entry.1 ≠ ·) then .ok state
    else if labelId.isSome && pastUpper bounds entry.2.1 then .ok state
    else if keyMatchesBounds entry.2.1 bounds && !(deletedEdges.lookup entry.2.2).isSome then do
      let state ← callback state entry.2.2
      scanEntries deletedEdges labelId bounds callback state rest
    else scanEntries deletedEdges labelId bounds callback state rest

def labelValueLowerBound (least : ℤ) (es : List (ℕ × ℤ × ℕ)) (targetLabel : ℕ) (lowerValue : Option ℤ) : ℕ :=
  cut (fun entry => decide (lexTriple entry < lexTriple (targetLabel, lowerValue.getD least, 0))) es

def forEachEdgeIdByRangeInner (least : ℤ) (es : List (ℕ × ℤ × ℕ)) (deletedEdges : Map ℕ TombstoneEntry) (labelId : Option ℕ)
    (bounds : RangeBoundFlags ℤ) (callback : σ → ℕ → Except ρ σ) (state : σ) : Except ρ σ :=
  let start := match labelId with
    | some target => labelValueLowerBound least es target bounds.lower
    | none => 0
  scanEntries deletedEdges labelId bounds callback state (es.drop start)

def forEachEdgeIdByWeightRangeInner (es : List (ℕ × ℤ × ℕ)) (deletedEdges : Map ℕ TombstoneEntry) (labelId : Option ℕ)
    (bounds : RangeBoundFlags F32) (callback : σ → ℕ → Except ρ σ) (state : σ) : Except ρ σ :=
  match weightKeyBounds bounds with
  | none => .ok state
  | some keyBounds => forEachEdgeIdByRangeInner 0 es deletedEdges labelId keyBounds callback state

def forEachEdgeIdByI64MetadataRangeInner (es : List (ℕ × ℤ × ℕ)) (deletedEdges : Map ℕ TombstoneEntry) (labelId : Option ℕ)
    (bounds : RangeBoundFlags ℤ) (callback : σ → ℕ → Except ρ σ) (state : σ) : Except ρ σ :=
  forEachEdgeIdByRangeInner i64Min es deletedEdges labelId bounds callback state

end

section
variable (es : List (ℕ × ℤ × ℕ))

def labelLowerBound (targetLabel : ℕ) : ℕ := cut (fun entry => decide (entry.1 < targetLabel)) es

def labelUpperBound (targetLabel : ℕ) : ℕ := cut (fun entry => decide (entry.1 ≤ targetLabel)) es

def valueLowerBoundInSpan (start stop : ℕ) (targetValue : ℤ) : ℕ := cutBetween (fun entry => decide (entry.2.1 < targetValue)) es start stop

def valueUpperBoundInSpan (start stop : ℕ) (targetValue : ℤ) : ℕ := cutBetween (fun entry => decide (entry.2.1 ≤ targetValue)) es start stop

def rangeCountInLabelSpan (start stop : ℕ) (bounds : RangeBoundFlags ℤ) : ℕ :=
  if stop ≤ start then 0
  else
    let rangeStart := match bounds.lower with
      | some lower => if bounds.lowerInclusive then valueLowerBoundInSpan es start stop lower
        else valueUpperBoundInSpan es start stop lower
      | none => start
    let rangeEnd := match bounds.upper with
      | some upper => if bounds.upperInclusive then valueUpperBoundInSpan es start stop upper
        else valueLowerBoundInSpan es start stop upper
      | none => stop
    rangeEnd - rangeStart

def countLabelSpans (bounds : RangeBoundFlags ℤ) : ℕ → ℕ → ℕ
  | 0, _ => 0
  | rds + 1, pos =>
    match es[pos]? with
    | none => 0
    | some entry =>
      let stop := labelUpperBound es entry.1
      rangeCountInLabelSpan es pos stop bounds + countLabelSpans bounds rds stop

def rangeCountInner (labelId : Option ℕ) (bounds : RangeBoundFlags ℤ) : ℕ :=
  if es.length = 0 then 0
  else
    match labelId with
    | some target =>
      let start := labelLowerBound es target
      if start = es.length then 0
      else if (es[start]?).any (·.1 ≠ target) then 0
      else rangeCountInLabelSpan es start (labelUpperBound es target) bounds
    | none =>
      if bounds.lower.isNone && bounds.upper.isNone then es.length
      else countLabelSpans es bounds es.length 0

def edgeWeightRangeCountInner (labelId : Option ℕ) (bounds : RangeBoundFlags F32) : ℕ :=
  match weightKeyBounds bounds with
  | none => 0
  | some keyBounds => rangeCountInner es labelId keyBounds

def edgeI64MetadataRangeCountInner (labelId : Option ℕ) (bounds : RangeBoundFlags ℤ) : ℕ := rangeCountInner es labelId bounds

end

section
variable {es : List (ℕ × ℤ × ℕ)} {labelId : Option ℕ} {bounds : RangeBoundFlags ℤ}

def Sorted (es : List (ℕ × ℤ × ℕ)) : Prop := es.Pairwise fun a b => lexTriple a ≤ lexTriple b

/-- The entries of a label, if one is asked for, within the bounds. -/
def wanted (labelId : Option ℕ) (bounds : RangeBoundFlags ℤ) (entry : ℕ × ℤ × ℕ) : Bool :=
  labelId.all (entry.1 = ·) && keyMatchesBounds entry.2.1 bounds

variable {a b : ℕ × ℤ × ℕ}

theorem lexTriple_lt_iff : lexTriple a < lexTriple b ↔ a.1 < b.1 ∨ a.1 = b.1 ∧ (a.2.1 < b.2.1 ∨ a.2.1 = b.2.1 ∧ a.2.2 < b.2.2) :=
  Prod.Lex.lt_iff.trans (or_congr_right (and_congr_right fun _ => Prod.Lex.lt_iff))

theorem label_le (h : lexTriple a ≤ lexTriple b) : a.1 ≤ b.1 := by
  have hnot := mt lexTriple_lt_iff.mpr (not_lt.mpr h)
  omega

theorem value_le (h : lexTriple a ≤ lexTriple b) (hlab : a.1 = b.1) : a.2.1 ≤ b.2.1 := by
  have hnot := mt lexTriple_lt_iff.mpr (not_lt.mpr h)
  omega

theorem belowLower_anti {a b : ℤ} (h : a ≤ b) (hbel : belowLower bounds b = true) : belowLower bounds a = true := by
  rw [belowLower, Option.any_eq_true] at hbel ⊢
  obtain ⟨lower, hlo, hbel⟩ := hbel
  refine ⟨lower, hlo, ?_⟩
  split_ifs at hbel ⊢
  · exact decide_eq_true (h.trans_lt (of_decide_eq_true hbel))
  · exact decide_eq_true (h.trans (of_decide_eq_true hbel))

theorem pastUpper_le {a b : ℤ} (h : a ≤ b) (hpast : pastUpper bounds a = true) : pastUpper bounds b = true := by
  rw [pastUpper, Option.any_eq_true] at hpast ⊢
  obtain ⟨upper, hup, hpast⟩ := hpast
  refine ⟨upper, hup, ?_⟩
  split_ifs at hpast ⊢
  · exact decide_eq_true ((of_decide_eq_true hpast).trans_le h)
  · exact decide_eq_true ((of_decide_eq_true hpast).trans h)

variable {deletedEdges : Map ℕ TombstoneEntry}

/-- From the first entry of the label on, the early ends skip nothing that is wanted. -/
theorem scanEntries_eq {σ ρ : Type} {callback : σ → ℕ → Except ρ σ} {state : σ}
    (hsort : Sorted es) (hlab : ∀ tgt ∈ labelId, ∀ entry ∈ es, tgt ≤ entry.1) :
    scanEntries deletedEdges labelId bounds callback state es =
      ((es.filter fun entry => wanted labelId bounds entry && !(deletedEdges.lookup entry.2.2).isSome).map fun entry =>
        entry.2.2).foldlM callback state := by
  induction es generalizing state with
  | nil => rfl
  | cons entry rest ih =>
    obtain ⟨hhead, htail⟩ := pairwise_cons.mp hsort
    have hrest := fun state => @ih state htail fun tgt htgt other hoth => hlab tgt htgt other (mem_cons_of_mem _ hoth)
    have hlat : ∀ other ∈ entry :: rest, lexTriple entry ≤ lexTriple other := by
      intro other hoth
      rcases mem_cons.mp hoth with rfl | hoth
      · exact le_rfl
      · exact hhead other hoth
    have hnone (hskip : ∀ other ∈ entry :: rest, wanted labelId bounds other = false) :
        (entry :: rest).filter (fun entry => wanted labelId bounds entry && !(deletedEdges.lookup entry.2.2).isSome) = [] :=
      filter_eq_nil_iff.mpr fun other hoth => by simp [hskip other hoth]
    rw [scanEntries]
    split
    · rename_i hoth
      obtain ⟨tgt, htgt, hne⟩ := (Option.any_eq_true _ _).mp hoth
      rw [hnone, map_nil, foldlM_nil]
      · rfl
      · intro other hmem
        have hge := hlab tgt htgt entry mem_cons_self
        have hle := label_le (hlat other hmem)
        have hne' := of_decide_eq_true hne
        simp only [wanted, mem_def.mp htgt, all_some, Bool.and_eq_false_iff, decide_eq_false_iff_not]
        left
        omega
    · rename_i hsame
      split
      · rename_i hpast
        rw [Bool.and_eq_true] at hpast
        obtain ⟨tgt, htgt⟩ := isSome_iff_exists.mp hpast.1
        rw [hnone, map_nil, foldlM_nil]
        · rfl
        · intro other hmem
          have hhere : entry.1 = tgt := by
            by_contra hne
            exact hsame ((Option.any_eq_true _ _).mpr ⟨tgt, htgt, decide_eq_true hne⟩)
          rw [wanted, htgt, all_some]
          by_cases hlab' : other.1 = tgt
          · have hval := value_le (hlat other hmem) (hhere.trans hlab'.symm)
            simp [keyMatchesBounds, pastUpper_le hval hpast.2]
          · simp [hlab']
      · have hall : labelId.all (entry.1 = ·) = true := by
          cases labelId with
          | none => rfl
          | some tgt =>
            simp only [any_some, decide_not, Bool.not_eq_true'] at hsame
            simpa using hsame
        split
        · rename_i hm'
          rw [filter_cons_of_pos (by rw [wanted, hall, Bool.true_and]; exact hm'), map_cons, foldlM_cons]
          exact bind_congr fun state => hrest state
        · rename_i hm'
          rw [filter_cons_of_neg (by rw [wanted, hall, Bool.true_and]; exact hm')]
          exact hrest state

/-- A scan calls back for the wanted entries whose edge is not deleted, in order. -/
theorem forEach_eq {σ ρ : Type} {least : ℤ} {callback : σ → ℕ → Except ρ σ} {state : σ}
    (hsort : Sorted es) (hlst : ∀ entry ∈ es, least ≤ entry.2.1) :
    forEachEdgeIdByRangeInner least es deletedEdges labelId bounds callback state =
      ((es.filter fun entry => wanted labelId bounds entry && !(deletedEdges.lookup entry.2.2).isSome).map fun entry =>
        entry.2.2).foldlM callback state := by
  unfold forEachEdgeIdByRangeInner
  cases labelId with
  | none => exact scanEntries_eq hsort fun tgt htgt => by cases htgt
  | some tgt =>
    have hcl : Closed (fun entry => decide (lexTriple entry < lexTriple (tgt, bounds.lower.getD least, 0))) es := by
      apply hsort.imp
      intro a b hab hb
      exact decide_eq_true (hab.trans_lt (of_decide_eq_true hb))
    dsimp only
    rw [labelValueLowerBound, cut_eq hcl, hcl.drop, scanEntries_eq (hsort.sublist filter_sublist), filter_filter]
    · congr 2
      apply filter_congr
      intro entry hent
      have hkept : wanted (some tgt) bounds entry = true → ¬ lexTriple entry < lexTriple (tgt, bounds.lower.getD least, 0) := by
        intro hwant hlt
        rw [wanted, Bool.and_eq_true, all_some, decide_eq_true_iff, keyMatchesBounds, Bool.and_eq_true] at hwant
        obtain ⟨hlab, habove, -⟩ := hwant
        have hval := hlst entry hent
        rw [lexTriple_lt_iff] at hlt
        cases hlo : bounds.lower with
        | none =>
          simp only [hlo, getD_none] at hlt
          omega
        | some lower =>
          simp only [hlo, getD_some] at hlt
          simp only [belowLower, hlo, any_some] at habove
          split_ifs at habove <;> simp at habove <;> omega
      cases hwant : wanted (some tgt) bounds entry with
      | false => simp
      | true => simp [hkept hwant]
    · intro label hlab entry hent
      obtain rfl : tgt = label := some.inj hlab
      have hnot := (mem_filter.mp hent).2
      rw [Bool.not_eq_true', decide_eq_false_iff_not, lexTriple_lt_iff] at hnot
      dsimp only at hnot
      omega

/-! Two tests that hold of the smaller values are nested, so that the difference of the counts is a count. -/

theorem countP_sub_countP {span : List (ℕ × ℤ × ℕ)} {fst snd : ℤ → Bool}
    (hfst : ∀ a b, a ≤ b → fst b = true → fst a = true) (hsnd : ∀ a b, a ≤ b → snd b = true → snd a = true) :
    span.countP (fun entry => snd entry.2.1) - span.countP (fun entry => fst entry.2.1) =
      span.countP fun entry => !fst entry.2.1 && snd entry.2.1 := by
  have hlo : ∀ test : ℤ → Bool, (∀ a b, a ≤ b → test b = true → test a = true) → IsLowerSet {value | test value = true} :=
    fun test htest a b hba ha => htest b a hba ha
  have htotal : (∀ value, fst value = true → snd value = true) ∨ ∀ value, snd value = true → fst value = true :=
    ((hlo fst hfst).total (hlo snd hsnd)).imp (fun hsub value => @hsub value) fun hsub value => @hsub value
  rcases htotal with hsub | hsub
  · induction span with
    | nil => rfl
    | cons entry span ih =>
      have hmono := countP_mono_left (l := span) fun entry _ => hsub entry.2.1
      have hent := hsub entry.2.1
      simp only [countP_cons]
      cases hf : fst entry.2.1 with
      | true =>
        simp only [hent hf, Bool.not_true, Bool.false_and, Bool.false_eq_true, if_true, if_false]
        omega
      | false =>
        simp only [Bool.not_false, Bool.true_and, Bool.false_eq_true, if_false]
        omega
  · have hnone : span.countP (fun entry => !fst entry.2.1 && snd entry.2.1) = 0 := by
      apply countP_eq_zero.mpr
      intro entry _ hboth
      rw [Bool.and_eq_true] at hboth
      rw [hsub _ hboth.2] at hboth
      cases hboth.1
    have hmono := countP_mono_left (l := span) fun entry _ => hsub entry.2.1
    omega

/-- The positions within a label subtract to the number of entries within the bounds. -/
theorem rangeCountInLabelSpan_eq {start stop : ℕ} (hst : start ≤ stop) (hstop : stop ≤ es.length)
    (hvals : ((es.drop start).take (stop - start)).Pairwise fun a b => a.2.1 ≤ b.2.1) :
    rangeCountInLabelSpan es start stop bounds =
      ((es.drop start).take (stop - start)).countP fun entry => keyMatchesBounds entry.2.1 bounds := by
  have hlen : ((es.drop start).take (stop - start)).length = stop - start := by
    rw [length_take, length_drop]
    omega
  have hcut : ∀ test : ℤ → Bool, (∀ a b, a ≤ b → test b = true → test a = true) → cutBetween (fun entry => test entry.2.1) es start stop =
        start + ((es.drop start).take (stop - start)).countP fun entry => test entry.2.1 :=
    fun test htest => cutBetween_eq hst hstop (hvals.imp fun hab hb => htest _ _ hab hb)
  have hlt : ∀ tgt : ℤ, ∀ a b, a ≤ b → decide (b < tgt) = true → decide (a < tgt) = true :=
    fun tgt a b hab hb => decide_eq_true (hab.trans_lt (of_decide_eq_true hb))
  have hle : ∀ tgt : ℤ, ∀ a b, a ≤ b → decide (b ≤ tgt) = true → decide (a ≤ tgt) = true :=
    fun tgt a b hab hb => decide_eq_true (hab.trans (of_decide_eq_true hb))
  have hlo : (match bounds.lower with
      | some lower => if bounds.lowerInclusive then valueLowerBoundInSpan es start stop lower
        else valueUpperBoundInSpan es start stop lower
      | none => start) = start + ((es.drop start).take (stop - start)).countP fun entry => belowLower bounds entry.2.1 := by
    unfold belowLower
    cases bounds.lower with
    | none => simp
    | some lower =>
      simp only [any_some]
      split
      · exact hcut _ (hlt lower)
      · exact hcut _ (hle lower)
  have hup : (match bounds.upper with
      | some upper => if bounds.upperInclusive then valueUpperBoundInSpan es start stop upper
        else valueLowerBoundInSpan es start stop upper
      | none => stop) = start + ((es.drop start).take (stop - start)).countP fun entry => !pastUpper bounds entry.2.1 := by
    unfold pastUpper
    cases bounds.upper with
    | none =>
      simp only [any_none, Bool.not_false, countP_true]
      omega
    | some upper =>
      simp only [any_some]
      split
      · simp only [← decide_not, not_lt]
        exact hcut _ (hle upper)
      · simp only [← decide_not, not_le]
        exact hcut _ (hlt upper)
  rw [rangeCountInLabelSpan]
  split
  · rename_i hemp
    rw [Nat.sub_eq_zero_of_le hemp]
    rfl
  · dsimp only
    rw [hlo, hup, Nat.add_sub_add_left]
    apply @countP_sub_countP _ (belowLower bounds) (fun value => !pastUpper bounds value)
    · exact fun a b hab => belowLower_anti hab
    · intro a b hab hb
      by_contra hpast
      have hlat : pastUpper bounds b = true := pastUpper_le hab (by simpa using hpast)
      simp [hlat] at hb

section
variable (hsort : Sorted es)
include hsort

theorem closed_le (label : ℕ) : Closed (fun entry => decide (entry.1 ≤ label)) es :=
  hsort.imp fun hab hb => decide_eq_true ((label_le hab).trans (of_decide_eq_true hb))

theorem closed_lt (label : ℕ) : Closed (fun entry => decide (entry.1 < label)) es :=
  hsort.imp fun hab hb => decide_eq_true ((label_le hab).trans_lt (of_decide_eq_true hb))

theorem labelUpperBound_eq (label : ℕ) :
    labelUpperBound es label = es.countP fun entry => decide (entry.1 ≤ label) := cut_eq (closed_le hsort label)

theorem label_le_of_mem_drop {pos : ℕ} {entry : ℕ × ℤ × ℕ} (hent : es[pos]? = some entry) :
    ∀ other ∈ es.drop pos, entry.1 ≤ other.1 := by
  obtain ⟨hlt, hget⟩ := List.getElem?_eq_some_iff.mp hent
  have hcons : es.drop pos = entry :: es.drop (pos + 1) := by rw [drop_eq_getElem_cons hlt, hget]
  have hsuf : Sorted (es.drop pos) := hsort.sublist (drop_sublist _ _)
  rw [hcons] at hsuf ⊢
  intro other hoth
  rcases mem_cons.mp hoth with rfl | hoth
  · exact le_rfl
  · exact label_le ((pairwise_cons.mp hsuf).1 other hoth)

/-- The entries from a position on up to the end of a label, if they all carry the label. -/
theorem countInLabel {start label : ℕ} (hst : start ≤ labelUpperBound es label)
    (hlab : ∀ entry ∈ es.drop start, label ≤ entry.1) :
    rangeCountInLabelSpan es start (labelUpperBound es label) bounds =
      ((es.drop start).filter fun entry => decide (entry.1 ≤ label)).countP fun entry => keyMatchesBounds entry.2.1 bounds := by
  have hcl := closed_le hsort label
  have hspan : (es.drop start).take (labelUpperBound es label - start) = (es.drop start).filter fun entry => decide (entry.1 ≤ label) := by
    rw [hcl.filter_drop, labelUpperBound_eq hsort]
  rw [← hspan]
  apply rangeCountInLabelSpan_eq hst
  · rw [labelUpperBound_eq hsort]
    exact countP_le_length
  · rw [hspan]
    apply (hsort.sublist ((filter_sublist).trans (drop_sublist _ _))).imp_of_mem
    intro a b ha hb hab
    apply value_le hab
    obtain ⟨ha, hale⟩ := mem_filter.mp ha
    obtain ⟨hb, hble⟩ := mem_filter.mp hb
    have hage := hlab a ha
    have hbge := hlab b hb
    have hale := of_decide_eq_true hale
    have hble := of_decide_eq_true hble
    omega

theorem countLabelSpans_eq {rds pos : ℕ} (hrds : es.length - pos ≤ rds) :
    countLabelSpans es bounds rds pos = (es.drop pos).countP fun entry => keyMatchesBounds entry.2.1 bounds := by
  induction rds generalizing pos with
  | zero =>
    rw [drop_eq_nil_of_le (by omega)]
    rfl
  | succ rds ih =>
    rw [countLabelSpans]
    cases hent : es[pos]? with
    | none =>
      rw [drop_eq_nil_of_le (List.getElem?_eq_none_iff.mp hent)]
      rfl
    | some entry =>
      have hcl := closed_le hsort entry.1
      have hnext : pos < labelUpperBound es entry.1 := by
        rw [labelUpperBound_eq hsort]
        exact hcl.getElem?_any.mp (by rw [hent]; simp)
      have hsp : (es.drop pos).take (labelUpperBound es entry.1 - pos) ++ es.drop (labelUpperBound es entry.1) = es.drop pos := by
        have htake := take_append_drop (labelUpperBound es entry.1 - pos) (es.drop pos)
        rwa [drop_drop, Nat.add_sub_cancel' hnext.le] at htake
      dsimp only
      rw [countInLabel hsort hnext.le (label_le_of_mem_drop hsort hent), ih (by omega), hcl.filter_drop, ← labelUpperBound_eq hsort,
        ← countP_append, hsp]

theorem rangeCountInner_eq : rangeCountInner es labelId bounds = es.countP (wanted labelId bounds) := by
  unfold rangeCountInner
  split
  · rename_i hemp
    rw [length_eq_zero_iff.mp hemp]
    rfl
  · cases labelId with
    | none =>
      dsimp only
      split
      · rename_i hnone
        rw [Bool.and_eq_true, isNone_iff_eq_none, isNone_iff_eq_none] at hnone
        symm
        rw [countP_eq_length]
        intro entry _
        simp [wanted, keyMatchesBounds, belowLower, pastUpper, hnone]
      · rw [countLabelSpans_eq hsort (sub_le _ _), drop_zero]
        exact countP_congr fun entry _ => by simp [wanted]
    | some tgt =>
      have hcl := closed_lt hsort tgt
      have hdrop : es.drop (labelLowerBound es tgt) = es.filter fun entry => !decide (entry.1 < tgt) := by
        rw [labelLowerBound, cut_eq hcl, hcl.drop]
      have hlab : ∀ entry ∈ es.drop (labelLowerBound es tgt), tgt ≤ entry.1 := by
        intro entry hent
        rw [hdrop] at hent
        simpa using (mem_filter.mp hent).2
      have hwant : es.countP (wanted (some tgt) bounds) =
          ((es.drop (labelLowerBound es tgt)).filter fun entry => decide (entry.1 ≤ tgt)).countP fun entry =>
            keyMatchesBounds entry.2.1 bounds := by
        rw [hdrop, filter_filter, countP_filter]
        apply countP_congr
        intro entry _
        simp only [wanted, all_some, Bool.and_eq_true, decide_eq_true_iff, Bool.not_eq_true', decide_eq_false_iff_not]
        constructor
        · rintro ⟨heq, hm'⟩
          exact ⟨hm', by omega, by omega⟩
        · rintro ⟨hm', hle, hge⟩
          exact ⟨by omega, hm'⟩
      dsimp only
      split
      · rename_i hend
        rw [hwant, hend, drop_length]
        rfl
      · rename_i hend
        split
        · rename_i hoth
          -- the first entry from the label on carries a later one
          obtain ⟨entry, hent, hne⟩ := (Option.any_eq_true _ _).mp hoth
          have hge := label_le_of_mem_drop hsort hent
          have hfst := hlab entry (List.mem_of_mem_head? (by rw [List.head?_drop, hent]; rfl))
          rw [hwant, filter_eq_nil_iff.mpr]
          · rfl
          · intro other hmem hle
            have hlat := hge other hmem
            have hne := of_decide_eq_true hne
            have hle := of_decide_eq_true hle
            omega
        · rename_i hsame
          rw [countInLabel hsort _ hlab, hwant]
          rw [labelLowerBound, cut_eq hcl, labelUpperBound_eq hsort]
          exact countP_mono_left fun entry _ hlt => decide_eq_true (of_decide_eq_true hlt).le

end

end

theorem xor_top {n : ℕ} (h : n < 2 ^ 31) : n ^^^ 2 ^ 31 = n + 2 ^ 31 := by
  have hdiv : (n ^^^ 2 ^ 31) / 2 ^ 31 = 1 := by
    rw [xor_div_two_pow, div_eq_of_lt h]
    rfl
  have hmod : (n ^^^ 2 ^ 31) % 2 ^ 31 = n := by rw [xor_mod_two_pow, mod_eq_of_lt h, mod_self, xor_zero]
  have hparts := div_add_mod (n ^^^ 2 ^ 31) (2 ^ 31)
  rw [hdiv, hmod] at hparts
  omega

variable {weight : F32}

/-- The sign bit is turned over: the keys of the negative weights lie below the others. -/
theorem weightKey_eq (h : isNan weight = false) :
    weightKey weight = some (if orderValue weight < 0 then 2 ^ 31 - 1 + orderValue weight else 2 ^ 31 + orderValue weight) := by
  have hpos : ∀ bits : F32, bits.msb = false → ((bits ^^^ (1 <<< 31)).toNat : ℤ) = 2 ^ 31 + (bits.toNat : ℤ) := by
    intro bits hbits
    have htop : (1 <<< 31 : F32).toNat = 2 ^ 31 := by decide
    rw [BitVec.toNat_xor, htop, xor_top (BitVec.toNat_lt_of_msb_false hbits)]
    push_cast
    ring
  have hparts : weight.toNat = (if weight.msb then 2 ^ 31 else 0) + weight.toNat % 2 ^ 31 := by
    have hlt := weight.isLt
    rw [BitVec.msb_eq_decide]
    simp only [decide_eq_true_iff]
    split_ifs <;> omega
  rw [weightKey, encodeEdgeWeightKey, h]
  simp only [Bool.false_eq_true, if_false, map_some, some.injEq, orderValue, reducePow] at hparts ⊢
  generalize weight.toNat % 2147483648 = magnitude at hparts ⊢
  cases magnitude with
  | zero =>
    have hmsb : (0 : F32).msb = false := rfl
    have hkey := hpos 0 hmsb
    simp only [if_true, hmsb, Bool.false_eq_true, if_false, hkey]
    cases weight.msb <;> rfl
  | succ magnitude =>
    rw [if_neg (succ_ne_zero _)]
    cases hmsb : weight.msb with
    | true =>
      rw [hmsb, if_pos rfl] at hparts
      simp only [if_true, BitVec.toNat_not, hparts]
      rw [if_pos (by omega)]
      omega
    | false =>
      rw [hmsb, if_neg Bool.false_ne_true] at hparts
      simp only [Bool.false_eq_true, if_false, hpos weight hmsb, hparts]
      rw [if_neg (by omega)]
      omega

/-- The keys are strictly monotone in the weights that are numbers, with one key for both zeros. -/
theorem weightKey_mono {a b : F32} (ha : isNan a = false) (hb : isNan b = false) :
    ∃ fst snd, weightKey a = some fst ∧ weightKey b = some snd ∧ (floatLt a b = true ↔ fst < snd) ∧ (floatEq a b = true ↔ fst = snd) := by
  refine ⟨_, _, weightKey_eq ha, weightKey_eq hb, ?_, ?_⟩
  · rw [floatLt, ha, hb, Bool.not_false, Bool.true_and, Bool.true_and, decide_eq_true_iff]
    split_ifs <;> omega
  · rw [floatEq, ha, hb, Bool.not_false, Bool.true_and, Bool.true_and, decide_eq_true_iff]
    split_ifs <;> omega

def weightWithin (weight : F32) (bounds : RangeBoundFlags F32) : Bool :=
  !isNan weight &&
    bounds.lower.all (fun lower => floatLt lower weight || bounds.lowerInclusive && floatEq lower weight) &&
    bounds.upper.all fun upper => floatLt weight upper || bounds.upperInclusive && floatEq weight upper

theorem weightKey_nan {bound : F32} (h : isNan bound = true) : weightKey bound = none := by
  rw [weightKey, encodeEdgeWeightKey, h]
  rfl

theorem floatLt_nan {a b : F32} (h : isNan a = true ∨ isNan b = true) : floatLt a b = false ∧ floatEq a b = false := by
  rcases h with h | h <;> simp [floatLt, floatEq, h]

/-- A bound as the keys see it: none lies below one that is not a number. -/
theorem bound_eq {weight bound : F32} (h : isNan weight = false) (inclusive : Bool) {key : ℤ} (hkey : weightKey weight = some key) :
    (floatLt bound weight || inclusive && floatEq bound weight) =
        ((weightKey bound).any fun lower => !(if inclusive then decide (key < lower) else decide (key ≤ lower))) ∧
      (floatLt weight bound || inclusive && floatEq weight bound) =
        (weightKey bound).any fun upper => !(if inclusive then decide (upper < key) else decide (upper ≤ key)) := by
  cases hnan : isNan bound with
  | true => simp [weightKey_nan hnan, floatLt_nan (Or.inl hnan), floatLt_nan (Or.inr hnan)]
  | false =>
    obtain ⟨fst, snd, hfst, hsnd, hlt, heq⟩ := weightKey_mono hnan h
    obtain ⟨first', second', hfst', hsnd', hlt', heq'⟩ := weightKey_mono h hnan
    obtain rfl : snd = key := some.inj (hsnd.symm.trans hkey)
    obtain rfl : first' = snd := some.inj (hfst'.symm.trans hkey)
    obtain rfl : second' = fst := some.inj (hsnd'.symm.trans hfst)
    rw [hfst]
    cases inclusive with
    | true =>
      constructor <;> apply Bool.eq_iff_iff.mpr <;>
        simp only [Bool.or_eq_true, Bool.true_and, hlt, heq, hlt', heq', any_some, if_true, Bool.not_eq_true',
          decide_eq_false_iff_not] <;> omega
    | false =>
      constructor <;> apply Bool.eq_iff_iff.mpr <;>
        simp only [Bool.false_and, Bool.or_false, hlt, hlt', any_some, Bool.false_eq_true, if_false, Bool.not_eq_true',
          decide_eq_false_iff_not] <;> omega

theorem weightWithin_eq {key : ℤ} (hkey : weightKey weight = some key) (bounds : RangeBoundFlags F32) :
    weightWithin weight bounds = (weightKeyBounds bounds).any (keyMatchesBounds key) := by
  have hnan : isNan weight = false := by
    by_contra hnan
    rw [weightKey_nan (by simpa using hnan)] at hkey
    cases hkey
  obtain ⟨lower, lowerInclusive, upper, upperInclusive⟩ := bounds
  have hlo : (lower.all fun lower => floatLt lower weight || lowerInclusive && floatEq lower weight) =
      (boundKey lower).any fun lower => !lower.any fun lower => if lowerInclusive then decide (key < lower) else decide (key ≤ lower) := by
    cases lower with
    | none => rfl
    | some lower =>
      rw [all_some, (bound_eq hnan lowerInclusive hkey).1, boundKey]
      cases weightKey lower <;> rfl
  have hup : (upper.all fun upper => floatLt weight upper || upperInclusive && floatEq weight upper) =
      (boundKey upper).any fun upper => !upper.any fun upper => if upperInclusive then decide (upper < key) else decide (upper ≤ key) := by
    cases upper with
    | none => rfl
    | some upper =>
      rw [all_some, (bound_eq hnan upperInclusive hkey).2, boundKey]
      cases weightKey upper <;> rfl
  rw [weightWithin, hnan, hlo, hup, weightKeyBounds]
  cases boundKey lower with
  | none => rfl
  | some lower =>
    cases boundKey upper with
    | none => simp
    | some upper => rfl

inductive I64Field where
  | updatedAt
  | validFrom
  | validTo

def I64Field.value : I64Field → EdgeRecord → ℤ
  | .updatedAt, edge => edge.updatedAt
  | .validFrom, edge => edge.validFrom
  | .validTo, edge => edge.validTo

def I64Field.entries : I64Field → EdgeMetadataIndexEntries → List (ℕ × ℤ × ℕ)
  | .updatedAt, idx => idx.updatedAt
  | .validFrom, idx => idx.validFrom
  | .validTo, idx => idx.validTo

section
variable {edges : List (Meta EdgeRecord)} {deletedEdges : Map ℕ TombstoneEntry} {labelId : Option ℕ}

theorem entries_prepare (field : I64Field) : field.entries (prepareEdgeMetadataIndexComponentsFromMeta edges) =
    sortMetadata (edges.map fun em => (em.record.labelId, field.value em.record, em.id)) := by
  cases field <;> rfl

theorem sorted_sortMetadata (es : List (ℕ × ℤ × ℕ)) : Sorted (sortMetadata es) :=
  pairwise_insertionSort (fun a b : ℕ × ℤ × ℕ => lexTriple a ≤ lexTriple b) es

theorem sorted_weights : Sorted (prepareEdgeMetadataIndexComponentsFromMeta edges).weight := sorted_sortMetadata _

theorem perm_sortMetadata (es : List (ℕ × ℤ × ℕ)) : (sortMetadata es).Perm es :=
  perm_insertionSort (fun a b : ℕ × ℤ × ℕ => lexTriple a ≤ lexTriple b) es

theorem filter_sortMetadata (test : ℕ × ℤ × ℕ → Bool) (es : List (ℕ × ℤ × ℕ)) :
    (sortMetadata es).filter test = sortMetadata (es.filter test) := by
  apply Perm.eq_of_pairwise _ ((sorted_sortMetadata es).sublist filter_sublist) (sorted_sortMetadata _)
    (((perm_sortMetadata es).filter test).trans (perm_sortMetadata _).symm)
  intro a b _ _ hab hba
  exact lexTriple_injective (le_antisymm hab hba)

theorem weightEntry {em : Meta EdgeRecord} {test : ℕ × ℤ × ℕ → Bool} {kept : Bool}
    (hkept : ∀ key, weightKey em.record.weight = some key → test (em.record.labelId, key, em.id) = kept) :
    (((encodeEdgeWeightKey em.record.weight).map fun k => (em.record.labelId, (k.toNat : ℤ), em.id)).filter test) =
      if kept then (encodeEdgeWeightKey em.record.weight).map fun k => (em.record.labelId, (k.toNat : ℤ), em.id) else none := by
  cases hkey : encodeEdgeWeightKey em.record.weight with
  | none => cases kept <;> rfl
  | some key =>
    have htest := hkept key.toNat (by rw [weightKey, hkey]; rfl)
    rw [map_some, filter_some, htest]

theorem filter_weights (labelId : Option ℕ) (bounds : RangeBoundFlags ℤ) (within : F32 → Bool) (live : ℕ → Bool)
    (hwi : ∀ weight key, weightKey weight = some key → keyMatchesBounds key bounds = within weight) :
    ((prepareEdgeMetadataIndexComponentsFromMeta edges).weight.filter fun entry => wanted labelId bounds entry && live entry.2.2) =
      (prepareEdgeMetadataIndexComponentsFromMeta (edges.filter fun em =>
        labelId.all (em.record.labelId = ·) && within em.record.weight && live em.id)).weight := by
  rw [prepareEdgeMetadataIndexComponentsFromMeta, prepareEdgeMetadataIndexComponentsFromMeta, filter_sortMetadata,
    filter_filterMap, filterMap_filter]
  congr 1
  apply filterMap_congr
  intro em _
  apply weightEntry
  intro key hkey
  rw [wanted, hwi _ _ hkey]

theorem filter_values (field : I64Field) (bounds : RangeBoundFlags ℤ) (live : ℕ → Bool) :
    ((field.entries (prepareEdgeMetadataIndexComponentsFromMeta edges)).filter fun entry =>
        wanted labelId bounds entry && live entry.2.2) =
      field.entries (prepareEdgeMetadataIndexComponentsFromMeta (edges.filter fun em =>
        labelId.all (em.record.labelId = ·) && keyMatchesBounds (field.value em.record) bounds && live em.id)) := by
  rw [entries_prepare, entries_prepare, filter_sortMetadata, filter_map]
  rfl

theorem weightWithin_none {weight : F32} {bounds : RangeBoundFlags F32} (h : weightKeyBounds bounds = none) :
    weightWithin weight bounds = false := by
  cases hkey : weightKey weight with
  | none =>
    cases hnan : isNan weight with
    | true => rw [weightWithin, hnan]; rfl
    | false =>
      rw [weightKey_eq hnan] at hkey
      cases hkey
  | some key =>
    rw [weightWithin_eq hkey, h]
    rfl

theorem scan_weights {σ ρ : Type} (bounds : RangeBoundFlags F32) (callback : σ → ℕ → Except ρ σ) (state : σ) :
    forEachEdgeIdByWeightRangeInner (prepareEdgeMetadataIndexComponentsFromMeta edges).weight deletedEdges labelId bounds callback state =
      ((prepareEdgeMetadataIndexComponentsFromMeta (edges.filter fun em => labelId.all (em.record.labelId = ·) &&
        weightWithin em.record.weight bounds && !(deletedEdges.lookup em.id).isSome)).weight.map fun entry =>
          entry.2.2).foldlM callback state := by
  rw [forEachEdgeIdByWeightRangeInner]
  cases hbds : weightKeyBounds bounds with
  | none =>
    rw [filter_eq_nil_iff.mpr fun em _ => by simp [weightWithin_none hbds]]
    rfl
  | some keyBounds =>
    dsimp only
    rw [forEach_eq sorted_weights, filter_weights labelId keyBounds (fun weight => weightWithin weight bounds)
      fun id => !(deletedEdges.lookup id).isSome]
    · intro weight key hkey
      rw [weightWithin_eq hkey, hbds]
      rfl
    · intro entry hent
      have hmem := (perm_sortMetadata _).mem_iff.mp hent
      obtain ⟨em, _, hem⟩ := mem_filterMap.mp hmem
      obtain ⟨key, _, rfl⟩ := map_eq_some_iff.mp hem
      exact Int.natCast_nonneg _

theorem count_weights (bounds : RangeBoundFlags F32) :
    edgeWeightRangeCountInner (prepareEdgeMetadataIndexComponentsFromMeta edges).weight labelId bounds =
      edges.countP fun em => labelId.all (em.record.labelId = ·) && weightWithin em.record.weight bounds := by
  rw [edgeWeightRangeCountInner]
  cases hbds : weightKeyBounds bounds with
  | none => simp [weightWithin_none hbds]
  | some keyBounds =>
    have hfil := @filter_weights edges labelId keyBounds (fun weight => weightWithin weight bounds) (fun _ => true)
      fun weight key hkey => by rw [weightWithin_eq hkey, hbds]; rfl
    simp only [Bool.and_true] at hfil
    dsimp only
    rw [rangeCountInner_eq sorted_weights, countP_eq_length_filter, hfil, prepareEdgeMetadataIndexComponentsFromMeta,
      (perm_sortMetadata _).length_eq, length_filterMap_eq_countP, countP_filter]
    apply countP_congr
    intro em _
    rw [Bool.and_eq_true, isSome_map, and_iff_right_of_imp]
    intro hwi
    cases hkey : encodeEdgeWeightKey em.record.weight with
    | some key => rfl
    | none =>
      have hnan : isNan em.record.weight = false := by
        by_contra hnan
        simp [weightWithin, hnan] at hwi
      have hnone : weightKey em.record.weight = none := by rw [weightKey, hkey]; rfl
      rw [weightKey_eq hnan] at hnone
      cases hnone

theorem scan_values {σ ρ : Type} (field : I64Field) (hfits : ∀ em ∈ edges, FitsI64 (field.value em.record))
    (bounds : RangeBoundFlags ℤ) (callback : σ → ℕ → Except ρ σ) (state : σ) :
    forEachEdgeIdByI64MetadataRangeInner (field.entries (prepareEdgeMetadataIndexComponentsFromMeta edges)) deletedEdges labelId
        bounds callback state =
      ((field.entries (prepareEdgeMetadataIndexComponentsFromMeta (edges.filter fun em => labelId.all (em.record.labelId = ·) &&
        keyMatchesBounds (field.value em.record) bounds && !(deletedEdges.lookup em.id).isSome))).map fun entry =>
          entry.2.2).foldlM callback state := by
  rw [forEachEdgeIdByI64MetadataRangeInner, forEach_eq, filter_values field bounds fun id => !(deletedEdges.lookup id).isSome]
  · rw [entries_prepare]
    exact sorted_sortMetadata _
  · intro entry hent
    rw [entries_prepare] at hent
    obtain ⟨em, hem, rfl⟩ := mem_map.mp ((perm_sortMetadata _).mem_iff.mp hent)
    exact (hfits em hem).1

theorem count_values (field : I64Field) (bounds : RangeBoundFlags ℤ) :
    edgeI64MetadataRangeCountInner (field.entries (prepareEdgeMetadataIndexComponentsFromMeta edges)) labelId bounds =
      edges.countP fun em => labelId.all (em.record.labelId = ·) && keyMatchesBounds (field.value em.record) bounds := by
  rw [edgeI64MetadataRangeCountInner, entries_prepare, rangeCountInner_eq (sorted_sortMetadata _),
    (perm_sortMetadata _).countP_eq, countP_map]
  rfl

end

/-- A search of a property sidecar returns the first live entries within the bounds and after the cursor, in order, and a
count is the length of the search without limit. A scan of an edge metadata sidecar calls back for the live edges whose
metadata lies within the bounds, in the order of their entries, and a count is the number of edges within the bounds. -/
theorem range_sidecars_exact {es : List (NumericRangeSortKey ×ₗ ℕ)} (hsorted : es.Pairwise (· ≤ ·))
    (hids : ∀ entry ∈ es, (ofLex entry).2 ≤ u64Max) (deletedNodes : Map ℕ TombstoneEntry)
    (lower upper : Option (NumericRangeSortKey × Bool)) (after : Option (NumericRangeSortKey ×ₗ ℕ)) {limit : Option ℕ}
    (hlimit : ∀ n ∈ limit, 0 < n) {edges : List (Meta EdgeRecord)}
    (hfits : ∀ em ∈ edges, ∀ field : I64Field, FitsI64 (field.value em.record)) (deletedEdges : Map ℕ TombstoneEntry)
    (labelId : Option ℕ) (weights : RangeBoundFlags F32) (field : I64Field) (values : RangeBoundFlags ℤ) {σ ρ : Type}
    (callback : σ → ℕ → Except ρ σ) (state : σ) :
    (findNodesInSecondaryRangeSidecar es deletedNodes lower upper after limit = (limit.elim id List.take)
      (es.filter fun entry => rangeStart lower (after.map ofLex) entry && !secondaryRangePastUpper (ofLex entry).1 upper &&
        !(deletedNodes.lookup (ofLex entry).2).isSome)) ∧
    countNodesInSecondaryRangeSidecar es deletedNodes lower upper =
      (findNodesInSecondaryRangeSidecar es deletedNodes lower upper none none).length ∧
    (let index := prepareEdgeMetadataIndexComponentsFromMeta edges
      let live (within : EdgeRecord → Bool) := prepareEdgeMetadataIndexComponentsFromMeta (edges.filter fun em =>
        labelId.all (em.record.labelId = ·) && within em.record && !(deletedEdges.lookup em.id).isSome)
      forEachEdgeIdByWeightRangeInner index.weight deletedEdges labelId weights callback state =
        ((live fun edge => weightWithin edge.weight weights).weight.map fun entry => entry.2.2).foldlM callback state ∧
      edgeWeightRangeCountInner index.weight labelId weights =
        edges.countP (fun em => labelId.all (em.record.labelId = ·) && weightWithin em.record.weight weights) ∧
      forEachEdgeIdByI64MetadataRangeInner (field.entries index) deletedEdges labelId values callback state =
        ((field.entries (live fun edge => keyMatchesBounds (field.value edge) values)).map fun entry =>
          entry.2.2).foldlM callback state ∧
      edgeI64MetadataRangeCountInner (field.entries index) labelId values =
        edges.countP fun em => labelId.all (em.record.labelId = ·) && keyMatchesBounds (field.value em.record) values) ∧
    ∀ a b : F32, isNan a = false → isNan b = false → ∃ fst snd, encodeEdgeWeightKey a = some fst ∧
      encodeEdgeWeightKey b = some snd ∧ (floatLt a b = true ↔ fst < snd) ∧ (floatEq a b = true ↔ fst = snd) := by
  refine ⟨findNodes_eq hsorted hids hlimit, countNodes_eq hsorted hids, ⟨scan_weights weights callback state, count_weights weights,
    scan_values field (fun em hem => hfits em hem field) values callback state, count_values field values⟩, ?_⟩
  intro a b ha hb
  obtain ⟨fst, snd, hfirst, hsecond, hlt, heq⟩ := weightKey_mono ha hb
  obtain ⟨firstKey, hfirstKey, rfl⟩ := map_eq_some_iff.mp hfirst
  obtain ⟨secondKey, hsecondKey, rfl⟩ := map_eq_some_iff.mp hsecond
  refine ⟨firstKey, secondKey, hfirstKey, hsecondKey, hlt.trans ?_, heq.trans ?_⟩
  · rw [BitVec.lt_def, Int.ofNat_lt]
  · rw [Int.natCast_inj, BitVec.toNat_inj]

private def zeroKey : NumericRangeSortKey := toLex (0, toLex (0, 0))

/-- Past a cursor on the bound itself comes the next node of the same value. -/
theorem range_sidecars_exact_cursor :
    findNodesInSecondaryRangeSidecar [toLex (zeroKey, 1), toLex (zeroKey, 2), toLex (zeroKey, 3)] ∅ (some (zeroKey, true))
      (some (zeroKey, true)) (some (toLex (zeroKey, 1))) (some 1) = [toLex (zeroKey, 2)] := by
  have hsorted : [toLex (zeroKey, 1), toLex (zeroKey, 2), toLex (zeroKey, 3)].Pairwise (· ≤ ·) := by decide
  have hids : ∀ entry ∈ [toLex (zeroKey, 1), toLex (zeroKey, 2), toLex (zeroKey, 3)], (ofLex entry).2 ≤ u64Max := by decide
  have hfits : ∀ em ∈ [(⟨3, 0, BuilderAgreement.knowsEdge⟩ : Meta EdgeRecord)], ∀ field : I64Field, FitsI64 (field.value em.record) := by
    intro em hem field
    obtain rfl := mem_singleton.mp hem
    cases field <;> exact ⟨by decide, by decide⟩
  have hexact := range_sidecars_exact hsorted hids ∅ (some (zeroKey, true)) (some (zeroKey, true)) (some (toLex (zeroKey, 1)))
    (fun n (hn : some 1 = some n) => some.inj hn ▸ Nat.one_pos) hfits ∅ (some 7) ⟨none, true, none, true⟩ .updatedAt
    ⟨none, true, none, true⟩ (fun state id => (.ok (id :: state) : Except Empty (List ℕ))) []
  exact hexact.1.trans (by decide)

end OverGraph.RangeSidecars
