import OverGraph.NumericRangeKeys

/-!
# Validated ranges of numbers

The bounds of a range are checked to be finite numbers and turned into keys. A range is empty if its
bounds leave nothing between them; the intersection of two ranges has the tighter bound on each side.
-/

namespace OverGraph.NumericRanges
open PropertyValues (NumericScalarKey PropertyRangeBound numericKey numericKeyFromF64 compareNumericKeys meetsLower
  meetsUpper numericRangeValueWithinBounds)
open Records NumericRangeKeys Fallible Option Except

structure NumericRangeBoundKey where
  key : NumericScalarKey
  inclusive : Bool

structure ValidatedNumericRange where
  lower : Option NumericRangeBoundKey
  upper : Option NumericRangeBoundKey
  isEmpty : Bool

def validateNumericRangeValue (val : PropValue) : Except String NumericScalarKey :=
  match val with
  | .float bits =>
    match numericKeyFromF64 bits with
    | some key => .ok key
    | none => .error "non-finite float is not valid for numeric range bounds"
  | .int _ | .uint _ =>
    match numericKey val with
    | some key => .ok key
    | none => .error "bound must be a finite numeric scalar"
  | _ => .error "range bound must be a finite numeric scalar"

def validateBound (bound : PropertyRangeBound) : Except String NumericRangeBoundKey := do
  let key ← validateNumericRangeValue bound.value
  return ⟨key, bound.inclusive⟩

def validateOptionalBound : Option PropertyRangeBound → Except String (Option NumericRangeBoundKey)
  | none => return none
  | some bound => do
    let key ← validateBound bound
    return some key

def rangeBoundsAreEmpty (lower upper : NumericRangeBoundKey) : Bool :=
  match compareNumericKeys lower.key upper.key with
  | .gt => true
  | .eq => !(lower.inclusive && upper.inclusive)
  | .lt => false

def boundsAreEmpty : Option NumericRangeBoundKey → Option NumericRangeBoundKey → Bool
  | some lower, some upper => rangeBoundsAreEmpty lower upper
  | _, _ => false

def validateNumericRangeBounds (lower upper : Option PropertyRangeBound) : Except String ValidatedNumericRange :=
  if lower.isNone && upper.isNone then .error "range query requires at least one finite numeric bound"
  else do
    let lower ← validateOptionalBound lower
    let upper ← validateOptionalBound upper
    return ⟨lower, upper, boundsAreEmpty lower upper⟩

def numericKeyWithinValidatedRange (val : NumericScalarKey) (range : ValidatedNumericRange) : Bool :=
  !range.isEmpty && range.lower.all (fun bound => meetsLower val bound.key bound.inclusive) &&
    range.upper.all (fun bound => meetsUpper val bound.key bound.inclusive)

def propValueWithinValidatedRange (val : PropValue) (range : ValidatedNumericRange) : Bool :=
  (numericKey val).any (numericKeyWithinValidatedRange · range)

def meetsBound? (meets : NumericScalarKey → NumericScalarKey → Bool → Bool) (val : NumericScalarKey) :
    Option PropertyRangeBound → Option Bool
  | none => some true
  | some bound => (numericKey bound.value).map (meets val · bound.inclusive)

/-- Nothing is said of what is no number. -/
def numericRangeValueWithinBounds? (val : PropValue) (lower upper : Option PropertyRangeBound) : Option Bool := do
  let valueKey ← numericKey val
  let inLower ← meetsBound? meetsLower valueKey lower
  if inLower then meetsBound? meetsUpper valueKey upper else some false

def maxLowerBound : Option NumericRangeBoundKey → Option NumericRangeBoundKey → Option NumericRangeBoundKey
  | some left, some right =>
    match compareNumericKeys left.key right.key with
    | .lt => some right
    | .gt => some left
    | .eq => some ⟨left.key, left.inclusive && right.inclusive⟩
  | some bound, none => some bound
  | none, some bound => some bound
  | none, none => none

def minUpperBound : Option NumericRangeBoundKey → Option NumericRangeBoundKey → Option NumericRangeBoundKey
  | some left, some right =>
    match compareNumericKeys left.key right.key with
    | .lt => some left
    | .gt => some right
    | .eq => some ⟨left.key, left.inclusive && right.inclusive⟩
  | some bound, none => some bound
  | none, some bound => some bound
  | none, none => none

def intersectValidatedNumericRanges (left right : ValidatedNumericRange) : ValidatedNumericRange where
  lower := maxLowerBound left.lower right.lower
  upper := minUpperBound left.upper right.upper
  isEmpty := left.isEmpty || right.isEmpty || boundsAreEmpty (maxLowerBound left.lower right.lower) (minUpperBound left.upper right.upper)

/-- A number is on the right side of a bound from below. -/
def Above (bound : ℚ) (inclusive : Bool) (x : ℚ) : Prop := if inclusive then bound ≤ x else bound < x

def Below (bound : ℚ) (inclusive : Bool) (x : ℚ) : Prop := if inclusive then x ≤ bound else x < bound

variable {bound x : ℚ}

theorem Above.le {inclusive : Bool} (h : Above bound inclusive x) : bound ≤ x := by
  rw [Above] at h
  split at h
  · exact h
  · exact h.le

variable {i j : Bool}

theorem Above.of_lt {tighter : ℚ} (hlt : bound < tighter) (h : Above tighter j x) : Above bound i x := by
  rw [Above]
  split
  · exact (hlt.trans_le h.le).le
  · exact hlt.trans_le h.le

theorem above_and : Above bound (i && j) x ↔ Above bound i x ∧ Above bound j x := by
  cases i <;> cases j <;> simp [Above]
  · exact le_of_lt
  · exact le_of_lt

theorem Below.le {inclusive : Bool} (h : Below bound inclusive x) : x ≤ bound := by
  rw [Below] at h
  split at h
  · exact h
  · exact h.le

theorem Below.of_lt {tighter : ℚ} (hlt : tighter < bound) (h : Below tighter j x) : Below bound i x := by
  rw [Below]
  split
  · exact (h.le.trans_lt hlt).le
  · exact h.le.trans_lt hlt

theorem below_and : Below bound (i && j) x ↔ Below bound i x ∧ Below bound j x := by
  cases i <;> cases j <;> simp [Below]
  · exact le_of_lt
  · exact le_of_lt

section
variable {val bound : NumericScalarKey} (hval : Proper val) (hbd : Proper bound)
include hval hbd

theorem meetsLower_iff (inclusive : Bool) : meetsLower val bound inclusive = true ↔ Above (keyValue bound) inclusive (keyValue val) := by
  rw [meetsLower, compareNumericKeys_eq hval hbd, Above]
  cases inclusive with
  | true => rw [if_pos rfl, if_pos rfl, decide_eq_true_iff, ne_eq, compare_lt_iff_lt, not_lt]
  | false => rw [if_neg Bool.false_ne_true, if_neg Bool.false_ne_true, decide_eq_true_iff, compare_gt_iff_gt]

theorem meetsUpper_iff (inclusive : Bool) : meetsUpper val bound inclusive = true ↔ Below (keyValue bound) inclusive (keyValue val) := by
  rw [meetsUpper, compareNumericKeys_eq hval hbd, Below]
  cases inclusive with
  | true => rw [if_pos rfl, if_pos rfl, decide_eq_true_iff, ne_eq, compare_gt_iff_gt, not_lt]
  | false => rw [if_neg Bool.false_ne_true, if_neg Bool.false_ne_true, decide_eq_true_iff, compare_lt_iff_lt]

end

structure ProperRange (range : ValidatedNumericRange) : Prop where
  lower : ∀ bound ∈ range.lower, Proper bound.key
  upper : ∀ bound ∈ range.upper, Proper bound.key

def meetsLowerBound (val : NumericScalarKey) (bound : Option NumericRangeBoundKey) : Bool :=
  bound.all fun bound => meetsLower val bound.key bound.inclusive

def meetsUpperBound (val : NumericScalarKey) (bound : Option NumericRangeBoundKey) : Bool :=
  bound.all fun bound => meetsUpper val bound.key bound.inclusive

variable {range : ValidatedNumericRange}

theorem within_iff {val : NumericScalarKey} : numericKeyWithinValidatedRange val range = true ↔
      range.isEmpty = false ∧ meetsLowerBound val range.lower = true ∧ meetsUpperBound val range.upper = true := by
  rw [numericKeyWithinValidatedRange, Bool.and_eq_true, Bool.and_eq_true, Bool.not_eq_true', and_assoc]
  rfl

section
variable {val : NumericScalarKey} (hval : Proper val)
include hval

/-- What lies between two bounds shows that they are not empty. -/
theorem not_empty_of_between {lower upper : Option NumericRangeBoundKey} (hlo : ∀ bound ∈ lower, Proper bound.key)
    (hup : ∀ bound ∈ upper, Proper bound.key) (hlow : meetsLowerBound val lower = true)
    (hhigh : meetsUpperBound val upper = true) : boundsAreEmpty lower upper = false := by
  cases lower with
  | none => rfl
  | some low =>
    cases upper with
    | none => rfl
    | some high =>
      have hl := hlo low rfl
      have hu := hup high rfl
      have hab := (meetsLower_iff hval hl low.inclusive).mp hlow
      have hbel := (meetsUpper_iff hval hu high.inclusive).mp hhigh
      have hle : keyValue low.key ≤ keyValue high.key := hab.le.trans hbel.le
      rw [boundsAreEmpty, rangeBoundsAreEmpty, compareNumericKeys_eq hl hu]
      rcases hle.lt_or_eq with h | h
      · rw [compare_lt_iff_lt.mpr h]
      · rw [compare_eq_iff_eq.mpr h]
        -- at one number both bounds have to include it
        have hlowIncluded : low.inclusive = true := by
          by_contra hnot
          rw [Above, if_neg hnot, h] at hab
          exact absurd hbel.le (not_le.mpr hab)
        have hhighIncluded : high.inclusive = true := by
          by_contra hnot
          rw [Below, if_neg hnot, ← h] at hbel
          exact absurd hab.le (not_le.mpr hbel)
        rw [hlowIncluded, hhighIncluded]
        rfl

variable {left right : Option NumericRangeBoundKey}

section
variable (hleft : ∀ bound ∈ left, Proper bound.key) (hrt : ∀ bound ∈ right, Proper bound.key)
include hleft hrt

theorem meets_maxLowerBound : meetsLowerBound val (maxLowerBound left right) = true ↔
      meetsLowerBound val left = true ∧ meetsLowerBound val right = true := by
  cases left with
  | none => cases right <;> simp [maxLowerBound, meetsLowerBound]
  | some left =>
    cases right with
    | none => simp [maxLowerBound, meetsLowerBound]
    | some right =>
      have hl := hleft left rfl
      have hr := hrt right rfl
      have hmeetsLeft : meetsLowerBound val (some left) = true ↔ _ := meetsLower_iff hval hl left.inclusive
      have hmeetsRight : meetsLowerBound val (some right) = true ↔ _ := meetsLower_iff hval hr right.inclusive
      rw [maxLowerBound, compareNumericKeys_eq hl hr]
      rcases lt_trichotomy (keyValue left.key) (keyValue right.key) with h | h | h
      · rw [compare_lt_iff_lt.mpr h]
        exact (and_iff_right_of_imp fun hmeets => hmeetsLeft.mpr (.of_lt h (hmeetsRight.mp hmeets))).symm
      · rw [compare_eq_iff_eq.mpr h]
        have hboth : meetsLowerBound val (some ⟨left.key, left.inclusive && right.inclusive⟩) = true ↔ _ :=
          meetsLower_iff hval hl (left.inclusive && right.inclusive)
        rw [hboth, hmeetsLeft, hmeetsRight, above_and, h]
      · rw [compare_gt_iff_gt.mpr h]
        exact (and_iff_left_of_imp fun hmeets => hmeetsRight.mpr (.of_lt h (hmeetsLeft.mp hmeets))).symm

theorem meets_minUpperBound : meetsUpperBound val (minUpperBound left right) = true ↔
      meetsUpperBound val left = true ∧ meetsUpperBound val right = true := by
  cases left with
  | none => cases right <;> simp [minUpperBound, meetsUpperBound]
  | some left =>
    cases right with
    | none => simp [minUpperBound, meetsUpperBound]
    | some right =>
      have hl := hleft left rfl
      have hr := hrt right rfl
      have hmeetsLeft : meetsUpperBound val (some left) = true ↔ _ := meetsUpper_iff hval hl left.inclusive
      have hmeetsRight : meetsUpperBound val (some right) = true ↔ _ := meetsUpper_iff hval hr right.inclusive
      rw [minUpperBound, compareNumericKeys_eq hl hr]
      rcases lt_trichotomy (keyValue left.key) (keyValue right.key) with h | h | h
      · rw [compare_lt_iff_lt.mpr h]
        exact (and_iff_left_of_imp fun hmeets => hmeetsRight.mpr (.of_lt h (hmeetsLeft.mp hmeets))).symm
      · rw [compare_eq_iff_eq.mpr h]
        have hboth : meetsUpperBound val (some ⟨left.key, left.inclusive && right.inclusive⟩) = true ↔ _ :=
          meetsUpper_iff hval hl (left.inclusive && right.inclusive)
        rw [hboth, hmeetsLeft, hmeetsRight, below_and, h]
      · rw [compare_gt_iff_gt.mpr h]
        exact (and_iff_right_of_imp fun hmeets => hmeetsLeft.mpr (.of_lt h (hmeetsRight.mp hmeets))).symm

end

end

section
variable {left right : Option NumericRangeBoundKey} (hleft : ∀ bound ∈ left, Proper bound.key)
  (hrt : ∀ bound ∈ right, Proper bound.key)
include hleft hrt

theorem proper_maxLowerBound : ∀ bound ∈ maxLowerBound left right, Proper bound.key := by
  fun_cases maxLowerBound left right
  any_goals assumption
  rintro bound hbd
  obtain rfl := some.inj hbd
  exact (hleft _ rfl :)

theorem proper_minUpperBound : ∀ bound ∈ minUpperBound left right, Proper bound.key := by
  fun_cases minUpperBound left right
  any_goals assumption
  rintro bound hbd
  obtain rfl := some.inj hbd
  exact (hleft _ rfl :)

end

variable {right : ValidatedNumericRange}

theorem ProperRange.intersect {left : ValidatedNumericRange} (hleft : ProperRange left) (hrt : ProperRange right) :
    ProperRange (intersectValidatedNumericRanges left right) :=
  ⟨proper_maxLowerBound hleft.lower hrt.lower, proper_minUpperBound hleft.upper hrt.upper⟩

theorem within_intersect_iff {val : NumericScalarKey} {left : ValidatedNumericRange} (hval : Proper val)
    (hleft : ProperRange left) (hrt : ProperRange right) :
    numericKeyWithinValidatedRange val (intersectValidatedNumericRanges left right) = true ↔
      numericKeyWithinValidatedRange val left = true ∧ numericKeyWithinValidatedRange val right = true := by
  have hprop := hleft.intersect hrt
  have hlo := meets_maxLowerBound hval hleft.lower hrt.lower
  have hup := meets_minUpperBound hval hleft.upper hrt.upper
  constructor
  · intro hwi
    obtain ⟨hfull, hlow, hhigh⟩ := within_iff.mp hwi
    obtain ⟨hfull, -⟩ := Bool.or_eq_false_iff.mp hfull
    obtain ⟨hleftFull, hrightFull⟩ := Bool.or_eq_false_iff.mp hfull
    exact ⟨within_iff.mpr ⟨hleftFull, (hlo.mp hlow).1, (hup.mp hhigh).1⟩, within_iff.mpr ⟨hrightFull, (hlo.mp hlow).2, (hup.mp hhigh).2⟩⟩
  · rintro ⟨hl, hr⟩
    obtain ⟨hleftFull, hleftLower, hleftUpper⟩ := within_iff.mp hl
    obtain ⟨hrightFull, hrightLower, hrightUpper⟩ := within_iff.mp hr
    have hlow := hlo.mpr ⟨hleftLower, hrightLower⟩
    have hhigh := hup.mpr ⟨hleftUpper, hrightUpper⟩
    refine within_iff.mpr ⟨?_, hlow, hhigh⟩
    rw [intersectValidatedNumericRanges, hleftFull, hrightFull]
    exact not_empty_of_between hval hprop.lower hprop.upper hlow hhigh

variable {val : PropValue}

theorem validateNumericRangeValue_ok {key : NumericScalarKey}
    (h : validateNumericRangeValue val = .ok key) : numericKey val = some key := by
  cases val with
  | int val =>
    obtain rfl := ok.inj h
    rfl
  | uint val =>
    obtain rfl := ok.inj h
    rfl
  | float bits =>
    rw [validateNumericRangeValue] at h
    rw [numericKey]
    cases hkey : numericKeyFromF64 bits with
    | none => rw [hkey] at h; cases h
    | some found =>
      rw [hkey] at h
      obtain rfl := ok.inj h
      rfl
  | null | bool _ | string _ | bytes _ | array _ | map _ => cases h

theorem validateOptionalBound_ok {bound : Option PropertyRangeBound} {validated : Option NumericRangeBoundKey}
    (h : validateOptionalBound bound = .ok validated) : (bound = none ∧ validated = none) ∨
      ∃ given key, bound = some given ∧ numericKey given.value = some key ∧ validated = some ⟨key, given.inclusive⟩ := by
  cases bound with
  | none =>
    obtain rfl := ok.inj h
    exact .inl ⟨rfl, rfl⟩
  | some given =>
    rw [validateOptionalBound] at h
    obtain ⟨found, hfnd, h⟩ := bind_ok h
    rw [validateBound] at hfnd
    obtain ⟨key, hkey, hfnd⟩ := bind_ok hfnd
    obtain rfl := ok.inj hfnd
    obtain rfl := ok.inj h
    exact .inr ⟨given, key, rfl, validateNumericRangeValue_ok hkey, rfl⟩

section
variable {lower upper : Option PropertyRangeBound} {range : ValidatedNumericRange}
  (h : validateNumericRangeBounds lower upper = .ok range)
include h

theorem validated_bounds : validateOptionalBound lower = .ok range.lower ∧ validateOptionalBound upper = .ok range.upper ∧
    range.isEmpty = boundsAreEmpty range.lower range.upper := by
  rw [validateNumericRangeBounds] at h
  split at h
  · cases h
  obtain ⟨low, hlow, h⟩ := bind_ok h
  obtain ⟨high, hhigh, h⟩ := bind_ok h
  obtain rfl := ok.inj h
  exact ⟨hlow, hhigh, rfl⟩

theorem numeric_of_validated : (∀ bound ∈ lower, ∃ key, numericKey bound.value = some key) ∧
    ∀ bound ∈ upper, ∃ key, numericKey bound.value = some key := by
  obtain ⟨hlow, hhigh, -⟩ := validated_bounds h
  have hnumr : ∀ {given : Option PropertyRangeBound} {validated}, validateOptionalBound given = .ok validated →
      ∀ bound ∈ given, ∃ key, numericKey bound.value = some key := by
    intro given validated hvali bound hbd
    rcases validateOptionalBound_ok hvali with ⟨rfl, -⟩ | ⟨found, key, rfl, hkey, -⟩
    · cases hbd
    · obtain rfl := some.inj hbd
      exact ⟨key, hkey⟩
  exact ⟨hnumr hlow, hnumr hhigh⟩

variable (hlo : ∀ bound ∈ lower, FitsWord bound.value) (hup : ∀ bound ∈ upper, FitsWord bound.value)
include hlo hup

theorem proper_validated : ProperRange range := by
  obtain ⟨hlow, hhigh, -⟩ := validated_bounds h
  constructor
  · intro bound hbd
    rcases validateOptionalBound_ok hlow with ⟨-, hnone⟩ | ⟨given, key, rfl, hkey, hsome⟩
    · rw [hnone] at hbd
      cases hbd
    · rw [hsome] at hbd
      obtain rfl := some.inj hbd
      exact (numericKey_spec (hlo given rfl) hkey).1
  · intro bound hbd
    rcases validateOptionalBound_ok hhigh with ⟨-, hnone⟩ | ⟨given, key, rfl, hkey, hsome⟩
    · rw [hnone] at hbd
      cases hbd
    · rw [hsome] at hbd
      obtain rfl := some.inj hbd
      exact (numericKey_spec (hup given rfl) hkey).1

theorem within_validated (hval : FitsWord val) :
    propValueWithinValidatedRange val range = numericRangeValueWithinBounds val lower upper := by
  have hprop := proper_validated h hlo hup
  obtain ⟨hlow, hhigh, hemp⟩ := validated_bounds h
  rw [propValueWithinValidatedRange, numericRangeValueWithinBounds]
  cases hkey : numericKey val with
  | none => rfl
  | some key =>
    have hkeyProper := (numericKey_spec hval hkey).1
    have hlowerMeets : lower.all (fun bound => (numericKey bound.value).any (meetsLower key · bound.inclusive)) =
        meetsLowerBound key range.lower := by
      rcases validateOptionalBound_ok hlow with ⟨rfl, hnone⟩ | ⟨given, bound, rfl, hbd, hsome⟩
      · rw [hnone]
        rfl
      · rw [hsome, all_some, hbd]
        rfl
    have hupperMeets : upper.all (fun bound => (numericKey bound.value).any (meetsUpper key · bound.inclusive)) =
        meetsUpperBound key range.upper := by
      rcases validateOptionalBound_ok hhigh with ⟨rfl, hnone⟩ | ⟨given, bound, rfl, hbd, hsome⟩
      · rw [hnone]
        rfl
      · rw [hsome, all_some, hbd]
        rfl
    rw [any_some, any_some, hlowerMeets, hupperMeets, Bool.eq_iff_iff, within_iff, Bool.and_eq_true]
    constructor
    · exact fun hwi => hwi.2
    · intro hwi
      refine ⟨?_, hwi⟩
      rw [hemp]
      exact not_empty_of_between hkeyProper hprop.lower hprop.upper hwi.1 hwi.2

theorem withinBounds_validated {key : NumericScalarKey} (hval : FitsWord val)
    (hkey : numericKey val = some key) :
    numericRangeValueWithinBounds? val lower upper = some (numericKeyWithinValidatedRange key range) := by
  obtain ⟨hlow, hhigh⟩ := numeric_of_validated h
  have hdcd : ∀ {meets : NumericScalarKey → NumericScalarKey → Bool → Bool} {given : Option PropertyRangeBound},
      (∀ bound ∈ given, ∃ key, numericKey bound.value = some key) → meetsBound? meets key given =
        some (given.all fun bound => (numericKey bound.value).any (meets key · bound.inclusive)) := by
    intro meets given hgiven
    cases given with
    | none => rfl
    | some bound =>
      obtain ⟨found, hfnd⟩ := hgiven bound rfl
      rw [meetsBound?, all_some, hfnd]
      rfl
  have hwi := within_validated h hlo hup hval
  rw [propValueWithinValidatedRange, hkey, any_some, numericRangeValueWithinBounds, hkey, any_some] at hwi
  rw [hwi, numericRangeValueWithinBounds?, hkey, bind_eq_bind, bind_some, hdcd hlow, bind_eq_bind, bind_some, hdcd hhigh]
  split
  · rename_i hmeets
    rw [hmeets, Bool.true_and]
  · rename_i hmeets
    rw [Bool.eq_false_iff.mpr hmeets, Bool.false_and]

end

inductive Validated : ValidatedNumericRange → Prop
  | bounds {lower upper : Option PropertyRangeBound} {range : ValidatedNumericRange}
    (hlo : ∀ bound ∈ lower, FitsWord bound.value) (hup : ∀ bound ∈ upper, FitsWord bound.value)
    (h : validateNumericRangeBounds lower upper = .ok range) : Validated range
  | intersect {left right : ValidatedNumericRange} (hleft : Validated left) (hright : Validated right) :
    Validated (intersectValidatedNumericRanges left right)

theorem Validated.proper (h : Validated range) : ProperRange range := by
  induction h with
  | bounds hlo hup h => exact proper_validated h hlo hup
  | intersect _ _ hleft hrt => exact hleft.intersect hrt

/-- A number is in the intersection of two ranges exactly if it is in both, an empty range has no
number, and the numbers of a range are those within the bounds that it was validated from. -/
theorem range_algebra {left right : ValidatedNumericRange} (hleft : Validated left) (hright : Validated right)
    {val : PropValue} {key : NumericScalarKey} (hval : FitsWord val) (hkey : numericKey val = some key) :
    (numericKeyWithinValidatedRange key (intersectValidatedNumericRanges left right) = true ↔
      numericKeyWithinValidatedRange key left = true ∧ numericKeyWithinValidatedRange key right = true) ∧
    (left.isEmpty = true → numericKeyWithinValidatedRange key left = false) ∧
    ∀ lower upper : Option PropertyRangeBound, (∀ bound ∈ lower, FitsWord bound.value) →
      (∀ bound ∈ upper, FitsWord bound.value) → validateNumericRangeBounds lower upper = .ok left →
        numericRangeValueWithinBounds? val lower upper = some (numericKeyWithinValidatedRange key left) := by
  refine ⟨within_intersect_iff (numericKey_spec hval hkey).1 hleft.proper hright.proper, ?_, ?_⟩
  · intro hempty
    rw [numericKeyWithinValidatedRange, hempty]
    rfl
  · intro lower upper hlo hup h
    exact withinBounds_validated h hlo hup hval hkey

def fromOne : ValidatedNumericRange := ⟨some ⟨⟨.positive, 0, 1⟩, true⟩, none, false⟩

def belowThree : ValidatedNumericRange := ⟨none, some ⟨⟨.positive, 0, 3⟩, false⟩, false⟩

theorem range_algebra_two :
    (numericKeyWithinValidatedRange ⟨.positive, 1, 1⟩ (intersectValidatedNumericRanges fromOne belowThree) = true ↔
      numericKeyWithinValidatedRange ⟨.positive, 1, 1⟩ fromOne = true ∧
        numericKeyWithinValidatedRange ⟨.positive, 1, 1⟩ belowThree = true) ∧
    (fromOne.isEmpty = true → numericKeyWithinValidatedRange ⟨.positive, 1, 1⟩ fromOne = false) ∧
    ∀ lower upper : Option PropertyRangeBound, (∀ bound ∈ lower, FitsWord bound.value) →
      (∀ bound ∈ upper, FitsWord bound.value) → validateNumericRangeBounds lower upper = .ok fromOne →
        numericRangeValueWithinBounds? (.int 2) lower upper =
          some (numericKeyWithinValidatedRange ⟨.positive, 1, 1⟩ fromOne) := by
  have hfits : ∀ {val : PropValue}, FitsWord val → ∀ inclusive,
      ∀ bound ∈ some (PropertyRangeBound.mk val inclusive), FitsWord bound.value := by
    intro val h inclusive bound hbd
    rw [← some.inj hbd]
    exact h
  have hnone : ∀ bound ∈ (none : Option PropertyRangeBound), FitsWord bound.value := by
    intro bound h
    cases h
  have hint : ∀ {val : ℤ}, 0 ≤ val → val < 4 → FitsWord (.int val) := by
    intro val hpos hlt
    exact ⟨by omega, by omega⟩
  have hthree : 3 < 2 ^ 64 := by decide
  have hleft : Validated fromOne := .bounds (hfits (hint one_pos.le (by decide)) true) hnone rfl
  have hright : Validated belowThree := .bounds hnone (@hfits (.uint 3) hthree false) rfl
  exact @range_algebra _ _ hleft hright (.int 2) _ (hint two_pos.le (by decide)) rfl

end OverGraph.NumericRanges
