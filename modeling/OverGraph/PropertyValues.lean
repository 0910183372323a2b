import OverGraph.FloatOrder
import Mathlib.Data.Nat.Log

/-!
# Equality and ranges of property values

Numbers are compared by their value, whatever variant holds them; all other values by their
structure. The key of a value decides which values equal it.
-/

namespace OverGraph.PropertyValues
open Records

inductive NumericSign where
  | negative
  | zero
  | positive
  deriving DecidableEq

structure NumericScalarKey where
  sign : NumericSign
  exponent : ℤ
  significand : ℕ
  deriving DecidableEq

namespace NumericScalarKey

def zero : NumericScalarKey := ⟨.zero, 0, 0⟩

/-- Shift the trailing zeros of the significand into the exponent. -/
def normalized (sign : NumericSign) (significand : ℕ) (exponent : ℤ) : ℕ → NumericScalarKey
  | 0 => ⟨sign, exponent, significand⟩
  | fuel + 1 =>
    if significand % 2 = 0 then normalized sign (significand / 2) (exponent + 1) fuel
    else ⟨sign, exponent, significand⟩

/-- A significand has 128 bits at most. -/
def nonzero (sign : NumericSign) (significand : ℕ) (exponent : ℤ) : NumericScalarKey := normalized sign significand exponent 128

def bitLength (key : NumericScalarKey) : ℕ := Nat.log 2 key.significand + 1

def magnitudeRank (key : NumericScalarKey) : ℤ := key.exponent + key.bitLength - 1

def normalizedFraction (key : NumericScalarKey) : ℕ := key.significand * 2 ^ (128 - key.bitLength)

end NumericScalarKey

def numericKeyFromI64 (value : ℤ) : NumericScalarKey :=
  if value = 0 then .zero
  else .nonzero (if value < 0 then .negative else .positive) value.natAbs 0

def numericKeyFromU64 (value : ℕ) : NumericScalarKey := if value = 0 then .zero else .nonzero .positive value 0

/-- The key of a finite double. -/
def numericKeyFromF64 (bits : F64) : Option NumericScalarKey :=
  let exponentBits := bits.toNat / 2 ^ 52 % 2 ^ 11
  let fraction := bits.toNat % 2 ^ 52
  let sign := if bits.msb then NumericSign.negative else .positive
  if exponentBits = 0x7ff then none
  else if exponentBits = 0 then
    if fraction = 0 then some .zero else some (.nonzero sign fraction (1 - 1023 - 52))
  else some (.nonzero sign (2 ^ 52 + fraction) ((exponentBits : ℕ) - 1023 - 52))

def numericKey : PropValue → Option NumericScalarKey
  | .int value => some (numericKeyFromI64 value)
  | .uint value => some (numericKeyFromU64 value)
  | .float bits => numericKeyFromF64 bits
  | .null | .bool _ | .string _ | .bytes _ | .array _ | .map _ => none

def compareMagnitudes (left right : NumericScalarKey) : Ordering :=
  (compare left.magnitudeRank right.magnitudeRank).then (compare left.normalizedFraction right.normalizedFraction)

def compareNumericKeys (left right : NumericScalarKey) : Ordering :=
  match left.sign, right.sign with
  | .negative, .negative => compareMagnitudes right left
  | .zero, .zero => .eq
  | .positive, .positive => compareMagnitudes left right
  | .negative, _ => .lt
  | _, .negative => .gt
  | .zero, .positive => .lt
  | .positive, .zero => .gt

/-- A double is not a number. -/
def isNan64 (bits : F64) : Bool := decide (bits.toNat % 2 ^ 63 > 0x7ff0000000000000)

def f64IsZero (bits : F64) : Bool := decide (bits.toNat % 2 ^ 63 = 0)

section
variable (floats : F64 → F64 → Bool)

mutual

/-- Equality by structure, for a given equality of floats. The entries of a map are in the order
of their names. -/
def structuralEq : PropValue → PropValue → Bool
  | .null, .null => true
  | .bool a, .bool b => decide (a = b)
  | .int a, .int b => decide (a = b)
  | .uint a, .uint b => decide (a = b)
  | .float a, .float b => floats a b
  | .string a, .string b => decide (a = b)
  | .bytes a, .bytes b => decide (a = b)
  | .array a, .array b => itemsEq a b
  | .map a, .map b => entriesEq a b
  | _, _ => false

def itemsEq : List PropValue → List PropValue → Bool
  | [], [] => true
  | a :: as, b :: bs => structuralEq a b && itemsEq as bs
  | _, _ => false

def entriesEq : List (String × PropValue) → List (String × PropValue) → Bool
  | [], [] => true
  | (k, a) :: as, (l, b) :: bs => decide (k = l) && structuralEq a b && entriesEq as bs
  | _, _ => false

end

end

/-- Equality by structure, floats by their bits; a NaN equals nothing. -/
def rawStructuralPropertyEq : PropValue → PropValue → Bool := structuralEq fun a b => !isNan64 a && !isNan64 b && decide (a = b)

def semanticPropertyEq (left right : PropValue) : Bool :=
  match numericKey left, numericKey right with
  | some left, some right => decide (left = right)
  | _, _ => rawStructuralPropertyEq left right

section
variable {floats : F64 → F64 → Bool}

mutual

theorem eq_of_structuralEq (hfloats : ∀ a b, floats a b = true → a = b) : ∀ {a b : PropValue}, structuralEq floats a b = true → a = b
  | .null, b, h | .bool a, b, h | .int a, b, h | .uint a, b, h | .string a, b, h | .bytes a, b, h => by cases b <;> simp_all [structuralEq]
  | .float a, b, h => by
    cases b with
    | float b =>
      rw [structuralEq] at h
      rw [hfloats a b h]
    | _ => simp [structuralEq] at h
  | .array a, b, h => by
    cases b with
    | array b =>
      rw [structuralEq] at h
      rw [eq_of_itemsEq hfloats h]
    | _ => simp [structuralEq] at h
  | .map a, b, h => by
    cases b with
    | map b =>
      rw [structuralEq] at h
      rw [eq_of_entriesEq hfloats h]
    | _ => simp [structuralEq] at h

theorem eq_of_itemsEq (hfloats : ∀ a b, floats a b = true → a = b) : ∀ {a b : List PropValue}, itemsEq floats a b = true → a = b
  | [], [], _ => rfl
  | [], _ :: _, h | _ :: _, [], h => by simp [itemsEq] at h
  | a :: as, b :: bs, h => by
    rw [itemsEq, Bool.and_eq_true] at h
    rw [eq_of_structuralEq hfloats h.1, eq_of_itemsEq hfloats h.2]

theorem eq_of_entriesEq (hfloats : ∀ a b, floats a b = true → a = b) :
    ∀ {a b : List (String × PropValue)}, entriesEq floats a b = true → a = b
  | [], [], _ => rfl
  | [], _ :: _, h | _ :: _, [], h => by simp [entriesEq] at h
  | (k, a) :: as, (l, b) :: bs, h => by
    rw [entriesEq, Bool.and_eq_true, Bool.and_eq_true, decide_eq_true_iff] at h
    rw [h.1.1, eq_of_structuralEq hfloats h.1.2, eq_of_entriesEq hfloats h.2]

end

end

theorem eq_of_rawEq {a b : PropValue} (h : rawStructuralPropertyEq a b = true) : a = b := by
  refine eq_of_structuralEq ?_ h
  intro a b hab
  rw [Bool.and_eq_true, decide_eq_true_iff] at hab
  exact hab.2

example : semanticPropertyEq (.int 1) (.float 0x3ff0000000000000) = true := by decide

def propertyInLinearVerifyThreshold : ℕ := 16

mutual

def containsFloatZero : PropValue → Bool
  | .float bits => f64IsZero bits
  | .array items => itemsContainFloatZero items
  | .map entries => entriesContainFloatZero entries
  | .null | .bool _ | .int _ | .uint _ | .string _ | .bytes _ => false

def itemsContainFloatZero : List PropValue → Bool
  | [] => false
  | a :: as => containsFloatZero a || itemsContainFloatZero as

def entriesContainFloatZero : List (String × PropValue) → Bool
  | [] => false
  | (_, a) :: as => containsFloatZero a || entriesContainFloatZero as

end

def structuralValueContainsFloatZero : PropValue → Bool
  | .array items => itemsContainFloatZero items
  | .map entries => entriesContainFloatZero entries
  | .null | .bool _ | .int _ | .uint _ | .float _ | .string _ | .bytes _ => false

structure PropertyRangeBound where
  value : PropValue
  inclusive : Bool

def meetsLower (value : NumericScalarKey) (bound : NumericScalarKey) (inclusive : Bool) : Bool :=
  if inclusive then decide (compareNumericKeys value bound ≠ .lt) else decide (compareNumericKeys value bound = .gt)

def meetsUpper (value : NumericScalarKey) (bound : NumericScalarKey) (inclusive : Bool) : Bool :=
  if inclusive then decide (compareNumericKeys value bound ≠ .gt) else decide (compareNumericKeys value bound = .lt)

/-- A number lies between the bounds; what is no number does not. -/
def numericRangeValueWithinBounds (value : PropValue) (lower upper : Option PropertyRangeBound) : Bool :=
  (numericKey value).any fun key =>
    lower.all (fun bound => (numericKey bound.value).any (meetsLower key · bound.inclusive)) &&
      upper.all (fun bound => (numericKey bound.value).any (meetsUpper key · bound.inclusive))

end OverGraph.PropertyValues
