import OverGraph.Records

/-!
# Comparing 32-bit floats by their bit patterns

The bits below the sign are the magnitude, in increasing order; those past infinity are
not numbers, and every comparison with one fails.
-/

namespace OverGraph.FloatOrder
open Records

/-- A 32-bit pattern is a NaN. -/
def isNan (weight : F32) : Bool := decide (weight.toNat % 2 ^ 31 > 0x7F800000)

/-- The value of a float that is not a NaN, up to an increasing map; the two zeros are
equal. -/
def orderValue (weight : F32) : ℤ := if weight.msb then -(weight.toNat % 2 ^ 31 : ℕ) else (weight.toNat % 2 ^ 31 : ℕ)

def floatLt (a b : F32) : Bool := !isNan a && !isNan b && decide (orderValue a < orderValue b)

def floatGt (a b : F32) : Bool := floatLt b a

def floatEq (a b : F32) : Bool := !isNan a && !isNan b && decide (orderValue a = orderValue b)

end OverGraph.FloatOrder
