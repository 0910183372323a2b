import OverGraph.NumericRangeKeys

/-!
# Arithmetic on doubles

A double is a sign and a magnitude, and the magnitudes are in the order of their bits. An operation finds the exact number and
rounds it to the nearest double, to the even one of two that are as near.
-/

namespace OverGraph.Doubles
open Records PropertyValues Nat
open NumericRangeKeys (f64Value)

/-- `n / 2 ^ shift` rounded to the nearest integer. -/
def roundHalfEven (n shift : ℕ) : ℕ :=
  let quotient := n / 2 ^ shift
  let rest := n % 2 ^ shift
  if 2 * rest < 2 ^ shift ∨ (2 * rest = 2 ^ shift ∧ quotient % 2 = 0) then quotient else quotient + 1

/-- A format by the bits of its fraction, the exponent of its smallest number and the bits of infinity. -/
structure Format where
  fractionBits : ℕ
  minExponent : ℤ
  infinity : ℕ

def single : Format := ⟨23, -149, 0x7f800000⟩

def double : Format := ⟨52, -1074, 0x7ff0000000000000⟩

/-- The bits of the number `significand * 2 ^ exponent` in a format. -/
def roundedBits (fmt : Format) (significand : ℕ) (exponent : ℤ) : ℕ :=
  if significand = 0 then 0
  else
    let unit := max (exponent + significand.log2 - fmt.fractionBits) fmt.minExponent
    let rounded := if unit ≤ exponent then significand * 2 ^ (exponent - unit).toNat
      else roundHalfEven significand (unit - exponent).toNat
    min ((unit - fmt.minExponent).toNat * 2 ^ fmt.fractionBits + rounded) fmt.infinity

def withSign (negative : Bool) (magnitude : ℕ) : F64 := BitVec.ofNat 64 ((if negative then 2 ^ 63 else 0) + magnitude)

def notANumber : F64 := withSign false 0x7ff8000000000000

/-- The significand and the exponent of a number. -/
def finiteParts (bits : F64) : Option (ℕ × ℤ) :=
  let exponentBits : ℕ := bits.toNat / 2 ^ 52 % 2 ^ 11
  let fraction : ℕ := bits.toNat % 2 ^ 52
  if exponentBits = 0x7ff then none
  else if exponentBits = 0 then some (fraction, -1074)
  else some (2 ^ 52 + fraction, exponentBits - 1075)

def f64FromI64 (value : ℤ) : F64 := withSign (decide (value < 0)) (roundedBits double value.natAbs 0)

def f64FromF32 (bits : F32) : F64 :=
  let exponentBits : ℕ := bits.toNat / 2 ^ 23 % 2 ^ 8
  let fraction : ℕ := bits.toNat % 2 ^ 23
  if exponentBits = 0xff then
    withSign bits.msb (double.infinity + if fraction = 0 then 0 else (2 ^ 22 + fraction % 2 ^ 22) * 2 ^ 29)
  else if exponentBits = 0 then withSign bits.msb (roundedBits double fraction (-149))
  else withSign bits.msb (roundedBits double (2 ^ 23 + fraction) (exponentBits - 150))

def f32FromF64 (bits : F64) : F32 :=
  let magnitude := match finiteParts bits with
    | some (significand, exponent) => roundedBits single significand exponent
    | none => if isNan64 bits then 0x7fc00000 else single.infinity
  BitVec.ofNat 32 ((if bits.msb then 2 ^ 31 else 0) + magnitude)

def f64Neg (bits : F64) : F64 := withSign (!bits.msb) (bits.toNat % 2 ^ 63)

def f64Mul (a b : F64) : F64 :=
  let negative := a.msb != b.msb
  if isNan64 a || isNan64 b then notANumber
  else match finiteParts a, finiteParts b with
    | some (significand, exponent), some (significand', exponent') =>
      withSign negative (roundedBits double (significand * significand') (exponent + exponent'))
    | _, _ => if f64IsZero a || f64IsZero b then notANumber else withSign negative double.infinity

/-- The last bit of the longer quotient tells whether something is left. -/
def f64Div (a b : F64) : F64 :=
  let negative := a.msb != b.msb
  if isNan64 a || isNan64 b then notANumber
  else match finiteParts a, finiteParts b with
    | some (significand, exponent), some (significand', exponent') =>
      if significand' = 0 then if significand = 0 then notANumber else withSign negative double.infinity
      else
        let quotient := significand * 2 ^ 120 / significand'
        let rest := significand * 2 ^ 120 % significand'
        withSign negative (roundedBits double (2 * quotient + if rest = 0 then 0 else 1) (exponent - exponent' - 121))
    | none, some _ => withSign negative double.infinity
    | some _, none => withSign negative 0
    | none, none => notANumber

def magnitudeValue (magnitude : ℕ) : ℚ :=
  if magnitude / 2 ^ 52 = 0 then (magnitude % 2 ^ 52 : ℕ) * (2 : ℚ) ^ (-1074 : ℤ)
  else (2 ^ 52 + (magnitude % 2 ^ 52 : ℕ)) * (2 : ℚ) ^ ((magnitude / 2 ^ 52 : ℕ) - 1075 : ℤ)

theorem magnitudeValue_strictMono : StrictMono magnitudeValue := by
  apply strictMono_nat_of_lt_succ
  intro n
  have hpow : ∀ e : ℤ, (0 : ℚ) < 2 ^ e := NumericRangeKeys.two_zpow_pos
  by_cases hwrap : (n + 1) % 2 ^ 52 = 0
  · have hdiv : (n + 1) / 2 ^ 52 = n / 2 ^ 52 + 1 := by omega
    have hmod : n % 2 ^ 52 = 2 ^ 52 - 1 := by omega
    have hnext : ((n / 2 ^ 52 + 1 : ℕ) : ℤ) - 1075 = (n / 2 ^ 52 : ℕ) - 1074 := by
      push_cast
      ring
    rw [magnitudeValue, magnitudeValue, hdiv, hwrap, hmod, if_neg (succ_ne_zero _), hnext]
    split
    · rename_i hzero
      rw [hzero]
      have := hpow (-1074)
      norm_num at this ⊢
    · have hstep : (2 : ℚ) ^ ((n / 2 ^ 52 : ℕ) - 1074 : ℤ) = 2 * 2 ^ ((n / 2 ^ 52 : ℕ) - 1075 : ℤ) := by
        rw [← zpow_one_add₀ (two_ne_zero)]
        congr 1
        ring
      rw [hstep]
      have := hpow ((n / 2 ^ 52 : ℕ) - 1075)
      push_cast
      norm_num at this ⊢
      linarith
  · have hdiv : (n + 1) / 2 ^ 52 = n / 2 ^ 52 := by omega
    have hmod : (n + 1) % 2 ^ 52 = n % 2 ^ 52 + 1 := by omega
    rw [magnitudeValue, magnitudeValue, hdiv, hmod]
    split
    · apply mul_lt_mul_of_pos_right _ (hpow _)
      push_cast
      linarith
    · apply mul_lt_mul_of_pos_right _ (hpow _)
      push_cast
      linarith

theorem magnitudeValue_zero : magnitudeValue 0 = 0 := by norm_num [magnitudeValue]

theorem magnitudeValue_nonneg (magnitude : ℕ) : 0 ≤ magnitudeValue magnitude := by
  rw [← magnitudeValue_zero]
  exact magnitudeValue_strictMono.monotone (zero_le _)

theorem f64Value_eq (bits : F64) : f64Value bits = if bits.toNat % 2 ^ 63 < double.infinity then
    some ((if bits.msb then -1 else 1) * magnitudeValue (bits.toNat % 2 ^ 63)) else none := by
  have hlt := bits.isLt
  have hquot : bits.toNat % 2 ^ 63 / 2 ^ 52 = bits.toNat / 2 ^ 52 % 2 ^ 11 := by omega
  have hrest : bits.toNat % 2 ^ 63 % 2 ^ 52 = bits.toNat % 2 ^ 52 := by omega
  have hfin : bits.toNat % 2 ^ 63 < double.infinity ↔ bits.toNat / 2 ^ 52 % 2 ^ 11 ≠ 0x7ff := by
    dsimp only [double]
    omega
  rw [magnitudeValue, hquot, hrest, f64Value]
  by_cases hinf : bits.toNat / 2 ^ 52 % 2 ^ 11 = 0x7ff
  · rw [if_neg fun h => hfin.mp h hinf]
    exact if_pos hinf
  · rw [if_pos (hfin.mpr hinf)]
    refine (if_neg hinf).trans ?_
    by_cases hzero : bits.toNat / 2 ^ 52 % 2 ^ 11 = 0
    · rw [if_pos hzero, if_pos hzero]
    · rw [if_neg hzero, if_neg hzero]

variable {bits : F64}

/-- A double that is a number is the number of its magnitude, with its sign. -/
theorem f64Value_eq_some {value : ℚ} : f64Value bits = some value ↔ bits.toNat % 2 ^ 63 < double.infinity ∧
    value = (if bits.msb then -1 else 1) * magnitudeValue (bits.toNat % 2 ^ 63) := by
  rw [f64Value_eq]
  constructor
  · intro h
    obtain ⟨hfin, hval⟩ := Option.ite_none_right_eq_some.mp h
    exact ⟨hfin, (Option.some.inj hval).symm⟩
  · rintro ⟨hfin, rfl⟩
    exact if_pos hfin

theorem toNat_of_msb (h : bits.msb = true) : bits.toNat = 2 ^ 63 + bits.toNat % 2 ^ 63 := by
  have hlt := bits.isLt
  rw [BitVec.msb_eq_decide, decide_eq_true_iff] at h
  omega

theorem toNat_of_not_msb (h : bits.msb = false) : bits.toNat = bits.toNat % 2 ^ 63 := by
  rw [BitVec.msb_eq_decide, decide_eq_false_iff_not] at h
  omega

section
variable {a b : F64} {x y : ℚ}

/-- Without the sign bit the bits are in the order of the numbers. -/
theorem le_iff_of_not_msb (ha : f64Value a = some x) (hb : f64Value b = some y) (hsign : a.msb = false) (hsign' : b.msb = false) :
    x ≤ y ↔ a.toNat ≤ b.toNat := by
  rw [(f64Value_eq_some.mp ha).2, (f64Value_eq_some.mp hb).2, hsign, hsign', toNat_of_not_msb hsign, toNat_of_not_msb hsign',
    mod_mod, mod_mod, if_neg Bool.false_ne_true, one_mul, one_mul, magnitudeValue_strictMono.le_iff_le]

/-- A number with the sign bit is at most any number whose bits are not greater. -/
theorem le_of_msb (ha : f64Value a = some x) (hb : f64Value b = some y) (hsign : a.msb = true) (hbits : b.toNat ≤ a.toNat) : x ≤ y := by
  rw [(f64Value_eq_some.mp ha).2, (f64Value_eq_some.mp hb).2, hsign, if_pos rfl]
  have hlow := magnitudeValue_nonneg (a.toNat % 2 ^ 63)
  have hlow' := magnitudeValue_nonneg (b.toNat % 2 ^ 63)
  cases hsign' : b.msb with
  | false =>
    rw [if_neg Bool.false_ne_true]
    linarith
  | true =>
    rw [toNat_of_msb hsign, toNat_of_msb hsign'] at hbits
    have hmono := magnitudeValue_strictMono.monotone (show b.toNat % 2 ^ 63 ≤ a.toNat % 2 ^ 63 by omega)
    rw [if_pos rfl]
    linarith

end

theorem toNat_withSign {negative : Bool} {magnitude : ℕ} (h : magnitude < 2 ^ 63) :
    (withSign negative magnitude).toNat % 2 ^ 63 = magnitude := by
  rw [withSign, BitVec.toNat_ofNat]
  split <;> omega

theorem roundHalfEven_le (n shift : ℕ) : roundHalfEven n shift ≤ n / 2 ^ shift + 1 := by
  rw [roundHalfEven]
  split <;> omega

/-- A number below `2 ^ 1023` does not become infinite. -/
theorem roundedBits_lt {significand bits : ℕ} {exponent : ℤ} (hsig : significand < 2 ^ bits) (hexp : exponent + bits ≤ 1023) :
    roundedBits double significand exponent < double.infinity := by
  rw [roundedBits]
  split
  · decide
  · rename_i hne
    have hlog : significand.log2 < bits := (log2_lt hne).mpr hsig
    have hup : significand < 2 ^ (significand.log2 + 1) := lt_log2_self
    generalize significand.log2 = log at hlog hup ⊢
    dsimp only [double]
    generalize hunit : max (exponent + log - (52 : ℕ)) (-1074) = unit
    have hbd : unit ≤ 970 := by omega
    have hroun : (if unit ≤ exponent then significand * 2 ^ (exponent - unit).toNat
        else roundHalfEven significand (unit - exponent).toNat) ≤ 2 ^ 53 := by
      split
      · have hshift : log + 1 + (exponent - unit).toNat ≤ 53 := by omega
        calc significand * 2 ^ (exponent - unit).toNat ≤ 2 ^ (log + 1) * 2 ^ (exponent - unit).toNat :=
              mul_le_mul_right _ hup.le
          _ = 2 ^ (log + 1 + (exponent - unit).toNat) := (pow_add _ _ _).symm
          _ ≤ 2 ^ 53 := Nat.pow_le_pow_right two_pos hshift
      · have hshift : log + 1 ≤ (unit - exponent).toNat + 53 := by omega
        have hquot : significand / 2 ^ (unit - exponent).toNat < 2 ^ 53 := by
          rw [Nat.div_lt_iff_lt_mul (Nat.two_pow_pos _), ← pow_add]
          calc significand < 2 ^ (log + 1) := hup
            _ ≤ 2 ^ (53 + (unit - exponent).toNat) := Nat.pow_le_pow_right two_pos (by omega)
        exact (roundHalfEven_le _ _).trans hquot
    apply lt_of_le_of_lt (min_le_left _ _)
    omega

theorem isSome_f64Value_withSign {negative : Bool} {magnitude : ℕ} (h : magnitude < double.infinity) :
    (f64Value (withSign negative magnitude)).isSome = true := by
  have hlt : magnitude < 2 ^ 63 := h.trans (by decide)
  rw [f64Value_eq, toNat_withSign hlt, if_pos h]
  rfl

theorem isSome_f64FromF32 {bits : F32} (h : bits.toNat % 2 ^ 31 < 0x7F800000) : (f64Value (f64FromF32 bits)).isSome = true := by
  rw [f64FromF32, if_neg (by omega)]
  split
  · exact isSome_f64Value_withSign (roundedBits_lt (Nat.mod_lt _ (Nat.two_pow_pos 23)) (by norm_num))
  · apply isSome_f64Value_withSign
    refine roundedBits_lt (show _ < 2 ^ 24 by omega) ?_
    omega

theorem isSome_f64FromI64 {value : ℤ} (hlow : -2 ^ 63 ≤ value) (hhigh : value < 2 ^ 63) : (f64Value (f64FromI64 value)).isSome = true := by
  apply isSome_f64Value_withSign
  refine roundedBits_lt (show _ < 2 ^ 64 by omega) (by norm_num)

end OverGraph.Doubles
