import OverGraph.PropertyValues
import OverGraph.SortedBytes
import Mathlib.Data.Nat.Factorization.Basic
import Mathlib.Tactic.Linarith
import Mathlib.Tactic.Positivity

/-!
# Sort keys of numbers

A number is a sign, an odd significand and an exponent. Its sort key has a byte for the sign, the
exponent of the leading bit and the significand shifted to the top, the last two complemented for
negative numbers, so that the bytes of two keys compare as the numbers do.
-/

namespace OverGraph.NumericRangeKeys
open Option hiding any_eq_true
open Records PropertyValues SortedBytes List NumericScalarKey

/-- The rational number of a finite double. -/
def f64Value (bits : F64) : Option ℚ :=
  let exponentBits : ℕ := bits.toNat / 2 ^ 52 % 2 ^ 11
  let fraction : ℕ := bits.toNat % 2 ^ 52
  let sign : ℚ := if bits.msb then -1 else 1
  if exponentBits = 0x7ff then none
  else if exponentBits = 0 then some (sign * (fraction * (2 : ℚ) ^ (-1074 : ℤ)))
  else some (sign * ((2 ^ 52 + fraction) * (2 : ℚ) ^ ((exponentBits : ℤ) - 1075)))

def numericValue : PropValue → Option ℚ
  | .int val => some val
  | .uint val => some val
  | .float bits => f64Value bits
  | .null | .bool _ | .string _ | .bytes _ | .array _ | .map _ => none

/-- The integers of a value have 64 bits. -/
def FitsWord : PropValue → Prop
  | .int val => -2 ^ 63 ≤ val ∧ val < 2 ^ 63
  | .uint val => val < 2 ^ 64
  | .null | .bool _ | .float _ | .string _ | .bytes _ | .array _ | .map _ => True

def numericRangeKeyBytes : ℕ := 24

structure NumericRangeSortKey where
  bytes : List UInt8
  length_eq : bytes.length = numericRangeKeyBytes

theorem NumericRangeSortKey.ext {a b : NumericRangeSortKey} (h : a.bytes = b.bytes) : a = b := by
  cases a
  cases b
  cases h
  rfl

/-- Flipping the top bit of a 32-bit pattern. -/
def flipTop (bits : ℕ) : ℕ := (bits + 2 ^ 31) % 2 ^ 32

def rankBitsOf (rank : ℤ) : ℕ := flipTop (rank % 2 ^ 32).toNat

def complement (width bits : ℕ) : ℕ := 2 ^ width - 1 - bits

def numericRangeSortKey (key : NumericScalarKey) : NumericRangeSortKey :=
  let rankBits := rankBitsOf key.magnitudeRank
  let fractionBits := key.normalizedFraction
  match key.sign with
  | .zero => ⟨1 :: List.replicate 23 0, rfl⟩
  | .negative => ⟨0 :: (beBytes 4 (complement 32 rankBits) ++ (beBytes 16 (complement 128 fractionBits) ++ [0, 0, 0])), by
      simp [numericRangeKeyBytes]⟩
  | .positive => ⟨2 :: (beBytes 4 rankBits ++ (beBytes 16 fractionBits ++ [0, 0, 0])), by simp [numericRangeKeyBytes]⟩

def numericRangeSortKeyForValue (val : PropValue) : Option NumericRangeSortKey := (numericKey val).map numericRangeSortKey

/-- The trailing zeros of a number of limited length. -/
def trailingZeros (n : ℕ) : ℕ → ℕ
  | 0 => 0
  | fuel + 1 => if n % 2 = 0 then trailingZeros (n / 2) fuel + 1 else 0

/-- The signed number of a 32-bit pattern. -/
def ofSigned32 (bits : ℕ) : ℤ := if bits < 2 ^ 31 then bits else (bits : ℤ) - 2 ^ 32

def decodeNonzeroNumericRangeSidecarKey (sign : NumericSign) (bytes : List UInt8) : Except String (NumericScalarKey × ℤ × ℕ) :=
  let encodedRank := fromBe ((bytes.drop 1).take 4)
  let encodedFraction := fromBe ((bytes.drop 5).take 16)
  let rankBits := if sign = .negative then complement 32 encodedRank else encodedRank
  let fraction := if sign = .negative then complement 128 encodedFraction else encodedFraction
  if fraction = 0 then .error "numeric range sidecar key has zero nonzero-fraction payload"
  else if fraction < 2 ^ 127 then .error "numeric range sidecar key normalized fraction must set the top bit"
  else
    let rank := ofSigned32 (flipTop rankBits)
    let bitLength := 128 - trailingZeros fraction 128
    let significand := fraction / 2 ^ (128 - bitLength)
    let exponent := rank - ((bitLength : ℤ) - 1)
    if exponent < -2 ^ 31 then .error "numeric range sidecar key exponent overflow"
    else .ok (⟨sign, exponent, significand⟩, rank, bitLength)

def numericScalarKeyIsEmittable (key : NumericScalarKey) (rank : ℤ) (bitLength : ℕ) : Bool :=
  if key.significand = 0 ∨ key.significand % 2 = 0 then false
  else if key.exponent ≥ -1074 ∧ bitLength ≤ 53 ∧ rank ≤ 1023 then true
  else if key.exponent < 0 then false
  else match key.sign with
    | .positive => decide (rank ≤ 63)
    | .negative => decide (rank < 63 ∨ rank = 63 ∧ key.significand = 1 ∧ key.exponent = 63)
    | .zero => false

def validateNonzeroKey (sign : NumericSign) (key : NumericRangeSortKey) : Except String Unit :=
  if (key.bytes.drop 21).any (· ≠ 0) then .error "numeric range sidecar key reserved bytes must be zero"
  else match decodeNonzeroNumericRangeSidecarKey sign key.bytes with
    | .error msg => .error msg
    | .ok (decoded, rank, bitLength) =>
      if numericScalarKeyIsEmittable decoded rank bitLength = false then
        .error "numeric range sidecar key is not a canonical finite numeric key"
      else if (numericRangeSortKey decoded).bytes ≠ key.bytes then
        .error "numeric range sidecar key does not round-trip through canonical encoding"
      else .ok ()

def validateNumericRangeSidecarKey (key : NumericRangeSortKey) : Except String Unit :=
  match key.bytes.headD 0 with
  | 0 => validateNonzeroKey .negative key
  | 2 => validateNonzeroKey .positive key
  | 1 =>
    if (key.bytes.drop 1).any (· ≠ 0) then .error "numeric range sidecar zero key must have zero payload"
    else .ok ()
  | _ => .error "numeric range sidecar key has invalid class"

/-- The significand is odd and the sign is not zero. -/
structure Canonical (key : NumericScalarKey) : Prop where
  sign : key.sign ≠ .zero
  odd : key.significand % 2 = 1
  bounded : key.significand < 2 ^ 128

variable {sign : NumericSign}

theorem normalized_shifted {t k fuel : ℕ} {exponent : ℤ} (hodd : t % 2 = 1) (hfuel : k ≤ fuel) :
    normalized sign (t * 2 ^ k) exponent fuel = ⟨sign, exponent + k, t⟩ := by
  induction k generalizing exponent fuel with
  | zero =>
    cases fuel with
    | zero => simp [normalized]
    | succ fuel =>
      have hnot : ¬t * 2 ^ 0 % 2 = 0 := by omega
      rw [normalized, if_neg hnot]
      simp
  | succ k ih =>
    obtain ⟨fuel, rfl⟩ : ∃ less, fuel = less + 1 := ⟨fuel - 1, by omega⟩
    have hdouble : t * 2 ^ (k + 1) = t * 2 ^ k * 2 := by rw [pow_succ, Nat.mul_assoc]
    have heven : t * 2 ^ (k + 1) % 2 = 0 := by omega
    have hhalf : t * 2 ^ (k + 1) / 2 = t * 2 ^ k := by omega
    rw [normalized, if_pos heven, hhalf, ih (by omega)]
    congr 1
    push_cast
    ring

/-- The trailing zeros of a significand move into the exponent. -/
theorem nonzero_shifted {t k : ℕ} {exponent : ℤ} (hodd : t % 2 = 1) (hbd : t * 2 ^ k < 2 ^ 128) :
    nonzero sign (t * 2 ^ k) exponent = ⟨sign, exponent + k, t⟩ := by
  have hpos : 0 < t := by omega
  have hpow : 2 ^ k < 2 ^ 128 := lt_of_le_of_lt (Nat.le_mul_of_pos_left _ hpos) hbd
  exact normalized_shifted hodd (Nat.pow_lt_pow_iff_right (by decide)|>.mp hpow).le

theorem exists_odd_part {n : ℕ} (hn : n ≠ 0) : ∃ t k, t % 2 = 1 ∧ n = t * 2 ^ k := by
  obtain ⟨k, t, hodd, heq⟩ := Nat.exists_eq_two_pow_mul_odd hn
  exact ⟨t, k, Nat.odd_iff.mp hodd, by rw [heq, Nat.mul_comm]⟩

theorem trailingZeros_shifted {t k fuel : ℕ} (hodd : t % 2 = 1) (hfuel : k ≤ fuel) : trailingZeros (t * 2 ^ k) fuel = k := by
  induction k generalizing fuel with
  | zero =>
    cases fuel with
    | zero => rfl
    | succ fuel =>
      have hnot : ¬t * 2 ^ 0 % 2 = 0 := by omega
      rw [trailingZeros, if_neg hnot]
  | succ k ih =>
    obtain ⟨fuel, rfl⟩ : ∃ less, fuel = less + 1 := ⟨fuel - 1, by omega⟩
    have hdouble : t * 2 ^ (k + 1) = t * 2 ^ k * 2 := by rw [pow_succ, Nat.mul_assoc]
    have heven : t * 2 ^ (k + 1) % 2 = 0 := by omega
    have hhalf : t * 2 ^ (k + 1) / 2 = t * 2 ^ k := by omega
    rw [trailingZeros, if_pos heven, hhalf, ih (by omega)]

theorem log_shifted {t k : ℕ} (hpos : t ≠ 0) : Nat.log 2 (t * 2 ^ k) = Nat.log 2 t + k := by
  induction k with
  | zero => simp
  | succ k ih =>
    rw [pow_succ, ← Nat.mul_assoc, Nat.log_mul_base (by decide), ih]
    · rfl
    · exact Nat.mul_ne_zero hpos (Nat.two_pow_pos k).ne'

theorem lt_two_pow_bitLength (key : NumericScalarKey) : key.significand < 2 ^ key.bitLength := Nat.lt_pow_succ_log_self (by decide) _

section
variable {key : NumericScalarKey} (h : Canonical key)
include h

theorem Canonical.ne_zero : key.significand ≠ 0 := by
  have hodd := h.odd
  omega

theorem Canonical.bitLength_le : key.bitLength ≤ 128 := by
  rw [bitLength]
  have hlog := (Nat.log_lt_iff_lt_pow (by decide) h.ne_zero).mpr h.bounded
  omega

theorem Canonical.pow_le : 2 ^ (key.bitLength - 1) ≤ key.significand := Nat.pow_log_le_self 2 h.ne_zero

theorem Canonical.fraction_lt : key.normalizedFraction < 2 ^ 128 := by
  have hsp : 2 ^ 128 = 2 ^ key.bitLength * 2 ^ (128 - key.bitLength) := by rw [← pow_add, Nat.add_sub_cancel' h.bitLength_le]
  rw [normalizedFraction, hsp]
  exact Nat.mul_lt_mul_of_pos_right (lt_two_pow_bitLength key) (Nat.two_pow_pos _)

theorem Canonical.le_fraction : 2 ^ 127 ≤ key.normalizedFraction := by
  have hlen := h.bitLength_le
  have hpos : 1 ≤ key.bitLength := Nat.succ_le_succ (Nat.zero_le _)
  have hsp : 2 ^ 127 = 2 ^ (key.bitLength - 1) * 2 ^ (128 - key.bitLength) := by
    rw [← pow_add]
    congr 1
    omega
  rw [normalizedFraction, hsp]
  exact Nat.mul_le_mul_right _ h.pow_le

end

def signValue : NumericSign → ℚ
  | .negative => -1
  | .zero => 0
  | .positive => 1

def magnitude (key : NumericScalarKey) : ℚ := key.significand * (2 : ℚ) ^ key.exponent

/-- The number a key stands for. -/
def keyValue (key : NumericScalarKey) : ℚ := signValue key.sign * magnitude key

theorem two_zpow_pos (e : ℤ) : (0 : ℚ) < 2 ^ e := zpow_pos (by norm_num) e

theorem cast_two_pow (n : ℕ) : ((2 ^ n : ℕ) : ℚ) = (2 : ℚ) ^ (n : ℤ) := by rw [zpow_natCast, Nat.cast_pow, Nat.cast_ofNat]

section
variable {key : NumericScalarKey} (h : Canonical key)
include h

theorem Canonical.magnitude_pos : 0 < magnitude key := by
  have hpos : (0 : ℚ) < key.significand := by
    have hne := h.ne_zero
    exact_mod_cast Nat.pos_of_ne_zero hne
  exact mul_pos hpos (two_zpow_pos _)

theorem Canonical.magnitude_eq :
    magnitude key = key.normalizedFraction * (2 : ℚ) ^ (key.magnitudeRank - 127) := by
  have hlen := h.bitLength_le
  have hcast : ((2 ^ (128 - key.bitLength) : ℕ) : ℚ) = (2 : ℚ) ^ ((128 : ℤ) - key.bitLength) := by
    rw [cast_two_pow, Nat.cast_sub hlen]
    rfl
  have hsum : key.exponent = (128 - key.bitLength : ℤ) + (key.magnitudeRank - 127) := by
    rw [magnitudeRank]
    omega
  rw [magnitude, normalizedFraction, Nat.cast_mul, hcast, mul_assoc, ← zpow_add₀ (by norm_num : (2 : ℚ) ≠ 0), ← hsum]

theorem Canonical.magnitude_lt : magnitude key < (2 : ℚ) ^ (key.magnitudeRank + 1) := by
  have hfrac : (key.normalizedFraction : ℚ) < 2 ^ (128 : ℤ) := by
    have hcast : ((2 ^ 128 : ℕ) : ℚ) = (2 : ℚ) ^ (128 : ℤ) := cast_two_pow 128
    rw [← hcast]
    exact Nat.cast_lt.mpr h.fraction_lt
  have hsum : key.magnitudeRank + 1 = 128 + (key.magnitudeRank - 127) := by omega
  rw [h.magnitude_eq, hsum, zpow_add₀ (by norm_num : (2 : ℚ) ≠ 0)]
  exact mul_lt_mul_of_pos_right hfrac (two_zpow_pos _)

theorem Canonical.le_magnitude : (2 : ℚ) ^ key.magnitudeRank ≤ magnitude key := by
  have hfrac : (2 : ℚ) ^ (127 : ℤ) ≤ key.normalizedFraction := by
    have hcast : ((2 ^ 127 : ℕ) : ℚ) = (2 : ℚ) ^ (127 : ℤ) := cast_two_pow 127
    rw [← hcast]
    exact Nat.cast_le.mpr h.le_fraction
  have hsum : key.magnitudeRank = 127 + (key.magnitudeRank - 127) := by omega
  have hmul := mul_le_mul_of_nonneg_right hfrac (two_zpow_pos (key.magnitudeRank - 127)).le
  rw [← zpow_add₀ (by norm_num : (2 : ℚ) ≠ 0), ← hsum, ← h.magnitude_eq] at hmul
  exact hmul

end

variable {a b : NumericScalarKey}

theorem magnitude_lt_of_rank (ha : Canonical a) (hb : Canonical b)
    (h : a.magnitudeRank < b.magnitudeRank) : magnitude a < magnitude b := by
  have hstep : (2 : ℚ) ^ (a.magnitudeRank + 1) ≤ 2 ^ b.magnitudeRank := zpow_le_zpow_right₀ (by norm_num) h
  calc magnitude a < (2 : ℚ) ^ (a.magnitudeRank + 1) := ha.magnitude_lt
    _ ≤ (2 : ℚ) ^ b.magnitudeRank := hstep
    _ ≤ magnitude b := hb.le_magnitude

theorem compareMagnitudes_eq (ha : Canonical a) (hb : Canonical b) : compareMagnitudes a b = compare (magnitude a) (magnitude b) := by
  rw [compareMagnitudes]
  rcases lt_trichotomy a.magnitudeRank b.magnitudeRank with h | h | h
  · rw [compare_lt_iff_lt.mpr h, compare_lt_iff_lt.mpr (magnitude_lt_of_rank ha hb h)]
    rfl
  · have hscaled := cmp_mul_pos_right (two_zpow_pos (b.magnitudeRank - 127)) (a.normalizedFraction : ℚ) b.normalizedFraction
    rw [cmp_eq_compare, cmp_eq_compare] at hscaled
    rw [ha.magnitude_eq, hb.magnitude_eq, h, compare_eq_iff_eq.mpr rfl, hscaled]
    rcases lt_trichotomy a.normalizedFraction b.normalizedFraction with hf | hf | hf
    · rw [compare_lt_iff_lt.mpr hf, compare_lt_iff_lt.mpr (Nat.cast_lt.mpr hf)]
      rfl
    · rw [hf, compare_eq_iff_eq.mpr rfl, compare_eq_iff_eq.mpr rfl]
      rfl
    · rw [compare_gt_iff_gt.mpr hf, compare_gt_iff_gt.mpr (Nat.cast_lt.mpr hf)]
      rfl
  · rw [compare_gt_iff_gt.mpr h, compare_gt_iff_gt.mpr (magnitude_lt_of_rank hb ha h)]
    rfl

/-- A key of a number: zero, or in normal form. -/
def Proper (key : NumericScalarKey) : Prop := key = .zero ∨ Canonical key

variable {key : NumericScalarKey}

theorem Proper.sign_cases (h : Proper key) : keyValue key = 0 ∧ key.sign = .zero ∨
      Canonical key ∧ (key.sign = .negative ∧ keyValue key = -magnitude key ∨ key.sign = .positive ∧ keyValue key = magnitude key) := by
  rcases h with rfl | h
  · refine .inl ⟨?_, rfl⟩
    simp [keyValue, zero, signValue]
  · refine .inr ⟨h, ?_⟩
    cases hsign : key.sign with
    | negative => exact .inl ⟨rfl, by rw [keyValue, hsign, signValue, neg_one_mul]⟩
    | zero => exact absurd hsign h.sign
    | positive => exact .inr ⟨rfl, by rw [keyValue, hsign, signValue, one_mul]⟩

theorem compare_neg (x y : ℚ) : compare (-x) (-y) = compare y x := by
  rcases lt_trichotomy y x with h | h | h
  · rw [compare_lt_iff_lt.mpr h, compare_lt_iff_lt.mpr (neg_lt_neg h)]
  · rw [h, compare_eq_iff_eq.mpr rfl, compare_eq_iff_eq.mpr rfl]
  · rw [compare_gt_iff_gt.mpr h, compare_gt_iff_gt.mpr (neg_lt_neg h)]

theorem compareNumericKeys_eq (ha : Proper a) (hb : Proper b) : compareNumericKeys a b = compare (keyValue a) (keyValue b) := by
  rw [compareNumericKeys]
  rcases ha.sign_cases with ⟨hva, hsa⟩ | ⟨hca, ⟨hsa, hva⟩ | ⟨hsa, hva⟩⟩ <;>
    rcases hb.sign_cases with ⟨hvb, hsb⟩ | ⟨hcb, ⟨hsb, hvb⟩ | ⟨hsb, hvb⟩⟩ <;>
    rw [hsa, hsb, hva, hvb]
  · rw [compare_eq_iff_eq.mpr rfl]
  · exact (compare_gt_iff_gt.mpr (neg_lt_zero.mpr hcb.magnitude_pos)).symm
  · exact (compare_lt_iff_lt.mpr hcb.magnitude_pos).symm
  · exact (compare_lt_iff_lt.mpr (neg_lt_zero.mpr hca.magnitude_pos)).symm
  · rw [compare_neg]
    exact compareMagnitudes_eq hcb hca
  · have ha := hca.magnitude_pos
    have hb := hcb.magnitude_pos
    exact (compare_lt_iff_lt.mpr (by linarith)).symm
  · exact (compare_gt_iff_gt.mpr hca.magnitude_pos).symm
  · have ha := hca.magnitude_pos
    have hb := hcb.magnitude_pos
    exact (compare_gt_iff_gt.mpr (by linarith)).symm
  · exact compareMagnitudes_eq hca hcb

def RankFits (key : NumericScalarKey) : Prop := -2 ^ 31 ≤ key.magnitudeRank ∧ key.magnitudeRank < 2 ^ 31

variable {rank : ℤ}

theorem rankBitsOf_eq (hlow : -2 ^ 31 ≤ rank) (hhigh : rank < 2 ^ 31) : (rankBitsOf rank : ℤ) = rank + 2 ^ 31 := by
  rw [rankBitsOf, flipTop]
  omega

theorem complement_lt (width bits : ℕ) : complement width bits < 2 ^ width := by
  have hpos := Nat.two_pow_pos width
  rw [complement]
  omega

theorem compare_complement {width m n : ℕ} (hm : m < 2 ^ width) (hn : n < 2 ^ width) :
    compare (complement width m) (complement width n) = compare n m := by
  rw [complement, complement]
  rcases lt_trichotomy n m with h | h | h
  · rw [compare_lt_iff_lt.mpr h, compare_lt_iff_lt.mpr (show 2 ^ width - 1 - m < 2 ^ width - 1 - n by omega)]
  · rw [h, compare_eq_iff_eq.mpr rfl, compare_eq_iff_eq.mpr rfl]
  · rw [compare_gt_iff_gt.mpr h, compare_gt_iff_gt.mpr (show 2 ^ width - 1 - m > 2 ^ width - 1 - n by omega)]

theorem rankBitsOf_lt (rank : ℤ) : rankBitsOf rank < 2 ^ 32 := by
  rw [rankBitsOf, flipTop]
  omega

theorem compare_rankBits (ha : RankFits a) (hb : RankFits b) :
    compare (rankBitsOf a.magnitudeRank) (rankBitsOf b.magnitudeRank) = compare a.magnitudeRank b.magnitudeRank := by
  have hra := rankBitsOf_eq ha.1 ha.2
  have hrb := rankBitsOf_eq hb.1 hb.2
  rcases lt_trichotomy a.magnitudeRank b.magnitudeRank with h | h | h
  · rw [compare_lt_iff_lt.mpr h]
    apply compare_lt_iff_lt.mpr
    omega
  · rw [h, compare_eq_iff_eq.mpr rfl, compare_eq_iff_eq.mpr rfl]
  · rw [compare_gt_iff_gt.mpr h]
    apply compare_gt_iff_gt.mpr
    omega

theorem compare_payload {m n m' n' : ℕ} (hm : m < 2 ^ 32) (hn : n < 2 ^ 32) (hm' : m' < 2 ^ 128) (hn' : n' < 2 ^ 128) :
    compare (beBytes 4 m ++ (beBytes 16 m' ++ [0, 0, 0])) (beBytes 4 n ++ (beBytes 16 n' ++ [0, 0, 0])) =
      (compare m n).then (compare m' n') := by
  rw [compareLex_append, compareLex_append, compare_self, Ordering.then_eq, compare_beBytes hm hn, compare_beBytes hm' hn']
  · rw [length_beBytes, length_beBytes]
  · rw [length_beBytes, length_beBytes]

theorem compare_class_cons (x y : UInt8) (a b : List UInt8) :
    compare (x :: a) (y :: b) = (compare x y).then (compare a b) := List.compareLex_cons_cons

theorem compare_numericRangeSortKey (ha : Proper a) (hb : Proper b) (hra : RankFits a) (hrb : RankFits b) :
    compare (numericRangeSortKey a).bytes (numericRangeSortKey b).bytes = compareNumericKeys a b := by
  have hranks := compare_rankBits hra hrb
  have hrank := compare_rankBits hrb hra
  rw [compareNumericKeys]
  rcases ha.sign_cases with ⟨-, hsa⟩ | ⟨hca, ⟨hsa, -⟩ | ⟨hsa, -⟩⟩ <;>
    rcases hb.sign_cases with ⟨-, hsb⟩ | ⟨hcb, ⟨hsb, -⟩ | ⟨hsb, -⟩⟩ <;>
    rw [numericRangeSortKey, numericRangeSortKey, hsa, hsb] <;>
    dsimp only <;>
    rw [compare_class_cons]
  · exact compare_self _
  · rfl
  · rfl
  · rfl
  · rw [compare_payload (complement_lt _ _) (complement_lt _ _) (complement_lt _ _) (complement_lt _ _),
      compare_complement (rankBitsOf_lt _) (rankBitsOf_lt _), compare_complement hca.fraction_lt hcb.fraction_lt, hrank]
    rfl
  · rfl
  · rfl
  · rfl
  · rw [compare_payload (rankBitsOf_lt _) (rankBitsOf_lt _) hca.fraction_lt hcb.fraction_lt, hranks]
    rfl

/-- What the three kinds of numbers hand to the normal form. -/
inductive Handed : NumericSign → ℕ → ℤ → Prop
  | positiveInteger {s : ℕ} (pos : 0 < s) (bound : s < 2 ^ 64) : Handed .positive s 0
  | negativeInteger {s : ℕ} (pos : 0 < s) (bound : s ≤ 2 ^ 63) : Handed .negative s 0
  | double {sign : NumericSign} {s : ℕ} {e : ℤ} (sign_ne : sign ≠ .zero) (pos : 0 < s) (bound : s < 2 ^ 53)
    (low : -1074 ≤ e) (high : e ≤ 971) : Handed sign s e

variable {s : ℕ} {e : ℤ}

theorem Handed.sign_ne (h : Handed sign s e) : sign ≠ .zero := by
  cases h with
  | positiveInteger | negativeInteger => exact nofun
  | double sign_ne => exact sign_ne

theorem Handed.pos (h : Handed sign s e) : 0 < s := by cases h <;> assumption

theorem Handed.lt (h : Handed sign s e) : s < 2 ^ 64 := by cases h <;> omega

/-- The normal form of a number, its odd part and shift named. -/
theorem nonzero_spec (hsign : sign ≠ .zero) (hpos : 0 < s) (hbd : s < 2 ^ 64) :
    ∃ t k : ℕ, s = t * 2 ^ k ∧ nonzero sign s e = ⟨sign, e + k, t⟩ ∧
      Canonical (.nonzero sign s e) ∧ (nonzero sign s e).bitLength + k = Nat.log 2 s + 1 := by
  obtain ⟨t, k, hodd, rfl⟩ := exists_odd_part hpos.ne'
  have hwide : t * 2 ^ k < 2 ^ 128 := by omega
  have hle : t ≤ t * 2 ^ k := Nat.le_mul_of_pos_right _ (Nat.two_pow_pos k)
  have hkey : nonzero sign (t * 2 ^ k) e = ⟨sign, e + k, t⟩ := nonzero_shifted hodd hwide
  refine ⟨t, k, rfl, hkey, ?_, ?_⟩
  · rw [hkey]
    exact ⟨hsign, hodd, lt_of_le_of_lt hle hwide⟩
  · rw [hkey, log_shifted (by omega)]
    change Nat.log 2 t + 1 + k = Nat.log 2 t + k + 1
    omega

theorem keyValue_nonzero (hsign : sign ≠ .zero) (hpos : 0 < s) (hbd : s < 2 ^ 64) :
    keyValue (.nonzero sign s e) = signValue sign * (s * (2 : ℚ) ^ e) := by
  obtain ⟨t, k, hs, hkey, -, -⟩ := nonzero_spec hsign hpos hbd (e := e)
  rw [hkey, keyValue, magnitude, hs, Nat.cast_mul, cast_two_pow, add_comm e, zpow_add₀ (by norm_num : (2 : ℚ) ≠ 0)]
  ring

variable {val : PropValue}

/-- A number has the key zero, or one made from what its kind hands over. -/
theorem numericKey_cases (hfits : FitsWord val) (h : numericKey val = some key) :
    key = .zero ∧ numericValue val = some 0 ∨ ∃ sign s e, Handed sign s e ∧ key = .nonzero sign s e ∧
        numericValue val = some (signValue sign * (s * (2 : ℚ) ^ e)) := by
  cases val with
  | int val =>
    obtain rfl := some.inj h
    obtain ⟨hlow, hhigh⟩ := hfits
    rw [numericKeyFromI64]
    split
    · rename_i hzero
      exact .inl ⟨rfl, by rw [numericValue, hzero, Int.cast_zero]⟩
    · rename_i hne
      have habs : (0 : ℕ) < val.natAbs := by omega
      split
      · rename_i hneg
        refine .inr ⟨_, _, _, .negativeInteger habs (by omega), rfl, ?_⟩
        have hcast : (val : ℚ) = -(val.natAbs : ℚ) := by
          have hint : val = -(val.natAbs : ℤ) := by omega
          rw [← Int.cast_natCast, ← Int.cast_neg, ← hint]
        rw [numericValue, hcast, signValue, zpow_zero, mul_one, neg_one_mul]
      · rename_i hnonneg
        refine .inr ⟨_, _, _, .positiveInteger habs (by omega), rfl, ?_⟩
        have hcast : (val : ℚ) = (val.natAbs : ℚ) := by
          have hint : val = (val.natAbs : ℤ) := by omega
          rw [← Int.cast_natCast, ← hint]
        rw [numericValue, hcast, signValue, zpow_zero, mul_one, one_mul]
  | uint val =>
    obtain rfl := some.inj h
    have hbd : val < 2 ^ 64 := hfits
    rw [numericKeyFromU64]
    split
    · rename_i hzero
      exact .inl ⟨rfl, by rw [numericValue, hzero, Nat.cast_zero]⟩
    · rename_i hne
      refine .inr ⟨_, _, _, .positiveInteger (Nat.pos_of_ne_zero hne) hbd, rfl, ?_⟩
      rw [numericValue, signValue, zpow_zero, mul_one, one_mul]
  | float bits =>
    have hkey : numericKeyFromF64 bits = some key := h
    have hexp : bits.toNat / 2 ^ 52 % 2 ^ 11 < 2 ^ 11 := Nat.mod_lt _ (by decide)
    have hfrac : bits.toNat % 2 ^ 52 < 2 ^ 52 := Nat.mod_lt _ (by decide)
    have hsign : (if bits.msb then NumericSign.negative else .positive) ≠ .zero := by
      split
      · exact nofun
      · exact nofun
    have hval : signValue (if bits.msb then NumericSign.negative else .positive) = if bits.msb then -1 else 1 := by split <;> rfl
    rw [numericKeyFromF64] at hkey
    rw [numericValue, f64Value]
    rw [← hval]
    split at hkey
    · cases hkey
    · rename_i hfin
      rw [if_neg hfin]
      split at hkey
      · rename_i hsub
        rw [if_pos hsub]
        split at hkey
        · rename_i hzero
          obtain rfl := some.inj hkey
          refine .inl ⟨rfl, ?_⟩
          rw [hzero, Nat.cast_zero, zero_mul, mul_zero]
        · rename_i hne
          obtain rfl := some.inj hkey
          exact .inr ⟨_, _, _, .double hsign (Nat.pos_of_ne_zero hne) (by omega) (by omega) (by omega), rfl, rfl⟩
      · rename_i hnormal
        rw [if_neg hnormal]
        obtain rfl := some.inj hkey
        refine .inr ⟨_, _, _, .double hsign (by omega) (by omega) (by omega) (by omega), rfl, ?_⟩
        congr 3
        · push_cast
          rfl
        · congr 1
          omega
  | null | bool _ | string _ | bytes _ | array _ | map _ => cases h

/-- The leading bit of what is handed over has a small exponent. -/
theorem Handed.rank_bounds (h : Handed sign s e) : -1074 ≤ e + Nat.log 2 s ∧ e + Nat.log 2 s ≤ 1023 := by
  cases h with
  | positiveInteger pos bound =>
    have hlog := (Nat.log_lt_iff_lt_pow (by decide) pos.ne').mpr bound
    omega
  | negativeInteger pos bound =>
    have hlog := (Nat.log_lt_iff_lt_pow (by decide) pos.ne').mpr (lt_of_le_of_lt bound (by decide : 2 ^ 63 < 2 ^ 64))
    omega
  | double sign_ne pos bound low high =>
    have hlog := (Nat.log_lt_iff_lt_pow (by decide) pos.ne').mpr bound
    omega

theorem Handed.rank_eq (h : Handed sign s e) : (nonzero sign s e).magnitudeRank = e + Nat.log 2 s := by
  obtain ⟨t, k, -, hkey, -, hlen⟩ := nonzero_spec h.sign_ne h.pos h.lt (e := e)
  rw [magnitudeRank]
  have hexp : (nonzero sign s e).exponent = e + k := by rw [hkey]
  omega

theorem Handed.canonical (h : Handed sign s e) : Canonical (.nonzero sign s e) := by
  obtain ⟨-, -, -, -, hcan, -⟩ := nonzero_spec h.sign_ne h.pos h.lt (e := e)
  exact hcan

/-- The key of a number is in normal form, stands for the number, and its rank fits. -/
theorem numericKey_spec {val : PropValue} (hfits : FitsWord val)
    (h : numericKey val = some key) : Proper key ∧ RankFits key ∧ numericValue val = some (keyValue key) := by
  rcases numericKey_cases hfits h with ⟨rfl, hval⟩ | ⟨sign, s, e, handed, rfl, hval⟩
  · refine ⟨.inl rfl, ?_, ?_⟩
    · rw [RankFits]
      decide
    · rw [hval, keyValue, zero, signValue, zero_mul]
  · have hrank := handed.rank_bounds
    refine ⟨.inr handed.canonical, ?_, ?_⟩
    · rw [RankFits, handed.rank_eq]
      omega
    · rw [hval, keyValue_nonzero handed.sign_ne handed.pos handed.lt]

theorem exists_numericKey {x : ℚ} (h : numericValue val = some x) : ∃ key, numericKey val = some key := by
  cases val with
  | int val | uint val => exact ⟨_, rfl⟩
  | float bits =>
    rw [numericValue, f64Value] at h
    rw [numericKey, numericKeyFromF64]
    split at h
    · cases h
    · rename_i hfin
      rw [if_neg hfin]
      split
      · split
        · exact ⟨_, rfl⟩
        · exact ⟨_, rfl⟩
      · exact ⟨_, rfl⟩
  | null | bool _ | string _ | bytes _ | array _ | map _ => cases h

theorem complement_complement {width bits : ℕ} (h : bits < 2 ^ width) : complement width (complement width bits) = bits := by
  rw [complement, complement]
  omega

theorem ofSigned32_flipTop (hlow : -2 ^ 31 ≤ rank) (hhigh : rank < 2 ^ 31) : ofSigned32 (flipTop (rankBitsOf rank)) = rank := by
  have hbits := rankBitsOf_eq hlow hhigh
  rw [ofSigned32, flipTop]
  split <;> omega

theorem take_payload (m n : ℕ) (x : UInt8) : ((x :: (beBytes 4 m ++ (beBytes 16 n ++ [0, 0, 0]))).drop 1).take 4 = beBytes 4 m ∧
      ((x :: (beBytes 4 m ++ (beBytes 16 n ++ [0, 0, 0]))).drop 5).take 16 = beBytes 16 n ∧
      (x :: (beBytes 4 m ++ (beBytes 16 n ++ [0, 0, 0]))).drop 21 = [0, 0, 0] := by
  have hrank : (x :: (beBytes 4 m ++ (beBytes 16 n ++ [0, 0, 0]))).drop 5 = beBytes 16 n ++ [0, 0, 0] :=
    @List.drop_left' _ (x :: beBytes 4 m) _ _ (by rw [length_cons, length_beBytes])
  have hfrac : (x :: (beBytes 4 m ++ (beBytes 16 n ++ [0, 0, 0]))).drop 21 = [0, 0, 0] := by
    have hdrop := @List.drop_left' _ (beBytes 16 n) ([0, 0, 0] : List UInt8) _ (length_beBytes 16 n)
    rw [← hrank, drop_drop] at hdrop
    exact hdrop
  refine ⟨take_left' (length_beBytes 4 m), ?_, hfrac⟩
  rw [hrank]
  exact take_left' (length_beBytes 16 n)

/-- The fraction of a key in normal form ends in as many zeros as the shift added. -/
theorem Canonical.trailingZeros_fraction (h : Canonical key) :
    trailingZeros key.normalizedFraction 128 = 128 - key.bitLength :=
  trailingZeros_shifted h.odd (Nat.sub_le _ _)

/-- What decoding does once the two numbers are read. -/
theorem decode_read {bytes : List UInt8} (h : Canonical key)
    (hfits : RankFits key) (hexp : -2 ^ 31 ≤ key.exponent) (hsign : key.sign = sign)
    (hrank : (if sign = .negative then complement 32 (fromBe ((bytes.drop 1).take 4)) else fromBe ((bytes.drop 1).take 4)) =
      rankBitsOf key.magnitudeRank)
    (hfrac : (if sign = .negative then complement 128 (fromBe ((bytes.drop 5).take 16))
      else fromBe ((bytes.drop 5).take 16)) = key.normalizedFraction) :
    decodeNonzeroNumericRangeSidecarKey sign bytes = .ok (key, key.magnitudeRank, key.bitLength) := by
  have hle := h.le_fraction
  have hlen := h.bitLength_le
  have hcancel : 128 - (128 - key.bitLength) = key.bitLength := by omega
  have hshift : key.normalizedFraction / 2 ^ (128 - key.bitLength) = key.significand := Nat.mul_div_cancel _ (Nat.two_pow_pos _)
  have hback : key.magnitudeRank - ((key.bitLength : ℤ) - 1) = key.exponent := by
    rw [magnitudeRank]
    omega
  rw [decodeNonzeroNumericRangeSidecarKey]
  simp only [hrank, hfrac, h.trailingZeros_fraction, hcancel, hshift, hback, ofSigned32_flipTop hfits.1 hfits.2]
  rw [if_neg (by omega), if_neg (by omega), if_neg (by omega), ← hsign]

theorem decode_numericRangeSortKey (h : Canonical key) (hfits : RankFits key)
    (hexp : -2 ^ 31 ≤ key.exponent) :
    decodeNonzeroNumericRangeSidecarKey key.sign (numericRangeSortKey key).bytes = .ok (key, key.magnitudeRank, key.bitLength) := by
  have hrank : ∀ {n : ℕ}, n < 2 ^ 32 → fromBe (beBytes 4 n) = n := fun hn => fromBe_beBytes hn
  have hfrac : ∀ {n : ℕ}, n < 2 ^ 128 → fromBe (beBytes 16 n) = n := fun hn => fromBe_beBytes hn
  rw [numericRangeSortKey]
  cases hsign : key.sign with
  | zero => exact absurd hsign h.sign
  | negative =>
    dsimp only
    obtain ⟨hfour, hsixt, -⟩ := take_payload (complement 32 (rankBitsOf key.magnitudeRank))
      (complement 128 key.normalizedFraction) 0
    apply decode_read h hfits hexp hsign
    · rw [if_pos rfl, hfour, hrank (complement_lt 32 _), complement_complement (rankBitsOf_lt _)]
    · rw [if_pos rfl, hsixt, hfrac (complement_lt 128 _), complement_complement h.fraction_lt]
  | positive =>
    dsimp only
    obtain ⟨hfour, hsixt, -⟩ := take_payload (rankBitsOf key.magnitudeRank) key.normalizedFraction 2
    apply decode_read h hfits hexp hsign
    · rw [if_neg nofun, hfour, hrank (rankBitsOf_lt _)]
    · rw [if_neg nofun, hsixt, hfrac h.fraction_lt]

theorem Handed.emittable (h : Handed sign s e) : numericScalarKeyIsEmittable (.nonzero sign s e) (nonzero sign s e).magnitudeRank
      (nonzero sign s e).bitLength = true := by
  obtain ⟨t, k, hs, hkey, hcan, hlen⟩ := nonzero_spec h.sign_ne h.pos h.lt (e := e)
  have hodd := hcan.odd
  have hrank := h.rank_eq
  have hexp : (nonzero sign s e).exponent = e + k := by rw [hkey]
  have hsign : (nonzero sign s e).sign = sign := by rw [hkey]
  have hsig : (nonzero sign s e).significand = t := by rw [hkey]
  rw [numericScalarKeyIsEmittable, if_neg (by omega), hrank]
  split
  · rfl
  · rename_i hnot
    have hbds := h.rank_bounds
    cases h with
    | positiveInteger pos bound =>
      have hlog := (Nat.log_lt_iff_lt_pow (by decide) pos.ne').mpr bound
      rw [if_neg (by omega), hsign]
      exact decide_eq_true (by omega)
    | negativeInteger pos bound =>
      rw [if_neg (by omega), hsign]
      apply decide_eq_true
      rcases lt_or_eq_of_le bound with hlt | rfl
      · have hlog := (Nat.log_lt_iff_lt_pow (by decide) pos.ne').mpr hlt
        omega
      · -- the least signed number: one bit
        have hone : nonzero .negative (1 * 2 ^ 63) 0 = ⟨.negative, 0 + (63 : ℕ), 1⟩ := nonzero_shifted (by decide) (by decide)
        rw [Nat.one_mul] at hone
        have hlog : Nat.log 2 (2 ^ 63) = 63 := Nat.log_pow (by decide) 63
        rw [hone, hlog]
        exact .inr ⟨rfl, rfl, rfl⟩
    | double sign_ne pos bound low high =>
      have hlog := (Nat.log_lt_iff_lt_pow (by decide) pos.ne').mpr bound
      omega

section
variable {key : NumericScalarKey}

theorem headD_numericRangeSortKey (h : Canonical key) :
    (numericRangeSortKey key).bytes.headD 0 = (if key.sign = .negative then 0 else 2) ∧
      ((numericRangeSortKey key).bytes.drop 21).any (· ≠ 0) = false := by
  rw [numericRangeSortKey]
  cases hsign : key.sign with
  | zero => exact absurd hsign h.sign
  | negative =>
    obtain ⟨-, -, hresv⟩ := take_payload (complement 32 (rankBitsOf key.magnitudeRank))
      (complement 128 key.normalizedFraction) 0
    dsimp only
    rw [hresv]
    exact ⟨rfl, rfl⟩
  | positive =>
    obtain ⟨-, -, hresv⟩ := take_payload (rankBitsOf key.magnitudeRank) key.normalizedFraction 2
    dsimp only
    rw [hresv]
    exact ⟨rfl, rfl⟩

theorem validateNonzeroKey_of_canonical (h : Canonical key) (hfits : RankFits key)
    (hexp : -2 ^ 31 ≤ key.exponent)
    (hemit : numericScalarKeyIsEmittable key key.magnitudeRank key.bitLength = true) :
    validateNonzeroKey key.sign (numericRangeSortKey key) = .ok () := by
  obtain ⟨-, hresv⟩ := headD_numericRangeSortKey h
  rw [validateNonzeroKey, if_neg (by rw [hresv]; exact nofun), decode_numericRangeSortKey h hfits hexp]
  dsimp only
  rw [if_neg (by rw [hemit]; exact nofun), if_neg (not_not.mpr rfl)]

theorem validate_numericRangeSortKey (hfits : FitsWord val)
    (h : numericKey val = some key) : validateNumericRangeSidecarKey (numericRangeSortKey key) = .ok () := by
  rcases numericKey_cases hfits h with ⟨rfl, -⟩ | ⟨sign, s, e, handed, hkey, -⟩
  · rfl
  · have hcan : Canonical key := by
      rw [hkey]
      exact handed.canonical
    obtain ⟨-, hrank, -⟩ := numericKey_spec hfits h
    obtain ⟨t, k, -, hnormal, -, -⟩ := nonzero_spec handed.sign_ne handed.pos handed.lt (e := e)
    have hexp : -2 ^ 31 ≤ key.exponent := by
      have hval : key.exponent = e + k := by rw [hkey, hnormal]
      have hlow : -1074 ≤ e := by cases handed <;> omega
      omega
    have hemit : numericScalarKeyIsEmittable key key.magnitudeRank key.bitLength = true := by
      rw [hkey]
      exact handed.emittable
    have hchk := validateNonzeroKey_of_canonical hcan hrank hexp hemit
    obtain ⟨hclass, -⟩ := headD_numericRangeSortKey hcan
    rw [validateNumericRangeSidecarKey, hclass]
    cases hsign : key.sign with
    | zero => exact absurd hsign hcan.sign
    | negative =>
      rw [hsign] at hchk
      exact hchk
    | positive =>
      rw [hsign] at hchk
      exact hchk

end

/-- A double from its three parts. -/
def assemble (negative : Bool) (exponentBits fraction : ℕ) : F64 :=
  BitVec.ofNat 64 ((if negative then 2 ^ 63 else 0) + exponentBits * 2 ^ 52 + fraction)

theorem numericKeyFromF64_assemble {negative : Bool} {exponentBits fraction : ℕ} (hexp : exponentBits < 0x7ff)
    (hfrac : fraction < 2 ^ 52) (hne : exponentBits ≠ 0 ∨ fraction ≠ 0) :
    numericKeyFromF64 (assemble negative exponentBits fraction) = some (.nonzero (if negative then .negative else .positive)
        (if exponentBits = 0 then fraction else 2 ^ 52 + fraction)
        (if exponentBits = 0 then -1074 else (exponentBits : ℤ) - 1075)) := by
  have hnat : (assemble negative exponentBits fraction).toNat = (if negative then 2 ^ 63 else 0) + exponentBits * 2 ^ 52 + fraction := by
    rw [assemble, BitVec.toNat_ofNat]
    apply Nat.mod_eq_of_lt
    split <;> omega
  have hmsb : (assemble negative exponentBits fraction).msb = negative := by
    rw [BitVec.msb_eq_decide, hnat]
    cases negative with
    | true => exact decide_eq_true (by simp only [if_true]; omega)
    | false => exact decide_eq_false (by simp only [Bool.false_eq_true, if_false]; omega)
  have hhigh : (assemble negative exponentBits fraction).toNat / 2 ^ 52 % 2 ^ 11 = exponentBits := by
    rw [hnat]
    split <;> omega
  have hlow : (assemble negative exponentBits fraction).toNat % 2 ^ 52 = fraction := by
    rw [hnat]
    split <;> omega
  rw [numericKeyFromF64]
  simp only [hhigh, hlow, hmsb]
  rw [if_neg hexp.ne]
  split
  · rename_i hzero
    rw [if_neg (by omega)]
    rfl
  · congr 2
    omega

section
variable {key : NumericScalarKey} (h : Canonical key)
include h

theorem exists_double (hlow : -1074 ≤ key.exponent)
    (hlen : key.bitLength ≤ 53) (hhigh : key.magnitudeRank ≤ 1023) : ∃ bits, numericKeyFromF64 bits = some key := by
  have hsign : (if decide (key.sign = .negative) then NumericSign.negative else .positive) = key.sign := by
    cases hsign : key.sign with
    | negative => rfl
    | zero => exact absurd hsign h.sign
    | positive => rfl
  have hpos : 1 ≤ key.bitLength := Nat.succ_le_succ (Nat.zero_le _)
  have hlt := lt_two_pow_bitLength key
  have hle := h.pow_le
  have hne := h.ne_zero
  have hrank : key.magnitudeRank = key.exponent + key.bitLength - 1 := rfl
  -- the shifted significand stands for the same key
  have hshif : ∀ {k : ℕ} {e : ℤ}, key.significand * 2 ^ k < 2 ^ 128 → e + k = key.exponent →
      nonzero key.sign (key.significand * 2 ^ k) e = key := by
    intro k e hbd he
    rw [nonzero_shifted h.odd hbd, he]
  by_cases hnormal : -1022 ≤ key.magnitudeRank
  · have hup : key.significand * 2 ^ (53 - key.bitLength) < 2 ^ 53 := by
      have hsp : 2 ^ 53 = 2 ^ key.bitLength * 2 ^ (53 - key.bitLength) := by rw [← pow_add, Nat.add_sub_cancel' hlen]
      rw [hsp]
      exact Nat.mul_lt_mul_of_pos_right hlt (Nat.two_pow_pos _)
    have hlo : 2 ^ 52 ≤ key.significand * 2 ^ (53 - key.bitLength) := by
      have hsp : 2 ^ 52 = 2 ^ (key.bitLength - 1) * 2 ^ (53 - key.bitLength) := by
        rw [← pow_add]
        congr 1
        omega
      rw [hsp]
      exact Nat.mul_le_mul_right _ hle
    refine ⟨assemble (decide (key.sign = .negative)) (key.magnitudeRank + 1023).toNat
      (key.significand * 2 ^ (53 - key.bitLength) - 2 ^ 52), ?_⟩
    rw [numericKeyFromF64_assemble (by omega) (by omega) (.inl (by omega)), hsign, if_neg (by omega), if_neg (by omega),
      Nat.add_sub_cancel' hlo, hshif (by omega) (by omega)]
  · have hup : key.significand * 2 ^ (key.exponent + 1074).toNat < 2 ^ 52 := by
      have hsp : 2 ^ key.bitLength * 2 ^ (key.exponent + 1074).toNat ≤ 2 ^ 52 := by
        rw [← pow_add]
        exact Nat.pow_le_pow_right (by decide) (by omega)
      exact lt_of_lt_of_le (Nat.mul_lt_mul_of_pos_right hlt (Nat.two_pow_pos _)) hsp
    have hfrac : key.significand * 2 ^ (key.exponent + 1074).toNat ≠ 0 := Nat.mul_ne_zero hne (Nat.two_pow_pos _).ne'
    refine ⟨assemble (decide (key.sign = .negative)) 0 (key.significand * 2 ^ (key.exponent + 1074).toNat), ?_⟩
    rw [numericKeyFromF64_assemble (by decide) hup (.inr hfrac), hsign, if_pos rfl, if_pos rfl, hshif (by omega) (by omega)]

theorem exists_integer (hexponent : 0 ≤ key.exponent) (hrank : match key.sign with
      | .positive => key.magnitudeRank ≤ 63
      | .negative => key.magnitudeRank < 63 ∨ key.magnitudeRank = 63 ∧ key.significand = 1 ∧ key.exponent = 63
      | .zero => False) :
    ∃ val, FitsWord val ∧ numericKey val = some key := by
  have hlt := lt_two_pow_bitLength key
  have hne := h.ne_zero
  have hpos : 1 ≤ key.bitLength := Nat.succ_le_succ (Nat.zero_le _)
  have hdef : key.magnitudeRank = key.exponent + key.bitLength - 1 := rfl
  have hprod : key.significand * 2 ^ key.exponent.toNat ≠ 0 := Nat.mul_ne_zero hne (Nat.two_pow_pos _).ne'
  have hbd : ∀ {n : ℕ}, key.magnitudeRank < n → key.significand * 2 ^ key.exponent.toNat < 2 ^ n := by
    intro n hn
    have hsp : 2 ^ key.bitLength * 2 ^ key.exponent.toNat ≤ 2 ^ n := by
      rw [← pow_add]
      exact Nat.pow_le_pow_right (by decide) (by omega)
    exact lt_of_lt_of_le (Nat.mul_lt_mul_of_pos_right hlt (Nat.two_pow_pos _)) hsp
  have hshif : ∀ {sign : NumericSign}, key.sign = sign → key.significand * 2 ^ key.exponent.toNat < 2 ^ 128 →
      nonzero sign (key.significand * 2 ^ key.exponent.toNat) 0 = key := by
    intro sign hsign hwide
    have hback : (0 : ℤ) + key.exponent.toNat = key.exponent := by omega
    rw [nonzero_shifted h.odd hwide, hback, ← hsign]
  cases hsign : key.sign with
  | zero =>
    rw [hsign] at hrank
    exact hrank.elim
  | positive =>
    rw [hsign] at hrank
    have hword := @hbd 64 (by push_cast; omega)
    refine ⟨.uint (key.significand * 2 ^ key.exponent.toNat), hword, ?_⟩
    rw [numericKey, numericKeyFromU64, if_neg hprod, hshif hsign (by omega)]
  | negative =>
    rw [hsign] at hrank
    have hword : key.significand * 2 ^ key.exponent.toNat ≤ 2 ^ 63 := by
      rcases hrank with hless | ⟨-, hone, hexp⟩
      · exact (@hbd 63 (by push_cast; omega)).le
      · rw [hone, hexp, Nat.one_mul]
        exact le_rfl
    refine ⟨.int (-(key.significand * 2 ^ key.exponent.toNat : ℕ)), ⟨by omega, by omega⟩, ?_⟩
    rw [numericKey, numericKeyFromI64, if_neg (by omega), if_pos (by omega), Int.natAbs_neg, Int.natAbs_natCast, hshif hsign (by omega)]

theorem exists_value_of_emittable (hemit : numericScalarKeyIsEmittable key key.magnitudeRank key.bitLength = true) :
    ∃ val, FitsWord val ∧ numericKey val = some key := by
  rw [numericScalarKeyIsEmittable] at hemit
  split at hemit
  · cases hemit
  · split at hemit
    · rename_i hdouble
      obtain ⟨bits, hbits⟩ := exists_double h hdouble.1 hdouble.2.1 hdouble.2.2
      exact ⟨.float bits, trivial, hbits⟩
    · split at hemit
      · cases hemit
      · rename_i hexp
        apply exists_integer h (by omega)
        cases hsign : key.sign with
        | zero => exact absurd hsign h.sign
        | positive =>
          rw [hsign] at hemit
          exact of_decide_eq_true hemit
        | negative =>
          rw [hsign] at hemit
          exact of_decide_eq_true hemit

end

/-- What decoding accepts has its top bit at the rank. -/
theorem decoded_spec {bytes : List UInt8} {bitLength : ℕ}
    (hsign : sign ≠ .zero) (h : decodeNonzeroNumericRangeSidecarKey sign bytes = .ok (key, rank, bitLength))
    (hlen : bytes.length = numericRangeKeyBytes) :
    Canonical key ∧ rank = key.magnitudeRank ∧ bitLength = key.bitLength := by
  rw [decodeNonzeroNumericRangeSidecarKey] at h
  dsimp only at h
  have hwide : (if sign = .negative then complement 128 (fromBe ((bytes.drop 5).take 16))
      else fromBe ((bytes.drop 5).take 16)) < 2 ^ 128 := by
    have hread := fromBe_lt ((bytes.drop 5).take 16)
    have hsixt : ((bytes.drop 5).take 16).length = 16 := by
      rw [length_take, length_drop, hlen]
      rfl
    rw [hsixt] at hread
    split
    · exact complement_lt 128 _
    · exact hread
  revert h hwide
  generalize (if sign = .negative then complement 128 (fromBe ((bytes.drop 5).take 16))
      else fromBe ((bytes.drop 5).take 16)) = fraction
  generalize ofSigned32 (flipTop (if sign = .negative then complement 32 (fromBe ((bytes.drop 1).take 4))
      else fromBe ((bytes.drop 1).take 4))) = found
  intro h hwide
  split at h
  · cases h
  · rename_i hne
    split at h
    · cases h
    · rename_i htop
      split at h
      · cases h
      · simp only [Except.ok.injEq, Prod.mk.injEq] at h
        obtain ⟨hkey, hrank, hbits⟩ := h
        obtain ⟨t, k, hodd, rfl⟩ := exists_odd_part hne
        have ht : t ≠ 0 := by omega
        have hk : k < 128 := by
          have hpow : 2 ^ k < 2 ^ 128 := lt_of_le_of_lt (Nat.le_mul_of_pos_left _ (Nat.pos_of_ne_zero ht)) hwide
          exact (Nat.pow_lt_pow_iff_right (by decide)).mp hpow
        have hlog : Nat.log 2 t + k = 127 := by
          rw [← log_shifted ht]
          have hbel := (Nat.log_lt_iff_lt_pow (by decide) hne).mpr hwide
          have hab := Nat.le_log_of_pow_le (by decide : 1 < 2) (not_lt.mp htop)
          omega
        have hzeros : trailingZeros (t * 2 ^ k) 128 = k := trailingZeros_shifted hodd hk.le
        have hcancel : 128 - (128 - k) = k := by omega
        rw [hzeros] at hkey hbits
        rw [hcancel, Nat.mul_div_cancel _ (Nat.two_pow_pos k)] at hkey
        have hsigned : key.sign = sign := by rw [← hkey]
        have hsig : key.significand = t := by rw [← hkey]
        have hexp : key.exponent = rank - ((bitLength : ℤ) - 1) := by rw [← hkey, ← hrank, ← hbits]
        have hkeyl : key.bitLength = bitLength := by
          rw [NumericScalarKey.bitLength, hsig]
          omega
        refine ⟨⟨?_, ?_, ?_⟩, ?_, hkeyl.symm⟩
        · rwa [hsigned]
        · rwa [hsig]
        · rw [hsig]
          exact lt_of_le_of_lt (Nat.le_mul_of_pos_right _ (Nat.two_pow_pos k)) hwide
        · rw [magnitudeRank, hkeyl, hexp]
          omega

theorem exists_value_of_validateNonzero {sign : NumericSign} {key : NumericRangeSortKey} (hsign : sign ≠ .zero)
    (h : validateNonzeroKey sign key = .ok ()) :
    ∃ val, FitsWord val ∧ numericRangeSortKeyForValue val = some key := by
  rw [validateNonzeroKey] at h
  split at h
  · cases h
  · cases hdecd : decodeNonzeroNumericRangeSidecarKey sign key.bytes with
    | error msg =>
      rw [hdecd] at h
      cases h
    | ok found =>
      obtain ⟨decoded, rank, bitLength⟩ := found
      rw [hdecd] at h
      dsimp only at h
      obtain ⟨hcan, rfl, rfl⟩ := decoded_spec hsign hdecd key.length_eq
      split at h
      · cases h
      · rename_i hemit
        split at h
        · cases h
        · rename_i hsame
          obtain ⟨val, hfits, hval⟩ := exists_value_of_emittable hcan (by simpa using hemit)
          refine ⟨val, hfits, ?_⟩
          rw [numericRangeSortKeyForValue, hval]
          exact congrArg some (NumericRangeSortKey.ext (not_not.mp hsame))

theorem exists_value_of_validate {key : NumericRangeSortKey} (h : validateNumericRangeSidecarKey key = .ok ()) :
    ∃ val, FitsWord val ∧ numericRangeSortKeyForValue val = some key := by
  obtain ⟨bytes, hlen⟩ := key
  obtain ⟨head, tail, rfl⟩ := exists_cons_of_length_eq_add_one hlen
  rw [validateNumericRangeSidecarKey] at h
  split at h
  · exact @exists_value_of_validateNonzero .negative _ nofun h
  · exact @exists_value_of_validateNonzero .positive _ nofun h
  · rename_i hclass
    split at h
    · cases h
    · rename_i hzero
      have hhead : head = 1 := hclass
      have htail : tail = replicate 23 0 := by
        apply eq_replicate_iff.mpr
        refine ⟨Nat.succ.inj hlen, ?_⟩
        intro byte hbyte
        by_contra hne
        apply hzero
        exact any_eq_true.mpr ⟨byte, hbyte, decide_eq_true hne⟩
      refine ⟨.int 0, ⟨by decide, by decide⟩, congrArg some (NumericRangeSortKey.ext ?_)⟩
      change 1 :: replicate 23 0 = head :: tail
      rw [hhead, htail]
  · cases h

/-- The sort keys of two numbers compare as the numbers and are one exactly if the numbers are, and
a byte string is accepted exactly if it is the sort key of a number. -/
theorem sort_keys_order_numbers :
    (∀ a b : PropValue, FitsWord a → FitsWord b → ∀ x y : ℚ, numericValue a = some x → numericValue b = some y →
      ∃ left right, numericRangeSortKeyForValue a = some left ∧ numericRangeSortKeyForValue b = some right ∧
        compare left.bytes right.bytes = compare x y ∧ (left = right ↔ x = y)) ∧
    ∀ key : NumericRangeSortKey, validateNumericRangeSidecarKey key = .ok () ↔
      ∃ val x, FitsWord val ∧ numericValue val = some x ∧ numericRangeSortKeyForValue val = some key := by
  constructor
  · intro a b ha hb x y hx hy
    obtain ⟨left, hleft⟩ := exists_numericKey hx
    obtain ⟨right, hright⟩ := exists_numericKey hy
    obtain ⟨hproper, hrank, hvalue⟩ := numericKey_spec ha hleft
    obtain ⟨hproper', hrank', hvalue'⟩ := numericKey_spec hb hright
    obtain rfl : x = keyValue left := some.inj (hx.symm.trans hvalue)
    obtain rfl : y = keyValue right := some.inj (hy.symm.trans hvalue')
    have horder : compare (numericRangeSortKey left).bytes (numericRangeSortKey right).bytes =
        compare (keyValue left) (keyValue right) :=
      (compare_numericRangeSortKey hproper hproper' hrank hrank').trans (compareNumericKeys_eq hproper hproper')
    refine ⟨_, _, by rw [numericRangeSortKeyForValue, hleft]; rfl, by rw [numericRangeSortKeyForValue, hright]; rfl,
      horder, ?_⟩
    constructor
    · intro hsame
      rw [hsame, compare_self] at horder
      exact compare_eq_iff_eq.mp horder.symm
    · intro hsame
      rw [hsame, compare_eq_iff_eq.mpr rfl] at horder
      exact NumericRangeSortKey.ext (eq_of_compare horder)
  · intro key
    constructor
    · intro h
      obtain ⟨val, hfits, hkey⟩ := exists_value_of_validate h
      have hnumber := hkey
      rw [numericRangeSortKeyForValue] at hnumber
      obtain ⟨number, hnumeric, -⟩ := map_eq_some_iff.mp hnumber
      exact ⟨val, _, hfits, (numericKey_spec hfits hnumeric).2.2, hkey⟩
    · intro h
      obtain ⟨val, x, hfits, -, hkey⟩ := h
      rw [numericRangeSortKeyForValue] at hkey
      obtain ⟨number, hnumeric, rfl⟩ := map_eq_some_iff.mp hkey
      exact validate_numericRangeSortKey hfits hnumeric

/-- The least integer that is no double lies above the double before it. -/
theorem sort_keys_order_numbers_above_double :
    ∃ left right, numericRangeSortKeyForValue (.uint (2 ^ 53 + 1)) = some left ∧
      numericRangeSortKeyForValue (.float (assemble false 1076 0)) = some right ∧
      compare left.bytes right.bytes = compare (2 ^ 53 + 1 : ℚ) (2 ^ 53 : ℚ) ∧ (left = right ↔ (2 ^ 53 + 1 : ℚ) = 2 ^ 53) := by
  apply sort_keys_order_numbers.1
  · change 2 ^ 53 + 1 < 2 ^ 64
    decide
  · trivial
  · rw [numericValue]
    norm_num
  · have hexponent : (assemble false 1076 0).toNat / 2 ^ 52 % 2 ^ 11 = 1076 := by decide
    have hfraction : (assemble false 1076 0).toNat % 2 ^ 52 = 0 := by decide
    have hmsb : (assemble false 1076 0).msb = false := by decide
    rw [numericValue, f64Value]
    simp only [hexponent, hfraction, hmsb]
    norm_num

end OverGraph.NumericRangeKeys
