import OverGraph.ByteReaders

/-!
# Byte strings in lexicographic order

Numbers written with their most significant byte first are in order exactly as the numbers are, and
blocks of equal length are compared one after the other.
-/

namespace OverGraph.SortedBytes
open ByteReaders List

theorem compareLex_append {a c : List UInt8} (b d : List UInt8) (hlen : a.length = c.length) :
    compare (a ++ b) (c ++ d) = (compare a c).then (compare b d) := by
  induction a generalizing c with
  | nil =>
    obtain rfl := length_eq_zero_iff.mp hlen.symm
    rfl
  | cons x a ih =>
    obtain ⟨y, c, rfl⟩ := exists_cons_of_length_eq_add_one hlen.symm
    have hrest := ih (Nat.succ.inj hlen)
    change List.compareLex compare (x :: (a ++ b)) (y :: (c ++ d)) = (List.compareLex compare (x :: a) (y :: c)).then _
    rw [List.compareLex_cons_cons, List.compareLex_cons_cons, Ordering.then_assoc]
    exact congrArg _ hrest

theorem compare_self (a : List UInt8) : compare a a = .eq := Std.ReflCmp.compare_self

theorem eq_of_compare {a b : List UInt8} (h : compare a b = .eq) : a = b := Std.LawfulEqCmp.eq_of_compare h

def beBytes (width n : ℕ) : List UInt8 := (leBytes width n).reverse

def fromBe (bytes : List UInt8) : ℕ := fromLe bytes.reverse

@[simp] theorem length_beBytes (width n : ℕ) : (beBytes width n).length = width := by rw [beBytes, length_reverse, length_leBytes]

theorem fromBe_beBytes {width n : ℕ} (h : n < 256 ^ width) : fromBe (beBytes width n) = n := by
  rw [fromBe, beBytes, reverse_reverse, fromLe_leBytes h]

theorem fromLe_lt (bytes : List UInt8) : fromLe bytes < 256 ^ bytes.length := by
  induction bytes with
  | nil => exact Nat.one_pos
  | cons b bytes ih =>
    have hbyte := b.toNat_lt
    rw [fromLe, length_cons, pow_succ]
    omega

theorem fromBe_lt (bytes : List UInt8) : fromBe bytes < 256 ^ bytes.length := by
  rw [fromBe, ← length_reverse]
  exact fromLe_lt _

theorem beBytes_succ (width n : ℕ) : beBytes (width + 1) n = beBytes width (n / 256) ++ [UInt8.ofNat (n % 256)] := by
  rw [beBytes, leBytes, reverse_cons]
  rfl

theorem beBytes_injective {width m n : ℕ} (hm : m < 256 ^ width) (hn : n < 256 ^ width)
    (h : beBytes width m = beBytes width n) : m = n := by
  rw [← fromBe_beBytes hm, h, fromBe_beBytes hn]

theorem compare_byte {m n : ℕ} (hm : m < 256) (hn : n < 256) : compare (UInt8.ofNat m) (UInt8.ofNat n) = compare m n := by
  have hval : ∀ {k : ℕ}, k < 256 → (UInt8.ofNat k).toNat = k := by
    intro k hk
    rw [UInt8.toNat_ofNat']
    exact Nat.mod_eq_of_lt hk
  change compareOfLessAndEq (UInt8.ofNat m) (UInt8.ofNat n) = compareOfLessAndEq m n
  simp only [compareOfLessAndEq, UInt8.lt_iff_toNat_lt, ← UInt8.toNat_inj, hval hm, hval hn]

theorem compare_div_mod (m n : ℕ) : (compare (m / 256) (n / 256)).then (compare (m % 256) (n % 256)) = compare m n := by
  rcases lt_trichotomy (m / 256) (n / 256) with h | h | h
  · rw [compare_lt_iff_lt.mpr h, compare_lt_iff_lt.mpr (show m < n by omega)]
    rfl
  · rw [h, compare_eq_iff_eq.mpr rfl, Ordering.eq_then]
    rcases lt_trichotomy m n with hmn | hmn | hmn
    · rw [compare_lt_iff_lt.mpr hmn, compare_lt_iff_lt.mpr (show m % 256 < n % 256 by omega)]
    · rw [hmn, compare_eq_iff_eq.mpr rfl, compare_eq_iff_eq.mpr rfl]
    · rw [compare_gt_iff_gt.mpr hmn, compare_gt_iff_gt.mpr (show m % 256 > n % 256 by omega)]
  · rw [compare_gt_iff_gt.mpr h, compare_gt_iff_gt.mpr (show m > n by omega)]
    rfl

theorem compare_beBytes {width m n : ℕ} (hm : m < 256 ^ width) (hn : n < 256 ^ width) :
    compare (beBytes width m) (beBytes width n) = compare m n := by
  induction width generalizing m n with
  | zero =>
    rw [pow_zero, Nat.lt_one_iff] at hm hn
    rw [hm, hn]
    rfl
  | succ width ih =>
    rw [pow_succ] at hm hn
    have hhead : compare (beBytes width (m / 256)) (beBytes width (n / 256)) = compare (m / 256) (n / 256) := by
      apply ih
      · omega
      · omega
    have hlast : compare [UInt8.ofNat (m % 256)] [UInt8.ofNat (n % 256)] = compare (m % 256) (n % 256) := by
      rw [← compare_byte (Nat.mod_lt m (by decide)) (Nat.mod_lt n (by decide))]
      change List.compareLex compare _ _ = _
      rw [List.compareLex_cons_cons, List.compareLex_nil_nil, Ordering.then_eq]
    rw [beBytes_succ, beBytes_succ, compareLex_append, hhead, hlast, compare_div_mod]
    rw [length_beBytes, length_beBytes]

end OverGraph.SortedBytes
