import OverGraph.NumericRangeKeys
import Mathlib.Data.String.Basic

/-!
# Keys of the equality index

Two numbers are equal if they are the same number, other values if their structure is the same. The
equality index stores the bytes of a key: a number's sign, exponent and significand, and the
serialized form of any other value.
-/

namespace OverGraph.SemanticEquality
open Records PropertyValues SortedBytes NumericRangeKeys List

mutual

/-- Integers have 64 bits, and the entries of a map are in the order of their names. -/
def WellFormed : PropValue → Prop
  | .int value => -2 ^ 63 ≤ value ∧ value < 2 ^ 63
  | .uint value => value < 2 ^ 64
  | .array items => ItemsWellFormed items
  | .map entries => entries.Pairwise (fun a b => a.1 < b.1) ∧ EntriesWellFormed entries
  | .null | .bool _ | .float _ | .string _ | .bytes _ => True

def ItemsWellFormed : List PropValue → Prop
  | [] => True
  | a :: as => WellFormed a ∧ ItemsWellFormed as

def EntriesWellFormed : List (String × PropValue) → Prop
  | [] => True
  | (_, a) :: as => WellFormed a ∧ EntriesWellFormed as

end

mutual

/-- No part of the value is a NaN. -/
def NanFree : PropValue → Prop
  | .float bits => isNan64 bits = false
  | .array items => ItemsNanFree items
  | .map entries => EntriesNanFree entries
  | .null | .bool _ | .int _ | .uint _ | .string _ | .bytes _ => True

def ItemsNanFree : List PropValue → Prop
  | [] => True
  | a :: as => NanFree a ∧ ItemsNanFree as

def EntriesNanFree : List (String × PropValue) → Prop
  | [] => True
  | (_, a) :: as => NanFree a ∧ EntriesNanFree as

end

theorem WellFormed.fits {value : PropValue} (h : WellFormed value) : FitsWord value := by
  cases value with
  | int value =>
    rw [WellFormed] at h
    exact h
  | uint value =>
    rw [WellFormed] at h
    exact h
  | null | bool _ | float _ | string _ | bytes _ | array _ | map _ => trivial

def valueOf {V : Type} (entries : List (String × V)) (name : String) : Option V :=
  (entries.find? fun entry => decide (entry.1 = name)).map Prod.snd

mutual

/-- Equality by structure: floats by their bits, a NaN equal to nothing; the entries of a map are
looked up in the other by their names. -/
def structuralPropertyEq : PropValue → PropValue → Bool
  | .null, .null => true
  | .bool a, .bool b => decide (a = b)
  | .int a, .int b => decide (a = b)
  | .uint a, .uint b => decide (a = b)
  | .float a, .float b => !isNan64 a && !isNan64 b && decide (a = b)
  | .string a, .string b => decide (a = b)
  | .bytes a, .bytes b => decide (a = b)
  | .array a, .array b => decide (a.length = b.length) && zippedEq a b
  | .map a, .map b => decide (a.length = b.length) && entriesFound a b
  | _, _ => false

def zippedEq : List PropValue → List PropValue → Bool
  | a :: as, b :: bs => structuralPropertyEq a b && zippedEq as bs
  | _, _ => true

def entriesFound : List (String × PropValue) → List (String × PropValue) → Bool
  | [], _ => true
  | (name, a) :: as, right =>
    (match valueOf right name with
      | some b => structuralPropertyEq a b
      | none => false) && entriesFound as right

end

/-- Numbers are compared as numbers, other values by structure. -/
def semanticEq (left right : PropValue) : Bool :=
  match numericKey left, numericKey right with
  | some left, some right => decide (left = right)
  | _, _ => structuralPropertyEq left right

def signTag : NumericSign → UInt8
  | .negative => 0
  | .zero => 1
  | .positive => 2

def pushNumericKeyBytes (key : NumericScalarKey) : List UInt8 :=
  signTag key.sign :: (beBytes 4 (key.exponent % 2 ^ 32).toNat ++ beBytes 16 key.significand)

/-- The key of a value, for a given serialization of values that are no numbers. -/
def semanticEqualityKeyBytes (toVec : PropValue → List UInt8) (value : PropValue) : List UInt8 :=
  match numericKey value with
  | some key => 1 :: pushNumericKeyBytes key
  | none => 2 :: toVec value

section
variable {V : Type} {entries : List (String × V)}

theorem mem_of_valueOf {name : String} {value : V}
    (h : valueOf entries name = some value) : (name, value) ∈ entries := by
  obtain ⟨entry, hfnd, rfl⟩ := Option.map_eq_some_iff.mp h
  have htest := find?_some hfnd
  have hname : entry.1 = name := of_decide_eq_true htest
  have hmem := mem_of_find?_eq_some hfnd
  rwa [← hname]

theorem valueOf_of_mem (hasc : entries.Pairwise (fun a b => a.1 < b.1))
    {name : String} {value : V} (h : (name, value) ∈ entries) : valueOf entries name = some value := by
  induction entries with
  | nil => cases h
  | cons entry entries ih =>
    obtain ⟨hfst, hrest⟩ := pairwise_cons.mp hasc
    rw [valueOf]
    rcases mem_cons.mp h with rfl | h
    · rw [find?_cons_of_pos]
      · rfl
      · exact decide_eq_true rfl
    · have hne : entry.1 ≠ name := (hfst _ h).ne
      rw [find?_cons_of_neg]
      · exact ih hrest h
      · exact fun hsame => hne (of_decide_eq_true hsame)

end

/-- Ordered maps of one size, one inside the other, are one map. -/
theorem eq_of_entries_subset {V : Type} {a b : List (String × V)} (ha : a.Pairwise (fun x y => x.1 < y.1))
    (hb : b.Pairwise (fun x y => x.1 < y.1)) (hlen : a.length = b.length) (hsub : ∀ entry ∈ a, entry ∈ b) : a = b := by
  have hnd : a.Nodup := ha.imp fun hlt => by
    rintro rfl
    exact lt_irrefl _ hlt
  have hperm : a.Perm b := (subperm_of_subset hnd hsub).perm_of_length_le hlen.ge
  exact hperm.eq_of_pairwise (fun x y _ _ hxy hyx => absurd hxy (lt_asymm hyx)) ha hb

mutual

theorem eq_of_structural : ∀ {a b : PropValue}, WellFormed a → WellFormed b → structuralPropertyEq a b = true → a = b
  | .null, b, _, _, h | .bool a, b, _, _, h | .int a, b, _, _, h | .uint a, b, _, _, h | .float a, b, _, _, h
  | .string a, b, _, _, h | .bytes a, b, _, _, h => by cases b <;> simp_all [structuralPropertyEq]
  | .array a, b, ha, hb, h => by
    cases b with
    | array b =>
      rw [structuralPropertyEq, Bool.and_eq_true, decide_eq_true_iff] at h
      rw [WellFormed] at ha hb
      rw [eq_of_zipped ha hb h.1 h.2]
    | _ => simp [structuralPropertyEq] at h
  | .map a, b, ha, hb, h => by
    cases b with
    | map b =>
      rw [structuralPropertyEq, Bool.and_eq_true, decide_eq_true_iff] at h
      rw [WellFormed] at ha hb
      rw [eq_of_entries_subset ha.1 hb.1 h.1 (mem_of_entriesFound ha.2 hb.2 h.2)]
    | _ => simp [structuralPropertyEq] at h

theorem eq_of_zipped : ∀ {a b : List PropValue}, ItemsWellFormed a → ItemsWellFormed b → a.length = b.length → zippedEq a b = true → a = b
  | [], [], _, _, _, _ => rfl
  | [], _ :: _, _, _, hlen, _ | _ :: _, [], _, _, hlen, _ => by simp at hlen
  | a :: as, b :: bs, ha, hb, hlen, h => by
    rw [zippedEq, Bool.and_eq_true] at h
    rw [ItemsWellFormed] at ha hb
    rw [eq_of_structural ha.1 hb.1 h.1, eq_of_zipped ha.2 hb.2 (Nat.succ.inj hlen) h.2]

theorem mem_of_entriesFound : ∀ {a b : List (String × PropValue)}, EntriesWellFormed a → EntriesWellFormed b →
    entriesFound a b = true → ∀ entry ∈ a, entry ∈ b
  | [], _, _, _, _ => fun _ hent => absurd hent not_mem_nil
  | (name, a) :: as, b, ha, hb, h => by
    rw [entriesFound, Bool.and_eq_true] at h
    rw [EntriesWellFormed] at ha
    intro entry hent
    rcases mem_cons.mp hent with rfl | hent
    · cases hfnd : valueOf b name with
      | none =>
        rw [hfnd] at h
        cases h.1
      | some other =>
        rw [hfnd] at h
        have hmem := mem_of_valueOf hfnd
        rwa [eq_of_structural ha.1 (EntriesWellFormed.of_mem hb hmem) h.1]
    · exact mem_of_entriesFound ha.2 hb h.2 entry hent

theorem EntriesWellFormed.of_mem : ∀ {entries : List (String × PropValue)} {name : String} {value : PropValue},
    EntriesWellFormed entries → (name, value) ∈ entries → WellFormed value
  | [], _, _, _, hmem => absurd hmem not_mem_nil
  | (other, a) :: as, name, value, h, hmem => by
    rw [EntriesWellFormed] at h
    rcases mem_cons.mp hmem with heq | hmem
    · obtain ⟨-, rfl⟩ := Prod.mk.inj heq
      exact h.1
    · exact EntriesWellFormed.of_mem h.2 hmem

end

mutual

theorem structuralPropertyEq_self : ∀ {a : PropValue}, WellFormed a → NanFree a → structuralPropertyEq a a = true
  | .null, _, _ | .bool _, _, _ | .int _, _, _ | .uint _, _, _ | .string _, _, _ | .bytes _, _, _ => by simp [structuralPropertyEq]
  | .float bits, _, hnan => by
    rw [NanFree] at hnan
    simp [structuralPropertyEq, hnan]
  | .array items, h, hnan => by
    rw [WellFormed] at h
    rw [NanFree] at hnan
    rw [structuralPropertyEq, zippedEq_self h hnan, decide_eq_true rfl]
    rfl
  | .map entries, h, hnan => by
    rw [WellFormed] at h
    rw [NanFree] at hnan
    rw [structuralPropertyEq, entriesFound_of_subset h.1 h.2 hnan (List.Subset.refl entries), decide_eq_true rfl]
    rfl

theorem zippedEq_self : ∀ {items : List PropValue}, ItemsWellFormed items → ItemsNanFree items → zippedEq items items = true
  | [], _, _ => by rw [zippedEq]; exact nofun
  | a :: as, h, hnan => by
    rw [ItemsWellFormed] at h
    rw [ItemsNanFree] at hnan
    rw [zippedEq, structuralPropertyEq_self h.1 hnan.1, zippedEq_self h.2 hnan.2]
    rfl

theorem entriesFound_of_subset : ∀ {left right : List (String × PropValue)}, right.Pairwise (fun a b => a.1 < b.1) →
    EntriesWellFormed left → EntriesNanFree left → left ⊆ right → entriesFound left right = true
  | [], _, _, _, _, _ => by rw [entriesFound]
  | (name, a) :: as, right, hasc, h, hnan, hsub => by
    rw [EntriesWellFormed] at h
    rw [EntriesNanFree] at hnan
    have hmem : (name, a) ∈ right := hsub mem_cons_self
    have hrest : as ⊆ right := fun entry hent => hsub (mem_cons_of_mem _ hent)
    rw [entriesFound, valueOf_of_mem hasc hmem, entriesFound_of_subset hasc h.2 hnan.2 hrest]
    dsimp only
    rw [structuralPropertyEq_self h.1 hnan.1]
    rfl

end

/-- What a value is compared by: its number, or the value itself. -/
def equalityClass (value : PropValue) : NumericScalarKey ⊕ PropValue :=
  match numericKey value with
  | some key => .inl key
  | none => .inr value

variable {a b : PropValue}

theorem equalityClass_eq (ha : WellFormed a) (hb : WellFormed b) (h : semanticEq a b = true) : equalityClass a = equalityClass b := by
  rw [semanticEq] at h
  cases hleft : numericKey a with
  | none =>
    rw [hleft] at h
    rw [eq_of_structural ha hb h]
  | some left =>
    cases hrt : numericKey b with
    | none =>
      rw [hleft, hrt] at h
      rw [eq_of_structural ha hb h]
    | some right =>
      rw [hleft, hrt] at h
      rw [equalityClass, equalityClass, hleft, hrt, of_decide_eq_true h]

theorem semanticEq_of_class (ha : WellFormed a) (hnan : NanFree a)
    (h : equalityClass a = equalityClass b) : semanticEq a b = true := by
  rw [semanticEq]
  rw [equalityClass, equalityClass] at h
  cases hleft : numericKey a with
  | none =>
    rw [hleft] at h
    cases hrt : numericKey b with
    | none =>
      rw [hrt] at h
      obtain rfl := Sum.inr.inj h
      exact structuralPropertyEq_self ha hnan
    | some right =>
      rw [hrt] at h
      cases h
  | some left =>
    rw [hleft] at h
    cases hrt : numericKey b with
    | none =>
      rw [hrt] at h
      cases h
    | some right =>
      rw [hrt] at h
      exact decide_eq_true (Sum.inl.inj h)

theorem signTag_injective {a b : NumericSign} (h : signTag a = signTag b) : a = b := by cases a <;> cases b <;> first | rfl | cases h

theorem numericKey_fits {value : PropValue} {key : NumericScalarKey} (hfits : FitsWord value)
    (h : numericKey value = some key) : -2 ^ 31 ≤ key.exponent ∧ key.exponent < 2 ^ 31 ∧ key.significand < 2 ^ 128 := by
  obtain ⟨hprop, -, -⟩ := numericKey_spec hfits h
  rcases numericKey_cases hfits h with ⟨rfl, -⟩ | ⟨sign, s, e, handed, rfl, -⟩
  · exact ⟨by decide, by decide, by decide⟩
  · have hcan := handed.canonical
    have hbds := handed.rank_bounds
    have hrank := handed.rank_eq
    have hlen := hcan.bitLength_le
    rw [NumericScalarKey.magnitudeRank] at hrank
    have hpos : 1 ≤ (NumericScalarKey.nonzero sign s e).bitLength := Nat.succ_le_succ (Nat.zero_le _)
    exact ⟨by omega, by omega, hcan.bounded⟩

theorem pushNumericKeyBytes_injective {left right : NumericScalarKey} (ha : FitsWord a)
    (hb : FitsWord b) (hleft : numericKey a = some left) (hrt : numericKey b = some right)
    (h : pushNumericKeyBytes left = pushNumericKeyBytes right) : left = right := by
  obtain ⟨hlow, hhigh, hwide⟩ := numericKey_fits ha hleft
  obtain ⟨hlow', hhigh', hwide'⟩ := numericKey_fits hb hrt
  rw [pushNumericKeyBytes, pushNumericKeyBytes] at h
  obtain ⟨htag, hrest⟩ := List.cons.inj h
  have hparts := append_inj hrest (by rw [length_beBytes, length_beBytes])
  have hsign := signTag_injective htag
  have hexp : (left.exponent % 2 ^ 32).toNat = (right.exponent % 2 ^ 32).toNat := by
    apply beBytes_injective _ _ hparts.1
    · omega
    · omega
  have hsig : left.significand = right.significand := beBytes_injective hwide hwide' hparts.2
  have hsame : left.exponent = right.exponent := by omega
  cases left
  cases right
  cases hsign
  cases hsame
  cases hsig
  rfl

section
variable {toVec : PropValue → List UInt8}

theorem keyBytes_of_class {a b : PropValue} (h : equalityClass a = equalityClass b) :
    semanticEqualityKeyBytes toVec a = semanticEqualityKeyBytes toVec b := by
  have hbs : ∀ value, semanticEqualityKeyBytes toVec value = match equalityClass value with
      | .inl key => 1 :: pushNumericKeyBytes key
      | .inr value => 2 :: toVec value := by
    intro value
    rw [semanticEqualityKeyBytes, equalityClass]
    cases numericKey value <;> rfl
  rw [hbs, hbs, h]

theorem class_of_keyBytes {a b : PropValue} (hinj : toVec a = toVec b → a = b) (ha : WellFormed a)
    (hb : WellFormed b) (h : semanticEqualityKeyBytes toVec a = semanticEqualityKeyBytes toVec b) :
    equalityClass a = equalityClass b := by
  rw [semanticEqualityKeyBytes, semanticEqualityKeyBytes] at h
  rw [equalityClass, equalityClass]
  cases hleft : numericKey a with
  | none =>
    rw [hleft] at h
    cases hrt : numericKey b with
    | none =>
      rw [hrt] at h
      exact congrArg Sum.inr (hinj (List.cons.inj h).2)
    | some right =>
      rw [hrt] at h
      cases (List.cons.inj h).1
  | some left =>
    rw [hleft] at h
    cases hrt : numericKey b with
    | none =>
      rw [hrt] at h
      cases (List.cons.inj h).1
    | some right =>
      rw [hrt] at h
      exact congrArg Sum.inl (pushNumericKeyBytes_injective ha.fits hb.fits hleft hrt (List.cons.inj h).2)

end

/-- Equal values have equal key bytes; where no NaN is in the values, equal key bytes mean equal
values, and equality is an equivalence. -/
theorem key_bytes_decide_equality (toVec : PropValue → List UInt8) (handled : PropValue → Prop)
    (hinjective : ∀ a b, handled a → handled b → toVec a = toVec b → a = b) :
    (∀ a b, WellFormed a → WellFormed b → semanticEq a b = true →
      semanticEqualityKeyBytes toVec a = semanticEqualityKeyBytes toVec b) ∧
    (∀ a b, WellFormed a → WellFormed b → handled a → handled b → NanFree a → NanFree b →
      semanticEqualityKeyBytes toVec a = semanticEqualityKeyBytes toVec b → semanticEq a b = true) ∧
    Equivalence fun a b : { value : PropValue // WellFormed value ∧ NanFree value } => semanticEq a.1 b.1 = true := by
  refine ⟨?_, ?_, ?_⟩
  · intro a b ha hb h
    exact keyBytes_of_class (equalityClass_eq ha hb h)
  · intro a b ha hb hhandled hhandled' hnan _ h
    exact semanticEq_of_class ha hnan (class_of_keyBytes (hinjective a b hhandled hhandled') ha hb h)
  · refine ⟨?_, ?_, ?_⟩
    · intro a
      exact semanticEq_of_class a.2.1 a.2.2 rfl
    · intro a b h
      exact semanticEq_of_class b.2.1 b.2.2 (equalityClass_eq a.2.1 b.2.1 h).symm
    · intro a b c hab hbc
      have hclass := (equalityClass_eq a.2.1 b.2.1 hab).trans (equalityClass_eq b.2.1 c.2.1 hbc)
      exact semanticEq_of_class a.2.1 a.2.2 hclass

/-- The serialized forms of the two values that are names alone and a flag. -/
def namedForms : PropValue → List UInt8
  | .null => [0xa4, 0x4e, 0x75, 0x6c, 0x6c]
  | .bool true => [0x81, 0xa4, 0x42, 0x6f, 0x6f, 0x6c, 0xc3]
  | _ => []

theorem key_bytes_decide_equality_zeros :
    semanticEqualityKeyBytes namedForms (.float 0x8000000000000000) = semanticEqualityKeyBytes namedForms (.uint 0) ∧
      semanticEq (.bool true) (.bool true) = true := by
  have hkeys := key_bytes_decide_equality namedForms (fun value => value = .null ∨ value = .bool true) (by
    rintro a b (rfl | rfl) (rfl | rfl) h
    · rfl
    · cases h
    · cases h
    · rfl)
  refine ⟨hkeys.1 _ _ ?_ ?_ ?_, hkeys.2.1 _ _ ?_ ?_ (.inr rfl) (.inr rfl) ?_ ?_ rfl⟩
  · rw [WellFormed]
    trivial
  · rw [WellFormed]
    decide
  · decide
  · rw [WellFormed]
    trivial
  · rw [WellFormed]
    trivial
  · rw [NanFree]
    trivial
  · rw [NanFree]
    trivial

end OverGraph.SemanticEquality
