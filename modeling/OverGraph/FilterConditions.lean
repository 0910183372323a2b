import OverGraph.PropertyFilters
import OverGraph.NodeFilters

/-!
# Conditions on numbers, times and properties

What the filters of nodes and of edges have in common: ranges whose ends may be open, ranges of times,
and conditions on a property. A range that nothing lies in is normalized to the filter that nothing
meets; a list of values is put in order and loses its duplicates.
-/

namespace OverGraph.FilterConditions
open PropertyValues (PropertyRangeBound numericRangeValueWithinBounds)
open Records SortedBytes KeyedLists FilterTrees NumericRanges SemanticEquality PropertyFilters List Except Option
  NodeFilters Fallible

section
variable {α : Type}

structure FlexibleRange (α : Type) where
  lower : Option α
  upper : Option α
  lowerInclusive : Bool
  upperInclusive : Bool

/-- Nothing lies between the bounds. -/
def FlexibleRange.isEmpty (lt eq : α → α → Bool) (range : FlexibleRange α) : Bool :=
  match range.lower, range.upper with
  | some lower, some upper => lt upper lower || (eq lower upper && (!range.lowerInclusive || !range.upperInclusive))
  | _, _ => false

def FlexibleRange.matches (lt eq : α → α → Bool) (range : FlexibleRange α) (value : α) : Bool :=
  flexibleRangeMatches lt eq value range.lower range.upper range.lowerInclusive range.upperInclusive

def normalizeFlexibleRange (lt eq : α → α → Bool) (range : FlexibleRange α) (ctx : String) : Except String (Option (FlexibleRange α)) :=
  if range.lower.isNone && range.upper.isNone then .error s!"{ctx} range filters require at least one bound"
  else if range.isEmpty lt eq then return none
  else return some range

def normalizeU64FlexibleRange : FlexibleRange ℕ → String → Except String (Option (FlexibleRange ℕ)) :=
  normalizeFlexibleRange (fun a b => decide (a < b)) (fun a b => decide (a = b))

def normalizeI64FlexibleRange : FlexibleRange ℤ → String → Except String (Option (FlexibleRange ℤ)) :=
  normalizeFlexibleRange (fun a b => decide (a < b)) (fun a b => decide (a = b))

variable {lt eq : α → α → Bool} {range : FlexibleRange α}

theorem normalizeFlexibleRange_ok {ctx : String}
    {res : Option (FlexibleRange α)} (h : normalizeFlexibleRange lt eq range ctx = .ok res) :
    (res = none ∧ range.isEmpty lt eq = true) ∨ res = some range := by
  rw [normalizeFlexibleRange] at h
  split at h
  · cases h
  split at h
  · rename_i hemp
    obtain rfl := ok.inj h
    exact .inl ⟨rfl, hemp⟩
  · obtain rfl := ok.inj h
    exact .inr rfl

/-- Where the comparisons are those of an order, nothing is in an empty range. -/
theorem matches_of_empty {β : Type} [LinearOrder β] (order : α → β)
    (hlt : ∀ a b, lt a b = true → order a < order b) (heq : ∀ a b, eq a b = true → order a = order b) {value : α}
    (hlo : ∀ lower ∈ range.lower, lt value lower = decide (order value < order lower) ∧ eq value lower = decide (order value = order lower))
    (hup : ∀ upper ∈ range.upper, lt upper value = decide (order upper < order value) ∧ eq value upper = decide (order value = order upper))
    (hemp : range.isEmpty lt eq = true) : range.matches lt eq value = false := by
  obtain ⟨lower, upper, lowerInclusive, upperInclusive⟩ := range
  cases lower with
  | none => cases hemp
  | some lower =>
    cases upper with
    | none => cases hemp
    | some upper =>
      obtain ⟨hlowerLt, hlowerEq⟩ := hlo lower rfl
      obtain ⟨hupperLt, hupperEq⟩ := hup upper rfl
      rw [FlexibleRange.isEmpty, Bool.or_eq_true, Bool.and_eq_true] at hemp
      rw [FlexibleRange.matches, flexibleRangeMatches, all_some, all_some, hlowerLt, hlowerEq, hupperLt, hupperEq]
      rcases hemp with hover | ⟨hsame, hopen⟩
      · have hx := hlt upper lower hover
        rcases lt_or_ge (order value) (order lower) with hval | hval
        · rw [decide_eq_true hval]
          rfl
        · rw [decide_eq_true (hx.trans_le hval), Bool.true_or, Bool.not_true, Bool.and_false]
      · have hone := heq lower upper hsame
        rcases lt_trichotomy (order value) (order lower) with hval | hval | hval
        · rw [decide_eq_true hval]
          rfl
        · -- the one number left is excluded at one end
          rw [decide_eq_true hval, decide_eq_true (hval.trans hone)]
          cases lowerInclusive with
          | false => simp
          | true =>
            cases upperInclusive with
            | false => simp
            | true => cases hopen
        · have hbeyond : order upper < order value := hone.symm.trans_lt hval
          rw [decide_eq_true hbeyond, Bool.true_or, Bool.not_true, Bool.and_false]

def flag (b : Bool) : UInt8 := if b then 1 else 0

theorem flag_inj {a b : Bool} (h : flag a = flag b) : a = b := by cases a <;> cases b <;> first | rfl | cases h

def FlexibleRange.bytes (encode : α → List UInt8) (zero : α) (range : FlexibleRange α) : List UInt8 :=
  flag range.lower.isSome :: (encode (range.lower.getD zero) ++ (flag range.upper.isSome ::
    (encode (range.upper.getD zero) ++ [flag range.lowerInclusive, flag range.upperInclusive])))

theorem option_of_getD {a b : Option α} {zero : α} (hsome : a.isSome = b.isSome) (h : a.getD zero = b.getD zero) : a = b := by
  cases a with
  | none =>
    cases b with
    | none => rfl
    | some b => cases hsome
  | some a =>
    cases b with
    | none => cases hsome
    | some b => exact congrArg some h

/-- Ranges whose ends are written to a fixed number of bytes can be told apart. -/
theorem FlexibleRange.bytes_inj {encode : α → List UInt8} {zero : α} {width : ℕ} {fits : α → Prop}
    (hwid : ∀ a, (encode a).length = width) (hinj : ∀ a b, fits a → fits b → encode a = encode b → a = b) (hzero : fits zero)
    {left right : FlexibleRange α} (hleft : (∀ a ∈ left.lower, fits a) ∧ ∀ a ∈ left.upper, fits a)
    (hrt : (∀ a ∈ right.lower, fits a) ∧ ∀ a ∈ right.upper, fits a)
    (h : left.bytes encode zero = right.bytes encode zero) : left = right := by
  have hgetD : ∀ {a : Option α}, (∀ x ∈ a, fits x) → fits (a.getD zero) := by
    intro a ha
    cases a with
    | none => exact hzero
    | some a => exact ha a rfl
  rw [FlexibleRange.bytes, FlexibleRange.bytes] at h
  obtain ⟨hlowerSome, h⟩ := List.cons.inj h
  obtain ⟨hlo, h⟩ := append_inj h (by rw [hwid, hwid])
  obtain ⟨hupperSome, h⟩ := List.cons.inj h
  obtain ⟨hup, h⟩ := append_inj h (by rw [hwid, hwid])
  obtain ⟨hlowerInclusive, h⟩ := List.cons.inj h
  obtain ⟨hupperInclusive, -⟩ := List.cons.inj h
  have hlowers := option_of_getD (flag_inj hlowerSome) (hinj _ _ (hgetD hleft.1) (hgetD hrt.1) hlo)
  have huppers := option_of_getD (flag_inj hupperSome) (hinj _ _ (hgetD hleft.2) (hgetD hrt.2) hup)
  obtain ⟨lower, upper, lowerInclusive, upperInclusive⟩ := left
  obtain ⟨lower', upper', lowerInclusive', upperInclusive'⟩ := right
  cases hlowers
  cases huppers
  cases flag_inj hlowerInclusive
  cases flag_inj hupperInclusive
  rfl

end

def u64Bytes (value : ℕ) : List UInt8 := beBytes 8 value

def i64Bytes (value : ℤ) : List UInt8 := beBytes 8 (value % 2 ^ 64).toNat

def f32Bytes (value : F32) : List UInt8 := beBytes 4 value.toNat

def i64Min : ℤ := -9223372036854775808

def FitsU64 (value : ℕ) : Prop := value < 2 ^ 64

def FitsI64 (value : ℤ) : Prop := i64Min ≤ value ∧ value ≤ i64Max

theorem u64Bytes_inj {a b : ℕ} (ha : FitsU64 a) (hb : FitsU64 b) (h : u64Bytes a = u64Bytes b) : a = b := beBytes_injective ha hb h

theorem i64Bytes_inj {a b : ℤ} (ha : FitsI64 a) (hb : FitsI64 b) (h : i64Bytes a = i64Bytes b) : a = b := by
  rw [FitsI64, i64Min, i64Max] at ha hb
  have hwords : (a % 2 ^ 64).toNat = (b % 2 ^ 64).toNat := by
    apply beBytes_injective _ _ h
    · omega
    · omega
  omega

theorem f32Bytes_inj {a b : F32} (h : f32Bytes a = f32Bytes b) : a = b := BitVec.eq_of_toNat_eq (beBytes_injective a.isLt b.isLt h)

def normalizeI64Range (lower upper : Option ℤ) (ctx : String) : Except String (Option (ℤ × ℤ)) :=
  if lower.isNone && upper.isNone then .error s!"{ctx} range filters require at least one bound"
  else if lower.getD i64Min > upper.getD i64Max then return none
  else return some (lower.getD i64Min, upper.getD i64Max)

/-- A time is between bounds that may be open. -/
def timeInRange (lower upper : Option ℤ) (time : ℤ) : Bool :=
  lower.all (fun lower => decide (lower ≤ time)) && upper.all (fun upper => decide (time ≤ upper))

variable {lower upper : Option ℤ}

theorem timeInRange_eq {time : ℤ} (htime : FitsI64 time) :
    timeInRange lower upper time = (decide (lower.getD i64Min ≤ time) && decide (time ≤ upper.getD i64Max)) := by
  have hlo : lower.all (fun lower => decide (lower ≤ time)) = decide (lower.getD i64Min ≤ time) := by
    cases lower with
    | none => exact (decide_eq_true htime.1).symm
    | some lower => rfl
  have hup : upper.all (fun upper => decide (time ≤ upper)) = decide (time ≤ upper.getD i64Max) := by
    cases upper with
    | none => exact (decide_eq_true htime.2).symm
    | some upper => rfl
  rw [timeInRange, hlo, hup]

theorem normalizeI64Range_ok {ctx : String} {res : Option (ℤ × ℤ)}
    (h : normalizeI64Range lower upper ctx = .ok res) :
    (res = none ∧ ∀ time, FitsI64 time → timeInRange lower upper time = false) ∨ (res = some (lower.getD i64Min, upper.getD i64Max)) := by
  rw [normalizeI64Range] at h
  split at h
  · cases h
  split at h
  · rename_i hx
    obtain rfl := ok.inj h
    refine .inl ⟨rfl, fun time htime => ?_⟩
    rw [timeInRange_eq htime, Bool.and_eq_false_iff]
    rcases le_or_gt (lower.getD i64Min) time with hle | hlt
    · exact .inr (decide_eq_false (by omega))
    · exact .inl (decide_eq_false (by omega))
  · obtain rfl := ok.inj h
    exact .inr rfl

theorem fits_getD {bound : Option ℤ} {default : ℤ} (hdefa : FitsI64 default) (h : ∀ value ∈ bound, FitsI64 value) :
    FitsI64 (bound.getD default) := by
  cases bound with
  | none => exact hdefa
  | some value => exact h value rfl

inductive PropertyCondition where
  | propertyEquals (key : String) (value : PropValue)
  | propertyIn (key : String) (values : List PropValue)
  | propertyRange (key : String) (lower upper : Option PropertyRangeBound)
  | propertyExists (key : String)
  | propertyMissing (key : String)

/-- The property of a record meets the condition. -/
def PropertyCondition.holds (props : Props) : PropertyCondition → Bool
  | .propertyEquals key value => (props.lookup key).any (semanticEq · value)
  | .propertyIn key vs => (props.lookup key).any fun stored => vs.any (semanticEq stored)
  | .propertyRange key lower upper => (props.lookup key).any (numericRangeValueWithinBounds · lower upper)
  | .propertyExists key => (props.lookup key).isSome
  | .propertyMissing key => !(props.lookup key).isSome

def PropertyCondition.Held (held : PropValue → Prop) : PropertyCondition → Prop
  | .propertyEquals _ value => held value
  | .propertyIn _ vs => ∀ value ∈ vs, held value
  | .propertyRange _ lower upper => (∀ bound ∈ lower, held bound.value) ∧ ∀ bound ∈ upper, held bound.value
  | .propertyExists _ | .propertyMissing _ => True

def requireNonEmptyFilterKey (key ctx : String) : Except String Unit :=
  if key.isEmpty then .error s!"{ctx} property key must be non-empty" else .ok ()

section
variable (toVec : PropValue → List UInt8) {Test : Type} (ofProperty : PropertyFilter → Test)

/-- A membership test keeps one value of each key; one value alone is an equality test. -/
def normalizePropertyIn (key : String) (vs : List PropValue) : PropertyFilter :=
  match sortedDedup (propValueCanonicalBytes toVec) vs with
  | [value] => .propertyEquals key value
  | deduped => .propertyIn key deduped (deduped.map (propValueCanonicalBytes toVec))

/-- The condition as a test. What is said of an empty list of values, and what the condition is called
in a message, is not the same for nodes and for edges. -/
def normalizePropertyCondition (subject : String) (emptyIn : Except String (NormalizedFilter Test)) :
    PropertyCondition → Except String (NormalizedFilter Test)
  | .propertyEquals key value => do
    requireNonEmptyFilterKey key s!"{subject}property equals filter"
    return .test (ofProperty (.propertyEquals key value))
  | .propertyIn key vs => do
    requireNonEmptyFilterKey key s!"{subject}property in filter"
    if vs.isEmpty then emptyIn
    else return .test (ofProperty (normalizePropertyIn toVec key vs))
  | .propertyRange key lower upper => do
    requireNonEmptyFilterKey key s!"{subject}property range filter"
    let range ← validateNumericRangeBounds lower upper
    if range.isEmpty then return .alwaysFalse
    else return .test (ofProperty (.propertyRange key lower upper))
  | .propertyExists key => do
    requireNonEmptyFilterKey key s!"{subject}property exists filter"
    return .test (ofProperty (.propertyExists key))
  | .propertyMissing key => do
    requireNonEmptyFilterKey key s!"{subject}property missing filter"
    return .test (ofProperty (.propertyMissing key))

variable {toVec} {ofProperty} {held : PropValue → Prop} (hser : Serializes toVec held) {props : Props}
  (hps : ∀ {key value}, props.lookup key = some value → held value)

include hser hps in
theorem normalizePropertyIn_spec {key : String} {vs : List PropValue} (hvals : ∀ value ∈ vs, held value) :
    (normalizePropertyIn toVec key vs).Good toVec held ∧
      (normalizePropertyIn toVec key vs).meets toVec props = (PropertyCondition.propertyIn key vs).holds props := by
  have hkept : ∀ value ∈ sortedDedup (propValueCanonicalBytes toVec) vs, held value :=
    fun value hval => hvals value (mem_of_sortedDedup hval)
  have hany : ∀ stored, (sortedDedup (propValueCanonicalBytes toVec) vs).any (semanticEq stored) = vs.any (semanticEq stored) := by
    intro stored
    apply any_sortedDedup
    intro a ha b hb hbs
    exact semanticEq_of_bytes hser (hvals a ha) (hvals b hb) hbs stored
  rw [normalizePropertyIn, PropertyCondition.holds]
  split
  · rename_i value hone
    rw [hone] at hkept hany
    refine ⟨hkept value mem_cons_self, ?_⟩
    rw [PropertyFilter.meets]
    congr 1
    funext stored
    rw [← hany, any_cons, any_nil, Bool.or_false]
  · refine ⟨⟨hkept, rfl, pairwise_map.mpr (ascending_sortedDedup vs)⟩, ?_⟩
    rw [PropertyFilter.meets]
    cases hsto : props.lookup key with
    | none => rfl
    | some stored => rw [any_some, any_some, propertyInFilterMatches_eq hser (hps hsto) hkept rfl, hany]

include hser hps in
theorem normalizePropertyCondition_spec {subject : String} {emptyIn : Except String (NormalizedFilter Test)}
    {cond : PropertyCondition} {normalized : NormalizedFilter Test} {good : Test → Prop} {holds : Test → Bool}
    (hemp : ∀ n, emptyIn = .ok n → n = .alwaysFalse) (hcond : cond.Held held)
    (hgood : ∀ p : PropertyFilter, p.Good toVec held → good (ofProperty p))
    (hhol : ∀ p : PropertyFilter, holds (ofProperty p) = p.meets toVec props)
    (h : normalizePropertyCondition toVec ofProperty subject emptyIn cond = .ok normalized) :
    normalized.Each good ∧ normalized.meets holds = cond.holds props := by
  cases cond with
  | propertyEquals key value =>
    obtain ⟨_, -, h⟩ := bind_ok h
    obtain rfl := ok.inj h
    exact ⟨.test (hgood _ hcond), hhol _⟩
  | propertyIn key vs =>
    obtain ⟨_, -, h⟩ := bind_ok h
    split at h
    · rename_i hnone
      obtain rfl := hemp _ h
      obtain rfl := isEmpty_iff.mp hnone
      refine ⟨.alwaysFalse, ?_⟩
      rw [PropertyCondition.holds]
      cases props.lookup key <;> rfl
    · obtain rfl := ok.inj h
      obtain ⟨hlist, hmeets⟩ := normalizePropertyIn_spec hser hps hcond
      exact ⟨.test (hgood _ hlist), (hhol _).trans hmeets⟩
  | propertyRange key lower upper =>
    obtain ⟨_, -, h⟩ := bind_ok h
    obtain ⟨range, hrng, h⟩ := bind_ok h
    split at h
    · rename_i hnil
      obtain rfl := ok.inj h
      refine ⟨.alwaysFalse, ?_⟩
      rw [PropertyCondition.holds]
      cases hsto : props.lookup key with
      | none => rfl
      | some stored =>
        have houtd : propValueWithinValidatedRange stored range = false := by
          rw [Bool.eq_false_iff]
          intro hwi
          rw [isEmpty_of_within hwi] at hnil
          cases hnil
        rw [any_some, ← within_validated hrng (fun bound hbd => (hser.wellFormed (hcond.1 bound hbd)).fits)
          (fun bound hbd => (hser.wellFormed (hcond.2 bound hbd)).fits) (hser.wellFormed (hps hsto)).fits,
          houtd]
        rfl
    · obtain rfl := ok.inj h
      exact ⟨.test (hgood _ ⟨⟨range, hrng⟩, hcond⟩), hhol _⟩
  | propertyExists key =>
    obtain ⟨_, -, h⟩ := bind_ok h
    obtain rfl := ok.inj h
    exact ⟨.test (hgood _ trivial), hhol _⟩
  | propertyMissing key =>
    obtain ⟨_, -, h⟩ := bind_ok h
    obtain rfl := ok.inj h
    exact ⟨.test (hgood _ trivial), hhol _⟩

end

end OverGraph.FilterConditions
