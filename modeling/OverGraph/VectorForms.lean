import Mathlib.Data.List.Sort
import OverGraph.WalFiles

/-!
# Vectors as they are stored

A write checks the vectors of a node and brings the sparse one into a normal form: ascending
dimensions, each once, with positive weights. Replay does the same to what it reads; a normal
form comes out unchanged.
-/

namespace OverGraph.VectorForms
open Records WalCodec Fallible List Prod
open Except hiding error

def isFinite (weight : F32) : Bool := (weight.extractLsb' 23 8).toNat != 255

def isZero (weight : F32) : Bool := (weight.extractLsb' 0 31).toNat == 0

def isNegative (weight : F32) : Bool := weight.msb && !isZero weight

/-- The addition of machine floats. -/
structure WeightSum where
  add : F32 → F32 → F32
  not_negative : ∀ {a b}, isNegative a = false → isNegative b = false → isNegative (add a b) = false

structure DenseVectorConfig where
  dimension : ℕ
  hnswM : ℕ
  efConstruction : ℕ

def validateDenseVectorConfig (config : DenseVectorConfig) : Except EngineError Unit :=
  if config.dimension = 0 then .error (.invalidOperation "dense vector dimension must be > 0")
  else if config.hnswM = 0 then .error (.invalidOperation "dense HNSW m must be > 0")
  else if config.efConstruction = 0 then .error (.invalidOperation "dense HNSW ef_construction must be > 0")
  else if config.efConstruction < config.hnswM then
    .error (.invalidOperation ("dense HNSW ef_construction (" ++ toString config.efConstruction ++
      ") must be >= m (" ++ toString config.hnswM ++ ")"))
  else .ok ()

def validateFiniteVectorComponent (ctx : String) (value : F32) : Except EngineError Unit :=
  if isFinite value then .ok () else .error (.invalidOperation (ctx ++ " contains NaN or infinite value"))

def validateDenseVector (config : DenseVectorConfig) (vs : DenseVector) : Except EngineError Unit := do
  validateDenseVectorConfig config
  if vs.length ≠ config.dimension then
    .error (.invalidOperation ("dense vector length " ++ toString vs.length ++
      " does not match configured dimension " ++ toString config.dimension))
  else vs.forM (validateFiniteVectorComponent "dense vector")

section
variable (sum : WeightSum)

/-- Entries of the dimension of the last one are added to it. -/
def mergeAfter (last : ℕ × F32) : SparseVector → SparseVector
  | [] => [last]
  | entry :: entries =>
    if last.1 = entry.1 then mergeAfter (last.1, sum.add last.2 entry.2) entries
    else last :: mergeAfter entry entries

def mergeDimensions : SparseVector → SparseVector
  | [] => []
  | entry :: entries => mergeAfter sum entry entries

def validateSparseWeight (entry : ℕ × F32) : Except EngineError Unit := do
  validateFiniteVectorComponent "sparse vector" entry.2
  if isNegative entry.2 then .error (.invalidOperation "sparse vector weights must be non-negative") else .ok ()

def canonicalizeSparseVector (vs : SparseVector) : Except EngineError (Option SparseVector) :=
  if vs.isEmpty then .ok none
  else do
    vs.forM validateSparseWeight
    let canonical := (mergeDimensions sum (vs.insertionSort fun a b => a.1 ≤ b.1)).filter fun entry => !isZero entry.2
    if canonical.isEmpty then .ok none
    else do
      canonical.forM fun entry => validateFiniteVectorComponent "sparse vector" entry.2
      .ok (some canonical)

variable {sum}

/-- A sparse vector in normal form. -/
structure Canonical (values : SparseVector) : Prop where
  ascending : (values.map Prod.fst).Pairwise (· < ·)
  nonempty : values ≠ []
  finite : ∀ entry ∈ values, isFinite entry.2 = true
  not_negative : ∀ entry ∈ values, isNegative entry.2 = false
  not_zero : ∀ entry ∈ values, isZero entry.2 = false

theorem forM_ok_iff {α : Type} {check : α → Except EngineError Unit} {vs : List α} :
    vs.forM check = .ok () ↔ ∀ value ∈ vs, check value = .ok () := by
  induction vs with
  | nil => exact ⟨fun _ _ h => (not_mem_nil h).elim, fun _ => rfl⟩
  | cons value vs ih =>
    change (check value >>= fun _ => vs.forM check) = .ok () ↔ _
    rw [forall_mem_cons, ← ih]
    cases check value with
    | error err => exact ⟨fun h => (nomatch h), fun h => (nomatch h.1)⟩
    | ok checked => exact ⟨fun h => ⟨rfl, h⟩, fun h => h.2⟩

theorem validateFinite_ok {ctx : String} {value : F32} : validateFiniteVectorComponent ctx value = .ok () ↔ isFinite value = true := by
  rw [validateFiniteVectorComponent]
  split <;> simp_all

theorem validateSparseWeight_ok {entry : ℕ × F32} :
    validateSparseWeight entry = .ok () ↔ isFinite entry.2 = true ∧ isNegative entry.2 = false := by
  rw [validateSparseWeight, ← @validateFinite_ok "sparse vector"]
  cases hfin : validateFiniteVectorComponent "sparse vector" entry.2 with
  | error err => exact ⟨fun h => (nomatch h), fun h => (nomatch h.1)⟩
  | ok checked =>
    cases hnega : isNegative entry.2 with
    | true => exact ⟨fun h => (nomatch h), fun h => (nomatch h.2)⟩
    | false => exact ⟨fun _ => ⟨rfl, rfl⟩, fun _ => rfl⟩

section
variable (last : ℕ × F32) (entries : SparseVector)

/-- What comes after the last dimension ascends strictly from it. -/
theorem mergeAfter_spec (hlast : isNegative last.2 = false)
    (hsort : ((last :: entries).map fst).Pairwise (· ≤ ·))
    (hpos : ∀ entry ∈ entries, isNegative entry.2 = false) :
    ((mergeAfter sum last entries).map fst).Pairwise (· < ·) ∧
      (∀ entry ∈ mergeAfter sum last entries, last.1 ≤ entry.1 ∧ isNegative entry.2 = false) := by
  induction entries generalizing last with
  | nil =>
    refine ⟨pairwise_singleton _ _, fun entry hent => ?_⟩
    obtain rfl := mem_singleton.mp hent
    exact ⟨le_rfl, hlast⟩
  | cons entry entries ih =>
    rw [map_cons, map_cons, pairwise_cons] at hsort
    obtain ⟨hfst, hrest⟩ := hsort
    have hent := hpos entry mem_cons_self
    have hlat := fun other hoth => hpos other (mem_cons_of_mem entry hoth)
    rw [mergeAfter]
    split
    · rename_i hsame
      refine ih _ (sum.not_negative hlast hent) ?_ hlat
      rw [map_cons]
      simpa only [hsame] using hrest
    · rename_i hoth
      obtain ⟨hasc, hmem⟩ := ih entry hent hrest hlat
      have hlt : last.1 < entry.1 := lt_of_le_of_ne (hfst _ mem_cons_self) hoth
      constructor
      · rw [map_cons, pairwise_cons]
        refine ⟨fun dimension hdim => ?_, hasc⟩
        obtain ⟨found, hfnd, rfl⟩ := mem_map.mp hdim
        exact hlt.trans_le (hmem found hfnd).1
      · intro found hfnd
        rcases mem_cons.mp hfnd with rfl | hfnd
        · exact ⟨le_rfl, hlast⟩
        · exact ⟨hlt.le.trans (hmem found hfnd).1, (hmem found hfnd).2⟩

theorem mergeAfter_ascending (h : ((last :: entries).map fst).Pairwise (· < ·)) : mergeAfter sum last entries = last :: entries := by
  induction entries generalizing last with
  | nil => rfl
  | cons entry entries ih =>
    rw [map_cons, map_cons, pairwise_cons] at h
    have hlt : last.1 < entry.1 := h.1 _ mem_cons_self
    rw [mergeAfter, if_neg hlt.ne, ih entry h.2]

end

theorem canonical_of_canonicalize {vs canonical : SparseVector}
    (h : canonicalizeSparseVector sum vs = .ok (some canonical)) : Canonical canonical := by
  rw [canonicalizeSparseVector] at h
  split at h
  · cases h
  · cases hchk : vs.forM validateSparseWeight with
    | error err =>
      rw [hchk] at h
      cases h
    | ok checked =>
      rw [hchk] at h
      have hvals := forM_ok_iff.mp hchk
      change (if _ then _ else _) = _ at h
      split at h
      · cases h
      · rename_i hnemp
        cases hfin : ((mergeDimensions sum (vs.insertionSort fun a b => a.1 ≤ b.1)).filter
            fun entry => !isZero entry.2).forM fun entry => validateFiniteVectorComponent "sparse vector" entry.2 with
        | error err =>
          rw [hfin] at h
          cases h
        | ok checked =>
          rw [hfin] at h
          obtain rfl := Option.some.inj (ok.inj h)
          have hsort : ((vs.insertionSort fun a b => a.1 ≤ b.1).map fst).Pairwise (· ≤ ·) := by
            rw [pairwise_map]
            exact pairwise_insertionSort (fun a b : ℕ × F32 => a.1 ≤ b.1) vs
          have hpos : ∀ entry ∈ vs.insertionSort fun a b => a.1 ≤ b.1, isNegative entry.2 = false := by
            intro entry hent
            exact (validateSparseWeight_ok.mp (hvals entry ((mem_insertionSort _).mp hent))).2
          have hmrg : ((mergeDimensions sum (vs.insertionSort fun a b => a.1 ≤ b.1)).map fst).Pairwise (· < ·) ∧
              ∀ entry ∈ mergeDimensions sum (vs.insertionSort fun a b => a.1 ≤ b.1), isNegative entry.2 = false := by
            cases hents : vs.insertionSort fun a b => a.1 ≤ b.1 with
            | nil => exact ⟨List.Pairwise.nil, fun entry hent => (not_mem_nil hent).elim⟩
            | cons fst rest =>
              rw [hents] at hsort hpos
              obtain ⟨hasc, hmem⟩ := @mergeAfter_spec sum fst rest (hpos fst mem_cons_self) hsort
                fun entry hent => hpos entry (mem_cons_of_mem _ hent)
              exact ⟨hasc, fun entry hent => (hmem entry hent).2⟩
          refine ⟨?_, by simpa using hnemp, ?_, ?_, ?_⟩
          · exact hmrg.1.sublist (filter_sublist.map _)
          · intro entry hent
            exact validateFinite_ok.mp (forM_ok_iff.mp hfin entry hent)
          · intro entry hent
            exact hmrg.2 entry (mem_of_mem_filter hent)
          · intro entry hent
            simpa using of_mem_filter hent

theorem canonicalize_canonical {vs : SparseVector} (h : Canonical vs) : canonicalizeSparseVector sum vs = .ok (some vs) := by
  have hchk : vs.forM validateSparseWeight = .ok () :=
    forM_ok_iff.mpr fun entry hent => validateSparseWeight_ok.mpr ⟨h.finite entry hent, h.not_negative entry hent⟩
  have hfin : (vs.forM fun entry => validateFiniteVectorComponent "sparse vector" entry.2) = .ok () :=
    forM_ok_iff.mpr fun entry hent => validateFinite_ok.mpr (h.finite entry hent)
  have hsort : (vs.insertionSort fun a b => a.1 ≤ b.1) = vs := by
    refine List.Pairwise.insertionSort_eq ?_
    have hasc := h.ascending
    rw [pairwise_map] at hasc
    exact hasc.imp fun hlt => hlt.le
  have hmrg : mergeDimensions sum vs = vs := by
    cases vs with
    | nil => rfl
    | cons fst rest => exact mergeAfter_ascending fst rest h.ascending
  have hkept : (vs.filter fun entry => !isZero entry.2) = vs := by
    apply filter_eq_self.mpr
    intro entry hent
    rw [h.not_zero entry hent]
    rfl
  have hnemp : vs.isEmpty = false := by simpa using h.nonempty
  rw [canonicalizeSparseVector, hsort, hmrg, hkept, hchk, hnemp]
  change (if vs.isEmpty = true then _ else _) = _
  rw [hnemp]
  change (vs.forM _ >>= _) = _
  rw [hfin]
  rfl

end

section
variable (sum : WeightSum) (denseConfig : Option DenseVectorConfig)

def normalizeDenseVector : Option DenseVector → Except EngineError (Option DenseVector)
  | some vs =>
    match denseConfig with
    | none => .error (.invalidOperation "dense vector writes require DbOptions::dense_vector to be configured")
    | some config => validateDenseVector config vs >>= fun _ => .ok (some vs)
  | none => .ok none

def normalizeSparseVector : Option SparseVector → Except EngineError (Option SparseVector)
  | some vs => canonicalizeSparseVector sum vs
  | none => .ok none

def normalizeNodeVectorsForWrite (dense : Option DenseVector) (sparse : Option SparseVector) :
    Except EngineError (Option DenseVector × Option SparseVector) := do
  let dense ← normalizeDenseVector denseConfig dense
  let sparse ← normalizeSparseVector sum sparse
  .ok (dense, sparse)

def normalizeWalOpForWrite : WalOp → Except EngineError WalOp
  | .upsertNode node => do
    let vectors ← normalizeNodeVectorsForWrite sum denseConfig node.denseVector node.sparseVector
    .ok (.upsertNode { node with denseVector := vectors.1, sparseVector := vectors.2 })
  | .beginAtomicBatch _ _ | .commitAtomicBatch _ _ => .error (.invalidOperation "WAL atomic batch markers are not write operations")
  | op => .ok op

/-- A vector that replay refuses makes the log corrupt. -/
def replayError : WalOp → EngineError → EngineError
  | .upsertNode node, .invalidOperation msg =>
    .corruptWal ("invalid vector payload for replayed node " ++ toString node.id ++ " (key=" ++ node.key ++ "): " ++ msg)
  | _, error => error

def normalizeWalOpForReplay (op : WalOp) : Except EngineError WalOp :=
  match normalizeWalOpForWrite sum denseConfig op with
  | .ok normal => .ok normal
  | .error error => .error (replayError op error)

variable {sum denseConfig}

theorem normalizeNodeVectors_normal {dense normalDense : Option DenseVector} {sparse normalSparse : Option SparseVector}
    (h : normalizeNodeVectorsForWrite sum denseConfig dense sparse = .ok (normalDense, normalSparse)) :
    normalizeNodeVectorsForWrite sum denseConfig normalDense normalSparse = .ok (normalDense, normalSparse) := by
  obtain ⟨checked, hchk, h⟩ := bind_ok h
  obtain ⟨canonical, hcan, h⟩ := bind_ok h
  obtain ⟨rfl, rfl⟩ := mk.inj (ok.inj h)
  have hdense : normalizeDenseVector denseConfig checked = .ok checked := by
    cases dense with
    | none =>
      obtain rfl := ok.inj hchk
      rfl
    | some vs =>
      cases denseConfig with
      | none => cases hchk
      | some config =>
        obtain ⟨passed, hpassed, hsame⟩ := bind_ok hchk
        obtain rfl := ok.inj hsame
        rw [normalizeDenseVector, hpassed]
        rfl
  have hsparse : normalizeSparseVector sum canonical = .ok canonical := by
    cases canonical with
    | none => rfl
    | some vs =>
      cases sparse with
      | none => cases hcan
      | some src => exact canonicalize_canonical (canonical_of_canonicalize hcan)
  rw [normalizeNodeVectorsForWrite, hdense, ok_bind, hsparse, ok_bind]

theorem normalizeWalOp_normal {op normal : WalOp} (h : normalizeWalOpForWrite sum denseConfig op = .ok normal) :
    normalizeWalOpForWrite sum denseConfig normal = .ok normal := by
  cases op with
  | upsertNode node =>
    obtain ⟨⟨dense, sparse⟩, hvecs, h⟩ := bind_ok h
    obtain rfl := ok.inj h
    rw [normalizeWalOpForWrite, normalizeNodeVectors_normal hvecs]
    rfl
  | beginAtomicBatch firstSeq opCount | commitAtomicBatch firstSeq opCount => cases h
  | _ =>
    obtain rfl := ok.inj h
    rfl

theorem normalizeForReplay_normal {op : WalOp} (h : normalizeWalOpForWrite sum denseConfig op = .ok op) :
    normalizeWalOpForReplay sum denseConfig op = .ok op := by
  rw [normalizeWalOpForReplay, h]

end

end OverGraph.VectorForms
