import OverGraph.LabelRecovery

/-!
# Labels along runs

The manifest and the log together always hold one id for each label and one label for each
id; the running engine knows exactly these, and the log never leans on a creation record that
is neither before it nor in the manifest.
-/

namespace OverGraph.LabelRecovery

open Option hiding any_eq_true max_le mem_map mem_map_of_mem or_assoc
open LabelCatalogs LabelResolutionPlan List RuntimeLabelCatalog State

variable {assigned : Assignment} {space : LabelSpace}

theorem coherent_readable (h : Coherent assigned)
    {man : ManifestTokens} (hsub : ∀ label id, man.tokens.lookup label = some id → assigned space label id)
    (hbd : ∀ label id, man.tokens.lookup label = some id → id < man.nextLabelId)
    (hnext : 0 < man.nextLabelId) : RuntimeLabelCatalog.Readable man where
  injective label other id hid hoth := h.injective (hsub label id hid) (hsub other id hoth)
  bound := hbd
  positive label id hid := h.positive (hsub label id hid)
  valid label id hid := h.valid (hsub label id hid)
  next_pos := hnext

/-- What a manifest write does: it keeps what the manifest holds and adds labels of an assignment. -/
structure Writes (assigned : Assignment) (before after : Manifest) : Prop where
  readable : ∀ space, RuntimeLabelCatalog.Readable (after space)
  keeps : ∀ space label id, manifestKnows before space label id → manifestKnows after space label id
  sub : ∀ space label id, manifestKnows after space label id → assigned space label id

theorem Writes.trans {before mid after : Manifest} (h : Writes assigned before mid)
    (h' : Writes assigned mid after) : Writes assigned before after where
  readable := h'.readable
  keeps space label id hkn := h'.keeps space label id (h.keeps space label id hkn)
  sub := h'.sub

variable {cats : Catalogs} {man : Manifest}

/-- A checkpoint of the catalogs adds the labels of the generations that may be retired. -/
theorem mergeCheckpointed_writes (hcoh : Coherent assigned)
    (hsub : ∀ space label id, runtimeKnows cats space label id → assigned space label id)
    (hrdbl : ∀ space, RuntimeLabelCatalog.Readable (man space))
    (hman : ∀ space label id, manifestKnows man space label id → assigned space label id)
    (maxWalGen : Option ℕ) :
    Writes assigned man (mergeCheckpointedLabelCatalog cats man maxWalGen) := by
  have hlk : ∀ space label id,
      manifestKnows (mergeCheckpointedLabelCatalog cats man maxWalGen) space label id ↔
        manifestKnows man space label id ∨ (runtimeKnows cats space label id ∧
          (cats space).isCheckpointed (man space) maxWalGen label id = true) := by
    intro space label id
    refine lookup_checkpointTokens ?_ maxWalGen label id
    intro label id other hid hoth
    exact hcoh.functional (hman space label id hid) (hsub space label other hoth)
  have hsub' : ∀ space label id,
      manifestKnows (mergeCheckpointedLabelCatalog cats man maxWalGen) space label id → assigned space label id := by
    intro space label id hkn
    rcases (hlk space label id).mp hkn with hkn | hkn
    · exact hman space label id hkn
    · exact hsub space label id hkn.1
  refine ⟨fun space => ?_, fun space label id hkn => (hlk space label id).mpr (Or.inl hkn), hsub'⟩
  refine coherent_readable hcoh (hsub' space) ?_ ?_
  · intro label id hid
    exact lt_of_le_of_lt (le_maxTokenId hid) (lt_of_lt_of_le (Nat.lt_succ_self _) (le_max_right _ _))
  · exact lt_of_lt_of_le (hrdbl space).next_pos (le_max_left _ _)

/-- A label whose creation record is in a generation that may be retired is in the manifest. -/
theorem mergeCheckpointed_knows {gen maxGeneration : ℕ} {label : String} {id : ℕ}
    (hagree : ∀ label id other, manifestKnows man space label id → runtimeKnows cats space label other → id = other)
    (hkn : runtimeKnows cats space label id)
    (hgen : (cats space).labelWalGeneration.lookup label = some gen)
    (hle : gen ≤ maxGeneration) :
    manifestKnows (mergeCheckpointedLabelCatalog cats man (some maxGeneration)) space label id := by
  refine (lookup_checkpointTokens hagree (some maxGeneration) label id).mpr (Or.inr ⟨hkn, ?_⟩)
  simp [isCheckpointed, hgen, hle]

theorem mergeCheckpointed_next {maxWalGen : Option ℕ} {n : ℕ}
    (hpos : 0 < n) (hnext : (man space).nextLabelId ≤ n) (hbd : ∀ label id,
      manifestKnows (mergeCheckpointedLabelCatalog cats man maxWalGen) space label id → id < n) :
    (mergeCheckpointedLabelCatalog cats man maxWalGen space).nextLabelId ≤ n := by
  have hmax : maxTokenId
      ((cats space).checkpointTokens (man space) maxWalGen) ≤ n - 1 := by
    apply maxTokenId_le
    intro label id hid
    have hlt := hbd label id hid
    omega
  exact max_le hnext (by omega)

/-- Staging a label that agrees with the assignment enters it. -/
theorem stageLabelToken_ok (hcoh : Coherent assigned)
    {man : ManifestTokens} (hrdbl : RuntimeLabelCatalog.Readable man)
    (hman : ∀ label id, man.tokens.lookup label = some id → assigned space label id)
    {label : String} {id : ℕ} (hasg : assigned space label id) :
    ∃ after, stageLabelToken man label id = .ok after ∧ RuntimeLabelCatalog.Readable after ∧
      (∀ other otherId, after.tokens.lookup other = some otherId ↔
        man.tokens.lookup other = some otherId ∨ (other = label ∧ otherId = id)) ∧
      after.nextLabelId ≤ max man.nextLabelId (id + 1) := by
  rw [stageLabelToken, if_neg (by rw [hcoh.valid hasg]; exact Bool.noConfusion)]
  cases hlk : man.tokens.lookup label with
  | some existing =>
    obtain rfl := hcoh.functional (hman label existing hlk) hasg
    refine ⟨man, if_pos rfl, hrdbl, ?_, le_max_left _ _⟩
    intro other otherId
    refine ⟨Or.inl, ?_⟩
    rintro (hoth | ⟨rfl, rfl⟩)
    · exact hoth
    · exact hlk
  | none =>
    have hfree : ¬(man.tokens.entries.any fun ent => decide (ent.2 = id)) = true := by
      intro hany
      obtain ⟨⟨other, otherId⟩, hmem, heq⟩ := any_eq_true.mp hany
      obtain rfl : otherId = id := of_decide_eq_true heq
      have hoth : man.tokens.lookup other = some otherId := AList.mem_lookup_iff.mpr hmem
      rw [hcoh.injective (hman other otherId hoth) hasg, hlk] at hoth
      cases hoth
    have hins : ∀ other otherId, (man.tokens.insert label id).lookup other = some otherId ↔
        man.tokens.lookup other = some otherId ∨ (other = label ∧ otherId = id) := by
      intro other otherId
      by_cases hoth : other = label
      · rw [hoth, AList.lookup_insert, hlk]
        simp [eq_comm]
      · rw [AList.lookup_insert_ne hoth]
        simp [hoth]
    have hsub : ∀ other otherId, (man.tokens.insert label id).lookup other = some otherId → assigned space other otherId := by
      intro other otherId hoth
      rcases (hins other otherId).mp hoth with hoth | ⟨rfl, rfl⟩
      · exact hman other otherId hoth
      · exact hasg
    refine ⟨_, if_neg hfree, ?_, hins, le_rfl⟩
    refine coherent_readable hcoh hsub ?_ ?_
    · intro other otherId hoth
      rcases (hins other otherId).mp hoth with hoth | ⟨-, rfl⟩
      · exact lt_of_lt_of_le (hrdbl.bound other otherId hoth) (le_max_left _ _)
      · exact lt_of_lt_of_le (Nat.lt_succ_self _) (le_max_right _ _)
    · exact lt_of_lt_of_le hrdbl.next_pos (le_max_left _ _)

theorem stageLabelTokens_ok (hcoh : Coherent assigned)
    {entries : List (LabelSpace × String × ℕ)} (hrdbl : ∀ space, RuntimeLabelCatalog.Readable (man space))
    (hman : ∀ space label id, manifestKnows man space label id → assigned space label id)
    (hents : ∀ ent ∈ entries, assigned ent.1 ent.2.1 ent.2.2) :
    ∃ after, stageLabelTokens man entries = .ok after ∧ Writes assigned man after ∧
      (∀ ent ∈ entries, manifestKnows after ent.1 ent.2.1 ent.2.2) ∧
      ∀ space n, (man space).nextLabelId ≤ n → (∀ label id, assigned space label id → id < n) → (after space).nextLabelId ≤ n := by
  induction entries generalizing man with
  | nil => exact ⟨man, rfl, ⟨hrdbl, fun _ _ _ hkn => hkn, hman⟩, by simp, fun _ _ hnext _ => hnext⟩
  | cons ent entries ih =>
    obtain ⟨space, label, id⟩ := ent
    have hasg := hents (space, label, id) mem_cons_self
    obtain ⟨tokens, htokens, hread, hlk, hnext⟩ := stageLabelToken_ok hcoh (hrdbl space) (hman space) hasg
    let mid : Manifest := fun other => if other = space then tokens else man other
    have hknows : ∀ other otherLabel otherId, manifestKnows mid other otherLabel otherId ↔
        manifestKnows man other otherLabel otherId ∨ (other = space ∧ otherLabel = label ∧ otherId = id) := by
      intro other otherLabel otherId
      by_cases hoth : other = space
      · simp only [manifestKnows, mid, hoth, if_true, true_and]
        exact hlk otherLabel otherId
      · simp [manifestKnows, mid, hoth]
    have hws : Writes assigned man mid := by
      refine ⟨?_, fun other otherLabel otherId hkn => (hknows other otherLabel otherId).mpr (Or.inl hkn), ?_⟩
      · intro other
        by_cases hoth : other = space
        · simp only [mid, hoth, if_true]
          exact hread
        · simp only [mid, hoth, if_false]
          exact hrdbl other
      · intro other otherLabel otherId hkn
        rcases (hknows other otherLabel otherId).mp hkn with hkn | ⟨rfl, rfl, rfl⟩
        · exact hman other otherLabel otherId hkn
        · exact hasg
    obtain ⟨after, haft, hrest, hin, hbd⟩ := ih hws.readable hws.sub
      fun ent hent => hents ent (mem_cons_of_mem _ hent)
    refine ⟨after, ?_, hws.trans hrest, ?_, ?_⟩
    · rw [stageLabelTokens, htokens]
      exact haft
    · intro ent hent
      rcases mem_cons.mp hent with rfl | hent
      · exact hrest.keeps space label id ((hknows space label id).mpr (Or.inr ⟨rfl, rfl, rfl⟩))
      · exact hin ent hent
    · intro other n hle hlt
      refine hbd other n ?_ hlt
      by_cases hoth : other = space
      · simp only [mid, hoth, if_true]
        rw [hoth] at hle hlt
        exact le_trans hnext (max_le hle (hlt label id hasg))
      · simp only [mid, hoth, if_false]
        exact hle

/-- The catalogs after generations of the log have been replayed. -/
structure Replayed (cats after : Catalogs) (generations : List (ℕ × List (List WalOp))) : Prop where
  wellFormed : ∀ space, (after space).WellFormed
  knows : runtimeKnows after = withOps (runtimeKnows cats) (generations.flatMap (·.2)).flatten
  next_le : ∀ space, (cats space).nextLabelId ≤ (after space).nextLabelId
  kept : ∀ space label gen, (cats space).labelWalGeneration.lookup label = some gen →
    ∃ earlier ≤ gen, (after space).labelWalGeneration.lookup label = some earlier
  recorded : ∀ gen ∈ generations, ∀ space label id, WalOp.ensureLabel space label id ∈ gen.2.flatten →
    ∃ earlier ≤ gen.1, (after space).labelWalGeneration.lookup label = some earlier

theorem withOps_append (known : Assignment) (ops more : List WalOp) : withOps known (ops ++ more) = withOps (withOps known ops) more := by
  funext space label id
  simp [withOps, or_assoc]

theorem withOps_nil (known : Assignment) : withOps known [] = known := by
  funext space label id
  simp [withOps]

theorem Applied.knows_eq {cats after : Catalogs} {walGen : Option ℕ} {ops : List WalOp}
    (h : Applied cats after walGen ops) : runtimeKnows after = withOps (runtimeKnows cats) ops := by
  funext space label id
  exact propext (h.knows space label id)

/-- Replay of generations that agree with a coherent assignment reports no conflict. -/
theorem replayGenerations_ok (generations : List (ℕ × List (List WalOp))) (hwf : ∀ space, (cats space).WellFormed)
    (hcoh : Coherent (withOps (runtimeKnows cats) (generations.flatMap (·.2)).flatten))
    (hgnd : Grounded (runtimeKnows cats) (generations.flatMap (·.2)).flatten) :
    ∃ after, replayGenerations generations cats = .ok after ∧ Replayed cats after generations := by
  induction generations generalizing cats with
  | nil =>
    refine ⟨cats, rfl, hwf, ?_, fun _ => le_rfl, fun _ _ gen h => ⟨gen, le_rfl, h⟩, by simp⟩
    exact (withOps_nil _).symm
  | cons fst generations ih =>
    obtain ⟨gen, batches⟩ := fst
    rw [flatMap_cons, flatten_append] at hcoh hgnd
    obtain ⟨hground, hgroundRest⟩ := grounded_append.mp hgnd
    obtain ⟨mid, hmid, happ⟩ := applyLabelTokenOps_ok hcoh (some gen) hwf
      (fun space label id hkn => Or.inl hkn)
      (fun space label id hmem => Or.inr (mem_append_left _ hmem)) hground
    rw [withOps_append, ← happ.knows_eq] at hcoh
    rw [← happ.knows_eq] at hgroundRest
    obtain ⟨after, haft, hrep⟩ := ih happ.wellFormed hcoh hgroundRest
    refine ⟨after, ?_, hrep.wellFormed, ?_, ?_, ?_, ?_⟩
    · rw [replayGenerations, hmid]
      exact haft
    · rw [hrep.knows, happ.knows_eq, flatMap_cons, flatten_append, withOps_append]
    · intro space
      exact le_trans (happ.next_le space) (hrep.next_le space)
    · intro space label earlier hear
      obtain ⟨before, hle, hbef⟩ := happ.kept space label earlier hear
      obtain ⟨fst, hle', hfst⟩ := hrep.kept space label before hbef
      exact ⟨fst, le_trans hle' hle, hfst⟩
    · intro other hoth space label id hmem
      rcases mem_cons.mp hoth with rfl | hoth
      · obtain ⟨before, hle, hbef⟩ := happ.recorded gen rfl space label id hmem
        obtain ⟨fst, hle', hfst⟩ := hrep.kept space label before hbef
        exact ⟨fst, le_trans hle' hle, hfst⟩
      · exact hrep.recorded other hoth space label id hmem

/-- The operations of the log, oldest first. -/
def logged (s : State) : List WalOp := (s.frozen.flatMap (·.2) ++ s.synced ++ s.buffered).flatten

/-- The labels the manifest and the log hold. -/
def storedKnows (s : State) : Assignment := withOps (manifestKnows s.manifest) (logged s)

structure DiskHolds (s : State) : Prop where
  coherent : Coherent (storedKnows s)
  readable : ∀ space, RuntimeLabelCatalog.Readable (s.manifest space)
  grounded : Grounded (manifestKnows s.manifest) (logged s)
  segments : ∀ rec ∈ s.segments, ∀ ent ∈ rec.labels, manifestKnows s.manifest rec.space ent.1 ent.2
  ordered : (s.frozen.map (·.1)).Pairwise (· ≤ ·)
  frozen_le : ∀ gen ∈ s.frozen, gen.1 ≤ s.activeGeneration
  active_lt : s.activeGeneration < s.nextWalGeneration

/-- A running engine knows what is stored, and for a label in the log a generation no later than
that of its creation record. -/
structure EngineHolds (s : State) (cats : Catalogs) : Prop where
  wellFormed : ∀ space, (cats space).WellFormed
  knows : runtimeKnows cats = storedKnows s
  next_le : ∀ space, (s.manifest space).nextLabelId ≤ (cats space).nextLabelId
  recorded : ∀ gen ∈ s.frozen ++ [(s.activeGeneration, s.synced ++ s.buffered)], ∀ space label id,
    WalOp.ensureLabel space label id ∈ gen.2.flatten → ∃ earlier ≤ gen.1, (cats space).labelWalGeneration.lookup label = some earlier

structure Holds (s : State) : Prop where
  disk : DiskHolds s
  engine : ∀ cats, s.running = some cats → EngineHolds s cats
  stopped : s.running = none → s.buffered = []

/-- The labels that are on disk whatever happens to the engine. -/
def durableKnows (s : State) : Assignment := withOps (manifestKnows s.manifest) (s.frozen.flatMap (·.2) ++ s.synced).flatten

/-- What a step keeps. -/
structure Keeps (s s' : State) : Prop where
  holds : Holds s'
  durable : ∀ space label id, durableKnows s space label id → durableKnows s' space label id

theorem holds_initial : Holds initial := by
  refine ⟨⟨?_, ?_, ?_, ?_, ?_, ?_, ?_⟩, ?_, fun _ => rfl⟩
  · refine ⟨?_, ?_, ?_, ?_⟩ <;> simp [storedKnows, withOps, logged, manifestKnows, initial]
  · intro space
    refine ⟨?_, ?_, ?_, ?_, ?_⟩ <;> simp [initial]
  · trivial
  · simp [initial]
  · simp [initial]
  · simp [initial]
  · simp [initial]
  · simp [initial]

theorem Keeps.trans {s mid s' : State} (h : Keeps s mid) (h' : Keeps mid s') : Keeps s s' :=
  ⟨h'.holds, fun space label id hkn => h'.durable space label id (h.durable space label id hkn)⟩

variable {s : State}

theorem Holds.writeManifest (h : Holds s) (hrun : s.running = some cats)
    (hws : Writes (runtimeKnows cats) s.manifest man)
    (hnext : ∀ space, (man space).nextLabelId ≤ (cats space).nextLabelId) :
    Keeps s { s with manifest := man } := by
  have heng := h.engine cats hrun
  have hsto : storedKnows { s with manifest := man } = storedKnows s := by
    funext space label id
    refine propext ⟨?_, Or.imp_left (hws.keeps space label id)⟩
    rintro (hkn | hmem)
    · rw [← heng.knows]
      exact hws.sub space label id hkn
    · exact Or.inr hmem
  refine ⟨⟨⟨?_, hws.readable, ?_, ?_, h.disk.ordered, h.disk.frozen_le, h.disk.active_lt⟩, ?_, h.stopped⟩, ?_⟩
  · rw [hsto]
    exact h.disk.coherent
  · exact h.disk.grounded.mono hws.keeps
  · intro rec hrec ent hent
    exact hws.keeps _ _ _ (h.disk.segments rec hrec ent hent)
  · intro other hoth
    obtain rfl := some.inj (hrun.symm.trans hoth)
    refine ⟨heng.wellFormed, ?_, hnext, heng.recorded⟩
    rw [hsto]
    exact heng.knows
  · intro space label id
    exact Or.imp_left (hws.keeps space label id)

theorem EngineHolds.coherent (h : EngineHolds s cats) (hdisk : DiskHolds s) : Coherent (runtimeKnows cats) := by
  rw [h.knows]
  exact hdisk.coherent

theorem EngineHolds.manifest_sub (h : EngineHolds s cats) (space : LabelSpace)
    (label : String) (id : ℕ) (hkn : manifestKnows s.manifest space label id) :
    runtimeKnows cats space label id := by
  rw [h.knows]
  exact Or.inl hkn

theorem Holds.writeSynced (h : Holds s) (hrun : s.running = some cats) : Keeps s { s with manifest := mergeRuntimeLabelCatalog cats } := by
  have heng := h.engine cats hrun
  refine h.writeManifest hrun ⟨?_, heng.manifest_sub, fun _ _ _ hkn => hkn⟩ fun _ => le_rfl
  intro space
  exact (heng.wellFormed space).readable

theorem EngineHolds.checkpoint (h : EngineHolds s cats) (hdisk : DiskHolds s) (maxWalGen : Option ℕ) :
    Writes (runtimeKnows cats) s.manifest (mergeCheckpointedLabelCatalog cats s.manifest maxWalGen) ∧
    ∀ space, (mergeCheckpointedLabelCatalog cats s.manifest maxWalGen space).nextLabelId ≤
      (cats space).nextLabelId := by
  have hws := mergeCheckpointed_writes (h.coherent hdisk) (fun _ _ _ hkn => hkn) hdisk.readable
    h.manifest_sub maxWalGen
  refine ⟨hws, fun space => mergeCheckpointed_next (h.wellFormed space).next_pos (h.next_le space) ?_⟩
  intro label id hkn
  exact (h.wellFormed space).bound label id (hws.sub space label id hkn)

theorem Holds.writeCheckpointed (h : Holds s) (hrun : s.running = some cats) (maxWalGen : Option ℕ) :
    Keeps s { s with manifest := mergeCheckpointedLabelCatalog cats s.manifest maxWalGen } := by
  obtain ⟨hws, hnext⟩ := (h.engine cats hrun).checkpoint h.disk maxWalGen
  exact h.writeManifest hrun hws hnext

theorem Holds.syncWal (h : Holds s) : Keeps s { s with synced := s.synced ++ s.buffered, buffered := [] } := by
  have hlog' : logged { s with synced := s.synced ++ s.buffered, buffered := [] } = logged s := by simp [logged]
  have hsto : storedKnows { s with synced := s.synced ++ s.buffered, buffered := [] } = storedKnows s := by
    rw [storedKnows, hlog', storedKnows]
  refine ⟨⟨⟨?_, h.disk.readable, ?_, h.disk.segments, h.disk.ordered, h.disk.frozen_le, h.disk.active_lt⟩, ?_, fun _ => rfl⟩, ?_⟩
  · rw [hsto]
    exact h.disk.coherent
  · rw [hlog']
    exact h.disk.grounded
  · intro other hoth
    have heng := h.engine other hoth
    refine ⟨heng.wellFormed, ?_, heng.next_le, ?_⟩
    · rw [hsto]
      exact heng.knows
    · rw [append_nil]
      exact heng.recorded
  · intro space label id
    refine Or.imp_right fun hmem => ?_
    rw [← append_assoc, flatten_append]
    exact mem_append_left _ hmem

/-- The active generation is frozen and a new one begun. -/
theorem Holds.rotate (h : Holds s) : Keeps s { s with
        frozen := s.frozen ++ [(s.activeGeneration, s.synced ++ s.buffered)]
        activeGeneration := s.nextWalGeneration
        nextWalGeneration := s.nextWalGeneration + 1
        synced := []
        buffered := [] } := by
  generalize hs' : ({ s with
    frozen := s.frozen ++ [(s.activeGeneration, s.synced ++ s.buffered)]
    activeGeneration := s.nextWalGeneration
    nextWalGeneration := s.nextWalGeneration + 1
    synced := []
    buffered := [] } : State) = s'
  have hlog' : logged s' = logged s := by
    subst hs'
    simp [logged]
  have hsto : storedKnows s' = storedKnows s := by
    rw [storedKnows, hlog', storedKnows]
    subst hs'
    rfl
  have hlt := h.disk.active_lt
  refine ⟨⟨⟨?_, ?_, ?_, ?_, ?_, ?_, ?_⟩, ?_, ?_⟩, ?_⟩
  · rw [hsto]
    exact h.disk.coherent
  · subst hs'
    exact h.disk.readable
  · rw [hlog']
    subst hs'
    exact h.disk.grounded
  · subst hs'
    exact h.disk.segments
  · subst hs'
    rw [map_append, pairwise_append]
    refine ⟨h.disk.ordered, pairwise_singleton _ _, ?_⟩
    intro gen hgen active hact
    obtain ⟨fst, hfst, rfl⟩ := mem_map.mp hgen
    rw [map_singleton, mem_singleton] at hact
    rw [hact]
    exact h.disk.frozen_le fst hfst
  · subst hs'
    intro gen hgen
    rcases mem_append.mp hgen with hgen | hgen
    · have hle := h.disk.frozen_le gen hgen
      dsimp only
      omega
    · rw [mem_singleton.mp hgen]
      exact hlt.le
  · subst hs'
    exact Nat.lt_succ_self _
  · intro cats hcats
    have heng : EngineHolds s cats := h.engine cats (by subst hs'; exact hcats)
    refine ⟨heng.wellFormed, ?_, ?_, ?_⟩
    · rw [hsto]
      exact heng.knows
    · subst hs'
      exact heng.next_le
    · subst hs'
      intro gen hgen space label id hmem
      rcases mem_append.mp hgen with hgen | hgen
      · exact heng.recorded gen hgen space label id hmem
      · rw [mem_singleton.mp hgen] at hmem
        cases hmem
  · subst hs'
    exact fun _ => rfl
  · subst hs'
    intro space label id
    refine Or.imp_right fun hmem => ?_
    simp only [flatMap_append, append_nil, flatten_append, mem_append] at hmem ⊢
    rcases hmem with hmem | hmem
    · exact Or.inl hmem
    · refine Or.inr ?_
      simp only [flatMap_cons, flatMap_nil, append_nil, flatten_append, mem_append]
      exact Or.inl hmem

theorem Holds.freeze (h : Holds s) (hrun : s.running = some cats) : Keeps s { s with
        manifest := mergeRuntimeLabelCatalog cats
        frozen := s.frozen ++ [(s.activeGeneration, s.synced ++ s.buffered)]
        activeGeneration := s.nextWalGeneration
        nextWalGeneration := s.nextWalGeneration + 1
        synced := []
        buffered := [] } :=
  (h.writeSynced hrun).trans (h.writeSynced hrun).holds.rotate

variable {batches : List (List WalOp)}

/-- A frozen generation is retired when the manifest has its labels and those of the older ones. -/
theorem Holds.retire (h : Holds s) {before after : List (ℕ × List (List WalOp))} {gen : ℕ}
    (hfrozen : s.frozen = before ++ (gen, batches) :: after)
    (hman : ∀ space label id, WalOp.ensureLabel space label id ∈ (before.flatMap (·.2)).flatten ++ batches.flatten →
      manifestKnows s.manifest space label id) :
    Keeps s { s with frozen := before ++ after, segments := s.segments ++ recordsOf batches.flatten } := by
  generalize hs' : ({ s with
    frozen := before ++ after, segments := s.segments ++ recordsOf batches.flatten } : State) = s'
  obtain ⟨rest, hlog', hlogged'⟩ : ∃ rest,
      logged s = (before.flatMap (·.2)).flatten ++ batches.flatten ++ rest ∧
      logged s' = (before.flatMap (·.2)).flatten ++ rest := by
    refine ⟨(after.flatMap (·.2) ++ s.synced ++ s.buffered).flatten, ?_, ?_⟩
    · simp [logged, hfrozen]
    · subst hs'
      simp [logged]
  have hman' : s'.manifest = s.manifest := by
    subst hs'
    rfl
  have hground := h.disk.grounded
  rw [hlog'] at hground
  obtain ⟨hbef, hrest⟩ := grounded_append.mp hground
  have hsto : storedKnows s' = storedKnows s := by
    funext space label id
    rw [storedKnows, storedKnows, hlog', hlogged', hman']
    refine propext ⟨Or.imp_right fun hmem => ?_, ?_⟩
    · rcases mem_append.mp hmem with hmem | hmem
      · exact mem_append_left _ (mem_append_left _ hmem)
      · exact mem_append_right _ hmem
    · rintro (hkn | hmem)
      · exact Or.inl hkn
      · rcases mem_append.mp hmem with hmem | hmem
        · exact Or.inl (hman space label id hmem)
        · exact Or.inr (mem_append_right _ hmem)
  have hsub : (before ++ after).Sublist s.frozen := by
    rw [hfrozen]
    exact (sublist_cons_self _ _).append_left before
  refine ⟨⟨⟨?_, ?_, ?_, ?_, ?_, ?_, ?_⟩, ?_, ?_⟩, ?_⟩
  · rw [hsto]
    exact h.disk.coherent
  · rw [hman']
    exact h.disk.readable
  · rw [hman', hlogged']
    refine grounded_append.mpr ⟨(grounded_append.mp hbef).1, hrest.mono fun space label id hkn => ?_⟩
    rcases hkn with hkn | hmem
    · exact Or.inl hkn
    · exact Or.inl (hman space label id hmem)
  · rw [hman']
    intro rec hrec ent hent
    have hrec : rec ∈ s.segments ++ recordsOf batches.flatten := by
      subst hs'
      exact hrec
    rcases mem_append.mp hrec with hrec | hrec
    · exact h.disk.segments rec hrec ent hent
    · have hmem : rec ∈ recordsOf ((before.flatMap (·.2)).flatten ++ batches.flatten) := by
        rw [recordsOf, filterMap_append]
        exact mem_append_right _ hrec
      rcases grounded_records hbef hmem hent with hkn | hcre
      · exact hkn
      · exact hman _ _ _ hcre
  · subst hs'
    exact h.disk.ordered.sublist (hsub.map _)
  · subst hs'
    intro other hoth
    exact h.disk.frozen_le other (hsub.subset hoth)
  · subst hs'
    exact h.disk.active_lt
  · intro cats hcats
    have heng : EngineHolds s cats := h.engine cats (by subst hs'; exact hcats)
    refine ⟨heng.wellFormed, ?_, ?_, ?_⟩
    · rw [hsto]
      exact heng.knows
    · rw [hman']
      exact heng.next_le
    · subst hs'
      intro other hoth
      exact heng.recorded other ((hsub.append_right _).subset hoth)
  · subst hs'
    exact h.stopped
  · subst hs'
    intro space label id hkn
    rcases hkn with hkn | hmem
    · exact Or.inl hkn
    · rw [hfrozen] at hmem
      simp only [flatMap_append, flatMap_cons, flatten_append, mem_append] at hmem
      rcases hmem with (hmem | hmem | hmem) | hmem
      · exact Or.inl (hman space label id (mem_append_left _ hmem))
      · exact Or.inl (hman space label id (mem_append_right _ hmem))
      · exact Or.inr (by simp only [flatMap_append, flatten_append, mem_append]; exact Or.inl (Or.inr hmem))
      · exact Or.inr (by simp only [flatten_append, mem_append]; exact Or.inr hmem)

/-- The segment of a frozen generation is published: the checkpoint carries the labels of that
generation and of the older ones. -/
theorem Holds.publish (h : Holds s) (hrun : s.running = some cats)
    {idx gen : ℕ} (hix : s.frozen[idx]? = some (gen, batches)) : Keeps s { s with
        manifest := mergeCheckpointedLabelCatalog cats s.manifest (some gen)
        frozen := s.frozen.eraseIdx idx
        segments := s.segments ++ recordsOf batches.flatten } := by
  have heng := h.engine cats hrun
  have hwr := h.writeCheckpointed hrun (some gen)
  have hfrozen : s.frozen = s.frozen.take idx ++ (gen, batches) :: s.frozen.drop (idx + 1) := by
    obtain ⟨hlt, hget⟩ := List.getElem?_eq_some_iff.mp hix
    rw [← hget, getElem_cons_drop, take_append_drop]
  -- the creation record of a label of such a generation is known to be in it or in an older one
  have hkn : ∀ other ∈ s.frozen, other.1 ≤ gen → ∀ space label id,
      WalOp.ensureLabel space label id ∈ other.2.flatten →
      manifestKnows (mergeCheckpointedLabelCatalog cats s.manifest (some gen)) space label id := by
    intro other hoth hle space label id hmem
    obtain ⟨earlier, hear, hrecd⟩ := heng.recorded other (mem_append_left _ hoth) space label id hmem
    refine mergeCheckpointed_knows ?_ ?_ hrecd (le_trans hear hle)
    · intro label id otherId hid hotherId
      exact (heng.coherent h.disk).functional (heng.manifest_sub space label id hid) hotherId
    · rw [heng.knows]
      refine Or.inr ?_
      rw [logged, flatten_append, flatten_append]
      refine mem_append_left _ (mem_append_left _ ?_)
      obtain ⟨batch, hbatch, hop⟩ := mem_flatten.mp hmem
      exact mem_flatten.mpr ⟨batch, mem_flatMap.mpr ⟨other, hoth, hbatch⟩, hop⟩
  have hretd := hwr.holds.retire hfrozen ?_
  · rw [eraseIdx_eq_take_drop_succ]
    exact hwr.trans hretd
  · intro space label id hmem
    have hmem_frozen : (gen, batches) ∈ s.frozen := mem_of_getElem? hix
    rcases mem_append.mp hmem with hmem | hmem
    · obtain ⟨batch, hbatch, hop⟩ := mem_flatten.mp hmem
      obtain ⟨other, hoth, hbatch⟩ := mem_flatMap.mp hbatch
      refine hkn other (mem_of_mem_take hoth) ?_ space label id (mem_flatten.mpr ⟨batch, hbatch, hop⟩)
      have hord := h.disk.ordered
      rw [hfrozen, map_append, pairwise_append] at hord
      exact hord.2.2 other.1 (mem_map.mpr ⟨other, hoth, rfl⟩) gen (by simp)
    · exact hkn (gen, batches) hmem_frozen le_rfl space label id hmem

theorem Holds.crash (h : Holds s) (kept : ℕ) :
    Keeps s { s with synced := s.synced ++ s.buffered.take kept, buffered := [], running := none } := by
  generalize hs' : ({ s with
    synced := s.synced ++ s.buffered.take kept, buffered := [], running := none } : State) = s'
  have hman' : s'.manifest = s.manifest := by
    subst hs'
    rfl
  have hlog' : logged s = logged s' ++ (s.buffered.drop kept).flatten := by
    subst hs'
    rw [logged, logged, ← flatten_append]
    simp
  have hground := h.disk.grounded
  rw [hlog'] at hground
  refine ⟨⟨⟨?_, ?_, ?_, ?_, ?_, ?_, ?_⟩, ?_, ?_⟩, ?_⟩
  · refine h.disk.coherent.subset fun space label id hkn => ?_
    rw [storedKnows, hman'] at hkn
    rw [storedKnows, hlog']
    exact Or.imp_right (mem_append_left _) hkn
  · rw [hman']
    exact h.disk.readable
  · rw [hman']
    exact (grounded_append.mp hground).1
  · subst hs'
    exact h.disk.segments
  · subst hs'
    exact h.disk.ordered
  · subst hs'
    exact h.disk.frozen_le
  · subst hs'
    exact h.disk.active_lt
  · subst hs'
    intro cats hcats
    cases hcats
  · subst hs'
    exact fun _ => rfl
  · subst hs'
    intro space label id
    refine Or.imp_right fun hmem => ?_
    rw [← append_assoc, flatten_append]
    exact mem_append_left _ hmem

/-- Opening a stopped database reports no conflict, and the engine knows what is stored. -/
theorem DiskHolds.openCatalogs_ok (h : DiskHolds s) (hbuff : s.buffered = []) : ∃ cats, openCatalogs s = .ok cats ∧ EngineHolds s cats := by
  obtain ⟨node, hnode, hnodeWf, hnodeTokens, hnodeNext, -⟩ := fromManifest_ok (h.readable .node)
  obtain ⟨edge, hedge, hedgeWf, hedgeTokens, hedgeNext, -⟩ := fromManifest_ok (h.readable .edge)
  let cats : Catalogs := fun space => space.casesOn node edge
  have hknows : runtimeKnows cats = manifestKnows s.manifest := by
    funext space label id
    cases space with
    | node => rw [runtimeKnows, manifestKnows, ← hnodeTokens]
    | edge => rw [runtimeKnows, manifestKnows, ← hedgeTokens]
  have hops : ((s.frozen ++ [(s.activeGeneration, s.synced)]).flatMap (·.2)).flatten = logged s := by simp [logged, hbuff]
  have hwf : ∀ space, (cats space).WellFormed := by
    intro space
    cases space with
    | node => exact hnodeWf
    | edge => exact hedgeWf
  obtain ⟨after, haft, hrep⟩ := replayGenerations_ok (s.frozen ++ [(s.activeGeneration, s.synced)])
    hwf (by rw [hops, hknows]; exact h.coherent) (by rw [hops, hknows]; exact h.grounded)
  refine ⟨after, ?_, hrep.wellFormed, ?_, ?_, ?_⟩
  · rw [openCatalogs, hnode, hedge]
    refine .trans (congrArg (replayGenerations _) ?_) haft
    funext space
    cases space <;> rfl
  · rw [hrep.knows, hops, hknows]
    rfl
  · intro space
    refine le_trans ?_ (hrep.next_le space)
    cases space with
    | node => exact hnodeNext.ge
    | edge => exact hedgeNext.ge
  · rw [hbuff, append_nil]
    exact hrep.recorded

theorem Holds.openDb (h : Holds s) (hrun : s.running = none)
    (hcats : openCatalogs s = .ok cats) : Keeps s { s with running := some cats } := by
  obtain ⟨opened, hopened, heng⟩ := h.disk.openCatalogs_ok (h.stopped hrun)
  obtain rfl := Except.ok.inj (hopened.symm.trans hcats)
  refine ⟨⟨⟨h.disk.coherent, h.disk.readable, h.disk.grounded, h.disk.segments, h.disk.ordered, h.disk.frozen_le,
    h.disk.active_lt⟩, ?_, ?_⟩, fun _ _ _ hkn => hkn⟩
  · intro other hoth
    obtain rfl := some.inj hoth
    exact ⟨heng.wellFormed, heng.knows, heng.next_le, heng.recorded⟩
  · intro hnone
    cases hnone

/-- A planned write is applied, and the batch can be replayed after what is logged. -/
theorem Holds.write (h : Holds s) (hrun : s.running = some cats)
    {ensured records : List (LabelSpace × List String)} {ops : List WalOp}
    (hops : planWrite cats ensured records = .ok ops) :
    ∃ after, applyLabelTokenOps (some s.activeGeneration) cats ops = .ok after ∧
      Keeps s { s with buffered := s.buffered ++ [ops], running := some after } := by
  have heng := h.engine cats hrun
  obtain ⟨hcoh, hgnd⟩ := planWrite_spec heng.wellFormed hops
  obtain ⟨after, haft, happ⟩ := applyLabelTokenOps_ok hcoh (some s.activeGeneration) heng.wellFormed
    (fun space label id hkn => Or.inl hkn) (fun space label id hmem => Or.inr hmem) hgnd
  refine ⟨after, haft, ?_⟩
  have hlog' : logged { s with buffered := s.buffered ++ [ops], running := some after } = logged s ++ ops := by simp [logged]
  have hsto : storedKnows { s with buffered := s.buffered ++ [ops], running := some after } = withOps (runtimeKnows cats) ops := by
    rw [storedKnows, hlog', withOps_append, heng.knows, storedKnows]
  refine ⟨⟨⟨?_, h.disk.readable, ?_, h.disk.segments, h.disk.ordered, h.disk.frozen_le, h.disk.active_lt⟩, ?_, ?_⟩, fun _ _ _ hkn => hkn⟩
  · rw [hsto]
    exact hcoh
  · rw [hlog']
    refine grounded_append.mpr ⟨h.disk.grounded, ?_⟩
    rw [heng.knows] at hgnd
    exact hgnd
  · intro other hoth
    obtain rfl := some.inj hoth
    refine ⟨happ.wellFormed, ?_, fun space => le_trans (heng.next_le space) (happ.next_le space), ?_⟩
    · rw [hsto]
      exact happ.knows_eq
    · -- a label of an older batch keeps a gen no later than the one it had
      have hold : ∀ gen ∈ s.frozen ++ [(s.activeGeneration, s.synced ++ s.buffered)], ∀ space label id,
          WalOp.ensureLabel space label id ∈ gen.2.flatten →
          ∃ earlier ≤ gen.1, (after space).labelWalGeneration.lookup label = some earlier := by
        intro gen hgen space label id hmem
        obtain ⟨earlier, hle, hear⟩ := heng.recorded gen hgen space label id hmem
        obtain ⟨fst, hle', hfst⟩ := happ.kept space label earlier hear
        exact ⟨fst, le_trans hle' hle, hfst⟩
      intro gen hgen space label id hmem
      rcases mem_append.mp hgen with hgen | hgen
      · exact hold gen (mem_append_left _ hgen) space label id hmem
      · obtain rfl := mem_singleton.mp hgen
        simp only [flatten_append, flatten_singleton, ← append_assoc] at hmem
        rcases mem_append.mp hmem with hmem | hmem
        · refine hold (s.activeGeneration, s.synced ++ s.buffered) (by simp) space label id ?_
          rw [flatten_append]
          exact hmem
        · exact happ.recorded s.activeGeneration rfl space label id hmem
  · intro hnone
    cases hnone

/-- A staging request whose labels can be resolved is carried out. -/
theorem Holds.stage (h : Holds s) (hrun : s.running = some cats)
    {requests : List (LabelSpace × List String)} {resolved : List LabelledRecord} {plan : LabelResolutionPlan}
    (hplan : resolveRecords (fromCatalogs cats) requests = .ok (resolved, plan)) (publishRuntime : Bool) :
    ∃ man after, stageLabels cats s.manifest (checkpointable s) requests publishRuntime = .ok (man, after) ∧
      Keeps s { s with manifest := man, running := some after } := by
  have heng := h.engine cats hrun
  have hspec := resolveRecords_spec (planHolds_fromCatalogs cats) hplan
  have hcoh := hspec.holds.coherent heng.wellFormed
  have hknows := withOps_tokenOps hspec.holds
  have hsub : ∀ space label id, runtimeKnows cats space label id → planKnows plan space label id := by
    intro space label id hkn
    rw [← hknows]
    exact Or.inl hkn
  obtain ⟨after, haft, happ⟩ := applyLabelTokenOps_ok hcoh none heng.wellFormed hsub
    (fun space label id hmem => Or.inr (ensureLabel_mem_tokenOps.mp hmem)) (grounded_tokenOps _ plan)
  have hafter_knows : runtimeKnows after = planKnows plan := by rw [happ.knows_eq, hknows]
  have hbd : ∀ space label id, planKnows plan space label id → id < (after space).nextLabelId := by
    intro space label id hkn
    rw [← hafter_knows] at hkn
    exact (happ.wellFormed space).bound label id hkn
  -- what the labels are staged into, and which labels
  obtain ⟨hchec, hcheckpointNext⟩ := heng.checkpoint h.disk (checkpointable s)
  generalize hbase : (if publishRuntime then mergeRuntimeLabelCatalog cats
    else mergeCheckpointedLabelCatalog cats s.manifest (checkpointable s)) = base
  have hbaseWrites : Writes (runtimeKnows cats) s.manifest base ∧ ∀ space, (base space).nextLabelId ≤ (cats space).nextLabelId := by
    subst hbase
    cases publishRuntime with
    | true =>
      refine ⟨⟨?_, heng.manifest_sub, fun _ _ _ hkn => hkn⟩, fun _ => le_rfl⟩
      intro space
      exact (heng.wellFormed space).readable
    | false => exact ⟨hchec, hcheckpointNext⟩
  generalize hents : (if publishRuntime then (plan.labelsToCreate .node).map (fun ent => (LabelSpace.node, ent)) ++
      (plan.labelsToCreate .edge).map (fun ent => (LabelSpace.edge, ent))
    else resolved.flatMap fun rec => rec.labels.map fun ent => (rec.space, ent)) = entries
  have hentries_known : ∀ ent ∈ entries, planKnows plan ent.1 ent.2.1 ent.2.2 := by
    subst hents
    cases publishRuntime with
    | true =>
      intro ent hent
      rcases mem_append.mp hent with hent | hent
      · obtain ⟨created, hcre, rfl⟩ := mem_map.mp hent
        exact Or.inr hcre
      · obtain ⟨created, hcre, rfl⟩ := mem_map.mp hent
        exact Or.inr hcre
    | false =>
      intro ent hent
      obtain ⟨rec, hrec, hent⟩ := mem_flatMap.mp hent
      obtain ⟨named, hnamed, rfl⟩ := mem_map.mp hent
      exact hspec.names rec hrec named hnamed
  have hcre : ∀ space, ∀ ent ∈ plan.labelsToCreate space, (space, ent) ∈ entries := by
    subst hents
    intro space ent hent
    cases publishRuntime with
    | true =>
      cases space with
      | node => exact mem_append_left _ (mem_map_of_mem hent)
      | edge => exact mem_append_right _ (mem_map_of_mem hent)
    | false =>
      rcases hspec.created space ent hent with hold | ⟨rec, hrec, rfl, hnamed⟩
      · cases hold
      · exact mem_flatMap.mpr ⟨rec, hrec, mem_map_of_mem hnamed⟩
  obtain ⟨staged, hstgd, hstagedWrites, hin, hstagedNext⟩ := stageLabelTokens_ok hcoh
    hbaseWrites.1.readable (fun space label id hkn => hsub space label id (hbaseWrites.1.sub space label id hkn))
    hentries_known
  have hmrg := mergeCheckpointed_writes hcoh hsub hstagedWrites.readable hstagedWrites.sub (checkpointable s)
  refine ⟨mergeCheckpointedLabelCatalog cats staged (checkpointable s), after, ?_, ?_⟩
  · simp only [stageLabels, hplan, hbase, hents, hstgd, haft]
  generalize hfinl : mergeCheckpointedLabelCatalog cats staged (checkpointable s) = final at hmrg
  have hkeeps : ∀ space label id, manifestKnows s.manifest space label id → manifestKnows final space label id := by
    intro space label id hkn
    exact hmrg.keeps _ _ _ (hstagedWrites.keeps _ _ _ (hbaseWrites.1.keeps _ _ _ hkn))
  have hsto : storedKnows { s with manifest := final, running := some after } = planKnows plan := by
    funext space label id
    refine propext ⟨?_, ?_⟩
    · rintro (hkn | hmem)
      · exact hmrg.sub space label id hkn
      · refine hsub space label id ?_
        rw [heng.knows]
        exact Or.inr hmem
    · intro hkn
      rw [← hknows] at hkn
      rcases hkn with hkn | hmem
      · rw [heng.knows] at hkn
        exact Or.imp_left (hkeeps space label id) hkn
      · exact Or.inl (hmrg.keeps _ _ _ (hin _ (hcre space _ (ensureLabel_mem_tokenOps.mp hmem))))
  refine ⟨⟨⟨?_, hmrg.readable, ?_, ?_, h.disk.ordered, h.disk.frozen_le, h.disk.active_lt⟩, ?_, ?_⟩, ?_⟩
  · rw [hsto]
    exact hcoh
  · exact h.disk.grounded.mono hkeeps
  · intro rec hrec ent hent
    exact hkeeps _ _ _ (h.disk.segments rec hrec ent hent)
  · intro other hoth
    obtain rfl := some.inj hoth
    refine ⟨happ.wellFormed, ?_, ?_, ?_⟩
    · rw [hsto]
      exact hafter_knows
    · intro space
      have hstaged_le : (staged space).nextLabelId ≤ (after space).nextLabelId :=
        hstagedNext space _ (le_trans (hbaseWrites.2 space) (happ.next_le space)) (hbd space)
      subst hfinl
      refine mergeCheckpointed_next (happ.wellFormed space).next_pos hstaged_le ?_
      intro label id hkn
      exact hbd space label id (hmrg.sub space label id hkn)
    · intro gen hgen space label id hmem
      obtain ⟨earlier, hle, hear⟩ := heng.recorded gen hgen space label id hmem
      obtain ⟨fst, hle', hfst⟩ := happ.kept space label earlier hear
      exact ⟨fst, le_trans hle' hle, hfst⟩
  · intro hnone
    cases hnone
  · intro space label id
    exact Or.imp_left (hkeeps space label id)

theorem step_keeps {s s' : State} (h : Holds s) {event : Event} (hstep : step s event = some s') : Keeps s s' := by
  cases event with
  | write ensured records =>
    obtain ⟨cats, hrun, hstep⟩ := bind_eq_some_iff.mp hstep
    split at hstep
    · cases hstep
    · rename_i ops hops
      obtain ⟨after, haft, hkeeps⟩ := h.write hrun hops
      rw [haft] at hstep
      rw [← some.inj hstep]
      exact hkeeps
  | stage requests publishRuntime =>
    obtain ⟨cats, hrun, hstep⟩ := bind_eq_some_iff.mp hstep
    cases hplan : resolveRecords (fromCatalogs cats) requests with
    | error error =>
      rw [stageLabels, hplan] at hstep
      cases hstep
    | ok res =>
      obtain ⟨man, after, hstgd, hkeeps⟩ := h.stage hrun hplan publishRuntime
      rw [hstgd] at hstep
      rw [← some.inj hstep]
      exact hkeeps
  | syncWal =>
    obtain ⟨cats, hrun, rfl⟩ := map_eq_some_iff.mp hstep
    exact h.syncWal
  | freeze =>
    obtain ⟨cats, hrun, rfl⟩ := map_eq_some_iff.mp hstep
    exact h.freeze hrun
  | writeSynced =>
    obtain ⟨cats, hrun, rfl⟩ := map_eq_some_iff.mp hstep
    exact h.writeSynced hrun
  | writeCheckpointed maxWalGen =>
    obtain ⟨cats, hrun, rfl⟩ := map_eq_some_iff.mp hstep
    exact h.writeCheckpointed hrun maxWalGen
  | publish idx =>
    obtain ⟨cats, hrun, hstep⟩ := bind_eq_some_iff.mp hstep
    obtain ⟨⟨gen, batches⟩, hix, rfl⟩ := map_eq_some_iff.mp hstep
    exact h.publish hrun hix
  | crash kept =>
    rw [← some.inj hstep]
    exact h.crash kept
  | openDb =>
    rw [step] at hstep
    split at hstep
    · rename_i cats hrun hcats
      rw [← some.inj hstep]
      exact h.openDb hrun hcats
    · cases hstep

theorem run_keeps {s s' : State} (h : Holds s) {events : List Event} (hrun : Runs.run step s events = some s') : Keeps s s' := by
  induction events generalizing s with
  | nil =>
    obtain rfl := some.inj hrun
    exact ⟨h, fun _ _ _ hkn => hkn⟩
  | cons event events ih =>
    obtain ⟨mid, hmid, hrest⟩ := Runs.run_cons_eq_some.mp hrun
    have hkeeps := step_keeps h hmid
    exact hkeeps.trans (ih hkeeps.holds hrest)

def storedRecords (s : State) : List LabelledRecord := s.segments ++ recordsOf (logged s)

/-- Which labels have which ids anywhere: in the engine, in the manifest, in the log and in records. -/
def everywhereKnows (s : State) : Assignment :=
  fun space label id => (∃ cats, s.running = some cats ∧ runtimeKnows cats space label id) ∨ storedKnows s space label id ∨
    ∃ rec ∈ storedRecords s, rec.space = space ∧ (label, id) ∈ rec.labels

variable {rec : LabelledRecord} {ent : String × ℕ}

theorem DiskHolds.records (h : DiskHolds s) (hrec : rec ∈ storedRecords s)
    (hent : ent ∈ rec.labels) : storedKnows s rec.space ent.1 ent.2 := by
  rcases mem_append.mp hrec with hrec | hrec
  · exact Or.inl (h.segments rec hrec ent hent)
  · exact grounded_records h.grounded hrec hent

/-- The labels of a record resolve in an engine that knows what is stored. -/
theorem EngineHolds.resolves (h : EngineHolds s cats) (hdisk : DiskHolds s) (hrec : rec ∈ storedRecords s)
    (hent : ent ∈ rec.labels) : (cats rec.space).idToLabel.lookup ent.2 = some ent.1 := by
  refine ((h.wellFormed rec.space).inverse ent.1 ent.2).mp ?_
  have hkn := hdisk.records hrec hent
  rw [← h.knows] at hkn
  exact hkn

/-- Along every run no id stands for two labels and no label has two ids, in any place that
holds one; the labels of every record resolve to the names it was written with; whenever the
engine stops, what is left on disk opens without a conflict and its records resolve; and the
labels on disk keep their ids ever after. -/
theorem labels_never_confused {events : List Event} {s : State} (hrun : Runs.run step State.initial events = some s) :
    Coherent (everywhereKnows s) ∧
    (∀ cats, s.running = some cats → ∀ rec ∈ storedRecords s, ∀ ent ∈ rec.labels,
      (cats rec.space).idToLabel.lookup ent.2 = some ent.1) ∧
    (∀ cats, s.running = some cats → ∀ ensured records ops, planWrite cats ensured records = .ok ops →
      ∃ after, applyLabelTokenOps (some s.activeGeneration) cats ops = .ok after) ∧
    (∀ cats, s.running = some cats → ∀ requests result publishRuntime,
      resolveRecords (fromCatalogs cats) requests = .ok result →
      ∃ staged, stageLabels cats s.manifest (checkpointable s) requests publishRuntime = .ok staged) ∧
    (∀ kept, ∃ left cats, step s (.crash kept) = some left ∧ openCatalogs left = .ok cats ∧
      ∀ rec ∈ storedRecords left, ∀ ent ∈ rec.labels,
        (cats rec.space).idToLabel.lookup ent.2 = some ent.1) ∧
    ∀ more s', Runs.run step s more = some s' → ∀ space label id,
      durableKnows s space label id → durableKnows s' space label id := by
  have hholds := (run_keeps holds_initial hrun).holds
  refine ⟨?_, ?_, ?_, ?_, ?_, ?_⟩
  · refine hholds.disk.coherent.subset fun space label id hknown => ?_
    rcases hknown with ⟨cats, hrunning, hknown⟩ | hknown | ⟨rec, hrecord, rfl, hentry⟩
    · rw [(hholds.engine cats hrunning).knows] at hknown
      exact hknown
    · exact hknown
    · exact hholds.disk.records hrecord hentry
  · intro cats hrunning rec hrecord ent hentry
    exact (hholds.engine cats hrunning).resolves hholds.disk hrecord hentry
  · intro cats hrunning ensured records ops hops
    obtain ⟨after, hafter, -⟩ := hholds.write hrunning hops
    exact ⟨after, hafter⟩
  · intro cats hrunning requests result publishRuntime hplan
    obtain ⟨man, after, hstaged, -⟩ := hholds.stage hrunning hplan publishRuntime
    exact ⟨_, hstaged⟩
  · intro kept
    have hleft := (hholds.crash kept).holds
    obtain ⟨cats, hcatalogs, hengine⟩ := hleft.disk.openCatalogs_ok (hleft.stopped rfl)
    exact ⟨_, cats, rfl, hcatalogs, fun rec hrecord ent hentry => hengine.resolves hleft.disk hrecord hentry⟩
  · intro more s' hmore
    exact (run_keeps hholds hmore).durable

/-- A label is logged, another one staged, a generation frozen, a third label lost with the
log that was not synced, and its id given to a fourth one. -/
def exampleEvents : List Event :=
  [.openDb, .write [] [(.node, ["Person"])], .stage [(.edge, ["KNOWS"])] false, .syncWal, .freeze,
    .write [] [(.node, ["City", "Person"])], .crash 0, .openDb, .write [] [(.node, ["Town"])], .publish 0]

theorem exampleEvents_labels : ∃ s, Runs.run step State.initial exampleEvents = some s ∧
    (storedRecords s).length = 2 ∧ Coherent (everywhereKnows s) := by
  obtain ⟨s, hs, hlen⟩ := map_eq_some_iff.mp
    (show (Runs.run step State.initial exampleEvents).map (fun s => (storedRecords s).length) = some 2 by decide +kernel)
  exact ⟨s, hs, hlen, (labels_never_confused hs).1⟩

end OverGraph.LabelRecovery
