import Mathlib.Order.Lattice
import OverGraph.Runs

/-!
# The manifest files

A manifest is replaced by writing a temporary file, moving the current file out of the way and the
temporary one into its place. A crash may come between any two steps, and may cut a file that is not
yet synced. What the next load finds is read from the files that are there.
-/

namespace OverGraph.ManifestFiles
open Runs List

/-- The text of a file, if its bytes are one. -/
def readToString (content : ByteArray) : Option String := String.fromUTF8? content

theorem readToString_toByteArray (text : String) : readToString text.toByteArray = some text := by
  rw [readToString, String.fromUTF8?, dif_pos text.isValidUTF8]
  rfl

/-- How manifests are printed, parsed, brought into their normal form and checked. A text that is cut
short does not parse, and a manifest that is not dirty is left as it is. -/
structure ManifestFormat (S E : Type) where
  toStringPretty : S → String
  fromStr : String → Option S
  normalizeSchemaManifest : S → Except E (S × Bool)
  validateManifestIdentity : S → Except E Unit
  fromStr_toStringPretty : ∀ state, fromStr (toStringPretty state) = some state
  fromStr_cut : ∀ state kept text, kept < (toStringPretty state).toByteArray.size →
    readToString ((toStringPretty state).toByteArray.extract 0 kept) = some text → fromStr text = none
  unchanged : ∀ state normal, normalizeSchemaManifest state = .ok (normal, false) → normal = state

/-- The files `manifest.current`, `manifest.tmp` and `manifest.prev` of a database directory. -/
structure ManifestDir where
  current : Option ByteArray
  tmp : Option ByteArray
  prev : Option ByteArray

inductive DiskStep where
  | createTmp
  | writeTmp (content : ByteArray)
  | syncTmp
  | removePrev
  | renameCurrentToPrev
  | renameTmpToCurrent
  | fsyncDir

namespace ManifestDir

def apply (dir : ManifestDir) : DiskStep → ManifestDir
  | .createTmp => { dir with tmp := some .empty }
  | .writeTmp content => { dir with tmp := some content }
  | .syncTmp => dir
  | .removePrev => { dir with prev := none }
  | .renameCurrentToPrev => { dir with current := none, prev := dir.current }
  | .renameTmpToCurrent => { dir with current := dir.tmp, tmp := none }
  | .fsyncDir => dir

def applyAll (dir : ManifestDir) (steps : List DiskStep) : ManifestDir := steps.foldl apply dir

/-- What a crash leaves: the steps that were taken, and of a file that was written last and not synced
its first bytes. -/
def crashed (dir : ManifestDir) (steps : List DiskStep) (taken kept : ℕ) : ManifestDir :=
  let left := dir.applyAll (steps.take taken)
  match (steps.take taken).getLast? with
  | some (.writeTmp content) => { left with tmp := some (content.extract 0 kept) }
  | _ => left

end ManifestDir

inductive LoadError (E : Type) where
  | invalidUtf8
  | refused (error : E)

section
variable {S E : Type} (fmt : ManifestFormat S E)

def fileOf (state : S) : ByteArray := (fmt.toStringPretty state).toByteArray

def writeManifest (dir : ManifestDir) (state : S) : List DiskStep :=
  [.createTmp, .writeTmp (fileOf fmt state), .syncTmp] ++
    (if dir.current.isSome then (if dir.prev.isSome then [.removePrev] else []) ++ [.renameCurrentToPrev] else []) ++
    [.renameTmpToCurrent, .fsyncDir]

/-- A manifest in its normal form, and whether that changed it. -/
def accepted (state : S) : Except (LoadError E) (S × Bool) :=
  match fmt.normalizeSchemaManifest state with
  | .error error => .error (.refused error)
  | .ok (normal, dirty) =>
    match fmt.validateManifestIdentity normal with
    | .error error => .error (.refused error)
    | .ok () => .ok (normal, dirty)

def tryLoadManifestFileForWrite : Option ByteArray → Except (LoadError E) (Option (S × Bool))
  | none => .ok none
  | some content =>
    match readToString content with
    | none => .error .invalidUtf8
    | some text =>
      match fmt.fromStr text with
      | none => .ok none
      | some state => (accepted fmt state).map some

def loadManifest (dir : ManifestDir) : Except (LoadError E) (Option S × List DiskStep) :=
  match tryLoadManifestFileForWrite fmt dir.current with
  | .error error => .error error
  | .ok (some (state, dirty)) => .ok (some state, if dirty then writeManifest fmt dir state else [])
  | .ok none =>
    match tryLoadManifestFileForWrite fmt dir.tmp with
    | .error error => .error error
    | .ok (some (state, dirty)) => .ok (some state, if dirty then writeManifest fmt dir state else [.renameTmpToCurrent, .fsyncDir])
    | .ok none =>
      match tryLoadManifestFileForWrite fmt dir.prev with
      | .error error => .error error
      | .ok (some (state, _)) => .ok (some state, writeManifest fmt dir state)
      | .ok none => .ok (none, [])

/-- What loading returns. -/
def loaded (dir : ManifestDir) : Except (LoadError E) (Option S) := (loadManifest fmt dir).map Prod.fst

/-- What reading the file of a manifest back returns: its normal form, if the checks accept it. -/
def readBack (state : S) : Except (LoadError E) S := (accepted fmt state).map Prod.fst

/-- The files, the manifest of the last write that completed, those of the writes begun since, and
whether the process crashed and has not loaded the manifest again. -/
structure ManifestRun (S : Type) where
  dir : ManifestDir
  completed : Option S
  begun : List S
  down : Bool

def ManifestRun.fresh : ManifestRun S := ⟨⟨none, none, none⟩, none, [], false⟩

/-- Writes and loads, and those that a crash ends after some of their steps. -/
inductive Event (S : Type) where
  | write (state : S)
  | writeCrash (state : S) (taken kept : ℕ)
  | load
  | loadCrash (taken kept : ℕ)

namespace ManifestRun
variable (st : ManifestRun S)

/-- The manifests a load may return. -/
def candidates : List S := st.completed.toList ++ st.begun

/-- After a crash the manifest is loaded before it is written. A load that writes is a write too. -/
def step : Event S → Option (ManifestRun S)
  | .write state =>
    if st.down then none
    else some ⟨st.dir.applyAll (writeManifest fmt st.dir state), some state, [], false⟩
  | .writeCrash state taken kept =>
    if st.down then none
    else some ⟨st.dir.crashed (writeManifest fmt st.dir state) taken kept, st.completed, st.begun ++ [state], true⟩
  | .load =>
    match loadManifest fmt st.dir with
    | .error _ => none
    | .ok (some state, steps) => some ⟨st.dir.applyAll steps, some state, [], false⟩
    | .ok (none, steps) => some ⟨st.dir.applyAll steps, st.completed, [], false⟩
  | .loadCrash taken kept =>
    match loadManifest fmt st.dir with
    | .error _ => some { st with down := true }
    | .ok (found, steps) => some ⟨st.dir.crashed steps taken kept, st.completed, st.begun ++ found.toList, true⟩

/-- Once a write completed, a load returns the manifest of the last one that did or of one begun since,
as its file is read back. No load returns any other manifest. -/
def Restores : Prop :=
  (st.completed.isSome → ∃ state ∈ st.candidates, loaded fmt st.dir = (readBack fmt state).map some) ∧
    ∀ normal, loaded fmt st.dir = .ok (some normal) → ∃ state ∈ st.candidates, readBack fmt state = .ok normal

/-- The step does not leave a `manifest.tmp` that is cut inside a character while there is no
`manifest.current`. -/
def KeepsText (e : Event S) : Prop :=
  match e with
  | .loadCrash taken kept => st.completed.isSome → st.dir.current = none → ∀ found steps,
      loadManifest fmt st.dir = .ok (found, steps) → ∀ content, (steps.take taken).getLast? = some (.writeTmp content) →
        (readToString (content.extract 0 kept)).isSome
  | _ => True

end ManifestRun

section
variable {fmt} {dir : ManifestDir} {state : S}

theorem tryLoad_none : tryLoadManifestFileForWrite fmt none = .ok none := rfl

theorem tryLoad_fileOf : tryLoadManifestFileForWrite fmt (some (fileOf fmt state)) = (accepted fmt state).map some := by
  rw [tryLoadManifestFileForWrite, fileOf]
  simp only [readToString_toByteArray, fmt.fromStr_toStringPretty]

/-- A file that is a text and no manifest is passed over. -/
def Unread (fmt : ManifestFormat S E) (content : ByteArray) : Prop := ∃ text, readToString content = some text ∧ fmt.fromStr text = none

theorem Unread.tryLoad {content : ByteArray} (h : Unread fmt content) : tryLoadManifestFileForWrite fmt (some content) = .ok none := by
  obtain ⟨text, htext, hparse⟩ := h
  simp only [tryLoadManifestFileForWrite, htext, hparse]

theorem extract_all (content : ByteArray) {kept : ℕ} (h : content.size ≤ kept) : content.extract 0 kept = content := by
  rw [← max_eq_left h]
  exact ByteArray.extract_zero_max_size

/-- The first bytes of a file are the file or, where they are a text, no manifest. -/
theorem cut_fileOf (fmt : ManifestFormat S E) (state : S) (kept : ℕ)
    (htext : (readToString ((fileOf fmt state).extract 0 kept)).isSome) :
    (fileOf fmt state).extract 0 kept = fileOf fmt state ∨ Unread fmt ((fileOf fmt state).extract 0 kept) := by
  by_cases hkept : kept < (fileOf fmt state).size
  · obtain ⟨text, htext⟩ := Option.isSome_iff_exists.mp htext
    exact Or.inr ⟨text, htext, fmt.fromStr_cut state kept text hkept htext⟩
  · exact Or.inl (extract_all _ (not_lt.mp hkept))

theorem unread_empty (fmt : ManifestFormat S E) (state : S) : ByteArray.empty = fileOf fmt state ∨ Unread fmt ByteArray.empty := by
  have hcut := cut_fileOf fmt state 0
  rw [ByteArray.extract_same] at hcut
  exact hcut rfl

/-- What a write that a crash ends can leave. -/
inductive Left (dir : ManifestDir) (content : ByteArray) (steps : List DiskStep) (taken kept : ℕ) : ManifestDir → Prop where
  | untouched : Left dir content steps taken kept dir
  | emptied (prev) (hprev : dir.current = none → prev = dir.prev) : Left dir content steps taken kept ⟨dir.current, some .empty, prev⟩
  | cut (prev) (hprev : dir.current = none → prev = dir.prev) (hlast : (steps.take taken).getLast? = some (.writeTmp content)) :
    Left dir content steps taken kept ⟨dir.current, some (content.extract 0 kept), prev⟩
  | written (prev) (hprev : dir.current = none → prev = dir.prev) : Left dir content steps taken kept ⟨dir.current, some content, prev⟩
  | moved (hsome : dir.current.isSome) : Left dir content steps taken kept ⟨none, some content, dir.current⟩
  | replaced (prev) : Left dir content steps taken kept ⟨some content, none, prev⟩

theorem left_crashed (dir : ManifestDir) (state : S) (taken kept : ℕ) : Left dir (fileOf fmt state) (writeManifest fmt dir state) taken kept
      (dir.crashed (writeManifest fmt dir state) taken kept) := by
  obtain ⟨current, tmp, prev⟩ := dir
  cases current with
  | none =>
    match taken with
    | 0 => exact .untouched
    | 1 => exact .emptied prev fun _ => rfl
    | 2 => exact .cut prev (fun _ => rfl) rfl
    | 3 => exact .written prev fun _ => rfl
    | 4 | 5 | _ + 6 => exact .replaced prev
  | some current =>
    cases prev with
    | none =>
      match taken with
      | 0 => exact .untouched
      | 1 => exact .emptied none fun h => (nomatch h)
      | 2 => exact .cut none (fun h => (nomatch h)) rfl
      | 3 => exact .written none fun h => (nomatch h)
      | 4 => exact .moved rfl
      | 5 | 6 | _ + 7 => exact .replaced (some current)
    | some prev =>
      match taken with
      | 0 => exact .untouched
      | 1 => exact .emptied (some prev) fun h => (nomatch h)
      | 2 => exact .cut (some prev) (fun h => (nomatch h)) rfl
      | 3 => exact .written (some prev) fun h => (nomatch h)
      | 4 => exact .written none fun h => (nomatch h)
      | 5 => exact .moved rfl
      | 6 | 7 | _ + 8 => exact .replaced (some current)

theorem current_applyAll (dir : ManifestDir) (state : S) : (dir.applyAll (writeManifest fmt dir state)).current = some (fileOf fmt state) ∧
      (dir.applyAll (writeManifest fmt dir state)).tmp = none := by
  obtain ⟨current, tmp, prev⟩ := dir
  cases current <;> cases prev <;> exact ⟨rfl, rfl⟩

/-- The current file is that of a manifest a load may return. Where it is missing the backup is such a file,
if there is one, and the temporary file is one or is passed over. After a write that completed there is a
backup, the process is down, and the temporary file is a text. -/
structure Sound (fmt : ManifestFormat S E) (st : ManifestRun S) : Prop where
  current : ∀ content, st.dir.current = some content → ∃ state ∈ st.candidates, content = fileOf fmt state
  tmp : ∀ content, st.dir.tmp = some content → ∃ state kept, content = (fileOf fmt state).extract 0 kept
  prev : st.dir.current = none → ∀ content, st.dir.prev = some content → ∃ state ∈ st.candidates, content = fileOf fmt state
  window : st.dir.current = none → ∀ content, st.dir.tmp = some content →
    (∃ state ∈ st.candidates, content = fileOf fmt state) ∨ Unread fmt content ∨ st.completed = none ∧ readToString content = none
  backup : st.dir.current = none → st.completed.isSome → st.down = true ∧ st.dir.prev.isSome

theorem sound_fresh (fmt : ManifestFormat S E) : Sound fmt ManifestRun.fresh where
  current _ h := nomatch h
  tmp _ h := nomatch h
  prev _ _ h := nomatch h
  window _ _ h := nomatch h
  backup _ h := nomatch h

/-- The files of a manifest that is in place. -/
theorem sound_current {completed : S} (hcur : dir.current = some (fileOf fmt completed))
    (htmp : ∀ content, dir.tmp = some content → ∃ state kept, content = (fileOf fmt state).extract 0 kept) :
    Sound fmt ⟨dir, some completed, [], false⟩ where
  current _ h := ⟨completed, mem_cons_self, Option.some.inj (h.symm.trans hcur)⟩
  tmp := htmp
  prev h := nomatch h.symm.trans hcur
  window h := nomatch h.symm.trans hcur
  backup h := nomatch h.symm.trans hcur

theorem sound_written (fmt : ManifestFormat S E) (dir : ManifestDir) (state : S) :
    Sound fmt ⟨dir.applyAll (writeManifest fmt dir state), some state, [], false⟩ := by
  obtain ⟨hcur, htmp⟩ := @current_applyAll S E fmt dir state
  exact sound_current hcur fun content h => nomatch h.symm.trans htmp

variable {st : ManifestRun S}

/-- A further write that is begun changes nothing on disk. -/
theorem Sound.begin (h : Sound fmt st) (found : List S) :
    Sound fmt { st with begun := st.begun ++ found, down := true } := by
  have hmono : ∀ content, (∃ state ∈ st.candidates, content = fileOf fmt state) →
      ∃ state ∈ ManifestRun.candidates { st with begun := st.begun ++ found, down := true }, content = fileOf fmt state := by
    rintro content ⟨state, hsta, heq⟩
    refine ⟨state, ?_, heq⟩
    rw [ManifestRun.candidates, ← append_assoc]
    exact mem_append_left found hsta
  exact ⟨fun content hcont => hmono content (h.current content hcont), h.tmp,
    fun hnone content hcont => hmono content (h.prev hnone content hcont),
    fun hnone content hcont => (h.window hnone content hcont).imp (hmono content) id,
    fun hnone hsome => ⟨rfl, (h.backup hnone hsome).2⟩⟩

/-- A crash in a write keeps the invariant if it does not cut a text inside a character while the
current file is missing. -/
theorem Sound.crashed (h : Sound fmt st) (state : S) (taken kept : ℕ)
    (htext : st.completed.isSome → st.dir.current = none → ∀ content,
      ((writeManifest fmt st.dir state).take taken).getLast? = some (.writeTmp content) → (readToString (content.extract 0 kept)).isSome) :
    Sound fmt ⟨st.dir.crashed (writeManifest fmt st.dir state) taken kept, st.completed, st.begun ++ [state], true⟩ := by
  have hbegun := h.begin [state]
  obtain ⟨dir, completed, begun, down⟩ := st
  have hlast : state ∈ completed.toList ++ (begun ++ [state]) := by simp
  have hemp : ByteArray.empty = (fileOf fmt state).extract 0 0 := ByteArray.extract_same.symm
  have hwh : fileOf fmt state = (fileOf fmt state).extract 0 (fileOf fmt state).size := (extract_all _ le_rfl).symm
  -- the backup is kept while the current file is missing
  have hbackup : ∀ {prev : Option ByteArray}, (dir.current = none → prev = dir.prev) → dir.current = none →
      (∀ content, prev = some content → ∃ s ∈ completed.toList ++ (begun ++ [state]), content = fileOf fmt s) ∧
        (completed.isSome → prev.isSome) := by
    intro prev hsame hnone
    rw [hsame hnone]
    exact ⟨hbegun.prev hnone, fun hsome => (hbegun.backup hnone hsome).2⟩
  generalize hleft : dir.crashed (writeManifest fmt dir state) taken kept = left
  have hcases := hleft ▸ @left_crashed S E fmt dir state taken kept
  cases hcases with
  | untouched => exact hbegun
  | emptied prev hsame =>
    refine ⟨hbegun.current, ?_, fun hnone => (hbackup hsame hnone).1, ?_, fun hnone hsome => ⟨rfl, (hbackup hsame hnone).2 hsome⟩⟩
    · rintro _ ⟨⟩
      exact ⟨state, 0, hemp⟩
    · rintro _ _ ⟨⟩
      exact (unread_empty fmt state).imp (fun heq => ⟨state, hlast, heq⟩) Or.inl
  | cut prev hsame hw' =>
    refine ⟨hbegun.current, ?_, fun hnone => (hbackup hsame hnone).1, ?_, fun hnone hsome => ⟨rfl, (hbackup hsame hnone).2 hsome⟩⟩
    · rintro _ ⟨⟩
      exact ⟨state, kept, rfl⟩
    · rintro hnone _ ⟨⟩
      cases hread : readToString ((fileOf fmt state).extract 0 kept) with
      | some text => exact (cut_fileOf fmt state kept (by rw [hread]; rfl)).imp (fun heq => ⟨state, hlast, heq⟩) Or.inl
      | none =>
        refine Or.inr (Or.inr ⟨?_, rfl⟩)
        by_contra hcpl
        have hsome := htext (Option.isSome_iff_ne_none.mpr hcpl) hnone _ hw'
        rw [hread] at hsome
        cases hsome
  | written prev hsame =>
    refine ⟨hbegun.current, ?_, fun hnone => (hbackup hsame hnone).1, ?_, fun hnone hsome => ⟨rfl, (hbackup hsame hnone).2 hsome⟩⟩
    · rintro _ ⟨⟩
      exact ⟨state, _, hwh⟩
    · rintro _ _ ⟨⟩
      exact Or.inl ⟨state, hlast, rfl⟩
  | moved hpres =>
    refine ⟨fun _ hcur => (nomatch hcur), ?_, fun _ => hbegun.current, ?_, fun _ _ => ⟨rfl, hpres⟩⟩
    · rintro _ ⟨⟩
      exact ⟨state, _, hwh⟩
    · rintro _ _ ⟨⟩
      exact Or.inl ⟨state, hlast, rfl⟩
  | replaced prev =>
    refine ⟨?_, fun _ htmp => (nomatch htmp), fun hnone => (nomatch hnone), fun hnone => (nomatch hnone), fun hnone => (nomatch hnone)⟩
    rintro _ ⟨⟩
    exact ⟨state, hlast, rfl⟩

variable {normal : S}

theorem accepted_clean (h : accepted fmt state = .ok (normal, false)) : normal = state := by
  rw [accepted] at h
  cases hnormal : fmt.normalizeSchemaManifest state with
  | error error => simp only [hnormal] at h; cases h
  | ok res =>
    obtain ⟨found, dirty⟩ := res
    cases hvd : fmt.validateManifestIdentity found with
    | error error => simp only [hnormal, hvd] at h; cases h
    | ok =>
      simp only [hnormal, hvd] at h
      cases h
      exact fmt.unchanged state normal hnormal

/-- A file that is read whole is one of a manifest, whose normal form is what the load returns. -/
theorem tryLoad_cut {kept : ℕ} {dirty : Bool}
    (h : tryLoadManifestFileForWrite fmt (some ((fileOf fmt state).extract 0 kept)) = .ok (some (normal, dirty))) :
    (fileOf fmt state).extract 0 kept = fileOf fmt state ∧ accepted fmt state = .ok (normal, dirty) := by
  have htext : (readToString ((fileOf fmt state).extract 0 kept)).isSome := by
    cases hread : readToString ((fileOf fmt state).extract 0 kept) with
    | none => simp only [tryLoadManifestFileForWrite, hread] at h; cases h
    | some text => rfl
  obtain hwh | hunread := cut_fileOf fmt state kept htext
  · rw [hwh, tryLoad_fileOf] at h
    refine ⟨hwh, ?_⟩
    cases hacc : accepted fmt state with
    | error error => rw [hacc] at h; cases h
    | ok res =>
      rw [hacc] at h
      cases h
      rfl
  · rw [hunread.tryLoad] at h
    cases h

inductive LoadSteps (fmt : ManifestFormat S E) (dir : ManifestDir) (normal : S) : List DiskStep → Prop where
  | inPlace (h : dir.current = some (fileOf fmt normal)) : LoadSteps fmt dir normal []
  | promotes (h : dir.tmp = some (fileOf fmt normal)) : LoadSteps fmt dir normal [.renameTmpToCurrent, .fsyncDir]
  | writes : LoadSteps fmt dir normal (writeManifest fmt dir normal)

variable {steps : List DiskStep}

theorem Sound.loadSteps (h : Sound fmt st)
    (hload : loadManifest fmt st.dir = .ok (some normal, steps)) : LoadSteps fmt st.dir normal steps := by
  rw [loadManifest] at hload
  cases hcur : st.dir.current with
  | some content =>
    obtain ⟨s, -, rfl⟩ := h.current content hcur
    rw [hcur, tryLoad_fileOf] at hload
    cases hacc : accepted fmt s with
    | error error => rw [hacc] at hload; cases hload
    | ok res =>
      obtain ⟨found, dirty⟩ := res
      rw [hacc] at hload
      cases hload
      cases dirty with
      | true => exact .writes
      | false => exact .inPlace (by rw [hcur, accepted_clean hacc])
  | none =>
    rw [hcur] at hload
    cases htry : tryLoadManifestFileForWrite fmt st.dir.tmp with
    | error error => simp only [htry] at hload; cases hload
    | ok res =>
      cases res with
      | none =>
        cases hback : tryLoadManifestFileForWrite fmt st.dir.prev with
        | error error => simp only [htry, hback] at hload; cases hload
        | ok res =>
          cases res with
          | none => simp only [htry, hback] at hload; cases hload
          | some res =>
            simp only [htry, hback] at hload
            cases hload
            exact .writes
      | some res =>
        obtain ⟨found, dirty⟩ := res
        simp only [htry] at hload
        cases hload
        cases dirty with
        | true => exact .writes
        | false =>
          cases htmp : st.dir.tmp with
          | none => rw [htmp] at htry; cases htry
          | some content =>
            obtain ⟨s, kept, rfl⟩ := h.tmp content htmp
            rw [htmp] at htry
            obtain ⟨hwh, hacc⟩ := tryLoad_cut htry
            exact .promotes (by rw [htmp, hwh, accepted_clean hacc])

/-- While the current file is missing, what is returned is a manifest that a load may return, or there was no write
that completed: the temporary file is loaded or, where it is passed over, the backup. -/
theorem Sound.loaded_missing (h : Sound fmt st) (hnone : st.dir.current = none) :
    (∃ state ∈ st.candidates, loaded fmt st.dir = (readBack fmt state).map some) ∨
      st.completed = none ∧ ((loadManifest fmt st.dir = .ok (none, []) ∧ st.dir.prev = none ∧
        ∀ content, st.dir.tmp = some content → Unread fmt content) ∨ loadManifest fmt st.dir = .error .invalidUtf8) := by
  have hback : tryLoadManifestFileForWrite fmt st.dir.tmp = .ok none → (∀ content, st.dir.tmp = some content → Unread fmt content) →
      (∃ state ∈ st.candidates, loaded fmt st.dir = (readBack fmt state).map some) ∨
      st.completed = none ∧ ((loadManifest fmt st.dir = .ok (none, []) ∧ st.dir.prev = none ∧
        ∀ content, st.dir.tmp = some content → Unread fmt content) ∨ loadManifest fmt st.dir = .error .invalidUtf8) := by
    intro htry hunread
    cases hprev : st.dir.prev with
    | none =>
      refine Or.inr ⟨?_, Or.inl ⟨?_, rfl, hunread⟩⟩
      · by_contra hcpl
        have hsome := (h.backup hnone (Option.isSome_iff_ne_none.mpr hcpl)).2
        rw [hprev] at hsome
        cases hsome
      · rw [loadManifest, hnone]
        simp only [tryLoad_none, htry, hprev]
    | some content =>
      obtain ⟨s, hs, rfl⟩ := h.prev hnone content hprev
      refine Or.inl ⟨s, hs, ?_⟩
      rw [loaded, loadManifest, readBack, hnone]
      simp only [tryLoad_none, htry]
      rw [hprev, tryLoad_fileOf]
      cases accepted fmt s <;> rfl
  cases htmp : st.dir.tmp with
  | none =>
    rw [htmp] at hback
    exact hback tryLoad_none fun _ hcont => (nomatch hcont)
  | some content =>
    obtain ⟨s, hs, rfl⟩ | hunread | ⟨hcpl, hread⟩ := h.window hnone content htmp
    · refine Or.inl ⟨s, hs, ?_⟩
      rw [loaded, loadManifest, readBack, hnone]
      simp only [tryLoad_none]
      rw [htmp, tryLoad_fileOf]
      cases accepted fmt s <;> rfl
    · rw [htmp] at hback
      exact hback hunread.tryLoad fun _ hcont => Option.some.inj hcont ▸ hunread
    · refine Or.inr ⟨hcpl, Or.inr ?_⟩
      rw [loadManifest, hnone, htmp]
      simp only [tryLoadManifestFileForWrite, hread]

theorem map_some_inj {res : Except (LoadError E) S}
    (h : (res.map some : Except (LoadError E) (Option S)) = .ok (some normal)) : res = .ok normal := by
  cases res with
  | error error => cases h
  | ok found =>
    cases h
    rfl

section
variable {st : ManifestRun S} (h : Sound fmt st)
include h

theorem Sound.loaded_current {content : ByteArray} (hcur : st.dir.current = some content) :
    ∃ state ∈ st.candidates, loaded fmt st.dir = (readBack fmt state).map some := by
  obtain ⟨s, hs, rfl⟩ := h.current content hcur
  refine ⟨s, hs, ?_⟩
  rw [loaded, loadManifest, readBack, hcur, tryLoad_fileOf]
  cases accepted fmt s <;> rfl

theorem Sound.restores : st.Restores fmt := by
  have hcases : (∃ state ∈ st.candidates, loaded fmt st.dir = (readBack fmt state).map some) ∨
      st.completed = none ∧ ∀ normal, loaded fmt st.dir ≠ .ok (some normal) := by
    cases hcur : st.dir.current with
    | some content => exact Or.inl (h.loaded_current hcur)
    | none =>
      refine (h.loaded_missing hcur).imp id (And.imp id ?_)
      rintro (⟨hload, -, -⟩ | hload) normal heq <;> rw [loaded, hload] at heq <;> cases heq
  obtain ⟨state, hsta, hloaded⟩ | ⟨hcpl, hnot⟩ := hcases
  · exact ⟨fun _ => ⟨state, hsta, hloaded⟩, fun normal heq => ⟨state, hsta, map_some_inj (hloaded ▸ heq)⟩⟩
  · refine ⟨fun hsome => ?_, fun normal heq => absurd heq (hnot normal)⟩
    rw [hcpl] at hsome
    cases hsome

/-- A load that finds no manifest found no write that completed, and does nothing. -/
theorem Sound.load_none (hload : loadManifest fmt st.dir = .ok (none, steps)) :
    steps = [] ∧ Sound fmt ⟨st.dir, st.completed, [], false⟩ := by
  have hnot : ¬∃ state ∈ st.candidates, loaded fmt st.dir = (readBack fmt state).map some := by
    rintro ⟨s, -, hloaded⟩
    rw [loaded, hload] at hloaded
    cases hback : readBack fmt s <;> rw [hback] at hloaded <;> cases hloaded
  cases hcur : st.dir.current with
  | some content => exact absurd (h.loaded_current hcur) hnot
  | none =>
    obtain hfnd | ⟨hcpl, ⟨hfnd, hprev, hunread⟩ | hfnd⟩ := h.loaded_missing hcur
    · exact absurd hfnd hnot
    · rw [hload] at hfnd
      cases hfnd
      refine ⟨rfl, fun _ hcont => (nomatch hcont.symm.trans hcur), h.tmp, fun _ _ hcont => (nomatch hcont.symm.trans hprev),
        fun _ content hcont => Or.inr (Or.inl (hunread content hcont)), fun _ hsome => ?_⟩
      rw [hcpl] at hsome
      cases hsome
    · rw [hload] at hfnd
      cases hfnd

theorem Sound.load (hload : loadManifest fmt st.dir = .ok (some normal, steps)) :
    Sound fmt ⟨st.dir.applyAll steps, some normal, [], false⟩ := by
  cases h.loadSteps hload with
  | inPlace hcur => exact sound_current hcur h.tmp
  | promotes htmp => exact sound_current htmp fun _ hnone => (nomatch hnone)
  | writes => exact sound_written fmt st.dir normal

theorem Sound.loadCrash {taken kept : ℕ}
    (hload : loadManifest fmt st.dir = .ok (some normal, steps))
    (htext : st.completed.isSome → st.dir.current = none → ∀ content,
      (steps.take taken).getLast? = some (.writeTmp content) → (readToString (content.extract 0 kept)).isSome) :
    Sound fmt ⟨st.dir.crashed steps taken kept, st.completed, st.begun ++ [normal], true⟩ := by
  cases h.loadSteps hload with
  | inPlace hcur =>
    have hcras : st.dir.crashed [] taken kept = st.dir := by rw [ManifestDir.crashed, take_nil]; rfl
    rw [hcras]
    exact h.begin [normal]
  | promotes htmp =>
    match taken with
    | 0 => exact h.begin [normal]
    | 1 | 2 | _ + 3 =>
      exact ⟨fun content hcont => ⟨normal, by simp [ManifestRun.candidates], Option.some.inj (hcont.symm.trans htmp)⟩,
        fun _ hnone => (nomatch hnone), fun hnone => (nomatch hnone.symm.trans htmp), fun hnone => (nomatch hnone.symm.trans htmp),
        fun hnone => (nomatch hnone.symm.trans htmp)⟩
  | writes => exact h.crashed normal taken kept htext

end

/-- Every step that keeps texts whole keeps the invariant. -/
theorem Sound.step {st' : ManifestRun S} {e : Event S} (h : Sound fmt st) (hkeeps : st.KeepsText fmt e)
    (hstep : st.step fmt e = some st') : Sound fmt st' := by
  cases e with
  | write state =>
    rw [ManifestRun.step] at hstep
    split at hstep
    · cases hstep
    · cases hstep
      exact sound_written fmt st.dir state
  | writeCrash state taken kept =>
    rw [ManifestRun.step] at hstep
    split at hstep
    · cases hstep
    · rename_i hup
      cases hstep
      -- the current file is missing only while the process is down
      exact h.crashed state taken kept fun hsome hnone => absurd (h.backup hnone hsome).1 hup
  | load =>
    rw [ManifestRun.step] at hstep
    split at hstep
    · cases hstep
    · rename_i normal steps hload
      cases hstep
      exact h.load hload
    · rename_i steps hload
      obtain ⟨rfl, hsd⟩ := h.load_none hload
      cases hstep
      exact hsd
  | loadCrash taken kept =>
    rw [ManifestRun.step] at hstep
    split at hstep
    · cases hstep
      simpa using h.begin []
    · rename_i found steps hload
      cases hstep
      cases found with
      | some normal => exact h.loadCrash hload fun hsome hnone => hkeeps hsome hnone (some normal) steps hload
      | none =>
        obtain ⟨rfl, -⟩ := h.load_none hload
        have hcras : st.dir.crashed [] taken kept = st.dir := by rw [ManifestDir.crashed, take_nil]; rfl
        rw [hcras]
        exact h.begin []

end

/-- In every run that keeps the texts of manifests whole, a load returns the last manifest written, or one whose
write was begun since. -/
theorem replacement_atomic (events : List (Event S)) (st : ManifestRun S)
    (hkeeps : Admits (ManifestRun.step fmt) (ManifestRun.KeepsText fmt) .fresh events)
    (hrun : run (ManifestRun.step fmt) .fresh events = some st) : st.Restores fmt :=
  have hsound : Sound fmt st :=
    run_invariant (fun _ _ _ hsound hkept hstep => hsound.step hkept hstep) (sound_fresh fmt) hkeeps hrun
  hsound.restores

end

/-- The text of a manifest with the node label `é` up to the next schema identifier. -/
def labelledHead : String :=
  "\x7b\n  \"version\": 1,\n  \"label_token_schema_version\": 1,\n  \"node_label_tokens\": \x7b\n    \"é\": 1\n  \x7d,\n" ++
  "  \"edge_label_tokens\": \x7b\x7d,\n  \"next_node_label_id\": 2,\n  \"next_edge_label_id\": 1,\n  \"segs\": [],\n" ++
  "  \"next_node_id\": 1,\n  \"next_edge_id\": 1,\n  \"dense_vector\": null,\n  \"prune_policies\": \x7b\x7d,\n" ++
  "  \"next_engine_seq\": 0,\n  \"next_wal_generation_id\": 0,\n  \"active_wal_generation_id\": 0,\n" ++
  "  \"pending_flush_epochs\": [],\n  \"secondary_indexes\": [],\n  \"next_secondary_index_id\": 1,\n" ++
  "  \"schema_catalog_version\": 1,\n  \"next_schema_id\": "

def labelledTail : String := ",\n  \"node_schemas\": [],\n  \"edge_schemas\": []\n\x7d"

def labelledText (nextSchemaId : Fin 10) : String := labelledHead ++ String.singleton (Nat.digitChar nextSchemaId) ++ labelledTail

theorem labelledText_injective {fst snd : Fin 10} (h : labelledText fst = labelledText snd) : fst = snd := by
  rw [labelledText, labelledText, String.append_left_inj, String.append_right_inj] at h
  revert fst snd
  decide

theorem size_labelledText (fst snd : Fin 10) : (labelledText fst).toByteArray.size = (labelledText snd).toByteArray.size := by
  have hdigit : ∀ digit : Fin 10, (Nat.digitChar digit).utf8Size = 1 := by decide
  simp only [labelledText, String.size_toByteArray, String.utf8ByteSize_append, String.utf8ByteSize_singleton, hdigit]

/-- Manifests with one label and no schemas: the next schema identifier is brought to `1`. -/
def labelledFormat : ManifestFormat (Fin 10) Empty where
  toStringPretty := labelledText
  fromStr text := (List.finRange 10).find? fun nextSchemaId => labelledText nextSchemaId = text
  normalizeSchemaManifest nextSchemaId := .ok (1, nextSchemaId ≠ 1)
  validateManifestIdentity _ := .ok ()
  fromStr_toStringPretty state := by
    cases hfind : (List.finRange 10).find? fun nextSchemaId => labelledText nextSchemaId = labelledText state with
    | none => exact absurd (by rw [decide_eq_true_eq]) (List.find?_eq_none.mp hfind state (mem_finRange state))
    | some found =>
      have hsame := List.find?_some hfind
      rw [decide_eq_true_eq] at hsame
      rw [labelledText_injective hsame]
  fromStr_cut state kept text hkept htext := by
    rw [List.find?_eq_none]
    intro other _ hsame
    have hoth : labelledText other = text := of_decide_eq_true hsame
    have hbs : (labelledText state).toByteArray.extract 0 kept = text.toByteArray := by
      rw [readToString, String.fromUTF8?] at htext
      split at htext
      · cases htext
        rfl
      · cases htext
    have hsize := congrArg ByteArray.size hbs
    rw [← hoth, size_labelledText other state, ByteArray.size_extract] at hsize
    omega
  unchanged state normal h := by
    simp only [Except.ok.injEq, Prod.mk.injEq, decide_eq_false_iff_not, not_not] at h
    rw [← h.1, h.2]

/-- What a load finds that was cut off while it wrote the second manifest again. -/
def cutLabelled (kept : ℕ) : ManifestDir := ⟨none, some ((fileOf labelledFormat 1).extract 0 kept), some (fileOf labelledFormat 1)⟩

/-- The write of the second manifest ends behind the rename of the backup. -/
theorem load_renamed : loadManifest labelledFormat ⟨none, some (fileOf labelledFormat 2), some (fileOf labelledFormat 1)⟩ =
    .ok (some 1, writeManifest labelledFormat ⟨none, some (fileOf labelledFormat 2), some (fileOf labelledFormat 1)⟩ 1) := by
  rw [loadManifest, tryLoad_none, tryLoad_fileOf]
  rfl

/-- A manifest is written, then one that is not in its normal form, and the load that finds the second one is cut
off while it writes it again. -/
theorem run_cutLabelled (kept : ℕ) : run (ManifestRun.step labelledFormat) .fresh
    [.write 1, .writeCrash 2 4 0, .loadCrash 2 kept] = some ⟨cutLabelled kept, some 1, [2, 1], true⟩ := by
  have hload : ManifestRun.step labelledFormat
      ⟨⟨none, some (fileOf labelledFormat 2), some (fileOf labelledFormat 1)⟩, some 1, [2], true⟩ (.loadCrash 2 kept) =
      some ⟨cutLabelled kept, some 1, [2, 1], true⟩ := by
    rw [ManifestRun.step, load_renamed]
    rfl
  exact run_cons_eq_some.mpr ⟨_, rfl, run_cons_eq_some.mpr ⟨_, rfl, run_cons_eq_some.mpr ⟨_, hload, rfl⟩⟩⟩

/-- A cut inside the label leaves files that the next load fails on, with the backup in place. -/
theorem not_restores_cutLabel : run (ManifestRun.step labelledFormat) .fresh [.write 1, .writeCrash 2 4 0, .loadCrash 2 84] =
      some ⟨cutLabelled 84, some 1, [2, 1], true⟩ ∧ loaded labelledFormat (cutLabelled 84) = .error .invalidUtf8 ∧
    ¬ManifestRun.Restores labelledFormat ⟨cutLabelled 84, some 1, [2, 1], true⟩ := by
  have hcut : readToString ((fileOf labelledFormat 1).extract 0 84) = none := by
    rw [readToString, String.fromUTF8?, dif_neg]
    decide +kernel
  have herror : loaded labelledFormat (cutLabelled 84) = .error .invalidUtf8 := by
    rw [loaded, loadManifest, cutLabelled, tryLoad_none]
    simp only [tryLoadManifestFileForWrite, hcut]
    rfl
  refine ⟨run_cutLabelled 84, herror, fun hrestores => ?_⟩
  obtain ⟨state, -, hloaded⟩ := hrestores.1 rfl
  rw [herror] at hloaded
  cases hloaded

/-- A cut behind the label leaves a text, and the backup is loaded. -/
theorem replacement_atomic_cutLabel : ManifestRun.Restores labelledFormat ⟨cutLabelled 85, some 1, [2, 1], true⟩ := by
  have hcut : (readToString ((fileOf labelledFormat 1).extract 0 85)).isSome := by
    rw [readToString, String.fromUTF8?, dif_pos]
    · rfl
    · decide +kernel
  refine replacement_atomic labelledFormat [.write 1, .writeCrash 2 4 0, .loadCrash 2 85] _ ⟨trivial, ?_⟩ (run_cutLabelled 85)
  rintro _ ⟨⟩
  refine ⟨trivial, ?_⟩
  rintro _ ⟨⟩
  refine ⟨fun _ _ found steps hload content hlast => ?_, fun _ _ => trivial⟩
  cases load_renamed.symm.trans hload
  cases hlast
  exact hcut

end OverGraph.ManifestFiles
