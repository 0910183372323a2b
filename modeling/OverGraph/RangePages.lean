import OverGraph.RangeSidecars

/-!
# Pages of a range index

A memtable reads a range of a property index from an ordered map, from the bound or the cursor on, past entries that the
snapshot does not see. Pages that go on after the last entry of the page before are the range.
-/

namespace OverGraph.RangePages
open Option hiding filter_filter filter_map mem_map
open VersionedSlots SecondaryEntries RangeSidecars List
open SnapshotReads (valueAt rangeStart secondaryRangePastUpper)
open LimitedReads (ahead rangePage page_append_ahead)
open WalFrames (u64Max)

section
variable (m : IndexedMemtable) (s indexId : ℕ)

/-- The keys of an index in the order of its map. -/
def rangeState : List (NumericRangeSortKey ×ₗ ℕ) :=
  ((m.secondaryRangeState.keys.filter fun key => decide (key.1 = indexId)).map fun key => toLex key.2).insertionSort (· ≤ ·)

def slotOptionVisible (entry : NumericRangeSortKey ×ₗ ℕ) : Bool := (valueAt m.secondaryRangeState s (indexId, ofLex entry)).join.isSome

variable (lower upper : Option (NumericRangeSortKey × Bool))

/-- The map is entered at the later of the bound and the cursor. -/
def visibleSecondaryRangeEntriesLimited (after : Option (NumericRangeSortKey ×ₗ ℕ)) (limit : Option ℕ) : List (NumericRangeSortKey ×ₗ ℕ) :=
  if limit = some 0 then []
  else scanShown (slotOptionVisible m s indexId) upper limit [] ((rangeState m indexId).filter fun entry =>
    !(startTarget lower after).any fun target => beforeTarget target.1 target.2 entry)

end

/-- Read page after page, each after the last entry of the one before, until one is empty. -/
def followPages (readPage : Option (NumericRangeSortKey ×ₗ ℕ) → List (NumericRangeSortKey ×ₗ ℕ)) :
    ℕ → Option (NumericRangeSortKey ×ₗ ℕ) → List (List (NumericRangeSortKey ×ₗ ℕ))
  | 0, _ => []
  | rds + 1, after =>
    match (readPage after).getLast? with
    | none => []
    | some last => readPage after :: followPages readPage rds (some last)

section
variable {m : IndexedMemtable} {s indexId : ℕ} {lower upper : Option (NumericRangeSortKey × Bool)}

theorem mem_rangeState {entry : NumericRangeSortKey ×ₗ ℕ} :
    entry ∈ rangeState m indexId ↔ (indexId, ofLex entry) ∈ m.secondaryRangeState.keys := by
  rw [rangeState, (perm_insertionSort _ _).mem_iff, mem_map]
  constructor
  · rintro ⟨⟨idx, key⟩, hkey, rfl⟩
    obtain ⟨hmem, hix⟩ := mem_filter.mp hkey
    obtain rfl : idx = indexId := of_decide_eq_true hix
    exact hmem
  · exact fun hmem => ⟨_, mem_filter.mpr ⟨hmem, decide_eq_true rfl⟩, rfl⟩

theorem sorted_rangeState : (rangeState m indexId).Pairwise (· < ·) := by
  have hnd : (rangeState m indexId).Nodup := by
    rw [rangeState, (perm_insertionSort _ _).nodup_iff]
    refine (m.secondaryRangeState.keys_nodup.filter _).map_on fun fst hfst snd hsnd heq => ?_
    have hix := (of_decide_eq_true (mem_filter.mp hfst).2).trans (of_decide_eq_true (mem_filter.mp hsnd).2).symm
    exact Prod.ext hix (toLex.injective heq)
  exact (pairwise_insertionSort (· ≤ ·) _).imp₂ (fun _ _ hle hne => lt_of_le_of_ne hle hne) hnd

/-- What the snapshot sees of an index. -/
def shown (m : IndexedMemtable) (s indexId : ℕ) : List (NumericRangeSortKey ×ₗ ℕ) :=
  (rangeState m indexId).filter (slotOptionVisible m s indexId)

theorem visibleEntries_eq (hids : ∀ key ∈ m.secondaryRangeState.keys, key.2.2 ≤ u64Max) (after : Option (NumericRangeSortKey ×ₗ ℕ))
    (limit : Option ℕ) : visibleSecondaryRangeEntriesLimited m s indexId lower upper after limit =
      limit.elim id take (ahead lower upper (shown m s indexId) (fun _ => false) after) := by
  have hst : (rangeState m indexId).filter (fun entry =>
      !(startTarget lower after).any fun tgt => beforeTarget tgt.1 tgt.2 entry) =
        (rangeState m indexId).filter (rangeStart lower (after.map ofLex)) :=
    filter_congr fun entry hent => beforeStart (hids _ (mem_rangeState.mp hent))
  have hahead : ((rangeState m indexId).filter (rangeStart lower (after.map ofLex))).filter (fun entry =>
      !secondaryRangePastUpper (ofLex entry).1 upper && slotOptionVisible m s indexId entry) =
        ahead lower upper (shown m s indexId) (fun _ => false) after := by
    rw [ahead, shown, filter_filter, filter_filter]
    refine filter_congr fun entry _ => ?_
    rw [Bool.not_false, Bool.and_true, Bool.and_comm, ← Bool.and_assoc]
  have hsort : ((rangeState m indexId).filter (rangeStart lower (after.map ofLex))).Pairwise (· ≤ ·) :=
    (sorted_rangeState.imp le_of_lt).sublist filter_sublist
  rw [visibleSecondaryRangeEntriesLimited, hst]
  split
  · rename_i hzero
    rw [hzero]
    rfl
  · rename_i hpos
    rw [scanShown_eq hsort, hahead]
    · cases limit <;> rfl
    · rintro n rfl
      exact Nat.pos_of_ne_zero fun hzero => hpos (congrArg some hzero)

theorem followPages_flatten {pageSize : ℕ} (hpage : 0 < pageSize) {rds : ℕ} {after : Option (NumericRangeSortKey ×ₗ ℕ)}
    (hrds : (ahead lower upper (shown m s indexId) (fun _ => false) after).length < rds) :
    (followPages (fun after => (ahead lower upper (shown m s indexId) (fun _ => false) after).take pageSize) rds after).flatten =
      ahead lower upper (shown m s indexId) (fun _ => false) after := by
  induction rds generalizing after with
  | zero => omega
  | succ rds ih =>
    rw [followPages]
    cases hlast : ((ahead lower upper (shown m s indexId) (fun _ => false) after).take pageSize).getLast? with
    | none =>
      rcases take_eq_nil_iff.mp (List.getLast?_eq_none_iff.mp hlast) with hzero | hnil
      · omega
      · rw [hnil]
        rfl
    | some last =>
      have hpages : rangePage lower upper (shown m s indexId) (fun _ => false) after pageSize ++
          ahead lower upper (shown m s indexId) (fun _ => false) (some last) = ahead lower upper (shown m s indexId) (fun _ => false) after :=
        page_append_ahead (sorted_rangeState.sublist filter_sublist) hlast
      have hsize : 0 < ((ahead lower upper (shown m s indexId) (fun _ => false) after).take pageSize).length :=
        length_pos_of_mem (mem_of_getLast? hlast)
      have hlen := congrArg List.length hpages
      rw [rangePage, length_append] at hlen
      dsimp only
      rw [flatten_cons, ih (by rw [shown] at *; omega)]
      exact hpages

/-- Pages of a positive size, each read after the last entry of the one before, are together the listing of the range, and
the listing has the visible entries within the bounds in order and once each. -/
theorem range_pages_complete (m : IndexedMemtable) (s indexId : ℕ) (lower upper : Option (NumericRangeSortKey × Bool))
    (hids : ∀ key ∈ m.secondaryRangeState.keys, key.2.2 ≤ u64Max) {pageSize : ℕ} (hpage : 0 < pageSize) :
    let listing after := visibleSecondaryRangeEntriesLimited m s indexId lower upper after none
    (∀ after rds, (listing after).length < rds → (followPages (fun cursor =>
      visibleSecondaryRangeEntriesLimited m s indexId lower upper cursor (some pageSize)) rds after).flatten = listing after) ∧
    (listing none).Pairwise (· < ·) ∧
    ∀ value id, toLex (value, id) ∈ listing none ↔ (valueAt m.secondaryRangeState s (indexId, value, id)).join = some () ∧
      rangeStart lower none (toLex (value, id)) = true ∧ secondaryRangePastUpper value upper = false := by
  have hread := @visibleEntries_eq m s indexId lower upper hids
  simp only [hread, elim_some, elim_none, id]
  refine ⟨fun after rds hrds => followPages_flatten hpage hrds,
    (sorted_rangeState.sublist filter_sublist).sublist filter_sublist, fun value id => ?_⟩
  have hkey : (valueAt m.secondaryRangeState s (indexId, value, id)).join.isSome = true →
      (indexId, value, id) ∈ m.secondaryRangeState.keys := by
    intro hvisi
    rw [valueAt] at hvisi
    cases hslot : m.secondaryRangeState.lookup (indexId, value, id) with
    | none =>
      rw [hslot] at hvisi
      cases hvisi
    | some slot => exact AList.lookup_isSome.mp (by rw [hslot]; rfl)
  have hunit : (valueAt m.secondaryRangeState s (indexId, value, id)).join = some () ↔
      (valueAt m.secondaryRangeState s (indexId, value, id)).join.isSome = true := by
    cases (valueAt m.secondaryRangeState s (indexId, value, id)).join <;> simp
  rw [ahead, shown, mem_filter, mem_filter, mem_rangeState, slotOptionVisible, hunit]
  simp only [ofLex_toLex, map_none, Bool.and_eq_true, Bool.not_false, and_true, Bool.not_eq_true']
  exact ⟨fun h => ⟨h.1.2, h.2⟩, fun h => ⟨⟨hkey h.1, h.1⟩, h.2⟩⟩

end

private def zeroValue : NumericRangeSortKey := toLex (0, toLex (0, 0))

/-- Three nodes have one value, the last of them since the fifth write. -/
private def threeNodes : IndexedMemtable :=
  { IndexedMemtable.empty with
    secondaryRangeState := setSlot (setSlot (setSlot ∅ (7, zeroValue, 2) (some ()) 2) (7, zeroValue, 1) (some ()) 1)
      (7, zeroValue, 3) (some ()) 5 }

theorem range_pages_complete_threeNodes :
    (followPages (fun cursor => visibleSecondaryRangeEntriesLimited threeNodes 3 7 none none cursor (some 1)) 3 none).flatten =
      [toLex (zeroValue, 1), toLex (zeroValue, 2)] := by
  have hids : ∀ key ∈ threeNodes.secondaryRangeState.keys, key.2.2 ≤ u64Max := by decide
  have hpages := (range_pages_complete threeNodes 3 7 none none hids Nat.one_pos).1 none 3 (by decide)
  exact hpages.trans (by decide)

end OverGraph.RangePages
