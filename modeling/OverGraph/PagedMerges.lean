import Mathlib.Data.List.Duplicate
import OverGraph.SortedMerges

/-!
# Pages of merged sources

A page is merged from the list of the memtable, which is sorted first, and further lists, which must be sorted: after a cursor each list is
entered by a binary search, and the least head of all is taken until the page is full. An item counts only where its key is first seen,
also if it is skipped there. A page may end with a cursor behind which nothing is left.
-/

namespace OverGraph.PagedMerges
open Option hiding filter_filter map_id mem_map mem_map_of_mem
open SortedMerges List Nat

variable {α : Type} (key : α → ℕ)

/-- Sorting and searching of slices. An unstable sort leaves open how items of one key are ordered, a binary search which of several
items it finds, and where it ends in a slice that is not sorted. -/
structure SliceOps where
  sortUnstableByKey : List α → List α
  binarySearchByKey : List α → ℕ → Except ℕ ℕ
  perm : ∀ items, (sortUnstableByKey items).Perm items
  sorted : ∀ items, Ordered key (sortUnstableByKey items)
  found : ∀ {items cursor pos}, Ordered key items → binarySearchByKey items cursor = .ok pos → ∃ x, items[pos]? = some x ∧ key x = cursor
  absent : ∀ {items cursor pos}, Ordered key items → binarySearchByKey items cursor = .error pos →
    ∀ i x, items[i]? = some x → (i < pos → key x < cursor) ∧ (pos ≤ i → cursor < key x)

structure PageRequest where
  limit : Option ℕ
  after : Option ℕ

structure PageResult (α : Type) where
  items : List α
  nextCursor : Option ℕ

section
variable {key} (ops : SliceOps key) (skip : α → Bool)

/-- What of a source comes behind the cursor. -/
def seek (after : Option ℕ) (source : List α) : List α :=
  match after with
  | none => source
  | some cursor =>
    match ops.binarySearchByKey source cursor with
    | .ok pos => source.drop (pos + 1)
    | .error pos => source.drop pos

/-- The heap holds the head of each source that has items left. Each round takes one of them. -/
def mergeLoop (key : α → ℕ) (skip : α → Bool) (limit : Option ℕ) :
    ℕ → List (List α) → Option ℕ → List α → PageResult α
  | 0, _, _, res => ⟨res, none⟩
  | rds + 1, sources, lastSeenKey, res =>
    match leastHead key sources with
    | none => ⟨res, none⟩
    | some (item, srcIdx) =>
      let sources := sources.modify srcIdx List.tail
      if lastSeenKey = some (key item) then mergeLoop key skip limit rds sources lastSeenKey res
      else if skip item then mergeLoop key skip limit rds sources (some (key item)) res
      else
        let res := res ++ [item]
        if limit.any fun lim => decide (0 < lim) && decide (lim ≤ res.length) then
          ⟨res, if sources.all List.isEmpty then none else some (key item)⟩
        else mergeLoop key skip limit rds sources (some (key item)) res

def mergeSortedPaged (memtableItems : List α) (segmentSortedItems : List (List α)) (page : PageRequest) : PageResult α :=
  let sources := (ops.sortUnstableByKey memtableItems :: segmentSortedItems).map (seek ops page.after)
  mergeLoop key skip page.limit ((sources.map List.length).sum + 1) sources none []

/-- The pages one after the other, until one has no cursor, if as many requests are enough. -/
def followPages (memtableItems : List α) (segmentSortedItems : List (List α)) (limit : ℕ) : ℕ → Option ℕ → Option (List α)
  | 0, _ => none
  | requests + 1, after =>
    match mergeSortedPaged ops skip memtableItems segmentSortedItems ⟨some limit, after⟩ with
    | ⟨items, none⟩ => some items
    | ⟨items, some next⟩ => (followPages memtableItems segmentSortedItems limit requests (some next)).map (items ++ ·)

end

/-- The pages are those of the sorted list of distinct keys whose item in the first source that has the key is not skipped. -/
def PagesRight (memtableItems : List α) (segmentSortedItems : List (List α)) : Prop :=
  ∀ (ops : SliceOps key) (skip : α → Bool) (limit : ℕ), 0 < limit → ∃ enough, ∀ requests, enough ≤ requests →
    followPages ops skip memtableItems segmentSortedItems limit requests none =
      some ((distinctRows key (memtableItems :: segmentSortedItems)).filter fun x => !skip x)

variable {key}

/-- The rounds over the merged list. -/
def emitLoop (key : α → ℕ) (skip : α → Bool) (limit : Option ℕ) : List α → Option ℕ → List α → PageResult α
  | [], _, res => ⟨res, none⟩
  | item :: items, lastSeenKey, res =>
    if lastSeenKey = some (key item) then emitLoop key skip limit items lastSeenKey res
    else if skip item then emitLoop key skip limit items (some (key item)) res
    else if limit.any fun lim => decide (0 < lim) && decide (lim ≤ (res ++ [item]).length) then
      ⟨res ++ [item], if items.isEmpty then none else some (key item)⟩
    else emitLoop key skip limit items (some (key item)) (res ++ [item])

theorem all_isEmpty_iff (lists : List (List α)) : lists.all List.isEmpty = (mergeAll key lists).isEmpty := by
  induction lists with
  | nil => rfl
  | cons list lists ih =>
    rw [all_cons, ih, mergeAll_cons]
    cases list with
    | nil => rw [nil_merge]; rfl
    | cons x list =>
      have hlen := length_merge (keyLe key) (x :: list) (mergeAll key lists)
      cases hmerge : (x :: list).merge (mergeAll key lists) (keyLe key) with
      | nil =>
        rw [hmerge, length_nil, length_cons] at hlen
        omega
      | cons y rest => rfl

theorem mergeLoop_eq (skip : α → Bool) (limit : Option ℕ) (rds : ℕ) {sources : List (List α)}
    (hrds : (sources.map List.length).sum < rds) (lastSeenKey : Option ℕ) (res : List α) :
    mergeLoop key skip limit rds sources lastSeenKey res = emitLoop key skip limit (mergeAll key sources) lastSeenKey res := by
  induction rds generalizing sources lastSeenKey res with
  | zero => exact absurd hrds (not_lt_zero _)
  | succ rds ih =>
    rw [mergeLoop]
    cases hlst : leastHead key sources with
    | none =>
      rw [leastHead_none hlst]
      rfl
    | some least =>
      obtain ⟨item, srcIdx⟩ := least
      obtain ⟨hmerge, list, hlist⟩ := leastHead_some hlst
      have hless : ((sources.modify srcIdx tail).map List.length).sum < rds := by
        have hsum := sum_length_tail hlist
        omega
      rw [hmerge, emitLoop]
      dsimp only
      rw [ih hless, ih hless, ih hless, @all_isEmpty_iff α key]

/-- What a page of the merged list holds, and what its cursor says. -/
theorem emitLoop_spec (skip : α → Bool) {limit : ℕ} {items : List α} {last : Option ℕ} {res : List α} (hroom : res.length < limit) :
    ∃ taken cursor, emitLoop key skip (some limit) items last res = ⟨res ++ taken, cursor⟩ ∧
      taken = ((firsts key last items).filter fun x => !skip x).take (limit - res.length) ∧
      (cursor = none → ((firsts key last items).filter fun x => !skip x).length ≤ limit - res.length) ∧
      (∀ c, cursor = some c → taken.length = limit - res.length ∧ taken.getLast?.map key = some c) := by
  induction items generalizing last res with
  | nil => exact ⟨[], none, by simp [emitLoop], by simp [firsts], fun _ => by simp [firsts], fun c hc => nomatch hc⟩
  | cons item items ih =>
    rw [emitLoop, firsts]
    split
    · exact ih hroom
    split
    · rename_i hskip
      rw [filter_cons, hskip, Bool.not_true, if_neg Bool.false_ne_true]
      exact ih hroom
    · rename_i hkeep
      rw [filter_cons, eq_false_of_ne_true hkeep, Bool.not_false, if_pos rfl]
      rw [any_some, length_append, length_singleton]
      split
      · rename_i hfull
        rw [Bool.and_eq_true, decide_eq_true_eq, decide_eq_true_eq] at hfull
        have hone : limit - res.length = 1 := by omega
        refine ⟨[item], if items.isEmpty then none else some (key item), rfl, ?_, fun hnone => ?_, fun c hc => ?_⟩
        · rw [hone]
          rfl
        · split at hnone
          · rename_i hemp
            rw [isEmpty_iff.mp hemp, hone]
            simp [firsts]
          · cases hnone
        · rw [hone]
          split at hc
          · cases hc
          · exact ⟨rfl, hc⟩
      · rename_i hmore
        have hless : (res ++ [item]).length < limit := by
          rw [Bool.and_eq_true, decide_eq_true_eq, decide_eq_true_eq] at hmore
          rw [length_append, length_singleton]
          omega
        obtain ⟨taken, cursor, hres, htaken, hnone, hsome⟩ := @ih (some (key item)) (res ++ [item]) hless
        have hleft : limit - res.length = (limit - (res ++ [item]).length) + 1 := by
          rw [length_append, length_singleton] at hless ⊢
          omega
        refine ⟨item :: taken, cursor, ?_, ?_, fun hcsr => ?_, fun c hc => ?_⟩
        · rw [hres, append_assoc]
          rfl
        · rw [hleft, take_succ_cons, ← htaken]
        · rw [hleft, length_cons]
          exact succ_le_succ (hnone hcsr)
        · obtain ⟨hlen, hlast⟩ := hsome c hc
          refine ⟨by rw [length_cons, hlen, hleft], ?_⟩
          cases taken with
          | nil => cases hlast
          | cons y taken => rw [List.getLast?_cons_cons]; exact hlast

/-- The items behind a cursor. -/
def behind (key : α → ℕ) (after : Option ℕ) (items : List α) : List α := items.filter fun x => after.all fun cursor => decide (cursor < key x)

theorem behind_none (items : List α) : behind key none items = items := filter_eq_self.mpr fun _ _ => rfl

variable {items : List α}

theorem ascending_ordered (h : Ascending key items) : Ordered key items := h.imp fun hlt => hlt.le

theorem drop_eq_behind {cursor pos : ℕ} (hbef : ∀ i x, items[i]? = some x → i < pos → key x ≤ cursor)
    (haft : ∀ i x, items[i]? = some x → pos ≤ i → cursor < key x) : items.drop pos = behind key (some cursor) items := by
  conv_rhs => rw [← take_append_drop pos items]
  rw [behind, filter_append]
  have htake : (items.take pos).filter (fun x => (some cursor).all fun cursor => decide (cursor < key x)) = [] := by
    refine filter_eq_nil_iff.mpr fun x hx => ?_
    obtain ⟨i, hi⟩ := mem_iff_getElem?.mp hx
    rw [getElem?_take] at hi
    split at hi
    · rename_i hlt
      simpa using hbef i x hi hlt
    · cases hi
  have hdrop : (items.drop pos).filter (fun x => (some cursor).all fun cursor => decide (cursor < key x)) = items.drop pos := by
    refine filter_eq_self.mpr fun x hx => ?_
    obtain ⟨i, hi⟩ := mem_iff_getElem?.mp hx
    rw [getElem?_drop] at hi
    simpa using haft (pos + i) x hi (le_add_right _ _)
  rw [htake, hdrop, nil_append]

/-- Behind the key of an item are the items after it. -/
theorem drop_item (h : Ascending key items) {pos : ℕ} {x : α} (hx : items[pos]? = some x) :
    items.drop (pos + 1) = behind key (some (key x)) items :=
  drop_eq_behind (fun _ _ hy hi => h.le_of_le hy hx (le_of_lt_succ hi)) fun _ _ hy hi => h.lt_of_lt hx hy hi

/-- A search enters an ascending source right behind the cursor. -/
theorem seek_eq (ops : SliceOps key) {src : List α} (h : Ascending key src) (after : Option ℕ) :
    seek ops after src = behind key after src := by
  cases after with
  | none => exact (behind_none src).symm
  | some cursor =>
    rw [seek]
    cases hsrch : ops.binarySearchByKey src cursor with
    | ok pos =>
      obtain ⟨y, hy, rfl⟩ := ops.found (ascending_ordered h) hsrch
      exact drop_item h hy
    | error pos =>
      have habs := ops.absent (ascending_ordered h) hsrch
      exact drop_eq_behind (fun i x hx hi => ((habs i x hx).1 hi).le) fun i x hx hi => (habs i x hx).2 hi

section
variable (lists : List (List α)) (after : Option ℕ)

theorem firstHolding_behind (k : ℕ) :
    firstHolding key (lists.map (behind key after)) k = if after.all fun cursor => decide (cursor < k) then firstHolding key lists k else none := by
  have hfind : ∀ list : List α, (behind key after list).find? (fun x => decide (key x = k)) =
      if after.all fun cursor => decide (cursor < k) then list.find? fun x => decide (key x = k) else none := by
    intro list
    rw [behind, List.find?_filter]
    split
    · rename_i hbeh
      congr 1
      funext x
      by_cases hk : key x = k
      · simp [hk, hbeh]
      · simp [hk]
    · rename_i hbef
      rw [find?_eq_none]
      intro x _ hx
      rw [decide_eq_true_eq, decide_eq_true_eq] at hx
      rw [← hx.2] at hbef
      exact hbef hx.1
  induction lists with
  | nil => exact (ite_self none).symm
  | cons list lists ih =>
    have hcons : ∀ (fst : List α) rest, firstHolding key (fst :: rest) k =
        (fst.find? fun x => decide (key x = k)).or (firstHolding key rest k) := by
      intro fst rest
      rw [firstHolding, findSome?_cons]
      cases fst.find? fun x => decide (key x = k) <;> rfl
    rw [map_cons, hcons, hcons, hfind, ih]
    by_cases hbeh : (after.all fun cursor => decide (cursor < k)) = true
    · rw [if_pos hbeh, if_pos hbeh, if_pos hbeh]
    · rw [if_neg hbeh, if_neg hbeh, if_neg hbeh, none_or]

theorem distinctRows_behind :
    distinctRows key (lists.map (behind key after)) = behind key after (distinctRows key lists) := by
  refine ascending_ext ascending_distinctRows (ascending_distinctRows.filter _) fun x => ?_
  rw [mem_distinctRows, firstHolding_behind, behind, mem_filter, mem_distinctRows]
  split
  · rename_i hbeh
    exact (and_iff_left hbeh).symm
  · rename_i hbef
    simp [hbef]

end

section
variable (ops : SliceOps key) (skip : α → Bool) {memtableItems : List α} {segmentSortedItems : List (List α)}

def pagedRows (key : α → ℕ) (skip : α → Bool) (lists : List (List α)) : List α := (distinctRows key lists).filter fun x => !skip x

section
variable (hdist : (memtableItems.map key).Nodup)
include hdist

theorem ascending_sorted : Ascending key (ops.sortUnstableByKey memtableItems) := by
  have hnd : ((ops.sortUnstableByKey memtableItems).map key).Nodup := ((ops.perm memtableItems).map key).nodup_iff.mpr hdist
  exact (ops.sorted memtableItems).imp₂ (fun _ _ hle hne => lt_of_le_of_ne hle hne) (pairwise_map.mp hnd)

/-- Sorting the list of the memtable does not change what it has under a key. -/
theorem distinctRows_sorted :
    distinctRows key (ops.sortUnstableByKey memtableItems :: segmentSortedItems) = distinctRows key (memtableItems :: segmentSortedItems) := by
  have hfind : ∀ k, (ops.sortUnstableByKey memtableItems).find? (fun x => decide (key x = k)) =
      memtableItems.find? fun x => decide (key x = k) := by
    intro k
    have huniq : ∀ x ∈ memtableItems, ∀ y ∈ memtableItems, key x = key y → x = y := fun x hx y hy => inj_on_of_nodup_map hdist hx hy
    have hmem := fun x => (ops.perm memtableItems).mem_iff (a := x)
    cases hleft : (ops.sortUnstableByKey memtableItems).find? fun x => decide (key x = k) with
    | none =>
      rw [find?_eq_none] at hleft
      exact (find?_eq_none.mpr fun x hx => hleft x ((hmem x).mpr hx)).symm
    | some x =>
      have hx := (hmem x).mp (mem_of_find?_eq_some hleft)
      have hxk : decide (key x = k) = true := @find?_some α (fun y => decide (key y = k)) x _ hleft
      cases hrt : memtableItems.find? fun x => decide (key x = k) with
      | none => exact absurd hxk (find?_eq_none.mp hrt x hx)
      | some y =>
        have hyk : decide (key y = k) = true := @find?_some α (fun y => decide (key y = k)) y _ hrt
        rw [decide_eq_true_eq] at hxk hyk
        rw [huniq x hx y (mem_of_find?_eq_some hrt) (hxk.trans hyk.symm)]
  have hfst : ∀ k, firstHolding key (ops.sortUnstableByKey memtableItems :: segmentSortedItems) k =
      firstHolding key (memtableItems :: segmentSortedItems) k := by
    intro k
    rw [firstHolding, findSome?_cons, hfind, firstHolding, findSome?_cons]
  refine ascending_ext ascending_distinctRows ascending_distinctRows fun x => ?_
  rw [mem_distinctRows, mem_distinctRows, hfst]

/-- A page holds the next rows behind its cursor. -/
theorem mergeSortedPaged_spec (hsegs : ∀ src ∈ segmentSortedItems, Ascending key src)
    {limit : ℕ} (hlim : 0 < limit) (after : Option ℕ) :
    ∃ cursor, mergeSortedPaged ops skip memtableItems segmentSortedItems ⟨some limit, after⟩ =
        ⟨(behind key after (pagedRows key skip (memtableItems :: segmentSortedItems))).take limit, cursor⟩ ∧
      (cursor = none → (behind key after (pagedRows key skip (memtableItems :: segmentSortedItems))).length ≤ limit) ∧
      ∀ c, cursor = some c → limit ≤ (behind key after (pagedRows key skip (memtableItems :: segmentSortedItems))).length ∧
        ((behind key after (pagedRows key skip (memtableItems :: segmentSortedItems))).take limit).getLast?.map key = some c := by
  have hsrcs : ∀ src ∈ ops.sortUnstableByKey memtableItems :: segmentSortedItems, Ascending key src := by
    intro src hsrc
    obtain rfl | hsrc := mem_cons.mp hsrc
    · exact ascending_sorted ops hdist
    · exact hsegs src hsrc
  have hseek : (ops.sortUnstableByKey memtableItems :: segmentSortedItems).map (seek ops after) =
      (ops.sortUnstableByKey memtableItems :: segmentSortedItems).map (behind key after) :=
    map_congr_left fun src hsrc => seek_eq ops (hsrcs src hsrc) after
  have hord : ∀ list ∈ (ops.sortUnstableByKey memtableItems :: segmentSortedItems).map (behind key after), Ordered key list := by
    intro list hlist
    obtain ⟨src, hsrc, rfl⟩ := mem_map.mp hlist
    exact ascending_ordered ((hsrcs src hsrc).filter _)
  have hrows : (firsts key none (mergeAll key ((ops.sortUnstableByKey memtableItems :: segmentSortedItems).map (behind key after)))).filter
      (fun x => !skip x) = behind key after (pagedRows key skip (memtableItems :: segmentSortedItems)) := by
    rw [firsts_mergeAll hord, distinctRows_behind, distinctRows_sorted ops hdist, pagedRows, behind, behind, filter_filter, filter_filter]
    refine filter_congr fun x _ => Bool.and_comm _ _
  obtain ⟨taken, cursor, hres, htaken, hnone, hsome⟩ := @emitLoop_spec α key skip limit
    (mergeAll key ((ops.sortUnstableByKey memtableItems :: segmentSortedItems).map (behind key after))) none [] hlim
  rw [hrows, length_nil, Nat.sub_zero] at htaken hnone
  rw [length_nil, Nat.sub_zero] at hsome
  refine ⟨cursor, ?_, hnone, fun c hc => ?_⟩
  · rw [mergeSortedPaged, hseek, mergeLoop_eq skip (some limit) _ (Nat.lt_succ_self _), hres, nil_append, htaken]
  · obtain ⟨hlen, hlast⟩ := hsome c hc
    rw [htaken] at hlen hlast
    refine ⟨?_, hlast⟩
    rw [length_take] at hlen
    omega

end

theorem behind_last {rows : List α} (h : Ascending key rows) {limit c : ℕ} (hlast : (rows.take limit).getLast?.map key = some c) :
    behind key (some c) rows = rows.drop limit := by
  obtain ⟨x, hx, rfl⟩ := map_eq_some_iff.mp hlast
  have hplace : ∃ n, (rows.take limit)[n]? = some x ∧ n + 1 = (rows.take limit).length := by
    rw [List.getLast?_eq_getElem?] at hx
    have hlen : 0 < (rows.take limit).length := by
      cases hrows : rows.take limit with
      | nil => rw [hrows] at hx; cases hx
      | cons y rest => exact succ_pos _
    exact ⟨_, hx, by omega⟩
  obtain ⟨n, hn, hlen⟩ := hplace
  have hwh : rows[n]? = some x := by
    rw [getElem?_take] at hn
    split at hn
    · exact hn
    · cases hn
  rw [← drop_item h hwh, hlen, length_take]
  obtain hlt | hge := lt_or_ge limit rows.length
  · rw [min_eq_left hlt.le]
  · rw [min_eq_right hge, drop_length, drop_eq_nil_of_le hge]

theorem behind_behind {rows : List α} {after : Option ℕ} {x : α} (hx : x ∈ behind key after rows) :
    behind key (some (key x)) (behind key after rows) = behind key (some (key x)) rows := by
  obtain ⟨-, hbeh⟩ := mem_filter.mp hx
  rw [behind, behind, behind, filter_filter]
  refine filter_congr fun y _ => ?_
  cases after with
  | none => simp
  | some cursor =>
    rw [all_some, decide_eq_true_eq] at hbeh
    by_cases hlt : key x < key y
    · simp [hlt, hbeh.trans hlt]
    · simp [hlt]

theorem followPages_spec (hdist : (memtableItems.map key).Nodup) (hsegs : ∀ src ∈ segmentSortedItems, Ascending key src)
    {limit : ℕ} (hlim : 0 < limit) (requests : ℕ) (after : Option ℕ)
    (hreqs : (behind key after (pagedRows key skip (memtableItems :: segmentSortedItems))).length < requests) :
    followPages ops skip memtableItems segmentSortedItems limit requests after =
      some (behind key after (pagedRows key skip (memtableItems :: segmentSortedItems))) := by
  have hasc : Ascending key (pagedRows key skip (memtableItems :: segmentSortedItems)) := ascending_distinctRows.filter _
  induction requests generalizing after with
  | zero => exact absurd hreqs (not_lt_zero _)
  | succ requests ih =>
    obtain ⟨cursor, hpage, hnone, hsome⟩ := mergeSortedPaged_spec ops skip hdist hsegs hlim after
    rw [followPages, hpage]
    cases cursor with
    | none =>
      dsimp only
      rw [take_of_length_le (hnone rfl)]
    | some c =>
      obtain ⟨hfull, hlast⟩ := hsome c rfl
      have hrest : behind key (some c) (behind key after (pagedRows key skip (memtableItems :: segmentSortedItems))) =
          (behind key after (pagedRows key skip (memtableItems :: segmentSortedItems))).drop limit := behind_last (hasc.filter _) hlast
      obtain ⟨x, hx, rfl⟩ := map_eq_some_iff.mp hlast
      rw [behind_behind (mem_of_mem_take (mem_of_getLast? hx))] at hrest
      have hless : (behind key (some (key x)) (pagedRows key skip (memtableItems :: segmentSortedItems))).length < requests := by
        rw [hrest, length_drop]
        omega
      dsimp only
      rw [ih (some (key x)) hless, hrest, map_some, take_append_drop]

end

theorem pagesRight_of_distinct {memtableItems : List α} {segmentSortedItems : List (List α)} (hdist : (memtableItems.map key).Nodup)
    (hsegs : ∀ src ∈ segmentSortedItems, Ascending key src) : PagesRight key memtableItems segmentSortedItems := by
  intro ops skip limit hlim
  refine ⟨(pagedRows key skip (memtableItems :: segmentSortedItems)).length + 1, fun requests hreqs => ?_⟩
  have hpages := followPages_spec ops skip hdist hsegs hlim requests none (by rw [behind_none]; exact hreqs)
  rw [behind_none] at hpages
  exact hpages

section

/-- The items before a key. -/
def smaller (key : α → ℕ) (items : List α) (cursor : ℕ) : List α := items.takeWhile fun x => decide (key x < cursor)

def notSmaller (key : α → ℕ) (items : List α) (cursor : ℕ) : List α := items.dropWhile fun x => decide (key x < cursor)

theorem smaller_append (items : List α) (cursor : ℕ) : smaller key items cursor ++ notSmaller key items cursor = items :=
  takeWhile_append_dropWhile

variable {x : α}

theorem lt_of_mem_smaller {items : List α} {cursor : ℕ} (hx : x ∈ smaller key items cursor) : key x < cursor := by
  induction items with
  | nil => cases hx
  | cons y items ih =>
    rw [smaller, takeWhile_cons] at hx
    split at hx
    · rename_i hlt
      obtain rfl | hx := mem_cons.mp hx
      · exact of_decide_eq_true hlt
      · exact ih hx
    · cases hx

theorem le_of_mem_notSmaller {items : List α} (h : Ordered key items) {cursor : ℕ} (hx : x ∈ notSmaller key items cursor) :
    cursor ≤ key x := by
  induction items with
  | nil => cases hx
  | cons y items ih =>
    obtain ⟨hy, hitems⟩ := pairwise_cons.mp h
    rw [notSmaller, dropWhile_cons] at hx
    split at hx
    · exact ih hitems hx
    · rename_i hge
      rw [decide_eq_true_eq, not_lt] at hge
      obtain rfl | hx := mem_cons.mp hx
      · exact hge
      · exact hge.trans (hy x hx)

/-- The search that finds the first of several items. -/
def firstMatch (key : α → ℕ) (items : List α) (cursor : ℕ) : Except ℕ ℕ :=
  if (notSmaller key items cursor).head?.any fun x => decide (key x = cursor) then .ok (smaller key items cursor).length
  else .error (smaller key items cursor).length

/-- Operations as they may be. -/
def firstMatchOps (key : α → ℕ) : SliceOps key where
  sortUnstableByKey items := items.insertionSort fun a b => key a ≤ key b
  binarySearchByKey := firstMatch key
  perm items := perm_insertionSort _ _
  sorted items := by
    have htotal : Std.Total fun a b : α => key a ≤ key b := ⟨fun a b => le_total _ _⟩
    have htrans : IsTrans α fun a b => key a ≤ key b := ⟨fun _ _ _ hab hbc => le_trans hab hbc⟩
    exact pairwise_insertionSort _ _
  found {items cursor pos} _ hfnd := by
    rw [firstMatch] at hfnd
    split at hfnd
    · rename_i hany
      obtain rfl := Except.ok.inj hfnd
      cases hrest : notSmaller key items cursor with
      | nil => rw [hrest] at hany; cases hany
      | cons x rest =>
        rw [hrest, List.head?_cons, any_some, decide_eq_true_eq] at hany
        have hplace : (smaller key items cursor ++ notSmaller key items cursor)[(smaller key items cursor).length]? = some x := by
          rw [List.getElem?_append_right (Nat.le_refl _), Nat.sub_self, hrest]
          rfl
        rw [smaller_append] at hplace
        exact ⟨x, hplace, hany⟩
    · cases hfnd
  absent {items cursor pos} hord habs i x hx := by
    rw [firstMatch] at habs
    split at habs
    · cases habs
    · rename_i hnone
      obtain rfl := Except.error.inj habs
      rw [← @smaller_append α key items cursor] at hx
      constructor
      · intro hi
        rw [List.getElem?_append_left hi] at hx
        exact lt_of_mem_smaller (mem_of_getElem? hx)
      · intro hi
        rw [List.getElem?_append_right hi] at hx
        have hrest := mem_of_getElem? hx
        refine lt_of_le_of_ne (le_of_mem_notSmaller hord hrest) fun heq => hnone ?_
        cases hhead : notSmaller key items cursor with
        | nil => rw [hhead] at hrest; cases hrest
        | cons y rest =>
          -- The first item is not smaller than the key either.
          have hy : cursor ≤ key y := le_of_mem_notSmaller hord (by rw [hhead]; exact mem_cons_self)
          have hle : key y ≤ key x := by
            rw [hhead] at hrest
            have hsuf : Ordered key (y :: rest) := by
              rw [← hhead]
              exact hord.sublist (dropWhile_sublist _)
            obtain rfl | hx' := mem_cons.mp hrest
            · exact le_rfl
            · exact (pairwise_cons.mp hsuf).1 x hx'
          rw [List.head?_cons, any_some, decide_eq_true_eq]
          exact le_antisymm (heq ▸ hle) hy

/-- With room for one item a page ends at the first that is not skipped. -/
theorem emitLoop_first {skip : α → Bool} {before rest : List α} (hbef : ∀ y ∈ before, skip y = true ∧ key y ≠ key x)
    (hkeep : skip x = false) {last : Option ℕ} (hlast : last ≠ some (key x)) :
    emitLoop key skip (some 1) (before ++ x :: rest) last [] = ⟨[x], if rest.isEmpty then none else some (key x)⟩ := by
  induction before generalizing last with
  | nil =>
    rw [nil_append, emitLoop, if_neg hlast, hkeep, if_neg Bool.false_ne_true]
    rfl
  | cons y before ih =>
    obtain ⟨hskip, hne⟩ := hbef y mem_cons_self
    have hrest : ∀ z ∈ before, skip z = true ∧ key z ≠ key x := fun z hz => hbef z (mem_cons_of_mem _ hz)
    rw [cons_append, emitLoop]
    split
    · exact ih hrest hlast
    · exact ih hrest fun heq => hne (some.inj heq)

theorem exists_first {items : List α} {k : ℕ} (hx : x ∈ items) (hk : key x = k) :
    ∃ before y rest, items = before ++ y :: rest ∧ key y = k ∧ ∀ z ∈ before, key z ≠ k := by
  cases hfind : items.find? fun y => decide (key y = k) with
  | none => exact absurd (decide_eq_true hk) (find?_eq_none.mp hfind x hx)
  | some y =>
    obtain ⟨hy, before, rest, rfl, hbef⟩ := List.find?_eq_some_iff_append.mp hfind
    exact ⟨before, y, rest, rfl, of_decide_eq_true hy, fun z hz => by simpa using hbef z hz⟩

theorem mergeAll_perm (lists : List (List α)) : (mergeAll key lists).Perm lists.flatten := by
  induction lists with
  | nil => exact Perm.refl _
  | cons list lists ih =>
    rw [mergeAll_cons, flatten_cons]
    exact (merge_perm_append (keyLe key)).trans (ih.append_left list)

section
variable {memtableItems : List α} {segmentSortedItems : List (List α)}

/-- Where a key occurs twice a search may stop at the first occurrence, and the page behind it starts with the second. -/
theorem not_pagesRight_of_repeated (hrepe : ¬(memtableItems.map key).Nodup) :
    ¬PagesRight key memtableItems segmentSortedItems := by
  obtain ⟨k, hk⟩ := exists_duplicate_iff_not_nodup.mpr hrepe
  rw [duplicate_iff_two_le_count] at hk
  generalize hsort : (firstMatchOps key).sortUnstableByKey memtableItems = sorted
  have hord : Ordered key sorted := hsort ▸ (firstMatchOps key).sorted memtableItems
  have hcnt : 2 ≤ (sorted.map key).count k := by
    rw [← hsort, (((firstMatchOps key).perm memtableItems).map key).count_eq]
    exact hk
  -- The list of the memtable up to the second item with the key.
  have hsp : ∃ x y rest, notSmaller key sorted k = x :: y :: rest ∧ key x = k ∧ key y = k := by
    have hnone : ((smaller key sorted k).map key).count k = 0 := by
      rw [count_eq_zero, mem_map]
      rintro ⟨z, hz, hzk⟩
      exact absurd hzk (lt_of_mem_smaller hz).ne
    rw [← @smaller_append α key sorted k, map_append, count_append, hnone, zero_add] at hcnt
    have hsuf : Ordered key (notSmaller key sorted k) := hord.sublist (dropWhile_sublist _)
    have hge : ∀ z ∈ notSmaller key sorted k, k ≤ key z := fun z hz => le_of_mem_notSmaller hord hz
    generalize notSmaller key sorted k = items at hcnt hsuf hge
    cases items with
    | nil => simp at hcnt
    | cons x items =>
      obtain ⟨hx, hitems⟩ := pairwise_cons.mp hsuf
      have hmore : 0 < (items.map key).count k := by
        rw [map_cons, count_cons] at hcnt
        split at hcnt <;> omega
      rw [count_pos_iff, mem_map] at hmore
      obtain ⟨z, hz, hzk⟩ := hmore
      cases items with
      | nil => cases hz
      | cons y items =>
        refine ⟨x, y, items, rfl, le_antisymm (hzk ▸ hx z hz) (hge x mem_cons_self), le_antisymm ?_ (hge y (by simp))⟩
        obtain rfl | hz := mem_cons.mp hz
        · exact hzk.le
        · exact hzk ▸ (pairwise_cons.mp hitems).1 z hz
  obtain ⟨x, y, rest, hnotSmaller, hx, hy⟩ := hsp
  have hpage : ∀ after sources, (sorted :: segmentSortedItems).map (seek (firstMatchOps key) after) = sources →
      ∀ before z rest, mergeAll key sources = before ++ z :: rest → key z = k → (∀ u ∈ before, key u ≠ k) →
      mergeSortedPaged (firstMatchOps key) (fun u => decide (key u ≠ k)) memtableItems segmentSortedItems ⟨some 1, after⟩ =
        ⟨[z], if rest.isEmpty then none else some k⟩ := by
    rintro after sources rfl before z rest hmerge hz hbef
    rw [mergeSortedPaged, hsort, mergeLoop_eq _ _ _ (lt_succ_self _), hmerge,
      emitLoop_first (fun u hu => ⟨decide_eq_true (hbef u hu), hz ▸ hbef u hu⟩) (by simp [hz]) (some_ne_none _).symm, hz]
  -- The first page ends with the first item of the key.
  have hfst : ∃ z, mergeSortedPaged (firstMatchOps key) (fun u => decide (key u ≠ k)) memtableItems segmentSortedItems ⟨some 1, none⟩ =
      ⟨[z], some k⟩ := by
    have hmem : x ∈ mergeAll key (sorted :: segmentSortedItems) := by
      refine mem_mergeAll.mpr ⟨sorted, mem_cons_self, ?_⟩
      rw [← @smaller_append α key sorted k, hnotSmaller]
      simp
    obtain ⟨before, z, after, hmerge, hz, hbef⟩ := exists_first hmem hx
    have htwo : 2 ≤ ((mergeAll key (sorted :: segmentSortedItems)).map key).count k := by
      rw [((mergeAll_perm _).map key).count_eq, flatten_cons, map_append, count_append]
      omega
    have hmore : after.isEmpty = false := by
      have hnone : (before.map key).count k = 0 := by
        rw [count_eq_zero, mem_map]
        rintro ⟨u, hu, huk⟩
        exact hbef u hu huk
      rw [hmerge, map_append, count_append, hnone, map_cons, count_cons, hz] at htwo
      cases after with
      | nil => simp at htwo
      | cons u after => rfl
    refine ⟨z, ?_⟩
    have hsame : (sorted :: segmentSortedItems).map (seek (firstMatchOps key) none) = sorted :: segmentSortedItems := map_id _
    rw [hpage none _ hsame before z after hmerge hz hbef, hmore, if_neg Bool.false_ne_true]
  -- The second page starts with the second item.
  have hsnd : ∃ z cursor, mergeSortedPaged (firstMatchOps key) (fun u => decide (key u ≠ k)) memtableItems segmentSortedItems
      ⟨some 1, some k⟩ = ⟨[z], cursor⟩ := by
    have hseek : y ∈ seek (firstMatchOps key) (some k) sorted := by
      have hsrch : firstMatch key sorted k = .ok (smaller key sorted k).length := by
        rw [firstMatch, hnotSmaller, head?_cons, any_some, if_pos (decide_eq_true hx)]
      have hdrop : (smaller key sorted k ++ notSmaller key sorted k).drop ((smaller key sorted k).length + 1) = y :: rest := by
        rw [drop_append, drop_eq_nil_of_le (Nat.le_succ _), Nat.add_sub_cancel_left, hnotSmaller]
        rfl
      rw [smaller_append] at hdrop
      rw [seek]
      simp only [firstMatchOps, hsrch, hdrop]
      exact mem_cons_self
    have hmem : y ∈ mergeAll key ((sorted :: segmentSortedItems).map (seek (firstMatchOps key) (some k))) :=
      mem_mergeAll.mpr ⟨_, mem_map_of_mem mem_cons_self, hseek⟩
    obtain ⟨before, z, after, hmerge, hz, hbef⟩ := exists_first hmem hy
    exact ⟨z, _, hpage (some k) _ rfl before z after hmerge hz hbef⟩
  obtain ⟨z, hfst⟩ := hfst
  obtain ⟨u, cursor, hsnd⟩ := hsnd
  intro hrt
  obtain ⟨enough, hpages⟩ := hrt (firstMatchOps key) (fun v => decide (key v ≠ k)) 1 one_pos
  have hfollow := hpages (enough + 1 + 1) (by omega)
  have hsh : ((distinctRows key (memtableItems :: segmentSortedItems)).filter fun v => !decide (key v ≠ k)).length ≤ 1 := by
    have hasc : Ascending key ((distinctRows key (memtableItems :: segmentSortedItems)).filter fun v => !decide (key v ≠ k)) :=
      ascending_distinctRows.filter _
    have hkeys : ∀ v ∈ (distinctRows key (memtableItems :: segmentSortedItems)).filter fun v => !decide (key v ≠ k), key v = k :=
      fun v hv => by simpa using (mem_filter.mp hv).2
    generalize ((distinctRows key (memtableItems :: segmentSortedItems)).filter fun v => !decide (key v ≠ k)) = rows at hasc hkeys
    cases rows with
    | nil => exact zero_le _
    | cons a rows =>
      cases rows with
      | nil => exact le_rfl
      | cons b rows =>
        have hlt := (pairwise_cons.mp hasc).1 b mem_cons_self
        rw [hkeys a mem_cons_self, hkeys b (by simp)] at hlt
        exact absurd hlt (lt_irrefl _)
  rw [followPages, hfst] at hfollow
  dsimp only at hfollow
  rw [followPages, hsnd] at hfollow
  cases cursor with
  | none =>
    have hlen := congrArg List.length (some.inj hfollow)
    rw [length_append, length_singleton, length_singleton] at hlen
    omega
  | some next =>
    obtain ⟨pages, hnext, heq⟩ := map_eq_some_iff.mp hfollow
    obtain ⟨others, -, rfl⟩ := map_eq_some_iff.mp hnext
    have hlen := congrArg List.length heq
    rw [length_append, length_append, length_singleton, length_singleton] at hlen
    omega

theorem pagesRight_iff (hsegs : ∀ src ∈ segmentSortedItems, Ascending key src) :
    PagesRight key memtableItems segmentSortedItems ↔ (memtableItems.map key).Nodup :=
  ⟨fun hrt => by_contra fun hrepe => not_pagesRight_of_repeated hrepe hrt, fun hdist => pagesRight_of_distinct hdist hsegs⟩

end

end

end OverGraph.PagedMerges
