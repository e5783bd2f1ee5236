import CopyPaste.Cloud.Pull
import Mathlib

/-!
Hostile rows neither stall nor censor the download. A page moves the cursor past
each of its rows stamped at or before the clock, accepted or refused, and to no
other refused row; so an honest row that a page does not hold lies behind a page
that was passed, and the rows before it run out.
-/

namespace CopyPaste.Cloud.Drain

open Lib.Keyset Lib.Rows Upload.Scanning Backend Pull

/-- The position of an item, as the cursor counts it. -/
def itemKey (item : LocalItem) : Cursor := ⟨item.createdAt, some item.itemId⟩

theorem le_advancePast (cursor : Cursor) (createdAt : Int) (itemId : String) :
    cursor ≤ advancePast cursor createdAt itemId := by
  unfold advancePast
  split
  · rename_i h
    exact h.le
  · exact le_rfl

theorem row_le_advancePast (cursor : Cursor) (createdAt : Int) (itemId : String) :
    ⟨createdAt, some itemId⟩ ≤ advancePast cursor createdAt itemId := by
  unfold advancePast
  split
  · exact le_rfl
  · rename_i h
    exact not_lt.1 h

theorem advancePast_eq (cursor : Cursor) (createdAt : Int) (itemId : String) :
    advancePast cursor createdAt itemId = cursor ∨
      advancePast cursor createdAt itemId = ⟨createdAt, some itemId⟩ := by
  unfold advancePast
  split
  · exact Or.inr rfl
  · exact Or.inl rfl

theorem judge_accepted {key : SyncKey} {now : Int} {row : CloudItem} {item : LocalItem}
    (h : judge key now row = .accepted item) : itemKey item = rowKey row := by
  unfold judge at h
  split at h
  · simp at h
  split at h
  · simp at h
  split at h
  · simp at h
  split at h
  · simp at h
  · split at h
    · simp at h
    · simp only [Verdict.accepted.injEq] at h
      rw [← h]
      rfl

/-- The future check alone depends on the clock. -/
theorem judge_of_le {key : SyncKey} {now now' : Int} {row : CloudItem} {item : LocalItem}
    (h : judge key now row = .accepted item)
    (hnow : row.createdAt ≤ saturatingAdd now' maxFutureSkewMs) :
    judge key now' row = .accepted item := by
  unfold judge at h ⊢
  split at h
  · simp at h
  · rw [if_neg (not_lt.2 hnow)]
    exact h

/-- What reading rows does to the cursor and the batch. -/
structure ReadSpec (key : SyncKey) (now : Int) (rows : List CloudItem) (before after : PageRead) :
    Prop where
  advances : before.advanced ≤ after.advanced
  refusal : after.advanced = before.advanced ∨
    ∃ row ∈ rows, after.advanced = rowKey row ∧ row.createdAt ≤ now
  batch : ∃ more, after.batch = before.batch ++ more ∧
    (∀ item ∈ more, ∃ row ∈ rows, judge key now row = .accepted item) ∧
    (∀ row ∈ rows, ∀ item, judge key now row = .accepted item → item ∈ more) ∧
    (rows.Pairwise (fun a b => rowKey a < rowKey b) →
      more.Pairwise (fun a b => itemKey a < itemKey b))
  passed : ∀ row ∈ rows, row.createdAt ≤ now → (∃ item, judge key now row = .accepted item) ∨
    rowKey row ≤ after.advanced

private theorem saturatingAdd_skew (now createdAt : Int) (h : createdAt ≤ now)
    (hbound : createdAt ≤ i64Max) : createdAt ≤ saturatingAdd now maxFutureSkewMs := by
  unfold saturatingAdd maxFutureSkewMs
  omega

/-- One row: a refusal moves the cursor only up to the clock, an acceptance only
extends the batch. -/
private theorem readRow_cases (key : SyncKey) (now : Int) (read : PageRead) (row : CloudItem) :
    (∃ item, judge key now row = .accepted item ∧
      (readRow key now read row).batch = read.batch ++ [item] ∧
      (readRow key now read row).advanced = read.advanced) ∨
    (∀ item, judge key now row ≠ .accepted item) ∧
      (readRow key now read row).batch = read.batch ∧
      (judge key now row = .future ∧ (readRow key now read row).advanced = read.advanced ∨
        (readRow key now read row).advanced =
          advanceAfterRefusal read.advanced row.createdAt row.itemId now) := by
  unfold readRow
  split
  · rename_i h
    exact Or.inr ⟨by simp [h], rfl, Or.inl ⟨h, rfl⟩⟩
  · rename_i h
    exact Or.inr ⟨by simp [h], rfl, Or.inr rfl⟩
  · rename_i h
    exact Or.inr ⟨by simp [h], rfl, Or.inr rfl⟩
  · rename_i h
    exact Or.inr ⟨by simp [h], rfl, Or.inr rfl⟩
  · rename_i item h
    exact Or.inl ⟨item, h, rfl, rfl⟩

private theorem le_advanceAfterRefusal (cursor : Cursor) (createdAt : Int) (itemId : String)
    (now : Int) : cursor ≤ advanceAfterRefusal cursor createdAt itemId now := by
  unfold advanceAfterRefusal
  split
  · exact le_advancePast cursor createdAt itemId
  · exact le_rfl

private theorem readSpec_row (key : SyncKey) (now : Int) (read : PageRead) (row : CloudItem)
    (hbound : row.createdAt ≤ i64Max) :
    ReadSpec key now [row] read (readRow key now read row) := by
  rcases readRow_cases key now read row with
    ⟨item, hitem, hbatch, hadvanced⟩ | ⟨hnone, hbatch, hcase⟩
  · refine ⟨hadvanced.ge, Or.inl hadvanced, ⟨[item], hbatch, ?_, ?_, by simp⟩, ?_⟩
    · intro other hother
      rw [List.mem_singleton.1 hother]
      exact ⟨row, List.mem_singleton_self row, hitem⟩
    · intro r hr other hother
      rw [List.mem_singleton.1 hr, hitem, Verdict.accepted.injEq] at hother
      exact List.mem_singleton.2 hother.symm
    · intro r hr _
      rw [List.mem_singleton.1 hr]
      exact Or.inl ⟨item, hitem⟩
  · have hno : ∀ r ∈ [row], ∀ item, judge key now r = .accepted item → item ∈ [] := by
      intro r hr item hitem
      rw [List.mem_singleton.1 hr] at hitem
      exact absurd hitem (hnone item)
    have hbatch' : ∃ more, (readRow key now read row).batch = read.batch ++ more ∧
        (∀ item ∈ more, ∃ r ∈ [row], judge key now r = .accepted item) ∧
        (∀ r ∈ [row], ∀ item, judge key now r = .accepted item → item ∈ more) ∧
        ([row].Pairwise (fun a b => rowKey a < rowKey b) →
          more.Pairwise (fun a b => itemKey a < itemKey b)) :=
      ⟨[], by simp [hbatch], by simp, hno, by simp⟩
    rcases hcase with ⟨hfuture, hadvanced⟩ | hadvanced
    · refine ⟨hadvanced.ge, Or.inl hadvanced, hbatch', fun r hr hnow => ?_⟩
      -- A row stamped at or before the clock is never beyond the ceiling.
      rw [List.mem_singleton.1 hr] at hnow
      have hceiling := saturatingAdd_skew now row.createdAt hnow hbound
      unfold judge at hfuture
      rw [if_neg (not_lt.2 hceiling)] at hfuture
      split at hfuture
      · simp at hfuture
      split at hfuture
      · simp at hfuture
      split at hfuture
      · simp at hfuture
      · split at hfuture <;> simp at hfuture
    · refine ⟨?_, ?_, hbatch', ?_⟩
      · rw [hadvanced]
        exact le_advanceAfterRefusal _ _ _ _
      · rw [hadvanced]
        unfold advanceAfterRefusal
        split
        · rename_i hnow
          rcases advancePast_eq read.advanced row.createdAt row.itemId with h | h
          · exact Or.inl h
          · exact Or.inr ⟨row, List.mem_singleton_self row, h, hnow⟩
        · exact Or.inl rfl
      · intro r hr hnow
        rw [List.mem_singleton.1 hr] at hnow ⊢
        right
        rw [hadvanced, advanceAfterRefusal, if_pos hnow]
        exact row_le_advancePast _ _ _

theorem readSpec_foldl (key : SyncKey) (now : Int) (rows : List CloudItem) (read : PageRead)
    (hbound : ∀ row ∈ rows, row.createdAt ≤ i64Max) :
    ReadSpec key now rows read (rows.foldl (readRow key now) read) := by
  induction rows generalizing read with
  | nil => exact ⟨le_rfl, Or.inl rfl, ⟨[], by simp, by simp, by simp, by simp⟩, by simp⟩
  | cons row rest ih =>
    have hrow := readSpec_row key now read row (hbound row List.mem_cons_self)
    have hrest := ih (readRow key now read row) (fun r hr => hbound r (List.mem_cons_of_mem _ hr))
    obtain ⟨first, hfirst, hfrom, hinto, -⟩ := hrow.batch
    obtain ⟨more, hmore, hfrom', hinto', hsorted⟩ := hrest.batch
    refine ⟨hrow.advances.trans hrest.advances, ?_, ⟨first ++ more, ?_, ?_, ?_, ?_⟩, ?_⟩
    · rcases hrest.refusal with h | ⟨r, hr, h⟩
      · rcases hrow.refusal with h' | ⟨r, hr, h', hnow⟩
        · exact Or.inl (h.trans h')
        · rw [List.mem_singleton.1 hr] at h' hnow
          exact Or.inr ⟨row, List.mem_cons_self, h.trans h', hnow⟩
      · exact Or.inr ⟨r, List.mem_cons_of_mem _ hr, h⟩
    · rw [List.foldl_cons, hmore, hfirst, List.append_assoc]
    · intro item hitem
      rcases List.mem_append.1 hitem with h | h
      · obtain ⟨r, hr, hjudge⟩ := hfrom item h
        rw [List.mem_singleton.1 hr] at hjudge
        exact ⟨row, List.mem_cons_self, hjudge⟩
      · obtain ⟨r, hr, hjudge⟩ := hfrom' item h
        exact ⟨r, List.mem_cons_of_mem _ hr, hjudge⟩
    · intro r hr item hitem
      rcases List.mem_cons.1 hr with rfl | hr
      · exact List.mem_append_left _ (hinto r (List.mem_singleton_self r) item hitem)
      · exact List.mem_append_right _ (hinto' r hr item hitem)
    · intro hpairs
      obtain ⟨hhead, htail⟩ := List.pairwise_cons.1 hpairs
      refine List.pairwise_append.2 ⟨?_, hsorted htail, ?_⟩
      · rcases readRow_cases key now read row with ⟨item, -, hbatch, -⟩ | ⟨-, hbatch, -⟩
        · have : first = [item] := List.append_cancel_left (hfirst.symm.trans hbatch)
          simp [this]
        · have : first = [] := by
            have h := hfirst.symm.trans hbatch
            simpa using h
          simp [this]
      · intro a ha b hb
        obtain ⟨r, hr, hjudge⟩ := hfrom a ha
        obtain ⟨r', hr', hjudge'⟩ := hfrom' b hb
        rw [List.mem_singleton.1 hr] at hjudge
        rw [judge_accepted hjudge, judge_accepted hjudge']
        exact hhead r' hr'
    · intro r hr hnow
      rcases List.mem_cons.1 hr with rfl | hr
      · rcases hrow.passed r (List.mem_singleton_self r) hnow with h | h
        · exact Or.inl h
        · exact Or.inr (h.trans hrest.advances)
      · exact hrest.passed r hr hnow

theorem mem_fetchSince {table : Table} {sinceMs : Int} {after : Option String} {limit : Nat}
    {rows : List CloudItem} (h : fetchSince table sinceMs after limit = .ok rows) :
    ∀ row ∈ rows, row ∈ table.rows := by
  intro row hrow
  unfold fetchSince at h
  cases after with
  | none =>
    simp only [pure, Except.pure, Except.ok.injEq] at h
    rw [← h] at hrow
    have hmem := List.mem_of_mem_take hrow
    rw [List.mem_insertionSort] at hmem
    exact (List.mem_filter.1 hmem).1
  | some id =>
    simp only [bind, Except.bind, pure, Except.pure] at h
    split at h
    · simp at h
    · rw [← Except.ok.inj h] at hrow
      have hmem := List.mem_of_mem_take hrow
      rw [List.mem_insertionSort] at hmem
      exact (List.mem_filter.1 hmem).1

section Page

variable (key : SyncKey) (table : Table) (now : Int) (cursor : Cursor) (stats : SyncStats)

theorem readPage_eq (rows : List CloudItem) (hrows : ∀ row ∈ rows, row ∈ table.rows) :
    readPage key now cursor stats rows = (sortPage rows).foldl (readRow key now)
      ⟨cursor, [], { stats with downloaded := stats.downloaded + rows.length }⟩ := by
  have hclamp : rows.map (fun row => { row with createdAt := clampStamp row.createdAt }) = rows := by
    refine (List.map_congr_left fun row hrow => ?_).trans (List.map_id rows)
    have hnonneg := table.nonneg row (hrows row hrow)
    simp only [clampStamp, max_eq_left hnonneg, id_eq]
  rw [readPage, hclamp]

theorem mem_sortPage (rows : List CloudItem) (row : CloudItem) :
    row ∈ sortPage rows ↔ row ∈ rows := by
  simp [sortPage]

/-- Reading any rows of the table, whatever order they came in. -/
theorem readPage_spec (rows : List CloudItem) (hrows : ∀ row ∈ rows, row ∈ table.rows) :
    ReadSpec key now (sortPage rows)
      ⟨cursor, [], { stats with downloaded := stats.downloaded + rows.length }⟩
      (readPage key now cursor stats rows) := by
  rw [readPage_eq key table now cursor stats rows hrows]
  refine readSpec_foldl key now _ _ fun row hrow => ?_
  exact table.bigint row (hrows row ((mem_sortPage rows row).1 hrow))

/-- Taking the batch only moves the cursor forward, to the batch's last row. -/
theorem reached_cases (read : PageRead) :
    read.advanced ≤ read.reached ∧ (read.reached = read.advanced ∨
      ∃ item ∈ read.batch, read.reached = itemKey item) := by
  unfold PageRead.reached
  split
  · rename_i item hitem
    refine ⟨le_advancePast _ _ _, ?_⟩
    rcases advancePast_eq read.advanced item.createdAt item.itemId with h | h
    · exact Or.inl h
    · exact Or.inr ⟨item, List.mem_of_getLast? hitem, h⟩
  · exact ⟨le_rfl, Or.inl rfl⟩

/-- Every item of a sorted batch is reached. -/
theorem item_le_reached (read : PageRead)
    (hsorted : read.batch.Pairwise fun a b => itemKey a < itemKey b) (item : LocalItem)
    (hitem : item ∈ read.batch) : itemKey item ≤ read.reached := by
  unfold PageRead.reached
  split
  · rename_i last hlast
    obtain ⟨front, hfront⟩ := List.getLast?_eq_some_iff.1 hlast
    have hle : itemKey item ≤ itemKey last := by
      rw [hfront] at hitem hsorted
      rcases List.mem_append.1 hitem with h | h
      · exact ((List.pairwise_append.1 hsorted).2.2 item h last (by simp)).le
      · rw [List.mem_singleton.1 h]
    exact hle.trans (row_le_advancePast _ _ _)
  · rename_i hnone
    rw [List.getLast?_eq_none_iff] at hnone
    simp [hnone] at hitem

end Page

section Offering

variable {σ : Type} (source : Source σ)

/-- Settling a batch leaves the cursor and the record of what was offered. -/
theorem settle_frame (outcomes : List Applied) (p : Puller σ) :
    (settle source outcomes p).1.watermark = p.watermark ∧
      (settle source outcomes p).1.offered = p.offered ∧
      (settle source outcomes p).1.fetched = p.fetched := by
  induction outcomes generalizing p with
  | nil => exact ⟨rfl, rfl, rfl⟩
  | cons outcome rest ih =>
    cases outcome with
    | merged => exact ih _
    | declined item =>
      unfold settle
      split
      · exact ih _
      · exact ⟨rfl, rfl, rfl⟩

theorem offer_frame (batch : List LocalItem) (p : Puller σ) :
    (offer source batch p).1.watermark = p.watermark ∧
      (offer source batch p).1.offered = p.offered ++ batch ∧
      (offer source batch p).1.fetched = p.fetched := by
  unfold offer
  by_cases hbatch : batch = []
  · simp [hbatch]
  · rw [if_neg hbatch]
    split
    · exact ⟨rfl, rfl, rfl⟩
    · dsimp only
      split
      · exact settle_frame source _ _
      · exact ⟨rfl, rfl, rfl⟩

/-- A store that answers every batch, one outcome for each row. -/
structure Answers (source : Source σ) : Prop where
  batch : ∀ store batch, ∃ store' outcomes,
    source.applyRemoteBatch store batch = (store', .ok outcomes) ∧ outcomes.length = batch.length
  requeue : ∀ store item, ∃ store' requeued,
    source.requeueLocalWinner store item = (store', .ok requeued)

theorem settle_ok (h : Answers source) (outcomes : List Applied) (p : Puller σ) :
    (settle source outcomes p).2 = none := by
  induction outcomes generalizing p with
  | nil => rfl
  | cons outcome rest ih =>
    cases outcome with
    | merged => exact ih _
    | declined item =>
      obtain ⟨store, requeued, hrequeue⟩ := h.requeue p.store item
      unfold settle
      rw [hrequeue]
      exact ih _

theorem offer_ok (h : Answers source) (batch : List LocalItem) (p : Puller σ) :
    (offer source batch p).2 = none := by
  unfold offer
  by_cases hbatch : batch = []
  · simp [hbatch]
  · obtain ⟨store, outcomes, happly, hlength⟩ := h.batch p.store batch
    rw [if_neg hbatch, happly]
    dsimp only
    rw [if_pos hlength]
    exact settle_ok source h _ _

end Offering

section Pages

variable (key : SyncKey) (table : Table) {σ : Type} (source : Source σ)

/-- What any page does to the cursor: it stays, moves to a row stamped at or
before the clock, or moves to a version the page offered. -/
def MovesWithin (now : Int) (before after : Puller σ) : Prop :=
  before.watermark ≤ after.watermark ∧ ∃ new, after.offered = before.offered ++ new ∧
    (after.watermark = before.watermark ∨ after.watermark.createdAt ≤ now ∨
      ∃ item ∈ new, after.watermark = itemKey item)

theorem pullPage_moves (now : Int) (p : Puller σ) :
    MovesWithin now p (pullPage key table source now p).1 ∧
      (pullPage key table source now p).1.fetched ≤ p.fetched + 1 := by
  unfold pullPage
  split
  · exact ⟨⟨le_rfl, [], by simp, Or.inl rfl⟩, Nat.le_succ _⟩
  · rename_i rows hrows
    dsimp only
    have hread := readPage_spec key table now p.watermark p.stats rows (mem_fetchSince hrows)
    set read := readPage key now p.watermark p.stats rows with hreadEq
    obtain ⟨hwatermark, hoffered, hfetched⟩ := offer_frame source read.batch
      { p with stats := read.stats, fetched := p.fetched + 1 }
    split
    · rename_i p' error hoffer
      rw [hoffer] at hwatermark hoffered hfetched
      exact ⟨⟨hwatermark.ge, read.batch, hoffered, Or.inl hwatermark⟩, hfetched.le⟩
    · rename_i p' hoffer
      rw [hoffer] at hwatermark hoffered hfetched
      obtain ⟨hahead, hreached⟩ := reached_cases read
      have hmoves : MovesWithin now p { p' with watermark := read.reached } := by
        refine ⟨hread.advances.trans hahead, read.batch, hoffered, ?_⟩
        rcases hreached with h | ⟨item, hitem, h⟩
        · rcases hread.refusal with h' | ⟨row, -, h', hnow⟩
          · exact Or.inl (h.trans h')
          · right
            left
            have hstamp : read.reached.createdAt = row.createdAt := by
              rw [h, h']
              rfl
            exact hstamp.le.trans hnow
        · exact Or.inr (Or.inr ⟨item, hitem, h⟩)
      split
      · exact ⟨hmoves, hfetched.le⟩
      · split
        · exact ⟨hmoves, hfetched.le⟩
        · exact ⟨hmoves, hfetched.le⟩

/-- Over a whole pull: the same, with the clock of one of its pages. -/
theorem drain_moves (clock : Nat → Int) (pages : Nat) (p : Puller σ) :
    p.watermark ≤ (drain key table source clock pages p).1.watermark ∧
      (drain key table source clock pages p).1.fetched ≤ p.fetched + pages ∧
      ∃ new, (drain key table source clock pages p).1.offered = p.offered ++ new ∧
        ((drain key table source clock pages p).1.watermark = p.watermark ∨
          (∃ j < pages, (drain key table source clock pages p).1.watermark.createdAt ≤ clock j) ∨
          ∃ item ∈ new, (drain key table source clock pages p).1.watermark = itemKey item) := by
  induction pages generalizing clock p with
  | zero => exact ⟨le_rfl, le_rfl, [], by simp [drain], Or.inl rfl⟩
  | succ pages ih =>
    obtain ⟨⟨hmono, new, hoffered, hwithin⟩, hfetched⟩ := pullPage_moves key table source (clock 0) p
    have hstop : ∀ p', (pullPage key table source (clock 0) p).1 = p' →
        p.watermark ≤ p'.watermark ∧ p'.fetched ≤ p.fetched + (pages + 1) ∧
          ∃ new, p'.offered = p.offered ++ new ∧ (p'.watermark = p.watermark ∨
            (∃ j < pages + 1, p'.watermark.createdAt ≤ clock j) ∨
            ∃ item ∈ new, p'.watermark = itemKey item) := by
      rintro p' rfl
      refine ⟨hmono, by omega, new, hoffered, ?_⟩
      rcases hwithin with h | h | h
      · exact Or.inl h
      · exact Or.inr (Or.inl ⟨0, by omega, h⟩)
      · exact Or.inr (Or.inr h)
    unfold drain
    split
    · rename_i p' hpage
      obtain ⟨hmono', hfetched', new', hoffered', hwithin'⟩ := ih (fun i => clock (i + 1)) p'
      rw [hpage] at hmono hoffered hwithin hfetched
      dsimp only at hfetched
      refine ⟨hmono.trans hmono', by omega, new ++ new', ?_, ?_⟩
      · rw [hoffered', hoffered, List.append_assoc]
      · rcases hwithin' with h | ⟨j, hj, h⟩ | ⟨item, hitem, h⟩
        · rw [h]
          rcases hwithin with h' | h' | ⟨item, hitem, h'⟩
          · exact Or.inl h'
          · exact Or.inr (Or.inl ⟨0, by omega, h'⟩)
          · exact Or.inr (Or.inr ⟨item, List.mem_append_left _ hitem, h'⟩)
        · exact Or.inr (Or.inl ⟨j + 1, by omega, h⟩)
        · exact Or.inr (Or.inr ⟨item, List.mem_append_right _ hitem, h⟩)
    · rename_i p' error hpage
      exact hstop p' (by rw [hpage])
    · rename_i p' _ _ _ hpage
      exact hstop p' (by rw [hpage])

/-- Rows of the table ahead of a cursor. -/
def left (cursor : Cursor) : Nat :=
  (table.rows.filter fun row => cursor < rowKey row).length

variable {row : CloudItem} {item : LocalItem}

private theorem left_lt {before after : Cursor} (h : before < after) (hrow : row ∈ table.rows)
    (hbefore : before < rowKey row) (hafter : rowKey row ≤ after) :
    left table after < left table before := by
  have hfilter : table.rows.filter (fun row => after < rowKey row) =
      (table.rows.filter fun row => before < rowKey row).filter
        fun row => after < rowKey row := by
    rw [List.filter_filter]
    refine List.filter_congr fun r _ => ?_
    by_cases hr : after < rowKey r
    · simp [hr, h.trans hr]
    · simp [hr]
  unfold left
  rw [hfilter, List.length_filter_lt_length_iff_exists]
  exact ⟨row, List.mem_filter.2 ⟨hrow, by simpa using hbefore⟩, by simpa using hafter⟩

theorem resumable_rowKey (hrow : row ∈ table.rows) : Resumable (rowKey row) := by
  refine ⟨table.nonneg row hrow, fun id hid => ?_⟩
  obtain rfl : row.itemId = id := by simpa [rowKey] using hid
  exact table.charset row hrow

/-- One page before an honest row: it offers the row, or it passes a full page
of older rows and leaves the row ahead. -/
theorem pullPage_honest (hanswers : Answers source) (now : Int) (p : Puller σ)
    (hstart : Resumable p.watermark) (hrow : row ∈ table.rows)
    (hjudge : judge key now row = .accepted item) (hnow : row.createdAt ≤ now)
    (hahead : p.watermark < rowKey row) :
    item ∈ (pullPage key table source now p).1.offered ∨
      (pullPage key table source now p).2 = .more ∧
        (pullPage key table source now p).1.watermark < rowKey row ∧
        Resumable (pullPage key table source now p).1.watermark ∧
        left table (pullPage key table source now p).1.watermark < left table p.watermark := by
  have hfetch := fetchSince_eq_page table p.watermark hstart pullPageLimit (by decide) (by decide)
  have hsegment := segment_page (nodup_rowKey table) p.watermark pullPageLimit
  set rows := page rowKey table.rows p.watermark pullPageLimit with hrows
  have hread := readPage_spec key table now p.watermark p.stats rows hsegment.stored
  have hsorted : sortPage rows = rows :=
    (hsegment.sorted.imp fun h => h.le).insertionSort_eq
  rw [hsorted] at hread
  set read := readPage key now p.watermark p.stats rows with hreadEq
  obtain ⟨more, hbatch, hfrom, hinto, hpairs⟩ := hread.batch
  rw [List.nil_append] at hbatch
  obtain ⟨-, hoffered, -⟩ := offer_frame source read.batch
    { p with stats := read.stats, fetched := p.fetched + 1 }
  have hok := offer_ok source hanswers read.batch
    { p with stats := read.stats, fetched := p.fetched + 1 }
  unfold pullPage
  rw [hfetch]
  dsimp only
  rw [← hreadEq]
  generalize hoffer : offer source read.batch
    { p with stats := read.stats, fetched := p.fetched + 1 } = result at hoffered hok
  obtain ⟨p', error⟩ := result
  dsimp only at hok hoffered
  subst hok
  dsimp only
  by_cases hmem : row ∈ rows
  · left
    have hitem : item ∈ p'.offered := by
      rw [hoffered, hbatch]
      exact List.mem_append_right _ (hinto row hmem item hjudge)
    split
    · exact hitem
    · split
      · exact hitem
      · exact hitem
  · right
    have hfull : ¬ rows.length < pullPageLimit := by
      intro hshort
      exact hmem ((mem_page_iff_of_short hshort row).2 ⟨hrow, hahead⟩)
    have hbefore : ∀ r ∈ rows, rowKey r < rowKey row := by
      intro r hr
      by_contra hle
      exact hmem (hsegment.gapless row hrow hahead r hr (not_lt.1 hle))
    -- Every row of the page is stamped at or before the clock, so it is passed.
    have hpassed : ∀ r ∈ rows, rowKey r ≤ read.reached := by
      intro r hr
      have hstamp : r.createdAt ≤ now :=
        (Position.createdAt_le_of_le (hbefore r hr).le).trans hnow
      rcases hread.passed r hr hstamp with ⟨other, hother⟩ | h
      · rw [← judge_accepted hother]
        refine item_le_reached read (hbatch ▸ hpairs hsegment.sorted) other ?_
        rw [hbatch]
        exact hinto r hr other hother
      · exact h.trans (reached_cases read).1
    have hreached : read.reached = p.watermark ∨ ∃ r ∈ rows, read.reached = rowKey r := by
      rcases (reached_cases read).2 with h | ⟨other, hother, h⟩
      · rcases hread.refusal with h' | ⟨r, hr, h', -⟩
        · exact Or.inl (h.trans h')
        · exact Or.inr ⟨r, hr, h.trans h'⟩
      · rw [hbatch] at hother
        obtain ⟨r, hr, hother⟩ := hfrom other hother
        exact Or.inr ⟨r, hr, h.trans (judge_accepted hother)⟩
    obtain ⟨first, hfirst⟩ : ∃ first, first ∈ rows := by
      refine List.exists_mem_of_length_pos ?_
      have : pullPageLimit = 100 := rfl
      omega
    have hmoved : p.watermark < read.reached :=
      (hsegment.above first hfirst).trans_le (hpassed first hfirst)
    rw [if_neg hfull, if_neg hmoved.ne']
    obtain ⟨r, hr, h⟩ := hreached.resolve_left hmoved.ne'
    refine ⟨rfl, h ▸ hbefore r hr, h ▸ resumable_rowKey table (hsegment.stored r hr),
      left_lt table hmoved (hsegment.stored first hfirst) (hsegment.above first hfirst)
        (hpassed first hfirst)⟩

/-- One pull before an honest row: it offers the row, or leaves it ahead with
fewer rows before it. -/
theorem drain_honest (hanswers : Answers source) (clock : Nat → Int) (pages : Nat) (p : Puller σ)
    (hstart : Resumable p.watermark) (hrow : row ∈ table.rows)
    (hjudge : ∀ j, judge key (clock j) row = .accepted item) (hnow : ∀ j, row.createdAt ≤ clock j)
    (hahead : p.watermark < rowKey row) :
    item ∈ (drain key table source clock pages p).1.offered ∨
      (drain key table source clock pages p).1.watermark < rowKey row ∧
        Resumable (drain key table source clock pages p).1.watermark ∧
        left table (drain key table source clock pages p).1.watermark ≤
          left table p.watermark ∧
        (0 < pages → left table (drain key table source clock pages p).1.watermark <
          left table p.watermark) := by
  induction pages generalizing clock p with
  | zero => exact Or.inr ⟨hahead, hstart, le_rfl, by simp⟩
  | succ pages ih =>
    have hpage := pullPage_honest key table source hanswers (clock 0) p hstart hrow (hjudge 0)
      (hnow 0) hahead
    generalize hresult : pullPage key table source (clock 0) p = result at hpage
    obtain ⟨p', hend⟩ := result
    rcases hpage with hoffered | ⟨rfl, hahead', hstart', hless⟩
    · left
      unfold drain
      rw [hresult]
      split
      · rename_i q heq
        obtain ⟨rfl, -⟩ := Prod.mk.inj heq
        obtain ⟨-, -, new, hnew, -⟩ := drain_moves key table source (fun i => clock (i + 1)) pages p'
        rw [hnew]
        exact List.mem_append_left _ hoffered
      · rename_i q error heq
        obtain ⟨rfl, -⟩ := Prod.mk.inj heq
        exact hoffered
      · rename_i q _ _ _ heq
        obtain ⟨rfl, -⟩ := Prod.mk.inj heq
        exact hoffered
    · have hdrain : drain key table source clock (pages + 1) p =
          drain key table source (fun i => clock (i + 1)) pages p' := by
        conv_lhs => unfold drain
        rw [hresult]
      rw [hdrain]
      rcases ih (fun i => clock (i + 1)) p' hstart' (fun j => hjudge (j + 1))
        (fun j => hnow (j + 1)) hahead' with h | ⟨hahead'', hstart'', hle, -⟩
      · exact Or.inl h
      · exact Or.inr ⟨hahead'', hstart'', hle.trans hless.le, fun _ => hle.trans_lt hless⟩

theorem pulls_honest (hanswers : Answers source) (clock : Nat → Nat → Int) (p : Puller σ)
    (hstart : Resumable p.watermark) (hrow : row ∈ table.rows)
    (hjudge : ∀ i j, judge key (clock i j) row = .accepted item)
    (hnow : ∀ i j, row.createdAt ≤ clock i j) (hahead : p.watermark < rowKey row) :
    ∃ n, item ∈ (pulls key table source clock n p).offered := by
  induction hleft : left table p.watermark using Nat.strong_induction_on
    generalizing clock p with
  | _ bound ih =>
    rcases drain_honest key table source hanswers (clock 0) maxPagesPerPull
      { p with stats := {}, republish := false } hstart hrow (hjudge 0) (hnow 0) hahead with
      hoffered | ⟨hahead', hstart', -, hless⟩
    · exact ⟨1, hoffered⟩
    · obtain ⟨n, hn⟩ := ih _ (hleft ▸ hless (by decide)) (fun i => clock (i + 1))
        (pull key table source (clock 0) p).1 hstart' (fun i => hjudge (i + 1))
        (fun i => hnow (i + 1)) hahead' rfl
      exact ⟨n + 1, hn⟩

end Pages

/-- A row the device can take: signed, within the size limit, decryptable, and
stamped at or before the clock of every page. -/
def Honest (key : SyncKey) (clock : Nat → Nat → Int) (row : CloudItem) (item : LocalItem) : Prop :=
  (∃ now, judge key now row = .accepted item) ∧ ∀ i j, row.createdAt ≤ clock i j

/-- For every table, starting watermark and clock: pulls never move the watermark
back; a pull moves it only to a version it offered or to a row stamped at or
before the clock of one of its pages; it fetches at most its page budget; and
every honest row ahead of a resumable watermark is offered after finitely many
pulls. -/
theorem hostile_rows_neither_stall_nor_censor (key : SyncKey) (table : Table) {σ : Type}
    (source : Source σ) (clock : Nat → Nat → Int) (p : Puller σ) :
    (∀ n, (pulls key table source clock n p).watermark ≤
      (pulls key table source clock (n + 1) p).watermark) ∧
    (∀ times q, (pull key table source times q).1.fetched ≤ q.fetched + maxPagesPerPull ∧
      ∃ new, (pull key table source times q).1.offered = q.offered ++ new ∧
        ((pull key table source times q).1.watermark = q.watermark ∨
          (∃ j < maxPagesPerPull,
            (pull key table source times q).1.watermark.createdAt ≤ times j) ∨
          ∃ item ∈ new, (pull key table source times q).1.watermark = itemKey item)) ∧
    (Answers source → Resumable p.watermark → ∀ row ∈ table.rows, ∀ item,
      Honest key clock row item → p.watermark < rowKey row →
      ∃ n, item ∈ (pulls key table source clock n p).offered) := by
  refine ⟨fun n => ?_, fun times q => ?_, ?_⟩
  · induction n generalizing clock p with
    | zero =>
      exact (drain_moves key table source (clock 0) maxPagesPerPull
        { p with stats := {}, republish := false }).1
    | succ n ih => exact ih (fun i => clock (i + 1)) (pull key table source (clock 0) p).1
  · exact (drain_moves key table source times maxPagesPerPull _).2
  · intro hanswers hstart row hrow item hhonest hahead
    obtain ⟨⟨now, haccepted⟩, hstamp⟩ := hhonest
    refine pulls_honest key table source hanswers clock p hstart hrow (fun i j => ?_) hstamp hahead
    exact judge_of_le haccepted
      (saturatingAdd_skew (clock i j) row.createdAt (hstamp i j) (table.bigint row hrow))

private def hostileRow (itemId : String) (createdAt : Int) (signature : String) : CloudItem where
  itemId := itemId
  ciphertext := "c2VhbGVk"
  nonce := "bm9uY2U="
  contentType := "text"
  payloadMetadata := none
  sourceAppBundleId := none
  sourceAppName := none
  createdAt := createdAt
  deleted := false
  originDeviceId := "laptop"
  signature := signature

/-- One forged row, one honest row and one row stamped far in the future. -/
private def hostileTable : Table where
  rows := [hostileRow "a" 10 "forged", hostileRow "b" 20 "signed",
    hostileRow "c" (10 ^ 12) "signed"]
  unique := by decide
  charset := by decide
  nonneg := by decide
  bigint := by decide

private def honestKey : SyncKey where
  signMetadata := fun _ => "signed"
  verifyMetadata := fun row => row.signature = "signed"
  encryptRow := fun _ _ => ("bm9uY2U=", "c2VhbGVk")
  decryptRow := fun _ _ _ => some [104, 105]

private def mergingSource : Source Unit where
  applyRemoteBatch := fun _ batch => ((), .ok (batch.map fun _ => .merged))
  requeueLocalWinner := fun _ _ => ((), .ok false)

private def freshPuller : Puller Unit := ⟨(), ⟨0, none⟩, {}, false, [], 0⟩

/-- The honest row between a forged and a future one is offered. -/
theorem honest_row_offered_among_hostile : ∃ n,
    openedItem (hostileRow "b" 20 "signed") [104, 105] ∈
      (pulls honestKey hostileTable mergingSource (fun _ _ => 100) n freshPuller).offered := by
  refine (hostile_rows_neither_stall_nor_censor honestKey hostileTable mergingSource
    (fun _ _ => 100) freshPuller).2.2 ?_ ?_ (hostileRow "b" 20 "signed") ?_ _ ?_ ?_
  · exact ⟨fun _ batch => ⟨(), _, rfl, by simp⟩, fun _ _ => ⟨(), false, rfl⟩⟩
  · exact ⟨le_rfl, by simp [freshPuller]⟩
  · decide
  · exact ⟨⟨100, by decide⟩, fun _ _ => by simp [hostileRow]⟩
  · decide

/-- A pull that finds no row hands nothing over and stays where it is. -/
private theorem pull_nothing {σ : Type} (key : SyncKey) (table : Table) (source : Source σ)
    (clock : Nat → Int) (p : Puller σ)
    (hnone : fetchSince table p.watermark.createdAt p.watermark.itemId pullPageLimit = .ok []) :
    (pull key table source clock p).1.offered = p.offered ∧
      (pull key table source clock p).1.watermark = p.watermark := by
  have hpage : ∀ now q, q.watermark = p.watermark → q.offered = p.offered →
      (pullPage key table source now q).2 = .caughtUp ∧
        (pullPage key table source now q).1.offered = p.offered ∧
        (pullPage key table source now q).1.watermark = p.watermark := by
    intro now q hwatermark hoffered
    unfold pullPage
    rw [hwatermark, hnone]
    exact ⟨rfl, hoffered, rfl⟩
  obtain ⟨hend, hoffered, hwatermark⟩ :=
    hpage (clock 0) { p with stats := {}, republish := false } rfl rfl
  unfold pull maxPagesPerPull drain
  generalize pullPage key table source (clock 0) { p with stats := {}, republish := false } =
    result at hend hoffered hwatermark
  obtain ⟨q, pageEnd⟩ := result
  dsimp only at hend
  subst hend
  exact ⟨hoffered, hwatermark⟩

private theorem pulls_nothing {σ : Type} (key : SyncKey) (table : Table) (source : Source σ)
    (clock : Nat → Nat → Int) (n : Nat) (p : Puller σ)
    (hnone : fetchSince table p.watermark.createdAt p.watermark.itemId pullPageLimit = .ok []) :
    (pulls key table source clock n p).offered = p.offered := by
  induction n generalizing clock p with
  | zero => rfl
  | succ n ih =>
    obtain ⟨hoffered, hwatermark⟩ := pull_nothing key table source (clock 0) p hnone
    exact (ih (fun i => clock (i + 1)) _ (hwatermark ▸ hnone)).trans hoffered

/-- An honest row at the epoch, and a watermark before it that keeps an id: the stamp
is clamped to the epoch, the id is not, and the row is skipped in every pull. -/
theorem clamped_watermark_skips_row :
    let table : Table := ⟨[hostileRow "b" 0 "signed"], by decide, by decide, by decide,
      by decide⟩
    let start : Puller Unit := { freshPuller with watermark := ⟨-5, some "z"⟩ }
    let item := openedItem (hostileRow "b" 0 "signed") [104, 105]
    Answers mergingSource ∧ Honest honestKey (fun _ _ => 100) (hostileRow "b" 0 "signed") item ∧
      start.watermark < rowKey (hostileRow "b" 0 "signed") ∧
      ¬ ∃ n, item ∈ (pulls honestKey table mergingSource (fun _ _ => 100) n start).offered := by
  refine ⟨⟨fun _ batch => ⟨(), _, rfl, by simp⟩, fun _ _ => ⟨(), false, rfl⟩⟩,
    ⟨⟨100, by decide⟩, fun _ _ => by simp [hostileRow]⟩, by decide, ?_⟩
  rintro ⟨n, hmem⟩
  rw [pulls_nothing _ _ _ _ n _ (by decide)] at hmem
  exact List.not_mem_nil hmem

end CopyPaste.Cloud.Drain
