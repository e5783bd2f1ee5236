import CopyPaste.Files.Tables
import CopyPaste.Lib.Cut
import CopyPaste.Lib.Sorted
import Mathlib

/-!
The sweeps that bound the history: by a count of items, by their bytes and by age. Each
deletes the oldest rows that are no pins; the first two spare the newest of them. The count
of live rows and the search index are kept beside the rows, and files are released by the
triggers of a deletion.
-/

namespace CopyPaste.History.Retention

open Lib.Rows Lib.Cut Lib.Sorted Merge.Storage Files.Tables

def evictionBatch : Nat := 500

/-- A row with the size the quota counts it at and its entry of the search index. -/
structure Row extends ItemRow where
  contentBytes : Nat
  ftsRowid : Option Nat
  deriving DecidableEq, Repr

/-- The tables a sweep reads and writes: `live` is `clipboard_live_count` and `index` the
rowids of `clipboard_fts`. -/
structure Tables where
  rows : List Row
  live : Nat
  index : List Nat
  files : FileTables := {}

/-- `created_at ASC, id ASC`. -/
abbrev Age := Int ×ₗ String

def age (row : Row) : Age := toLex (row.createdAt, row.id)

def evictable (row : Row) : Bool := !row.deleted && !row.pinned

def oldestFirst (rows : List Row) : List Row := rows.insertionSort fun a b => age a ≤ age b

def newestFirst (rows : List Row) : List Row := rows.insertionSort fun a b => age b ≤ age a

def totalBytes (rows : List Row) : Nat := (rows.map Row.contentBytes).sum

def unpinnedBytes (history : Tables) : Nat := totalBytes (history.rows.filter evictable)

/-- The newest row that is no pin; the empty id where there is none. -/
def keepNewest (history : Tables) : String :=
  ((newestFirst (history.rows.filter evictable)).head?.map fun row => row.id).getD ""

def hasByteVictim (history : Tables) : Bool :=
  decide (2 ≤ ((history.rows.filter evictable).take 2).length)

def expired (cutoff : Int) (row : Row) : Bool := evictable row && decide (row.createdAt < cutoff)

def hasExpired (history : Tables) (cutoff : Int) : Bool := history.rows.any (expired cutoff)

/-- The rows that may go, from the oldest. -/
def victimsBut (history : Tables) (keep : String) : List Row :=
  oldestFirst (history.rows.filter fun row => evictable row && row.id != keep)

/-- The statements of one batch: the entries of the index go first and the rows then, with
their triggers. -/
def deleteBatch (history : Tables) (ids : List String) : Tables × Nat :=
  let gone := history.rows.filter fun row => row.id ∈ ids
  ({ rows := history.rows.filter fun row => row.id ∉ ids
     live := history.live - (gone.filter fun row => !row.deleted).length
     index := history.index.filter fun rowid => rowid ∉ gone.filterMap Row.ftsRowid
     files := (gone.map fun row => row.id).foldl FileTables.release history.files },
    gone.length)

def hardDelete (history : Tables) (ids : List String) : Tables × Nat :=
  (chunks evictionBatch ids).foldl (fun state batch =>
    let (history, removed) := deleteBatch state.1 batch
    (history, state.2 + removed)) (history, 0)

/-- Delete the oldest rows while there are more live ones than the cap. -/
def evictOverCap (history : Tables) (maxItems : Nat) : Tables × Nat :=
  if history.live ≤ maxItems then (history, 0)
  else
    let excess := history.live - maxItems
    hardDelete history
      (((victimsBut history (keepNewest history)).take excess).map fun row => row.id)

/-- A count of bytes as a signed word. -/
def asI64 (count : Nat) : Int := min count (2 ^ 63 - 1)

/-- The sum of a statement, which fails beyond a signed word. -/
def summed (total : Nat) : Option Nat := if total < 2 ^ 63 then some total else none

/-- Delete the oldest rows while their bytes exceed the quota; none where their sum fails. -/
def evictOverByteCap (history : Tables) (maxBytes : Nat) : Option (Tables × Nat) := do
  if !hasByteVictim history then
    return (history, 0)
  let total ← summed (unpinnedBytes history)
  if total ≤ maxBytes then
    return (history, 0)
  let excess := asI64 total - asI64 maxBytes
  return hardDelete history (((running Row.contentBytes 0
    (victimsBut history (keepNewest history))).filter fun entry =>
      decide ((entry.2 : Int) - entry.1.contentBytes < excess)).map fun entry => entry.1.id)

/-- One round of the sweep by age, and whether it was the last. -/
def ageRound (history : Tables) (cutoff : Int) : Tables × Nat × Bool :=
  let victims := ((oldestFirst (history.rows.filter (expired cutoff))).take evictionBatch).map
    fun row => row.id
  if victims.isEmpty then (history, 0, true)
  else
    let (history, removed) := hardDelete history victims
    (history, removed, decide (victims.length < evictionBatch))

/-- The rounds of the sweep by age; none when a number of them does not end it. -/
def ageRounds (cutoff : Int) : Nat → Tables → Nat → Option (Tables × Nat)
  | 0, _, _ => none
  | rounds + 1, history, removed =>
    match ageRound history cutoff with
    | (history, count, true) => some (history, removed + count)
    | (history, count, false) => ageRounds cutoff rounds history (removed + count)

/-- Delete the rows from before an instant. -/
def evictOlderThan (rounds : Nat) (history : Tables) (cutoff : Int) : Option (Tables × Nat) :=
  if !hasExpired history cutoff then some (history, 0) else ageRounds cutoff rounds history 0

/-- The three sweeps, of which one that fails is passed over; the one by age only with a
limit. -/
def enforceRetention (rounds : Nat) (history : Tables) (maxItems maxBytes : Nat)
    (cutoff : Option Int) : Option (Tables × Nat) := do
  let (history, overCap) := evictOverCap history maxItems
  let (history, overBytes) := (evictOverByteCap history maxBytes).getD (history, 0)
  match cutoff with
  | none => return (history, overCap + overBytes)
  | some cutoff =>
    let (history, expired) ← evictOlderThan rounds history cutoff
    return (history, overCap + overBytes + expired)

section Deletion

/-- The tables belong together: the count is that of the live rows, and every entry of the
index is that of one row. -/
structure InStep (history : Tables) : Prop where
  ids : (history.rows.map fun row => row.id).Nodup
  live : history.live = (history.rows.filter fun row => !row.deleted).length
  entries : (history.rows.filterMap Row.ftsRowid).Nodup
  index : ∀ rowid, rowid ∈ history.index ↔ rowid ∈ history.rows.filterMap Row.ftsRowid

/-- The rows with some ids are gone, with their entries and their files, and nothing else. -/
structure Deleted (history : Tables) (ids : List String) (result : Tables × Nat) : Prop where
  rows : result.1.rows = history.rows.filter fun row => row.id ∉ ids
  count : result.2 = (history.rows.filter fun row => row.id ∈ ids).length
  inStep : InStep result.1
  files : ∀ id, result.1.files.bodyOf id =
    if id ∈ ids ∧ id ∈ history.rows.map (fun row => row.id) then Body.none
    else history.files.bodyOf id

variable {history : Tables} {ids : List String}

/-- An entry of the index is of one row. -/
theorem InStep.row_unique (h : InStep history) {row other : Row} {rowid : Nat}
    (hrow : row ∈ history.rows) (hother : other ∈ history.rows)
    (hentry : row.ftsRowid = some rowid) (hsame : other.ftsRowid = some rowid) :
    row = other := by
  have hapart : history.rows.Pairwise fun row other =>
      ∀ rowid, row.ftsRowid = some rowid → other.ftsRowid ≠ some rowid :=
    (List.pairwise_filterMap.1 h.entries).imp fun hne rowid hrow hother =>
      hne rowid hrow rowid hother rfl
  have : Std.Symm fun row other : Row =>
      ∀ rowid, row.ftsRowid = some rowid → other.ftsRowid ≠ some rowid :=
    ⟨fun _ _ hne rowid hother hrow => hne rowid hrow hother⟩
  by_contra hne
  exact hapart.forall hrow hother hne rowid hentry hsame

private theorem live_batch (rows : List Row) (ids : List String) :
    (rows.filter fun row => !row.deleted).length -
        ((rows.filter fun row => row.id ∈ ids).filter fun row => !row.deleted).length =
      ((rows.filter fun row => row.id ∉ ids).filter fun row => !row.deleted).length := by
  induction rows with
  | nil => rfl
  | cons row rest ih =>
    have hle : ((rest.filter fun row => row.id ∈ ids).filter fun row => !row.deleted).length ≤
        (rest.filter fun row => !row.deleted).length := by
      rw [List.filter_filter, ← List.countP_eq_length_filter, ← List.countP_eq_length_filter]
      refine List.countP_mono_left fun row _ h => ?_
      simp only [Bool.and_eq_true] at h
      exact h.1
    by_cases hid : row.id ∈ ids <;> cases hdeleted : row.deleted <;>
      simp only [List.filter_cons, hid, hdeleted, not_true_eq_false, not_false_eq_true,
        decide_true, decide_false, Bool.not_false, Bool.not_true, if_true, if_false,
        Bool.false_eq_true, List.length_cons] <;> omega

theorem inStep_deleteBatch (h : InStep history) (ids : List String) :
    InStep (deleteBatch history ids).1 where
  ids := h.ids.sublist (List.filter_sublist.map _)
  live := by
    show history.live - _ = _
    rw [h.live]
    exact live_batch history.rows ids
  entries := h.entries.sublist (List.filter_sublist.filterMap _)
  index := by
    intro rowid
    show rowid ∈ history.index.filter _ ↔ _
    simp only [deleteBatch, List.mem_filter, decide_eq_true_eq, h.index, List.mem_filterMap]
    constructor
    · rintro ⟨⟨row, hrow, hentry⟩, hkept⟩
      refine ⟨row, ⟨hrow, fun hid => hkept ⟨row, ⟨hrow, hid⟩, hentry⟩⟩, hentry⟩
    · rintro ⟨row, ⟨hrow, hid⟩, hentry⟩
      refine ⟨⟨row, hrow, hentry⟩, ?_⟩
      rintro ⟨other, ⟨hother, hgone⟩, hsame⟩
      exact hid (h.row_unique hrow hother hentry hsame ▸ hgone)

theorem deleted_batch (h : InStep history) (ids : List String) :
    Deleted history ids (deleteBatch history ids) where
  rows := rfl
  count := rfl
  inStep := inStep_deleteBatch h ids
  files := by
    intro id
    show ((_ : List String).foldl FileTables.release history.files).bodyOf id = _
    rw [bodyOf_releases]
    refine if_congr ?_ rfl rfl
    simp only [List.mem_map, List.mem_filter, decide_eq_true_eq]
    constructor
    · rintro ⟨row, ⟨hrow, hid⟩, rfl⟩
      exact ⟨hid, row, hrow, rfl⟩
    · rintro ⟨hid, row, hrow, rfl⟩
      exact ⟨row, ⟨hrow, hid⟩, rfl⟩

theorem deleted_nil (h : InStep history) : Deleted history [] (history, 0) where
  rows := by simp
  count := by simp
  inStep := h
  files := by simp

private theorem length_filter_append (rows : List Row) (ids more : List String) :
    (rows.filter fun row => row.id ∈ ids).length +
        ((rows.filter fun row => row.id ∉ ids).filter fun row => row.id ∈ more).length =
      (rows.filter fun row => row.id ∈ ids ++ more).length := by
  induction rows with
  | nil => rfl
  | cons row rest ih =>
    by_cases hid : row.id ∈ ids <;> by_cases hmore : row.id ∈ more <;>
      simp only [List.filter_cons, hid, hmore, List.mem_append, not_true_eq_false,
        not_false_eq_true, decide_true, decide_false, if_true, if_false, Bool.false_eq_true,
        List.length_cons, or_true, true_or, or_self] at ih ⊢ <;> omega

theorem Deleted.append {result : Tables × Nat} (h : Deleted history ids result)
    (more : List String) :
    Deleted history (ids ++ more)
      ((deleteBatch result.1 more).1, result.2 + (deleteBatch result.1 more).2) := by
  have hmore := deleted_batch h.inStep more
  refine ⟨?_, ?_, hmore.inStep, fun id => ?_⟩
  · show (deleteBatch result.1 more).1.rows = _
    rw [hmore.rows, h.rows, List.filter_filter]
    refine List.filter_congr fun row _ => ?_
    simp only [List.mem_append, not_or, Bool.decide_and, Bool.and_comm]
  · show result.2 + (deleteBatch result.1 more).2 = _
    rw [hmore.count, h.count, h.rows]
    exact length_filter_append history.rows ids more
  · show (deleteBatch result.1 more).1.files.bodyOf id = _
    have hrows : ∀ id, id ∈ result.1.rows.map (fun row => row.id) ↔
        id ∈ history.rows.map (fun row => row.id) ∧ id ∉ ids := by
      intro id
      simp only [h.rows, List.mem_map, List.mem_filter, decide_eq_true_eq]
      constructor
      · rintro ⟨row, ⟨hrow, hout⟩, rfl⟩
        exact ⟨⟨row, hrow, rfl⟩, hout⟩
      · rintro ⟨⟨row, hrow, rfl⟩, hout⟩
        exact ⟨row, ⟨hrow, hout⟩, rfl⟩
    rw [hmore.files, h.files]
    simp only [hrows, List.mem_append]
    by_cases hid : id ∈ ids <;>
      by_cases hrow : id ∈ history.rows.map (fun row => row.id) <;> simp [hid, hrow]

/-- The batches together delete every one of the ids. -/
theorem deleted_hardDelete (h : InStep history) (ids : List String) :
    Deleted history ids (hardDelete history ids) := by
  have hrun : ∀ (batches : List (List String)) (done : List String) (state : Tables × Nat),
      Deleted history done state → Deleted history (done ++ batches.flatten)
        (batches.foldl (fun state batch =>
          let (history, removed) := deleteBatch state.1 batch
          (history, state.2 + removed)) state) := by
    intro batches
    induction batches with
    | nil =>
      intro done state hstate
      simpa using hstate
    | cons batch batches ih =>
      intro done state hstate
      rw [List.flatten_cons, ← List.append_assoc]
      exact ih _ _ (hstate.append batch)
  have hall := hrun (chunks evictionBatch ids) [] (history, 0) (deleted_nil h)
  rwa [List.nil_append, flatten_chunks evictionBatch (by decide)] at hall

end Deletion

section Removal

variable {history : Tables} {part : List Row}

/-- The rows that may go, from the oldest: all that are no pins but the newest of them. -/
def candidates (history : Tables) : List Row :=
  (oldestFirst (history.rows.filter evictable)).dropLast

def without (history : Tables) (part : List Row) : List Row :=
  history.rows.filter fun row => row ∉ part

/-- Some rows are gone, with their entries of the index and their files, and nothing else. -/
structure Removes (history : Tables) (part : List Row) (result : Tables × Nat) : Prop where
  rows : result.1.rows = without history part
  count : result.2 = part.length
  inStep : InStep result.1
  files : ∀ id, result.1.files.bodyOf id =
    if id ∈ part.map (fun row => row.id) then Body.none else history.files.bodyOf id
  unpinned : ∀ row ∈ part, row ∈ history.rows ∧ evictable row = true
  distinct : part.Nodup

theorem InStep.nodup (h : InStep history) : history.rows.Nodup := List.Nodup.of_map _ h.ids

theorem InStep.keys (h : InStep history) (p : Row → Bool) :
    ((history.rows.filter p).map age).Nodup := by
  have hids : ((history.rows.filter p).map fun row => row.id).Nodup :=
    h.ids.sublist (List.filter_sublist.map _)
  refine List.Nodup.of_map (fun key : Age => (ofLex key).2) ?_
  rw [List.map_map]
  exact hids

theorem InStep.mem_ids_iff (h : InStep history) (hpart : part ⊆ history.rows) {row : Row}
    (hrow : row ∈ history.rows) : row.id ∈ part.map (fun row => row.id) ↔ row ∈ part := by
  constructor
  · intro hid
    obtain ⟨other, hother, hsame⟩ := List.mem_map.1 hid
    rwa [← List.inj_on_of_nodup_map h.ids (hpart hother) hrow hsame]
  · exact List.mem_map_of_mem

/-- The rows are those of a part of them and the others. -/
theorem rows_perm (hnodup : history.rows.Nodup) (hpart : part ⊆ history.rows)
    (hdistinct : part.Nodup) : history.rows.Perm (part ++ without history part) := by
  have hfront : (history.rows.filter fun row => row ∈ part).Perm part := by
    refine (List.perm_ext_iff_of_nodup (hnodup.filter _) hdistinct).2 fun row => ?_
    simp only [List.mem_filter, decide_eq_true_eq, and_iff_right_iff_imp]
    exact fun hrow => hpart hrow
  refine (List.filter_append_perm (fun row => decide (row ∈ part)) history.rows).symm.trans ?_
  unfold without
  simp only [decide_not]
  exact hfront.append_right _

theorem hardDelete_removes (h : InStep history) (hdistinct : part.Nodup)
    (hpart : ∀ row ∈ part, row ∈ history.rows ∧ evictable row = true) :
    Removes history part (hardDelete history (part.map fun row => row.id)) := by
  have hdeleted := deleted_hardDelete h (part.map fun row => row.id)
  have hsub : part ⊆ history.rows := fun row hrow => (hpart row hrow).1
  refine ⟨?_, ?_, hdeleted.inStep, fun id => ?_, hpart, hdistinct⟩
  · rw [hdeleted.rows]
    refine List.filter_congr fun row hrow => ?_
    simp only [h.mem_ids_iff hsub hrow]
  · have hsame : (history.rows.filter fun row => row.id ∈ part.map fun row => row.id) =
        history.rows.filter fun row => row ∈ part :=
      List.filter_congr fun row hrow => decide_eq_decide.2 (h.mem_ids_iff hsub hrow)
    rw [hdeleted.count, hsame]
    refine List.Perm.length_eq ((List.perm_ext_iff_of_nodup (h.nodup.filter _) hdistinct).2 ?_)
    intro row
    simp only [List.mem_filter, decide_eq_true_eq, and_iff_right_iff_imp]
    exact fun hrow => hsub hrow
  · rw [hdeleted.files]
    refine if_congr ⟨And.left, fun hid => ⟨hid, ?_⟩⟩ rfl rfl
    obtain ⟨row, hrow, rfl⟩ := List.mem_map.1 hid
    exact List.mem_map_of_mem (hsub hrow)

theorem removes_nil (h : InStep history) : Removes history [] (history, 0) := by
  refine ⟨?_, rfl, h, fun id => ?_, fun row hrow => absurd hrow List.not_mem_nil,
    List.nodup_nil⟩
  · simp [without]
  · simp

variable {result : Tables × Nat}

/-- Two removals in a row are one of both parts. -/
theorem Removes.append {last : Tables × Nat} {more : List Row} (h : Removes history part result)
    (hmore : Removes result.1 more last) :
    Removes history (part ++ more) (last.1, result.2 + last.2) := by
  have hkept : ∀ row, row ∈ result.1.rows ↔ row ∈ history.rows ∧ row ∉ part := by
    intro row
    rw [h.rows, without, List.mem_filter, decide_eq_true_eq]
  refine ⟨?_, ?_, hmore.inStep, fun id => ?_, fun row hrow => ?_, ?_⟩
  · show last.1.rows = _
    rw [hmore.rows, without, h.rows, without, without, List.filter_filter]
    refine List.filter_congr fun row _ => ?_
    simp only [List.mem_append, not_or, Bool.decide_and, Bool.and_comm]
  · show result.2 + last.2 = _
    rw [hmore.count, h.count, List.length_append]
  · show last.1.files.bodyOf id = _
    rw [hmore.files, h.files, List.map_append]
    by_cases hmore : id ∈ more.map (fun row => row.id) <;>
      by_cases hpart : id ∈ part.map (fun row => row.id) <;>
        simp only [List.mem_append, hmore, hpart, if_true, if_false, or_true, true_or, or_self]
  · rcases List.mem_append.1 hrow with hrow | hrow
    · exact h.unpinned row hrow
    · obtain ⟨hrow, hevictable⟩ := hmore.unpinned row hrow
      exact ⟨((hkept row).1 hrow).1, hevictable⟩
  · refine List.nodup_append.2 ⟨h.distinct, hmore.distinct, fun row hrow other hother heq => ?_⟩
    exact ((hkept other).1 (hmore.unpinned other hother).1).2 (heq ▸ hrow)

theorem Removes.perm {other : List Row} (h : Removes history part result)
    (hperm : part.Perm other) : Removes history other result := by
  refine ⟨?_, h.count.trans hperm.length_eq, h.inStep, fun id => ?_, fun row hrow =>
    h.unpinned row (hperm.mem_iff.2 hrow), hperm.nodup_iff.1 h.distinct⟩
  · rw [h.rows, without, without]
    exact List.filter_congr fun row _ => decide_eq_decide.2 (not_congr hperm.mem_iff)
  · rw [h.files]
    exact if_congr (hperm.map _).mem_iff rfl rfl

/-- A removal leaves a part of the rows. -/
theorem Removes.sublist (h : Removes history part result) : result.1.rows.Sublist history.rows := by
  rw [h.rows]
  exact List.filter_sublist

end Removal

section Exactness

variable {history : Tables} {part : List Row} {result : Tables × Nat}

def liveRows (rows : List Row) : Nat := (rows.filter fun row => !row.deleted).length

theorem mem_oldestFirst {rows : List Row} {row : Row} : row ∈ oldestFirst rows ↔ row ∈ rows :=
  (List.perm_insertionSort _ rows).mem_iff

theorem oldest_nodup (h : InStep history) (p : Row → Bool) :
    (oldestFirst (history.rows.filter p)).Nodup :=
  (List.perm_insertionSort _ _).nodup_iff.2 (h.nodup.filter p)

/-- The newest row is the one the sweeps spare. -/
theorem victimsBut_eq (h : InStep history) :
    victimsBut history (keepNewest history) = candidates history := by
  have hsplit : ∀ p : Row → Bool, oldestFirst (history.rows.filter fun row =>
      evictable row && p row) = (oldestFirst (history.rows.filter evictable)).filter p := by
    intro p
    have hfilter : (history.rows.filter fun row => evictable row && p row) =
        (history.rows.filter evictable).filter p := by
      rw [List.filter_filter]
      exact List.filter_congr fun row _ => Bool.and_comm _ _
    rw [hfilter]
    exact insertionSort_filter (h.keys evictable) p
  have hnewest : newestFirst (history.rows.filter evictable) =
      (oldestFirst (history.rows.filter evictable)).reverse :=
    insertionSort_reverse (h.keys evictable)
  have hids : ((oldestFirst (history.rows.filter evictable)).map fun row => row.id).Nodup :=
    ((List.perm_insertionSort _ _).map _).nodup_iff.2 (h.ids.sublist (List.filter_sublist.map _))
  unfold victimsBut keepNewest candidates
  rw [hsplit fun row => row.id != _, hnewest, List.head?_reverse]
  rcases List.eq_nil_or_concat (oldestFirst (history.rows.filter evictable)) with hnil | hconcat
  · rw [hnil]
    rfl
  · obtain ⟨front, newest, hlist⟩ := hconcat
    rw [List.concat_eq_append] at hlist
    rw [hlist, List.map_append] at hids
    rw [hlist, List.getLast?_concat, List.dropLast_concat, List.filter_append]
    have hapart : ∀ row ∈ front, row.id ≠ newest.id := fun row hrow hsame =>
      (List.nodup_append.1 hids).2.2 row.id (List.mem_map_of_mem hrow) newest.id (by simp) hsame
    have hfront : front.filter (fun row => row.id != newest.id) = front :=
      List.filter_eq_self.2 fun row hrow => bne_iff_ne.2 (hapart row hrow)
    simp only [Option.map_some, Option.getD_some, hfront]
    simp

theorem candidates_spec (h : InStep history) (hpart : part <+: candidates history) :
    part.Nodup ∧ ∀ row ∈ part, row ∈ history.rows ∧ evictable row = true := by
  have hsub : part.Sublist (oldestFirst (history.rows.filter evictable)) :=
    hpart.sublist.trans (List.dropLast_sublist _)
  refine ⟨(oldest_nodup h evictable).sublist hsub, fun row hrow => ?_⟩
  exact List.mem_filter.1 (mem_oldestFirst.1 (hsub.subset hrow))

theorem liveRows_without (h : InStep history) (hdistinct : part.Nodup)
    (hpart : ∀ row ∈ part, row ∈ history.rows ∧ evictable row = true) :
    liveRows (without history part) = history.live - part.length := by
  have hperm := rows_perm h.nodup (fun row hrow => (hpart row hrow).1) hdistinct
  have hlive : part.filter (fun row => !row.deleted) = part := by
    refine List.filter_eq_self.2 fun row hrow => ?_
    have hrow := (hpart row hrow).2
    simp only [evictable, Bool.and_eq_true] at hrow
    exact hrow.1
  have hlength := (hperm.filter fun row => !row.deleted).length_eq
  rw [List.filter_append, List.length_append, hlive, ← h.live] at hlength
  unfold liveRows
  omega

theorem unpinnedBytes_without (h : InStep history) (hdistinct : part.Nodup)
    (hpart : ∀ row ∈ part, row ∈ history.rows ∧ evictable row = true) :
    totalBytes ((without history part).filter evictable) + totalBytes part =
      unpinnedBytes history := by
  have hperm := rows_perm h.nodup (fun row hrow => (hpart row hrow).1) hdistinct
  have hall : part.filter evictable = part :=
    List.filter_eq_self.2 fun row hrow => (hpart row hrow).2
  have hsum := ((hperm.filter evictable).map Row.contentBytes).sum_nat
  rw [List.filter_append, List.map_append, List.sum_append, hall] at hsum
  unfold unpinnedBytes totalBytes
  omega

/-- The count is brought down with the shortest part that brings it down. -/
theorem evictOverCap_exact (h : InStep history) (maxItems : Nat) :
    ∃ part, Shortest (fun part => liveRows (without history part) ≤ maxItems)
        (candidates history) part ∧
      Removes history part (evictOverCap history maxItems) := by
  have hcut : Shortest (fun part => liveRows (without history part) ≤ maxItems)
      (candidates history) ((candidates history).take (history.live - maxItems)) := by
    refine (shortest_take (candidates history) (history.live - maxItems)).congr ?_
    intro other hother
    obtain ⟨hdistinct, hrows⟩ := candidates_spec h hother
    rw [liveRows_without h hdistinct hrows]
    omega
  refine ⟨_, hcut, ?_⟩
  unfold evictOverCap
  split
  · next hle =>
    rw [Nat.sub_eq_zero_of_le hle, List.take_zero]
    exact removes_nil h
  · rw [victimsBut_eq h]
    obtain ⟨hdistinct, hrows⟩ := candidates_spec h hcut.1
    exact hardDelete_removes h hdistinct hrows

private theorem candidates_nil_iff :
    candidates history = [] ↔ (history.rows.filter evictable).length ≤ 1 := by
  have hlength := (List.perm_insertionSort (fun a b : Row => age a ≤ age b)
    (history.rows.filter evictable)).length_eq
  rw [← List.length_eq_zero_iff, candidates, List.length_dropLast, oldestFirst, hlength]
  omega

private theorem hasByteVictim_iff :
    hasByteVictim history = true ↔ 2 ≤ (history.rows.filter evictable).length := by
  unfold hasByteVictim
  rw [decide_eq_true_eq, List.length_take]
  omega

/-- The victims of the statement are those before which too little has gone. -/
private theorem running_eq_reached (rows : List Row) (total maxBytes : Nat)
    (hfits : total < 2 ^ 63) (hover : maxBytes < total) :
    (((running Row.contentBytes 0 rows).filter fun entry =>
        decide ((entry.2 : Int) - entry.1.contentBytes < asI64 total - asI64 maxBytes)).map
      fun entry => entry.1.id) =
      (reached Row.contentBytes (total - maxBytes) 0 rows).map fun row => row.id := by
  unfold reached
  rw [List.map_map]
  refine congrArg _ (List.filter_congr fun entry hentry => decide_eq_decide.2 ?_)
  have hle := weight_le_of_mem_running hentry
  unfold asI64
  omega

/-- The bytes are brought down with the shortest part that brings them down. -/
theorem evictOverByteCap_exact (h : InStep history) (maxBytes : Nat)
    (hresult : evictOverByteCap history maxBytes = some result) :
    ∃ part, Shortest (fun part =>
        totalBytes ((without history part).filter evictable) ≤ maxBytes)
        (candidates history) part ∧
      Removes history part result := by
  have hkeep : without history [] = history.rows := by simp [without]
  unfold evictOverByteCap at hresult
  by_cases hvictim : hasByteVictim history = true
  · simp only [hvictim, Bool.not_true, Bool.false_eq_true, if_false, summed] at hresult
    by_cases hfits : unpinnedBytes history < 2 ^ 63
    · by_cases hle : unpinnedBytes history ≤ maxBytes
      · simp only [hfits, hle, if_true, Option.bind_eq_bind, Option.bind_some] at hresult
        cases hresult
        refine ⟨[], shortest_nil (Or.inl ?_), removes_nil h⟩
        rw [hkeep]
        exact hle
      · simp only [hfits, hle, if_true, if_false, Option.bind_eq_bind, Option.bind_some]
          at hresult
        rw [running_eq_reached _ _ _ hfits (Nat.not_le.1 hle), victimsBut_eq h] at hresult
        cases hresult
        have hcut : Shortest (fun part =>
            totalBytes ((without history part).filter evictable) ≤ maxBytes) (candidates history)
            (reached Row.contentBytes (unpinnedBytes history - maxBytes) 0
              (candidates history)) := by
          refine (shortest_reached _ _ _ _).congr fun other hother => ?_
          obtain ⟨hdistinct, hrows⟩ := candidates_spec h hother
          have hsum := unpinnedBytes_without h hdistinct hrows
          show _ ≤ 0 + totalBytes other ↔ _
          omega
        obtain ⟨hdistinct, hrows⟩ := candidates_spec h hcut.1
        exact ⟨_, hcut, hardDelete_removes h hdistinct hrows⟩
    · simp only [hfits, if_false, Option.bind_eq_bind, Option.bind_none] at hresult
      cases hresult
  · simp only [hvictim, Bool.not_false, if_true] at hresult
    cases hresult
    refine ⟨[], shortest_nil (Or.inr (candidates_nil_iff.2 ?_)), removes_nil h⟩
    rw [hasByteVictim_iff] at hvictim
    omega

private theorem ageRound_some {cutoff : Int}
    (hsome : (oldestFirst (history.rows.filter (expired cutoff))).take evictionBatch ≠ []) :
    ageRound history cutoff =
      let victims := (oldestFirst (history.rows.filter (expired cutoff))).take evictionBatch
      let deleted := hardDelete history (victims.map fun row => row.id)
      (deleted.1, deleted.2, decide (victims.length < evictionBatch)) := by
  unfold ageRound
  simp only [List.isEmpty_iff, List.map_eq_nil_iff, hsome, if_false, List.length_map]

/-- A round by age removes expired rows, and every one where it is the last. -/
theorem ageRound_spec (h : InStep history) (cutoff : Int) :
    ∃ part, Removes history part ((ageRound history cutoff).1, (ageRound history cutoff).2.1) ∧
      (∀ row ∈ part, expired cutoff row = true) ∧
      ((ageRound history cutoff).2.2 = true →
        ∀ row ∈ (ageRound history cutoff).1.rows, expired cutoff row = false) ∧
      ((ageRound history cutoff).2.2 = false → part ≠ []) := by
  have hmem : ∀ {row}, row ∈ (oldestFirst (history.rows.filter (expired cutoff))).take
      evictionBatch → row ∈ history.rows ∧ expired cutoff row = true := fun hrow =>
    List.mem_filter.1 (mem_oldestFirst.1 ((List.take_sublist _ _).subset hrow))
  have hremoves := hardDelete_removes h
    ((oldest_nodup h (expired cutoff)).sublist (List.take_sublist evictionBatch _))
    (fun row hrow => ⟨(hmem hrow).1, (Bool.and_eq_true_iff.1 (hmem hrow).2).1⟩)
  -- A part shorter than a batch is the whole list.
  have hshort : ((oldestFirst (history.rows.filter (expired cutoff))).take
      evictionBatch).length < evictionBatch → ∀ row ∈ history.rows, expired cutoff row = true →
      row ∈ (oldestFirst (history.rows.filter (expired cutoff))).take evictionBatch := by
    intro hlength row hrow hexpired
    rw [List.length_take] at hlength
    rw [List.take_of_length_le (by omega)]
    exact mem_oldestFirst.2 (List.mem_filter.2 ⟨hrow, hexpired⟩)
  by_cases hempty : (oldestFirst (history.rows.filter (expired cutoff))).take evictionBatch = []
  · have hround : ageRound history cutoff = (history, 0, true) := by
      simp only [ageRound, hempty, List.map_nil, List.isEmpty_nil, if_true]
    rw [hround]
    rw [hempty] at hshort
    refine ⟨[], removes_nil h, fun row hrow => absurd hrow List.not_mem_nil,
      fun _ row hrow => ?_, nofun⟩
    rw [Bool.eq_false_iff]
    exact fun hexpired => absurd (hshort (by decide) row hrow hexpired) List.not_mem_nil
  · rw [ageRound_some hempty]
    refine ⟨_, hremoves, fun row hrow => (hmem hrow).2, fun hlast row hrow => ?_,
      fun _ => hempty⟩
    rw [decide_eq_true_eq] at hlast
    rw [hremoves.rows, without, List.mem_filter, decide_eq_true_eq] at hrow
    rw [Bool.eq_false_iff]
    exact fun hexpired => hrow.2 (hshort hlast row hrow.1 hexpired)

/-- The rounds by age end once there are more of them than rows. -/
theorem ageRounds_ends (cutoff : Int) (rounds : Nat) (history : Tables) (removed : Nat)
    (h : InStep history) (henough : history.rows.length < rounds) :
    ∃ result, ageRounds cutoff rounds history removed = some result := by
  induction rounds generalizing history removed with
  | zero => exact absurd henough (Nat.not_lt_zero _)
  | succ rounds ih =>
    obtain ⟨part, hremoves, -, -, hmore⟩ := ageRound_spec h cutoff
    rw [ageRounds]
    rcases hround : ageRound history cutoff with ⟨next, count, last⟩
    rw [hround] at hremoves hmore
    cases last with
    | true => exact ⟨_, rfl⟩
    | false =>
      refine ih next _ hremoves.inStep ?_
      have hlength := (rows_perm h.nodup (fun row hrow => (hremoves.unpinned row hrow).1)
        hremoves.distinct).length_eq
      have hpart := List.length_pos_iff.2 (hmore rfl)
      rw [List.length_append, ← hremoves.rows] at hlength
      show next.rows.length < rounds
      have hnext : history.rows.length = part.length + next.rows.length := hlength
      omega

theorem ageRounds_removes (h : InStep history) (cutoff : Int) (rounds : Nat) (state : Tables) (removed : Nat)
    (hremoves : Removes history part (state, removed))
    (hpart : ∀ row ∈ part, expired cutoff row = true)
    (hresult : ageRounds cutoff rounds state removed = some result) :
    Removes history (history.rows.filter (expired cutoff)) result := by
  induction rounds generalizing state removed part with
  | zero => cases hresult
  | succ rounds ih =>
    obtain ⟨more, hmore, hexpired, hlast, -⟩ := ageRound_spec hremoves.inStep cutoff
    have hboth := hremoves.append hmore
    have hall : ∀ row ∈ part ++ more, expired cutoff row = true := fun row hrow =>
      (List.mem_append.1 hrow).elim (hpart row) (hexpired row)
    rw [ageRounds] at hresult
    rcases hround : ageRound state cutoff with ⟨next, count, last⟩
    rw [hround] at hresult hboth hlast
    cases last with
    | false => exact ih next _ hboth hall hresult
    | true =>
      cases hresult
      refine hboth.perm ((List.perm_ext_iff_of_nodup hboth.distinct
        (h.nodup.filter _)).2 fun row => ?_)
      rw [List.mem_filter]
      constructor
      · exact fun hrow => ⟨(hboth.unpinned row hrow).1, hall row hrow⟩
      · rintro ⟨hrow, hold⟩
        by_contra hout
        have hleft : row ∈ next.rows := by
          rw [show next.rows = without history (part ++ more) from hboth.rows, without]
          exact List.mem_filter.2 ⟨hrow, decide_eq_true hout⟩
        rw [hlast rfl row hleft] at hold
        cases hold

/-- The sweep by age leaves no expired row and takes no other. -/
theorem evictOlderThan_removes (h : InStep history) (cutoff : Int) {rounds : Nat}
    (hresult : evictOlderThan rounds history cutoff = some result) :
    Removes history (history.rows.filter (expired cutoff)) result := by
  unfold evictOlderThan at hresult
  split at hresult
  · next hnone =>
    cases hresult
    simp only [hasExpired, Bool.not_eq_true', List.any_eq_false] at hnone
    rw [List.filter_eq_nil_iff.2 hnone]
    exact removes_nil h
  · exact ageRounds_removes h cutoff rounds history 0 (removes_nil h)
      (fun row hrow => absurd hrow List.not_mem_nil) hresult

theorem evictOlderThan_ends (h : InStep history) (cutoff : Int) {rounds : Nat}
    (henough : history.rows.length < rounds) :
    ∃ result, evictOlderThan rounds history cutoff = some result := by
  unfold evictOlderThan
  split
  · exact ⟨_, rfl⟩
  · exact ageRounds_ends cutoff rounds history 0 h henough

end Exactness

section Quiet

variable {history : Tables} {result : Tables × Nat} {maxItems maxBytes : Nat} {cutoff : Int}

def CountQuiet (maxItems : Nat) (rows : List Row) : Prop :=
  liveRows rows ≤ maxItems ∨ (rows.filter evictable).length ≤ 1

def BytesQuiet (maxBytes : Nat) (rows : List Row) : Prop :=
  totalBytes (rows.filter evictable) ≤ maxBytes ∧ totalBytes (rows.filter evictable) < 2 ^ 63 ∨
    (rows.filter evictable).length ≤ 1

theorem CountQuiet.sublist {rows rest : List Row} (h : CountQuiet maxItems rows)
    (hrest : rest.Sublist rows) : CountQuiet maxItems rest :=
  h.imp (Nat.le_trans (hrest.filter _).length_le) (Nat.le_trans (hrest.filter _).length_le)

theorem BytesQuiet.sublist {rows rest : List Row} (h : BytesQuiet maxBytes rows)
    (hrest : rest.Sublist rows) : BytesQuiet maxBytes rest := by
  have hle : totalBytes (rest.filter evictable) ≤ totalBytes (rows.filter evictable) :=
    ((hrest.filter evictable).map Row.contentBytes).sum_le_sum fun _ _ => Nat.zero_le _
  refine h.imp (fun hbytes => ?_) (Nat.le_trans (hrest.filter _).length_le)
  omega

/-- Where all that may go is gone, one row is left that is no pin. -/
private theorem unpinned_left (h : InStep history) :
    ((without history (candidates history)).filter evictable).length ≤ 1 := by
  obtain ⟨hdistinct, hrows⟩ := candidates_spec h (List.prefix_refl (candidates history))
  have hall : (candidates history).filter evictable = candidates history :=
    List.filter_eq_self.2 fun row hrow => (hrows row hrow).2
  have hperm := ((rows_perm h.nodup (fun row hrow => (hrows row hrow).1) hdistinct).filter
    evictable).length_eq
  have hlength := (List.perm_insertionSort (fun a b : Row => age a ≤ age b)
    (history.rows.filter evictable)).length_eq
  have hcandidates : (candidates history).length =
      (oldestFirst (history.rows.filter evictable)).length - 1 := List.length_dropLast
  rw [List.filter_append, List.length_append, hall] at hperm
  unfold oldestFirst at hcandidates
  omega

theorem evictOverCap_quiet (h : InStep history) :
    CountQuiet maxItems (evictOverCap history maxItems).1.rows := by
  obtain ⟨part, ⟨-, henough, -⟩, hremoves⟩ := evictOverCap_exact h maxItems
  rw [hremoves.rows]
  rcases henough with hfits | rfl
  · exact Or.inl hfits
  · exact Or.inr (unpinned_left h)

theorem evictOverByteCap_quiet (h : InStep history)
    (hresult : evictOverByteCap history maxBytes = some result) :
    BytesQuiet maxBytes result.1.rows := by
  obtain ⟨part, ⟨-, henough, -⟩, hremoves⟩ := evictOverByteCap_exact h maxBytes hresult
  by_cases hfits : unpinnedBytes history < 2 ^ 63
  · rw [hremoves.rows]
    rcases henough with hbytes | rfl
    · refine Or.inl ⟨hbytes, Nat.lt_of_le_of_lt ?_ hfits⟩
      exact Nat.le_of_add_right_le
        (unpinnedBytes_without h hremoves.distinct hremoves.unpinned).le
    · exact Or.inr (unpinned_left h)
  · -- The sum was not made, for want of a victim.
    refine Or.inr (Nat.le_trans (hremoves.sublist.filter _).length_le ?_)
    by_contra hvictims
    have hvictim : hasByteVictim history = true := hasByteVictim_iff.2 (by omega)
    simp only [evictOverByteCap, summed, hvictim, hfits, Bool.not_true, Bool.false_eq_true,
      if_false, Option.bind_eq_bind, Option.bind_none] at hresult
    cases hresult

theorem evictOverCap_of_quiet (h : InStep history) (hquiet : CountQuiet maxItems history.rows) :
    evictOverCap history maxItems = (history, 0) := by
  unfold evictOverCap
  split
  · rfl
  · next hover =>
    rcases hquiet with hle | hone
    · exact absurd (h.live ▸ hle) hover
    · simp only [victimsBut_eq h, candidates_nil_iff.2 hone, List.take_nil, List.map_nil]
      rfl

theorem evictOverByteCap_of_quiet (hquiet : BytesQuiet maxBytes history.rows) :
    evictOverByteCap history maxBytes = some (history, 0) := by
  unfold evictOverByteCap
  rcases hquiet with ⟨hle, hfits⟩ | hone
  · have hfits : unpinnedBytes history < 2 ^ 63 := hfits
    have hle : unpinnedBytes history ≤ maxBytes := hle
    simp only [summed, hfits, hle, if_true, Option.bind_eq_bind, Option.bind_some, ite_self]
    rfl
  · have hvictim : hasByteVictim history = false := by
      rw [Bool.eq_false_iff, ne_eq, hasByteVictim_iff]
      omega
    simp only [hvictim, Bool.not_false, if_true]
    rfl

theorem evictOlderThan_of_quiet (hnone : ∀ row ∈ history.rows, expired cutoff row = false)
    (rounds : Nat) : evictOlderThan rounds history cutoff = some (history, 0) := by
  have hquiet : hasExpired history cutoff = false := by
    simpa [hasExpired] using hnone
  rw [evictOlderThan, hquiet]
  rfl

theorem enforceRetention_of_quiet (h : InStep history) (hcount : CountQuiet maxItems history.rows)
    (hbytes : BytesQuiet maxBytes history.rows) {limit : Option Int}
    (hage : ∀ cutoff, limit = some cutoff → ∀ row ∈ history.rows, expired cutoff row = false)
    (rounds : Nat) :
    enforceRetention rounds history maxItems maxBytes limit = some (history, 0) := by
  unfold enforceRetention
  rw [evictOverCap_of_quiet h hcount]
  simp only [evictOverByteCap_of_quiet hbytes, Option.getD_some]
  cases limit with
  | none => rfl
  | some cutoff =>
    simp only [evictOlderThan_of_quiet (hage cutoff rfl) rounds]
    rfl

/-- What the three sweeps leave is quiet for each of them. -/
theorem enforceRetention_quiet (h : InStep history) {limit : Option Int} {rounds : Nat}
    (hsum : (evictOverByteCap (evictOverCap history maxItems).1 maxBytes).isSome)
    (hresult : enforceRetention rounds history maxItems maxBytes limit = some result) :
    InStep result.1 ∧ CountQuiet maxItems result.1.rows ∧ BytesQuiet maxBytes result.1.rows ∧
      ∀ cutoff, limit = some cutoff → ∀ row ∈ result.1.rows, expired cutoff row = false := by
  obtain ⟨_, -, hcap⟩ := evictOverCap_exact h maxItems
  obtain ⟨swept, hswept⟩ := Option.isSome_iff_exists.1 hsum
  obtain ⟨_, -, hbytes⟩ := evictOverByteCap_exact hcap.inStep maxBytes hswept
  have hcount := (evictOverCap_quiet h).sublist hbytes.sublist
  have hquiet := evictOverByteCap_quiet hcap.inStep hswept
  unfold enforceRetention at hresult
  simp only [hswept, Option.getD_some] at hresult
  cases limit with
  | none =>
    cases hresult
    exact ⟨hbytes.inStep, hcount, hquiet, nofun⟩
  | some cutoff =>
    obtain ⟨aged, haged, hlast⟩ := Option.bind_eq_some_iff.1 hresult
    cases hlast
    have hremoves := evictOlderThan_removes hbytes.inStep cutoff haged
    refine ⟨hremoves.inStep, hcount.sublist hremoves.sublist, hquiet.sublist hremoves.sublist,
      fun other hother row hrow => ?_⟩
    cases hother
    rw [hremoves.rows, without, List.mem_filter, decide_eq_true_eq, List.mem_filter] at hrow
    rw [Bool.eq_false_iff]
    exact fun hexpired => hrow.2 ⟨hrow.1, hexpired⟩

end Quiet

/-- The sweeps by count and by bytes take the shortest part, from the oldest row that may go,
that is enough, or all of them; the one by age takes the expired rows and ends; and the three
together leave nothing for another run. The sweep by bytes fails, and takes nothing, only
where the sum of the sizes leaves the signed words. -/
theorem sweeps_exact {history : Tables} (h : InStep history) (maxItems maxBytes : Nat)
    (cutoff : Int) (limit : Option Int) :
    (∃ part, Shortest (fun part => liveRows (without history part) ≤ maxItems)
        (candidates history) part ∧
      Removes history part (evictOverCap history maxItems)) ∧
    ((∀ result, evictOverByteCap history maxBytes = some result →
        ∃ part, Shortest (fun part =>
            totalBytes ((without history part).filter evictable) ≤ maxBytes)
          (candidates history) part ∧
        Removes history part result) ∧
      (evictOverByteCap history maxBytes = none → 2 ^ 63 ≤ unpinnedBytes history)) ∧
    ((∀ rounds result, evictOlderThan rounds history cutoff = some result →
        Removes history (history.rows.filter (expired cutoff)) result) ∧
      ∃ enough, ∀ rounds, enough ≤ rounds →
        ∃ result, evictOlderThan rounds history cutoff = some result) ∧
    ∀ rounds again result,
      (evictOverByteCap (evictOverCap history maxItems).1 maxBytes).isSome →
      enforceRetention rounds history maxItems maxBytes limit = some result →
        enforceRetention again result.1 maxItems maxBytes limit = some (result.1, 0) := by
  refine ⟨evictOverCap_exact h maxItems, ⟨fun result => evictOverByteCap_exact h maxBytes,
    fun hnone => ?_⟩, ⟨fun rounds result => evictOlderThan_removes h cutoff,
    history.rows.length + 1, fun rounds henough => evictOlderThan_ends h cutoff henough⟩, ?_⟩
  · rw [← Nat.not_lt]
    intro hfits
    unfold evictOverByteCap at hnone
    simp only [summed, hfits, if_true, Option.bind_eq_bind, Option.bind_some] at hnone
    split at hnone
    · cases hnone
    · split at hnone <;> cases hnone
  · intro rounds again result hsum hresult
    obtain ⟨hstep, hcount, hbytes, hage⟩ := enforceRetention_quiet h hsum hresult
    exact enforceRetention_of_quiet hstep hcount hbytes hage again

def heldRow (id : String) (createdAt : Int) (pinned : Bool) (ftsRowid : Option Nat) : Row where
  id := id
  payload := none
  contentType := "text/plain"
  contentHash := ""
  pinned := pinned
  pinOrder := none
  pinUpdatedAt := 0
  createdAt := createdAt
  deleted := false
  originDeviceId := ""
  appBundleId := none
  appName := none
  payloadMetadata := none
  sourceIconId := none
  contentBytes := 5
  ftsRowid := ftsRowid

/-- Three clips of one instant and an older pin. -/
def heldHistory : Tables where
  rows := [heldRow "b" 7 false (some 1), heldRow "a" 7 false (some 2), heldRow "c" 7 false none,
    heldRow "d" 0 true (some 3)]
  live := 4
  index := [1, 2, 3]

theorem heldHistory_inStep : InStep heldHistory where
  ids := by decide
  live := by decide
  entries := by decide
  index := by
    intro rowid
    rfl

theorem sweeps_exact_held : InStep heldHistory ∧
    ∃ part, Shortest (fun part => liveRows (without heldHistory part) ≤ 3)
        (candidates heldHistory) part ∧
      Removes heldHistory part (evictOverCap heldHistory 3) :=
  ⟨heldHistory_inStep, (sweeps_exact heldHistory_inStep 3 10 5 none).1⟩

example : ((evictOverCap heldHistory 3).1.rows.map fun row => row.id) = ["b", "c", "d"] := by
  decide

end CopyPaste.History.Retention
