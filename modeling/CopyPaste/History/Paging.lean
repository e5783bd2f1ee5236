import CopyPaste.Lib.Walk
import CopyPaste.Merge.Storage
import Mathlib

/-!
The history list and its pages. The list has the pinned rows by their order and then
the others by recency. A page is resumed at the key of the last row before it: within
the pinned rows, where it may run on into the others, or within the others. It stops at
a count of rows, or at a count and a budget of bytes.
-/

namespace CopyPaste.History.Paging

open Merge.Comparator Merge.Storage Lib.Walk

/-- The rows of the table, one for each id. -/
structure Items where
  rows : List ItemRow
  distinct : (rows.map ItemRow.id).Nodup

/-- Where a page stopped: the sort key of its last row. -/
structure ItemCursor where
  pinned : Bool
  pinOrder : Option PinOrder
  createdAt : Int
  id : String
  deriving DecidableEq, Repr

def cursorOf (row : ItemRow) : ItemCursor :=
  ⟨row.pinned, row.pinOrder, row.createdAt, row.id⟩

/-- `created_at DESC, id DESC`. -/
abbrev Recency := Intᵒᵈ ×ₗ Stringᵒᵈ

def recency (createdAt : Int) (id : String) : Recency :=
  toLex (OrderDual.toDual createdAt, OrderDual.toDual id)

def rowRecency (row : ItemRow) : Recency :=
  recency row.createdAt row.id

/-- `pin_order ASC, created_at DESC, id DESC`; an absent order comes first. -/
def pinnedOrder (row : ItemRow) : WithBot PinOrder ×ₗ Recency :=
  toLex (pinRank row.pinOrder, rowRecency row)

/-- `pinned DESC, pin_order ASC, created_at DESC, id DESC`. -/
def listOrder (row : ItemRow) : Boolᵒᵈ ×ₗ WithBot PinOrder ×ₗ Recency :=
  toLex (OrderDual.toDual row.pinned, pinnedOrder row)

def orderBy {K : Type} [LinearOrder K] (key : ItemRow → K) (rows : List ItemRow) : List ItemRow :=
  rows.insertionSort fun a b => key a ≤ key b

def live (history : Items) : List ItemRow :=
  history.rows.filter fun row => !row.deleted

def pinnedRows (history : Items) : List ItemRow :=
  history.rows.filter fun row => !row.deleted && row.pinned

def unpinnedRows (history : Items) : List ItemRow :=
  history.rows.filter fun row => !row.deleted && !row.pinned

def list (history : Items) (limit offset : ℕ) : List ItemRow :=
  ((orderBy listOrder (live history)).drop offset).take limit

def pinnedHead (history : Items) (limit : ℕ) : List ItemRow :=
  (orderBy pinnedOrder (pinnedRows history)).take limit

/-- The three branches of the seek among the pinned rows. -/
def afterPinned (pinOrder : Option PinOrder) (createdAt : Int) (id : String) (row : ItemRow) : Bool :=
  (row.pinOrder.any fun held => pinOrder.all fun order => decide (order < held)) ||
    (row.pinOrder == pinOrder && decide (row.createdAt < createdAt)) ||
    (row.pinOrder == pinOrder && row.createdAt == createdAt && decide (row.id < id))

def pinnedSeek (history : Items) (pinOrder : Option PinOrder) (createdAt : Int) (id : String)
    (limit : ℕ) : List ItemRow :=
  (orderBy pinnedOrder ((pinnedRows history).filter (afterPinned pinOrder createdAt id))).take limit

def afterUnpinned (createdAt : Int) (id : String) (row : ItemRow) : Bool :=
  decide (row.createdAt ≤ createdAt) && (decide (row.createdAt < createdAt) || decide (row.id < id))

def unpinnedSeek (history : Items) (createdAt : Int) (id : String) (limit : ℕ) : List ItemRow :=
  (orderBy rowRecency ((unpinnedRows history).filter (afterUnpinned createdAt id))).take limit

def unpinnedHead (history : Items) (limit : ℕ) : List ItemRow :=
  (orderBy rowRecency (unpinnedRows history)).take limit

/-- The rows a page starts with, from the run its cursor is in. -/
def firstRows (history : Items) (after : Option ItemCursor) (limit : ℕ) : List ItemRow :=
  match after with
  | none => pinnedHead history limit
  | some cursor =>
    if cursor.pinned then pinnedSeek history cursor.pinOrder cursor.createdAt cursor.id limit
    else unpinnedSeek history cursor.createdAt cursor.id limit

def inPinnedRun (after : Option ItemCursor) : Bool :=
  after.all ItemCursor.pinned

/-- The page that follows a cursor. -/
def listFrom (limit : ℕ) (history : Items) (after : Option ItemCursor) :
    List ItemRow × Option ItemCursor :=
  let rows := firstRows history after limit
  let short := limit - min rows.length limit
  let rows := if 0 < short ∧ inPinnedRun after then rows ++ unpinnedHead history short else rows
  (rows, if rows.length = limit ∧ 0 < limit then rows.getLast?.map cursorOf else none)

inductive BoundedFetch
  | exhausted
  | countReached
  | budgetReached
  deriving DecidableEq, Repr

/-- The addition of byte counts, which stays within a `usize`. -/
def saturatingAdd (a b : ℕ) : ℕ :=
  min (a + b) (2 ^ 64 - 1)

/-- Take rows of one query while the count and the budget allow it. -/
def fetchBounded (cipherBytes : ItemRow → ℕ) (limit budget : ℕ) :
    List ItemRow → ℕ → List ItemRow → BoundedFetch × ℕ × List ItemRow
  | [], bytes, out => (.exhausted, bytes, out)
  | row :: rows, bytes, out =>
    if out.length = limit then (.countReached, bytes, out)
    else
      let metadataBytes := row.payloadMetadata.elim 0 fun text => text.utf8ByteSize
      let nextBytes := saturatingAdd (saturatingAdd bytes (cipherBytes row)) metadataBytes
      if out ≠ [] ∧ budget < nextBytes then (.budgetReached, bytes, out)
      else fetchBounded cipherBytes limit budget rows nextBytes (out ++ [row])

/-- The page that follows a cursor, bounded by a count and by the bytes of its rows. -/
def listFromBounded (cipherBytes : ItemRow → ℕ) (limit budget : ℕ) (history : Items)
    (after : Option ItemCursor) : List ItemRow × Option ItemCursor :=
  if limit = 0 then ([], none)
  else
    let (result, bytes, rows) :=
      fetchBounded cipherBytes limit budget (firstRows history after (limit + 1)) 0 []
    let (result, _, rows) :=
      if result = .exhausted ∧ inPinnedRun after then
        fetchBounded cipherBytes limit budget (unpinnedHead history (limit - rows.length + 1)) bytes
          rows
      else (result, bytes, rows)
    (rows, if rows ≠ [] ∧ result ≠ .exhausted then rows.getLast?.map cursorOf else none)

section Order

/-- The order of the pages: as the list, except that an order kept by an unpinned row
does not count. -/
def place (cursor : ItemCursor) : Boolᵒᵈ ×ₗ WithBot PinOrder ×ₗ Recency :=
  toLex (OrderDual.toDual cursor.pinned,
    toLex (if cursor.pinned then pinRank cursor.pinOrder else ⊥, recency cursor.createdAt cursor.id))

def rowKey (row : ItemRow) : Boolᵒᵈ ×ₗ WithBot PinOrder ×ₗ Recency :=
  place (cursorOf row)

def firstRun (history : Items) (after : Option ItemCursor) : List ItemRow :=
  match after with
  | none => orderBy pinnedOrder (pinnedRows history)
  | some cursor =>
    if cursor.pinned then
      orderBy pinnedOrder ((pinnedRows history).filter
        (afterPinned cursor.pinOrder cursor.createdAt cursor.id))
    else
      orderBy rowRecency ((unpinnedRows history).filter (afterUnpinned cursor.createdAt cursor.id))

/-- The run a page goes on into. -/
def secondRun (history : Items) (after : Option ItemCursor) : List ItemRow :=
  if inPinnedRun after then orderBy rowRecency (unpinnedRows history) else []

theorem recency_lt_iff (createdAt other : Int) (id otherId : String) :
    recency createdAt id < recency other otherId ↔
      other < createdAt ∨ createdAt = other ∧ otherId < id := by
  simp [recency, Prod.Lex.toLex_lt_toLex]

theorem pinRank_lt_iff (order held : Option PinOrder) :
    pinRank order < pinRank held ↔ held.any fun h => order.all fun o => decide (o < h) := by
  cases order <;> cases held <;> simp [pinRank]

theorem place_lt_rowKey_pinned (cursor : ItemCursor) (row : ItemRow) (hcursor : cursor.pinned)
    (hrow : row.pinned) :
    place cursor < rowKey row ↔
      afterPinned cursor.pinOrder cursor.createdAt cursor.id row = true := by
  simp only [place, rowKey, cursorOf, hcursor, hrow, if_true, Prod.Lex.toLex_lt_toLex,
    lt_irrefl, false_or, true_and, recency_lt_iff, pinRank_lt_iff, afterPinned, Bool.or_eq_true,
    Bool.and_eq_true, beq_iff_eq, decide_eq_true_eq, pinRank_injective.eq_iff]
  grind

theorem place_lt_rowKey_unpinned (cursor : ItemCursor) (row : ItemRow)
    (hcursor : cursor.pinned = false) (hrow : row.pinned = false) :
    place cursor < rowKey row ↔ afterUnpinned cursor.createdAt cursor.id row = true := by
  simp only [place, rowKey, cursorOf, hcursor, hrow, Bool.false_eq_true, if_false,
    Prod.Lex.toLex_lt_toLex, lt_irrefl, false_or, true_and, recency_lt_iff, afterUnpinned,
    Bool.or_eq_true, Bool.and_eq_true, decide_eq_true_eq]
  grind

theorem place_lt_of_pinned (cursor : ItemCursor) (row : ItemRow) (hcursor : cursor.pinned)
    (hrow : row.pinned = false) : place cursor < rowKey row := by
  simp [place, rowKey, cursorOf, hcursor, hrow, Prod.Lex.toLex_lt_toLex]

theorem not_place_lt_of_unpinned (cursor : ItemCursor) (row : ItemRow)
    (hcursor : cursor.pinned = false) (hrow : row.pinned) : ¬place cursor < rowKey row := by
  simp [place, rowKey, cursorOf, hcursor, hrow, Prod.Lex.toLex_lt_toLex]

theorem mem_orderBy {K : Type} [LinearOrder K] (key : ItemRow → K) (rows : List ItemRow)
    (row : ItemRow) : row ∈ orderBy key rows ↔ row ∈ rows :=
  List.mem_insertionSort _

/-- Sorting rows of distinct ids by a key that tells ids apart leaves no ties. -/
theorem orderBy_sorted {K : Type} [LinearOrder K] {key : ItemRow → K}
    (hkey : ∀ a b, key a = key b → a.id = b.id) {rows : List ItemRow}
    (hdistinct : (rows.map ItemRow.id).Nodup) :
    (orderBy key rows).Pairwise fun a b => key a < key b := by
  have hle : (orderBy key rows).Pairwise fun a b => key a ≤ key b :=
    List.pairwise_insertionSort _ _
  have hids : (orderBy key rows).Pairwise fun a b => a.id ≠ b.id := by
    have hperm := (List.perm_insertionSort (fun a b => key a ≤ key b) rows).map ItemRow.id
    exact List.pairwise_map.1 (hperm.nodup_iff.2 hdistinct)
  exact (hle.and hids).imp fun h => lt_of_le_of_ne h.1 fun heq => h.2 (hkey _ _ heq)

variable {a b : ItemRow}

theorem rowRecency_id (h : rowRecency a = rowRecency b) : a.id = b.id :=
  congrArg (fun r : Recency => OrderDual.ofDual (ofLex r).2) h

theorem pinnedOrder_id (h : pinnedOrder a = pinnedOrder b) : a.id = b.id :=
  rowRecency_id (congrArg (fun k => (ofLex k).2) h)

theorem listOrder_id (h : listOrder a = listOrder b) : a.id = b.id :=
  pinnedOrder_id (congrArg (fun k => (ofLex k).2) h)

theorem rowKey_lt_of_pinned (ha : a.pinned) (hb : b.pinned) (h : pinnedOrder a < pinnedOrder b) :
    rowKey a < rowKey b := by
  simpa [rowKey, place, cursorOf, ha, hb, Prod.Lex.toLex_lt_toLex, pinnedOrder, rowRecency]
    using h

theorem rowKey_lt_of_unpinned (ha : a.pinned = false) (hb : b.pinned = false)
    (h : rowRecency a < rowRecency b) : rowKey a < rowKey b := by
  rw [rowKey, rowKey, place, place, Prod.Lex.toLex_lt_toLex, Prod.Lex.toLex_lt_toLex]
  simpa [cursorOf, ha, hb, rowRecency] using h

theorem rowKey_id (h : rowKey a = rowKey b) : a.id = b.id :=
  congrArg (fun k : Boolᵒᵈ ×ₗ WithBot PinOrder ×ₗ Recency =>
    OrderDual.ofDual (ofLex (ofLex (ofLex k).2).2).2) h

theorem rowKey_eq_listOrder {row : ItemRow} (h : row.pinned = false → row.pinOrder = none) :
    rowKey row = listOrder row := by
  cases hpinned : row.pinned with
  | true => simp [rowKey, place, cursorOf, listOrder, pinnedOrder, rowRecency, hpinned]
  | false =>
    simp [rowKey, place, cursorOf, listOrder, pinnedOrder, rowRecency, hpinned, h hpinned,
      pinRank]

end Order

section Runs

variable (history : Items) (after : Option ItemCursor)

theorem filter_distinct (keep : ItemRow → Bool) :
    ((history.rows.filter keep).map ItemRow.id).Nodup :=
  history.distinct.sublist (List.filter_sublist.map _)

variable {row : ItemRow}

theorem mem_live : row ∈ live history ↔ row ∈ history.rows ∧ row.deleted = false := by
  simp [live]

theorem mem_pinnedRows : row ∈ pinnedRows history ↔ row ∈ live history ∧ row.pinned = true := by
  simp [live, pinnedRows, and_assoc]

theorem mem_unpinnedRows :
    row ∈ unpinnedRows history ↔ row ∈ live history ∧ row.pinned = false := by
  simp [live, unpinnedRows, and_assoc]

theorem pinned_sorted (keep : ItemRow → Bool) :
    (orderBy pinnedOrder ((pinnedRows history).filter keep)).Pairwise
      fun a b => rowKey a < rowKey b := by
  have hdistinct : (((pinnedRows history).filter keep).map ItemRow.id).Nodup :=
    (filter_distinct history _).sublist (List.filter_sublist.map _)
  refine (orderBy_sorted (fun _ _ => pinnedOrder_id) hdistinct).imp_of_mem ?_
  intro a b ha hb hlt
  rw [mem_orderBy, List.mem_filter, mem_pinnedRows] at ha hb
  exact rowKey_lt_of_pinned ha.1.2 hb.1.2 hlt

theorem unpinned_sorted (keep : ItemRow → Bool) :
    (orderBy rowRecency ((unpinnedRows history).filter keep)).Pairwise
      fun a b => rowKey a < rowKey b := by
  have hdistinct : (((unpinnedRows history).filter keep).map ItemRow.id).Nodup :=
    (filter_distinct history _).sublist (List.filter_sublist.map _)
  refine (orderBy_sorted (fun _ _ => rowRecency_id) hdistinct).imp_of_mem ?_
  intro a b ha hb hlt
  rw [mem_orderBy, List.mem_filter, mem_unpinnedRows] at ha hb
  exact rowKey_lt_of_unpinned ha.1.2 hb.1.2 hlt

theorem runs_sorted (keep : ItemRow → Bool) :
    (orderBy pinnedOrder ((pinnedRows history).filter keep) ++
      orderBy rowRecency (unpinnedRows history)).Pairwise fun a b => rowKey a < rowKey b := by
  have hunpinned := unpinned_sorted history fun _ => true
  rw [List.filter_true] at hunpinned
  refine List.pairwise_append.2 ⟨pinned_sorted history keep, hunpinned, ?_⟩
  intro a ha b hb
  rw [mem_orderBy, List.mem_filter, mem_pinnedRows] at ha
  rw [mem_orderBy, mem_unpinnedRows] at hb
  exact place_lt_of_pinned (cursorOf a) b ha.1.2 hb.2

/-- The two runs are what lies ahead of a cursor. -/
theorem ahead_runs :
    Ahead rowKey (live history) (position place after)
      (firstRun history after ++ secondRun history after) := by
  cases after with
  | none =>
    refine ⟨fun r => ?_, ?_⟩
    · simp only [firstRun, secondRun, inPinnedRun, Option.all_none, if_true, List.mem_append,
        mem_orderBy, mem_pinnedRows, mem_unpinnedRows, position, Option.elim_none,
        WithBot.bot_lt_coe, and_true]
      cases r.pinned <;> simp
    · have h := runs_sorted history fun _ => true
      rw [List.filter_true] at h
      exact h
  | some cursor =>
    cases hcursor : cursor.pinned with
    | true =>
      refine ⟨fun r => ?_, ?_⟩
      · simp only [firstRun, secondRun, inPinnedRun, Option.all_some, hcursor, if_true,
          List.mem_append, mem_orderBy, List.mem_filter, mem_pinnedRows, mem_unpinnedRows,
          position, Option.elim_some, WithBot.coe_lt_coe]
        cases hr : r.pinned with
        | true => simp [place_lt_rowKey_pinned cursor r hcursor hr]
        | false => simp [place_lt_of_pinned cursor r hcursor hr]
      · simpa only [firstRun, secondRun, inPinnedRun, Option.all_some, hcursor, if_true]
          using runs_sorted history _
    | false =>
      refine ⟨fun r => ?_, ?_⟩
      · simp only [firstRun, secondRun, inPinnedRun, Option.all_some, hcursor,
          Bool.false_eq_true, if_false, List.append_nil, mem_orderBy, List.mem_filter,
          mem_unpinnedRows, position, Option.elim_some, WithBot.coe_lt_coe]
        cases hr : r.pinned with
        | true => simp [not_place_lt_of_unpinned cursor r hcursor hr]
        | false => simp [place_lt_rowKey_unpinned cursor r hcursor hr]
      · simpa only [firstRun, secondRun, inPinnedRun, Option.all_some, hcursor,
          Bool.false_eq_true, if_false, List.append_nil] using unpinned_sorted history _

theorem firstRows_eq (limit : ℕ) :
    firstRows history after limit = (firstRun history after).take limit := by
  cases after with
  | none => rfl
  | some cursor =>
    rw [firstRows, firstRun]
    split <;> rfl

theorem unpinnedHead_eq (limit : ℕ) (hin : inPinnedRun after) :
    unpinnedHead history limit = (secondRun history after).take limit := by
  rw [unpinnedHead, secondRun, if_pos hin]

end Runs

section Readers

variable (cipherBytes : ItemRow → ℕ) (limit budget : ℕ) (history : Items)
  (after : Option ItemCursor)

theorem listFrom_rows :
    (listFrom limit history after).1 =
      (firstRun history after ++ secondRun history after).take limit := by
  rw [listFrom, firstRows_eq, List.take_append]
  dsimp only
  rw [List.length_take]
  by_cases hin : inPinnedRun after = true
  · rw [unpinnedHead_eq history after _ hin]
    split
    case isTrue =>
      congr 2
      omega
    case isFalse hfull =>
      have hnone : ¬0 < limit - min (min limit (firstRun history after).length) limit :=
        fun h => hfull ⟨h, hin⟩
      have hshort : limit - (firstRun history after).length = 0 := by omega
      rw [hshort, List.take_zero, List.append_nil]
  · rw [if_neg fun h => hin h.2, secondRun, if_neg hin, List.take_nil, List.append_nil]

theorem listFrom_next :
    (listFrom limit history after).2 =
      if (listFrom limit history after).1.length = limit ∧ 0 < limit then
        (listFrom limit history after).1.getLast?.map cursorOf
      else none :=
  rfl

theorem resume_of_getLast {run : List ItemRow} {cursor : ItemCursor}
    (h : run.getLast?.map cursorOf = some cursor) :
    ∃ last, run.getLast? = some last ∧ rowKey last = place cursor := by
  obtain ⟨last, hlast, rfl⟩ := Option.map_eq_some_iff.1 h
  exact ⟨last, hlast, rfl⟩

theorem getLast_map_ne_none {run : List ItemRow} (hrun : run ≠ []) :
    run.getLast?.map cursorOf ≠ none := by
  simpa using hrun

theorem reads_listFrom (hlimit : 1 ≤ limit) :
    Reads rowKey (firstRun history after ++ secondRun history after)
      (listFrom limit history after).1 ((listFrom limit history after).2.map place) := by
  refine ⟨?_, ?_, ?_⟩
  · rw [listFrom_rows]
    exact List.take_prefix _ _
  · intro hnone
    rw [Option.map_eq_none_iff, listFrom_next] at hnone
    have hshort : (listFrom limit history after).1.length ≠ limit := by
      intro hfull
      rw [if_pos ⟨hfull, hlimit⟩] at hnone
      refine getLast_map_ne_none (List.length_pos_iff.1 ?_) hnone
      omega
    rw [listFrom_rows, List.length_take] at hshort
    rw [listFrom_rows]
    exact List.take_of_length_le (by omega)
  · intro c hc
    obtain ⟨cursor, hcursor, rfl⟩ := Option.map_eq_some_iff.1 hc
    rw [listFrom_next] at hcursor
    split at hcursor
    · exact resume_of_getLast hcursor
    · cases hcursor

/-- What one bounded query adds to a page: a first part of its rows, all of them when it
was exhausted, and a page that goes on is not empty. -/
structure Fetched (limit : ℕ) (rows out : List ItemRow)
    (fetched : BoundedFetch × ℕ × List ItemRow) : Prop where
  bound : fetched.2.2.length ≤ limit
  taken : ∃ taken, fetched.2.2 = out ++ taken ∧ taken <+: rows ∧
    (fetched.1 = .exhausted → taken = rows)
  started : fetched.1 ≠ .exhausted → fetched.2.2 ≠ []

theorem fetchBounded_fetched (hlimit : 1 ≤ limit) (rows : List ItemRow) (bytes : ℕ)
    (out : List ItemRow) (hout : out.length ≤ limit) :
    Fetched limit rows out (fetchBounded cipherBytes limit budget rows bytes out) := by
  induction rows generalizing bytes out with
  | nil =>
    exact ⟨hout, ⟨[], by simp [fetchBounded], List.prefix_refl _, fun _ => rfl⟩,
      by simp [fetchBounded]⟩
  | cons row rows ih =>
    rw [fetchBounded]
    split
    case isTrue hfull =>
      have hpos : 0 < out.length := by omega
      exact ⟨hout, ⟨[], by simp, List.nil_prefix, by simp⟩, fun _ => List.length_pos_iff.1 hpos⟩
    case isFalse hroom =>
      dsimp only
      split
      case isTrue hover =>
        exact ⟨hout, ⟨[], by simp, List.nil_prefix, by simp⟩, fun _ => hover.1⟩
      case isFalse =>
        have hnext : (out ++ [row]).length ≤ limit := by
          rw [List.length_append, List.length_singleton]
          omega
        obtain ⟨hbound, ⟨taken, heq, hpre, hall⟩, hstarted⟩ := ih _ (out ++ [row]) hnext
        refine ⟨hbound, ⟨row :: taken, by rw [heq]; simp, ?_, ?_⟩, hstarted⟩
        · exact List.cons_prefix_cons.2 ⟨rfl, hpre⟩
        · intro hexhausted
          rw [hall hexhausted]

/-- A query cut off one row past the room that is left fetches as the whole run would. -/
theorem fetchBounded_take (hlimit : 1 ≤ limit) (run : List ItemRow) (bytes : ℕ)
    (out : List ItemRow) (hout : out.length ≤ limit) :
    Fetched limit run out
      (fetchBounded cipherBytes limit budget (run.take (limit - out.length + 1)) bytes out) := by
  obtain ⟨hbound, ⟨taken, heq, hpre, hall⟩, hstarted⟩ :=
    fetchBounded_fetched cipherBytes limit budget hlimit (run.take (limit - out.length + 1)) bytes
      out hout
  refine ⟨hbound, ⟨taken, heq, hpre.trans (List.take_prefix _ _), fun hexhausted => ?_⟩, hstarted⟩
  rw [heq, List.length_append, hall hexhausted, List.length_take] at hbound
  rw [hall hexhausted]
  exact List.take_of_length_le (by omega)

/-- The page before its cursor is read off: the first query and, when it is exhausted
among the pinned rows, the second. -/
def boundedRows : BoundedFetch × List ItemRow :=
  let (result, bytes, rows) :=
    fetchBounded cipherBytes limit budget (firstRows history after (limit + 1)) 0 []
  if result = .exhausted ∧ inPinnedRun after then
    let (result, _, rows) :=
      fetchBounded cipherBytes limit budget (unpinnedHead history (limit - rows.length + 1)) bytes
        rows
    (result, rows)
  else (result, rows)

theorem listFromBounded_eq (hlimit : 1 ≤ limit) :
    listFromBounded cipherBytes limit budget history after =
      ((boundedRows cipherBytes limit budget history after).2,
        if (boundedRows cipherBytes limit budget history after).2 ≠ [] ∧
          (boundedRows cipherBytes limit budget history after).1 ≠ .exhausted then
          (boundedRows cipherBytes limit budget history after).2.getLast?.map cursorOf
        else none) := by
  rw [listFromBounded, if_neg (by omega), boundedRows]
  dsimp only
  split <;> rfl

theorem boundedRows_fetched (hlimit : 1 ≤ limit) :
    Fetched limit (firstRun history after ++ secondRun history after) []
      ((boundedRows cipherBytes limit budget history after).1, 0,
        (boundedRows cipherBytes limit budget history after).2) := by
  have hfirst := fetchBounded_take cipherBytes limit budget hlimit (firstRun history after) 0 []
    (Nat.zero_le _)
  rw [List.length_nil, Nat.sub_zero, ← firstRows_eq] at hfirst
  rw [boundedRows]
  generalize fetchBounded cipherBytes limit budget (firstRows history after (limit + 1)) 0 [] =
    fetched at hfirst ⊢
  obtain ⟨result, bytes, rows⟩ := fetched
  obtain ⟨hbound, ⟨taken, htaken, hpre, hall⟩, hstarted⟩ := hfirst
  dsimp only at htaken hbound hall hstarted ⊢
  rw [List.nil_append] at htaken
  subst htaken
  split
  case isTrue hcontinue =>
    obtain ⟨hexhausted, hin⟩ := hcontinue
    have hsecond := fetchBounded_take cipherBytes limit budget hlimit (secondRun history after)
      bytes rows hbound
    rw [← unpinnedHead_eq history after _ hin] at hsecond
    obtain ⟨hbound', ⟨more, hmore, hpre', hall'⟩, hstarted'⟩ := hsecond
    refine ⟨hbound', ⟨rows ++ more, by simpa using hmore, ?_, fun h => ?_⟩, hstarted'⟩
    · rw [hall hexhausted]
      exact (List.prefix_append_right_inj _).2 hpre'
    · rw [hall hexhausted, hall' h]
  case isFalse hstop =>
    refine ⟨hbound, ⟨rows, rfl, hpre.trans (List.prefix_append _ _), fun hexhausted => ?_⟩,
      hstarted⟩
    have hout : ¬inPinnedRun after = true := fun hin => hstop ⟨hexhausted, hin⟩
    rw [hall hexhausted, secondRun, if_neg hout, List.append_nil]

theorem reads_listFromBounded (hlimit : 1 ≤ limit) :
    Reads rowKey (firstRun history after ++ secondRun history after)
      (listFromBounded cipherBytes limit budget history after).1
      ((listFromBounded cipherBytes limit budget history after).2.map place) := by
  obtain ⟨-, ⟨taken, htaken, hpre, hall⟩, hstarted⟩ :=
    boundedRows_fetched cipherBytes limit budget history after hlimit
  rw [listFromBounded_eq cipherBytes limit budget history after hlimit]
  dsimp only at htaken hall hstarted ⊢
  rw [List.nil_append] at htaken
  rw [htaken] at hstarted ⊢
  refine ⟨hpre, fun hnone => ?_, ?_⟩
  · refine hall (by_contra fun hmore => ?_)
    rw [if_pos ⟨hstarted hmore, hmore⟩, Option.map_eq_none_iff] at hnone
    exact getLast_map_ne_none (hstarted hmore) hnone
  · intro c hc
    obtain ⟨cursor, hcursor, rfl⟩ := Option.map_eq_some_iff.1 hc
    split at hcursor
    · exact resume_of_getLast hcursor
    · cases hcursor

/-- The two ways a page is read. -/
def IsPageReader (limit : ℕ)
    (read : Items → Option ItemCursor → List ItemRow × Option ItemCursor) : Prop :=
  read = listFrom limit ∨
    ∃ cipherBytes budget, read = listFromBounded cipherBytes limit budget

theorem pages_of_reader {read : Items → Option ItemCursor → List ItemRow × Option ItemCursor}
    (hlimit : 1 ≤ limit) (hread : IsPageReader limit read) :
    Pages live rowKey place read history := by
  intro cursor
  refine ⟨_, ahead_runs history cursor, ?_⟩
  rcases hread with rfl | ⟨cipherBytes, budget, rfl⟩
  · exact reads_listFrom limit history cursor hlimit
  · exact reads_listFromBounded cipherBytes limit budget history cursor hlimit

/-- With no order left on an unpinned row the list has the rows in the order of the pages. -/
theorem ahead_list (hclean : ∀ row ∈ history.rows, row.pinned = false → row.pinOrder = none)
    (size : ℕ) (hsize : history.rows.length ≤ size) :
    Ahead rowKey (live history) (position place none) (list history size 0) := by
  have hlength : (orderBy listOrder (live history)).length ≤ size := by
    rw [orderBy, List.length_insertionSort]
    exact (List.length_filter_le _ _).trans hsize
  rw [list, List.drop_zero, List.take_of_length_le hlength]
  refine ⟨fun r => ?_, ?_⟩
  · simp [mem_orderBy, position]
  · have hdistinct : ((live history).map ItemRow.id).Nodup := filter_distinct history _
    refine (orderBy_sorted (fun _ _ => listOrder_id) hdistinct).imp_of_mem ?_
    intro a b ha hb hlt
    rw [mem_orderBy, mem_live] at ha hb
    rwa [rowKey_eq_listOrder (hclean a ha.1), rowKey_eq_listOrder (hclean b hb.1)]

theorem eq_of_mem_of_id {a b : ItemRow} (ha : a ∈ history.rows) (hb : b ∈ history.rows)
    (h : a.id = b.id) : a = b :=
  List.inj_on_of_nodup_map history.distinct ha hb h

/-- A row that keeps its place is among the yielded rows of its id, and is the only one. -/
theorem filter_id_eq_filter_key {tables : List Items} {stable : ItemCursor}
    {yielded : List ItemRow}
    (hyielded : ∀ row ∈ yielded, ∃ table ∈ tables, row ∈ live table)
    (hstays : ∀ table ∈ tables, ∃ row ∈ live table, cursorOf row = stable) :
    (yielded.filter fun row => row.id = stable.id) =
      yielded.filter fun row => rowKey row = place stable := by
  refine List.filter_congr fun row hrow => ?_
  rw [decide_eq_decide]
  obtain ⟨table, htable, hlive⟩ := hyielded row hrow
  obtain ⟨held, hheld, rfl⟩ := hstays table htable
  refine ⟨fun hid => ?_, fun hkey => rowKey_id hkey⟩
  rw [eq_of_mem_of_id table ((mem_live table).1 hlive).1 ((mem_live table).1 hheld).1 hid]
  rfl

end Readers

/-- Following the cursors of an unchanged table ends with the list, each row once; when
the table changes between the pages, a row whose place stays the same is still yielded
exactly once. -/
theorem pages_yield_history (limit : ℕ) (hlimit : 1 ≤ limit)
    (read : Items → Option ItemCursor → List ItemRow × Option ItemCursor)
    (hread : IsPageReader limit read) :
    (∀ history : Items, (∀ row ∈ history.rows, row.pinned = false → row.pinOrder = none) →
      ∀ size, history.rows.length ≤ size →
        ((list history size 0).map ItemRow.id).Nodup ∧
        ∃ count ≤ (list history size 0).length + 1,
          walk read (List.replicate count history) none = some (list history size 0)) ∧
    ∀ (tables : List Items) (yielded : List ItemRow),
      walk read tables none = some yielded →
      ∀ stable : ItemCursor,
        (∀ table ∈ tables, ∃ row ∈ table.rows, row.deleted = false ∧ cursorOf row = stable) →
        (yielded.filter fun row => row.id = stable.id).length = 1 := by
  refine ⟨?_, ?_⟩
  · intro history hclean size hsize
    have hahead := ahead_list history hclean size hsize
    refine ⟨?_, walk_static (pages_of_reader limit history hlimit hread) none hahead⟩
    refine List.pairwise_map.2 (hahead.sorted.imp_of_mem ?_)
    intro a b ha hb hlt hid
    have ha' := (mem_live history).1 ((hahead.mem a).1 ha).1
    have hb' := (mem_live history).1 ((hahead.mem b).1 hb).1
    rw [eq_of_mem_of_id history ha'.1 hb'.1 hid] at hlt
    exact lt_irrefl _ hlt
  · intro tables yielded hwalk stable hstable
    have hpages : ∀ table ∈ tables, Pages live rowKey place read table := fun table _ =>
      pages_of_reader limit table hlimit hread
    have hstays : ∀ table ∈ tables, ∃ row ∈ live table, cursorOf row = stable := by
      intro table htable
      obtain ⟨row, hrow, hlive, hplace⟩ := hstable table htable
      exact ⟨row, (mem_live table).2 ⟨hrow, hlive⟩, hplace⟩
    rw [filter_id_eq_filter_key (walk_mem hpages hwalk) hstays]
    refine walk_once hpages hwalk (WithBot.bot_lt_coe _) fun table htable => ?_
    obtain ⟨row, hrow, hplace⟩ := hstays table htable
    exact ⟨row, hrow, congrArg place hplace⟩

private def note (id : String) (pinOrder : Option PinOrder) (createdAt : Int) : ItemRow :=
  ⟨id, some ([0], [1, 2]), "text/plain", "h", pinOrder.isSome, pinOrder, 0, createdAt, false, "o",
    none, none, none, none⟩

private def notes : Items :=
  ⟨[note "a" none 5, note "b" (some 2) 1, note "c" none 5], by decide⟩

private def laterNotes : Items :=
  ⟨[note "a" none 5, note "b" (some 2) 1, note "d" none 9], by decide⟩

theorem notes_pages :
    (∃ count ≤ 4, walk (listFrom 1) (List.replicate count notes) none = some (list notes 3 0)) ∧
      list notes 3 0 = [note "b" (some 2) 1, note "c" none 5, note "a" none 5] ∧
      ∀ yielded, walk (listFrom 1) [notes, laterNotes, laterNotes, laterNotes] none = some yielded →
        (yielded.filter fun row => row.id = "a").length = 1 := by
  have h := pages_yield_history 1 le_rfl (listFrom 1) (Or.inl rfl)
  obtain ⟨-, count, hcount, hwalk⟩ := h.1 notes (by decide) 3 (by decide)
  refine ⟨⟨count, hcount.trans (by decide), hwalk⟩, by decide, ?_⟩
  intro yielded hyielded
  exact h.2 _ yielded hyielded ⟨false, none, 5, "a"⟩ (by decide)

end CopyPaste.History.Paging
