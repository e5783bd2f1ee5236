import CopyPaste.Peer.Backends
import CopyPaste.Wire.RoundTrip

/-!
Every workspace answers as the maps in memory do. A backend is compared with the maps
operation by operation, once while summaries arrive and once while the session plans;
what planning and the watermark compute then follows for all of them at once.
-/

namespace CopyPaste.Peer.Workspaces

open Lib.Rows Merge.Comparator Plan Plan.SummaryWorkspace Wire.Messages Backends
open Lib.JsonText Lib.JsonFields Merge.Payload

/-- The numbers of a summary are ones of their types, its order is a number, and its text
gives it back. -/
structure Sound (libs : Texts) (item : ItemSummary) : Prop where
  created : StampTyped item.createdAt
  pinned : StampTyped item.pinUpdatedAt
  order : OrderFinite item.pinOrder
  kept : ∀ rank ∈ item.pinOrder, Keeps libs.tokens rank

/-- The maps hold sound summaries under distinct ids. -/
structure Held (libs : Texts) (maps : SummaryWorkspace) : Prop where
  advertised : (maps.advertised.map ItemSummary.itemId).Nodup
  comparison : (maps.comparison.map ItemSummary.itemId).Nodup
  wanted : (maps.wanted.map ItemSummary.itemId).Nodup
  soundAdvertised : ∀ item ∈ maps.advertised, Sound libs item
  soundComparison : ∀ item ∈ maps.comparison, Sound libs item
  soundRemote : ∀ item ∈ maps.remote, Sound libs item
  soundWanted : ∀ item ∈ maps.wanted, Sound libs item

/-- The wanted summaries in one of the orders from the newest on. -/
structure Newest (wanted ordered : List ItemSummary) : Prop where
  perm : ordered.Perm wanted
  sorted : ordered.Pairwise fun a b => b.createdAt ≤ a.createdAt

def setWanted (maps : SummaryWorkspace) (item : ItemSummary) : SummaryWorkspace :=
  { maps with wanted := put ItemSummary.itemId maps.wanted item }

def deferRest (maps : SummaryWorkspace) (rest : List ItemSummary) : SummaryWorkspace :=
  { maps with deferred := rest.map ItemSummary.itemId ++ maps.deferred }

/-- A backend that keeps pace with the maps, `Feeding` while summaries arrive and
`Planning` from then on. -/
structure Mirrors {W : Type} (libs : Texts) (backend : Backend W)
    (Feeding Planning : SummaryWorkspace → W → Prop) : Prop where
  begin : ∀ {maps w}, Feeding maps w → Planning maps w
  held : ∀ {maps w}, Planning maps w → Held libs maps
  addAdvertised : ∀ {maps w items}, Feeding maps w → (∀ item ∈ items, Sound libs item) →
    ∃ w', backend.addAdvertised w items = .ok w' ∧ Feeding (maps.addAdvertised items) w'
  addComparison : ∀ {maps w items}, Feeding maps w → (∀ item ∈ items, Sound libs item) →
    ∃ w', backend.addComparison w items = .ok w' ∧ Feeding (maps.addComparison items) w'
  addRemote : ∀ {maps w items}, Feeding maps w → (∀ item ∈ items, Sound libs item) →
    ∃ w', backend.addRemote w items = .ok w' ∧ Feeding (maps.addRemote items) w'
  remotePage : ∀ {maps w after limit}, Planning maps w → after < 2 ^ 63 → limit < 2 ^ 63 →
    backend.remotePage w after limit = .ok (memoryPage maps.remote after limit)
  advertised : ∀ {maps w}, Planning maps w → ∀ id,
    backend.advertised w id = .ok (lookup ItemSummary.itemId maps.advertised id)
  comparison : ∀ {maps w}, Planning maps w → ∀ id,
    backend.comparison w id = .ok (lookup ItemSummary.itemId maps.comparison id)
  wanted : ∀ {maps w}, Planning maps w → ∀ id,
    backend.wanted w id = .ok (lookup ItemSummary.itemId maps.wanted id)
  remoteWins : ∀ {maps w}, Planning maps w → ∀ item,
    backend.remoteWins w item = .ok (maps.remoteWins item)
  isDeferred : ∀ {maps w}, Planning maps w → ∀ id,
    backend.isDeferred w id = .ok (decide (id ∈ maps.deferred))
  setWanted : ∀ {maps w item}, Planning maps w → Sound libs item →
    ∃ w', backend.setWanted w item = .ok w' ∧ Planning (setWanted maps item) w'
  considerWanted : ∀ {maps w item}, Planning maps w → Sound libs item →
    ∃ w', backend.considerWanted w item = .ok (w', (maps.considerWanted item).2) ∧
      Planning (maps.considerWanted item).1 w'
  defer : ∀ {maps w}, Planning maps w → ∀ id,
    ∃ w', backend.defer w id = .ok w' ∧ Planning (maps.defer id) w'
  finishPlan : ∀ {maps w limit}, Planning maps w → limit < 2 ^ 63 →
    ∃ ordered w', Newest maps.wanted ordered ∧
      backend.finishPlan w limit = .ok (w', ordered.take limit, ordered.length - limit) ∧
      Planning (deferRest maps (ordered.drop limit)) w'

variable {libs : Texts}

section Maps

variable {maps : SummaryWorkspace} {items : List ItemSummary} {item : ItemSummary}

private theorem sound_foldl_put {rows : List ItemSummary} (hrows : ∀ row ∈ rows, Sound libs row)
    (hitems : ∀ item ∈ items, Sound libs item) :
    ∀ row ∈ items.foldl (put ItemSummary.itemId) rows, Sound libs row := by
  intro row hrow
  rcases mem_foldl_put hrow with h | h
  · exact hrows row h
  · exact hitems row h

theorem Held.addAdvertised (h : Held libs maps) (hitems : ∀ item ∈ items, Sound libs item) :
    Held libs (maps.addAdvertised items) where
  __ := h
  advertised := nodup_foldl_put items h.advertised
  soundAdvertised := sound_foldl_put h.soundAdvertised hitems

theorem Held.addComparison (h : Held libs maps) (hitems : ∀ item ∈ items, Sound libs item) :
    Held libs (maps.addComparison items) where
  __ := h
  comparison := nodup_foldl_put items h.comparison
  soundComparison := sound_foldl_put h.soundComparison hitems

theorem Held.addRemote (h : Held libs maps) (hitems : ∀ item ∈ items, Sound libs item) :
    Held libs (maps.addRemote items) where
  __ := h
  soundRemote := by
    intro item hitem
    rcases List.mem_append.1 hitem with hold | hnew
    · exact h.soundRemote item hold
    · exact hitems item hnew

theorem Held.setWanted (h : Held libs maps) (hitem : Sound libs item) :
    Held libs (setWanted maps item) where
  __ := h
  wanted := nodup_put maps.wanted item h.wanted
  soundWanted := by
    intro row hrow
    rcases (mem_put _ _ _).1 hrow with ⟨hold, -⟩ | rfl
    · exact h.soundWanted row hold
    · exact hitem

theorem Held.defer (h : Held libs maps) (id : String) : Held libs (maps.defer id) where
  __ := h

theorem Held.deferRest (h : Held libs maps) (rest : List ItemSummary) :
    Held libs (deferRest maps rest) where
  __ := h

/-- Considering a summary either leaves the maps alone or wants it. -/
theorem considerWanted_cases (maps : SummaryWorkspace) (item : ItemSummary) :
    maps.considerWanted item = (maps, false) ∧
        (lookup ItemSummary.itemId maps.wanted item.itemId).any
          (fun seen => mergeDecisionBySummary seen item ≠ .takeRemote) = true ∨
      maps.considerWanted item = (setWanted maps item, true) ∧
        (lookup ItemSummary.itemId maps.wanted item.itemId).any
          (fun seen => mergeDecisionBySummary seen item ≠ .takeRemote) = false := by
  unfold SummaryWorkspace.considerWanted
  split
  · rename_i hseen
    exact .inl ⟨rfl, hseen⟩
  · rename_i hseen
    exact .inr ⟨rfl, Bool.eq_false_iff.2 hseen⟩

theorem Held.considerWanted (h : Held libs maps) (hitem : Sound libs item) :
    Held libs (maps.considerWanted item).1 := by
  rcases considerWanted_cases maps item with ⟨heq, -⟩ | ⟨heq, -⟩
  · rw [heq]
    exact h
  · rw [heq]
    exact h.setWanted hitem

theorem newest_insertionSort {rows wanted : List ItemSummary} (h : rows.Perm wanted) :
    Newest wanted (rows.insertionSort fun a b => b.createdAt ≤ a.createdAt) where
  perm := (List.perm_insertionSort _ rows).trans h
  sorted := by
    have := List.pairwise_insertionSort (fun a b : ItemSummary => b.createdAt ≤ a.createdAt) rows
    exact this

end Maps

section Tables

variable {α β κ : Type} [DecidableEq κ] {ident : α → κ} {row : α → β} {key : β → κ}

/-- Rows under distinct identifiers answer the same in any order. -/
theorem lookup_perm {rows other : List α} (hperm : rows.Perm other)
    (hnodup : (rows.map ident).Nodup) (id : κ) : lookup ident rows id = lookup ident other id := by
  cases hrow : lookup ident other id with
  | none =>
    rw [lookup_eq_none_iff] at hrow ⊢
    exact fun r hr => hrow r (hperm.mem_iff.1 hr)
  | some r =>
    obtain ⟨hmem, rfl⟩ := lookup_eq_some hrow
    exact lookup_of_mem hnodup (hperm.mem_iff.2 hmem)

theorem lookup_rows (hkey : ∀ entry, key (row entry) = ident entry) (entries : List α) (id : κ) :
    lookup key (entries.map row) id = (lookup ident entries id).map row := by
  unfold lookup
  rw [List.find?_map]
  congr 2
  funext entry
  simp [hkey]

theorem put_perm {rows other : List α} (hperm : rows.Perm other) (r : α) :
    (put ident rows r).Perm (put ident other r) :=
  (hperm.filter _).append_right [r]

theorem put_rows (hkey : ∀ entry, key (row entry) = ident entry) (entries : List α) (entry : α) :
    put key (entries.map row) (row entry) = (put ident entries entry).map row := by
  simp only [put, List.filter_map, List.map_append, List.map_cons, List.map_nil]
  congr 2
  refine List.filter_congr fun other _ => ?_
  simp [hkey]

theorem foldl_put_rows (hkey : ∀ entry, key (row entry) = ident entry) (items : List α)
    {entries : List α} {table : List β} (h : table.Perm (entries.map row)) :
    ((items.map row).foldl (put key) table).Perm ((items.foldl (put ident) entries).map row) := by
  induction items generalizing entries table with
  | nil => exact h
  | cons item rest ih =>
    refine ih ?_
    rw [← put_rows hkey]
    exact put_perm h (row item)

end Tables

section Disk

variable {maps : SummaryWorkspace} {d : DiskWorkspace}
  {items : List ItemSummary} {item : ItemSummary}

open DiskWorkspace

variable (libs) in
theorem fromSlice_toVec (h : Sound libs item) : fromSlice libs (toVec libs item) = .ok item := by
  have hlegible : Legible libs.tokens 127 (writeSummary item) := legible_writeSummary h.kept
  rw [fromSlice, toVec, fromUtf8_utf8, Option.bind_some, String.toList_ofList,
    parse_write libs.tokens hlegible, Option.bind_some,
    readSummary_writeSummary libs.spelling h.created h.pinned h.order]
  rfl

/-- The received summaries with their positions, counted from one. -/
def numbered (libs : Texts) (remote : List ItemSummary) : List (ℕ × List UInt8) :=
  remote.zipIdx.map fun (item, i) => (i + 1, toVec libs item)

/-- The tables hold what the maps hold. -/
structure Stored (libs : Texts) (maps : SummaryWorkspace) (d : DiskWorkspace) : Prop
    extends Held libs maps where
  advertisedRows : d.advertised.Perm (maps.advertised.map (summaryRow libs))
  comparisonRows : d.comparison.Perm (maps.comparison.map (summaryRow libs))
  remoteRows : d.remote = numbered libs maps.remote
  wantedRows : d.wanted.Perm (maps.wanted.map (wantedRow libs))
  deferredIds : ∀ id, id ∈ d.deferred ↔ id ∈ maps.deferred

def StoredOpen (libs : Texts) (maps : SummaryWorkspace) (d : DiskWorkspace) : Prop :=
  Stored libs maps d ∧ d.planning = false

theorem get_rows {table : List (String × List UInt8)} {entries : List ItemSummary}
    (hnodup : (entries.map ItemSummary.itemId).Nodup) (hsound : ∀ item ∈ entries, Sound libs item)
    (hrows : table.Perm (entries.map (summaryRow libs))) (id : String) :
    DiskWorkspace.get libs table id = .ok (lookup ItemSummary.itemId entries id) := by
  have hkeys : (table.map Prod.fst).Nodup := by
    rw [(hrows.map Prod.fst).nodup_iff, List.map_map]
    exact hnodup
  have hlookup : lookup Prod.fst table id =
      (lookup ItemSummary.itemId entries id).map (summaryRow libs) := by
    rw [lookup_perm hrows hkeys]
    exact lookup_rows (fun _ => rfl) entries id
  rw [DiskWorkspace.get, hlookup]
  cases hentry : lookup ItemSummary.itemId entries id with
  | none => rfl
  | some entry =>
    have hdecode := fromSlice_toVec libs (hsound entry (lookup_eq_some hentry).1)
    simp only [Option.map_some, summaryRow, hdecode]
    rfl

theorem mapM_ok {γ δ : Type} {f : γ → Outcome δ} {g : γ → δ} (rows : List γ)
    (h : ∀ r ∈ rows, f r = .ok (g r)) : rows.mapM f = .ok (rows.map g) := by
  induction rows with
  | nil => rfl
  | cons r rest ih =>
    rw [List.mapM_cons, h r List.mem_cons_self,
      ih fun other hother => h other (List.mem_cons_of_mem _ hother)]
    rfl

theorem transaction_ok (h : d.planning = false) (body : DiskWorkspace → DiskWorkspace) :
    d.transaction body = .ok (body d) :=
  if_neg (by simp [h])

theorem stored_addAdvertised (h : StoredOpen libs maps d) (hitems : ∀ item ∈ items, Sound libs item) :
    ∃ d', d.addAdvertised libs items = .ok d' ∧ StoredOpen libs (maps.addAdvertised items) d' := by
  obtain ⟨hstored, hplanning⟩ := h
  refine ⟨_, transaction_ok hplanning _, ?_, hplanning⟩
  exact
    { hstored.toHeld.addAdvertised hitems, hstored with
      advertisedRows := foldl_put_rows (fun _ => rfl) items hstored.advertisedRows }

theorem stored_addComparison (h : StoredOpen libs maps d) (hitems : ∀ item ∈ items, Sound libs item) :
    ∃ d', d.addComparison libs items = .ok d' ∧ StoredOpen libs (maps.addComparison items) d' := by
  obtain ⟨hstored, hplanning⟩ := h
  refine ⟨_, transaction_ok hplanning _, ?_, hplanning⟩
  exact
    { hstored.toHeld.addComparison hitems, hstored with
      comparisonRows := foldl_put_rows (fun _ => rfl) items hstored.comparisonRows }

theorem nextSeq_numbered (remote : List ItemSummary) :
    nextSeq (numbered libs remote) = remote.length + 1 := by
  have hmax : ∀ n, ((remote.zipIdx n).map fun entry => entry.2 + 1).foldr max 0 =
      if remote = [] then 0 else n + remote.length := by
    induction remote with
    | nil => exact fun n => rfl
    | cons item rest ih =>
      intro n
      simp only [List.zipIdx_cons, List.map_cons, List.foldr_cons, ih, List.length_cons,
        reduceCtorEq, if_false]
      split
      · rename_i hrest
        simp [hrest]
      · omega
  have := hmax 0
  unfold nextSeq numbered
  rw [List.map_map]
  simp only [Function.comp_def, this]
  split
  · rename_i hnil
    simp [hnil]
  · omega

theorem insertRemote_numbered (remote : List ItemSummary) (item : ItemSummary) :
    insertRemote libs (numbered libs remote) item = numbered libs (remote ++ [item]) := by
  rw [insertRemote, nextSeq_numbered]
  simp [numbered, List.zipIdx_append]

theorem foldl_insertRemote (items remote : List ItemSummary) :
    items.foldl (insertRemote libs) (numbered libs remote) = numbered libs (remote ++ items) := by
  induction items generalizing remote with
  | nil => simp
  | cons item rest ih =>
    rw [List.foldl_cons, insertRemote_numbered, ih]
    simp

theorem stored_addRemote (h : StoredOpen libs maps d) (hitems : ∀ item ∈ items, Sound libs item) :
    ∃ d', d.addRemote libs items = .ok d' ∧ StoredOpen libs (maps.addRemote items) d' := by
  obtain ⟨hstored, hplanning⟩ := h
  refine ⟨_, transaction_ok hplanning _, ?_, hplanning⟩
  exact
    { hstored.toHeld.addRemote hitems, hstored with
      remoteRows := by
        rw [hstored.remoteRows, foldl_insertRemote]
        rfl }

theorem getElem_numbered {remote : List ItemSummary} {i : ℕ} (hi : i < (numbered libs remote).length) :
    ((numbered libs remote)[i]).1 = i + 1 := by
  simp [numbered]

/-- Reading from a position on is leaving out the rows before it. -/
theorem filter_numbered (remote : List ItemSummary) (after : ℕ) :
    (numbered libs remote).filter (fun row => decide ((after : Int) < row.1)) =
      (numbered libs remote).drop after := by
  conv_lhs => rw [← List.take_append_drop after (numbered libs remote)]
  rw [List.filter_append, List.filter_eq_nil_iff.2, List.nil_append, List.filter_eq_self]
  · intro row hrow
    obtain ⟨i, hi, rfl⟩ := List.getElem_of_mem hrow
    rw [List.getElem_drop, getElem_numbered, decide_eq_true_eq]
    omega
  · intro row hrow
    obtain ⟨i, hi, rfl⟩ := List.getElem_of_mem hrow
    rw [List.length_take] at hi
    rw [List.getElem_take, getElem_numbered, decide_eq_true_eq]
    omega

variable (libs) in
theorem sorted_numbered (remote : List ItemSummary) :
    (numbered libs remote).Pairwise fun a b => a.1 ≤ b.1 := by
  rw [List.pairwise_iff_getElem]
  intro i j hi hj hlt
  rw [getElem_numbered, getElem_numbered]
  omega

variable {limit : ℕ}

theorem sqlLimit_cast {α : Type} (h : limit < 2 ^ 63) (rows : List α) :
    sqlLimit (castI64 limit) rows = rows.take limit := by
  rw [castI64, if_pos h, sqlLimit, if_pos (by omega)]
  rfl

theorem stored_remotePage (h : Stored libs maps d) {after : ℕ} (hafter : after < 2 ^ 63)
    (hlimit : limit < 2 ^ 63) :
    d.remotePage libs after limit = .ok (memoryPage maps.remote after limit) := by
  have hcast : castI64 after = after := if_pos hafter
  have hsorted := (sorted_numbered libs maps.remote).sublist (List.drop_sublist after _)
  unfold DiskWorkspace.remotePage
  dsimp only
  rw [h.remoteRows, hcast, filter_numbered, hsorted.insertionSort_eq, sqlLimit_cast hlimit, numbered,
    ← List.map_drop, ← List.map_take, List.mapM_map, memoryPage]
  refine mapM_ok _ fun entry hentry => ?_
  have hmem := List.mem_of_mem_drop (List.mem_of_mem_take hentry)
  rw [Function.comp_apply, fromSlice_toVec libs (h.soundRemote _ (List.fst_mem_of_mem_zipIdx hmem))]
  rfl

theorem stored_getWanted (h : Stored libs maps d) (id : String) :
    d.getWanted libs id = .ok (lookup ItemSummary.itemId maps.wanted id) := by
  refine get_rows h.wanted h.soundWanted ?_ id
  have hrows := h.wantedRows.map fun row => (row.1, row.2.2)
  rw [List.map_map] at hrows
  exact hrows

theorem stored_remoteWins (h : Stored libs maps d) (item : ItemSummary) :
    d.remoteWins libs item = .ok (maps.remoteWins item) := by
  have hget := get_rows h.comparison h.soundComparison h.comparisonRows item.itemId
  rw [DiskWorkspace.remoteWins, hget, SummaryWorkspace.remoteWins]
  cases lookup ItemSummary.itemId maps.comparison item.itemId with
  | none | some => rfl

theorem stored_setWanted (h : Stored libs maps d) (hitem : Sound libs item) :
    ∃ d', d.setWanted libs item = .ok d' ∧ Stored libs (setWanted maps item) d' :=
  ⟨_, rfl,
    { h.toHeld.setWanted hitem, h with
      wantedRows := foldl_put_rows (fun _ => rfl) [item] h.wantedRows }⟩

theorem stored_considerWanted (h : Stored libs maps d) (hitem : Sound libs item) :
    ∃ d', d.considerWanted libs item = .ok (d', (maps.considerWanted item).2) ∧
      Stored libs (maps.considerWanted item).1 d' := by
  unfold DiskWorkspace.considerWanted
  rw [stored_getWanted h]
  rcases considerWanted_cases maps item with ⟨heq, hseen⟩ | ⟨heq, hseen⟩
  · refine ⟨d, ?_, ?_⟩
    · simp only [bind, Except.bind, hseen, if_true, heq]
      rfl
    · rw [heq]
      exact h
  · obtain ⟨d', hset, hstored⟩ := stored_setWanted h hitem
    refine ⟨d', ?_, ?_⟩
    · simp only [bind, Except.bind, hseen, Bool.false_eq_true, if_false, heq, hset]
      rfl
    · rw [heq]
      exact hstored

theorem mem_insertIgnore (ids : List String) (id other : String) :
    other ∈ insertIgnore ids id ↔ other ∈ ids ∨ other = id := by
  unfold insertIgnore
  split
  · rename_i hmem
    constructor
    · exact .inl
    · rintro (hother | rfl)
      · exact hother
      · exact hmem
  · simp

theorem mem_foldl_insertIgnore (others ids : List String) (id : String) :
    id ∈ others.foldl insertIgnore ids ↔ id ∈ ids ∨ id ∈ others := by
  induction others generalizing ids with
  | nil => simp
  | cons other rest ih => rw [List.foldl_cons, ih, mem_insertIgnore, List.mem_cons, or_assoc]

theorem stored_defer (h : Stored libs maps d) (id : String) :
    ∃ d', d.defer id = .ok d' ∧ Stored libs (maps.defer id) d' := by
  refine ⟨_, rfl, { h.toHeld.defer id, h with deferredIds := ?_ }⟩
  intro other
  rw [mem_insertIgnore, beginPlan, h.deferredIds other, or_comm]
  exact List.mem_cons.symm

theorem younger_wantedRow {a b : ItemSummary} (h : Younger (wantedRow libs a) (wantedRow libs b)) :
    b.createdAt ≤ a.createdAt := by
  rcases h with h | h
  · exact le_of_lt h
  · exact le_of_eq h.1.symm

instance : Std.Total Younger where
  total a b := by
    unfold Younger
    rcases lt_trichotomy a.2.1 b.2.1 with h | h | h
    · exact .inr (.inl h)
    · rcases le_total a.1 b.1 with hid | hid
      · exact .inl (.inr ⟨h, hid⟩)
      · exact .inr (.inr ⟨h.symm, hid⟩)
    · exact .inl (.inl h)

instance : IsTrans _ Younger where
  trans a b c hab hbc := by
    unfold Younger at hab hbc ⊢
    rcases hab with hab | ⟨hab, hids⟩
    · rcases hbc with hbc | ⟨hbc, -⟩
      · exact .inl (hbc.trans hab)
      · exact .inl (hbc ▸ hab)
    · rcases hbc with hbc | ⟨hbc, hids'⟩
      · exact .inl (hab ▸ hbc)
      · exact .inr ⟨hab.trans hbc, hids.trans hids'⟩

/-- The ids beyond the newest are those of the rest of the list. -/
theorem mem_others {wanted ordered : List ItemSummary} (hnodup : (wanted.map ItemSummary.itemId).Nodup)
    (hperm : ordered.Perm wanted) (limit : ℕ) (id : String) :
    id ∈ (wanted.map ItemSummary.itemId).filter
        (fun id => id ∉ (ordered.take limit).map ItemSummary.itemId) ↔
      id ∈ (ordered.drop limit).map ItemSummary.itemId := by
  have hids := (hperm.map ItemSummary.itemId).nodup_iff.2 hnodup
  have hsplit : ordered.map ItemSummary.itemId =
      (ordered.take limit).map ItemSummary.itemId ++ (ordered.drop limit).map ItemSummary.itemId := by
    rw [← List.map_append, List.take_append_drop]
  rw [hsplit, List.nodup_append] at hids
  rw [List.mem_filter, ← (hperm.map ItemSummary.itemId).mem_iff, hsplit, List.mem_append,
    decide_eq_true_eq]
  constructor
  · rintro ⟨hkept | hrest, hnot⟩
    · exact absurd hkept hnot
    · exact hrest
  · intro hrest
    exact ⟨.inr hrest, fun hkept => hids.2.2 id hkept id hrest rfl⟩

theorem stored_finishPlan (h : Stored libs maps d) (hlimit : limit < 2 ^ 63) :
    ∃ ordered d', Newest maps.wanted ordered ∧
      d.finishPlan libs limit = .ok (d', ordered.take limit, ordered.length - limit) ∧
      Stored libs (deferRest maps (ordered.drop limit)) d' := by
  have hperm := (List.perm_insertionSort Younger d.wanted).trans h.wantedRows
  obtain ⟨ordered, hrows, hordered⟩ : Relation.Comp (· = List.map (wantedRow libs) ·) List.Perm
      (d.wanted.insertionSort Younger) maps.wanted := by
    rw [List.eq_map_comp_perm]
    exact hperm
  have hsorted := List.pairwise_insertionSort Younger d.wanted
  have hlength : d.wanted.length = ordered.length := by
    rw [h.wantedRows.length_eq, List.length_map, hordered.length_eq]
  have hselected : ((ordered.take limit).map (wantedRow libs)).mapM
      (fun row => fromSlice libs row.2.2) = .ok (ordered.take limit) := by
    have hread : ∀ item ∈ ordered.take limit, fromSlice libs (toVec libs item) = .ok item :=
      fun item hitem => fromSlice_toVec libs
        (h.soundWanted item (hordered.mem_iff.1 (List.mem_of_mem_take hitem)))
    rw [List.mapM_map]
    show (ordered.take limit).mapM (fun item => fromSlice libs (toVec libs item)) = _
    rw [mapM_ok _ hread, List.map_id']
  have hids : ((ordered.take limit).map (wantedRow libs)).map Prod.fst =
      (ordered.take limit).map ItemSummary.itemId := by
    rw [List.map_map]
    rfl
  let others := (d.wanted.map Prod.fst).filter
    fun id => id ∉ (ordered.take limit).map ItemSummary.itemId
  refine ⟨ordered, { d with deferred := others.foldl insertIgnore d.deferred, planning := false },
    ⟨hordered, ?_⟩, ?_, { h.toHeld.deferRest (ordered.drop limit), h with deferredIds := ?_ }⟩
  · rw [hrows, List.pairwise_map] at hsorted
    exact hsorted.imp younger_wantedRow
  · unfold DiskWorkspace.finishPlan
    simp only [beginPlan, sqlLimit_cast hlimit, hrows, ← List.map_take, hselected, hlength, hids]
    rfl
  · intro id
    have hkeys : (d.wanted.map Prod.fst).Perm (maps.wanted.map ItemSummary.itemId) := by
      have := h.wantedRows.map Prod.fst
      rwa [List.map_map] at this
    rw [mem_foldl_insertIgnore, h.deferredIds, (hkeys.filter _).mem_iff,
      mem_others h.wanted hordered, or_comm]
    exact List.mem_append.symm

theorem disk_mirrors (libs : Texts) : Mirrors libs (disk libs) (StoredOpen libs) (Stored libs) where
  begin h := h.1
  held h := h.toHeld
  addAdvertised := stored_addAdvertised
  addComparison := stored_addComparison
  addRemote := stored_addRemote
  remotePage h hafter hlimit := stored_remotePage h hafter hlimit
  advertised h := get_rows h.advertised h.soundAdvertised h.advertisedRows
  comparison h := get_rows h.comparison h.soundComparison h.comparisonRows
  wanted := stored_getWanted
  remoteWins := stored_remoteWins
  isDeferred h id := by
    show Except.ok _ = _
    simp only [h.deferredIds]
  setWanted := stored_setWanted
  considerWanted := stored_considerWanted
  defer := stored_defer
  finishPlan h hlimit := stored_finishPlan h hlimit

end Disk

section Memory

theorem memory_mirrors (order : HashOrder) :
    Mirrors libs (memory order) (fun maps w => w = maps ∧ Held libs maps)
      fun maps w => w = maps ∧ Held libs maps where
  begin h := h
  held h := h.2
  addAdvertised := by
    rintro maps w items ⟨rfl, h⟩ hitems
    exact ⟨_, rfl, rfl, h.addAdvertised hitems⟩
  addComparison := by
    rintro maps w items ⟨rfl, h⟩ hitems
    exact ⟨_, rfl, rfl, h.addComparison hitems⟩
  addRemote := by
    rintro maps w items ⟨rfl, h⟩ hitems
    exact ⟨_, rfl, rfl, h.addRemote hitems⟩
  remotePage := by
    rintro maps w after limit ⟨rfl, -⟩ - -
    rfl
  advertised := by
    rintro maps w ⟨rfl, -⟩ id
    rfl
  comparison := by
    rintro maps w ⟨rfl, -⟩ id
    rfl
  wanted := by
    rintro maps w ⟨rfl, -⟩ id
    rfl
  remoteWins := by
    rintro maps w ⟨rfl, -⟩ item
    rfl
  isDeferred := by
    rintro maps w ⟨rfl, -⟩ id
    rfl
  setWanted := by
    rintro maps w item ⟨rfl, h⟩ hitem
    exact ⟨_, rfl, rfl, h.setWanted hitem⟩
  considerWanted := by
    rintro maps w item ⟨rfl, h⟩ hitem
    exact ⟨_, rfl, rfl, h.considerWanted hitem⟩
  defer := by
    rintro maps w ⟨rfl, h⟩ id
    exact ⟨_, rfl, rfl, h.defer id⟩
  finishPlan := by
    rintro maps w limit ⟨rfl, h⟩ -
    exact ⟨_, _, newest_insertionSort (order.planned_perm w.wanted), rfl, rfl, h.deferRest _⟩

end Memory

section Spilling

variable {W : Type} {backend : Backend W} {Feeding Planning : SummaryWorkspace → W → Prop}

/-- Handing rows over in batches comes to handing them over at once. -/
theorem addInBatches_ok {add : W → List ItemSummary → Outcome W}
    {addMaps : SummaryWorkspace → List ItemSummary → SummaryWorkspace}
    (happend : ∀ maps a b, addMaps (addMaps maps a) b = addMaps maps (a ++ b))
    (hadd : ∀ {maps w items}, Feeding maps w → (∀ item ∈ items, Sound libs item) →
      ∃ w', add w items = .ok w' ∧ Feeding (addMaps maps items) w')
    {maps : SummaryWorkspace} {w : W} (batch rows : List ItemSummary) (h : Feeding maps w)
    (hsound : ∀ item ∈ batch ++ rows, Sound libs item) :
    ∃ w', addInBatches add w batch rows = .ok w' ∧ Feeding (addMaps maps (batch ++ rows)) w' := by
  induction rows generalizing maps w batch with
  | nil =>
    rw [List.append_nil] at hsound ⊢
    exact hadd h hsound
  | cons item rest ih =>
    have hcons : batch ++ item :: rest = (batch ++ [item]) ++ rest := by simp
    rw [hcons] at hsound ⊢
    unfold addInBatches
    split
    · obtain ⟨w₁, hok, h₁⟩ := hadd h fun item hitem =>
        hsound item (List.mem_append_left _ hitem)
      obtain ⟨w₂, hrest, h₂⟩ := ih [] h₁ fun item hitem =>
        hsound item (List.mem_append_right _ (by simpa using hitem))
      rw [List.nil_append, happend] at h₂
      refine ⟨w₂, ?_, h₂⟩
      simp only [hok, bind, Except.bind]
      exact hrest
    · exact ih (batch ++ [item]) h hsound

theorem spillInto_ok (hmirrors : Mirrors libs backend Feeding Planning) (order : HashOrder)
    {maps : SummaryWorkspace} (hmaps : Held libs maps) (hwanted : maps.wanted = [])
    (hdeferred : maps.deferred = []) {target : W} (hstart : Feeding {} target) :
    ∃ w, spillInto order backend maps target = .ok w ∧
      Feeding { advertised := order.advertised maps.advertised
                comparison := order.comparison maps.comparison
                remote := maps.remote } w := by
  have hadvertised := order.advertised_perm maps.advertised
  have hcomparison := order.comparison_perm maps.comparison
  obtain ⟨w₁, hok₁, h₁⟩ := addInBatches_ok
    (fun maps a b => by simp [SummaryWorkspace.addAdvertised]) hmirrors.addAdvertised []
    (order.advertised maps.advertised) hstart fun item hitem =>
      hmaps.soundAdvertised item (hadvertised.mem_iff.1 hitem)
  obtain ⟨w₂, hok₂, h₂⟩ := addInBatches_ok
    (fun maps a b => by simp [SummaryWorkspace.addComparison]) hmirrors.addComparison []
    (order.comparison maps.comparison) h₁ fun item hitem =>
      hmaps.soundComparison item (hcomparison.mem_iff.1 hitem)
  obtain ⟨w₃, hok₃, h₃⟩ := addInBatches_ok
    (fun maps a b => by simp [SummaryWorkspace.addRemote]) hmirrors.addRemote [] maps.remote h₂
      hmaps.soundRemote
  have hnone : order.wanted [] = [] := List.perm_nil.1 (order.wanted_perm [])
  have hnoid : order.deferred ([] : List String).dedup = [] :=
    List.perm_nil.1 (order.deferred_perm _)
  have hfirst : (order.advertised maps.advertised).foldl (put ItemSummary.itemId) [] =
      order.advertised maps.advertised :=
    foldl_put _ [] ((hadvertised.map _).nodup_iff.2 hmaps.advertised)
  have hsecond : (order.comparison maps.comparison).foldl (put ItemSummary.itemId) [] =
      order.comparison maps.comparison :=
    foldl_put _ [] ((hcomparison.map _).nodup_iff.2 hmaps.comparison)
  refine ⟨w₃, ?_, ?_⟩
  · unfold spillInto
    simp only [hok₁, hok₂, hok₃, hwanted, hdeferred, hnone, hnoid, bind, Except.bind]
    rfl
  · simpa only [SummaryWorkspace.addAdvertised, SummaryWorkspace.addComparison,
      SummaryWorkspace.addRemote, List.nil_append, hfirst, hsecond] using h₃

variable {spill : Spill} {maps : SummaryWorkspace} {s : SpillingWorkspace}

/-- What is known of the workspace in use. -/
def Inside (InMemory : SummaryWorkspace → Prop) (OnDisk : DiskWorkspace → Prop)
    (s : SpillingWorkspace) : Prop :=
  match s.inner with
  | .memory held => InMemory held
  | .disk d => OnDisk d
  | .failed => False

def Spilled (spill : Spill) (maps : SummaryWorkspace) : SpillingWorkspace → Prop :=
  Inside (fun held => held = maps ∧ Held spill.libs maps) (Stored spill.libs maps)

/-- Nothing is planned yet, so that a move to the database opens no transaction. -/
def SpilledOpen (spill : Spill) (maps : SummaryWorkspace) : SpillingWorkspace → Prop :=
  Inside (fun held => (held = maps ∧ Held spill.libs maps) ∧ maps.wanted = [] ∧ maps.deferred = [])
    (StoredOpen spill.libs maps)

section Inside

variable {InMemory InMemory' : SummaryWorkspace → Prop} {OnDisk OnDisk' : DiskWorkspace → Prop}
  {α : Type}

theorem Inside.change {inMemory : SummaryWorkspace → Outcome SummaryWorkspace}
    {onDisk : DiskWorkspace → Outcome DiskWorkspace}
    (hmemory : ∀ held, InMemory held → ∃ held', inMemory held = .ok held' ∧ InMemory' held')
    (hdisk : ∀ d, OnDisk d → ∃ d', onDisk d = .ok d' ∧ OnDisk' d') (h : Inside InMemory OnDisk s) :
    ∃ s', s.change inMemory onDisk = .ok s' ∧ Inside InMemory' OnDisk' s' := by
  obtain ⟨retained, inner⟩ := s
  cases inner with
  | memory held =>
    obtain ⟨held', hok, hheld⟩ := hmemory held h
    simp only [SpillingWorkspace.change, hok]
    exact ⟨_, rfl, hheld⟩
  | disk d =>
    obtain ⟨d', hok, hstored⟩ := hdisk d h
    simp only [SpillingWorkspace.change, hok]
    exact ⟨_, rfl, hstored⟩
  | failed => exact h.elim

theorem Inside.update {inMemory : SummaryWorkspace → Outcome (SummaryWorkspace × α)}
    {onDisk : DiskWorkspace → Outcome (DiskWorkspace × α)} {answer : α}
    (hmemory : ∀ held, InMemory held → ∃ held', inMemory held = .ok (held', answer) ∧ InMemory' held')
    (hdisk : ∀ d, OnDisk d → ∃ d', onDisk d = .ok (d', answer) ∧ OnDisk' d')
    (h : Inside InMemory OnDisk s) :
    ∃ s', s.update inMemory onDisk = .ok (s', answer) ∧ Inside InMemory' OnDisk' s' := by
  obtain ⟨retained, inner⟩ := s
  cases inner with
  | memory held =>
    obtain ⟨held', hok, hheld⟩ := hmemory held h
    simp only [SpillingWorkspace.update, hok]
    exact ⟨_, rfl, hheld⟩
  | disk d =>
    obtain ⟨d', hok, hstored⟩ := hdisk d h
    simp only [SpillingWorkspace.update, hok]
    exact ⟨_, rfl, hstored⟩
  | failed => exact h.elim

theorem Inside.ask {inMemory : SummaryWorkspace → Outcome α} {onDisk : DiskWorkspace → Outcome α}
    {answer : Outcome α} (hmemory : ∀ held, InMemory held → inMemory held = answer)
    (hdisk : ∀ d, OnDisk d → onDisk d = answer) (h : Inside InMemory OnDisk s) :
    s.ask inMemory onDisk = answer := by
  obtain ⟨retained, inner⟩ := s
  cases inner with
  | memory held => exact hmemory held h
  | disk d => exact hdisk d h
  | failed => exact h.elim

theorem Inside.imp (hmemory : ∀ held, InMemory held → InMemory' held)
    (hdisk : ∀ d, OnDisk d → OnDisk' d) (h : Inside InMemory OnDisk s) :
    Inside InMemory' OnDisk' s := by
  obtain ⟨retained, inner⟩ := s
  cases inner with
  | memory held => exact hmemory held h
  | disk d => exact hdisk d h
  | failed => exact h.elim

end Inside

theorem stored_reordered {d : DiskWorkspace} {advertised comparison : List ItemSummary}
    (hmaps : Held libs maps) (hwanted : maps.wanted = []) (hdeferred : maps.deferred = [])
    (hadvertised : advertised.Perm maps.advertised) (hcomparison : comparison.Perm maps.comparison)
    (h : StoredOpen libs { advertised, comparison, remote := maps.remote } d) :
    StoredOpen libs maps d := by
  obtain ⟨h, hplanning⟩ := h
  refine ⟨{ hmaps with
    advertisedRows := h.advertisedRows.trans (hadvertised.map _)
    comparisonRows := h.comparisonRows.trans (hcomparison.map _)
    remoteRows := h.remoteRows
    wantedRows := ?_
    deferredIds := ?_ }, hplanning⟩
  · rw [hwanted]
    exact h.wantedRows
  · rw [hdeferred]
    exact h.deferredIds

theorem empty_stored (libs : Texts) : StoredOpen libs {} {} := by
  refine ⟨⟨⟨?_, ?_, ?_, ?_, ?_, ?_, ?_⟩, ?_, ?_, ?_, ?_, ?_⟩, rfl⟩ <;> simp [numbered]

/-- Making room for a page keeps pace with the maps, whether or not it moves them. -/
theorem reservePage_ok (hdisk : spill.newDisk = .ok {}) (h : SpilledOpen spill maps s)
    (items : List ItemSummary) :
    ∃ s', s.reservePage spill items = .ok s' ∧ SpilledOpen spill maps s' := by
  unfold SpillingWorkspace.reservePage
  unfold SpilledOpen Inside at h
  cases hinner : s.inner with
  | memory held =>
    simp only [hinner] at h ⊢
    obtain ⟨⟨rfl, hheld⟩, hwanted, hdeferred⟩ := h
    split
    · exact ⟨_, rfl, ⟨rfl, hheld⟩, hwanted, hdeferred⟩
    · obtain ⟨d, hspill, hstored⟩ := spillInto_ok (disk_mirrors spill.libs) spill.order hheld hwanted
        hdeferred (empty_stored spill.libs)
      refine ⟨{ retained := saturatingAdd s.retained (SpillingWorkspace.pageCost spill items)
                inner := .disk d }, ?_, ?_⟩
      · simp only [hdisk, bind, Except.bind, hspill]
        rfl
      · exact stored_reordered hheld hwanted hdeferred (spill.order.advertised_perm _)
          (spill.order.comparison_perm _) hstored
  | disk d =>
    simp only [hinner] at h
    exact ⟨_, rfl, h⟩
  | failed =>
    simp only [hinner] at h

/-- A page is added to whichever workspace is in use once there is room for it. -/
private theorem reserve_change (hdisk : spill.newDisk = .ok {}) {maps' : SummaryWorkspace}
    {inMemory : SummaryWorkspace → Outcome SummaryWorkspace}
    {onDisk : DiskWorkspace → Outcome DiskWorkspace} (items : List ItemSummary)
    (hmemory : Held spill.libs maps → inMemory maps = .ok maps' ∧ Held spill.libs maps')
    (hempty : maps'.wanted = maps.wanted ∧ maps'.deferred = maps.deferred)
    (honDisk : ∀ d, StoredOpen spill.libs maps d →
      ∃ d', onDisk d = .ok d' ∧ StoredOpen spill.libs maps' d')
    (h : SpilledOpen spill maps s) :
    ∃ s', (do SpillingWorkspace.change inMemory onDisk (← s.reservePage spill items)) = .ok s' ∧
      SpilledOpen spill maps' s' := by
  obtain ⟨s₁, hroom, h₁⟩ := reservePage_ok hdisk h items
  have hstep : ∀ held, ((held = maps ∧ Held spill.libs maps) ∧ maps.wanted = [] ∧ maps.deferred = []) →
      ∃ held', inMemory held = .ok held' ∧
        ((held' = maps' ∧ Held spill.libs maps') ∧ maps'.wanted = [] ∧ maps'.deferred = []) := by
    rintro held ⟨⟨rfl, hheld⟩, hwanted, hdeferred⟩
    obtain ⟨hok, hkept⟩ := hmemory hheld
    exact ⟨maps', hok, ⟨rfl, hkept⟩, hempty.1.trans hwanted, hempty.2.trans hdeferred⟩
  obtain ⟨s₂, hchange, h₂⟩ := Inside.change hstep honDisk h₁
  refine ⟨s₂, ?_, h₂⟩
  rw [hroom]
  exact hchange

theorem spilling_mirrors (hdisk : spill.newDisk = .ok {}) :
    Mirrors spill.libs (spilling spill) (SpilledOpen spill) (Spilled spill) where
  begin h := h.imp (fun held hheld => hheld.1) fun d hd => hd.1
  held h := by
    unfold Spilled Inside at h
    split at h
    · exact h.2
    · exact h.toHeld
    · exact h.elim
  addAdvertised h hitems := reserve_change hdisk _ (fun hheld => ⟨rfl, hheld.addAdvertised hitems⟩)
    ⟨rfl, rfl⟩ (fun d hd => stored_addAdvertised hd hitems) h
  addComparison h hitems := reserve_change hdisk _ (fun hheld => ⟨rfl, hheld.addComparison hitems⟩)
    ⟨rfl, rfl⟩ (fun d hd => stored_addComparison hd hitems) h
  addRemote h hitems := reserve_change hdisk _ (fun hheld => ⟨rfl, hheld.addRemote hitems⟩)
    ⟨rfl, rfl⟩ (fun d hd => stored_addRemote hd hitems) h
  remotePage h hafter hlimit := h.ask
    (fun held hheld => (memory_mirrors spill.order).remotePage hheld hafter hlimit)
    fun d hd => stored_remotePage hd hafter hlimit
  advertised h id := h.ask (fun held hheld => (memory_mirrors spill.order).advertised hheld id)
    fun d hd => (disk_mirrors spill.libs).advertised hd id
  comparison h id := h.ask (fun held hheld => (memory_mirrors spill.order).comparison hheld id)
    fun d hd => (disk_mirrors spill.libs).comparison hd id
  wanted h id := h.ask (fun held hheld => (memory_mirrors spill.order).wanted hheld id)
    fun d hd => stored_getWanted hd id
  remoteWins h item := h.ask (fun held hheld => (memory_mirrors spill.order).remoteWins hheld item)
    fun d hd => stored_remoteWins hd item
  isDeferred h id := h.ask (fun held hheld => (memory_mirrors spill.order).isDeferred hheld id)
    fun d hd => (disk_mirrors spill.libs).isDeferred hd id
  setWanted h hitem := h.change
    (fun held hheld => (memory_mirrors spill.order).setWanted hheld hitem)
    fun d hd => stored_setWanted hd hitem
  considerWanted h hitem := h.update
    (fun held hheld => (memory_mirrors spill.order).considerWanted hheld hitem)
    fun d hd => stored_considerWanted hd hitem
  defer h id := h.change (fun held hheld => (memory_mirrors spill.order).defer hheld id)
    fun d hd => stored_defer hd id
  finishPlan := by
    intro maps s limit h hlimit
    unfold Spilled Inside at h
    cases hinner : s.inner with
    | memory held =>
      simp only [hinner] at h
      obtain ⟨ordered, held', hnewest, hok, hkept⟩ :=
        (memory_mirrors spill.order).finishPlan h hlimit
      refine ⟨ordered, { s with inner := .memory held' }, hnewest, ?_, hkept⟩
      simp only [spilling, SpillingWorkspace.update, hinner, hok]
      rfl
    | disk d =>
      simp only [hinner] at h
      obtain ⟨ordered, d', hnewest, hok, hkept⟩ := (disk_mirrors spill.libs).finishPlan h hlimit
      refine ⟨ordered, { s with inner := .disk d' }, hnewest, ?_, hkept⟩
      simp only [spilling, SpillingWorkspace.update, hinner, hok]
      rfl
    | failed => simp only [hinner] at h

end Spilling

end CopyPaste.Peer.Workspaces
