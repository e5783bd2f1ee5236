import CopyPaste.Merge.Repin
import CopyPaste.Organization.Records

/-!
A gesture on the pins, in two parts: the rows it names are restamped with the pins they are
given, each at its own place, and then the record of each of them is written.
-/

namespace CopyPaste.Organization.Restamp

open Lib.Rows Merge.Comparator Merge.Storage Merge.Effects Merge.Repin Files.Bodies
  History.Paging Records

inductive Gesture
  | pin (id : String) (pinned : Bool)
  | reorder (ids : List String)
  deriving DecidableEq, Repr

section Definitions

variable (sys : Organizer) (clock : Clock) (store : Store)

def Gesture.run : Gesture → Except QueryError Store
  | .pin id pinned => (setPinned sys clock store id pinned).map Prod.fst
  | .reorder ids => (reorderPinned sys clock store ids).map Prod.fst

/-- The rows whose records a gesture writes. -/
def Gesture.targets : Gesture → List ItemRow
  | .pin id _ => (liveRow store id).toList
  | .reorder ids => placed (currentPins store) ids

def inOrder : Nat → List ItemRow → List ItemRow
  | _, [] => []
  | index, row :: rest =>
    { row with
      pinOrder := some (asDouble (index + 1))
      pinUpdatedAt := nextPinStamp clock row } :: inOrder (index + 1) rest

/-- The rows with the pins a gesture asks for. A pinned row is not pinned again. -/
def Gesture.given : Gesture → List ItemRow
  | .pin id pinned =>
    match liveRow store id with
    | none => []
    | some row =>
      if pinned && row.pinned then []
      else
        [{ row with
            pinned := pinned
            pinOrder := if pinned then some (lastOrder store) else none
            pinUpdatedAt := nextPinStamp clock row }]
  | .reorder ids => inOrder clock 0 (placed (currentPins store) ids)

/-- A row after the gesture. -/
def Gesture.restamp (g : Gesture) (row : ItemRow) : ItemRow :=
  (lookup ItemRow.id (g.given clock store) row.id).getD row

end Definitions

section Places

variable {current : List ItemRow} {row : ItemRow}

private theorem foldl_named (ids : List String) {ordered : List ItemRow}
    (hmem : ∀ row ∈ ordered, row ∈ current) (hnodup : (ordered.map ItemRow.id).Nodup) :
    (∀ row ∈ ids.foldl (fun ordered id =>
      match lookup ItemRow.id current id with
      | none => ordered
      | some row =>
        if ordered.any fun placed => placed.id = row.id then ordered else ordered ++ [row])
        ordered, row ∈ current) ∧
    ((ids.foldl (fun ordered id =>
      match lookup ItemRow.id current id with
      | none => ordered
      | some row =>
        if ordered.any fun placed => placed.id = row.id then ordered else ordered ++ [row])
        ordered).map ItemRow.id).Nodup := by
  induction ids generalizing ordered with
  | nil => exact ⟨hmem, hnodup⟩
  | cons id rest ih =>
    rw [List.foldl_cons]
    cases hlookup : lookup ItemRow.id current id with
    | none => exact ih hmem hnodup
    | some row =>
      dsimp only
      split
      · exact ih hmem hnodup
      · rename_i hnew
        refine ih ?_ ?_
        · intro other hother
          rcases List.mem_append.1 hother with hold | hrow
          · exact hmem other hold
          · rw [List.mem_singleton.1 hrow]
            exact (lookup_eq_some hlookup).1
        · rw [List.map_append, List.nodup_append]
          refine ⟨hnodup, by simp, ?_⟩
          intro a ha b hb heq
          obtain ⟨other, hother, rfl⟩ := List.mem_map.1 ha
          obtain rfl : b = row.id := by simpa using hb
          exact hnew (List.any_eq_true.2 ⟨other, hother, by simpa using heq⟩)

theorem mem_named {ids : List String} (h : row ∈ named current ids) : row ∈ current :=
  (foldl_named ids (by simp) (by simp)).1 row h

theorem nodup_named (current : List ItemRow) (ids : List String) :
    ((named current ids).map ItemRow.id).Nodup :=
  (foldl_named ids (by simp) (by simp)).2

theorem mem_placed {ids : List String} (h : row ∈ placed current ids) : row ∈ current := by
  rcases List.mem_append.1 h with hnamed | hother
  · exact mem_named hnamed
  · exact (List.mem_filter.1 hother).1

theorem nodup_placed (hnodup : (current.map ItemRow.id).Nodup) (ids : List String) :
    ((placed current ids).map ItemRow.id).Nodup := by
  unfold placed
  rw [List.map_append, List.nodup_append]
  refine ⟨nodup_named current ids, hnodup.sublist (List.filter_sublist.map _), ?_⟩
  intro a ha b hb heq
  obtain ⟨row, hrow, rfl⟩ := List.mem_map.1 ha
  obtain ⟨other, hother, rfl⟩ := List.mem_map.1 hb
  have hfree := (List.mem_filter.1 hother).2
  rw [Bool.not_eq_true', List.any_eq_false] at hfree
  exact hfree row hrow (by simpa using heq)

theorem mem_currentPins {store : Store} :
    row ∈ currentPins store ↔ row ∈ store.items ∧ livePinned row = true := by
  unfold currentPins orderBy
  rw [List.mem_insertionSort, List.mem_filter]

theorem nodup_currentPins {store : Store} (h : (store.items.map ItemRow.id).Nodup) :
    ((currentPins store).map ItemRow.id).Nodup := by
  have hfiltered : ((store.items.filter livePinned).map ItemRow.id).Nodup :=
    h.sublist (List.filter_sublist.map _)
  exact (((List.perm_insertionSort _ (store.items.filter livePinned)).map _).nodup_iff).2 hfiltered

end Places

section Restamped

variable {clock : Clock} {store : Store}

@[simp]
theorem map_id_inOrder (index : Nat) (rows : List ItemRow) :
    (inOrder clock index rows).map ItemRow.id = rows.map ItemRow.id := by
  induction rows generalizing index with
  | nil => rfl
  | cons row rest ih => rw [inOrder, List.map_cons, List.map_cons, ih]

theorem mem_inOrder {index : Nat} {rows : List ItemRow} {given : ItemRow}
    (h : given ∈ inOrder clock index rows) :
    ∃ row ∈ rows, given.id = row.id ∧ unpinned given = unpinned row ∧
      given.pinUpdatedAt = nextPinStamp clock row := by
  induction rows generalizing index with
  | nil => cases h
  | cons row rest ih =>
    rcases List.mem_cons.1 h with rfl | hrest
    · exact ⟨row, List.mem_cons_self, rfl, rfl, rfl⟩
    · obtain ⟨other, hother, hsame⟩ := ih hrest
      exact ⟨other, List.mem_cons_of_mem _ hother, hsame⟩

theorem Gesture.nodup_targets (h : (store.items.map ItemRow.id).Nodup) (g : Gesture) :
    ((g.targets store).map ItemRow.id).Nodup := by
  cases g with
  | pin id pinned =>
    simp only [Gesture.targets]
    cases liveRow store id <;> simp
  | reorder ids => exact nodup_placed (nodup_currentPins h) ids

variable {g : Gesture} {row : ItemRow}

theorem Gesture.mem_targets (h : row ∈ g.targets store) :
    row ∈ store.items ∧ row.deleted = false := by
  cases g with
  | pin id pinned =>
    simp only [Gesture.targets, Option.mem_toList] at h
    obtain ⟨hlookup, hlive⟩ := Option.filter_eq_some_iff.1 h
    exact ⟨(lookup_eq_some hlookup).1, by simpa using hlive⟩
  | reorder ids =>
    obtain ⟨hmem, hpinned⟩ := mem_currentPins.1 (mem_placed h)
    unfold livePinned at hpinned
    rw [Bool.and_eq_true, Bool.not_eq_true'] at hpinned
    exact ⟨hmem, hpinned.1⟩

/-- What is given is a target with another pin and a later stamp. -/
theorem Gesture.mem_given {given : ItemRow} (h : given ∈ g.given clock store) :
    ∃ row ∈ g.targets store, given.id = row.id ∧ unpinned given = unpinned row ∧
      given.pinUpdatedAt = nextPinStamp clock row := by
  cases g with
  | pin id pinned =>
    simp only [Gesture.given] at h
    cases hlive : liveRow store id with
    | none => simp [hlive] at h
    | some row =>
      simp only [hlive] at h
      split at h
      · cases h
      · rw [List.mem_singleton] at h
        subst h
        exact ⟨row, by simp [Gesture.targets, hlive], rfl, rfl, rfl⟩
  | reorder ids => exact mem_inOrder h

theorem Gesture.restamp_of_not_target (h : ∀ target ∈ g.targets store, target.id ≠ row.id) :
    g.restamp clock store row = row := by
  unfold Gesture.restamp
  have hnone : lookup ItemRow.id (g.given clock store) row.id = none := by
    rw [lookup_eq_none_iff]
    intro given hgiven
    obtain ⟨target, htarget, hid, -⟩ := Gesture.mem_given hgiven
    rw [hid]
    exact h target htarget
  rw [hnone]
  rfl

theorem Gesture.unpinned_restamp (g : Gesture) {row : ItemRow}
    (hnodup : (store.items.map ItemRow.id).Nodup) (hrow : row ∈ store.items) :
    unpinned (g.restamp clock store row) = unpinned row := by
  unfold Gesture.restamp
  cases hlookup : lookup ItemRow.id (g.given clock store) row.id with
  | none => rfl
  | some given =>
    obtain ⟨hmem, hid⟩ := lookup_eq_some hlookup
    obtain ⟨target, htarget, hown, hsame, -⟩ := Gesture.mem_given hmem
    obtain rfl : target = row := List.inj_on_of_nodup_map hnodup (Gesture.mem_targets htarget).1
      hrow (hown.symm.trans hid)
    exact hsame

theorem Gesture.restamp_id (g : Gesture) {row : ItemRow}
    (hnodup : (store.items.map ItemRow.id).Nodup) (hrow : row ∈ store.items) :
    (g.restamp clock store row).id = row.id := by
  have h := congrArg ItemRow.id (@Gesture.unpinned_restamp clock store g row hnodup hrow)
  exact h

theorem Gesture.map_id_restamp (g : Gesture) (hnodup : (store.items.map ItemRow.id).Nodup) :
    (store.items.map (g.restamp clock store)).map ItemRow.id = store.items.map ItemRow.id := by
  rw [List.map_map]
  exact List.map_congr_left fun row hrow => g.restamp_id hnodup hrow

theorem Gesture.nodup_given (g : Gesture) (hnodup : (store.items.map ItemRow.id).Nodup) :
    ((g.given clock store).map ItemRow.id).Nodup := by
  cases g with
  | pin id pinned =>
    simp only [Gesture.given]
    cases liveRow store id with
    | none => simp
    | some row =>
      dsimp only
      split <;> simp
  | reorder ids =>
    simp only [Gesture.given, map_id_inOrder]
    exact nodup_placed (nodup_currentPins hnodup) ids

/-- What is given to a target is the target restamped. -/
theorem Gesture.exists_restamp (hnodup : (store.items.map ItemRow.id).Nodup) {given : ItemRow}
    (h : given ∈ g.given clock store) :
    ∃ target ∈ g.targets store, g.restamp clock store target = given := by
  obtain ⟨target, htarget, hid, -⟩ := Gesture.mem_given h
  refine ⟨target, htarget, ?_⟩
  unfold Gesture.restamp
  rw [← hid, lookup_of_mem (g.nodup_given hnodup) h]
  rfl

theorem Gesture.restamp_cases (g : Gesture) (clock : Clock) (store : Store) (row : ItemRow) :
    g.restamp clock store row = row ∨ g.restamp clock store row ∈ g.given clock store := by
  unfold Gesture.restamp
  cases hlookup : lookup ItemRow.id (g.given clock store) row.id with
  | none => exact Or.inl rfl
  | some given => exact Or.inr (lookup_eq_some hlookup).1

/-- A row that is no target is found as it was. -/
theorem Gesture.lookup_restamp (g : Gesture) (hnodup : (store.items.map ItemRow.id).Nodup)
    {id : String} (hfree : ∀ target ∈ g.targets store, target.id ≠ id) :
    lookup ItemRow.id (store.items.map (g.restamp clock store)) id =
      lookup ItemRow.id store.items id := by
  have hafter : ((store.items.map (g.restamp clock store)).map ItemRow.id).Nodup := by
    rw [g.map_id_restamp hnodup]
    exact hnodup
  cases hlookup : lookup ItemRow.id store.items id with
  | none =>
    rw [lookup_eq_none_iff] at hlookup ⊢
    intro row hrow
    obtain ⟨old, hold, rfl⟩ := List.mem_map.1 hrow
    rw [g.restamp_id hnodup hold]
    exact hlookup old hold
  | some row =>
    obtain ⟨hrow, rfl⟩ := lookup_eq_some hlookup
    have hkept : g.restamp clock store row = row := Gesture.restamp_of_not_target hfree
    have hmem : row ∈ store.items.map (g.restamp clock store) :=
      List.mem_map.2 ⟨row, hrow, hkept⟩
    exact lookup_of_mem hafter hmem

private theorem repin_eq (hnodup : (store.items.map ItemRow.id).Nodup) (hrow : row ∈ store.items)
    (condition : ItemRow → Bool) (f : ItemRow → ItemRow) :
    repin store row.id condition f =
      mapItems store fun other =>
        if other.id = row.id then (if condition row then f row else row) else other := by
  unfold repin mapItems
  congr 1
  refine List.map_congr_left fun other hother => ?_
  by_cases hid : other.id = row.id
  · obtain rfl := List.inj_on_of_nodup_map hnodup hother hrow hid
    simp
  · simp [hid]

theorem withPin_eq (hnodup : (store.items.map ItemRow.id).Nodup) {id : String}
    (hlive : liveRow store id = some row) (pinned : Bool) :
    withPin clock store row pinned =
      mapItems store ((Gesture.pin id pinned).restamp clock store) := by
  obtain ⟨hlookup, hfree⟩ := Option.filter_eq_some_iff.1 hlive
  have hrow := (lookup_eq_some hlookup).1
  have hgiven : (Gesture.pin id pinned).given clock store =
      if pinned && row.pinned then []
      else
        [{ row with
            pinned := pinned
            pinOrder := if pinned then some (lastOrder store) else none
            pinUpdatedAt := nextPinStamp clock row }] := by
    simp only [Gesture.given, hlive]
  unfold withPin
  rw [repin_eq hnodup hrow, repin_eq hnodup hrow]
  unfold mapItems Gesture.restamp
  rw [hgiven]
  have hsame : ∀ other ∈ store.items, other.id = row.id → other = row := fun other hother hid =>
    List.inj_on_of_nodup_map hnodup hother hrow hid
  cases pinned with
  | true =>
    rw [if_pos rfl]
    congr 1
    refine List.map_congr_left fun other hother => ?_
    by_cases hid : other.id = row.id
    · obtain rfl := hsame other hother hid
      cases hpinned : other.pinned <;> simp [lookup, hfree]
    · have hne : ¬ row.id = other.id := fun h => hid h.symm
      cases hpinned : row.pinned <;> simp [lookup, hid, hne]
  | false =>
    rw [if_neg (by simp)]
    congr 1
    refine List.map_congr_left fun other hother => ?_
    by_cases hid : other.id = row.id
    · obtain rfl := hsame other hother hid
      simp [lookup, hfree]
    · have hne : ¬ row.id = other.id := fun h => hid h.symm
      simp [lookup, hid, hne]

/-- The rows of a list, each once, are numbered where they stand. -/
theorem renumber_eq {rows : List ItemRow} {index : Nat}
    (hnodup : (store.items.map ItemRow.id).Nodup) (hrows : (rows.map ItemRow.id).Nodup)
    (hmem : ∀ row ∈ rows, row ∈ store.items ∧ livePinned row = true) :
    renumber clock store index rows =
      mapItems store fun row => (lookup ItemRow.id (inOrder clock index rows) row.id).getD row := by
  induction rows generalizing store index with
  | nil =>
    unfold renumber mapItems inOrder
    simp [lookup]
  | cons row rest ih =>
    obtain ⟨hrow, hpinned⟩ := hmem row List.mem_cons_self
    rw [List.map_cons, List.nodup_cons] at hrows
    rw [renumber, repin_eq hnodup hrow, if_pos hpinned]
    have hothers : ∀ other ∈ rest, other.id ≠ row.id := fun other hother heq =>
      hrows.1 (heq ▸ List.mem_map_of_mem hother)
    rw [ih ?_ hrows.2 ?_]
    · unfold mapItems
      simp only [List.map_map]
      congr 1
      refine List.map_congr_left fun other hother => ?_
      by_cases hid : other.id = row.id
      · obtain rfl := List.inj_on_of_nodup_map hnodup hother hrow hid
        have hnone : lookup ItemRow.id (inOrder clock (index + 1) rest) other.id = none := by
          rw [lookup_eq_none_iff]
          intro given hgiven
          obtain ⟨later, hlater, hown, -⟩ := mem_inOrder hgiven
          exact hown ▸ hothers later hlater
        simp only [Function.comp_apply, if_true, hnone, Option.getD_none]
        simp [inOrder, lookup]
      · have hne : ¬ row.id = other.id := fun h => hid h.symm
        simp [inOrder, lookup, hid, hne]
    · refine nodup_map _ (fun other => ?_) _ hnodup
      split
      · rename_i hid
        exact hid.symm
      · rfl
    · intro other hother
      obtain ⟨hheld, hlive⟩ := hmem other (List.mem_cons_of_mem _ hother)
      refine ⟨List.mem_map.2 ⟨other, hheld, ?_⟩, hlive⟩
      rw [if_neg (hothers other hother)]

/-- A gesture restamps rows and then writes the records of its targets. -/
theorem Gesture.run_eq (sys : Organizer) (hnodup : (store.items.map ItemRow.id).Nodup)
    (g : Gesture) :
    g.run sys clock store =
      writePins sys clock (mapItems store (g.restamp clock store)) (g.targets store) := by
  cases g with
  | pin id pinned =>
    simp only [Gesture.run, Gesture.targets, setPinned]
    cases hlive : liveRow store id with
    | none =>
      have hgiven : (Gesture.pin id pinned).given clock store = [] := by
        simp only [Gesture.given, hlive]
      have hkept : (Gesture.pin id pinned).restamp clock store = fun row => row := by
        funext row
        unfold Gesture.restamp
        rw [hgiven]
        rfl
      rw [hkept]
      simp [mapItems, writePins, Except.map, pure, Except.pure]
    | some row =>
      have hid : row.id = id := (lookup_eq_some (Option.filter_eq_some_iff.1 hlive).1).2
      dsimp only [Option.toList_some]
      rw [writePins, withPin_eq hnodup hlive, hid]
      cases writePin sys clock (mapItems store ((Gesture.pin id pinned).restamp clock store)) id <;>
        rfl
  | reorder ids =>
    simp only [Gesture.run, Gesture.targets, reorderPinned, reordered]
    rw [renumber_eq hnodup (nodup_placed (nodup_currentPins hnodup) ids)
      fun row hrow => mem_currentPins.1 (mem_placed hrow)]
    show Except.map Prod.fst (writePins sys clock
      (mapItems store ((Gesture.reorder ids).restamp clock store)) _ >>= _) = _
    cases writePins sys clock (mapItems store ((Gesture.reorder ids).restamp clock store))
      (placed (currentPins store) ids) <;> rfl

end Restamped

end CopyPaste.Organization.Restamp
