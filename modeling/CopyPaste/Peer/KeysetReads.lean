import CopyPaste.Lib.Drain
import CopyPaste.Peer.StoreSource
import Mathlib

/-!
The keyset reads of the history. Each table is bounded on its own index, the two are merged
and bounded again, and a read of whole rows looks those up by id and sorts them once more.
What comes back is a slice of both tables together.
-/

namespace CopyPaste.Peer.KeysetReads

open Lib.Keyset Lib.Sorted Lib.Drain Merge.Storage Merge.Prepare Merge.Effects StoreSource
  Transfer Session

abbrev Stamped := Int × Version

/-- `WHERE stamp > ?1 OR (stamp = ?1 AND (?2 IS NULL OR id > ?2))`. -/
def past (sinceMs : Int) (afterId : Option String) (stamped : Stamped) : Bool :=
  decide (sinceMs < stamped.1 ∨ stamped.1 = sinceMs ∧ ∀ after ∈ afterId, after < stamped.2.id)

/-- `ORDER BY stamp, id` in one direction. -/
def orderBy (newest : Bool) (rows : List Stamped) : List Stamped :=
  if newest then rows.insertionSort fun a b => readerOf b ≤ readerOf a
  else rows.insertionSort fun a b => readerOf a ≤ readerOf b

def bounded (newest : Bool) (limit : Nat) (rows : List Stamped) : List Stamped :=
  (orderBy newest rows).take limit

def localStamp (changes : Bool) (version : Version) : Int :=
  if changes then max version.createdAt version.pinUpdatedAt else version.createdAt

section Query

variable (store : Store) (changes newest : Bool) (sinceMs : Int) (afterId : Option String)
  (limit : Nat)

def localVersions : List Version :=
  (bounded newest limit ((store.items.map fun row =>
    (localStamp changes row.toVersion, row.toVersion)).filter (past sinceMs afterId))).map Prod.snd

def organizationVersions : List Version :=
  (bounded newest limit ((store.records.map fun row =>
    (row.createdAt, row.toVersion)).filter (past sinceMs afterId))).map Prod.snd

def versionCandidates : List Stamped :=
  ((localVersions store changes newest sinceMs afterId limit).map fun version =>
      (localStamp changes version, version)) ++
    (organizationVersions store newest sinceMs afterId limit).map fun version =>
      (version.createdAt, version)

def boundedVersions : List Stamped :=
  bounded newest limit (versionCandidates store changes newest sinceMs afterId limit)

end Query

/-- Everything, newest first. -/
def summaries (store : Store) (limit : Nat) : List Version :=
  (orderBy true (boundedVersions store false true (-2 ^ 63) none limit)).map Prod.snd

/-- Everything that changed past a position, oldest change first. -/
def summariesSince (store : Store) (sinceMs : Int) (afterId : Option String) (limit : Nat) :
    List Version :=
  (orderBy false (boundedVersions store true false sinceMs afterId limit)).map Prod.snd

def itemKey (row : ItemRow) : Reader := ⟨row.createdAt, some row.id⟩

/-- The rows of the bounded versions, in the order the view answers them. -/
def foundRows (store : Store) (sinceMs : Int) (afterId : Option String) (limit : Nat) :
    List ItemRow :=
  (syncRecords store).filter fun row => row.id ∈
    (boundedVersions store false false sinceMs afterId limit).map fun stamped => stamped.2.id

def sortRows (rows : List ItemRow) : List ItemRow :=
  rows.insertionSort fun a b => itemKey a ≤ itemKey b

/-- The whole rows past a position, oldest first. -/
def versionsAfter (store : Store) (sinceMs : Int) (afterId : Option String) (limit : Nat) :
    List ItemRow :=
  sortRows (foundRows store sinceMs afterId limit)

section Slices

variable {store : Store}

/-- Both tables under the stamp they are paged by: a record has no pin stamp. -/
def stampedBy (changes : Bool) (store : Store) : List Stamped :=
  (store.items.map fun row => (localStamp changes row.toVersion, row.toVersion)) ++
    store.records.map fun row => (row.createdAt, row.toVersion)

theorem past_iff (sinceMs : Int) (afterId : Option String) (stamped : Stamped) :
    past sinceMs afterId stamped = decide ((⟨sinceMs, afterId⟩ : Reader) < readerOf stamped) := by
  refine decide_eq_decide.2 ?_
  rw [readerOf, Position.lt_row_iff]
  exact or_congr_right (and_congr_left fun _ => eq_comm)

variable {rows : List Stamped}

theorem readers_nodup (hids : (rows.map fun s => s.2.id).Nodup) : (rows.map readerOf).Nodup := by
  refine List.Nodup.of_map (fun reader : Reader => reader.itemId.getD "") ?_
  rw [List.map_map]
  exact hids

private theorem dual_nodup (hkeys : (rows.map readerOf).Nodup) :
    (rows.map fun s => OrderDual.toDual (readerOf s)).Nodup :=
  List.pairwise_map.2 (List.pairwise_map.1 hkeys)

/-- Bounding two tables apart and then together is bounding them together. -/
theorem bounded_append (newest : Bool) (limit : Nat) {other : List Stamped}
    (hkeys : ((rows ++ other).map readerOf).Nodup) :
    bounded newest limit (bounded newest limit rows ++ bounded newest limit other) =
      bounded newest limit (rows ++ other) := by
  cases newest with
  | false => exact firsts_append_firsts hkeys limit
  | true => exact firsts_append_firsts (dual_nodup hkeys) limit

theorem orderBy_bounded (newest : Bool) (limit : Nat) (hkeys : (rows.map readerOf).Nodup) :
    orderBy newest (bounded newest limit rows) = bounded newest limit rows := by
  cases newest with
  | false => exact insertionSort_firsts hkeys limit
  | true => exact insertionSort_firsts (dual_nodup hkeys) limit

theorem mem_bounded {newest : Bool} {limit : Nat} {stamped : Stamped}
    (h : stamped ∈ bounded newest limit rows) : stamped ∈ rows := by
  cases newest with
  | false => exact mem_of_mem_firsts h
  | true =>
    exact (List.perm_insertionSort _ rows).subset ((List.take_sublist _ _).subset h)

/-- A stamp that is computed from the version comes back when it is computed again. -/
private theorem restamp (rows : List Stamped) (stamp : Version → Int) (p : Stamped → Bool)
    (newest : Bool) (limit : Nat) (hstamp : ∀ s ∈ rows, s.1 = stamp s.2) :
    ((bounded newest limit (rows.filter p)).map Prod.snd).map (fun v => (stamp v, v)) =
      bounded newest limit (rows.filter p) := by
  rw [List.map_map]
  refine (List.map_congr_left fun s hs => ?_).trans (List.map_id _)
  have hin := (List.mem_filter.1 (mem_bounded hs)).1
  exact Prod.ext (hstamp s hin).symm rfl

/-- The two streams, bounded apart, merged and bounded again, are a slice of both tables. -/
theorem boundedVersions_eq (hids : (store.allVersions.map Version.id).Nodup)
    (changes newest : Bool) (sinceMs : Int) (afterId : Option String) (limit : Nat) :
    boundedVersions store changes newest sinceMs afterId limit =
      bounded newest limit ((stampedBy changes store).filter (past sinceMs afterId)) := by
  have hkeys : ((stampedBy changes store).map readerOf).Nodup := by
    refine readers_nodup ?_
    have hmap : ((stampedBy changes store).map fun s => s.2.id) =
        store.allVersions.map Version.id := by
      simp [stampedBy, Store.allVersions, Function.comp_def]
    rwa [hmap]
  have hitems := restamp (store.items.map fun row =>
    (localStamp changes row.toVersion, row.toVersion)) (localStamp changes)
    (past sinceMs afterId) newest limit (by simp)
  have hrecords := restamp (store.records.map fun row => (row.createdAt, row.toVersion))
    Version.createdAt (past sinceMs afterId) newest limit (by simp [RecordRow.toVersion])
  unfold boundedVersions versionCandidates localVersions organizationVersions
  rw [hitems, hrecords, stampedBy, List.filter_append]
  refine bounded_append newest limit ?_
  rw [← List.filter_append]
  exact hkeys.sublist (List.filter_sublist.map readerOf)

private theorem bounded_past (rows : List Stamped) (sinceMs : Int) (afterId : Option String)
    (limit : Nat) : bounded false limit (rows.filter (past sinceMs afterId)) =
      page readerOf rows ⟨sinceMs, afterId⟩ limit := by
  rw [show past sinceMs afterId = fun s => decide ((⟨sinceMs, afterId⟩ : Reader) < readerOf s)
    from funext (past_iff sinceMs afterId)]
  rfl

theorem readers_stampedBy (hids : (store.allVersions.map Version.id).Nodup) (changes : Bool) :
    ((stampedBy changes store).map readerOf).Nodup := by
  refine readers_nodup ?_
  have hmap : ((stampedBy changes store).map fun s => s.2.id) =
      store.allVersions.map Version.id := by
    simp [stampedBy, Store.allVersions, Function.comp_def]
  rwa [hmap]

/-- The stamp a version is ordered by among the changes: a record has no pin stamp. -/
def changeStamp (store : Store) (version : Version) : Int :=
  if version.id ∈ store.records.map RecordRow.id then version.createdAt
  else max version.createdAt version.pinUpdatedAt

def changeKey (store : Store) (version : Version) : Reader :=
  ⟨changeStamp store version, some version.id⟩

theorem disjoint_ids (hids : (store.allVersions.map Version.id).Nodup) {row : ItemRow}
    (hrow : row ∈ store.items) : row.id ∉ store.records.map RecordRow.id := by
  intro hrecord
  obtain ⟨record, hin, hsame⟩ := List.mem_map.1 hrecord
  rw [Store.allVersions, List.map_append, List.map_map, List.map_map] at hids
  exact (List.nodup_append.1 hids).2.2 row.id (List.mem_map_of_mem hrow) record.id
    (List.mem_map_of_mem hin) hsame.symm

theorem stampedBy_stamp (hids : (store.allVersions.map Version.id).Nodup) {stamped : Stamped}
    (h : stamped ∈ stampedBy true store) : changeStamp store stamped.2 = stamped.1 := by
  rcases List.mem_append.1 h with h | h
  · obtain ⟨row, hrow, rfl⟩ := List.mem_map.1 h
    exact if_neg (disjoint_ids hids hrow)
  · obtain ⟨row, hrow, rfl⟩ := List.mem_map.1 h
    exact if_pos (List.mem_map_of_mem hrow)

theorem summariesSince_eq (hids : (store.allVersions.map Version.id).Nodup) (sinceMs : Int)
    (afterId : Option String) (limit : Nat) :
    summariesSince store sinceMs afterId limit =
      page (changeKey store) store.allVersions ⟨sinceMs, afterId⟩ limit := by
  have hkeys := readers_stampedBy hids true
  unfold summariesSince
  rw [boundedVersions_eq hids, orderBy_bounded false limit
    (hkeys.sublist (List.filter_sublist.map readerOf)), bounded_past]
  rw [show store.allVersions = (stampedBy true store).map Prod.snd from
    (stampedVersions_snd store).symm, page_map]
  refine congrArg _ (page_congr (fun stamped h => ?_) _ _)
  rw [changeKey, stampedBy_stamp hids h, readerOf]

/-- What a session pages through is this read: one sort of both tables answers what the
bounded streams do. -/
theorem summaryPage_eq_summariesSince (device : Device) (h : WellFormed store) (sinceMs : Int)
    (afterId : Option String) (limit : Nat) :
    (storeSource device).summaryPage store sinceMs afterId limit =
      (summariesSince store sinceMs afterId limit).map (storedSummary device.host) := by
  have hids := nodup_allVersions h
  show ((bounded false limit ((stampedBy true store).filter (past sinceMs afterId))).map
    Prod.snd).map (storedSummary device.host) = _
  unfold summariesSince
  rw [boundedVersions_eq hids, orderBy_bounded false limit
    ((readers_stampedBy hids true).sublist (List.filter_sublist.map readerOf))]

private theorem syncRecords_stamped (store : Store) :
    (syncRecords store).map (fun row => (row.createdAt, row.toVersion)) =
      stampedBy false store := by
  simp only [syncRecords, stampedBy, localStamp, List.map_append, List.map_map,
    Bool.false_eq_true, if_false]
  rfl

theorem syncRecords_ids (store : Store) :
    (syncRecords store).map ItemRow.id = store.allVersions.map Version.id := by
  simp [syncRecords, Store.allVersions, Function.comp_def, recordItem, ItemRow.toVersion,
    RecordRow.toVersion]

theorem itemKeys_nodup (hids : (store.allVersions.map Version.id).Nodup) :
    ((syncRecords store).map itemKey).Nodup := by
  refine List.Nodup.of_map (fun reader : Reader => reader.itemId.getD "") ?_
  rw [List.map_map]
  exact (syncRecords_ids store).symm ▸ hids

/-- The rows looked up are those of the slice, in whatever order they come. -/
theorem foundRows_perm (hids : (store.allVersions.map Version.id).Nodup) (sinceMs : Int)
    (afterId : Option String) (limit : Nat) :
    (foundRows store sinceMs afterId limit).Perm
      (page itemKey (syncRecords store) ⟨sinceMs, afterId⟩ limit) := by
  have hkeys := itemKeys_nodup hids
  have hbounded : (boundedVersions store false false sinceMs afterId limit).map
      (fun stamped => stamped.2.id) =
        (page itemKey (syncRecords store) ⟨sinceMs, afterId⟩ limit).map ItemRow.id := by
    rw [boundedVersions_eq hids, bounded_past, ← syncRecords_stamped, page_map, List.map_map]
    rfl
  have hslice := page_nodup hkeys ⟨sinceMs, afterId⟩ limit
  unfold foundRows
  rw [hbounded]
  refine (List.perm_ext_iff_of_nodup (hkeys.of_map.filter _) hslice).2 fun row => ?_
  rw [List.mem_filter, decide_eq_true_eq]
  constructor
  · rintro ⟨hrow, hid⟩
    obtain ⟨other, hother, hsame⟩ := List.mem_map.1 hid
    have hrows : ((syncRecords store).map ItemRow.id).Nodup := (syncRecords_ids store).symm ▸ hids
    rwa [← List.inj_on_of_nodup_map hrows (mem_of_mem_page hother) hrow hsame]
  · exact fun hrow => ⟨mem_of_mem_page hrow, List.mem_map_of_mem hrow⟩

theorem sortRows_found (hids : (store.allVersions.map Version.id).Nodup) {sinceMs : Int}
    {afterId : Option String} {limit : Nat} {found : List ItemRow}
    (hfound : found.Perm (foundRows store sinceMs afterId limit)) :
    sortRows found = page itemKey (syncRecords store) ⟨sinceMs, afterId⟩ limit :=
  insertionSort_eq ((foundRows_perm hids sinceMs afterId limit).symm.trans hfound.symm)
    (page_sorted (itemKeys_nodup hids) _ _)

def createdKey (version : Version) : Reader := ⟨version.createdAt, some version.id⟩

theorem summaries_eq (hids : (store.allVersions.map Version.id).Nodup)
    (hwords : ∀ version ∈ store.allVersions, -2 ^ 63 ≤ version.createdAt) (limit : Nat) :
    summaries store limit =
      (store.allVersions.insertionSort fun a b => createdKey b ≤ createdKey a).take limit := by
  have hkeys := readers_stampedBy hids false
  have hstamped : stampedBy false store =
      store.allVersions.map fun version => (version.createdAt, version) := by
    simp only [stampedBy, Store.allVersions, localStamp, List.map_append, List.map_map,
      Bool.false_eq_true, if_false]
    rfl
  have hall : (stampedBy false store).filter (past (-2 ^ 63) none) = stampedBy false store := by
    refine List.filter_eq_self.2 fun stamped h => ?_
    rw [hstamped] at h
    obtain ⟨version, hversion, rfl⟩ := List.mem_map.1 h
    have hword := hwords version hversion
    rw [past, decide_eq_true_eq]
    simp only [Option.mem_def, reduceCtorEq, false_implies, implies_true, and_true]
    omega
  unfold summaries
  rw [boundedVersions_eq hids, hall, orderBy_bounded true limit hkeys, hstamped]
  show (List.take limit (List.insertionSort _ _)).map Prod.snd = _
  rw [← List.map_insertionSort (fun a b => createdKey b ≤ createdKey a)
    (fun a b : Stamped => readerOf b ≤ readerOf a) _ _ fun _ _ _ _ => Iff.rfl, List.map_take,
    List.map_map]
  exact congrArg (List.take limit) (List.map_id _)

theorem changeKeys_nodup (hids : (store.allVersions.map Version.id).Nodup) :
    (store.allVersions.map (changeKey store)).Nodup := by
  refine List.Nodup.of_map (fun reader : Reader => reader.itemId.getD "") ?_
  rw [List.map_map]
  exact hids

end Slices

private theorem drained {α : Type*} {key : α → Reader} {rows : List α}
    (hkeys : (rows.map key).Nodup) {limit : Nat} (hlimit : 1 ≤ limit) (since : Reader)
    {read : Reader → List α} (hread : ∀ since, read since = page key rows since limit) :
    ∃ visited, (∀ pages, rows.length < pages → drain key read limit pages since = some visited) ∧
      visited.Nodup ∧ ∀ row, row ∈ visited ↔ row ∈ rows ∧ since < key row := by
  obtain rfl : read = fun since => page key rows since limit := funext hread
  refine ⟨ahead key rows since, fun pages hpages => drain_page hkeys hlimit pages since ?_, ?_,
    fun row => ?_⟩
  · refine Nat.lt_of_le_of_lt ?_ hpages
    rw [(ahead_perm rows since).length_eq]
    exact List.length_filter_le _ _
  · exact (ahead_perm rows since).nodup_iff.2 (hkeys.of_map.filter _)
  · rw [(ahead_perm rows since).mem_iff, List.mem_filter, decide_eq_true_eq]

/-- Every page is a slice of both tables together, in the order of the stamp and the id, and
reading on from the last key until a page is short visits every version past the position
once. A position without an id takes in the rows of its stamp. -/
theorem keyset_pages {store : Store} (hitems : (store.items.map ItemRow.id).Nodup)
    (hrecords : (store.records.map RecordRow.id).Nodup)
    (hdisjoint : ∀ id ∈ store.items.map ItemRow.id, id ∉ store.records.map RecordRow.id)
    (hwords : ∀ version ∈ store.allVersions, -2 ^ 63 ≤ version.createdAt)
    (sinceMs : Int) (afterId : Option String) {limit : Nat} (hlimit : 1 ≤ limit) :
    (∀ found, found.Perm (foundRows store sinceMs afterId limit) →
      sortRows found = page itemKey (syncRecords store) ⟨sinceMs, afterId⟩ limit) ∧
    summariesSince store sinceMs afterId limit =
      page (changeKey store) store.allVersions ⟨sinceMs, afterId⟩ limit ∧
    summaries store limit =
      (store.allVersions.insertionSort fun a b => createdKey b ≤ createdKey a).take limit ∧
    (∃ visited, (∀ pages, (syncRecords store).length < pages →
        drain itemKey (fun since => versionsAfter store since.createdAt since.itemId limit) limit
          pages ⟨sinceMs, afterId⟩ = some visited) ∧
      visited.Nodup ∧
      ∀ row, row ∈ visited ↔ row ∈ syncRecords store ∧ ⟨sinceMs, afterId⟩ < itemKey row) ∧
    ∃ visited, (∀ pages, store.allVersions.length < pages →
        drain (changeKey store)
          (fun since => summariesSince store since.createdAt since.itemId limit) limit
          pages ⟨sinceMs, afterId⟩ = some visited) ∧
      visited.Nodup ∧
      ∀ version, version ∈ visited ↔
        version ∈ store.allVersions ∧ ⟨sinceMs, afterId⟩ < changeKey store version := by
  have hids : (store.allVersions.map Version.id).Nodup := by
    rw [Store.allVersions, List.map_append, List.map_map, List.map_map]
    exact List.nodup_append.2 ⟨hitems, hrecords, fun id hitem other hrecord heq =>
      hdisjoint id hitem (heq ▸ hrecord)⟩
  refine ⟨fun found hfound => sortRows_found hids hfound, summariesSince_eq hids _ _ _,
    summaries_eq hids hwords limit, drained (itemKeys_nodup hids) hlimit _ fun since => ?_,
    drained (changeKeys_nodup hids) hlimit _ fun since => ?_⟩
  · exact sortRows_found hids (List.Perm.refl _)
  · exact summariesSince_eq hids _ _ _

/-- Two clips and a record of one instant, of which one clip was pinned later. -/
def tiedHistory : Store where
  items := [
    { recordItem ⟨"b", none, "", 5, ""⟩ with contentType := "text/plain", pinUpdatedAt := 9 },
    { recordItem ⟨"c", none, "", 5, ""⟩ with contentType := "text/plain" }]
  records := [⟨"a", none, "", 5, ""⟩]

theorem keyset_pages_tied : summariesSince tiedHistory 5 none 2 =
      page (changeKey tiedHistory) tiedHistory.allVersions ⟨5, none⟩ 2 :=
  (keyset_pages (by decide) (by decide) (by decide) (by decide) 5 none (by decide)).2.1

example : (summariesSince tiedHistory 5 none 2).map Version.id = ["a", "c"] := by decide

end CopyPaste.Peer.KeysetReads
