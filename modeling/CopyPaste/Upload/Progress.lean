import CopyPaste.Upload.Stranded
import Mathlib.Data.List.Flatten

/-!
A covered row is offered once it is readable. While the store stays as it is and
rounds complete, each scan either offers the row or makes progress: fewer
readable ids are left to retry; with none left, the sweep moves towards the row
or, having passed it, towards the end of its cycle.
-/

namespace CopyPaste.Upload.Progress

open Lib.Keyset Lib.Rows Record UnreadableUploads Scanning Coverage Machine Floor Stranded

variable {device : String} {rows : List StoredItem} {maxBytes : Nat}

section Tracking

/-- Ids that were not tracked before belong to stored rows that do not open. -/
def TracksUnreadable (rows : List StoredItem) (got got' : Collected) : Prop :=
  ∀ id ∈ got'.found.ids, id ∈ got.found.ids ∨ ∃ row ∈ rows, ¬ row.Readable ∧ row.id = id

private theorem TracksUnreadable.trans {a b c : Collected} (hab : TracksUnreadable rows a b)
    (hbc : TracksUnreadable rows b c) : TracksUnreadable rows a c := by
  intro id hid
  rcases hbc id hid with h | h
  · exact hab id h
  · exact Or.inr h

private theorem tracksUnreadable_track (got : Collected) (row : StoredItem) (hrow : row ∈ rows)
    (hunreadable : ¬ row.Readable) (found : UnreadableUploads)
    (hfound : found.ids = (got.found.track row.id).1.ids) :
    TracksUnreadable rows got { got with found := found } := by
  intro id hid
  simp only [hfound] at hid
  rcases mem_of_mem_track _ _ hid with rfl | hid
  · exact Or.inr ⟨row, hrow, hunreadable, rfl⟩
  · exact Or.inl hid

private theorem not_readable_of_toLocal {row : StoredItem} (h : toLocal device row = none) :
    ¬ row.Readable := by
  intro hreadable
  simp [toLocal_of_readable device row hreadable] at h

private theorem recordWalked_ids (unreadable : UnreadableUploads) (id : String) (sweep : Sweep) :
    (unreadable.recordWalked id sweep).1.ids = (unreadable.track id).1.ids := by
  unfold recordWalked
  split
  · rename_i h
    rw [h]
  · rename_i h
    rw [h]

variable (device maxBytes) in
theorem walkRows_tracks (floor : UploadFloor) (retried : List String) (page : List StoredItem)
    (hpage : ∀ row ∈ page, row ∈ rows) (got : Collected) (sweep : Sweep) :
    TracksUnreadable rows got (walkRows device floor retried maxBytes page got sweep).got := by
  induction page generalizing got sweep with
  | nil => exact fun _ hid => Or.inl hid
  | cons row rest ih =>
    have hrest := ih (fun r hr => hpage r (List.mem_cons_of_mem _ hr))
    unfold walkRows
    split
    · exact fun _ hid => Or.inl hid
    split
    · exact hrest got _
    split
    · split
      · exact fun _ hid => Or.inl hid
      · exact hrest { got with items := _ } _
    · rename_i hnone
      refine TracksUnreadable.trans ?_ (hrest { got with found := _ } _)
      exact tracksUnreadable_track got row (hpage row List.mem_cons_self)
        (not_readable_of_toLocal hnone) _ (recordWalked_ids _ _ _)

theorem readRows_tracks (retried : List String) (page : List StoredItem)
    (hpage : ∀ row ∈ page, row ∈ rows) (got : Collected) (behind : UploadFloor) :
    TracksUnreadable rows got (readRows device retried maxBytes page got behind).got := by
  induction page generalizing got behind with
  | nil => exact fun _ hid => Or.inl hid
  | cons row rest ih =>
    have hrest := ih (fun r hr => hpage r (List.mem_cons_of_mem _ hr))
    unfold readRows
    split
    · exact hrest got _
    split
    · split
      · exact fun _ hid => Or.inl hid
      · exact hrest { got with items := _ } _
    · rename_i hnone
      refine TracksUnreadable.trans ?_ (hrest { got with found := _ } _)
      refine tracksUnreadable_track got row (hpage row List.mem_cons_self)
        (not_readable_of_toLocal hnone) _ ?_
      split
      · rename_i h
        rw [h]
      · rename_i h
        rw [sweepFrom_ids, h]

/-- The sweep is only reached back when it starts past the page. -/
theorem readRows_sweep (retried : List String) (page : List StoredItem) (got : Collected)
    (behind : UploadFloor) (hsegment : Segment keysetOf rows behind page) (sweep : Sweep)
    (hsweep : got.found.sweep = some sweep) (hfrom : sweep.fromPos ≤ behind) :
    (readRows device retried maxBytes page got behind).got.found.sweep = some sweep := by
  induction page generalizing got behind with
  | nil => exact hsweep
  | cons row rest ih =>
    have hafter : sweep.fromPos ≤ keysetOf row := hfrom.trans hsegment.behind_lt_head.le
    unfold readRows
    split
    · exact ih got _ hsegment.tail hsweep hafter
    split
    · split
      · exact hsweep
      · exact ih { got with items := _ } _ hsegment.tail hsweep hafter
    · refine ih { got with found := _ } _ hsegment.tail ?_ hafter
      have htrack := track_sweep got.found row.id
      split
      · rename_i h
        rw [h] at htrack
        exact htrack.trans hsweep
      · rename_i same h
        rw [h] at htrack
        have hsame : same.sweep = some sweep := htrack.trans hsweep
        simp only [sweepFrom, hsame, hfrom, if_true]

end Tracking

section Retrying

private theorem retryRow_ids {got : Collected} {row : StoredItem} {id : String}
    (h : id ∈ (retryRow device maxBytes got row).found.ids) : id ∈ got.found.ids ∨ id = row.id := by
  unfold retryRow at h
  split at h
  · split at h
    · exact Or.inl h
    · exact (mem_of_mem_track _ _ h).symm
  · exact (mem_of_mem_track _ _ h).symm

private theorem foldl_retryRow_ids (todo : List StoredItem) (got : Collected) {id : String}
    (h : id ∈ (todo.foldl (retryRow device maxBytes) got).found.ids) :
    id ∈ got.found.ids ∨ id ∈ todo.map StoredItem.id := by
  induction todo generalizing got with
  | nil => exact Or.inl h
  | cons row rest ih =>
    rcases ih _ h with h | h
    · rcases retryRow_ids h with h | rfl
      · exact Or.inl h
      · exact Or.inr (by simp)
    · exact Or.inr (List.mem_cons_of_mem _ h)

variable (device maxBytes) in
/-- Retried rows that do not open leave the items empty; otherwise the first one
that opens is offered and its id is given up. -/
private theorem foldl_retryRow_frees (todo : List StoredItem)
    (hids : (todo.map StoredItem.id).Nodup)
    (hfit : ∀ row ∈ todo, row.content.length ≤ maxBytes) (got : Collected)
    (hempty : got.items = []) (hfresh : ∀ row ∈ todo, row.id ∉ got.found.ids) :
    (∀ row ∈ todo, ¬ row.Readable) ∧
        (todo.foldl (retryRow device maxBytes) got).items = [] ∨
      ∃ row ∈ todo, row.Readable ∧
        row.id ∉ (todo.foldl (retryRow device maxBytes) got).found.ids := by
  induction todo generalizing got with
  | nil => exact Or.inl ⟨by simp, hempty⟩
  | cons row rest ih =>
    obtain ⟨hrow, hrest⟩ := List.nodup_cons.1 hids
    by_cases hreadable : row.Readable
    · right
      refine ⟨row, List.mem_cons_self, hreadable, fun hmem => ?_⟩
      have hlength := (length_version_content_le device row).trans
        (hfit row List.mem_cons_self)
      have hoffered : retryRow device maxBytes got row =
          { got with items := got.items ++ [row.version device] } := by
        have hroom : contentBytes got.items + (row.version device).content.length ≤ maxBytes := by
          simp only [hempty, contentBytes, List.map_nil, List.sum_nil]
          omega
        simp only [retryRow, toLocal_of_readable device row hreadable, hroom, if_true]
      rw [List.foldl_cons, hoffered] at hmem
      rcases foldl_retryRow_ids rest _ hmem with h | h
      · exact hfresh row List.mem_cons_self h
      · exact hrow h
    · have htracked : retryRow device maxBytes got row =
          { got with found := (got.found.track row.id).1 } := by
        simp only [retryRow, toLocal_of_not_readable device row hreadable]
      have hfresh' : ∀ r ∈ rest, r.id ∉ (retryRow device maxBytes got row).found.ids := by
        intro r hr hmem
        rcases retryRow_ids hmem with h | h
        · exact hfresh r (List.mem_cons_of_mem _ hr) h
        · exact hrow (h ▸ List.mem_map_of_mem hr)
      rcases ih hrest (fun r hr => hfit r (List.mem_cons_of_mem _ hr)) _
        (by rw [htracked]; exact hempty) hfresh' with ⟨hnone, hitems⟩ | ⟨r, hr, hfreed⟩
      · refine Or.inl ⟨fun r hr => ?_, hitems⟩
        rcases List.mem_cons.1 hr with rfl | hr
        · exact hreadable
        · exact hnone r hr
      · exact Or.inr ⟨r, List.mem_cons_of_mem _ hr, hfreed⟩

/-- The chunks of distinct ids look every row up once. -/
private theorem nodup_retried (hids : (rows.map StoredItem.id).Nodup) (batches : List (List String))
    (hbatches : batches.flatten.Nodup) :
    ((batches.flatMap (versions rows)).map StoredItem.id).Nodup := by
  induction batches with
  | nil => simp
  | cons batch rest ih =>
    rw [List.flatten_cons, List.nodup_append] at hbatches
    obtain ⟨-, hrest, hdisjoint⟩ := hbatches
    rw [List.flatMap_cons, List.map_append, List.nodup_append]
    refine ⟨hids.sublist (List.filter_sublist.map _), ih hrest, ?_⟩
    intro a ha b hb
    obtain ⟨row, hrow, rfl⟩ := List.mem_map.1 ha
    obtain ⟨other, hother, rfl⟩ := List.mem_map.1 hb
    obtain ⟨chunk, hchunk, hother⟩ := List.mem_flatMap.1 hother
    simp only [versions, List.mem_filter, decide_eq_true_eq] at hrow hother
    exact hdisjoint _ hrow.2 _ (List.mem_flatten.2 ⟨chunk, hchunk, hother.2⟩)

variable (device) in
/-- The retry either finds no readable row and offers none, or gives up a
readable id. -/
theorem retry_frees (hids : (rows.map StoredItem.id).Nodup)
    (hfit : ∀ row ∈ rows, row.content.length ≤ maxBytes) (ids : List String)
    (hnodup : ids.Nodup) :
    (∀ row ∈ rows, row.id ∈ ids → ¬ row.Readable) ∧
        (retry device rows maxBytes ids).items = [] ∨
      ∃ row ∈ rows, row.id ∈ ids ∧ row.Readable ∧
        row.id ∉ (retry device rows maxBytes ids).found.ids := by
  have hflat := flatten_chunks uploadScanLimit (by decide) ids
  rcases foldl_retryRow_frees device maxBytes
    ((chunks uploadScanLimit ids).flatMap (versions rows))
    (nodup_retried hids _ (by rw [hflat]; exact hnodup))
    (fun row hrow => hfit row ((mem_retried rows ids row).1 hrow).1) ⟨{}, []⟩ rfl (by simp)
    with ⟨hnone, hitems⟩ | ⟨row, hrow, hreadable, hfreed⟩
  · exact Or.inl ⟨fun row hrow hid => hnone row ((mem_retried rows ids row).2 ⟨hrow, hid⟩), hitems⟩
  · obtain ⟨hstored, hid⟩ := (mem_retried rows ids row).1 hrow
    exact Or.inr ⟨row, hstored, hid, hreadable, hfreed⟩

end Retrying

section Measure

/-- Readable rows waiting for a retry by id. -/
def waiting (rows : List StoredItem) (unreadable : UnreadableUploads) : Nat :=
  (rows.filter fun row => decide row.Readable && decide (row.id ∈ unreadable.ids)).length

def ahead (rows : List StoredItem) (unreadable : UnreadableUploads) : Nat :=
  match unreadable.sweep with
  | some sweep => (rows.filter fun row => sweep.next < keysetOf row).length
  | none => 0

/-- Whether the sweep has to wrap before it reaches a key. -/
def wraps (unreadable : UnreadableUploads) (key : UploadFloor) : Nat :=
  match unreadable.sweep with
  | some sweep => if sweep.next < key then 0 else 1
  | none => 0

/-- What is left to do before a covered row is offered: the retries first, then
the wrap, then the rows on the way. -/
def remaining (rows : List StoredItem) (unreadable : UnreadableUploads) (key : UploadFloor) :
    Nat :=
  waiting rows unreadable * (2 * (rows.length + 1)) + wraps unreadable key * (rows.length + 1) +
    ahead rows unreadable

theorem ahead_le (rows : List StoredItem) (unreadable : UnreadableUploads) :
    ahead rows unreadable ≤ rows.length := by
  unfold ahead
  split
  · exact List.length_filter_le _ _
  · exact Nat.zero_le _

theorem wraps_le (unreadable : UnreadableUploads) (key : UploadFloor) :
    wraps unreadable key ≤ 1 := by
  unfold wraps
  split
  · split <;> omega
  · omega

private theorem filter_of_imp {p q : StoredItem → Bool} (hsub : ∀ row ∈ rows, q row → p row) :
    rows.filter q = (rows.filter p).filter q := by
  rw [List.filter_filter]
  refine List.filter_congr fun row hrow => ?_
  cases hq : q row
  · simp
  · simp [hsub row hrow hq]

/-- A filter that drops one of the rows another keeps is shorter. -/
private theorem length_filter_lt {p q : StoredItem → Bool}
    (hsub : ∀ row ∈ rows, q row → p row) (hlost : ∃ row ∈ rows, p row ∧ ¬ q row) :
    (rows.filter q).length < (rows.filter p).length := by
  rw [filter_of_imp hsub, List.length_filter_lt_length_iff_exists]
  obtain ⟨row, hrow, hp, hq⟩ := hlost
  exact ⟨row, List.mem_filter.2 ⟨hrow, hp⟩, hq⟩

/-- Persisting the record changes nothing that is left to do. -/
theorem remaining_decode_encode (rows : List StoredItem) (unreadable : UnreadableUploads)
    (key : UploadFloor) :
    remaining rows (decode unreadable.encode) key = remaining rows unreadable key := by
  have hwaiting : waiting rows (decode unreadable.encode) = waiting rows unreadable := by
    unfold waiting
    simp only [mem_decode_encode_ids]
  have hsweep := decode_encode_sweep unreadable
  simp only [remaining, hwaiting, wraps, ahead, hsweep]

theorem remaining_lt_of_waiting {unreadable unreadable' : UnreadableUploads} {key : UploadFloor}
    (h : waiting rows unreadable' < waiting rows unreadable) :
    remaining rows unreadable' key < remaining rows unreadable key := by
  have hahead := ahead_le rows unreadable'
  have hwraps : wraps unreadable' key * (rows.length + 1) ≤ 1 * (rows.length + 1) :=
    Nat.mul_le_mul_right _ (wraps_le unreadable' key)
  have hwaiting : (waiting rows unreadable' + 1) * (2 * (rows.length + 1)) ≤
      waiting rows unreadable * (2 * (rows.length + 1)) := Nat.mul_le_mul_right _ h
  unfold remaining
  rw [Nat.add_mul] at hwaiting
  omega

theorem remaining_lt_of_sweep {unreadable unreadable' : UnreadableUploads} {key : UploadFloor}
    (hwaiting : waiting rows unreadable' ≤ waiting rows unreadable)
    (h : wraps unreadable' key < wraps unreadable key ∨
      wraps unreadable' key ≤ wraps unreadable key ∧
        ahead rows unreadable' < ahead rows unreadable) :
    remaining rows unreadable' key < remaining rows unreadable key := by
  have hahead := ahead_le rows unreadable'
  have hretries : waiting rows unreadable' * (2 * (rows.length + 1)) ≤
      waiting rows unreadable * (2 * (rows.length + 1)) := Nat.mul_le_mul_right _ hwaiting
  unfold remaining
  rcases h with hwraps | ⟨hwraps, hcloser⟩
  · have hround : (wraps unreadable' key + 1) * (rows.length + 1) ≤
        wraps unreadable key * (rows.length + 1) := Nat.mul_le_mul_right _ hwraps
    rw [Nat.add_mul] at hround
    omega
  · have hround : wraps unreadable' key * (rows.length + 1) ≤
        wraps unreadable key * (rows.length + 1) := Nat.mul_le_mul_right _ hwraps
    omega

end Measure

section Scans

variable (hids : (rows.map StoredItem.id).Nodup) {previous : UnreadableUploads}
  (since : UploadFloor) (epoch : UInt64)

include hids

variable {row : StoredItem}

/-- The readable rows a scan leaves tracked are those its retry put back. -/
theorem scan_tracked_readable (hrow : row ∈ rows) (hreadable : row.Readable)
    (hid : row.id ∈ (scanBounded device rows since epoch previous maxBytes).unreadable.ids) :
    row.id ∈ (retry device rows maxBytes previous.ids).found.ids := by
  have hopens : ∀ {got got' : Collected}, TracksUnreadable rows got got' →
      row.id ∈ got'.found.ids → row.id ∈ got.found.ids := by
    intro got got' htracks hmem
    rcases htracks row.id hmem with h | ⟨other, hother, hunreadable, hsame⟩
    · exact h
    · obtain rfl := List.inj_on_of_nodup_map hids hother hrow hsame
      exact absurd hreadable hunreadable
  unfold scanBounded at hid
  dsimp only at hid
  rw [versionsAfter_eq_page] at hid
  have hpage := (segment_page (nodup_keysetOf hids)
    (if previous.resetFloor then UploadFloor.default else since) uploadScanLimit).stored
  have hrevisited := hopens (readRows_tracks previous.ids _ hpage _ _) hid
  unfold revisit at hrevisited
  dsimp only at hrevisited
  split at hrevisited
  · exact hrevisited
  · rename_i sweep _
    refine hopens (walkRows_tracks device maxBytes
      (if previous.resetFloor then UploadFloor.default else since) previous.ids _
      (segment_page (nodup_keysetOf hids) sweep.next uploadScanLimit).stored _ sweep) ?_
    unfold walkLeftBehind at hrevisited
    rw [versionsAfter_eq_page] at hrevisited
    dsimp only at hrevisited
    split at hrevisited
    · exact hrevisited
    · exact hrevisited
    · split at hrevisited
      · exact hrevisited
      · exact hrevisited

variable (device) in
/-- With no readable id to retry, a sweep that covers a readable row at or below
the scan's position goes on towards it, or wraps back before it. -/
theorem walk_progress (hfit : ∀ row ∈ rows, row.content.length ≤ maxBytes)
    (hreset : previous.resetFloor = false) {sweep : Sweep} (hsweep : previous.sweep = some sweep)
    (hretry : (retry device rows maxBytes previous.ids).items = []) (hrow : row ∈ rows)
    (hreadable : row.Readable) (hid : row.id ∉ previous.ids) (hsince : keysetOf row ≤ since)
    (hwalks : sweep.Walks (keysetOf row))
    (hnot : row.version device ∉ (revisit device rows since previous maxBytes).items) :
    ∃ left, (revisit device rows since previous maxBytes).found.sweep = some left ∧
      left.fromPos = sweep.fromPos ∧
      (left.next < keysetOf row ∧ ¬ sweep.next < keysetOf row ∨
        (sweep.next < keysetOf row → left.next < keysetOf row) ∧
          ∃ r ∈ rows, sweep.next < keysetOf r ∧ keysetOf r ≤ left.next) := by
  unfold revisit at hnot ⊢
  simp only [hreset, Bool.false_eq_true, if_false, hsweep] at hnot ⊢
  obtain ⟨walk, hspec, ⟨-, hadvance, heq⟩ | ⟨hahead, heq⟩⟩ :=
    walkLeftBehind_cases device maxBytes hids sweep since previous.ids
      (retry device rows maxBytes previous.ids)
  · rw [heq] at hnot ⊢
    refine ⟨walk.sweep, rfl, hspec.fromPos, Or.inr ⟨fun hlt => ?_, hadvance hretry hfit⟩⟩
    rcases hspec.passed row hrow hlt hid with h | h | ⟨h, -⟩
    · exact h
    · exact absurd h hnot
    · exact absurd hreadable h
  · rw [heq] at hnot ⊢
    have hpassed : ¬ sweep.next < keysetOf row := by
      intro hlt
      rcases hspec.passed row hrow hlt hid with h | h | ⟨h, -⟩
      · exact absurd (hahead row hrow h) (not_lt.2 hsince)
      · exact hnot h
      · exact h hreadable
    rcases hwalks with h | ⟨hfrom, hseen⟩
    · exact absurd h hpassed
    · have hcycle := hspec.seen hseen
      refine ⟨{ walk.sweep with settled := walk.sweep.seen, seen := 0, next := walk.sweep.fromPos },
        by simp only [Sweep.cycle, hcycle, if_true], hspec.fromPos, Or.inl ⟨?_, hpassed⟩⟩
      exact hspec.fromPos ▸ hfrom

variable (hprevious : previous.WellFormed)

include hprevious

private theorem scan_waiting_imp : ∀ row ∈ rows,
    (decide row.Readable && decide (row.id ∈
      (scanBounded device rows since epoch previous maxBytes).unreadable.ids)) = true →
    (decide row.Readable && decide (row.id ∈ previous.ids)) = true := by
  obtain ⟨-, hsub, -, -⟩ := retry_spec device rows maxBytes
    previous.ids hprevious.bounded
  intro row hrow h
  simp only [Bool.and_eq_true, decide_eq_true_eq] at h ⊢
  exact ⟨h.1, hsub (scan_tracked_readable hids since epoch hrow h.1 h.2)⟩

theorem scan_waiting_le :
    waiting rows (scanBounded device rows since epoch previous maxBytes).unreadable ≤
      waiting rows previous := by
  unfold waiting
  rw [filter_of_imp (scan_waiting_imp hids since epoch hprevious)]
  exact List.length_filter_le _ _

/-- A scan that does not offer a readable row its record covers leaves less to do. -/
theorem scan_progress (hfit : ∀ row ∈ rows, row.content.length ≤ maxBytes)
    (hreset : previous.resetFloor = false) (hrow : row ∈ rows) (hreadable : row.Readable)
    (hsince : keysetOf row ≤ since) (hcovered : Covered previous row)
    (hnot : row.version device ∉ (scanBounded device rows since epoch previous maxBytes).items) :
    remaining rows (scanBounded device rows since epoch previous maxBytes).unreadable
      (keysetOf row) < remaining rows previous (keysetOf row) := by
  rcases retry_frees device hids hfit previous.ids hprevious.nodup with
    ⟨hnone, hretry⟩ | ⟨freed, hfreed, hid, hopens, hgone⟩
  · have hid : row.id ∉ previous.ids := fun h => hnone row hrow h hreadable
    obtain ⟨sweep, hsweep, hwalks⟩ : previous.Sweeps (keysetOf row) := by
      rcases hcovered with h | h
      · exact absurd h hid
      · exact h
    have hread := reading_spec device maxBytes hids hprevious since
    have hitems : row.version device ∉ (revisit device rows since previous maxBytes).items := by
      intro h
      apply hnot
      unfold scanBounded
      simp only [hreset, Bool.false_eq_true, if_false]
      rw [versionsAfter_eq_page]
      exact hread.grows.items h
    obtain ⟨left, hleft, hfrom, hmoved⟩ := walk_progress device hids since
      hfit hreset hsweep hretry hrow hreadable hid hsince hwalks hitems
    -- The walk starts before the row, so the main page does not reach it back.
    have hstart : left.fromPos ≤ since := by
      have hordered := hprevious.ordered sweep hsweep
      rw [hfrom]
      rcases hwalks with h | ⟨h, -⟩
      · exact hordered.trans (h.le.trans hsince)
      · exact h.le.trans hsince
    have hfinal : (scanBounded device rows since epoch previous maxBytes).unreadable.sweep =
        some left := by
      unfold scanBounded
      simp only [hreset, Bool.false_eq_true, if_false]
      rw [versionsAfter_eq_page]
      exact readRows_sweep previous.ids _ _ since
        (segment_page (nodup_keysetOf hids) since uploadScanLimit) left hleft hstart
    have hsome : previous.sweep = some sweep := hsweep
    refine remaining_lt_of_sweep (scan_waiting_le hids since epoch hprevious) ?_
    unfold wraps ahead
    simp only [hfinal, hsome]
    rcases hmoved with ⟨hbefore, hpassed⟩ | ⟨hstill, r, hr, hlt, hle⟩
    · left
      simp [hbefore, hpassed]
    · right
      constructor
      · by_cases h : sweep.next < keysetOf row
        · simp [h, hstill h]
        · simp only [h, if_false]
          split <;> omega
      · refine length_filter_lt (fun r' _ h => ?_) ⟨r, hr, by simpa using hlt, by simpa using hle⟩
        simp only [decide_eq_true_eq] at h ⊢
        exact (hlt.trans_le hle).trans h
  · refine remaining_lt_of_waiting ?_
    unfold waiting
    refine length_filter_lt (scan_waiting_imp hids since epoch hprevious) ⟨freed, hfreed, ?_, ?_⟩
    · simp [hopens, hid]
    · simp only [Bool.and_eq_true, decide_eq_true_eq, not_and]
      intro _ htracked
      exact hgone (scan_tracked_readable hids since epoch hfreed hopens htracked)

end Scans

section Rounds

def roundActs (startedMs : Int) : List Act := [.read, .scan, .push, .commit startedMs]

/-- Complete rounds one after another, begun at the given times. -/
def rounds (started : Nat → Int) : Nat → List Act
  | 0 => []
  | n + 1 => roundActs (started 0) ++ rounds (fun i => started (i + 1)) n

variable {s : State}

/-- A complete round over an unchanged store: its items are completed, its record
is kept, and the floor does not fall. -/
theorem run_round (h : Inv device (Accounted device) s) (hidle : s.phase = .idle)
    (hreset : (decode s.service.record).resetFloor = false) (startedMs : Int) :
    ∃ s', run device s (roundActs startedMs) = some s' ∧ Inv device (Accounted device) s' ∧
      s'.phase = .idle ∧ s'.service.rows = s.service.rows ∧
      s.service.floor ≤ s'.service.floor ∧ ∃ scan, scan = scanBounded device s.service.rows s.service.floor s.service.epoch
          (decode s.service.record) scanBytes ∧
        s'.service.record = scan.unreadable.encode ∧ ∀ item ∈ scan.items, item ∈ s'.completed := by
  set scan := scanBounded device s.service.rows s.service.floor s.service.epoch
    (decode s.service.record) scanBytes with hscan
  set reading : State := { s with phase := .reading s.service.floor } with hreading
  set scanned : State := { s with
    service := { s.service with record := scan.unreadable.encode, offer := some scan.offer }
    phase := .scanned
    inRound := s.inRound ++ scan.items
    notes := 0 } with hscanned
  set pushed : State := { scanned with
    phase := .pushed
    pushed := s.pushed ++ (s.inRound ++ scan.items) } with hpushed
  have hstep₁ : step device s .read = some reading := by
    simp [step, hidle, hreading]
  have hstep₂ : step device reading .scan = some scanned := by
    simp [step, hreading, hscanned, Service.requestScan, hreset, ← hscan]
  have hstep₃ : step device scanned .push = some pushed := by
    simp [step, hscanned, hpushed]
  have hreading : Inv device (Accounted device) reading :=
    round_step .read h (.inl rfl) (by simp) (stepped_of_step hstep₁)
  have hscanned : Inv device (Accounted device) scanned :=
    round_step .scan hreading (.inr (.inl rfl)) (by simp) (stepped_of_step hstep₂)
  have hinv : Inv device (Accounted device) pushed :=
    round_step .push hscanned (.inr (.inr (.inl rfl))) (by simp) (stepped_of_step hstep₃)
  obtain ⟨service, hcommit, hrows, hrecord, hfloor⟩ :
      ∃ service, pushed.service.commitUpload startedMs = some service ∧
        service.rows = s.service.rows ∧ service.record = scan.unreadable.encode ∧
        s.service.floor ≤ service.floor := by
    have hoffer : pushed.service.offer = some scan.offer := rfl
    unfold Service.commitUpload
    rw [hoffer]
    dsimp only
    split
    · refine ⟨_, rfl, rfl, rfl, ?_⟩
      exact le_setFloor_floor pushed.service _ h.floor (le_max_left _ _)
    · exact ⟨_, rfl, rfl, rfl, le_rfl⟩
  have hstep₄ : step device pushed (.commit startedMs) = some { pushed with
      service := service
      phase := .idle
      inRound := []
      completed := pushed.completed ++ pushed.inRound } := by
    have hphase : pushed.phase = .pushed := rfl
    simp only [step, hphase, if_true, hcommit, Option.map_some]
  refine ⟨_, ?_, round_step (.commit startedMs) hinv (.inr (.inr (.inr ⟨_, rfl⟩))) ?_
    (stepped_of_step hstep₄), rfl, hrows, hfloor, scan, rfl,
    hrecord, ?_⟩
  · simp only [roundActs, run, hstep₁, hstep₂, hstep₃, hstep₄, Option.bind_some]
  · exact fun _ _ => Nat.two_pow_pos 64
  · intro item hitem
    exact List.mem_append_right _ (List.mem_append_right _ hitem)

private theorem resetFloor_of_covered {record : RawRecord} {row : StoredItem}
    (h : Covered (decode record) row) : (decode record).resetFloor = false := by
  cases record with
  | missing | parsed => rfl
  | malformed =>
    rcases h with h | ⟨sweep, h, -⟩
    · simp [decode] at h
    · simp [decode] at h

/-- A covered row that opens is offered after finitely many complete rounds,
whenever they begin. -/
theorem eventually_completed (h : Inv device (Accounted device) s) (hidle : s.phase = .idle) {row : StoredItem}
    (hrow : row ∈ s.service.rows) (hreadable : row.Readable)
    (hfloor : keysetOf row ≤ s.service.floor) (hcovered : Covered (decode s.service.record) row)
    (started : Nat → Int) :
    ∃ n s', run device s (rounds started n) = some s' ∧ row.version device ∈ s'.completed := by
  induction hleft : remaining s.service.rows (decode s.service.record) (keysetOf row)
    using Nat.strong_induction_on generalizing s started with
  | _ left ih =>
    have hreset := resetFloor_of_covered hcovered
    obtain ⟨s₁, hrun, hinv, hidle₁, hrows, hraised, scan, hscan, hrecord, hitems⟩ :=
      run_round h hidle hreset (started 0)
    by_cases hoffered : row.version device ∈ scan.items
    · refine ⟨1, s₁, ?_, hitems _ hoffered⟩
      simpa only [rounds, List.append_nil] using hrun
    · have hfit : ∀ r ∈ s.service.rows, r.content.length ≤ scanBytes := by
        intro r hr
        exact (h.contents r hr).trans (by decide)
      rw [hscan] at hoffered
      have hless := scan_progress h.ids s.service.floor s.service.epoch h.record hfit hreset hrow
        hreadable hfloor hcovered hoffered
      have hstill := scan_keeps_covered device scanBytes h.ids h.record
        s.service.floor s.service.epoch hreset hrow hfloor hcovered
      rw [← hscan] at hless hstill hoffered
      have hcovered₁ : Covered (decode s₁.service.record) row := by
        rw [hrecord, covered_decode_encode]
        exact hstill.resolve_left hoffered
      have hless₁ : remaining s₁.service.rows (decode s₁.service.record) (keysetOf row) < left := by
        rw [hrows, hrecord, ← hleft]
        refine lt_of_le_of_lt ?_ hless
        exact (remaining_decode_encode _ _ _).le
      obtain ⟨n, s₂, hrun₂, hdone⟩ := ih _ hless₁ hinv hidle₁ (hrows ▸ hrow)
        (hfloor.trans hraised) hcovered₁ (fun i => started (i + 1)) rfl
      refine ⟨n + 1, s₂, ?_, hdone⟩
      rw [rounds, run_append, hrun, Option.bind_some, hrun₂]

end Rounds

section Results

/-- No stored version at or below the floor is out of reach: one that no
completed round offered is tracked or in the region the sweep still walks. -/
def NotStranded (device : String) (s : State) : Prop :=
  ∀ row ∈ s.service.rows, keysetOf row ≤ s.service.floor → row.version device ∉ s.completed →
    Covered (decode s.service.record) row

/-- In every state that careful steps reach, with no writer between its write and its note,
no version at or below the floor is out of reach; and once such a version opens, complete
rounds offer it. -/
theorem no_stranded_rows (device : String) (s : State)
    (h : Reaches device (fun row => 0 ≤ row.createdAt) (Careful device) s)
    (hpending : s.pending = []) :
    NotStranded device s ∧
    (s.phase = .idle → ∀ row ∈ s.service.rows, keysetOf row ≤ s.service.floor →
      row.version device ∉ s.completed → row.Readable → ∀ started : Nat → Int,
      ∃ n s', run device s (rounds started n) = some s' ∧
        row.version device ∈ s'.completed) := by
  have hinv := inv_reaches h
  have hkept : NotStranded device s := by
    intro row hrow hfloor hnever
    rcases hinv.passed row hrow hfloor with (hr | hr) | ⟨stamp, hstamp, -⟩
    · exact absurd hr hnever
    · exact hr
    · simp [hpending] at hstamp
  refine ⟨hkept, ?_⟩
  intro hphase row hrow hfloor hnever hreadable started
  exact eventually_completed hinv.accounted hphase hrow hreadable hfloor
    (hkept row hrow hfloor hnever) started

instance (device : String) (s : State) : Decidable (NotStranded device s) := by
  unfold NotStranded
  infer_instance

private def sealedNote : StoredItem where
  id := "a"
  createdAt := 50
  deleted := false
  contentType := "text"
  originDeviceId := "device"
  appBundleId := none
  appName := none
  content := [104, 105]
  payloadMetadata := none
  opens := false
  metadataOpens := true

/-- A row that does not open is written, scanned and passed by the floor. -/
private def passOver : List Act :=
  [.write sealedNote 50, .note 50, .read, .scan, .push, .commit 100]

private def passedOver : State :=
  ((run "device" (initial []) passOver).getD (initial []))

/-- The tracked row survives the commit that passes it. -/
theorem no_stranded_rows_passedOver :
    sealedNote ∈ passedOver.service.rows ∧
      Reaches "device" (fun row => 0 ≤ row.createdAt) (Careful "device") passedOver ∧
      NotStranded "device" passedOver := by
  have hreaches : Reaches "device" (fun row => 0 ≤ row.createdAt) (Careful "device") passedOver :=
    Reaches.of_run (.install [] ⟨by simp, by simp⟩ (by simp)) passOver (by decide)
      (by decide)
  exact ⟨by decide, hreaches,
    (no_stranded_rows "device" passedOver hreaches (by decide)).1⟩

/-- The passed row is repaired and offered by the next scan, which drops it from
the record, and that round fails. -/
private def repairThenFail : List Act :=
  passOver ++ [.reseal "a" true true, .read, .scan, .fail]

private def afterFailure : State :=
  (run "device" (initial []) repairThenFail).getD (initial [])

/-- A repaired row is lost when the round that offers it fails: it lies at or
below the floor, no completed round offered it, and the record has forgotten it. -/
theorem repaired_row_lost : ∃ s, Reaches "device" (fun row => 0 ≤ row.createdAt)
    (fun _ _ => True) s ∧ s.pending = [] ∧ s.phase = .idle ∧ ¬ NotStranded "device" s :=
  ⟨afterFailure,
    Reaches.of_run (.install [] ⟨by simp, by simp⟩ (by simp)) repairThenFail (by decide)
      (by decide),
    by decide, by decide, by decide⟩

end Results

end CopyPaste.Upload.Progress
