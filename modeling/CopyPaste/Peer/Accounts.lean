import CopyPaste.Peer.Delivery
import CopyPaste.Peer.Lockstep

/-!
The books of a served stream. Every id that was asked for and advertised is sent, too large
or unavailable, one of the three and once, and the counters of the session say how many of
each; the messages are such as the wire takes, and no more of them than ids.
-/

namespace CopyPaste.Peer.Accounts

open Lib.Rows Merge.Comparator Merge.Payload Plan Transfer Lockstep
open Wire.Codec (Libraries validateMessage)

theorem nodup_eraseDups (ids : List String) : ids.eraseDups.Nodup := by
  induction hn : ids.length using Nat.strong_induction_on generalizing ids with
  | _ n ih =>
    cases ids with
    | nil => simp
    | cons id rest =>
      rw [List.eraseDups_cons, List.nodup_cons, List.mem_eraseDups]
      have hfilter := List.length_filter_le (fun other => !other == id) rest
      rw [List.length_cons] at hn
      exact ⟨by simp, ih _ (by omega) _ rfl⟩

/-- The ids in messages, those given up as too large and those still owed are the ids allowed,
and the counters have moved by as much. -/
structure Balanced (libs : Libraries) (allowed : List String) (stats : SyncStats)
    (serving : Serving) : Prop where
  fits : Fits libs allowed.length serving.sent.length serving
  valid : ∀ batch ∈ serving.sent, batch ≠ [] ∧ validateMessage libs (.items batch) = .ok ()
  perm : ∃ tooLarge : List String,
    ((serving.sent.flatten ++ serving.batch).map SyncItem.itemId ++ tooLarge ++
      serving.unavailable).Perm allowed ∧
    serving.stats.skippedTooLarge = stats.skippedTooLarge + tooLarge.length ∧
    serving.stats.skipped = stats.skipped + tooLarge.length
  sent : serving.stats.sent = stats.sent + serving.sent.flatten.length
  unavailable : serving.stats.skippedUnavailable = stats.skippedUnavailable

variable {libs : Libraries} {allowed chunk : List String} {stats : SyncStats} {serving : Serving}
  {item : SyncItem}

theorem balanced_start (allowed : List String) (stats : SyncStats) :
    Balanced libs allowed stats { unavailable := allowed, stats := stats } :=
  ⟨⟨by simp, by simp, by simp, rfl, by simp⟩, by simp, ⟨[], by simp⟩, by simp, rfl⟩

theorem Balanced.flush (h : Balanced libs allowed stats serving) (hbatch : serving.batch ≠ []) :
    Balanced libs allowed stats serving.flush := by
  have hpositive := List.length_pos_iff.2 hbatch
  have hcount := h.fits.count
  obtain ⟨tooLarge, hperm, hlarge, hskipped⟩ := h.perm
  refine ⟨⟨?_, by simp [Serving.flush], by simp [Serving.flush], rfl, by simp [Serving.flush]⟩,
    ?_, ⟨tooLarge, ?_, hlarge, hskipped⟩, ?_, h.unavailable⟩
  · simp only [Serving.flush, List.length_append, List.length_singleton, List.length_nil]
    omega
  · intro batch hmem
    rcases List.mem_append.1 hmem with hold | hnew
    · exact h.valid batch hold
    · rw [List.mem_singleton.1 hnew]
      exact ⟨hbatch, h.fits.valid⟩
  · simpa [Serving.flush] using hperm
  · simp [Serving.flush, h.sent, Nat.add_assoc]

/-- An owed id without those that are no longer owed. -/
theorem perm_unowed {owed : List String} {id : String} (howed : owed.Nodup) (hmem : id ∈ owed) :
    owed.Perm (id :: owed.filter (· ≠ id)) := by
  have hfilter : owed.filter (· ≠ id) = owed.erase id := by
    rw [howed.erase_eq_filter]
    exact List.filter_congr fun other _ => by simp [bne, beq_eq_decide]
  rw [hfilter]
  exact List.perm_cons_erase hmem

theorem Balanced.nodup_unavailable (hallowed : allowed.Nodup)
    (h : Balanced libs allowed stats serving) : serving.unavailable.Nodup := by
  obtain ⟨tooLarge, hperm, -⟩ := h.perm
  exact (hperm.nodup_iff.2 hallowed).of_append_right

/-- An owed item joins the message that has room for it. -/
theorem Balanced.join (hallowed : allowed.Nodup) (h : Balanced libs allowed stats serving)
    (howed : item.itemId ∈ serving.unavailable) (hvalid : item.validate libs.host = true)
    (hroom : ¬ (serving.batch ≠ [] ∧ (serving.batch.length = maxItemsPerMessage ∨
      maxItemBytesPerMessage < serving.batchBytes + messageBytes item))) :
    Balanced libs allowed stats
      { serving with
        unavailable := serving.unavailable.filter (· ≠ item.itemId)
        batch := serving.batch ++ [item]
        batchBytes := serving.batchBytes + messageBytes item } := by
  have hunowed := perm_unowed (h.nodup_unavailable hallowed) howed
  have hfewer := hunowed.length_eq
  rw [List.length_cons] at hfewer
  have hcount := h.fits.count
  have hkept : Fits libs allowed.length (serving.sent.length + 1)
      { serving with unavailable := serving.unavailable.filter (· ≠ item.itemId) } := by
    refine ⟨?_, h.fits.items, h.fits.few, h.fits.bytes, h.fits.bounded⟩
    simp only
    omega
  have hjoined := hkept.join hvalid hroom
  obtain ⟨tooLarge, hperm, hlarge, hskipped⟩ := h.perm
  refine ⟨{ hjoined with }, h.valid, ⟨tooLarge, ?_, hlarge, hskipped⟩, h.sent,
    h.unavailable⟩
  refine List.Perm.trans ?_ hperm
  rw [← List.append_assoc, List.map_append, List.append_assoc, List.append_assoc, List.append_assoc]
  refine List.Perm.append_left _ ?_
  rw [List.map_cons, List.map_nil, List.singleton_append]
  exact List.perm_middle.symm.trans (List.Perm.append_left _ hunowed.symm)

/-- Serving one item moves its id out of those owed, or leaves the books as they are. -/
theorem Balanced.serveItem (hallowed : allowed.Nodup) (h : Balanced libs allowed stats serving)
    (chunk : List String) (item : SyncItem) :
    Balanced libs allowed stats (serving.serveItem libs.host chunk item) := by
  unfold Serving.serveItem
  split
  · exact h
  rename_i hasked
  push Not at hasked
  have hid : item.cleared.itemId = item.itemId := Delivery.itemId_cleared item
  have howed : item.cleared.itemId ∈ serving.unavailable := hid ▸ hasked.2
  have hunowed := perm_unowed (h.nodup_unavailable hallowed) howed
  dsimp only
  split
  · -- too large: given up, and counted twice
    obtain ⟨tooLarge, hperm, hlarge, hskipped⟩ := h.perm
    have hfewer := hunowed.length_eq
    rw [List.length_cons] at hfewer
    have hcount := h.fits.count
    refine ⟨⟨?_, h.fits.items, h.fits.few, h.fits.bytes, h.fits.bounded⟩, h.valid,
      ⟨item.cleared.itemId :: tooLarge, ?_, ?_, ?_⟩, h.sent, h.unavailable⟩
    · simp only
      omega
    · refine List.Perm.trans ?_ hperm
      rw [List.append_assoc, List.append_assoc]
      refine List.Perm.append_left _ ?_
      rw [List.cons_append]
      exact List.perm_middle.symm.trans (List.Perm.append_left _ hunowed.symm)
    · simp only [List.length_cons]
      omega
    · simp only [List.length_cons]
      omega
  split
  · exact { h with fits := { h.fits with } }
  rename_i hvalid
  rw [Bool.not_eq_true', Bool.not_eq_false] at hvalid
  split
  · rename_i hfull
    exact (h.flush hfull.1).join hallowed howed hvalid (by simp [Serving.flush])
  · rename_i hroom
    exact h.join hallowed howed hvalid hroom

theorem Balanced.serveChunks (hallowed : allowed.Nodup) (fetch : List String → List SyncItem)
    (requests : List (List String)) (h : Balanced libs allowed stats serving) :
    Balanced libs allowed stats (requests.foldl (fun serving chunk =>
      (fetch chunk).foldl (Serving.serveItem libs.host chunk) serving) serving) := by
  have hitems : ∀ (chunk : List String) (items : List SyncItem) {serving : Serving},
      Balanced libs allowed stats serving →
      Balanced libs allowed stats (items.foldl (Serving.serveItem libs.host chunk) serving) := by
    intro chunk items
    induction items with
    | nil => exact fun h => h
    | cons item rest ih => exact fun h => ih (h.serveItem hallowed chunk item)
  induction requests generalizing serving with
  | nil => exact h
  | cons chunk rest ih => exact ih (hitems chunk (fetch chunk) h)

/-- A stream sends each id at most once, only ids that were asked for and advertised, in
messages that the wire takes and no more of them than ids; and what it did not send of them the
counters name as too large or as unavailable. -/
theorem serveItems_accounts (libs : Libraries) (fetch : List String → List SyncItem)
    (advertised : List ItemSummary) (requested : List String) (stats : SyncStats) :
    let (batches, after) := serveItems libs.host fetch advertised requested stats
    let ids := batches.flatten.map SyncItem.itemId
    let allowed := requested.filter fun id => (lookup ItemSummary.itemId advertised id).isSome
    ids.Nodup ∧ (∀ id ∈ ids, id ∈ allowed) ∧ batches.length ≤ requested.length ∧
    (∀ batch ∈ batches, batch ≠ [] ∧ validateMessage libs (.items batch) = .ok ()) ∧
    ∃ tooLarge unavailable : ℕ,
      ids.length + tooLarge + unavailable = allowed.eraseDups.length ∧
      after.sent = stats.sent + ids.length ∧
      after.skippedTooLarge = stats.skippedTooLarge + tooLarge ∧
      after.skippedUnavailable = stats.skippedUnavailable + unavailable ∧
      after.skipped = stats.skipped + tooLarge + unavailable := by
  dsimp only
  obtain ⟨allowed, hallowed⟩ : ∃ allowed, (requested.filter fun id =>
    (lookup ItemSummary.itemId advertised id).isSome).eraseDups = allowed := ⟨_, rfl⟩
  have hnodup : allowed.Nodup := hallowed ▸ nodup_eraseDups _
  have hfew : allowed.length ≤ requested.length := by
    rw [← hallowed]
    exact (length_eraseDups_le _).trans (List.length_filter_le _ _)
  unfold serveItems
  dsimp only
  rw [hallowed]
  have hserved := (@balanced_start libs allowed stats).serveChunks hnodup fetch
    (chunks maxItemsPerMessage allowed)
  obtain ⟨serving, hserving⟩ : ∃ serving, (chunks maxItemsPerMessage allowed).foldl
      (fun serving chunk => (fetch chunk).foldl (Serving.serveItem libs.host chunk) serving)
      ({ unavailable := allowed, stats := stats } : Serving) = serving := ⟨_, rfl⟩
  rw [hserving] at hserved ⊢
  obtain ⟨last, hlast, hempty, hbalanced⟩ : ∃ last,
      (if serving.batch = [] then serving else serving.flush) = last ∧ last.batch = [] ∧
        Balanced libs allowed stats last := by
    by_cases hempty : serving.batch = []
    · exact ⟨serving, if_pos hempty, hempty, hserved⟩
    · exact ⟨serving.flush, if_neg hempty, rfl, hserved.flush hempty⟩
  rw [hlast]
  obtain ⟨tooLarge, hperm, hlarge, hskipped⟩ := hbalanced.perm
  rw [hempty, List.append_nil] at hperm
  have hids := hperm.nodup_iff.2 hnodup
  refine ⟨hids.of_append_left.of_append_left, fun id hid => ?_, ?_, hbalanced.valid,
    tooLarge.length, last.unavailable.length, ?_, ?_, hlarge, ?_, ?_⟩
  · rw [← List.mem_eraseDups, hallowed]
    exact hperm.subset (List.mem_append_left _ (List.mem_append_left _ hid))
  · have hcount := hbalanced.fits.count
    omega
  · rw [← hperm.length_eq, List.length_append, List.length_append]
  · rw [hbalanced.sent, List.length_map]
  · rw [hbalanced.unavailable]
  · rw [hskipped]

end CopyPaste.Peer.Accounts
