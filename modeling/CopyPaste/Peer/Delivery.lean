import CopyPaste.Peer.Transfer

/-!
What is asked for arrives. A requested item that was advertised, opens and keeps the
wire's bounds is put into one of the messages sent, and an item of a message that is as
promised and bears its hash counts as applied.
-/

namespace CopyPaste.Peer.Delivery

open Lib.Rows Merge.Comparator Merge.Payload Plan Transfer

variable (host : Host)

/-- The source answers for an id with an item that the wire takes. -/
structure Serves (fetch : List String → List SyncItem) (item : SyncItem) : Prop where
  fetched : ∀ ids, item.itemId ∈ ids → lookup SyncItem.itemId (fetch ids) item.itemId = some item
  size : item.cleared.contentBytes ≤ maxContentBytes
  valid : item.cleared.validate host = true

/-- The item is in a message, sent or being filled. -/
def Put (serving : Serving) (item : SyncItem) : Prop :=
  item ∈ serving.sent.flatten ++ serving.batch

theorem itemId_cleared (item : SyncItem) : item.cleared.itemId = item.itemId := by
  unfold SyncItem.cleared
  split <;> rfl

theorem summary_cleared (item : SyncItem) : item.cleared.summary = item.summary := by
  unfold SyncItem.cleared
  split <;> rfl

variable {serving : Serving} {item : SyncItem} {chunk requested : List String}
  {fetch : List String → List SyncItem}

theorem Put.flush (h : Put serving item) : Put serving.flush item := by
  simpa [Put, Serving.flush] using h

variable {host}

theorem serveItem_other (chunk : List String) (serving : Serving) (other : SyncItem) :
    (∀ item, Put serving item → Put (serving.serveItem host chunk other) item) ∧
    ∀ id ∈ serving.unavailable, (other.itemId = id → id ∉ chunk) →
      id ∈ (serving.serveItem host chunk other).unavailable := by
  unfold Serving.serveItem
  split
  · exact ⟨fun item h => h, fun id h _ => h⟩
  rename_i howed
  push Not at howed
  have hkeeps : ∀ id ∈ serving.unavailable, (other.itemId = id → id ∉ chunk) →
      id ∈ serving.unavailable.filter (· ≠ other.cleared.itemId) := by
    intro id hid hother
    rw [List.mem_filter, decide_eq_true_eq, itemId_cleared]
    refine ⟨hid, fun heq => ?_⟩
    exact hother heq.symm (heq ▸ howed.1)
  dsimp only
  split
  · exact ⟨fun item h => h, hkeeps⟩
  split
  · exact ⟨fun item h => h, fun id h _ => h⟩
  refine ⟨fun item h => ?_, fun id hid hother => ?_⟩
  · have hput : Put (if serving.batch ≠ [] ∧ (serving.batch.length = maxItemsPerMessage ∨
        maxItemBytesPerMessage < serving.batchBytes + (other.cleared.contentBytes +
          (other.cleared.payloadMetadata.map String.utf8ByteSize).getD 0))
        then serving.flush else serving) item := by
      split
      · exact h.flush
      · exact h
    unfold Put at hput ⊢
    rw [← List.append_assoc]
    split at hput
    · rename_i hfull
      rw [if_pos hfull]
      exact List.mem_append_left _ hput
    · rename_i hroom
      rw [if_neg hroom]
      exact List.mem_append_left _ hput
  · split <;> exact hkeeps id hid hother

theorem serveItem_self (hchunk : item.itemId ∈ chunk) (howed : item.itemId ∈ serving.unavailable)
    (hsize : item.cleared.contentBytes ≤ maxContentBytes)
    (hvalid : item.cleared.validate host = true) :
    Put (serving.serveItem host chunk item) item.cleared := by
  unfold Serving.serveItem
  rw [if_neg (by simp [hchunk, howed])]
  dsimp only
  rw [if_neg (not_lt.2 hsize), hvalid, Bool.not_true, if_neg Bool.false_ne_true]
  unfold Put
  simp

theorem serveItem_others (chunk : List String) (items : List SyncItem) (serving : Serving) :
    (∀ item, Put serving item → Put (items.foldl (Serving.serveItem host chunk) serving) item) ∧
    ∀ id ∈ serving.unavailable, (∀ other ∈ items, other.itemId = id → id ∉ chunk) →
      id ∈ (items.foldl (Serving.serveItem host chunk) serving).unavailable := by
  induction items generalizing serving with
  | nil => exact ⟨fun item h => h, fun id h _ => h⟩
  | cons first rest ih =>
    obtain ⟨hput, howed⟩ := @serveItem_other host chunk serving first
    obtain ⟨hputs, howeds⟩ := ih (serving.serveItem host chunk first)
    rw [List.foldl_cons]
    refine ⟨fun item h => hputs item (hput item h), fun id hid hother => ?_⟩
    refine howeds id (howed id hid (hother first List.mem_cons_self)) fun other hmem => ?_
    exact hother other (List.mem_cons_of_mem _ hmem)

theorem serveItem_found {items : List SyncItem}
    (hfound : lookup SyncItem.itemId items item.itemId = some item) (hchunk : item.itemId ∈ chunk)
    (howed : item.itemId ∈ serving.unavailable)
    (hsize : item.cleared.contentBytes ≤ maxContentBytes)
    (hvalid : item.cleared.validate host = true) :
    Put (items.foldl (Serving.serveItem host chunk) serving) item.cleared := by
  induction items generalizing serving with
  | nil => simp [lookup] at hfound
  | cons first rest ih =>
    rw [List.foldl_cons]
    by_cases hfirst : first.itemId = item.itemId
    · have heq : first = item := by
        simpa [lookup, hfirst] using hfound
      rw [heq]
      exact (serveItem_others chunk rest _).1 _ (serveItem_self hchunk howed hsize hvalid)
    · have hrest : lookup SyncItem.itemId rest item.itemId = some item := by
        simpa [lookup, hfirst] using hfound
      exact ih hrest ((serveItem_other chunk serving first).2 _ howed fun h => absurd h hfirst)

theorem serveChunks_put (hserves : Serves host fetch item) (requests : List (List String))
    (h : Put serving item.cleared ∨
      item.itemId ∈ serving.unavailable ∧ item.itemId ∈ requests.flatten) :
    Put (requests.foldl (fun serving chunk =>
      (fetch chunk).foldl (Serving.serveItem host chunk) serving) serving) item.cleared := by
  induction requests generalizing serving with
  | nil =>
    rcases h with hput | ⟨-, hmem⟩
    · exact hput
    · exact absurd hmem List.not_mem_nil
  | cons chunk rest ih =>
    rw [List.foldl_cons]
    apply ih
    rcases h with hput | ⟨howed, hmem⟩
    · exact Or.inl ((serveItem_others chunk (fetch chunk) serving).1 _ hput)
    · by_cases hchunk : item.itemId ∈ chunk
      · exact Or.inl (serveItem_found (hserves.fetched chunk hchunk) hchunk howed hserves.size
          hserves.valid)
      · refine Or.inr ⟨?_, ?_⟩
        · exact (serveItem_others chunk (fetch chunk) serving).2 _ howed fun _ _ _ => hchunk
        · rw [List.flatten_cons, List.mem_append] at hmem
          exact hmem.resolve_left hchunk

/-- A requested item that was advertised is in one of the messages. -/
theorem mem_serveItems (hserves : Serves host fetch item) {advertised : List ItemSummary}
    (hrequested : item.itemId ∈ requested)
    (hadvertised : (lookup ItemSummary.itemId advertised item.itemId).isSome) (stats : SyncStats) :
    item.cleared ∈ (serveItems host fetch advertised requested stats).1.flatten := by
  obtain ⟨allowed, hallowed⟩ : ∃ allowed, allowed = (requested.filter fun id =>
    (lookup ItemSummary.itemId advertised id).isSome).eraseDups := ⟨_, rfl⟩
  have hmem : item.itemId ∈ allowed := by
    rw [hallowed, List.mem_eraseDups, List.mem_filter]
    exact ⟨hrequested, hadvertised⟩
  obtain ⟨start, hstart⟩ : ∃ start : Serving, start = { unavailable := allowed, stats := stats } :=
    ⟨_, rfl⟩
  have howed : item.itemId ∈ start.unavailable ∧
      item.itemId ∈ (chunks maxItemsPerMessage allowed).flatten := by
    rw [hstart, flatten_chunks _ (by decide)]
    exact ⟨hmem, hmem⟩
  have hput := serveChunks_put hserves (chunks maxItemsPerMessage allowed) (Or.inr howed)
  unfold serveItems
  rw [← hallowed]
  dsimp only
  rw [← hstart]
  unfold Put at hput
  split
  · rename_i hempty
    rwa [hempty, List.append_nil] at hput
  · simpa [Serving.flush] using hput

/-- Nothing is sent when the source has nothing to answer. -/
theorem serveItems_none (hnone : ∀ ids, (∀ id ∈ ids, id ∈ requested) → fetch ids = [])
    (advertised : List ItemSummary) (stats : SyncStats) :
    (serveItems host fetch advertised requested stats).1 = [] := by
  obtain ⟨allowed, hallowed⟩ : ∃ allowed, allowed = (requested.filter fun id =>
    (lookup ItemSummary.itemId advertised id).isSome).eraseDups := ⟨_, rfl⟩
  have hsub : ∀ id ∈ allowed, id ∈ requested := by
    intro id hid
    rw [hallowed, List.mem_eraseDups, List.mem_filter] at hid
    exact hid.1
  have hfold : ∀ (requests : List (List String)) (serving : Serving),
      (∀ id ∈ requests.flatten, id ∈ requested) →
      requests.foldl (fun serving chunk =>
        (fetch chunk).foldl (Serving.serveItem host chunk) serving) serving = serving := by
    intro requests
    induction requests with
    | nil => exact fun serving _ => rfl
    | cons chunk rest ih =>
      intro serving hall
      rw [List.foldl_cons, hnone chunk fun id hid => hall id (by simp [hid]), List.foldl_nil]
      exact ih serving fun id hid => hall id (by
        rw [List.flatten_cons]
        exact List.mem_append_right _ hid)
  unfold serveItems
  rw [← hallowed]
  dsimp only
  rw [hfold _ _ (by rwa [flatten_chunks _ (by decide)]), if_pos rfl]

/-- What serving an item leaves put: what was, and that item as it travels. -/
theorem put_serveItem {other : SyncItem} (h : Put (serving.serveItem host chunk other) item) :
    Put serving item ∨ item = other.cleared := by
  unfold Serving.serveItem at h
  split at h
  · exact Or.inl h
  dsimp only at h
  split at h
  · exact Or.inl h
  split at h
  · exact Or.inl h
  unfold Put at h ⊢
  split at h
  · simpa [Serving.flush, or_assoc] using h
  · simpa [or_assoc] using h

/-- Every item sent is one the source answered with, as it travels. -/
theorem serveItems_cleared {advertised : List ItemSummary} {stats : SyncStats}
    (h : item ∈ (serveItems host fetch advertised requested stats).1.flatten) :
    ∃ ids, ∃ source ∈ fetch ids, item = source.cleared := by
  obtain ⟨allowed, hallowed⟩ : ∃ allowed, allowed = (requested.filter fun id =>
    (lookup ItemSummary.itemId advertised id).isSome).eraseDups := ⟨_, rfl⟩
  have hitems : ∀ (chunk : List String) (items : List SyncItem) (serving : Serving),
      Put (items.foldl (Serving.serveItem host chunk) serving) item →
      Put serving item ∨ ∃ source ∈ items, item = source.cleared := by
    intro chunk items
    induction items with
    | nil => exact fun serving hput => Or.inl hput
    | cons first rest ih =>
      intro serving hput
      rw [List.foldl_cons] at hput
      rcases ih _ hput with hbefore | ⟨source, hsource, heq⟩
      · refine (put_serveItem hbefore).imp_right fun heq => ?_
        exact ⟨first, List.mem_cons_self, heq⟩
      · exact Or.inr ⟨source, List.mem_cons_of_mem _ hsource, heq⟩
  have hchunks : ∀ (requests : List (List String)) (serving : Serving),
      Put (requests.foldl (fun serving chunk =>
        (fetch chunk).foldl (Serving.serveItem host chunk) serving) serving) item →
      Put serving item ∨ ∃ ids, ∃ source ∈ fetch ids, item = source.cleared := by
    intro requests
    induction requests with
    | nil => exact fun serving hput => Or.inl hput
    | cons chunk rest ih =>
      intro serving hput
      rw [List.foldl_cons] at hput
      rcases ih _ hput with hbefore | hfound
      · exact (hitems chunk _ serving hbefore).imp_right fun hfound => ⟨chunk, hfound⟩
      · exact Or.inr hfound
  unfold serveItems at h
  rw [← hallowed] at h
  dsimp only at h
  refine (hchunks (chunks maxItemsPerMessage allowed)
    { unavailable := allowed, stats := stats } ?_).resolve_left ?_
  · unfold Put
    split at h
    · exact List.mem_append_left _ h
    · simpa [Serving.flush] using h
  · simp [Put]

section Received

variable {S : Type} {applyBatch : S → List SyncItem → Except SyncError (S × List Bool)}
  {wanted : List ItemSummary}

/-- An empty stream is taken as it is. -/
theorem receiveItems_nil (store : S) (stats : SyncStats) :
    ∃ received, receiveItems host applyBatch store wanted stats [] = .ok received ∧
      received.store = store ∧ received.applied = [] := by
  have hfits : ¬ wanted.length + 2 < ([] : List (List SyncItem)).length + 1 := by simp
  unfold receiveItems
  rw [if_neg hfits]
  exact ⟨_, rfl, rfl, rfl⟩

theorem applied_takeItem (taking : Receiving S × List SyncItem) (item : SyncItem) :
    taking.1.applied ⊆ (Receiving.takeItem host wanted taking item).1.applied := by
  unfold Receiving.takeItem
  dsimp only
  split
  · exact List.Subset.refl _
  split
  · exact List.Subset.refl _
  split
  · exact List.Subset.refl _
  split
  · exact List.Subset.refl _
  · exact List.subset_cons_self _ _

theorem applied_takeItem_self (taking : Receiving S × List SyncItem) {item : SyncItem}
    (hpromised : lookup ItemSummary.itemId wanted item.itemId = some item.summary)
    (hgenuine : item.deleted = false → host.sha256 item.payload = item.contentHash) :
    item.itemId ∈ (Receiving.takeItem host wanted taking item).1.applied := by
  unfold Receiving.takeItem
  dsimp only
  rw [hpromised]
  dsimp only
  rw [if_neg (by simp), if_neg]
  · split
    · rename_i happlied
      exact happlied
    · exact List.mem_cons_self
  · rintro ⟨hlive, hne⟩
    exact hne (hgenuine (by simpa using hlive))

theorem applied_takeItems (items : List SyncItem) (taking : Receiving S × List SyncItem) :
    taking.1.applied ⊆ (items.foldl (Receiving.takeItem host wanted) taking).1.applied ∧
    ∀ item ∈ items, lookup ItemSummary.itemId wanted item.itemId = some item.summary →
      (item.deleted = false → host.sha256 item.payload = item.contentHash) →
      item.itemId ∈ (items.foldl (Receiving.takeItem host wanted) taking).1.applied := by
  induction items generalizing taking with
  | nil => exact ⟨List.Subset.refl _, fun item hitem => absurd hitem List.not_mem_nil⟩
  | cons first rest ih =>
    obtain ⟨hsubset, hrest⟩ := ih (Receiving.takeItem host wanted taking first)
    rw [List.foldl_cons]
    refine ⟨List.Subset.trans (applied_takeItem taking first) hsubset,
      fun item hitem hpromised hgenuine => ?_⟩
    rcases List.mem_cons.1 hitem with rfl | hlater
    · exact hsubset (applied_takeItem_self taking hpromised hgenuine)
    · exact hrest item hlater hpromised hgenuine

/-- A stream counts the items as promised as applied. -/
theorem applied_receiveItems {store : S} {stats : SyncStats} {messages : List (List SyncItem)}
    {received : Receiving S}
    (hok : receiveItems host applyBatch store wanted stats messages = .ok received)
    {item : SyncItem} (hitem : item ∈ messages.flatten)
    (hpromised : lookup ItemSummary.itemId wanted item.itemId = some item.summary)
    (hgenuine : item.deleted = false → host.sha256 item.payload = item.contentHash) :
    item.itemId ∈ received.applied := by
  obtain ⟨last, hlast, -, happlied⟩ := receiveItems_rule host
    (P := fun messages receiving => item ∈ messages.flatten → item.itemId ∈ receiving.applied)
    (fun hnone => absurd hnone List.not_mem_nil)
    (by
      intro seen items receiving next _ h htake hmem
      obtain ⟨taken, batch, htaken, hnext, -⟩ := takeMessage_ok host htake
      obtain ⟨hsubset, hself⟩ := @applied_takeItems host S wanted items (receiving, [])
      rw [htaken] at hsubset hself
      rw [hnext]
      rw [List.flatten_append, List.flatten_singleton, List.mem_append] at hmem
      rcases hmem with hbefore | hnow
      · exact hsubset (h hbefore)
      · exact hself item hnow hpromised hgenuine) hok
  exact happlied ▸ hlast hitem

end Received

end CopyPaste.Peer.Delivery
