import CopyPaste.Merge.Absorb
import CopyPaste.Peer.Reading
import CopyPaste.Peer.StoreSource

/-!
What one side of a session takes into its store. Each item applied was sent, is as
promised and is applied once. Where none of them carries a choice about secrecy or meets
the index key of another id, and the sweep has nothing to remove, each id ends at the
greatest of what the store held and what was applied.
-/

namespace CopyPaste.Peer.Uptake

open Lib.Rows Merge.Comparator Merge.Payload Merge.Storage Merge.Prepare Merge.Batch Merge.Effects
  Merge.Repin Merge.Independence Merge.Absorb Upload.Scanning Plan Transfer Session Advertise
  Watermark Delivery Reading StoreSource

section Stream

variable {S : Type} {host : Host} {wanted : List ItemSummary}

/-- An item as it is applied. -/
def taken (item : SyncItem) : SyncItem :=
  if item.deleted then { item with content := "" } else item

/-- An applied item: one that was sent, as it was promised, with a payload that bears its
hash. -/
structure Fit (host : Host) (wanted : List ItemSummary) (messages : List (List SyncItem))
    (item : SyncItem) : Prop where
  sent : ∃ source ∈ messages.flatten, item = taken source
  promised : lookup ItemSummary.itemId wanted item.itemId = some item.summary
  genuine : item.deleted = false → host.sha256 item.payload = item.contentHash

theorem itemId_taken (item : SyncItem) : (taken item).itemId = item.itemId := by
  unfold taken
  split <;> rfl

theorem summary_taken (item : SyncItem) : (taken item).summary = item.summary := by
  unfold taken
  split <;> rfl

/-- A batch being filled: fit items under distinct ids, each of them counted as applied. -/
structure Filling (host : Host) (wanted : List ItemSummary) (messages : List (List SyncItem))
    (before : List String) (taking : Receiving S × List SyncItem) : Prop where
  fits : ∀ item ∈ taking.2, Fit host wanted messages item
  nodup : (taking.2.map SyncItem.itemId).Nodup
  applied : ∀ id, id ∈ taking.1.applied ↔ id ∈ before ∨ id ∈ taking.2.map SyncItem.itemId

variable {messages : List (List SyncItem)}

theorem filling_takeItem {before : List String} {taking : Receiving S × List SyncItem}
    (h : Filling host wanted messages before taking) {item : SyncItem}
    (hsent : item ∈ messages.flatten) :
    Filling host wanted messages before (Receiving.takeItem host wanted taking item) := by
  unfold Receiving.takeItem
  dsimp only
  split
  · exact ⟨h.fits, h.nodup, h.applied⟩
  rename_i promised hpromised
  split
  · exact ⟨h.fits, h.nodup, h.applied⟩
  rename_i hsummary
  split
  · exact ⟨h.fits, h.nodup, h.applied⟩
  rename_i hhash
  split
  · exact ⟨h.fits, h.nodup, h.applied⟩
  rename_i hfresh
  have hid := itemId_taken item
  refine ⟨fun other hother => ?_, ?_, fun id => ?_⟩
  · rcases List.mem_append.1 hother with hold | hnew
    · exact h.fits other hold
    · obtain rfl : other = taken item := List.mem_singleton.1 hnew
      refine ⟨⟨item, hsent, rfl⟩, ?_, fun hlive => ?_⟩
      · rw [hid, summary_taken, hpromised, not_not.1 hsummary]
      · have hitem : item.deleted = false := by
          unfold taken at hlive
          split at hlive
          · exact hlive
          · exact hlive
        have hsame : taken item = item := if_neg (by simp [hitem])
        rw [hsame]
        by_contra hne
        exact hhash ⟨by simp [hitem], hne⟩
  · rw [List.map_append, List.nodup_append]
    refine ⟨h.nodup, List.nodup_singleton _, fun id hold other hnew => ?_⟩
    obtain rfl : other = (taken item).itemId := List.mem_singleton.1 hnew
    rw [hid]
    rintro rfl
    exact hfresh ((h.applied _).2 (Or.inr hold))
  · rw [List.mem_cons, h.applied, List.map_append, List.mem_append]
    have hnew : id ∈ [taken item].map SyncItem.itemId ↔ id = item.itemId := by
      rw [List.map_singleton, List.mem_singleton, hid]
    change _ ↔ id ∈ before ∨ id ∈ taking.2.map SyncItem.itemId ∨ id ∈ [taken item].map _
    rw [hnew]
    tauto

theorem filling_takeItems {before : List String} {items : List SyncItem}
    (hitems : ∀ item ∈ items, item ∈ messages.flatten) {taking : Receiving S × List SyncItem}
    (h : Filling host wanted messages before taking) :
    Filling host wanted messages before (items.foldl (Receiving.takeItem host wanted) taking) := by
  induction items generalizing taking with
  | nil => exact h
  | cons item rest ih =>
    rw [List.foldl_cons]
    apply ih fun other hother => hitems other (List.mem_cons_of_mem _ hother)
    exact filling_takeItem h (hitems item List.mem_cons_self)

variable {applyBatch : S → List SyncItem → Except SyncError (S × List Bool)}

/-- The items applied so far, and what holds of them and the store. -/
structure Applied (host : Host) (wanted : List ItemSummary) (messages : List (List SyncItem))
    (R : List SyncItem → S → Prop) (items : List SyncItem) (receiving : Receiving S) : Prop where
  holds : R items receiving.store
  fits : ∀ item ∈ items, Fit host wanted messages item
  applied : ∀ id, id ∈ receiving.applied ↔ id ∈ items.map SyncItem.itemId

/-- What every batch of fit items under distinct ids adds to. -/
def Grows (host : Host) (wanted : List ItemSummary) (messages : List (List SyncItem))
    (applyBatch : S → List SyncItem → Except SyncError (S × List Bool))
    (R : List SyncItem → S → Prop) : Prop :=
  ∀ before store batch after stored, R before store →
    (∀ item ∈ batch, Fit host wanted messages item) → (batch.map SyncItem.itemId).Nodup →
    applyBatch store batch = .ok (after, stored) → R (before ++ batch) after

theorem applied_message {R : List SyncItem → S → Prop}
    (hgrows : Grows host wanted messages applyBatch R) {items message : List SyncItem}
    (hmessage : ∀ item ∈ message, item ∈ messages.flatten) {receiving after : Receiving S}
    (h : Applied host wanted messages R items receiving)
    (hok : receiving.takeMessage host applyBatch wanted message = .ok after) :
    ∃ batch, Applied host wanted messages R (items ++ batch) after := by
  obtain ⟨next, batch, hnext, happlied, hbatch⟩ := takeMessage_ok host hok
  have hstart : Filling host wanted messages (items.map SyncItem.itemId) (receiving, []) :=
    ⟨fun item hitem => absurd hitem List.not_mem_nil, List.nodup_nil, fun id => by
      simpa using h.applied id⟩
  have hfilled := filling_takeItems hmessage hstart
  rw [hnext] at hfilled
  have hfits : ∀ item ∈ items ++ batch, Fit host wanted messages item := by
    intro item hitem
    rcases List.mem_append.1 hitem with hold | hnew
    · exact h.fits item hold
    · exact hfilled.fits item hnew
  have hids : ∀ id, id ∈ after.applied ↔ id ∈ (items ++ batch).map SyncItem.itemId := by
    intro id
    rw [happlied, hfilled.applied, List.map_append, List.mem_append]
  refine ⟨batch, ⟨?_, hfits, hids⟩⟩
  rcases hbatch with ⟨rfl, hstore⟩ | ⟨stored, happly⟩
  · rw [List.append_nil, hstore]
    exact h.holds
  · exact hgrows items receiving.store batch after.store stored h.holds hfilled.fits hfilled.nodup
      happly

/-- A stream is applied batch after batch. -/
theorem applied_stream {R : List SyncItem → S → Prop}
    (hgrows : Grows host wanted messages applyBatch R) {store : S} (hstart : R [] store)
    {stats : SyncStats} {received : Receiving S}
    (hok : receiveItems host applyBatch store wanted stats messages = .ok received) :
    ∃ items, Applied host wanted messages R items received := by
  obtain ⟨last, ⟨items, h⟩, hstore, happlied⟩ := receiveItems_rule host
    (P := fun _ receiving => ∃ items, Applied host wanted messages R items receiving)
    ⟨[], hstart, fun item hitem => absurd hitem List.not_mem_nil, fun id => by simp⟩
    (by
      rintro _ message receiving next hsent ⟨items, h⟩ htake
      obtain ⟨batch, hnext⟩ := applied_message hgrows
        (fun item hitem => List.mem_flatten.2 ⟨message, hsent, hitem⟩) h htake
      exact ⟨_, hnext⟩) hok
  exact ⟨items, hstore ▸ h.holds, h.fits, happlied ▸ h.applied⟩

end Stream

/-- What a device may send of a store. -/
def offers (device : Device) (store : Store) : List SyncItem :=
  ((syncRecords store).filterMap (toWire device store)).map SyncItem.cleared

/-- A store and items on their way to it: no choice about secrecy on either side, no index
key met under another id, every item of a shape that is stored, and nothing to sweep. -/
structure Clean (device : Device) (store : Store) (items : List SyncItem) : Prop where
  choices : ∀ row ∈ store.items, Choiceless device.host row.payloadMetadata
  admissible : ∀ item ∈ items, Admissible device.host (remoteVersion item)
  clear : CollisionFree device.host store (items.map remoteVersion)
  pins : PinsRecorded device.host store
  spared : ∀ store, device.evicted store = []

section Batches

variable {device : Device} {start : Store} {items : List SyncItem}

theorem applyBatch_absorbed (hrender : RendersChoices device.host)
    (hclean : Clean device start items) {batch : List SyncItem} (hbatch : ∀ item ∈ batch, item ∈ items)
    (hnodup : (batch.map SyncItem.itemId).Nodup) {store after : Store} {stored : List Bool}
    (h : Delivering device.host start (items.map remoteVersion) store)
    (hpins : PinsRecorded device.host store)
    (hok : applyBatch device store batch = .ok (after, stored)) :
    Absorbed device.host start (items.map remoteVersion) (batch.map remoteVersion) store after := by
  have hadm : ∀ version ∈ items.map remoteVersion, Admissible device.host version := by
    intro version hversion
    obtain ⟨item, hitem, rfl⟩ := List.mem_map.1 hversion
    exact hclean.admissible item hitem
  unfold applyBatch at hok
  cases hpage : applyRemoteP2pVersions device.host store
      (batch.map fun item => (remoteVersion item, pinOf item)) with
  | error e => simp [hpage] at hok
  | ok answer =>
    obtain ⟨merged, outcomes⟩ := answer
    rw [hpage] at hok
    obtain ⟨hafter, -⟩ := Prod.mk.inj (Except.ok.inj hok)
    have hsweep : enforceRetention device merged = merged := by
      unfold enforceRetention
      rw [hclean.spared]
      simp
    have hsame : merged = after := by
      rw [hsweep, ite_self] at hafter
      exact hafter
    have habsorbed := applyRemoteP2pVersions_absorbed hrender hclean.clear hadm ?_ ?_ h hpins hpage
    · rw [List.map_map] at habsorbed
      rw [← hsame]
      exact habsorbed
    · intro row hrow
      obtain ⟨item, hitem, rfl⟩ := List.mem_map.1 hrow
      exact List.mem_map_of_mem (hbatch item hitem)
    · rw [List.map_map]
      exact hnodup

theorem delivering_start (hwf : WellFormed start) (hclean : Clean device start items) :
    Delivering device.host start (items.map remoteVersion) start :=
  ⟨hwf, hclean.choices, fun row hrow =>
    List.mem_append_left _ (List.mem_map.2 ⟨row, hrow, rfl⟩)⟩

/-- Batches of one stream add up. -/
theorem grows_absorbed (hrender : RendersChoices device.host) (hclean : Clean device start items)
    {host : Host} {wanted : List ItemSummary} {messages : List (List SyncItem)}
    (hmessages : ∀ item ∈ messages.flatten, taken item ∈ items) :
    Grows host wanted messages (applyBatch device) fun before store =>
      Absorbed device.host start (items.map remoteVersion) (before.map remoteVersion) start
        store := by
  intro before store batch after stored hbefore hfits hnodup hok
  rw [List.map_append]
  refine hbefore.trans (applyBatch_absorbed hrender hclean (fun item hitem => ?_) hnodup
    hbefore.delivering hbefore.pins hok)
  obtain ⟨source, hsource, rfl⟩ := (hfits item hitem).sent
  exact hmessages source hsource

end Batches

/-- The hash a summary carries, where the payload bears it. -/
theorem key_remoteVersion {host : Host} {item : SyncItem}
    (hgenuine : item.deleted = false → host.sha256 item.payload = item.contentHash) :
    RemoteVersion.key host (remoteVersion item) = item.summary.key := by
  have hhash : remoteContentHash host (remoteVersion item) none = item.contentHash := by
    unfold remoteContentHash
    cases hdeleted : item.deleted with
    | true =>
      rw [if_pos (show (remoteVersion item).deleted = true from hdeleted)]
      rfl
    | false =>
      rw [if_neg (by simp [remoteVersion, hdeleted])]
      have hbytes : (remoteVersion item).bytes = item.payload := by
        unfold RemoteVersion.bytes remoteVersion SyncItem.payload
        by_cases hempty : item.binaryContent = []
        · simp [hempty]
        · simp [hempty]
      rw [hbytes]
      exact hgenuine hdeleted
  unfold RemoteVersion.key ItemSummary.key
  rw [hhash]
  rfl

theorem taken_cleared (item : SyncItem) : taken item.cleared = item.cleared := by
  unfold taken SyncItem.cleared
  cases hdeleted : item.deleted with
  | true => rfl
  | false => simp [hdeleted]

/-- What one side of a session leaves of a store that the peer's offers do not upset. -/
theorem side_absorbed {host : Host} {theirs : History Store} {device peerDevice : Device}
    {reader peer : Party Store} {served : Store} {base : SummaryWorkspace}
    {advertised : List ItemSummary} {side : Side Store}
    (hrender : RendersChoices device.host) (hhash : device.host.sha256 = host.sha256)
    (hsource : reader.source = storeSource device) (hpeer : peer.source = storeSource peerDevice)
    (hwf : WellFormed reader.store)
    (hclean : Clean device reader.store (offers peerDevice served))
    (h : Reads host theirs reader peer served base advertised side) :
    ∃ items : List SyncItem,
      Absorbed device.host reader.store ((offers peerDevice served).map remoteVersion)
        (items.map remoteVersion) reader.store side.store ∧
      (∀ item ∈ items, item.summary ∈ side.wanted ∧
        RemoteVersion.key device.host (remoteVersion item) = item.summary.key) ∧
      ∀ id, id ∈ side.attempted ↔ id ∈ items.map SyncItem.itemId := by
  obtain ⟨stats, stats', received, hreceived, hstore, hattempted, -⟩ := h.took
  rw [hsource] at hreceived
  have hmessages : ∀ item ∈ (serveItems host (peer.source.fetch served) advertised
      (request reader side.wanted) stats').1.flatten, taken item ∈ offers peerDevice served := by
    intro item hitem
    obtain ⟨ids, source, hfetched, rfl⟩ := serveItems_cleared hitem
    rw [taken_cleared]
    apply List.mem_map_of_mem
    rw [hpeer] at hfetched
    obtain ⟨row, hrow, hwire⟩ := List.mem_filterMap.1 hfetched
    exact List.mem_filterMap.2 ⟨row, List.mem_of_mem_filter hrow, hwire⟩
  obtain ⟨items, happlied⟩ := applied_stream (grows_absorbed hrender hclean hmessages)
    (absorbed_nil (delivering_start hwf hclean) hclean.pins) hreceived
  refine ⟨items, ?_, fun item hitem => ?_, fun id => ?_⟩
  · rw [hstore]
    exact happlied.holds
  · have hfit := happlied.fits item hitem
    refine ⟨(lookup_eq_some hfit.promised).1, key_remoteVersion fun hlive => ?_⟩
    rw [hhash]
    exact hfit.genuine hlive
  · rw [hattempted]
    exact happlied.applied id

end CopyPaste.Peer.Uptake
