import CopyPaste.Merge.Pages
import CopyPaste.Merge.Repin
import CopyPaste.Peer.Advertise

/-!
The history of a device as a peer session sees it. Summaries list every stored
version, fetched items are opened under the local key, and a received batch runs
the merge again before the retention sweep.
-/

namespace CopyPaste.Peer.StoreSource

open Lib.Keyset Lib.Rows Merge.Comparator Merge.Payload Merge.Storage Merge.Prepare Merge.Batch
  Merge.Effects Merge.Pages Merge.Repin Upload.Scanning Plan Transfer Session Advertise

/-- A device: its merge host, the opening of a payload by content type and id, and
the rows its retention sweep would remove. -/
structure Device where
  host : Host
  decrypt : String → String → List UInt8 × List UInt8 → Option (List UInt8)
  evicted : Store → List String

/-- Both tables under the stamp each is paged by. -/
def stampedVersions (store : Store) : List (Int × Version) :=
  store.items.map (fun row => (max row.createdAt row.pinUpdatedAt, row.toVersion)) ++
    store.records.map fun row => (row.createdAt, row.toVersion)

def readerOf (stamped : Int × Version) : Reader := ⟨stamped.1, some stamped.2.id⟩

/-- The store's keyset read of changed versions, oldest first. -/
def summariesSince (store : Store) (sinceMs : Int) (afterId : Option String) (limit : Nat) :
    List Version :=
  ((((stampedVersions store).filter fun (stamp, version) =>
      sinceMs < stamp ∨ stamp = sinceMs ∧ ∀ after ∈ afterId, after < version.id)
    |>.insertionSort fun a b => readerOf a ≤ readerOf b).take limit).map Prod.snd

def recordItem (row : RecordRow) : ItemRow where
  id := row.id
  payload := row.payload
  contentType := recordContentType
  contentHash := row.contentHash
  pinned := false
  pinOrder := none
  pinUpdatedAt := 0
  createdAt := row.createdAt
  deleted := false
  originDeviceId := row.originDeviceId
  appBundleId := none
  appName := none
  payloadMetadata := none
  sourceIconId := none

def syncRecords (store : Store) : List ItemRow :=
  store.items ++ store.records.map recordItem

variable (device : Device)

/-- The metadata a version travels with: its icon is put back, and a local path
never leaves the device. -/
def payloadMetadataForSync (store : Store) (row : ItemRow) : Option String :=
  if row.deleted then none
  else
    let metadata : Option PayloadMetadata := match row.payloadMetadata with
      | none => some {}
      | some json =>
        match PayloadMetadata.fromJson device.host json row.contentType with
        | some metadata => some metadata
        | none =>
          if isText row.contentType then
            some { privacy := PayloadMetadata.privacyFromJson device.host json }
          else none
    match metadata with
    | none => row.payloadMetadata
    | some metadata =>
      let metadata :=
        match row.sourceIconId.bind fun id => (lookup IconRow.id store.icons id) with
        | some icon =>
          if (device.host.png icon.icon).isSome then
            { metadata with sourceAppIcon := some icon.icon }
          else metadata
        | none => metadata
      let file := metadata.file.map fun file : FileMetadata =>
        { file with sourceReference := none }
      ({ metadata with file := file } : PayloadMetadata).toJson device.host row.contentType

/-- The payload of a live row, when it opens. -/
def openVersionBytes (row : ItemRow) : Option (List UInt8) := do
  let (nonce, ciphertext) ← row.payload
  if ciphertext = [] ∨ (!isBinary row.contentType ∧ nonce = []) then none
  else device.decrypt row.contentType row.id (nonce, ciphertext)

/-- The row as it travels, or nothing when its payload does not open. -/
def toWire (store : Store) (row : ItemRow) : Option SyncItem := do
  let (content, binaryContent) ←
    if row.deleted then some ("", [])
    else if isBinary row.contentType then (openVersionBytes device row).map fun bytes => ("", bytes)
    else ((openVersionBytes device row).bind fromUtf8).map fun text => (text, [])
  return {
    itemId := row.id
    content := content
    binaryContent := binaryContent
    payloadMetadata := payloadMetadataForSync device store row
    sourceAppBundleId := row.appBundleId
    sourceAppName := row.appName
    contentType := row.contentType
    createdAt := row.createdAt
    deleted := row.deleted
    contentHash := row.contentHash
    originDeviceId := originOr row.originDeviceId device.host.here
    pinned := row.pinned
    pinOrder := row.pinOrder
    pinUpdatedAt := row.pinUpdatedAt }

def fetch (store : Store) (ids : List String) : List SyncItem :=
  ((syncRecords store).filter fun row => row.id ∈ ids).filterMap (toWire device store)

def remoteVersion (item : SyncItem) : RemoteVersion where
  itemId := item.itemId
  content := item.content
  binaryContent := if item.binaryContent = [] then none else some item.binaryContent
  payloadMetadata := item.payloadMetadata
  contentType := item.contentType
  createdAt := item.createdAt
  deleted := item.deleted
  contentHash := some item.contentHash
  originDeviceId := item.originDeviceId
  appBundleId := item.sourceAppBundleId
  appName := item.sourceAppName

def pinOf (item : SyncItem) : P2pPin := ⟨item.pinned, item.pinOrder, item.pinUpdatedAt⟩

/-- Remove the rows the retention policy gives up. -/
def enforceRetention (store : Store) : Store :=
  { store with items := store.items.filter fun row => row.id ∉ device.evicted store }

/-- Merge a received batch, and sweep when content was stored. -/
def applyBatch (store : Store) (items : List SyncItem) : Except SyncError (Store × List Bool) :=
  match applyRemoteP2pVersions device.host store
      (items.map fun item => (remoteVersion item, pinOf item)) with
  | .error _ => .error .source
  | .ok (store, outcomes) =>
    .ok (if outcomes.any P2pApply.content then enforceRetention device store else store,
      outcomes.map P2pApply.any)

def storeSource : SyncSource Store where
  deviceId := device.host.here
  summaryPage := fun store sinceMs afterId limit =>
    (summariesSince store sinceMs afterId limit).map (storedSummary device.host)
  localSummaries := fun store ids =>
    (store.versionSummaries ids).map (storedSummary device.host)
  fetch := fetch device
  applyBatch := applyBatch device

/-- The versions of a store as its summaries show them. -/
def versions (store : Store) : List ItemSummary :=
  store.allVersions.map (storedSummary device.host)

theorem stampedVersions_snd (store : Store) :
    (stampedVersions store).map Prod.snd = store.allVersions := by
  simp [stampedVersions, Store.allVersions, Function.comp_def]

/-- The column a version is paged by, read off its summary: a record has no pin
stamp to count. -/
def changeStamp (summary : ItemSummary) : Int :=
  if isRecordId summary.itemId then summary.createdAt else summaryKey summary

variable {device}

variable {store : Store}

theorem changeStamp_eq (h : WellFormed store) {stamped : Int × Version}
    (hmem : stamped ∈ stampedVersions store) :
    changeStamp (storedSummary device.host stamped.2) = stamped.1 := by
  unfold stampedVersions at hmem
  rcases List.mem_append.1 hmem with hitem | hrecord
  · obtain ⟨row, hrow, rfl⟩ := List.mem_map.1 hitem
    exact if_neg (by simp [storedSummary, ItemRow.toVersion, h.itemIds row hrow])
  · obtain ⟨row, hrow, rfl⟩ := List.mem_map.1 hrecord
    exact if_pos (h.recordIds row hrow)

theorem changeStamp_eq_summaryKey (h : WellFormed store) {version : ItemSummary}
    (hmem : version ∈ versions device store) (hstamp : 0 ≤ version.createdAt) :
    changeStamp version = summaryKey version := by
  unfold versions Store.allVersions at hmem
  rw [List.map_append, List.mem_append, List.map_map, List.map_map] at hmem
  rcases hmem with hitem | hrecord
  · obtain ⟨row, hrow, rfl⟩ := List.mem_map.1 hitem
    exact if_neg (by simp [storedSummary, ItemRow.toVersion, h.itemIds row hrow])
  · obtain ⟨row, hrow, rfl⟩ := List.mem_map.1 hrecord
    have hkey : summaryKey (storedSummary device.host row.toVersion) = row.createdAt :=
      max_eq_left hstamp
    rw [Function.comp_apply, hkey]
    exact if_pos (h.recordIds row hrow)

/-- A page of summaries is a keyset page of the stored versions. -/
theorem summaryPage_eq (h : WellFormed store) (sinceMs : Int) (afterId : Option String)
    (limit : Nat) :
    (storeSource device).summaryPage store sinceMs afterId limit =
      page (fun version => (⟨changeStamp version, some version.itemId⟩ : Reader))
        (versions device store) ⟨sinceMs, afterId⟩ limit := by
  have hplace : ∀ stamped ∈ stampedVersions store,
      (⟨changeStamp (storedSummary device.host stamped.2), some stamped.2.id⟩ : Reader) =
        readerOf stamped := by
    intro stamped hmem
    rw [changeStamp_eq h hmem, readerOf]
  have hversions : versions device store =
      (stampedVersions store).map fun stamped => storedSummary device.host stamped.2 := by
    rw [versions, ← stampedVersions_snd, List.map_map]
    rfl
  unfold page
  rw [hversions, List.filter_map]
  have hfilter : ((stampedVersions store).filter ((fun version : ItemSummary =>
        decide ((⟨sinceMs, afterId⟩ : Reader) <
          ⟨changeStamp version, some version.itemId⟩)) ∘
            fun stamped => storedSummary device.host stamped.2)) =
      (stampedVersions store).filter fun (stamp, version) =>
        sinceMs < stamp ∨ stamp = sinceMs ∧ ∀ after ∈ afterId, after < version.id := by
    refine List.filter_congr fun stamped hmem => ?_
    have hiff := Position.lt_row_iff (⟨sinceMs, afterId⟩ : Reader) stamped.1 stamped.2.id
    have hat := hplace stamped hmem
    unfold readerOf at hat
    rw [← hat] at hiff
    refine decide_eq_decide.2 (hiff.trans ?_)
    rw [@eq_comm _ sinceMs]
  rw [hfilter, ← List.map_insertionSort (fun a b => readerOf a ≤ readerOf b)
    (fun a b => (⟨changeStamp a, some a.itemId⟩ : Reader) ≤ ⟨changeStamp b, some b.itemId⟩),
    ← List.map_take]
  · show List.map _ (List.map _ _) = _
    rw [List.map_map]
    rfl
  · intro a ha b hb
    rw [← hplace a (List.mem_of_mem_filter ha), ← hplace b (List.mem_of_mem_filter hb)]
    rfl

theorem wellFormed_enforceRetention (h : WellFormed store) :
    WellFormed (enforceRetention device store) := by
  refine ⟨?_, h.records, fun row hrow => ?_, h.recordIds⟩
  · exact h.items.sublist (List.filter_sublist.map ItemRow.id)
  · exact h.itemIds row (List.mem_of_mem_filter hrow)

theorem wellFormed_applyBatch (h : WellFormed store) {items : List SyncItem} {after : Store}
    {stored : List Bool} (hok : applyBatch device store items = .ok (after, stored)) :
    WellFormed after := by
  unfold applyBatch at hok
  cases hpage : applyRemoteP2pVersions device.host store
      (items.map fun item => (remoteVersion item, pinOf item)) with
  | error e => simp [hpage] at hok
  | ok answer =>
    have hmerged : WellFormed answer.1 := by
      have hwrite : ∀ (store : Store) (incoming : IncomingItem), WellFormed store →
          WellFormed (store.upsert device.host incoming).1 :=
        fun store incoming hwf => wellFormed_upsert device.host hwf incoming
      have hpin : ∀ (store : Store) (id : String) (pinned : Bool) (order : Option PinOrder)
          (stamp : Int), WellFormed store →
          WellFormed (store.applyPinState id pinned order stamp).1 :=
        fun store id pinned order stamp hwf => wellFormed_pinAlone hwf id ⟨pinned, order, stamp⟩
      exact applyPage_keeps device.host hwrite hpin h hpage
    rw [hpage] at hok
    obtain ⟨rfl, -⟩ := Prod.mk.inj (Except.ok.inj hok)
    split
    · exact wellFormed_enforceRetention hmerged
    · exact hmerged

variable (device) in
/-- A device's store is a history. -/
def storeHistory : History Store where
  toSyncSource := storeSource device
  versions := versions device
  Valid := WellFormed
  stamp := changeStamp
  stamp_eq := fun _ h _ hmem hstamp => changeStamp_eq_summaryKey h hmem hstamp
  unique := fun store h => by
    have hnodup := nodup_allVersions h
    rw [versions, List.map_map]
    exact hnodup
  paged := fun _ h sinceMs afterId limit => summaryPage_eq h sinceMs afterId limit
  valid_applyBatch := fun _ h _ _ _ hok => wellFormed_applyBatch h hok

/-- A device that keeps its payloads in the plain, and a text row of its own. -/
def sampleDevice (name : String) : Device where
  host := { sampleHost with here := name, encrypt := fun _ _ content => ([0], content) }
  decrypt := fun _ _ payload => some payload.2
  evicted := fun _ => []

def sampleNote (id : String) (createdAt : Int) (name : String) : ItemRow :=
  { sampleRow id id createdAt none with payload := some ([0], utf8 id), originDeviceId := name }

theorem wellFormed_items {rows : List ItemRow} (hnodup : (rows.map ItemRow.id).Nodup)
    (hids : ∀ row ∈ rows, isRecordId row.id = false) : WellFormed { items := rows } :=
  ⟨hnodup, List.nodup_nil, hids, fun _ h => absurd h List.not_mem_nil⟩

end CopyPaste.Peer.StoreSource
