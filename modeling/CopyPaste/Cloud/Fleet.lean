import CopyPaste.Cloud.Push
import CopyPaste.Lib.Guarded
import Mathlib.Data.Fintype.Basic

/-!
Any number of devices on one backend table, each step of their rounds apart: the
scan of a push, its requests one by one, the fetch of a page and its end, and
whatever else changes a store in between. Someone with the account but without the
sync key may write rows as well. The fleet remembers for each device which
versions it was handed and which its store has held.
-/

namespace CopyPaste.Cloud.Fleet

open Lib.Keyset Lib.Rows Lib.Guarded Upload.Scanning Backend Pull Drain Push
open Merge.Comparator Merge.Payload Merge.Storage Merge.Prepare

variable {ι σ : Type}

/-- What the devices run with: the shared sync key, each device's host and store,
the versions a store would push, and the lossy decoding of text. -/
structure Setting (ι σ : Type) where
  key : SyncKey
  host : ι → Host
  source : ι → Source σ
  stored : ι → σ → List LocalItem
  lossy : List UInt8 → String

/-- A version as the merge sees it; a cloud row carries no hash. -/
def remoteVersion (lossy : List UInt8 → String) (item : LocalItem) : RemoteVersion where
  itemId := item.itemId
  content := if isText item.contentType then lossy item.content else ""
  binaryContent := if !item.deleted && !isText item.contentType then some item.content else none
  payloadMetadata := item.payloadMetadata
  contentType := item.contentType
  createdAt := item.createdAt
  deleted := item.deleted
  contentHash := none
  originDeviceId := item.originDeviceId
  appBundleId := item.sourceAppBundleId
  appName := item.sourceAppName

/-- A version as a store would hold it. -/
def heldAs (host : Host) (lossy : List UInt8 → String) (item : LocalItem) : Version where
  id := item.itemId
  createdAt := item.createdAt
  contentHash := remoteContentHash host (remoteVersion lossy item) none
  deleted := item.deleted
  pinned := false
  pinOrder := none
  pinUpdatedAt := 0
  originDeviceId := item.originDeviceId

/-- Whether a version is another one or beats it under the merge order: the device
that holds it keeps it. -/
def covers (host : Host) (lossy : List UInt8 → String) (known item : LocalItem) : Bool :=
  decide (known.itemId = item.itemId) &&
    keepsLocal host (remoteVersion lossy item) none (some (heldAs host lossy known))

/-- A device: its store, the persisted watermark, the rows of the push under way
that are not sent yet, and the page under way. -/
structure Device (σ : Type) where
  store : σ
  watermark : Cursor
  outbox : List CloudItem
  reading : Option PageRead
  handed : List LocalItem
  held : List LocalItem

structure Shared (ι σ : Type) where
  table : Table
  devices : ι → Device σ

inductive Act (ι σ : Type)
  | change (d : ι) (store : σ)
  | scan (d : ι) (items : List LocalItem)
  | send (d : ι)
  | fetch (d : ι) (now : Int)
  | finish (d : ι)
  | abandon (d : ι)
  | inject (row : CloudItem)

variable [DecidableEq ι]

def Shared.set (fleet : Shared ι σ) (d : ι) (device : Device σ) : Shared ι σ :=
  { fleet with devices := Function.update fleet.devices d device }

/-- The end of a page: hand the batch to the store and persist the cursor, unless
the store fails. -/
def finished (setting : Setting ι σ) (d : ι) (device : Device σ) (read : PageRead) : Device σ :=
  let puller : Puller σ := ⟨device.store, device.watermark, read.stats, false, device.handed, 0⟩
  let (after, error) := offer (setting.source d) read.batch puller
  { device with
    store := after.store
    watermark := if error.isNone then read.reached else device.watermark
    reading := none
    handed := after.offered
    held := device.held ++ setting.stored d after.store }

/-- One step, when it is possible. A request the client or the backend refuses, a
failed fetch and a crash all abandon the round. -/
def step (setting : Setting ι σ) (fleet : Shared ι σ) : Act ι σ → Option (Shared ι σ)
  | .change d store =>
    let device := fleet.devices d
    some (fleet.set d { device with
      store := store
      held := device.held ++ setting.stored d store })
  | .scan d items =>
    let device := fleet.devices d
    if items ⊆ setting.stored d device.store then
      some (fleet.set d { device with
        outbox := items.filterMap (outgoing setting.key (setting.host d).here)
        held := device.held ++ items })
    else none
  | .send d =>
    let device := fleet.devices d
    let batch := device.outbox.take uploadBatch
    if ∀ row ∈ batch, validate (setting.host d) row = .ok () then
      (Table.upsert fleet.table batch).map fun table =>
        { fleet.set d { device with outbox := device.outbox.drop uploadBatch } with table := table }
    else none
  | .fetch d now =>
    let device := fleet.devices d
    match device.reading,
        fetchSince fleet.table device.watermark.createdAt device.watermark.itemId pullPageLimit with
    | none, .ok rows =>
      some (fleet.set d { device with
        reading := some (readPage setting.key now device.watermark {} rows) })
    | _, _ => none
  | .finish d =>
    let device := fleet.devices d
    device.reading.map fun read => fleet.set d (finished setting d device read)
  | .abandon d =>
    some (fleet.set d { fleet.devices d with outbox := [], reading := none })
  | .inject row =>
    if setting.key.verifyMetadata row then none
    else (Table.upsert fleet.table [row]).map fun table => { fleet with table := table }

def Device.initial (setting : Setting ι σ) (d : ι) (store : σ) : Device σ where
  store := store
  watermark := ⟨0, none⟩
  outbox := []
  reading := none
  handed := []
  held := setting.stored d store

def emptyTable : Table where
  rows := []
  unique := by simp
  charset := by simp
  nonneg := by simp
  bigint := by simp

/-- Devices with any stores join an empty table. -/
def machine (setting : Setting ι σ) : Machine (Shared ι σ) (Act ι σ) where
  start := fun fleet => ∃ stores : ι → σ,
    fleet = ⟨emptyTable, fun d => Device.initial setting d (stores d)⟩
  step := step setting

section Properties

variable (setting : Setting ι σ)

/-- A device knows a row: the version it carries, or one that beats it, was handed
to the device's store or held there. -/
def Knows (d : ι) (device : Device σ) (row : CloudItem) : Prop :=
  ∃ known ∈ device.handed ++ device.held,
    covers (setting.host d) setting.lossy known (opened setting.key row) = true

instance (d : ι) (device : Device σ) (row : CloudItem) : Decidable (Knows setting d device row) := by
  unfold Knows
  infer_instance

/-- No valid row at or before a device's watermark is unknown to it. -/
def NoneSkipped (fleet : Shared ι σ) : Prop :=
  ∀ d, ∀ row ∈ fleet.table.rows, Valid setting.key row →
    rowKey row ≤ (fleet.devices d).watermark → Knows setting d (fleet.devices d) row

/-- A row is not hidden from a device: it lies ahead of the watermark or is known,
and it lies ahead of what the page under way will reach, or is known, or is in the
page. -/
structure InSight (d : ι) (device : Device σ) (row : CloudItem) : Prop where
  watermark : rowKey row ≤ device.watermark → Knows setting d device row
  reading : ∀ read, device.reading = some read → rowKey row ≤ read.reached →
    Knows setting d device row ∨ ∃ known ∈ read.batch,
      covers (setting.host d) setting.lossy known (opened setting.key row) = true

instance (d : ι) (device : Device σ) (row : CloudItem) :
    Decidable (InSight setting d device row) :=
  decidable_of_iff ((rowKey row ≤ device.watermark → Knows setting d device row) ∧
    ∀ read ∈ device.reading, rowKey row ≤ read.reached →
      Knows setting d device row ∨ ∃ known ∈ read.batch,
        covers (setting.host d) setting.lossy known (opened setting.key row) = true)
    ⟨fun h => ⟨h.1, h.2⟩, fun h => ⟨h.watermark, h.reading⟩⟩

/-- A request hides none of its valid rows from another device. -/
def SendsInSight (fleet : Shared ι σ) : Act ι σ → Prop
  | .send d => ∀ row ∈ (fleet.devices d).outbox.take uploadBatch, Valid setting.key row →
    ∀ e, e ≠ d → InSight setting e (fleet.devices e) row
  | _ => True

instance [Fintype ι] (shared : Shared ι σ) (act : Act ι σ) :
    Decidable (SendsInSight setting shared act) := by
  cases act <;> unfold SendsInSight <;> infer_instance

end Properties

end CopyPaste.Cloud.Fleet
