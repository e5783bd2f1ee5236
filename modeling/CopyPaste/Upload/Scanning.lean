import CopyPaste.Upload.Record
import Mathlib

/-!
One bounded upload scan. It retries the recorded ids, walks one page of the
region the record left behind, and reads one page past the upload floor; rows
that do not open are recorded and rows that no longer fit the byte budget are
deferred.
-/

namespace CopyPaste.Upload.Scanning

open Lib.Keyset Lib.Rows Record UnreadableUploads

def uploadScanLimit : Nat := 500

/-- A stored version. `opens` and `metadataOpens` say whether its payload and its
payload metadata can be opened under this device's key at the moment. -/
structure StoredItem where
  id : String
  createdAt : Int
  deleted : Bool
  contentType : String
  originDeviceId : String
  appBundleId : Option String
  appName : Option String
  content : List UInt8
  payloadMetadata : Option String
  opens : Bool
  metadataOpens : Bool
  deriving DecidableEq, Repr

/-- A version in the plain, as it crosses the provider boundary. -/
structure LocalItem where
  itemId : String
  originDeviceId : String
  content : List UInt8
  contentType : String
  payloadMetadata : Option String
  createdAt : Int
  deleted : Bool
  sourceAppBundleId : Option String
  sourceAppName : Option String
  deriving DecidableEq, Repr

def originOr (stored here : String) : String :=
  if stored = "" then here else stored

/-- The version a row holds, whether or not it opens at the moment. -/
def StoredItem.version (device : String) (row : StoredItem) : LocalItem where
  itemId := row.id
  originDeviceId := originOr row.originDeviceId device
  content := if row.deleted then [] else row.content
  contentType := row.contentType
  payloadMetadata := row.payloadMetadata
  createdAt := row.createdAt
  deleted := row.deleted
  sourceAppBundleId := row.appBundleId
  sourceAppName := row.appName

/-- One stored row in the plain, or nothing when it will not open. A tombstone
has no payload to open. -/
def toLocal (device : String) (row : StoredItem) : Option LocalItem := do
  let content ← if row.deleted then some [] else if row.opens then some row.content else none
  let payloadMetadata ← if row.metadataOpens then some row.payloadMetadata else none
  return {
    itemId := row.id
    originDeviceId := originOr row.originDeviceId device
    content := content
    contentType := row.contentType
    payloadMetadata := payloadMetadata
    createdAt := row.createdAt
    deleted := row.deleted
    sourceAppBundleId := row.appBundleId
    sourceAppName := row.appName }

def StoredItem.Readable (row : StoredItem) : Prop :=
  (row.deleted ∨ row.opens) ∧ row.metadataOpens

instance (row : StoredItem) : Decidable row.Readable := by
  unfold StoredItem.Readable
  infer_instance

def keysetOf (row : StoredItem) : UploadFloor := ⟨row.createdAt, some row.id⟩

/-- The rows of the given ids, in the order the store answers. -/
def versions (rows : List StoredItem) (ids : List String) : List StoredItem :=
  rows.filter fun row => row.id ∈ ids

/-- The store's keyset read: past the inclusive stamp or, when an id is given,
strictly past the compound pair, oldest first. -/
def versionsAfter (rows : List StoredItem) (sinceMs : Int) (afterId : Option String)
    (limit : Nat) : List StoredItem :=
  ((rows.filter fun row =>
      sinceMs < row.createdAt ∨ row.createdAt = sinceMs ∧ ∀ after ∈ afterId, after < row.id)
    |>.insertionSort fun a b => keysetOf a ≤ keysetOf b).take limit

def contentBytes (items : List LocalItem) : Nat :=
  (items.map fun item => item.content.length).sum

/-- What the last upload scan was shown. -/
structure Offer where
  truncated : Bool
  last : UploadFloor
  started : UploadFloor
  startedEpoch : UInt64
  deriving DecidableEq, Repr

structure Scan where
  items : List LocalItem
  offer : Offer
  unreadable : UnreadableUploads
  deriving DecidableEq, Repr

/-- The record and the items collected so far. -/
structure Collected where
  found : UnreadableUploads
  items : List LocalItem

def retryRow (device : String) (maxBytes : Nat) (got : Collected) (row : StoredItem) :
    Collected :=
  match toLocal device row with
  | some item =>
    if contentBytes got.items + item.content.length ≤ maxBytes then
      { got with items := got.items ++ [item] }
    else
      { got with found := (got.found.track row.id).1 }
  | none => { got with found := (got.found.track row.id).1 }

/-- Retry the recorded ids by lookup, a chunk at a time. -/
def retry (device : String) (rows : List StoredItem) (maxBytes : Nat) (ids : List String) :
    Collected :=
  ((chunks uploadScanLimit ids).flatMap (versions rows)).foldl (retryRow device maxBytes) ⟨{}, []⟩

/-- Why the loop of a walk ended. -/
inductive WalkStop
  | pageEnd
  | boundary
  | full
  deriving DecidableEq, Repr

structure Walk where
  got : Collected
  sweep : Sweep
  stop : WalkStop

def walkRows (device : String) (floor : UploadFloor) (retried : List String) (maxBytes : Nat) :
    List StoredItem → Collected → Sweep → Walk
  | [], got, sweep => ⟨got, sweep, .pageEnd⟩
  | row :: rest, got, sweep =>
    if floor < keysetOf row then
      ⟨got, sweep, .boundary⟩
    else if row.id ∈ retried then
      walkRows device floor retried maxBytes rest got { sweep with next := keysetOf row }
    else
      match toLocal device row with
      | some item =>
        if maxBytes < contentBytes got.items + item.content.length then
          ⟨got, sweep, .full⟩
        else
          walkRows device floor retried maxBytes rest { got with items := got.items ++ [item] }
            { sweep with next := keysetOf row }
      | none =>
        let (found, counted) := got.found.recordWalked row.id sweep
        walkRows device floor retried maxBytes rest { got with found := found }
          { counted with next := keysetOf row }

/-- One page of the walk over rows the id bound had no room for. -/
def walkLeftBehind (device : String) (rows : List StoredItem) (sweep : Sweep)
    (floor : UploadFloor) (retried : List String) (maxBytes : Nat) (got : Collected) :
    Collected × Option Sweep :=
  let page := versionsAfter rows sweep.next.createdAt sweep.next.itemId uploadScanLimit
  let walk := walkRows device floor retried maxBytes page got sweep
  match walk.stop with
  | .full => (walk.got, some walk.sweep)
  | .boundary => (walk.got, walk.sweep.cycle)
  | .pageEnd =>
    if page.length < uploadScanLimit then (walk.got, walk.sweep.cycle)
    else (walk.got, some walk.sweep)

/-- The loop over the main page. `behind` is the position before the row being
read; `cut` is set when the byte budget ends the loop early. -/
structure Reading where
  got : Collected
  behind : UploadFloor
  cut : Bool

def readRows (device : String) (retried : List String) (maxBytes : Nat) :
    List StoredItem → Collected → UploadFloor → Reading
  | [], got, behind => ⟨got, behind, false⟩
  | row :: rest, got, behind =>
    if row.id ∈ retried then
      readRows device retried maxBytes rest got (keysetOf row)
    else
      match toLocal device row with
      | some item =>
        if maxBytes < contentBytes got.items + item.content.length then
          ⟨got, behind, true⟩
        else
          readRows device retried maxBytes rest { got with items := got.items ++ [item] }
            (keysetOf row)
      | none =>
        let found := match got.found.track row.id with
          | (tracked, true) => tracked
          | (same, false) => same.sweepFrom behind
        readRows device retried maxBytes rest { got with found := found } (keysetOf row)

/-- The retry of the recorded ids and the carried walk, before the main page. -/
def revisit (device : String) (rows : List StoredItem) (floor : UploadFloor)
    (previous : UnreadableUploads) (maxBytes : Nat) : Collected :=
  let retried := retry device rows maxBytes previous.ids
  let carried := if previous.resetFloor then none else previous.sweep
  match carried with
  | none => retried
  | some sweep =>
    let (got, walked) :=
      walkLeftBehind device rows sweep floor previous.ids maxBytes retried
    { got with found := { got.found with sweep := walked } }

/-- The local versions after a keyset position, within a byte budget. -/
def scanBounded (device : String) (rows : List StoredItem) (since : UploadFloor)
    (startedEpoch : UInt64) (previous : UnreadableUploads) (maxBytes : Nat) : Scan :=
  let floor := if previous.resetFloor then UploadFloor.default else since
  let got := revisit device rows floor previous maxBytes
  let page := versionsAfter rows floor.createdAt floor.itemId uploadScanLimit
  let reading := readRows device previous.ids maxBytes page got floor
  { items := reading.got.items
    offer :=
      { truncated := decide (uploadScanLimit ≤ page.length) || reading.cut
        last := if reading.cut then reading.behind else (page.getLast?.map keysetOf).getD floor
        started := floor
        startedEpoch := startedEpoch }
    unreadable := reading.got.found.settleTotal }

theorem toLocal_of_readable (device : String) (row : StoredItem) (h : row.Readable) :
    toLocal device row = some (row.version device) := by
  obtain ⟨hpayload, hmetadata⟩ := h
  by_cases hdeleted : row.deleted
  · simp [toLocal, StoredItem.version, hdeleted, hmetadata]
  · have hopens : row.opens = true := by simpa [hdeleted] using hpayload
    simp [toLocal, StoredItem.version, hdeleted, hopens, hmetadata]

theorem toLocal_of_not_readable (device : String) (row : StoredItem) (h : ¬ row.Readable) :
    toLocal device row = none := by
  by_cases hmetadata : row.metadataOpens
  · have hpayload : row.deleted = false ∧ row.opens = false := by
      simpa [StoredItem.Readable, hmetadata] using h
    simp [toLocal, hpayload.1, hpayload.2]
  · simp [toLocal, hmetadata]

/-- What opens is the version the row holds. -/
theorem toLocal_eq_some (device : String) (row : StoredItem) (item : LocalItem)
    (h : toLocal device row = some item) : row.Readable ∧ item = row.version device := by
  by_cases hreadable : row.Readable
  · rw [toLocal_of_readable device row hreadable] at h
    exact ⟨hreadable, (Option.some.inj h).symm⟩
  · rw [toLocal_of_not_readable device row hreadable] at h
    simp at h

theorem nodup_keysetOf {rows : List StoredItem} (h : (rows.map StoredItem.id).Nodup) :
    (rows.map keysetOf).Nodup := by
  refine List.Nodup.of_map (fun key => key.itemId.getD "") ?_
  simpa [Function.comp_def, keysetOf] using h

/-- The store's keyset read is a page of the library. -/
theorem versionsAfter_eq_page (rows : List StoredItem) (since : UploadFloor) (limit : Nat) :
    versionsAfter rows since.createdAt since.itemId limit = page keysetOf rows since limit := by
  unfold versionsAfter page
  congr 2
  refine List.filter_congr fun row _ => ?_
  simp only [keysetOf, Position.lt_row_iff, eq_comm]

/-- A row is accounted for when its version is among the items or its id is tracked. -/
def Kept (device : String) (got : Collected) (row : StoredItem) : Prop :=
  row.version device ∈ got.items ∨ row.id ∈ got.found.ids

/-- A later collection has everything an earlier one had. -/
structure Grows (got got' : Collected) : Prop where
  items : got.items ⊆ got'.items
  ids : got.found.ids ⊆ got'.found.ids

namespace Grows

theorem refl (got : Collected) : Grows got got :=
  ⟨List.Subset.refl _, List.Subset.refl _⟩

theorem trans {a b c : Collected} (hab : Grows a b) (hbc : Grows b c) : Grows a c :=
  ⟨List.Subset.trans hab.items hbc.items, List.Subset.trans hab.ids hbc.ids⟩

theorem kept {device : String} {got got' : Collected} {row : StoredItem} (h : Grows got got')
    (hrow : Kept device got row) : Kept device got' row :=
  hrow.imp (fun hmem => h.items hmem) (fun hmem => h.ids hmem)

theorem push (got : Collected) (item : LocalItem) :
    Grows got { got with items := got.items ++ [item] } :=
  ⟨List.subset_append_left _ _, List.Subset.refl _⟩

theorem track (got : Collected) (id : String) :
    Grows got { got with found := (got.found.track id).1 } :=
  ⟨List.Subset.refl _, fun _ h => mem_track_of_mem got.found id h⟩

end Grows

end CopyPaste.Upload.Scanning
