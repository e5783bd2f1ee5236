import CopyPaste.Merge.Comparator
import CopyPaste.Merge.Payload
import Mathlib

/-!
The store a merge writes to: the clipboard items with their dedup index, the
organization records with the tags, memberships and pins they project, and the
shared icons. One write stores the version that won, or refuses it and leaves
everything as it was.
-/

namespace CopyPaste.Merge.Storage

open Lib.Rows Comparator Payload Upload.Scanning

/-- One row of the history; the payload is the nonce and the ciphertext, absent on
a tombstone. -/
structure ItemRow where
  id : String
  payload : Option (List UInt8 × List UInt8)
  contentType : String
  contentHash : String
  pinned : Bool
  pinOrder : Option PinOrder
  pinUpdatedAt : Int
  createdAt : Int
  deleted : Bool
  originDeviceId : String
  appBundleId : Option String
  appName : Option String
  payloadMetadata : Option String
  sourceIconId : Option String
  deriving DecidableEq, Repr

structure RecordRow where
  id : String
  payload : Option (List UInt8 × List UInt8)
  contentHash : String
  createdAt : Int
  originDeviceId : String
  deriving DecidableEq, Repr

structure TagRow where
  id : String
  name : String
  deleted : Bool
  deriving DecidableEq, Repr

structure ClipTag where
  clipId : String
  tagId : String
  assigned : Bool
  deriving DecidableEq, Repr

structure PinState where
  clipId : String
  pinned : Bool
  pinOrder : Option PinOrder
  updatedAt : Int
  deriving DecidableEq, Repr

structure IconRow where
  id : String
  icon : SourceAppIcon
  updatedAt : Int
  deriving DecidableEq, Repr

structure Store where
  items : List ItemRow := []
  records : List RecordRow := []
  tags : List TagRow := []
  clipTags : List ClipTag := []
  pinStates : List PinState := []
  icons : List IconRow := []
  deriving DecidableEq, Repr

/-- The identity of one stored version: the merge keys, the id and the pin state. -/
structure Version where
  id : String
  createdAt : Int
  contentHash : String
  deleted : Bool
  pinned : Bool
  pinOrder : Option PinOrder
  pinUpdatedAt : Int
  originDeviceId : String
  deriving DecidableEq, Repr

def ItemRow.toVersion (row : ItemRow) : Version where
  id := row.id
  createdAt := row.createdAt
  contentHash := row.contentHash
  deleted := row.deleted
  pinned := row.pinned
  pinOrder := row.pinOrder
  pinUpdatedAt := row.pinUpdatedAt
  originDeviceId := row.originDeviceId

/-- A record is never deleted and carries no pin state of its own. -/
def RecordRow.toVersion (row : RecordRow) : Version where
  id := row.id
  createdAt := row.createdAt
  contentHash := row.contentHash
  deleted := false
  pinned := false
  pinOrder := none
  pinUpdatedAt := 0
  originDeviceId := row.originDeviceId

/-- Both tables, items first. -/
def Store.allVersions (store : Store) : List Version :=
  store.items.map ItemRow.toVersion ++ store.records.map RecordRow.toVersion

/-- One version by its id: the first row the two tables answer with. -/
def Store.versionSummary (store : Store) (id : String) : Option Version :=
  lookup Version.id store.allVersions id

/-- The versions of a page of ids. A later row of the same id replaces an earlier
one. -/
def Store.versionSummaries (store : Store) (ids : List String) : List Version :=
  (store.allVersions.filter fun version => version.id ∈ ids).foldl (put Version.id) []

/-- One version arriving from another device, sealed under the local key. -/
structure IncomingItem where
  id : String
  payload : Option (List UInt8 × List UInt8)
  contentType : String
  contentHash : String
  createdAt : Int
  deleted : Bool
  originDeviceId : String
  appBundleId : Option String
  appName : Option String
  pinned : Bool
  pinOrder : Option PinOrder
  pinUpdatedAt : Int
  searchText : Option String
  payloadMetadata : Option String
  deriving DecidableEq, Repr

def importIdHead : String := "file-import-"

def dedupBucketMs : Int := 60000

/-- The key of a row in the dedup index, which covers the rows that are live,
hashed and not imported. The pattern of imported ids ignores case. -/
def dedupKey (id contentHash contentType : String) (createdAt : Int) (deleted : Bool)
    (originDeviceId : String) : Option (String × String × Int × String) :=
  if deleted || contentHash == "" ||
      importIdHead.toList.isPrefixOf (id.toList.map Char.toLower) then none
  else some (contentHash, contentType, createdAt.tdiv dedupBucketMs, originDeviceId)

def ItemRow.dedupKey (row : ItemRow) : Option (String × String × Int × String) :=
  Storage.dedupKey row.id row.contentHash row.contentType row.createdAt row.deleted
    row.originDeviceId

/-- Two rows the unique index does not admit together. -/
def collides (row other : ItemRow) : Bool :=
  row.dedupKey.isSome && row.dedupKey == other.dedupKey

/-- The organization's pin on a row: none on a tombstone or below a newer pin of
the row itself. -/
def PinState.onto (pin : PinState) (row : ItemRow) : ItemRow :=
  if !row.deleted ∧ row.pinUpdatedAt ≤ pin.updatedAt then
    { row with
      pinned := pin.pinned
      pinOrder := pin.pinOrder
      pinUpdatedAt := pin.updatedAt }
  else row

def Store.applyPinProjection (store : Store) (id : String) : Store :=
  match lookup PinState.clipId store.pinStates id with
  | none => store
  | some pin =>
    { store with items := store.items.map fun row => if row.id = id then pin.onto row else row }

/-- The tables behind a record's queries. -/
def Store.project (store : Store) (stamp : Int) : Record → Store
  | .tag id name deleted => { store with tags := put TagRow.id store.tags ⟨id, name, deleted⟩ }
  | .membership clipId tagId assigned =>
    { store with
      clipTags := put (fun t => (t.clipId, t.tagId)) store.clipTags ⟨clipId, tagId, assigned⟩ }
  | .pin clipId pinned order =>
    { store with pinStates := put PinState.clipId store.pinStates ⟨clipId, pinned, order, stamp⟩ }
      |>.applyPinProjection clipId

variable (host : Host)

/-- Store an organization record and project it. -/
def Store.upsertRecord (store : Store) (incoming : IncomingItem) : Store × Bool :=
  match incoming.searchText with
  | none => (store, false)
  | some text =>
    if validWire host incoming.id incoming.contentType text incoming.deleted then
      match host.parseRecord text with
      | none => (store, false)
      | some record =>
        let row : RecordRow :=
          ⟨incoming.id, incoming.payload, incoming.contentHash, incoming.createdAt,
            incoming.originDeviceId⟩
        (({ store with records := put RecordRow.id store.records row } : Store).project
          incoming.createdAt record, true)
    else (store, false)

/-- Keep the newer picture of an icon; of simultaneous ones the greater. -/
def putIcon (icons : List IconRow) (icon : IconRow) : List IconRow :=
  match lookup IconRow.id icons icon.id with
  | none => put IconRow.id icons icon
  | some known =>
    if known.updatedAt < icon.updatedAt ∨
        known.updatedAt = icon.updatedAt ∧ known.icon.pngBase64 < icon.icon.pngBase64
    then put IconRow.id icons icon else icons

def knownAsset (icons : List IconRow) (appId : Option String) : Option String := do
  let appId ← appId
  if appId = "" then none
  else (lookup IconRow.id icons ("app:" ++ appId)).map IconRow.id

/-- Move the icon out of the metadata into the shared table: the metadata left,
the icon's id and the table. -/
def normalise (icons : List IconRow) (appId : Option String) (contentType : String)
    (capturedAt : Int) (metadata : Option String) :
    Option String × Option String × List IconRow :=
  match metadata.bind fun json => PayloadMetadata.fromJson host json contentType with
  | none => (metadata, knownAsset icons appId, icons)
  | some parsed =>
    match parsed.sourceAppIcon with
    | none => (metadata, knownAsset icons appId, icons)
    | some icon =>
      let id := match appId.filter (· ≠ "") with
        | some appId => "app:" ++ appId
        | none => "png:" ++ host.sha256 ((host.png icon).getD [])
      let parsed := { parsed with sourceAppIcon := none }
      let remaining :=
        if parsed.file.isSome || parsed.credentials || !parsed.privacy.isEmpty ||
            parsed.secretOverride.isSome
        then parsed.toJson host contentType else none
      (remaining, some id, putIcon icons ⟨id, icon, capturedAt⟩)

def readMetadata (json : Option String) (contentType : String) : PayloadMetadata :=
  { (json.bind fun json => PayloadMetadata.fromJson host json contentType).getD {} with
    privacy := (json.map (PayloadMetadata.privacyFromJson host)).getD {} }

def saturatingSucc (stamp : Int) : Int := min (stamp + 1) (2 ^ 63 - 1)

/-- Merge the secrecy of the copy held under the same id and hash into an incoming
one. A choice the sender does not have restamps the version, so that it is
published back. -/
def mergeHeldPrivacy (store : Store) (incoming : IncomingItem) (metadata : Option String) :
    Option String × Int :=
  let held := (store.items.find? fun row =>
    row.id = incoming.id ∧ row.contentHash = incoming.contentHash).bind ItemRow.payloadMetadata
  let value := readMetadata host metadata incoming.contentType
  let merged := value.mergePrivacy (readMetadata host held incoming.contentType)
  (if merged = value then metadata else merged.toJson host incoming.contentType,
    if merged.secretOverride = value.secretOverride then incoming.createdAt
    else saturatingSucc incoming.createdAt)

/-- The row an item is written as, and the icons beside it. -/
def Store.rowOf (store : Store) (incoming : IncomingItem) : ItemRow × List IconRow :=
  let (metadata, iconId, icons) :=
    if incoming.deleted then (none, none, store.icons)
    else normalise host store.icons incoming.appBundleId incoming.contentType incoming.createdAt
      incoming.payloadMetadata
  let (metadata, createdAt) :=
    if incoming.deleted then (metadata, incoming.createdAt)
    else mergeHeldPrivacy host store incoming metadata
  ({  id := incoming.id
      payload := incoming.payload
      contentType := incoming.contentType
      contentHash := incoming.contentHash
      pinned := !incoming.deleted && incoming.pinned
      pinOrder := if incoming.deleted then none else incoming.pinOrder
      pinUpdatedAt := if incoming.deleted then 0 else incoming.pinUpdatedAt
      createdAt := createdAt
      deleted := incoming.deleted
      originDeviceId := incoming.originDeviceId
      appBundleId := incoming.appBundleId
      appName := incoming.appName
      payloadMetadata := metadata
      sourceIconId := iconId }, icons)

/-- Store the version that won. `false` is a refusal and changes nothing: the
dedup index holds the content under another id, or the id is a record's. -/
def Store.upsert (store : Store) (incoming : IncomingItem) : Store × Bool :=
  if incoming.contentType = recordContentType then store.upsertRecord host incoming
  else if isRecordId incoming.id then (store, false)
  else
    let (row, icons) := store.rowOf host incoming
    if store.items.any fun other => other.id ≠ incoming.id && collides row other then (store, false)
    else
      (({ store with items := put ItemRow.id store.items row, icons := icons } : Store)
        |>.applyPinProjection incoming.id, true)

/-- Several writes in one transaction, each refused or kept on its own. -/
def Store.upsertAll (store : Store) : List IncomingItem → Store × List Bool
  | [] => (store, [])
  | incoming :: rest =>
    let (store, written) := store.upsert host incoming
    let (store, writtens) := store.upsertAll rest
    (store, written :: writtens)

/-- The write of a page, refused with the versions found when they are no longer
the expected ones. -/
def Store.mergePage (store : Store) (ids : List String) (expected : List Version)
    (writes : List IncomingItem) : Except (List Version) (Store × List Bool) :=
  if store.versionSummaries ids = expected then .ok (store.upsertAll host writes)
  else .error (store.versionSummaries ids)

/-- Store a pin state without touching the content: not below the organization's
pin, and only on a live row. -/
def Store.applyPinState (store : Store) (id : String) (pinned : Bool) (pinOrder : Option PinOrder)
    (pinUpdatedAt : Int) : Store × Bool :=
  if (lookup PinState.clipId store.pinStates id).any fun pin => pinUpdatedAt ≤ pin.updatedAt then
    (store, false)
  else
    ({ store with
      items := store.items.map fun row =>
        if row.id = id ∧ !row.deleted then
          { row with pinned := pinned, pinOrder := pinOrder, pinUpdatedAt := pinUpdatedAt }
        else row },
      store.items.any fun row => row.id = id && !row.deleted)

end CopyPaste.Merge.Storage
