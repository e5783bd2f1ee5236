import CopyPaste.Files.Complete

/-!
Captures. One text, one image or one file comes into the history: as a new row, or by
raising the row that holds the same representation already. Copying an item back, and a
choice about its secrecy, move its stamp as well; every one of these writes passes the
unique index over contents and minutes.
-/

namespace CopyPaste.History.Ingest

open Lib.Rows Merge.Payload Merge.Storage Files.Tables Files.Reseal Files.Bodies

inductive StoreError
  | constraint
  | invalidPayload
  | notFound
  deriving DecidableEq, Repr

inductive IngestError
  | empty
  | tooLarge
  | crypto
  | invalidMetadata
  | storage (error : StoreError)
  deriving DecidableEq, Repr

/-- A capture on its way to the store, sealed under its own id. -/
structure Capture where
  id : String
  payload : List UInt8 × List UInt8
  contentType : String
  contentHash : String
  createdAt : Int
  appBundleId : Option String
  appName : Option String
  payloadMetadata : Option String
  searchText : Option String

/-- The order of a history: the newer row, and of simultaneous ones the greater id. -/
def comesFirst (row other : ItemRow) : Bool :=
  decide (other.createdAt < row.createdAt) ||
    decide (other.createdAt = row.createdAt) && decide (other.id < row.id)

def newest : List ItemRow → Option ItemRow
  | [] => none
  | row :: rest =>
    match newest rest with
    | none => some row
    | some other => if comesFirst row other then some row else some other

def newestLiveWithRepresentation (store : Store) (contentHash contentType : String) :
    Option ItemRow :=
  if contentHash = "" then none
  else newest (store.items.filter fun row =>
    row.contentHash = contentHash ∧ row.contentType = contentType ∧ row.deleted = false)

def findInBucket (store : Store) (contentHash contentType : String) (createdAt : Int) :
    Option ItemRow :=
  if contentHash = "" then none
  else newest (store.items.filter fun row =>
    row.contentHash = contentHash ∧ row.contentType = contentType ∧
      row.createdAt.tdiv dedupBucketMs = createdAt.tdiv dedupBucketMs ∧ row.deleted = false)

def writeRow (store : Store) (row : ItemRow) : Except StoreError Store :=
  (updateRow store row).mapError fun _ => .constraint

/-- Raise a row. A stamp that lands where the index has another row is left alone. -/
def bumpInTx (store : Store) (existing : ItemRow) (createdAt : Int)
    (appBundleId appName sourceIconId : Option String) : Store × ItemRow :=
  if createdAt ≤ existing.createdAt then (store, existing)
  else
    let bumped := { existing with createdAt, appBundleId, appName, sourceIconId }
    match writeRow store bumped with
    | .ok store => (store, bumped)
    | .error _ => (store, existing)

def releaseUnused (store : Store) (iconId : Option String) : Store :=
  { store with
    icons := store.icons.filter fun icon =>
      ¬ (some icon.id = iconId ∧ ∀ row ∈ store.items, row.sourceIconId ≠ iconId) }

variable (host : Host)

def clipboardPrivacy (row : ItemRow) : ClipboardPrivacy :=
  (row.payloadMetadata.map (PayloadMetadata.privacyFromJson host)).getD {}

def parsedMetadata (row : ItemRow) : Option PayloadMetadata :=
  row.payloadMetadata.bind fun json => PayloadMetadata.fromJson host json row.contentType

/-- The restrictions of a row and of a capture of its content together; the user's own
choice about secrecy stands. -/
def combinedPrivacy (row : ItemRow) (privacy : ClipboardPrivacy) : ClipboardPrivacy :=
  let combined := (clipboardPrivacy host row).union privacy
  match (parsedMetadata host row).bind PayloadMetadata.secretOverride with
  | some choice => { combined with secret := choice.secret }
  | none => combined

/-- Metadata that is not recognised is written anew when the text is at hand. -/
def repairsText (row : ItemRow) (searchText : Option String) : Bool :=
  row.payloadMetadata.isSome && (parsedMetadata host row).isNone && searchText.isSome

/-- The row a capture of its content leaves, and none when it changes nothing. -/
def refreshedRow (row : ItemRow) (privacy : ClipboardPrivacy) (credentials : Bool)
    (searchText : Option String) : Option ItemRow :=
  let combined := combinedPrivacy host row privacy
  let repair := repairsText host row searchText
  if combined.isEmpty && !repair && !credentials then none
  else
    let metadata := (parsedMetadata host row).getD {}
    let refreshed :=
      { metadata with credentials := metadata.credentials || credentials, privacy := combined }
    some { row with
      payloadMetadata := refreshed.toJson host row.contentType
      createdAt :=
        if combined ≠ clipboardPrivacy host row ∨ repair ∨
            refreshed.credentials ≠ metadata.credentials then saturatingSucc row.createdAt
        else row.createdAt }

def refreshPrivacy (store : Store) (row : ItemRow) (privacy : ClipboardPrivacy)
    (credentials : Bool) (searchText : Option String) : Except StoreError (Store × ItemRow) :=
  match refreshedRow host row privacy credentials searchText with
  | none => .ok (store, row)
  | some refreshed => do
    let store ← writeRow store refreshed
    return (store, refreshed)

inductive Ingested
  | stored (row : ItemRow)
  | duplicate (row : ItemRow)

def Ingested.intoItem : Ingested → ItemRow
  | .stored row => row
  | .duplicate row => row

def Capture.privacy (item : Capture) : ClipboardPrivacy :=
  (item.payloadMetadata.map (PayloadMetadata.privacyFromJson host)).getD {}

def Capture.credentials (item : Capture) : Bool :=
  (item.payloadMetadata.bind fun json =>
    PayloadMetadata.fromJson host json item.contentType).any PayloadMetadata.credentials

/-- The text a capture is found by: none of a secret. -/
def Capture.indexed (item : Capture) : Option String :=
  item.searchText.filter fun text =>
    isText item.contentType && !(item.privacy host).secret && !(trim text.toList).isEmpty

def Capture.row (item : Capture) (metadata sourceIconId : Option String) : ItemRow where
  id := item.id
  payload := some item.payload
  contentType := item.contentType
  contentHash := item.contentHash
  pinned := false
  pinOrder := none
  pinUpdatedAt := 0
  createdAt := item.createdAt
  deleted := false
  originDeviceId := ""
  appBundleId := item.appBundleId
  appName := item.appName
  payloadMetadata := metadata
  sourceIconId := sourceIconId

/-- Raise the row that has the content already: the store, the row, and whether its
version changed. -/
def bumpExisting (store : Store) (item : Capture) (existing : ItemRow) (iconId : Option String) :
    Except StoreError (Store × Ingested × Bool) := do
  let (store, bumped) :=
    bumpInTx store existing item.createdAt item.appBundleId item.appName iconId
  let (store, bumped) ←
    refreshPrivacy host store bumped (item.privacy host) (item.credentials host)
      (item.indexed host)
  return (releaseUnused store iconId, .duplicate bumped,
    bumped.createdAt ≠ existing.createdAt || bumped.payloadMetadata ≠ existing.payloadMetadata)

/-- Store a capture, or raise the row that holds this representation. -/
def insertOrBump (store : Store) (item : Capture) :
    Except StoreError (Store × Ingested × Bool) :=
  let (metadata, iconId, icons) :=
    normalise host store.icons item.appBundleId item.contentType item.createdAt
      item.payloadMetadata
  let store := { store with icons := icons }
  match newestLiveWithRepresentation store item.contentHash item.contentType with
  | some existing => bumpExisting host store item existing iconId
  | none =>
    let row := item.row metadata iconId
    match insertRow store row with
    | .ok store => .ok (store, .stored row, true)
    | .error _ =>
      -- The row that won a race for the bucket is looked for, and there is none.
      match findInBucket store item.contentHash item.contentType item.createdAt with
      | some existing => bumpExisting host store item existing iconId
      | none => .error .constraint

/-- The stamp a copied row rises to: above itself and above the newest row that is not
pinned. -/
def copiedStamp (store : Store) (row : ItemRow) (copiedAt : Int) : Int :=
  max copiedAt (max (saturatingSucc row.createdAt)
    (match newest (store.items.filter fun row => row.deleted = false ∧ row.pinned = false) with
    | some top => saturatingSucc top.createdAt
    | none => copiedAt))

def promoteCopied (store : Store) (id : String) (copiedAt : Int) :
    Except StoreError (Store × Option Int) :=
  match liveRow store id with
  | none => .ok (store, none)
  | some row => do
    let promoted := { row with createdAt := copiedStamp store row copiedAt }
    let store ← writeRow store promoted
    return (store, some promoted.createdAt)

/-- The stamp of a choice about secrecy: above the row and above the choice before. -/
def choiceStamp (row : ItemRow) (now : Int) : Int :=
  max (max now (saturatingSucc row.createdAt))
    (((parsedMetadata host row).bind PayloadMetadata.secretOverride).elim 0
      fun choice => saturatingSucc choice.updatedAt)

/-- The row a choice about secrecy leaves; its metadata has to have room, and a text that
becomes public to open. -/
def secretRow (vault : Vault) (row : ItemRow) (secret : Bool) (now : Int) :
    Except StoreError ItemRow :=
  let stamp := choiceStamp host row now
  let metadata :=
    { (parsedMetadata host row).getD {} with
      privacy := { clipboardPrivacy host row with secret := secret }
      secretOverride := some ⟨stamp, secret⟩ }
  match metadata.toJson host row.contentType with
  | none => .error .invalidPayload
  | some json =>
    if !secret && isText row.contentType &&
        ((row.payload.bind fun payload => vault.decrypt payload.2 payload.1 row.id).bind
          fromUtf8).isNone then .error .invalidPayload
    else .ok { row with payloadMetadata := some json, createdAt := stamp }

def setSecret (vault : Vault) (store : Store) (id : String) (secret : Bool) (now : Int) :
    Except StoreError (Store × Bool) :=
  match liveRow store id with
  | none => .ok (store, false)
  | some row => do
    let row ← secretRow host vault row secret now
    let store ← writeRow store row
    return (store, true)

/-- The sizes a user admits. -/
structure ConfigData where
  maxTextSizeBytes : Nat
  maxImageSizeBytes : Nat
  maxFileSizeBytes : Nat

def maxFileSizeBytes : Nat := 20 * 1024 * 1024 * 1024

def ConfigData.captureLimitBytes (settings : ConfigData) (contentType : String) : Nat :=
  if isText contentType then min settings.maxTextSizeBytes Merge.Prepare.maxContentBytes
  else if isImage contentType then min settings.maxImageSizeBytes Merge.Prepare.maxContentBytes
  else if contentType = fileType then min settings.maxFileSizeBytes Ingest.maxFileSizeBytes
  else min settings.maxFileSizeBytes Merge.Prepare.maxContentBytes

variable (renderFile : FileMetadata → String)

/-- The metadata of a capture as JSON. A file without an icon is written flat. -/
def encodePayloadMetadata (metadata : Option PayloadMetadata) (contentType : String) :
    Except IngestError (Option String) :=
  match metadata with
  | none => .ok none
  | some metadata =>
    let json := match metadata.sourceAppIcon, metadata.file with
      | none, some file => (some (renderFile file)).filter fun json =>
        json.utf8ByteSize ≤ maxSyncMetadataBytes ∧
          (PayloadMetadata.fromJson host json contentType).isSome
      | _, _ => metadata.toJson host contentType
    match json with
    | none => .error .invalidMetadata
    | some json => .ok (some json)

/-- Where a capture comes from and what is known of it. -/
structure Source where
  createdAt : Int
  appBundleId : Option String
  appName : Option String
  metadata : Option PayloadMetadata

/-- What credentials in a text add to its metadata. -/
def classified (content contentType : String) (metadata : Option PayloadMetadata) :
    Option PayloadMetadata :=
  match host.classifyCredentials contentType content with
  | some privacy => some (credentialsMetadata privacy (metadata.getD {}))
  | none => metadata

def textCapture (content contentType id : String) (source : Source)
    (payloadMetadata : Option String) : Capture where
  id := id
  payload := host.encrypt contentType id (utf8 content)
  contentType := contentType
  contentHash := host.sha256 (utf8 content)
  createdAt := source.createdAt
  appBundleId := source.appBundleId
  appName := source.appName
  payloadMetadata := payloadMetadata
  searchText := if isText contentType then some content else none

/-- Store one text under an id that was drawn for it. -/
def ingestText (store : Store) (settings : ConfigData) (content contentType id : String)
    (source : Source) : Except IngestError (Store × Ingested × Bool) :=
  if (trim content.toList).isEmpty then .error .empty
  else if settings.captureLimitBytes contentType < content.utf8ByteSize then .error .tooLarge
  else do
    let payloadMetadata ← encodePayloadMetadata host renderFile
      (classified host content contentType source.metadata) contentType
    (insertOrBump host store (textCapture host content contentType id source
      payloadMetadata)).mapError .storage

def uuidText (digest : String) : String :=
  let digits := digest.toList
  String.ofList (digits.take 8 ++ '-' :: (digits.drop 8).take 4 ++ '-' :: (digits.drop 12).take 4 ++
    '-' :: (digits.drop 16).take 4 ++ '-' :: (digits.drop 20).take 12)

/-- The id of a captured representation: of its bytes and its type alone. -/
def captureItemId (vault : Vault) (bytes : List UInt8) (contentType : String) : String :=
  uuidText (host.sha256 (utf8 "copypaste/v2/binary-capture-id|" ++
    toBigEndian 8 contentType.utf8ByteSize ++ utf8 contentType ++ vault.digest bytes))

def binaryCapture (vault : Vault) (bytes : List UInt8) (contentType : String) (source : Source)
    (payloadMetadata : Option String) : Capture :=
  let id := captureItemId host vault bytes contentType
  { id
    payload := host.encrypt contentType id bytes
    contentType
    contentHash := host.sha256 bytes
    createdAt := source.createdAt
    appBundleId := source.appBundleId
    appName := source.appName
    payloadMetadata
    searchText := none }

/-- Store one image or other binary value. The limit of a file may be above what is sealed. -/
def ingestBinary (vault : Vault) (store : Store) (settings : ConfigData) (bytes : List UInt8)
    (contentType : String) (source : Source) : Except IngestError (Store × Ingested × Bool) :=
  if bytes = [] then .error .empty
  else if isText contentType then .error .empty
  else if settings.captureLimitBytes contentType < bytes.length then .error .tooLarge
  else do
    let payloadMetadata ← encodePayloadMetadata host renderFile source.metadata contentType
    if Merge.Prepare.maxContentBytes < bytes.length then throw .crypto
    (insertOrBump host store (binaryCapture host vault bytes contentType source
      payloadMetadata)).mapError .storage

structure Reference where
  reference : String
  sizeBytes : Nat
  modified : Option String

/-- The item that already refers to this file as it is. -/
def referringItem (disk : Disk) (file : Reference) : Option ItemRow :=
  newest (disk.store.items.filter fun row =>
    row.deleted = false ∧ ∃ held ∈ disk.files.references, held.itemId = row.id ∧
      held.reference = file.reference ∧ held.sizeBytes = file.sizeBytes ∧
      held.modified = file.modified)

/-- The metadata a reference copied again is kept with: the offer stays the one that was
authenticated. -/
def recopiedMetadata (item : NewItem) (previous : Option String) : Option String :=
  match item.payloadMetadata.bind fun json => PayloadMetadata.fromJson host json fileType,
    previous.bind fun json => PayloadMetadata.fromJson host json fileType with
  | some next, some previous =>
    let merged := next.mergePrivacy previous
    PayloadMetadata.toJson host { merged with
      file := match merged.file, previous.file with
        | some file, some held => some { file with transfer := held.transfer }
        | file, _ => file } fileType
  | _, _ => item.payloadMetadata

def recopiedRow (item : NewItem) (row : ItemRow) : ItemRow :=
  { row with
    createdAt := max (row.createdAt + 1) item.createdAt
    appBundleId := item.appBundleId
    appName := item.appName
    payloadMetadata := recopiedMetadata host item row.payloadMetadata }

def insertFileReference (disk : Disk) (item : NewItem) (file : Reference) (deduplicate : Bool) :
    Except StoreError (Disk × Ingested) :=
  match (referringItem disk file).filter fun _ => deduplicate with
  | some row => do
    let recopied := recopiedRow host item row
    let store ← writeRow disk.store recopied
    return (disk.settle store, .duplicate recopied)
  | none => do
    let store ← (insertRow disk.store item.row).mapError fun _ => .constraint
    if disk.files.references.any fun held => held.itemId = item.id then throw .constraint
    else
      let disk := disk.settle store
      return ({ disk with files := { disk.files with
        references := disk.files.references ++
          [⟨item.id, file.reference, file.sizeBytes, file.modified⟩] } }, .stored item.row)

end CopyPaste.History.Ingest
