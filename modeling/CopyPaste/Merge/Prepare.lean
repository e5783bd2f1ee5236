import CopyPaste.Merge.Storage

/-!
Merging one remote version: the shapes that are never stored, the decision
against the local version, the sealed row, and the two entry points, with and
without the pin state a peer session carries.
-/

namespace CopyPaste.Merge.Prepare

open Lib.Rows Comparator Payload Storage Upload.Scanning

def maxContentBytes : Nat := 4 * 1024 * 1024

/-- One version of one item from another device, in the plain. -/
structure RemoteVersion where
  itemId : String
  content : String
  binaryContent : Option (List UInt8)
  payloadMetadata : Option String
  contentType : String
  createdAt : Int
  deleted : Bool
  contentHash : Option String
  originDeviceId : String
  appBundleId : Option String
  appName : Option String
  deriving DecidableEq, Repr

inductive MergeError
  | store
  | historyBusy
  | encrypt
  | tooLarge
  deriving DecidableEq, Repr

def RemoteVersion.bytes (incoming : RemoteVersion) : List UInt8 :=
  incoming.binaryContent.getD (utf8 incoming.content)

def storedSummary (host : Host) (version : Version) : ItemSummary where
  itemId := version.id
  createdAt := version.createdAt
  deleted := version.deleted
  contentHash := version.contentHash
  originDeviceId := originOr version.originDeviceId host.here
  pinned := version.pinned
  pinOrder := version.pinOrder
  pinUpdatedAt := version.pinUpdatedAt

def remoteSummary (incoming : RemoteVersion) (contentHash : String)
    (pinState : Option (Bool × Option PinOrder × Int)) : ItemSummary where
  itemId := incoming.itemId
  createdAt := incoming.createdAt
  deleted := incoming.deleted
  contentHash := contentHash
  originDeviceId := incoming.originDeviceId
  pinned := (pinState.map fun state => state.1).getD false
  pinOrder := pinState.bind fun state => state.2.1
  pinUpdatedAt := (pinState.map fun state => state.2.2).getD 0

variable (host : Host)

/-- Shapes that are never stored, whichever transport carried them. -/
def payloadIsRefused (incoming : RemoteVersion) : Bool :=
  if incoming.deleted then incoming.payloadMetadata.isSome
  else if isBinary incoming.contentType && incoming.binaryContent.isNone then true
  else
    match incoming.payloadMetadata with
    | none => incoming.contentType = fileType
    | some json =>
      match PayloadMetadata.fromJson host json incoming.contentType with
      | none => true
      | some metadata =>
        match metadata.file.bind FileMetadata.transfer with
        | none => false
        | some offer =>
          incoming.contentType ≠ fileType ||
            incoming.binaryContent.bind host.parseTransfer ≠ some offer

/-- The hash a version is compared by: a live one's is computed, a tombstone's is
the one it carries or the one of the row it deletes. -/
def remoteContentHash (incoming : RemoteVersion) (held : Option Version) : String :=
  if incoming.deleted then
    match incoming.contentHash with
    | some hash => hash
    | none => (held.map Version.contentHash).getD ""
  else host.sha256 incoming.bytes

/-- The pin state a peer session carries, and whether it beats the local one. -/
structure RemotePin where
  pinned : Bool
  pinOrder : Option PinOrder
  pinUpdatedAt : Int
  wins : Bool
  deriving DecidableEq, Repr

/-- A version the merge has decided to take, sealed and ready to write. -/
structure Prepared extends IncomingItem

def Prepared.asVersion (prepared : Prepared) : Version where
  id := prepared.id
  createdAt := prepared.createdAt
  contentHash := prepared.contentHash
  deleted := prepared.deleted
  pinned := prepared.pinned
  pinOrder := prepared.pinOrder
  pinUpdatedAt := prepared.pinUpdatedAt
  originDeviceId := originOr prepared.originDeviceId host.here

def organizationText (incoming : RemoteVersion) : Option String :=
  if incoming.contentType = recordContentType then incoming.binaryContent.bind fromUtf8
  else some incoming.content

def mergedPin (incoming : RemoteVersion) (pin : Option RemotePin) (held : Option Version) :
    Bool × Option PinOrder × Int :=
  if incoming.deleted then (false, none, 0)
  else
    match pin with
    | some ⟨pinned, pinOrder, pinUpdatedAt, true⟩ => (pinned, pinOrder, pinUpdatedAt)
    | _ =>
      match held with
      | some version => (version.pinned, version.pinOrder, version.pinUpdatedAt)
      | none => (false, none, 0)

def mergedMetadata (incoming : RemoteVersion) : Option String :=
  if incoming.deleted then none
  else
    match host.classifyCredentials incoming.contentType incoming.content with
    | some privacy =>
      let supplied := (incoming.payloadMetadata.bind fun json =>
        PayloadMetadata.fromJson host json incoming.contentType).getD
          { privacy := (incoming.payloadMetadata.map (PayloadMetadata.privacyFromJson host)).getD
              {} }
      (credentialsMetadata privacy supplied).toJson host incoming.contentType
    | none => incoming.payloadMetadata

/-- The row a version is written as once it has won. -/
def prepared (incoming : RemoteVersion) (pin : Option RemotePin) (held : Option Version) :
    Prepared where
  id := incoming.itemId
  payload :=
    if incoming.deleted then none
    else some (host.encrypt incoming.contentType incoming.itemId incoming.bytes)
  contentType := incoming.contentType
  contentHash := remoteContentHash host incoming held
  createdAt := incoming.createdAt
  deleted := incoming.deleted
  originDeviceId := incoming.originDeviceId
  appBundleId := incoming.appBundleId
  appName := incoming.appName
  pinned := (mergedPin incoming pin held).1
  pinOrder := (mergedPin incoming pin held).2.1
  pinUpdatedAt := (mergedPin incoming pin held).2.2
  searchText :=
    if incoming.contentType = recordContentType then organizationText incoming
    else if incoming.deleted || isBinary incoming.contentType then none
    else some incoming.content
  payloadMetadata := mergedMetadata host incoming

/-- Whether the local version keeps its place. -/
def keepsLocal (incoming : RemoteVersion) (pin : Option RemotePin) (held : Option Version) :
    Bool :=
  held.any fun version =>
    mergeDecision (storedSummary host version) (originOr version.originDeviceId host.here)
      (remoteSummary incoming (remoteContentHash host incoming held)
        (pin.map fun state => (state.pinned, state.pinOrder, state.pinUpdatedAt)))
      incoming.originDeviceId = .keepLocal

/-- Run the comparator and seal the winner; nothing is to be written when the
local version wins. -/
def prepareRemoteVersion (incoming : RemoteVersion) (pin : Option RemotePin)
    (held : Option Version) : Except MergeError (Option Prepared) :=
  if !(organizationText incoming).any fun text =>
      validWire host incoming.itemId incoming.contentType text incoming.deleted then .ok none
  else if !incoming.deleted && maxContentBytes < incoming.bytes.length then .error .tooLarge
  else if keepsLocal host incoming pin held then .ok none
  else .ok (some (prepared host incoming pin held))

/-- Decide one version against the local one and write the winner. -/
def applyRemoteVersionWithPinState (store : Store) (incoming : RemoteVersion)
    (pin : Option RemotePin) (held : Option Version) : Except MergeError (Store × Bool) := do
  match ← prepareRemoteVersion host incoming pin held with
  | none => return (store, false)
  | some prepared => return store.upsert host prepared.toIncomingItem

/-- Merge one remote version into the local history. -/
def applyRemoteVersion (store : Store) (incoming : RemoteVersion) :
    Except MergeError (Store × Bool) :=
  if payloadIsRefused host incoming then .ok (store, false)
  else applyRemoteVersionWithPinState host store incoming none (store.versionSummary incoming.itemId)

structure P2pPin where
  pinned : Bool
  pinOrder : Option PinOrder
  pinUpdatedAt : Int
  deriving DecidableEq, Repr

/-- The outcomes of a merge: whether the content and whether the pin was stored. -/
structure P2pApply where
  content : Bool
  pin : Bool
  deriving DecidableEq, Repr

def P2pApply.any (applied : P2pApply) : Bool :=
  applied.content || applied.pin

/-- Whether the pin state of a live version beats the local one. -/
def remotePinWins (incoming : RemoteVersion) (pin : P2pPin) (held : Option Version) : Bool :=
  !incoming.deleted && held.all fun version =>
    pinStateWins (storedSummary host version)
      { itemId := incoming.itemId
        createdAt := incoming.createdAt
        deleted := incoming.deleted
        contentHash := ""
        originDeviceId := incoming.originDeviceId
        pinned := pin.pinned
        pinOrder := pin.pinOrder
        pinUpdatedAt := pin.pinUpdatedAt }

def P2pPin.against (pin : P2pPin) (incoming : RemoteVersion) (held : Option Version) : RemotePin :=
  ⟨pin.pinned, pin.pinOrder, pin.pinUpdatedAt, remotePinWins host incoming pin held⟩

def applyRemoteP2pVersionWithPinStamp (store : Store) (incoming : RemoteVersion) (pin : P2pPin) :
    Except MergeError (Store × P2pApply) := do
  let held := store.versionSummary incoming.itemId
  let (store, content) ←
    if payloadIsRefused host incoming then pure (store, false)
    else
      applyRemoteVersionWithPinState host store incoming (some (pin.against host incoming held)) held
  if !content && remotePinWins host incoming pin held then
    let (store, pin) := store.applyPinState incoming.itemId pin.pinned pin.pinOrder pin.pinUpdatedAt
    return (store, ⟨content, pin⟩)
  else return (store, ⟨content, false⟩)

/-- A live text version, and the row the sample host keeps of one. -/
def sampleVersion (itemId content : String) (createdAt : Int) : RemoteVersion where
  itemId := itemId
  content := content
  binaryContent := none
  payloadMetadata := none
  contentType := "text"
  createdAt := createdAt
  deleted := false
  contentHash := none
  originDeviceId := "phone"
  appBundleId := none
  appName := none

def sampleRow (id content : String) (createdAt : Int) (payloadMetadata : Option String) :
    ItemRow where
  id := id
  payload := some ([], utf8 content)
  contentType := "text"
  contentHash := content
  pinned := false
  pinOrder := none
  pinUpdatedAt := 0
  createdAt := createdAt
  deleted := false
  originDeviceId := "phone"
  appBundleId := none
  appName := none
  payloadMetadata := payloadMetadata
  sourceIconId := none

end CopyPaste.Merge.Prepare
