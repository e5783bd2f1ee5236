import CopyPaste.Lib.JsonFields
import CopyPaste.Peer.Transfer
import CopyPaste.Peers.Group
import Mathlib

/-!
The messages of a peer connection and their JSON forms: the fields under their names on
the wire, those that are left out, those with a default, and a device profile whose
newer platform travels beside an older one.
-/

namespace CopyPaste.Wire.Messages

open Lib.JsonText Lib.JsonFields Merge.Comparator Merge.Payload Peer.Transfer Peers.Group

inductive SyncMessage
  | group (protocolVersion : ℕ) (snapshot : GroupSnapshot)
  | probe (protocolVersion nonce : ℕ) (profile : Option DeviceProfile)
  | probeAck (protocolVersion nonce : ℕ) (profile : Option DeviceProfile)
  | hello (protocolVersion : ℕ) (deviceId deviceName : String) (profile : Option DeviceProfile)
      (listenAddr : Option String) (sinceMs : Int)
  | summary (items : List ItemSummary) (more : Bool)
  | request (itemIds : List String)
  | items (items : List SyncItem)
  | fileRequest (protocolVersion : ℕ) (itemId sha256 : String) (size index : ℕ)
  | fileChunk (index : ℕ) (bytes : List UInt8)
  | fileUnavailable (reason : String)
  | fileChecksum (sha256 : String)
  | done

/-- How addresses are spelled, and the double nearest to a whole number. -/
structure Spelling where
  display : SocketAddr → String
  parseAddr : String → Option SocketAddr
  nearest : Int → Int
  parse_display : ∀ ip port,
    (∀ segments, ip = .v6 segments → segments.length = 8) →
      parseAddr (display ⟨ip, port⟩) = some ⟨ip, port⟩
  parse_segments : ∀ text segments port,
    parseAddr text = some ⟨.v6 segments, port⟩ → segments.length = 8

variable (spelling : Spelling)

def asI64 : Json → Option Int :=
  asWhole (-2 ^ 63) (2 ^ 63)

def asU32 : Json → Option ℕ :=
  asNat (2 ^ 32)

def asU64 : Json → Option ℕ :=
  asNat (2 ^ 64)

def ofNat (value : ℕ) : Json :=
  ofWhole value

def ofByte (byte : UInt8) : Json :=
  ofNat byte.toNat

def asByte (value : Json) : Option UInt8 :=
  (asNat 256 value).map UInt8.ofNat

def writeSummary (summary : ItemSummary) : Json :=
  .object [("item_id", .string summary.itemId), ("created_at", ofWhole summary.createdAt),
    ("deleted", .bool summary.deleted), ("content_hash", .string summary.contentHash),
    ("origin_device_id", .string summary.originDeviceId), ("pinned", .bool summary.pinned),
    ("pin_order", ofOption ofDouble summary.pinOrder),
    ("pin_updated_at", ofWhole summary.pinUpdatedAt)]

def summaryNames : List String :=
  ["item_id", "created_at", "deleted", "content_hash", "origin_device_id", "pinned", "pin_order",
    "pin_updated_at"]

def readSummary (value : Json) : Option ItemSummary := do
  let fields ← structFields summaryNames 7 value
  let itemId ← required asString fields "item_id"
  let createdAt ← required asI64 fields "created_at"
  let deleted ← required asBool fields "deleted"
  let contentHash ← required asString fields "content_hash"
  let originDeviceId ← required asString fields "origin_device_id"
  let pinned ← required asBool fields "pinned"
  let pinOrder ← optionField (asDouble spelling.nearest) fields "pin_order"
  let pinUpdatedAt ← withDefault 0 asI64 fields "pin_updated_at"
  return { itemId, createdAt, deleted, contentHash, originDeviceId, pinned, pinOrder, pinUpdatedAt }

def itemFields (item : SyncItem) : List (String × Json) :=
  [("item_id", .string item.itemId)] ++
    present "payload_metadata" .string item.payloadMetadata ++
    present "source_app_bundle_id" .string item.sourceAppBundleId ++
    present "source_app_name" .string item.sourceAppName ++
    [("content_type", .string item.contentType), ("created_at", ofWhole item.createdAt),
      ("deleted", .bool item.deleted), ("content_hash", .string item.contentHash),
      ("origin_device_id", .string item.originDeviceId), ("pinned", .bool item.pinned),
      ("pin_order", ofOption ofDouble item.pinOrder),
      ("pin_updated_at", ofWhole item.pinUpdatedAt)]

def writeItem (item : SyncItem) : Json :=
  .object (itemFields item)

def itemNames : List String :=
  ["item_id", "payload_metadata", "source_app_bundle_id", "source_app_name", "content_type",
    "created_at", "deleted", "content_hash", "origin_device_id", "pinned", "pin_order",
    "pin_updated_at"]

def readItem (value : Json) : Option SyncItem := do
  let fields ← structFields itemNames 11 value
  let itemId ← required asString fields "item_id"
  let payloadMetadata ← optionField asString fields "payload_metadata"
  let sourceAppBundleId ← optionField asString fields "source_app_bundle_id"
  let sourceAppName ← optionField asString fields "source_app_name"
  let contentType ← required asString fields "content_type"
  let createdAt ← required asI64 fields "created_at"
  let deleted ← required asBool fields "deleted"
  let contentHash ← required asString fields "content_hash"
  let originDeviceId ← required asString fields "origin_device_id"
  let pinned ← required asBool fields "pinned"
  let pinOrder ← optionField (asDouble spelling.nearest) fields "pin_order"
  let pinUpdatedAt ← withDefault 0 asI64 fields "pin_updated_at"
  return ⟨itemId, "", [], payloadMetadata, sourceAppBundleId, sourceAppName, contentType, createdAt,
    deleted, contentHash, originDeviceId, pinned, pinOrder, pinUpdatedAt⟩

/-- The item without its payload, as the header has it. -/
def bare (item : SyncItem) : SyncItem :=
  { item with content := "", binaryContent := [] }

def platformNames : List (String × DevicePlatform) :=
  [("macos", .macos), ("windows", .windows), ("android", .android), ("unknown", .unknown),
    ("linux", .linux)]

def platformName : DevicePlatform → String
  | .macos => "macos"
  | .windows => "windows"
  | .android => "android"
  | .unknown => "unknown"
  | .linux => "linux"

def classNames : List (String × DeviceClass) :=
  [("desktop", .desktop), ("laptop", .laptop), ("phone", .phone), ("tablet", .tablet),
    ("unknown", .unknown)]

def className : DeviceClass → String
  | .desktop => "desktop"
  | .laptop => "laptop"
  | .phone => "phone"
  | .tablet => "tablet"
  | .unknown => "unknown"

/-- The platform as older builds know it, and what it is beside that. -/
def wirePlatform : DevicePlatform → DevicePlatform × Option String
  | .linux => (.unknown, some "linux")
  | platform => (platform, none)

def ofWirePlatform (platform : DevicePlatform) (detail : Option String) : DevicePlatform :=
  if platform = .unknown ∧ detail = some "linux" then .linux else platform

def profileFields (profile : DeviceProfile) : List (String × Json) :=
  [("app_version", ofOption .string profile.appVersion),
    ("protocol_version", ofOption ofNat profile.protocolVersion),
    ("platform", .string (platformName (wirePlatform profile.platform).1))] ++
    present "platform_detail" .string (wirePlatform profile.platform).2 ++
    [("device_class", .string (className profile.deviceClass)),
      ("os_name", ofOption .string profile.osName),
      ("os_version", ofOption .string profile.osVersion),
      ("model", ofOption .string profile.model)]

def writeProfile (profile : DeviceProfile) : Json :=
  .object (profileFields profile)

def profileNames : List String :=
  ["app_version", "protocol_version", "platform", "platform_detail", "device_class", "os_name",
    "os_version", "model"]

def readProfile (value : Json) : Option DeviceProfile := do
  let fields ← structFields profileNames 8 value
  let appVersion ← optionField asString fields "app_version"
  let protocolVersion ← optionField asU32 fields "protocol_version"
  let platform ← required (asName platformNames) fields "platform"
  let detail ← optionField asString fields "platform_detail"
  let deviceClass ← required (asName classNames) fields "device_class"
  let osName ← optionField asString fields "os_name"
  let osVersion ← optionField asString fields "os_version"
  let model ← optionField asString fields "model"
  return ⟨appVersion, protocolVersion, ofWirePlatform platform detail, deviceClass, osName,
    osVersion, model⟩

def asKey (value : Json) : Option Bytes := do
  let bytes ← asList asByte value
  if bytes.length = 32 then some bytes else none

def ofAddr (addr : SocketAddr) : Json :=
  .string (spelling.display addr)

def asAddr (value : Json) : Option SocketAddr :=
  (asString value).bind spelling.parseAddr

def memberFields (member : Member) : List (String × Json) :=
  [("device_id", .string member.deviceId), ("name", .string member.name),
    ("signing_key", ofList ofByte member.signingKey),
    ("exchange_key", ofList ofByte member.exchangeKey), ("admission", ofNat member.admission),
    ("revision", ofNat member.revision), ("profile", writeProfile member.profile),
    ("listen_addr", ofOption (ofAddr spelling) member.listenAddr)]

def writeMember (member : Member) : Json :=
  .object (memberFields spelling member)

def memberNames : List String :=
  ["device_id", "name", "signing_key", "exchange_key", "admission", "revision", "profile",
    "listen_addr"]

def readMember (value : Json) : Option Member := do
  let fields ← onlyFields memberNames value
  let deviceId ← required asString fields "device_id"
  let name ← required asString fields "name"
  let signingKey ← required asKey fields "signing_key"
  let exchangeKey ← required asKey fields "exchange_key"
  let admission ← required asU64 fields "admission"
  let revision ← required asU64 fields "revision"
  let profile ← required readProfile fields "profile"
  let listenAddr ← optionField (asAddr spelling) fields "listen_addr"
  return { deviceId, name, signingKey, exchangeKey, admission, revision, profile, listenAddr }

def writeRoster (roster : Roster) : Json :=
  .object [("issuer", .string roster.issuer),
    ("members", ofTable (writeMember spelling) roster.members),
    ("removed", ofTable ofNat roster.removed)]

def readRoster (value : Json) : Option Roster := do
  let fields ← onlyFields ["issuer", "members", "removed"] value
  let issuer ← required asString fields "issuer"
  let members ← required (asTable (readMember spelling)) fields "members"
  let removed ← required (asTable asU64) fields "removed"
  return { issuer, members, removed }

def writeSnapshot (snapshot : GroupSnapshot) : Json :=
  .object [("roster", writeRoster spelling snapshot.roster),
    ("signature", .string snapshot.signature)]

def readSnapshot (value : Json) : Option GroupSnapshot := do
  let fields ← onlyFields ["roster", "signature"] value
  let roster ← required (readRoster spelling) fields "roster"
  let signature ← required asString fields "signature"
  return { roster, signature }

/-- The messages that have a JSON form. -/
inductive Kind
  | group
  | probe
  | probeAck
  | hello
  | summary
  | request
  | fileRequest
  | fileChunk
  | fileUnavailable
  | fileChecksum
  | done
  deriving DecidableEq, Repr

def Kind.name : Kind → String
  | .group => "group"
  | .probe => "probe"
  | .probeAck => "probe_ack"
  | .hello => "hello"
  | .summary => "summary"
  | .request => "request"
  | .fileRequest => "file_request"
  | .fileChunk => "file_chunk"
  | .fileUnavailable => "file_unavailable"
  | .fileChecksum => "file_checksum"
  | .done => "done"

def kinds : List Kind :=
  [.group, .probe, .probeAck, .hello, .summary, .request, .fileRequest, .fileChunk,
    .fileUnavailable, .fileChecksum, .done]

/-- The kind and the fields of a message. The items have no JSON form. -/
def messageFields : SyncMessage → Option (Kind × List (String × Json))
  | .group protocolVersion snapshot =>
    some (.group, [("protocol_version", ofNat protocolVersion),
      ("snapshot", writeSnapshot spelling snapshot)])
  | .probe protocolVersion nonce profile =>
    some (.probe, [("protocol_version", ofNat protocolVersion), ("nonce", ofNat nonce)] ++
      present "profile" writeProfile profile)
  | .probeAck protocolVersion nonce profile =>
    some (.probeAck, [("protocol_version", ofNat protocolVersion), ("nonce", ofNat nonce)] ++
      present "profile" writeProfile profile)
  | .hello protocolVersion deviceId deviceName profile listenAddr sinceMs =>
    some (.hello, [("protocol_version", ofNat protocolVersion), ("device_id", .string deviceId),
      ("device_name", .string deviceName)] ++ present "profile" writeProfile profile ++
      present "listen_addr" .string listenAddr ++ [("since_ms", ofWhole sinceMs)])
  | .summary items more =>
    some (.summary, [("items", ofList writeSummary items), ("more", .bool more)])
  | .request itemIds => some (.request, [("item_ids", ofList .string itemIds)])
  | .items _ => none
  | .fileRequest protocolVersion itemId sha256 size index =>
    some (.fileRequest, [("protocol_version", ofNat protocolVersion), ("item_id", .string itemId),
      ("sha256", .string sha256), ("size", ofNat size), ("index", ofNat index)])
  | .fileChunk index bytes =>
    some (.fileChunk, [("index", ofNat index), ("bytes", ofList ofByte bytes)])
  | .fileUnavailable reason => some (.fileUnavailable, [("reason", .string reason)])
  | .fileChecksum sha256 => some (.fileChecksum, [("sha256", .string sha256)])
  | .done => some (.done, [])

def writeMessage (message : SyncMessage) : Option Json :=
  (messageFields spelling message).map fun (kind, fields) =>
    .object (("t", .string kind.name) :: fields)

def readProbe (value : Json) : Option (ℕ × ℕ × Option DeviceProfile) := do
  let fields ← structFields ["protocol_version", "nonce", "profile"] 2 value
  let protocolVersion ← required asU32 fields "protocol_version"
  let nonce ← required asU64 fields "nonce"
  let profile ← optionField readProfile fields "profile"
  return (protocolVersion, nonce, profile)

def readGroup (value : Json) : Option SyncMessage := do
  let fields ← structFields ["protocol_version", "snapshot"] 2 value
  let protocolVersion ← required asU32 fields "protocol_version"
  let snapshot ← required (readSnapshot spelling) fields "snapshot"
  return .group protocolVersion snapshot

def helloNames : List String :=
  ["protocol_version", "device_id", "device_name", "profile", "listen_addr", "since_ms"]

def readHello (value : Json) : Option SyncMessage := do
  let fields ← structFields helloNames 3 value
  let protocolVersion ← required asU32 fields "protocol_version"
  let deviceId ← required asString fields "device_id"
  let deviceName ← required asString fields "device_name"
  let profile ← optionField readProfile fields "profile"
  let listenAddr ← optionField asString fields "listen_addr"
  let sinceMs ← withDefault 0 asI64 fields "since_ms"
  return .hello protocolVersion deviceId deviceName profile listenAddr sinceMs

def readPage (value : Json) : Option SyncMessage := do
  let fields ← structFields ["items", "more"] 2 value
  let items ← required (asList (readSummary spelling)) fields "items"
  let more ← required asBool fields "more"
  return .summary items more

def readRequest (value : Json) : Option SyncMessage := do
  let fields ← structFields ["item_ids"] 1 value
  let itemIds ← required (asList asString) fields "item_ids"
  return .request itemIds

def fileRequestNames : List String :=
  ["protocol_version", "item_id", "sha256", "size", "index"]

def readFileRequest (value : Json) : Option SyncMessage := do
  let fields ← structFields fileRequestNames 5 value
  let protocolVersion ← required asU32 fields "protocol_version"
  let itemId ← required asString fields "item_id"
  let sha256 ← required asString fields "sha256"
  let size ← required asU64 fields "size"
  let index ← required asU64 fields "index"
  return .fileRequest protocolVersion itemId sha256 size index

def readFileChunk (value : Json) : Option SyncMessage := do
  let fields ← structFields ["index", "bytes"] 2 value
  let index ← required asU64 fields "index"
  let bytes ← required (asList asByte) fields "bytes"
  return .fileChunk index bytes

def readTextMessage (name : String) (message : String → SyncMessage) (value : Json) :
    Option SyncMessage := do
  let fields ← structFields [name] 1 value
  let text ← required asString fields name
  return message text

/-- A message without fields: others are passed over in an object. -/
def readDone : Json → Option SyncMessage
  | .object _ => some .done
  | .array [] => some .done
  | _ => none

/-- What stands behind a tag. -/
def readBody (kind : Kind) (body : Json) : Option SyncMessage :=
  match kind with
  | .group => readGroup spelling body
  | .probe => (readProbe body).map fun (version, nonce, profile) => .probe version nonce profile
  | .probeAck =>
    (readProbe body).map fun (version, nonce, profile) => .probeAck version nonce profile
  | .hello => readHello body
  | .summary => readPage spelling body
  | .request => readRequest body
  | .fileRequest => readFileRequest body
  | .fileChunk => readFileChunk body
  | .fileUnavailable => readTextMessage "reason" .fileUnavailable body
  | .fileChecksum => readTextMessage "sha256" .fileChecksum body
  | .done => readDone body

def readMessage (value : Json) : Option SyncMessage := do
  let (tag, body) ← asTagged "t" value
  let kind ← kinds.find? fun kind => kind.name = tag
  readBody spelling kind body

def readSummaryBody (value : Json) : Option SyncMessage := do
  let fields ← structFields ["t", "items", "more"] 3 value
  let _ ← required some fields "t"
  let items ← required (asList (readSummary spelling)) fields "items"
  let more ← required asBool fields "more"
  return .summary items more

/-- The numbers of an item or summary are ones of their types. -/
def StampTyped (stamp : Int) : Prop :=
  -2 ^ 63 ≤ stamp ∧ stamp < 2 ^ 63

def OrderFinite (order : Option PinOrder) : Prop :=
  ∀ rank ∈ order, isFinite rank = true

def ProfileTyped (profile : DeviceProfile) : Prop :=
  ∀ version ∈ profile.protocolVersion, version < 2 ^ 32

def AddrTyped (addr : SocketAddr) : Prop :=
  ∀ segments, addr.ip = .v6 segments → segments.length = 8

structure MemberTyped (member : Member) : Prop where
  signingKey : member.signingKey.length = 32
  exchangeKey : member.exchangeKey.length = 32
  admission : member.admission < 2 ^ 64
  revision : member.revision < 2 ^ 64
  profile : ProfileTyped member.profile
  listenAddr : ∀ addr ∈ member.listenAddr, AddrTyped addr

structure RosterTyped (roster : Roster) : Prop where
  members : ∀ entry ∈ roster.members.toList, MemberTyped entry.2
  removed : ∀ entry ∈ roster.removed.toList, entry.2 < 2 ^ 64

/-- A message of the source's types, whose integers have a width. -/
def SyncMessage.Typed : SyncMessage → Prop
  | .group protocolVersion snapshot => protocolVersion < 2 ^ 32 ∧ RosterTyped snapshot.roster
  | .probe protocolVersion nonce profile =>
    protocolVersion < 2 ^ 32 ∧ nonce < 2 ^ 64 ∧ ∀ p ∈ profile, ProfileTyped p
  | .probeAck protocolVersion nonce profile =>
    protocolVersion < 2 ^ 32 ∧ nonce < 2 ^ 64 ∧ ∀ p ∈ profile, ProfileTyped p
  | .hello protocolVersion _ _ profile _ sinceMs =>
    protocolVersion < 2 ^ 32 ∧ (∀ p ∈ profile, ProfileTyped p) ∧ StampTyped sinceMs
  | .summary page _ => ∀ item ∈ page, StampTyped item.createdAt ∧ StampTyped item.pinUpdatedAt
  | .items batch => ∀ item ∈ batch, StampTyped item.createdAt ∧ StampTyped item.pinUpdatedAt
  | .fileRequest protocolVersion _ _ size index =>
    protocolVersion < 2 ^ 32 ∧ size < 2 ^ 64 ∧ index < 2 ^ 64
  | .fileChunk index _ => index < 2 ^ 64
  | _ => True

section

theorem asI64_ofWhole {stamp : Int} (h : StampTyped stamp) : asI64 (ofWhole stamp) = some stamp :=
  asWhole_ofWhole h.1 h.2 (by omega) (by omega)

theorem read_order (nearest : Int → Int) {order : Option PinOrder} (h : OrderFinite order) :
    asOption (asDouble nearest) (ofOption ofDouble order) = some order := by
  refine asOption_ofOption fun rank hrank => ?_
  have hfinite := of_decide_eq_true (h rank hrank)
  refine ⟨asDouble_ofDouble nearest hfinite, ?_⟩
  rw [ofDouble, dif_pos hfinite]
  simp

theorem readSummary_writeSummary {summary : ItemSummary} (hcreated : StampTyped summary.createdAt)
    (hpinned : StampTyped summary.pinUpdatedAt) (horder : OrderFinite summary.pinOrder) :
    readSummary spelling (writeSummary summary) = some summary := by
  have horder := read_order spelling.nearest horder
  simp [readSummary, writeSummary, structFields, required, optionField, withDefault, asString,
    asBool, asI64_ofWhole hcreated, asI64_ofWhole hpinned, horder]

theorem read_text (text : Option String) :
    readOne (some none) (asOption asString) (text.map Json.string).toList = some text :=
  readOne_present fun _ _ => ⟨rfl, by simp⟩

theorem readItem_writeItem {item : SyncItem} (hcreated : StampTyped item.createdAt)
    (hpinned : StampTyped item.pinUpdatedAt) (horder : OrderFinite item.pinOrder) :
    readItem spelling (writeItem item) = some (bare item) := by
  have hid : required asString (itemFields item) "item_id" = some item.itemId :=
    required_of (by simp [itemFields]; rfl) rfl
  have hmetadata : optionField asString (itemFields item) "payload_metadata" =
      some item.payloadMetadata := by simp [optionField, withDefault, itemFields, read_text]
  have hbundle : optionField asString (itemFields item) "source_app_bundle_id" =
      some item.sourceAppBundleId := by simp [optionField, withDefault, itemFields, read_text]
  have happ : optionField asString (itemFields item) "source_app_name" =
      some item.sourceAppName := by simp [optionField, withDefault, itemFields, read_text]
  have htype : required asString (itemFields item) "content_type" = some item.contentType :=
    required_of (by simp [itemFields]; rfl) rfl
  have hstamp : required asI64 (itemFields item) "created_at" = some item.createdAt :=
    required_of (by simp [itemFields]) (asI64_ofWhole hcreated)
  have hdeleted : required asBool (itemFields item) "deleted" = some item.deleted :=
    required_of (by simp [itemFields]; rfl) rfl
  have hhash : required asString (itemFields item) "content_hash" = some item.contentHash :=
    required_of (by simp [itemFields]; rfl) rfl
  have horigin : required asString (itemFields item) "origin_device_id" =
      some item.originDeviceId := required_of (by simp [itemFields]; rfl) rfl
  have hpin : required asBool (itemFields item) "pinned" = some item.pinned :=
    required_of (by simp [itemFields]; rfl) rfl
  have hrank : optionField (asDouble spelling.nearest) (itemFields item) "pin_order" =
      some item.pinOrder := by
    simp [optionField, withDefault, itemFields, read_order spelling.nearest horder]
  have hpinStamp : withDefault 0 asI64 (itemFields item) "pin_updated_at" =
      some item.pinUpdatedAt := by simp [withDefault, itemFields, asI64_ofWhole hpinned]
  rw [readItem, writeItem, structFields]
  generalize itemFields item = fields at *
  rw [Option.bind_eq_bind, Option.bind_some]
  simp only [hid, hmetadata, hbundle, happ, htype, hstamp, hdeleted, hhash, horigin, hpin, hrank,
    hpinStamp]
  rfl

variable {value protocolVersion : ℕ} {profile : Option DeviceProfile}

theorem asU32_ofNat (h : value < 2 ^ 32) : asU32 (ofNat value) = some value :=
  asNat_ofWhole h (by omega)

theorem asU64_ofNat (h : value < 2 ^ 64) : asU64 (ofNat value) = some value :=
  asNat_ofWhole h (by omega)

theorem ofNat_ne_null (h : value < 2 ^ 64) : ofNat value ≠ .null := by
  rw [ofNat, ofWhole, dif_pos (by omega)]
  simp

theorem asByte_ofByte (byte : UInt8) : asByte (ofByte byte) = some byte := by
  have hbyte : asNat 256 (ofNat byte.toNat) = some byte.toNat :=
    asNat_ofWhole byte.toNat_lt (by omega)
  rw [asByte, ofByte, hbyte, Option.map_some, UInt8.ofNat_toNat]

theorem asKey_ofList {key : Bytes} (h : key.length = 32) :
    asKey (ofList ofByte key) = some key := by
  rw [asKey, asList_ofList fun byte _ => asByte_ofByte byte]
  exact if_pos h

theorem asName_platformName (platform : DevicePlatform) :
    asName platformNames (.string (platformName platform)) = some platform := by
  cases platform <;> rfl

theorem asName_className (deviceClass : DeviceClass) :
    asName classNames (.string (className deviceClass)) = some deviceClass := by
  cases deviceClass <;> rfl

/-- A platform that travels beside an older one is read back. -/
theorem ofWirePlatform_wirePlatform (platform : DevicePlatform) :
    ofWirePlatform (wirePlatform platform).1 (wirePlatform platform).2 = platform := by
  cases platform <;> rfl

theorem read_ofText (text : Option String) :
    asOption asString (ofOption .string text) = some text :=
  asOption_ofOption fun _ _ => ⟨rfl, by simp⟩

theorem readProfile_writeProfile {profile : DeviceProfile} (h : ProfileTyped profile) :
    readProfile (writeProfile profile) = some profile := by
  have hversion : asOption asU32 (ofOption ofNat profile.protocolVersion) =
      some profile.protocolVersion :=
    asOption_ofOption fun version hversion =>
      ⟨asU32_ofNat (h version hversion), ofNat_ne_null (by have := h version hversion; omega)⟩
  have happ : optionField asString (profileFields profile) "app_version" =
      some profile.appVersion := by simp [optionField, withDefault, profileFields, read_ofText]
  have hprotocol : optionField asU32 (profileFields profile) "protocol_version" =
      some profile.protocolVersion := by simp [optionField, withDefault, profileFields, hversion]
  have hplatform : required (asName platformNames) (profileFields profile) "platform" =
      some (wirePlatform profile.platform).1 :=
    required_of (by simp [profileFields]) (asName_platformName _)
  have hdetail : optionField asString (profileFields profile) "platform_detail" =
      some (wirePlatform profile.platform).2 := by
    simp [optionField, withDefault, profileFields, read_text]
  have hclass : required (asName classNames) (profileFields profile) "device_class" =
      some profile.deviceClass := required_of (by simp [profileFields]) (asName_className _)
  have hos : optionField asString (profileFields profile) "os_name" = some profile.osName := by
    simp [optionField, withDefault, profileFields, read_ofText]
  have hosVersion : optionField asString (profileFields profile) "os_version" =
      some profile.osVersion := by simp [optionField, withDefault, profileFields, read_ofText]
  have hmodel : optionField asString (profileFields profile) "model" = some profile.model := by
    simp [optionField, withDefault, profileFields, read_ofText]
  rw [readProfile, writeProfile, structFields]
  generalize profileFields profile = fields at *
  rw [Option.bind_eq_bind, Option.bind_some]
  simp only [happ, hprotocol, hplatform, hdetail, hclass, hos, hosVersion, hmodel, Option.bind_eq_bind,
    Option.bind_some, ofWirePlatform_wirePlatform]
  rfl

theorem readMember_writeMember {member : Member} (h : MemberTyped member) :
    readMember spelling (writeMember spelling member) = some member := by
  have haddr : asOption (asAddr spelling) (ofOption (ofAddr spelling) member.listenAddr) =
      some member.listenAddr :=
    asOption_ofOption fun addr hmem =>
      ⟨spelling.parse_display addr.ip addr.port (h.listenAddr addr hmem), by simp [ofAddr]⟩
  rw [readMember, writeMember, onlyFields_object (by rfl)]
  have hdevice : required asString (memberFields spelling member) "device_id" =
      some member.deviceId := by simp [required, memberFields, asString]
  have hname : required asString (memberFields spelling member) "name" = some member.name := by
    simp [required, memberFields, asString]
  have hsigning : required asKey (memberFields spelling member) "signing_key" =
      some member.signingKey := by simp [required, memberFields, asKey_ofList h.signingKey]
  have hexchange : required asKey (memberFields spelling member) "exchange_key" =
      some member.exchangeKey := by simp [required, memberFields, asKey_ofList h.exchangeKey]
  have hadmission : required asU64 (memberFields spelling member) "admission" =
      some member.admission := by simp [required, memberFields, asU64_ofNat h.admission]
  have hrevision : required asU64 (memberFields spelling member) "revision" =
      some member.revision := by simp [required, memberFields, asU64_ofNat h.revision]
  have hprofile : required readProfile (memberFields spelling member) "profile" =
      some member.profile := by simp [required, memberFields, readProfile_writeProfile h.profile]
  have hlisten : optionField (asAddr spelling) (memberFields spelling member) "listen_addr" =
      some member.listenAddr := by simp [optionField, withDefault, memberFields, haddr]
  generalize memberFields spelling member = fields at *
  rw [Option.bind_eq_bind, Option.bind_some]
  simp only [hdevice, hname, hsigning, hexchange, hadmission, hrevision, hprofile, hlisten]
  rfl

theorem readRoster_writeRoster {roster : Roster} (h : RosterTyped roster) :
    readRoster spelling (writeRoster spelling roster) = some roster := by
  have hmembers : asTable (readMember spelling) (ofTable (writeMember spelling) roster.members) =
      some roster.members :=
    asTable_ofTable fun entry hentry => readMember_writeMember spelling (h.members entry hentry)
  have hremoved : asTable asU64 (ofTable ofNat roster.removed) = some roster.removed :=
    asTable_ofTable fun entry hentry => asU64_ofNat (h.removed entry hentry)
  rw [readRoster, writeRoster, onlyFields_object (by rfl)]
  simp [required, asString, hmembers, hremoved]

theorem readSnapshot_writeSnapshot {snapshot : GroupSnapshot} (h : RosterTyped snapshot.roster) :
    readSnapshot spelling (writeSnapshot spelling snapshot) = some snapshot := by
  rw [readSnapshot, writeSnapshot, onlyFields_object (by rfl)]
  simp [required, asString, readRoster_writeRoster spelling h]

theorem read_profile (h : ∀ p ∈ profile, ProfileTyped p) :
    readOne (some none) (asOption readProfile) (profile.map writeProfile).toList = some profile :=
  readOne_present fun p hp => ⟨readProfile_writeProfile (h p hp), by simp [writeProfile]⟩

theorem readProbe_object {nonce : ℕ} (hversion : protocolVersion < 2 ^ 32) (hnonce : nonce < 2 ^ 64)
    (hprofile : ∀ p ∈ profile, ProfileTyped p) :
    readProbe (.object ([("protocol_version", ofNat protocolVersion), ("nonce", ofNat nonce)] ++
      present "profile" writeProfile profile)) = some (protocolVersion, nonce, profile) := by
  simp [readProbe, structFields, required, optionField, withDefault, asU32_ofNat hversion,
    asU64_ofNat hnonce, read_profile hprofile]

theorem readHello_object {deviceId deviceName : String} {listenAddr : Option String} {sinceMs : Int}
    (hversion : protocolVersion < 2 ^ 32) (hprofile : ∀ p ∈ profile, ProfileTyped p)
    (hsince : StampTyped sinceMs) :
    readHello (.object ([("protocol_version", ofNat protocolVersion),
      ("device_id", .string deviceId), ("device_name", .string deviceName)] ++
      present "profile" writeProfile profile ++ present "listen_addr" .string listenAddr ++
      [("since_ms", ofWhole sinceMs)])) =
    some (.hello protocolVersion deviceId deviceName profile listenAddr sinceMs) := by
  simp [readHello, structFields, required, optionField, withDefault, asString,
    asU32_ofNat hversion, read_profile hprofile, read_text, asI64_ofWhole hsince]

theorem readGroup_object {snapshot : GroupSnapshot} (hversion : protocolVersion < 2 ^ 32)
    (hroster : RosterTyped snapshot.roster) :
    readGroup spelling (.object [("protocol_version", ofNat protocolVersion),
      ("snapshot", writeSnapshot spelling snapshot)]) =
    some (.group protocolVersion snapshot) := by
  obtain ⟨fields, hfields⟩ : ∃ fields, fields = [("protocol_version", ofNat protocolVersion),
    ("snapshot", writeSnapshot spelling snapshot)] := ⟨_, rfl⟩
  have hread : required asU32 fields "protocol_version" = some protocolVersion :=
    required_of (by simp [hfields]) (asU32_ofNat hversion)
  have hsnapshot : required (readSnapshot spelling) fields "snapshot" = some snapshot :=
    required_of (by simp [hfields]) (readSnapshot_writeSnapshot spelling hroster)
  rw [← hfields, readGroup, structFields]
  simp [hread, hsnapshot]

theorem readPage_object {items : List ItemSummary} {more : Bool}
    (hitems : ∀ item ∈ items, readSummary spelling (writeSummary item) = some item) :
    readPage spelling (.object [("items", ofList writeSummary items), ("more", .bool more)]) =
      some (.summary items more) := by
  obtain ⟨fields, hfields⟩ : ∃ fields, fields =
    [("items", ofList writeSummary items), ("more", Json.bool more)] := ⟨_, rfl⟩
  have hread : required (asList (readSummary spelling)) fields "items" = some items :=
    required_of (by simp [hfields]) (asList_ofList hitems)
  have hmore : required asBool fields "more" = some more :=
    required_of (by simp [hfields]; rfl) rfl
  rw [← hfields, readPage, structFields]
  simp [hread, hmore]

theorem readFileRequest_object {itemId sha256 : String} {size index : ℕ}
    (hversion : protocolVersion < 2 ^ 32) (hsize : size < 2 ^ 64) (hindex : index < 2 ^ 64) :
    readFileRequest (.object [("protocol_version", ofNat protocolVersion),
      ("item_id", .string itemId), ("sha256", .string sha256), ("size", ofNat size),
      ("index", ofNat index)]) =
    some (.fileRequest protocolVersion itemId sha256 size index) := by
  obtain ⟨fields, hfields⟩ : ∃ fields, fields = [("protocol_version", ofNat protocolVersion),
    ("item_id", Json.string itemId), ("sha256", Json.string sha256), ("size", ofNat size),
    ("index", ofNat index)] := ⟨_, rfl⟩
  have hread : required asU32 fields "protocol_version" = some protocolVersion :=
    required_of (by simp [hfields]) (asU32_ofNat hversion)
  have hid : required asString fields "item_id" = some itemId :=
    required_of (by simp [hfields]; rfl) rfl
  have hsha : required asString fields "sha256" = some sha256 :=
    required_of (by simp [hfields]; rfl) rfl
  have hsized : required asU64 fields "size" = some size :=
    required_of (by simp [hfields]) (asU64_ofNat hsize)
  have hindexed : required asU64 fields "index" = some index :=
    required_of (by simp [hfields]) (asU64_ofNat hindex)
  rw [← hfields, readFileRequest, structFields]
  simp [hread, hid, hsha, hsized, hindexed]

theorem readFileChunk_object {index : ℕ} {bytes : List UInt8} (hindex : index < 2 ^ 64) :
    readFileChunk (.object [("index", ofNat index), ("bytes", ofList ofByte bytes)]) =
      some (.fileChunk index bytes) := by
  obtain ⟨fields, hfields⟩ : ∃ fields, fields =
    [("index", ofNat index), ("bytes", ofList ofByte bytes)] := ⟨_, rfl⟩
  have hindexed : required asU64 fields "index" = some index :=
    required_of (by simp [hfields]) (asU64_ofNat hindex)
  have hbytes : required (asList asByte) fields "bytes" = some bytes :=
    required_of (by simp [hfields]) (asList_ofList fun byte _ => asByte_ofByte byte)
  rw [← hfields, readFileChunk, structFields]
  simp [hindexed, hbytes]

theorem name_ne_tag {message : SyncMessage} {kind : Kind} {fields : List (String × Json)}
    (h : messageFields spelling message = some (kind, fields)) :
    ∀ field ∈ fields, field.1 ≠ "t" := by
  have hprofile : ∀ (profile : Option DeviceProfile), ∀ field ∈
      present "profile" writeProfile profile, field.1 ≠ "t" :=
    fun _ => ne_of_mem_present (by decide)
  have haddr : ∀ (addr : Option String), ∀ field ∈
      present "listen_addr" Json.string addr, field.1 ≠ "t" :=
    fun _ => ne_of_mem_present (by decide)
  cases message <;> simp only [messageFields, Option.some.injEq, Prod.mk.injEq, reduceCtorEq] at h
  all_goals
    obtain ⟨-, rfl⟩ := h
    simp only [List.forall_mem_append, List.forall_mem_cons, List.not_mem_nil, false_implies,
      implies_true, and_true, ne_eq, String.reduceEq, not_false_eq_true, true_and]
  case probe => exact hprofile _
  case probeAck => exact hprofile _
  case hello => exact ⟨hprofile _, haddr _⟩

theorem find_kind (kind : Kind) : (kinds.find? fun other => other.name = kind.name) = some kind := by
  cases kind <;> rfl

theorem readMessage_writeMessage {message : SyncMessage} (htyped : message.Typed)
    (hfinite : ∀ items more, message = .summary items more →
      ∀ item ∈ items, OrderFinite item.pinOrder)
    {kind : Kind} {fields : List (String × Json)}
    (h : messageFields spelling message = some (kind, fields)) :
    readMessage spelling (.object (("t", .string kind.name) :: fields)) = some message := by
  rw [readMessage, asTagged_object (name_ne_tag spelling h), Option.bind_eq_bind,
    Option.bind_some]
  dsimp only
  rw [find_kind kind, Option.bind_eq_bind, Option.bind_some]
  cases message <;> simp only [messageFields, Option.some.injEq, Prod.mk.injEq, reduceCtorEq] at h
  all_goals
    obtain ⟨rfl, rfl⟩ := h
    dsimp only [readBody]
  case group protocolVersion snapshot =>
    exact readGroup_object spelling htyped.1 htyped.2
  case probe protocolVersion nonce profile =>
    rw [readProbe_object htyped.1 htyped.2.1 htyped.2.2, Option.map_some]
  case probeAck protocolVersion nonce profile =>
    rw [readProbe_object htyped.1 htyped.2.1 htyped.2.2, Option.map_some]
  case hello protocolVersion deviceId deviceName profile listenAddr sinceMs =>
    exact readHello_object htyped.1 htyped.2.1 htyped.2.2
  case summary items more =>
    exact readPage_object spelling fun item hitem => readSummary_writeSummary spelling
      (htyped item hitem).1 (htyped item hitem).2 (hfinite items more rfl item hitem)
  case request itemIds =>
    have hids : asList asString (ofList .string itemIds) = some itemIds :=
      asList_ofList fun _ _ => rfl
    simp [readRequest, structFields, required, hids]
  case fileRequest protocolVersion itemId sha256 size index =>
    exact readFileRequest_object htyped.1 htyped.2.1 htyped.2.2
  case fileChunk index bytes => exact readFileChunk_object htyped
  case fileUnavailable reason => simp [readTextMessage, structFields, required, asString]
  case fileChecksum sha256 => simp [readTextMessage, structFields, required, asString]
  case done => rfl

end

end CopyPaste.Wire.Messages
