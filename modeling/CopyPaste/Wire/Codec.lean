import CopyPaste.Lib.Frames
import CopyPaste.Wire.Typed

/-!
The wire codec. Items travel in an envelope of a JSON header and the raw payloads, file
chunks behind a fixed header, everything else as JSON. Every bound is checked on the
way out and on the way in, where negative stamps are raised to zero first.
-/

namespace CopyPaste.Wire.Codec

open Lib.Frames Lib.JsonText Lib.JsonFields Merge.Comparator Merge.Payload Peer.Transfer
open Peers.Group Messages

def protocolVersion : ℕ := 11

def fileChunkBytes : ℕ := 64 * 1024

def maxSummariesPerMessage : ℕ := 10000

def maxRequestIdsPerMessage : ℕ := 1000

def maxMessageBytes : ℕ := 32 * 1024 * 1024

def maxListenAddrBytes : ℕ := 64

/-- The bytes `CPF1`. -/
def fileChunkMagic : List UInt8 := [0x43, 0x50, 0x46, 0x31]

/-- The bytes `CPI1`. -/
def itemsMagic : List UInt8 := [0x43, 0x50, 0x49, 0x31]

def fileChunkHeaderBytes : ℕ := 16

def headBytes : ℕ := 12

inductive ProtocolError
  | versionMismatch (ours theirs : ℕ)
  | messageTooLarge (bytes max : ℕ)
  | tooManyEntries (kind : String) (count max : ℕ)
  | contentTooLarge (bytes max : ℕ)
  | batchTooLarge (bytes max : ℕ)
  | fieldTooLong (field : String) (len max : ℕ)
  | fieldEmpty (field : String)
  | invalidListenAddr
  | negativeTimestamp (field : String)
  | invalidPinState
  | encode (reason : String)
  | decode (reason : String)
  deriving DecidableEq, Repr

/-- The libraries the codec rests on, with a number parser that gives every double back;
`failure` is the parser's word for bytes that it refuses. -/
structure Libraries where
  host : Host
  crypto : Crypto
  tokens : Tokens
  faithful : tokens.Faithful
  spelling : Spelling
  failure : List UInt8 → String

def ensure (ok : Bool) (error : ProtocolError) : Except ProtocolError Unit :=
  if ok then .ok () else .error error

def checkProtocolVersion (version : ℕ) : Except ProtocolError Unit :=
  ensure (version == protocolVersion) (.versionMismatch protocolVersion version)

def checkCount (kind : String) (count max : ℕ) : Except ProtocolError Unit :=
  ensure (count ≤ max) (.tooManyEntries kind count max)

def checkLen (field value : String) (max : ℕ) : Except ProtocolError Unit :=
  ensure (value.utf8ByteSize ≤ max) (.fieldTooLong field value.utf8ByteSize max)

def checkIdField (field value : String) : Except ProtocolError Unit := do
  ensure (value != "") (.fieldEmpty field)
  checkLen field value Peer.Transfer.maxIdBytes

def checkTimestamp (stamp : Int) : Except ProtocolError Unit :=
  ensure (0 ≤ stamp) (.negativeTimestamp "created_at")

def checkPin (pinned : Bool) (pinOrder : Option PinOrder) : Except ProtocolError Unit :=
  ensure (checkPinState pinned pinOrder) .invalidPinState

def checkText (field : String) (value : Option String) (max : ℕ) : Except ProtocolError Unit :=
  match value with
  | none => .ok ()
  | some text => checkLen field text max

def validateDeviceProfile (profile : DeviceProfile) : Except ProtocolError Unit := do
  checkText "app_version" profile.appVersion 64
  checkText "os_name" profile.osName 64
  checkText "os_version" profile.osVersion 64
  checkText "model" profile.model 128

def checkProfile : Option DeviceProfile → Except ProtocolError Unit
  | none => .ok ()
  | some profile => validateDeviceProfile profile

def checkSummary (summary : ItemSummary) : Except ProtocolError Unit := do
  checkIdField "item_id" summary.itemId
  checkIdField "origin_device_id" summary.originDeviceId
  checkLen "content_hash" summary.contentHash maxHashBytes
  checkTimestamp summary.createdAt
  checkTimestamp summary.pinUpdatedAt
  checkPin summary.pinned summary.pinOrder

variable (libs : Libraries)

def checkMetadata (item : SyncItem) : Except ProtocolError Unit :=
  match item.payloadMetadata with
  | none => .ok ()
  | some metadata => do
    checkLen "payload_metadata" metadata maxSyncMetadataBytes
    ensure (!(item.deleted || (PayloadMetadata.fromJson libs.host metadata item.contentType).isNone))
      (.decode "item carries invalid payload metadata")

def checkItem (item : SyncItem) : Except ProtocolError Unit := do
  checkIdField "item_id" item.itemId
  checkIdField "origin_device_id" item.originDeviceId
  checkLen "content_type" item.contentType maxContentTypeBytes
  ensure (item.deleted || item.contentType != fileType || item.payloadMetadata.isSome)
    (.decode "file item has no payload metadata")
  checkMetadata libs item
  checkLen "content_hash" item.contentHash maxHashBytes
  checkTimestamp item.createdAt
  checkTimestamp item.pinUpdatedAt
  checkPin item.pinned item.pinOrder
  ensure (item.content == "" || item.binaryContent.isEmpty)
    (.decode "item has both text and binary content")
  ensure (item.contentBytes ≤ maxContentBytes)
    (.contentTooLarge item.contentBytes maxContentBytes)

def jsonText (value : Json) : List UInt8 :=
  utf8 (String.ofList (value.write libs.tokens))

def parseText (bytes : List UInt8) : Option Json :=
  (fromUtf8 bytes).bind fun text => parse libs.tokens text.toList

def batchBytes (items : List SyncItem) : ℕ :=
  (items.map fun item => item.contentBytes + (item.payloadMetadata.elim 0 String.utf8ByteSize)).sum

def isHash (text : String) : Bool :=
  text.toList.all isLowerHex

def validFileRequest (sha256 : String) (size index : ℕ) : Bool :=
  (sha256 == "" || sha256.utf8ByteSize == 64) && isHash sha256 &&
    !(size == 0 && index != 0) && !(0 < size && (size - 1) / fileChunkBytes < index)

def validateMessage : SyncMessage → Except ProtocolError Unit
  | .group version snapshot => do
    checkProtocolVersion version
    ensure (snapshot.validate libs.crypto).isOk (.decode "invalid device group")
    ensure ((jsonText libs (writeSnapshot libs.spelling snapshot)).length ≤ maxGroupBytes)
      (.decode "invalid device group")
  | .probe version _ profile => do
    checkProtocolVersion version
    checkProfile profile
  | .probeAck version _ profile => do
    checkProtocolVersion version
    checkProfile profile
  | .hello version deviceId deviceName profile listenAddr sinceMs => do
    checkProtocolVersion version
    checkIdField "device_id" deviceId
    checkLen "device_name" deviceName maxDeviceNameBytes
    checkProfile profile
    ensure (0 ≤ sinceMs) (.negativeTimestamp "since_ms")
    match listenAddr with
    | none => .ok ()
    | some addr => do
      checkLen "listen_addr" addr maxListenAddrBytes
      ensure (libs.spelling.parseAddr addr).isSome .invalidListenAddr
  | .summary items _ => do
    checkCount "summary" items.length maxSummariesPerMessage
    items.forM checkSummary
  | .request itemIds => do
    checkCount "request" itemIds.length maxRequestIdsPerMessage
    itemIds.forM (checkIdField "item_id")
  | .items items => do
    checkCount "items" items.length maxItemsPerMessage
    items.forM (checkItem libs)
    ensure (batchBytes items ≤ maxItemBytesPerMessage)
      (.batchTooLarge (batchBytes items) maxItemBytesPerMessage)
  | .fileRequest version itemId sha256 size index => do
    checkProtocolVersion version
    checkIdField "item_id" itemId
    ensure (validFileRequest sha256 size index) (.decode "invalid file request")
  | .fileChunk _ bytes =>
    ensure (bytes.length ≤ fileChunkBytes) (.contentTooLarge bytes.length fileChunkBytes)
  | .fileUnavailable reason =>
    ensure (reason != "" && reason.utf8ByteSize ≤ 512 && !reason.toList.any isControl)
      (.decode "invalid file failure reason")
  | .fileChecksum sha256 =>
    ensure (sha256.utf8ByteSize == 64 && isHash sha256) (.decode "invalid file checksum")
  | .done => .ok ()

/-- The bytes of an item's payload, and whether they are not text. -/
def payload (item : SyncItem) : List UInt8 × Bool :=
  if item.binaryContent = [] then (utf8 item.content, false) else (item.binaryContent, true)

def writePayload (entry : ℕ × Bool) : Json :=
  .array [ofNat entry.1, .bool entry.2]

def readPayload : Json → Option (ℕ × Bool)
  | .array [length, binary] => do
    let length ← asU32 length
    let binary ← asBool binary
    return (length, binary)
  | _ => none

def writeHeader (items : List SyncItem) (table : List (ℕ × Bool)) : Json :=
  .object [("items", ofList writeItem items), ("payloads", ofList writePayload table)]

def readHeader (value : Json) : Option (List SyncItem × List (ℕ × Bool)) := do
  let fields ← structFields ["items", "payloads"] 2 value
  let items ← required (asList (readItem libs.spelling)) fields "items"
  let payloads ← required (asList readPayload) fields "payloads"
  return (items, payloads)

/-- The length of a payload in the table, which has 32 bits for it. -/
def tableEntry (item : SyncItem) : Except ProtocolError (ℕ × Bool) :=
  let (bytes, binary) := payload item
  if 2 ^ 32 ≤ bytes.length then .error (.contentTooLarge bytes.length maxContentBytes)
  else .ok (bytes.length, binary)

/-- The envelope as its head and the payloads behind it. -/
structure ItemsFrame where
  head : List UInt8
  payloads : List (List UInt8)

def ItemsFrame.toVec (frame : ItemsFrame) : List UInt8 :=
  frame.head ++ frame.payloads.flatten

def itemsFrame (items : List SyncItem) : Except ProtocolError ItemsFrame := do
  let table ← items.mapM tableEntry
  let payloads := items.map fun item => (payload item).1
  let header := jsonText libs (writeHeader items table)
  let total := headBytes + header.length + payloads.flatten.length
  if maxMessageBytes < total then .error (.messageTooLarge total maxMessageBytes)
  else
    .ok {
      head := itemsMagic ++ toBigEndian 4 total ++ toBigEndian 4 header.length ++ header
      payloads }

def writeFileChunk (index : ℕ) (bytes : List UInt8) : List UInt8 :=
  fileChunkMagic ++ toBigEndian 8 index ++ toBigEndian 4 bytes.length ++ bytes

def encodeJson (message : SyncMessage) : Except ProtocolError (List UInt8) :=
  match writeMessage libs.spelling message with
  | none => .error (.encode "the enum variant SyncMessage::Items cannot be serialized")
  | some value =>
    let bytes := jsonText libs value
    if maxMessageBytes < bytes.length then .error (.messageTooLarge bytes.length maxMessageBytes)
    else .ok bytes

def encode (message : SyncMessage) : Except ProtocolError (List UInt8) := do
  validateMessage libs message
  match message with
  | .fileChunk index bytes => return writeFileChunk index bytes
  | .items items => do
    let frame ← itemsFrame libs items
    return frame.toVec
  | message => encodeJson libs message

def invalidEnvelope : ProtocolError := .decode "invalid items envelope"

/-- A number of four bytes. -/
def fieldAt (bytes : List UInt8) (offset : ℕ) : Except ProtocolError ℕ :=
  if bytes.length < offset + 4 then .error invalidEnvelope
  else .ok (ofBigEndian ((bytes.drop offset).take 4))

/-- The ranges of the payloads, one after the other to the end of the envelope. -/
def ranges (length : ℕ) : ℕ → List (ℕ × Bool) → Except ProtocolError (List (ℕ × ℕ × Bool))
  | start, [] => if start ≠ length then .error invalidEnvelope else .ok []
  | start, (size, binary) :: rest =>
    if maxContentBytes < size then .error (.contentTooLarge size maxContentBytes)
    else if length < start + size then .error invalidEnvelope
    else (ranges length (start + size) rest).map ((start, start + size, binary) :: ·)

def layout (bytes : List UInt8) :
    Except ProtocolError (List SyncItem × List (ℕ × ℕ × Bool)) := do
  let total ← fieldAt bytes 4
  if total ≠ bytes.length then .error invalidEnvelope
  let headerLen ← fieldAt bytes 8
  let headerEnd := headBytes + headerLen
  if bytes.length < headerEnd then .error invalidEnvelope
  match (parseText libs ((bytes.drop headBytes).take headerLen)).bind (readHeader libs) with
  | none => .error invalidEnvelope
  | some (items, payloads) =>
    if payloads.length ≠ items.length then .error invalidEnvelope
    let spans ← ranges bytes.length headerEnd payloads
    return (items, spans)

def fillItem (item : SyncItem) (bytes : List UInt8) (binary : Bool) :
    Except ProtocolError SyncItem :=
  if binary then .ok { item with binaryContent := bytes }
  else
    match fromUtf8 bytes with
    | none => .error (.decode "item text is not UTF-8")
    | some text => .ok { item with content := text }

def decodeItems (bytes : List UInt8) : Except ProtocolError (List SyncItem) := do
  let (items, spans) ← layout libs bytes
  (items.zip spans).mapM fun (item, start, stop, binary) =>
    fillItem item ((bytes.drop start).take (stop - start)) binary

def clampSummary (summary : ItemSummary) : ItemSummary :=
  { summary with
    createdAt := max summary.createdAt 0
    pinUpdatedAt := max summary.pinUpdatedAt 0 }

def clampItem (item : SyncItem) : SyncItem :=
  { item with
    createdAt := max item.createdAt 0
    pinUpdatedAt := max item.pinUpdatedAt 0 }

def clampTimestamps : SyncMessage → SyncMessage
  | .summary items more => .summary (items.map clampSummary) more
  | .items items => .items (items.map clampItem)
  | .hello version deviceId deviceName profile listenAddr sinceMs =>
    .hello version deviceId deviceName profile listenAddr (max sinceMs 0)
  | message => message

/-- A message that was parsed, once it passes every check. -/
def checked (message : SyncMessage) : Except ProtocolError SyncMessage := do
  let message := clampTimestamps message
  validateMessage libs message
  return message

def invalidChunk : ProtocolError := .decode "invalid binary file chunk"

def decodeFileChunk (bytes : List UInt8) : Except ProtocolError SyncMessage := do
  if bytes.length < fileChunkHeaderBytes then .error invalidChunk
  let index := ofBigEndian ((bytes.drop 4).take 8)
  let length := ofBigEndian ((bytes.drop 12).take 4)
  if fileChunkBytes < length ∨ bytes.length ≠ fileChunkHeaderBytes + length then .error invalidChunk
  let message := SyncMessage.fileChunk index (bytes.drop fileChunkHeaderBytes)
  validateMessage libs message
  return message

def tagHead : List UInt8 := [0x7b, 0x22, 0x74, 0x22, 0x3a, 0x22]

def summaryTag : List UInt8 := [0x73, 0x75, 0x6d, 0x6d, 0x61, 0x72, 0x79]

def isSummaryText (bytes : List UInt8) : Bool :=
  tagHead.isPrefixOf bytes && (bytes.drop tagHead.length).takeWhile (· != 0x22) == summaryTag

def parseJson (bytes : List UInt8) : Option SyncMessage :=
  if isSummaryText bytes then (parseText libs bytes).bind (readSummaryBody libs.spelling)
  else (parseText libs bytes).bind (readMessage libs.spelling)

/-- The version that bytes declare which do not parse as a message. -/
def declaredVersion (bytes : List UInt8) : Option ℕ := do
  let value ← parseText libs bytes
  let fields ← structFields ["protocol_version"] 1 value
  let version ← optionField asU32 fields "protocol_version"
  version

def decode (bytes : List UInt8) : Except ProtocolError SyncMessage :=
  if maxMessageBytes < bytes.length then .error (.messageTooLarge bytes.length maxMessageBytes)
  else if fileChunkMagic.isPrefixOf bytes then decodeFileChunk libs bytes
  else if itemsMagic.isPrefixOf bytes then do
    let items ← decodeItems libs bytes
    checked libs (.items items)
  else
    match parseJson libs bytes with
    | some message => checked libs message
    | none => do
      match declaredVersion libs bytes with
      | some version => checkProtocolVersion version
      | none => .ok ()
      .error (.decode (libs.failure bytes))

end CopyPaste.Wire.Codec
