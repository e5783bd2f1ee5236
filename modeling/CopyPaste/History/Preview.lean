import CopyPaste.Lib.JsonFields
import CopyPaste.Organization.Records

/-!
The items a history shows. An item is built from a row and its opened payload; a preview
keeps what comes from the payload and is completed with the row when it is shown. A
preview written as JSON reads back as itself, and completed it is the item.
-/

namespace CopyPaste.History.Preview

open Lib.JsonText Lib.JsonFields Merge.Payload Merge.Prepare Files.Bodies Organization.Records

inductive ContentClass
  | text
  | image
  | file
  | other
  deriving DecidableEq, Repr

def classify (contentType : String) : ContentClass :=
  if isText contentType then .text
  else if startsWith "image/" contentType then .image
  else if contentType = fileType then .file
  else .other

def label (contentType : String) : String :=
  if contentType = "text" then "text"
  else if contentType = "text/rtf" then "rich text"
  else if contentType = "text/html" then "HTML"
  else if contentType = "image/png" ∨ contentType = "image/tiff" then "image"
  else if contentType = "file" then "file"
  else "unsupported"

inductive SemanticKind
  | plainText
  | link
  | email
  | color
  | phone
  | code
  | json
  | path
  | credentials
  deriving DecidableEq, Repr

structure SemanticClassification where
  kind : SemanticKind
  colorRgba : Option UInt32

structure ImageDetails where
  width : Nat
  height : Nat
  sizeBytes : Nat

/-- The ciphers and parsers of the host, the recognisers of whole texts, how the standard
library repairs and cuts text, and the files there are. -/
structure Readers where
  host : Host
  vault : Vault
  colorRgba : String → Option UInt32
  isEmail : String → Bool
  isLink : String → Bool
  isPhone : String → Bool
  isJson : String → Bool
  isPath : String → Bool
  isCode : String → Bool
  fromUtf8Lossy : List UInt8 → String
  graphemes : String → List String
  imageMetadata : List UInt8 → Option ImageDetails
  isFile : String → Bool

/-- A stored row, in what an item is built from. Lengths are machine words. -/
structure Row where
  id : String
  ownCiphertext : Option (List UInt8)
  sharedCiphertext : Option (List UInt8)
  nonce : Option (List UInt8)
  contentType : String
  payloadMetadata : Option String
  createdAt : Int
  pinned : Bool
  deleted : Bool
  appBundleId : Option String
  appName : Option String
  sourceIconId : Option String
  id_lt : id.utf8ByteSize < 256 ^ 8
  nonce_lt : (nonce.getD []).length < 256 ^ 8
  contentType_lt : contentType.utf8ByteSize < 256 ^ 8
  payloadMetadata_lt : ∀ json ∈ payloadMetadata, json.utf8ByteSize < 256 ^ 8

/-- The row's own ciphertext and the shared one behind it; a row without its own has none. -/
def Row.contentCiphertext (row : Row) : List UInt8 :=
  match row.ownCiphertext with
  | none => []
  | some own => own ++ row.sharedCiphertext.getD []

def Row.nonceBytes (row : Row) : List UInt8 := row.nonce.getD []

variable (readers : Readers)

def Row.clipboardPrivacy (row : Row) : ClipboardPrivacy :=
  (row.payloadMetadata.map (PayloadMetadata.privacyFromJson readers.host)).getD {}

def Row.fileMetadata (row : Row) : Option FileMetadata :=
  (row.payloadMetadata.bind fun json =>
    PayloadMetadata.fromJson readers.host json row.contentType).bind PayloadMetadata.file

inductive ClipboardPayload
  | text (text : String)
  | image (contentType : String) (bytes : List UInt8)
  | file (bytes : List UInt8) (metadata : Option FileMetadata)
  | unsupported (bytes : List UInt8)

def textFromBytes (bytes : List UInt8) : String :=
  (fromUtf8 bytes).getD (readers.fromUtf8Lossy bytes)

/-- The descriptor in place of a file's bytes has to be the one the metadata offers. -/
def fileFromBytes (metadata : Option FileMetadata) (bytes : List UInt8) :
    Option ClipboardPayload :=
  match metadata.bind FileMetadata.transfer with
  | none => some (.file bytes metadata)
  | some transfer =>
    match readers.host.parseTransfer bytes with
    | none => none
    | some descriptor =>
      if descriptor ≠ transfer ∨ descriptor.isValid = false then none
      else some (.file bytes metadata)

/-- `ClipboardPayload::open`. -/
def openPayload (row : Row) : Option ClipboardPayload :=
  match classify row.contentType with
  | .text =>
    (readers.vault.decrypt row.contentCiphertext row.nonceBytes row.id).map fun bytes =>
      .text (textFromBytes readers bytes)
  | .image =>
    (readers.vault.openBinary row.contentCiphertext row.id).map fun bytes =>
      .image row.contentType bytes
  | .file =>
    (readers.vault.openBinary row.contentCiphertext row.id).bind fun bytes =>
      fileFromBytes readers (row.fileMetadata readers) bytes
  | .other => (readers.vault.openBinary row.contentCiphertext row.id).map .unsupported

def offer : ClipboardPayload → Option FileTransfer
  | .file _ metadata => metadata.bind FileMetadata.transfer
  | _ => none

def ClipboardPayload.byteLen (payload : ClipboardPayload) : Nat :=
  match offer payload with
  | some transfer => transfer.sizeBytes
  | none =>
    match payload with
    | .text content => content.utf8ByteSize
    | .image _ bytes | .file bytes _ | .unsupported bytes => bytes.length

def listPreviewBytes : Nat := 1024

def trimStart (text : String) : String :=
  String.ofList (text.toList.dropWhile isWhitespace)

def trimEnd (text : String) : String :=
  String.ofList (text.toList.reverse.dropWhile isWhitespace).reverse

/-- The clusters that have room, and the first one at any rate. -/
def cutClusters : Nat → List String → List String
  | _, [] => []
  | cut, cluster :: rest =>
    if listPreviewBytes < cut + cluster.utf8ByteSize ∧ 0 < cut then []
    else cluster :: cutClusters (cut + cluster.utf8ByteSize) rest

def previewText (content : String) : String × Bool :=
  let content := trimStart content
  if maxContentBytes < content.utf8ByteSize ∧
      maxContentBytes < ((readers.graphemes content).head?.map String.utf8ByteSize).getD 0 then
    ("", true)
  else if content.utf8ByteSize ≤ listPreviewBytes then (trimEnd content, false)
  else (trimEnd (String.join (cutClusters 0 (readers.graphemes content))), true)

def displayText : ClipboardPayload → String
  | .text text => text
  | .image contentType _ => "[" ++ label contentType ++ "]"
  | .file _ metadata =>
    (metadata.bind FileMetadata.sourceReference).getD ("[" ++ label fileType ++ "]")
  | .unsupported _ => "[" ++ label "" ++ "]"

def displayPreview (payload : ClipboardPayload) : String × Bool :=
  match payload with
  | .text text => previewText readers text
  | .file _ metadata =>
    match metadata.bind FileMetadata.sourceReference with
    | some reference => previewText readers reference
    | none => (displayText payload, false)
  | _ => (displayText payload, false)

def plainText : ClipboardPayload → Option String
  | .text text => some text
  | _ => none

def isPlainTextRepresentation (contentType : String) : Bool :=
  contentType = "text" || contentType.toList.map Char.toLower = "text/plain".toList ||
    (contentType.toList.take 11).map Char.toLower = "text/plain;".toList

/-- `classify_semantic`; the text is recognised as a whole. -/
def classifySemantic (contentType content : String) : Option SemanticClassification :=
  let value := String.ofList (trim content.toList)
  if isText contentType = false then none
  else if (readers.host.classifyCredentials contentType value).isSome then
    some ⟨.credentials, none⟩
  else if isPlainTextRepresentation contentType = false ∨ value = "" then some ⟨.plainText, none⟩
  else
    match readers.colorRgba value with
    | some color => some ⟨.color, some color⟩
    | none =>
      if readers.isEmail value then some ⟨.email, none⟩
      else if readers.isLink value then some ⟨.link, none⟩
      else if readers.isPhone value then some ⟨.phone, none⟩
      else if readers.isJson value then some ⟨.json, none⟩
      else if readers.isPath value then some ⟨.path, none⟩
      else if readers.isCode value then some ⟨.code, none⟩
      else some ⟨.plainText, none⟩

structure FileDetails where
  filename : Option String
  mimeType : Option String
  sourceReference : Option String
  sourceAvailable : Bool
  sizeBytes : Nat
  fileCount : Nat

structure ItemOrigin where
  deviceId : String
  deviceName : Option String
  deviceClass : DeviceClass

structure Item where
  privacy : ClipboardPrivacy
  id : String
  content : String
  contentType : String
  contentClass : ContentClass
  semanticKind : Option SemanticKind
  colorRgba : Option UInt32
  createdAt : Int
  pinned : Bool
  tagIds : List String
  fileDetails : Option FileDetails
  imageDetails : Option ImageDetails
  originDeviceId : String
  originDeviceName : Option String
  originDeviceClass : DeviceClass
  sourceAppBundleId : Option String
  sourceAppName : Option String
  sourceAppIconId : Option String
  tooLargeToSync : Bool
  truncated : Bool

/-- A source reference is usable only on the device that captured it. -/
def sourceAvailable (reference : String) : Bool :=
  !startsWith "content://" reference && readers.isFile reference

/-- The metadata of a payload that is a file, or an image imported as one. -/
def itemMetadata (row : Row) (payload : ClipboardPayload) : Option (Option FileMetadata) :=
  match payload with
  | .file _ metadata => some metadata
  | .image _ _ => (row.fileMetadata readers).map some
  | _ => none

def fileDetails (row : Row) (payload : ClipboardPayload) (origin : ItemOrigin)
    (localDeviceId : String) : Option FileDetails :=
  (itemMetadata readers row payload).map fun metadata =>
    let reference := metadata.bind FileMetadata.sourceReference
    { filename := metadata.map FileMetadata.filename
      mimeType := metadata.map FileMetadata.mimeType
      sourceReference := reference
      sourceAvailable := origin.deviceId = localDeviceId && reference.any (sourceAvailable readers)
      sizeBytes := ((offer payload).map FileTransfer.sizeBytes).getD (payload.byteLen % 2 ^ 64)
      fileCount := 1 }

/-- `from_payload`: the item of a row and its payload, whole or as a preview. -/
def fromPayload (row : Row) (payload : ClipboardPayload) (origin : ItemOrigin)
    (localDeviceId : String) (preview : Bool) : Item :=
  let privacy := row.clipboardPrivacy readers
  let shown :=
    if preview && privacy.secret then ("", false)
    else if preview then displayPreview readers payload
    else (displayText payload, false)
  let semantic := (plainText payload).bind (classifySemantic readers row.contentType)
  { privacy
    id := row.id
    content := shown.1
    contentType := row.contentType
    contentClass := classify row.contentType
    semanticKind := (semantic.filter fun value =>
      !privacy.secret || !preview || value.kind = .credentials).map SemanticClassification.kind
    colorRgba := (semantic.filter fun _ => !privacy.secret || !preview).bind
      SemanticClassification.colorRgba
    createdAt := row.createdAt
    pinned := row.pinned
    tagIds := []
    fileDetails :=
      if preview && privacy.secret then none
      else fileDetails readers row payload origin localDeviceId
    imageDetails :=
      if preview then none
      else
        match payload with
        | .image _ bytes => readers.imageMetadata bytes
        | _ => none
    originDeviceId := origin.deviceId
    originDeviceName := origin.deviceName
    originDeviceClass := origin.deviceClass
    sourceAppBundleId := row.appBundleId
    sourceAppName := row.appName
    sourceAppIconId := row.sourceIconId
    tooLargeToSync := (offer payload).isNone && decide (maxContentBytes < payload.byteLen)
    truncated := shown.2 }

/-- `open_item`, the direct path. -/
def openItem (row : Row) (origin : ItemOrigin) (localDeviceId : String) (preview : Bool) :
    Option Item :=
  (openPayload readers row).map fun payload =>
    fromPayload readers row payload origin localDeviceId preview

structure StaticFileDetails where
  filename : Option String
  mimeType : Option String
  sourceReference : Option String
  sizeBytes : Nat
  fileCount : Nat

/-- The fields of a preview that come from the payload. -/
structure StaticHistoryPreview where
  content : String
  semanticKind : Option SemanticKind
  colorRgba : Option UInt32
  fileDetails : Option StaticFileDetails
  tooLargeToSync : Bool
  truncated : Bool

def FileDetails.static (details : FileDetails) : StaticFileDetails :=
  ⟨details.filename, details.mimeType, details.sourceReference, details.sizeBytes,
    details.fileCount⟩

def fromOpenPayload (row : Row) (payload : ClipboardPayload) : StaticHistoryPreview :=
  let item := fromPayload readers row payload ⟨"", none, .unknown⟩ "local" true
  { content := item.content
    semanticKind := item.semanticKind
    colorRgba := item.colorRgba
    fileDetails := item.fileDetails.map FileDetails.static
    tooLargeToSync := item.tooLargeToSync
    truncated := item.truncated }

/-- `into_item`: a preview with the state of its row and its device. -/
def intoItem (preview : StaticHistoryPreview) (row : Row) (origin : ItemOrigin)
    (localDeviceId : String) : Item where
  privacy := row.clipboardPrivacy readers
  id := row.id
  content := preview.content
  contentType := row.contentType
  contentClass := classify row.contentType
  semanticKind := preview.semanticKind
  colorRgba := preview.colorRgba
  createdAt := row.createdAt
  pinned := row.pinned
  tagIds := []
  fileDetails := preview.fileDetails.map fun details =>
    { filename := details.filename
      mimeType := details.mimeType
      sourceReference := details.sourceReference
      sourceAvailable := origin.deviceId = localDeviceId &&
        details.sourceReference.any (sourceAvailable readers)
      sizeBytes := details.sizeBytes
      fileCount := details.fileCount }
  imageDetails := none
  originDeviceId := origin.deviceId
  originDeviceName := origin.deviceName
  originDeviceClass := origin.deviceClass
  sourceAppBundleId := row.appBundleId
  sourceAppName := row.appName
  sourceAppIconId := row.sourceIconId
  tooLargeToSync := preview.tooLargeToSync
  truncated := preview.truncated

section Json

def semanticNames : List (String × SemanticKind) :=
  [("plain_text", .plainText), ("link", .link), ("email", .email), ("color", .color),
    ("phone", .phone), ("code", .code), ("json", .json), ("path", .path),
    ("credentials", .credentials)]

def SemanticKind.name : SemanticKind → String
  | .plainText => "plain_text"
  | .link => "link"
  | .email => "email"
  | .color => "color"
  | .phone => "phone"
  | .code => "code"
  | .json => "json"
  | .path => "path"
  | .credentials => "credentials"

def asU32 : Json → Option Nat := asNat (2 ^ 32)

def asU64 : Json → Option Nat := asNat (2 ^ 64)

def writeDetails (details : StaticFileDetails) : Json :=
  .object [("filename", ofOption .string details.filename),
    ("mime_type", ofOption .string details.mimeType),
    ("source_reference", ofOption .string details.sourceReference),
    ("size_bytes", ofWhole details.sizeBytes), ("file_count", ofWhole details.fileCount)]

def readDetails (value : Json) : Option StaticFileDetails := do
  let fields ← structFields ["filename", "mime_type", "source_reference", "size_bytes",
    "file_count"] 5 value
  let filename ← optionField asString fields "filename"
  let mimeType ← optionField asString fields "mime_type"
  let sourceReference ← optionField asString fields "source_reference"
  let sizeBytes ← required asU64 fields "size_bytes"
  let fileCount ← required asU32 fields "file_count"
  return ⟨filename, mimeType, sourceReference, sizeBytes, fileCount⟩

def asColor (value : Json) : Option UInt32 :=
  (asU32 value).map UInt32.ofNat

def writePreview (preview : StaticHistoryPreview) : Json :=
  .object [("content", .string preview.content),
    ("semantic_kind", ofOption (fun kind => .string kind.name) preview.semanticKind),
    ("color_rgba", ofOption (fun color => ofWhole color.toNat) preview.colorRgba),
    ("file_details", ofOption writeDetails preview.fileDetails),
    ("too_large_to_sync", .bool preview.tooLargeToSync), ("truncated", .bool preview.truncated)]

def readPreview (value : Json) : Option StaticHistoryPreview := do
  let fields ← structFields ["content", "semantic_kind", "color_rgba", "file_details",
    "too_large_to_sync", "truncated"] 6 value
  let content ← required asString fields "content"
  let semanticKind ← optionField (asName semanticNames) fields "semantic_kind"
  let colorRgba ← optionField asColor fields "color_rgba"
  let fileDetails ← optionField readDetails fields "file_details"
  let tooLargeToSync ← required asBool fields "too_large_to_sync"
  let truncated ← required asBool fields "truncated"
  return ⟨content, semanticKind, colorRgba, fileDetails, tooLargeToSync, truncated⟩

variable (tokens : Tokens)

/-- A preview whose numbers are the ones of the code. -/
structure StaticHistoryPreview.Typed (preview : StaticHistoryPreview) : Prop where
  sizeBytes : ∀ details ∈ preview.fileDetails, details.sizeBytes < 2 ^ 64
  fileCount : ∀ details ∈ preview.fileDetails, details.fileCount < 2 ^ 32

def toVec (preview : StaticHistoryPreview) : List UInt8 :=
  utf8 (String.ofList ((writePreview preview).write tokens))

def fromSlice (bytes : List UInt8) : Option StaticHistoryPreview :=
  (fromUtf8 bytes).bind fun text => (parse tokens text.toList).bind readPreview

theorem readDetails_writeDetails {details : StaticFileDetails} (hsize : details.sizeBytes < 2 ^ 64)
    (hcount : details.fileCount < 2 ^ 32) : readDetails (writeDetails details) = some details := by
  have htext : ∀ text : Option String, asOption asString (ofOption Json.string text) = some text :=
    fun text => asOption_ofOption fun value _ => ⟨rfl, by simp⟩
  have hsize' : asU64 (ofWhole details.sizeBytes) = some details.sizeBytes :=
    asNat_ofWhole hsize (le_refl _)
  have hcount' : asU32 (ofWhole details.fileCount) = some details.fileCount :=
    asNat_ofWhole hcount (by omega)
  simp [readDetails, writeDetails, structFields, required, optionField, withDefault, htext, hsize',
    hcount']

theorem asName_name (kind : SemanticKind) :
    asName semanticNames (.string kind.name) = some kind := by
  cases kind <;> rfl

theorem asColor_ofWhole (color : UInt32) : asColor (ofWhole color.toNat) = some color := by
  have hread : asU32 (ofWhole color.toNat) = some color.toNat :=
    asNat_ofWhole color.toNat_lt (by omega)
  unfold asColor
  rw [hread]
  simp

theorem readPreview_writePreview {preview : StaticHistoryPreview} (h : preview.Typed) :
    readPreview (writePreview preview) = some preview := by
  have hkind : asOption (asName semanticNames)
      (ofOption (fun kind : SemanticKind => .string kind.name) preview.semanticKind) =
        some preview.semanticKind :=
    asOption_ofOption fun kind _ => ⟨asName_name kind, by simp⟩
  have hcolor : asOption asColor (ofOption (fun color : UInt32 => ofWhole color.toNat)
      preview.colorRgba) = some preview.colorRgba :=
    asOption_ofOption fun color _ => by
      have hcolor := color.toNat_lt
      refine ⟨asColor_ofWhole color, ?_⟩
      simp [ofWhole]
      omega
  have hdetails : asOption readDetails (ofOption writeDetails preview.fileDetails) =
      some preview.fileDetails :=
    asOption_ofOption fun details hmem =>
      ⟨readDetails_writeDetails (h.sizeBytes details hmem) (h.fileCount details hmem),
        by simp [writeDetails]⟩
  simp [readPreview, writePreview, structFields, required, optionField, withDefault, asString,
    asBool, hkind, hcolor, hdetails]

theorem legible_writePreview (preview : StaticHistoryPreview) :
    Legible tokens depthLimit (writePreview preview) := by
  have htext : ∀ {depth} (text : Option String),
      Legible tokens depth (ofOption Json.string text) :=
    fun text => legible_ofOption fun value _ => .string _ value
  have hdetails : ∀ details, Legible tokens 1 (writeDetails details) := by
    intro details
    refine .object ?_
    simp only [List.forall_mem_cons, List.not_mem_nil, false_implies, implies_true, and_true,
      htext, legible_ofWhole]
  have hpreview : Legible tokens 127 (writePreview preview) := by
    refine .object ?_
    simp only [List.forall_mem_cons, List.not_mem_nil, false_implies, implies_true, and_true,
      Legible.string, Legible.bool, true_and]
    refine ⟨legible_ofOption fun kind _ => .string _ _,
      legible_ofOption fun color _ => legible_ofWhole _, ?_⟩
    exact legible_ofOption fun details _ => (hdetails details).mono (by omega)
  exact hpreview

/-- What is written of a preview is read back as it. -/
theorem fromSlice_toVec {preview : StaticHistoryPreview} (h : preview.Typed) :
    fromSlice tokens (toVec tokens preview) = some preview := by
  unfold fromSlice toVec
  rw [fromUtf8_utf8, Option.bind_some, String.toList_ofList, parse_write tokens, Option.bind_some,
    readPreview_writePreview h]
  exact legible_writePreview tokens preview

end Json

/-- Two rows a preview cannot tell apart. -/
structure Row.Alike (row row' : Row) : Prop where
  id : row.id = row'.id
  nonce : row.nonceBytes = row'.nonceBytes
  contentType : row.contentType = row'.contentType
  payloadMetadata : row.payloadMetadata = row'.payloadMetadata
  contentCiphertext : row.contentCiphertext = row'.contentCiphertext

variable {row row' : Row}

theorem Row.Alike.fileMetadata (h : row.Alike row') :
    row.fileMetadata readers = row'.fileMetadata readers := by
  unfold Row.fileMetadata
  rw [h.payloadMetadata, h.contentType]

theorem Row.Alike.openPayload (h : row.Alike row') :
    openPayload readers row = openPayload readers row' := by
  unfold Preview.openPayload
  rw [h.contentCiphertext, h.nonce, h.id, h.contentType, h.fileMetadata readers]

theorem Row.Alike.fromOpenPayload (h : row.Alike row') (payload : ClipboardPayload) :
    fromOpenPayload readers row payload = fromOpenPayload readers row' payload := by
  unfold Preview.fromOpenPayload fromPayload Preview.fileDetails itemMetadata Row.clipboardPrivacy
  dsimp only
  rw [h.payloadMetadata, h.contentType, h.fileMetadata readers]

theorem sizeBytes_lt {payload : ClipboardPayload} (h : openPayload readers row = some payload) :
    ((offer payload).map FileTransfer.sizeBytes).getD (payload.byteLen % 2 ^ 64) < 2 ^ 64 := by
  cases hoffer : offer payload with
  | none =>
    rw [Option.map_none, Option.getD_none]
    exact Nat.mod_lt _ (by omega)
  | some transfer =>
    rw [Option.map_some, Option.getD_some]
    -- Only a file offers, and it opened because the descriptor is valid.
    unfold openPayload at h
    split at h
    · obtain ⟨bytes, -, rfl⟩ := Option.map_eq_some_iff.1 h
      cases hoffer
    · obtain ⟨bytes, -, rfl⟩ := Option.map_eq_some_iff.1 h
      cases hoffer
    · obtain ⟨bytes, -, hfile⟩ := Option.bind_eq_some_iff.1 h
      unfold fileFromBytes at hfile
      split at hfile
      · rename_i hnone
        obtain rfl := Option.some.inj hfile
        exact absurd (hnone.symm.trans hoffer) (by simp)
      · rename_i held hheld
        split at hfile
        · cases hfile
        · rename_i descriptor hparse
          split at hfile
          · cases hfile
          · rename_i hgood
            obtain rfl := Option.some.inj hfile
            obtain rfl : held = transfer := Option.some.inj (hheld.symm.trans hoffer)
            push Not at hgood
            have hvalid := hgood.2
            rw [hgood.1, ne_eq, Bool.not_eq_false] at hvalid
            unfold FileTransfer.isValid at hvalid
            simp only [Bool.and_eq_true, decide_eq_true_eq] at hvalid
            have hsize := hvalid.1.1
            omega
    · obtain ⟨bytes, -, rfl⟩ := Option.map_eq_some_iff.1 h
      cases hoffer

theorem typed_fromOpenPayload {payload : ClipboardPayload}
    (h : openPayload readers row = some payload) : (fromOpenPayload readers row payload).Typed := by
  have hdetails : ∀ details ∈ (fromOpenPayload readers row payload).fileDetails,
      details.sizeBytes = ((offer payload).map FileTransfer.sizeBytes).getD
        (payload.byteLen % 2 ^ 64) ∧ details.fileCount = 1 := by
    intro details hmem
    unfold fromOpenPayload fromPayload at hmem
    dsimp only at hmem
    split at hmem
    · cases hmem
    · obtain ⟨whole, hwhole, rfl⟩ := Option.map_eq_some_iff.1 hmem
      obtain ⟨metadata, -, rfl⟩ := Option.map_eq_some_iff.1 hwhole
      exact ⟨rfl, rfl⟩
  constructor
  · intro details hmem
    rw [(hdetails details hmem).1]
    exact sizeBytes_lt readers h
  · intro details hmem
    rw [(hdetails details hmem).2]
    omega

/-- A preview completed with its row is the item built from the payload. -/
theorem intoItem_fromOpenPayload (row : Row) (payload : ClipboardPayload) (origin : ItemOrigin)
    (localDeviceId : String) :
    intoItem readers (fromOpenPayload readers row payload) row origin localDeviceId =
      fromPayload readers row payload origin localDeviceId true := by
  have hdetails : (fromOpenPayload readers row payload).fileDetails.map (fun details =>
        ({ filename := details.filename
           mimeType := details.mimeType
           sourceReference := details.sourceReference
           sourceAvailable := origin.deviceId = localDeviceId &&
             details.sourceReference.any (sourceAvailable readers)
           sizeBytes := details.sizeBytes
           fileCount := details.fileCount } : FileDetails)) =
      (fromPayload readers row payload origin localDeviceId true).fileDetails := by
    unfold fromOpenPayload fromPayload
    dsimp only
    rw [Option.map_map]
    split
    · rfl
    · unfold fileDetails
      rw [Option.map_map]
      rfl
  unfold intoItem
  rw [hdetails]
  rfl

end CopyPaste.History.Preview
