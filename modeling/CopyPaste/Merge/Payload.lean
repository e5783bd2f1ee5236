import Mathlib

/-!
Payload metadata and organization records as a merge reads them: their shapes,
the checks an authenticated peer's copy has to pass, and the privacy choices two
copies of one payload are merged by. The JSON parser, the digest, the image
decoder and the cipher are the host's.
-/

namespace CopyPaste.Merge.Payload

def startsWith (head text : String) : Bool :=
  head.toList.isPrefixOf text.toList

def isText (contentType : String) : Bool :=
  contentType = "text" || startsWith "text/" contentType

def isBinary (contentType : String) : Bool :=
  !isText contentType

def isImage (contentType : String) : Bool :=
  !isText contentType && startsWith "image/" contentType

def fileType : String := "file"

def maxSyncMetadataBytes : Nat := 48 * 1024

structure ClipboardPrivacy where
  secret : Bool := false
  transient : Bool := false
  deriving DecidableEq, Repr

def ClipboardPrivacy.isEmpty (p : ClipboardPrivacy) : Bool :=
  !p.secret && !p.transient

def ClipboardPrivacy.union (p q : ClipboardPrivacy) : ClipboardPrivacy where
  secret := p.secret || q.secret
  transient := p.transient || q.transient

/-- An explicit choice of the user about secrecy. -/
structure SecretOverride where
  updatedAt : Int
  secret : Bool
  deriving DecidableEq, Repr

/-- The later of two choices; of simultaneous ones the concealing one. -/
def SecretOverride.max : Option SecretOverride → Option SecretOverride → Option SecretOverride
  | none, other => other
  | some a, none => some a
  | some a, some b =>
    if a.updatedAt < b.updatedAt ∨ a.updatedAt = b.updatedAt ∧ a.secret ≤ b.secret
    then some b else some a

structure FileTransfer where
  sizeBytes : Nat
  sha256 : String
  sourceVersion : Option String
  deriving DecidableEq, Repr

def isLowerHex (c : Char) : Bool :=
  c.isDigit || ('a' ≤ c && c ≤ 'f')

def FileTransfer.isValid (t : FileTransfer) : Bool :=
  decide (t.sizeBytes ≤ 2 ^ 63 - 1) &&
    ((t.sha256.utf8ByteSize == 64 && t.sourceVersion.isNone) ||
      (t.sha256 == "" && t.sourceVersion.any fun version =>
        version.utf8ByteSize == 32 && version.toList.all isLowerHex)) &&
    t.sha256.toList.all isLowerHex

structure FileMetadata where
  filename : String
  mimeType : String
  sourceReference : Option String
  transfer : Option FileTransfer
  deriving DecidableEq, Repr

/-- The whole path is one plain component. -/
def isBasename (filename : String) : Bool :=
  !filename.toList.contains '/' && filename != "." && filename != ".."

def FileMetadata.isValid (f : FileMetadata) : Bool :=
  decide (f.filename.utf8ByteSize ≤ 255) && f.filename != "" && isBasename f.filename &&
    decide (f.mimeType.utf8ByteSize ≤ 255) && f.mimeType.toList.contains '/' &&
    (f.sourceReference.all fun reference =>
      reference != "" && decide (reference.utf8ByteSize ≤ 4096) &&
        !reference.toList.contains '\x00') &&
    f.transfer.all FileTransfer.isValid

structure SourceAppIcon where
  pngBase64 : String
  width : Nat
  height : Nat
  deriving DecidableEq, Repr

structure PayloadMetadata where
  credentials : Bool := false
  privacy : ClipboardPrivacy := {}
  secretOverride : Option SecretOverride := none
  file : Option FileMetadata := none
  sourceAppIcon : Option SourceAppIcon := none
  deriving DecidableEq, Repr

/-- A replicated tag, membership or pin. -/
inductive Record
  | tag (id name : String) (deleted : Bool)
  | membership (clipId tagId : String) (assigned : Bool)
  | pin (clipId : String) (pinned : Bool) (order : Option Int)
  deriving DecidableEq, Repr

/-- What the merge uses and does not define: this device's id, JSON, the digest in
hex, PNG decoding, the item key's cipher, and the recognition of credentials. -/
structure Host where
  here : String
  parsePayload : String → Option PayloadMetadata
  parseFile : String → Option FileMetadata
  parseTransfer : List UInt8 → Option FileTransfer
  parseRecord : String → Option Record
  renderPayload : PayloadMetadata → String
  privacyFlag : String → String → Bool
  png : SourceAppIcon → Option (List UInt8)
  sha256 : List UInt8 → String
  encrypt : String → String → List UInt8 → List UInt8 × List UInt8
  classifyCredentials : String → String → Option ClipboardPrivacy

variable (host : Host)

def PayloadMetadata.hasValidComponents (m : PayloadMetadata) : Bool :=
  m.file.all FileMetadata.isValid &&
    (m.sourceAppIcon.all fun icon => (host.png icon).isSome) &&
    (m.secretOverride.all fun choice =>
      decide (0 < choice.updatedAt) && choice.secret == m.privacy.secret) &&
    (m.file.isSome || m.credentials || m.sourceAppIcon.isSome || !m.privacy.isEmpty ||
      m.secretOverride.isSome)

def PayloadMetadata.isValidFor (m : PayloadMetadata) (contentType : String) : Bool :=
  m.hasValidComponents host && (!m.credentials || isText contentType) &&
    if contentType = fileType then m.file.isSome
    else
      isImage contentType && m.file.isSome ||
        m.file.isNone && (m.sourceAppIcon.isSome || m.credentials || !m.privacy.isEmpty ||
          m.secretOverride.isSome)

def PayloadMetadata.toJson (m : PayloadMetadata) (contentType : String) : Option String :=
  if m.isValidFor host contentType ∧
      (host.renderPayload m).utf8ByteSize ≤ maxSyncMetadataBytes
  then some (host.renderPayload m) else none

/-- Parse metadata: a bare file record first, else the full envelope. -/
def PayloadMetadata.fromJson (value contentType : String) : Option PayloadMetadata :=
  if maxSyncMetadataBytes < value.utf8ByteSize then none
  else
    match (host.parseFile value).filter FileMetadata.isValid with
    | some file => if contentType = fileType then some { file := some file } else none
    | none => (host.parsePayload value).filter fun m => m.isValidFor host contentType

/-- The explicit hints alone, whatever else the metadata holds. -/
def PayloadMetadata.privacyFromJson (value : String) : ClipboardPrivacy :=
  if maxSyncMetadataBytes < value.utf8ByteSize then {}
  else ⟨host.privacyFlag value "secret", host.privacyFlag value "transient"⟩

/-- Keep automatic restrictions unless a newer explicit choice exists. -/
def PayloadMetadata.mergePrivacy (m previous : PayloadMetadata) : PayloadMetadata :=
  let privacy := m.privacy.union previous.privacy
  let choice := SecretOverride.max m.secretOverride previous.secretOverride
  { m with
    credentials := m.credentials || previous.credentials
    secretOverride := choice
    privacy := match choice with
      | some choice => { privacy with secret := choice.secret }
      | none => privacy }

/-- The metadata of recognised credentials. -/
def credentialsMetadata (privacy : ClipboardPrivacy) (m : PayloadMetadata) : PayloadMetadata :=
  let privacy := m.privacy.union privacy
  { m with
    credentials := true
    privacy := match m.secretOverride with
      | some choice => { privacy with secret := choice.secret }
      | none => privacy }

def recordContentType : String := "application/vnd.copypaste.organization+json"

def recordIdHead : String := "org:v1:"

def maxRecordBytes : Nat := 2048

def maxTagNameChars : Nat := 64

def isRecordId (id : String) : Bool :=
  startsWith recordIdHead id

def utf8 (text : String) : List UInt8 :=
  text.toUTF8.data.toList

def fromUtf8 (bytes : List UInt8) : Option String :=
  String.fromUTF8? ⟨bytes.toArray⟩

theorem length_utf8 (text : String) : (utf8 text).length = text.utf8ByteSize := by
  unfold utf8
  rw [Array.length_toList]
  rfl

theorem fromUtf8_utf8 (text : String) : fromUtf8 (utf8 text) = some text := by
  unfold fromUtf8 utf8
  have hbytes : (⟨text.toUTF8.data.toList.toArray⟩ : ByteArray) = text.toByteArray := by
    simp [String.toUTF8]
  rw [hbytes, String.fromUTF8?, dif_pos text.isValidUTF8]
  rfl

theorem utf8_append (first second : String) :
    utf8 (first ++ second) = utf8 first ++ utf8 second := by
  simp [utf8, String.toUTF8]

theorem utf8_of_fromUtf8 {bytes : List UInt8} {text : String}
    (h : fromUtf8 bytes = some text) : utf8 text = bytes := by
  unfold fromUtf8 String.fromUTF8? at h
  split at h
  · rw [← Option.some.inj h]
    rfl
  · simp at h

theorem utf8_injective : Function.Injective utf8 := fun first second h =>
  Option.some.inj ((fromUtf8_utf8 first).symm.trans ((congrArg fromUtf8 h).trans
    (fromUtf8_utf8 second)))

theorem utf8_eq_flatMap (text : String) :
    utf8 text = text.toList.flatMap String.utf8EncodeChar := by
  unfold utf8
  rw [String.toUTF8_eq_toByteArray, ← String.utf8Encode_toList, List.utf8Encode,
    List.toList_data_toByteArray]

def Record.id (record : Record) : String :=
  let key := match record with
    | .tag id _ _ => "tag:" ++ id
    | .membership clipId tagId _ =>
      "membership:" ++ toString clipId.utf8ByteSize ++ ":" ++ clipId ++ ":" ++ tagId
    | .pin clipId _ _ => "pin:" ++ clipId
  recordIdHead ++ host.sha256 (utf8 key)

/-- The characters with the `White_Space` property. -/
def isWhitespace (c : Char) : Bool :=
  let n := c.toNat
  decide (9 ≤ n ∧ n ≤ 13) || n == 0x20 || n == 0x85 || n == 0xA0 || n == 0x1680 ||
    decide (0x2000 ≤ n ∧ n ≤ 0x200A) || n == 0x2028 || n == 0x2029 || n == 0x202F ||
    n == 0x205F || n == 0x3000

def isControl (c : Char) : Bool :=
  let n := c.toNat
  decide (n < 0x20) || decide (0x7F ≤ n ∧ n < 0xA0)

def trim (text : List Char) : List Char :=
  ((text.dropWhile isWhitespace).reverse.dropWhile isWhitespace).reverse

theorem trim_infix (text : List Char) : ∃ before after, text = before ++ trim text ++ after := by
  obtain ⟨before, hbefore⟩ := List.dropWhile_suffix (l := text) isWhitespace
  obtain ⟨after, hafter⟩ := List.rdropWhile_prefix isWhitespace (text.dropWhile isWhitespace)
  refine ⟨before, after, ?_⟩
  rw [List.append_assoc]
  exact (hbefore.symm.trans (congrArg (before ++ ·) hafter.symm))

theorem trim_trim (text : List Char) : trim (trim text) = trim text := by
  have hstart : (trim text).dropWhile isWhitespace = trim text := by
    apply List.dropWhile_eq_self_iff.2
    intro hpos
    have hfront : trim text <+: text.dropWhile isWhitespace := List.rdropWhile_prefix _ _
    have hdropped : 0 < (text.dropWhile isWhitespace).length := hpos.trans_le hfront.length_le
    rw [hfront.getElem hpos]
    exact List.dropWhile_get_zero_not _ _ hdropped
  unfold trim at hstart ⊢
  rw [hstart]
  exact List.rdropWhile_idempotent isWhitespace (text.dropWhile isWhitespace)

def validIdentifier (id : String) : Bool :=
  id != "" && decide (id.utf8ByteSize ≤ 128) && !isRecordId id

/-- A finite double, by its rank. -/
def isFinite (order : Int) : Bool :=
  decide (-0x7FF0000000000001 < order ∧ order < 0x7FF0000000000000)

def Record.valid : Record → Bool
  | .tag id name _ =>
    validIdentifier id && !(trim name.toList).isEmpty && name.toList == trim name.toList &&
      decide (name.length ≤ maxTagNameChars) && !name.toList.any isControl
  | .membership clipId tagId _ => validIdentifier clipId && validIdentifier tagId
  | .pin clipId pinned order =>
    validIdentifier clipId && if pinned then order.any isFinite else order.isNone

/-- Whether an item may enter a table: a record only in a valid envelope under its
own id, any other item only under another kind of id. -/
def validWire (id contentType content : String) (deleted : Bool) : Bool :=
  if contentType ≠ recordContentType then !isRecordId id
  else
    !deleted && decide (content.utf8ByteSize ≤ maxRecordBytes) &&
      (host.parseRecord content).any fun record => record.valid && record.id host == id

/-- A host for concrete runs: text stands for its own digest, and the one payload
metadata it reads is a choice to conceal made at 5. -/
def sampleHost : Host where
  here := "laptop"
  parsePayload := fun text =>
    if text = "concealed" then some { privacy := ⟨true, false⟩, secretOverride := some ⟨5, true⟩ }
    else none
  parseFile := fun _ => none
  parseTransfer := fun _ => none
  parseRecord := fun _ => none
  renderPayload := fun m => if m.secretOverride = none then "plain" else "concealed"
  privacyFlag := fun text flag => text = "concealed" && flag = "secret"
  png := fun _ => none
  sha256 := fun bytes => String.ofList (bytes.map fun byte => Char.ofNat byte.toNat)
  encrypt := fun _ _ content => ([], content)
  classifyCredentials := fun _ _ => none

end CopyPaste.Merge.Payload
