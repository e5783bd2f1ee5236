import CopyPaste.Files.Tables
import CopyPaste.Lib.Checks
import CopyPaste.Lib.Frames
import CopyPaste.Lib.Stream
import CopyPaste.Lib.Texts

/-!
The envelope of a binary payload: a header, and the payload in chunks sealed one after
another with the item's id and the header bound into each. A reference envelope is the
sealed digest of a payload in front of an envelope sealed for that digest.
-/

namespace CopyPaste.History.Binary

open Lib.Checks Lib.Frames Lib.Stream Lib.Texts Merge.Payload Files.Tables

inductive CryptoError
  | authFailed
  | invalidNonce
  | internal (reason : String)
  deriving DecidableEq, Repr

def magic : List UInt8 := [0x43, 0x50, 0x42, 0x32]

def version : UInt8 := 3

def chunkBytes : ℕ := 512 * 1024

def streamNonceLen : ℕ := 19

def tagLen : ℕ := 16

def streamNonceOffset : ℕ := 4 + 1 + 8 + 32

def headerBytes : ℕ := streamNonceOffset + streamNonceLen

def maxBinaryBytes : ℕ := 4 * 1024 * 1024

/-- The primitives: the digest, the cipher of the streams and the one of the items, which
takes a key, a nonce and the associated data. -/
structure Crypto (Key : Type*) where
  sha256 : List UInt8 → List UInt8
  stream : Cipher Key
  encrypt : Key → List UInt8 → List UInt8 → List UInt8 → List UInt8
  decrypt : Key → List UInt8 → List UInt8 → List UInt8 → Option (List UInt8)

def divCeil (n d : ℕ) : ℕ := (n + d - 1) / d

def chunkCount (byteLen : ℕ) : ℕ := min (max (divCeil byteLen chunkBytes) 1) (2 ^ 32 - 1)

def header (digest : List UInt8) (byteLen : ℕ) (streamNonce : List UInt8) : List UInt8 :=
  magic ++ [version] ++ toBigEndian 8 byteLen ++ digest ++ streamNonce

def streamAad (id : String) (header : List UInt8) : List UInt8 :=
  utf8 "copypaste/v2/binary-stream|" ++ utf8 (toString (utf8 id).length) ++ utf8 ":" ++ utf8 id ++
    header

/-- `bytes.get(start..stop)`. -/
def getRange (bytes : List UInt8) (start stop : ℕ) : Option (List UInt8) :=
  if start ≤ stop ∧ stop ≤ bytes.length then some ((bytes.drop start).take (stop - start)) else none

def orElse {α : Type*} (error : CryptoError) : Option α → Except CryptoError α
  | some value => .ok value
  | none => .error error

section Seal

variable {Key : Type*} (crypto : Crypto Key) (key : Key) (nonce aad : List UInt8)

/-- The records before the last. The position of the stream runs along with the index. -/
def sealNext (bytes : List UInt8) : ℕ → ℕ → List UInt8 → Except CryptoError (List UInt8)
  | 0, _, out => .ok out
  | count + 1, index, out => do
    let start := index * chunkBytes
    let chunk ← orElse (.internal "binary chunk range is invalid")
      (getRange bytes start (start + chunkBytes))
    sealNext bytes count (index + 1)
      (out ++ crypto.stream.encrypt ⟨key, nonce, index, false, aad, chunk⟩)

def sealWithDigest (bytes digest : List UInt8) (id : String) : Except CryptoError (List UInt8) := do
  if maxBinaryBytes < bytes.length then
    throw .authFailed
  let chunkCount := chunkCount bytes.length
  let header := header digest bytes.length nonce
  let aad := streamAad id header
  let finalIndex := chunkCount - 1
  let out ← sealNext crypto key nonce aad bytes finalIndex 0 header
  let finalStart := finalIndex * chunkBytes
  let finalChunk ← orElse (.internal "binary chunk range is invalid")
    (getRange bytes finalStart bytes.length)
  return out ++ crypto.stream.encrypt ⟨key, nonce, finalIndex, true, aad, finalChunk⟩

/-- `binary::seal`. -/
def sealBytes (bytes : List UInt8) (id : String) : Except CryptoError (List UInt8) :=
  sealWithDigest crypto key nonce bytes (crypto.sha256 bytes) id

end Seal

section Open

variable {Key : Type*} (crypto : Crypto Key)

/-- The records before the last, from an offset on. -/
def openNext (envelope : List UInt8) (key : Key) (nonce aad : List UInt8) :
    ℕ → ℕ → ℕ → List UInt8 → Except CryptoError (ℕ × List UInt8)
  | 0, _, offset, plain => .ok (offset, plain)
  | count + 1, position, offset, plain => do
    let stop := offset + (chunkBytes + tagLen)
    let ciphertext ← orElse .authFailed (getRange envelope offset stop)
    let chunk ← orElse .authFailed
      (crypto.stream.decrypt key nonce position false aad ciphertext)
    if chunk.length ≠ chunkBytes then
      throw .authFailed
    openNext envelope key nonce aad count (position + 1) stop (plain ++ chunk)

/-- `binary::open` of an envelope that is no reference. -/
def openStream (envelope : List UInt8) (key : Key) (id : String) :
    Except CryptoError (List UInt8) := do
  if envelope.length < headerBytes ∨ envelope.take 4 ≠ magic ∨
      (envelope.drop 4).take 1 ≠ [version] then
    throw .authFailed
  let byteLen := ofBigEndian ((envelope.drop 5).take 8)
  if maxBinaryBytes < byteLen then
    throw .authFailed
  let chunkCount := max (divCeil byteLen chunkBytes) 1
  if envelope.length ≠ byteLen + headerBytes + chunkCount * tagLen then
    throw .authFailed
  let expectedHash := (envelope.drop 13).take 32
  let streamNonce := (envelope.drop streamNonceOffset).take streamNonceLen
  let aad := streamAad id (envelope.take headerBytes)
  let (offset, plain) ←
    openNext crypto envelope key streamNonce aad (chunkCount - 1) 0 headerBytes []
  if byteLen < (chunkCount - 1) * chunkBytes then
    throw .authFailed
  let finalPlainLen := byteLen - (chunkCount - 1) * chunkBytes
  let stop := offset + (finalPlainLen + tagLen)
  let ciphertext ← orElse .authFailed (getRange envelope offset stop)
  let chunk ← orElse .authFailed
    (crypto.stream.decrypt key streamNonce (chunkCount - 1) true aad ciphertext)
  if chunk.length ≠ finalPlainLen then
    throw .authFailed
  let plain := plain ++ chunk
  if stop ≠ envelope.length ∨ plain.length ≠ byteLen ∨ crypto.sha256 plain ≠ expectedHash then
    throw .authFailed
  return plain

end Open

section Reference

variable {Key : Type*} (crypto : Crypto Key)

def nonceLen : ℕ := 24

def hexDigit (n : ℕ) : Char := Char.ofNat (if n < 10 then 48 + n else 87 + n)

/-- `hex::encode`, the content hash of a digest. -/
def contentHash (digest : List UInt8) : String :=
  String.ofList (digest.flatMap fun byte => [hexDigit (byte.toNat / 16), hexDigit (byte.toNat % 16)])

def itemAad (itemId : String) : List UInt8 :=
  utf8 "copypaste/v2/item-aead|" ++ utf8 (toString (utf8 itemId).length) ++ utf8 ":" ++ utf8 itemId

/-- `crate::decrypt`. -/
def decryptItem (ciphertext nonce : List UInt8) (key : Key) (itemId : String) :
    Except CryptoError (List UInt8) := do
  if nonce.length ≠ nonceLen then
    throw .invalidNonce
  if ciphertext.length < tagLen then
    throw .authFailed
  orElse .authFailed (crypto.decrypt key nonce (itemAad itemId) ciphertext)

/-- `binary_reference::seal`, with the nonce of the reference and the one of the stream. -/
def sealReference (bytes digest : List UInt8) (key : Key) (id : String)
    (nonce streamNonce : List UInt8) : Except CryptoError (List UInt8) := do
  let blobId := contentHash digest
  let reference := crypto.encrypt key nonce (itemAad id) (utf8 blobId)
  let blob ← sealWithDigest crypto key streamNonce bytes digest blobId
  return referenceMagic ++ nonce ++ toBigEndian 4 reference.length ++ reference ++ blob

def isAsciiHexdigit (c : Char) : Bool :=
  c.isDigit || ('a' ≤ c && c ≤ 'f') || ('A' ≤ c && c ≤ 'F')

/-- `binary_reference::open`. The blob is no reference, so that it opens as a stream. -/
def openReference (envelope : List UInt8) (key : Key) (id : String) :
    Except CryptoError (List UInt8) := do
  let (reference, blob) ← orElse .authFailed (splitReference envelope)
  let blobId ← decryptItem crypto (reference.drop 32) ((reference.drop 4).take 24) key id
  let blobId ← orElse .authFailed (fromUtf8 blobId)
  if blobId.utf8ByteSize ≠ 64 ∨ ¬ blobId.toList.all isAsciiHexdigit ∨
      ¬ magic.isPrefixOf blob then
    throw .authFailed
  let bytes ← openStream crypto blob key blobId
  if contentHash (crypto.sha256 bytes) ≠ blobId then
    throw .authFailed
  return bytes

def isReference (envelope : List UInt8) : Bool := referenceMagic.isPrefixOf envelope

/-- `binary::open`. -/
def openEnvelope (envelope : List UInt8) (key : Key) (id : String) :
    Except CryptoError (List UInt8) :=
  if isReference envelope then openReference crypto envelope key id
  else openStream crypto envelope key id

end Reference

section Envelope

structure Sealing (Key : Type*) where
  bytes : List UInt8
  key : Key
  id : String
  nonce : List UInt8
  fits : bytes.length ≤ maxBinaryBytes
  nonce_length : nonce.length = streamNonceLen

variable {Key : Type*} (crypto : Crypto Key)

def chunkAt (bytes : List UInt8) (index : ℕ) : List UInt8 :=
  (bytes.drop (index * chunkBytes)).take chunkBytes

namespace Sealing

variable (s : Sealing Key)

def count : ℕ := chunkCount s.bytes.length

def header : List UInt8 := Binary.header (crypto.sha256 s.bytes) s.bytes.length s.nonce

def record (index : ℕ) : Record Key :=
  ⟨s.key, s.nonce, index, decide (index + 1 = s.count), streamAad s.id (s.header crypto),
    chunkAt s.bytes index⟩

def envelope : List UInt8 :=
  s.header crypto ++ (List.range s.count).flatMap fun index =>
    crypto.stream.encrypt (s.record crypto index)

theorem count_pos : 0 < s.count := by
  unfold count chunkCount
  omega

theorem count_eq : s.count = max (divCeil s.bytes.length chunkBytes) 1 := by
  have hfits := s.fits
  unfold count chunkCount divCeil chunkBytes
  unfold maxBinaryBytes at hfits
  omega

theorem before_last : (s.count - 1) * chunkBytes ≤ s.bytes.length := by
  rw [count_eq]
  unfold divCeil chunkBytes
  omega

theorem length_le : s.bytes.length ≤ s.count * chunkBytes := by
  rw [count_eq]
  unfold divCeil chunkBytes
  omega

end Sealing

theorem getRange_chunk {bytes : List UInt8} {index : ℕ}
    (h : (index + 1) * chunkBytes ≤ bytes.length) :
    getRange bytes (index * chunkBytes) (index * chunkBytes + chunkBytes) =
      some (chunkAt bytes index) := by
  rw [Nat.add_one_mul] at h
  rw [getRange, if_pos ⟨Nat.le_add_right _ _, h⟩, Nat.add_sub_cancel_left, chunkAt]

/-- The records before the last are those of the chunks in turn. -/
theorem sealNext_eq (key : Key) (nonce aad bytes : List UInt8) (count index : ℕ)
    (out : List UInt8) (h : (index + count) * chunkBytes ≤ bytes.length) :
    sealNext crypto key nonce aad bytes count index out =
      .ok (out ++ (List.range' index count).flatMap fun i =>
        crypto.stream.encrypt ⟨key, nonce, i, false, aad, chunkAt bytes i⟩) := by
  induction count generalizing index out with
  | zero => simp [sealNext]
  | succ count ih =>
    have hle : index + 1 ≤ index + (count + 1) := by omega
    have hfirst : (index + 1) * chunkBytes ≤ bytes.length :=
      (Nat.mul_le_mul_right chunkBytes hle).trans h
    have hsame : index + 1 + count = index + (count + 1) := by omega
    have hrest : (index + 1 + count) * chunkBytes ≤ bytes.length := hsame ▸ h
    rw [sealNext, getRange_chunk hfirst]
    show sealNext crypto key nonce aad bytes count (index + 1) _ = _
    rw [ih _ _ hrest, List.range'_succ, List.flatMap_cons, List.append_assoc]

/-- The last chunk is all that the others leave. -/
theorem Sealing.last_chunk (s : Sealing Key) :
    s.bytes.drop ((s.count - 1) * chunkBytes) = chunkAt s.bytes (s.count - 1) := by
  have hlength := s.length_le
  have hpos := s.count_pos
  have hcount : s.count * chunkBytes = (s.count - 1) * chunkBytes + chunkBytes := by
    rw [← Nat.add_one_mul, Nat.sub_add_cancel hpos]
  rw [chunkAt, List.take_of_length_le]
  rw [List.length_drop]
  omega

theorem Sealing.records_split (s : Sealing Key) :
    ((List.range s.count).flatMap fun index => crypto.stream.encrypt (s.record crypto index)) =
      ((List.range' 0 (s.count - 1)).flatMap fun i => crypto.stream.encrypt
        ⟨s.key, s.nonce, i, false, streamAad s.id (s.header crypto), chunkAt s.bytes i⟩) ++
      crypto.stream.encrypt ⟨s.key, s.nonce, s.count - 1, true,
        streamAad s.id (s.header crypto), chunkAt s.bytes (s.count - 1)⟩ := by
  have hpos := s.count_pos
  have hlast : s.record crypto (s.count - 1) = ⟨s.key, s.nonce, s.count - 1, true,
      streamAad s.id (s.header crypto), chunkAt s.bytes (s.count - 1)⟩ := by
    rw [Sealing.record, decide_eq_true (by omega)]
  have hrange : List.range s.count = List.range' 0 (s.count - 1) ++ [s.count - 1] := by
    rw [← List.range_eq_range', ← List.range_succ, Nat.succ_eq_add_one, Nat.sub_add_cancel hpos]
  rw [hrange, List.flatMap_append, List.flatMap_singleton, hlast]
  congr 1
  refine List.flatMap_congr fun i hi => ?_
  rw [List.mem_range'_1] at hi
  rw [Sealing.record, decide_eq_false (by omega)]

theorem sealBytes_eq (s : Sealing Key) :
    sealBytes crypto s.key s.nonce s.bytes s.id = .ok (s.envelope crypto) := by
  have hfits := Nat.not_lt.2 s.fits
  have hnext := sealNext_eq crypto s.key s.nonce (streamAad s.id (s.header crypto)) s.bytes
    (s.count - 1) 0 (s.header crypto) (by rw [Nat.zero_add]; exact s.before_last)
  have hlast : getRange s.bytes ((s.count - 1) * chunkBytes) s.bytes.length =
      some (chunkAt s.bytes (s.count - 1)) := by
    rw [getRange, if_pos ⟨s.before_last, Nat.le_refl _⟩, ← s.last_chunk, ← List.length_drop,
      List.take_length]
  unfold Sealing.count Sealing.header at hnext
  unfold Sealing.count at hlast
  unfold sealBytes sealWithDigest
  rw [if_neg hfits]
  simp only [hnext, hlast]
  rw [Sealing.envelope, s.records_split, ← List.append_assoc]
  rfl

end Envelope

section Fields

theorem streamAad_inj {id other : String} {head otherHead : List UInt8}
    (hlength : head.length = otherHead.length)
    (h : streamAad id head = streamAad other otherHead) : id = other ∧ head = otherHead := by
  obtain ⟨htext, hhead⟩ := List.append_inj' h hlength
  refine ⟨?_, hhead⟩
  rw [← utf8_append, ← utf8_append, ← utf8_append, ← utf8_append, ← utf8_append,
    ← utf8_append] at htext
  have htext := utf8_injective htext
  rw [String.append_assoc, String.append_assoc, String.append_assoc, String.append_assoc] at htext
  have hrest := (String.append_right_inj _).1 htext
  rw [← String.append_assoc, ← String.append_assoc] at hrest
  exact (number_colon_inj hrest).2

theorem length_header {digest nonce : List UInt8} (byteLen : ℕ) (hdigest : digest.length = 32)
    (hnonce : nonce.length = streamNonceLen) :
    (header digest byteLen nonce).length = headerBytes := by
  simp only [header, magic, headerBytes, streamNonceOffset, List.length_append, List.length_cons,
    List.length_nil, length_toBigEndian, hdigest, hnonce]

theorem header_digest {digest nonce other otherNonce : List UInt8} {byteLen otherLen : ℕ}
    (hlength : digest.length = other.length)
    (h : header digest byteLen nonce = header other otherLen otherNonce) : digest = other := by
  unfold header at h
  have hfront := (List.append_inj h (by simp [hlength])).1
  exact (List.append_inj hfront (by simp)).2

variable {digest nonce rest : List UInt8} {byteLen : ℕ}

theorem header_front (hdigest : digest.length = 32) (hnonce : nonce.length = streamNonceLen) :
    (header digest byteLen nonce ++ rest).take headerBytes = header digest byteLen nonce := by
  rw [← length_header byteLen hdigest hnonce]
  exact List.take_left

theorem header_magic : (header digest byteLen nonce ++ rest).take 4 = magic := rfl

theorem header_version : ((header digest byteLen nonce ++ rest).drop 4).take 1 = [version] := rfl

theorem header_length (h : byteLen < 256 ^ 8) :
    ofBigEndian (((header digest byteLen nonce ++ rest).drop 5).take 8) = byteLen := by
  have hdrop : (header digest byteLen nonce ++ rest).drop 5 =
      toBigEndian 8 byteLen ++ (digest ++ nonce ++ rest) := by
    simp [header, magic]
  rw [hdrop, List.take_append_of_le_length (by simp), List.take_of_length_le (by simp)]
  exact ofBigEndian_toBigEndian h

theorem header_hash (hdigest : digest.length = 32) :
    ((header digest byteLen nonce ++ rest).drop 13).take 32 = digest := by
  have hdrop : (header digest byteLen nonce ++ rest).drop 13 = digest ++ (nonce ++ rest) := by
    have hfront : (magic ++ [version] ++ toBigEndian 8 byteLen).length = 13 := by simp [magic]
    rw [header, List.append_assoc, List.append_assoc, ← hfront, List.drop_left]
  rw [hdrop, ← hdigest, List.take_left]

theorem header_nonce (hdigest : digest.length = 32) (hnonce : nonce.length = streamNonceLen) :
    ((header digest byteLen nonce ++ rest).drop streamNonceOffset).take streamNonceLen = nonce := by
  have hdrop : (header digest byteLen nonce ++ rest).drop streamNonceOffset = nonce ++ rest := by
    have hfront : (magic ++ [version] ++ toBigEndian 8 byteLen ++ digest).length =
        streamNonceOffset := by simp [magic, hdigest, streamNonceOffset]
    rw [header, List.append_assoc, ← hfront, List.drop_left]
  rw [hdrop, ← hnonce, List.take_left]

end Fields

section Records

variable {Key : Type*} {crypto : Crypto Key} {calls : Set (Sealing Key)}

/-- Every record that some sealings made. -/
def made (crypto : Crypto Key) (calls : Set (Sealing Key)) : Set (Record Key) :=
  {record | ∃ s ∈ calls, ∃ index < s.count, record = s.record crypto index}

/-- The digest as it is, and no two payloads of one digest. -/
structure Digests (crypto : Crypto Key) (calls : Set (Sealing Key)) : Prop where
  length : ∀ bytes, (crypto.sha256 bytes).length = 32
  apart : ∀ s ∈ calls, ∀ other ∈ calls,
    crypto.sha256 s.bytes = crypto.sha256 other.bytes → s.bytes = other.bytes

theorem Sealing.length_header (hdigests : Digests crypto calls) (s : Sealing Key) :
    (s.header crypto).length = headerBytes :=
  Binary.length_header _ (hdigests.length _) s.nonce_length

variable {s : Sealing Key} {bytes : List UInt8} {offset size index : ℕ}

/-- A record that is bound to the id and the header of a sealing is one of its own. -/
theorem made_of_aad (hdigests : Digests crypto calls) (hs : s ∈ calls) {record : Record Key}
    (hmade : record ∈ made crypto calls) (haad : record.aad = streamAad s.id (s.header crypto)) :
    record.position < s.count ∧ record.last = decide (record.position + 1 = s.count) ∧
      record.plain = chunkAt s.bytes record.position := by
  obtain ⟨other, hother, index, hindex, rfl⟩ := hmade
  have hlength : (other.header crypto).length = (s.header crypto).length := by
    rw [other.length_header hdigests, s.length_header hdigests]
  obtain ⟨-, hheader⟩ := streamAad_inj hlength haad
  have hdigest : crypto.sha256 other.bytes = crypto.sha256 s.bytes :=
    header_digest (by rw [hdigests.length, hdigests.length]) hheader
  have hbytes := hdigests.apart other hother s hs hdigest
  have hcount : other.count = s.count :=
    congrArg (fun bytes : List UInt8 => chunkCount bytes.length) hbytes
  refine ⟨hcount ▸ hindex, ?_, ?_⟩
  · show decide (index + 1 = other.count) = _
    rw [hcount]
    rfl
  · show chunkAt other.bytes index = _
    rw [hbytes]
    rfl

theorem getRange_eq_some {part : List UInt8} (hsize : 0 < size) :
    getRange bytes offset (offset + size) = some part ↔
      part.length = size ∧ bytes.drop offset = part ++ bytes.drop (offset + size) := by
  unfold getRange
  constructor
  · intro h
    split at h
    · next hrange =>
      rw [Nat.add_sub_cancel_left] at h
      obtain rfl := Option.some.inj h
      refine ⟨?_, ?_⟩
      · rw [List.length_take, List.length_drop]
        omega
      · rw [← List.drop_drop, List.take_append_drop]
    · cases h
  · rintro ⟨hlength, hdrop⟩
    have htotal := congrArg List.length hdrop
    rw [List.length_drop, List.length_append, List.length_drop, hlength] at htotal
    rw [if_pos ⟨by omega, by omega⟩, Nat.add_sub_cancel_left, hdrop,
      List.take_append_of_le_length (by omega), List.take_of_length_le (by omega)]

variable {key : Key} {nonce aad envelope : List UInt8} {chunk : ℕ → List UInt8}

theorem orElse_ok_iff {α : Type*} {error : CryptoError} {value : Option α} {a : α} :
    orElse error value = .ok a ↔ value = some a := by
  cases value <;> simp [orElse]

theorem openNext_succ_iff {count position : ℕ} {plain : List UInt8} {result : ℕ × List UInt8} :
    openNext crypto envelope key nonce aad (count + 1) position offset plain = .ok result ↔
      ∃ ciphertext, getRange envelope offset (offset + (chunkBytes + tagLen)) = some ciphertext ∧
        ∃ opened, crypto.stream.decrypt key nonce position false aad ciphertext = some opened ∧
          opened.length = chunkBytes ∧
          openNext crypto envelope key nonce aad count (position + 1)
            (offset + (chunkBytes + tagLen)) (plain ++ opened) = .ok result := by
  simp only [openNext, bind_ok_iff, orElse_ok_iff, unless_ok_iff, ne_eq, Decidable.not_not]

/-- Records that open in turn are read to the end of the last. -/
theorem openNext_ok (count position offset : ℕ) (plain rest : List UInt8)
    (hrecords : ∀ i, position ≤ i → i < position + count →
      (chunk i).length = chunkBytes ∧
      (crypto.stream.encrypt ⟨key, nonce, i, false, aad, chunk i⟩).length = chunkBytes + tagLen ∧
      crypto.stream.decrypt key nonce i false aad
        (crypto.stream.encrypt ⟨key, nonce, i, false, aad, chunk i⟩) = some (chunk i))
    (hdrop : envelope.drop offset = ((List.range' position count).flatMap fun i =>
      crypto.stream.encrypt ⟨key, nonce, i, false, aad, chunk i⟩) ++ rest) :
    openNext crypto envelope key nonce aad count position offset plain =
      .ok (offset + count * (chunkBytes + tagLen),
        plain ++ (List.range' position count).flatMap chunk) ∧
    envelope.drop (offset + count * (chunkBytes + tagLen)) = rest := by
  induction count generalizing position offset plain with
  | zero => simpa [openNext] using hdrop
  | succ count ih =>
    obtain ⟨hchunk, hlength, hopens⟩ := hrecords position (Nat.le_refl _) (by omega)
    rw [List.range'_succ, List.flatMap_cons, List.append_assoc] at hdrop
    have hnext : envelope.drop (offset + (chunkBytes + tagLen)) =
        ((List.range' (position + 1) count).flatMap fun i =>
          crypto.stream.encrypt ⟨key, nonce, i, false, aad, chunk i⟩) ++ rest := by
      rw [← List.drop_drop, hdrop, ← hlength, List.drop_left]
    have hrange : getRange envelope offset (offset + (chunkBytes + tagLen)) =
        some (crypto.stream.encrypt ⟨key, nonce, position, false, aad, chunk position⟩) := by
      refine (getRange_eq_some (by unfold tagLen; omega)).2 ⟨hlength, ?_⟩
      rw [hdrop, hnext]
    obtain ⟨hrun, hrest⟩ := ih (position + 1) (offset + (chunkBytes + tagLen))
      (plain ++ chunk position) (fun i hle hlt => hrecords i (by omega) (by omega)) hnext
    have hoffset : offset + (chunkBytes + tagLen) + count * (chunkBytes + tagLen) =
        offset + (count + 1) * (chunkBytes + tagLen) := by
      rw [Nat.add_one_mul]
      omega
    rw [hoffset] at hrun hrest
    refine ⟨?_, hrest⟩
    rw [List.range'_succ, List.flatMap_cons, ← List.append_assoc]
    exact openNext_succ_iff.2 ⟨_, hrange, _, hopens, hchunk, hrun⟩

/-- What was read in turn was sealed in turn, where a position tells the chunk. -/
theorem openNext_inv (hideal : Ideal crypto.stream tagLen (made crypto calls))
    (hchunk : ∀ i plain, ⟨key, nonce, i, false, aad, plain⟩ ∈ made crypto calls →
      plain = chunk i)
    (count position offset : ℕ) (plain : List UInt8) {result : ℕ × List UInt8}
    (hok : openNext crypto envelope key nonce aad count position offset plain = .ok result) :
    result = (offset + count * (chunkBytes + tagLen),
        plain ++ (List.range' position count).flatMap chunk) ∧
    envelope.drop offset = ((List.range' position count).flatMap fun i =>
      crypto.stream.encrypt ⟨key, nonce, i, false, aad, chunk i⟩) ++ envelope.drop result.1 := by
  induction count generalizing position offset plain with
  | zero =>
    cases hok
    simp
  | succ count ih =>
    obtain ⟨ciphertext, hrange, opened, hopen, -, hok⟩ := openNext_succ_iff.1 hok
    obtain ⟨hmade, hencrypt⟩ := hideal.opens_iff.1 hopen
    obtain rfl := hchunk position opened hmade
    obtain ⟨hresult, hrest⟩ := ih (position + 1) (offset + (chunkBytes + tagLen))
      (plain ++ chunk position) hok
    have hdrop := ((getRange_eq_some (by unfold tagLen; omega)).1 hrange).2
    refine ⟨?_, ?_⟩
    · rw [hresult, List.range'_succ, List.flatMap_cons, ← List.append_assoc, Nat.add_one_mul]
      refine Prod.ext ?_ rfl
      show _ + _ = _ + _
      omega
    · rw [hdrop, hrest, ← hencrypt, List.range'_succ, List.flatMap_cons, List.append_assoc]

theorem flatMap_chunkAt (bytes : List UInt8) (count : ℕ) :
    (List.range' 0 count).flatMap (chunkAt bytes) = bytes.take (count * chunkBytes) := by
  induction count with
  | zero => simp
  | succ count ih =>
    rw [List.range'_1_concat, List.flatMap_append, ih, List.flatMap_singleton, Nat.zero_add,
      chunkAt, Nat.add_one_mul, ← List.take_add]

/-- Records in turn and a last one behind a sealing's header are the sealing's envelope. -/
private theorem envelope_of_opened (hideal : Ideal crypto.stream tagLen (made crypto calls))
    (hdigests : Digests crypto calls) (hs : s ∈ calls)
    (hhead : envelope.take headerBytes = s.header crypto) {plain : List UInt8}
    (hnext : openNext crypto envelope s.key s.nonce (streamAad s.id (s.header crypto))
      (s.count - 1) 0 headerBytes [] = .ok (offset, plain))
    (hlast : getRange envelope offset (offset + (size + tagLen)) =
      some (crypto.stream.encrypt ⟨s.key, s.nonce, s.count - 1, true,
        streamAad s.id (s.header crypto), chunkAt s.bytes (s.count - 1)⟩))
    (hend : offset + (size + tagLen) = envelope.length) :
    s.bytes = plain ++ chunkAt s.bytes (s.count - 1) ∧ envelope = s.envelope crypto := by
  have hchunk : ∀ i opened, (⟨s.key, s.nonce, i, false, streamAad s.id (s.header crypto),
      opened⟩ : Record Key) ∈ made crypto calls → opened = chunkAt s.bytes i :=
    fun i opened hmade => (made_of_aad hdigests hs hmade rfl).2.2
  obtain ⟨hresult, hrun⟩ := openNext_inv hideal hchunk _ _ _ _ hnext
  have hdrop := ((getRange_eq_some (by unfold tagLen; omega)).1 hlast).2
  rw [hend, List.drop_length, List.append_nil] at hdrop
  constructor
  · have hplain : plain = [] ++ (List.range' 0 (s.count - 1)).flatMap (chunkAt s.bytes) :=
      (Prod.mk.inj hresult).2
    rw [hplain, List.nil_append, flatMap_chunkAt, ← s.last_chunk, List.take_append_drop]
  · rw [Sealing.envelope, s.records_split, ← hdrop, ← hrun, ← hhead, List.take_append_drop]

/-- An envelope that opens as a stream was sealed, under the key and for the id. -/
theorem openStream_sealed (hideal : Ideal crypto.stream tagLen (made crypto calls))
    (hdigests : Digests crypto calls) {id : String}
    (hok : openStream crypto envelope key id = .ok bytes) :
    ∃ s ∈ calls, s.key = key ∧ s.id = id ∧ s.bytes = bytes ∧ envelope = s.envelope crypto := by
  simp only [openStream, bind_ok_iff, orElse_ok_iff, unless_ok_iff, pure_ok_iff] at hok
  obtain ⟨hhead, -, -, ⟨offset, plain⟩, hnext, -, ciphertext, hrange, last, hopen, -, hend, rfl⟩ :=
    hok
  simp only [not_or, ne_eq, Decidable.not_not] at hhead hend
  obtain ⟨hmade, hencrypt⟩ := hideal.opens_iff.1 hopen
  obtain ⟨s, hs, index, hindex, hrecord⟩ := hmade
  have hlong : (envelope.take headerBytes).length = (s.header crypto).length := by
    rw [s.length_header hdigests, List.length_take]
    omega
  simp only [Sealing.record, Record.mk.injEq] at hrecord
  obtain ⟨rfl, hnonce, rfl, hcount, haad, rfl⟩ := hrecord
  obtain ⟨rfl, hheader⟩ := streamAad_inj hlong haad
  have hcount := of_decide_eq_true hcount.symm
  have hindex := Nat.eq_sub_of_add_eq hcount
  rw [hindex] at hnext hrange hencrypt hend ⊢
  rw [hnonce, hheader] at hnext hencrypt
  rw [← hencrypt] at hrange
  obtain ⟨hbytes, henvelope⟩ := envelope_of_opened hideal hdigests hs hheader hnext hrange hend.1
  exact ⟨s, hs, rfl, rfl, hbytes, henvelope⟩

theorem Sealing.record_made {s : Sealing Key} (hs : s ∈ calls) {index : ℕ}
    (hindex : index < s.count) : s.record crypto index ∈ made crypto calls :=
  ⟨s, hs, index, hindex, rfl⟩

theorem Sealing.early_made {s : Sealing Key} (hs : s ∈ calls) {index : ℕ}
    (hindex : index < s.count - 1) :
    (⟨s.key, s.nonce, index, false, streamAad s.id (s.header crypto),
      chunkAt s.bytes index⟩ : Record Key) ∈ made crypto calls := by
  have hmade := @Sealing.record_made Key crypto calls s hs index (by omega)
  rwa [Sealing.record, decide_eq_false (by omega)] at hmade

theorem Sealing.length_chunk (s : Sealing Key) (hindex : index < s.count - 1) :
    (chunkAt s.bytes index).length = chunkBytes := by
  have hle := (Nat.mul_le_mul_right chunkBytes (show index + 1 ≤ s.count - 1 by omega)).trans
    s.before_last
  rw [Nat.add_one_mul] at hle
  rw [chunkAt, List.length_take, List.length_drop]
  omega

/-- What a sealing made is read again, up to the last record. -/
private theorem openNext_envelope (hideal : Ideal crypto.stream tagLen (made crypto calls))
    (hdigests : Digests crypto calls) (hs : s ∈ calls) :
    openNext crypto (s.envelope crypto) s.key s.nonce (streamAad s.id (s.header crypto))
        (s.count - 1) 0 headerBytes [] =
      .ok (headerBytes + (s.count - 1) * (chunkBytes + tagLen),
        s.bytes.take ((s.count - 1) * chunkBytes)) ∧
    (s.envelope crypto).drop (headerBytes + (s.count - 1) * (chunkBytes + tagLen)) =
      crypto.stream.encrypt ⟨s.key, s.nonce, s.count - 1, true,
        streamAad s.id (s.header crypto), chunkAt s.bytes (s.count - 1)⟩ := by
  have hdrop : (s.envelope crypto).drop headerBytes =
      (List.range s.count).flatMap fun index => crypto.stream.encrypt (s.record crypto index) := by
    rw [Sealing.envelope, ← s.length_header hdigests, List.drop_left]
  rw [s.records_split] at hdrop
  have hrecords : ∀ i, 0 ≤ i → i < 0 + (s.count - 1) →
      (chunkAt s.bytes i).length = chunkBytes ∧
      (crypto.stream.encrypt ⟨s.key, s.nonce, i, false, streamAad s.id (s.header crypto),
        chunkAt s.bytes i⟩).length = chunkBytes + tagLen ∧
      crypto.stream.decrypt s.key s.nonce i false (streamAad s.id (s.header crypto))
        (crypto.stream.encrypt ⟨s.key, s.nonce, i, false, streamAad s.id (s.header crypto),
          chunkAt s.bytes i⟩) = some (chunkAt s.bytes i) := by
    intro i _ hi
    have hindex : i < s.count - 1 := by omega
    have hmade := @Sealing.early_made Key crypto calls s hs i hindex
    exact ⟨s.length_chunk hindex, (hideal.length hmade).trans (by rw [s.length_chunk hindex]),
      hideal.opens_iff.2 ⟨hmade, rfl⟩⟩
  have hnext := openNext_ok (s.count - 1) 0 headerBytes [] _ hrecords hdrop
  rw [flatMap_chunkAt, List.nil_append] at hnext
  exact hnext

theorem Sealing.length_last (s : Sealing Key) : (chunkAt s.bytes (s.count - 1)).length =
    s.bytes.length - (s.count - 1) * chunkBytes := by
  rw [← s.last_chunk, List.length_drop]

theorem Sealing.last_made {s : Sealing Key} (hs : s ∈ calls) :
    (⟨s.key, s.nonce, s.count - 1, true, streamAad s.id (s.header crypto),
      chunkAt s.bytes (s.count - 1)⟩ : Record Key) ∈ made crypto calls := by
  have hpos := s.count_pos
  have hmade := @Sealing.record_made Key crypto calls s hs (s.count - 1) (by omega)
  rwa [Sealing.record, decide_eq_true (by omega)] at hmade

/-- The length of an envelope is that of the payload with the header and the tags. -/
theorem Sealing.length_envelope (hideal : Ideal crypto.stream tagLen (made crypto calls))
    (hdigests : Digests crypto calls) (hs : s ∈ calls) :
    (s.envelope crypto).length = headerBytes + (s.count - 1) * (chunkBytes + tagLen) +
      (s.bytes.length - (s.count - 1) * chunkBytes + tagLen) := by
  have htotal := congrArg List.length (openNext_envelope hideal hdigests hs).2
  rw [List.length_drop, hideal.length (s.last_made hs), s.length_last] at htotal
  unfold tagLen at htotal ⊢
  omega

/-- What was sealed opens, under its key and for its id. -/
theorem openStream_envelope (hideal : Ideal crypto.stream tagLen (made crypto calls))
    (hdigests : Digests crypto calls) (hs : s ∈ calls) :
    openStream crypto (s.envelope crypto) s.key s.id = .ok s.bytes := by
  obtain ⟨hnext, hdrop⟩ := openNext_envelope hideal hdigests hs
  have hpos := s.count_pos
  have hmade := @Sealing.last_made Key crypto calls s hs
  have hfits := s.fits
  have hbefore := s.before_last
  have hcipher := hideal.length hmade
  have hlength := s.length_envelope hideal hdigests hs
  have hcounts : (s.count - 1) * (chunkBytes + tagLen) =
      (s.count - 1) * chunkBytes + (s.count - 1) * tagLen := Nat.mul_add _ _ _
  have htags : s.count * tagLen = (s.count - 1) * tagLen + tagLen := by
    rw [← Nat.add_one_mul, Nat.sub_add_cancel hpos]
  have hbyteLen : ofBigEndian (((s.envelope crypto).drop 5).take 8) = s.bytes.length :=
    header_length (Nat.lt_of_le_of_lt hfits (by decide))
  have hhead : (s.envelope crypto).take headerBytes = s.header crypto :=
    header_front (hdigests.length _) s.nonce_length
  have hnonce : ((s.envelope crypto).drop streamNonceOffset).take streamNonceLen = s.nonce :=
    header_nonce (hdigests.length _) s.nonce_length
  have hhash : ((s.envelope crypto).drop 13).take 32 = crypto.sha256 s.bytes :=
    header_hash (hdigests.length _)
  have hlast : getRange (s.envelope crypto) (headerBytes + (s.count - 1) * (chunkBytes + tagLen))
      (headerBytes + (s.count - 1) * (chunkBytes + tagLen) +
        (s.bytes.length - (s.count - 1) * chunkBytes + tagLen)) =
      some (crypto.stream.encrypt ⟨s.key, s.nonce, s.count - 1, true,
        streamAad s.id (s.header crypto), chunkAt s.bytes (s.count - 1)⟩) := by
    refine (getRange_eq_some (by unfold tagLen; omega)).2 ⟨hcipher.trans (by rw [s.length_last]), ?_⟩
    rw [← hlength, List.drop_length, List.append_nil]
    exact hdrop
  have hall : s.bytes.take ((s.count - 1) * chunkBytes) ++ chunkAt s.bytes (s.count - 1) =
      s.bytes := by
    rw [← s.last_chunk, List.take_append_drop]
  simp only [openStream, bind_ok_iff, orElse_ok_iff, unless_ok_iff, pure_ok_iff, hbyteLen,
    ← s.count_eq, hhead, hnonce, hhash]
  refine ⟨?_, Nat.not_lt.2 hfits, ?_, _, hnext, Nat.not_lt.2 hbefore, _, hlast, _,
    hideal.opens_iff.2 ⟨hmade, rfl⟩, ?_, ?_, hall⟩
  · simp only [not_or, ne_eq, Decidable.not_not]
    refine ⟨?_, header_magic, header_version⟩
    omega
  · simp only [ne_eq, Decidable.not_not]
    omega
  · simp only [ne_eq, Decidable.not_not]
    exact s.length_last
  · simp only [not_or, ne_eq, Decidable.not_not, hall]
    exact ⟨hlength.symm, trivial, trivial⟩

def recordAt (envelope : List UInt8) (index : ℕ) : List UInt8 :=
  (envelope.drop (headerBytes + index * (chunkBytes + tagLen))).take (chunkBytes + tagLen)

private theorem flatMap_split (part : ℕ → List UInt8) {total : ℕ} (hindex : index ≤ total) :
    (List.range' 0 total).flatMap part =
      (List.range' 0 index).flatMap part ++ (List.range' index (total - index)).flatMap part := by
  have hall := @List.range'_append_1 0 index (total - index)
  rw [Nat.zero_add, Nat.add_sub_cancel' hindex] at hall
  rw [← hall, List.flatMap_append]

private theorem length_flatMap {part : ℕ → List UInt8} {count : ℕ}
    (h : ∀ i < count, (part i).length = size) :
    ((List.range' 0 count).flatMap part).length = count * size := by
  have hlengths : (List.range' 0 count).map (fun i => (part i).length) =
      (List.range' 0 count).map fun _ => size := by
    refine List.map_congr_left fun i hi => h i ?_
    rw [List.mem_range'_1] at hi
    omega
  rw [List.length_flatMap, hlengths]
  simp

theorem recordAt_envelope (hideal : Ideal crypto.stream tagLen (made crypto calls))
    (hdigests : Digests crypto calls) (hs : s ∈ calls) (hindex : index < s.count) :
    recordAt (s.envelope crypto) index = crypto.stream.encrypt (s.record crypto index) := by
  have hpart : ∀ i < s.count - 1, (crypto.stream.encrypt ⟨s.key, s.nonce, i, false,
      streamAad s.id (s.header crypto), chunkAt s.bytes i⟩).length = chunkBytes + tagLen :=
    fun i hi => (hideal.length (s.early_made hs hi)).trans (by rw [s.length_chunk hi])
  have hfront : (s.header crypto ++ (List.range' 0 index).flatMap fun i => crypto.stream.encrypt
      ⟨s.key, s.nonce, i, false, streamAad s.id (s.header crypto), chunkAt s.bytes i⟩).length =
        headerBytes + index * (chunkBytes + tagLen) := by
    rw [List.length_append, s.length_header hdigests,
      length_flatMap fun i hi => hpart i (by omega)]
  have hle : index ≤ s.count - 1 := by omega
  rw [recordAt, ← hfront, Sealing.envelope, s.records_split, flatMap_split _ hle,
    List.append_assoc (List.flatMap _ (List.range' 0 index)), ← List.append_assoc (s.header crypto),
    List.drop_left]
  rcases Nat.lt_or_ge index (s.count - 1) with hless | hlast
  · rw [show s.count - 1 - index = s.count - 1 - index - 1 + 1 by omega, List.range'_succ,
      List.flatMap_cons, List.append_assoc, ← hpart index hless, List.take_left, Sealing.record,
      decide_eq_false (by omega)]
  · obtain rfl : index = s.count - 1 := by omega
    rw [Nat.sub_self, List.range'_zero, List.flatMap_nil, List.nil_append, Sealing.record,
      decide_eq_true (by omega), List.take_of_length_le]
    rw [hideal.length (s.last_made hs), chunkAt]
    exact Nat.add_le_add_right (List.length_take_le _ _) _

theorem recordAt_past (hideal : Ideal crypto.stream tagLen (made crypto calls))
    (hdigests : Digests crypto calls) (hs : s ∈ calls) (hindex : s.count ≤ index) :
    recordAt (s.envelope crypto) index = [] := by
  have hlength := s.length_envelope hideal hdigests hs
  have hall := s.length_le
  have hpos := s.count_pos
  have hcount : s.count * (chunkBytes + tagLen) =
      (s.count - 1) * (chunkBytes + tagLen) + (chunkBytes + tagLen) := by
    rw [← Nat.add_one_mul, Nat.sub_add_cancel hpos]
  have hchunks : s.count * chunkBytes = (s.count - 1) * chunkBytes + chunkBytes := by
    rw [← Nat.add_one_mul, Nat.sub_add_cancel hpos]
  have hle := Nat.mul_le_mul_right (chunkBytes + tagLen) hindex
  rw [recordAt, List.drop_of_length_le (by omega), List.take_nil]

/-- Two sealings that share a record are one. -/
theorem Sealing.ext_of_record (hideal : Ideal crypto.stream tagLen (made crypto calls))
    (hdigests : Digests crypto calls) {t : Sealing Key} (hs : s ∈ calls) (ht : t ∈ calls)
    {other : ℕ} (hindex : index < s.count) (hother : other < t.count)
    (hsame : crypto.stream.encrypt (s.record crypto index) =
      crypto.stream.encrypt (t.record crypto other)) : s = t := by
  have hrecord := hideal.apart (s.record_made hs hindex) (t.record_made ht hother) hsame
  simp only [Sealing.record, Record.mk.injEq] at hrecord
  obtain ⟨hkey, hnonce, -, -, haad, -⟩ := hrecord
  obtain ⟨hid, hheader⟩ := streamAad_inj
    (by rw [s.length_header hdigests, t.length_header hdigests]) haad
  have hbytes := hdigests.apart s hs t ht
    (header_digest (by rw [hdigests.length, hdigests.length]) hheader)
  cases s
  cases t
  simp only [Sealing.mk.injEq]
  exact ⟨hbytes, hkey, hid, hnonce⟩

/-- Envelopes of which one starts with the other are of one length. -/
theorem Sealing.envelope_of_front (hideal : Ideal crypto.stream tagLen (made crypto calls))
    (hdigests : Digests crypto calls) {t : Sealing Key} (hs : s ∈ calls) (ht : t ∈ calls)
    (hfront : s.envelope crypto <+: t.envelope crypto) : s.envelope crypto = t.envelope crypto := by
  obtain ⟨rest, hrest⟩ := hfront
  have hheader : s.header crypto = t.header crypto := by
    rw [Sealing.envelope, Sealing.envelope, List.append_assoc] at hrest
    exact (List.append_inj hrest (by rw [s.length_header hdigests, t.length_header hdigests])).1
  have hbytes := hdigests.apart s hs t ht
    (header_digest (by rw [hdigests.length, hdigests.length]) hheader)
  have hcount : s.count = t.count :=
    congrArg (fun bytes : List UInt8 => chunkCount bytes.length) hbytes
  have hlength : (s.envelope crypto).length = (t.envelope crypto).length := by
    rw [s.length_envelope hideal hdigests hs, t.length_envelope hideal hdigests ht, hbytes, hcount]
  exact List.IsPrefix.eq_of_length ⟨rest, hrest⟩ hlength

/-- An envelope that opens and starts with a sealed one, starts one, or has a record of one in
any place, is that envelope. -/
theorem not_tampered (hideal : Ideal crypto.stream tagLen (made crypto calls))
    (hdigests : Digests crypto calls) (hs : s ∈ calls) {id : String}
    (hok : openStream crypto envelope key id = .ok bytes)
    (hparts : envelope <+: s.envelope crypto ∨ s.envelope crypto <+: envelope ∨
      ∃ index other, recordAt (s.envelope crypto) index ≠ [] ∧
        recordAt (s.envelope crypto) index = recordAt envelope other) :
    envelope = s.envelope crypto := by
  obtain ⟨t, ht, -, -, -, rfl⟩ := openStream_sealed hideal hdigests hok
  rcases hparts with hfront | hfront | ⟨index, other, hsome, hsame⟩
  · exact Sealing.envelope_of_front hideal hdigests ht hs hfront
  · exact (Sealing.envelope_of_front hideal hdigests hs ht hfront).symm
  · have hindex : index < s.count := by
      rw [← Nat.not_le]
      exact fun hpast => hsome (recordAt_past hideal hdigests hs hpast)
    have hother : other < t.count := by
      rw [← Nat.not_le]
      exact fun hpast => hsome (hsame.trans (recordAt_past hideal hdigests ht hpast))
    rw [recordAt_envelope hideal hdigests hs hindex,
      recordAt_envelope hideal hdigests ht hother] at hsame
    rw [Sealing.ext_of_record hideal hdigests hs ht hindex hother hsame]

end Records

end CopyPaste.History.Binary
