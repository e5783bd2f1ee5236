import CopyPaste.History.Binary

/-!
Reference envelopes. The half of the row names a digest, and the half that is shared was
sealed for the digest it is named by; the two come apart and together again at one place.
-/

namespace CopyPaste.History.BinaryReference

open Lib.Checks Lib.Frames Lib.Stream Lib.Texts Merge.Payload Files.Tables Binary

section Digest

theorem hexDigit_hex : ∀ n < 16, isAsciiHexdigit (hexDigit n) = true := by decide

theorem hexDigit_utf8Size : ∀ n < 16, (hexDigit n).utf8Size = 1 := by decide

theorem mem_contentHash {digest : List UInt8} {c : Char} (h : c ∈ (contentHash digest).toList) :
    ∃ n < 16, c = hexDigit n := by
  rw [contentHash, String.toList_ofList] at h
  obtain ⟨byte, -, h⟩ := List.mem_flatMap.1 h
  have hbyte := byte.toNat_lt
  rcases List.mem_pair.1 h with rfl | rfl
  · exact ⟨byte.toNat / 16, by omega, rfl⟩
  · exact ⟨byte.toNat % 16, by omega, rfl⟩

theorem contentHash_hex (digest : List UInt8) :
    (contentHash digest).toList.all isAsciiHexdigit = true := by
  rw [List.all_eq_true]
  intro c hc
  obtain ⟨n, hn, rfl⟩ := mem_contentHash hc
  exact hexDigit_hex n hn

theorem contentHash_size {digest : List UInt8} (h : digest.length = 32) :
    (contentHash digest).utf8ByteSize = 64 := by
  rw [← String.utf8Len_toList, utf8Len_eq_length]
  · rw [contentHash, String.toList_ofList, List.length_flatMap]
    simp [h]
  · intro c hc
    obtain ⟨n, hn, rfl⟩ := mem_contentHash hc
    exact hexDigit_utf8Size n hn

end Digest

section Split

/-- The half of the row: the nonce and the sealed name of the digest. -/
def rowHalf (nonce reference : List UInt8) : List UInt8 :=
  referenceMagic ++ nonce ++ toBigEndian 4 reference.length ++ reference

theorem toBigEndian_ofBigEndian (bytes : List UInt8) :
    toBigEndian bytes.length (ofBigEndian bytes) = bytes := by
  induction bytes using List.reverseRecOn with
  | nil => rfl
  | append_singleton bytes byte ih =>
    have hbyte := byte.toNat_lt
    have hvalue : ofBigEndian (bytes ++ [byte]) = ofBigEndian bytes * 256 + byte.toNat := by
      simp [ofBigEndian]
    rw [List.length_append, List.length_singleton, toBigEndian, hvalue,
      show (ofBigEndian bytes * 256 + byte.toNat) / 256 = ofBigEndian bytes by omega, ih]
    congr 2
    rw [← UInt8.toNat_inj, UInt8.toNat_ofNat']
    omega

theorem bigEndian_eq (bytes : List UInt8) : bigEndian bytes = ofBigEndian bytes := by
  unfold bigEndian ofBigEndian
  refine congrArg (fun f => bytes.foldl f 0) (funext fun n => funext fun byte => ?_)
  omega

variable {nonce reference blob envelope half : List UInt8}

theorem length_rowHalf (hnonce : nonce.length = nonceLen) (hlength : reference.length = 64 + tagLen) :
    (rowHalf nonce reference).length = 32 + (64 + 16) := by
  simp only [rowHalf, List.length_append, length_toBigEndian, hnonce, hlength, nonceLen, tagLen]
  rfl

theorem splitReference_rowHalf (hnonce : nonce.length = nonceLen)
    (hlength : reference.length = 64 + tagLen) :
    splitReference (rowHalf nonce reference ++ blob) = some (rowHalf nonce reference, blob) := by
  have hhalf := length_rowHalf hnonce hlength
  have hcount : ((rowHalf nonce reference ++ blob).drop 28).take 4 = toBigEndian 4 (64 + 16) := by
    have hfront : (referenceMagic ++ nonce).length = 28 := by
      rw [List.length_append, hnonce]
      rfl
    rw [rowHalf, hlength, List.append_assoc, List.append_assoc, ← hfront, List.drop_left]
    rfl
  have hnumber : bigEndian (toBigEndian 4 (64 + 16)) = 64 + 16 := by decide
  unfold splitReference
  rw [if_pos, ← hhalf, List.take_left, List.drop_left]
  refine ⟨?_, ?_, by rw [hcount, hnumber], ?_⟩
  · rw [List.isPrefixOf_iff_prefix, rowHalf, List.append_assoc, List.append_assoc,
      List.append_assoc]
    exact List.prefix_append _ _
  · rw [List.length_append]
    omega
  · rw [List.length_append]
    omega

private theorem four_parts (bytes : List UInt8) :
    bytes.take 4 ++ (bytes.drop 4).take 24 ++ (bytes.drop 28).take 4 ++ bytes.drop 32 = bytes := by
  have hlast : (bytes.drop 28).take 4 ++ bytes.drop 32 = bytes.drop 28 := by
    rw [show bytes.drop 32 = (bytes.drop 28).drop 4 by rw [List.drop_drop], List.take_append_drop]
  have hmiddle : (bytes.drop 4).take 24 ++ bytes.drop 28 = bytes.drop 4 := by
    rw [show bytes.drop 28 = (bytes.drop 4).drop 24 by rw [List.drop_drop], List.take_append_drop]
  rw [List.append_assoc, hlast, List.append_assoc, hmiddle, List.take_append_drop]

/-- What comes apart is a nonce and a reference in front of a blob. -/
theorem splitReference_some (h : splitReference envelope = some (half, blob)) :
    half ++ blob = envelope ∧ isReference envelope = true ∧
      half = rowHalf ((half.drop 4).take 24) (half.drop 32) ∧
      ((half.drop 4).take 24).length = nonceLen ∧ (half.drop 32).length = 64 + tagLen := by
  unfold splitReference at h
  split at h
  · next hframe =>
    obtain ⟨hmagic, hshort, hcount, hlong⟩ := hframe
    obtain ⟨rfl, rfl⟩ := Prod.mk.inj (Option.some.inj h)
    have hmagic' : envelope.take 4 = referenceMagic := by
      obtain ⟨rest, rfl⟩ := List.isPrefixOf_iff_prefix.1 hmagic
      rfl
    have hrest : ((envelope.take (32 + (64 + 16))).drop 32).length = 64 + tagLen := by
      rw [List.length_drop, List.length_take, tagLen]
      omega
    have hnonce : (((envelope.take (32 + (64 + 16))).drop 4).take 24).length = nonceLen := by
      rw [List.length_take, List.length_drop, List.length_take, nonceLen]
      omega
    have hnumber : (envelope.drop 28).take 4 = toBigEndian 4 (64 + tagLen) := by
      have hfour : ((envelope.drop 28).take 4).length = 4 := by
        rw [List.length_take, List.length_drop]
        omega
      rw [bigEndian_eq] at hcount
      have hback := toBigEndian_ofBigEndian ((envelope.drop 28).take 4)
      rw [hfour, hcount] at hback
      exact hback.symm
    refine ⟨List.take_append_drop _ _, hmagic, ?_, hnonce, hrest⟩
    have hfront : (envelope.take (32 + (64 + 16))).take 4 = envelope.take 4 := by
      rw [List.take_take]
      rfl
    have hmid : ((envelope.take (32 + (64 + 16))).drop 28).take 4 = (envelope.drop 28).take 4 := by
      rw [List.drop_take, List.take_take]
      rfl
    rw [rowHalf, hrest, ← hnumber, ← hmagic', ← hfront, ← hmid]
    exact (four_parts _).symm
  · cases h

end Split

section Open

variable {Key : Type*} {crypto : Crypto Key} {calls : Set (Sealing Key)}

/-- The cipher of the items opens what it sealed with the same key, nonce and data, and
nothing else there; a ciphertext is longer by its tag. -/
structure ItemCipher (crypto : Crypto Key) : Prop where
  opens_iff : ∀ {key nonce aad bytes plain},
    crypto.decrypt key nonce aad bytes = some plain ↔ crypto.encrypt key nonce aad plain = bytes
  length : ∀ key nonce aad plain, (crypto.encrypt key nonce aad plain).length =
    plain.length + tagLen

/-- What the half of a row names under a key and for an id. -/
def named (crypto : Crypto Key) (half : List UInt8) (key : Key) (id : String) :
    Except CryptoError (List UInt8) :=
  decryptItem crypto (half.drop 32) ((half.drop 4).take 24) key id

variable {key : Key} {id : String} {bytes envelope : List UInt8}

theorem decryptItem_ok_iff {ciphertext nonce plain : List UInt8} :
    decryptItem crypto ciphertext nonce key id = .ok plain ↔
      nonce.length = nonceLen ∧ tagLen ≤ ciphertext.length ∧
        crypto.decrypt key nonce (itemAad id) ciphertext = some plain := by
  simp only [decryptItem, unless_ok_iff, orElse_ok_iff, ne_eq, Decidable.not_not, Nat.not_lt]

theorem fromUtf8_eq_some {text : String} : fromUtf8 bytes = some text ↔ bytes = utf8 text :=
  ⟨fun h => (utf8_of_fromUtf8 h).symm, fun h => h ▸ fromUtf8_utf8 text⟩

/-- A reference opens where its half names the digest of what the blob opens to. -/
theorem openReference_iff :
    openReference crypto envelope key id = .ok bytes ↔
      ∃ half blob, splitReference envelope = some (half, blob) ∧
        named crypto half key id = .ok (utf8 (contentHash (crypto.sha256 bytes))) ∧
        (contentHash (crypto.sha256 bytes)).utf8ByteSize = 64 ∧
        magic.isPrefixOf blob = true ∧
        openStream crypto blob key (contentHash (crypto.sha256 bytes)) = .ok bytes := by
  simp only [openReference, bind_ok_iff, orElse_ok_iff, unless_ok_iff, pure_ok_iff,
    fromUtf8_eq_some, Prod.exists]
  constructor
  · rintro ⟨half, blob, hsplit, _, hname, name, rfl, hname', bytes', hopen, hhash, rfl⟩
    simp only [not_or, ne_eq, Decidable.not_not] at hname' hhash
    subst hhash
    exact ⟨half, blob, hsplit, hname, hname'.1, hname'.2.2, hopen⟩
  · rintro ⟨half, blob, hsplit, hname, hsize, hmagic, hopen⟩
    refine ⟨half, blob, hsplit, _, hname, _, rfl, ?_, bytes, hopen, ?_, rfl⟩
    · simp only [not_or, ne_eq, Decidable.not_not]
      exact ⟨hsize, contentHash_hex _, hmagic⟩
    · simp only [ne_eq, Decidable.not_not]

theorem magic_envelope (s : Sealing Key) : magic.isPrefixOf (s.envelope crypto) = true := rfl

theorem isReference_envelope (s : Sealing Key) : isReference (s.envelope crypto) = false := rfl

theorem openEnvelope_envelope (s : Sealing Key) (key : Key) (id : String) :
    openEnvelope crypto (s.envelope crypto) key id =
      openStream crypto (s.envelope crypto) key id := by
  rw [openEnvelope, isReference_envelope, if_neg Bool.false_ne_true]

theorem openEnvelope_split {half blob : List UInt8}
    (h : splitReference envelope = some (half, blob)) :
    openEnvelope crypto envelope key id = openReference crypto envelope key id := by
  rw [openEnvelope, if_pos (splitReference_some h).2.1]

/-- Sealing a reference puts the half of the row in front of the envelope of the digest. -/
theorem sealReference_eq {s : Sealing Key} (hid : s.id = contentHash (crypto.sha256 s.bytes))
    (id : String) (nonce : List UInt8) :
    sealReference crypto s.bytes (crypto.sha256 s.bytes) s.key id nonce s.nonce =
      .ok (rowHalf nonce (crypto.encrypt s.key nonce (itemAad id) (utf8 s.id)) ++
        s.envelope crypto) := by
  have hblob : sealWithDigest crypto s.key s.nonce s.bytes (crypto.sha256 s.bytes) s.id = _ :=
    sealBytes_eq crypto s
  simp only [sealReference, ← hid, hblob]
  rfl

theorem rowHalf_fields {nonce reference : List UInt8} (hnonce : nonce.length = nonceLen) :
    ((rowHalf nonce reference).drop 4).take 24 = nonce ∧ (rowHalf nonce reference).drop 32 =
      reference := by
  constructor
  · rw [rowHalf, List.append_assoc, List.append_assoc]
    show (nonce ++ _).take 24 = nonce
    rw [show 24 = nonce.length from hnonce.symm, List.take_left]
  · have hfront : (referenceMagic ++ nonce ++ toBigEndian 4 reference.length).length = 32 := by
      simp only [List.length_append, length_toBigEndian, hnonce, nonceLen]
      rfl
    rw [rowHalf, ← hfront, List.drop_left]

theorem named_rowHalf (hitems : ItemCipher crypto) {nonce name : List UInt8} (key : Key)
    (id : String) (hnonce : nonce.length = nonceLen) :
    named crypto (rowHalf nonce (crypto.encrypt key nonce (itemAad id) name)) key id =
      .ok name := by
  obtain ⟨hfield, hrest⟩ := @rowHalf_fields nonce (crypto.encrypt key nonce (itemAad id) name)
    hnonce
  rw [named, hfield, hrest, decryptItem_ok_iff]
  refine ⟨hnonce, ?_, hitems.opens_iff.2 rfl⟩
  rw [hitems.length]
  exact Nat.le_add_left _ _

/-- A blob opens behind the halves that name its digest under its key, and behind no other. -/
theorem blob_opens_iff (hideal : Ideal crypto.stream tagLen (made crypto calls))
    (hdigests : Digests crypto calls) {s : Sealing Key} (hs : s ∈ calls)
    (hid : s.id = contentHash (crypto.sha256 s.bytes)) {half : List UInt8}
    (hsplit : splitReference (half ++ s.envelope crypto) = some (half, s.envelope crypto))
    (key : Key) (id : String) (bytes : List UInt8) :
    openEnvelope crypto (half ++ s.envelope crypto) key id = .ok bytes ↔
      key = s.key ∧ named crypto half key id = .ok (utf8 s.id) ∧ bytes = s.bytes := by
  rw [openEnvelope_split hsplit, openReference_iff]
  constructor
  · rintro ⟨half', blob, hsplit', hname, -, -, hopen⟩
    rw [hsplit] at hsplit'
    obtain ⟨rfl, rfl⟩ := Prod.mk.inj (Option.some.inj hsplit')
    obtain ⟨t, ht, rfl, htid, rfl, henvelope⟩ := openStream_sealed hideal hdigests hopen
    have hrecords : crypto.stream.encrypt (s.record crypto 0) =
        crypto.stream.encrypt (t.record crypto 0) := by
      rw [← recordAt_envelope hideal hdigests hs s.count_pos, henvelope,
        recordAt_envelope hideal hdigests ht t.count_pos]
    obtain rfl := Sealing.ext_of_record hideal hdigests hs ht s.count_pos t.count_pos hrecords
    exact ⟨rfl, hid ▸ hname, rfl⟩
  · rintro ⟨rfl, hname, rfl⟩
    refine ⟨half, s.envelope crypto, hsplit, hid ▸ hname,
      contentHash_size (hdigests.length _), magic_envelope s, ?_⟩
    rw [← hid]
    exact openStream_envelope hideal hdigests hs

/-- A reference that opens was sealed: its half names the digest of what it opens to, and its
blob was sealed for that digest. -/
theorem reference_sealed (hideal : Ideal crypto.stream tagLen (made crypto calls))
    (hdigests : Digests crypto calls) (hitems : ItemCipher crypto)
    (hok : openReference crypto envelope key id = .ok bytes) :
    ∃ s ∈ calls, s.key = key ∧ s.id = contentHash (crypto.sha256 bytes) ∧ s.bytes = bytes ∧
      ∃ nonce, nonce.length = nonceLen ∧
        sealReference crypto bytes (crypto.sha256 bytes) key id nonce s.nonce = .ok envelope := by
  obtain ⟨half, blob, hsplit, hname, -, -, hopen⟩ := openReference_iff.1 hok
  obtain ⟨s, hs, rfl, hid, rfl, rfl⟩ := openStream_sealed hideal hdigests hopen
  obtain ⟨hjoin, -, hhalf, hnonce, -⟩ := splitReference_some hsplit
  refine ⟨s, hs, rfl, hid, rfl, _, hnonce, ?_⟩
  have hreference := hitems.opens_iff.1 (decryptItem_ok_iff.1 hname).2.2
  rw [sealReference_eq hid, hid, hreference, ← hhalf, hjoin]

end Open

/-- What is sealed opens again, what opens was sealed under the key and for the id, and an
envelope that has a part of a sealed one is that one. A reference comes apart where it was put
together, and its blob opens behind every half that names its digest and behind no other. -/
theorem envelopes_open_as_sealed {Key : Type*} {crypto : Crypto Key} {calls : Set (Sealing Key)}
    (hideal : Ideal crypto.stream tagLen (made crypto calls)) (hdigests : Digests crypto calls)
    (hitems : ItemCipher crypto) :
    (∀ s ∈ calls, sealBytes crypto s.key s.nonce s.bytes s.id = .ok (s.envelope crypto) ∧
      openEnvelope crypto (s.envelope crypto) s.key s.id = .ok s.bytes) ∧
    (∀ envelope key id bytes, openEnvelope crypto envelope key id = .ok bytes →
      (∃ s ∈ calls, s.key = key ∧ s.id = id ∧ s.bytes = bytes ∧
        sealBytes crypto key s.nonce bytes id = .ok envelope) ∨
      ∃ s ∈ calls, s.key = key ∧ s.id = contentHash (crypto.sha256 bytes) ∧ s.bytes = bytes ∧
        ∃ nonce, nonce.length = nonceLen ∧
          sealReference crypto bytes (crypto.sha256 bytes) key id nonce s.nonce = .ok envelope) ∧
    (∀ s ∈ calls, ∀ envelope key id bytes, isReference envelope = false →
      openEnvelope crypto envelope key id = .ok bytes →
      (envelope <+: s.envelope crypto ∨ s.envelope crypto <+: envelope ∨
        ∃ index other, recordAt (s.envelope crypto) index ≠ [] ∧
          recordAt (s.envelope crypto) index = recordAt envelope other) →
      envelope = s.envelope crypto) ∧
    ∀ s ∈ calls, s.id = contentHash (crypto.sha256 s.bytes) →
      (∀ id nonce, nonce.length = nonceLen → ∃ half,
        sealReference crypto s.bytes (crypto.sha256 s.bytes) s.key id nonce s.nonce =
          .ok (half ++ s.envelope crypto) ∧
        splitReference (half ++ s.envelope crypto) = some (half, s.envelope crypto) ∧
        openEnvelope crypto (half ++ s.envelope crypto) s.key id = .ok s.bytes) ∧
      ∀ half, splitReference (half ++ s.envelope crypto) = some (half, s.envelope crypto) →
        ∀ key id bytes, openEnvelope crypto (half ++ s.envelope crypto) key id = .ok bytes ↔
          key = s.key ∧ named crypto half key id = .ok (utf8 s.id) ∧ bytes = s.bytes := by
  refine ⟨fun s hs => ⟨sealBytes_eq crypto s, ?_⟩, fun envelope key id bytes hok => ?_,
    fun s hs envelope key id bytes hplain hok => ?_, fun s hs hid => ⟨fun id nonce hnonce => ?_,
    fun half hsplit => blob_opens_iff hideal hdigests hs hid hsplit⟩⟩
  · rw [openEnvelope_envelope]
    exact openStream_envelope hideal hdigests hs
  · unfold openEnvelope at hok
    split at hok
    · exact Or.inr (reference_sealed hideal hdigests hitems hok)
    · obtain ⟨s, hs, rfl, rfl, rfl, rfl⟩ := openStream_sealed hideal hdigests hok
      exact Or.inl ⟨s, hs, rfl, rfl, rfl, sealBytes_eq crypto s⟩
  · rw [openEnvelope, hplain, if_neg Bool.false_ne_true] at hok
    exact not_tampered hideal hdigests hs hok
  · have hlength : (crypto.encrypt s.key nonce (itemAad id) (utf8 s.id)).length = 64 + tagLen := by
      rw [hitems.length, length_utf8, hid, contentHash_size (hdigests.length _)]
    have hsplit := @splitReference_rowHalf nonce _ (s.envelope crypto) hnonce hlength
    refine ⟨_, sealReference_eq hid id nonce, hsplit, ?_⟩
    exact (blob_opens_iff hideal hdigests hs hid hsplit s.key id s.bytes).2
      ⟨rfl, named_rowHalf hitems s.key id hnonce, rfl⟩

def zeroTag : List UInt8 := List.replicate tagLen 0

/-- The digest of the payload below. -/
def wideDigest : List UInt8 :=
  [0xed, 0xa6, 0xe9, 0xfb, 0x7e, 0x8b, 0xed, 0x18, 0x4a, 0x10, 0xde, 0x09, 0x68, 0x35, 0x56, 0xf9,
    0xfc, 0x17, 0x20, 0xff, 0xc1, 0xaf, 0x5f, 0xa7, 0x3f, 0x48, 0x91, 0xc7, 0xde, 0xc7, 0x0b, 0xca]

/-- A payload of two records, sealed for its own digest. -/
def wideSealing : Sealing Unit where
  bytes := List.replicate (chunkBytes + 1) 0
  key := ()
  id := contentHash wideDigest
  nonce := List.replicate streamNonceLen 7
  fits := by
    rw [List.length_replicate]
    decide
  nonce_length := List.length_replicate

/-- Ciphers that put a tag behind what they seal, the one of the streams its position; it
knows of the records of one sealing. -/
def tagCrypto : Crypto Unit where
  sha256 := fun _ => wideDigest
  stream := {
    encrypt := fun record => record.plain ++ toBigEndian tagLen record.position
    decrypt := fun _ nonce position last aad bytes =>
      let plain := bytes.take (bytes.length - tagLen)
      if bytes.drop (bytes.length - tagLen) = toBigEndian tagLen position ∧
          position < wideSealing.count ∧ nonce = wideSealing.nonce ∧
          last = decide (position + 1 = wideSealing.count) ∧
          aad = streamAad wideSealing.id
            (header wideDigest wideSealing.bytes.length wideSealing.nonce) ∧
          plain = chunkAt wideSealing.bytes position then some plain
      else none }
  encrypt := fun _ _ _ plain => plain ++ zeroTag
  decrypt := fun _ _ _ bytes =>
    if bytes.drop (bytes.length - tagLen) = zeroTag then some (bytes.take (bytes.length - tagLen))
    else none

theorem tag_parts {plain tag : List UInt8} (htag : tag.length = tagLen) :
    (plain ++ tag).take ((plain ++ tag).length - tagLen) = plain ∧
      (plain ++ tag).drop ((plain ++ tag).length - tagLen) = tag := by
  have hlength : (plain ++ tag).length - tagLen = plain.length := by
    rw [List.length_append, htag]
    exact Nat.add_sub_cancel _ _
  rw [hlength]
  exact ⟨List.take_left, List.drop_left⟩

theorem tagCrypto_ideal : Ideal tagCrypto.stream tagLen (made tagCrypto {wideSealing}) := by
  refine ⟨fun {key nonce position last aad bytes plain} => ?_, ?_, fun _ => ?_⟩
  · show (if _ then some _ else none) = some plain ↔ _
    constructor
    · intro h
      split at h
      · next hopens =>
        obtain ⟨htag, hindex, hnonce, hlast, haad, hplain⟩ := hopens
        obtain rfl := Option.some.inj h
        refine ⟨⟨wideSealing, rfl, position, hindex, ?_⟩, ?_⟩
        · rw [hplain, hnonce, hlast, haad]
          rfl
        · show _ ++ toBigEndian tagLen position = bytes
          rw [← htag, List.take_append_drop]
      · cases h
    · rintro ⟨⟨s, rfl, index, hindex, hrecord⟩, rfl⟩
      obtain ⟨-, rfl, rfl, hlast, rfl, rfl⟩ := Record.mk.inj hrecord
      obtain ⟨htake, hdrop⟩ := @tag_parts (chunkAt wideSealing.bytes position)
        (toBigEndian tagLen position) (length_toBigEndian _ _)
      show (if _ then some ((chunkAt wideSealing.bytes position ++ toBigEndian tagLen position).take
        ((chunkAt wideSealing.bytes position ++ toBigEndian tagLen position).length - tagLen))
          else none) = some (chunkAt wideSealing.bytes position)
      rw [htake, if_pos]
      exact ⟨hdrop, hindex, rfl, hlast, rfl, htake⟩
  · rintro _ _ ⟨s, rfl, index, hindex, rfl⟩ ⟨t, rfl, other, hother, rfl⟩ hsame
    have hroom : wideSealing.count ≤ 256 ^ tagLen := (min_le_right _ _).trans (by decide)
    have htags : toBigEndian tagLen index = toBigEndian tagLen other :=
      List.append_inj_right' hsame ((length_toBigEndian _ _).trans (length_toBigEndian _ _).symm)
    have hindices := congrArg ofBigEndian htags
    rw [ofBigEndian_toBigEndian (hindex.trans_le hroom),
      ofBigEndian_toBigEndian (hother.trans_le hroom)] at hindices
    rw [show index = other from hindices]
  · exact List.length_append.trans (congrArg _ (length_toBigEndian _ _))

theorem tagCrypto_items : ItemCipher tagCrypto := by
  refine ⟨fun {key nonce aad bytes plain} => ?_, fun _ _ _ _ => List.length_append⟩
  show (if _ then _ else _) = some plain ↔ plain ++ zeroTag = bytes
  constructor
  · intro h
    split at h
    · next htag =>
      rw [← Option.some.inj h, ← htag, List.take_append_drop]
    · cases h
  · rintro rfl
    obtain ⟨htake, hdrop⟩ := @tag_parts plain zeroTag List.length_replicate
    rw [if_pos hdrop, htake]

theorem count_wide : wideSealing.count = 2 := by
  show chunkCount (List.replicate (chunkBytes + 1) (0 : UInt8)).length = 2
  rw [List.length_replicate]
  decide

/-- The two records open, and so do they behind the half of a row. -/
theorem envelopes_open_as_sealed_wide :
    wideSealing.count = 2 ∧
      openEnvelope tagCrypto (wideSealing.envelope tagCrypto) () wideSealing.id =
        .ok wideSealing.bytes ∧
      ∃ half, sealReference tagCrypto wideSealing.bytes wideDigest () "clip"
          (List.replicate nonceLen 3) wideSealing.nonce =
          .ok (half ++ wideSealing.envelope tagCrypto) ∧
        openEnvelope tagCrypto (half ++ wideSealing.envelope tagCrypto) () "clip" =
          .ok wideSealing.bytes := by
  have hdigests : Digests tagCrypto {wideSealing} := by
    refine ⟨fun _ => rfl, ?_⟩
    rintro s rfl other rfl -
    rfl
  have h := envelopes_open_as_sealed tagCrypto_ideal hdigests tagCrypto_items
  obtain ⟨half, hseal, -, hopen⟩ := (h.2.2.2 wideSealing rfl rfl).1 "clip"
    (List.replicate nonceLen 3) List.length_replicate
  exact ⟨count_wide, (h.1 wideSealing rfl).2, half, hseal, hopen⟩

end CopyPaste.History.BinaryReference
