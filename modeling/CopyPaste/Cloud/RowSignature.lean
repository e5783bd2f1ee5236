import CopyPaste.Cloud.Push
import CopyPaste.Lib.Base64
import CopyPaste.Lib.Measured
import Mathlib.Logic.Relation

/-!
The signature of a row. Every column but the signature is written after its length, with
a marker before each that can be absent; the bytes go through HMAC under the row-signing
key and the tag into the last column. The bytes give the columns back, so a tag vouches
for one row only, and whoever lacks the key can offer a row only under a tag that a
holder has put on the same ten columns.
-/

namespace CopyPaste.Cloud.RowSignature

open Backend Merge.Payload Lib Lib.Measured

structure RowMetadata where
  itemId : String
  ciphertext : String
  nonce : String
  contentType : String
  payloadMetadata : Option String
  sourceAppBundleId : Option String
  sourceAppName : Option String
  createdAt : Int
  deleted : Bool
  originDeviceId : String
  deriving DecidableEq

/-- Every digit is a byte of its own. -/
theorem mem_utf8_digits {text : String} (h : ∀ c ∈ text.toList, c.isDigit = true)
    {byte : UInt8} (hbyte : byte ∈ utf8 text) : 48 ≤ byte.toNat ∧ byte.toNat ≤ 57 := by
  rw [utf8_eq_flatMap, List.mem_flatMap] at hbyte
  obtain ⟨c, hc, hmem⟩ := hbyte
  have hdigit : 48 ≤ c.toNat ∧ c.toNat ≤ 57 := by
    have hrange := h c hc
    simp only [Char.isDigit, Bool.and_eq_true, decide_eq_true_eq, UInt32.le_iff_toNat_le] at hrange
    exact hrange
  have hsize : c.utf8Size = 1 := by
    rw [Char.utf8Size_eq_one_iff, UInt32.le_iff_toNat_le]
    exact hdigit.2.trans (by decide)
  rw [String.utf8EncodeChar_eq_singleton hsize, List.mem_singleton] at hmem
  have hvalue : byte.toNat = c.toNat := by
    rw [hmem, UInt32.toNat_toUInt8]
    exact Nat.mod_eq_of_lt (hdigit.2.trans_lt (by decide))
  omega

theorem isDigit_of_mem_toString {n : ℕ} {c : Char} (h : c ∈ (toString n).toList) :
    c.isDigit = true := by
  rw [Nat.toString_eq_repr, Nat.toList_repr] at h
  exact Nat.isDigit_of_mem_toDigits (by decide) (by decide) h

theorem toString_nat_injective : Function.Injective fun n : ℕ => toString n := by
  intro m n h
  have hdigits := congrArg String.toList h
  simp only [Nat.toString_eq_repr, Nat.toList_repr] at hdigits
  rw [← Nat.ofDigitChars_ten_toDigits (n := m), hdigits, Nat.ofDigitChars_ten_toDigits]

theorem toString_int_injective : Function.Injective fun n : Int => toString n := by
  have hminus : ∀ (m : ℕ) (text : String), toString m ≠ "-" ++ text := by
    intro m text h
    have hmem : '-' ∈ (toString m).toList := by
      rw [h, String.toList_append]
      exact List.mem_append_left _ (List.mem_singleton.2 rfl)
    exact absurd (isDigit_of_mem_toString hmem) (by decide)
  intro m n h
  cases m with
  | ofNat m =>
    cases n with
    | ofNat n => exact congrArg Int.ofNat (toString_nat_injective h)
    | negSucc n => exact absurd h (hminus m _)
  | negSucc m =>
    cases n with
    | ofNat n => exact absurd h.symm (hminus n _)
    | negSucc n =>
      have hsucc : m + 1 = n + 1 :=
        toString_nat_injective ((String.append_right_inj _).1 h)
      rw [Nat.succ.inj hsucc]

/-- Lengths in decimal, a colon after each. -/
def decimal : Numerals UInt8 where
  write n := utf8 (toString n)
  mark := 58
  injective := utf8_injective.comp toString_nat_injective
  mark_not_mem n h :=
    absurd (mem_utf8_digits (fun _ hc => isDigit_of_mem_toString hc) h).2 (by decide)

def bar : UInt8 := 124

def signaturePrefix : String := "copypaste/v2/cloud-row-sig|"

def signatureSchemaVersion : ℕ := 2

def cloudAadPrefix : String := "copypaste/v2/cloud-row-aead|"

def cloudAadSchemaVersion : ℕ := 1

/-- Whether a column is there at all. -/
def marker (column : Option String) : String :=
  if column.isSome then "1" else "0"

def signedFields (metadata : RowMetadata) : List (List UInt8) :=
  [utf8 metadata.itemId, utf8 metadata.contentType,
    utf8 (marker metadata.payloadMetadata), utf8 (metadata.payloadMetadata.getD ""),
    utf8 (marker metadata.sourceAppBundleId), utf8 (metadata.sourceAppBundleId.getD ""),
    utf8 (marker metadata.sourceAppName), utf8 (metadata.sourceAppName.getD ""),
    utf8 metadata.originDeviceId, utf8 (toString metadata.createdAt),
    utf8 (if metadata.deleted then "1" else "0"), utf8 metadata.nonce, utf8 metadata.ciphertext]

/-- The bytes that are signed. -/
def signingInput (metadata : RowMetadata) : List UInt8 :=
  utf8 signaturePrefix ++ utf8 (toString signatureSchemaVersion) ++
    fields decimal bar (signedFields metadata)

def cloudAad (itemId : String) : List UInt8 :=
  utf8 cloudAadPrefix ++ utf8 (toString cloudAadSchemaVersion) ++ field decimal bar (utf8 itemId)

/-- An absent column and an empty one have different markers. -/
theorem marker_inj {column other : Option String} (hmarker : marker column = marker other)
    (htext : column.getD "" = other.getD "") : column = other := by
  cases column with
  | none =>
    cases other with
    | none => rfl
    | some text => exact absurd (congrArg String.toList hmarker) (by simp [marker])
  | some text =>
    cases other with
    | none => exact absurd (congrArg String.toList hmarker) (by simp [marker])
    | some other => exact congrArg some htext

theorem signedFields_injective : Function.Injective signedFields := by
  intro metadata other h
  simp only [signedFields, List.cons.injEq, and_true, utf8_injective.eq_iff] at h
  obtain ⟨hitem, hcontent, hmetadata, hmetadata', hbundle, hbundle', hname, hname', horigin,
    hcreated, hdeleted, hnonce, hcipher⟩ := h
  have hpayload := marker_inj hmetadata hmetadata'
  have happ := marker_inj hbundle hbundle'
  have hlabel := marker_inj hname hname'
  have hstamp := toString_int_injective hcreated
  have hflag : metadata.deleted = other.deleted := by
    revert hdeleted
    cases metadata.deleted <;> cases other.deleted <;> decide
  cases metadata
  cases other
  simp_all only

/-- What follows the columns cannot lend them a byte, nor take one. -/
theorem signingInput_inj {metadata other : RowMetadata} {rest tail : List UInt8}
    (h : signingInput metadata ++ rest = signingInput other ++ tail) :
    metadata = other ∧ rest = tail := by
  simp only [signingInput, List.append_assoc] at h
  have hbodies : fields decimal bar (signedFields metadata) ++ rest =
      fields decimal bar (signedFields other) ++ tail := by
    apply List.append_cancel_left
    exact List.append_cancel_left h
  have hlength : (signedFields metadata).length = (signedFields other).length := rfl
  obtain ⟨hfields, hrest⟩ := fields_inj hlength hbodies
  exact ⟨signedFields_injective hfields, hrest⟩

theorem signingInput_injective : Function.Injective signingInput := fun _ _ h =>
  (signingInput_inj (congrArg (· ++ ([] : List UInt8)) h)).1

theorem eq_of_signingInput_prefix {metadata other : RowMetadata}
    (h : signingInput metadata <+: signingInput other) : metadata = other := by
  obtain ⟨rest, hrest⟩ := h
  rw [← List.append_nil (signingInput other)] at hrest
  exact (signingInput_inj hrest).1

/-- The two texts part inside their fixed heads. -/
theorem signingInput_ne_cloudAad (metadata : RowMetadata) (itemId : String) :
    signingInput metadata ≠ cloudAad itemId := by
  intro h
  have hheads := congrArg (List.take 24) h
  unfold signingInput cloudAad at hheads
  rw [List.append_assoc, List.append_assoc, List.take_append_of_le_length (by decide),
    List.take_append_of_le_length (by decide)] at hheads
  exact absurd hheads (by decide)

structure SyncKey where
  rowSigningKey : List UInt8

inductive CloudCryptoError
  | signatureInvalid
  deriving DecidableEq

section Keyed

-- HMAC-SHA256, by key and message.
variable (hmac : List UInt8 → List UInt8 → List UInt8) (key : SyncKey)

/-- Sign one row's metadata. -/
def signMetadata (metadata : RowMetadata) : String :=
  String.ofList (Base64.encode (hmac key.rowSigningKey (signingInput metadata)))

/-- An absent, unparseable and wrong signature are one error. -/
def verifyMetadata (metadata : RowMetadata) (signature : String) : Except CloudCryptoError Unit :=
  match Base64.decode signature.toList with
  | none => .error .signatureInvalid
  | some offered =>
    if offered = hmac key.rowSigningKey (signingInput metadata) then .ok ()
    else .error .signatureInvalid

/-- The fields under the signature: every column except the signature itself. -/
def metadata (row : CloudItem) : RowMetadata where
  itemId := row.itemId
  ciphertext := row.ciphertext
  nonce := row.nonce
  contentType := row.contentType
  payloadMetadata := row.payloadMetadata
  sourceAppBundleId := row.sourceAppBundleId
  sourceAppName := row.sourceAppName
  createdAt := row.createdAt
  deleted := row.deleted
  originDeviceId := row.originDeviceId

/-- Stamp the metadata signature. -/
def sign (row : CloudItem) : CloudItem :=
  { row with signature := signMetadata hmac key (metadata row) }

/-- Check the metadata signature. -/
def verify (row : CloudItem) : Except CloudCryptoError Unit :=
  verifyMetadata hmac key (metadata row) row.signature

@[simp]
theorem metadata_sign (row : CloudItem) : metadata (sign hmac key row) = metadata row := rfl

variable {hmac key}

theorem verifyMetadata_ok_iff {metadata : RowMetadata} {signature : String} :
    verifyMetadata hmac key metadata signature = .ok () ↔
      signature = signMetadata hmac key metadata := by
  unfold verifyMetadata signMetadata
  constructor
  · intro h
    cases hoffered : Base64.decode signature.toList with
    | none =>
      simp only [hoffered] at h
      cases h
    | some offered =>
      simp only [hoffered] at h
      split at h
      · next heq => rw [← heq, Base64.encode_decode hoffered, String.ofList_toList]
      · cases h
  · rintro rfl
    rw [String.toList_ofList, Base64.decode_encode]
    exact if_pos rfl

theorem verifyMetadata_error {metadata : RowMetadata} {signature : String}
    (h : signature ≠ signMetadata hmac key metadata) :
    verifyMetadata hmac key metadata signature = .error .signatureInvalid := by
  cases hresult : verifyMetadata hmac key metadata signature with
  | error reason => cases reason; rfl
  | ok done => exact absurd (verifyMetadata_ok_iff.1 hresult) h

/-- Standard base64 keeps tags apart. -/
theorem signMetadata_injective (hinj : Function.Injective (hmac key.rowSigningKey)) :
    Function.Injective (signMetadata hmac key) := by
  intro metadata other h
  have htexts : Base64.encode (hmac key.rowSigningKey (signingInput metadata)) =
      Base64.encode (hmac key.rowSigningKey (signingInput other)) := by
    have hlists := congrArg String.toList h
    unfold signMetadata at hlists
    rwa [String.toList_ofList, String.toList_ofList] at hlists
  have htags := congrArg Base64.decode htexts
  rw [Base64.decode_encode, Base64.decode_encode] at htags
  exact signingInput_injective (hinj (Option.some.inj htags))

theorem verify_sign (row : CloudItem) : verify hmac key (sign hmac key row) = .ok () :=
  verifyMetadata_ok_iff.2 rfl

variable {row : CloudItem}

/-- A signature lifted onto any other row is refused there. -/
theorem verify_altered (hinj : Function.Injective (hmac key.rowSigningKey)) {altered : CloudItem}
    (hsigned : verify hmac key row = .ok ()) (hsignature : altered.signature = row.signature)
    (hcolumns : metadata altered ≠ metadata row) :
    verify hmac key altered = .error .signatureInvalid := by
  refine verifyMetadata_error fun hsame => hcolumns ?_
  rw [hsignature, verifyMetadata_ok_iff.1 hsigned] at hsame
  exact (signMetadata_injective hinj hsame).symm

variable (hmac key)

/-- The rows that key holders signed, and the rows that anybody offered. -/
structure World where
  signed : List CloudItem
  offered : List CloudItem

/-- A tag that a holder has put on those bytes, and so one that others may have seen. -/
def Seen (world : World) (input : List UInt8) : Prop :=
  ∃ row ∈ world.signed, signingInput (metadata row) = input

/-- Holders sign any row. Whoever offers one may write anything into its columns, but
under the signature no tag that only a holder could have computed and none has. -/
inductive Step : World → World → Prop
  | sign (world : World) (row : CloudItem) :
    Step world { world with signed := sign hmac key row :: world.signed }
  | offer (world : World) (row : CloudItem)
    (unforged : ∀ input, Base64.decode row.signature.toList = some (hmac key.rowSigningKey input) →
      Seen world input) :
    Step world { world with offered := row :: world.offered }

abbrev Reaches : World → World → Prop :=
  Relation.ReflTransGen (Step hmac key)

def start : World := ⟨[], []⟩

/-- What holds of the two lists: each signed row verifies, and each offered row that
verifies carries a tag that was seen. -/
structure Sound (world : World) : Prop where
  signed : ∀ row ∈ world.signed, verify hmac key row = .ok ()
  offered : ∀ row ∈ world.offered, verify hmac key row = .ok () →
    Seen world (signingInput (metadata row))

variable {hmac key}

variable {world : World}

theorem Seen.mono {input : List UInt8} (h : Seen world input) :
    Seen { world with signed := row :: world.signed } input := by
  obtain ⟨holder, hmem, hinput⟩ := h
  exact ⟨holder, List.mem_cons_of_mem _ hmem, hinput⟩

theorem sound_step {next : World} (hsound : Sound hmac key world)
    (hstep : Step hmac key world next) : Sound hmac key next := by
  cases hstep with
  | sign row =>
    constructor
    · intro other hother
      rcases List.mem_cons.1 hother with rfl | hold
      · exact verify_sign row
      · exact hsound.signed other hold
    · intro other hother hverify
      exact (hsound.offered other hother hverify).mono
  | offer row unforged =>
    constructor
    · exact hsound.signed
    · intro other hother hverify
      rcases List.mem_cons.1 hother with rfl | hold
      · apply unforged
        rw [verifyMetadata_ok_iff.1 hverify, signMetadata, String.toList_ofList,
          Base64.decode_encode]
      · exact hsound.offered other hold hverify

theorem sound_reached (h : Reaches hmac key start world) : Sound hmac key world := by
  induction h with
  | refl => exact ⟨fun _ hrow => absurd hrow List.not_mem_nil, fun _ hrow => absurd hrow List.not_mem_nil⟩
  | tail _ hstep hsound => exact sound_step hsound hstep

/-- An offered row passes when it is one that a holder signed, columns and tag. -/
theorem verify_iff_signed (hsound : Sound hmac key world) (hrow : row ∈ world.offered) :
    verify hmac key row = .ok () ↔
      ∃ holder ∈ world.signed, metadata holder = metadata row ∧
        holder.signature = row.signature := by
  constructor
  · intro hverify
    obtain ⟨holder, hholder, hinput⟩ := hsound.offered row hrow hverify
    have hcolumns := signingInput_injective hinput
    refine ⟨holder, hholder, hcolumns, ?_⟩
    rw [verifyMetadata_ok_iff.1 (hsound.signed holder hholder), hcolumns]
    exact (verifyMetadata_ok_iff.1 hverify).symm
  · rintro ⟨holder, hholder, hcolumns, hsignature⟩
    apply verifyMetadata_ok_iff.2
    rw [← hcolumns, ← hsignature]
    exact verifyMetadata_ok_iff.1 (hsound.signed holder hholder)

/-- The sync key as the backend's clients hold it: this signature, and a way to seal. -/
def SyncKey.forRows (hmac : List UInt8 → List UInt8 → List UInt8) (key : SyncKey)
    (encryptRow : List UInt8 → String → String × String)
    (decryptRow : String → String → String → Option (List UInt8)) : Backend.SyncKey where
  signMetadata row := signMetadata hmac key (metadata row)
  verifyMetadata row := (verify hmac key row).isOk
  encryptRow := encryptRow
  decryptRow := decryptRow

/-- Whatever a client sends verifies wherever it is read. -/
theorem outgoing_verifies {encryptRow : List UInt8 → String → String × String}
    {decryptRow : String → String → String → Option (List UInt8)} {device : String}
    {item : Upload.Scanning.LocalItem}
    (h : Push.outgoing (key.forRows hmac encryptRow decryptRow) device item = some row) :
    (key.forRows hmac encryptRow decryptRow).verifyMetadata row = true := by
  have hsigned : ∀ row, (verify hmac key
      (Push.signed (key.forRows hmac encryptRow decryptRow) row)).isOk = true := by
    intro row
    have hok : verify hmac key (sign hmac key row) = .ok () := verify_sign row
    change (verify hmac key (sign hmac key row)).isOk = true
    rw [hok]
    rfl
  unfold Push.outgoing at h
  split at h
  · rw [← Option.some.inj h]
    exact hsigned _
  · split at h
    · cases h
    · rw [← Option.some.inj h]
      exact hsigned _

/-- The signing bytes of a row give back its ten columns, whatever stands in them, and
are neither the head of another row's nor the associated data of any id. So a row under
a tag that only holders compute is accepted exactly when a holder signed a row with
the same ten columns and the row offered carries that signature; under a signature that
verifies, any other ten columns are refused. -/
theorem signature_covers_row (hinj : Function.Injective (hmac key.rowSigningKey)) :
    (∀ first second : RowMetadata, signingInput first = signingInput second → first = second) ∧
    (∀ first second : RowMetadata, signingInput first <+: signingInput second → first = second) ∧
    (∀ (first : RowMetadata) (itemId : String), signingInput first ≠ cloudAad itemId) ∧
    (∀ world, Reaches hmac key start world → ∀ row ∈ world.offered,
      (verify hmac key row = .ok () ↔
        ∃ holder ∈ world.signed, metadata holder = metadata row ∧
          holder.signature = row.signature)) ∧
    (∀ world, Reaches hmac key start world → ∀ holder ∈ world.signed, ∀ altered : CloudItem,
      altered.signature = holder.signature → metadata altered ≠ metadata holder →
        verify hmac key altered = .error .signatureInvalid) := by
  refine ⟨fun _ _ h => signingInput_injective h, fun _ _ h => eq_of_signingInput_prefix h,
    signingInput_ne_cloudAad, ?_, ?_⟩
  · intro world hworld row hrow
    exact verify_iff_signed (sound_reached hworld) hrow
  · intro world hworld holder hholder altered hsignature hcolumns
    exact verify_altered hinj ((sound_reached hworld).signed holder hholder) hsignature hcolumns

end Keyed

def sampleRow : CloudItem where
  itemId := "clip-1"
  ciphertext := "c2VhbGVk"
  nonce := "bm9uY2U="
  contentType := "text/plain"
  payloadMetadata := none
  sourceAppBundleId := none
  sourceAppName := some "Notes"
  createdAt := 5
  deleted := false
  originDeviceId := "laptop"
  signature := ""

def sampleKey : SyncKey where
  rowSigningKey := [18, 34, 109, 57, 36, 178, 134, 64, 82, 247, 210, 162, 84, 100, 53, 233,
    33, 214, 129, 234, 145, 228, 144, 128, 119, 72, 205, 204, 99, 99, 213, 140]

def sampleTag : List UInt8 :=
  [151, 7, 81, 20, 15, 211, 166, 220, 255, 132, 126, 207, 226, 81, 87, 219,
    113, 22, 131, 65, 187, 94, 224, 9, 204, 169, 60, 202, 117, 168, 153, 131]

/-- The real tag on the one message, and one of its own on any other. -/
def sampleHmac (key message : List UInt8) : List UInt8 :=
  if key = sampleKey.rowSigningKey ∧ message = signingInput (metadata sampleRow) then sampleTag
  else List.replicate 33 0 ++ message

theorem sampleHmac_injective : Function.Injective (sampleHmac sampleKey.rowSigningKey) := by
  intro first second h
  unfold sampleHmac at h
  split at h <;> split at h
  · next hfirst hsecond => exact hfirst.2.trans hsecond.2.symm
  · have hlength := congrArg List.length h
    simp only [sampleTag, List.length_append, List.length_replicate, List.length_cons,
      List.length_nil] at hlength
    omega
  · have hlength := congrArg List.length h
    simp only [sampleTag, List.length_append, List.length_replicate, List.length_cons,
      List.length_nil] at hlength
    omega
  · exact List.append_cancel_left h

theorem sampleHmac_ne_nil (key message : List UInt8) : sampleHmac key message ≠ [] := by
  unfold sampleHmac
  split
  · exact List.cons_ne_nil _ _
  · exact List.cons_ne_nil _ _

/-- The laptop's row under its signature, offered as it was signed. -/
def sampleSigned : CloudItem :=
  { sampleRow with signature := "lwdRFA/Tptz/hH7P4lFX23EWg0G7XuAJzKk8ynWomYM=" }

theorem sign_sampleRow : sign sampleHmac sampleKey sampleRow = sampleSigned := by
  have htag : sampleHmac sampleKey.rowSigningKey (signingInput (metadata sampleRow)) =
      sampleTag := if_pos ⟨rfl, rfl⟩
  have htext : String.ofList (Base64.encode sampleTag) =
      "lwdRFA/Tptz/hH7P4lFX23EWg0G7XuAJzKk8ynWomYM=" := by decide
  unfold sign signMetadata
  rw [htag, htext]
  rfl

theorem sampleRow_reaches (offered : CloudItem)
    (h : ∀ input, Base64.decode offered.signature.toList =
      some (sampleHmac sampleKey.rowSigningKey input) → input = signingInput (metadata sampleRow)) :
    Reaches sampleHmac sampleKey start ⟨[sampleSigned], [offered]⟩ := by
  have hsign : Step sampleHmac sampleKey start ⟨[sampleSigned], []⟩ := by
    rw [← sign_sampleRow]
    exact Step.sign start sampleRow
  refine (Relation.ReflTransGen.single hsign).tail (Step.offer _ offered fun input hinput => ?_)
  exact ⟨sampleSigned, List.mem_singleton.2 rfl, (h input hinput).symm⟩

/-- The row as it was signed passes, and under a later stamp it does not. -/
theorem signature_covers_sampleRow :
    verify sampleHmac sampleKey sampleSigned = .ok () ∧
      verify sampleHmac sampleKey { sampleSigned with createdAt := 6 } =
        .error .signatureInvalid := by
  have hworld := sampleRow_reaches sampleSigned fun input hinput => by
    apply sampleHmac_injective
    rw [← sign_sampleRow, sign, signMetadata, String.toList_ofList, Base64.decode_encode] at hinput
    exact (Option.some.inj hinput).symm
  obtain ⟨-, -, -, haccepted, haltered⟩ :=
    @signature_covers_row sampleHmac sampleKey sampleHmac_injective
  constructor
  · apply (haccepted _ hworld sampleSigned (List.mem_singleton.2 rfl)).2
    exact ⟨sampleSigned, List.mem_singleton.2 rfl, rfl, rfl⟩
  · refine haltered _ hworld sampleSigned (List.mem_singleton.2 rfl) _ rfl fun hcolumns => ?_
    exact absurd (congrArg RowMetadata.createdAt hcolumns) (by decide)

/-- A row stripped of its signature is refused, though a holder signed those ten columns. -/
theorem columns_alone_refused :
    ¬ ∀ (hmac : List UInt8 → List UInt8 → List UInt8) (key : SyncKey),
      Function.Injective (hmac key.rowSigningKey) →
        ∀ world, Reaches hmac key start world → ∀ row ∈ world.offered,
          (verify hmac key row = .ok () ↔
            ∃ holder ∈ world.signed, metadata holder = metadata row) := by
  intro h
  have hworld := sampleRow_reaches sampleRow fun input hinput =>
    absurd (Option.some.inj hinput).symm (sampleHmac_ne_nil _ _)
  have haccepted : verify sampleHmac sampleKey sampleRow = .ok () :=
    (h _ _ sampleHmac_injective _ hworld sampleRow (List.mem_singleton.2 rfl)).2
      ⟨sampleSigned, List.mem_singleton.2 rfl, rfl⟩
  have hsigned := verifyMetadata_ok_iff.1 haccepted
  have hsignature := congrArg CloudItem.signature sign_sampleRow
  have hempty : sampleRow.signature = sampleSigned.signature := hsigned.trans hsignature
  exact absurd hempty (by decide)

end CopyPaste.Cloud.RowSignature
