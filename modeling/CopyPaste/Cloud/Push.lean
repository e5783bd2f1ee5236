import CopyPaste.Cloud.Drain
import CopyPaste.Merge.Prepare

/-!
The upload path: how a version leaves the device, what is checked before it is
sent, and what the backend does with it. A tombstone travels without its payload,
content over the cap is withheld, and an upsert replaces whatever row the table
holds under the id.
-/

namespace CopyPaste.Cloud.Push

open Lib.Keyset Lib.Rows Upload.Scanning Backend Pull Drain Merge.Payload Merge.Prepare

def uploadBatch : Nat := 50

def maxSyncMetadataBytes : Nat := 48 * 1024

/-- A version of an item with the payload gone. -/
def CloudItem.tombstone (itemId contentType : String) (createdAt : Int) (originDeviceId : String) :
    CloudItem where
  itemId := itemId
  ciphertext := ""
  nonce := ""
  contentType := contentType
  payloadMetadata := none
  sourceAppBundleId := none
  sourceAppName := none
  createdAt := createdAt
  deleted := true
  originDeviceId := originDeviceId
  signature := ""

/-- Stamp the metadata signature. -/
def signed (key : SyncKey) (row : CloudItem) : CloudItem :=
  { row with signature := key.signMetadata row }

/-- The row a version is sent as, or nothing when it is over the cap. -/
def outgoing (key : SyncKey) (device : String) (item : LocalItem) : Option CloudItem :=
  let origin := originOr item.originDeviceId device
  if item.deleted then
    some (signed key (CloudItem.tombstone item.itemId item.contentType item.createdAt origin))
  else if tooLargeToSync item.contentType item.content.length then none
  else
    let (nonce, ciphertext) := key.encryptRow item.content item.itemId
    some (signed key {
      itemId := item.itemId
      ciphertext := ciphertext
      nonce := nonce
      contentType := item.contentType
      payloadMetadata := item.payloadMetadata
      sourceAppBundleId := item.sourceAppBundleId
      sourceAppName := item.sourceAppName
      createdAt := item.createdAt
      deleted := false
      originDeviceId := origin
      signature := "" })

/-- Client-side preconditions, checked before anything is sent. -/
def validate (host : Host) (row : CloudItem) : Except RestError Unit := do
  validateItemId row.itemId
  if row.signature = "" then
    throw (.invalidItem "the row's metadata was never signed")
  if row.deleted && row.ciphertext ≠ "" then
    throw (.invalidItem "a tombstone must not carry ciphertext")
  if row.deleted && row.payloadMetadata.isSome then
    throw (.invalidItem "a tombstone must not carry payload metadata")
  if row.deleted && (row.sourceAppBundleId.isSome || row.sourceAppName.isSome) then
    throw (.invalidItem "a tombstone must not carry source app metadata")
  if row.contentType = "file" && !row.deleted && row.payloadMetadata.isNone then
    throw (.invalidItem "a file item must carry payload metadata")
  if row.payloadMetadata.any fun metadata => maxSyncMetadataBytes < metadata.utf8ByteSize ||
      (PayloadMetadata.fromJson host metadata row.contentType).isNone then
    throw (.invalidItem "payload metadata must be a bounded valid envelope")
  if !row.deleted && row.ciphertext = "" then
    throw (.invalidItem "a live item must carry ciphertext")
  if row.contentType = "" || row.originDeviceId = "" then
    throw (.invalidItem "content_type and origin_device_id are required")

/-- The constraints of the table on a row. -/
structure Admitted (row : CloudItem) : Prop where
  charset : ValidItemId row.itemId
  nonneg : 0 ≤ row.createdAt
  bigint : row.createdAt ≤ i64Max

instance (row : CloudItem) : Decidable (Admitted row) :=
  decidable_of_iff (ValidItemId row.itemId ∧ 0 ≤ row.createdAt ∧ row.createdAt ≤ i64Max)
    ⟨fun h => ⟨h.1, h.2.1, h.2.2⟩, fun h => ⟨h.charset, h.nonneg, h.bigint⟩⟩

/-- Replace the row of an id. -/
def Table.put (table : Table) (row : CloudItem) (h : Admitted row) : Table where
  rows := Lib.Rows.put CloudItem.itemId table.rows row
  unique := nodup_put _ row table.unique
  charset := by
    intro r hr
    rcases (mem_put _ _ _).1 hr with ⟨hr, -⟩ | rfl
    · exact table.charset r hr
    · exact h.charset
  nonneg := by
    intro r hr
    rcases (mem_put _ _ _).1 hr with ⟨hr, -⟩ | rfl
    · exact table.nonneg r hr
    · exact h.nonneg
  bigint := by
    intro r hr
    rcases (mem_put _ _ _).1 hr with ⟨hr, -⟩ | rfl
    · exact table.bigint r hr
    · exact h.bigint

/-- One request: all of its rows, or none when the table refuses one. -/
def Table.upsert (table : Table) : List CloudItem → Option Table
  | [] => some table
  | row :: rest => if h : Admitted row then Table.upsert (Table.put table row h) rest else none

theorem mem_upsert {table after : Table} {batch : List CloudItem}
    (h : Table.upsert table batch = some after) {row : CloudItem} (hrow : row ∈ after.rows) :
    row ∈ batch ∨ row ∈ table.rows := by
  induction batch generalizing table with
  | nil =>
    obtain rfl : table = after := by simpa [Table.upsert] using h
    exact Or.inr hrow
  | cons first rest ih =>
    unfold Table.upsert at h
    split at h
    · rcases ih h with hmem | hmem
      · exact Or.inl (List.mem_cons_of_mem _ hmem)
      · rcases (mem_put _ _ _).1 hmem with ⟨hold, -⟩ | rfl
        · exact Or.inr hold
        · exact Or.inl List.mem_cons_self
    · simp at h

/-- What the key's holders rely on: sealing is undone by opening, and adds no more
than the tag and the encoding. -/
structure Lawful (key : SyncKey) : Prop where
  opens : ∀ content itemId, key.decryptRow (key.encryptRow content itemId).2
    (key.encryptRow content itemId).1 itemId = some content
  size : ∀ content itemId,
    (key.encryptRow content itemId).2.utf8ByteSize ≤ encodedLen (content.length + tagLen)

/-- A row that is validly signed and can be opened. -/
def Valid (key : SyncKey) (row : CloudItem) : Prop :=
  key.verifyMetadata row = true ∧
    (row.deleted = true ∨ (key.decryptRow row.ciphertext row.nonce row.itemId).isSome)

instance (key : SyncKey) (row : CloudItem) : Decidable (Valid key row) := by
  unfold Valid
  infer_instance

/-- The version a row carries. -/
def opened (key : SyncKey) (row : CloudItem) : LocalItem :=
  openedItem row (if row.deleted then [] else
    (key.decryptRow row.ciphertext row.nonce row.itemId).getD [])

variable {key : SyncKey}

private theorem encodedLen_mono {m n : Nat} (h : m ≤ n) : encodedLen m ≤ encodedLen n := by
  unfold encodedLen
  omega

/-- A row that a holder of the key sent and that verifies is refused by nobody,
except for as long as it is stamped beyond the skew ceiling. -/
theorem judge_outgoing (hkey : Lawful key) {device : String} {item : LocalItem} {row : CloudItem}
    (h : outgoing key device item = some row) (hverify : key.verifyMetadata row = true)
    (now : Int) : judge key now row = .future ∨ judge key now row = .accepted (opened key row) := by
  unfold judge
  by_cases hfuture : saturatingAdd now maxFutureSkewMs < row.createdAt
  · exact Or.inl (if_pos hfuture)
  · right
    rw [if_neg hfuture, hverify]
    simp only [Bool.not_true, Bool.false_eq_true, if_false]
    unfold outgoing at h
    split at h
    · rename_i hdeleted
      have hrow : row.deleted = true := by
        rw [← Option.some.inj h]
        rfl
      simp [hrow, opened]
    · split at h
      · simp at h
      · rename_i hdeleted hsize
        have hlive : row.deleted = false := by
          rw [← Option.some.inj h]
          rfl
        have hopen : key.decryptRow row.ciphertext row.nonce row.itemId = some item.content := by
          rw [← Option.some.inj h]
          exact hkey.opens item.content item.itemId
        have hlength : item.content.length ≤ Pull.maxContentBytes := by
          simpa [tooLargeToSync] using hsize
        have hcipher : ciphertextExceedsContentLimit row.ciphertext = false := by
          have hle := (hkey.size item.content item.itemId).trans
            (encodedLen_mono (Nat.add_le_add_right hlength tagLen))
          have hrow : row.ciphertext = (key.encryptRow item.content item.itemId).2 := by
            rw [← Option.some.inj h]
            rfl
          unfold ciphertextExceedsContentLimit
          rw [hrow, decide_eq_false_iff_not, not_lt]
          exact hle
        have hfits : tooLargeToSync row.contentType item.content.length = false := by
          simpa [tooLargeToSync] using hlength
        simp [hlive, hcipher, hopen, hfits, opened]

end CopyPaste.Cloud.Push
