import CopyPaste.Upload.Scanning
import Mathlib

/-!
The backend table and its row format. A row is metadata and ciphertext under a
signature; the table holds one row for each item id, and its constraints admit
only ids that are safe in a filter and stamps at or after zero. Reading it is a
keyset page in ascending order.
-/

namespace CopyPaste.Cloud.Backend

open Lib.Keyset Lib.Rows Upload.Scanning

/-- One row as it travels to and from the backend. -/
structure CloudItem where
  itemId : String
  ciphertext : String
  nonce : String
  contentType : String
  payloadMetadata : Option String
  sourceAppBundleId : Option String
  sourceAppName : Option String
  createdAt : Int
  deleted : Bool
  originDeviceId : String
  signature : String
  deriving DecidableEq, Repr

/-- The sync key, by what its holder can do: sign and check a row's metadata, and
seal and open a payload under an item id. -/
structure SyncKey where
  signMetadata : CloudItem → String
  verifyMetadata : CloudItem → Bool
  encryptRow : List UInt8 → String → String × String
  decryptRow : String → String → String → Option (List UInt8)

inductive RestError
  | invalidItem (reason : String)
  deriving DecidableEq, Repr

/-- Ids are nonempty words over `[A-Za-z0-9_-]`. -/
def validateItemId (itemId : String) : Except RestError Unit :=
  if itemId = "" then
    .error (.invalidItem "item_id must not be empty")
  else if itemId.toList.all fun c => c.isAlphanum || c = '-' || c = '_' then
    .ok ()
  else
    .error (.invalidItem "item_id must be [A-Za-z0-9_-]")

def ValidItemId (itemId : String) : Prop :=
  validateItemId itemId = .ok ()

instance (itemId : String) : Decidable (ValidItemId itemId) := by
  unfold ValidItemId
  infer_instance

def i64Max : Int := 2 ^ 63 - 1

/-- The table with its constraints; a stamp is a `bigint`. -/
structure Table where
  rows : List CloudItem
  unique : (rows.map CloudItem.itemId).Nodup
  charset : ∀ row ∈ rows, ValidItemId row.itemId
  nonneg : ∀ row ∈ rows, 0 ≤ row.createdAt
  bigint : ∀ row ∈ rows, row.createdAt ≤ i64Max

/-- Where a download has reached. -/
abbrev Cursor := Position String

def rowKey (row : CloudItem) : Cursor := ⟨row.createdAt, some row.itemId⟩

def maxPageLimit : Nat := 200

/-- One page of rows, oldest first: from the stamp on when only the stamp is
known, strictly after the pair when both halves are. -/
def fetchSince (table : Table) (sinceMs : Int) (afterItemId : Option String) (limit : Nat) :
    Except RestError (List CloudItem) := do
  let limit := min (max limit 1) maxPageLimit
  let sinceMs := max sinceMs 0
  let ordered := fun (rows : List CloudItem) =>
    (rows.insertionSort fun a b => rowKey a ≤ rowKey b).take limit
  match afterItemId with
  | some itemId =>
    validateItemId itemId
    return ordered (table.rows.filter fun row =>
      sinceMs < row.createdAt ∨ row.createdAt = sinceMs ∧ itemId < row.itemId)
  | none => return ordered (table.rows.filter fun row => sinceMs ≤ row.createdAt)

theorem nodup_rowKey (table : Table) : (table.rows.map rowKey).Nodup := by
  refine List.Nodup.of_map (fun key => key.itemId.getD "") ?_
  simpa [Function.comp_def, rowKey] using table.unique

/-- A cursor the client can resume from: no negative stamp, and a valid id. -/
structure Resumable (cursor : Cursor) : Prop where
  nonneg : 0 ≤ cursor.createdAt
  charset : ∀ itemId ∈ cursor.itemId, ValidItemId itemId

/-- From such a cursor the backend answers with a page of the library. -/
theorem fetchSince_eq_page (table : Table) (cursor : Cursor) (h : Resumable cursor) (limit : Nat)
    (hlimit : 1 ≤ limit) (hmax : limit ≤ maxPageLimit) :
    fetchSince table cursor.createdAt cursor.itemId limit =
      .ok (page rowKey table.rows cursor limit) := by
  have hclamp : min (max limit 1) maxPageLimit = limit := by omega
  have hstamp : max cursor.createdAt 0 = cursor.createdAt := max_eq_left h.nonneg
  unfold fetchSince page
  rw [hclamp, hstamp]
  obtain ⟨createdAt, itemId⟩ := cursor
  cases itemId with
  | none =>
    simp only [pure, Except.pure, Except.ok.injEq]
    congr 2
    refine List.filter_congr fun row _ => ?_
    rw [decide_eq_decide, rowKey, Position.lt_row_iff]
    constructor
    · intro hle
      rcases hle.lt_or_eq with hlt | heq
      · exact Or.inl hlt
      · exact Or.inr ⟨heq, by simp⟩
    · rintro (hlt | ⟨heq, -⟩)
      · exact hlt.le
      · exact heq.le
  | some id =>
    have hvalid : validateItemId id = .ok () := h.charset id rfl
    simp only [hvalid, bind, Except.bind, pure, Except.pure, Except.ok.injEq]
    congr 2
    refine List.filter_congr fun row _ => ?_
    simp only [rowKey, Position.lt_row_iff, Option.mem_def, Option.some.injEq, forall_eq', eq_comm]

end CopyPaste.Cloud.Backend
