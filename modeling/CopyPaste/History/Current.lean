import CopyPaste.History.Ingest
import CopyPaste.Merge.CloudDelete

/-!
Runs of captures, deletions, promotions, choices about secrecy, sweeps and merges, with
every version a row ever had kept beside the history. A capture ends with a sweep of its
own. In such a run each row is to be as new as all the versions its id had; a merge keeps
that when what comes under an id that has no row is not older than what the id had.
-/

namespace CopyPaste.History.Current

open Lib.Checks Lib.Rows Lib.Shared Lib.Guarded Lib.Pieces Merge.Comparator Merge.Payload Merge.Storage
  Merge.Prepare Merge.Batch Merge.Effects Merge.Pages Files.Tables Files.Reseal Files.Bodies Ingest
  Upload.Scanning

def maxStamp : Int := 2 ^ 63 - 1

/-- A file offered by a reference to it, and what is drawn for the offer. -/
structure Publication where
  file : Reference
  limit : Nat
  metadata : FileMetadata
  context : PayloadMetadata
  createdAt : Int
  appBundleId : Option String
  appName : Option String
  explicit : Bool
  uuid : String
  sourceVersion : String
  streamNonce : StreamNonce

/-- The offer of a publication reads nothing of the file. -/
def Publication.toImport (p : Publication) : Import where
  length := 0
  limit := p.limit
  first := []
  second := []
  metadata := { p.metadata with sourceReference := some p.file.reference }
  context := p.context
  createdAt := p.createdAt
  appBundleId := p.appBundleId
  appName := p.appName
  explicit := p.explicit
  uuid := p.uuid
  streamNonce := p.streamNonce
  nonces := fun _ => []

def Publication.transfer (p : Publication) : FileTransfer :=
  ⟨p.file.sizeBytes, "", some p.sourceVersion⟩

inductive Failure
  | ingest (error : IngestError)
  | store (error : StoreError)
  | file (error : FileTransferError)
  | merge (error : MergeError)
  deriving DecidableEq, Repr

/-- An error of the index, or of an id that is taken. -/
def Failure.isConflict : Failure → Bool
  | .ingest (.storage .constraint) => true
  | .store .constraint => true
  | .file .storage => true
  | _ => false

/-- A text of a batch leaves the sweep to the batch; another one is swept for under the
settings of that moment. -/
inductive Op
  | text (content contentType id : String) (source : Source) (settings : ConfigData)
      (sweep : Option ConfigData)
  | binary (bytes : List UInt8) (contentType : String) (source : Source) (settings : ConfigData)
  | reference (p : Publication) (settings : ConfigData)
  | importFile (file : Import) (settings : ConfigData)
  | delete (ids : List String) (now : Int)
  | evict (ids : List String)
  | promote (id : String) (copiedAt : Int)
  | setSecret (id : String) (secret : Bool) (now : Int)
  | merge (page : List Incoming)

/-- The host with the ciphers, the JSON of a file's metadata by itself, and the rows that
the retention sweep removes under some settings. -/
structure System where
  host : Host
  vault : Vault
  renderFile : FileMetadata → String
  evicted : ConfigData → Store → List String

variable (sys : System)

def importItem (file : Import) : Except FileTransferError (FileTransfer × NewItem) := do
  let transfer ← file.offer sys.host
  let item ← offerItem sys.host sys.vault file transfer
  return (transfer, item)

def publishItem (p : Publication) : Except FileTransferError NewItem :=
  if p.limit < p.file.sizeBytes then .error (.tooLarge p.file.sizeBytes p.limit)
  else offerItem sys.host sys.vault p.toImport p.transfer

/-- The write of an operation: the database after it, and the row a capture answers with. -/
def Op.write (disk : Disk) : Op → Except Failure (Disk × Option ItemRow)
  | .text content contentType id source settings _ => do
    let (store, ingested, _) ← (ingestText sys.host sys.renderFile disk.store settings content
      contentType id source).mapError .ingest
    return (disk.settle store, some ingested.intoItem)
  | .binary bytes contentType source settings => do
    let (store, ingested, _) ← (ingestBinary sys.host sys.renderFile sys.vault disk.store settings
      bytes contentType source).mapError .ingest
    return (disk.settle store, some ingested.intoItem)
  | .reference p _ => do
    let item ← (publishItem sys p).mapError .file
    let (disk, ingested) ← (insertFileReference sys.host disk item p.file (!p.explicit)).mapError
      .store
    return (disk, some ingested.intoItem)
  | .importFile file _ => do
    let (transfer, item) ← (importItem sys file).mapError .file
    let disk ← (insertFileTransfer sys.host sys.vault disk item file.second transfer.sizeBytes
      transfer.sha256 file.nonces file.explicit).mapError .file
    return (disk, liveRow disk.store item.id)
  | .delete ids now => .ok (deleteRows disk ids now, none)
  | .evict ids => .ok (evictRows disk ids, none)
  | .promote id copiedAt => do
    let (store, _) ← (promoteCopied disk.store id copiedAt).mapError .store
    return (disk.settle store, none)
  | .setSecret id secret now => do
    let (store, _) ← (Ingest.setSecret sys.host sys.vault disk.store id secret now).mapError .store
    return (disk.settle store, none)
  | .merge page => do
    let (disk, _) ← (mergePage sys.host disk page).mapError .merge
    return (disk, none)

/-- The settings a capture sweeps under. -/
def Op.sweep : Op → Option ConfigData
  | .text _ _ _ _ _ sweep => sweep
  | .binary _ _ _ settings => some settings
  | .reference _ settings => some settings
  | .importFile _ settings => some settings
  | _ => none

def System.swept (sweep : Option ConfigData) (disk : Disk) : Disk :=
  sweep.elim disk fun settings => evictRows disk (sys.evicted settings disk.store)

/-- An operation, with the sweep that ends a capture. -/
def Op.run (disk : Disk) (op : Op) : Except Failure (Disk × Option ItemRow) :=
  (op.write sys disk).map fun answer => (sys.swept op.sweep answer.1, answer.2)

/-- The database, and beside it every version a row ever had. -/
structure State where
  disk : Disk := {}
  seen : List Version := []

def State.after (s : State) (disk : Disk) : State :=
  ⟨disk, s.seen ++ disk.store.items.map ItemRow.toVersion⟩

/-- An operation that fails is rolled back. A capture has committed its row when it sweeps. -/
def step (s : State) (op : Op) : Option State :=
  match op.write sys s.disk with
  | .error _ => some s
  | .ok (disk, _) => some ((s.after disk).after (sys.swept op.sweep disk))

def machine : Machine State Op where
  start s := s = {}
  step := step sys

/-- A row's payload, opened as its type is. -/
def openPayload (contentType id : String) (payload : List UInt8 × List UInt8) :
    Option (List UInt8) :=
  if isText contentType then sys.vault.decrypt payload.2 payload.1 id
  else sys.vault.openBinary payload.2 id

def openRow (row : ItemRow) : Option (List UInt8) :=
  row.payload.bind (openPayload sys row.contentType row.id)

/-- What the ciphers and the digest are relied on for: a value within the bound is opened,
and so is an offer. -/
structure Laws : Prop where
  chunks : ∀ nonce id bytes,
    sys.vault.decrypt (sys.vault.encrypt nonce id bytes) nonce id = some bytes
  sealed : ∀ contentType id bytes, bytes.length ≤ maxContentBytes →
    openPayload sys contentType id (sys.host.encrypt contentType id bytes) = some bytes
  offers : ∀ nonce transfer id, transfer.isValid = true → sys.vault.openBinary
    (sealWithDigest sys.vault.toCipher nonce (sys.vault.renderTransfer transfer) id) id =
      some (sys.vault.renderTransfer transfer)
  empty : ∀ bytes, sys.host.sha256 bytes = sys.host.sha256 [] → bytes = []
  hex : ∀ bytes, ∀ digit ∈ (sys.host.sha256 bytes).toList, isLowerHex digit = true

/-- What a live row of the history is: it opens to what its hash is of, and its version is
as new as every version its id had. -/
structure RowOk (seen : List Version) (row : ItemRow) : Prop where
  item : isRecordId row.id = false
  stamp : row.createdAt ≤ maxStamp
  opens : row.deleted = false → ∃ bytes, openRow sys row = some bytes ∧
    sys.host.sha256 bytes = row.contentHash
  newest : ∀ version ∈ seen, version.id = row.id →
    Version.key sys.host version ≤ Version.key sys.host row.toVersion

/-- The tables of files follow the history, and a blob that has chunks has all of them. -/
structure FilesOk (disk : Disk) : Prop where
  owners : ∀ owner ∈ disk.files.bodies.owners, ∃ row ∈ disk.store.items, row.id = owner.1
  references : ∀ held ∈ disk.files.references, ∃ row ∈ disk.store.items, row.id = held.itemId
  blobs : ∀ blob, disk.files.bodies.partsOf blob = [] ∨
    ∃ bytes, Stored sys.vault disk.files.bodies blob bytes ∧ sys.host.sha256 bytes = blob

structure StoreOk (seen : List Version) (store : Store) : Prop where
  wf : WellFormed store
  rows : ∀ row ∈ store.items, RowOk sys seen row

structure DiskOk (seen : List Version) (disk : Disk) : Prop where
  store : StoreOk sys seen disk.store
  files : FilesOk sys disk

/-- No id has lost its row. -/
def Grown (before after : Store) : Prop :=
  ∀ row ∈ before.items, ∃ row' ∈ after.items, row'.id = row.id

/-- A later version of a row: its content is the one it was. -/
structure Raised (row row' : ItemRow) : Prop where
  id : row'.id = row.id
  payload : row'.payload = row.payload
  contentType : row'.contentType = row.contentType
  contentHash : row'.contentHash = row.contentHash
  deleted : row'.deleted = row.deleted
  origin : row'.originDeviceId = row.originDeviceId
  stamp : row.createdAt ≤ row'.createdAt

theorem Raised.refl (row : ItemRow) : Raised row row :=
  ⟨rfl, rfl, rfl, rfl, rfl, rfl, le_refl _⟩

variable {row row' : ItemRow} {seen : List Version} {disk disk' : Disk} {store : Store}
  {page : List Incoming}

theorem Raised.trans {row'' : ItemRow} (h : Raised row row') (h' : Raised row' row'') :
    Raised row row'' :=
  ⟨h'.id.trans h.id, h'.payload.trans h.payload, h'.contentType.trans h.contentType,
    h'.contentHash.trans h.contentHash, h'.deleted.trans h.deleted, h'.origin.trans h.origin,
    h.stamp.trans h'.stamp⟩

theorem raised_onto (pin : PinState) (row : ItemRow) : Raised row (pin.onto row) := by
  unfold PinState.onto
  split <;> exact ⟨rfl, rfl, rfl, rfl, rfl, rfl, le_refl _⟩

theorem raised_projected (pins : List PinState) (row : ItemRow) :
    Raised row (projected pins row) := by
  unfold projected
  split
  · exact Raised.refl row
  · exact raised_onto _ row

variable {sys}

theorem Raised.key_le (h : Raised row row') :
    Version.key sys.host row.toVersion ≤ Version.key sys.host row'.toVersion := by
  unfold Version.key
  rw [← not_lt, versionKey_lt_iff]
  simp only [ItemRow.toVersion, h.contentHash, h.deleted, h.origin, lt_irrefl, and_false, or_false,
    not_lt]
  exact h.stamp

theorem Raised.openRow (h : Raised row row') : openRow sys row' = openRow sys row := by
  unfold Current.openRow
  rw [h.payload, h.contentType, h.id]

theorem RowOk.raised (h : RowOk sys seen row) (hraised : Raised row row')
    (hstamp : row'.createdAt ≤ maxStamp) : RowOk sys seen row' := by
  refine ⟨hraised.id ▸ h.item, hstamp, ?_, ?_⟩
  · intro hlive
    rw [hraised.openRow, hraised.contentHash]
    exact h.opens (hraised.deleted ▸ hlive)
  · intro version hversion hid
    exact (h.newest version hversion (hid.trans hraised.id)).trans hraised.key_le

theorem RowOk.tombstone {now : Int} (h : RowOk sys seen row) (hlive : row.deleted = false)
    (hnow : now ≤ maxStamp) : RowOk sys seen (Files.Bodies.tombstone now row) := by
  have hbound : maxStamp = 2 ^ 63 - 1 := rfl
  have hstamp := h.stamp
  refine ⟨h.item, ?_, ?_, ?_⟩
  · simp only [Files.Bodies.tombstone]
    split <;> omega
  · intro hdeleted
    cases hdeleted
  · intro version hversion hid
    refine (h.newest version hversion hid).trans ?_
    unfold Version.key
    rw [← not_lt, versionKey_lt_iff]
    simp only [ItemRow.toVersion, Files.Bodies.tombstone, hlive]
    rw [not_or]
    constructor
    · split <;> omega
    · simp

theorem rowOk_seen {items : List ItemRow} (hnodup : (items.map ItemRow.id).Nodup)
    (h : ∀ row ∈ items, RowOk sys seen row) :
    ∀ row ∈ items, RowOk sys (seen ++ items.map ItemRow.toVersion) row := by
  intro row hrow
  refine ⟨(h row hrow).item, (h row hrow).stamp, (h row hrow).opens, ?_⟩
  intro version hversion hid
  rcases List.mem_append.1 hversion with hold | hnew
  · exact (h row hrow).newest version hold hid
  · obtain ⟨other, hother, rfl⟩ := List.mem_map.1 hnew
    have hsame : other = row := List.inj_on_of_nodup_map hnodup hother hrow hid
    rw [hsame]

theorem references_settle (disk : Disk) (after : Store) :
    (disk.settle after).files.references =
      disk.files.references.filter fun held => held.itemId ∉ changed disk.store after := by
  have hreleases : ∀ (ids : List String) (files : FileTables),
      (ids.foldl FileTables.release files).references =
        files.references.filter fun held => held.itemId ∉ ids := by
    intro ids
    induction ids with
    | nil => simp
    | cons id rest ih =>
      intro files
      rw [List.foldl_cons, ih]
      unfold FileTables.release
      rw [List.filter_filter]
      refine List.filter_congr fun held _ => ?_
      by_cases hid : held.itemId = id <;> simp [hid]
  exact hreleases _ _

/-- An item whose file is kept by a statement keeps its row. -/
theorem row_of_unchanged {before after : Store} {id : String}
    (hrow : ∃ row ∈ before.items, row.id = id) (h : id ∉ changed before after) :
    ∃ row ∈ after.items, row.id = id := by
  have hbefore : contentCiphertext before id ≠ none := by
    obtain ⟨row, hmem, hid⟩ := hrow
    unfold contentCiphertext
    rw [Ne, Option.map_eq_none_iff, lookup_eq_none_iff]
    exact fun hnone => hnone row hmem hid
  have hafter : contentCiphertext after id ≠ none := by
    intro hnone
    refine h (mem_changed.2 ⟨hbefore, ?_⟩)
    rw [hnone]
    exact fun heq => hbefore heq.symm
  unfold contentCiphertext at hafter
  rw [Ne, Option.map_eq_none_iff, lookup_eq_none_iff] at hafter
  push Not at hafter
  exact hafter

theorem FilesOk.settle (h : FilesOk sys disk) (after : Store) :
    FilesOk sys (disk.settle after) := by
  obtain ⟨hshrinks, howners⟩ := bodies_settle disk after
  refine ⟨?_, ?_, ?_⟩
  · intro owner howner
    rw [howners, List.mem_filter, decide_eq_true_eq] at howner
    exact row_of_unchanged (h.owners owner howner.1) howner.2
  · intro held hheld
    rw [references_settle, List.mem_filter, decide_eq_true_eq] at hheld
    exact row_of_unchanged (h.references held hheld.1) hheld.2
  · intro blob
    rcases hshrinks.parts blob with hsame | ⟨hnone, -⟩
    · rcases h.blobs blob with hempty | ⟨bytes, hstored, hdigest⟩
      · exact Or.inl (hsame.trans hempty)
      · refine Or.inr ⟨bytes, ?_, hdigest⟩
        unfold Stored
        rw [hsame]
        exact hstored
    · exact Or.inl hnone

theorem DiskOk.settle (h : DiskOk sys seen disk) {after : Store} (hafter : StoreOk sys seen after) :
    DiskOk sys seen (disk.settle after) :=
  ⟨hafter, h.files.settle after⟩

/-- The rows of a history are exchanged, and its records stay. -/
theorem StoreOk.exchange {after : Store} (h : StoreOk sys seen store)
    (hrecords : after.records = store.records) (hnodup : (after.items.map ItemRow.id).Nodup)
    (hrows : ∀ row ∈ after.items, RowOk sys seen row) : StoreOk sys seen after := by
  refine ⟨⟨hnodup, ?_, fun row hrow => (hrows row hrow).item, ?_⟩, hrows⟩
  · rw [hrecords]
    exact h.wf.records
  · rw [hrecords]
    exact h.wf.recordIds

theorem Grown.trans {before middle after : Store} (h : Grown before middle)
    (h' : Grown middle after) : Grown before after := by
  intro row hrow
  obtain ⟨row', hrow', hid'⟩ := h row hrow
  obtain ⟨row'', hrow'', hid''⟩ := h' row' hrow'
  exact ⟨row'', hrow'', hid''.trans hid'⟩

theorem grown_map {f : ItemRow → ItemRow} (hf : ∀ row, (f row).id = row.id) {after : Store}
    (hitems : after.items = store.items.map f) : Grown store after := by
  intro row hrow
  exact ⟨f row, hitems ▸ List.mem_map_of_mem hrow, hf row⟩

theorem FilesOk.grown (h : FilesOk sys disk) {after : Store} (hgrown : Grown disk.store after) :
    FilesOk sys { disk with store := after } := by
  refine ⟨?_, ?_, h.blobs⟩
  · intro owner howner
    obtain ⟨row, hrow, hid⟩ := h.owners owner howner
    obtain ⟨row', hrow', hid'⟩ := hgrown row hrow
    exact ⟨row', hrow', hid'.trans hid⟩
  · intro held hheld
    obtain ⟨row, hrow, hid⟩ := h.references held hheld
    obtain ⟨row', hrow', hid'⟩ := hgrown row hrow
    exact ⟨row', hrow', hid'.trans hid⟩

/-- What a write of a merge brings: a payload that opens to what the hash is of, and no
version that is older than one its id had. -/
structure ReadyOk (sys : System) (seen : List Version) (ready : IncomingItem) : Prop where
  stamp : ready.createdAt ≤ maxStamp
  opens : ready.deleted = false → ∃ bytes,
    ready.payload.bind (openPayload sys ready.contentType ready.id) = some bytes ∧
      sys.host.sha256 bytes = ready.contentHash
  newest : ∀ version ∈ seen, version.id = ready.id →
    Version.key sys.host version ≤ versionKey ready.createdAt ready.contentHash ready.deleted
      (originOr ready.originDeviceId sys.host.here)

/-- A write may restamp what it brings, forward. -/
theorem rowOf_createdAt (host : Host) (store : Store) {incoming : IncomingItem}
    (h : incoming.createdAt ≤ maxStamp) :
    incoming.createdAt ≤ (store.rowOf host incoming).1.createdAt ∧
      (store.rowOf host incoming).1.createdAt ≤ maxStamp := by
  have hbound : maxStamp = 2 ^ 63 - 1 := rfl
  have hcases : (store.rowOf host incoming).1.createdAt = incoming.createdAt ∨
      (store.rowOf host incoming).1.createdAt = saturatingSucc incoming.createdAt := by
    unfold Store.rowOf
    dsimp only
    split
    · exact Or.inl rfl
    · unfold mergeHeldPrivacy
      dsimp only
      split
      · exact Or.inl rfl
      · exact Or.inr rfl
  unfold saturatingSucc at hcases
  omega

theorem onto_createdAt (pin : PinState) (row : ItemRow) :
    (pin.onto row).createdAt = row.createdAt := by
  unfold PinState.onto
  split <;> rfl

theorem projected_createdAt (pins : List PinState) (row : ItemRow) :
    (projected pins row).createdAt = row.createdAt := by
  unfold projected
  split
  · rfl
  · exact onto_createdAt _ row

theorem rowOk_upsert {incoming : IncomingItem} (hrecord : isRecordId incoming.id = false)
    (h : ReadyOk sys seen incoming) :
    RowOk sys seen (projected store.pinStates (store.rowOf sys.host incoming).1) := by
  obtain ⟨hforward, hbound⟩ := rowOf_createdAt sys.host store h.stamp
  have hrow : RowOk sys seen (store.rowOf sys.host incoming).1 := by
    refine ⟨hrecord, hbound, h.opens, ?_⟩
    intro version hversion hid
    refine (h.newest version hversion hid).trans ?_
    unfold Version.key
    rw [← not_lt, versionKey_lt_iff]
    simp only [ItemRow.toVersion, Store.rowOf, lt_irrefl, and_false, or_false, not_lt]
    exact hforward
  refine hrow.raised (raised_projected _ _) ?_
  rw [projected_createdAt]
  exact hbound

theorem StoreOk.upsert (h : StoreOk sys seen store) (incoming : IncomingItem)
    (hready : isRecordId incoming.id = false → incoming.contentType ≠ recordContentType →
      ReadyOk sys seen incoming) :
    StoreOk sys seen (store.upsert sys.host incoming).1 ∧
      Grown store (store.upsert sys.host incoming).1 := by
  have hsame : Grown store store := fun row hrow => ⟨row, hrow, rfl⟩
  suffices hrows : (∀ row ∈ (store.upsert sys.host incoming).1.items, RowOk sys seen row) ∧
      Grown store (store.upsert sys.host incoming).1 from
    ⟨⟨wellFormed_upsert sys.host h.wf incoming, hrows.1⟩, hrows.2⟩
  by_cases hkind : incoming.contentType = recordContentType
  · rcases upsert_record sys.host hkind with hnone | ⟨text, record, -, -, -, hrecorded⟩
    · rw [hnone]
      exact ⟨h.rows, hsame⟩
    · rw [hrecorded]
      obtain ⟨f, hitems, hf⟩ := items_recorded store incoming record
      have hraised : ∀ row, Raised row (f row) ∧ (f row).createdAt = row.createdAt := by
        intro row
        rcases hf row with hsame | ⟨pin, honto⟩
        · rw [hsame]
          exact ⟨Raised.refl row, rfl⟩
        · rw [honto]
          exact ⟨raised_onto pin row, onto_createdAt pin row⟩
      refine ⟨?_, grown_map (fun row => (hraised row).1.id) hitems⟩
      rw [hitems]
      intro row hrow
      obtain ⟨before, hbefore, rfl⟩ := List.mem_map.1 hrow
      refine (h.rows before hbefore).raised (hraised before).1 ?_
      rw [(hraised before).2]
      exact (h.rows before hbefore).stamp
  · cases hid : isRecordId incoming.id with
    | true =>
      unfold Store.upsert
      rw [if_neg hkind, if_pos hid]
      exact ⟨h.rows, hsame⟩
    | false =>
      rw [upsert_item sys.host hkind hid]
      split
      · refine ⟨?_, ?_⟩
        · intro row hrow
          rcases (mem_put _ _ _).1 hrow with ⟨hold, -⟩ | rfl
          · exact h.rows row hold
          · exact rowOk_upsert hid (hready hid hkind)
        · intro row hrow
          by_cases hrowId : row.id = incoming.id
          · exact ⟨_, (mem_put _ _ _).2 (Or.inr rfl), by simp [hrowId]⟩
          · exact ⟨row, (mem_put _ _ _).2 (Or.inl ⟨hrow, by simpa using hrowId⟩), rfl⟩
      · exact ⟨h.rows, hsame⟩

theorem StoreOk.applyPinState (h : StoreOk sys seen store) (id : String) (pinned : Bool)
    (order : Option PinOrder) (stamp : Int) :
    StoreOk sys seen (store.applyPinState id pinned order stamp).1 ∧
      Grown store (store.applyPinState id pinned order stamp).1 := by
  unfold Store.applyPinState
  split
  · exact ⟨h, fun row hrow => ⟨row, hrow, rfl⟩⟩
  · have hraised : ∀ row : ItemRow, Raised row (if row.id = id ∧ (!row.deleted) = true then
        { row with pinned := pinned, pinOrder := order, pinUpdatedAt := stamp } else row) := by
      intro row
      split
      · exact ⟨rfl, rfl, rfl, rfl, rfl, rfl, le_refl _⟩
      · exact Raised.refl row
    refine ⟨h.exchange rfl ?_ ?_, grown_map (fun row => (hraised row).id) rfl⟩
    · exact nodup_map _ (fun row => (hraised row).id) _ h.wf.items
    · intro row hrow
      obtain ⟨before, hbefore, rfl⟩ := List.mem_map.1 hrow
      refine (h.rows before hbefore).raised (hraised before) ?_
      refine le_trans (le_of_eq ?_) (h.rows before hbefore).stamp
      split <;> rfl

/-- A version that comes under an id no row has is as new as every version the id had. -/
def arrivalKey (host : Host) (item : RemoteVersion) : VersionKey :=
  versionKey item.createdAt (remoteContentHash host item none) item.deleted item.originDeviceId

/-- What the version that an incoming one is decided against has to be. -/
structure Threads (sys : System) (seen : List Version) (held : Option Version)
    (item : RemoteVersion) : Prop where
  stamp : item.createdAt ≤ maxStamp
  known : ∀ version, held = some version → isRecordId item.itemId = false →
    ∀ w ∈ seen, w.id = item.itemId → Version.key sys.host w ≤ Version.key sys.host version
  arrives : held = none → isRecordId item.itemId = false →
    ∀ w ∈ seen, w.id = item.itemId → Version.key sys.host w ≤ arrivalKey sys.host item

theorem key_origin_le (c : Int) (hash : String) (deleted : Bool) (origin here : String) :
    versionKey c hash deleted origin ≤ versionKey c hash deleted (originOr origin here) := by
  rw [← not_lt, versionKey_lt_iff]
  simp only [lt_irrefl, true_and, false_or]
  exact Merge.CloudDelete.not_originOr_lt origin here

/-- A version that wins over what its id has is fit to be written. -/
theorem readyOk_prepared (hlaws : Laws sys) {held : Option Version} {item : RemoteVersion}
    {pin : Option RemotePin} {ready : Prepared} (hthreads : Threads sys seen held item)
    (h : prepareRemoteVersion sys.host item pin held = .ok (some ready)) :
    ready.id = item.itemId ∧
      (isRecordId item.itemId = false → ReadyOk sys seen ready.toIncomingItem) := by
  unfold prepareRemoteVersion at h
  split at h
  · cases h
  · split at h
    · cases h
    · rename_i hsmall
      split at h
      · cases h
      · rename_i hwins
        obtain rfl := Option.some.inj (Except.ok.inj h)
        refine ⟨rfl, fun hid => ⟨hthreads.stamp, ?_, ?_⟩⟩
        · intro hlive
          have hdeleted : item.deleted = false := hlive
          have hsize : item.bytes.length ≤ maxContentBytes := by
            simpa [hdeleted] using hsmall
          refine ⟨item.bytes, ?_, ?_⟩
          · simp only [prepared, hdeleted, Bool.false_eq_true, if_false, Option.bind_some]
            exact hlaws.sealed _ _ _ hsize
          · simp only [prepared, remoteContentHash, hdeleted, Bool.false_eq_true, if_false]
        · intro version hversion hversionId
          refine le_trans ?_ (key_origin_le _ _ _ item.originDeviceId sys.host.here)
          cases held with
          | none => exact hthreads.arrives rfl hid version hversion hversionId
          | some kept =>
            refine (hthreads.known kept rfl hid version hversion hversionId).trans ?_
            unfold keepsLocal at hwins
            rw [Option.any_some, decide_eq_true_eq, mergeDecision_keepLocal_iff, not_le] at hwins
            exact hwins.le

theorem key_asVersion (host : Host) (ready : Prepared) :
    Version.key host (ready.asVersion host) =
      versionKey ready.createdAt ready.contentHash ready.deleted
        (originOr ready.originDeviceId host.here) := by
  have horigin : originOr (originOr ready.originDeviceId host.here) host.here =
      originOr ready.originDeviceId host.here := by
    unfold originOr
    split
    · split <;> rfl
    · rfl
  unfold Version.key Prepared.asVersion
  rw [horigin]

/-- The winners of a page, each decided against those before it. -/
theorem readyOk_decisions (hlaws : Laws sys) {held : List Version} {ds : List Decision}
    (hthreads : ∀ incoming ∈ page,
      Threads sys seen (lookup Version.id held incoming.1.itemId) incoming.1)
    (h : decisions sys.host held page = .ok ds) :
    ∀ ready, Decision.won ready ∈ ds → isRecordId ready.id = false →
      ReadyOk sys seen ready.toIncomingItem := by
  induction page generalizing held ds with
  | nil =>
    obtain rfl := Except.ok.inj h
    intro ready hready
    cases hready
  | cons incoming rest ih =>
    obtain ⟨decision, later, hdecide, hlater, rfl⟩ := decisions_cons sys.host h
    have hfirst := hthreads incoming List.mem_cons_self
    have hwon : ∀ ready, decision = .won ready → ready.id = incoming.1.itemId ∧
        (isRecordId incoming.1.itemId = false → ReadyOk sys seen ready.toIncomingItem) := by
      rintro ready rfl
      unfold decideRow at hdecide
      split at hdecide
      · cases hdecide
      · simp only [bind, Except.bind] at hdecide
        split at hdecide
        · cases hdecide
        · rename_i answer hprepare
          cases answer with
          | none => cases hdecide
          | some won =>
            obtain rfl : won = ready := by
              simpa [pure, Except.pure] using hdecide
            exact readyOk_prepared hlaws hfirst hprepare
    intro ready hready hid
    rcases List.mem_cons.1 hready with heq | hmem
    · obtain ⟨hitem, hok⟩ := hwon ready heq.symm
      exact hok (hitem ▸ hid)
    · refine ih ?_ hlater ready hmem hid
      intro other hother
      have hrest := hthreads other (List.mem_cons_of_mem _ hother)
      cases hdecision : decision with
      | refused | lost => exact hrest
      | won first =>
        obtain ⟨hitem, hok⟩ := hwon first hdecision
        simp only [Decision.thread, lookup_put]
        split
        · rename_i hsame
          refine ⟨hrest.stamp, ?_, fun hnone => by cases hnone⟩
          intro version hversion hrecord w hw hwid
          obtain rfl := Option.some.inj hversion
          rw [key_asVersion]
          have hfirstId : first.id = other.1.itemId := hsame
          refine (hok ?_).newest w hw (hwid.trans hfirstId.symm)
          rw [← hitem, hfirstId]
          exact hrecord
        · exact hrest

/-- A page whose versions that come under an id no row has are as new as every version
the id had. -/
def PageFits (sys : System) (seen : List Version) (store : Store) (page : List Incoming) : Prop :=
  ∀ incoming ∈ page, incoming.1.createdAt ≤ maxStamp ∧
    ((∀ row ∈ store.items, row.id ≠ incoming.1.itemId) →
      ∀ w ∈ seen, w.id = incoming.1.itemId →
        Version.key sys.host w ≤ arrivalKey sys.host incoming.1)

theorem threads_of_fits {start : Store} (h : StoreOk sys seen store)
    (hfits : PageFits sys seen start page) (hgrown : Grown start store) {incoming : Incoming}
    (hmem : incoming ∈ page) :
    Threads sys seen (store.versionSummary incoming.1.itemId) incoming.1 := by
  obtain ⟨hstamp, harrives⟩ := hfits incoming hmem
  refine ⟨hstamp, ?_, ?_⟩
  · intro version hversion hid w hw hwid
    rw [versionSummary_item h.wf hid, Option.map_eq_some_iff] at hversion
    obtain ⟨row, hrow, rfl⟩ := hversion
    obtain ⟨hrowMem, hrowId⟩ := lookup_eq_some hrow
    exact (h.rows row hrowMem).newest w hw (hwid.trans hrowId.symm)
  · intro hnone hid
    rw [versionSummary_item h.wf hid, Option.map_eq_none_iff, lookup_eq_none_iff] at hnone
    refine harrives fun row hrow hrowId => ?_
    obtain ⟨row', hrow', hid'⟩ := hgrown row hrow
    exact hnone row' hrow' (hid'.trans hrowId)

theorem DiskOk.wrote (h : DiskOk sys seen disk) (rows : List (Incoming × Decision))
    (hready : ∀ incoming ready, (incoming, Decision.won ready) ∈ rows →
      isRecordId ready.id = false → ReadyOk sys seen ready.toIncomingItem) :
    DiskOk sys seen (writeRows sys.host disk rows).1 ∧
      Grown disk.store (writeRows sys.host disk rows).1.store := by
  induction rows generalizing disk with
  | nil => exact ⟨h, fun row hrow => ⟨row, hrow, rfl⟩⟩
  | cons row rest ih =>
    obtain ⟨incoming, decision⟩ := row
    cases decision with
    | refused | lost =>
      exact ih h fun incoming ready hmem => hready incoming ready (List.mem_cons_of_mem _ hmem)
    | won ready =>
      obtain ⟨hstore, hgrown⟩ := h.store.upsert ready.toIncomingItem
        fun hid _ => hready incoming ready List.mem_cons_self hid
      obtain ⟨hok, hlater⟩ := ih (h.settle hstore) fun incoming ready hmem =>
        hready incoming ready (List.mem_cons_of_mem _ hmem)
      exact ⟨hok, hgrown.trans hlater⟩

theorem StoreOk.pins (h : StoreOk sys seen store) (entries : List Entry) :
    StoreOk sys seen (pinPass store entries).1 ∧ Grown store (pinPass store entries).1 := by
  induction entries generalizing store with
  | nil => exact ⟨h, fun row hrow => ⟨row, hrow, rfl⟩⟩
  | cons entry rest ih =>
    unfold pinPass
    split
    · rename_i pin hlost hpin
      obtain ⟨hstore, hgrown⟩ :=
        h.applyPinState entry.incoming.1.itemId pin.pinned pin.pinOrder pin.pinUpdatedAt
      obtain ⟨hok, hlater⟩ := ih hstore
      exact ⟨hok, hgrown.trans hlater⟩
    · exact ih h

theorem DiskOk.applied (hlaws : Laws sys) (h : DiskOk sys seen disk) {incoming : Incoming}
    {flags : P2pApply}
    (hthreads : Threads sys seen (disk.store.versionSummary incoming.1.itemId) incoming.1)
    (happly : applyRow sys.host disk incoming = .ok (disk', flags)) :
    DiskOk sys seen disk' ∧ Grown disk.store disk'.store := by
  unfold applyRow at happly
  obtain ⟨answer, hone, happly⟩ := bind_ok_iff.1 happly
  obtain ⟨rfl, -⟩ := Prod.mk.inj (Except.ok.inj happly)
  obtain ⟨middle, hmiddle, hafter⟩ := applyOne_eq_ok sys.host hone
  have hkept : StoreOk sys seen middle ∧ Grown disk.store middle := by
    rcases hmiddle with rfl | ⟨pin, ready, hprepare, rfl⟩
    · exact ⟨h.store, fun row hrow => ⟨row, hrow, rfl⟩⟩
    · obtain ⟨hid, hok⟩ := readyOk_prepared hlaws hthreads hprepare
      exact h.store.upsert _ fun hrecord _ => hok (hid ▸ hrecord)
  suffices hdone : StoreOk sys seen answer.1 ∧ Grown disk.store answer.1 from
    ⟨h.settle hdone.1, hdone.2⟩
  rcases hafter with hsame | ⟨pin, -, hpinned⟩
  · rw [hsame]
    exact hkept
  · obtain ⟨hstore, hgrown⟩ := hkept.1.applyPinState incoming.1.itemId pin.pinned pin.pinOrder
      pin.pinUpdatedAt
    rw [hpinned]
    exact ⟨hstore, hkept.2.trans hgrown⟩

theorem DiskOk.redone (hlaws : Laws sys) {start : Store} (hfits : PageFits sys seen start page)
    (h : DiskOk sys seen disk) (hgrown : Grown start disk.store) {refused : List String}
    {rows : List (Entry × P2pApply)} {applied : List P2pApply}
    (hrows : ∀ row ∈ rows, row.1.incoming ∈ page)
    (hredo : redoRows sys.host refused disk rows = .ok (disk', applied)) :
    DiskOk sys seen disk' := by
  induction rows generalizing disk refused applied with
  | nil =>
    obtain ⟨rfl, -⟩ := Prod.mk.inj (Except.ok.inj hredo)
    exact h
  | cons row rest ih =>
    obtain ⟨entry, flags⟩ := row
    have hrest : ∀ row ∈ rest, row.1.incoming ∈ page := fun row hrow =>
      hrows row (List.mem_cons_of_mem _ hrow)
    obtain ⟨step, later, rfl | ⟨-, happly⟩, hlast, -⟩ := redoRows_cons sys.host hredo
    · exact ih h hgrown hrest hlast
    · have hthreads := threads_of_fits h.store hfits hgrown
        (hrows (entry, flags) List.mem_cons_self)
      obtain ⟨hok, hlater⟩ := h.applied hlaws hthreads happly
      exact ih hok (hgrown.trans hlater) hrest hlast

/-- A page keeps the history. -/
theorem DiskOk.merged (hlaws : Laws sys) (h : DiskOk sys seen disk) {applied : List P2pApply}
    (hfits : PageFits sys seen disk.store page)
    (hmerge : mergePage sys.host disk page = .ok (disk', applied)) : DiskOk sys seen disk' := by
  have hsame : Grown disk.store disk.store := fun row hrow => ⟨row, hrow, rfl⟩
  unfold mergePage at hmerge
  obtain ⟨ds, hds, hmerge⟩ := bind_ok_iff.1 hmerge
  dsimp only at hmerge
  have hready := readyOk_decisions hlaws (fun incoming hincoming => by
    rw [lookup_versionSummaries h.store.wf _ (List.mem_map_of_mem
      (f := fun incoming : Incoming => incoming.1.itemId) hincoming)]
    exact threads_of_fits h.store hfits hsame hincoming) hds
  obtain ⟨hwritten, hgrown⟩ := h.wrote (page.zip ds)
    fun incoming ready hmem hid => hready ready (List.of_mem_zip hmem).2 hid
  have hentries : (writeRows sys.host disk (page.zip ds)).2.map Entry.incoming =
      (page.zip ds).map Prod.fst := by
    rw [congrArg Prod.snd (writeRows_store sys.host disk (page.zip ds))]
    exact writeAll_incoming sys.host disk.store (page.zip ds)
  obtain ⟨hpinned, hgrown'⟩ :=
    hwritten.store.pins (writeRows sys.host disk (page.zip ds)).2
  refine DiskOk.redone hlaws hfits ⟨hpinned, hwritten.files.grown hgrown'⟩
    (hgrown.trans hgrown') ?_ hmerge
  intro row hrow
  have hentry : row.1 ∈ (writeRows sys.host disk (page.zip ds)).2 := by
    rw [← pinPass_fst (writeRows sys.host disk (page.zip ds)).1.store
      (writeRows sys.host disk (page.zip ds)).2]
    exact List.mem_map_of_mem hrow
  have hincoming := List.mem_map_of_mem (f := Entry.incoming) hentry
  rw [hentries] at hincoming
  obtain ⟨pair, hpair, hfst⟩ := List.mem_map.1 hincoming
  rw [← hfst]
  exact (List.of_mem_zip hpair).1

end CopyPaste.History.Current
