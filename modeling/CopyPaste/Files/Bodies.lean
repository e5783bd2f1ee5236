import CopyPaste.Lib.Guarded
import CopyPaste.Lib.Pieces
import CopyPaste.Files.Reseal
import Mathlib

/-!
The bodies of files. An import hashes the file, then reads it again into encrypted
chunks, or beside the chunks that are already there, and is accepted when size and
digest come out as announced. What the second reading meets is a script: the answers of
the reader in their order, short, empty or failed.
-/

namespace CopyPaste.Files.Bodies

open Lib.Checks Lib.Rows Lib.Shared Lib.Pieces Lib.Guarded Merge.Payload Merge.Storage Tables Reseal

def chunkBytes : Nat := 64 * 1024

inductive FileTransferError
  | read
  | invalidMetadata
  | tooLarge (size limit : Nat)
  | unavailable
  | integrity
  | notFound
  | storage
  | cancelled
  | busy
  | destinationExists
  | permissionDenied
  | missingDirectory
  | noSpace
  | write
  | sourceMissing
  | sourceChanged
  | sourceNotPaired
  | remote (reason : String)
  deriving DecidableEq, Repr

/-- One answer of a reader; an empty one is what it gives at its end. -/
inductive Reading
  | bytes (given : List UInt8)
  | failed
  deriving DecidableEq, Repr

abbrev Reader := List Reading

/-- One read into a buffer. What an answer has over its room stays with the reader. -/
def readOnce : Nat → Reader → Except FileTransferError (List UInt8 × Reader)
  | _, [] => .ok ([], [])
  | _, .failed :: _ => .error .read
  | room, .bytes given :: rest =>
    if given.length ≤ room then .ok (given, rest)
    else .ok (given.take room, .bytes (given.drop room) :: rest)

/-- Fill a buffer: read until it is full or an answer is empty. -/
def fill : Nat → Reader → Except FileTransferError (List UInt8 × Reader)
  | _, [] => .ok ([], [])
  | _, .failed :: _ => .error .read
  | room, .bytes given :: rest =>
    if given = [] then .ok ([], rest)
    else if room < given.length then .ok (given.take room, .bytes (given.drop room) :: rest)
    else if room = given.length then .ok (given, rest)
    else do
      let (more, rest) ← fill (room - given.length) rest
      return (given ++ more, rest)

/-- The ciphers of the item key, the JSON of an offer, and whether SQL finds an offer in
the metadata of a file. -/
structure Vault extends Cipher where
  decrypt : List UInt8 → List UInt8 → String → Option (List UInt8)
  openBinary : List UInt8 → String → Option (List UInt8)
  renderTransfer : FileTransfer → List UInt8
  extractsTransfer : String → Bool

abbrev BodyPool := Pool String String String Chunk

def chunkId (hash : String) (index : Nat) : String :=
  "copypaste/file-chunk/" ++ hash ++ "/" ++ toString index

variable (host : Host) (vault : Vault)

/-- Store one chunk, or compare it with the one that is there. -/
def storeChunk (blob : String) (reusable : Bool) (nonces : Nat → List UInt8) (bodies : BodyPool)
    (index : Nat) (chunk : List UInt8) : Except FileTransferError BodyPool :=
  match (bodies.partsOf blob).find? fun part => part.index = index with
  | some part =>
    if reusable then
      match vault.decrypt part.ciphertext part.nonce (chunkId blob index) with
      | none => .error .integrity
      | some stored => if stored = chunk then .ok bodies else .error .integrity
    else .error .storage
  | none =>
    if reusable then .error .storage
    else
      .ok { bodies with
        parts := bodies.parts ++ [(blob, ⟨index, nonces index,
          vault.encrypt (nonces index) (chunkId blob index) chunk⟩)] }

/-- The loop over the chunks; `seen` is what was hashed. The number of rounds is bounded
by what the reader has to give. -/
def writeChunks (blob : String) (size : Nat) (reusable : Bool) (nonces : Nat → List UInt8) :
    Nat → Reader → BodyPool → Nat → List UInt8 → Except FileTransferError (BodyPool × List UInt8)
  | 0, _, _, _, _ => .error .read
  | rounds + 1, reader, bodies, index, seen => do
    let (chunk, reader) ← fill chunkBytes reader
    if chunk = [] then return (bodies, seen)
    else if size < seen.length + chunk.length then throw .read
    else
      let bodies ← storeChunk vault blob reusable nonces bodies index chunk
      writeChunks blob size reusable nonces rounds reader bodies (index + 1) (seen ++ chunk)

def Reading.weight : Reading → Nat
  | .bytes given => given.length + 1
  | .failed => 1

def weight (reader : Reader) : Nat := (reader.map Reading.weight).sum

/-- Whether the chunks of a blob are taken for the body. -/
def reusable (bodies : BodyPool) (size : Nat) (sha256 : String) : Bool :=
  (bodies.partsOf sha256).length = count chunkBytes size

def writeBody (bodies : BodyPool) (reader : Reader) (size : Nat) (sha256 : String)
    (nonces : Nat → List UInt8) : Except FileTransferError BodyPool := do
  let (bodies, seen) ←
    writeChunks vault sha256 size (reusable bodies size sha256) nonces (weight reader + 1) reader
      bodies 0 []
  if seen.length ≠ size ∨ host.sha256 seen ≠ sha256 then throw .read
  else return bodies

structure NewItem where
  id : String
  ciphertext : List UInt8
  contentType : String
  contentHash : String
  createdAt : Int
  appBundleId : Option String
  appName : Option String
  payloadMetadata : Option String

def NewItem.row (item : NewItem) : ItemRow where
  id := item.id
  payload := some ([], item.ciphertext)
  contentType := item.contentType
  contentHash := item.contentHash
  pinned := false
  pinOrder := none
  pinUpdatedAt := 0
  createdAt := item.createdAt
  deleted := false
  originDeviceId := ""
  appBundleId := item.appBundleId
  appName := item.appName
  payloadMetadata := item.payloadMetadata
  sourceIconId := none

/-- Replace a row in its place; the unique index may refuse it. -/
def updateRow (store : Store) (row : ItemRow) : Except FileTransferError Store :=
  if store.items.any fun other => other.id ≠ row.id && collides row other then .error .storage
  else .ok { store with items := store.items.map fun old => if old.id = row.id then row else old }

def insertRow (store : Store) (row : ItemRow) : Except FileTransferError Store :=
  if store.items.any fun other => decide (other.id = row.id) || collides row other then
    .error .storage
  else .ok { store with items := store.items ++ [row] }

def liveRow (store : Store) (id : String) : Option ItemRow :=
  (lookup ItemRow.id store.items id).filter fun row => !row.deleted

/-- The metadata a file copied once more is kept with. -/
def recapturedMetadata (item : NewItem) (previous : Option String) : Option String :=
  match item.payloadMetadata.bind fun json => PayloadMetadata.fromJson host json fileType,
    previous.bind fun json => PayloadMetadata.fromJson host json fileType with
  | some next, some previous => (next.mergePrivacy previous).toJson host fileType
  | _, _ => item.payloadMetadata

def recapturedRow (item : NewItem) (row : ItemRow) : ItemRow :=
  { row with
    createdAt := max (row.createdAt + 1) item.createdAt
    appBundleId := item.appBundleId
    appName := item.appName
    payloadMetadata := recapturedMetadata host item row.payloadMetadata }

/-- A file that is in the history rises in it. -/
def recapture (disk : Disk) (item : NewItem) (row : ItemRow) : Except FileTransferError Disk := do
  let store ← updateRow disk.store (recapturedRow host item row)
  return disk.settle store

/-- The body of an item that was just written. -/
def attachBody (disk : Disk) (id : String) (reader : Reader) (size : Nat) (sha256 : String)
    (nonces : Nat → List UInt8) : Except FileTransferError Disk := do
  let bodies ← writeBody host vault disk.files.bodies reader size sha256 nonces
  if (lookup ItemRow.id disk.store.items id).isNone ∨ bodies.owners.any fun owner => owner.1 = id then
    throw .storage
  else
    return { disk with files := { disk.files with
      bodies := { bodies with owners := bodies.owners ++ [(id, sha256)] } } }

/-- `insert_file_transfer` of a new file; an error rolls the transaction back. -/
def insertFileTransfer (disk : Disk) (item : NewItem) (reader : Reader) (size : Nat)
    (sha256 : String) (nonces : Nat → List UInt8) (explicit : Bool) :
    Except FileTransferError Disk :=
  match (liveRow disk.store item.id).filter fun _ => !explicit with
  | some row => recapture host disk item row
  | none => do
    -- Recapturing a previously deleted offer is a new live row.
    let disk := if explicit then disk else
      disk.settle { disk.store with
        items := disk.store.items.filter fun row => ¬ (row.id = item.id ∧ row.deleted) }
    let store ← insertRow disk.store item.row
    attachBody host vault (disk.settle store) item.id reader size sha256 nonces

def replacedRow (item : NewItem) (row : ItemRow) : ItemRow :=
  { row with
    payload := some ([], item.ciphertext)
    contentHash := item.contentHash
    createdAt := item.createdAt
    payloadMetadata := item.payloadMetadata }

/-- `insert_file_transfer` in the place of a row that held its file inline. -/
def replaceFileTransfer (disk : Disk) (item : NewItem) (reader : Reader) (size : Nat)
    (sha256 : String) (nonces : Nat → List UInt8) : Except FileTransferError Disk := do
  let store ←
    match liveRow disk.store item.id with
    | none => .ok disk.store
    | some row => updateRow disk.store (replacedRow item row)
  attachBody host vault (disk.settle store) item.id reader size sha256 nonces

/-- The rounds of `digest`: the bytes hashed. -/
def digestFrom (limit : Nat) : Nat → Reader → List UInt8 → Except FileTransferError (List UInt8)
  | 0, _, _ => .error .read
  | rounds + 1, reader, seen => do
    let (given, reader) ← readOnce chunkBytes reader
    if given = [] then return seen
    else if limit < seen.length + given.length then
      throw (.tooLarge (seen.length + given.length) limit)
    else digestFrom limit rounds reader (seen ++ given)

/-- What an import is given: the file as its two readings meet it, and what is drawn. -/
structure Import where
  length : Nat
  limit : Nat
  first : Reader
  second : Reader
  metadata : FileMetadata
  context : PayloadMetadata
  createdAt : Int
  appBundleId : Option String
  appName : Option String
  explicit : Bool
  uuid : String
  streamNonce : StreamNonce
  nonces : Nat → List UInt8

def offerItem (file : Import) (transfer : FileTransfer) : Except FileTransferError NewItem :=
  let context := { file.context with file := some { file.metadata with transfer := some transfer } }
  match context.toJson host fileType with
  | none => .error .invalidMetadata
  | some payloadMetadata =>
    let descriptor := vault.renderTransfer transfer
    let contentHash := host.sha256 descriptor
    let id :=
      if file.explicit then importIdHead ++ file.uuid
      else "file-offer-" ++ String.ofList (contentHash.toList.take 32)
    .ok {
      id
      ciphertext := sealWithDigest vault.toCipher file.streamNonce descriptor id
      contentType := fileType
      contentHash
      createdAt := file.createdAt
      appBundleId := file.appBundleId
      appName := file.appName
      payloadMetadata := some payloadMetadata }

/-- The offer an import announces, from the first reading. -/
def Import.offer (file : Import) : Except FileTransferError FileTransfer := do
  if file.limit < file.length then throw (.tooLarge file.length file.limit)
  else
    let seen ← digestFrom file.limit (weight file.first + 1) file.first []
    return ⟨seen.length, host.sha256 seen, none⟩

def importFile (disk : Disk) (file : Import) : Except FileTransferError Disk := do
  let transfer ← file.offer host
  let item ← offerItem host vault file transfer
  insertFileTransfer host vault disk item file.second transfer.sizeBytes transfer.sha256 file.nonces
    file.explicit

/-- `ClipboardPayload::open` of a file's row, and the offer in it. -/
def rowOffer (row : ItemRow) : Except FileTransferError (Option FileTransfer) :=
  if row.contentType ≠ fileType then .ok none
  else
  match row.payload.bind fun payload => vault.openBinary payload.2 row.id with
  | none => .error .integrity
  | some bytes =>
    match ((row.payloadMetadata.bind fun json =>
        PayloadMetadata.fromJson host json row.contentType).bind PayloadMetadata.file).bind
          FileMetadata.transfer with
    | none => .ok none
    | some transfer =>
      if host.parseTransfer bytes = some transfer ∧ transfer.isValid then .ok (some transfer)
      else .error .integrity

def offerOf (disk : Disk) (id : String) : Except FileTransferError FileTransfer :=
  match liveRow disk.store id with
  | none => .error .notFound
  | some row =>
    match rowOffer host vault row with
    | .error e => .error e
    | .ok none => .error .unavailable
    | .ok (some offer) => .ok offer

def hasFileTransfer (disk : Disk) (id : String) : Bool :=
  (liveRow disk.store id).isSome && disk.files.bodies.owners.any fun owner => owner.1 = id

/-- The chunk of a blob that an item has as its file. -/
def fileTransferChunk (disk : Disk) (id hash : String) (index : Nat) : Option Chunk :=
  if (id, hash) ∈ disk.files.bodies.owners then
    (disk.files.bodies.partsOf hash).find? fun part => part.index = index
  else none

def readChunk (disk : Disk) (id hash : String) (index : Nat) :
    Except FileTransferError (List UInt8) := do
  let offer ← offerOf host vault disk id
  if offer.sha256 ≠ hash ∨ (offer.sizeBytes = 0 ∧ index ≠ 0) ∨
      (0 < offer.sizeBytes ∧ offer.sizeBytes ≤ index * chunkBytes) then throw .integrity
  else if offer.sizeBytes = 0 ∧ hasFileTransfer disk id then return []
  else
    match fileTransferChunk disk id hash index with
    | none => throw .unavailable
    | some chunk =>
      match vault.decrypt chunk.ciphertext chunk.nonce (chunkId hash index) with
      | none => throw .integrity
      | some bytes =>
        if bytes.length ≠ min (offer.sizeBytes - index * chunkBytes) chunkBytes then throw .integrity
        else return bytes

def readChunks (disk : Disk) (id hash : String) (index : Nat) :
    Nat → Except FileTransferError (List UInt8)
  | 0 => .ok []
  | left + 1 => do
    let bytes ← readChunk host vault disk id hash index
    let rest ← readChunks disk id hash (index + 1) left
    return bytes ++ rest

/-- `save_local` that nobody cancels, to a place that takes it: the bytes it saves. -/
def saveLocal (disk : Disk) (id : String) (limit : Nat) : Except FileTransferError (List UInt8) := do
  let offer ← offerOf host vault disk id
  if limit < offer.sizeBytes then throw (.tooLarge offer.sizeBytes limit)
  else
    let bytes ← readChunks host vault disk id offer.sha256 0 (count chunkBytes offer.sizeBytes)
    if host.sha256 bytes ≠ offer.sha256 then throw .integrity
    else return bytes

/-- The row of a file that is still stored inline, opened. -/
def legacyFile (disk : Disk) (id : String) : Option (ItemRow × List UInt8 × FileMetadata) := do
  let row ← liveRow disk.store id
  if row.contentType ≠ fileType ∨ row.payloadMetadata.any vault.extractsTransfer then none
  else
    let payload ← row.payload
    let bytes ← vault.openBinary payload.2 row.id
    let metadata ← row.payloadMetadata.bind fun json =>
      PayloadMetadata.fromJson host json row.contentType
    let file ← metadata.file
    -- A row that carries an offer opens only when its payload is the offer.
    if file.transfer.all fun transfer =>
        host.parseTransfer bytes = some transfer ∧ transfer.isValid then
      return (row, bytes, file)
    else none

def upgradedMetadata (row : ItemRow) (bytes : List UInt8) (file : FileMetadata) : PayloadMetadata :=
  { ((row.payloadMetadata.bind fun json =>
      PayloadMetadata.fromJson host json row.contentType).getD {}) with
    file := some { file with transfer := some ⟨bytes.length, host.sha256 bytes, none⟩ } }

def upgradedItem (row : ItemRow) (bytes : List UInt8) (file : FileMetadata) (now : Int)
    (streamNonce : StreamNonce) : NewItem :=
  let descriptor := vault.renderTransfer ⟨bytes.length, host.sha256 bytes, none⟩
  { id := row.id
    ciphertext := sealWithDigest vault.toCipher streamNonce descriptor row.id
    contentType := row.contentType
    contentHash := host.sha256 descriptor
    createdAt := max now (saturatingSucc row.createdAt)
    appBundleId := row.appBundleId
    appName := row.appName
    payloadMetadata := (upgradedMetadata host row bytes file).toJson host fileType }

/-- One row of `upgrade_legacy`; a row that does not open is left alone. -/
def upgradeLegacy (disk : Disk) (id : String) (now : Int) (streamNonce : StreamNonce)
    (nonces : Nat → List UInt8) : Except FileTransferError Disk :=
  match legacyFile host vault disk id with
  | none => .ok disk
  | some (row, bytes, file) =>
    replaceFileTransfer host vault disk (upgradedItem host vault row bytes file now streamNonce)
      [.bytes bytes] bytes.length (host.sha256 bytes) nonces

/-- What `delete` and `delete_all_through` leave of a live row. -/
def tombstone (now : Int) (row : ItemRow) : ItemRow :=
  { row with
    payload := none
    deleted := true
    createdAt := if row.createdAt = 2 ^ 63 - 1 then row.createdAt else max (row.createdAt + 1) now
    pinned := false
    pinOrder := none
    appBundleId := none
    appName := none
    payloadMetadata := none
    sourceIconId := none }

def deleteRows (disk : Disk) (ids : List String) (now : Int) : Disk :=
  disk.settle { disk.store with
    items := disk.store.items.map fun row =>
      if row.id ∈ ids ∧ row.deleted = false then tombstone now row else row }

def evictRows (disk : Disk) (ids : List String) : Disk :=
  disk.settle { disk.store with items := disk.store.items.filter fun row => row.id ∉ ids }

def clearFileStages (disk : Disk) : Disk :=
  { disk with files := { disk.files with bodies := disk.files.bodies.dropLeases } }

inductive Op
  | importFile (file : Import)
  | upgradeLegacy (id : String) (now : Int) (streamNonce : StreamNonce)
      (nonces : Nat → List UInt8)
  | delete (ids : List String) (now : Int)
  | evict (ids : List String)
  | clearFileStages

/-- The database after an operation, unless it failed. -/
def Op.run (disk : Disk) : Op → Except FileTransferError Disk
  | .importFile file => Bodies.importFile host vault disk file
  | .upgradeLegacy id now streamNonce nonces =>
    Bodies.upgradeLegacy host vault disk id now streamNonce nonces
  | .delete ids now => .ok (deleteRows disk ids now)
  | .evict ids => .ok (evictRows disk ids)
  | .clearFileStages => .ok (Bodies.clearFileStages disk)

/-- The chunks the loop meets, up to the first empty one. -/
def chunksFrom : Nat → Reader → List (List UInt8)
  | 0, _ => []
  | rounds + 1, reader =>
    match fill chunkBytes reader with
    | .error _ => []
    | .ok (chunk, rest) => if chunk = [] then [] else chunk :: chunksFrom rounds rest

def chunksOf (reader : Reader) : List (List UInt8) := chunksFrom (weight reader + 1) reader

def delivered (reader : Reader) : List UInt8 := (chunksOf reader).flatten

/-- No empty answer falls inside a chunk before the reader's end. -/
def Whole (reader : Reader) : Prop := ∀ chunk ∈ (chunksOf reader).dropLast, chunk.length = chunkBytes

instance (reader : Reader) : Decidable (Whole reader) :=
  inferInstanceAs (Decidable (∀ chunk ∈ (chunksOf reader).dropLast, chunk.length = chunkBytes))

variable {reader : Reader} {rounds size index : Nat} {blob : String} {nonces : Nat → List UInt8}
  {bodies : BodyPool}

theorem fill_spec {room : Nat} {rest : Reader} {chunk : List UInt8} (hroom : 0 < room)
    (h : fill room reader = .ok (chunk, rest)) :
    chunk.length ≤ room ∧ weight rest ≤ weight reader ∧
      (chunk ≠ [] → weight rest < weight reader) := by
  induction reader generalizing room chunk rest with
  | nil =>
    obtain ⟨rfl, rfl⟩ := Prod.mk.inj (Except.ok.inj h)
    simp
  | cons reading more ih =>
    cases reading with
    | failed => cases h
    | bytes given =>
      unfold fill at h
      have hweight : weight (.bytes given :: more) = given.length + 1 + weight more := rfl
      split at h
      · obtain ⟨rfl, rfl⟩ := Prod.mk.inj (Except.ok.inj h)
        refine ⟨by simp, by omega, by simp⟩
      · rename_i hgiven
        have hpos := List.length_pos_iff.2 hgiven
        split at h
        · obtain ⟨rfl, rfl⟩ := Prod.mk.inj (Except.ok.inj h)
          have hrest : weight (.bytes (given.drop room) :: more) =
              given.length - room + 1 + weight more := by
            simp [weight, Reading.weight]
          refine ⟨by simp, by omega, by omega⟩
        · split at h
          · obtain ⟨rfl, rfl⟩ := Prod.mk.inj (Except.ok.inj h)
            refine ⟨by omega, by omega, by omega⟩
          · obtain ⟨answer, hmore, h⟩ := bind_ok_iff.1 h
            obtain ⟨rfl, rfl⟩ := Prod.mk.inj (Except.ok.inj h)
            obtain ⟨hlength, hle, -⟩ := ih (by omega) hmore
            rw [List.length_append]
            refine ⟨by omega, by omega, by omega⟩

/-- The bound on the rounds is never met. -/
theorem chunksFrom_rounds {rounds' : Nat} (h : weight reader < rounds)
    (h' : weight reader < rounds') : chunksFrom rounds reader = chunksFrom rounds' reader := by
  induction rounds generalizing rounds' reader with
  | zero => omega
  | succ rounds ih =>
    cases rounds' with
    | zero => omega
    | succ rounds' =>
      simp only [chunksFrom]
      cases hfill : fill chunkBytes reader with
      | error e => rfl
      | ok answer =>
        obtain ⟨chunk, rest⟩ := answer
        simp only
        split
        · rfl
        · rename_i hchunk
          have hlt := (fill_spec (by decide) hfill).2.2 hchunk
          exact congrArg (chunk :: ·) (ih (by omega) (by omega))

theorem chunksFrom_spec (rounds : Nat) (reader : Reader) :
    ∀ chunk ∈ chunksFrom rounds reader, chunk ≠ [] ∧ chunk.length ≤ chunkBytes := by
  induction rounds generalizing reader with
  | zero => simp [chunksFrom]
  | succ rounds ih =>
    simp only [chunksFrom]
    split
    · simp
    · rename_i chunk rest hfill
      split
      · simp
      · rename_i hchunk
        rw [List.forall_mem_cons]
        exact ⟨⟨hchunk, (fill_spec (by decide) hfill).1⟩, ih rest⟩

/-- A reader whose answers are never empty before its end fills every chunk but the last. -/
theorem fill_short {room : Nat} {rest : Reader} {chunk : List UInt8}
    (hreader : ∀ reading ∈ reader, reading ≠ .bytes []) (h : fill room reader = .ok (chunk, rest)) :
    (chunk.length = room ∨ rest = []) ∧ ∀ reading ∈ rest, reading ≠ .bytes [] := by
  induction reader generalizing room chunk rest with
  | nil =>
    obtain ⟨rfl, rfl⟩ := Prod.mk.inj (Except.ok.inj h)
    simp
  | cons reading more ih =>
    obtain ⟨hfirst, hmore⟩ := List.forall_mem_cons.1 hreader
    cases reading with
    | failed => cases h
    | bytes given =>
      have hgiven : given ≠ [] := fun heq => hfirst (by rw [heq])
      unfold fill at h
      rw [if_neg hgiven] at h
      split at h
      · rename_i hlt
        obtain ⟨rfl, rfl⟩ := Prod.mk.inj (Except.ok.inj h)
        refine ⟨Or.inl (by rw [List.length_take]; omega), ?_⟩
        rw [List.forall_mem_cons]
        refine ⟨fun heq => ?_, hmore⟩
        have hnil := Reading.bytes.inj heq
        rw [List.drop_eq_nil_iff] at hnil
        omega
      · split at h
        · rename_i hroom
          obtain ⟨rfl, rfl⟩ := Prod.mk.inj (Except.ok.inj h)
          exact ⟨Or.inl hroom.symm, hmore⟩
        · obtain ⟨answer, hrest, h⟩ := bind_ok_iff.1 h
          obtain ⟨rfl, rfl⟩ := Prod.mk.inj (Except.ok.inj h)
          obtain ⟨hlength, hothers⟩ := ih hmore hrest
          refine ⟨hlength.imp_left fun heq => ?_, hothers⟩
          rw [List.length_append]
          omega

theorem whole_of_answers (hreader : ∀ reading ∈ reader, reading ≠ .bytes []) : Whole reader := by
  have hchunks : ∀ rounds (reader : Reader), (∀ reading ∈ reader, reading ≠ .bytes []) →
      ∀ chunk ∈ (chunksFrom rounds reader).dropLast, chunk.length = chunkBytes := by
    intro rounds
    induction rounds with
    | zero => simp [chunksFrom]
    | succ rounds ih =>
      intro reader hreader chunk hchunk
      simp only [chunksFrom] at hchunk
      split at hchunk
      · simp at hchunk
      · rename_i first rest hfill
        obtain ⟨hshort, hrest⟩ := fill_short hreader hfill
        split at hchunk
        · simp at hchunk
        · rcases hshort with hfull | hend
          · cases hlater : chunksFrom rounds rest with
            | nil => simp [hlater] at hchunk
            | cons next later =>
              rw [hlater, List.dropLast_cons_of_ne_nil (by simp), List.mem_cons] at hchunk
              rcases hchunk with rfl | hchunk
              · exact hfull
              · exact ih rest hrest chunk (by rw [hlater]; exact hchunk)
          · subst hend
            have hnone : chunksFrom rounds [] = [] := by
              cases rounds <;> simp [chunksFrom, fill]
            simp [hnone] at hchunk
  exact hchunks _ reader hreader

/-- A buffer that is read from memory is delivered whole. -/
theorem delivered_bytes (bytes : List UInt8) : delivered [.bytes bytes] = bytes := by
  unfold delivered chunksOf
  induction hn : bytes.length using Nat.strongRecOn generalizing bytes with
  | ind n ih =>
    by_cases hempty : bytes = []
    · subst hempty
      simp [chunksFrom, fill]
    · have hpos := List.length_pos_iff.2 hempty
      have hwidth : 0 < chunkBytes := by decide
      rw [chunksFrom]
      unfold fill
      rw [if_neg hempty]
      split
      · rename_i hfill
        split at hfill
        · cases hfill
        · split at hfill <;> cases hfill
      · rename_i chunk rest hfill
        split at hfill
        · rename_i hlong
          obtain ⟨rfl, rfl⟩ := Prod.mk.inj (Except.ok.inj hfill)
          have hdrop := ih (bytes.drop chunkBytes).length (by rw [List.length_drop]; omega) _ rfl
          have hchunk : bytes.take chunkBytes ≠ [] := by
            intro hnil
            rw [List.take_eq_nil_iff] at hnil
            rcases hnil with hzero | hnil
            · omega
            · exact hempty hnil
          rw [if_neg hchunk, List.flatten_cons]
          have hrounds : chunksFrom (weight [.bytes bytes]) [.bytes (bytes.drop chunkBytes)] =
              chunksFrom (weight [.bytes (bytes.drop chunkBytes)] + 1)
                [.bytes (bytes.drop chunkBytes)] := by
            apply chunksFrom_rounds
            · simp [weight, Reading.weight]
              omega
            · omega
          rw [hrounds, hdrop, List.take_append_drop]
        · split at hfill
          all_goals
            obtain ⟨rfl, rfl⟩ := Prod.mk.inj (Except.ok.inj hfill)
            have hnone : chunksFrom (weight [.bytes bytes]) [] = [] := by
              cases weight [.bytes bytes] <;> simp [chunksFrom, fill]
            simp [hempty, hnone]

/-- The chunks as they are stored, from one index on. -/
def sealedFrom (blob : String) (nonces : Nat → List UInt8) : Nat → List (List UInt8) → List Chunk
  | _, [] => []
  | index, chunk :: rest =>
    ⟨index, nonces index, vault.encrypt (nonces index) (chunkId blob index) chunk⟩ ::
      sealedFrom blob nonces (index + 1) rest

theorem index_sealedFrom (blob : String) (nonces : Nat → List UInt8) (index : Nat)
    (chunks : List (List UInt8)) :
    (sealedFrom vault blob nonces index chunks).map Chunk.index =
      List.range' index chunks.length := by
  induction chunks generalizing index with
  | nil => rfl
  | cons chunk rest ih => simp [sealedFrom, ih, List.range'_succ]

def Holds (blob : String) (bodies : BodyPool) (index : Nat) (chunk : List UInt8) : Prop :=
  ∃ part, (bodies.partsOf blob).find? (fun part => part.index = index) = some part ∧
    vault.decrypt part.ciphertext part.nonce (chunkId blob index) = some chunk

theorem partsOf_append (bodies : BodyPool) (blob : String) (added : List Chunk) :
    Pool.partsOf { bodies with parts := bodies.parts ++ added.map (Prod.mk blob) } blob =
      bodies.partsOf blob ++ added := by
  have hfilter : (added.map (Prod.mk blob)).filter (fun part => part.1 = blob) =
      added.map (Prod.mk blob) := by
    rw [List.filter_eq_self]
    intro part hpart
    obtain ⟨chunk, -, rfl⟩ := List.mem_map.1 hpart
    simp
  unfold Pool.partsOf
  rw [List.filter_append, hfilter, List.map_append, List.map_map]
  congr 1
  exact List.map_id added

/-- The loop leaves chunks that hold what it met: those that were there, or new ones
behind indices that were free. -/
theorem writeChunks_spec {reusable : Bool} {bodies' : BodyPool} {seen seen' : List UInt8}
    (h : writeChunks vault blob size reusable nonces rounds reader bodies index seen =
      .ok (bodies', seen')) :
    seen' = seen ++ (chunksFrom rounds reader).flatten ∧
      (reusable = true → bodies' = bodies ∧
        ∀ offset chunk, (chunksFrom rounds reader)[offset]? = some chunk →
          Holds vault blob bodies (index + offset) chunk) ∧
      (reusable = false →
        bodies' = { bodies with
          parts := bodies.parts ++
            (sealedFrom vault blob nonces index (chunksFrom rounds reader)).map (Prod.mk blob) } ∧
        (chunksFrom rounds reader ≠ [] → ∀ part ∈ bodies.partsOf blob, part.index ≠ index)) := by
  induction rounds generalizing reader bodies index seen with
  | zero => cases h
  | succ rounds ih =>
    unfold writeChunks at h
    simp only [chunksFrom]
    obtain ⟨⟨chunk, rest⟩, hfill, h⟩ := bind_ok_iff.1 h
    simp only [hfill, bind, Except.bind] at h ⊢
    split at h
    · rename_i hchunk
      obtain ⟨rfl, rfl⟩ := Prod.mk.inj (Except.ok.inj h)
      simp [hchunk, sealedFrom]
    · rename_i hchunk
      rw [if_neg hchunk]
      split at h
      · cases h
      · split at h
        · cases h
        · rename_i middle hstore
          obtain ⟨hseen, hreused, hnew⟩ := ih h
          refine ⟨by rw [hseen]; simp, ?_, ?_⟩
          · intro hreusable
            obtain ⟨hsame, hholds⟩ := hreused hreusable
            have hfirst : middle = bodies ∧ Holds vault blob bodies index chunk := by
              unfold storeChunk at hstore
              simp only [hreusable, if_true] at hstore
              split at hstore
              · rename_i part hpart
                split at hstore
                · cases hstore
                · rename_i stored hdecrypt
                  split at hstore
                  · rename_i hequal
                    exact ⟨(Except.ok.inj hstore).symm, part, hpart, hequal ▸ hdecrypt⟩
                  · cases hstore
              · cases hstore
            rw [hfirst.1] at hsame hholds
            refine ⟨hsame, ?_⟩
            intro offset other hother
            cases offset with
            | zero =>
              obtain rfl : chunk = other := by simpa using hother
              exact hfirst.2
            | succ offset =>
              have hnext := hholds offset other (by simpa using hother)
              rw [Nat.add_assoc, Nat.add_comm 1 offset] at hnext
              exact hnext
          · intro hreusable
            obtain ⟨hbodies, -⟩ := hnew hreusable
            have hfirst : middle = { bodies with
                parts := bodies.parts ++ [(blob, ⟨index, nonces index,
                  vault.encrypt (nonces index) (chunkId blob index) chunk⟩)] } ∧
                ∀ part ∈ bodies.partsOf blob, part.index ≠ index := by
              unfold storeChunk at hstore
              simp only [hreusable, Bool.false_eq_true, if_false] at hstore
              split at hstore
              · cases hstore
              · rename_i hnone
                refine ⟨(Except.ok.inj hstore).symm, ?_⟩
                intro part hpart
                simpa using List.find?_eq_none.1 hnone part hpart
            refine ⟨?_, fun _ => hfirst.2⟩
            rw [hbodies, hfirst.1]
            simp [sealedFrom]

/-- What the ciphers, the JSON and the digest are relied on for. An envelope is opened up to
a bound, which an offer is far below. -/
structure Laws : Prop where
  decrypts : ∀ nonce id bytes, vault.decrypt (vault.encrypt nonce id bytes) nonce id = some bytes
  opens : ∀ nonce transfer id, transfer.isValid = true →
    vault.openBinary (sealWithDigest vault.toCipher nonce (vault.renderTransfer transfer) id) id =
      some (vault.renderTransfer transfer)
  offers : ∀ transfer, transfer.isValid = true → transfer.sourceVersion = none →
    host.parseTransfer (vault.renderTransfer transfer) = some transfer
  reads : ∀ (m : PayloadMetadata) (text : String), m.toJson host fileType = some text →
    PayloadMetadata.fromJson host text fileType = some m
  empty : ∀ bytes, host.sha256 bytes = host.sha256 [] → bytes = []

/-- The chunks of a blob are numbered through and hold the pieces of the bytes. -/
def Stored (bodies : BodyPool) (blob : String) (bytes : List UInt8) : Prop :=
  (bodies.partsOf blob).map Chunk.index = List.range (count chunkBytes bytes.length) ∧
    ∀ part ∈ bodies.partsOf blob,
      vault.decrypt part.ciphertext part.nonce (chunkId blob part.index) =
        some (piece chunkBytes bytes part.index)

theorem mem_sealedFrom {chunks : List (List UInt8)} {part : Chunk}
    (h : part ∈ sealedFrom vault blob nonces index chunks) :
    ∃ offset chunk, chunks[offset]? = some chunk ∧ part = ⟨index + offset, nonces (index + offset),
      vault.encrypt (nonces (index + offset)) (chunkId blob (index + offset)) chunk⟩ := by
  induction chunks generalizing index with
  | nil => cases h
  | cons first rest ih =>
    rcases List.mem_cons.1 h with rfl | hrest
    · exact ⟨0, first, rfl, rfl⟩
    · obtain ⟨offset, chunk, hchunk, rfl⟩ := ih hrest
      refine ⟨offset + 1, chunk, by simpa using hchunk, ?_⟩
      rw [Nat.add_assoc, Nat.add_comm 1 offset]

theorem chunksOf_whole (h : Whole reader) :
    chunksOf reader = pieces chunkBytes (delivered reader) := by
  have hspec := chunksFrom_spec (weight reader + 1) reader
  exact eq_pieces (by decide) _ (fun chunk hchunk => (hspec chunk hchunk).1)
    (fun chunk hchunk => (hspec chunk hchunk).2) h

variable {host vault}

/-- A body that was accepted is stored: its chunks were there, or are new. -/
theorem writeBody_stored (hdecrypts : ∀ nonce id bytes,
      vault.decrypt (vault.encrypt nonce id bytes) nonce id = some bytes) {bodies' : BodyPool}
    {sha256 : String} (hwhole : Whole reader)
    (hnumbered : ∃ k, (bodies.partsOf sha256).map Chunk.index = List.range k)
    (hnothing : bodies.partsOf (host.sha256 []) = [])
    (h : writeBody host vault bodies reader size sha256 nonces = .ok bodies') :
    ∃ added : List Chunk,
      bodies' = { bodies with parts := bodies.parts ++ added.map (Prod.mk sha256) } ∧
      (added = [] ∨ bodies.partsOf sha256 = []) ∧
      Stored vault bodies' sha256 (delivered reader) ∧
      host.sha256 (delivered reader) = sha256 ∧ (delivered reader).length = size := by
  unfold writeBody at h
  obtain ⟨⟨written, seen⟩, hwrite, h⟩ := bind_ok_iff.1 h
  dsimp only at h
  split at h
  · cases h
  · rename_i hseen
    rw [not_or, not_not, not_not] at hseen
    obtain rfl := Except.ok.inj h
    obtain ⟨hdelivered, hreused, hnew⟩ := writeChunks_spec vault hwrite
    have hbytes : seen = delivered reader := by
      rw [List.nil_append] at hdelivered
      exact hdelivered
    rw [hbytes] at hseen
    obtain ⟨hsize, hsha⟩ := hseen
    have hchunks : chunksFrom (weight reader + 1) reader =
        pieces chunkBytes (delivered reader) := chunksOf_whole hwhole
    rw [hchunks] at hreused hnew
    obtain ⟨k, hk⟩ := hnumbered
    by_cases hreusable : (bodies.partsOf sha256).length = count chunkBytes size
    · obtain ⟨rfl, hholds⟩ := hreused (by simpa [reusable] using hreusable)
      refine ⟨[], by simp, Or.inl rfl, ⟨?_, ?_⟩, hsha, hsize⟩
      · have hlength := congrArg List.length hk
        rw [List.length_map, List.length_range] at hlength
        rw [hk, ← hlength, hreusable, hsize]
      · intro part hpart
        have hindex : part.index < count chunkBytes (delivered reader).length := by
          have hmem := List.mem_map_of_mem (f := Chunk.index) hpart
          have hlength := congrArg List.length hk
          rw [List.length_map, List.length_range] at hlength
          rw [hk, List.mem_range] at hmem
          rw [hsize]
          omega
        obtain ⟨other, hother, hdecrypt⟩ :=
          hholds part.index _ (getElem?_pieces (delivered reader) hindex)
        rw [Nat.zero_add] at hother hdecrypt
        have hnodup : ((written.partsOf sha256).map Chunk.index).Nodup := by
          rw [hk]
          exact List.nodup_range
        have hsame : other = part := by
          refine List.inj_on_of_nodup_map hnodup (List.mem_of_find?_eq_some hother) hpart ?_
          simpa using List.find?_some hother
        rw [← hsame] at hdecrypt ⊢
        exact hdecrypt
    · obtain ⟨rfl, hfree⟩ := hnew (by simpa [reusable] using hreusable)
      have hparts : bodies.partsOf sha256 = [] := by
        by_cases hempty : delivered reader = []
        · rw [← hsha, hempty]
          exact hnothing
        · have hpieces : pieces chunkBytes (delivered reader) ≠ [] := by
            rw [pieces_eq_cons (by decide) hempty]
            simp
          cases k with
          | zero => simpa using hk
          | succ k =>
            have hzero : 0 ∈ (bodies.partsOf sha256).map Chunk.index := by
              rw [hk]
              simp
            obtain ⟨part, hpart, hindex⟩ := List.mem_map.1 hzero
            exact absurd hindex (hfree hpieces part hpart)
      refine ⟨_, rfl, Or.inr hparts, ⟨?_, ?_⟩, hsha, hsize⟩
      · rw [partsOf_append, hparts, List.nil_append, index_sealedFrom, length_pieces,
          List.range_eq_range']
      · intro part hpart
        rw [partsOf_append, hparts, List.nil_append] at hpart
        obtain ⟨offset, chunk, hchunk, rfl⟩ := mem_sealedFrom vault hpart
        have hoffset : offset < count chunkBytes (delivered reader).length := by
          rw [← length_pieces]
          exact (List.getElem?_eq_some_iff.1 hchunk).1
        rw [getElem?_pieces _ hoffset] at hchunk
        rw [hdecrypts, Nat.zero_add, hchunk]

/-- A body that is written brings its blob chunks, and nothing else. -/
theorem writeBody_appends {bodies' : BodyPool} {sha256 : String}
    (h : writeBody host vault bodies reader size sha256 nonces = .ok bodies') :
    ∃ added : List Chunk,
      bodies' = { bodies with parts := bodies.parts ++ added.map (Prod.mk sha256) } := by
  obtain ⟨⟨written, seen⟩, hwrite, h⟩ := bind_ok_iff.1 h
  dsimp only at h
  split at h
  · cases h
  · obtain rfl := Except.ok.inj h
    obtain ⟨-, hreused, hnew⟩ := writeChunks_spec vault hwrite
    cases hreusable : reusable bodies size sha256 with
    | true => exact ⟨[], by rw [(hreused hreusable).1]; simp⟩
    | false => exact ⟨_, (hnew hreusable).1⟩

/-- A body goes to an item that has none. -/
theorem attachBody_ok {disk disk' : Disk} {id sha256 : String}
    (h : attachBody host vault disk id reader size sha256 nonces = .ok disk') :
    ∃ bodies, writeBody host vault disk.files.bodies reader size sha256 nonces = .ok bodies ∧
      (∀ blob, (id, blob) ∉ disk.files.bodies.owners) ∧
      disk' = { disk with files := { disk.files with
        bodies := { bodies with owners := bodies.owners ++ [(id, sha256)] } } } := by
  obtain ⟨bodies, hwrite, h⟩ := bind_ok_iff.1 h
  split at h
  · cases h
  · next hfree =>
    refine ⟨bodies, hwrite, fun blob hmem => hfree (Or.inr ?_), (Except.ok.inj h).symm⟩
    obtain ⟨added, rfl⟩ := writeBody_appends hwrite
    rw [List.any_eq_true]
    exact ⟨_, hmem, by simp⟩

/-- A reader that never fails. -/
def Reads (reader : Reader) : Prop := ∀ reading ∈ reader, reading ≠ .failed

theorem fill_ok (h : Reads reader) (room : Nat) :
    ∃ chunk rest, fill room reader = .ok (chunk, rest) ∧ Reads rest := by
  induction reader generalizing room with
  | nil => exact ⟨[], [], rfl, h⟩
  | cons reading more ih =>
    have hmore : Reads more := fun other hother => h other (List.mem_cons_of_mem _ hother)
    cases reading with
    | failed => exact absurd rfl (h .failed List.mem_cons_self)
    | bytes given =>
      unfold fill
      split
      · exact ⟨_, _, rfl, hmore⟩
      · split
        · refine ⟨_, _, rfl, ?_⟩
          intro other hother
          rcases List.mem_cons.1 hother with rfl | hrest
          · simp
          · exact hmore other hrest
        · split
          · exact ⟨_, _, rfl, hmore⟩
          · obtain ⟨chunk, rest, hfill, hrest⟩ := ih hmore (room - given.length)
            exact ⟨_, rest, by rw [hfill]; rfl, hrest⟩

/-- The loop goes through when each chunk it meets is there already, or none of the
chunks from here on is. -/
theorem writeChunks_ok {reusable : Bool} {seen : List UInt8} (hrounds : weight reader < rounds)
    (hreads : Reads reader) (hsize : seen.length + (chunksFrom rounds reader).flatten.length ≤ size)
    (hheld : reusable = true → ∀ offset chunk, (chunksFrom rounds reader)[offset]? = some chunk →
      Holds vault blob bodies (index + offset) chunk)
    (hfree : reusable = false → ∀ part ∈ bodies.partsOf blob, part.index < index) :
    ∃ answer, writeChunks vault blob size reusable nonces rounds reader bodies index seen =
      .ok answer := by
  induction rounds generalizing reader bodies index seen with
  | zero => omega
  | succ rounds ih =>
    obtain ⟨chunk, rest, hfill, hrest⟩ := fill_ok hreads chunkBytes
    unfold writeChunks
    simp only [chunksFrom, hfill] at hsize hheld
    simp only [hfill, bind, Except.bind]
    by_cases hempty : chunk = []
    · rw [if_pos hempty]
      exact ⟨_, rfl⟩
    · rw [if_neg hempty] at hsize hheld ⊢
      rw [List.flatten_cons, List.length_append] at hsize
      rw [if_neg (by omega)]
      have hweight := (fill_spec (by decide) hfill).2.2 hempty
      cases hreusable : reusable with
      | true =>
        obtain ⟨part, hpart, hdecrypt⟩ := hheld hreusable 0 chunk (by simp)
        rw [Nat.add_zero] at hpart hdecrypt
        have hstore : storeChunk vault blob true nonces bodies index chunk = .ok bodies := by
          unfold storeChunk
          have hindex : part.index = index := by simpa using List.find?_some hpart
          rw [hpart]
          simp only [if_true]
          rw [← hindex, show vault.decrypt part.ciphertext part.nonce (chunkId blob part.index) =
            some chunk from hindex ▸ hdecrypt]
          simp
        rw [hstore]
        refine hreusable ▸ ih (by omega) hrest ?_ ?_ ?_
        · rw [List.length_append]
          omega
        · intro _ offset other hother
          have hnext := hheld hreusable (offset + 1) other (by simpa using hother)
          rw [Nat.add_assoc, Nat.add_comm 1 offset]
          exact hnext
        · intro hfalse
          rw [hreusable] at hfalse
          cases hfalse
      | false =>
        have hnone : (bodies.partsOf blob).find? (fun part => part.index = index) = none := by
          rw [List.find?_eq_none]
          intro part hpart hindex
          have hless := hfree hreusable part hpart
          simp only [decide_eq_true_eq] at hindex
          omega
        have hstore : storeChunk vault blob false nonces bodies index chunk = .ok { bodies with
            parts := bodies.parts ++ [(blob, ⟨index, nonces index,
              vault.encrypt (nonces index) (chunkId blob index) chunk⟩)] } := by
          unfold storeChunk
          rw [hnone]
          simp
        rw [hstore]
        refine hreusable ▸ ih (by omega) hrest ?_ ?_ ?_
        · rw [List.length_append]
          omega
        · intro htrue
          rw [hreusable] at htrue
          cases htrue
        · intro _ part hpart
          have hparts := partsOf_append bodies blob [⟨index, nonces index,
            vault.encrypt (nonces index) (chunkId blob index) chunk⟩]
          rw [List.map_cons, List.map_nil] at hparts
          rw [hparts] at hpart
          rcases List.mem_append.1 hpart with hold | hnew
          · exact Nat.lt_succ_of_lt (hfree hreusable part hold)
          · obtain rfl := List.mem_singleton.1 hnew
            exact Nat.lt_succ_self index

/-- A body that is read as it was announced is accepted, over no chunks of its blob or
over all of them. -/
theorem writeBody_ok {host : Host} {vault : Vault} {sha256 : String} (nonces : Nat → List UInt8)
    (hwhole : Whole reader) (hreads : Reads reader) (hsha : host.sha256 (delivered reader) = sha256)
    (hsize : (delivered reader).length = size)
    (hblob : bodies.partsOf sha256 = [] ∨ Stored vault bodies sha256 (delivered reader)) :
    ∃ bodies', writeBody host vault bodies reader size sha256 nonces = .ok bodies' := by
  have hchunks : chunksFrom (weight reader + 1) reader = pieces chunkBytes (delivered reader) :=
    chunksOf_whole hwhole
  have hflat : (chunksFrom (weight reader + 1) reader).flatten = delivered reader := rfl
  have hwrite : ∃ answer, writeChunks vault sha256 size (reusable bodies size sha256) nonces
      (weight reader + 1) reader bodies 0 [] = .ok answer := by
    refine writeChunks_ok (Nat.lt_succ_self _) hreads (by rw [hflat, hsize]; simp) ?_ ?_
    · intro hreusable offset chunk hchunk
      rw [hchunks] at hchunk
      have hoffset : offset < count chunkBytes (delivered reader).length := by
        rw [← length_pieces]
        exact (List.getElem?_eq_some_iff.1 hchunk).1
      rw [getElem?_pieces _ hoffset] at hchunk
      obtain rfl := Option.some.inj hchunk
      rcases hblob with hnone | ⟨hindices, hdecrypts⟩
      · simp only [reusable, hnone, List.length_nil, decide_eq_true_eq] at hreusable
        rw [hsize] at hoffset
        omega
      · have hmem : offset ∈ (bodies.partsOf sha256).map Chunk.index := by
          rw [hindices, List.mem_range]
          exact hoffset
        obtain ⟨part, hpart, hindex⟩ := List.mem_map.1 hmem
        have hsome : ((bodies.partsOf sha256).find? fun part => part.index = offset).isSome := by
          rw [List.find?_isSome]
          exact ⟨part, hpart, by simpa using hindex⟩
        obtain ⟨found, hfound⟩ := Option.isSome_iff_exists.1 hsome
        have hfoundIndex : found.index = offset := by simpa using List.find?_some hfound
        rw [Nat.zero_add]
        refine ⟨found, hfound, ?_⟩
        rw [← hfoundIndex]
        exact hdecrypts found (List.mem_of_find?_eq_some hfound)
    · intro hreusable part hpart
      rcases hblob with hnone | ⟨hindices, -⟩
      · rw [hnone] at hpart
        cases hpart
      · have hlength := congrArg List.length hindices
        rw [List.length_map, List.length_range, hsize] at hlength
        simp [reusable, hlength] at hreusable
  obtain ⟨⟨written, seen⟩, hwrite⟩ := hwrite
  have hseen := (writeChunks_spec vault hwrite).1
  rw [List.nil_append, hflat] at hseen
  unfold writeBody
  rw [hwrite]
  simp only [bind, Except.bind]
  rw [if_neg (by rw [hseen, hsha, hsize]; simp)]
  exact ⟨written, rfl⟩

end CopyPaste.Files.Bodies
