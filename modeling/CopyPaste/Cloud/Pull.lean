import CopyPaste.Cloud.Backend

/-!
The download path. A pull drains pages from the watermark on; each row is
refused or put in the batch the store merges. A refused row moves the cursor past
itself but never past the local clock, a row stamped beyond the skew ceiling does
not move it at all, and an accepted batch moves it to its last row.
-/

namespace CopyPaste.Cloud.Pull

open Lib.Keyset Lib.Rows Upload.Scanning Backend

def pullPageLimit : Nat := 100

def maxPagesPerPull : Nat := 50

def maxFutureSkewMs : Int := 24 * 60 * 60 * 1000

def maxContentBytes : Nat := 4 * 1024 * 1024

def tagLen : Nat := 16

def saturatingAdd (a b : Int) : Int := min (a + b) i64Max

structure SyncStats where
  downloaded : Nat := 0
  applied : Nat := 0
  skippedUndecryptable : Nat := 0
  skippedForged : Nat := 0
  skippedFuture : Nat := 0
  skippedTooLarge : Nat := 0
  deriving DecidableEq, Repr

inductive SyncError
  | source (reason : String)
  | transport (reason : String)
  deriving DecidableEq, Repr

def msgBatchArity : String := "the history database did not answer for every row of a page"

/-- What the store did with one row of a batch. -/
inductive Applied
  | merged
  | declined (item : LocalItem)
  deriving DecidableEq, Repr

/-- The store behind a pull. -/
structure Source (σ : Type) where
  applyRemoteBatch : σ → List LocalItem → σ × Except SyncError (List Applied)
  requeueLocalWinner : σ → LocalItem → σ × Except SyncError Bool

def advancePast (cursor : Cursor) (createdAt : Int) (itemId : String) : Cursor :=
  if cursor < ⟨createdAt, some itemId⟩ then ⟨createdAt, some itemId⟩ else cursor

def advanceAfterRefusal (cursor : Cursor) (createdAt : Int) (itemId : String) (now : Int) :
    Cursor :=
  if createdAt ≤ now then advancePast cursor createdAt itemId else cursor

def clampStamp (raw : Int) : Int := max raw 0

def sortPage (rows : List CloudItem) : List CloudItem :=
  rows.insertionSort fun a b => rowKey a ≤ rowKey b

/-- The padded base64 length of `n` bytes. -/
def encodedLen (n : Nat) : Nat := (n + 2) / 3 * 4

def ciphertextExceedsContentLimit (ciphertext : String) : Bool :=
  decide (encodedLen (maxContentBytes + tagLen) < ciphertext.utf8ByteSize)

def tooLargeToSync (_contentType : String) (byteLen : Nat) : Bool :=
  decide (maxContentBytes < byteLen)

/-- What becomes of one row of a page. -/
inductive Verdict
  | future
  | forged
  | tooLarge
  | undecryptable
  | accepted (item : LocalItem)
  deriving DecidableEq, Repr

/-- The version a row carries, given its content. -/
def openedItem (row : CloudItem) (content : List UInt8) : LocalItem where
  itemId := row.itemId
  originDeviceId := row.originDeviceId
  content := content
  contentType := row.contentType
  payloadMetadata := row.payloadMetadata
  createdAt := row.createdAt
  deleted := row.deleted
  sourceAppBundleId := row.sourceAppBundleId
  sourceAppName := row.sourceAppName

/-- The checks a row passes before its payload is touched and after it is opened. -/
def judge (key : SyncKey) (now : Int) (row : CloudItem) : Verdict :=
  if saturatingAdd now maxFutureSkewMs < row.createdAt then .future
  else if !key.verifyMetadata row then .forged
  else if !row.deleted && ciphertextExceedsContentLimit row.ciphertext then .tooLarge
  else
    match if row.deleted then some [] else
        key.decryptRow row.ciphertext row.nonce row.itemId with
    | none => .undecryptable
    | some content =>
      if !row.deleted && tooLargeToSync row.contentType content.length then .tooLarge
      else .accepted (openedItem row content)

/-- The cursor, the batch and the counters while a page is read. -/
structure PageRead where
  advanced : Cursor
  batch : List LocalItem
  stats : SyncStats

def readRow (key : SyncKey) (now : Int) (read : PageRead) (row : CloudItem) : PageRead :=
  match judge key now row with
  | .future =>
    { read with stats := { read.stats with skippedFuture := read.stats.skippedFuture + 1 } }
  | .forged =>
    { read with
      advanced := advanceAfterRefusal read.advanced row.createdAt row.itemId now
      stats := { read.stats with skippedForged := read.stats.skippedForged + 1 } }
  | .tooLarge =>
    { read with
      advanced := advanceAfterRefusal read.advanced row.createdAt row.itemId now
      stats := { read.stats with skippedTooLarge := read.stats.skippedTooLarge + 1 } }
  | .undecryptable =>
    { read with
      advanced := advanceAfterRefusal read.advanced row.createdAt row.itemId now
      stats := { read.stats with skippedUndecryptable := read.stats.skippedUndecryptable + 1 } }
  | .accepted item => { read with batch := read.batch ++ [item] }

def readPage (key : SyncKey) (now : Int) (cursor : Cursor) (stats : SyncStats)
    (rows : List CloudItem) : PageRead :=
  (sortPage (rows.map fun row => { row with createdAt := clampStamp row.createdAt })).foldl
    (readRow key now) ⟨cursor, [], { stats with downloaded := stats.downloaded + rows.length }⟩

/-- Where the cursor stands once the batch of a page has been taken. -/
def PageRead.reached (read : PageRead) : Cursor :=
  match read.batch.getLast? with
  | some item => advancePast read.advanced item.createdAt item.itemId
  | none => read.advanced

/-- A device during a pull: its store, the persisted watermark, the counters, and
the versions handed to the store and the pages fetched so far. -/
structure Puller (σ : Type) where
  store : σ
  watermark : Cursor
  stats : SyncStats
  republish : Bool
  offered : List LocalItem
  fetched : Nat

inductive PageEnd
  | more
  | caughtUp
  | stalled
  | failed (error : SyncError)
  deriving DecidableEq, Repr

/-- Count the outcomes of a batch and requeue the local winners of declined rows. -/
def settle {σ : Type} (source : Source σ) :
    List Applied → Puller σ → Puller σ × Option SyncError
  | [], p => (p, none)
  | .merged :: rest, p =>
    settle source rest { p with stats := { p.stats with applied := p.stats.applied + 1 } }
  | .declined item :: rest, p =>
    match source.requeueLocalWinner p.store item with
    | (store, .ok requeued) =>
      settle source rest { p with store := store, republish := p.republish || requeued }
    | (store, .error error) => ({ p with store := store }, some error)

/-- Hand a batch to the store. -/
def offer {σ : Type} (source : Source σ) (batch : List LocalItem) (p : Puller σ) :
    Puller σ × Option SyncError :=
  if batch = [] then (p, none)
  else
    match source.applyRemoteBatch p.store batch with
    | (store, .error error) =>
      ({ p with store := store, offered := p.offered ++ batch }, some error)
    | (store, .ok outcomes) =>
      let p := { p with store := store, offered := p.offered ++ batch }
      if outcomes.length = batch.length then settle source outcomes p
      else (p, some (.source msgBatchArity))

/-- One page: fetch, read, offer, and persist the cursor. -/
def pullPage {σ : Type} (key : SyncKey) (table : Table) (source : Source σ) (now : Int)
    (p : Puller σ) : Puller σ × PageEnd :=
  match fetchSince table p.watermark.createdAt p.watermark.itemId pullPageLimit with
  | .error (.invalidItem reason) => (p, .failed (.transport reason))
  | .ok rows =>
    let read := readPage key now p.watermark p.stats rows
    let fetched := { p with stats := read.stats, fetched := p.fetched + 1 }
    match offer source read.batch fetched with
    | (p', some error) => (p', .failed error)
    | (p', none) =>
      let p' := { p' with watermark := read.reached }
      if rows.length < pullPageLimit then (p', .caughtUp)
      else if read.reached = p.watermark then (p', .stalled)
      else (p', .more)

/-- Drain pages until one is short, makes no progress or fails. -/
def drain {σ : Type} (key : SyncKey) (table : Table) (source : Source σ) (clock : Nat → Int) :
    Nat → Puller σ → Puller σ × Option SyncError
  | 0, p => (p, none)
  | pages + 1, p =>
    match pullPage key table source (clock 0) p with
    | (p', .more) => drain key table source (fun i => clock (i + 1)) pages p'
    | (p', .failed error) => (p', some error)
    | (p', _) => (p', none)

/-- Fetch, open and apply everything since the watermark. -/
def pull {σ : Type} (key : SyncKey) (table : Table) (source : Source σ) (clock : Nat → Int)
    (p : Puller σ) : Puller σ × Option SyncError :=
  drain key table source clock maxPagesPerPull
    { p with stats := {}, republish := false }

/-- Pulls one after another; `clock i j` is the time at page `j` of pull `i`. -/
def pulls {σ : Type} (key : SyncKey) (table : Table) (source : Source σ)
    (clock : Nat → Nat → Int) : Nat → Puller σ → Puller σ
  | 0, p => p
  | n + 1, p =>
    pulls key table source (fun i => clock (i + 1)) n (pull key table source (clock 0) p).1

end CopyPaste.Cloud.Pull
