import CopyPaste.Lib.Checks
import CopyPaste.Merge.Payload
import CopyPaste.Peer.Plan

/-!
Serving the items a peer asked for and taking those it serves: bounded batches,
the wire contract of an item, and the check of each one against its promise.
-/

namespace CopyPaste.Peer.Transfer

open Lib.Checks Lib.Rows Merge.Comparator Merge.Payload Plan

def maxItemsPerMessage : Nat := 8

def maxContentBytes : Nat := 4 * 1024 * 1024

def maxItemBytesPerMessage : Nat := maxContentBytes + maxSyncMetadataBytes

def maxIdBytes : Nat := 128

def maxContentTypeBytes : Nat := 64

def maxHashBytes : Nat := 128

/-- An item being transferred, in the plain. -/
structure SyncItem where
  itemId : String
  content : String
  binaryContent : List UInt8
  payloadMetadata : Option String
  sourceAppBundleId : Option String
  sourceAppName : Option String
  contentType : String
  createdAt : Int
  deleted : Bool
  contentHash : String
  originDeviceId : String
  pinned : Bool
  pinOrder : Option PinOrder
  pinUpdatedAt : Int
  deriving DecidableEq, Repr

def SyncItem.summary (item : SyncItem) : ItemSummary where
  itemId := item.itemId
  createdAt := item.createdAt
  deleted := item.deleted
  contentHash := item.contentHash
  originDeviceId := item.originDeviceId
  pinned := item.pinned
  pinOrder := item.pinOrder
  pinUpdatedAt := item.pinUpdatedAt

def SyncItem.payload (item : SyncItem) : List UInt8 :=
  if item.binaryContent = [] then utf8 item.content else item.binaryContent

def SyncItem.contentBytes (item : SyncItem) : Nat :=
  item.content.utf8ByteSize + item.binaryContent.length

def checkId (value : String) : Bool :=
  value != "" && decide (value.utf8ByteSize ≤ maxIdBytes)

def checkPinState (pinned : Bool) (pinOrder : Option PinOrder) : Bool :=
  pinOrder.all isFinite && pinned == pinOrder.isSome

/-- The bounds a summary has to keep on the wire. -/
def validSummary (summary : ItemSummary) : Bool :=
  checkId summary.itemId && checkId summary.originDeviceId &&
    decide (summary.contentHash.utf8ByteSize ≤ maxHashBytes) && decide (0 ≤ summary.createdAt) &&
    decide (0 ≤ summary.pinUpdatedAt) && checkPinState summary.pinned summary.pinOrder

variable (host : Host)

/-- The wire contract of an item. -/
def SyncItem.validate (item : SyncItem) : Bool :=
  checkId item.itemId && checkId item.originDeviceId &&
    decide (item.contentType.utf8ByteSize ≤ maxContentTypeBytes) &&
    (item.deleted || item.contentType != fileType || item.payloadMetadata.isSome) &&
    (item.payloadMetadata.all fun metadata =>
      decide (metadata.utf8ByteSize ≤ maxSyncMetadataBytes) && !item.deleted &&
        (PayloadMetadata.fromJson host metadata item.contentType).isSome) &&
    decide (item.contentHash.utf8ByteSize ≤ maxHashBytes) && decide (0 ≤ item.createdAt) &&
    decide (0 ≤ item.pinUpdatedAt) && checkPinState item.pinned item.pinOrder &&
    (item.content == "" || item.binaryContent.isEmpty) &&
    decide (item.contentBytes ≤ maxContentBytes)

/-- A tombstone travels without its payload. -/
def SyncItem.cleared (item : SyncItem) : SyncItem :=
  if item.deleted then { item with content := "", binaryContent := [] } else item

/-- The messages sent, the one being filled, and the requested ids still owed. -/
structure Serving where
  sent : List (List SyncItem) := []
  batch : List SyncItem := []
  batchBytes : Nat := 0
  unavailable : List String
  stats : SyncStats

/-- Send the message being filled. -/
def Serving.flush (serving : Serving) : Serving :=
  { serving with
    sent := serving.sent ++ [serving.batch]
    batch := []
    batchBytes := 0
    stats := { serving.stats with sent := serving.stats.sent + serving.batch.length } }

def Serving.serveItem (chunk : List String) (serving : Serving) (item : SyncItem) : Serving :=
  if item.itemId ∉ chunk ∨ item.itemId ∉ serving.unavailable then serving
  else
    let item := item.cleared
    let unavailable := serving.unavailable.filter (· ≠ item.itemId)
    if maxContentBytes < item.contentBytes then
      { serving with
        unavailable := unavailable
        stats :=
          { serving.stats with
            skipped := serving.stats.skipped + 1
            skippedTooLarge := serving.stats.skippedTooLarge + 1 } }
    else if !item.validate host then
      { serving with
        stats := { serving.stats with skippedInvalid := serving.stats.skippedInvalid + 1 } }
    else
      let serving := { serving with unavailable := unavailable }
      let messageBytes := item.contentBytes + (item.payloadMetadata.map String.utf8ByteSize).getD 0
      let serving :=
        if serving.batch ≠ [] ∧ (serving.batch.length = maxItemsPerMessage ∨
            maxItemBytesPerMessage < serving.batchBytes + messageBytes)
        then serving.flush else serving
      { serving with
        batch := serving.batch ++ [item]
        batchBytes := serving.batchBytes + messageBytes }

/-- Serve the requested ids that were advertised, each once, in bounded messages. -/
def serveItems (fetch : List String → List SyncItem) (advertised : List ItemSummary)
    (requested : List String) (stats : SyncStats) : List (List SyncItem) × SyncStats :=
  let allowed := (requested.filter fun id =>
    (lookup ItemSummary.itemId advertised id).isSome).eraseDups
  let serving := (chunks maxItemsPerMessage allowed).foldl (fun serving chunk =>
      (fetch chunk).foldl (Serving.serveItem host chunk) serving)
    ({ unavailable := allowed, stats := stats } : Serving)
  let serving := if serving.batch = [] then serving else serving.flush
  (serving.sent,
    { serving.stats with
      skipped := serving.stats.skipped + serving.unavailable.length
      skippedUnavailable := serving.stats.skippedUnavailable + serving.unavailable.length })

/-- What receiving a stream has come to: the store, the ids applied, the ids seen
at all, and the least stamp stored. -/
structure Receiving (S : Type) where
  store : S
  applied : List String := []
  received : List String := []
  floor : Option Int := none
  stats : SyncStats

/-- Take one item of a message: only a version that was asked for, as promised,
with a payload that bears its hash, and once. -/
def Receiving.takeItem {S : Type} (wanted : List ItemSummary)
    (taking : Receiving S × List SyncItem) (item : SyncItem) : Receiving S × List SyncItem :=
  let (receiving, batch) := taking
  let invalid :=
    { receiving.stats with
      skipped := receiving.stats.skipped + 1
      skippedInvalid := receiving.stats.skippedInvalid + 1 }
  match lookup ItemSummary.itemId wanted item.itemId with
  | none => ({ receiving with stats := invalid }, batch)
  | some promised =>
    let receiving := { receiving with received := item.itemId :: receiving.received }
    if item.summary ≠ promised then ({ receiving with stats := invalid }, batch)
    else if !item.deleted ∧ host.sha256 item.payload ≠ item.contentHash then
      ({ receiving with stats := invalid }, batch)
    else if item.itemId ∈ receiving.applied then
      ({ receiving with
          stats := { receiving.stats with skipped := receiving.stats.skipped + 1 } }, batch)
    else
      ({ receiving with applied := item.itemId :: receiving.applied },
        batch ++ [if item.deleted then { item with content := "" } else item])

/-- Count one outcome of a batch. -/
def Receiving.note {S : Type} (receiving : Receiving S) (stored : Bool) (stamp : Int) :
    Receiving S :=
  if stored then
    { receiving with
      floor := some ((receiving.floor.map fun low => min low stamp).getD stamp)
      stats := { receiving.stats with received := receiving.stats.received + 1 } }
  else { receiving with stats := { receiving.stats with skipped := receiving.stats.skipped + 1 } }

inductive SyncError
  | selfSync
  | tooManySummaryPages
  | invalidMessage
  | peerOverran
  | source
  deriving DecidableEq, Repr

def Receiving.takeMessage {S : Type} (applyBatch : S → List SyncItem → Except SyncError (S × List Bool))
    (wanted : List ItemSummary) (receiving : Receiving S) (items : List SyncItem) :
    Except SyncError (Receiving S) := do
  let (receiving, batch) := items.foldl (Receiving.takeItem host wanted) (receiving, [])
  if batch = [] then return receiving
  let (store, outcomes) ← applyBatch receiving.store batch
  return (outcomes.zip (batch.map fun item => summaryKey item.summary)).foldl
    (fun receiving (stored, stamp) => receiving.note stored stamp) { receiving with store := store }

/-- Take a whole stream. One message for each wanted id and two to spare are
allowed, the closing one included. -/
def receiveItems {S : Type} (applyBatch : S → List SyncItem → Except SyncError (S × List Bool))
    (store : S) (wanted : List ItemSummary) (stats : SyncStats) (messages : List (List SyncItem)) :
    Except SyncError (Receiving S) := do
  if wanted.length + 2 < messages.length + 1 then throw .peerOverran
  let receiving ← messages.foldlM (Receiving.takeMessage host applyBatch wanted)
    ({ store := store, stats := stats } : Receiving S)
  return { receiving with
    stats :=
      { receiving.stats with
        skippedUnavailable :=
          receiving.stats.skippedUnavailable + (wanted.length - receiving.applied.length)
        skipped := receiving.stats.skipped + (wanted.length - receiving.received.eraseDups.length) } }

section Kept

variable {S : Type} {applyBatch : S → List SyncItem → Except SyncError (S × List Bool)}
  {Inv : S → Prop}

theorem store_takeItem (wanted : List ItemSummary) (taking : Receiving S × List SyncItem)
    (item : SyncItem) :
    (Receiving.takeItem host wanted taking item).1.store = taking.1.store := by
  unfold Receiving.takeItem
  dsimp only
  split
  · rfl
  split
  · rfl
  split
  · rfl
  split <;> rfl

theorem store_takeItems (wanted : List ItemSummary) (items : List SyncItem)
    (taking : Receiving S × List SyncItem) :
    (items.foldl (Receiving.takeItem host wanted) taking).1.store = taking.1.store := by
  induction items generalizing taking with
  | nil => rfl
  | cons item rest ih => rw [List.foldl_cons, ih, store_takeItem]

/-- Counting the outcomes of a batch changes neither the store nor what was applied. -/
theorem notes_keep (outcomes : List (Bool × Int)) (receiving : Receiving S) :
    (outcomes.foldl (fun receiving (stored, stamp) => receiving.note stored stamp)
        receiving).store = receiving.store ∧
      (outcomes.foldl (fun receiving (stored, stamp) => receiving.note stored stamp)
        receiving).applied = receiving.applied := by
  induction outcomes generalizing receiving with
  | nil => exact ⟨rfl, rfl⟩
  | cons outcome rest ih =>
    obtain ⟨stored, stamp⟩ := outcome
    rw [List.foldl_cons, (ih _).1, (ih _).2]
    cases stored <;> exact ⟨rfl, rfl⟩

/-- What a message does: what it takes is applied as one batch, if it is anything. -/
theorem takeMessage_ok {wanted : List ItemSummary} {receiving after : Receiving S}
    {items : List SyncItem}
    (hok : receiving.takeMessage host applyBatch wanted items = .ok after) :
    ∃ taken batch, items.foldl (Receiving.takeItem host wanted) (receiving, []) = (taken, batch) ∧
      after.applied = taken.applied ∧
      ((batch = [] ∧ after.store = receiving.store) ∨
        ∃ stored, applyBatch receiving.store batch = .ok (after.store, stored)) := by
  obtain ⟨taken, batch, htaken⟩ : ∃ taken batch,
      items.foldl (Receiving.takeItem host wanted) (receiving, []) = (taken, batch) := ⟨_, _, rfl⟩
  have hstore : taken.store = receiving.store := by
    rw [← store_takeItems host wanted items (receiving, []), htaken]
  unfold Receiving.takeMessage at hok
  rw [htaken] at hok
  dsimp only at hok
  refine ⟨taken, batch, htaken, ?_⟩
  split at hok
  · next hempty =>
    obtain rfl := Except.ok.inj hok
    exact ⟨rfl, .inl ⟨hempty, hstore⟩⟩
  · rw [hstore] at hok
    obtain ⟨result, happly, hok⟩ := bind_ok_iff.1 hok
    rw [← Except.ok.inj hok, (notes_keep _ _).1, (notes_keep _ _).2]
    exact ⟨rfl, .inr ⟨result.2, happly⟩⟩

/-- The rule of a stream: what holds before it and is carried over each of its messages holds
after them all. -/
theorem receiveItems_rule {P : List (List SyncItem) → Receiving S → Prop} {store : S}
    {wanted : List ItemSummary} {stats : SyncStats} {messages : List (List SyncItem)}
    {received : Receiving S} (hstart : P [] { store := store, stats := stats })
    (hstep : ∀ taken items receiving next, items ∈ messages → P taken receiving →
      receiving.takeMessage host applyBatch wanted items = .ok next → P (taken ++ [items]) next)
    (hok : receiveItems host applyBatch store wanted stats messages = .ok received) :
    ∃ last, P messages last ∧ received.store = last.store ∧ received.applied = last.applied := by
  have hfold : ∀ rest taken receiving after, (∀ items ∈ rest, items ∈ messages) →
      P taken receiving →
      rest.foldlM (Receiving.takeMessage host applyBatch wanted) receiving = .ok after →
      P (taken ++ rest) after := by
    intro rest
    induction rest with
    | nil =>
      intro taken receiving after _ h hok
      obtain rfl := Except.ok.inj hok
      rwa [List.append_nil]
    | cons items rest ih =>
      intro taken receiving after hsent h hok
      rw [List.foldlM_cons] at hok
      obtain ⟨next, htake, hok⟩ := bind_ok_iff.1 hok
      obtain ⟨hfirst, hrest⟩ := List.forall_mem_cons.1 hsent
      have hlast := ih _ next after hrest (hstep taken items receiving next hfirst h htake) hok
      rwa [List.append_assoc] at hlast
  unfold receiveItems at hok
  split at hok
  · simp [throw, throwThe, MonadExceptOf.throw, Bind.bind, Except.bind] at hok
  simp only [pure, Except.pure, Bind.bind, Except.bind] at hok
  split at hok
  · simp at hok
  rename_i last hlast
  rw [← Except.ok.inj hok]
  exact ⟨last, hfold messages [] _ last (fun _ h => h) hstart hlast, rfl, rfl⟩

/-- What every batch keeps, a stream keeps. -/
theorem receiveItems_keeps
    (hkeeps : ∀ store, Inv store → ∀ items after stored,
      applyBatch store items = .ok (after, stored) → Inv after)
    {store : S} {wanted : List ItemSummary} {stats : SyncStats} {messages : List (List SyncItem)}
    {received : Receiving S} (hinv : Inv store)
    (hok : receiveItems host applyBatch store wanted stats messages = .ok received) :
    Inv received.store := by
  obtain ⟨last, hlast, hstore, -⟩ := receiveItems_rule host
    (P := fun _ receiving => Inv receiving.store) hinv
    (by
      intro _ items receiving next _ h htake
      obtain ⟨taken, batch, -, -, ⟨-, hsame⟩ | ⟨stored, happly⟩⟩ := takeMessage_ok host htake
      · exact hsame ▸ h
      · exact hkeeps _ h _ _ _ happly) hok
  exact hstore ▸ hlast

end Kept

end CopyPaste.Peer.Transfer
