import CopyPaste.Merge.Prepare

/-!
The merge of a whole page. Every row is decided against one snapshot, threading
the decisions for an id forward; the winners are written in one transaction, each
refused or kept on its own; pin states whose content was not stored follow; and
the rows decided against a winner the store then refused are applied again one at
a time.
-/

namespace CopyPaste.Merge.Batch

open Lib.Rows Comparator Payload Storage Prepare

def snapshotAttempts : Nat := 2

/-- A version of a page with the pin state a peer session carries beside it. -/
abbrev Incoming := RemoteVersion × Option P2pPin

/-- The decisions of a page: the winners in page order, for each row its index
among them, and the rows whose pin state alone is to be stored. -/
structure Plan where
  writes : List Prepared := []
  slots : List (Option Nat) := []
  pinOnly : List Nat := []

variable (host : Host)

def planRow (held : List Version) (plan : Plan) (index : Nat) (incoming : Incoming) :
    Except MergeError (List Version × Plan) := do
  let (item, pin) := incoming
  if payloadIsRefused host item then
    return (held, { plan with slots := plan.slots ++ [none] })
  let pin := pin.map fun pin => pin.against host item (lookup Version.id held item.itemId)
  match ← prepareRemoteVersion host item pin (lookup Version.id held item.itemId) with
  | some ready =>
    return (put Version.id held (ready.asVersion host),
      { plan with
        writes := plan.writes ++ [ready]
        slots := plan.slots ++ [some plan.writes.length] })
  | none =>
    return (held,
      { plan with
        slots := plan.slots ++ [none]
        pinOnly := if pin.any RemotePin.wins then plan.pinOnly ++ [index] else plan.pinOnly })

/-- Decide a page against the versions held, row by row. -/
def prepareFrom (held : List Version) (plan : Plan) (index : Nat) :
    List Incoming → Except MergeError Plan
  | [] => .ok plan
  | incoming :: rest => do
    let (held, plan) ← planRow host held plan index incoming
    prepareFrom held plan (index + 1) rest

def prepare (held : List Version) (page : List Incoming) : Except MergeError Plan :=
  prepareFrom host held {} 0 page

/-- What the transaction answered for each row of the page. -/
def flagsOf (page : List Incoming) (slots : List (Option Nat)) (written : List Bool) :
    List P2pApply :=
  (page.zip slots).map fun (incoming, slot) =>
    let content := slot.any fun index => written.getD index false
    ⟨content, content && incoming.2.isSome⟩

/-- Store the pin states whose content was not stored. -/
def applyPins (page : List Incoming) : List Nat → Store → List P2pApply → Store × List P2pApply
  | [], store, applied => (store, applied)
  | index :: rest, store, applied =>
    if (applied[index]?).any P2pApply.any then applyPins page rest store applied
    else
      match page[index]? with
      | some (item, some pin) =>
        let (store, stored) :=
          store.applyPinState item.itemId pin.pinned pin.pinOrder pin.pinUpdatedAt
        applyPins page rest store (applied.modify index fun flags => { flags with pin := stored })
      | _ => applyPins page rest store applied

/-- The first row of an id the store refused. -/
def refusedAt (page : List Incoming) (slots : List (Option Nat)) (written : List Bool)
    (id : String) : Option Nat :=
  (List.range page.length).find? fun index =>
    (page[index]?).any (fun incoming => incoming.1.itemId = id) &&
      (slots[index]?.join).any fun slot => !written.getD slot false

def applyOne (store : Store) : Incoming → Except MergeError (Store × P2pApply)
  | (item, some pin) => applyRemoteP2pVersionWithPinStamp host store item pin
  | (item, none) => do
    let (store, content) ← applyRemoteVersion host store item
    return (store, ⟨content, false⟩)

def applyEach (store : Store) : List Incoming → Except MergeError (Store × List P2pApply)
  | [] => .ok (store, [])
  | incoming :: rest => do
    let (store, flags) ← applyOne host store incoming
    let (store, applied) ← applyEach store rest
    return (store, flags :: applied)

/-- Re-apply the rows decided against a winner the store then refused. -/
def redoAfterRefusals (refused : String → Option Nat) (store : Store) :
    Nat → List (Incoming × P2pApply) → Except MergeError (Store × List P2pApply)
  | _, [] => .ok (store, [])
  | index, (incoming, flags) :: rest => do
    let (store, flags) ←
      if flags.any || (refused incoming.1.itemId).all fun first => index ≤ first then
        pure (store, flags)
      else applyOne host store incoming
    let (store, applied) ← redoAfterRefusals refused store (index + 1) rest
    return (store, flags :: applied)

/-- Try a page against a snapshot, and again against the one the write found. -/
def applyPageFrom (store : Store) (page : List Incoming) :
    Nat → List Version → Except MergeError (Store × List P2pApply)
  | 0, _ => .error .historyBusy
  | attempts + 1, snapshot => do
    let plan ← prepare host snapshot page
    match store.mergePage host (page.map fun incoming => incoming.1.itemId) snapshot
        (plan.writes.map Prepared.toIncomingItem) with
    | .error authoritative => applyPageFrom store page attempts authoritative
    | .ok (store, written) =>
      let (store, applied) := applyPins page plan.pinOnly store (flagsOf page plan.slots written)
      redoAfterRefusals host (refusedAt page plan.slots written) store 0 (page.zip applied)

/-- Merge a page of versions, answering for each position. -/
def applyPage (store : Store) (page : List Incoming) : Except MergeError (Store × List P2pApply) :=
  if page = [] then .ok (store, [])
  else applyPageFrom host store page snapshotAttempts
    (store.versionSummaries (page.map fun incoming => incoming.1.itemId))

/-- The cloud's page merge: no pin states. -/
def applyRemoteVersions (store : Store) (page : List RemoteVersion) :
    Except MergeError (Store × List Bool) := do
  let (store, applied) ← applyPage host store (page.map fun item => (item, none))
  return (store, applied.map P2pApply.any)

/-- The peer session's page merge. -/
def applyRemoteP2pVersions (store : Store) (page : List (RemoteVersion × P2pPin)) :
    Except MergeError (Store × List P2pApply) :=
  applyPage host store (page.map fun (item, pin) => (item, some pin))

end CopyPaste.Merge.Batch
