import CopyPaste.Peer.Cursor
import CopyPaste.Peer.Transfer

/-!
One complete session between two devices: summaries page against page, then the
initiator's request and its items, then the responder's. Each side applies what it
asked for before its cursor moves, and the initiator serves from the store it has
applied to.
-/

namespace CopyPaste.Peer.Session

open Lib.Checks Lib.Keyset Merge.Comparator Merge.Payload Cursor Plan Transfer

def maxSummariesPerMessage : Nat := 10000

def maxSummaryPagesPerSession : Nat := 16

/-- What a session needs of a local store. -/
structure SyncSource (S : Type) where
  deviceId : String
  summaryPage : S → Int → Option String → Nat → List ItemSummary
  localSummaries : S → List String → List ItemSummary
  fetch : S → List String → List SyncItem
  applyBatch : S → List SyncItem → Except SyncError (S × List Bool)

/-- One side when a session starts, with its clock and the order its hash maps
list their entries in. -/
structure Party (S : Type) where
  source : SyncSource S
  store : S
  cursor : SyncCursor
  now : Int
  arrange : List ItemSummary → List ItemSummary

variable {S : Type}

/-- Where the next page of a history starts. -/
abbrev Reader := Position String

def nextPage (source : SyncSource S) (store : S) (reader : Reader) : List ItemSummary × Bool :=
  let items := source.summaryPage store reader.createdAt reader.itemId (maxSummariesPerMessage + 1)
  (items.take maxSummariesPerMessage, maxSummariesPerMessage < items.length)

/-- Past the last row of a page. -/
def Reader.after (reader : Reader) (items : List ItemSummary) : Reader :=
  match items.getLast? with
  | some last => ⟨summaryKey last, some last.itemId⟩
  | none => reader

/-- What one side keeps of a round: the page it sent, and the page it received
beside its own versions of the ids on it. -/
def keepRound (party : Party S) (workspace : SummaryWorkspace) (mine theirs : List ItemSummary) :
    SummaryWorkspace :=
  ((workspace.addAdvertised mine).addComparison
    (party.source.localSummaries party.store (theirs.map ItemSummary.itemId))).addRemote theirs

/-- Exchange summaries page against page until neither side has more. -/
def exchange (initiator responder : Party S) :
    Nat → Reader → Reader → SummaryWorkspace → SummaryWorkspace →
      Except SyncError (SummaryWorkspace × SummaryWorkspace)
  | 0, _, _, _, _ => .error .tooManySummaryPages
  | rounds + 1, ours, theirs, kept, keptBack =>
    let (items, more) := nextPage initiator.source initiator.store ours
    let (peerItems, peerMore) := nextPage responder.source responder.store theirs
    -- A page with a summary outside the wire's bounds is refused by its encoder.
    if (items ++ peerItems).all validSummary then
      let kept := keepRound initiator kept items peerItems
      let keptBack := keepRound responder keptBack peerItems items
      if !more && !peerMore then .ok (kept, keptBack)
      else exchange initiator responder rounds (Reader.after ours items)
        (Reader.after theirs peerItems) kept keptBack
    else .error .invalidMessage

/-- One side when the session is over. -/
structure Side (S : Type) where
  store : S
  workspace : SummaryWorkspace
  wanted : List ItemSummary
  attempted : List String
  appliedFloor : Option Int
  stats : SyncStats
  sinceMs : Int

/-- The ids a side asks for. -/
def request (party : Party S) (wanted : List ItemSummary) : List String :=
  (party.arrange wanted).map ItemSummary.itemId

def finish (party : Party S) (workspace : SummaryWorkspace) (wanted : List ItemSummary)
    (received : Receiving S) (stats : SyncStats) : Side S where
  store := received.store
  workspace := workspace
  wanted := wanted
  attempted := received.applied
  appliedFloor := received.floor
  stats := stats
  sinceMs := workspace.watermark party.cursor.sinceMs wanted received.applied

variable (host : Host)

/-- The initiating half against the responding half, message by message. -/
def session (initiator responder : Party S) : Except SyncError (Side S × Side S) := do
  if initiator.source.deviceId = responder.source.deviceId then throw .selfSync
  if !(checkId initiator.source.deviceId && checkId responder.source.deviceId) then
    throw .invalidMessage
  let (kept, keptBack) ← exchange initiator responder maxSummaryPagesPerSession
    ⟨initiator.cursor.advertiseFrom responder.cursor.sinceMs, none⟩
    ⟨responder.cursor.advertiseFrom initiator.cursor.sinceMs, none⟩ {} {}
  let (kept, wanted, stats) := kept.planWorkspace initiator.arrange initiator.now {}
  let (messages, statsBack) := serveItems host (responder.source.fetch responder.store)
    keptBack.advertised (request initiator wanted) {}
  let received ← receiveItems host initiator.source.applyBatch initiator.store wanted stats messages
  let (keptBack, wantedBack, statsBack) :=
    keptBack.planWorkspace responder.arrange responder.now statsBack
  let (messagesBack, stats) := serveItems host (initiator.source.fetch received.store)
    kept.advertised (request responder wantedBack) received.stats
  let receivedBack ← receiveItems host responder.source.applyBatch responder.store wantedBack
    statsBack messagesBack
  return (finish initiator kept wanted received stats,
    finish responder keptBack wantedBack receivedBack receivedBack.stats)

theorem session_ok {initiator responder : Party S} {side back : Side S}
    (h : session host initiator responder = .ok (side, back)) :
    ∃ kept keptBack received receivedBack,
      exchange initiator responder maxSummaryPagesPerSession
        ⟨initiator.cursor.advertiseFrom responder.cursor.sinceMs, none⟩
        ⟨responder.cursor.advertiseFrom initiator.cursor.sinceMs, none⟩ {} {} =
          .ok (kept, keptBack) ∧
      let plan := kept.planWorkspace initiator.arrange initiator.now {}
      let served := serveItems host (responder.source.fetch responder.store) keptBack.advertised
        (request initiator plan.2.1) {}
      let planBack := keptBack.planWorkspace responder.arrange responder.now served.2
      let servedBack := serveItems host (initiator.source.fetch received.store) plan.1.advertised
        (request responder planBack.2.1) received.stats
      receiveItems host initiator.source.applyBatch initiator.store plan.2.1 plan.2.2 served.1 =
        .ok received ∧
      receiveItems host responder.source.applyBatch responder.store planBack.2.1 planBack.2.2
        servedBack.1 = .ok receivedBack ∧
      side = finish initiator plan.1 plan.2.1 received servedBack.2 ∧
      back = finish responder planBack.1 planBack.2.1 receivedBack receivedBack.stats := by
  unfold session at h
  obtain ⟨-, h⟩ := unless_ok_iff.1 h
  obtain ⟨-, h⟩ := unless_ok_iff.1 h
  obtain ⟨⟨kept, keptBack⟩, hexchange, h⟩ := bind_ok_iff.1 h
  obtain ⟨received, hreceived, h⟩ := bind_ok_iff.1 h
  obtain ⟨receivedBack, hreceivedBack, h⟩ := bind_ok_iff.1 h
  obtain ⟨rfl, rfl⟩ := Prod.mk.inj (Except.ok.inj h)
  exact ⟨kept, keptBack, received, receivedBack, hexchange, hreceived, hreceivedBack, rfl, rfl⟩

/-- No device ends a session with itself. -/
theorem session_distinct {initiator responder : Party S} {sides : Side S × Side S}
    (h : session host initiator responder = .ok sides) :
    initiator.source.deviceId ≠ responder.source.deviceId :=
  (unless_ok_iff.1 h).1

end CopyPaste.Peer.Session
