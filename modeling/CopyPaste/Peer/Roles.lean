import CopyPaste.Lib.Duplex
import CopyPaste.Peer.Session
import CopyPaste.Wire.Codec

/-!
The two halves of a session as processes: what each sends and receives, in which order,
and every error it can end with. The local history answers call by call and may change
between any two calls, so that it is a state passed on by each of them.
-/

namespace CopyPaste.Peer.Roles

open Lib.Duplex Lib.Rows Merge.Comparator Merge.Payload Cursor Plan Transfer Session
open Peers.Group (DeviceProfile SocketAddr isDialable)
open Wire.Messages (SyncMessage)
open Wire.Codec (Libraries ProtocolError protocolVersion validateMessage checked)

inductive SessionError
  | protocol (error : ProtocolError)
  | unexpected (expected got : String)
  | source (reason : String)
  | selfSync
  | peerOverran
  | tooManySummaryPages
  deriving DecidableEq, Repr

def kindOf : SyncMessage → String
  | .group _ _ => "group"
  | .probe _ _ _ => "probe"
  | .probeAck _ _ _ => "probe_ack"
  | .hello _ _ _ _ _ _ => "hello"
  | .summary _ _ => "summary"
  | .request _ => "request"
  | .items _ => "items"
  | .done => "done"
  | .fileRequest _ _ _ _ _ => "file_request"
  | .fileChunk _ _ => "file_chunk"
  | .fileUnavailable _ => "file_unavailable"
  | .fileChecksum _ => "file_checksum"

/-- What a session needs of the local history. A call answers or fails and leaves the
history as the next call finds it; of a batch, a failing call may have stored the versions
that `landed` flags. -/
structure Source (S : Type) where
  deviceId : String
  deviceName : String
  deviceProfile : DeviceProfile
  summaryPage : S → Int → Option String → ℕ → Except SessionError (List ItemSummary) × S
  localSummaries : S → List String → Except SessionError (List ItemSummary) × S
  fetch : S → List String → Except SessionError (List SyncItem) × S
  applyBatch : S → List SyncItem → Except SessionError (List Bool) × S
  landed : S → List SyncItem → List Bool

/-- One side when a session starts, with its clock and the order its hash maps list their
entries in. -/
structure Device (S : Type) where
  source : Source S
  listenAddr : Option String
  cursor : SyncCursor
  now : Int
  arrange : List ItemSummary → List ItemSummary

structure Local (S : Type) where
  store : S
  stored : List ItemSummary := []

structure PeerHello where
  deviceId : String
  deviceName : String
  profile : Option DeviceProfile
  listenAddr : Option SocketAddr
  sinceMs : Int

structure SyncOutcome where
  stats : SyncStats
  peer : PeerHello
  sinceMs : Int
  appliedFloor : Option Int

variable {S : Type}

abbrev Half (S : Type) := Act SyncMessage SessionError (Local S)

/-- Call the source. -/
def ask {α : Type} (f : S → Except SessionError α × S) : Half S α :=
  Act.call fun here => ((f here.store).1, { here with store := (f here.store).2 })

def applyBatch (source : Source S) (batch : List SyncItem) : Half S (List Bool) :=
  Act.call fun here =>
    let (outcomes, store) := source.applyBatch here.store batch
    let flags := match outcomes with
      | .ok outcomes => outcomes
      | .error _ => source.landed here.store batch
    let kept := ((flags.zip batch).filter Prod.fst).map fun entry => entry.2.summary
    (outcomes, { store, stored := here.stored ++ kept })

variable (libs : Libraries)

/-- Send a message, if it is within the bounds of the wire. -/
def send (message : SyncMessage) : Half S Unit :=
  match validateMessage libs message with
  | .ok () => Act.send message
  | .error error => Act.fail (.protocol error)

/-- The next message, its stamps clamped, if it is within the bounds of the wire. -/
def receive : Half S SyncMessage := do
  let message ← Act.recv
  match checked libs message with
  | .ok message => return message
  | .error error => Act.fail (.protocol error)

def localHello (device : Device S) : SyncMessage :=
  .hello protocolVersion device.source.deviceId device.source.deviceName
    (some device.source.deviceProfile) device.listenAddr device.cursor.sinceMs

def recvHello (device : Device S) : Half S PeerHello := do
  match ← receive libs with
  | .hello _ deviceId deviceName profile listenAddr sinceMs =>
    if deviceId = device.source.deviceId then Act.fail .selfSync
    else
      return { deviceId, deviceName, profile, sinceMs
               listenAddr := (listenAddr.bind libs.spelling.parseAddr).filter isDialable }
  | other => Act.fail (.unexpected "hello" (kindOf other))

def receivePage : Half S (List ItemSummary × Bool) := do
  match ← receive libs with
  | .summary items more => return (items, more)
  | other => Act.fail (.unexpected "summary" (kindOf other))

def receiveRequest : Half S (List String) := do
  match ← receive libs with
  | .request itemIds => return itemIds
  | other => Act.fail (.unexpected "request" (kindOf other))

def nextPage (source : Source S) (reader : Reader) : Half S (List ItemSummary × Bool) := do
  let items ← ask fun store =>
    source.summaryPage store reader.createdAt reader.itemId (maxSummariesPerMessage + 1)
  return (items.take maxSummariesPerMessage, maxSummariesPerMessage < items.length)

/-- What one side keeps of a round: the page it sent, and the page it received beside its own
versions of the ids on it. -/
def keepPages (source : Source S) (workspace : SummaryWorkspace) (items peerItems : List ItemSummary) :
    Half S SummaryWorkspace := do
  let comparison ← ask fun store => source.localSummaries store (peerItems.map ItemSummary.itemId)
  return ((workspace.addAdvertised items).addComparison comparison).addRemote peerItems

/-- Exchange summaries page against page; the initiator sends first in each round. -/
def exchangeWorkspace (source : Source S) (initiator : Bool) :
    ℕ → Reader → SummaryWorkspace → Half S SummaryWorkspace
  | 0, _, _ => Act.fail .tooManySummaryPages
  | rounds + 1, reader, workspace => do
    let peerFirst ← if initiator then pure none else some <$> receivePage libs
    let page ← nextPage source reader
    send libs (.summary page.1 page.2)
    let peerPage ← peerFirst.elim (receivePage libs) pure
    let workspace ← keepPages source workspace page.1 peerPage.1
    if !page.2 && !peerPage.2 then return workspace
    else exchangeWorkspace source initiator rounds (Reader.after reader page.1) workspace

/-- Take the items of a stream until it is closed; `budget` messages are allowed. -/
def receiveItems (source : Source S) (wanted : List ItemSummary) :
    ℕ → Receiving Unit → Half S (Receiving Unit)
  | 0, _ => Act.fail .peerOverran
  | budget + 1, receiving => do
    match ← receive libs with
    | .items items =>
      let (receiving, batch) := items.foldl (Receiving.takeItem libs.host wanted) (receiving, [])
      if batch = [] then receiveItems source wanted budget receiving
      else
        let outcomes ← applyBatch source batch
        receiveItems source wanted budget
          ((outcomes.zip (batch.map fun item => summaryKey item.summary)).foldl
            (fun receiving (stored, stamp) => receiving.note stored stamp) receiving)
    | .done =>
      return { receiving with
        stats :=
          { receiving.stats with
            skippedUnavailable :=
              receiving.stats.skippedUnavailable + (wanted.length - receiving.applied.length)
            skipped :=
              receiving.stats.skipped + (wanted.length - receiving.received.eraseDups.length) } }
    | other => Act.fail (.unexpected "items" (kindOf other))

def receiveBudget (wanted : List ItemSummary) : ℕ := wanted.length + 2

/-- Serve one fetched item; a full message leaves before the item joins the next. -/
def serveItem (chunk : List String) (serving : Serving) (item : SyncItem) : Half S Serving := do
  let serving := Serving.serveItem libs.host chunk { serving with sent := [] } item
  serving.sent.forM fun batch => send libs (.items batch)
  return serving

def serveChunk (source : Source S) (serving : Serving) (chunk : List String) : Half S Serving := do
  let items ← ask fun store => source.fetch store chunk
  items.foldlM (serveItem libs chunk) serving

/-- Send what is left of a message. -/
def flushBatch (serving : Serving) : Half S SyncStats :=
  if serving.batch = [] then pure serving.stats
  else do
    send libs (.items serving.batch)
    return serving.flush.stats

/-- Serve the requested ids that were advertised, each once, and close the stream. -/
def serveItems (source : Source S) (advertised : List ItemSummary) (requested : List String)
    (stats : SyncStats) : Half S SyncStats := do
  let allowed := (requested.filter fun id =>
    (lookup ItemSummary.itemId advertised id).isSome).eraseDups
  let serving ← (chunks maxItemsPerMessage allowed).foldlM (serveChunk libs source)
    ({ unavailable := allowed, stats := stats } : Serving)
  let stats ← flushBatch libs serving
  send libs .done
  return { stats with
    skipped := stats.skipped + serving.unavailable.length
    skippedUnavailable := stats.skippedUnavailable + serving.unavailable.length }

def requestedAdvertised (workspace : SummaryWorkspace) (requested : List String) :
    List ItemSummary :=
  requested.filterMap (lookup ItemSummary.itemId workspace.advertised)

def requestFor (device : Device S) (wanted : List ItemSummary) : SyncMessage :=
  .request ((device.arrange wanted).map ItemSummary.itemId)

def outcomeOf (device : Device S) (peer : PeerHello) (workspace : SummaryWorkspace)
    (wanted : List ItemSummary) (received : Receiving Unit) (stats : SyncStats) : SyncOutcome where
  stats := stats
  peer := peer
  sinceMs := workspace.watermark device.cursor.sinceMs wanted received.applied
  appliedFloor := received.floor

def exchangeWith (device : Device S) (initiator : Bool) (peer : PeerHello) :
    Half S SummaryWorkspace :=
  exchangeWorkspace libs device.source initiator maxSummaryPagesPerSession
    ⟨device.cursor.advertiseFrom peer.sinceMs, none⟩ {}

/-- The initiating half. -/
def runInitiator (device : Device S) : Half S SyncOutcome := do
  send libs (localHello device)
  let peer ← recvHello libs device
  let workspace ← exchangeWith libs device true peer
  let (workspace, wanted, stats) := workspace.planWorkspace device.arrange device.now {}
  send libs (requestFor device wanted)
  let received ← receiveItems libs device.source wanted (receiveBudget wanted)
    { store := (), stats := stats }
  let requested ← receiveRequest libs
  let stats ← serveItems libs device.source (requestedAdvertised workspace requested) requested
    received.stats
  return outcomeOf device peer workspace wanted received stats

/-- The responding half: every send pairs with a receive of the other. -/
def runResponder (device : Device S) : Half S SyncOutcome := do
  let peer ← recvHello libs device
  send libs (localHello device)
  let workspace ← exchangeWith libs device false peer
  let requested ← receiveRequest libs
  let stats ← serveItems libs device.source (requestedAdvertised workspace requested) requested {}
  let (workspace, wanted, stats) := workspace.planWorkspace device.arrange device.now stats
  send libs (requestFor device wanted)
  let received ← receiveItems libs device.source wanted (receiveBudget wanted)
    { store := (), stats := stats }
  return outcomeOf device peer workspace wanted received received.stats

end CopyPaste.Peer.Roles
