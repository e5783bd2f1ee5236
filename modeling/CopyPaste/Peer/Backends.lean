import CopyPaste.Wire.Codec

/-!
The workspaces a session may keep its summaries in: maps in memory, tables of a
scratch database, and the one that starts in memory and moves to the database when
its pages outgrow the budget. Planning and the watermark read any of them page by
page. The planner over plain maps, which the paged one is tested against, stands last.
-/

namespace CopyPaste.Peer.Backends

open Lib.Rows Merge.Comparator Plan Plan.SummaryWorkspace Wire.Messages
open Lib.JsonText Merge.Payload

/-- What a backend reports: a text of its own, or the code of a storage failure. -/
inductive WorkspaceError
  | source (text : String)
  | historyUnavailable
  | localPayloadInvalid
  deriving DecidableEq, Repr

abbrev Outcome := Except WorkspaceError

/-- The operations of a workspace. -/
structure Backend (W : Type) where
  addAdvertised : W → List ItemSummary → Outcome W
  addComparison : W → List ItemSummary → Outcome W
  addRemote : W → List ItemSummary → Outcome W
  remotePage : W → ℕ → ℕ → Outcome (List (ℕ × ItemSummary))
  advertised : W → String → Outcome (Option ItemSummary)
  comparison : W → String → Outcome (Option ItemSummary)
  wanted : W → String → Outcome (Option ItemSummary)
  setWanted : W → ItemSummary → Outcome W
  remoteWins : W → ItemSummary → Outcome Bool
  considerWanted : W → ItemSummary → Outcome (W × Bool)
  defer : W → String → Outcome W
  isDeferred : W → String → Outcome Bool
  finishPlan : W → ℕ → Outcome (W × List ItemSummary × ℕ)

/-- The orders in which the hash maps of one session list their entries. -/
structure HashOrder where
  advertised : List ItemSummary → List ItemSummary
  comparison : List ItemSummary → List ItemSummary
  wanted : List ItemSummary → List ItemSummary
  deferred : List String → List String
  planned : List ItemSummary → List ItemSummary
  advertised_perm : ∀ rows, (advertised rows).Perm rows
  comparison_perm : ∀ rows, (comparison rows).Perm rows
  wanted_perm : ∀ rows, (wanted rows).Perm rows
  deferred_perm : ∀ ids, (deferred ids).Perm ids
  planned_perm : ∀ rows, (planned rows).Perm rows

def memoryPage (remote : List ItemSummary) (after limit : ℕ) : List (ℕ × ItemSummary) :=
  ((remote.zipIdx.drop after).take limit).map fun (item, i) => (i + 1, item)

def memory (order : HashOrder) : Backend SummaryWorkspace where
  addAdvertised workspace items := .ok (workspace.addAdvertised items)
  addComparison workspace items := .ok (workspace.addComparison items)
  addRemote workspace items := .ok (workspace.addRemote items)
  remotePage workspace after limit := .ok (memoryPage workspace.remote after limit)
  advertised workspace id := .ok (lookup ItemSummary.itemId workspace.advertised id)
  comparison workspace id := .ok (lookup ItemSummary.itemId workspace.comparison id)
  wanted workspace id := .ok (lookup ItemSummary.itemId workspace.wanted id)
  setWanted workspace item :=
    .ok { workspace with wanted := put ItemSummary.itemId workspace.wanted item }
  remoteWins workspace item := .ok (workspace.remoteWins item)
  considerWanted workspace item := .ok (workspace.considerWanted item)
  defer workspace id := .ok (workspace.defer id)
  isDeferred workspace id := .ok (decide (id ∈ workspace.deferred))
  finishPlan workspace limit := .ok (workspace.finishPlan order.planned limit)

/-- The tables of the scratch database; `planning` says that a plan's transaction is
open. -/
structure DiskWorkspace where
  advertised : List (String × List UInt8) := []
  comparison : List (String × List UInt8) := []
  remote : List (ℕ × List UInt8) := []
  wanted : List (String × Int × List UInt8) := []
  deferred : List String := []
  planning : Bool := false
  deriving DecidableEq, Repr

/-- An unsigned 64-bit number taken as a signed one. -/
def castI64 (n : ℕ) : Int :=
  if n < 2 ^ 63 then n else n - 2 ^ 64

/-- `LIMIT`: a negative one is none. -/
def sqlLimit {α : Type} (limit : Int) (rows : List α) : List α :=
  if 0 ≤ limit then rows.take limit.toNat else rows

/-- `ORDER BY stamp DESC, id ASC` -/
def Younger (a b : String × Int × List UInt8) : Prop :=
  b.2.1 < a.2.1 ∨ a.2.1 = b.2.1 ∧ a.1 ≤ b.1

instance : DecidableRel Younger := fun a b =>
  inferInstanceAs (Decidable (b.2.1 < a.2.1 ∨ a.2.1 = b.2.1 ∧ a.1 ≤ b.1))

/-- The key a row gets when none is given. -/
def nextSeq (remote : List (ℕ × List UInt8)) : ℕ :=
  (remote.map Prod.fst).foldr max 0 + 1

/-- `INSERT OR IGNORE` -/
def insertIgnore (ids : List String) (id : String) : List String :=
  if id ∈ ids then ids else ids ++ [id]

/-- What the bodies of the scratch database are written and read with. -/
structure Texts where
  tokens : Tokens
  spelling : Spelling

section Disk

variable (libs : Texts)

def toVec (item : ItemSummary) : List UInt8 :=
  utf8 (String.ofList ((writeSummary item).write libs.tokens))

def fromSlice (body : List UInt8) : Outcome ItemSummary :=
  (((fromUtf8 body).bind fun text => parse libs.tokens text.toList).bind
    (readSummary libs.spelling)).elim (.error .localPayloadInvalid) .ok

namespace DiskWorkspace

/-- A transaction does not start inside another. -/
def transaction (disk : DiskWorkspace) (body : DiskWorkspace → DiskWorkspace) :
    Outcome DiskWorkspace :=
  if disk.planning then .error .historyUnavailable else .ok (body disk)

def beginPlan (disk : DiskWorkspace) : DiskWorkspace :=
  { disk with planning := true }

def summaryRow (item : ItemSummary) : String × List UInt8 :=
  (item.itemId, toVec libs item)

def wantedRow (item : ItemSummary) : String × Int × List UInt8 :=
  (item.itemId, item.createdAt, toVec libs item)

def insertRemote (remote : List (ℕ × List UInt8)) (item : ItemSummary) : List (ℕ × List UInt8) :=
  remote ++ [(nextSeq remote, toVec libs item)]

def addAdvertised (disk : DiskWorkspace) (items : List ItemSummary) : Outcome DiskWorkspace :=
  disk.transaction fun disk =>
    { disk with advertised := (items.map (summaryRow libs)).foldl (put Prod.fst) disk.advertised }

def addComparison (disk : DiskWorkspace) (items : List ItemSummary) : Outcome DiskWorkspace :=
  disk.transaction fun disk =>
    { disk with comparison := (items.map (summaryRow libs)).foldl (put Prod.fst) disk.comparison }

def addRemote (disk : DiskWorkspace) (items : List ItemSummary) : Outcome DiskWorkspace :=
  disk.transaction fun disk => { disk with remote := items.foldl (insertRemote libs) disk.remote }

def remotePage (disk : DiskWorkspace) (after limit : ℕ) : Outcome (List (ℕ × ItemSummary)) :=
  let rows := (disk.remote.filter fun row => castI64 after < row.1).insertionSort
    fun a b => a.1 ≤ b.1
  (sqlLimit (castI64 limit) rows).mapM fun row => do
    return (row.1, ← fromSlice libs row.2)

/-- `SELECT body … WHERE id = ?` -/
def get (table : List (String × List UInt8)) (id : String) : Outcome (Option ItemSummary) :=
  match lookup Prod.fst table id with
  | none => .ok none
  | some row => (fromSlice libs row.2).map some

def getWanted (disk : DiskWorkspace) (id : String) : Outcome (Option ItemSummary) :=
  get libs (disk.wanted.map fun row => (row.1, row.2.2)) id

def setWanted (disk : DiskWorkspace) (item : ItemSummary) : Outcome DiskWorkspace :=
  let disk := disk.beginPlan
  .ok { disk with wanted := put Prod.fst disk.wanted (wantedRow libs item) }

def remoteWins (disk : DiskWorkspace) (item : ItemSummary) : Outcome Bool := do
  match ← get libs disk.comparison item.itemId with
  | none => return true
  | some mine => return remoteVersionWins mine item

def considerWanted (disk : DiskWorkspace) (item : ItemSummary) : Outcome (DiskWorkspace × Bool) := do
  let seen ← disk.getWanted libs item.itemId
  if seen.any fun seen => mergeDecisionBySummary seen item ≠ .takeRemote then
    return (disk, false)
  return (← disk.setWanted libs item, true)

def defer (disk : DiskWorkspace) (id : String) : Outcome DiskWorkspace :=
  let disk := disk.beginPlan
  .ok { disk with deferred := insertIgnore disk.deferred id }

/-- Mark the wanted rows beyond the newest, read the newest, and commit. -/
def finishPlan (disk : DiskWorkspace) (limit : ℕ) :
    Outcome (DiskWorkspace × List ItemSummary × ℕ) := do
  let disk := disk.beginPlan
  let total := disk.wanted.length
  let newest := sqlLimit (castI64 limit) (disk.wanted.insertionSort Younger)
  let others := (disk.wanted.map Prod.fst).filter fun id => id ∉ newest.map Prod.fst
  let marked := others.foldl insertIgnore disk.deferred
  let selected ← newest.mapM fun row => fromSlice libs row.2.2
  return ({ disk with deferred := marked, planning := false }, selected, total - limit)

end DiskWorkspace

def disk : Backend DiskWorkspace where
  addAdvertised := DiskWorkspace.addAdvertised libs
  addComparison := DiskWorkspace.addComparison libs
  addRemote := DiskWorkspace.addRemote libs
  remotePage := DiskWorkspace.remotePage libs
  advertised workspace := DiskWorkspace.get libs workspace.advertised
  comparison workspace := DiskWorkspace.get libs workspace.comparison
  wanted := DiskWorkspace.getWanted libs
  setWanted := DiskWorkspace.setWanted libs
  remoteWins := DiskWorkspace.remoteWins libs
  considerWanted := DiskWorkspace.considerWanted libs
  defer := DiskWorkspace.defer
  isDeferred workspace id := .ok (decide (id ∈ workspace.deferred))
  finishPlan := DiskWorkspace.finishPlan libs

end Disk

def spillBatch : ℕ := 256

/-- Hand the rows over in bounded batches; `batch` is the one being filled. -/
def addInBatches {W : Type} (add : W → List ItemSummary → Outcome W) (target : W) :
    List ItemSummary → List ItemSummary → Outcome W
  | batch, [] => add target batch
  | batch, item :: rest =>
    if (batch ++ [item]).length = spillBatch then do
      addInBatches add (← add target (batch ++ [item])) [] rest
    else addInBatches add target (batch ++ [item]) rest

/-- Move a session in memory into another backend. -/
def spillInto {W : Type} (order : HashOrder) (backend : Backend W) (workspace : SummaryWorkspace)
    (target : W) : Outcome W := do
  let target ← addInBatches backend.addAdvertised target [] (order.advertised workspace.advertised)
  let target ← addInBatches backend.addComparison target [] (order.comparison workspace.comparison)
  let target ← addInBatches backend.addRemote target [] workspace.remote
  let target ← (order.wanted workspace.wanted).foldlM backend.setWanted target
  (order.deferred workspace.deferred.dedup).foldlM backend.defer target

inductive Workspace
  | memory (workspace : SummaryWorkspace)
  | disk (workspace : DiskWorkspace)
  | failed
  deriving DecidableEq, Repr

structure SpillingWorkspace where
  retained : ℕ := 0
  inner : Workspace := .memory {}
  deriving DecidableEq, Repr

def unavailable : String := "the sync session workspace is unavailable"

def usizeMax : ℕ := 2 ^ 64 - 1

def saturatingAdd (a b : ℕ) : ℕ := min (a + b) usizeMax

def saturatingMul (a b : ℕ) : ℕ := min (a * b) usizeMax

/-- What the spilling workspace is built over: the size the compiler gives a summary,
the pages memory may hold, and what opening the scratch database gives. -/
structure Spill where
  libs : Texts
  order : HashOrder
  summarySize : ℕ
  memoryBudget : ℕ
  newDisk : Outcome DiskWorkspace

namespace SpillingWorkspace

variable (spill : Spill)

def pageCost (items : List ItemSummary) : ℕ :=
  items.foldl (fun n item =>
    let size := saturatingAdd (saturatingAdd (saturatingAdd (saturatingAdd spill.summarySize
      item.itemId.utf8ByteSize) item.contentHash.utf8ByteSize) item.originDeviceId.utf8ByteSize) 128
    saturatingAdd n (saturatingMul size 3)) 0

/-- Count a page; the first one over the budget moves the session to the database. -/
def reservePage (workspace : SpillingWorkspace) (items : List ItemSummary) :
    Outcome SpillingWorkspace :=
  let retained := saturatingAdd workspace.retained (pageCost spill items)
  match workspace.inner with
  | .memory held =>
    if retained ≤ spill.memoryBudget then .ok { retained, inner := .memory held }
    else do
      let moved ← spillInto spill.order (Backends.disk spill.libs) held (← spill.newDisk)
      return { retained, inner := .disk moved }
  | inner => .ok { retained, inner }

def change (inMemory : SummaryWorkspace → Outcome SummaryWorkspace)
    (onDisk : DiskWorkspace → Outcome DiskWorkspace) (workspace : SpillingWorkspace) :
    Outcome SpillingWorkspace :=
  match workspace.inner with
  | .memory held => do return { workspace with inner := .memory (← inMemory held) }
  | .disk held => do return { workspace with inner := .disk (← onDisk held) }
  | .failed => .error (.source unavailable)

/-- Change the workspace that is in use and answer. -/
def update {α : Type} (inMemory : SummaryWorkspace → Outcome (SummaryWorkspace × α))
    (onDisk : DiskWorkspace → Outcome (DiskWorkspace × α)) (workspace : SpillingWorkspace) :
    Outcome (SpillingWorkspace × α) :=
  match workspace.inner with
  | .memory held => do
    let (held, answer) ← inMemory held
    return ({ workspace with inner := .memory held }, answer)
  | .disk held => do
    let (held, answer) ← onDisk held
    return ({ workspace with inner := .disk held }, answer)
  | .failed => .error (.source unavailable)

def ask {α : Type} (inMemory : SummaryWorkspace → Outcome α) (onDisk : DiskWorkspace → Outcome α)
    (workspace : SpillingWorkspace) : Outcome α :=
  match workspace.inner with
  | .memory held => inMemory held
  | .disk held => onDisk held
  | .failed => .error (.source unavailable)

end SpillingWorkspace

open SpillingWorkspace in
def spilling (spill : Spill) : Backend SpillingWorkspace where
  addAdvertised workspace items := do
    change ((memory spill.order).addAdvertised · items) ((disk spill.libs).addAdvertised · items)
      (← workspace.reservePage spill items)
  addComparison workspace items := do
    change ((memory spill.order).addComparison · items) ((disk spill.libs).addComparison · items)
      (← workspace.reservePage spill items)
  addRemote workspace items := do
    change ((memory spill.order).addRemote · items) ((disk spill.libs).addRemote · items)
      (← workspace.reservePage spill items)
  remotePage workspace after limit :=
    workspace.ask ((memory spill.order).remotePage · after limit)
      ((disk spill.libs).remotePage · after limit)
  advertised workspace id :=
    workspace.ask ((memory spill.order).advertised · id) ((disk spill.libs).advertised · id)
  comparison workspace id :=
    workspace.ask ((memory spill.order).comparison · id) ((disk spill.libs).comparison · id)
  wanted workspace id :=
    workspace.ask ((memory spill.order).wanted · id) ((disk spill.libs).wanted · id)
  setWanted workspace item :=
    workspace.change ((memory spill.order).setWanted · item) ((disk spill.libs).setWanted · item)
  remoteWins workspace item :=
    workspace.ask ((memory spill.order).remoteWins · item) ((disk spill.libs).remoteWins · item)
  considerWanted workspace item :=
    workspace.update ((memory spill.order).considerWanted · item)
      ((disk spill.libs).considerWanted · item)
  defer workspace id :=
    workspace.change ((memory spill.order).defer · id) ((disk spill.libs).defer · id)
  isDeferred workspace id :=
    workspace.ask ((memory spill.order).isDeferred · id) ((disk spill.libs).isDeferred · id)
  finishPlan workspace limit :=
    workspace.update ((memory spill.order).finishPlan · limit)
      ((disk spill.libs).finishPlan · limit)

/-- A page of summaries on its way into a workspace. -/
inductive Feed
  | advertised (items : List ItemSummary)
  | comparison (items : List ItemSummary)
  | remote (items : List ItemSummary)

def Feed.items : Feed → List ItemSummary
  | .advertised items => items
  | .comparison items => items
  | .remote items => items

/-- A call made once the summaries are in. -/
inductive Call
  | advertised (id : String)
  | comparison (id : String)
  | wanted (id : String)
  | remotePage (after limit : ℕ)
  | remoteWins (item : ItemSummary)
  | isDeferred (id : String)
  | setWanted (item : ItemSummary)
  | considerWanted (item : ItemSummary)
  | defer (id : String)

inductive Answer
  | done
  | verdict (value : Bool)
  | summary (found : Option ItemSummary)
  | page (rows : List (ℕ × ItemSummary))
  deriving DecidableEq

section Calls

variable {W : Type} (backend : Backend W)

def Backend.feed (workspace : W) : Feed → Outcome W
  | .advertised items => backend.addAdvertised workspace items
  | .comparison items => backend.addComparison workspace items
  | .remote items => backend.addRemote workspace items

def Backend.feedAll (workspace : W) (feeds : List Feed) : Outcome W :=
  feeds.foldlM backend.feed workspace

def Backend.perform (workspace : W) : Call → Outcome (W × Answer)
  | .advertised id => do return (workspace, .summary (← backend.advertised workspace id))
  | .comparison id => do return (workspace, .summary (← backend.comparison workspace id))
  | .wanted id => do return (workspace, .summary (← backend.wanted workspace id))
  | .remotePage after limit => do
    return (workspace, .page (← backend.remotePage workspace after limit))
  | .remoteWins item => do return (workspace, .verdict (← backend.remoteWins workspace item))
  | .isDeferred id => do return (workspace, .verdict (← backend.isDeferred workspace id))
  | .setWanted item => do return (← backend.setWanted workspace item, .done)
  | .considerWanted item => do
    let (workspace, taken) ← backend.considerWanted workspace item
    return (workspace, .verdict taken)
  | .defer id => do return (← backend.defer workspace id, .done)

def Backend.performAll (workspace : W) : List Call → Outcome (W × List Answer)
  | [] => .ok (workspace, [])
  | call :: calls => do
    let (workspace, answer) ← backend.perform workspace call
    let (workspace, answers) ← Backend.performAll workspace calls
    return (workspace, answer :: answers)

end Calls

def scanPage : ℕ := 256

section Paged

variable {W : Type} (backend : Backend W)

/-- Take the received summaries page by page until a page is empty; `fuel` bounds the
number of pages. -/
def Backend.scan {S : Type} (row : W × S → ItemSummary → Outcome (W × S)) :
    ℕ → ℕ → W × S → Outcome (Option (W × S))
  | 0, _, _ => .ok none
  | fuel + 1, cursor, state => do
    let page ← backend.remotePage state.1 cursor scanPage
    if page.isEmpty then return some state
    let (cursor, state) ← page.foldlM
      (fun (_, state) (next, summary) => do return (next, ← row state summary)) (cursor, state)
    Backend.scan row fuel cursor state

def Backend.planRow (ceiling : Int) (planned : W × SyncStats) (summary : ItemSummary) :
    Outcome (W × SyncStats) := do
  let (workspace, stats) := planned
  if ceiling < summaryKey summary then
    return (← backend.defer workspace summary.itemId,
      { stats with skipped := stats.skipped + 1, skippedFuture := stats.skippedFuture + 1 })
  if !(← backend.remoteWins workspace summary) then
    return (workspace, { stats with skipped := stats.skipped + 1 })
  let (workspace, taken) ← backend.considerWanted workspace summary
  return (workspace, if taken then stats else { stats with skipped := stats.skipped + 1 })

/-- Plan a session over bounded pages. -/
def Backend.planWorkspace (fuel : ℕ) (workspace : W) (now : Int) (stats : SyncStats) :
    Outcome (Option (W × List ItemSummary × SyncStats)) := do
  let ceiling := min (now + maxFutureSkewMs) maxStamp
  match ← backend.scan (backend.planRow ceiling) fuel 0 (workspace, stats) with
  | none => return none
  | some (workspace, stats) =>
    let (workspace, selected, dropped) ← backend.finishPlan workspace maxRequestIdsPerMessage
    return some (workspace, selected.foldl (put ItemSummary.itemId) [],
      { stats with skipped := stats.skipped + dropped, deferred := stats.deferred + dropped })

def Backend.watermarkRow (wanted : List ItemSummary) (attempted : List String)
    (state : W × Int × Int) (summary : ItemSummary) : Outcome (W × Int × Int) := do
  let (workspace, reached, blocked) := state
  let unresolved := (← backend.isDeferred workspace summary.itemId) ||
    (lookup ItemSummary.itemId wanted summary.itemId).isSome && summary.itemId ∉ attempted
  return (workspace,
    if unresolved then (reached, min blocked (summaryKey summary))
    else (max reached (summaryKey summary), blocked))

def Backend.workspaceWatermark (fuel : ℕ) (previous : Int) (workspace : W)
    (wanted : List ItemSummary) (attempted : List String) : Outcome (Option Int) := do
  match ← backend.scan (backend.watermarkRow wanted attempted) fuel 0
    (workspace, previous, maxStamp) with
  | none => return none
  | some (_, reached, blocked) => return some (min reached blocked)

end Paged

/-- What the planner over plain maps decides. -/
structure Plan where
  wanted : List ItemSummary := []
  deferred : List String := []

def considerRow (mine : List ItemSummary) (ceiling : Int) (planned : Plan × SyncStats)
    (summary : ItemSummary) : Plan × SyncStats :=
  let (decided, stats) := planned
  if ceiling < summaryKey summary then
    ({ decided with deferred := summary.itemId :: decided.deferred },
      { stats with skipped := stats.skipped + 1, skippedFuture := stats.skippedFuture + 1 })
  else if !(lookup ItemSummary.itemId mine summary.itemId).all (remoteVersionWins · summary) then
    (decided, { stats with skipped := stats.skipped + 1 })
  else if (lookup ItemSummary.itemId decided.wanted summary.itemId).any fun seen =>
      mergeDecisionBySummary seen summary ≠ .takeRemote then
    (decided, { stats with skipped := stats.skipped + 1 })
  else ({ decided with wanted := put ItemSummary.itemId decided.wanted summary }, stats)

/-- Ask for no more than one session transfers, the newest first. -/
def cutPlan (arrange : List ItemSummary → List ItemSummary) (decided : Plan) (stats : SyncStats) :
    Plan × SyncStats :=
  if maxRequestIdsPerMessage < decided.wanted.length then
    let byAge := ((arrange decided.wanted).insertionSort fun a b => b.createdAt ≤ a.createdAt).take
      maxRequestIdsPerMessage
    let keep := (byAge.map ItemSummary.itemId).dedup
    let dropped := decided.wanted.length - keep.length
    ({ wanted := decided.wanted.filter fun item => item.itemId ∈ keep
       deferred := (decided.wanted.map ItemSummary.itemId).filter (· ∉ keep) ++ decided.deferred },
      { stats with skipped := stats.skipped + dropped, deferred := stats.deferred + dropped })
  else (decided, stats)

/-- Decide what to ask the peer for, over plain maps. -/
def plan (arrange : List ItemSummary → List ItemSummary) (mine remote : List ItemSummary)
    (now : Int) (stats : SyncStats) : Plan × SyncStats :=
  let ceiling := min (now + maxFutureSkewMs) maxStamp
  let (decided, stats) := remote.foldl (considerRow mine ceiling) ({}, stats)
  cutPlan arrange decided stats

def planWatermark (previous : Int) (remote : List ItemSummary) (planned : Plan)
    (attempted : List String) : Int :=
  let (reached, blocked) := remote.foldl (fun (reached, blocked) summary =>
      if summary.itemId ∈ planned.deferred ||
          (lookup ItemSummary.itemId planned.wanted summary.itemId).isSome &&
            summary.itemId ∉ attempted then
        (reached, min blocked (summaryKey summary))
      else (max reached (summaryKey summary), blocked))
    (previous, maxStamp)
  min reached blocked

end CopyPaste.Peer.Backends
