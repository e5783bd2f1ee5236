import CopyPaste.Merge.Comparator
import Mathlib

/-!
What one side of a session keeps of the summaries sent and received, what it asks
the peer for, and how far its cursor may move afterwards.
-/

namespace CopyPaste.Peer.Plan

open Lib.Rows Merge.Comparator

def maxRequestIdsPerMessage : Nat := 1000

/-- How far in the future a peer's stamp may lie: a day. -/
def maxFutureSkewMs : Int := 24 * 60 * 60 * 1000

def maxStamp : Int := 2 ^ 63 - 1

/-- A version crosses a cursor by the later of its two stamps. -/
def summaryKey (summary : ItemSummary) : Int :=
  max summary.createdAt summary.pinUpdatedAt

/-- What a session moved and what it declined. -/
structure SyncStats where
  sent : Nat := 0
  received : Nat := 0
  skipped : Nat := 0
  skippedTooLarge : Nat := 0
  skippedUnavailable : Nat := 0
  skippedInvalid : Nat := 0
  skippedFuture : Nat := 0
  deferred : Nat := 0
  deriving DecidableEq, Repr

/-- The summaries of one session: those sent, this device's own versions of the
ids received, and those received in wire order; then what planning wants of them
and what it leaves for later. -/
structure SummaryWorkspace where
  advertised : List ItemSummary := []
  comparison : List ItemSummary := []
  remote : List ItemSummary := []
  wanted : List ItemSummary := []
  deferred : List String := []
  deriving DecidableEq, Repr

namespace SummaryWorkspace

def addAdvertised (workspace : SummaryWorkspace) (items : List ItemSummary) : SummaryWorkspace :=
  { workspace with advertised := items.foldl (put ItemSummary.itemId) workspace.advertised }

def addComparison (workspace : SummaryWorkspace) (items : List ItemSummary) : SummaryWorkspace :=
  { workspace with comparison := items.foldl (put ItemSummary.itemId) workspace.comparison }

def addRemote (workspace : SummaryWorkspace) (items : List ItemSummary) : SummaryWorkspace :=
  { workspace with remote := workspace.remote ++ items }

def remoteWins (workspace : SummaryWorkspace) (item : ItemSummary) : Bool :=
  (lookup ItemSummary.itemId workspace.comparison item.itemId).all fun mine =>
    remoteVersionWins mine item

/-- Want a version, unless one of the same id that it does not beat is wanted. -/
def considerWanted (workspace : SummaryWorkspace) (item : ItemSummary) : SummaryWorkspace × Bool :=
  if (lookup ItemSummary.itemId workspace.wanted item.itemId).any fun seen =>
      mergeDecisionBySummary seen item ≠ .takeRemote then (workspace, false)
  else ({ workspace with wanted := put ItemSummary.itemId workspace.wanted item }, true)

def defer (workspace : SummaryWorkspace) (id : String) : SummaryWorkspace :=
  { workspace with deferred := id :: workspace.deferred }

/-- Keep the newest of the wanted versions and leave the rest for later. The hash
map lists its entries in an order of its own. -/
def finishPlan (arrange : List ItemSummary → List ItemSummary) (workspace : SummaryWorkspace)
    (limit : Nat) : SummaryWorkspace × List ItemSummary × Nat :=
  let ordered := (arrange workspace.wanted).insertionSort fun a b => b.createdAt ≤ a.createdAt
  ({ workspace with
      deferred := (ordered.drop limit).map ItemSummary.itemId ++ workspace.deferred },
    ordered.take limit, ordered.length - limit)

/-- One version offered by the peer: too far in the future, not better than the
local one, not better than another of its id, or wanted. -/
def planRow (ceiling : Int) (planned : SummaryWorkspace × SyncStats) (summary : ItemSummary) :
    SummaryWorkspace × SyncStats :=
  let (workspace, stats) := planned
  if ceiling < summaryKey summary then
    (workspace.defer summary.itemId,
      { stats with skipped := stats.skipped + 1, skippedFuture := stats.skippedFuture + 1 })
  else if !workspace.remoteWins summary then
    (workspace, { stats with skipped := stats.skipped + 1 })
  else
    let (workspace, taken) := workspace.considerWanted summary
    (workspace, if taken then stats else { stats with skipped := stats.skipped + 1 })

/-- Decide what to ask the peer for, from the summaries alone. -/
def planWorkspace (arrange : List ItemSummary → List ItemSummary) (workspace : SummaryWorkspace)
    (now : Int) (stats : SyncStats) : SummaryWorkspace × List ItemSummary × SyncStats :=
  let ceiling := min (now + maxFutureSkewMs) maxStamp
  let (workspace, stats) := workspace.remote.foldl (planRow ceiling) (workspace, stats)
  let (workspace, selected, dropped) := workspace.finishPlan arrange maxRequestIdsPerMessage
  (workspace, selected,
    { stats with skipped := stats.skipped + dropped, deferred := stats.deferred + dropped })

/-- Left for a later session, or asked for and not delivered. -/
def unresolved (workspace : SummaryWorkspace) (wanted : List ItemSummary)
    (attempted : List String) (id : String) : Bool :=
  id ∈ workspace.deferred || (id ∈ wanted.map ItemSummary.itemId && id ∉ attempted)

/-- The newest stamp reached, held at the oldest version still unresolved. -/
def watermark (previous : Int) (workspace : SummaryWorkspace) (wanted : List ItemSummary)
    (attempted : List String) : Int :=
  let (reached, blocked) := workspace.remote.foldl (fun (reached, blocked) summary =>
      if workspace.unresolved wanted attempted summary.itemId then
        (reached, min blocked (summaryKey summary))
      else (max reached (summaryKey summary), blocked))
    (previous, maxStamp)
  min reached blocked

theorem remote_planRow (ceiling : Int) (planned : SummaryWorkspace × SyncStats)
    (summary : ItemSummary) : (planRow ceiling planned summary).1.remote = planned.1.remote := by
  unfold planRow
  dsimp only
  split
  · rfl
  split
  · rfl
  unfold considerWanted
  split <;> rfl

/-- Planning leaves the summaries as they were received. -/
theorem remote_planWorkspace (arrange : List ItemSummary → List ItemSummary)
    (workspace : SummaryWorkspace) (now : Int) (stats : SyncStats) :
    (workspace.planWorkspace arrange now stats).1.remote = workspace.remote := by
  have hfold : ∀ (ceiling : Int) (rows : List ItemSummary) (planned : SummaryWorkspace × SyncStats),
      (rows.foldl (planRow ceiling) planned).1.remote = planned.1.remote := by
    intro ceiling rows
    induction rows with
    | nil => exact fun planned => rfl
    | cons row rest ih =>
      intro planned
      rw [List.foldl_cons, ih, remote_planRow]
  exact hfold _ workspace.remote (workspace, stats)

theorem wanted_planRow {ceiling : Int} {planned : SummaryWorkspace × SyncStats}
    {summary item : ItemSummary} (h : item ∈ (planRow ceiling planned summary).1.wanted) :
    item ∈ planned.1.wanted ∨ item = summary := by
  unfold planRow considerWanted at h
  dsimp only at h
  split at h
  · exact .inl h
  split at h
  · exact .inl h
  split at h
  · exact .inl h
  · rcases (mem_put _ _ _).1 h with ⟨hold, -⟩ | hnew
    · exact .inl hold
    · exact .inr hnew

theorem wanted_foldl_planRow {ceiling : Int} (rows : List ItemSummary)
    {planned : SummaryWorkspace × SyncStats} {item : ItemSummary}
    (h : item ∈ (rows.foldl (planRow ceiling) planned).1.wanted) :
    item ∈ planned.1.wanted ∨ item ∈ rows := by
  induction rows generalizing planned with
  | nil => exact .inl h
  | cons row rest ih =>
    rcases ih h with hfirst | hrest
    · rcases wanted_planRow hfirst with hold | rfl
      · exact .inl hold
      · exact .inr List.mem_cons_self
    · exact .inr (List.mem_cons_of_mem _ hrest)

/-- What is asked for was received, and is no more than one message names. -/
theorem selected_planWorkspace {arrange : List ItemSummary → List ItemSummary}
    (harrange : ∀ rows, (arrange rows).Perm rows) {workspace : SummaryWorkspace}
    (hwanted : workspace.wanted = []) (now : Int) (stats : SyncStats) :
    (∀ item ∈ (workspace.planWorkspace arrange now stats).2.1, item ∈ workspace.remote) ∧
      (workspace.planWorkspace arrange now stats).2.1.length ≤ maxRequestIdsPerMessage := by
  refine ⟨fun item hitem => ?_, List.length_take_le _ _⟩
  have hordered := List.mem_of_mem_take (show item ∈ List.take _ _ from hitem)
  have harranged := (List.perm_insertionSort _ _).mem_iff.1 hordered
  rcases wanted_foldl_planRow workspace.remote ((harrange _).mem_iff.1 harranged) with hold | hrow
  · rw [hwanted] at hold
    exact absurd hold List.not_mem_nil
  · exact hrow

end SummaryWorkspace

end CopyPaste.Peer.Plan
