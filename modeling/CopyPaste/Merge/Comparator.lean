import CopyPaste.Upload.Scanning
import Mathlib

/-!
Which of two versions of one item survives. Content versions compare by stamp,
content hash, deletion and origin; pin states compare by their own stamp, origin,
flag and order. Both comparisons are strict, so equal versions keep the local one.
-/

namespace CopyPaste.Merge.Comparator

/-- A pin order by its place in the total order of doubles. -/
abbrev PinOrder := Int

/-- What a session or a merge reads of a version: the merge keys and the pin
state. -/
structure ItemSummary where
  itemId : String
  createdAt : Int
  deleted : Bool
  contentHash : String
  originDeviceId : String
  pinned : Bool
  pinOrder : Option PinOrder
  pinUpdatedAt : Int
  deriving DecidableEq, Repr

inductive MergeDecision
  | keepLocal
  | takeRemote
  deriving DecidableEq, Repr

private def decideBy {α : Type} [Ord α] (mine theirs : α) : Option MergeDecision :=
  match compare theirs mine with
  | .gt => some .takeRemote
  | .lt => some .keepLocal
  | .eq => none

/-- Picks the winner between two versions of the same item: the first key that
differs decides, and equal versions keep the local one. -/
def mergeDecision (mine : ItemSummary) (localOrigin : String) (theirs : ItemSummary)
    (remoteOrigin : String) : MergeDecision :=
  (decideBy mine.createdAt theirs.createdAt
    |>.or (decideBy mine.contentHash theirs.contentHash)
    |>.or (decideBy mine.deleted theirs.deleted)
    |>.or (decideBy localOrigin remoteOrigin)).getD .keepLocal

def mergeDecisionBySummary (mine theirs : ItemSummary) : MergeDecision :=
  mergeDecision mine mine.originDeviceId theirs theirs.originDeviceId

/-- Whether a pin state replaces the local one. -/
def pinStateWins (mine theirs : ItemSummary) : Bool :=
  (compare theirs.pinUpdatedAt mine.pinUpdatedAt
    |>.then (compare theirs.originDeviceId mine.originDeviceId)
    |>.then (compare theirs.pinned mine.pinned)
    |>.then (match theirs.pinOrder, mine.pinOrder with
      | some a, some b => compare a b
      | some _, none => .gt
      | none, some _ => .lt
      | none, none => .eq)).isGT

/-- Whether planning asks for the remote version: its content wins, or both are
live and its pin state wins. -/
def remoteVersionWins (mine theirs : ItemSummary) : Bool :=
  mergeDecisionBySummary mine theirs = .takeRemote ||
    (!mine.deleted && !theirs.deleted && pinStateWins mine theirs)

/-- The four merge keys, in the order they decide. -/
abbrev VersionKey := Int ×ₗ String ×ₗ Bool ×ₗ String

def versionKey (createdAt : Int) (contentHash : String) (deleted : Bool) (origin : String) :
    VersionKey :=
  toLex (createdAt, toLex (contentHash, toLex (deleted, origin)))

def ItemSummary.key (summary : ItemSummary) : VersionKey :=
  versionKey summary.createdAt summary.contentHash summary.deleted summary.originDeviceId

theorem versionKey_lt_iff (c c' : Int) (h h' : String) (d d' : Bool) (o o' : String) :
    versionKey c h d o < versionKey c' h' d' o' ↔
      c < c' ∨ c = c' ∧ (h < h' ∨ h = h' ∧ (d < d' ∨ d = d' ∧ o < o')) := by
  simp [versionKey, Prod.Lex.toLex_lt_toLex]

theorem versionKey_inj {c c' : Int} {h h' : String} {d d' : Bool} {o o' : String} :
    versionKey c h d o = versionKey c' h' d' o' ↔ c = c' ∧ h = h' ∧ d = d' ∧ o = o' := by
  simp [versionKey]

private theorem decideBy_or_iff {α : Type} [LinearOrder α] (mine theirs : α)
    (rest : Option MergeDecision) :
    ((decideBy mine theirs).or rest).getD .keepLocal = .takeRemote ↔
      mine < theirs ∨ mine = theirs ∧ rest.getD .keepLocal = .takeRemote := by
  unfold decideBy
  rcases lt_trichotomy mine theirs with hlt | heq | hgt
  · simp [compare_gt_iff_gt.2 hlt, hlt]
  · simp [heq]
  · simp [compare_lt_iff_lt.2 hgt, hgt.not_gt, hgt.ne']

/-- The comparator is the lexicographic order of the four keys. -/
theorem mergeDecision_takeRemote_iff (mine theirs : ItemSummary) (mineOrigin theirOrigin : String) :
    mergeDecision mine mineOrigin theirs theirOrigin = .takeRemote ↔
      versionKey mine.createdAt mine.contentHash mine.deleted mineOrigin <
        versionKey theirs.createdAt theirs.contentHash theirs.deleted theirOrigin := by
  have hlast : (decideBy mineOrigin theirOrigin).getD .keepLocal = .takeRemote ↔
      mineOrigin < theirOrigin := by
    simpa using decideBy_or_iff mineOrigin theirOrigin none
  rw [versionKey_lt_iff, mergeDecision, Option.or_assoc, Option.or_assoc, decideBy_or_iff,
    decideBy_or_iff, decideBy_or_iff, hlast]

theorem mergeDecision_keepLocal_iff (mine theirs : ItemSummary) (mineOrigin theirOrigin : String) :
    mergeDecision mine mineOrigin theirs theirOrigin = .keepLocal ↔
      versionKey theirs.createdAt theirs.contentHash theirs.deleted theirOrigin ≤
        versionKey mine.createdAt mine.contentHash mine.deleted mineOrigin := by
  rw [← not_lt, ← mergeDecision_takeRemote_iff]
  cases mergeDecision mine mineOrigin theirs theirOrigin <;> simp

theorem mergeDecisionBySummary_takeRemote_iff (mine theirs : ItemSummary) :
    mergeDecisionBySummary mine theirs = .takeRemote ↔ mine.key < theirs.key :=
  mergeDecision_takeRemote_iff mine theirs mine.originDeviceId theirs.originDeviceId

/-- The keys of a pin state, in the order they decide; no order sorts first. -/
abbrev PinKey := Int ×ₗ String ×ₗ Bool ×ₗ WithBot PinOrder

def pinRank : Option PinOrder → WithBot PinOrder
  | none => ⊥
  | some order => order

theorem pinRank_injective : Function.Injective pinRank := by
  intro a b h
  cases a <;> cases b <;> simp_all [pinRank]

def pinKey (pinUpdatedAt : Int) (origin : String) (pinned : Bool) (pinOrder : Option PinOrder) :
    PinKey :=
  toLex (pinUpdatedAt, toLex (origin, toLex (pinned, pinRank pinOrder)))

def ItemSummary.pinKey (summary : ItemSummary) : PinKey :=
  Comparator.pinKey summary.pinUpdatedAt summary.originDeviceId summary.pinned summary.pinOrder

private theorem pinOrder_gt_iff (theirs mine : Option PinOrder) :
    (match theirs, mine with
      | some a, some b => compare a b
      | some _, none => .gt
      | none, some _ => .lt
      | none, none => .eq) = Ordering.gt ↔ pinRank mine < pinRank theirs := by
  cases theirs with
  | none => cases mine <;> simp [pinRank]
  | some a =>
    cases mine with
    | none => simp [pinRank]
    | some b =>
      rw [compare_gt_iff_gt]
      exact WithBot.coe_lt_coe.symm

private theorem then_gt_iff {α : Type} [LinearOrder α] (mine theirs : α) (rest : Ordering) :
    (compare theirs mine).then rest = .gt ↔ mine < theirs ∨ mine = theirs ∧ rest = .gt := by
  rcases lt_trichotomy mine theirs with hlt | heq | hgt
  · simp [compare_gt_iff_gt.2 hlt, hlt]
  · simp [heq]
  · simp [compare_lt_iff_lt.2 hgt, hgt.not_gt, hgt.ne']

/-- So is the comparison of pin states, over their own keys. -/
theorem pinStateWins_iff (mine theirs : ItemSummary) :
    pinStateWins mine theirs = true ↔ mine.pinKey < theirs.pinKey := by
  have hgt : ∀ o : Ordering, o.isGT = true ↔ o = .gt := by decide
  have hassoc : ∀ a b c : Ordering, (a.then b).then c = a.then (b.then c) := by decide
  unfold pinStateWins ItemSummary.pinKey Comparator.pinKey
  rw [hgt, hassoc, hassoc, then_gt_iff, then_gt_iff, then_gt_iff, pinOrder_gt_iff]
  simp only [Prod.Lex.toLex_lt_toLex]

end CopyPaste.Merge.Comparator
