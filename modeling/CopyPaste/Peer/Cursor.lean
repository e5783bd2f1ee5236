import Mathlib.Data.Int.Order.Basic
import Mathlib.Order.MinMax

/-!
The sync cursors of one device: for each pairing how far it has read the peer's
history, and the stamp below the peer's own cursor from which it advertises again
because an older version arrived meanwhile.
-/

namespace CopyPaste.Peer.Cursor

/-- How far a session has read a peer, and from where it has to relay. -/
structure SyncCursor where
  sinceMs : Int := 0
  relayFloorMs : Option Int := none
  deriving DecidableEq, Repr

/-- The stamp a session advertises from, given the one the peer has read to. -/
def SyncCursor.advertiseFrom (cursor : SyncCursor) (peerSinceMs : Int) : Int :=
  max ((cursor.relayFloorMs.map fun floor => min floor peerSinceMs).getD peerSinceMs) 0

variable {κ : Type*}

/-- The record of each pairing a session was completed with. -/
abbrev CursorStore (κ : Type*) := κ → Option SyncCursor

namespace CursorStore

def get (cursors : CursorStore κ) (pairing : κ) : SyncCursor :=
  (cursors pairing).getD {}

/-- Lower a relay floor, unless the record itself has not read past it. -/
def lowered (floorMs : Int) (record : SyncCursor) : SyncCursor :=
  if record.sinceMs ≤ floorMs then record
  else
    { record with
      relayFloorMs := some ((record.relayFloorMs.map fun floor => min floor floorMs).getD floorMs) }

variable [DecidableEq κ]

def recordSession (cursors : CursorStore κ) (pairing : κ) (sinceMs : Int) : CursorStore κ :=
  Function.update cursors pairing (some ⟨max sinceMs 0, none⟩)

def noteWritten (cursors : CursorStore κ) (source : Option κ) (floorMs : Int) : CursorStore κ :=
  fun pairing =>
    if source = some pairing then cursors pairing else (cursors pairing).map (lowered floorMs)

/-- Lower every other peer's floor; the peer the version came from has it already. -/
def noteApplied (cursors : CursorStore κ) (source : κ) (floorMs : Int) : CursorStore κ :=
  cursors.noteWritten (some source) floorMs

/-- Lower every peer's floor: the version came from none of them. -/
def noteLocal (cursors : CursorStore κ) (floorMs : Int) : CursorStore κ :=
  cursors.noteWritten none floorMs

/-- What a completed session leaves. The floors of the other peers are lowered
before the record of this one is replaced. -/
def recordCursor (cursors : CursorStore κ) (pairing : κ) (sinceMs : Int)
    (appliedFloor : Option Int) : CursorStore κ :=
  ((appliedFloor.map (cursors.noteApplied pairing)).getD cursors).recordSession pairing sinceMs

theorem get_recordSession (cursors : CursorStore κ) (pairing : κ) (sinceMs : Int) :
    (cursors.recordSession pairing sinceMs).get pairing = ⟨max sinceMs 0, none⟩ := by
  simp [get, recordSession]

theorem get_recordSession_ne (cursors : CursorStore κ) {pairing other : κ} (h : other ≠ pairing)
    (sinceMs : Int) : (cursors.recordSession pairing sinceMs).get other = cursors.get other := by
  simp [get, recordSession, h]

@[simp]
theorem sinceMs_lowered (floorMs : Int) (record : SyncCursor) :
    (lowered floorMs record).sinceMs = record.sinceMs := by
  unfold lowered
  split <;> rfl

/-- Noting a version moves no cursor. -/
theorem sinceMs_noteWritten (cursors : CursorStore κ) (source : Option κ) (floorMs : Int)
    (pairing : κ) :
    ((cursors.noteWritten source floorMs).get pairing).sinceMs = (cursors.get pairing).sinceMs := by
  unfold get noteWritten
  by_cases h : source = some pairing
  · simp [h]
  · cases hrecord : cursors pairing <;> simp [h]

theorem sinceMs_recordCursor_ne (cursors : CursorStore κ) {pairing other : κ} (h : other ≠ pairing)
    (sinceMs : Int) (appliedFloor : Option Int) :
    ((cursors.recordCursor pairing sinceMs appliedFloor).get other).sinceMs =
      (cursors.get other).sinceMs := by
  unfold recordCursor
  rw [get_recordSession_ne _ h]
  cases appliedFloor with
  | none => rfl
  | some floor => exact sinceMs_noteWritten cursors (some pairing) floor other

end CursorStore

open CursorStore

/-- When a cursor lets a peer see a stamp: the peer has not read past it, or the
relay floor is at or below it. -/
theorem advertiseFrom_le_iff (cursor : SyncCursor) (peerSinceMs key : Int) :
    cursor.advertiseFrom peerSinceMs ≤ key ↔
      0 ≤ key ∧ (peerSinceMs ≤ key ∨ ∃ floor ∈ cursor.relayFloorMs, floor ≤ key) := by
  unfold SyncCursor.advertiseFrom
  rw [max_le_iff, and_comm]
  cases hfloor : cursor.relayFloorMs with
  | none => simp
  | some floor => simp [or_comm]

/-- Lowering a floor hides nothing. -/
theorem advertiseFrom_lowered_le (floorMs : Int) (record : SyncCursor) (peerSinceMs : Int) :
    (lowered floorMs record).advertiseFrom peerSinceMs ≤ record.advertiseFrom peerSinceMs := by
  rw [advertiseFrom_le_iff]
  have hrecord := (advertiseFrom_le_iff record peerSinceMs _).1 le_rfl
  refine ⟨hrecord.1, hrecord.2.imp_right ?_⟩
  rintro ⟨floor, hfloor, hle⟩
  unfold lowered
  split
  · exact ⟨floor, hfloor, hle⟩
  · refine ⟨min floor floorMs, by simp [Option.mem_def.1 hfloor], ?_⟩
    exact (min_le_left floor floorMs).trans hle

/-- A floor below the record's own cursor is reached. -/
theorem advertiseFrom_lowered_of_lt {floorMs : Int} {record : SyncCursor}
    (hlt : floorMs < record.sinceMs) (peerSinceMs : Int) {key : Int} (hkey : 0 ≤ key)
    (hle : floorMs ≤ key) : (lowered floorMs record).advertiseFrom peerSinceMs ≤ key := by
  rw [advertiseFrom_le_iff]
  refine ⟨hkey, Or.inr ?_⟩
  unfold lowered
  rw [if_neg (not_le.2 hlt)]
  cases hfloor : record.relayFloorMs with
  | none => exact ⟨floorMs, by simp, hle⟩
  | some floor => exact ⟨min floor floorMs, by simp, (min_le_right floor floorMs).trans hle⟩

section Noted

variable [DecidableEq κ]

theorem advertiseFrom_noteWritten_le (cursors : CursorStore κ) (source : Option κ) (floorMs : Int)
    (pairing : κ) (peerSinceMs : Int) :
    ((cursors.noteWritten source floorMs).get pairing).advertiseFrom peerSinceMs ≤
      (cursors.get pairing).advertiseFrom peerSinceMs := by
  unfold CursorStore.get noteWritten
  by_cases hsource : source = some pairing
  · rw [if_pos hsource]
  · rw [if_neg hsource]
    cases hrecord : cursors pairing with
    | none => simp
    | some record => exact advertiseFrom_lowered_le floorMs record peerSinceMs

theorem advertiseFrom_noteWritten_of_lt {cursors : CursorStore κ} {source : Option κ}
    {floorMs : Int} {pairing : κ} (hsource : source ≠ some pairing) {record : SyncCursor}
    (hrecord : record ∈ cursors pairing) (hlt : floorMs < record.sinceMs) (peerSinceMs : Int)
    {key : Int} (hkey : 0 ≤ key) (hle : floorMs ≤ key) :
    ((cursors.noteWritten source floorMs).get pairing).advertiseFrom peerSinceMs ≤ key := by
  have hget : (cursors.noteWritten source floorMs).get pairing = lowered floorMs record := by
    simp [CursorStore.get, noteWritten, hsource, Option.mem_def.1 hrecord]
  rw [hget]
  exact advertiseFrom_lowered_of_lt hlt peerSinceMs hkey hle

/-- A session with one peer hides nothing from another. -/
theorem advertiseFrom_recordCursor_le (cursors : CursorStore κ) {pairing other : κ}
    (h : other ≠ pairing) (sinceMs : Int) (appliedFloor : Option Int) (peerSinceMs : Int) :
    ((cursors.recordCursor pairing sinceMs appliedFloor).get other).advertiseFrom peerSinceMs ≤
      (cursors.get other).advertiseFrom peerSinceMs := by
  unfold recordCursor
  rw [get_recordSession_ne _ h]
  cases appliedFloor with
  | none => exact le_rfl
  | some floor => exact advertiseFrom_noteWritten_le cursors (some pairing) floor other peerSinceMs

end Noted

end CopyPaste.Peer.Cursor
