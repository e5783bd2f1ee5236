import CopyPaste.Lib.Keyset
import CopyPaste.Lib.Rows
import Mathlib.Data.List.Perm.Subperm

/-!
The record of local rows that would not open for upload. A bounded list of ids
is retried by direct lookup; rows the list has no room for leave a sweep behind,
a keyset cursor that walks the region they were last seen in and wraps when it
reaches the upload floor. The persisted text is modelled by what parsing makes
of it: nothing, something malformed, or a parsed record.
-/

namespace CopyPaste.Upload.Record

open Lib.Keyset

abbrev UploadFloor := Position String

def UploadFloor.default : UploadFloor := ⟨0, none⟩

def maxUnreadableTracked : Nat := 256

def u32Max : Nat := 2 ^ 32 - 1

/-- Where the walk over untracked unreadable rows stands. Both positions are
exclusive; `fromPos` is the field `from` of the source. -/
structure Sweep where
  fromPos : UploadFloor
  next : UploadFloor
  seen : Nat
  settled : Nat
  deriving DecidableEq, Repr

/-- The backlog the walk can still prove: a finished cycle speaks at its
boundary, the cycle under way elsewhere. -/
def Sweep.proven (sweep : Sweep) : Nat :=
  if sweep.next = sweep.fromPos then sweep.settled else sweep.seen

/-- The end of a cycle: the count is settled, the cursor wraps, and a walk that
counted nothing retires. -/
def Sweep.cycle (sweep : Sweep) : Option Sweep :=
  if 0 < sweep.seen then
    some { sweep with settled := sweep.seen, seen := 0, next := sweep.fromPos }
  else
    none

/-- Local rows this device could not open for upload. The ids are a sorted list
without repetitions. -/
structure UnreadableUploads where
  ids : List String := []
  total : Nat := 0
  sweep : Option Sweep := none
  resetFloor : Bool := false
  deriving DecidableEq, Repr

/-- The persisted fields. -/
structure Persisted where
  ids : List String
  total : Nat
  sweep : Option Sweep
  deriving DecidableEq, Repr

/-- The stored text, by what parsing it gives. -/
inductive RawRecord
  | missing
  | malformed
  | parsed (persisted : Persisted)
  deriving DecidableEq, Repr

def insertId (ids : List String) (id : String) : List String :=
  if id ∈ ids then ids else ids.orderedInsert (· ≤ ·) id

namespace UnreadableUploads

/-- A missing record is none seen; a malformed one has lost its ids and asks
for a rescan from the start. -/
def decode : RawRecord → UnreadableUploads
  | .missing => {}
  | .malformed => { resetFloor := true }
  | .parsed persisted =>
    { ids := persisted.ids.foldl insertId []
      total := persisted.total
      sweep := persisted.sweep
      resetFloor := false }

def encode (unreadable : UnreadableUploads) : RawRecord :=
  .parsed ⟨unreadable.ids, unreadable.total, unreadable.sweep⟩

/-- Record an id for retry; the flag is false when the bound is full. -/
def track (unreadable : UnreadableUploads) (id : String) : UnreadableUploads × Bool :=
  if maxUnreadableTracked ≤ unreadable.ids.length then
    (unreadable, false)
  else
    ({ unreadable with ids := insertId unreadable.ids id }, true)

/-- Make the sweep reach back to the position before a row left behind. -/
def sweepFrom (unreadable : UnreadableUploads) (behind : UploadFloor) : UnreadableUploads :=
  match unreadable.sweep with
  | some sweep =>
    if sweep.fromPos ≤ behind then unreadable
    else { unreadable with sweep := some { sweep with next := behind, fromPos := behind } }
  | none => { unreadable with sweep := some ⟨behind, behind, 0, 0⟩ }

/-- The id list has first claim on a row the walk found unreadable. -/
def recordWalked (unreadable : UnreadableUploads) (id : String) (sweep : Sweep) :
    UnreadableUploads × Sweep :=
  match unreadable.track id with
  | (tracked, true) => (tracked, sweep)
  | (same, false) => (same, { sweep with seen := min (sweep.seen + 1) u32Max })

def settleTotal (unreadable : UnreadableUploads) : UnreadableUploads :=
  let backlog := match unreadable.sweep with
    | some sweep => sweep.proven
    | none => 0
  { unreadable with total := min (min unreadable.ids.length u32Max + backlog) u32Max }

end UnreadableUploads

open UnreadableUploads

@[simp]
theorem mem_insertId (ids : List String) (id x : String) :
    x ∈ insertId ids id ↔ x = id ∨ x ∈ ids := by
  unfold insertId
  split
  · rename_i h
    constructor
    · exact Or.inr
    · rintro (rfl | hx)
      · exact h
      · exact hx
  · simp

theorem nodup_insertId (ids : List String) (id : String) (h : ids.Nodup) :
    (insertId ids id).Nodup := by
  unfold insertId
  split
  · exact h
  · rename_i hid
    refine ((List.perm_orderedInsert _ id ids).nodup_iff).2 ?_
    exact List.nodup_cons.2 ⟨hid, h⟩

theorem length_insertId_le (ids : List String) (id : String) :
    (insertId ids id).length ≤ ids.length + 1 := by
  unfold insertId
  split
  · omega
  · simp [List.orderedInsert_length]

/-- The ids are distinct and within the bound, and the walk never starts past
where it resumes. -/
structure UnreadableUploads.WellFormed (unreadable : UnreadableUploads) : Prop where
  nodup : unreadable.ids.Nodup
  bounded : unreadable.ids.length ≤ maxUnreadableTracked
  ordered : ∀ sweep ∈ unreadable.sweep, sweep.fromPos ≤ sweep.next

/-- The region a sweep will still walk: what lies ahead of its cursor, and, when
the cycle under way counted a row and so will wrap, all of it from the start. -/
def Sweep.Walks (sweep : Sweep) (key : UploadFloor) : Prop :=
  sweep.next < key ∨ sweep.fromPos < key ∧ 0 < sweep.seen

def UnreadableUploads.Sweeps (unreadable : UnreadableUploads) (key : UploadFloor) : Prop :=
  ∃ sweep ∈ unreadable.sweep, sweep.Walks key

instance (sweep : Sweep) (key : UploadFloor) : Decidable (sweep.Walks key) := by
  unfold Sweep.Walks
  infer_instance

instance (unreadable : UnreadableUploads) (key : UploadFloor) :
    Decidable (unreadable.Sweeps key) :=
  decidable_of_iff (unreadable.sweep.any fun sweep => sweep.Walks key) (by
    cases hsweep : unreadable.sweep <;> simp [Sweeps, hsweep])

theorem wellFormed_default : WellFormed {} :=
  ⟨List.nodup_nil, by simp, by simp⟩

private theorem foldl_insertId (new ids : List String) (h : ids.Nodup) :
    (new.foldl insertId ids).Nodup ∧ (new.foldl insertId ids).length ≤ ids.length + new.length ∧
      ∀ x, x ∈ new.foldl insertId ids ↔ x ∈ new ∨ x ∈ ids := by
  induction new generalizing ids with
  | nil => simpa using h
  | cons id rest ih =>
    obtain ⟨hnodup, hlength, hmem⟩ := ih (insertId ids id) (nodup_insertId ids id h)
    have hstep := length_insertId_le ids id
    refine ⟨hnodup, ?_, ?_⟩
    · simp only [List.foldl_cons, List.length_cons]
      omega
    · intro x
      simp only [List.foldl_cons, hmem, mem_insertId, List.mem_cons]
      tauto

/-- Persisting and decoding keeps the ids as a set and the sweep. -/
theorem mem_decode_encode_ids (unreadable : UnreadableUploads) (x : String) :
    x ∈ (decode unreadable.encode).ids ↔ x ∈ unreadable.ids := by
  simpa [decode, encode] using (foldl_insertId unreadable.ids [] List.nodup_nil).2.2 x

@[simp]
theorem decode_encode_sweep (unreadable : UnreadableUploads) :
    (decode unreadable.encode).sweep = unreadable.sweep := rfl

theorem wellFormed_decode_encode (unreadable : UnreadableUploads) (h : unreadable.WellFormed) :
    (decode unreadable.encode).WellFormed := by
  obtain ⟨hnodup, hlength, -⟩ := foldl_insertId unreadable.ids [] List.nodup_nil
  refine ⟨hnodup, ?_, h.ordered⟩
  have hbound := h.bounded
  simp only [List.length_nil, Nat.zero_add] at hlength
  exact hlength.trans hbound

theorem sweeps_decode_encode (unreadable : UnreadableUploads) (key : UploadFloor) :
    (decode unreadable.encode).Sweeps key ↔ unreadable.Sweeps key := Iff.rfl

section Track

variable (unreadable : UnreadableUploads) (id : String)

@[simp]
theorem track_sweep : (unreadable.track id).1.sweep = unreadable.sweep := by
  unfold track
  split <;> rfl

theorem mem_track_of_mem {x : String} (h : x ∈ unreadable.ids) :
    x ∈ (unreadable.track id).1.ids := by
  unfold track
  split
  · exact h
  · simp [h]

theorem mem_of_mem_track {x : String} (h : x ∈ (unreadable.track id).1.ids) :
    x = id ∨ x ∈ unreadable.ids := by
  unfold track at h
  split at h
  · exact Or.inr h
  · simpa using h

theorem mem_track_of_ok (h : (unreadable.track id).2 = true) :
    id ∈ (unreadable.track id).1.ids := by
  unfold track at h ⊢
  split at h
  · simp at h
  · rename_i hlt
    simp [hlt]

theorem track_full (h : (unreadable.track id).2 = false) :
    maxUnreadableTracked ≤ unreadable.ids.length ∧ (unreadable.track id).1 = unreadable := by
  unfold track at h ⊢
  split at h
  · rename_i hle
    simp [hle]
  · simp at h

variable {unreadable}

theorem wellFormed_track (h : unreadable.WellFormed) : (unreadable.track id).1.WellFormed := by
  unfold track
  split
  · exact h
  · rename_i hlt
    refine ⟨nodup_insertId _ _ h.nodup, ?_, h.ordered⟩
    have := length_insertId_le unreadable.ids id
    simp only at this ⊢
    omega

theorem sweeps_track {key : UploadFloor} :
    (unreadable.track id).1.Sweeps key ↔ unreadable.Sweeps key := by
  simp [Sweeps]

/-- An id of a bounded list that is being collected again always finds room. -/
theorem mem_track_of_subset (h : unreadable.ids.Nodup) {bound : List String}
    (hsub : unreadable.ids ⊆ bound) (hbound : bound.length ≤ maxUnreadableTracked)
    (hid : id ∈ bound) : id ∈ (unreadable.track id).1.ids := by
  cases hok : (unreadable.track id).2 with
  | true => exact mem_track_of_ok unreadable id hok
  | false =>
    obtain ⟨hfull, hsame⟩ := track_full unreadable id hok
    rw [hsame]
    have hperm : unreadable.ids.Perm bound :=
      (List.subperm_of_subset h hsub).perm_of_length_le (hbound.trans hfull)
    exact hperm.mem_iff.2 hid

end Track

section SweepFrom

variable {unreadable : UnreadableUploads} {behind key : UploadFloor}

@[simp]
theorem sweepFrom_ids : (unreadable.sweepFrom behind).ids = unreadable.ids := by
  unfold sweepFrom
  split
  · split <;> rfl
  · rfl

theorem wellFormed_sweepFrom (h : unreadable.WellFormed) :
    (unreadable.sweepFrom behind).WellFormed := by
  refine ⟨by simpa using h.nodup, by simpa using h.bounded, ?_⟩
  unfold sweepFrom
  split
  · split
    · exact h.ordered
    · simp
  · simp

/-- Reaching further back never gives up a position. -/
theorem sweeps_sweepFrom (h : unreadable.WellFormed) (hkey : unreadable.Sweeps key) :
    (unreadable.sweepFrom behind).Sweeps key := by
  obtain ⟨sweep, hsweep, hwalks⟩ := hkey
  have hsome : unreadable.sweep = some sweep := hsweep
  unfold sweepFrom
  rw [hsome]
  simp only
  split
  · exact ⟨sweep, hsweep, hwalks⟩
  · rename_i hlt
    refine ⟨_, rfl, Or.inl ?_⟩
    have hordered := h.ordered sweep hsweep
    rcases hwalks with hnext | ⟨hfrom, _⟩
    · exact lt_of_lt_of_le (not_le.1 hlt) (hordered.trans hnext.le)
    · exact (not_le.1 hlt).trans hfrom

/-- After reaching back, the rows past the position are swept, provided an
older sweep that stays as it is has not yet gone beyond it. -/
theorem sweepFrom_sweeps
    (hnext : ∀ sweep ∈ unreadable.sweep, sweep.fromPos ≤ behind → sweep.next ≤ behind)
    (hkey : behind < key) : (unreadable.sweepFrom behind).Sweeps key := by
  unfold sweepFrom
  split
  · rename_i sweep hsome
    split
    · rename_i hle
      exact ⟨sweep, hsome, Or.inl ((hnext sweep hsome hle).trans_lt hkey)⟩
    · exact ⟨_, rfl, Or.inl hkey⟩
  · exact ⟨_, rfl, Or.inl hkey⟩

end SweepFrom

end CopyPaste.Upload.Record
