import CopyPaste.Lib.Best
import CopyPaste.Merge.Storage
import Mathlib

/-!
The system clipboard and what other devices send. One stamp stands for the last content the
clipboard took, from this device or from another; a received row is written to it only as
the newest of the history, and only above that stamp.
-/

namespace CopyPaste.Merge.InstantClipboard

open Lib.Best Payload Storage

/-- What one received row meets: the settings as the gate reads them, and what fails. -/
structure Call where
  row : ItemRow
  syncEnabled : Bool
  instantClipboard : Bool
  readsNewest : Bool
  readsStamp : Bool
  opens : Bool
  writes : Bool
  saves : Bool

structure Clipboard where
  store : Store
  /-- The stamp in the state of the device, where it holds a number. -/
  applied : Option Int

def newestLiveKey (store : Store) : Option (String × Int) :=
  ((store.items.filter fun row => !row.deleted).foldl
    (fun newest row => best (fun row : ItemRow => toLex (row.createdAt, row.id)) newest (some row))
    none).map fun row => (row.id, row.createdAt)

variable (host : Host)

/-- A secrecy action publishes metadata, not a new clipboard capture. -/
def secrecyAction (row : ItemRow) : Bool :=
  ((row.payloadMetadata.bind fun json => PayloadMetadata.fromJson host json row.contentType).bind
    PayloadMetadata.secretOverride).any fun choice => decide (row.createdAt ≤ choice.updatedAt)

def noteLocal (reads saves : Bool) (stamp : Int) (applied : Option Int) : Option Int :=
  if !reads then applied
  else if applied.any fun previous => decide (stamp ≤ previous) then applied
  else if saves then some stamp else applied

/-- Whether the row was written to the clipboard, and the stamp after it. -/
def apply (call : Call) (clipboard : Clipboard) : Bool × Option Int :=
  let refused := (false, clipboard.applied)
  if call.row.contentType = fileType then refused
  else if !call.syncEnabled || !call.instantClipboard || call.row.deleted then refused
  else if secrecyAction host call.row then refused
  else
    match if call.readsNewest then newestLiveKey clipboard.store else none with
    | none => refused
    | some (newestId, newestStamp) =>
      if newestId ≠ call.row.id ∨ newestStamp ≠ call.row.createdAt then refused
      else if !call.readsStamp then refused
      else if clipboard.applied.any fun stamp => decide (call.row.createdAt ≤ stamp) then refused
      else if !call.opens then refused
      else if call.writes then
        (true, if call.saves then some call.row.createdAt else clipboard.applied)
      else refused

/-- A capture or copy on this device, a received row, or any other change of the history. -/
inductive Event
  | noteLocal (reads saves : Bool) (stamp : Int)
  | received (call : Call)
  | changed (store : Store)

/-- A stamp the clipboard was given, and whether a received row was written for it. -/
structure Mark where
  stamp : Int
  native : Bool

def step (clipboard : Clipboard) : Event → Clipboard × List Mark
  | .noteLocal reads saves stamp =>
    ({ clipboard with applied := noteLocal reads saves stamp clipboard.applied }, [⟨stamp, false⟩])
  | .received call =>
    let (written, applied) := apply host call clipboard
    ({ clipboard with applied }, if written then [⟨call.row.createdAt, true⟩] else [])
  | .changed store => ({ clipboard with store }, [])

def run (clipboard : Clipboard) : List Event → Clipboard × List Mark
  | [] => (clipboard, [])
  | event :: rest =>
    let (middle, marks) := step host clipboard event
    let (after, more) := run middle rest
    (after, marks ++ more)

/-- The stamp is read where a local one is noted, and kept where there is a new one. -/
def Event.Saved : Event → Prop
  | .noteLocal reads saves _ => reads = true ∧ saves = true
  | .received call => call.saves = true
  | .changed _ => True

/-- What the row itself and the history say for writing it. -/
def Call.Wanted (call : Call) (store : Store) : Prop :=
  call.row.contentType ≠ fileType ∧ call.syncEnabled = true ∧ call.instantClipboard = true ∧
    call.row.deleted = false ∧ secrecyAction host call.row = false ∧ call.readsNewest = true ∧
    newestLiveKey store = some (call.row.id, call.row.createdAt) ∧ call.readsStamp = true ∧
    call.opens = true ∧ call.writes = true

variable {host} {clipboard : Clipboard} {call : Call} {event : Event} {events : List Event}

/-- A row is written when all that is said of it holds and its stamp is above the one kept. -/
theorem apply_iff (call : Call) (clipboard : Clipboard) :
    (apply host call clipboard).1 = true ↔ call.Wanted host clipboard.store ∧
      ∀ stamp ∈ clipboard.applied, stamp < call.row.createdAt := by
  constructor
  · intro h
    unfold apply at h
    dsimp only at h
    split at h
    · cases h
    rename_i hfile
    split at h
    · cases h
    rename_i hswitches
    split at h
    · cases h
    rename_i hsecrecy
    split at h
    · cases h
    rename_i newestId newestStamp hnewest
    split at h
    · cases h
    rename_i hsame
    split at h
    · cases h
    rename_i hreads
    split at h
    · cases h
    rename_i hbelow
    split at h
    · cases h
    rename_i hopens
    split at h
    · rename_i hwrites
      simp only [Bool.or_eq_true, Bool.not_eq_true', not_or, Bool.not_eq_false,
        Bool.not_eq_true] at hswitches
      push Not at hsame
      obtain ⟨rfl, rfl⟩ := hsame
      obtain ⟨hreadsNewest, hkey⟩ := Option.ite_none_right_eq_some.1 hnewest
      refine ⟨⟨hfile, hswitches.1.1, hswitches.1.2, hswitches.2, by simpa using hsecrecy,
        hreadsNewest, hkey, by simpa using hreads, by simpa using hopens, hwrites⟩, ?_⟩
      simpa [Option.any_eq_false] using hbelow
    · cases h
  · rintro ⟨⟨hfile, hsync, hinstant, hlive, hsecrecy, hreads, hnewest, hstamp, hopens, hwrites⟩,
      hbelow⟩
    have habove : (clipboard.applied.any fun stamp => decide (call.row.createdAt ≤ stamp)) = false := by
      simpa [Option.any_eq_false] using hbelow
    simp [apply, hfile, hsync, hinstant, hlive, hsecrecy, hreads, hnewest, hstamp, hopens, hwrites,
      habove]

theorem applied_apply (call : Call) (clipboard : Clipboard) :
    (apply host call clipboard).2 =
      if (apply host call clipboard).1 && call.saves then some call.row.createdAt
      else clipboard.applied := by
  unfold apply
  dsimp only
  repeat' split
  all_goals simp_all

/-- The stamp after an event is the greatest of the stamp before it and those it gave. -/
theorem below_step (hsaved : event.Saved) (clipboard : Clipboard) (bound : Int) :
    (∀ stamp ∈ (step host clipboard event).1.applied, stamp < bound) ↔
      (∀ stamp ∈ clipboard.applied, stamp < bound) ∧
        ∀ mark ∈ (step host clipboard event).2, mark.stamp < bound := by
  cases event with
  | noteLocal reads saves stamp =>
    obtain ⟨rfl, rfl⟩ := hsaved
    cases happlied : clipboard.applied with
    | none => simp [step, noteLocal, happlied]
    | some previous =>
      by_cases hle : stamp ≤ previous
      · simp [step, noteLocal, happlied, hle]
        omega
      · simp [step, noteLocal, happlied, hle]
        omega
  | received call =>
    have hwritten := (@apply_iff host call clipboard)
    unfold step
    dsimp only
    rw [applied_apply, show call.saves = true from hsaved, Bool.and_true]
    by_cases h : (apply host call clipboard).1 = true
    · have hbelow := (hwritten.1 h).2
      rw [if_pos h, if_pos h]
      simp only [Option.mem_some_iff, forall_eq', List.mem_singleton, forall_eq]
      constructor
      · exact fun hbound => ⟨fun stamp hstamp => (hbelow stamp hstamp).trans hbound, hbound⟩
      · exact fun hbound => hbound.2
    · rw [if_neg h, if_neg h]
      simp
  | changed store => simp [step]

theorem below_run (hsaved : ∀ event ∈ events, event.Saved) (clipboard : Clipboard) (bound : Int) :
    (∀ stamp ∈ (run host clipboard events).1.applied, stamp < bound) ↔
      (∀ stamp ∈ clipboard.applied, stamp < bound) ∧
        ∀ mark ∈ (run host clipboard events).2, mark.stamp < bound := by
  induction events generalizing clipboard with
  | nil => simp [run]
  | cons event rest ih =>
    obtain ⟨hfirst, hrest⟩ := List.forall_mem_cons.1 hsaved
    have hstep := @below_step host event hfirst clipboard bound
    unfold run
    dsimp only
    rw [ih hrest, hstep, and_assoc, List.forall_mem_append]

theorem native_above (hsaved : ∀ event ∈ events, event.Saved) {mark : Mark}
    (hmark : mark ∈ (run host clipboard events).2) (hnative : mark.native = true) :
    ∀ stamp ∈ clipboard.applied, stamp < mark.stamp := by
  induction events generalizing clipboard with
  | nil => cases hmark
  | cons event rest ih =>
    obtain ⟨hfirst, hrest⟩ := List.forall_mem_cons.1 hsaved
    rcases List.mem_append.1 hmark with hnow | hlater
    · cases event with
      | noteLocal reads saves stamp =>
        obtain rfl := List.mem_singleton.1 hnow
        cases hnative
      | received call =>
        change mark ∈ if (apply host call clipboard).1 then [⟨call.row.createdAt, true⟩] else [] at hnow
        split at hnow
        · rename_i hwritten
          obtain rfl := List.mem_singleton.1 hnow
          exact ((apply_iff call clipboard).1 hwritten).2
        · cases hnow
      | changed store => cases hnow
    · exact ((below_step hfirst clipboard mark.stamp).1 (ih hrest hlater)).1

theorem pairwise_run (hsaved : ∀ event ∈ events, event.Saved) (clipboard : Clipboard) :
    (run host clipboard events).2.Pairwise fun earlier later =>
      later.native = true → earlier.stamp < later.stamp := by
  induction events generalizing clipboard with
  | nil => exact List.Pairwise.nil
  | cons event rest ih =>
    obtain ⟨hfirst, hrest⟩ := List.forall_mem_cons.1 hsaved
    refine List.pairwise_append.2 ⟨?_, ih hrest _, fun earlier hearlier later hlater hnative => ?_⟩
    · -- one event gives one stamp at most
      cases event with
      | noteLocal reads saves stamp => exact List.pairwise_singleton _ _
      | received call =>
        change List.Pairwise _
          (if (apply host call clipboard).1 then [(⟨call.row.createdAt, true⟩ : Mark)] else [])
        split
        · exact List.pairwise_singleton _ _
        · exact List.Pairwise.nil
      | changed store => exact List.Pairwise.nil
    · exact ((below_step hfirst clipboard later.stamp).1 (native_above hrest hlater hnative)).2
        earlier hearlier

/-- In every run, a received row is written to the clipboard exactly when it is wanted, and its
stamp is above the first one and every stamp a capture, a copy or a received row gave before. -/
theorem native_writes_increase (host : Host) (clipboard : Clipboard) (events : List Event)
    (hsaved : ∀ event ∈ events, event.Saved) :
    (run host clipboard events).2.Pairwise (fun earlier later =>
      later.native = true → earlier.stamp < later.stamp) ∧
    ∀ call, (apply host call (run host clipboard events).1).1 = true ↔
      call.Wanted host (run host clipboard events).1.store ∧
      (∀ stamp ∈ clipboard.applied, stamp < call.row.createdAt) ∧
      ∀ mark ∈ (run host clipboard events).2, mark.stamp < call.row.createdAt :=
  ⟨pairwise_run hsaved clipboard, fun call => by rw [apply_iff, below_run hsaved]⟩

def receivedRow : ItemRow :=
  ⟨"far", some ([0], utf8 "far"), "text", "far", false, none, 0, 10, false, "desk", none, none, none,
    none⟩

def receivedCall : Call := ⟨receivedRow, true, true, true, true, true, true, true⟩

/-- A copy here at 7, and what another device had copied at 10. -/
def sampleEvents : List Event :=
  [.noteLocal true true 7, .changed { items := [receivedRow] }, .received receivedCall]

theorem native_writes_increase_sample :
    (run sampleHost ⟨{}, none⟩ sampleEvents).2.Pairwise (fun earlier later =>
      later.native = true → earlier.stamp < later.stamp) ∧
    ((apply sampleHost receivedCall (run sampleHost ⟨{}, none⟩ sampleEvents).1).1 = true ↔
      receivedCall.Wanted sampleHost (run sampleHost ⟨{}, none⟩ sampleEvents).1.store ∧
      (∀ stamp ∈ (none : Option Int), stamp < 10) ∧
      ∀ mark ∈ (run sampleHost ⟨{}, none⟩ sampleEvents).2, mark.stamp < 10) :=
  have hrun := native_writes_increase sampleHost ⟨{}, none⟩ sampleEvents
    (by simp [sampleEvents, Event.Saved, receivedCall])
  ⟨hrun.1, hrun.2 receivedCall⟩

end CopyPaste.Merge.InstantClipboard
