import CopyPaste.Upload.Coverage

/-!
The upload state one provider keeps on the host, and the machine around it.
Writers commit a version and then note it; a round reads the floor, scans from
the position it read, pushes, and commits what was offered. The machine also
remembers which items were in the round under way, which were pushed, and which
belong to rounds that completed.
-/

namespace CopyPaste.Upload.Machine

open Lib.Keyset Lib.Rows Record UnreadableUploads Scanning Coverage

def scanBytes : Nat := 8 * 1024 * 1024

def maxContentBytes : Nat := 4 * 1024 * 1024

/-- The persisted store, floor and record, and the progress entry kept in memory. -/
structure Service where
  rows : List StoredItem
  floor : UploadFloor
  record : RawRecord
  epoch : UInt64
  offer : Option Offer
  deriving DecidableEq, Repr

namespace Service

/-- Writing the floor and reading it back: a negative stamp reads as zero and an
empty id deletes the key. -/
def setFloor (s : Service) (floor : UploadFloor) : Service :=
  { s with floor := ⟨max floor.createdAt 0, floor.itemId.filter (· ≠ "")⟩ }

/-- Preserve an old-stamped write: count it, and lower the floor to its stamp. -/
def noteVersion (s : Service) (stamp : Int) : Service :=
  let counted := { s with epoch := s.epoch + 1 }
  if max stamp 0 ≤ s.floor.createdAt then counted.setFloor ⟨max stamp 0, none⟩ else counted

/-- A scan request: decode the record, scan from the given position, and persist
the record and the offer. -/
def requestScan (device : String) (s : Service) (since : UploadFloor) : Service × Scan :=
  let previous := decode s.record
  let prepared := if previous.resetFloor then
      { s.setFloor UploadFloor.default with epoch := s.epoch + 1 }
    else s
  let scan := scanBounded device prepared.rows since prepared.epoch previous scanBytes
  ({ prepared with record := scan.unreadable.encode, offer := some scan.offer }, scan)

/-- Where the floor may move now that a round has completed. -/
def floorAfterRound (offer : Offer) (startedMs : Int) : UploadFloor :=
  if offer.truncated ∧ offer.last.createdAt ≤ startedMs then offer.last else ⟨startedMs, none⟩

/-- Complete a round; without an offer the request fails. -/
def commitUpload (s : Service) (startedMs : Int) : Option Service :=
  match s.offer with
  | none => none
  | some offer =>
    if offer.startedEpoch = s.epoch ∧ offer.started ≤ s.floor then
      some (s.setFloor (max s.floor (floorAfterRound offer startedMs)))
    else
      some s

/-- A restart keeps what is persisted and forgets the progress entry. -/
def restart (s : Service) : Service :=
  { s with epoch := 0, offer := none }

end Service

/-- Where the round of a provider stands; rounds of one provider run one at a time. -/
inductive Phase
  | idle
  | reading (position : UploadFloor)
  | scanned
  | pushed
  deriving DecidableEq, Repr

/-- The machine: the service, the stamps of writers between their store write and
their note, the round, and what became of the items. -/
structure State where
  service : Service
  pending : List Int
  phase : Phase
  inRound : List LocalItem
  pushed : List LocalItem
  completed : List LocalItem
  notes : Nat
  deriving DecidableEq, Repr

inductive Act
  | write (row : StoredItem) (stamp : Int)
  | note (stamp : Int)
  | requeue (stamp : Int)
  | reseal (id : String) (opens metadataOpens : Bool)
  | prune (id : String)
  | read
  | scan
  | push
  | commit (startedMs : Int)
  | fail
  | restart
  deriving DecidableEq, Repr

def StoredItem.reseal (id : String) (opens metadataOpens : Bool) (row : StoredItem) : StoredItem :=
  if row.id = id then { row with opens := opens, metadataOpens := metadataOpens } else row

/-- One step, when it is possible. A second scan of a round, after the pull asked
for a republish, reads the floor again before the round completes. -/
def step (device : String) (s : State) : Act → Option State
  | .write row stamp =>
    if stamp ≤ row.createdAt ∧ row.content.length ≤ maxContentBytes then
      some { s with
        service := { s.service with rows := put StoredItem.id s.service.rows row }
        pending := stamp :: s.pending }
    else none
  | .note stamp =>
    if stamp ∈ s.pending then
      some { s with
        service := s.service.noteVersion stamp
        pending := s.pending.erase stamp
        notes := s.notes + 1 }
    else none
  | .requeue stamp =>
    some { s with service := s.service.noteVersion stamp, notes := s.notes + 1 }
  | .reseal id opens metadataOpens =>
    some { s with service :=
      { s.service with rows := s.service.rows.map (StoredItem.reseal id opens metadataOpens) } }
  | .prune id =>
    some { s with service :=
      { s.service with rows := s.service.rows.filter fun row => row.id ≠ id } }
  | .read =>
    if s.phase = .idle ∨ s.phase = .pushed then
      some { s with phase := .reading s.service.floor }
    else none
  | .scan =>
    match s.phase with
    | .reading position =>
      let (service, scan) := s.service.requestScan device position
      some { s with
        service := service
        phase := .scanned
        inRound := s.inRound ++ scan.items
        notes := 0 }
    | _ => none
  | .push =>
    if s.phase = .scanned then
      some { s with phase := .pushed, pushed := s.pushed ++ s.inRound }
    else none
  | .commit startedMs =>
    if s.phase = .pushed then
      (s.service.commitUpload startedMs).map fun service =>
        { s with
          service := service
          phase := .idle
          inRound := []
          completed := s.completed ++ s.inRound }
    else none
  | .fail => some { s with phase := .idle, inRound := [] }
  | .restart =>
    if s.pending = [] then
      some { s with service := s.service.restart, phase := .idle, inRound := [] }
    else none

def afterScan (device : String) (s : State) (position : UploadFloor) : State :=
  { s with
    service := (s.service.requestScan device position).1
    phase := .scanned
    inRound := s.inRound ++ (s.service.requestScan device position).2.items
    notes := 0 }

def afterCommit (s : State) (service : Service) : State :=
  { s with
    service := service
    phase := .idle
    inRound := []
    completed := s.completed ++ s.inRound }

/-- What a step can do, case by case. -/
inductive Stepped (device : String) (s : State) : Act → State → Prop
  | write (row : StoredItem) (stamp : Int) (hstamp : stamp ≤ row.createdAt)
      (hcontent : row.content.length ≤ maxContentBytes) :
      Stepped device s (.write row stamp) { s with
        service := { s.service with rows := put StoredItem.id s.service.rows row }
        pending := stamp :: s.pending }
  | note (stamp : Int) (hstamp : stamp ∈ s.pending) :
      Stepped device s (.note stamp) { s with
        service := s.service.noteVersion stamp
        pending := s.pending.erase stamp
        notes := s.notes + 1 }
  | requeue (stamp : Int) :
      Stepped device s (.requeue stamp) { s with
        service := s.service.noteVersion stamp
        notes := s.notes + 1 }
  | reseal (id : String) (opens metadataOpens : Bool) :
      Stepped device s (.reseal id opens metadataOpens) { s with service :=
        { s.service with rows := s.service.rows.map (StoredItem.reseal id opens metadataOpens) } }
  | prune (id : String) :
      Stepped device s (.prune id) { s with service :=
        { s.service with rows := s.service.rows.filter fun row => row.id ≠ id } }
  | read (hphase : s.phase = .idle ∨ s.phase = .pushed) :
      Stepped device s .read { s with phase := .reading s.service.floor }
  | scan (position : UploadFloor) (hphase : s.phase = .reading position) :
      Stepped device s .scan (afterScan device s position)
  | push (hphase : s.phase = .scanned) :
      Stepped device s .push { s with phase := .pushed, pushed := s.pushed ++ s.inRound }
  | commit (startedMs : Int) (service : Service) (hphase : s.phase = .pushed)
      (hcommit : s.service.commitUpload startedMs = some service) :
      Stepped device s (.commit startedMs) (afterCommit s service)
  | fail : Stepped device s .fail { s with phase := .idle, inRound := [] }
  | restart (hpending : s.pending = []) :
      Stepped device s .restart { s with
        service := s.service.restart
        phase := .idle
        inRound := [] }

theorem stepped_of_step {device : String} {s s' : State} {act : Act}
    (h : step device s act = some s') : Stepped device s act s' := by
  cases act with
  | write row stamp =>
    simp only [step] at h
    split at h
    · rename_i hguard
      rw [← Option.some.inj h]
      exact .write row stamp hguard.1 hguard.2
    · simp at h
  | note stamp =>
    simp only [step] at h
    split at h
    · rename_i hstamp
      rw [← Option.some.inj h]
      exact .note stamp hstamp
    · simp at h
  | requeue stamp =>
    rw [← Option.some.inj h]
    exact .requeue stamp
  | reseal id opens metadataOpens =>
    rw [← Option.some.inj h]
    exact .reseal id opens metadataOpens
  | prune id =>
    rw [← Option.some.inj h]
    exact .prune id
  | read =>
    simp only [step] at h
    split at h
    · rename_i hphase
      rw [← Option.some.inj h]
      exact .read hphase
    · simp at h
  | scan =>
    simp only [step] at h
    split at h
    · rename_i position hphase
      rw [← Option.some.inj h]
      exact .scan position hphase
    · simp at h
  | push =>
    simp only [step] at h
    split at h
    · rename_i hphase
      rw [← Option.some.inj h]
      exact .push hphase
    · simp at h
  | commit startedMs =>
    simp only [step] at h
    split at h
    · rename_i hphase
      obtain ⟨service, hcommit, hstate⟩ := Option.map_eq_some_iff.1 h
      rw [← hstate]
      exact .commit startedMs service hphase hcommit
    · simp at h
  | fail =>
    rw [← Option.some.inj h]
    exact .fail
  | restart =>
    simp only [step] at h
    split at h
    · rename_i hpending
      rw [← Option.some.inj h]
      exact .restart hpending
    · simp at h

/-- A provider just installed over a history. -/
def initial (rows : List StoredItem) : State where
  service := ⟨rows, UploadFloor.default, .missing, 0, none⟩
  pending := []
  phase := .idle
  inRound := []
  pushed := []
  completed := []
  notes := 0

def run (device : String) (s : State) : List Act → Option State
  | [] => some s
  | act :: rest => (step device s act).bind fun next => run device next rest

/-- A history a device can hold before a provider is installed. -/
structure Installable (rows : List StoredItem) : Prop where
  ids : (rows.map StoredItem.id).Nodup
  contents : ∀ row ∈ rows, row.content.length ≤ maxContentBytes

/-- The states reached from an installation over a history of one kind by steps
that all meet a condition. -/
inductive Reaches (device : String) (history : StoredItem → Prop)
    (allowed : State → Act → Prop) : State → Prop
  | install (rows : List StoredItem) (hrows : Installable rows)
      (hhistory : ∀ row ∈ rows, history row) : Reaches device history allowed (initial rows)
  | next {s s' : State} (act : Act) (hs : Reaches device history allowed s)
      (hallowed : allowed s act) (hstep : step device s act = some s') :
      Reaches device history allowed s'

section Invariants

variable {device : String} {history : StoredItem → Prop} {allowed : State → Act → Prop}

/-- The induction over a run: what holds at every installation and is kept by
every allowed step holds in every state reached. -/
theorem Reaches.invariant {Inv : State → Prop}
    (hinstall : ∀ rows, Installable rows → (∀ row ∈ rows, history row) → Inv (initial rows))
    (hkept : ∀ s s' act, Inv s → allowed s act → Stepped device s act s' → Inv s')
    {s : State} (h : Reaches device history allowed s) : Inv s := by
  induction h with
  | install rows hrows hhistory => exact hinstall rows hrows hhistory
  | next act _ hallowed hstep ih => exact hkept _ _ act ih hallowed (stepped_of_step hstep)

/-- Every act of a run meets the condition in the state it is taken in. -/
def Meets (device : String) (allowed : State → Act → Prop) : State → List Act → Prop
  | _, [] => True
  | s, act :: rest => allowed s act ∧
    match step device s act with
    | none => True
    | some next => Meets device allowed next rest

instance decidableMeets [∀ s act, Decidable (allowed s act)] :
    ∀ s acts, Decidable (Meets device allowed s acts)
  | _, [] => isTrue trivial
  | s, act :: rest => by
    unfold Meets
    cases step device s act with
    | none => infer_instance
    | some next =>
      have := decidableMeets next rest
      infer_instance

theorem Reaches.of_run {s s' : State} (hs : Reaches device history allowed s) (acts : List Act)
    (hmeets : Meets device allowed s acts) (hrun : run device s acts = some s') :
    Reaches device history allowed s' := by
  induction acts generalizing s with
  | nil =>
    obtain rfl : s = s' := by simpa [run] using hrun
    exact hs
  | cons act rest ih =>
    obtain ⟨middle, hstep, hrest⟩ := Option.bind_eq_some_iff.1 hrun
    simp only [Meets, hstep] at hmeets
    exact ih (hs.next act hmeets.1 hstep) hmeets.2 hrest

theorem run_append (device : String) (s : State) (first second : List Act) :
    run device s (first ++ second) = (run device s first).bind fun s' => run device s' second := by
  induction first generalizing s with
  | nil => rfl
  | cons act rest ih =>
    simp only [List.cons_append, run]
    cases step device s act with
    | none => rfl
    | some next => exact ih next

end Invariants

section Notes

variable (s : Service) (stamp : Int)

@[simp]
theorem noteVersion_rows : (s.noteVersion stamp).rows = s.rows := by
  unfold Service.noteVersion
  split <;> rfl

@[simp]
theorem noteVersion_record : (s.noteVersion stamp).record = s.record := by
  unfold Service.noteVersion
  split <;> rfl

@[simp]
theorem noteVersion_offer : (s.noteVersion stamp).offer = s.offer := by
  unfold Service.noteVersion
  split <;> rfl

@[simp]
theorem noteVersion_epoch : (s.noteVersion stamp).epoch = s.epoch + 1 := by
  unfold Service.noteVersion
  split <;> rfl

theorem noteVersion_floor : (s.noteVersion stamp).floor =
    if max stamp 0 ≤ s.floor.createdAt then ⟨max stamp 0, none⟩ else s.floor := by
  unfold Service.noteVersion
  split <;> simp [Service.setFloor]

/-- A note never raises the floor. -/
theorem noteVersion_floor_le : (s.noteVersion stamp).floor ≤ s.floor := by
  rw [noteVersion_floor]
  split
  · rename_i h
    exact (Position.bare_le_iff _ _).2 h
  · exact le_rfl

/-- After a note the floor lies before every version at or past its stamp. -/
theorem noteVersion_floor_lt (row : StoredItem) (hstamp : stamp ≤ row.createdAt)
    (hrow : 0 ≤ row.createdAt) : (s.noteVersion stamp).floor < keysetOf row := by
  have hmax : max stamp 0 ≤ row.createdAt := max_le hstamp hrow
  rw [noteVersion_floor]
  split
  · exact (((Position.bare_le_iff _ ⟨row.createdAt, none⟩).2 hmax).trans_lt
      (Position.bare_lt_row row.createdAt row.id))
  · rename_i h
    exact Position.lt_of_createdAt_lt ((not_le.1 h).trans_le hmax)

end Notes

section Commits

/-- A floor as it reads back: nonnegative and without an empty id. -/
structure ReadsBack (floor : UploadFloor) : Prop where
  nonneg : 0 ≤ floor.createdAt
  named : floor.itemId ≠ some ""

theorem readsBack_setFloor (s : Service) (floor : UploadFloor) :
    ReadsBack (s.setFloor floor).floor := by
  refine ⟨le_max_right _ _, ?_⟩
  intro h
  have hmem : "" ∈ floor.itemId.filter (· ≠ "") := h
  simp at hmem

theorem readsBack_noteVersion (s : Service) (stamp : Int) (h : ReadsBack s.floor) :
    ReadsBack (s.noteVersion stamp).floor := by
  unfold Service.noteVersion
  dsimp only
  split
  · exact readsBack_setFloor _ _
  · exact h

/-- Writing a nonnegative floor and reading it back never raises it. -/
theorem setFloor_floor_le (s : Service) (floor : UploadFloor) (h : 0 ≤ floor.createdAt) :
    (s.setFloor floor).floor ≤ floor := by
  obtain ⟨createdAt, itemId⟩ := floor
  simp only [Service.setFloor, max_eq_left h]
  cases itemId with
  | none => simp
  | some id =>
    by_cases hid : id = ""
    · subst hid
      exact (Position.bare_lt_row createdAt "").le
    · simp [Option.filter, hid]

/-- Raising a floor that reads back never lowers it. -/
theorem le_setFloor_floor (s : Service) (floor : UploadFloor) (h : ReadsBack s.floor)
    (hle : s.floor ≤ floor) : s.floor ≤ (s.setFloor floor).floor := by
  have hcreated := Position.createdAt_le_of_le hle
  obtain ⟨createdAt, itemId⟩ := floor
  simp only [Service.setFloor, max_eq_left (h.nonneg.trans hcreated)]
  cases itemId with
  | none => exact hle
  | some id =>
    by_cases hid : id = ""
    · subst hid
      rcases hle.lt_or_eq with hlt | heq
      · rcases (Position.lt_row_iff _ _ _).1 hlt with hstamp | ⟨hstamp, hbefore⟩
        · exact (Position.lt_of_createdAt_lt hstamp).le
        · cases hitem : s.floor.itemId with
          | none =>
            have hbare : s.floor = ⟨createdAt, none⟩ := by
              rw [← hstamp, ← hitem]
            exact hbare.le
          | some other =>
            have hempty := String.lt_iff_toList_lt.1 (hbefore other hitem)
            exact absurd hempty (by simp)
      · exact absurd (congrArg Position.itemId heq) h.named
    · simpa [Option.filter, hid] using hle

theorem commitUpload_cases {s s' : Service} {startedMs : Int}
    (h : s.commitUpload startedMs = some s') :
    ∃ offer, s.offer = some offer ∧
      (s' = s ∨ offer.startedEpoch = s.epoch ∧ offer.started ≤ s.floor ∧
        s' = s.setFloor (max s.floor (Service.floorAfterRound offer startedMs))) := by
  unfold Service.commitUpload at h
  split at h
  · simp at h
  · rename_i offer hoffer
    refine ⟨offer, hoffer, ?_⟩
    split at h
    · rename_i hfence
      exact Or.inr ⟨hfence.1, hfence.2, (Option.some.inj h).symm⟩
    · exact Or.inl (Option.some.inj h).symm

/-- A completed round passes only rows its scan answered for. -/
theorem le_of_le_floorAfterRound {offer : Offer} {startedMs : Int} {key : UploadFloor}
    (h : key ≤ Service.floorAfterRound offer startedMs) :
    offer.truncated = false ∨ key ≤ offer.last := by
  unfold Service.floorAfterRound at h
  split at h
  · exact Or.inr h
  · rename_i hcond
    cases htruncated : offer.truncated with
    | false => exact Or.inl rfl
    | true =>
      right
      simp only [htruncated, true_and, not_le] at hcond
      exact h.trans (Position.lt_of_createdAt_lt hcond).le

end Commits

end CopyPaste.Upload.Machine
