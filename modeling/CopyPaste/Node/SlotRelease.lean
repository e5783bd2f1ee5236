import CopyPaste.Lib.Guarded
import CopyPaste.Node.Pairing
import Mathlib

/-!
The pairing slot with the tasks that call it: the user's commands, the joins, and the
connections the listener serves. A task goes on from one call of the slot to the next, and
may be dropped wherever it waits. A ceremony that is over is to leave the slot free.
-/

namespace CopyPaste.Node.SlotRelease

open Lib.Guarded Pairing

/-- Where a task stands: between the halves of a nearby request, with the handshake that
answers it, in the exchange of a join or of an accepted pairing, or about to report its end. -/
inductive Stage
  | reading
  | answering
  | connecting
  | establishing
  | completing
  | committing
  | closing (phase : PairingPhase) (error : Option NodeError)
  deriving DecidableEq, Repr

/-- A task and the pairing it calls the slot about. -/
structure Task where
  pairingId : String
  stage : Stage
  deriving DecidableEq, Repr

structure World where
  manager : PairingManager := {}
  clock : Nat := 0
  /-- The invitation in the slot is the user's. -/
  forUser : Bool := false
  tasks : List Task := []
  deriving DecidableEq, Repr

/-- The calls, each with what it finds outside of the slot and the instants it reads. -/
inductive Event
  | pairCreateInvite (full : Bool) (now : Nat) (token : PairingToken) (code : String)
      (listenAddr : Option String)
  | pairStart (entry : Except NodeError String)
  | connected (task : Task) (token : Option String)
  | established (task : Task) (result : Except NodeError (Nat × String × PairingPeer))
  | decided (task : Task) (ended : Option (PairingPhase × Option NodeError))
  | persisted (task : Task) (phase : PairingPhase) (error : Option NodeError)
  | finished (task : Task)
  | nearbyInvite (now created : Nat) (token : PairingToken) (code : String)
  | nearbyRead (task : Task) (now : Nat)
  | refused (task : Task)
  | acceptNearby (task : Task) (prepared : Option Nat)
  | acceptInvited (pairingId : String) (prepared : Option Nat)
  | pairingCandidate (now : Nat)
  | pairProgress (now : Nat)
  | pairConfirm (now read : Nat) (accept : Bool)
  | pairCancel
  | elapse (now : Nat)
  | drop (task : Task)

def Stage.waits : Stage → Bool
  | .reading => false
  | .closing _ _ => false
  | _ => true

def Task.owns (state : PairingState) (task : Task) : Bool :=
  match state, task.stage with
  | .invited invite, .reading => invite.status.pairingId == some task.pairingId
  | .invited invite, .answering => invite.status.pairingId == some task.pairingId
  | .invited _, _ => false
  | .active _, .reading => false
  | .active _, .answering => false
  | .active active, .connecting =>
    active.status.pairingId == some task.pairingId && active.status.role == some .initiator &&
      active.status.phase == .handshaking
  | .active active, _ => active.status.pairingId == some task.pairingId
  | _, _ => false

/-- What an event asks of the slot. -/
def Event.call (state : PairingState) : Event → Option Act
  | .pairCreateInvite full now token code listenAddr =>
    if full then none else some (.createInvite now token code listenAddr)
  | .pairStart (.ok pairingId) => some (.beginJoin pairingId)
  | .connected task (some pairingId) => some (.bindJoinId task.pairingId pairingId)
  | .established task (.ok (now, sas, peer)) => some (.awaiting now task.pairingId sas peer)
  | .decided task none => some (.beginCommit task.pairingId)
  | .finished ⟨pairingId, .closing phase error⟩ => some (.finish pairingId phase error)
  | .nearbyInvite now created token code => some (.nearbyInvite now created token code)
  | .nearbyRead _ now => some (.invitationCandidate now)
  | .refused task => some (.cancelReservation task.pairingId)
  | .acceptNearby task (some now) => some (.beginResponder now task.pairingId)
  | .acceptInvited pairingId (some now) => some (.beginResponder now pairingId)
  | .pairingCandidate now => some (.invitationCandidate now)
  | .pairProgress now => some (.progress now)
  | .pairConfirm now read accept => some (.confirm now read accept)
  | .pairCancel => some .cancel
  | .drop task => if task.owns state then some .stopListening else none
  | _ => none

/-- The tasks that go on when one that stands at a stage has left them. -/
def others (tasks : List Task) (task : Task) (stage : Stage → Bool) : Option (List Task) :=
  if task ∈ tasks ∧ stage task.stage then some (tasks.erase task) else none

/-- How the callers go on with the answer of the slot. -/
def goOn (tasks : List Task) (answer : Answer) : Event → Option (List Task)
  | .pairStart (.ok pairingId) =>
    match answer with
    | .begun (.ok _) => some (⟨pairingId, .connecting⟩ :: tasks)
    | _ => some tasks
  | .connected task token =>
    (others tasks task (· == .connecting)).map fun others =>
      match token, answer with
      | none, _ => ⟨task.pairingId, .closing .failed (some .handshake)⟩ :: others
      | some pairingId, .bound (.ok _) => ⟨pairingId, .establishing⟩ :: others
      | _, _ => others
  | .established task result =>
    (others tasks task (· == .establishing)).map fun others =>
      match result with
      | .error error => ⟨task.pairingId, .closing .failed (some error)⟩ :: others
      | .ok _ => ⟨task.pairingId, .completing⟩ :: others
  | .decided task ended =>
    (others tasks task (· == .completing)).map fun others =>
      match ended, answer with
      | some (phase, error), _ => ⟨task.pairingId, .closing phase error⟩ :: others
      | none, .committed true => ⟨task.pairingId, .committing⟩ :: others
      | none, _ => ⟨task.pairingId, .closing .cancelled none⟩ :: others
  | .persisted task phase error =>
    (others tasks task (· == .committing)).map fun others =>
      ⟨task.pairingId, .closing phase error⟩ :: others
  | .finished ⟨pairingId, .closing phase error⟩ =>
    others tasks ⟨pairingId, .closing phase error⟩ fun _ => true
  | .finished _ => none
  | .nearbyInvite _ _ token _ =>
    -- The lock of the limit is held until the candidate has been read.
    if tasks.any fun task => task.stage == .reading then none
    else
      match answer with
      | .reserved true => some (⟨token.pairingId, .reading⟩ :: tasks)
      | _ => some tasks
  | .nearbyRead task _ =>
    (others tasks task (· == .reading)).map fun others =>
      match answer with
      | .candidate (some candidate) => ⟨candidate.pairingId, .answering⟩ :: others
      | _ => others
  | .refused task => others tasks task (· == .answering)
  | .acceptNearby task _ =>
    (others tasks task (· == .answering)).map fun others =>
      match answer with
      | .taken (.ok _) => ⟨task.pairingId, .establishing⟩ :: others
      | _ => others
  | .acceptInvited pairingId _ =>
    match answer with
    | .taken (.ok _) => some (⟨pairingId, .establishing⟩ :: tasks)
    | _ => some tasks
  | .drop task => others tasks task Stage.waits
  | _ => some tasks

def Event.readings (state : PairingState) : Event → List Nat
  | .elapse now => [now]
  | event => (event.call state).toList.flatMap Act.readings

/-- Whether the invitation in the slot is the user's, after a call. -/
def opener (forUser : Bool) (manager : PairingManager) : Option Act → Bool
  | some (.createInvite now token code listenAddr) =>
    begins manager (.createInvite now token code listenAddr) || forUser
  | some (.nearbyInvite now created token code) =>
    !begins manager (.nearbyInvite now created token code) && forUser
  | _ => forUser

/-- What the slot answers; with no call it is left as it is. -/
def asked (manager : PairingManager) : Option Act → PairingManager × Answer
  | none => (manager, .none)
  | some act => perform manager act

def step (world : World) (event : Event) : Option World :=
  let call := event.call world.manager.state
  let readings := event.readings world.manager.state
  if (world.clock :: readings).Pairwise (· ≤ ·) then
    (goOn world.tasks (asked world.manager call).2 event).map fun tasks => {
      manager := (asked world.manager call).1
      clock := readings.getLastD world.clock
      forUser := opener world.forUser world.manager call
      tasks := tasks }
  else none

def machine : Machine World Event where
  start := fun world => ∃ clock, world = { clock := clock }
  step := step

/-- The ceremony in the slot is one that a task began or took over. -/
def taken (forUser : Bool) : PairingState → Bool
  | .invited _ => !forUser
  | .active _ => true
  | _ => false

def owned (tasks : List Task) (state : PairingState) : Bool := tasks.any (Task.owns state)

/-- No task is left of the ceremony in the slot. -/
def World.orphaned (world : World) : Bool :=
  taken world.forUser world.manager.state && !owned world.tasks world.manager.state

example (clock : Nat) (id : String) :
    (step { clock := clock } (.pairStart (.ok id))).map World.orphaned = some false := by
  simp [step, goOn, asked, Event.call, Event.readings, perform, opener, Act.readings, beginJoin,
    PairingState.live, World.orphaned, owned, Task.owns, taken]

def World.due (world : World) : Bool := world.manager.state.due world.clock

/-- A ceremony that is over does not keep the next one out. -/
def World.Released (world : World) : Prop :=
  world.due = true ∨ world.orphaned = true → ∀ token code listenAddr pairingId,
    (∃ invite, (createInvite world.manager.state world.clock token code listenAddr).2 =
      .ok invite) ∧ (beginJoin world.manager.state pairingId).2 = .ok ()

/-- The instant at which an operation looks for a deadline that has come. -/
def polls : Act → Option Nat
  | .invitationCandidate now => some now
  | .progress now => some now
  | .confirm now _ _ => some now
  | _ => none

/-- An exchange that has come to its confirmation gets a deadline of its own. -/
def renews (state : PairingState) : Act → Bool
  | .awaiting _ pairingId _ _ =>
    match state with
    | .active active => active.status.pairingId == some pairingId
    | _ => false
  | _ => false

/-- The clock comes to the deadline of the slot only with an operation that looks for it. -/
def timely (world : World) (event : Event) : Bool :=
  let state := world.manager.state
  state.deadline.all fun deadline =>
    decide ((event.readings state).getLastD world.clock < deadline) ||
      (event.call state).any fun act =>
        (polls act).any (fun now => decide (deadline ≤ now)) || renews state act

/-- The last task of a ceremony neither is dropped nor fails to prepare the group. -/
def held (world : World) : Event → Bool
  | .drop task => !taken world.forUser world.manager.state ||
    owned (world.tasks.erase task) world.manager.state
  | .acceptNearby task none => !taken world.forUser world.manager.state ||
    owned (world.tasks.erase task) world.manager.state
  | _ => true

def Kept (world : World) (event : Event) : Prop :=
  timely world event = true ∧ held world event = true

/-- A ceremony that runs has a task to end it. -/
def World.Owned (world : World) : Prop :=
  taken world.forUser world.manager.state = true → owned world.tasks world.manager.state = true

theorem released_iff (world : World) :
    world.Released ↔ world.due = false ∧ world.orphaned = false := by
  have hlive : world.due = true ∨ world.orphaned = true → world.manager.state.live = true := by
    rintro (hdue | horphaned)
    · unfold World.due PairingState.due PairingState.deadline at hdue
      unfold PairingState.live
      split <;> simp_all
    · unfold World.orphaned taken at horphaned
      unfold PairingState.live
      split <;> simp_all
  constructor
  · intro hreleased
    rw [← Bool.not_eq_true, ← Bool.not_eq_true, ← not_or]
    intro hover
    have hopen := (hreleased hover ⟨"", []⟩ "" none "").2
    simp [beginJoin, hlive hover] at hopen
  · rintro ⟨hdue, horphaned⟩ hover
    simp [hdue, horphaned] at hover

section Deadlines

variable {manager : PairingManager} {act : Act} {deadline : Nat}

variable {state : PairingState} {now : Nat}

theorem deadline_expireDue (h : (expireDue state now).deadline = some deadline) :
    state.deadline = some deadline ∧ now < deadline := by
  rcases expireDue_cases state now with ⟨hsame, hdue⟩ | ⟨-, status, hstatus⟩
  · rw [hsame] at h
    refine ⟨h, ?_⟩
    simpa [PairingState.due, h] using hdue
  · simp [hstatus, PairingState.deadline] at h

theorem expireDue_early (h : state.deadline = some deadline) (hnow : now < deadline) :
    expireDue state now = state := by
  have hdue : state.due now = false := by simp [PairingState.due, h, hnow]
  simp [expireDue, hdue]

theorem live_of_deadline (h : state.deadline = some deadline) : state.live = true := by
  cases state with
  | invited | active => rfl
  | idle | terminal status => simp [PairingState.deadline] at h

theorem deadline_confirm {read : Nat} {accept : Bool} :
    (confirm state now read accept).1.deadline = (expireDue state now).deadline := by
  unfold confirm
  split
  · rename_i hstate
    rw [hstate]
  · rename_i active hstate
    rw [hstate]
    split
    · rfl
    · split <;> rfl
  · rfl

/-- An operation that looks for the deadline does not leave one that has come. -/
theorem polls_early (h : (perform manager act).1.state.deadline = some deadline)
    (hpolls : polls act = some now) : now < deadline := by
  cases act with
  | invitationCandidate | progress =>
    obtain rfl := Option.some.inj hpolls
    exact (deadline_expireDue h).2
  | confirm =>
    obtain rfl := Option.some.inj hpolls
    simp only [perform, deadline_confirm] at h
    exact (deadline_expireDue h).2
  | _ => cases hpolls

/-- The deadline comes after the last instant the operation has read. -/
def Ahead (act : Act) (deadline : Nat) : Prop :=
  ∃ now, act.readings.getLast? = some now ∧ now < deadline

theorem ahead_of_renews (hrenews : renews manager.state act = true)
    (h : (perform manager act).1.state.deadline = some deadline) : Ahead act deadline := by
  cases act with
  | awaiting now pairingId sas peer =>
    cases hstate : manager.state with
    | active running =>
      simp only [renews, hstate] at hrenews
      simp only [perform, awaiting, hstate, if_pos (beq_iff_eq.1 hrenews)] at h
      obtain rfl := Option.some.inj h
      exact ⟨now, rfl, by simp [pairingConfirmTimeout]⟩
    | _ => simp [renews, hstate] at hrenews
  | _ => cases hrenews

theorem ahead_of_issues {token : PairingToken} (h : issues manager act = some (token, deadline)) :
    Ahead act deadline := by
  cases act with
  | createInvite now | nearbyInvite _ now =>
    simp only [issues, Option.ite_none_right_eq_some, Option.some.injEq, Prod.mk.injEq] at h
    exact ⟨now, rfl, by simp [← h.2.2, pairingInviteTtl]⟩
  | _ => cases h

/-- A deadline in the slot is a new one, or was there and is still to come where the
operation looks for it. -/
theorem deadline_perform (h : (perform manager act).1.state.deadline = some deadline) :
    Ahead act deadline ∨
      manager.state.deadline = some deadline ∧ renews manager.state act = false ∧
        ∀ now, polls act = some now → now < deadline := by
  cases hrenews : renews manager.state act with
  | true => exact Or.inl (ahead_of_renews hrenews h)
  | false =>
    have hearly : ∀ now, polls act = some now → now < deadline := fun now => polls_early h
    have hturns := perform_turns manager act
    generalize (perform manager act).1.state = after at h hturns
    cases hturns with
    | kept => exact Or.inr ⟨h, rfl, hearly⟩
    | ended | committed => cases h
    | opened invite _ _ hissues =>
      obtain rfl := Option.some.inj h
      exact Or.inl (ahead_of_issues hissues)
    | entered active _ _ hnone => cases hnone.symm.trans h
    | goesOn running active hstate _ _ hsame =>
      exact Or.inr ⟨hstate ▸ hsame.symm.trans h, rfl, hearly⟩
    | awaited now id sas peer running hstate hid => simp [renews, hstate, hid] at hrenews

/-- An operation that reads a later instant and does not look for the deadline leaves it. -/
theorem deadline_kept {last : Nat} (h : manager.state.deadline = some deadline)
    (hlast : act.readings.getLast? = some last) (hdue : deadline ≤ last)
    (hpolls : ∀ now, polls act = some now → now < deadline)
    (hrenews : renews manager.state act = false) :
    (perform manager act).1.state.deadline = some deadline := by
  have hlive := live_of_deadline h
  cases act with
  | createInvite now token code listenAddr => simpa [perform, createInvite, hlive] using h
  | nearbyInvite now created token code =>
    rcases nearbyInvite_cases manager now created token code with hrefused | ⟨hfree, -⟩
    · simpa [perform, hrefused] using h
    · simp [hlive] at hfree
  | invitationCandidate now | progress now =>
    obtain rfl : now = last := by simpa [Act.readings] using hlast
    have := hpolls now rfl
    omega
  | confirm now read accept =>
    simp only [perform, deadline_confirm]
    rw [expireDue_early h (hpolls now rfl)]
    exact h
  | beginResponder now pairingId =>
    obtain rfl : now = last := by simpa [Act.readings] using hlast
    rcases beginResponder_cases manager.state now pairingId with
      ⟨hrefused, -⟩ | ⟨invite, running, psk, hstate, hopen, -⟩
    · simpa [perform, hrefused] using h
    · simp only [hstate, PairingState.deadline, Option.some.injEq] at h
      omega
  | awaiting now pairingId sas peer =>
    rcases awaiting_cases manager.state now pairingId sas peer with
      ⟨hsame, -⟩ | ⟨running, after, hstate, hid, -⟩
    · simpa [perform, hsame] using h
    · simp [renews, hstate, hid] at hrenews
  | _ => simp [Act.readings] at hlast

end Deadlines

section Owners

/-- A ceremony that goes on is that of the same tasks. -/
def Keeps (state after : PairingState) : Prop :=
  ∀ forUser, taken forUser after = true →
    taken forUser state = true ∧ ∀ task : Task, task.owns after = task.owns state

theorem Keeps.refl (state : PairingState) : Keeps state state := fun _ htaken =>
  ⟨htaken, fun _ => rfl⟩

theorem keeps_terminal (state : PairingState) (status : PairingStatus) :
    Keeps state (.terminal status) := by
  intro forUser htaken
  simp [taken] at htaken

/-- What a task owns is told by the id, the role and the phase. -/
theorem keeps_active {running after : Active} (h : after.status = running.status) :
    Keeps (.active running) (.active after) := by
  refine fun _ _ => ⟨rfl, fun task => ?_⟩
  unfold Task.owns
  cases task.stage <;> simp [h]

theorem keeps_expireDue (state : PairingState) (now : Nat) : Keeps state (expireDue state now) := by
  rcases expireDue_cases state now with ⟨hsame, -⟩ | ⟨-, status, hstatus⟩
  · rw [hsame]
    exact Keeps.refl state
  · rw [hstatus]
    exact keeps_terminal state status

theorem keeps_confirm (state : PairingState) (now read : Nat) (accept : Bool) :
    Keeps state (confirm state now read accept).1 := by
  have hexpired := keeps_expireDue state now
  unfold confirm
  split
  · exact keeps_terminal state _
  · rename_i active hstate
    rw [hstate] at hexpired
    split
    · exact hexpired
    · split
      · exact hexpired
      · rename_i control _
        have hsent : Keeps (.active active) (.active { active with control := control }) :=
          keeps_active rfl
        intro forUser htaken
        obtain ⟨hbefore, howns⟩ := hexpired forUser rfl
        exact ⟨hbefore, fun task => ((hsent forUser htaken).2 task).trans (howns task)⟩
  · exact hexpired

theorem keeps_beginCommit (state : PairingState) (pairingId : String) :
    Keeps state (beginCommit state pairingId).1 := by
  unfold beginCommit
  split
  · split
    · exact keeps_active rfl
    · exact Keeps.refl _
  · exact Keeps.refl state

theorem keeps_stopListening (state : PairingState) : Keeps state (stopListening state) := by
  unfold stopListening
  split
  · exact keeps_active rfl
  · exact Keeps.refl state

theorem taken_stopListening (forUser : Bool) (state : PairingState) :
    taken forUser (stopListening state) = taken forUser state := by
  cases state <;> rfl

theorem keeps_cancel (state : PairingState) : Keeps state (cancel state).1 := by
  unfold cancel
  split
  · exact Keeps.refl _
  · exact keeps_terminal _ _
  · split
    · exact Keeps.refl _
    · exact keeps_terminal _ _
  · exact Keeps.refl _

/-- The report of an end leaves no ceremony of that pairing. -/
theorem finish_cases (state : PairingState) (pairingId : String) (phase : PairingPhase)
    (error : Option NodeError) :
    (∃ status, finish state pairingId phase error = .terminal status) ∨
      finish state pairingId phase error = state ∧
        (⟨pairingId, .closing phase error⟩ : Task).owns state = false := by
  unfold finish
  split
  · rename_i running
    split
    · exact Or.inl ⟨_, rfl⟩
    · rename_i hother
      exact Or.inr ⟨rfl, by simpa [Task.owns] using hother⟩
  · rename_i hnone
    refine Or.inr ⟨rfl, ?_⟩
    cases state with
    | active running => exact absurd rfl (hnone running)
    | _ => rfl

theorem cancelReservation_cases (state : PairingState) (pairingId : String) :
    (∃ status, cancelReservation state pairingId = .terminal status) ∨
      cancelReservation state pairingId = state ∧
        (⟨pairingId, .answering⟩ : Task).owns state = false := by
  unfold cancelReservation
  split
  · rename_i invite
    split
    · exact Or.inl ⟨_, rfl⟩
    · rename_i hother
      exact Or.inr ⟨rfl, by simpa [Task.owns] using hother⟩
  · rename_i hnone
    refine Or.inr ⟨rfl, ?_⟩
    cases state with
    | invited invite => exact absurd rfl (hnone invite)
    | _ => rfl

variable {tasks : List Task} {state : PairingState} {task : Task}

theorem owned_cons (h : task.owns state = true) : owned (task :: tasks) state = true := by
  simp [owned, h]

theorem owned_erase (howned : owned tasks state = true) (htask : task.owns state = false) :
    owned (tasks.erase task) state = true := by
  obtain ⟨owner, howner, howns⟩ := List.any_eq_true.1 howned
  refine List.any_eq_true.2 ⟨owner, ?_, howns⟩
  refine (List.mem_erase_of_ne ?_).2 howner
  rintro rfl
  simp [howns] at htask

/-- A task that goes on is still the owner. -/
theorem owned_replace {next : Task} (howned : owned tasks state = true)
    (hnext : task.owns state = true → next.owns state = true) :
    owned (next :: tasks.erase task) state = true := by
  cases htask : task.owns state with
  | true => exact owned_cons (hnext htask)
  | false =>
    have := owned_erase howned htask
    unfold owned at this ⊢
    simp [this]

def Stage.late : Stage → Bool
  | .reading => false
  | .answering => false
  | .connecting => false
  | _ => true

theorem owns_late {stage : Stage} (hstage : stage.late = true) (state : PairingState)
    (pairingId : String) : (⟨pairingId, stage⟩ : Task).owns state = true ↔
      ∃ running, state = .active running ∧ running.status.pairingId = some pairingId := by
  cases state with
  | active running | invited invite => cases stage <;> simp_all [Task.owns, Stage.late]
  | _ => simp [Task.owns]

/-- The owner of an exchange owns it at every later stage. -/
theorem owns_later {stage : Stage} (hstage : stage.late = true)
    (htask : task.stage = .connecting ∨ task.stage.late = true) (howns : task.owns state = true) :
    (⟨task.pairingId, stage⟩ : Task).owns state = true := by
  rw [owns_late hstage]
  obtain ⟨pairingId, before⟩ := task
  rcases htask with rfl | hlate
  · cases state with
    | active running =>
      simp only [Task.owns, Bool.and_eq_true, beq_iff_eq] at howns
      exact ⟨running, rfl, howns.1.1⟩
    | _ => simp [Task.owns] at howns
  · exact (owns_late hlate state pairingId).1 howns

theorem others_eq_some {stage : Stage → Bool} {rest : List Task}
    (h : others tasks task stage = some rest) :
    task ∈ tasks ∧ stage task.stage = true ∧ rest = tasks.erase task := by
  unfold others at h
  split at h
  · rename_i hmem
    exact ⟨hmem.1, hmem.2, (Option.some.inj h).symm⟩
  · simp at h

end Owners

variable {world next : World} {event : Event}

theorem step_eq (h : machine.step world event = some next) :
    ∃ tasks, goOn world.tasks
        (asked world.manager (event.call world.manager.state)).2 event = some tasks ∧
      next = {
        manager := (asked world.manager (event.call world.manager.state)).1
        clock := (event.readings world.manager.state).getLastD world.clock
        forUser := opener world.forUser world.manager (event.call world.manager.state)
        tasks := tasks } := by
  simp only [machine, step] at h
  split at h
  · obtain ⟨tasks, htasks, hnext⟩ := Option.map_eq_some_iff.1 h
    exact ⟨tasks, htasks, hnext.symm⟩
  · simp at h

theorem readings_cases (event : Event) (state : PairingState) :
    event.call state = none ∨ ∃ act, event.call state = some act ∧
      event.readings state = act.readings := by
  cases hcall : event.call state with
  | none => exact Or.inl rfl
  | some act =>
    refine Or.inr ⟨act, rfl, ?_⟩
    cases event with
    | elapse now => simp [Event.call] at hcall
    | _ => simp [Event.readings, hcall]

theorem due_iff (world : World) : world.due = true ↔
    ∃ deadline, world.manager.state.deadline = some deadline ∧ deadline ≤ world.clock := by
  simp [World.due, PairingState.due, Option.any_eq_true]

theorem timely_iff (world : World) (event : Event) : timely world event = true ↔
    ∀ deadline, world.manager.state.deadline = some deadline →
      (event.readings world.manager.state).getLastD world.clock < deadline ∨
        ∃ act, event.call world.manager.state = some act ∧
          ((∃ now, polls act = some now ∧ deadline ≤ now) ∨
            renews world.manager.state act = true) := by
  simp [timely, Option.all_eq_true, Option.any_eq_true]

/-- No deadline comes unseen. -/
theorem due_step (htimely : timely world event = true)
    (hstep : machine.step world event = some next) : next.due = false := by
  obtain ⟨tasks, -, rfl⟩ := step_eq hstep
  rw [← Bool.not_eq_true, due_iff]
  rintro ⟨deadline, hdeadline, hdue⟩
  rw [timely_iff] at htimely
  rcases readings_cases event world.manager.state with hnone | ⟨act, hcall, hreadings⟩
  · simp only [hnone, asked] at hdeadline
    rcases htimely deadline hdeadline with hearly | ⟨act, hcall, -⟩
    · exact absurd hdue (Nat.not_le.2 hearly)
    · simp [hnone] at hcall
  · simp only [hcall, asked] at hdeadline
    rcases deadline_perform hdeadline with ⟨now, hlast, hnew⟩ | ⟨hbefore, hrenews, hpolls⟩
    · simp only [hreadings, List.getLastD_eq_getLast?, hlast, Option.getD_some] at hdue
      omega
    · rcases htimely deadline hbefore with hearly | ⟨same, hsame, ⟨now, hnow, hlate⟩ | hrenewed⟩
      · exact absurd hdue (Nat.not_le.2 hearly)
      · obtain rfl := Option.some.inj (hcall.symm.trans hsame)
        have := hpolls now hnow
        omega
      · obtain rfl := Option.some.inj (hcall.symm.trans hsame)
        simp [hrenews] at hrenewed

/-- A deadline that comes unseen keeps the slot. -/
theorem due_of_not_timely (hdue : world.due = false) (htimely : timely world event = false)
    (hstep : machine.step world event = some next) : next.due = true := by
  obtain ⟨tasks, -, rfl⟩ := step_eq hstep
  rw [← Bool.not_eq_true, timely_iff] at htimely
  simp only [not_forall, not_or, not_exists, not_and, Nat.not_lt, Nat.not_le] at htimely
  obtain ⟨deadline, hdeadline, hlate, hunseen⟩ := htimely
  have hclock : world.clock < deadline := by
    rw [← Nat.not_le]
    intro hpast
    exact Bool.false_ne_true (hdue.symm.trans ((due_iff world).2 ⟨deadline, hdeadline, hpast⟩))
  rw [due_iff]
  refine ⟨deadline, ?_, hlate⟩
  rcases readings_cases event world.manager.state with hnone | ⟨act, hcall, hreadings⟩
  · simpa only [hnone, asked] using hdeadline
  · simp only [hcall, asked]
    obtain ⟨hpolls, hrenews⟩ := hunseen act hcall
    rw [hreadings, List.getLastD_eq_getLast?] at hlate
    cases hlast : act.readings.getLast? with
    | none =>
      simp only [hlast, Option.getD_none] at hlate
      omega
    | some last =>
      simp only [hlast, Option.getD_some] at hlate
      exact deadline_kept hdeadline hlast hlate hpolls (by simpa using hrenews)

/-- Where a ceremony goes on, its owner does. -/
private theorem orphaned_of_keeps {tasks : List Task} {forUser : Bool} {state : PairingState}
    (hkeeps : Keeps world.manager.state state) (hfor : forUser = world.forUser)
    (howned : taken world.forUser world.manager.state = true →
      owned tasks world.manager.state = true) :
    (taken forUser state && !owned tasks state) = false := by
  subst hfor
  cases htaken : taken world.forUser state with
  | false => rfl
  | true =>
    obtain ⟨hbefore, howns⟩ := hkeeps world.forUser htaken
    have hsame : owned tasks state = owned tasks world.manager.state := by
      unfold owned
      rw [funext howns]
    simp [hsame, howned hbefore]

section Acts

variable {task : Task} {pairingId code : String} {listenAddr : Option String} {full : Bool}
  {now created : Nat} {token : PairingToken} {prepared : Option Nat}

theorem orphaned_finished (hbefore : world.Owned)
    (hstep : machine.step world (.finished task) = some next) : next.orphaned = false := by
  obtain ⟨tasks, htasks, rfl⟩ := step_eq hstep
  simp only [World.orphaned]
  obtain ⟨pairingId, stage⟩ := task
  cases stage with
  | closing phase error =>
    simp only [goOn] at htasks
    obtain ⟨-, -, rfl⟩ := others_eq_some htasks
    rcases finish_cases world.manager.state pairingId phase error with
      ⟨status, hended⟩ | ⟨hsame, hother⟩
    · simp [Event.call, asked, perform, hended, taken]
    · simp only [Event.call, asked, perform, hsame]
      exact orphaned_of_keeps (Keeps.refl _) rfl fun htaken =>
        owned_erase (hbefore htaken) hother
  | _ => simp [goOn] at htasks

theorem orphaned_decided {ended : Option (PairingPhase × Option NodeError)}
    (hbefore : world.Owned)
    (hstep : machine.step world (.decided task ended) = some next) : next.orphaned = false := by
  obtain ⟨tasks, htasks, rfl⟩ := step_eq hstep
  simp only [World.orphaned]
  obtain ⟨rest, hrest, rfl⟩ := Option.map_eq_some_iff.1 htasks
  obtain ⟨-, hstage, rfl⟩ := others_eq_some hrest
  have hlate : task.stage.late = true := by
    rw [beq_iff_eq.1 hstage]
    rfl
  cases ended with
  | some ended =>
    refine orphaned_of_keeps (Keeps.refl _) rfl fun htaken => owned_replace (hbefore htaken) ?_
    exact owns_later rfl (Or.inr hlate)
  | none =>
    refine orphaned_of_keeps (keeps_beginCommit _ task.pairingId) rfl fun htaken => ?_
    split
    all_goals exact owned_replace (hbefore htaken) (owns_later rfl (Or.inr hlate))

theorem orphaned_established {result : Except NodeError (Nat × String × PairingPeer)}
    (hbefore : world.Owned)
    (hstep : machine.step world (.established task result) = some next) :
    next.orphaned = false := by
  obtain ⟨tasks, htasks, rfl⟩ := step_eq hstep
  simp only [World.orphaned]
  obtain ⟨rest, hrest, rfl⟩ := Option.map_eq_some_iff.1 htasks
  obtain ⟨-, hstage, rfl⟩ := others_eq_some hrest
  have hlate : task.stage.late = true := by
    rw [beq_iff_eq.1 hstage]
    rfl
  cases result with
  | error error =>
    refine orphaned_of_keeps (Keeps.refl _) rfl fun htaken => owned_replace (hbefore htaken) ?_
    exact owns_later rfl (Or.inr hlate)
  | ok shown =>
    obtain ⟨now, sas, peer⟩ := shown
    rcases awaiting_cases world.manager.state now task.pairingId sas peer with
      ⟨hsame, -⟩ | ⟨running, after, -, -, hid, -, hafter⟩
    · simp only [Event.call, asked, perform, hsame]
      refine orphaned_of_keeps (Keeps.refl _) rfl fun htaken =>
        owned_replace (hbefore htaken) ?_
      exact owns_later rfl (Or.inr hlate)
    · simp only [Event.call, asked, perform, hafter]
      rw [owned_cons ((owns_late rfl _ _).2 ⟨after, rfl, hid⟩)]
      simp

theorem orphaned_connected {token : Option String} (hbefore : world.Owned)
    (hstep : machine.step world (.connected task token) = some next) : next.orphaned = false := by
  obtain ⟨tasks, htasks, rfl⟩ := step_eq hstep
  simp only [World.orphaned]
  obtain ⟨rest, hrest, rfl⟩ := Option.map_eq_some_iff.1 htasks
  obtain ⟨-, hstage, rfl⟩ := others_eq_some hrest
  have hconnecting := beq_iff_eq.1 hstage
  cases token with
  | none =>
    refine orphaned_of_keeps (Keeps.refl _) rfl fun htaken => owned_replace (hbefore htaken) ?_
    exact owns_later rfl (Or.inl hconnecting)
  | some pairingId =>
    rcases bindJoinId_cases world.manager.state task.pairingId pairingId with
      ⟨hrefused, hother⟩ | ⟨running, -, hbound⟩
    · simp only [Event.call, asked, perform, hrefused]
      refine orphaned_of_keeps (Keeps.refl _) rfl fun htaken =>
        owned_erase (hbefore htaken) ?_
      cases hstate : world.manager.state with
      | active running =>
        have hrunning := hother running hstate
        simp only [Task.owns, hconnecting]
        rw [← Bool.not_eq_true]
        simp only [Bool.and_eq_true, beq_iff_eq]
        exact fun howns => hrunning ⟨howns.1.2, howns.2, howns.1.1⟩
      | _ => simp [Task.owns, hconnecting]
    · simp only [Event.call, asked, perform, hbound]
      rw [owned_cons ((owns_late rfl _ _).2 ⟨_, rfl, rfl⟩)]
      simp

theorem orphaned_pairStart {entry : Except NodeError String} (hbefore : world.Owned)
    (hstep : machine.step world (.pairStart entry) = some next) : next.orphaned = false := by
  obtain ⟨tasks, htasks, rfl⟩ := step_eq hstep
  simp only [World.orphaned]
  cases entry with
  | error error =>
    obtain rfl := Option.some.inj htasks
    exact orphaned_of_keeps (Keeps.refl _) rfl hbefore
  | ok pairingId =>
    rcases beginJoin_cases world.manager.state pairingId with
      ⟨-, hbusy⟩ | ⟨-, running, hid, hrole, hphase, -, hopened⟩
    · simp only [goOn, Event.call, asked, perform, hbusy, Option.some.injEq] at htasks ⊢
      subst htasks
      exact orphaned_of_keeps (Keeps.refl _) rfl hbefore
    · simp only [goOn, Event.call, asked, perform, hopened, Option.some.injEq] at htasks ⊢
      subst htasks
      rw [owned_cons (by simp [Task.owns, hid, hrole, hphase])]
      simp

theorem orphaned_pairCreateInvite (hbefore : world.Owned)
    (hstep : machine.step world (.pairCreateInvite full now token code listenAddr) = some next) :
    next.orphaned = false := by
  obtain ⟨tasks, htasks, rfl⟩ := step_eq hstep
  simp only [World.orphaned]
  obtain rfl := Option.some.inj htasks
  cases full with
  | true => exact orphaned_of_keeps (Keeps.refl _) rfl hbefore
  | false =>
    rcases createInvite_cases world.manager.state now token code listenAddr with
      ⟨-, hbusy⟩ | ⟨-, invite, -, -, -, hopened⟩
    · refine orphaned_of_keeps ?_ ?_ hbefore
      · simp only [Event.call, asked, perform, hbusy, Bool.false_eq_true, if_false]
        exact Keeps.refl _
      · simp [Event.call, opener, begins, perform, hbusy, Except.map]
    · simp [Event.call, asked, opener, begins, perform, hopened, Except.map, taken]

theorem orphaned_nearbyInvite (hbefore : world.Owned)
    (hstep : machine.step world (.nearbyInvite now created token code) = some next) :
    next.orphaned = false := by
  obtain ⟨tasks, htasks, rfl⟩ := step_eq hstep
  simp only [World.orphaned]
  simp only [goOn] at htasks
  split at htasks
  · simp at htasks
  · rcases nearbyInvite_cases world.manager now created token code with
      hrefused | ⟨-, invite, -, -, hid, hopened⟩
    · simp only [Event.call, asked, perform, hrefused, Option.some.injEq] at htasks ⊢
      subst htasks
      exact orphaned_of_keeps (Keeps.refl _) (by simp [opener, begins, perform, hrefused]) hbefore
    · simp only [Event.call, asked, perform, hopened, Option.some.injEq] at htasks ⊢
      subst htasks
      rw [owned_cons (by simp [Task.owns, hid])]
      simp

theorem orphaned_nearbyRead (hbefore : world.Owned)
    (hstep : machine.step world (.nearbyRead task now) = some next) : next.orphaned = false := by
  obtain ⟨tasks, htasks, rfl⟩ := step_eq hstep
  simp only [World.orphaned]
  obtain ⟨rest, hrest, rfl⟩ := Option.map_eq_some_iff.1 htasks
  obtain ⟨-, hstage, rfl⟩ := others_eq_some hrest
  have hreading := beq_iff_eq.1 hstage
  have hkeeps := keeps_expireDue world.manager.state now
  simp only [Event.call, asked, perform, invitationCandidate, opener]
  cases hstate : expireDue world.manager.state now with
  | invited invite =>
    obtain ⟨hsame, -⟩ := invited_expireDue hstate
    refine orphaned_of_keeps (hsame ▸ Keeps.refl _) rfl fun htaken => ?_
    refine owned_replace (hbefore htaken) fun howns => ?_
    simp only [Task.owns, hsame, hreading, beq_iff_eq] at howns ⊢
    simp [howns]
  | active running =>
    rw [hstate] at hkeeps
    refine orphaned_of_keeps hkeeps rfl fun htaken => owned_erase (hbefore htaken) ?_
    rw [← (hkeeps world.forUser rfl).2 task]
    simp [Task.owns, hreading]
  | idle | terminal => simp [taken]

theorem orphaned_refused (hbefore : world.Owned)
    (hstep : machine.step world (.refused task) = some next) : next.orphaned = false := by
  obtain ⟨tasks, htasks, rfl⟩ := step_eq hstep
  simp only [World.orphaned]
  simp only [goOn] at htasks
  obtain ⟨-, hstage, rfl⟩ := others_eq_some htasks
  obtain ⟨pairingId, stage⟩ := task
  obtain rfl := beq_iff_eq.1 hstage
  rcases cancelReservation_cases world.manager.state pairingId with
    ⟨status, hended⟩ | ⟨hsame, hother⟩
  · simp [Event.call, asked, perform, hended, taken]
  · simp only [Event.call, asked, perform, hsame]
    exact orphaned_of_keeps (Keeps.refl _) rfl fun htaken => owned_erase (hbefore htaken) hother

theorem orphaned_drop (hkept : Kept world (.drop task))
    (hstep : machine.step world (.drop task) = some next) : next.orphaned = false := by
  obtain ⟨tasks, htasks, rfl⟩ := step_eq hstep
  simp only [World.orphaned]
  simp only [goOn] at htasks
  obtain ⟨-, -, rfl⟩ := others_eq_some htasks
  have hleft : taken world.forUser world.manager.state = true →
      owned (world.tasks.erase task) world.manager.state = true := by
    intro htaken
    simpa [held, htaken] using hkept.2
  cases howns : task.owns world.manager.state with
  | true =>
    simp only [Event.call, howns, if_true, asked, perform, opener]
    exact orphaned_of_keeps (keeps_stopListening _) rfl hleft
  | false =>
    simp only [Event.call, howns, Bool.false_eq_true, if_false, asked, opener]
    exact orphaned_of_keeps (Keeps.refl _) rfl hleft

theorem orphaned_acceptNearby (hbefore : world.Owned)
    (hkept : Kept world (.acceptNearby task prepared))
    (hstep : machine.step world (.acceptNearby task prepared) = some next) :
    next.orphaned = false := by
  obtain ⟨tasks, htasks, rfl⟩ := step_eq hstep
  simp only [World.orphaned]
  obtain ⟨rest, hrest, rfl⟩ := Option.map_eq_some_iff.1 htasks
  obtain ⟨-, hstage, rfl⟩ := others_eq_some hrest
  have hanswering := beq_iff_eq.1 hstage
  cases prepared with
  | none =>
    have hleft : taken world.forUser world.manager.state = true →
        owned (world.tasks.erase task) world.manager.state = true := by
      intro htaken
      simpa [held, htaken] using hkept.2
    exact orphaned_of_keeps (Keeps.refl _) rfl hleft
  | some now =>
    rcases beginResponder_cases world.manager.state now task.pairingId with
      ⟨hrefused, hother⟩ | ⟨invite, running, psk, -, -, hid, -, htaken⟩
    · simp only [Event.call, asked, perform, hrefused]
      refine orphaned_of_keeps (Keeps.refl _) rfl fun htaken =>
        owned_erase (hbefore htaken) ?_
      rw [← Bool.not_eq_true]
      intro howns
      -- The reservation of a task that may not take it any more is due.
      cases hstate : world.manager.state with
      | invited invite =>
        simp only [Task.owns, hstate, hanswering, beq_iff_eq] at howns
        have hlate : ¬ now < invite.expiresAt := fun hopen => hother invite hstate ⟨howns, hopen⟩
        rcases (timely_iff _ _).1 hkept.1 invite.expiresAt (by rw [hstate]; rfl) with
          hopen | ⟨act, hcall, hseen⟩
        · exact hlate (by simpa [Event.readings, Event.call, Act.readings] using hopen)
        · obtain rfl := Option.some.inj hcall
          simp [polls, renews] at hseen
      | _ => simp [Task.owns, hstate, hanswering] at howns
    · simp only [Event.call, asked, perform, htaken]
      rw [owned_cons ((owns_late rfl _ _).2 ⟨running, rfl, hid⟩)]
      simp

theorem orphaned_acceptInvited (hbefore : world.Owned)
    (hstep : machine.step world (.acceptInvited pairingId prepared) = some next) :
    next.orphaned = false := by
  obtain ⟨tasks, htasks, rfl⟩ := step_eq hstep
  simp only [World.orphaned]
  cases prepared with
  | none =>
    obtain rfl := Option.some.inj htasks
    exact orphaned_of_keeps (Keeps.refl _) rfl hbefore
  | some now =>
    rcases beginResponder_cases world.manager.state now pairingId with
      ⟨hrefused, -⟩ | ⟨invite, running, psk, -, -, hid, -, htaken⟩
    · simp only [goOn, Event.call, asked, perform, hrefused, Option.some.injEq] at htasks ⊢
      subst htasks
      exact orphaned_of_keeps (Keeps.refl _) rfl hbefore
    · simp only [goOn, Event.call, asked, perform, htaken, Option.some.injEq] at htasks ⊢
      subst htasks
      rw [owned_cons ((owns_late rfl _ _).2 ⟨running, rfl, hid⟩)]
      simp

end Acts

theorem orphaned_step (hreleased : world.Released) (hkept : Kept world event)
    (hstep : machine.step world event = some next) : next.orphaned = false := by
  have hbefore : world.Owned := by
    have := ((released_iff world).1 hreleased).2
    intro htaken
    simpa [World.orphaned, htaken] using this
  cases event with
  | elapse now =>
    obtain ⟨tasks, htasks, rfl⟩ := step_eq hstep
    obtain rfl := Option.some.inj htasks
    exact orphaned_of_keeps (Keeps.refl _) rfl hbefore
  | pairingCandidate now | pairProgress now =>
    obtain ⟨tasks, htasks, rfl⟩ := step_eq hstep
    obtain rfl := Option.some.inj htasks
    exact orphaned_of_keeps (keeps_expireDue _ _) rfl hbefore
  | pairConfirm now read accept =>
    obtain ⟨tasks, htasks, rfl⟩ := step_eq hstep
    obtain rfl := Option.some.inj htasks
    exact orphaned_of_keeps (keeps_confirm _ _ _ _) rfl hbefore
  | pairCancel =>
    obtain ⟨tasks, htasks, rfl⟩ := step_eq hstep
    obtain rfl := Option.some.inj htasks
    exact orphaned_of_keeps (keeps_cancel _) rfl hbefore
  | persisted task phase error =>
    obtain ⟨tasks, htasks, rfl⟩ := step_eq hstep
    obtain ⟨rest, hrest, rfl⟩ := Option.map_eq_some_iff.1 htasks
    obtain ⟨-, hstage, rfl⟩ := others_eq_some hrest
    refine orphaned_of_keeps (Keeps.refl _) rfl fun htaken => owned_replace (hbefore htaken) ?_
    exact owns_later rfl (Or.inr (by rw [beq_iff_eq.1 hstage]; rfl))
  | finished task => exact orphaned_finished hbefore hstep
  | decided task ended => exact orphaned_decided hbefore hstep
  | established task result => exact orphaned_established hbefore hstep
  | connected task token => exact orphaned_connected hbefore hstep
  | pairStart entry => exact orphaned_pairStart hbefore hstep
  | pairCreateInvite full now token code listenAddr =>
    exact orphaned_pairCreateInvite hbefore hstep
  | nearbyInvite now created token code => exact orphaned_nearbyInvite hbefore hstep
  | nearbyRead task now => exact orphaned_nearbyRead hbefore hstep
  | refused task => exact orphaned_refused hbefore hstep
  | drop task => exact orphaned_drop hkept hstep
  | acceptNearby task prepared => exact orphaned_acceptNearby hbefore hkept hstep
  | acceptInvited pairingId prepared => exact orphaned_acceptInvited hbefore hstep

theorem released_step (hreleased : world.Released) (hkept : Kept world event)
    (hstep : machine.step world event = some next) : next.Released :=
  (released_iff next).2 ⟨due_step hkept.1 hstep, orphaned_step hreleased hkept hstep⟩

/-- The last task of a ceremony that goes without its end keeps the slot. -/
theorem orphaned_of_not_held (hheld : held world event = false)
    (hstep : machine.step world event = some next) : next.orphaned = true := by
  obtain ⟨tasks, htasks, rfl⟩ := step_eq hstep
  cases event with
  | drop task =>
    simp only [held, Bool.or_eq_false_iff, Bool.not_eq_false'] at hheld
    simp only [goOn] at htasks
    obtain ⟨-, -, rfl⟩ := others_eq_some htasks
    cases howns : task.owns world.manager.state with
    | true =>
      simp only [World.orphaned, Event.call, howns, if_true, asked, perform, opener]
      have htaken : taken world.forUser (stopListening world.manager.state) = true := by
        rw [taken_stopListening]
        exact hheld.1
      have hsame := (keeps_stopListening world.manager.state world.forUser htaken).2
      have hleft := hheld.2
      unfold owned at hleft ⊢
      rw [funext hsame, htaken, hleft]
      rfl
    | false =>
      simp [World.orphaned, Event.call, howns, asked, opener, hheld]
  | acceptNearby task prepared =>
    cases prepared with
    | none =>
      simp only [held, Bool.or_eq_false_iff, Bool.not_eq_false'] at hheld
      obtain ⟨rest, hrest, rfl⟩ := Option.map_eq_some_iff.1 htasks
      obtain ⟨-, -, rfl⟩ := others_eq_some hrest
      simp [World.orphaned, Event.call, asked, opener, hheld]
    | some now => simp [held] at hheld
  | _ => simp [held] at hheld

theorem not_released_of_not_kept (hreleased : world.Released) (hkept : ¬ Kept world event)
    (hstep : machine.step world event = some next) : ¬ next.Released := by
  rw [released_iff]
  rintro ⟨hdue, horphaned⟩
  rw [Kept, not_and_or, Bool.not_eq_true, Bool.not_eq_true] at hkept
  rcases hkept with htimely | hheld
  · rw [due_of_not_timely ((released_iff world).1 hreleased).1 htimely hstep] at hdue
    simp at hdue
  · rw [orphaned_of_not_held hheld hstep] at horphaned
    simp at horphaned

/-- Over a whole run, the slot is free of ceremonies that are over just where no deadline
comes unseen and no ceremony loses its last task. -/
theorem released_along_iff {events : List Event} {last : World} (hreleased : world.Released)
    (hrun : run machine world events = some last) :
    (∀ before reached, before <+: events → run machine world before = some reached →
      reached.Released) ↔ Meets machine Kept world events := by
  induction events generalizing world with
  | nil =>
    refine ⟨fun _ => trivial, fun _ before reached hbefore hreached => ?_⟩
    obtain rfl := List.prefix_nil.1 hbefore
    exact Option.some.inj hreached ▸ hreleased
  | cons event rest ih =>
    obtain ⟨middle, hstep, hrest⟩ := Option.bind_eq_some_iff.1 hrun
    constructor
    · intro halong
      have hmiddle : middle.Released := by
        refine halong [event] middle ⟨rest, rfl⟩ ?_
        simp [run, hstep]
      have hkept : Kept world event :=
        Classical.not_not.1 fun hnot => not_released_of_not_kept hreleased hnot hstep hmiddle
      refine ⟨hkept, fun next hnext => ?_⟩
      obtain rfl := Option.some.inj (hstep.symm.trans hnext)
      refine (ih hmiddle hrest).1 fun before reached hbefore hreached => ?_
      refine halong (event :: before) reached ?_ ?_
      · exact List.prefix_cons_inj event |>.2 hbefore
      · simp [run, hstep, hreached]
    · rintro ⟨hkept, hmeets⟩ before reached hbefore hreached
      cases before with
      | nil => exact Option.some.inj hreached ▸ hreleased
      | cons first before =>
        obtain ⟨rfl, htail⟩ := List.cons_prefix_cons.1 hbefore
        obtain ⟨next, hnext, hreached⟩ := Option.bind_eq_some_iff.1 hreached
        obtain rfl := Option.some.inj (hstep.symm.trans hnext)
        exact (ih (released_step hreleased hkept hstep) hrest).2 (hmeets middle hstep) before
          reached htail hreached

instance (world : World) (event : Event) : Decidable (Kept world event) :=
  inferInstanceAs (Decidable (timely world event = true ∧ held world event = true))

theorem start_released (clock : Nat) : ({ clock := clock } : World).Released :=
  (released_iff _).2 ⟨rfl, rfl⟩

/-- The same from the start of the device. -/
theorem slot_released_iff (clock : Nat) (events : List Event) (last : World)
    (hrun : run machine { clock := clock } events = some last) :
    (∀ before reached, before <+: events →
      run machine { clock := clock } before = some reached → reached.Released) ↔
      Meets machine Kept { clock := clock } events :=
  released_along_iff (start_released clock) hrun

def sampleToken : PairingToken := ⟨"invitation", [1, 2]⟩

/-- The user's invitation is looked at once its two minutes are over, a join fails, a nearby
request is refused, and the user invites again. -/
def sampleEvents : List Event := [
  .pairCreateInvite false 0 sampleToken "code" none,
  .pairProgress (120 * 10 ^ 9),
  .pairStart (.ok "join"),
  .connected ⟨"join", .connecting⟩ none,
  .finished ⟨"join", .closing .failed (some .handshake)⟩,
  .nearbyInvite (121 * 10 ^ 9) (121 * 10 ^ 9) ⟨"nearby", [3]⟩ "code",
  .nearbyRead ⟨"nearby", .reading⟩ (121 * 10 ^ 9),
  .refused ⟨"nearby", .answering⟩,
  .pairCreateInvite false (122 * 10 ^ 9) ⟨"again", [4]⟩ "code" none]

theorem slot_released_here : Meets machine Kept {} sampleEvents ∧
    ∀ before reached, before <+: sampleEvents →
      run machine {} before = some reached → reached.Released := by
  have hkept : Meets machine Kept {} sampleEvents := by decide
  have hsome : (run machine {} sampleEvents).isSome := by decide
  obtain ⟨last, hlast⟩ := Option.isSome_iff_exists.1 hsome
  exact ⟨hkept, (slot_released_iff 0 sampleEvents last hlast).2 hkept⟩

/-- An invitation whose two minutes are over keeps the next one out, as does a join that was
dropped before it had its session, and a nearby request whose connection could not prepare
the group. -/
theorem slot_held :
    (∃ reached, run machine {} [.pairCreateInvite false 0 sampleToken "code" none,
        .elapse (120 * 10 ^ 9)] = some reached ∧ reached.due = true ∧ ¬ reached.Released) ∧
      (∃ reached, run machine {} [.pairStart (.ok "join"),
        .drop ⟨"join", .connecting⟩] = some reached ∧ reached.orphaned = true ∧
        ¬ reached.Released) ∧
      ∃ reached, run machine {} [.nearbyInvite 0 0 sampleToken "code",
        .nearbyRead ⟨"invitation", .reading⟩ 0,
        .acceptNearby ⟨"invitation", .answering⟩ none] = some reached ∧
        reached.orphaned = true ∧ ¬ reached.Released := by
  refine ⟨⟨_, rfl, rfl, ?_⟩, ⟨_, rfl, rfl, ?_⟩, ⟨_, rfl, rfl, ?_⟩⟩
  · rw [released_iff]
    exact fun h => Bool.noConfusion h.1
  · rw [released_iff]
    exact fun h => Bool.noConfusion h.2
  · rw [released_iff]
    exact fun h => Bool.noConfusion h.2

end CopyPaste.Node.SlotRelease
