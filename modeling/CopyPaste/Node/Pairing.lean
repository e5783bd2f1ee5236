import Mathlib

/-!
The pairing slot of a device. One ceremony at a time is an open invitation or a running
exchange; the user, the listener and the task that runs the exchange act on it, each under
the slot's lock. Instants are nanoseconds.
-/

namespace CopyPaste.Node.Pairing

def pairingInviteTtl : Nat := 120 * 10 ^ 9

def pairingConfirmTimeout : Nat := 60 * 10 ^ 9

def nearbyRequestInterval : Nat := 5 * 10 ^ 9

/-- What the pairing calls fail with. -/
inductive NodeError
  | badCode
  | badAddress
  | handshake
  | pairingBusy
  | noPairing
  | alreadyPaired
  | session
  | timeout
  | peerStore
  | tooManyPairings
  deriving DecidableEq, Repr

inductive PairingRole
  | initiator
  | responder
  deriving DecidableEq, Repr

inductive PairingPhase
  | idle
  | waitingForPeer
  | handshaking
  | awaitingConfirmation
  | confirmed
  | rejected
  | cancelled
  | timedOut
  | failed
  deriving DecidableEq, Repr

structure PairingPeer where
  pairingId : String
  deviceId : String
  name : String
  addr : Option String
  deriving DecidableEq, Repr

structure PairingStatus where
  pairingId : Option String
  role : Option PairingRole
  phase : PairingPhase
  sas : Option String
  peer : Option PairingPeer
  error : Option NodeError
  expiresInMs : Option Nat
  deriving DecidableEq, Repr

def PairingStatus.idle : PairingStatus := ⟨none, none, .idle, none, none, none, none⟩

/-- A token with the id that is hashed from it. -/
structure PairingToken where
  pairingId : String
  psk : List UInt8
  deriving DecidableEq, Repr

structure PairingInvite where
  code : String
  pairingId : String
  listenAddr : Option String
  expiresInSecs : Nat
  deriving DecidableEq, Repr

/-- What the listener offers an inbound handshake. -/
structure PairingCandidate where
  code : String
  pairingId : String
  psk : List UInt8
  deriving DecidableEq, Repr

inductive LocalDecision
  | pending
  | accept
  | reject
  | cancel
  | expire
  deriving DecidableEq, Repr

/-- The channel to the task that runs the exchange; sending fails with nobody listening. -/
structure Control where
  decision : LocalDecision := .pending
  listening : Bool := false
  deriving DecidableEq, Repr

def Control.send (control : Control) (decision : LocalDecision) : Option Control :=
  if control.listening then some { control with decision := decision } else none

structure Invitation where
  status : PairingStatus
  token : PairingToken
  code : String
  expiresAt : Nat
  control : Control
  deriving DecidableEq, Repr

structure Active where
  status : PairingStatus
  control : Control
  expiresAt : Option Nat
  committing : Bool
  deriving DecidableEq, Repr

inductive PairingState
  | idle
  | invited (invite : Invitation)
  | active (active : Active)
  | terminal (status : PairingStatus)
  deriving DecidableEq, Repr

structure PairingManager where
  state : PairingState := .idle
  nextNearbyRequest : Option Nat := none
  deriving DecidableEq, Repr

def PairingState.live : PairingState → Bool
  | .invited _ => true
  | .active _ => true
  | _ => false

def PairingState.pairingId : PairingState → Option String
  | .idle => none
  | .invited invite => invite.status.pairingId
  | .active running => running.status.pairingId
  | .terminal status => status.pairingId

def terminalFrom (state : PairingState) (phase : PairingPhase) (error : Option NodeError) :
    PairingStatus :=
  let status := match state with
    | .invited invite => invite.status
    | .active running => running.status
    | .terminal status => status
    | .idle => .idle
  { status with phase := phase, error := error, sas := none, expiresInMs := none }

def PairingState.deadline : PairingState → Option Nat
  | .invited invite => some invite.expiresAt
  | .active running => running.expiresAt
  | _ => none

def PairingState.due (state : PairingState) (now : Nat) : Bool :=
  state.deadline.any fun deadline => decide (deadline ≤ now)

def expireDue (state : PairingState) (now : Nat) : PairingState :=
  if state.due now then .terminal (terminalFrom state .timedOut none) else state

def remainingMs (deadline now : Nat) : Nat :=
  let remaining := deadline - now
  min (2 ^ 64 - 1) (min (2 ^ 64 - 1) (remaining / 10 ^ 6) +
    if remaining ≠ 0 ∧ remaining % 10 ^ 9 % 10 ^ 6 ≠ 0 then 1 else 0)

def snapshot (status : PairingStatus) (expiresAt : Option Nat) (now : Nat) : PairingStatus :=
  { status with expiresInMs := expiresAt.map fun deadline => remainingMs deadline now }

/-- Open an invitation, unless a ceremony is live. -/
def createInvite (state : PairingState) (now : Nat) (token : PairingToken) (code : String)
    (listenAddr : Option String) : PairingState × Except NodeError PairingInvite :=
  if state.live then (state, .error .pairingBusy)
  else
    (.invited {
      status := ⟨some token.pairingId, some .responder, .waitingForPeer, none, none, none, none⟩
      token := token
      code := code
      expiresAt := now + pairingInviteTtl
      control := {} },
      .ok ⟨code, token.pairingId, listenAddr, pairingInviteTtl / 10 ^ 9⟩)

def invitationCandidate (state : PairingState) (now : Nat) :
    PairingState × Option PairingCandidate :=
  let state := expireDue state now
  (state, match state with
    | .invited invite =>
      some ⟨invite.code, invite.status.pairingId.getD "", invite.token.psk⟩
    | _ => none)

/-- Open an invitation for a device nearby, at most once in five seconds. The clock is read
for the limit and for the invitation. -/
def nearbyInvite (manager : PairingManager) (now created : Nat) (token : PairingToken)
    (code : String) : PairingManager × Bool :=
  if manager.nextNearbyRequest.any fun deadline => decide (now < deadline) then (manager, false)
  else
    match createInvite manager.state created token code none with
    | (state, .error _) => ({ manager with state := state }, false)
    | (state, .ok _) => (⟨state, some (now + nearbyRequestInterval)⟩, true)

def bindJoinId (state : PairingState) (previous pairingId : String) :
    PairingState × Except NodeError Unit :=
  match state with
  | .active active =>
    if active.status.role = some .initiator ∧ active.status.phase = .handshaking ∧
        active.status.pairingId = some previous then
      (.active { active with status := { active.status with pairingId := some pairingId } }, .ok ())
    else (state, .error .noPairing)
  | _ => (state, .error .noPairing)

/-- Take the invitation an inbound handshake has answered. -/
def beginResponder (state : PairingState) (now : Nat) (pairingId : String) :
    PairingState × Except NodeError (List UInt8) :=
  match state with
  | .invited invite =>
    if invite.status.pairingId = some pairingId ∧ now < invite.expiresAt then
      (.active {
        status := { invite.status with phase := .handshaking }
        control := { invite.control with listening := true }
        expiresAt := none
        committing := false },
        .ok invite.token.psk)
    else (state, .error .noPairing)
  | _ => (state, .error .noPairing)

def beginJoin (state : PairingState) (pairingId : String) :
    PairingState × Except NodeError Unit :=
  if state.live then (state, .error .pairingBusy)
  else
    (.active {
      status := ⟨some pairingId, some .initiator, .handshaking, none, none, none, none⟩
      control := { listening := true }
      expiresAt := none
      committing := false }, .ok ())

def awaiting (state : PairingState) (now : Nat) (pairingId sas : String) (peer : PairingPeer) :
    PairingState :=
  match state with
  | .active active =>
    if active.status.pairingId = some pairingId then
      .active { active with
        status := { active.status with
          phase := .awaitingConfirmation, sas := some sas, peer := some peer }
        expiresAt := some (now + pairingConfirmTimeout) }
    else state
  | _ => state

def finish (state : PairingState) (pairingId : String) (phase : PairingPhase)
    (error : Option NodeError) : PairingState :=
  match state with
  | .active active =>
    if active.status.pairingId = some pairingId then
      .terminal { active.status with
        phase := phase, error := error, sas := none, expiresInMs := none }
    else state
  | _ => state

def beginCommit (state : PairingState) (pairingId : String) : PairingState × Bool :=
  match state with
  | .active active =>
    if active.status.pairingId = some pairingId then
      (.active { active with committing := true, expiresAt := none }, true)
    else (state, false)
  | _ => (state, false)

def confirm (state : PairingState) (now read : Nat) (accept : Bool) :
    PairingState × Except NodeError PairingStatus :=
  match expireDue state now with
  | .terminal status =>
    (.terminal status, if status.phase = .timedOut then .ok status else .error .noPairing)
  | .active active =>
    if active.status.phase ≠ .awaitingConfirmation then (.active active, .error .noPairing)
    else
      match active.control.send (if accept then .accept else .reject) with
      | none => (.active active, .error .session)
      | some control =>
        (.active { active with control := control },
          .ok (snapshot active.status active.expiresAt read))
  | state => (state, .error .noPairing)

def cancelReservation (state : PairingState) (pairingId : String) : PairingState :=
  match state with
  | .invited invite =>
    if invite.status.pairingId = some pairingId then
      .terminal { invite.status with phase := .cancelled }
    else state
  | _ => state

def cancel (state : PairingState) : PairingState × PairingStatus :=
  match state with
  | .idle => (state, .idle)
  | .invited invite =>
    let status := { invite.status with phase := .cancelled, sas := none, expiresInMs := none }
    (.terminal status, status)
  | .active active =>
    if active.committing then (state, active.status)
    else
      let status := { active.status with phase := .cancelled, sas := none, expiresInMs := none }
      (.terminal status, status)
  | .terminal status => (state, status)

def progress (state : PairingState) (now : Nat) : PairingState × PairingStatus :=
  let state := expireDue state now
  (state, match state with
    | .idle => .idle
    | .invited invite => snapshot invite.status (some invite.expiresAt) now
    | .active active => snapshot active.status active.expiresAt now
    | .terminal status => status)

/-- The operations, each with the instants it reads off the clock. A request from nearby
unlocks the slot between its invitation and its candidate: others may come between them. -/
inductive Act
  | createInvite (now : Nat) (token : PairingToken) (code : String) (listenAddr : Option String)
  | nearbyInvite (now created : Nat) (token : PairingToken) (code : String)
  | invitationCandidate (now : Nat)
  | bindJoinId (previous pairingId : String)
  | beginResponder (now : Nat) (pairingId : String)
  | beginJoin (pairingId : String)
  | awaiting (now : Nat) (pairingId sas : String) (peer : PairingPeer)
  | confirm (now read : Nat) (accept : Bool)
  | beginCommit (pairingId : String)
  | finish (pairingId : String) (phase : PairingPhase) (error : Option NodeError)
  | cancel
  | cancelReservation (pairingId : String)
  | progress (now : Nat)
  | stopListening
  deriving DecidableEq, Repr

/-- The answers, as far as the callers go on from them. -/
inductive Answer
  | begun (result : Except NodeError Unit)
  | reserved (opened : Bool)
  | candidate (offered : Option PairingCandidate)
  | bound (result : Except NodeError Unit)
  | taken (result : Except NodeError (List UInt8))
  | confirmed (result : Except NodeError PairingStatus)
  | committed (won : Bool)
  | status (status : PairingStatus)
  | none

/-- The receiver of the decisions goes with the task that held it. -/
def stopListening (state : PairingState) : PairingState :=
  match state with
  | .active active => .active { active with control := { active.control with listening := false } }
  | _ => state

def perform (manager : PairingManager) : Act → PairingManager × Answer
  | .createInvite now token code listenAddr =>
    let (state, result) := createInvite manager.state now token code listenAddr
    ({ manager with state := state }, .begun (result.map fun _ => ()))
  | .nearbyInvite now created token code =>
    let (manager, opened) := nearbyInvite manager now created token code
    (manager, .reserved opened)
  | .invitationCandidate now =>
    let (state, offered) := invitationCandidate manager.state now
    ({ manager with state := state }, .candidate offered)
  | .bindJoinId previous pairingId =>
    let (state, result) := bindJoinId manager.state previous pairingId
    ({ manager with state := state }, .bound result)
  | .beginResponder now pairingId =>
    let (state, result) := beginResponder manager.state now pairingId
    ({ manager with state := state }, .taken result)
  | .beginJoin pairingId =>
    let (state, result) := beginJoin manager.state pairingId
    ({ manager with state := state }, .begun result)
  | .awaiting now pairingId sas peer =>
    ({ manager with state := awaiting manager.state now pairingId sas peer }, .none)
  | .confirm now read accept =>
    let (state, result) := confirm manager.state now read accept
    ({ manager with state := state }, .confirmed result)
  | .beginCommit pairingId =>
    let (state, won) := beginCommit manager.state pairingId
    ({ manager with state := state }, .committed won)
  | .finish pairingId phase error =>
    ({ manager with state := finish manager.state pairingId phase error }, .none)
  | .cancel =>
    let (state, status) := cancel manager.state
    ({ manager with state := state }, .status status)
  | .cancelReservation pairingId =>
    ({ manager with state := cancelReservation manager.state pairingId }, .none)
  | .progress now =>
    let (state, status) := progress manager.state now
    ({ manager with state := state }, .status status)
  | .stopListening => ({ manager with state := stopListening manager.state }, .none)

example (manager : PairingManager) :
    (perform manager .cancel).1.state = (cancel manager.state).1 := by
  simp only [perform]

/-- The instants an operation reads, in the order it reads them. -/
def Act.readings : Act → List Nat
  | .createInvite now _ _ _ => [now]
  | .nearbyInvite now created _ _ => [now, created]
  | .invitationCandidate now => [now]
  | .beginResponder now _ => [now]
  | .awaiting now _ _ _ => [now]
  | .confirm now read _ => [now, read]
  | .progress now => [now]
  | _ => []

/-- Whether an operation began a ceremony, by its answer. -/
def begins (manager : PairingManager) (act : Act) : Bool :=
  match (perform manager act).2 with
  | .begun (.ok _) => true
  | .reserved opened => opened
  | _ => false

/-- The invitation an operation opened: its token and its deadline. -/
def issues (manager : PairingManager) (act : Act) : Option (PairingToken × Nat) :=
  match act with
  | .createInvite now token _ _ =>
    if begins manager act then some (token, now + pairingInviteTtl) else none
  | .nearbyInvite _ created token _ =>
    if begins manager act then some (token, created + pairingInviteTtl) else none
  | _ => none

/-- The operations that may begin one. -/
def Act.opens : Act → Bool
  | .createInvite _ _ _ _ => true
  | .nearbyInvite _ _ _ _ => true
  | .beginJoin _ => true
  | _ => false

/-- The pairing an operation is about. -/
def Act.names : Act → Option String
  | .bindJoinId previous _ => some previous
  | .awaiting _ pairingId _ _ => some pairingId
  | .beginCommit pairingId => some pairingId
  | .finish pairingId _ _ => some pairingId
  | .cancelReservation pairingId => some pairingId
  | _ => none

def PairingState.token : PairingState → Option PairingToken
  | .invited invite => some invite.token
  | _ => none

def PairingState.committing (state : PairingState) (pairingId : String) : Prop :=
  ∃ active, state = .active active ∧ active.status.pairingId = some pairingId ∧
    active.committing = true

section Operations

variable {manager : PairingManager} {act : Act}

theorem expireDue_cases (state : PairingState) (now : Nat) :
    expireDue state now = state ∧ state.due now = false ∨
      state.due now = true ∧ ∃ status, expireDue state now = .terminal status := by
  unfold expireDue
  cases hdue : state.due now with
  | true => exact Or.inr ⟨rfl, _, if_pos rfl⟩
  | false => exact Or.inl ⟨if_neg (by simp), rfl⟩

variable {state : PairingState} {now : Nat}

theorem invited_expireDue {invite : Invitation} (h : expireDue state now = .invited invite) :
    state = .invited invite ∧ now < invite.expiresAt := by
  rcases expireDue_cases state now with ⟨hsame, hdue⟩ | ⟨-, status, hstatus⟩
  · rw [hsame] at h
    subst h
    refine ⟨rfl, ?_⟩
    simpa [PairingState.due, PairingState.deadline] using hdue
  · rw [hstatus] at h
    simp at h

theorem createInvite_cases (state : PairingState) (now : Nat) (token : PairingToken)
    (code : String) (listenAddr : Option String) :
    state.live = true ∧
        createInvite state now token code listenAddr = (state, .error .pairingBusy) ∨
      state.live = false ∧ ∃ invite, invite.token = token ∧
        invite.expiresAt = now + pairingInviteTtl ∧
        invite.status.pairingId = some token.pairingId ∧
        createInvite state now token code listenAddr = (.invited invite,
          .ok ⟨code, token.pairingId, listenAddr, pairingInviteTtl / 10 ^ 9⟩) := by
  unfold createInvite
  cases hlive : state.live with
  | true => exact Or.inl ⟨rfl, if_pos rfl⟩
  | false => exact Or.inr ⟨rfl, _, rfl, rfl, rfl, if_neg (by simp)⟩

theorem nearbyInvite_cases (manager : PairingManager) (now created : Nat) (token : PairingToken)
    (code : String) :
    nearbyInvite manager now created token code = (manager, false) ∨
      manager.state.live = false ∧ ∃ invite, invite.token = token ∧
        invite.expiresAt = created + pairingInviteTtl ∧
        invite.status.pairingId = some token.pairingId ∧
        nearbyInvite manager now created token code =
          (⟨.invited invite, some (now + nearbyRequestInterval)⟩, true) := by
  unfold nearbyInvite
  split
  · exact Or.inl rfl
  · rcases createInvite_cases manager.state created token code none with
      ⟨-, hbusy⟩ | ⟨hlive, invite, htoken, hdeadline, hid, hopened⟩
    · rw [hbusy]
      exact Or.inl rfl
    · rw [hopened]
      exact Or.inr ⟨hlive, invite, htoken, hdeadline, hid, rfl⟩

theorem beginJoin_cases (state : PairingState) (pairingId : String) :
    state.live = true ∧ beginJoin state pairingId = (state, .error .pairingBusy) ∨
      state.live = false ∧ ∃ running, running.status.pairingId = some pairingId ∧
        running.status.role = some .initiator ∧ running.status.phase = .handshaking ∧
        running.expiresAt = none ∧ beginJoin state pairingId = (.active running, .ok ()) := by
  unfold beginJoin
  cases hlive : state.live with
  | true => exact Or.inl ⟨rfl, if_pos rfl⟩
  | false => exact Or.inr ⟨rfl, _, rfl, rfl, rfl, rfl, if_neg (by simp)⟩

theorem bindJoinId_cases (state : PairingState) (previous pairingId : String) :
    bindJoinId state previous pairingId = (state, .error .noPairing) ∧
        (∀ running, state = .active running → ¬ (running.status.role = some .initiator ∧
          running.status.phase = .handshaking ∧ running.status.pairingId = some previous)) ∨
      ∃ running, state = .active running ∧ bindJoinId state previous pairingId =
        (.active { running with
          status := { running.status with pairingId := some pairingId } }, .ok ()) := by
  unfold bindJoinId
  split
  · rename_i running
    split
    · exact Or.inr ⟨running, rfl, rfl⟩
    · rename_i hother
      refine Or.inl ⟨rfl, ?_⟩
      intro same hsame
      exact PairingState.active.inj hsame ▸ hother
  · rename_i hnone
    exact Or.inl ⟨rfl, fun running hstate => absurd hstate (hnone running)⟩

theorem beginResponder_cases (state : PairingState) (now : Nat) (pairingId : String) :
    beginResponder state now pairingId = (state, .error .noPairing) ∧
        (∀ invite, state = .invited invite →
          ¬ (invite.status.pairingId = some pairingId ∧ now < invite.expiresAt)) ∨
      ∃ invite running psk, state = .invited invite ∧ now < invite.expiresAt ∧
        running.status.pairingId = some pairingId ∧ running.expiresAt = none ∧
        beginResponder state now pairingId = (.active running, .ok psk) := by
  unfold beginResponder
  split
  · rename_i invite
    split
    · rename_i htaken
      exact Or.inr ⟨invite, _, _, rfl, htaken.2, htaken.1, rfl, rfl⟩
    · rename_i hother
      refine Or.inl ⟨rfl, ?_⟩
      intro same hsame
      exact PairingState.invited.inj hsame ▸ hother
  · rename_i hnone
    exact Or.inl ⟨rfl, fun invite hstate => absurd hstate (hnone invite)⟩

theorem awaiting_cases (state : PairingState) (now : Nat) (pairingId sas : String)
    (peer : PairingPeer) :
    awaiting state now pairingId sas peer = state ∧
        (∀ running, state = .active running → running.status.pairingId ≠ some pairingId) ∨
      ∃ running after, state = .active running ∧ running.status.pairingId = some pairingId ∧
        after.status.pairingId = some pairingId ∧
        after.expiresAt = some (now + pairingConfirmTimeout) ∧
        awaiting state now pairingId sas peer = .active after := by
  unfold awaiting
  split
  · rename_i running
    split
    · rename_i hid
      refine Or.inr ⟨running, _, rfl, hid, ?_, ?_, rfl⟩
      · exact hid
      · rfl
    · rename_i hother
      refine Or.inl ⟨rfl, ?_⟩
      intro same hsame
      exact PairingState.active.inj hsame ▸ hother
  · rename_i hnone
    exact Or.inl ⟨rfl, fun running hstate => absurd hstate (hnone running)⟩

/-- The exchange that commits is over with its end only. -/
def PairingState.spares (state : PairingState) (act : Act) : Prop :=
  ∀ running, state = .active running → running.committing = true → running.expiresAt = none →
    ∃ pairingId phase error, act = .finish pairingId phase error ∧
      running.status.pairingId = some pairingId

/-- What an operation leaves in the slot: what was there, its end, a new invitation, or an
exchange that begins, goes on, waits for the users or commits. -/
inductive Turns (manager : PairingManager) : Act → PairingState → Prop
  | kept {act : Act} : Turns manager act manager.state
  | ended {act : Act} (status : PairingStatus) (hlive : manager.state.live = true)
    (hspares : manager.state.spares act) : Turns manager act (.terminal status)
  | opened {act : Act} (invite : Invitation) (hfree : manager.state.live = false)
    (hopens : act.opens = true)
    (hissues : issues manager act = some (invite.token, invite.expiresAt))
    (hid : invite.status.pairingId = some invite.token.pairingId) :
    Turns manager act (.invited invite)
  | entered {act : Act} (active : Active) (hfree : manager.state.live = false ∧ act.opens = true ∨
      ∃ invite, manager.state = .invited invite)
    (hcommitting : active.committing = false) (hdeadline : active.expiresAt = none) :
    Turns manager act (.active active)
  | goesOn {act : Act} (running active : Active) (hstate : manager.state = .active running)
    (hstatus : active.status = running.status ∨ running.status.phase = .handshaking ∧
      ∃ pairingId, running.status.pairingId = some pairingId)
    (hcommitting : active.committing = running.committing)
    (hdeadline : active.expiresAt = running.expiresAt) : Turns manager act (.active active)
  | awaited (now : Nat) (pairingId sas : String) (peer : PairingPeer) (running : Active)
    (hstate : manager.state = .active running)
    (hid : running.status.pairingId = some pairingId) :
    Turns manager (.awaiting now pairingId sas peer) (.active { running with
      status := { running.status with
        phase := .awaitingConfirmation, sas := some sas, peer := some peer }
      expiresAt := some (now + pairingConfirmTimeout) })
  | committed (pairingId : String) (running : Active) (hstate : manager.state = .active running)
    (hid : running.status.pairingId = some pairingId) :
    Turns manager (.beginCommit pairingId)
      (.active { running with committing := true, expiresAt := none })

theorem turns_expireDue (manager : PairingManager) (act : Act) (now : Nat) :
    Turns manager act (expireDue manager.state now) := by
  rcases expireDue_cases manager.state now with ⟨hsame, -⟩ | ⟨hdue, status, hstatus⟩
  · rw [hsame]
    exact .kept
  · rw [hstatus]
    refine .ended status ?_ fun running hstate _ hnone => ?_
    · cases hstate : manager.state with
      | idle | terminal _ => simp [hstate, PairingState.due, PairingState.deadline] at hdue
      | invited _ | active _ => rfl
    · simp [hstate, PairingState.due, PairingState.deadline, hnone] at hdue

theorem turns_confirm (manager : PairingManager) (now read : Nat) (accept : Bool) :
    Turns manager (.confirm now read accept) (confirm manager.state now read accept).1 := by
  have hturns := turns_expireDue manager (.confirm now read accept) now
  unfold confirm
  split
  · rename_i hstate
    exact hstate ▸ hturns
  · rename_i active hstate
    rcases expireDue_cases manager.state now with ⟨hsame, -⟩ | ⟨-, status, hstatus⟩
    · split
      · exact hstate ▸ hturns
      · split
        · exact hstate ▸ hturns
        · exact .goesOn active _ (hsame.symm.trans hstate) (Or.inl rfl) rfl rfl
    · rw [hstatus] at hstate
      cases hstate
  · exact hturns

theorem turns_cancel (manager : PairingManager) :
    Turns manager .cancel (cancel manager.state).1 := by
  have hkept : Turns manager .cancel manager.state := .kept
  unfold cancel
  split
  · rename_i hstate
    exact hstate ▸ hkept
  · rename_i invite hstate
    refine .ended _ (by rw [hstate]; rfl) fun running hrunning => ?_
    cases hstate.symm.trans hrunning
  · rename_i active hstate
    split
    · exact hkept
    · rename_i hcommitting
      refine .ended _ (by rw [hstate]; rfl) fun running hrunning hrest => ?_
      obtain rfl := PairingState.active.inj (hstate.symm.trans hrunning)
      exact absurd hrest hcommitting
  · rename_i hstate
    exact hstate ▸ hkept

theorem perform_turns (manager : PairingManager) (act : Act) :
    Turns manager act (perform manager act).1.state := by
  cases act with
  | createInvite now token code listenAddr =>
    rcases createInvite_cases manager.state now token code listenAddr with
      ⟨-, hbusy⟩ | ⟨hfree, opened, htoken, hdeadline, hid, hopened⟩
    · simp only [perform, hbusy]
      exact .kept
    · simp only [perform, hopened]
      refine .opened opened hfree rfl ?_ (by rw [hid, htoken])
      simp [issues, begins, perform, hopened, htoken, hdeadline, Except.map]
  | nearbyInvite now created token code =>
    rcases nearbyInvite_cases manager now created token code with
      hrefused | ⟨hfree, opened, htoken, hdeadline, hid, hopened⟩
    · simp only [perform, hrefused]
      exact .kept
    · simp only [perform, hopened]
      refine .opened opened hfree rfl ?_ (by rw [hid, htoken])
      simp [issues, begins, perform, hopened, htoken, hdeadline]
  | invitationCandidate now | progress now => exact turns_expireDue manager _ now
  | confirm now read accept => exact turns_confirm manager now read accept
  | cancel => exact turns_cancel manager
  | bindJoinId previous pairingId =>
    simp only [perform, bindJoinId]
    split
    · rename_i running hstate
      split
      · rename_i hbound
        exact .goesOn running _ hstate (Or.inr ⟨hbound.2.1, previous, hbound.2.2⟩) rfl rfl
      · exact .kept
    · exact .kept
  | beginResponder now pairingId =>
    simp only [perform, beginResponder]
    split
    · rename_i invite hstate
      split
      · exact .entered _ (Or.inr ⟨invite, hstate⟩) rfl rfl
      · exact .kept
    · exact .kept
  | beginJoin pairingId =>
    simp only [perform, beginJoin]
    split
    · exact .kept
    · rename_i hlive
      exact .entered _ (Or.inl ⟨by simpa using hlive, rfl⟩) rfl rfl
  | awaiting now pairingId sas peer =>
    simp only [perform, awaiting]
    split
    · rename_i running hstate
      split
      · rename_i hid
        exact .awaited now pairingId sas peer running hstate hid
      · exact .kept
    · exact .kept
  | beginCommit pairingId =>
    simp only [perform, beginCommit]
    split
    · rename_i running hstate
      split
      · rename_i hid
        exact .committed pairingId running hstate hid
      · exact .kept
    · exact .kept
  | finish pairingId phase error =>
    simp only [perform, finish]
    split
    · rename_i running hstate
      split
      · rename_i hid
        refine .ended _ (by rw [hstate]; rfl) fun other hother _ _ => ?_
        obtain rfl := PairingState.active.inj (hstate.symm.trans hother)
        exact ⟨pairingId, phase, error, rfl, hid⟩
      · exact .kept
    · exact .kept
  | cancelReservation pairingId =>
    simp only [perform, cancelReservation]
    split
    · rename_i invite hstate
      split
      · refine .ended _ (by rw [hstate]; rfl) fun running hrunning => ?_
        cases hstate.symm.trans hrunning
      · exact .kept
    · exact .kept
  | stopListening =>
    simp only [perform, stopListening]
    split
    · rename_i running hstate
      exact .goesOn running _ hstate (Or.inl rfl) rfl rfl
    · exact .kept

/-- An invitation stays as it is until it leaves the slot. -/
theorem invited_perform {invite : Invitation}
    (h : (perform manager act).1.state = .invited invite) :
    manager.state = .invited invite ∨ issues manager act = some (invite.token, invite.expiresAt) ∧
      invite.status.pairingId = some invite.token.pairingId := by
  have hturns := perform_turns manager act
  rw [h] at hturns
  generalize hafter : PairingState.invited invite = after at hturns
  cases hturns with
  | kept => exact Or.inl rfl
  | opened other _ _ hissues hid =>
    obtain rfl := PairingState.invited.inj hafter
    exact Or.inr ⟨hissues, hid⟩
  | _ => cases hafter

/-- A slot that is not live stays as it is until a ceremony begins. -/
theorem perform_of_not_live (hlive : manager.state.live = false) (hopens : act.opens = false) :
    (perform manager act).1.state = manager.state := by
  have hactive : ∀ running, manager.state ≠ .active running := by
    intro running hstate
    simp [hstate, PairingState.live] at hlive
  have hturns := perform_turns manager act
  generalize (perform manager act).1.state = after at hturns
  cases hturns with
  | kept => rfl
  | ended _ hstill _ => simp [hlive] at hstill
  | opened _ _ hopen => simp [hopens] at hopen
  | entered _ hfree =>
    rcases hfree with ⟨-, hopen⟩ | ⟨invite, hstate⟩
    · simp [hopens] at hopen
    · simp [hstate, PairingState.live] at hlive
  | goesOn running _ hstate | awaited _ _ _ _ running hstate =>
    exact absurd hstate (hactive running)
  | committed _ running hstate => exact absurd hstate (hactive running)

/-- An operation about another pairing changes nothing. -/
theorem perform_of_names {pairingId : String} (hnames : act.names = some pairingId)
    (hother : manager.state.pairingId ≠ some pairingId) : (perform manager act).1 = manager := by
  have hactive : ∀ running, manager.state = .active running →
      running.status.pairingId ≠ some pairingId := by
    intro running hstate hid
    exact hother (hstate ▸ hid)
  have hinvited : ∀ invite, manager.state = .invited invite →
      invite.status.pairingId ≠ some pairingId := by
    intro invite hstate hid
    exact hother (hstate ▸ hid)
  cases act with
  | bindJoinId previous bound =>
    obtain rfl := Option.some.inj hnames
    have hsame : bindJoinId manager.state previous bound =
        (manager.state, .error .noPairing) := by
      unfold bindJoinId
      split
      · rename_i running hstate
        rw [if_neg fun h => hactive running hstate h.2.2]
      · rfl
    simp only [perform, hsame]
  | awaiting now id sas peer =>
    obtain rfl := Option.some.inj hnames
    have hsame : awaiting manager.state now id sas peer = manager.state := by
      unfold awaiting
      split
      · rename_i running hstate
        rw [if_neg (hactive running hstate)]
      · rfl
    simp only [perform, hsame]
  | beginCommit id =>
    obtain rfl := Option.some.inj hnames
    have hsame : beginCommit manager.state id = (manager.state, false) := by
      unfold beginCommit
      split
      · rename_i running hstate
        rw [if_neg (hactive running hstate)]
      · rfl
    simp only [perform, hsame]
  | finish id phase error =>
    obtain rfl := Option.some.inj hnames
    have hsame : finish manager.state id phase error = manager.state := by
      unfold finish
      split
      · rename_i running hstate
        rw [if_neg (hactive running hstate)]
      · rfl
    simp only [perform, hsame]
  | cancelReservation id =>
    obtain rfl := Option.some.inj hnames
    have hsame : cancelReservation manager.state id = manager.state := by
      unfold cancelReservation
      split
      · rename_i invite hstate
        rw [if_neg (hinvited invite hstate)]
      · rfl
    simp only [perform, hsame]
  | _ => simp [Act.names] at hnames

theorem begins_live (h : begins manager act = true) :
    manager.state.live = false ∧ (perform manager act).1.state.live = true := by
  cases act with
  | createInvite now token code listenAddr =>
    rcases createInvite_cases manager.state now token code listenAddr with
      ⟨-, hbusy⟩ | ⟨hlive, opened, -, -, -, hopened⟩
    · simp [begins, perform, hbusy, Except.map] at h
    · exact ⟨hlive, by simp [perform, hopened, PairingState.live]⟩
  | nearbyInvite now created token code =>
    rcases nearbyInvite_cases manager now created token code with
      hrefused | ⟨hlive, opened, -, -, -, hopened⟩
    · simp [begins, perform, hrefused] at h
    · exact ⟨hlive, by simp [perform, hopened, PairingState.live]⟩
  | beginJoin pairingId =>
    simp only [begins, perform, beginJoin] at h ⊢
    cases hlive : manager.state.live with
    | true => simp [hlive] at h
    | false => exact ⟨rfl, by simp [PairingState.live]⟩
  | _ => simp [begins, perform] at h

/-- A slot becomes live by an operation that answers so. -/
theorem begins_of_live (hbefore : manager.state.live = false)
    (hafter : (perform manager act).1.state.live = true) : begins manager act = true := by
  cases act with
  | createInvite now token code listenAddr =>
    rcases createInvite_cases manager.state now token code listenAddr with
      ⟨hlive, -⟩ | ⟨-, opened, -, -, -, hopened⟩
    · simp [hbefore] at hlive
    · simp [begins, perform, hopened, Except.map]
  | nearbyInvite now created token code =>
    rcases nearbyInvite_cases manager now created token code with
      hrefused | ⟨-, opened, -, -, -, hopened⟩
    · simp [perform, hrefused, hbefore] at hafter
    · simp [begins, perform, hopened]
  | beginJoin pairingId => simp [begins, perform, beginJoin, hbefore]
  | _ =>
    rw [perform_of_not_live hbefore rfl] at hafter
    simp [hbefore] at hafter

/-- A candidate is read off an invitation that is not yet due. -/
theorem candidate_perform {offered : PairingCandidate}
    (h : (perform manager act).2 = .candidate (some offered)) : ∃ now invite,
      act.readings = [now] ∧ manager.state = .invited invite ∧ now < invite.expiresAt ∧
      offered.pairingId = invite.status.pairingId.getD "" := by
  cases act with
  | invitationCandidate now =>
    simp only [perform, invitationCandidate, Answer.candidate.injEq] at h
    split at h
    · rename_i invite hstate
      obtain rfl := Option.some.inj h
      obtain ⟨hopen, hdue⟩ := invited_expireDue hstate
      exact ⟨now, invite, rfl, hopen, hdue, rfl⟩
    · simp at h
  | _ => simp [perform] at h

/-- Only an invitation that is not yet due is taken. -/
theorem taken_perform {pairingId : String} {psk : List UInt8}
    (h : (perform manager (.beginResponder now pairingId)).2 = .taken (.ok psk)) : ∃ invite,
      manager.state = .invited invite ∧ now < invite.expiresAt ∧
      invite.status.pairingId = some pairingId := by
  simp only [perform, beginResponder, Answer.taken.injEq] at h
  split at h
  · rename_i invite hstate
    split at h
    · rename_i htaken
      exact ⟨invite, hstate, htaken.2, htaken.1⟩
    · simp at h
  · simp at h

/-- An exchange that commits is held by no deadline. -/
def PairingState.Committed (state : PairingState) (pairingId : String) : Prop :=
  ∃ active, state = .active active ∧ active.status.pairingId = some pairingId ∧
    active.committing = true ∧ active.status.phase = .awaitingConfirmation ∧
    active.expiresAt = none

/-- Nothing but its end takes an exchange that commits out of the slot. -/
theorem committed_perform {pairingId : String} (h : manager.state.Committed pairingId)
    (hawaiting : ∀ now sas peer, act ≠ .awaiting now pairingId sas peer)
    (hfinish : ∀ phase error, act ≠ .finish pairingId phase error) :
    (perform manager act).1.state.Committed pairingId := by
  have hcommitted := h
  obtain ⟨active, hstate, hid, hcommitting, hphase, hdeadline⟩ := h
  have hlive : manager.state.live = true := by simp [hstate, PairingState.live]
  have hturns := perform_turns manager act
  generalize (perform manager act).1.state = after at hturns
  cases hturns with
  | kept => exact hcommitted
  | ended _ _ hspares =>
    obtain ⟨other, phase, error, rfl, hother⟩ := hspares active hstate hcommitting hdeadline
    obtain rfl := Option.some.inj (hid.symm.trans hother)
    exact absurd rfl (hfinish phase error)
  | opened _ hfree => simp [hlive] at hfree
  | entered _ hfree =>
    rcases hfree with ⟨hfree, -⟩ | ⟨invite, hinvited⟩
    · simp [hlive] at hfree
    · cases hstate.symm.trans hinvited
  | goesOn running next hrunning hstatus hsame hkept =>
    obtain rfl := PairingState.active.inj (hstate.symm.trans hrunning)
    rcases hstatus with hstatus | ⟨hearly, -⟩
    · refine ⟨next, rfl, ?_, hsame.trans hcommitting, ?_, hkept.trans hdeadline⟩
      · rw [hstatus, hid]
      · rw [hstatus, hphase]
    · cases hphase.symm.trans hearly
  | awaited now other sas peer running hrunning hother =>
    obtain rfl := PairingState.active.inj (hstate.symm.trans hrunning)
    obtain rfl := Option.some.inj (hid.symm.trans hother)
    exact absurd rfl (hawaiting now sas peer)
  | committed other running hrunning =>
    obtain rfl := PairingState.active.inj (hstate.symm.trans hrunning)
    exact ⟨_, rfl, hid, rfl, hphase, rfl⟩

/-- An exchange that commits did so before, or has just begun to. -/
theorem committing_perform {pairingId : String}
    (h : (perform manager act).1.state.committing pairingId) :
    (∃ earlier, manager.state.committing earlier) ∨ act = .beginCommit pairingId ∧
      ∃ active, manager.state = .active active ∧ active.status.pairingId = some pairingId ∧
        (perform manager act).1.state =
          .active { active with committing := true, expiresAt := none } := by
  have hturns := perform_turns manager act
  generalize (perform manager act).1.state = after at h hturns
  obtain ⟨active, hactive, hid, hcommitting⟩ := h
  cases hturns with
  | kept => exact Or.inl ⟨pairingId, active, hactive, hid, hcommitting⟩
  | ended | opened => cases hactive
  | entered _ _ hnot =>
    obtain rfl := PairingState.active.inj hactive
    simp [hnot] at hcommitting
  | goesOn running _ hstate hstatus hsame =>
    obtain rfl := PairingState.active.inj hactive
    rw [hsame] at hcommitting
    rcases hstatus with hstatus | ⟨-, earlier, hearlier⟩
    · exact Or.inl ⟨pairingId, running, hstate, hstatus ▸ hid, hcommitting⟩
    · exact Or.inl ⟨earlier, running, hstate, hearlier, hcommitting⟩
  | awaited _ earlier _ _ running hstate hearlier =>
    obtain rfl := PairingState.active.inj hactive
    exact Or.inl ⟨earlier, running, hstate, hearlier, hcommitting⟩
  | committed other running hstate hother =>
    obtain rfl := PairingState.active.inj hactive
    obtain rfl := Option.some.inj (hother.symm.trans hid)
    exact Or.inr ⟨rfl, running, hstate, hother, rfl⟩

theorem finish_committed {pairingId : String} (h : manager.state.Committed pairingId)
    (phase : PairingPhase) (error : Option NodeError) :
    ∃ status, (perform manager (.finish pairingId phase error)).1.state = .terminal status := by
  obtain ⟨active, hstate, hid, -⟩ := h
  exact ⟨_, by simp [perform, finish, hstate, hid]; rfl⟩

end Operations

end CopyPaste.Node.Pairing
