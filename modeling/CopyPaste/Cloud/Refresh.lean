import Mathlib.Data.List.Basic
import CopyPaste.Lib.Guarded

/-!
The refresh of the session. Requests that were refused take a snapshot of the session,
wait for the refresh lock and compare revisions before they present the refresh token;
what the auth service answers is installed, persisted or turned into a fence, each under
the lock of the session alone. Acts of the callers and fences come in any order. The
log has what the driver did, newest first.
-/

namespace CopyPaste.Cloud.Refresh

open Lib.Guarded

structure Session where
  accessToken : String
  refreshToken : String
  userId : String
  expiresAtMs : Int
  deriving DecidableEq, Repr

structure SessionState where
  session : Session
  revision : UInt64 := 0
  fenced : Bool := false
  deriving DecidableEq, Repr

inductive SessionRevision
  | current
  | superseded
  | fenced
  deriving DecidableEq, Repr

inductive AuthFault
  | invalidCredentials
  | sessionExpired
  | rateLimited (retryAfter : Option Nat)
  | unavailable (reason : String)
  deriving DecidableEq, Repr

inductive SyncError
  | source (reason : String)
  | invalidCredentials
  | sessionExpired
  | rateLimited
  | transport (reason : String)
  deriving DecidableEq, Repr

def refreshSnapshot (state : SessionState) : Option (UInt64 × String) :=
  if state.fenced then none else some (state.revision, state.session.refreshToken)

def revisionState (state : SessionState) (expected : UInt64) : SessionRevision :=
  if state.fenced then .fenced
  else if state.revision = expected then .current
  else .superseded

def fenceSession (state : SessionState) (expectedRevision : Option UInt64) : SessionState :=
  if expectedRevision.any fun expected => state.revision ≠ expected then state
  else { state with fenced := true }

def installRefreshedSession (state : SessionState) (expectedRevision : UInt64)
    (session : Session) : SessionState × SessionRevision :=
  if state.fenced then (state, .fenced)
  else if state.revision ≠ expectedRevision then (state, .superseded)
  else ({ state with session := session, revision := state.revision + 1 }, .current)

def AuthFault.toSyncError : AuthFault → SyncError
  | .invalidCredentials => .invalidCredentials
  | .sessionExpired => .sessionExpired
  | .rateLimited _ => .rateLimited
  | .unavailable reason => .transport reason

/-- What a caller keeps of the session it started from. `generation` counts the
sessions installed before it, past the end of the revisions. -/
structure Snapshot where
  revision : UInt64
  refreshToken : String
  generation : Nat
  deriving DecidableEq, Repr

/-- How far a call of `refresh_session` has come. -/
inductive Phase
  | waiting (snapshot : Snapshot)
  | locked (snapshot : Snapshot)
  | ready (snapshot : Snapshot)
  | calling (snapshot : Snapshot)
  | answered (snapshot : Snapshot) (answer : Except AuthFault Session)
  | installed
  | rejected (snapshot : Snapshot) (error : SyncError)
  | returned (result : Except SyncError Unit)
  | dropped
  deriving DecidableEq

/-- What the driver does to its surroundings and to its session. Snapshots are named
by their generation. -/
inductive Event
  | presented (caller : Nat) (generation : Nat) (refreshToken : String)
  | installed (generation : Nat) (session : Session)
  | persisted (session : Session)
  | expired (generation : Nat)
  | signedOut
  deriving DecidableEq, Repr

structure State where
  session : SessionState
  lock : Option Nat := none
  callers : List Phase := []
  log : List Event := []

inductive Act
  | refreshSession
  | acquire (caller : Nat)
  | check (caller : Nat)
  | call (caller : Nat)
  | answer (caller : Nat) (answer : Except AuthFault Session)
  | conclude (caller : Nat)
  | persist (caller : Nat)
  | reject (caller : Nat)
  | drop (caller : Nat)
  | fence (expectedRevision : Option UInt64)

/-- The driver's surroundings: the session it starts with and the callback for rotated
sessions, when there is one. -/
structure Host where
  session : Session
  sessionPersistence : Option (Session → Except SyncError Unit)

def Event.installs : Event → Bool
  | .installed _ _ => true
  | _ => false

/-- How many sessions a log installed. -/
def generation (log : List Event) : Nat := log.countP Event.installs

def standing (initial : Session) : List Event → Session
  | [] => initial
  | .installed _ session :: _ => session
  | _ :: older => standing initial older

def State.move (s : State) (caller : Nat) (phase : Phase) : State :=
  { s with callers := s.callers.set caller phase }

/-- A caller returns, and drops the lock with its guard. -/
def State.finish (s : State) (caller : Nat) (result : Except SyncError Unit) : State :=
  { s.move caller (.returned result) with lock := none }

def State.conclude (s : State) (caller : Nat) (snapshot : Snapshot) :
    Except AuthFault Session → State
  | .ok session =>
    match installRefreshedSession s.session snapshot.revision session with
    | (state, .current) =>
      { s.move caller .installed with
        session := state
        log := .installed snapshot.generation session :: s.log }
    | (_, .superseded) => s.finish caller (.ok ())
    | (_, .fenced) => s.finish caller (.error .sessionExpired)
  | .error error =>
    match revisionState s.session snapshot.revision with
    | .superseded => s.finish caller (.ok ())
    | .fenced => s.finish caller (.error .sessionExpired)
    | .current =>
      match error.toSyncError with
      | .invalidCredentials => s.move caller (.rejected snapshot .invalidCredentials)
      | .sessionExpired => s.move caller (.rejected snapshot .sessionExpired)
      | error => s.finish caller (.error error)

def State.check (s : State) (caller : Nat) (snapshot : Snapshot) : State :=
  match revisionState s.session snapshot.revision with
  | .current => s.move caller (.ready snapshot)
  | .superseded => s.finish caller (.ok ())
  | .fenced => s.finish caller (.error .sessionExpired)

/-- `persist_current_session` hands over the session that stands, under its lock. -/
def State.persist (host : Host) (s : State) (caller : Nat) : State :=
  match host.sessionPersistence with
  | none => s.finish caller (.ok ())
  | some persist =>
    { s.finish caller (persist s.session.session) with
      log := .persisted s.session.session :: s.log }

def State.begin (s : State) : State :=
  match refreshSnapshot s.session with
  | none => { s with callers := s.callers ++ [.returned (.error .sessionExpired)] }
  | some (revision, refreshToken) =>
    { s with callers := s.callers ++ [.waiting ⟨revision, refreshToken, generation s.log⟩] }

/-- The fence that a failure of the caller's own refresh asks for. -/
def State.reject (s : State) (caller : Nat) (snapshot : Snapshot) (error : SyncError) : State :=
  { s.finish caller (.error error) with
    session := fenceSession s.session (some snapshot.revision)
    log := if s.session.revision = snapshot.revision then .expired snapshot.generation :: s.log
      else s.log }

/-- A fence from outside; without a revision it is a sign-out. -/
def State.fence (s : State) (expectedRevision : Option UInt64) : State :=
  { s with
    session := fenceSession s.session expectedRevision
    log := if expectedRevision.isNone then .signedOut :: s.log else s.log }

def step (host : Host) (s : State) : Act → Option State
  | .refreshSession => some s.begin
  | .acquire caller =>
    match s.callers[caller]?, s.lock with
    | some (.waiting snapshot), none =>
      some { s.move caller (.locked snapshot) with lock := some caller }
    | _, _ => none
  | .check caller =>
    match s.callers[caller]? with
    | some (.locked snapshot) => some (s.check caller snapshot)
    | _ => none
  | .call caller =>
    match s.callers[caller]? with
    | some (.ready snapshot) =>
      some { s.move caller (.calling snapshot) with
        log := .presented caller snapshot.generation snapshot.refreshToken :: s.log }
    | _ => none
  | .answer caller answer =>
    match s.callers[caller]? with
    | some (.calling snapshot) => some (s.move caller (.answered snapshot answer))
    | _ => none
  | .conclude caller =>
    match s.callers[caller]? with
    | some (.answered snapshot answer) => some (s.conclude caller snapshot answer)
    | _ => none
  | .persist caller =>
    match s.callers[caller]? with
    | some .installed => some (s.persist host caller)
    | _ => none
  | .reject caller =>
    match s.callers[caller]? with
    | some (.rejected snapshot error) => some (s.reject caller snapshot error)
    | _ => none
  | .drop caller =>
    -- A caller is dropped where it awaits: the lock, or the answer of the service.
    match s.callers[caller]? with
    | some (.waiting _) => some (s.move caller .dropped)
    | some (.calling _) => some { s.move caller .dropped with lock := none }
    | _ => none
  | .fence expectedRevision => some (s.fence expectedRevision)

def machine (host : Host) : Machine State Act where
  start := fun s => s = { session := { session := host.session } }
  step := step host

/-- What an event promises about the log before it. A token is that of the session that
stood, and its session was not replaced; a result or a failure belongs to the session
that stood; and after a sign-out nothing is installed or handed out. -/
def Rightful (initial : Session) (older : List Event) : Event → Prop
  | .presented _ number refreshToken =>
    (∀ session, .installed number session ∉ older) ∧
      refreshToken = (standing initial older).refreshToken
  | .installed number _ => generation older = number ∧ .signedOut ∉ older
  | .expired number => generation older = number
  | .persisted _ => .signedOut ∉ older
  | .signedOut => True

def Orderly (initial : Session) (log : List Event) : Prop :=
  ∀ event older, event :: older <:+ log → Rightful initial older event

/-- At most one call of the auth service is in flight. -/
def OneCall (s : State) : Prop :=
  ∀ (caller other : Nat) (snapshot snapshot' : Snapshot),
    s.callers[caller]? = some (.calling snapshot) →
    s.callers[other]? = some (.calling snapshot') → caller = other

def Phase.snapshot? : Phase → Option Snapshot
  | .waiting snapshot | .locked snapshot | .ready snapshot | .calling snapshot => some snapshot
  | .answered snapshot _ | .rejected snapshot _ => some snapshot
  | .installed | .returned _ | .dropped => none

def Phase.succeeded : Phase → Bool
  | .answered _ (.ok _) => true
  | _ => false

/-- No sign-out falls between the install of a session and its hand-over, and no install
brings back the revision number of a snapshot that is still in use. -/
def Clear (host : Host) (s : State) : Act → Prop
  | .fence none => host.sessionPersistence.isSome → Phase.installed ∉ s.callers
  | .conclude caller =>
    (s.callers[caller]?).any Phase.succeeded →
      ∀ phase ∈ s.callers, ∀ held ∈ phase.snapshot?, held.revision ≠ s.session.revision + 1
  | _ => True

instance (host : Host) (s : State) : (act : Act) → Decidable (Clear host s act)
  | .fence none => inferInstanceAs
      (Decidable (host.sessionPersistence.isSome → Phase.installed ∉ s.callers))
  | .conclude caller => inferInstanceAs
      (Decidable ((s.callers[caller]?).any Phase.succeeded → ∀ phase ∈ s.callers,
        ∀ held ∈ phase.snapshot?, held.revision ≠ s.session.revision + 1))
  | .fence (some _) | .refreshSession | .acquire _ | .check _ | .call _ | .answer _ _
  | .persist _ | .reject _ | .drop _ => isTrue trivial

/-- What the snapshot of a caller says about the session that stands. -/
structure Known (s : State) (snapshot : Snapshot) : Prop where
  le : snapshot.generation ≤ generation s.log
  current : snapshot.revision = s.session.revision → snapshot.generation = generation s.log
  token : snapshot.generation = generation s.log →
    snapshot.refreshToken = s.session.session.refreshToken

def CallerOk (s : State) (caller : Nat) : Phase → Prop
  | .waiting snapshot => Known s snapshot
  | .locked snapshot => Known s snapshot ∧ s.lock = some caller
  | .ready snapshot | .calling snapshot | .answered snapshot _ | .rejected snapshot _ =>
    Known s snapshot ∧ s.lock = some caller ∧ snapshot.generation = generation s.log
  | .installed => s.lock = some caller
  | .returned _ | .dropped => True

structure LogOk (initial : Session) (session : SessionState) (log : List Event) : Prop where
  stands : session.session = standing initial log
  replaced : ∀ number session, Event.installed number session ∈ log → number < generation log
  fenced : .signedOut ∈ log → session.fenced = true
  orderly : Orderly initial log

structure Inv (host : Host) (s : State) : Prop where
  callers : ∀ caller phase, s.callers[caller]? = some phase → CallerOk s caller phase
  log : LogOk host.session s.session s.log
  handed : .signedOut ∈ s.log → host.sessionPersistence.isSome → Phase.installed ∉ s.callers

theorem generation_cons (event : Event) (log : List Event) :
    generation (event :: log) = generation log + if event.installs then 1 else 0 := by
  simp [generation, List.countP_cons]

theorem Orderly.cons {initial : Session} {log : List Event} {event : Event}
    (h : Orderly initial log) (hevent : Rightful initial log event) :
    Orderly initial (event :: log) := by
  intro other older hsuffix
  rcases List.suffix_cons_iff.1 hsuffix with heq | hsuffix
  · obtain ⟨rfl, rfl⟩ := List.cons.inj heq
    exact hevent
  · exact h other older hsuffix

/-- An event that installs nothing and signs nobody out. -/
theorem LogOk.cons {initial : Session} {session : SessionState} {log : List Event} {event : Event}
    (h : LogOk initial session log) (hinstalls : event.installs = false)
    (hout : event ≠ .signedOut) (hevent : Rightful initial log event) :
    LogOk initial session (event :: log) := by
  have hgeneration : generation (event :: log) = generation log := by
    simp [generation_cons, hinstalls]
  refine ⟨?_, ?_, ?_, h.orderly.cons hevent⟩
  · rw [h.stands]
    cases event <;> first | rfl | cases hinstalls
  · intro number installed hmem
    rw [hgeneration]
    rcases List.mem_cons.1 hmem with rfl | hmem
    · cases hinstalls
    · exact h.replaced number installed hmem
  · intro hmem
    exact h.fenced ((List.mem_cons.1 hmem).resolve_left (Ne.symm hout))

theorem LogOk.fence {initial : Session} {session : SessionState} {log : List Event}
    (h : LogOk initial session log) (expectedRevision : Option UInt64) :
    LogOk initial (fenceSession session expectedRevision) log := by
  unfold fenceSession
  split
  · exact h
  · exact ⟨h.stands, h.replaced, fun _ => rfl, h.orderly⟩

theorem fenceSession_revision (session : SessionState) (expectedRevision : Option UInt64) :
    (fenceSession session expectedRevision).revision = session.revision := by
  unfold fenceSession
  split <;> rfl

theorem fenceSession_session (session : SessionState) (expectedRevision : Option UInt64) :
    (fenceSession session expectedRevision).session = session.session := by
  unfold fenceSession
  split <;> rfl

variable {s s' : State} {caller : Nat} {phase : Phase} {host : Host} {snapshot : Snapshot}

theorem CallerOk.keep (h : CallerOk s caller phase)
    (hgeneration : generation s'.log = generation s.log)
    (hrevision : s'.session.revision = s.session.revision)
    (hsession : s'.session.session = s.session.session)
    (hlock : s.lock = some caller → s'.lock = some caller) : CallerOk s' caller phase := by
  have hknown : ∀ snapshot, Known s snapshot → Known s' snapshot := by
    intro snapshot hsnapshot
    refine ⟨?_, ?_, ?_⟩
    · rw [hgeneration]
      exact hsnapshot.le
    · rw [hgeneration, hrevision]
      exact hsnapshot.current
    · rw [hgeneration, hsession]
      exact hsnapshot.token
  cases phase with
  | waiting snapshot => exact hknown snapshot h
  | locked snapshot => exact ⟨hknown snapshot h.1, hlock h.2⟩
  | ready snapshot | calling snapshot | answered snapshot answer | rejected snapshot error =>
    exact ⟨hknown snapshot h.1, hlock h.2.1, by rw [hgeneration]; exact h.2.2⟩
  | installed => exact hlock h
  | returned | dropped => trivial

theorem getElem?_set_cases {callers : List Phase} {other : Nat} {known : Phase}
    (h : (callers.set caller phase)[other]? = some known) :
    other = caller ∧ known = phase ∨ other ≠ caller ∧ callers[other]? = some known := by
  rw [List.getElem?_set] at h
  split at h
  · rename_i heq
    split at h
    · exact Or.inl ⟨heq.symm, (Option.some.inj h).symm⟩
    · cases h
  · rename_i hne
    exact Or.inr ⟨Ne.symm hne, h⟩

theorem mem_set_of_ne {callers : List Phase} {known : Phase} (h : known ∈ callers.set caller phase)
    (hne : known ≠ phase) : known ∈ callers :=
  (List.mem_or_eq_of_mem_set h).resolve_right hne

/-- A caller moves on while the session stands. -/
theorem Inv.set (h : Inv host s) (hcallers : s'.callers = s.callers.set caller phase)
    (hgeneration : generation s'.log = generation s.log)
    (hrevision : s'.session.revision = s.session.revision)
    (hsession : s'.session.session = s.session.session)
    (hlock : ∀ other, other ≠ caller → s.lock = some other → s'.lock = some other)
    (hown : CallerOk s' caller phase) (hphase : phase ≠ .installed)
    (hlog : LogOk host.session s'.session s'.log)
    (hout : .signedOut ∈ s'.log → .signedOut ∈ s.log) : Inv host s' := by
  refine ⟨?_, hlog, ?_⟩
  · intro other known hknown
    rw [hcallers] at hknown
    rcases getElem?_set_cases hknown with ⟨rfl, rfl⟩ | ⟨hne, hknown⟩
    · exact hown
    · exact (h.callers other known hknown).keep hgeneration hrevision hsession (hlock other hne)
  · intro hmem hpersistence
    rw [hcallers]
    intro hinstalled
    exact h.handed (hout hmem) hpersistence (mem_set_of_ne hinstalled (Ne.symm hphase))

theorem Inv.move (h : Inv host s) (hown : CallerOk s caller phase) (hphase : phase ≠ .installed) :
    Inv host (s.move caller phase) := by
  refine h.set rfl rfl rfl rfl (fun _ _ hlock => hlock) ?_ hphase h.log (fun hmem => hmem)
  exact hown.keep rfl rfl rfl (fun hlock => hlock)

/-- While a caller has the lock no other caller counts on it. -/
theorem others_wait (hlock : s.lock = some caller) {after : Option Nat} (other : Nat)
    (hne : other ≠ caller) (hother : s.lock = some other) : after = some other := by
  rw [hlock] at hother
  exact absurd (Option.some.inj hother).symm hne

/-- The holder of the lock returns. -/
theorem Inv.finish (h : Inv host s) (hlock : s.lock = some caller)
    (result : Except SyncError Unit) : Inv host (s.finish caller result) := by
  exact h.set rfl rfl rfl rfl (others_wait hlock) trivial nofun h.log (fun hmem => hmem)

theorem Inv.begin (h : Inv host s) : Inv host s.begin := by
  have hcallers : ∀ phase : Phase, (∀ caller, CallerOk s caller phase) → phase ≠ .installed →
      Inv host { s with callers := s.callers ++ [phase] } := by
    intro phase hphase hne
    refine ⟨?_, h.log, ?_⟩
    · intro caller known hknown
      have hok : CallerOk s caller known := by
        rw [List.getElem?_append] at hknown
        split at hknown
        · exact h.callers caller known hknown
        · obtain rfl : known = phase := by
            have hmem := List.mem_of_getElem? hknown
            simpa using hmem
          exact hphase caller
      exact hok.keep rfl rfl rfl (fun hlock => hlock)
    · intro hmem hpersistence hinstalled
      rcases List.mem_append.1 hinstalled with hold | hnew
      · exact h.handed hmem hpersistence hold
      · exact hne (List.mem_singleton.1 hnew).symm
  unfold State.begin
  split
  · exact hcallers _ (fun _ => trivial) nofun
  · rename_i revision refreshToken hsnapshot
    unfold refreshSnapshot at hsnapshot
    split at hsnapshot
    · cases hsnapshot
    · obtain ⟨rfl, rfl⟩ := Prod.mk.inj (Option.some.inj hsnapshot)
      exact hcallers _ (fun _ => ⟨Nat.le_refl _, fun _ => rfl, fun _ => rfl⟩) nofun

theorem revisionState_eq_current {state : SessionState} {expected : UInt64}
    (h : revisionState state expected = .current) :
    state.fenced = false ∧ state.revision = expected := by
  unfold revisionState at h
  split at h
  · cases h
  · split at h
    · exact ⟨by simpa using ‹¬ state.fenced = true›, ‹_›⟩
    · cases h

theorem Inv.check (h : Inv host s) (hcaller : s.callers[caller]? = some (.locked snapshot)) :
    Inv host (s.check caller snapshot) := by
  obtain ⟨hknown, hlock⟩ := h.callers caller _ hcaller
  unfold State.check
  split
  · rename_i hstate
    have hrevision := (revisionState_eq_current hstate).2
    exact h.move ⟨hknown, hlock, hknown.current hrevision.symm⟩ nofun
  · exact h.finish hlock _
  · exact h.finish hlock _

/-- The session that a caller presents was not replaced: its own install is the only
one that could have done it. -/
theorem Inv.call (h : Inv host s) (hcaller : s.callers[caller]? = some (.ready snapshot)) :
    Inv host { s.move caller (.calling snapshot) with
      log := .presented caller snapshot.generation snapshot.refreshToken :: s.log } := by
  obtain ⟨hknown, hlock, hgeneration⟩ := h.callers caller _ hcaller
  have hrightful : Rightful host.session s.log
      (.presented caller snapshot.generation snapshot.refreshToken) := by
    refine ⟨?_, ?_⟩
    · intro session hmem
      have hlt := h.log.replaced _ session hmem
      omega
    · rw [hknown.token hgeneration, h.log.stands]
  have hsame : ∀ event : Event, event.installs = false →
      generation (event :: s.log) = generation s.log := by
    intro event hinstalls
    simp [generation_cons, hinstalls]
  refine h.set rfl (hsame _ rfl) rfl rfl (fun _ _ hlock => hlock) ?_ nofun
    (h.log.cons rfl nofun hrightful) (fun hmem => (List.mem_cons.1 hmem).resolve_left nofun)
  have hok : CallerOk s caller (.calling snapshot) := ⟨hknown, hlock, hgeneration⟩
  exact hok.keep (hsame _ rfl) rfl rfl (fun hlock => hlock)

/-- The install of a session: the snapshots of the other callers are behind it. -/
theorem Inv.install {session : Session} (h : Inv host s)
    (hcaller : s.callers[caller]? = some (.answered snapshot (.ok session)))
    (hclear : Clear host s (.conclude caller)) (hfenced : s.session.fenced = false) :
    Inv host { s.move caller .installed with
      session := { s.session with session := session, revision := s.session.revision + 1 }
      log := .installed snapshot.generation session :: s.log } := by
  obtain ⟨-, hlock, hgeneration⟩ := h.callers caller _ hcaller
  have hsigned : .signedOut ∉ s.log := by
    intro hmem
    rw [h.log.fenced hmem] at hfenced
    cases hfenced
  have hnext : generation (.installed snapshot.generation session :: s.log) =
      generation s.log + 1 := by
    simp [generation_cons, Event.installs]
  have hout : .signedOut ∉ Event.installed snapshot.generation session :: s.log := by
    simpa using hsigned
  refine ⟨?_, ⟨rfl, ?_, fun hmem => absurd hmem hout, ?_⟩, fun hmem => absurd hmem hout⟩
  · intro other known hknown
    rcases getElem?_set_cases hknown with ⟨rfl, rfl⟩ | ⟨hne, hknown⟩
    · exact hlock
    · have hok := h.callers other known hknown
      have hother : s.lock ≠ some other := by
        rw [hlock]
        exact fun heq => hne (Option.some.inj heq).symm
      cases known with
      | waiting held =>
        refine ⟨?_, ?_, ?_⟩
        · rw [hnext]
          have hle := hok.le
          omega
        · intro hrevision
          exact absurd hrevision
            (hclear (by rw [hcaller]; rfl) _ (List.mem_of_getElem? hknown) held rfl)
        · intro heq
          rw [hnext] at heq
          have hle := hok.le
          omega
      | locked held => exact absurd hok.2 hother
      | ready held | calling held | answered held answer | rejected held error =>
        exact absurd hok.2.1 hother
      | installed => exact absurd hok hother
      | returned | dropped => trivial
  · intro number replaced hmem
    rw [hnext]
    rcases List.mem_cons.1 hmem with heq | hmem
    · obtain ⟨rfl, -⟩ := Event.installed.inj heq
      omega
    · have hlt := h.log.replaced number replaced hmem
      omega
  · exact h.log.orderly.cons ⟨hgeneration.symm, hsigned⟩

theorem installRefreshedSession_eq {state state' : SessionState} {expected : UInt64}
    {session : Session} (h : installRefreshedSession state expected session = (state', .current)) :
    state.fenced = false ∧
      state' = { state with session := session, revision := state.revision + 1 } := by
  unfold installRefreshedSession at h
  split at h
  · cases h
  · split at h
    · cases h
    · exact ⟨by simpa using ‹¬ state.fenced = true›, (Prod.mk.inj h).1.symm⟩

theorem Inv.conclude {answer : Except AuthFault Session} (h : Inv host s)
    (hcaller : s.callers[caller]? = some (.answered snapshot answer))
    (hclear : Clear host s (.conclude caller)) : Inv host (s.conclude caller snapshot answer) := by
  obtain ⟨hknown, hlock, hgeneration⟩ := h.callers caller _ hcaller
  have hrejected : ∀ error, Inv host (s.move caller (.rejected snapshot error)) := fun error =>
    h.move ⟨hknown, hlock, hgeneration⟩ nofun
  cases answer with
  | ok session =>
    simp only [State.conclude]
    split
    · rename_i state hinstall
      obtain ⟨hfenced, rfl⟩ := installRefreshedSession_eq hinstall
      exact h.install hcaller hclear hfenced
    · exact h.finish hlock _
    · exact h.finish hlock _
  | error error =>
    simp only [State.conclude]
    split
    · exact h.finish hlock _
    · exact h.finish hlock _
    · split
      · exact hrejected _
      · exact hrejected _
      · exact h.finish hlock _

theorem Inv.persist (h : Inv host s) (hcaller : s.callers[caller]? = some .installed) :
    Inv host (s.persist host caller) := by
  have hlock : s.lock = some caller := h.callers caller _ hcaller
  unfold State.persist
  split
  · exact h.finish hlock _
  · rename_i persist hpersistence
    have hsigned : .signedOut ∉ s.log := fun hmem =>
      h.handed hmem (by rw [hpersistence]; rfl) (List.mem_of_getElem? hcaller)
    exact h.set rfl (generation_cons _ _) rfl rfl (others_wait hlock) trivial nofun
      (h.log.cons rfl nofun hsigned) (fun hmem => (List.mem_cons.1 hmem).resolve_left nofun)

theorem Inv.reject {error : SyncError} (h : Inv host s)
    (hcaller : s.callers[caller]? = some (.rejected snapshot error)) :
    Inv host (s.reject caller snapshot error) := by
  obtain ⟨-, hlock, hgeneration⟩ := h.callers caller _ hcaller
  have hlog := h.log.fence (some snapshot.revision)
  refine h.set rfl ?_ (fenceSession_revision _ _) (fenceSession_session _ _) (others_wait hlock)
    trivial nofun ?_ ?_
  · simp only [State.reject]
    split
    · exact generation_cons _ _
    · rfl
  · simp only [State.reject]
    split
    · exact hlog.cons rfl nofun hgeneration.symm
    · exact hlog
  · simp only [State.reject]
    split
    · exact fun hmem => (List.mem_cons.1 hmem).resolve_left nofun
    · exact fun hmem => hmem

theorem Inv.fence {expectedRevision : Option UInt64} (h : Inv host s)
    (hclear : Clear host s (.fence expectedRevision)) : Inv host (s.fence expectedRevision) := by
  have hcallers : ∀ caller phase, s.callers[caller]? = some phase →
      ∀ log, generation log = generation s.log →
      CallerOk { s with session := fenceSession s.session expectedRevision, log := log }
        caller phase := by
    intro caller phase hcaller log hlog
    exact (h.callers caller phase hcaller).keep hlog (fenceSession_revision _ _)
      (fenceSession_session _ _) (fun hlock => hlock)
  have hlog := h.log.fence expectedRevision
  cases expectedRevision with
  | none =>
    refine ⟨?_, ⟨hlog.stands, ?_, fun _ => rfl, hlog.orderly.cons trivial⟩, fun _ => hclear⟩
    · intro caller phase hcaller
      exact hcallers caller phase hcaller _ (generation_cons _ _)
    · intro number session hmem
      exact hlog.replaced number session ((List.mem_cons.1 hmem).resolve_left nofun)
  | some expected =>
    exact ⟨fun caller phase hcaller => hcallers caller phase hcaller _ rfl, hlog, h.handed⟩

theorem Inv.acquire (h : Inv host s) (hcaller : s.callers[caller]? = some (.waiting snapshot))
    (hlock : s.lock = none) :
    Inv host { s.move caller (.locked snapshot) with lock := some caller } := by
  have hknown : Known s snapshot := h.callers caller _ hcaller
  refine h.set rfl rfl rfl rfl ?_ ⟨⟨hknown.le, hknown.current, hknown.token⟩, rfl⟩ nofun h.log
    (fun hmem => hmem)
  intro other _ hother
  rw [hlock] at hother
  cases hother

theorem Inv.dropCall (h : Inv host s) (hcaller : s.callers[caller]? = some (.calling snapshot)) :
    Inv host { s.move caller .dropped with lock := none } := by
  obtain ⟨-, hlock, -⟩ := h.callers caller _ hcaller
  exact h.set rfl rfl rfl rfl (others_wait hlock) trivial nofun h.log (fun hmem => hmem)

theorem Inv.step {act : Act} (h : Inv host s) (hclear : Clear host s act)
    (hstep : step host s act = some s') : Inv host s' := by
  cases act with
  | refreshSession =>
    obtain rfl := Option.some.inj hstep
    exact h.begin
  | acquire caller =>
    simp only [Refresh.step] at hstep
    split at hstep
    · obtain rfl := Option.some.inj hstep
      exact h.acquire ‹_› ‹_›
    · cases hstep
  | check caller =>
    simp only [Refresh.step] at hstep
    split at hstep
    · obtain rfl := Option.some.inj hstep
      exact h.check ‹_›
    · cases hstep
  | call caller =>
    simp only [Refresh.step] at hstep
    split at hstep
    · obtain rfl := Option.some.inj hstep
      exact h.call ‹_›
    · cases hstep
  | answer caller answer =>
    simp only [Refresh.step] at hstep
    split at hstep
    · obtain rfl := Option.some.inj hstep
      rename_i snapshot hcaller
      have hok := h.callers caller _ hcaller
      exact h.move hok nofun
    · cases hstep
  | conclude caller =>
    simp only [Refresh.step] at hstep
    split at hstep
    · obtain rfl := Option.some.inj hstep
      exact h.conclude ‹_› hclear
    · cases hstep
  | persist caller =>
    simp only [Refresh.step] at hstep
    split at hstep
    · obtain rfl := Option.some.inj hstep
      exact h.persist ‹_›
    · cases hstep
  | reject caller =>
    simp only [Refresh.step] at hstep
    split at hstep
    · obtain rfl := Option.some.inj hstep
      exact h.reject ‹_›
    · cases hstep
  | drop caller =>
    simp only [Refresh.step] at hstep
    split at hstep
    · obtain rfl := Option.some.inj hstep
      exact h.move trivial nofun
    · obtain rfl := Option.some.inj hstep
      exact h.dropCall ‹_›
    · cases hstep
  | fence expectedRevision =>
    obtain rfl := Option.some.inj hstep
    exact h.fence hclear

theorem inv_start (host : Host) (s : State) (h : (machine host).start s) : Inv host s := by
  obtain rfl : s = { session := { session := host.session } } := h
  refine ⟨nofun, ⟨rfl, nofun, nofun, ?_⟩, nofun⟩
  intro event older hsuffix
  cases List.suffix_nil.1 hsuffix

/-- One refresh at a time, and none outlives its session. -/
theorem refresh_orderly (host : Host) (s : State) (h : Reaches (machine host) (Clear host) s) :
    OneCall s ∧ Orderly host.session s.log := by
  have hinv : Inv host s := Reaches.invariant (inv_start host)
    (fun _ _ _ hinv hclear hstep => hinv.step hclear hstep) h
  refine ⟨?_, hinv.log.orderly⟩
  intro caller other snapshot snapshot' hcaller hother
  have hlock := (hinv.callers caller _ hcaller).2.1
  rw [(hinv.callers other _ hother).2.1] at hlock
  exact (Option.some.inj hlock).symm

def sampleSession (refreshToken : String) : Session :=
  { accessToken := "access-" ++ refreshToken, refreshToken, userId := "user-1"
    expiresAtMs := 0 }

def sampleHost : Host :=
  { session := sampleSession "refresh-1", sessionPersistence := some fun _ => .ok () }

def sampleStart : State := { session := { session := sampleHost.session } }

/-- Two callers start from one session; the first rotates it, and a sign-out comes after. -/
def sharedRotation : List Act :=
  [.refreshSession, .refreshSession, .acquire 0, .check 0, .call 0,
    .answer 0 (.ok (sampleSession "refresh-2")), .conclude 0, .persist 0, .acquire 1, .check 1,
    .fence none]

theorem sharedRotation_orderly :
    OneCall ((run (machine sampleHost) sampleStart sharedRotation).getD sampleStart) ∧
      Orderly sampleHost.session
        ((run (machine sampleHost) sampleStart sharedRotation).getD sampleStart).log :=
  refresh_orderly sampleHost _ ((Reaches.start sampleStart rfl).of_run_getD sharedRotation
    (by decide) (by decide) sampleStart)

/-- The sign-out falls between the install and the hand-over. -/
def overtakenPersist : List Act :=
  [.refreshSession, .acquire 0, .check 0, .call 0, .answer 0 (.ok (sampleSession "refresh-2")),
    .conclude 0, .fence none, .persist 0]

theorem overtakenPersist_handed :
    Reaches (machine sampleHost) (fun _ _ => True)
        ((run (machine sampleHost) sampleStart overtakenPersist).getD sampleStart) ∧
      ¬ Orderly sampleHost.session
        ((run (machine sampleHost) sampleStart overtakenPersist).getD sampleStart).log := by
  refine ⟨(Reaches.start sampleStart rfl).of_run_getD overtakenPersist
    (Meets.of_forall (fun _ _ _ => trivial) _) (by decide) sampleStart, ?_⟩
  intro horderly
  have hlog : ((run (machine sampleHost) sampleStart overtakenPersist).getD sampleStart).log =
      [.persisted (sampleSession "refresh-2"), .signedOut,
        .installed 0 (sampleSession "refresh-2"), .presented 0 0 "refresh-1"] := by
    decide
  rw [hlog] at horderly
  exact horderly _ _ List.suffix_rfl List.mem_cons_self

end CopyPaste.Cloud.Refresh
