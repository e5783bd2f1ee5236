import CopyPaste.Lib.Guarded
import CopyPaste.Lib.Threads
import CopyPaste.Capture.Admission
import Mathlib

/-!
Capture admission and the changes of the settings, as any number of threads drive
them. A task is one hold of a lock, one callback or one stage of a settings change;
what a method still has to do stands as tasks of its thread. The log has what
happened, newest first.
-/

namespace CopyPaste.Capture.Settings

open Lib.Guarded Lib.Threads Admission
open Merge.Payload (ClipboardPrivacy)

/-- A patch: what it makes of a configuration, when it is valid, and whether it has a
word on private mode. -/
structure Host (R P : Type) where
  apply : P → ConfigData R → Option (ConfigData R)
  setsPrivateMode : P → Bool

variable {R P : Type}

structure SettingsTransition (R : Type) where
  before : ConfigData R
  config : ConfigData R
  privateModeEpoch : ℕ
  capturePrivacyEpoch : ℕ

structure SettingsState (R : Type) where
  config : ConfigData R
  privateModeEpoch : ℕ := 0
  capturePrivacyEpoch : ℕ := 0

def epochMax : ℕ := 2 ^ 64 - 1

def checkedNext (epoch : ℕ) : Option ℕ := if epoch < epochMax then some (epoch + 1) else none

def privacyChanged (before config : ConfigData R) : Bool :=
  config.privateMode != before.privateMode ||
    config.excludedAppBundleIds != before.excludedAppBundleIds ||
    config.skipSecret != before.skipSecret || config.skipTransient != before.skipTransient

def prepare (host : Host R P) (current : SettingsState R) (patch : P) :
    Option (SettingsTransition R) := do
  let config ← host.apply patch current.config
  let privateModeEpoch ←
    if host.setsPrivateMode patch then checkedNext current.privateModeEpoch
    else some current.privateModeEpoch
  let capturePrivacyEpoch ←
    if privacyChanged current.config config then checkedNext current.capturePrivacyEpoch
    else some current.capturePrivacyEpoch
  pure ⟨current.config, config, privateModeEpoch, capturePrivacyEpoch⟩

/-- Where a settings change is from the moment admission is in transition. -/
inductive Stage (R : Type)
  | draining (applied : SettingsTransition R)
  | persist (applied : SettingsTransition R)
  | write (applied : SettingsTransition R)
  | publish (applied : SettingsTransition R)
  | effects
  | release

/-- What a wait for active scopes is for. -/
inductive Drain
  | transition
  | host (host : ℕ)
  | shutdown
  deriving DecidableEq

inductive Task (R P : Type)
  | openHost (kind : CaptureKind)
  | begin (host : ℕ)
  | classify (token : ℕ) (privacy : ClipboardPrivacy)
  | acquire (token : ℕ) (scope : CaptureScope)
  | committed (token : ℕ)
  | drop (token : ℕ)
  | abandon (token : ℕ)
  | revokeHost (host : ℕ)
  | drainHost (host : ℕ)
  | wait (drain : Drain)
  | failClosed
  | cancel (token : ℕ)
  | enterApply (patch : P)
  | prepare (patch : P)
  | transition (applied : SettingsTransition R)
  | holding (stage : Stage R)
  | enterAuthority
  | authority
  | abandonApply
  | leaveApply

/-- The calls that threads make; a permit is named by its token. -/
inductive Call (P : Type)
  | openHost (kind : CaptureKind)
  | begin (host : ℕ)
  | classify (token : ℕ) (privacy : ClipboardPrivacy)
  | acquire (token : ℕ) (scope : CaptureScope)
  | committed (token : ℕ)
  | drop (token : ℕ)
  | abandon (token : ℕ)
  | revokeHost (host : ℕ)
  | drainHost (host : ℕ)
  | shutdown
  | failClosed
  | applyWithEffects (patch : P)
  | withCaptureAuthority

def Call.tasks : Call P → List (Task R P)
  | .openHost kind => [.openHost kind]
  | .begin host => [.begin host]
  | .classify token privacy => [.classify token privacy]
  | .acquire token scope => [.acquire token scope]
  | .committed token => [.committed token]
  | .drop token => [.drop token]
  | .abandon token => [.abandon token]
  | .revokeHost host => [.revokeHost host]
  | .drainHost host => [.drainHost host]
  | .shutdown => [.failClosed, .wait .shutdown]
  | .failClosed => [.failClosed]
  | .applyWithEffects patch => [.enterApply patch]
  | .withCaptureAuthority => [.enterAuthority]

/-- What takes operations away. -/
inductive Cut
  | transition
  | revoked (host : ℕ)
  | closed
  deriving DecidableEq

inductive Event (R : Type)
  | begun (token host : ℕ)
  | granted (token : ℕ) (scope : CaptureScope) (config : ConfigData R)
  | committed (token : ℕ)
  | released (token : ℕ)
  | cancelled (token : ℕ)
  | cut (cut : Cut)
  | stored (config : ConfigData R)
  | published (config : ConfigData R)
  | drained (drain : Drain)

/-- The admission, the settings and the live permits. -/
structure Core (R : Type) where
  state : State R
  poisoned : Bool := false
  settings : SettingsState R
  applying : Bool := false
  abandoned : Bool := false
  permits : List (Permit R) := []
  log : List (Event R) := []

def Core.note (core : Core R) (event : Event R) : Core R :=
  { core with log := event :: core.log }

def cancels (tokens : List ℕ) : List (Task R P) := tokens.map .cancel

/-- A call that an exhausted counter makes fail closed. -/
def Core.answered (core : Core R) (state : State R) (answer : Answer) (rest : List (Task R P)) :
    Core R × List (Task R P) :=
  ({ core with state }, if answer = .exhausted then .failClosed :: rest else rest)

def Core.permit (core : Core R) (token : ℕ) : Option (Permit R) :=
  core.permits.find? (·.token == token)

/-- The permit is marked, and its operation where the lock can be had. -/
def Core.commit (core : Core R) (token : ℕ) : Core R :=
  { core with
    permits := core.permits.map fun (permit : Permit R) =>
      if permit.token == token then { permit with committed := true } else permit
    state :=
      if core.poisoned then core.state
      else core.state.change token fun operation => { operation with committed := true } }

/-- Nothing that is waited for is left. -/
def Core.isDrained (core : Core R) : Drain → Bool
  | .transition | .shutdown => core.state.active.isEmpty
  | .host host => !core.state.activeOf host

/-- The stages of a settings change. -/
def hold (core : Core R) (rest : List (Task R P)) :
    Stage R → Option (Core R × List (Task R P))
  | .draining applied =>
    if core.poisoned then some (core, rest)
    else if core.isDrained .transition then
      some (core.note (.drained .transition), .holding (.persist applied) :: rest)
    else none
  | .persist applied => some (core, .holding (.write applied) :: rest)
  | .write applied =>
    some (({ core with
      settings :=
        ⟨applied.config, applied.privateModeEpoch, applied.capturePrivacyEpoch⟩ }).note
        (.stored applied.config), .holding (.publish applied) :: rest)
  | .publish applied =>
    match if core.poisoned then none else core.state.publish applied.config with
    | none => some (core, .failClosed :: .holding .release :: rest)
    | some state =>
      some (({ core with state }).note (.published applied.config), .holding .effects :: rest)
  | .effects => some (core, .holding .release :: rest)
  | .release =>
    some (if core.poisoned then core
      else { core with state := { core.state with transitioning := false } }, rest)

/-- A task done with nothing in its way; `none` while it waits. -/
def perform (host : Host R P) (core : Core R) (rest : List (Task R P)) :
    Task R P → Option (Core R × List (Task R P))
  | .openHost kind =>
    if core.poisoned then some (core, .failClosed :: rest)
    else some (core.answered (core.state.openHost kind).1 (core.state.openHost kind).2 rest)
  | .begin host =>
    if core.poisoned then some (core, .failClosed :: rest)
    else
      match core.state.begin host with
      | (state, .id id) => some (({ core with state }).note (.begun id host), rest)
      | (state, answer) => some (core.answered state answer rest)
  | .classify token privacy =>
    if core.poisoned then some (core, .failClosed :: rest)
    else some ({ core with state := (core.state.classify token privacy).1 }, rest)
  | .acquire token scope =>
    if core.poisoned then some (core, .failClosed :: rest)
    else
      match core.state.acquire token scope with
      | none => some (core, rest)
      | some (state, permit) =>
        some (({ core with state, permits := core.permits ++ [permit] }).note
          (.granted token scope permit.config), rest)
  | .committed token =>
    (core.permit token).map fun permit =>
      if permit.scope ≠ .commit then (core, rest)
      else
        ((core.commit token).note (.committed token), rest)
  | .drop token =>
    (core.permit token).map fun permit =>
      (({ core with
        permits := core.permits.filter (·.token != token)
        state := (core.state.release permit).1 }).note (.released token),
        cancels (core.state.release permit).2 ++ rest)
  | .abandon token =>
    some ({ core with state := (core.state.remove token).1 },
      cancels (core.state.remove token).2 ++ rest)
  | .revokeHost host =>
    if core.poisoned then some (core, rest)
    else
      some (({ core with state := (core.state.revokeHost host).1 }).note (.cut (.revoked host)),
        cancels (core.state.revokeHost host).2 ++ rest)
  | .drainHost host =>
    if core.poisoned || (core.state.hosts.lookup host).isSome then some (core, rest)
    else some (core, .wait (.host host) :: rest)
  | .wait drain =>
    if core.poisoned then some (core, rest)
    else if core.isDrained drain then some (core.note (.drained drain), rest)
    else none
  | .failClosed =>
    some (({ core with state := core.state.failClosed.1 }).note (.cut .closed),
      cancels core.state.failClosed.2 ++ rest)
  | .cancel token => some (core.note (.cancelled token), rest)
  | .enterApply patch =>
    if core.abandoned then some (core, .failClosed :: rest)
    else if core.applying then none
    else some ({ core with applying := true }, .prepare patch :: .leaveApply :: rest)
  | .prepare patch =>
    match prepare host core.settings patch with
    | none => some (core, rest)
    | some applied => some (core, .transition applied :: rest)
  | .transition applied =>
    if core.poisoned then some (core, rest)
    else
      match core.state.transition with
      | .refused => some (core, rest)
      | .exhausted => some (core, .failClosed :: rest)
      | .begun state cancelled =>
        some (({ core with state }).note (.cut .transition),
          cancels cancelled ++ .holding (.draining applied) :: rest)
  | .holding stage => hold core rest stage
  | .enterAuthority =>
    if core.abandoned then some (core, .failClosed :: rest)
    else if core.applying then none
    else some ({ core with applying := true }, .authority :: .leaveApply :: rest)
  | .authority => some (core, rest)
  | .abandonApply => some ({ core with abandoned := true }, rest)
  | .leaveApply => some ({ core with applying := false }, rest)

/-- A task that does not succeed: the lock is busy where it is only tried, or the
settings cannot be written. -/
def fail (core : Core R) (rest : List (Task R P)) : Task R P → Option (Core R × List (Task R P))
  | .openHost _ | .begin _ | .classify _ _ | .acquire _ _ => some (core, rest)
  | .holding (.persist _) => some (core, .holding .release :: rest)
  | _ => none

/-- What a panic leaves to do: a held transition is dropped, and the serial ownership
of the settings is given up with admission closed. -/
def Task.unwind : Task R P → List (Task R P)
  | .holding (.draining _) => []
  | .holding _ => [.holding .release]
  | .leaveApply => [.abandonApply, .failClosed, .leaveApply]
  | _ => []

/-- A panic in the code of a caller. -/
def unwound (core : Core R) (rest : List (Task R P)) :
    Task R P → Option (Core R × List (Task R P))
  | .cancel token => some (core.note (.cancelled token), rest.flatMap Task.unwind)
  | .holding (.persist _) | .holding .effects =>
    some (core, .holding .release :: rest.flatMap Task.unwind)
  | .authority => some (core, rest.flatMap Task.unwind)
  | _ => none

inductive How
  | succeeds
  | fails
  | panics
  deriving DecidableEq

def exec (host : Host R P) (core : Core R) (task : Task R P) (rest : List (Task R P)) :
    How → Option (Core R × List (Task R P))
  | .succeeds => perform host core rest task
  | .fails => fail core rest task
  | .panics => unwound core rest task

inductive Act (P : Type)
  | call (call : Call P)
  | run (thread : ℕ) (how : How)
  | poison

abbrev Sys (R P : Type) := System (Core R) (Task R P)

def step (host : Host R P) (s : Sys R P) : Act P → Option (Sys R P)
  | .call call => some (s.call call.tasks)
  | .run thread how => s.run (exec host) thread how
  | .poison => some { s with core := { s.core with poisoned := true } }

/-- Admission as it is opened with the configuration that was loaded. -/
def opened (config : ConfigData R) : Sys R P where
  core := { state := { config }, settings := { config } }

def machine (host : Host R P) (config : ConfigData R) : Machine (Sys R P) (Act P) :=
  ⟨fun s => s = opened config, step host⟩

end CopyPaste.Capture.Settings
