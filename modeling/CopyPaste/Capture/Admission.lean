import CopyPaste.Merge.Payload
import Mathlib

/-!
Capture scopes under their mutex. Each definition is what one method does in one
hold of the lock: the state it leaves, what it returns and the operations whose
cancellations it has to run once the lock is released.
-/

namespace CopyPaste.Capture.Admission

open Merge.Payload (ClipboardPrivacy)

def maxOperations : ℕ := 32

def maxHosts : ℕ := 32

/-- Ids stay in the positive range of a signed 64-bit integer. -/
def idMax : ℕ := 2 ^ 63 - 1

def generationMax : ℕ := 2 ^ 64 - 1

/-- The settings that capture reads; `others` is everything else in the record. -/
structure ConfigData (R : Type) where
  privateMode : Bool
  excludedAppBundleIds : List String
  skipSecret : Bool
  skipTransient : Bool
  others : R
  deriving DecidableEq

variable {R : Type}

def allows (privacy : ClipboardPrivacy) (settings : ConfigData R) : Bool :=
  !(privacy.secret && settings.skipSecret || privacy.transient && settings.skipTransient)

inductive CaptureKind
  | implicit
  | explicit
  | moduleEvent
  deriving DecidableEq

inductive CaptureScope
  | read
  | commit
  | completion
  deriving DecidableEq

structure Operation where
  privacy : ClipboardPrivacy
  host : ℕ
  generation : ℕ
  committed : Bool
  deriving DecidableEq

/-- The state behind the mutex; an operation's cancellation is named by its token. -/
structure State (R : Type) where
  config : ConfigData R
  generation : ℕ := 1
  nextId : ℕ := 1
  transitioning : Bool := false
  closed : Bool := false
  hosts : List (ℕ × CaptureKind) := []
  operations : List (ℕ × Operation) := []
  active : List (ℕ × ℕ) := []
  deriving DecidableEq

structure Permit (R : Type) where
  privacy : ClipboardPrivacy
  token : ℕ
  scope : CaptureScope
  committed : Bool
  config : ConfigData R
  deriving DecidableEq

/-- What `open_host` and `begin` return; an exhausted counter still has to fail closed. -/
inductive Answer
  | refused
  | exhausted
  | id (id : ℕ)
  deriving DecidableEq

/-- How the first hold of the lock of `transition` ends. -/
inductive Turn (R : Type)
  | refused
  | exhausted
  | begun (state : State R) (cancelled : List ℕ)

namespace State

def tokens (s : State R) : List ℕ := s.operations.map (·.1)

/-- Takes the next id; the last one closes admission instead. -/
def id (s : State R) : State R × Option ℕ :=
  if idMax ≤ s.nextId then ({ s with closed := true }, none)
  else ({ s with nextId := s.nextId + 1 }, some s.nextId)

def failClosed (s : State R) : State R × List ℕ :=
  ({ s with closed := true, hosts := [], operations := [] }, s.tokens)

def openHost (s : State R) (kind : CaptureKind) : State R × Answer :=
  if s.closed || s.transitioning || maxHosts ≤ s.hosts.length then (s, .refused)
  else
    match s.id with
    | (s, none) => (s, .exhausted)
    | (s, some id) => ({ s with hosts := s.hosts ++ [(id, kind)] }, .id id)

def begin (s : State R) (host : ℕ) : State R × Answer :=
  match s.hosts.lookup host with
  | none => (s, .refused)
  | some kind =>
    if s.closed || s.transitioning || maxOperations ≤ s.operations.length ||
        s.config.privateMode ||
        (kind == .implicit && !s.config.excludedAppBundleIds.isEmpty) then (s, .refused)
    else
      match s.id with
      | (s, none) => (s, .exhausted)
      | (s, some id) =>
        ({ s with operations := s.operations ++ [(id, ⟨{}, host, s.generation, false⟩)] },
          .id id)

/-- Another value for the operation of a token. -/
def change (s : State R) (token : ℕ) (f : Operation → Operation) : State R :=
  { s with
    operations := s.operations.map fun x => if x.1 == token then (x.1, f x.2) else x }

def classify (s : State R) (token : ℕ) (privacy : ClipboardPrivacy) : State R × Bool :=
  if s.closed || s.transitioning then (s, false)
  else
    match s.operations.lookup token with
    | none => (s, false)
    | some operation =>
      if operation.generation ≠ s.generation || operation.committed then (s, false)
      else
        (s.change token fun operation => { operation with privacy := operation.privacy.union privacy },
          allows (operation.privacy.union privacy) s.config)

/-- Takes an operation out, with its cancellation when it was there. -/
def remove (s : State R) (token : ℕ) : State R × List ℕ :=
  ({ s with operations := s.operations.filter (·.1 != token) },
    if s.tokens.contains token then [token] else [])

def acquire (s : State R) (token : ℕ) (scope : CaptureScope) : Option (State R × Permit R) :=
  if s.closed || s.transitioning then none
  else
    (s.operations.lookup token).bind fun operation =>
      if !allows operation.privacy s.config || operation.generation ≠ s.generation ||
          (s.hosts.lookup operation.host).isNone ||
          operation.committed != (scope == .completion) ||
          (s.active.lookup token).isSome then none
      else
        let operations :=
          if scope = .completion then s.operations.filter (·.1 != token) else s.operations
        some ({ s with operations, active := s.active ++ [(token, operation.host)] },
          { privacy := operation.privacy, token, scope, committed := false, config := s.config })

def revokeHost (s : State R) (host : ℕ) : State R × List ℕ :=
  ({ s with
    hosts := s.hosts.filter (·.1 != host)
    operations := s.operations.filter (·.2.host != host) },
    (s.operations.filter (·.2.host == host)).map (·.1))

def activeOf (s : State R) (host : ℕ) : Bool := s.active.any (·.2 == host)

def transition (s : State R) : Turn R :=
  if s.closed || s.transitioning then .refused
  else if s.generation < generationMax then
    .begun { s with
      transitioning := true
      generation := s.generation + 1
      operations := [] } s.tokens
  else .exhausted

/-- A permit is dropped; an uncommitted commit takes its operation with it. -/
def release (s : State R) (permit : Permit R) : State R × List ℕ :=
  let s := { s with active := s.active.filter (·.1 != permit.token) }
  if permit.scope == .commit && !permit.committed then s.remove permit.token else (s, [])

def publish (s : State R) (config : ConfigData R) : Option (State R) :=
  if s.closed || !s.transitioning then none else some { s with config }

end State

end CopyPaste.Capture.Admission
