import Mathlib

/-!
Bounded foreground evidence. A history numbers the activations it is told of and
keeps the last of them; a decision gathers the bundles that were in front since the
boundary of the last acknowledged pasteboard generation.
-/

namespace CopyPaste.Capture.SourceCoverage

def maxActivations : ℕ := 128

/-- The largest epoch; an epoch here is a 64-bit counter that does not wrap. -/
def epochMax : ℕ := 2 ^ 64 - 1

structure SourceIdentity where
  bundleId : Option String
  name : Option String
  deriving DecidableEq

structure Observation where
  serviceId : ℕ
  epoch : ℕ
  realEpoch : ℕ
  activeKnown : Bool
  deriving DecidableEq

inductive Incomplete
  | missingBoundary
  | serviceChanged
  | nonmonotonicGeneration
  | evicted
  | unknown
  | exhausted
  deriving DecidableEq

structure Coverage where
  start : Option Observation
  «end» : Observation
  incomplete : Option Incomplete
  candidates : Finset String
  deriving DecidableEq

def Coverage.allows (coverage : Coverage) (excluded : List String) : Bool :=
  excluded.isEmpty ||
    (coverage.incomplete.isNone && coverage.candidates ≠ ∅ &&
      ∀ id ∈ coverage.candidates, id ∉ excluded)

structure Decision where
  generation : ℤ
  sample : Observation
  coverage : Coverage
  identity : Option SourceIdentity
  recovery : Option Observation
  deriving DecidableEq

structure Activation where
  epoch : ℕ
  bundleId : Option String
  deriving DecidableEq

structure ActivationHistory where
  serviceId : ℕ
  epoch : ℕ
  realEpoch : ℕ
  events : List Activation
  active : Option String
  deriving DecidableEq

namespace ActivationHistory

def new (serviceId : ℕ) : ActivationHistory :=
  { serviceId, epoch := 0, realEpoch := 0, events := [], active := none }

def observation (h : ActivationHistory) : Observation :=
  ⟨h.serviceId, h.epoch, h.realEpoch, h.active.isSome⟩

def append (h : ActivationHistory) (bundleId : Option String) : ActivationHistory :=
  if h.epoch < epochMax then
    let events := h.events ++ [⟨h.epoch + 1, bundleId⟩]
    { h with
      active := bundleId
      epoch := h.epoch + 1
      events := if maxActivations < events.length then events.tail else events }
  else { h with active := none, events := [] }

def record (h : ActivationHistory) (bundleId : Option String) : ActivationHistory :=
  let h := h.append bundleId
  { h with realEpoch := h.epoch }

def deactivate (h : ActivationHistory) (bundleId : Option String) : ActivationHistory :=
  { h.record bundleId with active := none }

/-- Does the getter's answer part from what the history has active? -/
def disagrees (h : ActivationHistory) (bundleId : Option String) : Bool :=
  h.active != bundleId || h.events.isEmpty

def reconcile (h : ActivationHistory) (bundleId : Option String) : ActivationHistory :=
  if h.disagrees bundleId then (h.append none).append bundleId else h

/-- The activations from the boundary on, added to the coverage one by one. -/
def gather : Coverage → List Activation → Coverage
  | coverage, [] => coverage
  | coverage, event :: rest =>
    match event.bundleId with
    | some bundle => gather { coverage with candidates := insert bundle coverage.candidates } rest
    | none => gather { coverage with incomplete := some .unknown } rest

def cover (h : ActivationHistory) (previous : Option (ℤ × Observation)) (generation : ℤ)
    (sample : Observation) : Coverage :=
  let coverage : Coverage := ⟨previous.map (·.2), h.observation, none, ∅⟩
  if h.serviceId = 0 ∨ h.epoch = epochMax then { coverage with incomplete := some .exhausted }
  else if sample.serviceId ≠ h.serviceId then { coverage with incomplete := some .serviceChanged }
  else
    match previous with
    | none => { coverage with incomplete := some .missingBoundary }
    | some (oldGeneration, start) =>
      if start.serviceId ≠ h.serviceId then { coverage with incomplete := some .serviceChanged }
      else if generation ≤ oldGeneration then
        { coverage with incomplete := some .nonmonotonicGeneration }
      else
        match h.events.findIdx? (·.epoch == start.epoch) with
        | none => { coverage with incomplete := some .evicted }
        | some index =>
          let gathered := gather coverage (h.events.drop index)
          if !h.observation.activeKnown then { gathered with incomplete := some .unknown }
          else gathered

def decide (h : ActivationHistory) (previous : Option (ℤ × Observation)) (generation : ℤ)
    (sample : Observation) (identity : Option SourceIdentity) : Decision where
  generation := generation
  sample := sample
  coverage := h.cover previous generation sample
  -- A later activation may belong to a window opened after the copy.
  identity := identity.filter fun _ => sample == h.observation
  recovery :=
    if !sample.activeKnown && h.observation.activeKnown &&
        sample.serviceId == h.observation.serviceId &&
        sample.realEpoch == h.observation.realEpoch &&
        h.epoch != epochMax && h.serviceId != 0 then
      some h.observation
    else none

end ActivationHistory

structure GenerationCoverage where
  boundary : Option (ℤ × Observation) := none
  consumedGeneration : Option ℤ := none
  deriving DecidableEq

namespace GenerationCoverage

/-- May an idle sample move a boundary that was observed before it? -/
def recovers (old current : Observation) : Bool :=
  current.serviceId != 0 && current.epoch != epochMax && current.activeKnown &&
    !old.activeKnown && old.serviceId == current.serviceId && old.realEpoch == current.realEpoch

def unchanged (owner : GenerationCoverage) (generation : ℤ) (observation : Option Observation) :
    GenerationCoverage :=
  if owner.consumedGeneration ≠ some generation then owner
  else
    match observation, owner.boundary with
    | some current, some (_, old) =>
      if recovers old current then { owner with boundary := some (generation, current) } else owner
    | _, _ => owner

def consume (generation : ℤ) (sample : Option Observation) (decision : Option Decision)
    (sameCount : Bool) : GenerationCoverage :=
  let recovery :=
    if sameCount then
      (decision.filter fun decision =>
        decision.generation == generation && some decision.sample == sample).bind (·.recovery)
    else none
  { consumedGeneration := some generation
    boundary := (recovery.or sample).map fun cursor => (generation, cursor) }

end GenerationCoverage

end CopyPaste.Capture.SourceCoverage
