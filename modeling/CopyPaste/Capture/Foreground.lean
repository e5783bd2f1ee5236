import Mathlib.Tactic.Common
import CopyPaste.Lib.Guarded
import CopyPaste.Capture.SourceCoverage

/-!
The foreground evidence beside everything that was ever heard. The log keeps each
activation; the history keeps a numbered end of it. A position in the log says where
an observation was made, and what a decision clears is a stretch of the log.
-/

namespace CopyPaste.Capture.Foreground

open Lib.Guarded SourceCoverage

/-- An activation as it was appended; `real` for a notification, not for what a
getter's disagreement adds. -/
structure Heard where
  serviceId : ℕ
  bundleId : Option String
  real : Bool
  deriving DecidableEq

/-- A decision with the boundary it was asked for, the history it came of and the
length of the log then. -/
structure Decided where
  decision : Decision
  previous : Option (ℤ × Observation)
  history : ActivationHistory
  position : ℕ

/-- `seen` has every observation with the length of the log when it was made, and
`since` the length of the log when a service began. -/
structure State where
  history : ActivationHistory
  owner : GenerationCoverage
  log : List Heard
  services : List ℕ
  since : ℕ → ℕ
  seen : List (Observation × ℕ)
  decided : List Decided

inductive Act
  | record (bundleId : Option String)
  | deactivate (bundleId : Option String)
  | reconcile (bundleId : Option String)
  | replace (serviceId : ℕ)
  | observe
  | decide (generation : ℤ) (sample : ℕ) (identity : Option SourceIdentity)
  | unchanged (generation : ℤ) (observation : Option ℕ)
  | consume (generation : ℤ) (sample : Option ℕ) (decision : Option ℕ) (sameCount : Bool)

/-- What the history is told, in the log. -/
def State.hear (s : State) (history : ActivationHistory) (bundleIds : List (Option String))
    (real : Bool) : State :=
  { s with
    history
    log := s.log ++ bundleIds.map fun bundleId => ⟨s.history.serviceId, bundleId, real⟩ }

/-- The observation of that number, `none` where the caller has none. -/
def State.observed (s : State) : Option ℕ → Option (Option Observation)
  | none => some none
  | some index => (s.seen[index]?).map fun o => some o.1

def State.answered (s : State) : Option ℕ → Option (Option Decision)
  | none => some none
  | some index => (s.decided[index]?).map fun d => some d.decision

def step (s : State) : Act → Option State
  | .record bundleId => some (s.hear (s.history.record bundleId) [bundleId] true)
  | .deactivate bundleId => some (s.hear (s.history.deactivate bundleId) [bundleId] true)
  | .reconcile bundleId =>
    some (s.hear (s.history.reconcile bundleId)
      (if s.history.disagrees bundleId then [none, bundleId] else []) false)
  | .replace serviceId =>
    -- An exhausted counter hands out 0, again and again.
    if serviceId = 0 ∨ serviceId ∉ s.services then
      some { s with
        history := .new serviceId
        services := serviceId :: s.services
        since := Function.update s.since serviceId s.log.length }
    else none
  | .observe => some { s with seen := s.seen ++ [(s.history.observation, s.log.length)] }
  | .decide generation sample identity =>
    (s.seen[sample]?).map fun o =>
      { s with
        seen := s.seen ++ [(s.history.observation, s.log.length)]
        decided := s.decided ++
          [⟨s.history.decide s.owner.boundary generation o.1 identity, s.owner.boundary,
            s.history, s.log.length⟩] }
  | .unchanged generation observation =>
    (s.observed observation).map fun current =>
      { s with owner := s.owner.unchanged generation current }
  | .consume generation sample decision sameCount =>
    (s.observed sample).bind fun sample =>
      (s.answered decision).map fun decision =>
        { s with owner := .consume generation sample decision sameCount }

def begun (serviceId : ℕ) : State :=
  ⟨.new serviceId, {}, [], [serviceId], fun _ => 0, [], []⟩

def machine : Machine State Act := ⟨fun s => ∃ serviceId, s = begun serviceId, step⟩

/-- The stretch of the log after one position and up to another. -/
def State.between (s : State) (after upTo : ℕ) : List Heard := (s.log.take upTo).drop after

/-- Where an observation of a service stands that began at `since`. -/
structure Placed (log : List Heard) (since : ℕ) (o : Observation) (position : ℕ) : Prop where
  bound : o.epoch ≤ epochMax
  real_le : o.realEpoch ≤ o.epoch
  within : position ≤ log.length
  reached : since + o.epoch ≤ position
  exact : o.epoch ≠ epochMax → position = since + o.epoch
  reconciled : o.epoch ≠ epochMax →
    ∀ heard ∈ (log.take position).drop (since + o.realEpoch), heard.real = false

structure Numbered (log : List Heard) (epoch : ℕ) (events : List Activation) : Prop where
  length_le : events.length ≤ epoch
  within : events.length ≤ log.length
  epochs : events.map (·.epoch) = List.range' (epoch + 1 - events.length) events.length
  bundles : events.map (·.bundleId) = (log.drop (log.length - events.length)).map (·.bundleId)

/-- The history against the log: where it stands, and, while its counter lasts, that
its deque is the end of the log. -/
structure Follows (log : List Heard) (since : ℕ) (h : ActivationHistory) : Prop where
  placed : Placed log since h.observation log.length
  numbered : h.epoch ≠ epochMax → Numbered log h.epoch h.events
  own : ∀ heard ∈ log.drop since, heard.serviceId = h.serviceId

variable {log : List Heard} {epoch since position : ℕ} {events : List Activation} {o : Observation}
  {previous : Option (ℤ × Observation)} {generation : ℤ} {seen : List (Observation × ℕ)} {s : State}

theorem Numbered.push (h : Numbered log epoch events) (heard : Heard) :
    Numbered (log ++ [heard]) (epoch + 1) (events ++ [⟨epoch + 1, heard.bundleId⟩]) where
  length_le := by simpa using h.length_le
  within := by simpa using h.within
  epochs := by
    have hle := h.length_le
    rw [List.map_append, h.epochs, List.length_append, List.length_singleton,
      List.range'_concat, show epoch + 1 + 1 - (events.length + 1) = epoch + 1 - events.length
        by omega]
    simp only [List.map_cons, List.map_nil, Nat.one_mul]
    rw [show epoch + 1 - events.length + events.length = epoch + 1 by omega]
  bundles := by
    have hle := h.within
    rw [List.map_append, h.bundles, List.length_append, List.length_append,
      List.length_singleton, List.length_singleton,
      show log.length + 1 - (events.length + 1) = log.length - events.length by omega,
      List.drop_append_of_le_length (by omega), List.map_append]
    rfl

theorem Numbered.tail (h : Numbered log epoch events) : Numbered log epoch events.tail := by
  cases events with
  | nil => exact h
  | cons event rest =>
    have hle : rest.length + 1 ≤ epoch := h.length_le
    have hwithin : rest.length + 1 ≤ log.length := h.within
    refine ⟨by simp; omega, by simp; omega, ?_, ?_⟩
    · have hepochs := congrArg List.tail h.epochs
      rw [List.length_cons, List.range'_succ, List.tail_cons, ← List.map_tail,
        show epoch + 1 - (rest.length + 1) + 1 = epoch + 1 - rest.length by omega] at hepochs
      exact hepochs
    · have hbundles := congrArg List.tail h.bundles
      rw [← List.map_tail, ← List.map_tail, List.tail_drop] at hbundles
      simpa [show log.length - (rest.length + 1) + 1 = log.length - rest.length by omega]
        using hbundles

/-- From the activation of an epoch on, the deque has what the log has. -/
theorem Numbered.suffix (h : Numbered log epoch events) (hlength : log.length = since + epoch)
    {start index : ℕ} (hindex : events.findIdx? (·.epoch == start) = some index) :
    0 < start ∧ start ≤ epoch ∧
      (events.drop index).map (·.bundleId) =
        (log.drop (since + start - 1)).map (·.bundleId) := by
  obtain ⟨hlt, heq, -⟩ := List.findIdx?_eq_some_iff_getElem.1 hindex
  have hle := h.length_le
  have hnumber : (events.map (·.epoch))[index]? = some start := by
    rw [List.getElem?_map, List.getElem?_eq_getElem hlt]
    simpa using heq
  rw [h.epochs, List.getElem?_range' hlt, Nat.one_mul, Option.some.injEq] at hnumber
  refine ⟨by omega, by omega, ?_⟩
  rw [List.map_drop, h.bundles, ← List.map_drop, List.drop_drop,
    show log.length - events.length + index = since + start - 1 by omega]

theorem Placed.mono (h : Placed log since o position) (more : List Heard) :
    Placed (log ++ more) since o position where
  bound := h.bound
  real_le := h.real_le
  within := by
    have hwithin := h.within
    rw [List.length_append]
    omega
  reached := h.reached
  exact := h.exact
  reconciled := by
    rw [List.take_append_of_le_length h.within]
    exact h.reconciled

/-- The events after one observation and up to another that has heard of no newer
notification. -/
theorem Placed.reconciled_between {old : Observation} {before : ℕ}
    (hold : Placed log since old before) (h : Placed log since o position)
    (hepoch : o.epoch ≠ epochMax) (hreal : old.realEpoch = o.realEpoch) :
    ∀ heard ∈ (log.take position).drop before, heard.real = false := by
  intro heard hheard
  have hreached := hold.reached
  have hle := hold.real_le
  apply h.reconciled hepoch heard
  rw [show before = since + o.realEpoch + (before - (since + o.realEpoch)) by omega,
    ← List.drop_drop] at hheard
  exact List.mem_of_mem_drop hheard

theorem append_serviceId (h : ActivationHistory) (bundleId : Option String) :
    (h.append bundleId).serviceId = h.serviceId := by
  unfold ActivationHistory.append
  split <;> rfl

theorem append_realEpoch (h : ActivationHistory) (bundleId : Option String) :
    (h.append bundleId).realEpoch = h.realEpoch := by
  unfold ActivationHistory.append
  split <;> rfl

/-- What an appended activation leaves, whatever the notifications are counted to. -/
private theorem Follows.appended {h : ActivationHistory} (hfollows : Follows log since h)
    (heard : Heard) (hservice : heard.serviceId = h.serviceId) {real : ℕ}
    (hle : real ≤ (h.append heard.bundleId).epoch)
    (hsettled : (h.append heard.bundleId).epoch ≠ epochMax →
      ∀ other ∈ (log ++ [heard]).drop (since + real), other.real = false) :
    Follows (log ++ [heard]) since { h.append heard.bundleId with realEpoch := real } := by
  have hbound : h.epoch ≤ epochMax := hfollows.placed.bound
  have hreached : since + h.epoch ≤ log.length := hfollows.placed.reached
  have hexact : h.epoch ≠ epochMax → log.length = since + h.epoch := hfollows.placed.exact
  refine ⟨?_, ?_, fun other hother => ?_⟩
  · refine ⟨?_, hle, le_refl _, ?_, ?_, ?_⟩ <;>
      simp only [ActivationHistory.observation, List.length_append, List.length_singleton]
    · unfold ActivationHistory.append
      split <;> simp only <;> omega
    · unfold ActivationHistory.append
      split <;> simp only <;> omega
    · unfold ActivationHistory.append
      split <;> simp only <;> omega
    · rw [List.take_of_length_le (by simp)]
      exact hsettled
  · simp only
    unfold ActivationHistory.append
    split
    · rename_i hlt
      intro _
      have hnumbered := (hfollows.numbered (by omega)).push heard
      simp only
      split
      · exact hnumbered.tail
      · exact hnumbered
    · intro hmax
      simp only at hmax
      omega
  · have hsame : (h.append heard.bundleId).serviceId = h.serviceId :=
      append_serviceId h heard.bundleId
    rw [List.drop_append_of_le_length (by omega), List.mem_append, List.mem_singleton] at hother
    rcases hother with hother | rfl
    · exact (hfollows.own other hother).trans hsame.symm
    · exact hservice.trans hsame.symm

theorem Follows.append {h : ActivationHistory} (hfollows : Follows log since h)
    (bundleId : Option String) :
    Follows (log ++ [⟨h.serviceId, bundleId, false⟩]) since (h.append bundleId) := by
  have hreached : since + h.epoch ≤ log.length := hfollows.placed.reached
  have hreal : h.realEpoch ≤ h.epoch := hfollows.placed.real_le
  have hle : h.epoch ≤ (h.append bundleId).epoch := by
    unfold ActivationHistory.append
    split <;> simp
  have hsettled := hfollows.placed.reconciled
  rw [List.take_of_length_le (le_refl _)] at hsettled
  have happended := hfollows.appended ⟨h.serviceId, bundleId, false⟩ rfl (hreal.trans hle) (by
    intro hepoch other hother
    have hmax : h.epoch ≠ epochMax := by
      have hbound : h.epoch ≤ epochMax := hfollows.placed.bound
      intro hmax
      simp [ActivationHistory.append, hmax] at hepoch
    rw [List.drop_append_of_le_length (by omega), List.mem_append, List.mem_singleton] at hother
    rcases hother with hother | rfl
    · exact hsettled hmax other hother
    · rfl)
  rw [← append_realEpoch h bundleId] at happended
  exact happended

theorem Follows.record {h : ActivationHistory} (hfollows : Follows log since h)
    (bundleId : Option String) :
    Follows (log ++ [⟨h.serviceId, bundleId, true⟩]) since (h.record bundleId) := by
  refine hfollows.appended ⟨h.serviceId, bundleId, true⟩ rfl (le_refl _) ?_
  intro hepoch other hother
  have hexact : h.epoch ≠ epochMax → log.length = since + h.epoch := hfollows.placed.exact
  have hmax : h.epoch ≠ epochMax := by
    intro hmax
    simp [ActivationHistory.append, hmax] at hepoch
  have hbound : h.epoch ≤ epochMax := hfollows.placed.bound
  have hnext : (h.append bundleId).epoch = h.epoch + 1 := by
    rw [ActivationHistory.append, if_pos (by omega)]
  rw [List.drop_eq_nil_of_le] at hother
  · cases hother
  · have hlength := hexact hmax
    simp only [List.length_append, List.length_singleton]
    omega

theorem Follows.deactivate {h : ActivationHistory} (hfollows : Follows log since h)
    (bundleId : Option String) :
    Follows (log ++ [⟨h.serviceId, bundleId, true⟩]) since (h.deactivate bundleId) := by
  obtain ⟨hplaced, hnumbered, hown⟩ := hfollows.record bundleId
  exact ⟨⟨hplaced.bound, hplaced.real_le, hplaced.within, hplaced.reached, hplaced.exact,
    hplaced.reconciled⟩, hnumbered, hown⟩

theorem Follows.reconcile {h : ActivationHistory} (hfollows : Follows log since h)
    (bundleId : Option String) :
    Follows (log ++ (if h.disagrees bundleId then [none, bundleId] else []).map
      fun bundleId => ⟨h.serviceId, bundleId, false⟩) since (h.reconcile bundleId) := by
  unfold ActivationHistory.reconcile
  split
  · have htwice := (hfollows.append none).append bundleId
    rw [append_serviceId, List.append_assoc] at htwice
    exact htwice
  · simpa using hfollows

theorem mem_gather (coverage : Coverage) (events : List Activation) (id : String) :
    id ∈ (ActivationHistory.gather coverage events).candidates ↔
      id ∈ coverage.candidates ∨ ∃ event ∈ events, event.bundleId = some id := by
  induction events generalizing coverage with
  | nil => simp [ActivationHistory.gather]
  | cons event rest ih =>
    cases hbundle : event.bundleId with
    | none => simp [ActivationHistory.gather, hbundle, ih]
    | some bundle =>
      simp only [ActivationHistory.gather, hbundle, ih, Finset.mem_insert, List.mem_cons,
        exists_eq_or_imp, Option.some.injEq]
      rw [or_assoc, or_left_comm, eq_comm]

theorem gather_complete (coverage : Coverage) (events : List Activation) :
    (ActivationHistory.gather coverage events).incomplete = none ↔
      coverage.incomplete = none ∧ ∀ event ∈ events, event.bundleId ≠ none := by
  induction events generalizing coverage with
  | nil => simp [ActivationHistory.gather]
  | cons event rest ih =>
    cases hbundle : event.bundleId <;> simp [ActivationHistory.gather, hbundle, ih]

/-- What a coverage that lets an exclusion list pass has looked at. -/
theorem cover_allows {h : ActivationHistory} {sample : Observation} {excluded : List String}
    (hlist : excluded ≠ []) (hallows : (h.cover previous generation sample).allows excluded) :
    h.serviceId ≠ 0 ∧ h.epoch ≠ epochMax ∧ h.active.isSome ∧
      ∃ old start index, previous = some (old, start) ∧ start.serviceId = h.serviceId ∧
        old < generation ∧ h.events.findIdx? (·.epoch == start.epoch) = some index ∧
        ∀ event ∈ h.events.drop index, ∃ id, event.bundleId = some id ∧ id ∉ excluded := by
  have hallowed : (h.cover previous generation sample).incomplete = none ∧
      ∀ id ∈ (h.cover previous generation sample).candidates, id ∉ excluded := by
    have hnonempty : excluded.isEmpty = false := by simpa using hlist
    simp only [Coverage.allows, hnonempty, Bool.false_or, Bool.and_eq_true,
      decide_eq_true_eq, Option.isNone_iff_eq_none] at hallows
    exact ⟨hallows.1.1, hallows.2⟩
  obtain ⟨hcomplete, hclean⟩ := hallowed
  unfold ActivationHistory.cover at hcomplete hclean
  split at hcomplete
  · simp at hcomplete
  rename_i hlive
  rw [if_neg hlive] at hclean
  split at hcomplete
  · simp at hcomplete
  rename_i hsample
  rw [if_neg hsample] at hclean
  rcases previous with _ | ⟨old, start⟩
  · simp at hcomplete
  simp only at hcomplete hclean
  split at hcomplete
  · simp at hcomplete
  rename_i hservice
  rw [if_neg hservice] at hclean
  split at hcomplete
  · simp at hcomplete
  rename_i hgeneration
  rw [if_neg hgeneration] at hclean
  cases hindex : h.events.findIdx? (·.epoch == start.epoch) with
  | none => simp [hindex] at hcomplete
  | some index =>
    simp only [hindex] at hcomplete hclean
    split at hcomplete
    · simp at hcomplete
    rename_i hactive
    rw [if_neg hactive] at hclean
    refine ⟨fun hzero => hlive (.inl hzero), fun hmax => hlive (.inr hmax),
      Option.isSome_iff_ne_none.2 (by simpa [ActivationHistory.observation] using hactive),
      old, start, index, rfl,
      by simpa using hservice, by simpa using hgeneration, hindex, fun event hevent => ?_⟩
    have hknown := ((gather_complete _ _).1 hcomplete).2 event hevent
    obtain ⟨id, hid⟩ := Option.ne_none_iff_exists'.1 hknown
    exact ⟨id, hid, hclean id ((mem_gather _ _ _).2 (.inr ⟨event, hevent, hid⟩))⟩

/-- What a decision that lets an exclusion list pass was made on. -/
structure Evidence (log : List Heard) (since : ℕ) (d : Decided) (start : Observation)
    (excluded : List String) : Prop where
  service : start.serviceId = d.history.serviceId
  counted : start.epoch ≠ epochMax
  begun : 0 < start.epoch
  before : since + start.epoch ≤ d.position
  active : d.history.active.isSome
  clean : ∀ heard ∈ (log.take d.position).drop (since + start.epoch - 1),
    heard.serviceId = d.history.serviceId ∧
      ∃ id, heard.bundleId = some id ∧ id ∉ excluded

/-- A decision against the log and the observations made. -/
structure Grounded (log : List Heard) (since : ℕ) (seen : List (Observation × ℕ))
    (d : Decided) : Prop where
  within : d.position ≤ log.length
  evidence : ∀ excluded, excluded ≠ [] → d.decision.coverage.allows excluded →
    d.history.serviceId ≠ 0 ∧ ∃ old start, d.previous = some (old, start) ∧
      old < d.decision.generation ∧ Evidence log since d start excluded
  boundary : ∀ old start, d.previous = some (old, start) → ∃ p, (start, p) ∈ seen
  recovery : ∀ o, d.decision.recovery = some o → (∃ p, (o, p) ∈ seen) ∧
    o.serviceId ≠ 0 ∧ o.epoch ≠ epochMax ∧ d.decision.sample.activeKnown = false ∧
    d.decision.sample.serviceId = o.serviceId ∧ d.decision.sample.realEpoch = o.realEpoch

theorem Grounded.mono {d : Decided} (h : Grounded log since seen d) (more : List Heard)
    (others : List (Observation × ℕ)) :
    Grounded (log ++ more) since (seen ++ others) d where
  within := by
    have hwithin := h.within
    rw [List.length_append]
    omega
  evidence := by
    intro excluded hlist hallows
    obtain ⟨hzero, old, start, hprevious, hold, hevidence⟩ := h.evidence excluded hlist hallows
    refine ⟨hzero, old, start, hprevious, hold, hevidence.service, hevidence.counted,
      hevidence.begun, hevidence.before, hevidence.active, ?_⟩
    rw [List.take_append_of_le_length h.within]
    exact hevidence.clean
  boundary := by
    intro old start hprevious
    obtain ⟨p, hp⟩ := h.boundary old start hprevious
    exact ⟨p, List.mem_append_left _ hp⟩
  recovery := by
    intro o ho
    obtain ⟨⟨p, hp⟩, hrest⟩ := h.recovery o ho
    exact ⟨⟨p, List.mem_append_left _ hp⟩, hrest⟩

theorem decide_recovery {h : ActivationHistory} {sample : Observation}
    {identity : Option SourceIdentity}
    (hrecovery : (h.decide previous generation sample identity).recovery = some o) :
    o = h.observation ∧ h.serviceId ≠ 0 ∧ h.epoch ≠ epochMax ∧ sample.activeKnown = false ∧
      sample.serviceId = o.serviceId ∧ sample.realEpoch = o.realEpoch := by
  simp only [ActivationHistory.decide] at hrecovery
  split at hrecovery
  · rename_i hwhen
    obtain rfl : h.observation = o := by simpa using hrecovery
    simp only [Bool.and_eq_true, Bool.not_eq_true', beq_iff_eq, bne_iff_ne, ne_eq] at hwhen
    obtain ⟨⟨⟨⟨⟨hsample, -⟩, hservice⟩, hreal⟩, hepoch⟩, hzero⟩ := hwhen
    exact ⟨rfl, hzero, hepoch, hsample, hservice, hreal⟩
  · cases hrecovery

theorem grounded_decide {h : ActivationHistory} (hfollows : Follows log since h)
    (hprevious : ∀ old start, previous = some (old, start) → ∃ p, (start, p) ∈ seen)
    (generation : ℤ) (sample : Observation) (identity : Option SourceIdentity) :
    Grounded log since (seen ++ [(h.observation, log.length)])
      ⟨h.decide previous generation sample identity, previous, h, log.length⟩ where
  within := le_refl _
  evidence := by
    intro excluded hlist hallows
    obtain ⟨hzero, hepoch, hactive, old, start, index, hboundary, hservice, hold, hindex, hclean⟩ :=
      cover_allows hlist hallows
    have hlength : log.length = since + h.epoch := hfollows.placed.exact hepoch
    have hbound : h.epoch ≤ epochMax := hfollows.placed.bound
    obtain ⟨hbegun, hle, hsuffix⟩ := (hfollows.numbered hepoch).suffix hlength hindex
    refine ⟨hzero, old, start, hboundary, hold, hservice, by omega, hbegun,
      by simp only; omega, hactive, ?_⟩
    simp only [List.take_length]
    intro heard hheard
    constructor
    · apply hfollows.own heard
      rw [show since + start.epoch - 1 = since + (start.epoch - 1) by omega,
        ← List.drop_drop] at hheard
      exact List.mem_of_mem_drop hheard
    · have hmem := List.mem_map_of_mem (f := Heard.bundleId) hheard
      rw [← hsuffix] at hmem
      obtain ⟨event, hevent, heq⟩ := List.mem_map.1 hmem
      obtain ⟨id, hid, hout⟩ := hclean event hevent
      exact ⟨id, heq.symm.trans hid, hout⟩
  boundary := by
    intro old start heq
    obtain ⟨p, hp⟩ := hprevious old start heq
    exact ⟨p, List.mem_append_left _ hp⟩
  recovery := by
    intro o ho
    obtain ⟨rfl, hrest⟩ := decide_recovery ho
    exact ⟨⟨log.length, by simp⟩, hrest⟩

/-- What every run keeps. -/
structure Inv (s : State) : Prop where
  follows : Follows s.log (s.since s.history.serviceId) s.history
  service : s.history.serviceId ∈ s.services
  placed : ∀ o ∈ s.seen, o.1.serviceId ≠ 0 →
    o.1.serviceId ∈ s.services ∧ Placed s.log (s.since o.1.serviceId) o.1 o.2
  grounded : ∀ d ∈ s.decided, d.history.serviceId ∈ s.services ∧
    Grounded s.log (s.since d.history.serviceId) s.seen d
  boundary : ∀ generation o, s.owner.boundary = some (generation, o) → ∃ p, (o, p) ∈ s.seen

theorem inv_begun (serviceId : ℕ) : Inv (begun serviceId) where
  follows := by
    refine ⟨⟨?_, ?_, ?_, ?_, ?_, ?_⟩, fun _ => ⟨?_, ?_, ?_, ?_⟩, ?_⟩ <;>
      simp [begun, ActivationHistory.new, ActivationHistory.observation]
  service := by simp [begun, ActivationHistory.new]
  placed := by simp [begun]
  grounded := by simp [begun]
  boundary := by simp [begun]

theorem Inv.hear (h : Inv s) {history : ActivationHistory} {bundleIds : List (Option String)}
    {real : Bool} (hservice : history.serviceId = s.history.serviceId)
    (hfollows : Follows (s.hear history bundleIds real).log (s.since s.history.serviceId) history) :
    Inv (s.hear history bundleIds real) where
  follows := by
    simp only [State.hear, hservice]
    exact hfollows
  service := by
    simp only [State.hear, hservice]
    exact h.service
  placed := by
    intro o ho hzero
    obtain ⟨hmem, hplaced⟩ := h.placed o ho hzero
    exact ⟨hmem, hplaced.mono _⟩
  grounded := by
    intro d hd
    obtain ⟨hmem, hgrounded⟩ := h.grounded d hd
    refine ⟨hmem, ?_⟩
    have hmore := hgrounded.mono (bundleIds.map fun bundleId =>
      (⟨s.history.serviceId, bundleId, real⟩ : Heard)) []
    rwa [List.append_nil] at hmore
  boundary := h.boundary

/-- The start of an exhausted service is never asked for. -/
theorem Grounded.of_exhausted {other : ℕ} {d : Decided} (h : Grounded log since seen d)
    (hzero : d.history.serviceId = 0) : Grounded log other seen d where
  within := h.within
  evidence := fun excluded hlist hallows =>
    absurd hzero (h.evidence excluded hlist hallows).1
  boundary := h.boundary
  recovery := h.recovery

theorem Inv.replace (h : Inv s) {serviceId : ℕ} (hfresh : serviceId = 0 ∨ serviceId ∉ s.services) :
    Inv { s with
      history := .new serviceId
      services := serviceId :: s.services
      since := Function.update s.since serviceId s.log.length } where
  follows := by
    refine ⟨⟨?_, ?_, ?_, ?_, ?_, ?_⟩, fun _ => ⟨?_, ?_, ?_, ?_⟩, ?_⟩ <;>
      simp [ActivationHistory.new, ActivationHistory.observation]
  service := List.mem_cons_self
  placed := by
    intro o ho hzero
    obtain ⟨hmem, hplaced⟩ := h.placed o ho hzero
    have hne : o.1.serviceId ≠ serviceId := by
      rintro rfl
      exact hfresh.elim hzero fun hout => hout hmem
    refine ⟨List.mem_cons_of_mem _ hmem, ?_⟩
    simp only [Function.update_of_ne hne]
    exact hplaced
  grounded := by
    intro d hd
    obtain ⟨hmem, hgrounded⟩ := h.grounded d hd
    refine ⟨List.mem_cons_of_mem _ hmem, ?_⟩
    by_cases hsame : d.history.serviceId = serviceId
    · have hzero : serviceId = 0 := hfresh.resolve_right fun hout => hout (hsame ▸ hmem)
      exact hgrounded.of_exhausted (hsame.trans hzero)
    · simp only [Function.update_of_ne hsame]
      exact hgrounded
  boundary := h.boundary

/-- One more observation, and decisions that are grounded on it. -/
theorem Inv.saw {s : State} (h : Inv s) {more : List Decided}
    (hmore : ∀ d ∈ more, d.history = s.history ∧
      Grounded s.log (s.since s.history.serviceId)
        (s.seen ++ [(s.history.observation, s.log.length)]) d) :
    Inv { s with
      seen := s.seen ++ [(s.history.observation, s.log.length)]
      decided := s.decided ++ more } where
  follows := h.follows
  service := h.service
  placed := by
    intro o ho hzero
    rcases List.mem_append.1 ho with ho | ho
    · exact h.placed o ho hzero
    · obtain rfl := List.mem_singleton.1 ho
      exact ⟨h.service, h.follows.placed⟩
  grounded := by
    intro d hd
    rcases List.mem_append.1 hd with hd | hd
    · obtain ⟨hmem, hgrounded⟩ := h.grounded d hd
      have hsaw := hgrounded.mono [] [(s.history.observation, s.log.length)]
      rw [List.append_nil] at hsaw
      exact ⟨hmem, hsaw⟩
    · obtain ⟨heq, hgrounded⟩ := hmore d hd
      rw [heq]
      exact ⟨h.service, hgrounded⟩
  boundary := by
    intro generation o ho
    obtain ⟨p, hp⟩ := h.boundary generation o ho
    exact ⟨p, List.mem_append_left _ hp⟩

theorem mem_of_observed {index : Option ℕ} (h : s.observed index = some (some o)) :
    ∃ p, (o, p) ∈ s.seen := by
  rcases index with _ | index
  · simp [State.observed] at h
  · obtain ⟨⟨o', p⟩, hget, heq⟩ := Option.map_eq_some_iff.1 h
    obtain rfl : o' = o := by simpa using heq
    exact ⟨p, List.mem_of_getElem? hget⟩

theorem mem_of_answered {index : Option ℕ} {decision : Decision}
    (h : s.answered index = some (some decision)) : ∃ d ∈ s.decided, d.decision = decision := by
  rcases index with _ | index
  · simp [State.answered] at h
  · obtain ⟨d, hget, heq⟩ := Option.map_eq_some_iff.1 h
    exact ⟨d, List.mem_of_getElem? hget, by simpa using heq⟩

/-- An idle sample keeps the boundary or recovers it. -/
theorem unchanged_boundary {owner : GenerationCoverage} {g : ℤ} {observation : Option Observation}
    (h : (owner.unchanged generation observation).boundary = some (g, o)) :
    owner.boundary = some (g, o) ∨ observation = some o ∧
      ∃ g' old, owner.boundary = some (g', old) ∧ GenerationCoverage.recovers old o = true := by
  unfold GenerationCoverage.unchanged at h
  split at h
  · exact .inl h
  · split at h
    · rename_i current g' old heq
      split at h
      · rename_i hrecovers
        obtain ⟨rfl, rfl⟩ : generation = g ∧ current = o := by simpa using h
        exact .inr ⟨rfl, g', old, heq, hrecovers⟩
      · exact .inl h
    · exact .inl h

/-- A consumed generation takes the sample, or what its own decision recovered. -/
theorem consume_boundary {g : ℤ} {sample : Option Observation} {decision : Option Decision}
    {sameCount : Bool}
    (h : (GenerationCoverage.consume generation sample decision sameCount).boundary =
      some (g, o)) :
    sample = some o ∨ ∃ d, decision = some d ∧ sample = some d.sample ∧ d.recovery = some o := by
  simp only [GenerationCoverage.consume] at h
  obtain ⟨o', hcursor, heq⟩ := Option.map_eq_some_iff.1 h
  obtain rfl : o' = o := by simpa using (Prod.mk.inj heq).2
  rcases Option.or_eq_some_iff.1 hcursor with hrecovery | ⟨-, hsample⟩
  · split at hrecovery
    · obtain ⟨d, hfilter, hd⟩ := Option.bind_eq_some_iff.1 hrecovery
      obtain ⟨hdecision, hmatch⟩ := Option.filter_eq_some_iff.1 hfilter
      have hsame : some d.sample = sample := by simpa using (Bool.and_eq_true_iff.1 hmatch).2
      exact .inr ⟨d, hdecision, hsame.symm, hd⟩
    · cases hrecovery
  · exact .inl hsample

theorem inv_step {s' : State} {act : Act} (h : Inv s) (hstep : step s act = some s') : Inv s' := by
  cases act with
  | record bundleId =>
    obtain rfl : s.hear _ _ _ = s' := by simpa [step] using hstep
    exact h.hear (append_serviceId _ _) (h.follows.record bundleId)
  | deactivate bundleId =>
    obtain rfl : s.hear _ _ _ = s' := by simpa [step] using hstep
    exact h.hear (append_serviceId _ _) (h.follows.deactivate bundleId)
  | reconcile bundleId =>
    obtain rfl : s.hear _ _ _ = s' := by simpa [step] using hstep
    apply h.hear ?_ (h.follows.reconcile bundleId)
    unfold ActivationHistory.reconcile
    split
    · rw [append_serviceId, append_serviceId]
    · rfl
  | replace serviceId =>
    simp only [step] at hstep
    split at hstep
    · rename_i hfresh
      obtain rfl := Option.some.inj hstep
      exact h.replace hfresh
    · cases hstep
  | observe =>
    obtain rfl := Option.some.inj hstep
    have hsaw := @Inv.saw _ h [] (by simp)
    simp only [List.append_nil] at hsaw
    exact hsaw
  | decide generation sample identity =>
    obtain ⟨o, -, rfl⟩ := Option.map_eq_some_iff.1 hstep
    apply h.saw
    intro d hd
    obtain rfl := List.mem_singleton.1 hd
    exact ⟨rfl, grounded_decide h.follows (fun old start hprevious =>
      h.boundary old start hprevious) generation o.1 identity⟩
  | unchanged generation observation =>
    obtain ⟨current, hobserved, rfl⟩ := Option.map_eq_some_iff.1 hstep
    refine ⟨h.follows, h.service, h.placed, h.grounded, fun g o ho => ?_⟩
    rcases unchanged_boundary ho with ho | ⟨rfl, -⟩
    · exact h.boundary g o ho
    · exact mem_of_observed hobserved
  | consume generation sample decision sameCount =>
    obtain ⟨given, hobserved, hrest⟩ := Option.bind_eq_some_iff.1 hstep
    obtain ⟨answer, hanswered, rfl⟩ := Option.map_eq_some_iff.1 hrest
    refine ⟨h.follows, h.service, h.placed, h.grounded, fun g o ho => ?_⟩
    rcases consume_boundary ho with rfl | ⟨decision, rfl, -, hrecovery⟩
    · exact mem_of_observed hobserved
    · obtain ⟨d, hd, rfl⟩ := mem_of_answered hanswered
      exact ((h.grounded d hd).2.recovery o hrecovery).1

theorem inv_of_reaches {allowed : State → Act → Prop} (h : Reaches machine allowed s) : Inv s := by
  apply h.invariant
  · rintro s ⟨serviceId, rfl⟩
    exact inv_begun serviceId
  · intro s s' act hinv _ hstep
    exact inv_step hinv hstep

/-- The observation a step of the owner is given: the boundary it has, or the sample
it consumes. -/
def State.given (s : State) : Act → Option Observation
  | .consume _ sample _ _ => (s.observed sample).join
  | _ => s.owner.boundary.map (·.2)

/-- The boundary after a step is what it was given, or recovers it: then what was
given was unknown, and all that lies between was reconciled, not notified. -/
def Moves (s s' : State) (act : Act) : Prop :=
  ∀ generation o, s'.owner.boundary = some (generation, o) → s.given act = some o ∨
    ∃ old, s.given act = some old ∧ old.activeKnown = false ∧ old.serviceId = o.serviceId ∧
      (∃ p, (o, p) ∈ s.seen) ∧
      ∀ before position, (old, before) ∈ s.seen → (o, position) ∈ s.seen →
        ∀ heard ∈ s.between before position, heard.real = false

theorem Inv.recovers (h : Inv s) {old : Observation} (hzero : o.serviceId ≠ 0)
    (hepoch : o.epoch ≠ epochMax) (hservice : old.serviceId = o.serviceId)
    (hreal : old.realEpoch = o.realEpoch) {before : ℕ} (hold : (old, before) ∈ s.seen)
    (ho : (o, position) ∈ s.seen) : ∀ heard ∈ s.between before position, heard.real = false := by
  have hbefore := (h.placed _ hold (by rw [hservice]; exact hzero)).2
  simp only [hservice] at hbefore
  exact hbefore.reconciled_between (h.placed _ ho hzero).2 hepoch hreal

theorem moves_step {s' : State} {act : Act} (h : Inv s) (hstep : step s act = some s') :
    Moves s s' act := by
  intro generation o ho
  cases act with
  | unchanged g observation =>
    obtain ⟨current, hobserved, rfl⟩ := Option.map_eq_some_iff.1 hstep
    rcases unchanged_boundary ho with ho | ⟨rfl, g', old, hold, hrecovers⟩
    · exact .inl (by simp [State.given, ho])
    · simp only [GenerationCoverage.recovers, Bool.and_eq_true, Bool.not_eq_true', beq_iff_eq,
        bne_iff_ne, ne_eq] at hrecovers
      obtain ⟨⟨⟨⟨⟨hzero, hepoch⟩, -⟩, hknown⟩, hservice⟩, hreal⟩ := hrecovers
      exact .inr ⟨old, by simp [State.given, hold], hknown, hservice, mem_of_observed hobserved,
        fun before position => h.recovers hzero hepoch hservice hreal⟩
  | consume g sample decision sameCount =>
    obtain ⟨given, hobserved, hrest⟩ := Option.bind_eq_some_iff.1 hstep
    obtain ⟨answer, hanswered, rfl⟩ := Option.map_eq_some_iff.1 hrest
    have hgiven : s.given (.consume g sample decision sameCount) = given := by
      simp [State.given, hobserved]
    rw [hgiven]
    rcases consume_boundary ho with rfl | ⟨decision, rfl, rfl, hrecovery⟩
    · exact .inl rfl
    · obtain ⟨d, hd, rfl⟩ := mem_of_answered hanswered
      obtain ⟨hseen, hzero, hepoch, hknown, hservice, hreal⟩ :=
        (h.grounded d hd).2.recovery o hrecovery
      exact .inr ⟨_, rfl, hknown, hservice, hseen,
        fun before position => h.recovers hzero hepoch hservice hreal⟩
  | record bundleId | deactivate bundleId | reconcile bundleId | observe =>
    obtain rfl := Option.some.inj hstep
    exact .inl (by simpa [State.given] using ⟨generation, ho⟩)
  | replace serviceId =>
    simp only [step] at hstep
    split at hstep
    · obtain rfl := Option.some.inj hstep
      exact .inl (by simpa [State.given] using ⟨generation, ho⟩)
    · cases hstep
  | decide generation sample identity =>
    obtain ⟨seen, -, rfl⟩ := Option.map_eq_some_iff.1 hstep
    exact .inl (by simpa [State.given] using ⟨_, ho⟩)

/-- A decision that lets an exclusion list pass has a boundary of the same service and
an older generation; wherever that was observed, each activation current there or
since, up to the decision, is of a known bundle that is not excluded, and the active
application is known. Between two boundaries only reconciliation is passed over, after
an unknown sample. -/
theorem excluded_never_allowed {s : State} (h : Reaches machine (fun _ _ => True) s) :
    (∀ d ∈ s.decided, ∀ excluded : List String, excluded ≠ [] →
      d.decision.coverage.allows excluded →
        d.history.active.isSome ∧ ∃ old start, d.previous = some (old, start) ∧
          start.serviceId = d.history.serviceId ∧ old < d.decision.generation ∧
          (∃ p, (start, p) ∈ s.seen) ∧
          ∀ p, (start, p) ∈ s.seen → 0 < p ∧ p ≤ d.position ∧
            ∀ heard ∈ s.between (p - 1) d.position, heard.serviceId = d.history.serviceId ∧
              ∃ id, heard.bundleId = some id ∧ id ∉ excluded) ∧
      ∀ act s', step s act = some s' → Moves s s' act := by
  have hinv := inv_of_reaches h
  refine ⟨fun d hd excluded hlist hallows => ?_, fun act s' hstep => moves_step hinv hstep⟩
  have hgrounded := (hinv.grounded d hd).2
  obtain ⟨hzero, old, start, hprevious, hold, hevidence⟩ :=
    hgrounded.evidence excluded hlist hallows
  refine ⟨hevidence.active, old, start, hprevious, hevidence.service, hold,
    hgrounded.boundary old start hprevious, fun p hp => ?_⟩
  have hplaced := (hinv.placed _ hp (by rw [hevidence.service]; exact hzero)).2
  simp only [hevidence.service] at hplaced
  have hposition := hplaced.exact hevidence.counted
  have hbegun := hevidence.begun
  refine ⟨by omega, hposition ▸ hevidence.before, ?_⟩
  rw [hposition]
  exact hevidence.clean

/-- Two applications, one after the other, with a generation acknowledged between. -/
def twoApplications : List Act :=
  [.record (some "TextEdit"), .observe, .consume 10 (some 0) none true,
    .record (some "Notes"), .observe, .decide 11 1 none]

theorem excluded_never_allowed_notes :
    ∃ s, Reaches machine (fun _ _ => True) s ∧
      (∃ d ∈ s.decided, d.decision.coverage.allows ["Safari"] ∧ d.history.active.isSome ∧
        ∃ old start, d.previous = some (old, start) ∧ old < d.decision.generation) ∧
      ∀ act s', step s act = some s' → Moves s s' act := by
  have hstart : Reaches machine (fun _ _ => True) (begun 1) := .start _ ⟨1, rfl⟩
  have hreached := hstart.of_run_getD twoApplications
    (Meets.of_forall (fun _ _ _ => trivial) _) (by decide) (begun 1)
  obtain ⟨hclean, hmoves⟩ := excluded_never_allowed hreached
  refine ⟨_, hreached, ?_, hmoves⟩
  have hone : ((run machine (begun 1) twoApplications).getD (begun 1)).decided ≠ [] := by
    decide
  obtain ⟨d, hd⟩ := List.exists_mem_of_ne_nil _ hone
  have hallows : ∀ d ∈ ((run machine (begun 1) twoApplications).getD (begun 1)).decided,
      d.decision.coverage.allows ["Safari"] = true := by
    decide
  obtain ⟨hactive, old, start, hprevious, -, hold, -⟩ :=
    hclean d hd ["Safari"] (by simp) (hallows d hd)
  exact ⟨d, hd, hallows d hd, hactive, old, start, hprevious, hold⟩

end CopyPaste.Capture.Foreground
