import Mathlib.Data.List.Range
import Mathlib.Logic.Function.Basic
import CopyPaste.Lib.Guarded

/-!
Sessions against the removal of their pairing. A session registers under the lock
of the active sessions and counts its source operations under a lock of its own.
An unpairing or a revocation takes the pairing away under the first lock, then
cancels the sessions it found there and waits until their operations are over.
-/

namespace CopyPaste.Node.ActiveSync

open Lib.Guarded

/-- The fence of one session. -/
structure ActiveSyncState where
  cancelled : Bool := false
  operations : Nat := 0

/-- A session; `registered` while it holds its lease. -/
structure Session (κ : Type) where
  pairingId : κ
  registered : Bool := true
  state : ActiveSyncState := {}

/-- The calls that take pairings away: by a local choice, or by a membership that
another device sent. -/
inductive Removal (κ : Type)
  | unpair (pairingId : κ)
  | revoke (pairingId : κ)
  | imported

/-- A removal in progress: the pairings it cut off, the sessions it still has to
cancel and to wait for. `mark` is the first session id handed out after it held the
lock, and `storedSince` has the pairings stored since. -/
structure Call (κ : Type) where
  removal : Removal κ
  cut : κ → Bool
  mark : Nat
  toCancel : List Nat
  toDrain : List Nat
  returned : Bool := false
  storedSince : κ → Bool := fun _ => false

/-- The node: the pairings stored, those of a pending ceremony, those whose
credential is current, the sessions and the removals. -/
structure State (κ : Type) where
  peers : κ → Bool
  pending : κ → Bool
  current : κ → Bool
  nextActiveSync : Nat
  sessions : Nat → Option (Session κ)
  calls : Nat → Option (Call κ)

/-- What can happen, each under the locks it takes. `peers` is the table that an
operation on the peer store leaves. -/
inductive Act (κ : Type)
  | beginActiveSync (pairingId : κ)
  | enterOperation (id : Nat)
  | endOperation (id : Nat)
  | commitActiveSync (id : Nat)
  | leave (id : Nat)
  | remove (call : Nat) (removal : Removal κ) (peers : κ → Bool)
  | cancel (call : Nat)
  | drain (call : Nat)
  | finish (call : Nat)
  | change (peers pending current : κ → Bool)

variable {κ : Type}

/-- Another table of stored pairings. -/
def State.setPeers (s : State κ) (peers : κ → Bool) : State κ :=
  { s with
    peers := peers
    calls := fun index => (s.calls index).map fun call =>
      { call with storedSince := fun pairingId => call.storedSince pairingId || peers pairingId } }

def State.setSession (s : State κ) (id : Nat) (session : Session κ) : State κ :=
  { s with sessions := Function.update s.sessions id (some session) }

def State.setCall (s : State κ) (index : Nat) (call : Call κ) : State κ :=
  { s with calls := Function.update s.calls index (some call) }

/-- Deliver the cancellation to sessions. -/
def State.cancelSessions (s : State κ) (ids : List Nat) : State κ :=
  { s with
    sessions := fun id => (s.sessions id).map fun session =>
      if id ∈ ids then { session with state := { session.state with cancelled := true } }
      else session }

def State.registeredOf (s : State κ) (pairings : κ → Bool) : List Nat :=
  (List.range s.nextActiveSync).filter fun id =>
    (s.sessions id).any fun session => session.registered && pairings session.pairingId

section Step

variable [DecidableEq κ]

/-- The pairings a removal cuts off. An unpairing of nothing cuts off nothing, and
says so; a revocation also bars what is not stored. -/
def Removal.cuts (before after : κ → Bool) : Removal κ → κ → Bool
  | .unpair pairingId => fun other => other = pairingId && before pairingId
  | .revoke pairingId => fun other => other = pairingId
  | .imported => fun other => before other && !after other

/-- The peer store has no record of the pairing once it answered. -/
def Removal.takesAway (after : κ → Bool) : Removal κ → Bool
  | .unpair pairingId | .revoke pairingId => !after pairingId
  | .imported => true

/-- What a removal holds the lock of the active sessions for. An import cancels
under the lock, the others after it. -/
def State.removeLocked (s : State κ) (index : Nat) (removal : Removal κ) (peers : κ → Bool) :
    State κ :=
  let cut := removal.cuts s.peers peers
  let sessions := s.registeredOf cut
  let call (toCancel : List Nat) : Call κ :=
    { removal, cut, mark := s.nextActiveSync, toCancel, toDrain := sessions }
  match removal with
  | .imported => ((s.setPeers peers).cancelSessions sessions).setCall index (call [])
  | _ => (s.setPeers peers).setCall index (call sessions)

def step (s : State κ) : Act κ → Option (State κ)
  | .beginActiveSync pairingId =>
    if s.pending pairingId || !s.current pairingId then none
    else if s.peers pairingId then
      some { s.setSession s.nextActiveSync { pairingId } with
        nextActiveSync := s.nextActiveSync + 1 }
    else none
  | .enterOperation id =>
    -- Source calls are made by the task that holds the lease.
    match s.sessions id with
    | none => none
    | some session =>
      if session.registered ∧ ¬ session.state.cancelled then
        some (s.setSession id { session with
          state := { session.state with operations := session.state.operations + 1 } })
      else none
  | .endOperation id =>
    match s.sessions id with
    | none => none
    | some session =>
      if session.state.operations = 0 then none
      else some (s.setSession id { session with
        state := { session.state with operations := session.state.operations - 1 } })
  | .commitActiveSync id =>
    -- The write reaches the cursor, the profile and the peer's own record.
    match s.sessions id with
    | none => none
    | some session =>
      if !session.state.cancelled && s.peers session.pairingId && session.registered then some s
      else none
  | .leave id =>
    -- A source call is synchronous: its task cannot drop the lease inside one.
    match s.sessions id with
    | none => none
    | some session =>
      if session.state.operations = 0 then some (s.setSession id { session with registered := false })
      else none
  | .remove index removal peers =>
    if (s.calls index).isSome || !removal.takesAway peers then none
    else some (s.removeLocked index removal peers)
  | .cancel index =>
    match s.calls index with
    | none => none
    | some call =>
      match call.toCancel with
      | [] => none
      | id :: rest => some ((s.cancelSessions [id]).setCall index { call with toCancel := rest })
  | .drain index =>
    match s.calls index with
    | none => none
    | some call =>
      match call.toCancel, call.toDrain with
      | [], id :: rest =>
        if (s.sessions id).all fun session => session.state.operations = 0 then
          some (s.setCall index { call with toDrain := rest })
        else none
      | _, _ => none
  | .finish index =>
    match s.calls index with
    | none => none
    | some call =>
      if call.toCancel = [] ∧ call.toDrain = [] then
        some (s.setCall index { call with returned := true })
      else none
  | .change peers pending current =>
    some { s.setPeers peers with pending := pending, current := current }

example (s : State κ) (peers pending current : κ → Bool) :
    step s (.change peers pending current) =
      some { s.setPeers peers with pending := pending, current := current } := by
  simp only [step]

def machine : Machine (State κ) (Act κ) where
  start := fun s => (∀ id, s.sessions id = none) ∧ ∀ index, s.calls index = none
  step := step

end Step

/-- What a call still has to do about a session it cut off. -/
def Fenced (call : Call κ) (id : Nat) (session : Session κ) : Prop :=
  id < call.mark → call.cut session.pairingId = true → session.registered = true →
    (session.state.cancelled = true ∨ id ∈ call.toCancel) ∧
      (session.state.cancelled = true ∧ session.state.operations = 0 ∨ id ∈ call.toDrain)

/-- What holds of the sessions and of the calls in every state. -/
structure Inv (s : State κ) : Prop where
  fresh : ∀ id session, s.sessions id = some session → id < s.nextActiveSync
  idle : ∀ id session, s.sessions id = some session → session.registered = false →
    session.state.operations = 0
  marked : ∀ index call, s.calls index = some call → call.mark ≤ s.nextActiveSync
  fenced : ∀ index call, s.calls index = some call → ∀ id session,
    s.sessions id = some session → Fenced call id session
  absent : ∀ index call, s.calls index = some call → ∀ pairingId, call.cut pairingId = true →
    call.storedSince pairingId = false → s.peers pairingId = false
  done : ∀ index call, s.calls index = some call → call.returned = true →
    call.toCancel = [] ∧ call.toDrain = []

variable {s s' : State κ} {id index : Nat}

theorem Inv.setSession (h : Inv s) {old new : Session κ} (hold : s.sessions id = some old)
    (hidle : new.registered = false → new.state.operations = 0)
    (hfenced : ∀ call : Call κ, Fenced call id old → Fenced call id new) :
    Inv (s.setSession id new) := by
  refine ⟨?_, ?_, h.marked, ?_, h.absent, h.done⟩
  · intro other session hsession
    by_cases hid : other = id
    · rw [hid]
      exact h.fresh id old hold
    · simp only [State.setSession, Function.update_of_ne hid] at hsession
      exact h.fresh other session hsession
  · intro other session hsession
    by_cases hid : other = id
    · subst hid
      simp only [State.setSession, Function.update_self, Option.some.injEq] at hsession
      rw [← hsession]
      exact hidle
    · simp only [State.setSession, Function.update_of_ne hid] at hsession
      exact h.idle other session hsession
  · intro index call hcall other session hsession
    by_cases hid : other = id
    · subst hid
      simp only [State.setSession, Function.update_self, Option.some.injEq] at hsession
      rw [← hsession]
      exact hfenced call (h.fenced index call hcall other old hold)
    · simp only [State.setSession, Function.update_of_ne hid] at hsession
      exact h.fenced index call hcall other session hsession

theorem Inv.setPeers (h : Inv s) (peers : κ → Bool) : Inv (s.setPeers peers) := by
  have hcalls : ∀ index call, (s.setPeers peers).calls index = some call →
      ∃ before, s.calls index = some before ∧ call = { before with
        storedSince := fun pairingId => before.storedSince pairingId || peers pairingId } := by
    intro index call hcall
    obtain ⟨before, hbefore, rfl⟩ := Option.map_eq_some_iff.1 hcall
    exact ⟨before, hbefore, rfl⟩
  refine ⟨h.fresh, h.idle, ?_, ?_, ?_, ?_⟩
  · intro index call hcall
    obtain ⟨before, hbefore, rfl⟩ := hcalls index call hcall
    exact h.marked index before hbefore
  · intro index call hcall
    obtain ⟨before, hbefore, rfl⟩ := hcalls index call hcall
    exact h.fenced index before hbefore
  · intro index call hcall pairingId _ hstored
    obtain ⟨before, hbefore, rfl⟩ := hcalls index call hcall
    rw [Bool.or_eq_false_iff] at hstored
    exact hstored.2
  · intro index call hcall
    obtain ⟨before, hbefore, rfl⟩ := hcalls index call hcall
    exact h.done index before hbefore

theorem cancelSessions_eq_some {ids : List Nat} {session : Session κ}
    (h : (s.cancelSessions ids).sessions id = some session) :
    ∃ before, s.sessions id = some before ∧ session.pairingId = before.pairingId ∧
      session.registered = before.registered ∧
      session.state.operations = before.state.operations ∧
      (before.state.cancelled = true → session.state.cancelled = true) ∧
      (id ∈ ids → session.state.cancelled = true) := by
  obtain ⟨before, hbefore, rfl⟩ := Option.map_eq_some_iff.1 h
  refine ⟨before, hbefore, ?_⟩
  split
  · exact ⟨rfl, rfl, rfl, fun _ => rfl, fun _ => rfl⟩
  · rename_i hid
    exact ⟨rfl, rfl, rfl, fun hcancelled => hcancelled, fun hmem => absurd hmem hid⟩

/-- A session that is cancelled needs no more than before. -/
theorem Fenced.cancelled {call : Call κ} {before session : Session κ} (h : Fenced call id before)
    (hpairing : session.pairingId = before.pairingId)
    (hregistered : session.registered = before.registered)
    (hoperations : session.state.operations = before.state.operations)
    (hcancelled : before.state.cancelled = true → session.state.cancelled = true) :
    Fenced call id session := by
  intro hmark hcut hreg
  rw [hpairing] at hcut
  rw [hregistered] at hreg
  obtain ⟨hcancel, hdrain⟩ := h hmark hcut hreg
  refine ⟨hcancel.imp_left hcancelled, hdrain.imp_left ?_⟩
  rw [hoperations]
  exact fun hdone => ⟨hcancelled hdone.1, hdone.2⟩

theorem Inv.cancelSessions (h : Inv s) (ids : List Nat) : Inv (s.cancelSessions ids) := by
  refine ⟨?_, ?_, h.marked, ?_, h.absent, h.done⟩
  · intro id session hsession
    obtain ⟨before, hbefore, -⟩ := cancelSessions_eq_some hsession
    exact h.fresh id before hbefore
  · intro id session hsession hleft
    obtain ⟨before, hbefore, -, hregistered, hoperations, -⟩ := cancelSessions_eq_some hsession
    rw [hoperations]
    exact h.idle id before hbefore (hregistered ▸ hleft)
  · intro index call hcall id session hsession
    obtain ⟨before, hbefore, hpairing, hregistered, hoperations, hcancelled, -⟩ :=
      cancelSessions_eq_some hsession
    exact (h.fenced index call hcall id before hbefore).cancelled hpairing hregistered hoperations
      hcancelled

/-- A call in the place of another, or of none. -/
theorem Inv.setCall (h : Inv s) (index : Nat) {call : Call κ} (hmark : call.mark ≤ s.nextActiveSync)
    (hfenced : ∀ id session, s.sessions id = some session → Fenced call id session)
    (habsent : ∀ pairingId, call.cut pairingId = true → call.storedSince pairingId = false →
      s.peers pairingId = false)
    (hdone : call.returned = true → call.toCancel = [] ∧ call.toDrain = []) :
    Inv (s.setCall index call) := by
  have hcalls : ∀ other known, (s.setCall index call).calls other = some known →
      known = call ∨ s.calls other = some known := by
    intro other known hknown
    by_cases heq : other = index
    · subst heq
      simp only [State.setCall, Function.update_self, Option.some.injEq] at hknown
      exact Or.inl hknown.symm
    · simp only [State.setCall, Function.update_of_ne heq] at hknown
      exact Or.inr hknown
  refine ⟨h.fresh, h.idle, ?_, ?_, ?_, ?_⟩
  · intro other known hknown
    rcases hcalls other known hknown with rfl | hold
    · exact hmark
    · exact h.marked other known hold
  · intro other known hknown
    rcases hcalls other known hknown with rfl | hold
    · exact hfenced
    · exact h.fenced other known hold
  · intro other known hknown
    rcases hcalls other known hknown with rfl | hold
    · exact habsent
    · exact h.absent other known hold
  · intro other known hknown
    rcases hcalls other known hknown with rfl | hold
    · exact hdone
    · exact h.done other known hold

theorem mem_registeredOf (h : Inv s) {pairings : κ → Bool} {session : Session κ}
    (hsession : s.sessions id = some session) (hregistered : session.registered = true)
    (hcut : pairings session.pairingId = true) : id ∈ s.registeredOf pairings := by
  unfold State.registeredOf
  rw [List.mem_filter, List.mem_range, hsession]
  exact ⟨h.fresh id session hsession, by simp [hregistered, hcut]⟩

variable [DecidableEq κ]

theorem Inv.beginActiveSync (h : Inv s) {pairingId : κ}
    (hstep : step s (.beginActiveSync pairingId) = some s') : Inv s' := by
  simp only [step] at hstep
  split at hstep
  · simp at hstep
  split at hstep
  · obtain rfl := Option.some.inj hstep
    have hsessions : ∀ id session, Function.update s.sessions s.nextActiveSync
        (some { pairingId }) id = some session →
        id = s.nextActiveSync ∧ session = { pairingId } ∨ s.sessions id = some session := by
      intro id session hsession
      by_cases hid : id = s.nextActiveSync
      · subst hid
        rw [Function.update_self, Option.some.injEq] at hsession
        exact Or.inl ⟨rfl, hsession.symm⟩
      · rw [Function.update_of_ne hid] at hsession
        exact Or.inr hsession
    refine ⟨?_, ?_, ?_, ?_, h.absent, h.done⟩
    · intro id session hsession
      show id < s.nextActiveSync + 1
      rcases hsessions id session hsession with ⟨rfl, -⟩ | hold
      · omega
      · have hlt := h.fresh id session hold
        omega
    · intro id session hsession
      rcases hsessions id session hsession with ⟨-, rfl⟩ | hold
      · exact fun _ => rfl
      · exact h.idle id session hold
    · intro index call hcall
      exact (h.marked index call hcall).trans (Nat.le_succ _)
    · intro index call hcall id session hsession
      rcases hsessions id session hsession with ⟨rfl, -⟩ | hold
      · -- The session comes after every call there is.
        intro hlt
        exact absurd (h.marked index call hcall) (not_le.2 hlt)
      · exact h.fenced index call hcall id session hold
  · simp at hstep

theorem Inv.session (h : Inv s) {act : Act κ}
    (hact : act = .enterOperation id ∨ act = .endOperation id ∨ act = .commitActiveSync id ∨
      act = .leave id) (hstep : step s act = some s') : Inv s' := by
  cases hsession : s.sessions id with
  | none =>
    rcases hact with rfl | rfl | rfl | rfl <;> simp [step, hsession] at hstep
  | some session =>
    rcases hact with rfl | rfl | rfl | rfl <;> simp only [step, hsession] at hstep <;>
      split at hstep
    · rename_i hopen
      obtain rfl := Option.some.inj hstep
      refine h.setSession hsession (fun hleft => ?_) fun call hfenced hmark hcut hreg => ?_
      · rw [hopen.1] at hleft
        simp at hleft
      · -- Not cancelled yet, so the call still has it on both lists.
        obtain ⟨hcancel, hdrain⟩ := hfenced hmark hcut hreg
        exact ⟨hcancel, Or.inr (hdrain.resolve_left fun hdone => hopen.2 hdone.1)⟩
    · simp at hstep
    · simp at hstep
    · rename_i hrunning
      obtain rfl := Option.some.inj hstep
      refine h.setSession hsession (fun hleft => ?_) fun call hfenced hmark hcut hreg => ?_
      · exact absurd (h.idle id session hsession hleft) hrunning
      · obtain ⟨hcancel, hdrain⟩ := hfenced hmark hcut hreg
        exact ⟨hcancel, Or.inr (hdrain.resolve_left fun hdone => hrunning hdone.2)⟩
    · obtain rfl := Option.some.inj hstep
      exact h
    · simp at hstep
    · rename_i hidle
      obtain rfl := Option.some.inj hstep
      refine h.setSession hsession (fun _ => hidle) fun call _ _ _ hreg => ?_
      simp at hreg
    · simp at hstep

theorem Removal.absent_of_cuts {before after : κ → Bool} {removal : Removal κ}
    (h : removal.takesAway after = true) (other : κ)
    (hcut : removal.cuts before after other = true) : after other = false := by
  cases removal with
  | unpair pairingId =>
    simp only [Removal.cuts, Bool.and_eq_true, decide_eq_true_eq] at hcut
    rw [hcut.1]
    simpa [Removal.takesAway] using h
  | revoke pairingId =>
    simp only [Removal.cuts, decide_eq_true_eq] at hcut
    rw [hcut]
    simpa [Removal.takesAway] using h
  | imported =>
    simp only [Removal.cuts, Bool.and_eq_true, Bool.not_eq_true'] at hcut
    exact hcut.2

theorem Inv.removeLocked (h : Inv s) (index : Nat) {removal : Removal κ} {peers : κ → Bool}
    (hgone : removal.takesAway peers = true) : Inv (s.removeLocked index removal peers) := by
  have habsent := @Removal.absent_of_cuts κ _ s.peers peers removal hgone
  have hlisted : ∀ id session, s.sessions id = some session →
      removal.cuts s.peers peers session.pairingId = true → session.registered = true →
      id ∈ s.registeredOf (removal.cuts s.peers peers) :=
    fun id session hsession hcut hreg => mem_registeredOf h hsession hreg hcut
  cases removal with
  | unpair pairingId | revoke pairingId =>
    refine (h.setPeers peers).setCall index le_rfl ?_ (fun other hcut _ => habsent other hcut)
      (fun hreturned => by simp at hreturned)
    intro id session hsession _ hcut hreg
    have hmem := hlisted id session hsession hcut hreg
    exact ⟨Or.inr hmem, Or.inr hmem⟩
  | imported =>
    refine ((h.setPeers peers).cancelSessions _).setCall index le_rfl ?_
      (fun other hcut _ => habsent other hcut) (fun hreturned => by simp at hreturned)
    intro id session hsession _ hcut hreg
    obtain ⟨before, hbefore, hpairing, hregistered, -, -, hcancelled⟩ :=
      cancelSessions_eq_some hsession
    have hmem := hlisted id before hbefore (hpairing ▸ hcut) (hregistered ▸ hreg)
    exact ⟨Or.inl (hcancelled hmem), Or.inr hmem⟩

theorem Inv.cancel (h : Inv s) (hstep : step s (.cancel index) = some s') : Inv s' := by
  cases hcall : s.calls index with
  | none => simp [step, hcall] at hstep
  | some call =>
    cases htodo : call.toCancel with
    | nil => simp [step, hcall, htodo] at hstep
    | cons id rest =>
      simp only [step, hcall, htodo, Option.some.injEq] at hstep
      rw [← hstep]
      refine (h.cancelSessions [id]).setCall index (h.marked index call hcall) ?_
        (h.absent index call hcall) ?_
      · intro other session hsession hmark hcut hreg
        obtain ⟨before, hbefore, hpairing, hregistered, hoperations, hcancelled, hnow⟩ :=
          cancelSessions_eq_some hsession
        have hfenced := (h.fenced index call hcall other before hbefore).cancelled hpairing
          hregistered hoperations hcancelled
        obtain ⟨hcancel, hdrain⟩ := hfenced hmark hcut hreg
        refine ⟨?_, hdrain⟩
        rcases hcancel with hcancel | hmem
        · exact Or.inl hcancel
        · rw [htodo, List.mem_cons] at hmem
          exact hmem.imp (fun heq => hnow (by simp [heq])) fun hrest => hrest
      · intro hreturned
        have hnil := (h.done index call hcall hreturned).1
        rw [htodo] at hnil
        simp at hnil

theorem Inv.drain (h : Inv s) (hstep : step s (.drain index) = some s') : Inv s' := by
  cases hcall : s.calls index with
  | none => simp [step, hcall] at hstep
  | some call =>
    cases hcancel : call.toCancel with
    | cons id rest => simp [step, hcall, hcancel] at hstep
    | nil =>
      cases hdrain : call.toDrain with
      | nil => simp [step, hcall, hcancel, hdrain] at hstep
      | cons id rest =>
        simp only [step, hcall, hcancel, hdrain] at hstep
        split at hstep
        · rename_i hquiet
          obtain rfl := Option.some.inj hstep
          refine h.setCall index (h.marked index call hcall) ?_ (h.absent index call hcall) ?_
          · intro other session hsession hmark hcut hreg
            -- Everything is cancelled by now, so what has drained stays drained.
            obtain ⟨hcancelled, hdone⟩ := h.fenced index call hcall other session hsession hmark
              hcut hreg
            rw [hcancel] at hcancelled
            have hstopped : session.state.cancelled = true := by simpa using hcancelled
            refine ⟨Or.inl hstopped, ?_⟩
            rcases hdone with hdone | hmem
            · exact Or.inl hdone
            · rw [hdrain, List.mem_cons] at hmem
              rcases hmem with rfl | hrest
              · rw [hsession] at hquiet
                exact Or.inl ⟨hstopped, by simpa using hquiet⟩
              · exact Or.inr hrest
          · intro hreturned
            have hnil := (h.done index call hcall hreturned).2
            rw [hdrain] at hnil
            simp at hnil
        · simp at hstep

theorem Inv.finish (h : Inv s) (hstep : step s (.finish index) = some s') : Inv s' := by
  cases hcall : s.calls index with
  | none => simp [step, hcall] at hstep
  | some call =>
    simp only [step, hcall] at hstep
    split at hstep
    · rename_i hempty
      obtain rfl := Option.some.inj hstep
      exact h.setCall index (h.marked index call hcall) (h.fenced index call hcall)
        (h.absent index call hcall) (fun _ => hempty)
    · simp at hstep

theorem Inv.remove (h : Inv s) {removal : Removal κ} {peers : κ → Bool}
    (hstep : step s (.remove index removal peers) = some s') : Inv s' := by
  simp only [step] at hstep
  split at hstep
  · simp at hstep
  · rename_i hguard
    obtain rfl := Option.some.inj hstep
    exact h.removeLocked index (by simpa using (not_or.1 (mt Bool.or_eq_true_iff.2 hguard)).2)

theorem inv_step {act : Act κ} (h : Inv s) (hstep : step s act = some s') : Inv s' := by
  cases act with
  | beginActiveSync pairingId => exact h.beginActiveSync hstep
  | enterOperation id => exact h.session (Or.inl rfl) hstep
  | endOperation id => exact h.session (Or.inr (Or.inl rfl)) hstep
  | commitActiveSync id => exact h.session (Or.inr (Or.inr (Or.inl rfl))) hstep
  | leave id => exact h.session (Or.inr (Or.inr (Or.inr rfl))) hstep
  | remove index removal peers => exact h.remove hstep
  | cancel index => exact h.cancel hstep
  | drain index => exact h.drain hstep
  | finish index => exact h.finish hstep
  | change peers pending current =>
    obtain rfl := Option.some.inj hstep
    obtain ⟨hfresh, hidle, hmarked, hfenced, habsent, hdone⟩ := h.setPeers peers
    exact ⟨hfresh, hidle, hmarked, hfenced, habsent, hdone⟩

theorem inv_of_reaches (h : Reaches machine (fun _ _ => True) s) : Inv s := by
  have hstart : ∀ s : State κ, machine.start s → Inv s := by
    rintro s ⟨hsessions, hcalls⟩
    refine ⟨?_, ?_, ?_, ?_, ?_, ?_⟩
    · intro id session hsession
      simp [hsessions] at hsession
    · intro id session hsession
      simp [hsessions] at hsession
    · intro index call hcall
      simp [hcalls] at hcall
    · intro index call hcall
      simp [hcalls] at hcall
    · intro index call hcall
      simp [hcalls] at hcall
    · intro index call hcall
      simp [hcalls] at hcall
  exact h.invariant hstart fun s s' act hinv _ hstep => inv_step hinv hstep

/-- Whether a removal has answered that the pairing is cut off. An unpairing that
removed nothing answers so, and its caller is told that there is no such pairing. -/
def Call.succeeded (call : Call κ) (pairingId : κ) : Prop :=
  call.returned = true ∧ call.cut pairingId = true

/-- After a removal has returned success, in whatever order everything else
happened: no operation of a session registered before it is running or starts, none
of them writes its outcome, and no session registers while the pairing is not
stored again. -/
theorem removal_is_final {s : State κ} (h : Reaches machine (fun _ _ => True) s) {index : Nat}
    {call : Call κ} (hcall : s.calls index = some call) {pairingId : κ}
    (hsucceeded : call.succeeded pairingId) :
    (∀ id session, s.sessions id = some session → session.pairingId = pairingId →
      id < call.mark → session.state.operations = 0 ∧ step s (.enterOperation id) = none ∧
        step s (.commitActiveSync id) = none) ∧
    (call.storedSince pairingId = false → step s (.beginActiveSync pairingId) = none) := by
  have hinv := inv_of_reaches h
  obtain ⟨hcancelled, hdrained⟩ := hinv.done index call hcall hsucceeded.1
  constructor
  · rintro id session hsession rfl hmark
    cases hregistered : session.registered with
    | false =>
      refine ⟨hinv.idle id session hsession hregistered, ?_, ?_⟩
      · simp [step, hsession, hregistered]
      · simp [step, hsession, hregistered]
    | true =>
      obtain ⟨-, hdone⟩ := hinv.fenced index call hcall id session hsession hmark hsucceeded.2
        hregistered
      rw [hdrained] at hdone
      have hstopped : session.state.cancelled = true ∧ session.state.operations = 0 := by
        simpa using hdone
      refine ⟨hstopped.2, ?_, ?_⟩
      · simp [step, hsession, hstopped.1]
      · simp [step, hsession, hstopped.1]
  · intro hstored
    have habsent := hinv.absent index call hcall pairingId hsucceeded.2 hstored
    simp [step, habsent]

/-- A phone is stored, a session with it is inside an operation when the phone is
unpaired, and the unpairing returns once the operation is over. -/
def cutOff : List (Act String) :=
  [.change (fun id => id = "phone") (fun _ => false) (fun _ => true), .beginActiveSync "phone",
    .enterOperation 0, .remove 0 (.unpair "phone") (fun _ => false), .cancel 0, .endOperation 0,
    .drain 0, .finish 0]

def emptyNode : State String where
  peers := fun _ => false
  pending := fun _ => false
  current := fun _ => true
  nextActiveSync := 0
  sessions := fun _ => none
  calls := fun _ => none

theorem unpaired_session_is_over :
    ∃ s : State String, Reaches machine (fun _ _ => True) s ∧
      (∃ call, s.calls 0 = some call ∧ call.succeeded "phone" ∧ call.mark = 1) ∧
      step s (.enterOperation 0) = none ∧ step s (.commitActiveSync 0) = none ∧
      step s (.beginActiveSync "phone") = none := by
  have hempty : Reaches machine (fun _ _ => True) emptyNode :=
    Reaches.start emptyNode ⟨fun _ => rfl, fun _ => rfl⟩
  have hreaches := hempty.of_run_getD cutOff (Meets.of_forall (fun _ _ _ => trivial) emptyNode)
    (by rfl) emptyNode
  refine ⟨_, hreaches, ?_⟩
  have hcall : ∃ call, ((run machine emptyNode cutOff).getD emptyNode).calls 0 = some call ∧
      call.succeeded "phone" ∧ call.mark = 1 ∧ call.storedSince "phone" = false :=
    ⟨_, rfl, ⟨rfl, rfl⟩, rfl, rfl⟩
  obtain ⟨call, hcall, hsucceeded, hmark, hstored⟩ := hcall
  obtain ⟨hsessions, hbegin⟩ := removal_is_final hreaches hcall hsucceeded
  obtain ⟨-, henter, hcommit⟩ := hsessions 0 _ rfl rfl (by rw [hmark]; omega)
  exact ⟨⟨call, hcall, hsucceeded, hmark⟩, henter, hcommit, hbegin hstored⟩

end CopyPaste.Node.ActiveSync
