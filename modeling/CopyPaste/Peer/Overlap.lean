import CopyPaste.Lib.Guarded
import CopyPaste.Peer.Cursor
import CopyPaste.Peer.Plan

/-!
Sessions of one device that overlap. Each reads its cursor when it starts and
records it when it ends, while local writes and other sessions lower the relay
floors in between. The record of a session carries no floor, so it takes away the
one that was lowered while the session ran.
-/

namespace CopyPaste.Peer.Overlap

open Lib.Guarded Merge.Comparator Cursor Plan

/-- A session in progress: the cursor it started from, the summaries it has shown,
the floors its peer's record was lowered to since it started, and those of them no
other session with the peer has recorded over. -/
structure OpenSession (κ : Type) where
  peer : κ
  cursor : SyncCursor
  shown : List ItemSummary := []
  noted : List Int := []
  standing : List Int := []

/-- The cursors, the versions stored here, those each peer holds, and the sessions
in progress. -/
structure State (κ : Type) where
  cursors : CursorStore κ
  store : List ItemSummary
  held : κ → List ItemSummary
  sessions : Nat → Option (OpenSession κ)

/-- What can happen. `saved` says whether the cursor file could be written. -/
inductive Act (κ : Type)
  | start (id : Nat) (peer : κ)
  | advertise (id : Nat) (peerSinceMs : Int) (items : List ItemSummary)
  | write (version : ItemSummary) (stamp : Int) (saved : Bool)
  | apply (version : ItemSummary)
  | hear (peer : κ) (version : ItemSummary)
  | abandon (id : Nat)
  | finish (id : Nat) (sinceMs : Int) (appliedFloor : Option Int) (savedNote saved : Bool)

variable {κ : Type} [DecidableEq κ]

/-- Change the cursors, unless the file cannot be written: then they are rolled
back. -/
def mutate (saved : Bool) (cursors changed : CursorStore κ) : CursorStore κ :=
  if saved then changed else cursors

def OpenSession.lower (cursors changed : CursorStore κ) (floorMs : Int) (session : OpenSession κ) :
    OpenSession κ :=
  if (changed.get session.peer).relayFloorMs = some floorMs ∧
      (cursors.get session.peer).relayFloorMs ≠ some floorMs then
    { session with
      noted := floorMs :: session.noted
      standing := floorMs :: session.standing }
  else session

def State.lower (s : State κ) (changed : CursorStore κ) (floorMs : Int) : State κ :=
  { s with
    cursors := changed
    sessions := fun id => (s.sessions id).map (OpenSession.lower s.cursors changed floorMs) }

/-- Another session with the peer has been recorded. -/
def OpenSession.clear (peer : κ) (session : OpenSession κ) : OpenSession κ :=
  if session.peer = peer then { session with standing := [] } else session

def State.record (s : State κ) (peer : κ) (sinceMs : Int) (saved : Bool) : State κ :=
  { s with
    cursors := mutate saved s.cursors (s.cursors.recordSession peer sinceMs)
    sessions := fun id =>
      if saved then (s.sessions id).map (OpenSession.clear peer) else s.sessions id }

def step (s : State κ) : Act κ → Option (State κ)
  | .start id peer =>
    if (s.sessions id).isSome then none
    else some { s with
      sessions := Function.update s.sessions id (some { peer, cursor := s.cursors.get peer }) }
  | .advertise id peerSinceMs items =>
    match s.sessions id with
    | none => none
    | some session =>
      if ∀ item ∈ items, item ∈ s.store ∧
          session.cursor.advertiseFrom peerSinceMs ≤ summaryKey item then
        some { s with
          sessions := Function.update s.sessions id
            (some { session with shown := session.shown ++ items }) }
      else none
  | .write version stamp saved =>
    some (({ s with store := version :: s.store } : State κ).lower
      (mutate saved s.cursors (s.cursors.noteLocal stamp)) stamp)
  | .apply version => some { s with store := version :: s.store }
  | .hear peer version =>
    some { s with held := Function.update s.held peer (version :: s.held peer) }
  | .abandon id => some { s with sessions := Function.update s.sessions id none }
  | .finish id sinceMs appliedFloor savedNote saved =>
    match s.sessions id with
    | none => none
    | some session =>
      let s := { s with sessions := Function.update s.sessions id none }
      let s := match appliedFloor with
        | none => s
        | some floor =>
          s.lower (mutate savedNote s.cursors (s.cursors.noteApplied session.peer floor)) floor
      some (s.record session.peer sinceMs saved)

def machine : Machine (State κ) (Act κ) where
  start := fun s => ∀ id, s.sessions id = none
  step := step

/-- The relay floor of a peer is at or below a stamp. -/
def FloorAt (cursors : CursorStore κ) (peer : κ) (floorMs : Int) : Prop :=
  ∃ low ∈ (cursors.get peer).relayFloorMs, low ≤ floorMs

/-- A session in progress owes its peer a version: the peer's floor was lowered to
or below it since the session started, and the session has not shown it. -/
structure Owing (s : State κ) (id : Nat) (session : OpenSession κ) (floorMs : Int) : Prop where
  open_ : s.sessions id = some session
  noted : floorMs ∈ session.noted
  withheld : ∃ version ∈ s.store, floorMs ≤ summaryKey version ∧ version ∉ session.shown ∧
    version ∉ s.held session.peer

theorem floorAt_noteWritten {cursors : CursorStore κ} {peer : κ} {floorMs : Int}
    (h : FloorAt cursors peer floorMs) (source : Option κ) (noted : Int) :
    FloorAt (cursors.noteWritten source noted) peer floorMs := by
  obtain ⟨low, hlow, hle⟩ := h
  unfold FloorAt CursorStore.get CursorStore.noteWritten at *
  by_cases hsource : source = some peer
  · rw [if_pos hsource]
    exact ⟨low, hlow, hle⟩
  · rw [if_neg hsource]
    cases hrecord : cursors peer with
    | none => simp [hrecord] at hlow
    | some record =>
      rw [hrecord] at hlow
      rw [Option.map_some, Option.getD_some]
      unfold CursorStore.lowered
      split
      · exact ⟨low, hlow, hle⟩
      · refine ⟨min low noted, ?_, (min_le_left low noted).trans hle⟩
        have hfloor : record.relayFloorMs = some low := hlow
        simp [hfloor]

omit [DecidableEq κ] in
theorem floorAt_mutate {cursors changed : CursorStore κ} {peer : κ} {floorMs : Int}
    (h : FloorAt cursors peer floorMs)
    (hchanged : FloorAt cursors peer floorMs → FloorAt changed peer floorMs) (saved : Bool) :
    FloorAt (mutate saved cursors changed) peer floorMs := by
  cases saved with
  | true => exact hchanged h
  | false => exact h

/-- What the sessions in progress rely on. -/
def Standing (s : State κ) : Prop :=
  ∀ id session, s.sessions id = some session → ∀ floorMs ∈ session.standing,
    FloorAt s.cursors session.peer floorMs

variable {s : State κ}

theorem standing_lower (h : Standing s) (source : Option κ) (floorMs : Int) (saved : Bool) :
    Standing (s.lower (mutate saved s.cursors (s.cursors.noteWritten source floorMs)) floorMs) := by
  intro id after hafter low hlow
  obtain ⟨session, hsession, rfl⟩ := Option.map_eq_some_iff.1 hafter
  have hkept : ∀ low ∈ session.standing, FloorAt (mutate saved s.cursors
      (s.cursors.noteWritten source floorMs)) session.peer low := by
    intro low hlow
    have hold := h id session hsession low hlow
    exact floorAt_mutate hold (fun h => floorAt_noteWritten h source floorMs) saved
  unfold OpenSession.lower at hlow ⊢
  split at hlow
  · rename_i hlowered
    rw [if_pos hlowered]
    rcases List.mem_cons.1 hlow with rfl | hold
    · exact ⟨low, hlowered.1, le_rfl⟩
    · exact hkept low hold
  · rename_i hlowered
    rw [if_neg hlowered]
    exact hkept low hlow

theorem standing_record (h : Standing s) (peer : κ) (sinceMs : Int) (saved : Bool) :
    Standing (s.record peer sinceMs saved) := by
  intro id after hafter low hlow
  cases saved with
  | false => exact h id after hafter low hlow
  | true =>
    obtain ⟨session, hsession, rfl⟩ := Option.map_eq_some_iff.1 hafter
    unfold OpenSession.clear at hlow ⊢
    split at hlow
    · simp at hlow
    · rename_i hpeer
      rw [if_neg hpeer]
      have hold := h id session hsession low hlow
      have hget : (s.cursors.recordSession peer sinceMs).get session.peer =
          s.cursors.get session.peer := CursorStore.get_recordSession_ne _ hpeer sinceMs
      show FloorAt (s.cursors.recordSession peer sinceMs) session.peer low
      unfold FloorAt
      rw [hget]
      exact hold

omit [DecidableEq κ] in
/-- Fewer sessions, or one with nothing standing, rely on no more. -/
theorem standing_update (h : Standing s) (id : Nat) {session : Option (OpenSession κ)}
    (hsession : ∀ opened ∈ session, ∀ floorMs ∈ opened.standing,
      FloorAt s.cursors opened.peer floorMs) :
    Standing { s with sessions := Function.update s.sessions id session } := by
  intro other opened hopened
  by_cases hid : other = id
  · subst hid
    exact hsession opened (by simpa using hopened)
  · exact h other opened (by simpa [hid] using hopened)

theorem standing_step {s' : State κ} {act : Act κ} (h : Standing s) (hstep : step s act = some s') :
    Standing s' := by
  cases act with
  | start id peer =>
    unfold step at hstep
    dsimp only at hstep
    split at hstep
    · exact absurd hstep (by simp)
    · obtain rfl := Option.some.inj hstep
      exact standing_update h id (by simp)
  | advertise id peerSinceMs items =>
    unfold step at hstep
    dsimp only at hstep
    split at hstep
    · exact absurd hstep (by simp)
    · rename_i session hsession
      split at hstep
      · obtain rfl := Option.some.inj hstep
        exact standing_update h id (by simpa using h id session hsession)
      · exact absurd hstep (by simp)
  | write version stamp saved =>
    obtain rfl := Option.some.inj hstep
    have hstored : Standing ({ s with store := version :: s.store } : State κ) := h
    exact standing_lower hstored none stamp saved
  | apply version | hear peer version =>
    obtain rfl := Option.some.inj hstep
    exact h
  | abandon id =>
    obtain rfl := Option.some.inj hstep
    exact standing_update h id (by simp)
  | finish id sinceMs appliedFloor savedNote saved =>
    unfold step at hstep
    dsimp only at hstep
    split at hstep
    · exact absurd hstep (by simp)
    · rename_i session hsession
      obtain rfl := Option.some.inj hstep
      have hclosed : Standing { s with sessions := Function.update s.sessions id none } :=
        standing_update h id (by simp)
      cases appliedFloor with
      | none => exact standing_record hclosed session.peer sinceMs saved
      | some floor =>
        exact standing_record (standing_lower hclosed (some session.peer) floor savedNote)
          session.peer sinceMs saved

theorem not_floorAt_recordSession (cursors : CursorStore κ) (peer : κ) (sinceMs floorMs : Int) :
    ¬ FloorAt (cursors.recordSession peer sinceMs) peer floorMs := by
  unfold FloorAt
  rw [CursorStore.get_recordSession]
  simp

/-- What the end of a session does to the floor of its own peer. -/
theorem floorAt_finish {s' : State κ} {id : Nat} {session : OpenSession κ}
    (hopen : s.sessions id = some session) {sinceMs : Int} {appliedFloor : Option Int}
    {savedNote saved : Bool}
    (hstep : step s (.finish id sinceMs appliedFloor savedNote saved) = some s') (floorMs : Int) :
    FloorAt s'.cursors session.peer floorMs ↔
      saved = false ∧ FloorAt s.cursors session.peer floorMs := by
  unfold step at hstep
  simp only [hopen, Option.some.injEq] at hstep
  subst hstep
  -- The floor noted for the others is not noted for the peer it came from.
  have hown : ∀ floor, (mutate savedNote s.cursors (s.cursors.noteApplied session.peer floor)).get
      session.peer = s.cursors.get session.peer := by
    intro floor
    cases savedNote <;> simp [mutate, CursorStore.noteApplied, CursorStore.noteWritten,
      CursorStore.get]
  cases saved with
  | true =>
    refine ⟨fun h => ?_, fun h => absurd h.1 (by simp)⟩
    cases appliedFloor with
    | none | some floor => exact absurd h (not_floorAt_recordSession _ _ _ _)
  | false =>
    rw [and_iff_right rfl]
    cases appliedFloor with
    | none => rfl
    | some floor =>
      unfold FloorAt
      rw [← hown floor]
      rfl

/-- A floor lowered while a session with its peer runs outlives the session only
when the cursor file cannot be written at its end; until then it stands, unless
another session with the peer has been recorded. -/
theorem lowered_floor_survives_iff {s s' : State κ}
    (hreach : Reaches machine (fun _ _ => True) s) {id : Nat} {session : OpenSession κ}
    {floorMs : Int} (howing : Owing s id session floorMs) {sinceMs : Int}
    {appliedFloor : Option Int} {savedNote saved : Bool}
    (hstep : step s (.finish id sinceMs appliedFloor savedNote saved) = some s') :
    (FloorAt s'.cursors session.peer floorMs ↔
      saved = false ∧ FloorAt s.cursors session.peer floorMs) ∧
    (floorMs ∈ session.standing → FloorAt s.cursors session.peer floorMs) := by
  have hstart : ∀ s : State κ, machine.start s → Standing s := by
    intro s hstart id session hsession
    rw [hstart id] at hsession
    exact absurd hsession (by simp)
  have hstanding : Standing s := hreach.invariant hstart
    fun _ _ _ h _ hstep => standing_step h hstep
  exact ⟨floorAt_finish howing.open_ hstep floorMs,
    hstanding id session howing.open_ floorMs⟩

section Samples

private def copied : ItemSummary := ⟨"copied", 500, false, "", "laptop", false, none, 0⟩

/-- A device that has read its phone up to 1000. -/
private def settled : State String where
  cursors := fun peer => if peer = "phone" then some ⟨1000, none⟩ else none
  store := []
  held := fun _ => []
  sessions := fun _ => none

/-- A session with the phone shows its summaries; then an older version is stored. -/
private def acts : List (Act String) :=
  [.start 0 "phone", .advertise 0 1000 [], .write copied 500 true]

private def owing : State String := (run machine settled acts).getD settled

private def phoneSession : OpenSession String :=
  { peer := "phone", cursor := ⟨1000, none⟩, noted := [500], standing := [500] }

private theorem owing_reached : Reaches machine (fun _ _ => True) owing :=
  (Reaches.start settled fun _ => rfl).of_run_getD acts (Meets.of_forall (by simp) _) rfl settled

private theorem owing_owes : Owing owing 0 phoneSession 500 :=
  ⟨rfl, by simp [phoneSession], copied, by decide, by decide, by decide, by decide⟩

/-- The file is full when the session ends, and the floor stays. -/
theorem lowered_floor_survives_unsaved :
    FloorAt ((step owing (.finish 0 1000 none true false)).getD settled).cursors "phone" 500 := by
  have hstep : step owing (.finish 0 1000 none true false) =
      some ((step owing (.finish 0 1000 none true false)).getD settled) := rfl
  obtain ⟨hiff, hstands⟩ := lowered_floor_survives_iff owing_reached owing_owes hstep
  exact hiff.2 ⟨rfl, hstands (by decide)⟩

/-- A version stored while the phone's session runs is not relayed to the phone. -/
theorem lowered_floor_erased :
    ¬ ∀ s s' : State String, Reaches machine (fun _ _ => True) s → ∀ id session floorMs,
      Owing s id session floorMs → ∀ sinceMs appliedFloor savedNote saved,
        step s (.finish id sinceMs appliedFloor savedNote saved) = some s' →
          FloorAt s'.cursors session.peer floorMs := by
  intro hall
  obtain ⟨low, hlow, -⟩ := hall owing ((step owing (.finish 0 1000 none true true)).getD settled)
    owing_reached 0 phoneSession 500 owing_owes 1000 none true true rfl
  have hnone : (((step owing (.finish 0 1000 none true true)).getD settled).cursors.get
      "phone").relayFloorMs = none := rfl
  exact absurd (hnone ▸ hlow) (by simp)

end Samples

end CopyPaste.Peer.Overlap
