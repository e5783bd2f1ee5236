import Mathlib.Data.Fintype.Basic
import CopyPaste.Lib.Guarded
import CopyPaste.Peer.Reading
import CopyPaste.Peer.StoreSource

/-!
Devices that write versions and hold sessions with each other, one session at a
time. A version neither advertised to a peer nor received from it should stay at or
above the stamp the next session advertises from. The floor that keeps it there is
lowered against the device's own cursor for that peer, while what hides a version
is the peer's cursor for the device; a version arriving between the two is lost, and
so is one that a merge makes below what the peer has been shown.
-/

namespace CopyPaste.Peer.Relay

open Lib.Guarded Lib.Keyset Merge.Comparator Merge.Payload Cursor Plan Transfer Session Advertise
  Watermark Reading

structure Device (ι S : Type) where
  store : S
  cursors : CursorStore ι

/-- The devices, and for each of them and each peer the versions that were advertised
to the peer or received from it. -/
structure State (ι S : Type) where
  device : ι → Device ι S
  exchanged : ι → ι → List ItemSummary

inductive Act (ι S : Type)
  | write (device : ι) (store : S) (stamp : Int)
  | sync (initiator responder : ι) (now nowBack : Int)

structure Setting (ι S : Type) where
  host : Host
  history : ι → History S
  arrange : ι → List ItemSummary → List ItemSummary

variable {ι S : Type} [DecidableEq ι] (setting : Setting ι S)

def Setting.versions (a : ι) (store : S) : List ItemSummary :=
  (setting.history a).versions store

/-- The versions a new store holds and the old one did not. -/
def entered (s : State ι S) (a : ι) (store : S) : List ItemSummary :=
  (setting.versions a store).filter (· ∉ setting.versions a (s.device a).store)

def party (s : State ι S) (a p : ι) (now : Int) : Party S where
  source := (setting.history a).toSyncSource
  store := (s.device a).store
  cursor := (s.device a).cursors.get p
  now := now
  arrange := setting.arrange a

def talk (s : State ι S) (a p : ι) (now nowBack : Int) : Except SyncError (Side S × Side S) :=
  session setting.host (party setting s a p now) (party setting s p a nowBack)

/-- The versions a peer advertised, was asked for and served: an item other than its
promise is not taken. -/
def received (side : Side S) : List ItemSummary :=
  side.wanted.filter (·.itemId ∈ side.attempted)

/-- One side of a completed session. -/
def closed (s : State ι S) (a p : ι) (side : Side S) : Device ι S where
  store := side.store
  cursors := (s.device a).cursors.recordCursor p side.sinceMs side.appliedFloor

def step (s : State ι S) : Act ι S → Option (State ι S)
  | .write a store stamp =>
    some { s with
      device := Function.update s.device a ⟨store, (s.device a).cursors.noteLocal stamp⟩ }
  | .sync i r now nowBack =>
    if i = r then none
    else
      match talk setting s i r now nowBack with
      | .error _ => none
      | .ok (side, back) =>
        some {
          device := Function.update (Function.update s.device i (closed s i r side)) r
            (closed s r i back)
          exchanged := fun a p =>
            if a = i ∧ p = r then
              s.exchanged a p ++ (back.workspace.remote ++ received side)
            else if a = r ∧ p = i then
              s.exchanged a p ++ (side.workspace.remote ++ received back)
            else s.exchanged a p }

/-- Devices that have not met, over histories stamped since the epoch. -/
def machine : Machine (State ι S) (Act ι S) where
  start := fun s => ∀ a, (setting.history a).Valid (s.device a).store ∧
    (∀ version ∈ setting.versions a (s.device a).store, 0 ≤ version.createdAt) ∧
    (s.device a).cursors = (fun _ => none) ∧ s.exchanged a = fun _ => []
  step := step setting

/-- A local write leaves a history, and notes a stamp of each version it brings. -/
def Proper (s : State ι S) : Act ι S → Prop
  | .write a store stamp => (setting.history a).Valid store ∧
    ∀ version ∈ entered setting s a store,
      0 ≤ version.createdAt ∧ (stamp = version.createdAt ∨ stamp = version.pinUpdatedAt)
  | .sync _ _ _ _ => True

/-- Versions new to a device, the floor noted for its peers, and where there is a peer
in session with it, that peer and what was received from it. -/
structure Arrival (ι : Type) where
  device : ι
  source : Option ι
  received : List ItemSummary
  floor : Option Int
  versions : List ItemSummary

/-- What a completed session brings one side. -/
def brought (s : State ι S) (a p : ι) (side : Side S) : Arrival ι where
  device := a
  source := some p
  received := received side
  floor := side.appliedFloor
  versions := entered setting s a side.store

def arrivals (s : State ι S) : Act ι S → List (Arrival ι)
  | .write a store stamp => [⟨a, none, [], some stamp, entered setting s a store⟩]
  | .sync i r now nowBack =>
    match talk setting s i r now nowBack with
    | .error _ => []
    | .ok (side, back) =>
      [brought setting s i r side, brought setting s r i back]

/-- Whether a peer still sees a stamp that arrives under a noted floor: it has not
read past it, or the relay floor is already that low, or the device's own cursor
for the peer is above the noted floor. -/
def inReach (record : Option SyncCursor) (peerSinceMs : Int) (floor : Option Int) (key : Int) :
    Bool :=
  decide (peerSinceMs ≤ key) || record.any fun cursor =>
    (cursor.relayFloorMs.any fun low => decide (low ≤ key)) ||
      floor.any fun low => decide (low ≤ key) && decide (low < cursor.sinceMs)

/-- A stamp that the session with a peer cannot carry the peer's cursor past: the peer
has not read past it, and the device holds nothing above it to advertise. -/
def isLatest (s : State ι S) (a p : ι) (key : Int) : Bool :=
  decide (((s.device p).cursors.get a).sinceMs ≤ key) &&
    (setting.versions a (s.device a).store).all fun own => decide (summaryKey own ≤ key)

/-- Nothing arrives between a device's cursor for a peer and the peer's for it, and what
a merge makes of a version received from the peer is above all the device held. -/
def Reached (s : State ι S) (arrival : Arrival ι) : Prop :=
  ∀ version ∈ arrival.versions, 0 ≤ version.createdAt ∧
    ∀ p, p ≠ arrival.device → version ∈ s.exchanged arrival.device p ∨
      if some p = arrival.source then
        version ∈ arrival.received ∨
          isLatest setting s arrival.device p (summaryKey version) = true
      else
        inReach ((s.device arrival.device).cursors p)
          ((s.device p).cursors.get arrival.device).sinceMs arrival.floor (summaryKey version) = true

def Covered (s : State ι S) (act : Act ι S) : Prop :=
  ∀ arrival ∈ arrivals setting s act, Reached setting s arrival

def Allowed (s : State ι S) (act : Act ι S) : Prop :=
  Proper setting s act ∧ Covered setting s act

def advertisedFrom (s : State ι S) (a p : ι) : Int :=
  ((s.device a).cursors.get p).advertiseFrom ((s.device p).cursors.get a).sinceMs

structure Inv (s : State ι S) : Prop where
  valid : ∀ a, (setting.history a).Valid (s.device a).store
  stamped : ∀ a, ∀ version ∈ setting.versions a (s.device a).store, 0 ≤ version.createdAt
  relayed : ∀ a p, a ≠ p → ∀ version ∈ setting.versions a (s.device a).store,
    version ∉ s.exchanged a p → advertisedFrom s a p ≤ summaryKey version

variable {setting}

omit [DecidableEq ι] in
theorem mem_entered {s : State ι S} {a : ι} {store : S} {version : ItemSummary} :
    version ∈ entered setting s a store ↔ version ∈ setting.versions a store ∧
      version ∉ setting.versions a (s.device a).store := by
  simp [entered]

theorem summaryKey_nonneg {version : ItemSummary} (h : 0 ≤ version.createdAt) :
    0 ≤ summaryKey version :=
  h.trans (le_max_left _ _)

/-- What a completed session leaves of one side: its peer was shown what it stored from
the advertised stamp on, and has read no further than what it was shown. -/
structure Shown (setting : Setting ι S) (s : State ι S) (a p : ι) (side back : Side S) : Prop where
  valid : (setting.history a).Valid side.store
  shown : ∀ version ∈ setting.versions a (s.device a).store,
    advertisedFrom s a p ≤ summaryKey version → version ∈ back.workspace.remote
  upTo : ∀ key, isLatest setting s a p key = true → back.sinceMs ≤ key

omit [DecidableEq ι] in
theorem sinceMs_le {s : State ι S} {a p : ι} {key : Int} (h : isLatest setting s a p key = true)
    {workspace : SummaryWorkspace} {wanted : List ItemSummary} {attempted : List String}
    (hremote : ∀ row ∈ workspace.remote, row ∈ setting.versions a (s.device a).store) :
    workspace.watermark ((s.device p).cursors.get a).sinceMs wanted attempted ≤ key := by
  unfold isLatest at h
  rw [Bool.and_eq_true, decide_eq_true_eq, List.all_eq_true] at h
  exact watermark_le_of_le h.1 fun row hrow => of_decide_eq_true (h.2 row (hremote row hrow))

omit [DecidableEq ι] in
theorem talk_shows {s : State ι S} (hinv : Inv setting s) {a p : ι} {now nowBack : Int}
    {side back : Side S} (hok : talk setting s a p now nowBack = .ok (side, back)) :
    Shown setting s a p side back ∧ Shown setting s p a back side := by
  obtain ⟨kept, keptBack, received, receivedBack, hexchange, hreceived, hreceivedBack, rfl, rfl⟩ :=
    session_ok setting.host hok
  have hvalid := hinv.valid a
  have hvalidBack := hinv.valid p
  obtain ⟨hshown, hshownBack⟩ := exchange_complete (setting.history a) (setting.history p) rfl rfl
    hvalid hvalidBack (sent_start _ _ _ _) (sent_start _ _ _ _) hexchange
  obtain ⟨hkept, hkeptBack⟩ := exchange_kept (setting.history a) (setting.history p) rfl rfl
    hvalid hvalidBack (kept_start _ _) (kept_start _ _) hexchange
  refine ⟨⟨?_, fun version hmem hle => ?_, fun key hkey => ?_⟩,
    ⟨?_, fun version hmem hle => ?_, fun key hkey => ?_⟩⟩
  · exact receiveItems_keeps setting.host (setting.history a).valid_applyBatch hvalid hreceived
  · show version ∈ (SummaryWorkspace.planWorkspace _ keptBack _ _).1.remote
    rw [SummaryWorkspace.remote_planWorkspace]
    exact hshown version hmem
      ((setting.history a).start_lt_place hvalid hmem (hinv.stamped a version hmem) hle)
  · apply sinceMs_le hkey
    rw [SummaryWorkspace.remote_planWorkspace]
    exact hkeptBack.remote
  · exact receiveItems_keeps setting.host (setting.history p).valid_applyBatch hvalidBack
      hreceivedBack
  · show version ∈ (SummaryWorkspace.planWorkspace _ kept _ _).1.remote
    rw [SummaryWorkspace.remote_planWorkspace]
    exact hshownBack version hmem
      ((setting.history p).start_lt_place hvalidBack hmem (hinv.stamped p version hmem) hle)
  · apply sinceMs_le hkey
    rw [SummaryWorkspace.remote_planWorkspace]
    exact hkept.remote

omit [DecidableEq ι] in
/-- A stamp in reach before anything is noted. -/
theorem advertiseFrom_of_inReach {cursors : CursorStore ι} {p : ι} {peerSinceMs key : Int}
    (hkey : 0 ≤ key) (h : inReach (cursors p) peerSinceMs none key = true) :
    (cursors.get p).advertiseFrom peerSinceMs ≤ key := by
  rw [advertiseFrom_le_iff]
  refine ⟨hkey, ?_⟩
  unfold inReach at h
  rw [Bool.or_eq_true, decide_eq_true_eq, Option.any_eq_true] at h
  rcases h with hpeer | ⟨cursor, hcursor, hlow⟩
  · exact Or.inl hpeer
  · refine Or.inr ?_
    rw [Option.any_none, Bool.or_false, Option.any_eq_true] at hlow
    obtain ⟨low, hmem, hle⟩ := hlow
    refine ⟨low, ?_, of_decide_eq_true hle⟩
    rw [CursorStore.get, hcursor]
    exact hmem

/-- A stamp in reach stays in reach once its floor is noted. -/
theorem advertiseFrom_noted {cursors : CursorStore ι} {p : ι} {source : Option ι}
    (hsource : source ≠ some p) {peerSinceMs floor key : Int} (hkey : 0 ≤ key)
    (h : inReach (cursors p) peerSinceMs (some floor) key = true) :
    ((cursors.noteWritten source floor).get p).advertiseFrom peerSinceMs ≤ key := by
  by_cases hbefore : inReach (cursors p) peerSinceMs none key = true
  · exact (advertiseFrom_noteWritten_le cursors source floor p peerSinceMs).trans
      (advertiseFrom_of_inReach hkey hbefore)
  · -- Only the noted floor is left to bring the stamp into reach.
    unfold inReach at h hbefore
    rw [Bool.or_eq_true, decide_eq_true_eq, Option.any_eq_true] at h hbefore
    push Not at hbefore
    rcases h with hpeer | ⟨cursor, hcursor, hnoted⟩
    · exact absurd hpeer (not_le.2 hbefore.1)
    · have hold := hbefore.2 cursor hcursor
      simp only [Option.any_none, Bool.or_false] at hold
      rw [Bool.or_eq_true, or_iff_right hold, Option.any_some, Bool.and_eq_true,
        decide_eq_true_eq, decide_eq_true_eq] at hnoted
      exact advertiseFrom_noteWritten_of_lt hsource hcursor hnoted.2 peerSinceMs hkey hnoted.1

theorem advertiseFrom_recorded {cursors : CursorStore ι} {p pairing : ι} (hne : p ≠ pairing)
    {peerSinceMs sinceMs key : Int} {floor : Option Int} (hkey : 0 ≤ key)
    (h : inReach (cursors p) peerSinceMs floor key = true) :
    ((cursors.recordCursor pairing sinceMs floor).get p).advertiseFrom peerSinceMs ≤ key := by
  cases floor with
  | none =>
    exact (advertiseFrom_recordCursor_le cursors hne sinceMs none peerSinceMs).trans
      (advertiseFrom_of_inReach hkey h)
  | some floor =>
    have hget : (cursors.recordCursor pairing sinceMs (some floor)).get p =
        (cursors.noteWritten (some pairing) floor).get p :=
      CursorStore.get_recordSession_ne _ hne sinceMs
    rw [hget]
    exact advertiseFrom_noted (by simpa using hne.symm) hkey h

theorem inv_start {s : State ι S} (h : (machine setting).start s) : Inv setting s := by
  refine ⟨fun a => (h a).1, fun a => (h a).2.1, ?_⟩
  intro a p _ version hmem _
  rw [advertisedFrom, advertiseFrom_le_iff]
  have hstamp := summaryKey_nonneg ((h a).2.1 version hmem)
  refine ⟨hstamp, Or.inl ?_⟩
  rw [(h p).2.2.1]
  exact hstamp

theorem stamped_closed {s : State ι S} (hinv : Inv setting s) {arrival : Arrival ι} {store : S}
    (hversions : arrival.versions = entered setting s arrival.device store)
    (hreached : Reached setting s arrival) {version : ItemSummary}
    (hmem : version ∈ setting.versions arrival.device store) : 0 ≤ version.createdAt := by
  by_cases hold : version ∈ setting.versions arrival.device (s.device arrival.device).store
  · exact hinv.stamped arrival.device version hold
  · exact (hreached version (hversions ▸ mem_entered.2 ⟨hmem, hold⟩)).1

theorem inv_write {s : State ι S} (hinv : Inv setting s) {a : ι} {store : S} {stamp : Int}
    (hproper : Proper setting s (.write a store stamp))
    (hreached : Reached setting s ⟨a, none, [], some stamp, entered setting s a store⟩) :
    Inv setting { s with
      device := Function.update s.device a ⟨store, (s.device a).cursors.noteLocal stamp⟩ } := by
  -- Noting a stamp moves no cursor, so only the writer's floors have changed.
  have hsince : ∀ b c, ((Function.update s.device a
      ⟨store, (s.device a).cursors.noteLocal stamp⟩ b).cursors.get c).sinceMs =
        ((s.device b).cursors.get c).sinceMs := by
    intro b c
    by_cases hb : b = a
    · subst hb
      rw [Function.update_self]
      exact CursorStore.sinceMs_noteWritten (s.device b).cursors none stamp c
    · rw [Function.update_of_ne hb]
  refine ⟨fun b => ?_, fun b version hmem => ?_, fun b p hne version hmem hnew => ?_⟩
  · by_cases hb : b = a
    · subst hb
      simpa using hproper.1
    · simpa [hb] using hinv.valid b
  · by_cases hb : b = a
    · subst hb
      exact stamped_closed hinv rfl hreached (by simpa using hmem)
    · exact hinv.stamped b version (by simpa [hb] using hmem)
  · rw [advertisedFrom, hsince]
    by_cases hb : b = a
    · subst hb
      simp only [Function.update_self] at hmem ⊢
      by_cases hold : version ∈ setting.versions b (s.device b).store
      · exact (advertiseFrom_noteWritten_le _ none stamp p _).trans
          (hinv.relayed b p hne version hold hnew)
      · obtain ⟨hstamp, hpeers⟩ := hreached version (mem_entered.2 ⟨hmem, hold⟩)
        rcases hpeers p hne.symm with hexchanged | hreach
        · exact absurd hexchanged hnew
        · rw [if_neg (by simp)] at hreach
          exact advertiseFrom_noted (by simp) (summaryKey_nonneg hstamp) hreach
    · simp only [Function.update_of_ne hb] at hmem ⊢
      exact hinv.relayed b p hne version hmem hnew

/-- One side of a session against a third peer. -/
theorem relayed_closed {s : State ι S} (hinv : Inv setting s) {a c : ι} {side : Side S}
    (hreached : Reached setting s (brought setting s a c side)) {p : ι}
    (hpa : p ≠ a) (hpc : p ≠ c) {version : ItemSummary}
    (hmem : version ∈ setting.versions a side.store) (hnew : version ∉ s.exchanged a p) :
    ((closed s a c side).cursors.get p).advertiseFrom ((s.device p).cursors.get a).sinceMs ≤
      summaryKey version := by
  by_cases hold : version ∈ setting.versions a (s.device a).store
  · exact (advertiseFrom_recordCursor_le _ hpc _ _ _).trans
      (hinv.relayed a p hpa.symm version hold hnew)
  · obtain ⟨hstamp, hpeers⟩ := hreached version (mem_entered.2 ⟨hmem, hold⟩)
    rcases hpeers p hpa with hexchanged | hreach
    · exact absurd hexchanged hnew
    · rw [if_neg (by simpa [brought] using hpc)] at hreach
      exact advertiseFrom_recorded hpc (summaryKey_nonneg hstamp) hreach

/-- One side of a session against the other: what it holds was advertised or received, or
the other has not read as far. -/
theorem exchanged_closed {s : State ι S} {a c : ι} (hne : a ≠ c) (hinv : Inv setting s)
    {side back : Side S} (hshown : Shown setting s a c side back)
    (hreached : Reached setting s (brought setting s a c side)) {version : ItemSummary}
    (hmem : version ∈ setting.versions a side.store)
    (hnew : version ∉ s.exchanged a c ++ (back.workspace.remote ++ received side)) :
    max back.sinceMs 0 ≤ summaryKey version := by
  simp only [List.mem_append, not_or] at hnew
  obtain ⟨hbefore, hadvertised, hserved⟩ := hnew
  by_cases hold : version ∈ setting.versions a (s.device a).store
  · exact absurd (hshown.shown version hold (hinv.relayed a c hne version hold hbefore)) hadvertised
  · obtain ⟨hstamp, hpeers⟩ := hreached version (mem_entered.2 ⟨hmem, hold⟩)
    rcases hpeers c hne.symm with hexchanged | hreach
    · exact absurd hexchanged hbefore
    · rw [if_pos (show some c = (brought setting s a c side).source from rfl)] at hreach
      rcases hreach with htaken | hlatest
      · exact absurd htaken hserved
      · exact max_le (hshown.upTo _ hlatest) (summaryKey_nonneg hstamp)

/-- Where a side advertises from after a session: where the other has moved its cursor. -/
theorem advertiseFrom_closed (s : State ι S) (a c : ι) (side back : Side S) :
    ((closed s a c side).cursors.get c).advertiseFrom
      ((closed s c a back).cursors.get a).sinceMs = max back.sinceMs 0 := by
  unfold closed CursorStore.recordCursor
  rw [CursorStore.get_recordSession, CursorStore.get_recordSession]
  unfold SyncCursor.advertiseFrom
  simp

/-- A completed session: the two sides are closed, and no one else changes. -/
structure Synced (setting : Setting ι S) (s s' : State ι S) (i r : ι) (side back : Side S) :
    Prop where
  initiator : s'.device i = closed s i r side
  responder : s'.device r = closed s r i back
  others : ∀ b, b ≠ i → b ≠ r → s'.device b = s.device b
  shown : s'.exchanged i r =
    s.exchanged i r ++ (back.workspace.remote ++ received side)
  shownBack : s'.exchanged r i =
    s.exchanged r i ++ (side.workspace.remote ++ received back)
  unseen : ∀ a p, ¬ (a = i ∧ p = r) → ¬ (a = r ∧ p = i) → s'.exchanged a p = s.exchanged a p

theorem synced_step {s : State ι S} {i r : ι} (hir : i ≠ r) (side back : Side S) :
    Synced setting s {
      device := Function.update (Function.update s.device i (closed s i r side)) r
        (closed s r i back)
      exchanged := fun a p =>
        if a = i ∧ p = r then
          s.exchanged a p ++ (back.workspace.remote ++ received side)
        else if a = r ∧ p = i then
          s.exchanged a p ++ (side.workspace.remote ++ received back)
        else s.exchanged a p } i r side back := by
  refine ⟨?_, ?_, fun b hi hr => ?_, ?_, ?_, fun a p h h' => ?_⟩
  · simp [hir]
  · simp
  · simp [hi, hr]
  · simp
  · simp [hir.symm]
  · simp [h, h']

/-- A session with one peer leaves the cursor for another. -/
theorem sinceMs_synced {s s' : State ι S} {i r : ι} {side back : Side S}
    (h : Synced setting s s' i r side back) {a p : ι} (hir : ¬ (a = i ∧ p = r))
    (hri : ¬ (a = r ∧ p = i)) :
    ((s'.device p).cursors.get a).sinceMs = ((s.device p).cursors.get a).sinceMs := by
  by_cases hpi : p = i
  · subst hpi
    rw [h.initiator]
    exact CursorStore.sinceMs_recordCursor_ne _ (fun har => hri ⟨har, rfl⟩) _ _
  · by_cases hpr : p = r
    · subst hpr
      rw [h.responder]
      exact CursorStore.sinceMs_recordCursor_ne _ (fun hai => hir ⟨hai, rfl⟩) _ _
    · rw [h.others p hpi hpr]

theorem inv_synced {s s' : State ι S} {i r : ι} {side back : Side S}
    (h : Synced setting s s' i r side back) (hinv : Inv setting s) (hir : i ≠ r)
    {now nowBack : Int} (htalk : talk setting s i r now nowBack = .ok (side, back))
    (hreached : Reached setting s (brought setting s i r side))
    (hreachedBack : Reached setting s (brought setting s r i back)) :
    Inv setting s' := by
  obtain ⟨hshown, hshownBack⟩ := talk_shows hinv htalk
  have hcases : ∀ b, b = i ∨ b = r ∨ b ≠ i ∧ b ≠ r := by
    intro b
    by_cases hb : b = i
    · exact Or.inl hb
    · by_cases hb' : b = r
      · exact Or.inr (Or.inl hb')
      · exact Or.inr (Or.inr ⟨hb, hb'⟩)
  refine ⟨fun b => ?_, fun b version hmem => ?_, fun b p hne version hmem hnew => ?_⟩
  · rcases hcases b with rfl | rfl | ⟨hi, hr⟩
    · rw [h.initiator]
      exact hshown.valid
    · rw [h.responder]
      exact hshownBack.valid
    · rw [h.others b hi hr]
      exact hinv.valid b
  · rcases hcases b with rfl | rfl | ⟨hi, hr⟩
    · rw [h.initiator] at hmem
      exact stamped_closed hinv rfl hreached hmem
    · rw [h.responder] at hmem
      exact stamped_closed hinv rfl hreachedBack hmem
    · rw [h.others b hi hr] at hmem
      exact hinv.stamped b version hmem
  · rcases hcases b with rfl | rfl | ⟨hi, hr⟩
    · rw [h.initiator] at hmem
      by_cases hp : p = r
      · subst hp
        rw [h.shown] at hnew
        rw [advertisedFrom, h.initiator, h.responder, advertiseFrom_closed]
        exact exchanged_closed hne hinv hshown hreached hmem hnew
      · rw [h.unseen b p (by simp [hp]) (by simp [hir])] at hnew
        rw [advertisedFrom, h.initiator, sinceMs_synced h (by simp [hp]) (by simp [hir])]
        exact relayed_closed hinv hreached hne.symm hp hmem hnew
    · rw [h.responder] at hmem
      by_cases hp : p = i
      · subst hp
        rw [h.shownBack] at hnew
        rw [advertisedFrom, h.responder, h.initiator, advertiseFrom_closed]
        exact exchanged_closed hne hinv hshownBack hreachedBack hmem hnew
      · rw [h.unseen b p (by simp [hir.symm]) (by simp [hp])] at hnew
        rw [advertisedFrom, h.responder, sinceMs_synced h (by simp [hir.symm]) (by simp [hp])]
        exact relayed_closed hinv hreachedBack hne.symm hp hmem hnew
    · rw [h.others b hi hr] at hmem
      rw [h.unseen b p (by simp [hi]) (by simp [hr])] at hnew
      rw [advertisedFrom, h.others b hi hr, sinceMs_synced h (by simp [hi]) (by simp [hr])]
      exact hinv.relayed b p hne version hmem hnew

/-- The step lemma. -/
theorem inv_step {s s' : State ι S} {act : Act ι S} (hinv : Inv setting s)
    (hallowed : Allowed setting s act) (hstep : step setting s act = some s') :
    Inv setting s' := by
  obtain ⟨hproper, hcovered⟩ := hallowed
  cases act with
  | write a store stamp =>
    obtain rfl := Option.some.inj hstep
    exact inv_write hinv hproper (hcovered _ (List.mem_singleton_self _))
  | sync i r now nowBack =>
    unfold step at hstep
    dsimp only at hstep
    split at hstep
    · exact absurd hstep (by simp)
    rename_i hir
    unfold Covered arrivals at hcovered
    dsimp only at hcovered
    cases htalk : talk setting s i r now nowBack with
    | error e => simp [htalk] at hstep
    | ok sides =>
      obtain ⟨side, back⟩ := sides
      rw [htalk] at hstep hcovered
      obtain rfl := Option.some.inj hstep
      have hreached : Reached setting s (brought setting s i r side) :=
        hcovered _ List.mem_cons_self
      have hreachedBack : Reached setting s (brought setting s r i back) :=
        hcovered _ (List.mem_cons_of_mem _ (List.mem_singleton_self _))
      exact inv_synced (synced_step hir side back) hinv hir htalk hreached hreachedBack

/-- Where nothing arrives between a device's cursor for a peer and the peer's for
it, what was neither advertised to the peer nor received from it is at or above the
stamp the next session advertises from, and that session shows it. -/
theorem unseen_version_advertised (setting : Setting ι S) {s : State ι S}
    (hreach : Reaches (machine setting) (Allowed setting) s) {a p : ι} (hne : a ≠ p)
    {version : ItemSummary} (hmem : version ∈ setting.versions a (s.device a).store)
    (hnew : version ∉ s.exchanged a p) :
    advertisedFrom s a p ≤ summaryKey version ∧
    ∀ now nowBack side back,
      (talk setting s a p now nowBack = .ok (side, back) → version ∈ back.workspace.remote) ∧
      (talk setting s p a now nowBack = .ok (side, back) → version ∈ side.workspace.remote) := by
  have hinv : Inv setting s := hreach.invariant (fun _ h => inv_start h)
    fun _ _ _ hinv hallowed hstep => inv_step hinv hallowed hstep
  have hle := hinv.relayed a p hne version hmem hnew
  refine ⟨hle, fun now nowBack side back => ⟨fun htalk => ?_, fun htalk => ?_⟩⟩
  · exact (talk_shows hinv htalk).1.shown version hmem hle
  · exact (talk_shows hinv htalk).2.shown version hmem hle

instance [Fintype ι] (s : State ι S) (act : Act ι S) : Decidable (Covered setting s act) := by
  unfold Covered Reached
  infer_instance

section Samples

open Merge.Storage StoreSource

/-- Three devices, each paired with the others. -/
def circle : Setting (Fin 3) Store where
  host := sampleHost
  history := fun a => storeHistory (sampleDevice (["laptop", "phone", "tablet"].get a))
  arrange := fun _ => id

/-- Before any session. -/
def apart (laptop phone tablet : List ItemRow) : State (Fin 3) Store where
  device := fun a => ⟨{ items := [laptop, phone, tablet].get a }, fun _ => none⟩
  exchanged := fun _ _ => []

private def newer : ItemRow := sampleNote "newer" 900 "laptop"

private def reply : ItemRow := sampleNote "reply" 950 "phone"

private def older : ItemRow := sampleNote "older" 500 "tablet"

/-- The laptop meets the phone, then the tablet. -/
private def rounds : List (Act (Fin 3) Store) := [.sync 0 1 1000 1000, .sync 0 2 1000 1000]

private theorem rounds_proper (s : State (Fin 3) Store) :
    Meets (machine circle) (Proper circle) s rounds := by
  refine Meets.of_forall (fun act hact s => ?_) s
  simp only [rounds, List.mem_cons, List.not_mem_nil, or_false] at hact
  rcases hact with rfl | rfl <;> trivial

private theorem apart_start {laptop phone tablet : List ItemRow}
    (h : ∀ rows ∈ [laptop, phone, tablet], (rows.map ItemRow.id).Nodup ∧
      ∀ row ∈ rows, isRecordId row.id = false ∧ 0 ≤ row.createdAt) :
    (machine circle).start (apart laptop phone tablet) := by
  intro a
  obtain ⟨hnodup, hrows⟩ := h ([laptop, phone, tablet].get a) (List.get_mem _ _)
  refine ⟨wellFormed_items hnodup fun row hrow => (hrows row hrow).1, ?_, rfl, rfl⟩
  intro version hmem
  obtain ⟨row, hrow, rfl⟩ := List.mem_map.1 hmem
  simp only [Store.allVersions, apart, List.map_nil, List.append_nil, List.mem_map] at hrow
  obtain ⟨item, hitem, rfl⟩ := hrow
  exact (hrows item hitem).2

private def relayed : State (Fin 3) Store :=
  (run (machine circle) (apart [newer] [reply] [older]) rounds).getD (apart [] [] [])

/-- The laptop has read the phone past the older version when that arrives. -/
theorem older_version_relayed :
    (older.toVersion ∈ (relayed.device 0).store.allVersions) ∧ advertisedFrom relayed 0 1 ≤ 500 := by
  have hmem : Merge.Prepare.storedSummary (sampleDevice "laptop").host older.toVersion ∈
      circle.versions 0 (relayed.device 0).store := by decide
  refine ⟨by decide, ?_⟩
  refine (unseen_version_advertised circle ?_ (by decide) hmem (by decide)).1
  refine (Reaches.start _ (apart_start ?_)).of_run_getD rounds ?_ (by decide) _
  · decide
  · exact (rounds_proper _).and (by decide)

private def unrelayed : State (Fin 3) Store :=
  (run (machine circle) (apart [newer] [] [older]) rounds).getD (apart [] [] [])

/-- The phone has read the laptop up to 900 and holds nothing of its own, so the
laptop's cursor for it is still 0 when a version of 500 arrives from the tablet. -/
theorem older_version_not_relayed :
    ¬ ∀ s, Reaches (machine circle) (Proper circle) s → ∀ a p, a ≠ p →
      ∀ version ∈ circle.versions a (s.device a).store, version ∉ s.exchanged a p →
        advertisedFrom s a p ≤ summaryKey version := by
  intro hall
  have hreach : Reaches (machine circle) (Proper circle) unrelayed := by
    refine (Reaches.start _ (apart_start ?_)).of_run_getD rounds (rounds_proper _)
      (by decide) _
    decide
  have hle := hall unrelayed hreach 0 1 (by decide)
    (Merge.Prepare.storedSummary (sampleDevice "laptop").host older.toVersion) (by decide)
    (by decide)
  exact absurd hle (by decide)

end Samples

end CopyPaste.Peer.Relay
