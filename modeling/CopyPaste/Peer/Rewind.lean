import CopyPaste.Peer.Relay
import CopyPaste.Peer.Uptake

/-!
Two paired devices, one of which takes its history back to a backup. The restore lowers
the floor the device advertises from, but its own cursor for the peer stays where it was,
and that cursor is where the peer advertises from. The devices come to agree where the
peer holds nothing below it that the restored history lacks.
-/

namespace CopyPaste.Peer.Rewind

open Lib.Guarded Lib.Keyset Lib.Rows Merge.Comparator Merge.Payload Cursor Plan Transfer Session
  Advertise Watermark Delivery Reading

/-- A history whose summaries of ids are stored versions. -/
structure Ledger (S : Type) extends History S where
  local_mem : ∀ store ids own, own ∈ localSummaries store ids → own ∈ versions store

/-- The two devices, and the order their hash maps list their entries in. -/
structure Pair (S : Type) where
  host : Host
  ledger : Bool → Ledger S
  arrange : Bool → List ItemSummary → List ItemSummary
  perm : ∀ a rows, (arrange a rows).Perm rows

variable {S : Type} (pair : Pair S)

def Pair.setting : Relay.Setting Bool S where
  host := pair.host
  history := fun a => (pair.ledger a).toHistory
  arrange := pair.arrange

def Pair.versions (a : Bool) (store : S) : List ItemSummary := (pair.ledger a).versions store

/-- The devices with their cursors, and the backups each has taken. -/
structure State (S : Type) where
  devices : Relay.State Bool S
  backups : Bool → List S

def State.store (s : State S) (a : Bool) : S := (s.devices.device a).store

def State.cursors (s : State S) (a : Bool) : CursorStore Bool := (s.devices.device a).cursors

inductive Act (S : Type)
  | write (device : Bool) (store : S) (stamp : Int)
  | sync (initiator : Bool) (now nowBack : Int)
  | backup (device : Bool)
  | restore (device : Bool) (store : S) (started : Int)

/-- The least stamp a history holds. -/
def oldestVersionMs (versions : List ItemSummary) : Option Int :=
  (versions.map ItemSummary.createdAt).min?

/-- The floor noted after a restore. -/
def restoredFloor (versions : List ItemSummary) (started : Int) : Int :=
  ((oldestVersionMs versions).map fun oldest => min oldest started).getD started

/-- A device with another store, and a stamp noted for every peer. -/
def State.place (s : State S) (a : Bool) (store : S) (stamp : Int) : State S :=
  { s with devices := { s.devices with
      device := Function.update s.devices.device a ⟨store, (s.cursors a).noteLocal stamp⟩ } }

def step (s : State S) : Act S → Option (State S)
  | .write a store stamp => some (s.place a store stamp)
  | .sync i now nowBack =>
    (Relay.step pair.setting s.devices (.sync i (!i) now nowBack)).map fun devices =>
      { s with devices := devices }
  | .backup a => some { s with backups := Function.update s.backups a (s.store a :: s.backups a) }
  | .restore a store started =>
    some (s.place a store (restoredFloor (pair.versions a store) started))

/-- Devices that have not met, over histories stamped since the epoch, without backups. -/
def machine : Machine (State S) (Act S) where
  start := fun s => ∀ a, (pair.ledger a).Valid (s.store a) ∧
    (∀ version ∈ pair.versions a (s.store a), 0 ≤ version.createdAt) ∧
    s.cursors a = (fun _ => none) ∧ s.backups a = []
  step := step pair

/-- A version of the id that ranks as high is among those held. -/
def Settled (versions : List ItemSummary) (version : ItemSummary) : Prop :=
  ∃ own ∈ versions, own.itemId = version.itemId ∧ version.key ≤ own.key

/-- What the merges of a side leave: each version held, or one above it; each version
applied, or one above it; and nothing above what was held or applied. -/
structure Merged (a : Bool) (before : S) (side : Side S) : Prop where
  keeps : ∀ version ∈ pair.versions a before, Settled (pair.versions a side.store) version
  takes : ∀ item ∈ side.wanted, item.itemId ∈ side.attempted →
    Settled (pair.versions a side.store) item
  brings : ∀ version ∈ pair.versions a side.store,
    (∃ own ∈ pair.versions a before, own.itemId = version.itemId ∧ version.key ≤ own.key ∧
      summaryKey own ≤ summaryKey version) ∨
    ∃ item ∈ side.wanted, item.itemId ∈ side.attempted ∧ item.itemId = version.itemId ∧
      version.key ≤ item.key

/-- A version that comes with a noted stamp: the other device has it already, or the next
session shows it. -/
def Reached (s : State S) (a : Bool) (stamp : Int) (version : ItemSummary) : Prop :=
  Settled (pair.versions (!a) (s.store !a)) version ∨
    Relay.inReach (s.cursors a !a) ((s.cursors !a).get a).sinceMs (some stamp)
      (summaryKey version) = true

/-- A local write: nothing is dropped or lowered, and what it brings is reached. -/
structure Wrote (s : State S) (a : Bool) (store : S) (stamp : Int) : Prop where
  valid : (pair.ledger a).Valid store
  stamped : ∀ version ∈ pair.versions a store, 0 ≤ version.createdAt
  keeps : ∀ version ∈ pair.versions a (s.store a), Settled (pair.versions a store) version
  reached : ∀ version ∈ pair.versions a store,
    version ∈ pair.versions a (s.store a) ∨ Reached pair s a stamp version

/-- The stamp a device advertises to the other from. -/
def advertisedFrom (s : State S) (a : Bool) : Int :=
  ((s.cursors a).get !a).advertiseFrom ((s.cursors !a).get a).sinceMs

/-- A restore that loses nothing for good: what the backup brings back is reached, and the
other device holds nothing above the backup below the stamp it advertises from. -/
structure Recoverable (s : State S) (a : Bool) (store : S) (started : Int) : Prop where
  reached : ∀ version ∈ pair.versions a store,
    Reached pair s a (restoredFloor (pair.versions a store) started) version
  unread : ∀ version ∈ pair.versions (!a) (s.store !a),
    Settled (pair.versions a store) version ∨ advertisedFrom s (!a) ≤ summaryKey version

/-- What each act has to be, restores apart. -/
def Proper (s : State S) : Act S → Prop
  | .write a store stamp => Wrote pair s a store stamp
  | .sync i now nowBack => ∀ side back,
      Relay.talk pair.setting s.devices i (!i) now nowBack = .ok (side, back) →
        Merged pair i (s.store i) side ∧ Merged pair (!i) (s.store !i) back
  | .backup _ => True
  | .restore a store _ => store ∈ s.backups a

def Allowed (s : State S) (act : Act S) : Prop :=
  Proper pair s act ∧ ∀ a store started, act = .restore a store started →
    Recoverable pair s a store started

/-- What holds of both devices: a version the other lacks is still advertised. -/
structure Inv (s : State S) : Prop where
  valid : ∀ a, (pair.ledger a).Valid (s.store a)
  stamped : ∀ a, ∀ version ∈ pair.versions a (s.store a), 0 ≤ version.createdAt
  kept : ∀ a, ∀ store ∈ s.backups a, (pair.ledger a).Valid store ∧
    ∀ version ∈ pair.versions a store, 0 ≤ version.createdAt
  told : ∀ a, ∀ version ∈ pair.versions a (s.store a),
    Settled (pair.versions (!a) (s.store !a)) version ∨ advertisedFrom s a ≤ summaryKey version

variable {pair}

variable {others advertised : List ItemSummary} {version : ItemSummary} {s s' : State S}
  {a i : Bool} {theirs : History S} {reader peer : Party S} {served : S} {base : SummaryWorkspace}
  {side back : Side S} {now nowBack : Int}

theorem Settled.trans {versions : List ItemSummary} (h : Settled versions version)
    (hall : ∀ own ∈ versions, Settled others own) : Settled others version := by
  obtain ⟨own, hown, hid, hle⟩ := h
  obtain ⟨other, hother, hid', hle'⟩ := hall own hown
  exact ⟨other, hother, hid'.trans hid, hle.trans hle'⟩

theorem Settled.of_le {versions : List ItemSummary} {lower : ItemSummary}
    (h : Settled versions version) (hid : version.itemId = lower.itemId)
    (hle : lower.key ≤ version.key) : Settled versions lower := by
  obtain ⟨own, hown, hid', hle'⟩ := h
  exact ⟨own, hown, hid'.trans hid, hle.trans hle'⟩

theorem settled_self {versions : List ItemSummary} (h : version ∈ versions) :
    Settled versions version :=
  ⟨version, h, rfl, le_rfl⟩

theorem inv_start (h : (machine pair).start s) : Inv pair s := by
  refine ⟨fun a => (h a).1, fun a => (h a).2.1, fun a store hstore => ?_, fun a version hmem => ?_⟩
  · rw [(h a).2.2.2] at hstore
    exact absurd hstore List.not_mem_nil
  · have hkey := Relay.summaryKey_nonneg ((h a).2.1 version hmem)
    refine Or.inr ((advertiseFrom_le_iff _ _ _).2 ⟨hkey, Or.inl ?_⟩)
    rw [(h !a).2.2.1]
    exact hkey

section Placed

variable (s : State S) (a : Bool) (store : S) (stamp : Int)

theorem store_place : (s.place a store stamp).store a = store := by
  simp [State.place, State.store]

theorem store_place_other : (s.place a store stamp).store (!a) = s.store !a := by
  simp [State.place, State.store]

theorem cursors_place : (s.place a store stamp).cursors a = (s.cursors a).noteLocal stamp := by
  simp [State.place, State.cursors]

theorem cursors_place_other : (s.place a store stamp).cursors (!a) = s.cursors !a := by
  simp [State.place, State.cursors]

/-- Noting a stamp leaves where the other device advertises from. -/
theorem advertisedFrom_place_other :
    advertisedFrom (s.place a store stamp) (!a) = advertisedFrom s !a := by
  unfold advertisedFrom
  rw [Bool.not_not, cursors_place, cursors_place_other]
  rw [show ((s.cursors a).noteLocal stamp).get (!a) = ((s.cursors a).noteWritten none stamp).get (!a)
    from rfl, CursorStore.sinceMs_noteWritten]

end Placed

/-- A device takes another store and notes a stamp. -/
theorem inv_place (hinv : Inv pair s) {store : S} {stamp : Int}
    (hvalid : (pair.ledger a).Valid store)
    (hstamped : ∀ version ∈ pair.versions a store, 0 ≤ version.createdAt)
    (hmine : ∀ version ∈ pair.versions a store,
      version ∈ pair.versions a (s.store a) ∨ Reached pair s a stamp version)
    (htheirs : ∀ version ∈ pair.versions (!a) (s.store !a),
      Settled (pair.versions a store) version ∨ advertisedFrom s (!a) ≤ summaryKey version) :
    Inv pair (s.place a store stamp) := by
  have hcases : ∀ b, b = a ∨ b = !a := by cases a <;> simp
  refine ⟨fun b => ?_, fun b => ?_, hinv.kept, fun b version hmem => ?_⟩
  · rcases hcases b with rfl | rfl
    · rw [store_place]
      exact hvalid
    · rw [store_place_other]
      exact hinv.valid _
  · rcases hcases b with rfl | rfl
    · rw [store_place]
      exact hstamped
    · rw [store_place_other]
      exact hinv.stamped _
  · rcases hcases b with rfl | rfl
    · rw [store_place] at hmem
      rw [store_place_other]
      have hkey := Relay.summaryKey_nonneg (hstamped version hmem)
      have hadvertised : advertisedFrom (s.place b store stamp) b =
          (((s.cursors b).noteWritten none stamp).get !b).advertiseFrom
            ((s.cursors !b).get b).sinceMs := by
        unfold advertisedFrom
        rw [cursors_place, cursors_place_other]
        rfl
      rw [hadvertised]
      rcases hmine version hmem with hold | hsettled | hreach
      · exact (hinv.told b version hold).imp_right
          (advertiseFrom_noteWritten_le _ _ _ _ _).trans
      · exact Or.inl hsettled
      · exact Or.inr (Relay.advertiseFrom_noted (by simp) hkey hreach)
    · rw [store_place_other] at hmem
      rw [advertisedFrom_place_other, Bool.not_not, store_place]
      exact htheirs version hmem

/-- What a side was shown is settled by its merges, or left. -/
theorem shown_settled (hsource : reader.source = (pair.ledger a).toSyncSource)
    (h : Reads pair.host theirs reader peer served base advertised side)
    (hmerged : Merged pair a reader.store side) (hshown : version ∈ base.remote) :
    Settled (pair.versions a side.store) version ∨
      side.workspace.unresolved side.wanted side.attempted version.itemId = true := by
  rcases h.planned.considered.placed version hshown with ⟨-, hdeferred⟩ | hloses | hstood
  · right
    unfold SummaryWorkspace.unresolved
    rw [decide_eq_true hdeferred, Bool.true_or]
  · -- The device holds a version of the id that ranks as high.
    left
    unfold SummaryWorkspace.remoteWins at hloses
    cases hfound : lookup ItemSummary.itemId base.comparison version.itemId with
    | none =>
      rw [hfound] at hloses
      exact absurd hloses (by simp)
    | some own =>
      rw [hfound, Option.all_some] at hloses
      obtain ⟨hmem, hid⟩ := lookup_eq_some hfound
      obtain ⟨ids, hlocal⟩ := h.own own hmem
      rw [hsource] at hlocal
      have hheld := (pair.ledger a).local_mem _ _ _ hlocal
      have hle : version.key ≤ own.key := by
        unfold remoteVersionWins at hloses
        rw [Bool.or_eq_false_iff, decide_eq_false_iff_not,
          mergeDecisionBySummary_takeRemote_iff, not_lt] at hloses
        exact hloses.1
      exact (hmerged.keeps own hheld).of_le hid hle
  · obtain ⟨item, hitem, hid, hle⟩ := hstood
    rcases h.planned.deferred item hitem with hselected | hdeferred
    · by_cases hattempted : item.itemId ∈ side.attempted
      · exact Or.inl ((hmerged.takes item hselected hattempted).of_le hid hle)
      · right
        unfold SummaryWorkspace.unresolved
        rw [← hid]
        have hasked : item.itemId ∈ side.wanted.map ItemSummary.itemId :=
          List.mem_map_of_mem hselected
        simp [hasked, hattempted]
    · right
      unfold SummaryWorkspace.unresolved
      rw [← hid, decide_eq_true hdeferred, Bool.true_or]

/-- What was left stays at or above the cursor. -/
theorem left_le (h : Reads pair.host theirs reader peer served base advertised side)
    (hshown : version ∈ base.remote)
    (hleft : side.workspace.unresolved side.wanted side.attempted version.itemId = true) :
    side.sinceMs ≤ summaryKey version := by
  rw [h.mark]
  exact watermark_le _ (h.same ▸ hshown) hleft

/-- What one side holds after a session: the other has it, or has been left to see it. -/
theorem told_closed {s : State S} (hinv : Inv pair s) {a : Bool} {reader peer : Party S}
    {served : S} {base : SummaryWorkspace} {advertised : List ItemSummary} {side back : Side S}
    (hsource : reader.source = (pair.ledger !a).toSyncSource)
    (hreader : reader.store = s.store !a) (hpeer : peer.store = s.store a)
    (hadvertise : peer.cursor.advertiseFrom reader.cursor.sinceMs = advertisedFrom s a)
    (h : Reads pair.host (pair.ledger a).toHistory reader peer served base advertised back)
    (hmerged : Merged pair a (s.store a) side) (hmergedBack : Merged pair (!a) (s.store !a) back)
    (hasked : ∀ item ∈ side.wanted, item ∈ pair.versions (!a) (s.store !a)) {version : ItemSummary}
    (hmem : version ∈ pair.versions a side.store) :
    Settled (pair.versions (!a) back.store) version ∨ back.sinceMs ≤ summaryKey version := by
  rw [← hreader] at hmergedBack
  rcases hmerged.brings version hmem with ⟨own, hown, hid, hle, hkey⟩ | ⟨item, hitem, -, hid, hle⟩
  · rcases hinv.told a own hown with hsettled | hseen
    · rw [← hreader] at hsettled
      exact Or.inl ((hsettled.trans hmergedBack.keeps).of_le hid hle)
    · have hshown : own ∈ base.remote := by
        apply h.shown own
        · rw [hpeer]
          exact hown
        · exact hinv.stamped a own hown
        · rw [hadvertise]
          exact hseen
      rcases shown_settled hsource h hmergedBack hshown with hsettled | hleft
      · exact Or.inl (hsettled.of_le hid hle)
      · exact Or.inr ((left_le h hshown hleft).trans hkey)
  · rw [hreader] at hmergedBack
    exact Or.inl ((hmergedBack.keeps item (hasked item hitem)).of_le hid hle)

/-- A completed session from both sides. -/
theorem talk_reads (hvalid : ∀ a, (pair.ledger a).Valid (s.store a))
    (hok : Relay.talk pair.setting s.devices i (!i) now nowBack = .ok (side, back)) :
    (∃ base advertised, Reads pair.host (pair.ledger !i).toHistory
      (Relay.party pair.setting s.devices i (!i) now)
      (Relay.party pair.setting s.devices (!i) i nowBack) (s.store !i) base advertised side) ∧
    ∃ base advertised, Reads pair.host (pair.ledger i).toHistory
      (Relay.party pair.setting s.devices (!i) i nowBack)
      (Relay.party pair.setting s.devices i (!i) now) side.store base advertised back :=
  session_reads pair.host (pair.ledger i).toHistory (pair.ledger !i).toHistory rfl rfl
    (pair.perm i) (pair.perm !i) (hvalid i) (hvalid !i) hok

theorem valid_reads (hsource : reader.source = (pair.ledger a).toSyncSource)
    (h : Reads pair.host theirs reader peer served base advertised side)
    (hvalid : (pair.ledger a).Valid reader.store) : (pair.ledger a).Valid side.store := by
  obtain ⟨stats, stats', received, hreceived, hstore, -⟩ := h.took
  rw [hstore]
  rw [hsource] at hreceived
  exact receiveItems_keeps pair.host (pair.ledger a).valid_applyBatch hvalid hreceived

/-- What the merges leave was stamped since the epoch where what they got was. -/
theorem stamped_merged {before : S} (h : Merged pair a before side)
    (hvalid : (pair.ledger a).Valid side.store)
    (hbefore : ∀ version ∈ pair.versions a before, 0 ≤ version.createdAt)
    (hothers : ∀ version ∈ others, 0 ≤ version.createdAt)
    (hasked : ∀ item ∈ side.wanted, item ∈ others) :
    ∀ version ∈ pair.versions a side.store, 0 ≤ version.createdAt := by
  intro version hmem
  -- What is kept or applied ranks no higher than the version that stands for it.
  have hstamp : ∀ source : ItemSummary, 0 ≤ source.createdAt → source.itemId = version.itemId →
      version.key ≤ source.key → Settled (pair.versions a side.store) source →
      0 ≤ version.createdAt := by
    intro source hsource hid hle hsettled
    obtain ⟨own, hown, hid', hle'⟩ := hsettled
    have hsame : own = version := List.inj_on_of_nodup_map ((pair.ledger a).unique _ hvalid) hown
      hmem (hid'.trans hid)
    rw [hsame] at hle'
    have hkey := (versionKey_inj.1 (le_antisymm hle hle')).1
    omega
  rcases h.brings version hmem with ⟨own, hown, hid, hle, -⟩ | ⟨item, hitem, happlied, hid, hle⟩
  · exact hstamp own (hbefore own hown) hid hle (h.keeps own hown)
  · exact hstamp item (hothers item (hasked item hitem)) hid hle (h.takes item hitem happlied)

/-- What a side asks for is what the other holds. -/
theorem asked_stored {host : Host} (h : Reads host theirs reader peer served base advertised side) :
    ∀ item ∈ side.wanted, item ∈ theirs.versions peer.store := fun item hitem =>
  h.remote item (h.planned.considered.wanted item (h.planned.chosen item hitem)).1

/-- Where a device advertises from after a session: where the other has moved its cursor. -/
theorem advertisedFrom_closed {s s' : State S} {a : Bool} {side back : Side S}
    (hmine : s'.cursors a = (s.cursors a).recordCursor (!a) side.sinceMs side.appliedFloor)
    (htheirs : s'.cursors (!a) = (s.cursors !a).recordCursor a back.sinceMs back.appliedFloor) :
    advertisedFrom s' a = max back.sinceMs 0 := by
  unfold advertisedFrom
  rw [hmine, htheirs]
  unfold CursorStore.recordCursor
  rw [CursorStore.get_recordSession, CursorStore.get_recordSession]
  unfold SyncCursor.advertiseFrom
  simp

/-- What both devices hold after a session. -/
theorem inv_closed (hinv : Inv pair s)
    (hsynced : Relay.Synced pair.setting s.devices s'.devices i (!i) side back)
    (hbackups : s'.backups = s.backups) (hmerged : Merged pair i (s.store i) side)
    (hmergedBack : Merged pair (!i) (s.store !i) back) {base' : SummaryWorkspace}
    {advertised' : List ItemSummary} (hreads : Reads pair.host (pair.ledger !i).toHistory
      (Relay.party pair.setting s.devices i (!i) now)
      (Relay.party pair.setting s.devices (!i) i nowBack) (s.store !i) base advertised side)
    (hreadsBack : Reads pair.host (pair.ledger i).toHistory
      (Relay.party pair.setting s.devices (!i) i nowBack)
      (Relay.party pair.setting s.devices i (!i) now) side.store base' advertised' back) :
    Inv pair s' := by
  have hcases : ∀ b, b = i ∨ b = !i := by cases i <;> simp
  have hstore : s'.store i = side.store := by
    unfold State.store
    rw [hsynced.initiator]
    rfl
  have hstoreBack : s'.store (!i) = back.store := by
    unfold State.store
    rw [hsynced.responder]
    rfl
  have hcursors : s'.cursors i =
      (s.cursors i).recordCursor (!i) side.sinceMs side.appliedFloor := by
    unfold State.cursors
    rw [hsynced.initiator]
    rfl
  have hcursorsBack : s'.cursors (!i) =
      (s.cursors !i).recordCursor i back.sinceMs back.appliedFloor := by
    unfold State.cursors
    rw [hsynced.responder]
    rfl
  have hasked := asked_stored hreads
  have haskedBack := asked_stored hreadsBack
  have hvalid : (pair.ledger i).Valid side.store := valid_reads rfl hreads (hinv.valid i)
  have hvalidBack : (pair.ledger !i).Valid back.store := valid_reads rfl hreadsBack (hinv.valid !i)
  have hstamped : ∀ version ∈ pair.versions i side.store, 0 ≤ version.createdAt :=
    stamped_merged hmerged hvalid (hinv.stamped i) (hinv.stamped !i) hasked
  have hstampedBack : ∀ version ∈ pair.versions (!i) back.store, 0 ≤ version.createdAt :=
    stamped_merged hmergedBack hvalidBack (hinv.stamped !i) (hinv.stamped i) haskedBack
  refine ⟨fun b => ?_, fun b => ?_, ?_, fun b version hmem => ?_⟩
  · rcases hcases b with rfl | rfl
    · exact hstore ▸ hvalid
    · exact hstoreBack ▸ hvalidBack
  · rcases hcases b with rfl | rfl
    · exact hstore ▸ hstamped
    · exact hstoreBack ▸ hstampedBack
  · rw [hbackups]
    exact hinv.kept
  · rcases hcases b with rfl | rfl
    · rw [hstore] at hmem
      rw [hstoreBack, advertisedFrom_closed hcursors hcursorsBack]
      have hkey := Relay.summaryKey_nonneg (hstamped version hmem)
      exact (told_closed hinv (by rfl) (by rfl) (by rfl) (by rfl) hreadsBack hmerged hmergedBack
        hasked hmem).imp_right fun hle => max_le hle hkey
    · rw [hstoreBack] at hmem
      rw [Bool.not_not, hstore]
      have hadvertised : advertisedFrom s' (!i) = max side.sinceMs 0 := by
        apply @advertisedFrom_closed S s s' (!i) back side
        · rw [Bool.not_not]
          exact hcursorsBack
        · rw [Bool.not_not]
          exact hcursors
      rw [hadvertised]
      have hkey := Relay.summaryKey_nonneg (hstampedBack version hmem)
      have htold := @told_closed S pair s hinv (!i)
      unfold advertisedFrom at htold
      rw [Bool.not_not] at htold
      exact (htold (by rfl) (by rfl) (by rfl) (by rfl) hreads hmergedBack hmerged haskedBack
        hmem).imp_right fun hle => max_le hle hkey

/-- Both sides of a session keep the invariant. -/
theorem inv_sync (hinv : Inv pair s) (hproper : Proper pair s (.sync i now nowBack))
    (hstep : step pair s (.sync i now nowBack) = some s') : Inv pair s' := by
  unfold step Relay.step at hstep
  dsimp only at hstep
  rw [if_neg (by simp)] at hstep
  cases htalk : Relay.talk pair.setting s.devices i (!i) now nowBack with
  | error e => simp [htalk] at hstep
  | ok sides =>
    obtain ⟨side, back⟩ := sides
    obtain ⟨hmerged, hmergedBack⟩ := hproper side back htalk
    obtain ⟨⟨base, advertised, hreads⟩, base', advertised', hreadsBack⟩ :=
      talk_reads hinv.valid htalk
    rw [htalk] at hstep
    obtain rfl := Option.some.inj hstep
    have hsynced := @Relay.synced_step Bool S _ pair.setting s.devices i (!i) (by simp) side back
    exact inv_closed hinv hsynced rfl hmerged hmergedBack hreads hreadsBack

/-- The step lemma. -/
theorem inv_step {act : Act S} (hinv : Inv pair s) (hallowed : Allowed pair s act)
    (hstep : step pair s act = some s') : Inv pair s' := by
  obtain ⟨hproper, hrestore⟩ := hallowed
  cases act with
  | write a store stamp =>
    obtain rfl := Option.some.inj hstep
    have hwrote : Wrote pair s a store stamp := hproper
    apply inv_place hinv hwrote.valid hwrote.stamped hwrote.reached
    intro version hmem
    have htold := hinv.told (!a) version hmem
    rw [Bool.not_not] at htold
    exact htold.imp_left fun h => h.trans hwrote.keeps
  | sync i now nowBack => exact inv_sync hinv hproper hstep
  | backup a =>
    obtain rfl := Option.some.inj hstep
    refine ⟨hinv.valid, hinv.stamped, fun b store hstore => ?_, hinv.told⟩
    by_cases hb : b = a
    · subst hb
      simp only [Function.update_self, List.mem_cons] at hstore
      rcases hstore with rfl | hold
      · exact ⟨hinv.valid b, hinv.stamped b⟩
      · exact hinv.kept b store hold
    · simp only [Function.update_of_ne hb] at hstore
      exact hinv.kept b store hstore
  | restore a store started =>
    obtain rfl := Option.some.inj hstep
    obtain ⟨hvalid, hstamped⟩ := hinv.kept a store hproper
    have hrecover := hrestore a store started rfl
    exact inv_place hinv hvalid hstamped (fun version hmem => Or.inr (hrecover.reached version hmem))
      hrecover.unread

/-- A side that left nothing it was shown. -/
def Full (side : Side S) : Prop :=
  ∀ row ∈ side.workspace.remote,
    side.workspace.unresolved side.wanted side.attempted row.itemId = false

/-- The same stamp, flag and content under every id. -/
def Agree (versions others : List ItemSummary) : Prop :=
  ∀ version ∈ versions, ∃ own ∈ others, own.itemId = version.itemId ∧
    own.createdAt = version.createdAt ∧ own.deleted = version.deleted ∧
      own.contentHash = version.contentHash

/-- A full session that changes nothing settles what a device holds at the other. -/
theorem settled_of_quiet {s : State S} (hinv : Inv pair s) {a : Bool} {reader peer : Party S}
    {served : S} {base : SummaryWorkspace} {advertised : List ItemSummary} {side : Side S}
    (hsource : reader.source = (pair.ledger !a).toSyncSource)
    (hreader : reader.store = s.store !a) (hpeer : peer.store = s.store a)
    (hadvertise : peer.cursor.advertiseFrom reader.cursor.sinceMs = advertisedFrom s a)
    (h : Reads pair.host (pair.ledger a).toHistory reader peer served base advertised side)
    (hmerged : Merged pair (!a) (s.store !a) side) (hfull : Full side)
    (hquiet : side.store = s.store !a) {version : ItemSummary}
    (hmem : version ∈ pair.versions a (s.store a)) :
    Settled (pair.versions (!a) (s.store !a)) version := by
  rw [← hreader] at hmerged
  rcases hinv.told a version hmem with hsettled | hseen
  · exact hsettled
  · have hshown : version ∈ base.remote := by
      apply h.shown version
      · rw [hpeer]
        exact hmem
      · exact hinv.stamped a version hmem
      · rw [hadvertise]
        exact hseen
    rcases shown_settled hsource h hmerged hshown with hsettled | hleft
    · rw [hquiet] at hsettled
      exact hsettled
    · rw [hfull version (h.same ▸ hshown)] at hleft
      exact absurd hleft (by simp)

/-- Histories that settle each other agree. -/
theorem agree_of_settled {versions : List ItemSummary}
    (hunique : (versions.map ItemSummary.itemId).Nodup)
    (h : ∀ version ∈ versions, Settled others version)
    (hback : ∀ version ∈ others, Settled versions version) : Agree versions others := by
  intro version hmem
  obtain ⟨own, hown, hid, hle⟩ := h version hmem
  obtain ⟨again, hagain, hid', hle'⟩ := hback own hown
  have hsame : again = version :=
    List.inj_on_of_nodup_map hunique hagain hmem (hid'.trans hid)
  rw [hsame] at hle'
  obtain ⟨hstamp, hhash, hdeleted, -⟩ := versionKey_inj.1 (le_antisymm hle' hle)
  exact ⟨own, hown, hid, hstamp, hdeleted, hhash⟩

/-- So a full session that changes nothing finds both devices with the same versions. -/
theorem agree_of_quiet (hinv : Inv pair s)
    (htalk : Relay.talk pair.setting s.devices i (!i) now nowBack = .ok (side, back))
    (hproper : Proper pair s (.sync i now nowBack)) (hfull : Full side) (hfullBack : Full back)
    (hquiet : side.store = s.store i) (hquietBack : back.store = s.store !i) (a : Bool) :
    Agree (pair.versions a (s.store a)) (pair.versions (!a) (s.store !a)) := by
  obtain ⟨hmerged, hmergedBack⟩ := hproper side back htalk
  obtain ⟨⟨base, advertised, hreads⟩, base', advertised', hreadsBack⟩ :=
    talk_reads hinv.valid htalk
  have hthere : ∀ version ∈ pair.versions i (s.store i),
      Settled (pair.versions (!i) (s.store !i)) version := fun version hmem =>
    settled_of_quiet hinv (by rfl) (by rfl) (by rfl) (by rfl) hreadsBack hmergedBack hfullBack
      hquietBack hmem
  have hhere : ∀ version ∈ pair.versions (!i) (s.store !i),
      Settled (pair.versions i (s.store i)) version := by
    intro version hmem
    have hsettled := @settled_of_quiet S pair s hinv (!i)
    unfold advertisedFrom at hsettled
    rw [Bool.not_not] at hsettled
    exact hsettled (by rfl) (by rfl) (by rfl) (by rfl) hreads hmerged hfull hquiet hmem
  have hunique : ∀ a, ((pair.versions a (s.store a)).map ItemSummary.itemId).Nodup := fun a =>
    (pair.ledger a).unique _ (hinv.valid a)
  have hcases : a = i ∨ a = !i := by cases a <;> cases i <;> simp
  rcases hcases with rfl | rfl
  · exact agree_of_settled (hunique _) hthere hhere
  · rw [Bool.not_not]
    exact agree_of_settled (hunique _) hhere hthere

section Stores

open Merge.Storage Merge.Prepare Merge.Effects Merge.Independence Merge.Absorb StoreSource Uptake

/-- A device's store is a ledger. -/
def storeLedger (device : Device) : Ledger Store where
  toHistory := storeHistory device
  local_mem := by
    intro store ids own hown
    obtain ⟨version, hversion, rfl⟩ := List.mem_map.1 hown
    rcases mem_foldl_put hversion with hempty | hstored
    · exact absurd hempty List.not_mem_nil
    · exact List.mem_map_of_mem (List.mem_of_mem_filter hstored)

/-- Two devices that hash alike, over stores. -/
structure Duo where
  host : Host
  device : Bool → Device
  hash : ∀ a, (device a).host.sha256 = host.sha256
  renders : ∀ a, RendersChoices (device a).host
  arrange : Bool → List ItemSummary → List ItemSummary
  perm : ∀ a rows, (arrange a rows).Perm rows

def Duo.paired (duo : Duo) : Pair Store where
  host := duo.host
  ledger := fun a => storeLedger (duo.device a)
  arrange := duo.arrange
  perm := duo.perm

theorem versionSummary_of_mem {store : Store} (hwf : WellFormed store) {version : Version}
    (hmem : version ∈ store.allVersions) : store.versionSummary version.id = some version :=
  lookup_of_mem (nodup_allVersions hwf) hmem

/-- A version is settled where its id ranks as high. -/
theorem settled_iff {device : Device} {store : Store} (hwf : WellFormed store)
    (version : ItemSummary) : Settled (versions device store) version ↔
      (version.key : WithBot VersionKey) ≤ rank device.host store version.itemId := by
  unfold rank
  constructor
  · rintro ⟨own, hown, hid, hle⟩
    obtain ⟨held, hheld, rfl⟩ := List.mem_map.1 hown
    have hsummary := versionSummary_of_mem hwf hheld
    rw [show held.id = version.itemId from hid] at hsummary
    rw [hsummary]
    exact WithBot.coe_le_coe.2 hle
  · intro hle
    cases hsummary : store.versionSummary version.itemId with
    | none =>
      rw [hsummary] at hle
      exact absurd hle (by simp)
    | some held =>
      rw [hsummary] at hle
      obtain ⟨hmem, hid⟩ := lookup_eq_some hsummary
      exact ⟨_, List.mem_map_of_mem hmem, hid, WithBot.coe_le_coe.1 hle⟩

/-- A store that has risen to the greatest of what it held and was brought. -/
theorem merged_of_absorbed {duo : Duo} {a : Bool} {start before : Store} {side : Side Store}
    {within : List RemoteVersion} {items : List SyncItem} (hbefore : WellFormed before)
    (habsorbed : Absorbed (duo.device a).host start within (items.map remoteVersion) before
      side.store)
    (hitems : ∀ item ∈ items, item.summary ∈ side.wanted ∧
      RemoteVersion.key (duo.device a).host (remoteVersion item) = item.summary.key)
    (happlied : ∀ id, id ∈ side.attempted ↔ id ∈ items.map SyncItem.itemId)
    (hdistinct : (side.wanted.map ItemSummary.itemId).Nodup) :
    Merged duo.paired a before side := by
  have hafter := habsorbed.delivering.wellFormed
  have hversions : ∀ store, duo.paired.versions a store = versions (duo.device a) store :=
    fun _ => rfl
  have hbest : ∀ item ∈ items, (item.summary.key : WithBot VersionKey) ≤
      best (duo.device a).host (items.map remoteVersion) item.itemId := by
    intro item hitem
    rw [← (hitems item hitem).2]
    apply List.le_maximum_of_mem'
    apply List.mem_map_of_mem
    exact List.mem_filter.2 ⟨List.mem_map_of_mem hitem, by simp [remoteVersion]⟩
  refine ⟨fun version hmem => ?_, fun item hwanted hattempted => ?_, fun version hmem => ?_⟩
  · rw [hversions, settled_iff hafter, habsorbed.ranks]
    apply le_max_of_le_left
    rw [← settled_iff hbefore]
    exact settled_self hmem
  · obtain ⟨taken, htaken, hid⟩ := List.mem_map.1 ((happlied _).1 hattempted)
    have hsame : taken.summary = item :=
      List.inj_on_of_nodup_map hdistinct (hitems taken htaken).1 hwanted hid
    rw [hversions, settled_iff hafter, habsorbed.ranks, ← hsame]
    exact le_max_of_le_right (hbest taken htaken)
  · obtain ⟨held, hheld, rfl⟩ := List.mem_map.1 hmem
    have hsummary := versionSummary_of_mem hafter hheld
    have hrank : rank (duo.device a).host side.store held.id =
        (Version.key (duo.device a).host held : WithBot VersionKey) := by
      unfold rank
      rw [hsummary]
    have hmax := habsorbed.ranks held.id
    rw [hrank] at hmax
    rcases le_total (rank (duo.device a).host before held.id)
        (best (duo.device a).host (items.map remoteVersion) held.id) with hle | hle
    · -- What was brought reaches as high.
      right
      rw [max_eq_right hle] at hmax
      have hkey := List.maximum_mem hmax.symm
      obtain ⟨brought, hbrought, hkeyEq⟩ := List.mem_map.1 hkey
      obtain ⟨hmemBrought, hid⟩ := List.mem_filter.1 hbrought
      obtain ⟨item, hitem, rfl⟩ := List.mem_map.1 hmemBrought
      have hitemId : item.itemId = held.id := of_decide_eq_true hid
      refine ⟨item.summary, (hitems item hitem).1, ?_, hitemId, ?_⟩
      · rw [happlied]
        exact List.mem_map_of_mem hitem
      · rw [← (hitems item hitem).2, hkeyEq]
        exact le_rfl
    · left
      rw [max_eq_left hle] at hmax
      unfold rank at hmax
      cases hold : before.versionSummary held.id with
      | none =>
        rw [hold] at hmax
        exact absurd hmax (by simp)
      | some old =>
        rw [hold] at hmax
        obtain ⟨holdMem, holdId⟩ := lookup_eq_some hold
        have hkey := WithBot.coe_inj.1 hmax
        refine ⟨storedSummary (duo.device a).host old, List.mem_map_of_mem holdMem, holdId, ?_, ?_⟩
        · exact hkey.le
        · have hrisen := habsorbed.risen held.id
          unfold standing at hrisen
          rw [hold, hsummary] at hrisen
          have hpair := Prod.Lex.toLex_le_toLex.1 (WithBot.coe_le_coe.1 hrisen)
          have hpin : old.pinUpdatedAt ≤ held.pinUpdatedAt := by
            rcases hpair with hlt | ⟨-, hle⟩
            · exact absurd (hkey ▸ hlt) (lt_irrefl _)
            · exact hle
          have hstamp := (versionKey_inj.1 hkey).1
          show max old.createdAt old.pinUpdatedAt ≤ max held.createdAt held.pinUpdatedAt
          omega

variable (duo : Duo)

/-- What an act is: a write of the device's own, a session over items that no store is upset
by, a backup, and a restore of a backup the device has taken. -/
def Sound (s : State Store) : Act Store → Prop
  | .write a store stamp => Wrote duo.paired s a store stamp
  | .sync i now nowBack => ∀ side back,
      Relay.talk duo.paired.setting s.devices i (!i) now nowBack = .ok (side, back) →
        Clean (duo.device i) (s.store i) (offers (duo.device !i) (s.store !i)) ∧
        Clean (duo.device !i) (s.store !i) (offers (duo.device i) side.store)
  | .backup _ => True
  | .restore a store _ => store ∈ s.backups a

/-- And a restore after which neither device holds something the other lacks below the stamp
it advertises from. -/
def Recovering (s : State Store) (act : Act Store) : Prop :=
  Sound duo s act ∧ ∀ a store started, act = .restore a store started →
    Recoverable duo.paired s a store started

/-- A completed session that leaves nothing and changes neither store nor cursors. -/
structure Unchanged (s : State Store) (i : Bool) (sides : Side Store × Side Store) : Prop where
  full : Full sides.1
  fullBack : Full sides.2
  store : sides.1.store = s.store i
  storeBack : sides.2.store = s.store !i
  cursors : ∀ b, (s.cursors i).recordCursor (!i) sides.1.sinceMs sides.1.appliedFloor b =
    s.cursors i b
  cursorsBack : ∀ b, (s.cursors !i).recordCursor i sides.2.sinceMs sides.2.appliedFloor b =
    s.cursors (!i) b

/-- The next session started by a device changes nothing. -/
def Quiet (s : State Store) (i : Bool) : Prop :=
  ∃ now nowBack sides, Relay.talk duo.paired.setting s.devices i (!i) now nowBack = .ok sides ∧
    Unchanged s i sides

variable {duo}

theorem proper_of_sound {s : State Store} (hvalid : ∀ a, WellFormed (s.store a)) {act : Act Store}
    (h : Sound duo s act) : Proper duo.paired s act := by
  cases act with
  | write a store stamp => exact h
  | backup a => trivial
  | restore a store started => exact h
  | sync i now nowBack =>
    intro side back htalk
    obtain ⟨hclean, hcleanBack⟩ := h side back htalk
    obtain ⟨⟨base, advertised, hreads⟩, base', advertised', hreadsBack⟩ := talk_reads hvalid htalk
    obtain ⟨items, habsorbed, hitems, happlied⟩ := side_absorbed (duo.renders i) (duo.hash i)
      rfl rfl (hvalid i) hclean hreads
    obtain ⟨itemsBack, habsorbedBack, hitemsBack, happliedBack⟩ := side_absorbed
      (duo.renders !i) (duo.hash !i) rfl rfl (hvalid !i) hcleanBack hreadsBack
    exact ⟨merged_of_absorbed (hvalid i) habsorbed hitems happlied hreads.planned.distinct,
      merged_of_absorbed (hvalid !i) habsorbedBack hitemsBack happliedBack
        hreadsBack.planned.distinct⟩

/-- The run lemma. -/
theorem inv_recovering {s : State Store}
    (h : Reaches (machine duo.paired) (Recovering duo) s) : Inv duo.paired s := by
  have hkept : ∀ s s' act, Inv duo.paired s → Recovering duo s act →
      (machine duo.paired).step s act = some s' → Inv duo.paired s' := by
    intro s s' act hinv hallowed hstep
    exact inv_step hinv ⟨proper_of_sound hinv.valid hallowed.1, hallowed.2⟩ hstep
  exact h.invariant (fun _ hs => inv_start hs) hkept

/-- After restores that strand nothing, a full session that changes neither store finds the
two devices with the same version of every id. -/
theorem restored_devices_agree (duo : Duo) {s : State Store}
    (hreach : Reaches (machine duo.paired) (Recovering duo) s) {i : Bool} {now nowBack : Int}
    {side back : Side Store}
    (htalk : Relay.talk duo.paired.setting s.devices i (!i) now nowBack = .ok (side, back))
    (hsound : Sound duo s (.sync i now nowBack)) (hfull : Full side) (hfullBack : Full back)
    (hquiet : side.store = s.store i) (hquietBack : back.store = s.store !i) (a : Bool) :
    Agree (versions (duo.device a) (s.store a)) (versions (duo.device !a) (s.store !a)) := by
  have hinv := inv_recovering hreach
  exact agree_of_quiet hinv htalk (proper_of_sound hinv.valid hsound) hfull hfullBack hquiet
    hquietBack a

section Samples

instance (held : List ItemSummary) (version : ItemSummary) : Decidable (Settled held version) := by
  unfold Settled
  infer_instance

/-- The laptop and the phone. -/
private def desk : Duo where
  host := sampleHost
  device := fun a => sampleDevice (if a then "phone" else "laptop")
  hash := fun _ => rfl
  renders := fun _ => sampleHost_renders
  arrange := fun _ => id
  perm := fun _ _ => List.Perm.refl _

private def apartNotes (notes : List ItemRow) : State Store where
  devices := { device := fun a => ⟨{ items := if a then notes else [] }, fun _ => none⟩
               exchanged := fun _ _ => [] }
  backups := fun _ => []

/-- A store and items without metadata and records: what `Clean` asks of those. -/
private def Tidy (device : Device) (store : Store) (items : List SyncItem) : Prop :=
  (∀ row ∈ store.items, row.payloadMetadata = none) ∧ store.pinStates = [] ∧
    (∀ item ∈ items, item.payloadMetadata = none ∧ item.deleted = false ∧
      item.originDeviceId ≠ "" ∧ payloadIsRefused device.host (remoteVersion item) = false ∧
      ((organizationText (remoteVersion item)).any fun text =>
        validWire device.host item.itemId item.contentType text item.deleted) = true ∧
      (remoteVersion item).bytes.length ≤ Merge.Prepare.maxContentBytes) ∧
    CollisionFree device.host store (items.map remoteVersion)

private instance (device : Device) (store : Store) (items : List SyncItem) :
    Decidable (Tidy device store items) := by
  unfold Tidy CollisionFree
  infer_instance

private theorem clean_of_tidy {name : String} {store : Store} {items : List SyncItem}
    (h : Tidy (sampleDevice name) store items) : Clean (sampleDevice name) store items := by
  obtain ⟨hrows, hpins, hitems, hclear⟩ := h
  refine ⟨fun row hrow => ?_, fun item hitem => ?_, hclear, ?_, fun _ => rfl⟩
  · rw [hrows row hrow]
    exact choiceless_none _
  · obtain ⟨hmetadata, hlive, horigin, hshape, hwire, hsize⟩ := hitems item hitem
    refine ⟨hshape, hwire, fun _ => hsize, fun hdeleted => ?_, horigin, ?_⟩
    · rw [show (remoteVersion item).deleted = item.deleted from rfl, hlive] at hdeleted
      exact absurd hdeleted (by simp)
    · rw [show (remoteVersion item).payloadMetadata = item.payloadMetadata from rfl, hmetadata]
      exact choiceless_none _
  · unfold Merge.Repin.PinsRecorded
    rw [hpins]
    exact fun pin hpin => absurd hpin List.not_mem_nil

/-- The same of both sides of a session. -/
private def TidySession (s : State Store) (i : Bool) :
    Except SyncError (Side Store × Side Store) → Prop
  | .error _ => True
  | .ok (side, _) =>
    Tidy (desk.device i) (s.store i) (offers (desk.device !i) (s.store !i)) ∧
      Tidy (desk.device !i) (s.store !i) (offers (desk.device i) side.store)

private instance (s : State Store) (i : Bool) (sides : Except SyncError (Side Store × Side Store)) :
    Decidable (TidySession s i sides) :=
  match sides with
  | .error _ => isTrue trivial
  | .ok (side, _) => inferInstanceAs (Decidable (Tidy (desk.device i) (s.store i)
      (offers (desk.device !i) (s.store !i)) ∧
    Tidy (desk.device !i) (s.store !i) (offers (desk.device i) side.store)))

private def Plain (s : State Store) : Act Store → Prop
  | .write _ _ _ => False
  | .sync i now nowBack =>
    TidySession s i (Relay.talk desk.paired.setting s.devices i (!i) now nowBack)
  | .backup _ => True
  | .restore a store _ => store ∈ s.backups a

private instance (s : State Store) (act : Act Store) : Decidable (Plain s act) := by
  cases act <;> unfold Plain <;> infer_instance

variable {s : State Store}

private theorem sound_of_plain {act : Act Store} (h : Plain s act) : Sound desk s act := by
  cases act with
  | write a store stamp => exact absurd h id
  | backup a => trivial
  | restore a store started => exact h
  | sync i now nowBack =>
    intro side back htalk
    unfold Plain at h
    dsimp only at h
    rw [htalk] at h
    exact ⟨clean_of_tidy h.1, clean_of_tidy h.2⟩

private instance (side : Side Store) : Decidable (Full side) := by
  unfold Full
  infer_instance

private instance (s : State Store) (i : Bool) (sides : Side Store × Side Store) :
    Decidable (Unchanged s i sides) :=
  decidable_of_iff (Full sides.1 ∧ Full sides.2 ∧ sides.1.store = s.store i ∧
    sides.2.store = s.store (!i) ∧
    (∀ b, (s.cursors i).recordCursor (!i) sides.1.sinceMs sides.1.appliedFloor b =
      s.cursors i b) ∧
    ∀ b, (s.cursors !i).recordCursor i sides.2.sinceMs sides.2.appliedFloor b =
      s.cursors (!i) b)
    ⟨fun ⟨h, h₁, h₂, h₃, h₄, h₅⟩ => ⟨h, h₁, h₂, h₃, h₄, h₅⟩,
      fun ⟨h, h₁, h₂, h₃, h₄, h₅⟩ => ⟨h, h₁, h₂, h₃, h₄, h₅⟩⟩

private theorem unchanged_of_any {i : Bool}
    (h : (Relay.talk desk.paired.setting s.devices i (!i) 1000 1000).toOption.any
      (fun sides => decide (Unchanged s i sides)) = true) :
    ∃ sides, Relay.talk desk.paired.setting s.devices i (!i) 1000 1000 = .ok sides ∧
      Unchanged s i sides := by
  cases htalk : Relay.talk desk.paired.setting s.devices i (!i) 1000 1000 with
  | error e =>
    rw [htalk] at h
    exact absurd h (by simp [Except.toOption])
  | ok sides =>
    rw [htalk] at h
    exact ⟨sides, rfl, of_decide_eq_true h⟩

private theorem apartNotes_start {notes : List ItemRow} (hnodup : (notes.map ItemRow.id).Nodup)
    (hids : ∀ row ∈ notes, isRecordId row.id = false ∧ 0 ≤ row.createdAt) :
    (machine desk.paired).start (apartNotes notes) := by
  intro a
  have hrows : ∀ row ∈ (if a then notes else []), isRecordId row.id = false ∧
      0 ≤ row.createdAt := by
    cases a with
    | true => exact hids
    | false => exact fun row hrow => absurd hrow List.not_mem_nil
  refine ⟨wellFormed_items ?_ fun row hrow => (hrows row hrow).1, fun version hmem => ?_, rfl, rfl⟩
  · cases a with
    | true => exact hnodup
    | false => exact List.nodup_nil
  · obtain ⟨held, hheld, rfl⟩ := List.mem_map.1 hmem
    simp only [Store.allVersions, State.store, apartNotes, List.map_nil, List.append_nil,
      List.mem_map] at hheld
    obtain ⟨row, hrow, rfl⟩ := hheld
    exact (hrows row hrow).2

/-- The laptop backs its empty history up, reads the phone, goes back, and both read again. -/
private def roundTrip : List (Act Store) :=
  [.backup false, .sync false 1000 1000, .restore false {} 1000, .sync false 1000 1000,
    .sync true 1000 1000]

private def visited (notes : List ItemRow) : State Store :=
  (run (machine desk.paired) (apartNotes notes) roundTrip).getD (apartNotes [])

private def early : ItemRow := sampleNote "a" 5 "phone"

private def late : ItemRow := sampleNote "b" 9 "phone"

private theorem visited_reaches {allowed : State Store → Act Store → Prop} {notes : List ItemRow}
    (hnodup : (notes.map ItemRow.id).Nodup)
    (hids : ∀ row ∈ notes, isRecordId row.id = false ∧ 0 ≤ row.createdAt)
    (hmeets : Meets (machine desk.paired) allowed (apartNotes notes) roundTrip)
    (hrun : (run (machine desk.paired) (apartNotes notes) roundTrip).isSome) :
    Reaches (machine desk.paired) allowed (visited notes) :=
  (Reaches.start _ (apartNotes_start hnodup hids)).of_run_getD roundTrip hmeets hrun _

/-- What a restore asks for to strand nothing. -/
private def Returns (s : State Store) : Act Store → Prop
  | .restore a store started =>
    (∀ version ∈ desk.paired.versions a store,
      Settled (desk.paired.versions (!a) (s.store !a)) version ∨
        Relay.inReach (s.cursors a !a) ((s.cursors !a).get a).sinceMs
          (some (restoredFloor (desk.paired.versions a store) started))
          (summaryKey version) = true) ∧
    ∀ version ∈ desk.paired.versions (!a) (s.store !a),
      Settled (desk.paired.versions a store) version ∨
        advertisedFrom s (!a) ≤ summaryKey version
  | _ => True

private instance (s : State Store) (act : Act Store) : Decidable (Returns s act) := by
  cases act <;> unfold Returns <;> infer_instance

private theorem recovering_of_returns {act : Act Store} (h : Plain s act ∧ Returns s act) :
    Recovering desk s act := by
  refine ⟨sound_of_plain h.1, ?_⟩
  rintro a store started rfl
  exact ⟨h.2.1, h.2.2⟩

/-- The phone's first note went with the restore, and lies below the laptop's cursor. -/
theorem quiet_devices_differ : ¬ ∀ (duo : Duo) (s : State Store),
    Reaches (machine duo.paired) (Sound duo) s → (∀ i, Quiet duo s i) → ∀ a,
      Agree (versions (duo.device a) (s.store a)) (versions (duo.device !a) (s.store !a)) := by
  intro hall
  have hmeets : Meets (machine desk.paired) Plain (apartNotes [early, late]) roundTrip := by
    decide
  have hreach : Reaches (machine desk.paired) (Sound desk) (visited [early, late]) := by
    apply visited_reaches (by decide) (by decide)
    · exact hmeets.mono fun s act h => sound_of_plain h
    · decide
  have hquiet : ∀ i, Quiet desk (visited [early, late]) i := by
    intro i
    refine ⟨1000, 1000, unchanged_of_any ?_⟩
    cases i <;> decide
  have hagree := hall desk (visited [early, late]) hreach hquiet true
    (storedSummary (desk.device true).host early.toVersion) (by decide)
  exact absurd hagree (by decide)

/-- A note at the cursor itself is shown again. -/
theorem restored_devices_agree_here :
    (visited [early]).store false = { items := [early] } ∧
      Agree (versions (desk.device true) ((visited [early]).store true))
        (versions (desk.device false) ((visited [early]).store false)) := by
  have hmeets : Meets (machine desk.paired) (fun s act => Plain s act ∧ Returns s act)
      (apartNotes [early]) roundTrip := by decide
  have hreach : Reaches (machine desk.paired) (Recovering desk) (visited [early]) := by
    apply visited_reaches (by decide) (by decide)
    · exact hmeets.mono fun s act h => recovering_of_returns h
    · decide
  have hquiet : ∃ sides, Relay.talk desk.paired.setting (visited [early]).devices false true 1000
      1000 = .ok sides ∧ Unchanged (visited [early]) false sides :=
    unchanged_of_any (by decide)
  obtain ⟨⟨side, back⟩, htalk, hsame⟩ := hquiet
  have hplain : Plain (visited [early]) (.sync false 1000 1000) := by decide
  refine ⟨by decide, ?_⟩
  exact restored_devices_agree desk hreach htalk (sound_of_plain hplain) hsame.full hsame.fullBack
    hsame.store hsame.storeBack true

end Samples

end Stores

end CopyPaste.Peer.Rewind
