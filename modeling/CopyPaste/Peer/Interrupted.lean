import CopyPaste.Peer.Lockstep

/-!
How a session ends for the node that runs it. A session stores versions batch by batch,
while the floor that makes the other peers see them again is part of its outcome, and the
outcome reaches the cursors only when the session completes and is committed.
-/

namespace CopyPaste.Peer.Interrupted

open Lib.Duplex Lib.Rows Merge.Comparator Merge.Payload Cursor Plan Transfer Session Roles
open Wire.Messages (SyncMessage)
open Wire.Codec (Libraries checked validateMessage protocolVersion sampleLibraries)
open Lockstep (sampleDevice)

inductive NodeError
  | cancelled
  | timeout
  | selfPairing
  | session (error : SessionError)
  deriving DecidableEq, Repr

/-- How the session function ended: with an outcome or an error, by the clock, or because it
was cancelled from outside. -/
inductive Ending
  | returned (outcome : SyncOutcome)
  | failed (error : SessionError)
  | timedOut
  | cancelled

variable {S κ : Type}

/-- The endings a session can have where it stands. The channel, the source or the scratch
file can give out at any point, and so can time. -/
inductive EndsAt : Proc SyncMessage SessionError (Local S) SyncOutcome → Ending → Prop
  | returned (here : Local S) (outcome : SyncOutcome) :
      EndsAt (.done here outcome) (.returned outcome)
  | failed (p) (error : SessionError) : EndsAt p (.failed error)
  | timedOut (p) : EndsAt p .timedOut
  | cancelled (p) : EndsAt p .cancelled

inductive Role
  | initiator
  | responder
  deriving DecidableEq, Repr

def runRole (libs : Libraries) (device : Device S) : Role → Half S SyncOutcome
  | .initiator => runInitiator libs device
  | .responder => runResponder libs device

variable [DecidableEq κ]

def forget (cursors : CursorStore κ) (pairing : κ) : CursorStore κ :=
  Function.update cursors pairing none

/-- What the node makes of an ending; `committed` is whether the pairing and the cycle still
stand when the outcome is to be recorded. -/
def closeSession (cursors : CursorStore κ) (pairing : κ) (deviceId : String) (committed : Bool) :
    Ending → Except NodeError SyncOutcome × CursorStore κ
  | .cancelled => (.error .cancelled, cursors)
  | .timedOut => (.error .timeout, cursors)
  | .failed error => (.error (.session error), cursors)
  | .returned outcome =>
    if outcome.peer.deviceId = deviceId then (.error .selfPairing, forget cursors pairing)
    else if committed then
      (.ok outcome, cursors.recordCursor pairing outcome.sinceMs outcome.appliedFloor)
    else (.error .cancelled, cursors)

/-- Every other peer whose cursor is above the key of a version has a relay floor at or below
that key. -/
def Relays (cursors : CursorStore κ) (pairing : κ) (versions : List ItemSummary) : Prop :=
  ∀ other, other ≠ pairing → ∀ record ∈ cursors other, ∀ version ∈ versions,
    summaryKey version < record.sinceMs →
      ∃ floor ∈ record.relayFloorMs, floor ≤ summaryKey version

/-- The floor is at or below the key of every version. -/
def Covers (floor : Option Int) (versions : List ItemSummary) : Prop :=
  ∀ version ∈ versions, ∃ low ∈ floor, low ≤ summaryKey version

section Stored

variable {α β : Type} {libs : Libraries}

/-- The act stores nothing. -/
def Leaves (act : Half S α) : Prop :=
  ∀ s, (act s).Ensures fun s' _ => s'.stored = s.stored

theorem leaves_pure (x : α) : Leaves (pure x : Half S α) := fun _ => rfl

theorem leaves_fail (error : SessionError) : Leaves (Act.fail error : Half S α) :=
  fun _ => trivial

theorem leaves_recv : Leaves (Act.recv : Half S SyncMessage) := fun _ _ => rfl

theorem Leaves.bind {act : Half S α} {after : α → Half S β} (h : Leaves act)
    (hafter : ∀ x, Leaves (after x)) : Leaves (act >>= after) := by
  intro s
  refine (h s).bind fun s' x hx => ?_
  rw [← hx]
  exact hafter x s'

theorem leaves_send (message : SyncMessage) : Leaves (Roles.send libs message : Half S Unit) := by
  unfold Roles.send
  split
  · exact fun _ => rfl
  · exact leaves_fail _

theorem leaves_receive : Leaves (receive libs : Half S SyncMessage) := by
  refine leaves_recv.bind fun message => ?_
  split
  · exact leaves_pure _
  · exact leaves_fail _

theorem leaves_ask (f : S → Except SessionError α × S) : Leaves (ask f) := by
  intro s
  unfold ask Act.call
  split
  · rename_i hcall
    rw [Prod.mk.injEq] at hcall
    rw [← hcall.2]
    rfl
  · trivial

theorem leaves_foldlM {σ : Type} {step : σ → β → Half S σ} (hstep : ∀ state x, Leaves (step state x))
    (xs : List β) (state : σ) : Leaves (xs.foldlM step state) := by
  induction xs generalizing state with
  | nil => exact leaves_pure _
  | cons x rest ih =>
    rw [List.foldlM_cons]
    exact (hstep state x).bind ih

theorem leaves_forM {f : β → Half S Unit} (hf : ∀ x, Leaves (f x)) (xs : List β) :
    Leaves (xs.forM f) := by
  induction xs with
  | nil => exact leaves_pure _
  | cons x rest ih => exact (hf x).bind fun _ => ih

variable {device : Device S}

theorem leaves_recvHello : Leaves (recvHello libs device) := by
  refine leaves_receive.bind fun message => ?_
  split
  · split
    · exact leaves_fail _
    · exact leaves_pure _
  · exact leaves_fail _

theorem leaves_receivePage : Leaves (receivePage libs : Half S _) := by
  refine leaves_receive.bind fun message => ?_
  split
  · exact leaves_pure _
  · exact leaves_fail _

theorem leaves_receiveRequest : Leaves (receiveRequest libs : Half S _) := by
  refine leaves_receive.bind fun message => ?_
  split
  · exact leaves_pure _
  · exact leaves_fail _

theorem leaves_exchangeWorkspace (source : Source S) (initiator : Bool) (rounds : ℕ)
    (reader : Reader) (workspace : SummaryWorkspace) :
    Leaves (exchangeWorkspace libs source initiator rounds reader workspace) := by
  induction rounds generalizing reader workspace with
  | zero => exact leaves_fail _
  | succ rounds ih =>
    have hsecond : ∀ first : Option (List ItemSummary × Bool),
        Leaves (first.elim (receivePage libs) pure : Half S _) := by
      intro first
      cases first with
      | none => exact leaves_receivePage
      | some page => exact leaves_pure _
    have hpage : Leaves (Roles.nextPage source reader) :=
      (leaves_ask _).bind fun items => leaves_pure _
    have hkeep : ∀ items peerItems, Leaves (keepPages source workspace items peerItems) :=
      fun items peerItems => (leaves_ask _).bind fun comparison => leaves_pure _
    have hround : ∀ first : Option (List ItemSummary × Bool), Leaves (do
        let page ← Roles.nextPage source reader
        Roles.send libs (.summary page.1 page.2)
        let peerPage ← first.elim (receivePage libs) pure
        let workspace ← keepPages source workspace page.1 peerPage.1
        if !page.2 && !peerPage.2 then return workspace
        else exchangeWorkspace libs source initiator rounds (reader.after page.1) workspace) := by
      intro first
      refine hpage.bind fun page => (leaves_send _).bind fun _ => (hsecond first).bind fun peerPage =>
        (hkeep _ _).bind fun workspace => ?_
      split
      · exact leaves_pure _
      · exact ih _ workspace
    rw [exchangeWorkspace]
    split
    · exact (leaves_pure none).bind hround
    · exact (leaves_receivePage.bind fun page => leaves_pure (some page)).bind hround

theorem leaves_serveItems (source : Source S) (advertised : List ItemSummary)
    (requested : List String) (stats : SyncStats) :
    Leaves (Roles.serveItems libs source advertised requested stats) := by
  have hitem : ∀ chunk serving item, Leaves (Roles.serveItem libs chunk serving item : Half S _) :=
    fun chunk serving item => (leaves_forM (fun _ => leaves_send _) _).bind fun _ => leaves_pure _
  have hchunk : ∀ serving chunk, Leaves (serveChunk libs source serving chunk) :=
    fun serving chunk => (leaves_ask _).bind fun items => leaves_foldlM (hitem chunk) items serving
  have hflush : ∀ serving, Leaves (flushBatch libs serving : Half S _) := by
    intro serving
    unfold flushBatch
    split
    · exact leaves_pure _
    · exact (leaves_send _).bind fun _ => leaves_pure _
  exact (leaves_foldlM hchunk _ _).bind fun serving => (hflush serving).bind fun _ =>
    (leaves_send _).bind fun _ => leaves_pure _

/-- No item taken from a message moves the floor. -/
theorem floor_takeItems (wanted : List ItemSummary) (items : List SyncItem)
    (taking : Receiving Unit × List SyncItem) :
    (items.foldl (Receiving.takeItem libs.host wanted) taking).1.floor = taking.1.floor := by
  induction items generalizing taking with
  | nil => rfl
  | cons item rest ih =>
    rw [List.foldl_cons, ih]
    unfold Receiving.takeItem
    dsimp only
    split
    · rfl
    split
    · rfl
    split
    · rfl
    split <;> rfl

theorem covers_note {receiving : Receiving Unit} {versions : List ItemSummary}
    (h : Covers receiving.floor versions) (stored : Bool) (version : ItemSummary) :
    Covers (receiving.note stored (summaryKey version)).floor
      (versions ++ if stored then [version] else []) := by
  cases stored with
  | false =>
    show Covers receiving.floor _
    rw [if_neg Bool.false_ne_true, List.append_nil]
    exact h
  | true =>
    intro other hother
    rw [if_pos rfl, List.mem_append, List.mem_singleton] at hother
    refine ⟨_, rfl, ?_⟩
    rcases hother with hold | rfl
    · obtain ⟨low, hlow, hle⟩ := h other hold
      rw [Option.mem_def.1 hlow, Option.map_some, Option.getD_some]
      exact (min_le_left _ _).trans hle
    · cases receiving.floor with
      | none => exact le_refl _
      | some low => exact min_le_right _ _

/-- The versions that a batch stored. -/
def kept (outcomes : List Bool) (batch : List SyncItem) : List ItemSummary :=
  ((outcomes.zip batch).filter Prod.fst).map fun entry => entry.2.summary

theorem covers_notes (outcomes : List Bool) (batch : List SyncItem) {receiving : Receiving Unit}
    {versions : List ItemSummary} (h : Covers receiving.floor versions) :
    Covers ((outcomes.zip (batch.map fun item => summaryKey item.summary)).foldl
      (fun receiving (stored, stamp) => receiving.note stored stamp) receiving).floor
      (versions ++ kept outcomes batch) := by
  induction outcomes generalizing batch receiving versions with
  | nil =>
    rw [kept, List.zip_nil_left, List.zip_nil_left, List.filter_nil, List.map_nil, List.append_nil]
    exact h
  | cons stored outcomes ih =>
    cases batch with
    | nil =>
      rw [kept, List.map_nil, List.zip_nil_right, List.zip_nil_right, List.filter_nil, List.map_nil,
        List.append_nil]
      exact h
    | cons item batch =>
      have hnext := ih batch (covers_note h stored item.summary)
      have hkept : kept (stored :: outcomes) (item :: batch) =
          (if stored then [item.summary] else []) ++ kept outcomes batch := by
        cases stored <;> rfl
      rw [hkept, ← List.append_assoc]
      exact hnext

/-- The floor of a stream is at or below the key of every version it stored. -/
theorem covers_receiveItems (source : Source S) (wanted : List ItemSummary) (budget : ℕ)
    (receiving : Receiving Unit) (s : Local S) (h : Covers receiving.floor s.stored) :
    (Roles.receiveItems libs source wanted budget receiving s).Ensures fun s' received =>
      Covers received.floor s'.stored := by
  induction budget generalizing receiving s with
  | zero => trivial
  | succ budget ih =>
    rw [Roles.receiveItems]
    refine Proc.Ensures.bind (leaves_receive s) fun s₁ message hs₁ => ?_
    rw [← hs₁] at h
    cases message with
    | items items =>
      obtain ⟨taken, hfold⟩ : ∃ taken, taken =
        items.foldl (Receiving.takeItem libs.host wanted) (receiving, []) := ⟨_, rfl⟩
      have hfloor : taken.1.floor = receiving.floor := by
        rw [hfold]
        exact floor_takeItems wanted items (receiving, [])
      rw [← hfloor] at h
      dsimp only
      rw [← hfold]
      split
      · exact ih taken.1 s₁ h
      · have happly : (Roles.applyBatch source taken.2 s₁).Ensures fun s' outcomes =>
            s'.stored = s₁.stored ++ kept outcomes taken.2 := by
          unfold Roles.applyBatch Act.call
          dsimp only
          cases (source.applyBatch s₁.store taken.2).1 with
          | ok outcomes => rfl
          | error error => trivial
        refine happly.bind fun s₂ outcomes hs₂ => ih _ s₂ ?_
        rw [hs₂]
        exact covers_notes outcomes taken.2 h
    | done => exact h
    | group | probe | probeAck | hello | summary | request | fileRequest | fileChunk => trivial
    | fileUnavailable | fileChecksum => trivial

theorem covers_fresh {s : Local S} (h : s.stored = []) : Covers none s.stored := by
  intro version hversion
  rw [h] at hversion
  exact absurd hversion List.not_mem_nil

theorem leaves_exchangeWith (initiator : Bool) (peer : PeerHello) :
    Leaves (exchangeWith libs device initiator peer) :=
  leaves_exchangeWorkspace _ _ _ _ _

/-- The rows an end asked for, and what it goes on with behind the floor they leave. -/
theorem covers_asked {stats : SyncStats} {asked : List ItemSummary}
    {next : Receiving Unit → Half S SyncOutcome} {s : Local S} (hs : s.stored = [])
    {Good : Local S → SyncOutcome → Prop}
    (hnext : ∀ s received, Covers (Receiving.floor received) s.stored →
      (next received s).Ensures Good) :
    Proc.Ensures Good ((do
      Roles.send libs (requestFor device asked)
      let received ← Roles.receiveItems libs device.source asked (receiveBudget asked)
        { store := (), stats := stats }
      next received : Half S SyncOutcome) s) :=
  Proc.Ensures.bind (leaves_send _ s) fun s₁ _ hs₁ =>
    (covers_receiveItems _ _ _ _ s₁ (covers_fresh (hs₁.trans hs))).bind fun s₂ received hs₂ =>
      hnext s₂ received hs₂

theorem covers_runInitiator (store : S) :
    (runInitiator libs device { store }).Ensures fun s outcome =>
      Covers outcome.appliedFloor s.stored :=
  Proc.Ensures.bind (leaves_send _ { store }) fun s₁ _ hs₁ =>
    (leaves_recvHello s₁).bind fun s₂ peer hs₂ =>
    (leaves_exchangeWith true peer s₂).bind fun s₃ workspace hs₃ =>
    covers_asked (hs₃.trans (hs₂.trans hs₁)) fun s₄ received hs₄ =>
      (leaves_receiveRequest s₄).bind fun s₅ requested hs₅ =>
      (leaves_serveItems _ _ _ _ s₅).bind fun s₆ stats hs₆ => by
        show Covers received.floor s₆.stored
        rw [hs₆, hs₅]
        exact hs₄

theorem covers_runResponder (store : S) :
    (runResponder libs device { store }).Ensures fun s outcome =>
      Covers outcome.appliedFloor s.stored :=
  Proc.Ensures.bind (leaves_recvHello { store }) fun s₁ peer hs₁ =>
    (leaves_send _ s₁).bind fun s₂ _ hs₂ =>
    (leaves_exchangeWith false peer s₂).bind fun s₃ _ hs₃ =>
    (leaves_receiveRequest s₃).bind fun s₄ _ hs₄ =>
    (leaves_serveItems _ _ _ _ s₄).bind fun _ _ hs₅ =>
    covers_asked (hs₅.trans (hs₄.trans (hs₃.trans (hs₂.trans hs₁)))) fun _ _ hs₆ => hs₆

/-- The outcome's floor covers all that the session stored, in either role. -/
theorem covers_runRole (role : Role) (store : S) :
    (runRole libs device role { store }).Ensures fun s outcome =>
      Covers outcome.appliedFloor s.stored := by
  cases role with
  | initiator => exact covers_runInitiator store
  | responder => exact covers_runResponder store

end Stored

section Closing

variable {libs : Libraries} {device : Device S}

/-- What is covered by the floor of a recorded outcome is relayed to every other peer. -/
theorem relays_recordCursor (cursors : CursorStore κ) (pairing : κ) (sinceMs : Int)
    {floor : Option Int} {versions : List ItemSummary} (h : Covers floor versions) :
    Relays (cursors.recordCursor pairing sinceMs floor) pairing versions := by
  intro other hother record hrecord version hversion hbelow
  obtain ⟨low, hlow, hle⟩ := h version hversion
  have hlowered : (cursors.recordCursor pairing sinceMs floor) other =
      (cursors other).map (CursorStore.lowered low) := by
    rw [Option.mem_def.1 hlow]
    unfold CursorStore.recordCursor CursorStore.recordSession CursorStore.noteApplied
      CursorStore.noteWritten
    rw [Function.update_of_ne hother, Option.map_some, Option.getD_some, if_neg]
    exact fun hsame => hother (Option.some.inj hsame).symm
  rw [hlowered, Option.mem_map] at hrecord
  obtain ⟨before, -, rfl⟩ := hrecord
  rw [CursorStore.sinceMs_lowered] at hbelow
  have hpast : ¬ before.sinceMs ≤ low := by omega
  rw [CursorStore.lowered, if_neg hpast]
  refine ⟨_, rfl, ?_⟩
  cases before.relayFloorMs with
  | none => exact hle
  | some floor => exact (min_le_right _ _).trans hle

theorem relays_forget (cursors : CursorStore κ) (pairing : κ) (versions : List ItemSummary) :
    Relays (forget cursors pairing) pairing versions ↔ Relays cursors pairing versions := by
  unfold Relays
  refine forall_congr' fun other => forall_congr' fun hother => ?_
  rw [forget, Function.update_of_ne hother]

/-- A delete that a peer relays. -/
def grave : SyncItem :=
  ⟨"n", "", [], none, none, none, "text", 7, true, "h", "phone", false, none, 0⟩

/-- The peer sends the delete and then a page where items are due. -/
def brokenOff : Role → List SyncMessage
  | .initiator => [.hello protocolVersion "phone" "phone" none none 0, .summary [grave.summary] false,
      .items [grave], .summary [] false]
  | .responder => [.hello protocolVersion "phone" "phone" none none 0, .summary [grave.summary] false,
      .request [], .items [grave], .summary [] false]

def stoppedAt (role : Role) : Proc SyncMessage SessionError (Local (List SyncItem)) SyncOutcome :=
  (runRole sampleLibraries (sampleDevice "desk" 0) role { store := [] }).feed (brokenOff role)

def overrun : SessionError := .unexpected "items" "summary"

theorem stored_stoppedAt (role : Role) : (stoppedAt role).state.stored = [grave.summary] := by
  cases role with
  | initiator | responder => decide

theorem fails_stoppedAt (role : Role) : ∃ state, stoppedAt role = .fail state overrun := by
  cases role with
  | initiator | responder => exact ⟨_, rfl⟩

/-- Another peer's cursor is above the delete. -/
def readPast (floor : Option Int) : CursorStore String :=
  fun pairing => if pairing = "tablet" then some ⟨100, floor⟩ else none

end Closing

end CopyPaste.Peer.Interrupted
