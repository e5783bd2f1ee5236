import CopyPaste.Lib.Spread
import CopyPaste.Peer.Secrecy
import Mathlib

/-!
The pin state of one item on many devices that have the same version of its content. An
offer between peers stores the pin state that comes with it when that is the greater one,
unless an organization record about the clip stands in the way.
-/

namespace CopyPaste.Peer.Pins

open Lib.Rows Merge.Comparator Merge.Payload Merge.Storage Merge.Prepare Merge.Batch Merge.Effects
  Merge.Repin Merge.Choices Upload.Scanning Transfer StoreSource Secrecy Lib.Spread

def rowPin (row : ItemRow) : P2pPin :=
  ⟨row.pinned, row.pinOrder, row.pinUpdatedAt⟩

def rowPinKey (device : Device) (row : ItemRow) : PinKey :=
  pinKey row.pinUpdatedAt (originOr row.originDeviceId device.host.here) row.pinned row.pinOrder

section Fleets

variable {ι : Type} (fleet : Fleet ι) (item : Item)

def pinIn (store : Store) : Option P2pPin :=
  (lookup ItemRow.id store.items item.id).map rowPin

def pinAt (stores : ι → Store) (i : ι) : Option P2pPin :=
  pinIn item (stores i)

/-- What a device's pin state is compared by. -/
def pinKeyIn (device : Device) (store : Store) : WithBot PinKey :=
  match lookup ItemRow.id store.items item.id with
  | none => ⊥
  | some row => rowPinKey device row

def pinKeyAt (stores : ι → Store) (i : ι) : WithBot PinKey :=
  pinKeyIn item (fleet.device i) (stores i)

/-- The sender's pin state, when it is the greater one, is newer than what the
receiver's organization recorded about the clip. -/
def Open (stores : ι → Store) (offer : Offer ι) : Prop :=
  pinKeyAt fleet item stores offer.receiver < pinKeyAt fleet item stores offer.sender →
    ∀ pin ∈ pinAt item stores offer.sender,
      ∀ known ∈ lookup PinState.clipId (stores offer.receiver).pinStates item.id,
        known.updatedAt < pin.pinUpdatedAt

variable [DecidableEq ι]

def OpenRun (stores : ι → Store) : List (Offer ι) → Prop
  | [] => True
  | offer :: rest =>
    Open fleet item stores offer ∧ OpenRun (fleet.step item stores offer) rest

end Fleets

section Offers

variable {device : Device} {item : Item} {store : Store} {row : ItemRow} {bytes : List UInt8}
  {m : PayloadMetadata}

theorem pinOf_toWire {wire : SyncItem} (h : toWire device store row = some wire) :
    pinOf wire = rowPin row := by
  unfold toWire at h
  simp only [Option.bind_eq_bind, Option.pure_def] at h
  split at h
  · cases h
    rfl
  · split at h
    · obtain ⟨_, -, hwire⟩ := Option.bind_eq_some_iff.1 h
      cases hwire
      rfl
    · obtain ⟨_, -, hwire⟩ := Option.bind_eq_some_iff.1 h
      cases hwire
      rfl

theorem pinKeyIn_eq (h : Keeps device item store row bytes m) :
    pinKeyIn item device store = rowPinKey device row := by
  unfold pinKeyIn
  rw [h.found]

theorem pinIn_eq (h : Keeps device item store row bytes m) :
    pinIn item store = some (rowPin row) := by
  unfold pinIn
  rw [h.found]
  rfl

/-- Of one origin, the pin state that comes wins when its key is the greater one. -/
theorem remotePinWins_iff (h : Keeps device item store row bytes m) {incoming : RemoteVersion}
    (hid : incoming.itemId = item.id) (hlive : incoming.deleted = false) (pin : P2pPin) :
    remotePinWins device.host incoming pin (store.versionSummary incoming.itemId) = true ↔
      rowPinKey device row <
        pinKey pin.pinUpdatedAt incoming.originDeviceId pin.pinned pin.pinOrder := by
  unfold remotePinWins
  rw [hid, h.versionSummary_eq, hlive, Bool.not_false, Bool.true_and, Option.all_some,
    pinStateWins_iff]
  rfl

theorem keeps_setPin (h : Keeps device item store row bytes m) (pin : P2pPin) :
    ∃ row', Keeps device item (mapItems store (setPin item.id pin)) row' bytes m ∧
      rowPin row' = pin ∧ placeOf device row' = placeOf device row := by
  have hf := repins_setPin item.id pin
  have hrow : setPin item.id pin row =
      { row with pinned := pin.pinned, pinOrder := pin.pinOrder,
                 pinUpdatedAt := pin.pinUpdatedAt } := by
    unfold setPin
    rw [if_pos (by simp [h.bears.rowId, h.bears.live])]
  refine ⟨setPin item.id pin row, ⟨wellFormed_mapItems h.wellFormed hf, ?_,
    bears_congr h.bears (hf.content row)⟩, ?_, ?_⟩
  · show lookup ItemRow.id (store.items.map (setPin item.id pin)) item.id = _
    rw [lookup_map _ hf.rowId, h.found]
    rfl
  · rw [hrow]
    rfl
  · rw [hrow]
    rfl

/-- A version of the same content: nothing is stored unless its pin state is the greater
one, and then that is stored, if the organization's record about the clip allows it. -/
theorem applyPage_pin (hkind : item.contentType ≠ recordContentType)
    (h : Keeps device item store row bytes m) {incoming : RemoteVersion} {theirs : List UInt8}
    {m' : PayloadMetadata} (harrives : Arrives device.host item incoming theirs m')
    (hplace : placeOfIncoming incoming = placeOf device row) (pin : P2pPin) :
    ∃ flag, applyPage device.host store [(incoming, some pin)] =
      .ok (if rowPinKey device row < pinKey pin.pinUpdatedAt incoming.originDeviceId pin.pinned
          pin.pinOrder then (pinAlone store item.id pin).1 else store, [⟨false, flag⟩]) := by
  obtain ⟨flag, happly, -⟩ := applyPage_lost hkind h harrives (some pin) hplace.le
  refine ⟨flag, happly.trans ?_⟩
  have hwins := remotePinWins_iff h harrives.itemId harrives.live pin
  rw [takenPin, Option.filter_some]
  by_cases hlt : rowPinKey device row <
      pinKey pin.pinUpdatedAt incoming.originDeviceId pin.pinned pin.pinOrder
  · rw [if_pos hlt, if_pos (hwins.2 hlt)]
    rfl
  · rw [if_neg hlt, if_neg fun htrue => hlt (hwins.1 htrue)]
    rfl

end Offers

section Runs

variable {ι : Type} {fleet : Fleet ι} {item : Item}

/-- What an offer of one device's store to another's does, when both have one version. -/
theorem receive_spec (hlaw : fleet.Lawful item) {i j : ι} {mine theirs : Store} {row other : ItemRow}
    {bytes theirBytes : List UInt8} {m m' : PayloadMetadata}
    (hmine : Keeps (fleet.device i) item mine row bytes m)
    (htheirs : Keeps (fleet.device j) item theirs other theirBytes m')
    (hplace : placeOf (fleet.device j) other = placeOf (fleet.device i) row) :
    receive (fleet.device i) .peer mine (fetch (fleet.device j) theirs [item.id]) =
      (if rowPinKey (fleet.device i) row < rowPinKey (fleet.device j) other then
        (pinAlone mine item.id (rowPin other)).1 else mine, false) := by
  obtain ⟨wire, m'', hwire, harrives, hcreated, horigin, -⟩ :=
    exists_wire theirs (hlaw.codec_at j) (hlaw.name j) htheirs.bears
  have hplace' : placeOfIncoming (remoteVersion wire) = placeOf (fleet.device i) row := by
    rw [← hplace]
    unfold placeOfIncoming placeOf
    rw [← hcreated, ← horigin]
    rfl
  have hpin := pinOf_toWire hwire
  have hkey : pinKey (pinOf wire).pinUpdatedAt (remoteVersion wire).originDeviceId
      (pinOf wire).pinned (pinOf wire).pinOrder = rowPinKey (fleet.device j) other := by
    unfold rowPinKey
    rw [hpin, ← horigin]
    rfl
  obtain ⟨flag, happly⟩ := applyPage_pin hlaw.kind hmine (arrives_at harrives) hplace' (pinOf wire)
  rw [hkey, hpin] at happly
  have hpeer : applyRemoteP2pVersions (fleet.device i).host mine
      [(remoteVersion wire, rowPin other)] =
        applyPage (fleet.device i).host mine [(remoteVersion wire, some (rowPin other))] := rfl
  unfold receive
  rw [fetch_single htheirs, hwire]
  dsimp only
  rw [Option.toList_some, List.map_singleton, hpin, hpeer, happly]
  rfl

/-- Every device has the item, in one version. -/
def Shared (fleet : Fleet ι) (item : Item) (stores : ι → Store) (place : Place) : Prop :=
  ∀ i, ∃ row bytes m, Keeps (fleet.device i) item (stores i) row bytes m ∧
    placeOf (fleet.device i) row = place

variable [DecidableEq ι]

variable {stores : ι → Store} {place : Place}

/-- An open offer leaves the greater pin state. -/
theorem step_spec (hlaw : fleet.Lawful item) (hshared : Shared fleet item stores place)
    {offer : Offer ι} (hpeer : offer.path = .peer) (hopen : Open fleet item stores offer) :
    Shared fleet item (fleet.step item stores offer) place ∧
      pinKeyAt fleet item (fleet.step item stores offer) =
        join (pinKeyAt fleet item stores) offer.edge := by
  obtain ⟨row, bytes, m, hmine, hplace⟩ := hshared offer.receiver
  obtain ⟨other, theirBytes, m', htheirs, hplace'⟩ := hshared offer.sender
  have hout := receive_spec hlaw hmine htheirs (hplace'.trans hplace.symm)
  have hstep : fleet.step item stores offer =
      Function.update stores offer.receiver
        (if rowPinKey (fleet.device offer.receiver) row <
            rowPinKey (fleet.device offer.sender) other then
          (pinAlone (stores offer.receiver) item.id (rowPin other)).1
        else stores offer.receiver) := by
    unfold Fleet.step Fleet.outcome
    rw [hpeer, hout]
  have hmineKey : pinKeyAt fleet item stores offer.receiver =
      rowPinKey (fleet.device offer.receiver) row := pinKeyIn_eq hmine
  have htheirKey : pinKeyAt fleet item stores offer.sender =
      rowPinKey (fleet.device offer.sender) other := pinKeyIn_eq htheirs
  -- the receiver's store after the offer
  obtain ⟨row', hkeeps', hplaceAfter, hkeyAfter⟩ : ∃ row', Keeps (fleet.device offer.receiver) item
      (fleet.step item stores offer offer.receiver) row' bytes m ∧
      placeOf (fleet.device offer.receiver) row' = place ∧
      rowPinKey (fleet.device offer.receiver) row' =
        max (rowPinKey (fleet.device offer.receiver) row)
          (rowPinKey (fleet.device offer.sender) other) := by
    rw [hstep, Function.update_self]
    by_cases hlt : rowPinKey (fleet.device offer.receiver) row <
        rowPinKey (fleet.device offer.sender) other
    · have hfree : ¬Blocked (stores offer.receiver) item.id (rowPin other) := by
        rintro ⟨known, hknown, hle⟩
        rw [← WithBot.coe_lt_coe, ← hmineKey, ← htheirKey] at hlt
        have hnewer := hopen hlt (rowPin other) (pinIn_eq htheirs) known hknown
        omega
      obtain ⟨row', hkeeps', hpin, hsame⟩ := keeps_setPin hmine (rowPin other)
      rw [if_pos hlt, (pinAlone_open hfree).1]
      refine ⟨row', hkeeps', hsame.trans hplace, ?_⟩
      have horigin : originOr row'.originDeviceId (fleet.device offer.receiver).host.here =
          originOr other.originDeviceId (fleet.device offer.sender).host.here :=
        (Prod.ext_iff.1 (toLex_inj.1 (hsame.trans (hplace.trans hplace'.symm)))).2
      rw [max_eq_right hlt.le]
      simp only [rowPin, P2pPin.mk.injEq] at hpin
      unfold rowPinKey
      rw [horigin, hpin.1, hpin.2.1, hpin.2.2]
    · rw [if_neg hlt]
      exact ⟨row, hmine, hplace, (max_eq_left (not_lt.1 hlt)).symm⟩
  have hothers : ∀ i, i ≠ offer.receiver → fleet.step item stores offer i = stores i := by
    intro i hi
    rw [hstep, Function.update_of_ne hi]
  refine ⟨fun i => ?_, funext fun i => ?_⟩
  · by_cases hi : i = offer.receiver
    · subst hi
      exact ⟨row', bytes, m, hkeeps', hplaceAfter⟩
    · rw [hothers i hi]
      exact hshared i
  · unfold join Offer.edge
    by_cases hi : i = offer.receiver
    · subst hi
      rw [Function.update_self, hmineKey, htheirKey, ← WithBot.coe_max, ← hkeyAfter]
      exact pinKeyIn_eq hkeeps'
    · rw [Function.update_of_ne hi]
      unfold pinKeyAt
      rw [hothers i hi]

theorem run_spec (hlaw : fleet.Lawful item) (hshared : Shared fleet item stores place)
    {offers : List (Offer ι)} (hpeer : ∀ offer ∈ offers, offer.path = .peer)
    (hopen : OpenRun fleet item stores offers) :
    Shared fleet item (fleet.run item stores offers) place ∧
      pinKeyAt fleet item (fleet.run item stores offers) =
        (offers.map Offer.edge).foldl join (pinKeyAt fleet item stores) := by
  induction offers generalizing stores with
  | nil => exact ⟨hshared, rfl⟩
  | cons offer rest ih =>
    obtain ⟨hnext, hkeys⟩ := step_spec hlaw hshared (hpeer offer List.mem_cons_self) hopen.1
    obtain ⟨hlast, hrun⟩ :=
      ih hnext (fun other hother => hpeer other (List.mem_cons_of_mem _ hother)) hopen.2
    refine ⟨hlast, ?_⟩
    rw [List.map_cons, List.foldl_cons, ← hkeys]
    exact hrun

omit [DecidableEq ι] in
/-- Of one version, the key of a pin state says all of it. -/
theorem pinAt_eq_iff {others : ι → Store} (hshared : Shared fleet item stores place)
    (hothers : Shared fleet item others place) (i j : ι) :
    pinAt item stores i = pinAt item others j ↔
      pinKeyAt fleet item stores i = pinKeyAt fleet item others j := by
  obtain ⟨row, bytes, m, hkeeps, hplace⟩ := hshared i
  obtain ⟨other, bytes', m', hkeeps', hplace'⟩ := hothers j
  have horigin : originOr row.originDeviceId (fleet.device i).host.here =
      originOr other.originDeviceId (fleet.device j).host.here :=
    (Prod.ext_iff.1 (toLex_inj.1 (hplace.trans hplace'.symm))).2
  unfold pinAt pinKeyAt
  rw [pinIn_eq hkeeps, pinIn_eq hkeeps', pinKeyIn_eq hkeeps, pinKeyIn_eq hkeeps',
    WithBot.coe_inj, Option.some.injEq]
  unfold rowPinKey rowPin pinKey
  rw [horigin, P2pPin.mk.injEq, toLex_inj, Prod.mk.injEq, toLex_inj, Prod.mk.injEq, toLex_inj,
    Prod.mk.injEq, pinRank_injective.eq_iff]
  constructor
  · rintro ⟨hpinned, horder, hstamp⟩
    exact ⟨hstamp, rfl, hpinned, horder⟩
  · rintro ⟨hstamp, -, hpinned, horder⟩
    exact ⟨hpinned, horder, hstamp⟩

end Runs

/-- Devices with one version of an item exchange it between peers, each offer open where
it is made. A device that has heard of every other has the greatest of their first pin
states, and a pin state that is not above its own changes nothing. -/
theorem pins_converge {ι : Type} [DecidableEq ι] (fleet : Fleet ι) (item : Item)
    (hlaw : fleet.Lawful item) (start : ι → Store) (place : Place)
    (hshared : Shared fleet item start place) (offers : List (Offer ι))
    (hpeer : ∀ offer ∈ offers, offer.path = .peer) (hopen : OpenRun fleet item start offers) :
    (∀ i, (∀ j, j ∈ heard (offers.map Offer.edge) i) →
      (∃ k, pinAt item (fleet.run item start offers) i = pinAt item start k) ∧
        ∀ j, pinKeyAt fleet item start j ≤ pinKeyAt fleet item (fleet.run item start offers) i) ∧
    ((∀ i j, j ∈ heard (offers.map Offer.edge) i) → ∀ i j,
      pinAt item (fleet.run item start offers) i = pinAt item (fleet.run item start offers) j) ∧
    (∀ i, ∀ j ∈ heard (offers.map Offer.edge) i,
      receive (fleet.device i) .peer (fleet.run item start offers i)
        (fetch (fleet.device j) (start j) [item.id]) = (fleet.run item start offers i, false)) ∧
    ∀ i j theirs, (∃ row bytes m, Keeps (fleet.device j) item theirs row bytes m ∧
        placeOf (fleet.device j) row = place) →
      pinKeyIn item (fleet.device j) theirs ≤
        pinKeyAt fleet item (fleet.run item start offers) i →
      receive (fleet.device i) .peer (fleet.run item start offers i)
        (fetch (fleet.device j) theirs [item.id]) = (fleet.run item start offers i, false) := by
  obtain ⟨hlast, hkeys⟩ := run_spec hlaw hshared hpeer hopen
  have hgreatest := fun i =>
    greatest_heard (pinKeyAt fleet item start) (offers.map Offer.edge) i
  rw [← hkeys] at hgreatest
  have hagain : ∀ i j theirs, (∃ row bytes m, Keeps (fleet.device j) item theirs row bytes m ∧
      placeOf (fleet.device j) row = place) →
      pinKeyIn item (fleet.device j) theirs ≤
        pinKeyAt fleet item (fleet.run item start offers) i →
      receive (fleet.device i) .peer (fleet.run item start offers i)
        (fetch (fleet.device j) theirs [item.id]) = (fleet.run item start offers i, false) := by
    rintro i j theirs ⟨other, bytes', m', htheirs, hplace'⟩ hle
    obtain ⟨row, bytes, m, hmine, hplace⟩ := hlast i
    unfold pinKeyAt at hle
    rw [pinKeyIn_eq htheirs, pinKeyIn_eq hmine, WithBot.coe_le_coe] at hle
    rw [receive_spec hlaw hmine htheirs (hplace'.trans hplace.symm), if_neg (not_lt.2 hle)]
  refine ⟨fun i hall => ?_, fun hall i j => ?_, fun i j hj => ?_, hagain⟩
  · obtain ⟨⟨k, -, hk⟩, hmost⟩ := hgreatest i
    exact ⟨⟨k, (pinAt_eq_iff hlast hshared i k).2 hk⟩, fun j => hmost j (hall j)⟩
  · rw [pinAt_eq_iff hlast hlast]
    have huniv : ∀ k, heard (offers.map Offer.edge) k = Set.univ := fun k =>
      Set.eq_univ_of_forall (hall k)
    have hi := hgreatest i
    have hj := hgreatest j
    rw [huniv] at hi hj
    exact hi.unique hj
  · exact hagain i j (start j) (hshared j) ((hgreatest i).most j hj)

/-- The note, pinned in one millisecond, with or without the organization's record of it. -/
private def markedNote (order : PinOrder) (recorded : Bool) : Store where
  items := [{ noteRow 5 ⟨5, true⟩ with pinned := true, pinOrder := some order, pinUpdatedAt := 9 }]
  pinStates := if recorded then [⟨"note", true, some order, 9⟩] else []

private theorem shared_markedNote (order : Bool → PinOrder) (recorded : Bool) :
    Shared notesFleet note (fun phone => markedNote (order phone) recorded)
      (toLex (5, "phone")) := by
  intro phone
  obtain ⟨row, bytes, m, hholds⟩ :=
    has_noteStore phone 5 ⟨5, true⟩ (by decide) (by decide) (by decide)
  obtain rfl : noteRow 5 ⟨5, true⟩ = row := Option.some.inj hholds.found
  refine ⟨_, bytes, m, ⟨?_, rfl, bears_congr hholds.bears rfl⟩, rfl⟩
  refine ⟨List.nodup_singleton _, List.nodup_nil, fun other hother => ?_, List.forall_mem_nil _⟩
  rw [List.mem_singleton.1 hother]
  exact (by decide : isRecordId "note" = false)

private def bothWays : List (Offer Bool) := [⟨true, false, .peer⟩, ⟨false, true, .peer⟩]

private theorem heard_bothWays : ∀ i j, j ∈ heard (bothWays.map Offer.edge) i := by
  intro i j
  cases i <;> cases j <;> simp [heard, Lib.Spread.tell, bothWays, Offer.edge]

theorem marked_notes_converge :
    pinAt note (notesFleet.run note (fun phone => markedNote (if phone then 2 else 1) false)
        bothWays) false =
      pinAt note (notesFleet.run note (fun phone => markedNote (if phone then 2 else 1) false)
        bothWays) true := by
  have hshared := shared_markedNote (fun phone => if phone then 2 else 1) false
  have hopen : Open notesFleet note (fun phone => markedNote (if phone then 2 else 1) false)
      ⟨true, false, .peer⟩ := by
    intro _ _ _ known hknown
    exact absurd hknown (by simp [markedNote, lookup])
  refine (pins_converge notesFleet note lawful_notesFleet _ _ hshared bothWays
    (by decide +kernel) ⟨hopen, fun hlt => ?_, trivial⟩).2.1 heard_bothWays false true
  rw [(step_spec lawful_notesFleet hshared rfl hopen).2] at hlt
  exact absurd hlt (by decide +kernel)

/-- Two devices pinned the note in one millisecond, and recorded it. -/
theorem recorded_pins_stay_apart :
    ¬∀ (ι : Type) [DecidableEq ι] (fleet : Fleet ι) (item : Item), fleet.Lawful item →
      ∀ (start : ι → Store) (place : Place), Shared fleet item start place →
      ∀ offers : List (Offer ι), (∀ offer ∈ offers, offer.path = .peer) →
        (∀ i j, j ∈ heard (offers.map Offer.edge) i) →
        ∀ i j, pinAt item (fleet.run item start offers) i =
          pinAt item (fleet.run item start offers) j := by
  intro hall
  have hsame := hall Bool notesFleet note lawful_notesFleet _ _
    (shared_markedNote (fun phone => if phone then 2 else 1) true) bothWays (by decide +kernel)
    heard_bothWays false true
  exact absurd hsame (by decide +kernel)

end CopyPaste.Peer.Pins
