import CopyPaste.Organization.Exact
import CopyPaste.Organization.Restamp
import Mathlib

/-!
Pins on several devices that exchange the records of the organization. A gesture restamps
the rows it changes and writes their records; the record that comes to another device is
put on the row there. A record that already says what the gesture says is not written
again, and stays behind the stamp of its row. Where no gesture does that, each row has the
pin its record says, at a stamp no later than the record's.
-/

namespace CopyPaste.Organization.Pinned

open Lib.Checks Lib.Rows Lib.Guarded Merge.Comparator Merge.Payload Merge.Storage Merge.Prepare Merge.Batch
  Merge.Effects Merge.Pages Merge.Repin Merge.Onward Records Exact Restamp Files.Bodies Upload.Scanning

section Publication

variable (sys : Organizer) (store : Store)

def pinOf (row : ItemRow) : Bool × Option PinOrder × Int :=
  (row.pinned, row.pinOrder, row.pinUpdatedAt)

def pinRecord (row : ItemRow) : Record :=
  .pin row.id row.pinned row.pinOrder

def heldRecord (clipId : String) : Option RecordRow :=
  lookup RecordRow.id store.records ((Record.pin clipId false none).id sys.host)

/-- The record of a row says its pin, at a stamp not below the row's. -/
def Published (row : ItemRow) : Prop :=
  ∃ held, heldRecord sys store row.id = some held ∧ decode sys held = some (pinRecord row) ∧
    row.pinUpdatedAt ≤ held.createdAt

/-- A row of the id has another pin in the store. -/
def Changes (row : ItemRow) : Prop :=
  ∃ old ∈ store.items, old.id = row.id ∧ pinOf old ≠ pinOf row

/-- Every live row whose pin has changed is published. -/
def ChangesPublished (after : Store) : Prop :=
  ∀ row ∈ after.items, row.deleted = false → Changes store row → Published sys after row

/-- The record of a row is of another content, or says the row's pin at a stamp that is
late enough. -/
def Fresh (row : ItemRow) : Prop :=
  ∀ held, heldRecord sys store row.id = some held →
    held.contentHash = recordHash sys (pinRecord row) →
      decode sys held = some (pinRecord row) ∧ row.pinUpdatedAt ≤ held.createdAt

/-- No row is given a new stamp whose record says the same already at an earlier one. -/
def AllFresh (clock : Clock) (g : Gesture) : Prop :=
  ∀ row ∈ g.given clock store, Changes store row → Fresh sys store row

end Publication

section Fleet

variable {D : Type} [DecidableEq D]

/-- The stores of the devices and the records that any of them has had. -/
structure Fleet (D : Type) where
  stores : D → Store
  published : List RemoteVersion

inductive Op (D : Type)
  | gesture (device : D) (clock : Clock) (g : Gesture)
  | merge (device : D) (page : List RemoteVersion)
  | item (device : D) (version : RemoteVersion)

variable (sites : D → Organizer)

def Fleet.after (s : Fleet D) (device : D) (store : Store) : Fleet D where
  stores := Function.update s.stores device store
  published := s.published ++ store.records.filterMap (serve (sites device))

/-- A merge is of records the devices have had; an item comes and goes with its own
versions. What fails is rolled back. -/
def step (s : Fleet D) : Op D → Option (Fleet D)
  | .gesture device clock g =>
    match g.run (sites device) clock (s.stores device) with
    | .error _ => some s
    | .ok store => some (s.after sites device store)
  | .merge device page =>
    if ∀ version ∈ page, version ∈ s.published then
      match applyRemoteVersions (sites device).host (s.stores device) page with
      | .error _ => some s
      | .ok (store, _) => some (s.after sites device store)
    else none
  | .item device version =>
    if version.contentType = recordContentType then none
    else
      match applyRemoteVersion (sites device).host (s.stores device) version with
      | .error _ => some s
      | .ok (store, _) => some (s.after sites device store)

/-- Rows one for each id, and tables that are those of the records. -/
structure Sound (sys : Organizer) (store : Store) : Prop where
  wf : WellFormed store
  exact : Projected sys store
  stamps : ∀ held ∈ store.records, 0 ≤ held.createdAt
  bounds : ∀ row ∈ store.items, 0 ≤ row.pinUpdatedAt

/-- A history in which nothing has been pinned. -/
structure Unpinned (sys : Organizer) (store : Store) : Prop extends Sound sys store where
  pinStates : store.pinStates = []
  rows : ∀ row ∈ store.items, pinOf row = (false, none, 0)

def machine : Machine (Fleet D) (Op D) where
  start s := (∀ device, Unpinned (sites device) (s.stores device)) ∧ s.published = []
  step := step sites

/-- The gestures of a run leave no record behind. -/
def FreshOp (s : Fleet D) : Op D → Prop
  | .gesture device clock g => AllFresh (sites device) (s.stores device) clock g
  | _ => True

/-- The stamp and the content of the record of a clip's pin. -/
def pinVersion (sys : Organizer) (store : Store) (clipId : String) : Option (Int × Option Record) :=
  (heldRecord sys store clipId).map fun held => (held.createdAt, decode sys held)

end Fleet

/-- What the digest, the cipher and the JSON of a pin record are relied on for. A double
may be read back as one beside it. -/
structure Laws (sys : Organizer) : Prop where
  keys : NoKeyCollision sys.host
  opens : ∀ id bytes, bytes.length ≤ maxRecordBytes →
    sys.openBinary (sys.host.encrypt recordContentType id bytes).2 id = some bytes
  fits : ∀ clipId pinned order, (Record.pin clipId pinned order).valid = true →
    (sys.render (.pin clipId pinned order)).utf8ByteSize ≤ maxRecordBytes
  reads : ∀ clipId pinned order, (Record.pin clipId pinned order).valid = true →
    ∃ heard, sys.host.parseRecord (sys.render (.pin clipId pinned order)) =
      some (.pin clipId pinned heard) ∧ (Record.pin clipId pinned heard).valid = true

section Settled

variable {sys : Organizer}

/-- A row has the pin of its record, or none. -/
def Rests (store : Store) (row : ItemRow) : Prop :=
  match if row.deleted then none else lookup PinState.clipId store.pinStates row.id with
  | none => pinOf row = (false, none, 0)
  | some pin =>
    row.pinned = pin.pinned ∧ row.pinOrder = pin.pinOrder ∧ row.pinUpdatedAt ≤ pin.updatedAt

/-- Every row rests on its record. -/
structure Settled (sys : Organizer) (store : Store) : Prop extends Sound sys store where
  rows : ∀ row ∈ store.items, Rests store row

/-- What two stores hold of one clip is the same, but for its content. -/
structure Alike (sys : Organizer) (store other : Store) (id : String) : Prop where
  row : lookup ItemRow.id other.items id = lookup ItemRow.id store.items id
  record : heldRecord sys other id = heldRecord sys store id
  pin : lookup PinState.clipId other.pinStates id = lookup PinState.clipId store.pinStates id

theorem Alike.refl (store : Store) (id : String) : Alike sys store store id :=
  ⟨rfl, rfl, rfl⟩

variable {store other : Store} {row : ItemRow}

theorem Alike.trans {third : Store} {id : String} (h : Alike sys store other id)
    (h' : Alike sys other third id) : Alike sys store third id :=
  ⟨h'.row.trans h.row, h'.record.trans h.record, h'.pin.trans h.pin⟩

theorem Alike.mem (h : Alike sys store other row.id) (hwf : WellFormed other)
    (hrow : row ∈ other.items) : row ∈ store.items := by
  have hfound := h.row.symm.trans (lookup_of_mem hwf.items hrow)
  exact (lookup_eq_some hfound).1

theorem Alike.symm {id : String} (h : Alike sys store other id) : Alike sys other store id :=
  ⟨h.row.symm, h.record.symm, h.pin.symm⟩

theorem Alike.rests (h : Alike sys store other row.id) (hrests : Rests store row) :
    Rests other row := by
  unfold Rests at hrests ⊢
  rw [h.pin]
  exact hrests

theorem Alike.published (h : Alike sys store other row.id) (hpublished : Published sys store row) :
    Published sys other row := by
  unfold Published at hpublished ⊢
  rw [h.record]
  exact hpublished

theorem Alike.fresh (h : Alike sys store other row.id) (hfresh : Fresh sys store row) :
    Fresh sys other row := by
  unfold Fresh at hfresh ⊢
  rw [h.record]
  exact hfresh

/-- The pin state of a clip is what its record says. -/
theorem lookup_pinStates_iff (h : Projected sys store) {clipId : String} {pin : PinState} :
    lookup PinState.clipId store.pinStates clipId = some pin ↔
      pin.clipId = clipId ∧ ∃ held, heldRecord sys store clipId = some held ∧
        decode sys held = some (.pin clipId pin.pinned pin.pinOrder) ∧
          held.createdAt = pin.updatedAt := by
  have hheld : ∀ held ∈ store.records, ∀ said, decode sys held = some said →
      said.id sys.host = held.id := by
    intro held hmem said hsaid
    obtain ⟨record, hrecord, -, hid⟩ := h.readable held hmem
    obtain rfl := Option.some.inj (hsaid.symm.trans hrecord)
    exact hid
  constructor
  · intro hlookup
    obtain ⟨hmem, rfl⟩ := lookup_eq_some hlookup
    obtain ⟨held, hrecord, hdecode, hstamp⟩ := (h.pins pin).1 hmem
    refine ⟨rfl, held, ?_, hdecode, hstamp⟩
    have hid : held.id = (Record.pin pin.clipId false none).id sys.host :=
      (hheld held hrecord _ hdecode).symm
    unfold heldRecord
    rw [← hid, lookup_of_mem h.recordIds hrecord]
  · rintro ⟨rfl, held, hlookup, hsaid⟩
    exact lookup_of_mem h.pinIds ((h.pins pin).2 ⟨held, (lookup_eq_some hlookup).1, hsaid⟩)

/-- A live row is published exactly when it has a record and rests on it. -/
theorem published_iff (h : Projected sys store) (hlive : row.deleted = false) :
    Published sys store row ↔
      (lookup PinState.clipId store.pinStates row.id).isSome ∧ Rests store row := by
  unfold Rests
  rw [hlive, if_neg (by simp)]
  constructor
  · rintro ⟨held, hheld, hdecode, hle⟩
    have hpin : lookup PinState.clipId store.pinStates row.id =
        some ⟨row.id, row.pinned, row.pinOrder, held.createdAt⟩ :=
      (lookup_pinStates_iff h).2 ⟨rfl, held, hheld, hdecode, rfl⟩
    rw [hpin]
    exact ⟨rfl, rfl, rfl, hle⟩
  · rintro ⟨hsome, hrests⟩
    obtain ⟨pin, hpin⟩ := Option.isSome_iff_exists.1 hsome
    rw [hpin] at hrests
    obtain ⟨hpinned, horder, hle⟩ := hrests
    obtain ⟨-, held, hheld, hdecode, hstamp⟩ := (lookup_pinStates_iff h).1 hpin
    rw [← hpinned, ← horder] at hdecode
    exact ⟨held, hheld, hdecode, hstamp ▸ hle⟩

/-- A pin put on a row leaves it where it is, or where the pin is. -/
theorem onto_cases (pin : PinState) (row : ItemRow) :
    pin.onto row = row ∧ (row.deleted = true ∨ pin.updatedAt < row.pinUpdatedAt) ∨
      pinOf (pin.onto row) = (pin.pinned, pin.pinOrder, pin.updatedAt) ∧
        row.deleted = false ∧ row.pinUpdatedAt ≤ pin.updatedAt := by
  unfold PinState.onto
  split
  · rename_i h
    exact Or.inr ⟨rfl, by simpa using h.1, h.2⟩
  · rename_i h
    refine Or.inl ⟨rfl, ?_⟩
    rw [not_and_or, not_le] at h
    exact h.imp_left fun h => by simpa using h

section RecordedPin

variable (hkeys : NoKeyCollision sys.host) {store : Store} {incoming : IncomingItem}
  {clipId : String} {pinned : Bool} {order : Option PinOrder}
  (hdecode : decode sys (recordRow incoming) = some (.pin clipId pinned order))
  (hvalid : (Record.pin clipId pinned order).valid = true)
  (hid : (Record.pin clipId pinned order).id sys.host = incoming.id)

include hkeys hdecode hvalid hid in
theorem Sound.recordedPin (h : Sound sys store) (hrecord : isRecordId incoming.id = true)
    (hstamp : 0 ≤ incoming.createdAt) :
    Sound sys (recorded store incoming (.pin clipId pinned order)) := by
  refine ⟨wellFormed_recorded h.wf hrecord _, h.exact.recorded hkeys hdecode hvalid hid, ?_, ?_⟩
  · intro held hheld
    rw [records_recorded, mem_put] at hheld
    rcases hheld with ⟨hmem, -⟩ | rfl
    · exact h.stamps held hmem
    · exact hstamp
  · intro row hrow
    rw [recorded_pin] at hrow
    obtain ⟨old, hold, rfl⟩ := List.mem_map.1 hrow
    have hbound := h.bounds old hold
    unfold pinOnto
    split
    · rcases onto_cases ⟨clipId, pinned, order, incoming.createdAt⟩ old with ⟨heq, -⟩ | ⟨heq, -⟩
      · rw [heq]
        exact hbound
      · have hthird := congrArg (fun pin => pin.2.2) heq
        exact hstamp.trans hthird.ge
    · exact hbound

include hkeys hid in
/-- The record of a clip's pin concerns no other clip. -/
theorem alike_recordedPin {id : String} (hne : id ≠ clipId) :
    Alike sys store (recorded store incoming (.pin clipId pinned order)) id := by
  refine ⟨?_, ?_, ?_⟩
  · rw [recorded_pin]
    exact lookup_items_ne (repins_pinOnto clipId _) hne store.items
  · have hother : incoming.id ≠ (Record.pin id false none).id sys.host := by
      intro heq
      have hslot := slot_of_id hkeys (hid.trans heq)
      exact hne (Slot.pin.inj hslot).symm
    unfold heldRecord
    rw [records_recorded, lookup_put, if_neg hother]
  · rw [recorded_pin]
    show lookup PinState.clipId (put PinState.clipId store.pinStates _) id = _
    rw [lookup_put, if_neg fun heq => hne heq.symm]

theorem lookup_recordedPin :
    lookup PinState.clipId (recorded store incoming (.pin clipId pinned order)).pinStates clipId =
      some ⟨clipId, pinned, order, incoming.createdAt⟩ := by
  rw [recorded_pin]
  simp only [mapItems, lookup_put, if_true]

/-- A row whose pin is not above the record rests on it. -/
theorem rests_recordedPin {old : ItemRow} (hclip : old.id = clipId)
    (hgone : old.deleted = true → pinOf old = (false, none, 0))
    (hlive : old.deleted = false → old.pinUpdatedAt ≤ incoming.createdAt) :
    Rests (recorded store incoming (.pin clipId pinned order))
      (pinOnto clipId ⟨clipId, pinned, order, incoming.createdAt⟩ old) := by
  have hsame := repins_pinOnto clipId ⟨clipId, pinned, order, incoming.createdAt⟩
  unfold Rests
  rw [hsame.deleted, hsame.rowId, hclip, lookup_recordedPin]
  unfold pinOnto
  rw [if_pos hclip]
  rcases onto_cases ⟨clipId, pinned, order, incoming.createdAt⟩ old with
    ⟨heq, hdeleted | hlt⟩ | ⟨heq, hdeleted, -⟩
  · rw [heq, hdeleted, if_pos rfl]
    exact hgone hdeleted
  · cases hdeleted : old.deleted with
    | true =>
      rw [heq, if_pos rfl]
      exact hgone hdeleted
    | false => exact absurd (hlive hdeleted) (not_le.2 hlt)
  · rw [hdeleted, if_neg (by simp)]
    obtain ⟨hpinned, hrest⟩ := Prod.mk.inj heq
    obtain ⟨horder, hstamp⟩ := Prod.mk.inj hrest
    exact ⟨hpinned, horder, hstamp.le⟩

include hkeys hdecode hvalid hid in
/-- A record of a pin that is not below the one it replaces settles its row. -/
theorem Settled.recordedPin (h : Settled sys store) (hrecord : isRecordId incoming.id = true)
    (hstamp : 0 ≤ incoming.createdAt) (hnewest : Newest store incoming) :
    Settled sys (recorded store incoming (.pin clipId pinned order)) := by
  have hsound := h.toSound.recordedPin hkeys hdecode hvalid hid hrecord hstamp
  refine ⟨hsound, ?_⟩
  intro row hrow
  by_cases hclip : row.id = clipId
  · rw [recorded_pin] at hrow
    obtain ⟨old, hold, rfl⟩ := List.mem_map.1 hrow
    rw [(repins_pinOnto clipId _).rowId] at hclip
    have hrests := h.rows old hold
    unfold Rests at hrests
    refine rests_recordedPin hclip ?_ ?_
    · intro hdeleted
      rw [hdeleted, if_pos rfl] at hrests
      exact hrests
    · intro hdeleted
      rw [hdeleted, if_neg (by simp)] at hrests
      cases hpin : lookup PinState.clipId store.pinStates old.id with
      | none =>
        rw [hpin] at hrests
        have hzero := congrArg (fun pin => pin.2.2) hrests
        exact hzero.le.trans hstamp
      | some pin =>
        rw [hpin] at hrests
        obtain ⟨-, held, hheld, -, hle⟩ := (lookup_pinStates_iff h.exact).1 hpin
        obtain ⟨hmem, hown⟩ := lookup_eq_some hheld
        refine (hrests.2.2.trans hle.ge).trans (hnewest held hmem ?_)
        rw [hown, hclip]
        exact hid
  · have halike := @alike_recordedPin sys hkeys store incoming clipId pinned order hid row.id hclip
    exact halike.rests (h.rows row (halike.mem hsound.wf hrow))

end RecordedPin

/-- So does any record, the others without touching the pins. -/
theorem Settled.recorded (hkeys : NoKeyCollision sys.host) (h : Settled sys store)
    {incoming : IncomingItem} {record : Record}
    (hdecode : decode sys (recordRow incoming) = some record) (hvalid : record.valid = true)
    (hid : record.id sys.host = incoming.id) (hrecord : isRecordId incoming.id = true)
    (hstamp : 0 ≤ incoming.createdAt) (hnewest : Newest store incoming) :
    Settled sys (recorded store incoming record) := by
  have hstamps : ∀ held ∈ (Merge.Effects.recorded store incoming record).records,
      0 ≤ held.createdAt := by
    intro held hheld
    rw [records_recorded, mem_put] at hheld
    rcases hheld with ⟨hmem, -⟩ | rfl
    · exact h.stamps held hmem
    · exact hstamp
  have hwf := wellFormed_recorded h.wf hrecord record
  have hexact := h.exact.recorded hkeys hdecode hvalid hid
  cases record with
  | tag | membership => exact ⟨⟨hwf, hexact, hstamps, h.bounds⟩, h.rows⟩
  | pin clipId pinned order =>
    exact h.recordedPin hkeys hdecode hvalid hid hrecord hstamp hnewest

section Write

variable (hlaws : Laws sys) {clock : Clock} {store after : Store}

/-- What the write of a pin record puts in, once it is read back. -/
structure Writes (sys : Organizer) (store : Store) (clipId : String) (pinned : Bool)
    (heard : Option PinOrder) (incoming : IncomingItem) : Prop where
  reads : decode sys (recordRow incoming) = some (.pin clipId pinned heard)
  valid : (Record.pin clipId pinned heard).valid = true
  ident : (Record.pin clipId pinned heard).id sys.host = incoming.id
  record : isRecordId incoming.id = true
  stamp : ((lookup ItemRow.id store.items clipId).map ItemRow.pinUpdatedAt).getD 0 ≤
    incoming.createdAt

include hlaws in
/-- A pin record is left when its content is the same, and written otherwise. -/
theorem write_pin_cases {clipId : String} {pinned : Bool} {order : Option PinOrder}
    (h : write sys clock store (.pin clipId pinned order) = .ok after) :
    (after = store ∧ ∃ held, heldRecord sys store clipId = some held ∧
      held.contentHash = recordHash sys (.pin clipId pinned order)) ∨
    ((∀ held, heldRecord sys store clipId = some held →
        held.contentHash ≠ recordHash sys (.pin clipId pinned order)) ∧
      ∃ heard incoming, Writes sys store clipId pinned heard incoming ∧
        after = recorded store incoming (.pin clipId pinned heard) ∧
        sys.host.parseRecord (sys.render (.pin clipId pinned order)) =
          some (.pin clipId pinned heard)) := by
  have hkey : lookup RecordRow.id store.records ((Record.pin clipId pinned order).id sys.host) =
      heldRecord sys store clipId := rfl
  unfold write at h
  split at h
  · cases h
  · rename_i hvalid
    have hvalid : (Record.pin clipId pinned order).valid = true := by simpa using hvalid
    dsimp only at h
    rw [hkey] at h
    split at h
    · rename_i hsame
      rw [Option.any_eq_true] at hsame
      obtain ⟨held, hheld, hhash⟩ := hsame
      exact Or.inl ⟨(Except.ok.inj h).symm, held, hheld, by simpa using hhash⟩
    · rename_i hother
      right
      refine ⟨fun held hheld hhash => hother ?_, ?_⟩
      · rw [hheld, Option.any_some, hhash]
        exact decide_eq_true rfl
      · obtain rfl := Except.ok.inj h
        generalize hstamp : max (nextStamp (heldRecord sys store clipId)
          (clock.record ((Record.pin clipId pinned order).id sys.host)))
          (pinStamp store (.pin clipId pinned order)) = stamp
        have hle : pinStamp store (.pin clipId pinned order) ≤ stamp := hstamp ▸ le_max_right _ _
        obtain ⟨heard, hparse, hheard⟩ := hlaws.reads clipId pinned order hvalid
        have hwire : validWire sys.host (localRecord sys (.pin clipId pinned order) stamp).id
            recordContentType (sys.render (.pin clipId pinned order)) false = true := by
          unfold validWire
          rw [if_neg (by simp)]
          simp only [Bool.not_false, Bool.true_and, Bool.and_eq_true, decide_eq_true_eq, hparse,
            Option.any_some, beq_iff_eq]
          exact ⟨hlaws.fits clipId pinned order hvalid, hheard, rfl⟩
        obtain ⟨record, hrecord, hupsert⟩ := upsert_valid_record sys.host store
          (localRecord sys (.pin clipId pinned order) stamp) _ rfl rfl hwire
        obtain rfl := Option.some.inj (hrecord.symm.trans hparse)
        have hsame : store.upsertRecord sys.host
            (localRecord sys (.pin clipId pinned order) stamp) =
            store.upsert sys.host (localRecord sys (.pin clipId pinned order) stamp) :=
          (if_pos rfl).symm
        rw [hsame, hupsert]
        refine ⟨heard, _, ⟨?_, hheard, rfl, (isRecordId_of_validWire sys.host hwire).1, hle⟩, rfl,
          hparse⟩
        refine (decode_recordRow rfl ?_).trans hparse
        show (sys.openBinary (sys.host.encrypt recordContentType _
          (utf8 (sys.render (.pin clipId pinned order)))).2
          ((Record.pin clipId pinned order).id sys.host)).bind fromUtf8 = _
        rw [hlaws.opens _ _ ((length_utf8 _).trans_le (hlaws.fits clipId pinned order hvalid)),
          Option.bind_some, fromUtf8_utf8]

theorem Sound.stamp_nonneg (h : Sound sys store) (clipId : String) :
    0 ≤ ((lookup ItemRow.id store.items clipId).map ItemRow.pinUpdatedAt).getD 0 := by
  cases hlookup : lookup ItemRow.id store.items clipId with
  | none => exact le_rfl
  | some row => exact h.bounds row (lookup_eq_some hlookup).1

/-- What the write of the record of a row's pin does: nothing when the record is of the
same content, and else the row is published. -/
structure WritesPin (sys : Organizer) (store after : Store) (row : ItemRow) : Prop where
  sound : Sound sys after
  others : ∀ id, id ≠ row.id → Alike sys store after id
  outcome : (after = store ∧ (Published sys store row ↔ Fresh sys store row)) ∨
    (Fresh sys store row ∧ ∃ last ∈ after.items, last.id = row.id ∧ last.deleted = false ∧
      Published sys after last)

include hlaws in
theorem writePin_does (h : Sound sys store) {row : ItemRow} (hrow : row ∈ store.items)
    (hlive : row.deleted = false) (hwrite : writePin sys clock store row.id = .ok after) :
    WritesPin sys store after row := by
  have hlookup : lookup ItemRow.id store.items row.id = some row := lookup_of_mem h.wf.items hrow
  have hfound : liveRow store row.id = some row := by
    unfold liveRow
    rw [hlookup, Option.filter_some, if_pos (by simpa using hlive)]
  unfold writePin at hwrite
  rw [hfound] at hwrite
  rcases write_pin_cases hlaws hwrite with ⟨rfl, held, hheld, hhash⟩ |
    ⟨hnew, heard, incoming, hwrites, rfl, -⟩
  · refine ⟨h, fun id _ => Alike.refl _ id, Or.inl ⟨rfl, ?_, ?_⟩⟩
    · rintro ⟨other, hother, hsaid⟩ again hagain -
      obtain rfl := Option.some.inj (hother.symm.trans hagain)
      exact hsaid
    · intro hfresh
      exact ⟨held, hheld, hfresh held hheld hhash⟩
  · have hstamp : 0 ≤ incoming.createdAt := (h.stamp_nonneg row.id).trans hwrites.stamp
    have hsound := h.recordedPin hlaws.keys hwrites.reads hwrites.valid hwrites.ident hwrites.record
      hstamp
    have hsame := repins_pinOnto row.id ⟨row.id, row.pinned, heard, incoming.createdAt⟩
    have hbound := hwrites.stamp
    rw [hlookup] at hbound
    refine ⟨hsound, ?_, Or.inr ⟨fun held hheld hhash => absurd hhash (hnew held hheld), ?_⟩⟩
    · intro id hne
      exact @alike_recordedPin sys hlaws.keys store incoming row.id row.pinned heard hwrites.ident
        id hne
    · refine ⟨_, ?_, hsame.rowId row, (hsame.deleted row).trans hlive, ?_⟩
      · rw [recorded_pin]
        exact List.mem_map_of_mem hrow
      · refine (published_iff hsound.exact ((hsame.deleted row).trans hlive)).2 ⟨?_, ?_⟩
        · rw [hsame.rowId, lookup_recordedPin]
          rfl
        · refine rests_recordedPin rfl (fun hdeleted => ?_) fun _ => hbound
          rw [hlive] at hdeleted
          cases hdeleted

/-- What the writes of the records of several rows do to one of them. -/
def Outcome (sys : Organizer) (store after : Store) (row : ItemRow) : Prop :=
  (Alike sys store after row.id ∧ (Published sys store row ↔ Fresh sys store row)) ∨
    (Fresh sys store row ∧ ∃ last ∈ after.items, last.id = row.id ∧ last.deleted = false ∧
      Published sys after last)

theorem WritesPin.outcome_of_alike {next : Store} {row : ItemRow}
    (h : WritesPin sys store next row) (hwf : WellFormed next) (halike : Alike sys next after row.id) :
    Outcome sys store after row := by
  rcases h.outcome with ⟨rfl, hiff⟩ | ⟨hfresh, last, hlast, hid, hlive, hpublished⟩
  · exact Or.inl ⟨halike, hiff⟩
  · have hlater : Alike sys next after last.id := hid.symm ▸ halike
    exact Or.inr ⟨hfresh, last, hlater.symm.mem hwf hlast, hid, hlive, hlater.published hpublished⟩

include hlaws in
theorem writePins_do {rows : List ItemRow} (h : Sound sys store)
    (hrows : (rows.map ItemRow.id).Nodup)
    (hmem : ∀ target ∈ rows, ∃ row ∈ store.items, row.id = target.id ∧ row.deleted = false)
    (hwrite : writePins sys clock store rows = .ok after) :
    Sound sys after ∧ (∀ id, (∀ target ∈ rows, target.id ≠ id) → Alike sys store after id) ∧
      ∀ target ∈ rows, ∀ row ∈ store.items, row.id = target.id → Outcome sys store after row := by
  induction rows generalizing store with
  | nil =>
    obtain rfl := Except.ok.inj hwrite
    exact ⟨h, fun id _ => Alike.refl _ id, by simp⟩
  | cons target rest ih =>
    unfold writePins at hwrite
    obtain ⟨next, hone, hwrite⟩ := bind_ok_iff.1 hwrite
    rw [List.map_cons, List.nodup_cons] at hrows
    have hapart : ∀ other ∈ rest, other.id ≠ target.id := fun other hother heq =>
      hrows.1 (heq ▸ List.mem_map_of_mem hother)
    obtain ⟨row, hrow, hid, hlive⟩ := hmem target List.mem_cons_self
    have hdoes := writePin_does hlaws h hrow hlive (hid ▸ hone)
    have hmoved : ∀ other ∈ store.items, other.id ≠ row.id → other ∈ next.items :=
      fun other hother hne =>
        (hdoes.others other.id hne).symm.mem h.wf hother
    have hlater : ∀ other ∈ rest, ∃ row ∈ next.items, row.id = other.id ∧ row.deleted = false := by
      intro other hother
      obtain ⟨held, hheld, hown, hheldLive⟩ := hmem other (List.mem_cons_of_mem _ hother)
      exact ⟨held, hmoved held hheld (by rw [hown, hid]; exact hapart other hother), hown,
        hheldLive⟩
    obtain ⟨hsound, halike, houtcome⟩ := ih hdoes.sound hrows.2 hlater hwrite
    refine ⟨hsound, ?_, ?_⟩
    · intro id hfree
      have hne : id ≠ row.id := fun heq => hfree target List.mem_cons_self (hid.symm.trans heq.symm)
      exact (hdoes.others id hne).trans
        (halike id fun other hother => hfree other (List.mem_cons_of_mem _ hother))
    · intro other hother held hheld hown
      rcases List.mem_cons.1 hother with rfl | hrest
      · obtain rfl : held = row :=
          List.inj_on_of_nodup_map h.wf.items hheld hrow (hown.trans hid.symm)
        exact hdoes.outcome_of_alike hdoes.sound.wf
          (halike held.id fun later hlater => by rw [hid]; exact hapart later hlater)
      · have hne : held.id ≠ row.id := by
          rw [hown, hid]
          exact hapart other hrest
        have hstep := hdoes.others held.id hne
        rcases houtcome other hrest held (hmoved held hheld hne) hown with
          ⟨hrest, hiff⟩ | ⟨hfresh, hlast⟩
        · refine Or.inl ⟨hstep.trans hrest, ?_⟩
          exact ⟨fun hp => hstep.symm.fresh (hiff.1 (hstep.published hp)),
            fun hf => hstep.symm.published (hiff.2 (hstep.fresh hf))⟩
        · exact Or.inr ⟨hstep.symm.fresh hfresh, hlast⟩

end Write

section GestureStep

variable (hlaws : Laws sys) {clock : Clock} {store after : Store} {g : Gesture}

theorem nextPinStamp_nonneg {row : ItemRow} (h : 0 ≤ row.pinUpdatedAt) :
    0 ≤ nextPinStamp clock row := by
  unfold nextPinStamp saturatingSucc
  omega

/-- The rows restamped keep the store sound. -/
theorem Sound.restamped (h : Sound sys store) (g : Gesture) :
    Sound sys (mapItems store (g.restamp clock store)) := by
  refine ⟨⟨?_, h.wf.records, ?_, h.wf.recordIds⟩, h.exact.withItems _, h.stamps, ?_⟩
  · show ((store.items.map (g.restamp clock store)).map ItemRow.id).Nodup
    rw [g.map_id_restamp h.wf.items]
    exact h.wf.items
  · intro row hrow
    obtain ⟨old, hold, rfl⟩ := List.mem_map.1 hrow
    rw [g.restamp_id h.wf.items hold]
    exact h.wf.itemIds old hold
  · intro row hrow
    obtain ⟨old, hold, rfl⟩ := List.mem_map.1 hrow
    unfold Gesture.restamp
    cases hlookup : lookup ItemRow.id (g.given clock store) old.id with
    | none => exact h.bounds old hold
    | some given =>
      obtain ⟨target, htarget, -, -, hstamp⟩ := Gesture.mem_given (lookup_eq_some hlookup).1
      rw [Option.getD_some, hstamp]
      exact nextPinStamp_nonneg (h.bounds target (Gesture.mem_targets htarget).1)

/-- What a gesture leaves: the rows beside its targets as they were, and the outcome of a
write for each target. -/
structure Does (sys : Organizer) (clock : Clock) (g : Gesture) (store after : Store) : Prop where
  sound : Sound sys after
  others : ∀ id, (∀ target ∈ g.targets store, target.id ≠ id) → Alike sys store after id
  outcome : ∀ target ∈ g.targets store,
    Outcome sys (mapItems store (g.restamp clock store)) after (g.restamp clock store target)

include hlaws in
theorem gesture_does (h : Sound sys store) (hrun : g.run sys clock store = .ok after) :
    Does sys clock g store after := by
  rw [g.run_eq sys h.wf.items] at hrun
  have hmem : ∀ target ∈ g.targets store,
      g.restamp clock store target ∈ (mapItems store (g.restamp clock store)).items ∧
        (g.restamp clock store target).id = target.id ∧
        (g.restamp clock store target).deleted = false := by
    intro target htarget
    obtain ⟨hrow, hlive⟩ := Gesture.mem_targets htarget
    have hcontent := @Gesture.unpinned_restamp clock store g target h.wf.items hrow
    have hdeleted := congrArg ItemRow.deleted hcontent
    exact ⟨List.mem_map_of_mem hrow, g.restamp_id h.wf.items hrow, hdeleted.trans hlive⟩
  obtain ⟨hsound, hothers, houtcome⟩ := writePins_do hlaws (h.restamped g)
    (g.nodup_targets h.wf.items) (fun target htarget => ⟨_, hmem target htarget⟩) hrun
  refine ⟨hsound, fun id hfree => ?_, fun target htarget =>
    houtcome target htarget _ (hmem target htarget).1 (hmem target htarget).2.1⟩
  have hrestamped : Alike sys store (mapItems store (g.restamp clock store)) id :=
    ⟨g.lookup_restamp h.wf.items hfree, rfl, rfl⟩
  exact hrestamped.trans (hothers id hfree)

/-- Of a target and its outcome: the row it has now, live and under its id. -/
theorem Does.row_of_target (h : Does sys clock g store after) (hsound : Sound sys store)
    {target row : ItemRow} (htarget : target ∈ g.targets store) (hrow : row ∈ after.items)
    (hid : row.id = target.id) :
    row.deleted = false ∧
      (row = g.restamp clock store target ∧
          Alike sys (mapItems store (g.restamp clock store)) after row.id ∧
          (Published sys store row ↔ Fresh sys store row) ∨
        Fresh sys store (g.restamp clock store target) ∧ Published sys after row) := by
  obtain ⟨hmem, hlive⟩ := Gesture.mem_targets htarget
  have hcontent := @Gesture.unpinned_restamp clock store g target hsound.wf.items hmem
  have hdeleted := congrArg ItemRow.deleted hcontent
  have hown := @Gesture.restamp_id clock store g target hsound.wf.items hmem
  rcases h.outcome target htarget with ⟨halike, hiff⟩ | ⟨hfresh, last, hlast, hlastId, hlastLive, hsaid⟩
  · have hkept : g.restamp clock store target ∈ after.items :=
      halike.symm.mem (hsound.restamped g).wf (List.mem_map_of_mem hmem)
    obtain rfl : row = g.restamp clock store target :=
      List.inj_on_of_nodup_map h.sound.wf.items hrow hkept (hid.trans hown.symm)
    exact ⟨hdeleted.trans hlive, Or.inl ⟨rfl, halike, hiff⟩⟩
  · obtain rfl : row = last := List.inj_on_of_nodup_map h.sound.wf.items hrow hlast
      (hid.trans (hown.symm.trans hlastId.symm))
    exact ⟨hlastLive, Or.inr ⟨hfresh, hsaid⟩⟩

/-- A gesture publishes what it changes exactly when it leaves no record behind. -/
theorem Does.changesPublished_iff (h : Does sys clock g store after) (hsound : Sound sys store) :
    ChangesPublished sys store after ↔ AllFresh sys store clock g := by
  constructor
  · intro hpublished given hgiven hchanges
    obtain ⟨target, htarget, rfl⟩ := Gesture.exists_restamp hsound.wf.items hgiven
    obtain ⟨hmem, hlive⟩ := Gesture.mem_targets htarget
    rcases h.outcome target htarget with ⟨halike, hiff⟩ | ⟨hfresh, -⟩
    · have hkept : g.restamp clock store target ∈ after.items :=
        halike.symm.mem (hsound.restamped g).wf (List.mem_map_of_mem hmem)
      have hnow := (h.row_of_target hsound htarget hkept
        (g.restamp_id hsound.wf.items hmem)).1
      exact hiff.1 (halike.symm.published (hpublished _ hkept hnow hchanges))
    · exact hfresh
  · intro hfresh row hrow hlive hchanges
    by_cases htarget : ∃ target ∈ g.targets store, target.id = row.id
    · obtain ⟨target, htarget, hid⟩ := htarget
      have hmem := (Gesture.mem_targets htarget).1
      rcases (h.row_of_target hsound htarget hrow hid.symm).2 with
        ⟨rfl, halike, hiff⟩ | ⟨-, hpublished⟩
      · refine halike.published (hiff.2 ?_)
        rcases g.restamp_cases clock store target with heq | hgiven
        · obtain ⟨old, hold, holdId, hne⟩ := hchanges
          obtain rfl : old = target :=
            List.inj_on_of_nodup_map hsound.wf.items hold hmem (holdId.trans hid.symm)
          exact absurd (congrArg pinOf heq.symm) hne
        · exact hfresh _ hgiven hchanges
      · exact hpublished
    · push Not at htarget
      have hsame := (h.others row.id htarget).mem h.sound.wf hrow
      obtain ⟨old, hold, hid, hne⟩ := hchanges
      obtain rfl := List.inj_on_of_nodup_map hsound.wf.items hold hsame hid
      exact absurd rfl hne

theorem rests_congr {row other : ItemRow} (hid : row.id = other.id)
    (hdeleted : row.deleted = other.deleted) (hpin : pinOf row = pinOf other) :
    Rests store row ↔ Rests store other := by
  unfold Rests
  rw [hid, hdeleted, hpin]
  obtain ⟨hpinned, hrest⟩ := Prod.mk.inj hpin
  obtain ⟨horder, hstamp⟩ := Prod.mk.inj hrest
  rw [hpinned, horder, hstamp]

/-- A gesture that leaves no record behind leaves every row on its record. -/
theorem Settled.gesture (h : Settled sys store) (hdoes : Does sys clock g store after)
    (hfresh : AllFresh sys store clock g) : Settled sys after := by
  have hpublished := (hdoes.changesPublished_iff h.toSound).2 hfresh
  refine ⟨hdoes.sound, ?_⟩
  intro row hrow
  by_cases htarget : ∃ target ∈ g.targets store, target.id = row.id
  · obtain ⟨target, htarget, hid⟩ := htarget
    obtain ⟨hmem, htargetLive⟩ := Gesture.mem_targets htarget
    obtain ⟨hlive, hcase⟩ := hdoes.row_of_target h.toSound htarget hrow hid.symm
    have hrests : Published sys after row → Rests after row := fun hp =>
      ((published_iff hdoes.sound.exact hlive).1 hp).2
    by_cases hsame : pinOf target = pinOf row
    · rcases hcase with ⟨-, halike, -⟩ | ⟨-, hsaid⟩
      · refine halike.rests ?_
        exact (rests_congr hid.symm (hlive.trans htargetLive.symm) hsame.symm).2 (h.rows target hmem)
      · exact hrests hsaid
    · exact hrests (hpublished row hrow hlive ⟨target, hmem, hid, hsame⟩)
  · push Not at htarget
    have halike := hdoes.others row.id htarget
    exact halike.rests (h.rows row (halike.mem hdoes.sound.wf hrow))

end GestureStep

section Merges

variable (hlaws : Laws sys) {store after : Store}

include hlaws in
/-- Records with stamps from zero leave every row on its record. -/
theorem Settled.merge (h : Settled sys store) {page : List RemoteVersion} {stored : List Bool}
    (hpage : ∀ version ∈ page, version.contentType = recordContentType ∧ 0 ≤ version.createdAt)
    (hmerge : applyRemoteVersions sys.host store page = .ok (after, stored)) :
    Settled sys after := by
  unfold applyRemoteVersions at hmerge
  obtain ⟨⟨next, applied⟩, hok, hmerge⟩ := bind_ok_iff.1 hmerge
  obtain ⟨rfl, -⟩ := Prod.mk.inj (Except.ok.inj hmerge)
  refine applyPage_onward ?_ (fun store h => h.wf) ?_ h hok
  · intro store incoming pin hmem hpin
    obtain ⟨item, -, rfl⟩ := List.mem_map.1 hmem
    cases hpin
  · intro store incoming pin held ready hmem hready hnewest h
    obtain ⟨item, hitem, rfl⟩ := List.mem_map.1 hmem
    obtain ⟨hkind, hstamp⟩ := hpage item hitem
    obtain ⟨rfl, -, -⟩ := prepareRemoteVersion_eq_some hready
    rcases @upsert_record sys.host (prepared sys.host item pin held).toIncomingItem hkind with
      heq | ⟨text, record, htext, hwire, hrecord, heq⟩
    · rw [heq]
      exact h
    · rw [heq]
      have htext' : organizationText item = some text := by
        rw [← htext]
        exact (if_pos hkind).symm
      have hrecordId := isRecordId_of_validWire sys.host hwire
      obtain ⟨hvalid, hid, hsize⟩ := valid_of_validWire hwire hrecord
      obtain ⟨payload, hpayload, hopens⟩ :=
        opens_prepared hlaws.opens pin held hkind hrecordId.2 htext' hsize
      have hdecode := (decode_recordRow hpayload hopens).trans hrecord
      exact h.recorded hlaws.keys hdecode hvalid hid hrecordId.1 hstamp hnewest

theorem Sound.pin_nonneg (h : Sound sys store) {id : String} {pin : PinState}
    (hpin : lookup PinState.clipId store.pinStates id = some pin) : 0 ≤ pin.updatedAt := by
  obtain ⟨-, held, hheld, -, hstamp⟩ := (lookup_pinStates_iff h.exact).1 hpin
  rw [← hstamp]
  exact h.stamps held (lookup_eq_some hheld).1

/-- The pin of a row that rests is none where no pin is recorded, and else not above it. -/
theorem Settled.bounded (h : Settled sys store) {row : ItemRow} (hrow : row ∈ store.items) :
    match lookup PinState.clipId store.pinStates row.id with
    | none => pinOf row = (false, none, 0)
    | some pin => row.pinUpdatedAt ≤ pin.updatedAt := by
  have hrests := h.rows row hrow
  unfold Rests at hrests
  cases hpin : lookup PinState.clipId store.pinStates row.id with
  | none =>
    rw [hpin, ite_self] at hrests
    exact hrests
  | some pin =>
    cases hdeleted : row.deleted with
    | true =>
      rw [hdeleted, if_pos rfl] at hrests
      have hzero : row.pinUpdatedAt = 0 := congrArg (fun pin => pin.2.2) hrests
      exact hzero.le.trans (h.pin_nonneg hpin)
    | false =>
      rw [hdeleted, if_neg (by simp), hpin] at hrests
      exact hrests.2.2

/-- A row whose pin is that of the row before it rests where that row rests. -/
theorem Settled.written (h : Settled sys store) {incoming : IncomingItem}
    (hwf : WellFormed (written sys.host store incoming))
    (hpin : incoming.deleted = true ∨
      (incoming.pinned, incoming.pinOrder, incoming.pinUpdatedAt) = (false, none, 0) ∨
      ∃ old ∈ store.items, old.id = incoming.id ∧
        (incoming.pinned, incoming.pinOrder, incoming.pinUpdatedAt) = pinOf old) :
    Settled sys (written sys.host store incoming) := by
  generalize hnew : (store.rowOf sys.host incoming).1 = row
  have hid : row.id = incoming.id := hnew ▸ rfl
  have hdeleted : row.deleted = incoming.deleted := hnew ▸ rfl
  have hpinOf : pinOf row = if incoming.deleted then (false, none, 0)
      else (incoming.pinned, incoming.pinOrder, incoming.pinUpdatedAt) := by
    subst hnew
    show ((!incoming.deleted && incoming.pinned),
      (if incoming.deleted then none else incoming.pinOrder),
      if incoming.deleted then 0 else incoming.pinUpdatedAt) = _
    cases incoming.deleted <;> rfl
  have hsource : pinOf row = (false, none, 0) ∨
      ∃ old ∈ store.items, old.id = row.id ∧ pinOf row = pinOf old := by
    cases hgone : incoming.deleted with
    | true =>
      rw [hgone, if_pos rfl] at hpinOf
      exact Or.inl hpinOf
    | false =>
      rw [hgone, if_neg (by simp)] at hpinOf
      rcases hpin with hgone' | hnone | ⟨old, hold, holdId, hsame⟩
      · rw [hgone] at hgone'
        cases hgone'
      · exact Or.inl (hpinOf.trans hnone)
      · exact Or.inr ⟨old, hold, holdId.trans hid.symm, hpinOf.trans hsame⟩
  have hnonneg : 0 ≤ row.pinUpdatedAt := by
    rcases hsource with hnone | ⟨old, hold, -, hsame⟩
    · exact (congrArg (fun pin => pin.2.2) hnone).ge
    · exact (h.bounds old hold).trans (congrArg (fun pin => pin.2.2) hsame).ge
  refine ⟨⟨hwf, (h.exact.withItems _).withIcons _, h.stamps, ?_⟩, ?_⟩
  · intro other hother
    rcases (mem_put _ _ _).1 hother with ⟨hmem, -⟩ | rfl
    · exact h.bounds other hmem
    · rw [hnew]
      unfold projected
      split
      · exact hnonneg
      · rename_i pin hlookup
        rcases onto_cases pin row with ⟨heq, -⟩ | ⟨heq, -⟩
        · rw [heq]
          exact hnonneg
        · exact (h.pin_nonneg hlookup).trans (congrArg (fun pin => pin.2.2) heq).ge
  · intro other hother
    rcases (mem_put _ _ _).1 hother with ⟨hmem, -⟩ | rfl
    · exact h.rows other hmem
    · rw [hnew]
      have hdead : row.deleted = true → pinOf row = (false, none, 0) := by
        intro hgone
        rw [hpinOf, ← hdeleted, hgone, if_pos rfl]
      have hbounded : match lookup PinState.clipId store.pinStates row.id with
          | none => pinOf row = (false, none, 0)
          | some pin => row.pinUpdatedAt ≤ pin.updatedAt := by
        rcases hsource with hnone | ⟨old, hold, holdId, hsame⟩
        · cases hlookup : lookup PinState.clipId store.pinStates row.id with
          | none => exact hnone
          | some pin => exact (congrArg (fun pin => pin.2.2) hnone).le.trans (h.pin_nonneg hlookup)
        · have hstamp : row.pinUpdatedAt = old.pinUpdatedAt :=
            congrArg (fun pin => pin.2.2) hsame
          rw [hsame, hstamp, ← holdId]
          exact h.bounded hold
      show Rests store (projected store.pinStates row)
      unfold projected
      cases hlookup : lookup PinState.clipId store.pinStates row.id with
      | none =>
        rw [hlookup] at hbounded
        unfold Rests
        rw [hlookup, ite_self]
        exact hbounded
      | some pin =>
        rw [hlookup] at hbounded
        show Rests store (pin.onto row)
        unfold Rests
        rcases onto_cases pin row with ⟨heq, hgone | hlt⟩ | ⟨heq, hlive, -⟩
        · rw [heq, hgone, if_pos rfl]
          exact hdead hgone
        · exact absurd hbounded (not_le.2 hlt)
        · have hkept : (pin.onto row).deleted = false := by
            unfold PinState.onto
            split <;> exact hlive
          rw [hkept, if_neg (by simp), onto_id, hlookup]
          obtain ⟨hpinned, hrest⟩ := Prod.mk.inj heq
          obtain ⟨horder, hstamp⟩ := Prod.mk.inj hrest
          exact ⟨hpinned, horder, hstamp.le⟩

/-- A version of an item is written with the pin of its row. -/
theorem Settled.item (h : Settled sys store) {version : RemoteVersion} {stored : Bool}
    (hkind : version.contentType ≠ recordContentType)
    (happly : applyRemoteVersion sys.host store version = .ok (after, stored)) :
    Settled sys after := by
  unfold applyRemoteVersion at happly
  split at happly
  · obtain ⟨rfl, -⟩ := Prod.mk.inj (Except.ok.inj happly)
    exact h
  · rcases applyRemoteVersionWithPinState_eq_ok sys.host happly with rfl | ⟨ready, hready, rfl⟩
    · exact h
    · obtain ⟨rfl, -, -⟩ := prepareRemoteVersion_eq_some hready
      generalize hincoming : (prepared sys.host version none
        (store.versionSummary version.itemId)).toIncomingItem = incoming
      have hown : incoming.contentType ≠ recordContentType := hincoming ▸ hkind
      cases hid : isRecordId incoming.id with
      | true =>
        unfold Store.upsert
        rw [if_neg hown, if_pos hid]
        exact h
      | false =>
        have hwf := wellFormed_upsert sys.host h.wf incoming
        rw [upsert_item sys.host hown hid] at hwf ⊢
        split
        · rename_i hfits
          rw [if_pos hfits] at hwf
          refine h.written hwf ?_
          subst hincoming
          show version.deleted = true ∨ mergedPin version none
              (store.versionSummary version.itemId) = (false, none, 0) ∨
            ∃ old ∈ store.items, old.id = version.itemId ∧ mergedPin version none
              (store.versionSummary version.itemId) = pinOf old
          have hitem : isRecordId version.itemId = false := hid
          rw [versionSummary_item h.wf hitem]
          unfold mergedPin
          cases hgone : version.deleted with
          | true => exact Or.inl rfl
          | false =>
            right
            rw [if_neg (by simp)]
            cases hlookup : lookup ItemRow.id store.items version.itemId with
            | none => exact Or.inl rfl
            | some old =>
              exact Or.inr ⟨old, (lookup_eq_some hlookup).1, (lookup_eq_some hlookup).2, rfl⟩
        · exact h

end Merges

end Settled

section Runs

variable {D : Type} [DecidableEq D] {sites : D → Organizer}

/-- What every state of a run satisfies: rows on their records, and records under way that
are records. -/
structure Inv (sites : D → Organizer) (s : Fleet D) : Prop where
  settled : ∀ device, Settled (sites device) (s.stores device)
  published : ∀ version ∈ s.published,
    version.contentType = recordContentType ∧ 0 ≤ version.createdAt

theorem serve_eq_some {sys : Organizer} {held : RecordRow} {version : RemoteVersion}
    (h : serve sys held = some version) :
    version.contentType = recordContentType ∧ version.createdAt = held.createdAt := by
  unfold serve at h
  obtain ⟨payload, -, h⟩ := Option.bind_eq_some_iff.1 h
  obtain ⟨bytes, -, h⟩ := Option.bind_eq_some_iff.1 h
  obtain rfl := Option.some.inj h
  exact ⟨rfl, rfl⟩

variable {s : Fleet D}

theorem Inv.after (h : Inv sites s) {device : D} {store : Store}
    (hstore : Settled (sites device) store) : Inv sites (s.after sites device store) := by
  refine ⟨fun other => ?_, fun version hversion => ?_⟩
  · by_cases hother : other = device
    · subst hother
      show Settled (sites other) (Function.update s.stores other store other)
      rw [Function.update_self]
      exact hstore
    · show Settled (sites other) (Function.update s.stores device store other)
      rw [Function.update_of_ne hother]
      exact h.settled other
  · rcases List.mem_append.1 hversion with hold | hnew
    · exact h.published version hold
    · obtain ⟨held, hheld, hserve⟩ := List.mem_filterMap.1 hnew
      obtain ⟨hkind, hstamp⟩ := serve_eq_some hserve
      exact ⟨hkind, hstamp ▸ hstore.stamps held hheld⟩

theorem inv_start (h : (machine sites).start s) : Inv sites s := by
  obtain ⟨hstores, hpublished⟩ := h
  refine ⟨fun device => ⟨(hstores device).toSound, fun row hrow => ?_⟩, by simp [hpublished]⟩
  unfold Rests
  rw [(hstores device).pinStates]
  have hnone : (if row.deleted then none else lookup PinState.clipId [] row.id) = none := ite_self _
  rw [hnone]
  exact (hstores device).rows row hrow

theorem inv_step (hlaws : ∀ device, Laws (sites device)) {s' : Fleet D} {op : Op D}
    (h : Inv sites s) (hfresh : FreshOp sites s op) (hstep : (machine sites).step s op = some s') :
    Inv sites s' := by
  cases op with
  | gesture device clock g =>
    change (match g.run (sites device) clock (s.stores device) with
      | .error _ => some s
      | .ok store => some (s.after sites device store)) = some s' at hstep
    cases hrun : g.run (sites device) clock (s.stores device) with
    | error e =>
      rw [hrun] at hstep
      obtain rfl := Option.some.inj hstep
      exact h
    | ok store =>
      rw [hrun] at hstep
      obtain rfl := Option.some.inj hstep
      have hdoes := gesture_does (hlaws device) (h.settled device).toSound hrun
      exact h.after ((h.settled device).gesture hdoes hfresh)
  | merge device page =>
    change (if ∀ version ∈ page, version ∈ s.published then
        match applyRemoteVersions (sites device).host (s.stores device) page with
        | .error _ => some s
        | .ok (store, _) => some (s.after sites device store)
      else none) = some s' at hstep
    split at hstep
    · rename_i hpage
      cases hmerge : applyRemoteVersions (sites device).host (s.stores device) page with
      | error e =>
        rw [hmerge] at hstep
        obtain rfl := Option.some.inj hstep
        exact h
      | ok answer =>
        rw [hmerge] at hstep
        obtain rfl := Option.some.inj hstep
        exact h.after ((h.settled device).merge (hlaws device)
          (fun version hversion => h.published version (hpage version hversion)) hmerge)
    · cases hstep
  | item device version =>
    change (if version.contentType = recordContentType then none
      else
        match applyRemoteVersion (sites device).host (s.stores device) version with
        | .error _ => some s
        | .ok (store, _) => some (s.after sites device store)) = some s' at hstep
    split at hstep
    · cases hstep
    · rename_i hkind
      cases happly : applyRemoteVersion (sites device).host (s.stores device) version with
      | error e =>
        rw [happly] at hstep
        obtain rfl := Option.some.inj hstep
        exact h
      | ok answer =>
        rw [happly] at hstep
        obtain rfl := Option.some.inj hstep
        exact h.after ((h.settled device).item hkind happly)

theorem machine_step (sites : D → Organizer) (s : Fleet D) (op : Op D) :
    (machine sites).step s op = step sites s op := rfl

/-- The induction over a run. -/
theorem inv_of_reaches (hlaws : ∀ device, Laws (sites device))
    (hs : Reaches (machine sites) (FreshOp sites) s) : Inv sites s :=
  hs.invariant (fun _ h => inv_start h) fun _ _ _ h hfresh hstep => inv_step hlaws h hfresh hstep

/-- A live row of a clip with a record has the pin the record says. -/
theorem Settled.pin_of_record {sys : Organizer} (hkeys : NoKeyCollision sys.host) {store : Store}
    (h : Settled sys store) {held : RecordRow} {row : ItemRow} (hrow : row ∈ store.items)
    (hlive : row.deleted = false) (hheld : heldRecord sys store row.id = some held) :
    decode sys held = some (pinRecord row) := by
  obtain ⟨hmem, hid⟩ := lookup_eq_some hheld
  obtain ⟨record, hdecode, -, hown⟩ := h.exact.readable held hmem
  have hslot : slot record = .pin row.id := slot_of_id hkeys (hown.trans hid)
  cases record with
  | tag | membership => cases hslot
  | pin clipId pinned order =>
    obtain rfl := Slot.pin.inj hslot
    have hpin : lookup PinState.clipId store.pinStates row.id =
        some ⟨row.id, pinned, order, held.createdAt⟩ :=
      (lookup_pinStates_iff h.exact).2 ⟨rfl, held, hheld, hdecode, rfl⟩
    have hrests := h.rows row hrow
    unfold Rests at hrests
    rw [hlive, if_neg (by simp), hpin] at hrests
    rw [hdecode, pinRecord, hrests.1, hrests.2.1]

end Runs

/-- As long as no gesture leaves a record behind, a gesture publishes what it changes exactly
when it leaves none behind either, and devices with the same record of a clip's pin agree
on the pin of the clip. -/
theorem gestures_published {D : Type} [DecidableEq D] {sites : D → Organizer}
    (hlaws : ∀ device, Laws (sites device)) {s : Fleet D}
    (hs : Reaches (machine sites) (FreshOp sites) s) :
    (∀ device clock g after, g.run (sites device) clock (s.stores device) = .ok after →
      (ChangesPublished (sites device) (s.stores device) after ↔
        AllFresh (sites device) (s.stores device) clock g)) ∧
    ∀ device other clipId,
      (pinVersion (sites device) (s.stores device) clipId).isSome →
      pinVersion (sites device) (s.stores device) clipId =
        pinVersion (sites other) (s.stores other) clipId →
      ∀ row ∈ (s.stores device).items, ∀ row' ∈ (s.stores other).items,
        row.id = clipId → row'.id = clipId → row.deleted = false → row'.deleted = false →
          (row.pinned, row.pinOrder) = (row'.pinned, row'.pinOrder) := by
  have h := inv_of_reaches hlaws hs
  refine ⟨?_, ?_⟩
  · intro device clock g after hrun
    have hsound := (h.settled device).toSound
    exact (gesture_does (hlaws device) hsound hrun).changesPublished_iff hsound
  · intro device other clipId hsome hsame row hrow row' hrow' hid hid' hlive hlive'
    subst hid
    obtain ⟨version, hversion⟩ := Option.isSome_iff_exists.1 hsome
    obtain ⟨held, hheld, rfl⟩ := Option.map_eq_some_iff.1 hversion
    obtain ⟨held', hheld', hagree⟩ := Option.map_eq_some_iff.1 (hsame.symm.trans hversion)
    rw [← hid'] at hheld'
    have hpin := (h.settled device).pin_of_record (hlaws device).keys hrow hlive hheld
    have hpin' := (h.settled other).pin_of_record (hlaws other).keys hrow' hlive' hheld'
    have hdecoded := congrArg Prod.snd hagree
    rw [hpin, hpin', Option.some.injEq] at hdecoded
    obtain ⟨-, hpinned, horder⟩ := Record.pin.inj hdecoded
    rw [hpinned, horder]

/-- A site for concrete runs: a pin is written as a sign and the clip's id, and read with
the first order. -/
def pinSite : Organizer where
  host :=
    { sampleHost with
      parseRecord := fun text =>
        match text.toList with
        | '+' :: rest => some (.pin (String.ofList rest) true (some (asDouble 1)))
        | '-' :: rest => some (.pin (String.ofList rest) false none)
        | _ => none }
  render := fun record =>
    match record with
    | .pin clipId true _ => "+" ++ clipId
    | .pin clipId false _ => "-" ++ clipId
    | _ => ""
  openBinary := fun bytes _ => some bytes

theorem laws_pinSite : Laws pinSite where
  keys := noKeyCollision_sample
  opens := fun _ _ _ => rfl
  fits := by
    intro clipId pinned order hvalid
    have hsize : clipId.utf8ByteSize ≤ 128 := by
      simp only [Record.valid, validIdentifier, Bool.and_eq_true, decide_eq_true_eq] at hvalid
      exact hvalid.1.1.2
    have hsign : (pinSite.render (.pin clipId pinned order)).utf8ByteSize =
        1 + clipId.utf8ByteSize := by
      cases pinned
      · exact String.utf8ByteSize_append
      · exact String.utf8ByteSize_append
    rw [hsign]
    unfold maxRecordBytes
    omega
  reads := by
    intro clipId pinned order hvalid
    have hclip : validIdentifier clipId = true := by
      simp only [Record.valid, Bool.and_eq_true] at hvalid
      exact hvalid.1
    cases pinned with
    | true =>
      refine ⟨some (asDouble 1), ?_, ?_⟩
      · show (match ("+" ++ clipId).toList with
          | '+' :: rest => some (Record.pin (String.ofList rest) true (some (asDouble 1)))
          | '-' :: rest => some (Record.pin (String.ofList rest) false none)
          | _ => none) = _
        rw [String.toList_append]
        simp
      · have hfinite : isFinite (asDouble 1) = true := by decide +kernel
        simp [Record.valid, hclip, hfinite]
    | false =>
      refine ⟨none, ?_, ?_⟩
      · show (match ("-" ++ clipId).toList with
          | '+' :: rest => some (Record.pin (String.ofList rest) true (some (asDouble 1)))
          | '-' :: rest => some (Record.pin (String.ofList rest) false none)
          | _ => none) = _
        rw [String.toList_append]
        simp
      · simp [Record.valid, hclip]

def clipFleet {D : Type} : Fleet D where
  stores := fun _ =>
    { items := [⟨"a", some ([], []), "text/plain", "a", false, none, 0, 1, false, "", none, none,
        none, none⟩] }
  published := []

def pinClip : Op Unit :=
  .gesture () ⟨fun _ => 1, fun _ => 1⟩ (.pin "a" true)

def pinnedFleet : Fleet Unit :=
  (step (fun _ => pinSite) clipFleet pinClip).getD clipFleet

theorem step_pinClip : step (fun _ => pinSite) clipFleet pinClip = some pinnedFleet := by
  have hsome : (step (fun _ => pinSite) clipFleet pinClip).isSome = true := by decide +kernel
  unfold pinnedFleet
  generalize step (fun _ => pinSite) clipFleet pinClip = state at hsome ⊢
  obtain ⟨next, rfl⟩ := Option.isSome_iff_exists.1 hsome
  rfl

theorem start_clipFleet {D : Type} [DecidableEq D] :
    (machine fun _ : D => pinSite).start clipFleet := by
  refine ⟨fun _ => ⟨⟨?_, ?_, by simp [clipFleet], by simp [clipFleet]⟩, rfl,
    by simp [clipFleet, pinOf]⟩, rfl⟩
  · exact ⟨by simp [clipFleet], by simp [clipFleet], by simp [clipFleet]; decide,
      by simp [clipFleet]⟩
  · refine ⟨?_, ?_, ?_, ?_, ?_, ?_, ?_, ?_⟩ <;> simp [clipFleet]

theorem reaches_pinnedFleet {allowed : Fleet Unit → Op Unit → Prop}
    (hallowed : allowed clipFleet pinClip) :
    Reaches (machine fun _ : Unit => pinSite) allowed pinnedFleet :=
  (Reaches.start clipFleet start_clipFleet).next pinClip hallowed
    ((machine_step _ clipFleet pinClip).trans step_pinClip)

/-- The clip is pinned, and the pinned clips, this one, are put in the order they have. -/
theorem repeated_order_unpublished : ¬ ∀ (s : Fleet Unit) (device : Unit) (clock : Clock)
    (g : Gesture) (after : Store),
    Reaches (machine fun _ : Unit => pinSite) (fun _ _ => True) s →
    g.run pinSite clock (s.stores device) = .ok after →
    ChangesPublished pinSite (s.stores device) after := by
  intro hclaim
  have hbehind : (((Gesture.reorder ["a"]).run pinSite ⟨fun _ => 2, fun _ => 2⟩
      (pinnedFleet.stores ())).toOption.any fun after =>
        decide (∃ row ∈ after.items, row.deleted = false ∧
          (∃ old ∈ (pinnedFleet.stores ()).items, old.id = row.id ∧ pinOf old ≠ pinOf row) ∧
          ((heldRecord pinSite after row.id).all fun held =>
            decide (held.createdAt < row.pinUpdatedAt)) = true)) = true := by
    decide +kernel
  rw [Option.any_eq_true] at hbehind
  obtain ⟨after, hafter, hbehind⟩ := hbehind
  obtain ⟨row, hrow, hlive, hchanges, hbelow⟩ := of_decide_eq_true hbehind
  have hrun : (Gesture.reorder ["a"]).run pinSite ⟨fun _ => 2, fun _ => 2⟩
      (pinnedFleet.stores ()) = .ok after := by
    cases hcase : (Gesture.reorder ["a"]).run pinSite ⟨fun _ => 2, fun _ => 2⟩
        (pinnedFleet.stores ()) with
    | error e =>
      rw [hcase] at hafter
      cases hafter
    | ok next =>
      rw [hcase] at hafter
      exact congrArg Except.ok (Option.some.inj hafter)
  obtain ⟨held, hheld, -, hle⟩ :=
    hclaim pinnedFleet () _ _ after (reaches_pinnedFleet trivial) hrun row hrow hlive hchanges
  rw [hheld, Option.all_some, decide_eq_true_eq] at hbelow
  exact absurd hle (not_le.2 hbelow)

def pinHeard : RemoteVersion where
  itemId := (Record.pin "a" true none).id pinSite.host
  content := ""
  binaryContent := some (utf8 "+a")
  payloadMetadata := none
  contentType := recordContentType
  createdAt := 1
  deleted := false
  contentHash := some (pinSite.host.sha256 (utf8 "+a"))
  originDeviceId := "laptop"
  appBundleId := none
  appName := none

def pinPassedOn : List (Op Bool) :=
  [.gesture false ⟨fun _ => 1, fun _ => 1⟩ (.pin "a" true), .merge true [pinHeard]]

def sharedFleet : Fleet Bool :=
  (run (machine fun _ => pinSite) clipFleet pinPassedOn).getD clipFleet

/-- The first pin of a clip, and another device that merges its record: both have it. -/
theorem gestures_published_merged :
    ((sharedFleet.stores true).items.map pinOf = [(true, some (asDouble 1), 1)] ∧
      (pinVersion pinSite (sharedFleet.stores true) "a").isSome ∧
      pinVersion pinSite (sharedFleet.stores true) "a" =
        pinVersion pinSite (sharedFleet.stores false) "a") ∧
    (∀ device clock g after, g.run pinSite clock (sharedFleet.stores device) = .ok after →
      (ChangesPublished pinSite (sharedFleet.stores device) after ↔
        AllFresh pinSite (sharedFleet.stores device) clock g)) ∧
    ∀ device other clipId,
      (pinVersion pinSite (sharedFleet.stores device) clipId).isSome →
      pinVersion pinSite (sharedFleet.stores device) clipId =
        pinVersion pinSite (sharedFleet.stores other) clipId →
      ∀ row ∈ (sharedFleet.stores device).items, ∀ row' ∈ (sharedFleet.stores other).items,
        row.id = clipId → row'.id = clipId → row.deleted = false → row'.deleted = false →
          (row.pinned, row.pinOrder) = (row'.pinned, row'.pinOrder) := by
  have hreached : Reaches (machine fun _ : Bool => pinSite) (FreshOp fun _ => pinSite)
      sharedFleet := by
    refine (Reaches.start clipFleet start_clipFleet).of_run_getD pinPassedOn ⟨?_, ?_⟩ ?_ _
    · intro row _ _ held hheld
      cases hheld
    · exact fun _ _ => ⟨trivial, fun _ _ => trivial⟩
    · decide +kernel
  exact ⟨by decide +kernel, gestures_published (fun _ => laws_pinSite) hreached⟩

end CopyPaste.Organization.Pinned
