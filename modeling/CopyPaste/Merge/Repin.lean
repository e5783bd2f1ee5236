import CopyPaste.Merge.Effects

/-!
Pin writes against content writes. A pin state changes no content, so it can be
stored before or after the content of other ids; the exception is an organization
record that pins the same clip at or above its stamp.
-/

namespace CopyPaste.Merge.Repin

open Lib.Rows Comparator Payload Storage Prepare Batch Effects Upload.Scanning

/-- A row without its pin state. -/
def unpinned (row : ItemRow) : ItemRow :=
  { row with pinned := false, pinOrder := none, pinUpdatedAt := 0 }

/-- A change of pin states on the rows of one id. -/
structure Repins (id : String) (f : ItemRow → ItemRow) : Prop where
  others : ∀ row, row.id ≠ id → f row = row
  content : ∀ row, unpinned (f row) = unpinned row

section Fields

variable {id : String} {f : ItemRow → ItemRow} (hf : Repins id f) (row : ItemRow)

include hf

theorem Repins.rowId : (f row).id = row.id := by
  have h := congrArg ItemRow.id (hf.content row)
  exact h

theorem Repins.contentHash : (f row).contentHash = row.contentHash := by
  have h := congrArg ItemRow.contentHash (hf.content row)
  exact h

theorem Repins.payloadMetadata : (f row).payloadMetadata = row.payloadMetadata := by
  have h := congrArg ItemRow.payloadMetadata (hf.content row)
  exact h

theorem Repins.deleted : (f row).deleted = row.deleted := by
  have h := congrArg ItemRow.deleted (hf.content row)
  exact h

theorem Repins.dedupKey : (f row).dedupKey = row.dedupKey := by
  have hkey : ∀ r : ItemRow, r.dedupKey = (unpinned r).dedupKey := fun _ => rfl
  rw [hkey, hf.content, ← hkey]

end Fields

def mapItems (store : Store) (f : ItemRow → ItemRow) : Store :=
  { store with items := store.items.map f }

variable (host : Host)

variable {id other : String} {f : ItemRow → ItemRow} {incoming : IncomingItem} {record : Record}
  {store : Store} {pin : P2pPin}

theorem rowOf_mapItems (hf : Repins id f) (store : Store) (incoming : IncomingItem) :
    (mapItems store f).rowOf host incoming = store.rowOf host incoming := by
  have hfind : ((store.items.map f).find? fun row =>
      row.id = incoming.id ∧ row.contentHash = incoming.contentHash).bind
        ItemRow.payloadMetadata =
      (store.items.find? fun row =>
        row.id = incoming.id ∧ row.contentHash = incoming.contentHash).bind
          ItemRow.payloadMetadata := by
    rw [List.find?_map]
    have hsame : ((fun row : ItemRow => decide
        (row.id = incoming.id ∧ row.contentHash = incoming.contentHash)) ∘ f) =
        fun row => decide (row.id = incoming.id ∧ row.contentHash = incoming.contentHash) := by
      funext row
      simp only [Function.comp_apply, hf.rowId, hf.contentHash]
    rw [hsame]
    cases store.items.find? fun row =>
      row.id = incoming.id ∧ row.contentHash = incoming.contentHash with
    | none => rfl
    | some row => exact hf.payloadMetadata row
  unfold Store.rowOf mergeHeldPrivacy mapItems
  simp only [hfind]

theorem fits_mapItems (hf : Repins id f) (store : Store) (incoming : IncomingItem) :
    Fits host (mapItems store f) incoming ↔ Fits host store incoming := by
  unfold Fits
  rw [rowOf_mapItems host hf]
  simp only [mapItems, List.forall_mem_map, hf.rowId, collides, hf.dedupKey]

private theorem put_map (hf : Repins id f) (rows : List ItemRow) (row : ItemRow)
    (hne : row.id ≠ id) : put ItemRow.id (rows.map f) row = (put ItemRow.id rows row).map f := by
  unfold put
  rw [List.filter_map, List.map_append, List.map_singleton, hf.others row hne]
  congr 3
  funext r
  simp only [Function.comp_apply, hf.rowId]

/-- A pin change commutes with the write of another item. -/
theorem upsert_mapItems_item (hf : Repins id f) (store : Store) (hne : incoming.id ≠ id)
    (hkind : incoming.contentType ≠ recordContentType) :
    (mapItems store f).upsert host incoming =
      (mapItems (store.upsert host incoming).1 f, (store.upsert host incoming).2) := by
  cases hid : isRecordId incoming.id with
  | true =>
    unfold Store.upsert
    rw [if_neg hkind, if_neg hkind, if_pos hid, if_pos hid]
  | false =>
    rw [upsert_item host hkind hid, upsert_item host hkind hid]
    by_cases hfits : Fits host store incoming
    · rw [if_pos hfits, if_pos ((fits_mapItems host hf store incoming).2 hfits)]
      unfold written
      rw [rowOf_mapItems host hf]
      simp only [mapItems]
      rw [put_map hf _ _ (by simpa using hne)]
    · rw [if_neg hfits, if_neg fun h => hfits ((fits_mapItems host hf store incoming).1 h)]

/-- The pin of an organization record, on the row of its clip alone. -/
def pinOnto (clipId : String) (pin : PinState) (row : ItemRow) : ItemRow :=
  if row.id = clipId then pin.onto row else row

theorem repins_pinOnto (clipId : String) (pin : PinState) : Repins clipId (pinOnto clipId pin) := by
  refine ⟨fun row hne => if_neg hne, fun row => ?_⟩
  unfold pinOnto
  split
  · unfold PinState.onto
    split <;> rfl
  · rfl

theorem recorded_pin (store : Store) (incoming : IncomingItem) (clipId : String) (pinned : Bool)
    (order : Option Int) :
    recorded store incoming (.pin clipId pinned order) =
      mapItems
        { store with
          records := put RecordRow.id store.records
            ⟨incoming.id, incoming.payload, incoming.contentHash, incoming.createdAt,
              incoming.originDeviceId⟩
          pinStates := put PinState.clipId store.pinStates
            ⟨clipId, pinned, order, incoming.createdAt⟩ }
        (pinOnto clipId ⟨clipId, pinned, order, incoming.createdAt⟩) := by
  unfold recorded Store.project Store.applyPinProjection
  simp only [lookup_put, if_true]
  rfl

/-- A pin change commutes with the write of a record about another clip. -/
theorem recorded_mapItems (hf : Repins id f) (store : Store) (incoming : IncomingItem)
    (hclip : ∀ pinned order, record ≠ .pin id pinned order) :
    recorded (mapItems store f) incoming record = mapItems (recorded store incoming record) f := by
  cases record with
  | tag | membership => rfl
  | pin clipId pinned order =>
    have hne : clipId ≠ id := fun heq => hclip pinned order (by rw [heq])
    rw [recorded_pin, recorded_pin]
    unfold mapItems
    simp only [List.map_map]
    congr 1
    refine List.map_congr_left fun row _ => ?_
    simp only [Function.comp_apply]
    by_cases hrow : row.id = id
    · have hrow' : row.id ≠ clipId := fun h => hne (h.symm.trans hrow)
      rw [(repins_pinOnto clipId _).others row hrow',
        (repins_pinOnto clipId _).others (f row) (by rw [hf.rowId]; exact hrow')]
    · rw [hf.others row hrow, hf.others _ (by rw [(repins_pinOnto clipId _).rowId]; exact hrow)]

/-- A live row of an id takes a pin state. -/
def setPin (id : String) (pin : P2pPin) (row : ItemRow) : ItemRow :=
  if row.id = id ∧ !row.deleted then
    { row with pinned := pin.pinned, pinOrder := pin.pinOrder, pinUpdatedAt := pin.pinUpdatedAt }
  else row

theorem repins_setPin (id : String) (pin : P2pPin) : Repins id (setPin id pin) := by
  refine ⟨fun row hne => if_neg fun h => hne h.1, fun row => ?_⟩
  unfold setPin
  split <;> rfl

def pinAlone (store : Store) (id : String) (pin : P2pPin) : Store × Bool :=
  store.applyPinState id pin.pinned pin.pinOrder pin.pinUpdatedAt

/-- Whether the organization's pin of a clip keeps a pin state out. -/
def Blocked (store : Store) (id : String) (pin : P2pPin) : Prop :=
  ∃ known, lookup PinState.clipId store.pinStates id = some known ∧
    pin.pinUpdatedAt ≤ known.updatedAt

def HasLive (store : Store) (id : String) : Prop :=
  ∃ row ∈ store.items, row.id = id ∧ row.deleted = false

theorem pinAlone_blocked (h : Blocked store id pin) : pinAlone store id pin = (store, false) := by
  obtain ⟨known, hknown, hle⟩ := h
  unfold pinAlone Store.applyPinState
  simp [hknown, hle]

theorem pinAlone_open (h : ¬ Blocked store id pin) :
    (pinAlone store id pin).1 = mapItems store (setPin id pin) ∧
      ((pinAlone store id pin).2 = true ↔ HasLive store id) := by
  have hcond : ((lookup PinState.clipId store.pinStates id).any fun known =>
      decide (pin.pinUpdatedAt ≤ known.updatedAt)) = false := by
    cases hlookup : lookup PinState.clipId store.pinStates id with
    | none => rfl
    | some known =>
      simp only [Option.any_some, decide_eq_false_iff_not]
      exact fun hle => h ⟨known, hlookup, hle⟩
  unfold pinAlone Store.applyPinState
  rw [hcond]
  refine ⟨rfl, ?_⟩
  simp only [Bool.false_eq_true, if_false, List.any_eq_true, Bool.and_eq_true, decide_eq_true_eq,
    Bool.not_eq_true', HasLive]

theorem setPin_none (h : ¬ HasLive store id) (pin : P2pPin) :
    mapItems store (setPin id pin) = store := by
  have hitems : store.items.map (setPin id pin) = store.items := by
    conv_rhs => rw [← List.map_id store.items]
    refine List.map_congr_left fun row hrow => if_neg fun hcond => h ⟨row, hrow, hcond.1, ?_⟩
    simpa using hcond.2
  unfold mapItems
  rw [hitems]

/-- A pin state that is not stored changes nothing. -/
theorem pinAlone_false (h : (pinAlone store id pin).2 = false) :
    (pinAlone store id pin).1 = store := by
  by_cases hblocked : Blocked store id pin
  · rw [pinAlone_blocked hblocked]
  · obtain ⟨hstore, hlive⟩ := pinAlone_open hblocked
    rw [hstore, setPin_none]
    intro hhas
    rw [hlive.2 hhas] at h
    simp at h

theorem hasLive_mapItems (hf : Repins id f) (store : Store) (other : String) :
    HasLive (mapItems store f) other ↔ HasLive store other := by
  constructor
  · rintro ⟨row, hrow, hid, hlive⟩
    obtain ⟨before, hbefore, rfl⟩ := List.mem_map.1 hrow
    exact ⟨before, hbefore, (hf.rowId before).symm.trans hid, (hf.deleted before).symm.trans hlive⟩
  · rintro ⟨row, hrow, hid, hlive⟩
    exact ⟨f row, List.mem_map_of_mem hrow, (hf.rowId row).trans hid, (hf.deleted row).trans hlive⟩

/-- An item that is a record of a clip's pin. -/
def PinsClip (incoming : IncomingItem) (id : String) : Prop :=
  incoming.contentType = recordContentType ∧ ∃ text pinned order,
    incoming.searchText = some text ∧ host.parseRecord text = some (.pin id pinned order)

theorem pinStates_recorded (hclip : ∀ pinned order, record ≠ .pin id pinned order) (store : Store)
    (incoming : IncomingItem) :
    lookup PinState.clipId (recorded store incoming record).pinStates id =
      lookup PinState.clipId store.pinStates id := by
  cases record with
  | tag | membership => rfl
  | pin clipId pinned order =>
    have hne : clipId ≠ id := fun heq => hclip pinned order (by rw [heq])
    rw [recorded_pin]
    simp only [mapItems, lookup_put, if_neg hne]

/-- Unless an item pins the clip, its write keeps the organization's pin of it. -/
theorem pinStates_upsert (hclip : ¬ PinsClip host incoming id) (store : Store) :
    lookup PinState.clipId (store.upsert host incoming).1.pinStates id =
      lookup PinState.clipId store.pinStates id := by
  by_cases hkind : incoming.contentType = recordContentType
  · rcases upsert_record host hkind with heq | ⟨text, record, htext, -, hrecord, heq⟩
    · rw [heq]
    · rw [heq]
      exact pinStates_recorded (fun pinned order hrec =>
        hclip ⟨hkind, text, pinned, order, htext, hrec ▸ hrecord⟩) store incoming
  · cases hid : isRecordId incoming.id with
    | true =>
      unfold Store.upsert
      rw [if_neg hkind, if_pos hid]
    | false =>
      rw [upsert_item host hkind hid]
      split <;> rfl

theorem upsert_mapItems (hf : Repins id f) (store : Store) (hne : incoming.id ≠ id)
    (hclip : ¬ PinsClip host incoming id) :
    (mapItems store f).upsert host incoming =
      (mapItems (store.upsert host incoming).1 f, (store.upsert host incoming).2) := by
  by_cases hkind : incoming.contentType = recordContentType
  · rcases upsert_record host hkind with heq | ⟨text, record, htext, -, hrecord, heq⟩
    · rw [heq, heq]
    · rw [heq, heq, recorded_mapItems hf store incoming fun pinned order hrec =>
        hclip ⟨hkind, text, pinned, order, htext, hrec ▸ hrecord⟩]
  · exact upsert_mapItems_item host hf store hne hkind

theorem hasLive_upsert (store : Store) (hne : incoming.id ≠ id) :
    HasLive (store.upsert host incoming).1 id ↔ HasLive store id := by
  by_cases hkind : incoming.contentType = recordContentType
  · rcases upsert_record host hkind with heq | ⟨text, record, -, -, -, heq⟩
    · rw [heq]
    · rw [heq]
      cases record with
      | tag | membership => rfl
      | pin clipId pinned order =>
        rw [recorded_pin]
        exact hasLive_mapItems (repins_pinOnto clipId _) _ id
  · cases hid : isRecordId incoming.id with
    | true =>
      unfold Store.upsert
      rw [if_neg hkind, if_pos hid]
    | false =>
      rw [upsert_item host hkind hid]
      split
      · constructor
        · rintro ⟨row, hrow, hrowId, hlive⟩
          rcases (mem_put _ _ _).1 hrow with ⟨hmem, -⟩ | rfl
          · exact ⟨row, hmem, hrowId, hlive⟩
          · exact absurd ((projected_id _ _).symm.trans hrowId) hne
        · rintro ⟨row, hrow, hrowId, hlive⟩
          exact ⟨row, (mem_put _ _ _).2 (Or.inl ⟨hrow, fun h => hne (by
            simpa using h.symm.trans hrowId)⟩), hrowId, hlive⟩
      · rfl

private theorem pinAlone_eq_iff {other : Store} (h : ¬ Blocked store id pin)
    (hother : ¬ Blocked other id pin) (hlive : HasLive other id ↔ HasLive store id) :
    (pinAlone other id pin).2 = (pinAlone store id pin).2 := by
  rw [Bool.eq_iff_iff, (pinAlone_open hother).2, (pinAlone_open h).2, hlive]

/-- A newer pin state and the organization's older pin leave the newer one, in
either order. -/
private theorem setPin_pinOnto {known : PinState} (h : known.updatedAt < pin.pinUpdatedAt)
    (row : ItemRow) :
    pinOnto id known (setPin id pin row) = setPin id pin (pinOnto id known row) := by
  by_cases hid : row.id = id
  · cases hdeleted : row.deleted with
    | true => simp [pinOnto, setPin, PinState.onto, hid, hdeleted]
    | false =>
      have hnew : ¬ pin.pinUpdatedAt ≤ known.updatedAt := by omega
      by_cases hold : row.pinUpdatedAt ≤ known.updatedAt
      · simp [pinOnto, setPin, PinState.onto, hid, hdeleted, hnew, hold]
      · simp [pinOnto, setPin, PinState.onto, hid, hdeleted, hnew, hold]
  · simp [pinOnto, setPin, hid]

/-- A pin state stored before the write of another id might as well be stored
after it, unless the write pins the clip at or above its stamp. -/
theorem pinAlone_upsert (store : Store) (id : String) (pin : P2pPin) (incoming : IncomingItem)
    (hne : incoming.id ≠ id)
    (hpin : PinsClip host incoming id → (store.upsert host incoming).2 = true →
      (pinAlone store id pin).2 = true ∧ incoming.createdAt < pin.pinUpdatedAt ∨
      (pinAlone store id pin).2 = false ∧ ∀ known,
        lookup PinState.clipId store.pinStates id = some known →
          known.updatedAt ≤ incoming.createdAt) :
    (pinAlone store id pin).1.upsert host incoming =
        ((pinAlone (store.upsert host incoming).1 id pin).1, (store.upsert host incoming).2) ∧
      (pinAlone (store.upsert host incoming).1 id pin).2 = (pinAlone store id pin).2 := by
  by_cases hclip : PinsClip host incoming id
  · obtain ⟨hkind, text, pinned, order, htext, hparse⟩ := hclip
    rcases upsert_record host hkind with heq | ⟨text', record, htext', -, hrecord, heq⟩
    · rw [heq, heq]
      exact ⟨rfl, rfl⟩
    · obtain rfl : text = text' := by simpa [htext] using htext'
      obtain rfl : record = .pin id pinned order := by simpa [hparse] using hrecord.symm
      have hlookup : lookup PinState.clipId
          (recorded store incoming (.pin id pinned order)).pinStates id =
            some ⟨id, pinned, order, incoming.createdAt⟩ := by
        rw [recorded_pin]
        simp only [mapItems, lookup_put, if_true]
      have hlive := hasLive_upsert host store hne
      simp only [heq] at hlive ⊢
      rcases hpin ⟨hkind, text, pinned, order, htext, hparse⟩ (by rw [heq]) with ⟨hstored, hlt⟩ | ⟨hnot, hle⟩
      · have hopen : ¬ Blocked store id pin := by
          intro hblocked
          rw [pinAlone_blocked hblocked] at hstored
          simp at hstored
        have hopen' : ¬ Blocked (recorded store incoming (.pin id pinned order)) id pin := by
          rintro ⟨known, hknown, hstamp⟩
          rw [hlookup, Option.some.injEq] at hknown
          rw [← hknown] at hstamp
          exact absurd hlt (not_lt.2 hstamp)
        refine ⟨?_, pinAlone_eq_iff hopen hopen' hlive⟩
        rw [(pinAlone_open hopen).1, (pinAlone_open hopen').1, recorded_pin, recorded_pin]
        simp only [mapItems, List.map_map]
        congr 2
        refine List.map_congr_left fun row _ => ?_
        exact setPin_pinOnto hlt row
      · have hafter : (pinAlone (recorded store incoming (.pin id pinned order)) id pin).2 =
            false := by
          by_cases hopen' : Blocked (recorded store incoming (.pin id pinned order)) id pin
          · rw [pinAlone_blocked hopen']
          · have hopen : ¬ Blocked store id pin := by
              rintro ⟨known, hknown, hstamp⟩
              exact hopen' ⟨_, hlookup, hstamp.trans (hle known hknown)⟩
            rw [pinAlone_eq_iff hopen hopen' hlive, hnot]
        rw [pinAlone_false hnot, pinAlone_false hafter, hafter, hnot]
        exact ⟨rfl, rfl⟩
  · have hlookup := pinStates_upsert host hclip store
    have hblocked : Blocked (store.upsert host incoming).1 id pin ↔ Blocked store id pin := by
      unfold Blocked
      rw [hlookup]
    by_cases h : Blocked store id pin
    · rw [pinAlone_blocked h, pinAlone_blocked (hblocked.2 h)]
      exact ⟨rfl, rfl⟩
    · have h' : ¬ Blocked (store.upsert host incoming).1 id pin := fun hb => h (hblocked.1 hb)
      rw [(pinAlone_open h).1, (pinAlone_open h').1,
        upsert_mapItems host (repins_setPin id pin) store hne hclip]
      exact ⟨rfl, pinAlone_eq_iff h h' (hasLive_upsert host store hne)⟩

theorem pinStates_clip (h : PinsClip host incoming id)
    (hstored : (store.upsert host incoming).2 = true) :
    ∃ known, lookup PinState.clipId (store.upsert host incoming).1.pinStates id = some known ∧
      known.updatedAt = incoming.createdAt := by
  obtain ⟨hkind, text, pinned, order, htext, hparse⟩ := h
  rcases upsert_record host hkind with heq | ⟨text', record, htext', -, hrecord, heq⟩
  · rw [heq] at hstored
    simp at hstored
  · obtain rfl : text = text' := by simpa [htext] using htext'
    obtain rfl : record = .pin id pinned order := by simpa [hparse] using hrecord.symm
    refine ⟨⟨id, pinned, order, incoming.createdAt⟩, ?_, rfl⟩
    rw [heq, recorded_pin]
    simp only [mapItems, lookup_put, if_true]

/-- The organization's pin of a clip is no newer than the record it came from:
the two are written together, and a record only gives way to a newer one. -/
def PinsRecorded (store : Store) : Prop :=
  ∀ pin ∈ store.pinStates, ∃ row ∈ store.records,
    row.id = (Record.pin pin.clipId false none).id host ∧ pin.updatedAt ≤ row.createdAt

/-- A write that replaces no newer record. -/
def Newest (store : Store) (incoming : IncomingItem) : Prop :=
  ∀ row ∈ store.records, row.id = incoming.id → row.createdAt ≤ incoming.createdAt

variable {host}

theorem PinsClip.record_id (h : PinsClip host incoming id)
    (hstored : (store.upsert host incoming).2 = true) :
    incoming.id = (Record.pin id false none).id host := by
  obtain ⟨hkind, text, pinned, order, htext, hparse⟩ := h
  rcases upsert_record host hkind with heq | ⟨text', record, htext', hvalid, hrecord, -⟩
  · rw [heq] at hstored
    simp at hstored
  · obtain rfl : text = text' := by simpa [htext] using htext'
    unfold validWire at hvalid
    rw [if_neg (by simp)] at hvalid
    simp only [Bool.and_eq_true, hparse, Option.any_some, beq_iff_eq] at hvalid
    exact hvalid.2.2.symm

theorem PinsRecorded.stamp_le (h : PinsRecorded host store) (hnewest : Newest store incoming)
    (hclip : PinsClip host incoming id) (hstored : (store.upsert host incoming).2 = true)
    (known : PinState) (hknown : lookup PinState.clipId store.pinStates id = some known) :
    known.updatedAt ≤ incoming.createdAt := by
  obtain ⟨hmem, hid⟩ := lookup_eq_some hknown
  obtain ⟨row, hrow, hrowId, hle⟩ := h known hmem
  refine hle.trans (hnewest row hrow ?_)
  rw [hrowId, hid, hclip.record_id hstored]

theorem PinsRecorded.recorded (h : PinsRecorded host store) (hnewest : Newest store incoming)
    (hid : incoming.id = record.id host) : PinsRecorded host (recorded store incoming record) := by
  have hold : ∀ pin ∈ store.pinStates, ∃ row ∈ put RecordRow.id store.records
      ⟨incoming.id, incoming.payload, incoming.contentHash, incoming.createdAt,
        incoming.originDeviceId⟩,
      row.id = (Record.pin pin.clipId false none).id host ∧ pin.updatedAt ≤ row.createdAt := by
    intro pin hpin
    obtain ⟨row, hrow, hrowId, hle⟩ := h pin hpin
    by_cases hsame : row.id = incoming.id
    · exact ⟨_, (mem_put _ _ _).2 (Or.inr rfl), hsame.symm.trans hrowId,
        hle.trans (hnewest row hrow hsame)⟩
    · exact ⟨row, (mem_put _ _ _).2 (Or.inl ⟨hrow, hsame⟩), hrowId, hle⟩
  cases record with
  | tag | membership => exact hold
  | pin clipId pinned order =>
    rw [recorded_pin]
    intro pin hpin
    rcases (mem_put _ _ _).1 hpin with ⟨hmem, -⟩ | rfl
    · exact hold pin hmem
    · exact ⟨_, (mem_put _ _ _).2 (Or.inr rfl), hid, le_rfl⟩

theorem PinsRecorded.upsert (h : PinsRecorded host store) (hnewest : Newest store incoming) :
    PinsRecorded host (store.upsert host incoming).1 := by
  by_cases hkind : incoming.contentType = recordContentType
  · rcases upsert_record host hkind with heq | ⟨text, record, -, hvalid, hrecord, heq⟩
    · rw [heq]
      exact h
    · rw [heq]
      refine h.recorded hnewest ?_
      unfold validWire at hvalid
      rw [if_neg (by simp)] at hvalid
      simp only [Bool.and_eq_true, hrecord, Option.any_some, beq_iff_eq] at hvalid
      exact hvalid.2.2.symm
  · cases hid : isRecordId incoming.id with
    | true =>
      unfold Store.upsert
      rw [if_neg hkind, if_pos hid]
      exact h
    | false =>
      rw [upsert_item host hkind hid]
      split
      · exact h
      · exact h

theorem PinsRecorded.pinAlone (h : PinsRecorded host store) (id : String) (pin : P2pPin) :
    PinsRecorded host (pinAlone store id pin).1 := by
  by_cases hblocked : Blocked store id pin
  · rw [pinAlone_blocked hblocked]
    exact h
  · rw [(pinAlone_open hblocked).1]
    exact h

theorem wellFormed_mapItems (h : WellFormed store) (hf : Repins id f) :
    WellFormed (mapItems store f) := by
  refine ⟨nodup_map f hf.rowId _ h.items, h.records, fun row hrow => ?_, h.recordIds⟩
  obtain ⟨before, hbefore, rfl⟩ := List.mem_map.1 hrow
  rw [hf.rowId]
  exact h.itemIds before hbefore

theorem wellFormed_pinAlone (h : WellFormed store) (id : String) (pin : P2pPin) :
    WellFormed (pinAlone store id pin).1 := by
  by_cases hblocked : Blocked store id pin
  · rw [pinAlone_blocked hblocked]
    exact h
  · rw [(pinAlone_open hblocked).1]
    exact wellFormed_mapItems h (repins_setPin id pin)

theorem lookup_items_ne (hf : Repins id f) (hne : other ≠ id) (rows : List ItemRow) :
    lookup ItemRow.id (rows.map f) other = lookup ItemRow.id rows other := by
  rw [lookup_map f hf.rowId]
  cases h : lookup ItemRow.id rows other with
  | none => rfl
  | some row =>
    rw [Option.map_some, hf.others row]
    rw [(lookup_eq_some h).2]
    exact hne

/-- A pin change leaves the versions of other ids. -/
theorem versionSummary_mapItems_ne (h : WellFormed store) (hf : Repins id f) (hne : other ≠ id) :
    (mapItems store f).versionSummary other = store.versionSummary other := by
  have h' := wellFormed_mapItems h hf
  cases hid : isRecordId other with
  | true => rw [versionSummary_record h' hid, versionSummary_record h hid, mapItems]
  | false =>
    rw [versionSummary_item h' hid, versionSummary_item h hid, mapItems,
      lookup_items_ne hf hne]

/-- What a pin change leaves under the id it is about. -/
theorem versionSummary_mapItems (hwf : WellFormed store) {f : ItemRow → ItemRow}
    (hf : Repins id f) :
    (mapItems store f).versionSummary id = store.versionSummary id ∨
      ∃ row, store.versionSummary id = some row.toVersion ∧
        (mapItems store f).versionSummary id = some (f row).toVersion := by
  cases hrec : isRecordId id with
  | true =>
    left
    rw [versionSummary_record (wellFormed_mapItems hwf hf) hrec, versionSummary_record hwf hrec]
    rfl
  | false =>
    rw [versionSummary_item (wellFormed_mapItems hwf hf) hrec, versionSummary_item hwf hrec,
      mapItems, lookup_map f hf.rowId]
    cases lookup ItemRow.id store.items id with
    | none => exact Or.inl rfl
    | some row => exact Or.inr ⟨row, rfl, rfl⟩

theorem versionSummary_pinAlone_ne (h : WellFormed store) (pin : P2pPin) (hne : other ≠ id) :
    (pinAlone store id pin).1.versionSummary other = store.versionSummary other := by
  by_cases hblocked : Blocked store id pin
  · rw [pinAlone_blocked hblocked]
  · rw [(pinAlone_open hblocked).1]
    exact versionSummary_mapItems_ne h (repins_setPin id pin) hne

variable (host) in
/-- A write leaves the version of another id, unless it is a record that pins it. -/
theorem versionSummary_upsert_ne (h : WellFormed store) (hne : incoming.id ≠ id)
    (hclip : ¬ PinsClip host incoming id) :
    (store.upsert host incoming).1.versionSummary id = store.versionSummary id := by
  have hwf := wellFormed_upsert host h incoming
  by_cases hkind : incoming.contentType = recordContentType
  · rcases upsert_record host hkind with heq | ⟨text, record, htext, -, hparse, heq⟩
    · rw [heq]
    · rw [heq] at hwf ⊢
      have hrecords : lookup RecordRow.id (recorded store incoming record).records id =
          lookup RecordRow.id store.records id := by
        rw [records_recorded, lookup_put, if_neg hne]
      have hitems : lookup ItemRow.id (recorded store incoming record).items id =
          lookup ItemRow.id store.items id := by
        cases record with
        | tag | membership => rfl
        | pin clipId pinned order =>
          rw [recorded_pin]
          refine lookup_items_ne (repins_pinOnto clipId _) (fun heq => hclip ?_) _
          exact ⟨hkind, text, pinned, order, htext, heq ▸ hparse⟩
      cases hid : isRecordId id with
      | true => rw [versionSummary_record hwf hid, versionSummary_record h hid, hrecords]
      | false => rw [versionSummary_item hwf hid, versionSummary_item h hid, hitems]
  · cases hrec : isRecordId incoming.id with
    | true =>
      unfold Store.upsert
      rw [if_neg hkind, if_pos hrec]
    | false =>
      rw [upsert_item host hkind hrec] at hwf ⊢
      split
      · rename_i hfits
        rw [if_pos hfits] at hwf
        cases hid : isRecordId id with
        | true => rw [versionSummary_record hwf hid, versionSummary_record h hid, written]
        | false =>
          rw [versionSummary_item hwf hid, versionSummary_item h hid, written, lookup_put,
            projected_id, rowOf_id, if_neg hne]
      · rfl

end CopyPaste.Merge.Repin
