import CopyPaste.Merge.Batch

/-!
What a write does to the versions a store answers with. An item keeps to its
table and a record to its own, a refusal changes nothing, and a write changes the
content of no other id.
-/

namespace CopyPaste.Merge.Effects

open Lib.Rows Comparator Payload Storage Prepare Batch Upload.Scanning

/-- One row for each id, and no id in both tables: a record's id is recognised by
its head, and legacy copies of records are adopted before a session. -/
structure WellFormed (store : Store) : Prop where
  items : (store.items.map ItemRow.id).Nodup
  records : (store.records.map RecordRow.id).Nodup
  itemIds : ∀ row ∈ store.items, isRecordId row.id = false
  recordIds : ∀ row ∈ store.records, isRecordId row.id = true

private theorem lookup_map_toVersion {α : Type} (ident : α → String) (toVersion : α → Version)
    (hident : ∀ row, (toVersion row).id = ident row) (rows : List α) (id : String) :
    lookup Version.id (rows.map toVersion) id = (lookup ident rows id).map toVersion := by
  unfold lookup
  rw [List.find?_map]
  congr 2
  funext row
  simp [hident]

variable {store : Store} {id : String} {incoming : IncomingItem}

theorem versionSummary_item (h : WellFormed store) (hid : isRecordId id = false) :
    store.versionSummary id = (lookup ItemRow.id store.items id).map ItemRow.toVersion := by
  have hnone : lookup RecordRow.id store.records id = none := by
    rw [lookup_eq_none_iff]
    intro row hrow heq
    have := h.recordIds row hrow
    rw [heq, hid] at this
    simp at this
  unfold Store.versionSummary Store.allVersions
  rw [lookup_append, lookup_map_toVersion ItemRow.id _ (fun _ => rfl),
    lookup_map_toVersion RecordRow.id _ (fun _ => rfl), hnone]
  simp

theorem versionSummary_record (h : WellFormed store) (hid : isRecordId id = true) :
    store.versionSummary id = (lookup RecordRow.id store.records id).map RecordRow.toVersion := by
  have hnone : lookup ItemRow.id store.items id = none := by
    rw [lookup_eq_none_iff]
    intro row hrow heq
    have := h.itemIds row hrow
    rw [heq, hid] at this
    simp at this
  unfold Store.versionSummary Store.allVersions
  rw [lookup_append, lookup_map_toVersion ItemRow.id _ (fun _ => rfl),
    lookup_map_toVersion RecordRow.id _ (fun _ => rfl), hnone]
  simp

theorem nodup_allVersions (h : WellFormed store) : (store.allVersions.map Version.id).Nodup := by
  unfold Store.allVersions
  rw [List.map_append, List.map_map, List.map_map, List.nodup_append]
  refine ⟨h.items, h.records, ?_⟩
  intro a ha b hb heq
  simp only [List.mem_map, Function.comp_apply] at ha hb
  obtain ⟨row, hrow, rfl⟩ := ha
  obtain ⟨record, hrecord, rfl⟩ := hb
  have hitem := h.itemIds row hrow
  have hrec := h.recordIds record hrecord
  simp only [ItemRow.toVersion, RecordRow.toVersion] at heq
  rw [heq, hrec] at hitem
  simp at hitem

theorem lookup_versionSummaries (h : WellFormed store) (ids : List String) (hid : id ∈ ids) :
    lookup Version.id (store.versionSummaries ids) id = store.versionSummary id := by
  have hnodup : ((store.allVersions.filter fun version => version.id ∈ ids).map
      Version.id).Nodup :=
    (nodup_allVersions h).sublist (List.filter_sublist.map _)
  unfold Store.versionSummaries Store.versionSummary
  rw [foldl_put _ [] (by simpa using hnodup), List.nil_append,
    lookup_filter (fun id => id ∈ ids), if_pos hid]

@[simp]
theorem onto_id (pin : PinState) (row : ItemRow) : (pin.onto row).id = row.id := by
  unfold PinState.onto
  split <;> rfl

/-- A pin state touches neither the metadata of a row nor its index key. -/
theorem onto_content (pin : PinState) (row : ItemRow) :
    (pin.onto row).payloadMetadata = row.payloadMetadata ∧
      (pin.onto row).dedupKey = row.dedupKey := by
  unfold PinState.onto
  split <;> exact ⟨rfl, rfl⟩

/-- The row an id has after the projection of its pin. -/
def projected (pins : List PinState) (row : ItemRow) : ItemRow :=
  match lookup PinState.clipId pins row.id with
  | none => row
  | some pin => pin.onto row

@[simp]
theorem projected_id (pins : List PinState) (row : ItemRow) : (projected pins row).id = row.id := by
  unfold projected
  split
  · rfl
  · exact onto_id _ _

theorem projected_content (pins : List PinState) (row : ItemRow) :
    (projected pins row).payloadMetadata = row.payloadMetadata ∧
      (projected pins row).dedupKey = row.dedupKey := by
  unfold projected
  split
  · exact ⟨rfl, rfl⟩
  · exact onto_content _ _

theorem applyPinProjection_eq (store : Store) (id : String) :
    store.applyPinProjection id =
      { store with
        items := store.items.map fun row =>
          if row.id = id then projected store.pinStates row else row } := by
  unfold Store.applyPinProjection projected
  split
  · rename_i h
    have hsame : (fun row : ItemRow => if row.id = id then
        (match lookup PinState.clipId store.pinStates row.id with
          | none => row
          | some pin => pin.onto row) else row) = fun row => row := by
      funext row
      split
      · rename_i hrow
        rw [hrow, h]
      · rfl
    rw [hsame]
    simp
  · rename_i pin h
    congr 2
    funext row
    by_cases hrow : row.id = id
    · simp [hrow, h]
    · simp [hrow]

/-- The store after an item has been written. -/
def written (host : Host) (store : Store) (incoming : IncomingItem) : Store :=
  { store with
    items := put ItemRow.id store.items (projected store.pinStates (store.rowOf host incoming).1)
    icons := (store.rowOf host incoming).2 }

@[simp]
theorem rowOf_id (host : Host) (store : Store) (incoming : IncomingItem) :
    (store.rowOf host incoming).1.id = incoming.id := rfl

variable (host : Host)

/-- Whether the dedup index admits an item. -/
def Fits (store : Store) (incoming : IncomingItem) : Prop :=
  ∀ other ∈ store.items, other.id ≠ incoming.id →
    collides (store.rowOf host incoming).1 other = false

instance (store : Store) (incoming : IncomingItem) : Decidable (Fits host store incoming) := by
  unfold Fits
  infer_instance

private theorem applyPinProjection_put (store : Store) (row : ItemRow) (icons : List IconRow) :
    Store.applyPinProjection
      { store with items := put ItemRow.id store.items row, icons := icons } row.id =
    { store with items := put ItemRow.id store.items (projected store.pinStates row), icons := icons } := by
  have hrest : (store.items.filter fun r => r.id ≠ row.id).map
      (fun r => if r.id = row.id then projected store.pinStates r else r) =
        store.items.filter fun r => r.id ≠ row.id := by
    conv_rhs => rw [← List.map_id (store.items.filter fun r => r.id ≠ row.id)]
    refine List.map_congr_left fun other hother => ?_
    have hne : other.id ≠ row.id := by simpa using (List.mem_filter.1 hother).2
    simp [hne]
  rw [applyPinProjection_eq]
  simp only [put, List.map_append, hrest, List.map_cons, List.map_nil, if_true, projected_id]

/-- A write that is not of a record is refused by the index or goes through. -/
theorem upsert_item (hkind : incoming.contentType ≠ recordContentType)
    (hid : isRecordId incoming.id = false) :
    store.upsert host incoming =
      if Fits host store incoming then (written host store incoming, true) else (store, false) := by
  have hput := applyPinProjection_put store (store.rowOf host incoming).1
    (store.rowOf host incoming).2
  rw [rowOf_id] at hput
  unfold Store.upsert
  rw [if_neg hkind, if_neg (by simp [hid])]
  by_cases hfits : Fits host store incoming
  · have hany : (store.items.any fun other =>
        decide (other.id ≠ incoming.id) && collides (store.rowOf host incoming).1 other) = false := by
      rw [List.any_eq_false]
      intro other hother
      by_cases hne : other.id = incoming.id
      · simp [hne]
      · simp [hfits other hother hne]
    simp only [hany, if_pos hfits, hput]
    rfl
  · have hany : (store.items.any fun other =>
        decide (other.id ≠ incoming.id) && collides (store.rowOf host incoming).1 other) = true := by
      unfold Fits at hfits
      push Not at hfits
      obtain ⟨other, hother, hne, hcollides⟩ := hfits
      rw [List.any_eq_true]
      exact ⟨other, hother, by simpa [hne] using hcollides⟩
    simp only [hany, if_neg hfits]
    rfl

def recorded (store : Store) (incoming : IncomingItem) (record : Record) : Store :=
  ({ store with
    records := put RecordRow.id store.records
      ⟨incoming.id, incoming.payload, incoming.contentHash, incoming.createdAt,
        incoming.originDeviceId⟩ } : Store).project incoming.createdAt record

/-- A write of a record is refused whatever is stored, unless its text is a valid
record of that id. -/
theorem upsert_record {incoming : IncomingItem}
    (hkind : incoming.contentType = recordContentType) :
    (∀ store : Store, store.upsert host incoming = (store, false)) ∨
      ∃ text record, incoming.searchText = some text ∧
        validWire host incoming.id recordContentType text incoming.deleted = true ∧
        host.parseRecord text = some record ∧
        ∀ store : Store, store.upsert host incoming = (recorded store incoming record, true) := by
  have hupsert : ∀ store : Store, store.upsert host incoming = store.upsertRecord host incoming :=
    fun _ => if_pos hkind
  simp only [hupsert]
  unfold Store.upsertRecord
  cases htext : incoming.searchText with
  | none => exact Or.inl fun _ => rfl
  | some text =>
    cases hvalid : validWire host incoming.id incoming.contentType text incoming.deleted with
    | false => exact Or.inl fun _ => by simp [hvalid]
    | true =>
      cases hrecord : host.parseRecord text with
      | none => exact Or.inl fun _ => by simp [hvalid, hrecord]
      | some record =>
        refine Or.inr ⟨text, record, rfl, hkind ▸ hvalid, hrecord, fun _ => ?_⟩
        simp only [hvalid, hrecord, if_true]
        rfl

theorem upsert_valid_record (store : Store) (incoming : IncomingItem) (text : String)
    (hkind : incoming.contentType = recordContentType) (htext : incoming.searchText = some text)
    (hvalid : validWire host incoming.id incoming.contentType text incoming.deleted = true) :
    ∃ record, host.parseRecord text = some record ∧
      store.upsert host incoming = (recorded store incoming record, true) := by
  have hparse : ∃ record, host.parseRecord text = some record := by
    unfold validWire at hvalid
    rw [if_neg (by simp [hkind])] at hvalid
    simp only [Bool.and_eq_true, Option.any_eq_true] at hvalid
    obtain ⟨-, record, hrecord, -⟩ := hvalid
    exact ⟨record, hrecord⟩
  obtain ⟨record, hrecord⟩ := hparse
  refine ⟨record, hrecord, ?_⟩
  unfold Store.upsert Store.upsertRecord
  rw [if_pos hkind, htext]
  simp only [hvalid, if_true, hrecord]
  rfl

theorem isRecordId_of_validWire {text : String} {deleted : Bool}
    (h : validWire host id recordContentType text deleted = true) :
    isRecordId id = true ∧ deleted = false := by
  unfold validWire at h
  rw [if_neg (by simp)] at h
  simp only [Bool.and_eq_true, Bool.not_eq_true', Option.any_eq_true] at h
  obtain ⟨⟨hlive, -⟩, record, -, hrecord⟩ := h
  rw [beq_iff_eq] at hrecord
  refine ⟨?_, hlive⟩
  rw [← hrecord.2]
  unfold Record.id isRecordId startsWith
  rw [List.isPrefixOf_iff_prefix, String.toList_append]
  exact List.prefix_append _ _

theorem items_recorded (store : Store) (incoming : IncomingItem) (record : Record) :
    ∃ f : ItemRow → ItemRow, (recorded store incoming record).items = store.items.map f ∧
      ∀ row, f row = row ∨ ∃ pin : PinState, f row = pin.onto row := by
  cases record with
  | tag id name deleted => exact ⟨fun row => row, by simp [recorded, Store.project], by simp⟩
  | membership clipId tagId assigned =>
    exact ⟨fun row => row, by simp [recorded, Store.project], by simp⟩
  | pin clipId pinned order =>
    refine ⟨_, congrArg Store.items (applyPinProjection_eq _ clipId), fun row => ?_⟩
    split
    · unfold projected
      split
      · exact Or.inl rfl
      · exact Or.inr ⟨_, rfl⟩
    · exact Or.inl rfl

theorem records_recorded (store : Store) (incoming : IncomingItem) (record : Record) :
    (recorded store incoming record).records = put RecordRow.id store.records
      ⟨incoming.id, incoming.payload, incoming.contentHash, incoming.createdAt,
        incoming.originDeviceId⟩ := by
  cases record with
  | tag | membership => rfl
  | pin clipId pinned order => exact congrArg Store.records (applyPinProjection_eq _ clipId)

/-- The merge keys of a stored version; an empty origin reads as this device. -/
def Version.key (version : Version) : VersionKey :=
  versionKey version.createdAt version.contentHash version.deleted
    (originOr version.originDeviceId host.here)

/-- The merge keys of what a store holds under an id, below everything when it
holds nothing. -/
def rank (store : Store) (id : String) : WithBot VersionKey :=
  match store.versionSummary id with
  | some version => Version.key host version
  | none => ⊥

theorem key_onto (pin : PinState) (row : ItemRow) :
    Version.key host (pin.onto row).toVersion = Version.key host row.toVersion := by
  unfold PinState.onto
  split <;> rfl

theorem key_projected (pins : List PinState) (row : ItemRow) :
    Version.key host (projected pins row).toVersion = Version.key host row.toVersion := by
  unfold projected
  split
  · rfl
  · exact key_onto host _ _

private theorem keeps_id {f : ItemRow → ItemRow}
    (hf : ∀ row, f row = row ∨ ∃ pin : PinState, f row = pin.onto row) (row : ItemRow) :
    (f row).id = row.id := by
  rcases hf row with h | ⟨pin, h⟩
  · rw [h]
  · rw [h, onto_id]

private theorem keeps_key {f : ItemRow → ItemRow}
    (hf : ∀ row, f row = row ∨ ∃ pin : PinState, f row = pin.onto row) (row : ItemRow) :
    Version.key host (f row).toVersion = Version.key host row.toVersion := by
  rcases hf row with h | ⟨pin, h⟩
  · rw [h]
  · rw [h, key_onto]

/-- The stamp a write stores a version under. -/
def stampOf (store : Store) (incoming : IncomingItem) : Int :=
  if incoming.contentType = recordContentType then incoming.createdAt
  else (store.rowOf host incoming).1.createdAt

theorem wellFormed_written (h : WellFormed store) (hid : isRecordId incoming.id = false) :
    WellFormed (written host store incoming) := by
  refine ⟨nodup_put _ _ h.items, h.records, fun row hrow => ?_, h.recordIds⟩
  rcases (mem_put _ _ _).1 hrow with ⟨hmem, -⟩ | rfl
  · exact h.itemIds row hmem
  · simpa using hid

theorem wellFormed_recorded (h : WellFormed store) (hid : isRecordId incoming.id = true)
    (record : Record) : WellFormed (recorded store incoming record) := by
  obtain ⟨f, hitems, hf⟩ := items_recorded store incoming record
  refine ⟨?_, ?_, ?_, ?_⟩
  · rw [hitems]
    exact nodup_map f (keeps_id hf) _ h.items
  · rw [records_recorded]
    exact nodup_put _ _ h.records
  · intro row hrow
    rw [hitems, List.mem_map] at hrow
    obtain ⟨before, hmem, rfl⟩ := hrow
    rw [keeps_id hf]
    exact h.itemIds before hmem
  · intro row hrow
    rw [records_recorded, mem_put] at hrow
    rcases hrow with ⟨hmem, -⟩ | rfl
    · exact h.recordIds row hmem
    · exact hid

/-- A refusal changes nothing. -/
theorem upsert_false (h : (store.upsert host incoming).2 = false) :
    (store.upsert host incoming).1 = store := by
  by_cases hkind : incoming.contentType = recordContentType
  · rcases upsert_record host hkind with heq | ⟨text, record, -, -, -, heq⟩
    · rw [heq]
    · rw [heq] at h
      simp at h
  · cases hid : isRecordId incoming.id with
    | true =>
      unfold Store.upsert
      rw [if_neg hkind, if_pos hid]
    | false =>
      rw [upsert_item host hkind hid] at h ⊢
      split
      · rename_i hfits
        rw [if_pos hfits] at h
        simp at h
      · rfl

theorem wellFormed_upsert (h : WellFormed store) (incoming : IncomingItem) :
    WellFormed (store.upsert host incoming).1 := by
  by_cases hkind : incoming.contentType = recordContentType
  · rcases upsert_record host hkind with heq | ⟨text, record, -, hvalid, -, heq⟩
    · rw [heq]
      exact h
    · rw [heq]
      exact wellFormed_recorded h (isRecordId_of_validWire host hvalid).1 record
  · cases hid : isRecordId incoming.id with
    | true =>
      unfold Store.upsert
      rw [if_neg hkind, if_pos hid]
      exact h
    | false =>
      rw [upsert_item host hkind hid]
      split
      · exact wellFormed_written host h hid
      · exact h

private theorem rank_item (h : WellFormed store) (hid : isRecordId id = false) :
    rank host store id = match lookup ItemRow.id store.items id with
      | some row => (Version.key host row.toVersion : WithBot VersionKey)
      | none => ⊥ := by
  unfold rank
  rw [versionSummary_item h hid]
  cases lookup ItemRow.id store.items id <;> rfl

private theorem rank_record (h : WellFormed store) (hid : isRecordId id = true) :
    rank host store id = match lookup RecordRow.id store.records id with
      | some row => (Version.key host row.toVersion : WithBot VersionKey)
      | none => ⊥ := by
  unfold rank
  rw [versionSummary_record h hid]
  cases lookup RecordRow.id store.records id <;> rfl

theorem rank_written (h : WellFormed store) (hkind : incoming.contentType ≠ recordContentType)
    (hid : isRecordId incoming.id = false) (id : String) :
    rank host (written host store incoming) id =
      if incoming.id = id then
        (versionKey (stampOf host store incoming) incoming.contentHash incoming.deleted
          (originOr incoming.originDeviceId host.here) : WithBot VersionKey)
      else rank host store id := by
  have hwf := wellFormed_written host h hid
  by_cases heq : incoming.id = id
  · subst heq
    rw [if_pos rfl, rank_item host hwf hid]
    simp only [written, lookup_put, projected_id, rowOf_id, if_true, key_projected, stampOf,
      if_neg hkind]
    rfl
  · rw [if_neg heq]
    cases hrec : isRecordId id with
    | true => rw [rank_record host hwf hrec, rank_record host h hrec, written]
    | false =>
      rw [rank_item host hwf hrec, rank_item host h hrec]
      simp only [written, lookup_put, projected_id, rowOf_id, if_neg heq]

theorem rank_recorded (h : WellFormed store) (hkind : incoming.contentType = recordContentType)
    (hid : isRecordId incoming.id = true) (hlive : incoming.deleted = false) (record : Record)
    (id : String) :
    rank host (recorded store incoming record) id =
      if incoming.id = id then
        (versionKey (stampOf host store incoming) incoming.contentHash incoming.deleted
          (originOr incoming.originDeviceId host.here) : WithBot VersionKey)
      else rank host store id := by
  have hwf := wellFormed_recorded h hid record
  obtain ⟨f, hitems, hf⟩ := items_recorded store incoming record
  by_cases heq : incoming.id = id
  · subst heq
    rw [if_pos rfl, rank_record host hwf hid, records_recorded, lookup_put, if_pos rfl, stampOf,
      if_pos hkind, hlive]
    rfl
  · rw [if_neg heq]
    cases hrec : isRecordId id with
    | true =>
      rw [rank_record host hwf hrec, rank_record host h hrec, records_recorded, lookup_put,
        if_neg heq]
    | false =>
      rw [rank_item host hwf hrec, rank_item host h hrec, hitems, lookup_map f (keeps_id hf)]
      cases lookup ItemRow.id store.items id with
      | none => rfl
      | some row => exact congrArg _ (keeps_key host hf row)

/-- A write stores its version under its id and leaves every other id's content. -/
theorem rank_upsert (h : WellFormed store) (hstored : (store.upsert host incoming).2 = true)
    (id : String) :
    rank host (store.upsert host incoming).1 id =
      if incoming.id = id then
        (versionKey (stampOf host store incoming) incoming.contentHash incoming.deleted
          (originOr incoming.originDeviceId host.here) : WithBot VersionKey)
      else rank host store id := by
  by_cases hkind : incoming.contentType = recordContentType
  · rcases upsert_record host hkind with heq | ⟨text, record, -, hvalid, -, heq⟩
    · rw [heq] at hstored
      simp at hstored
    · obtain ⟨hid, hlive⟩ := isRecordId_of_validWire host hvalid
      rw [heq]
      exact rank_recorded host h hkind hid hlive record id
  · cases hid : isRecordId incoming.id with
    | true =>
      unfold Store.upsert at hstored
      rw [if_neg hkind, if_pos hid] at hstored
      simp at hstored
    | false =>
      rw [upsert_item host hkind hid] at hstored ⊢
      split
      · exact rank_written host h hkind hid id
      · rename_i hfits
        rw [if_neg hfits] at hstored
        simp at hstored

end CopyPaste.Merge.Effects
