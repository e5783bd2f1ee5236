import CopyPaste.Lib.Texts
import CopyPaste.Merge.Onward
import CopyPaste.Organization.Records

/-!
The tables of the organization against its records. A key tells one record from another,
whatever its kind, so that the write of a record replaces the row of the same tag, link or
pin and no other. Through gestures, merges and the seeding the tables stay what the
current records say.
-/

namespace CopyPaste.Organization.Exact

open Lib.Checks Lib.Rows Lib.Guarded Lib.Texts Merge.Comparator Merge.Payload Merge.Storage Merge.Prepare
  Merge.Batch Merge.Effects Merge.Repin Merge.Onward Records Files.Bodies

section Keys

/-- What a record is about: a tag, a tag on a clip, or the pin of a clip. -/
inductive Slot
  | tag (id : String)
  | membership (clipId tagId : String)
  | pin (clipId : String)
  deriving DecidableEq, Repr

def slot : Record → Slot
  | .tag id _ _ => .tag id
  | .membership clipId tagId _ => .membership clipId tagId
  | .pin clipId _ _ => .pin clipId

/-- The text whose digest is the id of a record. -/
def Slot.key : Slot → String
  | .tag id => "tag:" ++ id
  | .membership clipId tagId =>
    "membership:" ++ toString clipId.utf8ByteSize ++ ":" ++ clipId ++ ":" ++ tagId
  | .pin clipId => "pin:" ++ clipId

theorem record_id_eq (host : Host) (record : Record) :
    record.id host = recordIdHead ++ host.sha256 (utf8 (slot record).key) := by
  cases record <;> rfl

/-- The length in front of the clip's id tells where it ends. -/
theorem key_injective : Function.Injective Slot.key := by
  intro s t h
  have hchars := congrArg String.toList h
  cases s with
  | tag id =>
    cases t with
    | tag other => rw [String.append_right_inj _ |>.1 h]
    | membership clipId tagId | pin other => simp [Slot.key, String.toList_append] at hchars
  | pin clipId =>
    cases t with
    | pin other => rw [String.append_right_inj _ |>.1 h]
    | membership other tagId | tag id => simp [Slot.key, String.toList_append] at hchars
  | membership clipId tagId =>
    cases t with
    | tag id | pin id => simp [Slot.key, String.toList_append] at hchars
    | membership clipId' tagId' =>
      have hrest : toString clipId.utf8ByteSize ++ ":" ++ (clipId ++ (":" ++ tagId)) =
          toString clipId'.utf8ByteSize ++ ":" ++ (clipId' ++ (":" ++ tagId')) := by
        refine (String.append_right_inj "membership:").1 ?_
        simpa [Slot.key, String.append_assoc] using h
      obtain ⟨hsize, htexts⟩ := number_colon_inj hrest
      have hbytes := congrArg utf8 htexts
      rw [utf8_append clipId, utf8_append clipId'] at hbytes
      obtain ⟨hclip, htag⟩ := List.append_inj hbytes (by rw [length_utf8, length_utf8, hsize])
      obtain rfl := utf8_injective hclip
      rw [(String.append_right_inj ":").1 (utf8_injective htag)]

/-- No two keys of records have one digest. -/
def NoKeyCollision (host : Host) : Prop :=
  ∀ s t : Slot, host.sha256 (utf8 s.key) = host.sha256 (utf8 t.key) → s.key = t.key

theorem slot_of_id {host : Host} (hkeys : NoKeyCollision host) {record other : Record}
    (h : record.id host = other.id host) : slot record = slot other := by
  rw [record_id_eq, record_id_eq] at h
  exact key_injective (hkeys _ _ ((String.append_right_inj _).1 h))

theorem id_of_slot {host : Host} {record other : Record} (h : slot record = slot other) :
    record.id host = other.id host := by
  rw [record_id_eq, record_id_eq, h]

end Keys

section Tables

/-- What a stored record says. -/
def decode (sys : Organizer) (row : RecordRow) : Option Record :=
  row.payload.bind fun payload =>
    ((sys.openBinary payload.2 row.id).bind fromUtf8).bind sys.host.parseRecord

/-- The tables are what the records say, each key once. -/
structure Projected (sys : Organizer) (store : Store) : Prop where
  recordIds : (store.records.map RecordRow.id).Nodup
  tagIds : (store.tags.map TagRow.id).Nodup
  linkIds : (store.clipTags.map fun link => (link.clipId, link.tagId)).Nodup
  pinIds : (store.pinStates.map PinState.clipId).Nodup
  readable : ∀ row ∈ store.records, ∃ record, decode sys row = some record ∧
    record.valid = true ∧ record.id sys.host = row.id
  tags : ∀ tag, tag ∈ store.tags ↔
    ∃ row ∈ store.records, decode sys row = some (.tag tag.id tag.name tag.deleted)
  links : ∀ link, link ∈ store.clipTags ↔
    ∃ row ∈ store.records, decode sys row = some (.membership link.clipId link.tagId link.assigned)
  pins : ∀ pin, pin ∈ store.pinStates ↔
    ∃ row ∈ store.records, decode sys row = some (.pin pin.clipId pin.pinned pin.pinOrder) ∧
      row.createdAt = pin.updatedAt

variable {sys : Organizer}

variable {record : Record} {store : Store} {incoming : IncomingItem} {text : String}

/-- Of the records after a write, those that say something of another kind or about
another thing are the ones before it. -/
theorem decoded_put (hkeys : NoKeyCollision sys.host) {records : List RecordRow} {row : RecordRow}
    (hreadable : ∀ row ∈ records, ∃ record, decode sys row = some record ∧
      record.valid = true ∧ record.id sys.host = row.id) (hdecode : decode sys row = some record)
    (hid : record.id sys.host = row.id) (said : Record) (P : RecordRow → Prop) :
    (∃ r ∈ put RecordRow.id records row, decode sys r = some said ∧ P r) ↔
      (slot said ≠ slot record ∧ ∃ r ∈ records, decode sys r = some said ∧ P r) ∨
        (said = record ∧ P row) := by
  constructor
  · rintro ⟨r, hr, hsaid, hp⟩
    rcases (mem_put _ _ _).1 hr with ⟨hmem, hne⟩ | rfl
    · refine Or.inl ⟨fun hslot => hne ?_, r, hmem, hsaid, hp⟩
      obtain ⟨other, hother, -, hown⟩ := hreadable r hmem
      obtain rfl : said = other := Option.some.inj (hsaid.symm.trans hother)
      rw [← hown, id_of_slot hslot, hid]
    · exact Or.inr ⟨Option.some.inj (hsaid.symm.trans hdecode), hp⟩
  · rintro (⟨hslot, r, hmem, hsaid, hp⟩ | ⟨rfl, hp⟩)
    · refine ⟨r, (mem_put _ _ _).2 (Or.inl ⟨hmem, fun heq => hslot ?_⟩), hsaid, hp⟩
      obtain ⟨other, hother, -, hown⟩ := hreadable r hmem
      obtain rfl : said = other := Option.some.inj (hsaid.symm.trans hother)
      exact slot_of_id hkeys (hown.trans (heq.trans hid.symm))
    · exact ⟨row, (mem_put _ _ _).2 (Or.inr rfl), hdecode, hp⟩

/-- What is projected does not depend on the items. -/
theorem Projected.withItems (h : Projected sys store) (items : List ItemRow) :
    Projected sys { store with items := items } :=
  { h with }

theorem Projected.withIcons (h : Projected sys store) (icons : List IconRow) :
    Projected sys { store with icons := icons } :=
  { h with }

def recordRow (incoming : IncomingItem) : RecordRow :=
  ⟨incoming.id, incoming.payload, incoming.contentHash, incoming.createdAt, incoming.originDeviceId⟩

theorem Projected.recorded (hkeys : NoKeyCollision sys.host) (h : Projected sys store)
    (hdecode : decode sys (recordRow incoming) = some record) (hvalid : record.valid = true)
    (hid : record.id sys.host = incoming.id) : Projected sys (recorded store incoming record) := by
  have hput := decoded_put hkeys h.readable hdecode hid
  have hrecords : (put RecordRow.id store.records (recordRow incoming)).map RecordRow.id |>.Nodup :=
    nodup_put _ _ h.recordIds
  have hreadable : ∀ row ∈ put RecordRow.id store.records (recordRow incoming),
      ∃ record, decode sys row = some record ∧ record.valid = true ∧
        record.id sys.host = row.id := by
    intro row hrow
    rcases (mem_put _ _ _).1 hrow with ⟨hmem, -⟩ | rfl
    · exact h.readable row hmem
    · exact ⟨record, hdecode, hvalid, hid⟩
  have hsaid : ∀ said : Record,
      (∃ r ∈ put RecordRow.id store.records (recordRow incoming), decode sys r = some said) ↔
        (slot said ≠ slot record ∧ ∃ r ∈ store.records, decode sys r = some said) ∨
          said = record := by
    intro said
    simpa using hput said fun _ => True
  cases record with
  | tag id name deleted =>
    refine ⟨hrecords, nodup_put _ _ h.tagIds, h.linkIds, h.pinIds, hreadable, ?_, ?_, ?_⟩
    · intro tag
      have htags : (Merge.Effects.recorded store incoming (.tag id name deleted)).tags =
          put TagRow.id store.tags ⟨id, name, deleted⟩ := rfl
      rw [htags, mem_put, h.tags]
      refine Iff.trans ?_ (hsaid _).symm
      obtain ⟨tagId, tagName, tagDeleted⟩ := tag
      simp only [slot, ne_eq, Slot.tag.injEq, TagRow.mk.injEq, Record.tag.injEq]
      exact or_congr and_comm Iff.rfl
    · intro link
      refine (h.links link).trans (Iff.trans ?_ (hsaid _).symm)
      simp [slot]
    · intro pin
      refine (h.pins pin).trans (Iff.trans ?_ (hput _ _).symm)
      simp [slot]
  | membership clipId tagId assigned =>
    refine ⟨hrecords, h.tagIds, nodup_put _ _ h.linkIds, h.pinIds, hreadable, ?_, ?_, ?_⟩
    · intro tag
      refine (h.tags tag).trans (Iff.trans ?_ (hsaid _).symm)
      simp [slot]
    · intro link
      have hlinks : (Merge.Effects.recorded store incoming
          (.membership clipId tagId assigned)).clipTags =
          put (fun link => (link.clipId, link.tagId)) store.clipTags ⟨clipId, tagId, assigned⟩ := rfl
      rw [hlinks, mem_put, h.links]
      refine Iff.trans ?_ (hsaid _).symm
      obtain ⟨linkClip, linkTag, linkAssigned⟩ := link
      simp only [slot, ne_eq, Slot.membership.injEq, ClipTag.mk.injEq, Record.membership.injEq,
        Prod.mk.injEq]
      exact or_congr and_comm Iff.rfl
    · intro pin
      refine (h.pins pin).trans (Iff.trans ?_ (hput _ _).symm)
      simp [slot]
  | pin clipId pinned order =>
    rw [recorded_pin]
    refine ⟨hrecords, h.tagIds, h.linkIds, nodup_put _ _ h.pinIds, hreadable, ?_, ?_, ?_⟩
    · intro tag
      refine (h.tags tag).trans (Iff.trans ?_ (hsaid _).symm)
      simp [slot]
    · intro link
      refine (h.links link).trans (Iff.trans ?_ (hsaid _).symm)
      simp [slot]
    · intro pin
      refine (mem_put _ _ _).trans (Iff.trans ?_ (hput _ _).symm)
      rw [h.pins]
      obtain ⟨pinClip, pinPinned, pinOrder, pinStamp⟩ := pin
      simp only [slot, ne_eq, Slot.pin.injEq, PinState.mk.injEq, Record.pin.injEq]
      show _ ↔ _ ∨ _ ∧ incoming.createdAt = pinStamp
      rw [eq_comm (a := incoming.createdAt), and_assoc, and_assoc]
      exact or_congr and_comm Iff.rfl

/-- A payload that is opened under its id reads as the text of its record. -/
theorem decode_recordRow {payload : List UInt8 × List UInt8}
    (hpayload : incoming.payload = some payload)
    (hopens : (sys.openBinary payload.2 incoming.id).bind fromUtf8 = some text) :
    decode sys (recordRow incoming) = sys.host.parseRecord text := by
  show (incoming.payload.bind fun payload => ((sys.openBinary payload.2 incoming.id).bind
    fromUtf8).bind sys.host.parseRecord) = _
  rw [hpayload, Option.bind_some, hopens, Option.bind_some]

/-- A record in an envelope that is accepted is valid and of the envelope's id, and its
text is within the limit. -/
theorem valid_of_validWire {id : String} {deleted : Bool}
    (h : validWire sys.host id recordContentType text deleted = true)
    (hrecord : sys.host.parseRecord text = some record) :
    record.valid = true ∧ record.id sys.host = id ∧ text.utf8ByteSize ≤ maxRecordBytes := by
  unfold validWire at h
  rw [if_neg (by simp)] at h
  simp only [Bool.and_eq_true, decide_eq_true_eq, hrecord, Option.any_some, beq_iff_eq] at h
  exact ⟨h.2.1, h.2.2, h.1.2⟩

/-- A write keeps the tables when what it stores reads as the text it projects. -/
theorem Projected.upsert (hkeys : NoKeyCollision sys.host) (h : Projected sys store)
    (hsealed : incoming.contentType = recordContentType → incoming.deleted = false →
      ∀ text, incoming.searchText = some text → text.utf8ByteSize ≤ maxRecordBytes →
        ∃ payload, incoming.payload = some payload ∧
          (sys.openBinary payload.2 incoming.id).bind fromUtf8 = some text) :
    Projected sys (store.upsert sys.host incoming).1 := by
  by_cases hkind : incoming.contentType = recordContentType
  · rcases upsert_record sys.host hkind with heq | ⟨text, record, htext, hwire, hrecord, heq⟩
    · rw [heq]
      exact h
    · rw [heq]
      obtain ⟨hvalid, hid, hsize⟩ := valid_of_validWire hwire hrecord
      obtain ⟨payload, hpayload, hopens⟩ :=
        hsealed hkind (isRecordId_of_validWire sys.host hwire).2 text htext hsize
      exact h.recorded hkeys ((decode_recordRow hpayload hopens).trans hrecord) hvalid hid
  · unfold Store.upsert
    rw [if_neg hkind]
    split
    · exact h
    · dsimp only
      split
      · exact h
      · rw [applyPinProjection_eq]
        exact (h.withIcons _).withItems _

theorem Projected.upsertRecord (hkeys : NoKeyCollision sys.host) (h : Projected sys store)
    {payload : List UInt8 × List UInt8} (hkind : incoming.contentType = recordContentType)
    (hpayload : incoming.payload = some payload) (htext : incoming.searchText = some text)
    (hopens : text.utf8ByteSize ≤ maxRecordBytes →
      (sys.openBinary payload.2 incoming.id).bind fromUtf8 = some text) :
    Projected sys (store.upsertRecord sys.host incoming).1 := by
  have hsame : store.upsertRecord sys.host incoming = store.upsert sys.host incoming :=
    (if_pos hkind).symm
  rw [hsame]
  refine h.upsert hkeys fun _ _ other hother hsize => ⟨payload, hpayload, ?_⟩
  obtain rfl := Option.some.inj (htext.symm.trans hother)
  exact hopens hsize

end Tables

section Steps

variable {sys : Organizer} (hkeys : NoKeyCollision sys.host)
  (hopens : ∀ id bytes, bytes.length ≤ maxRecordBytes →
    sys.openBinary (sys.host.encrypt recordContentType id bytes).2 id = some bytes)

include hkeys hopens

variable {clock : Clock} {store after : Store}

theorem Projected.write (h : Projected sys store) {record : Record}
    (hwrite : write sys clock store record = .ok after) : Projected sys after := by
  unfold Records.write at hwrite
  split at hwrite
  · cases hwrite
  · dsimp only at hwrite
    split at hwrite
    · obtain rfl := Except.ok.inj hwrite
      exact h
    · obtain rfl := Except.ok.inj hwrite
      generalize max (nextStamp (lookup RecordRow.id store.records (record.id sys.host))
        (clock.record (record.id sys.host))) (pinStamp store record) = stamp
      refine h.upsertRecord hkeys rfl rfl rfl fun hsize => ?_
      show (sys.openBinary (sys.host.encrypt recordContentType (record.id sys.host)
        (utf8 (sys.render record))).2 (record.id sys.host)).bind fromUtf8 = _
      rw [hopens _ _ ((length_utf8 _).trans_le hsize), Option.bind_some, fromUtf8_utf8]

theorem Projected.writePin (h : Projected sys store) {id : String}
    (hwrite : writePin sys clock store id = .ok after) : Projected sys after := by
  unfold Records.writePin at hwrite
  split at hwrite
  · obtain rfl := Except.ok.inj hwrite
    exact h
  · exact h.write hkeys hopens hwrite

theorem Projected.writePins {rows : List ItemRow} (h : Projected sys store)
    (hwrite : writePins sys clock store rows = .ok after) : Projected sys after := by
  induction rows generalizing store with
  | nil =>
    obtain rfl := Except.ok.inj hwrite
    exact h
  | cons row rest ih =>
    unfold Records.writePins at hwrite
    obtain ⟨next, hone, hwrite⟩ := bind_ok_iff.1 hwrite
    exact ih (h.writePin hkeys hopens hone) hwrite

omit hkeys hopens in
theorem Projected.repin (h : Projected sys store) (id : String) (condition : ItemRow → Bool)
    (f : ItemRow → ItemRow) : Projected sys (repin store id condition f) :=
  h.withItems _

omit hkeys hopens in
theorem Projected.renumber {rows : List ItemRow} {index : Nat} (h : Projected sys store) :
    Projected sys (renumber clock store index rows) := by
  induction rows generalizing store index with
  | nil => exact h
  | cons row rest ih => exact ih (h.repin _ _ _)

theorem Projected.setPinned {id : String} {pinned found : Bool} (h : Projected sys store)
    (hset : setPinned sys clock store id pinned = .ok (after, found)) : Projected sys after := by
  unfold Records.setPinned at hset
  cases hlive : liveRow store id with
  | none =>
    rw [hlive] at hset
    obtain ⟨rfl, -⟩ := Prod.mk.inj (Except.ok.inj hset)
    exact h
  | some row =>
    rw [hlive] at hset
    obtain ⟨next, hwrite, hset⟩ := bind_ok_iff.1 hset
    obtain ⟨rfl, -⟩ := Prod.mk.inj (Except.ok.inj hset)
    refine Projected.writePin hkeys hopens ?_ hwrite
    unfold withPin
    split <;> exact h.repin _ _ _

theorem Projected.reorderPinned {ids : List String} {count : Nat} (h : Projected sys store)
    (hset : reorderPinned sys clock store ids = .ok (after, count)) : Projected sys after := by
  unfold Records.reorderPinned at hset
  obtain ⟨next, hwrite, hset⟩ := bind_ok_iff.1 hset
  obtain ⟨rfl, -⟩ := Prod.mk.inj (Except.ok.inj hset)
  exact Projected.writePins hkeys hopens h.renumber hwrite

omit hopens in
theorem Projected.adopt (h : Projected sys store) (copy : ItemRow) :
    Projected sys (adoptLegacyRecord sys store copy) := by
  have hgone := h.withItems (store.items.filter fun row => row.id ≠ copy.id)
  unfold adoptLegacyRecord
  dsimp only
  split
  · exact hgone
  · rename_i payload hpayload
    split
    · exact hgone
    · rename_i text htext
      exact hgone.upsertRecord hkeys rfl rfl rfl fun _ => htext

theorem Projected.seedRound {adopt done : Bool} (h : Projected sys store)
    (hseed : seedRound sys clock store adopt = .ok (after, done)) : Projected sys after := by
  have hadopted : ∀ (copies : List ItemRow) (store : Store), Projected sys store →
      Projected sys (copies.foldl (adoptLegacyRecord sys) store) := by
    intro copies
    induction copies with
    | nil => exact fun _ h => h
    | cons copy rest ih => exact fun store h => ih _ (h.adopt hkeys copy)
  have hstart : Projected sys (if adopt then adoptLegacyRecords sys store else store) := by
    split
    · exact hadopted _ store h
    · exact h
  unfold Records.seedRound at hseed
  dsimp only at hseed
  generalize (if adopt then adoptLegacyRecords sys store else store) = start at hseed hstart
  obtain ⟨next, hwrite, hseed⟩ := bind_ok_iff.1 hseed
  obtain ⟨rfl, -⟩ := Prod.mk.inj (Except.ok.inj hseed)
  exact hstart.writePins hkeys hopens hwrite

theorem Projected.assignClips {tagId : String} {assigned : Bool} {clipIds : List String}
    (h : Projected sys store)
    (hassign : assignClips sys clock store tagId assigned clipIds = .ok after) :
    Projected sys after := by
  induction clipIds generalizing store with
  | nil =>
    obtain rfl := Except.ok.inj hassign
    exact h
  | cons clipId rest ih =>
    unfold Records.assignClips at hassign
    obtain ⟨-, hassign⟩ := unless_ok_iff.1 hassign
    obtain ⟨next, hwrite, hassign⟩ := bind_ok_iff.1 hassign
    exact ih (h.write hkeys hopens hwrite) hassign

theorem Projected.assignTags {clipIds : List String} {assigned : Bool} {tagIds : List String}
    (h : Projected sys store)
    (hassign : assignTags sys clock store clipIds assigned tagIds = .ok after) :
    Projected sys after := by
  induction tagIds generalizing store with
  | nil =>
    obtain rfl := Except.ok.inj hassign
    exact h
  | cons tagId rest ih =>
    unfold Records.assignTags at hassign
    obtain ⟨-, hassign⟩ := unless_ok_iff.1 hassign
    obtain ⟨next, hclips, hassign⟩ := bind_ok_iff.1 hassign
    exact ih (h.assignClips hkeys hopens hclips) hassign

theorem Projected.mutate {mutation : HistoryTagMutation} (h : Projected sys store)
    (hmutate : mutateHistoryTags sys clock store mutation = .ok after) : Projected sys after := by
  cases mutation with
  | save id name drawn =>
    unfold mutateHistoryTags at hmutate
    obtain ⟨saved, hid, hmutate⟩ := bind_ok_iff.1 hmutate
    obtain ⟨-, hmutate⟩ := unless_ok_iff.1 hmutate
    exact h.write hkeys hopens hmutate
  | delete id =>
    simp only [mutateHistoryTags] at hmutate
    split at hmutate
    · obtain rfl := Except.ok.inj hmutate
      exact h
    · exact h.write hkeys hopens hmutate
  | assign clipIds tagIds assigned =>
    simp only [mutateHistoryTags] at hmutate
    split at hmutate
    · cases hmutate
    · exact h.assignTags hkeys hopens hmutate

omit hkeys in
/-- A prepared record is stored as the text it is projected from. -/
theorem opens_prepared {incoming : RemoteVersion} (pin : Option RemotePin) (held : Option Version)
    (hkind : incoming.contentType = recordContentType) (hlive : incoming.deleted = false)
    {text : String} (htext : organizationText incoming = some text)
    (hsize : text.utf8ByteSize ≤ maxRecordBytes) :
    ∃ payload, (prepared sys.host incoming pin held).payload = some payload ∧
      (sys.openBinary payload.2 incoming.itemId).bind fromUtf8 = some text := by
  unfold organizationText at htext
  rw [if_pos hkind] at htext
  obtain ⟨bytes, hbytes, htext⟩ := Option.bind_eq_some_iff.1 htext
  refine ⟨sys.host.encrypt recordContentType incoming.itemId bytes, ?_, ?_⟩
  · show (if incoming.deleted then none
      else some (sys.host.encrypt incoming.contentType incoming.itemId incoming.bytes)) = _
    rw [hlive, if_neg (by simp), hkind, RemoteVersion.bytes, hbytes, Option.getD_some]
  · show (sys.openBinary (sys.host.encrypt recordContentType incoming.itemId bytes).2
      incoming.itemId).bind fromUtf8 = some text
    have hlength : bytes.length ≤ maxRecordBytes := by
      rw [← utf8_of_fromUtf8 htext, length_utf8]
      exact hsize
    rw [hopens _ _ hlength, Option.bind_some, htext]

/-- A page of versions, of records and of items, with or without pins. -/
theorem Projected.applyPage {page : List Incoming} {applied : List P2pApply}
    (h : Projected sys store) (hpage : applyPage sys.host store page = .ok (after, applied)) :
    Projected sys after := by
  refine applyPage_prepared ?_ ?_ h hpage
  · intro store incoming pin _ _ h
    unfold Store.applyPinState
    split
    · exact h
    · exact h.withItems _
  · intro store incoming pin held ready _ hready h
    obtain ⟨rfl, -, -⟩ := prepareRemoteVersion_eq_some hready
    refine h.upsert hkeys ?_
    intro hkind hlive text htext hsize
    have hkind' : incoming.1.contentType = recordContentType := hkind
    have htext' : organizationText incoming.1 = some text := by
      rw [← htext]
      exact (if_pos hkind').symm
    exact opens_prepared hopens pin held hkind' hlive htext' hsize

end Steps

section Runs

/-- What changes a store: the gestures, the merges and the seeding, and whatever else
happens to the items. -/
inductive Op
  | tags (clock : Clock) (mutation : HistoryTagMutation)
  | pin (clock : Clock) (id : String) (pinned : Bool)
  | reorder (clock : Clock) (ids : List String)
  | merge (page : List Incoming)
  | seed (clock : Clock) (adopt : Bool)
  | items (rows : List ItemRow)

variable (sys : Organizer)

/-- The store after an operation that succeeds. -/
def Op.run (store : Store) : Op → Option Store
  | .tags clock mutation => (mutateHistoryTags sys clock store mutation).toOption
  | .pin clock id pinned => ((setPinned sys clock store id pinned).map Prod.fst).toOption
  | .reorder clock ids => ((reorderPinned sys clock store ids).map Prod.fst).toOption
  | .merge page => ((applyPage sys.host store page).map Prod.fst).toOption
  | .seed clock adopt => ((seedRound sys clock store adopt).map Prod.fst).toOption
  | .items rows => some { store with items := rows }

/-- An operation that fails is rolled back. -/
def machine : Machine Store Op where
  start store := store.records = [] ∧ store.tags = [] ∧ store.clipTags = [] ∧ store.pinStates = []
  step store op := some ((op.run sys store).getD store)

variable {sys}

theorem toOption_map_fst {ε α β : Type} {answer : Except ε (α × β)} {a : α}
    (h : (answer.map Prod.fst).toOption = some a) : ∃ b, answer = .ok (a, b) := by
  rcases answer with e | ⟨first, second⟩
  · cases h
  · obtain rfl := Option.some.inj h
    exact ⟨second, rfl⟩

theorem Projected.run (hkeys : NoKeyCollision sys.host)
    (hopens : ∀ id bytes, bytes.length ≤ maxRecordBytes →
      sys.openBinary (sys.host.encrypt recordContentType id bytes).2 id = some bytes)
    {store after : Store} (h : Projected sys store) {op : Op}
    (hrun : op.run sys store = some after) :
    Projected sys after := by
  cases op with
  | tags clock mutation =>
    simp only [Op.run] at hrun
    cases hmutate : mutateHistoryTags sys clock store mutation with
    | error e =>
      rw [hmutate] at hrun
      cases hrun
    | ok next =>
      rw [hmutate] at hrun
      obtain rfl := Option.some.inj hrun
      exact h.mutate hkeys hopens hmutate
  | pin clock id pinned =>
    obtain ⟨found, hset⟩ := toOption_map_fst hrun
    exact h.setPinned hkeys hopens hset
  | reorder clock ids =>
    obtain ⟨count, hset⟩ := toOption_map_fst hrun
    exact h.reorderPinned hkeys hopens hset
  | merge page =>
    obtain ⟨applied, hpage⟩ := toOption_map_fst hrun
    exact h.applyPage hkeys hopens hpage
  | seed clock adopt =>
    obtain ⟨done, hseed⟩ := toOption_map_fst hrun
    exact h.seedRound hkeys hopens hseed
  | items rows =>
    obtain rfl := Option.some.inj hrun
    exact h.withItems rows

/-- The induction over a run. -/
theorem projected_of_reaches (hkeys : NoKeyCollision sys.host)
    (hopens : ∀ id bytes, bytes.length ≤ maxRecordBytes →
      sys.openBinary (sys.host.encrypt recordContentType id bytes).2 id = some bytes)
    {store : Store} (hs : Reaches (machine sys) (fun _ _ => True) store) :
    Projected sys store := by
  have hstart : ∀ store, (machine sys).start store → Projected sys store := by
    rintro store ⟨hrecords, htags, hlinks, hpins⟩
    refine ⟨?_, ?_, ?_, ?_, ?_, ?_, ?_, ?_⟩ <;> simp [hrecords, htags, hlinks, hpins]
  have hkept : ∀ store after op, Projected sys store → True →
      (machine sys).step store op = some after → Projected sys after := by
    intro store after op h _ hstep
    obtain rfl := Option.some.inj hstep
    cases hrun : op.run sys store with
    | none => exact h
    | some next => exact h.run hkeys hopens hrun
  exact hs.invariant hstart hkept

end Runs

section Limit

variable {sys : Organizer}

def liveTagId (sys : Organizer) (row : RecordRow) : Option String :=
  match decode sys row with
  | some (.tag id _ false) => some id
  | _ => none

theorem liveTagId_eq_some {row : RecordRow} {id : String} :
    liveTagId sys row = some id ↔ ∃ name, decode sys row = some (.tag id name false) := by
  unfold liveTagId
  split
  · rename_i found name h
    rw [h]
    simp [eq_comm]
  · rename_i h
    constructor
    · intro hnone
      cases hnone
    · rintro ⟨name, hdecode⟩
      exact absurd hdecode (h id name)

/-- The tags and the records that define one are as many. -/
theorem Projected.length_liveTags {store : Store} (h : Projected sys store) :
    (liveTags store).length = (store.records.filterMap (liveTagId sys)).length := by
  have htags : ((liveTags store).map TagRow.id).Nodup :=
    h.tagIds.sublist (List.filter_sublist.map _)
  have hrecords : (store.records.filterMap (liveTagId sys)).Nodup := by
    refine List.pairwise_filterMap.2 ((List.pairwise_map.1 h.recordIds).imp_of_mem ?_)
    intro row other hrow hother hne id hid id' hid' heq
    obtain rfl : id = id' := heq
    obtain ⟨name, hdecode⟩ := liveTagId_eq_some.1 hid
    obtain ⟨name', hdecode'⟩ := liveTagId_eq_some.1 hid'
    obtain ⟨record, hrecord, -, hown⟩ := h.readable row hrow
    obtain ⟨record', hrecord', -, hown'⟩ := h.readable other hother
    obtain rfl := Option.some.inj (hdecode.symm.trans hrecord)
    obtain rfl := Option.some.inj (hdecode'.symm.trans hrecord')
    exact hne (hown.symm.trans hown')
  have hsame : ∀ id, id ∈ (liveTags store).map TagRow.id ↔
      id ∈ store.records.filterMap (liveTagId sys) := by
    intro id
    rw [List.mem_map, List.mem_filterMap]
    constructor
    · rintro ⟨tag, htag, rfl⟩
      obtain ⟨hmem, hlive⟩ := List.mem_filter.1 htag
      rw [Bool.not_eq_true'] at hlive
      obtain ⟨row, hrow, hdecode⟩ := (h.tags tag).1 hmem
      exact ⟨row, hrow, liveTagId_eq_some.2 ⟨tag.name, hlive ▸ hdecode⟩⟩
    · rintro ⟨row, hrow, hid⟩
      obtain ⟨name, hdecode⟩ := liveTagId_eq_some.1 hid
      refine ⟨⟨id, name, false⟩, List.mem_filter.2 ⟨?_, rfl⟩, rfl⟩
      exact (h.tags ⟨id, name, false⟩).2 ⟨row, hrow, hdecode⟩
  rw [← ((List.perm_ext_iff_of_nodup htags hrecords).2 hsame).length_eq, List.length_map]

theorem length_inTagOrder (tags : List TagRow) : (inTagOrder tags).length = tags.length :=
  (List.perm_insertionSort _ _).length_eq

theorem catalogue_ok_iff (store : Store) :
    (∃ tags, catalogue store = .ok tags) ↔ (liveTags store).length ≤ maxHistoryTags := by
  unfold catalogue
  dsimp only
  rw [List.length_map, List.length_take, length_inTagOrder]
  split
  · constructor
    · rintro ⟨tags, h⟩
      cases h
    · omega
  · constructor
    · omega
    · exact fun _ => ⟨_, rfl⟩

theorem historyFacets_ok_iff (profiles : String → DeviceProfile) (localId localName : String)
    (localClass : DeviceClass) (store : Store) :
    (∃ facets, historyFacets profiles localId localName localClass store = .ok facets) ↔
      (liveTags store).length ≤ maxHistoryTags := by
  rw [← catalogue_ok_iff]
  unfold historyFacets
  cases catalogue store with
  | error e => simp [bind, Except.bind]
  | ok tags => simp [bind, Except.bind, pure, Except.pure]

end Limit

/-- An organizer for concrete runs: a tag is written as its id and read as one named by
it. -/
def sampleOrganizer : Organizer where
  host := { sampleHost with parseRecord := fun text => some (.tag text text false) }
  render := fun record =>
    match record with
    | .tag id _ _ => id
    | _ => ""
  openBinary := fun bytes _ => some bytes

theorem noKeyCollision_sample : NoKeyCollision sampleOrganizer.host := by
  intro s t h
  refine utf8_injective ?_
  have hchars := String.ofList_injective h
  refine (List.map_injective_iff.2 ?_) hchars
  intro byte other hbyte
  have hnumber : ∀ b : UInt8, (Char.ofNat b.toNat).toNat = b.toNat := by
    intro b
    have hb := b.toNat_lt
    have hvalid : b.toNat.isValidChar := Or.inl (by omega)
    unfold Char.ofNat
    rw [dif_pos hvalid]
    rfl
  have hnumbers := congrArg Char.toNat hbyte
  rw [hnumber, hnumber] at hnumbers
  exact UInt8.toNat_inj.1 hnumbers

theorem opens_sample (id : String) (bytes : List UInt8) (_ : bytes.length ≤ maxRecordBytes) :
    sampleOrganizer.openBinary (sampleOrganizer.host.encrypt recordContentType id bytes).2 id =
      some bytes := rfl

def numbered (k : Nat) : TagRow :=
  ⟨toString k, toString k, false⟩

def saveNumbered (k : Nat) : Op :=
  .tags ⟨fun _ => 0, fun _ => 1⟩ (.save none (toString k) (toString k))

theorem valid_digits {text : String} (hdigits : ∀ c ∈ text.toList, c.isDigit = true)
    (hne : text.toList ≠ []) (hlength : text.toList.length ≤ 64) :
    (Record.tag text text false).valid = true := by
  have hcode : ∀ c ∈ text.toList, 48 ≤ c.toNat ∧ c.toNat ≤ 57 := by
    intro c hc
    have hdigit := hdigits c hc
    simp only [Char.isDigit, Bool.and_eq_true, decide_eq_true_eq] at hdigit
    exact hdigit
  have hkept : ∀ c ∈ text.toList, isWhitespace c = false := by
    intro c hc
    have := hcode c hc
    unfold isWhitespace
    simp
    omega
  have hdrop : ∀ l : List Char, (∀ c ∈ l, c ∈ text.toList) → l.dropWhile isWhitespace = l := by
    intro l hl
    cases l with
    | nil => rfl
    | cons c rest => rw [List.dropWhile_cons_of_neg (by simp [hkept c (hl c List.mem_cons_self)])]
  have htrim : trim text.toList = text.toList := by
    unfold trim
    rw [hdrop _ fun c hc => hc, hdrop _ fun c hc => List.mem_reverse.1 hc, List.reverse_reverse]
  have hsize : text.utf8ByteSize = text.toList.length := by
    rw [← String.ofList_toList (s := text), String.utf8ByteSize_ofList, String.toList_ofList]
    refine utf8Len_eq_length fun c hc => Char.utf8Size_eq_one_iff.2 ?_
    have := (hcode c hc).2
    rw [UInt32.le_iff_toNat_le]
    change c.toNat ≤ 127
    omega
  have hrecord : isRecordId text = false := by
    refine Bool.eq_false_iff.2 fun habs => ?_
    have hhead := List.isPrefixOf_iff_prefix.1 habs
    have hletter := hdigits 'o' (hhead.subset (by decide))
    cases hletter
  have hcontrol : text.toList.any isControl = false := by
    refine List.any_eq_false.2 fun c hc => ?_
    have := hcode c hc
    unfold isControl
    simp
    omega
  have hident : validIdentifier text = true := by
    unfold validIdentifier
    rw [hrecord, hsize, decide_eq_true (by omega), Bool.and_true, Bool.not_false, Bool.and_true,
      bne_iff_ne]
    rintro rfl
    exact hne rfl
  simp only [Record.valid]
  rw [hident, htrim, hcontrol, ← String.length_toList,
    decide_eq_true (show _ ≤ maxTagNameChars from hlength)]
  simpa using hne

private theorem numbered_valid {k : Nat} (hk : k < 501) :
    (Record.tag (toString k) (toString k) false).valid = true := by
  have htext : (toString k).toList = Nat.toDigits 10 k := by
    rw [Nat.toString_eq_repr, Nat.toList_repr]
  apply valid_digits
  · rw [htext]
    exact fun c hc => Nat.isDigit_of_mem_toDigits (by decide) (by decide) hc
  · rw [htext]
    exact Nat.toDigits_ne_nil
  · rw [htext]
    exact Nat.toDigits_length 10 k 64 (by decide) (by omega)

theorem nocase_numbered (k : Nat) : nocase (toString k) = (toString k).toList := by
  unfold nocase
  conv_rhs => rw [← List.map_id (toString k).toList]
  refine List.map_congr_left fun c hc => ?_
  rw [Nat.toString_eq_repr, Nat.toList_repr] at hc
  have hdigit := Nat.isDigit_of_mem_toDigits (by decide) (by decide) hc
  unfold Char.toLower
  rw [dif_neg]
  · rfl
  · intro hupper
    simp only [Char.isDigit, Bool.and_eq_true, decide_eq_true_eq] at hdigit
    exact absurd (UInt32.le_trans hupper.1 hdigit.2) (by decide)

variable {k : Nat} {store : Store} {ks : List Nat}

theorem toString_inj {l : Nat} (h : toString k = toString l) : k = l :=
  (number_colon_inj (congrArg (fun text => text ++ ":" ++ "") h)).1

def numberedId (k : Nat) : String :=
  (Record.tag (toString k) (toString k) false).id sampleOrganizer.host

theorem parse_numbered (k : Nat) : sampleOrganizer.host.parseRecord (toString k) =
    some (.tag (toString k) (toString k) false) := rfl

theorem validWire_numbered (hk : k < 501) :
    validWire sampleOrganizer.host (numberedId k) recordContentType (toString k) false = true := by
  have hvalid := numbered_valid hk
  have hsize : (toString k).utf8ByteSize ≤ maxRecordBytes := by
    have hident := hvalid
    unfold Record.valid validIdentifier at hident
    simp only [Bool.and_eq_true, decide_eq_true_eq] at hident
    exact hident.1.1.1.1.1.2.trans (by decide)
  unfold validWire
  rw [if_neg (by simp), decide_eq_true hsize]
  rw [parse_numbered, Option.any_some, hvalid]
  unfold numberedId
  simp

theorem upsertRecord_numbered (htags : store.tags = ks.map numbered) (hk : k < 501) (hnew : k ∉ ks)
    (incoming : IncomingItem) (hid : incoming.id = numberedId k)
    (hkind : incoming.contentType = recordContentType) (hlive : incoming.deleted = false)
    (htext : incoming.searchText = some (toString k)) :
    (store.upsertRecord sampleOrganizer.host incoming).1.tags = (ks ++ [k]).map numbered ∧
      (store.upsertRecord sampleOrganizer.host incoming).1.items = store.items := by
  have hstored : (store.upsertRecord sampleOrganizer.host incoming).1 =
      recorded store incoming (.tag (toString k) (toString k) false) := by
    unfold Store.upsertRecord
    rw [htext]
    dsimp only
    rw [hkind, hlive, hid, validWire_numbered hk, if_pos rfl, parse_numbered]
    dsimp only
    rw [← hid]
    rfl
  rw [hstored]
  refine ⟨?_, rfl⟩
  show put TagRow.id store.tags (numbered k) = _
  unfold put
  rw [htags, List.map_append, List.filter_eq_self.2]
  · rfl
  · intro tag htag
    obtain ⟨l, hl, rfl⟩ := List.mem_map.1 htag
    rw [decide_eq_true_eq]
    intro hsame
    exact hnew (toString_inj hsame ▸ hl)

/-- The record of a tag that the store does not have is not held either. -/
theorem lookup_numbered (h : Projected sampleOrganizer store) (htags : store.tags = ks.map numbered)
    (hnew : k ∉ ks) : lookup RecordRow.id store.records (numberedId k) = none := by
  rw [lookup_eq_none_iff]
  intro row hrow hid
  obtain ⟨record, hdecode, -, hown⟩ := h.readable row hrow
  have hslot := slot_of_id noKeyCollision_sample (hown.trans hid)
  cases record with
  | tag id name deleted =>
    obtain rfl : id = toString k := Slot.tag.inj hslot
    have hmem := (h.tags ⟨_, name, deleted⟩).2 ⟨row, hrow, hdecode⟩
    rw [htags] at hmem
    obtain ⟨l, hl, heq⟩ := List.mem_map.1 hmem
    obtain rfl := toString_inj (congrArg TagRow.id heq)
    exact hnew hl
  | membership | pin => cases hslot

theorem save_numbered (h : Projected sampleOrganizer store) (htags : store.tags = ks.map numbered)
    (hk : k < 501) (hnew : k ∉ ks) (hroom : ks.length < maxHistoryTags) :
    ∃ after, (saveNumbered k).run sampleOrganizer store = some after ∧
      after.tags = (ks ++ [k]).map numbered ∧ after.items = store.items := by
  have hvalid := numbered_valid hk
  have htrim : String.ofList (trim (toString k).toList) = toString k := by
    unfold Record.valid at hvalid
    simp only [Bool.and_eq_true, beq_iff_eq] at hvalid
    rw [← hvalid.1.1.2, String.ofList_toList]
  have hlive : liveTags store = ks.map numbered := by
    unfold liveTags
    rw [htags, List.filter_eq_self]
    intro tag htag
    obtain ⟨l, -, rfl⟩ := List.mem_map.1 htag
    rfl
  have hsaved : savedId store none (toString k) = .ok (toString k) := by
    unfold savedId
    rw [hlive, List.length_map]
    exact if_neg (by omega)
  have hother : ((liveTags store).any fun tag =>
      decide (nocase tag.name = nocase (toString k) ∧ tag.id ≠ toString k)) = false := by
    rw [hlive, List.any_eq_false]
    intro tag htag
    obtain ⟨l, -, rfl⟩ := List.mem_map.1 htag
    rw [decide_eq_true_eq, not_and_not_right]
    intro hsame
    have hname : nocase (toString l) = nocase (toString k) := hsame
    rw [nocase_numbered, nocase_numbered] at hname
    exact String.toList_injective hname
  obtain ⟨hstored, hitems⟩ := upsertRecord_numbered htags hk hnew
    (localRecord sampleOrganizer (.tag (toString k) (toString k) false) 1) rfl rfl rfl rfl
  refine ⟨_, ?_, hstored, hitems⟩
  have hwrite : write sampleOrganizer ⟨fun _ => 0, fun _ => 1⟩ store
      (.tag (toString k) (toString k) false) = .ok (store.upsertRecord sampleOrganizer.host
        (localRecord sampleOrganizer (.tag (toString k) (toString k) false) 1)).1 := by
    unfold Records.write
    have hnone := lookup_numbered h htags hnew
    unfold numberedId at hnone
    rw [hvalid, if_neg (by simp)]
    dsimp only
    rw [hnone]
    rfl
  unfold saveNumbered Op.run
  dsimp only
  rw [mutateHistoryTags, hsaved]
  simp only [bind, Except.bind, htrim, hother]
  rw [if_neg (by simp), hwrite]
  rfl

/-- A device that has room receives the tag of another one. -/
theorem merge_numbered (h : Projected sampleOrganizer store) (htags : store.tags = ks.map numbered)
    (hitems : store.items = []) (hk : k < 501) (hnew : k ∉ ks) {item : RemoteVersion}
    (hid : item.itemId = numberedId k) (hkind : item.contentType = recordContentType)
    (hlive : item.deleted = false) (hmetadata : item.payloadMetadata = none)
    (hbytes : item.binaryContent = some (utf8 (toString k))) :
    ∃ after, (Op.merge [(item, none)]).run sampleOrganizer store = some after ∧
      after.tags = (ks ++ [k]).map numbered := by
  have hsnapshot : store.versionSummaries [item.itemId] = [] := by
    have hnone : (store.allVersions.filter fun version => version.id ∈ [item.itemId]) = [] := by
      rw [List.filter_eq_nil_iff]
      intro version hversion hmem
      rw [decide_eq_true_eq, List.mem_singleton, hid] at hmem
      unfold Store.allVersions at hversion
      rw [hitems, List.map_nil, List.nil_append] at hversion
      obtain ⟨row, hrow, rfl⟩ := List.mem_map.1 hversion
      exact lookup_eq_none_iff.1 (lookup_numbered h htags hnew) row hrow hmem
    unfold Store.versionSummaries
    rw [hnone]
    rfl
  have hrefused : payloadIsRefused sampleOrganizer.host item = false := by
    unfold payloadIsRefused
    rw [hlive, hmetadata, hkind, hbytes]
    rfl
  have htext : organizationText item = some (toString k) := by
    unfold organizationText
    rw [if_pos hkind, hbytes, Option.bind_some, fromUtf8_utf8]
  have hwire := validWire_numbered hk
  have hsize : ¬ maxContentBytes < item.bytes.length := by
    unfold validWire at hwire
    rw [if_neg (by simp)] at hwire
    simp only [Bool.and_eq_true, decide_eq_true_eq] at hwire
    have hbound : maxRecordBytes ≤ maxContentBytes := by decide
    rw [RemoteVersion.bytes, hbytes, Option.getD_some, length_utf8]
    omega
  have hdecide : Merge.Pages.decideRow sampleOrganizer.host [] (item, none) =
      .ok (.won (prepared sampleOrganizer.host item none none)) := by
    unfold Merge.Pages.decideRow
    rw [if_neg (by simp [hrefused])]
    dsimp only
    unfold prepareRemoteVersion
    rw [htext, Option.any_some, hkind, hlive, hid, validWire_numbered hk, if_neg (by simp),
      if_neg (by simpa using hsize), if_neg (by simp [keepsLocal, lookup])]
    rfl
  obtain ⟨hstored, -⟩ := upsertRecord_numbered htags hk hnew
    (prepared sampleOrganizer.host item none none).toIncomingItem hid hkind hlive
    ((if_pos hkind).trans htext)
  have hupsert : store.upsert sampleOrganizer.host
      (prepared sampleOrganizer.host item none none).toIncomingItem = store.upsertRecord
        sampleOrganizer.host (prepared sampleOrganizer.host item none none).toIncomingItem :=
    if_pos hkind
  rw [← hupsert] at hstored
  refine ⟨_, ?_, hstored⟩
  unfold Op.run
  dsimp only
  rw [Merge.Pages.applyPage_eq]
  simp only [List.map_cons, List.map_nil, hsnapshot, Merge.Pages.decisions, hdecide, bind,
    Except.bind, pure, Except.pure, List.zip_cons_cons, List.zip_nil_right, Merge.Pages.writeAll,
    Merge.Pages.pinPass, Merge.Pages.redo, List.not_mem_nil, not_false_iff, decide_true,
    Bool.or_true, if_true]
  rfl

/-- What a device does by itself. -/
def Op.isOwn : Op → Prop
  | .merge _ => False
  | _ => True

theorem projected_sample (hs : Reaches (machine sampleOrganizer) (fun _ op => op.isOwn) store) :
    Projected sampleOrganizer store :=
  projected_of_reaches noKeyCollision_sample opens_sample (hs.weaken fun _ _ _ => trivial)

/-- A device saves as many tags as it has room for. -/
theorem reaches_numbered (start count : Nat) (hcount : count ≤ maxHistoryTags)
    (hbound : start + count ≤ 501) :
    ∃ store, Reaches (machine sampleOrganizer) (fun _ op => op.isOwn) store ∧
      store.tags = (List.range' start count).map numbered ∧ store.items = [] := by
  induction count with
  | zero => exact ⟨{}, .start _ ⟨rfl, rfl, rfl, rfl⟩, rfl, rfl⟩
  | succ count ih =>
    obtain ⟨store, hs, htags, hitems⟩ := ih (by omega) (by omega)
    have hnew : start + count ∉ List.range' start count := by
      rw [List.mem_range'_1]
      omega
    have hk : start + count < 501 := by omega
    have hroom : (List.range' start count).length < maxHistoryTags := by
      rw [List.length_range']
      omega
    obtain ⟨after, hrun, hafter, hsame⟩ :=
      save_numbered (projected_sample hs) htags hk hnew hroom
    refine ⟨after, .next (saveNumbered (start + count)) hs trivial ?_, ?_, hsame.trans hitems⟩
    · show some ((Op.run sampleOrganizer store (saveNumbered (start + count))).getD store) = _
      rw [hrun]
      rfl
    · rw [hafter, List.range'_concat, Nat.one_mul]

/-- In every reachable store the tables are what the current records say, and the tags and
the facets can be read exactly while no more tags are defined than the limit. -/
theorem projections_exact {sys : Organizer} (hkeys : NoKeyCollision sys.host)
    (hopens : ∀ id bytes, bytes.length ≤ maxRecordBytes →
      sys.openBinary (sys.host.encrypt recordContentType id bytes).2 id = some bytes)
    (store : Store) (hs : Reaches (machine sys) (fun _ _ => True) store) :
    Projected sys store ∧
      ((∃ tags, catalogue store = .ok tags) ↔
        (store.records.filterMap (liveTagId sys)).length ≤ maxHistoryTags) ∧
      ∀ profiles localId localName localClass,
        (∃ facets, historyFacets profiles localId localName localClass store = .ok facets) ↔
          (store.records.filterMap (liveTagId sys)).length ≤ maxHistoryTags := by
  have h := projected_of_reaches hkeys hopens hs
  rw [← h.length_liveTags]
  exact ⟨h, catalogue_ok_iff store, fun _ _ _ _ => historyFacets_ok_iff _ _ _ _ store⟩

/-- An organizer for concrete runs whose records are a sign and a name: a tag of that name,
the link of a clip to the tag "work", or a pin. -/
def deskOrganizer : Organizer where
  host :=
    { sampleHost with
      parseRecord := fun text =>
        match text.toList with
        | '#' :: rest => some (.tag (String.ofList rest) (String.ofList rest) false)
        | '=' :: rest => some (.membership (String.ofList rest) "work" true)
        | '+' :: rest => some (.pin (String.ofList rest) true (some (asDouble 1)))
        | _ => none }
  render := fun record =>
    match record with
    | .tag id _ _ => "#" ++ id
    | .membership clipId _ _ => "=" ++ clipId
    | .pin clipId _ _ => "+" ++ clipId
  openBinary := fun bytes _ => some bytes

def homeTag : RemoteVersion where
  itemId := (Record.tag "home" "home" false).id sampleHost
  content := ""
  binaryContent := some (utf8 "#home")
  payloadMetadata := none
  contentType := recordContentType
  createdAt := 5
  deleted := false
  contentHash := some (deskOrganizer.host.sha256 (utf8 "#home"))
  originDeviceId := "phone"
  appBundleId := none
  appName := none

def deskRun : List Op :=
  [.tags ⟨fun _ => 0, fun _ => 1⟩ (.save none "work" "work"),
    .items [⟨"a", some ([], []), "text/plain", "a", false, none, 0, 1, false, "", none, none,
      none, none⟩],
    .pin ⟨fun _ => 2, fun _ => 2⟩ "a" true,
    .tags ⟨fun _ => 3, fun _ => 3⟩ (.assign ["a"] ["work"] true),
    .merge [(homeTag, none)]]

def desk : Store :=
  (run (machine deskOrganizer) {} deskRun).getD {}

/-- A tag, a pin and a link made here, and a tag of another device. -/
theorem projections_exact_merged :
    (desk.tags = [⟨"work", "work", false⟩, ⟨"home", "home", false⟩] ∧
      desk.clipTags = [⟨"a", "work", true⟩] ∧
      desk.pinStates = [⟨"a", true, some (asDouble 1), 2⟩]) ∧
    Projected deskOrganizer desk ∧
      ((∃ tags, catalogue desk = .ok tags) ↔
        (desk.records.filterMap (liveTagId deskOrganizer)).length ≤ maxHistoryTags) ∧
      ∀ profiles localId localName localClass,
        (∃ facets, historyFacets profiles localId localName localClass desk = .ok facets) ↔
          (desk.records.filterMap (liveTagId deskOrganizer)).length ≤ maxHistoryTags := by
  have hstart : (machine deskOrganizer).start ({} : Store) := ⟨rfl, rfl, rfl, rfl⟩
  have hreached : Reaches (machine deskOrganizer) (fun _ _ => True) desk := by
    refine (Reaches.start _ hstart).of_run_getD deskRun ?_ ?_ _
    · exact Meets.of_forall (fun _ _ _ => trivial) _
    · decide
  have hkeys : NoKeyCollision deskOrganizer.host := noKeyCollision_sample
  exact ⟨by decide +kernel, projections_exact hkeys (fun _ _ _ => rfl) desk hreached⟩

/-- Five hundred tags of one device and one of another: neither is above the limit, and the
merge of the one tag leaves a catalogue that cannot be read. -/
theorem merged_catalogue_refused : ¬ ∀ first second after : Store,
    Reaches (machine sampleOrganizer) (fun _ op => op.isOwn) first →
    Reaches (machine sampleOrganizer) (fun _ op => op.isOwn) second →
    ∀ page : List Incoming, (∀ incoming ∈ page, incoming.2 = none ∧
      ∃ row ∈ second.records, serve sampleOrganizer row = some incoming.1) →
    (Op.merge page).run sampleOrganizer first = some after →
    ∃ tags, catalogue after = .ok tags := by
  intro hclaim
  obtain ⟨first, hfirst, htags, hitems⟩ := reaches_numbered 0 500 le_rfl (by decide)
  obtain ⟨second, hsecond, htag, -⟩ := reaches_numbered 500 1 (by decide) le_rfl
  have hmem : numbered 500 ∈ second.tags := by
    rw [htag]
    exact List.mem_singleton_self _
  obtain ⟨row, hrow, hdecode⟩ := ((projected_sample hsecond).tags _).1 hmem
  obtain ⟨record, hrecord, -, hown⟩ := (projected_sample hsecond).readable row hrow
  obtain rfl := Option.some.inj (hdecode.symm.trans hrecord)
  obtain ⟨payload, hpayload, hread⟩ := Option.bind_eq_some_iff.1 hdecode
  obtain ⟨text, htext, hparse⟩ := Option.bind_eq_some_iff.1 hread
  obtain rfl : text = toString 500 := (Record.tag.inj (Option.some.inj hparse)).1
  have hbytes : utf8 (toString 500) = payload.2 := utf8_of_fromUtf8 htext
  obtain ⟨item, hitem, hid, hkind, hlive, hmetadata, hcontent⟩ : ∃ item,
      serve sampleOrganizer row = some item ∧ item.itemId = numberedId 500 ∧
        item.contentType = recordContentType ∧ item.deleted = false ∧
        item.payloadMetadata = none ∧ item.binaryContent = some (utf8 (toString 500)) := by
    unfold serve
    rw [hpayload]
    exact ⟨_, rfl, hown.symm, rfl, rfl, rfl, congrArg some hbytes.symm⟩
  obtain ⟨after, hrun, hafter⟩ := merge_numbered (projected_sample hfirst) htags hitems
    (by decide) (by simp) hid hkind hlive hmetadata hcontent
  obtain ⟨tags, hread⟩ := hclaim first second after hfirst hsecond [(item, none)] (by
    intro incoming hincoming
    obtain rfl := List.mem_singleton.1 hincoming
    exact ⟨rfl, row, hrow, hitem⟩) hrun
  have hlive : liveTags after = after.tags := by
    unfold liveTags
    rw [hafter, List.filter_eq_self]
    intro tag htag
    obtain ⟨l, -, rfl⟩ := List.mem_map.1 htag
    rfl
  have hfew := (catalogue_ok_iff after).1 ⟨tags, hread⟩
  rw [hlive, hafter, List.length_map, List.length_append, List.length_range'] at hfew
  exact absurd hfew (by decide)

end CopyPaste.Organization.Exact
