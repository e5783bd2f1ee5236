import CopyPaste.Lib.Gossip
import CopyPaste.Merge.Choices
import CopyPaste.Merge.Decide
import CopyPaste.Peer.StoreSource
import Mathlib

/-!
One item on many devices, each with its own choice about the item's secrecy. An
offer sends the stored version of one device through the merge of another. The
version with the greater stamp and origin is taken, and the greater of the two
choices stays with it, under a new stamp when the sender does not have it.
-/

namespace CopyPaste.Peer.Secrecy

open Lib.Rows Merge.Comparator Merge.Payload Merge.Storage Merge.Prepare Merge.Batch Merge.Effects
  Merge.Pages Merge.Repin Merge.Decide Merge.Choices Upload.Scanning Plan Transfer StoreSource

structure Item where
  id : String
  contentType : String
  contentHash : String
  deriving DecidableEq, Repr

/-- A device's row of the item, the content it opens to and the metadata it reads
as: what a merge elsewhere does not refuse. -/
structure Bears (device : Device) (item : Item) (row : ItemRow) (bytes : List UInt8)
    (m : PayloadMetadata) : Prop where
  rowId : row.id = item.id
  live : row.deleted = false
  contentType : row.contentType = item.contentType
  contentHash : row.contentHash = item.contentHash
  opens : openVersionBytes device row = some bytes
  digest : device.host.sha256 bytes = item.contentHash
  size : bytes.length ≤ Merge.Prepare.maxContentBytes
  binary : isBinary item.contentType = true → bytes ≠ []
  text : isBinary item.contentType = false → (fromUtf8 bytes).isSome = true
  stamp : row.createdAt ≤ 2 ^ 63 - 1
  reads : ReadsAs device.host item.contentType row.payloadMetadata m
  choice : ∀ choice ∈ m.secretOverride, choice.updatedAt ≤ 2 ^ 63 - 1
  transfer : ∀ offer ∈ m.file.bind FileMetadata.transfer,
    item.contentType = fileType ∧ device.host.parseTransfer bytes = some offer

/-- A store with that row. -/
structure Keeps (device : Device) (item : Item) (store : Store) (row : ItemRow)
    (bytes : List UInt8) (m : PayloadMetadata) : Prop where
  wellFormed : WellFormed store
  found : lookup ItemRow.id store.items item.id = some row
  bears : Bears device item row bytes m

/-- A store with that row, in which no other item has the content. -/
structure Holds (device : Device) (item : Item) (store : Store) (row : ItemRow)
    (bytes : List UInt8) (m : PayloadMetadata) : Prop where
  wellFormed : WellFormed store
  found : lookup ItemRow.id store.items item.id = some row
  bears : Bears device item row bytes m
  alone : ∀ other ∈ store.items, other.id ≠ item.id → other.contentHash ≠ item.contentHash

/-- A version of the item as it arrives. -/
structure Arrives (host : Host) (item : Item) (incoming : RemoteVersion) (bytes : List UInt8)
    (m : PayloadMetadata) : Prop where
  itemId : incoming.itemId = item.id
  live : incoming.deleted = false
  contentType : incoming.contentType = item.contentType
  content : incoming.bytes = bytes
  binaryContent : isBinary item.contentType = true → incoming.binaryContent = some bytes
  digest : host.sha256 bytes = item.contentHash
  size : bytes.length ≤ Merge.Prepare.maxContentBytes
  binary : isBinary item.contentType = true → bytes ≠ []
  text : isBinary item.contentType = false → (fromUtf8 bytes).isSome = true
  stamp : incoming.createdAt ≤ 2 ^ 63 - 1
  origin : incoming.originDeviceId ≠ ""
  reads : ReadsAs host item.contentType incoming.payloadMetadata m
  parses : ∀ json ∈ incoming.payloadMetadata,
    PayloadMetadata.fromJson host json item.contentType = some m
  portable : Portable m
  transfer : ∀ offer ∈ m.file.bind FileMetadata.transfer,
    item.contentType = fileType ∧ host.parseTransfer bytes = some offer

section Offer

variable {device : Device} {item : Item} {store : Store} {row : ItemRow} {bytes : List UInt8}
  {m : PayloadMetadata}

theorem bears_congr {row' : ItemRow} (h : Bears device item row bytes m)
    (hrow : unpinned row' = unpinned row) : Bears device item row' bytes m := by
  have hplain : Bears device item (unpinned row') bytes m := by
    rw [hrow]
    exact { h with }
  exact { hplain with }

theorem Holds.keeps (h : Holds device item store row bytes m) : Keeps device item store row bytes m :=
  ⟨h.wellFormed, h.found, h.bears⟩

theorem Keeps.clip (h : Keeps device item store row bytes m) : isRecordId item.id = false := by
  obtain ⟨hmem, hid⟩ := lookup_eq_some h.found
  rw [← hid]
  exact h.wellFormed.itemIds row hmem

/-- The offer of an item is its row alone. -/
theorem fetch_single (h : Keeps device item store row bytes m) :
    fetch device store [item.id] = (toWire device store row).toList := by
  have hitems : (store.items.filter fun row => decide (row.id ∈ [item.id])) = [row] := by
    simp only [List.mem_singleton]
    rw [filter_ident h.wellFormed.items, h.found]
    rfl
  have hrecords : ((store.records.map recordItem).filter fun row =>
      decide (row.id ∈ [item.id])) = [] := by
    rw [List.filter_eq_nil_iff]
    intro other hother hin
    obtain ⟨record, hrecord, rfl⟩ := List.mem_map.1 hother
    have hid : record.id = item.id := by simpa [recordItem] using hin
    have hrecordId := h.wellFormed.recordIds record hrecord
    rw [hid, h.clip] at hrecordId
    simp at hrecordId
  unfold fetch syncRecords
  rw [List.filter_append, hitems, hrecords, List.append_nil]
  cases hwire : toWire device store row <;> simp [hwire]

private def withIcon (device : Device) (store : Store) (row : ItemRow) (m : PayloadMetadata) :
    PayloadMetadata :=
  match row.sourceIconId.bind fun id => lookup IconRow.id store.icons id with
  | some icon =>
    if (device.host.png icon.icon).isSome then { m with sourceAppIcon := some icon.icon } else m
  | none => m

/-- An icon that is put back decodes. -/
private theorem withIcon_eq (store : Store) (row : ItemRow)
    (h : ∀ icon ∈ m.sourceAppIcon, (device.host.png icon).isSome = true) :
    ∃ icon, withIcon device store row m = { m with sourceAppIcon := icon } ∧
      ∀ png ∈ icon, (device.host.png png).isSome = true := by
  unfold withIcon
  split
  · rename_i known _
    by_cases hpng : (device.host.png known.icon).isSome = true
    · refine ⟨some known.icon, if_pos hpng, fun png hmem => ?_⟩
      obtain rfl := Option.some.inj hmem
      exact hpng
    · exact ⟨m.sourceAppIcon, if_neg hpng, h⟩
  · exact ⟨m.sourceAppIcon, rfl, h⟩

/-- The metadata of a row on its way out: its icon is put back, and the reference to a
local file is left behind. -/
private theorem payloadMetadataForSync_eq (store : Store) (h : Bears device item row bytes m) :
    payloadMetadataForSync device store row =
      ({ withIcon device store row m with
        file := (withIcon device store row m).file.map fun file =>
          { file with sourceReference := none } } : PayloadMetadata).toJson device.host
        item.contentType := by
  have hreads := h.reads
  unfold payloadMetadataForSync
  rw [if_neg (by simp [h.live]), h.contentType]
  cases hjson : row.payloadMetadata with
  | none =>
    rw [hjson] at hreads
    rw [hreads.1]
    rfl
  | some text =>
    rw [hjson] at hreads
    obtain ⟨hprivacy, hparse | ⟨hparse, htext, hm⟩⟩ := hreads
    · simp only [hparse]
      rfl
    · rw [← hprivacy] at hm
      simp only [hparse, htext, if_true, ← hm]
      rfl

theorem readsAs_forSync (store : Store) (hcodec : Codec device.host item.contentType)
    (h : Bears device item row bytes m) :
    ∃ m', ReadsAs device.host item.contentType (payloadMetadataForSync device store row) m' ∧
      (∀ json ∈ payloadMetadataForSync device store row,
        PayloadMetadata.fromJson device.host json item.contentType = some m') ∧
      Portable m' ∧ m'.secretOverride = m.secretOverride ∧
      m'.file.bind FileMetadata.transfer = m.file.bind FileMetadata.transfer := by
  have hsound := h.reads.sound
  obtain ⟨icon, hicon, hdecodes⟩ := withIcon_eq store row hsound.icon
  have hclean : Sound device.host item.contentType
      { m with
        sourceAppIcon := icon
        file := m.file.map fun file => { file with sourceReference := none } } := by
    refine ⟨fun file hfile => ?_, hdecodes, hsound.choice, hsound.credentials, ?_, ?_⟩
    · obtain ⟨before, hbefore, rfl⟩ := Option.map_eq_some_iff.1 hfile
      have hvalid := hsound.file before hbefore
      simp only [FileMetadata.isValid, Bool.and_eq_true] at hvalid ⊢
      exact ⟨⟨hvalid.1.1, rfl⟩, hvalid.2⟩
    · intro htype
      rw [Option.isSome_map]
      exact hsound.needsFile htype
    · intro hfile
      rw [Option.isSome_map] at hfile
      exact hsound.takesFile hfile
  have hport : Portable { m with
      sourceAppIcon := icon
      file := m.file.map fun file => { file with sourceReference := none } } := by
    refine ⟨h.choice, Or.inr fun file hfile => ?_⟩
    obtain ⟨before, -, rfl⟩ := Option.map_eq_some_iff.1 hfile
    rfl
  have hjson := payloadMetadataForSync_eq store h
  rw [hicon] at hjson
  refine ⟨_, ?_, fun json hmem => ?_, hport, rfl, ?_⟩
  · rw [hjson]
    exact readsAs_toJson hcodec hclean hport
  · rw [hjson] at hmem
    exact fromJson_toJson hcodec hport hmem
  · cases m.file <;> rfl

/-- The row as it travels. -/
theorem exists_wire (store : Store) (hcodec : Codec device.host item.contentType) (hname : device.host.here ≠ "")
    (h : Bears device item row bytes m) :
    ∃ wire m', toWire device store row = some wire ∧
      Arrives device.host item (remoteVersion wire) bytes m' ∧
      wire.createdAt = row.createdAt ∧
      wire.originDeviceId = originOr row.originDeviceId device.host.here ∧
      m'.secretOverride = m.secretOverride := by
  obtain ⟨m', hreads, hparses, hport, hchoice, htransfer⟩ := readsAs_forSync store hcodec h
  have horigin : originOr row.originDeviceId device.host.here ≠ "" := by
    unfold originOr
    split
    · exact hname
    · assumption
  have hoffer : ∀ offer ∈ m'.file.bind FileMetadata.transfer,
      item.contentType = fileType ∧ device.host.parseTransfer bytes = some offer := by
    rw [htransfer]
    exact h.transfer
  unfold toWire
  cases hbinary : isBinary item.contentType with
  | true =>
    refine ⟨_, m', by simp only [h.live, h.contentType, hbinary, h.opens, Option.map_some,
      Option.bind_eq_bind, Option.bind_some, Bool.false_eq_true, if_false, if_true]; rfl, ?_,
      rfl, rfl, hchoice⟩
    have hbytes := h.binary hbinary
    refine ⟨h.rowId, rfl, rfl, ?_, fun _ => ?_, h.digest, h.size, h.binary, h.text, h.stamp,
      horigin, hreads, hparses, hport, hoffer⟩
    · simp [RemoteVersion.bytes, remoteVersion, hbytes]
    · simp [remoteVersion, hbytes]
  | false =>
    obtain ⟨text, htext⟩ := Option.isSome_iff_exists.1 (h.text hbinary)
    refine ⟨_, m', by simp only [h.live, h.contentType, hbinary, h.opens, Option.map_some,
      Option.bind_eq_bind, Option.bind_some, Bool.false_eq_true, if_false, htext]; rfl, ?_,
      rfl, rfl, hchoice⟩
    refine ⟨h.rowId, rfl, rfl, ?_, fun h => ?_, h.digest, h.size, h.binary, h.text, h.stamp,
      horigin, hreads, hparses, hport, hoffer⟩
    · simp [RemoteVersion.bytes, remoteVersion, utf8_of_fromUtf8 htext]
    · rw [hbinary] at h
      simp at h

end Offer

/-- What an item key is relied on for: it opens what it has sealed. -/
structure Cipher (device : Device) (item : Item) : Prop where
  opens : ∀ bytes, device.decrypt item.contentType item.id
    (device.host.encrypt item.contentType item.id bytes) = some bytes
  ciphertext : ∀ bytes, (device.host.encrypt item.contentType item.id bytes).2 ≠ []
  nonce : isBinary item.contentType = false →
    ∀ bytes, (device.host.encrypt item.contentType item.id bytes).1 ≠ []

/-- What a version of the item is compared by: its stamp and its origin. -/
abbrev Place := Int ×ₗ String

def placeOf (device : Device) (row : ItemRow) : Place :=
  toLex (row.createdAt, originOr row.originDeviceId device.host.here)

def placeOfIncoming (incoming : RemoteVersion) : Place :=
  toLex (incoming.createdAt, incoming.originDeviceId)

section Receive

variable {device : Device} {item : Item} {store : Store} {row : ItemRow}
  {bytes theirs : List UInt8} {m m' : PayloadMetadata} {incoming : RemoteVersion}

theorem Arrives.withinLimit (h : Arrives device.host item incoming theirs m') :
    WithinLimit incoming := by
  intro _
  rw [h.content]
  exact h.size

theorem Arrives.not_refused (h : Arrives device.host item incoming theirs m') :
    payloadIsRefused device.host incoming = false := by
  unfold payloadIsRefused
  rw [if_neg (by simp [h.live]), h.contentType]
  have hbody : (isBinary item.contentType && incoming.binaryContent.isNone) = false := by
    cases hbinary : isBinary item.contentType with
    | false => rfl
    | true => simp [h.binaryContent hbinary]
  rw [hbody]
  cases hjson : incoming.payloadMetadata with
  | none =>
    have hreads := h.reads
    rw [hjson] at hreads
    simpa using hreads.2
  | some json =>
    have hparse := h.parses json hjson
    simp only [hparse, Bool.false_eq_true, if_false]
    cases hoffer : m'.file.bind FileMetadata.transfer with
    | none => rfl
    | some offer =>
      obtain ⟨hfile, hbytes⟩ := h.transfer offer hoffer
      have hbinary : isBinary item.contentType = true := by
        rw [hfile]
        decide
      simp [hfile, h.binaryContent hbinary, hbytes]

theorem Keeps.versionSummary_eq (h : Keeps device item store row bytes m) :
    store.versionSummary item.id = some row.toVersion := by
  rw [versionSummary_item h.wellFormed h.clip, h.found]
  rfl

/-- Content and deletion being the same, the stamp and the origin decide. -/
theorem losesTo_iff (hkind : item.contentType ≠ recordContentType)
    (hholds : Keeps device item store row bytes m)
    (h : Arrives device.host item incoming theirs m') :
    losesTo device.host (store.versionSummary incoming.itemId) incoming =
      decide (placeOfIncoming incoming ≤ placeOf device row) := by
  have htext : organizationText incoming = some incoming.content := by
    unfold organizationText
    rw [h.contentType, if_neg hkind]
  have hwire : validWire device.host incoming.itemId incoming.contentType incoming.content
      incoming.deleted = true := by
    unfold validWire
    rw [h.contentType, if_pos hkind, h.itemId, hholds.clip]
    rfl
  have hhash : ∀ held, remoteContentHash device.host incoming held = item.contentHash := by
    intro held
    unfold remoteContentHash
    rw [if_neg (by simp [h.live]), h.content]
    exact h.digest
  unfold losesTo
  rw [htext, h.itemId, hholds.versionSummary_eq, Option.any_some, ← h.itemId, hwire,
    Bool.not_true, Bool.false_or]
  unfold keepsLocal
  rw [Option.any_some, decide_eq_decide, mergeDecision_keepLocal_iff, ← not_lt, ← not_lt,
    versionKey_lt_iff, hhash]
  simp only [storedSummary, remoteSummary, ItemRow.toVersion, h.live, hholds.bears.live,
    hholds.bears.contentHash, lt_self_iff_false, false_or, true_and, placeOfIncoming, placeOf,
    Prod.Lex.toLex_lt_toLex]

/-- The row held is the one a write of the same content merges with. -/
theorem find_held (h : Holds device item store row bytes m) :
    (store.items.find? fun other =>
      decide (other.id = item.id ∧ other.contentHash = item.contentHash)) = some row := by
  obtain ⟨-, before, after, hitems, hbefore⟩ := List.find?_eq_some_iff_append.1 h.found
  rw [List.find?_eq_some_iff_append]
  refine ⟨by simp [h.bears.rowId, h.bears.contentHash], before, after, hitems, ?_⟩
  intro other hother
  have hne := hbefore other hother
  simp only [Bool.not_eq_true', decide_eq_false_iff_not] at hne ⊢
  exact fun hboth => hne hboth.1

theorem rowOf_live (host : Host) (store : Store) (incoming : IncomingItem)
    (h : incoming.deleted = false) :
    ((store.rowOf host incoming).1.payloadMetadata, (store.rowOf host incoming).1.createdAt) =
      mergeHeldPrivacy host store incoming (normalise host store.icons incoming.appBundleId
        incoming.contentType incoming.createdAt incoming.payloadMetadata).1 := by
  simp only [Store.rowOf, h, Bool.false_eq_true, if_false]

/-- The row a version that has won is written as: the content that came, with the
greater of the two choices. -/
theorem bears_written (hcodec : Codec device.host item.contentType) (hcipher : Cipher device item)
    (hholds : Holds device item store row bytes m)
    (h : Arrives device.host item incoming theirs m') (pin : Option RemotePin)
    (held : Option Version) :
    ∃ merged, Bears device item
        (store.rowOf device.host (prepared device.host incoming pin held).toIncomingItem).1
        theirs merged ∧
      merged.secretOverride = SecretOverride.max m'.secretOverride m.secretOverride ∧
      (store.rowOf device.host (prepared device.host incoming pin held).toIncomingItem).1.createdAt =
        if rankOf m.secretOverride ≤ rankOf m'.secretOverride then incoming.createdAt
        else saturatingSucc incoming.createdAt := by
  let ready := (prepared device.host incoming pin held).toIncomingItem
  obtain ⟨taken, hreads, hport, hchoice, hfile⟩ :=
    readsAs_mergedMetadata hcodec h.contentType h.live h.reads h.portable
  have hhash : remoteContentHash device.host incoming held = item.contentHash := by
    unfold remoteContentHash
    rw [if_neg (by simp [h.live]), h.content]
    exact h.digest
  have hrow : ((store.rowOf device.host ready).1.payloadMetadata,
      (store.rowOf device.host ready).1.createdAt) =
      mergeHeldPrivacy device.host store ready (normalise device.host store.icons
        incoming.appBundleId item.contentType incoming.createdAt
          (mergedMetadata device.host incoming)).1 := by
    rw [← h.contentType]
    exact rowOf_live device.host store ready h.live
  have hbare := readsAs_normalise hcodec hreads hport store.icons incoming.appBundleId
    incoming.createdAt
  have hbarePort : Portable { taken with sourceAppIcon := none } := ⟨hport.stamp, Or.inl rfl⟩
  have hfind := find_held hholds
  rw [← h.itemId, ← hhash] at hfind
  obtain ⟨hmerged, hstamp⟩ := readsAs_mergeHeldPrivacy hcodec store ready h.contentType hfind hbare hbarePort
    hholds.bears.reads hholds.bears.choice
  rw [← hrow] at hmerged hstamp
  rw [show ({ taken with sourceAppIcon := none } : PayloadMetadata).secretOverride =
    m'.secretOverride from hchoice] at hstamp
  have hlimit := portable_mergePrivacy hbarePort hholds.bears.choice
  refine ⟨_, ⟨h.itemId, h.live, h.contentType, hhash, ?_, h.digest, h.size, h.binary, h.text, ?_,
    hmerged, hlimit.stamp, ?_⟩, ?_, hstamp⟩
  · have hpayload :
        ready.payload = some (device.host.encrypt item.contentType item.id theirs) := by
      simp only [ready, prepared, h.live, h.contentType, h.itemId, h.content, Bool.false_eq_true, if_false]
    have hopens := hcipher.opens theirs
    have hciphertext := hcipher.ciphertext theirs
    have hnonce := hcipher.nonce
    show openVersionBytes device { (store.rowOf device.host ready).1 with
      id := incoming.itemId, contentType := incoming.contentType, payload := ready.payload } = _
    unfold openVersionBytes
    rw [hpayload, h.contentType, h.itemId]
    simp only [Option.bind_eq_bind, Option.bind_some]
    rw [if_neg ?_]
    · exact hopens
    · rintro (hempty | ⟨htext, hempty⟩)
      · exact hciphertext hempty
      · exact hnonce (by simpa using htext) theirs hempty
  · refine le_of_eq_of_le hstamp ?_
    split
    · exact h.stamp
    · exact min_le_right _ _
  · show ∀ offer ∈ taken.file.bind FileMetadata.transfer, _
    rw [hfile]
    exact h.transfer
  · show SecretOverride.max taken.secretOverride m.secretOverride = _
    rw [hchoice]

/-- A pin state or its projection leaves the device's copy as it is. -/
theorem holds_mapItems (h : Holds device item store row bytes m) {id : String}
    {f : ItemRow → ItemRow} (hf : Repins id f) :
    Holds device item (mapItems store f) (f row) bytes m := by
  refine ⟨wellFormed_mapItems h.wellFormed hf, ?_, bears_congr h.bears (hf.content row), ?_⟩
  · show lookup ItemRow.id (store.items.map f) item.id = _
    rw [lookup_map f hf.rowId, h.found]
    rfl
  · intro other hother hne
    obtain ⟨before, hbefore, rfl⟩ := List.mem_map.1 hother
    rw [hf.rowId] at hne
    rw [hf.contentHash]
    exact h.alone before hbefore hne

theorem holds_pinAlone (h : Holds device item store row bytes m) (id : String) (pin : P2pPin) :
    ∃ row', Holds device item (pinAlone store id pin).1 row' bytes m ∧
      placeOf device row' = placeOf device row := by
  by_cases hblocked : Blocked store id pin
  · rw [pinAlone_blocked hblocked]
    exact ⟨row, h, rfl⟩
  · rw [(pinAlone_open hblocked).1]
    have hf := repins_setPin id pin
    refine ⟨setPin id pin row, holds_mapItems h hf, ?_⟩
    have hcreated := congrArg ItemRow.createdAt (hf.content row)
    have horigin := congrArg ItemRow.originDeviceId (hf.content row)
    unfold placeOf
    rw [show (setPin id pin row).createdAt = row.createdAt from hcreated,
      show (setPin id pin row).originDeviceId = row.originDeviceId from horigin]

theorem unpinned_projected (pins : List PinState) (row : ItemRow) :
    unpinned (projected pins row) = unpinned row := by
  unfold projected PinState.onto
  split
  · rfl
  · split <;> rfl

/-- A write of the item goes through: no other item has its content. -/
theorem holds_upsert (hkind : item.contentType ≠ recordContentType)
    (hholds : Holds device item store row bytes m) {incoming : IncomingItem}
    {merged : PayloadMetadata}
    (h : Bears device item (store.rowOf device.host incoming).1 theirs merged) :
    (store.upsert device.host incoming).2 = true ∧
      ∃ row', Holds device item (store.upsert device.host incoming).1 row' theirs merged ∧
        unpinned row' = unpinned (store.rowOf device.host incoming).1 := by
  have hid : incoming.id = item.id := h.rowId
  have htype : incoming.contentType ≠ recordContentType := by
    show (store.rowOf device.host incoming).1.contentType ≠ _
    rw [h.contentType]
    exact hkind
  have hclip : isRecordId incoming.id = false := by
    rw [hid]
    exact hholds.keeps.clip
  have hfits : Fits device.host store incoming := by
    intro other hother hne
    have hhash := hholds.alone other hother (hid ▸ hne)
    unfold collides
    by_cases hkey : (store.rowOf device.host incoming).1.dedupKey = other.dedupKey
    · cases hnone : (store.rowOf device.host incoming).1.dedupKey with
      | none => rfl
      | some key =>
        exfalso
        rw [hnone] at hkey
        unfold ItemRow.dedupKey dedupKey at hnone hkey
        split at hnone
        · simp at hnone
        · split at hkey
          · simp at hkey
          · rw [← Option.some.inj hnone] at hkey
            have hsame := congrArg Prod.fst (Option.some.inj hkey)
            exact hhash (hsame.symm.trans h.contentHash)
    · simp [hkey]
  rw [upsert_item device.host htype hclip, if_pos hfits]
  refine ⟨rfl, projected store.pinStates (store.rowOf device.host incoming).1,
    ⟨wellFormed_written device.host hholds.wellFormed hclip, ?_,
      bears_congr h (unpinned_projected _ _), ?_⟩, unpinned_projected _ _⟩
  · show lookup ItemRow.id (put ItemRow.id store.items _) item.id = _
    rw [lookup_put, projected_id, if_pos h.rowId]
  · intro other hother hne
    rcases (mem_put _ _ _).1 hother with ⟨hmem, -⟩ | rfl
    · exact hholds.alone other hmem hne
    · rw [projected_id] at hne
      exact absurd h.rowId hne

/-- The pin state a losing version leaves, if it came with one that wins. -/
def takenPin (host : Host) (store : Store) (incoming : RemoteVersion) (pin : Option P2pPin) :
    Option P2pPin :=
  pin.filter fun state => remotePinWins host incoming state (store.versionSummary incoming.itemId)

/-- A version that does not win stores no content; a peer session may store its pin
state. -/
theorem applyPage_lost (hkind : item.contentType ≠ recordContentType)
    (hkeeps : Keeps device item store row bytes m)
    (h : Arrives device.host item incoming theirs m') (pin : Option P2pPin)
    (hplace : placeOfIncoming incoming ≤ placeOf device row) :
    ∃ flag, applyPage device.host store [(incoming, pin)] =
        .ok ((takenPin device.host store incoming pin).elim store
          fun state => (pinAlone store item.id state).1, [⟨false, flag⟩]) ∧
      (pin = none → flag = false) := by
  have hheld : lookup Version.id (store.versionSummaries [incoming.itemId]) incoming.itemId =
      store.versionSummary incoming.itemId := lookup_versionSummaries hkeeps.wellFormed _ (by simp)
  have hdecide := @decideRow_eq device.host (incoming, pin) h.withinLimit
    (store.versionSummaries [incoming.itemId])
  unfold decisionOf decisionAgainst at hdecide
  rw [hheld, h.not_refused, losesTo_iff hkind hkeeps h, decide_eq_true hplace, if_neg (by simp),
    if_pos rfl] at hdecide
  rw [applyPage_eq]
  simp only [List.map_cons, List.map_nil, decisions, hdecide, bind, Except.bind, pure, Except.pure,
    List.zip_cons_cons, List.zip_nil_right]
  cases pin with
  | none => exact ⟨false, rfl, fun _ => rfl⟩
  | some state =>
    have hwins : (state.against device.host incoming (store.versionSummary incoming.itemId)).wins =
        remotePinWins device.host incoming state (store.versionSummary incoming.itemId) := rfl
    dsimp only [Option.map_some, Option.any_some]
    rw [hwins, takenPin, Option.filter_some]
    cases remotePinWins device.host incoming state (store.versionSummary incoming.itemId) with
    | false => exact ⟨false, rfl, fun _ => rfl⟩
    | true =>
      refine ⟨(pinAlone store incoming.itemId state).2, ?_, by simp⟩
      rw [← h.itemId]
      simp [writeAll, pinPass, redo, Entry.flags, pinAlone, bind, Except.bind, pure, Except.pure]

theorem applyPage_won (hkind : item.contentType ≠ recordContentType)
    (hholds : Holds device item store row bytes m)
    (h : Arrives device.host item incoming theirs m') (pin : Option P2pPin)
    (hplace : placeOf device row < placeOfIncoming incoming) :
    ∃ remotePin held flag, applyPage device.host store [(incoming, pin)] =
      .ok ((store.upsert device.host
          (prepared device.host incoming remotePin held).toIncomingItem).1,
        [⟨(store.upsert device.host
          (prepared device.host incoming remotePin held).toIncomingItem).2, flag⟩]) ∧
      (pin = none → flag = false) := by
  have hheld : lookup Version.id (store.versionSummaries [incoming.itemId]) incoming.itemId =
      store.versionSummary incoming.itemId := lookup_versionSummaries hholds.wellFormed _ (by simp)
  have hdecide := @decideRow_eq device.host (incoming, pin) h.withinLimit
    (store.versionSummaries [incoming.itemId])
  unfold decisionOf decisionAgainst at hdecide
  rw [hheld, h.not_refused, losesTo_iff hkind hholds.keeps h, decide_eq_false (not_le.2 hplace),
    if_neg (by simp), if_neg (by simp)] at hdecide
  rw [applyPage_eq]
  simp only [List.map_cons, List.map_nil, decisions, hdecide, bind, Except.bind, pure, Except.pure,
    List.zip_cons_cons, List.zip_nil_right]
  refine ⟨pin.map fun pin => pin.against device.host incoming
    (store.versionSummary incoming.itemId), store.versionSummary incoming.itemId,
    (store.upsert device.host (prepared device.host incoming (pin.map fun pin =>
      pin.against device.host incoming (store.versionSummary incoming.itemId))
        (store.versionSummary incoming.itemId)).toIncomingItem).2 && pin.isSome, ?_,
    fun hnone => by simp [hnone]⟩
  simp [writeAll, pinPass, redo, Entry.flags, bind, Except.bind, pure, Except.pure]

/-- The place of a stored version. -/
def placeIn (device : Device) (item : Item) (store : Store) : Place :=
  match lookup ItemRow.id store.items item.id with
  | none => toLex (0, "")
  | some row => placeOf device row

def choiceIn (host : Host) (item : Item) (store : Store) : Option SecretOverride :=
  (lookup ItemRow.id store.items item.id).bind fun row =>
    (readMetadata host row.payloadMetadata item.contentType).secretOverride

/-- A device's copy of an item, as the exchanges compare it. -/
def copyOf (device : Device) (item : Item) (store : Store) :
    Lib.Gossip.Copy Place (WithBot (Int ×ₗ Bool)) :=
  ⟨placeIn device item store, rankOf (choiceIn device.host item store)⟩

/-- The place of a version that is restamped. -/
def restamp (place : Place) : Place :=
  toLex (max place.1 (saturatingSucc place.1), place.2)

theorem le_restamp (place : Place) : place ≤ restamp place := by
  unfold restamp
  rw [Prod.Lex.le_iff]
  rcases lt_or_eq_of_le (le_max_left place.1 (saturatingSucc place.1)) with hlt | heq
  · exact Or.inl hlt
  · exact Or.inr ⟨heq, le_rfl⟩

theorem Holds.copyOf_eq (h : Holds device item store row bytes m) :
    copyOf device item store = ⟨placeOf device row, rankOf m.secretOverride⟩ := by
  unfold copyOf placeIn choiceIn
  rw [h.found]
  dsimp only [Option.bind_some]
  rw [h.bears.reads.readMetadata_eq]

/-- A merge of one version of the item: the device still holds the item, its copy is
the one the exchange makes of the two, and content is stored when the copy that came
has the greater place. -/
theorem applyPage_arrives (hkind : item.contentType ≠ recordContentType)
    (hcodec : Codec device.host item.contentType) (hcipher : Cipher device item)
    (hholds : Holds device item store row bytes m)
    (h : Arrives device.host item incoming theirs m') (pin : Option P2pPin) :
    ∃ after stored flag row' bytes' merged,
      applyPage device.host store [(incoming, pin)] = .ok (after, [⟨stored, flag⟩]) ∧
      Holds device item after row' bytes' merged ∧
      copyOf device item after = Lib.Gossip.take restamp (copyOf device item store)
        ⟨placeOfIncoming incoming, rankOf m'.secretOverride⟩ ∧
      stored = decide (placeOf device row < placeOfIncoming incoming) ∧
      (pin = none → flag = false) := by
  rcases le_or_gt (placeOfIncoming incoming) (placeOf device row) with hle | hlt
  · obtain ⟨flag, happly, hflag⟩ := applyPage_lost hkind hholds.keeps h pin hle
    have hkept : ∃ row', Holds device item ((takenPin device.host store incoming pin).elim store
        fun state => (pinAlone store item.id state).1) row' bytes m ∧
        placeOf device row' = placeOf device row := by
      cases takenPin device.host store incoming pin with
      | none => exact ⟨row, hholds, rfl⟩
      | some state => exact holds_pinAlone hholds item.id state
    obtain ⟨row', hholds', hplace⟩ := hkept
    refine ⟨_, false, flag, row', bytes, m, happly, hholds', ?_, ?_, hflag⟩
    · rw [hholds'.copyOf_eq, hholds.copyOf_eq, hplace, Lib.Gossip.take_of_le restamp hle]
    · rw [decide_eq_false (not_lt.2 hle)]
  · obtain ⟨remotePin, held, flag, happly, hflag⟩ := applyPage_won hkind hholds h pin hlt
    obtain ⟨merged, hbears, hchoice, hstamp⟩ :=
      bears_written hcodec hcipher hholds h remotePin held
    obtain ⟨hstored, row', hholds', hrow⟩ := holds_upsert hkind hholds hbears
    have hcreated : row'.createdAt = _ := (congrArg ItemRow.createdAt hrow).trans hstamp
    have horigin : row'.originDeviceId = incoming.originDeviceId :=
      congrArg ItemRow.originDeviceId hrow
    have hplace : placeOf device row' =
        toLex (if rankOf m.secretOverride ≤ rankOf m'.secretOverride then incoming.createdAt
          else saturatingSucc incoming.createdAt, incoming.originDeviceId) := by
      unfold placeOf
      rw [hcreated, horigin, originOr, if_neg h.origin]
    refine ⟨_, _, flag, row', theirs, merged, happly, hholds', ?_, ?_, hflag⟩
    · rw [hholds'.copyOf_eq, hholds.copyOf_eq, hplace, hchoice, max_eq]
      rcases @Lib.Gossip.take_of_lt Place (WithBot (Int ×ₗ Bool)) _ _ restamp
        ⟨placeOf device row, rankOf m.secretOverride⟩
        ⟨placeOfIncoming incoming, rankOf m'.secretOverride⟩ hlt with
          ⟨hvalue, htake⟩ | ⟨hvalue, htake⟩
      · have hkept : rankOf (if rankOf m'.secretOverride ≤ rankOf m.secretOverride then
            m.secretOverride else m'.secretOverride) = rankOf m'.secretOverride := by
          split
          · rename_i hge
            exact le_antisymm hvalue hge
          · rfl
        rw [htake, hkept, if_pos hvalue]
        rfl
      · have hlater : incoming.createdAt ≤ saturatingSucc incoming.createdAt := by
          have hmost := h.stamp
          unfold saturatingSucc
          omega
        have hrestamp : restamp (placeOfIncoming incoming) =
            toLex (saturatingSucc incoming.createdAt, incoming.originDeviceId) := by
          show toLex (max incoming.createdAt (saturatingSucc incoming.createdAt),
            incoming.originDeviceId) = _
          rw [max_eq_right hlater]
        rw [htake, if_pos hvalue.le, if_neg (not_le.2 hvalue), ← hrestamp]
    · rw [hstored, decide_eq_true hlt]

end Receive

/-- Devices that run one program, each under its own id and item key. -/
structure Fleet (ι : Type) where
  host : Host
  name : ι → String
  encrypt : ι → String → String → List UInt8 → List UInt8 × List UInt8
  decrypt : ι → String → String → List UInt8 × List UInt8 → Option (List UInt8)

def Fleet.device {ι : Type} (fleet : Fleet ι) (i : ι) : Device where
  host := { fleet.host with here := fleet.name i, encrypt := fleet.encrypt i }
  decrypt := fleet.decrypt i
  evicted := fun _ => []

/-- The two ways a version comes to another device. -/
inductive Path
  | cloud
  | peer
  deriving DecidableEq, Repr

/-- One side of an exchange: the sender's stored version for the receiver to apply. -/
structure Offer (ι : Type) where
  sender : ι
  receiver : ι
  path : Path

/-- A version out of the cloud's table, which keeps no content hash. -/
def cloudVersion (item : SyncItem) : RemoteVersion :=
  { remoteVersion item with contentHash := none }

/-- Apply what was offered: the store after it, and whether content was stored. -/
def receive (device : Device) (path : Path) (store : Store) (items : List SyncItem) :
    Store × Bool :=
  match path with
  | .cloud =>
    match applyRemoteVersions device.host store (items.map cloudVersion) with
    | .error _ => (store, false)
    | .ok (after, applied) => (after, applied.any id)
  | .peer =>
    match applyRemoteP2pVersions device.host store
        (items.map fun item => (remoteVersion item, pinOf item)) with
    | .error _ => (store, false)
    | .ok (after, applied) => (after, applied.any P2pApply.content)

section Fleets

variable {ι : Type} (fleet : Fleet ι) (item : Item)

def Fleet.outcome (stores : ι → Store) (offer : Offer ι) : Store × Bool :=
  receive (fleet.device offer.receiver) offer.path (stores offer.receiver)
    (fetch (fleet.device offer.sender) (stores offer.sender) [item.id])

/-- No further offer stores content. -/
def Fleet.Quiet (stores : ι → Store) : Prop :=
  ∀ offer, (fleet.outcome item stores offer).2 = false

/-- A device has the item. -/
def Has (device : Device) (item : Item) (store : Store) : Prop :=
  ∃ row bytes m, Holds device item store row bytes m

def Fleet.placeAt (stores : ι → Store) (i : ι) : Place :=
  placeIn (fleet.device i) item (stores i)

def Fleet.choiceAt (stores : ι → Store) (i : ι) : Option SecretOverride :=
  choiceIn fleet.host item (stores i)

/-- No two devices have versions of one stamp and origin with different choices. -/
def Fleet.Untied (stores : ι → Store) : Prop :=
  ∀ i j, fleet.placeAt item stores i = fleet.placeAt item stores j →
    fleet.choiceAt item stores i = fleet.choiceAt item stores j

/-- An offer that is taken and restamped, because the receiver has the greater choice,
does not get the stamp and origin of a version that carries another choice. -/
def Fleet.Unclaimed (stores : ι → Store) (offer : Offer ι) : Prop :=
  fleet.placeAt item stores offer.receiver < fleet.placeAt item stores offer.sender →
    rankOf (fleet.choiceAt item stores offer.sender) <
      rankOf (fleet.choiceAt item stores offer.receiver) →
    ∀ k, k ≠ offer.receiver →
      fleet.placeAt item stores k = restamp (fleet.placeAt item stores offer.sender) →
      fleet.choiceAt item stores k = fleet.choiceAt item stores offer.receiver

/-- What the exchanges rely on: the item is no organization record, the metadata
survives its JSON, every device has a name, and its item key opens what it seals. -/
structure Fleet.Lawful : Prop where
  kind : item.contentType ≠ recordContentType
  codec : Codec fleet.host item.contentType
  name : ∀ i, fleet.name i ≠ ""
  cipher : ∀ i, Cipher (fleet.device i) item

def Fleet.copies (stores : ι → Store) (i : ι) : Lib.Gossip.Copy Place (WithBot (Int ×ₗ Bool)) :=
  copyOf (fleet.device i) item (stores i)

def Offer.edge (offer : Offer ι) : ι × ι := (offer.sender, offer.receiver)

variable [DecidableEq ι]

def Fleet.step (stores : ι → Store) (offer : Offer ι) : ι → Store :=
  Function.update stores offer.receiver (fleet.outcome item stores offer).1

def Fleet.run (stores : ι → Store) (offers : List (Offer ι)) : ι → Store :=
  offers.foldl (fleet.step item) stores

/-- How many offers of a run store content. -/
def Fleet.changes (stores : ι → Store) : List (Offer ι) → ℕ
  | [] => 0
  | offer :: rest =>
    (if (fleet.outcome item stores offer).2 then 1 else 0) +
      Fleet.changes (fleet.step item stores offer) rest

/-- Every offer of a run meets that condition where it is made. -/
def Fleet.UnclaimedRun (stores : ι → Store) : List (Offer ι) → Prop
  | [] => True
  | offer :: rest =>
    fleet.Unclaimed item stores offer ∧ Fleet.UnclaimedRun (fleet.step item stores offer) rest

end Fleets

section Runs

variable {ι : Type} {fleet : Fleet ι} {item : Item}

/-- The devices read one another's versions alike. -/
theorem arrives_at {i j : ι} {incoming : RemoteVersion} {bytes : List UInt8}
    {m : PayloadMetadata} (h : Arrives (fleet.device i).host item incoming bytes m) :
    Arrives (fleet.device j).host item incoming bytes m :=
  { h with }

theorem arrives_cloudVersion {host : Host} {wire : SyncItem} {bytes : List UInt8}
    {m : PayloadMetadata} (h : Arrives host item (remoteVersion wire) bytes m) :
    Arrives host item (cloudVersion wire) bytes m :=
  { h with }

theorem Fleet.Lawful.codec_at (h : fleet.Lawful item) (i : ι) :
    Codec (fleet.device i).host item.contentType :=
  { h.codec with }

variable {stores : ι → Store}

/-- One offer: the receiver's copy becomes the one the exchange makes, and content is
stored when the sender's has the greater place. -/
theorem outcome_spec (hlaw : fleet.Lawful item) (hhas : ∀ i, Has (fleet.device i) item (stores i))
    (offer : Offer ι) :
    Has (fleet.device offer.receiver) item (fleet.outcome item stores offer).1 ∧
      copyOf (fleet.device offer.receiver) item (fleet.outcome item stores offer).1 =
        Lib.Gossip.take restamp (fleet.copies item stores offer.receiver)
          (fleet.copies item stores offer.sender) ∧
      ((fleet.outcome item stores offer).2 = true ↔
        Lib.Gossip.Taken (fleet.copies item stores) offer.edge) := by
  obtain ⟨theirRow, theirs, theirMetadata, hsender⟩ := hhas offer.sender
  obtain ⟨row, bytes, m, hholds⟩ := hhas offer.receiver
  obtain ⟨wire, m', hwire, harrives, hcreated, horigin, hchoice⟩ :=
    exists_wire (stores offer.sender) (hlaw.codec_at offer.sender) (hlaw.name offer.sender) hsender.bears
  have hplace : placeOfIncoming (remoteVersion wire) =
      placeOf (fleet.device offer.sender) theirRow := by
    unfold placeOfIncoming placeOf
    rw [← hcreated, ← horigin]
    rfl
  have hcopy : fleet.copies item stores offer.sender =
      ⟨placeOfIncoming (remoteVersion wire), rankOf m'.secretOverride⟩ := by
    unfold Fleet.copies
    rw [hsender.copyOf_eq, hplace, hchoice]
  have htaken : Lib.Gossip.Taken (fleet.copies item stores) offer.edge ↔
      placeOf (fleet.device offer.receiver) row < placeOfIncoming (remoteVersion wire) := by
    have hmine : (fleet.copies item stores offer.receiver).key =
        placeOf (fleet.device offer.receiver) row := congrArg Lib.Gossip.Copy.key hholds.copyOf_eq
    have htheirs := congrArg Lib.Gossip.Copy.key hcopy
    unfold Lib.Gossip.Taken Offer.edge
    rw [hmine, htheirs]
  have hfetch : fetch (fleet.device offer.sender) (stores offer.sender) [item.id] = [wire] := by
    rw [fetch_single hsender.keeps, hwire]
    rfl
  unfold Fleet.outcome receive
  rw [hfetch, htaken, hcopy]
  cases offer.path with
  | cloud =>
    obtain ⟨after, stored, flag, row', bytes', merged, happly, hafter, htake, hstored, hflag⟩ :=
      applyPage_arrives hlaw.kind (hlaw.codec_at offer.receiver) (hlaw.cipher offer.receiver) hholds
        (arrives_cloudVersion (arrives_at harrives)) none
    have hcloud : applyRemoteVersions (fleet.device offer.receiver).host (stores offer.receiver)
        [cloudVersion wire] = .ok (after, [stored]) := by
      unfold applyRemoteVersions
      rw [List.map_singleton, happly, hflag rfl]
      simp [bind, Except.bind, pure, Except.pure, P2pApply.any]
    simp only [List.map_singleton, hcloud]
    refine ⟨⟨row', bytes', merged, hafter⟩, htake, ?_⟩
    have hiff : stored = true ↔ placeOf (fleet.device offer.receiver) row <
        placeOfIncoming (remoteVersion wire) := by
      rw [hstored, decide_eq_true_iff]
      rfl
    simpa using hiff
  | peer =>
    obtain ⟨after, stored, flag, row', bytes', merged, happly, hafter, htake, hstored, -⟩ :=
      applyPage_arrives hlaw.kind (hlaw.codec_at offer.receiver) (hlaw.cipher offer.receiver) hholds
        (arrives_at harrives) (some (pinOf wire))
    have hpeer : applyRemoteP2pVersions (fleet.device offer.receiver).host (stores offer.receiver)
        [(remoteVersion wire, pinOf wire)] = .ok (after, [⟨stored, flag⟩]) := happly
    simp only [List.map_singleton, hpeer]
    refine ⟨⟨row', bytes', merged, hafter⟩, htake, ?_⟩
    rw [hstored]
    simp

variable [DecidableEq ι]

/-- An offer is an exchange of copies. -/
theorem step_spec (hlaw : fleet.Lawful item) (hhas : ∀ i, Has (fleet.device i) item (stores i))
    (offer : Offer ι) :
    (∀ i, Has (fleet.device i) item (fleet.step item stores offer i)) ∧
      fleet.copies item (fleet.step item stores offer) =
        Lib.Gossip.exchange restamp (fleet.copies item stores) offer.edge := by
  obtain ⟨hreceiver, hcopy, -⟩ := outcome_spec hlaw hhas offer
  have hat : ∀ i, fleet.step item stores offer i =
      if i = offer.receiver then (fleet.outcome item stores offer).1 else stores i :=
    fun i => Function.update_apply _ _ _ _
  refine ⟨fun i => ?_, funext fun i => ?_⟩
  · rw [hat]
    split
    · rename_i hi
      rw [hi]
      exact hreceiver
    · exact hhas i
  · rw [Lib.Gossip.exchange_apply]
    unfold Fleet.copies at hcopy ⊢
    rw [hat]
    by_cases hi : i = offer.receiver
    · rw [if_pos hi, hi, hcopy]
      exact (if_pos rfl).symm
    · rw [if_neg hi]
      exact (if_neg hi).symm

/-- A run of offers is a run of exchanges, and stores content as often as a copy is
taken. -/
theorem run_spec (hlaw : fleet.Lawful item) (hhas : ∀ i, Has (fleet.device i) item (stores i))
    (offers : List (Offer ι)) :
    (∀ i, Has (fleet.device i) item (fleet.run item stores offers i)) ∧
      fleet.copies item (fleet.run item stores offers) =
        Lib.Gossip.run restamp (fleet.copies item stores) (offers.map Offer.edge) ∧
      fleet.changes item stores offers =
        Lib.Gossip.changes restamp (fleet.copies item stores) (offers.map Offer.edge) := by
  induction offers generalizing stores with
  | nil => exact ⟨hhas, rfl, rfl⟩
  | cons offer rest ih =>
    obtain ⟨hnext, hcopies⟩ := step_spec hlaw hhas offer
    obtain ⟨hlast, hrun, hchanges⟩ := ih hnext
    have htaken := (outcome_spec hlaw hhas offer).2.2
    refine ⟨hlast, ?_, ?_⟩
    · rw [hcopies] at hrun
      exact hrun
    · rw [List.map_cons, Lib.Gossip.changes, Fleet.changes, hchanges, hcopies]
      simp only [htaken]

omit [DecidableEq ι] in
theorem quiet_iff (hlaw : fleet.Lawful item) (hhas : ∀ i, Has (fleet.device i) item (stores i)) :
    fleet.Quiet item stores ↔ Lib.Gossip.Quiet (fleet.copies item stores) := by
  constructor
  · intro h step htaken
    have hstored := (outcome_spec hlaw hhas ⟨step.1, step.2, .peer⟩).2.2.2 htaken
    rw [h] at hstored
    simp at hstored
  · intro h offer
    have htaken := (outcome_spec hlaw hhas offer).2.2
    rw [← Bool.not_eq_true, htaken]
    exact h offer.edge

omit [DecidableEq ι] in
theorem choiceAt_eq_iff (stores other : ι → Store) (i j : ι) :
    fleet.choiceAt item stores i = fleet.choiceAt item other j ↔
      (fleet.copies item stores i).value = (fleet.copies item other j).value :=
  rankOf_injective.eq_iff.symm

theorem clearRun_of_unclaimed (hlaw : fleet.Lawful item)
    (hhas : ∀ i, Has (fleet.device i) item (stores i)) {offers : List (Offer ι)}
    (h : fleet.UnclaimedRun item stores offers) :
    Lib.Gossip.ClearRun restamp (fleet.copies item stores) (offers.map Offer.edge) := by
  induction offers generalizing stores with
  | nil => trivial
  | cons offer rest ih =>
    obtain ⟨hnext, hcopies⟩ := step_spec hlaw hhas offer
    refine ⟨fun htaken hvalue k hk hkey => ?_, ?_⟩
    · exact (choiceAt_eq_iff stores stores k offer.receiver).1 (h.1 htaken hvalue k hk hkey)
    · rw [← hcopies]
      exact ih hnext h.2

/-- Every device offers to every other again and again. -/
def Fair (schedule : ℕ → Offer ι) : Prop :=
  ∀ i j n, ∃ m, n ≤ m ∧ (schedule m).sender = i ∧ (schedule m).receiver = j

/-- However the devices exchange their versions of an item, content is stored at most a
number of times that the number of devices bounds, and devices that keep exchanging come to
rest. Where no two of them start with one stamp and origin for different choices, and
no restamp makes such a pair, every device then has the greatest choice of all. -/
theorem secrecy_converges [Fintype ι] (fleet : Fleet ι) (item : Item) (hlaw : fleet.Lawful item)
    (start : ι → Store) (hhas : ∀ i, Has (fleet.device i) item (start i)) :
    (∀ offers, fleet.changes item start offers ≤ Fintype.card ι ^ 3) ∧
      (∀ schedule, Fair schedule →
        ∃ n, fleet.Quiet item (fleet.run item start ((List.range n).map schedule))) ∧
      ∀ offers, fleet.Untied item start → fleet.UnclaimedRun item start offers →
        fleet.Quiet item (fleet.run item start offers) → ∀ i,
          (∃ k, fleet.choiceAt item (fleet.run item start offers) i =
            fleet.choiceAt item start k) ∧
          ∀ j, rankOf (fleet.choiceAt item start j) ≤
            rankOf (fleet.choiceAt item (fleet.run item start offers) i) := by
  refine ⟨fun offers => ?_, fun schedule hfair => ?_, fun offers huntied hclear hquiet i => ?_⟩
  · rw [(run_spec hlaw hhas offers).2.2, pow_three]
    exact Lib.Gossip.changes_le restamp (fleet.copies item start) le_restamp _
  · obtain ⟨n, hn⟩ := Lib.Gossip.exists_quiet restamp (fleet.copies item start) le_restamp
      (fun m => (schedule m).edge) (fun step n => by
        obtain ⟨m, hm, hsender, hreceiver⟩ := hfair step.1 step.2 n
        exact ⟨m, hm, Prod.ext hsender hreceiver⟩)
    obtain ⟨hlast, hcopies, -⟩ := run_spec hlaw hhas ((List.range n).map schedule)
    refine ⟨n, (quiet_iff hlaw hlast).2 ?_⟩
    rw [hcopies, List.map_map]
    exact hn
  · obtain ⟨hlast, hcopies, -⟩ := run_spec hlaw hhas offers
    have happart : Lib.Gossip.Apart (fleet.copies item start) := by
      intro j k hkey
      exact (choiceAt_eq_iff start start j k).1 (huntied j k hkey)
    have hrest := (quiet_iff hlaw hlast).1 hquiet
    rw [hcopies] at hrest
    obtain ⟨⟨k, hk⟩, hmost⟩ := Lib.Gossip.value_of_quiet restamp (fleet.copies item start)
      happart (clearRun_of_unclaimed hlaw hhas hclear) hrest i
    rw [← hcopies] at hk hmost
    exact ⟨⟨k, (choiceAt_eq_iff _ _ i k).2 hk⟩, hmost⟩

end Runs

section Sample

def word (b : Bool) : List Char := if b then "true".toList else "false".toList

def credentialsField : List Char := "\"credentials\":true".toList

def privacyField (p : ClipboardPrivacy) : List Char :=
  "\"privacy\":\x7b\"secret\":".toList ++ word p.secret ++ ",\"transient\":".toList ++
    word p.transient ++ ['\x7d']

def choiceHead : List Char := "\"secret_override\":\x7b\"updated_at\":".toList

def choiceTail (secret : Bool) : List Char := ",\"secret\":".toList ++ word secret ++ ['\x7d']

def flagFields (flags : Bool × ClipboardPrivacy) : List (List Char) :=
  (if flags.1 then [credentialsField] else []) ++
    if flags.2.isEmpty then [] else [privacyField flags.2]

/-- The flags, and the head of a choice when one follows. -/
def opening (flags : Bool × ClipboardPrivacy) (choice : Bool) : List Char :=
  '\x7b' :: [','].intercalate (flagFields flags ++ if choice then [choiceHead] else [])

/-- The JSON of metadata that has neither a file nor an icon. -/
def renderText (m : PayloadMetadata) : List Char :=
  opening (m.credentials, m.privacy) m.secretOverride.isSome ++
    (match m.secretOverride with
      | none => []
      | some choice => Nat.toDigits 10 choice.updatedAt.toNat ++ choiceTail choice.secret) ++
    ['\x7d']

def strip (head text : List Char) : Option (List Char) :=
  if head.isPrefixOf text then some (text.drop head.length) else none

def allFlags : List (Bool × ClipboardPrivacy) :=
  [(true, ⟨true, true⟩), (true, ⟨true, false⟩), (true, ⟨false, true⟩), (true, ⟨false, false⟩),
   (false, ⟨true, true⟩), (false, ⟨true, false⟩), (false, ⟨false, true⟩), (false, ⟨false, false⟩)]

/-- The flags a text opens with, and what follows the head of its choice. -/
def readFlags (text : List Char) : Option ((Bool × ClipboardPrivacy) × List Char) :=
  allFlags.findSome? fun flags =>
    (strip (opening flags true) text).map fun rest => (flags, rest)

def parseText (text : List Char) : Option PayloadMetadata :=
  match readFlags text with
  | some (flags, rest) =>
    some {
      credentials := flags.1
      privacy := flags.2
      secretOverride := some
        ⟨Nat.ofDigitChars 10 (rest.takeWhile Char.isDigit) 0,
          (choiceTail true).isPrefixOf (rest.dropWhile Char.isDigit)⟩ }
  | none =>
    (allFlags.find? fun flags => text = opening flags false ++ ['\x7d']).map fun flags =>
      { credentials := flags.1, privacy := flags.2 }

theorem strip_append (head tail : List Char) : strip head (head ++ tail) = some tail := by
  unfold strip
  rw [if_pos (List.isPrefixOf_iff_prefix.2 (List.prefix_append _ _)), List.drop_left]

/-- Of two texts neither of which heads the other, one does not head what the other
does. -/
theorem strip_eq_none {head other : List Char} (h : head.isPrefixOf other = false)
    (h' : other.isPrefixOf head = false) (tail : List Char) : strip head (other ++ tail) = none := by
  unfold strip
  rw [if_neg]
  intro hhead
  rcases List.prefix_or_prefix_of_prefix (List.isPrefixOf_iff_prefix.1 hhead)
    (List.prefix_append other tail) with hshort | hlong
  · rw [List.isPrefixOf_iff_prefix.2 hshort] at h
    simp at h
  · rw [List.isPrefixOf_iff_prefix.2 hlong] at h'
    simp at h'

theorem mem_allFlags (flags : Bool × ClipboardPrivacy) : flags ∈ allFlags := by
  obtain ⟨credentials, secret, transient⟩ := flags
  cases credentials <;> cases secret <;> cases transient <;> decide

/-- The texts that open with each of the flags: none heads another, each is read back where
nothing follows, and all are short. -/
theorem opening_texts : ∀ flags ∈ allFlags,
    (∀ other ∈ allFlags, other ≠ flags →
      (opening other true).isPrefixOf (opening flags true) = false) ∧
    parseText (opening flags false ++ ['\x7d']) =
      some { credentials := flags.1, privacy := flags.2 } ∧
    ∀ choice, (opening flags choice).length ≤ 200 := by
  decide

theorem readFlags_opening (flags : Bool × ClipboardPrivacy) (tail : List Char) :
    readFlags (opening flags true ++ tail) = some (flags, tail) := by
  have hlist : ∀ others : List (Bool × ClipboardPrivacy), flags ∈ others →
      (others.findSome? fun other =>
        (strip (opening other true) (opening flags true ++ tail)).map fun rest => (other, rest)) =
          some (flags, tail) := by
    intro others hmem
    induction others with
    | nil => simp at hmem
    | cons other rest ih =>
      rw [List.findSome?_cons]
      by_cases heq : other = flags
      · rw [heq, strip_append]
        rfl
      · have hapart := (opening_texts flags (mem_allFlags flags)).1 other (mem_allFlags other) heq
        have hback := (opening_texts other (mem_allFlags other)).1 flags (mem_allFlags flags)
          (Ne.symm heq)
        rw [strip_eq_none hapart hback]
        exact ih ((List.mem_cons.1 hmem).resolve_left fun h => heq h.symm)
  exact hlist allFlags (mem_allFlags flags)

theorem takeWhile_digits (n : ℕ) (secret : Bool) (tail : List Char) :
    (Nat.toDigits 10 n ++ (choiceTail secret ++ tail)).takeWhile Char.isDigit =
        Nat.toDigits 10 n ∧
      (Nat.toDigits 10 n ++ (choiceTail secret ++ tail)).dropWhile Char.isDigit =
        choiceTail secret ++ tail := by
  have hdigits : ∀ c ∈ Nat.toDigits 10 n, c.isDigit = true :=
    fun c hc => Nat.isDigit_of_mem_toDigits (by omega) (by omega) hc
  have hrest : ∃ rest, choiceTail secret ++ tail = ',' :: rest := by
    cases secret <;> exact ⟨_, rfl⟩
  obtain ⟨rest, hrest⟩ := hrest
  rw [hrest, List.takeWhile_append_of_pos hdigits, List.dropWhile_append_of_pos hdigits]
  simp

theorem choiceTail_isPrefixOf (secret : Bool) (tail : List Char) :
    (choiceTail true).isPrefixOf (choiceTail secret ++ tail) = secret := by
  cases secret with
  | true => exact List.isPrefixOf_iff_prefix.2 (List.prefix_append _ _)
  | false =>
    have hnone := @strip_eq_none (choiceTail true) (choiceTail false) (by decide) (by decide) tail
    unfold strip at hnone
    split at hnone
    · simp at hnone
    · rename_i h
      exact Bool.eq_false_iff.2 h

theorem parseText_renderText (m : PayloadMetadata) (hfile : m.file = none)
    (hicon : m.sourceAppIcon = none)
    (hstamp : ∀ choice ∈ m.secretOverride, 0 < choice.updatedAt) :
    parseText (renderText m) = some m := by
  obtain ⟨credentials, privacy, choice, file, icon⟩ := m
  subst hfile hicon
  cases choice with
  | none =>
    have htext : renderText ⟨credentials, privacy, none, none, none⟩ =
        opening (credentials, privacy) false ++ ['\x7d'] := by
      simp [renderText]
    rw [htext]
    exact (opening_texts (credentials, privacy) (mem_allFlags _)).2.1
  | some choice =>
    have hpos := hstamp choice rfl
    have htext : renderText ⟨credentials, privacy, some choice, none, none⟩ =
        opening (credentials, privacy) true ++ (Nat.toDigits 10 choice.updatedAt.toNat ++
          (choiceTail choice.secret ++ ['\x7d'])) := by
      simp [renderText]
    obtain ⟨htake, hdrop⟩ := takeWhile_digits choice.updatedAt.toNat choice.secret ['\x7d']
    unfold parseText
    rw [htext, readFlags_opening]
    simp only [htake, hdrop, choiceTail_isPrefixOf, Nat.ofDigitChars_ten_toDigits]
    rw [Int.toNat_of_nonneg hpos.le]

theorem utf8Len_le (text : List Char) : String.utf8Len text ≤ 4 * text.length := by
  induction text with
  | nil => rfl
  | cons c rest ih =>
    have hc := Char.utf8Size_le_four c
    rw [String.utf8Len_cons, List.length_cons]
    omega

theorem length_renderText_le (m : PayloadMetadata)
    (hstamp : ∀ choice ∈ m.secretOverride, choice.updatedAt ≤ 2 ^ 63 - 1) :
    (renderText m).length ≤ 256 := by
  have hhead := (opening_texts (m.credentials, m.privacy) (mem_allFlags _)).2.2
    m.secretOverride.isSome
  unfold renderText
  cases hchoice : m.secretOverride with
  | none =>
    rw [hchoice] at hhead
    simp only [List.length_append, List.length_nil, List.length_singleton]
    omega
  | some choice =>
    rw [hchoice] at hhead
    have hstamp' := hstamp choice hchoice
    have hdigits : (Nat.toDigits 10 choice.updatedAt.toNat).length ≤ 19 := by
      rw [Nat.length_toDigits_le_iff (by omega) (by omega)]
      omega
    have htail : (choiceTail choice.secret).length ≤ 16 := by
      cases choice.secret <;> decide
    simp only [List.length_append, List.length_singleton]
    omega

/-- A host that writes and reads the JSON of metadata on text. -/
def notesHost : Host :=
  { sampleHost with
    parsePayload := fun text => parseText text.toList
    renderPayload := fun m => String.ofList (renderText m)
    privacyFlag := fun text flag => (parseText text.toList).any fun m =>
      if flag = "secret" then m.privacy.secret else m.privacy.transient }

theorem parsePayload_notesHost (text : String) :
    notesHost.parsePayload text = parseText text.toList := rfl

theorem renderPayload_notesHost (m : PayloadMetadata) :
    notesHost.renderPayload m = String.ofList (renderText m) := rfl

theorem privacyFlag_notesHost (text flag : String) :
    notesHost.privacyFlag text flag = (parseText text.toList).any fun m =>
      if flag = "secret" then m.privacy.secret else m.privacy.transient := rfl

theorem parseFile_notesHost (text : String) : notesHost.parseFile text = none := rfl

/-- The devices of the sample and the note they share. -/
def notesFleet : Fleet Bool where
  host := notesHost
  name := fun phone => if phone then "phone" else "laptop"
  encrypt := fun _ _ _ content => ([0], 0 :: content)
  decrypt := fun _ _ _ payload => some payload.2.tail

def note : Item := ⟨"note", "text", "note"⟩

theorem codec_notesHost : Codec notesHost "text" := by
  have hbare : ∀ m : PayloadMetadata, m.isValidFor notesHost "text" = true →
      m.file = none ∧ m.sourceAppIcon = none ∧
        ∀ choice ∈ m.secretOverride, 0 < choice.updatedAt := by
    intro m hvalid
    obtain ⟨hsound, -⟩ := (isValidFor_iff notesHost "text" m).1 hvalid
    refine ⟨?_, ?_, fun choice hchoice => (hsound.choice choice hchoice).1⟩
    · rw [Option.eq_none_iff_forall_not_mem]
      intro file hfile
      have htakes := hsound.takesFile (Option.isSome_iff_exists.2 ⟨file, hfile⟩)
      exact absurd htakes (by decide)
    · rw [Option.eq_none_iff_forall_not_mem]
      intro icon hicon
      exact absurd (hsound.icon icon hicon) (by simp [notesHost, sampleHost])
  have hsize : ∀ m : PayloadMetadata, Portable m →
      (notesHost.renderPayload m).utf8ByteSize ≤ maxSyncMetadataBytes := by
    intro m hport
    have hlength := length_renderText_le m hport.stamp
    have hbytes := utf8Len_le (renderText m)
    rw [renderPayload_notesHost, String.utf8ByteSize_ofList]
    unfold maxSyncMetadataBytes
    omega
  have hparse : ∀ m : PayloadMetadata, m.isValidFor notesHost "text" = true →
      parseText (notesHost.renderPayload m).toList = some m := by
    intro m hvalid
    obtain ⟨hfile, hicon, hstamp⟩ := hbare m hvalid
    rw [renderPayload_notesHost, String.toList_ofList]
    exact parseText_renderText m hfile hicon hstamp
  refine ⟨fun m _ hport => hsize m hport, fun m hvalid hport => ?_, fun m hvalid hport => ?_, ?_⟩
  · unfold PayloadMetadata.fromJson
    rw [if_neg (not_lt.2 (hsize m hport)), parsePayload_notesHost, hparse m hvalid,
      parseFile_notesHost]
    simp only [Option.filter_none, Option.filter_some, hvalid, if_true]
  · unfold PayloadMetadata.privacyFromJson
    rw [if_neg (not_lt.2 (hsize m hport)), privacyFlag_notesHost, privacyFlag_notesHost,
      hparse m hvalid]
    rfl
  · intro content privacy h
    simp [notesHost, sampleHost] at h

theorem lawful_notesFleet : notesFleet.Lawful note := by
  refine ⟨by decide, codec_notesHost, ?_, fun phone => ⟨fun _ => rfl, by simp [notesFleet,
    Fleet.device], by simp [notesFleet, Fleet.device]⟩⟩
  decide

def noteMetadata (choice : SecretOverride) : PayloadMetadata :=
  { privacy := ⟨choice.secret, false⟩, secretOverride := some choice }

def noteRow (createdAt : Int) (choice : SecretOverride) : ItemRow :=
  { sampleRow "note" "note" createdAt (some (notesHost.renderPayload (noteMetadata choice))) with
    payload := some ([0], 0 :: utf8 "note") }

def noteStore (createdAt : Int) (choice : SecretOverride) : Store where
  items := [noteRow createdAt choice]

theorem has_noteStore (phone : Bool) (createdAt : Int) (choice : SecretOverride)
    (hcreated : createdAt ≤ 2 ^ 63 - 1) (hpos : 0 < choice.updatedAt)
    (hstamp : choice.updatedAt ≤ 2 ^ 63 - 1) :
    Has (notesFleet.device phone) note (noteStore createdAt choice) := by
  have hstamps : ∀ other ∈ (noteMetadata choice).secretOverride, other.updatedAt ≤ 2 ^ 63 - 1 := by
    intro other hother
    obtain rfl := Option.some.inj hother
    exact hstamp
  have hport : Portable (noteMetadata choice) := ⟨hstamps, Or.inl rfl⟩
  have hcodec := lawful_notesFleet.codec_at phone
  have hvalid : (noteMetadata choice).isValidFor (notesFleet.device phone).host note.contentType =
      true := by
    rw [isValidFor_iff]
    refine ⟨⟨by simp [noteMetadata], by simp [noteMetadata], fun other hother => ?_,
      by simp [noteMetadata], fun h => absurd h (by decide), by simp [noteMetadata]⟩,
      by simp [noteMetadata]⟩
    obtain rfl := Option.some.inj hother
    exact ⟨hpos, rfl⟩
  have hmetadata : (noteRow createdAt choice).payloadMetadata =
      some ((notesFleet.device phone).host.renderPayload (noteMetadata choice)) := rfl
  have hreads : ReadsAs (notesFleet.device phone).host note.contentType
      (noteRow createdAt choice).payloadMetadata (noteMetadata choice) := by
    rw [hmetadata]
    exact ⟨hcodec.privacy _ hvalid hport, Or.inl (hcodec.reads _ hvalid hport)⟩
  have hopens : openVersionBytes (notesFleet.device phone) (noteRow createdAt choice) =
      some (utf8 "note") := rfl
  have hwf : WellFormed (noteStore createdAt choice) := by
    refine wellFormed_items (List.nodup_singleton _) fun row hrow => ?_
    rw [List.mem_singleton.1 hrow]
    exact (by decide : isRecordId "note" = false)
  have hdigest : (notesFleet.device phone).host.sha256 (utf8 "note") = note.contentHash := by
    cases phone <;> decide
  have hbears : Bears (notesFleet.device phone) note (noteRow createdAt choice) (utf8 "note")
      (noteMetadata choice) := by
    refine ⟨rfl, rfl, rfl, rfl, hopens, hdigest, by decide, fun _ => by decide,
      fun _ => by decide, hcreated, hreads, hstamps, ?_⟩
    simp [noteMetadata]
  refine ⟨noteRow createdAt choice, utf8 "note", noteMetadata choice, hwf, rfl, hbears, ?_⟩
  intro other hother hne
  rw [List.mem_singleton.1 hother] at hne
  exact absurd rfl hne

/-- The two devices were told opposite things in the same millisecond. -/
def tiedNotes (phone : Bool) : Store :=
  noteStore 5 ⟨5, !phone⟩

theorem tied_choices_stay :
    notesFleet.Lawful note ∧ (∀ i, Has (notesFleet.device i) note (tiedNotes i)) ∧
      notesFleet.Quiet note tiedNotes ∧
      notesFleet.choiceAt note tiedNotes false = some ⟨5, true⟩ ∧
      notesFleet.choiceAt note tiedNotes true = some ⟨5, false⟩ := by
  have hhas : ∀ i, Has (notesFleet.device i) note (tiedNotes i) :=
    fun i => has_noteStore i 5 ⟨5, !i⟩ (by decide) (by simp) (by simp)
  refine ⟨lawful_notesFleet, hhas, ?_, by decide, by decide⟩
  rw [quiet_iff lawful_notesFleet hhas, Lib.Gossip.quiet_iff]
  decide

/-- The laptop was told to conceal the note before the phone copied it again. -/
def splitNotes (phone : Bool) : Store :=
  if phone then noteStore 7 ⟨3, false⟩ else noteStore 5 ⟨5, true⟩

def splitOffers : List (Offer Bool) := [⟨true, false, .peer⟩, ⟨false, true, .cloud⟩]

theorem split_notes_converge :
    ((∃ k, notesFleet.choiceAt note (notesFleet.run note splitNotes splitOffers) false =
        notesFleet.choiceAt note splitNotes k) ∧
      ∀ j, rankOf (notesFleet.choiceAt note splitNotes j) ≤
        rankOf (notesFleet.choiceAt note (notesFleet.run note splitNotes splitOffers) false)) ∧
    (∃ k, notesFleet.choiceAt note (notesFleet.run note splitNotes splitOffers) true =
        notesFleet.choiceAt note splitNotes k) ∧
      ∀ j, rankOf (notesFleet.choiceAt note splitNotes j) ≤
        rankOf (notesFleet.choiceAt note (notesFleet.run note splitNotes splitOffers) true) := by
  have hhas : ∀ i, Has (notesFleet.device i) note (splitNotes i) := by
    intro i
    cases i with
    | false => exact has_noteStore false 5 ⟨5, true⟩ (by decide) (by decide) (by decide)
    | true => exact has_noteStore true 7 ⟨3, false⟩ (by decide) (by decide) (by decide)
  obtain ⟨hlast, hcopies, -⟩ := run_spec lawful_notesFleet hhas splitOffers
  have huntied : notesFleet.Untied note splitNotes := by
    unfold Fleet.Untied
    decide
  have hfirst : notesFleet.Unclaimed note splitNotes ⟨true, false, .peer⟩ := by
    unfold Fleet.Unclaimed
    decide
  have hsecond : notesFleet.Unclaimed note (notesFleet.run note splitNotes [⟨true, false, .peer⟩])
      ⟨false, true, .cloud⟩ := by
    have hcopies := (run_spec lawful_notesFleet hhas [⟨true, false, .peer⟩]).2.1
    have hgreater : ¬(notesFleet.copies note (notesFleet.run note splitNotes
        [⟨true, false, .peer⟩]) false).value < (notesFleet.copies note (notesFleet.run note
          splitNotes [⟨true, false, .peer⟩]) true).value := by
      rw [hcopies]
      decide
    exact fun _ hlesser => absurd hlesser hgreater
  have hquiet : notesFleet.Quiet note (notesFleet.run note splitNotes splitOffers) := by
    rw [quiet_iff lawful_notesFleet hlast, hcopies, Lib.Gossip.quiet_iff]
    decide
  have hall := (secrecy_converges notesFleet note lawful_notesFleet splitNotes hhas).2.2 splitOffers
    huntied ⟨hfirst, hsecond, trivial⟩ hquiet
  exact ⟨hall false, hall true⟩

end Sample

end CopyPaste.Peer.Secrecy
