import CopyPaste.Merge.Decide
import CopyPaste.Peer.StoreSource
import Mathlib

/-!
Planning against applying. Planning asks for a version by its summary; applying
decides again from the row. Where only the pin state wins, the organization's pin
or the origin of the row can keep the version winning after it was applied.
-/

namespace CopyPaste.Peer.Agree

open Lib.Rows Merge.Comparator Merge.Payload Merge.Storage Merge.Prepare Merge.Batch Merge.Effects
  Merge.Pages Merge.Repin Merge.Decide Upload.Scanning Plan Transfer StoreSource

variable {store : Store} {item : SyncItem} {version : Version}

theorem applyPage_single (host : Host) (hwf : WellFormed store) {item : RemoteVersion}
    (pin : P2pPin) (hsize : WithinLimit item) :
    applyPage host store [(item, some pin)] =
      .ok (match decisionAgainst host (store.versionSummary item.itemId) (item, some pin) with
        | .refused => (store, [⟨false, false⟩])
        | .lost false => (store, [⟨false, false⟩])
        | .lost true => ((pinAlone store item.itemId pin).1,
            [⟨false, (pinAlone store item.itemId pin).2⟩])
        | .won ready => ((store.upsert host ready.toIncomingItem).1,
            [⟨(store.upsert host ready.toIncomingItem).2,
              (store.upsert host ready.toIncomingItem).2⟩])) := by
  have hheld : lookup Version.id (store.versionSummaries [item.itemId]) item.itemId =
      store.versionSummary item.itemId := lookup_versionSummaries hwf _ (by simp)
  have hdecide := @decideRow_eq host (item, some pin) hsize
    (store.versionSummaries [item.itemId])
  unfold decisionOf at hdecide
  rw [hheld] at hdecide
  rw [applyPage_eq]
  simp only [List.map_cons, List.map_nil, decisions, hdecide, bind, Except.bind, pure, Except.pure,
    List.zip_cons_cons, List.zip_nil_right]
  cases decisionAgainst host (store.versionSummary item.itemId) (item, some pin) with
  | refused => rfl
  | lost wins =>
    cases wins with
    | false => rfl
    | true => simp [writeAll, pinPass, redo, Entry.flags, pinAlone, bind, Except.bind, pure, Except.pure]
  | won ready => simp [writeAll, pinPass, redo, Entry.flags, bind, Except.bind, pure, Except.pure]

variable (device : Device)

/-- Whether planning asks for a version: the store holds nothing of its id, or its
summary wins against the one held. -/
def selected (store : Store) (item : SyncItem) : Bool :=
  (store.versionSummary item.itemId).all fun version =>
    remoteVersionWins (storedSummary device.host version) item.summary

def contentWins (store : Store) (item : SyncItem) : Bool :=
  (store.versionSummary item.itemId).all fun version =>
    mergeDecisionBySummary (storedSummary device.host version) item.summary = .takeRemote

/-- Whether a merge knows the version's shape: a record of a kind it can read under that
record's id, or an item under another id. -/
def knows (item : SyncItem) : Bool :=
  (organizationText (remoteVersion item)).any fun text =>
    validWire device.host item.itemId item.contentType text item.deleted

/-- The write of a version whose content has won. -/
def incomingOf (store : Store) (item : SyncItem) : IncomingItem :=
  (prepared device.host (remoteVersion item)
    (some ((pinOf item).against device.host (remoteVersion item)
      (store.versionSummary item.itemId))) (store.versionSummary item.itemId)).toIncomingItem

/-- Another id holds the content under the dedup index. -/
def Collides (store : Store) (item : SyncItem) : Prop :=
  item.contentType ≠ recordContentType ∧ ¬ Fits device.host store (incomingOf device store item)

/-- What a session checks before it applies: the wire contract, a payload that
bears its hash, and a stamp of 64 bits. -/
structure Delivered (item : SyncItem) : Prop where
  valid : item.validate device.host = true
  genuine : item.deleted = false → device.host.sha256 item.payload = item.contentHash
  stamp : item.createdAt ≤ maxStamp

/-- The flag and the order of a pin state. -/
def pinFlags (pinned : Bool) (order : Option PinOrder) : Bool ×ₗ WithBot PinOrder :=
  toLex (pinned, pinRank order)

/-- A pin state of the same stamp and a lesser flag or order. -/
def Lesser (item : SyncItem) (stamp : Int) (pinned : Bool) (order : Option PinOrder) : Prop :=
  stamp = item.pinUpdatedAt ∧ pinFlags pinned order < pinFlags item.pinned item.pinOrder

/-- The local version's pin state stays for the origin it has, which the row loses
to the content that is taken. -/
def OutrankedHere (store : Store) (item : SyncItem) : Prop :=
  ∃ version ∈ store.versionSummary item.itemId,
    Lesser item version.pinUpdatedAt version.pinned version.pinOrder ∧
      item.originDeviceId < originOr version.originDeviceId device.host.here

/-- A lesser pin state of the same stamp takes the place of a clip's: the
organization's, or the local one. -/
def Displaced (store : Store) (item : SyncItem) : Prop :=
  match lookup PinState.clipId store.pinStates item.itemId with
  | none => OutrankedHere device store item
  | some known =>
    Lesser item known.updatedAt known.pinned known.pinOrder ∧
        (∀ version ∈ store.versionSummary item.itemId, version.pinUpdatedAt ≤ item.pinUpdatedAt) ∨
      known.updatedAt < item.pinUpdatedAt ∧ OutrankedHere device store item

/-- When applying a version settles it. With its content: the merge knows its shape, the
sweep spares the row, and a live version's own pin state is the one that lands beside
it; a record has none. With its pin state alone: the id is a clip's, the organization's pin of it is
older, and the row's origin is not below the version's. -/
def Settles (store : Store) (item : SyncItem) : Prop :=
  if contentWins device store item then
    knows device item = true ∧
      if item.contentType = recordContentType then
        toLex (item.pinUpdatedAt, pinFlags item.pinned item.pinOrder) ≤
          toLex (0, pinFlags false none)
      else
        item.itemId ∉ device.evicted (store.upsert device.host (incomingOf device store item)).1 ∧
          (item.deleted = false → ¬ Displaced device store item)
  else
    isRecordId item.itemId = false ∧
      (∀ known ∈ lookup PinState.clipId store.pinStates item.itemId,
        known.updatedAt < item.pinUpdatedAt) ∧
      ∀ version ∈ store.versionSummary item.itemId,
        item.originDeviceId ≤ originOr version.originDeviceId device.host.here

variable {device}

theorem bytes_remoteVersion (item : SyncItem) : (remoteVersion item).bytes = item.payload := by
  unfold RemoteVersion.bytes remoteVersion SyncItem.payload
  by_cases h : item.binaryContent = []
  · simp [h]
  · simp [h]

theorem Delivered.withinLimit (h : Delivered device item) : WithinLimit (remoteVersion item) := by
  intro _
  have hvalid := h.valid
  simp only [SyncItem.validate, Bool.and_eq_true, decide_eq_true_eq] at hvalid
  have hbytes : item.contentBytes ≤ Transfer.maxContentBytes := hvalid.2
  rw [bytes_remoteVersion]
  unfold SyncItem.payload
  unfold SyncItem.contentBytes at hbytes
  show _ ≤ Transfer.maxContentBytes
  split
  · rw [length_utf8]
    omega
  · omega

theorem Delivered.origin_ne (h : Delivered device item) : item.originDeviceId ≠ "" := by
  have hvalid := h.valid
  simp only [SyncItem.validate, checkId, Bool.and_eq_true, bne_iff_ne] at hvalid
  exact hvalid.1.1.1.1.1.1.1.1.1.2.1

theorem Delivered.contentHash (h : Delivered device item) (held : Option Version) :
    remoteContentHash device.host (remoteVersion item) held = item.contentHash := by
  unfold remoteContentHash
  cases hdeleted : item.deleted with
  | true => rw [if_pos (show (remoteVersion item).deleted = true from hdeleted)]; rfl
  | false =>
    rw [if_neg (by simp [remoteVersion, hdeleted]), bytes_remoteVersion]
    exact h.genuine hdeleted

def itemKey (item : SyncItem) : VersionKey :=
  versionKey item.createdAt item.contentHash item.deleted item.originDeviceId

def itemPinKey (item : SyncItem) : PinKey :=
  pinKey item.pinUpdatedAt item.originDeviceId item.pinned item.pinOrder

theorem contentWins_iff (store : Store) (item : SyncItem) :
    contentWins device store item = true ↔ ∀ version ∈ store.versionSummary item.itemId,
      Version.key device.host version < itemKey item := by
  unfold contentWins
  rw [Option.all_eq_true]
  refine forall₂_congr fun version _ => ?_
  rw [decide_eq_true_eq, mergeDecisionBySummary_takeRemote_iff]
  rfl

/-- Planning by the content or, between live versions, by the pin state. -/
theorem selected_iff (store : Store) (item : SyncItem) :
    selected device store item = true ↔ ∀ version ∈ store.versionSummary item.itemId,
      Version.key device.host version < itemKey item ∨
        version.deleted = false ∧ item.deleted = false ∧
          (storedSummary device.host version).pinKey < itemPinKey item := by
  unfold selected
  rw [Option.all_eq_true]
  refine forall₂_congr fun version _ => ?_
  unfold remoteVersionWins
  rw [Bool.or_eq_true, decide_eq_true_eq, mergeDecisionBySummary_takeRemote_iff,
    Bool.and_eq_true, Bool.and_eq_true, pinStateWins_iff, Bool.not_eq_true', Bool.not_eq_true',
    and_assoc]
  rfl

theorem keepsLocal_eq (h : Delivered device item) (store : Store) :
    keepsLocal device.host (remoteVersion item) none (store.versionSummary item.itemId) =
      !contentWins device store item := by
  have hhash := h.contentHash (store.versionSummary item.itemId)
  unfold keepsLocal contentWins
  cases hheld : store.versionSummary item.itemId with
  | none => rfl
  | some version =>
    rw [hheld] at hhash
    rw [Option.any_some, Option.all_some, hhash, ← decide_not, decide_eq_decide,
      mergeDecision_keepLocal_iff, mergeDecisionBySummary_takeRemote_iff, not_lt]
    rfl

theorem losesTo_eq (h : Delivered device item) (store : Store) :
    losesTo device.host (store.versionSummary item.itemId) (remoteVersion item) =
      !(knows device item && contentWins device store item) := by
  unfold losesTo
  rw [keepsLocal_eq h, Bool.not_and]
  rfl

/-- Whether the peer's pin state beats the local one when it is applied. -/
theorem remotePinWins_iff (store : Store) (item : SyncItem) :
    remotePinWins device.host (remoteVersion item) (pinOf item)
        (store.versionSummary item.itemId) = true ↔
      item.deleted = false ∧ ∀ version ∈ store.versionSummary item.itemId,
        (storedSummary device.host version).pinKey < itemPinKey item := by
  unfold remotePinWins
  rw [Bool.and_eq_true, Option.all_eq_true]
  refine and_congr (by simp [remoteVersion]) (forall₂_congr fun version _ => ?_)
  rw [pinStateWins_iff]
  rfl

theorem applyBatch_single (hwf : WellFormed store) (h : Delivered device item)
    (hrefused : payloadIsRefused device.host (remoteVersion item) = false) :
    applyBatch device store [item] =
      .ok (if knows device item && contentWins device store item then
        let answer := store.upsert device.host (incomingOf device store item)
        (if answer.2 then enforceRetention device answer.1 else answer.1, [answer.2])
      else if remotePinWins device.host (remoteVersion item) (pinOf item)
          (store.versionSummary item.itemId) then
        let answer := pinAlone store item.itemId (pinOf item)
        (answer.1, [answer.2])
      else (store, [false])) := by
  have hpage := applyPage_single device.host hwf (pinOf item) h.withinLimit
  have hdecision : decisionAgainst device.host (store.versionSummary (remoteVersion item).itemId)
      (remoteVersion item, some (pinOf item)) =
      if knows device item && contentWins device store item then
        .won (prepared device.host (remoteVersion item) (some ((pinOf item).against device.host
          (remoteVersion item) (store.versionSummary item.itemId)))
          (store.versionSummary item.itemId))
      else .lost (remotePinWins device.host (remoteVersion item) (pinOf item)
        (store.versionSummary item.itemId)) := by
    have hloses := losesTo_eq h store
    unfold decisionAgainst
    rw [if_neg (by simp [hrefused])]
    show (if losesTo device.host (store.versionSummary item.itemId) (remoteVersion item) = true
      then _ else _) = _
    rw [hloses]
    cases knows device item && contentWins device store item <;> rfl
  rw [hdecision] at hpage
  unfold applyBatch applyRemoteP2pVersions
  simp only [List.map_cons, List.map_nil, hpage]
  cases knows device item && contentWins device store item with
  | true =>
    simp only [if_true, List.any_cons, List.any_nil, Bool.or_false, List.map_cons, List.map_nil,
      P2pApply.any, Bool.or_self]
    rfl
  | false =>
    cases remotePinWins device.host (remoteVersion item) (pinOf item)
      (store.versionSummary item.itemId) with
    | true => rfl
    | false => rfl

theorem pinKey_lt_iff (stamp stamp' : Int) (origin origin' : String) (pinned pinned' : Bool)
    (order order' : Option PinOrder) :
    pinKey stamp origin pinned order < pinKey stamp' origin' pinned' order' ↔
      stamp < stamp' ∨ stamp = stamp' ∧ (origin < origin' ∨
        origin = origin' ∧ pinFlags pinned order < pinFlags pinned' order') := by
  simp only [pinKey, pinFlags, Prod.Lex.toLex_lt_toLex]

theorem not_blocked_iff (store : Store) (item : SyncItem) :
    ¬ Blocked store item.itemId (pinOf item) ↔
      ∀ known ∈ lookup PinState.clipId store.pinStates item.itemId,
        known.updatedAt < item.pinUpdatedAt := by
  unfold Blocked
  push Not
  exact Iff.rfl

/-- A version that wins by its pin state alone meets a live version. -/
theorem pinOnly_cases (hselected : selected device store item = true)
    (hcontent : contentWins device store item = false) :
    ∃ version, store.versionSummary item.itemId = some version ∧
      ¬ Version.key device.host version < itemKey item ∧ version.deleted = false ∧
      item.deleted = false ∧ (storedSummary device.host version).pinKey < itemPinKey item := by
  have hlost : ¬ ∀ version ∈ store.versionSummary item.itemId,
      Version.key device.host version < itemKey item := by
    rw [← contentWins_iff, hcontent]
    simp
  rw [selected_iff] at hselected
  cases hheld : store.versionSummary item.itemId with
  | none => simp [hheld] at hlost
  | some version =>
    have hkey : ¬ Version.key device.host version < itemKey item := by simpa [hheld] using hlost
    rcases hselected version hheld with hlt | hpin
    · exact absurd hlt hkey
    · exact ⟨version, rfl, hkey, hpin⟩

/-- The version of a live clip after its pin state was set. -/
theorem versionSummary_setPin (hwf : WellFormed store) {id : String} (hid : isRecordId id = false)
    (hheld : store.versionSummary id = some version) (hlive : version.deleted = false)
    (pin : P2pPin) :
    (mapItems store (setPin id pin)).versionSummary id = some { version with
      pinned := pin.pinned, pinOrder := pin.pinOrder, pinUpdatedAt := pin.pinUpdatedAt } := by
  have hrepins := repins_setPin id pin
  rw [versionSummary_item hwf hid] at hheld
  obtain ⟨row, hrow, rfl⟩ := Option.map_eq_some_iff.1 hheld
  have hdeleted : row.deleted = false := hlive
  have hrowId : row.id = id := (lookup_eq_some hrow).2
  rw [versionSummary_item (wellFormed_mapItems hwf hrepins) hid, mapItems,
    lookup_map (setPin id pin) hrepins.rowId, hrow, Option.map_some, Option.map_some]
  unfold setPin
  rw [if_pos (by simp [hrowId, hdeleted])]
  rfl

theorem pinOnly_settles_iff (hwf : WellFormed store) (h : Delivered device item)
    (hrefused : payloadIsRefused device.host (remoteVersion item) = false)
    (hselected : selected device store item = true)
    (hcontent : contentWins device store item = false) :
    (∃ after, applyBatch device store [item] = .ok (after, [true]) ∧
      selected device after item = false) ↔
    isRecordId item.itemId = false ∧
      (∀ known ∈ lookup PinState.clipId store.pinStates item.itemId,
        known.updatedAt < item.pinUpdatedAt) ∧
      ∀ version ∈ store.versionSummary item.itemId,
        item.originDeviceId ≤ originOr version.originDeviceId device.host.here := by
  obtain ⟨version, hheld, hkey, hlive, hitem, hpin⟩ := pinOnly_cases hselected hcontent
  have hwins : remotePinWins device.host (remoteVersion item) (pinOf item)
      (store.versionSummary item.itemId) = true := by
    rw [remotePinWins_iff, hheld]
    exact ⟨hitem, by simpa using hpin⟩
  rw [applyBatch_single hwf h hrefused, if_neg (by simp [hcontent]), if_pos hwins,
    ← not_blocked_iff]
  by_cases hblocked : Blocked store item.itemId (pinOf item)
  · rw [pinAlone_blocked hblocked]
    simp [hblocked]
  obtain ⟨hafter, hstored⟩ := pinAlone_open hblocked
  simp only [hblocked, not_false_eq_true, true_and]
  cases hid : isRecordId item.itemId with
  | true =>
    -- No clip bears a record's id, so there is no row to pin.
    have hnone : ¬ HasLive store item.itemId := by
      rintro ⟨row, hrow, hrowId, -⟩
      have hclip := hwf.itemIds row hrow
      rw [hrowId, hid] at hclip
      simp at hclip
    have hfalse : (pinAlone store item.itemId (pinOf item)).2 = false := by
      rw [← Bool.not_eq_true, hstored]
      exact hnone
    simp [hfalse]
  | false =>
    have hlives : HasLive store item.itemId := by
      rw [versionSummary_item hwf hid] at hheld
      obtain ⟨row, hrow, rfl⟩ := Option.map_eq_some_iff.1 hheld
      exact ⟨row, (lookup_eq_some hrow).1, (lookup_eq_some hrow).2, hlive⟩
    have hset := versionSummary_setPin hwf hid hheld hlive (pinOf item)
    have hagain : selected device (mapItems store (setPin item.itemId (pinOf item))) item = true ↔
        originOr version.originDeviceId device.host.here < item.originDeviceId := by
      rw [selected_iff, hset]
      simp only [Option.mem_def, Option.some.injEq, forall_eq']
      have hstays : ¬ Version.key device.host { version with
          pinned := (pinOf item).pinned
          pinOrder := (pinOf item).pinOrder
          pinUpdatedAt := (pinOf item).pinUpdatedAt } < itemKey item := hkey
      rw [or_iff_right hstays]
      unfold ItemSummary.pinKey storedSummary itemPinKey pinOf
      rw [pinKey_lt_iff]
      simp [hlive, hitem]
    rw [hstored.2 hlives, hafter, hheld]
    simp only [Except.ok.injEq, Prod.mk.injEq, and_true, exists_eq_left', Option.mem_def,
      Option.some.injEq, forall_eq', true_and]
    rw [← Bool.not_eq_true, hagain, not_lt]

/-- Whether a pin state loses to the item's own, under the item's origin. -/
def Below (item : SyncItem) (stamp : Int) (pinned : Bool) (order : Option PinOrder) : Prop :=
  stamp < item.pinUpdatedAt ∨ Lesser item stamp pinned order

theorem not_below_self (item : SyncItem) :
    ¬ Below item item.pinUpdatedAt item.pinned item.pinOrder := by
  rintro (hlt | ⟨-, hlt⟩)
  · exact lt_irrefl _ hlt
  · exact lt_irrefl _ hlt

variable (device) in
/-- The pin state that lands beside the content of a live item, before the
organization's. -/
def landing (store : Store) (item : SyncItem) : Bool × Option PinOrder × Int :=
  mergedPin (remoteVersion item)
    (some ((pinOf item).against device.host (remoteVersion item)
      (store.versionSummary item.itemId))) (store.versionSummary item.itemId)

/-- It is the item's, or the local one that the item's does not beat. -/
theorem landing_cases (store : Store) (hlive : item.deleted = false) :
    (landing device store item = (item.pinned, item.pinOrder, item.pinUpdatedAt) ∧
        ∀ version ∈ store.versionSummary item.itemId,
          (storedSummary device.host version).pinKey < itemPinKey item) ∨
      ∃ version, store.versionSummary item.itemId = some version ∧
        landing device store item = (version.pinned, version.pinOrder, version.pinUpdatedAt) ∧
          itemPinKey item ≤ (storedSummary device.host version).pinKey := by
  have hwins := @remotePinWins_iff device store item
  have hdeleted : (remoteVersion item).deleted = false := hlive
  unfold landing mergedPin P2pPin.against
  rw [if_neg (by simp [hdeleted])]
  cases hpin : remotePinWins device.host (remoteVersion item) (pinOf item)
      (store.versionSummary item.itemId) with
  | true => exact Or.inl ⟨rfl, (hwins.1 hpin).2⟩
  | false =>
    rw [hpin] at hwins
    simp only [hlive, true_and, Bool.false_eq_true, false_iff] at hwins
    push Not at hwins
    obtain ⟨version, hheld, hle⟩ := hwins
    rw [Option.mem_def] at hheld
    exact Or.inr ⟨version, hheld, by rw [hheld], hle⟩

/-- A local pin state that the item's does not beat is below the item's only for its
origin. -/
theorem below_iff_outranked (h : itemPinKey item ≤ (storedSummary device.host version).pinKey) :
    Below item version.pinUpdatedAt version.pinned version.pinOrder ↔
      Lesser item version.pinUpdatedAt version.pinned version.pinOrder ∧
        item.originDeviceId < originOr version.originDeviceId device.host.here := by
  have hkey : ¬ pinKey version.pinUpdatedAt (originOr version.originDeviceId device.host.here)
      version.pinned version.pinOrder <
        pinKey item.pinUpdatedAt item.originDeviceId item.pinned item.pinOrder := not_lt.2 h
  rw [pinKey_lt_iff] at hkey
  push Not at hkey
  obtain ⟨hstamp, hrest⟩ := hkey
  constructor
  · rintro (hlt | hlesser)
    · exact absurd hlt (not_lt.2 hstamp)
    · obtain ⟨horigin, hflags⟩ := hrest hlesser.1
      refine ⟨hlesser, lt_of_le_of_ne horigin fun heq => ?_⟩
      exact absurd hlesser.2 (not_lt.2 (hflags heq.symm))
  · exact fun hlesser => Or.inr hlesser.1

theorem not_outrankedHere (h : ∀ version ∈ store.versionSummary item.itemId,
      (storedSummary device.host version).pinKey < itemPinKey item) :
    ¬ OutrankedHere device store item := by
  rintro ⟨version, hheld, hlesser, horigin⟩
  have hlt : pinKey version.pinUpdatedAt (originOr version.originDeviceId device.host.here)
      version.pinned version.pinOrder <
        pinKey item.pinUpdatedAt item.originDeviceId item.pinned item.pinOrder := h version hheld
  rw [pinKey_lt_iff] at hlt
  rcases hlt with hlt | ⟨-, hlt | ⟨heq, -⟩⟩
  · exact absurd hlesser.1 (ne_of_lt hlt)
  · exact lt_asymm hlt horigin
  · exact ne_of_lt horigin heq.symm

theorem stamp_le_of_pinKey_lt (h : (storedSummary device.host version).pinKey < itemPinKey item) :
    version.pinUpdatedAt ≤ item.pinUpdatedAt := by
  have hlt : pinKey version.pinUpdatedAt (originOr version.originDeviceId device.host.here)
      version.pinned version.pinOrder <
        pinKey item.pinUpdatedAt item.originDeviceId item.pinned item.pinOrder := h
  rw [pinKey_lt_iff] at hlt
  rcases hlt with hlt | ⟨heq, -⟩
  · exact hlt.le
  · exact heq.le

theorem stamp_le_of_le_pinKey (h : itemPinKey item ≤ (storedSummary device.host version).pinKey) :
    item.pinUpdatedAt ≤ version.pinUpdatedAt := by
  rw [← not_lt]
  intro hlt
  refine absurd h (not_le.2 ?_)
  show pinKey _ _ _ _ < pinKey _ _ _ _
  rw [pinKey_lt_iff]
  exact Or.inl hlt

/-- The pin state of a live row after the projection is below the item's exactly
where a lesser one takes its place. -/
theorem below_projected_iff (hlive : item.deleted = false) {row : ItemRow}
    (hid : row.id = item.itemId) (hrow : row.deleted = false)
    (hpin : (row.pinned, row.pinOrder, row.pinUpdatedAt) = landing device store item) :
    Below item (projected store.pinStates row).pinUpdatedAt (projected store.pinStates row).pinned
      (projected store.pinStates row).pinOrder ↔ Displaced device store item := by
  unfold Displaced
  rcases landing_cases store hlive with ⟨hitem, hwins⟩ | ⟨version, hheld, hmine, hle⟩
  · rw [hitem] at hpin
    obtain ⟨hpinned, horder, hstamp⟩ : row.pinned = item.pinned ∧ row.pinOrder = item.pinOrder ∧
        row.pinUpdatedAt = item.pinUpdatedAt := by simpa using hpin
    cases hknown : lookup PinState.clipId store.pinStates item.itemId with
    | none =>
      have hsame : projected store.pinStates row = row := by
        unfold projected
        rw [hid, hknown]
      rw [hsame, hpinned, horder, hstamp]
      exact iff_of_false (not_below_self item) (not_outrankedHere hwins)
    | some known =>
      rw [projected_known (hid ▸ hknown) hrow]
      by_cases hnewer : row.pinUpdatedAt ≤ known.updatedAt
      · rw [if_pos hnewer]
        rw [hstamp] at hnewer
        have hbelow : Below item known.updatedAt known.pinned known.pinOrder ↔
            Lesser item known.updatedAt known.pinned known.pinOrder :=
          or_iff_right (not_lt.2 hnewer)
        refine hbelow.trans ⟨fun h => Or.inl ⟨h, fun version hheld => ?_⟩, ?_⟩
        · exact stamp_le_of_pinKey_lt (hwins version hheld)
        · rintro (⟨h, -⟩ | ⟨hlt, -⟩)
          · exact h
          · exact absurd hlt (not_lt.2 hnewer)
      · rw [if_neg hnewer, hpinned, horder, hstamp]
        refine iff_of_false (not_below_self item) ?_
        rintro (⟨⟨heq, -⟩, -⟩ | ⟨-, hout⟩)
        · rw [hstamp] at hnewer
          exact hnewer heq.ge
        · exact not_outrankedHere hwins hout
  · rw [hmine] at hpin
    obtain ⟨hpinned, horder, hstamp⟩ : row.pinned = version.pinned ∧
        row.pinOrder = version.pinOrder ∧ row.pinUpdatedAt = version.pinUpdatedAt := by
      simpa using hpin
    have hatLeast := stamp_le_of_le_pinKey hle
    have hout : OutrankedHere device store item ↔
        Below item version.pinUpdatedAt version.pinned version.pinOrder := by
      rw [below_iff_outranked hle]
      unfold OutrankedHere
      simp [hheld]
    cases hknown : lookup PinState.clipId store.pinStates item.itemId with
    | none =>
      have hsame : projected store.pinStates row = row := by
        unfold projected
        rw [hid, hknown]
      rw [hsame, hpinned, horder, hstamp]
      exact hout.symm
    | some known =>
      rw [projected_known (hid ▸ hknown) hrow, hheld]
      simp only [Option.mem_def, Option.some.injEq, forall_eq']
      by_cases hnewer : row.pinUpdatedAt ≤ known.updatedAt
      · rw [if_pos hnewer]
        rw [hstamp] at hnewer
        have hbelow : Below item known.updatedAt known.pinned known.pinOrder ↔
            Lesser item known.updatedAt known.pinned known.pinOrder :=
          or_iff_right (by omega)
        refine hbelow.trans ⟨fun h => Or.inl ⟨h, ?_⟩, ?_⟩
        · have heq : known.updatedAt = item.pinUpdatedAt := h.1
          omega
        · rintro (⟨h, -⟩ | ⟨hlt, -⟩)
          · exact h
          · omega
      · rw [if_neg hnewer, hpinned, horder, hstamp]
        rw [hstamp] at hnewer
        rw [← hout]
        constructor
        · intro h
          have heq : version.pinUpdatedAt = item.pinUpdatedAt := by
            obtain ⟨version', hheld', hlesser, -⟩ := h
            obtain rfl : version = version' := by simpa [hheld] using hheld'
            exact hlesser.1
          exact Or.inr ⟨by omega, h⟩
        · rintro (⟨⟨heq, -⟩, hle'⟩ | ⟨-, h⟩)
          · omega
          · exact h

theorem stamp_le_stampOf (store : Store) {incoming : IncomingItem}
    (hstamp : incoming.createdAt ≤ maxStamp) :
    incoming.createdAt ≤ (store.rowOf device.host incoming).1.createdAt := by
  have hsucc : incoming.createdAt ≤ saturatingSucc incoming.createdAt := by
    unfold saturatingSucc
    unfold maxStamp at hstamp
    omega
  unfold Store.rowOf
  cases hdeleted : incoming.deleted with
  | true => simp
  | false =>
    simp only [Bool.false_eq_true, if_false]
    unfold mergeHeldPrivacy
    simp only
    split
    · exact le_rfl
    · exact hsucc

theorem versionSummary_written (hwf : WellFormed store) {incoming : IncomingItem}
    (hid : isRecordId incoming.id = false) :
    (written device.host store incoming).versionSummary incoming.id =
      some (projected store.pinStates (store.rowOf device.host incoming).1).toVersion := by
  rw [versionSummary_item (wellFormed_written device.host hwf hid) hid, written, lookup_put,
    projected_id, rowOf_id, if_pos rfl]
  rfl

/-- The row of a taken version ranks at least as high as the version. -/
theorem itemKey_le_row (h : Delivered device item) (store : Store) (pins : List PinState) :
    itemKey item ≤ Version.key device.host
      (projected pins (store.rowOf device.host (incomingOf device store item)).1).toVersion := by
  have hstamp : (incomingOf device store item).createdAt ≤
      (store.rowOf device.host (incomingOf device store item)).1.createdAt :=
    stamp_le_stampOf store h.stamp
  have horigin : originOr item.originDeviceId device.host.here = item.originDeviceId :=
    if_neg h.origin_ne
  have hhash : (incomingOf device store item).contentHash = item.contentHash :=
    h.contentHash (store.versionSummary item.itemId)
  have hkey : Version.key device.host
      (store.rowOf device.host (incomingOf device store item)).1.toVersion =
      versionKey (store.rowOf device.host (incomingOf device store item)).1.createdAt
        item.contentHash item.deleted item.originDeviceId := by
    rw [← hhash, ← horigin]
    rfl
  rw [key_projected, hkey, ← not_lt]
  unfold itemKey
  rw [versionKey_lt_iff]
  rintro (hlt | ⟨-, hlt | ⟨-, hlt | ⟨-, hlt⟩⟩⟩)
  · exact absurd hlt (not_lt.2 hstamp)
  · exact lt_irrefl _ hlt
  · exact lt_irrefl _ hlt
  · exact lt_irrefl _ hlt

theorem unpinned_projected (pins : List PinState) (row : ItemRow) :
    unpinned (projected pins row) = unpinned row := by
  unfold projected
  split
  · rfl
  · unfold PinState.onto
    split <;> rfl

/-- What the merge knows is a record under a record's id, or an item under another. -/
theorem wire_of_knows (hknows : knows device item = true) :
    ∃ text, organizationText (remoteVersion item) = some text ∧
      validWire device.host item.itemId item.contentType text item.deleted = true := by
  unfold knows at hknows
  rwa [Option.any_eq_true] at hknows

/-- A pin state stored alone leaves the content's comparison as it was. -/
theorem contentWins_pinAlone (hwf : WellFormed store) (item : SyncItem) :
    contentWins device (pinAlone store item.itemId (pinOf item)).1 item =
      contentWins device store item := by
  by_cases hblocked : Blocked store item.itemId (pinOf item)
  · rw [pinAlone_blocked hblocked]
  · rw [(pinAlone_open hblocked).1, Bool.eq_iff_iff, contentWins_iff, contentWins_iff]
    rcases versionSummary_mapItems hwf (repins_setPin item.itemId (pinOf item)) with
      heq | ⟨row, hold, hnew⟩
    · rw [heq]
    · have hkey : Version.key device.host (setPin item.itemId (pinOf item) row).toVersion =
          Version.key device.host row.toVersion := by
        unfold setPin
        split <;> rfl
      simp [hold, hnew, hkey]

/-- Content that wins and that the merge does not know is asked for again, whatever
becomes of its pin state. -/
theorem unknown_selected (hwf : WellFormed store) (h : Delivered device item)
    (hrefused : payloadIsRefused device.host (remoteVersion item) = false)
    (hcontent : contentWins device store item = true) (hknows : knows device item = false)
    {after : Store} {stored : List Bool}
    (hok : applyBatch device store [item] = .ok (after, stored)) :
    selected device after item = true := by
  have hwins : contentWins device after item = true := by
    rw [applyBatch_single hwf h hrefused, hknows, Bool.false_and, if_neg Bool.false_ne_true] at hok
    split at hok
    · cases hok
      rwa [contentWins_pinAlone hwf]
    · cases hok
      exact hcontent
  rw [selected_iff]
  exact fun version hheld => Or.inl (contentWins_iff after item |>.1 hwins version hheld)

/-- Whether planning asks again for a version whose row is at least its rank. -/
theorem selected_stored_iff {after : Store}
    (hheld : after.versionSummary item.itemId = some version)
    (hkey : itemKey item ≤ Version.key device.host version)
    (hdeleted : version.deleted = item.deleted)
    (horigin : originOr version.originDeviceId device.host.here = item.originDeviceId) :
    selected device after item = true ↔
      item.deleted = false ∧ Below item version.pinUpdatedAt version.pinned version.pinOrder := by
  rw [selected_iff, hheld]
  simp only [Option.mem_def, Option.some.injEq, forall_eq']
  rw [or_iff_right (not_lt.2 hkey), hdeleted, ← and_assoc, and_self]
  refine and_congr_right fun _ => ?_
  unfold ItemSummary.pinKey storedSummary itemPinKey
  rw [pinKey_lt_iff, horigin]
  simp only [lt_irrefl, true_and, false_or]
  rfl

theorem item_settles_iff (hwf : WellFormed store) (h : Delivered device item)
    (hrefused : payloadIsRefused device.host (remoteVersion item) = false)
    (hknows : knows device item = true) (hcontent : contentWins device store item = true)
    (hkind : item.contentType ≠ recordContentType)
    (hfits : Fits device.host store (incomingOf device store item)) :
    (∃ after, applyBatch device store [item] = .ok (after, [true]) ∧
      selected device after item = false) ↔
    item.itemId ∉ device.evicted (store.upsert device.host (incomingOf device store item)).1 ∧
      (item.deleted = false → ¬ Displaced device store item) := by
  have hid : isRecordId item.itemId = false := by
    obtain ⟨text, -, hwire⟩ := wire_of_knows hknows
    unfold validWire at hwire
    rw [if_pos hkind] at hwire
    simpa using hwire
  have hupsert : store.upsert device.host (incomingOf device store item) =
      (written device.host store (incomingOf device store item), true) := by
    rw [upsert_item device.host hkind hid, if_pos hfits]
  rw [applyBatch_single hwf h hrefused, if_pos (by rw [hknows, hcontent]; rfl)]
  simp only [hupsert, if_true, Except.ok.injEq, Prod.mk.injEq, and_true, exists_eq_left']
  rw [← Bool.not_eq_true]
  set after := written device.host store (incomingOf device store item) with hafter
  have hwf' : WellFormed after := wellFormed_written device.host hwf hid
  have hstored : after.versionSummary item.itemId = some (projected store.pinStates
      (store.rowOf device.host (incomingOf device store item)).1).toVersion :=
    versionSummary_written hwf hid
  have hswept : (enforceRetention device after).versionSummary item.itemId =
      if item.itemId ∈ device.evicted after then none else after.versionSummary item.itemId := by
    rw [versionSummary_item (wellFormed_enforceRetention hwf') hid, versionSummary_item hwf' hid,
      enforceRetention, lookup_filter (fun id => id ∉ device.evicted after)]
    by_cases hevicted : item.itemId ∈ device.evicted after
    · rw [if_neg (not_not.2 hevicted), if_pos hevicted, Option.map_none]
    · rw [if_pos hevicted, if_neg hevicted]
  by_cases hevicted : item.itemId ∈ device.evicted after
  · rw [if_pos hevicted] at hswept
    have hagain : selected device (enforceRetention device after) item = true := by
      unfold selected
      rw [hswept]
      rfl
    simp [hagain, hevicted]
  · rw [if_neg hevicted, hstored] at hswept
    set row := (store.rowOf device.host (incomingOf device store item)).1 with hrow
    have hcontent : unpinned (projected store.pinStates row) = unpinned row :=
      unpinned_projected store.pinStates row
    have hdeleted : (projected store.pinStates row).deleted = item.deleted :=
      congrArg ItemRow.deleted hcontent
    have horigin : (projected store.pinStates row).originDeviceId = item.originDeviceId :=
      congrArg ItemRow.originDeviceId hcontent
    rw [selected_stored_iff hswept (itemKey_le_row h store store.pinStates) hdeleted
      ((congrArg (originOr · device.host.here) horigin).trans (if_neg h.origin_ne)), not_and, and_iff_right hevicted]
    refine forall_congr' fun hlive => not_congr ?_
    refine below_projected_iff hlive rfl hlive ?_
    have hrowLive : (incomingOf device store item).deleted = false := hlive
    simp only [hrow, Store.rowOf, hrowLive]
    rfl

theorem record_settles_iff (hwf : WellFormed store) (h : Delivered device item)
    (hrefused : payloadIsRefused device.host (remoteVersion item) = false)
    (hknows : knows device item = true) (hcontent : contentWins device store item = true)
    (hkind : item.contentType = recordContentType) :
    (∃ after, applyBatch device store [item] = .ok (after, [true]) ∧
      selected device after item = false) ↔
    toLex (item.pinUpdatedAt, pinFlags item.pinned item.pinOrder) ≤
      toLex (0, pinFlags false none) := by
  obtain ⟨text, htext, hwire⟩ := wire_of_knows hknows
  have hrecord := isRecordId_of_validWire device.host (hkind ▸ hwire)
  have hsearch : (incomingOf device store item).searchText = some text := by
    rw [← htext]
    exact if_pos hkind
  obtain ⟨record, -, hupsert⟩ := upsert_valid_record device.host store
    (incomingOf device store item) text hkind hsearch hwire
  rw [applyBatch_single hwf h hrefused, if_pos (by rw [hknows, hcontent]; rfl)]
  simp only [hupsert, if_true, Except.ok.injEq, Prod.mk.injEq, and_true, exists_eq_left']
  rw [← Bool.not_eq_true]
  set after := recorded store (incomingOf device store item) record with hafter
  have hwf' : WellFormed after := wellFormed_recorded hwf hrecord.1 record
  have hhash : (incomingOf device store item).contentHash = item.contentHash :=
    h.contentHash (store.versionSummary item.itemId)
  have hswept : (enforceRetention device after).versionSummary item.itemId =
      some (RecordRow.toVersion ⟨item.itemId, (incomingOf device store item).payload,
        item.contentHash, item.createdAt, item.originDeviceId⟩) := by
    rw [versionSummary_record (wellFormed_enforceRetention hwf') hrecord.1, enforceRetention,
      hafter, records_recorded, lookup_put, hhash]
    exact congrArg (Option.map RecordRow.toVersion) (if_pos rfl)
  have horigin : originOr item.originDeviceId device.host.here = item.originDeviceId :=
    if_neg h.origin_ne
  have hkey : itemKey item ≤ Version.key device.host (RecordRow.toVersion
      ⟨item.itemId, (incomingOf device store item).payload, item.contentHash, item.createdAt,
        item.originDeviceId⟩) := by
    unfold itemKey Version.key RecordRow.toVersion
    rw [horigin, hrecord.2]
  rw [selected_stored_iff hswept hkey hrecord.2.symm horigin, and_iff_right hrecord.2, ← not_lt,
    Prod.Lex.toLex_lt_toLex]
  rfl

/-- A version that planning asks for, whose payload is not refused and that meets no other
id's content is stored and not asked for again exactly when applying it settles
it. -/
theorem applied_settles_iff {store : Store} (hwf : WellFormed store) {item : SyncItem}
    (h : Delivered device item) (hselected : selected device store item = true)
    (hrefused : payloadIsRefused device.host (remoteVersion item) = false)
    (hcollides : ¬ Collides device store item) :
    (∃ after, applyBatch device store [item] = .ok (after, [true]) ∧
      selected device after item = false) ↔ Settles device store item := by
  unfold Settles
  cases hcontent : contentWins device store item with
  | false =>
    rw [if_neg (by simp)]
    exact pinOnly_settles_iff hwf h hrefused hselected hcontent
  | true =>
    rw [if_pos rfl]
    cases hknows : knows device item with
    | false =>
      refine iff_of_false ?_ fun hsettles => Bool.false_ne_true hsettles.1
      rintro ⟨after, hok, hagain⟩
      rw [unknown_selected hwf h hrefused hcontent hknows hok] at hagain
      cases hagain
    | true =>
      rw [and_iff_right rfl]
      by_cases hkind : item.contentType = recordContentType
      · rw [if_pos hkind]
        exact record_settles_iff hwf h hrefused hknows hcontent hkind
      · rw [if_neg hkind]
        have hfits : Fits device.host store (incomingOf device store item) := by
          by_contra hnot
          exact hcollides ⟨hkind, hnot⟩
        exact item_settles_iff hwf h hrefused hknows hcontent hkind hfits

/-- A note as another device sends it, with a pin state set at 7. -/
def pinnedNote (createdAt : Int) (origin : String) : SyncItem where
  itemId := "a"
  content := "a"
  binaryContent := []
  payloadMetadata := none
  sourceAppBundleId := none
  sourceAppName := none
  contentType := "text"
  createdAt := createdAt
  deleted := false
  contentHash := "a"
  originDeviceId := origin
  pinned := true
  pinOrder := some 1
  pinUpdatedAt := 7

def noted : Store := { items := [sampleNote "a" 5 "laptop"] }

theorem wellFormed_noted : WellFormed noted :=
  wellFormed_items (by decide) (by decide)

theorem delivered_pinnedNote (createdAt : Int) (origin : String) (hstamp : createdAt ≤ maxStamp)
    (hvalid : (pinnedNote createdAt origin).validate (sampleDevice "laptop").host = true) :
    Delivered (sampleDevice "laptop") (pinnedNote createdAt origin) := by
  refine ⟨hvalid, fun _ => ?_, hstamp⟩
  show sampleHost.sha256 (utf8 "a") = "a"
  decide

/-- A newer note is stored with its pin state and settled. -/
theorem newer_note_settled :
    selected (sampleDevice "laptop") noted (pinnedNote 9 "phone") = true ∧
      ∃ after, applyBatch (sampleDevice "laptop") noted [pinnedNote 9 "phone"] =
          .ok (after, [true]) ∧
        selected (sampleDevice "laptop") after (pinnedNote 9 "phone") = false := by
  have hselected : selected (sampleDevice "laptop") noted (pinnedNote 9 "phone") = true := by
    decide
  have hdelivered := delivered_pinnedNote 9 "phone" (by decide) (by decide)
  have hcollides : ¬ Collides (sampleDevice "laptop") noted (pinnedNote 9 "phone") := by
    unfold Collides
    decide
  refine ⟨hselected, (applied_settles_iff wellFormed_noted hdelivered hselected
    (by decide) hcollides).2 ?_⟩
  unfold Settles
  rw [if_pos (by decide), if_neg (by decide)]
  refine ⟨by decide, by decide, fun _ => ?_⟩
  show ¬ OutrankedHere (sampleDevice "laptop") noted (pinnedNote 9 "phone")
  rintro ⟨version, hheld, ⟨hstamp, -⟩, -⟩
  have hheld' : noted.versionSummary "a" = some version := hheld
  obtain rfl : (sampleNote "a" 5 "laptop").toVersion = version := by
    simpa using (show noted.versionSummary "a" = some _ by decide).symm.trans hheld'
  exact absurd hstamp (by decide)

/-- The pin state of an older note whose origin is the greater one is stored, and
wins again: planning would ask for it in every session. -/
theorem stored_pin_selected_again :
    Delivered (sampleDevice "laptop") (pinnedNote 3 "phone") ∧
      selected (sampleDevice "laptop") noted (pinnedNote 3 "phone") = true ∧
      payloadIsRefused (sampleDevice "laptop").host (remoteVersion (pinnedNote 3 "phone")) =
        false ∧
      ¬ Collides (sampleDevice "laptop") noted (pinnedNote 3 "phone") ∧
      ∃ after, applyBatch (sampleDevice "laptop") noted [pinnedNote 3 "phone"] =
          .ok (after, [true]) ∧
        selected (sampleDevice "laptop") after (pinnedNote 3 "phone") = true := by
  refine ⟨delivered_pinnedNote 3 "phone" (by decide) (by decide), by decide,
    by decide, ?_, ?_⟩
  · unfold Collides
    decide
  · refine ⟨{ items := [{ sampleNote "a" 5 "laptop" with
      pinned := true, pinOrder := some 1, pinUpdatedAt := 7 }] }, ?_, ?_⟩
    · decide
    · decide

end CopyPaste.Peer.Agree
