import CopyPaste.Merge.Pages
import CopyPaste.Merge.Repin

/-!
The decision about one item as a function of the version it meets: refused, lost,
or won and written as a row. The comparator reads no pin state, and the projection
of the organization's pin can make rows with different pin states the same.
-/

namespace CopyPaste.Merge.Decide

open Lib.Rows Comparator Payload Storage Prepare Batch Effects Pages Repin Upload.Scanning

/-- A version without its pin state. -/
def unpinnedVersion (version : Version) : Version :=
  { version with pinned := false, pinOrder := none, pinUpdatedAt := 0 }

/-- A version under the organization's pin. -/
def pinnedBy (version : Version) (pin : PinState) : Version :=
  { version with pinned := pin.pinned, pinOrder := pin.pinOrder, pinUpdatedAt := pin.updatedAt }

/-- The organization's pin of a clip, on a live row. -/
theorem projected_known {pins : List PinState} {row : ItemRow} {known : PinState}
    (hknown : lookup PinState.clipId pins row.id = some known) (hlive : row.deleted = false) :
    projected pins row = if row.pinUpdatedAt ≤ known.updatedAt then
      { row with pinned := known.pinned, pinOrder := known.pinOrder,
                 pinUpdatedAt := known.updatedAt } else row := by
  unfold projected PinState.onto
  rw [hknown]
  simp [hlive]

theorem toVersion_onto (known : PinState) (row : ItemRow) :
    (known.onto row).toVersion =
      if row.deleted = false ∧ row.pinUpdatedAt ≤ known.updatedAt then
        pinnedBy row.toVersion known else row.toVersion := by
  unfold PinState.onto
  by_cases h : row.deleted = false ∧ row.pinUpdatedAt ≤ known.updatedAt
  · rw [if_pos (by simpa using h), if_pos h]
    rfl
  · rw [if_neg (by simpa using h), if_neg h]

variable (host : Host)

/-- A record that pins a clip puts its pin on the clip's version, unless that is
deleted or its pin state newer. -/
theorem versionSummary_pinned {store : Store} (hwf : WellFormed store) {incoming : IncomingItem}
    {id : String} (hclip : PinsClip host incoming id)
    (hstored : (store.upsert host incoming).2 = true) :
    ∃ pin, lookup PinState.clipId (store.upsert host incoming).1.pinStates id = some pin ∧
      pin.updatedAt = incoming.createdAt ∧ isRecordId id = false ∧
      (store.upsert host incoming).1.versionSummary id =
        (store.versionSummary id).map fun version =>
          if version.deleted = false ∧ version.pinUpdatedAt ≤ pin.updatedAt then
            pinnedBy version pin else version := by
  obtain ⟨hkind, text, pinned, order, htext, hparse⟩ := hclip
  have hwf' := wellFormed_upsert host hwf incoming
  rcases upsert_record host hkind with heq | ⟨text', record, htext', hvalid, hrecord, heq⟩
  · rw [heq] at hstored
    simp at hstored
  · obtain rfl : text = text' := by simpa [htext] using htext'
    obtain rfl : record = .pin id pinned order := by simpa [hparse] using hrecord.symm
    have hid : isRecordId id = false := by
      unfold validWire at hvalid
      rw [if_neg (by simp)] at hvalid
      simp only [Bool.and_eq_true, hparse, Option.any_some, Record.valid, validIdentifier,
        Bool.not_eq_true'] at hvalid
      exact hvalid.2.1.1.2
    rw [heq] at hwf' ⊢
    refine ⟨⟨id, pinned, order, incoming.createdAt⟩, ?_, rfl, hid, ?_⟩
    · rw [recorded_pin]
      simp only [mapItems, lookup_put, if_true]
    · rw [versionSummary_item hwf' hid, versionSummary_item hwf hid, recorded_pin, mapItems,
        lookup_map _ (repins_pinOnto id _).rowId]
      cases hrow : lookup ItemRow.id store.items id with
      | none => rfl
      | some row =>
        simp only [Option.map_some, pinOnto, (lookup_eq_some hrow).2, if_true, toVersion_onto]
        rfl

variable {held other : Option Version}

theorem remoteContentHash_congr (item : RemoteVersion)
    (h : held.map unpinnedVersion = other.map unpinnedVersion) :
    remoteContentHash host item held = remoteContentHash host item other := by
  have hhash : held.map Version.contentHash = other.map Version.contentHash := by
    have hmap := congrArg (Option.map Version.contentHash) h
    rw [Option.map_map, Option.map_map] at hmap
    exact hmap
  unfold remoteContentHash
  rw [hhash]

/-- The comparator reads no pin state. -/
theorem keepsLocal_congr (item : RemoteVersion) (pin pin' : Option RemotePin)
    (h : held.map unpinnedVersion = other.map unpinnedVersion) :
    keepsLocal host item pin held = keepsLocal host item pin' other := by
  have hhash := remoteContentHash_congr host item h
  cases held with
  | none =>
    cases other with
    | none => rfl
    | some version => simp at h
  | some version =>
    cases other with
    | none => simp at h
    | some version' =>
      simp only [Option.map_some, Option.some.injEq, unpinnedVersion, Version.mk.injEq] at h
      obtain ⟨-, hstamp, hcontent, hdeleted, -, -, -, horigin⟩ := h
      unfold keepsLocal
      rw [Option.any_some, Option.any_some, decide_eq_decide, mergeDecision_keepLocal_iff,
        mergeDecision_keepLocal_iff]
      simp only [storedSummary, remoteSummary, hhash, hstamp, hcontent, hdeleted, horigin]

/-- An item under another pin state. -/
def repinned (incoming : IncomingItem) (pin : Bool × Option PinOrder × Int) : IncomingItem :=
  { incoming with pinned := pin.1, pinOrder := pin.2.1, pinUpdatedAt := pin.2.2 }

/-- Pin states the projection makes the same are written the same. -/
theorem upsert_repinned (store : Store) (incoming : IncomingItem)
    (pin : Bool × Option PinOrder × Int)
    (h : isRecordId incoming.id = false → incoming.deleted = false →
      projected store.pinStates (store.rowOf host incoming).1 =
        projected store.pinStates (store.rowOf host (repinned incoming pin)).1) :
    store.upsert host incoming = store.upsert host (repinned incoming pin) := by
  by_cases hkind : incoming.contentType = recordContentType
  · have hkind' : (repinned incoming pin).contentType = recordContentType := hkind
    unfold Store.upsert
    rw [if_pos hkind, if_pos hkind']
    rfl
  · have hkind' : (repinned incoming pin).contentType ≠ recordContentType := hkind
    cases hid : isRecordId incoming.id with
    | true =>
      have hid' : isRecordId (repinned incoming pin).id = true := hid
      unfold Store.upsert
      rw [if_neg hkind, if_neg hkind', if_pos hid, if_pos hid']
    | false =>
      have hfits : Fits host store incoming ↔ Fits host store (repinned incoming pin) := Iff.rfl
      have hwritten : written host store incoming = written host store (repinned incoming pin) := by
        unfold written
        have hrow : projected store.pinStates (store.rowOf host incoming).1 =
            projected store.pinStates (store.rowOf host (repinned incoming pin)).1 := by
          cases hdeleted : incoming.deleted with
          | true => simp only [Store.rowOf, repinned, hdeleted, if_true, Bool.not_true,
              Bool.false_and]
          | false => exact h hid hdeleted
        rw [hrow]
        rfl
      have hid' : isRecordId (repinned incoming pin).id = false := hid
      rw [upsert_item host hkind hid, upsert_item host hkind' hid', hwritten]
      by_cases hf : Fits host store incoming
      · rw [if_pos hf, if_pos (hfits.1 hf)]
      · rw [if_neg hf, if_neg fun h => hf (hfits.2 h)]

/-- Whether the local version keeps its place against an item of a stored shape. -/
def losesTo (held : Option Version) (item : RemoteVersion) : Bool :=
  !((organizationText item).any fun text =>
      validWire host item.itemId item.contentType text item.deleted) ||
    keepsLocal host item none held

theorem losesTo_congr (item : RemoteVersion)
    (h : held.map unpinnedVersion = other.map unpinnedVersion) :
    losesTo host held item = losesTo host other item := by
  unfold losesTo
  rw [keepsLocal_congr host item none none h]

/-- What the plan makes of an item within the size limit, against a version. -/
def decisionAgainst (version : Option Version) (incoming : Incoming) : Decision :=
  if payloadIsRefused host incoming.1 then .refused
  else if losesTo host version incoming.1 then
    .lost ((incoming.2.map fun pin => pin.against host incoming.1 version).any RemotePin.wins)
  else
    .won (prepared host incoming.1
      (incoming.2.map fun pin => pin.against host incoming.1 version) version)

def decisionOf (held : List Version) (incoming : Incoming) : Decision :=
  decisionAgainst host (lookup Version.id held incoming.1.itemId) incoming

theorem decisionAgainst_won {version : Option Version} {incoming : Incoming} {ready : Prepared}
    (h : decisionAgainst host version incoming = .won ready) :
    payloadIsRefused host incoming.1 = false ∧ losesTo host version incoming.1 = false ∧
      ready = prepared host incoming.1
        (incoming.2.map fun pin => pin.against host incoming.1 version) version := by
  unfold decisionAgainst at h
  split at h
  · simp at h
  · rename_i hrefused
    split at h
    · simp at h
    · rename_i hloses
      simp only [Decision.won.injEq] at h
      exact ⟨by simpa using hrefused, by simpa using hloses, h.symm⟩

def WithinLimit (item : RemoteVersion) : Prop :=
  item.deleted = false → item.bytes.length ≤ maxContentBytes

theorem prepareRemoteVersion_eq {item : RemoteVersion} (hsize : WithinLimit item)
    (pin : Option RemotePin) (held : Option Version) :
    prepareRemoteVersion host item pin held =
      .ok (if losesTo host held item then none else some (prepared host item pin held)) := by
  have hlimit : (!item.deleted && decide (maxContentBytes < item.bytes.length)) = false := by
    cases hdeleted : item.deleted with
    | true => rfl
    | false => simpa using hsize hdeleted
  unfold prepareRemoteVersion losesTo
  rw [hlimit, keepsLocal_congr host item pin none rfl]
  cases (organizationText item).any fun text =>
      validWire host item.itemId item.contentType text item.deleted with
  | false => rfl
  | true => cases keepsLocal host item none held <;> rfl

theorem decideRow_eq {incoming : Incoming} (hsize : WithinLimit incoming.1)
    (held : List Version) :
    decideRow host held incoming = .ok (decisionOf host held incoming) := by
  unfold decideRow decisionOf decisionAgainst
  simp only [prepareRemoteVersion_eq host hsize]
  cases payloadIsRefused host incoming.1 with
  | true => rfl
  | false =>
    cases losesTo host (lookup Version.id held incoming.1.itemId) incoming.1 <;> rfl

/-- What wins against the stored version replaces no newer record. -/
theorem newest_prepared {store : Store} (hwf : WellFormed store) {item : RemoteVersion}
    (hloses : losesTo host (store.versionSummary item.itemId) item = false)
    (pin : Option RemotePin) (held : Option Version) :
    Newest store (prepared host item pin held).toIncomingItem := by
  intro row hrow hid
  have hid' : row.id = item.itemId := hid
  have hrec : isRecordId item.itemId = true := hid' ▸ hwf.recordIds row hrow
  have hsummary : store.versionSummary item.itemId = some row.toVersion := by
    rw [versionSummary_record hwf hrec, ← hid', lookup_of_mem hwf.records hrow]
    rfl
  rw [hsummary] at hloses
  have hkeeps : keepsLocal host item none (some row.toVersion) = false := by
    unfold losesTo at hloses
    simp only [Bool.or_eq_false_iff] at hloses
    exact hloses.2
  unfold keepsLocal at hkeeps
  rw [Option.any_some, decide_eq_false_iff_not, mergeDecision_keepLocal_iff, not_le,
    versionKey_lt_iff] at hkeeps
  rcases hkeeps with hlt | ⟨heq, -⟩
  · exact hlt.le
  · exact heq.le

def cloudPage (page : List RemoteVersion) : List Incoming :=
  page.map fun item => (item, none)

/-- A page with its decisions, each against the versions foreseen by then. -/
def threaded (held : List Version) : List RemoteVersion → List (Incoming × Decision)
  | [] => []
  | item :: rest =>
    let decision := decisionOf host held (item, none)
    ((item, none), decision) :: threaded (decision.thread host held) rest

theorem decisions_threaded (page : List RemoteVersion) (held : List Version)
    (hsize : ∀ item ∈ page, WithinLimit item) :
    ∃ ds, decisions host held (cloudPage page) = .ok ds ∧
      (cloudPage page).zip ds = threaded host held page := by
  induction page generalizing held with
  | nil => exact ⟨[], rfl, rfl⟩
  | cons item rest ih =>
    obtain ⟨ds, hds, hzip⟩ := ih ((decisionOf host held (item, none)).thread host held)
      fun x hx => hsize x (List.mem_cons_of_mem _ hx)
    refine ⟨decisionOf host held (item, none) :: ds, ?_, ?_⟩
    · have hrow : decideRow host held (item, none) = .ok (decisionOf host held (item, none)) :=
        decideRow_eq host (hsize item List.mem_cons_self) held
      change decisions host held ((item, none) :: cloudPage rest) = _
      unfold decisions
      rw [hrow]
      simp only [bind, Except.bind, hds]
      rfl
    · change ((item, none) :: cloudPage rest).zip _ = _
      rw [List.zip_cons_cons, hzip]
      rfl

variable {host}
variable {store : Store} {item : RemoteVersion}

/-- The same row by itself: a refused or losing version changes nothing. -/
theorem applyOne_loses (hsize : WithinLimit item)
    (h : (payloadIsRefused host item ||
      losesTo host (store.versionSummary item.itemId) item) = true) :
    applyOne host store (item, none) = .ok (store, ⟨false, false⟩) := by
  unfold applyOne applyRemoteVersion applyRemoteVersionWithPinState
  simp only [prepareRemoteVersion_eq host hsize]
  cases hrefused : payloadIsRefused host item with
  | true => rfl
  | false =>
    rw [hrefused, Bool.false_or] at h
    simp [h, bind, Except.bind, pure, Except.pure]

theorem applyOne_wins (hsize : WithinLimit item) (hrefused : payloadIsRefused host item = false)
    (hloses : losesTo host (store.versionSummary item.itemId) item = false) :
    applyOne host store (item, none) =
      .ok ((store.upsert host (prepared host item none
          (store.versionSummary item.itemId)).toIncomingItem).1,
        ⟨(store.upsert host (prepared host item none
          (store.versionSummary item.itemId)).toIncomingItem).2, false⟩) := by
  unfold applyOne applyRemoteVersion applyRemoteVersionWithPinState
  simp [prepareRemoteVersion_eq host hsize, hrefused, hloses, bind, Except.bind, pure, Except.pure]

variable (host)

theorem pinPass_none (store : Store) {entries : List Entry}
    (h : ∀ entry ∈ entries, entry.incoming.2 = none) :
    pinPass store entries = (store, entries.map fun entry => (entry, entry.flags)) := by
  induction entries with
  | nil => rfl
  | cons entry rest ih =>
    have hentry := h entry List.mem_cons_self
    have hrest := ih fun x hx => h x (List.mem_cons_of_mem _ hx)
    unfold pinPass
    rw [hentry, hrest]
    split
    · rename_i heq
      simp at heq
    · rfl

theorem threaded_incoming (held : List Version) (page : List RemoteVersion) :
    (threaded host held page).map Prod.fst = cloudPage page := by
  induction page generalizing held with
  | nil => rfl
  | cons item rest ih =>
    unfold threaded
    rw [List.map_cons, ih]
    rfl

end CopyPaste.Merge.Decide
