import CopyPaste.Merge.Independence
import CopyPaste.Merge.Decide
import CopyPaste.Merge.DeletePhases
import Mathlib

/-!
A live version and a tombstone of the same stamp that carries no hash of its own, through
the cloud's page merge. Rows are decided by the phase they are planned against and written
by the phase the store has reached, so that pages follow the phases of the two versions.
-/

namespace CopyPaste.Merge.CloudDelete

open Lib.Rows Comparator Payload Storage Prepare Batch Effects Pages Decide DeletePhases
open Upload.Scanning

variable (host : Host)

/-- A live version and a tombstone of it without a hash, both of a stored shape. -/
structure Pair (item tombstone : RemoteVersion) : Prop where
  sameId : tombstone.itemId = item.itemId
  sameStamp : tombstone.createdAt = item.createdAt
  live : item.deleted = false
  deleted : tombstone.deleted = true
  hashless : tombstone.contentHash = none
  stamp : item.createdAt < 2 ^ 63
  size : item.bytes.length ≤ maxContentBytes
  taken : ∀ version ∈ [item, tombstone], payloadIsRefused host version = false ∧
    ((organizationText version).any fun text =>
      validWire host version.itemId version.contentType text version.deleted) = true

/-- The hash of the row an id has, empty when it has none. -/
def heldHash (store : Store) (id : String) : String :=
  ((store.versionSummary id).map Version.contentHash).getD ""

/-- The row the live version is written from, against what the store holds. -/
def itemWrite (store : Store) (item : RemoteVersion) : IncomingItem :=
  (prepared host item none (store.versionSummary item.itemId)).toIncomingItem

/-- Whether the store holds the live version itself. -/
def HoldsItem (store : Store) (item : RemoteVersion) : Prop :=
  rank host store item.itemId =
    (versionKey item.createdAt (host.sha256 item.bytes) false
      (originOr item.originDeviceId host.here) : VersionKey)

def meeting (store : Store) (item : RemoteVersion) : Meeting where
  heldHash := heldHash store item.itemId
  itemHash := host.sha256 item.bytes
  admitted := decide (Fits host store (itemWrite host store item))
  restamped := decide (stampOf host store (itemWrite host store item) ≠ item.createdAt)

section Rows

variable {host} {start : Store} {item tombstone : RemoteVersion}

theorem Pair.isRecordId (h : Pair host item tombstone) : isRecordId item.itemId = false ∧
    item.contentType ≠ recordContentType ∧ tombstone.contentType ≠ recordContentType := by
  have hgone := (h.taken tombstone (by simp)).2
  have hitem := (h.taken item (by simp)).2
  obtain ⟨text, -, hwire⟩ := (Option.any_eq_true _ _).1 hgone
  obtain ⟨other, -, hother⟩ := (Option.any_eq_true _ _).1 hitem
  have hkind : tombstone.contentType ≠ recordContentType := by
    intro hkind
    rw [hkind] at hwire
    have := (isRecordId_of_validWire host hwire).2
    rw [h.deleted] at this
    cases this
  have hid : Payload.isRecordId item.itemId = false := by
    unfold validWire at hwire
    rw [if_pos hkind, h.sameId] at hwire
    simpa using hwire
  refine ⟨hid, fun hrecord => ?_, hkind⟩
  rw [hrecord] at hother
  have := (isRecordId_of_validWire host hother).1
  rw [hid] at this
  cases this

variable {version : RemoteVersion} {held : Option Version} {phase next stored : Phase}
  {store : Store}

theorem Pair.withinLimit (h : Pair host item tombstone) (hversion : version ∈ [item, tombstone]) :
    WithinLimit version := by
  rcases List.mem_pair.1 hversion with rfl | rfl
  · exact fun _ => h.size
  · intro hlive
    rw [h.deleted] at hlive
    cases hlive

/-- What a version of an id amounts to in a phase. -/
def Held (host : Host) (start : Store) (item tombstone : RemoteVersion) (version : Option Version) :
    Phase → Prop
  | .before => version = start.versionSummary item.itemId ∧
      ∀ held ∈ version, held.createdAt < item.createdAt
  | .alive => ∃ held, version = some held ∧ Version.key host held =
      versionKey item.createdAt (host.sha256 item.bytes) false
        (originOr item.originDeviceId host.here)
  | .gone hash =>
    (hash = heldHash start item.itemId ∨ hash = host.sha256 item.bytes) ∧
      ∃ held, version = some held ∧ Version.key host held =
        versionKey item.createdAt hash true (originOr tombstone.originDeviceId host.here)
  | .risen => ∃ held, version = some held ∧ item.createdAt < held.createdAt ∧
      held.deleted = false

theorem not_originOr_lt (origin here : String) : ¬originOr origin here < origin := by
  unfold originOr
  split
  · rename_i h
    rw [h, String.lt_iff_toList_lt]
    exact List.not_lt_nil _
  · exact lt_irrefl _

theorem losesTo_none (h : Pair host item tombstone) (hversion : version ∈ [item, tombstone]) :
    losesTo host none version = false := by
  unfold losesTo keepsLocal
  rw [(h.taken version hversion).2]
  rfl

theorem losesTo_some (h : Pair host item tombstone) (hversion : version ∈ [item, tombstone])
    (mine : Version) :
    losesTo host (some mine) version = true ↔
      ¬Version.key host mine < versionKey version.createdAt
        (remoteContentHash host version (some mine)) version.deleted version.originDeviceId := by
  unfold losesTo keepsLocal
  rw [(h.taken version hversion).2, Bool.not_true, Bool.false_or, Option.any_some,
    decide_eq_true_eq, mergeDecision_keepLocal_iff, not_lt]
  rfl

theorem remoteContentHash_item (h : Pair host item tombstone) (held : Option Version) :
    remoteContentHash host item held = host.sha256 item.bytes := by
  unfold remoteContentHash
  rw [if_neg (by simp [h.live])]

theorem remoteContentHash_tombstone (h : Pair host item tombstone) (held : Option Version) :
    remoteContentHash host tombstone held = (held.map Version.contentHash).getD "" := by
  unfold remoteContentHash
  rw [if_pos h.deleted, h.hashless]

/-- The live version loses to itself, to a tombstone under a hash not below its own, and
to a later stamp. -/
theorem item_loses_iff (h : Pair host item tombstone)
    (hheld : Held host start item tombstone held phase) :
    losesTo host held item = true ↔ (meeting host start item).plan phase false = none := by
  have hmem : item ∈ [item, tombstone] := by simp
  cases held with
  | none =>
    rw [losesTo_none h hmem]
    cases phase with
    | before => simp [Meeting.plan]
    | _ => simp [Held] at hheld
  | some mine =>
    rw [losesTo_some h hmem, remoteContentHash_item h, h.live]
    cases phase with
    | before =>
      rw [Version.key, versionKey_lt_iff]
      simp [Meeting.plan, hheld.2 mine rfl]
    | alive =>
      obtain ⟨_, ⟨⟩, hkey⟩ := hheld
      rw [hkey, versionKey_lt_iff]
      simpa [Meeting.plan] using not_originOr_lt _ _
    | gone hash =>
      obtain ⟨-, _, ⟨⟩, hkey⟩ := hheld
      rw [hkey, versionKey_lt_iff]
      by_cases hlt : hash < (meeting host start item).itemHash
      · rw [Meeting.plan, if_pos hlt]
        exact iff_of_false (not_not.2 (Or.inr ⟨rfl, Or.inl hlt⟩)) (by simp)
      · rw [Meeting.plan, if_neg hlt]
        refine iff_of_true (fun hbelow => ?_) rfl
        rcases hbelow with hstamp | ⟨-, hhash | ⟨-, hdeleted⟩⟩
        · exact lt_irrefl _ hstamp
        · exact hlt hhash
        · rcases hdeleted with hdeleted | ⟨hdeleted, -⟩
          · exact absurd hdeleted (by decide)
          · cases hdeleted
    | risen =>
      obtain ⟨_, ⟨⟩, hlater, -⟩ := hheld
      rw [Version.key, versionKey_lt_iff]
      simp [Meeting.plan, hlater.not_gt, hlater.ne']

/-- The tombstone loses to itself, under whatever hash, and to a later stamp. -/
theorem tombstone_loses_iff (h : Pair host item tombstone)
    (hheld : Held host start item tombstone held phase) :
    losesTo host held tombstone = true ↔ (meeting host start item).plan phase true = none := by
  have hmem : tombstone ∈ [item, tombstone] := by simp
  cases held with
  | none =>
    rw [losesTo_none h hmem]
    cases phase with
    | before => simp [Meeting.plan]
    | _ => simp [Held] at hheld
  | some mine =>
    rw [losesTo_some h hmem, remoteContentHash_tombstone h, h.deleted, h.sameStamp,
      Option.map_some, Option.getD_some]
    cases phase with
    | before =>
      rw [Version.key, versionKey_lt_iff]
      simp [Meeting.plan, hheld.2 mine rfl]
    | alive =>
      obtain ⟨_, ⟨⟩, hkey⟩ := hheld
      rw [(versionKey_inj.1 hkey).2.1, hkey, versionKey_lt_iff]
      simp [Meeting.plan]
    | gone hash =>
      obtain ⟨-, _, ⟨⟩, hkey⟩ := hheld
      rw [(versionKey_inj.1 hkey).2.1, hkey, versionKey_lt_iff]
      simpa [Meeting.plan] using not_originOr_lt _ _
    | risen =>
      obtain ⟨_, ⟨⟩, hlater, -⟩ := hheld
      rw [Version.key, versionKey_lt_iff]
      simp [Meeting.plan, hlater.not_gt, hlater.ne']

theorem loses_iff (h : Pair host item tombstone) (hversion : version ∈ [item, tombstone])
    (hheld : Held host start item tombstone held phase) :
    losesTo host held version = true ↔
      (meeting host start item).plan phase version.deleted = none := by
  rcases List.mem_pair.1 hversion with rfl | rfl
  · rw [h.live]
    exact item_loses_iff h hheld
  · rw [h.deleted]
    exact tombstone_loses_iff h hheld

variable (host) in
theorem key_asVersion (version : RemoteVersion) (held : Option Version) :
    Version.key host ((prepared host version none held).asVersion host) =
      versionKey version.createdAt (remoteContentHash host version held) version.deleted
        (originOr version.originDeviceId host.here) := by
  have horigin : originOr (originOr version.originDeviceId host.here) host.here =
      originOr version.originDeviceId host.here := by
    unfold originOr
    split <;> simp
  rw [Version.key, Prepared.asVersion]
  exact congrArg _ horigin

/-- A winning row is planned as the phase it leads to. -/
theorem held_prepared (h : Pair host item tombstone) (hversion : version ∈ [item, tombstone])
    (hheld : Held host start item tombstone held phase)
    (hplan : (meeting host start item).plan phase version.deleted = some next) :
    Held host start item tombstone (some ((prepared host version none held).asVersion host))
      next := by
  have hkey := key_asVersion host version held
  rcases List.mem_pair.1 hversion with rfl | rfl
  · rw [remoteContentHash_item h, h.live] at hkey
    rw [h.live] at hplan
    obtain rfl := Meeting.plan_item _ hplan
    exact ⟨_, rfl, hkey⟩
  · rw [remoteContentHash_tombstone h, h.deleted, h.sameStamp] at hkey
    rw [h.deleted] at hplan
    cases phase with
    | before =>
      cases hplan
      rw [hheld.1] at hkey ⊢
      exact ⟨Or.inl rfl, _, rfl, hkey⟩
    | alive =>
      cases hplan
      obtain ⟨mine, rfl, hmine⟩ := hheld
      rw [Option.map_some, Option.getD_some, (versionKey_inj.1 hmine).2.1] at hkey
      exact ⟨Or.inr rfl, _, rfl, hkey⟩
    | gone | risen => cases hplan

/-- A store that has reached a phase: nothing else has changed, and before the first
write it is the store itself. -/
structure Reached (host : Host) (start : Store) (item tombstone : RemoteVersion) (store : Store)
    (phase : Phase) : Prop where
  wellFormed : WellFormed store
  others : ∀ row : ItemRow, row.id ≠ item.itemId → (row ∈ store.items ↔ row ∈ start.items)
  same : phase = .before → store = start
  held : Held host start item tombstone (store.versionSummary item.itemId) phase

theorem others_written {incoming : IncomingItem} (row : ItemRow) (hrow : row.id ≠ incoming.id) :
    row ∈ (written host store incoming).items ↔ row ∈ store.items := by
  simp only [written, mem_put, projected_id, rowOf_id]
  constructor
  · rintro (⟨hmem, -⟩ | rfl)
    · exact hmem
    · exact absurd (by rw [projected_id, rowOf_id]) hrow
  · exact fun hmem => Or.inl ⟨hmem, hrow⟩

variable (host) in
theorem held_written (hwf : WellFormed store) (incoming : IncomingItem)
    (hkind : incoming.contentType ≠ recordContentType) (hid : isRecordId incoming.id = false) :
    ∃ version, (written host store incoming).versionSummary incoming.id = some version ∧
      version.createdAt = stampOf host store incoming ∧ version.deleted = incoming.deleted ∧
      Version.key host version = versionKey (stampOf host store incoming) incoming.contentHash
        incoming.deleted (originOr incoming.originDeviceId host.here) := by
  have hrank := rank_written host hwf hkind hid incoming.id
  rw [if_pos rfl, rank] at hrank
  cases hsummary : (written host store incoming).versionSummary incoming.id with
  | none => simp [hsummary] at hrank
  | some version =>
    rw [hsummary] at hrank
    have hkey := WithBot.coe_injective hrank
    have hparts := versionKey_inj.1 hkey
    exact ⟨version, rfl, hparts.1, hparts.2.2.1, hkey⟩

theorem upsert_tombstone (h : Pair host item tombstone) (store : Store) (held : Option Version) :
    store.upsert host (prepared host tombstone none held).toIncomingItem =
        (written host store (prepared host tombstone none held).toIncomingItem, true) ∧
      stampOf host store (prepared host tombstone none held).toIncomingItem = item.createdAt := by
  obtain ⟨hid, -, hkind⟩ := h.isRecordId
  rw [← h.sameId] at hid
  have hdeleted : (prepared host tombstone none held).deleted = true := h.deleted
  constructor
  · have hfits : Fits host store (prepared host tombstone none held).toIncomingItem := by
      intro other _ _
      have hkey : (store.rowOf host (prepared host tombstone none held).toIncomingItem).1.dedupKey =
          none := by
        unfold ItemRow.dedupKey Storage.dedupKey
        rw [if_pos]
        simp only [Store.rowOf, hdeleted, Bool.true_or]
      unfold collides
      rw [hkey]
      rfl
    rw [upsert_item host hkind hid, if_pos hfits]
  · have hstored : (prepared host tombstone none held).contentType ≠ recordContentType := hkind
    rw [stampOf, if_neg hstored, ← h.sameStamp]
    simp only [Store.rowOf, hdeleted, if_true]
    rfl

theorem reached_tombstone (h : Pair host item tombstone)
    (hstored : Reached host start item tombstone store stored)
    (hheld : Held host start item tombstone held phase)
    (hplan : (meeting host start item).plan phase true = some next) :
    Reached host start item tombstone
      (store.upsert host (prepared host tombstone none held).toIncomingItem).1 next := by
  obtain ⟨hid, -, hkind⟩ := h.isRecordId
  rw [← h.sameId] at hid
  obtain ⟨hupsert, hstamp⟩ := upsert_tombstone h store held
  have hmem : tombstone ∈ [item, tombstone] := by simp
  have hplanned : (meeting host start item).plan phase tombstone.deleted = some next := by
    rw [h.deleted]
    exact hplan
  have hnext := held_prepared h hmem hheld hplanned
  obtain ⟨version, hsummary, -, -, hkey⟩ :=
    held_written host hstored.wellFormed (prepared host tombstone none held).toIncomingItem hkind
      hid
  have hsame : Version.key host version =
      Version.key host ((prepared host tombstone none held).asVersion host) := by
    rw [hkey, key_asVersion host, hstamp, h.sameStamp]
    rfl
  obtain ⟨hash, rfl⟩ := Meeting.plan_tombstone _ hplan
  obtain ⟨hhash, planned, hplanned, hplannedKey⟩ := hnext
  cases hplanned
  rw [hupsert]
  refine ⟨wellFormed_written host hstored.wellFormed hid, fun row hrow => ?_, nofun, ?_⟩
  · rw [← hstored.others row hrow]
    refine others_written row ?_
    change row.id ≠ tombstone.itemId
    rw [h.sameId]
    exact hrow
  · refine ⟨hhash, version, ?_, hsame.trans hplannedKey⟩
    rw [← h.sameId]
    exact hsummary

/-- The place of the live version in the dedup index. -/
def itemIndexKey (host : Host) (item : RemoteVersion) (stamp : Int) :
    Option (String × String × Int × String) :=
  Storage.dedupKey item.itemId (host.sha256 item.bytes) item.contentType stamp false
    item.originDeviceId

theorem stampOf_eq (h : Pair host item tombstone) (store : Store) (held : Option Version) :
    stampOf host store (prepared host item none held).toIncomingItem =
      (store.rowOf host (prepared host item none held).toIncomingItem).1.createdAt :=
  if_neg h.isRecordId.2.1

theorem fits_item_iff (h : Pair host item tombstone) (store : Store) (held : Option Version)
    {stamp : Int} (hstamp : stampOf host store (prepared host item none held).toIncomingItem = stamp) :
    Fits host store (prepared host item none held).toIncomingItem ↔
      ∀ other ∈ store.items, other.id ≠ item.itemId →
        ((itemIndexKey host item stamp).isSome && itemIndexKey host item stamp == other.dedupKey) =
          false := by
  rw [stampOf_eq h] at hstamp
  have hkey : (store.rowOf host (prepared host item none held).toIncomingItem).1.dedupKey =
      itemIndexKey host item stamp := by
    unfold ItemRow.dedupKey itemIndexKey
    rw [hstamp]
    simp only [Store.rowOf, prepared, remoteContentHash_item h, h.live]
  unfold Fits collides
  rw [hkey]
  rfl

/-- Without a row of its hash the live version keeps its stamp. -/
theorem stampOf_unheld (h : Pair host item tombstone) (store : Store) (held : Option Version)
    (hrows : ∀ row ∈ store.items, row.id = item.itemId →
      row.contentHash ≠ host.sha256 item.bytes) :
    stampOf host store (prepared host item none held).toIncomingItem = item.createdAt := by
  have hlive : (prepared host item none held).deleted = false := h.live
  have hnone : (store.items.find? fun row =>
      row.id = (prepared host item none held).id ∧
        row.contentHash = (prepared host item none held).contentHash) = none := by
    rw [List.find?_eq_none]
    intro row hrow hsame
    rw [decide_eq_true_eq] at hsame
    refine hrows row hrow hsame.1 ?_
    rw [hsame.2]
    exact remoteContentHash_item h held
  have hkeep : ∀ choice : Option SecretOverride, SecretOverride.max choice none = choice := by
    intro choice
    cases choice <;> rfl
  rw [stampOf_eq h]
  simp only [Store.rowOf, hlive, Bool.false_eq_true, if_false, mergeHeldPrivacy, hnone,
    Option.bind_none, PayloadMetadata.mergePrivacy, readMetadata, Option.map_none,
    Option.getD_none, hkeep, if_true]
  rfl

theorem stampOf_cases (h : Pair host item tombstone) (store : Store) (held : Option Version) :
    stampOf host store (prepared host item none held).toIncomingItem = item.createdAt ∨
      item.createdAt < stampOf host store (prepared host item none held).toIncomingItem := by
  have hlive : (prepared host item none held).deleted = false := h.live
  rw [stampOf_eq h]
  simp only [Store.rowOf, hlive, Bool.false_eq_true, if_false, mergeHeldPrivacy]
  split
  · exact Or.inl rfl
  · have hbound := h.stamp
    change saturatingSucc item.createdAt = _ ∨ item.createdAt < saturatingSucc item.createdAt
    unfold saturatingSucc
    omega

theorem contentHash_row (h : Pair host item tombstone) (hwf : WellFormed store) {row : ItemRow}
    (hrow : row ∈ store.items) (hid : row.id = item.itemId) :
    row.contentHash = heldHash store item.itemId := by
  have hlookup := lookup_of_mem hwf.items hrow
  rw [heldHash, versionSummary_item hwf h.isRecordId.1, ← hid, hlookup]
  rfl

/-- A choice restamps the live version only over a row of the same hash. -/
theorem stampOf_other_hash (h : Pair host item tombstone) (hwf : WellFormed store)
    (hhash : heldHash store item.itemId ≠ host.sha256 item.bytes) (held : Option Version) :
    stampOf host store (prepared host item none held).toIncomingItem = item.createdAt := by
  refine stampOf_unheld h store held fun row hrow hid => ?_
  rw [contentHash_row h hwf hrow hid]
  exact hhash

theorem restamped_hash (h : Pair host item tombstone) (hwf : WellFormed start)
    (hrestamped : (meeting host start item).restamped = true) :
    (meeting host start item).heldHash = (meeting host start item).itemHash := by
  by_contra hne
  have hstamp := stampOf_other_hash h hwf hne (start.versionSummary item.itemId)
  simp [meeting, itemWrite, hstamp] at hrestamped

/-- Over another hash the index admits the live version as it did at first. -/
theorem fits_outranked (h : Pair host item tombstone) (hwf : WellFormed start)
    (hstored : Reached host start item tombstone store stored)
    (hheld : heldHash store item.itemId ≠ host.sha256 item.bytes)
    (hstart : heldHash start item.itemId ≠ host.sha256 item.bytes) (held : Option Version) :
    Fits host store (prepared host item none held).toIncomingItem ↔
      Fits host start (itemWrite host start item) := by
  rw [itemWrite, fits_item_iff h store held (stampOf_other_hash h hstored.wellFormed hheld held),
    fits_item_iff h start _ (stampOf_other_hash h hwf hstart _)]
  constructor
  · intro hfits other hother hne
    exact hfits other ((hstored.others other hne).2 hother) hne
  · intro hfits other hother hne
    exact hfits other ((hstored.others other hne).1 hother) hne

theorem reached_written (h : Pair host item tombstone)
    (hstored : Reached host start item tombstone store stored) (held : Option Version) :
    ∃ version, (written host store (prepared host item none held).toIncomingItem).versionSummary
        item.itemId = some version ∧
      version.createdAt = stampOf host store (prepared host item none held).toIncomingItem ∧
      version.deleted = false ∧
      Version.key host version =
        versionKey (stampOf host store (prepared host item none held).toIncomingItem)
          (host.sha256 item.bytes) false (originOr item.originDeviceId host.here) ∧
      ∀ phase, phase ≠ .before → Held host start item tombstone (some version) phase →
        Reached host start item tombstone
          (written host store (prepared host item none held).toIncomingItem) phase := by
  obtain ⟨hid, hkind, -⟩ := h.isRecordId
  obtain ⟨version, hsummary, hstamp, hdeleted, hkey⟩ :=
    held_written host hstored.wellFormed (prepared host item none held).toIncomingItem hkind hid
  have hlive : (prepared host item none held).deleted = false := h.live
  have hhash : (prepared host item none held).contentHash = host.sha256 item.bytes :=
    remoteContentHash_item h held
  rw [hlive] at hdeleted hkey
  rw [hhash] at hkey
  refine ⟨version, hsummary, hstamp, hdeleted, hkey, fun phase hphase hphaseHeld => ?_⟩
  refine ⟨wellFormed_written host hstored.wellFormed hid, fun row hrow => ?_,
    fun heq => absurd heq hphase, ?_⟩
  · rw [← hstored.others row hrow]
    exact others_written row hrow
  · have hsummary' : (written host store
        (prepared host item none held).toIncomingItem).versionSummary item.itemId =
          some version := hsummary
    rw [hsummary']
    exact hphaseHeld

/-- The live version is written as the meeting says. -/
theorem reached_item (h : Pair host item tombstone) (hwf : WellFormed start)
    (hstored : Reached host start item tombstone store stored)
    (hheld : Held host start item tombstone held phase) (hsync : phase = stored ∨ phase = .alive)
    (hplan : (meeting host start item).plan phase false = some next) :
    Reached host start item tombstone
        (store.upsert host (prepared host item none held).toIncomingItem).1
        ((meeting host start item).write stored next false) ∧
      (store.upsert host (prepared host item none held).toIncomingItem).2 =
        (meeting host start item).admitted := by
  obtain ⟨hid, hkind, -⟩ := h.isRecordId
  have hupsert : store.upsert host (prepared host item none held).toIncomingItem =
      if Fits host store (prepared host item none held).toIncomingItem then
        (written host store (prepared host item none held).toIncomingItem, true)
      else (store, false) := upsert_item host hkind hid
  have hsame : phase = stored := by
    rcases hsync with hsync | rfl
    · exact hsync
    · cases hplan
  subst hsame
  obtain rfl := Meeting.plan_item _ hplan
  obtain ⟨version, -, hstamp, hlive, hkey, hreached⟩ := reached_written h hstored held
  cases phase with
  | alive | risen => cases hplan
  | before =>
    obtain rfl := hstored.same rfl
    obtain rfl : held = store.versionSummary item.itemId := hheld.1
    by_cases hfits : Fits host store
        (prepared host item none (store.versionSummary item.itemId)).toIncomingItem
    · have hadmitted : (meeting host store item).admitted = true := decide_eq_true hfits
      rw [hupsert, if_pos hfits, Meeting.write, if_neg (by simp), hadmitted]
      refine ⟨?_, rfl⟩
      dsimp only
      rcases stampOf_cases h store (store.versionSummary item.itemId) with hkept | hlater
      · have hrestamped : (meeting host store item).restamped = false := by
          simp [meeting, itemWrite, hkept]
        rw [hrestamped, if_neg (by simp), if_neg (by simp)]
        rw [hkept] at hkey
        exact hreached .alive (by simp) ⟨version, rfl, hkey⟩
      · have hrestamped : (meeting host store item).restamped = true := by
          simp [meeting, itemWrite, hlater.ne']
        rw [hrestamped, if_neg (by simp), if_pos (by simp)]
        rw [← hstamp] at hlater
        exact hreached .risen (by simp) ⟨version, rfl, hlater, hlive⟩
    · have hadmitted : (meeting host store item).admitted = false := decide_eq_false hfits
      rw [hupsert, if_neg hfits, Meeting.write, if_neg (by simp), hadmitted]
      exact ⟨hstored, rfl⟩
  | gone hash =>
    have hlt : hash < host.sha256 item.bytes := by
      rw [Meeting.plan] at hplan
      split at hplan
      case isTrue hlt => exact hlt
      case isFalse => cases hplan
    obtain ⟨hhash, mine, hmine, hmineKey⟩ := hstored.held
    have hstart : heldHash start item.itemId ≠ host.sha256 item.bytes := by
      rcases hhash with rfl | rfl
      · exact hlt.ne
      · exact absurd hlt (lt_irrefl _)
    have hstore : heldHash store item.itemId ≠ host.sha256 item.bytes := by
      rw [heldHash, hmine, Option.map_some, Option.getD_some, (versionKey_inj.1 hmineKey).2.1]
      exact hlt.ne
    have hfits := fits_outranked h hwf hstored hstore hstart held
    rw [stampOf_other_hash h hstored.wellFormed hstore] at hkey
    by_cases hadmits : Fits host start (itemWrite host start item)
    · have hadmitted : (meeting host start item).admitted = true := decide_eq_true hadmits
      rw [hupsert, if_pos (hfits.2 hadmits), Meeting.write, if_neg (by simp), hadmitted,
        if_neg (by simp), if_neg (by simp)]
      exact ⟨hreached .alive (by simp) ⟨version, rfl, hkey⟩, rfl⟩
    · have hadmitted : (meeting host start item).admitted = false := decide_eq_false hadmits
      rw [hupsert, if_neg fun hf => hadmits (hfits.1 hf), Meeting.write, if_neg (by simp),
        hadmitted]
      exact ⟨hstored, rfl⟩

theorem reached_row (h : Pair host item tombstone) (hwf : WellFormed start)
    (hversion : version ∈ [item, tombstone])
    (hstored : Reached host start item tombstone store stored)
    (hheld : Held host start item tombstone held phase) (hsync : phase = stored ∨ phase = .alive)
    (hplan : (meeting host start item).plan phase version.deleted = some next) :
    Reached host start item tombstone
        (store.upsert host (prepared host version none held).toIncomingItem).1
        ((meeting host start item).write stored next version.deleted) ∧
      ((meeting host start item).admitted = true →
        (store.upsert host (prepared host version none held).toIncomingItem).2 = true) := by
  rcases List.mem_pair.1 hversion with rfl | rfl
  · rw [h.live] at hplan ⊢
    obtain ⟨hreached, hstoredFlag⟩ := reached_item h hwf hstored hheld hsync hplan
    exact ⟨hreached, fun hadmitted => hstoredFlag.trans hadmitted⟩
  · rw [h.deleted] at hplan ⊢
    refine ⟨reached_tombstone h hstored hheld hplan, fun _ => ?_⟩
    rw [(upsert_tombstone h store held).1]

theorem decisionOf_row (h : Pair host item tombstone) (hversion : version ∈ [item, tombstone])
    (held : List Version)
    (hheld : Held host start item tombstone (lookup Version.id held item.itemId) phase) :
    decisionOf host held (version, none) =
      match (meeting host start item).plan phase version.deleted with
      | none => .lost false
      | some _ => .won (prepared host version none (lookup Version.id held item.itemId)) := by
  have hid : version.itemId = item.itemId := by
    rcases List.mem_pair.1 hversion with rfl | rfl
    · rfl
    · exact h.sameId
  have hloses := loses_iff h hversion hheld
  unfold decisionOf decisionAgainst
  rw [hid]
  dsimp only
  rw [(h.taken version hversion).1]
  cases hplan : (meeting host start item).plan phase version.deleted with
  | none =>
    rw [hloses.2 hplan]
    rfl
  | some next =>
    have hwins : losesTo host (lookup Version.id held item.itemId) version = false := by
      rw [← Bool.not_eq_true, hloses, hplan]
      nofun
    rw [hwins]
    rfl

/-- The writes of a page follow its rows through the phases. -/
theorem writeAll_reached (h : Pair host item tombstone) (hwf : WellFormed start)
    (page : List RemoteVersion) (hpage : ∀ version ∈ page, version ∈ [item, tombstone])
    (held : List Version) (store : Store) (phases : Phase × Phase)
    (hsync : phases.1 = phases.2 ∨ phases.1 = .alive)
    (hheld : Held host start item tombstone (lookup Version.id held item.itemId) phases.1)
    (hstored : Reached host start item tombstone store phases.2) :
    Reached host start item tombstone (writeAll host store (threaded host held page)).1
        ((page.map RemoteVersion.deleted).foldl (meeting host start item).row phases).2 ∧
      ((meeting host start item).admitted = true →
        ∀ entry ∈ (writeAll host store (threaded host held page)).2,
          entry.outcome ≠ some false) := by
  induction page generalizing held store phases with
  | nil => exact ⟨hstored, fun _ entry hentry => by cases hentry⟩
  | cons version rest ih =>
    have hversion := hpage version List.mem_cons_self
    have hrest := fun other hother => hpage other (List.mem_cons_of_mem version hother)
    have hdecision := decisionOf_row h hversion held hheld
    have hstep := (meeting host start item).row_in_step hsync version.deleted
    rw [List.map_cons, List.foldl_cons, threaded]
    obtain ⟨planned, stored⟩ := phases
    dsimp only at hheld hstored hsync hdecision
    cases hplan : (meeting host start item).plan planned version.deleted with
    | none =>
      rw [hplan] at hdecision
      have hrow : (meeting host start item).row (planned, stored) version.deleted =
          (planned, stored) := by rw [Meeting.row, hplan]
      obtain ⟨hreached, hflags⟩ := ih hrest held store (planned, stored) hsync hheld hstored
      simp only [hdecision, Decision.thread, writeAll, hrow]
      refine ⟨hreached, fun hadmitted entry hentry => ?_⟩
      rcases List.mem_cons.1 hentry with rfl | hentry
      · simp
      · exact hflags hadmitted entry hentry
    | some next =>
      rw [hplan] at hdecision
      have hrow : (meeting host start item).row (planned, stored) version.deleted =
          (next, (meeting host start item).write stored next version.deleted) := by
        rw [Meeting.row, hplan]
      rw [hrow] at hstep
      have hid : ((prepared host version none (lookup Version.id held item.itemId)).asVersion
          host).id = item.itemId := by
        rcases List.mem_pair.1 hversion with rfl | rfl
        · rfl
        · exact h.sameId
      have hnext : Held host start item tombstone (lookup Version.id (put Version.id held
          ((prepared host version none (lookup Version.id held item.itemId)).asVersion host))
            item.itemId) next := by
        rw [lookup_put, if_pos hid]
        exact held_prepared h hversion hheld hplan
      obtain ⟨hwritten, hadmits⟩ := reached_row h hwf hversion hstored hheld hsync hplan
      obtain ⟨hreached, hflags⟩ := ih hrest _ _ (next, _) hstep hnext hwritten
      simp only [hdecision, Decision.thread, writeAll, hrow]
      refine ⟨hreached, fun hadmitted entry hentry => ?_⟩
      rcases List.mem_cons.1 hentry with rfl | hentry
      · rw [hadmits hadmitted]
        simp
      · exact hflags hadmitted entry hentry

end Rows

section Pages

variable {host} {start : Store} {item tombstone : RemoteVersion}

/-- The rows that are applied again change nothing when none was refused, or when none
would change anything. -/
theorem redo_fixed (refused : List String) (store : Store) (rows : List (Entry × P2pApply))
    (h : refused = [] ∧ (∀ row ∈ rows, row.1.outcome ≠ some false) ∨
      ∀ row ∈ rows, ∃ flags, applyOne host store row.1.incoming = .ok (store, flags)) :
    ∃ applied, redo host refused store rows = .ok (store, applied) := by
  induction rows generalizing refused with
  | nil => exact ⟨[], rfl⟩
  | cons row rest ih =>
    obtain ⟨entry, flags⟩ := row
    have hrest : (if entry.outcome = some false then entry.incoming.1.itemId :: refused
        else refused) = [] ∧ (∀ row ∈ rest, row.1.outcome ≠ some false) ∨
        ∀ row ∈ rest, ∃ flags, applyOne host store row.1.incoming = .ok (store, flags) := by
      rcases h with ⟨rfl, hnone⟩ | hfixed
      · left
        refine ⟨if_neg (hnone _ List.mem_cons_self), fun row hrow => ?_⟩
        exact hnone row (List.mem_cons_of_mem _ hrow)
      · exact Or.inr fun row hrow => hfixed row (List.mem_cons_of_mem _ hrow)
    obtain ⟨applied, happlied⟩ := ih _ hrest
    unfold redo
    by_cases hskip : (flags.any || decide (entry.incoming.1.itemId ∉ refused)) = true
    · rw [if_pos hskip]
      exact ⟨flags :: applied, by simp only [bind, Except.bind, pure, Except.pure, happlied]⟩
    · rw [if_neg hskip]
      rcases h with ⟨rfl, -⟩ | hfixed
      · simp at hskip
      · obtain ⟨again, hagain⟩ := hfixed _ List.mem_cons_self
        exact ⟨again :: applied,
          by simp only [bind, Except.bind, pure, Except.pure, hagain, happlied]⟩

variable {store : Store} {stored : Phase}

/-- A live version the index refuses changes nothing, whenever it is applied. -/
theorem applyOne_item (h : Pair host item tombstone) (hwf : WellFormed start)
    (hstored : Reached host start item tombstone store stored)
    (hadmitted : (meeting host start item).admitted = false) :
    ∃ flags, applyOne host store (item, none) = .ok (store, flags) := by
  have hmem : item ∈ [item, tombstone] := by simp
  have hloses := item_loses_iff h hstored.held
  cases hplan : (meeting host start item).plan stored false with
  | none =>
    refine ⟨_, applyOne_loses (h.withinLimit hmem) ?_⟩
    rw [hloses.2 hplan, Bool.or_true]
  | some next =>
    have hwins : losesTo host (store.versionSummary item.itemId) item = false := by
      rw [← Bool.not_eq_true, hloses, hplan]
      nofun
    have hrefused := (reached_item h hwf hstored hstored.held (Or.inl rfl) hplan).2
    rw [hadmitted] at hrefused
    refine ⟨⟨false, false⟩, ?_⟩
    rw [applyOne_wins (h.withinLimit hmem) (h.taken item hmem).1 hwins, hrefused,
      upsert_false host hrefused]

theorem applyOne_tombstone (h : Pair host item tombstone)
    (hstored : Reached host start item tombstone store stored)
    (hplan : (meeting host start item).plan stored true = none) :
    ∃ flags, applyOne host store (tombstone, none) = .ok (store, flags) := by
  have hmem : tombstone ∈ [item, tombstone] := by simp
  refine ⟨_, applyOne_loses (h.withinLimit hmem) ?_⟩
  rw [h.sameId, (tombstone_loses_iff h hstored.held).2 hplan, Bool.or_true]

/-- A page of the two versions leads to the phase of its rows. -/
theorem reached_page (h : Pair host item tombstone) (hwf : WellFormed start)
    (hstored : Reached host start item tombstone store stored) (page : List RemoteVersion)
    (hpage : ∀ version ∈ page, version ∈ [item, tombstone]) :
    ∃ after flags, applyRemoteVersions host store page = .ok (after, flags) ∧
      Reached host start item tombstone after
        ((meeting host start item).page stored (page.map RemoteVersion.deleted)) := by
  have hids : (cloudPage page).map (fun incoming => incoming.1.itemId) =
      page.map RemoteVersion.itemId := by
    rw [cloudPage, List.map_map]
    rfl
  let snapshot := store.versionSummaries (page.map RemoteVersion.itemId)
  let written := writeAll host store (threaded host snapshot page)
  obtain ⟨ds, hds, hzip⟩ := decisions_threaded host page snapshot
    fun version hversion => h.withinLimit (hpage version hversion)
  have hheld : page ≠ [] →
      Held host start item tombstone (lookup Version.id snapshot item.itemId) stored := by
    intro hne
    obtain ⟨version, hversion⟩ := List.exists_mem_of_ne_nil page hne
    have hid : item.itemId ∈ page.map RemoteVersion.itemId := by
      refine List.mem_map.2 ⟨version, hversion, ?_⟩
      rcases List.mem_pair.1 (hpage version hversion) with rfl | rfl
      · rfl
      · exact h.sameId
    rw [lookup_versionSummaries hstored.wellFormed _ hid]
    exact hstored.held
  by_cases hempty : page = []
  · subst hempty
    exact ⟨store, [], rfl, hstored⟩
  obtain ⟨hreached, hflags⟩ := writeAll_reached h hwf page hpage _ store (stored, stored)
    (Or.inl rfl) (hheld hempty) hstored
  have hincoming : ∀ entry ∈ written.2, ∃ version ∈ page, entry.incoming = (version, none) := by
    intro entry hentry
    have hmem := List.mem_map_of_mem (f := Entry.incoming) hentry
    rw [writeAll_incoming, threaded_incoming] at hmem
    obtain ⟨version, hversion, heq⟩ := List.mem_map.1 hmem
    exact ⟨version, hversion, heq.symm⟩
  have hredo : ∃ applied, redo host [] written.1
      (written.2.map fun entry => (entry, entry.flags)) = .ok (written.1, applied) := by
    refine redo_fixed [] _ _ ?_
    cases hadmitted : (meeting host start item).admitted with
    | true =>
      refine Or.inl ⟨rfl, fun row hrow => ?_⟩
      obtain ⟨entry, hentry, rfl⟩ := List.mem_map.1 hrow
      exact hflags hadmitted entry hentry
    | false =>
      refine Or.inr fun row hrow => ?_
      obtain ⟨entry, hentry, rfl⟩ := List.mem_map.1 hrow
      obtain ⟨version, hversion, heq⟩ := hincoming entry hentry
      rw [heq]
      rcases List.mem_pair.1 (hpage version hversion) with rfl | rfl
      · exact applyOne_item h hwf hreached hadmitted
      · refine applyOne_tombstone h hreached ?_
        refine (meeting host start item).row_settled (stored, stored) (Or.inl rfl) hadmitted _ ?_
        exact Or.inl (List.mem_map.2 ⟨version, hversion, h.deleted⟩)
  obtain ⟨applied, happlied⟩ := hredo
  have hpageOk : applyPage host store (cloudPage page) = .ok (written.1, applied) := by
    rw [applyPage_eq, hids, hds]
    simp only [bind, Except.bind, hzip]
    rw [pinPass_none _ fun entry hentry => by
      obtain ⟨version, -, heq⟩ := hincoming entry hentry
      rw [heq]]
    exact happlied
  have happly := congrArg (Except.map fun result : Store × List P2pApply =>
    (result.1, result.2.map P2pApply.any)) hpageOk
  exact ⟨_, _, happly, hreached⟩

theorem reached_pages (h : Pair host item tombstone) (hwf : WellFormed start)
    (hstored : Reached host start item tombstone store stored) (pages : List (List RemoteVersion))
    (hpages : ∀ version ∈ pages.flatten, version ∈ [item, tombstone]) :
    ∃ after, Independence.mergePages host store pages = .ok after ∧
      Reached host start item tombstone after
        ((meeting host start item).pages stored
          (pages.map fun page => page.map RemoteVersion.deleted)) := by
  induction pages generalizing store stored with
  | nil => exact ⟨store, rfl, hstored⟩
  | cons page rest ih =>
    rw [List.flatten_cons] at hpages
    obtain ⟨next, flags, hnext, hreached⟩ := reached_page h hwf hstored page
      fun version hversion => hpages version (List.mem_append_left _ hversion)
    obtain ⟨after, hafter, hlast⟩ := ih hreached
      fun version hversion => hpages version (List.mem_append_right _ hversion)
    refine ⟨after, ?_, hlast⟩
    rw [Independence.mergePages, hnext]
    exact hafter

end Pages

/-- The store holds a tombstone of that stamp under its id. -/
def Tombstoned (store : Store) (tombstone : RemoteVersion) : Prop :=
  ∃ version, store.versionSummary tombstone.itemId = some version ∧ version.deleted = true ∧
    version.createdAt = tombstone.createdAt

/-- When the tombstone stays: the live version was held already, or is refused for a
copy under another id; where a choice held about the same content restamps it, the
tombstone comes on its page; and otherwise its hash is not above the one that was held,
or the tombstone comes after it. -/
def DeleteHolds (store : Store) (item tombstone : RemoteVersion)
    (pages : List (List RemoteVersion)) : Prop :=
  HoldsItem host store item ∨ ¬Fits host store (itemWrite host store item) ∨
    if stampOf host store (itemWrite host store item) = item.createdAt then
      host.sha256 item.bytes ≤ heldHash store item.itemId ∨
        [item, tombstone].Sublist pages.flatten
    else ∃ first, pages.find? (fun page => page ≠ []) = some first ∧ tombstone ∈ first

section Outcome

variable {host} {start : Store} {item tombstone : RemoteVersion}

theorem tombstoned_iff (h : Pair host item tombstone) {store : Store} {phase : Phase}
    (hreached : Reached host start item tombstone store phase) :
    Tombstoned store tombstone ↔ phase.isGone = true := by
  unfold Tombstoned
  rw [h.sameId, h.sameStamp]
  have hheld := hreached.held
  cases phase with
  | before =>
    refine iff_of_false ?_ (by simp [Phase.isGone])
    rintro ⟨version, hversion, -, hstamp⟩
    exact (hheld.2 version hversion).ne hstamp
  | alive =>
    obtain ⟨held, hsome, hkey⟩ := hheld
    refine iff_of_false ?_ (by simp [Phase.isGone])
    rintro ⟨version, hversion, hdeleted, -⟩
    obtain rfl : held = version := by simpa [hsome] using hversion
    rw [(versionKey_inj.1 hkey).2.2.1] at hdeleted
    cases hdeleted
  | gone hash =>
    obtain ⟨-, held, hsome, hkey⟩ := hheld
    have hparts := versionKey_inj.1 hkey
    exact iff_of_true ⟨held, hsome, hparts.2.2.1, hparts.1⟩ rfl
  | risen =>
    obtain ⟨held, hsome, hlater, -⟩ := hheld
    refine iff_of_false ?_ (by simp [Phase.isGone])
    rintro ⟨version, hversion, -, hstamp⟩
    obtain rfl : held = version := by simpa [hsome] using hversion
    exact hlater.ne' hstamp

theorem reached_start (hwf : WellFormed start)
    (hstart : (∀ version ∈ start.versionSummary item.itemId,
      version.createdAt < item.createdAt) ∨ HoldsItem host start item) :
    ∃ phase, Reached host start item tombstone start phase ∧
      (phase = .before ∨ phase = .alive) ∧ (phase = .alive ↔ HoldsItem host start item) := by
  rcases hstart with hold | hholds
  · refine ⟨.before, ⟨hwf, fun _ _ => Iff.rfl, fun _ => rfl, rfl, hold⟩, Or.inl rfl, ?_⟩
    refine iff_of_false nofun fun hholds => ?_
    unfold HoldsItem rank at hholds
    split at hholds
    · rename_i version hversion
      have hkey := WithBot.coe_injective hholds
      exact (hold version hversion).ne (versionKey_inj.1 hkey).1
    · cases hholds
  · refine ⟨.alive, ⟨hwf, fun _ _ => Iff.rfl, nofun, ?_⟩, Or.inr rfl, iff_of_true rfl hholds⟩
    unfold HoldsItem rank at hholds
    split at hholds
    · rename_i version hversion
      exact ⟨version, hversion, WithBot.coe_injective hholds⟩
    · cases hholds

variable {pages : List (List RemoteVersion)}

theorem eq_of_deleted (h : Pair host item tombstone) {version : RemoteVersion}
    (hversion : version ∈ [item, tombstone]) :
    (version.deleted = false → version = item) ∧ (version.deleted = true → version = tombstone) := by
  rcases List.mem_pair.1 hversion with rfl | rfl
  · exact ⟨fun _ => rfl, fun hdeleted => by simp [h.live] at hdeleted⟩
  · exact ⟨fun hlive => by simp [h.deleted] at hlive, fun _ => rfl⟩

theorem flatten_deleted :
    (pages.map fun page => page.map RemoteVersion.deleted).flatten =
      pages.flatten.map RemoteVersion.deleted :=
  List.map_flatten.symm

theorem sublist_deleted_iff (h : Pair host item tombstone)
    (hpages : ∀ version ∈ pages.flatten, version ∈ [item, tombstone]) :
    [false, true].Sublist (pages.flatten.map RemoteVersion.deleted) ↔
      [item, tombstone].Sublist pages.flatten := by
  constructor
  · intro hsub
    obtain ⟨rows, hrows, heq⟩ := List.sublist_map_iff.1 hsub
    obtain ⟨first, second, rfl⟩ : ∃ first second, rows = [first, second] := by
      refine List.length_eq_two.1 ?_
      rw [← List.length_map, ← heq]
      rfl
    simp only [List.map_cons, List.map_nil, List.cons.injEq, and_true] at heq
    have hfirst := hpages first (hrows.subset (by simp))
    have hsecond := hpages second (hrows.subset (by simp))
    rwa [(eq_of_deleted h hfirst).1 heq.1.symm, (eq_of_deleted h hsecond).2 heq.2.symm] at hrows
  · intro hsub
    have hmap := hsub.map RemoteVersion.deleted
    simpa [h.live, h.deleted] using hmap

theorem first_deleted_iff (h : Pair host item tombstone)
    (hpages : ∀ version ∈ pages.flatten, version ∈ [item, tombstone]) :
    (∃ first, (pages.map fun page => page.map RemoteVersion.deleted).find?
        (fun page => decide (page ≠ [])) = some first ∧ true ∈ first) ↔
      ∃ first, pages.find? (fun page => decide (page ≠ [])) = some first ∧ tombstone ∈ first := by
  have hfind : (pages.map fun page => page.map RemoteVersion.deleted).find?
      (fun page => decide (page ≠ [])) =
        (pages.find? fun page => decide (page ≠ [])).map fun page =>
          page.map RemoteVersion.deleted := by
    rw [List.find?_map]
    congr 2
    funext page
    simp
  rw [hfind]
  constructor
  · rintro ⟨_, hfirst, hmem⟩
    obtain ⟨page, hpage, rfl⟩ := Option.map_eq_some_iff.1 hfirst
    obtain ⟨version, hversion, hdeleted⟩ := List.mem_map.1 hmem
    have hin : version ∈ pages.flatten :=
      List.mem_flatten.2 ⟨page, List.mem_of_find?_eq_some hpage, hversion⟩
    rw [(eq_of_deleted h (hpages version hin)).2 hdeleted] at hversion
    exact ⟨page, hpage, hversion⟩
  · rintro ⟨page, hpage, hmem⟩
    exact ⟨_, by rw [hpage, Option.map_some], List.mem_map.2 ⟨tombstone, hmem, h.deleted⟩⟩

end Outcome

/-- Delivered in any order and cut into pages in any way, a live version and a hashless
tombstone of its stamp leave the tombstone exactly under the stated condition. -/
theorem tombstone_stays_iff (start : Store) (item tombstone : RemoteVersion)
    (hpair : Pair host item tombstone) (hwf : WellFormed start)
    (hstart : (∀ version ∈ start.versionSummary item.itemId,
      version.createdAt < item.createdAt) ∨ HoldsItem host start item)
    (pages : List (List RemoteVersion))
    (hpages : ∀ version ∈ pages.flatten, version ∈ [item, tombstone])
    (hitem : item ∈ pages.flatten) (htombstone : tombstone ∈ pages.flatten) :
    ∃ after, Independence.mergePages host start pages = .ok after ∧
      (Tombstoned after tombstone ↔ DeleteHolds host start item tombstone pages) := by
  obtain ⟨phase, hreached, hphase, hholds⟩ :=
    @reached_start host start item tombstone hwf hstart
  obtain ⟨after, hafter, hlast⟩ := reached_pages hpair hwf hreached pages hpages
  refine ⟨after, hafter, ?_⟩
  have hlive : false ∈ (pages.map fun page => page.map RemoteVersion.deleted).flatten := by
    rw [flatten_deleted]
    exact List.mem_map.2 ⟨item, hitem, hpair.live⟩
  have hgone : true ∈ (pages.map fun page => page.map RemoteVersion.deleted).flatten := by
    rw [flatten_deleted]
    exact List.mem_map.2 ⟨tombstone, htombstone, hpair.deleted⟩
  rw [tombstoned_iff hpair hlast, (meeting host start item).pages_gone_iff
    (restamped_hash hpair hwf) phase hphase _ hlive hgone, hholds, flatten_deleted,
    sublist_deleted_iff hpair hpages, first_deleted_iff hpair hpages]
  unfold DeleteHolds
  refine or_congr Iff.rfl (or_congr (by simp [meeting]) ?_)
  by_cases hstamp : stampOf host start (itemWrite host start item) = item.createdAt
  · have hrestamped : (meeting host start item).restamped = false := by simp [meeting, hstamp]
    rw [hrestamped, if_neg (by simp), if_pos hstamp]
    rfl
  · have hrestamped : (meeting host start item).restamped = true := by simp [meeting, hstamp]
    rw [hrestamped, if_pos rfl, if_neg hstamp]

private def copied : RemoteVersion :=
  sampleVersion "a" "text" 5

private def removed : RemoteVersion :=
  { copied with content := "", deleted := true }

private theorem copied_removed : Pair sampleHost copied removed :=
  ⟨rfl, rfl, rfl, rfl, rfl, by decide, by decide, by decide⟩

private theorem empty_wellFormed : WellFormed {} :=
  ⟨List.nodup_nil, List.nodup_nil, List.forall_mem_nil _, List.forall_mem_nil _⟩

private theorem empty_older : ∀ version ∈ ({} : Store).versionSummary copied.itemId,
    version.createdAt < copied.createdAt := by
  intro version hversion
  have hnone : ({} : Store).versionSummary copied.itemId = none := rfl
  rw [hnone] at hversion
  cases hversion

theorem tombstone_stays_behind : ∃ after,
    Independence.mergePages sampleHost {} [[copied], [removed, copied]] = .ok after ∧
      Tombstoned after removed := by
  obtain ⟨after, hafter, hiff⟩ := tombstone_stays_iff sampleHost {} copied removed copied_removed
    empty_wellFormed (Or.inl empty_older) [[copied], [removed, copied]] (by decide)
    (by decide) (by decide)
  refine ⟨after, hafter, hiff.2 (Or.inr (Or.inr ?_))⟩
  rw [if_pos (by decide)]
  exact Or.inr (by decide)

/-- At a store that does not know the id, a tombstone that comes first gives way. -/
theorem early_tombstone_undone :
    ¬∀ (host : Host) (start : Store) (item tombstone : RemoteVersion),
      Pair host item tombstone → WellFormed start →
      ((∀ version ∈ start.versionSummary item.itemId, version.createdAt < item.createdAt) ∨
        HoldsItem host start item) →
      ∀ pages : List (List RemoteVersion),
        (∀ version ∈ pages.flatten, version ∈ [item, tombstone]) → item ∈ pages.flatten →
        tombstone ∈ pages.flatten →
        ∃ after, Independence.mergePages host start pages = .ok after ∧
          Tombstoned after tombstone := by
  intro hall
  obtain ⟨after, hafter, version, hversion, hdeleted, -⟩ := hall sampleHost {} copied removed
    copied_removed empty_wellFormed (Or.inl empty_older) [[removed], [copied]] (by decide)
    (by decide) (by decide)
  have hlive : (Independence.mergePages sampleHost {} [[removed], [copied]]).toOption.bind
      (fun store => store.versionSummary "a") |>.all fun version => !version.deleted := by
    decide
  rw [hafter] at hlive
  have hsome : after.versionSummary "a" = some version := hversion
  simp [Except.toOption, hsome, hdeleted] at hlive

end CopyPaste.Merge.CloudDelete
