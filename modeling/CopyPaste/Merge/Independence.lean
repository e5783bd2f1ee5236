import Mathlib
import CopyPaste.Merge.Pages

/-!
Delivery order does not matter. Without collisions and secrecy choices every
winner of a page is stored under the stamp it came with, so a page raises the
content held under each id to the maximum of what was held and what it brings, and
so does any sequence of pages.
-/

namespace CopyPaste.Merge.Independence

open Lib.Rows Comparator Payload Storage Prepare Batch Effects Pages Upload.Scanning

variable (host : Host)

/-- Metadata that carries no choice of the user about secrecy. -/
def Choiceless (json : Option String) : Prop :=
  ∀ text ∈ json, ∀ contentType m, PayloadMetadata.fromJson host text contentType = some m →
    m.secretOverride = none

/-- Rendering metadata does not invent a choice. -/
def RendersChoices : Prop :=
  ∀ m m' : PayloadMetadata, m.secretOverride = none →
    host.parsePayload (host.renderPayload m) = some m' → m'.secretOverride = none

theorem choiceless_none : Choiceless host none := by
  simp [Choiceless]

variable {host}

theorem choiceless_toJson (hrender : RendersChoices host) {m : PayloadMetadata}
    (hm : m.secretOverride = none) (contentType : String) :
    Choiceless host (m.toJson host contentType) := by
  intro text htext ct m' hparse
  unfold PayloadMetadata.toJson at htext
  split at htext
  · simp only [Option.mem_def, Option.some.injEq] at htext
    subst htext
    unfold PayloadMetadata.fromJson at hparse
    split at hparse
    · simp at hparse
    · split at hparse
      · split at hparse
        · simp only [Option.some.injEq] at hparse
          rw [← hparse]
        · simp at hparse
      · rw [Option.filter_eq_some_iff] at hparse
        exact hrender m m' hm hparse.1
  · simp at htext

theorem readMetadata_choiceless {json : Option String} (h : Choiceless host json)
    (contentType : String) : (readMetadata host json contentType).secretOverride = none := by
  unfold readMetadata
  cases json with
  | none => rfl
  | some text =>
    simp only [Option.bind_some]
    cases hparse : PayloadMetadata.fromJson host text contentType with
    | none => rfl
    | some m => exact h text rfl contentType m hparse

theorem choiceless_normalise (hrender : RendersChoices host) (icons : List IconRow)
    (appId : Option String) (contentType : String) (capturedAt : Int) {metadata : Option String}
    (h : Choiceless host metadata) :
    Choiceless host (normalise host icons appId contentType capturedAt metadata).1 := by
  unfold normalise
  split
  · exact h
  · rename_i parsed hparsed
    split
    · exact h
    · rw [Option.bind_eq_some_iff] at hparsed
      obtain ⟨text, htext, hparse⟩ := hparsed
      simp only
      split
      · refine choiceless_toJson hrender ?_ contentType
        exact h text htext contentType parsed hparse
      · exact choiceless_none host

variable {version : RemoteVersion} {store start : Store} {versions : List RemoteVersion}

theorem choiceless_mergedMetadata (hrender : RendersChoices host)
    (h : Choiceless host version.payloadMetadata) :
    Choiceless host (mergedMetadata host version) := by
  unfold mergedMetadata
  split
  · exact choiceless_none host
  · split
    · refine choiceless_toJson hrender ?_ _
      simp only [credentialsMetadata]
      cases hjson : version.payloadMetadata with
      | none => rfl
      | some text =>
        simp only [Option.bind_some]
        cases hparse : PayloadMetadata.fromJson host text version.contentType with
        | none => rfl
        | some m => exact h text hjson _ m hparse
    · exact h

/-- Without choices on either side nothing is restamped and no choice is stored. -/
theorem rowOf_choiceless (hrender : RendersChoices host)
    (hstore : ∀ row ∈ store.items, Choiceless host row.payloadMetadata) (incoming : IncomingItem)
    (h : Choiceless host incoming.payloadMetadata) :
    (store.rowOf host incoming).1.createdAt = incoming.createdAt ∧
      Choiceless host (store.rowOf host incoming).1.payloadMetadata := by
  unfold Store.rowOf
  cases hdeleted : incoming.deleted with
  | true => exact ⟨rfl, choiceless_none host⟩
  | false =>
    have hnormal := choiceless_normalise hrender store.icons incoming.appBundleId
      incoming.contentType incoming.createdAt h
    have hvalue := readMetadata_choiceless hnormal incoming.contentType
    have hheld : Choiceless host ((store.items.find? fun row =>
        row.id = incoming.id ∧ row.contentHash = incoming.contentHash).bind
          ItemRow.payloadMetadata) := by
      intro text htext
      rw [Option.mem_def, Option.bind_eq_some_iff] at htext
      obtain ⟨row, hrow, htext⟩ := htext
      exact hstore row (List.mem_of_find?_eq_some hrow) text htext
    have hmerged : ((readMetadata host (normalise host store.icons incoming.appBundleId
        incoming.contentType incoming.createdAt incoming.payloadMetadata).1
          incoming.contentType).mergePrivacy (readMetadata host ((store.items.find? fun row =>
            row.id = incoming.id ∧ row.contentHash = incoming.contentHash).bind
              ItemRow.payloadMetadata) incoming.contentType)).secretOverride = none := by
      simp only [PayloadMetadata.mergePrivacy, hvalue,
        readMetadata_choiceless hheld incoming.contentType, SecretOverride.max]
    simp only [mergeHeldPrivacy, Bool.false_eq_true, if_false, hmerged, hvalue, if_true, true_and]
    split
    · exact hnormal
    · exact choiceless_toJson hrender hmerged _

variable (host)

def RemoteVersion.key (version : RemoteVersion) : VersionKey :=
  versionKey version.createdAt (remoteContentHash host version none) version.deleted
    version.originDeviceId

/-- A version's key in the dedup index; records are not in its table. -/
def RemoteVersion.dedupKey (version : RemoteVersion) :
    Option (String × String × Int × String) :=
  if version.contentType = recordContentType then none
  else Storage.dedupKey version.itemId (remoteContentHash host version none) version.contentType
    version.createdAt version.deleted version.originDeviceId

/-- A version a peer may send: of a shape that is stored, within the size limit,
with its hash and origin, and without a choice about secrecy. -/
structure Admissible (version : RemoteVersion) : Prop where
  payload : payloadIsRefused host version = false
  wire : ((organizationText version).any fun text =>
    validWire host version.itemId version.contentType text version.deleted) = true
  size : version.deleted = false → version.bytes.length ≤ maxContentBytes
  hash : version.deleted = true → version.contentHash.isSome = true
  origin : version.originDeviceId ≠ ""
  choice : Choiceless host version.payloadMetadata

/-- The ids and index keys of a store and of versions on their way to it. -/
def footprints (store : Store) (versions : List RemoteVersion) :
    List (String × Option (String × String × Int × String)) :=
  (store.items.map fun row => (row.id, row.dedupKey)) ++
    versions.map fun version => (version.itemId, RemoteVersion.dedupKey host version)

/-- No version meets the index key of another id. -/
def CollisionFree (store : Store) (versions : List RemoteVersion) : Prop :=
  ∀ version ∈ versions, ∀ print ∈ footprints host store versions,
    print.1 ≠ version.itemId → (RemoteVersion.dedupKey host version).isSome →
      RemoteVersion.dedupKey host version ≠ print.2

/-- What holds of the store while versions are delivered. -/
structure Delivering (start : Store) (versions : List RemoteVersion) (store : Store) : Prop where
  wellFormed : WellFormed store
  choiceless : ∀ row ∈ store.items, Choiceless host row.payloadMetadata
  prints : ∀ row ∈ store.items, (row.id, row.dedupKey) ∈ footprints host start versions

variable {host}

theorem remoteContentHash_eq (h : Admissible host version) (held : Option Version) :
    remoteContentHash host version held = remoteContentHash host version none := by
  unfold remoteContentHash
  split
  · rename_i hdeleted
    obtain ⟨hash, hhash⟩ := Option.isSome_iff_exists.1 (h.hash hdeleted)
    rw [hhash]
  · rfl

/-- The keys of a version decided against. -/
def heldRank (host : Host) (held : List Version) (id : String) : WithBot VersionKey :=
  match lookup Version.id held id with
  | some version => Version.key host version
  | none => ⊥

theorem keepsLocal_iff (h : Admissible host version) (held : List Version) :
    keepsLocal host version none (lookup Version.id held version.itemId) = true ↔
      (RemoteVersion.key host version : WithBot VersionKey) ≤
        heldRank host held version.itemId := by
  unfold keepsLocal heldRank
  cases lookup Version.id held version.itemId with
  | none => simp
  | some mine =>
    rw [Option.any_some, decide_eq_true_eq, mergeDecision_keepLocal_iff, WithBot.coe_le_coe]
    simp only [remoteSummary, storedSummary, remoteContentHash_eq h]
    rfl

private theorem prints_recorded (h : Delivering host start versions store) (incoming : IncomingItem)
    (record : Record) :
    ∀ row ∈ (recorded store incoming record).items, Choiceless host row.payloadMetadata ∧
      (row.id, row.dedupKey) ∈ footprints host start versions := by
  obtain ⟨f, hitems, hf⟩ := items_recorded store incoming record
  intro row hrow
  rw [hitems, List.mem_map] at hrow
  obtain ⟨before, hbefore, rfl⟩ := hrow
  rcases hf before with heq | ⟨pin, heq⟩
  · rw [heq]
    exact ⟨h.choiceless before hbefore, h.prints before hbefore⟩
  · rw [heq, (onto_content pin before).1, (onto_content pin before).2, onto_id]
    exact ⟨h.choiceless before hbefore, h.prints before hbefore⟩

private theorem dedupKey_rowOf (hrender : RendersChoices host)
    (hstore : ∀ row ∈ store.items, Choiceless host row.payloadMetadata)
    (hadm : Admissible host version) (hkind : version.contentType ≠ recordContentType)
    (pin : Option RemotePin) (held : Option Version) :
    (store.rowOf host (prepared host version pin held).toIncomingItem).1.dedupKey =
      RemoteVersion.dedupKey host version := by
  have hstamp := (rowOf_choiceless hrender hstore
    (prepared host version pin held).toIncomingItem
    (choiceless_mergedMetadata hrender hadm.choice)).1
  unfold ItemRow.dedupKey RemoteVersion.dedupKey
  rw [hstamp, if_neg hkind]
  simp only [Store.rowOf, prepared, remoteContentHash_eq hadm]

/-- A version that wins while versions are delivered is stored under its keys. -/
theorem delivering_upsert (hrender : RendersChoices host)
    (hclear : CollisionFree host start versions) (h : Delivering host start versions store)
    (hmem : version ∈ versions) (hadm : Admissible host version) (pin : Option RemotePin)
    (held : Option Version) :
    (store.upsert host (prepared host version pin held).toIncomingItem).2 = true ∧
      Delivering host start versions
        (store.upsert host (prepared host version pin held).toIncomingItem).1 ∧
      ∀ id, rank host
        (store.upsert host (prepared host version pin held).toIncomingItem).1 id =
          if version.itemId = id then (RemoteVersion.key host version : WithBot VersionKey)
          else rank host store id := by
  let ready := (prepared host version pin held).toIncomingItem
  have hchoice := choiceless_mergedMetadata hrender hadm.choice
  have hrow := rowOf_choiceless hrender h.choiceless ready hchoice
  obtain ⟨text, htext, hvalid⟩ := (Option.any_eq_true _ _).1 hadm.wire
  have hstored : (store.upsert host ready).2 = true ∧
      Delivering host start versions (store.upsert host ready).1 := by
    by_cases hkind : version.contentType = recordContentType
    · obtain ⟨record, -, heq⟩ := upsert_valid_record host store ready text hkind
        (by simp [ready, prepared, hkind, htext]) hvalid
      have hprints := prints_recorded h ready record
      rw [heq]
      refine ⟨rfl, wellFormed_recorded h.wellFormed ?_ record,
        fun row hrow => (hprints row hrow).1, fun row hrow => (hprints row hrow).2⟩
      exact (isRecordId_of_validWire host (hkind ▸ hvalid)).1
    · have hid : isRecordId version.itemId = false := by
        unfold validWire at hvalid
        rw [if_pos hkind] at hvalid
        simpa using hvalid
      have hkey := dedupKey_rowOf hrender h.choiceless hadm hkind pin held
      have hfits : Fits host store ready := by
        intro other hother hne
        unfold collides
        rw [hkey]
        cases hsome : (RemoteVersion.dedupKey host version).isSome with
        | false => rfl
        | true =>
          have hdiffer := hclear version hmem _ (h.prints other hother) hne hsome
          simpa using hdiffer
      rw [upsert_item host hkind hid, if_pos hfits]
      refine ⟨rfl, wellFormed_written host h.wellFormed hid, fun row hmem' => ?_,
        fun row hmem' => ?_⟩
      · rcases (mem_put _ _ _).1 hmem' with ⟨hold, -⟩ | rfl
        · exact h.choiceless row hold
        · rw [(projected_content _ _).1]
          exact hrow.2
      · rcases (mem_put _ _ _).1 hmem' with ⟨hold, -⟩ | rfl
        · exact h.prints row hold
        · rw [(projected_content _ _).2, projected_id, hkey]
          exact List.mem_append_right _ (List.mem_map_of_mem hmem)
  refine ⟨hstored.1, hstored.2, fun id => ?_⟩
  rw [rank_upsert host h.wellFormed hstored.1]
  have hstamp : stampOf host store ready = version.createdAt := by
    unfold stampOf
    split
    · rfl
    · exact hrow.1
  rw [hstamp]
  simp only [ready, prepared, remoteContentHash_eq hadm, originOr, if_neg hadm.origin]
  rfl

variable (host)

/-- The greatest keys versions bring for an id. -/
noncomputable def best (versions : List RemoteVersion) (id : String) : WithBot VersionKey :=
  ((versions.filter fun version => version.itemId = id).map (RemoteVersion.key host)).maximum

theorem best_cons (version : RemoteVersion) (rest : List RemoteVersion) (id : String) :
    best host (version :: rest) id =
      if version.itemId = id then max (RemoteVersion.key host version : WithBot VersionKey)
        (best host rest id) else best host rest id := by
  unfold best
  by_cases h : version.itemId = id
  · simp [h, List.maximum_cons]
  · simp [h]

theorem best_append (earlier later : List RemoteVersion) (id : String) :
    best host (earlier ++ later) id = max (best host earlier id) (best host later id) := by
  induction earlier with
  | nil => simp [best]
  | cons version rest ih =>
    rw [List.cons_append, best_cons, best_cons, ih]
    split
    · rw [max_assoc]
    · rfl

/-- Only which versions are among them matters. -/
theorem best_congr {others : List RemoteVersion} (h : ∀ v, v ∈ versions ↔ v ∈ others)
    (id : String) : best host versions id = best host others id := by
  have hle : ∀ {a b : List RemoteVersion}, (∀ v, v ∈ a → v ∈ b) → best host a id ≤ best host b id := by
    intro a b hab
    refine List.maximum_le_of_forall_le fun key hkey => ?_
    simp only [List.mem_map, List.mem_filter] at hkey
    obtain ⟨version, ⟨hmem, hid⟩, rfl⟩ := hkey
    exact List.le_maximum_of_mem'
      (List.mem_map_of_mem (List.mem_filter.2 ⟨hab version hmem, hid⟩))
  exact le_antisymm (hle fun v => (h v).1) (hle fun v => (h v).2)

variable {host}

/-- One row of a page: it loses to what is held, or it is written and raises it. -/
theorem decideRow_admissible (hadm : Admissible host version) (held : List Version) :
    (RemoteVersion.key host version : WithBot VersionKey) ≤ heldRank host held version.itemId ∧
        decideRow host held (version, none) = .ok (.lost false) ∨
      heldRank host held version.itemId < (RemoteVersion.key host version : WithBot VersionKey) ∧
        decideRow host held (version, none) =
          .ok (.won (prepared host version none (lookup Version.id held version.itemId))) := by
  have hsize : (!version.deleted && decide (maxContentBytes < version.bytes.length)) = false := by
    cases hdeleted : version.deleted with
    | true => rfl
    | false => simpa using hadm.size hdeleted
  have hprepare : prepareRemoteVersion host version none
      (lookup Version.id held version.itemId) =
      if keepsLocal host version none (lookup Version.id held version.itemId) then .ok none
      else .ok (some (prepared host version none (lookup Version.id held version.itemId))) := by
    unfold prepareRemoteVersion
    rw [hadm.wire, hsize]
    rfl
  unfold decideRow
  simp only [hadm.payload, Option.map_none, hprepare]
  by_cases hkeeps : keepsLocal host version none (lookup Version.id held version.itemId) = true
  · left
    rw [hkeeps]
    exact ⟨(keepsLocal_iff hadm held).1 hkeeps, rfl⟩
  · right
    refine ⟨not_le.1 fun hle => hkeeps ((keepsLocal_iff hadm held).2 hle), ?_⟩
    simp only [hkeeps]
    rfl

theorem heldRank_put (hadm : Admissible host version) (held : List Version)
    (against : Option Version) (id : String) :
    heldRank host (put Version.id held ((prepared host version none against).asVersion host)) id =
      if version.itemId = id then (RemoteVersion.key host version : WithBot VersionKey)
      else heldRank host held id := by
  have hident : ((prepared host version none against).asVersion host).id = version.itemId := rfl
  have hkey : Version.key host ((prepared host version none against).asVersion host) =
      RemoteVersion.key host version := by
    simp only [Version.key, Prepared.asVersion, prepared, remoteContentHash_eq hadm, originOr,
      if_neg hadm.origin]
    rfl
  unfold heldRank
  rw [lookup_put, hident]
  by_cases hid : version.itemId = id
  · simp only [if_pos hid, hkey]
  · simp only [if_neg hid]

/-- What a page does: every winner is stored, and each id ends at the maximum. -/
theorem decisions_admissible (hrender : RendersChoices host)
    (hclear : CollisionFree host start versions)
    (hadm : ∀ version ∈ versions, Admissible host version) (page : List RemoteVersion)
    (hpage : ∀ version ∈ page, version ∈ versions) (held : List Version) (store : Store)
    (h : Delivering host start versions store)
    (hheld : ∀ version ∈ page, heldRank host held version.itemId = rank host store version.itemId) :
    ∃ ds, decisions host held (page.map fun version => (version, none)) = .ok ds ∧
      Delivering host start versions
        (writeAll host store ((page.map fun version => (version, none)).zip ds)).1 ∧
      (∀ entry ∈ (writeAll host store ((page.map fun version => (version, none)).zip ds)).2,
        entry.incoming.2 = none ∧ entry.outcome ≠ some false) ∧
      ∀ id, rank host
        (writeAll host store ((page.map fun version => (version, none)).zip ds)).1 id =
          max (rank host store id) (best host page id) := by
  induction page generalizing held store with
  | nil => exact ⟨[], rfl, h, by simp [writeAll], fun id => by simp [writeAll, best]⟩
  | cons version rest ih =>
    have hversion := hadm version (hpage version List.mem_cons_self)
    have hrest : ∀ v ∈ rest, v ∈ versions := fun v hv => hpage v (List.mem_cons_of_mem _ hv)
    have hrank := hheld version List.mem_cons_self
    rcases decideRow_admissible hversion held with ⟨hle, hdecide⟩ | ⟨hlt, hdecide⟩
    · obtain ⟨ds, hds, hafter, hentries, hmax⟩ := ih hrest held store h
        fun v hv => hheld v (List.mem_cons_of_mem _ hv)
      refine ⟨.lost false :: ds, ?_, hafter, ?_, fun id => ?_⟩
      · rw [List.map_cons, decisions, hdecide]
        simp only [bind, Except.bind, Decision.thread, hds]
        rfl
      · intro entry hentry
        simp only [List.map_cons, List.zip_cons_cons, writeAll, List.mem_cons] at hentry
        rcases hentry with rfl | hmem
        · exact ⟨rfl, by simp⟩
        · exact hentries entry hmem
      · refine (hmax id).trans ?_
        rw [best_cons]
        split
        · rename_i hid
          subst hid
          rw [hrank] at hle
          rw [← max_assoc, max_eq_left hle]
        · rfl
    · obtain ⟨hstored, hafter, hrankAfter⟩ := delivering_upsert hrender hclear h
        (hpage version List.mem_cons_self) hversion none (lookup Version.id held version.itemId)
      obtain ⟨ds, hds, hfinal, hentries, hmax⟩ := ih hrest
        (put Version.id held ((prepared host version none
          (lookup Version.id held version.itemId)).asVersion host)) _ hafter (by
          intro v hv
          rw [hrankAfter, heldRank_put hversion, hheld v (List.mem_cons_of_mem _ hv)])
      refine ⟨.won (prepared host version none (lookup Version.id held version.itemId)) :: ds,
        ?_, hfinal, ?_, fun id => ?_⟩
      · rw [List.map_cons, decisions, hdecide]
        simp only [bind, Except.bind, Decision.thread, hds]
        rfl
      · intro entry hentry
        simp only [List.map_cons, List.zip_cons_cons, writeAll, List.mem_cons] at hentry
        rcases hentry with rfl | hmem
        · exact ⟨rfl, by simp [hstored]⟩
        · exact hentries entry hmem
      · refine (hmax id).trans ?_
        rw [hrankAfter, best_cons]
        split
        · rename_i hid
          subst hid
          rw [hrank] at hlt
          rw [← max_assoc, max_eq_right hlt.le]
        · rfl

variable (host) in
/-- Without pin states and refusals the last two passes change nothing. -/
private theorem redo_pinPass (store : Store) {entries : List Entry}
    (h : ∀ entry ∈ entries, entry.incoming.2 = none ∧ entry.outcome ≠ some false) :
    (pinPass store entries).1 = store ∧
      ∀ after, redo host [] after (pinPass store entries).2 =
        .ok (after, (pinPass store entries).2.map Prod.snd) := by
  induction entries with
  | nil => exact ⟨rfl, fun _ => rfl⟩
  | cons entry rest ih =>
    obtain ⟨hstore, hredo⟩ := ih fun e he => h e (List.mem_cons_of_mem _ he)
    obtain ⟨hpin, houtcome⟩ := h entry List.mem_cons_self
    have hpass : pinPass store (entry :: rest) =
        ((pinPass store rest).1, (entry, entry.flags) :: (pinPass store rest).2) := by
      conv_lhs => unfold pinPass
      rw [hpin]
      split
      · rename_i heq
        simp at heq
      · rfl
    rw [hpass]
    refine ⟨hstore, fun after => ?_⟩
    unfold redo
    simp only [List.not_mem_nil, not_false_eq_true, decide_true, Bool.or_true, if_true,
      if_neg houtcome, hredo]
    rfl

/-- A page through the batch merge. -/
theorem applyRemoteVersions_admissible (hrender : RendersChoices host)
    (hclear : CollisionFree host start versions)
    (hadm : ∀ version ∈ versions, Admissible host version) (page : List RemoteVersion)
    (hpage : ∀ version ∈ page, version ∈ versions) (h : Delivering host start versions store) :
    ∃ after flags, applyRemoteVersions host store page = .ok (after, flags) ∧
      Delivering host start versions after ∧
      ∀ id, rank host after id = max (rank host store id) (best host page id) := by
  let incoming : List Incoming := page.map fun version => (version, none)
  have hheld : ∀ version ∈ page, heldRank host
      (store.versionSummaries (incoming.map fun incoming => incoming.1.itemId)) version.itemId =
        rank host store version.itemId := by
    intro version hmem
    have hid : version.itemId ∈ incoming.map fun incoming => incoming.1.itemId :=
      List.mem_map.2 ⟨(version, none), List.mem_map_of_mem hmem, rfl⟩
    have hlook := lookup_versionSummaries h.wellFormed _ hid
    unfold heldRank rank
    cases hheld : store.versionSummary version.itemId with
    | none | some held =>
      rw [hheld] at hlook
      simp only [hlook]
  obtain ⟨ds, hds, hafter, hentries, hmax⟩ :=
    decisions_admissible hrender hclear hadm page hpage _ store h hheld
  let written := writeAll host store (incoming.zip ds)
  obtain ⟨hstore, hredo⟩ := redo_pinPass host written.1 (show ∀ entry ∈ written.2, _ from hentries)
  have hpage' : applyPage host store incoming =
      .ok (written.1, (pinPass written.1 written.2).2.map Prod.snd) := by
    rw [applyPage_eq, hds]
    show redo host [] (pinPass written.1 written.2).1 (pinPass written.1 written.2).2 = _
    rw [hstore, hredo]
  have happly := congrArg (Except.map fun result : Store × List P2pApply =>
    (result.1, result.2.map P2pApply.any)) hpage'
  exact ⟨_, _, happly, hafter, hmax⟩

def mergePages (host : Host) (store : Store) : List (List RemoteVersion) → Except MergeError Store
  | [] => .ok store
  | page :: rest => do
    let (store, _) ← applyRemoteVersions host store page
    mergePages host store rest

/-- Versions in any order, cut into pages in any way and repeated at will, leave
under each id the maximum of what was held and what was delivered, provided that
neither the store nor the versions carry a choice about secrecy and no version
meets the index key of another id. -/
theorem merge_order_independent (hrender : RendersChoices host) (store : Store)
    (hstore : WellFormed store)
    (hchoice : ∀ row ∈ store.items, Choiceless host row.payloadMetadata)
    (versions : List RemoteVersion) (hadm : ∀ version ∈ versions, Admissible host version)
    (hclear : CollisionFree host store versions) (pages : List (List RemoteVersion))
    (hpages : ∀ version, version ∈ pages.flatten ↔ version ∈ versions) :
    ∃ after, mergePages host store pages = .ok after ∧
      ∀ id, rank host after id = max (rank host store id) (best host versions id) := by
  have hstart : Delivering host store versions store :=
    ⟨hstore, hchoice, fun row hrow =>
      List.mem_append_left _ (List.mem_map.2 ⟨row, hrow, rfl⟩)⟩
  have hrun : ∀ (pages : List (List RemoteVersion)) (now : Store),
      (∀ version ∈ pages.flatten, version ∈ versions) → Delivering host store versions now →
      ∃ after, mergePages host now pages = .ok after ∧
        ∀ id, rank host after id = max (rank host now id) (best host pages.flatten id) := by
    intro pages
    induction pages with
    | nil => exact fun now _ _ => ⟨now, rfl, fun id => by simp [best]⟩
    | cons page rest ih =>
      intro now hmem hnow
      obtain ⟨after, flags, happly, hafter, hmax⟩ := applyRemoteVersions_admissible hrender hclear
        hadm page (fun v hv => hmem v (by simp [hv])) hnow
      obtain ⟨final, hfinal, hmax'⟩ := ih after (fun v hv => hmem v (by
        rw [List.flatten_cons]
        exact List.mem_append_right _ hv)) hafter
      refine ⟨final, ?_, fun id => ?_⟩
      · rw [mergePages, happly]
        exact hfinal
      · rw [hmax', hmax, List.flatten_cons, best_append, max_assoc]
  obtain ⟨after, hafter, hmax⟩ := hrun pages store (fun v hv => (hpages v).1 hv) hstart
  refine ⟨after, hafter, fun id => ?_⟩
  rw [hmax, best_congr host hpages]

theorem sampleHost_renders : RendersChoices sampleHost := by
  intro m m' hm hparse
  simp [sampleHost, hm] at hparse

private theorem sampleVersion_admissible (itemId content : String) (createdAt : Int)
    (hid : isRecordId itemId = false) (hsize : (utf8 content).length ≤ maxContentBytes) :
    Admissible sampleHost (sampleVersion itemId content createdAt) where
  payload := rfl
  wire := by
    have hkind : (sampleVersion itemId content createdAt).contentType ≠ recordContentType := by
      show "text" ≠ recordContentType
      decide
    simp [organizationText, hkind, validWire]
    exact hid
  size := fun _ => hsize
  hash := by simp [sampleVersion]
  origin := by simp [sampleVersion]
  choice := choiceless_none sampleHost

/-- Two versions of one item, the newer one first and once more in a second page. -/
theorem merge_order_independent_twice : ∃ after,
    mergePages sampleHost { items := [sampleRow "b" "old" 1000 none] }
        [[sampleVersion "a" "new" 20], [sampleVersion "a" "first" 10, sampleVersion "a" "new" 20]] =
      .ok after ∧
    ∀ id, rank sampleHost after id =
      max (rank sampleHost { items := [sampleRow "b" "old" 1000 none] } id)
        (best sampleHost [sampleVersion "a" "first" 10, sampleVersion "a" "new" 20] id) := by
  refine merge_order_independent sampleHost_renders _ ⟨?_, ?_, ?_, ?_⟩ ?_ _ ?_ ?_ _ ?_
  · decide
  · decide
  · decide
  · decide
  · intro row hrow
    rw [List.mem_singleton.1 hrow]
    exact choiceless_none sampleHost
  · intro version hversion
    rcases List.mem_pair.1 hversion with rfl | rfl
    · exact sampleVersion_admissible "a" "first" 10 (by decide) (by decide)
    · exact sampleVersion_admissible "a" "new" 20 (by decide) (by decide)
  · unfold CollisionFree
    decide
  · intro version
    simp only [List.flatten_cons, List.flatten_nil, List.append_nil, List.mem_append,
      List.mem_singleton, List.mem_pair]
    tauto

/-- A choice held under the same id and hash restamps the version one millisecond
above its maximum, so the store must hold none either. -/
theorem held_choice_restamps : ¬ ∀ (store : Store), WellFormed store →
    ∀ versions : List RemoteVersion, (∀ version ∈ versions, Admissible sampleHost version) →
      CollisionFree sampleHost store versions → ∀ pages : List (List RemoteVersion),
        (∀ version, version ∈ pages.flatten ↔ version ∈ versions) →
        ∃ after, mergePages sampleHost store pages = .ok after ∧ ∀ id, rank sampleHost after id =
          max (rank sampleHost store id) (best sampleHost versions id) := by
  intro h
  obtain ⟨after, hafter, hrank⟩ := h { items := [sampleRow "a" "text" 10 (some "concealed")] }
    ⟨by decide, by decide, by decide, by decide⟩
    [sampleVersion "a" "text" 20] (by
      intro version hversion
      rw [List.mem_singleton.1 hversion]
      exact sampleVersion_admissible "a" "text" 20 (by decide) (by decide))
    (by
      unfold CollisionFree
      decide)
    [[sampleVersion "a" "text" 20]] (by simp)
  have hrun : (mergePages sampleHost { items := [sampleRow "a" "text" 10 (some "concealed")] }
      [[sampleVersion "a" "text" 20]]).map (fun after => rank sampleHost after "a") =
        .ok (versionKey 21 "text" false "phone" : WithBot VersionKey) := by
    decide
  have hmax : max (rank sampleHost { items := [sampleRow "a" "text" 10 (some "concealed")] } "a")
      (best sampleHost [sampleVersion "a" "text" 20] "a") =
        (versionKey 20 "text" false "phone" : WithBot VersionKey) := by
    decide
  rw [hafter] at hrun
  simp only [Except.map, Except.ok.injEq] at hrun
  rw [hrank "a", hmax, WithBot.coe_inj, versionKey_inj] at hrun
  simp at hrun

end CopyPaste.Merge.Independence
