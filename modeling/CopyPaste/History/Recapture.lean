import CopyPaste.History.Current

/-!
A capture is to succeed whatever became of its content before, and to leave a live row of
that content which no earlier version of its id displaces; and no write of a row is to
fail on the unique index. It is so where a restamped row meets no other row in its minute
and where the id of a binary value is not taken by a tombstone.
-/

namespace CopyPaste.History.Recapture

open Lib.Checks Lib.Rows Lib.Shared Lib.Guarded Lib.Pieces Merge.Comparator Merge.Payload Merge.Storage
  Merge.Prepare Merge.Batch Merge.Effects Files.Tables Files.Reseal Ingest Current Upload.Scanning

open Files.Bodies hiding Op Op.run

/-- The index has room for a row in the place of the one with its id. -/
def Room (store : Store) (row : ItemRow) : Prop :=
  ∀ other ∈ store.items, other.id ≠ row.id → collides row other = false

instance (store : Store) (row : ItemRow) : Decidable (Room store row) := by
  unfold Room
  infer_instance

/-- A history with a row in the place of the one with its id. -/
def replaced (store : Store) (row : ItemRow) : Store :=
  { store with items := store.items.map fun old => if old.id = row.id then row else old }

theorem updateRow_eq (store : Store) (row : ItemRow) :
    updateRow store row = if Room store row then .ok (replaced store row) else .error .storage := by
  unfold updateRow
  by_cases hroom : Room store row
  · rw [if_pos hroom, if_neg]
    · rfl
    · rw [List.any_eq_true]
      rintro ⟨other, hother, htaken⟩
      rw [Bool.and_eq_true, decide_eq_true_eq] at htaken
      rw [hroom other hother htaken.1] at htaken
      exact absurd htaken.2 (by simp)
  · rw [if_neg hroom, if_pos]
    unfold Room at hroom
    push Not at hroom
    obtain ⟨other, hother, hid, hcollides⟩ := hroom
    rw [List.any_eq_true]
    exact ⟨other, hother, by simpa [hid] using hcollides⟩

theorem writeRow_eq (store : Store) (row : ItemRow) :
    writeRow store row =
      if Room store row then .ok (replaced store row) else .error .constraint := by
  unfold writeRow
  rw [updateRow_eq]
  split <;> rfl

variable {store : Store} {row : ItemRow} {contentType id : String} {seen : List Version}
  {stamp now : Int} {host : Host} {disk : Disk} {reader : Reader} {vault : Vault} {file : Import}
  {transfer : FileTransfer} {item : NewItem} {bytes : List UInt8} {op : Op} {source : Source}
  {settings : ConfigData} {e : FileTransferError}

theorem mem_replaced {old : ItemRow} (hold : old ∈ store.items) (hid : old.id = row.id) :
    row ∈ (replaced store row).items :=
  List.mem_map.2 ⟨old, hold, if_pos hid⟩

/-- A row meets in a changed history what it met before. -/
theorem room_replaced {bumped : ItemRow} (h : Room store row) (hid : row.id = bumped.id) :
    Room (replaced store bumped) row := by
  intro other hother hne
  obtain ⟨old, hold, rfl⟩ := List.mem_map.1 hother
  split at hne
  · exact absurd hid.symm hne
  · rename_i hkept
    rw [if_neg hkept]
    exact h old hold hne

theorem newest_mem {rows : List ItemRow} (h : newest rows = some row) : row ∈ rows := by
  induction rows generalizing row with
  | nil => cases h
  | cons first rest ih =>
    unfold newest at h
    split at h
    · obtain rfl := Option.some.inj h
      exact List.mem_cons_self
    · rename_i other hother
      split at h
      · obtain rfl := Option.some.inj h
        exact List.mem_cons_self
      · obtain rfl := Option.some.inj h
        exact List.mem_cons_of_mem _ (ih hother)

theorem newest_eq_none {rows : List ItemRow} (h : newest rows = none) : rows = [] := by
  cases rows with
  | nil => rfl
  | cons first rest =>
    unfold newest at h
    split at h
    · cases h
    · split at h <;> cases h

/-- The row a capture finds is live and holds its representation. -/
theorem newestLive_eq_some {contentHash : String}
    (h : newestLiveWithRepresentation store contentHash contentType = some row) :
    row ∈ store.items ∧ row.contentHash = contentHash ∧ row.contentType = contentType ∧
      row.deleted = false := by
  unfold newestLiveWithRepresentation at h
  split at h
  · cases h
  · have hmem := newest_mem h
    rw [List.mem_filter, decide_eq_true_eq] at hmem
    exact hmem

/-- A representation that no live row holds meets nothing in the index. -/
theorem collides_of_none (row : ItemRow)
    (h : newestLiveWithRepresentation store row.contentHash row.contentType = none) :
    ∀ other ∈ store.items, collides row other = false := by
  intro other hother
  by_contra hcollides
  rw [Bool.not_eq_false] at hcollides
  unfold collides ItemRow.dedupKey Merge.Storage.dedupKey at hcollides
  rw [Bool.and_eq_true, beq_iff_eq] at hcollides
  obtain ⟨hsome, hequal⟩ := hcollides
  unfold newestLiveWithRepresentation at h
  split at hsome
  · cases hsome
  · rename_i hcovered
    simp only [Bool.or_eq_true, not_or, beq_iff_eq] at hcovered
    rw [if_neg hcovered.1.2] at h
    rw [if_neg (by simpa [not_or] using hcovered)] at hequal
    split at hequal
    · cases hequal
    · rename_i hlive
      simp only [Bool.or_eq_true, not_or] at hlive
      simp only [Option.some.injEq, Prod.mk.injEq] at hequal
      have hmem : other ∈ store.items.filter fun found =>
          found.contentHash = row.contentHash ∧ found.contentType = row.contentType ∧
            found.deleted = false := by
        rw [List.mem_filter, decide_eq_true_eq]
        exact ⟨hother, hequal.1.symm, hequal.2.1.symm, by simpa using hlive.1.1⟩
      rw [newest_eq_none h] at hmem
      cases hmem

variable {sys : System}

theorem StoreOk.replace (h : StoreOk sys seen store) (hrow : RowOk sys seen row) :
    StoreOk sys seen (replaced store row) := by
  refine h.exchange rfl (nodup_map _ (fun old => by split <;> simp_all) _ h.wf.items) ?_
  intro other hother
  obtain ⟨old, hold, rfl⟩ := List.mem_map.1 hother
  split
  · exact hrow
  · exact h.rows old hold

theorem StoreOk.append (h : StoreOk sys seen store) (hrow : RowOk sys seen row)
    (hfresh : ∀ other ∈ store.items, other.id ≠ row.id) (icons : List IconRow) :
    StoreOk sys seen { store with items := store.items ++ [row], icons := icons } := by
  refine h.exchange rfl ?_ ?_
  · rw [List.map_append, List.nodup_append]
    refine ⟨h.wf.items, by simp, ?_⟩
    intro id hid other hother
    obtain ⟨old, hold, rfl⟩ := List.mem_map.1 hid
    obtain rfl : other = row.id := by simpa using hother
    exact hfresh old hold
  · intro other hother
    rcases List.mem_append.1 hother with hold | hnew
    · exact h.rows other hold
    · obtain rfl : other = row := by simpa using hnew
      exact hrow

theorem StoreOk.icons (h : StoreOk sys seen store) (icons : List IconRow) :
    StoreOk sys seen { store with icons := icons } :=
  h.exchange rfl h.wf.items h.rows

theorem saturatingSucc_bounds (h : stamp ≤ maxStamp) :
    stamp ≤ saturatingSucc stamp ∧ saturatingSucc stamp ≤ maxStamp := by
  have hbound : maxStamp = 2 ^ 63 - 1 := rfl
  unfold saturatingSucc
  omega

theorem refreshedRow_raises {refreshed : ItemRow} {privacy : ClipboardPrivacy} {credentials : Bool}
    {searchText : Option String} (hstamp : row.createdAt ≤ maxStamp)
    (h : refreshedRow host row privacy credentials searchText = some refreshed) :
    Raised row refreshed ∧ refreshed.createdAt ≤ maxStamp := by
  obtain ⟨hforward, hbound⟩ := saturatingSucc_bounds hstamp
  unfold refreshedRow at h
  dsimp only at h
  split at h
  · cases h
  · obtain rfl := Option.some.inj h
    refine ⟨⟨rfl, rfl, rfl, rfl, rfl, rfl, ?_⟩, ?_⟩
    · dsimp only
      split
      · exact hforward
      · exact le_refl _
    · dsimp only
      split
      · exact hbound
      · exact hstamp

/-- Raising a row leaves it in the history, in its place. -/
theorem bumpInTx_spec (h : StoreOk sys seen store) {existing : ItemRow}
    (hexisting : existing ∈ store.items) {createdAt : Int} (hstamp : createdAt ≤ maxStamp)
    (bundle name icon : Option String) :
    StoreOk sys seen (bumpInTx store existing createdAt bundle name icon).1 ∧
      (bumpInTx store existing createdAt bundle name icon).2 ∈
        (bumpInTx store existing createdAt bundle name icon).1.items ∧
      Raised existing (bumpInTx store existing createdAt bundle name icon).2 ∧
      (bumpInTx store existing createdAt bundle name icon).2.createdAt ≤ maxStamp ∧
      ∀ row : ItemRow, row.id = existing.id → Room store row →
        Room (bumpInTx store existing createdAt bundle name icon).1 row := by
  have hok := h.rows existing hexisting
  unfold bumpInTx
  split
  · exact ⟨h, hexisting, Raised.refl existing, hok.stamp, fun row _ hroom => hroom⟩
  · rename_i hlater
    have hraised : Raised existing { existing with
        createdAt, appBundleId := bundle, appName := name, sourceIconId := icon } :=
      ⟨rfl, rfl, rfl, rfl, rfl, rfl, (not_le.1 hlater).le⟩
    dsimp only
    rw [writeRow_eq]
    by_cases hroom : Room store { existing with
        createdAt, appBundleId := bundle, appName := name, sourceIconId := icon }
    · rw [if_pos hroom]
      refine ⟨StoreOk.replace h (hok.raised hraised hstamp), mem_replaced hexisting rfl, hraised,
        hstamp, fun row hid hfree => room_replaced hfree hid⟩
    · rw [if_neg hroom]
      exact ⟨h, hexisting, Raised.refl existing, hok.stamp, fun row _ hfree => hfree⟩

/-- What a capture leaves: a live row of its representation in a sound history. -/
structure Captured (sys : System) (seen : List Version) (item : Capture) (store : Store)
    (row : ItemRow) : Prop where
  sound : StoreOk sys seen store
  held : row ∈ store.items
  live : row.deleted = false
  contentHash : row.contentHash = item.contentHash
  contentType : row.contentType = item.contentType

def captureIcon (host : Host) (store : Store) (item : Capture) : Option String :=
  (normalise host store.icons item.appBundleId item.contentType item.createdAt
    item.payloadMetadata).2.1

def captureKey (host : Host) (item : Capture) : VersionKey :=
  versionKey item.createdAt item.contentHash false (originOr "" host.here)

/-- The row that has the content, raised to the capture. -/
def raisedRow (host : Host) (store : Store) (item : Capture) (existing : ItemRow) : ItemRow :=
  (bumpInTx store existing item.createdAt item.appBundleId item.appName
    (captureIcon host store item)).2

/-- A row that has the content finds room where its restrictions restamp it; without
one, no row has the id of the capture, and the id had no newer version. -/
structure Admits (sys : System) (seen : List Version) (store : Store) (item : Capture) : Prop where
  refreshes : ∀ existing,
    newestLiveWithRepresentation store item.contentHash item.contentType = some existing →
    ∀ refreshed, refreshedRow sys.host (raisedRow sys.host store item existing)
        (item.privacy sys.host) (item.credentials sys.host) (item.indexed sys.host) =
      some refreshed → Room store refreshed
  inserts : newestLiveWithRepresentation store item.contentHash item.contentType = none →
    (∀ row ∈ store.items, row.id ≠ item.id) ∧
      ∀ version ∈ seen, version.id = item.id →
        Version.key sys.host version ≤ captureKey sys.host item

theorem bumpInTx_icons (store : Store) (icons : List IconRow) (existing : ItemRow)
    (createdAt : Int) (bundle name icon : Option String) :
    (bumpInTx { store with icons := icons } existing createdAt bundle name icon).2 =
      (bumpInTx store existing createdAt bundle name icon).2 := by
  unfold bumpInTx
  split
  · rfl
  · dsimp only
    rw [writeRow_eq, writeRow_eq]
    by_cases hroom : Room store { existing with
        createdAt, appBundleId := bundle, appName := name, sourceIconId := icon }
    · rw [if_pos hroom, if_pos (show Room { store with icons := icons } _ from hroom)]
    · rw [if_neg hroom, if_neg (show ¬ Room { store with icons := icons } _ from hroom)]

theorem bumpExisting_ok (h : StoreOk sys seen store) {item : Capture}
    (hstamp : item.createdAt ≤ maxStamp) {existing : ItemRow} (hexisting : existing ∈ store.items)
    (hlive : existing.deleted = false) (hhash : existing.contentHash = item.contentHash)
    (htype : existing.contentType = item.contentType) (icon : Option String)
    (hroom : ∀ refreshed, refreshedRow sys.host
        (bumpInTx store existing item.createdAt item.appBundleId item.appName icon).2
        (item.privacy sys.host) (item.credentials sys.host) (item.indexed sys.host) =
      some refreshed → Room store refreshed) :
    ∃ store' ingested changed,
      bumpExisting sys.host store item existing icon = .ok (store', ingested, changed) ∧
        Captured sys seen item store' ingested.intoItem := by
  obtain ⟨hstore, hmem, hraised, hbound, hkeeps⟩ :=
    bumpInTx_spec h hexisting hstamp item.appBundleId item.appName icon
  unfold bumpExisting refreshPrivacy
  dsimp only
  generalize bumpInTx store existing item.createdAt item.appBundleId item.appName icon = bumped
    at hstore hmem hraised hbound hkeeps hroom ⊢
  cases hrefresh : refreshedRow sys.host bumped.2 (item.privacy sys.host)
      (item.credentials sys.host) (item.indexed sys.host) with
  | none =>
    refine ⟨_, _, _, rfl, StoreOk.icons hstore _, hmem, hraised.deleted.trans hlive,
      hraised.contentHash.trans hhash, hraised.contentType.trans htype⟩
  | some refreshed =>
    obtain ⟨hagain, hlater⟩ := refreshedRow_raises hbound hrefresh
    have hboth := hraised.trans hagain
    have hfree := hkeeps refreshed hboth.id (hroom refreshed hrefresh)
    dsimp only
    rw [writeRow_eq, if_pos hfree]
    refine ⟨_, _, _, rfl, StoreOk.icons (StoreOk.replace hstore ?_) _, ?_,
      hboth.deleted.trans hlive, hboth.contentHash.trans hhash, hboth.contentType.trans htype⟩
    · exact (hstore.rows _ hmem).raised hagain hlater
    · exact mem_replaced hmem hagain.id.symm

theorem rowOk_capture {item : Capture} (hid : isRecordId item.id = false)
    (hstamp : item.createdAt ≤ maxStamp)
    (hopens : ∃ bytes, openPayload sys item.contentType item.id item.payload = some bytes ∧
      sys.host.sha256 bytes = item.contentHash)
    (hnewest : ∀ version ∈ seen, version.id = item.id →
      Version.key sys.host version ≤ captureKey sys.host item) (metadata icon : Option String) :
    RowOk sys seen (item.row metadata icon) :=
  ⟨hid, hstamp, fun _ => hopens, hnewest⟩

/-- A capture that the history admits is in it. -/
theorem insertOrBump_ok (h : StoreOk sys seen store) (item : Capture)
    (hid : isRecordId item.id = false) (hstamp : item.createdAt ≤ maxStamp)
    (hopens : ∃ bytes, openPayload sys item.contentType item.id item.payload = some bytes ∧
      sys.host.sha256 bytes = item.contentHash) (hadmits : Admits sys seen store item) :
    ∃ store' ingested changed,
      insertOrBump sys.host store item = .ok (store', ingested, changed) ∧
        Captured sys seen item store' ingested.intoItem := by
  cases hnormal : normalise sys.host store.icons item.appBundleId item.contentType
    item.createdAt item.payloadMetadata with
  | mk metadata rest =>
    obtain ⟨icon, icons⟩ := rest
    have hicon : captureIcon sys.host store item = icon := by
      unfold captureIcon
      rw [hnormal]
    have hsame : newestLiveWithRepresentation { store with icons := icons } item.contentHash
        item.contentType = newestLiveWithRepresentation store item.contentHash item.contentType :=
      rfl
    unfold insertOrBump
    rw [hnormal]
    dsimp only
    rw [hsame]
    cases hfound : newestLiveWithRepresentation store item.contentHash item.contentType with
    | some existing =>
      obtain ⟨hmem, hhash, htype, hlive⟩ := newestLive_eq_some hfound
      refine bumpExisting_ok (StoreOk.icons h icons) hstamp hmem hlive hhash htype icon ?_
      intro refreshed hrefreshed
      rw [bumpInTx_icons, ← hicon] at hrefreshed
      exact hadmits.refreshes existing hfound refreshed hrefreshed
    | none =>
      obtain ⟨hfresh, hnewest⟩ := hadmits.inserts hfound
      have hinsert : insertRow { store with icons := icons } (item.row metadata icon) =
          .ok { store with items := store.items ++ [item.row metadata icon], icons := icons } := by
        unfold insertRow
        rw [if_neg]
        rw [List.any_eq_true]
        rintro ⟨other, hother, htaken⟩
        rw [Bool.or_eq_true, decide_eq_true_eq] at htaken
        rcases htaken with hid | hcollides
        · exact hfresh other hother hid
        · rw [collides_of_none (item.row metadata icon) hfound other hother] at hcollides
          cases hcollides
      dsimp only
      rw [hinsert]
      refine ⟨_, _, _, rfl, StoreOk.append h ?_ hfresh icons, ?_, rfl, rfl, rfl⟩
      · exact rowOk_capture hid hstamp hopens hnewest metadata icon
      · exact List.mem_append_right _ List.mem_cons_self

theorem FilesOk.nothing (hlaws : Laws sys) (h : FilesOk sys disk) :
    disk.files.bodies.partsOf (sys.host.sha256 []) = [] := by
  rcases h.blobs (sys.host.sha256 []) with hnone | ⟨bytes, hstored, hdigest⟩
  · exact hnone
  · obtain rfl := hlaws.empty bytes hdigest
    have hindices := hstored.1
    rw [List.length_nil, count_zero (by decide), List.range_zero, List.map_eq_nil_iff] at hindices
    exact hindices

/-- The body of an item that has none yet is accepted when it is read as it was announced. -/
theorem attachBody_ok (hlaws : Laws sys) (h : DiskOk sys seen disk) {sha256 : String} {size : Nat}
    (nonces : Nat → List UInt8) (hrow : ∃ row ∈ disk.store.items, row.id = id)
    (howner : ∀ owner ∈ disk.files.bodies.owners, owner.1 ≠ id) (hwhole : Whole reader)
    (hreads : Reads reader) (hsha : sys.host.sha256 (delivered reader) = sha256)
    (hsize : (delivered reader).length = size)
    (hunforged : ∀ other, sys.host.sha256 other = sha256 → other = delivered reader) :
    ∃ disk', attachBody sys.host sys.vault disk id reader size sha256 nonces = .ok disk' ∧
      DiskOk sys seen disk' ∧ disk'.store = disk.store := by
  have hblob : disk.files.bodies.partsOf sha256 = [] ∨
      Stored sys.vault disk.files.bodies sha256 (delivered reader) := by
    refine (h.files.blobs sha256).imp_right ?_
    rintro ⟨bytes, hstored, hdigest⟩
    rw [← hunforged bytes hdigest]
    exact hstored
  have hnumbered : ∃ k, (disk.files.bodies.partsOf sha256).map Chunk.index = List.range k := by
    rcases hblob with hnone | hstored
    · exact ⟨0, by simp [hnone]⟩
    · exact ⟨_, hstored.1⟩
  obtain ⟨bodies, hwrite⟩ := writeBody_ok nonces hwhole hreads hsha hsize hblob
  obtain ⟨added, rfl, -, hstored, -, -⟩ := writeBody_stored hlaws.chunks hwhole hnumbered
    (FilesOk.nothing hlaws h.files) hwrite
  have hlookup : (lookup ItemRow.id disk.store.items id).isNone = false := by
    rw [Option.isNone_eq_false_iff, Option.isSome_iff_ne_none, Ne, lookup_eq_none_iff]
    obtain ⟨row, hmem, hid⟩ := hrow
    exact fun hnone => hnone row hmem hid
  have hfree : (disk.files.bodies.owners.any fun owner => owner.1 = id) = false := by
    rw [List.any_eq_false]
    intro owner hmem
    simpa using howner owner hmem
  unfold attachBody
  rw [hwrite]
  simp only [bind, Except.bind, hlookup, hfree, Bool.false_eq_true, or_self, if_false]
  refine ⟨_, rfl, ⟨h.store, ?_, h.files.references, ?_⟩, rfl⟩
  · intro owner hmem
    rcases List.mem_append.1 hmem with hold | hnew
    · exact h.files.owners owner hold
    · obtain rfl := List.mem_singleton.1 hnew
      exact hrow
  · intro blob
    by_cases hsame : blob = sha256
    · subst hsame
      exact Or.inr ⟨_, hstored, hsha⟩
    · have hparts := Files.Complete.partsOf_append_of_ne disk.files.bodies hsame added
      rcases h.files.blobs blob with hnone | ⟨bytes, hother, hdigest⟩
      · exact Or.inl (hparts.trans hnone)
      · refine Or.inr ⟨bytes, ⟨?_, ?_⟩, hdigest⟩
        · exact (congrArg (List.map Chunk.index) hparts).trans hother.1
        intro part hpart
        have hmem : part ∈ disk.files.bodies.partsOf blob := by
          rw [← hparts]
          exact hpart
        exact hother.2 part hmem

theorem offerItem_fields (h : offerItem host vault file transfer = .ok item) :
    item.contentHash = host.sha256 (vault.renderTransfer transfer) ∧
      item.createdAt = file.createdAt ∧
      (∃ rest, item.id = importIdHead ++ rest ∨ item.id = "file-offer-" ++ rest) ∧
      (file.explicit = true → item.id = importIdHead ++ file.uuid) := by
  unfold offerItem at h
  simp only at h
  split at h
  · cases h
  · obtain rfl := Except.ok.inj h
    cases hexplicit : file.explicit with
    | true => exact ⟨rfl, rfl, ⟨_, Or.inl rfl⟩, fun _ => rfl⟩
    | false => exact ⟨rfl, rfl, ⟨_, Or.inr rfl⟩, fun hfalse => by cases hfalse⟩

theorem isRecordId_file (rest : String) :
    isRecordId (importIdHead ++ rest) = false ∧ isRecordId ("file-offer-" ++ rest) = false := by
  unfold isRecordId startsWith
  rw [String.toList_append, String.toList_append]
  exact ⟨rfl, rfl⟩

/-- What is offered passes the check of its metadata. -/
theorem isValid_of_offerItem (h : offerItem host vault file transfer = .ok item) :
    transfer.isValid = true := by
  unfold offerItem at h
  dsimp only at h
  split at h
  · cases h
  · rename_i metadata hmetadata
    exact Files.Complete.isValid_of_toJson hmetadata rfl rfl

theorem rowOk_offer (hlaws : Laws sys) (seen : List Version)
    (hitem : offerItem sys.host sys.vault file transfer = .ok item)
    (hstamp : file.createdAt ≤ maxStamp) (hnewest : ∀ version ∈ seen, version.id = item.id →
      Version.key sys.host version ≤ Version.key sys.host item.row.toVersion) :
    RowOk sys seen item.row ∧
      openRow sys item.row = some (sys.vault.renderTransfer transfer) := by
  obtain ⟨hkind, hciphertext, -, -⟩ := Files.Complete.offerItem_eq_ok hitem
  obtain ⟨hhash, hcreated, ⟨rest, hid⟩, -⟩ := offerItem_fields hitem
  have hvalid := isValid_of_offerItem hitem
  have hopen : openRow sys item.row = some (sys.vault.renderTransfer transfer) := by
    unfold openRow openPayload
    have htext : isText item.row.contentType = false := by
      rw [show item.row.contentType = fileType from hkind]
      decide
    rw [show item.row.payload = some ([], item.ciphertext) from rfl, Option.bind_some, if_neg
      (by rw [htext]; simp), hciphertext]
    exact hlaws.offers _ _ _ hvalid
  refine ⟨⟨?_, ?_, fun _ => ⟨_, hopen, hhash.symm⟩, hnewest⟩, hopen⟩
  · show isRecordId item.id = false
    rcases hid with hid | hid
    · rw [hid]
      exact (isRecordId_file rest).1
    · rw [hid]
      exact (isRecordId_file rest).2
  · show item.createdAt ≤ maxStamp
    rw [hcreated]
    exact hstamp

theorem insertRow_of_room (hfresh : ∀ other ∈ store.items, other.id ≠ row.id)
    (hroom : Room store row) :
    insertRow store row = .ok { store with items := store.items ++ [row] } := by
  unfold insertRow
  rw [if_neg]
  rw [List.any_eq_true]
  rintro ⟨other, hother, htaken⟩
  rw [Bool.or_eq_true, decide_eq_true_eq] at htaken
  rcases htaken with hid | hcollides
  · exact hfresh other hother hid
  · rw [hroom other hother (hfresh other hother)] at hcollides
    cases hcollides

/-- The index does not cover imported items. -/
theorem collides_import {rest : String} (hid : row.id = importIdHead ++ rest) (other : ItemRow) :
    collides row other = false := by
  have hcovered : importIdHead.toList.isPrefixOf (row.id.toList.map Char.toLower) = true := by
    rw [hid, String.toList_append, List.map_append,
      show importIdHead.toList.map Char.toLower = importIdHead.toList by decide,
      List.isPrefixOf_iff_prefix]
    exact List.prefix_append _ _
  unfold collides ItemRow.dedupKey Merge.Storage.dedupKey
  rw [hcovered]
  simp

theorem lookup_of_id {items : List ItemRow} (hnodup : (items.map ItemRow.id).Nodup)
    (h : row ∈ items) (hid : row.id = id) : lookup ItemRow.id items id = some row :=
  hid ▸ lookup_of_mem hnodup h

theorem insertOffer_ok (hlaws : Laws sys) (h : DiskOk sys seen disk)
    (hrow : RowOk sys seen item.row) (hfresh : ∀ other ∈ disk.store.items, other.id ≠ item.id)
    (hroom : Room disk.store item.row) {size : Nat} {sha256 : String} (nonces : Nat → List UInt8)
    (hwhole : Whole reader) (hreads : Reads reader)
    (hsha : sys.host.sha256 (delivered reader) = sha256) (hsize : (delivered reader).length = size)
    (hunforged : ∀ other, sys.host.sha256 other = sha256 → other = delivered reader) :
    ∃ disk', (do
        let store ← insertRow disk.store item.row
        attachBody sys.host sys.vault (disk.settle store) item.id reader size sha256 nonces) =
          .ok disk' ∧ DiskOk sys seen disk' ∧ liveRow disk'.store item.id = some item.row := by
  have hstore : StoreOk sys seen { disk.store with items := disk.store.items ++ [item.row] } :=
    StoreOk.append h.store hrow hfresh disk.store.icons
  have hmem : item.row ∈ disk.store.items ++ [item.row] :=
    List.mem_append_right _ List.mem_cons_self
  have howner : ∀ owner ∈ (disk.settle { disk.store with
      items := disk.store.items ++ [item.row] }).files.bodies.owners, owner.1 ≠ item.id := by
    intro owner howner
    rw [(bodies_settle disk _).2, List.mem_filter] at howner
    obtain ⟨row, hheld, hid⟩ := h.files.owners owner howner.1
    exact hid ▸ hfresh row hheld
  have hfound : lookup ItemRow.id (disk.store.items ++ [item.row]) item.id = some item.row :=
    lookup_of_id hstore.wf.items hmem rfl
  rw [insertRow_of_room hfresh hroom]
  obtain ⟨disk', hattach, hok, hsame⟩ := attachBody_ok hlaws
    (h.settle hstore) nonces ⟨item.row, hmem, rfl⟩ howner hwhole hreads hsha hsize hunforged
  refine ⟨disk', hattach, hok, ?_⟩
  rw [hsame]
  show Option.filter _ (lookup ItemRow.id (disk.store.items ++ [item.row]) item.id) = some item.row
  rw [hfound]
  rfl

/-- What the body of an import has to be read as. -/
structure ReadAs (sys : System) (file : Import) (transfer : FileTransfer) : Prop where
  whole : Whole file.second
  reads : Reads file.second
  digest : sys.host.sha256 (delivered file.second) = transfer.sha256
  size : (delivered file.second).length = transfer.sizeBytes
  unforged : ∀ other, sys.host.sha256 other = transfer.sha256 → other = delivered file.second

/-- An offer that is in the history already has the row of its id, and room to rise; one
that is not meets no other row in its minute, and its id had no newer version. -/
structure Offers (sys : System) (seen : List Version) (store : Store) (item : NewItem) : Prop where
  held : ∀ row, liveRow store item.id = some row →
    row.contentHash = item.contentHash ∧ row.contentType = item.contentType ∧
      row.createdAt < maxStamp ∧ Room store (recapturedRow sys.host item row)
  arrives : liveRow store item.id = none → Room store item.row ∧
    ∀ version ∈ seen, version.id = item.id →
      Version.key sys.host version ≤ Version.key sys.host item.row.toVersion

/-- A restamped row above the one it was. -/
theorem succ_bounds {created : Int} (hstamp : stamp < maxStamp) (hcreated : created ≤ maxStamp) :
    stamp ≤ max (stamp + 1) created ∧ max (stamp + 1) created ≤ maxStamp := by
  omega

theorem liveRow_replaced {row' : ItemRow} (h : liveRow store id = some row) (hid : row'.id = row.id)
    (hlive : row'.deleted = row.deleted) : liveRow (replaced store row') id = some row' := by
  obtain ⟨hlookup, hrowId, hdeleted⟩ := Files.Complete.liveRow_eq_some h
  unfold liveRow replaced
  rw [Files.Complete.lookup_update, hlookup, Option.map_some, if_pos (hrowId.symm.trans hid.symm),
    Option.filter_some]
  rw [if_pos (by simp [hlive, hdeleted])]

theorem mem_of_liveRow (h : liveRow store id = some row) :
    row ∈ store.items ∧ row.id = id ∧ row.deleted = false := by
  obtain ⟨hlookup, hid, hlive⟩ := Files.Complete.liveRow_eq_some h
  exact ⟨(lookup_eq_some hlookup).1, hid, hlive⟩

/-- A file copied in is offered by the live row of its id. -/
theorem insertFileTransfer_ok (hlaws : Laws sys) (h : DiskOk sys seen disk)
    (hitem : offerItem sys.host sys.vault file transfer = .ok item)
    (hstamp : file.createdAt ≤ maxStamp) (hread : ReadAs sys file transfer)
    (hfresh : file.explicit = true → (∀ row ∈ disk.store.items, row.id ≠ item.id) ∧
      ∀ version ∈ seen, version.id ≠ item.id)
    (hoffers : file.explicit = false → Offers sys seen disk.store item) :
    ∃ disk' row, insertFileTransfer sys.host sys.vault disk item file.second transfer.sizeBytes
        transfer.sha256 file.nonces file.explicit = .ok disk' ∧ DiskOk sys seen disk' ∧
      liveRow disk'.store item.id = some row ∧ row.contentHash = item.contentHash ∧
        row.contentType = item.contentType := by
  obtain ⟨-, hcreated, -, himport⟩ := offerItem_fields hitem
  unfold insertFileTransfer
  cases hexplicit : file.explicit with
  | true =>
    obtain ⟨hrows, hseen⟩ := hfresh hexplicit
    have hroom : Room disk.store item.row := fun other _ _ =>
      collides_import (himport hexplicit) other
    obtain ⟨hrow, -⟩ := rowOk_offer hlaws seen hitem hstamp fun version hversion hid =>
      absurd hid (hseen version hversion)
    obtain ⟨disk', hinsert, hok, hlive⟩ := insertOffer_ok hlaws h hrow hrows hroom
      file.nonces hread.whole hread.reads hread.digest hread.size hread.unforged
    have hnone : (liveRow disk.store item.id).filter (fun _ => !true) = none := by
      cases liveRow disk.store item.id <;> rfl
    rw [hnone]
    exact ⟨disk', item.row, hinsert, hok, hlive, rfl, rfl⟩
  | false =>
    obtain ⟨hheld, harrives⟩ := hoffers hexplicit
    cases hlive : liveRow disk.store item.id with
    | some row =>
      obtain ⟨hhash, hkind, hbelow, hroom⟩ := hheld row hlive
      obtain ⟨hmem, hid, -⟩ := mem_of_liveRow hlive
      have hbounds := succ_bounds hbelow (hcreated ▸ hstamp : item.createdAt ≤ maxStamp)
      have hraised : Raised row (recapturedRow sys.host item row) :=
        ⟨rfl, rfl, rfl, rfl, rfl, rfl, hbounds.1⟩
      have hstore := StoreOk.replace h.store
        ((h.store.rows row hmem).raised hraised hbounds.2)
      refine ⟨disk.settle (replaced disk.store (recapturedRow sys.host item row)), _, ?_,
        h.settle hstore, liveRow_replaced hlive rfl rfl, hhash, hkind⟩
      simp only [Option.filter_some, Bool.not_false, if_true]
      unfold recapture
      rw [updateRow_eq, if_pos hroom]
      rfl
    | none =>
      obtain ⟨hroom, hnewest⟩ := harrives hlive
      obtain ⟨hrow, -⟩ := rowOk_offer hlaws seen hitem hstamp hnewest
      have hbase : StoreOk sys seen { disk.store with
          items := disk.store.items.filter fun row => ¬ (row.id = item.id ∧ row.deleted) } :=
        h.store.exchange rfl (h.store.wf.items.sublist (List.filter_sublist.map _))
          fun row hrow => h.store.rows row (List.mem_filter.1 hrow).1
      have hmissing : ∀ row ∈ disk.store.items.filter
          (fun row => ¬ (row.id = item.id ∧ row.deleted)), row.id ≠ item.id := by
        intro row hmem hid
        obtain ⟨hin, hkept⟩ := List.mem_filter.1 hmem
        rw [decide_eq_true_eq] at hkept
        refine hkept ⟨hid, ?_⟩
        unfold liveRow at hlive
        rw [lookup_of_id h.store.wf.items hin hid] at hlive
        simpa [Option.filter_some] using hlive
      obtain ⟨disk', hinsert, hok, hfound⟩ := insertOffer_ok hlaws (h.settle hbase) hrow hmissing
        (fun other hother hid => hroom other (List.mem_filter.1 hother).1 hid)
        file.nonces hread.whole hread.reads hread.digest hread.size hread.unforged
      refine ⟨disk', item.row, ?_, hok, hfound, rfl, rfl⟩
      simp only [Option.filter_none, Bool.false_eq_true, if_false]
      exact hinsert

/-- A statement that keeps the payloads keeps the references. -/
theorem references_replaced (hnodup : (disk.store.items.map ItemRow.id).Nodup)
    (hmem : row ∈ disk.store.items) (row' : ItemRow) (hid : row'.id = row.id)
    (hpayload : row'.payload = row.payload) :
    (disk.settle (replaced disk.store row')).files.references = disk.files.references := by
  have hsame : ∀ id, contentCiphertext (replaced disk.store row') id =
      contentCiphertext disk.store id := by
    intro id
    unfold contentCiphertext replaced
    rw [Files.Complete.lookup_update, Option.map_map]
    cases hold : lookup ItemRow.id disk.store.items id with
    | none => rfl
    | some old =>
      rw [Option.map_some, Option.map_some, Function.comp_apply]
      split
      · rename_i hkey
        have hrow := lookup_of_id hnodup hmem (hid.symm.trans hkey.symm)
        obtain rfl : row = old := Option.some.inj (hrow.symm.trans hold)
        rw [hpayload]
      · rfl
  rw [references_settle, List.filter_eq_self]
  intro held _
  rw [decide_eq_true_eq, mem_changed]
  exact fun hchanged => hchanged.2 (hsame held.itemId)

/-- Whether an item refers to a file as it is. -/
def Refers (disk : Disk) (id : String) (file : Reference) : Prop :=
  ∃ held ∈ disk.files.references, held.itemId = id ∧ held.reference = file.reference ∧
    held.sizeBytes = file.sizeBytes ∧ held.modified = file.modified

theorem referringItem_eq_some {file : Reference} (h : referringItem disk file = some row) :
    row ∈ disk.store.items ∧ row.deleted = false ∧ Refers disk row.id file := by
  have hmem := newest_mem h
  rw [List.mem_filter, decide_eq_true_eq] at hmem
  exact hmem

/-- A file that is referred to is in the history, as a new row or as the one that refers
to it already. -/
theorem insertFileReference_ok (h : DiskOk sys seen disk) (file : Reference) (deduplicate : Bool)
    (hrow : RowOk sys seen item.row) (hfresh : ∀ row ∈ disk.store.items, row.id ≠ item.id)
    (hroom : Room disk.store item.row)
    (hrecopies : deduplicate = true → ∀ row, referringItem disk file = some row →
      row.createdAt < maxStamp ∧ Room disk.store (recopiedRow sys.host item row)) :
    ∃ disk' ingested, insertFileReference sys.host disk item file deduplicate =
        .ok (disk', ingested) ∧ DiskOk sys seen disk' ∧
      ingested.intoItem ∈ disk'.store.items ∧ ingested.intoItem.deleted = false ∧
      Refers disk' ingested.intoItem.id file := by
  unfold insertFileReference
  split
  · rename_i row hfound
    obtain ⟨hreferring, hdeduplicate⟩ := Option.filter_eq_some_iff.1 hfound
    obtain ⟨hbelow, hfree⟩ := hrecopies hdeduplicate row hreferring
    obtain ⟨hmem, hlive, hrefers⟩ := referringItem_eq_some hreferring
    have hbounds := succ_bounds hbelow hrow.stamp
    have hraised : Raised row (recopiedRow sys.host item row) :=
      ⟨rfl, rfl, rfl, rfl, rfl, rfl, hbounds.1⟩
    have hstore := StoreOk.replace h.store ((h.store.rows row hmem).raised hraised hbounds.2)
    simp only [writeRow_eq, if_pos hfree]
    refine ⟨_, _, rfl, h.settle hstore, mem_replaced hmem rfl, hlive, ?_⟩
    unfold Refers
    rw [references_replaced h.store.wf.items hmem (recopiedRow sys.host item row) rfl rfl]
    exact hrefers
  · have hstore := StoreOk.append h.store hrow hfresh disk.store.icons
    have hnone : (disk.files.references.any fun held => held.itemId = item.id) = false := by
      rw [List.any_eq_false]
      intro held hheld
      obtain ⟨row, hmem, hid⟩ := h.files.references held hheld
      simpa [← hid] using hfresh row hmem
    have hmem : item.row ∈ disk.store.items ++ [item.row] :=
      List.mem_append_right _ List.mem_cons_self
    have hdone := h.settle hstore
    rw [insertRow_of_room hfresh hroom]
    simp only [Except.mapError, bind, Except.bind, hnone, Bool.false_eq_true, if_false]
    refine ⟨_, _, rfl, ⟨hdone.store, hdone.files.owners, ?_, hdone.files.blobs⟩, hmem, rfl,
      ⟨_, List.mem_append_right _ List.mem_cons_self, rfl, rfl, rfl, rfl⟩⟩
    intro held hheld
    rcases List.mem_append.1 hheld with hold | hnew
    · exact hdone.files.references held hold
    · obtain rfl := List.mem_singleton.1 hnew
      exact ⟨item.row, hmem, rfl⟩

theorem copiedStamp_bounds (h : StoreOk sys seen store) (hrow : row.createdAt ≤ maxStamp)
    {copiedAt : Int} (hcopied : copiedAt ≤ maxStamp) :
    row.createdAt ≤ copiedStamp store row copiedAt ∧ copiedStamp store row copiedAt ≤ maxStamp := by
  obtain ⟨hforward, hbound⟩ := saturatingSucc_bounds hrow
  unfold copiedStamp
  cases htop : newest (store.items.filter fun row => row.deleted = false ∧ row.pinned = false) with
  | none =>
    dsimp only
    omega
  | some top =>
    have hmem := (List.mem_filter.1 (newest_mem htop)).1
    obtain ⟨-, htopBound⟩ := saturatingSucc_bounds (h.rows top hmem).stamp
    dsimp only
    omega

/-- Promoting an item fails on the index exactly when its new minute has another row. -/
theorem promoteCopied_eq (h : StoreOk sys seen store) (id : String) {copiedAt : Int}
    (hcopied : copiedAt ≤ maxStamp) :
    (promoteCopied store id copiedAt ≠ .error .constraint ↔
      ∀ row, liveRow store id = some row →
        Room store { row with createdAt := copiedStamp store row copiedAt }) ∧
    ∀ after answer, promoteCopied store id copiedAt = .ok (after, answer) →
      StoreOk sys seen after := by
  unfold promoteCopied
  cases hlive : liveRow store id with
  | none =>
    refine ⟨by simp, ?_⟩
    intro after answer hok
    obtain ⟨rfl, -⟩ := Prod.mk.inj (Except.ok.inj hok)
    exact h
  | some row =>
    obtain ⟨hmem, -, -⟩ := mem_of_liveRow hlive
    have hbounds := copiedStamp_bounds h (h.rows row hmem).stamp hcopied
    simp only [writeRow_eq]
    by_cases hroom : Room store { row with createdAt := copiedStamp store row copiedAt }
    · rw [if_pos hroom]
      refine ⟨by simpa [bind, Except.bind, pure, Except.pure] using hroom, ?_⟩
      intro after answer hok
      obtain ⟨rfl, -⟩ := Prod.mk.inj (Except.ok.inj hok)
      exact StoreOk.replace h ((h.rows row hmem).raised
        ⟨rfl, rfl, rfl, rfl, rfl, rfl, hbounds.1⟩ hbounds.2)
    · rw [if_neg hroom]
      refine ⟨by simpa [bind, Except.bind] using hroom, ?_⟩
      intro after answer hok
      cases hok

theorem secretRow_raises {row' : ItemRow} {secret : Bool} (hrow : row.createdAt ≤ maxStamp)
    (hnow : now ≤ maxStamp) (h : secretRow host vault row secret now = .ok row') :
    Raised row row' ∧ row'.createdAt ≤ maxStamp := by
  obtain ⟨hforward, hbound⟩ := saturatingSucc_bounds hrow
  have hsucc : ∀ stamp : Int, saturatingSucc stamp ≤ maxStamp := by
    have hmax : maxStamp = 2 ^ 63 - 1 := rfl
    intro stamp
    unfold saturatingSucc
    omega
  have hstamp : row.createdAt ≤ choiceStamp host row now ∧
      choiceStamp host row now ≤ maxStamp := by
    unfold choiceStamp
    cases (parsedMetadata host row).bind PayloadMetadata.secretOverride with
    | none =>
      have hmax : maxStamp = 2 ^ 63 - 1 := rfl
      simp only [Option.elim_none]
      omega
    | some choice =>
      have hchoice := hsucc choice.updatedAt
      simp only [Option.elim_some]
      omega
  unfold secretRow at h
  dsimp only at h
  split at h
  · cases h
  · split at h
    · cases h
    · obtain rfl := Except.ok.inj h
      exact ⟨⟨rfl, rfl, rfl, rfl, rfl, rfl, hstamp.1⟩, hstamp.2⟩

/-- So does a choice about secrecy, once its metadata is in order. -/
theorem setSecret_eq (h : StoreOk sys seen store) (id : String) (secret : Bool)
    (hnow : now ≤ maxStamp) :
    (Ingest.setSecret sys.host sys.vault store id secret now ≠ .error .constraint ↔
      ∀ row row', liveRow store id = some row →
        secretRow sys.host sys.vault row secret now = .ok row' → Room store row') ∧
    ∀ after answer, Ingest.setSecret sys.host sys.vault store id secret now = .ok (after, answer) →
      StoreOk sys seen after := by
  unfold Ingest.setSecret
  cases hlive : liveRow store id with
  | none =>
    refine ⟨by simp, ?_⟩
    intro after answer hok
    obtain ⟨rfl, -⟩ := Prod.mk.inj (Except.ok.inj hok)
    exact h
  | some row =>
    obtain ⟨hmem, -, -⟩ := mem_of_liveRow hlive
    cases hsecret : secretRow sys.host sys.vault row secret now with
    | error e =>
      have hinvalid : e = .invalidPayload := by
        unfold secretRow at hsecret
        dsimp only at hsecret
        split at hsecret
        · exact (Except.error.inj hsecret).symm
        · split at hsecret
          · exact (Except.error.inj hsecret).symm
          · cases hsecret
      subst hinvalid
      simp only [hsecret, bind, Except.bind]
      refine ⟨⟨fun _ other row' hother hrow' => ?_, fun _ => by simp⟩, fun after answer hok => ?_⟩
      · obtain rfl := Option.some.inj hother
        rw [hsecret] at hrow'
        cases hrow'
      · cases hok
    | ok row' =>
      obtain ⟨hraised, hbound⟩ := secretRow_raises (h.rows row hmem).stamp hnow hsecret
      have hrooms : (∀ other other', some row = some other →
          secretRow sys.host sys.vault other secret now = .ok other' → Room store other') ↔
            Room store row' := by
        constructor
        · exact fun hall => hall row row' rfl hsecret
        · intro hroom other other' hother hother'
          obtain rfl := Option.some.inj hother
          obtain rfl := Except.ok.inj (hsecret.symm.trans hother')
          exact hroom
      simp only [hsecret, bind, Except.bind, writeRow_eq]
      rw [hrooms]
      by_cases hroom : Room store row'
      · rw [if_pos hroom]
        refine ⟨by simpa [pure, Except.pure] using hroom, ?_⟩
        intro after answer hok
        obtain ⟨rfl, -⟩ := Prod.mk.inj (Except.ok.inj hok)
        exact StoreOk.replace h ((h.rows row hmem).raised hraised hbound)
      · rw [if_neg hroom]
        refine ⟨by simpa using hroom, ?_⟩
        intro after answer hok
        cases hok

/-- No row has an id, and none ever had. -/
def Fresh (s : State) (id : String) : Prop :=
  (∀ row ∈ s.disk.store.items, row.id ≠ id) ∧ ∀ version ∈ s.seen, version.id ≠ id

/-- No other content has the digest of this one. -/
def Unforged (sys : System) (bytes : List UInt8) : Prop :=
  ∀ other, sys.host.sha256 other = sys.host.sha256 bytes → other = bytes

/-- What an operation is given: texts of a type that is text, stamps of 64 bits, identifiers
and source versions that were just drawn, contents without a collision, and files that stay
as they are while they are read. -/
def Given (sys : System) (s : State) : Op → Prop
  | .text content contentType id source _ _ =>
    isText contentType = true ∧ source.createdAt ≤ maxStamp ∧ isRecordId id = false ∧
      Fresh s id ∧ Unforged sys (utf8 content)
  | .binary bytes _ source _ => source.createdAt ≤ maxStamp ∧ Unforged sys bytes
  | .reference p _ =>
    p.createdAt ≤ maxStamp ∧ ∀ item, publishItem sys p = .ok item →
      Fresh s item.id ∧ ∀ row ∈ s.disk.store.items, row.contentHash ≠ item.contentHash
  | .importFile file _ =>
    file.createdAt ≤ maxStamp ∧ ∀ transfer item, importItem sys file = .ok (transfer, item) →
      ReadAs sys file transfer ∧ Unforged sys (sys.vault.renderTransfer transfer) ∧
        (file.explicit = true → Fresh s item.id)
  | .delete _ now => now ≤ maxStamp
  | .evict _ => True
  | .promote _ copiedAt => copiedAt ≤ maxStamp
  | .setSecret _ _ now => now ≤ maxStamp
  | .merge page => ∀ incoming ∈ page, incoming.1.createdAt ≤ maxStamp

/-- A restamped row meets no other row in its minute; no row, not even a tombstone, has
the id of a binary value that is not in the history; the row of an offer's id has the
offer; and what comes under an id without a row is no older than what the id had. -/
def Fits (sys : System) (s : State) : Op → Prop
  | .text content contentType id source _ _ =>
    ∀ metadata, encodePayloadMetadata sys.host sys.renderFile
        (classified sys.host content contentType source.metadata) contentType = .ok metadata →
      Admits sys s.seen s.disk.store (textCapture sys.host content contentType id source metadata)
  | .binary bytes contentType source _ =>
    ∀ metadata, encodePayloadMetadata sys.host sys.renderFile source.metadata contentType =
        .ok metadata →
      Admits sys s.seen s.disk.store
        (binaryCapture sys.host sys.vault bytes contentType source metadata)
  | .reference p _ =>
    ∀ item row, publishItem sys p = .ok item → p.explicit = false →
      referringItem s.disk p.file = some row →
      row.createdAt < maxStamp ∧ Room s.disk.store (recopiedRow sys.host item row)
  | .importFile file _ =>
    ∀ transfer item, importItem sys file = .ok (transfer, item) → file.explicit = false →
      Offers sys s.seen s.disk.store item
  | .delete _ _ => True
  | .evict _ => True
  | .promote id copiedAt =>
    ∀ row, liveRow s.disk.store id = some row →
      Room s.disk.store { row with createdAt := copiedStamp s.disk.store row copiedAt }
  | .setSecret id secret now =>
    ∀ row row', liveRow s.disk.store id = some row →
      secretRow sys.host sys.vault row secret now = .ok row' → Room s.disk.store row'
  | .merge page =>
    ∀ incoming ∈ page, (∀ row ∈ s.disk.store.items, row.id ≠ incoming.1.itemId) →
      ∀ version ∈ s.seen, version.id = incoming.1.itemId →
        Version.key sys.host version ≤ arrivalKey sys.host incoming.1

/-- The sweep that ends a capture spares the row it answers with. -/
def Spares (sys : System) (s : State) (op : Op) : Prop :=
  ∀ settings ∈ op.sweep, ∀ disk row, op.write sys s.disk = .ok (disk, some row) →
    row.id ∉ sys.evicted settings disk.store

def Clear (sys : System) (s : State) (op : Op) : Prop :=
  Fits sys s op ∧ Spares sys s op

/-- A capture that passes the checks of its own: its size and its metadata. -/
def Admitted (sys : System) : Op → Prop
  | .text content contentType _ source settings _ =>
    (trim content.toList).isEmpty = false ∧
      content.utf8ByteSize ≤ settings.captureLimitBytes contentType ∧
      ∃ metadata, encodePayloadMetadata sys.host sys.renderFile
        (classified sys.host content contentType source.metadata) contentType = .ok metadata
  | .binary bytes contentType source settings =>
    bytes ≠ [] ∧ isText contentType = false ∧
      bytes.length ≤ min (settings.captureLimitBytes contentType) Merge.Prepare.maxContentBytes ∧
      ∃ metadata, encodePayloadMetadata sys.host sys.renderFile source.metadata contentType =
        .ok metadata
  | .reference p _ => ∃ item, publishItem sys p = .ok item
  | .importFile file _ => ∃ answer, importItem sys file = .ok answer
  | _ => False

/-- The content of a capture, in the row it answers with. -/
def Leaves (sys : System) (disk : Disk) (row : ItemRow) : Op → Prop
  | .text content contentType _ _ _ _ =>
    row.contentType = contentType ∧ openRow sys row = some (utf8 content)
  | .binary bytes contentType _ _ =>
    row.contentType = contentType ∧ openRow sys row = some bytes
  | .reference p _ => Refers disk row.id p.file
  | .importFile file _ =>
    ∃ transfer item, importItem sys file = .ok (transfer, item) ∧ row.contentType = fileType ∧
      openRow sys row = some (sys.vault.renderTransfer transfer)
  | _ => True

/-- Every earlier version of the id loses to the row, but for the row's own. -/
def Beats (sys : System) (s : State) (row : ItemRow) : Prop :=
  ∀ version ∈ s.seen, version.id = row.id →
    mergeDecisionBySummary (storedSummary sys.host version)
        (storedSummary sys.host row.toVersion) = .takeRemote ∨
      Version.key sys.host version = Version.key sys.host row.toVersion

structure Good (sys : System) (s : State) (op : Op) : Prop where
  captured : Admitted sys op → ∃ disk row, op.run sys s.disk = .ok (disk, some row) ∧
    row ∈ disk.store.items ∧ row.deleted = false ∧ Leaves sys disk row op ∧ Beats sys s row
  conflict : ∀ failure, op.run sys s.disk = .error failure → failure.isConflict = false

theorem beats_of_newest {s : State} (h : RowOk sys s.seen row) : Beats sys s row := by
  intro version hversion hid
  have hkey : ∀ version : Version, (storedSummary sys.host version).key =
      Version.key sys.host version := fun _ => rfl
  rw [mergeDecisionBySummary_takeRemote_iff, hkey, hkey]
  exact lt_or_eq_of_le (h.newest version hversion hid)

theorem openRow_unforged (h : RowOk sys seen row) (hlive : row.deleted = false)
    (hhash : row.contentHash = sys.host.sha256 bytes) (hunforged : Unforged sys bytes) :
    openRow sys row = some bytes := by
  obtain ⟨other, hopen, hdigest⟩ := h.opens hlive
  rw [hunforged other (hdigest.trans hhash)] at hopen
  exact hopen

/-- What the write of an operation comes to in a sound history. -/
structure Comes (sys : System) (s : State) (op : Op) : Prop where
  captured : Admitted sys op → ∃ disk row, op.write sys s.disk = .ok (disk, some row) ∧
    row ∈ disk.store.items ∧ row.deleted = false ∧ Leaves sys disk row op ∧ Beats sys s row
  conflict : ∀ failure, op.write sys s.disk = .error failure → failure.isConflict = false
  kept : ∀ disk row, op.write sys s.disk = .ok (disk, row) → DiskOk sys s.seen disk

theorem comes_of_write {s : State} (disk : Disk) (row : ItemRow)
    (hwrite : op.write sys s.disk = .ok (disk, some row)) (hdisk : DiskOk sys s.seen disk)
    (hrow : row ∈ disk.store.items) (hlive : row.deleted = false)
    (hleaves : Leaves sys disk row op) : Comes sys s op := by
  refine ⟨fun _ => ⟨disk, row, hwrite, hrow, hlive, hleaves, ?_⟩, ?_, ?_⟩
  · exact beats_of_newest (hdisk.store.rows row hrow)
  · intro failure hfailure
    rw [hwrite] at hfailure
    cases hfailure
  · intro disk' row' hok
    obtain ⟨rfl, -⟩ := Prod.mk.inj (Except.ok.inj (hwrite.symm.trans hok))
    exact hdisk

theorem comes_of_refusal {s : State} (failure : Failure)
    (hwrite : op.write sys s.disk = .error failure) (hconflict : failure.isConflict = false)
    (hrefused : ¬ Admitted sys op) : Comes sys s op := by
  refine ⟨fun hadmitted => absurd hadmitted hrefused, ?_, ?_⟩
  · intro other hother
    obtain rfl := Except.error.inj (hwrite.symm.trans hother)
    exact hconflict
  · intro disk row hok
    rw [hwrite] at hok
    cases hok

theorem encode_error {renderFile : FileMetadata → String} {metadata : Option PayloadMetadata}
    {e : IngestError} (h : encodePayloadMetadata host renderFile metadata contentType = .error e) :
    e = .invalidMetadata := by
  unfold encodePayloadMetadata at h
  split at h
  · cases h
  · dsimp only at h
    split at h
    · exact (Except.error.inj h).symm
    · cases h

theorem write_text {content : String} {sweep : Option ConfigData} (answer : Except IngestError (Store × Ingested × Bool))
    (h : ingestText sys.host sys.renderFile disk.store settings content contentType id source =
      answer) :
    Op.write sys disk (.text content contentType id source settings sweep) =
      (answer.mapError .ingest).map fun answer =>
        (disk.settle answer.1, some answer.2.1.intoItem) := by
  unfold Op.write
  dsimp only
  rw [h]
  cases answer <;> rfl

theorem write_binary (answer : Except IngestError (Store × Ingested × Bool))
    (h : ingestBinary sys.host sys.renderFile sys.vault disk.store settings bytes contentType
      source = answer) :
    Op.write sys disk (.binary bytes contentType source settings) =
      (answer.mapError .ingest).map fun answer =>
        (disk.settle answer.1, some answer.2.1.intoItem) := by
  unfold Op.write
  dsimp only
  rw [h]
  cases answer <;> rfl

theorem text_comes (hlaws : Laws sys) {s : State} (h : DiskOk sys s.seen s.disk) {content : String}
    {sweep : Option ConfigData}
    (hgiven : Given sys s (.text content contentType id source settings sweep))
    (hfits : Fits sys s (.text content contentType id source settings sweep)) :
    Comes sys s (.text content contentType id source settings sweep) := by
  obtain ⟨htext, hstamp, hid, -, hunforged⟩ := hgiven
  by_cases hblank : (trim content.toList).isEmpty = true
  · refine comes_of_refusal (.ingest .empty) ?_ rfl ?_
    · refine (write_text (.error .empty) ?_).trans rfl
      unfold ingestText
      rw [if_pos hblank]
    · rintro ⟨hfilled, -⟩
      rw [hblank] at hfilled
      cases hfilled
  by_cases hsize : settings.captureLimitBytes contentType < content.utf8ByteSize
  · refine comes_of_refusal (.ingest .tooLarge) ?_ rfl ?_
    · refine (write_text (.error .tooLarge) ?_).trans rfl
      unfold ingestText
      rw [if_neg hblank, if_pos hsize]
    · rintro ⟨-, hfits, -⟩
      omega
  cases hmetadata : encodePayloadMetadata sys.host sys.renderFile
      (classified sys.host content contentType source.metadata) contentType with
  | error e =>
    refine comes_of_refusal (.ingest e) ?_ (by rw [encode_error hmetadata]; rfl) ?_
    · refine (write_text (.error e) ?_).trans rfl
      unfold ingestText
      rw [if_neg hblank, if_neg hsize, hmetadata]
      rfl
    · rintro ⟨-, -, metadata, hok⟩
      rw [hmetadata] at hok
      cases hok
  | ok metadata =>
    have hsmall : (utf8 content).length ≤ Merge.Prepare.maxContentBytes := by
      rw [length_utf8]
      apply (not_lt.1 hsize).trans
      unfold ConfigData.captureLimitBytes
      rw [if_pos htext]
      exact min_le_right _ _
    obtain ⟨store, ingested, changed, hinsert, hcaptured⟩ := insertOrBump_ok h.store
      (textCapture sys.host content contentType id source metadata) hid hstamp
      ⟨_, hlaws.sealed contentType id (utf8 content) hsmall, rfl⟩ (hfits metadata hmetadata)
    refine comes_of_write (s.disk.settle store) ingested.intoItem ?_
      (h.settle hcaptured.sound) hcaptured.held hcaptured.live ⟨hcaptured.contentType, ?_⟩
    · refine (write_text (.ok (store, ingested, changed)) ?_).trans rfl
      unfold ingestText
      rw [if_neg hblank, if_neg hsize, hmetadata]
      simp only [bind, Except.bind, hinsert, Except.mapError]
    · exact openRow_unforged (hcaptured.sound.rows _ hcaptured.held) hcaptured.live
        hcaptured.contentHash hunforged

/-- The text of a digest is not the id of a record. -/
theorem isRecordId_uuidText {digest : String}
    (h : ∀ digit ∈ digest.toList, isLowerHex digit = true) :
    isRecordId (uuidText digest) = false := by
  unfold isRecordId startsWith uuidText
  rw [String.toList_ofList]
  cases hdigits : digest.toList with
  | nil => rfl
  | cons first rest =>
    have hfirst : isLowerHex first = true := h first (by rw [hdigits]; exact List.mem_cons_self)
    have hne : ('o' == first) = false := by
      by_contra heq
      rw [Bool.not_eq_false, beq_iff_eq] at heq
      rw [← heq] at hfirst
      exact absurd hfirst (by decide)
    rw [show recordIdHead.toList = 'o' :: ['r', 'g', ':', 'v', '1', ':'] by decide]
    simp [List.isPrefixOf, hne]

theorem binary_comes (hlaws : Laws sys) {s : State} (h : DiskOk sys s.seen s.disk)
    (hgiven : Given sys s (.binary bytes contentType source settings))
    (hfits : Fits sys s (.binary bytes contentType source settings)) :
    Comes sys s (.binary bytes contentType source settings) := by
  obtain ⟨hstamp, hunforged⟩ := hgiven
  by_cases hempty : bytes = []
  · refine comes_of_refusal (.ingest .empty) ?_ rfl ?_
    · refine (write_binary (.error .empty) ?_).trans rfl
      unfold ingestBinary
      rw [if_pos hempty]
    · exact fun hadmitted => hadmitted.1 hempty
  by_cases htext : isText contentType = true
  · refine comes_of_refusal (.ingest .empty) ?_ rfl ?_
    · refine (write_binary (.error .empty) ?_).trans rfl
      unfold ingestBinary
      rw [if_neg hempty, if_pos htext]
    · rintro ⟨-, hbinary, -⟩
      rw [htext] at hbinary
      cases hbinary
  by_cases hsize : settings.captureLimitBytes contentType < bytes.length
  · refine comes_of_refusal (.ingest .tooLarge) ?_ rfl ?_
    · refine (write_binary (.error .tooLarge) ?_).trans rfl
      unfold ingestBinary
      rw [if_neg hempty, if_neg htext, if_pos hsize]
    · rintro ⟨-, -, hfits, -⟩
      omega
  cases hmetadata : encodePayloadMetadata sys.host sys.renderFile source.metadata contentType with
  | error e =>
    refine comes_of_refusal (.ingest e) ?_ (by rw [encode_error hmetadata]; rfl) ?_
    · refine (write_binary (.error e) ?_).trans rfl
      unfold ingestBinary
      rw [if_neg hempty, if_neg htext, if_neg hsize, hmetadata]
      rfl
    · rintro ⟨-, -, -, metadata, hok⟩
      rw [hmetadata] at hok
      cases hok
  | ok metadata =>
    by_cases hlarge : Merge.Prepare.maxContentBytes < bytes.length
    · refine comes_of_refusal (.ingest .crypto) ?_ rfl ?_
      · refine (write_binary (.error .crypto) ?_).trans rfl
        unfold ingestBinary
        rw [if_neg hempty, if_neg htext, if_neg hsize, hmetadata]
        simp only [bind, Except.bind, if_pos hlarge]
        rfl
      · rintro ⟨-, -, hlimit, -⟩
        omega
    have hsmall := not_lt.1 hlarge
    obtain ⟨store, ingested, changed, hinsert, hcaptured⟩ := insertOrBump_ok h.store
      (binaryCapture sys.host sys.vault bytes contentType source metadata)
      (isRecordId_uuidText (hlaws.hex _)) hstamp
      ⟨_, hlaws.sealed contentType _ bytes hsmall, rfl⟩ (hfits metadata hmetadata)
    refine comes_of_write (s.disk.settle store) ingested.intoItem ?_
      (h.settle hcaptured.sound) hcaptured.held hcaptured.live ⟨hcaptured.contentType, ?_⟩
    · refine (write_binary (.ok (store, ingested, changed)) ?_).trans rfl
      unfold ingestBinary
      rw [if_neg hempty, if_neg htext, if_neg hsize, hmetadata]
      simp only [bind, Except.bind, if_neg hlarge, hinsert, Except.mapError]
    · exact openRow_unforged (hcaptured.sound.rows _ hcaptured.held) hcaptured.live
        hcaptured.contentHash hunforged

theorem digestFrom_error {limit rounds : Nat} {seen : List UInt8}
    (h : digestFrom limit rounds reader seen = .error e) : e ≠ .storage := by
  induction rounds generalizing reader seen with
  | zero =>
    obtain rfl := Except.error.inj h
    simp
  | succ rounds ih =>
    unfold digestFrom at h
    cases hread : readOnce chunkBytes reader with
    | error e' =>
      rw [hread] at h
      obtain rfl := Except.error.inj h
      unfold readOnce at hread
      split at hread
      · cases hread
      · obtain rfl := Except.error.inj hread
        simp
      · split at hread <;> cases hread
    | ok answer =>
      rw [hread] at h
      simp only [bind, Except.bind] at h
      split at h
      · cases h
      · split at h
        · obtain rfl := Except.error.inj h
          simp
        · exact ih h

theorem offerItem_error (h : offerItem host vault file transfer = .error e) :
    e = .invalidMetadata := by
  unfold offerItem at h
  dsimp only at h
  split at h
  · exact (Except.error.inj h).symm
  · cases h

theorem importItem_error (h : importItem sys file = .error e) : e ≠ .storage := by
  unfold importItem at h
  cases hoffer : file.offer sys.host with
  | error e' =>
    rw [hoffer] at h
    obtain rfl := Except.error.inj h
    unfold Import.offer at hoffer
    split at hoffer
    · obtain rfl := Except.error.inj hoffer
      simp
    · cases hdigest : digestFrom file.limit (weight file.first + 1) file.first [] with
      | error e'' =>
        rw [hdigest] at hoffer
        obtain rfl := Except.error.inj hoffer
        exact digestFrom_error hdigest
      | ok seen =>
        rw [hdigest] at hoffer
        cases hoffer
  | ok transfer =>
    rw [hoffer] at h
    simp only [bind, Except.bind] at h
    split at h
    · rename_i e' hitem
      obtain rfl := Except.error.inj h
      rw [offerItem_error hitem]
      simp
    · cases h

theorem isConflict_file (h : e ≠ .storage) : (Failure.file e).isConflict = false := by
  cases e <;> first | rfl | exact absurd rfl h

theorem importItem_eq_ok (h : importItem sys file = .ok (transfer, item)) :
    offerItem sys.host sys.vault file transfer = .ok item := by
  unfold importItem at h
  obtain ⟨offer, hoffer, h⟩ := bind_ok_iff.1 h
  simp only [bind, Except.bind] at h
  split at h
  · cases h
  · rename_i found hitem
    obtain ⟨rfl, rfl⟩ := Prod.mk.inj (Except.ok.inj h)
    exact hitem

theorem import_comes (hlaws : Laws sys) {s : State} (h : DiskOk sys s.seen s.disk)
    (hgiven : Given sys s (.importFile file settings)) (hfits : Fits sys s (.importFile file settings)) :
    Comes sys s (.importFile file settings) := by
  obtain ⟨hstamp, hgiven⟩ := hgiven
  cases hitem : importItem sys file with
  | error e =>
    refine comes_of_refusal (.file e) ?_ (isConflict_file (importItem_error hitem)) ?_
    · unfold Op.write
      dsimp only
      rw [hitem]
      rfl
    · rintro ⟨answer, hanswer⟩
      rw [hitem] at hanswer
      cases hanswer
  | ok answer =>
    obtain ⟨transfer, item⟩ := answer
    obtain ⟨hread, hunforged, hfresh⟩ := hgiven transfer item hitem
    have hoffer := importItem_eq_ok hitem
    obtain ⟨disk, row, hinsert, hok, hlive, hhash, hkind⟩ := insertFileTransfer_ok hlaws h hoffer
      hstamp hread hfresh (hfits transfer item hitem)
    obtain ⟨hmem, -, hdeleted⟩ := mem_of_liveRow hlive
    refine comes_of_write disk row ?_ hok hmem hdeleted
      ⟨transfer, item, hitem, ?_, ?_⟩
    · unfold Op.write
      dsimp only
      rw [hitem]
      simp only [bind, Except.bind, Except.mapError, hinsert, hlive]
      rfl
    · rw [hkind]
      exact (Files.Complete.offerItem_eq_ok hoffer).1
    · exact openRow_unforged (hok.store.rows row hmem) hdeleted
        (hhash.trans (offerItem_fields hoffer).1) hunforged

theorem publishItem_eq_ok {p : Publication} (h : publishItem sys p = .ok item) :
    offerItem sys.host sys.vault p.toImport p.transfer = .ok item := by
  unfold publishItem at h
  split at h
  · cases h
  · exact h

/-- Rows that collide have one content. -/
theorem contentHash_of_collides {other : ItemRow} (h : collides row other = true) :
    row.contentHash = other.contentHash := by
  unfold collides ItemRow.dedupKey Merge.Storage.dedupKey at h
  rw [Bool.and_eq_true, beq_iff_eq] at h
  obtain ⟨hsome, hequal⟩ := h
  split at hsome
  · cases hsome
  · rename_i hcovered
    rw [if_neg hcovered] at hequal
    split at hequal
    · cases hequal
    · simp only [Option.some.injEq, Prod.mk.injEq] at hequal
      exact hequal.1

theorem reference_comes (hlaws : Laws sys) {s : State} (h : DiskOk sys s.seen s.disk)
    {p : Publication} (hgiven : Given sys s (.reference p settings)) (hfits : Fits sys s (.reference p settings)) :
    Comes sys s (.reference p settings) := by
  obtain ⟨hstamp, hgiven⟩ := hgiven
  cases hitem : publishItem sys p with
  | error e =>
    refine comes_of_refusal (.file e) ?_ (isConflict_file ?_) ?_
    · unfold Op.write
      dsimp only
      rw [hitem]
      rfl
    · unfold publishItem at hitem
      split at hitem
      · obtain rfl := Except.error.inj hitem
        simp
      · rw [offerItem_error hitem]
        simp
    · rintro ⟨answer, hanswer⟩
      rw [hitem] at hanswer
      cases hanswer
  | ok item =>
    obtain ⟨⟨hrows, hseen⟩, hhash⟩ := hgiven item hitem
    obtain ⟨hrow, -⟩ := rowOk_offer hlaws s.seen (publishItem_eq_ok hitem) hstamp
      fun version hversion hid => absurd hid (hseen version hversion)
    have hroom : Room s.disk.store item.row := by
      intro other hother _
      by_contra hcollides
      rw [Bool.not_eq_false] at hcollides
      exact hhash other hother (contentHash_of_collides hcollides).symm
    obtain ⟨disk, ingested, hinsert, hok, hmem, hlive, hrefers⟩ :=
      insertFileReference_ok h p.file (!p.explicit) hrow hrows hroom
        fun himplicit row hreferring => hfits item row hitem (by simpa using himplicit) hreferring
    refine comes_of_write disk ingested.intoItem ?_ hok hmem hlive hrefers
    unfold Op.write
    dsimp only
    rw [hitem]
    simp only [bind, Except.bind, Except.mapError, hinsert]
    rfl

theorem delete_ok (h : DiskOk sys seen disk) (ids : List String) (hnow : now ≤ maxStamp) :
    DiskOk sys seen (deleteRows disk ids now) := by
  have hident : ∀ row : ItemRow,
      (if row.id ∈ ids ∧ row.deleted = false then tombstone now row else row).id = row.id := by
    intro row
    split <;> rfl
  refine h.settle (h.store.exchange rfl (nodup_map _ hident _ h.store.wf.items) ?_)
  intro row hrow
  obtain ⟨before, hbefore, rfl⟩ := List.mem_map.1 hrow
  split
  · rename_i hdeletes
    exact (h.store.rows before hbefore).tombstone hdeletes.2 hnow
  · exact h.store.rows before hbefore

theorem evict_ok (h : DiskOk sys seen disk) (ids : List String) :
    DiskOk sys seen (evictRows disk ids) :=
  h.settle (h.store.exchange rfl (h.store.wf.items.sublist (List.filter_sublist.map _))
    fun row hrow => h.store.rows row (List.mem_filter.1 hrow).1)

/-- An operation that is no capture. -/
theorem comes_of_change {s : State} (hcapture : ¬ Admitted sys op)
    (hwrite : op.write sys s.disk = .ok (disk, none)) (hok : DiskOk sys s.seen disk) :
    Comes sys s op := by
  refine ⟨fun hadmitted => absurd hadmitted hcapture, ?_, ?_⟩
  · intro failure hfailure
    rw [hwrite] at hfailure
    cases hfailure
  · intro disk' row hrow
    obtain ⟨rfl, -⟩ := Prod.mk.inj (Except.ok.inj (hwrite.symm.trans hrow))
    exact hok

/-- A change of one row, which only a colliding one fails. -/
theorem comes_of_row {s : State} {α : Type} {change : Except StoreError (Store × α)}
    (h : DiskOk sys s.seen s.disk) (hcapture : ¬ Admitted sys op)
    (hwrite : op.write sys s.disk =
      (change.mapError .store).map fun answer => (s.disk.settle answer.1, none))
    (hroom : change ≠ .error .constraint)
    (hafter : ∀ after answer, change = .ok (after, answer) → StoreOk sys s.seen after) :
    Comes sys s op := by
  cases change with
  | error e =>
    refine comes_of_refusal (.store e) hwrite ?_ hcapture
    cases e with
    | constraint => exact absurd rfl hroom
    | invalidPayload | notFound => rfl
  | ok answer => exact comes_of_change hcapture hwrite (h.settle (hafter answer.1 answer.2 rfl))

theorem promote_comes {s : State} (h : DiskOk sys s.seen s.disk) {copiedAt : Int}
    (hgiven : Given sys s (.promote id copiedAt)) (hfits : Fits sys s (.promote id copiedAt)) :
    Comes sys s (.promote id copiedAt) := by
  obtain ⟨hroom, hafter⟩ := promoteCopied_eq h.store id hgiven
  refine comes_of_row h (fun hno => hno) ?_ (hroom.2 hfits) hafter
  unfold Op.write
  dsimp only
  cases promoteCopied s.disk.store id copiedAt <;> rfl

theorem secret_comes {s : State} (h : DiskOk sys s.seen s.disk) {secret : Bool}
    (hgiven : Given sys s (.setSecret id secret now))
    (hfits : Fits sys s (.setSecret id secret now)) : Comes sys s (.setSecret id secret now) := by
  obtain ⟨hroom, hafter⟩ := setSecret_eq h.store id secret hgiven
  refine comes_of_row h (fun hno => hno) ?_ (hroom.2 hfits) hafter
  unfold Op.write
  dsimp only
  cases Ingest.setSecret sys.host sys.vault s.disk.store id secret now <;> rfl

theorem merge_comes (hlaws : Laws sys) {s : State} (h : DiskOk sys s.seen s.disk)
    {page : List Incoming} (hgiven : Given sys s (.merge page))
    (hfits : Fits sys s (.merge page)) :
    Comes sys s (.merge page) := by
  have hfits : PageFits sys s.seen s.disk.store page := fun incoming hincoming =>
    ⟨hgiven incoming hincoming, hfits incoming hincoming⟩
  have hwrite : Op.write sys s.disk (.merge page) =
      ((mergePage sys.host s.disk page).mapError .merge).map fun answer => (answer.1, none) := by
    unfold Op.write
    dsimp only
    cases mergePage sys.host s.disk page <;> rfl
  cases hmerge : mergePage sys.host s.disk page with
  | error e =>
    rw [hmerge] at hwrite
    exact comes_of_refusal _ hwrite rfl fun hno => hno
  | ok answer =>
    rw [hmerge] at hwrite
    exact comes_of_change (fun hno => hno) hwrite (h.merged hlaws hfits hmerge)

/-- The write of every operation that fits comes to what it should. -/
theorem comes (hlaws : Laws sys) {s : State} (h : DiskOk sys s.seen s.disk)
    (hgiven : Given sys s op) (hfits : Fits sys s op) : Comes sys s op := by
  cases op with
  | text content contentType id source settings sweep => exact text_comes hlaws h hgiven hfits
  | binary bytes contentType source settings => exact binary_comes hlaws h hgiven hfits
  | reference p settings => exact reference_comes hlaws h hgiven hfits
  | importFile file settings => exact import_comes hlaws h hgiven hfits
  | delete ids now => exact comes_of_change (fun hno => hno) rfl (delete_ok h ids hgiven)
  | evict ids => exact comes_of_change (fun hno => hno) rfl (evict_ok h ids)
  | promote id copiedAt => exact promote_comes h hgiven hfits
  | setSecret id secret now => exact secret_comes h hgiven hfits
  | merge page => exact merge_comes hlaws h hgiven hfits

theorem diskOk_empty : DiskOk sys [] ({} : Disk) := by
  refine ⟨⟨⟨List.nodup_nil, List.nodup_nil, ?_, ?_⟩, ?_⟩, ⟨?_, ?_, fun _ => Or.inl rfl⟩⟩
  all_goals
    intro row hrow
    cases hrow

theorem references_evict {ids : List String} {file : Reference} (hid : id ∉ ids)
    (h : Refers disk id file) : Refers (evictRows disk ids) id file := by
  obtain ⟨held, hheld, rfl, hfile⟩ := h
  have hsame := congrArg Body.references (Files.Complete.bodyOf_evict disk hid)
  have hmem : held ∈ ((evictRows disk ids).files.bodyOf held.itemId).references := by
    rw [hsame]
    exact List.mem_filter.2 ⟨hheld, decide_eq_true rfl⟩
  exact ⟨held, (List.mem_filter.1 hmem).1, rfl, hfile⟩

theorem Leaves.evict {ids : List String} (hid : row.id ∉ ids) (h : Leaves sys disk row op) :
    Leaves sys (evictRows disk ids) row op := by
  cases op with
  | reference p settings => exact references_evict hid h
  | _ => exact h

theorem swept_ok (h : DiskOk sys seen disk) (sweep : Option ConfigData) :
    DiskOk sys seen (sys.swept sweep disk) := by
  cases sweep with
  | none => exact h
  | some settings => exact evict_ok h _

/-- A sweep leaves a row that it spares, with its file. -/
theorem swept_spares {sweep : Option ConfigData}
    (hspared : ∀ settings ∈ sweep, row.id ∉ sys.evicted settings disk.store)
    (hrow : row ∈ disk.store.items) (hleaves : Leaves sys disk row op) :
    row ∈ (sys.swept sweep disk).store.items ∧ Leaves sys (sys.swept sweep disk) row op := by
  cases sweep with
  | none => exact ⟨hrow, hleaves⟩
  | some settings =>
    have hkept := hspared settings rfl
    exact ⟨List.mem_filter.2 ⟨hrow, by simpa using hkept⟩, hleaves.evict hkept⟩

/-- What the write came to is left when the sweep spares its row. -/
theorem Comes.good {s : State} (h : Comes sys s op) (hspares : Spares sys s op) :
    Good sys s op := by
  refine ⟨fun hadmitted => ?_, fun failure hfailure => ?_⟩
  · obtain ⟨disk, row, hwrite, hrow, hlive, hleaves, hbeats⟩ := h.captured hadmitted
    obtain ⟨hheld, hleft⟩ := swept_spares
      (fun settings hsettings => hspares settings hsettings disk row hwrite) hrow hleaves
    refine ⟨sys.swept op.sweep disk, row, ?_, hheld, hlive, hleft, hbeats⟩
    unfold Op.run
    rw [hwrite]
    rfl
  · unfold Op.run at hfailure
    cases hwrite : op.write sys s.disk with
    | error e =>
      rw [hwrite] at hfailure
      obtain rfl := Except.error.inj hfailure
      exact h.conflict e hwrite
    | ok answer =>
      rw [hwrite] at hfailure
      cases hfailure

theorem DiskOk.after {s : State} (h : DiskOk sys s.seen disk) :
    DiskOk sys (s.after disk).seen (s.after disk).disk :=
  ⟨⟨h.store.wf, rowOk_seen h.store.wf.items h.store.rows⟩, h.files⟩

/-- The induction over a run. -/
theorem diskOk_of_reaches (hlaws : Laws sys) {s : State}
    (hs : Reaches (machine sys) (fun s op => Given sys s op ∧ Clear sys s op) s) :
    DiskOk sys s.seen s.disk := by
  have hstart : ∀ s, (machine sys).start s → DiskOk sys s.seen s.disk := by
    rintro s rfl
    exact diskOk_empty
  have hkept : ∀ s s' op, DiskOk sys s.seen s.disk → Given sys s op ∧ Clear sys s op →
      (machine sys).step s op = some s' → DiskOk sys s'.seen s'.disk := by
    intro s s' op h hallowed hstep
    have hcomes := comes hlaws h hallowed.1 hallowed.2.1
    unfold machine step at hstep
    dsimp only at hstep
    split at hstep
    · obtain rfl := Option.some.inj hstep
      exact h
    · rename_i disk row hwrite
      obtain rfl := Option.some.inj hstep
      have hwritten := DiskOk.after (hcomes.kept disk row hwrite)
      exact DiskOk.after (swept_ok hwritten op.sweep)
  exact hs.invariant hstart hkept

/-- In a run whose steps all meet the condition every capture succeeds and leaves, past its
own sweep, a live row of its content above all versions its id had, and no write of a row
meets another one in the index. -/
theorem recaptures_when_clear (hlaws : Laws sys) (s : State)
    (hs : Reaches (machine sys) (fun s op => Given sys s op ∧ Clear sys s op) s) :
    (∀ op, Given sys s op → Clear sys s op → Good sys s op) ∧
      ∀ row ∈ s.disk.store.items, row.deleted = false →
        ∀ privacy credentials searchText,
          (refreshPrivacy sys.host s.disk.store row privacy credentials searchText ≠
              .error .constraint ↔
            ∀ refreshed, refreshedRow sys.host row privacy credentials searchText =
              some refreshed → Room s.disk.store refreshed) := by
  refine ⟨fun op hgiven hclear =>
    (comes hlaws (diskOk_of_reaches hlaws hs) hgiven hclear.1).good hclear.2, ?_⟩
  intro row _ _ privacy credentials searchText
  unfold refreshPrivacy
  cases hrefresh : refreshedRow sys.host row privacy credentials searchText with
  | none => simp
  | some refreshed =>
    simp only [writeRow_eq]
    by_cases hroom : Room s.disk.store refreshed
    · rw [if_pos hroom]
      simpa [bind, Except.bind, pure, Except.pure] using hroom
    · rw [if_neg hroom]
      simpa [bind, Except.bind] using hroom

/-- A digest that is its content in hexadecimal digits. -/
def longDigest (bytes : List UInt8) : String :=
  String.ofList (bytes.flatMap fun byte =>
    [Nat.digitChar (byte.toNat / 16), Nat.digitChar (byte.toNat % 16)])

private theorem digitChar_injective :
    ∀ i j : Fin 16, Nat.digitChar i = Nat.digitChar j → i = j := by
  decide

theorem longDigest_injective : Function.Injective longDigest := by
  intro bytes other h
  have hdigits := congrArg String.toList h
  unfold longDigest at hdigits
  rw [String.toList_ofList, String.toList_ofList] at hdigits
  clear h
  induction bytes generalizing other with
  | nil =>
    cases other with
    | nil => rfl
    | cons byte rest => simp at hdigits
  | cons byte rest ih =>
    cases other with
    | nil => simp at hdigits
    | cons byte' rest' =>
      rw [List.flatMap_cons, List.flatMap_cons, List.cons_append, List.cons_append,
        List.cons_append, List.cons_append, List.cons.injEq, List.cons.injEq] at hdigits
      obtain ⟨hhigh, hlow, hrest⟩ := hdigits
      have hbyte := byte.toNat_lt
      have hbyte' := byte'.toNat_lt
      have hhighs :=
        digitChar_injective ⟨byte.toNat / 16, by omega⟩ ⟨byte'.toNat / 16, by omega⟩ hhigh
      have hlows :=
        digitChar_injective ⟨byte.toNat % 16, by omega⟩ ⟨byte'.toNat % 16, by omega⟩ hlow
      rw [Fin.mk.injEq] at hhighs hlows
      have hsame : byte.toNat = byte'.toNat := by omega
      rw [UInt8.toNat_inj.1 hsame, ih hrest]

def smallSystem : System where
  host := { sampleHost with
    sha256 := longDigest
    encrypt := fun contentType id bytes =>
      ([], if isText contentType then bytes else sealWithDigest plainCipher (nonceOf 0) bytes id) }
  vault := Files.Complete.smallVault
  renderFile := fun _ => ""
  evicted := fun _ _ => []

theorem spares_small (s : State) (op : Op) : Spares smallSystem s op :=
  fun _ _ _ _ _ => List.not_mem_nil

theorem smallSystem_laws : Laws smallSystem where
  chunks _ _ _ := rfl
  sealed contentType id bytes _ := by
    cases htext : isText contentType with
    | true => simp [openPayload, smallSystem, htext, Files.Complete.smallVault]
    | false =>
      simp only [openPayload, smallSystem, htext, Bool.false_eq_true, if_false]
      exact Files.Complete.opens_small (nonceOf 0) bytes id
  offers nonce transfer id _ :=
    Files.Complete.opens_small nonce (smallSystem.vault.renderTransfer transfer) id
  empty _ hdigest := longDigest_injective hdigest
  hex bytes digit hdigit := by
    have hmem : digit ∈ (longDigest bytes).toList := hdigit
    unfold longDigest at hmem
    rw [String.toList_ofList, List.mem_flatMap] at hmem
    obtain ⟨byte, -, hbyte⟩ := hmem
    have hhex : ∀ i : Fin 16, isLowerHex (Nat.digitChar i) = true := by decide
    have hlt := byte.toNat_lt
    rcases List.mem_cons.1 hbyte with rfl | hlow
    · exact hhex ⟨byte.toNat / 16, by omega⟩
    · rw [List.mem_singleton.1 hlow]
      exact hhex ⟨byte.toNat % 16, by omega⟩

theorem unforged_small (bytes : List UInt8) : Unforged smallSystem bytes :=
  fun _ hother => longDigest_injective hother

def emptyHistory : State := {}

def anySize : ConfigData := ⟨100, 100, 100⟩

def copiedAt (stamp : Int) : Source := ⟨stamp, none, none, none⟩

def copiedText : List Op :=
  [.text "a" "text" "first" (copiedAt 1) anySize (some anySize), .delete ["first"] 2]

def textAgain : Op := .text "a" "text" "second" (copiedAt 3) anySize (some anySize)

def textDeleted : State := (run (machine smallSystem) emptyHistory copiedText).getD emptyHistory

private theorem admits_text {s : State}
    (hnone : newestLiveWithRepresentation s.disk.store (longDigest (utf8 "a")) "text" = none)
    (hfresh : Fresh s id) :
    Clear smallSystem s (.text "a" "text" id (copiedAt stamp) anySize (some anySize)) := by
  refine ⟨fun metadata hmetadata => ?_, spares_small _ _⟩
  obtain rfl : none = metadata := Except.ok.inj hmetadata
  refine ⟨?_, fun _ => ⟨hfresh.1, fun version hversion hid => ?_⟩⟩
  swap
  · exact absurd hid (hfresh.2 version hversion)
  intro existing hexisting
  exact absurd (hnone.symm.trans hexisting) (by simp)

theorem text_recaptured : Good smallSystem textDeleted textAgain := by
  have hfresh : Fresh textDeleted "second" := by
    unfold Fresh
    decide
  have hempty : Fresh emptyHistory "first" := by
    unfold Fresh
    decide
  have hreached : Reaches (machine smallSystem)
      (fun s op => Given smallSystem s op ∧ Clear smallSystem s op) textDeleted := by
    refine (Reaches.start emptyHistory rfl).of_run_getD copiedText ?_ (by decide)
      emptyHistory
    refine ⟨⟨⟨by decide, by decide, by decide, hempty, unforged_small _⟩, admits_text rfl hempty⟩, ?_⟩
    exact fun next _ => ⟨⟨show (2 : Int) ≤ maxStamp by decide, trivial, spares_small _ _⟩,
      fun _ _ => trivial⟩
  exact (recaptures_when_clear smallSystem_laws textDeleted hreached).1 textAgain
    ⟨by decide, by decide, by decide, hfresh, unforged_small _⟩ (admits_text (by decide) hfresh)

def copiedImage : List Op := [.binary [1] "image/png" (copiedAt 1) anySize,
  .delete [captureItemId smallSystem.host smallSystem.vault [1] "image/png"] 2]

def imageAgain : Op := .binary [1] "image/png" (copiedAt 3) anySize

def imageDeleted : State := (run (machine smallSystem) emptyHistory copiedImage).getD emptyHistory

/-- The tombstone has the id. -/
theorem image_not_recaptured :
    ¬ ∀ s, Reaches (machine smallSystem) (Given smallSystem) s →
      ∀ op, Given smallSystem s op → Good smallSystem s op := by
  intro h
  have hreached : Reaches (machine smallSystem) (Given smallSystem) imageDeleted := by
    refine (Reaches.start emptyHistory rfl).of_run_getD copiedImage ?_ (by decide)
      emptyHistory
    exact ⟨⟨by decide, unforged_small _⟩, fun _ _ => ⟨show (2 : Int) ≤ maxStamp by decide,
      fun _ _ => trivial⟩⟩
  have hgood := h imageDeleted hreached imageAgain ⟨by decide, unforged_small _⟩
  have hconflict : ∃ failure, Op.run smallSystem imageDeleted.disk imageAgain = .error failure ∧
      failure.isConflict = true := by
    refine ⟨.ingest (.storage .constraint), ?_, rfl⟩
    have hfails : ((Op.run smallSystem imageDeleted.disk imageAgain).map fun _ => ()) =
        .error (.ingest (.storage .constraint)) := by decide +kernel
    cases hrun : Op.run smallSystem imageDeleted.disk imageAgain with
    | error failure =>
      rw [hrun] at hfails
      exact congrArg Except.error (Except.error.inj hfails)
    | ok answer =>
      rw [hrun] at hfails
      cases hfails
  obtain ⟨failure, hrun, htrue⟩ := hconflict
  rw [hgood.conflict failure hrun] at htrue
  cases htrue

end CopyPaste.History.Recapture
