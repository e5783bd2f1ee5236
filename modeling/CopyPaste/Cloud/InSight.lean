import CopyPaste.Cloud.Fleet

/-!
Pulls skip nothing that is in the table when they fetch. A page has no gaps, what
it refuses is valid for nobody, and what it leaves for the future it does not
pass; so a device can miss a valid row only when the row is sent behind the
position the device has reached.
-/

namespace CopyPaste.Cloud.InSight

open Lib.Keyset Lib.Rows Lib.Guarded Upload.Scanning Backend Pull Drain Push Fleet
open Merge.Comparator Merge.Payload Merge.Storage Merge.Prepare

/-- A version covers another one with the same keys. -/
theorem covers_of_same (host : Host) (lossy : List UInt8 → String) {known item : LocalItem}
    (hid : known.itemId = item.itemId) (hstamp : known.createdAt = item.createdAt)
    (hdeleted : known.deleted = item.deleted)
    (hcontent : item.deleted = false →
      known.content = item.content ∧ known.contentType = item.contentType)
    (horigin : item.originDeviceId ≤ originOr known.originDeviceId host.here) :
    covers host lossy known item = true := by
  have hhash : remoteContentHash host (remoteVersion lossy item)
      (some (heldAs host lossy known)) = (heldAs host lossy known).contentHash := by
    unfold remoteContentHash heldAs
    cases hlive : item.deleted with
    | true => simp [remoteVersion, hlive]
    | false =>
      obtain ⟨hbytes, hkind⟩ := hcontent hlive
      simp [remoteContentHash, remoteVersion, RemoteVersion.bytes, hlive, hdeleted, hbytes, hkind]
  unfold covers keepsLocal
  rw [Bool.and_eq_true, decide_eq_true_eq, Option.any_some, decide_eq_true_eq,
    mergeDecision_keepLocal_iff]
  refine ⟨hid, ?_⟩
  rw [hhash]
  simp only [storedSummary, remoteSummary, remoteVersion, heldAs, hstamp, hdeleted]
  rw [← not_lt, versionKey_lt_iff]
  rintro (h | ⟨-, h | ⟨-, h | ⟨-, h⟩⟩⟩)
  · exact lt_irrefl _ h
  · exact lt_irrefl _ h
  · exact lt_irrefl _ h
  · exact not_lt.2 horigin h

private theorem empty_le (text : String) : "" ≤ text := by
  rw [← not_lt]
  intro h
  rw [String.lt_iff_toList_lt] at h
  simp at h

theorem covers_refl (host : Host) (lossy : List UInt8 → String) (item : LocalItem) :
    covers host lossy item item = true := by
  refine covers_of_same host lossy rfl rfl rfl (fun _ => ⟨rfl, rfl⟩) ?_
  unfold originOr
  split
  · rename_i h
    rw [h]
    exact empty_le _
  · exact le_rfl

/-- What a device sends is a version it held. -/
theorem covers_outgoing {key : SyncKey} (hkey : Lawful key) (host : Host)
    (lossy : List UInt8 → String) {item : LocalItem} {row : CloudItem}
    (h : outgoing key host.here item = some row) :
    covers host lossy item (opened key row) = true := by
  unfold outgoing at h
  split at h
  · rename_i hdeleted
    rw [← Option.some.inj h]
    refine covers_of_same host lossy rfl rfl hdeleted ?_ le_rfl
    intro hlive
    simp [opened, openedItem, signed, CloudItem.tombstone] at hlive
  · split at h
    · simp at h
    · rename_i hdeleted hsize
      rw [← Option.some.inj h]
      have hopens := hkey.opens item.content item.itemId
      have hlive : item.deleted = false := by simpa using hdeleted
      refine covers_of_same host lossy rfl rfl hlive (fun _ => ⟨?_, rfl⟩) le_rfl
      simp [opened, openedItem, signed, hopens]

section Pages

variable {key : SyncKey} {table : Table} {cursor : Cursor} {now : Int} {rows : List CloudItem}

/-- A page reaches its start, a row stamped at or before the clock, or a row it
accepted. -/
theorem reached_row (hfetch : fetchSince table cursor.createdAt cursor.itemId pullPageLimit =
    .ok rows) :
    (readPage key now cursor {} rows).reached = cursor ∨
      ∃ row ∈ rows, (readPage key now cursor {} rows).reached = rowKey row ∧
        (row.createdAt ≤ now ∨ ∃ item, judge key now row = .accepted item) := by
  have hread := readPage_spec key table now cursor {} rows (mem_fetchSince hfetch)
  obtain ⟨more, hbatch, hfrom, -⟩ := hread.batch
  rcases (reached_cases (readPage key now cursor {} rows)).2 with h | ⟨item, hitem, h⟩
  · rcases hread.refusal with h' | ⟨row, hrow, h', hnow⟩
    · exact Or.inl (h.trans h')
    · exact Or.inr ⟨row, (mem_sortPage rows row).1 hrow, h.trans h', Or.inl hnow⟩
  · rw [hbatch, List.nil_append] at hitem
    obtain ⟨row, hrow, hjudge⟩ := hfrom item hitem
    exact Or.inr ⟨row, (mem_sortPage rows row).1 hrow, h.trans (judge_accepted hjudge),
      Or.inr ⟨item, hjudge⟩⟩

theorem resumable_reached (hcursor : Resumable cursor)
    (hfetch : fetchSince table cursor.createdAt cursor.itemId pullPageLimit = .ok rows) :
    Resumable (readPage key now cursor {} rows).reached := by
  rcases reached_row hfetch with heq | ⟨row, hrow, heq, -⟩
  · rw [heq]
    exact hcursor
  · rw [heq]
    exact resumable_rowKey table (mem_fetchSince hfetch row hrow)

/-- A row beyond the ceiling is not reached. -/
theorem future_not_reached (hfetch : fetchSince table cursor.createdAt cursor.itemId pullPageLimit =
    .ok rows) {row : CloudItem} (hrow : row ∈ table.rows) (hahead : cursor < rowKey row)
    (hfuture : saturatingAdd now maxFutureSkewMs < row.createdAt) :
    (readPage key now cursor {} rows).reached < rowKey row := by
  have hbound := table.bigint row hrow
  rcases reached_row hfetch with heq | ⟨last, hlast, heq, hcase⟩
  · rw [heq]
    exact hahead
  · rw [heq]
    refine Position.lt_of_createdAt_lt ?_
    have hceiling : last.createdAt ≤ saturatingAdd now maxFutureSkewMs := by
      rcases hcase with hnow | ⟨item, hitem⟩
      · have hlastBound := table.bigint last (mem_fetchSince hfetch last hlast)
        unfold saturatingAdd maxFutureSkewMs
        omega
      · by_contra hbeyond
        unfold judge at hitem
        rw [if_pos (not_le.1 hbeyond)] at hitem
        simp at hitem
    exact hceiling.trans_lt hfuture

/-- A valid row of the table between the start of a page and what it reaches is in
the batch. -/
theorem opened_mem_batch (hkey : Lawful key) (hcursor : Resumable cursor)
    (hfetch : fetchSince table cursor.createdAt cursor.itemId pullPageLimit = .ok rows)
    {row : CloudItem} (hrow : row ∈ table.rows) (hvalid : Valid key row)
    (hsent : ∃ device item, outgoing key device item = some row) (hahead : cursor < rowKey row)
    (hreached : rowKey row ≤ (readPage key now cursor {} rows).reached) :
    opened key row ∈ (readPage key now cursor {} rows).batch := by
  obtain ⟨device, item, hsent⟩ := hsent
  have hpage := fetchSince_eq_page table cursor hcursor pullPageLimit (by decide) (by decide)
  have hrows : rows = page rowKey table.rows cursor pullPageLimit :=
    Except.ok.inj (hfetch.symm.trans hpage)
  have hsegment := segment_page (nodup_rowKey table) cursor pullPageLimit
  rw [← hrows] at hsegment
  have hmem : row ∈ rows := by
    rcases reached_row hfetch with heq | ⟨last, hlast, heq, -⟩
    · rw [heq] at hreached
      exact absurd hreached (not_le.2 hahead)
    · exact hsegment.gapless row hrow hahead last hlast (heq ▸ hreached)
  have hread := readPage_spec key table now cursor {} rows (mem_fetchSince hfetch)
  obtain ⟨more, hbatch, -, hinto, -⟩ := hread.batch
  rw [hbatch, List.nil_append]
  rcases judge_outgoing hkey hsent hvalid.1 now with hfuture | haccepted
  · have hbeyond : saturatingAdd now maxFutureSkewMs < row.createdAt := by
      by_contra hnot
      unfold judge at hfuture
      rw [if_neg hnot] at hfuture
      split at hfuture
      · simp at hfuture
      split at hfuture
      · simp at hfuture
      split at hfuture
      · simp at hfuture
      · split at hfuture <;> simp at hfuture
    exact absurd hreached (not_le.2 (future_not_reached hfetch hrow hahead hbeyond))
  · exact hinto row ((mem_sortPage rows row).2 hmem) _ haccepted

end Pages

variable {ι σ : Type} (setting : Setting ι σ)

/-- What holds of each device against the table. -/
structure DeviceInv (table : Table) (d : ι) (device : Device σ) : Prop where
  outbox : ∀ row ∈ device.outbox, ∃ item ∈ device.held,
    outgoing setting.key (setting.host d).here item = some row
  watermark : Resumable device.watermark
  reached : ∀ read, device.reading = some read → Resumable read.reached
  inSight : ∀ row ∈ table.rows, Valid setting.key row → Fleet.InSight setting d device row

/-- Valid rows were sent by a holder of the key, and are hidden from no device. -/
structure Inv (shared : Shared ι σ) : Prop where
  sent : ∀ row ∈ shared.table.rows, Valid setting.key row →
    ∃ device item, outgoing setting.key device item = some row
  devices : ∀ d, DeviceInv setting shared.table d (shared.devices d)

section Devices

variable {setting}
variable {table : Table} {d : ι} {device : Device σ}

/-- Knowing more, with the same position, hides nothing. -/
theorem inSight_mono {row : CloudItem} (h : Fleet.InSight setting d device row)
    {other : Device σ} (hwatermark : other.watermark = device.watermark)
    (hreading : other.reading = device.reading ∨ other.reading = none)
    (hknown : device.handed ++ device.held ⊆ other.handed ++ other.held) :
    Fleet.InSight setting d other row := by
  have hmono : Knows setting d device row → Knows setting d other row := by
    rintro ⟨known, hmem, hcovers⟩
    exact ⟨known, hknown hmem, hcovers⟩
  refine ⟨fun hle => hmono (h.watermark (hwatermark ▸ hle)), fun read hread hle => ?_⟩
  rcases hreading with hsame | hnone
  · exact (h.reading read (hsame ▸ hread) hle).imp_left hmono
  · rw [hnone] at hread
    simp at hread

theorem DeviceInv.change (h : DeviceInv setting table d device) (store : σ)
    (more : List LocalItem) :
    DeviceInv setting table d { device with store := store, held := device.held ++ more } := by
  refine ⟨fun row hrow => ?_, h.watermark, h.reached, fun row hrow hvalid => ?_⟩
  · obtain ⟨item, hitem, hsent⟩ := h.outbox row hrow
    exact ⟨item, List.mem_append_left _ hitem, hsent⟩
  · refine inSight_mono (h.inSight row hrow hvalid) rfl (Or.inl rfl) fun known hmem => ?_
    rcases List.mem_append.1 hmem with hleft | hright
    · exact List.mem_append_left _ hleft
    · exact List.mem_append_right _ (List.mem_append_left _ hright)

theorem DeviceInv.scan (h : DeviceInv setting table d device) (items : List LocalItem) :
    DeviceInv setting table d { device with
      outbox := items.filterMap (outgoing setting.key (setting.host d).here)
      held := device.held ++ items } := by
  have hchange := h.change device.store items
  refine ⟨fun row hrow => ?_, hchange.watermark, hchange.reached, fun row hrow hvalid => ?_⟩
  · obtain ⟨item, hitem, hsent⟩ := List.mem_filterMap.1 hrow
    exact ⟨item, List.mem_append_right _ hitem, hsent⟩
  · exact inSight_mono (hchange.inSight row hrow hvalid) rfl (Or.inl rfl) fun _ hmem => hmem

theorem DeviceInv.abandon (h : DeviceInv setting table d device) :
    DeviceInv setting table d { device with outbox := [], reading := none } := by
  refine ⟨by simp, h.watermark, by simp, fun row hrow hvalid => ?_⟩
  exact inSight_mono (h.inSight row hrow hvalid) rfl (Or.inr rfl) fun _ hmem => hmem

/-- A page fetched from the table hides none of its rows. -/
theorem DeviceInv.fetch (hkey : Lawful setting.key) (h : DeviceInv setting table d device)
    (hsent : ∀ row ∈ table.rows, Valid setting.key row →
      ∃ device item, outgoing setting.key device item = some row)
    (now : Int) {rows : List CloudItem}
    (hfetch : fetchSince table device.watermark.createdAt device.watermark.itemId pullPageLimit =
      .ok rows) :
    DeviceInv setting table d { device with
      reading := some (readPage setting.key now device.watermark {} rows) } := by
  refine ⟨h.outbox, h.watermark, ?_, fun row hrow hvalid => ⟨?_, ?_⟩⟩
  · rintro read hread
    rw [← Option.some.inj hread]
    exact resumable_reached h.watermark hfetch
  · exact (h.inSight row hrow hvalid).watermark
  · intro read hread hle
    rw [← Option.some.inj hread] at hle ⊢
    rcases le_or_gt (rowKey row) device.watermark with hbehind | hahead
    · exact Or.inl ((h.inSight row hrow hvalid).watermark hbehind)
    · exact Or.inr ⟨opened setting.key row, opened_mem_batch hkey h.watermark hfetch hrow hvalid
        (hsent row hrow hvalid) hahead hle, covers_refl _ _ _⟩

/-- The end of a page: what it reached was handed over. -/
theorem DeviceInv.finish (h : DeviceInv setting table d device) {read : PageRead}
    (hread : device.reading = some read) :
    DeviceInv setting table d (finished setting d device read) := by
  let puller : Puller σ := ⟨device.store, device.watermark, read.stats, false, device.handed, 0⟩
  have hoffered : (finished setting d device read).handed = device.handed ++ read.batch :=
    (offer_frame (setting.source d) read.batch puller).2.1
  have hheld : ∃ more, (finished setting d device read).held = device.held ++ more := ⟨_, rfl⟩
  obtain ⟨more, hheld⟩ := hheld
  have hmono : device.handed ++ device.held ⊆
      (finished setting d device read).handed ++ (finished setting d device read).held := by
    rw [hoffered, hheld]
    intro known hmem
    rcases List.mem_append.1 hmem with hleft | hright
    · exact List.mem_append_left _ (List.mem_append_left _ hleft)
    · exact List.mem_append_right _ (List.mem_append_left _ hright)
  have hwatermark : (finished setting d device read).watermark = read.reached ∨
      (finished setting d device read).watermark = device.watermark := by
    unfold finished
    dsimp only
    split
    · exact Or.inl rfl
    · exact Or.inr rfl
  refine ⟨fun row hrow => ?_, ?_, ?_, fun row hrow hvalid => ⟨fun hle => ?_, ?_⟩⟩
  · obtain ⟨item, hitem, hsent⟩ := h.outbox row hrow
    exact ⟨item, hheld ▸ List.mem_append_left _ hitem, hsent⟩
  · rcases hwatermark with heq | heq
    · rw [heq]
      exact h.reached read hread
    · rw [heq]
      exact h.watermark
  · intro other hother
    simp [finished] at hother
  · have hknows : Knows setting d device row ∨ ∃ known ∈ read.batch,
        covers (setting.host d) setting.lossy known (opened setting.key row) = true := by
      rcases hwatermark with heq | heq
      · exact (h.inSight row hrow hvalid).reading read hread (heq ▸ hle)
      · exact Or.inl ((h.inSight row hrow hvalid).watermark (heq ▸ hle))
    rcases hknows with ⟨known, hmem, hcovers⟩ | ⟨known, hmem, hcovers⟩
    · exact ⟨known, hmono hmem, hcovers⟩
    · refine ⟨known, List.mem_append_left _ ?_, hcovers⟩
      rw [hoffered]
      exact List.mem_append_right _ hmem
  · intro other hother
    simp [finished] at hother

/-- Another table, whose valid rows are in sight. -/
theorem DeviceInv.replaced {after : Table} (h : DeviceInv setting table d device)
    (hrows : ∀ row ∈ after.rows, Valid setting.key row → row ∈ table.rows ∨
      Fleet.InSight setting d device row) : DeviceInv setting after d device := by
  refine ⟨h.outbox, h.watermark, h.reached, fun row hrow hvalid => ?_⟩
  rcases hrows row hrow hvalid with hold | hnew
  · exact h.inSight row hold hvalid
  · exact hnew

/-- A device knows what it sends. -/
theorem DeviceInv.inSight_outbox (hkey : Lawful setting.key)
    (h : DeviceInv setting table d device) {row : CloudItem} (hrow : row ∈ device.outbox) :
    Fleet.InSight setting d device row := by
  obtain ⟨item, hitem, hsent⟩ := h.outbox row hrow
  have hknows : Knows setting d device row :=
    ⟨item, List.mem_append_right _ hitem, covers_outgoing hkey (setting.host d) setting.lossy hsent⟩
  exact ⟨fun _ => hknows, fun _ _ _ => Or.inl hknows⟩

end Devices

variable [DecidableEq ι] {setting} {shared after : Shared ι σ}

theorem Inv.set (h : Inv setting shared) {d : ι} {device : Device σ}
    (hdevice : DeviceInv setting shared.table d device) : Inv setting (shared.set d device) := by
  refine ⟨h.sent, fun e => ?_⟩
  by_cases hsame : e = d
  · subst hsame
    simpa [Shared.set] using hdevice
  · simpa [Shared.set, hsame] using h.devices e

/-- A request whose rows are in sight of the other devices. -/
theorem Inv.send (hkey : Lawful setting.key) (h : Inv setting shared) {d : ι} {table : Table}
    (hallowed : SendsInSight setting shared (.send d))
    (hupsert : Table.upsert shared.table ((shared.devices d).outbox.take uploadBatch) =
      some table) :
    Inv setting { shared.set d { shared.devices d with
      outbox := (shared.devices d).outbox.drop uploadBatch } with table := table } := by
  have hrows : ∀ e, ∀ row ∈ table.rows, Valid setting.key row → row ∈ shared.table.rows ∨
      Fleet.InSight setting e (shared.devices e) row := by
    intro e row hrow hvalid
    rcases mem_upsert hupsert hrow with hbatch | hold
    · right
      by_cases hsame : e = d
      · subst hsame
        exact (h.devices e).inSight_outbox hkey (List.mem_of_mem_take hbatch)
      · exact hallowed row hbatch hvalid e hsame
    · exact Or.inl hold
  refine ⟨fun row hrow hvalid => ?_, fun e => ?_⟩
  · rcases mem_upsert hupsert hrow with hbatch | hold
    · obtain ⟨item, -, hsent⟩ := (h.devices d).outbox row (List.mem_of_mem_take hbatch)
      exact ⟨_, item, hsent⟩
    · exact h.sent row hold hvalid
  · have hdevice := (h.devices e).replaced (hrows e)
    by_cases hsame : e = d
    · subst hsame
      simp only [Shared.set, Function.update_self]
      refine ⟨fun row hrow => ?_, hdevice.watermark, hdevice.reached, fun row hrow hvalid => ?_⟩
      · exact hdevice.outbox row (List.mem_of_mem_drop hrow)
      · exact inSight_mono (hdevice.inSight row hrow hvalid) rfl (Or.inl rfl) fun _ hmem => hmem
    · simpa [Shared.set, hsame] using hdevice

omit [DecidableEq ι] in
/-- A row nobody signed is in nobody's way. -/
theorem Inv.inject (h : Inv setting shared) {row : CloudItem} {table : Table}
    (hforged : setting.key.verifyMetadata row = false)
    (hupsert : Table.upsert shared.table [row] = some table) :
    Inv setting { shared with table := table } := by
  have hold : ∀ r ∈ table.rows, Valid setting.key r → r ∈ shared.table.rows := by
    intro r hr hvalid
    rcases mem_upsert hupsert hr with hnew | hold
    · rw [List.mem_singleton.1 hnew] at hvalid
      exact absurd hvalid.1 (by simp [hforged])
    · exact hold
  exact ⟨fun r hr hvalid => h.sent r (hold r hr hvalid) hvalid,
    fun d => (h.devices d).replaced fun r hr hvalid => Or.inl (hold r hr hvalid)⟩

/-- Every step that sends in sight keeps the invariant. -/
theorem inv_step (hkey : Lawful setting.key) (act : Act ι σ) (h : Inv setting shared)
    (hallowed : SendsInSight setting shared act) (hstep : step setting shared act = some after) :
    Inv setting after := by
  cases act with
  | change d store =>
    rw [← Option.some.inj hstep]
    exact h.set ((h.devices d).change store _)
  | scan d items =>
    simp only [step] at hstep
    split at hstep
    · rw [← Option.some.inj hstep]
      exact h.set ((h.devices d).scan items)
    · simp at hstep
  | send d =>
    simp only [step] at hstep
    split at hstep
    · obtain ⟨table, hupsert, heq⟩ := Option.map_eq_some_iff.1 hstep
      rw [← heq]
      exact h.send hkey hallowed hupsert
    · simp at hstep
  | fetch d now =>
    simp only [step] at hstep
    split at hstep
    · rename_i rows _ hfetch
      rw [← Option.some.inj hstep]
      exact h.set ((h.devices d).fetch hkey h.sent now hfetch)
    · simp at hstep
  | finish d =>
    obtain ⟨read, hread, heq⟩ := Option.map_eq_some_iff.1 hstep
    rw [← heq]
    exact h.set ((h.devices d).finish hread)
  | abandon d =>
    rw [← Option.some.inj hstep]
    exact h.set (h.devices d).abandon
  | inject row =>
    simp only [step] at hstep
    split at hstep
    · simp at hstep
    · rename_i hforged
      obtain ⟨table, hupsert, heq⟩ := Option.map_eq_some_iff.1 hstep
      rw [← heq]
      exact h.inject (by simpa using hforged) hupsert

theorem inv_start (h : (machine setting).start shared) : Inv setting shared := by
  obtain ⟨stores, rfl⟩ := h
  refine ⟨by simp [emptyTable], fun d => ⟨by simp [Device.initial], ?_, ?_, ?_⟩⟩
  · exact ⟨le_rfl, by simp [Device.initial]⟩
  · simp [Device.initial]
  · simp [emptyTable]

/-- In every run in which no request puts a valid row behind a device that does
not know it, no device's watermark ever stands at or past a valid row it was not
handed and never held, itself or a version that beats it. -/
theorem no_row_skipped (setting : Setting ι σ) (hkey : Lawful setting.key) (shared : Shared ι σ)
    (h : Reaches (machine setting) (SendsInSight setting) shared) :
    NoneSkipped setting shared := by
  have hinv : Inv setting shared := h.invariant (fun _ hstart => inv_start hstart)
    fun _ _ act hinv hallowed hstep => inv_step hkey act hinv hallowed hstep
  intro d row hrow hvalid hle
  exact ((hinv.devices d).inSight row hrow hvalid).watermark hle

/-- A key for concrete runs: what is sealed travels in the place of the nonce. -/
def sampleKey : SyncKey where
  signMetadata := fun _ => "signed"
  verifyMetadata := fun row => row.signature = "signed"
  encryptRow := fun content _ =>
    (String.ofList (content.map fun byte => Char.ofNat byte.toNat), "sealed")
  decryptRow := fun _ nonce _ => some (nonce.toList.map fun c => UInt8.ofNat c.toNat)

private theorem sampleKey_lawful : Lawful sampleKey := by
  refine ⟨fun content itemId => ?_, fun content itemId => ?_⟩
  · have hbyte : ∀ byte : UInt8, UInt8.ofNat (Char.ofNat byte.toNat).toNat = byte := by
      intro byte
      have hall : ∀ n : Fin 256, UInt8.ofNat (Char.ofNat n).toNat = UInt8.ofNat n := by
        decide +kernel
      have hbyte := hall ⟨byte.toNat, byte.toNat_lt⟩
      rw [UInt8.ofNat_toNat] at hbyte
      exact hbyte
    simp only [sampleKey, String.toList_ofList, List.map_map, Option.some.injEq]
    conv_rhs => rw [← List.map_id content]
    refine List.map_congr_left fun byte _ => hbyte byte
  · have hsize : (sampleKey.encryptRow content itemId).2.utf8ByteSize = 6 := by rfl
    rw [hsize]
    unfold encodedLen tagLen
    omega

def sampleNote (itemId : String) (createdAt : Int) : LocalItem where
  itemId := itemId
  originDeviceId := "phone"
  content := [104, 105]
  contentType := "text"
  payloadMetadata := none
  createdAt := createdAt
  deleted := false
  sourceAppBundleId := none
  sourceAppName := none

/-- Two devices that keep whatever they are handed. -/
def pair : Setting Bool (List LocalItem) where
  key := sampleKey
  host := fun d => { sampleHost with here := if d then "phone" else "laptop" }
  source := fun _ =>
    { applyRemoteBatch := fun store batch => (store ++ batch, .ok (batch.map fun _ => .merged))
      requeueLocalWinner := fun store _ => (store, .ok false) }
  stored := fun _ store => store
  lossy := fun bytes => String.ofList (bytes.map fun byte => Char.ofNat byte.toNat)

def joined : Shared Bool (List LocalItem) :=
  ⟨emptyTable, fun d => Device.initial pair d []⟩

private theorem joined_start : (machine pair).start joined := ⟨fun _ => [], rfl⟩

/-- A note is written, sent and pulled by the other device. -/
def uploadThenPull : List (Act Bool (List LocalItem)) :=
  [.change true [sampleNote "a" 100], .scan true [sampleNote "a" 100], .send true,
    .fetch false 1000, .finish false]

def pulled : Shared Bool (List LocalItem) :=
  (run (machine pair) joined uploadThenPull).getD joined

theorem no_row_skipped_pulled :
    Reaches (machine pair) (SendsInSight pair) pulled ∧ NoneSkipped pair pulled ∧
      pulled.table.rows.map rowKey = [⟨100, some "a"⟩] ∧
      (pulled.devices false).watermark = ⟨100, some "a"⟩ := by
  have hreaches : Reaches (machine pair) (SendsInSight pair) pulled :=
    (Reaches.start joined joined_start).of_run_getD uploadThenPull (by decide)
      (by decide) joined
  exact ⟨hreaches, no_row_skipped pair sampleKey_lawful pulled hreaches, by decide,
    by decide⟩

/-- The other device was offline with an older note of its own, and sends it only
now. -/
def lateUpload : List (Act Bool (List LocalItem)) :=
  [.change true [sampleNote "a" 100], .scan true [sampleNote "a" 100], .send true,
    .fetch true 1000, .finish true,
    .change false [sampleNote "b" 50], .scan false [sampleNote "b" 50], .send false]

def overlooked : Shared Bool (List LocalItem) :=
  (run (machine pair) joined lateUpload).getD joined

/-- Its row is below the watermark of the first device, which was never handed it
and will not fetch it. -/
theorem late_upload_skipped :
    ∃ shared, Reaches (machine pair) (fun _ _ => True) shared ∧ ¬ NoneSkipped pair shared := by
  refine ⟨overlooked, (Reaches.start joined joined_start).of_run_getD lateUpload
    (by decide) (by decide) joined, fun h => ?_⟩
  obtain ⟨row, hrow, hfacts⟩ : ∃ row ∈ overlooked.table.rows, Valid pair.key row ∧
      rowKey row ≤ (overlooked.devices true).watermark ∧
      ¬ Knows pair true (overlooked.devices true) row := by decide
  exact hfacts.2.2 (h true row hrow hfacts.1 hfacts.2.1)

end CopyPaste.Cloud.InSight
