import CopyPaste.Files.Download
import CopyPaste.History.Recapture

/-!
The references to files in the runs of the history. A reference is written with the offer its
item is published with, and goes as soon as the ciphertext of the item does: while it is there,
the item offers the size of the reference and no digest.
-/

namespace CopyPaste.History.Referenced

open Lib.Checks Lib.Rows Lib.Guarded Merge.Payload Merge.Storage Merge.Prepare Merge.Batch
  Merge.Pages Files.Tables Files.Reseal Files.Bodies Files.Download Ingest Current

/-- The ciphertext of an item under a reference is that of the offer it was published with. -/
def Referred (vault : Vault) (disk : Disk) : Prop :=
  ∀ held ∈ disk.files.references, ∃ nonce version,
    FileTransfer.isValid ⟨held.sizeBytes, "", version⟩ = true ∧
      contentCiphertext disk.store held.itemId = some (some (sealWithDigest vault.toCipher nonce
        (vault.renderTransfer ⟨held.sizeBytes, "", version⟩) held.itemId))

variable {sys : System} {host : Host} {vault : Vault} {disk disk' : Disk}

/-- Only the whole envelope of a stream has it as its row part. -/
theorem eq_of_rowCiphertext {cipher : Cipher} {nonce : StreamNonce} {bytes offer : List UInt8}
    {id : String} (h : rowCiphertext bytes = sealWithDigest cipher nonce offer id) :
    bytes = sealWithDigest cipher nonce offer id := by
  unfold rowCiphertext splitReference at h
  split at h
  · rename_i half shared hsplit
    split at hsplit
    · rename_i hmagic
      obtain ⟨rfl, -⟩ := Prod.mk.inj (Option.some.inj hsplit)
      obtain ⟨tail, rfl⟩ := List.isPrefixOf_iff_prefix.1 hmagic.1
      have hthird := congrArg (fun envelope => envelope[2]?) h
      simp [referenceMagic, sealWithDigest, header, binaryMagic] at hthird
    · cases hsplit
  · exact h

/-- While a reference is there, its item is the offer of it. -/
theorem Referred.published (h : Referred sys.vault disk) (hlaws : Laws sys)
    (hreads : ∀ transfer, transfer.isValid = true →
      sys.host.parseTransfer (sys.vault.renderTransfer transfer) = some transfer) :
    Published sys.host sys.vault disk := by
  intro held hheld offer hoffer
  obtain ⟨nonce, version, hvalid, hcontent⟩ := h held hheld
  obtain ⟨row, hlookup, -, -, hrow⟩ := Files.Complete.offerOf_eq_ok hoffer
  obtain ⟨-, -, ⟨bytes, hopened, hparsed⟩, -⟩ := Files.Complete.rowOffer_eq_ok hrow
  obtain ⟨payload, hpayload, hopen⟩ := Option.bind_eq_some_iff.1 hopened
  have hid : row.id = held.itemId := (lookup_eq_some hlookup).2
  rw [contentCiphertext, hlookup, Option.map_some, hpayload, Option.map_some, Option.some.injEq,
    Option.some.injEq] at hcontent
  rw [eq_of_rowCiphertext hcontent, hid, hlaws.offers _ _ _ hvalid, Option.some.injEq] at hopen
  rw [← hopen, hreads _ hvalid, Option.some.injEq] at hparsed
  rw [← hparsed]
  exact ⟨rfl, rfl⟩

theorem Referred.of_same (h : Referred vault disk)
    (hcontent : ∀ id, contentCiphertext disk'.store id = contentCiphertext disk.store id)
    (hreferences : disk'.files.references = disk.files.references) : Referred vault disk' := by
  intro held hheld
  rw [hcontent]
  exact h held (hreferences ▸ hheld)

/-- Whatever a statement does to the history, the references it leaves are of offers. -/
theorem Referred.settle (h : Referred vault disk) (after : Store) :
    Referred vault (disk.settle after) := by
  intro held hheld
  rw [references_settle, List.mem_filter, decide_eq_true_eq] at hheld
  obtain ⟨nonce, version, hvalid, hcontent⟩ := h held hheld.1
  refine ⟨nonce, version, hvalid, ?_⟩
  rw [← hcontent]
  by_contra hchanged
  exact hheld.2 (mem_changed.2 ⟨hcontent ▸ nofun, hchanged⟩)

theorem Referred.wrote (rows : List (Incoming × Decision)) (h : Referred vault disk) :
    Referred vault (writeRows host disk rows).1 := by
  induction rows generalizing disk with
  | nil => exact h
  | cons row rest ih =>
    obtain ⟨incoming, decision⟩ := row
    cases decision with
    | refused | lost => exact ih h
    | won ready => exact ih (h.settle _)

theorem Referred.redone (h : Referred vault disk) {refused : List String}
    {rows : List (Entry × P2pApply)} {applied : List P2pApply}
    (hredo : redoRows host refused disk rows = .ok (disk', applied)) : Referred vault disk' := by
  induction rows generalizing disk refused applied with
  | nil =>
    obtain ⟨rfl, -⟩ := Prod.mk.inj (Except.ok.inj hredo)
    exact h
  | cons row rest ih =>
    obtain ⟨step, later, rfl | ⟨-, happly⟩, hlast, -⟩ := redoRows_cons host hredo
    · exact ih h hlast
    · obtain ⟨answer, -, hsettled⟩ := bind_ok_iff.1 happly
      obtain rfl := Except.ok.inj hsettled
      exact ih (h.settle _) hlast

theorem Referred.merged (h : Referred vault disk) {page : List Incoming} {applied : List P2pApply}
    (hmerge : mergePage host disk page = .ok (disk', applied)) : Referred vault disk' := by
  obtain ⟨ds, -, hmerge⟩ := bind_ok_iff.1 hmerge
  refine Referred.redone ?_ hmerge
  refine Referred.of_same (Referred.wrote (page.zip ds) h) (fun id => ?_) rfl
  exact contentCiphertext_pinPass _ _ id

/-- A row under an id of its own leaves the ciphertexts of the others. -/
theorem contentCiphertext_append {store : Store} {row : ItemRow}
    (hfresh : ∀ other ∈ store.items, other.id ≠ row.id) (id : String) :
    contentCiphertext { store with items := store.items ++ [row] } id =
      if id = row.id then some (row.payload.map fun payload => rowCiphertext payload.2)
      else contentCiphertext store id := by
  unfold contentCiphertext
  rw [lookup_append]
  split
  · rename_i hid
    rw [lookup_eq_none_iff.2 fun other hother => hid ▸ hfresh other hother, hid]
    simp [lookup]
  · rename_i hid
    simp [lookup, Ne.symm hid]

/-- A publication writes the reference with its offer. -/
theorem Referred.inserted (h : Referred sys.vault disk) {p : Publication} {item : NewItem}
    {deduplicate : Bool} {ingested : Ingested} (hitem : publishItem sys p = .ok item)
    (hinsert : insertFileReference sys.host disk item p.file deduplicate = .ok (disk', ingested)) :
    Referred sys.vault disk' := by
  unfold insertFileReference at hinsert
  split at hinsert
  · obtain ⟨store, -, hdone⟩ := bind_ok_iff.1 hinsert
    obtain ⟨rfl, -⟩ := Prod.mk.inj (Except.ok.inj hdone)
    exact h.settle store
  · obtain ⟨store, hrow, hdone⟩ := bind_ok_iff.1 hinsert
    obtain ⟨hfresh, rfl⟩ := Files.Complete.insertRow_eq_ok (mapError_ok_iff.1 hrow)
    split at hdone
    · cases hdone
    obtain ⟨rfl, -⟩ := Prod.mk.inj (Except.ok.inj hdone)
    intro held hheld
    rcases List.mem_append.1 hheld with hold | hnew
    · exact h.settle _ held hold
    · obtain rfl := List.mem_singleton.1 hnew
      unfold publishItem at hitem
      split at hitem
      · cases hitem
      obtain ⟨-, hciphertext, -, -⟩ := Files.Complete.offerItem_eq_ok hitem
      refine ⟨p.streamNonce, some p.sourceVersion, Recapture.isValid_of_offerItem hitem, ?_⟩
      refine (contentCiphertext_append hfresh item.id).trans ?_
      refine (if_pos rfl).trans ?_
      show some (some (rowCiphertext item.ciphertext)) = _
      rw [hciphertext, rowCiphertext_sealWithDigest]
      rfl

theorem Referred.attached (h : Referred vault disk) {id : String} {reader : Reader} {size : Nat}
    {sha256 : String} {nonces : Nat → List UInt8}
    (hattach : attachBody host vault disk id reader size sha256 nonces = .ok disk') :
    Referred vault disk' := by
  obtain ⟨bodies, -, hdone⟩ := bind_ok_iff.1 hattach
  split at hdone
  · cases hdone
  · obtain rfl := Except.ok.inj hdone
    exact h.of_same (fun _ => rfl) rfl

/-- An import writes the history and the bodies of files. -/
theorem Referred.imported (h : Referred vault disk) {item : NewItem} {reader : Reader} {size : Nat}
    {sha256 : String} {nonces : Nat → List UInt8} {explicit : Bool}
    (hinsert : insertFileTransfer host vault disk item reader size sha256 nonces explicit =
      .ok disk') : Referred vault disk' := by
  unfold insertFileTransfer at hinsert
  split at hinsert
  · obtain ⟨store, -, hdone⟩ := bind_ok_iff.1 hinsert
    exact Except.ok.inj hdone ▸ h.settle store
  · obtain ⟨store, -, hattach⟩ := bind_ok_iff.1 hinsert
    cases explicit with
    | true => exact (h.settle store).attached hattach
    | false => exact ((h.settle _).settle store).attached hattach

theorem Referred.written (h : Referred sys.vault disk) {op : Current.Op} {answer : Option ItemRow}
    (hwrite : op.write sys disk = .ok (disk', answer)) : Referred sys.vault disk' := by
  cases op with
  | text | binary | promote | setSecret =>
    obtain ⟨_, -, hdone⟩ := bind_ok_iff.1 hwrite
    obtain ⟨rfl, -⟩ := Prod.mk.inj (Except.ok.inj hdone)
    exact h.settle _
  | reference p settings =>
    obtain ⟨item, hitem, hwrite⟩ := bind_ok_iff.1 hwrite
    obtain ⟨_, hinsert, hdone⟩ := bind_ok_iff.1 hwrite
    obtain ⟨rfl, -⟩ := Prod.mk.inj (Except.ok.inj hdone)
    exact h.inserted (mapError_ok_iff.1 hitem) (mapError_ok_iff.1 hinsert)
  | importFile file settings =>
    obtain ⟨_, -, hwrite⟩ := bind_ok_iff.1 hwrite
    obtain ⟨_, hinsert, hdone⟩ := bind_ok_iff.1 hwrite
    obtain ⟨rfl, -⟩ := Prod.mk.inj (Except.ok.inj hdone)
    exact h.imported (mapError_ok_iff.1 hinsert)
  | delete | evict =>
    obtain ⟨rfl, -⟩ := Prod.mk.inj (Except.ok.inj hwrite)
    exact h.settle _
  | merge page =>
    obtain ⟨_, hmerge, hdone⟩ := bind_ok_iff.1 hwrite
    obtain ⟨rfl, -⟩ := Prod.mk.inj (Except.ok.inj hdone)
    exact h.merged (mapError_ok_iff.1 hmerge)

theorem referred_step {s s' : Current.State} {op : Current.Op} (h : Referred sys.vault s.disk)
    (hstep : Current.step sys s op = some s') : Referred sys.vault s'.disk := by
  unfold Current.step at hstep
  split at hstep
  · exact Option.some.inj hstep ▸ h
  · rename_i disk answer hwrite
    obtain rfl := Option.some.inj hstep
    have hwritten := h.written hwrite
    show Referred sys.vault (sys.swept op.sweep disk)
    unfold System.swept
    cases op.sweep with
    | none => exact hwritten
    | some settings => exact hwritten.settle _

/-- In every run of the history, a reference is kept for the offer it was published with. -/
theorem published_of_reaches (hlaws : Laws sys)
    (hreads : ∀ transfer, transfer.isValid = true →
      sys.host.parseTransfer (sys.vault.renderTransfer transfer) = some transfer)
    {allowed : Current.State → Current.Op → Prop} {s : Current.State}
    (h : Reaches (Current.machine sys) allowed s) : Published sys.host sys.vault s.disk := by
  have hreferred : Referred sys.vault s.disk := by
    induction h with
    | start s hstart =>
      obtain rfl : s = {} := hstart
      exact nofun
    | next op _ _ hstep ih => exact referred_step ih hstep
  exact hreferred.published hlaws hreads

end CopyPaste.History.Referenced
