import CopyPaste.Files.Bodies

/-!
Runs of imports, upgrades, deletions, evictions and the clearing of stages. A file that
an item has is complete: the row offers it, and the chunks of its blob are the pieces of
the bytes that were imported. Nothing else is kept of any blob.
-/

namespace CopyPaste.Files.Complete

open Lib.Checks Lib.Rows Lib.Shared Lib.Pieces Lib.Guarded Merge.Payload Merge.Storage Tables Reseal Bodies

/-- The database, and beside it the bytes each item was last imported with. -/
structure State where
  disk : Disk
  imported : String → List UInt8

variable (host : Host) (vault : Vault)

/-- The item an operation stores a body for, and the bytes it reads. -/
def brings (disk : Disk) : Op → Option (String × List UInt8)
  | .importFile file =>
    match (do offerItem host vault file (← file.offer host) : Except FileTransferError NewItem) with
    | .error _ => none
    | .ok item =>
      if (liveRow disk.store item.id).isSome && !file.explicit then none
      else some (item.id, delivered file.second)
  | .upgradeLegacy id _ _ _ =>
    (legacyFile host vault disk id).map fun (row, bytes, _) => (row.id, bytes)
  | .delete _ _ | .evict _ | .clearFileStages => none

def step (s : State) (op : Op) : Option State :=
  match op.run host vault s.disk with
  | .error _ => some s
  | .ok disk =>
    some ⟨disk, match brings host vault s.disk op with
      | none => s.imported
      | some (id, bytes) => Function.update s.imported id bytes⟩

/-- What an item's file comes to. -/
structure Held (disk : Disk) (id blob : String) (bytes : List UInt8) : Prop where
  offer : offerOf host vault disk id = .ok ⟨bytes.length, blob, none⟩
  digest : host.sha256 bytes = blob
  stored : Stored vault disk.files.bodies blob bytes

structure Sound (s : State) : Prop where
  rows : (s.disk.store.items.map ItemRow.id).Nodup
  owners : (s.disk.files.bodies.owners.map Prod.fst).Nodup
  bodies : ∀ id blob, (id, blob) ∈ s.disk.files.bodies.owners →
    Held host vault s.disk id blob (s.imported id)
  exact : s.disk.files.bodies.Exact
  numbered : ∀ blob, ∃ k, (s.disk.files.bodies.partsOf blob).map Chunk.index = List.range k
  nothing : s.disk.files.bodies.partsOf (host.sha256 []) = []

/-- What stages left: chunks numbered through, none of the empty file. -/
def start (s : State) : Prop := Sound host vault s ∧ s.disk.files.bodies.owners = []

def machine : Machine State Op where
  start := start host vault
  step := step host vault

/-- The readings of a body fill its chunks, a file that is copied again has the offer of
its id and room for what is merged into its metadata, and so has one that is upgraded. -/
def Clear (s : State) : Op → Prop
  | .importFile file =>
    Whole file.second ∧
      ∀ transfer item row, file.offer host = .ok transfer →
        offerItem host vault file transfer = .ok item → file.explicit = false →
        liveRow s.disk.store item.id = some row → hasFileTransfer s.disk item.id = true →
        offerOf host vault s.disk item.id = .ok transfer ∧
          (recapturedMetadata host item row.payloadMetadata).isSome
  | .upgradeLegacy id _ _ _ =>
    ∀ row bytes file, legacyFile host vault s.disk id = some (row, bytes, file) →
      ((upgradedMetadata host row bytes file).toJson host fileType).isSome
  | .delete _ _ | .evict _ | .clearFileStages => True

variable {host vault}

variable {bodies bodies' : BodyPool} {blob id sha256 : String} {bytes : List UInt8}
  {after store : Store} {disk disk' : Disk} {reader : Reader} {size : Nat}
  {nonces : Nat → List UInt8} {file : Import} {transfer : FileTransfer} {row : ItemRow}
  {item : NewItem}

theorem stored_shrinks (h : Stored vault bodies blob bytes) (hshrinks : Shrinks bodies bodies')
    (hused : bodies'.uses blob = true) : Stored vault bodies' blob bytes := by
  rcases hshrinks.parts blob with hsame | ⟨-, hunused⟩
  · unfold Stored
    rw [hsame]
    exact h
  · rw [hused] at hunused
    cases hunused

/-- A statement keeps the bodies sound when the offers of the files it leaves stand. -/
theorem Sound.settle {s : State} (h : Sound host vault s)
    (hrows : (after.items.map ItemRow.id).Nodup)
    (hoffers : ∀ id blob, (id, blob) ∈ s.disk.files.bodies.owners →
      id ∉ changed s.disk.store after →
      offerOf host vault (s.disk.settle after) id = offerOf host vault s.disk id) :
    Sound host vault ⟨s.disk.settle after, s.imported⟩ := by
  obtain ⟨hshrinks, howners⟩ := bodies_settle s.disk after
  refine ⟨hrows, ?_, ?_, hshrinks.exact h.exact, ?_, ?_⟩
  · exact h.owners.sublist (hshrinks.owners.map _)
  · intro id blob hmem
    have hused : (s.disk.settle after).files.bodies.uses blob = true :=
      uses_of_mem_blobsOf (mem_blobsOf.2 hmem)
    rw [howners, List.mem_filter, decide_eq_true_eq] at hmem
    have hheld := h.bodies id blob hmem.1
    refine ⟨?_, hheld.digest, stored_shrinks hheld.stored hshrinks hused⟩
    rw [hoffers id blob hmem.1 hmem.2]
    exact hheld.offer
  · intro blob
    rcases hshrinks.parts blob with hsame | ⟨hnone, -⟩
    · obtain ⟨k, hk⟩ := h.numbered blob
      exact ⟨k, hsame ▸ hk⟩
    · exact ⟨0, by simp [hnone]⟩
  · rcases hshrinks.parts (host.sha256 []) with hsame | ⟨hnone, -⟩
    · exact hsame.trans h.nothing
    · exact hnone

/-- What the offer of an item reads: a live row that has a payload. -/
theorem offerOf_eq_ok {offer : FileTransfer} (h : offerOf host vault disk id = .ok offer) :
    ∃ row, lookup ItemRow.id disk.store.items id = some row ∧ row.deleted = false ∧
      row.payload.isSome = true ∧ rowOffer host vault row = .ok (some offer) := by
  unfold offerOf at h
  split at h
  · cases h
  · rename_i row hrow
    obtain ⟨hlookup, hlive⟩ := Option.filter_eq_some_iff.1 hrow
    split at h
    · cases h
    · cases h
    · rename_i found hoffer
      obtain rfl := Except.ok.inj h
      refine ⟨row, hlookup, by simpa using hlive, ?_, hoffer⟩
      unfold rowOffer at hoffer
      cases hpayload : row.payload with
      | some payload => rfl
      | none =>
        rw [hpayload] at hoffer
        split at hoffer
        · cases hoffer
        · cases hoffer

theorem offerOf_congr
    (h : lookup ItemRow.id disk'.store.items id = lookup ItemRow.id disk.store.items id) :
    offerOf host vault disk' id = offerOf host vault disk id := by
  unfold offerOf liveRow
  rw [h]

theorem Sound.delete {s : State} (h : Sound host vault s) (ids : List String) (now : Int) :
    Sound host vault ⟨deleteRows s.disk ids now, s.imported⟩ := by
  have hident : ∀ row : ItemRow,
      (if row.id ∈ ids ∧ row.deleted = false then tombstone now row else row).id = row.id := by
    intro row
    split <;> rfl
  refine h.settle (nodup_map _ hident _ h.rows) ?_
  intro id blob hmem hkept
  obtain ⟨row, hrow, hlive, hpayload, -⟩ := offerOf_eq_ok (h.bodies id blob hmem).offer
  refine offerOf_congr ?_
  have hafter := lookup_map _ hident s.disk.store.items id
  rw [hrow, Option.map_some] at hafter
  have hid := (lookup_eq_some hrow).2
  by_cases hin : id ∈ ids
  · rw [if_pos ⟨hid ▸ hin, hlive⟩] at hafter
    refine absurd (mem_changed.2 ⟨?_, ?_⟩) hkept
    · simp [contentCiphertext, hrow]
    · obtain ⟨payload, hpayload⟩ := Option.isSome_iff_exists.1 hpayload
      unfold contentCiphertext
      rw [hrow, hafter, Option.map_some, Option.map_some, hpayload]
      simp [tombstone]
  · rw [if_neg (fun hboth => hin (hid ▸ hboth.1))] at hafter
    exact hafter.trans hrow.symm

theorem Sound.evict {s : State} (h : Sound host vault s) (ids : List String) :
    Sound host vault ⟨evictRows s.disk ids, s.imported⟩ := by
  refine h.settle (h.rows.sublist (List.filter_sublist.map _)) ?_
  intro id blob hmem hkept
  obtain ⟨row, hrow, -, -, -⟩ := offerOf_eq_ok (h.bodies id blob hmem).offer
  refine offerOf_congr ?_
  have hafter : lookup ItemRow.id (s.disk.store.items.filter fun row => row.id ∉ ids) id =
      if id ∉ ids then lookup ItemRow.id s.disk.store.items id else none :=
    lookup_filter (fun id => id ∉ ids) s.disk.store.items id
  by_cases hin : id ∈ ids
  · rw [if_neg (by simpa using hin)] at hafter
    refine absurd (mem_changed.2 ⟨?_, ?_⟩) hkept
    · simp [contentCiphertext, hrow]
    · unfold contentCiphertext
      rw [hrow, hafter]
      simp
  · rw [if_pos hin] at hafter
    exact hafter

theorem Sound.clearStages {s : State} (h : Sound host vault s) :
    Sound host vault ⟨clearFileStages s.disk, s.imported⟩ := by
  have hshrinks := shrinks_dropLeases s.disk.files.bodies
  refine ⟨h.rows, h.owners, ?_, hshrinks.exact h.exact, ?_, ?_⟩
  · intro id blob hmem
    have hheld := h.bodies id blob hmem
    exact ⟨hheld.offer, hheld.digest,
      stored_shrinks hheld.stored hshrinks (uses_of_mem_blobsOf (mem_blobsOf.2 hmem))⟩
  · intro blob
    rcases hshrinks.parts blob with hsame | ⟨hnone, -⟩
    · obtain ⟨k, hk⟩ := h.numbered blob
      exact ⟨k, hsame ▸ hk⟩
    · exact ⟨0, by simp [clearFileStages, hnone]⟩
  · rcases hshrinks.parts (host.sha256 []) with hsame | ⟨hnone, -⟩
    · exact hsame.trans h.nothing
    · exact hnone

theorem partsOf_append_of_ne (bodies : BodyPool) {other : String} (h : other ≠ blob)
    (added : List Chunk) :
    Pool.partsOf { bodies with parts := bodies.parts ++ added.map (Prod.mk blob) } other =
      bodies.partsOf other := by
  have hfilter : (added.map (Prod.mk blob)).filter (fun part => part.1 = other) = [] := by
    rw [List.filter_eq_nil_iff]
    intro part hpart
    obtain ⟨chunk, -, rfl⟩ := List.mem_map.1 hpart
    simpa using Ne.symm h
  unfold Pool.partsOf
  rw [List.filter_append, hfilter, List.append_nil]

/-- The body of an item whose row offers it. -/
theorem Sound.attach (hlaws : Laws host vault) {s : State} (h : Sound host vault s)
    (hwhole : Whole reader)
    (hattach : attachBody host vault s.disk id reader size sha256 nonces = .ok disk)
    (hoffer : offerOf host vault s.disk id = .ok ⟨size, sha256, none⟩) :
    Sound host vault ⟨disk, Function.update s.imported id (delivered reader)⟩ := by
  obtain ⟨written, hwrite, hfresh, rfl⟩ := attachBody_ok hattach
  obtain ⟨added, rfl, hadded, hstored, hsha, hsize⟩ :=
    writeBody_stored hlaws.decrypts hwhole (h.numbered sha256) h.nothing hwrite
  have hindices := hstored.1
  rw [partsOf_append, List.map_append] at hindices
  -- New chunks come to a blob that had none, so to nobody else's body but an empty one.
  have hshared : ∀ other bytes, Stored vault s.disk.files.bodies other bytes →
      host.sha256 bytes = other →
      Stored vault { s.disk.files.bodies with
        parts := s.disk.files.bodies.parts ++ added.map (Prod.mk sha256) } other bytes := by
    intro other bytes hother hdigest
    by_cases hblob : other = sha256
    · have hsame : added = [] := by
        rcases hadded with hnone | hparts
        · exact hnone
        · have hcount := hother.1
          rw [hblob, hparts, List.map_nil, eq_comm, List.range_eq_nil] at hcount
          have hbytes : bytes = [] := by
            by_contra hne
            rw [count_pos (by decide) (List.length_pos_iff.2 hne)] at hcount
            omega
          have hdelivered : delivered reader = [] := by
            apply hlaws.empty
            rw [hsha, ← hblob, ← hdigest, hbytes]
          rw [hparts, hdelivered, List.length_nil, count_zero (by decide)] at hindices
          simpa using hindices
      rw [hsame]
      simpa using hother
    · unfold Stored
      rw [partsOf_append_of_ne _ hblob]
      exact hother
  refine ⟨h.rows, ?_, ?_, ?_, ?_, ?_⟩
  · rw [List.map_append, List.nodup_append]
    refine ⟨h.owners, by simp, ?_⟩
    intro key hkey other hother
    obtain ⟨owner, howner, rfl⟩ := List.mem_map.1 hkey
    obtain rfl : other = id := by simpa using hother
    rintro rfl
    exact hfresh owner.2 howner
  · intro key blob hmem
    rcases List.mem_append.1 hmem with hold | hnew
    · have hne : key ≠ id := by
        rintro rfl
        exact hfresh blob hold
      have hheld := h.bodies key blob hold
      rw [show (State.mk _ (Function.update s.imported id (delivered reader))).imported key =
        s.imported key from Function.update_of_ne hne _ _]
      exact ⟨hheld.offer, hheld.digest, hshared blob _ hheld.stored hheld.digest⟩
    · obtain ⟨rfl, rfl⟩ : key = id ∧ blob = sha256 := by simpa using hnew
      rw [show (State.mk _ (Function.update s.imported key (delivered reader))).imported key =
        delivered reader from Function.update_self ..]
      exact ⟨by rw [hsize]; exact hoffer, hsha, hstored⟩
  · intro part hpart
    rcases List.mem_append.1 hpart with hold | hnew
    · have hused := h.exact part hold
      unfold Pool.uses at hused ⊢
      rw [Bool.or_eq_true] at hused ⊢
      refine hused.imp_left fun howner => ?_
      rw [List.any_append, howner, Bool.true_or]
    · obtain ⟨chunk, -, rfl⟩ := List.mem_map.1 hnew
      simp [Pool.uses]
  · intro blob
    by_cases hblob : blob = sha256
    · subst hblob
      exact ⟨_, hstored.1⟩
    · obtain ⟨k, hk⟩ := h.numbered blob
      refine ⟨k, ?_⟩
      rw [← hk]
      exact congrArg _ (partsOf_append_of_ne _ hblob added)
  · by_cases hblob : host.sha256 [] = sha256
    · have hdelivered : delivered reader = [] := hlaws.empty _ (hsha.trans hblob.symm)
      rw [hdelivered, List.length_nil, count_zero (by decide), List.range_zero,
        List.append_eq_nil_iff] at hindices
      rw [hblob]
      refine (partsOf_append s.disk.files.bodies sha256 added).trans ?_
      rw [List.map_eq_nil_iff, List.map_eq_nil_iff] at hindices
      rw [hindices.1, hindices.2, List.nil_append]
    · exact (partsOf_append_of_ne _ hblob added).trans h.nothing

theorem isValid_of_toJson {m : PayloadMetadata} {file : FileMetadata} {text : String}
    (h : m.toJson host fileType = some text) (hfile : m.file = some file)
    (htransfer : file.transfer = some transfer) : transfer.isValid = true := by
  unfold PayloadMetadata.toJson at h
  split at h
  · rename_i hvalid
    have hcomponents := hvalid.1
    unfold PayloadMetadata.isValidFor PayloadMetadata.hasValidComponents at hcomponents
    rw [hfile] at hcomponents
    simp only [Option.all_some, Bool.and_eq_true] at hcomponents
    obtain ⟨⟨⟨⟨⟨hchecked, -⟩, -⟩, -⟩, -⟩, -⟩ := hcomponents
    unfold FileMetadata.isValid at hchecked
    rw [htransfer] at hchecked
    simp only [Option.all_some, Bool.and_eq_true] at hchecked
    exact hchecked.2
  · cases h

/-- A row that an offer was sealed into, with metadata that names it, offers it. -/
theorem rowOffer_sealed (hlaws : Laws host vault) {nonce : StreamNonce} {m : PayloadMetadata}
    {file : FileMetadata} (hsource : transfer.sourceVersion = none)
    (hkind : row.contentType = fileType) (hpayload : row.payload =
      some ([], sealWithDigest vault.toCipher nonce (vault.renderTransfer transfer) row.id))
    (hjson : (m.toJson host fileType).isSome)
    (hmetadata : row.payloadMetadata = m.toJson host fileType) (hfile : m.file = some file)
    (htransfer : file.transfer = some transfer) :
    rowOffer host vault row = .ok (some transfer) := by
  obtain ⟨text, htext⟩ := Option.isSome_iff_exists.1 hjson
  have hvalid := isValid_of_toJson htext hfile htransfer
  unfold rowOffer
  rw [if_neg (by simpa using hkind), hpayload, Option.bind_some, hlaws.opens _ _ _ hvalid,
    hmetadata, htext, Option.bind_some, hkind, hlaws.reads m text htext, Option.bind_some, hfile, Option.bind_some,
    htransfer]
  simp [hlaws.offers transfer hvalid hsource, hvalid]

theorem offerOf_of_row {offer : FileTransfer}
    (hrow : lookup ItemRow.id disk.store.items id = some row) (hlive : row.deleted = false)
    (h : rowOffer host vault row = .ok (some offer)) : offerOf host vault disk id = .ok offer := by
  unfold offerOf liveRow
  rw [hrow, Option.filter_some, hlive]
  simp [h]

/-- A row without a file goes, and no offer of a file with it. -/
theorem Sound.dropTombstone {s : State} (h : Sound host vault s) (id : String) :
    Sound host vault ⟨s.disk.settle { s.disk.store with
      items := s.disk.store.items.filter fun row => ¬ (row.id = id ∧ row.deleted) }, s.imported⟩ := by
  refine h.settle (h.rows.sublist (List.filter_sublist.map _)) ?_
  intro key blob hmem _
  obtain ⟨row, hrow, hlive, -, -⟩ := offerOf_eq_ok (h.bodies key blob hmem).offer
  obtain ⟨hin, hid⟩ := lookup_eq_some hrow
  refine offerOf_congr ?_
  rw [hrow, ← hid]
  refine lookup_of_mem (h.rows.sublist (List.filter_sublist.map _)) ?_
  rw [List.mem_filter]
  exact ⟨hin, by simp [hlive]⟩

theorem insertRow_eq_ok (h : insertRow store row = .ok after) :
    (∀ other ∈ store.items, other.id ≠ row.id) ∧
      after = { store with items := store.items ++ [row] } := by
  unfold insertRow at h
  split at h
  · cases h
  · rename_i hany
    refine ⟨?_, (Except.ok.inj h).symm⟩
    intro other hother hid
    refine hany (List.any_eq_true.2 ⟨other, hother, ?_⟩)
    simp [hid]

theorem Sound.insert {s : State} (h : Sound host vault s) {after : Store} {row : ItemRow}
    (hinsert : insertRow s.disk.store row = .ok after) :
    Sound host vault ⟨s.disk.settle after, s.imported⟩ ∧
      lookup ItemRow.id after.items row.id = some row := by
  obtain ⟨hfresh, rfl⟩ := insertRow_eq_ok hinsert
  have hnone : lookup ItemRow.id s.disk.store.items row.id = none := lookup_eq_none_iff.2 hfresh
  refine ⟨h.settle ?_ ?_, ?_⟩
  · rw [List.map_append, List.nodup_append]
    refine ⟨h.rows, by simp, ?_⟩
    intro key hkey other hother
    obtain ⟨old, hold, rfl⟩ := List.mem_map.1 hkey
    obtain rfl : other = row.id := by simpa using hother
    exact hfresh old hold
  · intro key blob hmem _
    obtain ⟨old, hold, -, -, -⟩ := offerOf_eq_ok (h.bodies key blob hmem).offer
    refine offerOf_congr ?_
    refine (lookup_append _ _ _).trans ?_
    rw [hold, Option.some_or]
  · rw [lookup_append, hnone, Option.none_or]
    simp [lookup]

theorem updateRow_eq_ok (h : updateRow store row = .ok after) :
    after = { store with
      items := store.items.map fun old => if old.id = row.id then row else old } := by
  unfold updateRow at h
  split at h
  · cases h
  · exact (Except.ok.inj h).symm

theorem lookup_update {items : List ItemRow} (id : String) :
    lookup ItemRow.id (items.map fun old => if old.id = row.id then row else old) id =
      (lookup ItemRow.id items id).map fun old => if id = row.id then row else old := by
  rw [lookup_map _ (fun old => by split <;> simp_all)]
  cases hold : lookup ItemRow.id items id with
  | none => rfl
  | some old =>
    rw [Option.map_some, Option.map_some, (lookup_eq_some hold).2]

/-- Another row in the place of one, its file gone or its offer as it was. -/
theorem Sound.update {s : State} (h : Sound host vault s)
    (hupdate : updateRow s.disk.store row = .ok after)
    (hoffer : ∀ blob, (row.id, blob) ∈ s.disk.files.bodies.owners →
      row.id ∉ changed s.disk.store after →
      offerOf host vault (s.disk.settle after) row.id = offerOf host vault s.disk row.id) :
    Sound host vault ⟨s.disk.settle after, s.imported⟩ := by
  obtain rfl := updateRow_eq_ok hupdate
  refine h.settle (nodup_map _ (fun old => by split <;> simp_all) _ h.rows) ?_
  intro key blob hmem hkept
  by_cases hkey : key = row.id
  · subst hkey
    exact hoffer blob hmem hkept
  · refine offerOf_congr ?_
    refine (lookup_update key).trans ?_
    simp [hkey]

/-- The metadata of an import, the offer in it. -/
def offered (file : Import) (transfer : FileTransfer) : PayloadMetadata :=
  { file.context with file := some { file.metadata with transfer := some transfer } }

theorem offerItem_eq_ok (h : offerItem host vault file transfer = .ok item) :
    item.contentType = fileType ∧
      item.ciphertext = sealWithDigest vault.toCipher file.streamNonce
        (vault.renderTransfer transfer) item.id ∧
      ((offered file transfer).toJson host fileType).isSome ∧
      item.payloadMetadata = (offered file transfer).toJson host fileType := by
  unfold offerItem at h
  simp only at h
  split at h
  · cases h
  · rename_i text htext
    obtain rfl := Except.ok.inj h
    have hjson : (offered file transfer).toJson host fileType = some text := htext
    exact ⟨rfl, rfl, by rw [hjson]; rfl, hjson.symm⟩

theorem rowOffer_eq_ok (h : rowOffer host vault row = .ok (some transfer)) :
    row.contentType = fileType ∧ transfer.isValid = true ∧
      (∃ bytes, (row.payload.bind fun payload => vault.openBinary payload.2 row.id) = some bytes ∧
        host.parseTransfer bytes = some transfer) ∧
      ∃ m, (row.payloadMetadata.bind fun json => PayloadMetadata.fromJson host json fileType) =
        some m := by
  unfold rowOffer at h
  split at h
  · cases h
  · rename_i hkind
    rw [not_not] at hkind
    rw [hkind] at h
    split at h
    · cases h
    · rename_i bytes hbytes
      split at h
      · cases h
      · rename_i found hfound
        split at h
        · rename_i hmatch
          obtain rfl := Option.some.inj (Except.ok.inj h)
          refine ⟨hkind, hmatch.2, ⟨bytes, hbytes, hmatch.1⟩, ?_⟩
          cases hm : row.payloadMetadata.bind fun json =>
              PayloadMetadata.fromJson host json fileType with
          | none => simp [hm] at hfound
          | some m => exact ⟨m, rfl⟩
        · cases h

/-- A file copied once more keeps its offer. -/
theorem rowOffer_recaptured (hlaws : Laws host vault) {row' : ItemRow}
    (hitem : offerItem host vault file transfer = .ok item)
    (hrow : rowOffer host vault row = .ok (some transfer)) (hid : row'.id = row.id)
    (hkind : row'.contentType = row.contentType) (hpayload : row'.payload = row.payload)
    (hmetadata : row'.payloadMetadata = recapturedMetadata host item row.payloadMetadata)
    (hsome : (recapturedMetadata host item row.payloadMetadata).isSome) :
    rowOffer host vault row' = .ok (some transfer) := by
  obtain ⟨htype, hvalid, ⟨bytes, hbytes, hparse⟩, previous, hprevious⟩ := rowOffer_eq_ok hrow
  obtain ⟨-, -, hjson, hitemjson⟩ := offerItem_eq_ok hitem
  obtain ⟨text, htext⟩ := Option.isSome_iff_exists.1 hjson
  have hmerged : recapturedMetadata host item row.payloadMetadata =
      ((offered file transfer).mergePrivacy previous).toJson host fileType := by
    unfold recapturedMetadata
    rw [hprevious, hitemjson, htext, Option.bind_some, hlaws.reads _ _ htext]
  rw [hmerged] at hmetadata hsome
  obtain ⟨merged, hmergedText⟩ := Option.isSome_iff_exists.1 hsome
  unfold rowOffer
  rw [hid, hkind, hpayload, hbytes, hmetadata, hmergedText, htype, Option.bind_some,
    hlaws.reads _ _ hmergedText]
  simp [PayloadMetadata.mergePrivacy, offered, hparse, hvalid]

theorem sourceVersion_offer (h : file.offer host = .ok transfer) :
    transfer.sourceVersion = none := by
  unfold Import.offer at h
  split at h
  · cases h
  · obtain ⟨seen, hdigest, h⟩ := bind_ok_iff.1 h
    rw [← Except.ok.inj h]

theorem hasFileTransfer_of_mem (hrow : liveRow disk.store id = some row)
    (hmem : (id, blob) ∈ disk.files.bodies.owners) : hasFileTransfer disk id = true := by
  unfold hasFileTransfer
  rw [hrow, Option.isSome_some, Bool.true_and, List.any_eq_true]
  exact ⟨_, hmem, by simp⟩

theorem liveRow_eq_some (h : liveRow store id = some row) :
    lookup ItemRow.id store.items id = some row ∧ row.id = id ∧ row.deleted = false := by
  obtain ⟨hlookup, hlive⟩ := Option.filter_eq_some_iff.1 h
  exact ⟨hlookup, (lookup_eq_some hlookup).2, by simpa using hlive⟩

theorem Sound.recapture (hlaws : Laws host vault) {s : State} (h : Sound host vault s)
    (hitem : offerItem host vault file transfer = .ok item)
    (hlive : liveRow s.disk.store item.id = some row)
    (hclear : hasFileTransfer s.disk item.id = true →
      offerOf host vault s.disk item.id = .ok transfer ∧
        (recapturedMetadata host item row.payloadMetadata).isSome)
    (hrecapture : recapture host s.disk item row = .ok disk) :
    Sound host vault ⟨disk, s.imported⟩ := by
  obtain ⟨hlookup, hid, -⟩ := liveRow_eq_some hlive
  unfold Bodies.recapture at hrecapture
  obtain ⟨store, hupdate, hrecapture⟩ := bind_ok_iff.1 hrecapture
  obtain rfl := Except.ok.inj hrecapture
  refine h.update hupdate ?_
  intro blob hmem _
  rw [show (recapturedRow host item row).id = item.id from hid] at hmem ⊢
  obtain ⟨hoffer, hsome⟩ := hclear (hasFileTransfer_of_mem hlive hmem)
  obtain ⟨held, hheld, hdeleted, -, hrow⟩ := offerOf_eq_ok hoffer
  obtain rfl : row = held := Option.some.inj (hlookup.symm.trans hheld)
  rw [hoffer]
  have hnew : rowOffer host vault (recapturedRow host item row) = .ok (some transfer) :=
    rowOffer_recaptured hlaws hitem hrow rfl rfl rfl rfl hsome
  refine offerOf_of_row ?_ ?_ hnew
  · obtain rfl := updateRow_eq_ok hupdate
    refine (lookup_update item.id).trans ?_
    rw [hlookup, Option.map_some,
      if_pos (show item.id = (recapturedRow host item row).id from hid.symm)]
  · exact hdeleted

theorem Sound.insertFile (hlaws : Laws host vault) {s : State} (h : Sound host vault s)
    (hsource : transfer.sourceVersion = none) (hwhole : Whole file.second)
    (hitem : offerItem host vault file transfer = .ok item)
    (hinsert : insertRow s.disk.store item.row = .ok store)
    (hattach : attachBody host vault (s.disk.settle store) item.id file.second transfer.sizeBytes
      transfer.sha256 file.nonces = .ok disk) :
    Sound host vault ⟨disk, Function.update s.imported item.id (delivered file.second)⟩ := by
  obtain ⟨hkind, hciphertext, hjson, hmetadata⟩ := offerItem_eq_ok hitem
  obtain ⟨hsound, hlookup⟩ := h.insert hinsert
  have hrow : rowOffer host vault item.row = .ok (some transfer) :=
    rowOffer_sealed hlaws hsource hkind (congrArg (fun bytes => some ([], bytes)) hciphertext)
      hjson hmetadata rfl rfl
  have hoffer : offerOf host vault (s.disk.settle store) item.id = .ok transfer :=
    offerOf_of_row hlookup rfl hrow
  refine hsound.attach hlaws hwhole hattach ?_
  rw [hoffer, ← hsource]

theorem Sound.importFile (hlaws : Laws host vault) {s : State} (h : Sound host vault s)
    (hclear : Clear host vault s (.importFile file))
    (hrun : importFile host vault s.disk file = .ok disk) :
    Sound host vault ⟨disk, match brings host vault s.disk (.importFile file) with
      | none => s.imported
      | some (id, bytes) => Function.update s.imported id bytes⟩ := by
  unfold Bodies.importFile at hrun
  unfold brings
  obtain ⟨transfer, htransfer, hrun⟩ := bind_ok_iff.1 hrun
  obtain ⟨item, hitem, hrun⟩ := bind_ok_iff.1 hrun
  simp only [htransfer, hitem, bind, Except.bind] at hrun ⊢
  have hsource := sourceVersion_offer htransfer
  unfold insertFileTransfer at hrun
  split at hrun
  · rename_i row hfound
    obtain ⟨hlive, hexplicit⟩ := Option.filter_eq_some_iff.1 hfound
    have himplicit : file.explicit = false := by simpa using hexplicit
    rw [if_pos (by rw [hlive, himplicit]; rfl)]
    exact h.recapture hlaws hitem hlive
      (hclear.2 transfer item row htransfer hitem himplicit hlive) hrun
  · rename_i hfound
    have hnew : ((liveRow s.disk.store item.id).isSome && !file.explicit) = false := by
      cases hlive : liveRow s.disk.store item.id with
      | none => rfl
      | some row => simpa [hlive, Option.filter_some] using hfound
    rw [if_neg (by simp [hnew])]
    generalize hbase : (if file.explicit = true then s.disk else _ : Disk) = base at hrun
    have hsound : Sound host vault ⟨base, s.imported⟩ := by
      subst hbase
      split
      · exact h
      · exact h.dropTombstone item.id
    obtain ⟨store, hinsert, hrun⟩ := bind_ok_iff.1 hrun
    exact hsound.insertFile hlaws hsource hclear.1 hitem hinsert hrun

theorem whole_bytes (bytes : List UInt8) : Whole [.bytes bytes] := by
  by_cases hempty : bytes = []
  · subst hempty
    intro chunk hchunk
    simp [chunksOf, chunksFrom, fill] at hchunk
  · refine whole_of_answers ?_
    intro reading hreading
    rw [List.mem_singleton.1 hreading]
    exact fun heq => hempty (Reading.bytes.inj heq)

theorem legacyFile_eq_some {file : FileMetadata}
    (h : legacyFile host vault disk id = some (row, bytes, file)) :
    liveRow disk.store id = some row ∧ row.contentType = fileType := by
  unfold legacyFile at h
  obtain ⟨found, hfound, h⟩ := Option.bind_eq_some_iff.1 h
  split at h
  · cases h
  · rename_i hkind
    rw [not_or, not_not] at hkind
    simp only [Option.bind_eq_bind, Option.bind_eq_some_iff] at h
    obtain ⟨_, -, _, -, _, -, _, -, h⟩ := h
    split at h
    · obtain ⟨rfl, -⟩ := Prod.mk.inj (Option.some.inj h)
      exact ⟨hfound, hkind.1⟩
    · cases h

theorem Sound.upgradeLegacy (hlaws : Laws host vault) {s : State} (h : Sound host vault s)
    {now : Int} {streamNonce : StreamNonce}
    (hclear : Clear host vault s (.upgradeLegacy id now streamNonce nonces))
    (hrun : upgradeLegacy host vault s.disk id now streamNonce nonces = .ok disk) :
    Sound host vault ⟨disk,
      match brings host vault s.disk (.upgradeLegacy id now streamNonce nonces) with
      | none => s.imported
      | some (id, bytes) => Function.update s.imported id bytes⟩ := by
  unfold Bodies.upgradeLegacy at hrun
  cases hlegacy : legacyFile host vault s.disk id with
  | none =>
    rw [hlegacy] at hrun
    obtain rfl := Except.ok.inj hrun
    simpa only [brings, hlegacy, Option.map_none] using h
  | some found =>
    obtain ⟨row, bytes, file⟩ := found
    rw [hlegacy] at hrun
    obtain ⟨hlive, hkind⟩ := legacyFile_eq_some hlegacy
    obtain ⟨hlookup, hid, hdeleted⟩ := liveRow_eq_some hlive
    have hjson := hclear row bytes file hlegacy
    simp only [brings, hlegacy, Option.map_some]
    unfold replaceFileTransfer at hrun
    simp only at hrun
    generalize hitem : upgradedItem host vault row bytes file now streamNonce = item at hrun
    have hsame : item.id = row.id := by rw [← hitem]; rfl
    rw [hsame, hid, hlive] at hrun
    simp only at hrun
    obtain ⟨store, hupdate, hrun⟩ := bind_ok_iff.1 hrun
    have hplace : (replacedRow item row).id = id := hid
    -- The old file of the row is released, else there is no place for the new one.
    have hsound : Sound host vault ⟨s.disk.settle store, s.imported⟩ := by
      refine h.update hupdate ?_
      intro blob hmem hkept
      rw [hplace] at hmem hkept
      have hstays : (id, blob) ∈ (s.disk.settle store).files.bodies.owners := by
        rw [(bodies_settle s.disk store).2, List.mem_filter, decide_eq_true_eq]
        exact ⟨hmem, hkept⟩
      obtain ⟨-, -, hfree, -⟩ := attachBody_ok hrun
      exact absurd hstays (hfree blob)
    have hafter : lookup ItemRow.id (s.disk.settle store).store.items id =
        some (replacedRow item row) := by
      obtain rfl := updateRow_eq_ok hupdate
      refine (lookup_update id).trans ?_
      rw [hlookup, Option.map_some, if_pos hplace.symm]
    have hrow : rowOffer host vault (replacedRow item row) =
        .ok (some ⟨bytes.length, host.sha256 bytes, none⟩) := by
      subst hitem
      exact rowOffer_sealed hlaws rfl hkind rfl hjson rfl rfl rfl
    have hattached := hsound.attach hlaws (whole_bytes bytes) hrun
      (offerOf_of_row hafter hdeleted hrow)
    rw [delivered_bytes] at hattached
    rw [hid]
    exact hattached

theorem Sound.step (hlaws : Laws host vault) {s s' : State} {op : Op} (h : Sound host vault s)
    (hclear : Clear host vault s op) (hstep : step host vault s op = some s') :
    Sound host vault s' := by
  unfold Complete.step at hstep
  cases hrun : op.run host vault s.disk with
  | error e =>
    rw [hrun] at hstep
    exact Option.some.inj hstep ▸ h
  | ok disk =>
    rw [hrun] at hstep
    obtain rfl := Option.some.inj hstep
    cases op with
    | importFile file => exact h.importFile hlaws hclear hrun
    | upgradeLegacy id now streamNonce nonces => exact h.upgradeLegacy hlaws hclear hrun
    | delete ids now => exact Except.ok.inj hrun ▸ h.delete ids now
    | evict ids => exact Except.ok.inj hrun ▸ h.evict ids
    | clearFileStages => exact Except.ok.inj hrun ▸ h.clearStages

theorem sound_of_reaches (hlaws : Laws host vault) {s : State}
    (h : Reaches (machine host vault) (Clear host vault) s) : Sound host vault s :=
  h.invariant (m := machine host vault) (fun s (hstart : start host vault s) => hstart.1)
    fun _ _ _ hs hclear hstep => hs.step hlaws hclear hstep

theorem readChunk_piece (h : Held host vault disk id blob bytes)
    (hmem : (id, blob) ∈ disk.files.bodies.owners) {index : Nat}
    (hindex : index < count chunkBytes bytes.length) :
    readChunk host vault disk id blob index = .ok (piece chunkBytes bytes index) := by
  have hstart := (lt_count_iff (by decide) bytes.length index).1 hindex
  have hlisted : index ∈ (disk.files.bodies.partsOf blob).map Chunk.index := by
    rw [h.stored.1]
    exact List.mem_range.2 hindex
  obtain ⟨listed, hlisted, hnumber⟩ := List.mem_map.1 hlisted
  obtain ⟨part, hpart⟩ : ∃ part,
      (disk.files.bodies.partsOf blob).find? (fun part => part.index = index) = some part := by
    rw [← Option.isSome_iff_exists, List.find?_isSome]
    exact ⟨listed, hlisted, by simpa using hnumber⟩
  obtain rfl : part.index = index := by simpa using List.find?_some hpart
  have hdecrypt := h.stored.2 part (List.mem_of_find?_eq_some hpart)
  have hlength : (piece chunkBytes bytes part.index).length =
      min chunkBytes (bytes.length - part.index * chunkBytes) := length_piece bytes part.index
  unfold readChunk fileTransferChunk
  simp only [h.offer, bind, Except.bind]
  rw [if_neg (by rw [not_or]; exact ⟨not_not.2 rfl, by omega⟩), if_neg (by omega), if_pos hmem,
    hpart]
  simp only [hdecrypt]
  rw [if_neg (by rw [hlength]; omega)]
  rfl

theorem readChunk_empty (h : Held host vault disk id blob [])
    (hmem : (id, blob) ∈ disk.files.bodies.owners) :
    readChunk host vault disk id blob 0 = .ok [] := by
  obtain ⟨row, hrow, hlive, -, -⟩ := offerOf_eq_ok h.offer
  have hhas : hasFileTransfer disk id = true := by
    have hfound : liveRow disk.store id = some row := by
      unfold liveRow
      simp [hrow, hlive]
    exact hasFileTransfer_of_mem hfound hmem
  unfold readChunk
  simp only [h.offer, bind, Except.bind]
  rw [if_neg (by simp), if_pos ⟨rfl, hhas⟩]
  rfl

theorem readChunks_eq (h : Held host vault disk id blob bytes)
    (hmem : (id, blob) ∈ disk.files.bodies.owners) (index left : Nat)
    (hleft : index + left ≤ count chunkBytes bytes.length) :
    readChunks host vault disk id blob index left =
      .ok ((bytes.drop (index * chunkBytes)).take (left * chunkBytes)) := by
  induction left generalizing index with
  | zero => simp [readChunks]
  | succ left ih =>
    unfold readChunks
    rw [readChunk_piece h hmem (by omega)]
    simp only [bind, Except.bind]
    rw [ih (index + 1) (by omega)]
    simp only [pure, Except.pure, piece]
    rw [Nat.add_mul, Nat.one_mul, ← List.drop_drop, ← List.take_add, Nat.succ_mul, Nat.add_comm]

/-- A reader asks for one chunk at least. -/
def chunkTotal (size : Nat) : Nat := max 1 (count chunkBytes size)

theorem readChunks_whole (h : Held host vault disk id blob bytes)
    (hmem : (id, blob) ∈ disk.files.bodies.owners) :
    readChunks host vault disk id blob 0 (count chunkBytes bytes.length) = .ok bytes ∧
      readChunks host vault disk id blob 0 (chunkTotal bytes.length) = .ok bytes := by
  have hall : readChunks host vault disk id blob 0 (count chunkBytes bytes.length) = .ok bytes := by
    rw [readChunks_eq h hmem 0 _ (by omega), Nat.zero_mul, List.drop_zero]
    refine congrArg Except.ok (List.take_of_length_le ?_)
    have hwidth : 0 < chunkBytes := by decide
    have hlast := (lt_count_iff hwidth bytes.length (count chunkBytes bytes.length)).not.1 (by omega)
    omega
  refine ⟨hall, ?_⟩
  unfold chunkTotal
  by_cases hempty : bytes = []
  · subst hempty
    rw [List.length_nil, count_zero (by decide)]
    simp [readChunks, readChunk_empty h hmem, bind, Except.bind, pure, Except.pure]
  · have hwidth : 0 < chunkBytes := by decide
    have hpos := count_pos hwidth (List.length_pos_iff.2 hempty)
    rw [Nat.max_eq_right (by omega)]
    exact hall

theorem saveLocal_whole {limit : Nat} (h : Held host vault disk id blob bytes)
    (hmem : (id, blob) ∈ disk.files.bodies.owners) (hlimit : bytes.length ≤ limit) :
    saveLocal host vault disk id limit = .ok bytes := by
  unfold saveLocal
  rw [h.offer]
  refine (if_neg (Nat.not_lt.mpr hlimit)).trans ?_
  dsimp only
  rw [(readChunks_whole h hmem).1]
  exact if_neg (by simpa using h.digest)

variable (host vault)

/-- A file that an item has: the chunks numbered through, which open to the bytes that
were imported, under the size and the digest the row offers; reading and saving give
these bytes. -/
structure CompleteFile (s : State) (id blob : String) : Prop where
  numbered : (s.disk.files.bodies.partsOf blob).map Chunk.index =
    List.range (count chunkBytes (s.imported id).length)
  content : (s.disk.files.bodies.partsOf blob).map (fun part =>
      vault.decrypt part.ciphertext part.nonce (chunkId blob part.index)) =
    (pieces chunkBytes (s.imported id)).map some
  joined : (pieces chunkBytes (s.imported id)).flatten = s.imported id
  recorded : offerOf host vault s.disk id = .ok ⟨(s.imported id).length, blob, none⟩
  digest : host.sha256 (s.imported id) = blob
  read : readChunks host vault s.disk id blob 0 (chunkTotal (s.imported id).length) =
    .ok (s.imported id)
  saved : ∀ limit, (s.imported id).length ≤ limit →
    saveLocal host vault s.disk id limit = .ok (s.imported id)

/-- Every file is complete, and no chunk is there but for a file or a stage. -/
structure FilesComplete (s : State) : Prop where
  files : ∀ id blob, (id, blob) ∈ s.disk.files.bodies.owners → CompleteFile host vault s id blob
  exact : ∀ blob, s.disk.files.bodies.partsOf blob ≠ [] → s.disk.files.bodies.uses blob = true

variable {host vault}

theorem Sound.complete {s : State} (h : Sound host vault s) : FilesComplete host vault s := by
  constructor
  · intro id blob hmem
    have hheld := h.bodies id blob hmem
    refine ⟨hheld.stored.1, ?_, flatten_pieces (by decide) _, hheld.offer, hheld.digest,
      (readChunks_whole hheld hmem).2, fun limit => saveLocal_whole hheld hmem⟩
    have hcontent : (s.disk.files.bodies.partsOf blob).map (fun part =>
        vault.decrypt part.ciphertext part.nonce (chunkId blob part.index)) =
        ((s.disk.files.bodies.partsOf blob).map Chunk.index).map fun index =>
          some (piece chunkBytes (s.imported id) index) := by
      rw [List.map_map]
      exact List.map_congr_left hheld.stored.2
    rw [hcontent, hheld.stored.1]
    simp [pieces]
  · intro blob hparts
    obtain ⟨chunk, hchunk⟩ := List.exists_mem_of_ne_nil _ hparts
    obtain ⟨part, hpart, -⟩ := List.mem_map.1 hchunk
    obtain ⟨hmem, hblob⟩ := List.mem_filter.1 hpart
    rw [← of_decide_eq_true hblob]
    exact h.exact part hmem

/-- The stages left are stages that were there, and the chunks of their blobs stay. -/
structure LeasesKept (bodies bodies' : BodyPool) : Prop where
  leases : ∀ lease ∈ bodies'.leases, lease ∈ bodies.leases
  parts : ∀ lease ∈ bodies'.leases,
    ∃ added, bodies'.partsOf lease.2 = bodies.partsOf lease.2 ++ added

theorem LeasesKept.trans {bodies'' : BodyPool} (h : LeasesKept bodies bodies')
    (h' : LeasesKept bodies' bodies'') : LeasesKept bodies bodies'' := by
  refine ⟨fun lease hlease => h.leases lease (h'.leases lease hlease), fun lease hlease => ?_⟩
  obtain ⟨first, hfirst⟩ := h.parts lease (h'.leases lease hlease)
  obtain ⟨second, hsecond⟩ := h'.parts lease hlease
  exact ⟨first ++ second, by rw [hsecond, hfirst, List.append_assoc]⟩

theorem leasesKept_of_shrinks (h : Shrinks bodies bodies') : LeasesKept bodies bodies' := by
  refine ⟨fun lease hlease => h.leases.subset hlease, fun lease hlease => ⟨[], ?_⟩⟩
  rw [List.append_nil]
  rcases h.parts lease.2 with hsame | ⟨-, hunused⟩
  · exact hsame
  · unfold Pool.uses at hunused
    rw [Bool.or_eq_false_iff] at hunused
    exact absurd (decide_eq_true rfl) (List.any_eq_false.1 hunused.2 lease hlease)

theorem leasesKept_settle (disk : Disk) (after : Store) :
    LeasesKept disk.files.bodies (disk.settle after).files.bodies :=
  leasesKept_of_shrinks (bodies_settle disk after).1

theorem leasesKept_attach
    (h : attachBody host vault disk id reader size sha256 nonces = .ok disk') :
    LeasesKept disk.files.bodies disk'.files.bodies := by
  obtain ⟨written, hwrite, -, rfl⟩ := attachBody_ok h
  obtain ⟨added, rfl⟩ := writeBody_appends hwrite
  refine ⟨fun lease hlease => hlease, fun lease _ => ?_⟩
  by_cases hblob : lease.2 = sha256
  · exact ⟨added, hblob ▸ partsOf_append disk.files.bodies sha256 added⟩
  · refine ⟨[], ?_⟩
    rw [List.append_nil]
    exact partsOf_append_of_ne disk.files.bodies hblob added

theorem leasesKept_run {op : Op} (h : op.run host vault disk = .ok disk') :
    LeasesKept disk.files.bodies disk'.files.bodies := by
  cases op with
  | delete ids now | evict ids => exact Except.ok.inj h ▸ leasesKept_settle _ _
  | clearFileStages =>
    exact Except.ok.inj h ▸ leasesKept_of_shrinks (shrinks_dropLeases disk.files.bodies)
  | importFile file =>
    unfold Op.run Bodies.importFile at h
    obtain ⟨transfer, htransfer, h⟩ := bind_ok_iff.1 h
    obtain ⟨item, hitem, h⟩ := bind_ok_iff.1 h
    unfold insertFileTransfer at h
    split at h
    · rename_i row _
      unfold Bodies.recapture at h
      obtain ⟨store, hupdate, h⟩ := bind_ok_iff.1 h
      exact Except.ok.inj h ▸ leasesKept_settle _ _
    · generalize hbase : (if file.explicit = true then disk else _ : Disk) = base at h
      have hkept : LeasesKept disk.files.bodies base.files.bodies := by
        subst hbase
        split
        · exact leasesKept_of_shrinks (Shrinks.refl _)
        · exact leasesKept_settle _ _
      obtain ⟨store, hinsert, h⟩ := bind_ok_iff.1 h
      exact hkept.trans ((leasesKept_settle base store).trans (leasesKept_attach h))
  | upgradeLegacy id now streamNonce nonces =>
    unfold Op.run Bodies.upgradeLegacy at h
    simp only at h
    split at h
    · exact Except.ok.inj h ▸ leasesKept_of_shrinks (Shrinks.refl _)
    · rename_i row bytes file _
      unfold replaceFileTransfer at h
      cases hlive : liveRow disk.store
          (upgradedItem host vault row bytes file now streamNonce).id with
      | none =>
        simp only [hlive, bind, Except.bind] at h
        exact (leasesKept_settle disk disk.store).trans (leasesKept_attach h)
      | some live =>
        rw [hlive] at h
        obtain ⟨store, hupdate, h⟩ := bind_ok_iff.1 h
        exact (leasesKept_settle disk store).trans (leasesKept_attach h)

/-- A deletion leaves the file of every other item. -/
theorem bodyOf_delete (disk : Disk) {ids : List String} (now : Int) (h : id ∉ ids) :
    (deleteRows disk ids now).files.bodyOf id = disk.files.bodyOf id := by
  unfold deleteRows
  rw [bodyOf_settle]
  refine if_neg ?_
  rintro ⟨-, hchanged⟩
  refine hchanged ?_
  unfold contentCiphertext
  rw [lookup_map _ (fun row => by split <;> rfl)]
  cases hrow : lookup ItemRow.id disk.store.items id with
  | none => rfl
  | some row =>
    rw [Option.map_some, if_neg fun hboth => h ((lookup_eq_some hrow).2 ▸ hboth.1)]

/-- A sweep leaves the file of every item that it does not remove. -/
theorem bodyOf_evict (disk : Disk) {ids : List String} (h : id ∉ ids) :
    (evictRows disk ids).files.bodyOf id = disk.files.bodyOf id := by
  unfold evictRows
  rw [bodyOf_settle]
  refine if_neg ?_
  rintro ⟨-, hchanged⟩
  refine hchanged ?_
  have hafter : lookup ItemRow.id (disk.store.items.filter fun row => row.id ∉ ids) id =
      if id ∉ ids then lookup ItemRow.id disk.store.items id else none :=
    lookup_filter (fun id => id ∉ ids) disk.store.items id
  unfold contentCiphertext
  rw [hafter, if_pos h]

/-- Files through every run whose readings come whole and whose metadata have room: they
are complete, chunks are kept for a file or a stage and for nothing else, a deletion or a
sweep leaves the files of other items, and what fails leaves everything. -/
theorem bodies_complete (hlaws : Laws host vault) (s : State)
    (h : Reaches (machine host vault) (Clear host vault) s) :
    FilesComplete host vault s ∧
      (∀ ids now id, id ∉ ids →
        (deleteRows s.disk ids now).files.bodyOf id = s.disk.files.bodyOf id ∧
        (evictRows s.disk ids).files.bodyOf id = s.disk.files.bodyOf id) ∧
      ∀ op,
        (∀ e, op.run host vault s.disk = .error e → step host vault s op = some s) ∧
        (∀ disk, op.run host vault s.disk = .ok disk →
          LeasesKept s.disk.files.bodies disk.files.bodies) := by
  refine ⟨(sound_of_reaches hlaws h).complete, ?_, ?_⟩
  · intro ids now id hid
    exact ⟨bodyOf_delete s.disk now hid, bodyOf_evict s.disk hid⟩
  · intro op
    refine ⟨fun e hfail => ?_, fun disk hrun => leasesKept_run hrun⟩
    unfold Complete.step
    rw [hfail]

def tooLong : Nat → String
  | 0 => ""
  | n + 1 => tooLong n ++ "x"

theorem utf8ByteSize_tooLong (n : Nat) : (tooLong n).utf8ByteSize = n := by
  induction n with
  | zero => rfl
  | succ n ih =>
    rw [tooLong, String.utf8ByteSize_append, ih]
    rfl

def sampleDigest (bytes : List UInt8) : String :=
  String.ofList (List.replicate 64 (if bytes = [] then '0' else '1'))

def sampleOffered : PayloadMetadata where
  file := some ⟨"a.bin", "application/octet-stream", none, some ⟨3, sampleDigest [1], none⟩⟩

/-- An offer of a size without its digits: one zero for each byte, and the digest. -/
def sizedOffer (transfer : FileTransfer) : List UInt8 :=
  List.replicate transfer.sizeBytes 0 ++
    1 :: transfer.sha256.toList.map fun digit => UInt8.ofNat digit.toNat

def readOffer (bytes : List UInt8) : Option FileTransfer :=
  match bytes.dropWhile fun byte => byte = 0 with
  | [] => none
  | _ :: digits =>
    some ⟨(bytes.takeWhile fun byte => byte = 0).length,
      String.ofList (digits.map fun digit => Char.ofNat digit.toNat), none⟩

/-- A host with room for the metadata of one file. -/
def smallHost : Host :=
  { Merge.Payload.sampleHost with
    parsePayload := fun text => if text = "offered" then some sampleOffered else none
    parseTransfer := readOffer
    renderPayload := fun m =>
      if m = sampleOffered then "offered" else tooLong (maxSyncMetadataBytes + 1)
    sha256 := sampleDigest }

def smallVault : Vault where
  toCipher := plainCipher
  decrypt := fun bytes _ _ => some bytes
  openBinary := fun bytes _ => some (bytes.drop 32)
  renderTransfer := sizedOffer
  extractsTransfer := fun _ => true

theorem ofNat_digit {digit : Char} (h : isLowerHex digit = true) :
    Char.ofNat (UInt8.ofNat digit.toNat).toNat = digit := by
  have hsmall : digit.toNat < 256 := by
    unfold isLowerHex Char.isDigit at h
    simp only [Bool.or_eq_true, Bool.and_eq_true, decide_eq_true_eq] at h
    simp only [Char.le_def, UInt32.le_iff_toNat_le, ge_iff_le] at h
    have hval : digit.toNat = digit.val.toNat := rfl
    have hlast : 'f'.val.toNat = 102 := rfl
    have hnine : '9'.val.toNat = 57 := rfl
    omega
  rw [UInt8.toNat_ofNat', Nat.mod_eq_of_lt hsmall, Char.ofNat_toNat]

theorem readOffer_sizedOffer (hvalid : transfer.isValid = true)
    (hsource : transfer.sourceVersion = none) :
    readOffer (sizedOffer transfer) = some transfer := by
  obtain ⟨size, sha256, source⟩ := transfer
  obtain rfl : source = none := hsource
  unfold FileTransfer.isValid at hvalid
  simp only [Bool.and_eq_true, List.all_eq_true] at hvalid
  have hdigits : (sha256.toList.map fun digit => UInt8.ofNat digit.toNat).map
      (fun digit => Char.ofNat digit.toNat) = sha256.toList := by
    rw [List.map_map]
    exact (List.map_congr_left fun digit hdigit => ofNat_digit (hvalid.2 digit hdigit)).trans
      (List.map_id _)
  unfold readOffer sizedOffer
  simp [hdigits]

theorem opens_small (nonce : StreamNonce) (bytes : List UInt8) (id : String) :
    smallVault.openBinary (sealWithDigest smallVault.toCipher nonce bytes id) id = some bytes := by
  have hheader : (header plainCipher bytes nonce).length = 32 := by
    simp [header, plainCipher, toBigEndian, binaryMagic, nonce.2, streamNonceLen]
  refine congrArg some ?_
  unfold sealWithDigest
  rw [List.drop_append_of_le_length (by rw [smallVault, hheader]),
    List.drop_eq_nil_of_le (by rw [smallVault, hheader])]
  rfl

theorem smallLaws : Laws smallHost smallVault where
  decrypts _ _ _ := rfl
  opens nonce transfer id _ := opens_small nonce (smallVault.renderTransfer transfer) id
  offers _ hvalid hsource := readOffer_sizedOffer hvalid hsource
  reads m text htext := by
    unfold PayloadMetadata.toJson at htext
    split at htext
    · rename_i hfits
      obtain rfl := Option.some.inj htext
      by_cases hm : m = sampleOffered
      · subst hm
        decide
      · have hsize := hfits.2
        rw [show smallHost.renderPayload m = tooLong (maxSyncMetadataBytes + 1) from if_neg hm,
          utf8ByteSize_tooLong] at hsize
        omega
    · cases htext
  empty bytes hbytes := by
    by_contra hne
    have hdigest : sampleDigest bytes = sampleDigest [] := hbytes
    unfold sampleDigest at hdigest
    rw [if_neg hne] at hdigest
    exact absurd hdigest (by decide)

def sampleImport : Import where
  length := 3
  limit := 10
  first := [.bytes [1, 2, 3]]
  second := [.bytes [1, 2], .bytes [3]]
  metadata := ⟨"a.bin", "application/octet-stream", none, none⟩
  context := {}
  createdAt := 1
  appBundleId := none
  appName := none
  explicit := false
  uuid := "1"
  streamNonce := nonceOf 1
  nonces := fun _ => []

def emptyState : State := ⟨{}, fun _ => []⟩

theorem start_empty : start smallHost smallVault emptyState := by
  refine ⟨⟨List.nodup_nil, List.nodup_nil, ?_, ?_, ?_, rfl⟩, rfl⟩
  · intro id blob hmem
    cases hmem
  · intro part hpart
    cases hpart
  · exact fun blob => ⟨0, rfl⟩

/-- Two items of one content, and the deletion of the first. -/
def sharedImports : List Op :=
  [.importFile sampleImport,
    .importFile { sampleImport with explicit := true, createdAt := 1000000 },
    .delete ["file-offer-" ++ String.ofList (List.replicate 32 '1')] 2000000]

theorem sharedImports_meets :
    Meets (machine smallHost smallVault) (Clear smallHost smallVault) emptyState sharedImports := by
  refine ⟨⟨by decide, ?_⟩, fun next hnext => ⟨⟨by decide, ?_⟩, fun _ _ => ⟨trivial, fun _ _ => trivial⟩⟩⟩
  · intro transfer item row _ _ _ hrow
    cases hrow
  · intro transfer item row _ _ hexplicit
    cases hexplicit

def sharedState : State :=
  (run (machine smallHost smallVault) emptyState sharedImports).getD emptyState

theorem sharedImports_complete :
    sharedState.disk.files.bodies.owners.length = 1 ∧
      FilesComplete smallHost smallVault sharedState := by
  refine ⟨by decide, (bodies_complete smallLaws sharedState ?_).1⟩
  exact (Reaches.start emptyState start_empty).of_run_getD sharedImports sharedImports_meets
    (by decide) emptyState

/-- The second reading meets an empty answer within its first chunk. -/
def interruptedImport : Op :=
  .importFile { sampleImport with second := [.bytes [1], .bytes [], .bytes [2, 3]] }

def interruptedState : State :=
  (run (machine smallHost smallVault) emptyState [interruptedImport]).getD emptyState

theorem interrupted_not_complete :
    Reaches (machine smallHost smallVault) (fun _ _ => True) interruptedState ∧
      ¬ FilesComplete smallHost smallVault interruptedState := by
  refine ⟨(Reaches.start emptyState start_empty).of_run_getD [interruptedImport]
    (Meets.of_forall (fun _ _ _ => trivial) _) (by decide) emptyState, ?_⟩
  intro hcomplete
  have hfile := hcomplete.files ("file-offer-" ++ String.ofList (List.replicate 32 '1'))
    (sampleDigest [1]) (by decide)
  exact absurd hfile.numbered (by decide)

end CopyPaste.Files.Complete
