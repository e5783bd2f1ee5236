import CopyPaste.Files.Tables
import CopyPaste.Merge.Pages

/-!
The merge of a page over a history with files. A version that wins is sealed anew, under
nonces of its own, and its write goes through the triggers of the file tables: the file
of an item outlives the write exactly when the ciphertext comes out as it was.
-/

namespace CopyPaste.Files.Reseal

open Lib.Checks Lib.Rows Merge.Comparator Merge.Payload Merge.Storage Merge.Prepare Merge.Batch Merge.Effects
  Merge.Pages Tables

/-- What the seals use and do not define: the raw digest, the records of the STREAM
cipher under a nonce and the additional data, and the ciphertext of a reference. -/
structure Cipher where
  digest : List UInt8 → List UInt8
  records : List UInt8 → List UInt8 → List UInt8 → List UInt8
  encrypt : List UInt8 → String → List UInt8 → List UInt8

def binaryMagic : List UInt8 := [0x43, 0x50, 0x42, 0x32]

def binaryVersion : UInt8 := 3

def streamNonceLen : Nat := 19

def toBigEndian (width n : Nat) : List UInt8 :=
  ((List.range width).map fun place => UInt8.ofNat (n / 256 ^ place)).reverse

/-- A nonce drawn for one stream. -/
abbrev StreamNonce := { nonce : List UInt8 // nonce.length = streamNonceLen }

variable (cipher : Cipher)

def header (bytes : List UInt8) (streamNonce : StreamNonce) : List UInt8 :=
  binaryMagic ++ [binaryVersion] ++ toBigEndian 8 bytes.length ++ cipher.digest bytes ++
    streamNonce.1

def streamAad (id : String) (header : List UInt8) : List UInt8 :=
  utf8 "copypaste/v2/binary-stream|" ++ utf8 (toString (utf8 id).length) ++ utf8 ":" ++ utf8 id ++
    header

def sealWithDigest (streamNonce : StreamNonce) (bytes : List UInt8) (id : String) : List UInt8 :=
  header cipher bytes streamNonce ++
    cipher.records streamNonce.1 (streamAad id (header cipher bytes streamNonce)) bytes

/-- What is drawn for one payload: the stream's nonce and, for an imported one, the
nonce of its reference. -/
structure Draws where
  stream : StreamNonce
  reference : List UInt8

/-- The envelope of an imported payload: a reference sealed for the row and a blob sealed
for its content. -/
def sealReference (host : Host) (draws : Draws) (bytes : List UInt8) (id : String) : List UInt8 :=
  let blobId := host.sha256 bytes
  let reference := cipher.encrypt draws.reference id (utf8 blobId)
  referenceMagic ++ draws.reference ++ toBigEndian 4 reference.length ++ reference ++
    sealWithDigest cipher draws.stream bytes blobId

/-- The host whose binary payloads are each sealed under the nonces drawn for them. -/
def sealing (draws : String → List UInt8 → Draws) (host : Host) : Host :=
  { host with
    encrypt := fun contentType id bytes =>
      if isBinary contentType then
        ([], if startsWith importIdHead id then sealReference cipher host (draws id bytes) bytes id
          else sealWithDigest cipher (draws id bytes).stream bytes id)
      else host.encrypt contentType id bytes }

section Page

variable (host : Host)

def upsert (disk : Disk) (incoming : IncomingItem) : Disk × Bool :=
  let (after, written) := disk.store.upsert host incoming
  (disk.settle after, written)

def writeRows (disk : Disk) : List (Incoming × Decision) → Disk × List Entry
  | [] => (disk, [])
  | (incoming, .won ready) :: rest =>
    let (disk, stored) := upsert host disk ready.toIncomingItem
    let (disk, entries) := writeRows disk rest
    (disk, ⟨incoming, .won ready, some stored⟩ :: entries)
  | (incoming, decision) :: rest =>
    let (disk, entries) := writeRows disk rest
    (disk, ⟨incoming, decision, none⟩ :: entries)

def applyRow (disk : Disk) (incoming : Incoming) : Except MergeError (Disk × P2pApply) := do
  let (after, flags) ← applyOne host disk.store incoming
  return (disk.settle after, flags)

def redoRows (refused : List String) (disk : Disk) :
    List (Entry × P2pApply) → Except MergeError (Disk × List P2pApply)
  | [] => .ok (disk, [])
  | (entry, flags) :: rest => do
    let (disk, flags) ←
      if flags.any || entry.incoming.1.itemId ∉ refused then pure (disk, flags)
      else applyRow host disk entry.incoming
    let refused :=
      if entry.outcome = some false then entry.incoming.1.itemId :: refused else refused
    let (disk, applied) ← redoRows refused disk rest
    return (disk, flags :: applied)

/-- A row is passed over or applied by itself, and the others after it. -/
theorem redoRows_cons {refused : List String} {disk disk' : Disk} {entry : Entry}
    {flags : P2pApply} {rest : List (Entry × P2pApply)} {applied : List P2pApply}
    (h : redoRows host refused disk ((entry, flags) :: rest) = .ok (disk', applied)) :
    ∃ step later, (step = (disk, flags) ∨
        flags.any = false ∧ applyRow host disk entry.incoming = .ok step) ∧
      redoRows host (if entry.outcome = some false then entry.incoming.1.itemId :: refused
        else refused) step.1 rest = .ok (disk', later) ∧ applied = step.2 :: later := by
  unfold redoRows at h
  obtain ⟨step, hstep, h⟩ : ∃ step : Disk × P2pApply,
      (step = (disk, flags) ∨
        flags.any = false ∧ applyRow host disk entry.incoming = .ok step) ∧
      (redoRows host (if entry.outcome = some false then entry.incoming.1.itemId :: refused
        else refused) step.1 rest >>= fun last => pure (last.1, step.2 :: last.2)) =
          .ok (disk', applied) := by
    by_cases hskip : (flags.any || decide (entry.incoming.1.itemId ∉ refused)) = true
    · rw [if_pos hskip] at h
      exact ⟨(disk, flags), .inl rfl, h⟩
    · rw [if_neg hskip] at h
      obtain ⟨step, hstep, h⟩ := bind_ok_iff.1 h
      rw [Bool.not_eq_true, Bool.or_eq_false_iff] at hskip
      exact ⟨step, .inr ⟨hskip.1, hstep⟩, h⟩
  obtain ⟨last, hlast, h⟩ := bind_ok_iff.1 h
  obtain ⟨rfl, rfl⟩ := Prod.mk.inj (Except.ok.inj h)
  exact ⟨step, last.2, hstep, hlast, rfl⟩

/-- The page merge, each write with its triggers. Pin states are written to columns
that have none. -/
def mergePage (disk : Disk) (page : List Incoming) : Except MergeError (Disk × List P2pApply) := do
  let ds ← decisions host
    (disk.store.versionSummaries (page.map fun incoming => incoming.1.itemId)) page
  let (disk, entries) := writeRows host disk (page.zip ds)
  let (store, rows) := pinPass disk.store entries
  redoRows host [] { disk with store := store } rows

theorem writeRows_store (disk : Disk) (rows : List (Incoming × Decision)) :
    ((writeRows host disk rows).1.store, (writeRows host disk rows).2) =
      writeAll host disk.store rows := by
  induction rows generalizing disk with
  | nil => rfl
  | cons row rest ih =>
    obtain ⟨incoming, decision⟩ := row
    cases decision with
    | won ready =>
      have hrest := ih (upsert host disk ready.toIncomingItem).1
      simp only [writeRows, writeAll, upsert, Disk.settle] at hrest ⊢
      rw [← hrest]
    | refused | lost pinWins =>
      have hrest := ih disk
      simp only [writeRows, writeAll]
      rw [← hrest]

theorem onto_payload (pin : PinState) (row : ItemRow) : (pin.onto row).payload = row.payload := by
  unfold PinState.onto
  split <;> rfl

variable {store after : Store}

/-- Changes of the rows that keep their payloads keep the ciphertexts. -/
theorem contentCiphertext_map (f : ItemRow → ItemRow) (hitems : after.items = store.items.map f)
    (hid : ∀ row, (f row).id = row.id) (hpayload : ∀ row, (f row).payload = row.payload)
    (id : String) : contentCiphertext after id = contentCiphertext store id := by
  unfold contentCiphertext
  rw [hitems, lookup_map f hid]
  cases lookup ItemRow.id store.items id with
  | none => rfl
  | some row => simp [hpayload]

theorem contentCiphertext_applyPinState (store : Store) (item : String) (pinned : Bool)
    (pinOrder : Option PinOrder) (pinUpdatedAt : Int) (id : String) :
    contentCiphertext (store.applyPinState item pinned pinOrder pinUpdatedAt).1 id =
      contentCiphertext store id := by
  unfold Store.applyPinState
  split
  · rfl
  · refine contentCiphertext_map _ rfl ?_ ?_ id
    · intro row
      split <;> rfl
    · intro row
      split <;> rfl

/-- The column an item is written with. -/
def rowPart (incoming : IncomingItem) : Option (List UInt8) :=
  incoming.payload.map fun payload => rowCiphertext payload.2

theorem contentCiphertext_upsert (store : Store) (incoming : IncomingItem)
    (hkind : incoming.contentType ≠ recordContentType) (id : String) :
    contentCiphertext (store.upsert host incoming).1 id =
      if (store.upsert host incoming).2 = true ∧ incoming.id = id then some (rowPart incoming)
      else contentCiphertext store id := by
  by_cases hwritten : (store.upsert host incoming).2 = true
  · have hid : isRecordId incoming.id = false := by
      by_contra hid
      unfold Store.upsert at hwritten
      rw [if_neg hkind, if_pos (by simpa using hid)] at hwritten
      cases hwritten
    have hpayload : (projected store.pinStates (store.rowOf host incoming).1).payload =
        incoming.payload := by
      unfold projected
      split
      · rfl
      · exact onto_payload _ _
    rw [upsert_item host hkind hid] at hwritten ⊢
    split at hwritten
    · rename_i hfits
      rw [if_pos hfits]
      unfold contentCiphertext written
      simp only [lookup_put, projected_id, rowOf_id, true_and]
      split
      · rw [Option.map_some, hpayload]
        rfl
      · rfl
    · cases hwritten
  · rw [upsert_false host (by simpa using hwritten)]
    simp [hwritten]

theorem contentCiphertext_upsert_record (store : Store) (incoming : IncomingItem)
    (hkind : incoming.contentType = recordContentType) (id : String) :
    contentCiphertext (store.upsert host incoming).1 id = contentCiphertext store id := by
  rcases upsert_record host hkind with hsame | ⟨text, record, -, -, -, hrecorded⟩
  · rw [hsame]
  · rw [hrecorded]
    obtain ⟨f, hitems, hf⟩ := items_recorded store incoming record
    refine contentCiphertext_map f hitems ?_ ?_ id
    · intro row
      rcases hf row with heq | ⟨pin, heq⟩
      · rw [heq]
      · rw [heq, onto_id]
    · intro row
      rcases hf row with heq | ⟨pin, heq⟩
      · rw [heq]
      · rw [heq, onto_payload]

/-- An item's file as the triggers see it: the ciphertext of the row and what is kept
beside it. -/
def view (disk : Disk) (id : String) : Option (Option (List UInt8)) × Body :=
  (contentCiphertext disk.store id, disk.files.bodyOf id)

/-- The view of an item's file once the writes of the item, all of one ciphertext, have
begun. -/
def resealed (before after : List UInt8) (body : Body) : Bool → Option (Option (List UInt8)) × Body
  | false => (some (some before), body)
  | true => (some (some after), if after = before then body else Body.none)

/-- The writes of an item carry one ciphertext. -/
def Carries (id : String) (ciphertext : List UInt8) (incoming : IncomingItem) : Prop :=
  incoming.id = id → incoming.contentType ≠ recordContentType ∧
    rowPart incoming = some ciphertext

theorem view_settle_same (disk : Disk) (after : Store) (id : String)
    (h : contentCiphertext after id = contentCiphertext disk.store id) :
    view (disk.settle after) id = view disk id := by
  unfold view
  rw [bodyOf_settle, if_neg (by simp [h])]
  simp [Disk.settle, h]

theorem view_upsert {disk : Disk} {incoming : IncomingItem} {id : String}
    {before after : List UInt8} {body : Body} {begun : Bool}
    (hcarries : Carries id after incoming) (h : view disk id = resealed before after body begun) :
    view (upsert host disk incoming).1 id =
      resealed before after body
        (begun || ((upsert host disk incoming).2 && decide (incoming.id = id))) := by
  by_cases hid : incoming.id = id
  · obtain ⟨hkind, hpart⟩ := hcarries hid
    have hcontent := contentCiphertext_upsert host disk.store incoming hkind id
    rw [hpart] at hcontent
    by_cases hwritten : (disk.store.upsert host incoming).2 = true
    · rw [if_pos ⟨hwritten, hid⟩] at hcontent
      obtain ⟨hbefore, hbody⟩ := Prod.mk.inj h
      unfold view upsert
      simp only [bodyOf_settle, hcontent, hwritten, hid, decide_true, Bool.and_self, Bool.or_true]
      rw [hbefore, hbody]
      cases begun with
      | false | true =>
        simp [resealed, Disk.settle, hcontent]
    · rw [if_neg (by simp [hwritten])] at hcontent
      have hflag : (upsert host disk incoming).2 = false := by simpa [upsert] using hwritten
      rw [hflag, Bool.false_and, Bool.or_false, ← h]
      exact view_settle_same disk _ id hcontent
  · have hcontent : contentCiphertext (disk.store.upsert host incoming).1 id =
        contentCiphertext disk.store id := by
      by_cases hkind : incoming.contentType = recordContentType
      · exact contentCiphertext_upsert_record host disk.store incoming hkind id
      · rw [contentCiphertext_upsert host disk.store incoming hkind, if_neg (by simp [hid])]
    rw [decide_eq_false hid, Bool.and_false, Bool.or_false, ← h]
    exact view_settle_same disk _ id hcontent

theorem prepareRemoteVersion_eq_some {item : RemoteVersion} {pin : Option RemotePin}
    {held : Option Version} {ready : Prepared}
    (h : prepareRemoteVersion host item pin held = .ok (some ready)) :
    ready = prepared host item pin held := by
  unfold prepareRemoteVersion at h
  split at h
  · cases h
  · split at h
    · cases h
    · split at h
      · cases h
      · exact (Option.some.inj (Except.ok.inj h)).symm

/-- A version applied by itself is not written, or it is one write. -/
theorem applyRemoteVersionWithPinState_cases {item : RemoteVersion} {pin : Option RemotePin}
    {held : Option Version} {stored : Bool}
    (h : applyRemoteVersionWithPinState host store item pin held = .ok (after, stored)) :
    stored = false ∧ after = store ∨
      stored = true ∧ store.upsert host (prepared host item pin held).toIncomingItem =
        (after, true) := by
  unfold applyRemoteVersionWithPinState at h
  obtain ⟨ready, hprepare, h⟩ := bind_ok_iff.1 h
  cases ready with
  | none =>
    obtain ⟨rfl, rfl⟩ := Prod.mk.inj (Except.ok.inj h)
    exact Or.inl ⟨rfl, rfl⟩
  | some ready =>
    obtain rfl := prepareRemoteVersion_eq_some host hprepare
    have hupsert : store.upsert host (prepared host item pin held).toIncomingItem =
        (after, stored) := Except.ok.inj h
    cases stored with
    | true => exact Or.inr ⟨rfl, hupsert⟩
    | false =>
      have hsame : (store.upsert host (prepared host item pin held).toIncomingItem).1 = store :=
        upsert_false host (by rw [hupsert])
      rw [hupsert] at hsame
      exact Or.inl ⟨rfl, hsame⟩

theorem applyOne_cases {incoming : Incoming} {flags : P2pApply}
    (h : applyOne host store incoming = .ok (after, flags)) :
    (flags.content = false ∧ ∀ id, contentCiphertext after id = contentCiphertext store id) ∨
      flags.content = true ∧ ∃ pin held,
        store.upsert host (prepared host incoming.1 pin held).toIncomingItem = (after, true) := by
  obtain ⟨item, pin⟩ := incoming
  cases pin with
  | none =>
    simp only [applyOne] at h
    obtain ⟨⟨middle, stored⟩, hmerge, h⟩ := bind_ok_iff.1 h
    obtain ⟨rfl, rfl⟩ := Prod.mk.inj (Except.ok.inj h)
    unfold applyRemoteVersion at hmerge
    split at hmerge
    · obtain ⟨rfl, rfl⟩ := Prod.mk.inj (Except.ok.inj hmerge)
      exact Or.inl ⟨rfl, fun _ => rfl⟩
    · rcases applyRemoteVersionWithPinState_cases host hmerge with ⟨rfl, rfl⟩ | ⟨rfl, hupsert⟩
      · exact Or.inl ⟨rfl, fun _ => rfl⟩
      · exact Or.inr ⟨rfl, _, _, hupsert⟩
  | some pin =>
    simp only [applyOne, applyRemoteP2pVersionWithPinStamp] at h
    obtain ⟨middle, stored, hmiddle, hrest⟩ : ∃ middle stored,
        (stored = false ∧ middle = store ∨ stored = true ∧ ∃ pin held,
          store.upsert host (prepared host item pin held).toIncomingItem = (middle, true)) ∧
        (if (!stored && remotePinWins host item pin (store.versionSummary item.itemId)) = true then
          (.ok ((middle.applyPinState item.itemId pin.pinned pin.pinOrder pin.pinUpdatedAt).1,
            ⟨stored, (middle.applyPinState item.itemId pin.pinned pin.pinOrder
              pin.pinUpdatedAt).2⟩) : Except MergeError (Store × P2pApply))
        else .ok (middle, ⟨stored, false⟩)) = .ok (after, flags) := by
      by_cases hrefused : payloadIsRefused host item = true
      · rw [if_pos hrefused] at h
        exact ⟨store, false, Or.inl ⟨rfl, rfl⟩, h⟩
      · rw [if_neg hrefused] at h
        obtain ⟨⟨middle, stored⟩, hmerge, h⟩ := bind_ok_iff.1 h
        refine ⟨middle, stored, ?_, h⟩
        rcases applyRemoteVersionWithPinState_cases host hmerge with hsame | ⟨hstored, hupsert⟩
        · exact Or.inl hsame
        · exact Or.inr ⟨hstored, _, _, hupsert⟩
    split at hrest
    · rename_i hpin
      obtain ⟨rfl, rfl⟩ := Prod.mk.inj (Except.ok.inj hrest)
      rcases hmiddle with ⟨rfl, rfl⟩ | ⟨rfl, -⟩
      · exact Or.inl ⟨rfl, fun id => contentCiphertext_applyPinState _ _ _ _ _ id⟩
      · cases hpin
    · obtain ⟨rfl, rfl⟩ := Prod.mk.inj (Except.ok.inj hrest)
      rcases hmiddle with ⟨rfl, rfl⟩ | ⟨rfl, pin, held, hupsert⟩
      · exact Or.inl ⟨rfl, fun _ => rfl⟩
      · exact Or.inr ⟨rfl, pin, held, hupsert⟩

/-- A page whose merge stored a version of an item. -/
def stores (id : String) (page : List Incoming) (applied : List P2pApply) : Bool :=
  (page.zip applied).any fun (incoming, flags) => decide (incoming.1.itemId = id) && flags.content

section Passes

variable {id : String} {before after : List UInt8} {body : Body}

variable {begun : Bool}

theorem view_writeRows (rows : List (Incoming × Decision))
    (hrows : ∀ row ∈ rows, ∀ ready, row.2 = .won ready →
      Carries id after ready.toIncomingItem ∧ ready.id = row.1.1.itemId) {disk : Disk}
    (h : view disk id = resealed before after body begun) :
    view (writeRows host disk rows).1 id =
      resealed before after body (begun || (writeRows host disk rows).2.any fun entry =>
        decide (entry.incoming.1.itemId = id) && entry.outcome.getD false) := by
  induction rows generalizing disk begun with
  | nil => simpa [writeRows] using h
  | cons row rest ih =>
    have hrest := fun other hother => hrows other (List.mem_cons_of_mem _ hother)
    obtain ⟨incoming, decision⟩ := row
    cases decision with
    | won ready =>
      obtain ⟨hcarries, hid⟩ := hrows _ List.mem_cons_self ready rfl
      have hnext := ih hrest (view_upsert host hcarries h)
      simp only [writeRows, List.any_cons, Option.getD_some]
      rw [hnext, ← hid, Bool.or_assoc, Bool.and_comm (upsert host disk ready.toIncomingItem).2]
    | refused | lost pinWins =>
      have hnext := ih hrest h
      simp only [writeRows, List.any_cons, Option.getD_none, Bool.and_false, Bool.false_or]
      exact hnext

theorem contentCiphertext_pinPass (entries : List Entry) (store : Store) (id : String) :
    contentCiphertext (pinPass store entries).1 id = contentCiphertext store id := by
  induction entries generalizing store with
  | nil => rfl
  | cons entry rest ih =>
    unfold pinPass
    split
    · rw [ih, contentCiphertext_applyPinState]
    · exact ih store

theorem content_pinPass (entries : List Entry) (store : Store) (id : String) :
    ((pinPass store entries).2.any fun row =>
        decide (row.1.incoming.1.itemId = id) && row.2.content) =
      entries.any fun entry => decide (entry.incoming.1.itemId = id) && entry.outcome.getD false := by
  induction entries generalizing store with
  | nil => rfl
  | cons entry rest ih =>
    unfold pinPass
    split
    · simp [ih, Entry.flags]
    · simp [ih, Entry.flags]

theorem view_applyRow {disk disk' : Disk} {incoming : Incoming} {flags : P2pApply}
    (hcarries : ∀ pin held, Carries id after (prepared host incoming.1 pin held).toIncomingItem)
    (h : view disk id = resealed before after body begun)
    (hrow : applyRow host disk incoming = .ok (disk', flags)) :
    view disk' id = resealed before after body
      (begun || (decide (incoming.1.itemId = id) && flags.content)) := by
  obtain ⟨⟨store, stored⟩, happly, hrow⟩ := bind_ok_iff.1 hrow
  obtain ⟨rfl, rfl⟩ := Prod.mk.inj (Except.ok.inj hrow)
  rcases applyOne_cases host happly with ⟨hcontent, hsame⟩ | ⟨hcontent, pin, held, hupsert⟩
  · rw [hcontent, Bool.and_false, Bool.or_false, ← h]
    exact view_settle_same disk store id (hsame id)
  · have hview := view_upsert host (hcarries pin held) h
    unfold upsert at hview
    rw [hupsert] at hview
    rw [hcontent, Bool.and_true]
    exact hview

theorem view_redoRows (rows : List (Entry × P2pApply)) (hrows : ∀ row ∈ rows, ∀ pin held,
      Carries id after (prepared host row.1.incoming.1 pin held).toIncomingItem)
    {refused : List String} {disk disk' : Disk} {applied : List P2pApply}
    (h : view disk id = resealed before after body
      (begun || rows.any fun row => decide (row.1.incoming.1.itemId = id) && row.2.content))
    (hredo : redoRows host refused disk rows = .ok (disk', applied)) :
    view disk' id = resealed before after body
      (begun || stores id (rows.map fun row => row.1.incoming) applied) := by
  induction rows generalizing refused disk applied begun with
  | nil =>
    obtain ⟨rfl, rfl⟩ := Prod.mk.inj (Except.ok.inj hredo)
    exact h
  | cons row rest ih =>
    obtain ⟨entry, flags⟩ := row
    rw [List.any_cons] at h
    obtain ⟨step, later, hstep, hlast, rfl⟩ := redoRows_cons host hredo
    -- What the row itself comes to, before the rest of the page.
    have hnow : view step.1 id = resealed before after body
        ((begun || (decide (entry.incoming.1.itemId = id) && step.2.content)) ||
          rest.any fun row => decide (row.1.incoming.1.itemId = id) && row.2.content) := by
      rcases hstep with rfl | ⟨hflags, happly⟩
      · rw [Bool.or_assoc]
        exact h
      · have hcontent : flags.content = false := (Bool.or_eq_false_iff.1 hflags).1
        rw [hcontent, Bool.and_false, Bool.false_or] at h
        have hrow := view_applyRow host (hrows _ List.mem_cons_self) h happly
        rw [hrow]
        congr 1
        rw [Bool.or_assoc, Bool.or_assoc, Bool.or_comm (rest.any _)]
    have hfinal := ih (fun row hrow => hrows row (List.mem_cons_of_mem _ hrow)) hnow hlast
    rw [hfinal]
    simp [stores, Bool.or_assoc]

end Passes

theorem decideRow_won {held : List Version} {incoming : Incoming} {ready : Prepared}
    (h : decideRow host held incoming = .ok (.won ready)) :
    ∃ pin version, ready = prepared host incoming.1 pin version := by
  unfold decideRow at h
  split at h
  · cases h
  · simp only [bind, Except.bind] at h
    split at h
    · cases h
    · rename_i answer hprepare
      split at h
      · obtain rfl := Decision.won.inj (Except.ok.inj h)
        exact ⟨_, _, prepareRemoteVersion_eq_some host hprepare⟩
      · cases h

theorem decisions_won {held : List Version} {page : List Incoming} {ds : List Decision}
    (h : decisions host held page = .ok ds) :
    ∀ row ∈ page.zip ds, ∀ ready, row.2 = .won ready →
      ∃ pin version, ready = prepared host row.1.1 pin version := by
  induction page generalizing held ds with
  | nil => simp
  | cons incoming rest ih =>
    obtain ⟨decision, later, hdecide, hlater, rfl⟩ := decisions_cons host h
    rw [List.zip_cons_cons, List.forall_mem_cons]
    refine ⟨?_, ih hlater⟩
    rintro ready rfl
    exact decideRow_won host hdecide

/-- A page whose versions of an item all carry one ciphertext brings the item's row to
it, and releases the item's file unless that was the ciphertext before. -/
theorem view_mergePage {id : String} {before after : List UInt8} {body : Body} {disk disk' : Disk}
    {page : List Incoming} {applied : List P2pApply}
    (hpage : ∀ incoming ∈ page, ∀ pin held,
      Carries id after (prepared host incoming.1 pin held).toIncomingItem)
    (h : view disk id = (some (some before), body))
    (hmerge : mergePage host disk page = .ok (disk', applied)) :
    view disk' id = resealed before after body (stores id page applied) := by
  unfold mergePage at hmerge
  obtain ⟨ds, hds, hmerge⟩ := bind_ok_iff.1 hmerge
  dsimp only at hmerge
  have hwon := decisions_won host hds
  have hrows : ∀ row ∈ page.zip ds, ∀ ready, row.2 = .won ready →
      Carries id after ready.toIncomingItem ∧ ready.id = row.1.1.itemId := by
    intro row hrow ready hready
    obtain ⟨pin, version, rfl⟩ := hwon row hrow ready hready
    exact ⟨hpage row.1 (List.of_mem_zip hrow).1 pin version, rfl⟩
  have hincoming : (writeRows host disk (page.zip ds)).2.map Entry.incoming = page := by
    have hstore := writeRows_store host disk (page.zip ds)
    rw [(Prod.mk.inj hstore).2, writeAll_incoming,
      List.map_fst_zip (by rw [length_decisions host hds])]
  have hbegin : view disk id = resealed before after body false := h
  have hwritten := view_writeRows host (page.zip ds) hrows hbegin
  generalize writeRows host disk (page.zip ds) = answer at hmerge hwritten hincoming
  obtain ⟨middle, entries⟩ := answer
  have hentries : (pinPass middle.store entries).2.map (fun row => row.1.incoming) = page := by
    have hfst := congrArg (List.map Entry.incoming) (pinPass_fst middle.store entries)
    rw [List.map_map] at hfst
    exact hfst.trans hincoming
  have hpinned : view { middle with store := (pinPass middle.store entries).1 } id =
      resealed before after body (false || (pinPass middle.store entries).2.any fun row =>
        decide (row.1.incoming.1.itemId = id) && row.2.content) := by
    rw [content_pinPass, ← hwritten]
    unfold view
    rw [contentCiphertext_pinPass]
  have hfinal := view_redoRows host (pinPass middle.store entries).2 ?_ hpinned hmerge
  · rw [hentries, Bool.false_or] at hfinal
    exact hfinal
  · intro row hrow
    apply hpage
    rw [← hentries]
    exact List.mem_map_of_mem hrow

end Page

theorem rowCiphertext_sealWithDigest (nonce : StreamNonce) (bytes : List UInt8) (id : String) :
    rowCiphertext (sealWithDigest cipher nonce bytes id) = sealWithDigest cipher nonce bytes id := by
  have hsplit : splitReference (sealWithDigest cipher nonce bytes id) = none := by
    unfold splitReference
    rw [if_neg]
    rintro ⟨hmagic, -⟩
    simp [sealWithDigest, header, binaryMagic, referenceMagic] at hmagic
  rw [rowCiphertext, hsplit]

/-- Another nonce is another envelope: the header carries it. -/
theorem sealWithDigest_inj {nonce nonce' : StreamNonce} {bytes : List UInt8} {id : String}
    (h : sealWithDigest cipher nonce bytes id = sealWithDigest cipher nonce' bytes id) :
    nonce = nonce' := by
  have hlength : (header cipher bytes nonce).length = (header cipher bytes nonce').length := by
    simp [header, nonce.2, nonce'.2]
  have hheader := (List.append_inj h hlength).1
  exact Subtype.ext (List.append_cancel_left hheader)

/-- The row part of an imported payload is no envelope of a stream. -/
theorem rowCiphertext_sealReference_ne (host : Host) (draws : Draws) (nonce : StreamNonce)
    (bytes : List UInt8) (id : String) :
    rowCiphertext (sealReference cipher host draws bytes id) ≠
      sealWithDigest cipher nonce bytes id := by
  intro heq
  have hthird : (rowCiphertext (sealReference cipher host draws bytes id))[2]? = some 0x52 := by
    unfold rowCiphertext splitReference
    split
    · rename_i reference shared hsplit
      split at hsplit
      · obtain ⟨rfl, -⟩ := Prod.mk.inj (Option.some.inj hsplit)
        simp [sealReference, referenceMagic]
      · cases hsplit
    · simp [sealReference, referenceMagic]
  rw [heq] at hthird
  simp [sealWithDigest, header, binaryMagic] at hthird

/-- Whether a merged version leaves the file of its item: it does when the seal draws the
very nonce the stored offer has, and an imported item's seal never does. -/
theorem mergePage_body_iff (host : Host) (draws : String → List UInt8 → Draws)
    {disk disk' : Disk} {page : List Incoming} {applied : List P2pApply} {id : String} {offer : List UInt8} {row : ItemRow}
    {nonce : StreamNonce} (hrow : lookup ItemRow.id disk.store.items id = some row)
    (hsealed : row.payload = some ([], sealWithDigest cipher nonce offer id))
    (hbody : disk.files.bodyOf id ≠ Body.none)
    (hsame : ∀ incoming ∈ page, incoming.1.itemId = id → incoming.1.deleted = false ∧
      incoming.1.contentType = fileType ∧ incoming.1.bytes = offer)
    (hmerge : mergePage (sealing cipher draws host) disk page = .ok (disk', applied))
    (hstored : stores id page applied = true) :
    disk'.files.bodyOf id = disk.files.bodyOf id ↔
      startsWith importIdHead id = false ∧ (draws id offer).stream = nonce := by
  have hbinary : isBinary fileType = true := by decide
  have hkind : fileType ≠ recordContentType := by decide
  let fresh := rowCiphertext (if startsWith importIdHead id then
    sealReference cipher host (draws id offer) offer id
    else sealWithDigest cipher (draws id offer).stream offer id)
  have hpage : ∀ incoming ∈ page, ∀ pin held,
      Carries id fresh (prepared (sealing cipher draws host) incoming.1 pin held).toIncomingItem := by
    intro incoming hincoming pin held hid
    obtain ⟨hlive, htype, hbytes⟩ := hsame incoming hincoming hid
    refine ⟨by rw [show (prepared (sealing cipher draws host) incoming.1 pin held).contentType =
      incoming.1.contentType from rfl, htype]; exact hkind, ?_⟩
    have hitem : incoming.1.itemId = id := hid
    simp [rowPart, prepared, hlive, sealing, htype, hbinary, hbytes, hitem, fresh]
  have hview : view disk id =
      (some (some (sealWithDigest cipher nonce offer id)), disk.files.bodyOf id) := by
    unfold view contentCiphertext
    rw [hrow, Option.map_some, hsealed, Option.map_some, rowCiphertext_sealWithDigest]
  have hafter := view_mergePage (sealing cipher draws host) hpage hview hmerge
  rw [hstored] at hafter
  have hfinal : disk'.files.bodyOf id =
      if fresh = sealWithDigest cipher nonce offer id then disk.files.bodyOf id else Body.none :=
    (Prod.mk.inj hafter).2
  have hfresh : fresh = sealWithDigest cipher nonce offer id ↔
      startsWith importIdHead id = false ∧ (draws id offer).stream = nonce := by
    by_cases himport : startsWith importIdHead id = true
    · simp only [fresh, himport, if_true, Bool.true_eq_false, false_and, iff_false]
      exact rowCiphertext_sealReference_ne cipher host (draws id offer) nonce offer id
    · simp only [fresh, himport, Bool.false_eq_true, if_false, true_and]
      rw [rowCiphertext_sealWithDigest]
      constructor
      · exact sealWithDigest_inj cipher
      · rintro rfl
        rfl
  rw [hfinal]
  constructor
  · intro hkept
    by_contra hother
    rw [if_neg (fun heq => hother (hfresh.1 heq))] at hkept
    exact hbody hkept.symm
  · intro hcond
    rw [if_pos (hfresh.2 hcond)]

/-- A cipher for concrete runs, and nonces of one byte repeated. -/
def plainCipher : Cipher where
  digest := fun _ => []
  records := fun _ _ bytes => bytes
  encrypt := fun _ _ bytes => bytes

def nonceOf (byte : UInt8) : StreamNonce := ⟨List.replicate streamNonceLen byte, by simp⟩

def sampleOffer : FileTransfer := ⟨2, String.ofList (List.replicate 64 '0'), none⟩

/-- A host that knows one offer and its metadata. -/
def offerHost : Host :=
  { sampleHost with
    parsePayload := fun text =>
      if text = "offered" then
        some { file := some ⟨"a.txt", "text/plain", none, some sampleOffer⟩ }
      else none
    parseTransfer := fun bytes => if bytes = utf8 "offer" then some sampleOffer else none
    renderPayload := fun _ => "offered" }

/-- A device that captured a file and keeps its body. -/
def fileRow : ItemRow :=
  { sampleRow "file-offer-1" "offer" 1 (some "offered") with
    contentType := fileType
    originDeviceId := ""
    payload := some ([], sealWithDigest plainCipher (nonceOf 1) (utf8 "offer") "file-offer-1") }

def fileDisk : Disk where
  store := { items := [fileRow] }
  files :=
    { bodies :=
      { owners := [("file-offer-1", sampleOffer.sha256)]
        parts := [(sampleOffer.sha256, ⟨0, [], [7, 7]⟩)] } }

/-- The same offer, restamped by a peer. -/
def restamped : RemoteVersion :=
  { sampleVersion "file-offer-1" "" 2 with
    contentType := fileType
    binaryContent := some (utf8 "offer")
    payloadMetadata := some "offered" }

def resealDraws (_ : String) (_ : List UInt8) : Draws := ⟨nonceOf 2, []⟩

/-- The disk after the merge of the restamped offer. -/
def restampedDisk : Disk :=
  (upsert (sealing plainCipher resealDraws offerHost) fileDisk
    (prepared (sealing plainCipher resealDraws offerHost) restamped none
      (some fileRow.toVersion)).toIncomingItem).1

theorem restamped_loses_body :
    mergePage (sealing plainCipher resealDraws offerHost) fileDisk [(restamped, none)] =
        .ok (restampedDisk, [⟨true, false⟩]) ∧
      restamped.bytes = utf8 "offer" ∧
      restampedDisk.files.bodyOf "file-offer-1" ≠ fileDisk.files.bodyOf "file-offer-1" := by
  refine ⟨rfl, rfl, ?_⟩
  decide

/-- The condition at that merge: the nonces differ. -/
theorem restamped_body_iff :
    restampedDisk.files.bodyOf "file-offer-1" = fileDisk.files.bodyOf "file-offer-1" ↔
      startsWith importIdHead "file-offer-1" = false ∧
        (resealDraws "file-offer-1" (utf8 "offer")).stream = nonceOf 1 := by
  have hmerge : mergePage (sealing plainCipher resealDraws offerHost) fileDisk
      [(restamped, none)] = .ok (restampedDisk, [⟨true, false⟩]) := rfl
  have hrow : lookup ItemRow.id fileDisk.store.items "file-offer-1" = some fileRow := rfl
  have hsealed : fileRow.payload =
      some ([], sealWithDigest plainCipher (nonceOf 1) (utf8 "offer") "file-offer-1") := rfl
  refine mergePage_body_iff plainCipher offerHost resealDraws hrow hsealed ?_ ?_ hmerge ?_
  · decide
  · intro incoming hincoming _
    rw [List.mem_singleton.1 hincoming]
    exact ⟨rfl, rfl, rfl⟩
  · decide

end CopyPaste.Files.Reseal
