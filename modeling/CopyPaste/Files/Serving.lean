import CopyPaste.Files.Complete
import CopyPaste.Files.Download
import CopyPaste.Peer.Lockstep
import Mathlib

/-!
The device that offered a file serves it: the chunks it keeps, or the local file that a
reference names. A side that downloads from it over a reliable link asks for as many chunks
as are sent, each of the length it expects, and both come to their ends with the same bytes.
-/

namespace CopyPaste.Files.Serving

open Lib.Duplex Lib.Rows Lib.Pieces Merge.Payload Merge.Storage Tables Reseal Bodies Download
open Complete (Held readChunk_piece readChunk_empty offerOf_eq_ok rowOffer_eq_ok
  hasFileTransfer_of_mem)
open Wire.Messages (SyncMessage)
open Wire.Codec (Libraries protocolVersion fileChunkBytes validateMessage checked isHash checkIdField)

/-- What file sessions are answered from: the database, the files that references name, and
the settings. -/
structure Sharing where
  disk : Disk
  opened : String → Except FileTransferError OpenFile
  enabled : Bool
  allows : ItemRow → Bool
  describe : FileTransferError → String

variable (host : Host) (vault : Vault) (libs : Libraries) (sharing : Sharing)

def sharedRow (id reason : String) : Except SyncError ItemRow :=
  if !sharing.enabled then .error .cancelled
  else
    match (liveRow sharing.disk.store id).filter sharing.allows with
    | none => .error (.source reason)
    | some row => .ok row

def deferredFile (id : String) : Except SyncError (Option DeferredSource) := do
  let row ← sharedRow sharing id "The file is unavailable."
  match source sharing.disk sharing.opened row.id with
  | .error error => .error (.source (sharing.describe error))
  | .ok file => .ok file

/-- `check_access` of a file that is read for a peer. -/
def checkAccess (id : String) : Except SyncError Unit := do
  let _ ← sharedRow sharing id "The file is no longer shared."
  if (sharing.disk.files.references.find? fun row => row.itemId = id).isNone then
    .error (.source "The source file changed.")
  else .ok ()

def fileSize (id sha256 : String) : Except SyncError Nat := do
  let row ← sharedRow sharing id "The file is unavailable."
  match rowOffer host vault row with
  | .error error => .error (.source (sharing.describe error))
  | .ok none => .error (.source "The file is unavailable.")
  | .ok (some offer) =>
    if sha256 ≠ "" ∧ offer.sha256 ≠ sha256 then .error (.source "The file is unavailable.")
    else .ok offer.sizeBytes

def fileChunk (id sha256 : String) (index : Nat) : Except SyncError (List UInt8) := do
  let row ← sharedRow sharing id "The file is unavailable."
  if !hasFileTransfer sharing.disk row.id then .error (.source "The file is unavailable.")
  else
    match readChunk host vault sharing.disk id sha256 index with
    | .error error => .error (.source (sharing.describe error))
    | .ok bytes => .ok bytes

/-- The server's side of a session: the file it reads, and what it hashed. -/
structure Served where
  deferred : Option DeferredSource := none
  digested : List UInt8 := []

def nextBlock (id sha256 : String) (index : Nat) (here : Served) :
    Except SyncError (List UInt8) × Served :=
  match here.deferred with
  | none => (fileChunk host vault sharing id sha256 index, here)
  | some input =>
    match checkAccess sharing id with
    | .error error => (.error error, here)
    | .ok () =>
      match input.readChunk with
      | .error error => (.error error, here)
      | .ok (bytes, input) => (.ok bytes, { here with deferred := some input })

def digest (bytes : List UInt8) (here : Served) : Except SyncError Unit × Served :=
  (.ok (), if here.deferred.isSome then { here with digested := here.digested ++ bytes } else here)

def serveChunk (id sha256 : String) (size index : Nat) :
    Act SyncMessage SyncError Served Unit := do
  let bytes ← Act.call (nextBlock host vault sharing id sha256 index)
  if bytes.length ≠ min (size - index * fileChunkBytes) fileChunkBytes then
    Act.fail (.source "The source file is incomplete.")
  else do
    Act.call (digest bytes)
    send libs (.fileChunk index bytes)

/-- The digest of a file that was read, once it is found as it was. -/
def closeDeferred (id : String) (here : Served) : Except SyncError (Option String) × Served :=
  match here.deferred with
  | none => (.ok none, here)
  | some input =>
    match checkAccess sharing id with
    | .error error => (.error error, here)
    | .ok () =>
      match input.verify with
      | .error error => (.error error, here)
      | .ok () => (.ok (some (host.sha256 here.digested)), { here with deferred := none })

def confirm : Act SyncMessage SyncError Served Unit := do
  match ← receive libs with
  | .done => return ()
  | _ => Act.fail (.source "The file transfer was not confirmed.")

def sendChecksum : Option String → Act SyncMessage SyncError Served Unit
  | none => pure ()
  | some sha256 => send libs (.fileChecksum sha256)

def admitRequest (deferred : Option DeferredSource) (id sha256 : String) (size index : Nat) :
    Except SyncError Unit := do
  if index ≠ 0 then .error (.source "Invalid file range.")
  else if deferred.isSome ∧ sha256 ≠ "" then
    .error (.source "The requested file version does not match the source.")
  else
    let found ← fileSize host vault sharing id sha256
    if found ≠ size then
      .error (.source "The requested file size does not match the source.")
    else .ok ()

/-- The operation of `serve_file`. -/
def serveBlocks (id sha256 : String) (size index : Nat) :
    Act SyncMessage SyncError Served Unit := do
  let deferred ← Act.ofExcept (deferredFile sharing id)
  Act.ofExcept (admitRequest host vault sharing deferred id sha256 size index)
  Act.call fun here => (.ok (), { here with deferred })
  (List.range (chunkTotal size)).forM (serveChunk host vault libs sharing id sha256 size)
  confirm libs
  let checksum ← Act.call (closeDeferred host sharing id)
  sendChecksum libs checksum

/-- Tell the other side why; that this cannot be sent does not matter. -/
def report (reason : String) : Act SyncMessage SyncError Served Unit := fun here =>
  (send libs (.fileUnavailable reason) here).recover fun here _ => .done here ()

def refuse (reason : String) : Act SyncMessage SyncError Served Unit := do
  report libs reason
  Act.fail (.source reason)

/-- `serve_file`: `permit` is whether no other file is being served, `active` whether the
pairing stands. -/
def serveFile (permit active : Bool) : SyncMessage → Act SyncMessage SyncError Served Unit
  | .fileRequest _ id sha256 size index =>
    if !permit then
      refuse libs "Another file transfer is in progress. Wait for it to finish."
    else if !active then refuse libs "The device is no longer paired."
    else fun here =>
      (serveBlocks host vault libs sharing id sha256 size index here).recover fun here error =>
        match error with
        | .source reason => refuse libs reason here
        | _ => .fail here error
  | _ => Act.fail (.source "Invalid file request.")

/-- The listener: the first message is the request. -/
def listen (permit active : Bool) : Act SyncMessage SyncError Served Unit := do
  let first ← receive libs
  serveFile host vault libs sharing permit active first

/-- A reader that answers with bytes whenever it has some. -/
inductive Solid : Reader → List UInt8 → Prop
  | nil : Solid [] []
  | cons {given bytes : List UInt8} {reader : Reader} (hgiven : given ≠ []) (h : Solid reader bytes) :
      Solid (.bytes given :: reader) (given ++ bytes)

/-- The file a reference names is as it was when it was added, and stays so. -/
structure Unchanged (row : ReferenceRow) (file : OpenFile) (bytes : List UInt8) : Prop where
  solid : Solid file.reader bytes
  size : row.sizeBytes = bytes.length
  regular : file.regular = true → file.length = bytes.length ∧
    (∀ stamp, row.modified = some stamp → file.modified = some stamp) ∧
    file.later = some (bytes.length, file.modified)
  streamed : file.regular = false → startsWith "content://" row.reference = true ∧
    file.later.isSome

/-- The item is shared, and its file is kept in chunks or unchanged where its reference
says. -/
inductive Shares (id : String) : String → List UInt8 → Prop
  | stored (hash : String) (bytes : List UInt8) (row : ItemRow)
      (hrow : sharedRow sharing id "The file is unavailable." = .ok row)
      (hheld : Held host vault sharing.disk id hash bytes)
      (hmem : (id, hash) ∈ sharing.disk.files.bodies.owners)
      (hnone : (sharing.disk.files.references.find? fun row => row.itemId = id) = none) :
      Shares id hash bytes
  | deferred (bytes : List UInt8) (row : ItemRow) (reference : ReferenceRow) (file : OpenFile)
      (offer : FileTransfer)
      (hrow : sharedRow sharing id "The file is unavailable." = .ok row)
      (hoffer : offerOf host vault sharing.disk id = .ok offer)
      (hsize : offer.sizeBytes = bytes.length)
      (hreference : (sharing.disk.files.references.find? fun row => row.itemId = id) =
        some reference)
      (hopened : sharing.opened reference.reference = .ok file)
      (hunchanged : Unchanged reference file bytes) : Shares id "" bytes

variable {bytes : List UInt8} {index : Nat} {reference : ReferenceRow} {file : OpenFile}
  {id hash : String} {row : ItemRow} {here : Receiving}

theorem fill_solid {reader : Reader} (h : Solid reader bytes) {room : Nat} (hroom : 0 < room) :
    ∃ rest, fill room reader = .ok (bytes.take room, rest) ∧
      Solid rest (bytes.drop room) := by
  induction h generalizing room with
  | nil => exact ⟨[], by simp [fill], by rw [List.drop_nil]; exact .nil⟩
  | @cons given bytes reader hgiven hreader ih =>
    unfold fill
    rw [if_neg hgiven]
    by_cases hlong : room < given.length
    · rw [if_pos hlong, List.take_append_of_le_length (by omega),
        List.drop_append_of_le_length (by omega)]
      refine ⟨_, rfl, .cons ?_ hreader⟩
      intro hnil
      rw [List.drop_eq_nil_iff] at hnil
      omega
    · rw [if_neg hlong]
      by_cases hfull : room = given.length
      · rw [if_pos hfull, hfull, List.take_left, List.drop_left]
        exact ⟨reader, rfl, hreader⟩
      · obtain ⟨rest, hfill, hrest⟩ := ih (show 0 < room - given.length by omega)
        refine ⟨rest, ?_, ?_⟩
        · rw [if_neg hfull, hfill]
          simp only [bind, Except.bind, pure, Except.pure]
          rw [List.take_append, List.take_of_length_le (show given.length ≤ room by omega)]
        · rw [List.drop_append, List.drop_eq_nil_of_le (by omega), List.nil_append]
          exact hrest

theorem solid_nil {reader : Reader} (h : Solid reader []) : reader = [] := by
  generalize hbytes : ([] : List UInt8) = bytes at h
  cases h with
  | nil => rfl
  | cons hgiven hreader => exact absurd (List.append_eq_nil_iff.1 hbytes.symm).1 hgiven

/-- A file that is read in order: what was read, and what is left of it. -/
structure ReadTo (bytes : List UInt8) (done : Nat) (input : DeferredSource) : Prop where
  read : input.read = min done bytes.length
  size : input.size = bytes.length
  solid : Solid input.file (bytes.drop done)

theorem readChunk_readTo {input : DeferredSource} (h : ReadTo bytes (index * chunkBytes) input) :
    ∃ next, input.readChunk = .ok (piece chunkBytes bytes index, next) ∧
      ReadTo bytes ((index + 1) * chunkBytes) next ∧ next.stamp = input.stamp ∧
      next.regular = input.regular ∧ next.later = input.later := by
  have hpositive : 0 < chunkBytes := by decide
  unfold DeferredSource.readChunk
  obtain ⟨width, hwidth⟩ : ∃ width, chunkBytes = width := ⟨_, rfl⟩
  rw [hwidth] at h hpositive ⊢
  have hlength : (piece width bytes index).length =
      min width (bytes.length - index * width) := length_piece bytes index
  have hroom : min (input.size - input.read) width = (piece width bytes index).length := by
    rw [h.read, h.size, hlength]
    omega
  have hexact : ∃ rest, readExact (min (input.size - input.read) width) input.file =
      .ok (piece width bytes index, rest) ∧
      Solid rest (bytes.drop ((index + 1) * width)) := by
    have hdrop : bytes.drop ((index + 1) * width) =
        (bytes.drop (index * width)).drop width := by
      rw [List.drop_drop, Nat.add_mul, Nat.one_mul]
    unfold readExact
    rw [hroom]
    by_cases hzero : (piece width bytes index).length = 0
    · rw [if_pos hzero]
      have hover : bytes.length ≤ index * width := by
        omega
      refine ⟨input.file, ?_, ?_⟩
      · rw [List.length_eq_zero_iff.1 hzero]
      · have hsolid := h.solid
        rw [List.drop_eq_nil_of_le hover] at hsolid
        rw [hdrop, List.drop_eq_nil_of_le hover, List.drop_nil]
        exact hsolid
    · rw [if_neg hzero]
      obtain ⟨rest, hfill, hrest⟩ := fill_solid h.solid (Nat.pos_of_ne_zero hzero)
      have htake : (bytes.drop (index * width)).take (piece width bytes index).length =
          piece width bytes index := by
        rw [hlength]
        unfold piece
        rw [← List.length_drop, ← List.take_eq_take_min]
      refine ⟨rest, ?_, ?_⟩
      · rw [hfill, htake]
        simp [bind, Except.bind, pure, Except.pure]
      · rw [hdrop]
        have hsame : (bytes.drop (index * width)).drop (piece width bytes index).length =
            (bytes.drop (index * width)).drop width := by
          by_cases hshort : width ≤ bytes.length - index * width
          · rw [hlength, Nat.min_eq_left hshort]
          · rw [hlength, Nat.min_eq_right (by omega), List.drop_eq_nil_of_le (by simp),
              List.drop_eq_nil_of_le (by rw [List.length_drop]; omega)]
        exact hsame ▸ hrest
  obtain ⟨rest, hexact, hrest⟩ := hexact
  rw [hexact]
  refine ⟨_, rfl, ⟨?_, h.size, hrest⟩, rfl, rfl, rfl⟩
  simp only
  rw [h.read, hlength, Nat.add_mul]
  omega

/-- All of an unchanged file has been read, and it is still found so. -/
theorem verify_readTo {input : DeferredSource} (hunchanged : Unchanged reference file bytes)
    (h : ReadTo bytes (index * chunkBytes) input) (hall : bytes.length ≤ index * chunkBytes)
    (hstamp : input.stamp = if file.regular then file.modified else none)
    (hregular : input.regular = file.regular) (hlater : input.later = file.later) :
    input.verify = .ok () := by
  have hread : input.read = input.size := by
    rw [h.read, h.size]
    omega
  have hsolid := h.solid
  rw [List.drop_eq_nil_of_le hall] at hsolid
  have hend : input.file = [] := solid_nil hsolid
  unfold DeferredSource.verify
  rw [hlater, hregular]
  by_cases hkind : file.regular = true
  · obtain ⟨-, -, hmetadata⟩ := hunchanged.regular hkind
    rw [hmetadata]
    simp [hread, hkind, hstamp, h.size]
  · have hstreamed := hunchanged.streamed (by simpa using hkind)
    obtain ⟨later, hsome⟩ := Option.isSome_iff_exists.1 hstreamed.2
    rw [hsome]
    simp [hread, hkind, hend, readOnce]

variable {host vault libs sharing}

theorem sharedRow_ok {reason : String} (h : sharedRow sharing id reason = .ok row) :
    liveRow sharing.disk.store id = some row ∧ row.id = id ∧
      ∀ other, sharedRow sharing id other = .ok row := by
  unfold sharedRow at h ⊢
  split at h
  · cases h
  · rename_i henabled
    split at h
    · cases h
    · rename_i found hfound
      obtain rfl := Except.ok.inj h
      obtain ⟨hlive, -⟩ := Option.filter_eq_some_iff.1 hfound
      refine ⟨hlive, (lookup_eq_some (Option.filter_eq_some_iff.1 hlive).1).2, fun other => ?_⟩
      rw [if_neg henabled]

theorem fileSize_ok {sha256 : String} {offer : FileTransfer}
    (hrow : sharedRow sharing id "The file is unavailable." = .ok row)
    (hoffer : offerOf host vault sharing.disk id = .ok offer)
    (hsame : sha256 = "" ∨ offer.sha256 = sha256) :
    fileSize host vault sharing id sha256 = .ok offer.sizeBytes := by
  obtain ⟨hlive, -, -⟩ := sharedRow_ok hrow
  have hfound : rowOffer host vault row = .ok (some offer) := by
    unfold offerOf at hoffer
    rw [hlive] at hoffer
    simp only at hoffer
    split at hoffer
    · cases hoffer
    · cases hoffer
    · rename_i found hrowOffer
      rw [hrowOffer, Except.ok.inj hoffer]
  unfold fileSize
  simp only [hrow, bind, Except.bind, hfound]
  rw [if_neg]
  rintro ⟨hne, hother⟩
  rcases hsame with hnone | hsame
  · exact hne hnone
  · exact hother hsame

theorem chunkTotal_spec (size index : Nat) (h : index < chunkTotal size) :
    index = 0 ∧ size = 0 ∨ index < count chunkBytes size := by
  have hsame : chunkTotal size = max 1 (count chunkBytes size) := rfl
  have hpos : size ≠ 0 → 0 < count chunkBytes size := fun hne =>
    (lt_count_iff (by decide) size 0).2 (by omega)
  by_cases hzero : size = 0
  · subst hzero
    rw [hsame, count_zero (by decide)] at h
    exact Or.inl ⟨by omega, rfl⟩
  · have := hpos hzero
    exact Or.inr (by omega)

theorem fileChunk_ok (hrow : sharedRow sharing id "The file is unavailable." = .ok row)
    (hheld : Held host vault sharing.disk id hash bytes)
    (hmem : (id, hash) ∈ sharing.disk.files.bodies.owners)
    (hindex : index < chunkTotal bytes.length) :
    fileChunk host vault sharing id hash index = .ok (piece chunkBytes bytes index) := by
  obtain ⟨hlive, hid, -⟩ := sharedRow_ok hrow
  have hread : readChunk host vault sharing.disk id hash index =
      .ok (piece chunkBytes bytes index) := by
    rcases chunkTotal_spec bytes.length index hindex with ⟨rfl, hempty⟩ | hlt
    · obtain rfl := List.length_eq_zero_iff.1 hempty
      exact readChunk_empty hheld hmem
    · exact readChunk_piece hheld hmem hlt
  unfold fileChunk
  simp only [hrow, bind, Except.bind, hid]
  rw [if_neg (by simp [hasFileTransfer_of_mem hlive hmem]), hread]

section Talk

variable {S T α β : Type}

/-- What a receive goes on with. -/
def accept (libs : Libraries) (message : SyncMessage) : Act SyncMessage SyncError S SyncMessage :=
  match checked libs message with
  | .ok message => pure message
  | .error error => Act.fail (.protocol error)

theorem talks_take {message : SyncMessage} {f : SyncMessage → Act SyncMessage SyncError S α}
    {next : Proc SyncMessage SyncError T β} {ms ns : List SyncMessage} {s : S} {t : T}
    {l : Proc SyncMessage SyncError S α} {r : Proc SyncMessage SyncError T β}
    (hvalid : validateMessage libs message = .ok ()) (h : Talks (f message s) next ms ns l r) :
    Talks ((receive libs >>= f) s) (.send t message next) ms (message :: ns) l r := by
  refine Talks.right ?_
  have hreceived : (accept libs message : Act SyncMessage SyncError S SyncMessage) s =
      .done s message := by
    rw [accept, Peer.Lockstep.checked_valid hvalid]
    rfl
  have htaken : (accept libs message >>= f) s = f message s := Peer.Lockstep.bind_done hreceived
  rw [← htaken] at h
  exact h

theorem send_valid {message : SyncMessage} (hvalid : validateMessage libs message = .ok ()) :
    (send libs message : Act SyncMessage SyncError S Unit) = Act.send message := by
  unfold send
  rw [hvalid]

variable {bytes : List UInt8}

theorem chunk_valid {index : Nat} (h : bytes.length ≤ fileChunkBytes) :
    validateMessage libs (.fileChunk index bytes) = .ok () := by
  unfold validateMessage Wire.Codec.ensure
  simp [h]

/-- The blocks one side has taken. -/
def received (here : Receiving) (bytes : List UInt8) : Receiving :=
  { here with
    output := { here.output with content := here.output.content ++ bytes }
    seen := here.seen ++ bytes }

theorem talks_chunk {id hash : String} {index : Nat} {here : Receiving} {served served' : Served}
    (hwrites : here.output.writes = [])
    (hserve : serveChunk host vault libs sharing id hash bytes.length index served =
      .send served' (.fileChunk index (piece chunkBytes bytes index)) (.done served' ())) :
    Talks (receiveChunk libs bytes.length index here)
      (serveChunk host vault libs sharing id hash bytes.length index served) []
      [.fileChunk index (piece chunkBytes bytes index)]
      (.done (received here (piece chunkBytes bytes index)) ()) (.done served' ()) := by
  obtain ⟨⟨content, writes⟩, seen, writeError⟩ := here
  obtain rfl : writes = [] := hwrites
  have hlength : (piece chunkBytes bytes index).length =
      min chunkBytes (bytes.length - index * chunkBytes) := length_piece bytes index
  have hsame : fileChunkBytes = chunkBytes := rfl
  rw [hserve]
  unfold receiveChunk
  refine talks_take (chunk_valid (by rw [hlength, hsame]; omega)) ?_
  simp only
  rw [if_pos trivial, if_neg (by rw [hlength, hsame]; omega)]
  exact .refl _ _

/-- The loops of both sides, chunk against chunk. -/
theorem talks_chunks {id hash : String} {standing : Nat → Served → Prop}
    (hserve : ∀ index served, index < chunkTotal bytes.length → standing index served →
      ∃ served', standing (index + 1) served' ∧
        serveChunk host vault libs sharing id hash bytes.length index served =
          .send served' (.fileChunk index (piece chunkBytes bytes index)) (.done served' ()))
    (left index : Nat) (hleft : index + left ≤ chunkTotal bytes.length) {here : Receiving}
    {served : Served} (hat : standing index served) (hwrites : here.output.writes = []) :
    ∃ served' ns, standing (index + left) served' ∧
      Talks ((List.range' index left).forM (receiveChunk libs bytes.length) here)
        ((List.range' index left).forM (serveChunk host vault libs sharing id hash bytes.length)
          served) [] ns
        (.done (received here ((bytes.drop (index * chunkBytes)).take (left * chunkBytes))) ())
        (.done served' ()) := by
  induction left generalizing index here served with
  | zero =>
    refine ⟨served, [], hat, ?_⟩
    have hnone : received here ((bytes.drop (index * chunkBytes)).take (0 * chunkBytes)) = here := by
      unfold received
      simp
    rw [hnone]
    exact .refl _ _
  | succ left ih =>
    obtain ⟨middle, hmiddle, hchunk⟩ := hserve index served (by omega) hat
    obtain ⟨last, ns, hlast, htalk⟩ := @ih (index + 1) (by omega)
      (received here (piece chunkBytes bytes index)) middle hmiddle hwrites
    have hsplit : received (received here (piece chunkBytes bytes index))
        ((bytes.drop ((index + 1) * chunkBytes)).take (left * chunkBytes)) =
        received here ((bytes.drop (index * chunkBytes)).take ((left + 1) * chunkBytes)) := by
      have hbytes : (bytes.drop (index * chunkBytes)).take ((left + 1) * chunkBytes) =
          piece chunkBytes bytes index ++
            (bytes.drop ((index + 1) * chunkBytes)).take (left * chunkBytes) := by
        rw [Nat.add_mul index, Nat.one_mul, ← List.drop_drop, Nat.succ_mul, Nat.add_comm,
          List.take_add]
        rfl
      rw [hbytes]
      unfold received
      simp only [List.append_assoc]
    rw [hsplit] at htalk
    refine ⟨last, [.fileChunk index (piece chunkBytes bytes index)] ++ ns, ?_, ?_⟩
    · rw [show index + (left + 1) = index + 1 + left by omega]
      exact hlast
    rw [List.range'_succ]
    exact Peer.Lockstep.talks_bind (talks_chunk hwrites hchunk) htalk

end Talk

theorem serveChunk_stored (hrow : sharedRow sharing id "The file is unavailable." = .ok row)
    (hheld : Held host vault sharing.disk id hash bytes)
    (hmem : (id, hash) ∈ sharing.disk.files.bodies.owners) {served : Served}
    (hindex : index < chunkTotal bytes.length) (hnone : served.deferred = none) :
    serveChunk host vault libs sharing id hash bytes.length index served =
      .send served (.fileChunk index (piece chunkBytes bytes index)) (.done served ()) := by
  have hlength : (piece chunkBytes bytes index).length =
      min chunkBytes (bytes.length - index * chunkBytes) := length_piece bytes index
  have hsame : fileChunkBytes = chunkBytes := rfl
  have hblock : nextBlock host vault sharing id hash index served =
      (.ok (piece chunkBytes bytes index), served) := by
    unfold nextBlock
    rw [hnone, fileChunk_ok hrow hheld hmem hindex]
  have hdigest : digest (piece chunkBytes bytes index) served = (.ok (), served) := by
    unfold digest
    rw [hnone]
    rfl
  have hread : Act.call (nextBlock host vault sharing id hash index) served =
      (.done served (piece chunkBytes bytes index) : Proc SyncMessage SyncError Served _) := by
    unfold Act.call
    rw [hblock]
  have hnoted : Act.call (digest (piece chunkBytes bytes index)) served =
      (.done served () : Proc SyncMessage SyncError Served _) := by
    unfold Act.call
    rw [hdigest]
  unfold serveChunk
  rw [Peer.Lockstep.bind_done hread, if_neg (by rw [hlength, hsame]; omega),
    Peer.Lockstep.bind_done hnoted, send_valid (chunk_valid (by rw [hlength, hsame]; omega))]
  rfl

/-- What a server reads from while it is at one chunk of an unchanged file. -/
structure Midway (bytes : List UInt8) (file : OpenFile) (index : Nat) (served : Served) : Prop where
  input : ∃ input, served.deferred = some input ∧ ReadTo bytes (index * chunkBytes) input ∧
    input.stamp = (if file.regular then file.modified else none) ∧ input.regular = file.regular ∧
    input.later = file.later
  digested : served.digested = bytes.take (index * chunkBytes)

theorem checkAccess_ok (hrow : sharedRow sharing id "The file is unavailable." = .ok row)
    (hreference : (sharing.disk.files.references.find? fun row => row.itemId = id) =
      some reference) : checkAccess sharing id = .ok () := by
  unfold checkAccess
  rw [(sharedRow_ok hrow).2.2]
  simp only [bind, Except.bind]
  rw [hreference]
  rfl

theorem serveChunk_deferred (hrow : sharedRow sharing id "The file is unavailable." = .ok row)
    (hreference : (sharing.disk.files.references.find? fun row => row.itemId = id) = some reference)
    {served : Served} (h : Midway bytes file index served) :
    ∃ served', Midway bytes file (index + 1) served' ∧
      serveChunk host vault libs sharing id "" bytes.length index served =
        .send served' (.fileChunk index (piece chunkBytes bytes index)) (.done served' ()) := by
  have hlength : (piece chunkBytes bytes index).length =
      min chunkBytes (bytes.length - index * chunkBytes) := length_piece bytes index
  have hsame : fileChunkBytes = chunkBytes := rfl
  obtain ⟨input, hinput, hreadTo, hstamp, hregular, hlater⟩ := h.input
  obtain ⟨next, hnext, hreadTo', hstamp', hregular', hlater'⟩ := readChunk_readTo hreadTo
  have hblock : nextBlock host vault sharing id "" index served =
      (.ok (piece chunkBytes bytes index), { served with deferred := some next }) := by
    unfold nextBlock
    rw [hinput]
    simp only [checkAccess_ok hrow hreference, hnext]
  have hread : Act.call (nextBlock host vault sharing id "" index) served =
      (.done { served with deferred := some next } (piece chunkBytes bytes index) :
        Proc SyncMessage SyncError Served _) := by
    unfold Act.call
    rw [hblock]
  refine ⟨⟨some next, served.digested ++ piece chunkBytes bytes index⟩, ⟨⟨next, rfl, hreadTo', ?_⟩, ?_⟩,
    ?_⟩
  · exact ⟨hstamp'.trans hstamp, hregular'.trans hregular, hlater'.trans hlater⟩
  · rw [h.digested, Nat.add_mul, Nat.one_mul, List.take_add]
    rfl
  · unfold serveChunk
    rw [Peer.Lockstep.bind_done hread, if_neg (by rw [hlength, hsame]; omega),
      send_valid (chunk_valid (by rw [hlength, hsame]; omega))]
    rfl

theorem take_chunks (bytes : List UInt8) :
    (bytes.drop (0 * chunkBytes)).take (chunkTotal bytes.length * chunkBytes) = bytes := by
  have hwidth : 0 < chunkBytes := by decide
  have hcount := (lt_count_iff hwidth bytes.length (count chunkBytes bytes.length)).not.1
    (Nat.lt_irrefl _)
  have htotal : count chunkBytes bytes.length ≤ chunkTotal bytes.length := Nat.le_max_right _ _
  have hmul := Nat.mul_le_mul_right chunkBytes htotal
  rw [Nat.zero_mul, List.drop_zero]
  exact List.take_of_length_le (by omega)

/-- The whole session of one side that downloads and one that serves. -/
theorem talks_download (standing : Nat → Served → Prop) {deferred : Option DeferredSource}
    (hwrites : here.output.writes = []) (hrequest : validateMessage libs
      (.fileRequest protocolVersion id hash bytes.length 0) = .ok ())
    (hdeferred : deferredFile sharing id = .ok deferred)
    (haccepts : admitRequest host vault sharing deferred id hash bytes.length 0 = .ok ())
    (hstart : standing 0 { deferred })
    (hserve : ∀ index served, index < chunkTotal bytes.length → standing index served →
      ∃ served', standing (index + 1) served' ∧
        serveChunk host vault libs sharing id hash bytes.length index served =
          .send served' (.fileChunk index (piece chunkBytes bytes index)) (.done served' ()))
    (hclose : ∀ served, standing (chunkTotal bytes.length) served → ∃ served' ns,
      Talks (receiveChecksum libs hash (received here bytes))
        ((Act.call (closeDeferred host sharing id) >>= sendChecksum libs) served) [] ns
        (.done (received here bytes) (host.sha256 bytes)) (.done served' ())) :
    ∃ served' ms ns, Talks (downloadFile libs id hash bytes.length here)
      (listen host vault libs sharing true true {}) ms ns
      (.done (received here bytes) (host.sha256 bytes)) (.done served' ()) := by
  obtain ⟨middle, chunks, hmiddle, htalk⟩ := talks_chunks hserve (chunkTotal bytes.length) 0 (by omega)
    hstart hwrites
  rw [take_chunks] at htalk
  rw [Nat.zero_add] at hmiddle
  obtain ⟨last, ns, hlast⟩ := hclose middle hmiddle
  unfold downloadFile listen
  obtain ⟨chunkIds, hids⟩ : ∃ chunkIds, List.range (chunkTotal bytes.length) = chunkIds := ⟨_, rfl⟩
  rw [← List.range_eq_range', hids] at htalk
  rw [hids]
  -- The end of the loop: the other side is told, and answers with the digest it has.
  have hend : Talks ((send libs .done >>= fun _ => receiveChecksum libs hash) (received here bytes))
      ((confirm libs >>= fun _ => Act.call (closeDeferred host sharing id) >>= sendChecksum libs)
        middle) [.done] ns (.done (received here bytes) (host.sha256 bytes)) (.done last ()) := by
    have hconfirm : Talks (send libs .done (received here bytes)) (confirm libs middle) [.done] []
        (.done (received here bytes) ()) (.done middle ()) := by
      have hdone : validateMessage libs .done = .ok () := rfl
      rw [send_valid hdone]
      refine Talks.symm ?_
      exact talks_take hdone (.refl _ _)
    exact Peer.Lockstep.talks_bind hconfirm hlast
  have hblocks : Talks
      ((chunkIds.forM (receiveChunk libs bytes.length) >>= fun _ =>
        send libs .done >>= fun _ => receiveChecksum libs hash) here)
      (serveBlocks host vault libs sharing id hash bytes.length 0 {}) ([] ++ [.done]) (chunks ++ ns)
      (.done (received here bytes) (host.sha256 bytes)) (.done last ()) := by
    have hopened : Act.ofExcept (deferredFile sharing id) ({} : Served) =
        (.done {} deferred : Proc SyncMessage SyncError Served _) := by
      rw [hdeferred]
      rfl
    have hadmitted : Act.ofExcept (admitRequest host vault sharing deferred id hash bytes.length 0)
        ({} : Served) = (.done {} () : Proc SyncMessage SyncError Served _) := by
      rw [haccepts]
      rfl
    have hkept : Act.call (fun here : Served => (.ok (), { here with deferred })) {} =
        (.done { deferred } () : Proc SyncMessage SyncError Served _) := rfl
    unfold serveBlocks
    rw [Peer.Lockstep.bind_done hopened, Peer.Lockstep.bind_done hadmitted,
      Peer.Lockstep.bind_done hkept, hids]
    exact Peer.Lockstep.talks_bind htalk hend
  refine ⟨last, [.fileRequest protocolVersion id hash bytes.length 0] ++ ([] ++ [.done]),
    chunks ++ ns, ?_⟩
  rw [send_valid hrequest]
  refine Talks.symm ?_
  refine talks_take hrequest ?_
  exact (hblocks.recover _).symm

def HexDigest (host : Host) : Prop :=
  ∀ bytes, (host.sha256 bytes).utf8ByteSize = 64 ∧ isHash (host.sha256 bytes) = true

theorem request_valid (hid : checkIdField "item_id" id = .ok ())
    (hhash : hash = "" ∨ hash.utf8ByteSize = 64 ∧ isHash hash = true) :
    validateMessage libs (.fileRequest protocolVersion id hash bytes.length 0) = .ok () := by
  have hvalid : Wire.Codec.validFileRequest hash bytes.length 0 = true := by
    unfold Wire.Codec.validFileRequest
    rcases hhash with rfl | ⟨hlength, hdigits⟩
    · simp [isHash]
    · simp [hlength, hdigits]
  unfold validateMessage
  simp [hid, hvalid, Wire.Codec.checkProtocolVersion, Wire.Codec.ensure, bind, Except.bind]

theorem hash_valid (hheld : Held host vault sharing.disk id hash bytes) :
    hash.utf8ByteSize = 64 ∧ isHash hash = true := by
  obtain ⟨row, -, -, -, hrow⟩ := offerOf_eq_ok hheld.offer
  obtain ⟨-, hvalid, -, -⟩ := rowOffer_eq_ok hrow
  unfold FileTransfer.isValid at hvalid
  simp only [Option.isNone_none, Option.any_none, Bool.and_true, Bool.and_false, Bool.or_false,
    Bool.and_eq_true, beq_iff_eq] at hvalid
  exact ⟨hvalid.1.2, hvalid.2⟩

theorem talks_stored (hwrites : here.output.writes = []) (hid : checkIdField "item_id" id = .ok ())
    (hrow : sharedRow sharing id "The file is unavailable." = .ok row)
    (hheld : Held host vault sharing.disk id hash bytes)
    (hmem : (id, hash) ∈ sharing.disk.files.bodies.owners)
    (hnone : (sharing.disk.files.references.find? fun row => row.itemId = id) = none) :
    ∃ served' ms ns, Talks (downloadFile libs id hash bytes.length here)
      (listen host vault libs sharing true true {}) ms ns
      (.done (received here bytes) (host.sha256 bytes)) (.done served' ()) := by
  have hvalid := hash_valid hheld
  have hne : hash ≠ "" := by
    rintro rfl
    simp at hvalid
  have hdeferred : deferredFile sharing id = .ok none := by
    unfold deferredFile source
    simp only [hrow, bind, Except.bind, (sharedRow_ok hrow).2.1, hnone]
  have haccepts : admitRequest host vault sharing none id hash bytes.length 0 = .ok () := by
    unfold admitRequest
    rw [fileSize_ok hrow hheld.offer (Or.inr rfl)]
    simp [bind, Except.bind]
  refine talks_download (fun _ served => served.deferred = none) hwrites
    (request_valid hid (Or.inr hvalid)) hdeferred haccepts rfl ?_ ?_
  · intro index served hindex hserved
    exact ⟨served, hserved, serveChunk_stored hrow hheld hmem hindex hserved⟩
  · intro served hserved
    have hclosed : Act.call (closeDeferred host sharing id) served =
        (.done served none : Proc SyncMessage SyncError Served _) := by
      unfold Act.call closeDeferred
      rw [hserved]
    refine ⟨served, [], ?_⟩
    unfold receiveChecksum
    rw [if_neg hne, Peer.Lockstep.bind_done hclosed, hheld.digest]
    exact .refl _ _

theorem source_unchanged
    (hreference : (sharing.disk.files.references.find? fun row => row.itemId = id) = some reference)
    (hopened : sharing.opened reference.reference = .ok file)
    (hunchanged : Unchanged reference file bytes) :
    ∃ input, source sharing.disk sharing.opened id = .ok (some input) ∧ ReadTo bytes 0 input ∧
      input.stamp = (if file.regular then file.modified else none) ∧
      input.regular = file.regular ∧ input.later = file.later := by
  have hsame : ¬ ((file.regular = true ∧ (file.length ≠ reference.sizeBytes ∨
        (reference.modified.any fun stamp => file.modified ≠ some stamp) = true)) ∨
      ((!file.regular) = true ∧ (!startsWith "content://" reference.reference) = true)) := by
    rintro (⟨hkind, hchanged⟩ | ⟨hkind, hother⟩)
    · obtain ⟨hlength, hstamps, -⟩ := hunchanged.regular hkind
      rcases hchanged with hsize | hstamp
      · exact hsize (hlength.trans hunchanged.size.symm)
      · cases hmodified : reference.modified with
        | none => simp [hmodified] at hstamp
        | some stamp => simp [hmodified, hstamps stamp hmodified] at hstamp
    · obtain ⟨hstreamed, -⟩ := hunchanged.streamed (by simpa using hkind)
      simp [hstreamed] at hother
  unfold source
  rw [hreference]
  simp only [hopened, bind, Except.bind]
  rw [if_neg hsame]
  exact ⟨_, rfl, ⟨by simp, hunchanged.size, hunchanged.solid⟩, rfl, rfl, rfl⟩

theorem talks_deferred (hdigest : HexDigest host) {offer : FileTransfer}
    (hwrites : here.output.writes = []) (hid : checkIdField "item_id" id = .ok ())
    (hrow : sharedRow sharing id "The file is unavailable." = .ok row)
    (hoffer : offerOf host vault sharing.disk id = .ok offer)
    (hsize : offer.sizeBytes = bytes.length)
    (hreference : (sharing.disk.files.references.find? fun row => row.itemId = id) = some reference)
    (hopened : sharing.opened reference.reference = .ok file)
    (hunchanged : Unchanged reference file bytes) :
    ∃ served' ms ns, Talks (downloadFile libs id "" bytes.length here)
      (listen host vault libs sharing true true {}) ms ns
      (.done (received here bytes) (host.sha256 bytes)) (.done served' ()) := by
  obtain ⟨input, hsource, hreadTo, hstamp, hregular, hlater⟩ :=
    source_unchanged hreference hopened hunchanged
  have hdeferred : deferredFile sharing id = .ok (some input) := by
    unfold deferredFile
    simp only [hrow, bind, Except.bind, (sharedRow_ok hrow).2.1, hsource]
  have haccepts : admitRequest host vault sharing (some input) id "" bytes.length 0 = .ok () := by
    unfold admitRequest
    rw [fileSize_ok hrow hoffer (Or.inl rfl), hsize]
    simp [bind, Except.bind]
  refine talks_download (Midway bytes file) hwrites (request_valid hid (Or.inl rfl)) hdeferred haccepts
    ⟨⟨input, rfl, ?_, hstamp, hregular, hlater⟩, by simp⟩ ?_ ?_
  · rw [Nat.zero_mul]
    exact hreadTo
  · intro index served _ hserved
    exact serveChunk_deferred hrow hreference hserved
  · intro served hserved
    obtain ⟨last, hlast, hread, hstamp, hregular, hlater⟩ := hserved.input
    have hall : bytes.length ≤ chunkTotal bytes.length * chunkBytes := by
      have htake := congrArg List.length (take_chunks bytes)
      rw [List.length_take, Nat.zero_mul, List.drop_zero] at htake
      omega
    have hverify := verify_readTo hunchanged hread hall hstamp hregular hlater
    have hdigested : served.digested = bytes := by
      rw [hserved.digested]
      exact List.take_of_length_le hall
    have hclosed : Act.call (closeDeferred host sharing id) served =
        (.done { served with deferred := none } (some (host.sha256 bytes)) :
          Proc SyncMessage SyncError Served _) := by
      unfold Act.call closeDeferred
      rw [hlast]
      simp only [checkAccess_ok hrow hreference, hverify, hdigested]
    have hchecksum : validateMessage libs (.fileChecksum (host.sha256 bytes)) = .ok () := by
      unfold validateMessage
      simp [Wire.Codec.ensure, hdigest bytes]
    have hsent : sendChecksum libs (some (host.sha256 bytes)) =
        Act.send (.fileChecksum (host.sha256 bytes)) := send_valid hchecksum
    refine ⟨{ served with deferred := none }, [.fileChecksum (host.sha256 bytes)], ?_⟩
    unfold receiveChecksum
    rw [if_pos rfl, Peer.Lockstep.bind_done hclosed, hsent]
    exact talks_take hchecksum (.refl _ _)

/-- A download from a device that shares the file, over a reliable link to a destination that
takes every write: each run goes on until both sides are done, the one with the bytes and
their digest, and never stands with a side that waits for what will not come. -/
theorem download_reaches_end (hdigest : HexDigest host) (hid : checkIdField "item_id" id = .ok ())
    (hshares : Shares host vault sharing id hash bytes) :
    ∃ n served, ∀ k s, Link.Runs k
      { left := downloadFile libs id hash bytes.length ⟨⟨[], []⟩, [], none⟩
        right := listen host vault libs sharing true true {} } s →
      k ≤ n ∧ (Link.Stuck s → s.left = .done ⟨⟨bytes, []⟩, bytes, none⟩ (host.sha256 bytes) ∧
        s.right = .done served ()) := by
  have htalks : ∃ served ms ns, Talks (downloadFile libs id hash bytes.length ⟨⟨[], []⟩, [], none⟩)
      (listen host vault libs sharing true true {}) ms ns
      (.done ⟨⟨bytes, []⟩, bytes, none⟩ (host.sha256 bytes)) (.done served ()) := by
    cases hshares with
    | stored hash bytes row hrow hheld hmem hnone =>
      exact talks_stored rfl hid hrow hheld hmem hnone
    | deferred bytes row reference file offer hrow hoffer hsize hreference hopened hunchanged =>
      exact talks_deferred hdigest rfl hid hrow hoffer hsize hreference hopened hunchanged
  obtain ⟨served, ms, ns, htalk⟩ := htalks
  obtain ⟨n, hn⟩ := Link.of_talks htalk trivial trivial
  refine ⟨n, served, fun k s hs => ?_⟩
  obtain ⟨hk, -, -, -, -, -, hstuck⟩ := hn k s hs
  refine ⟨hk, fun hend => ?_⟩
  rw [hstuck hend]
  exact ⟨rfl, rfl⟩

/-- A save keeps its word exactly when what comes after the transfer succeeds, and a download
from a device that shares the file comes to its end with the bytes of the source. -/
theorem save_delivers_iff (hdigest : HexDigest host) (describe : SyncError → String) :
    (∀ disk save events, Published host vault disk →
      (Delivers host vault libs describe disk save events ↔
        Settles host vault libs describe disk save events)) ∧
    ∀ sharing id hash bytes, checkIdField "item_id" id = .ok () →
      Shares host vault sharing id hash bytes → ∃ n served, ∀ k s, Link.Runs k
        { left := downloadFile libs id hash bytes.length ⟨⟨[], []⟩, [], none⟩
          right := listen host vault libs sharing true true {} } s →
        k ≤ n ∧ (Link.Stuck s →
          s.left = .done ⟨⟨bytes, []⟩, bytes, none⟩ (host.sha256 bytes) ∧ s.right = .done served ()) :=
  ⟨fun _ _ _ hpublished => delivers_iff hpublished, fun _ _ _ _ hid hshares =>
    download_reaches_end hdigest hid hshares⟩

/-- The device that has one file, under the id of an explicit import. -/
def keptId : String := "file-import-1"

def keptSharing : Sharing where
  disk := Complete.sharedState.disk
  opened := fun _ => .error .sourceMissing
  enabled := true
  allows := fun _ => true
  describe := fun _ => "The file is unavailable."

theorem hexDigest_small : HexDigest Complete.smallHost := by
  intro bytes
  by_cases hempty : bytes = []
  · subst hempty
    decide
  · have hdigest : Complete.smallHost.sha256 bytes = Complete.sampleDigest [1] := by
      show Complete.sampleDigest bytes = _
      unfold Complete.sampleDigest
      rw [if_neg hempty]
      rfl
    rw [hdigest]
    decide

theorem shares_kept : Shares Complete.smallHost Complete.smallVault keptSharing keptId
    (Complete.sampleDigest [1]) (Complete.sharedState.imported keptId) := by
  have hreached : Lib.Guarded.Reaches (Complete.machine Complete.smallHost Complete.smallVault)
      (Complete.Clear Complete.smallHost Complete.smallVault) Complete.sharedState :=
    (Lib.Guarded.Reaches.start Complete.emptyState Complete.start_empty).of_run_getD
      Complete.sharedImports Complete.sharedImports_meets (by decide) Complete.emptyState
  have hsound := Complete.sound_of_reaches Complete.smallLaws hreached
  have hmem : (keptId, Complete.sampleDigest [1]) ∈ keptSharing.disk.files.bodies.owners := by
    decide
  obtain ⟨row, hrow⟩ : ∃ row, liveRow keptSharing.disk.store keptId = some row :=
    Option.isSome_iff_exists.1 (by decide)
  refine .stored _ _ row ?_ (hsound.bodies keptId _ hmem) hmem (by decide)
  unfold sharedRow
  rw [if_neg (by decide), hrow]
  rfl

def keptSave (recorded : Except FileTransferError Unit) : Save where
  closed := false
  active := none
  cancelledBeforeStart := none
  id := keptId
  token := none
  limit := 10
  syncEnabled := true
  paired := true
  place := ⟨none, none, [], none, true⟩
  opened := fun _ => .error .sourceMissing
  fails := fun _ => none
  cancelled := fun _ => false
  recorded := recorded

theorem keptSave_delivers :
    Delivers Complete.smallHost Complete.smallVault Wire.Codec.sampleLibraries (fun _ => "")
        Complete.sharedState.disk (keptSave (.ok ())) [] ∧
      ∃ n served, ∀ k s, Link.Runs k
        { left := downloadFile Wire.Codec.sampleLibraries keptId (Complete.sampleDigest [1])
            (Complete.sharedState.imported keptId).length ⟨⟨[], []⟩, [], none⟩
          right := listen Complete.smallHost Complete.smallVault Wire.Codec.sampleLibraries
            keptSharing true true {} } s →
        k ≤ n ∧ (Link.Stuck s →
          s.left = .done ⟨⟨Complete.sharedState.imported keptId, []⟩,
              Complete.sharedState.imported keptId, none⟩
            (Complete.smallHost.sha256 (Complete.sharedState.imported keptId)) ∧
          s.right = .done served ()) := by
  obtain ⟨hiff, hhonest⟩ := @save_delivers_iff Complete.smallHost Complete.smallVault
    Wire.Codec.sampleLibraries hexDigest_small (fun _ => "")
  refine ⟨(hiff _ _ _ ?_).2 ⟨fun _ _ _ => rfl, fun _ _ _ => rfl⟩,
    hhonest keptSharing keptId _ _ (by decide) shares_kept⟩
  have hnone : Complete.sharedState.disk.files.references = [] := by decide
  intro row hrow
  rw [hnone] at hrow
  cases hrow

/-- The store refuses the record of a file that is complete: the save fails and leaves it. -/
theorem refusedRecord_leaves_file :
    ¬ Delivers Complete.smallHost Complete.smallVault Wire.Codec.sampleLibraries (fun _ => "")
      Complete.sharedState.disk (keptSave (.error .storage)) [] := by
  intro h
  have hrun : saveInner Complete.smallHost Complete.smallVault Wire.Codec.sampleLibraries
      (fun _ => "") Complete.sharedState.disk (keptSave (.error .storage)) [] =
        some (.error .storage, some [1, 2, 3]) := by
    decide
  have hleft := (h _ _ hrun).2 (by simp)
  cases hleft

end CopyPaste.Files.Serving
