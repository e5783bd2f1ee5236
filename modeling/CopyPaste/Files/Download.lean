import CopyPaste.Files.Bodies
import CopyPaste.Lib.Duplex
import CopyPaste.Wire.Codec

/-!
The download of a file to a place the user chose: from the local file a reference names,
from the chunks this device keeps, or from the device that offered it. The destination is
created new, and taken away again unless it was finished. What the other device sends is
any list of events.
-/

namespace CopyPaste.Files.Download

open Lib.Duplex Lib.Rows Lib.Pieces Merge.Payload Merge.Storage Tables Reseal Bodies
open Wire.Messages (SyncMessage)
open Wire.Codec (Libraries ProtocolError protocolVersion fileChunkBytes validateMessage checked)

inductive SyncError
  | source (reason : String)
  | protocol (error : ProtocolError)
  | diagnostic (code : String)
  | cancelled
  deriving DecidableEq, Repr

/-- A file that was opened, with its metadata then and when they are read again. -/
structure OpenFile where
  reader : Reader
  regular : Bool
  length : Nat
  modified : Option String
  later : Option (Nat × Option String)

/-- `Source`: a file that a reference names, read chunk by chunk. -/
structure DeferredSource where
  file : Reader
  size : Nat
  stamp : Option String
  read : Nat
  regular : Bool
  later : Option (Nat × Option String)

/-- `file_reference::source`. -/
def source (disk : Disk) (opened : String → Except FileTransferError OpenFile) (id : String) :
    Except FileTransferError (Option DeferredSource) :=
  match disk.files.references.find? fun row => row.itemId = id with
  | none => .ok none
  | some row => do
    let file ← opened row.reference
    if (file.regular ∧ (file.length ≠ row.sizeBytes ∨
          row.modified.any fun stamp => file.modified ≠ some stamp)) ∨
        (!file.regular ∧ !startsWith "content://" row.reference) then throw .sourceChanged
    else
      return some {
        file := file.reader
        size := row.sizeBytes
        stamp := if file.regular then file.modified else none
        read := 0
        regular := file.regular
        later := file.later }

def readExact (room : Nat) (reader : Reader) : Except FileTransferError (List UInt8 × Reader) :=
  if room = 0 then .ok ([], reader)
  else do
    let (bytes, rest) ← fill room reader
    if bytes.length = room then return (bytes, rest) else throw .read

def DeferredSource.readChunk (source : DeferredSource) :
    Except SyncError (List UInt8 × DeferredSource) :=
  match readExact (min (source.size - source.read) chunkBytes) source.file with
  | .error _ => .error (.source "The source file could not be read.")
  | .ok (bytes, rest) =>
    .ok (bytes, { source with file := rest, read := source.read + bytes.length })

def DeferredSource.verify (source : DeferredSource) : Except SyncError Unit :=
  match source.later with
  | none => .error (.source "The source file is unavailable.")
  | some (length, modified) =>
    if source.read ≠ source.size ∨
        (source.regular ∧ (length ≠ source.size ∨ modified ≠ source.stamp)) then
      .error (.source "The source file changed during transfer. Add it again.")
    else if source.regular then .ok ()
    else
      match readOnce 1 source.file with
      | .error _ => .error (.source "The source file could not be verified.")
      | .ok (extra, _) =>
        if extra ≠ [] then .error (.source "The source file changed. Add it again.") else .ok ()

/-- The chosen place: the file that is there, and what its file system will answer to a
file created, to each write, to the flush and to the removal. -/
structure Place where
  held : Option (List UInt8)
  refuses : Option FileTransferError
  writes : List (Option (Nat × FileTransferError))
  flushes : Option FileTransferError
  removes : Bool

/-- `Destination`: the file that was created. -/
structure Destination where
  content : List UInt8
  writes : List (Option (Nat × FileTransferError))

def Place.create (place : Place) : Except FileTransferError Destination :=
  if place.held.isSome then .error .destinationExists
  else
    match place.refuses with
    | some error => .error error
    | none => .ok ⟨[], place.writes⟩

/-- A write that fails may have written a part. -/
def Destination.writeAll (output : Destination) (bytes : List UInt8) :
    Except FileTransferError Unit × Destination :=
  match output.writes with
  | [] => (.ok (), { output with content := output.content ++ bytes })
  | none :: rest => (.ok (), ⟨output.content ++ bytes, rest⟩)
  | some (part, error) :: rest => (.error error, ⟨output.content ++ bytes.take part, rest⟩)

/-- What a download has come to when the destination is left: none was created, one was
dropped, or one was finished and its digest is to be recorded. -/
inductive Written
  | notCreated (error : FileTransferError)
  | dropped (error : FileTransferError) (output : Destination)
  | finished (output : Destination) (checksum : String)

def Place.finish (place : Place) (output : Destination) (checksum : String) : Written :=
  match place.flushes with
  | some error => .dropped error output
  | none => .finished output checksum

/-- The file at the place in the end, with the answer of the store to the record. -/
def Place.settle (place : Place) (recorded : Except FileTransferError Unit) :
    Written → Except FileTransferError Unit × Option (List UInt8)
  | .notCreated error => (.error error, place.held)
  | .dropped error output => (.error error, if place.removes then none else some output.content)
  | .finished output _ => (recorded, some output.content)

/-- What `save_inner` meets, beside the database and the messages: the downloads of this
host, the request, the settings, the place, and what fails. -/
structure Save where
  closed : Bool
  active : Option String
  cancelledBeforeStart : Option String
  id : String
  token : Option String
  limit : Nat
  syncEnabled : Bool
  paired : Bool
  place : Place
  opened : String → Except FileTransferError OpenFile
  fails : Nat → Option FileTransferError
  cancelled : Nat → Bool
  recorded : Except FileTransferError Unit

def Save.begins (save : Save) : Except FileTransferError Unit :=
  let identity := save.token.getD save.id
  if save.closed then .error .cancelled
  else if 128 < identity.utf8ByteSize then .error .integrity
  else if save.active.isSome then .error .busy
  else if save.cancelledBeforeStart = some identity then .error .cancelled
  else .ok ()

/-- The loop over the blocks of a file, each written as it comes; `seen` is what was
hashed. -/
def copyBlocks {σ : Type} (cancelled : Nat → Bool)
    (next : Nat → σ → Except FileTransferError (List UInt8 × σ)) :
    Nat → Nat → σ → Destination → List UInt8 →
      Except FileTransferError (σ × List UInt8) × Destination
  | 0, _, here, output, seen => (.ok (here, seen), output)
  | left + 1, index, here, output, seen =>
    if cancelled index then (.error .cancelled, output)
    else
      match next index here with
      | .error error => (.error error, output)
      | .ok (bytes, here) =>
        match output.writeAll bytes with
        | (.error error, output) => (.error error, output)
        | (.ok (), output) => copyBlocks cancelled next left (index + 1) here output (seen ++ bytes)

/-- A side asks for one chunk at least. -/
def chunkTotal (size : Nat) : Nat := max 1 (count fileChunkBytes size)

variable (host : Host) (vault : Vault) (libs : Libraries)

def nextReferenced (_ : Nat) (file : DeferredSource) :
    Except FileTransferError (List UInt8 × DeferredSource) :=
  match file.readChunk with
  | .error _ => .error .read
  | .ok answer => .ok answer

/-- The file that a reference names is copied. -/
def saveReference (save : Save) (offer : FileTransfer) (file : DeferredSource) : Written :=
  match save.place.create with
  | .error error => .notCreated error
  | .ok output =>
    match copyBlocks save.cancelled nextReferenced (chunkTotal offer.sizeBytes) 0 file output [] with
    | (.error error, output) => .dropped error output
    | (.ok (file, seen), output) =>
      match file.verify with
      | .error _ => .dropped .read output
      | .ok () => save.place.finish output (host.sha256 seen)

def nextStored (disk : Disk) (save : Save) (hash : String) (index : Nat) (_ : Unit) :
    Except FileTransferError (List UInt8 × Unit) :=
  match save.fails index with
  | some error => .error error
  | none => do
    let bytes ← readChunk host vault disk save.id hash index
    return (bytes, ())

/-- `save_local_with_progress`. -/
def saveStored (disk : Disk) (save : Save) (offer : FileTransfer) : Written :=
  match offerOf host vault disk save.id with
  | .error error => .notCreated error
  | .ok descriptor =>
    if save.limit < descriptor.sizeBytes then .notCreated (.tooLarge descriptor.sizeBytes save.limit)
    else
      match save.place.create with
      | .error error => .notCreated error
      | .ok output =>
        match copyBlocks save.cancelled (nextStored host vault disk save descriptor.sha256)
            (count chunkBytes descriptor.sizeBytes) 0 () output [] with
        | (.error error, output) => .dropped error output
        | (.ok ((), seen), output) =>
          if host.sha256 seen ≠ descriptor.sha256 then .dropped .integrity output
          else if save.cancelled (count chunkBytes descriptor.sizeBytes) then
            .dropped .cancelled output
          else save.place.finish output offer.sha256

section Protocol

variable {S : Type}

def send (message : SyncMessage) : Act SyncMessage SyncError S Unit :=
  match validateMessage libs message with
  | .ok () => Act.send message
  | .error error => Act.fail (.protocol error)

def receive : Act SyncMessage SyncError S SyncMessage := do
  let message ← Act.recv
  match checked libs message with
  | .ok message => return message
  | .error error => Act.fail (.protocol error)

/-- The caller's side of a download: its destination, what it hashed, and why a block
could not be written. -/
structure Receiving where
  output : Destination
  seen : List UInt8
  writeError : Option FileTransferError

def receiveBlock (bytes : List UInt8) : Act SyncMessage SyncError Receiving Unit :=
  Act.call fun here =>
    match here.output.writeAll bytes with
    | (.error error, output) =>
      (.error (.source "The destination could not be written."),
        { here with output, writeError := some error })
    | (.ok (), output) => (.ok (), { here with output, seen := here.seen ++ bytes })

def receiveChunk (size index : Nat) : Act SyncMessage SyncError Receiving Unit := do
  match ← receive libs with
  | .fileChunk received bytes =>
    if received = index then
      if bytes.length ≠ min (size - index * fileChunkBytes) fileChunkBytes then
        Act.fail (.source "The file transfer is incomplete.")
      else receiveBlock bytes
    else Act.fail (.source "The source file is unavailable.")
  | .fileUnavailable reason => Act.fail (.source reason)
  | _ => Act.fail (.source "The source file is unavailable.")

def receiveChecksum (hash : String) : Act SyncMessage SyncError Receiving String :=
  if hash = "" then do
    match ← receive libs with
    | .fileChecksum sha256 => return sha256
    | .fileUnavailable reason => Act.fail (.source reason)
    | _ => Act.fail (.source "The source file could not be verified.")
  else pure hash

/-- `download_file` over its channel. -/
def downloadFile (id hash : String) (size : Nat) : Act SyncMessage SyncError Receiving String := do
  send libs (.fileRequest protocolVersion id hash size 0)
  (List.range (chunkTotal size)).forM (receiveChunk libs size)
  send libs .done
  receiveChecksum libs hash

end Protocol

/-- The file is asked from the device that offered it. -/
def saveRemote (describe : SyncError → String) (save : Save) (offer : FileTransfer)
    (events : List (Event SyncMessage SyncError)) : Option Written :=
  if !save.syncEnabled then
    some (.notCreated
      (.remote "Enable synchronization in Settings before downloading a file."))
  else if !save.paired then some (.notCreated .sourceNotPaired)
  else
    match save.place.create with
    | .error error => some (.notCreated error)
    | .ok output =>
      match (downloadFile libs save.id offer.sha256 offer.sizeBytes ⟨output, [], none⟩).endOf events with
      | none => none
      | some (.cancelled here) => some (.dropped .cancelled here.output)
      | some (.failed here error) =>
        some (.dropped (here.writeError.getD (.remote (describe error))) here.output)
      | some (.returned here expected) =>
        some (
          if here.seen.length ≠ offer.sizeBytes ∨ host.sha256 here.seen ≠ expected then
            .dropped .integrity here.output
          else if save.cancelled 0 then .dropped .cancelled here.output
          else save.place.finish here.output (host.sha256 here.seen))

/-- `save_inner` up to the record of the download; none while it waits. -/
def transfer (describe : SyncError → String) (disk : Disk) (save : Save)
    (events : List (Event SyncMessage SyncError)) : Option Written :=
  match save.begins with
  | .error error => some (.notCreated error)
  | .ok () =>
    match offerOf host vault disk save.id with
    | .error error => some (.notCreated error)
    | .ok offer =>
      if save.limit < offer.sizeBytes then some (.notCreated (.tooLarge offer.sizeBytes save.limit))
      else
        match source disk save.opened save.id with
        | .error error => some (.notCreated error)
        | .ok (some file) => some (saveReference host save offer file)
        | .ok none =>
          if hasFileTransfer disk save.id then some (saveStored host vault disk save offer)
          else saveRemote host libs describe save offer events

def saveInner (describe : SyncError → String) (disk : Disk) (save : Save)
    (events : List (Event SyncMessage SyncError)) :
    Option (Except FileTransferError Unit × Option (List UInt8)) :=
  (transfer host vault libs describe disk save events).map (save.place.settle save.recorded)

/-- The blocks as they are read, with nothing written. -/
def gather {σ : Type} (next : Nat → σ → Except FileTransferError (List UInt8 × σ)) :
    Nat → Nat → σ → Except FileTransferError (List UInt8 × σ)
  | 0, _, here => .ok ([], here)
  | left + 1, index, here => do
    let (bytes, here) ← next index here
    let (more, here) ← gather next left (index + 1) here
    return (bytes ++ more, here)

variable {output : Destination} {bytes : List UInt8} {left index : Nat} {file : DeferredSource}

theorem writeAll_ok {output' : Destination} (h : output.writeAll bytes = (.ok (), output')) :
    output'.content = output.content ++ bytes := by
  unfold Destination.writeAll at h
  split at h
  · rw [← (Prod.mk.inj h).2]
  · rw [← (Prod.mk.inj h).2]
  · cases (Prod.mk.inj h).1

theorem copyBlocks_ok {σ : Type} {cancelled : Nat → Bool}
    {next : Nat → σ → Except FileTransferError (List UInt8 × σ)} {here there : σ}
    {output' : Destination} {seen seen' : List UInt8}
    (h : copyBlocks cancelled next left index here output seen = (.ok (there, seen'), output')) :
    ∃ bytes, gather next left index here = .ok (bytes, there) ∧ seen' = seen ++ bytes ∧
      output'.content = output.content ++ bytes := by
  induction left generalizing index here output seen with
  | zero =>
    obtain ⟨hseen, rfl⟩ := Prod.mk.inj h
    obtain ⟨rfl, rfl⟩ := Prod.mk.inj (Except.ok.inj hseen)
    exact ⟨[], rfl, by simp, by simp⟩
  | succ left ih =>
    unfold copyBlocks at h
    split at h
    · cases (Prod.mk.inj h).1
    · split at h
      · cases (Prod.mk.inj h).1
      · rename_i bytes middle hnext
        split at h
        · cases (Prod.mk.inj h).1
        · rename_i written hwrite
          obtain ⟨more, hgather, hseen, hcontent⟩ := ih h
          refine ⟨bytes ++ more, ?_, by rw [hseen, List.append_assoc], ?_⟩
          · simp only [gather, hnext, hgather, bind, Except.bind]
            rfl
          · rw [hcontent, writeAll_ok hwrite, List.append_assoc]

theorem gather_referenced {last : DeferredSource}
    (h : gather nextReferenced left index file = .ok (bytes, last)) :
    last.read = file.read + bytes.length ∧ last.size = file.size := by
  induction left generalizing index file bytes with
  | zero =>
    obtain ⟨rfl, rfl⟩ := Prod.mk.inj (Except.ok.inj h)
    simp
  | succ left ih =>
    unfold gather at h
    cases hnext : nextReferenced index file with
    | error error => simp [hnext, bind, Except.bind] at h
    | ok answer =>
      obtain ⟨first, middle⟩ := answer
      cases hmore : gather nextReferenced left (index + 1) middle with
      | error error => simp [hnext, hmore, bind, Except.bind] at h
      | ok answer =>
        obtain ⟨more, end'⟩ := answer
        simp only [hnext, hmore, bind, Except.bind] at h
        obtain ⟨rfl, rfl⟩ := Prod.mk.inj (Except.ok.inj h)
        obtain ⟨hread, hsize⟩ := ih hmore
        have hmiddle : middle.read = file.read + first.length ∧ middle.size = file.size := by
          unfold nextReferenced DeferredSource.readChunk at hnext
          split at hnext
          · cases hnext
          · rename_i answer hchunk
            split at hchunk
            · cases hchunk
            · obtain rfl := Except.ok.inj hchunk
              obtain ⟨rfl, rfl⟩ := Prod.mk.inj (Except.ok.inj hnext)
              exact ⟨rfl, rfl⟩
        rw [List.length_append]
        exact ⟨by omega, by omega⟩

variable {host vault libs}

theorem length_readChunk {disk : Disk} {id hash : String} {offer : FileTransfer}
    (hoffer : offerOf host vault disk id = .ok offer)
    (h : readChunk host vault disk id hash index = .ok bytes) :
    bytes.length = min (offer.sizeBytes - index * chunkBytes) chunkBytes := by
  unfold readChunk at h
  simp only [hoffer, bind, Except.bind] at h
  split at h
  · cases h
  · split at h
    · rename_i hempty
      obtain rfl := Except.ok.inj h
      rw [hempty.1]
      simp
    · split at h
      · cases h
      · split at h
        · cases h
        · split at h
          · cases h
          · rename_i hlength
            obtain rfl := Except.ok.inj h
            exact not_not.1 hlength

theorem gather_stored {disk : Disk} {save : Save} {hash : String} {offer : FileTransfer}
    (hoffer : offerOf host vault disk save.id = .ok offer)
    (h : gather (nextStored host vault disk save hash) left index () = .ok (bytes, ())) :
    bytes.length = min (offer.sizeBytes - index * chunkBytes) (left * chunkBytes) := by
  induction left generalizing index bytes with
  | zero =>
    obtain ⟨rfl, -⟩ := Prod.mk.inj (Except.ok.inj h)
    simp
  | succ left ih =>
    unfold gather at h
    cases hnext : nextStored host vault disk save hash index () with
    | error error => simp [hnext, bind, Except.bind] at h
    | ok answer =>
      obtain ⟨first, middle⟩ := answer
      cases hmore : gather (nextStored host vault disk save hash) left (index + 1) middle with
      | error error => simp [hnext, hmore, bind, Except.bind] at h
      | ok answer =>
        obtain ⟨more, last⟩ := answer
        simp only [hnext, hmore, bind, Except.bind] at h
        obtain ⟨rfl, -⟩ := Prod.mk.inj (Except.ok.inj h)
        have hlater := ih hmore
        have hfirst : first.length =
            min (offer.sizeBytes - index * chunkBytes) chunkBytes := by
          unfold nextStored at hnext
          split at hnext
          · cases hnext
          · cases hread : readChunk host vault disk save.id hash index with
            | error error => simp [hread, bind, Except.bind] at hnext
            | ok chunk =>
              simp only [hread, bind, Except.bind] at hnext
              obtain ⟨rfl, -⟩ := Prod.mk.inj (Except.ok.inj hnext)
              exact length_readChunk hoffer hread
        rw [List.length_append, hfirst, hlater, Nat.add_mul, Nat.add_mul]
        omega

section Protocol

variable {α β : Type}

/-- What was written is what was hashed. -/
def Matched (here : Receiving) : Prop := here.output.content = here.seen

def Matching (act : Act SyncMessage SyncError Receiving α) : Prop :=
  ∀ here got, Matched here → (act here).EnsuresAfter (fun _ here _ => Matched here) got

theorem Matching.bind {act : Act SyncMessage SyncError Receiving α}
    {after : α → Act SyncMessage SyncError Receiving β} (h : Matching act)
    (hafter : ∀ value, Matching (after value)) : Matching (act >>= after) := by
  intro here got hmatched
  exact (h here got hmatched).bind fun got here value hhere => hafter value here got hhere

theorem matching_pure (value : α) : Matching (pure value) := fun _ _ hmatched => hmatched

theorem matching_fail (error : SyncError) :
    Matching (Act.fail error : Act SyncMessage SyncError Receiving α) := fun _ _ _ => trivial

theorem matching_send (message : SyncMessage) : Matching (send libs message) := by
  unfold send
  split
  · exact fun _ _ hmatched => hmatched
  · exact matching_fail _

theorem matching_receive : Matching (receive libs) := by
  refine Matching.bind (fun _ _ hmatched _ => hmatched) fun message => ?_
  split
  · exact matching_pure _
  · exact matching_fail _

theorem matching_receiveBlock (bytes : List UInt8) : Matching (receiveBlock bytes) := by
  intro here got hmatched
  unfold receiveBlock Act.call
  cases hwrite : here.output.writeAll bytes with
  | mk result output =>
    simp only [hwrite]
    cases result with
    | error error => trivial
    | ok done =>
      show output.content = here.seen ++ bytes
      rw [writeAll_ok hwrite, hmatched]

theorem matching_receiveChunk (size index : Nat) : Matching (receiveChunk libs size index) := by
  refine matching_receive.bind fun message => ?_
  cases message with
  | fileChunk received bytes =>
    show Matching (if received = index then _ else _)
    split
    · split
      · exact matching_fail _
      · exact matching_receiveBlock bytes
    · exact matching_fail _
  | _ => exact matching_fail _

theorem matching_forM {ι : Type} {act : ι → Act SyncMessage SyncError Receiving Unit}
    (h : ∀ entry, Matching (act entry)) (entries : List ι) : Matching (entries.forM act) := by
  induction entries with
  | nil => exact matching_pure _
  | cons entry rest ih => exact (h entry).bind fun _ => ih

/-- A message that passes its checks was sent with the stamps it came with, or other ones. -/
theorem eq_of_checked {message : SyncMessage} {sha256 : String}
    (h : checked libs message = .ok (.fileChecksum sha256)) :
    message = .fileChecksum sha256 := by
  unfold checked at h
  cases hvalid : validateMessage libs (Wire.Codec.clampTimestamps message) with
  | error error => simp [hvalid, bind, Except.bind] at h
  | ok done =>
    simp only [hvalid, bind, Except.bind] at h
    have hclamped := Except.ok.inj h
    cases message with
    | fileChecksum other => exact hclamped
    | _ => cases hclamped

theorem receiveChecksum_ensures {hash : String} {here : Receiving} (got : List SyncMessage)
    (hmatched : Matched here) :
    (receiveChecksum libs hash here).EnsuresAfter (fun got here checksum => Matched here ∧
      (checksum = hash ∨ hash = "" ∧ SyncMessage.fileChecksum checksum ∈ got)) got := by
  unfold receiveChecksum
  by_cases hhash : hash = ""
  · rw [if_pos hhash]
    intro message
    show ((match checked libs message with
      | .ok message => pure message
      | .error error => Act.fail (.protocol error) : Act SyncMessage SyncError Receiving SyncMessage)
        here |>.bind _).EnsuresAfter _ _
    cases hchecked : checked libs message with
    | error error => trivial
    | ok taken =>
      cases taken with
      | fileChecksum sha256 =>
        refine ⟨hmatched, Or.inr ⟨hhash, ?_⟩⟩
        rw [eq_of_checked hchecked]
        simp
      | _ => trivial
  · rw [if_neg hhash]
    exact ⟨hmatched, Or.inl rfl⟩

theorem downloadFile_ensures {id hash : String} {size : Nat} {here : Receiving}
    (hmatched : Matched here) :
    (downloadFile libs id hash size here).EnsuresAfter (fun got here checksum => Matched here ∧
      (checksum = hash ∨ hash = "" ∧ SyncMessage.fileChecksum checksum ∈ got)) [] := by
  unfold downloadFile
  refine Proc.EnsuresAfter.bind (matching_send _ here [] hmatched) ?_
  intro got here _ hmatched
  refine Proc.EnsuresAfter.bind
    (matching_forM (matching_receiveChunk size) (List.range (chunkTotal size)) here got hmatched) ?_
  intro got here _ hmatched
  refine Proc.EnsuresAfter.bind (matching_send _ here got hmatched) ?_
  intro got here _ hmatched
  exact receiveChecksum_ensures got hmatched

end Protocol

/-- A reference is kept for the offer it was published with. -/
def Published (host : Host) (vault : Vault) (disk : Disk) : Prop :=
  ∀ row ∈ disk.files.references, ∀ offer, offerOf host vault disk row.itemId = .ok offer →
    offer.sha256 = "" ∧ row.sizeBytes = offer.sizeBytes

/-- The file has these bytes, and they were all of it when they had been read. -/
def DeferredSource.Verified (file : DeferredSource) (bytes : List UInt8) : Prop :=
  ∃ left last, gather nextReferenced left 0 file = .ok (bytes, last) ∧ last.verify = .ok ()

/-- The bytes are what was offered: of its size, and of its digest or, where it has none, of
the digest the other side sent or as the local file was verified. -/
structure Offered (host : Host) (vault : Vault) (disk : Disk) (save : Save)
    (events : List (Event SyncMessage SyncError)) (bytes : List UInt8) : Prop where
  offer : ∃ offer, offerOf host vault disk save.id = .ok offer ∧ bytes.length = offer.sizeBytes ∧
    (host.sha256 bytes = offer.sha256 ∨ offer.sha256 = "" ∧
      (Event.message (.fileChecksum (host.sha256 bytes)) ∈ events ∨
        ∃ file, source disk save.opened save.id = .ok (some file) ∧ file.Verified bytes))

/-- A save gives the bytes that were offered, in a file of its own, or leaves the place as it
was. -/
def Delivers (host : Host) (vault : Vault) (libs : Libraries) (describe : SyncError → String)
    (disk : Disk) (save : Save) (events : List (Event SyncMessage SyncError)) : Prop :=
  ∀ result held, saveInner host vault libs describe disk save events = some (result, held) →
    (result = .ok () → save.place.held = none ∧
      ∃ bytes, held = some bytes ∧ Offered host vault disk save events bytes) ∧
    (result ≠ .ok () → held = save.place.held)

/-- The store takes the record of a file that was finished, and a file that was dropped can
be removed. -/
def Settles (host : Host) (vault : Vault) (libs : Libraries) (describe : SyncError → String)
    (disk : Disk) (save : Save) (events : List (Event SyncMessage SyncError)) : Prop :=
  (∀ output checksum,
    transfer host vault libs describe disk save events = some (.finished output checksum) →
      save.recorded = .ok ()) ∧
  ∀ error output,
    transfer host vault libs describe disk save events = some (.dropped error output) →
      save.place.removes = true

theorem create_ok {place : Place} (h : place.create = .ok output) :
    place.held = none ∧ output.content = [] := by
  unfold Place.create at h
  split at h
  · cases h
  · rename_i hfree
    split at h
    · cases h
    · rw [← Except.ok.inj h]
      exact ⟨by simpa using hfree, rfl⟩

/-- What a stage before the record leaves, when it created a file: none was there, and what
is finished was offered. -/
structure Sound (place : Place) (offered : List UInt8 → Prop) (written : Written) : Prop where
  dropped : ∀ error output, written = .dropped error output → place.held = none
  finished : ∀ output checksum, written = .finished output checksum →
    place.held = none ∧ offered output.content

variable {place : Place} {offered : List UInt8 → Prop}

theorem sound_notCreated (error : FileTransferError) : Sound place offered (.notCreated error) :=
  ⟨fun _ _ h => (by cases h), fun _ _ h => (by cases h)⟩

theorem sound_dropped (hfree : place.held = none) (error : FileTransferError)
    (output : Destination) : Sound place offered (.dropped error output) :=
  ⟨fun _ _ _ => hfree, fun _ _ h => (by cases h)⟩

theorem sound_finish (hfree : place.held = none) (hoffered : offered output.content)
    (checksum : String) : Sound place offered (place.finish output checksum) := by
  unfold Place.finish
  split
  · exact sound_dropped hfree _ _
  · refine ⟨fun _ _ h => (by cases h), ?_⟩
    intro output' checksum' h
    obtain ⟨rfl, -⟩ := Written.finished.inj h
    exact ⟨hfree, hoffered⟩

variable {describe : SyncError → String} {disk : Disk} {save : Save}
  {events : List (Event SyncMessage SyncError)} {offer : FileTransfer}

theorem source_ok {opened : String → Except FileTransferError OpenFile} {id : String}
    (h : source disk opened id = .ok (some file)) :
    ∃ row ∈ disk.files.references, row.itemId = id ∧ file.size = row.sizeBytes ∧ file.read = 0 := by
  unfold source at h
  split at h
  · cases h
  · rename_i row hrow
    refine ⟨row, List.mem_of_find?_eq_some hrow, by simpa using List.find?_some hrow, ?_⟩
    cases hopen : opened row.reference with
    | error error => simp [hopen, bind, Except.bind] at h
    | ok found =>
      simp only [hopen, bind, Except.bind] at h
      split at h
      · cases h
      · rw [← Option.some.inj (Except.ok.inj h)]
        exact ⟨rfl, rfl⟩

theorem read_of_verify (h : file.verify = .ok ()) : file.read = file.size := by
  unfold DeferredSource.verify at h
  split at h
  · cases h
  · split at h
    · cases h
    · rename_i hkept
      rw [not_or, not_not] at hkept
      exact hkept.1

theorem sound_saveReference (hpublished : Published host vault disk)
    (hoffer : offerOf host vault disk save.id = .ok offer)
    (hsource : source disk save.opened save.id = .ok (some file)) :
    Sound save.place (Offered host vault disk save events)
      (saveReference host save offer file) := by
  unfold saveReference
  obtain ⟨rounds, hrounds⟩ : ∃ rounds, chunkTotal offer.sizeBytes = rounds := ⟨_, rfl⟩
  rw [hrounds]
  cases hcreate : save.place.create with
  | error error => exact sound_notCreated error
  | ok output =>
    obtain ⟨hfree, hempty⟩ := create_ok hcreate
    simp only
    cases hcopy : copyBlocks save.cancelled nextReferenced rounds 0 file output [] with
    | mk result output' =>
      cases result with
      | error error => exact sound_dropped hfree _ _
      | ok answer =>
        obtain ⟨last, seen⟩ := answer
        simp only
        cases hverify : last.verify with
        | error error => exact sound_dropped hfree _ _
        | ok done =>
          obtain ⟨bytes, hgather, rfl, hcontent⟩ := copyBlocks_ok hcopy
          rw [hempty, List.nil_append] at hcontent
          have hread := gather_referenced hgather
          have hall := read_of_verify hverify
          obtain ⟨row, hrow, hid, hsize, hstart⟩ := source_ok hsource
          obtain ⟨hnone, hrowSize⟩ := hpublished row hrow offer (hid ▸ hoffer)
          refine sound_finish hfree ⟨offer, hoffer, ?_, Or.inr ⟨hnone, Or.inr ⟨file, hsource, ?_⟩⟩⟩ _
          · rw [hcontent]
            omega
          · rw [hcontent]
            exact ⟨_, last, hgather, hverify⟩

theorem sound_saveStored (hoffer : offerOf host vault disk save.id = .ok offer) :
    Sound save.place (Offered host vault disk save events)
      (saveStored host vault disk save offer) := by
  unfold saveStored
  simp only [hoffer]
  have hwidth : 0 < chunkBytes := by decide
  have hcount := (lt_count_iff hwidth offer.sizeBytes (count chunkBytes offer.sizeBytes)).not.1
    (Nat.lt_irrefl _)
  obtain ⟨rounds, hrounds⟩ : ∃ rounds, count chunkBytes offer.sizeBytes = rounds := ⟨_, rfl⟩
  rw [hrounds] at hcount ⊢
  split
  · exact sound_notCreated _
  · cases hcreate : save.place.create with
    | error error => exact sound_notCreated error
    | ok output =>
      obtain ⟨hfree, hempty⟩ := create_ok hcreate
      simp only
      cases hcopy : copyBlocks save.cancelled (nextStored host vault disk save offer.sha256)
          rounds 0 () output [] with
      | mk result output' =>
        cases result with
        | error error => exact sound_dropped hfree _ _
        | ok answer =>
          obtain ⟨last, seen⟩ := answer
          obtain ⟨bytes, hgather, rfl, hcontent⟩ := copyBlocks_ok hcopy
          rw [hempty, List.nil_append] at hcontent
          have hlength := gather_stored hoffer hgather
          simp only
          split
          · exact sound_dropped hfree _ _
          · rename_i hdigest
            split
            · exact sound_dropped hfree _ _
            · refine sound_finish hfree ⟨offer, hoffer, ?_, Or.inl ?_⟩ _
              · rw [hcontent]
                omega
              · rw [hcontent]
                exact not_not.1 hdigest

theorem sound_saveRemote (hoffer : offerOf host vault disk save.id = .ok offer) {written : Written}
    (h : saveRemote host libs describe save offer events = some written) :
    Sound save.place (Offered host vault disk save events) written := by
  unfold saveRemote at h
  split at h
  · exact Option.some.inj h ▸ sound_notCreated _
  · split at h
    · exact Option.some.inj h ▸ sound_notCreated _
    · split at h
      · exact Option.some.inj h ▸ sound_notCreated _
      · rename_i output hcreate
        obtain ⟨hfree, hempty⟩ := create_ok hcreate
        split at h
        · cases h
        · exact Option.some.inj h ▸ sound_dropped hfree _ _
        · exact Option.some.inj h ▸ sound_dropped hfree _ _
        · rename_i here expected hend
          obtain ⟨came, hcame, hmatched, hchecksum⟩ :=
            (downloadFile_ensures (show Matched ⟨output, [], none⟩ from hempty)).of_endOf hend
          obtain rfl := Option.some.inj h
          split
          · exact sound_dropped hfree _ _
          · rename_i hkept
            rw [not_or, not_not, not_not] at hkept
            split
            · exact sound_dropped hfree _ _
            · unfold Matched at hmatched
              refine sound_finish hfree ⟨offer, hoffer, ?_, ?_⟩ _
              · rw [hmatched]
                exact hkept.1
              · rw [hmatched, hkept.2]
                rcases hchecksum with hsame | ⟨hnone, hsent⟩
                · exact Or.inl hsame
                · exact Or.inr ⟨hnone, Or.inl (hcame _ (by simpa using hsent))⟩

theorem sound_transfer (hpublished : Published host vault disk) {written : Written}
    (h : transfer host vault libs describe disk save events = some written) :
    Sound save.place (Offered host vault disk save events) written := by
  unfold transfer at h
  split at h
  · exact Option.some.inj h ▸ sound_notCreated _
  · split at h
    · exact Option.some.inj h ▸ sound_notCreated _
    · rename_i offer hoffer
      split at h
      · exact Option.some.inj h ▸ sound_notCreated _
      · split at h
        · exact Option.some.inj h ▸ sound_notCreated _
        · rename_i file hsource
          exact Option.some.inj h ▸ sound_saveReference hpublished hoffer hsource
        · split at h
          · exact Option.some.inj h ▸ sound_saveStored hoffer
          · exact sound_saveRemote hoffer h

/-- A save keeps its word exactly when what comes after the transfer succeeds. -/
theorem delivers_iff (hpublished : Published host vault disk) :
    Delivers host vault libs describe disk save events ↔
      Settles host vault libs describe disk save events := by
  unfold Delivers Settles saveInner
  cases htransfer : transfer host vault libs describe disk save events with
  | none => simp
  | some written =>
    have hsound := sound_transfer hpublished htransfer
    simp only [Option.map_some, Option.some.injEq]
    cases written with
    | notCreated error => simp [Place.settle]
    | dropped error output =>
      have hfree := hsound.dropped error output rfl
      constructor
      · intro h
        have hleft := (h _ _ rfl).2 (by simp)
        refine ⟨fun _ _ heq => (by cases heq), fun _ _ _ => ?_⟩
        by_contra hkept
        rw [hfree, if_neg hkept] at hleft
        cases hleft
      · rintro ⟨-, hremoves⟩ result held heq
        obtain ⟨rfl, rfl⟩ := Prod.mk.inj heq
        rw [if_pos (hremoves error output rfl), hfree]
        exact ⟨fun hok => (by cases hok), fun _ => rfl⟩
    | finished output checksum =>
      obtain ⟨hfree, hoffered⟩ := hsound.finished output checksum rfl
      constructor
      · intro h
        refine ⟨fun _ _ _ => ?_, fun _ _ heq => (by cases heq)⟩
        by_contra hrefused
        have hleft := (h _ _ rfl).2 hrefused
        rw [hfree] at hleft
        cases hleft
      · rintro ⟨hrecorded, -⟩ result held heq
        obtain ⟨rfl, rfl⟩ := Prod.mk.inj heq
        refine ⟨fun _ => ⟨hfree, _, rfl, hoffered⟩, fun hrefused => ?_⟩
        exact absurd (hrecorded output checksum rfl) hrefused

end CopyPaste.Files.Download
