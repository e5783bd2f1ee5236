import CopyPaste.Lib.Frames
import CopyPaste.Peers.Group

/-!
The encrypted channel of a session. A message is cut into records of one marker
byte and a bounded payload, each sealed under its position and framed; the reader
opens record after record into a buffer until a final one.
-/

namespace CopyPaste.Transport.Records

open Lib.Frames

def noiseTagLen : ℕ := 16

def maxNoiseMessage : ℕ := 65535

def maxNoisePlaintext : ℕ := maxNoiseMessage - noiseTagLen

def recordHeaderLen : ℕ := 1

def maxRecordPayload : ℕ := maxNoisePlaintext - recordHeaderLen

def recordMore : UInt8 := 0x01

def recordFinal : UInt8 := 0x02

def maxMessageBytes : ℕ := 32 * 1024 * 1024

inductive TransportError
  | malformed
  | tooLarge
  | io
  deriving DecidableEq, Repr

/-- One direction of the cipher: a record opens at the position it was sealed for,
and nothing else does. -/
structure Aead where
  sealAt : ℕ → List UInt8 → List UInt8
  openAt : ℕ → List UInt8 → Option (List UInt8)
  opens : ∀ position plain sealed,
    openAt position sealed = some plain ↔ sealed = sealAt position plain
  tagged : ∀ position plain, (sealAt position plain).length = plain.length + noiseTagLen

/-- What a session is restricted to, how many records one direction has carried, and
whether it has failed. -/
structure Session where
  membershipOnly : Bool := false
  pairingOnly : Bool := false
  position : ℕ := 0
  poisoned : Bool := false
  deriving DecidableEq, Repr

def Session.messageLimit (session : Session) : ℕ :=
  if session.membershipOnly then Peers.Group.maxGroupBytes + 256
  else if session.pairingOnly then 8192
  else maxMessageBytes

/-- Take the bytes of one record from the part being written and the parts after it. -/
def fill (need : ℕ) (pending : List UInt8) :
    List (List UInt8) → Option (List UInt8 × List UInt8 × List (List UInt8))
  | [] => if need ≤ pending.length then some (pending.take need, pending.drop need, []) else none
  | part :: parts =>
    if need ≤ pending.length then some (pending.take need, pending.drop need, part :: parts)
    else
      (fill (need - pending.length) part parts).map fun (now, pending', parts') =>
        (pending ++ now, pending', parts')

/-- The records of the bytes left: an empty message still has one. -/
def recordsOf (left : ℕ) (pending : List UInt8) (parts : List (List UInt8)) :
    Option (List (List UInt8)) :=
  let take := min left maxRecordPayload
  match fill take pending parts with
  | none => none
  | some (body, pending, parts) =>
    if left - take = 0 then some [recordFinal :: body]
    else (recordsOf (left - take) pending parts).map ((recordMore :: body) :: ·)
termination_by left
decreasing_by
  unfold maxRecordPayload maxNoisePlaintext maxNoiseMessage noiseTagLen recordHeaderLen at *
  omega

def sealRecords (aead : Aead) (position : ℕ) : List (List UInt8) → List UInt8
  | [] => []
  | record :: rest => frame (aead.sealAt position record) ++ sealRecords aead (position + 1) rest

def writeParts (aead : Aead) (session : Session) (parts : List (List UInt8)) :
    Except TransportError (Session × List UInt8) :=
  let left := (parts.map List.length).sum
  if session.messageLimit < left then .error .tooLarge
  else
    match recordsOf left [] parts with
    | none => .error .tooLarge
    | some records =>
      .ok ({ session with position := session.position + records.length },
        sealRecords aead session.position records)

def sendParts (aead : Aead) (session : Session) (parts : List (List UInt8)) :
    Except TransportError (Session × List UInt8) :=
  if session.poisoned then .error .malformed else writeParts aead session parts

/-- The buffer a message is reassembled into, which never holds more than it has
room for. -/
structure Reassembly where
  bytes : List UInt8 := []
  capacity : ℕ := maxNoisePlaintext
  fits : bytes.length ≤ capacity := by simp

/-- A larger buffer with the same bytes. -/
def Reassembly.growTo (message : Reassembly) (capacity : ℕ) : Reassembly where
  bytes := message.bytes
  capacity := max message.bytes.length capacity
  fits := le_max_left _ _

def Reassembly.push (message : Reassembly) (body : List UInt8) :
    Except TransportError Reassembly :=
  let wanted := message.bytes.length + body.length
  if maxMessageBytes < wanted then .error .tooLarge
  else
    let grown :=
      if message.capacity < wanted then
        message.growTo (max wanted (min (message.capacity * 2) maxMessageBytes))
      else message
    .ok {
      bytes := grown.bytes ++ body
      capacity := max grown.capacity (grown.bytes.length + body.length)
      fits := by rw [List.length_append]; exact le_max_right _ _ }

def Reassembly.reserveTotal (message : Reassembly) (total : ℕ) : Reassembly :=
  if message.capacity < total then message.growTo (min total maxMessageBytes) else message

/-- The receiving end: the session and the bytes still on the wire. -/
structure Receiver where
  session : Session
  stream : List UInt8

def Receiver.poison (receiver : Receiver) : Receiver :=
  { receiver with session := { receiver.session with poisoned := true } }

def receiveRecords (aead : Aead) (announced : List UInt8 → Option ℕ) (receiver : Receiver)
    (message : Reassembly) (started : Bool) :
    Except TransportError (Option (List UInt8)) × Receiver :=
  match _h : nextFrame maxNoiseMessage receiver.stream with
  | .closed => if started then (.error .malformed, receiver.poison) else (.ok none, receiver)
  | .broken => (.error .io, receiver.poison)
  | .frame sealed rest =>
    if sealed.length < recordHeaderLen + noiseTagLen ∨ maxNoiseMessage < sealed.length then
      (.error .malformed, receiver.poison)
    else
      match aead.openAt receiver.session.position sealed with
      | none => (.error .malformed, receiver.poison)
      | some [] => (.error .malformed, receiver.poison)
      | some (marker :: body) =>
        if receiver.session.messageLimit < message.bytes.length + body.length then
          (.error .tooLarge, receiver.poison)
        else
          let message :=
            if !started ∧ marker = recordMore then
              match announced body with
              | some total => message.reserveTotal (min total receiver.session.messageLimit)
              | none => message
            else message
          let receiver : Receiver :=
            ⟨{ receiver.session with position := receiver.session.position + 1 }, rest⟩
          match message.push body with
          | .error error => (.error error, receiver.poison)
          | .ok message =>
            if marker = recordMore then receiveRecords aead announced receiver message true
            else if marker = recordFinal then (.ok (some message.bytes), receiver)
            else (.error .malformed, receiver.poison)
termination_by receiver.stream.length
decreasing_by exact length_rest_lt _h

/-- Receive one message. -/
def recvBytesSized (aead : Aead) (announced : List UInt8 → Option ℕ) (receiver : Receiver) :
    Except TransportError (Option (List UInt8)) × Receiver :=
  if receiver.session.poisoned then (.error .malformed, receiver)
  else receiveRecords aead announced receiver {} false

theorem maxRecordPayload_pos : 0 < maxRecordPayload := by decide

theorem messageLimit_le (session : Session) : session.messageLimit ≤ maxMessageBytes := by
  unfold Session.messageLimit Peers.Group.maxGroupBytes maxMessageBytes
  split
  · omega
  · split <;> omega

/-- The records of a message. -/
def cut (bytes : List UInt8) : List (List UInt8) :=
  if bytes.length ≤ maxRecordPayload then [recordFinal :: bytes]
  else (recordMore :: bytes.take maxRecordPayload) :: cut (bytes.drop maxRecordPayload)
termination_by bytes.length
decreasing_by
  have hpos := maxRecordPayload_pos
  rw [List.length_drop]
  omega

theorem cut_short {bytes : List UInt8} (h : bytes.length ≤ maxRecordPayload) :
    cut bytes = [recordFinal :: bytes] := by
  rw [cut, if_pos h]

theorem cut_long {bytes : List UInt8} (h : maxRecordPayload < bytes.length) :
    cut bytes = (recordMore :: bytes.take maxRecordPayload) :: cut (bytes.drop maxRecordPayload) := by
  rw [cut, if_neg (not_le.2 h)]

/-- Filling a record takes the next bytes, from however many parts. -/
theorem exists_fill {need : ℕ} {pending : List UInt8} {parts : List (List UInt8)}
    (h : need ≤ (pending ++ parts.flatten).length) :
    ∃ pending' parts', fill need pending parts =
        some ((pending ++ parts.flatten).take need, pending', parts') ∧
      pending' ++ parts'.flatten = (pending ++ parts.flatten).drop need := by
  induction parts generalizing need pending with
  | nil =>
    rw [List.flatten_nil, List.append_nil] at h ⊢
    refine ⟨pending.drop need, [], ?_, by simp⟩
    rw [fill, if_pos h]
  | cons part parts ih =>
    rw [List.flatten_cons] at h ⊢
    unfold fill
    by_cases hshort : need ≤ pending.length
    · refine ⟨pending.drop need, part :: parts, ?_, ?_⟩
      · rw [if_pos hshort, List.take_append_of_le_length hshort]
      · rw [List.flatten_cons, List.drop_append_of_le_length hshort]
    · have hrest : need - pending.length ≤ (part ++ parts.flatten).length := by
        rw [List.length_append] at h
        omega
      obtain ⟨pending', parts', hfill, hdrop⟩ := ih hrest
      have htake : (pending ++ (part ++ parts.flatten)).take need =
          pending ++ (part ++ parts.flatten).take (need - pending.length) := by
        rw [List.take_append, List.take_of_length_le (by omega)]
      have hleft : (pending ++ (part ++ parts.flatten)).drop need =
          (part ++ parts.flatten).drop (need - pending.length) := by
        rw [List.drop_append, List.drop_eq_nil_of_le (by omega), List.nil_append]
      refine ⟨pending', parts', ?_, ?_⟩
      · rw [if_neg hshort, hfill, Option.map_some, htake]
      · rw [hdrop, hleft]

/-- The records of a message depend on its bytes alone. -/
theorem recordsOf_eq {left : ℕ} {pending : List UInt8} {parts : List (List UInt8)}
    (h : (pending ++ parts.flatten).length = left) :
    recordsOf left pending parts = some (cut (pending ++ parts.flatten)) := by
  induction left using Nat.strong_induction_on generalizing pending parts with
  | _ left ih =>
    obtain ⟨pending', parts', hfill, hdrop⟩ :=
      @exists_fill (min left maxRecordPayload) pending parts (by omega)
    have hpos := maxRecordPayload_pos
    rw [recordsOf]
    simp only [hfill]
    rcases le_or_gt left maxRecordPayload with hshort | hlong
    · rw [if_pos (by omega), cut_short (by omega), List.take_of_length_le (by omega)]
    · have hlength : (pending' ++ parts'.flatten).length = left - min left maxRecordPayload := by
        rw [hdrop, List.length_drop, h]
      rw [if_neg (by omega), ih _ (by omega) hlength, hdrop,
        @cut_long (pending ++ parts.flatten) (by omega)]
      rw [min_eq_right hlong.le, Option.map_some]

theorem writeParts_eq (aead : Aead) {session : Session} {parts : List (List UInt8)}
    (h : parts.flatten.length ≤ session.messageLimit) :
    writeParts aead session parts =
      .ok ({ session with position := session.position + (cut parts.flatten).length },
        sealRecords aead session.position (cut parts.flatten)) := by
  have hsum : (parts.map List.length).sum = parts.flatten.length := List.length_flatten.symm
  have hrecords := @recordsOf_eq parts.flatten.length [] parts (by simp)
  rw [List.nil_append] at hrecords
  unfold writeParts
  dsimp only
  rw [hsum, if_neg (not_lt.2 h), hrecords]

theorem push_ok {message : Reassembly} {body : List UInt8}
    (h : message.bytes.length + body.length ≤ maxMessageBytes) :
    ∃ after, message.push body = .ok after ∧ after.bytes = message.bytes ++ body := by
  unfold Reassembly.push
  dsimp only
  rw [if_neg (not_lt.2 h)]
  refine ⟨_, rfl, ?_⟩
  dsimp only
  split <;> rfl

theorem bytes_reserveTotal (message : Reassembly) (total : ℕ) :
    (message.reserveTotal total).bytes = message.bytes := by
  unfold Reassembly.reserveTotal
  split <;> rfl

def Session.advance (session : Session) (records : ℕ) : Session :=
  { session with position := session.position + records }

@[simp]
theorem messageLimit_advance (session : Session) (records : ℕ) :
    (session.advance records).messageLimit = session.messageLimit := rfl

theorem advance_advance (session : Session) (first second : ℕ) :
    (session.advance first).advance second = session.advance (first + second) := by
  simp [Session.advance, Nat.add_assoc]

section

variable (aead : Aead) (announced : List UInt8 → Option ℕ) (session : Session)
  (message : Reassembly) (started : Bool)

theorem receive_record {marker : UInt8} {body : List UInt8}
    (hmarker : marker = recordMore ∨ marker = recordFinal)
    (hbody : body.length ≤ maxRecordPayload)
    (hroom : message.bytes.length + body.length ≤ session.messageLimit) (rest : List UInt8) :
    ∃ after : Reassembly, after.bytes = message.bytes ++ body ∧
      receiveRecords aead announced
          ⟨session, frame (aead.sealAt session.position (marker :: body)) ++ rest⟩ message started =
        if marker = recordMore then
          receiveRecords aead announced ⟨session.advance 1, rest⟩ after true
        else (.ok (some after.bytes), ⟨session.advance 1, rest⟩) := by
  have hlength := aead.tagged session.position (marker :: body)
  rw [List.length_cons] at hlength
  have hsealed : (aead.sealAt session.position (marker :: body)).length ≤ maxNoiseMessage := by
    unfold maxRecordPayload maxNoisePlaintext maxNoiseMessage noiseTagLen recordHeaderLen at *
    omega
  have hframe := nextFrame_frame hsealed (by decide) rest
  have hopen : aead.openAt session.position (aead.sealAt session.position (marker :: body)) =
      some (marker :: body) := (aead.opens _ _ _).2 rfl
  have hlarge : ¬ ((aead.sealAt session.position (marker :: body)).length <
        recordHeaderLen + noiseTagLen ∨
      maxNoiseMessage < (aead.sealAt session.position (marker :: body)).length) := by
    unfold recordHeaderLen
    omega
  let ready : Reassembly :=
    if !started ∧ marker = recordMore then
      match announced body with
      | some total => message.reserveTotal (min total session.messageLimit)
      | none => message
    else message
  have hready : ready.bytes = message.bytes := by
    dsimp only [ready]
    split
    · split
      · exact bytes_reserveTotal _ _
      · rfl
    · rfl
  have hlimit := messageLimit_le session
  obtain ⟨after, hpush, hbytes⟩ := @push_ok ready body (by rw [hready]; omega)
  refine ⟨after, by rw [hbytes, hready], ?_⟩
  rw [receiveRecords]
  split
  · rename_i hread
    rw [hframe] at hread
    cases hread
  · rename_i hread
    rw [hframe] at hread
    cases hread
  · rename_i sealed left hread
    rw [hframe] at hread
    cases hread
    rw [if_neg hlarge]
    simp only [hopen]
    rw [if_neg (not_lt.2 hroom)]
    simp only [ready] at hpush
    simp only [hpush]
    rcases hmarker with rfl | rfl
    · rfl
    · rfl

/-- The records of a message are received as its bytes, and what follows them is left
on the wire. -/
theorem receiveRecords_cut {bytes : List UInt8}
    (hroom : message.bytes.length + bytes.length ≤ session.messageLimit) (rest : List UInt8) :
    receiveRecords aead announced
        ⟨session, sealRecords aead session.position (cut bytes) ++ rest⟩ message started =
      (.ok (some (message.bytes ++ bytes)), ⟨session.advance (cut bytes).length, rest⟩) := by
  induction h : bytes.length using Nat.strong_induction_on
    generalizing bytes session message started with
  | _ size ih =>
    have hpos := maxRecordPayload_pos
    rcases le_or_gt bytes.length maxRecordPayload with hshort | hlong
    · rw [cut_short hshort]
      obtain ⟨after, hbytes, hreceive⟩ := receive_record aead announced session message started
        (Or.inr rfl) hshort hroom rest
      rw [if_neg (by decide)] at hreceive
      rw [sealRecords, sealRecords, List.append_nil, hreceive, hbytes]
      rfl
    · rw [cut_long hlong]
      have htake : (bytes.take maxRecordPayload).length = maxRecordPayload := by
        rw [List.length_take]
        omega
      have hdrop : (bytes.drop maxRecordPayload).length = bytes.length - maxRecordPayload :=
        List.length_drop
      obtain ⟨after, hbytes, hreceive⟩ := @receive_record aead announced session message started
        recordMore (bytes.take maxRecordPayload) (Or.inl rfl) (by omega) (by omega)
        (sealRecords aead (session.position + 1) (cut (bytes.drop maxRecordPayload)) ++ rest)
      rw [if_pos rfl] at hreceive
      have hafter : after.bytes.length = message.bytes.length + maxRecordPayload := by
        rw [hbytes, List.length_append, htake]
      have hrest := @ih _ (by omega) (session.advance 1) after true (bytes.drop maxRecordPayload)
        (by rw [messageLimit_advance]; omega) hdrop
      rw [sealRecords, List.append_assoc, hreceive]
      refine hrest.trans ?_
      rw [hbytes, List.append_assoc, List.take_append_drop, advance_advance, List.length_cons,
        Nat.add_comm 1]

/-- A proper part of one sealed record is not read as a record. -/
theorem receive_part {plain : List UInt8} (hplain : plain.length ≤ maxNoisePlaintext)
    {part : List UInt8} (hpart : part <+: frame (aead.sealAt session.position plain))
    (hproper : part ≠ frame (aead.sealAt session.position plain)) :
    (started = false ∧
        receiveRecords aead announced ⟨session, part⟩ message started =
          (.ok none, ⟨session, part⟩)) ∨
      ∃ error, (receiveRecords aead announced ⟨session, part⟩ message started).1 =
        .error error := by
  have hsealed : (aead.sealAt session.position plain).length ≤ maxNoiseMessage := by
    rw [aead.tagged]
    unfold maxNoisePlaintext maxNoiseMessage noiseTagLen at *
    omega
  have hread := nextFrame_part hsealed (by decide) hpart hproper
  rw [receiveRecords]
  split
  · cases started with
    | false => exact Or.inl ⟨rfl, rfl⟩
    | true => exact Or.inr ⟨_, rfl⟩
  · exact Or.inr ⟨_, rfl⟩
  · rename_i hframe
    rw [hframe] at hread
    simp at hread

/-- A stream that ends before the final record of a message gives no message. -/
theorem receiveRecords_part {bytes : List UInt8}
    (hroom : message.bytes.length + bytes.length ≤ session.messageLimit) {part : List UInt8}
    (hpart : part <+: sealRecords aead session.position (cut bytes))
    (hproper : part ≠ sealRecords aead session.position (cut bytes)) :
    (started = false ∧
        receiveRecords aead announced ⟨session, part⟩ message started =
          (.ok none, ⟨session, part⟩)) ∨
      ∃ error, (receiveRecords aead announced ⟨session, part⟩ message started).1 =
        .error error := by
  induction h : bytes.length using Nat.strong_induction_on
    generalizing bytes session message started part with
  | _ size ih =>
    have hpos := maxRecordPayload_pos
    have hplain : maxRecordPayload + 1 = maxNoisePlaintext := by decide
    rcases le_or_gt bytes.length maxRecordPayload with hshort | hlong
    · rw [cut_short hshort, sealRecords, sealRecords, List.append_nil] at hpart hproper
      have hone : (recordFinal :: bytes).length ≤ maxNoisePlaintext := by
        rw [List.length_cons]
        omega
      exact receive_part aead announced session message started hone hpart hproper
    · rw [cut_long hlong, sealRecords] at hpart hproper
      have htake : (bytes.take maxRecordPayload).length = maxRecordPayload := by
        rw [List.length_take]
        omega
      have hone : (recordMore :: bytes.take maxRecordPayload).length ≤ maxNoisePlaintext := by
        rw [List.length_cons]
        omega
      -- The stream ends inside the first record or after it.
      by_cases hafter : frame (aead.sealAt session.position
          (recordMore :: bytes.take maxRecordPayload)) <+: part
      · obtain ⟨left, rfl⟩ := hafter
        have hleft : left <+: sealRecords aead (session.position + 1)
            (cut (bytes.drop maxRecordPayload)) := (List.prefix_append_right_inj _).1 hpart
        have hless : left ≠ sealRecords aead (session.position + 1)
            (cut (bytes.drop maxRecordPayload)) := by
          rintro rfl
          exact hproper rfl
        have hdrop : (bytes.drop maxRecordPayload).length = bytes.length - maxRecordPayload :=
          List.length_drop
        obtain ⟨after, hbytes, hreceive⟩ := @receive_record aead announced session message
          started recordMore (bytes.take maxRecordPayload) (Or.inl rfl) (by omega) (by omega) left
        rw [if_pos rfl] at hreceive
        have hlength : after.bytes.length = message.bytes.length + maxRecordPayload := by
          rw [hbytes, List.length_append, htake]
        have hrest := @ih _ (by omega) (session.advance 1) after true (bytes.drop maxRecordPayload)
          (by rw [messageLimit_advance]; omega) left hleft hless hdrop
        rw [hreceive]
        rcases hrest with ⟨hstarted, -⟩ | herror
        · cases hstarted
        · exact Or.inr herror
      · have hinside := (List.prefix_or_prefix_of_prefix hpart
          (List.prefix_append _ _)).resolve_right hafter
        have hwhole : part ≠
            frame (aead.sealAt session.position (recordMore :: bytes.take maxRecordPayload)) := by
          rintro rfl
          exact hafter (List.prefix_refl _)
        exact receive_part aead announced session message started hone hinside hwhole

end

def sendAll (aead : Aead) (session : Session) :
    List (List (List UInt8)) → Except TransportError (Session × List UInt8)
  | [] => .ok (session, [])
  | parts :: messages => do
    let (session, bytes) ← sendParts aead session parts
    let (session, rest) ← sendAll aead session messages
    return (session, bytes ++ rest)

/-- Receive as many messages as there are readers, each with what it takes for an
announced length. -/
def recvAll (aead : Aead) :
    List (List UInt8 → Option ℕ) → Receiver →
      List (Except TransportError (Option (List UInt8))) × Receiver
  | [], receiver => ([], receiver)
  | announced :: readers, receiver =>
    let (message, receiver) := recvBytesSized aead announced receiver
    let (messages, receiver) := recvAll aead readers receiver
    (message :: messages, receiver)

/-- The stream of messages given by their bytes. -/
def streamOf (aead : Aead) (position : ℕ) : List (List UInt8) → List UInt8
  | [] => []
  | bytes :: messages =>
    sealRecords aead position (cut bytes) ++
      streamOf aead (position + (cut bytes).length) messages

def recordCount (messages : List (List UInt8)) : ℕ :=
  (messages.map fun bytes => (cut bytes).length).sum

theorem sendParts_eq (aead : Aead) {session : Session} (hlive : session.poisoned = false)
    {parts : List (List UInt8)} (hfit : parts.flatten.length ≤ session.messageLimit) :
    sendParts aead session parts =
      .ok (session.advance (cut parts.flatten).length,
        sealRecords aead session.position (cut parts.flatten)) := by
  rw [sendParts, if_neg (by rw [hlive]; decide), writeParts_eq aead hfit]
  rfl

theorem sendAll_eq (aead : Aead) {session : Session} (hlive : session.poisoned = false)
    {messages : List (List (List UInt8))}
    (hfit : ∀ parts ∈ messages, parts.flatten.length ≤ session.messageLimit) :
    sendAll aead session messages =
      .ok (session.advance (recordCount (messages.map List.flatten)),
        streamOf aead session.position (messages.map List.flatten)) := by
  induction messages generalizing session with
  | nil => rfl
  | cons parts messages ih =>
    have hparts := hfit parts (List.mem_cons_self ..)
    have hrest := @ih (session.advance (cut parts.flatten).length) hlive
      (fun other hother => hfit other (List.mem_cons_of_mem _ hother))
    simp only [sendAll, sendParts_eq aead hlive hparts, hrest, bind, Except.bind, pure, Except.pure]
    rw [advance_advance]
    rfl

theorem recvAll_eq (aead : Aead) {session : Session} (hlive : session.poisoned = false)
    {messages : List (List UInt8)}
    (hfit : ∀ bytes ∈ messages, bytes.length ≤ session.messageLimit)
    {readers : List (List UInt8 → Option ℕ)} (hreaders : readers.length = messages.length)
    (rest : List UInt8) :
    recvAll aead readers ⟨session, streamOf aead session.position messages ++ rest⟩ =
      (messages.map fun bytes => .ok (some bytes),
        ⟨session.advance (recordCount messages), rest⟩) := by
  induction messages generalizing session readers with
  | nil =>
    rw [List.length_nil, List.length_eq_zero_iff] at hreaders
    rw [hreaders]
    rfl
  | cons bytes messages ih =>
    obtain ⟨announced, readers, rfl⟩ := List.exists_cons_of_length_eq_add_one hreaders
    have hbytes := hfit bytes (List.mem_cons_self ..)
    have hone := @receiveRecords_cut aead announced session {} false bytes
      (by simpa using hbytes)
      (streamOf aead (session.position + (cut bytes).length) messages ++ rest)
    have hrest := @ih (session.advance (cut bytes).length) hlive
      (fun other hother => hfit other (List.mem_cons_of_mem _ hother)) readers
      (by simpa using hreaders)
    have hposition : (session.advance (cut bytes).length).position =
        session.position + (cut bytes).length := rfl
    rw [hposition] at hrest
    rw [List.nil_append] at hone
    rw [recvAll, streamOf, List.append_assoc, recvBytesSized, if_neg (by rw [hlive]; decide), hone]
    dsimp only
    rw [hrest, advance_advance]
    rfl

theorem recvAll_append (aead : Aead) (readers : List (List UInt8 → Option ℕ))
    (announced : List UInt8 → Option ℕ) (receiver : Receiver) :
    (recvAll aead (readers ++ [announced]) receiver).1 =
      (recvAll aead readers receiver).1 ++
        [(recvBytesSized aead announced (recvAll aead readers receiver).2).1] := by
  induction readers generalizing receiver with
  | nil => rfl
  | cons first readers ih =>
    rw [List.cons_append, recvAll, recvAll]
    dsimp only
    rw [ih, List.cons_append]

theorem recvBytesSized_part (aead : Aead) (announced : List UInt8 → Option ℕ) {session : Session}
    (hlive : session.poisoned = false) {bytes : List UInt8}
    (hfit : bytes.length ≤ session.messageLimit) {part : List UInt8}
    (hpart : part <+: sealRecords aead session.position (cut bytes))
    (hproper : part ≠ sealRecords aead session.position (cut bytes)) :
    (recvBytesSized aead announced ⟨session, part⟩).1 = .ok none ∨
      ∃ error, (recvBytesSized aead announced ⟨session, part⟩).1 = .error error := by
  rw [recvBytesSized, if_neg (by rw [hlive]; decide)]
  have hroom : ({} : Reassembly).bytes.length + bytes.length ≤ session.messageLimit := by
    simpa using hfit
  rcases receiveRecords_part aead announced session {} false hroom hpart hproper with
    ⟨-, hnone⟩ | herror
  · exact Or.inl (by rw [hnone])
  · exact Or.inr herror

/-- The messages of one end are received by the other in their order, whatever follows
them; the records do not depend on the parts a message was written as; and a stream
that ends inside a message gives no message for it. -/
theorem records_reassemble (aead : Aead) (sending receiving : Session)
    (hposition : receiving.position = sending.position)
    (hsending : sending.poisoned = false) (hreceiving : receiving.poisoned = false)
    (messages : List (List (List UInt8)))
    (hfit : ∀ parts ∈ messages,
      parts.flatten.length ≤ min sending.messageLimit receiving.messageLimit) :
    ∃ records stream,
      sendAll aead sending messages = .ok (sending.advance records, stream) ∧
      (∀ readers, readers.length = messages.length → ∀ rest,
        recvAll aead readers ⟨receiving, stream ++ rest⟩ =
          (messages.map fun parts => .ok (some parts.flatten),
            ⟨receiving.advance records, rest⟩)) ∧
      (∀ others : List (List (List UInt8)),
        others.map List.flatten = messages.map List.flatten →
          sendAll aead sending others = .ok (sending.advance records, stream)) ∧
      ∀ last : List (List UInt8),
        last.flatten.length ≤ min sending.messageLimit receiving.messageLimit →
        ∃ after lastStream,
          sendParts aead (sending.advance records) last = .ok (after, lastStream) ∧
          ∀ part, part <+: lastStream → part ≠ lastStream →
            ∀ readers, readers.length = messages.length → ∀ announced,
              ∃ ending,
                (recvAll aead (readers ++ [announced]) ⟨receiving, stream ++ part⟩).1 =
                  messages.map (fun parts => .ok (some parts.flatten)) ++ [ending] ∧
                (ending = .ok none ∨ ∃ error, ending = .error error) := by
  have hsend := @sendAll_eq aead sending hsending
  have hstream : sendAll aead sending messages =
      .ok (sending.advance (recordCount (messages.map List.flatten)),
        streamOf aead sending.position (messages.map List.flatten)) :=
    hsend fun parts hparts => (le_min_iff.1 (hfit parts hparts)).1
  have hreceive := @recvAll_eq aead receiving hreceiving (messages.map List.flatten) (by
    intro bytes hbytes
    obtain ⟨parts, hparts, rfl⟩ := List.mem_map.1 hbytes
    exact (le_min_iff.1 (hfit parts hparts)).2)
  rw [List.length_map, hposition, List.map_map] at hreceive
  refine ⟨_, _, hstream, fun readers hreaders rest => hreceive hreaders rest, ?_, ?_⟩
  · intro others hsame
    rw [← hsame]
    refine hsend fun other hother => ?_
    have hmem : other.flatten ∈ messages.map List.flatten :=
      hsame ▸ List.mem_map.2 ⟨other, hother, rfl⟩
    obtain ⟨parts, hparts, hflatten⟩ := List.mem_map.1 hmem
    rw [← hflatten]
    exact (le_min_iff.1 (hfit parts hparts)).1
  · intro last hlast
    obtain ⟨hsent, hreceived⟩ := le_min_iff.1 hlast
    refine ⟨_, _, @sendParts_eq aead (sending.advance _) hsending _ hsent, ?_⟩
    intro part hpart hproper readers hreaders announced
    have hending := @recvBytesSized_part aead announced
      (receiving.advance (recordCount (messages.map List.flatten))) hreceiving _ hreceived part
      (by rw [Session.advance, hposition]; exact hpart)
      (by rw [Session.advance, hposition]; exact hproper)
    refine ⟨_, ?_, hending⟩
    rw [recvAll_append, hreceive hreaders part]
    rfl

/-- A cipher that hides nothing: the tag is the position. -/
def plainAead : Aead where
  sealAt position plain := toBigEndian noiseTagLen position ++ plain
  openAt position sealed :=
    if sealed.take noiseTagLen = toBigEndian noiseTagLen position then some (sealed.drop noiseTagLen)
    else none
  opens := by
    intro position plain sealed
    have hlength : (toBigEndian noiseTagLen position).length = noiseTagLen :=
      length_toBigEndian _ _
    constructor
    · intro h
      split at h
      · rename_i htag
        rw [← Option.some.inj h, ← htag, List.take_append_drop]
      · cases h
    · rintro rfl
      rw [if_pos (List.take_left' hlength), List.drop_left' hlength]
  tagged := by
    intro position plain
    rw [List.length_append, length_toBigEndian, Nat.add_comm]

theorem records_reassemble_two :
    ∃ records stream,
      sendAll plainAead {} [[[1], [], [2, 3]], [[]]] = .ok (({} : Session).advance records, stream) ∧
      recvAll plainAead [fun _ => none, fun _ => some 7] ⟨{}, stream ++ [9]⟩ =
        ([.ok (some [1, 2, 3]), .ok (some [])], ⟨({} : Session).advance records, [9]⟩) := by
  have hsmall : 3 ≤ min ({} : Session).messageLimit ({} : Session).messageLimit := by decide
  have hfit : ∀ parts ∈ [[[1], [], [2, 3]], [[]]],
      (parts : List (List UInt8)).flatten.length ≤
        min ({} : Session).messageLimit ({} : Session).messageLimit := by
    intro parts hparts
    refine le_trans ?_ hsmall
    simp only [List.mem_cons, List.not_mem_nil, or_false] at hparts
    rcases hparts with rfl | rfl <;> simp
  obtain ⟨records, stream, hsend, hreceive, -, -⟩ :=
    records_reassemble plainAead {} {} rfl rfl rfl _ hfit
  exact ⟨records, stream, hsend, hreceive _ rfl [9]⟩

end CopyPaste.Transport.Records
