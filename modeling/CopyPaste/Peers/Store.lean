import CopyPaste.Peers.Group
import Mathlib

/-!
The paired devices: their records and keys, the pairings that were cut off, the
admissions each credential certifies and the group. Every change is written to the
file before it is told to anyone, and is taken back when the file cannot be written.
-/

namespace CopyPaste.Peers.Store

open Lib.Checks Std Peers.Group

structure State where
  pairAdmissions : Table PairAdmissions := ∅
  group : Option GroupState := none
  groupAdmissions : Table Unit := ∅
  peers : Table Peer := ∅
  revoked : Table Int := ∅
  generations : Table Nat := ∅
  deriving DecidableEq

structure StoreFile where
  pairAdmissions : Table PairAdmissions
  groupAdmissions : Table Unit
  group : Option GroupState
  peers : List Peer
  revoked : Table Int
  deriving DecidableEq

/-- The libraries below the store: the text form of a file under the local seal, and
what the group uses. -/
structure Host extends Crypto where
  encode : StoreFile → Bytes
  decode : Bytes → Option StoreFile
  decode_encode : ∀ file, decode (encode file) = some file

instance countableChar : Countable Char :=
  Function.Injective.countable (f := Char.toNat) fun _ _ h => Char.toNat_inj.1 h

instance countableString : Countable String :=
  Function.Injective.countable (f := String.toList) fun _ _ h => String.toList_injective h

instance countableUInt8 : Countable UInt8 :=
  Function.Injective.countable (f := UInt8.toNat) fun _ _ h => UInt8.toNat_inj.1 h

instance countableUInt16 : Countable UInt16 :=
  Function.Injective.countable (f := UInt16.toNat) fun _ _ h => UInt16.toNat_inj.1 h

instance {β : Type} [Countable β] : Countable (Table β) :=
  Function.Injective.countable (f := ExtTreeMap.toList) fun _ _ h => ExtTreeMap.toList_inj.1 h

deriving instance Countable for DevicePlatform, DeviceClass, DeviceProfile, IpAddr, SocketAddr,
  Member, Roster, Group.Identity, GroupState, Peer, PairAdmissions, StoreFile

/-- There are as many texts as files, so there is a text form to put beside any
libraries of the group. -/
noncomputable def Host.over (crypto : Crypto) : Host :=
  let number := (nonempty_embedding_nat StoreFile).some
  { crypto with
    encode := fun file => List.replicate (number file) 0
    decode := fun bytes => Function.partialInv number bytes.length
    decode_encode := fun file => by
      simp only [List.length_replicate]
      exact Function.partialInv_left number.injective file }

structure PeerStore where
  state : State := {}
  file : Option Bytes := none
  unflushed : Bool := false

def maxPairingIdLen : Nat := 128

def validatePairingId (id : String) : Except PeerStoreError Unit :=
  if id = "" then .error (.invalid "pairing id is empty")
  else if maxPairingIdLen < id.utf8ByteSize then
    .error (.invalid "pairing id is implausibly long")
  else .ok ()

def Peer.validate (peer : Peer) : Except PeerStoreError Unit := do
  validatePairingId peer.pairingId
  if peer.deviceId.any fun id => id = "" || decide (maxIdBytes < id.utf8ByteSize) then
    .error (.invalid "device id is invalid")
  else if peer.psk = List.replicate 32 0 then .error (.invalid "pre-shared key is all zeroes")
  else
    match peer.profile with
    | none => .ok ()
    | some profile =>
      if peer.profileObservedAtMs ≤ 0 then
        .error (.invalid "device profile is missing its local observation time")
      else if validDeviceProfile profile then .ok ()
      else .error (.invalid "device profile is invalid")

variable (host : Host)

/-- Read a file back. -/
def parse (bytes : Bytes) : Except PeerStoreError State :=
  match host.decode bytes with
  | none => .error .corrupt
  | some file =>
    let peers := file.peers.foldl (fun peers peer => peers.insert peer.pairingId peer) (∅ : Table Peer)
    if (file.group.any fun group => (group.validate host.toCrypto).toOption.isNone) ||
        decide (maxPairings < file.groupAdmissions.size) ||
        (file.peers.any fun peer => (Peer.validate peer).toOption.isNone) ||
        decide (maxPairings < file.pairAdmissions.size) ||
        (file.pairAdmissions.toList.any fun (id, _) => !peers.contains id) ||
        decide (maxRevocations < file.revoked.size) ||
        (file.revoked.toList.any fun (id, _) => (validatePairingId id).toOption.isNone) then
      .error .corrupt
    else
      .ok
        { pairAdmissions := file.pairAdmissions
          group := file.group
          groupAdmissions := file.groupAdmissions
          peers := peers
          revoked := file.revoked
          generations := ∅ }

def fileOf (state : State) : StoreFile where
  pairAdmissions := state.pairAdmissions
  groupAdmissions := state.groupAdmissions
  group := state.group
  peers := state.peers.toList.map Prod.snd
  revoked := state.revoked

/-- Write a state, when the disk lets it be written. -/
def PeerStore.persist (store : PeerStore) (saved : Bool) (state : State) : Option PeerStore :=
  if saved then some { store with file := some (host.encode (fileOf state)), unflushed := false }
  else none

def State.generation (state : State) (pairingId : String) : Nat :=
  state.generations[pairingId]?.getD 0

/-- Count a write of a slot. Derived credentials take no part in tentative writes. -/
def State.bump (state : State) (pairingId : String) : State :=
  if groupPairingHead.toList.isPrefixOf pairingId.toList then state
  else
    { state with
      generations := state.generations.insert pairingId ((state.generation pairingId + 1) % 2 ^ 64) }

def onlyLastSeenMoved (state : State) (incoming : Peer) : Bool :=
  state.peers[incoming.pairingId]?.any fun stored =>
    stored.name = incoming.name && stored.deviceId = incoming.deviceId &&
      stored.lastAddr = incoming.lastAddr && stored.psk = incoming.psk &&
      stored.profile = incoming.profile && stored.profileObservedAtMs = incoming.profileObservedAtMs

def State.carriedElsewhere (state : State) (pairingId deviceId : String) : Bool :=
  state.peers.toList.any fun (_, stored) =>
    stored.pairingId ≠ pairingId && stored.deviceId = some deviceId

/-- Whether an admission suits the group. -/
def State.checkAdmission (state : State) (peer : Peer) :
    Option PairAdmissions → Except PeerStoreError Unit
  | none => .ok ()
  | some certified =>
    match state.group with
    | none => .ok ()
    | some group => do
      group.roster.checkLocalAdmission certified.localSide
      if certified.remote = u64Max ∨ peer.deviceId.any fun id =>
          match group.roster.desiredAdmission id with
          | .ok required => certified.remote < required
          | .error _ => false
      then .error .revoked
      else .ok ()

/-- What an insertion is refused for. -/
def State.checkUpsert (state : State) (peer : Peer) (admission : Option PairAdmissions) :
    Except PeerStoreError Unit := do
  Peer.validate peer
  state.checkAdmission peer admission
  if state.revoked.contains peer.pairingId then .error .revoked
  else if peer.deviceId.any fun id => state.carriedElsewhere peer.pairingId id then
    .error .alreadyPaired
  else if !state.peers.contains peer.pairingId ∧ maxPairings ≤ state.peers.size then
    .error .tooManyPairings
  else .ok ()

theorem carriedElsewhere_eq_false {state : State} {pairingId deviceId : String} :
    state.carriedElsewhere pairingId deviceId = false ↔ ∀ (id : String) (stored : Peer),
      state.peers[id]? = some stored → stored.deviceId = some deviceId →
        stored.pairingId = pairingId := by
  unfold State.carriedElsewhere
  rw [List.any_eq_false]
  constructor
  · intro h id stored hstored hdevice
    have hnot := h (id, stored) (ExtTreeMap.mem_toList_iff_getElem?_eq_some.2 hstored)
    by_contra hne
    exact hnot (by simp [hne, hdevice])
  · intro h entry hentry hboth
    simp only [ne_eq, Bool.and_eq_true, decide_eq_true_eq] at hboth
    exact hboth.1 (h entry.1 entry.2
      (ExtTreeMap.mem_toList_iff_getElem?_eq_some.1 hentry) hboth.2)

theorem checkUpsert_ok {state : State} {peer : Peer} {admission : Option PairAdmissions}
    (h : state.checkUpsert peer admission = .ok ()) :
    Peer.validate peer = .ok () ∧ peer.pairingId ∉ state.revoked ∧
      (∀ device, peer.deviceId = some device →
        state.carriedElsewhere peer.pairingId device = false) ∧
      (peer.pairingId ∈ state.peers ∨ state.peers.size < maxPairings) := by
  unfold State.checkUpsert at h
  obtain ⟨_, hvalid, h⟩ := bind_ok_iff.1 h
  obtain ⟨_, hadmission, h⟩ := bind_ok_iff.1 h
  split at h
  · simp at h
  rename_i hrevoked
  split at h
  · simp at h
  rename_i hcarried
  split at h
  · simp at h
  rename_i hroom
  refine ⟨hvalid, by simpa using hrevoked, ?_, ?_⟩
  · intro device hdevice
    simpa [hdevice] using hcarried
  · by_cases hknown : state.peers.contains peer.pairingId = true
    · exact Or.inl (ExtTreeMap.mem_iff_contains.2 hknown)
    · exact Or.inr (Nat.lt_of_not_le fun hfull => hroom ⟨by simp [hknown], hfull⟩)

/-- The admission a written record has: the certified one, or the one the slot had
under the same key. -/
def State.nextAdmission (state : State) (peer : Peer) (admission : Option PairAdmissions) :
    Option PairAdmissions :=
  admission <|>
    if state.peers[peer.pairingId]?.any fun old => old.psk = peer.psk then
      state.pairAdmissions[peer.pairingId]?
    else none

def setAdmission (admissions : Table PairAdmissions) (pairingId : String) :
    Option PairAdmissions → Table PairAdmissions
  | some admission => admissions.insert pairingId admission
  | none => admissions.erase pairingId

def State.withPeer (state : State) (peer : Peer) (admission : Option PairAdmissions) : State :=
  { state with
    peers := state.peers.insert peer.pairingId peer
    pairAdmissions :=
      setAdmission state.pairAdmissions peer.pairingId (state.nextAdmission peer admission) }

/-- Insert a record or replace the one of its pairing id. -/
def PeerStore.upsertCertified (store : PeerStore) (saved : Bool) (peer : Peer)
    (admission : Option PairAdmissions) : PeerStore × Except PeerStoreError Unit :=
  match store.state.checkUpsert peer admission with
  | .error e => (store, .error e)
  | .ok () =>
    let next := store.state.withPeer peer admission
    if onlyLastSeenMoved store.state peer &&
        store.state.pairAdmissions[peer.pairingId]? = store.state.nextAdmission peer admission then
      ({ store with state := next.bump peer.pairingId, unflushed := true }, .ok ())
    else
      match store.persist host saved next with
      | some written => ({ written with state := next.bump peer.pairingId }, .ok ())
      | none => (store, .error .io)

def PeerStore.upsert (store : PeerStore) (saved : Bool) (peer : Peer) :
    PeerStore × Except PeerStoreError Unit :=
  store.upsertCertified host saved peer none

/-- Write observations about a pairing, if it is still stored. -/
def PeerStore.touch (store : PeerStore) (saved : Bool) (peer : Peer) :
    PeerStore × Except PeerStoreError Bool :=
  if store.state.peers.contains peer.pairingId then
    let (store, result) := store.upsertCertified host saved peer none
    (store, result.map fun _ => true)
  else (store, .ok false)

/-- The group after a device has been removed from it. -/
def removeMember (group : Option GroupState) (deviceId : Option String) :
    Except PeerStoreError (Option GroupState) :=
  match group, deviceId with
  | some group, some id => do
    let (roster, _) ← group.roster.remove id
    return some { group with roster := roster }
  | group, _ => .ok group

def State.dropSlot (state : State) (pairingId : String) : State :=
  { state with
    peers := state.peers.erase pairingId
    groupAdmissions := state.groupAdmissions.erase pairingId
    pairAdmissions := state.pairAdmissions.erase pairingId }

/-- Forget a pairing; whether there was one. -/
def PeerStore.remove (store : PeerStore) (saved : Bool) (pairingId : String) :
    PeerStore × Except PeerStoreError Bool :=
  match store.state.peers[pairingId]? with
  | none => (store, .ok false)
  | some peer =>
    match removeMember store.state.group peer.deviceId with
    | .error e => (store, .error e)
    | .ok group =>
      let next := ({ store.state with group := group } : State).dropSlot pairingId
      match store.persist host saved next with
      | some written => ({ written with state := next.bump pairingId }, .ok true)
      | none => (store, .error .io)

/-- Forget a pairing and bar its id; whether there was one. -/
def PeerStore.revoke (store : PeerStore) (saved : Bool) (pairingId : String) (nowMs : Int) :
    PeerStore × Except PeerStoreError Bool :=
  match validatePairingId pairingId with
  | .error e => (store, .error e)
  | .ok () =>
    if !store.state.revoked.contains pairingId ∧ maxRevocations ≤ store.state.revoked.size then
      (store, .error .tooManyRevocations)
    else
      match removeMember store.state.group (store.state.peers[pairingId]?.bind Peer.deviceId) with
      | .error e => (store, .error e)
      | .ok group =>
        let next := ({ store.state with
          group := group
          revoked := store.state.revoked.insert pairingId nowMs } : State).dropSlot pairingId
        match store.persist host saved next with
        | some written =>
          ({ written with state := next.bump pairingId },
            .ok (store.state.peers.contains pairingId))
        | none => (store, .error .io)

/-- Cut every pairing off, in one write; how many there were. -/
def PeerStore.revokeAll (store : PeerStore) (saved : Bool) (nowMs : Int) :
    PeerStore × Except PeerStoreError Nat :=
  if store.state.peers.size = 0 then (store, .ok 0)
  else
    match store.state.peers.toList.foldlM
        (fun group entry => removeMember group entry.2.deviceId) store.state.group with
    | .error e => (store, .error e)
    | .ok group =>
      let ids := store.state.peers.toList.map Prod.fst
      let next : State := { store.state with
        group := group
        peers := ∅
        groupAdmissions := ∅
        pairAdmissions := ∅
        revoked := ids.foldl (fun revoked id => revoked.insert id nowMs) store.state.revoked }
      match store.persist host saved next with
      | some written => ({ written with state := ids.foldl State.bump next }, .ok ids.length)
      | none => (store, .error .io)

/-- A slot as it stood before a ceremony wrote to it. -/
structure PeerSnapshot where
  previousAdmission : Option PairAdmissions
  pairingId : String
  previous : Option Peer
  generation : Nat
  deriving DecidableEq, Repr

def PeerStore.snapshot (store : PeerStore) (pairingId : String) : PeerSnapshot where
  previousAdmission := store.state.pairAdmissions[pairingId]?
  pairingId := pairingId
  previous := store.state.peers[pairingId]?
  generation := store.state.generation pairingId

/-- Write a record, unless the slot is no longer the one that was read. -/
def PeerStore.upsertFromAdmission (store : PeerStore) (saved : Bool) (snapshot : PeerSnapshot)
    (peer : Peer) (admission : Option PairAdmissions) :
    PeerStore × Except PeerStoreError PeerSnapshot :=
  if store.state.generation snapshot.pairingId ≠ snapshot.generation then
    (store, .error .contended)
  else
    let (store, result) := store.upsertCertified host saved peer admission
    (store, result.map fun _ =>
      { snapshot with generation := store.state.generation snapshot.pairingId })

inductive Rollback
  | undone
  | undoneOverContention
  deriving DecidableEq, Repr

/-- The record a rollback leaves: the one before, or the observations of another
writer under the credential from before. -/
def State.restored (state : State) (snapshot : PeerSnapshot) : Option Peer :=
  if state.revoked.contains snapshot.pairingId then none
  else
    match snapshot.previous with
    | none => none
    | some previous =>
      if state.generation snapshot.pairingId ≠ snapshot.generation then
        state.peers[snapshot.pairingId]?.map fun current =>
          { current with
            pairingId := snapshot.pairingId
            deviceId := previous.deviceId <|> current.deviceId
            psk := previous.psk }
      else some previous

/-- The slot put back; the marker of a group admission stays. -/
def State.restoreSlot (state : State) (snapshot : PeerSnapshot) : State :=
  match state.restored snapshot with
  | some peer =>
    { state with
      peers := state.peers.insert snapshot.pairingId peer
      pairAdmissions :=
        setAdmission state.pairAdmissions snapshot.pairingId snapshot.previousAdmission }
  | none =>
    { state with
      peers := state.peers.erase snapshot.pairingId
      pairAdmissions := state.pairAdmissions.erase snapshot.pairingId }

/-- Undo a tentative write. The key that was repudiated leaves the memory even when
the file cannot be written. -/
def PeerStore.restore (store : PeerStore) (saved : Bool) (snapshot : PeerSnapshot) :
    PeerStore × Except PeerStoreError Rollback :=
  let outcome :=
    if store.state.generation snapshot.pairingId ≠ snapshot.generation then
      Rollback.undoneOverContention
    else Rollback.undone
  let next := (store.state.restoreSlot snapshot).bump snapshot.pairingId
  match store.persist host saved next with
  | some written => ({ written with state := next }, .ok outcome)
  | none => ({ store with state := next, unflushed := true }, .error .io)

def PeerStore.flush (store : PeerStore) (saved : Bool) : PeerStore × Except PeerStoreError Unit :=
  if !store.unflushed then (store, .ok ())
  else
    match store.persist host saved store.state with
    | some written => (written, .ok ())
    | none => (store, .error .io)

end CopyPaste.Peers.Store
