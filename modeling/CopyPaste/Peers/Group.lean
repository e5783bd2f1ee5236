import CopyPaste.Lib.Tables
import Mathlib

/-!
Personal device membership. A roster has one record for each member and, for each
removed device, the highest admission that was taken from it. Rosters travel as
signed snapshots of the device that issues them and are merged record by record; a
removal wins over an admission of the same generation.
-/

namespace CopyPaste.Peers.Group

open Std

abbrev Bytes := List UInt8

abbrev Table (β : Type) := ExtTreeMap String β

inductive PeerStoreError
  | io
  | corrupt
  | encrypt
  | invalid (reason : String)
  | revoked
  | alreadyPaired
  | tooManyPairings
  | tooManyRevocations
  | contended
  deriving DecidableEq, Repr

def maxPairings : Nat := 16
def maxRevocations : Nat := 4096
def maxGroupBytes : Nat := 768 * 1024
def maxIdBytes : Nat := 128
def maxDeviceNameBytes : Nat := 128
def u64Max : Nat := 2 ^ 64 - 1
def groupPairingHead : String := "group-"

def invalid : PeerStoreError := .invalid "invalid device group"

inductive DevicePlatform
  | macos
  | windows
  | android
  | unknown
  | linux
  deriving DecidableEq, Repr

inductive DeviceClass
  | desktop
  | laptop
  | phone
  | tablet
  | unknown
  deriving DecidableEq, Repr

structure DeviceProfile where
  appVersion : Option String := none
  protocolVersion : Option Nat := none
  platform : DevicePlatform := .unknown
  deviceClass : DeviceClass := .unknown
  osName : Option String := none
  osVersion : Option String := none
  model : Option String := none
  deriving DecidableEq, Repr

def validDeviceProfile (profile : DeviceProfile) : Bool :=
  [(profile.appVersion, 64), (profile.osName, 64), (profile.osVersion, 64),
    (profile.model, 128)].all fun (value, max) => value.all fun text => text.utf8ByteSize ≤ max

/-- An address to dial: the four bytes of the one family or the eight groups of the
other, and a port. -/
inductive IpAddr
  | v4 (a b c d : UInt8)
  | v6 (segments : List UInt16)
  deriving DecidableEq, Repr

structure SocketAddr where
  ip : IpAddr
  port : UInt16
  deriving DecidableEq, Repr

/-- The mapped form of an address of the one family, read back. -/
def toCanonical : IpAddr → IpAddr
  | .v6 [0, 0, 0, 0, 0, 0xffff, g, h] =>
    .v4 (g / 256).toUInt8 (g % 256).toUInt8 (h / 256).toUInt8 (h % 256).toUInt8
  | ip => ip

/-- Not unspecified, broadcast, link local or multicast, on a port. -/
def isDialable (addr : SocketAddr) : Bool :=
  addr.port != 0 &&
    match toCanonical addr.ip with
    | .v4 a b c d =>
      !(a == 0 && b == 0 && c == 0 && d == 0) &&
        !(a == 255 && b == 255 && c == 255 && d == 255) && !(a == 169 && b == 254) &&
        !(224 ≤ a && a ≤ 239)
    | .v6 segments =>
      !(segments.all fun segment => segment == 0) &&
        !(segments.head?.any fun first => first &&& 0xffc0 == 0xfe80) &&
        !(segments.head?.any fun first => first &&& 0xff00 == 0xff00)

structure Member where
  deviceId : String
  name : String
  signingKey : Bytes
  exchangeKey : Bytes
  admission : Nat
  revision : Nat
  profile : DeviceProfile
  listenAddr : Option SocketAddr
  deriving DecidableEq, Repr

structure Roster where
  issuer : String
  members : Table Member
  removed : Table Nat
  deriving DecidableEq

structure GroupSnapshot where
  roster : Roster
  signature : String
  deriving DecidableEq

structure Identity where
  signing : Bytes
  exchange : Bytes
  deriving DecidableEq, Repr

structure GroupState where
  identity : Identity
  roster : Roster
  deriving DecidableEq

/-- The signatures, key agreement, digests and text encodings of the libraries the
group uses. An agreement that is not contributory has no shared secret. -/
structure Crypto where
  verifyingKey : Bytes → Bytes
  publicKey : Bytes → Bytes
  sign : Bytes → Bytes → String
  verify : Bytes → Bytes → String → Bool
  diffieHellman : Bytes → Bytes → Option Bytes
  expand : Bytes → Bytes → Bytes
  digest : Bytes → String
  rosterText : Roster → Bytes
  pairText : (String × Bytes × Nat) × (String × Bytes × Nat) → Bytes

def isIdByte (c : Char) : Bool :=
  c.isAlphanum || c = '-' || c = '_'

def validateId (id : String) : Bool :=
  id != "" && decide (id.utf8ByteSize ≤ maxIdBytes) && id.toList.all isIdByte

variable (crypto : Crypto)

/-- What is signed of a roster, unless it is too long. -/
def signedBytes (roster : Roster) : Except PeerStoreError Bytes :=
  let bytes := crypto.rosterText roster
  if maxGroupBytes < bytes.length then .error invalid else .ok bytes

def Member.valid (id : String) (member : Member) : Bool :=
  validateId id && id = member.deviceId &&
    decide (member.name.utf8ByteSize ≤ maxDeviceNameBytes) &&
    member.exchangeKey != List.replicate 32 0 && member.admission != u64Max &&
    validDeviceProfile member.profile && member.listenAddr.all isDialable

def validRemoval (id : String) (generation : Nat) : Bool :=
  validateId id && generation != u64Max

def Roster.wellFormed (roster : Roster) : Bool :=
  roster.members.size != 0 && decide (roster.members.size ≤ maxPairings + 1) &&
    decide (roster.removed.size ≤ maxRevocations) &&
    (roster.members.toList.all fun (id, member) => Member.valid id member) &&
    roster.removed.toList.all fun (id, generation) => validRemoval id generation

def GroupSnapshot.validate (snapshot : GroupSnapshot) : Except PeerStoreError Unit :=
  if !snapshot.roster.wellFormed || snapshot.signature.utf8ByteSize != 128 then .error invalid
  else
    match snapshot.roster.members[snapshot.roster.issuer]? with
    | none => .error invalid
    | some issuer =>
      match signedBytes crypto snapshot.roster with
      | .error e => .error e
      | .ok bytes =>
        if crypto.verify issuer.signingKey bytes snapshot.signature then .ok () else .error invalid

/-- A member whose admission is above its removal. -/
def Roster.isActive (roster : Roster) (id : String) : Bool :=
  roster.members[id]?.any fun member =>
    roster.removed[id]?.all fun removed => removed < member.admission

def Roster.removedDevice (roster : Roster) (id : String) : Bool :=
  roster.removed.contains id && !roster.isActive id

def Roster.active (roster : Roster) : Bool :=
  roster.isActive roster.issuer

def checkedSucc (generation : Nat) : Except PeerStoreError Nat :=
  if generation < u64Max then .ok (generation + 1) else .error invalid

/-- The admission a device has to be confirmed with. -/
def Roster.desiredAdmission (roster : Roster) (id : String) : Except PeerStoreError Nat :=
  let current := (roster.members[id]?.map Member.admission).getD 0
  match roster.removed[id]? with
  | some removed => if current ≤ removed then checkedSucc removed else .ok current
  | none => .ok current

def Roster.localAdmission (roster : Roster) : Except PeerStoreError Nat :=
  roster.desiredAdmission roster.issuer

/-- What a snapshot shows of a roster: the active members, and the issuer. -/
def Roster.shown (roster : Roster) : Roster :=
  { roster with
    members := roster.members.filter fun id _ => id = roster.issuer || roster.isActive id }

def GroupState.snapshot (state : GroupState) : Except PeerStoreError GroupSnapshot := do
  let bytes ← signedBytes crypto state.roster.shown
  return ⟨state.roster.shown, crypto.sign state.identity.signing bytes⟩

def GroupState.validate (state : GroupState) : Except PeerStoreError Unit := do
  match state.roster.members[state.roster.issuer]? with
  | none => .error invalid
  | some me =>
    if me.signingKey ≠ crypto.verifyingKey state.identity.signing ∨
        me.exchangeKey ≠ crypto.publicKey state.identity.exchange then .error invalid
    else do
      let snapshot ← state.snapshot crypto
      snapshot.validate crypto

/-- A group of one device, under keys drawn for it. -/
def GroupState.new (identity : Identity) (id name : String) (profile : DeviceProfile)
    (addr : Option SocketAddr) : Except PeerStoreError GroupState := do
  if !validateId id then .error invalid
  let member : Member :=
    ⟨id, name, crypto.verifyingKey identity.signing, crypto.publicKey identity.exchange, 0, 0,
      profile, addr⟩
  let state : GroupState := ⟨identity, ⟨id, (∅ : Table Member).insert id member, ∅⟩⟩
  let snapshot ← state.snapshot crypto
  snapshot.validate crypto
  return state

/-- Whether the own record already says this. -/
def Roster.localMatches (roster : Roster) (id name : String) (profile : DeviceProfile)
    (addr : Option SocketAddr) : Bool :=
  id = roster.issuer && roster.members[id]?.any fun member =>
    member.name = name && member.profile = profile && member.listenAddr = addr

/-- Change the own record, under a new revision. -/
def Roster.updateLocal (roster : Roster) (id name : String) (profile : DeviceProfile)
    (addr : Option SocketAddr) : Except PeerStoreError (Roster × Bool) :=
  if id ≠ roster.issuer then .error invalid
  else
    match roster.members[id]? with
    | none => .error invalid
    | some member =>
      if member.name = name ∧ member.profile = profile ∧ member.listenAddr = addr then
        .ok (roster, false)
      else if member.revision < u64Max then
        .ok ({ roster with
          members := roster.members.insert id { member with
            name := name
            profile := profile
            listenAddr := addr
            revision := member.revision + 1 } }, true)
      else .error invalid

/-- Record the admission of a device as removed. -/
def Roster.remove (roster : Roster) (id : String) : Except PeerStoreError (Roster × Bool) :=
  if !validateId id then .error invalid
  else
    let generation := (roster.members[id]?.map Member.admission).getD 0
    if roster.removed[id]?.any fun old => generation ≤ old then .ok (roster, false)
    else if maxRevocations ≤ roster.removed.size ∧ !roster.removed.contains id then
      .error .tooManyRevocations
    else
      .ok ({ roster with
        removed := roster.removed.insert id generation
        members := if id = roster.issuer then roster.members else roster.members.erase id }, true)

/-- Whether the own admission may be certified: not below the one required, and at
most one above the present one. -/
def Roster.checkLocalAdmission (roster : Roster) (admission : Nat) :
    Except PeerStoreError Unit := do
  match roster.members[roster.issuer]? with
  | none => .error invalid
  | some me =>
    let required ← roster.localAdmission
    if admission < required ∨ admission = u64Max then .error .revoked
    else
      let limit ← checkedSucc me.admission
      if limit < admission then .error .revoked else .ok ()

def Roster.certifyLocal (roster : Roster) (admission : Nat) : Except PeerStoreError Roster := do
  roster.checkLocalAdmission admission
  match roster.members[roster.issuer]? with
  | none => .error invalid
  | some me =>
    return { roster with
      members := roster.members.insert roster.issuer { me with admission := admission } }

/-- The generations that one credential certifies. -/
structure PairAdmissions where
  localSide : Nat := 0
  remote : Nat := 0
  deriving DecidableEq, Repr

/-- The admissions two devices agree on. The other device may know of one removal of
this one that this one does not, and not of more. -/
def PairAdmissions.agree (mine theirs : PairAdmissions) : Except PeerStoreError PairAdmissions := do
  let nextLocal ← checkedSucc mine.localSide
  if nextLocal < theirs.remote then .error invalid
  else
    let agreed : PairAdmissions :=
      ⟨max mine.localSide theirs.remote, max mine.remote theirs.localSide⟩
    if agreed.localSide = u64Max ∨ agreed.remote = u64Max then .error invalid else .ok agreed

def Roster.pairAdmissions (roster : Roster) (id : String) : Except PeerStoreError PairAdmissions :=
  match roster.members[roster.issuer]?, roster.members[id]? with
  | some me, some peer => .ok ⟨me.admission, peer.admission⟩
  | _, _ => .error invalid

def sameKeys (member other : Member) : Bool :=
  member.signingKey = other.signingKey && member.exchangeKey = other.exchangeKey

/-- Take the greater of two removals of each device. -/
def mergeRemoval (removed : Table Nat) (id : String) (generation : Nat) :
    Except PeerStoreError (Table Nat) :=
  if !removed.contains id ∧ maxRevocations ≤ removed.size then .error .tooManyRevocations
  else .ok (removed.insert id (max (removed[id]?.getD generation) generation))

/-- Take one record of another device's roster. The own record only bears its keys
out. A key is replaced by another member's word for a greater admission. -/
def mergeMember (own issuer : String) (removed : Table Nat) (members : Table Member) (id : String)
    (member : Member) : Except PeerStoreError (Table Member) :=
  if id = own then
    match members[id]? with
    | none => .error invalid
    | some mine =>
      if sameKeys mine member then
        .ok (members.insert id { mine with admission := max mine.admission member.admission })
      else .error invalid
  else if removed[id]?.any fun removed => member.admission ≤ removed then .ok members
  else
    match members[id]? with
    | none => .ok (members.insert id member)
    | some old =>
      if !sameKeys old member then
        if member.admission ≤ old.admission ∨ id = issuer then .error invalid
        else .ok (members.insert id member)
      else if toLex (member.admission, member.revision) ≤ toLex (old.admission, old.revision) then
        .ok members
      else .ok (members.insert id member)

/-- A record under an admission above any removal of the device. -/
def Roster.readmit (roster : Roster) (id : String) (member : Member) :
    Except PeerStoreError Roster := do
  let admission ← match roster.removed[id]? with
    | none => pure member.admission
    | some removed => (checkedSucc removed).map (max member.admission)
  return { roster with members := roster.members.insert id { member with admission := admission } }

/-- Both devices have just confirmed each other, so both come back. -/
def Roster.admitExplicitly (roster : Roster) (issuerId : String) (issuer : Member) :
    Except PeerStoreError Roster := do
  match roster.members[roster.issuer]? with
  | none => .error invalid
  | some me => do
    let roster ← roster.readmit roster.issuer me
    roster.readmit issuerId issuer

/-- Drop the members whose admission was removed; a removed device keeps only its own
record. -/
def Roster.retainActive (roster : Roster) : Roster :=
  let roster : Roster := { roster with
    members := roster.members.filter fun id member =>
      id = roster.issuer || roster.removed[id]?.all fun removed => removed < member.admission }
  if roster.active then roster
  else { roster with members := roster.members.filter fun id _ => id = roster.issuer }

/-- A device that is removed here, or that its own roster or ours removes, may not
change the group. -/
def Roster.excludes (roster remote : Roster) (issuer : Member) : Bool :=
  roster.removedDevice remote.issuer ||
    (remote.removed[remote.issuer]?.any fun removed => issuer.admission ≤ removed) ||
    roster.removed[remote.issuer]?.any fun removed => issuer.admission ≤ removed

/-- Whether another roster claims an admission or a removal of this device that this
device has not taken part in. -/
def Roster.oversteps (roster remote : Roster) (me : Member) : Bool :=
  (remote.members[roster.issuer]?.any fun member => me.admission < member.admission) ||
    remote.removed[roster.issuer]?.any fun removed => me.admission < removed

def Roster.combine (roster remote : Roster) (issuer : Member) (explicitAdmission : Bool) :
    Except PeerStoreError Roster := do
  let removed ← remote.removed.foldlM mergeRemoval roster.removed
  let members ← remote.members.foldlM (mergeMember roster.issuer remote.issuer removed)
    roster.members
  let merged : Roster := ⟨roster.issuer, members, removed⟩
  let merged ← if explicitAdmission then merged.admitExplicitly remote.issuer issuer
    else pure merged
  return merged.retainActive

def GroupState.merge (state : GroupState) (incoming : GroupSnapshot) (explicitAdmission : Bool) :
    Except PeerStoreError (GroupState × Bool) := do
  incoming.validate crypto
  let remote := incoming.roster
  match remote.members[remote.issuer]? with
  | none => .error invalid
  | some issuer =>
    if remote.issuer = state.roster.issuer then return (state, false)
    else if state.roster.members[remote.issuer]?.any fun known => !sameKeys known issuer then
      .error invalid
    else if !explicitAdmission && state.roster.excludes remote issuer then .error .revoked
    else
      match state.roster.members[state.roster.issuer]? with
      | none => .error invalid
      | some me =>
        if state.roster.oversteps remote me then .error invalid
        else
          let roster ← state.roster.combine remote issuer explicitAdmission
          if maxPairings + 1 < roster.members.size then .error .tooManyPairings
          else
            let merged : GroupState := { state with roster := roster }
            if state.roster = roster then return (merged, false)
            else
              merged.validate crypto
              return (merged, true)

/-- One paired device. -/
structure Peer where
  pairingId : String
  deviceId : Option String
  name : String
  psk : Bytes
  lastAddr : Option SocketAddr
  lastSeenMs : Int
  profile : Option DeviceProfile
  profileObservedAtMs : Int
  deriving DecidableEq, Repr

def maxAdvertisedIdLen : Nat := 64

def isValidPairingId (id : String) : Bool :=
  id != "" && decide (id.utf8ByteSize ≤ maxAdvertisedIdLen) && id.toList.all isIdByte

/-- The credential two members derive for each other, from both keys, ids and
admissions in one order. -/
def derive (exchange : Bytes) (me member : Member) : Except PeerStoreError (String × Bytes) :=
  match crypto.diffieHellman exchange member.exchangeKey with
  | none => .error invalid
  | some shared =>
    let mine := (me.deviceId, me.exchangeKey, me.admission)
    let theirs := (member.deviceId, member.exchangeKey, member.admission)
    let context := crypto.pairText
      (if me.deviceId ≤ member.deviceId then (mine, theirs) else (theirs, mine))
    let pairingId := groupPairingHead ++ crypto.digest context
    if isValidPairingId pairingId then .ok (pairingId, crypto.expand shared context)
    else .error invalid

def GroupState.peers (state : GroupState) : Except PeerStoreError (List Peer) :=
  if !state.roster.active then .ok []
  else
    match state.roster.members[state.roster.issuer]? with
    | none => .error invalid
    | some me =>
      (state.roster.members.toList.filter fun (_, member) =>
        member.deviceId ≠ me.deviceId && state.roster.isActive member.deviceId).mapM
          fun (_, member) => do
            let (pairingId, psk) ← derive crypto state.identity.exchange me member
            return ⟨pairingId, some member.deviceId, member.name, psk, member.listenAddr, 0, none,
              0⟩

/-- Texts and keys in the open, with the shape of the real ones: for runs on fixed
inputs. -/
def openCrypto : Crypto where
  verifyingKey := id
  publicKey := id
  sign := openSignature
  verify := fun key text signature => signature = openSignature key text
  diffieHellman := fun secret key => some (List.zipWith (· + ·) secret key)
  expand := fun shared _ => shared
  digest := fun text => String.ofList ((text.take 40).map openLetter)
  rosterText := fun roster =>
    roster.members.toList.flatMap fun (id, member) => openText id ++ [member.admission.toUInt8]
  pairText := fun ((id, _, admission), (id', _, admission')) =>
    openText id ++ [admission.toUInt8] ++ openText id' ++ [admission'.toUInt8]
where
  openText (text : String) : Bytes := text.toList.map fun c => c.toNat.toUInt8
  openLetter (byte : UInt8) : Char := Char.ofNat (97 + byte.toNat % 26)
  openSignature (key text : Bytes) : String :=
    String.ofList (((key ++ text).map openLetter ++ List.replicate 128 'a').take 128)

end CopyPaste.Peers.Group
