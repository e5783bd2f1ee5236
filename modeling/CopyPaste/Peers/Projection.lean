import CopyPaste.Peers.Store

/-!
The group in the peer store. A merged roster is projected onto the records: the
pairings of removed devices go, and every other member has a credential, the one the
two devices made themselves or the one they derive from the roster.
-/

namespace CopyPaste.Peers.Projection

open Lib.Checks Std Lib.Tables Peers.Group Store

variable (host : Host)

/-- The group with its own record brought up to date, and whether that changed it.
`identity` are the keys drawn for a group that does not exist yet. -/
def groupNext (group : Option GroupState) (identity : Identity) (id name : String)
    (profile : DeviceProfile) (addr : Option SocketAddr) :
    Except PeerStoreError (GroupState × Bool) :=
  match group with
  | none => (GroupState.new host.toCrypto identity id name profile addr).map fun group =>
      (group, true)
  | some group =>
    if group.roster.localMatches id name profile addr then .ok (group, false)
    else (group.roster.updateLocal id name profile addr).map fun (roster, changed) =>
      ({ group with roster := roster }, changed)

/-- Export the own roster. -/
def groupSnapshot (store : PeerStore) (saved : Bool) (identity : Identity) (id name : String)
    (profile : DeviceProfile) (addr : Option SocketAddr) :
    PeerStore × Except PeerStoreError GroupSnapshot :=
  match groupNext host store.state.group identity id name profile addr with
  | .error e => (store, .error e)
  | .ok (group, changed) =>
    match group.snapshot host.toCrypto with
    | .error e => (store, .error e)
    | .ok snapshot =>
      if !changed then (store, .ok snapshot)
      else
        match snapshot.validate host.toCrypto with
        | .error e => (store, .error e)
        | .ok () =>
          let next := { store.state with group := some group }
          match store.persist host saved next with
          | some written => ({ written with state := next }, .ok snapshot)
          | none => (store, .error .io)

/-- Whether a record stays under the group: its device is not removed, or the users
have just confirmed it with a sufficient admission. A record of no known device stays
under the present local admission. -/
def keepsPeer (group : Roster) (state : State) (peer : Peer) : Bool :=
  match peer.deviceId with
  | none =>
    match group.localAdmission with
    | .ok required => required ≤ (state.pairAdmissions[peer.pairingId]?.getD {}).localSide
    | .error _ => u64Max ≤ (state.pairAdmissions[peer.pairingId]?.getD {}).localSide
  | some id =>
    !group.removedDevice id ||
      (state.groupAdmissions.contains peer.pairingId &&
        state.pairAdmissions[peer.pairingId]?.any fun admission =>
          match group.desiredAdmission id with
          | .ok required => required ≤ admission.remote
          | .error _ => false)

/-- The credential of one member, unless a working one is stored. -/
def projectPeer (group : Roster) (previous : Option GroupState) (state : State) (peer : Peer) :
    Except PeerStoreError State := do
  Peer.validate peer
  match peer.deviceId with
  | none => .error .corrupt
  | some device =>
    let admission ← group.pairAdmissions device
    let existing := (state.peers.toList.find? fun entry => entry.2.deviceId = peer.deviceId).map
      fun entry => entry.2.pairingId
    let insertInto (state : State) : Except PeerStoreError State :=
      if state.revoked.contains peer.pairingId then .error .revoked
      else if maxPairings ≤ state.peers.size then .error .tooManyPairings
      else
        .ok { state with
          pairAdmissions := state.pairAdmissions.insert peer.pairingId admission
          peers := state.peers.insert peer.pairingId peer }
    match existing with
    | none => insertInto state
    | some id =>
      if (!groupPairingHead.toList.isPrefixOf id.toList &&
          (state.pairAdmissions[id]?.getD {}) = admission) || id = peer.pairingId then
        if group.members[device]? ≠ previous.bind fun group => group.roster.members[device]? then
          match state.peers[id]? with
          | none => .error .corrupt
          | some stored =>
            .ok { state with
              peers := state.peers.insert id { stored with
                name := peer.name
                lastAddr := peer.lastAddr <|> stored.lastAddr } }
        else .ok state
      else insertInto (state.dropSlot id)

/-- What the credential of one member can do to the records. -/
inductive Projected (state : State) (peer : Peer) (admission : PairAdmissions) : State → Prop
  | kept : Projected state peer admission state
  | renamed (id : String) (stored : Peer) (name : String) (addr : Option SocketAddr)
      (hstored : state.peers[id]? = some stored) :
      Projected state peer admission
        { state with peers := state.peers.insert id { stored with name := name, lastAddr := addr } }
  | derived (base : State)
      (hbase : base = state ∧ (∀ (id : String) (stored : Peer), state.peers[id]? = some stored →
          stored.deviceId ≠ peer.deviceId) ∨
        ∃ (id : String) (stored : Peer), state.peers[id]? = some stored ∧
          stored.deviceId = peer.deviceId ∧ base = state.dropSlot stored.pairingId)
      (hrevoked : peer.pairingId ∉ base.revoked) (hroom : base.peers.size < maxPairings) :
      Projected state peer admission
        { base with
          pairAdmissions := base.pairAdmissions.insert peer.pairingId admission
          peers := base.peers.insert peer.pairingId peer }

variable {previous : Option GroupState} {state next : State}

theorem projectPeer_cases {group : Roster} {peer : Peer}
    (h : projectPeer group previous state peer = .ok next) :
    Peer.validate peer = .ok () ∧ ∃ device admission, peer.deviceId = some device ∧
      group.pairAdmissions device = .ok admission ∧ Projected state peer admission next := by
  unfold projectPeer at h
  obtain ⟨_, hvalid, h⟩ := bind_ok_iff.1 h
  cases hdevice : peer.deviceId with
  | none =>
    rw [hdevice] at h
    cases h
  | some device =>
  rw [hdevice] at h
  obtain ⟨admission, hadmission, h⟩ := bind_ok_iff.1 h
  refine ⟨hvalid, device, admission, rfl, hadmission, ?_⟩
  have hinsert : ∀ base : State,
      (base = state ∧ (∀ (id : String) (stored : Peer), state.peers[id]? = some stored →
          stored.deviceId ≠ peer.deviceId) ∨
        ∃ (id : String) (stored : Peer), state.peers[id]? = some stored ∧
          stored.deviceId = peer.deviceId ∧ base = state.dropSlot stored.pairingId) →
      (if base.revoked.contains peer.pairingId then Except.error PeerStoreError.revoked
        else if maxPairings ≤ base.peers.size then .error .tooManyPairings
        else .ok { base with
          pairAdmissions := base.pairAdmissions.insert peer.pairingId admission
          peers := base.peers.insert peer.pairingId peer }) = Except.ok next →
      Projected state peer admission next := by
    intro base hbase hnext
    split at hnext
    · simp at hnext
    rename_i hrevoked
    split at hnext
    · simp at hnext
    rename_i hroom
    obtain rfl := Except.ok.inj hnext
    exact .derived base hbase (by simpa using hrevoked) (Nat.lt_of_not_le hroom)
  dsimp only at h
  cases hfound : state.peers.toList.find? fun entry => decide (entry.2.deviceId = some device) with
  | none =>
    simp only [hfound, Option.map_none] at h
    refine hinsert state (Or.inl ⟨rfl, fun id stored hstored => ?_⟩) h
    rw [hdevice]
    have hnot := List.find?_eq_none.1 hfound (id, stored)
      (ExtTreeMap.mem_toList_iff_getElem?_eq_some.2 hstored)
    simpa using hnot
  | some entry =>
    have hcarries : entry.2.deviceId = peer.deviceId := by
      rw [hdevice]
      simpa using List.find?_some hfound
    have hstored : state.peers[entry.1]? = some entry.2 :=
      ExtTreeMap.mem_toList_iff_getElem?_eq_some.1 (List.mem_of_find?_eq_some hfound)
    simp only [hfound, Option.map_some] at h
    split at h
    · split at h
      · split at h
        · simp at h
        · rename_i stored hthere
          obtain rfl := Except.ok.inj h
          exact .renamed entry.2.pairingId stored peer.name (peer.lastAddr <|> stored.lastAddr) hthere
      · obtain rfl := Except.ok.inj h
        exact .kept
    · exact hinsert _ (Or.inr ⟨entry.1, entry.2, hstored, hcarries, rfl⟩) h

/-- The records under the group. -/
def project (state : State) (previous : Option GroupState) : Except PeerStoreError State :=
  match state.group with
  | none => .ok state
  | some group =>
    if !group.roster.active then
      .ok { state with peers := ∅, groupAdmissions := ∅, pairAdmissions := ∅ }
    else do
      let peers := state.peers.filter fun _ peer => keepsPeer group.roster state peer
      let kept : State := { state with
        peers := peers
        groupAdmissions := state.groupAdmissions.filter fun id _ => peers.contains id }
      let derived ← group.peers host.toCrypto
      let projected ← derived.foldlM (projectPeer group.roster previous) kept
      return { projected with
        pairAdmissions := projected.pairAdmissions.filter fun id _ => projected.peers.contains id }

/-- The records that stay under the group, before its members are given theirs. -/
def keptUnder (group : Roster) (state : State) : State :=
  let peers := state.peers.filter fun _ peer => keepsPeer group state peer
  { state with
    peers := peers
    groupAdmissions := state.groupAdmissions.filter fun id _ => peers.contains id }

theorem project_cases (h : project host state previous = .ok next) :
    state.group = none ∧ next = state ∨
    ∃ group, state.group = some group ∧
      (group.roster.active = false ∧
          next = { state with peers := ∅, groupAdmissions := ∅, pairAdmissions := ∅ } ∨
        group.roster.active = true ∧ ∃ derived projected,
          group.peers host.toCrypto = .ok derived ∧
          derived.foldlM (projectPeer group.roster previous) (keptUnder group.roster state) =
            .ok projected ∧
          next = { projected with
            pairAdmissions :=
              projected.pairAdmissions.filter fun id _ => projected.peers.contains id }) := by
  unfold project at h
  split at h
  · rename_i hgroup
    exact Or.inl ⟨hgroup, (Except.ok.inj h).symm⟩
  rename_i group hgroup
  refine Or.inr ⟨group, hgroup, ?_⟩
  cases hactive : group.roster.active with
  | false =>
    simp only [hactive, Bool.not_false, if_true] at h
    exact Or.inl ⟨rfl, (Except.ok.inj h).symm⟩
  | true =>
    simp only [hactive, Bool.not_true, Bool.false_eq_true, if_false] at h
    obtain ⟨derived, hderived, h⟩ := bind_ok_iff.1 h
    obtain ⟨projected, hprojected, h⟩ := bind_ok_iff.1 h
    exact Or.inr ⟨rfl, derived, projected, hderived, hprojected, (Except.ok.inj h).symm⟩

/-- A projection changes the records, and neither the group nor the bars. -/
theorem project_frame (hnext : project host state previous = .ok next) :
    next.group = state.group ∧ next.revoked = state.revoked := by
  rcases project_cases host hnext with ⟨-, rfl⟩ | ⟨group, -, ⟨-, rfl⟩ |
    ⟨-, derived, projected, -, hpass, rfl⟩⟩
  · exact ⟨rfl, rfl⟩
  · exact ⟨rfl, rfl⟩
  · have hkept : (keptUnder group.roster state).group = state.group ∧
        (keptUnder group.roster state).revoked = state.revoked := ⟨rfl, rfl⟩
    show projected.group = state.group ∧ projected.revoked = state.revoked
    refine foldlM_keeps (fun acc : State => acc.group = state.group ∧ acc.revoked = state.revoked)
      derived ?_ hkept hpass
    intro acc acc' peer _ hacc hstep
    obtain ⟨-, device, admission, -, -, hprojected⟩ := projectPeer_cases hstep
    cases hprojected with
    | kept | renamed => exact hacc
    | derived base hbase _ _ =>
      rcases hbase with ⟨rfl, -⟩ | ⟨id, stored, -, -, rfl⟩
      · exact hacc
      · exact hacc

/-- The record of a pairing that a snapshot came over, bound to the device that issued
it. -/
def bindIdentity (state : State) (issuer : String) :
    Option String → Except PeerStoreError (State × Bool)
  | none => .ok (state, false)
  | some pairingId =>
    match state.peers[pairingId]? with
    | none => .error .revoked
    | some peer =>
      if peer.deviceId.any fun id => id ≠ issuer then
        .error (.invalid "group identity does not match pairing")
      else
        .ok ({ state with
          peers := state.peers.insert pairingId { peer with deviceId := some issuer } },
          peer.deviceId.isNone)

theorem bindIdentity_frame {bound : State} {issuer : String} {pairingId : Option String}
    {boundIdentity : Bool} (h : bindIdentity state issuer pairingId = .ok (bound, boundIdentity)) :
    bound.group = state.group ∧ bound.revoked = state.revoked ∧
      bound.groupAdmissions = state.groupAdmissions ∧
      bound.pairAdmissions = state.pairAdmissions := by
  cases pairingId with
  | none =>
    obtain ⟨rfl, -⟩ := Prod.mk.inj (Except.ok.inj h)
    exact ⟨rfl, rfl, rfl, rfl⟩
  | some id =>
    simp only [bindIdentity] at h
    split at h
    · simp at h
    split at h
    · simp at h
    obtain ⟨rfl, -⟩ := Prod.mk.inj (Except.ok.inj h)
    exact ⟨rfl, rfl, rfl, rfl⟩

/-- A merge over a confirmed pairing uses its marker up. -/
def unmark (marks : Table Unit) : Option String → Table Unit
  | none => marks
  | some pairingId => marks.erase pairingId

/-- The state after a snapshot has been merged, or nothing when nothing changes. -/
def mergeNext (state : State) (snapshot : GroupSnapshot) (pairingId : Option String)
    (explicit : Bool) : Except PeerStoreError (Option State) := do
  match state.group with
  | none => .error (.invalid "group is not initialized")
  | some group =>
    let (bound, boundIdentity) ← bindIdentity state snapshot.roster.issuer pairingId
    let freshSas := pairingId.any fun id => bound.groupAdmissions.contains id
    let (merged, changed) ← group.merge host.toCrypto snapshot (explicit || freshSas)
    if !changed && !freshSas && !boundIdentity then return none
    else
      let marked : State := { bound with
        group := some merged
        groupAdmissions := unmark bound.groupAdmissions pairingId }
      let next ← project host marked state.group
      if changed || decide (next.peers ≠ state.peers) ||
          decide (next.groupAdmissions ≠ state.groupAdmissions) ||
          decide (next.pairAdmissions ≠ state.pairAdmissions) then
        return some next
      else return none

theorem mergeNext_cases {out : Option State} {snapshot : GroupSnapshot} {pairingId : Option String}
    {explicit : Bool} (h : mergeNext host state snapshot pairingId explicit = .ok out) :
    ∃ group bound boundIdentity merged changed, state.group = some group ∧
      bindIdentity state snapshot.roster.issuer pairingId = .ok (bound, boundIdentity) ∧
      group.merge host.toCrypto snapshot
        (explicit || pairingId.any fun id => bound.groupAdmissions.contains id) =
          .ok (merged, changed) ∧
      ∀ next ∈ out, project host { bound with
        group := some merged
        groupAdmissions := unmark bound.groupAdmissions pairingId } state.group = .ok next := by
  unfold mergeNext at h
  split at h
  · simp at h
  rename_i group hgroup
  obtain ⟨⟨bound, boundIdentity⟩, hbound, h⟩ := bind_ok_iff.1 h
  obtain ⟨⟨merged, changed⟩, hmerge, h⟩ := bind_ok_iff.1 h
  refine ⟨group, bound, boundIdentity, merged, changed, hgroup, hbound, hmerge,
    fun next hout => ?_⟩
  obtain rfl := hout
  dsimp only at h
  split at h
  · simp [pure, Except.pure] at h
  obtain ⟨projected, hprojected, h⟩ := bind_ok_iff.1 h
  split at h
  · simp only [pure, Except.pure, Except.ok.injEq, Option.some.injEq] at h
    rw [← h]
    exact hprojected
  · simp [pure, Except.pure] at h

/-- Merge a snapshot that arrived over a pairing, or from the cloud. -/
def mergeGroup (store : PeerStore) (saved : Bool) (snapshot : GroupSnapshot)
    (pairingId : Option String) (explicit : Bool) : PeerStore × Except PeerStoreError Bool :=
  match mergeNext host store.state snapshot pairingId explicit with
  | .error e => (store, .error e)
  | .ok none => (store, .ok false)
  | .ok (some next) =>
    match store.persist host saved next with
    | none => (store, .error .io)
    | some written =>
      let ids := store.state.peers.toList.map Prod.fst ++ next.peers.toList.map Prod.fst
      ({ written with state := ids.foldl State.bump next }, .ok true)

/-- The state with a pairing confirmed by both users. -/
def confirmNext (state : State) (pairingId : String) : Except PeerStoreError State := do
  if !state.peers.contains pairingId then .error .revoked
  else
    let group ← match state.pairAdmissions[pairingId]?, state.group with
      | some admission, some group =>
        (group.roster.certifyLocal admission.localSide).map fun roster =>
          some { group with roster := roster }
      | _, group => .ok group
    project host { state with
      group := group
      groupAdmissions := state.groupAdmissions.insert pairingId () } state.group

theorem confirmNext_cases {pairingId : String} (h : confirmNext host state pairingId = .ok next) :
    pairingId ∈ state.peers ∧ ∃ group,
      (group = state.group ∨ ∃ old roster admission, state.group = some old ∧
        state.pairAdmissions[pairingId]? = some admission ∧
        old.roster.certifyLocal admission.localSide = .ok roster ∧
        group = some { old with roster := roster }) ∧
      project host { state with
        group := group
        groupAdmissions := state.groupAdmissions.insert pairingId () } state.group = .ok next := by
  unfold confirmNext at h
  split at h
  · simp at h
  rename_i hstored
  refine ⟨ExtTreeMap.mem_iff_contains.2 (by simpa using hstored), ?_⟩
  split at h
  · rename_i admission old hadmission hgroup
    cases hcertify : old.roster.certifyLocal admission.localSide with
    | error e => simp [hcertify, bind, Except.bind, Except.map] at h
    | ok roster =>
      simp only [hcertify, bind, Except.bind, Except.map] at h
      exact ⟨_, Or.inr ⟨old, roster, admission, hgroup, hadmission, hcertify, rfl⟩, h⟩
  · exact ⟨state.group, Or.inl rfl, h⟩

/-- Mark a pairing as confirmed by both users, for the next merge over it. -/
def confirmGroupAdmission (store : PeerStore) (saved : Bool) (pairingId : String) :
    PeerStore × Except PeerStoreError Unit :=
  match confirmNext host store.state pairingId with
  | .error e => (store, .error e)
  | .ok next =>
    match store.persist host saved next with
    | none => (store, .error .io)
    | some written => ({ written with state := next }, .ok ())

/-- The keys offered to an inbound handshake: of every stored pairing, under the
present local admission. -/
def psks (state : State) : List (String × Bytes) :=
  (state.peers.toList.filter fun (_, peer) =>
    !(state.group.any fun group =>
      !group.roster.active ||
        match group.roster.localAdmission with
        | .ok required => (state.pairAdmissions[peer.pairingId]?.getD {}).localSide < required
        | .error _ => false)).map fun (_, peer) => (peer.pairingId, peer.psk)

end CopyPaste.Peers.Projection
