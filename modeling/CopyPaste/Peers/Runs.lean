import CopyPaste.Lib.Guarded
import CopyPaste.Peers.Projection

/-!
Runs of a peer store: any operations in any order, each with a write of the file that
succeeds or fails. What one operation can do to the state is said once, for all that
is proved about runs.
-/

namespace CopyPaste.Peers.Runs

open Std Lib.Guarded Peers.Group Store Projection

/-- A peer store, and the slots read by ceremonies that may still come back to them. -/
structure System where
  store : PeerStore := {}
  tickets : List PeerSnapshot := []

/-- The operations; `saved` says whether the file could be written. -/
inductive Act
  | upsert (saved : Bool) (peer : Peer)
  | touch (saved : Bool) (peer : Peer)
  | snapshot (pairingId : String)
  | upsertFromAdmission (saved : Bool) (ticket : PeerSnapshot) (peer : Peer)
      (admission : Option PairAdmissions)
  | restore (saved : Bool) (ticket : PeerSnapshot)
  | remove (saved : Bool) (pairingId : String)
  | revoke (saved : Bool) (pairingId : String) (nowMs : Int)
  | revokeAll (saved : Bool) (nowMs : Int)
  | groupSnapshot (saved : Bool) (identity : Identity) (id name : String) (profile : DeviceProfile)
      (addr : Option SocketAddr)
  | mergeGroup (saved : Bool) (snapshot : GroupSnapshot) (pairingId : Option String)
      (explicit : Bool)
  | confirmGroupAdmission (saved : Bool) (pairingId : String)
  | flush (saved : Bool)

variable (host : Host)

def step (s : System) : Act → Option System
  | .upsert saved peer => some { s with store := (s.store.upsert host saved peer).1 }
  | .touch saved peer => some { s with store := (s.store.touch host saved peer).1 }
  | .snapshot pairingId => some { s with tickets := s.store.snapshot pairingId :: s.tickets }
  | .upsertFromAdmission saved ticket peer admission =>
    if ticket ∈ s.tickets then
      match s.store.upsertFromAdmission host saved ticket peer admission with
      | (store, .ok advanced) => some { store := store, tickets := advanced :: s.tickets }
      | (store, .error _) => some { s with store := store }
    else none
  | .restore saved ticket =>
    if ticket ∈ s.tickets then some { s with store := (s.store.restore host saved ticket).1 }
    else none
  | .remove saved pairingId => some { s with store := (s.store.remove host saved pairingId).1 }
  | .revoke saved pairingId nowMs =>
    some { s with store := (s.store.revoke host saved pairingId nowMs).1 }
  | .revokeAll saved nowMs => some { s with store := (s.store.revokeAll host saved nowMs).1 }
  | .groupSnapshot saved identity id name profile addr =>
    some { s with store := (groupSnapshot host s.store saved identity id name profile addr).1 }
  | .mergeGroup saved snapshot pairingId explicit =>
    some { s with store := (mergeGroup host s.store saved snapshot pairingId explicit).1 }
  | .confirmGroupAdmission saved pairingId =>
    some { s with store := (confirmGroupAdmission host s.store saved pairingId).1 }
  | .flush saved => some { s with store := (s.store.flush host saved).1 }

def machine : Machine System Act where
  start := fun s => s = {}
  step := step host

/-- The state an operation goes to when it goes through, the count of writes aside. -/
def Changes (state : State) : Act → State → Prop
  | .upsert _ peer, next =>
    state.checkUpsert peer none = .ok () ∧ next = state.withPeer peer none
  | .touch _ peer, next =>
    state.checkUpsert peer none = .ok () ∧ next = state.withPeer peer none
  | .snapshot _, _ => False
  | .upsertFromAdmission _ _ peer admission, next =>
    state.checkUpsert peer admission = .ok () ∧ next = state.withPeer peer admission
  | .restore _ ticket, next => next = state.restoreSlot ticket
  | .remove _ pairingId, next =>
    ∃ peer group, state.peers[pairingId]? = some peer ∧
      removeMember state.group peer.deviceId = .ok group ∧
      next = ({ state with group := group } : State).dropSlot pairingId
  | .revoke _ pairingId nowMs, next =>
    validatePairingId pairingId = .ok () ∧
      (state.revoked.contains pairingId = true ∨ state.revoked.size < maxRevocations) ∧
      ∃ group, removeMember state.group (state.peers[pairingId]?.bind Peer.deviceId) = .ok group ∧
        next = ({ state with
          group := group
          revoked := state.revoked.insert pairingId nowMs } : State).dropSlot pairingId
  | .revokeAll _ nowMs, next =>
    ∃ group, state.peers.toList.foldlM
        (fun group entry => removeMember group entry.2.deviceId) state.group = .ok group ∧
      next = { state with
        group := group
        peers := ∅
        groupAdmissions := ∅
        pairAdmissions := ∅
        revoked := (state.peers.toList.map Prod.fst).foldl (fun revoked id => revoked.insert id nowMs)
          state.revoked }
  | .groupSnapshot _ identity id name profile addr, next =>
    ∃ group snapshot, groupNext host state.group identity id name profile addr = .ok (group, true) ∧
      group.snapshot host.toCrypto = .ok snapshot ∧ snapshot.validate host.toCrypto = .ok () ∧
      next = { state with group := some group }
  | .mergeGroup _ snapshot pairingId explicit, next =>
    mergeNext host state snapshot pairingId explicit = .ok (some next)
  | .confirmGroupAdmission _ pairingId, next => confirmNext host state pairingId = .ok next
  | .flush _, next => next = state

/-- A state without the count of writes, which the file does not have. -/
def content (state : State) : State := { state with generations := ∅ }

/-- A change that reached the memory: the file has it, or has to be flushed. -/
structure Commits (store : PeerStore) (next : State) (after : PeerStore) : Prop where
  memory : content after.state = content next
  disk : after.file = some (host.encode (fileOf next)) ∧ after.unflushed = false ∨
    after.file = store.file ∧ after.unflushed = true

theorem content_bump (state : State) (pairingId : String) :
    content (state.bump pairingId) = content state := by
  unfold State.bump content
  split <;> rfl

theorem content_foldl_bump (ids : List String) (state : State) :
    content (ids.foldl State.bump state) = content state := by
  induction ids generalizing state with
  | nil => rfl
  | cons id rest ih => rw [List.foldl_cons, ih, content_bump]

theorem commits_of_persist {store written : PeerStore} {saved : Bool} {next state : State}
    (h : store.persist host saved next = some written) (hstate : content state = content next) :
    Commits host store next { written with state := state } := by
  unfold PeerStore.persist at h
  split at h
  · obtain rfl := Option.some.inj h
    exact ⟨hstate, Or.inl ⟨rfl, rfl⟩⟩
  · simp at h

theorem upsertCertified_cases (store : PeerStore) (saved : Bool) (peer : Peer)
    (admission : Option PairAdmissions) :
    ((store.upsertCertified host saved peer admission).1 = store ∧
      ∃ e, (store.upsertCertified host saved peer admission).2 = .error e) ∨
    (store.state.checkUpsert peer admission = .ok () ∧
      (store.upsertCertified host saved peer admission).2 = .ok () ∧
      Commits host store (store.state.withPeer peer admission)
        (store.upsertCertified host saved peer admission).1) := by
  unfold PeerStore.upsertCertified
  cases hcheck : store.state.checkUpsert peer admission with
  | error e => exact Or.inl ⟨rfl, e, rfl⟩
  | ok _ =>
    simp only
    split
    · exact Or.inr ⟨trivial, rfl, content_bump _ _, Or.inr ⟨rfl, rfl⟩⟩
    · cases hpersist : store.persist host saved (store.state.withPeer peer admission) with
      | none => exact Or.inl ⟨rfl, .io, rfl⟩
      | some written =>
        exact Or.inr ⟨trivial, rfl, commits_of_persist host hpersist (content_bump _ _)⟩

/-- The memory after an insertion, with the count of writes. -/
theorem upsertCertified_state (store : PeerStore) (saved : Bool) (peer : Peer)
    (admission : Option PairAdmissions) :
    (store.upsertCertified host saved peer admission).1 = store ∧
      (∃ e, (store.upsertCertified host saved peer admission).2 = .error e) ∨
    (store.upsertCertified host saved peer admission).1.state =
      (store.state.withPeer peer admission).bump peer.pairingId ∧
      (store.upsertCertified host saved peer admission).2 = .ok () := by
  unfold PeerStore.upsertCertified
  split
  · exact Or.inl ⟨rfl, _, rfl⟩
  simp only
  split
  · exact Or.inr ⟨rfl, rfl⟩
  split
  · exact Or.inr ⟨rfl, rfl⟩
  · exact Or.inl ⟨rfl, _, rfl⟩

/-- What an operation does to a store: nothing, or the change it stands for. -/
def Does (store : PeerStore) (act : Act) (after : PeerStore) : Prop :=
  after = store ∨ ∃ next, Changes host store.state act next ∧ Commits host store next after

/-- A change that was made was also reported. -/
theorem remove_cases (store : PeerStore) (saved : Bool) (pairingId : String) :
    (store.remove host saved pairingId).1 = store ∨
      (store.remove host saved pairingId).2 = .ok true ∧
        ∃ next, Changes host store.state (.remove saved pairingId) next ∧
          Commits host store next (store.remove host saved pairingId).1 := by
  unfold PeerStore.remove
  split
  · exact Or.inl rfl
  rename_i peer hpeer
  split
  · exact Or.inl rfl
  rename_i group hgroup
  simp only
  split
  · rename_i written hpersist
    exact Or.inr ⟨rfl, _, ⟨peer, group, hpeer, hgroup, rfl⟩,
      commits_of_persist host hpersist (content_bump _ _)⟩
  · exact Or.inl rfl

theorem revoke_cases (store : PeerStore) (saved : Bool) (pairingId : String) (nowMs : Int) :
    (store.revoke host saved pairingId nowMs).1 = store ∨
      (store.revoke host saved pairingId nowMs).2 = .ok (store.state.peers.contains pairingId) ∧
        ∃ next, Changes host store.state (.revoke saved pairingId nowMs) next ∧
          Commits host store next (store.revoke host saved pairingId nowMs).1 := by
  unfold PeerStore.revoke
  split
  · exact Or.inl rfl
  rename_i hvalid
  split
  · exact Or.inl rfl
  rename_i hroom
  split
  · exact Or.inl rfl
  rename_i group hgroup
  simp only
  split
  · rename_i written hpersist
    refine Or.inr ⟨rfl, _, ⟨hvalid, ?_, group, hgroup, rfl⟩,
      commits_of_persist host hpersist (content_bump _ _)⟩
    by_cases hknown : store.state.revoked.contains pairingId = true
    · exact Or.inl hknown
    · exact Or.inr (Nat.lt_of_not_le fun hfull => hroom ⟨by simp [hknown], hfull⟩)
  · exact Or.inl rfl

theorem revokeAll_does (store : PeerStore) (saved : Bool) (nowMs : Int) :
    Does host store (.revokeAll saved nowMs) (store.revokeAll host saved nowMs).1 := by
  unfold PeerStore.revokeAll
  split
  · exact Or.inl rfl
  split
  · exact Or.inl rfl
  rename_i group hgroup
  simp only
  split
  · rename_i written hpersist
    exact Or.inr ⟨_, ⟨group, hgroup, rfl⟩,
      commits_of_persist host hpersist (content_foldl_bump _ _)⟩
  · exact Or.inl rfl

theorem restore_commits (store : PeerStore) (saved : Bool) (ticket : PeerSnapshot) :
    Commits host store (store.state.restoreSlot ticket) (store.restore host saved ticket).1 := by
  have hfile : fileOf ((store.state.restoreSlot ticket).bump ticket.pairingId) =
      fileOf (store.state.restoreSlot ticket) := by
    unfold State.bump
    split <;> rfl
  unfold PeerStore.restore PeerStore.persist
  cases saved with
  | true => exact ⟨content_bump _ _, Or.inl ⟨by simp [hfile], by simp⟩⟩
  | false => exact ⟨content_bump _ _, Or.inr ⟨rfl, rfl⟩⟩

theorem groupSnapshot_does (store : PeerStore) (saved : Bool) (identity : Identity)
    (id name : String) (profile : DeviceProfile) (addr : Option SocketAddr) :
    Does host store (.groupSnapshot saved identity id name profile addr)
      (groupSnapshot host store saved identity id name profile addr).1 := by
  unfold groupSnapshot
  split
  · exact Or.inl rfl
  rename_i group changed hnext
  split
  · exact Or.inl rfl
  rename_i snapshot hsnapshot
  cases changed with
  | false => exact Or.inl rfl
  | true =>
    simp only [Bool.not_true, Bool.false_eq_true, if_false]
    split
    · exact Or.inl rfl
    rename_i hvalid
    split
    · rename_i written hpersist
      exact Or.inr ⟨_, ⟨group, snapshot, hnext, hsnapshot, hvalid, rfl⟩,
        commits_of_persist host hpersist rfl⟩
    · exact Or.inl rfl

theorem mergeGroup_does (store : PeerStore) (saved : Bool) (snapshot : GroupSnapshot)
    (pairingId : Option String) (explicit : Bool) :
    Does host store (.mergeGroup saved snapshot pairingId explicit)
      (mergeGroup host store saved snapshot pairingId explicit).1 := by
  unfold mergeGroup
  split
  · exact Or.inl rfl
  · exact Or.inl rfl
  rename_i next hnext
  split
  · exact Or.inl rfl
  · rename_i written hpersist
    exact Or.inr ⟨next, hnext, commits_of_persist host hpersist (content_foldl_bump _ _)⟩

theorem confirmGroupAdmission_does (store : PeerStore) (saved : Bool) (pairingId : String) :
    Does host store (.confirmGroupAdmission saved pairingId)
      (confirmGroupAdmission host store saved pairingId).1 := by
  unfold confirmGroupAdmission
  split
  · exact Or.inl rfl
  rename_i next hnext
  split
  · exact Or.inl rfl
  · rename_i written hpersist
    exact Or.inr ⟨next, hnext, commits_of_persist host hpersist rfl⟩

theorem flush_does (store : PeerStore) (saved : Bool) :
    Does host store (.flush saved) (store.flush host saved).1 := by
  unfold PeerStore.flush
  split
  · exact Or.inl rfl
  split
  · rename_i written hpersist
    unfold PeerStore.persist at hpersist
    split at hpersist
    · obtain rfl := Option.some.inj hpersist
      exact Or.inr ⟨store.state, rfl, rfl, Or.inl ⟨rfl, rfl⟩⟩
    · simp at hpersist
  · exact Or.inl rfl

theorem touch_does (store : PeerStore) (saved : Bool) (peer : Peer) :
    Does host store (.touch saved peer) (store.touch host saved peer).1 := by
  unfold PeerStore.touch
  split
  · rcases upsertCertified_cases host store saved peer none with ⟨hsame, -⟩ | ⟨hcheck, -, hcommits⟩
    · exact Or.inl hsame
    · exact Or.inr ⟨_, ⟨hcheck, rfl⟩, hcommits⟩
  · exact Or.inl rfl

theorem upsertFromAdmission_cases (store : PeerStore) (saved : Bool) (ticket : PeerSnapshot)
    (peer : Peer) (admission : Option PairAdmissions) :
    ((store.upsertFromAdmission host saved ticket peer admission).1 = store ∧
      ∃ e, (store.upsertFromAdmission host saved ticket peer admission).2 = .error e) ∨
    (store.state.checkUpsert peer admission = .ok () ∧
      (store.upsertFromAdmission host saved ticket peer admission).2 = .ok { ticket with
        generation := (store.upsertFromAdmission host saved ticket peer admission).1.state.generation
          ticket.pairingId } ∧
      Commits host store (store.state.withPeer peer admission)
        (store.upsertFromAdmission host saved ticket peer admission).1) := by
  have hcases := upsertCertified_cases host store saved peer admission
  unfold PeerStore.upsertFromAdmission
  split
  · exact Or.inl ⟨rfl, .contended, rfl⟩
  · generalize store.upsertCertified host saved peer admission = out at *
    obtain ⟨after, result⟩ := out
    rcases hcases with ⟨hsame, e, herror⟩ | ⟨hcheck, hok, hcommits⟩
    · simp only at herror
      exact Or.inl ⟨hsame, e, by simp [herror, Except.map]⟩
    · simp only at hok
      exact Or.inr ⟨hcheck, by simp [hok, Except.map], hcommits⟩

/-- A step changes the store as its operation does, and the tickets it adds were read
off the store or advanced by a write. -/
theorem step_cases {s s' : System} {act : Act} (h : step host s act = some s') :
    Does host s.store act s'.store ∧
      ∀ ticket ∈ s'.tickets, (∃ pairingId, ticket = s.store.snapshot pairingId) ∨
        ∃ known ∈ s.tickets, ticket.pairingId = known.pairingId ∧
          ticket.previous = known.previous ∧
          ticket.previousAdmission = known.previousAdmission := by
  have hkept : ∀ ticket ∈ s.tickets, (∃ pairingId, ticket = s.store.snapshot pairingId) ∨
      ∃ known ∈ s.tickets, ticket.pairingId = known.pairingId ∧
        ticket.previous = known.previous ∧ ticket.previousAdmission = known.previousAdmission :=
    fun ticket hticket => Or.inr ⟨ticket, hticket, rfl, rfl, rfl⟩
  cases act with
  | upsert saved peer =>
    obtain rfl := Option.some.inj h
    refine ⟨?_, hkept⟩
    rcases upsertCertified_cases host s.store saved peer none with ⟨hsame, -⟩ | ⟨hcheck, -, hcommits⟩
    · exact Or.inl hsame
    · exact Or.inr ⟨_, ⟨hcheck, rfl⟩, hcommits⟩
  | touch saved peer =>
    obtain rfl := Option.some.inj h
    exact ⟨touch_does host s.store saved peer, hkept⟩
  | snapshot pairingId =>
    obtain rfl := Option.some.inj h
    refine ⟨Or.inl rfl, fun ticket hticket => ?_⟩
    rcases List.mem_cons.1 hticket with rfl | hticket
    · exact Or.inl ⟨pairingId, rfl⟩
    · exact hkept ticket hticket
  | upsertFromAdmission saved ticket peer admission =>
    simp only [step] at h
    split at h
    · rename_i hmem
      have hcases := upsertFromAdmission_cases host s.store saved ticket peer admission
      generalize s.store.upsertFromAdmission host saved ticket peer admission = out at *
      obtain ⟨after, result⟩ := out
      rcases hcases with ⟨hsame, e, herror⟩ | ⟨hcheck, hok, hcommits⟩
      · simp only at hsame herror
        subst hsame herror
        obtain rfl := Option.some.inj h
        exact ⟨Or.inl rfl, hkept⟩
      · simp only at hok hcommits
        subst hok
        obtain rfl := Option.some.inj h
        refine ⟨Or.inr ⟨_, ⟨hcheck, rfl⟩, hcommits⟩, fun other hother => ?_⟩
        rcases List.mem_cons.1 hother with rfl | hother
        · exact Or.inr ⟨ticket, hmem, rfl, rfl, rfl⟩
        · exact hkept other hother
    · simp at h
  | restore saved ticket =>
    simp only [step] at h
    split at h
    · obtain rfl := Option.some.inj h
      exact ⟨Or.inr ⟨_, rfl, restore_commits host s.store saved ticket⟩, hkept⟩
    · simp at h
  | remove saved pairingId =>
    obtain rfl := Option.some.inj h
    exact ⟨(remove_cases host s.store saved pairingId).imp_right And.right, hkept⟩
  | revoke saved pairingId nowMs =>
    obtain rfl := Option.some.inj h
    exact ⟨(revoke_cases host s.store saved pairingId nowMs).imp_right And.right, hkept⟩
  | revokeAll saved nowMs =>
    obtain rfl := Option.some.inj h
    exact ⟨revokeAll_does host s.store saved nowMs, hkept⟩
  | groupSnapshot saved identity id name profile addr =>
    obtain rfl := Option.some.inj h
    exact ⟨groupSnapshot_does host s.store saved identity id name profile addr, hkept⟩
  | mergeGroup saved snapshot pairingId explicit =>
    obtain rfl := Option.some.inj h
    exact ⟨mergeGroup_does host s.store saved snapshot pairingId explicit, hkept⟩
  | confirmGroupAdmission saved pairingId =>
    obtain rfl := Option.some.inj h
    exact ⟨confirmGroupAdmission_does host s.store saved pairingId, hkept⟩
  | flush saved =>
    obtain rfl := Option.some.inj h
    exact ⟨flush_does host s.store saved, hkept⟩

end CopyPaste.Peers.Runs
