import CopyPaste.Merge.Payload
import CopyPaste.Peers.Runs

/-!
The key of one pairing while ceremonies replace it and sessions write to it. A session
or a probe reads the record, works out what it observed and writes the whole record
back, the key with it, and nothing keeps a ceremony from writing in between.
-/

namespace CopyPaste.Peers.Rekey

open Std Lib.Guarded Lib.Tables Peers.Group Store Projection Runs

/-- The record that a finished session writes. A blank name is not taken. -/
def touchedPeer (current : Peer) (deviceId : Option String) (addr : Option SocketAddr)
    (name : Option String) (nowMs : Int) : Peer :=
  { current with
    deviceId := deviceId <|> current.deviceId
    name := match name with
      | some name => if (Merge.Payload.trim name.toList).isEmpty then current.name else name
      | none => current.name
    lastAddr := addr <|> current.lastAddr
    lastSeenMs := nowMs }

def profileTtlMs : Int := 5 * 60000
def profilePersistIntervalMs : Int := profileTtlMs / 2

/-- The record with an observed profile, unless it says so already and not too long
ago. -/
def profiledPeer (current : Peer) (profile : DeviceProfile) (observedAtMs : Int) : Option Peer :=
  if current.profile = some profile ∧
      observedAtMs - current.profileObservedAtMs < profilePersistIntervalMs then none
  else some { current with profile := some profile, profileObservedAtMs := observedAtMs }

/-- A ceremony on the pairing: the slot it read, the key it has written, and whether
the pairing was left alone since, other than by sessions. -/
structure Ceremony where
  ticket : PeerSnapshot
  written : Option Bytes := none
  standing : Bool := false

/-- The store, the records that sessions hold, those they are about to write, the open
ceremony, the keys whose ceremonies were undone, and the agreed key of the pairing
until a ceremony, a removal or a revocation replaces it. -/
structure World where
  store : PeerStore
  captured : List Peer := []
  drafts : List Peer := []
  ceremony : Option Ceremony := none
  repudiated : List Bytes := []
  agreed : Option Bytes := none

inductive Act
  | capture (pairingId : String)
  | touchPeer (captured : Peer) (deviceId : Option String) (addr : Option SocketAddr)
      (name : Option String) (nowMs : Int)
  | recordProfile (pairingId : String) (profile : DeviceProfile) (observedAtMs : Int)
  | touch (saved : Bool) (draft : Peer)
  | snapshot
  | tentative (saved : Bool) (peer : Peer) (admission : Option PairAdmissions)
  | agree
  | abandon
  | restore (saved : Bool)
  | remove (saved : Bool)
  | revoke (saved : Bool) (nowMs : Int)

def keyAt (state : State) (id : String) : Option Bytes :=
  state.peers[id]?.map Peer.psk

/-- A key drawn for a ceremony is not one that was drawn before. -/
def fresh (w : World) (ceremony : Ceremony) (key : Bytes) : Bool :=
  !(w.store.state.peers.toList.any fun entry => entry.2.psk = key) &&
    !(w.captured.any fun peer => peer.psk = key) && !(w.drafts.any fun peer => peer.psk = key) &&
    !(ceremony.ticket.previous.any fun peer => peer.psk = key) && !w.repudiated.contains key

/-- The pairing was removed or cut off. -/
def World.cutOff (w : World) (store : PeerStore) : World :=
  { w with
    store := store
    ceremony := w.ceremony.map fun ceremony => { ceremony with standing := false }
    agreed := none }

/-- A removal or a revocation, whether or not it went through. -/
def World.cut (w : World) : PeerStore × Except PeerStoreError Bool → World
  | (store, .ok _) => w.cutOff store
  | (store, .error _) => { w with store := store }

variable (host : Host) (slot : String)

def step (w : World) : Act → Option World
  | .capture pairingId =>
    w.store.state.peers[pairingId]?.map fun peer => { w with captured := peer :: w.captured }
  | .touchPeer captured deviceId addr name nowMs =>
    if captured ∈ w.captured then
      -- the record is read again; a pairing that is gone is written from the captured one
      let current := w.store.state.peers[captured.pairingId]?.getD captured
      some { w with drafts := touchedPeer current deviceId addr name nowMs :: w.drafts }
    else none
  | .recordProfile pairingId profile observedAtMs =>
    (w.store.state.peers[pairingId]?.bind fun peer => profiledPeer peer profile observedAtMs).map
      fun draft => { w with drafts := draft :: w.drafts }
  | .touch saved draft =>
    if draft ∈ w.drafts then
      some { w with
        store := (w.store.touch host saved draft).1
        drafts := w.drafts.erase draft }
    else none
  | .snapshot =>
    if w.ceremony.isNone then some { w with ceremony := some { ticket := w.store.snapshot slot } }
    else none
  | .tentative saved peer admission =>
    match w.ceremony with
    | some ceremony =>
      if ceremony.written.isNone ∧ peer.pairingId = slot ∧ fresh w ceremony peer.psk then
        match w.store.upsertFromAdmission host saved ceremony.ticket peer admission with
        | (store, .ok advanced) =>
          some { w with
            store := store
            ceremony := some ⟨advanced, some peer.psk, true⟩
            agreed := none }
        | (store, .error _) => some { w with store := store }
      else none
    | none => none
  | .agree =>
    match w.ceremony with
    | some ⟨_, some key, standing⟩ =>
      some { w with ceremony := none, agreed := if standing then some key else none }
    | _ => none
  | .abandon =>
    match w.ceremony with
    | some ⟨_, none, _⟩ => some { w with ceremony := none }
    | _ => none
  | .restore saved =>
    match w.ceremony with
    | some ⟨ticket, some key, _⟩ =>
      some { w with
        store := (w.store.restore host saved ticket).1
        ceremony := none
        repudiated := key :: w.repudiated }
    | _ => none
  | .remove saved => some (w.cut (w.store.remove host saved slot))
  | .revoke saved nowMs => some (w.cut (w.store.revoke host saved slot nowMs))

/-- From any stored pairings, with no ceremony and no session under way. -/
def machine : Machine World Act where
  start := fun w =>
    (∀ (id : String) (peer : Peer), w.store.state.peers[id]? = some peer → peer.pairingId = id) ∧
      w.captured = [] ∧ w.drafts = [] ∧ w.ceremony.isNone ∧ w.repudiated = [] ∧ w.agreed = none
  step := step host slot

/-- Every write of a session carries the key that is stored when it lands. -/
def carriesStoredKey (w : World) : Act → Prop
  | .touch _ draft =>
    ∀ stored ∈ w.store.state.peers[draft.pairingId]?, stored.psk = draft.psk
  | _ => True

instance (w : World) (act : Act) : Decidable (carriesStoredKey w act) := by
  unfold carriesStoredKey
  split <;> infer_instance

/-- What holds while a ceremony is open. The key from before is not the one it wrote. -/
structure Open (w : World) (ceremony : Ceremony) : Prop where
  slotRead : ceremony.ticket.pairingId = slot
  recordRead : ∀ peer, ceremony.ticket.previous = some peer → peer.pairingId = slot
  keyRead : ∀ peer, ceremony.ticket.previous = some peer →
    peer.psk ∉ w.repudiated ∧ ceremony.written ≠ some peer.psk
  sole : ∀ key, ceremony.written = some key → ∀ id, keyAt w.store.state id = some key → id = slot
  stands : ∀ key, ceremony.written = some key → ceremony.standing = true →
    keyAt w.store.state slot = some key
  undecided : ∀ key, ceremony.written = some key → w.agreed = none

structure Inv (w : World) : Prop where
  keyed : ∀ (id : String) (peer : Peer), w.store.state.peers[id]? = some peer → peer.pairingId = id
  clean : ∀ id key, keyAt w.store.state id = some key → key ∉ w.repudiated
  opened : ∀ ceremony, w.ceremony = some ceremony → Open slot w ceremony
  kept : ∀ key, w.agreed = some key → keyAt w.store.state slot = some key

variable {host slot}

theorem peers_of_content {state next : State} (h : content state = content next) :
    state.peers = next.peers := by
  have hpeers := congrArg State.peers h
  exact hpeers

theorem keyAt_insert (state : State) (key id : String) (peer : Peer) :
    keyAt { state with peers := state.peers.insert key peer } id =
      if key = id then some peer.psk else keyAt state id := by
  unfold keyAt
  by_cases hid : key = id
  · subst hid
    simp
  · rw [if_neg hid, getElem?_insert_ne _ _ hid]

variable {w w' : World}

/-- Steps that change no key keep everything. -/
theorem Inv.of_keys (h : Inv slot w)
    (hkeyed : ∀ (id : String) (peer : Peer), w'.store.state.peers[id]? = some peer →
      peer.pairingId = id) (hkeys : ∀ id, keyAt w'.store.state id = keyAt w.store.state id)
    (hceremony : w'.ceremony = w.ceremony) (hrepudiated : w'.repudiated = w.repudiated)
    (hagreed : w'.agreed = w.agreed) : Inv slot w' := by
  refine ⟨hkeyed, ?_, ?_, ?_⟩
  · intro id key hkey
    rw [hrepudiated]
    exact h.clean id key (by rw [← hkeys]; exact hkey)
  · intro ceremony hopen
    rw [hceremony] at hopen
    have hold := h.opened ceremony hopen
    refine ⟨hold.slotRead, hold.recordRead, ?_, ?_, ?_, hagreed ▸ hold.undecided⟩
    · rw [hrepudiated]
      exact hold.keyRead
    · intro key hwritten id hkey
      exact hold.sole key hwritten id (by rw [← hkeys]; exact hkey)
    · intro key hwritten hstanding
      rw [hkeys]
      exact hold.stands key hwritten hstanding
  · intro key hkey
    rw [hagreed] at hkey
    rw [hkeys]
    exact h.kept key hkey

theorem Inv.cutOff (h : Inv slot w) {store : PeerStore}
    (hsub : ∀ (id : String) (peer : Peer), store.state.peers[id]? = some peer →
      w.store.state.peers[id]? = some peer) : Inv slot (w.cutOff store) := by
  have hkeys : ∀ id key, keyAt store.state id = some key → keyAt w.store.state id = some key := by
    intro id key hkey
    obtain ⟨peer, hpeer, hpsk⟩ := Option.map_eq_some_iff.1 hkey
    exact Option.map_eq_some_iff.2 ⟨peer, hsub id peer hpeer, hpsk⟩
  refine ⟨fun id peer hpeer => h.keyed id peer (hsub id peer hpeer),
    fun id key hkey => h.clean id key (hkeys id key hkey), ?_, by simp [World.cutOff]⟩
  intro ceremony hopen
  obtain ⟨before, hbefore, rfl⟩ := Option.map_eq_some_iff.1 hopen
  have hold := h.opened before hbefore
  exact ⟨hold.slotRead, hold.recordRead, hold.keyRead,
    fun key hwritten id hkey => hold.sole key hwritten id (hkeys id key hkey), by simp,
    fun _ _ => rfl⟩

theorem touch_keys {store : PeerStore} {saved : Bool} {draft : Peer}
    (hkeyed : ∀ (id : String) (peer : Peer), store.state.peers[id]? = some peer →
      peer.pairingId = id)
    (hcarries : ∀ stored ∈ store.state.peers[draft.pairingId]?, stored.psk = draft.psk) :
    (∀ (id : String) (peer : Peer), (store.touch host saved draft).1.state.peers[id]? = some peer →
      peer.pairingId = id) ∧
    ∀ id, keyAt (store.touch host saved draft).1.state id = keyAt store.state id := by
  unfold PeerStore.touch
  split
  · rename_i hstored
    rcases upsertCertified_cases host store saved draft none with ⟨hsame, -⟩ | ⟨-, -, hcommits⟩
    · rw [hsame]
      exact ⟨hkeyed, fun _ => rfl⟩
    · have hpeers := peers_of_content hcommits.memory
      refine ⟨fun id peer hpeer => ?_, fun id => ?_⟩
      · rw [hpeers] at hpeer
        by_cases hid : draft.pairingId = id
        · subst hid
          simp only [State.withPeer, getElem?_insert_self, Option.some.injEq] at hpeer
          rw [← hpeer]
        · simp only [State.withPeer] at hpeer
          rw [getElem?_insert_ne _ _ hid] at hpeer
          exact hkeyed id peer hpeer
      · unfold keyAt
        rw [hpeers]
        by_cases hid : draft.pairingId = id
        · subst hid
          obtain ⟨stored, hfound⟩ := exists_of_mem (ExtTreeMap.mem_iff_contains.2 hstored)
          simp [State.withPeer, hfound, hcarries stored hfound]
        · simp only [State.withPeer]
          rw [getElem?_insert_ne _ _ hid]
  · exact ⟨hkeyed, fun _ => rfl⟩

theorem remove_peers (store : PeerStore) (saved : Bool) (pairingId : String) :
    (store.remove host saved pairingId).1 = store ∨
      (∃ found, (store.remove host saved pairingId).2 = .ok found) ∧
        (store.remove host saved pairingId).1.state.peers = store.state.peers.erase pairingId := by
  rcases remove_cases host store saved pairingId with
    hsame | ⟨hok, next, ⟨_, _, -, -, rfl⟩, hcommits⟩
  · exact Or.inl hsame
  · exact Or.inr ⟨⟨_, hok⟩, peers_of_content hcommits.memory⟩

theorem revoke_peers (store : PeerStore) (saved : Bool) (pairingId : String) (nowMs : Int) :
    (store.revoke host saved pairingId nowMs).1 = store ∨
      (∃ found, (store.revoke host saved pairingId nowMs).2 = .ok found) ∧
        (store.revoke host saved pairingId nowMs).1.state.peers =
          store.state.peers.erase pairingId := by
  rcases revoke_cases host store saved pairingId nowMs with
    hsame | ⟨hok, next, ⟨-, -, _, -, rfl⟩, hcommits⟩
  · exact Or.inl hsame
  · exact Or.inr ⟨⟨_, hok⟩, peers_of_content hcommits.memory⟩

/-- The record a rollback leaves has the key from before. -/
theorem restore_peers (store : PeerStore) (saved : Bool) {ticket : PeerSnapshot} :
    (store.restore host saved ticket).1.state.peers = store.state.peers.erase ticket.pairingId ∨
      ∃ previous peer, ticket.previous = some previous ∧ peer.psk = previous.psk ∧
        (peer.pairingId = ticket.pairingId ∨ peer = previous) ∧
        (store.restore host saved ticket).1.state.peers =
          store.state.peers.insert ticket.pairingId peer := by
  have hpeers := peers_of_content (restore_commits host store saved ticket).memory
  rw [hpeers]
  unfold State.restoreSlot
  cases hrestored : store.state.restored ticket with
  | none => exact Or.inl rfl
  | some peer =>
    refine Or.inr ?_
    unfold State.restored at hrestored
    split at hrestored
    · simp at hrestored
    split at hrestored
    · simp at hrestored
    rename_i previous hprevious
    split at hrestored
    · obtain ⟨current, -, hpeer⟩ := Option.map_eq_some_iff.1 hrestored
      exact ⟨previous, peer, hprevious, by rw [← hpeer], Or.inl (by rw [← hpeer]), rfl⟩
    · obtain rfl := Option.some.inj hrestored
      exact ⟨previous, previous, hprevious, rfl, Or.inr rfl, rfl⟩

theorem getElem?_of_eq_erase {state : State} {peers : Table Peer} {pairingId : String}
    (h : state.peers = peers.erase pairingId) (id : String) (peer : Peer)
    (hpeer : state.peers[id]? = some peer) : peers[id]? = some peer := by
  rw [h] at hpeer
  exact (getElem?_of_erase hpeer).2

theorem fresh_iff {ceremony : Ceremony} {key : Bytes} (h : fresh w ceremony key = true) :
    (∀ id, keyAt w.store.state id ≠ some key) ∧
      (∀ peer, ceremony.ticket.previous = some peer → peer.psk ≠ key) ∧ key ∉ w.repudiated := by
  simp only [fresh, Bool.and_eq_true, Bool.not_eq_true', List.any_eq_false,
    decide_eq_true_eq] at h
  obtain ⟨⟨⟨⟨hstored, -⟩, -⟩, hprevious⟩, hrepudiated⟩ := h
  refine ⟨fun id hkey => ?_, fun peer hpeer => ?_, by simpa using hrepudiated⟩
  · obtain ⟨peer, hpeer, hpsk⟩ := Option.map_eq_some_iff.1 hkey
    exact hstored (id, peer) (ExtTreeMap.mem_toList_iff_getElem?_eq_some.2 hpeer) hpsk
  · simpa [hpeer] using hprevious

/-- The first write of a ceremony. -/
theorem tentative_keeps {saved : Bool} {peer : Peer} {admission : Option PairAdmissions}
    (h : Inv slot w) (hstep : step host slot w (.tentative saved peer admission) = some w') :
    Inv slot w' := by
  simp only [step] at hstep
  split at hstep
  swap
  · simp at hstep
  rename_i ceremony hceremony
  split at hstep
  swap
  · simp at hstep
  rename_i hguard
  obtain ⟨-, rfl, hfresh⟩ := hguard
  obtain ⟨hstored, hprevious, hrepudiated⟩ := fresh_iff hfresh
  have hold := h.opened ceremony hceremony
  have hcases := upsertFromAdmission_cases host w.store saved ceremony.ticket peer admission
  generalize w.store.upsertFromAdmission host saved ceremony.ticket peer admission = out at *
  obtain ⟨store, result⟩ := out
  rcases hcases with ⟨hsame, e, herror⟩ | ⟨-, hok, hcommits⟩
  · simp only at hsame herror
    subst hsame herror
    obtain rfl := Option.some.inj hstep
    exact h
  · simp only at hok hcommits
    subst hok
    obtain rfl := Option.some.inj hstep
    have hpeers := peers_of_content hcommits.memory
    have hkeys : ∀ id, keyAt store.state id =
        if peer.pairingId = id then some peer.psk else keyAt w.store.state id := by
      intro id
      rw [← keyAt_insert]
      unfold keyAt
      rw [hpeers]
      rfl
    refine ⟨?_, ?_, ?_, by simp⟩
    · intro id found hfound
      simp only [hpeers, State.withPeer] at hfound
      by_cases hid : peer.pairingId = id
      · subst hid
        rw [getElem?_insert_self, Option.some.injEq] at hfound
        rw [← hfound]
      · rw [getElem?_insert_ne _ _ hid] at hfound
        exact h.keyed id found hfound
    · intro id key hkey
      simp only [hkeys] at hkey
      split at hkey
      · obtain rfl := Option.some.inj hkey
        exact hrepudiated
      · exact h.clean id key hkey
    · rintro _ ⟨⟩
      refine ⟨hold.slotRead, hold.recordRead, ?_, ?_, ?_, fun _ _ => rfl⟩
      · intro previous hread
        refine ⟨(hold.keyRead previous hread).1, ?_⟩
        simpa using Ne.symm (hprevious previous hread)
      · intro key hwritten id hkey
        obtain rfl := Option.some.inj hwritten
        simp only [hkeys] at hkey
        split at hkey
        · rename_i hid
          exact hid.symm
        · exact absurd hkey (hstored id)
      · intro key hwritten _
        rw [← hwritten]
        simp only [hkeys, if_true]

/-- The rollback: the key from before is not repudiated. -/
theorem restore_keeps {saved : Bool} (h : Inv slot w)
    (hstep : step host slot w (.restore saved) = some w') : Inv slot w' := by
  simp only [step] at hstep
  split at hstep
  swap
  · simp at hstep
  rename_i ticket key standing hceremony
  obtain rfl := Option.some.inj hstep
  have hold := h.opened _ hceremony
  -- the other pairings keep their keys, and none of them has the repudiated one
  have hothers : ∀ id stored, ticket.pairingId ≠ id → w.store.state.peers[id]? = some stored →
      stored.psk ∉ key :: w.repudiated := by
    intro id stored hid hstored hmem
    have hkey : keyAt w.store.state id = some stored.psk := by simp [keyAt, hstored]
    rcases List.mem_cons.1 hmem with heq | hmem
    · exact hid (hold.slotRead.trans (hold.sole key rfl id (heq ▸ hkey)).symm)
    · exact h.clean id _ hkey hmem
  have hagreed : w.agreed = none := hold.undecided key rfl
  refine ⟨?_, ?_, by simp, fun key hkey => by simp [hagreed] at hkey⟩
  · intro id found hfound
    rcases @restore_peers host w.store saved ticket with hpeers | ⟨previous, peer, hread, -, hid, hpeers⟩
    · rw [hpeers] at hfound
      exact h.keyed id found (getElem?_of_erase hfound).2
    · rw [hpeers] at hfound
      by_cases hne : ticket.pairingId = id
      · subst hne
        rw [getElem?_insert_self, Option.some.injEq] at hfound
        subst hfound
        rcases hid with hid | rfl
        · exact hid
        · exact (hold.recordRead peer hread).trans hold.slotRead.symm
      · rw [getElem?_insert_ne _ _ hne] at hfound
        exact h.keyed id found hfound
  · intro id other hkey
    obtain ⟨found, hfound, rfl⟩ := Option.map_eq_some_iff.1 hkey
    rcases @restore_peers host w.store saved ticket with hpeers | ⟨previous, peer, hread, hpsk, -, hpeers⟩
    · simp only [hpeers] at hfound
      obtain ⟨hne, hstored⟩ := getElem?_of_erase hfound
      exact hothers id found hne hstored
    · simp only [hpeers] at hfound
      by_cases hne : ticket.pairingId = id
      · subst hne
        rw [getElem?_insert_self, Option.some.injEq] at hfound
        subst hfound
        obtain ⟨hclean, hdiffers⟩ := hold.keyRead previous hread
        rw [hpsk]
        intro hmem
        rcases List.mem_cons.1 hmem with heq | hmem
        · exact hdiffers (congrArg some heq.symm)
        · exact hclean hmem
      · rw [getElem?_insert_ne _ _ hne] at hfound
        exact hothers id found hne hfound

theorem Inv.cut (h : Inv slot w) {out : PeerStore × Except PeerStoreError Bool}
    (hpeers : out.1 = w.store ∨
      (∃ found, out.2 = .ok found) ∧ out.1.state.peers = w.store.state.peers.erase slot) :
    Inv slot (w.cut out) := by
  obtain ⟨store, result⟩ := out
  rcases hpeers with hsame | ⟨⟨found, hok⟩, hpeers⟩
  · simp only at hsame
    subst hsame
    cases result with
    | error e => exact h
    | ok found => exact h.cutOff fun _ _ hpeer => hpeer
  · simp only at hok hpeers
    subst hok
    exact h.cutOff (getElem?_of_eq_erase hpeers)

/-- What a session reads changes nothing; what it writes under the condition changes no
key. -/
theorem step_keeps {w w' : World} {act : Act} (h : Inv slot w) (hcarries : carriesStoredKey w act)
    (hstep : (machine host slot).step w act = some w') : Inv slot w' := by
  cases act with
  | capture pairingId =>
    obtain ⟨peer, -, rfl⟩ := Option.map_eq_some_iff.1 hstep
    exact h.of_keys h.keyed (fun _ => rfl) rfl rfl rfl
  | touchPeer captured deviceId addr name nowMs =>
    simp only [machine, step] at hstep
    split at hstep
    · obtain rfl := Option.some.inj hstep
      exact h.of_keys h.keyed (fun _ => rfl) rfl rfl rfl
    · simp at hstep
  | recordProfile pairingId profile observedAtMs =>
    obtain ⟨draft, -, rfl⟩ := Option.map_eq_some_iff.1 hstep
    exact h.of_keys h.keyed (fun _ => rfl) rfl rfl rfl
  | touch saved draft =>
    simp only [machine, step] at hstep
    split at hstep
    · obtain rfl := Option.some.inj hstep
      obtain ⟨hkeyed, hkeys⟩ := @touch_keys host w.store saved draft h.keyed hcarries
      exact h.of_keys hkeyed hkeys rfl rfl rfl
    · simp at hstep
  | snapshot =>
    simp only [machine, step] at hstep
    split at hstep
    · obtain rfl := Option.some.inj hstep
      refine ⟨h.keyed, h.clean, ?_, h.kept⟩
      rintro _ ⟨⟩
      refine ⟨rfl, fun peer hpeer => h.keyed slot peer hpeer, ?_, by simp, by simp, by simp⟩
      intro peer hpeer
      refine ⟨h.clean slot _ ?_, by simp⟩
      exact Option.map_eq_some_iff.2 ⟨peer, hpeer, rfl⟩
    · simp at hstep
  | tentative saved peer admission => exact tentative_keeps h hstep
  | agree =>
    simp only [machine, step] at hstep
    split at hstep
    · rename_i ticket key standing hceremony
      obtain rfl := Option.some.inj hstep
      refine ⟨h.keyed, h.clean, by simp, ?_⟩
      intro agreed hagreed
      cases standing with
      | false => simp at hagreed
      | true =>
        obtain rfl : key = agreed := by simpa using hagreed
        exact (h.opened _ hceremony).stands key rfl rfl
    · simp at hstep
  | abandon =>
    simp only [machine, step] at hstep
    split at hstep
    · obtain rfl := Option.some.inj hstep
      exact ⟨h.keyed, h.clean, by simp, h.kept⟩
    · simp at hstep
  | restore saved => exact restore_keeps h hstep
  | remove saved =>
    obtain rfl := Option.some.inj hstep
    exact h.cut (remove_peers w.store saved slot)
  | revoke saved nowMs =>
    obtain rfl := Option.some.inj hstep
    exact h.cut (revoke_peers w.store saved slot nowMs)

theorem reaches_inv (h : Reaches (machine host slot) carriesStoredKey w) : Inv slot w := by
  refine h.invariant ?_ fun w w' act hinv hcarries hstep => step_keeps hinv hcarries hstep
  rintro w ⟨hkeyed, -, -, hceremony, hrepudiated, hagreed⟩
  refine ⟨hkeyed, by simp [hrepudiated], ?_, by simp [hagreed]⟩
  intro ceremony hopen
  simp [hopen] at hceremony

/-- While every session writes the key it finds, an undone ceremony's key is never
stored or offered again, and an agreed one stays. -/
theorem keys_settled {w : World} (h : Reaches (machine host slot) carriesStoredKey w) :
    (∀ key ∈ w.repudiated, ∀ id, keyAt w.store.state id ≠ some key ∧
      (id, key) ∉ psks w.store.state) ∧
    ∀ key, w.agreed = some key → keyAt w.store.state slot = some key := by
  have hinv := reaches_inv h
  refine ⟨fun key hkey id => ⟨fun hstored => hinv.clean id key hstored hkey, fun hoffered => ?_⟩,
    hinv.kept⟩
  obtain ⟨⟨other, peer⟩, hentry, hsame⟩ := List.mem_map.1 hoffered
  obtain ⟨hlisted, -⟩ := List.mem_filter.1 hentry
  obtain ⟨-, rfl⟩ := Prod.mk.inj hsame
  refine hinv.clean other peer.psk ?_ hkey
  exact Option.map_eq_some_iff.2
    ⟨peer, ExtTreeMap.mem_toList_iff_getElem?_eq_some.1 hlisted, rfl⟩

def keyed (byte : UInt8) : Peer :=
  ⟨"slot", some "phone", "Phone", List.replicate 32 byte, none, 0, none, 0⟩

def paired : World :=
  { store := { state := { peers := (∅ : Table Peer).insert "slot" (keyed 1) } } }

/-- The session reads the new key, the ceremony is undone, the session writes. -/
def readInBetween : List Act :=
  [.capture "slot", .snapshot, .tentative true (keyed 2) none,
    .touchPeer (keyed 1) none none none 5, .restore true,
    .touch true { keyed 2 with lastSeenMs := 5 }]

/-- The session reads the old key, the new one is agreed, the session writes. -/
def readBefore : List Act :=
  [.capture "slot", .touchPeer (keyed 1) none none none 5, .snapshot,
    .tentative true (keyed 2) none, .agree, .touch true { keyed 1 with lastSeenMs := 5 }]

theorem paired_reached (allowed : World → Act → Prop) :
    Reaches (machine (Host.over openCrypto) "slot") allowed paired := by
  refine Reaches.start paired ⟨fun id peer hpeer => ?_, rfl, rfl, rfl, rfl, rfl⟩
  by_cases hid : "slot" = id
  · subst hid
    obtain rfl : keyed 1 = peer := by simpa [paired] using hpeer
    rfl
  · simp only [paired] at hpeer
    rw [getElem?_insert_ne _ _ hid] at hpeer
    simp at hpeer

/-- Without the condition a repudiated key is stored and offered again, and an agreed
one is lost. -/
theorem stale_touch_restores_key :
    (∃ w, Reaches (machine (Host.over openCrypto) "slot") (fun _ _ => True) w ∧
      List.replicate 32 2 ∈ w.repudiated ∧
      keyAt w.store.state "slot" = some (List.replicate 32 2) ∧
      ("slot", List.replicate 32 2) ∈ psks w.store.state) ∧
    ∃ w, Reaches (machine (Host.over openCrypto) "slot") (fun _ _ => True) w ∧
      w.agreed = some (List.replicate 32 2) ∧
      keyAt w.store.state "slot" = some (List.replicate 32 1) := by
  refine ⟨⟨_, (paired_reached _).of_run_getD readInBetween
      (Meets.of_forall (fun _ _ _ => trivial) _) ?_ paired, ?_, ?_, ?_⟩,
    ⟨_, (paired_reached _).of_run_getD readBefore
      (Meets.of_forall (fun _ _ _ => trivial) _) ?_ paired, ?_, ?_⟩⟩ <;> decide

/-- A ceremony undone under a session that reads afterwards, then one that is agreed. -/
def readAfter : List Act :=
  [.capture "slot", .snapshot, .tentative true (keyed 2) none, .restore true,
    .touchPeer (keyed 1) none none none 5, .touch true { keyed 1 with lastSeenMs := 5 },
    .snapshot, .tentative true (keyed 3) none, .agree]

theorem keys_settled_run :
    keyAt ((run (machine (Host.over openCrypto) "slot") paired readAfter).getD paired).store.state
      "slot" ≠ some (List.replicate 32 2) ∧
    keyAt ((run (machine (Host.over openCrypto) "slot") paired readAfter).getD paired).store.state
      "slot" = some (List.replicate 32 3) := by
  have hreaches := (paired_reached carriesStoredKey).of_run_getD readAfter (by decide)
    (by decide) paired
  refine ⟨((keys_settled hreaches).1 _ ?_ "slot").1, (keys_settled hreaches).2 _ ?_⟩ <;>
    decide

end CopyPaste.Peers.Rekey
