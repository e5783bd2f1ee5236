import CopyPaste.Peers.Runs

/-!
The slots of a peer store. No stored pairing is barred, every admission belongs to a
stored pairing, and no device is stored twice, in every run whose rollbacks and merges
meet a condition: two of the operations restore only the part they think about.
-/

namespace CopyPaste.Peers.Slots

open Std Lib.Guarded Lib.Tables Peers.Group Store Projection Runs

/-- What holds of the records, the bars and the markers of confirmed pairings. -/
structure Core (peers : Table Peer) (revoked : Table Int) (marks : Table Unit) : Prop where
  keyed : ∀ (id : String) (peer : Peer), peers[id]? = some peer → peer.pairingId = id
  barred : ∀ id : String, id ∈ peers → id ∉ revoked
  marked : ∀ id : String, id ∈ marks → id ∈ peers
  unique : ∀ (id other : String) (peer known : Peer) (device : String), peers[id]? = some peer →
    peers[other]? = some known → peer.deviceId = some device → known.deviceId = some device → id = other

/-- Every certified admission belongs to a stored pairing as well. -/
structure Sound (state : State) : Prop extends
    Core state.peers state.revoked state.groupAdmissions where
  certified : ∀ id : String, id ∈ state.pairAdmissions → id ∈ state.peers

variable {peers : Table Peer} {revoked : Table Int} {marks : Table Unit}

/-- A record stored under its id, whose device no other pairing carries. -/
theorem Core.insert (h : Core peers revoked marks) {peer : Peer}
    (hbarred : peer.pairingId ∉ revoked)
    (hunique : ∀ device other known, peer.deviceId = some device → peers[other]? = some known →
      known.deviceId = some device → other = peer.pairingId) :
    Core (peers.insert peer.pairingId peer) revoked marks := by
  have hget : ∀ id found, (peers.insert peer.pairingId peer)[id]? = some found →
      peer.pairingId = id ∧ peer = found ∨ peer.pairingId ≠ id ∧ peers[id]? = some found := by
    intro id found hfound
    by_cases hid : peer.pairingId = id
    · subst hid
      rw [getElem?_insert_self, Option.some.injEq] at hfound
      exact Or.inl ⟨rfl, hfound⟩
    · rw [getElem?_insert_ne _ _ hid] at hfound
      exact Or.inr ⟨hid, hfound⟩
  refine ⟨?_, ?_, ?_, ?_⟩
  · intro id found hfound
    rcases hget id found hfound with ⟨rfl, rfl⟩ | ⟨-, hold⟩
    · rfl
    · exact h.keyed id found hold
  · intro id hid
    rcases ExtTreeMap.mem_insert.1 hid with heq | hold
    · obtain rfl : peer.pairingId = id := by simpa using heq
      exact hbarred
    · exact h.barred id hold
  · intro id hid
    exact ExtTreeMap.mem_insert.2 (Or.inr (h.marked id hid))
  · intro id other found known device hfound hknown hdevice hdevice'
    rcases hget id found hfound with ⟨rfl, rfl⟩ | ⟨hne, hold⟩
    · rcases hget other known hknown with ⟨rfl, -⟩ | ⟨-, hold'⟩
      · rfl
      · exact (hunique device other known hdevice hold' hdevice').symm
    · rcases hget other known hknown with ⟨rfl, rfl⟩ | ⟨-, hold'⟩
      · exact hunique device id found hdevice' hold hdevice
      · exact h.unique id other found known device hold hold' hdevice hdevice'

/-- Fewer records, with the markers of those that are left. -/
theorem Core.shrink (h : Core peers revoked marks) {fewer : Table Peer} {left : Table Unit}
    (hsub : ∀ (id : String) (peer : Peer), fewer[id]? = some peer → peers[id]? = some peer)
    (hleft : ∀ id : String, id ∈ left → id ∈ fewer) : Core fewer revoked left := by
  refine ⟨?_, ?_, hleft, ?_⟩
  · intro id peer hpeer
    exact h.keyed id peer (hsub id peer hpeer)
  · intro id hid
    obtain ⟨peer, hpeer⟩ := exists_of_mem hid
    exact h.barred id (mem_of_getElem? (hsub id peer hpeer))
  · intro id other peer known device hpeer hknown
    exact h.unique id other peer known device (hsub id peer hpeer) (hsub other known hknown)

/-- A slot given up, with its marker. -/
theorem Core.erase (h : Core peers revoked marks) (key : String) :
    Core (peers.erase key) revoked (marks.erase key) := by
  refine h.shrink (fun id peer hpeer => (getElem?_of_erase hpeer).2) fun id hid => ?_
  obtain ⟨hne, hmem⟩ := mem_of_mem_erase hid
  exact ExtTreeMap.mem_erase.2 ⟨by simpa using hne, h.marked id hmem⟩

/-- A record changed in place. -/
theorem Core.replace (h : Core peers revoked marks) {old new : Peer}
    (hold : peers[old.pairingId]? = some old) (hid : new.pairingId = old.pairingId)
    (hdevice : new.deviceId = old.deviceId) :
    Core (peers.insert old.pairingId new) revoked marks := by
  rw [← hid]
  refine h.insert ?_ ?_
  · rw [hid]
    exact h.barred _ (mem_of_getElem? hold)
  · intro device other known hnew hknown hknownDevice
    rw [hdevice] at hnew
    rw [hid]
    exact h.unique other old.pairingId known old device hknown hold hknownDevice hnew

variable {id : String} {state next : State} {peer : Peer} {host : Host} {ticket : PeerSnapshot}
  {s : System}

theorem mem_setAdmission {admissions : Table PairAdmissions} {key : String}
    {admission : Option PairAdmissions} (h : id ∈ setAdmission admissions key admission) :
    id = key ∨ id ∈ admissions := by
  cases admission with
  | none => exact Or.inr (mem_of_mem_erase h).2
  | some value =>
    rcases ExtTreeMap.mem_insert.1 h with heq | hold
    · obtain rfl : key = id := by simpa using heq
      exact Or.inl rfl
    · exact Or.inr hold

theorem Sound.withPeer (h : Sound state) {admission : Option PairAdmissions}
    (hcheck : state.checkUpsert peer admission = .ok ()) :
    Sound (state.withPeer peer admission) := by
  obtain ⟨-, hrevoked, hcarried, -⟩ := checkUpsert_ok hcheck
  refine ⟨h.toCore.insert hrevoked ?_, ?_⟩
  · intro device other known hdevice hknown hknownDevice
    rw [← h.keyed other known hknown]
    exact carriedElsewhere_eq_false.1 (hcarried device hdevice) other known hknown hknownDevice
  · intro id hid
    rcases mem_setAdmission hid with rfl | hold
    · exact ExtTreeMap.mem_insert_self
    · exact ExtTreeMap.mem_insert.2 (Or.inr (h.certified id hold))

theorem Sound.dropSlot (h : Sound state) (group : Option GroupState) (key : String) :
    Sound (({ state with group := group } : State).dropSlot key) := by
  refine ⟨h.toCore.erase key, fun id hid => ?_⟩
  obtain ⟨hne, hmem⟩ := mem_of_mem_erase hid
  exact ExtTreeMap.mem_erase.2 ⟨by simpa using hne, h.certified id hmem⟩

theorem Sound.bar (h : Sound state) (group : Option GroupState) (key : String) (nowMs : Int) :
    Sound (({ state with
      group := group
      revoked := state.revoked.insert key nowMs } : State).dropSlot key) := by
  have hdropped := h.dropSlot group key
  refine ⟨⟨hdropped.keyed, ?_, hdropped.marked, hdropped.unique⟩, hdropped.certified⟩
  intro id hid hrevoked
  obtain ⟨hne, hmem⟩ := mem_of_mem_erase hid
  rcases ExtTreeMap.mem_insert.1 hrevoked with heq | hold
  · exact hne (by simpa using heq)
  · exact h.barred id hmem hold

theorem sound_cleared (state : State) (group : Option GroupState) (revoked : Table Int) :
    Sound { state with
      group := group
      revoked := revoked
      peers := ∅
      groupAdmissions := ∅
      pairAdmissions := ∅ } := by
  refine ⟨⟨?_, ?_, ?_, ?_⟩, ?_⟩ <;> simp

/-- One derived credential. The pairing of its device goes before it is stored. -/
theorem projectPeer_core {group : Roster} {previous : Option GroupState}
    (h : Core state.peers state.revoked state.groupAdmissions)
    (hnext : projectPeer group previous state peer = .ok next) :
    Core next.peers next.revoked next.groupAdmissions := by
  obtain ⟨-, device, admission, hdevice, -, hprojected⟩ := projectPeer_cases hnext
  cases hprojected with
  | kept => exact h
  | renamed id stored name addr hstored =>
    obtain rfl := h.keyed id stored hstored
    exact h.replace hstored rfl rfl
  | derived base hbase hrevoked _ =>
    rcases hbase with ⟨rfl, hnone⟩ | ⟨id, stored, hstored, hcarries, rfl⟩
    · refine h.insert hrevoked fun device other known hpeer hknown hsame => ?_
      exact absurd (hsame.trans hpeer.symm) (hnone other known hknown)
    · obtain rfl := h.keyed id stored hstored
      refine (h.erase stored.pairingId).insert hrevoked fun device other known hpeer hknown hsame => ?_
      obtain ⟨hne, hold⟩ := getElem?_of_erase hknown
      exact absurd (h.unique _ other stored known device hstored hold (hcarries.trans hpeer) hsame) hne

theorem project_sound {previous : Option GroupState} (h : Sound state)
    (hnext : project host state previous = .ok next) : Sound next := by
  rcases project_cases host hnext with ⟨-, rfl⟩ | ⟨group, -, ⟨-, rfl⟩ |
    ⟨-, derived, projected, -, hpass, rfl⟩⟩
  · exact h
  · exact sound_cleared state state.group state.revoked
  · have hcore : Core projected.peers projected.revoked projected.groupAdmissions := by
      refine foldlM_keeps (fun state : State => Core state.peers state.revoked state.groupAdmissions)
        derived (fun acc acc' peer _ hacc hstep => projectPeer_core hacc hstep) ?_ hpass
      refine h.toCore.shrink ?_ ?_
      · intro id peer hpeer
        exact (getElem?_of_filter hpeer).1
      · intro id hid
        obtain ⟨_, -, hkept⟩ := of_mem_filter hid
        exact ExtTreeMap.mem_iff_contains.2 hkept
    refine ⟨hcore, fun id hid => ?_⟩
    obtain ⟨_, -, hkept⟩ := of_mem_filter hid
    exact ExtTreeMap.mem_iff_contains.2 hkept

/-- Whether a rollback puts a record back: the pairing was not cut off meanwhile, there
was a record before, and it is still to be undone or there is still one to correct. -/
def reinstates (state : State) (ticket : PeerSnapshot) : Bool :=
  !state.revoked.contains ticket.pairingId && ticket.previous.isSome &&
    (state.generation ticket.pairingId = ticket.generation ||
      state.peers.contains ticket.pairingId)

/-- No rollback puts back a device that another pairing carries by now, or leaves the
marker of a confirmed pairing without its record; no merge binds a pairing to a device
that another one carries. -/
def allowed (s : System) : Act → Prop
  | .restore _ ticket =>
    if reinstates s.store.state ticket then
      ∀ device ∈ ticket.previous.bind Peer.deviceId,
        s.store.state.carriedElsewhere ticket.pairingId device = false
    else s.store.state.groupAdmissions.contains ticket.pairingId = false
  | .mergeGroup _ snapshot (some pairingId) _ =>
    (s.store.state.peers[pairingId]?.any fun peer => peer.deviceId.isNone) →
      s.store.state.carriedElsewhere pairingId snapshot.roster.issuer = false
  | _ => True

instance (s : System) (act : Act) : Decidable (allowed s act) := by
  unfold allowed
  split <;> infer_instance

/-- A ticket's record is of its pairing. -/
def Ticketed (tickets : List PeerSnapshot) : Prop :=
  ∀ ticket ∈ tickets, ∀ peer, ticket.previous = some peer → peer.pairingId = ticket.pairingId

theorem restored_eq_none : state.restored ticket = none ↔ reinstates state ticket = false := by
  unfold State.restored reinstates
  cases hrevoked : state.revoked.contains ticket.pairingId with
  | true => simp
  | false =>
    cases hprevious : ticket.previous with
    | none => simp
    | some previous =>
      by_cases hgeneration : state.generation ticket.pairingId = ticket.generation
      · simp [hgeneration]
      · have hstored : ticket.pairingId ∉ state.peers ↔
            state.peers.contains ticket.pairingId = false := by
          rw [← Bool.not_eq_true, ExtTreeMap.contains_iff_mem]
        simpa [hgeneration] using hstored

/-- The record a rollback puts back is of its pairing, and of the device it was of
before or is of now. -/
theorem restored_eq_some (h : state.restored ticket = some peer)
    (hticket : ∀ previous, ticket.previous = some previous →
      previous.pairingId = ticket.pairingId) :
    ticket.pairingId ∉ state.revoked ∧ peer.pairingId = ticket.pairingId ∧
      (peer.deviceId = ticket.previous.bind Peer.deviceId ∨ ∃ current,
        state.peers[ticket.pairingId]? = some current ∧ peer.deviceId = current.deviceId) := by
  unfold State.restored at h
  split at h
  · simp at h
  rename_i hrevoked
  refine ⟨by simpa using hrevoked, ?_⟩
  split at h
  · simp at h
  rename_i previous hprevious
  split at h
  · obtain ⟨current, hcurrent, rfl⟩ := Option.map_eq_some_iff.1 h
    refine ⟨rfl, ?_⟩
    cases hdevice : previous.deviceId with
    | none => exact Or.inr ⟨current, hcurrent, by simp⟩
    | some device => exact Or.inl (by simp [hprevious, hdevice])
  · obtain rfl := Option.some.inj h
    exact ⟨hticket _ hprevious, Or.inl (by simp [hprevious])⟩

theorem restoreSlot_sound (h : Sound state)
    (hticket : ∀ previous, ticket.previous = some previous → previous.pairingId = ticket.pairingId)
    (hallowed : if reinstates state ticket then
        ∀ device ∈ ticket.previous.bind Peer.deviceId,
          state.carriedElsewhere ticket.pairingId device = false
      else state.groupAdmissions.contains ticket.pairingId = false) :
    Sound (state.restoreSlot ticket) := by
  unfold State.restoreSlot
  cases hrestored : state.restored ticket with
  | none =>
    rw [if_neg (by simp [restored_eq_none.1 hrestored])] at hallowed
    have hdropped := h.dropSlot state.group ticket.pairingId
    refine ⟨⟨hdropped.keyed, hdropped.barred, ?_, hdropped.unique⟩, hdropped.certified⟩
    intro id hid
    refine ExtTreeMap.mem_erase.2 ⟨?_, h.marked id hid⟩
    rintro heq
    obtain rfl : ticket.pairingId = id := by simpa using heq
    simp [ExtTreeMap.mem_iff_contains.1 hid] at hallowed
  | some peer =>
    have hreinstates : reinstates state ticket = true := by
      by_contra hnot
      rw [restored_eq_none.2 (by simpa using hnot)] at hrestored
      simp at hrestored
    rw [if_pos hreinstates] at hallowed
    obtain ⟨hrevoked, hid, hdevice⟩ := restored_eq_some hrestored hticket
    simp only
    rw [← hid] at hrevoked hallowed hdevice ⊢
    refine ⟨h.toCore.insert hrevoked ?_, ?_⟩
    · intro device other known hpeer hknown hknownDevice
      rcases hdevice with hdevice | ⟨current, hcurrent, hdevice⟩
      · rw [← h.keyed other known hknown]
        exact carriedElsewhere_eq_false.1 (hallowed device (by rw [← hdevice, hpeer]; rfl))
          other known hknown hknownDevice
      · exact h.unique other _ known current device hknown hcurrent hknownDevice
          (hdevice.symm.trans hpeer)
    · intro id hmem
      rcases mem_setAdmission hmem with rfl | hold
      · exact ExtTreeMap.mem_insert_self
      · exact ExtTreeMap.mem_insert.2 (Or.inr (h.certified id hold))

/-- The pairing a snapshot came over, bound to its issuer. -/
theorem bindIdentity_sound {bound : State} {issuer : String} {pairingId : Option String}
    {boundIdentity : Bool} (h : Sound state)
    (hallowed : ∀ id ∈ pairingId, (state.peers[id]?.any fun peer => peer.deviceId.isNone) →
      state.carriedElsewhere id issuer = false)
    (hbound : bindIdentity state issuer pairingId = .ok (bound, boundIdentity)) : Sound bound := by
  cases pairingId with
  | none =>
    obtain ⟨rfl, -⟩ := Prod.mk.inj (Except.ok.inj hbound)
    exact h
  | some id =>
    simp only [bindIdentity] at hbound
    split at hbound
    · simp at hbound
    rename_i peer hpeer
    split at hbound
    · simp at hbound
    rename_i hmatches
    obtain ⟨rfl, -⟩ := Prod.mk.inj (Except.ok.inj hbound)
    obtain rfl := h.keyed id peer hpeer
    have hcore : Core (state.peers.insert peer.pairingId { peer with deviceId := some issuer })
        state.revoked state.groupAdmissions := by
      cases hdevice : peer.deviceId with
      | some device =>
        have hsame : some issuer = peer.deviceId := by
          simp only [hdevice, Option.any_some, ne_eq, decide_eq_true_eq, not_not] at hmatches
          rw [hdevice, hmatches]
        exact h.toCore.replace hpeer rfl hsame
      | none =>
        have hfree := carriedElsewhere_eq_false.1
          (hallowed peer.pairingId rfl (by simp [hpeer, hdevice]))
        refine @Core.insert _ _ _ h.toCore { peer with deviceId := some issuer }
          (h.barred _ (mem_of_getElem? hpeer)) ?_
        intro device other known hnew hknown hknownDevice
        obtain rfl := Option.some.inj hnew
        rw [← h.keyed other known hknown]
        exact hfree other known hknown hknownDevice
    refine ⟨hcore, fun other hother => ?_⟩
    exact ExtTreeMap.mem_insert.2 (Or.inr (h.certified other hother))

theorem Sound.unmark (h : Sound state) (group : Option GroupState) (pairingId : Option String) :
    Sound { state with
      group := group
      groupAdmissions := unmark state.groupAdmissions pairingId } := by
  refine ⟨⟨h.keyed, h.barred, fun id hid => ?_, h.unique⟩, h.certified⟩
  cases pairingId with
  | none => exact h.marked id hid
  | some key => exact h.marked id (mem_of_mem_erase hid).2

theorem Sound.mark (h : Sound state) (group : Option GroupState) {pairingId : String}
    (hstored : pairingId ∈ state.peers) :
    Sound { state with
      group := group
      groupAdmissions := state.groupAdmissions.insert pairingId () } := by
  refine ⟨⟨h.keyed, h.barred, fun id hid => ?_, h.unique⟩, h.certified⟩
  rcases ExtTreeMap.mem_insert.1 hid with heq | hold
  · obtain rfl : pairingId = id := by simpa using heq
    exact hstored
  · exact h.marked id hold

/-- Every change an operation makes under the condition keeps the slots sound. -/
theorem changes_sound {act : Act} (h : Sound s.store.state) (htickets : Ticketed s.tickets)
    (hallowed : allowed s act)
    (hticket : ∀ saved ticket, act = .restore saved ticket → ticket ∈ s.tickets)
    (hchanges : Changes host s.store.state act next) : Sound next := by
  cases act with
  | upsert saved peer | touch saved peer =>
    obtain ⟨hcheck, rfl⟩ := hchanges
    exact h.withPeer hcheck
  | snapshot pairingId => exact hchanges.elim
  | upsertFromAdmission saved ticket peer admission =>
    obtain ⟨hcheck, rfl⟩ := hchanges
    exact h.withPeer hcheck
  | restore saved ticket =>
    obtain rfl := hchanges
    exact restoreSlot_sound h (htickets ticket (hticket saved ticket rfl)) hallowed
  | remove saved pairingId =>
    obtain ⟨_, group, -, -, rfl⟩ := hchanges
    exact h.dropSlot group pairingId
  | revoke saved pairingId nowMs =>
    obtain ⟨-, -, group, -, rfl⟩ := hchanges
    exact h.bar group pairingId nowMs
  | revokeAll saved nowMs =>
    obtain ⟨group, -, rfl⟩ := hchanges
    exact sound_cleared s.store.state group _
  | groupSnapshot saved identity id name profile addr =>
    obtain ⟨group, _, -, -, -, rfl⟩ := hchanges
    exact ⟨⟨h.keyed, h.barred, h.marked, h.unique⟩, h.certified⟩
  | mergeGroup saved snapshot pairingId explicit =>
    obtain ⟨_, bound, _, merged, _, -, hbound, -, hproject⟩ := mergeNext_cases host hchanges
    refine project_sound (Sound.unmark ?_ (some merged) pairingId) (hproject next rfl)
    refine bindIdentity_sound h ?_ hbound
    rintro id rfl
    exact hallowed
  | confirmGroupAdmission saved pairingId =>
    obtain ⟨hstored, group, -, hproject⟩ := confirmNext_cases host hchanges
    exact project_sound (h.mark group hstored) hproject
  | flush saved =>
    obtain rfl := hchanges
    exact h

theorem Sound.of_content (h : Sound next) (hsame : content state = content next) : Sound state := by
  obtain ⟨hadmissions, -, hmarks, hpeers, hrevoked, -⟩ := State.mk.inj hsame
  obtain ⟨⟨hkeyed, hbarred, hmarked, hunique⟩, hcertified⟩ := h
  rw [← hpeers, ← hmarks, ← hrevoked, ← hadmissions] at *
  exact ⟨⟨hkeyed, hbarred, hmarked, hunique⟩, hcertified⟩

theorem mem_foldl_insert {ids : List String} {revoked : Table Int} {nowMs : Int}
    (h : id ∈ revoked) : id ∈ ids.foldl (fun revoked id => revoked.insert id nowMs) revoked := by
  induction ids generalizing revoked with
  | nil => exact h
  | cons first rest ih => exact ih (ExtTreeMap.mem_insert.2 (Or.inr h))

/-- A pairing that was cut off stays cut off. -/
theorem changes_revoked {act : Act} (h : Changes host state act next) (hid : id ∈ state.revoked) :
    id ∈ next.revoked := by
  cases act with
  | upsert saved peer | touch saved peer =>
    obtain ⟨-, rfl⟩ := h
    exact hid
  | snapshot pairingId => exact h.elim
  | upsertFromAdmission saved ticket peer admission =>
    obtain ⟨-, rfl⟩ := h
    exact hid
  | restore saved ticket =>
    obtain rfl := h
    unfold State.restoreSlot
    split <;> exact hid
  | remove saved pairingId =>
    obtain ⟨_, group, -, -, rfl⟩ := h
    exact hid
  | revoke saved pairingId nowMs =>
    obtain ⟨-, -, group, -, rfl⟩ := h
    exact ExtTreeMap.mem_insert.2 (Or.inr hid)
  | revokeAll saved nowMs =>
    obtain ⟨group, -, rfl⟩ := h
    exact mem_foldl_insert hid
  | groupSnapshot saved identity id name profile addr =>
    obtain ⟨group, _, -, -, -, rfl⟩ := h
    exact hid
  | mergeGroup saved snapshot pairingId explicit =>
    obtain ⟨_, bound, _, merged, _, -, hbound, -, hproject⟩ := mergeNext_cases host h
    rw [(project_frame host (hproject next rfl)).2]
    simp only [(bindIdentity_frame hbound).2.1]
    exact hid
  | confirmGroupAdmission saved pairingId =>
    obtain ⟨-, group, -, hproject⟩ := confirmNext_cases host h
    rw [(project_frame host hproject).2]
    exact hid
  | flush saved =>
    obtain rfl := h
    exact hid

/-- What the runs keep. -/
structure Inv (s : System) : Prop where
  sound : Sound s.store.state
  ticketed : Ticketed s.tickets

theorem step_keeps {host : Host} {s s' : System} {act : Act} (h : Inv s) (hallowed : allowed s act)
    (hstep : (machine host).step s act = some s') :
    Inv s' ∧ ∀ id : String, id ∈ s.store.state.revoked → id ∈ s'.store.state.revoked := by
  obtain ⟨hdoes, htickets⟩ := step_cases host hstep
  have hticket : ∀ saved ticket, act = .restore saved ticket → ticket ∈ s.tickets := by
    rintro saved ticket rfl
    by_contra hnot
    simp [machine, step, hnot] at hstep
  have hnew : Ticketed s'.tickets := by
    intro ticket hmem peer hprevious
    rcases htickets ticket hmem with ⟨pairingId, rfl⟩ | ⟨known, hknown, hid, hsame, -⟩
    · exact h.sound.keyed pairingId peer hprevious
    · rw [hid]
      exact h.ticketed known hknown peer (hsame ▸ hprevious)
  rcases hdoes with hsame | ⟨next, hchanges, hcommits⟩
  · refine ⟨⟨?_, hnew⟩, ?_⟩
    · rw [hsame]
      exact h.sound
    · rw [hsame]
      exact fun _ hid => hid
  · refine ⟨⟨?_, hnew⟩, fun id hid => ?_⟩
    · exact (changes_sound h.sound h.ticketed hallowed hticket hchanges).of_content hcommits.memory
    · have hrevoked := congrArg State.revoked hcommits.memory
      rw [show s'.store.state.revoked = next.revoked from hrevoked]
      exact changes_revoked hchanges hid

theorem reaches_inv (h : Reaches (machine host) allowed s) : Inv s := by
  refine h.invariant ?_ fun s s' act hinv hallowed hstep => (step_keeps hinv hallowed hstep).1
  rintro s rfl
  exact ⟨sound_cleared {} none ∅, by simp [Ticketed]⟩

theorem run_revoked {s' : System} (h : Inv s) (acts : List Act)
    (hmeets : Meets (machine host) allowed s acts) (hrun : run (machine host) s acts = some s') :
    Inv s' ∧ ∀ id : String, id ∈ s.store.state.revoked → id ∈ s'.store.state.revoked := by
  induction acts generalizing s with
  | nil =>
    obtain rfl : s = s' := by simpa [run] using hrun
    exact ⟨h, fun _ hid => hid⟩
  | cons act rest ih =>
    obtain ⟨middle, hstep, hrest⟩ := Option.bind_eq_some_iff.1 hrun
    obtain ⟨hmiddle, hrevoked⟩ := step_keeps h hmeets.1 hstep
    obtain ⟨hlast, hrevoked'⟩ := ih hmiddle (hmeets.2 middle hstep) hrest
    exact ⟨hlast, fun id hid => hrevoked' id (hrevoked id hid)⟩

theorem Sound.not_offered (h : Sound state) (hid : id ∈ state.revoked) (psk : Bytes) :
    (id, psk) ∉ psks state := by
  intro hmem
  obtain ⟨⟨key, peer⟩, hentry, hsame⟩ := List.mem_map.1 hmem
  obtain ⟨hlisted, -⟩ := List.mem_filter.1 hentry
  have hstored := ExtTreeMap.mem_toList_iff_getElem?_eq_some.1 hlisted
  obtain ⟨rfl, -⟩ := Prod.mk.inj hsame
  have hkey : peer.pairingId = key := h.keyed key peer hstored
  exact h.barred key (mem_of_getElem? hstored) (hkey ▸ hid)

/-- In every state such runs reach, no pairing that was cut off is stored, and none is
offered to a handshake from then on; every admission is of a stored pairing; and no
device is stored twice. -/
theorem slots_sound {host : Host} {s : System} (h : Reaches (machine host) allowed s) :
    (∀ id : String, id ∈ s.store.state.revoked → id ∉ s.store.state.peers ∧
      ∀ acts s', Meets (machine host) allowed s acts → run (machine host) s acts = some s' →
        ∀ psk, (id, psk) ∉ psks s'.store.state) ∧
    (∀ id : String, id ∈ s.store.state.pairAdmissions ∨ id ∈ s.store.state.groupAdmissions →
      id ∈ s.store.state.peers) ∧
    ∀ (id other : String) (peer known : Peer) (device : String),
      s.store.state.peers[id]? = some peer → s.store.state.peers[other]? = some known →
      peer.deviceId = some device → known.deviceId = some device → id = other := by
  have hinv := reaches_inv h
  refine ⟨fun id hid => ⟨fun hstored => hinv.sound.barred id hstored hid, ?_⟩, ?_,
    hinv.sound.unique⟩
  · intro acts s' hmeets hrun
    obtain ⟨hlast, hrevoked⟩ := run_revoked hinv acts hmeets hrun
    exact hlast.sound.not_offered (hrevoked id hid)
  · rintro id (hid | hid)
    · exact hinv.sound.certified id hid
    · exact hinv.sound.marked id hid

def sample (pairingId : String) (deviceId : Option String) : Peer :=
  ⟨pairingId, deviceId, "Device", List.replicate 32 1, none, 0, none, 0⟩

/-- A ceremony over a pairing of the phone writes the tablet into it; the phone pairs
anew, and the ceremony is undone. Another one is confirmed and undone all the same. -/
def undoneTooLate : List Act :=
  [.upsert true (sample "first" (some "phone")),
    .snapshot "first",
    .upsertFromAdmission true ⟨none, "first", some (sample "first" (some "phone")), 1⟩
      (sample "first" (some "tablet")) none,
    .upsert true (sample "second" (some "phone")),
    .restore true ⟨none, "first", some (sample "first" (some "phone")), 2⟩,
    .snapshot "third",
    .upsertFromAdmission true ⟨none, "third", none, 0⟩ (sample "third" none) none,
    .confirmGroupAdmission true "third",
    .restore true ⟨none, "third", none, 1⟩]

/-- Without the condition, a device is stored twice and a marker has no record. -/
theorem rollback_unsound :
    ∃ s, Reaches (machine (Host.over openCrypto)) (fun _ _ => True) s ∧
      s.store.state.peers["first"]?.bind Peer.deviceId = some "phone" ∧
      s.store.state.peers["second"]?.bind Peer.deviceId = some "phone" ∧
      s.store.state.groupAdmissions.contains "third" = true ∧
      s.store.state.peers.contains "third" = false := by
  have hempty : Reaches (machine (Host.over openCrypto)) (fun _ _ => True) {} :=
    Reaches.start _ rfl
  refine ⟨_, hempty.of_run_getD undoneTooLate (Meets.of_forall (fun _ _ _ => trivial) _) ?_ {},
    ?_, ?_, ?_, ?_⟩ <;> decide

/-- A ceremony that is confirmed, one that is undone in time, and a pairing cut off. -/
def soundRun : List Act :=
  [.upsert true (sample "first" (some "phone")),
    .confirmGroupAdmission true "first",
    .snapshot "first",
    .upsertFromAdmission true ⟨none, "first", some (sample "first" (some "phone")), 1⟩
      (sample "first" (some "tablet")) none,
    .restore true ⟨none, "first", some (sample "first" (some "phone")), 2⟩,
    .upsert true (sample "second" (some "tablet")),
    .revoke true "second" 7]

theorem slots_sound_run :
    (((run (machine (Host.over openCrypto)) {} soundRun).getD {}).store.state.revoked.contains
      "second" = true) ∧
    ∀ psk, ("second", psk) ∉
      psks ((run (machine (Host.over openCrypto)) {} soundRun).getD {}).store.state := by
  have hrevoked : ((run (machine (Host.over openCrypto)) {} soundRun).getD
      {}).store.state.revoked.contains "second" = true := by decide
  have hempty : Reaches (machine (Host.over openCrypto)) allowed {} := Reaches.start _ rfl
  have hreaches : Reaches (machine (Host.over openCrypto)) allowed
      ((run (machine (Host.over openCrypto)) {} soundRun).getD {}) := by
    refine hempty.of_run_getD soundRun ?_ ?_ {} <;> decide
  refine ⟨hrevoked, ?_⟩
  exact ((slots_sound hreaches).1 "second" (ExtTreeMap.mem_iff_contains.2 hrevoked)).2 [] _ trivial
    rfl

end CopyPaste.Peers.Slots
