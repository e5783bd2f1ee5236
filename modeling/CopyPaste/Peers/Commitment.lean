import CopyPaste.Peers.Ceremony

/-!
A ceremony is all or nothing on each device: where it does not end confirmed, the slot
is as it was before, up to what sessions wrote. The new key is stored only when both
users accepted, and a device that commits knows that the other one has stored it.
-/

namespace CopyPaste.Peers.Commitment

open Lib.Checks Std Lib.Guarded Lib.Tables Peers.Group Store Projection Ceremony
open Runs (content restore_commits upsertCertified_state)
open Rekey (keyAt peers_of_content)

variable (host : Host)

theorem getElem?_setAdmission (admissions : Table PairAdmissions) (key : String)
    (admission : Option PairAdmissions) : (setAdmission admissions key admission)[key]? = admission := by
  cases admission with
  | none => simp [setAdmission]
  | some value => exact getElem?_insert_self admissions key value

theorem getElem?_setAdmission_ne (admissions : Table PairAdmissions) {key id : String}
    (admission : Option PairAdmissions) (h : key ≠ id) :
    (setAdmission admissions key admission)[id]? = admissions[id]? := by
  cases admission with
  | none => exact getElem?_erase_ne admissions h
  | some value => exact getElem?_insert_ne admissions value h

theorem generation_bump_ne (state : State) {key id : String} (h : key ≠ id) :
    (state.bump key).generation id = state.generation id := by
  unfold State.bump
  split
  · rfl
  · simp only [State.generation]
    rw [getElem?_insert_ne _ _ h]

theorem bump_peers (state : State) (key : String) :
    (state.bump key).peers = state.peers ∧ (state.bump key).pairAdmissions = state.pairAdmissions ∧
      (state.bump key).revoked = state.revoked := by
  unfold State.bump
  split <;> exact ⟨rfl, rfl, rfl⟩

theorem touch_slot (store : PeerStore) (saved : Bool) (draft : Peer) (id : String)
    (hcarries : ∀ stored ∈ store.state.peers[draft.pairingId]?, stored.psk = draft.psk) :
    (store.touch host saved draft).1.state.revoked = store.state.revoked ∧
    (store.touch host saved draft).1.state.pairAdmissions[id]? = store.state.pairAdmissions[id]? ∧
    ((store.touch host saved draft).1.state.peers[id]? = store.state.peers[id]? ∧
        (store.touch host saved draft).1.state.generation id = store.state.generation id ∨
      draft.pairingId = id ∧ (store.touch host saved draft).2 = .ok true ∧
        (store.touch host saved draft).1.state.peers[id]? = some draft ∧
        ∃ stored, store.state.peers[id]? = some stored ∧ stored.psk = draft.psk) := by
  unfold PeerStore.touch
  split
  swap
  · exact ⟨rfl, rfl, Or.inl ⟨rfl, rfl⟩⟩
  rename_i hcontains
  obtain ⟨stored, hstored⟩ := exists_of_mem (ExtTreeMap.mem_iff_contains.2 hcontains)
  have hkey := hcarries stored hstored
  have hcases := upsertCertified_state host store saved draft none
  generalize store.upsertCertified host saved draft none = out at *
  obtain ⟨after, result⟩ := out
  rcases hcases with ⟨hsame, -⟩ | ⟨hstate, hok⟩
  · simp only at hsame
    subst hsame
    exact ⟨rfl, rfl, Or.inl ⟨rfl, rfl⟩⟩
  · simp only at hstate hok
    obtain ⟨hpeers, hadmissions, hrevoked⟩ :=
      bump_peers (store.state.withPeer draft none) draft.pairingId
    simp only [hstate, hpeers, hadmissions, hrevoked, hok]
    refine ⟨rfl, ?_, ?_⟩
    · by_cases hid : draft.pairingId = id
      · subst hid
        simp [State.withPeer, getElem?_setAdmission, State.nextAdmission, hstored, hkey]
      · exact getElem?_setAdmission_ne _ _ hid
    · by_cases hid : draft.pairingId = id
      · subst hid
        exact Or.inr ⟨rfl, rfl, getElem?_insert_self _ _ _, stored, hstored, hkey⟩
      · refine Or.inl ⟨getElem?_insert_ne _ _ hid, ?_⟩
        rw [generation_bump_ne _ hid]
        rfl

/-- What a session reports of the other device. -/
def observations (peer : Peer) :
    String × Option SocketAddr × Int × Option DeviceProfile × Int :=
  (peer.name, peer.lastAddr, peer.lastSeenMs, peer.profile, peer.profileObservedAtMs)

/-- The same record up to what sessions wrote: the same key, and every observation one
that was there before or that a session wrote. -/
structure SameRecord (landed : List Peer) (before after : Option Peer) : Prop where
  key : after.map Peer.psk = before.map Peer.psk
  seen : ∀ new, after = some new → ∃ seen, (before = some seen ∨ seen ∈ landed) ∧
    observations new = observations seen
  device : ∀ new, after = some new → ∃ named, (before = some named ∨ named ∈ landed) ∧
    new.deviceId = named.deviceId

/-- The slot is as it was before the ceremony. -/
structure Kept (id : String) (d : Device) : Prop where
  admission : d.store.state.pairAdmissions[id]? = d.beforeAdmission
  record : SameRecord d.landed d.before d.store.state.peers[id]?

/-- The slot while the ceremony has written to it and may have to undo it: what was read
is as it was before, and what is there is the ceremony's own record or a session's. -/
structure Window (id : String) (d : Device) (slot : PeerSnapshot) : Prop where
  slotRead : slot.pairingId = id
  admission : slot.previousAdmission = d.beforeAdmission
  record : SameRecord d.landed d.before slot.previous
  unrevoked : id ∉ d.store.state.revoked
  current : ∃ current, d.store.state.peers[id]? = some current ∧
    (d.store.state.generation id = slot.generation ∨ current ∈ d.landed)

theorem SameRecord.refl (before : Option Peer) : SameRecord [] before before :=
  ⟨rfl, fun new hnew => ⟨new, Or.inl hnew, rfl⟩, fun new hnew => ⟨new, Or.inl hnew, rfl⟩⟩

theorem SameRecord.mono {landed more : List Peer} {before after : Option Peer}
    (h : SameRecord landed before after) (hsub : ∀ peer ∈ landed, peer ∈ more) :
    SameRecord more before after := by
  refine ⟨h.key, fun new hnew => ?_, fun new hnew => ?_⟩
  · obtain ⟨seen, hseen, hsame⟩ := h.seen new hnew
    exact ⟨seen, hseen.imp_right (hsub seen), hsame⟩
  · obtain ⟨named, hnamed, hsame⟩ := h.device new hnew
    exact ⟨named, hnamed.imp_right (hsub named), hsame⟩

variable {draft : Peer} {slot : PeerSnapshot} {saved stored : Bool} {d' other : Device}
  {agreed : PairAdmissions} {inbox rest outgoing : List PairingMessage}
  {sent : Option PairingMessage}

/-- A session writes over a record with the same key. -/
theorem SameRecord.touch {landed : List Peer} {before after : Option Peer} {stored : Peer}
    (h : SameRecord landed before after) (hafter : after = some stored)
    (hkey : stored.psk = draft.psk) : SameRecord (draft :: landed) before (some draft) := by
  refine ⟨?_, fun new hnew => ?_, fun new hnew => ?_⟩
  · rw [← h.key, hafter]
    simp [hkey]
  · exact ⟨draft, Or.inr List.mem_cons_self, by rw [Option.some.inj hnew]⟩
  · exact ⟨draft, Or.inr List.mem_cons_self, by rw [Option.some.inj hnew]⟩

/-- The slot at each point of the ceremony. -/
def SlotAt (id : String) (d : Device) : Prop :=
  match d.progress with
  | .announcing slot true | .waiting slot true | .undoing slot _ => Window id d slot
  | .writing _ slot => Kept id d ∧ slot.pairingId = id ∧
      slot.previousAdmission = d.beforeAdmission ∧ SameRecord d.landed d.before slot.previous
  | .confirming | .ended .confirmed => True
  | _ => Kept id d

example (id : String) (d : Device) (h : d.progress = .confirming) : SlotAt id d := by
  simp only [SlotAt, h]

/-- What one device keeps by itself. -/
structure Local (id : String) (key : Bytes) (d : Device) : Prop where
  peer : d.peer.pairingId = id ∧ d.peer.psk = key
  uncertified : d.before = none → d.beforeAdmission = none
  slot : SlotAt id d

variable {host} {id : String} {key : Bytes} {d : Device}

/-- The rollback puts the slot back. -/
theorem Window.restoreSlot (h : Window id d slot)
    (huncertified : d.before = none → d.beforeAdmission = none) :
    (d.store.state.restoreSlot slot).pairAdmissions[id]? = d.beforeAdmission ∧
      SameRecord d.landed d.before (d.store.state.restoreSlot slot).peers[id]? := by
  obtain ⟨current, hcurrent, hgeneration⟩ := h.current
  obtain rfl := h.slotRead
  have hrevoked : d.store.state.revoked.contains slot.pairingId = false := by
    rw [← Bool.not_eq_true, ExtTreeMap.contains_iff_mem]
    exact h.unrevoked
  have hrecord := h.record
  unfold State.restoreSlot State.restored
  simp only [hrevoked, Bool.false_eq_true, if_false]
  cases hprevious : slot.previous with
  | none =>
    rw [hprevious] at hrecord
    have hnone : d.before = none := by simpa using hrecord.key.symm
    refine ⟨?_, ?_⟩
    · simp [huncertified hnone]
    · simpa using hrecord
  | some previous =>
    rw [hprevious] at hrecord
    by_cases hsame : d.store.state.generation slot.pairingId = slot.generation
    · simp only [hsame, ne_eq, not_true_eq_false, if_false]
      refine ⟨(getElem?_setAdmission _ _ _).trans h.admission, ?_⟩
      rw [getElem?_insert_self]
      exact hrecord
    · -- a session wrote in between, so what is there now is what it saw
      have hlanded : current ∈ d.landed := hgeneration.resolve_left hsame
      simp only [hsame, ne_eq, not_false_eq_true, if_true, hcurrent, Option.map_some]
      refine ⟨(getElem?_setAdmission _ _ _).trans h.admission, ?_⟩
      rw [getElem?_insert_self]
      refine ⟨?_, fun new hnew => ?_, fun new hnew => ?_⟩
      · rw [← hrecord.key]
        rfl
      · obtain rfl := Option.some.inj hnew
        exact ⟨current, Or.inr hlanded, rfl⟩
      · obtain rfl := Option.some.inj hnew
        cases hdevice : previous.deviceId with
        | none => exact ⟨current, Or.inr hlanded, rfl⟩
        | some device =>
          obtain ⟨named, hnamed, heq⟩ := hrecord.device previous rfl
          exact ⟨named, hnamed, by rw [← heq, hdevice]; rfl⟩

theorem Window.restore {slot : PeerSnapshot} (h : Window id d slot)
    (huncertified : d.before = none → d.beforeAdmission = none) (saved : Bool)
    (commit : Option Commit) (progress : Progress) :
    Kept id { d with
      store := (d.store.restore host saved slot).1
      commit := commit
      progress := progress } := by
  obtain ⟨hadmission, hrecord⟩ := h.restoreSlot huncertified
  have hmemory := (restore_commits host d.store saved slot).memory
  obtain ⟨hadmissions, -, -, hpeers, -, -⟩ := State.mk.inj hmemory
  refine ⟨?_, ?_⟩
  · rw [← hadmission]
    exact congrArg (fun admissions : Table PairAdmissions => admissions[id]?) hadmissions
  · have hsame := congrArg (fun peers : Table Peer => peers[id]?) hpeers
    show SameRecord d.landed d.before (d.store.restore host saved slot).1.state.peers[id]?
    rw [show (d.store.restore host saved slot).1.state.peers[id]? = _ from hsame]
    exact hrecord

theorem mem_landed {peer : Peer} (h : peer ∈ d.landed) :
    peer ∈ if (d.store.touch host saved draft).2.toOption = some true then draft :: d.landed
      else d.landed := by
  split
  · exact List.mem_cons_of_mem _ h
  · exact h

theorem Kept.touch (h : Kept id d)
    (hcarries : ∀ stored ∈ d.store.state.peers[draft.pairingId]?, stored.psk = draft.psk) :
    Kept id { d with
      store := (d.store.touch host saved draft).1
      landed := if (d.store.touch host saved draft).2.toOption = some true then draft :: d.landed
        else d.landed } := by
  obtain ⟨-, hadmission, hslot⟩ := touch_slot host d.store saved draft id hcarries
  refine ⟨hadmission.trans h.admission, ?_⟩
  rcases hslot with ⟨hpeer, -⟩ | ⟨-, hok, hpeer, stored, hstored, hkey⟩
  · simp only [hpeer]
    exact h.record.mono fun _ => mem_landed
  · simp only [hpeer, hok, Except.toOption, if_true]
    exact h.record.touch hstored hkey

theorem Window.touch (h : Window id d slot)
    (hcarries : ∀ stored ∈ d.store.state.peers[draft.pairingId]?, stored.psk = draft.psk) :
    Window id { d with
      store := (d.store.touch host saved draft).1
      landed := if (d.store.touch host saved draft).2.toOption = some true then draft :: d.landed
        else d.landed } slot := by
  obtain ⟨hrevoked, -, hslot⟩ := touch_slot host d.store saved draft id hcarries
  refine ⟨h.slotRead, h.admission, h.record.mono fun _ => mem_landed, ?_, ?_⟩
  · simp only [hrevoked]
    exact h.unrevoked
  · obtain ⟨current, hcurrent, hgeneration⟩ := h.current
    rcases hslot with ⟨hpeer, hcount⟩ | ⟨-, hok, hpeer, -⟩
    · refine ⟨current, hpeer.trans hcurrent, ?_⟩
      exact hgeneration.imp hcount.trans mem_landed
    · refine ⟨draft, hpeer, Or.inr ?_⟩
      simp [hok, Except.toOption]

theorem SlotAt.touch (h : SlotAt id d)
    (hcarries : ∀ stored ∈ d.store.state.peers[draft.pairingId]?, stored.psk = draft.psk) :
    SlotAt id { d with
      store := (d.store.touch host saved draft).1
      landed := if (d.store.touch host saved draft).2.toOption = some true then draft :: d.landed
        else d.landed } := by
  unfold SlotAt at h ⊢
  simp only
  split at h
  · exact h.touch hcarries
  · exact h.touch hcarries
  · exact h.touch hcarries
  · obtain ⟨hkept, hslot, hadmission, hrecord⟩ := h
    exact ⟨hkept.touch hcarries, hslot, hadmission, hrecord.mono fun _ => mem_landed⟩
  · trivial
  · trivial
  · exact h.touch hcarries

/-- Where the slot is as before, it stays so until it is written to. -/
theorem Kept.slotAt (h : Kept id d) (hstore : d'.store = d.store) (hbefore : d'.before = d.before)
    (hadmission : d'.beforeAdmission = d.beforeAdmission) (hlanded : d'.landed = d.landed)
    (hprogress : (∃ phase, d'.progress = .ended phase) ∨ (∃ l r a, d'.progress = .deciding l r a) ∨
      (∃ a, d'.progress = .decided a) ∨ (∃ a, d'.progress = .committing a) ∨
      (∃ slot, d'.progress = .announcing slot false) ∨
      ∃ slot, d'.progress = .waiting slot false) : SlotAt id d' := by
  have hkept : Kept id d' := by
    refine ⟨?_, ?_⟩
    · rw [hstore, hadmission]
      exact h.admission
    · rw [hstore, hbefore, hlanded]
      exact h.record
  unfold SlotAt
  rcases hprogress with ⟨phase, hp⟩ | ⟨l, r, a, hp⟩ | ⟨a, hp⟩ | ⟨a, hp⟩ | ⟨slot, hp⟩ | ⟨slot, hp⟩
  · rw [hp]
    cases phase <;> trivial
  all_goals
    rw [hp]
    exact hkept

theorem afterDecision_cases (l r : Bool) (agreed : PairAdmissions) :
    afterDecision l r agreed = .decided agreed ∧ l = true ∧ r = true ∨
      afterDecision l r agreed = .deciding l r agreed := by
  cases l <;> cases r <;> simp [afterDecision]

theorem SlotAt.settle (acknowledged : Option (Option Bool))
    (h : if stored then Window id d slot else Kept id d) :
    SlotAt id (d.settle slot stored acknowledged) := by
  cases stored with
  | true =>
    unfold SlotAt Device.settle
    by_cases hboth : outcomeOf true acknowledged = .both
    · simp [hboth]
    · simp only [hboth, if_false, if_true]
      exact { h with }
  | false =>
    have houtcome : outcomeOf false acknowledged ≠ .both := by
      unfold outcomeOf
      split <;> simp
    refine Kept.slotAt h rfl rfl rfl rfl (Or.inl ⟨phaseOf (outcomeOf false acknowledged), ?_⟩)
    simp [Device.settle, houtcome]

theorem SlotAt.kept_of_deciding (h : SlotAt id d) {l r : Bool}
    (hprogress : d.progress = .deciding l r agreed) : Kept id d := by
  rw [SlotAt, hprogress] at h
  exact h

theorem SlotAt.of_sent (h : SlotAt id d)
    (hprogress : d.progress = .announcing slot stored ∨ d.progress = .waiting slot stored) :
    if stored then Window id d slot else Kept id d := by
  rcases hprogress with hprogress | hprogress
  all_goals
    rw [SlotAt, hprogress] at h
    cases stored <;> exact h

theorem moves_local (h : Local id key d) (hmoves : Moves host d inbox d' rest sent) :
    Local id key d' := by
  obtain ⟨hpeer, huncertified, hslot⟩ := h
  cases hmoves with
  | proposes proposal hprogress =>
    have hkept : Kept id d := by simpa only [SlotAt, hprogress] using hslot
    exact ⟨hpeer, huncertified, hkept.slotAt rfl rfl rfl rfl (Or.inr (Or.inl ⟨_, _, _, rfl⟩))⟩
  | givesUp phase _ _ hprogress _ _ =>
    have hkept : Kept id d := by
      rcases hprogress with hp | ⟨_, _, _, hp⟩ | ⟨_, hp⟩ <;> simpa only [SlotAt, hp] using hslot
    exact ⟨hpeer, huncertified, hkept.slotAt rfl rfl rfl rfl (Or.inl ⟨phase, rfl⟩)⟩
  | idles => exact ⟨hpeer, huncertified, hslot⟩
  | accepts r agreed after _ hprogress hafter _ =>
    have hkept := hslot.kept_of_deciding hprogress
    refine ⟨hpeer, huncertified, hkept.slotAt rfl rfl rfl rfl ?_⟩
    rcases hafter with rfl | rfl
    · exact Or.inl ⟨_, rfl⟩
    · rcases afterDecision_cases true r agreed with ⟨hp, -⟩ | hp
      · exact Or.inr (Or.inr (Or.inl ⟨_, hp⟩))
      · exact Or.inr (Or.inl ⟨_, _, _, hp⟩)
  | hears l r old agreed remote proposal _ hprogress _ _ _ =>
    have hkept := hslot.kept_of_deciding hprogress
    refine ⟨hpeer, huncertified, hkept.slotAt rfl rfl rfl rfl ?_⟩
    rcases afterDecision_cases l true agreed with ⟨hp, -⟩ | hp
    · exact Or.inr (Or.inr (Or.inl ⟨_, hp⟩))
    · exact Or.inr (Or.inl ⟨_, _, _, hp⟩)
  | settles slot stored acknowledged _ _ hprogress _ _ _ =>
    exact ⟨hpeer, huncertified, SlotAt.settle acknowledged (hslot.of_sent hprogress)⟩
  | begins agreed hprogress =>
    have hkept : Kept id d := by simpa only [SlotAt, hprogress] using hslot
    refine ⟨hpeer, huncertified, hkept.slotAt rfl rfl rfl rfl ?_⟩
    exact Or.inr (Or.inr (Or.inr (Or.inl ⟨_, rfl⟩)))
  | reads agreed hprogress =>
    have hkept : Kept id d := by simpa only [SlotAt, hprogress] using hslot
    refine ⟨hpeer, huncertified, ⟨⟨hkept.admission, hkept.record⟩, hpeer.1, ?_, ?_⟩⟩
    · rw [← hkept.admission, ← hpeer.1]
      rfl
    · have hrecord := hkept.record
      rw [← hpeer.1] at hrecord
      exact hrecord
  | writes agreed slot store hprogress hcheck hcommits =>
    obtain ⟨-, hread, hadmission, hrecord⟩ :=
      (by simpa only [SlotAt, hprogress] using hslot : Kept id d ∧ slot.pairingId = id ∧
        slot.previousAdmission = d.beforeAdmission ∧ SameRecord d.landed d.before slot.previous)
    obtain ⟨-, -, -, hpeers, hrevoked, -⟩ := State.mk.inj hcommits.memory
    refine ⟨hpeer, huncertified, ⟨hread, hadmission, hrecord, ?_, ?_⟩⟩
    · simp only [hrevoked]
      rw [← hpeer.1]
      exact (checkUpsert_ok hcheck).2.1
    · refine ⟨d.peer, ?_, Or.inl ?_⟩
      · simp only [hpeers, State.withPeer]
        rw [hpeer.1]
        exact getElem?_insert_self _ _ _
      · rw [hread]
  | writeFails agreed slot hprogress =>
    obtain ⟨hkept, -⟩ :=
      (by simpa only [SlotAt, hprogress] using hslot : Kept id d ∧ slot.pairingId = id ∧
        slot.previousAdmission = d.beforeAdmission ∧ SameRecord d.landed d.before slot.previous)
    refine ⟨hpeer, huncertified, hkept.slotAt rfl rfl rfl rfl ?_⟩
    exact Or.inr (Or.inr (Or.inr (Or.inr (Or.inl ⟨_, rfl⟩))))
  | announces slot stored _ hprogress _ =>
    have hsent := hslot.of_sent (Or.inl hprogress)
    refine ⟨hpeer, huncertified, ?_⟩
    cases stored with
    | true => exact { hsent with }
    | false => exact ⟨hsent.admission, hsent.record⟩
  | undoes saved slot old outcome hprogress _ =>
    have hwindow : Window id d slot := by simpa only [SlotAt, hprogress] using hslot
    have hkept := @Window.restore host _ _ _ hwindow huncertified saved (some outcome)
      (.ended (phaseOf outcome))
    exact ⟨hpeer, huncertified, hkept.slotAt rfl rfl rfl rfl (Or.inl ⟨_, rfl⟩)⟩
  | confirms saved hprogress => exact ⟨hpeer, huncertified, trivial⟩
  | touches saved draft hcarries => exact ⟨hpeer, huncertified, hslot.touch hcarries⟩

/-- Both users accepted, and the admissions are agreed. -/
def Agreed (d : Device) (admissions : PairAdmissions) : Prop :=
  d.accepted = true ∧ ∃ mine theirs, d.proposal = some mine ∧ d.heard = some theirs ∧
    mine.agree theirs = .ok admissions

/-- What a device knows at each point of the ceremony. -/
def StageAt (d : Device) : Prop :=
  match d.progress with
  | .proposing => d.proposal = none ∧ d.wrote = none
  | .deciding l r agreed => d.wrote = none ∧ (l = true → d.accepted = true) ∧
      (r = true → ∃ mine theirs, d.proposal = some mine ∧ d.heard = some theirs ∧
        mine.agree theirs = .ok agreed)
  | .decided agreed | .committing agreed | .writing agreed _ => Agreed d agreed
  | .announcing _ stored | .waiting _ stored => stored = true → d.wrote.isSome
  | .undoing _ outcome => outcome ≠ .both ∧ d.wrote.isSome
  | .confirming => d.wrote.isSome
  | .ended _ => True

/-- What a device has said, heard and done, with what is on its way to the other. -/
structure Talk (id : String) (key : Bytes) (d other : Device)
    (outgoing : List PairingMessage) : Prop where
  stage : StageAt d
  told : ∀ proposal, .decision true (some proposal) ∈ outgoing →
    d.accepted = true ∧ d.proposal = some proposal
  said : .stored true ∈ outgoing → d.wrote.isSome
  heard : ∀ proposal, d.heard = some proposal →
    other.accepted = true ∧ other.proposal = some proposal
  wrote : ∀ psk admissions, d.wrote = some (psk, admissions) → psk = key ∧ Agreed d admissions
  both : d.commit = some .both → d.wrote.isSome ∧ other.wrote.isSome
  newKey : keyAt d.store.state id = some key → d.wrote.isSome

/-- What is known of a device stays true of it. -/
structure Grows (d d' : Device) : Prop where
  accepted : d.accepted = true → d'.accepted = true
  proposal : ∀ proposal, d.proposal = some proposal → d'.proposal = some proposal
  wrote : d.wrote.isSome → d'.wrote.isSome

theorem Grows.of_eq (haccepted : d'.accepted = d.accepted) (hproposal : d'.proposal = d.proposal)
    (hwrote : d'.wrote = d.wrote) : Grows d d' :=
  ⟨fun h => haccepted.trans h, fun _ h => hproposal.trans h, fun h => hwrote ▸ h⟩

theorem moves_grows (hstage : StageAt d) (hmoves : Moves host d inbox d' rest sent) :
    Grows d d' := by
  cases hmoves with
  | proposes proposal hprogress =>
    obtain ⟨hnone, -⟩ := (by simpa only [StageAt, hprogress] using hstage :
      d.proposal = none ∧ d.wrote = none)
    exact ⟨fun h => h, fun _ h => by simp [hnone] at h, fun h => h⟩
  | accepts => exact ⟨fun _ => rfl, fun _ h => h, fun h => h⟩
  | writes => exact ⟨fun h => h, fun _ h => h, fun _ => rfl⟩
  | _ => exact Grows.of_eq rfl rfl rfl

theorem moves_rest (hmoves : Moves host d inbox d' rest sent) :
    ∀ message ∈ rest, message ∈ inbox := by
  cases hmoves with
  | givesUp _ _ _ _ hrest _ | settles _ _ _ _ _ _ _ hrest _ => exact hrest
  | hears _ _ _ _ _ _ _ _ hinbox _ _ =>
    intro message hmessage
    rw [hinbox]
    exact List.mem_cons_of_mem _ hmessage
  | _ => exact fun _ h => h

/-- The other device after a step of this one. -/
theorem Talk.grows {left : List PairingMessage} (h : Talk id key other d outgoing)
    (hgrows : Grows d d') (hleft : ∀ message ∈ left, message ∈ outgoing) :
    Talk id key other d' left :=
  ⟨h.stage, fun proposal hmem => h.told proposal (hleft _ hmem), fun hmem => h.said (hleft _ hmem),
    fun proposal hheard => ⟨hgrows.accepted (h.heard proposal hheard).1,
      hgrows.proposal proposal (h.heard proposal hheard).2⟩,
    h.wrote, fun hboth => ⟨(h.both hboth).1, hgrows.wrote (h.both hboth).2⟩, h.newKey⟩

/-- A step that writes nothing, hears nothing and says nothing that binds. -/
theorem Talk.quiet (h : Talk id key d other outgoing) (hstage : StageAt d')
    (hsent : ∀ message ∈ sent, message = .decision false none ∨
      ∃ ok, message = .stored ok ∧ (ok = true → d.wrote.isSome))
    (hproposal : d'.proposal = d.proposal) (haccepted : d'.accepted = d.accepted)
    (hheard : d'.heard = d.heard) (hwrote : d'.wrote = d.wrote)
    (hboth : d'.commit = some .both → d.wrote.isSome ∧ other.wrote.isSome)
    (hkey : keyAt d'.store.state id = some key → d.wrote.isSome) :
    Talk id key d' other (outgoing ++ sent.toList) := by
  have hmem : ∀ message ∈ outgoing ++ sent.toList, message ∈ outgoing ∨
      message = .decision false none ∨ ∃ ok, message = .stored ok ∧ (ok = true → d.wrote.isSome) := by
    intro message hmessage
    rcases List.mem_append.1 hmessage with hmessage | hmessage
    · exact Or.inl hmessage
    · exact Or.inr (hsent message (Option.mem_toList.1 hmessage))
  refine ⟨hstage, ?_, ?_, ?_, ?_, ?_, ?_⟩
  · intro proposal hmessage
    rw [haccepted, hproposal]
    rcases hmem _ hmessage with hold | hnew | ⟨ok, hnew, -⟩
    · exact h.told proposal hold
    · simp at hnew
    · simp at hnew
  · intro hmessage
    rw [hwrote]
    rcases hmem _ hmessage with hold | hnew | ⟨ok, hnew, hok⟩
    · exact h.said hold
    · simp at hnew
    · exact hok (PairingMessage.stored.inj hnew).symm
  · rw [hheard]
    exact h.heard
  · intro psk admissions hrecord
    rw [hwrote] at hrecord
    obtain ⟨hpsk, haccept, hagree⟩ := h.wrote psk admissions hrecord
    rw [Agreed, haccepted, hproposal, hheard]
    exact ⟨hpsk, haccept, hagree⟩
  · rw [hwrote]
    exact hboth
  · rw [hwrote]
    exact hkey

theorem outcomeOf_both {acknowledged : Option (Option Bool)}
    (h : outcomeOf stored acknowledged = .both) :
    stored = true ∧ acknowledged = some (some true) := by
  unfold outcomeOf at h
  split at h
  · simp at h
  split at h
  · simp at h
  rename_i hstored
  split at h
  · rename_i hack
    exact ⟨by simpa using hstored, by rw [hack]⟩
  · simp at h

theorem stageAt_afterDecision {l r : Bool} (hprogress : d'.progress = afterDecision l r agreed)
    (hwrote : d'.wrote = none) (hl : l = true → d'.accepted = true)
    (hr : r = true → ∃ mine theirs, d'.proposal = some mine ∧ d'.heard = some theirs ∧
      mine.agree theirs = .ok agreed) : StageAt d' := by
  unfold StageAt
  rcases afterDecision_cases l r agreed with ⟨hp, hleft, hright⟩ | hp
  · rw [hprogress, hp]
    exact ⟨hl hleft, hr hright⟩
  · rw [hprogress, hp]
    exact ⟨hwrote, hl, hr⟩

theorem stage_settle {acknowledged : Option (Option Bool)}
    (hstored : stored = true → d.wrote.isSome) : StageAt (d.settle slot stored acknowledged) := by
  unfold StageAt Device.settle
  by_cases hboth : outcomeOf stored acknowledged = .both
  · simp only [hboth, if_true]
    exact hstored (outcomeOf_both hboth).1
  · cases stored with
    | true =>
      simp only [hboth, if_false, if_true]
      exact ⟨hboth, hstored rfl⟩
    | false => simp [hboth]

/-- A device after its own step. -/
theorem moves_talk (hpsk : d.peer.psk = key) (h : Talk id key d other outgoing)
    (hother : Talk id key other d inbox) (hmoves : Moves host d inbox d' rest sent) :
    Talk id key d' other (outgoing ++ sent.toList) := by
  have hstage := h.stage
  cases hmoves with
  | proposes proposal hprogress =>
    obtain ⟨hnone, hunwritten⟩ := (by simpa only [StageAt, hprogress] using hstage :
      d.proposal = none ∧ d.wrote = none)
    rw [Option.toList_none, List.append_nil]
    refine ⟨⟨hunwritten, by simp, by simp⟩, ?_, h.said, h.heard, ?_, h.both, h.newKey⟩
    · intro told hmem
      have hproposal := (h.told told hmem).2
      simp [hnone] at hproposal
    · intro psk admissions hwrote
      simp [hunwritten] at hwrote
  | givesUp phase _ _ hprogress _ hsent =>
    exact h.quiet trivial (fun message hmessage => Or.inl (hsent message hmessage)) rfl rfl rfl rfl
      h.both h.newKey
  | idles =>
    rw [Option.toList_none, List.append_nil]
    exact h
  | accepts r agreed after _ hprogress hafter hsent =>
    obtain ⟨hunwritten, -, hr⟩ := (by simpa only [StageAt, hprogress] using hstage :
      d.wrote = none ∧ (false = true → d.accepted = true) ∧ (r = true → ∃ mine theirs, d.proposal = some mine ∧
        d.heard = some theirs ∧ mine.agree theirs = .ok agreed))
    refine ⟨?_, ?_, ?_, h.heard, ?_, h.both, h.newKey⟩
    · rcases hafter with rfl | rfl
      · trivial
      · exact stageAt_afterDecision rfl hunwritten (fun _ => rfl) hr
    · intro proposal hmem
      refine ⟨rfl, ?_⟩
      rcases List.mem_append.1 hmem with hold | hnew
      · exact (h.told proposal hold).2
      · have heq := hsent _ (Option.mem_toList.1 hnew)
        simp only [PairingMessage.decision.injEq, true_and] at heq
        exact heq.symm
    · intro hmem
      rcases List.mem_append.1 hmem with hold | hnew
      · exact h.said hold
      · have heq := hsent _ (Option.mem_toList.1 hnew)
        simp at heq
    · intro psk admissions hwrote
      obtain ⟨hkey, -, hagree⟩ := h.wrote psk admissions hwrote
      exact ⟨hkey, rfl, hagree⟩
  | hears l r old agreed remote proposal _ hprogress hinbox hproposal hagreed =>
    obtain ⟨hunwritten, hl, -⟩ := (by simpa only [StageAt, hprogress] using hstage :
      d.wrote = none ∧ (l = true → d.accepted = true) ∧ (r = true → ∃ mine theirs, d.proposal = some mine ∧
        d.heard = some theirs ∧ mine.agree theirs = .ok old))
    obtain ⟨haccepted, hremote⟩ := hother.told remote (by rw [hinbox]; exact List.mem_cons_self)
    rw [Option.toList_none, List.append_nil]
    refine ⟨?_, h.told, h.said, ?_, ?_, h.both, h.newKey⟩
    · exact stageAt_afterDecision rfl hunwritten hl fun _ => ⟨proposal, remote, hproposal, rfl, hagreed⟩
    · intro heard hheard
      obtain rfl := Option.some.inj hheard
      exact ⟨haccepted, hremote⟩
    · -- a device that is still deciding has written nothing
      intro psk admissions hwrote
      simp [hunwritten] at hwrote
  | settles slot stored acknowledged _ _ hprogress hacknowledged _ hsent =>
    have hstored : stored = true → d.wrote.isSome := by
      rcases hprogress with hp | hp <;> simpa only [StageAt, hp] using hstage
    refine h.quiet (stage_settle hstored) (fun message hmessage => Or.inr ⟨stored, ?_, hstored⟩)
      rfl rfl rfl rfl ?_ h.newKey
    · exact hsent message hmessage
    · intro hboth
      obtain ⟨rfl, hack⟩ := outcomeOf_both (Option.some.inj hboth)
      exact ⟨hstored rfl, hother.said (hacknowledged hack)⟩
  | begins agreed hprogress | reads agreed hprogress =>
    rw [Option.toList_none, List.append_nil]
    have hagreed : Agreed d agreed := by simpa only [StageAt, hprogress] using hstage
    exact ⟨hagreed, h.told, h.said, h.heard, h.wrote, h.both, h.newKey⟩
  | writes agreed slot store hprogress _ _ =>
    rw [Option.toList_none, List.append_nil]
    have hagreed : Agreed d agreed := by simpa only [StageAt, hprogress] using hstage
    refine ⟨fun _ => rfl, h.told, fun _ => rfl, h.heard, ?_, fun hboth => ⟨rfl, (h.both hboth).2⟩,
      fun _ => rfl⟩
    intro psk admissions hwrote
    obtain ⟨rfl, rfl⟩ := Prod.mk.inj (Option.some.inj hwrote)
    exact ⟨hpsk, hagreed⟩
  | writeFails agreed slot hprogress =>
    rw [Option.toList_none, List.append_nil]
    exact ⟨by simp [StageAt], h.told, h.said, h.heard, h.wrote, h.both, h.newKey⟩
  | announces slot stored _ hprogress hsent =>
    have hstored : stored = true → d.wrote.isSome := by
      simpa only [StageAt, hprogress] using hstage
    exact h.quiet hstored (fun message hmessage => Or.inr ⟨stored, hsent message hmessage, hstored⟩)
      rfl rfl rfl rfl h.both h.newKey
  | undoes saved slot old outcome hprogress houtcome =>
    obtain ⟨hnot, hwrote⟩ := (by simpa only [StageAt, hprogress] using hstage :
      old ≠ .both ∧ d.wrote.isSome)
    refine h.quiet trivial (by simp) rfl rfl rfl rfl (fun hboth => ?_) fun _ => hwrote
    have hsame := Option.some.inj hboth
    rcases houtcome with rfl | rfl
    · exact absurd hsame hnot
    · simp at hsame
  | confirms saved hprogress =>
    have hwrote : d.wrote.isSome := by simpa only [StageAt, hprogress] using hstage
    exact h.quiet trivial (by simp) rfl rfl rfl rfl h.both fun _ => hwrote
  | touches saved draft hcarries =>
    refine h.quiet hstage (by simp) rfl rfl rfl rfl h.both fun hkey => h.newKey ?_
    obtain ⟨-, -, hslot⟩ := touch_slot host d.store saved draft id hcarries
    rcases hslot with ⟨hpeer, -⟩ | ⟨-, -, hpeer, stored, hstored, hsame⟩
    · simpa [keyAt, hpeer] using hkey
    · have hdraft : draft.psk = key := by simpa [keyAt, hpeer] using hkey
      simp [keyAt, hstored, hsame, hdraft]

def Inv (id : String) (key : Bytes) (w : World) : Prop :=
  ∀ side : Side, Local id key (w.device side) ∧
    Talk id key (w.device side) (w.device side.other) (w.inbox side.other)

def allowed (host : Host) (w : World) : Act → Prop
  | .device side act => act.allowed host (w.device side)
  | .cut _ => True

instance (host : Host) (w : World) (act : Act) : Decidable (allowed host w act) := by
  unfold allowed DeviceAct.allowed
  split
  · split <;> infer_instance
  · infer_instance

@[simp] theorem other_other (side : Side) : side.other.other = side := by
  cases side <;> rfl

theorem other_ne (side : Side) : side.other ≠ side := by
  cases side <;> simp [Side.other]

theorem eq_or_other (side one : Side) : one = side ∨ one = side.other := by
  cases side <;> cases one <;> simp [Side.other]

theorem put_keeps {w : World} {side : Side} (h : Inv id key w)
    (hmoves : Moves host (w.device side) (w.inbox side) d' rest sent) :
    Inv id key (w.put side d' rest sent) := by
  obtain ⟨hlocal, htalk⟩ := h side
  obtain ⟨hlocal', htalk'⟩ := h side.other
  rw [other_other] at htalk'
  intro one
  rcases eq_or_other side one with rfl | rfl
  · simp only [World.put, Function.update_self, Function.update_of_ne (other_ne one)]
    exact ⟨moves_local hlocal hmoves, moves_talk hlocal.peer.2 htalk htalk' hmoves⟩
  · simp only [World.put, other_other, Function.update_self, Function.update_of_ne (other_ne side),
      Function.update_of_ne (Ne.symm (other_ne side))]
    exact ⟨hlocal', htalk'.grows (moves_grows htalk.stage hmoves) (moves_rest hmoves)⟩

theorem step_keeps {w w' : World} {act : Act} (h : Inv id key w) (hallowed : allowed host w act)
    (hstep : (machine host id key).step w act = some w') : Inv id key w' := by
  cases act with
  | device side act =>
    obtain ⟨⟨d', rest, sent⟩, hdevice, rfl⟩ := Option.map_eq_some_iff.1 hstep
    exact put_keeps h (step_moves host hallowed hdevice)
  | cut side =>
    obtain rfl := Option.some.inj hstep
    intro one
    obtain ⟨hlocal, htalk⟩ := h one
    refine ⟨hlocal, htalk.grows (Grows.of_eq rfl rfl rfl) fun message hmessage => ?_⟩
    by_cases hside : one.other = side
    · subst hside
      simp at hmessage
    · simpa [Function.update_of_ne hside] using hmessage

theorem reaches_inv {w : World} (h : Reaches (machine host id key) (allowed host) w) :
    Inv id key w := by
  refine h.invariant ?_ fun w w' act hinv hallowed hstep => step_keeps hinv hallowed hstep
  intro w hready side
  obtain ⟨hside, -⟩ := hready side
  obtain ⟨-, hinbox⟩ := hready side.other
  obtain ⟨hprogress, hproposal, haccepted, hheard, hwrote, hcommit, hlanded⟩ := hside.untouched
  refine ⟨⟨hside.peer, ?_, ?_⟩, ⟨?_, ?_, ?_, ?_, ?_, ?_, ?_⟩⟩
  · intro hnone
    rw [hside.before] at hnone
    rw [hside.beforeAdmission]
    by_contra hsome
    obtain ⟨admission, hadmission⟩ := Option.ne_none_iff_exists'.1 hsome
    obtain ⟨peer, hpeer⟩ := exists_of_mem (hside.certified (mem_of_getElem? hadmission))
    simp [hpeer] at hnone
  · rw [SlotAt, hprogress]
    refine ⟨hside.beforeAdmission.symm, ?_⟩
    rw [hlanded, hside.before]
    exact SameRecord.refl _
  · rw [StageAt, hprogress]
    exact ⟨hproposal, hwrote⟩
  · simp [hinbox]
  · simp [hinbox]
  · simp [hheard]
  · simp [hwrote]
  · simp [hcommit]
  · exact fun hkey => absurd hkey hside.fresh

/-- The other side may ask for one admission more, so both end at the same two. -/
theorem agree_mirrors {mine theirs other : PairAdmissions} (h : mine.agree theirs = .ok agreed)
    (h' : theirs.agree mine = .ok other) :
    other.localSide = agreed.remote ∧ other.remote = agreed.localSide := by
  have hvalue : ∀ {a b c : PairAdmissions}, a.agree b = .ok c →
      c = ⟨max a.localSide b.remote, max a.remote b.localSide⟩ := by
    intro a b c hagree
    unfold PairAdmissions.agree at hagree
    obtain ⟨next, hsucc, hagree⟩ := bind_ok_iff.1 hagree
    dsimp only at hagree
    split at hagree
    · simp at hagree
    split at hagree
    · simp at hagree
    · exact (Except.ok.inj hagree).symm
  rw [hvalue h, hvalue h']
  exact ⟨max_comm _ _, max_comm _ _⟩

/-- In every state of a ceremony whose confirmations the group takes: a device that did
not end confirmed has its slot as before; the new key is stored only when both users
accepted; and a device that commits for both knows that the other one stored the same
key under the mirrored admissions. -/
theorem ceremony_all_or_nothing {w : World}
    (h : Reaches (machine host id key) (allowed host) w) (side : Side) :
    (∀ phase, (w.device side).progress = .ended phase → phase ≠ .confirmed →
      Kept id (w.device side)) ∧
    (keyAt (w.device side).store.state id = some key →
      (w.device side).accepted = true ∧ (w.device side.other).accepted = true) ∧
    ((w.device side).commit = some .both → ∃ mine theirs,
      (w.device side).wrote = some (key, mine) ∧ (w.device side.other).wrote = some (key, theirs) ∧
      theirs.localSide = mine.remote ∧ theirs.remote = mine.localSide) := by
  have hinv := reaches_inv h
  obtain ⟨hlocal, htalk⟩ := hinv side
  obtain ⟨-, htalk'⟩ := hinv side.other
  rw [other_other] at htalk'
  refine ⟨?_, ?_, ?_⟩
  · intro phase hended hphase
    have hslot := hlocal.slot
    rw [SlotAt, hended] at hslot
    cases phase with
    | confirmed => exact absurd rfl hphase
    | _ => exact hslot
  · intro hkey
    obtain ⟨⟨psk, admissions⟩, hwrote⟩ := Option.isSome_iff_exists.1 (htalk.newKey hkey)
    obtain ⟨-, haccepted, _, theirs, -, hheard, -⟩ := htalk.wrote psk admissions hwrote
    exact ⟨haccepted, (htalk.heard theirs hheard).1⟩
  · intro hboth
    obtain ⟨hmine, htheirs⟩ := htalk.both hboth
    obtain ⟨⟨psk, admissions⟩, hwrote⟩ := Option.isSome_iff_exists.1 hmine
    obtain ⟨⟨psk', admissions'⟩, hwrote'⟩ := Option.isSome_iff_exists.1 htheirs
    obtain ⟨rfl, -, mine, theirs, hproposal, hheard, hagree⟩ := htalk.wrote psk admissions hwrote
    obtain ⟨rfl, -, mine', theirs', hproposal', hheard', hagree'⟩ :=
      htalk'.wrote psk' admissions' hwrote'
    -- each proposal is the one that the other device heard
    have htheirs : theirs = mine' :=
      Option.some.inj ((htalk.heard theirs hheard).2.symm.trans hproposal')
    have hmine' : theirs' = mine :=
      Option.some.inj ((htalk'.heard theirs' hheard').2.symm.trans hproposal)
    subst htheirs hmine'
    obtain ⟨hleft, hright⟩ := agree_mirrors hagree hagree'
    exact ⟨admissions, admissions', hwrote, hwrote', hleft, hright⟩

def sampleKey : Bytes := List.replicate 32 7

/-- A device alone in its group, about to pair with another one. -/
def sampleDevice (own other : String) : Device where
  store := { state := { group := some ⟨⟨[1], [2]⟩, ⟨own, (∅ : Table Member).insert own
    ⟨own, own, [1], [2], 0, 0, {}, none⟩, ∅⟩⟩ } }
  peer := ⟨"slot", some other, other, sampleKey, none, 0, none, 0⟩
  before := none
  beforeAdmission := none

def sampleWorld : World where
  device
    | .left => sampleDevice "laptop" "phone"
    | .right => sampleDevice "phone" "laptop"
  inbox := fun _ => []

theorem sample_reached (condition : World → Act → Prop) :
    Reaches (machine (Host.over openCrypto) "slot" sampleKey) condition sampleWorld := by
  refine Reaches.start _ fun side => ⟨?_, rfl⟩
  cases side with
  | left | right => exact ⟨⟨rfl, rfl⟩, by simp [sampleWorld, sampleDevice],
      by simp [sampleWorld, sampleDevice], by simp [sampleWorld, sampleDevice],
      by simp [sampleWorld, sampleDevice], by simp [sampleWorld, sampleDevice, keyAt],
      rfl, rfl, rfl, rfl, rfl, rfl, rfl⟩

noncomputable def after (acts : List Act) : World :=
  (run (machine (Host.over openCrypto) "slot" sampleKey) sampleWorld acts).getD sampleWorld

/-- Both users accept, both devices store, and the left one hears so. -/
def bothStore : List Act :=
  [.device .left .propose, .device .right .propose,
    .device .left (.decide .accept true true), .device .right (.decide .accept true true),
    .device .left .receive, .device .right .receive,
    .device .left (.beginCommit true), .device .left .snapshot, .device .left (.write true),
    .device .left (.announce true true),
    .device .right (.beginCommit true), .device .right .snapshot, .device .right (.write true),
    .device .right (.announce true true),
    .device .left .receive]

/-- The confirmation of the left device cannot be saved. -/
def confirmFails : List Act :=
  bothStore ++ [.device .left (.confirm false)]

/-- Then the ceremony has failed, and the key stays. -/
theorem failed_ceremony_keeps_key :
    Reaches (machine (Host.over openCrypto) "slot" sampleKey) (fun _ _ => True)
      (after confirmFails) ∧
    ((after confirmFails).device .left).progress = .ended .failed ∧
    keyAt ((after confirmFails).device .left).store.state "slot" = some sampleKey ∧
    ¬ Kept "slot" ((after confirmFails).device .left) := by
  have hkey : keyAt ((after confirmFails).device .left).store.state "slot" = some sampleKey := by
    decide
  have hbefore : ((after confirmFails).device .left).before.map Peer.psk = none := by
    decide
  refine ⟨?_, by decide, hkey, fun hkept => ?_⟩
  · exact (sample_reached _).of_run_getD confirmFails (Meets.of_forall (fun _ _ _ => trivial) _)
      (by decide) sampleWorld
  · have hsame := hkey.symm.trans (hkept.record.key.trans hbefore)
    simp at hsame

/-- The left device is confirmed, the right one hears nothing and takes its key back. -/
def rightSilenced : List Act :=
  bothStore ++ [.device .left (.confirm true), .cut .right, .device .right .timeout,
    .device .right (.restore true)]

theorem ceremony_all_or_nothing_run :
    Kept "slot" ((after rightSilenced).device .right) ∧
    ∃ mine theirs, ((after rightSilenced).device .left).wrote = some (sampleKey, mine) ∧
      ((after rightSilenced).device .right).wrote = some (sampleKey, theirs) ∧
      theirs.localSide = mine.remote ∧ theirs.remote = mine.localSide := by
  have hreaches : Reaches (machine (Host.over openCrypto) "slot" sampleKey)
      (allowed (Host.over openCrypto)) (after rightSilenced) :=
    (sample_reached _).of_run_getD rightSilenced (by decide) (by decide) sampleWorld
  obtain ⟨hkept, -⟩ := ceremony_all_or_nothing hreaches .right
  obtain ⟨-, -, hmirrors⟩ := ceremony_all_or_nothing hreaches .left
  have htimedOut : ((after rightSilenced).device .right).progress = .ended .timedOut := by
    decide
  have hboth : ((after rightSilenced).device .left).commit = some .both := by
    decide
  exact ⟨hkept .timedOut htimedOut (fun h => PairingPhase.noConfusion h), hmirrors hboth⟩

end CopyPaste.Peers.Commitment
