import CopyPaste.Lib.Texts
import CopyPaste.Peers.Caps
import CopyPaste.Peers.Slots
import Mathlib

/-!
A saved peer file opens again. What the store keeps of its records, its bars, its
admissions and its group is what reading a file back asks for, in every run in which
cutting everything off, confirming a pairing and undoing a ceremony mind the caps that
the code checks elsewhere.
-/

namespace CopyPaste.Peers.Reopen

open Std (ExtTreeMap)
open Lib.Checks Lib.Guarded Lib.Tables Lib.Texts CopyPaste.Peers.Group Store Projection Runs Caps
open CopyPaste.Peers.Membership (wellFormed_of_valid)

/-- Records under their ids, each of which would be accepted. -/
def Valid (peers : Table Peer) : Prop :=
  ∀ (id : String) (peer : Peer), peers[id]? = some peer →
    peer.pairingId = id ∧ Peer.validate peer = .ok ()

structure Kept (crypto : Crypto) (state : State) : Prop where
  group : ∀ group ∈ state.group, Whole crypto group
  valid : Valid state.peers
  room : state.peers.size ≤ maxPairings
  certified : ∀ id : String, id ∈ state.pairAdmissions → id ∈ state.peers
  marks : state.groupAdmissions.size ≤ maxPairings
  bars : state.revoked.size ≤ maxRevocations
  barred : ∀ id : String, id ∈ state.revoked → validatePairingId id = .ok ()

variable {peer : Peer} {host : Host} {state next : State} {id : String} {s : System}

theorem validate_iff :
    Peer.validate peer = .ok () ↔ validatePairingId peer.pairingId = .ok () ∧
      (∀ id ∈ peer.deviceId, id ≠ "" ∧ id.utf8ByteSize ≤ maxIdBytes) ∧
      peer.psk ≠ List.replicate 32 0 ∧
      ∀ profile ∈ peer.profile, 0 < peer.profileObservedAtMs ∧ validDeviceProfile profile = true := by
  have hdevice : (peer.deviceId.any fun id => id = "" || decide (maxIdBytes < id.utf8ByteSize)) =
      true ↔ ¬ ∀ id ∈ peer.deviceId, id ≠ "" ∧ id.utf8ByteSize ≤ maxIdBytes := by
    cases peer.deviceId with
    | none => simp
    | some id =>
      simp only [Option.any_some, Bool.or_eq_true, decide_eq_true_eq, Option.mem_some_iff,
        forall_eq', ne_eq, not_and_or, not_not, not_le]
  unfold Peer.validate
  cases hid : validatePairingId peer.pairingId with
  | error e => simp [bind, Except.bind]
  | ok _ =>
    simp only [bind, Except.bind, true_and]
    constructor
    · intro h
      split at h
      · simp at h
      rename_i hnames
      split at h
      · simp at h
      rename_i hpsk
      refine ⟨not_not.1 (mt hdevice.2 hnames), hpsk, ?_⟩
      split at h
      · rename_i hnone
        simp [hnone]
      rename_i profile hprofile
      split at h
      · simp at h
      rename_i hobserved
      split at h
      · rename_i hvalid
        rw [hprofile]
        rintro _ ⟨⟩
        exact ⟨Int.not_le.1 hobserved, hvalid⟩
      · simp at h
    · rintro ⟨hnames, hpsk, hprofiles⟩
      rw [if_neg fun hany => hdevice.1 hany hnames, if_neg hpsk]
      cases hprofile : peer.profile with
      | none => rfl
      | some profile =>
        obtain ⟨hobserved, hvalid⟩ := hprofiles profile hprofile
        simp only [if_neg (Int.not_le.2 hobserved), if_pos hvalid]

/-- The records of a file make the table they were taken from. -/
theorem foldl_peers {peers : Table Peer} (h : Valid peers) :
    (peers.toList.map Prod.snd).foldl (fun peers peer => peers.insert peer.pairingId peer)
      (∅ : Table Peer) = peers := by
  rw [List.foldl_map]
  refine Eq.trans (List.foldl_ext _ _ _ fun acc entry hentry => ?_) (foldl_insert_toList peers)
  have hstored := ExtTreeMap.mem_toList_iff_getElem?_eq_some.1 hentry
  rw [(h entry.1 entry.2 hstored).1]

/-- What the store keeps is what reading a file back asks for. -/
theorem Kept.parse (h : Kept host.toCrypto state) (hlawful : Lawful host.toCrypto) :
    Store.parse host (host.encode (fileOf state)) = .ok (content state) := by
  have hgroup : (state.group.any fun group =>
      (group.validate host.toCrypto).toOption.isNone) = false := by
    cases hstored : state.group with
    | none => rfl
    | some group => simp [(h.group group hstored).validate hlawful, Except.toOption]
  have hpeers : ((state.peers.toList.map Prod.snd).any fun peer =>
      (Peer.validate peer).toOption.isNone) = false := by
    rw [List.any_eq_false]
    intro peer hpeer
    obtain ⟨⟨id, _⟩, hentry, rfl⟩ := List.mem_map.1 hpeer
    have hstored := ExtTreeMap.mem_toList_iff_getElem?_eq_some.1 hentry
    simp [(h.valid id _ hstored).2, Except.toOption]
  have hcertified : (state.pairAdmissions.toList.any fun entry => !state.peers.contains entry.1) =
      false := by
    rw [List.any_eq_false]
    rintro ⟨id, admission⟩ hentry
    have hmem := mem_of_getElem? (ExtTreeMap.mem_toList_iff_getElem?_eq_some.1 hentry)
    simp [ExtTreeMap.mem_iff_contains.1 (h.certified id hmem)]
  have hbarred : (state.revoked.toList.any fun entry =>
      (validatePairingId entry.1).toOption.isNone) = false := by
    rw [List.any_eq_false]
    rintro ⟨id, at'⟩ hentry
    have hmem := mem_of_getElem? (ExtTreeMap.mem_toList_iff_getElem?_eq_some.1 hentry)
    simp [h.barred id hmem, Except.toOption]
  have hadmissions : state.pairAdmissions.size ≤ maxPairings :=
    le_trans (size_le_of_keys h.certified) h.room
  unfold Store.parse fileOf
  simp only [host.decode_encode, foldl_peers h.valid, hgroup, hpeers, hcertified, hbarred,
    Nat.not_lt.2 h.marks, Nat.not_lt.2 hadmissions, Nat.not_lt.2 h.bars, decide_false,
    Bool.or_self, Bool.false_eq_true, if_false]
  rfl

theorem Valid.insert {peers : Table Peer} (h : Valid peers) {id : String} {peer : Peer}
    (hid : peer.pairingId = id) (hvalid : Peer.validate peer = .ok ()) :
    Valid (peers.insert id peer) := by
  intro other found hfound
  by_cases hother : id = other
  · subst hother
    rw [getElem?_insert_self, Option.some.injEq] at hfound
    exact hfound ▸ ⟨hid, hvalid⟩
  · rw [getElem?_insert_ne _ _ hother] at hfound
    exact h other found hfound

theorem size_insert_le_cap {peers : Table Peer} (hroom : peers.size ≤ maxPairings)
    (hfree : id ∈ peers ∨ peers.size < maxPairings) :
    (peers.insert id peer).size ≤ maxPairings := by
  rcases hfree with hstored | hless
  · rw [size_insert_of_mem hstored]
    exact hroom
  · exact le_trans ExtTreeMap.size_insert_le hless

variable {crypto : Crypto}

/-- A record put into its slot, with its admission. -/
theorem Kept.put (h : Kept crypto state) (hid : peer.pairingId = id)
    (hvalid : Peer.validate peer = .ok ())
    (hfree : id ∈ state.peers ∨ state.peers.size < maxPairings)
    (admission : Option PairAdmissions) :
    Kept crypto { state with
      peers := state.peers.insert id peer
      pairAdmissions := setAdmission state.pairAdmissions id admission } := by
  refine ⟨h.group, h.valid.insert hid hvalid, size_insert_le_cap h.room hfree, ?_, h.marks, h.bars,
    h.barred⟩
  intro other hother
  rcases Slots.mem_setAdmission hother with rfl | hold
  · exact ExtTreeMap.mem_insert_self
  · exact ExtTreeMap.mem_insert.2 (Or.inr (h.certified other hold))

/-- A slot given up, with or without its marker. -/
theorem Kept.drop (h : Kept crypto state) (id : String) {marks : Table Unit}
    (hmarks : marks.size ≤ maxPairings) :
    Kept crypto { state with
      peers := state.peers.erase id
      groupAdmissions := marks
      pairAdmissions := state.pairAdmissions.erase id } := by
  refine ⟨h.group, fun other peer hpeer => h.valid other peer (getElem?_of_erase hpeer).2,
    le_trans ExtTreeMap.size_erase_le h.room, ?_, hmarks, h.bars, h.barred⟩
  intro other hother
  obtain ⟨hne, hmem⟩ := mem_of_mem_erase hother
  exact ExtTreeMap.mem_erase.2 ⟨by simpa using hne, h.certified other hmem⟩

theorem Kept.dropSlot (h : Kept crypto state) (id : String) : Kept crypto (state.dropSlot id) :=
  h.drop id (le_trans ExtTreeMap.size_erase_le h.marks)

theorem Kept.withGroup (h : Kept crypto state) {group : Option GroupState}
    (hgroup : ∀ known ∈ group, Whole crypto known) : Kept crypto { state with group := group } :=
  ⟨hgroup, h.valid, h.room, h.certified, h.marks, h.bars, h.barred⟩

theorem Kept.bar (h : Kept crypto state) (nowMs : Int) (hid : validatePairingId id = .ok ())
    (hroom : id ∈ state.revoked ∨ state.revoked.size < maxRevocations) :
    Kept crypto { state with revoked := state.revoked.insert id nowMs } := by
  refine ⟨h.group, h.valid, h.room, h.certified, h.marks, ?_, fun other hother => ?_⟩
  · rcases hroom with hknown | hless
    · rw [size_insert_of_mem hknown]
      exact h.bars
    · exact le_trans ExtTreeMap.size_insert_le hless
  · rcases ExtTreeMap.mem_insert.1 hother with heq | hold
    · obtain rfl : id = other := by simpa using heq
      exact hid
    · exact h.barred other hold

theorem Kept.withPeer (h : Kept crypto state) {admission : Option PairAdmissions}
    (hcheck : state.checkUpsert peer admission = .ok ()) :
    Kept crypto (state.withPeer peer admission) := by
  obtain ⟨hvalid, -, -, hfree⟩ := checkUpsert_ok hcheck
  exact h.put rfl hvalid hfree _

/-- The record a rollback puts back would be accepted: each part of it was. -/
theorem restored_valid {ticket : PeerSnapshot} (h : Valid state.peers)
    (hticket : ∀ previous, ticket.previous = some previous →
      previous.pairingId = ticket.pairingId ∧ Peer.validate previous = .ok ())
    (hrestored : state.restored ticket = some peer) :
    peer.pairingId = ticket.pairingId ∧ Peer.validate peer = .ok () := by
  unfold State.restored at hrestored
  split at hrestored
  · simp at hrestored
  split at hrestored
  · simp at hrestored
  rename_i previous hprevious
  obtain ⟨hid, hvalid⟩ := hticket previous hprevious
  split at hrestored
  · obtain ⟨current, hcurrent, rfl⟩ := Option.map_eq_some_iff.1 hrestored
    obtain ⟨hcurrentId, hcurrentValid⟩ := h _ current hcurrent
    obtain ⟨-, hdevice, hpsk, -⟩ := validate_iff.1 hvalid
    obtain ⟨hcurrentId', hcurrentDevice, -, hprofile⟩ := validate_iff.1 hcurrentValid
    refine ⟨rfl, validate_iff.2 ⟨?_, ?_, hpsk, hprofile⟩⟩
    · rw [← hcurrentId]
      exact hcurrentId'
    · cases hold : previous.deviceId with
      | none => simpa [hold] using hcurrentDevice
      | some device =>
        rw [hold] at hdevice
        simpa [hold] using hdevice
  · obtain rfl := Option.some.inj hrestored
    exact ⟨hid, hvalid⟩

theorem Kept.restoreSlot (h : Kept crypto state) {ticket : PeerSnapshot}
    (hticket : ∀ previous, ticket.previous = some previous →
      previous.pairingId = ticket.pairingId ∧ Peer.validate previous = .ok ())
    (hfree : Slots.reinstates state ticket = true → ticket.pairingId ∈ state.peers ∨
      state.peers.size < maxPairings) : Kept crypto (state.restoreSlot ticket) := by
  unfold State.restoreSlot
  cases hrestored : state.restored ticket with
  | none => exact h.drop ticket.pairingId h.marks
  | some peer =>
    obtain ⟨hid, hvalid⟩ := restored_valid h.valid hticket hrestored
    refine h.put hid hvalid (hfree ?_) _
    by_contra hnot
    rw [Slots.restored_eq_none.2 (by simpa using hnot)] at hrestored
    simp at hrestored

/-- What the projection keeps at each of its steps. -/
structure Held (state : State) : Prop where
  valid : Valid state.peers
  room : state.peers.size ≤ maxPairings
  marks : state.groupAdmissions.size ≤ maxPairings

theorem projectPeer_held {group : Roster} {previous : Option GroupState} (h : Held state)
    (hstep : projectPeer group previous state peer = .ok next) : Held next := by
  obtain ⟨hvalid, device, admission, -, -, hprojected⟩ := projectPeer_cases hstep
  cases hprojected with
  | kept => exact h
  | renamed id stored name addr hstored =>
    obtain ⟨hid, hstoredValid⟩ := h.valid id stored hstored
    refine ⟨h.valid.insert hid ?_, size_insert_le_cap h.room (Or.inl (mem_of_getElem? hstored)),
      h.marks⟩
    exact validate_iff.2 (validate_iff.1 hstoredValid)
  | derived base hbase _ hroom =>
    rcases hbase with ⟨rfl, -⟩ | ⟨id, stored, -, -, rfl⟩
    · exact ⟨h.valid.insert rfl hvalid, size_insert_le_cap h.room (Or.inr hroom), h.marks⟩
    · refine ⟨Valid.insert ?_ rfl hvalid, size_insert_le_cap (le_of_lt hroom) (Or.inr hroom),
        le_trans ExtTreeMap.size_erase_le h.marks⟩
      exact fun other found hfound => h.valid other found (getElem?_of_erase hfound).2

/-- Without a group the projection does nothing, so what it is given has to be kept
already; under a group every marker and admission it leaves has a record. -/
theorem project_kept {previous : Option GroupState} (hnext : project host state previous = .ok next)
    (hgroup : ∀ group ∈ state.group, Whole host.toCrypto group) (hvalid : Valid state.peers)
    (hroom : state.peers.size ≤ maxPairings) (hbars : state.revoked.size ≤ maxRevocations)
    (hbarred : ∀ id : String, id ∈ state.revoked → validatePairingId id = .ok ())
    (hnone : state.group = none → Kept host.toCrypto state) : Kept host.toCrypto next := by
  obtain ⟨hsame, hrevoked⟩ := project_frame host hnext
  rw [← hsame] at hgroup
  rw [← hrevoked] at hbars hbarred
  rcases project_cases host hnext with ⟨hno, rfl⟩ | ⟨group, -, ⟨-, rfl⟩ |
    ⟨-, derived, projected, -, hpass, rfl⟩⟩
  · exact hnone hno
  · refine ⟨hgroup, ?_, ?_, ?_, ?_, hbars, hbarred⟩
    · intro id peer hpeer
      simp at hpeer
    · exact Nat.zero_le _
    · intro id hid
      simp at hid
    · exact Nat.zero_le _
  · have hkept : Held (keptUnder group.roster state) := by
      have hsub : (state.peers.filter fun _ peer => keepsPeer group.roster state peer).size ≤
          state.peers.size := by
        apply size_le_of_keys
        intro id hid
        obtain ⟨peer, hpeer, -⟩ := of_mem_filter hid
        exact mem_of_getElem? hpeer
      refine ⟨fun id peer hpeer => hvalid id peer (getElem?_of_filter hpeer).1,
        le_trans hsub hroom, le_trans (size_le_of_keys ?_) (le_trans hsub hroom)⟩
      intro id hid
      obtain ⟨_, -, hmarked⟩ := of_mem_filter hid
      exact ExtTreeMap.mem_iff_contains.2 hmarked
    have hlast : Held projected :=
      foldlM_keeps Held derived (fun _ _ _ _ hacc hstep => projectPeer_held hacc hstep) hkept hpass
    refine ⟨hgroup, hlast.valid, hlast.room, fun id hid => ?_, hlast.marks, hbars, hbarred⟩
    obtain ⟨_, -, hstored⟩ := of_mem_filter hid
    exact ExtTreeMap.mem_iff_contains.2 hstored

theorem merge_issuer {group after : GroupState} {snapshot : GroupSnapshot} {explicit changed : Bool}
    (h : group.merge crypto snapshot explicit = .ok (after, changed)) :
    validateId snapshot.roster.issuer = true := by
  unfold GroupState.merge at h
  obtain ⟨_, hvalid, h⟩ := bind_ok_iff.1 h
  dsimp only at h
  split at h
  · simp at h
  · rename_i issuer hissuer
    have hentry := (wellFormed_iff.1 (wellFormed_of_valid hvalid)).2.2.2.1 _ issuer hissuer
    simp only [Member.valid, Bool.and_eq_true] at hentry
    exact hentry.1.1.1.1.1.1

theorem bindIdentity_valid {bound : State} {issuer : String} {pairingId : Option String}
    {boundIdentity : Bool} (hvalid : Valid state.peers) (hroom : state.peers.size ≤ maxPairings)
    (hissuer : validateId issuer = true)
    (h : bindIdentity state issuer pairingId = .ok (bound, boundIdentity)) :
    Valid bound.peers ∧ bound.peers.size ≤ maxPairings := by
  cases pairingId with
  | none =>
    obtain ⟨rfl, -⟩ := Prod.mk.inj (Except.ok.inj h)
    exact ⟨hvalid, hroom⟩
  | some id =>
    simp only [bindIdentity] at h
    split at h
    · simp at h
    rename_i peer hpeer
    split at h
    · simp at h
    obtain ⟨rfl, -⟩ := Prod.mk.inj (Except.ok.inj h)
    obtain ⟨hid, hpeerValid⟩ := hvalid id peer hpeer
    refine ⟨hvalid.insert hid ?_, size_insert_le_cap hroom (Or.inl (mem_of_getElem? hpeer))⟩
    obtain ⟨hpairing, -, hpsk, hprofile⟩ := validate_iff.1 hpeerValid
    refine validate_iff.2 ⟨hpairing, ?_, hpsk, hprofile⟩
    simp only [validateId, Bool.and_eq_true, bne_iff_ne, decide_eq_true_eq] at hissuer
    rintro _ ⟨⟩
    exact hissuer.1

theorem mergeNext_kept {snapshot : GroupSnapshot} {pairingId : Option String} {explicit : Bool}
    (h : Kept host.toCrypto state)
    (hnext : mergeNext host state snapshot pairingId explicit = .ok (some next)) :
    Kept host.toCrypto next := by
  obtain ⟨group, bound, _, merged, changed, hgroup, hbound, hmerge, hproject⟩ :=
    mergeNext_cases host hnext
  obtain ⟨-, hrevoked, -, -⟩ := bindIdentity_frame hbound
  obtain ⟨hvalid, hroom⟩ := bindIdentity_valid h.valid h.room (merge_issuer hmerge) hbound
  refine project_kept (hproject next rfl) ?_ hvalid hroom ?_ ?_ ?_
  · rintro _ ⟨⟩
    exact (h.group group hgroup).merge hmerge
  · rw [hrevoked]
    exact h.bars
  · rw [hrevoked]
    exact h.barred
  · intro hno
    simp at hno

theorem confirmNext_kept {pairingId : String} (h : Kept host.toCrypto state)
    (hmark : state.group = none → pairingId ∈ state.groupAdmissions ∨
      state.groupAdmissions.size < maxPairings)
    (hnext : confirmNext host state pairingId = .ok next) : Kept host.toCrypto next := by
  obtain ⟨-, group, hgroup, hproject⟩ := confirmNext_cases host hnext
  have hwhole : ∀ known ∈ group, Whole host.toCrypto known := by
    rcases hgroup with rfl | ⟨old, roster, admission, hold, -, hcertify, rfl⟩
    · exact h.group
    · rintro _ ⟨⟩
      exact (h.group old hold).certify hcertify
  refine project_kept hproject hwhole h.valid h.room h.bars h.barred fun hno => ?_
  have hnone : state.group = none := by
    rcases hgroup with rfl | ⟨old, roster, admission, -, -, -, rfl⟩
    · exact hno
    · simp at hno
  refine ⟨hwhole, h.valid, h.room, h.certified, ?_, h.bars, h.barred⟩
  rcases hmark hnone with hknown | hless
  · show (state.groupAdmissions.insert pairingId ()).size ≤ maxPairings
    rw [size_insert_of_mem hknown]
    exact h.marks
  · exact le_trans ExtTreeMap.size_insert_le hless

theorem size_foldl_insert (ids : List String) (revoked : Table Int) (nowMs : Int) :
    (ids.foldl (fun revoked id => revoked.insert id nowMs) revoked).size ≤
      revoked.size + ids.length := by
  induction ids generalizing revoked with
  | nil => exact Nat.le_refl _
  | cons id rest ih =>
    have hrest := ih (revoked.insert id nowMs)
    have hfirst := @ExtTreeMap.size_insert_le _ _ _ revoked _ id nowMs
    rw [List.foldl_cons, List.length_cons]
    omega

theorem of_mem_foldl_insert {ids : List String} {revoked : Table Int} {nowMs : Int}
    (h : id ∈ ids.foldl (fun revoked id => revoked.insert id nowMs) revoked) :
    id ∈ ids ∨ id ∈ revoked := by
  induction ids generalizing revoked with
  | nil => exact Or.inr h
  | cons first rest ih =>
    rcases ih h with hrest | hbefore
    · exact Or.inl (List.mem_cons_of_mem _ hrest)
    · rcases ExtTreeMap.mem_insert.1 hbefore with heq | hold
      · obtain rfl : first = id := by simpa using heq
        exact Or.inl List.mem_cons_self
      · exact Or.inr hold

/-- Every pairing cut off at once, while the bars have room for all of them. -/
theorem Kept.cutOff (h : Kept crypto state) {group : Option GroupState} (nowMs : Int)
    (hroom : state.revoked.size + state.peers.size ≤ maxRevocations)
    (hgroup : state.peers.toList.foldlM (fun group entry => removeMember group entry.2.deviceId)
      state.group = .ok group) :
    Kept crypto { state with
      group := group
      peers := ∅
      groupAdmissions := ∅
      pairAdmissions := ∅
      revoked := (state.peers.toList.map Prod.fst).foldl (fun revoked id => revoked.insert id nowMs)
        state.revoked } := by
  refine ⟨?_, ?_, Nat.zero_le _, ?_, Nat.zero_le _, ?_, ?_⟩
  · exact foldlM_keeps (fun group : Option GroupState => ∀ known ∈ group, Whole crypto known)
      state.peers.toList (fun _ _ _ _ hacc hstep => whole_removeMember hacc hstep) h.group hgroup
  · intro id peer hpeer
    simp at hpeer
  · intro id hid
    simp at hid
  · have hsize := size_foldl_insert (state.peers.toList.map Prod.fst) state.revoked nowMs
    rw [List.length_map, ExtTreeMap.length_toList] at hsize
    exact le_trans hsize hroom
  · intro id hid
    rcases of_mem_foldl_insert hid with hstored | hold
    · obtain ⟨⟨_, peer⟩, hentry, rfl⟩ := List.mem_map.1 hstored
      obtain ⟨hkey, hvalid⟩ := h.valid _ peer (ExtTreeMap.mem_toList_iff_getElem?_eq_some.1 hentry)
      rw [← hkey]
      exact (validate_iff.1 hvalid).1
    · exact h.barred id hold

/-- The caps that the code does not check: the bars have room when every pairing is cut
off; without a group there is room for another marker; and a rollback puts a record back
into its slot, or into a store with room for it. -/
def allowed (s : System) : Act → Prop
  | .revokeAll _ _ => s.store.state.revoked.size + s.store.state.peers.size ≤ maxRevocations
  | .confirmGroupAdmission _ pairingId =>
    s.store.state.group = none → pairingId ∈ s.store.state.groupAdmissions ∨
      s.store.state.groupAdmissions.size < maxPairings
  | .restore _ ticket =>
    Slots.reinstates s.store.state ticket = true → ticket.pairingId ∈ s.store.state.peers ∨
      s.store.state.peers.size < maxPairings
  | _ => True

instance (s : System) (act : Act) : Decidable (allowed s act) :=
  match act with
  | .revokeAll _ _ => inferInstanceAs
      (Decidable (s.store.state.revoked.size + s.store.state.peers.size ≤ maxRevocations))
  | .confirmGroupAdmission _ pairingId => inferInstanceAs
      (Decidable (s.store.state.group = none → pairingId ∈ s.store.state.groupAdmissions ∨
        s.store.state.groupAdmissions.size < maxPairings))
  | .restore _ ticket => inferInstanceAs
      (Decidable (Slots.reinstates s.store.state ticket = true →
        ticket.pairingId ∈ s.store.state.peers ∨ s.store.state.peers.size < maxPairings))
  | .upsert _ _ | .touch _ _ | .snapshot _ | .upsertFromAdmission _ _ _ _ | .remove _ _
  | .revoke _ _ _ | .groupSnapshot _ _ _ _ _ _ | .mergeGroup _ _ _ _ | .flush _ =>
    inferInstanceAs (Decidable True)

/-- What a ceremony may put back would be accepted. -/
def Ticketed (tickets : List PeerSnapshot) : Prop :=
  ∀ ticket ∈ tickets, ∀ previous, ticket.previous = some previous →
    previous.pairingId = ticket.pairingId ∧ Peer.validate previous = .ok ()

theorem changes_kept {act : Act} (h : Kept host.toCrypto s.store.state)
    (htickets : Ticketed s.tickets) (hallowed : allowed s act)
    (hticket : ∀ saved ticket, act = .restore saved ticket → ticket ∈ s.tickets)
    (hchanges : Changes host s.store.state act next) : Kept host.toCrypto next := by
  cases act with
  | upsert saved peer | touch saved peer =>
    obtain ⟨hcheck, rfl⟩ := hchanges
    exact h.withPeer hcheck
  | snapshot pairingId => exact absurd hchanges id
  | upsertFromAdmission saved ticket peer admission =>
    obtain ⟨hcheck, rfl⟩ := hchanges
    exact h.withPeer hcheck
  | restore saved ticket =>
    obtain rfl := hchanges
    exact h.restoreSlot (htickets ticket (hticket saved ticket rfl)) hallowed
  | remove saved pairingId =>
    obtain ⟨peer, group, -, hgroup, rfl⟩ := hchanges
    exact (h.withGroup (whole_removeMember h.group hgroup)).dropSlot pairingId
  | revoke saved pairingId nowMs =>
    obtain ⟨hid, hroom, group, hgroup, rfl⟩ := hchanges
    exact ((h.bar nowMs hid (hroom.imp_left ExtTreeMap.mem_iff_contains.2)).withGroup
      (whole_removeMember h.group hgroup)).dropSlot pairingId
  | revokeAll saved nowMs =>
    obtain ⟨group, hgroup, rfl⟩ := hchanges
    exact h.cutOff nowMs hallowed hgroup
  | groupSnapshot saved identity id name profile addr =>
    obtain ⟨group, snapshot, hnext, hsnapshot, hvalid, rfl⟩ := hchanges
    apply h.withGroup
    rintro _ ⟨⟩
    exact whole_groupNext h.group hnext hsnapshot hvalid
  | mergeGroup saved snapshot pairingId explicit => exact mergeNext_kept h hchanges
  | confirmGroupAdmission saved pairingId => exact confirmNext_kept h hallowed hchanges
  | flush saved =>
    obtain rfl := hchanges
    exact h

theorem Kept.of_content (h : Kept crypto next) (hcontent : content state = content next) :
    Kept crypto state := by
  have hgroup := congrArg State.group hcontent
  have hpeers := congrArg State.peers hcontent
  have hcertified := congrArg State.pairAdmissions hcontent
  have hmarks := congrArg State.groupAdmissions hcontent
  have hrevoked := congrArg State.revoked hcontent
  simp only [content] at hgroup hpeers hcertified hmarks hrevoked
  exact ⟨hgroup ▸ h.group, hpeers ▸ h.valid, hpeers ▸ h.room, by rw [hpeers, hcertified]; exact h.certified,
    hmarks ▸ h.marks, hrevoked ▸ h.bars, hrevoked ▸ h.barred⟩

/-- What the runs keep: of the memory, of the ceremonies and of the file. -/
structure Inv (host : Host) (s : System) : Prop where
  kept : Kept host.toCrypto s.store.state
  ticketed : Ticketed s.tickets
  disk : ∀ bytes, s.store.file = some bytes → ∃ written, Kept host.toCrypto written ∧
    bytes = host.encode (fileOf written) ∧
    (s.store.unflushed = false → content s.store.state = content written)

theorem step_keeps {host : Host} {s s' : System} {act : Act} (h : Inv host s)
    (hallowed : allowed s act) (hstep : (machine host).step s act = some s') : Inv host s' := by
  obtain ⟨hdoes, htickets⟩ := step_cases host hstep
  have hticket : ∀ saved ticket, act = .restore saved ticket → ticket ∈ s.tickets := by
    rintro saved ticket rfl
    by_contra hnot
    simp [machine, step, hnot] at hstep
  have hnew : Ticketed s'.tickets := by
    intro ticket hmem previous hprevious
    rcases htickets ticket hmem with ⟨pairingId, rfl⟩ | ⟨known, hknown, hid, hsame, -⟩
    · exact h.kept.valid pairingId previous hprevious
    · rw [hid]
      exact h.ticketed known hknown previous (hsame ▸ hprevious)
  rcases hdoes with hsame | ⟨next, hchanges, hcommits⟩
  · exact ⟨hsame ▸ h.kept, hnew, hsame ▸ h.disk⟩
  · have hkept := changes_kept h.kept h.ticketed hallowed hticket hchanges
    refine ⟨hkept.of_content hcommits.memory, hnew, fun bytes hbytes => ?_⟩
    rcases hcommits.disk with ⟨hfile, -⟩ | ⟨hfile, hunflushed⟩
    · refine ⟨next, hkept, ?_, fun _ => hcommits.memory⟩
      rw [hfile] at hbytes
      exact (Option.some.inj hbytes).symm
    · rw [hfile] at hbytes
      obtain ⟨written, hwritten, heq, -⟩ := h.disk bytes hbytes
      refine ⟨written, hwritten, heq, fun hflushed => ?_⟩
      rw [hunflushed] at hflushed
      simp at hflushed

theorem reaches_inv (h : Reaches (machine host) allowed s) : Inv host s := by
  refine h.invariant ?_ fun s s' act hinv hallowed hstep => step_keeps hinv hallowed hstep
  rintro s rfl
  refine ⟨⟨by simp, ?_, Nat.zero_le _, ?_, Nat.zero_le _, Nat.zero_le _, ?_⟩, ?_, ?_⟩
  · intro id peer hpeer
    simp at hpeer
  · intro id hid
    simp at hid
  · intro id hid
    simp at hid
  · intro ticket hticket
    simp at hticket
  · intro bytes hbytes
    simp at hbytes

/-- In every state such runs reach, the file that was written last opens, and what is read
is what was written: the state in the memory, unless that has still to be flushed. -/
theorem saved_file_opens {host : Host} (hlawful : Lawful host.toCrypto) {s : System}
    (h : Reaches (machine host) allowed s) {bytes : Bytes} (hfile : s.store.file = some bytes) :
    ∃ written, bytes = host.encode (fileOf written) ∧ parse host bytes = .ok (content written) ∧
      (s.store.unflushed = false → parse host bytes = .ok (content s.store.state)) := by
  obtain ⟨written, hkept, rfl, hsame⟩ := (reaches_inv h).disk bytes hfile
  have hparse := hkept.parse hlawful
  refine ⟨written, rfl, hparse, fun hflushed => ?_⟩
  rw [hsame hflushed]
  exact hparse

theorem openLetter_utf8Size (byte : UInt8) : (openCrypto.openLetter byte).utf8Size = 1 := by
  have hletters : ∀ n < 26, (Char.ofNat (97 + n)).utf8Size = 1 := by decide
  exact hletters _ (Nat.mod_lt _ (by decide))

/-- The texts and keys in the open are as lawful as the real ones. -/
theorem openCrypto_lawful : Lawful openCrypto := by
  refine ⟨fun key bytes => decide_eq_true rfl, fun key bytes => ?_, fun roster hwell _ => ?_⟩
  · show (openCrypto.openSignature key bytes).utf8ByteSize = 128
    unfold openCrypto.openSignature
    rw [String.utf8ByteSize_ofList, utf8Len_eq_length, List.length_take, List.length_append,
      List.length_replicate]
    · omega
    · intro c hc
      rcases List.mem_append.1 (List.mem_of_mem_take hc) with hletter | ha
      · obtain ⟨byte, -, rfl⟩ := List.mem_map.1 hletter
        exact openLetter_utf8Size byte
      · rw [List.eq_of_mem_replicate ha]
        decide
  · obtain ⟨-, hmembers, -, hvalid, -⟩ := wellFormed_iff.1 hwell
    have hentry : ∀ entry ∈ roster.members.toList,
        (openCrypto.openText entry.1 ++ [entry.2.admission.toUInt8]).length ≤ 129 := by
      intro entry hmem
      have hid := hvalid entry.1 entry.2 (ExtTreeMap.mem_toList_iff_getElem?_eq_some.1 hmem)
      simp only [Member.valid, validateId, Bool.and_eq_true, decide_eq_true_eq] at hid
      have hshort := hid.1.1.1.1.1.1.1.2
      have hchars := length_le_utf8Len entry.1.toList
      rw [String.utf8Len_toList] at hchars
      simp only [openCrypto.openText, List.length_append, List.length_map, List.length_singleton]
      unfold maxIdBytes at hshort
      omega
    have htotal : ∀ entries : List (String × Member),
        (∀ entry ∈ entries,
          (openCrypto.openText entry.1 ++ [entry.2.admission.toUInt8]).length ≤ 129) →
        (entries.flatMap fun entry => openCrypto.openText entry.1 ++
          [entry.2.admission.toUInt8]).length ≤ 129 * entries.length := by
      intro entries hentries
      induction entries with
      | nil => exact Nat.le_refl _
      | cons entry rest ih =>
        have hrest := ih fun other hother => hentries other (List.mem_cons_of_mem _ hother)
        have hfirst := hentries entry List.mem_cons_self
        rw [List.flatMap_cons, List.length_append, List.length_cons]
        omega
    have hsize := htotal roster.members.toList hentry
    rw [ExtTreeMap.length_toList] at hsize
    unfold maxPairings at hmembers
    unfold maxGroupBytes
    exact le_trans hsize (by omega)

/-- A ceremony that is confirmed, one that is undone, a group, and every pairing cut
off. -/
def savedRun : List Act :=
  [.upsert true (Slots.sample "first" (some "phone")),
    .confirmGroupAdmission true "first",
    .snapshot "first",
    .upsertFromAdmission true ⟨none, "first", some (Slots.sample "first" (some "phone")), 1⟩
      (Slots.sample "first" (some "tablet")) none,
    .restore true ⟨none, "first", some (Slots.sample "first" (some "phone")), 2⟩,
    .groupSnapshot true ⟨[1], [2]⟩ "laptop" "Laptop" {} none,
    .upsert true (Slots.sample "second" none),
    .revokeAll true 7]

noncomputable def afterSavedRun : System :=
  (run (machine (Host.over openCrypto)) {} savedRun).getD {}

theorem saved_file_opens_run :
    ∃ bytes, afterSavedRun.store.file = some bytes ∧
      parse (Host.over openCrypto) bytes = .ok (content afterSavedRun.store.state) := by
  have hempty : Reaches (machine (Host.over openCrypto)) allowed {} := Reaches.start _ rfl
  have hreaches : Reaches (machine (Host.over openCrypto)) allowed afterSavedRun := by
    refine hempty.of_run_getD savedRun ?_ ?_ {} <;> decide +kernel
  have hwritten : afterSavedRun.store.file.isSome = true := by decide +kernel
  have hflushed : afterSavedRun.store.unflushed = false := by decide +kernel
  obtain ⟨bytes, hbytes⟩ := Option.isSome_iff_exists.1 hwritten
  obtain ⟨written, -, -, hparse⟩ := saved_file_opens openCrypto_lawful hreaches hbytes
  exact ⟨bytes, hbytes, hparse hflushed⟩

def shortId (n : Nat) : String :=
  String.singleton (Char.ofNat (0x4e00 + n))

theorem shortId_injective {n k : Nat} (hn : n ≤ maxRevocations) (hk : k ≤ maxRevocations)
    (h : shortId n = shortId k) : n = k := by
  have hvalid : ∀ i ≤ maxRevocations, (0x4e00 + i).isValidChar := by
    intro i hi
    unfold maxRevocations at hi
    exact Or.inl (by omega)
  have hchars : Char.ofNat (0x4e00 + n) = Char.ofNat (0x4e00 + k) := by
    have hlists := congrArg String.toList h
    simpa [shortId] using hlists
  have hnumbers : ∀ i ≤ maxRevocations, (Char.ofNat (0x4e00 + i)).toNat = 0x4e00 + i := by
    intro i hi
    rw [Char.ofNat, dif_pos (hvalid i hi)]
    rfl
  have hsame := congrArg Char.toNat hchars
  rw [hnumbers n hn, hnumbers k hk] at hsame
  omega

theorem shortId_valid (n : Nat) : validatePairingId (shortId n) = .ok () := by
  have hsize : (shortId n).utf8ByteSize ≤ 4 := by
    rw [shortId, String.utf8ByteSize_singleton]
    exact Char.utf8Size_le_four _
  have hpos : shortId n ≠ "" := by
    intro hempty
    have hlists := congrArg String.toList hempty
    simp [shortId] at hlists
  unfold validatePairingId maxPairingIdLen
  rw [if_neg hpos, if_neg (by omega)]

/-- A store with nothing but so many pairings cut off. -/
structure Barred (n : Nat) (s : System) : Prop where
  count : s.store.state.revoked.size = n
  ids : ∀ id : String, id ∈ s.store.state.revoked → ∃ k < n, id = shortId k
  group : s.store.state.group = none
  peers : s.store.state.peers = ∅

theorem Barred.fresh {n : Nat} (h : Barred n s) : "phone" ∉ s.store.state.revoked := by
  intro hmem
  obtain ⟨k, -, heq⟩ := h.ids _ hmem
  have hlengths := congrArg String.length heq
  rw [shortId, String.length_singleton] at hlengths
  revert hlengths
  decide

theorem bump_frame (state : State) (id : String) :
    (state.bump id).revoked = state.revoked ∧ (state.bump id).group = state.group ∧
      (state.bump id).peers = state.peers := by
  unfold State.bump
  split <;> exact ⟨rfl, rfl, rfl⟩

theorem exists_barred (host : Host) (n : Nat) (hn : n ≤ maxRevocations) :
    ∃ s, Reaches (machine host) (fun _ _ => True) s ∧ Barred n s := by
  induction n with
  | zero => exact ⟨{}, Reaches.start _ rfl, rfl, by simp, rfl, rfl⟩
  | succ n ih =>
    obtain ⟨s, hreaches, hbarred⟩ := ih (Nat.le_of_succ_le hn)
    have hfresh : shortId n ∉ s.store.state.revoked := by
      intro hmem
      obtain ⟨k, hk, heq⟩ := hbarred.ids _ hmem
      have hsame := shortId_injective (Nat.le_of_succ_le hn) (by omega) heq
      omega
    have hroom : ¬ (!s.store.state.revoked.contains (shortId n) ∧
        maxRevocations ≤ s.store.state.revoked.size) := by
      rw [hbarred.count]
      omega
    refine ⟨{ s with store := (s.store.revoke host true (shortId n) 0).1 },
      hreaches.next (.revoke true (shortId n) 0) trivial rfl, ?_⟩
    have hrevoke : ((s.store.revoke host true (shortId n) 0).1).state = (({ s.store.state with
        group := none
        revoked := s.store.state.revoked.insert (shortId n) 0 } : State).dropSlot
          (shortId n)).bump (shortId n) := by
      unfold PeerStore.revoke PeerStore.persist
      simp only [shortId_valid, if_neg hroom, hbarred.group, removeMember, if_true]
    obtain ⟨hrevoked, hgroup, hpeers⟩ := bump_frame (({ s.store.state with
      group := none
      revoked := s.store.state.revoked.insert (shortId n) 0 } : State).dropSlot
        (shortId n)) (shortId n)
    rw [← hrevoke] at hrevoked hgroup hpeers
    refine ⟨?_, fun id hid => ?_, hgroup, ?_⟩
    · rw [hrevoked]
      show (s.store.state.revoked.insert (shortId n) 0).size = n + 1
      rw [ExtTreeMap.size_insert, hbarred.count]
      exact if_neg hfresh
    · rw [hrevoked] at hid
      rcases ExtTreeMap.mem_insert.1 hid with heq | hold
      · obtain rfl : shortId n = id := by simpa using heq
        exact ⟨n, Nat.lt_succ_self n, rfl⟩
      · obtain ⟨k, hk, rfl⟩ := hbarred.ids id hold
        exact ⟨k, Nat.lt_succ_of_lt hk, rfl⟩
    · rw [hpeers]
      show s.store.state.peers.erase (shortId n) = ∅
      rw [hbarred.peers]
      simp

/-- A file with too many bars is refused whole. -/
theorem parse_overfull (h : maxRevocations < state.revoked.size) :
    parse host (host.encode (fileOf state)) = .error .corrupt := by
  unfold parse fileOf
  simp [host.decode_encode, h]

theorem paired_after_barred {host : Host} {n : Nat} {s : System} (h : Barred n s) :
    ((s.store.upsert host true (Slots.sample "phone" none)).1).state.revoked = s.store.state.revoked ∧
    ((s.store.upsert host true (Slots.sample "phone" none)).1).state.group = none ∧
    ((s.store.upsert host true (Slots.sample "phone" none)).1).state.peers =
      (∅ : Table Peer).insert "phone" (Slots.sample "phone" none) := by
  have hfresh : s.store.state.revoked.contains "phone" = false := by
    rw [← Bool.not_eq_true, ExtTreeMap.contains_iff_mem]
    exact h.fresh
  have hcheck : s.store.state.checkUpsert (Slots.sample "phone" none) none = .ok () := by
    have hvalid : Peer.validate (Slots.sample "phone" none) = .ok () := by decide
    unfold State.checkUpsert State.checkAdmission
    simp only [hvalid, bind, Except.bind]
    rw [show (Slots.sample "phone" none).pairingId = "phone" from rfl, hfresh, h.peers]
    simp [Slots.sample, maxPairings]
  have hnew : onlyLastSeenMoved s.store.state (Slots.sample "phone" none) = false := by
    unfold onlyLastSeenMoved
    rw [h.peers]
    rfl
  have hstate : ((s.store.upsert host true (Slots.sample "phone" none)).1).state =
      (s.store.state.withPeer (Slots.sample "phone" none) none).bump "phone" := by
    unfold PeerStore.upsert PeerStore.upsertCertified PeerStore.persist
    simp only [hcheck, hnew, Bool.false_and, Bool.false_eq_true, if_false, if_true]
    rfl
  obtain ⟨hrevoked, hgroup, hpeers⟩ :=
    bump_frame (s.store.state.withPeer (Slots.sample "phone" none) none) "phone"
  rw [hstate]
  refine ⟨hrevoked, hgroup.trans h.group, hpeers.trans ?_⟩
  show s.store.state.peers.insert "phone" (Slots.sample "phone" none) = _
  rw [h.peers]

/-- Cutting everything off does not ask whether there is room: over a full list the file
that is written is one that no longer opens. -/
theorem revokeAll_unreadable :
    ∃ s bytes, Reaches (machine (Host.over openCrypto)) (fun _ _ => True) s ∧
      s.store.file = some bytes ∧ parse (Host.over openCrypto) bytes = .error .corrupt := by
  obtain ⟨s, hreaches, hbarred⟩ := exists_barred (Host.over openCrypto) maxRevocations le_rfl
  obtain ⟨hrevoked, hgroup, hpeers⟩ := @paired_after_barred (Host.over openCrypto) _ _ hbarred
  have hpaired := hreaches.next (.upsert true (Slots.sample "phone" none)) trivial rfl
  generalize (s.store.upsert (Host.over openCrypto) true (Slots.sample "phone" none)).1 = store at *
  have hlisted : ((∅ : Table Peer).insert "phone" (Slots.sample "phone" none)).toList =
      [("phone", Slots.sample "phone" none)] := by decide
  refine ⟨{ s with store := (store.revokeAll (Host.over openCrypto) true 0).1 },
    (Host.over openCrypto).encode (fileOf { store.state with
      group := none
      peers := ∅
      groupAdmissions := ∅
      pairAdmissions := ∅
      revoked := store.state.revoked.insert "phone" 0 }),
    hpaired.next (.revokeAll true 0) trivial rfl, ?_, ?_⟩
  · unfold PeerStore.revokeAll PeerStore.persist
    rw [hpeers, hlisted, hgroup]
    rfl
  · apply parse_overfull
    show maxRevocations < (store.state.revoked.insert "phone" 0).size
    rw [ExtTreeMap.size_insert, hrevoked, hbarred.count]
    exact lt_of_lt_of_eq (Nat.lt_succ_self _) (if_neg hbarred.fresh).symm

end CopyPaste.Peers.Reopen
