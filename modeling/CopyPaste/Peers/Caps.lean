import CopyPaste.Peers.Membership
import Mathlib

/-!
Groups that can be read back. A group is whole when its own record is under the keys
it holds, it shows every member it has and its roster is within the caps; whatever
makes or changes a group keeps it whole, and a whole group passes its own check.
-/

namespace CopyPaste.Peers.Caps

open Std (ExtTreeMap)
open Lib.Checks Lib.Tables Peers.Group Store Projection CopyPaste.Peers.Membership

/-- What the group relies on: a signature under an own key is one of the right length
that verifies, and the text of a roster within the caps is within the limit. -/
structure Lawful (crypto : Crypto) : Prop where
  verifies : ∀ key bytes,
    crypto.verify (crypto.verifyingKey key) bytes (crypto.sign key bytes) = true
  length : ∀ key bytes, (crypto.sign key bytes).utf8ByteSize = 128
  fits : ∀ roster : Roster, roster.wellFormed = true → roster.issuer ∈ roster.members →
    (crypto.rosterText roster).length ≤ maxGroupBytes

structure Whole (crypto : Crypto) (group : GroupState) : Prop where
  own : ∃ me, group.roster.members[group.roster.issuer]? = some me ∧
    me.signingKey = crypto.verifyingKey group.identity.signing ∧
    me.exchangeKey = crypto.publicKey group.identity.exchange
  shown : ∀ (id : String) (member : Member), group.roster.members[id]? = some member →
    id = group.roster.issuer ∨ group.roster.isActive id = true
  wellFormed : group.roster.wellFormed = true

variable {crypto : Crypto}

variable {roster after : Roster} {group : GroupState} {id : String} {changed : Bool}

theorem wellFormed_iff :
    roster.wellFormed = true ↔ roster.members.size ≠ 0 ∧ roster.members.size ≤ maxPairings + 1 ∧
      roster.removed.size ≤ maxRevocations ∧
      (∀ (id : String) (member : Member), roster.members[id]? = some member →
        Member.valid id member = true) ∧
      ∀ (id : String) (generation : Nat), roster.removed[id]? = some generation →
        validRemoval id generation = true := by
  have hmembers : (roster.members.toList.all fun entry => Member.valid entry.1 entry.2) = true ↔
      ∀ (id : String) (member : Member), roster.members[id]? = some member →
        Member.valid id member = true := by
    rw [List.all_eq_true]
    constructor
    · intro h id member hmember
      exact h (id, member) (ExtTreeMap.mem_toList_iff_getElem?_eq_some.2 hmember)
    · intro h entry hentry
      exact h entry.1 entry.2 (ExtTreeMap.mem_toList_iff_getElem?_eq_some.1 hentry)
  have hremoved : (roster.removed.toList.all fun entry => validRemoval entry.1 entry.2) =
      true ↔ ∀ (id : String) (generation : Nat), roster.removed[id]? = some generation →
        validRemoval id generation = true := by
    rw [List.all_eq_true]
    constructor
    · intro h id generation hgeneration
      exact h (id, generation) (ExtTreeMap.mem_toList_iff_getElem?_eq_some.2 hgeneration)
    · intro h entry hentry
      exact h entry.1 entry.2 (ExtTreeMap.mem_toList_iff_getElem?_eq_some.1 hentry)
  unfold Roster.wellFormed
  simp only [Bool.and_eq_true, bne_iff_ne, decide_eq_true_eq, hmembers, hremoved, and_assoc]

theorem shown_eq (h : ∀ (id : String) (member : Member), roster.members[id]? = some member →
      id = roster.issuer ∨ roster.isActive id = true) : roster.shown = roster := by
  have hmembers : roster.shown.members = roster.members := by
    apply ExtTreeMap.ext_getElem?
    intro id
    unfold Roster.shown
    rw [ExtTreeMap.getElem?_filter']
    cases hmember : roster.members[id]? with
    | none => rfl
    | some member =>
      rcases h id member hmember with hown | hactive
      · simp [Option.filter, hown]
      · simp [Option.filter, hactive]
  cases roster
  unfold Roster.shown at hmembers ⊢
  simp only at hmembers
  rw [hmembers]

/-- A whole group can be read back. -/
theorem Whole.validate (h : Whole crypto group) (hlawful : Lawful crypto) :
    group.validate crypto = .ok () := by
  obtain ⟨me, hme, hsigning, hexchange⟩ := h.own
  have hshown := shown_eq h.shown
  have hfits := hlawful.fits group.roster h.wellFormed (mem_of_getElem? hme)
  have hbytes : signedBytes crypto group.roster = .ok (crypto.rosterText group.roster) := by
    unfold signedBytes
    rw [if_neg (Nat.not_lt.2 hfits)]
  have hverifies : crypto.verify me.signingKey (crypto.rosterText group.roster)
      (crypto.sign group.identity.signing (crypto.rosterText group.roster)) = true := by
    rw [hsigning]
    exact hlawful.verifies _ _
  unfold GroupState.validate GroupState.snapshot GroupSnapshot.validate
  simp [hme, hsigning.symm, hexchange.symm, hshown, hbytes, bind, Except.bind, pure, Except.pure,
    h.wellFormed, hlawful.length, hverifies]

/-- What has been read back, or is about to be written, was whole. -/
theorem whole_of_validate (h : group.validate crypto = .ok ())
    (hshown : ∀ (id : String) (member : Member), group.roster.members[id]? = some member →
      id = group.roster.issuer ∨ group.roster.isActive id = true) : Whole crypto group := by
  unfold GroupState.validate at h
  cases hme : group.roster.members[group.roster.issuer]? with
  | none => simp [hme] at h
  | some me =>
  simp only [hme] at h
  split at h
  · simp at h
  rename_i hkeys
  rw [not_or, ne_eq, ne_eq, not_not, not_not] at hkeys
  refine ⟨⟨me, hme, hkeys.1, hkeys.2⟩, hshown, ?_⟩
  obtain ⟨snapshot, hsnapshot, h⟩ := bind_ok_iff.1 h
  have hroster : snapshot.roster = group.roster := by
    rw [snapshot_roster hsnapshot, shown_eq hshown]
  rw [← hroster]
  exact wellFormed_of_valid h

theorem Whole.remove (h : Whole crypto group)
    (hremove : group.roster.remove id = .ok (after, changed)) :
    Whole crypto { group with roster := after } := by
  rcases remove_cases hremove with rfl | ⟨hid, hroom, -, rfl⟩
  · exact h
  obtain ⟨hnonempty, hmembers, hremoved, hvalid, hremovals⟩ := wellFormed_iff.1 h.wellFormed
  obtain ⟨me, hme, hkeys⟩ := h.own
  have hown : (if id = group.roster.issuer then group.roster.members
      else group.roster.members.erase id)[group.roster.issuer]? = some me := by
    split
    · exact hme
    · rename_i hne
      rw [getElem?_erase_ne _ hne]
      exact hme
  have hsub : ∀ (other : String) (member : Member), (if id = group.roster.issuer then
      group.roster.members else group.roster.members.erase id)[other]? = some member →
      group.roster.members[other]? = some member ∧ (other = group.roster.issuer ∨ id ≠ other) := by
    intro other member hmember
    split at hmember
    · rename_i heq
      by_cases hother : other = group.roster.issuer
      · exact ⟨hmember, Or.inl hother⟩
      · exact ⟨hmember, Or.inr fun hsame => hother (hsame ▸ heq)⟩
    · obtain ⟨hne, hstored⟩ := getElem?_of_erase hmember
      exact ⟨hstored, Or.inr hne⟩
  refine ⟨⟨me, hown, hkeys⟩, fun other member hmember => ?_, wellFormed_iff.2 ⟨?_, ?_, ?_, ?_, ?_⟩⟩
  · obtain ⟨hstored, hother⟩ := hsub other member hmember
    rcases h.shown other member hstored with hissuer | hactive
    · exact Or.inl hissuer
    · rcases hother with hissuer | hne
      · exact Or.inl hissuer
      · -- neither the record nor the removal of another device has changed
        obtain ⟨found, hfound, habove⟩ := isActive_iff.1 hactive
        refine Or.inr (isActive_iff.2 ⟨member, hmember, fun removed hgeneration => ?_⟩)
        obtain rfl := Option.some.inj (hstored.symm.trans hfound)
        rw [getElem?_insert_ne _ _ hne] at hgeneration
        exact habove removed hgeneration
  · exact size_ne_zero_of_mem (mem_of_getElem? hown)
  · refine le_trans (size_le_of_keys fun other hother => ?_) hmembers
    obtain ⟨member, hmember⟩ := exists_of_mem hother
    exact mem_of_getElem? (hsub other member hmember).1
  · simp only [ExtTreeMap.size_insert]
    split
    · exact hremoved
    · rename_i hnew
      rcases hroom with hknown | hless
      · exact absurd hknown hnew
      · omega
  · intro other member hmember
    exact hvalid other member (hsub other member hmember).1
  · intro other generation hgeneration
    by_cases hother : id = other
    · subst hother
      rw [getElem?_insert_self, Option.some.injEq] at hgeneration
      have hbounded : generation ≠ u64Max := by
        rw [← hgeneration]
        cases hmember : group.roster.members[id]? with
        | none => decide
        | some member =>
          have hentry := hvalid id member hmember
          simp only [Member.valid, Bool.and_eq_true, bne_iff_ne] at hentry
          exact hentry.1.1.2
      simp [validRemoval, hid, hbounded]
    · rw [getElem?_insert_ne _ _ hother] at hgeneration
      exact hremovals other generation hgeneration

theorem certifyLocal_cases {admission : Nat} (h : roster.certifyLocal admission = .ok after) :
    admission ≠ u64Max ∧ ∃ me, roster.members[roster.issuer]? = some me ∧
      after = { roster with
        members := roster.members.insert roster.issuer { me with admission := admission } } := by
  unfold Roster.certifyLocal at h
  obtain ⟨_, hcheck, h⟩ := bind_ok_iff.1 h
  cases hme : roster.members[roster.issuer]? with
  | none => simp [hme] at h
  | some me =>
  simp only [hme, pure, Except.pure] at h
  refine ⟨?_, me, rfl, (Except.ok.inj h).symm⟩
  unfold Roster.checkLocalAdmission at hcheck
  simp only [hme] at hcheck
  obtain ⟨required, hrequired, hcheck⟩ := bind_ok_iff.1 hcheck
  split at hcheck
  · simp at hcheck
  · rename_i hnot
    exact fun hmax => hnot (Or.inr hmax)

/-- The own record changed, under the keys it has. -/
theorem Whole.replaceOwn (h : Whole crypto group) {me still : Member}
    (hme : group.roster.members[group.roster.issuer]? = some me) (hkeys : sameKeys still me = true)
    (hvalid : Member.valid group.roster.issuer still = true) :
    Whole crypto { group with roster := { group.roster with
      members := group.roster.members.insert group.roster.issuer still } } := by
  obtain ⟨hnonempty, hmembers, hremoved, hmembersValid, hremovals⟩ := wellFormed_iff.1 h.wellFormed
  obtain ⟨own, hown, hsigning, hexchange⟩ := h.own
  obtain rfl := Option.some.inj (hme.symm.trans hown)
  simp only [sameKeys, Bool.and_eq_true, decide_eq_true_eq] at hkeys
  refine ⟨⟨still, getElem?_insert_self _ _ _, hkeys.1.trans hsigning, hkeys.2.trans hexchange⟩,
    fun id member hmember => ?_, wellFormed_iff.2 ⟨?_, ?_, hremoved, ?_, hremovals⟩⟩
  · by_cases hid : group.roster.issuer = id
    · exact Or.inl hid.symm
    · refine Or.inr (isActive_iff.2 ⟨member, hmember, ?_⟩)
      rw [getElem?_insert_ne _ _ hid] at hmember
      rcases h.shown id member hmember with hissuer | hactive
      · exact absurd hissuer.symm hid
      · obtain ⟨found, hfound, habove⟩ := isActive_iff.1 hactive
        obtain rfl := Option.some.inj (hmember.symm.trans hfound)
        exact habove
  · exact size_ne_zero_of_mem ExtTreeMap.mem_insert_self
  · rw [size_insert_of_mem (mem_of_getElem? hme)]
    exact hmembers
  · intro id member hmember
    by_cases hid : group.roster.issuer = id
    · subst hid
      rw [getElem?_insert_self, Option.some.injEq] at hmember
      exact hmember ▸ hvalid
    · rw [getElem?_insert_ne _ _ hid] at hmember
      exact hmembersValid id member hmember

theorem Whole.certify {admission : Nat} (h : Whole crypto group)
    (hcertify : group.roster.certifyLocal admission = .ok after) :
    Whole crypto { group with roster := after } := by
  obtain ⟨hbounded, me, hme, rfl⟩ := certifyLocal_cases hcertify
  apply h.replaceOwn hme
  · simp [sameKeys]
  · have hvalid := (wellFormed_iff.1 h.wellFormed).2.2.2.1 _ me hme
    simp only [Member.valid, Bool.and_eq_true, bne_iff_ne] at hvalid ⊢
    exact ⟨⟨⟨hvalid.1.1.1, hbounded⟩, hvalid.1.2⟩, hvalid.2⟩

theorem combine_retained {remote out : Roster} {issuer : Member} {explicit : Bool}
    (h : roster.combine remote issuer explicit = .ok out) :
    ∃ raw, out = Roster.retainActive raw := by
  unfold Roster.combine at h
  obtain ⟨removed, hremoved, h⟩ := bind_ok_iff.1 h
  obtain ⟨members, hmembers, h⟩ := bind_ok_iff.1 h
  simp only [bind, Except.bind, pure, Except.pure] at h
  cases explicit with
  | false => exact ⟨_, (Except.ok.inj h).symm⟩
  | true =>
    simp only [if_true] at h
    split at h
    · simp at h
    · rename_i raw hraw
      exact ⟨raw, (Except.ok.inj h).symm⟩

theorem retainActive_shown (roster : Roster) {member : Member}
    (h : roster.retainActive.members[id]? = some member) :
    id = roster.retainActive.issuer ∨ roster.retainActive.isActive id = true := by
  have hentry := h
  rw [retainActive_members] at hentry
  rw [retainActive_issuer]
  split at hentry
  · rename_i hid
    exact Or.inl hid
  split at hentry
  · obtain ⟨-, habove⟩ := Option.filter_eq_some_iff.1 hentry
    refine Or.inr (isActive_iff.2 ⟨member, h, fun removed hremoved => ?_⟩)
    rw [retainActive_removed] at hremoved
    simpa [hremoved] using habove
  · simp at hentry

theorem Whole.merge {after : GroupState} {snapshot : GroupSnapshot} {explicit : Bool}
    (h : Whole crypto group)
    (hmerge : group.merge crypto snapshot explicit = .ok (after, changed)) :
    Whole crypto after := by
  rcases merge_cases hmerge with ⟨-, rfl, -⟩ | ⟨issuer, me, out, haccepted, rfl, -⟩
  · exact h
  · by_cases hsame : group.roster = out
    · rw [← hsame]
      exact h
    · obtain ⟨raw, rfl⟩ := combine_retained haccepted.combined
      exact whole_of_validate (haccepted.checked hsame) fun id member => retainActive_shown raw

theorem new_cases {identity : Identity} {name : String} {profile : DeviceProfile}
    {addr : Option SocketAddr}
    (h : GroupState.new crypto identity id name profile addr = .ok group) :
    group = ⟨identity, ⟨id, (∅ : Table Member).insert id ⟨id, name,
      crypto.verifyingKey identity.signing, crypto.publicKey identity.exchange, 0, 0, profile, addr⟩,
      ∅⟩⟩ := by
  unfold GroupState.new at h
  simp only [bind, Except.bind] at h
  split at h
  · simp at h
  split at h
  · simp at h
  split at h
  · simp at h
  exact (Except.ok.inj h).symm

/-- A group that is about to be exported under a changed record. -/
theorem whole_groupNext {host : Host} {known : Option GroupState} {identity : Identity}
    {name : String} {profile : DeviceProfile} {addr : Option SocketAddr} {snapshot : GroupSnapshot}
    (h : ∀ group ∈ known, Whole host.toCrypto group)
    (hnext : groupNext host known identity id name profile addr = .ok (group, changed))
    (hsnapshot : group.snapshot host.toCrypto = .ok snapshot)
    (hvalid : snapshot.validate host.toCrypto = .ok ()) : Whole host.toCrypto group := by
  have hwell := wellFormed_of_valid hvalid
  rw [snapshot_roster hsnapshot] at hwell
  unfold groupNext at hnext
  cases known with
  | none =>
    simp only at hnext
    obtain ⟨made, hnew, hnext⟩ := bind_ok_iff.1 hnext
    simp only [Except.ok.injEq, Prod.mk.injEq] at hnext
    obtain ⟨rfl, -⟩ := hnext
    obtain rfl := new_cases hnew
    have hshown : ∀ (other : String) (member : Member),
        ((∅ : Table Member).insert id ⟨id, name, host.verifyingKey identity.signing,
          host.publicKey identity.exchange, 0, 0, profile, addr⟩)[other]? = some member →
        other = id := by
      intro other member hmember
      by_contra hne
      rw [getElem?_insert_ne _ _ (Ne.symm hne)] at hmember
      simp at hmember
    refine ⟨⟨_, getElem?_insert_self _ _ _, rfl, rfl⟩,
      fun other member hmember => Or.inl (hshown other member hmember), ?_⟩
    rw [shown_eq fun other member hmember => Or.inl (hshown other member hmember)] at hwell
    exact hwell
  | some old =>
    have hold := h old rfl
    simp only at hnext
    split at hnext
    · obtain ⟨rfl, -⟩ := Prod.mk.inj (Except.ok.inj hnext)
      exact hold
    obtain ⟨⟨roster, _⟩, hupdate, hnext⟩ := bind_ok_iff.1 hnext
    simp only [Except.ok.injEq, Prod.mk.injEq] at hnext
    obtain ⟨rfl, -⟩ := hnext
    obtain ⟨rfl, rfl | ⟨member, hmember, rfl⟩⟩ := updateLocal_cases hupdate
    · exact hold
    · apply hold.replaceOwn hmember
      · simp [sameKeys]
      · apply (wellFormed_iff.1 hwell).2.2.2.1
        rw [shown_own]
        exact getElem?_insert_self _ _ _

theorem whole_removeMember {known after : Option GroupState} {deviceId : Option String}
    (h : ∀ group ∈ known, Whole crypto group) (hremove : removeMember known deviceId = .ok after) :
    ∀ group ∈ after, Whole crypto group := by
  unfold removeMember at hremove
  split at hremove
  · rename_i group id
    obtain ⟨⟨roster, changed⟩, hout, hremove⟩ := bind_ok_iff.1 hremove
    simp only [pure, Except.pure] at hremove
    obtain rfl := Except.ok.inj hremove
    rintro _ ⟨⟩
    exact (h group rfl).remove hout
  · obtain rfl := Except.ok.inj hremove
    exact h

end CopyPaste.Peers.Caps
