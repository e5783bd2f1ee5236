import CopyPaste.Peers.Runs

/-!
What merging a snapshot does to each record and each removal of a roster, and what
stays out of reach of it: a removal is never taken back by the removed device, and no
other device changes the keys or the admission of this one.
-/

namespace CopyPaste.Peers.Membership

open Std (ExtTreeMap)
open Lib.Checks Lib.Tables Peers.Group Store Projection

variable {crypto : Crypto}

def joinRemoval : Option Nat → Option Nat → Option Nat
  | none, theirs => theirs
  | some mine, none => some mine
  | some mine, some theirs => some (max mine theirs)

/-- What becomes of the record of one device. -/
def mergeEntry (own issuer : String) (removal : Option Nat) (id : String) (old : Option Member)
    (member : Member) : Except PeerStoreError (Option Member) :=
  if id = own then
    match old with
    | none => .error invalid
    | some mine =>
      if sameKeys mine member then
        .ok (some { mine with admission := max mine.admission member.admission })
      else .error invalid
  else if removal.any fun removed => member.admission ≤ removed then .ok old
  else
    match old with
    | none => .ok (some member)
    | some old =>
      if !sameKeys old member then
        if member.admission ≤ old.admission ∨ id = issuer then .error invalid else .ok (some member)
      else if toLex (member.admission, member.revision) ≤ toLex (old.admission, old.revision) then
        .ok (some old)
      else .ok (some member)

variable {id : String} {roster remote out after : Roster} {issuer me : Member} {group : GroupState}
  {snapshot : GroupSnapshot} {changed : Bool}

theorem mergeRemoval_at {removed next : Table Nat} {generation : Nat}
    (h : mergeRemoval removed id generation = .ok next) :
    next[id]? = joinRemoval removed[id]? (some generation) ∧
      ∀ other, id ≠ other → next[other]? = removed[other]? := by
  unfold mergeRemoval at h
  split at h
  · simp at h
  · obtain rfl := Except.ok.inj h
    refine ⟨?_, fun other hother => getElem?_insert_ne _ _ hother⟩
    rw [getElem?_insert_self]
    cases removed[id]? <;> simp [joinRemoval]

theorem mergeMember_at {own issuer : String} {removed : Table Nat} {members next : Table Member}
    {member : Member} (h : mergeMember own issuer removed members id member = .ok next) :
    mergeEntry own issuer removed[id]? id members[id]? member = .ok next[id]? ∧
      ∀ other, id ≠ other → next[other]? = members[other]? := by
  have hinsert : ∀ value, (members.insert id value)[id]? = some value ∧
      ∀ other, id ≠ other → (members.insert id value)[other]? = members[other]? :=
    fun value => ⟨getElem?_insert_self _ _ _, fun other hother => getElem?_insert_ne _ _ hother⟩
  unfold mergeMember at h
  unfold mergeEntry
  split at h
  · rename_i hown
    rw [if_pos hown]
    cases hold : members[id]? with
    | none => simp [hold] at h
    | some mine =>
      simp only [hold] at h ⊢
      split at h
      · rename_i hkeys
        obtain rfl := Except.ok.inj h
        rw [if_pos hkeys, (hinsert _).1]
        exact ⟨rfl, (hinsert _).2⟩
      · simp at h
  rename_i hown
  rw [if_neg hown]
  split at h
  · rename_i hremoved
    obtain rfl := Except.ok.inj h
    rw [if_pos hremoved]
    exact ⟨rfl, fun _ _ => rfl⟩
  rename_i hremoved
  rw [if_neg hremoved]
  cases hold : members[id]? with
  | none =>
    simp only [hold] at h ⊢
    obtain rfl := Except.ok.inj h
    rw [(hinsert _).1]
    exact ⟨rfl, (hinsert _).2⟩
  | some old =>
    simp only [hold] at h ⊢
    split at h
    · rename_i hkeys
      rw [if_pos hkeys]
      split at h
      · simp at h
      · rename_i hstale
        obtain rfl := Except.ok.inj h
        rw [if_neg hstale, (hinsert _).1]
        exact ⟨rfl, (hinsert _).2⟩
    · rename_i hkeys
      rw [if_neg hkeys]
      split at h
      · rename_i hstale
        obtain rfl := Except.ok.inj h
        rw [if_pos hstale, hold]
        exact ⟨rfl, fun _ _ => rfl⟩
      · rename_i hstale
        obtain rfl := Except.ok.inj h
        rw [if_neg hstale, (hinsert _).1]
        exact ⟨rfl, (hinsert _).2⟩

/-- The rosters combined, entry by entry, before the removed members are dropped. -/
structure Combined (roster remote raw : Roster) : Prop where
  issuer : raw.issuer = roster.issuer
  removed : ∀ id : String, raw.removed[id]? = joinRemoval roster.removed[id]? remote.removed[id]?
  taken : ∀ (id : String) (member : Member), remote.members[id]? = some member →
    mergeEntry roster.issuer remote.issuer raw.removed[id]? id roster.members[id]? member =
      .ok raw.members[id]?
  kept : ∀ id : String, remote.members[id]? = none → raw.members[id]? = roster.members[id]?

theorem combine_cases (h : roster.combine remote issuer false = .ok out) :
    ∃ raw, Combined roster remote raw ∧ out = raw.retainActive := by
  unfold Roster.combine at h
  obtain ⟨removed, hremoved, h⟩ := bind_ok_iff.1 h
  obtain ⟨members, hmembers, h⟩ := bind_ok_iff.1 h
  simp only [bind, Except.bind, pure, Except.pure, Bool.false_eq_true,
    if_false] at h
  refine ⟨⟨roster.issuer, members, removed⟩, ⟨rfl, fun id => ?_, fun id member hmember => ?_,
    fun id hnone => ?_⟩, (Except.ok.inj h).symm⟩
  · obtain ⟨htaken, hkept⟩ := foldlM_relates
      (fun _ old generation new => new = joinRemoval old (some generation))
      (fun _ _ _ _ hstep => mergeRemoval_at hstep) hremoved id
    cases htheirs : remote.removed[id]? with
    | none =>
      rw [hkept htheirs]
      cases roster.removed[id]? <;> rfl
    | some generation => exact htaken generation htheirs
  · exact (foldlM_relates
      (fun id old member new => mergeEntry roster.issuer remote.issuer removed[id]? id old member =
        .ok new) (fun _ _ _ _ hstep => mergeMember_at hstep) hmembers id).1 member hmember
  · exact (foldlM_relates
      (fun id old member new => mergeEntry roster.issuer remote.issuer removed[id]? id old member =
        .ok new) (fun _ _ _ _ hstep => mergeMember_at hstep) hmembers id).2 hnone

@[simp] theorem retainActive_issuer (roster : Roster) :
    roster.retainActive.issuer = roster.issuer := by
  unfold Roster.retainActive
  simp only
  split <;> rfl

@[simp] theorem retainActive_removed (roster : Roster) :
    roster.retainActive.removed = roster.removed := by
  unfold Roster.retainActive
  simp only
  split <;> rfl

/-- The own record stays; the others stay while they and this device are admitted. -/
theorem retainActive_members (roster : Roster) (id : String) :
    roster.retainActive.members[id]? =
      if id = roster.issuer then roster.members[id]?
      else if roster.active then
        roster.members[id]?.filter fun member =>
          roster.removed[id]?.all fun removed => removed < member.admission
      else none := by
  have hfirst : ∀ id : String, (roster.members.filter fun id member =>
      decide (id = roster.issuer) || roster.removed[id]?.all fun removed =>
        decide (removed < member.admission))[id]? =
      if id = roster.issuer then roster.members[id]?
      else roster.members[id]?.filter fun member =>
        roster.removed[id]?.all fun removed => removed < member.admission := by
    intro id
    rw [ExtTreeMap.getElem?_filter']
    split
    · rename_i hid
      cases roster.members[id]? <;> simp [hid, Option.filter]
    · rename_i hid
      cases roster.members[id]? <;> simp [hid, Option.filter]
  have hactive : (Roster.mk roster.issuer (roster.members.filter fun id member =>
      decide (id = roster.issuer) || roster.removed[id]?.all fun removed =>
        decide (removed < member.admission)) roster.removed).active = roster.active := by
    unfold Roster.active Roster.isActive
    simp only [hfirst, if_true]
  unfold Roster.retainActive
  simp only [hactive]
  split
  · exact hfirst id
  · rename_i hno
    rw [ExtTreeMap.getElem?_filter', hfirst]
    by_cases hid : id = roster.issuer
    · cases roster.members[id]? <;> simp [hid, Option.filter]
    · cases roster.members[id]?.filter fun member =>
          roster.removed[id]?.all fun removed => removed < member.admission <;>
        simp [hid, Option.filter]

theorem isActive_iff :
    roster.isActive id = true ↔ ∃ member, roster.members[id]? = some member ∧
      ∀ removed, roster.removed[id]? = some removed → removed < member.admission := by
  unfold Roster.isActive
  cases roster.members[id]? with
  | none => simp
  | some member => cases roster.removed[id]? <;> simp

theorem snapshot_roster (h : group.snapshot crypto = .ok snapshot) :
    snapshot.roster = group.roster.shown := by
  unfold GroupState.snapshot at h
  obtain ⟨bytes, hbytes, h⟩ := bind_ok_iff.1 h
  simp only [pure, Except.pure] at h
  rw [← Except.ok.inj h]

theorem shown_own (roster : Roster) :
    roster.shown.members[roster.issuer]? = roster.members[roster.issuer]? := by
  unfold Roster.shown
  rw [ExtTreeMap.getElem?_filter']
  cases roster.members[roster.issuer]? <;> simp [Option.filter]

theorem wellFormed_of_valid (h : snapshot.validate crypto = .ok ()) :
    snapshot.roster.wellFormed = true := by
  unfold GroupSnapshot.validate at h
  split at h
  · simp at h
  · rename_i hvalid
    simp only [Bool.or_eq_true, Bool.not_eq_true', not_or, Bool.not_eq_false] at hvalid
    exact hvalid.1

/-- What a merge that goes through has checked. -/
structure Accepted (group : GroupState) (snapshot : GroupSnapshot) (explicit : Bool)
    (issuer me : Member) (out : Roster) : Prop where
  valid : snapshot.validate crypto = .ok ()
  remoteIssuer : snapshot.roster.members[snapshot.roster.issuer]? = some issuer
  foreign : snapshot.roster.issuer ≠ group.roster.issuer
  known : ∀ member, group.roster.members[snapshot.roster.issuer]? = some member →
    sameKeys member issuer = true
  included : explicit = false → group.roster.excludes snapshot.roster issuer = false
  own : group.roster.members[group.roster.issuer]? = some me
  modest : group.roster.oversteps snapshot.roster me = false
  combined : group.roster.combine snapshot.roster issuer explicit = .ok out
  room : out.members.size ≤ maxPairings + 1
  checked : group.roster ≠ out → ({ group with roster := out } : GroupState).validate crypto = .ok ()

theorem merge_cases {after : GroupState} {explicit : Bool}
    (h : group.merge crypto snapshot explicit = .ok (after, changed)) :
    snapshot.roster.issuer = group.roster.issuer ∧ after = group ∧ changed = false ∨
    ∃ issuer me out, @Accepted crypto group snapshot explicit issuer me out ∧
      after = { group with roster := out } ∧ (changed = true ↔ group.roster ≠ out) := by
  unfold GroupState.merge at h
  obtain ⟨_, hvalid, h⟩ := bind_ok_iff.1 h
  simp only [bind, Except.bind] at h
  split at h
  · simp at h
  rename_i issuer hissuer
  split at h
  · rename_i hown
    simp only [pure, Except.pure, Except.ok.injEq, Prod.mk.injEq] at h
    exact Or.inl ⟨hown, h.1.symm, h.2.symm⟩
  rename_i hforeign
  split at h
  · simp at h
  rename_i hknown
  split at h
  · simp at h
  rename_i hincluded
  split at h
  · simp at h
  rename_i me hme
  split at h
  · simp at h
  rename_i hmodest
  split at h
  · simp at h
  rename_i out hout
  split at h
  · simp at h
  rename_i hroom
  refine Or.inr ⟨issuer, me, out, ?_⟩
  have hbase : (group.roster ≠ out →
      ({ group with roster := out } : GroupState).validate crypto = .ok ()) →
      @Accepted crypto group snapshot explicit issuer me out := by
    intro hchecked
    refine ⟨hvalid, hissuer, hforeign, ?_, ?_, hme, by simpa using hmodest, hout,
      Nat.le_of_not_lt hroom, hchecked⟩
    · intro member hmember
      simpa [hmember] using hknown
    · intro hexplicit
      simpa [hexplicit] using hincluded
  split at h
  · rename_i hsame
    simp only [pure, Except.pure, Except.ok.injEq, Prod.mk.injEq] at h
    exact ⟨hbase fun hne => absurd hsame hne, h.1.symm, by simp [← h.2, hsame]⟩
  · rename_i hdiffers
    split at h
    · simp at h
    rename_i hchecked
    simp only [pure, Except.pure, Except.ok.injEq, Prod.mk.injEq] at h
    exact ⟨hbase fun _ => hchecked, h.1.symm, by simp [← h.2, hdiffers]⟩

theorem le_joinRemoval {mine generation : Nat} {theirs joined : Option Nat}
    (h : joined = joinRemoval (some mine) theirs) (hjoined : joined = some generation) :
    mine ≤ generation := by
  rw [h] at hjoined
  cases theirs with
  | none => exact le_of_eq (Option.some.inj hjoined)
  | some other =>
    rw [← Option.some.inj hjoined]
    exact le_max_left mine other

theorem joinRemoval_isSome (mine : Nat) (theirs : Option Nat) :
    ∃ generation, joinRemoval (some mine) theirs = some generation := by
  cases theirs with
  | none => exact ⟨mine, rfl⟩
  | some other => exact ⟨max mine other, rfl⟩

/-- No roster of another device changes the own record. -/
theorem combined_own {raw : Roster} (h : Combined roster remote raw)
    (hme : roster.members[roster.issuer]? = some me)
    (hmodest : roster.oversteps remote me = false) : raw.members[roster.issuer]? = some me := by
  cases htheirs : remote.members[roster.issuer]? with
  | none =>
    rw [h.kept _ htheirs]
    exact hme
  | some member =>
    have hentry := h.taken _ member htheirs
    have hbound : member.admission ≤ me.admission := by
      simp only [Roster.oversteps, htheirs, Option.any_some, Bool.or_eq_false_iff,
        decide_eq_false_iff_not, not_lt] at hmodest
      exact hmodest.1
    simp only [mergeEntry, if_true, hme] at hentry
    split at hentry
    · rw [← Except.ok.inj hentry, max_eq_left hbound]
    · simp at hentry

/-- The record after a merge is the old one or the one of the snapshot. -/
theorem combined_taken {raw : Roster} {member : Member} (h : Combined roster remote raw)
    (hid : id ≠ roster.issuer) (hmember : raw.members[id]? = some member) :
    roster.members[id]? = some member ∨ remote.members[id]? = some member := by
  cases htheirs : remote.members[id]? with
  | none =>
    rw [h.kept id htheirs] at hmember
    exact Or.inl hmember
  | some other =>
    have hentry := h.taken id other htheirs
    rw [hmember] at hentry
    simp only [mergeEntry, if_neg hid] at hentry
    split at hentry
    · exact Or.inl (Except.ok.inj hentry)
    split at hentry
    · exact Or.inr (Except.ok.inj hentry)
    rename_i old hold
    split at hentry
    · split at hentry
      · simp at hentry
      · exact Or.inr (Except.ok.inj hentry)
    split at hentry
    · exact Or.inl (by rw [hold]; exact Except.ok.inj hentry)
    · exact Or.inr (Except.ok.inj hentry)

/-- A call of a device on its own group. -/
inductive Act
  | merge (snapshot : GroupSnapshot)
  | remove (id : String)
  | updateLocal (id name : String) (profile : DeviceProfile) (addr : Option SocketAddr)

/-- A call that fails leaves the group as it was: the store works on a copy. -/
def step (crypto : Crypto) (group : GroupState) : Act → GroupState
  | .merge snapshot =>
    match group.merge crypto snapshot false with
    | .ok (after, _) => after
    | .error _ => group
  | .remove id =>
    match group.roster.remove id with
    | .ok (roster, _) => { group with roster := roster }
    | .error _ => group
  | .updateLocal id name profile addr =>
    match group.roster.updateLocal id name profile addr with
    | .ok (roster, _) => { group with roster := roster }
    | .error _ => group

def run (crypto : Crypto) (group : GroupState) (acts : List Act) : GroupState :=
  acts.foldl (step crypto) group

/-- What a call leaves of a removal, and of the own record. -/
structure Keeps (group after : GroupState) : Prop where
  issuer : after.roster.issuer = group.roster.issuer
  removed : ∀ (id : String) (generation : Nat), group.roster.removed[id]? = some generation →
    ∃ later, after.roster.removed[id]? = some later ∧ generation ≤ later
  own : ∀ me, group.roster.members[group.roster.issuer]? = some me →
    ∃ still, after.roster.members[group.roster.issuer]? = some still ∧
      still.signingKey = me.signingKey ∧ still.exchangeKey = me.exchangeKey ∧
      still.admission = me.admission

theorem Keeps.refl (group : GroupState) : Keeps group group :=
  ⟨rfl, fun _ generation h => ⟨generation, h, le_rfl⟩, fun me h => ⟨me, h, rfl, rfl, rfl⟩⟩

theorem Keeps.trans {middle after : GroupState} (h : Keeps group middle) (h' : Keeps middle after) :
    Keeps group after := by
  refine ⟨h'.issuer.trans h.issuer, fun id generation hremoved => ?_, fun me hme => ?_⟩
  · obtain ⟨later, hlater, hle⟩ := h.removed id generation hremoved
    obtain ⟨last, hlast, hle'⟩ := h'.removed id later hlater
    exact ⟨last, hlast, hle.trans hle'⟩
  · obtain ⟨still, hstill, hsigning, hexchange, hadmission⟩ := h.own me hme
    rw [← h.issuer] at hstill
    obtain ⟨last, hlast, hsigning', hexchange', hadmission'⟩ := h'.own still hstill
    rw [h.issuer] at hlast
    exact ⟨last, hlast, hsigning'.trans hsigning, hexchange'.trans hexchange,
      hadmission'.trans hadmission⟩

theorem accepted_keeps (h : @Accepted crypto group snapshot false issuer me out) :
    Keeps group { group with roster := out } := by
  obtain ⟨raw, hraw, rfl⟩ := combine_cases h.combined
  refine ⟨by simp [hraw.issuer], fun id generation hremoved => ?_, fun own hown => ?_⟩
  · simp only [retainActive_removed]
    have hjoined := hraw.removed id
    rw [hremoved] at hjoined
    obtain ⟨later, hlater⟩ := joinRemoval_isSome generation snapshot.roster.removed[id]?
    exact ⟨later, hjoined.trans hlater, le_joinRemoval hjoined (hjoined.trans hlater)⟩
  · refine ⟨own, ?_, rfl, rfl, rfl⟩
    rw [h.own] at hown
    obtain rfl := Option.some.inj hown
    simp only [retainActive_members, hraw.issuer, if_true]
    exact combined_own hraw h.own h.modest

theorem remove_cases (h : roster.remove id = .ok (after, changed)) :
    after = roster ∨
      validateId id = true ∧ (id ∈ roster.removed ∨ roster.removed.size < maxRevocations) ∧
      (∀ old, roster.removed[id]? = some old →
        old < (roster.members[id]?.map Member.admission).getD 0) ∧
      after = { roster with
        removed := roster.removed.insert id ((roster.members[id]?.map Member.admission).getD 0)
        members := if id = roster.issuer then roster.members else roster.members.erase id } := by
  unfold Roster.remove at h
  split at h
  · simp at h
  rename_i hid
  simp only at h
  split at h
  · exact Or.inl (Prod.mk.inj (Except.ok.inj h)).1.symm
  rename_i hnewer
  split at h
  · simp at h
  rename_i hroom
  refine Or.inr ⟨by simpa using hid, ?_, fun old hold => ?_, (Prod.mk.inj (Except.ok.inj h)).1.symm⟩
  · by_cases hknown : id ∈ roster.removed
    · exact Or.inl hknown
    · exact Or.inr (Nat.lt_of_not_le fun hfull =>
        hroom ⟨hfull, by simp [← Bool.not_eq_true, ExtTreeMap.contains_iff_mem, hknown]⟩)
  · simpa [hold] using hnewer

theorem remove_keeps (h : group.roster.remove id = .ok (after, changed)) :
    Keeps group { group with roster := after } := by
  rcases remove_cases h with rfl | ⟨-, -, hnewer, rfl⟩
  · exact Keeps.refl group
  refine ⟨rfl, fun other generation hremoved => ?_, fun me hme => ⟨me, ?_, rfl, rfl, rfl⟩⟩
  · by_cases hid : id = other
    · subst hid
      exact ⟨_, getElem?_insert_self _ _ _, le_of_lt (hnewer generation hremoved)⟩
    · exact ⟨generation, (getElem?_insert_ne _ _ hid).trans hremoved, le_rfl⟩
  · simp only
    split
    · exact hme
    · rename_i hid
      rw [getElem?_erase_ne _ hid]
      exact hme

theorem updateLocal_cases {name : String} {profile : DeviceProfile} {addr : Option SocketAddr}
    (h : roster.updateLocal id name profile addr = .ok (after, changed)) :
    id = roster.issuer ∧ (after = roster ∨ ∃ member, roster.members[id]? = some member ∧
      after = { roster with
        members := roster.members.insert id { member with
          name := name
          profile := profile
          listenAddr := addr
          revision := member.revision + 1 } }) := by
  unfold Roster.updateLocal at h
  split at h
  · simp at h
  rename_i hid
  refine ⟨by simpa using hid, ?_⟩
  split at h
  · simp at h
  rename_i member hmember
  split at h
  · exact Or.inl (Prod.mk.inj (Except.ok.inj h)).1.symm
  split at h
  · exact Or.inr ⟨member, hmember, (Prod.mk.inj (Except.ok.inj h)).1.symm⟩
  · simp at h

theorem updateLocal_keeps {name : String} {profile : DeviceProfile} {addr : Option SocketAddr}
    (h : group.roster.updateLocal id name profile addr = .ok (after, changed)) :
    Keeps group { group with roster := after } := by
  obtain ⟨rfl, rfl | ⟨member, hmember, rfl⟩⟩ := updateLocal_cases h
  · exact Keeps.refl group
  · refine ⟨rfl, fun other generation hremoved => ⟨generation, hremoved, le_rfl⟩, fun me hme => ?_⟩
    rw [hmember] at hme
    obtain rfl := Option.some.inj hme
    exact ⟨_, getElem?_insert_self _ _ _, rfl, rfl, rfl⟩

theorem step_keeps (group : GroupState) (act : Act) : Keeps group (step crypto group act) := by
  cases act with
  | merge snapshot =>
    simp only [step]
    split
    · rename_i after changed hmerge
      rcases merge_cases hmerge with ⟨-, rfl, -⟩ | ⟨issuer, me, out, haccepted, rfl, -⟩
      · exact Keeps.refl _
      · exact accepted_keeps haccepted
    · exact Keeps.refl group
  | remove id =>
    simp only [step]
    split
    · rename_i hremove
      exact remove_keeps hremove
    · exact Keeps.refl group
  | updateLocal id name profile addr =>
    simp only [step]
    split
    · rename_i hupdate
      exact updateLocal_keeps hupdate
    · exact Keeps.refl group

theorem run_keeps (group : GroupState) (acts : List Act) : Keeps group (run crypto group acts) := by
  induction acts generalizing group with
  | nil => exact Keeps.refl group
  | cons act rest ih => exact (step_keeps group act).trans (ih (step crypto group act))

/-- An admission that counts after a call counted before it. -/
theorem isActive_of_keeps {after : GroupState} (hkeeps : Keeps group after)
    (hmember : ∀ member, after.roster.members[id]? = some member →
      ∃ old, group.roster.members[id]? = some old ∧ old.admission = member.admission)
    (h : after.roster.isActive id = true) : group.roster.isActive id = true := by
  obtain ⟨member, hafter, habove⟩ := isActive_iff.1 h
  obtain ⟨old, hold, hadmission⟩ := hmember member hafter
  refine isActive_iff.2 ⟨old, hold, fun removed hremoved => ?_⟩
  obtain ⟨later, hlater, hle⟩ := hkeeps.removed id removed hremoved
  rw [hadmission]
  exact lt_of_le_of_lt hle (habove later hlater)

/-- What brings a removed device back: another member's word for a greater admission. -/
def Readmits (group : GroupState) (id : String) (act : Act) : Prop :=
  ∃ snapshot, act = .merge snapshot ∧ snapshot.roster.issuer ≠ id ∧
    group.roster.removedDevice snapshot.roster.issuer = false ∧
    ∃ member removed, snapshot.roster.members[id]? = some member ∧
      group.roster.removed[id]? = some removed ∧ removed < member.admission

theorem removedDevice_iff :
    roster.removedDevice id = true ↔
      (∃ removed, roster.removed[id]? = some removed) ∧ roster.isActive id = false := by
  unfold Roster.removedDevice
  rw [Bool.and_eq_true, Bool.not_eq_true', ExtTreeMap.contains_iff_mem]
  constructor
  · rintro ⟨hmem, hactive⟩
    exact ⟨exists_of_mem hmem, hactive⟩
  · rintro ⟨⟨removed, hremoved⟩, hactive⟩
    exact ⟨mem_of_getElem? hremoved, hactive⟩

theorem accepted_readmits (h : @Accepted crypto group snapshot false issuer me out)
    (hremoved : group.roster.removedDevice id = true) (hactive : out.isActive id = true) :
    Readmits group id (.merge snapshot) := by
  obtain ⟨⟨removed, hgeneration⟩, hinactive⟩ := removedDevice_iff.1 hremoved
  obtain ⟨member, hmember, habove⟩ := isActive_iff.1 hactive
  have hgreater : removed < member.admission := by
    obtain ⟨later, hlater, hle⟩ := (accepted_keeps h).removed id removed hgeneration
    exact lt_of_le_of_lt hle (habove later hlater)
  -- so the record is not the one the device had here
  have hnew : group.roster.members[id]? ≠ some member := by
    intro hold
    have hbefore : group.roster.isActive id = true := by
      refine isActive_iff.2 ⟨member, hold, fun other hother => ?_⟩
      rw [hgeneration] at hother
      rw [← Option.some.inj hother]
      exact hgreater
    rw [hbefore] at hinactive
    simp at hinactive
  have hissuer : group.roster.removedDevice snapshot.roster.issuer = false := by
    have hincluded := h.included rfl
    simp only [Roster.excludes, Bool.or_eq_false_iff] at hincluded
    exact hincluded.1.1
  obtain ⟨raw, hraw, rfl⟩ := combine_cases h.combined
  have hown : id ≠ group.roster.issuer := by
    rintro rfl
    rw [retainActive_members, hraw.issuer, if_pos rfl, combined_own hraw h.own h.modest] at hmember
    exact hnew (h.own.trans hmember)
  rw [retainActive_members, hraw.issuer, if_neg hown] at hmember
  split at hmember
  swap
  · simp at hmember
  obtain ⟨hentry, -⟩ := Option.filter_eq_some_iff.1 hmember
  have htheirs := (combined_taken hraw hown hentry).resolve_left hnew
  refine ⟨snapshot, rfl, fun hsame => ?_, hissuer, member, removed, htheirs, hgeneration, hgreater⟩
  rw [hsame, hremoved] at hissuer
  simp at hissuer

theorem step_readmits {act : Act} (hremoved : group.roster.removedDevice id = true)
    (hactive : (step crypto group act).roster.isActive id = true) : Readmits group id act := by
  have hinactive := (removedDevice_iff.1 hremoved).2
  cases act with
  | merge snapshot =>
    simp only [step] at hactive
    split at hactive
    · rename_i after changed hmerge
      rcases merge_cases hmerge with ⟨-, rfl, -⟩ | ⟨issuer, me, out, haccepted, rfl, -⟩
      · rw [hactive] at hinactive
        simp at hinactive
      · exact accepted_readmits haccepted hremoved hactive
    · rw [hactive] at hinactive
      simp at hinactive
  | remove other =>
    have hbefore : group.roster.isActive id = true := by
      simp only [step] at hactive
      split at hactive
      · rename_i after changed hremove
        refine isActive_of_keeps (remove_keeps hremove) (fun member hmember => ⟨member, ?_, rfl⟩) hactive
        rcases remove_cases hremove with rfl | ⟨-, -, -, rfl⟩
        · exact hmember
        · simp only at hmember
          split at hmember
          · exact hmember
          · exact (getElem?_of_erase hmember).2
      · exact hactive
    rw [hbefore] at hinactive
    simp at hinactive
  | updateLocal other name profile addr =>
    have hbefore : group.roster.isActive id = true := by
      simp only [step] at hactive
      split at hactive
      · rename_i after changed hupdate
        refine isActive_of_keeps (updateLocal_keeps hupdate) (fun member hmember => ?_) hactive
        obtain ⟨-, rfl | ⟨old, hold, rfl⟩⟩ := updateLocal_cases hupdate
        · exact ⟨member, hmember, rfl⟩
        · by_cases hid : other = id
          · subst hid
            rw [getElem?_insert_self] at hmember
            exact ⟨old, hold, by rw [← Option.some.inj hmember]⟩
          · rw [getElem?_insert_ne _ _ hid] at hmember
            exact ⟨member, hmember, rfl⟩
      · exact hactive
    rw [hbefore] at hinactive
    simp at hinactive

/-- Over a run, one of its merges brought the device back. -/
theorem run_readmits {acts : List Act} (hremoved : group.roster.removedDevice id = true)
    (hactive : (run crypto group acts).roster.isActive id = true) :
    ∃ before act after, acts = before ++ act :: after ∧
      (run crypto group before).roster.removedDevice id = true ∧
      Readmits (run crypto group before) id act := by
  induction acts generalizing group with
  | nil =>
    have hinactive := (removedDevice_iff.1 hremoved).2
    rw [show group.roster.isActive id = true from hactive] at hinactive
    simp at hinactive
  | cons act rest ih =>
    cases hnow : (step crypto group act).roster.isActive id with
    | true => exact ⟨[], act, rest, rfl, hremoved, step_readmits hremoved hnow⟩
    | false =>
      obtain ⟨⟨removed, hgeneration⟩, -⟩ := removedDevice_iff.1 hremoved
      obtain ⟨later, hlater, -⟩ := (@step_keeps crypto group act).removed id removed hgeneration
      obtain ⟨before, found, after, rfl, hstill, hreadmits⟩ :=
        ih (removedDevice_iff.2 ⟨⟨later, hlater⟩, hnow⟩) hactive
      exact ⟨act :: before, found, after, rfl, hstill, hreadmits⟩

theorem isActive_of_mem_peers {peers : List Peer} (h : group.peers crypto = .ok peers) {peer : Peer}
    (hpeer : peer ∈ peers) (hid : peer.deviceId = some id) : group.roster.isActive id = true := by
  unfold GroupState.peers at h
  split at h
  · obtain rfl := Except.ok.inj h
    simp at hpeer
  split at h
  · simp at h
  rename_i me hme
  obtain ⟨⟨key, member⟩, hmem, hderive⟩ := exists_of_mem_mapM h hpeer
  have hactive := (List.mem_filter.1 hmem).2
  simp only [Bool.and_eq_true] at hactive
  obtain ⟨pair, hpair, hderive⟩ := bind_ok_iff.1 hderive
  simp only [pure, Except.pure, Except.ok.injEq] at hderive
  rw [← hderive] at hid
  rw [← Option.some.inj hid]
  exact hactive.2

/-- A snapshot of a removed device changes nothing in the store, unless the users have
just confirmed the pairing it came over. -/
theorem mergeGroup_refused {host : Host} {store : PeerStore} {saved : Bool}
    {pairingId : Option String} (hgroup : store.state.group = some group)
    (hremoved : group.roster.removedDevice snapshot.roster.issuer = true)
    (hunmarked : ∀ id ∈ pairingId, store.state.groupAdmissions.contains id = false) :
    (mergeGroup host store saved snapshot pairingId false).1.state.group = store.state.group ∧
    (snapshot.roster.issuer ≠ group.roster.issuer →
      (mergeGroup host store saved snapshot pairingId false).1 = store ∧
      ∃ e, (mergeGroup host store saved snapshot pairingId false).2 = .error e) := by
  -- whatever the merge decides, the group is the one from before
  have hsame : ∀ out, mergeNext host store.state snapshot pairingId false = .ok out →
      snapshot.roster.issuer = group.roster.issuer ∧
        ∀ next ∈ out, next.group = store.state.group := by
    intro out hout
    obtain ⟨known, bound, _, merged, changed, hknown, hbound, hmerge, hproject⟩ :=
      mergeNext_cases host hout
    obtain rfl : group = known := Option.some.inj (hgroup.symm.trans hknown)
    obtain ⟨-, -, hmarks, -⟩ := bindIdentity_frame hbound
    have hfresh : (pairingId.any fun id => bound.groupAdmissions.contains id) = false := by
      rw [hmarks]
      cases pairingId with
      | none => rfl
      | some id => exact hunmarked id rfl
    rw [hfresh] at hmerge
    rcases merge_cases hmerge with ⟨hown, rfl, -⟩ | ⟨issuer, me, raw, haccepted, -, -⟩
    · refine ⟨hown, fun next hnext => ?_⟩
      rw [(project_frame host (hproject next hnext)).1, hgroup]
    · have hincluded := haccepted.included rfl
      simp [Roster.excludes, hremoved] at hincluded
  unfold mergeGroup
  cases hout : mergeNext host store.state snapshot pairingId false with
  | error e => exact ⟨rfl, fun _ => ⟨rfl, e, rfl⟩⟩
  | ok out =>
    obtain ⟨hown, hnext⟩ := hsame out hout
    refine ⟨?_, fun hforeign => absurd hown hforeign⟩
    cases out with
    | none => rfl
    | some next =>
      simp only
      split
      · rfl
      · have hgroups := congrArg State.group (Runs.content_foldl_bump
          (store.state.peers.toList.map Prod.fst ++ next.peers.toList.map Prod.fst) next)
        exact Eq.trans hgroups (hnext next rfl)

/-- Whatever a device merges without the users' consent, removes and updates: no removal
is taken back, its own keys and admission stay, a removed device changes nothing, and
comes back only on the word of another member for an admission above its removal. -/
theorem removal_final {host : Host} (group : GroupState) (acts : List Act) :
    (∀ (id : String) (generation : Nat), group.roster.removed[id]? = some generation →
      ∃ later, (run host.toCrypto group acts).roster.removed[id]? = some later ∧
        generation ≤ later) ∧
    ((run host.toCrypto group acts).roster.issuer = group.roster.issuer ∧
      ∀ me, group.roster.members[group.roster.issuer]? = some me →
        ∃ still, (run host.toCrypto group acts).roster.members[group.roster.issuer]? = some still ∧
          still.signingKey = me.signingKey ∧ still.exchangeKey = me.exchangeKey ∧
          still.admission = me.admission) ∧
    (∀ (store : PeerStore) (saved : Bool) (snapshot : GroupSnapshot) (pairingId : Option String),
      store.state.group = some (run host.toCrypto group acts) →
      (run host.toCrypto group acts).roster.removedDevice snapshot.roster.issuer = true →
      (∀ id ∈ pairingId, store.state.groupAdmissions.contains id = false) →
      (mergeGroup host store saved snapshot pairingId false).1.state.group = store.state.group ∧
      (snapshot.roster.issuer ≠ group.roster.issuer →
        (mergeGroup host store saved snapshot pairingId false).1 = store ∧
        ∃ e, (mergeGroup host store saved snapshot pairingId false).2 = .error e)) ∧
    ∀ id, group.roster.removedDevice id = true →
      ∀ peers, (run host.toCrypto group acts).peers host.toCrypto = .ok peers →
      (∃ peer ∈ peers, peer.deviceId = some id) →
      ∃ before act after, acts = before ++ act :: after ∧
        (run host.toCrypto group before).roster.removedDevice id = true ∧
        Readmits (run host.toCrypto group before) id act := by
  have hkeeps := @run_keeps host.toCrypto group acts
  refine ⟨hkeeps.removed, ⟨hkeeps.issuer, hkeeps.own⟩, ?_, ?_⟩
  · intro store saved snapshot pairingId hgroup hremoved hunmarked
    rw [← hkeeps.issuer]
    exact mergeGroup_refused hgroup hremoved hunmarked
  · rintro id hremoved peers hpeers ⟨peer, hpeer, hid⟩
    exact run_readmits hremoved (isActive_of_mem_peers hpeers hpeer hid)

end CopyPaste.Peers.Membership
