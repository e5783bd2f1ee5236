import CopyPaste.Lib.Best
import CopyPaste.Peers.Membership
import Mathlib

/-!
Merging rosters is a join: of every device the greatest removal, and of every other
member the record of the greatest admission and revision that is above it. So the
order of two snapshots does not matter, a second merge changes nothing, and two
devices that merge each other's rosters agree on the group and on their credential.
-/

namespace CopyPaste.Peers.Join

open Std (ExtTreeMap)
open Lib.Checks Lib.Tables Lib.Best Peers.Group Store CopyPaste.Peers.Membership

variable {crypto : Crypto}

def rank (member : Member) : ℕ ×ₗ ℕ :=
  toLex (member.admission, member.revision)

def above (removal : Option Nat) (member : Member) : Bool :=
  removal.all fun removed => removed < member.admission

theorem admission_le_of_rank {a b : Member} (h : rank b ≤ rank a) : b.admission ≤ a.admission := by
  rcases Prod.Lex.toLex_le_toLex.1 h with hlt | ⟨heq, -⟩
  · exact le_of_lt hlt
  · exact le_of_eq heq

theorem above_mono (removal : Option Nat) (a b : Member) (h : rank b ≤ rank a)
    (hb : above removal b = true) : above removal a = true := by
  cases removal with
  | none => rfl
  | some removed =>
    have hlt : removed < b.admission := by simpa [above] using hb
    simpa [above] using lt_of_lt_of_le hlt (admission_le_of_rank h)

variable {own id : String} {removal : Option Nat} {member me : Member} {group : GroupState}
  {snapshot : GroupSnapshot} {out roster remote first second middle out' : Roster}

/-- What a merge takes of another device is the better of the two records, as far as
they are above the removal. -/
theorem mergeEntry_best {issuer : String} {old new : Option Member} (hid : id ≠ own)
    (h : mergeEntry own issuer removal id old member = .ok new) :
    new.filter (above removal) =
      best rank (old.filter (above removal)) ((some member).filter (above removal)) := by
  simp only [mergeEntry, if_neg hid] at h
  have habove : above removal member = !(removal.any fun removed => member.admission ≤ removed) := by
    cases removal with
    | none => rfl
    | some removed =>
      show decide (removed < member.admission) = !decide (member.admission ≤ removed)
      rw [← decide_not]
      simp only [not_le]
  split at h
  · rename_i hstale
    rw [← Except.ok.inj h]
    simp [Option.filter, habove, hstale]
  rename_i hnewer
  have hmember : (some member).filter (above removal) = some member := by
    simp [Option.filter, habove, hnewer]
  -- the record counts, so the better of the two counts as well
  have hbest : ∀ stored, (best rank (some stored) (some member)).filter (above removal) =
      best rank ((some stored).filter (above removal)) ((some member).filter (above removal)) :=
    fun stored => filter_best rank (above_mono removal) (some stored) (some member)
  split at h
  · rw [← Except.ok.inj h]
    simp
  rename_i stored
  split at h
  · split at h
    · simp at h
    · rename_i hgreater
      rw [not_or, not_le] at hgreater
      have hrank : ¬ rank member ≤ rank stored := fun hle =>
        absurd (admission_le_of_rank hle) (not_le.2 hgreater.1)
      rw [← Except.ok.inj h, ← hbest stored]
      simp [best, hrank]
  · rw [← hbest stored]
    split at h
    · rename_i hle
      have hrank : rank member ≤ rank stored := hle
      rw [← Except.ok.inj h, best, if_pos hrank]
    · rename_i hle
      have hrank : ¬ rank member ≤ rank stored := hle
      rw [← Except.ok.inj h, best, if_neg hrank]

theorem retainActive_active (roster : Roster) : roster.retainActive.active = roster.active := by
  unfold Roster.active Roster.isActive
  rw [retainActive_members, retainActive_removed, retainActive_issuer, if_pos rfl]

/-- The roster after a merge, entry by entry. -/
structure Joined (roster remote out : Roster) : Prop where
  issuer : out.issuer = roster.issuer
  removed : ∀ id : String, out.removed[id]? = joinRemoval roster.removed[id]? remote.removed[id]?
  own : out.members[roster.issuer]? = roster.members[roster.issuer]?
  others : out.active = true → ∀ id : String, id ≠ roster.issuer → out.members[id]? =
    best rank (roster.members[id]?.filter (above out.removed[id]?))
      (remote.members[id]?.filter (above out.removed[id]?))
  alone : out.active = false → ∀ id : String, id ≠ roster.issuer → out.members[id]? = none

theorem accepted_joined {issuer : Member}
    (h : @Accepted crypto group snapshot false issuer me out) :
    Joined group.roster snapshot.roster out := by
  obtain ⟨raw, hraw, rfl⟩ := combine_cases h.combined
  refine ⟨by simp [hraw.issuer], fun id => by simp [hraw.removed], ?_, fun hactive id hid => ?_,
    fun hinactive id hid => ?_⟩
  · rw [retainActive_members, hraw.issuer, if_pos rfl, combined_own hraw h.own h.modest, h.own]
  · rw [retainActive_active] at hactive
    rw [retainActive_members, hraw.issuer, if_neg hid, if_pos hactive, retainActive_removed]
    cases htheirs : snapshot.roster.members[id]? with
    | none =>
      rw [hraw.kept id htheirs, Option.filter_none, best_none]
      rfl
    | some member => exact mergeEntry_best hid (hraw.taken id member htheirs)
  · rw [retainActive_active] at hinactive
    rw [retainActive_members, hraw.issuer, if_neg hid, if_neg (by simp [hinactive])]

theorem joinRemoval_comm (a b : Option Nat) : joinRemoval a b = joinRemoval b a := by
  cases a <;> cases b <;> simp [joinRemoval, max_comm]

theorem joinRemoval_right_comm (a b c : Option Nat) :
    joinRemoval (joinRemoval a b) c = joinRemoval (joinRemoval a c) b := by
  cases a <;> cases b <;> cases c <;> simp [joinRemoval] <;> omega

theorem joinRemoval_self_right (a b : Option Nat) :
    joinRemoval (joinRemoval a b) b = joinRemoval a b := by
  cases a <;> cases b <;> simp [joinRemoval]

theorem above_of_join {a b : Option Nat} (h : above (joinRemoval a b) member = true) :
    above a member = true := by
  cases a with
  | none => rfl
  | some mine =>
    cases b with
    | none => exact h
    | some theirs =>
      have hlt : max mine theirs < member.admission := by simpa [above, joinRemoval] using h
      simpa [above] using lt_of_le_of_lt (le_max_left mine theirs) hlt

theorem filter_above_join (a b : Option Nat) (entry : Option Member) :
    (entry.filter (above a)).filter (above (joinRemoval a b)) =
      entry.filter (above (joinRemoval a b)) := by
  cases entry with
  | none => rfl
  | some member =>
    cases hjoin : above (joinRemoval a b) member with
    | true => simp [Option.filter, hjoin, above_of_join hjoin]
    | false =>
      cases ha : above a member <;> simp [Option.filter, hjoin, ha]

/-- A merge removes more, so it makes no inactive device active. -/
theorem Joined.active_before (h : Joined roster remote out) (hactive : out.active = true) :
    roster.active = true := by
  obtain ⟨member, hmember, habove⟩ := isActive_iff.1 hactive
  rw [h.issuer, h.own] at hmember
  refine isActive_iff.2 ⟨member, hmember, fun removed hremoved => ?_⟩
  have hjoined := h.removed roster.issuer
  rw [hremoved] at hjoined
  obtain ⟨later, hlater⟩ := joinRemoval_isSome removed remote.removed[roster.issuer]?
  have hlt := habove later (by rw [h.issuer, hjoined, hlater])
  exact lt_of_le_of_lt (le_joinRemoval hjoined (hjoined.trans hlater)) hlt

/-- Two merges, entry by entry. -/
theorem Joined.twice (h : Joined roster first middle) (h' : Joined middle second out)
    (hactive : out.active = true) (hid : id ≠ roster.issuer) :
    out.members[id]? = best rank
      (best rank (roster.members[id]?.filter (above out.removed[id]?))
        (first.members[id]?.filter (above out.removed[id]?)))
      (second.members[id]?.filter (above out.removed[id]?)) := by
  have hmiddle := h'.active_before hactive
  rw [h'.others hactive id (by rw [h.issuer]; exact hid), h.others hmiddle id hid]
  rw [filter_best rank (above_mono _), h'.removed id, filter_above_join, filter_above_join]

theorem active_congr {a b : Roster} (hissuer : a.issuer = b.issuer)
    (hremoved : a.removed[b.issuer]? = b.removed[b.issuer]?)
    (hown : a.members[b.issuer]? = b.members[b.issuer]?) : a.active = b.active := by
  unfold Roster.active Roster.isActive
  rw [hissuer, hremoved, hown]

theorem roster_ext {a b : Roster} (hissuer : a.issuer = b.issuer)
    (hmembers : ∀ id : String, a.members[id]? = b.members[id]?)
    (hremoved : ∀ id : String, a.removed[id]? = b.removed[id]?) : a = b := by
  have hmembersTable := ExtTreeMap.ext_getElem? hmembers
  have hremovedTable := ExtTreeMap.ext_getElem? hremoved
  cases a
  cases b
  simp only at hissuer hmembersTable hremovedTable
  rw [hissuer, hmembersTable, hremovedTable]

/-- The two rosters determine what is joined of them. -/
theorem Joined.unique (h : Joined roster remote out) (h' : Joined roster remote out') :
    out = out' := by
  have hremoved : ∀ id : String, out.removed[id]? = out'.removed[id]? := by
    intro id
    rw [h.removed, h'.removed]
  have hown : out.members[roster.issuer]? = out'.members[roster.issuer]? := by
    rw [h.own, h'.own]
  have hactive : out.active = out'.active := by
    apply active_congr (h.issuer.trans h'.issuer.symm) (hremoved _)
    rw [h'.issuer]
    exact hown
  apply roster_ext (h.issuer.trans h'.issuer.symm) _ hremoved
  intro id
  by_cases hid : id = roster.issuer
  · rw [hid]
    exact hown
  · cases hnow : out.active with
    | false => rw [h.alone hnow id hid, h'.alone (hactive ▸ hnow) id hid]
    | true => rw [h.others hnow id hid, h'.others (hactive ▸ hnow) id hid, hremoved id]

/-- Two snapshots, in both orders. -/
theorem Joined.comm {middle' : Roster} (h : Joined roster first middle)
    (h' : Joined middle second out) (g : Joined roster second middle')
    (g' : Joined middle' first out')
    (hdetermines : ∀ (id : String) (a b : Member), first.members[id]? = some a →
      second.members[id]? = some b → a.admission = b.admission → a.revision = b.revision → a = b) :
    out = out' := by
  have hremoved : ∀ id : String, out.removed[id]? = out'.removed[id]? := by
    intro id
    rw [h'.removed, h.removed, g'.removed, g.removed, joinRemoval_right_comm]
  have hissuer : out.issuer = out'.issuer := by rw [h'.issuer, h.issuer, g'.issuer, g.issuer]
  have hown : out.members[roster.issuer]? = out'.members[roster.issuer]? := by
    have hleft := h'.own
    have hright := g'.own
    rw [h.issuer, h.own] at hleft
    rw [g.issuer, g.own] at hright
    rw [hleft, hright]
  have hout' : out'.issuer = roster.issuer := g'.issuer.trans g.issuer
  have hactive : out.active = out'.active := by
    refine active_congr hissuer (hremoved _) ?_
    rw [hout']
    exact hown
  have hmembers : ∀ id : String, out.members[id]? = out'.members[id]? := by
    intro id
    by_cases hid : id = roster.issuer
    · rw [hid]
      exact hown
    · cases hnow : out.active with
      | false =>
        rw [h'.alone hnow id (by rw [h.issuer]; exact hid),
          g'.alone (hactive ▸ hnow) id (by rw [g.issuer]; exact hid)]
      | true =>
        rw [h.twice h' hnow hid, g.twice g' (hactive ▸ hnow) hid, hremoved id]
        refine best_right_comm rank fun a b ha hb hrank => ?_
        have hfirst := (Option.filter_eq_some_iff.1 ha).1
        have hsecond := (Option.filter_eq_some_iff.1 hb).1
        have hpair := Prod.ext_iff.1 (toLex.injective hrank)
        exact hdetermines id a b hfirst hsecond hpair.1 hpair.2
  exact roster_ext hissuer hmembers hremoved

/-- The same snapshot once more. -/
theorem Joined.again (h : Joined roster remote middle) (h' : Joined middle remote out) :
    out = middle := by
  have hremoved : ∀ id : String, out.removed[id]? = middle.removed[id]? := by
    intro id
    rw [h'.removed, h.removed, joinRemoval_self_right]
  have hactive : out.active = middle.active :=
    active_congr h'.issuer (hremoved _) h'.own
  refine roster_ext h'.issuer (fun id => ?_) hremoved
  by_cases hid : id = roster.issuer
  · rw [hid, ← h.issuer]
    exact h'.own
  · cases hnow : out.active with
    | false =>
      rw [h'.alone hnow id (by rw [h.issuer]; exact hid), h.alone (hactive ▸ hnow) id hid]
    | true =>
      rw [h.twice h' hnow hid, best_best_self, hremoved id, ← h.others (hactive ▸ hnow) id hid]

theorem sameKeys_refl (member : Member) : sameKeys member member = true := by
  simp [sameKeys]

theorem not_stale_iff :
    (removal.any fun removed => decide (member.admission ≤ removed)) = false ↔
      above removal member = true := by
  cases removal with
  | none | some => simp [above]

/-- An entry that has been merged stays as it is when it is merged again. -/
theorem mergeEntry_again {issuer : String} {old new : Option Member} (hid : id ≠ own)
    (h : mergeEntry own issuer removal id old member = .ok new) :
    mergeEntry own issuer removal id (new.filter (above removal)) member =
      .ok (new.filter (above removal)) := by
  have hself : ∀ stored : Member, sameKeys stored member = true → rank member ≤ rank stored →
      above removal member = true →
      mergeEntry own issuer removal id ((some stored).filter (above removal)) member =
        .ok ((some stored).filter (above removal)) := by
    intro stored hkeys hrank habove
    have hstored := above_mono removal stored member hrank habove
    have hle : toLex (member.admission, member.revision) ≤
        toLex (stored.admission, stored.revision) := hrank
    simp [mergeEntry, hid, Option.filter, hstored, not_stale_iff.2 habove, hkeys, hle]
  simp only [mergeEntry, if_neg hid] at h
  split at h
  · rename_i hstale
    simp [mergeEntry, hid, hstale]
  rename_i hnewer
  have habove : above removal member = true := not_stale_iff.1 (by simpa using hnewer)
  have htaken := hself member (sameKeys_refl member) le_rfl habove
  split at h
  · rw [← Except.ok.inj h]
    exact htaken
  rename_i stored
  split at h
  · split at h
    · simp at h
    · rw [← Except.ok.inj h]
      exact htaken
  rename_i hkeys
  split at h
  · rename_i hle
    rw [← Except.ok.inj h]
    exact hself stored (by simpa using hkeys) hle habove
  · rw [← Except.ok.inj h]
    exact htaken

theorem mergeMember_ok {issuer : String} {removed : Table Nat} {members : Table Member}
    {new : Option Member}
    (h : mergeEntry own issuer removed[id]? id members[id]? member = .ok new) :
    ∃ next, mergeMember own issuer removed members id member = .ok next := by
  unfold mergeEntry at h
  unfold mergeMember
  split at h
  · rename_i hown
    rw [if_pos hown]
    split at h
    · simp at h
    split at h
    · rename_i hmine hkeys
      simp [hmine, hkeys]
    · simp at h
  rename_i hown
  rw [if_neg hown]
  split at h
  · rename_i hstale
    exact ⟨members, by rw [if_pos hstale]⟩
  rename_i hstale
  rw [if_neg hstale]
  cases hstored : members[id]? with
  | none => exact ⟨_, rfl⟩
  | some stored =>
    rw [hstored] at h
    dsimp only at h ⊢
    split at h
    · rename_i hkeys
      rw [if_pos hkeys]
      split at h
      · simp at h
      · rename_i hgreater
        exact ⟨_, by rw [if_neg hgreater]⟩
    · rename_i hkeys
      rw [if_neg hkeys]
      split at h
      · rename_i hle
        exact ⟨_, by rw [if_pos hle]⟩
      · rename_i hle
        exact ⟨_, by rw [if_neg hle]⟩

theorem retainActive_idem (roster : Roster) :
    roster.retainActive.retainActive = roster.retainActive := by
  refine roster_ext (by simp) (fun id => ?_) (fun id => by simp)
  rw [retainActive_members roster.retainActive, retainActive_issuer, retainActive_active,
    retainActive_removed, retainActive_members]
  split
  · rfl
  split
  · rw [Option.filter_filter]
    simp
  · rfl

/-- A pass over a table that finds nothing to change. -/
theorem foldlM_still {β γ : Type} {f : Table β → String → γ → Except PeerStoreError (Table β)}
    {entries : Table γ} {table : Table β}
    (h : ∀ (id : String) (entry : γ), entries[id]? = some entry → f table id entry = .ok table) :
    entries.foldlM f table = .ok table := by
  rw [ExtTreeMap.foldlM_eq_foldlM_toList]
  obtain ⟨out, hout, rfl⟩ := foldlM_total (fun acc : Table β => acc = table) entries.toList
    (f := fun acc entry => f acc entry.1 entry.2) (fun acc entry hentry hacc => by
      subst hacc
      exact ⟨acc, h entry.1 entry.2 (ExtTreeMap.mem_toList_iff_getElem?_eq_some.1 hentry), rfl⟩) rfl
  exact hout

/-- While the device stays in the group, what has been merged is taken again. -/
theorem combine_again {issuer : Member} (h : @Accepted crypto group snapshot false issuer me out)
    (hactive : out.active = true) : out.combine snapshot.roster issuer false = .ok out := by
  have hjoined := accepted_joined h
  obtain ⟨raw, hraw, rfl⟩ := combine_cases h.combined
  have hremovals : snapshot.roster.removed.foldlM mergeRemoval raw.retainActive.removed =
      .ok raw.retainActive.removed := by
    refine foldlM_still fun id generation htheirs => ?_
    have hjoin := hjoined.removed id
    rw [htheirs] at hjoin
    have hsome : id ∈ raw.retainActive.removed := by
      cases hmine : group.roster.removed[id]? with
      | none | some mine =>
        rw [hmine] at hjoin
        exact mem_of_getElem? hjoin
    have hok : ∃ next, mergeRemoval raw.retainActive.removed id generation = .ok next := by
      unfold mergeRemoval
      rw [if_neg fun hfull => by
        have hnot := hfull.1
        rw [ExtTreeMap.mem_iff_contains.1 hsome] at hnot
        simp at hnot]
      exact ⟨_, rfl⟩
    obtain ⟨next, hnext⟩ := hok
    obtain ⟨hat, hothers⟩ := mergeRemoval_at hnext
    rw [hnext]
    refine congrArg Except.ok (ExtTreeMap.ext_getElem? fun other => ?_)
    by_cases hid : id = other
    · subst hid
      rw [hat, hjoin, joinRemoval_self_right]
    · exact hothers other hid
  have hentries : ∀ (id : String) (member : Member), snapshot.roster.members[id]? = some member →
      mergeEntry group.roster.issuer snapshot.roster.issuer raw.retainActive.removed[id]? id
        raw.retainActive.members[id]? member = .ok raw.retainActive.members[id]? := by
    intro id member hmember
    have hentry := hraw.taken id member hmember
    rw [retainActive_removed]
    by_cases hid : id = group.roster.issuer
    · subst hid
      rw [hjoined.own, hentry, combined_own hraw h.own h.modest, h.own]
    · rw [retainActive_members, hraw.issuer, if_neg hid,
        if_pos (by rw [← retainActive_active]; exact hactive)]
      exact mergeEntry_again hid hentry
  have hmembers : snapshot.roster.members.foldlM
      (mergeMember raw.retainActive.issuer snapshot.roster.issuer raw.retainActive.removed)
      raw.retainActive.members = .ok raw.retainActive.members := by
    refine foldlM_still fun id member hmember => ?_
    rw [retainActive_issuer, hraw.issuer]
    obtain ⟨next, hnext⟩ := mergeMember_ok (hentries id member hmember)
    obtain ⟨hat, hothers⟩ := mergeMember_at hnext
    rw [hnext]
    refine congrArg Except.ok (ExtTreeMap.ext_getElem? fun other => ?_)
    by_cases hid : id = other
    · subst hid
      exact (Except.ok.inj ((hentries id member hmember).symm.trans hat)).symm
    · exact hothers other hid
  unfold Roster.combine
  simp only [hremovals, hmembers, bind, Except.bind, Bool.false_eq_true, if_false, pure, Except.pure]
  exact congrArg Except.ok (retainActive_idem raw)

/-- The issuer of an accepted snapshot is above its removal on both sides. -/
theorem accepted_issuer_above {issuer : Member}
    (h : @Accepted crypto group snapshot false issuer me out) :
    above out.removed[snapshot.roster.issuer]? issuer = true := by
  have hincluded := h.included rfl
  simp only [Roster.excludes, Bool.or_eq_false_iff] at hincluded
  obtain ⟨⟨-, htheirs⟩, hmine⟩ := hincluded
  rw [(accepted_joined h).removed]
  have hleft := not_stale_iff.1 hmine
  have hright := not_stale_iff.1 htheirs
  cases hm : group.roster.removed[snapshot.roster.issuer]? with
  | none => exact hright
  | some mine =>
    rw [hm] at hleft
    cases ht : snapshot.roster.removed[snapshot.roster.issuer]? with
    | none => exact hleft
    | some theirs =>
      rw [ht] at hright
      simp only [above, Option.all_some, decide_eq_true_eq] at hleft hright
      simpa [above, joinRemoval] using ⟨hleft, hright⟩

/-- After the merge the issuer is a member under the keys of its snapshot. -/
theorem accepted_issuer {issuer : Member} (h : @Accepted crypto group snapshot false issuer me out)
    (hactive : out.active = true) :
    ∃ known, out.members[snapshot.roster.issuer]? = some known ∧ sameKeys known issuer = true ∧
      above out.removed[snapshot.roster.issuer]? known = true ∧
      (known = issuer ∨ group.roster.members[snapshot.roster.issuer]? = some known ∧
        issuer.admission ≤ known.admission) := by
  have habove := accepted_issuer_above h
  have hmember := (accepted_joined h).others hactive _ h.foreign
  rw [h.remoteIssuer] at hmember
  have hissuer : (some issuer).filter (above out.removed[snapshot.roster.issuer]?) = some issuer := by
    simp [Option.filter, habove]
  rw [hissuer] at hmember
  cases hold : group.roster.members[snapshot.roster.issuer]?.filter
      (above out.removed[snapshot.roster.issuer]?) with
  | none =>
    rw [hold] at hmember
    exact ⟨issuer, hmember, sameKeys_refl issuer, habove, Or.inl rfl⟩
  | some stored =>
    obtain ⟨hstored, hcounts⟩ := Option.filter_eq_some_iff.1 hold
    rw [hold] at hmember
    simp only [best] at hmember
    split at hmember
    · rename_i hrank
      exact ⟨stored, hmember, h.known stored hstored, hcounts,
        Or.inr ⟨hstored, admission_le_of_rank hrank⟩⟩
    · exact ⟨issuer, hmember, sameKeys_refl issuer, habove, Or.inl rfl⟩

theorem merge_again {issuer : Member} (h : @Accepted crypto group snapshot false issuer me out)
    (hactive : out.active = true) :
    ({ group with roster := out } : GroupState).merge crypto snapshot false =
      .ok ({ group with roster := out }, false) := by
  have hjoined := accepted_joined h
  obtain ⟨known, hknown, hkeys, habove, -⟩ := accepted_issuer h hactive
  have hown : out.members[out.issuer]? = some me := by
    rw [hjoined.issuer, hjoined.own]
    exact h.own
  have hisActive : out.isActive snapshot.roster.issuer = true := by
    refine isActive_iff.2 ⟨known, hknown, fun removed hremoved => ?_⟩
    rw [hremoved] at habove
    simpa [above] using habove
  have hincluded : out.excludes snapshot.roster issuer = false := by
    have hbefore := h.included rfl
    simp only [Roster.excludes, Bool.or_eq_false_iff] at hbefore ⊢
    refine ⟨⟨by simp [Roster.removedDevice, hisActive], hbefore.1.2⟩, ?_⟩
    exact not_stale_iff.2 (accepted_issuer_above h)
  have hmodest : out.oversteps snapshot.roster me = false := by
    have hbefore := h.modest
    simp only [Roster.oversteps, hjoined.issuer] at hbefore ⊢
    exact hbefore
  have hforeign : ¬ snapshot.roster.issuer = out.issuer := by
    rw [hjoined.issuer]
    exact h.foreign
  unfold GroupState.merge
  simp only [h.valid, h.remoteIssuer, bind, Except.bind, if_neg hforeign, hknown, Option.any_some,
    hkeys, Bool.not_true, Bool.false_eq_true, if_false, hincluded, Bool.not_false, Bool.and_false,
    hown, hmodest, combine_again h hactive, if_neg (Nat.not_lt.2 h.room), if_true, pure,
    Except.pure]

/-- A valid snapshot has every record under its own id. -/
theorem deviceId_of_valid (h : snapshot.validate crypto = .ok ())
    (hmember : snapshot.roster.members[id]? = some member) : member.deviceId = id := by
  have hwell := wellFormed_of_valid h
  simp only [Roster.wellFormed, Bool.and_eq_true, List.all_eq_true] at hwell
  have hentry := hwell.1.2 (id, member) (ExtTreeMap.mem_toList_iff_getElem?_eq_some.2 hmember)
  simp only [Member.valid, Bool.and_eq_true, decide_eq_true_eq] at hentry
  exact hentry.1.1.1.1.1.2.symm

theorem isActive_eq_any (roster : Roster) (id : String) :
    roster.isActive id = roster.members[id]?.any (above roster.removed[id]?) := rfl

/-- What counts of a roster is shown. -/
theorem shown_filter
    (h : ∀ member, above removal member = true → above roster.removed[id]? member = true) :
    roster.shown.members[id]?.filter (above removal) = roster.members[id]?.filter (above removal) := by
  unfold Roster.shown
  rw [ExtTreeMap.getElem?_filter']
  cases hmember : roster.members[id]? with
  | none => rfl
  | some member =>
    cases habove : above removal member with
    | false =>
      cases (decide (id = roster.issuer) || roster.isActive id) <;> simp [Option.filter, habove]
    | true =>
      have hactive : roster.isActive id = true := by
        rw [isActive_eq_any, hmember]
        exact h member habove
      simp [Option.filter, hactive, habove]

theorem Joined.isActive (h : Joined roster remote out) (hactive : out.active = true)
    (hid : id ≠ roster.issuer) :
    out.isActive id = ((roster.members[id]?.filter (above out.removed[id]?)).isSome ||
      (remote.members[id]?.filter (above out.removed[id]?)).isSome) := by
  rw [← best_isSome rank, ← h.others hactive id hid, isActive_eq_any]
  have hfiltered : (out.members[id]?).filter (above out.removed[id]?) = out.members[id]? := by
    rw [h.others hactive id hid, filter_best rank (above_mono _), Option.filter_filter,
      Option.filter_filter]
    simp
  cases hmember : out.members[id]? with
  | none => rfl
  | some member =>
    rw [hmember] at hfiltered
    exact (Option.filter_eq_some_iff.1 hfiltered).2

theorem shown_active (h : roster.isActive id = true) :
    roster.shown.members[id]? = roster.members[id]? := by
  unfold Roster.shown
  rw [ExtTreeMap.getElem?_filter']
  cases roster.members[id]? <;> simp [Option.filter, h]

/-- A member of the merged roster is one of the two rosters' and counts in it. -/
theorem Joined.origin (h : Joined roster remote out) (hactive : out.active = true)
    (hid : id ≠ roster.issuer) (hmember : out.members[id]? = some member) :
    above out.removed[id]? member = true ∧
      (roster.members[id]? = some member ∨ remote.members[id]? = some member) := by
  rw [h.others hactive id hid] at hmember
  rcases best_eq_some rank hmember with hold | hnew
  · exact ⟨(Option.filter_eq_some_iff.1 hold).2, Or.inl (Option.filter_eq_some_iff.1 hold).1⟩
  · exact ⟨(Option.filter_eq_some_iff.1 hnew).2, Or.inr (Option.filter_eq_some_iff.1 hnew).1⟩

def HoldsKey (crypto : Crypto) (group : GroupState) : Prop :=
  ∃ me, group.roster.members[group.roster.issuer]? = some me ∧
    me.exchangeKey = crypto.publicKey group.identity.exchange

/-- The credential a device derives for one of its members. -/
def credential (crypto : Crypto) (group : GroupState) (id : String) :
    Except PeerStoreError (String × Bytes) :=
  match group.roster.members[group.roster.issuer]?, group.roster.members[id]? with
  | some me, some member => derive crypto group.identity.exchange me member
  | _, _ => .error invalid

section Exchange

/-! Two groups, the snapshot of each of which the other accepts. -/

variable {left right : GroupState} {ofLeft ofRight : GroupSnapshot}
  {leftOwn rightOwn leftSeen rightSeen : Member} {outLeft outRight : Roster}

theorem seen_own (h : @Accepted crypto left ofRight false rightSeen leftOwn outLeft)
    (g : @Accepted crypto right ofLeft false leftSeen rightOwn outRight)
    (hright : ofRight.roster = right.roster.shown) : rightSeen = rightOwn := by
  have hseen := h.remoteIssuer
  rw [hright] at hseen
  have hown := (shown_own right.roster).symm.trans hseen
  rw [g.own] at hown
  exact (Option.some.inj hown).symm

theorem exchange_removed (h : Joined left.roster right.roster.shown outLeft)
    (g : Joined right.roster left.roster.shown outRight) (id : String) :
    outLeft.removed[id]? = outRight.removed[id]? := by
  rw [h.removed, g.removed]
  exact joinRemoval_comm _ _

/-- What each device is left with of a third one. -/
theorem exchange_third (h : Joined left.roster right.roster.shown outLeft)
    (g : Joined right.roster left.roster.shown outRight) (hleft : outLeft.active = true)
    (hright : outRight.active = true) {id : String} (hid : id ≠ left.roster.issuer)
    (hid' : id ≠ right.roster.issuer) : outLeft.isActive id = outRight.isActive id := by
  have hremoved := exchange_removed h g id
  rw [h.isActive hleft hid, g.isActive hright hid', ← hremoved]
  have hshown : right.roster.shown.members[id]?.filter (above outLeft.removed[id]?) =
      right.roster.members[id]?.filter (above outLeft.removed[id]?) := by
    refine shown_filter fun member habove => ?_
    rw [hremoved, g.removed] at habove
    exact above_of_join habove
  have hshown' : left.roster.shown.members[id]?.filter (above outLeft.removed[id]?) =
      left.roster.members[id]?.filter (above outLeft.removed[id]?) := by
    refine shown_filter fun member habove => ?_
    rw [h.removed] at habove
    exact above_of_join habove
  rw [hshown, hshown', Bool.or_comm]

theorem exchange_ids (h : @Accepted crypto left ofRight false rightSeen leftOwn outLeft)
    (g : @Accepted crypto right ofLeft false leftSeen rightOwn outRight)
    (hleft : ofLeft.roster = left.roster.shown) (hactive : outLeft.active = true) {id : String}
    {member : Member} (hmember : outLeft.members[id]? = some member) : member.deviceId = id := by
  have hjoined := accepted_joined h
  by_cases hid : id = left.roster.issuer
  · subst hid
    rw [hjoined.own, ← shown_own, ← hleft] at hmember
    exact deviceId_of_valid g.valid hmember
  · obtain ⟨habove, hmine | htheirs⟩ := hjoined.origin hactive hid hmember
    · -- a record that still counts is shown to the other device, which checked it
      have hcounts : left.roster.isActive id = true := by
        rw [isActive_eq_any, hmine]
        rw [hjoined.removed] at habove
        exact above_of_join habove
      rw [← shown_active hcounts, ← hleft] at hmine
      exact deviceId_of_valid g.valid hmine
    · exact deviceId_of_valid h.valid htheirs

/-- The record of the other device is under its keys and its admission. -/
theorem exchange_known (h : @Accepted crypto left ofRight false rightSeen leftOwn outLeft)
    (g : @Accepted crypto right ofLeft false leftSeen rightOwn outRight)
    (hleft : ofLeft.roster = left.roster.shown) (hright : ofRight.roster = right.roster.shown)
    (hactive : outLeft.active = true) :
    ∃ known, outLeft.members[right.roster.issuer]? = some known ∧
      above outLeft.removed[right.roster.issuer]? known = true ∧
      known.deviceId = right.roster.issuer ∧ known.exchangeKey = rightOwn.exchangeKey ∧
      known.admission = rightOwn.admission := by
  have hissuer : ofRight.roster.issuer = right.roster.issuer := by rw [hright]; rfl
  have hseen := seen_own h g hright
  obtain ⟨known, hknown, hkeys, habove, horigin⟩ := accepted_issuer h hactive
  rw [hissuer] at hknown habove horigin
  simp only [sameKeys, Bool.and_eq_true, decide_eq_true_eq] at hkeys
  refine ⟨known, hknown, habove, exchange_ids h g hleft hactive hknown, ?_, ?_⟩
  · rw [hkeys.2, hseen]
  · rcases horigin with rfl | ⟨hstored, hle⟩
    · rw [hseen]
    · -- the other device would not have taken a greater admission of itself
      have hcounts : left.roster.isActive right.roster.issuer = true := by
        rw [isActive_eq_any, hstored]
        rw [(accepted_joined h).removed] at habove
        exact above_of_join habove
      have hmodest := g.modest
      rw [← shown_active hcounts, ← hleft] at hstored
      simp only [Roster.oversteps, hstored, Option.any_some, Bool.or_eq_false_iff,
        decide_eq_false_iff_not, not_lt] at hmodest
      rw [hseen] at hle
      exact le_antisymm hmodest.1 hle

theorem exchange_isActive (h : @Accepted crypto left ofRight false rightSeen leftOwn outLeft)
    (g : @Accepted crypto right ofLeft false leftSeen rightOwn outRight)
    (hleft : ofLeft.roster = left.roster.shown) (hright : ofRight.roster = right.roster.shown)
    (hactive : outLeft.active = true) : outLeft.isActive right.roster.issuer = true := by
  obtain ⟨known, hknown, habove, -⟩ := exchange_known h g hleft hright hactive
  rw [isActive_eq_any, hknown]
  exact habove

/-- Each device derives the same credential for the other. -/
theorem exchange_credential (h : @Accepted crypto left ofRight false rightSeen leftOwn outLeft)
    (g : @Accepted crypto right ofLeft false leftSeen rightOwn outRight)
    (hleft : ofLeft.roster = left.roster.shown) (hright : ofRight.roster = right.roster.shown)
    (hactive : outLeft.active = true) (hactive' : outRight.active = true)
    (hsymm : ∀ a b, crypto.diffieHellman a (crypto.publicKey b) =
      crypto.diffieHellman b (crypto.publicKey a))
    (hkeys : HoldsKey crypto left) (hkeys' : HoldsKey crypto right) :
    credential crypto { left with roster := outLeft } right.roster.issuer =
      credential crypto { right with roster := outRight } left.roster.issuer := by
  obtain ⟨known, hknown, -, hid, hkey, hadmission⟩ := exchange_known h g hleft hright hactive
  obtain ⟨known', hknown', -, hid', hkey', hadmission'⟩ := exchange_known g h hright hleft hactive'
  have hown := (accepted_joined h).own.trans h.own
  have hown' := (accepted_joined g).own.trans g.own
  obtain ⟨me, hme, hheld⟩ := hkeys
  obtain ⟨me', hme', hheld'⟩ := hkeys'
  obtain rfl := Option.some.inj (hme.symm.trans h.own)
  obtain rfl := Option.some.inj (hme'.symm.trans g.own)
  have hnames : me.deviceId = left.roster.issuer := by
    refine exchange_ids h g hleft hactive ?_
    exact hown
  have hnames' : me'.deviceId = right.roster.issuer := by
    refine exchange_ids g h hright hactive' ?_
    exact hown'
  have hapart : left.roster.issuer ≠ right.roster.issuer := by
    intro heq
    apply h.foreign
    rw [hright, heq]
    rfl
  have hshared : crypto.diffieHellman left.identity.exchange known.exchangeKey =
      crypto.diffieHellman right.identity.exchange known'.exchangeKey := by
    rw [hkey, hkey', hheld, hheld', hsymm]
  unfold credential
  simp only [(accepted_joined h).issuer, (accepted_joined g).issuer, hown, hown', hknown, hknown']
  unfold derive
  rw [hshared]
  cases crypto.diffieHellman right.identity.exchange known'.exchangeKey with
  | none => rfl
  | some shared =>
    simp only [hid, hid', hkey, hkey', hadmission, hadmission', hnames, hnames']
    -- one of the two orders is the sorted one, on both devices
    rcases String.le_total left.roster.issuer right.roster.issuer with hle | hle
    · have hnot : ¬ right.roster.issuer ≤ left.roster.issuer := fun hge =>
        hapart (String.le_antisymm hle hge)
      rw [if_pos hle, if_neg hnot]
    · have hnot : ¬ left.roster.issuer ≤ right.roster.issuer := fun hge =>
        hapart (String.le_antisymm hge hle)
      rw [if_pos hle, if_neg hnot]

end Exchange

/-- Every other active member is among the peers. -/
theorem exists_peer {peers : List Peer} (h : group.peers crypto = .ok peers)
    (hactive : group.roster.active = true)
    (hids : ∀ (id : String) (member : Member), group.roster.members[id]? = some member →
      member.deviceId = id) (hid : id ≠ group.roster.issuer)
    (hmember : group.roster.isActive id = true) : ∃ peer ∈ peers, peer.deviceId = some id := by
  obtain ⟨member, hstored, -⟩ := isActive_iff.1 hmember
  unfold GroupState.peers at h
  rw [if_neg (by simp [hactive])] at h
  cases hme : group.roster.members[group.roster.issuer]? with
  | none => simp [hme] at h
  | some me =>
    simp only [hme] at h
    have hentry : (id, member) ∈ group.roster.members.toList.filter fun entry =>
        entry.2.deviceId ≠ me.deviceId && group.roster.isActive entry.2.deviceId := by
      refine List.mem_filter.2 ⟨ExtTreeMap.mem_toList_iff_getElem?_eq_some.2 hstored, ?_⟩
      simp [hids id member hstored, hids _ me hme, hid, hmember]
    obtain ⟨peer, hpeer, hderived⟩ := exists_result_of_mapM h hentry
    refine ⟨peer, hpeer, ?_⟩
    obtain ⟨pair, hpair, hderived⟩ := bind_ok_iff.1 hderived
    simp only [pure, Except.pure, Except.ok.injEq] at hderived
    rw [← hderived, hids id member hstored]

/-- A peer of a group has the credential derived for it. -/
theorem peer_credential {peers : List Peer} {peer : Peer} (h : group.peers crypto = .ok peers)
    (hids : ∀ (id : String) (member : Member), group.roster.members[id]? = some member →
      member.deviceId = id) (hpeer : peer ∈ peers) (hid : peer.deviceId = some id) :
    credential crypto group id = .ok (peer.pairingId, peer.psk) := by
  unfold GroupState.peers at h
  split at h
  · obtain rfl := Except.ok.inj h
    simp at hpeer
  split at h
  · simp at h
  rename_i me hme
  obtain ⟨⟨key, member⟩, hmem, hderived⟩ := exists_of_mem_mapM h hpeer
  have hstored := ExtTreeMap.mem_toList_iff_getElem?_eq_some.1 (List.mem_filter.1 hmem).1
  obtain ⟨pair, hpair, hderived⟩ := bind_ok_iff.1 hderived
  simp only [pure, Except.pure, Except.ok.injEq] at hderived
  rw [← hderived] at hid ⊢
  obtain rfl : key = id := by rw [← hids key member hstored]; exact Option.some.inj hid
  simp only [credential, hme, hstored, hpair]

/-- A merge joins, unless the snapshot is the device's own. -/
def Merges (roster remote out : Roster) : Prop :=
  remote.issuer = roster.issuer ∧ out = roster ∨
    remote.issuer ≠ roster.issuer ∧ Joined roster remote out

theorem Merges.issuer (h : Merges roster remote out) : out.issuer = roster.issuer := by
  rcases h with ⟨-, rfl⟩ | ⟨-, hjoined⟩
  · rfl
  · exact hjoined.issuer

theorem merge_merges {after : GroupState} {changed : Bool}
    (h : group.merge crypto snapshot false = .ok (after, changed)) :
    Merges group.roster snapshot.roster after.roster ∧ after.identity = group.identity ∧
      (changed = true ↔ after.roster ≠ group.roster) := by
  rcases merge_cases h with ⟨hown, rfl, rfl⟩ | ⟨issuer, me, out, haccepted, rfl, hchanged⟩
  · exact ⟨Or.inl ⟨hown, rfl⟩, rfl, by simp⟩
  · exact ⟨Or.inr ⟨haccepted.foreign, accepted_joined haccepted⟩, rfl,
      hchanged.trans ⟨Ne.symm, Ne.symm⟩⟩

theorem Merges.unique (h : Merges roster remote out) (h' : Merges roster remote out') :
    out = out' := by
  rcases h with ⟨hown, rfl⟩ | ⟨hforeign, hjoined⟩
  · rcases h' with ⟨-, rfl⟩ | ⟨hforeign, -⟩
    · rfl
    · exact absurd hown hforeign
  · rcases h' with ⟨hown, -⟩ | ⟨-, hjoined'⟩
    · exact absurd hown hforeign
    · exact hjoined.unique hjoined'

/-- Two snapshots in both orders, whoever issued them. -/
theorem Merges.comm {middle' : Roster} (h : Merges roster first middle)
    (h' : Merges middle second out) (g : Merges roster second middle')
    (g' : Merges middle' first out')
    (hdetermines : ∀ (id : String) (a b : Member), first.members[id]? = some a →
      second.members[id]? = some b → a.admission = b.admission → a.revision = b.revision → a = b) :
    out = out' := by
  have hmiddle := h.issuer
  have hmiddle' := g.issuer
  rcases h with ⟨hown, rfl⟩ | ⟨hforeign, hjoined⟩
  · -- the first snapshot is the device's own and does nothing in either place
    rcases g' with ⟨-, rfl⟩ | ⟨hforeign, -⟩
    · exact h'.unique g
    · rw [hmiddle'] at hforeign
      exact absurd hown hforeign
  rcases h' with ⟨hown', rfl⟩ | ⟨hforeign', hjoined'⟩
  · rcases g with ⟨-, rfl⟩ | ⟨hforeign', -⟩
    · exact (Merges.unique (Or.inr ⟨hforeign, hjoined⟩) g')
    · rw [hmiddle] at hown'
      exact absurd hown' hforeign'
  · rw [hmiddle] at hforeign'
    rcases g with ⟨hown', -⟩ | ⟨-, hjoins⟩
    · exact absurd hown' hforeign'
    · rcases g' with ⟨hown, -⟩ | ⟨-, hjoins'⟩
      · rw [hmiddle'] at hown
        exact absurd hown hforeign
      · exact hjoined.comm hjoined' hjoins hjoins' hdetermines

theorem Merges.again (h : Merges roster remote middle) (h' : Merges middle remote out) :
    out = middle := by
  have hmiddle := h.issuer
  rcases h' with ⟨-, rfl⟩ | ⟨hforeign, hjoined'⟩
  · rfl
  · rcases h with ⟨hown, rfl⟩ | ⟨-, hjoined⟩
    · exact absurd hown hforeign
    · exact hjoined.again hjoined'

/-- A snapshot merged twice: the second time nothing changes, and a device that is
still in the group accepts it. -/
theorem merge_twice {after : GroupState} {changed : Bool}
    (h : group.merge crypto snapshot false = .ok (after, changed)) :
    (∀ again, after.merge crypto snapshot false = .ok again → again = (after, false)) ∧
    (after.roster.active = true → after.merge crypto snapshot false = .ok (after, false)) := by
  constructor
  · rintro ⟨again, later⟩ hagain
    obtain ⟨hmerges, hidentity, -⟩ := merge_merges h
    obtain ⟨hmerges', hidentity', hlater⟩ := merge_merges hagain
    have hroster := hmerges.again hmerges'
    have hsame : later = false := by
      cases later with
      | false => rfl
      | true => exact absurd hroster (hlater.1 rfl)
    cases again
    cases after
    simp only at hroster hidentity'
    rw [hroster, hidentity', hsame]
  · intro hactive
    rcases merge_cases h with ⟨-, rfl, rfl⟩ | ⟨issuer, me, out, haccepted, rfl, -⟩
    · exact h
    · exact merge_again haccepted hactive

/-- Merging is a join. Two snapshots that agree on the records they both have end in one
roster in either order, and a second merge of one changes nothing. Two devices that
accept each other's snapshots and stay in the group have the same removals and the same
active members, and derive one credential for each other. -/
theorem merge_is_join (crypto : Crypto)
    (hsymm : ∀ a b, crypto.diffieHellman a (crypto.publicKey b) =
      crypto.diffieHellman b (crypto.publicKey a)) :
    (∀ (group : GroupState) (first second : GroupSnapshot) (one two one' two' : GroupState × Bool),
      (∀ (id : String) (a b : Member), first.roster.members[id]? = some a →
        second.roster.members[id]? = some b → a.admission = b.admission →
        a.revision = b.revision → a = b) →
      group.merge crypto first false = .ok one → one.1.merge crypto second false = .ok two →
      group.merge crypto second false = .ok one' → one'.1.merge crypto first false = .ok two' →
      two.1.roster = two'.1.roster) ∧
    (∀ (group after : GroupState) (snapshot : GroupSnapshot) (changed : Bool),
      group.merge crypto snapshot false = .ok (after, changed) →
      (∀ again, after.merge crypto snapshot false = .ok again → again = (after, false)) ∧
      (after.roster.active = true → after.merge crypto snapshot false = .ok (after, false))) ∧
    ∀ (left right left' right' : GroupState) (ofLeft ofRight : GroupSnapshot)
      (changed changed' : Bool),
      HoldsKey crypto left → HoldsKey crypto right → left.roster.issuer ≠ right.roster.issuer →
      left.snapshot crypto = .ok ofLeft → right.snapshot crypto = .ok ofRight →
      left.merge crypto ofRight false = .ok (left', changed) →
      right.merge crypto ofLeft false = .ok (right', changed') →
      left'.roster.active = true → right'.roster.active = true →
      left'.roster.removed = right'.roster.removed ∧
      (∀ id, left'.roster.isActive id = right'.roster.isActive id) ∧
      credential crypto left' right.roster.issuer = credential crypto right' left.roster.issuer ∧
      ∀ peers peers', left'.peers crypto = .ok peers → right'.peers crypto = .ok peers' →
        (∃ peer ∈ peers, peer.deviceId = some right.roster.issuer) ∧
        (∃ peer ∈ peers', peer.deviceId = some left.roster.issuer) ∧
        ∀ peer ∈ peers, ∀ peer' ∈ peers', peer.deviceId = some right.roster.issuer →
          peer'.deviceId = some left.roster.issuer →
          peer.pairingId = peer'.pairingId ∧ peer.psk = peer'.psk := by
  refine ⟨?_, fun group after snapshot changed h => merge_twice h, ?_⟩
  · intro group first second one two one' two' hdetermines hone htwo hone' htwo'
    exact (merge_merges hone).1.comm (merge_merges htwo).1 (merge_merges hone').1
      (merge_merges htwo').1 hdetermines
  · intro left right left' right' ofLeft ofRight changed changed' hkeys hkeys' hapart hofLeft hofRight
      hmerge hmerge' hactive hactive'
    have hleft := snapshot_roster hofLeft
    have hright := snapshot_roster hofRight
    rcases merge_cases hmerge with ⟨hown, -, -⟩ | ⟨seen, own, out, h, rfl, -⟩
    · rw [hright] at hown
      exact absurd hown.symm hapart
    rcases merge_cases hmerge' with ⟨hown, -, -⟩ | ⟨seen', own', out', g, rfl, -⟩
    · rw [hleft] at hown
      exact absurd hown hapart
    have hjoined := accepted_joined h
    have hjoined' := accepted_joined g
    have hidLeft := hjoined.issuer
    have hidRight := hjoined'.issuer
    have hactiveLeft := exchange_isActive h g hleft hright hactive
    have hactiveRight := exchange_isActive g h hright hleft hactive'
    rw [hright] at hjoined
    rw [hleft] at hjoined'
    have hcredential := exchange_credential h g hleft hright hactive hactive' hsymm hkeys hkeys'
    refine ⟨ExtTreeMap.ext_getElem? (exchange_removed hjoined hjoined'), fun id => ?_, hcredential,
      fun peers peers' hpeers hpeers' => ?_⟩
    · by_cases hid : id = left.roster.issuer
      · subst hid
        rw [hactiveRight, ← hidLeft]
        exact hactive
      · by_cases hid' : id = right.roster.issuer
        · subst hid'
          rw [hactiveLeft, ← hidRight]
          exact hactive'.symm
        · exact exchange_third hjoined hjoined' hactive hactive' hid hid'
    · have hids := fun id member => @exchange_ids _ _ _ _ _ _ _ _ _ _ _ h g hleft hactive id member
      have hids' := fun id member => @exchange_ids _ _ _ _ _ _ _ _ _ _ _ g h hright hactive' id member
      refine ⟨?_, ?_, fun peer hpeer peer' hpeer' hid hid' => ?_⟩
      · apply exists_peer hpeers hactive hids _ hactiveLeft
        rw [hidLeft]
        exact hapart.symm
      · apply exists_peer hpeers' hactive' hids' _ hactiveRight
        rw [hidRight]
        exact hapart
      · have hmine := peer_credential hpeers hids hpeer hid
        have htheirs := peer_credential hpeers' hids' hpeer' hid'
        have hpair := Except.ok.inj (hmine.symm.trans (hcredential.trans htheirs))
        exact ⟨congrArg Prod.fst hpair, congrArg Prod.snd hpair⟩

def memberOf (id : String) (key : Bytes) (revision : Nat) : Member :=
  ⟨id, id, key, key, 0, revision, {}, none⟩

/-- A group under keys in the open that knows one device at some revision. -/
def groupOf (id : String) (key : Bytes) (known : String) (revision : Nat) : GroupState :=
  ⟨⟨key, key⟩, ⟨id, ((∅ : Table Member).insert id (memberOf id key 0)).insert known
    (memberOf known [9] revision), (∅ : Table Nat).insert "old" 3⟩⟩

def snapshotOf (group : GroupState) : GroupSnapshot :=
  ⟨group.roster.shown, openCrypto.sign group.identity.signing
    (openCrypto.rosterText group.roster.shown)⟩

def mergedInto (group : GroupState) (snapshot : GroupSnapshot) : GroupState :=
  step openCrypto group (.merge snapshot)

/-- Three devices, each of which knows a fourth one, the last of them at a later
revision. -/
def deviceA : GroupState := groupOf "a" [1] "d" 0
def deviceB : GroupState := groupOf "b" [2] "d" 0
def deviceC : GroupState := groupOf "c" [3] "d" 1

theorem merge_is_join_three :
    (mergedInto (mergedInto deviceA (snapshotOf deviceB)) (snapshotOf deviceC)).roster =
      (mergedInto (mergedInto deviceA (snapshotOf deviceC)) (snapshotOf deviceB)).roster ∧
    (mergedInto deviceA (snapshotOf deviceB)).merge openCrypto (snapshotOf deviceB) false =
      .ok (mergedInto deviceA (snapshotOf deviceB), false) ∧
    credential openCrypto (mergedInto deviceB (snapshotOf deviceC)) "c" =
      credential openCrypto (mergedInto deviceC (snapshotOf deviceB)) "b" := by
  have hsymm : ∀ a b, openCrypto.diffieHellman a (openCrypto.publicKey b) =
      openCrypto.diffieHellman b (openCrypto.publicKey a) := by
    intro a b
    exact congrArg some (List.zipWith_comm_of_comm (fun x y => UInt8.add_comm x y))
  have hrecords : ∀ x ∈ (snapshotOf deviceB).roster.members.toList,
      ∀ y ∈ (snapshotOf deviceC).roster.members.toList, x.1 = y.1 →
        x.2.admission = y.2.admission → x.2.revision = y.2.revision → x.2 = y.2 := by
    decide +kernel
  obtain ⟨horder, htwice, hexchange⟩ := merge_is_join openCrypto hsymm
  refine ⟨?_, ?_, ?_⟩
  · refine horder deviceA (snapshotOf deviceB) (snapshotOf deviceC)
      (mergedInto deviceA (snapshotOf deviceB), true)
      (mergedInto (mergedInto deviceA (snapshotOf deviceB)) (snapshotOf deviceC), true)
      (mergedInto deviceA (snapshotOf deviceC), true)
      (mergedInto (mergedInto deviceA (snapshotOf deviceC)) (snapshotOf deviceB), true) ?_
      (by decide +kernel) (by decide +kernel) (by decide +kernel) (by decide +kernel)
    intro id a b ha hb
    exact hrecords (id, a) (ExtTreeMap.mem_toList_iff_getElem?_eq_some.2 ha) (id, b)
      (ExtTreeMap.mem_toList_iff_getElem?_eq_some.2 hb) rfl
  · exact (htwice deviceA (mergedInto deviceA (snapshotOf deviceB)) (snapshotOf deviceB) true
      (by decide +kernel)).2 (by decide +kernel)
  · refine (hexchange deviceB deviceC (mergedInto deviceB (snapshotOf deviceC))
      (mergedInto deviceC (snapshotOf deviceB)) (snapshotOf deviceB) (snapshotOf deviceC) true true
      ⟨memberOf "b" [2] 0, by decide, rfl⟩ ⟨memberOf "c" [3] 0, by decide, rfl⟩
      (by decide) (by decide +kernel) (by decide +kernel) (by decide +kernel)
      (by decide +kernel) (by decide +kernel) (by decide +kernel)).2.2.1

end CopyPaste.Peers.Join
