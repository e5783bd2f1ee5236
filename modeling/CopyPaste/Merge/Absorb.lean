import CopyPaste.Merge.Independence
import CopyPaste.Merge.PeerSerial

/-!
A page of peer versions over distinct ids, none with a choice about secrecy or an index
key that another id holds. What it leaves under an id is the greatest of what was held
and what the page brings, and a version that keeps its content keeps its pin state or
takes a newer one.
-/

namespace CopyPaste.Merge.Absorb

open Lib.Rows Comparator Payload Storage Prepare Batch Effects Pages Repin Decide PeerPage
  PeerSerial Independence Upload.Scanning

/-- The merge keys of what a store holds under an id, and then its pin stamp. -/
def standing (host : Host) (store : Store) (id : String) : WithBot (VersionKey ×ₗ Int) :=
  match store.versionSummary id with
  | some version =>
    (toLex (Version.key host version, version.pinUpdatedAt) : VersionKey ×ₗ Int)
  | none => ⊥

/-- Nothing a store holds has sunk. -/
def Risen (host : Host) (before after : Store) : Prop :=
  ∀ id, standing host before id ≤ standing host after id

variable {host : Host}

theorem Risen.trans {first second third : Store} (h : Risen host first second)
    (h' : Risen host second third) : Risen host first third := fun id => (h id).trans (h' id)

variable {id : String} {store : Store}

theorem standing_le_of_rank_lt {before after : Store}
    (h : rank host before id < rank host after id) :
    standing host before id ≤ standing host after id := by
  unfold rank at h
  unfold standing
  cases hafter : after.versionSummary id with
  | none => simp [hafter] at h
  | some version =>
    cases hbefore : before.versionSummary id with
    | none => exact bot_le
    | some old =>
      simp only [hafter, hbefore, WithBot.coe_lt_coe] at h
      exact WithBot.coe_le_coe.2 (Prod.Lex.toLex_le_toLex.2 (Or.inl h))

/-- Writing a version above what its id holds sinks nothing. -/
theorem risen_upsert (hwf : WellFormed store) {incoming : IncomingItem}
    (hstored : (store.upsert host incoming).2 = true)
    (hrank : rank host store incoming.id < rank host (store.upsert host incoming).1 incoming.id) :
    Risen host store (store.upsert host incoming).1 := by
  intro id
  by_cases hid : incoming.id = id
  · subst hid
    exact standing_le_of_rank_lt hrank
  · by_cases hclip : PinsClip host incoming id
    · obtain ⟨pin, -, -, -, hsummary⟩ := versionSummary_pinned host hwf hclip hstored
      unfold standing
      rw [hsummary]
      cases store.versionSummary id with
      | none => exact le_rfl
      | some version =>
        simp only [Option.map_some]
        split
        · rename_i hnewer
          exact WithBot.coe_le_coe.2 (Prod.Lex.toLex_le_toLex.2 (Or.inr ⟨rfl, hnewer.2⟩))
        · exact le_rfl
    · unfold standing
      rw [versionSummary_upsert_ne host hwf hid hclip]

/-- A pin change on the rows of an id leaves every content. -/
theorem rank_mapItems {store : Store} (hwf : WellFormed store) {id : String}
    {f : ItemRow → ItemRow} (hf : Repins id f) (other : String) :
    rank host (mapItems store f) other = rank host store other := by
  unfold rank
  by_cases hne : other = id
  · subst hne
    rcases versionSummary_mapItems hwf hf with heq | ⟨row, hbefore, hafter⟩
    · rw [heq]
    · rw [hbefore, hafter]
      have hkey : ∀ row : ItemRow,
          Version.key host row.toVersion = Version.key host (unpinned row).toVersion :=
        fun _ => rfl
      dsimp only
      rw [hkey (f row), hf.content, ← hkey]
  · rw [versionSummary_mapItems_ne hwf hf hne]

theorem rank_pinAlone (hwf : WellFormed store) (id : String) (pin : P2pPin) (other : String) :
    rank host (pinAlone store id pin).1 other = rank host store other := by
  by_cases hblocked : Blocked store id pin
  · rw [pinAlone_blocked hblocked]
  · rw [(pinAlone_open hblocked).1]
    exact rank_mapItems hwf (repins_setPin id pin) other

/-- A pin state at or above the one held sinks nothing. -/
theorem risen_pinAlone (hwf : WellFormed store) {pin : P2pPin}
    (hnewer : ∀ version ∈ store.versionSummary id, version.pinUpdatedAt ≤ pin.pinUpdatedAt) :
    Risen host store (pinAlone store id pin).1 := by
  intro other
  by_cases hne : other = id
  · subst hne
    by_cases hblocked : Blocked store other pin
    · rw [pinAlone_blocked hblocked]
    · have hrank := @rank_mapItems host store hwf other _ (repins_setPin other pin) other
      rw [(pinAlone_open hblocked).1]
      unfold standing
      unfold rank at hrank
      rcases versionSummary_mapItems hwf (repins_setPin other pin) with heq | ⟨row, hold, hnew⟩
      · rw [heq]
      · rw [hold, hnew] at hrank ⊢
        refine WithBot.coe_le_coe.2 (Prod.Lex.toLex_le_toLex.2 (Or.inr ⟨?_, ?_⟩))
        · exact (WithBot.coe_inj.1 hrank).symm
        · have hle := hnewer row.toVersion hold
          unfold setPin
          split
          · exact hle
          · exact le_rfl
  · unfold standing
    rw [versionSummary_pinAlone_ne hwf pin hne]

/-- The snapshot ranks an id it answers for as the store does. -/
theorem heldRank_foretold {held : List Version} {store : Store} {id : String}
    (h : Foretold held store id) : heldRank host held id = rank host store id := by
  unfold heldRank rank
  rcases h with heq | ⟨version, known, hheld, -, -, -, heq⟩
  · cases hheld : lookup Version.id held id with
    | none | some row => simp only [heq, hheld]
  · have hkey : Version.key host (pinnedBy version known) = Version.key host version := rfl
    simp only [hheld, heq, hkey]

/-- An item loses to what the snapshot holds, or it is written above it. -/
theorem decisionOf_admissible {item : RemoteVersion} (hadm : Admissible host item) (pin : P2pPin)
    (held : List Version) :
    ((RemoteVersion.key host item : WithBot VersionKey) ≤ heldRank host held item.itemId ∧
      decisionOf host held (item, some pin) =
        .lost (remotePinWins host item pin (lookup Version.id held item.itemId))) ∨
    (heldRank host held item.itemId < (RemoteVersion.key host item : WithBot VersionKey) ∧
      decisionOf host held (item, some pin) = .won (prepared host item
        (some (pin.against host item (lookup Version.id held item.itemId)))
        (lookup Version.id held item.itemId))) := by
  have hloses : losesTo host (lookup Version.id held item.itemId) item =
      keepsLocal host item none (lookup Version.id held item.itemId) := by
    unfold losesTo
    rw [hadm.wire]
    rfl
  unfold decisionOf decisionAgainst
  rw [hadm.payload, hloses]
  by_cases hkeeps : keepsLocal host item none (lookup Version.id held item.itemId) = true
  · left
    refine ⟨(keepsLocal_iff hadm held).1 hkeeps, ?_⟩
    rw [hkeeps]
    rfl
  · right
    refine ⟨not_le.1 fun hle => hkeeps ((keepsLocal_iff hadm held).2 hle), ?_⟩
    rw [Bool.not_eq_true] at hkeeps
    rw [hkeeps]
    rfl

/-- What merging a page of distinct ids leaves. -/
structure Absorbed (host : Host) (start : Store) (versions page : List RemoteVersion)
    (before after : Store) : Prop where
  delivering : Delivering host start versions after
  pins : PinsRecorded host after
  risen : Risen host before after
  ranks : ∀ id, rank host after id = max (rank host before id) (best host page id)

section Page

variable {start : Store} {versions : List RemoteVersion}

variable {store : Store} {held : List Version} {page : List (RemoteVersion × P2pPin)}

theorem absorbed_nil (h : Delivering host start versions store) (hpins : PinsRecorded host store) :
    Absorbed host start versions [] store store :=
  ⟨h, hpins, fun _ => le_rfl, fun id => by simp [best]⟩

theorem Absorbed.trans {first second third : Store} {page rest : List RemoteVersion}
    (h : Absorbed host start versions page first second)
    (h' : Absorbed host start versions rest second third) :
    Absorbed host start versions (page ++ rest) first third := by
  refine ⟨h'.delivering, h'.pins, h.risen.trans h'.risen, fun id => ?_⟩
  rw [h'.ranks, h.ranks, best_append, max_assoc]

/-- What is left to a page once its writes are made: the snapshot still answers for the
items that lost, and each was decided against it. -/
structure Undecided (host : Host) (held : List Version) (page : List (RemoteVersion × P2pPin))
    (store : Store) (entries : List Entry) : Prop where
  decided : ∀ entry ∈ entries, entry.decision = decisionOf host held entry.incoming
  lost : ∀ entry ∈ entries, ∀ wins, entry.decision = .lost wins →
    Foretold held store entry.incoming.1.itemId
  paged : entries.map Entry.incoming = lifted page

variable (hrender : RendersChoices host) (hclear : CollisionFree host start versions)
  (hadm : ∀ version ∈ versions, Admissible host version)

include hrender hclear hadm in
theorem writeAll_absorbed (hpage : ∀ row ∈ page, row.1 ∈ versions)
    (h : Delivering host start versions store) (hcarried : Carried host held store page) :
    Absorbed host start versions (page.map Prod.fst) store
      (writeAll host store (planned host held (lifted page))).1 ∧
    (∀ id, Foretold held store id → (∀ row ∈ page, row.1.itemId ≠ id) →
      Foretold held (writeAll host store (planned host held (lifted page))).1 id) ∧
    Undecided host held page (writeAll host store (planned host held (lifted page))).1
      (writeAll host store (planned host held (lifted page))).2 := by
  induction page generalizing store with
  | nil =>
    refine ⟨absorbed_nil h hcarried.pins, fun id hid _ => hid, ?_⟩
    exact ⟨fun entry hentry => absurd hentry List.not_mem_nil,
      fun entry hentry => absurd hentry List.not_mem_nil, rfl⟩
  | cons row rest ih =>
    obtain ⟨item, pin⟩ := row
    have hitem := hadm item (hpage _ List.mem_cons_self)
    have hrest : ∀ row ∈ rest, row.1 ∈ versions := fun row hrow =>
      hpage row (List.mem_cons_of_mem _ hrow)
    have hforetold : Foretold held store item.itemId := hcarried.foretold _ List.mem_cons_self
    have hranks := @heldRank_foretold host _ _ _ hforetold
    rcases decisionOf_admissible hitem pin held with ⟨hle, hdecision⟩ | ⟨hlt, hdecision⟩
    · have hrows : writeAll host store (planned host held (lifted ((item, pin) :: rest))) =
          ((writeAll host store (planned host held (lifted rest))).1,
            ⟨(item, some pin), .lost (remotePinWins host item pin
              (lookup Version.id held item.itemId)), none⟩ ::
              (writeAll host store (planned host held (lifted rest))).2) := by
        unfold lifted planned
        simp only [List.map_cons, hdecision]
        rfl
      obtain ⟨habsorbed, hkeeps, hundecided⟩ := ih hrest h hcarried.tail
      rw [hrows]
      refine ⟨⟨habsorbed.delivering, habsorbed.pins, habsorbed.risen, fun id => ?_⟩,
        fun id hid hne => hkeeps id hid fun row hrow => hne row (List.mem_cons_of_mem _ hrow), ?_⟩
      · rw [habsorbed.ranks, List.map_cons, best_cons]
        split
        · rename_i hid
          subst hid
          rw [hranks] at hle
          rw [← max_assoc, max_eq_left hle]
        · rfl
      · refine ⟨fun entry hentry => ?_, fun entry hentry wins hlost => ?_, ?_⟩
        · rcases List.mem_cons.1 hentry with rfl | hmem
          · exact hdecision.symm
          · exact hundecided.decided entry hmem
        · rcases List.mem_cons.1 hentry with rfl | hmem
          · exact hkeeps _ hforetold fun row hrow => hcarried.ne hrow
          · exact hundecided.lost entry hmem wins hlost
        · rw [List.map_cons, hundecided.paged]
          rfl
    · obtain ⟨ready, hready⟩ : ∃ ready, ready = prepared host item
          (some (pin.against host item (lookup Version.id held item.itemId)))
          (lookup Version.id held item.itemId) := ⟨_, rfl⟩
      obtain ⟨hstored, hafter, hrankAfter⟩ := delivering_upsert hrender hclear h
        (hpage _ List.mem_cons_self) hitem
        (some (pin.against host item (lookup Version.id held item.itemId)))
        (lookup Version.id held item.itemId)
      rw [← hready] at hdecision hstored hafter hrankAfter
      have hid : ready.id = item.itemId := by rw [hready]; rfl
      have hnewest : Newest store ready.toIncomingItem := by
        refine (hcarried.writes.newest (item, some pin) ready ?_).2
        exact List.mem_map.2 ⟨(item, some pin), List.mem_cons_self, by rw [hdecision]⟩
      have hrows : writeAll host store (planned host held (lifted ((item, pin) :: rest))) =
          ((writeAll host (store.upsert host ready.toIncomingItem).1
            (planned host held (lifted rest))).1,
            ⟨(item, some pin), .won ready, some (store.upsert host ready.toIncomingItem).2⟩ ::
              (writeAll host (store.upsert host ready.toIncomingItem).1
                (planned host held (lifted rest))).2) := by
        unfold lifted planned
        simp only [List.map_cons, hdecision]
        rfl
      have hrisen : Risen host store (store.upsert host ready.toIncomingItem).1 := by
        apply risen_upsert h.wellFormed hstored
        rw [hrankAfter, show ready.toIncomingItem.id = item.itemId from hid, if_pos rfl, ← hranks]
        exact hlt
      obtain ⟨habsorbed, hkeeps, hundecided⟩ := ih hrest hafter (hcarried.upsert hid hnewest)
      rw [hrows]
      refine ⟨⟨habsorbed.delivering, habsorbed.pins, hrisen.trans habsorbed.risen, fun id => ?_⟩,
        fun other hother hne => ?_, ?_⟩
      · rw [habsorbed.ranks, hrankAfter, List.map_cons, best_cons]
        split
        · rename_i hsame
          subst hsame
          rw [hranks] at hlt
          rw [← max_assoc, max_eq_right hlt.le]
        · rfl
      · apply hkeeps other
        · refine hother.upsert host h.wellFormed hcarried.pins hnewest fun heq => ?_
          exact hne _ List.mem_cons_self (hid.symm.trans heq)
        · exact fun row hrow => hne row (List.mem_cons_of_mem _ hrow)
      · refine ⟨fun entry hentry => ?_, fun entry hentry wins hlost => ?_, ?_⟩
        · rcases List.mem_cons.1 hentry with rfl | hmem
          · exact hdecision.symm
          · exact hundecided.decided entry hmem
        · rcases List.mem_cons.1 hentry with rfl | hmem
          · exact absurd hlost (by simp)
          · exact hundecided.lost entry hmem wins hlost
        · rw [List.map_cons, hundecided.paged]
          rfl

theorem delivering_pinAlone (h : Delivering host start versions store) (id : String)
    (pin : P2pPin) : Delivering host start versions (pinAlone store id pin).1 := by
  refine ⟨wellFormed_pinAlone h.wellFormed id pin, fun row hrow => ?_, fun row hrow => ?_⟩
  all_goals
    by_cases hblocked : Blocked store id pin
    · rw [pinAlone_blocked hblocked] at hrow
      first | exact h.choiceless row hrow | exact h.prints row hrow
    · rw [(pinAlone_open hblocked).1] at hrow
      obtain ⟨before, hbefore, rfl⟩ := List.mem_map.1 hrow
      have hrepins := repins_setPin id pin
      first
        | rw [hrepins.payloadMetadata]
          exact h.choiceless before hbefore
        | rw [hrepins.rowId, hrepins.dedupKey]
          exact h.prints before hbefore

/-- A pin state that wins where its content lost, stored alone. -/
theorem pinAlone_absorbed {item : RemoteVersion} {pin : P2pPin}
    (h : Delivering host start versions store) (hpins : PinsRecorded host store)
    (hforetold : Foretold held store item.itemId)
    (hwins : remotePinWins host item pin (lookup Version.id held item.itemId) = true) :
    Absorbed host start versions [] store (pinAlone store item.itemId pin).1 := by
  refine ⟨delivering_pinAlone h _ _, hpins.pinAlone _ _, ?_, fun id => ?_⟩
  · rcases remotePinWins_foretold host hforetold pin with hblocked | hsame
    · rw [pinAlone_blocked hblocked]
      exact fun _ => le_rfl
    · apply risen_pinAlone h.wellFormed
      intro version hversion
      rw [hsame, Option.mem_def.1 hversion] at hwins
      unfold remotePinWins at hwins
      rw [Option.all_some, Bool.and_eq_true, pinStateWins_iff] at hwins
      have hlt := hwins.2
      unfold ItemSummary.pinKey Comparator.pinKey at hlt
      rcases Prod.Lex.toLex_lt_toLex.1 hlt with hstamp | ⟨hstamp, -⟩
      · exact hstamp.le
      · exact hstamp.le
  · rw [rank_pinAlone h.wellFormed]
    simp [best]

theorem pinPass_absorbed {entries : List Entry} (h : Delivering host start versions store)
    (hpins : PinsRecorded host store) (hnodup : (page.map fun row => row.1.itemId).Nodup)
    (hpage : ∀ row ∈ page, Admissible host row.1)
    (hundecided : Undecided host held page store entries) :
    Absorbed host start versions [] store (pinPass store entries).1 := by
  induction entries generalizing store page with
  | nil => exact absorbed_nil h hpins
  | cons entry rest ih =>
    obtain ⟨row, later, rfl⟩ : ∃ row later, page = row :: later := by
      cases page with
      | nil => exact absurd hundecided.paged (by simp [lifted])
      | cons row later => exact ⟨row, later, rfl⟩
    have hpaged := hundecided.paged
    unfold lifted at hpaged
    rw [List.map_cons, List.map_cons] at hpaged
    obtain ⟨hincoming, hlater⟩ := List.cons.inj hpaged
    rw [List.map_cons, List.nodup_cons] at hnodup
    have hlaterPage : ∀ row ∈ later, Admissible host row.1 := fun row hrow =>
      hpage row (List.mem_cons_of_mem _ hrow)
    have hne : ∀ other ∈ rest, other.incoming.1.itemId ≠ row.1.itemId := by
      intro other hother heq
      have hmem : other.incoming ∈ rest.map Entry.incoming := List.mem_map_of_mem hother
      rw [hlater] at hmem
      obtain ⟨source, hsource, hsame⟩ := List.mem_map.1 hmem
      refine hnodup.1 (List.mem_map.2 ⟨source, hsource, ?_⟩)
      rw [← heq, ← hsame]
    have hrest : Undecided host held later store rest :=
      ⟨fun other hother => hundecided.decided other (List.mem_cons_of_mem _ hother),
        fun other hother => hundecided.lost other (List.mem_cons_of_mem _ hother), hlater⟩
    have hdecision := hundecided.decided entry List.mem_cons_self
    rw [hincoming] at hdecision
    have hskip : entry.decision ≠ .lost true →
        (pinPass store (entry :: rest)).1 = (pinPass store rest).1 := by
      intro hdiffer
      conv_lhs => unfold pinPass
      split
      · rename_i hsame _
        exact absurd hsame hdiffer
      · rfl
    rcases decisionOf_admissible (hpage row List.mem_cons_self) row.2 held with
      ⟨-, hlost⟩ | ⟨-, hwon⟩
    · rw [hlost] at hdecision
      cases hwins : remotePinWins host row.1 row.2 (lookup Version.id held row.1.itemId) with
      | false =>
        rw [hskip (by rw [hdecision, hwins]; simp)]
        exact ih h hpins hnodup.2 hlaterPage hrest
      | true =>
        have hforetold := hundecided.lost entry List.mem_cons_self _ hdecision
        rw [hincoming] at hforetold
        have halone := pinAlone_absorbed h hpins hforetold hwins
        have hpass : (pinPass store (entry :: rest)).1 =
            (pinPass (pinAlone store row.1.itemId row.2).1 rest).1 := by
          conv_lhs => unfold pinPass
          rw [hdecision, hincoming, hwins]
          rfl
        rw [hpass]
        refine halone.trans (ih halone.delivering halone.pins hnodup.2 hlaterPage
          ⟨hrest.decided, fun other hother wins hotherLost => ?_, hlater⟩)
        exact (hrest.lost other hother wins hotherLost).pinAlone h.wellFormed row.2
          (hne other hother)
    · rw [hwon] at hdecision
      rw [hskip (by rw [hdecision]; simp)]
      exact ih h hpins hnodup.2 hlaterPage hrest

include hrender hclear hadm in
/-- A page of distinct ids through the merge of a peer session. -/
theorem applyRemoteP2pVersions_absorbed {after : Store} {outcomes : List P2pApply}
    (hpage : ∀ row ∈ page, row.1 ∈ versions) (hnodup : (page.map fun row => row.1.itemId).Nodup)
    (h : Delivering host start versions store) (hpins : PinsRecorded host store)
    (hok : applyRemoteP2pVersions host store page = .ok (after, outcomes)) :
    Absorbed host start versions (page.map Prod.fst) store after := by
  have hsize : ∀ row ∈ page, WithinLimit row.1 := fun row hrow => (hadm _ (hpage row hrow)).size
  rw [applyRemoteP2pVersions_eq host store page hnodup hsize] at hok
  obtain ⟨rfl, -⟩ := Prod.mk.inj (Except.ok.inj hok)
  have hcarried : Carried host
      (store.versionSummaries (page.map fun row => row.1.itemId)) store page := by
    refine ⟨h.wellFormed, hpins, fun row hrow => Or.inl ?_, hnodup⟩
    have hid : row.1.itemId ∈ page.map fun row => row.1.itemId :=
      List.mem_map.2 ⟨row, hrow, rfl⟩
    exact (lookup_versionSummaries h.wellFormed _ hid).symm
  obtain ⟨hwritten, -, hundecided⟩ := writeAll_absorbed hrender hclear hadm hpage h hcarried
  have hpinned := pinPass_absorbed hwritten.delivering hwritten.pins hnodup
    (fun row hrow => hadm _ (hpage row hrow)) hundecided
  have htrans := hwritten.trans hpinned
  rw [List.append_nil] at htrans
  exact htrans

end Page

end CopyPaste.Merge.Absorb
