import Mathlib.Data.Finset.Card
import CopyPaste.Peer.Reading
import CopyPaste.Peer.StoreSource

/-!
A backlog longer than one request. A device meets a peer that does not change, in either
role, and asks each time for the newest of what it wants. What it leaves or gets nothing
for stays above its cursor, so that the peer shows it again; it is reached once the
versions asked for before no longer fill a request.
-/

namespace CopyPaste.Peer.Backlog

open Lib.Keyset Lib.Rows Merge.Comparator Merge.Payload Cursor Plan Transfer Session Advertise
  Watermark Delivery Reading

variable {S : Type}

/-- Where the reading device stands: its store, and how far it has read the peer. -/
structure Standing (S : Type) where
  store : S
  sinceMs : Int

/-- The circumstances of one session: which half the device takes, its clock, its relay
floor for the peer, and the peer's clock and cursor. -/
structure Visit where
  initiator : Bool
  now : Int
  relayFloorMs : Option Int
  peerNow : Int
  peerCursor : SyncCursor
  arrange : List ItemSummary → List ItemSummary
  peerArrange : List ItemSummary → List ItemSummary
  perm : ∀ rows, (arrange rows).Perm rows
  peerPerm : ∀ rows, (peerArrange rows).Perm rows

variable (host : Host) (mine theirs : History S) (shelf : S)

def Visit.reader (v : Visit) (standing : Standing S) : Party S where
  source := mine.toSyncSource
  store := standing.store
  cursor := ⟨standing.sinceMs, v.relayFloorMs⟩
  now := v.now
  arrange := v.arrange

def Visit.peer (v : Visit) : Party S where
  source := theirs.toSyncSource
  store := shelf
  cursor := v.peerCursor
  now := v.peerNow
  arrange := v.peerArrange

/-- One session, as the side of the reading device and the side of the peer. -/
def visit (v : Visit) (standing : Standing S) : Except SyncError (Side S × Side S) :=
  if v.initiator then session host (v.reader mine standing) (v.peer theirs shelf)
  else (session host (v.peer theirs shelf) (v.reader mine standing)).map Prod.swap

/-- A completed session: where the device stood and what it came to. -/
structure Entry (S : Type) where
  visit : Visit
  before : Standing S
  side : Side S

def Entry.after (entry : Entry S) : Standing S :=
  ⟨entry.side.store, max entry.side.sinceMs 0⟩

/-- Completed sessions one after the other, none of which changes the peer. -/
inductive Visits : Standing S → List (Entry S) → Prop
  | rest (standing : Standing S) : Visits standing []
  | next {entry : Entry S} {back : Side S} {later : List (Entry S)} :
      visit host mine theirs shelf entry.visit entry.before = .ok (entry.side, back) →
      back.store = shelf → Visits entry.after later → Visits entry.before (entry :: later)

/-- The ids a session asks for. -/
def asked (entry : Entry S) : Finset String :=
  (entry.side.wanted.map ItemSummary.itemId).toFinset

/-- In each session the wanted versions that were asked for before leave room in the
request. -/
def Roomy (before : Finset String) : List (Entry S) → Prop
  | [] => True
  | entry :: later =>
    (entry.side.workspace.wanted.filter fun item => item.itemId ∈ before).length <
        maxRequestIdsPerMessage ∧
      Roomy (before ∪ asked entry) later

/-- A version the device asks for when it is shown it: none of its own is as good. -/
def Lacks (store : S) (version : ItemSummary) : Prop :=
  ∀ ids, ∀ own ∈ mine.localSummaries store ids, own.itemId = version.itemId →
    remoteVersionWins own version = true

/-- The peer has the item of a version, with a payload that bears its hash. -/
def Served (version : ItemSummary) : Prop :=
  ∃ item : SyncItem, item.summary = version ∧ Serves host (theirs.fetch shelf) item ∧
    (item.deleted = false → host.sha256 item.payload = item.contentHash)

/-- Put off, or wanted and not attempted. -/
def Missed (workspace : SummaryWorkspace) (attempted : List String) (row : ItemSummary) : Prop :=
  row.itemId ∈ workspace.deferred ∨
    (∃ item ∈ workspace.wanted, item.itemId = row.itemId) ∧ row.itemId ∉ attempted

variable {host mine theirs shelf}

theorem unresolved_iff_missed {base workspace : SummaryWorkspace} {now : Int}
    {selected : List ItemSummary} (h : Planned base workspace now selected)
    (attempted : List String) (row : ItemSummary) :
    workspace.unresolved selected attempted row.itemId = true ↔ Missed workspace attempted row := by
  unfold SummaryWorkspace.unresolved Missed
  simp only [Bool.or_eq_true, decide_eq_true_eq, Bool.and_eq_true, List.mem_map]
  constructor
  · rintro (hdeferred | ⟨⟨item, hitem, hid⟩, hmissing⟩)
    · exact Or.inl hdeferred
    · exact Or.inr ⟨⟨item, h.chosen item hitem, hid⟩, hmissing⟩
  · rintro (hdeferred | ⟨⟨item, hitem, hid⟩, hmissing⟩)
    · exact Or.inl hdeferred
    · rcases h.deferred item hitem with hselected | hdeferred
      · exact Or.inr ⟨⟨item, hselected, hid⟩, hmissing⟩
      · exact Or.inl (hid ▸ hdeferred)

/-- Where the cursor of a session stands: below everything missed, and below where it was
only at the key of something missed. -/
structure Marked (workspace : SummaryWorkspace) (attempted : List String) (previous mark : Int) :
    Prop where
  below : ∀ row ∈ workspace.remote, Missed workspace attempted row → mark ≤ summaryKey row
  fallback : mark < min previous maxStamp →
    ∃ row ∈ workspace.remote, Missed workspace attempted row ∧ mark = summaryKey row

theorem marked {base workspace : SummaryWorkspace} {now : Int} {selected : List ItemSummary}
    (h : Planned base workspace now selected) (attempted : List String) (previous : Int) :
    Marked workspace attempted previous (workspace.watermark previous selected attempted) := by
  refine ⟨fun row hrow hmissed => ?_, fun hlt => ?_⟩
  · exact watermark_le previous hrow ((unresolved_iff_missed h attempted row).2 hmissed)
  · obtain ⟨row, hrow, hunresolved, heq⟩ := watermark_fallback previous hlt
    exact ⟨row, hrow, (unresolved_iff_missed h attempted row).1 hunresolved, heq⟩

/-- A session with an unchanged peer, read from this side. -/
theorem visit_reads {v : Visit} {standing : Standing S} (hvalid : mine.Valid standing.store)
    (hshelf : theirs.Valid shelf) {side back : Side S}
    (hok : visit host mine theirs shelf v standing = .ok (side, back)) (hback : back.store = shelf) :
    ∃ base advertised, Reads host theirs (v.reader mine standing) (v.peer theirs shelf) shelf base
      advertised side := by
  unfold visit at hok
  split at hok
  · exact (session_reads host mine theirs rfl rfl v.perm v.peerPerm hvalid hshelf hok).1
  · cases hsession : session host (v.peer theirs shelf) (v.reader mine standing) with
    | error e =>
      rw [hsession] at hok
      exact absurd hok (by simp [Except.map])
    | ok sides =>
      obtain ⟨first, second⟩ := sides
      rw [hsession] at hok
      obtain ⟨rfl, rfl⟩ := Prod.mk.inj (Except.ok.inj hok)
      obtain ⟨base, advertised, hreads⟩ :=
        (session_reads host theirs mine rfl rfl v.peerPerm v.perm hshelf hvalid hsession).2
      rw [hback] at hreads
      exact ⟨base, advertised, hreads⟩

section Reader

variable {v : Visit} {standing : Standing S} {base : SummaryWorkspace}
  {advertised : List ItemSummary} {side : Side S}

variable {version : ItemSummary}

/-- A version at or above the cursor that the device lacks is wanted. -/
theorem wanted_of_lacks (hshelf : theirs.Valid shelf)
    (h : Reads host theirs (v.reader mine standing) (v.peer theirs shelf) shelf base advertised side)
    (hversion : version ∈ theirs.versions shelf) (hstamp : 0 ≤ version.createdAt)
    (hsince : standing.sinceMs ≤ summaryKey version) (hclock : summaryKey version ≤ ceilingAt v.now)
    (hlacks : Lacks mine standing.store version) :
    version ∈ base.remote ∧ version ∈ side.workspace.wanted := by
  have hkey : 0 ≤ summaryKey version := hstamp.trans (le_max_left _ _)
  have hshown : version ∈ base.remote := by
    apply h.shown version hversion hstamp
    exact (advertiseFrom_le_iff _ _ _).2 ⟨hkey, Or.inl hsince⟩
  refine ⟨hshown, ?_⟩
  apply h.planned.considered.wanted_of_wins h.remote (theirs.unique shelf hshelf) hshown hclock
  unfold SummaryWorkspace.remoteWins
  rw [Option.all_eq_true]
  intro own hown
  obtain ⟨hmem, hid⟩ := lookup_eq_some hown
  obtain ⟨ids, hlocal⟩ := h.own own hmem
  exact hlacks ids own hlocal hid

theorem attempted_of_selected
    (h : Reads host theirs (v.reader mine standing) (v.peer theirs shelf) shelf base advertised side)
    (hselected : version ∈ side.wanted) (hserved : Served host theirs shelf version) :
    version.itemId ∈ side.attempted := by
  obtain ⟨item, rfl, hserves, hgenuine⟩ := hserved
  obtain ⟨stats, stats', received, hreceived, -, hattempted, -⟩ := h.took
  have hremote := (h.planned.considered.wanted _ (h.planned.chosen _ hselected)).1
  have hrequested : item.itemId ∈ request (v.reader mine standing) side.wanted := by
    apply List.mem_map.2
    exact ⟨item.summary, (v.perm _).mem_iff.2 hselected, rfl⟩
  have hmessage := mem_serveItems hserves hrequested (h.offered _ hremote) stats'
  rw [hattempted]
  have hid : item.cleared.itemId = item.summary.itemId := itemId_cleared item
  rw [← hid]
  apply applied_receiveItems hreceived hmessage
  · rw [summary_cleared, itemId_cleared]
    exact lookup_of_mem h.planned.distinct hselected
  · intro hlive
    have hsame : item.cleared = item := by
      unfold SyncItem.cleared at hlive ⊢
      split
      · rename_i hdeleted
        rw [if_pos hdeleted] at hlive
        exact absurd hlive (by simp [hdeleted])
      · rfl
    rw [hsame] at hlive ⊢
    exact hgenuine hlive

/-- A session that leaves a wanted version asks for one that was not asked for before. -/
theorem asks_anew
    (h : Reads host theirs (v.reader mine standing) (v.peer theirs shelf) shelf base advertised side)
    (hwanted : version ∈ side.workspace.wanted) (hleft : version ∉ side.wanted)
    {before : Finset String}
    (hroom : (side.workspace.wanted.filter fun item => item.itemId ∈ before).length <
      maxRequestIdsPerMessage) : ∃ item ∈ side.wanted, item.itemId ∉ before := by
  by_contra hnone
  push Not at hnone
  have hnodup : side.wanted.Nodup := h.planned.distinct.of_map _
  have hsub : side.wanted.Subperm
      (side.workspace.wanted.filter fun item => item.itemId ∈ before) := by
    apply hnodup.subperm
    intro item hitem
    exact List.mem_filter.2 ⟨h.planned.chosen item hitem, by simpa using hnone item hitem⟩
  have hmore : side.wanted.length < side.workspace.wanted.length := by
    have hall : (version :: side.wanted).Subperm side.workspace.wanted := by
      apply (List.nodup_cons.2 ⟨hleft, hnodup⟩).subperm
      intro item hitem
      rcases List.mem_cons.1 hitem with rfl | hchosen
      · exact hwanted
      · exact h.planned.chosen item hchosen
    have hlen := hall.length_le
    rw [List.length_cons] at hlen
    omega
  have hfull := h.planned.full
  have hfew := hsub.length_le
  omega

end Reader

theorem valid_after {entry : Entry S} {back : Side S} (hvalid : mine.Valid entry.before.store)
    (hshelf : theirs.Valid shelf)
    (hok : visit host mine theirs shelf entry.visit entry.before = .ok (entry.side, back))
    (hback : back.store = shelf) : mine.Valid entry.after.store := by
  obtain ⟨base, advertised, hreads⟩ := visit_reads hvalid hshelf hok hback
  obtain ⟨stats, stats', received, hreceived, hstore, -⟩ := hreads.took
  show mine.Valid entry.side.store
  rw [hstore]
  exact receiveItems_keeps host mine.valid_applyBatch hvalid hreceived

/-- The run lemma: while a version is wanted and not attempted, each session adds an id to
those asked for. -/
theorem asked_grows (hshelf : theirs.Valid shelf) {version : ItemSummary}
    (hversion : version ∈ theirs.versions shelf) (hstamp : 0 ≤ version.createdAt)
    (hserved : Served host theirs shelf version) {standing : Standing S} {log : List (Entry S)}
    (hlog : Visits host mine theirs shelf standing log) (hvalid : mine.Valid standing.store)
    (hsince : standing.sinceMs ≤ summaryKey version)
    (hclock : ∀ entry ∈ log, summaryKey version ≤ ceilingAt entry.visit.now)
    (hlacks : ∀ entry ∈ log, Lacks mine entry.before.store version)
    (hmissed : ∀ entry ∈ log, version.itemId ∉ entry.side.attempted) {before : Finset String}
    (hroom : Roomy before log)
    (hbefore : before ⊆ ((theirs.versions shelf).map ItemSummary.itemId).toFinset.erase
      version.itemId) :
    before.card + log.length < (theirs.versions shelf).length := by
  have hids : (((theirs.versions shelf).map ItemSummary.itemId).toFinset.erase
      version.itemId).card + 1 = (theirs.versions shelf).length := by
    rw [Finset.card_erase_add_one (by
      rw [List.mem_toFinset]
      exact List.mem_map_of_mem hversion), List.toFinset_card_of_nodup (theirs.unique shelf hshelf),
      List.length_map]
  induction hlog generalizing before with
  | rest standing =>
    have hle := Finset.card_le_card hbefore
    rw [List.length_nil]
    omega
  | @next entry back later hok hback _ ih =>
    obtain ⟨base, advertised, hreads⟩ := visit_reads hvalid hshelf hok hback
    obtain ⟨hshown, hwanted⟩ := wanted_of_lacks hshelf hreads hversion hstamp hsince
      (hclock entry List.mem_cons_self) (hlacks entry List.mem_cons_self)
    have hnot := hmissed entry List.mem_cons_self
    have hleft : version ∉ entry.side.wanted := fun hselected =>
      hnot (attempted_of_selected hreads hselected hserved)
    obtain ⟨item, hitem, hfresh⟩ := asks_anew hreads hwanted hleft hroom.1
    have hnext : entry.after.sinceMs ≤ summaryKey version := by
      refine max_le ?_ (hstamp.trans (le_max_left _ _))
      rw [hreads.mark]
      apply watermark_le _ (hreads.same ▸ hshown)
      exact (unresolved_iff_missed hreads.planned _ version).2 (Or.inr ⟨⟨_, hwanted, rfl⟩, hnot⟩)
    have hasked : before ∪ asked entry ⊆
        ((theirs.versions shelf).map ItemSummary.itemId).toFinset.erase version.itemId := by
      apply Finset.union_subset hbefore
      intro id hid
      obtain ⟨chosen, hchosen, rfl⟩ := List.mem_map.1 (List.mem_toFinset.1 hid)
      have hstored := hreads.remote chosen
        (hreads.planned.considered.wanted chosen (hreads.planned.chosen chosen hchosen)).1
      refine Finset.mem_erase.2 ⟨fun heq => hleft ?_, ?_⟩
      · exact List.inj_on_of_nodup_map (theirs.unique shelf hshelf) hstored hversion heq ▸ hchosen
      · exact List.mem_toFinset.2 (List.mem_map_of_mem hstored)
    have hgrows : before.card + 1 ≤ (before ∪ asked entry).card := by
      have hmem : item.itemId ∈ asked entry := List.mem_toFinset.2 (List.mem_map_of_mem hitem)
      have hinsert : insert item.itemId before ⊆ before ∪ asked entry := by
        apply Finset.insert_subset (Finset.mem_union_right _ hmem)
        exact Finset.subset_union_left
      rw [← Finset.card_insert_of_notMem hfresh]
      exact Finset.card_le_card hinsert
    have hlater := ih (valid_after hvalid hshelf hok hback) hnext
      (fun other hother => hclock other (List.mem_cons_of_mem _ hother))
      (fun other hother => hlacks other (List.mem_cons_of_mem _ hother))
      (fun other hother => hmissed other (List.mem_cons_of_mem _ hother)) hroom.2 hasked
    rw [List.length_cons]
    omega

/-- The cursor hides nothing that was put off or not attempted, whatever is offered, and
falls back for nothing else; and while the versions asked for before leave room in the
request, a version is transferred, or no longer wanted, within as many sessions as the peer has
versions. -/
theorem backlog_transferred (S : Type) (host : Host) :
    (∀ (base : SummaryWorkspace) (arrange : List ItemSummary → List ItemSummary),
      base.wanted = [] → (∀ rows, (arrange rows).Perm rows) →
      ∀ (now : Int) (stats : SyncStats) (attempted : List String) (previous : Int),
        Marked (base.planWorkspace arrange now stats).1 attempted previous
          ((base.planWorkspace arrange now stats).1.watermark previous
            (base.planWorkspace arrange now stats).2.1 attempted)) ∧
    ∀ (mine theirs : History S) (shelf : S) (standing : Standing S)
      (log : List (Entry S)), theirs.Valid shelf → mine.Valid standing.store →
      Visits host mine theirs shelf standing log → Roomy ∅ log →
      ∀ version ∈ theirs.versions shelf, 0 ≤ version.createdAt →
        Served host theirs shelf version → standing.sinceMs ≤ summaryKey version →
        (∀ entry ∈ log, summaryKey version ≤ ceilingAt entry.visit.now) →
        (theirs.versions shelf).length ≤ log.length →
        ∃ entry ∈ log, version.itemId ∈ entry.side.attempted ∨
          ¬ Lacks mine entry.before.store version := by
  refine ⟨fun base arrange hwanted hperm now stats attempted previous => ?_, ?_⟩
  · exact marked (planned hperm hwanted now stats) attempted previous
  · intro mine theirs shelf standing log hshelf hvalid hlog hroom version hversion hstamp
      hserved hsince hclock hlong
    by_contra hnone
    push Not at hnone
    have hgrows := asked_grows hshelf hversion hstamp hserved hlog hvalid hsince hclock
      (fun entry hentry => (hnone entry hentry).2) (fun entry hentry => (hnone entry hentry).1)
      hroom (Finset.empty_subset _)
    rw [Finset.card_empty] at hgrows
    omega

/-- A session in which neither side has anything to send leaves both as they were. -/
theorem session_unserved {initiator responder : Party S}
    (hself : initiator.source.deviceId ≠ responder.source.deviceId)
    (hids : checkId initiator.source.deviceId = true ∧ checkId responder.source.deviceId = true)
    {kept keptBack : SummaryWorkspace}
    (hexchange : exchange initiator responder maxSummaryPagesPerSession
      ⟨initiator.cursor.advertiseFrom responder.cursor.sinceMs, none⟩
      ⟨responder.cursor.advertiseFrom initiator.cursor.sinceMs, none⟩ {} {} = .ok (kept, keptBack))
    (hserved : ∀ advertised stats, (serveItems host (responder.source.fetch responder.store)
      advertised (request initiator (kept.planWorkspace initiator.arrange initiator.now {}).2.1)
        stats).1 = [])
    (hback : ∀ store advertised stats stats', (serveItems host (initiator.source.fetch store)
      advertised (request responder (keptBack.planWorkspace responder.arrange responder.now
        stats).2.1) stats').1 = []) :
    ∃ side back, session host initiator responder = .ok (side, back) ∧
      side.store = initiator.store ∧ back.store = responder.store ∧ side.attempted = [] := by
  let planned := kept.planWorkspace initiator.arrange initiator.now {}
  let plannedBack := keptBack.planWorkspace responder.arrange responder.now
    (serveItems host (responder.source.fetch responder.store) keptBack.advertised
      (request initiator planned.2.1) {}).2
  unfold session
  simp only [if_neg hself, hids.1, hids.2, Bool.and_self, Bool.not_true, Bool.false_eq_true,
    if_false, pure, Except.pure, Bind.bind, Except.bind, hexchange]
  rw [hserved]
  obtain ⟨received, hreceived, hstore, happlied⟩ := @receiveItems_nil host S
    initiator.source.applyBatch planned.2.1 initiator.store planned.2.2
  rw [hreceived]
  dsimp only
  rw [hback]
  obtain ⟨receivedBack, hreceivedBack, hstoreBack, -⟩ := @receiveItems_nil host S
    responder.source.applyBatch plannedBack.2.1 responder.store plannedBack.2.2
  rw [hreceivedBack]
  exact ⟨_, _, rfl, hstore, hstoreBack, happlied⟩

section Samples

open Merge.Storage Merge.Prepare Merge.Effects StoreSource

/-- A name of two letters for each number below 1024. -/
private def letters (n : ℕ) : String :=
  String.ofList [Char.ofNat (n / 32 + 64), Char.ofNat (n % 32 + 64)]

private def oldest : ItemRow := sampleNote "oldest" 1 "phone"

private def newer (n : ℕ) : ItemRow := sampleNote (letters n) 2 "phone"

/-- A phone that opens its oldest note alone. -/
private def phone : StoreSource.Device :=
  { sampleDevice "phone" with
    decrypt := fun _ id payload => if id = "oldest" then some payload.2 else none }

private def laptop : StoreSource.Device := sampleDevice "laptop"

private def notes : Store := { items := oldest :: (List.range 1000).map newer }

private def shown (row : ItemRow) : ItemSummary := storedSummary phone.host row.toVersion

private theorem two_letters (a b : Char) : isRecordId (String.ofList [a, b]) = false ∧
    String.ofList [a, b] ≠ "oldest" ∧ checkId (String.ofList [a, b]) = true ∧
      (String.ofList [a, b]).utf8ByteSize ≤ maxHashBytes := by
  have hlength : (String.ofList [a, b]).toList.length = 2 := by
    rw [String.toList_ofList]
    rfl
  have hne : ∀ text : String, text.toList.length ≠ 2 → String.ofList [a, b] ≠ text := by
    rintro text htext rfl
    exact htext hlength
  have hsize : (String.ofList [a, b]).utf8ByteSize ≤ 8 := by
    have ha := Char.utf8Size_le_four a
    have hb := Char.utf8Size_le_four b
    simp
    omega
  refine ⟨Bool.eq_false_iff.2 fun habs => ?_, hne _ (by decide), ?_, hsize.trans (by decide)⟩
  · have hle := (List.isPrefixOf_iff_prefix.1 habs).length_le
    rw [hlength] at hle
    exact absurd hle (by decide)
  · unfold checkId
    rw [bne_iff_ne.2 (hne _ (by decide)), decide_eq_true (hsize.trans (by decide))]
    rfl

private theorem newer_bounds (n : ℕ) : isRecordId (letters n) = false ∧
    letters n ≠ "oldest" ∧ validSummary (shown (newer n)) = true := by
  obtain ⟨hrecord, holdest, hid, hhash⟩ :=
    two_letters (Char.ofNat (n / 32 + 64)) (Char.ofNat (n % 32 + 64))
  refine ⟨hrecord, holdest, ?_⟩
  change (checkId (letters n) && checkId "phone" &&
    decide ((letters n).utf8ByteSize ≤ maxHashBytes) && true && true && true) = true
  rw [letters, hid, decide_eq_true hhash]
  decide

private theorem letters_injective {a b : ℕ} (ha : a < 1000) (hb : b < 1000)
    (h : letters a = letters b) : a = b := by
  have hcode : ∀ m < 100, (Char.ofNat m).toNat = m := by decide
  have hletters := String.ofList_injective h
  simp only [List.cons.injEq, and_true] at hletters
  have hfirst := congrArg Char.toNat hletters.1
  have hsecond := congrArg Char.toNat hletters.2
  rw [hcode _ (by omega), hcode _ (by omega)] at hfirst hsecond
  omega

private theorem versions_notes : versions phone notes =
    shown oldest :: (List.range 1000).map fun n => shown (newer n) := by
  simp [versions, notes, Store.allVersions, shown, Function.comp_def]

private theorem nodup_newer : ((List.range 1000).map fun n => shown (newer n)).Nodup := by
  apply List.Nodup.map_on _ List.nodup_range
  intro a ha b hb heq
  exact letters_injective (List.mem_range.1 ha) (List.mem_range.1 hb)
    (congrArg ItemSummary.itemId heq)

private theorem wellFormed_notes : WellFormed notes := by
  apply wellFormed_items
  · rw [List.map_cons, List.map_map, List.nodup_cons]
    constructor
    · intro hmem
      obtain ⟨n, hn, heq⟩ := List.mem_map.1 hmem
      exact (newer_bounds n).2.1 heq
    · apply List.Nodup.map_on _ List.nodup_range
      intro a ha b hb heq
      exact letters_injective (List.mem_range.1 ha) (List.mem_range.1 hb) heq
  · intro row hrow
    rcases List.mem_cons.1 hrow with rfl | hnewer
    · decide
    · obtain ⟨n, hn, rfl⟩ := List.mem_map.1 hnewer
      exact (newer_bounds n).1

private theorem fetch_notes {ids : List String} (h : "oldest" ∉ ids) :
    (storeHistory phone).fetch notes ids = [] := by
  apply List.filterMap_eq_nil_iff.2
  intro row hrow
  obtain ⟨hmem, hid⟩ := List.mem_filter.1 hrow
  have hnewer : row ∈ (List.range 1000).map newer := by
    simp only [syncRecords, notes, List.map_nil, List.append_nil] at hmem
    rcases List.mem_cons.1 hmem with rfl | hlater
    · exact absurd (of_decide_eq_true hid) h
    · exact hlater
  obtain ⟨n, hn, rfl⟩ := List.mem_map.1 hnewer
  have hclosed : (if letters n = "oldest" then some (utf8 (letters n)) else none) = none :=
    if_neg (newer_bounds n).2.1
  have hopens : openVersionBytes phone (newer n) = none := by
    unfold openVersionBytes
    simp only [newer, sampleNote, sampleRow, phone, Option.bind_eq_bind, Option.bind_some, hclosed]
    split <;> rfl
  unfold toWire
  rw [hopens]
  rfl

private theorem stamps_notes {row : ItemSummary} (hrow : row ∈ versions phone notes) :
    0 ≤ row.createdAt ∧ 1 ≤ summaryKey row := by
  rw [versions_notes] at hrow
  rcases List.mem_cons.1 hrow with rfl | hnewer
  · decide
  · obtain ⟨n, -, rfl⟩ := List.mem_map.1 hnewer
    have hstamp : (shown (newer n)).createdAt = 2 := rfl
    refine ⟨by rw [hstamp]; decide, ?_⟩
    apply le_trans _ (le_max_left _ _)
    rw [hstamp]
    decide

/-- The page the phone answers with from its first note on. -/
private theorem nextPage_notes (since : Int) :
    ∃ items, nextPage (storeHistory phone).toSyncSource notes ⟨since, none⟩ = (items, false) ∧
      (∀ item ∈ items, validSummary item = true) := by
  refine ⟨_, Prod.ext rfl ?_, fun item hitem => ?_⟩
  · show decide _ = false
    rw [decide_eq_false_iff_not, not_lt]
    show (((List.take _ _).map _).map _).length ≤ _
    rw [List.length_map, List.length_map, List.length_take]
    apply (min_le_right _ _).trans
    rw [List.length_insertionSort]
    apply (List.length_filter_le _ _).trans
    simp [stampedVersions, notes, maxSummariesPerMessage]
  · have hstored := page_stored (storeHistory phone) wellFormed_notes _ item hitem
    have hversions : (storeHistory phone).versions notes = versions phone notes := rfl
    rw [hversions, versions_notes] at hstored
    rcases List.mem_cons.1 hstored with rfl | hnewer
    · decide
    · obtain ⟨n, hn, rfl⟩ := List.mem_map.1 hnewer
      exact (newer_bounds n).2.2

/-- How the laptop meets the phone each time. -/
private def meeting : Visit where
  initiator := true
  now := 10
  relayFloorMs := none
  peerNow := 10
  peerCursor := {}
  arrange := id
  peerArrange := id
  perm := fun _ => List.Perm.refl _
  peerPerm := fun _ => List.Perm.refl _

/-- The laptop holds nothing and has read nothing. -/
private def Unread (standing : Standing Store) : Prop :=
  standing.store = {} ∧ standing.sinceMs ≤ 1

variable {standing : Standing Store}

private theorem lacks_of_unread (h : Unread standing) (version : ItemSummary) :
    Lacks (storeHistory laptop) standing.store version := by
  intro ids own hown
  rw [h.1] at hown
  exact absurd hown (by simp [storeHistory, storeSource, Store.versionSummaries, Store.allVersions])

private theorem summaryKey_oldest : summaryKey (shown oldest) = 1 := by decide

private theorem unique_notes : ((versions phone notes).map ItemSummary.itemId).Nodup :=
  (storeHistory phone).unique notes wellFormed_notes

/-- The newer notes fill the request. -/
private theorem oldest_not_selected {base : SummaryWorkspace} (hwanted : base.wanted = [])
    (hcomparison : base.comparison = []) (hremote : ∀ row ∈ base.remote, row ∈ versions phone notes)
    (hshown : ∀ row ∈ versions phone notes, row ∈ base.remote) :
    ∀ item ∈ (base.planWorkspace id 10 {}).2.1, item.itemId ≠ "oldest" := by
  have hplan := planned (fun rows => List.Perm.refl (id rows)) hwanted 10 {}
  have hwins : ∀ row : ItemSummary, base.remoteWins row = true := by
    intro row
    unfold SummaryWorkspace.remoteWins
    rw [hcomparison]
    rfl
  have hpassed : shown oldest ∉ (base.planWorkspace id 10 {}).2.1 := by
    refine not_selected_of_newer (fun rows => List.Perm.refl (id rows)) 10 {} nodup_newer
      (fun other hother => ⟨?_, ?_⟩) (by simp [maxRequestIdsPerMessage])
    · apply hplan.considered.wanted_of_wins hremote unique_notes
      · apply hshown
        rw [versions_notes]
        exact List.mem_cons_of_mem _ hother
      · obtain ⟨n, -, rfl⟩ := List.mem_map.1 hother
        show (2 : Int) ≤ _
        decide
      · exact hwins other
    · obtain ⟨n, -, rfl⟩ := List.mem_map.1 hother
      show (1 : Int) < 2
      decide
  intro item hitem hid
  have hstored := hremote item (hplan.considered.wanted item (hplan.chosen item hitem)).1
  have hoff : shown oldest ∈ versions phone notes := by
    rw [versions_notes]
    exact List.mem_cons_self
  have hsame : item = shown oldest := List.inj_on_of_nodup_map unique_notes hstored hoff hid
  exact hpassed (hsame ▸ hitem)

/-- A session that fills its request with the notes the phone cannot open. -/
private theorem unread_visit (h : Unread standing) :
    ∃ side back, visit sampleHost (storeHistory laptop) (storeHistory phone) notes meeting
        standing = .ok (side, back) ∧ back.store = notes ∧ side.store = {} ∧
      side.attempted = [] := by
  obtain ⟨reader, hreader⟩ : ∃ reader, reader = meeting.reader (storeHistory laptop) standing :=
    ⟨_, rfl⟩
  obtain ⟨peer, hpeer⟩ : ∃ peer, peer = meeting.peer (storeHistory phone) notes := ⟨_, rfl⟩
  have hsource : reader.source = (storeHistory laptop).toSyncSource := by rw [hreader]; rfl
  have hpeerSource : peer.source = (storeHistory phone).toSyncSource := by rw [hpeer]; rfl
  have hstore : reader.store = {} := by
    rw [hreader]
    exact h.1
  have hpeerStore : peer.store = notes := by rw [hpeer]; rfl
  have hvalid : WellFormed ({} : Store) := wellFormed_items List.nodup_nil (by simp)
  have hsince : peer.cursor.advertiseFrom reader.cursor.sinceMs ≤ 1 := by
    rw [advertiseFrom_le_iff, hpeer, hreader]
    exact ⟨by decide, Or.inl h.2⟩
  obtain ⟨items, hpage, hbounds⟩ := nextPage_notes _
  rw [← hpeerSource, ← hpeerStore] at hpage
  have hempty : ∀ position, nextPage reader.source reader.store position = ([], false) := by
    intro position
    rw [hsource, hstore]
    rfl
  have hexchange : exchange reader peer maxSummaryPagesPerSession
      ⟨reader.cursor.advertiseFrom peer.cursor.sinceMs, none⟩
      ⟨peer.cursor.advertiseFrom reader.cursor.sinceMs, none⟩ {} {} =
        .ok (keepRound reader {} [] items, keepRound peer {} items []) := by
    show exchange reader peer (15 + 1) _ _ _ _ = _
    rw [exchange, hempty, hpage]
    dsimp only
    rw [List.nil_append, if_pos (List.all_eq_true.2 hbounds)]
    rfl
  have hmineValid : (storeHistory laptop).Valid reader.store := by
    rw [hstore]
    exact hvalid
  have htheirsValid : (storeHistory phone).Valid peer.store := by
    rw [hpeerStore]
    exact wellFormed_notes
  obtain ⟨hkept, hkeptBack⟩ := exchange_kept (storeHistory laptop) (storeHistory phone) hsource
    hpeerSource hmineValid htheirsValid (kept_start _ _) (kept_start _ _) hexchange
  obtain ⟨-, hcomplete⟩ := exchange_complete (storeHistory laptop) (storeHistory phone) hsource
    hpeerSource hmineValid htheirsValid (sent_start _ _ _ _) (sent_start _ _ _ _) hexchange
  have hcomparison : (keepRound reader {} [] items).comparison = [] := by
    show List.foldl _ [] (reader.source.localSummaries reader.store _) = []
    rw [hsource, hstore]
    rfl
  have hremote : ∀ row ∈ (keepRound reader {} [] items).remote, row ∈ versions phone notes := by
    intro row hrow
    have hstored := hkept.remote row hrow
    rw [hpeerStore] at hstored
    exact hstored
  have hshown : ∀ row ∈ versions phone notes, row ∈ (keepRound reader {} [] items).remote := by
    intro row hrow
    have hin : row ∈ (storeHistory phone).versions peer.store := by
      rw [hpeerStore]
      exact hrow
    obtain ⟨hstamp, hkey⟩ := stamps_notes hrow
    exact hcomplete row hin ((storeHistory phone).start_lt_place htheirsValid hin hstamp
      (hsince.trans hkey))
  have hselected := oldest_not_selected hkept.wanted hcomparison hremote hshown
  have hself : reader.source.deviceId ≠ peer.source.deviceId := by
    rw [hsource, hpeerSource]
    show "laptop" ≠ "phone"
    decide
  have hids : checkId reader.source.deviceId = true ∧ checkId peer.source.deviceId = true := by
    rw [hsource, hpeerSource]
    show checkId "laptop" = true ∧ checkId "phone" = true
    decide
  have hserved : ∀ advertised stats, (serveItems sampleHost (peer.source.fetch peer.store)
      advertised (request reader ((keepRound reader {} [] items).planWorkspace reader.arrange
        reader.now {}).2.1) stats).1 = [] := by
    intro advertised stats
    apply serveItems_none
    intro ids hids
    rw [hpeerSource, hpeerStore]
    apply fetch_notes
    intro hin
    obtain ⟨item, hitem, hid⟩ := List.mem_map.1 (hids _ hin)
    rw [hreader] at hitem
    exact hselected item (by rwa [hreader]) hid
  have hperm : ∀ rows, (peer.arrange rows).Perm rows := by
    rw [hpeer]
    exact meeting.peerPerm
  have hservedBack : ∀ store advertised stats stats', (serveItems sampleHost
      (reader.source.fetch store) advertised (request peer ((keepRound peer {} items
        []).planWorkspace peer.arrange peer.now stats).2.1) stats').1 = [] := by
    intro store advertised stats stats'
    apply serveItems_none
    intro ids hids
    have hnone : ids = [] := by
      rw [List.eq_nil_iff_forall_not_mem]
      intro id hid
      obtain ⟨item, hitem, -⟩ := List.mem_map.1 (hids id hid)
      rw [nothing_selected hperm hkeptBack.wanted rfl peer.now stats] at hitem
      exact absurd ((hperm []).mem_iff.1 hitem) List.not_mem_nil
    rw [hnone, hsource]
    simp [storeHistory, storeSource, StoreSource.fetch]
  obtain ⟨side, back, hok, hside, hback, hattempted⟩ :=
    session_unserved hself hids hexchange hserved hservedBack
  rw [hpeerStore] at hback
  rw [hstore] at hside
  refine ⟨side, back, ?_, hback, hside, hattempted⟩
  rw [hreader, hpeer] at hok
  exact hok

private theorem oldest_mem : shown oldest ∈ versions phone notes := by
  rw [versions_notes]
  exact List.mem_cons_self

private def oldestItem : SyncItem where
  itemId := "oldest"
  content := "oldest"
  binaryContent := []
  payloadMetadata := none
  sourceAppBundleId := none
  sourceAppName := none
  contentType := "text"
  createdAt := 1
  deleted := false
  contentHash := "oldest"
  originDeviceId := "phone"
  pinned := false
  pinOrder := none
  pinUpdatedAt := 0

/-- The phone serves its oldest note. -/
private theorem served_oldest (rows : List ItemRow) :
    Served sampleHost (storeHistory phone) { items := oldest :: rows } (shown oldest) := by
  have hwire : toWire phone { items := oldest :: rows } oldest = some oldestItem := by rfl
  refine ⟨oldestItem, by decide, ⟨fun ids hids => ?_, by decide, by decide⟩,
    fun _ => by decide⟩
  have hin : decide (oldest.id ∈ ids) = true := decide_eq_true hids
  have hfirst : (storeHistory phone).fetch { items := oldest :: rows } ids = oldestItem ::
      (rows.filter fun row => row.id ∈ ids).filterMap (toWire phone { items := oldest :: rows }) := by
    show List.filterMap _ (List.filter _ (oldest :: rows ++ [])) = _
    rw [List.append_nil, List.filter_cons, if_pos hin, List.filterMap_cons_some hwire]
  rw [hfirst]
  exact List.find?_cons_of_pos (by simp)

/-- As many sessions as one likes. -/
private theorem unread_log (n : ℕ) (h : Unread standing) :
    ∃ log, log.length = n ∧
      Visits sampleHost (storeHistory laptop) (storeHistory phone) notes standing log ∧
      ∀ entry ∈ log, entry.visit = meeting ∧ Unread entry.before ∧ entry.side.attempted = [] := by
  induction n generalizing standing with
  | zero => exact ⟨[], rfl, Visits.rest standing, by simp⟩
  | succ n ih =>
    obtain ⟨side, back, hok, hback, hside, hattempted⟩ := unread_visit h
    have hvalid : (storeHistory laptop).Valid standing.store := by
      rw [h.1]
      exact wellFormed_items List.nodup_nil (by simp)
    obtain ⟨base, advertised, hreads⟩ := visit_reads hvalid wellFormed_notes hok hback
    obtain ⟨hremote, hwanted⟩ := wanted_of_lacks wellFormed_notes hreads oldest_mem
      (stamps_notes oldest_mem).1 (h.2.trans (stamps_notes oldest_mem).2) (by decide)
      (lacks_of_unread h _)
    have hmark : side.sinceMs ≤ 1 := by
      rw [hreads.mark, ← summaryKey_oldest]
      apply watermark_le _ (hreads.same ▸ hremote)
      apply (unresolved_iff_missed hreads.planned _ _).2
      exact Or.inr ⟨⟨_, hwanted, rfl⟩, by simp [hattempted]⟩
    have hnext : Unread ⟨side.store, max side.sinceMs 0⟩ := ⟨hside, max_le hmark (by decide)⟩
    obtain ⟨log, hlength, hlog, hentries⟩ := ih hnext
    refine ⟨⟨meeting, standing, side⟩ :: log, by rw [List.length_cons, hlength], ?_, ?_⟩
    · exact @Visits.next _ _ _ _ _ ⟨meeting, standing, side⟩ back log hok hback hlog
    · intro entry hentry
      rcases List.mem_cons.1 hentry with rfl | hlater
      · exact ⟨rfl, h, hattempted⟩
      · exact hentries entry hlater

/-- A thousand newer notes that the phone cannot open fill every request, and its oldest note,
which it can, is never asked for. -/
theorem oldest_note_starves :
    Served sampleHost (storeHistory phone) notes (shown oldest) ∧
    ¬ ∃ bound, ∀ log, Visits sampleHost (storeHistory laptop) (storeHistory phone) notes ⟨{}, 0⟩
        log → (∀ entry ∈ log, summaryKey (shown oldest) ≤ ceilingAt entry.visit.now) →
      bound ≤ log.length → ∃ entry ∈ log, "oldest" ∈ entry.side.attempted ∨
        ¬ Lacks (storeHistory laptop) entry.before.store (shown oldest) := by
  refine ⟨served_oldest _, ?_⟩
  rintro ⟨bound, hall⟩
  have hstart : Unread ⟨{}, 0⟩ := ⟨rfl, by decide⟩
  obtain ⟨log, hlength, hlog, hentries⟩ := unread_log bound hstart
  have hclock : ∀ entry ∈ log, summaryKey (shown oldest) ≤ ceilingAt entry.visit.now := by
    intro entry hentry
    rw [(hentries entry hentry).1]
    decide
  obtain ⟨entry, hentry, hattempted | hlacks⟩ := hall log hlog hclock hlength.ge
  · rw [(hentries entry hentry).2.2] at hattempted
    exact absurd hattempted List.not_mem_nil
  · exact hlacks (lacks_of_unread (hentries entry hentry).2.1 _)

private def single : Store := { items := [oldest] }

/-- Alone it is transferred. -/
theorem oldest_note_transferred :
    ∃ side back, visit sampleHost (storeHistory laptop) (storeHistory phone) single meeting
      ⟨{}, 0⟩ = .ok (side, back) ∧ "oldest" ∈ side.attempted := by
  have hvalid : WellFormed single := wellFormed_items (by decide) (by decide)
  have hempty : WellFormed ({} : Store) := wellFormed_items List.nodup_nil (by simp)
  have hstart : Unread ⟨{}, 0⟩ := ⟨rfl, by decide⟩
  have hstays : ((visit sampleHost (storeHistory laptop) (storeHistory phone) single meeting
      ⟨{}, 0⟩).toOption.map fun sides => sides.2.store) = some single := by decide
  cases hok : visit sampleHost (storeHistory laptop) (storeHistory phone) single meeting
      ⟨{}, 0⟩ with
  | error e =>
    rw [hok] at hstays
    exact absurd hstays (by simp [Except.toOption])
  | ok sides =>
    obtain ⟨side, back⟩ := sides
    rw [hok] at hstays
    have hback : back.store = single := by
      simpa [Except.toOption] using hstays
    have hlog : Visits sampleHost (storeHistory laptop) (storeHistory phone) single ⟨{}, 0⟩
        [⟨meeting, ⟨{}, 0⟩, side⟩] :=
      @Visits.next Store sampleHost (storeHistory laptop) (storeHistory phone) single
        ⟨meeting, ⟨{}, 0⟩, side⟩ back [] hok hback (Visits.rest _)
    have hroom : Roomy ∅ [(⟨meeting, ⟨{}, 0⟩, side⟩ : Entry Store)] := by
      refine ⟨?_, trivial⟩
      rw [List.filter_eq_nil_iff.2 fun item _ => by simp]
      decide
    have hclock : ∀ entry ∈ [(⟨meeting, ⟨{}, 0⟩, side⟩ : Entry Store)],
        summaryKey (shown oldest) ≤ ceilingAt entry.visit.now := by
      intro entry hentry
      rw [List.mem_singleton.1 hentry]
      show summaryKey (shown oldest) ≤ ceilingAt 10
      decide
    have hmem : shown oldest ∈ (storeHistory phone).versions single := by decide
    obtain ⟨entry, hentry, hdone⟩ := (backlog_transferred Store sampleHost).2 (storeHistory laptop)
      (storeHistory phone) single ⟨{}, 0⟩ _ hvalid hempty hlog hroom (shown oldest) hmem
      (by decide) (served_oldest []) (by decide) hclock le_rfl
    rw [List.mem_singleton.1 hentry] at hdone
    exact ⟨side, back, rfl, hdone.resolve_right fun h => h (lacks_of_unread hstart _)⟩

end Samples

end CopyPaste.Peer.Backlog
