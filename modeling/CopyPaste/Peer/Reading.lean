import CopyPaste.Peer.Advertise
import CopyPaste.Peer.Delivery
import CopyPaste.Peer.Watermark

/-!
A completed session from the side that reads. Whichever half it takes, a device is
shown the peer's versions from the stamp the peer advertises from on, compares them
with its own, plans, takes what the peer serves and moves its cursor.
-/

namespace CopyPaste.Peer.Reading

open Lib.Keyset Lib.Rows Merge.Comparator Merge.Payload Cursor Plan Transfer Session Advertise
  Watermark

variable {S : Type}

/-- What a side keeps of the pages: versions of the peer, each of them advertised by it,
and its own summaries of the ids it was shown. -/
structure Kept (party : Party S) (versions : List ItemSummary)
    (workspace other : SummaryWorkspace) : Prop where
  remote : ∀ row ∈ workspace.remote, row ∈ versions
  advertised : ∀ row ∈ workspace.remote,
    (lookup ItemSummary.itemId other.advertised row.itemId).isSome
  unique : (workspace.comparison.map ItemSummary.itemId).Nodup
  own : ∀ own ∈ workspace.comparison,
    ∃ ids, own ∈ party.source.localSummaries party.store ids
  compared : ∀ row ∈ workspace.remote, ∃ ids, row.itemId ∈ ids ∧
    ∀ own ∈ party.source.localSummaries party.store ids, own.itemId = row.itemId →
      (lookup ItemSummary.itemId workspace.comparison row.itemId).isSome
  wanted : workspace.wanted = []

theorem kept_start (party : Party S) (versions : List ItemSummary) : Kept party versions {} {} where
  remote := fun _ hrow => absurd hrow List.not_mem_nil
  advertised := fun _ hrow => absurd hrow List.not_mem_nil
  unique := List.nodup_nil
  own := fun _ hown => absurd hown List.not_mem_nil
  compared := fun _ hrow => absurd hrow List.not_mem_nil
  wanted := rfl

theorem Kept.round {party : Party S} {versions : List ItemSummary}
    {workspace other : SummaryWorkspace} (h : Kept party versions workspace other)
    (peer : Party S) (mine : List ItemSummary) {theirs : List ItemSummary}
    (htheirs : ∀ row ∈ theirs, row ∈ versions) :
    Kept party versions (keepRound party workspace mine theirs)
      (keepRound peer other theirs mine) := by
  refine ⟨fun row hrow => ?_, fun row hrow => ?_, nodup_foldl_put _ h.unique, fun own hown => ?_,
    fun row hrow => ?_, h.wanted⟩
  · rcases List.mem_append.1 hrow with hold | hnew
    · exact h.remote row hold
    · exact htheirs row hnew
  · apply (isSome_lookup_foldl_put _ _ _).2
    rcases List.mem_append.1 hrow with hold | hnew
    · exact Or.inl (h.advertised row hold)
    · exact Or.inr ⟨row, hnew, rfl⟩
  · rcases mem_foldl_put hown with hold | hnew
    · exact h.own own hold
    · exact ⟨_, hnew⟩
  · rcases List.mem_append.1 hrow with hold | hnew
    · obtain ⟨ids, hid, hfound⟩ := h.compared row hold
      refine ⟨ids, hid, fun own hown heq => ?_⟩
      exact (isSome_lookup_foldl_put _ _ _).2 (Or.inl (hfound own hown heq))
    · refine ⟨theirs.map ItemSummary.itemId, List.mem_map_of_mem hnew, fun own hown heq => ?_⟩
      exact (isSome_lookup_foldl_put _ _ _).2 (Or.inr ⟨own, hown, heq⟩)

theorem page_stored (history : History S) {store : S} (h : history.Valid store) (reader : Reader) :
    ∀ row ∈ (nextPage history.toSyncSource store reader).1, row ∈ history.versions store := by
  rw [nextPage_fst history h]
  exact (segment_page (history.nodup_place h) reader maxSummariesPerMessage).stored

theorem exchange_kept (mine theirs : History S) {initiator responder : Party S}
    (hmine : initiator.source = mine.toSyncSource) (htheirs : responder.source = theirs.toSyncSource)
    (hvalid : mine.Valid initiator.store) (hvalidBack : theirs.Valid responder.store)
    {rounds : Nat} {reader readerBack : Reader} {kept keptBack after afterBack : SummaryWorkspace}
    (hkept : Kept initiator (theirs.versions responder.store) kept keptBack)
    (hkeptBack : Kept responder (mine.versions initiator.store) keptBack kept)
    (hok : exchange initiator responder rounds reader readerBack kept keptBack =
      .ok (after, afterBack)) :
    Kept initiator (theirs.versions responder.store) after afterBack ∧
      Kept responder (mine.versions initiator.store) afterBack after := by
  induction rounds generalizing reader readerBack kept keptBack with
  | zero => simp [exchange] at hok
  | succ rounds ih =>
    have hpage : ∀ row ∈ (nextPage initiator.source initiator.store reader).1,
        row ∈ mine.versions initiator.store := hmine ▸ page_stored mine hvalid reader
    have hpageBack : ∀ row ∈ (nextPage responder.source responder.store readerBack).1,
        row ∈ theirs.versions responder.store := htheirs ▸ page_stored theirs hvalidBack readerBack
    rw [exchange] at hok
    dsimp only at hok
    have hround := hkept.round responder
      (nextPage initiator.source initiator.store reader).1 hpageBack
    have hroundBack := hkeptBack.round initiator
      (nextPage responder.source responder.store readerBack).1 hpage
    split at hok
    · split at hok
      · simp only [Except.ok.injEq, Prod.mk.injEq] at hok
        obtain ⟨rfl, rfl⟩ := hok
        exact ⟨hround, hroundBack⟩
      · exact ih hround hroundBack hok
    · exact absurd hok (by simp)

/-- The reading side of a completed session: what it kept of the pages, its plan, and the
stream it took, served from the store `served` of the peer. -/
structure Reads (host : Host) (history : History S) (reader peer : Party S) (served : S)
    (base : SummaryWorkspace) (advertised : List ItemSummary) (side : Side S) : Prop where
  remote : ∀ row ∈ base.remote, row ∈ history.versions peer.store
  shown : ∀ version ∈ history.versions peer.store, 0 ≤ version.createdAt →
    peer.cursor.advertiseFrom reader.cursor.sinceMs ≤ summaryKey version → version ∈ base.remote
  offered : ∀ row ∈ base.remote, (lookup ItemSummary.itemId advertised row.itemId).isSome
  unique : (base.comparison.map ItemSummary.itemId).Nodup
  own : ∀ own ∈ base.comparison, ∃ ids, own ∈ reader.source.localSummaries reader.store ids
  compared : ∀ row ∈ base.remote, ∃ ids, row.itemId ∈ ids ∧
    ∀ own ∈ reader.source.localSummaries reader.store ids, own.itemId = row.itemId →
      (lookup ItemSummary.itemId base.comparison row.itemId).isSome
  same : side.workspace.remote = base.remote
  planned : Planned base side.workspace reader.now side.wanted
  mark : side.sinceMs =
    side.workspace.watermark reader.cursor.sinceMs side.wanted side.attempted
  took : ∃ stats served' received,
    receiveItems host reader.source.applyBatch reader.store side.wanted stats
      (serveItems host (peer.source.fetch served) advertised (request reader side.wanted)
        served').1 = .ok received ∧
      side.store = received.store ∧ side.attempted = received.applied ∧
      side.appliedFloor = received.floor

/-- Both sides of a completed session read. The initiator serves from the store it has
applied to. -/
theorem session_reads (host : Host) (mine theirs : History S) {initiator responder : Party S}
    (hmine : initiator.source = mine.toSyncSource) (htheirs : responder.source = theirs.toSyncSource)
    (harrange : ∀ rows, (initiator.arrange rows).Perm rows)
    (harrangeBack : ∀ rows, (responder.arrange rows).Perm rows)
    (hvalid : mine.Valid initiator.store) (hvalidBack : theirs.Valid responder.store)
    {side back : Side S} (hok : session host initiator responder = .ok (side, back)) :
    (∃ base advertised, Reads host theirs initiator responder responder.store base advertised
      side) ∧
    ∃ base advertised, Reads host mine responder initiator side.store base advertised back := by
  obtain ⟨kept, keptBack, received, receivedBack, hexchange, hreceived, hreceivedBack, rfl, rfl⟩ :=
    session_ok host hok
  obtain ⟨hshown, hshownBack⟩ := exchange_complete mine theirs hmine htheirs hvalid hvalidBack
    (sent_start _ _ _ _) (sent_start _ _ _ _) hexchange
  obtain ⟨hkept, hkeptBack⟩ := exchange_kept mine theirs hmine htheirs hvalid hvalidBack
    (kept_start _ _) (kept_start _ _) hexchange
  have hplan := planned harrange hkept.wanted initiator.now {}
  have hadvertised := hplan.considered.advertised
  refine ⟨⟨kept, keptBack.advertised, ?_⟩,
    ⟨keptBack, (kept.planWorkspace initiator.arrange initiator.now {}).1.advertised, ?_⟩⟩
  · exact {
      remote := hkept.remote
      shown := fun version hmem hstamp hle =>
        hshownBack version hmem (theirs.start_lt_place hvalidBack hmem hstamp hle)
      offered := hkept.advertised
      unique := hkept.unique
      own := hkept.own
      compared := hkept.compared
      same := SummaryWorkspace.remote_planWorkspace _ _ _ _
      planned := hplan
      mark := rfl
      took := ⟨_, _, received, hreceived, rfl, rfl, rfl⟩ }
  · exact {
      remote := hkeptBack.remote
      shown := fun version hmem hstamp hle =>
        hshown version hmem (mine.start_lt_place hvalid hmem hstamp hle)
      offered := by
        intro row hrow
        rw [hadvertised]
        exact hkeptBack.advertised row hrow
      unique := hkeptBack.unique
      own := hkeptBack.own
      compared := hkeptBack.compared
      same := SummaryWorkspace.remote_planWorkspace _ _ _ _
      planned := planned harrangeBack hkeptBack.wanted responder.now _
      mark := rfl
      took := ⟨_, _, receivedBack, hreceivedBack, rfl, rfl, rfl⟩ }

end CopyPaste.Peer.Reading
