import CopyPaste.Peer.Session

/-!
What a completed exchange has shown the peer. A history is a source whose pages
are read by keyset from the versions it stores, so the pages of a side together
hold every version at or above the stamp it started from.
-/

namespace CopyPaste.Peer.Advertise

open Lib.Keyset Lib.Rows Merge.Comparator Merge.Payload Cursor Plan Transfer Session

/-- A source over stored versions. `stamp` is the column its pages are ordered by,
which is the change key of every version that was not stamped before the epoch. -/
structure History (S : Type) extends SyncSource S where
  versions : S → List ItemSummary
  Valid : S → Prop
  stamp : ItemSummary → Int
  stamp_eq : ∀ store, Valid store → ∀ version ∈ versions store, 0 ≤ version.createdAt →
    stamp version = summaryKey version
  unique : ∀ store, Valid store → ((versions store).map ItemSummary.itemId).Nodup
  paged : ∀ store, Valid store → ∀ sinceMs afterId limit,
    summaryPage store sinceMs afterId limit =
      page (fun version => (⟨stamp version, some version.itemId⟩ : Reader)) (versions store)
        ⟨sinceMs, afterId⟩ limit
  valid_applyBatch : ∀ store, Valid store → ∀ items after stored,
    applyBatch store items = .ok (after, stored) → Valid after

variable {S : Type}

def History.place (history : History S) (version : ItemSummary) : Reader :=
  ⟨history.stamp version, some version.itemId⟩

variable {store : S} {start reader : Reader}

theorem History.nodup_place (history : History S) (h : history.Valid store) :
    ((history.versions store).map history.place).Nodup := by
  have hunique := history.unique store h
  refine List.Nodup.of_map (fun place : Reader => place.itemId) ?_
  rw [List.map_map]
  have hsome : ((fun place : Reader => place.itemId) ∘ history.place) =
      fun version : ItemSummary => some version.itemId := rfl
  have hcomp : (fun version : ItemSummary => some version.itemId) =
      some ∘ ItemSummary.itemId := rfl
  rw [hsome, hcomp, ← List.map_map]
  exact hunique.map (Option.some_injective _)

/-- A bare stamp stands before the rows at or above it. -/
theorem History.start_lt_place (history : History S) (h : history.Valid store)
    {version : ItemSummary} (hmem : version ∈ history.versions store)
    (hstamp : 0 ≤ version.createdAt) {since : Int} (hle : since ≤ summaryKey version) :
    (⟨since, none⟩ : Reader) < history.place version := by
  rw [History.place, history.stamp_eq store h version hmem hstamp, Position.lt_row_iff]
  rcases hle.lt_or_eq with hlt | heq
  · exact Or.inl hlt
  · exact Or.inr ⟨heq, by simp⟩

/-- The versions up to a reader are among those sent. -/
def Sent (history : History S) (store : S) (start reader : Reader) (sent : List ItemSummary) :
    Prop :=
  ∀ version ∈ history.versions store, start < history.place version →
    history.place version ≤ reader → version ∈ sent

theorem sent_start (history : History S) (store : S) (start : Reader) (sent : List ItemSummary) :
    Sent history store start start sent := by
  intro version _ hlt hle
  exact absurd hlt (not_lt.2 hle)

theorem nextPage_fst (history : History S) (h : history.Valid store) (reader : Reader) :
    (nextPage history.toSyncSource store reader).1 =
      page history.place (history.versions store) reader maxSummariesPerMessage := by
  unfold nextPage
  rw [history.paged store h]
  show List.take _ (List.take _ _) = List.take _ _
  rw [List.take_take, min_eq_left (Nat.le_succ _)]
  rfl

/-- A page carries a reader over the rows it holds. -/
theorem sent_nextPage (history : History S) (h : history.Valid store) {sent : List ItemSummary}
    (hsent : Sent history store start reader sent) {items : List ItemSummary} {more : Bool}
    (hpage : nextPage history.toSyncSource store reader = (items, more))
    (hvalid : ∀ item ∈ items, validSummary item) :
    Sent history store start (Reader.after reader items) (sent ++ items) := by
  have hitems : items = page history.place (history.versions store) reader
      maxSummariesPerMessage := by
    rw [← nextPage_fst history h, hpage]
  have hseg : Segment history.place (history.versions store) reader items := by
    rw [hitems]
    exact segment_page (history.nodup_place h) reader maxSummariesPerMessage
  intro version hmem hstart hle
  rw [List.mem_append]
  rcases le_or_gt (history.place version) reader with hbefore | hpast
  · exact Or.inl (hsent version hmem hstart hbefore)
  · refine Or.inr ?_
    unfold Reader.after at hle
    cases hlast : items.getLast? with
    | none => simp [hlast, not_le.2 hpast] at hle
    | some last =>
      have hin : last ∈ items := List.mem_of_getLast? hlast
      have hstamp : 0 ≤ last.createdAt := by
        have hbounds := hvalid last hin
        simp only [validSummary, Bool.and_eq_true, decide_eq_true_eq] at hbounds
        exact hbounds.1.1.2
      have hplace : history.place last = ⟨summaryKey last, some last.itemId⟩ := by
        rw [History.place, history.stamp_eq store h last (hseg.stored last hin) hstamp]
      rw [hlast] at hle
      exact hseg.gapless version hmem hpast last hin (hplace ▸ hle)

/-- The last page leaves nothing behind it. -/
theorem sent_lastPage (history : History S) (h : history.Valid store) {sent : List ItemSummary}
    (hsent : Sent history store start reader sent) {items : List ItemSummary}
    (hpage : nextPage history.toSyncSource store reader = (items, false)) {version : ItemSummary}
    (hmem : version ∈ history.versions store) (hstart : start < history.place version) :
    version ∈ sent ++ items := by
  rw [List.mem_append]
  rcases le_or_gt (history.place version) reader with hbefore | hpast
  · exact Or.inl (hsent version hmem hstart hbefore)
  · refine Or.inr ?_
    have hmore : ¬ maxSummariesPerMessage < (history.summaryPage store reader.createdAt
        reader.itemId (maxSummariesPerMessage + 1)).length := by
      have := congrArg Prod.snd hpage
      simpa [nextPage] using this
    have hshort : (page history.place (history.versions store) reader
        (maxSummariesPerMessage + 1)).length < maxSummariesPerMessage + 1 := by
      have heq := history.paged store h reader.createdAt reader.itemId (maxSummariesPerMessage + 1)
      have hlen := congrArg List.length heq
      have hplace : (page history.place (history.versions store) reader
        (maxSummariesPerMessage + 1)).length = _ := hlen.symm
      omega
    have hfull := (mem_page_iff_of_short hshort version).2 ⟨hmem, hpast⟩
    have hitems : items = (history.summaryPage store reader.createdAt reader.itemId
        (maxSummariesPerMessage + 1)).take maxSummariesPerMessage := by
      have := congrArg Prod.fst hpage
      simpa [nextPage] using this.symm
    rw [hitems, List.take_of_length_le (not_lt.1 hmore), history.paged store h]
    exact hfull

/-- Each side of a completed exchange has seen every version the other stores past
the stamp it advertised from. -/
theorem exchange_complete (mine theirs : History S) {initiator responder : Party S}
    (hmine : initiator.source = mine.toSyncSource)
    (htheirs : responder.source = theirs.toSyncSource) (hvalid : mine.Valid initiator.store)
    (hvalidBack : theirs.Valid responder.store) {startBack : Reader} {rounds : Nat}
    {readerBack : Reader} {kept keptBack after afterBack : SummaryWorkspace}
    (hsent : Sent mine initiator.store start reader keptBack.remote)
    (hsentBack : Sent theirs responder.store startBack readerBack kept.remote)
    (hok : exchange initiator responder rounds reader readerBack kept keptBack =
      .ok (after, afterBack)) :
    (∀ version ∈ mine.versions initiator.store, start < mine.place version →
      version ∈ afterBack.remote) ∧
    ∀ version ∈ theirs.versions responder.store, startBack < theirs.place version →
      version ∈ after.remote := by
  induction rounds generalizing reader readerBack kept keptBack with
  | zero => simp [exchange] at hok
  | succ rounds ih =>
    rw [exchange] at hok
    obtain ⟨items, more, hpage⟩ : ∃ items more,
        nextPage initiator.source initiator.store reader = (items, more) := ⟨_, _, rfl⟩
    obtain ⟨peerItems, peerMore, hpageBack⟩ : ∃ items more,
        nextPage responder.source responder.store readerBack = (items, more) := ⟨_, _, rfl⟩
    simp only [hpage, hpageBack] at hok
    rw [hmine] at hpage
    rw [htheirs] at hpageBack
    split at hok
    · rename_i hall
      have hboth : ∀ item ∈ items ++ peerItems, validSummary item := List.all_eq_true.1 hall
      split at hok
      · -- Neither side has more, so both pages are the last ones.
        rename_i hdone
        simp only [Bool.and_eq_true, Bool.not_eq_true'] at hdone
        rw [hdone.1] at hpage
        rw [hdone.2] at hpageBack
        simp only [Except.ok.injEq, Prod.mk.injEq] at hok
        obtain ⟨rfl, rfl⟩ := hok
        exact ⟨fun version hmem hlt => sent_lastPage mine hvalid hsent hpage hmem hlt,
          fun version hmem hlt => sent_lastPage theirs hvalidBack hsentBack hpageBack hmem hlt⟩
      · refine ih ?_ ?_ hok
        · exact sent_nextPage mine hvalid hsent hpage
            fun item h => hboth item (List.mem_append_left _ h)
        · exact sent_nextPage theirs hvalidBack hsentBack hpageBack
            fun item h => hboth item (List.mem_append_right _ h)
    · exact absurd hok (by simp)

end CopyPaste.Peer.Advertise
