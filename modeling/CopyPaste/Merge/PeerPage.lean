import CopyPaste.Merge.Decide

/-!
A peer's page against its items one at a time. The page decides every item against
one snapshot and stores the pin states whose content lost after all content; one
at a time, an item meets the store its predecessors left and its pin state follows
at once. The content comes out the same. A pin state does not when the page never
offers it, or offers it only after a record that pins the same clip.
-/

namespace CopyPaste.Merge.PeerPage

open Lib.Rows Comparator Payload Storage Prepare Batch Effects Pages Repin Decide
open Upload.Scanning

/-- The snapshot answers for an id as the store does, but for a record that has
pinned the clip since. -/
def Foretold (held : List Version) (store : Store) (id : String) : Prop :=
  store.versionSummary id = lookup Version.id held id ∨
    ∃ version known, lookup Version.id held id = some version ∧
      lookup PinState.clipId store.pinStates id = some known ∧ version.deleted = false ∧
      version.pinUpdatedAt ≤ known.updatedAt ∧
      store.versionSummary id = some (pinnedBy version known)

variable {held : List Version} {store : Store} {id : String} {incoming : Incoming}
  {ready : Prepared} {pin : P2pPin}

theorem Foretold.content (h : Foretold held store id) :
    (lookup Version.id held id).map unpinnedVersion =
      (store.versionSummary id).map unpinnedVersion := by
  rcases h with heq | ⟨version, known, hheld, -, -, -, heq⟩
  · rw [heq]
  · rw [hheld, heq]
    rfl

variable (host : Host)

/-- The winning pin state of a version against the organization's pin of its clip:
it wins when it is newer. -/
theorem remotePinWins_of_lt (item : RemoteVersion) (pin : P2pPin) (version : Version)
    (hlive : item.deleted = false) (hlt : version.pinUpdatedAt < pin.pinUpdatedAt) :
    remotePinWins host item pin (some version) = true := by
  unfold remotePinWins
  rw [hlive, Option.all_some, Bool.not_false, Bool.true_and, pinStateWins_iff]
  unfold ItemSummary.pinKey Comparator.pinKey
  rw [Prod.Lex.toLex_lt_toLex]
  exact Or.inl hlt

/-- Writing a winner decided against the snapshot or against the store is one and
the same. -/
theorem upsert_foretold {item : RemoteVersion} (h : Foretold held store item.itemId)
    (pin : P2pPin) :
    store.upsert host (prepared host item
        (some (pin.against host item (lookup Version.id held item.itemId)))
        (lookup Version.id held item.itemId)).toIncomingItem =
      store.upsert host (prepared host item
        (some (pin.against host item (store.versionSummary item.itemId)))
        (store.versionSummary item.itemId)).toIncomingItem := by
  rcases h with heq | ⟨version, known, hheld, hknown, -, hle, heq⟩
  · rw [heq]
  · have hhash : remoteContentHash host item (some version) =
        remoteContentHash host item (some (pinnedBy version known)) :=
      remoteContentHash_congr host item rfl
    rw [hheld, heq, upsert_repinned host store _
      (mergedPin item (some (pin.against host item (some (pinnedBy version known))))
        (some (pinnedBy version known)))]
    · unfold prepared repinned
      simp only [hhash]
    · intro _ hdeleted
      have hlive : item.deleted = false := hdeleted
      rw [projected_known hknown hlive, projected_known hknown hlive]
      -- Only a pin state above the organization's survives, and that one wins twice.
      by_cases hlt : known.updatedAt < pin.pinUpdatedAt
      · have hwins := remotePinWins_of_lt host item pin version hlive (hle.trans_lt hlt)
        have hwins' := remotePinWins_of_lt host item pin (pinnedBy version known) hlive hlt
        simp only [Store.rowOf, prepared, repinned, mergedPin, P2pPin.against, hwins, hwins', hlive,
          hhash]
      · have hbound : ∀ held : Version, held.pinUpdatedAt ≤ known.updatedAt →
            (mergedPin item (some (pin.against host item (some held))) (some held)).2.2 ≤
              known.updatedAt := by
          intro held hheld
          unfold mergedPin P2pPin.against
          rw [if_neg (by simp [hlive])]
          cases remotePinWins host item pin (some held) with
          | true => exact not_lt.1 hlt
          | false => exact hheld
        rw [if_pos, if_pos]
        · rfl
        · simp only [Store.rowOf, repinned, prepared, hlive]
          exact hbound _ le_rfl
        · simp only [Store.rowOf, prepared, hlive]
          exact hbound _ hle

/-- A pin state wins against the snapshot when it wins against the store, unless
the organization's pin keeps it out. -/
theorem remotePinWins_foretold {item : RemoteVersion} (h : Foretold held store item.itemId)
    (pin : P2pPin) :
    Blocked store item.itemId pin ∨
      remotePinWins host item pin (lookup Version.id held item.itemId) =
        remotePinWins host item pin (store.versionSummary item.itemId) := by
  rcases h with heq | ⟨version, known, hheld, hknown, -, hle, heq⟩
  · rw [heq]
    exact Or.inr rfl
  · rw [hheld, heq]
    by_cases hlt : known.updatedAt < pin.pinUpdatedAt
    · right
      cases hlive : item.deleted with
      | true => simp [remotePinWins, hlive]
      | false =>
        rw [remotePinWins_of_lt host item pin version hlive (hle.trans_lt hlt),
          remotePinWins_of_lt host item pin (pinnedBy version known) hlive hlt]
    · exact Or.inl ⟨known, hknown, not_lt.1 hlt⟩

theorem Foretold.pinAlone {other : String} (h : Foretold held store other) (hwf : WellFormed store)
    (pin : P2pPin) (hne : other ≠ id) : Foretold held (pinAlone store id pin).1 other := by
  have hpins : (Repin.pinAlone store id pin).1.pinStates = store.pinStates := by
    by_cases hblocked : Blocked store id pin
    · rw [pinAlone_blocked hblocked]
    · rw [(pinAlone_open hblocked).1, mapItems]
  unfold Foretold
  rw [versionSummary_pinAlone_ne hwf pin hne, hpins]
  exact h

/-- The snapshot keeps answering for an id while newer versions of others are
written. -/
theorem Foretold.upsert (h : Foretold held store id) (hwf : WellFormed store)
    (hpins : PinsRecorded host store) {incoming : IncomingItem} (hnewest : Newest store incoming)
    (hne : incoming.id ≠ id) : Foretold held (store.upsert host incoming).1 id := by
  by_cases hclip : PinsClip host incoming id
  · cases hstored : (store.upsert host incoming).2 with
    | false =>
      rw [upsert_false host hstored]
      exact h
    | true =>
      obtain ⟨pin, hpin, hstamp, -, hafter⟩ := versionSummary_pinned host hwf hclip hstored
      have hmono := hpins.stamp_le hnewest hclip hstored
      rcases h with heq | ⟨version, known, hheld, hknown, hlive, hle, heq⟩
      · rw [heq] at hafter
        cases hlookup : lookup Version.id held id with
        | none =>
          rw [hlookup] at hafter
          exact Or.inl (hafter.trans hlookup.symm)
        | some version =>
          rw [hlookup, Option.map_some] at hafter
          by_cases hcond : version.deleted = false ∧ version.pinUpdatedAt ≤ pin.updatedAt
          · rw [if_pos hcond] at hafter
            exact Or.inr ⟨version, pin, hlookup, hpin, hcond.1, hcond.2, hafter⟩
          · rw [if_neg hcond] at hafter
            exact Or.inl (hafter.trans hlookup.symm)
      · have hknownLe : known.updatedAt ≤ pin.updatedAt := hstamp ▸ hmono known hknown
        rw [heq, Option.map_some, if_pos ⟨hlive, hknownLe⟩] at hafter
        exact Or.inr ⟨version, pin, hheld, hpin, hlive, hle.trans hknownLe, hafter⟩
  · unfold Foretold
    rw [versionSummary_upsert_ne host hwf hne hclip, pinStates_upsert host hclip]
    exact h

/-- For distinct ids no decision depends on another. -/
theorem decisions_eq (page : List Incoming) (held : List Version)
    (hnodup : (page.map fun incoming => incoming.1.itemId).Nodup)
    (hsize : ∀ incoming ∈ page, WithinLimit incoming.1) :
    decisions host held page = .ok (page.map (decisionOf host held)) := by
  induction page generalizing held with
  | nil => rfl
  | cons incoming rest ih =>
    rw [List.map_cons, List.nodup_cons] at hnodup
    have hlater : rest.map (decisionOf host
        ((decisionOf host held incoming).thread host held)) = rest.map (decisionOf host held) := by
      refine List.map_congr_left fun later hlater => ?_
      have hne : incoming.1.itemId ≠ later.1.itemId := fun heq =>
        hnodup.1 (heq ▸ List.mem_map_of_mem hlater)
      have hlookup : lookup Version.id ((decisionOf host held incoming).thread host held)
          later.1.itemId = lookup Version.id held later.1.itemId := by
        cases hdecision : decisionOf host held incoming with
        | refused | lost => rfl
        | won ready =>
          have hready : (ready.asVersion host).id = incoming.1.itemId := by
            rw [(decisionAgainst_won host hdecision).2.2]
            rfl
          rw [Decision.thread, lookup_put, hready, if_neg hne]
      rw [decisionOf, hlookup, decisionOf]
    unfold decisions
    rw [decideRow_eq host (hsize incoming List.mem_cons_self)]
    simp only [bind, Except.bind]
    rw [ih _ hnodup.2 fun x hx => hsize x (List.mem_cons_of_mem _ hx), hlater]
    rfl

/-- A page with its decisions against a snapshot. -/
def planned (held : List Version) (page : List Incoming) : List (Incoming × Decision) :=
  page.map fun incoming => (incoming, decisionOf host held incoming)

/-- A planned write of a page: the id of its item, winning against the store. -/
theorem planned_won (hwf : WellFormed store) {page : List Incoming}
    (hheld : ∀ incoming ∈ page, Foretold held store incoming.1.itemId)
    (h : (incoming, Decision.won ready) ∈ planned host held page) :
    incoming ∈ page ∧ ready.id = incoming.1.itemId ∧ Newest store ready.toIncomingItem := by
  obtain ⟨x, hx, heq⟩ := List.mem_map.1 h
  obtain ⟨rfl, hdecision⟩ := Prod.mk.inj heq
  obtain ⟨-, hloses, rfl⟩ := decisionAgainst_won host hdecision
  refine ⟨hx, rfl, newest_prepared host hwf ?_ _ _⟩
  rw [← losesTo_congr host x.1 (hheld x hx).content]
  exact hloses

/-- Later writes of other ids replace no newer record either. -/
theorem newest_upsert {incoming other : IncomingItem} (h : Newest store other)
    (hne : incoming.id ≠ other.id) : Newest (store.upsert host incoming).1 other := by
  intro row hrow hid
  refine h row ?_ hid
  by_cases hkind : incoming.contentType = recordContentType
  · rcases upsert_record host hkind with heq | ⟨text, record, -, -, -, heq⟩
    · rw [heq] at hrow
      exact hrow
    · rw [heq, records_recorded] at hrow
      rcases (mem_put _ _ _).1 hrow with ⟨hmem, -⟩ | rfl
      · exact hmem
      · exact absurd hid hne
  · cases hrec : isRecordId incoming.id with
    | true =>
      unfold Store.upsert at hrow
      rw [if_neg hkind, if_pos hrec] at hrow
      exact hrow
    | false =>
      rw [upsert_item host hkind hrec] at hrow
      split at hrow
      · exact hrow
      · exact hrow

/-- What the writes of a page are: newer than the store's records, of distinct
ids. -/
structure Writes (store : Store) (rows : List (Incoming × Decision)) : Prop where
  newest : ∀ incoming ready, (incoming, Decision.won ready) ∈ rows →
    ready.id = incoming.1.itemId ∧ Newest store ready.toIncomingItem
  nodup : (rows.map fun row => row.1.1.itemId).Nodup

theorem Writes.tail {decision : Decision} {rest : List (Incoming × Decision)}
    (h : Writes store ((incoming, decision) :: rest)) : Writes store rest := by
  refine ⟨fun x ready hx => h.newest x ready (List.mem_cons_of_mem _ hx), ?_⟩
  have hnodup := h.nodup
  rw [List.map_cons, List.nodup_cons] at hnodup
  exact hnodup.2

theorem Writes.upsert {rest : List (Incoming × Decision)}
    (h : Writes store ((incoming, .won ready) :: rest)) :
    Writes (store.upsert host ready.toIncomingItem).1 rest := by
  refine ⟨fun x later hx => ?_, h.tail.nodup⟩
  obtain ⟨hid, hnewest⟩ := h.tail.newest x later hx
  refine ⟨hid, newest_upsert host hnewest ?_⟩
  have hnodup := h.nodup
  rw [List.map_cons, List.nodup_cons] at hnodup
  have hready := (h.newest incoming ready List.mem_cons_self).1
  intro heq
  refine hnodup.1 (List.mem_map.2 ⟨(x, .won later), hx, ?_⟩)
  exact (hid.symm.trans (heq.symm.trans hready))

/-- A pin state stored before the writes of a page might as well be stored after
them, unless one of them pins its clip at or above its stamp. -/
theorem pinAlone_writeAll (rows : List (Incoming × Decision)) (store : Store) (id : String)
    (pin : P2pPin) (hpins : PinsRecorded host store) (h : Writes store rows)
    (hid : ∀ row ∈ rows, row.1.1.itemId ≠ id)
    (hover : (pinAlone store id pin).2 = true → ∀ incoming ready,
      (incoming, Decision.won ready) ∈ rows → PinsClip host ready.toIncomingItem id →
        ready.createdAt < pin.pinUpdatedAt) :
    writeAll host (pinAlone store id pin).1 rows =
        ((pinAlone (writeAll host store rows).1 id pin).1, (writeAll host store rows).2) ∧
      (pinAlone (writeAll host store rows).1 id pin).2 = (pinAlone store id pin).2 := by
  induction rows generalizing store with
  | nil => exact ⟨rfl, rfl⟩
  | cons row rest ih =>
    obtain ⟨incoming, decision⟩ := row
    have hid' := fun row hrow => hid row (List.mem_cons_of_mem _ hrow)
    cases decision with
    | refused | lost wins =>
      obtain ⟨h1, h2⟩ := ih store hpins h.tail hid' fun hb x ready hx =>
        hover hb x ready (List.mem_cons_of_mem _ hx)
      simp only [writeAll, h1]
      exact ⟨trivial, h2⟩
    | won ready =>
      obtain ⟨hready, hnewest⟩ := h.newest incoming ready List.mem_cons_self
      have hne : ready.id ≠ id := hready ▸ hid _ List.mem_cons_self
      obtain ⟨hcomm, hsame⟩ := pinAlone_upsert host store id pin ready.toIncomingItem hne (by
          intro hclip hstored
          cases hb : (pinAlone store id pin).2 with
          | true => exact Or.inl ⟨rfl, hover hb incoming ready List.mem_cons_self hclip⟩
          | false => exact Or.inr ⟨rfl, hpins.stamp_le hnewest hclip hstored⟩)
      obtain ⟨h1, h2⟩ := ih (store.upsert host ready.toIncomingItem).1 (hpins.upsert hnewest)
        (h.upsert host) hid' fun hb x later hx =>
          hover (hsame ▸ hb) x later (List.mem_cons_of_mem _ hx)
      simp only [writeAll, hcomm, h1]
      exact ⟨trivial, h2.trans hsame⟩

/-- Once a clip's pin is at or above a stamp it stays there. -/
theorem blocked_upsert (h : Blocked store id pin) (hpins : PinsRecorded host store)
    {incoming : IncomingItem} (hnewest : Newest store incoming) :
    Blocked (store.upsert host incoming).1 id pin := by
  obtain ⟨known, hknown, hle⟩ := h
  by_cases hclip : PinsClip host incoming id
  · cases hstored : (store.upsert host incoming).2 with
    | false =>
      rw [upsert_false host hstored]
      exact ⟨known, hknown, hle⟩
    | true =>
      obtain ⟨known', hknown', hstamp⟩ := pinStates_clip host hclip hstored
      have hmono := hpins.stamp_le hnewest hclip hstored known hknown
      exact ⟨known', hknown', hstamp ▸ hle.trans hmono⟩
  · exact ⟨known, (pinStates_upsert host hclip store).trans hknown, hle⟩

theorem blocked_writeAll {rows : List (Incoming × Decision)} (h : Blocked store id pin)
    (hpins : PinsRecorded host store) (hwrites : Writes store rows) :
    Blocked (writeAll host store rows).1 id pin := by
  induction rows generalizing store with
  | nil => exact h
  | cons row rest ih =>
    obtain ⟨incoming, decision⟩ := row
    cases decision with
    | refused | lost wins => exact ih h hpins hwrites.tail
    | won ready =>
      have hnewest := (hwrites.newest incoming ready List.mem_cons_self).2
      exact ih (blocked_upsert host h hpins hnewest) (hpins.upsert hnewest) (hwrites.upsert host)

/-- A page that writes a record pinning the clip at or above a stamp keeps a pin
state of that stamp out. -/
theorem blocked_of_record {rows : List (Incoming × Decision)} (hpins : PinsRecorded host store)
    (hwrites : Writes store rows) (hmem : (incoming, Decision.won ready) ∈ rows)
    (hclip : PinsClip host ready.toIncomingItem id)
    (hvalid : ∀ store : Store, (store.upsert host ready.toIncomingItem).2 = true)
    (hle : pin.pinUpdatedAt ≤ ready.createdAt) : Blocked (writeAll host store rows).1 id pin := by
  induction rows generalizing store with
  | nil => simp at hmem
  | cons row rest ih =>
    rcases List.mem_cons.1 hmem with rfl | hrest
    · obtain ⟨known, hknown, hstamp⟩ := pinStates_clip host hclip (hvalid store)
      have hnewest := (hwrites.newest incoming ready List.mem_cons_self).2
      have hblocked : Blocked (store.upsert host ready.toIncomingItem).1 id pin :=
        ⟨known, hknown, hle.trans hstamp.ge⟩
      have hrest := blocked_writeAll host hblocked (hpins.upsert hnewest) (hwrites.upsert host)
      exact hrest
    · obtain ⟨other, decision⟩ := row
      cases decision with
      | refused | lost wins => exact ih hpins hwrites.tail hrest
      | won later =>
        have hnewest := (hwrites.newest other later List.mem_cons_self).2
        exact ih (hpins.upsert hnewest) (hwrites.upsert host) hrest

end CopyPaste.Merge.PeerPage
