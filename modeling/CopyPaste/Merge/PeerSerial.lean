import CopyPaste.Merge.PeerPage

/-!
When a peer's page is its items one at a time. Exactly one thing can differ: a pin
state that one at a time is stored alone. The page drops it when the payload is
refused or the winning content meets the dedup index, and stores it too late when
a record further down the page pins the same clip.
-/

namespace CopyPaste.Merge.PeerSerial

open Lib.Rows Comparator Payload Storage Prepare Batch Effects Pages Repin Decide PeerPage
open Upload.Scanning

variable (host : Host)

/-- Whether a pin state can be stored alone: it beats the one of the row, the row
is live, and the organization's pin of the clip is older. -/
def pinTakes (store : Store) (item : RemoteVersion) (pin : P2pPin) : Bool :=
  remotePinWins host item pin (store.versionSummary item.itemId) &&
    !((lookup PinState.clipId store.pinStates item.itemId).any fun known =>
      decide (pin.pinUpdatedAt ≤ known.updatedAt)) &&
    store.items.any fun row => decide (row.id = item.itemId) && !row.deleted

def pinsClip (item : RemoteVersion) (clipId : String) : Bool :=
  decide (item.contentType = recordContentType) &&
    match (organizationText item).bind host.parseRecord with
    | some (.pin clip _ _) => decide (clip = clipId)
    | _ => false

/-- Whether a version is a record the store takes, pinning the clip at or above a
stamp. -/
def overrides (store : Store) (clipId : String) (stamp : Int) (later : RemoteVersion) : Bool :=
  !payloadIsRefused host later && !losesTo host (store.versionSummary later.itemId) later &&
    pinsClip host later clipId && decide (stamp ≤ later.createdAt)

/-- Whether the page does with the pin state of its first item what the item alone
would: there is nothing to store alone, or the content carries the pin, or the
content loses and nothing later in the page pins the clip at or above it. -/
def pinKept (store : Store) (item : RemoteVersion) (pin : P2pPin)
    (rest : List (RemoteVersion × P2pPin)) : Bool :=
  !pinTakes host store item pin || !payloadIsRefused host item &&
    if losesTo host (store.versionSummary item.itemId) item then
      rest.all fun later => !overrides host store item.itemId pin.pinUpdatedAt later.1
    else
      decide (Fits host store (prepared host item
        (some (pin.against host item (store.versionSummary item.itemId)))
        (store.versionSummary item.itemId)).toIncomingItem)

/-- Each item at the store its predecessors leave. -/
def pinsKept (store : Store) : List (RemoteVersion × P2pPin) → Bool
  | [] => true
  | (item, pin) :: rest =>
    pinKept host store item pin rest &&
      match applyRemoteP2pVersionWithPinStamp host store item pin with
      | .ok (after, _) => pinsKept after rest
      | .error _ => true

def lifted (page : List (RemoteVersion × P2pPin)) : List Incoming :=
  page.map fun (item, pin) => (item, some pin)

/-- What is left to do for the pin state of an item whose content was not stored. -/
def pinAfter (store : Store) (item : RemoteVersion) (pin : P2pPin) : Store × Bool :=
  if remotePinWins host item pin (store.versionSummary item.itemId) then
    pinAlone store item.itemId pin
  else (store, false)

theorem pinAfter_snd (store : Store) (item : RemoteVersion) (pin : P2pPin) :
    (pinAfter host store item pin).2 = pinTakes host store item pin := by
  unfold pinAfter pinTakes pinAlone Store.applyPinState
  cases remotePinWins host item pin (store.versionSummary item.itemId) with
  | false => rfl
  | true =>
    cases (lookup PinState.clipId store.pinStates item.itemId).any fun known =>
        decide (pin.pinUpdatedAt ≤ known.updatedAt) with
    | true => rfl
    | false => simp

variable {item : RemoteVersion}

theorem pinAfter_false {store : Store} {pin : P2pPin} (h : pinTakes host store item pin = false) :
    pinAfter host store item pin = (store, false) := by
  have hsnd := (pinAfter_snd host store item pin).trans h
  unfold pinAfter at hsnd ⊢
  split
  · rename_i hwins
    rw [if_pos hwins] at hsnd
    exact Prod.ext (pinAlone_false hsnd) hsnd
  · rfl

theorem pinAfter_true {store : Store} {pin : P2pPin} (h : pinTakes host store item pin = true) :
    remotePinWins host item pin (store.versionSummary item.itemId) = true ∧
      pinAfter host store item pin = pinAlone store item.itemId pin ∧
      (pinAlone store item.itemId pin).2 = true := by
  have hsnd := (pinAfter_snd host store item pin).trans h
  have hwins : remotePinWins host item pin (store.versionSummary item.itemId) = true := by
    by_contra hnot
    unfold pinAfter at hsnd
    rw [if_neg hnot] at hsnd
    simp at hsnd
  have heq : pinAfter host store item pin = pinAlone store item.itemId pin := if_pos hwins
  exact ⟨hwins, heq, heq ▸ hsnd⟩

/-- One item by itself, by its decision. -/
theorem applyOne_eq (store : Store) (pin : P2pPin) (hsize : WithinLimit item) :
    applyRemoteP2pVersionWithPinStamp host store item pin =
      .ok (match decisionAgainst host (store.versionSummary item.itemId) (item, some pin) with
        | .won ready =>
          if (store.upsert host ready.toIncomingItem).2 then
            ((store.upsert host ready.toIncomingItem).1, ⟨true, false⟩)
          else ((pinAfter host store item pin).1, ⟨false, (pinAfter host store item pin).2⟩)
        | _ => ((pinAfter host store item pin).1, ⟨false, (pinAfter host store item pin).2⟩)) := by
  unfold applyRemoteP2pVersionWithPinStamp decisionAgainst applyRemoteVersionWithPinState
  simp only [prepareRemoteVersion_eq host hsize]
  have hpin : (if remotePinWins host item pin (store.versionSummary item.itemId) then
      (.ok ((pinAlone store item.itemId pin).1, ⟨false, (pinAlone store item.itemId pin).2⟩) :
        Except MergeError (Store × P2pApply))
      else .ok (store, ⟨false, false⟩)) =
      .ok ((pinAfter host store item pin).1, ⟨false, (pinAfter host store item pin).2⟩) := by
    unfold pinAfter
    split <;> rfl
  unfold pinAlone at hpin
  cases payloadIsRefused host item with
  | true => simpa [bind, Except.bind, pure, Except.pure] using hpin
  | false =>
    cases losesTo host (store.versionSummary item.itemId) item with
    | true => simpa [bind, Except.bind, pure, Except.pure] using hpin
    | false =>
      simp only [Bool.false_eq_true, if_false, bind, Except.bind, pure, Except.pure, Option.map_some]
      cases hstored : (store.upsert host (prepared host item
          (some (pin.against host item (store.versionSummary item.itemId)))
          (store.versionSummary item.itemId)).toIncomingItem).2 with
      | true => simp
      | false =>
        simp only [Bool.not_false, Bool.true_and, Bool.false_eq_true, if_false]
        rw [upsert_false host hstored]
        exact hpin

/-- Without a repeated id nothing is applied again. -/
theorem redo_distinct (rows : List (Entry × P2pApply)) (refused : List String) (store : Store)
    (hnodup : (rows.map fun row => row.1.incoming.1.itemId).Nodup)
    (hfresh : ∀ row ∈ rows, row.1.incoming.1.itemId ∉ refused) :
    redo host refused store rows = .ok (store, rows.map Prod.snd) := by
  induction rows generalizing refused with
  | nil => rfl
  | cons row rest ih =>
    obtain ⟨entry, flags⟩ := row
    rw [List.map_cons, List.nodup_cons] at hnodup
    have hskip : (flags.any || decide (entry.incoming.1.itemId ∉ refused)) = true := by
      have hhead := hfresh _ List.mem_cons_self
      simp [hhead]
    have hrest : ∀ row ∈ rest, row.1.incoming.1.itemId ∉ (if entry.outcome = some false then
        entry.incoming.1.itemId :: refused else refused) := by
      intro row hrow hmem
      have hold := hfresh row (List.mem_cons_of_mem _ hrow)
      split at hmem
      · rcases List.mem_cons.1 hmem with heq | hmem
        · exact hnodup.1 (List.mem_map.2 ⟨row, hrow, heq⟩)
        · exact hold hmem
      · exact hold hmem
    unfold redo
    simp only [hskip, if_true, bind, Except.bind, pure, Except.pure]
    rw [ih _ hnodup.2 hrest]
    rfl

/-- The writes and the pins of a page, decided against a snapshot. -/
def paged (held : List Version) (store : Store) (page : List Incoming) :
    Store × List (Entry × P2pApply) :=
  pinPass (writeAll host store (planned host held page)).1
    (writeAll host store (planned host held page)).2

theorem paged_incoming (held : List Version) (store : Store) (page : List Incoming) :
    (paged host held store page).2.map (fun row => row.1.incoming) = page := by
  calc (paged host held store page).2.map (fun row => row.1.incoming)
      = ((paged host held store page).2.map Prod.fst).map Entry.incoming := by
        rw [List.map_map]
        rfl
    _ = (planned host held page).map Prod.fst := by rw [paged, pinPass_fst, writeAll_incoming]
    _ = page := by
        rw [planned, List.map_map]
        exact List.map_id page

private theorem zip_decisionOf (held : List Version) (page : List Incoming) :
    page.zip (page.map (decisionOf host held)) = planned host held page := by
  have hself : (page.map fun incoming => incoming).zip (page.map (decisionOf host held)) =
      planned host held page := List.zip_map'
  rwa [List.map_id'] at hself

theorem applyRemoteP2pVersions_eq (store : Store) (page : List (RemoteVersion × P2pPin))
    (hnodup : (page.map fun row => row.1.itemId).Nodup)
    (hsize : ∀ row ∈ page, WithinLimit row.1) :
    applyRemoteP2pVersions host store page =
      .ok ((paged host (store.versionSummaries (page.map fun row => row.1.itemId)) store
          (lifted page)).1,
        (paged host (store.versionSummaries (page.map fun row => row.1.itemId)) store
          (lifted page)).2.map Prod.snd) := by
  have hids : (lifted page).map (fun incoming => incoming.1.itemId) =
      page.map fun row => row.1.itemId := by
    rw [lifted, List.map_map]
    rfl
  have hsize' : ∀ incoming ∈ lifted page, WithinLimit incoming.1 := by
    intro incoming hincoming
    obtain ⟨row, hrow, rfl⟩ := List.mem_map.1 hincoming
    exact hsize row hrow
  have hpage : applyRemoteP2pVersions host store page = applyPage host store (lifted page) := rfl
  rw [hpage, applyPage_eq, hids, decisions_eq host _ _ (by rw [hids]; exact hnodup) hsize']
  simp only [bind, Except.bind, zip_decisionOf]
  refine redo_distinct host _ [] _ ?_ (by simp)
  have hentries := congrArg (List.map fun incoming => incoming.1.itemId) (paged_incoming host
    (store.versionSummaries (page.map fun row => row.1.itemId)) store (lifted page))
  rw [List.map_map, hids] at hentries
  exact (congrArg List.Nodup hentries).mpr hnodup

theorem pinsClip_iff (item : RemoteVersion) (clipId : String) :
    pinsClip host item clipId = true ↔ item.contentType = recordContentType ∧
      ∃ text pinned order, organizationText item = some text ∧
        host.parseRecord text = some (.pin clipId pinned order) := by
  unfold pinsClip
  rw [Bool.and_eq_true, decide_eq_true_eq]
  refine and_congr_right fun _ => ?_
  cases organizationText item with
  | none => simp
  | some text =>
    cases hparse : host.parseRecord text with
    | none => simp [hparse]
    | some record =>
      cases record with
      | tag | membership => simp [hparse]
      | pin clip pinned order =>
        simp only [Option.bind_some, hparse, decide_eq_true_eq]
        constructor
        · intro heq
          exact ⟨text, pinned, order, rfl, by rw [hparse, heq]⟩
        · rintro ⟨text', pinned', order', htext, hrecord⟩
          rw [← Option.some.inj htext, hparse] at hrecord
          exact (Record.pin.inj (Option.some.inj hrecord)).1

/-- The winning version carries its record into the write. -/
theorem pinsClip_prepared (item : RemoteVersion) (pin : Option RemotePin) (held : Option Version)
    (clipId : String) :
    PinsClip host (prepared host item pin held).toIncomingItem clipId ↔
      pinsClip host item clipId = true := by
  rw [pinsClip_iff]
  unfold PinsClip prepared
  refine and_congr_right fun hkind => ?_
  simp only [if_pos hkind]

section Planned

variable {host}
variable {held : List Version} {store : Store} {rest : List (RemoteVersion × P2pPin)}
variable (hheld : ∀ row ∈ rest, Foretold held store row.1.itemId)

include hheld

/-- A record of the page that overrides a pin state is written and keeps it out. -/
theorem overrides_blocks {id : String} {pin : P2pPin} {later : RemoteVersion × P2pPin}
    (hlater : later ∈ rest) (h : overrides host store id pin.pinUpdatedAt later.1 = true)
    (hpins : PinsRecorded host store) (hwrites : Writes store (planned host held (lifted rest))) :
    Blocked (writeAll host store (planned host held (lifted rest))).1 id pin := by
  simp only [overrides, Bool.and_eq_true, Bool.not_eq_true', decide_eq_true_eq] at h
  obtain ⟨⟨⟨hrefused, hloses⟩, hclip⟩, hle⟩ := h
  rw [← losesTo_congr host later.1 (hheld later hlater).content] at hloses
  let ready := prepared host later.1 (some (later.2.against host later.1
    (lookup Version.id held later.1.itemId))) (lookup Version.id held later.1.itemId)
  have hdecision : decisionOf host held (later.1, some later.2) = .won ready := by
    simp [decisionOf, decisionAgainst, hrefused, hloses, ready]
  have hmem : ((later.1, some later.2), Decision.won ready) ∈ planned host held (lifted rest) := by
    refine List.mem_map.2 ⟨(later.1, some later.2), List.mem_map_of_mem hlater, ?_⟩
    rw [hdecision]
  have hready : PinsClip host ready.toIncomingItem id := (pinsClip_prepared host _ _ _ id).2 hclip
  refine blocked_of_record host hpins hwrites hmem hready (fun at_store => ?_) hle
  obtain ⟨hkind, text, -, -, htext, -⟩ := hready
  have horg : organizationText later.1 = some text := by
    have hsearch : ready.searchText = organizationText later.1 := if_pos hkind
    exact hsearch.symm.trans htext
  have hvalid : validWire host later.1.itemId later.1.contentType text later.1.deleted = true := by
    simp only [losesTo, horg, Option.any_some, Bool.or_eq_false_iff, Bool.not_eq_false'] at hloses
    exact hloses.1
  obtain ⟨record, -, heq⟩ := upsert_valid_record host at_store ready.toIncomingItem text hkind
    htext hvalid
  rw [heq]

/-- Without one, the page's records about a clip are older than the pin state. -/
theorem not_overrides_lt {id : String} {stamp : Int}
    (h : (rest.all fun later => !overrides host store id stamp later.1) = true)
    (incoming : Incoming) (ready : Prepared)
    (hmem : (incoming, Decision.won ready) ∈ planned host held (lifted rest))
    (hclip : PinsClip host ready.toIncomingItem id) : ready.createdAt < stamp := by
  obtain ⟨x, hx, heq⟩ := List.mem_map.1 hmem
  obtain ⟨rfl, hdecision⟩ := Prod.mk.inj heq
  obtain ⟨row, hrow, rfl⟩ := List.mem_map.1 hx
  obtain ⟨hrefused, hloses, rfl⟩ := decisionAgainst_won host hdecision
  rw [losesTo_congr host row.1 (hheld row hrow).content] at hloses
  have hnot := List.all_eq_true.1 h row hrow
  have hpins := (pinsClip_prepared host _ _ _ id).1 hclip
  by_contra hge
  have hle : stamp ≤ row.1.createdAt := not_lt.1 hge
  simp [overrides, hrefused, hloses, hpins, hle] at hnot

end Planned

structure Carried (held : List Version) (store : Store) (rest : List (RemoteVersion × P2pPin)) :
    Prop where
  wellFormed : WellFormed store
  pins : PinsRecorded host store
  foretold : ∀ row ∈ rest, Foretold held store row.1.itemId
  nodup : (rest.map fun row => row.1.itemId).Nodup

section Carried

variable {host}
variable {held : List Version} {store : Store} {item : RemoteVersion} {pin : P2pPin}
variable {rest : List (RemoteVersion × P2pPin)}

theorem Carried.tail (h : Carried host held store ((item, pin) :: rest)) :
    Carried host held store rest :=
  ⟨h.wellFormed, h.pins, fun row hrow => h.foretold row (List.mem_cons_of_mem _ hrow),
    (List.nodup_cons.1 h.nodup).2⟩

theorem Carried.ne (h : Carried host held store ((item, pin) :: rest))
    {row : RemoteVersion × P2pPin} (hrow : row ∈ rest) : row.1.itemId ≠ item.itemId := by
  intro heq
  have hnodup := h.nodup
  rw [List.map_cons, List.nodup_cons] at hnodup
  exact hnodup.1 (List.mem_map.2 ⟨row, hrow, heq⟩)

theorem Carried.pinAlone (h : Carried host held store ((item, pin) :: rest)) :
    Carried host held (pinAlone store item.itemId pin).1 rest :=
  ⟨wellFormed_pinAlone h.wellFormed _ _, h.pins.pinAlone _ _, fun row hrow =>
    (h.tail.foretold row hrow).pinAlone h.wellFormed pin (h.ne hrow), h.tail.nodup⟩

theorem Carried.pinAfter (h : Carried host held store ((item, pin) :: rest)) :
    Carried host held (pinAfter host store item pin).1 rest := by
  unfold PeerSerial.pinAfter
  split
  · exact h.pinAlone
  · exact h.tail

theorem Carried.upsert (h : Carried host held store ((item, pin) :: rest)) {ready : Prepared}
    (hready : ready.id = item.itemId) (hnewest : Newest store ready.toIncomingItem) :
    Carried host held (store.upsert host ready.toIncomingItem).1 rest := by
  refine ⟨wellFormed_upsert host h.wellFormed _, h.pins.upsert hnewest, fun row hrow => ?_,
    h.tail.nodup⟩
  refine (h.tail.foretold row hrow).upsert host h.wellFormed h.pins hnewest fun heq => ?_
  exact h.ne hrow (heq.symm.trans hready)

theorem Carried.writes {page : List (RemoteVersion × P2pPin)} (h : Carried host held store page) :
    Writes store (planned host held (lifted page)) := by
  have hforetold : ∀ incoming ∈ lifted page, Foretold held store incoming.1.itemId := by
    intro incoming hincoming
    obtain ⟨row, hrow, rfl⟩ := List.mem_map.1 hincoming
    exact h.foretold row hrow
  refine ⟨fun incoming ready hmem => (planned_won host h.wellFormed hforetold hmem).2, ?_⟩
  have hids : ((planned host held (lifted page)).map fun row => row.1.1.itemId) =
      page.map fun row => row.1.itemId := by
    rw [planned, lifted, List.map_map, List.map_map]
    rfl
  rw [hids]
  exact h.nodup

end Carried

/-- The head of a page against its item alone: the answers agree and the rest of
the page finds the store the item left, unless the pin state is not kept. -/
def Steps (held : List Version) (store : Store) (item : RemoteVersion) (pin : P2pPin)
    (rest : List (RemoteVersion × P2pPin)) (after : Store) (flags : P2pApply) : Prop :=
  ∃ entry answered, ∃ tail : Store × List (Entry × P2pApply),
    paged host held store (lifted ((item, pin) :: rest)) =
      (tail.1, (entry, answered) :: tail.2) ∧
    if pinKept host store item pin rest then
      answered.any = flags.any ∧ tail = paged host held after (lifted rest)
    else answered.any ≠ flags.any

section Steps

variable {host}
variable {held : List Version} {store : Store} {item : RemoteVersion} {pin : P2pPin}
variable {rest : List (RemoteVersion × P2pPin)}

/-- Where the page stores nothing, the pin state alone is missed. -/
theorem steps_unstored {entry : Entry}
    (hpaged : paged host held store (lifted ((item, pin) :: rest)) =
      ((paged host held store (lifted rest)).1,
        (entry, ⟨false, false⟩) :: (paged host held store (lifted rest)).2))
    (hkept : pinKept host store item pin rest = !pinTakes host store item pin) :
    Steps host held store item pin rest (pinAfter host store item pin).1
      ⟨false, (pinAfter host store item pin).2⟩ := by
  refine ⟨entry, _, paged host held store (lifted rest), hpaged, ?_⟩
  rw [hkept, pinAfter_snd]
  cases htakes : pinTakes host store item pin with
  | true => simp [P2pApply.any]
  | false =>
    rw [pinAfter_false host htakes]
    simp [P2pApply.any]

theorem steps_refused (hrefused : payloadIsRefused host item = true) :
    Steps host held store item pin rest (pinAfter host store item pin).1
      ⟨false, (pinAfter host store item pin).2⟩ := by
  have hdecision : decisionOf host held (item, some pin) = .refused := if_pos hrefused
  have hpaged : paged host held store (lifted ((item, pin) :: rest)) =
      ((paged host held store (lifted rest)).1,
        (⟨(item, some pin), .refused, none⟩, ⟨false, false⟩) ::
          (paged host held store (lifted rest)).2) := by
    unfold paged lifted planned
    simp only [List.map_cons, hdecision]
    rfl
  refine steps_unstored hpaged ?_
  simp [pinKept, hrefused]

/-- The pin state of an item whose content lost, offered once the page is written. -/
def offered (store : Store) (item : RemoteVersion) (pin : P2pPin) (wins : Bool) : Store × Bool :=
  if wins then Repin.pinAlone store item.itemId pin else (store, false)

theorem pinPass_lost (store : Store) (item : RemoteVersion) (pin : P2pPin) (wins : Bool)
    (entries : List Entry) :
    pinPass store (⟨(item, some pin), .lost wins, none⟩ :: entries) =
      ((pinPass (offered store item pin wins).1 entries).1,
        (⟨(item, some pin), .lost wins, none⟩, ⟨false, (offered store item pin wins).2⟩) ::
          (pinPass (offered store item pin wins).1 entries).2) := by
  cases wins <;> rfl

theorem steps_lost (h : Carried host held store ((item, pin) :: rest))
    (hrefused : payloadIsRefused host item = false)
    (hloses : losesTo host (store.versionSummary item.itemId) item = true) :
    Steps host held store item pin rest (pinAfter host store item pin).1
      ⟨false, (pinAfter host store item pin).2⟩ := by
  let wins := remotePinWins host item pin (lookup Version.id held item.itemId)
  let rows := planned host held (lifted rest)
  let wrote := writeAll host store rows
  have hforetold := h.foretold _ List.mem_cons_self
  have hdecision : decisionOf host held (item, some pin) = .lost wins := by
    have hheld := losesTo_congr host item hforetold.content
    simp [decisionOf, decisionAgainst, hrefused, hheld, hloses, wins, P2pPin.against]
  have hpaged : paged host held store (lifted ((item, pin) :: rest)) =
      ((pinPass (offered wrote.1 item pin wins).1 wrote.2).1,
        (⟨(item, some pin), .lost wins, none⟩, ⟨false, (offered wrote.1 item pin wins).2⟩) ::
          (pinPass (offered wrote.1 item pin wins).1 wrote.2).2) := by
    rw [← pinPass_lost]
    unfold paged lifted planned
    simp only [List.map_cons, hdecision]
    rfl
  have hkept : pinKept host store item pin rest = (!pinTakes host store item pin ||
      rest.all fun later => !overrides host store item.itemId pin.pinUpdatedAt later.1) := by
    simp [pinKept, hrefused, hloses]
  have hids : ∀ row ∈ rows, row.1.1.itemId ≠ item.itemId := by
    intro row hrow
    obtain ⟨incoming, hincoming, rfl⟩ := List.mem_map.1 hrow
    obtain ⟨later, hlater, rfl⟩ := List.mem_map.1 hincoming
    exact h.ne hlater
  have hwrites : Writes store rows := h.tail.writes
  refine ⟨_, _, pinPass (offered wrote.1 item pin wins).1 wrote.2, hpaged, ?_⟩
  rw [hkept, pinAfter_snd]
  cases htakes : pinTakes host store item pin with
  | false =>
    -- Nothing to store now, so nothing to store after the writes either.
    have hnone : offered wrote.1 item pin wins = (wrote.1, false) := by
      cases hwins : wins with
      | false => rfl
      | true =>
        change Repin.pinAlone wrote.1 item.itemId pin = _
        rcases remotePinWins_foretold host hforetold pin with hblocked | hsame
        · exact pinAlone_blocked (blocked_writeAll host hblocked h.pins hwrites)
        · have halone : (Repin.pinAlone store item.itemId pin).2 = false := by
            have hafter := pinAfter_false host htakes
            unfold PeerSerial.pinAfter at hafter
            rw [← hsame, if_pos hwins] at hafter
            rw [hafter]
          have hlate := (pinAlone_writeAll host rows store item.itemId pin h.pins hwrites hids
            (by rw [halone]; simp)).2.trans halone
          exact Prod.ext (pinAlone_false hlate) hlate
    rw [pinAfter_false host htakes, hnone]
    simp only [Bool.not_false, Bool.true_or, if_true, true_and]
    rfl
  | true =>
    obtain ⟨hnow, hafter, halone⟩ := pinAfter_true host htakes
    have hopen : ¬ Blocked store item.itemId pin := by
      intro hblocked
      rw [pinAlone_blocked hblocked] at halone
      simp at halone
    have hwins : wins = true :=
      ((remotePinWins_foretold host hforetold pin).resolve_left hopen).trans hnow
    have hoffered : offered wrote.1 item pin wins = Repin.pinAlone wrote.1 item.itemId pin := by
      rw [hwins]
      rfl
    simp only [Bool.not_true, Bool.false_or]
    cases hall : rest.all fun later =>
        !overrides host store item.itemId pin.pinUpdatedAt later.1 with
    | true =>
      obtain ⟨hwrote, hlate⟩ := pinAlone_writeAll host rows store item.itemId pin h.pins hwrites
        hids fun _ => not_overrides_lt h.tail.foretold hall
      simp only [if_true]
      refine ⟨?_, ?_⟩
      · simp only [P2pApply.any, hoffered, Bool.false_or]
        exact hlate.trans halone
      · rw [hafter, hoffered]
        change _ = pinPass (writeAll host (Repin.pinAlone store item.itemId pin).1 rows).1
          (writeAll host (Repin.pinAlone store item.itemId pin).1 rows).2
        rw [hwrote]
    | false =>
      rw [List.all_eq_false] at hall
      obtain ⟨later, hlater, hover⟩ := hall
      have hblocked := overrides_blocks h.tail.foretold hlater (by simpa using hover) h.pins hwrites
      have hnone : offered wrote.1 item pin wins = (wrote.1, false) := by
        rw [hoffered]
        exact pinAlone_blocked hblocked
      simp [P2pApply.any, hnone]

/-- Where a pin state could be stored alone, only the dedup index keeps winning
content out. -/
theorem upsert_snd_of_takes (hwf : WellFormed store)
    (htakes : pinTakes host store item pin = true)
    (hloses : losesTo host (store.versionSummary item.itemId) item = false) (ready : Prepared)
    (hid : ready.id = item.itemId) (hkind : ready.contentType = item.contentType) :
    (store.upsert host ready.toIncomingItem).2 =
      decide (Fits host store ready.toIncomingItem) := by
  have hrecord : isRecordId item.itemId = false := by
    simp only [pinTakes, Bool.and_eq_true, List.any_eq_true, decide_eq_true_eq] at htakes
    obtain ⟨-, row, hrow, hrowId, -⟩ := htakes
    rw [← hrowId]
    exact hwf.itemIds row hrow
  have hitem : item.contentType ≠ recordContentType := by
    intro heq
    simp only [losesTo, Bool.or_eq_false_iff, Bool.not_eq_false', Option.any_eq_true] at hloses
    obtain ⟨⟨text, -, hvalid⟩, -⟩ := hloses
    rw [heq] at hvalid
    rw [(isRecordId_of_validWire host hvalid).1] at hrecord
    simp at hrecord
  rw [upsert_item host (by rw [hkind]; exact hitem) (by rw [hid]; exact hrecord)]
  by_cases hfits : Fits host store ready.toIncomingItem
  · rw [if_pos hfits, decide_eq_true hfits]
  · rw [if_neg hfits, decide_eq_false hfits]

/-- A winner is written the same, decided against the snapshot or the store. -/
theorem steps_won (h : Carried host held store ((item, pin) :: rest))
    (hrefused : payloadIsRefused host item = false)
    (hloses : losesTo host (store.versionSummary item.itemId) item = false) {ready : Prepared}
    (hready : ready = prepared host item
      (some (pin.against host item (store.versionSummary item.itemId)))
      (store.versionSummary item.itemId)) :
    if (store.upsert host ready.toIncomingItem).2 then
      Steps host held store item pin rest (store.upsert host ready.toIncomingItem).1 ⟨true, false⟩ ∧
        Carried host held (store.upsert host ready.toIncomingItem).1 rest
    else
      Steps host held store item pin rest (pinAfter host store item pin).1
        ⟨false, (pinAfter host store item pin).2⟩ := by
  let stored := store.upsert host ready.toIncomingItem
  let foreseen := prepared host item
    (some (pin.against host item (lookup Version.id held item.itemId)))
    (lookup Version.id held item.itemId)
  have hforetold := h.foretold _ List.mem_cons_self
  have hsame : store.upsert host foreseen.toIncomingItem = stored := by
    dsimp only [stored]
    rw [hready]
    exact upsert_foretold host hforetold pin
  have hheld : losesTo host (lookup Version.id held item.itemId) item = false :=
    (losesTo_congr host item hforetold.content).trans hloses
  have hdecision : decisionOf host held (item, some pin) = .won foreseen := by
    simp [decisionOf, decisionAgainst, hrefused, hheld, foreseen]
  have hpaged : paged host held store (lifted ((item, pin) :: rest)) =
      ((paged host held stored.1 (lifted rest)).1,
        (⟨(item, some pin), .won foreseen, some stored.2⟩,
          ⟨stored.2, stored.2 && true⟩) :: (paged host held stored.1 (lifted rest)).2) := by
    rw [← hsame]
    unfold paged lifted planned
    simp only [List.map_cons, hdecision]
    rfl
  have hnewest : Newest store ready.toIncomingItem := by
    have hmem : ((item, some pin), Decision.won foreseen) ∈
        planned host held (lifted ((item, pin) :: rest)) := by
      unfold planned lifted
      simp only [List.map_cons, hdecision, List.mem_cons, true_or]
    have hforeseen := (h.writes.newest _ _ hmem).2
    rw [hready]
    exact hforeseen
  have hkept : pinKept host store item pin rest = (!pinTakes host store item pin ||
      pinTakes host store item pin && stored.2) := by
    unfold pinKept
    cases htakes : pinTakes host store item pin with
    | false => rfl
    | true =>
      rw [upsert_snd_of_takes h.wellFormed htakes hloses ready (by rw [hready]; rfl)
        (by rw [hready]; rfl)]
      simp [hrefused, hloses, hready]
  cases hstored : stored.2 with
  | true =>
    rw [hstored] at hpaged
    refine ⟨⟨_, _, _, hpaged, ?_⟩, h.upsert (by rw [hready]; rfl) hnewest⟩
    rw [hkept, hstored]
    simp [P2pApply.any, stored]
  | false =>
    rw [hstored, upsert_false host hstored] at hpaged
    refine steps_unstored hpaged ?_
    rw [hkept, hstored, Bool.and_false, Bool.or_false]

theorem steps_item (h : Carried host held store ((item, pin) :: rest)) (hsize : WithinLimit item) :
    ∃ after flags, applyRemoteP2pVersionWithPinStamp host store item pin = .ok (after, flags) ∧
      Carried host held after rest ∧ Steps host held store item pin rest after flags := by
  rw [applyOne_eq host store pin hsize]
  cases hrefused : payloadIsRefused host item with
  | true =>
    have hdecision : decisionAgainst host (store.versionSummary item.itemId) (item, some pin) =
        .refused := if_pos hrefused
    rw [hdecision]
    exact ⟨_, _, rfl, h.pinAfter, steps_refused hrefused⟩
  | false =>
    cases hloses : losesTo host (store.versionSummary item.itemId) item with
    | true =>
      have hdecision : decisionAgainst host (store.versionSummary item.itemId) (item, some pin) =
          .lost (remotePinWins host item pin (store.versionSummary item.itemId)) := by
        simp [decisionAgainst, hrefused, hloses, P2pPin.against]
      rw [hdecision]
      exact ⟨_, _, rfl, h.pinAfter, steps_lost h hrefused hloses⟩
    | false =>
      have hdecision : decisionAgainst host (store.versionSummary item.itemId) (item, some pin) =
          .won (prepared host item
            (some (pin.against host item (store.versionSummary item.itemId)))
            (store.versionSummary item.itemId)) := by
        simp [decisionAgainst, hrefused, hloses]
      have hsteps := steps_won h hrefused hloses rfl
      rw [hdecision]
      simp only
      split at hsteps
      · rename_i hstored
        rw [if_pos hstored]
        exact ⟨_, _, rfl, hsteps.2, hsteps.1⟩
      · rename_i hstored
        rw [if_neg hstored]
        exact ⟨_, _, rfl, h.pinAfter, hsteps⟩

end Steps

/-- Item by item, the page answers as its items one at a time exactly as long as
every pin state is kept. -/
theorem paged_iff (page : List (RemoteVersion × P2pPin)) (held : List Version) (store : Store)
    (h : Carried host held store page) (hsize : ∀ row ∈ page, WithinLimit row.1) :
    ∃ after applied, applyEach host store (lifted page) = .ok (after, applied) ∧
      ((paged host held store (lifted page)).1 = after ∧
          (paged host held store (lifted page)).2.map (fun row => row.2.any) =
            applied.map P2pApply.any ↔
        pinsKept host store page = true) := by
  induction page generalizing store with
  | nil => exact ⟨store, [], rfl, by simp [pinsKept, paged, planned, lifted, writeAll, pinPass]⟩
  | cons row rest ih =>
    obtain ⟨item, pin⟩ := row
    obtain ⟨next, flags, hone, hcarried, entry, answered, tail, hpaged, hkept⟩ :=
      steps_item h (hsize _ List.mem_cons_self)
    obtain ⟨after, applied, heach, hrest⟩ :=
      ih next hcarried fun row hrow => hsize row (List.mem_cons_of_mem _ hrow)
    refine ⟨after, flags :: applied, ?_, ?_⟩
    · have hfirst : applyOne host store (item, some pin) = .ok (next, flags) := hone
      change applyEach host store ((item, some pin) :: lifted rest) = _
      unfold applyEach
      rw [hfirst]
      simp only [bind, Except.bind, heach, pure, Except.pure]
    · unfold pinsKept
      rw [hpaged, hone, Bool.and_eq_true, ← hrest]
      simp only [List.map_cons, List.cons.injEq]
      cases hhead : pinKept host store item pin rest with
      | true =>
        rw [if_pos hhead] at hkept
        obtain ⟨hflags, rfl⟩ := hkept
        simp [hflags]
      | false =>
        rw [hhead] at hkept
        have hdiffer : answered.any ≠ flags.any := hkept
        simp [hdiffer]

/-- A peer's page is its items one at a time, in store and in answers, exactly
when every pin state is kept. -/
theorem peer_page_iff_pins_kept (store : Store) (page : List (RemoteVersion × P2pPin))
    (hwf : WellFormed store) (hpins : PinsRecorded host store)
    (hnodup : (page.map fun row => row.1.itemId).Nodup)
    (hsize : ∀ row ∈ page, WithinLimit row.1) :
    (∃ after applied each,
      applyRemoteP2pVersions host store page = .ok (after, applied) ∧
      applyEach host store (page.map fun (item, pin) => (item, some pin)) = .ok (after, each) ∧
      applied.map P2pApply.any = each.map P2pApply.any) ↔ pinsKept host store page = true := by
  have hcarried : Carried host (store.versionSummaries (page.map fun row => row.1.itemId)) store
      page := by
    refine ⟨hwf, hpins, fun row hrow => Or.inl ?_, hnodup⟩
    rw [lookup_versionSummaries hwf]
    exact List.mem_map.2 ⟨row, hrow, rfl⟩
  obtain ⟨after, each, heach, hiff⟩ := paged_iff host page _ store hcarried hsize
  rw [← hiff, applyRemoteP2pVersions_eq host store page hnodup hsize]
  have hserial : applyEach host store (page.map fun (item, pin) => (item, some pin)) =
      .ok (after, each) := heach
  rw [hserial]
  constructor
  · rintro ⟨after', applied', each', hbatch, hsame, hflags⟩
    simp only [Except.ok.injEq, Prod.mk.injEq] at hbatch hsame
    obtain ⟨hstore, rfl⟩ := hbatch
    obtain ⟨rfl, rfl⟩ := hsame
    refine ⟨hstore, ?_⟩
    rw [← hflags, List.map_map]
    rfl
  · rintro ⟨hstore, hflags⟩
    refine ⟨after, _, each, by rw [hstore], rfl, ?_⟩
    rw [← hflags, List.map_map]
    rfl

/-- Two clips of a store, and pages for it: one brings an older version of the
second clip under a newer pin, with a new clip behind it; the other brings a newer
version of the second clip whose text the first clip already has. -/
def sampleStore : Store where
  items := [sampleRow "x" "dup" 1000 none, sampleRow "a" "one" 1500 none]
  records := []
  tags := []
  clipTags := []
  pinStates := []
  icons := []

def repinPage : List (RemoteVersion × P2pPin) :=
  [(sampleVersion "a" "zero" 1200, ⟨true, none, 3000⟩),
    (sampleVersion "b" "two" 2000, ⟨false, none, 0⟩)]

def collidingPage : List (RemoteVersion × P2pPin) :=
  [(sampleVersion "a" "dup" 2000, ⟨true, none, 3000⟩)]

private theorem sampleStore_wellFormed : WellFormed sampleStore :=
  ⟨by decide, by decide, by decide, by decide⟩

private theorem sampleStore_pins : PinsRecorded sampleHost sampleStore := by
  intro pin hpin
  simp [sampleStore] at hpin

theorem peer_page_iff_pins_kept_repin :
    pinsKept sampleHost sampleStore repinPage = true ∧ ∃ after applied each,
      applyRemoteP2pVersions sampleHost sampleStore repinPage = .ok (after, applied) ∧
      applyEach sampleHost sampleStore (repinPage.map fun (item, pin) => (item, some pin)) =
        .ok (after, each) ∧
      applied.map P2pApply.any = each.map P2pApply.any := by
  have hkept : pinsKept sampleHost sampleStore repinPage = true := by decide
  have hsize : ∀ row ∈ repinPage, WithinLimit row.1 := by
    unfold WithinLimit
    decide
  exact ⟨hkept, (peer_page_iff_pins_kept sampleHost sampleStore repinPage sampleStore_wellFormed
    sampleStore_pins (by decide) hsize).2 hkept⟩

/-- The page drops a winning pin state whose content the dedup index refused; the
item by itself stores it. -/
theorem refused_content_drops_pin :
    (collidingPage.map fun row => row.1.itemId).Nodup ∧
    (∀ row ∈ collidingPage, WithinLimit row.1) ∧
    (applyRemoteP2pVersions sampleHost sampleStore collidingPage).map
      (fun answer => (answer.1.items.map ItemRow.pinned, answer.2.map P2pApply.any)) =
        .ok ([false, false], [false]) ∧
    (applyEach sampleHost sampleStore (collidingPage.map fun (item, pin) => (item, some pin))).map
      (fun answer => (answer.1.items.map ItemRow.pinned, answer.2.map P2pApply.any)) =
        .ok ([false, true], [true]) ∧
    ¬ ∃ after applied each,
      applyRemoteP2pVersions sampleHost sampleStore collidingPage = .ok (after, applied) ∧
      applyEach sampleHost sampleStore (collidingPage.map fun (item, pin) => (item, some pin)) =
        .ok (after, each) ∧
      applied.map P2pApply.any = each.map P2pApply.any := by
  have hbatch : (applyRemoteP2pVersions sampleHost sampleStore collidingPage).map
      (fun answer => (answer.1.items.map ItemRow.pinned, answer.2.map P2pApply.any)) =
        .ok ([false, false], [false]) := by decide
  have hserial : (applyEach sampleHost sampleStore
      (collidingPage.map fun (item, pin) => (item, some pin))).map
      (fun answer => (answer.1.items.map ItemRow.pinned, answer.2.map P2pApply.any)) =
        .ok ([false, true], [true]) := by decide
  refine ⟨by decide, by unfold WithinLimit; decide, hbatch, hserial, ?_⟩
  rintro ⟨after, applied, each, hpage, heach, hflags⟩
  rw [hpage] at hbatch
  rw [heach] at hserial
  simp only [Except.map, Except.ok.injEq, Prod.mk.injEq] at hbatch hserial
  have hpinned := hbatch.1.symm.trans hserial.1
  simp at hpinned

end CopyPaste.Merge.PeerSerial
