import CopyPaste.Peer.Lockstep

/-!
A session read off at once, and the same session message by message. Where the first one ends
well, the two processes end with its stores, counters and cursors, whatever the order of their
moves.
-/

namespace CopyPaste.Peer.Meeting

open Lib.Checks Lib.Duplex Lib.Rows Merge.Comparator Cursor Plan Transfer Session Roles Lockstep
open Peers.Group (DeviceProfile)
open Wire.Messages (SyncMessage)
open Wire.Codec (Libraries validateMessage checkSummary ensure_ok_iff)

/-- What a device says of itself beside its history, and how it reports a failed call. -/
structure Label where
  deviceName : String
  deviceProfile : DeviceProfile
  listenAddr : Option String
  failed : SyncError → SessionError

variable {S : Type} (label : Label)

/-- The history as a process calls it: a read answers from the store it finds, and a batch is
stored whole or not at all. -/
def calls (source : SyncSource S) : Source S where
  deviceId := source.deviceId
  deviceName := label.deviceName
  deviceProfile := label.deviceProfile
  summaryPage store since after limit := (.ok (source.summaryPage store since after limit), store)
  localSummaries store ids := (.ok (source.localSummaries store ids), store)
  fetch store ids := (.ok (source.fetch store ids), store)
  applyBatch store batch := match source.applyBatch store batch with
    | .ok (after, outcomes) => (.ok outcomes, after)
    | .error error => (.error (label.failed error), store)
  landed _ _ := []

def deviceOf (party : Party S) : Device S where
  source := calls label party.source
  listenAddr := label.listenAddr
  cursor := party.cursor
  now := party.now
  arrange := party.arrange

variable {label label' : Label} {libs : Libraries}

section Exchange

theorem checkSummary_of_valid {item : ItemSummary} (h : validSummary item = true) :
    checkSummary item = .ok () := by
  simp only [validSummary, Bool.and_eq_true, decide_eq_true_eq] at h
  obtain ⟨⟨⟨⟨⟨hid, horigin⟩, hhash⟩, hcreated⟩, hpinned⟩, hpin⟩ := h
  simp only [checkSummary, bind_ok_iff, exists_unit, Wire.Codec.checkLen, Wire.Codec.checkTimestamp,
    Wire.Codec.checkPin, ensure_ok_iff, decide_eq_true_eq, checkIdField_of_checkId hid,
    checkIdField_of_checkId horigin, true_and]
  exact ⟨hhash, hcreated, hpinned, hpin⟩

theorem valid_nextPage (libs : Libraries) (source : SyncSource S) (store : S) (reader : Reader)
    (h : ∀ item ∈ (Session.nextPage source store reader).1, validSummary item = true) :
    validateMessage libs (.summary (Session.nextPage source store reader).1
      (Session.nextPage source store reader).2) = .ok () := by
  simp only [validateMessage, bind_ok_iff, exists_unit, forM_ok_iff, Wire.Codec.checkCount,
    ensure_ok_iff, decide_eq_true_eq]
  exact ⟨List.length_take_le _ _, fun item hitem => checkSummary_of_valid (h item hitem)⟩

theorem nextPage_calls (label : Label) (party : Party S) (reader : Reader) {s : Local S}
    (hs : s.store = party.store) :
    Roles.nextPage (deviceOf label party).source reader s =
      .done s (Session.nextPage party.source party.store reader) := by
  rw [← hs]
  exact bind_done (ask_done rfl)

theorem keepPages_calls (label : Label) (party : Party S) (workspace : SummaryWorkspace)
    (mine theirs : List ItemSummary) {s : Local S} (hs : s.store = party.store) :
    keepPages (deviceOf label party).source workspace mine theirs s =
      .done s (keepRound party workspace mine theirs) := by
  unfold keepRound
  rw [← hs]
  exact bind_done (ask_done rfl)

variable {initiator responder : Party S} {s t : Local S}

theorem talks_exchange_calls (libs : Libraries) (label label' : Label)
    (hs : s.store = initiator.store) (ht : t.store = responder.store)
    {rounds : ℕ} {ours theirs : Reader} {kept keptBack w k : SummaryWorkspace}
    (hw : Unplanned kept) (hk : Unplanned keptBack)
    (h : exchange initiator responder rounds ours theirs kept keptBack = .ok (w, k)) :
    Unplanned w ∧ Unplanned k ∧ ∃ ms ns,
      Talks (exchangeWorkspace libs (deviceOf label initiator).source true rounds ours kept s)
        (exchangeWorkspace libs (deviceOf label' responder).source false rounds theirs keptBack t)
        ms ns (.done s w) (.done t k) := by
  induction rounds generalizing ours theirs kept keptBack with
  | zero => cases h
  | succ rounds ih =>
    rw [exchange] at h
    have hnext := nextPage_calls label initiator ours hs
    have hnext' := nextPage_calls label' responder theirs ht
    have hpage := valid_nextPage libs initiator.source initiator.store ours
    have hpage' := valid_nextPage libs responder.source responder.store theirs
    generalize Session.nextPage initiator.source initiator.store ours = page at h hnext hpage
    generalize Session.nextPage responder.source responder.store theirs = peerPage
      at h hnext' hpage'
    dsimp only at h
    split at h
    · rename_i hall
      have hvalid := hpage fun item hitem =>
        List.all_eq_true.1 hall item (List.mem_append_left _ hitem)
      have hvalid' := hpage' fun item hitem =>
        List.all_eq_true.1 hall item (List.mem_append_right _ hitem)
      have hkeep := keepPages_calls label initiator kept page.1 peerPage.1 hs
      have hkeep' := keepPages_calls label' responder keptBack peerPage.1 page.1 ht
      have hw' := hw.append (w := keepRound initiator kept page.1 peerPage.1) ⟨rfl, rfl⟩
        hvalid'
      have hk' := hk.append (w := keepRound responder keptBack peerPage.1 page.1) ⟨rfl, rfl⟩
        hvalid
      split at h
      · rename_i hlast
        obtain ⟨rfl, rfl⟩ := Prod.mk.inj (Except.ok.inj h)
        refine ⟨hw', hk', [.summary page.1 page.2], [.summary peerPage.1 peerPage.2],
          talks_round hnext hnext' hvalid hvalid' ?_⟩
        rw [roundEnd_done hkeep, roundEnd_done hkeep', if_pos hlast,
          if_pos (Bool.and_comm _ _ ▸ hlast)]
        exact .refl _ _
      · rename_i hlast
        obtain ⟨hw₂, hk₂, ms, ns, htalks⟩ := ih hw' hk' h
        refine ⟨hw₂, hk₂, .summary page.1 page.2 :: ms, .summary peerPage.1 peerPage.2 :: ns,
          talks_round hnext hnext' hvalid hvalid' ?_⟩
        rw [roundEnd_done hkeep, roundEnd_done hkeep', if_neg hlast,
          if_neg (Bool.and_comm _ _ ▸ hlast)]
        exact htalks
    · cases h

end Exchange

section Serving

variable {allowed : ℕ}

/-- What has left already stays in front of what leaves with an item. -/
theorem serveItem_sent (host : Merge.Payload.Host) (chunk : List String) (serving : Serving)
    (batches : List (List SyncItem)) (item : SyncItem) :
    Serving.serveItem host chunk { serving with sent := batches } item =
      { Serving.serveItem host chunk { serving with sent := [] } item with
        sent :=
          batches ++ (Serving.serveItem host chunk { serving with sent := [] } item).sent } := by
  unfold Serving.serveItem
  dsimp only
  split
  · simp
  split
  · simp
  split
  · simp
  split <;> simp [Serving.flush]

/-- The process has sent what the whole run has collected, and stands where it stands. -/
def Follows (libs : Libraries) (allowed : ℕ) (s : Local S) (sent : List SyncMessage)
    (here : Local S) (serving whole : Serving) : Prop :=
  here = s ∧ Within libs allowed sent serving ∧
    ∃ batches, sent = batches.map .items ∧ whole = { serving with sent := batches }

theorem Follows.serveItem {s here : Local S} {sent : List SyncMessage} {serving whole : Serving}
    (h : Follows libs allowed s sent here serving whole) (chunk : List String) (item : SyncItem) :
    ∃ ms here' serving', Sends (Roles.serveItem libs chunk serving item here) ms
        (.done here' serving') ∧
      Follows libs allowed s (sent ++ ms) here' serving'
        (Serving.serveItem libs.host chunk whole item) := by
  obtain ⟨rfl, ⟨hstreams, hfits⟩, batches, rfl, rfl⟩ := h
  obtain ⟨hsends, hms, hfits'⟩ := sends_serveItem chunk item here hfits rfl
  refine ⟨_, here, _, hsends, rfl, ⟨streams_append hstreams hms, ?_⟩, batches ++ _,
    (List.map_append ..).symm, serveItem_sent _ chunk serving batches item⟩
  rw [List.length_append, List.length_map, List.length_map]
  rwa [List.length_map] at hfits'

theorem Follows.serveChunk (label : Label) (party : Party S) {s here : Local S}
    {sent : List SyncMessage} {serving whole : Serving}
    (h : Follows libs allowed s sent here serving whole) (chunk : List String) :
    ∃ ms here' serving',
      Sends (Roles.serveChunk libs (deviceOf label party).source serving chunk here) ms
        (.done here' serving') ∧
      Follows libs allowed s (sent ++ ms) here' serving'
        ((party.source.fetch s.store chunk).foldl (Serving.serveItem libs.host chunk) whole) := by
  obtain ⟨rfl, -⟩ := id h
  have hask : Roles.serveChunk libs (deviceOf label party).source serving chunk here =
      (party.source.fetch here.store chunk).foldlM (Roles.serveItem libs chunk) serving here :=
    bind_done (ask_done rfl)
  rw [hask]
  exact sends_foldlM (fun _ _ _ _ item h => h.serveItem chunk item) _ h

theorem isSome_requestedAdvertised {workspace : SummaryWorkspace} {requested : List String}
    {id : String} (hid : id ∈ requested) :
    (lookup ItemSummary.itemId (requestedAdvertised workspace requested) id).isSome =
      (lookup ItemSummary.itemId workspace.advertised id).isSome := by
  cases hlookup : lookup ItemSummary.itemId workspace.advertised id with
  | some item =>
    have hrow : item ∈ requestedAdvertised workspace requested :=
      List.mem_filterMap.2 ⟨id, hid, hlookup⟩
    exact Option.isSome_iff_ne_none.2 fun hnone =>
      lookup_eq_none_iff.1 hnone item hrow (lookup_eq_some hlookup).2
  | none =>
    rw [lookup_eq_none_iff.2]
    rintro row hrow rfl
    obtain ⟨other, -, hfound⟩ := List.mem_filterMap.1 hrow
    rw [← (lookup_eq_some hfound).2, hlookup] at hfound
    cases hfound

/-- The stream leaves the process batch by batch, with the counters of the whole. -/
theorem sends_serveItems_calls (label : Label) (party : Party S) (workspace : SummaryWorkspace)
    (requested : List String) (stats : SyncStats) (s : Local S)
    {served : List (List SyncItem) × SyncStats}
    (h : Transfer.serveItems libs.host (party.source.fetch s.store) workspace.advertised requested
      stats = served) :
    Sends (Roles.serveItems libs (deviceOf label party).source
        (requestedAdvertised workspace requested) requested stats s)
      (served.1.map .items ++ [.done]) (.done s served.2) ∧
      Streams libs (served.1.map .items) := by
  have hallowed : (requested.filter fun id =>
      (lookup ItemSummary.itemId (requestedAdvertised workspace requested) id).isSome) =
        requested.filter fun id => (lookup ItemSummary.itemId workspace.advertised id).isSome :=
    List.filter_congr fun id hid => isSome_requestedAdvertised hid
  unfold Transfer.serveItems at h
  unfold Roles.serveItems
  rw [hallowed]
  generalize (requested.filter fun id =>
    (lookup ItemSummary.itemId workspace.advertised id).isSome).eraseDups = allowed at h ⊢
  have hstart : Follows libs allowed.length s [] s
      ({ unavailable := allowed, stats := stats } : Serving)
      ({ unavailable := allowed, stats := stats } : Serving) :=
    ⟨rfl, ⟨List.forall_mem_nil _, fits_start libs allowed stats⟩, [], rfl, rfl⟩
  obtain ⟨ms, here, serving, hserve, rfl, ⟨hstreams, hfits⟩, batches, hsent, hwhole⟩ :=
    sends_foldlM (fun _ _ _ _ chunk h => h.serveChunk label party chunk)
      (chunks maxItemsPerMessage allowed) hstart
  rw [List.nil_append] at hsent hstreams
  subst hsent
  obtain ⟨closed, hclosed⟩ : ∃ closed : Serving, closed =
      if serving.batch = [] then { serving with sent := batches }
      else ({ serving with sent := batches } : Serving).flush := ⟨_, rfl⟩
  have hserved : served = (closed.sent, { closed.stats with
      skipped := closed.stats.skipped + closed.unavailable.length
      skippedUnavailable := closed.stats.skippedUnavailable + closed.unavailable.length }) := by
    rw [← h, hclosed]
    dsimp only
    rw [hwhole]
  obtain ⟨hflush, hlast, -⟩ := sends_flushBatch hfits here
  have hstats : (if serving.batch = [] then serving else serving.flush).stats = closed.stats ∧
      closed.unavailable = serving.unavailable ∧
      closed.sent.map .items = batches.map SyncMessage.items ++ lastBatch serving := by
    rw [hclosed, lastBatch]
    split
    · exact ⟨rfl, rfl, (List.append_nil _).symm⟩
    · exact ⟨rfl, rfl, List.map_append ..⟩
  rw [hstats.1] at hflush
  rw [hserved]
  dsimp only
  rw [hstats.2.2, hstats.2.1, List.append_assoc]
  exact ⟨sends_bind hserve (sends_bind hflush (sends_bind (sends_send rfl here) (.refl _))),
    streams_append hstreams hlast⟩

end Serving

section Receiving

variable {party : Party S} {wanted : List ItemSummary}

/-- What a process keeps of what it has received: all but the store. -/
def plain (receiving : Receiving S) : Receiving Unit :=
  { receiving with store := () }

theorem takeItem_plain (host : Merge.Payload.Host) (taking : Receiving S × List SyncItem)
    (item : SyncItem) :
    Receiving.takeItem host wanted (taking.map plain id) item =
      (Receiving.takeItem host wanted taking item).map plain id := by
  obtain ⟨receiving, batch⟩ := taking
  unfold Receiving.takeItem
  dsimp only [Prod.map, plain, id]
  split
  · rfl
  split
  · rfl
  split
  · rfl
  split <;> rfl

theorem takeItems_plain (host : Merge.Payload.Host) (items : List SyncItem)
    (taking : Receiving S × List SyncItem) :
    items.foldl (Receiving.takeItem host wanted) (taking.map plain id) =
      (items.foldl (Receiving.takeItem host wanted) taking).map plain id :=
  List.foldl_hom (Prod.map plain id) fun taking item => takeItem_plain host taking item

theorem notes_plain (outcomes : List (Bool × Int)) (receiving : Receiving S) :
    outcomes.foldl (fun receiving (stored, stamp) => receiving.note stored stamp)
        (plain receiving) =
      plain (outcomes.foldl (fun receiving (stored, stamp) => receiving.note stored stamp)
        receiving) := by
  refine List.foldl_hom plain fun receiving outcome => ?_
  obtain ⟨stored, stamp⟩ := outcome
  cases stored <;> rfl

/-- The closing message settles what did not come. -/
def settled (wanted : List ItemSummary) (receiving : Receiving S) : Receiving S :=
  { receiving with
    stats :=
      { receiving.stats with
        skippedUnavailable :=
          receiving.stats.skippedUnavailable + (wanted.length - receiving.applied.length)
        skipped :=
          receiving.stats.skipped + (wanted.length - receiving.received.eraseDups.length) } }

/-- A stream whose batches are all stored is received message by message. -/
theorem talks_takeMessages {β : Type} {T : Type} (label : Label) {messages : List (List SyncItem)}
    (hms : Streams libs (messages.map .items)) {budget : ℕ} (hbudget : messages.length < budget)
    {receiving last : Receiving S} {s : Local S} (hs : s.store = receiving.store)
    (h : messages.foldlM (Receiving.takeMessage libs.host party.source.applyBatch wanted)
      receiving = .ok last)
    {r q : Proc SyncMessage SessionError (Local T) β}
    (hsends : Sends r (messages.map .items ++ [.done]) q) :
    ∃ s', s'.store = last.store ∧
      Talks (Roles.receiveItems libs (deviceOf label party).source wanted budget
          (plain receiving) s)
        r [] (messages.map .items ++ [.done]) (.done s' (settled wanted (plain last))) q := by
  induction messages generalizing budget receiving s r with
  | nil =>
    obtain ⟨budget, rfl⟩ : ∃ b, budget = b + 1 := ⟨budget - 1, by omega⟩
    obtain rfl := Except.ok.inj h
    cases hsends with
    | step hrest =>
      cases hrest
      exact ⟨s, hs, talks_take rfl (.refl _ _)⟩
  | cons items rest ih =>
    obtain ⟨budget, rfl⟩ : ∃ b, budget = b + 1 := ⟨budget - 1, by omega⟩
    rw [List.length_cons] at hbudget
    rw [List.foldlM_cons] at h
    obtain ⟨next, htake, h⟩ := bind_ok_iff.1 h
    obtain ⟨⟨-, hvalid⟩, hrest⟩ := List.forall_mem_cons.1 hms
    have hplain : items.foldl (Receiving.takeItem libs.host wanted) (plain receiving, []) =
        (items.foldl (Receiving.takeItem libs.host wanted) (receiving, [])).map plain id :=
      takeItems_plain libs.host items (receiving, [])
    have hstore := store_takeItems libs.host wanted items (receiving, [])
    unfold Receiving.takeMessage at htake
    generalize items.foldl (Receiving.takeItem libs.host wanted) (receiving, []) = taken
      at htake hplain hstore
    obtain ⟨taken, batch⟩ := taken
    dsimp only [Prod.map, id] at htake hplain hstore
    rw [← hs] at hstore
    have hbudget' := Nat.lt_of_succ_lt_succ hbudget
    cases hsends with
    | step hnext =>
      by_cases hempty : batch = []
      · rw [if_pos hempty] at htake
        obtain rfl := Except.ok.inj htake
        obtain ⟨s', hs', htalks⟩ := ih hrest hbudget' hstore.symm h hnext
        refine ⟨s', hs', talks_take hvalid ?_⟩
        dsimp only
        rw [hplain, if_pos hempty]
        exact htalks
      · rw [if_neg hempty, hstore] at htake
        obtain ⟨⟨store, outcomes⟩, happly, htake⟩ := bind_ok_iff.1 htake
        obtain rfl := Except.ok.inj htake
        have hcall : (deviceOf label party).source.applyBatch s.store batch =
            (.ok outcomes, store) := by
          dsimp only [deviceOf, calls]
          rw [happly]
        obtain ⟨s₁, hs₁, hdone⟩ := applyBatch_done hcall
        have hnoted := (notes_keep (outcomes.zip (batch.map fun item => summaryKey item.summary))
          { taken with store := store }).1
        obtain ⟨s', hs', htalks⟩ := ih hrest hbudget' (hs₁.trans hnoted.symm) h hnext
        refine ⟨s', hs', talks_take hvalid ?_⟩
        dsimp only
        rw [hplain, if_neg hempty, bind_done hdone]
        rw [← notes_plain] at htalks
        exact htalks

theorem receiveItems_settled {host : Merge.Payload.Host}
    {applyBatch : S → List SyncItem → Except SyncError (S × List Bool)} {store : S}
    {stats : SyncStats} {messages : List (List SyncItem)} {received : Receiving S}
    (h : Transfer.receiveItems host applyBatch store wanted stats messages = .ok received) :
    messages.length < receiveBudget wanted ∧ ∃ last : Receiving S,
      messages.foldlM (Receiving.takeMessage host applyBatch wanted)
        { store := store, stats := stats } = .ok last ∧ received = settled wanted last := by
  obtain ⟨hshort, h⟩ := unless_ok_iff.1 h
  obtain ⟨last, hfold, h⟩ := bind_ok_iff.1 h
  refine ⟨?_, last, hfold, (Except.ok.inj h).symm⟩
  unfold receiveBudget
  omega

/-- One side receives what the other serves of its request, as the whole session has it. -/
theorem talks_stream_calls (label label' : Label) {party peer : Party S}
    {workspace : SummaryWorkspace} {requested : List String} {stats counted : SyncStats}
    {s t : Local S} {served : List (List SyncItem) × SyncStats} {received : Receiving S}
    (hserved : Transfer.serveItems libs.host (peer.source.fetch t.store) workspace.advertised
      requested stats = served)
    (hreceived : Transfer.receiveItems libs.host party.source.applyBatch s.store wanted counted
      served.1 = .ok received) :
    ∃ ns s', s'.store = received.store ∧
      Talks (Roles.receiveItems libs (deviceOf label party).source wanted (receiveBudget wanted)
          { store := (), stats := counted } s)
        (Roles.serveItems libs (deviceOf label' peer).source
          (requestedAdvertised workspace requested) requested stats t)
        [] ns (.done s' (plain received)) (.done t served.2) := by
  obtain ⟨hbudget, last, hfold, rfl⟩ := receiveItems_settled hreceived
  obtain ⟨hsends, hms⟩ := sends_serveItems_calls label' peer workspace requested stats t hserved
  obtain ⟨s', hs', htalks⟩ := talks_takeMessages label hms hbudget rfl hfold hsends
  exact ⟨_, s', hs', htalks⟩

end Receiving

section Session

variable {initiator responder : Party S} {side back : Side S}

/-- A process that has ended as a side of the session read off at once. -/
def EndsAs (side : Side S) (p : Proc SyncMessage SessionError (Local S) SyncOutcome) : Prop :=
  ∃ s outcome, p = .done s outcome ∧ s.store = side.store ∧ outcome.stats = side.stats ∧
    outcome.sinceMs = side.sinceMs ∧ outcome.appliedFloor = side.appliedFloor

theorem talks_session_calls
    (hhello : validateMessage libs (localHello (deviceOf label initiator)) = .ok ())
    (hhello' : validateMessage libs (localHello (deviceOf label' responder)) = .ok ())
    (harrange : ∀ rows, (initiator.arrange rows).Perm rows)
    (harrange' : ∀ rows, (responder.arrange rows).Perm rows)
    (h : session libs.host initiator responder = .ok (side, back)) :
    ∃ ms ns l r, Talks (runInitiator libs (deviceOf label initiator) { store := initiator.store })
        (runResponder libs (deviceOf label' responder) { store := responder.store }) ms ns l r ∧
      EndsAs side l ∧ EndsAs back r := by
  have hids := session_distinct libs.host h
  obtain ⟨kept, keptBack, received, receivedBack, hexchange, hreceived, hreceivedBack, rfl, rfl⟩ :=
    session_ok libs.host h
  clear h
  obtain ⟨hw, hk, ms, ns, hpages⟩ := talks_exchange_calls libs label label'
    (s := { store := initiator.store }) (t := { store := responder.store }) rfl rfl unplanned_empty
    unplanned_empty hexchange
  have hrequest : validateMessage libs (requestFor (deviceOf label initiator)
      (kept.planWorkspace initiator.arrange initiator.now {}).2.1) = .ok () :=
    valid_planned libs harrange hw {}
  rcases hplan : kept.planWorkspace initiator.arrange initiator.now {} with
    ⟨workspace, wanted, counted⟩
  rw [hplan] at hreceived hreceivedBack hrequest
  dsimp only at hreceived hreceivedBack hrequest ⊢
  rcases hserved : Transfer.serveItems libs.host (responder.source.fetch responder.store)
    keptBack.advertised (request initiator wanted) {} with ⟨served, servedStats⟩
  rw [hserved] at hreceived hreceivedBack
  obtain ⟨ns₁, s₁, hs₁, hstream⟩ := talks_stream_calls label label'
    (t := { store := responder.store }) (s := { store := initiator.store }) hserved hreceived
  have hrequest' : validateMessage libs (requestFor (deviceOf label' responder)
      (keptBack.planWorkspace responder.arrange responder.now servedStats).2.1) = .ok () :=
    valid_planned libs harrange' hk servedStats
  rcases hplan' : keptBack.planWorkspace responder.arrange responder.now servedStats with
    ⟨workspaceBack, wantedBack, countedBack⟩
  rw [hplan'] at hreceivedBack hrequest'
  dsimp only at hreceivedBack hrequest' ⊢
  rcases hservedBack : Transfer.serveItems libs.host (initiator.source.fetch received.store)
    workspace.advertised (request responder wantedBack) received.stats with ⟨servedBack, last⟩
  rw [hservedBack] at hreceivedBack
  rw [← hs₁] at hservedBack
  obtain ⟨ms₁, t₁, ht₁, hstream'⟩ := talks_stream_calls label' label
    (s := { store := responder.store }) hservedBack hreceivedBack
  exact ⟨_, _, _, _, talks_greeting hhello hhello' hids (talks_bind hpages
      (talks_plans _ _ hplan hrequest hstream hplan' hrequest' hstream')),
    ⟨s₁, _, rfl, hs₁, rfl, rfl, rfl⟩, ⟨t₁, _, rfl, ht₁, rfl, rfl, rfl⟩⟩

/-- Whatever the order of their moves, the two processes end, and as the session read off at once
ends. -/
theorem session_met
    (hhello : validateMessage libs (localHello (deviceOf label initiator)) = .ok ())
    (hhello' : validateMessage libs (localHello (deviceOf label' responder)) = .ok ())
    (harrange : ∀ rows, (initiator.arrange rows).Perm rows)
    (harrange' : ∀ rows, (responder.arrange rows).Perm rows)
    (h : session libs.host initiator responder = .ok (side, back)) :
    ∃ moves, ∀ k s, Link.Runs k (meeting libs (deviceOf label initiator) (deviceOf label' responder)
        initiator.store responder.store) s →
      k ≤ moves ∧ (s.Stuck → EndsAs side s.left ∧ EndsAs back s.right) := by
  obtain ⟨ms, ns, l, r, htalks, hside, hback⟩ :=
    talks_session_calls hhello hhello' harrange harrange' h
  have hl : l.Finished := by
    obtain ⟨_, _, rfl, -⟩ := hside
    trivial
  have hr : r.Finished := by
    obtain ⟨_, _, rfl, -⟩ := hback
    trivial
  obtain ⟨moves, hmoves⟩ := Link.of_talks htalks hl hr
  refine ⟨moves, fun k s hrun => ?_⟩
  obtain ⟨hk, -, -, -, -, -, hstuck⟩ := hmoves k s hrun
  refine ⟨hk, fun hs => ?_⟩
  rw [hstuck hs]
  exact ⟨hside, hback⟩

end Session

end CopyPaste.Peer.Meeting
