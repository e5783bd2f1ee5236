import CopyPaste.Peer.Roles
import CopyPaste.Wire.RoundTrip
import Mathlib

/-!
The two halves of a session keep in step. Each message of one half meets a receive of the
other that takes it, page rounds end for both on the same two flags, and a stream of items
fits the budget of the side that asked for it; so every interleaving ends the same way.
-/

namespace CopyPaste.Peer.Lockstep

open Lib.Checks Lib.Duplex Lib.Rows Merge.Comparator Merge.Payload Cursor Plan Transfer Session Roles
open Wire.Messages (SyncMessage)
open Wire.Codec (Libraries ProtocolError protocolVersion validateMessage checked checkSummary checkItem
  checkIdField ensure_ok_iff sampleLibraries)

/-- A source that answers every call, with summaries the wire takes. -/
structure Honest {S : Type} (libs : Libraries) (device : Device S) : Prop where
  hello : validateMessage libs (.hello protocolVersion device.source.deviceId
    device.source.deviceName (some device.source.deviceProfile) device.listenAddr 0) = .ok ()
  arrange : ∀ rows, (device.arrange rows).Perm rows
  summaryPage : ∀ store since after limit, ∃ items store',
    device.source.summaryPage store since after limit = (.ok items, store') ∧
      ∀ item ∈ items, checkSummary item = .ok ()
  localSummaries : ∀ store ids, ∃ items store',
    device.source.localSummaries store ids = (.ok items, store')
  fetch : ∀ store ids, ∃ items store', device.source.fetch store ids = (.ok items, store')
  applyBatch : ∀ store batch, ∃ outcomes store',
    device.source.applyBatch store batch = (.ok outcomes, store')

section Acts

variable {M E S T α β γ δ : Type} {a : Act M E S α} {b : Act M E T β} {s s' : S} {t t' : T}
  {x : α} {y : β} {ms ns ms' ns' : List M}

variable {k : α → Act M E S γ}

theorem bind_done (h : a s = .done s' x) : (a >>= k) s = k x s' := by
  show (a s).bind _ = _
  rw [h]
  rfl

/-- Two acts that talk to their ends, and what follows on either side. -/
theorem talks_bind {k' : β → Act M E T δ} {l : Proc M E S γ} {r : Proc M E T δ}
    (h : Talks (a s) (b t) ms ns (.done s' x) (.done t' y))
    (h' : Talks (k x s') (k' y t') ms' ns' l r) :
    Talks ((a >>= k) s) ((b >>= k') t) (ms ++ ms') (ns ++ ns') l r :=
  (h.bind _ _).trans h'

theorem sends_bind {q : Proc M E S γ} (h : Sends (a s) ms (.done s' x))
    (h' : Sends (k x s') ms' q) : Sends ((a >>= k) s) (ms ++ ms') q :=
  (h.bind _).trans h'

end Acts

section Messages

variable {S T α : Type} {libs : Libraries} {s : Local S} {t : Local T}

variable {message : SyncMessage}

theorem send_valid (hvalid : validateMessage libs message = .ok ()) :
    (Roles.send libs message : Half S Unit) = Act.send message := by
  unfold Roles.send
  rw [hvalid]

theorem sends_send (hvalid : validateMessage libs message = .ok ()) (s : Local S) :
    Sends (Roles.send libs message s) [message] (.done s ()) := by
  rw [send_valid hvalid]
  exact .step (.refl _)

/-- Nothing is clamped in a message that was fit to be sent. -/
theorem checked_valid (hvalid : validateMessage libs message = .ok ()) :
    checked libs message = .ok message := by
  have hsame := Wire.Codec.clampTimestamps_eq (Wire.Codec.noNegative_of_validate libs hvalid)
  simp only [checked, hsame, hvalid]
  rfl

/-- What a receive goes on with. -/
def accept (libs : Libraries) (message : SyncMessage) : Half S SyncMessage :=
  match checked libs message with
  | .ok message => pure message
  | .error error => Act.fail (.protocol error)

/-- A message within the bounds is taken by the receive that it meets. -/
theorem talks_take {β : Type} {f : SyncMessage → Half S α}
    {next : Proc SyncMessage SessionError (Local T) β} {ms ns : List SyncMessage}
    {l : Proc SyncMessage SessionError (Local S) α} {r : Proc SyncMessage SessionError (Local T) β}
    (hvalid : validateMessage libs message = .ok ()) (h : Talks (f message s) next ms ns l r) :
    Talks ((receive libs >>= f) s) (.send t message next) ms (message :: ns) l r := by
  refine Talks.right ?_
  have hreceived : (accept libs message : Half S SyncMessage) s = .done s message := by
    rw [accept, checked_valid hvalid]
    rfl
  have htaken : (accept libs message >>= f) s = f message s := bind_done hreceived
  rw [← htaken] at h
  exact h

theorem talks_expect {f : SyncMessage → Half S α} {x : α}
    (hvalid : validateMessage libs message = .ok ()) (hf : f message s = .done s x) :
    Talks ((receive libs >>= f) s) (Roles.send libs message t) [] [message] (.done s x)
      (.done t ()) := by
  rw [send_valid hvalid]
  exact talks_take hvalid (hf ▸ .refl _ _)

theorem talks_receivePage {items : List ItemSummary} {more : Bool}
    (hvalid : validateMessage libs (.summary items more) = .ok ()) :
    Talks (receivePage libs s) (Roles.send libs (.summary items more) t) [] [.summary items more]
      (.done s (items, more)) (.done t ()) :=
  talks_expect hvalid rfl

theorem talks_receiveRequest {ids : List String}
    (hvalid : validateMessage libs (.request ids) = .ok ()) :
    Talks (receiveRequest libs s) (Roles.send libs (.request ids) t) [] [.request ids]
      (.done s ids) (.done t ()) :=
  talks_expect hvalid rfl

def helloOf (libs : Libraries) (device : Device S) : PeerHello where
  deviceId := device.source.deviceId
  deviceName := device.source.deviceName
  profile := some device.source.deviceProfile
  listenAddr := (device.listenAddr.bind libs.spelling.parseAddr).filter Peers.Group.isDialable
  sinceMs := device.cursor.sinceMs

theorem talks_recvHello {device : Device S} {peer : Device T}
    (hvalid : validateMessage libs (localHello peer) = .ok ())
    (hother : peer.source.deviceId ≠ device.source.deviceId) :
    Talks (recvHello libs device s) (Roles.send libs (localHello peer) t) [] [localHello peer]
      (.done s (helloOf libs peer)) (.done t ()) := by
  refine talks_expect hvalid ?_
  show (if peer.source.deviceId = device.source.deviceId then _ else _ : Half S PeerHello) s = _
  rw [if_neg hother]
  rfl

end Messages

section Exchange

variable {S T : Type} {libs : Libraries} {device : Device S} {peer : Device T}

theorem ask_done {α : Type} {f : S → Except SessionError α × S} {s : Local S} {x : α} {store : S}
    (h : f s.store = (.ok x, store)) : ask f s = .done { s with store := store } x := by
  unfold ask Act.call
  simp only [h]

/-- A page of an honest source is one the wire takes. -/
theorem nextPage_done (honest : Honest libs device) (reader : Reader) (s : Local S) :
    ∃ items more s', Roles.nextPage device.source reader s = .done s' (items, more) ∧
      validateMessage libs (.summary items more) = .ok () := by
  obtain ⟨items, store, hpage, hvalid⟩ := honest.summaryPage s.store reader.createdAt reader.itemId
    (maxSummariesPerMessage + 1)
  refine ⟨_, _, _, bind_done (ask_done hpage), ?_⟩
  simp only [validateMessage, bind_ok_iff, exists_unit, forM_ok_iff, Wire.Codec.checkCount,
    ensure_ok_iff, decide_eq_true_eq]
  refine ⟨?_, fun item hitem => hvalid item (List.mem_of_mem_take hitem)⟩
  exact List.length_take_le _ _

def isPage : SyncMessage → Bool
  | .summary _ _ => true
  | _ => false

/-- So many pages, all within the bounds of the wire. -/
structure PagesOf (libs : Libraries) (n : ℕ) (messages : List SyncMessage) : Prop where
  length : messages.length = n
  pages : ∀ message ∈ messages, isPage message = true
  valid : ∀ message ∈ messages, validateMessage libs message = .ok ()

theorem PagesOf.cons {n : ℕ} {messages : List SyncMessage} {items : List ItemSummary} {more : Bool}
    (hvalid : validateMessage libs (.summary items more) = .ok ()) (h : PagesOf libs n messages) :
    PagesOf libs (n + 1) (.summary items more :: messages) where
  length := by simp [h.length]
  pages := List.forall_mem_cons.2 ⟨rfl, h.pages⟩
  valid := List.forall_mem_cons.2 ⟨hvalid, h.valid⟩

theorem pagesOf_nil (libs : Libraries) : PagesOf libs 0 [] where
  length := rfl
  pages := by simp
  valid := by simp

/-- Nothing is planned yet, and what was received is within the bounds of the wire. -/
structure Unplanned (workspace : SummaryWorkspace) : Prop where
  remote : ∀ item ∈ workspace.remote, checkSummary item = .ok ()
  wanted : workspace.wanted = []

theorem keepPages_done (honest : Honest libs device) (workspace : SummaryWorkspace)
    (items peerItems : List ItemSummary) (s : Local S) :
    ∃ w s', keepPages device.source workspace items peerItems s = .done s' w ∧
      w.remote = workspace.remote ++ peerItems ∧ w.wanted = workspace.wanted := by
  obtain ⟨comparison, store, hlocal⟩ :=
    honest.localSummaries s.store (peerItems.map ItemSummary.itemId)
  exact ⟨_, _, bind_done (ask_done hlocal), rfl, rfl⟩

theorem Unplanned.append {workspace w : SummaryWorkspace} {peerItems : List ItemSummary}
    {more : Bool} (h : Unplanned workspace)
    (hw : w.remote = workspace.remote ++ peerItems ∧ w.wanted = workspace.wanted)
    (hvalid : validateMessage libs (.summary peerItems more) = .ok ()) : Unplanned w where
  remote := by
    simp only [validateMessage, bind_ok_iff, exists_unit, forM_ok_iff] at hvalid
    intro item hitem
    rw [hw.1] at hitem
    rcases List.mem_append.1 hitem with hold | hnew
    · exact h.remote item hold
    · exact hvalid.2 item hnew
  wanted := hw.2.trans h.wanted

/-- What is left of a round when both pages have crossed. -/
def roundEnd (libs : Libraries) (source : Source S) (initiator : Bool) (rounds : ℕ)
    (reader : Reader) (workspace : SummaryWorkspace) (page peerPage : List ItemSummary × Bool) :
    Half S SummaryWorkspace := do
  let workspace ← keepPages source workspace page.1 peerPage.1
  if !page.2 && !peerPage.2 then return workspace
  else exchangeWorkspace libs source initiator rounds (Reader.after reader page.1) workspace

theorem roundEnd_done {source : Source S} {initiator : Bool} {rounds : ℕ} {reader : Reader}
    {workspace w : SummaryWorkspace} {page peerPage : List ItemSummary × Bool} {s s' : Local S}
    (hkeep : keepPages source workspace page.1 peerPage.1 s = .done s' w) :
    roundEnd libs source initiator rounds reader workspace page peerPage s =
      if !page.2 && !peerPage.2 then .done s' w
      else exchangeWorkspace libs source initiator rounds (Reader.after reader page.1) w s' := by
  refine (bind_done hkeep).trans ?_
  split <;> rfl

theorem talks_round {rounds : ℕ} {reader back : Reader} {workspace keptBack : SummaryWorkspace}
    {s s₁ : Local S} {t t₁ : Local T} {page peerPage : List ItemSummary × Bool}
    {ms ns : List SyncMessage} {l : Proc SyncMessage SessionError (Local S) SummaryWorkspace}
    {r : Proc SyncMessage SessionError (Local T) SummaryWorkspace}
    (hnext : Roles.nextPage device.source reader s = .done s₁ page)
    (hnext' : Roles.nextPage peer.source back t = .done t₁ peerPage)
    (hvalid : validateMessage libs (.summary page.1 page.2) = .ok ())
    (hvalid' : validateMessage libs (.summary peerPage.1 peerPage.2) = .ok ())
    (h : Talks (roundEnd libs device.source true rounds reader workspace page peerPage s₁)
      (roundEnd libs peer.source false rounds back keptBack peerPage page t₁) ms ns l r) :
    Talks (exchangeWorkspace libs device.source true (rounds + 1) reader workspace s)
      (exchangeWorkspace libs peer.source false (rounds + 1) back keptBack t)
      (.summary page.1 page.2 :: ms) (.summary peerPage.1 peerPage.2 :: ns) l r := by
  have hleft : exchangeWorkspace libs device.source true (rounds + 1) reader workspace s =
      (Roles.send libs (.summary page.1 page.2) >>= fun _ => receivePage libs >>=
        roundEnd libs device.source true rounds reader workspace page) s₁ := by
    rw [exchangeWorkspace, if_pos rfl]
    have hnone : (pure none : Half S (Option (List ItemSummary × Bool))) s = .done s none := rfl
    exact (bind_done hnone).trans (bind_done hnext)
  have hright : ∀ first, (Roles.nextPage peer.source back >>= fun page => do
      Roles.send libs (.summary page.1 page.2)
      let peerPage ← (some first).elim (receivePage libs) pure
      roundEnd libs peer.source false rounds back keptBack page peerPage) t =
        (Roles.send libs (.summary peerPage.1 peerPage.2) >>= fun _ =>
          roundEnd libs peer.source false rounds back keptBack peerPage first) t₁ := by
    intro first
    exact bind_done hnext'
  have hout : Talks (Roles.send libs (.summary page.1 page.2) s₁) ((some <$> receivePage libs) t)
      [.summary page.1 page.2] [] (.done s₁ ()) (.done t (some page)) := by
    have hpage := (talks_receivePage hvalid (s := t) (t := s₁)).symm
    rw [send_valid hvalid] at hpage ⊢
    exact hpage.bind (fun s u => .done s u) fun t page => .done t (some page)
  have hback : Talks (receivePage libs s₁) (Roles.send libs (.summary peerPage.1 peerPage.2) t₁) []
      [.summary peerPage.1 peerPage.2] (.done s₁ peerPage) (.done t₁ ()) :=
    talks_receivePage hvalid'
  rw [hleft]
  refine talks_bind hout ?_
  show Talks _ ((Roles.nextPage peer.source back >>= fun page => do
      Roles.send libs (.summary page.1 page.2)
      let peerPage ← (some _).elim (receivePage libs) pure
      roundEnd libs peer.source false rounds back keptBack page peerPage) t) _ _ _ _
  rw [hright page]
  exact talks_bind hback h

/-- Both sides end the exchange in the same round, or neither ends it in time. -/
theorem talks_exchange (hd : Honest libs device) (hp : Honest libs peer) (rounds : ℕ)
    (reader back : Reader) (workspace keptBack : SummaryWorkspace) (s : Local S) (t : Local T)
    (hw : Unplanned workspace) (hk : Unplanned keptBack) :
    ∃ n ms ns l r, n ≤ rounds ∧ PagesOf libs n ms ∧ PagesOf libs n ns ∧
      Talks (exchangeWorkspace libs device.source true rounds reader workspace s)
        (exchangeWorkspace libs peer.source false rounds back keptBack t) ms ns l r ∧
      ((∃ s' t' w k, l = .done s' w ∧ r = .done t' k ∧ Unplanned w ∧ Unplanned k) ∨
        (n = rounds ∧ ∃ s' t', l = .fail s' .tooManySummaryPages ∧
          r = .fail t' .tooManySummaryPages)) := by
  induction rounds generalizing reader back workspace keptBack s t with
  | zero =>
    exact ⟨0, [], [], _, _, Nat.le_refl 0, pagesOf_nil libs, pagesOf_nil libs, .refl _ _,
      .inr ⟨rfl, s, t, rfl, rfl⟩⟩
  | succ rounds ih =>
    obtain ⟨items, more, s₁, hnext, hvalid⟩ := nextPage_done hd reader s
    obtain ⟨peerItems, peerMore, t₁, hnext', hvalid'⟩ := nextPage_done hp back t
    obtain ⟨w, s₂, hkeep, hw₂⟩ := keepPages_done hd workspace items peerItems s₁
    obtain ⟨k, t₂, hkeep', hk₂⟩ := keepPages_done hp keptBack peerItems items t₁
    have hw' := hw.append hw₂ hvalid'
    have hk' := hk.append hk₂ hvalid
    by_cases hlast : (!more && !peerMore) = true
    · refine ⟨1, _, _, _, _, by omega, (pagesOf_nil libs).cons hvalid, (pagesOf_nil libs).cons hvalid',
        talks_round hnext hnext' hvalid hvalid' ?_, .inl ⟨s₂, t₂, w, k, rfl, rfl, hw', hk'⟩⟩
      rw [roundEnd_done hkeep, roundEnd_done hkeep', if_pos hlast,
        if_pos (Bool.and_comm _ _ ▸ hlast)]
      exact .refl _ _
    · obtain ⟨n, ms, ns, l, r, hn, hms, hns, htalks, hends⟩ := ih (Reader.after reader items)
        (Reader.after back peerItems) w k s₂ t₂ hw' hk'
      refine ⟨n + 1, _, _, l, r, by omega, hms.cons hvalid, hns.cons hvalid',
        talks_round hnext hnext' hvalid hvalid' ?_, ?_⟩
      · rw [roundEnd_done hkeep, roundEnd_done hkeep', if_neg hlast,
          if_neg (Bool.and_comm _ _ ▸ hlast)]
        exact htalks
      · rcases hends with hdone | ⟨rfl, hfail⟩
        · exact .inl hdone
        · exact .inr ⟨rfl, hfail⟩

end Exchange

section Serving

variable {S : Type} {libs : Libraries} {device : Device S}

theorem checkIdField_of_checkId {field value : String} (h : checkId value = true) :
    checkIdField field value = .ok () := by
  simp only [checkId, Bool.and_eq_true, decide_eq_true_eq] at h
  simp only [checkIdField, Wire.Codec.checkLen, bind_ok_iff, exists_unit, ensure_ok_iff,
    decide_eq_true_eq]
  exact h

variable {item : SyncItem} {allowed messages : ℕ} {serving : Serving}

/-- An item that the server lets through is one the wire takes. -/
theorem checkItem_of_validate (h : item.validate libs.host = true) :
    checkItem libs item = .ok () := by
  simp only [SyncItem.validate, Bool.and_eq_true, decide_eq_true_eq] at h
  obtain ⟨⟨⟨⟨⟨⟨⟨⟨⟨⟨hid, horigin⟩, htype⟩, hfile⟩, hmetadata⟩, hhash⟩, hcreated⟩, hpinned⟩, hpin⟩, hone⟩,
    hsize⟩ := h
  have hchecked : Wire.Codec.checkMetadata libs item = .ok () := by
    unfold Wire.Codec.checkMetadata
    cases hsome : item.payloadMetadata with
    | none => rfl
    | some metadata =>
      rw [hsome, Option.all_some, Bool.and_eq_true, Bool.and_eq_true, decide_eq_true_eq] at hmetadata
      obtain ⟨⟨hlength, hlive⟩, hread⟩ := hmetadata
      simp only [Wire.Codec.checkLen, bind_ok_iff, exists_unit, ensure_ok_iff, decide_eq_true_eq]
      refine ⟨hlength, ?_⟩
      rw [Bool.not_eq_true', Bool.or_eq_false_iff, ← Bool.not_eq_true']
      refine ⟨hlive, ?_⟩
      rw [← Option.not_isSome, hread]
      rfl
  simp only [checkItem, bind_ok_iff, exists_unit, Wire.Codec.checkLen, Wire.Codec.checkTimestamp,
    Wire.Codec.checkPin, ensure_ok_iff, decide_eq_true_eq, checkIdField_of_checkId hid,
    checkIdField_of_checkId horigin, hchecked, true_and]
  exact ⟨htype, hfile, hhash, hcreated, hpinned, hpin, hone, hsize⟩

def messageBytes (item : SyncItem) : ℕ :=
  item.contentBytes + (item.payloadMetadata.map String.utf8ByteSize).getD 0

theorem messageBytes_le (h : item.validate libs.host = true) :
    messageBytes item ≤ maxItemBytesPerMessage := by
  simp only [SyncItem.validate, Bool.and_eq_true, decide_eq_true_eq] at h
  have hsize := h.2
  have hmetadata := h.1.1.1.1.1.1.2
  unfold messageBytes maxItemBytesPerMessage
  cases hsome : item.payloadMetadata with
  | none =>
    simp only [Option.map_none, Option.getD_none]
    omega
  | some metadata =>
    rw [hsome, Option.all_some, Bool.and_eq_true, Bool.and_eq_true, decide_eq_true_eq] at hmetadata
    have hlength := hmetadata.1.1
    simp only [Option.map_some, Option.getD_some]
    omega

theorem batchBytes_append (batch : List SyncItem) (item : SyncItem) :
    Wire.Codec.batchBytes (batch ++ [item]) = Wire.Codec.batchBytes batch + messageBytes item := by
  unfold Wire.Codec.batchBytes messageBytes
  rw [List.map_append, List.sum_append, List.map_cons, List.map_nil, List.sum_singleton]
  cases item.payloadMetadata with
  | none | some => rfl

/-- The message being filled is one the wire takes, and every message so far answers an id of
its own. -/
structure Fits (libs : Libraries) (allowed messages : ℕ) (serving : Serving) : Prop where
  count : messages + serving.batch.length + serving.unavailable.length ≤ allowed
  items : ∀ item ∈ serving.batch, checkItem libs item = .ok ()
  few : serving.batch.length ≤ maxItemsPerMessage
  bytes : serving.batchBytes = Wire.Codec.batchBytes serving.batch
  bounded : serving.batchBytes ≤ maxItemBytesPerMessage

theorem fits_start (libs : Libraries) (allowed : List String) (stats : SyncStats) :
    Fits libs allowed.length 0 ({ unavailable := allowed, stats := stats } : Serving) :=
  ⟨by simp, List.forall_mem_nil _, by simp, rfl, by simp⟩

theorem Fits.valid (h : Fits libs allowed messages serving) :
    validateMessage libs (.items serving.batch) = .ok () := by
  simp only [validateMessage, bind_ok_iff, exists_unit, forM_ok_iff, Wire.Codec.checkCount,
    ensure_ok_iff, decide_eq_true_eq]
  exact ⟨h.few, h.items, h.bytes ▸ h.bounded⟩

theorem Fits.join (h : Fits libs allowed (messages + 1) serving)
    (hvalid : item.validate libs.host = true)
    (hroom : ¬ (serving.batch ≠ [] ∧ (serving.batch.length = maxItemsPerMessage ∨
      maxItemBytesPerMessage < serving.batchBytes + messageBytes item))) :
    Fits libs allowed messages
      { serving with
        batch := serving.batch ++ [item]
        batchBytes := serving.batchBytes + messageBytes item } := by
  have hcount := h.count
  have hfew := h.few
  have hsingle := messageBytes_le hvalid
  have hbytes : serving.batch = [] → serving.batchBytes = 0 := by
    intro hempty
    rw [h.bytes, hempty]
    rfl
  have hfits : serving.batch.length + 1 ≤ maxItemsPerMessage ∧
      serving.batchBytes + messageBytes item ≤ maxItemBytesPerMessage := by
    by_cases hempty : serving.batch = []
    · rw [hbytes hempty, hempty, Nat.zero_add]
      exact ⟨by decide, hsingle⟩
    · push Not at hroom
      obtain ⟨hshort, hsmall⟩ := hroom hempty
      exact ⟨by omega, hsmall⟩
  refine ⟨?_, ?_, ?_, ?_, hfits.2⟩
  · simp only [List.length_append, List.length_singleton]
    omega
  · intro other hother
    rcases List.mem_append.1 hother with hold | hnew
    · exact h.items other hold
    · rw [List.mem_singleton.1 hnew]
      exact checkItem_of_validate hvalid
  · rw [List.length_append, List.length_singleton]
    exact hfits.1
  · rw [batchBytes_append, ← h.bytes]

/-- Serving one item: the messages that leave are within the bounds, and no more than ids. -/
theorem fits_serveItem (chunk : List String) (item : SyncItem)
    (h : Fits libs allowed messages serving) (hsent : serving.sent = []) :
    (∀ batch ∈ (Serving.serveItem libs.host chunk serving item).sent,
      validateMessage libs (.items batch) = .ok ()) ∧
    Fits libs allowed (messages + (Serving.serveItem libs.host chunk serving item).sent.length)
      (Serving.serveItem libs.host chunk serving item) := by
  have hnone : ∀ batch ∈ ([] : List (List SyncItem)), validateMessage libs (.items batch) = .ok () :=
    List.forall_mem_nil _
  unfold Serving.serveItem
  split
  · rw [hsent]
    exact ⟨hnone, h⟩
  rename_i hasked
  push Not at hasked
  have hid : item.cleared.itemId = item.itemId := by
    unfold SyncItem.cleared
    split <;> rfl
  have hfewer : (serving.unavailable.filter (· ≠ item.cleared.itemId)).length <
      serving.unavailable.length := by
    rw [List.length_filter_lt_length_iff_exists]
    exact ⟨item.itemId, hasked.2, by simp [hid]⟩
  have hcount := h.count
  dsimp only
  split
  · rw [hsent]
    refine ⟨hnone, ?_, h.items, h.few, h.bytes, h.bounded⟩
    simp only [List.length_nil]
    omega
  split
  · rw [hsent]
    exact ⟨hnone, h.count, h.items, h.few, h.bytes, h.bounded⟩
  rename_i hvalid
  rw [Bool.not_eq_true', Bool.not_eq_false] at hvalid
  split
  · rename_i hfull
    have hpositive := List.length_pos_iff.2 hfull.1
    constructor
    · intro batch hbatch
      have hbatch' : batch ∈ serving.sent ++ [serving.batch] := hbatch
      rw [hsent, List.nil_append, List.mem_singleton] at hbatch'
      rw [hbatch']
      exact h.valid
    · have hflushed : Fits libs allowed (messages + 1 + 1)
          { serving with
            unavailable := serving.unavailable.filter (· ≠ item.cleared.itemId)
            batch := []
            batchBytes := 0 } := by
        refine ⟨?_, List.forall_mem_nil _, by simp, rfl, by simp⟩
        simp only [List.length_nil]
        omega
      have hjoined := hflushed.join hvalid (by simp)
      have hlength : (Serving.flush { serving with
          unavailable := serving.unavailable.filter (· ≠ item.cleared.itemId) }).sent.length = 1 := by
        simp [Serving.flush, hsent]
      rw [hlength]
      exact { hjoined with }
  · rename_i hroom
    have hkept : Fits libs allowed (messages + 1)
        { serving with unavailable := serving.unavailable.filter (· ≠ item.cleared.itemId) } := by
      refine ⟨?_, h.items, h.few, h.bytes, h.bounded⟩
      simp only
      omega
    have hjoined := hkept.join hvalid hroom
    rw [hsent]
    exact ⟨hnone, hjoined.count, hjoined.items, hjoined.few, hjoined.bytes, hjoined.bounded⟩

/-- Messages of items, all within the bounds of the wire. -/
def Streams (libs : Libraries) (messages : List SyncMessage) : Prop :=
  ∀ message ∈ messages, (∃ batch, message = .items batch) ∧ validateMessage libs message = .ok ()

theorem streams_append {first second : List SyncMessage} (h : Streams libs first)
    (h' : Streams libs second) : Streams libs (first ++ second) := by
  intro message hmessage
  rcases List.mem_append.1 hmessage with hfirst | hsecond
  · exact h message hfirst
  · exact h' message hsecond

theorem sends_forM {β : Type} (f : β → SyncMessage) (xs : List β) (s : Local S)
    (hvalid : ∀ x ∈ xs, validateMessage libs (f x) = .ok ()) :
    Sends ((xs.forM fun x => Roles.send libs (f x) : Half S Unit) s) (xs.map f) (.done s ()) := by
  induction xs with
  | nil => exact .refl _
  | cons x rest ih =>
    obtain ⟨hfirst, hrest⟩ := List.forall_mem_cons.1 hvalid
    exact sends_bind (sends_send hfirst s) (ih hrest)

/-- A step that sends and follows another one, repeated over a list. -/
theorem sends_foldlM {β σ ω : Type} {step : σ → β → Half S σ} {f : ω → β → ω}
    {R : List SyncMessage → Local S → σ → ω → Prop}
    (hstep : ∀ sent s state u x, R sent s state u → ∃ ms s' state',
      Sends (step state x s) ms (.done s' state') ∧ R (sent ++ ms) s' state' (f u x))
    (xs : List β) {sent : List SyncMessage} {s : Local S} {state : σ} {u : ω}
    (h : R sent s state u) :
    ∃ ms s' state', Sends (xs.foldlM step state s) ms (.done s' state') ∧
      R (sent ++ ms) s' state' (xs.foldl f u) := by
  induction xs generalizing sent s state u with
  | nil => exact ⟨[], s, state, .refl _, by rwa [List.append_nil]⟩
  | cons x rest ih =>
    obtain ⟨ms, s₁, state₁, hfirst, h₁⟩ := hstep sent s state u x h
    obtain ⟨ms', s₂, state₂, hrest, h₂⟩ := ih h₁
    refine ⟨ms ++ ms', s₂, state₂, ?_, ?_⟩
    · rw [List.foldlM_cons]
      exact sends_bind hfirst hrest
    · rwa [← List.append_assoc]

/-- The messages that leave with an item are those of the step. -/
theorem sends_serveItem (chunk : List String) (item : SyncItem) (s : Local S)
    (h : Fits libs allowed messages serving) {next : Serving}
    (hnext : Serving.serveItem libs.host chunk { serving with sent := [] } item = next) :
    Sends (Roles.serveItem libs chunk serving item s) (next.sent.map .items) (.done s next) ∧
      Streams libs (next.sent.map .items) ∧
      Fits libs allowed (messages + next.sent.length) next := by
  have hcleared : Fits libs allowed messages { serving with sent := [] } :=
    { h with }
  obtain ⟨hvalid, hfits⟩ := fits_serveItem chunk item hcleared rfl
  rw [hnext] at hvalid hfits
  refine ⟨?_, fun message hmessage => ?_, hfits⟩
  · have hsends := sends_bind (sends_forM SyncMessage.items next.sent s hvalid)
      (k := fun _ => pure next) (.refl _)
    rw [List.append_nil] at hsends
    rw [← hnext] at hsends ⊢
    exact hsends
  · obtain ⟨batch, hbatch, rfl⟩ := List.mem_map.1 hmessage
    exact ⟨⟨batch, rfl⟩, hvalid batch hbatch⟩

/-- What was sent so far leaves room for what is still owed. -/
def Within (libs : Libraries) (allowed : ℕ) (sent : List SyncMessage) (serving : Serving) : Prop :=
  Streams libs sent ∧ Fits libs allowed sent.length serving

theorem sends_serveChunk (honest : Honest libs device) (chunk : List String) (s : Local S)
    {sent : List SyncMessage} (h : Within libs allowed sent serving) :
    ∃ ms s' serving', Sends (serveChunk libs device.source serving chunk s) ms (.done s' serving') ∧
      Within libs allowed (sent ++ ms) serving' := by
  obtain ⟨items, store, hfetch⟩ := honest.fetch s.store chunk
  have hask : serveChunk libs device.source serving chunk s =
      items.foldlM (Roles.serveItem libs chunk) serving { s with store := store } :=
    bind_done (ask_done hfetch)
  rw [hask]
  refine sends_foldlM (f := fun u _ => u)
    (R := fun sent _ serving _ => Within libs allowed sent serving)
    (fun sent s serving _ item h => ?_) items (u := ()) h
  obtain ⟨hsends, hms, hfits⟩ := sends_serveItem chunk item s h.2 rfl
  refine ⟨_, s, _, hsends, streams_append h.1 hms, ?_⟩
  rw [List.length_append, List.length_map]
  exact hfits

/-- The message that is left when all is served, if there is one. -/
def lastBatch (serving : Serving) : List SyncMessage :=
  if serving.batch = [] then [] else [.items serving.batch]

theorem sends_flushBatch (h : Fits libs allowed messages serving) (s : Local S) :
    Sends (flushBatch libs serving s) (lastBatch serving)
        (.done s (if serving.batch = [] then serving else serving.flush).stats) ∧
      Streams libs (lastBatch serving) ∧ (lastBatch serving).length ≤ serving.batch.length := by
  unfold flushBatch lastBatch
  by_cases hempty : serving.batch = []
  · rw [if_pos hempty, if_pos hempty, if_pos hempty]
    exact ⟨.refl _, List.forall_mem_nil _, Nat.zero_le _⟩
  · rw [if_neg hempty, if_neg hempty, if_neg hempty]
    refine ⟨sends_bind (sends_send h.valid s) (.refl _), fun message hmessage => ?_,
      List.length_pos_iff.2 hempty⟩
    rw [List.mem_singleton.1 hmessage]
    exact ⟨⟨_, rfl⟩, h.valid⟩

theorem length_eraseDups_le (ids : List String) : ids.eraseDups.length ≤ ids.length := by
  induction hn : ids.length using Nat.strong_induction_on generalizing ids with
  | _ n ih =>
    cases ids with
    | nil => exact Nat.zero_le _
    | cons id rest =>
      have hfilter := List.length_filter_le (fun other => !other == id) rest
      have hlength : (id :: rest).length = rest.length + 1 := rfl
      rw [List.eraseDups_cons, List.length_cons]
      have := ih _ (by omega) (rest.filter fun other => !other == id) rfl
      omega

/-- The served stream: messages of items, no more of them than ids requested, and its close. -/
theorem sends_serveItems (honest : Honest libs device) (advertised : List ItemSummary)
    (requested : List String) (stats : SyncStats) (s : Local S) :
    ∃ ms stats' s', Sends (Roles.serveItems libs device.source advertised requested stats s)
        (ms ++ [.done]) (.done s' stats') ∧
      Streams libs ms ∧ ms.length ≤ requested.length := by
  obtain ⟨allowed, hallowed⟩ : ∃ allowed, allowed = (requested.filter fun id =>
    (lookup ItemSummary.itemId advertised id).isSome).eraseDups := ⟨_, rfl⟩
  have hfew : allowed.length ≤ requested.length := by
    rw [hallowed]
    exact (length_eraseDups_le _).trans (List.length_filter_le _ _)
  have hstart : Within libs allowed.length []
      ({ unavailable := allowed, stats := stats } : Serving) :=
    ⟨List.forall_mem_nil _, fits_start libs allowed stats⟩
  obtain ⟨ms, s₁, serving, hserve, hms, hfits⟩ := sends_foldlM (f := fun u _ => u)
    (R := fun sent _ serving _ => Within libs allowed.length sent serving)
    (fun _ s _ _ chunk h => sends_serveChunk honest chunk s h)
    (chunks maxItemsPerMessage allowed) (s := s) (u := ()) hstart
  rw [List.nil_append] at hms hfits
  have hcount := hfits.count
  obtain ⟨hflush, hlast, hshort⟩ := sends_flushBatch hfits s₁
  generalize (if serving.batch = [] then serving else serving.flush).stats = stats₁ at hflush
  refine ⟨ms ++ lastBatch serving, { stats₁ with
    skipped := stats₁.skipped + serving.unavailable.length
    skippedUnavailable := stats₁.skippedUnavailable + serving.unavailable.length }, s₁, ?_,
    streams_append hms hlast, ?_⟩
  · unfold Roles.serveItems
    rw [← hallowed, List.append_assoc]
    exact sends_bind hserve (sends_bind hflush (sends_bind (sends_send rfl s₁) (.refl _)))
  · rw [List.length_append]
    omega

end Serving

section Receiving

variable {S T β : Type} {libs : Libraries} {device : Device S}

theorem applyBatch_done {source : Source S} {batch : List SyncItem} {s : Local S}
    {outcomes : List Bool} {store : S}
    (h : source.applyBatch s.store batch = (.ok outcomes, store)) :
    ∃ s', s'.store = store ∧ Roles.applyBatch source batch s = .done s' outcomes := by
  refine ⟨⟨store, s.stored ++
    ((outcomes.zip batch).filter Prod.fst).map fun entry => entry.2.summary⟩, rfl, ?_⟩
  unfold Roles.applyBatch Act.call
  simp only [h]

/-- A stream that fits the budget is received to its close. -/
theorem talks_receiveItems (honest : Honest libs device) (wanted : List ItemSummary)
    (ms : List SyncMessage) (hms : Streams libs ms) {budget : ℕ} (hbudget : ms.length < budget)
    (receiving : Receiving Unit) (s : Local S) {r q : Proc SyncMessage SessionError (Local T) β}
    (hsends : Sends r (ms ++ [.done]) q) :
    ∃ s' received, Talks (Roles.receiveItems libs device.source wanted budget receiving s) r []
      (ms ++ [.done]) (.done s' received) q := by
  induction ms generalizing budget receiving s r with
  | nil =>
    obtain ⟨budget, rfl⟩ : ∃ b, budget = b + 1 := ⟨budget - 1, by omega⟩
    cases hsends with
    | step hrest =>
      cases hrest
      exact ⟨s, _, talks_take rfl (.refl _ _)⟩
  | cons message rest ih =>
    obtain ⟨budget, rfl⟩ : ∃ b, budget = b + 1 := ⟨budget - 1, by omega⟩
    rw [List.length_cons] at hbudget
    obtain ⟨⟨items, rfl⟩, hvalid⟩ := hms _ List.mem_cons_self
    have hrest : Streams libs rest := fun message hmessage =>
      hms message (List.mem_cons_of_mem _ hmessage)
    cases hsends with
    | step hnext =>
      obtain ⟨taken, hfold⟩ : ∃ taken, taken =
        items.foldl (Receiving.takeItem libs.host wanted) (receiving, []) := ⟨_, rfl⟩
      by_cases hempty : taken.2 = []
      · obtain ⟨s', received, htalks⟩ := ih hrest (Nat.lt_of_succ_lt_succ hbudget) taken.1 s hnext
        refine ⟨s', received, talks_take hvalid ?_⟩
        dsimp only
        rw [← hfold, if_pos hempty]
        exact htalks
      · obtain ⟨outcomes, store, hstored⟩ := honest.applyBatch s.store taken.2
        obtain ⟨s₁, -, happly⟩ := applyBatch_done hstored
        obtain ⟨s', received, htalks⟩ := ih hrest (Nat.lt_of_succ_lt_succ hbudget) _ s₁ hnext
        refine ⟨s', received, talks_take hvalid ?_⟩
        dsimp only
        rw [← hfold, if_neg hempty, bind_done happly]
        exact htalks

end Receiving

section Session

variable {S T : Type} {libs : Libraries} {device : Device S} {peer : Device T}

theorem valid_localHello (honest : Honest libs device) (hsince : 0 ≤ device.cursor.sinceMs) :
    validateMessage libs (localHello device) = .ok () := by
  have hhello := honest.hello
  simp only [localHello, validateMessage, bind_ok_iff, exists_unit, ensure_ok_iff,
    decide_eq_true_eq] at hhello ⊢
  obtain ⟨hversion, hid, hname, hprofile, -, haddr⟩ := hhello
  exact ⟨hversion, hid, hname, hprofile, hsince, haddr⟩

theorem valid_requestFor (harrange : ∀ rows, (device.arrange rows).Perm rows)
    {wanted : List ItemSummary} (hvalid : ∀ item ∈ wanted, checkSummary item = .ok ())
    (hcount : wanted.length ≤ Plan.maxRequestIdsPerMessage) :
    validateMessage libs (requestFor device wanted) = .ok () := by
  have hperm := harrange wanted
  simp only [requestFor, validateMessage, bind_ok_iff, exists_unit, forM_ok_iff,
    Wire.Codec.checkCount, ensure_ok_iff, decide_eq_true_eq, List.length_map]
  refine ⟨hperm.length_eq.trans_le hcount, fun id hid => ?_⟩
  obtain ⟨item, hitem, rfl⟩ := List.mem_map.1 hid
  have hchecked := hvalid item (hperm.mem_iff.1 hitem)
  simp only [checkSummary, bind_ok_iff, exists_unit] at hchecked
  exact hchecked.1

/-- Of the messages sent, those that are pages. -/
def pageCount (messages : List SyncMessage) : ℕ := messages.countP isPage

theorem pageCount_append (first second : List SyncMessage) :
    pageCount (first ++ second) = pageCount first + pageCount second :=
  List.countP_append

variable {n : ℕ} {l : Proc SyncMessage SessionError (Local S) SyncOutcome}
  {r : Proc SyncMessage SessionError (Local T) SyncOutcome}

theorem PagesOf.count {messages : List SyncMessage} (h : PagesOf libs n messages) :
    pageCount messages = n := by
  rw [← h.length]
  exact List.countP_eq_length.2 h.pages

/-- Messages within the bounds of the wire, so many of them pages. -/
structure Sent (libs : Libraries) (n : ℕ) (messages : List SyncMessage) : Prop where
  pages : pageCount messages = n
  valid : ∀ message ∈ messages, validateMessage libs message = .ok ()

theorem sent_nil (libs : Libraries) : Sent libs 0 [] := ⟨rfl, List.forall_mem_nil _⟩

theorem PagesOf.sent {messages : List SyncMessage} (h : PagesOf libs n messages) :
    Sent libs n messages :=
  ⟨h.count, h.valid⟩

theorem Sent.append {m : ℕ} {first second : List SyncMessage} (h : Sent libs m first)
    (h' : Sent libs n second) : Sent libs (m + n) (first ++ second) where
  pages := by rw [pageCount_append, h.pages, h'.pages]
  valid := by
    intro message hmessage
    rcases List.mem_append.1 hmessage with hfirst | hsecond
    · exact h.valid message hfirst
    · exact h'.valid message hsecond

theorem sent_single {message : SyncMessage} (hpage : isPage message = false)
    (hvalid : validateMessage libs message = .ok ()) : Sent libs 0 [message] where
  pages := by simp [pageCount, hpage]
  valid := by
    intro other hother
    rw [List.mem_singleton.1 hother]
    exact hvalid

theorem sent_stream {ms : List SyncMessage} (h : Streams libs ms) :
    Sent libs 0 (ms ++ [.done]) := by
  refine Sent.append (m := 0) (n := 0) ⟨?_, fun message hmessage => (h message hmessage).2⟩
    (sent_single rfl rfl)
  rw [pageCount, List.countP_eq_zero]
  intro message hmessage
  obtain ⟨⟨batch, rfl⟩, -⟩ := h message hmessage
  exact Bool.false_ne_true

def requestIds (device : Device S) (wanted : List ItemSummary) : List String :=
  (device.arrange wanted).map ItemSummary.itemId

/-- One side receives what the other serves of its request. -/
theorem talks_stream (hd : Honest libs device) (hp : Honest libs peer) (wanted : List ItemSummary)
    (receiving : Receiving Unit) (advertised : List ItemSummary) (stats : SyncStats)
    (s : Local S) (t : Local T) :
    ∃ ns received stats' s' t', Sent libs 0 ns ∧
      Talks (Roles.receiveItems libs device.source wanted (receiveBudget wanted) receiving s)
        (Roles.serveItems libs peer.source advertised (requestIds device wanted) stats t)
        [] ns (.done s' received) (.done t' stats') := by
  obtain ⟨ms, stats', t', hsends, hms, hlength⟩ := sends_serveItems hp advertised
    (requestIds device wanted) stats t
  rw [requestIds, List.length_map, (hd.arrange wanted).length_eq] at hlength
  obtain ⟨s', received, htalks⟩ := talks_receiveItems hd wanted ms hms
    (show ms.length < receiveBudget wanted by unfold receiveBudget; omega) receiving s hsends
  exact ⟨_, received, stats', s', t', sent_stream hms, htalks⟩

/-- What is left of the initiating half when the summaries have crossed. -/
def askThenServe (libs : Libraries) (device : Device S) (other : PeerHello)
    (workspace : SummaryWorkspace) : Half S SyncOutcome := do
  let (workspace, wanted, stats) := workspace.planWorkspace device.arrange device.now {}
  Roles.send libs (requestFor device wanted)
  let received ← Roles.receiveItems libs device.source wanted (receiveBudget wanted)
    { store := (), stats := stats }
  let requested ← receiveRequest libs
  let stats ← Roles.serveItems libs device.source (requestedAdvertised workspace requested) requested
    received.stats
  return outcomeOf device other workspace wanted received stats

/-- What is left of the responding half when it has served. -/
def afterServing (libs : Libraries) (device : Device S) (other : PeerHello)
    (workspace : SummaryWorkspace) (stats : SyncStats) : Half S SyncOutcome := do
  let (workspace, wanted, stats) := workspace.planWorkspace device.arrange device.now stats
  Roles.send libs (requestFor device wanted)
  let received ← Roles.receiveItems libs device.source wanted (receiveBudget wanted)
    { store := (), stats := stats }
  return outcomeOf device other workspace wanted received received.stats

/-- What is left of the responding half when the summaries have crossed. -/
def serveThenAsk (libs : Libraries) (device : Device S) (other : PeerHello)
    (workspace : SummaryWorkspace) : Half S SyncOutcome := do
  let requested ← receiveRequest libs
  let stats ← Roles.serveItems libs device.source (requestedAdvertised workspace requested)
    requested {}
  afterServing libs device other workspace stats

theorem valid_planned (libs : Libraries) (harrange : ∀ rows, (device.arrange rows).Perm rows)
    {workspace : SummaryWorkspace} (hplan : Unplanned workspace) (stats : SyncStats) :
    validateMessage libs (requestFor device
      (workspace.planWorkspace device.arrange device.now stats).2.1) = .ok () := by
  obtain ⟨hremote, hcount⟩ := SummaryWorkspace.selected_planWorkspace harrange hplan.wanted
    device.now stats
  exact valid_requestFor harrange (fun item hitem => hplan.remote item (hremote item hitem)) hcount

/-- After the summaries, each side asks for what it has planned and is served by the other. -/
theorem talks_plans {kept keptBack workspace workspaceBack : SummaryWorkspace}
    {wanted wantedBack : List ItemSummary} {counted served countedBack last : SyncStats}
    {received receivedBack : Receiving Unit} {ms ns : List SyncMessage} {s s₁ s₂ : Local S}
    {t t₁ t₂ : Local T} (other back : PeerHello)
    (hplan : kept.planWorkspace device.arrange device.now {} = (workspace, wanted, counted))
    (hrequest : validateMessage libs (requestFor device wanted) = .ok ())
    (hstream : Talks (Roles.receiveItems libs device.source wanted (receiveBudget wanted)
        { store := (), stats := counted } s)
      (Roles.serveItems libs peer.source (requestedAdvertised keptBack (requestIds device wanted))
        (requestIds device wanted) {} t) [] ns (.done s₁ received) (.done t₁ served))
    (hplan' : keptBack.planWorkspace peer.arrange peer.now served =
      (workspaceBack, wantedBack, countedBack))
    (hrequest' : validateMessage libs (requestFor peer wantedBack) = .ok ())
    (hstream' : Talks (Roles.receiveItems libs peer.source wantedBack (receiveBudget wantedBack)
        { store := (), stats := countedBack } t₁)
      (Roles.serveItems libs device.source
        (requestedAdvertised workspace (requestIds peer wantedBack)) (requestIds peer wantedBack)
        received.stats s₁) [] ms (.done t₂ receivedBack) (.done s₂ last)) :
    Talks (askThenServe libs device other kept s) (serveThenAsk libs peer back keptBack t)
      ([requestFor device wanted] ++ ([] ++ ([] ++ (ms ++ []))))
      ([] ++ (ns ++ ([requestFor peer wantedBack] ++ ([] ++ []))))
      (.done s₂ (outcomeOf device other workspace wanted received last))
      (.done t₂ (outcomeOf peer back workspaceBack wantedBack receivedBack
        receivedBack.stats)) := by
  unfold askThenServe serveThenAsk afterServing
  rw [hplan]
  refine talks_bind (talks_receiveRequest hrequest).symm (talks_bind hstream ?_)
  dsimp only
  rw [hplan']
  exact talks_bind (talks_receiveRequest hrequest') (talks_bind hstream'.symm (.refl _ _))

theorem talks_transfers (hd : Honest libs device) (hp : Honest libs peer)
    {kept keptBack : SummaryWorkspace} (hw : Unplanned kept) (hk : Unplanned keptBack)
    (other back : PeerHello) (s : Local S) (t : Local T) :
    ∃ ms ns s' t' outcome outcome', Sent libs 0 ms ∧ Sent libs 0 ns ∧
      Talks (askThenServe libs device other kept s)
        (serveThenAsk libs peer back keptBack t) ms ns (.done s' outcome) (.done t' outcome') := by
  have hrequest := valid_planned libs hd.arrange hw {}
  rcases hplan : kept.planWorkspace device.arrange device.now {} with ⟨workspace, wanted, counted⟩
  rw [hplan] at hrequest
  obtain ⟨ns, received, served, s₁, t₁, hns, hstream⟩ := talks_stream hd hp wanted
    { store := (), stats := counted } (requestedAdvertised keptBack (requestIds device wanted)) {}
    s t
  have hrequest' := valid_planned libs hp.arrange hk served
  rcases hplan' : keptBack.planWorkspace peer.arrange peer.now served with
    ⟨workspaceBack, wantedBack, countedBack⟩
  rw [hplan'] at hrequest'
  obtain ⟨ms, receivedBack, last, t₂, s₂, hms, hstream'⟩ := talks_stream hp hd wantedBack
    { store := (), stats := countedBack }
    (requestedAdvertised workspace (requestIds peer wantedBack)) received.stats t₁ s₁
  refine ⟨_, _, s₂, t₂, _, _, ?_, ?_,
    talks_plans other back hplan hrequest hstream hplan' hrequest' hstream'⟩
  · exact (sent_single rfl hrequest).append ((sent_nil libs).append ((sent_nil libs).append
      (hms.append (sent_nil libs))))
  · exact (sent_nil libs).append (hns.append ((sent_single rfl hrequest').append
      ((sent_nil libs).append (sent_nil libs))))

/-- How the two halves end: both with an outcome, or both for too many pages. -/
def Ends {α β : Type} (n : ℕ) (l : Proc SyncMessage SessionError (Local S) α)
    (r : Proc SyncMessage SessionError (Local T) β) : Prop :=
  (∃ s t x y, l = .done s x ∧ r = .done t y) ∨
    n = maxSummaryPagesPerSession ∧
      ∃ s t, l = .fail s .tooManySummaryPages ∧ r = .fail t .tooManySummaryPages

theorem unplanned_empty : Unplanned {} := ⟨List.forall_mem_nil _, rfl⟩

theorem talks_greeting (hhello : validateMessage libs (localHello device) = .ok ())
    (hhello' : validateMessage libs (localHello peer) = .ok ())
    (hids : device.source.deviceId ≠ peer.source.deviceId) {s : Local S} {t : Local T}
    {ms ns : List SyncMessage} (h : Talks
      ((exchangeWith libs device true (helloOf libs peer) >>=
        askThenServe libs device (helloOf libs peer)) s)
      ((exchangeWith libs peer false (helloOf libs device) >>=
        serveThenAsk libs peer (helloOf libs device)) t) ms ns l r) :
    Talks (runInitiator libs device s) (runResponder libs peer t) (localHello device :: ms)
      (localHello peer :: ns) l r := by
  unfold runInitiator runResponder
  exact talks_bind (talks_recvHello hhello hids).symm
    (talks_bind (talks_recvHello hhello' hids.symm) h)

/-- The whole session, message against message. -/
theorem talks_session (hd : Honest libs device) (hp : Honest libs peer)
    (hids : device.source.deviceId ≠ peer.source.deviceId) (hsince : 0 ≤ device.cursor.sinceMs)
    (hsince' : 0 ≤ peer.cursor.sinceMs) (s : Local S) (t : Local T) :
    ∃ n ms ns l r, n ≤ maxSummaryPagesPerSession ∧ Sent libs n ms ∧ Sent libs n ns ∧
      Talks (runInitiator libs device s) (runResponder libs peer t) ms ns l r ∧ Ends n l r := by
  have hhello := valid_localHello hd hsince
  have hhello' := valid_localHello hp hsince'
  obtain ⟨n, ms, ns, l, r, hn, hms, hns, hexchange, hends⟩ := talks_exchange hd hp
    maxSummaryPagesPerSession ⟨device.cursor.advertiseFrom peer.cursor.sinceMs, none⟩
    ⟨peer.cursor.advertiseFrom device.cursor.sinceMs, none⟩ {} {} s t unplanned_empty
    unplanned_empty
  have hsent := (sent_single rfl hhello).append hms.sent
  have hsent' := (sent_single rfl hhello').append hns.sent
  rw [Nat.zero_add] at hsent hsent'
  rcases hends with ⟨s', t', w, k, rfl, rfl, hw, hk⟩ | ⟨hpages, s', t', rfl, rfl⟩
  · obtain ⟨ms', ns', s₂, t₂, outcome, outcome', hms', hns', htransfers⟩ :=
      talks_transfers hd hp hw hk (helloOf libs peer) (helloOf libs device) s' t'
    exact ⟨n, _, _, _, _, hn, hsent.append hms', hsent'.append hns',
      talks_greeting hhello hhello' hids (talks_bind hexchange htransfers),
      .inl ⟨s₂, t₂, outcome, outcome', rfl, rfl⟩⟩
  · exact ⟨n, _, _, _, _, hn, hsent, hsent',
      talks_greeting hhello hhello' hids (hexchange.bind _ _),
      .inr ⟨hpages, s', t', rfl, rfl⟩⟩

/-- An initiator and a responder over a reliable channel, at any point of their session. -/
abbrev Meeting (S T : Type) :=
  Link SyncMessage SessionError (Local S) (Local T) SyncOutcome SyncOutcome

def meeting (libs : Libraries) (device : Device S) (peer : Device T) (store : S) (store' : T) :
    Meeting S T where
  left := runInitiator libs device { store }
  right := runResponder libs peer { store := store' }

/-- No side has met a message it does not take, and the two do not wait for each other. -/
structure InStep (libs : Libraries) (s : Meeting S T) : Prop where
  valid : ∀ message ∈ s.leftLog ++ s.rightLog, validateMessage libs message = .ok ()
  left : ∀ state error, s.left = .fail state error → error = .tooManySummaryPages
  right : ∀ state error, s.right = .fail state error → error = .tooManySummaryPages
  moving : ¬ s.BothWait

theorem Ends.finished (h : Ends n l r) : l.Finished ∧ r.Finished := by
  rcases h with ⟨s, t, x, y, rfl, rfl⟩ | ⟨-, s, t, rfl, rfl⟩
  · exact ⟨trivial, trivial⟩
  · exact ⟨trivial, trivial⟩

theorem Ends.fails (h : Ends n l r) :
    (∀ state error, l = .fail state error → error = .tooManySummaryPages) ∧
      ∀ state error, r = .fail state error → error = .tooManySummaryPages := by
  rcases h with ⟨s, t, x, y, rfl, rfl⟩ | ⟨-, s, t, rfl, rfl⟩
  · exact ⟨nofun, nofun⟩
  · constructor
    · rintro _ _ ⟨rfl, rfl⟩
      rfl
    · rintro _ _ ⟨rfl, rfl⟩
      rfl

/-- Whatever the order of their moves and however their histories change meanwhile, the two
halves stay in step and end, both after the same number of pages. -/
theorem session_lockstep (hd : Honest libs device) (hp : Honest libs peer)
    (hids : device.source.deviceId ≠ peer.source.deviceId) (hsince : 0 ≤ device.cursor.sinceMs)
    (hsince' : 0 ≤ peer.cursor.sinceMs) (store : S) (store' : T) :
    ∃ moves pages, pages ≤ maxSummaryPagesPerSession ∧
      ∀ k s, Link.Runs k (meeting libs device peer store store') s →
        k ≤ moves ∧ InStep libs s ∧
        (s.Stuck → pageCount s.leftLog = pages ∧ pageCount s.rightLog = pages ∧
          Ends pages s.left s.right) := by
  obtain ⟨pages, ms, ns, l, r, hpages, hms, hns, htalks, hends⟩ :=
    talks_session hd hp hids hsince hsince' { store } { store := store' }
  obtain ⟨moves, hmoves⟩ := Link.of_talks htalks hends.finished.1 hends.finished.2
  refine ⟨moves, pages, hpages, fun k s hrun => ?_⟩
  obtain ⟨hk, -, hlog, hlog', hleft, hright, hstuck⟩ := hmoves k s hrun
  refine ⟨hk, ⟨?_, ?_, ?_, ?_⟩, fun hs => ?_⟩
  · intro message hmessage
    rcases List.mem_append.1 hmessage with hsent | hsent
    · exact hms.valid message (hlog.subset hsent)
    · exact hns.valid message (hlog'.subset hsent)
  · intro state error hfail
    have hended : s.left = l := hleft (by rw [hfail]; trivial)
    exact hends.fails.1 state error (hended.symm.trans hfail)
  · intro state error hfail
    have hended : s.right = r := hright (by rw [hfail]; trivial)
    exact hends.fails.2 state error (hended.symm.trans hfail)
  · intro hwait
    have hfinal := hstuck (Link.stuck_of_bothWait hwait)
    obtain ⟨⟨state, next, hrecv⟩, -⟩ := hwait
    have hfinished : s.left.Finished := by
      rw [hfinal]
      exact hends.finished.1
    rw [hrecv] at hfinished
    exact hfinished
  · rw [hstuck hs]
    exact ⟨hms.pages, hns.pages, hends⟩

/-- A history of items that offers what the wire takes. -/
def sampleSource (deviceId : String) : Source (List SyncItem) where
  deviceId := deviceId
  deviceName := "desk"
  deviceProfile := {}
  summaryPage store since _ limit :=
    (.ok (((store.map SyncItem.summary).filter fun row =>
      (checkSummary row).isOk ∧ since ≤ row.createdAt).take limit), store)
  localSummaries store ids :=
    (.ok ((store.map SyncItem.summary).filter fun row => row.itemId ∈ ids), store)
  fetch store ids := (.ok (store.filter fun item => item.itemId ∈ ids), store)
  applyBatch store batch := (.ok (batch.map fun _ => true), store ++ batch)
  landed _ batch := batch.map fun _ => false

def sampleDevice (deviceId : String) (sinceMs : Int) : Device (List SyncItem) where
  source := sampleSource deviceId
  listenAddr := none
  cursor := { sinceMs }
  now := 100
  arrange := id

theorem honest_sampleDevice (deviceId : String) (sinceMs : Int)
    (hid : deviceId = "desk" ∨ deviceId = "phone") :
    Honest sampleLibraries (sampleDevice deviceId sinceMs) where
  hello := by
    rcases hid with rfl | rfl
    · show validateMessage sampleLibraries (.hello protocolVersion "desk" "desk" (some {}) none 0) = _
      decide
    · show validateMessage sampleLibraries (.hello protocolVersion "phone" "desk" (some {}) none 0) = _
      decide
  arrange rows := List.Perm.refl rows
  summaryPage store since after limit := by
    refine ⟨_, _, rfl, fun item hitem => ?_⟩
    have hkept := List.mem_filter.1 (List.mem_of_mem_take hitem)
    have hok := (of_decide_eq_true hkept.2).1
    cases hcheck : checkSummary item with
    | ok checked => rfl
    | error error =>
      rw [hcheck] at hok
      cases hok
  localSummaries store ids := ⟨_, _, rfl⟩
  fetch store ids := ⟨_, _, rfl⟩
  applyBatch store batch := ⟨_, _, rfl⟩

/-- Two devices with a note each. -/
theorem sampleDevices_lockstep :
    ∃ moves pages, pages ≤ maxSummaryPagesPerSession ∧
      ∀ k s, Link.Runs k (meeting sampleLibraries (sampleDevice "desk" 0) (sampleDevice "phone" 5)
          [Wire.Codec.note] [Wire.Codec.picture]) s →
        k ≤ moves ∧ InStep sampleLibraries s ∧
        (s.Stuck → pageCount s.leftLog = pages ∧ pageCount s.rightLog = pages ∧
          Ends pages s.left s.right) :=
  session_lockstep (honest_sampleDevice "desk" 0 (.inl rfl)) (honest_sampleDevice "phone" 5 (.inr rfl))
    (by decide) (by decide) (by decide) _ _

/-- A cursor below zero is refused by the sender's own check, and a device that meets its own
id ends the session. -/
theorem lockstep_refused :
    (Honest sampleLibraries (sampleDevice "desk" (-1)) ∧
      Honest sampleLibraries (sampleDevice "phone" 0) ∧
      ∃ state, (meeting sampleLibraries (sampleDevice "desk" (-1)) (sampleDevice "phone" 0)
        [] []).left = .fail state (.protocol (.negativeTimestamp "since_ms"))) ∧
    ∃ s state, Link.Runs 2 (meeting sampleLibraries (sampleDevice "desk" 0) (sampleDevice "desk" 0)
      [] []) s ∧ s.right = .fail state .selfSync := by
  refine ⟨⟨honest_sampleDevice "desk" (-1) (.inl rfl), honest_sampleDevice "phone" 0 (.inr rfl), _, rfl⟩,
    _, _, .step (.inl rfl) (.step (.inr rfl) (.refl _)), rfl⟩

end Session

end CopyPaste.Peer.Lockstep
