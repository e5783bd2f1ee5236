import CopyPaste.Peers.Rekey

/-!
A pairing ceremony between two devices: both users decide, both devices store the new
key and tell each other, and what was stored is undone unless both did. Messages may
be late or lost, and every wait may end in a deadline or a broken channel.
-/

namespace CopyPaste.Peers.Ceremony

open Std Lib.Guarded Lib.Tables Peers.Group Store Projection Runs Rekey

inductive PairingMessage
  | decision (accept : Bool) (admissions : Option PairAdmissions)
  | stored (ok : Bool)
  deriving DecidableEq, Repr

inductive LocalDecision
  | pending
  | accept
  | reject
  | cancel
  | expire
  deriving DecidableEq, Repr

/-- How a ceremony ends. -/
inductive PairingPhase
  | confirmed
  | rejected
  | cancelled
  | timedOut
  | failed
  deriving DecidableEq, Repr

inductive Commit
  | both
  | peerSilent
  | peerRefused
  | localStoreFailed
  | rollbackFailed
  deriving DecidableEq, Repr

/-- Where a device is. -/
inductive Progress
  | proposing
  | deciding (localAccepted remoteAccepted : Bool) (agreed : PairAdmissions)
  | decided (admissions : PairAdmissions)
  | committing (admissions : PairAdmissions)
  | writing (admissions : PairAdmissions) (slot : PeerSnapshot)
  | announcing (slot : PeerSnapshot) (stored : Bool)
  | waiting (slot : PeerSnapshot) (stored : Bool)
  | undoing (slot : PeerSnapshot) (outcome : Commit)
  | confirming
  | ended (phase : PairingPhase)
  deriving DecidableEq

/-- A device in the ceremony: its store, the record it may come to store, and where it
is. For the record: the slot before the ceremony, what its user and the other device
said, what it wrote, the outcome of the commit, and what sessions wrote meanwhile. -/
structure Device where
  store : PeerStore
  peer : Peer
  before : Option Peer
  beforeAdmission : Option PairAdmissions
  progress : Progress := .proposing
  proposal : Option PairAdmissions := none
  accepted : Bool := false
  heard : Option PairAdmissions := none
  wrote : Option (Bytes × PairAdmissions) := none
  commit : Option Commit := none
  landed : List Peer := []

inductive DeviceAct
  | propose
  | decide (decision : LocalDecision) (sent delivered : Bool)
  | receive
  | broken
  | timeout
  | beginCommit (won : Bool)
  | snapshot
  | write (saved : Bool)
  | announce (sent delivered : Bool)
  | restore (saved : Bool)
  | confirm (saved : Bool)
  | touch (saved : Bool) (draft : Peer)

def desiredGroupAdmission (state : State) (deviceId : Option String) : Except PeerStoreError Nat :=
  match state.group with
  | none => .error (.invalid "group is not initialized")
  | some group =>
    match deviceId with
    | some id => group.roster.desiredAdmission id
    | none => group.roster.localAdmission

/-- The loop over the decisions is left once both users have accepted. -/
def afterDecision (localAccepted remoteAccepted : Bool) (agreed : PairAdmissions) : Progress :=
  if localAccepted && remoteAccepted then .decided agreed
  else .deciding localAccepted remoteAccepted agreed

/-- The outcome of the commit. The acknowledgement is missing after a deadline, and
empty when the channel broke or said something else. -/
def outcomeOf (stored : Bool) : Option (Option Bool) → Commit
  | none => .peerSilent
  | some acknowledged =>
    if !stored then .localStoreFailed
    else if acknowledged = some true then .both else .peerRefused

def phaseOf : Commit → PairingPhase
  | .peerSilent => .timedOut
  | _ => .failed

/-- What follows on the acknowledgement. -/
def Device.settle (d : Device) (slot : PeerSnapshot) (stored : Bool)
    (acknowledged : Option (Option Bool)) : Device :=
  let outcome := outcomeOf stored acknowledged
  { d with
    commit := some outcome
    progress :=
      if outcome = .both then .confirming
      else if stored then .undoing slot outcome
      else .ended (phaseOf outcome) }

variable (host : Host)

/-- A message of the decisions. -/
def Device.hear (d : Device) (localAccepted : Bool) : PairingMessage → Device
  | .decision true (some remote) =>
    match d.proposal.bind fun proposal => (proposal.agree remote).toOption with
    | some agreed =>
      { d with heard := some remote, progress := afterDecision localAccepted true agreed }
    | none => { d with progress := .ended .failed }
  | .decision false _ => { d with progress := .ended .rejected }
  | _ => { d with progress := .ended .failed }

/-- A decision of the user, and what is sent of it. -/
def Device.decide (d : Device) (localAccepted remoteAccepted : Bool) (agreed : PairAdmissions)
    (sent : Bool) : LocalDecision → Device × Option PairingMessage
  | .pending => (d, none)
  | .accept =>
    if localAccepted then (d, none)
    else
      ({ d with
        accepted := true
        progress := if sent then afterDecision true remoteAccepted agreed else .ended .failed },
        some (.decision true d.proposal))
  | .reject => ({ d with progress := .ended .rejected }, some (.decision false none))
  | .cancel => ({ d with progress := .ended .cancelled }, some (.decision false none))
  | .expire => ({ d with progress := .ended .timedOut }, none)

/-- One step of a device: the device after it, the messages left to read, and the one
that was sent. -/
def Device.step (d : Device) (inbox : List PairingMessage) :
    DeviceAct → Option (Device × List PairingMessage × Option PairingMessage)
  | .propose =>
    match d.progress with
    | .proposing =>
      match desiredGroupAdmission d.store.state none,
          desiredGroupAdmission d.store.state d.peer.deviceId with
      | .ok mine, .ok theirs =>
        some ({ d with
          proposal := some ⟨mine, theirs⟩
          progress := .deciding false false ⟨mine, theirs⟩ }, inbox, none)
      | _, _ => some ({ d with progress := .ended .failed }, inbox, none)
    | _ => none
  | .decide decision sent delivered =>
    match d.progress with
    | .deciding localAccepted remoteAccepted agreed =>
      let (after, message) := d.decide localAccepted remoteAccepted agreed sent decision
      some (after, inbox, if delivered then message else none)
    | _ => none
  | .receive =>
    match d.progress, inbox with
    | .deciding localAccepted _ _, message :: rest => some (d.hear localAccepted message, rest, none)
    | .waiting slot stored, message :: rest =>
      let acknowledged := match message with
        | .stored ok => some ok
        | _ => none
      some (d.settle slot stored (some acknowledged), rest, none)
    | _, _ => none
  | .broken =>
    match d.progress with
    | .deciding _ _ _ => some ({ d with progress := .ended .failed }, inbox, none)
    | .waiting slot stored => some (d.settle slot stored (some none), inbox, none)
    | _ => none
  | .timeout =>
    match d.progress with
    | .deciding _ _ _ => some ({ d with progress := .ended .timedOut }, inbox, none)
    | .waiting slot stored => some (d.settle slot stored none, inbox, none)
    | _ => none
  | .beginCommit won =>
    match d.progress with
    | .decided admissions =>
      some ({ d with
        progress := if won then .committing admissions else .ended .cancelled }, inbox, none)
    | _ => none
  | .snapshot =>
    match d.progress with
    | .committing admissions =>
      some ({ d with
        progress := .writing admissions (d.store.snapshot d.peer.pairingId) }, inbox, none)
    | _ => none
  | .write saved =>
    match d.progress with
    | .writing admissions slot =>
      match d.store.upsertFromAdmission host saved slot d.peer (some admissions) with
      | (store, .ok advanced) =>
        some ({ d with
          store := store
          wrote := some (d.peer.psk, admissions)
          progress := .announcing advanced true }, inbox, none)
      | (store, .error _) =>
        some ({ d with store := store, progress := .announcing slot false }, inbox, none)
    | _ => none
  | .announce sent delivered =>
    match d.progress with
    | .announcing slot stored =>
      some (if sent then { d with progress := .waiting slot stored }
        else d.settle slot stored (some none), inbox,
        if delivered then some (.stored stored) else none)
    | _ => none
  | .restore saved =>
    match d.progress with
    | .undoing slot outcome =>
      let (store, result) := d.store.restore host saved slot
      let outcome := if result.toOption.isSome then outcome else .rollbackFailed
      some ({ d with
        store := store
        commit := some outcome
        progress := .ended (phaseOf outcome) }, inbox, none)
    | _ => none
  | .confirm saved =>
    match d.progress with
    | .confirming =>
      let (store, result) := confirmGroupAdmission host d.store saved d.peer.pairingId
      some ({ d with
        store := store
        progress := .ended (if result.toOption.isSome then .confirmed else .failed) }, inbox, none)
    | _ => none
  | .touch saved draft =>
    let (store, result) := d.store.touch host saved draft
    some ({ d with
      store := store
      landed := if result.toOption = some true then draft :: d.landed else d.landed }, inbox, none)

inductive Side
  | left
  | right
  deriving DecidableEq, Repr

def Side.other : Side → Side
  | .left => .right
  | .right => .left

/-- Both devices, and the messages on their way to each. -/
structure World where
  device : Side → Device
  inbox : Side → List PairingMessage

/-- A step of one device, or the loss of what is on its way to it. -/
inductive Act
  | device (side : Side) (act : DeviceAct)
  | cut (side : Side)

def World.put (w : World) (side : Side) (d : Device) (rest : List PairingMessage)
    (sent : Option PairingMessage) : World where
  device := Function.update w.device side d
  inbox := Function.update (Function.update w.inbox side rest) side.other
    (w.inbox side.other ++ sent.toList)

def step (w : World) : Act → Option World
  | .device side act =>
    ((w.device side).step host (w.inbox side) act).map fun (d, rest, sent) => w.put side d rest sent
  | .cut side => some { w with inbox := Function.update w.inbox side [] }

/-- A device before the ceremony. The record it may store has the key of the session,
which no pairing under the same id had before. -/
structure Ready (id : String) (key : Bytes) (d : Device) : Prop where
  peer : d.peer.pairingId = id ∧ d.peer.psk = key
  before : d.before = d.store.state.peers[id]?
  beforeAdmission : d.beforeAdmission = d.store.state.pairAdmissions[id]?
  keyed : ∀ stored, d.store.state.peers[id]? = some stored → stored.pairingId = id
  certified : id ∈ d.store.state.pairAdmissions → id ∈ d.store.state.peers
  fresh : keyAt d.store.state id ≠ some key
  untouched : d.progress = .proposing ∧ d.proposal = none ∧ d.accepted = false ∧ d.heard = none ∧
    d.wrote = none ∧ d.commit = none ∧ d.landed = []

def machine (id : String) (key : Bytes) : Machine World Act where
  start := fun w => ∀ side, Ready id key (w.device side) ∧ w.inbox side = []
  step := step host

/-- The group takes the confirmed pairing, and sessions carry the stored key. -/
def DeviceAct.allowed (d : Device) : DeviceAct → Prop
  | .confirm saved =>
    saved = true ∧ (confirmNext host d.store.state d.peer.pairingId).toOption.isSome
  | .touch _ draft => ∀ stored ∈ d.store.state.peers[draft.pairingId]?, stored.psk = draft.psk
  | _ => True

/-- What one step under the condition can do to a device, and what it can send. -/
inductive Moves (d : Device) (inbox : List PairingMessage) :
    Device → List PairingMessage → Option PairingMessage → Prop
  | proposes (proposal : PairAdmissions) (hprogress : d.progress = .proposing) :
      Moves d inbox { d with
        proposal := some proposal
        progress := .deciding false false proposal } inbox none
  | givesUp (phase : PairingPhase) (rest : List PairingMessage) (sent : Option PairingMessage)
      (hprogress : d.progress = .proposing ∨ (∃ l r agreed, d.progress = .deciding l r agreed) ∨
        ∃ agreed, d.progress = .decided agreed)
      (hrest : ∀ message ∈ rest, message ∈ inbox)
      (hsent : ∀ message ∈ sent, message = .decision false none) :
      Moves d inbox { d with progress := .ended phase } rest sent
  | idles : Moves d inbox d inbox none
  | accepts (r : Bool) (agreed : PairAdmissions) (after : Progress) (sent : Option PairingMessage)
      (hprogress : d.progress = .deciding false r agreed)
      (hafter : after = .ended .failed ∨ after = afterDecision true r agreed)
      (hsent : ∀ message ∈ sent, message = .decision true d.proposal) :
      Moves d inbox { d with accepted := true, progress := after } inbox sent
  | hears (l r : Bool) (old agreed remote proposal : PairAdmissions)
      (rest : List PairingMessage) (hprogress : d.progress = .deciding l r old)
      (hinbox : inbox = .decision true (some remote) :: rest) (hproposal : d.proposal = some proposal)
      (hagreed : proposal.agree remote = .ok agreed) :
      Moves d inbox { d with
        heard := some remote
        progress := afterDecision l true agreed } rest none
  | settles (slot : PeerSnapshot) (stored : Bool) (acknowledged : Option (Option Bool))
      (rest : List PairingMessage) (sent : Option PairingMessage)
      (hprogress : d.progress = .announcing slot stored ∨ d.progress = .waiting slot stored)
      (hacknowledged : acknowledged = some (some true) → .stored true ∈ inbox)
      (hrest : ∀ message ∈ rest, message ∈ inbox)
      (hsent : ∀ message ∈ sent, message = .stored stored) :
      Moves d inbox (d.settle slot stored acknowledged) rest sent
  | begins (agreed : PairAdmissions) (hprogress : d.progress = .decided agreed) :
      Moves d inbox { d with progress := .committing agreed } inbox none
  | reads (agreed : PairAdmissions) (hprogress : d.progress = .committing agreed) :
      Moves d inbox { d with
        progress := .writing agreed (d.store.snapshot d.peer.pairingId) } inbox none
  | writes (agreed : PairAdmissions) (slot : PeerSnapshot) (store : PeerStore)
      (hprogress : d.progress = .writing agreed slot)
      (hcheck : d.store.state.checkUpsert d.peer (some agreed) = .ok ())
      (hcommits : Commits host d.store (d.store.state.withPeer d.peer (some agreed)) store) :
      Moves d inbox { d with
        store := store
        wrote := some (d.peer.psk, agreed)
        progress := .announcing
          { slot with generation := store.state.generation slot.pairingId } true } inbox none
  | writeFails (agreed : PairAdmissions) (slot : PeerSnapshot)
      (hprogress : d.progress = .writing agreed slot) :
      Moves d inbox { d with progress := .announcing slot false } inbox none
  | announces (slot : PeerSnapshot) (stored : Bool) (sent : Option PairingMessage)
      (hprogress : d.progress = .announcing slot stored)
      (hsent : ∀ message ∈ sent, message = .stored stored) :
      Moves d inbox { d with progress := .waiting slot stored } inbox sent
  | undoes (saved : Bool) (slot : PeerSnapshot) (old outcome : Commit)
      (hprogress : d.progress = .undoing slot old)
      (houtcome : outcome = old ∨ outcome = .rollbackFailed) :
      Moves d inbox { d with
        store := (d.store.restore host saved slot).1
        commit := some outcome
        progress := .ended (phaseOf outcome) } inbox none
  | confirms (saved : Bool) (hprogress : d.progress = .confirming) :
      Moves d inbox { d with
        store := (confirmGroupAdmission host d.store saved d.peer.pairingId).1
        progress := .ended .confirmed } inbox none
  | touches (saved : Bool) (draft : Peer)
      (hcarries : ∀ stored ∈ d.store.state.peers[draft.pairingId]?, stored.psk = draft.psk) :
      Moves d inbox { d with
        store := (d.store.touch host saved draft).1
        landed := if (d.store.touch host saved draft).2.toOption = some true then draft :: d.landed
          else d.landed } inbox none

variable {d : Device}

theorem decide_moves {l r : Bool} {agreed : PairAdmissions}
    (hprogress : d.progress = .deciding l r agreed) (inbox : List PairingMessage)
    (decision : LocalDecision) (sent delivered : Bool) :
    Moves host d inbox (d.decide l r agreed sent decision).1 inbox
      (if delivered then (d.decide l r agreed sent decision).2 else none) := by
  have hdeciding : d.progress = .proposing ∨ (∃ l r agreed, d.progress = .deciding l r agreed) ∨
      ∃ agreed, d.progress = .decided agreed := Or.inr (Or.inl ⟨l, r, agreed, hprogress⟩)
  cases decision with
  | pending =>
    simp only [Device.decide, ite_self]
    exact .idles
  | accept =>
    cases l with
    | true =>
      simp only [Device.decide, if_true, ite_self]
      exact .idles
    | false =>
      refine .accepts r agreed _ _ hprogress ?_ ?_
      · cases sent
        · exact Or.inl rfl
        · exact Or.inr rfl
      · cases delivered <;> simp [Device.decide]
  | reject | cancel =>
    exact .givesUp _ _ _ hdeciding (fun _ h => h) (by cases delivered <;> simp [Device.decide])
  | expire => exact .givesUp _ _ _ hdeciding (fun _ h => h) (by cases delivered <;> simp [Device.decide])

theorem hear_moves {l r : Bool} {old : PairAdmissions} (hprogress : d.progress = .deciding l r old)
    (message : PairingMessage) (rest : List PairingMessage) :
    Moves host d (message :: rest) (d.hear l message) rest none := by
  have hgivesUp : ∀ phase, Moves host d (message :: rest) { d with progress := .ended phase } rest
      none := fun phase =>
    .givesUp phase rest none (Or.inr (Or.inl ⟨l, r, old, hprogress⟩))
      (fun _ h => List.mem_cons_of_mem _ h) (by simp)
  unfold Device.hear
  split
  · split
    · rename_i remote _ agreed hbind
      obtain ⟨proposal, hproposal, hsome⟩ := Option.bind_eq_some_iff.1 hbind
      refine .hears l r old agreed remote proposal rest hprogress rfl hproposal ?_
      cases hagree : proposal.agree remote with
      | error e => simp [hagree, Except.toOption] at hsome
      | ok found =>
        simp only [hagree, Except.toOption, Option.some.injEq] at hsome
        rw [hsome]
    · exact hgivesUp _
  · exact hgivesUp _
  · exact hgivesUp _

theorem confirm_ok {store : PeerStore} {pairingId : String}
    (h : (confirmNext host store.state pairingId).toOption.isSome) :
    (confirmGroupAdmission host store true pairingId).2.toOption.isSome := by
  cases hnext : confirmNext host store.state pairingId with
  | error e => simp [hnext, Except.toOption] at h
  | ok next => simp [confirmGroupAdmission, hnext, PeerStore.persist, Except.toOption]

theorem step_moves {d' : Device} {inbox rest : List PairingMessage} {act : DeviceAct}
    {sent : Option PairingMessage} (hallowed : act.allowed host d)
    (h : d.step host inbox act = some (d', rest, sent)) : Moves host d inbox d' rest sent := by
  cases act with
  | propose =>
    simp only [Device.step] at h
    split at h
    · rename_i hprogress
      split at h
      · obtain ⟨rfl, rfl, rfl⟩ := by simpa using h
        exact .proposes _ hprogress
      · obtain ⟨rfl, rfl, rfl⟩ := by simpa using h
        exact .givesUp _ _ _ (Or.inl hprogress) (fun _ h => h) (by simp)
    · simp at h
  | decide decision ok delivered =>
    simp only [Device.step] at h
    split at h
    · rename_i hprogress
      obtain ⟨rfl, rfl, rfl⟩ := by simpa using h
      exact decide_moves host hprogress inbox decision ok delivered
    · simp at h
  | receive =>
    simp only [Device.step] at h
    split at h
    · rename_i message rest' hprogress
      obtain ⟨rfl, rfl, rfl⟩ := by simpa using h
      exact hear_moves host hprogress message rest'
    · rename_i slot stored message rest' hprogress
      obtain ⟨rfl, rfl, rfl⟩ := by simpa using h
      refine .settles slot stored _ _ _ (Or.inr hprogress) ?_
        (fun _ h => List.mem_cons_of_mem _ h) (by simp)
      cases message with
      | decision accept admissions => simp
      | stored ok =>
        intro hack
        obtain rfl : ok = true := by simpa using hack
        exact List.mem_cons_self
    · simp at h
  | broken | timeout =>
    simp only [Device.step] at h
    split at h
    · rename_i hprogress
      obtain ⟨rfl, rfl, rfl⟩ := by simpa using h
      exact .givesUp _ _ _ (Or.inr (Or.inl ⟨_, _, _, hprogress⟩)) (fun _ h => h) (by simp)
    · rename_i hprogress
      obtain ⟨rfl, rfl, rfl⟩ := by simpa using h
      exact .settles _ _ _ _ _ (Or.inr hprogress) (by simp) (fun _ h => h) (by simp)
    · simp at h
  | beginCommit won =>
    simp only [Device.step] at h
    split at h
    · rename_i hprogress
      obtain ⟨rfl, rfl, rfl⟩ := by simpa using h
      cases won with
      | true => exact .begins _ hprogress
      | false => exact .givesUp _ _ _ (Or.inr (Or.inr ⟨_, hprogress⟩)) (fun _ h => h) (by simp)
    · simp at h
  | snapshot =>
    simp only [Device.step] at h
    split at h
    · rename_i hprogress
      obtain ⟨rfl, rfl, rfl⟩ := by simpa using h
      exact .reads _ hprogress
    · simp at h
  | write saved =>
    simp only [Device.step] at h
    split at h
    · rename_i admissions slot hprogress
      have hcases := upsertFromAdmission_cases host d.store saved slot d.peer (some admissions)
      generalize d.store.upsertFromAdmission host saved slot d.peer (some admissions) = out at *
      obtain ⟨store, result⟩ := out
      rcases hcases with ⟨hsame, e, herror⟩ | ⟨hcheck, hok, hcommits⟩
      · simp only at hsame herror
        subst hsame herror
        obtain ⟨rfl, rfl, rfl⟩ := by simpa using h
        exact .writeFails admissions slot hprogress
      · simp only at hok hcommits
        subst hok
        obtain ⟨rfl, rfl, rfl⟩ := by simpa using h
        exact .writes admissions slot store hprogress hcheck hcommits
    · simp at h
  | announce ok delivered =>
    simp only [Device.step] at h
    split at h
    · rename_i slot stored hprogress
      obtain ⟨rfl, rfl, rfl⟩ := by simpa using h
      have hsent : ∀ message ∈ (if delivered then some (PairingMessage.stored stored) else none),
          message = .stored stored := by
        cases delivered <;> simp
      cases ok with
      | true => exact .announces slot stored _ hprogress hsent
      | false =>
        exact .settles slot stored (some none) _ _ (Or.inl hprogress) (by simp) (fun _ h => h) hsent
    · simp at h
  | restore saved =>
    simp only [Device.step] at h
    split at h
    · rename_i slot outcome hprogress
      obtain ⟨rfl, rfl, rfl⟩ := by simpa using h
      refine .undoes saved slot outcome _ hprogress ?_
      split
      · exact Or.inl rfl
      · exact Or.inr rfl
    · simp at h
  | confirm saved =>
    simp only [Device.step] at h
    split at h
    · rename_i hprogress
      obtain ⟨rfl, hok⟩ := hallowed
      obtain ⟨rfl, rfl, rfl⟩ := by simpa using h
      rw [if_pos (confirm_ok host hok)]
      exact .confirms true hprogress
    · simp at h
  | touch saved draft =>
    obtain ⟨rfl, rfl, rfl⟩ := by simpa [Device.step] using h
    exact .touches saved draft hallowed

end CopyPaste.Peers.Ceremony
