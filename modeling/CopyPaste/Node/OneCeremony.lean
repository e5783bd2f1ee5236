import Mathlib.Data.List.Nodup
import CopyPaste.Lib.Guarded
import CopyPaste.Node.Pairing

/-!
Runs of the pairing slot: the operations come in any order, with a clock that does not run
back. A ceremony begins only in a free slot and ends once, and a token is on offer once.
-/

namespace CopyPaste.Node.OneCeremony

open Lib.Guarded Pairing

/-- A run of the slot. For the record: the invitations opened with their deadlines, the
tokens no longer on offer, and the ceremonies begun and ended. -/
structure Run where
  manager : PairingManager := {}
  clock : Nat := 0
  issued : List (PairingToken × Nat) := []
  spent : List PairingToken := []
  begun : Nat := 0
  ended : Nat := 0

/-- The token that an operation takes off offer. -/
def withdrawn (manager : PairingManager) (act : Act) : List PairingToken :=
  manager.state.token.toList.filter fun token =>
    (perform manager act).1.state.token ≠ some token

/-- The clock does not run back. -/
def step (run : Run) (act : Act) : Option Run :=
  if (run.clock :: act.readings).Pairwise (· ≤ ·) then
    some {
      manager := (perform run.manager act).1
      clock := act.readings.getLastD run.clock
      issued := (issues run.manager act).toList ++ run.issued
      spent := withdrawn run.manager act ++ run.spent
      begun := run.begun + if begins run.manager act then 1 else 0
      ended := run.ended +
        if run.manager.state.live && !(perform run.manager act).1.state.live then 1 else 0 }
  else none

def machine : Machine Run Act where
  start := fun run => ∃ clock, run = { clock := clock }
  step := step

/-- A generated token is none of those before it, and the task that runs an exchange asks
for the confirmation before it commits. -/
def Allowed (run : Run) : Act → Prop
  | .createInvite _ token _ _ => ∀ issued ∈ run.issued, issued.1.pairingId ≠ token.pairingId
  | .nearbyInvite _ _ token _ => ∀ issued ∈ run.issued, issued.1.pairingId ≠ token.pairingId
  | .awaiting _ pairingId _ _ => ¬ run.manager.state.committing pairingId
  | .beginCommit pairingId => ∀ active, run.manager.state = .active active →
      active.status.pairingId = some pairingId → active.status.phase = .awaitingConfirmation
  | _ => True

/-- What holds of the slot and its record at every moment. -/
structure Inv (run : Run) : Prop where
  counted : run.begun = run.ended + if run.manager.state.live then 1 else 0
  offered : ∀ invite, run.manager.state = .invited invite →
    (invite.token, invite.expiresAt) ∈ run.issued ∧
      invite.status.pairingId = some invite.token.pairingId ∧ invite.token ∉ run.spent
  distinct : (run.issued.map fun issued => issued.1.pairingId).Nodup
  spentIssued : ∀ token ∈ run.spent, token ∈ run.issued.map Prod.fst
  committing : ∀ pairingId, run.manager.state.committing pairingId →
    run.manager.state.Committed pairingId

variable {run next : Run} {act : Act}

theorem step_eq (h : machine.step run act = some next) :
    (run.clock :: act.readings).Pairwise (· ≤ ·) ∧ next.manager = (perform run.manager act).1 ∧
      next.clock = act.readings.getLastD run.clock ∧
      next.issued = (issues run.manager act).toList ++ run.issued ∧
      next.spent = withdrawn run.manager act ++ run.spent ∧
      next.begun = run.begun + (if begins run.manager act then 1 else 0) ∧
      next.ended = run.ended +
        (if run.manager.state.live && !next.manager.state.live then 1 else 0) := by
  simp only [machine, step] at h
  split at h
  · rename_i hclock
    obtain rfl := Option.some.inj h
    exact ⟨hclock, rfl, rfl, rfl, rfl, rfl, rfl⟩
  · simp at h

theorem issues_fresh (hallowed : Allowed run act) {issued : PairingToken × Nat}
    (h : issues run.manager act = some issued) :
    begins run.manager act = true ∧
      ∀ earlier ∈ run.issued, earlier.1.pairingId ≠ issued.1.pairingId := by
  cases act with
  | createInvite now token code listenAddr | nearbyInvite now created token code =>
    simp only [issues, Option.ite_none_right_eq_some, Option.some.injEq] at h
    obtain ⟨hbegins, rfl⟩ := h
    exact ⟨hbegins, hallowed⟩
  | _ => simp [issues] at h

variable {token : PairingToken}

theorem token_of_mem_withdrawn {manager : PairingManager} (h : token ∈ withdrawn manager act) :
    manager.state.token = some token ∧ (perform manager act).1.state.token ≠ some token := by
  simpa [withdrawn] using h

theorem invited_of_token {state : PairingState} (h : state.token = some token) :
    ∃ invite, state = .invited invite ∧ invite.token = token := by
  cases state with
  | invited invite => exact ⟨invite, rfl, Option.some.inj h⟩
  | _ => simp [PairingState.token] at h

private theorem counted_step (hinv : Inv run) (hstep : machine.step run act = some next) :
    next.begun = next.ended + if next.manager.state.live then 1 else 0 := by
  obtain ⟨-, hmanager, -, -, -, hbegun, hended⟩ := step_eq hstep
  have hcounted := hinv.counted
  rw [hbegun, hended, hcounted]
  cases hbegins : begins run.manager act with
  | true =>
    obtain ⟨hbefore, hafter⟩ := begins_live hbegins
    rw [← hmanager] at hafter
    simp [hbefore, hafter]
  | false =>
    cases hbefore : run.manager.state.live with
    | true => cases hafter : next.manager.state.live <;> simp
    | false =>
      have hafter : next.manager.state.live = false := by
        rw [hmanager, ← Bool.not_eq_true]
        intro hlive
        simp [begins_of_live hbefore hlive] at hbegins
      simp [hafter]

private theorem offered_step (hinv : Inv run) (hallowed : Allowed run act)
    (hstep : machine.step run act = some next) (invite : Invitation)
    (hstate : next.manager.state = .invited invite) :
    (invite.token, invite.expiresAt) ∈ next.issued ∧
      invite.status.pairingId = some invite.token.pairingId ∧ invite.token ∉ next.spent := by
  obtain ⟨-, hmanager, -, hissued, hspent, -, -⟩ := step_eq hstep
  rw [hmanager] at hstate
  have hkept : invite.token ∉ withdrawn run.manager act := by
    intro hmem
    exact (token_of_mem_withdrawn hmem).2 (by rw [hstate]; rfl)
  rcases invited_perform hstate with hsame | ⟨hopened, hid⟩
  · obtain ⟨hmem, hid, hunspent⟩ := hinv.offered invite hsame
    rw [hissued, hspent]
    exact ⟨List.mem_append_right _ hmem, hid, by simp [hkept, hunspent]⟩
  · obtain ⟨-, hfresh⟩ := issues_fresh hallowed hopened
    rw [hissued, hspent]
    refine ⟨by simp [hopened], hid, ?_⟩
    intro hmem
    rcases List.mem_append.1 hmem with hnow | hearlier
    · exact hkept hnow
    · obtain ⟨earlier, hearlier, hsame⟩ := List.mem_map.1 (hinv.spentIssued _ hearlier)
      exact hfresh earlier hearlier (by rw [hsame])

private theorem committing_step (hinv : Inv run) (hallowed : Allowed run act)
    (hstep : machine.step run act = some next) (pairingId : String)
    (hcommitting : next.manager.state.committing pairingId) :
    next.manager.state.Committed pairingId := by
  obtain ⟨-, hmanager, -, -, -, -, -⟩ := step_eq hstep
  rw [hmanager] at hcommitting ⊢
  rcases committing_perform hcommitting with
    ⟨earlier, hbefore⟩ | ⟨rfl, active, hstate, hid, hafter⟩
  · have hkept : (perform run.manager act).1.state.Committed earlier := by
      refine committed_perform (hinv.committing earlier hbefore) ?_ ?_
      · rintro now sas peer rfl
        exact hallowed hbefore
      · rintro phase error rfl
        obtain ⟨status, hended⟩ :=
          finish_committed (hinv.committing earlier hbefore) phase error
        obtain ⟨active, hactive, -⟩ := hcommitting
        simp [hended] at hactive
    obtain ⟨active, hactive, hearlier, hrest⟩ := hkept
    obtain ⟨running, hrunning, hid, -⟩ := hcommitting
    obtain rfl := PairingState.active.inj (hactive.symm.trans hrunning)
    exact ⟨active, hactive, hid, hrest⟩
  · exact ⟨_, hafter, hid, rfl, hallowed active hstate hid, rfl⟩

theorem inv_step (hinv : Inv run) (hallowed : Allowed run act)
    (hstep : machine.step run act = some next) : Inv next where
  counted := counted_step hinv hstep
  offered := offered_step hinv hallowed hstep
  distinct := by
    obtain ⟨-, -, -, hissued, -, -, -⟩ := step_eq hstep
    rw [hissued]
    cases hopened : issues run.manager act with
    | none => exact hinv.distinct
    | some issued =>
      obtain ⟨-, hfresh⟩ := issues_fresh hallowed hopened
      refine List.nodup_cons.2 ⟨?_, hinv.distinct⟩
      intro hmem
      obtain ⟨earlier, hearlier, hsame⟩ := List.mem_map.1 hmem
      exact hfresh earlier hearlier hsame
  spentIssued := by
    obtain ⟨-, -, -, hissued, hspent, -, -⟩ := step_eq hstep
    rw [hissued, hspent]
    intro token htoken
    rw [List.map_append, List.mem_append]
    right
    rcases List.mem_append.1 htoken with hnow | hearlier
    · obtain ⟨invite, hstate, rfl⟩ := invited_of_token (token_of_mem_withdrawn hnow).1
      exact List.mem_map_of_mem (hinv.offered invite hstate).1
    · exact hinv.spentIssued token hearlier
  committing := committing_step hinv hallowed hstep

theorem inv_of_reaches (hrun : Reaches machine Allowed run) : Inv run := by
  have hkept : ∀ s s' act, Inv s → Allowed s act → machine.step s act = some s' → Inv s' :=
    fun s s' act hinv hallowed hstep => inv_step hinv hallowed hstep
  refine hrun.invariant ?_ hkept
  rintro s ⟨clock, rfl⟩
  refine ⟨rfl, ?_, List.nodup_nil, ?_, ?_⟩
  · intro invite hstate
    simp at hstate
  · intro token htoken
    simp at htoken
  · rintro pairingId ⟨active, hstate, -⟩
    simp at hstate

/-- An exchange that commits stays in the slot up to its end. -/
theorem committing_run {pairingId : String} {last : Run} {acts : List Act} (hinv : Inv run)
    (hcommitting : run.manager.state.committing pairingId)
    (hmeets : Meets machine Allowed run acts)
    (hfinish : ∀ phase error, Act.finish pairingId phase error ∉ acts)
    (hrun : Lib.Guarded.run machine run acts = some last) :
    last.manager.state.committing pairingId := by
  induction acts generalizing run with
  | nil =>
    obtain rfl : run = last := by simpa [Lib.Guarded.run] using hrun
    exact hcommitting
  | cons act rest ih =>
    obtain ⟨middle, hstep, hrest⟩ := Option.bind_eq_some_iff.1 hrun
    have hkept : (perform run.manager act).1.state.Committed pairingId := by
      refine committed_perform (hinv.committing pairingId hcommitting) ?_ ?_
      · rintro now sas peer rfl
        exact hmeets.1 hcommitting
      · rintro phase error rfl
        exact hfinish phase error List.mem_cons_self
    refine ih (inv_step hinv hmeets.1 hstep) ?_ (hmeets.2 middle hstep) ?_ hrest
    · obtain ⟨-, hmanager, -⟩ := step_eq hstep
      obtain ⟨active, hstate, hid, hflag, -⟩ := hkept
      exact ⟨active, hmanager ▸ hstate, hid, hflag⟩
    · exact fun phase error hmem => hfinish phase error (List.mem_cons_of_mem _ hmem)

/-- A token that has left the slot, or whose deadline has come, is not the one on offer. -/
theorem offered_other (hinv : Inv run) {invite : Invitation} {clock : Nat}
    (hstate : run.manager.state = .invited invite) (hopen : clock < invite.expiresAt)
    (hgone : token ∈ run.spent ∨ ∃ deadline, (token, deadline) ∈ run.issued ∧ deadline ≤ clock) :
    invite.status.pairingId ≠ some token.pairingId := by
  obtain ⟨hissued, hid, hunspent⟩ := hinv.offered invite hstate
  intro hsame
  have hids : invite.token.pairingId = token.pairingId := Option.some.inj (hid.symm.trans hsame)
  have hentry : ∀ deadline, (token, deadline) ∈ run.issued →
      (token, deadline) = (invite.token, invite.expiresAt) := by
    intro deadline hmem
    exact List.inj_on_of_nodup_map hinv.distinct hmem hissued hids.symm
  rcases hgone with hspent | ⟨deadline, hmem, hdue⟩
  · obtain ⟨⟨token', deadline⟩, hmem, rfl⟩ := List.mem_map.1 (hinv.spentIssued token hspent)
    rw [(Prod.mk.inj (hentry deadline hmem)).1] at hspent
    exact hunspent hspent
  · have := (Prod.mk.inj (hentry deadline hmem)).2
    omega

/-- One ceremony at a time holds the slot; it is left alone by calls about another one and
once it commits ends by its own task; a token is on offer once, up to its deadline. -/
theorem slot_serves_one_ceremony (hrun : Reaches machine Allowed run) (hallowed : Allowed run act)
    (hstep : machine.step run act = some next) :
    (run.begun = run.ended + if run.manager.state.live then 1 else 0) ∧
      (∀ status, run.manager.state = .terminal status → act.opens = false →
        next.manager.state = .terminal status) ∧
      (∀ pairingId, act.names = some pairingId → run.manager.state.pairingId ≠ some pairingId →
        next.manager = run.manager) ∧
      (∀ pairingId, act = .beginCommit pairingId →
        (perform run.manager act).2 = .committed true →
        ∀ acts last, Meets machine Allowed next acts →
          (∀ phase error, Act.finish pairingId phase error ∉ acts) →
          Lib.Guarded.run machine next acts = some last →
          last.manager.state.committing pairingId) ∧
      ∀ token, (token ∈ run.spent ∨
          ∃ deadline, (token, deadline) ∈ run.issued ∧ deadline ≤ next.clock) →
        (∀ offered, (perform run.manager act).2 = .candidate (some offered) →
          offered.pairingId ≠ token.pairingId) ∧
        ∀ now psk, act = .beginResponder now token.pairingId →
          (perform run.manager act).2 ≠ .taken (.ok psk) := by
  have hinv := inv_of_reaches hrun
  obtain ⟨-, hmanager, hclock, -, -, -, -⟩ := step_eq hstep
  refine ⟨hinv.counted, ?_, ?_, ?_, ?_⟩
  · intro status hstate hopens
    rw [hmanager, perform_of_not_live (by simp [hstate, PairingState.live]) hopens, hstate]
  · intro pairingId hnames hother
    rw [hmanager, perform_of_names hnames hother]
  · rintro pairingId rfl hwon acts last hmeets hfinish hlast
    refine committing_run (inv_step hinv hallowed hstep) ?_ hmeets hfinish hlast
    rw [hmanager]
    simp only [perform, beginCommit] at hwon ⊢
    split at hwon
    · split at hwon
      · rename_i active hactive hid
        refine ⟨{ active with committing := true, expiresAt := none }, ?_, hid, rfl⟩
        simp only [hactive, if_pos hid]
      · simp at hwon
    · simp at hwon
  · intro token hgone
    constructor
    · intro offered hoffered hsame
      obtain ⟨now, invite, hnow, hstate, hopen, hid⟩ := candidate_perform hoffered
      have hclock : next.clock = now := by simp [hclock, hnow]
      have hother := offered_other hinv hstate hopen (hclock ▸ hgone)
      obtain ⟨-, hinvited, -⟩ := hinv.offered invite hstate
      rw [hid, hinvited] at hsame
      exact hother (hinvited.trans (congrArg some hsame))
    · rintro now psk rfl htaken
      obtain ⟨invite, hstate, hopen, hid⟩ := taken_perform htaken
      have hclock : next.clock = now := by simp [hclock, Act.readings]
      exact offered_other hinv hstate hopen (hclock ▸ hgone) hid

def sampleToken : PairingToken := ⟨"invitation", [1, 2]⟩

def samplePeer : PairingPeer := ⟨"invitation", "phone", "Phone", none⟩

/-- An invitation that was taken and whose exchange waits for the user. -/
def sampleRun : Run :=
  (Lib.Guarded.run machine {} [.createInvite 0 sampleToken "code" none,
    .beginResponder 1 "invitation", .awaiting 2 "invitation" "123456" samplePeer]).getD {}

theorem sampleRun_reaches : Reaches machine Allowed sampleRun := by
  refine .next (.awaiting 2 "invitation" "123456" samplePeer)
    (.next (.beginResponder 1 "invitation")
      (.next (.createInvite 0 sampleToken "code" none) (.start {} ⟨0, rfl⟩) ?_ rfl)
      trivial rfl) ?_ rfl
  · intro issued hissued
    simp at hissued
  · rintro ⟨active, hstate, -, hcommitting⟩
    obtain rfl := PairingState.active.inj hstate
    simp at hcommitting

theorem slot_serves_one_ceremony_here :
    sampleToken ∈ sampleRun.spent ∧ sampleRun.begun = 1 ∧ sampleRun.ended = 0 ∧
      ∀ acts last, Meets machine Allowed
          ((machine.step sampleRun (.beginCommit "invitation")).getD {}) acts →
        (∀ phase error, Act.finish "invitation" phase error ∉ acts) →
        Lib.Guarded.run machine
          ((machine.step sampleRun (.beginCommit "invitation")).getD {}) acts = some last →
        last.manager.state.committing "invitation" := by
  refine ⟨by decide, rfl, rfl, fun acts last => ?_⟩
  have hallowed : Allowed sampleRun (.beginCommit "invitation") := by
    intro active hstate _
    obtain rfl := PairingState.active.inj hstate
    rfl
  have hstep : machine.step sampleRun (.beginCommit "invitation") =
      some ((machine.step sampleRun (.beginCommit "invitation")).getD {}) := rfl
  exact (slot_serves_one_ceremony sampleRun_reaches hallowed hstep).2.2.2.1 "invitation" rfl rfl
    acts last

end CopyPaste.Node.OneCeremony
