import CopyPaste.Upload.Floor

/-!
The completion fence, when every row opens. The evidence is that a version was
pushed; the offer in flight answers for versions that were pushed or are about to
be. The floor then never passes a version that was not pushed, whatever writers,
requeues and rounds do in between.
-/

namespace CopyPaste.Upload.Fence

open Lib.Keyset Record UnreadableUploads Scanning Coverage Machine Floor

def Pushed (device : String) (b : Books) (row : StoredItem) : Prop :=
  row.version device ∈ b.pushed

def PushedOrInRound (device : String) (b : Books) (row : StoredItem) : Prop :=
  row.version device ∈ b.pushed ∨ row.version device ∈ b.inRound

/-- Steps under which every row stays readable. -/
def KeepsReadable : Act → Prop
  | .write row _ => row.Readable
  | .reseal _ opens metadataOpens => opens ∧ metadataOpens
  | _ => True

/-- The steps the fence is proved for: rows open, versions are stamped at or after
zero, and fewer than 2^64 notes fall between a scan and its commit. -/
def Fenced (s : State) (act : Act) : Prop :=
  KeepsReadable act ∧
    match act with
    | .write row _ => 0 ≤ row.createdAt
    | .commit _ => s.notes < 2 ^ 64
    | _ => True

instance (act : Act) : Decidable (KeepsReadable act) := by
  cases act <;> unfold KeepsReadable <;> infer_instance

instance (s : State) (act : Act) : Decidable (Fenced s act) := by
  cases act <;> unfold Fenced <;> infer_instance

/-- A record that holds nothing. -/
def Blank (unreadable : UnreadableUploads) : Prop :=
  unreadable.ids = [] ∧ unreadable.sweep = none

structure Inv (device : String) (s : State) : Prop extends
    FloorInv (Pushed device) (PushedOrInRound device) s where
  readable : ∀ row ∈ s.service.rows, row.Readable
  blank : Blank (decode s.service.record)
  sent : s.phase = .pushed → s.inRound ⊆ s.pushed

variable {device : String} {rows : List StoredItem} {s s' : State}

variable (device) in
private theorem readRows_found (retried : List String) (maxBytes : Nat) (page : List StoredItem)
    (hreadable : ∀ row ∈ page, row.Readable) (got : Collected) (behind : UploadFloor) :
    (readRows device retried maxBytes page got behind).got.found = got.found := by
  induction page generalizing got behind with
  | nil => rfl
  | cons row rest ih =>
    have hrest := ih (fun r hr => hreadable r (List.mem_cons_of_mem _ hr))
    have hopens := toLocal_of_readable device row (hreadable row List.mem_cons_self)
    unfold readRows
    rw [hopens]
    dsimp only
    split
    · exact hrest got _
    · split
      · rfl
      · exact hrest { got with items := _ } _

variable (device) in
/-- When every row opens, a blank record stays blank. -/
theorem blank_scan (hids : (rows.map StoredItem.id).Nodup)
    (hreadable : ∀ row ∈ rows, row.Readable) {previous : UnreadableUploads}
    (hblank : Blank previous) (since : UploadFloor) (epoch : UInt64) (maxBytes : Nat) :
    Blank (scanBounded device rows since epoch previous maxBytes).unreadable := by
  have hretry : retry device rows maxBytes previous.ids = ⟨{}, []⟩ := by
    rw [hblank.1]
    rfl
  have hrevisit : ∀ floor, revisit device rows floor previous maxBytes = ⟨{}, []⟩ := by
    intro floor
    simp [revisit, hblank.2, hretry]
  unfold scanBounded
  dsimp only
  rw [versionsAfter_eq_page, hrevisit]
  have hpage := (segment_page (nodup_keysetOf hids)
    (if previous.resetFloor then UploadFloor.default else since) uploadScanLimit).stored
  have hfound := readRows_found device previous.ids maxBytes _
    (fun row hrow => hreadable row (hpage row hrow)) ⟨{}, []⟩
    (if previous.resetFloor then UploadFloor.default else since)
  simp only [Blank, settleTotal, hfound, and_self]

private theorem wellFormed_of_blank {unreadable : UnreadableUploads} (h : Blank unreadable) :
    unreadable.WellFormed := by
  refine ⟨by simp [h.1], by simp [h.1], ?_⟩
  intro sweep hsweep
  simp [h.2] at hsweep

private theorem not_covered_of_blank {unreadable : UnreadableUploads} (h : Blank unreadable)
    (row : StoredItem) : ¬ Covered unreadable row := by
  rintro (hid | ⟨sweep, hsweep, -⟩)
  · simp [h.1] at hid
  · simp [h.2] at hsweep

private theorem pushed_evidence (device : String) :
    Evidence device (Pushed device) (PushedOrInRound device) := by
  refine ⟨?_, ?_, ?_, ?_, id⟩
  · intro b row old h hold
    exact (h.version ▸ hold : row.version device ∈ b.pushed)
  · intro b row old h hold
    unfold PushedOrInRound at hold ⊢
    rw [h.version]
    exact hold
  · intro b row h
    exact List.mem_append_left _ h
  · intro b row h
    exact h.imp_left (fun hr => List.mem_append_left _ hr)

private theorem stepped_readable {act : Act} (h : ∀ row ∈ s.service.rows, row.Readable)
    (hact : KeepsReadable act) (hstep : Stepped device s act s') :
    ∀ row ∈ s'.service.rows, row.Readable := by
  cases hstep with
  | write row stamp _ _ =>
    intro r hr
    rcases (Lib.Rows.mem_put _ _ _).1 hr with ⟨hr, -⟩ | rfl
    · exact h r hr
    · exact hact
  | note | requeue => simpa using h
  | reseal id opens metadataOpens =>
    intro r hr
    obtain ⟨old, hold, rfl⟩ := List.mem_map.1 hr
    unfold StoredItem.reseal
    split
    · exact ⟨Or.inr hact.1, hact.2⟩
    · exact h old hold
  | prune id => exact fun r hr => h r (List.mem_filter.1 hr).1
  | scan position _ =>
    simp only [afterScan, requestScan_rows]
    exact h
  | commit startedMs service _ hcommitted =>
    obtain ⟨offer, -, rfl | ⟨-, -, rfl⟩⟩ := commitUpload_cases hcommitted
    · exact h
    · exact h
  | _ => exact h

private theorem stepped_sent {act : Act} (h : s.phase = .pushed → s.inRound ⊆ s.pushed)
    (hstep : Stepped device s act s') : s'.phase = .pushed → s'.inRound ⊆ s'.pushed := by
  cases hstep with
  | read _ => simp
  | scan position _ => simp [afterScan]
  | push _ => exact fun _ => List.subset_append_right _ _
  | commit startedMs service _ _ => simp [afterCommit]
  | fail | restart => simp
  | _ => exact h

/-- Every fenced step keeps the invariant. -/
theorem inv_step (act : Act) (h : Inv device s) (hfenced : Fenced s act)
    (hstep : Stepped device s act s') : Inv device s' := by
  refine ⟨h.step (pushed_evidence device) act hstep ?_ ?_ ?_ ?_,
    stepped_readable h.readable hfenced.1 hstep, ?_, stepped_sent h.sent hstep⟩
  · rintro row stamp rfl
    exact hfenced.2
  · intro position _ _
    refine ⟨fun _ row _ _ hr => hr, fun row hrow hreach => Or.inr ?_⟩
    obtain ⟨epoch, hscan, -⟩ := requestScan_scan device s position
    rw [hscan] at hreach
    have hkept := scan_keeps_reached h.ids (wellFormed_of_blank h.blank) position epoch hrow hreach
    have hblank := blank_scan device h.ids h.readable h.blank position epoch scanBytes
    refine List.mem_append_right _ ?_
    rw [hscan]
    exact hkept.resolve_right (not_covered_of_blank hblank row)
  · rintro startedMs rfl hphase
    refine ⟨hfenced.2, fun row hr => ?_⟩
    rcases hr with hr | hr
    · exact hr
    · exact h.sent hphase hr
  · exact fun _ row _ _ hr => hr
  · rcases stepped_record hstep with hrecord | ⟨position, -, rfl⟩
    · rw [hrecord]
      exact h.blank
    · obtain ⟨epoch, hscan, -, -, hrecord⟩ := requestScan_scan device s position
      have hblank := blank_scan device h.ids h.readable h.blank position epoch scanBytes
      rw [← hscan] at hblank
      simp only [afterScan, hrecord]
      refine ⟨List.eq_nil_iff_forall_not_mem.2 fun id hid => ?_, hblank.2⟩
      rw [mem_decode_encode_ids, hblank.1] at hid
      simp at hid

theorem inv_reaches
    (h : Reaches device (fun row => 0 ≤ row.createdAt ∧ row.Readable) Fenced s) : Inv device s :=
  h.invariant
    (fun rows hrows hhistory => ⟨floorInv_initial rows hrows fun row hrow => (hhistory row hrow).1,
      fun row hrow => (hhistory row hrow).2, ⟨rfl, rfl⟩, by simp [initial]⟩)
    (fun _ _ act hinv hfenced hstep => inv_step act hinv hfenced hstep)

/-- In every state of a fenced run in which no writer is between its write and
its note, the floor has passed only versions that were pushed; and a commit whose
scan was followed by a note leaves the floor where it is. -/
theorem floor_passes_only_pushed (device : String) (s : State)
    (h : Reaches device (fun row => 0 ≤ row.createdAt ∧ row.Readable) Fenced s) :
    (s.pending = [] → ∀ row ∈ s.service.rows, keysetOf row < s.service.floor →
      row.version device ∈ s.pushed) ∧
    ∀ startedMs s', Fenced s (.commit startedMs) → step device s (.commit startedMs) = some s' →
      s.notes ≠ 0 → s'.service.floor = s.service.floor := by
  have hinv := inv_reaches h
  constructor
  · intro hpending row hrow hlt
    rcases hinv.passed row hrow hlt.le with hr | ⟨stamp, hstamp, -⟩
    · exact hr
    · simp [hpending] at hstamp
  · intro startedMs s' hfenced hstep hnotes
    cases stepped_of_step hstep with
    | commit _ service hphase hcommit =>
      obtain ⟨offer, hoffer, hepoch, -⟩ := hinv.offered (Or.inr hphase)
      obtain ⟨offer', hoffer', rfl | ⟨hfence, -, -⟩⟩ := commitUpload_cases hcommit
      · rfl
      · rw [hoffer, Option.some.injEq] at hoffer'
        subst hoffer'
        exact absurd (notes_eq_zero_of_epoch hepoch hfence hfenced.2) hnotes

private def plainNote (createdAt : Int) : StoredItem where
  id := "a"
  createdAt := createdAt
  deleted := false
  contentType := "text"
  originDeviceId := "device"
  appBundleId := none
  appName := none
  content := [104, 105]
  payloadMetadata := none
  opens := true
  metadataOpens := true

private def uploadOne : List Act :=
  [.write (plainNote 50) 50, .note 50, .read, .scan, .push, .commit 100]

private def uploaded : State :=
  (run "device" (initial []) uploadOne).getD (initial [])

/-- One uploaded version lies before the floor, and it was pushed. -/
theorem floor_passes_only_pushed_uploaded :
    keysetOf (plainNote 50) < uploaded.service.floor ∧
      (plainNote 50).version "device" ∈ uploaded.pushed := by
  have hreaches : Reaches "device" (fun row => 0 ≤ row.createdAt ∧ row.Readable) Fenced
      uploaded :=
    Reaches.of_run (.install [] ⟨by simp, by simp⟩ (by simp)) uploadOne (by decide)
      (by decide)
  exact ⟨by decide, (floor_passes_only_pushed "device" uploaded hreaches).1
    (by decide) (plainNote 50) (by decide) (by decide)⟩

/-- Notes past the floor's stamp only count. -/
private theorem reaches_requeues {history : StoredItem → Prop} {s : State}
    (hs : Reaches device history (fun _ => KeepsReadable) s) (stamp : Int)
    (hstamp : ¬ max stamp 0 ≤ s.service.floor.createdAt) (n : Nat) :
    Reaches device history (fun _ => KeepsReadable) { s with
      service := { s.service with epoch := s.service.epoch + UInt64.ofNat n }
      notes := s.notes + n } := by
  induction n with
  | zero => simpa using hs
  | succ n ih =>
    refine ih.next (.requeue stamp) trivial ?_
    simp only [step, Service.noteVersion, hstamp, if_false, Option.some.injEq, State.mk.injEq,
      Service.mk.injEq, and_true, true_and, UInt64.ofNat_add]
    exact ⟨UInt64.add_assoc _ _ _, Nat.add_assoc _ _ _⟩

/-- A version has been passed by the floor and was never pushed. -/
def Skipped (device : String) (s : State) : Prop :=
  s.pending = [] ∧ ∃ row ∈ s.service.rows, keysetOf row < s.service.floor ∧
    row.version device ∉ s.pushed

instance (device : String) (s : State) : Decidable (Skipped device s) := by
  unfold Skipped
  infer_instance

private def scannedEmpty : State :=
  (run "device" (initial []) [.read, .scan, .push]).getD (initial [])

/-- The scanned state after all but one of a full turn of the epoch. -/
private def almostTurned : State :=
  { scannedEmpty with
    service := { scannedEmpty.service with
      epoch := scannedEmpty.service.epoch + UInt64.ofNat (2 ^ 64 - 1) }
    notes := scannedEmpty.notes + (2 ^ 64 - 1) }

private def writeBeforeZero : List Act := [.write (plainNote (-5)) (-5), .note (-5)]

private def writeAndCommit : List Act := [.write (plainNote 50) 50, .note 50, .commit 100]

/-- Without the two conditions a version is skipped: one stamped before zero, and
one written in a round that saw exactly 2^64 notes. -/
theorem version_skipped :
    (∃ s, Reaches "device" StoredItem.Readable (fun _ => KeepsReadable) s ∧
      (∀ row ∈ s.service.rows, row.createdAt < 0) ∧ Skipped "device" s) ∧
    ∃ s, Reaches "device" StoredItem.Readable (fun _ => KeepsReadable) s ∧
      (∀ row ∈ s.service.rows, 0 ≤ row.createdAt) ∧ Skipped "device" s := by
  have hinstall : Reaches "device" StoredItem.Readable (fun _ => KeepsReadable) (initial []) :=
    .install [] ⟨by simp, by simp⟩ (by simp)
  constructor
  · refine ⟨(run "device" (initial []) writeBeforeZero).getD (initial []),
      hinstall.of_run writeBeforeZero (by decide) (by decide), ?_⟩
    decide
  · have hscanned : Reaches "device" StoredItem.Readable (fun _ => KeepsReadable) scannedEmpty :=
      hinstall.of_run [.read, .scan, .push] (by decide) (by decide)
    have hturned : Reaches "device" StoredItem.Readable (fun _ => KeepsReadable) almostTurned :=
      reaches_requeues hscanned 1 (by decide) (2 ^ 64 - 1)
    refine ⟨(run "device" almostTurned writeAndCommit).getD (initial []),
      hturned.of_run writeAndCommit (by decide) (by decide), ?_⟩
    decide

end CopyPaste.Upload.Fence
