import CopyPaste.Upload.Machine

/-!
The invariant of the upload floor, for any evidence that a version is taken care
of. Every stored version at or below the floor has the evidence or a writer that
has not noted it yet; and so has, as long as nothing was noted since the scan,
every row the offer in flight answers for. Each step is treated once here; what
counts as evidence, and that a step keeps it, is left to the instances.
-/

namespace CopyPaste.Upload.Floor

open Lib.Keyset Lib.Rows Record UnreadableUploads Scanning Coverage Machine

/-- What the machine remembers about items, apart from the store and the floor. -/
structure Books where
  record : RawRecord
  inRound : List LocalItem
  pushed : List LocalItem
  completed : List LocalItem

def books (s : State) : Books :=
  ⟨s.service.record, s.inRound, s.pushed, s.completed⟩

/-- Two rows hold the same version, though one may open and the other not. -/
structure SameVersion (device : String) (row old : StoredItem) : Prop where
  id : row.id = old.id
  createdAt : row.createdAt = old.createdAt
  content : row.content = old.content
  version : row.version device = old.version device

theorem SameVersion.key {device : String} {row old : StoredItem}
    (h : SameVersion device row old) : keysetOf row = keysetOf old := by
  simp [keysetOf, h.id, h.createdAt]

/-- There is evidence for a version, or its writer has yet to note it. -/
def Backed (evidence : Books → StoredItem → Prop) (s : State) (row : StoredItem) : Prop :=
  evidence (books s) row ∨ ∃ stamp ∈ s.pending, stamp ≤ row.createdAt

def UnderWay (s : State) : Prop :=
  s.phase = .scanned ∨ s.phase = .pushed

/-- The floor has passed only versions with evidence `P`, and the offer in flight
answers only for versions with evidence `Q`. -/
structure FloorInv (P Q : Books → StoredItem → Prop) (s : State) : Prop where
  ids : (s.service.rows.map StoredItem.id).Nodup
  stamps : ∀ row ∈ s.service.rows, 0 ≤ row.createdAt
  contents : ∀ row ∈ s.service.rows, row.content.length ≤ maxContentBytes
  floor : ReadsBack s.service.floor
  position : ∀ position, s.phase = .reading position → s.service.floor ≤ position
  idle : s.phase = .idle → s.inRound = []
  passed : ∀ row ∈ s.service.rows, keysetOf row ≤ s.service.floor → Backed P s row
  offered : UnderWay s → ∃ offer, s.service.offer = some offer ∧
    s.service.epoch = offer.startedEpoch + UInt64.ofNat s.notes ∧
    (s.notes = 0 → offer.started ≤ s.service.floor → ∀ row ∈ s.service.rows,
      s.service.floor < keysetOf row → Offer.Reaches offer (keysetOf row) → Backed Q s row)

theorem default_lt_keysetOf (row : StoredItem) (h : 0 ≤ row.createdAt) :
    UploadFloor.default < keysetOf row := by
  refine lt_of_le_of_lt ?_ (Position.bare_lt_row row.createdAt row.id)
  exact (Position.bare_le_iff 0 ⟨row.createdAt, none⟩).2 h

section Steps

variable {device : String} {P Q : Books → StoredItem → Prop} {s : State}

theorem floorInv_initial (rows : List StoredItem) (hrows : Installable rows)
    (hstamps : ∀ row ∈ rows, 0 ≤ row.createdAt) : FloorInv P Q (initial rows) := by
  refine ⟨hrows.ids, hstamps, hrows.contents, ⟨le_rfl, by simp [initial, UploadFloor.default]⟩,
    ?_, fun _ => rfl, ?_, ?_⟩
  · intro position h
    simp [initial] at h
  · intro row hrow hle
    exact absurd hle (not_le.2 (default_lt_keysetOf row (hstamps row hrow)))
  · rintro (h | h)
    · simp [initial] at h
    · simp [initial] at h

/-- A writer's pending note accounts for its version. -/
theorem FloorInv.write (h : FloorInv P Q s) (row : StoredItem) (stamp : Int)
    (hstamp : stamp ≤ row.createdAt) (hcontent : row.content.length ≤ maxContentBytes)
    (hrow : 0 ≤ row.createdAt) :
    FloorInv P Q { s with
      service := { s.service with rows := put StoredItem.id s.service.rows row }
      pending := stamp :: s.pending } := by
  have hcases : ∀ R : StoredItem → Prop, (∀ r ∈ s.service.rows, R r) → R row →
      ∀ r ∈ put StoredItem.id s.service.rows row, R r := by
    intro R hold hnew r hr
    rcases (mem_put _ _ _).1 hr with ⟨hr, -⟩ | rfl
    · exact hold r hr
    · exact hnew
  have hmono : ∀ {E : Books → StoredItem → Prop} {r : StoredItem}, Backed E s r →
      Backed E { s with
        service := { s.service with rows := put StoredItem.id s.service.rows row }
        pending := stamp :: s.pending } r := by
    rintro E r (hr | ⟨other, hother, hle⟩)
    · exact Or.inl hr
    · exact Or.inr ⟨other, List.mem_cons_of_mem _ hother, hle⟩
  have hnew : ∀ {E : Books → StoredItem → Prop}, Backed E { s with
      service := { s.service with rows := put StoredItem.id s.service.rows row }
      pending := stamp :: s.pending } row :=
    Or.inr ⟨stamp, List.mem_cons_self, hstamp⟩
  refine ⟨nodup_put _ row h.ids, hcases _ h.stamps hrow, hcases _ h.contents hcontent, h.floor,
    h.position, h.idle, ?_, ?_⟩
  · exact hcases _ (fun r hr hle => hmono (h.passed r hr hle)) (fun _ => hnew)
  · intro hphase
    obtain ⟨offer, hoffer, hepoch, hreached⟩ := h.offered hphase
    refine ⟨offer, hoffer, hepoch, fun hnotes hstarted => ?_⟩
    exact hcases _ (fun r hr hlt hreach => hmono (hreached hnotes hstarted r hr hlt hreach))
      (fun _ _ => hnew)

/-- A note lowers the floor below the versions only its writer accounted for. -/
theorem FloorInv.note (h : FloorInv P Q s) (stamp : Int) (pending : List Int)
    (hpending : ∀ other ∈ s.pending, other ∈ pending ∨ other = stamp) :
    FloorInv P Q { s with
      service := s.service.noteVersion stamp
      pending := pending
      notes := s.notes + 1 } := by
  have hfloor := noteVersion_floor_le s.service stamp
  refine ⟨by simpa using h.ids, by simpa using h.stamps, by simpa using h.contents,
    readsBack_noteVersion _ _ h.floor, ?_, h.idle, ?_, ?_⟩
  · intro position hphase
    exact hfloor.trans (h.position position hphase)
  · intro row hrow hle
    simp only [noteVersion_rows] at hrow
    rcases h.passed row hrow (hle.trans hfloor) with hr | ⟨other, hother, hstamp⟩
    · exact Or.inl (by simpa [books] using hr)
    · rcases hpending other hother with hstays | rfl
      · exact Or.inr ⟨other, hstays, hstamp⟩
      · have hlt := noteVersion_floor_lt s.service other row hstamp (h.stamps row hrow)
        exact absurd hle (not_le.2 hlt)
  · intro hphase
    obtain ⟨offer, hoffer, hepoch, -⟩ := h.offered hphase
    refine ⟨offer, by simpa using hoffer, ?_, fun hnotes => absurd hnotes (Nat.succ_ne_zero _)⟩
    simp only [noteVersion_epoch, hepoch, UInt64.ofNat_add]
    rw [UInt64.add_assoc]
    rfl

/-- Repairing or dropping rows without touching their versions. -/
theorem FloorInv.rows (h : FloorInv P Q s) (rows : List StoredItem)
    (hids : (rows.map StoredItem.id).Nodup)
    (hrows : ∀ row ∈ rows, ∃ old ∈ s.service.rows, SameVersion device row old)
    (hP : ∀ {b row old}, SameVersion device row old → P b old → P b row)
    (hQ : ∀ {b row old}, SameVersion device row old → Q b old → Q b row) :
    FloorInv P Q { s with service := { s.service with rows := rows } } := by
  refine ⟨hids, ?_, ?_, h.floor, h.position, h.idle, ?_, ?_⟩
  · intro row hrow
    obtain ⟨old, hold, hsame⟩ := hrows row hrow
    exact hsame.createdAt ▸ h.stamps old hold
  · intro row hrow
    obtain ⟨old, hold, hsame⟩ := hrows row hrow
    exact hsame.content ▸ h.contents old hold
  · intro row hrow hle
    obtain ⟨old, hold, hsame⟩ := hrows row hrow
    rcases h.passed old hold (hsame.key ▸ hle) with hr | ⟨stamp, hstamp, hle⟩
    · exact Or.inl (hP hsame hr)
    · exact Or.inr ⟨stamp, hstamp, hsame.createdAt ▸ hle⟩
  · intro hphase
    obtain ⟨offer, hoffer, hepoch, hreached⟩ := h.offered hphase
    refine ⟨offer, hoffer, hepoch, fun hnotes hstarted row hrow hlt hreach => ?_⟩
    obtain ⟨old, hold, hsame⟩ := hrows row hrow
    rcases hreached hnotes hstarted old hold (hsame.key ▸ hlt) (hsame.key ▸ hreach) with
      hr | ⟨stamp, hstamp, hle⟩
    · exact Or.inl (hQ hsame hr)
    · exact Or.inr ⟨stamp, hstamp, hsame.createdAt ▸ hle⟩

theorem FloorInv.read (h : FloorInv P Q s) :
    FloorInv P Q { s with phase := .reading s.service.floor } := by
  refine ⟨h.ids, h.stamps, h.contents, h.floor, ?_, by simp, h.passed, by simp [UnderWay]⟩
  intro position hposition
  simp only [Phase.reading.injEq] at hposition
  exact hposition.le

theorem FloorInv.push (h : FloorInv P Q s) (hphase : s.phase = .scanned)
    (hP : ∀ {row}, P (books s) row → P { books s with pushed := s.pushed ++ s.inRound } row)
    (hQ : ∀ {row}, Q (books s) row → Q { books s with pushed := s.pushed ++ s.inRound } row) :
    FloorInv P Q { s with phase := .pushed, pushed := s.pushed ++ s.inRound } := by
  refine ⟨h.ids, h.stamps, h.contents, h.floor, by simp, by simp, ?_, fun _ => ?_⟩
  · exact fun row hrow hle => (h.passed row hrow hle).imp_left hP
  · obtain ⟨offer, hoffer, hepoch, hreached⟩ := h.offered (Or.inl hphase)
    refine ⟨offer, hoffer, hepoch, fun hnotes hstarted row hrow hlt hreach => ?_⟩
    exact (hreached hnotes hstarted row hrow hlt hreach).imp_left hQ

section Scan

variable (device s) (position : UploadFloor)

theorem requestScan_rows : (s.service.requestScan device position).1.rows = s.service.rows := by
  unfold Service.requestScan
  dsimp only
  split <;> rfl

theorem requestScan_floor : (s.service.requestScan device position).1.floor =
    if (decode s.service.record).resetFloor then UploadFloor.default else s.service.floor := by
  unfold Service.requestScan
  dsimp only
  split <;> rfl

/-- The scan of a request is a bounded scan at some epoch, which it then offers. -/
theorem requestScan_scan : ∃ epoch,
    (s.service.requestScan device position).2 = scanBounded device s.service.rows position epoch
      (decode s.service.record) scanBytes ∧
    (s.service.requestScan device position).1.epoch = epoch ∧
    (s.service.requestScan device position).1.offer =
      some (s.service.requestScan device position).2.offer ∧
    (s.service.requestScan device position).1.record =
      (s.service.requestScan device position).2.unreadable.encode := by
  unfold Service.requestScan
  dsimp only
  split
  · exact ⟨_, rfl, rfl, rfl, rfl⟩
  · exact ⟨_, rfl, rfl, rfl, rfl⟩

/-- A scan that moves the old evidence to the new and has evidence for every row
it answers for. -/
theorem FloorInv.scan (h : FloorInv P Q s)
    (hP : (decode s.service.record).resetFloor = false → ∀ row ∈ s.service.rows,
      keysetOf row ≤ s.service.floor → P (books s) row →
      P (books (afterScan device s position)) row)
    (hQ : ∀ row ∈ s.service.rows,
      Offer.Reaches (s.service.requestScan device position).2.offer (keysetOf row) →
      Q (books (afterScan device s position)) row) :
    FloorInv P Q (afterScan device s position) := by
  have hrows := requestScan_rows device s position
  have hfloor := requestScan_floor device s position
  obtain ⟨epoch, hscan, hepoch, hoffer, -⟩ := requestScan_scan device s position
  refine ⟨by simpa only [afterScan, hrows] using h.ids,
    by simpa only [afterScan, hrows] using h.stamps,
    by simpa only [afterScan, hrows] using h.contents, ?_, by simp [afterScan],
    by simp [afterScan], ?_, fun _ => ?_⟩
  · simp only [afterScan, hfloor]
    split
    · exact ⟨le_rfl, by simp [UploadFloor.default]⟩
    · exact h.floor
  · intro row hrow hle
    simp only [afterScan, hrows, hfloor] at hrow hle
    cases hreset : (decode s.service.record).resetFloor with
    | true =>
      -- The floor went back to the start, and no version lies at or below it.
      simp only [hreset, if_true] at hle
      exact absurd hle (not_le.2 (default_lt_keysetOf row (h.stamps row hrow)))
    | false =>
      simp only [hreset, Bool.false_eq_true, if_false] at hle
      exact (h.passed row hrow hle).imp_left (hP hreset row hrow hle)
  · refine ⟨(s.service.requestScan device position).2.offer, hoffer, ?_, ?_⟩
    · have hstarted : (s.service.requestScan device position).2.offer.startedEpoch = epoch := by
        rw [hscan]
        rfl
      simp [afterScan, hepoch, hstarted]
    · intro _ _ row hrow _ hreach
      simp only [afterScan, hrows] at hrow
      exact Or.inl (hQ row hrow hreach)

end Scan

/-- After fewer than 2^64 notes, an unchanged epoch means none at all. -/
theorem notes_eq_zero_of_epoch {started epoch : UInt64} {notes : Nat}
    (hepoch : epoch = started + UInt64.ofNat notes) (hsame : started = epoch)
    (hnotes : notes < 2 ^ 64) : notes = 0 := by
  rw [hsame] at hepoch
  have hzero : UInt64.ofNat notes = 0 := by
    simpa using hepoch
  have hnat := congrArg UInt64.toNat hzero
  simpa [UInt64.toNat_ofNat_of_lt' hnotes] using hnat

/-- Once a round completes, the floor passes only what it answered for. -/
theorem FloorInv.commit (h : FloorInv P Q s) (startedMs : Int) (service : Service)
    (hphase : s.phase = .pushed)
    (hcommit : s.service.commitUpload startedMs = some service) (hnotes : s.notes < 2 ^ 64)
    (hP : ∀ {row}, P (books s) row →
      P { books s with inRound := [], completed := s.completed ++ s.inRound } row)
    (hQ : ∀ {row}, Q (books s) row →
      P { books s with inRound := [], completed := s.completed ++ s.inRound } row) :
    FloorInv P Q (afterCommit s service) := by
  obtain ⟨offer, hoffer, hepoch, hreached⟩ := h.offered (Or.inr hphase)
  obtain ⟨offer', hoffer', hsame | ⟨hfence, hstarted, hmoved⟩⟩ := commitUpload_cases hcommit
  · subst hsame
    exact ⟨h.ids, h.stamps, h.contents, h.floor, by simp [afterCommit], fun _ => rfl,
      fun row hrow hle => (h.passed row hrow hle).imp_left hP, by simp [afterCommit, UnderWay]⟩
  obtain rfl : offer' = offer := by
    rw [hoffer] at hoffer'
    exact (Option.some.inj hoffer').symm
  have hnone := notes_eq_zero_of_epoch hepoch hfence hnotes
  subst hmoved
  have hnonneg : 0 ≤ (max s.service.floor (Service.floorAfterRound offer' startedMs)).createdAt :=
    h.floor.nonneg.trans (Position.createdAt_le_of_le (le_max_left _ _))
  refine ⟨h.ids, h.stamps, h.contents, readsBack_setFloor _ _, by simp [afterCommit],
    fun _ => rfl, ?_, by simp [afterCommit, UnderWay]⟩
  intro row hrow hle
  have hle' := hle.trans (setFloor_floor_le s.service _ hnonneg)
  rcases le_or_gt (keysetOf row) s.service.floor with hbelow | habove
  · exact (h.passed row hrow hbelow).imp_left hP
  · have hafter : keysetOf row ≤ Service.floorAfterRound offer' startedMs := by
      rcases le_max_iff.1 hle' with h | h
      · exact absurd h (not_le.2 habove)
      · exact h
    exact (hreached hnone hstarted row hrow habove
      ⟨hstarted.trans_lt habove, le_of_le_floorAfterRound hafter⟩).imp_left hQ

/-- Abandoning a round, when the evidence does not rest on its items. -/
theorem FloorInv.abandon (h : FloorInv P Q s) (service : Service)
    (hrows : service.rows = s.service.rows) (hfloor : service.floor = s.service.floor)
    (hrecord : service.record = s.service.record)
    (hP : ∀ row ∈ s.service.rows, keysetOf row ≤ s.service.floor → P (books s) row →
      P { books s with inRound := [] } row) :
    FloorInv P Q { s with service := service, phase := .idle, inRound := [] } := by
  refine ⟨by rw [hrows]; exact h.ids, by rw [hrows]; exact h.stamps,
    by rw [hrows]; exact h.contents, by rw [hfloor]; exact h.floor, by simp, fun _ => rfl, ?_,
    by simp [UnderWay]⟩
  intro row hrow hle
  simp only [hrows, hfloor] at hrow hle
  refine (h.passed row hrow hle).imp_left fun hr => ?_
  simpa only [books, hrecord] using hP row hrow hle hr

variable (device) in
theorem sameVersion_reseal (id : String) (opens metadataOpens : Bool) (row : StoredItem) :
    SameVersion device (StoredItem.reseal id opens metadataOpens row) row := by
  unfold StoredItem.reseal
  split
  · exact ⟨rfl, rfl, rfl, rfl⟩
  · exact ⟨rfl, rfl, rfl, rfl⟩

theorem map_id_reseal (rows : List StoredItem) (id : String) (opens metadataOpens : Bool) :
    (rows.map (StoredItem.reseal id opens metadataOpens)).map StoredItem.id =
      rows.map StoredItem.id := by
  rw [List.map_map]
  exact List.map_congr_left fun row _ =>
    (sameVersion_reseal "" id opens metadataOpens row).id

/-- Evidence that only grows as a round is pushed and completed, and that does
not depend on whether a row opens. -/
structure Evidence (device : String) (P Q : Books → StoredItem → Prop) : Prop where
  sameP : ∀ {b row old}, SameVersion device row old → P b old → P b row
  sameQ : ∀ {b row old}, SameVersion device row old → Q b old → Q b row
  pushP : ∀ {b : Books} {row}, P b row → P { b with pushed := b.pushed ++ b.inRound } row
  pushQ : ∀ {b : Books} {row}, Q b row → Q { b with pushed := b.pushed ++ b.inRound } row
  commitP : ∀ {b : Books} {row}, P b row →
    P { b with inRound := [], completed := b.completed ++ b.inRound } row

/-- Every step keeps the floor invariant: writes are stamped at or after zero,
a scan moves the evidence, a commit turns the offered evidence into passed
evidence and comes after fewer than 2^64 notes, and abandoning a round costs no
evidence. -/
theorem FloorInv.step {s' : State} (hE : Evidence device P Q) (act : Act) (h : FloorInv P Q s)
    (hstep : Stepped device s act s')
    (hwrite : ∀ row stamp, act = .write row stamp → 0 ≤ row.createdAt)
    (hscan : ∀ position, act = .scan → s.phase = .reading position →
      ((decode s.service.record).resetFloor = false → ∀ row ∈ s.service.rows,
        keysetOf row ≤ s.service.floor → P (books s) row →
        P (books (afterScan device s position)) row) ∧
      ∀ row ∈ s.service.rows,
        Offer.Reaches (s.service.requestScan device position).2.offer (keysetOf row) →
        Q (books (afterScan device s position)) row)
    (hcommit : ∀ startedMs, act = .commit startedMs → s.phase = .pushed → s.notes < 2 ^ 64 ∧
      ∀ row, Q (books s) row →
        P { books s with inRound := [], completed := s.completed ++ s.inRound } row)
    (habandon : act = .fail ∨ act = .restart → ∀ row ∈ s.service.rows,
      keysetOf row ≤ s.service.floor → P (books s) row → P { books s with inRound := [] } row) :
    FloorInv P Q s' := by
  cases hstep with
  | write row stamp hstamp hcontent =>
    exact h.write row stamp hstamp hcontent (hwrite row stamp rfl)
  | note stamp _ =>
    refine h.note stamp _ (fun other hother => ?_)
    by_cases heq : other = stamp
    · exact Or.inr heq
    · exact Or.inl ((List.mem_erase_of_ne heq).2 hother)
  | requeue stamp => exact h.note stamp s.pending (fun other hother => Or.inl hother)
  | reseal id opens metadataOpens =>
    refine h.rows _ (by rw [map_id_reseal]; exact h.ids) ?_ hE.sameP hE.sameQ
    intro row hrow
    obtain ⟨old, hold, rfl⟩ := List.mem_map.1 hrow
    exact ⟨old, hold, sameVersion_reseal device id opens metadataOpens old⟩
  | prune id =>
    refine h.rows _ (h.ids.sublist (List.filter_sublist.map _)) ?_ hE.sameP hE.sameQ
    intro row hrow
    exact ⟨row, (List.mem_filter.1 hrow).1, rfl, rfl, rfl, rfl⟩
  | read _ => exact h.read
  | scan position hphase =>
    obtain ⟨hmoves, hanswers⟩ := hscan position rfl hphase
    exact h.scan device s position hmoves hanswers
  | push hphase => exact h.push hphase hE.pushP hE.pushQ
  | commit startedMs service hphase hcommitted =>
    obtain ⟨hnotes, hQP⟩ := hcommit startedMs rfl hphase
    exact h.commit startedMs service hphase hcommitted hnotes hE.commitP (fun hr => hQP _ hr)
  | fail => exact h.abandon s.service rfl rfl rfl (habandon (Or.inl rfl))
  | restart _ => exact h.abandon s.service.restart rfl rfl rfl (habandon (Or.inr rfl))

theorem stepped_record {s' : State} {act : Act} (hstep : Stepped device s act s') :
    s'.service.record = s.service.record ∨
      ∃ position, s.phase = .reading position ∧ s' = afterScan device s position := by
  cases hstep with
  | note stamp _ | requeue stamp => exact Or.inl (noteVersion_record _ _)
  | scan position hphase => exact Or.inr ⟨position, hphase, rfl⟩
  | commit startedMs service _ hcommitted =>
    obtain ⟨offer, -, hsame | ⟨-, -, hmoved⟩⟩ := commitUpload_cases hcommitted
    · exact Or.inl (by rw [afterCommit, hsame])
    · exact Or.inl (by rw [afterCommit, hmoved]; rfl)
  | _ => exact Or.inl rfl

end Steps

end CopyPaste.Upload.Floor
