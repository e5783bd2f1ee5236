import CopyPaste.Upload.Floor
import Mathlib

/-!
Which steps strand an upload row. A scan moves a covered version into the round or the
new record, and what it moves into the round is out of the record from then on: the
record is kept at the scan, the floor at the commit. So a covered version that opens is
stranded by the scan that offers it, until its round completes.
-/

namespace CopyPaste.Upload.Stranded

open Lib.Keyset Record UnreadableUploads Scanning Coverage Machine Floor

/-- A version was completed or is covered. -/
def Retained (device : String) (b : Books) (row : StoredItem) : Prop :=
  row.version device ∈ b.completed ∨ Covered (decode b.record) row

/-- A version was completed, is in the round under way, or is covered. -/
def Accounted (device : String) (b : Books) (row : StoredItem) : Prop :=
  row.version device ∈ b.completed ∨ row.version device ∈ b.inRound ∨
    Covered (decode b.record) row

/-- The floor has passed only versions with evidence `P`. -/
structure Inv (device : String) (P : Books → StoredItem → Prop) (s : State) : Prop extends
    FloorInv P (Accounted device) s where
  record : (decode s.service.record).WellFormed

/-- The condition on a step. Versions are stamped at or after zero; when a scan begins, no
covered version at or below the floor opens, unless a completed round has offered it;
fewer than 2^64 notes fall between a scan and its commit. -/
def Careful (device : String) (s : State) : Act → Prop
  | .write row _ => 0 ≤ row.createdAt
  | .commit _ => s.notes < 2 ^ 64
  | .scan => ∀ row ∈ s.service.rows, keysetOf row ≤ s.service.floor →
      row.version device ∉ s.completed → Covered (decode s.service.record) row → ¬ row.Readable
  | _ => True

instance (device : String) (s : State) (act : Act) : Decidable (Careful device s act) :=
  match act with
  | .write row _ => inferInstanceAs (Decidable (0 ≤ row.createdAt))
  | .commit _ => inferInstanceAs (Decidable (s.notes < 2 ^ 64))
  | .scan => inferInstanceAs (Decidable (∀ row ∈ s.service.rows, keysetOf row ≤ s.service.floor →
      row.version device ∉ s.completed → Covered (decode s.service.record) row → ¬ row.Readable))
  | .note _ | .requeue _ | .reseal _ _ _ | .prune _ | .read | .push | .fail | .restart =>
    inferInstanceAs (Decidable True)

/-- All that a collection holds is of rows that open. -/
def Opened (device : String) (rows : List StoredItem) (got : Collected) : Prop :=
  ∀ item ∈ got.items, ∃ row ∈ rows, row.Readable ∧ item = row.version device

section Opened

variable {device : String} {rows : List StoredItem} {got : Collected} {row : StoredItem}

theorem Opened.push (h : Opened device rows got) (hrow : row ∈ rows) {item : LocalItem}
    (hopens : toLocal device row = some item) :
    Opened device rows { got with items := got.items ++ [item] } := by
  intro other hother
  rcases List.mem_append.1 hother with hold | hnew
  · exact h other hold
  · rw [List.mem_singleton.1 hnew]
    exact ⟨row, hrow, toLocal_eq_some device row item hopens⟩

theorem opened_retry (device : String) (rows : List StoredItem) (maxBytes : Nat)
    (ids : List String) : Opened device rows (retry device rows maxBytes ids) := by
  have hfold : ∀ todo : List StoredItem, (∀ row ∈ todo, row ∈ rows) → ∀ got,
      Opened device rows got → Opened device rows (todo.foldl (retryRow device maxBytes) got) := by
    intro todo
    induction todo with
    | nil => exact fun _ got h => h
    | cons row rest ih =>
      intro htodo got h
      refine ih (fun r hr => htodo r (List.mem_cons_of_mem _ hr)) _ ?_
      unfold retryRow
      split
      · rename_i item hopens
        split
        · exact h.push (htodo row List.mem_cons_self) hopens
        · exact h
      · exact h
  refine hfold _ (fun row hrow => ?_) _ (fun item hitem => absurd hitem List.not_mem_nil)
  obtain ⟨chunk, -, hmem⟩ := List.mem_flatMap.1 hrow
  exact (List.mem_filter.1 hmem).1

theorem opened_walkRows (floor : UploadFloor) (retried : List String) (maxBytes : Nat)
    (page : List StoredItem) (sweep : Sweep) (hpage : ∀ row ∈ page, row ∈ rows)
    (h : Opened device rows got) :
    Opened device rows (walkRows device floor retried maxBytes page got sweep).got := by
  induction page generalizing got sweep with
  | nil => exact h
  | cons row rest ih =>
    have hrest := fun r hr => hpage r (List.mem_cons_of_mem row hr)
    unfold walkRows
    split
    · exact h
    split
    · exact ih _ hrest h
    split
    · rename_i item hopens
      split
      · exact h
      · exact ih _ hrest (h.push (hpage row List.mem_cons_self) hopens)
    · exact ih _ hrest h

theorem opened_readRows (retried : List String) (maxBytes : Nat) (page : List StoredItem)
    (behind : UploadFloor) (hpage : ∀ row ∈ page, row ∈ rows) (h : Opened device rows got) :
    Opened device rows (readRows device retried maxBytes page got behind).got := by
  induction page generalizing got behind with
  | nil => exact h
  | cons row rest ih =>
    have hrest := fun r hr => hpage r (List.mem_cons_of_mem row hr)
    unfold readRows
    split
    · exact ih _ hrest h
    split
    · rename_i item hopens
      split
      · exact h
      · exact ih _ hrest (h.push (hpage row List.mem_cons_self) hopens)
    · exact ih _ hrest h

theorem mem_of_mem_versionsAfter {sinceMs : Int} {afterId : Option String} {limit : Nat}
    (h : row ∈ versionsAfter rows sinceMs afterId limit) : row ∈ rows := by
  have hsorted := List.mem_of_mem_take h
  rw [List.mem_insertionSort] at hsorted
  exact (List.mem_filter.1 hsorted).1

/-- A scan offers only versions of rows that open. -/
theorem opened_scan (device : String) (rows : List StoredItem) (since : UploadFloor)
    (epoch : UInt64) (previous : UnreadableUploads) (maxBytes : Nat) :
    ∀ item ∈ (scanBounded device rows since epoch previous maxBytes).items,
      ∃ row ∈ rows, row.Readable ∧ item = row.version device := by
  unfold scanBounded
  dsimp only
  generalize (if previous.resetFloor then UploadFloor.default else since) = floor
  refine opened_readRows _ _ _ _ (fun row hrow => mem_of_mem_versionsAfter hrow) ?_
  unfold revisit
  dsimp only
  have hretried := opened_retry device rows maxBytes previous.ids
  split
  · exact hretried
  · rename_i sweep hsweep
    have hwalked := opened_walkRows floor previous.ids maxBytes
      (versionsAfter rows sweep.next.createdAt sweep.next.itemId uploadScanLimit) sweep
      (fun row hrow => mem_of_mem_versionsAfter hrow) hretried
    unfold walkLeftBehind
    dsimp only
    split
    · exact hwalked
    · exact hwalked
    · split <;> exact hwalked

end Opened

variable {device : String} {s s' : State}

theorem covered_decode_encode (unreadable : UnreadableUploads) (row : StoredItem) :
    Covered (decode unreadable.encode) row ↔ Covered unreadable row := by
  unfold Covered
  rw [mem_decode_encode_ids, sweeps_decode_encode]

private theorem accounted_same {b : Books} {row old : StoredItem}
    (h : SameVersion device row old) (hold : Accounted device b old) : Accounted device b row := by
  unfold Accounted Covered at hold ⊢
  rw [h.version, h.id, h.key]
  exact hold

private theorem retained_evidence (device : String) :
    Evidence device (Retained device) (Accounted device) := by
  refine ⟨fun {b row old} h hold => ?_, accounted_same, id, id, ?_⟩
  · unfold Retained Covered at hold ⊢
    rw [h.version, h.id, h.key]
    exact hold
  · rintro b row (h | h)
    · exact Or.inl (List.mem_append_left _ h)
    · exact Or.inr h

private theorem accounted_evidence (device : String) :
    Evidence device (Accounted device) (Accounted device) := by
  refine ⟨accounted_same, accounted_same, id, id, ?_⟩
  rintro b row (h | h | h)
  · exact Or.inl (List.mem_append_left _ h)
  · exact Or.inl (List.mem_append_right _ h)
  · exact Or.inr (Or.inr h)

private theorem accounted_afterScan (position : UploadFloor) {row : StoredItem}
    (h : row.version device ∈ (s.service.requestScan device position).2.items ∨
      Covered (s.service.requestScan device position).2.unreadable row) :
    Accounted device (books (afterScan device s position)) row := by
  obtain ⟨-, -, -, -, hrecord⟩ := requestScan_scan device s position
  rcases h with hitem | hcovered
  · exact Or.inr (Or.inl (List.mem_append_right _ hitem))
  · refine Or.inr (Or.inr ?_)
    simp only [books, afterScan, hrecord]
    exact (covered_decode_encode _ row).2 hcovered

/-- A scan moves what the record covered into the round or the new record. -/
private theorem scan_moves {P : Books → StoredItem → Prop} (h : Inv device P s)
    (position : UploadFloor) (hphase : s.phase = .reading position)
    (hreset : (decode s.service.record).resetFloor = false) {row : StoredItem}
    (hrow : row ∈ s.service.rows) (hle : keysetOf row ≤ s.service.floor)
    (hcovered : Covered (decode s.service.record) row) :
    row.version device ∈ (s.service.requestScan device position).2.items ∨
      Covered (s.service.requestScan device position).2.unreadable row := by
  obtain ⟨epoch, hscan, -⟩ := requestScan_scan device s position
  rw [hscan]
  exact scan_keeps_covered device scanBytes h.ids h.record position epoch hreset hrow
    (hle.trans (h.position position hphase)) hcovered

/-- A version that does not open is not offered. -/
private theorem not_offered {P : Books → StoredItem → Prop} (h : Inv device P s)
    (position : UploadFloor) {row : StoredItem} (hrow : row ∈ s.service.rows)
    (hsealed : ¬ row.Readable) :
    row.version device ∉ (s.service.requestScan device position).2.items := by
  obtain ⟨epoch, hscan, -⟩ := requestScan_scan device s position
  rw [hscan]
  intro hitem
  obtain ⟨other, hother, hopens, hsame⟩ := opened_scan device _ _ _ _ _ _ hitem
  have hid : row.id = other.id := congrArg LocalItem.itemId hsame
  obtain rfl : row = other := List.inj_on_of_nodup_map h.ids hrow hother hid
  exact hsealed hopens

private theorem scan_answers {P : Books → StoredItem → Prop} (h : Inv device P s) (position : UploadFloor) (row : StoredItem)
    (hrow : row ∈ s.service.rows)
    (hreach : Offer.Reaches (s.service.requestScan device position).2.offer (keysetOf row)) :
    Accounted device (books (afterScan device s position)) row := by
  obtain ⟨epoch, hscan, -⟩ := requestScan_scan device s position
  refine accounted_afterScan position ?_
  rw [hscan] at hreach ⊢
  exact scan_keeps_reached h.ids h.record position epoch hrow hreach

/-- What a step keeps, given evidence that a scan moves and that abandoning a round does not
cost. -/
private theorem step_keeps {P : Books → StoredItem → Prop}
    (hE : Evidence device P (Accounted device)) (act : Act) (h : Inv device P s)
    (hstep : Stepped device s act s')
    (hwrite : ∀ row stamp, act = .write row stamp → 0 ≤ row.createdAt)
    (hnotes : ∀ startedMs, act = .commit startedMs → s.notes < 2 ^ 64)
    (hcommit : ∀ row, Accounted device (books s) row →
      P { books s with inRound := [], completed := s.completed ++ s.inRound } row)
    (hscan : ∀ position, s.phase = .reading position → act = .scan →
      (decode s.service.record).resetFloor = false → ∀ row ∈ s.service.rows,
        keysetOf row ≤ s.service.floor → P (books s) row →
        P (books (afterScan device s position)) row)
    (habandon : act = .fail ∨ act = .restart → ∀ row, P (books s) row →
      P { books s with inRound := [] } row) : Inv device P s' := by
  have hrecord : (decode s'.service.record).WellFormed := by
    rcases stepped_record hstep with hrecord | ⟨position, -, rfl⟩
    · rw [hrecord]
      exact h.record
    · obtain ⟨epoch, hscan, -, -, hrecord⟩ := requestScan_scan device s position
      simp only [afterScan, hrecord]
      refine wellFormed_decode_encode _ ?_
      rw [hscan]
      exact wellFormed_scan h.ids h.record position epoch
  refine ⟨h.step hE act hstep hwrite ?_ ?_ ?_, hrecord⟩
  · intro position hact hphase
    exact ⟨hscan position hphase hact, scan_answers h position⟩
  · rintro startedMs rfl -
    exact ⟨hnotes startedMs rfl, hcommit⟩
  · exact fun hact row _ _ hr => habandon hact row hr

/-- Every careful step keeps the invariant. -/
theorem inv_step (act : Act) (h : Inv device (Retained device) s) (hcareful : Careful device s act)
    (hstep : Stepped device s act s') : Inv device (Retained device) s' := by
  refine step_keeps (retained_evidence device) act h hstep ?_ ?_ ?_ ?_ fun _ _ hr => hr
  · rintro row stamp rfl
    exact hcareful
  · rintro startedMs rfl
    exact hcareful
  · rintro row (hr | hr | hr)
    · exact Or.inl (List.mem_append_left _ hr)
    · exact Or.inl (List.mem_append_right _ hr)
    · exact Or.inr hr
  · rintro position hphase rfl hreset row hrow hle hr
    by_cases hdone : row.version device ∈ s.completed
    · exact Or.inl hdone
    have hcovered := hr.resolve_left hdone
    obtain ⟨-, -, -, -, hrecord⟩ := requestScan_scan device s position
    refine Or.inr ?_
    simp only [books, afterScan, hrecord]
    rw [covered_decode_encode]
    exact (scan_moves h position hphase hreset hrow hle hcovered).resolve_left
      (not_offered h position hrow (hcareful row hrow hle hdone hcovered))

/-- A step of a complete round accounts for what the record covered. -/
theorem round_step (act : Act) (h : Inv device (Accounted device) s)
    (hround : act = .read ∨ act = .scan ∨ act = .push ∨ ∃ startedMs, act = .commit startedMs)
    (hnotes : ∀ startedMs, act = .commit startedMs → s.notes < 2 ^ 64)
    (hstep : Stepped device s act s') : Inv device (Accounted device) s' := by
  refine step_keeps (accounted_evidence device) act h hstep ?_ hnotes
    (fun row hr => (accounted_evidence device).commitP hr) ?_ ?_
  · rintro row stamp rfl
    simp at hround
  · rintro position hphase rfl hreset row hrow hle (hr | hr | hr)
    · exact Or.inl hr
    · exact Or.inr (Or.inl (List.mem_append_left _ hr))
    · exact accounted_afterScan position (scan_moves h position hphase hreset hrow hle hr)
  · rintro (rfl | rfl)
    · simp at hround
    · simp at hround

/-- What is kept is accounted for. -/
theorem Inv.accounted (h : Inv device (Retained device) s) : Inv device (Accounted device) s where
  __ := h
  passed := fun row hrow hle =>
    (h.passed row hrow hle).imp_left (Or.imp_right Or.inr)

theorem inv_reaches (h : Reaches device (fun row => 0 ≤ row.createdAt) (Careful device) s) :
    Inv device (Retained device) s :=
  h.invariant
    (fun rows hrows hstamps => ⟨floorInv_initial rows hrows hstamps, wellFormed_default⟩)
    (fun _ _ act hinv hcareful hstep => inv_step act hinv hcareful hstep)

end CopyPaste.Upload.Stranded
