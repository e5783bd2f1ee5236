import CopyPaste.Upload.Scanning

/-!
A scan loses no row. Each of its three phases keeps what it meets: a retried id
is offered or tracked again, a walked row is offered, tracked or left in the
region the sweep still walks, and so is every row of the main page up to the
offered position. The loops are followed by induction on the page, with the
segment of stored rows it stands for.
-/

namespace CopyPaste.Upload.Coverage

open Lib.Keyset Lib.Rows Record UnreadableUploads Scanning

variable {device : String} {rows : List StoredItem} {maxBytes : Nat}

/-- What the record covers: a tracked id, or a key the sweep will still walk. -/
def Covered (unreadable : UnreadableUploads) (row : StoredItem) : Prop :=
  row.id ∈ unreadable.ids ∨ unreadable.Sweeps (keysetOf row)

instance (unreadable : UnreadableUploads) (row : StoredItem) :
    Decidable (Covered unreadable row) := by
  unfold Covered
  infer_instance

section Retry

variable (device maxBytes) in
private theorem retryRow_spec (ids : List String) (hbound : ids.length ≤ maxUnreadableTracked)
    (got : Collected) (row : StoredItem) (hwf : got.found.WellFormed)
    (hsub : got.found.ids ⊆ ids) (hid : row.id ∈ ids) :
    (retryRow device maxBytes got row).found.WellFormed ∧
      (retryRow device maxBytes got row).found.ids ⊆ ids ∧
      (retryRow device maxBytes got row).found.sweep = got.found.sweep ∧
      Grows got (retryRow device maxBytes got row) ∧
      Kept device (retryRow device maxBytes got row) row := by
  have htracked : ({ got with found := (got.found.track row.id).1 } : Collected).found.WellFormed ∧
      (got.found.track row.id).1.ids ⊆ ids ∧
      (got.found.track row.id).1.sweep = got.found.sweep ∧
      Grows got { got with found := (got.found.track row.id).1 } ∧
      Kept device { got with found := (got.found.track row.id).1 } row := by
    refine ⟨wellFormed_track _ hwf, ?_, track_sweep _ _, Grows.track got row.id, ?_⟩
    · intro x hx
      rcases mem_of_mem_track _ _ hx with rfl | hx
      · exact hid
      · exact hsub hx
    · exact Or.inr (mem_track_of_subset row.id hwf.nodup hsub hbound hid)
  unfold retryRow
  split
  · rename_i item hitem
    split
    · refine ⟨hwf, hsub, rfl, Grows.push got item, Or.inl ?_⟩
      obtain ⟨-, rfl⟩ := toLocal_eq_some device row item hitem
      simp
    · exact htracked
  · exact htracked

variable (device maxBytes) in
private theorem foldl_retryRow (ids : List String) (hbound : ids.length ≤ maxUnreadableTracked)
    (todo : List StoredItem) (htodo : ∀ row ∈ todo, row.id ∈ ids) (got : Collected)
    (hwf : got.found.WellFormed) (hsub : got.found.ids ⊆ ids) :
    (todo.foldl (retryRow device maxBytes) got).found.WellFormed ∧
      (todo.foldl (retryRow device maxBytes) got).found.ids ⊆ ids ∧
      (todo.foldl (retryRow device maxBytes) got).found.sweep = got.found.sweep ∧
      Grows got (todo.foldl (retryRow device maxBytes) got) ∧
      ∀ row ∈ todo, Kept device (todo.foldl (retryRow device maxBytes) got) row := by
  induction todo generalizing got with
  | nil => exact ⟨hwf, hsub, rfl, Grows.refl got, by simp⟩
  | cons row rest ih =>
    obtain ⟨hwf', hsub', hsweep', hgrows', hkept'⟩ :=
      retryRow_spec device maxBytes ids hbound got row hwf hsub
        (htodo row List.mem_cons_self)
    obtain ⟨hwf'', hsub'', hsweep'', hgrows'', hkept''⟩ :=
      ih (fun r hr => htodo r (List.mem_cons_of_mem _ hr)) _ hwf' hsub'
    refine ⟨hwf'', hsub'', hsweep''.trans hsweep', hgrows'.trans hgrows'', ?_⟩
    intro r hr
    rcases List.mem_cons.1 hr with rfl | hr
    · exact hgrows''.kept hkept'
    · exact hkept'' r hr

/-- The rows of all chunks are the stored rows of the ids. -/
theorem mem_retried (rows : List StoredItem) (ids : List String) (row : StoredItem) :
    row ∈ (chunks uploadScanLimit ids).flatMap (versions rows) ↔ row ∈ rows ∧ row.id ∈ ids := by
  have hflat : ∀ x, x ∈ ids ↔ ∃ chunk ∈ chunks uploadScanLimit ids, x ∈ chunk := by
    intro x
    rw [← List.mem_flatten, flatten_chunks uploadScanLimit (by decide)]
  simp only [List.mem_flatMap, versions, List.mem_filter, decide_eq_true_eq, hflat row.id]
  constructor
  · rintro ⟨chunk, hchunk, hrow, hid⟩
    exact ⟨hrow, chunk, hchunk, hid⟩
  · rintro ⟨hrow, chunk, hchunk, hid⟩
    exact ⟨chunk, hchunk, hrow, hid⟩

variable (device rows maxBytes) in
/-- Every stored row of a retried id is offered or tracked again. -/
theorem retry_spec (ids : List String) (hbound : ids.length ≤ maxUnreadableTracked) :
    (retry device rows maxBytes ids).found.WellFormed ∧
      (retry device rows maxBytes ids).found.ids ⊆ ids ∧
      (retry device rows maxBytes ids).found.sweep = none ∧
      ∀ row ∈ rows, row.id ∈ ids → Kept device (retry device rows maxBytes ids) row := by
  obtain ⟨hwf, hsub, hsweep, -, hkept⟩ :=
    foldl_retryRow device maxBytes ids hbound
      ((chunks uploadScanLimit ids).flatMap (versions rows))
      (fun row hrow => ((mem_retried rows ids row).1 hrow).2) ⟨{}, []⟩ wellFormed_default
      (by simp)
  exact ⟨hwf, hsub, hsweep, fun row hrow hid => hkept row ((mem_retried rows ids row).2 ⟨hrow, hid⟩)⟩

end Retry

section WalkSection

/-- What the loop of a walk does, whatever ends it. -/
structure WalkSpec (device : String) (rows : List StoredItem) (floor : UploadFloor)
    (retried : List String) (page : List StoredItem) (got : Collected) (sweep : Sweep)
    (walk : Walk) : Prop where
  grows : Grows got walk.got
  wellFormed : got.found.WellFormed → walk.got.found.WellFormed
  foundSweep : walk.got.found.sweep = got.found.sweep
  fromPos : walk.sweep.fromPos = sweep.fromPos
  next : sweep.next ≤ walk.sweep.next
  seen : 0 < sweep.seen → 0 < walk.sweep.seen
  below : sweep.next ≤ floor → walk.sweep.next ≤ floor
  passed : ∀ row ∈ rows, sweep.next < keysetOf row → row.id ∉ retried →
    walk.sweep.next < keysetOf row ∨ row.version device ∈ walk.got.items ∨
      ¬ row.Readable ∧ (row.id ∈ walk.got.found.ids ∨ 0 < walk.sweep.seen)
  boundary : walk.stop = .boundary → ∀ row ∈ rows, walk.sweep.next < keysetOf row →
    floor < keysetOf row
  pageEnd : walk.stop = .pageEnd → ∀ row ∈ page, keysetOf row ≤ walk.sweep.next

/-- A segment's rows are its head or lie past it. -/
private theorem eq_head_or_lt {behind : UploadFloor} {row r : StoredItem}
    {rest : List StoredItem} (h : Segment keysetOf rows behind (row :: rest)) (hr : r ∈ rows)
    (hlt : behind < keysetOf r) : r = row ∨ keysetOf row < keysetOf r := by
  rcases lt_or_ge (keysetOf row) (keysetOf r) with hafter | hle
  · exact Or.inr hafter
  · exact Or.inl (h.head_unique hr hlt hle)

/-- Passing over the head of the page: what is known of the rest of the loop
holds of the whole of it, once the head itself is accounted for. -/
private theorem WalkSpec.cons {floor : UploadFloor} {retried : List String} {row : StoredItem}
    {rest : List StoredItem} {got got' : Collected} {sweep sweep' : Sweep} {walk : Walk}
    (h : WalkSpec device rows floor retried rest got' sweep' walk)
    (hsegment : Segment keysetOf rows sweep.next (row :: rest)) (hfloor : ¬ floor < keysetOf row)
    (hgrows : Grows got got') (hwf : got.found.WellFormed → got'.found.WellFormed)
    (hsweep : got'.found.sweep = got.found.sweep) (hfrom : sweep'.fromPos = sweep.fromPos)
    (hseen : 0 < sweep.seen → 0 < sweep'.seen) (hnext : sweep'.next = keysetOf row)
    (hrow : row.id ∉ retried → row.version device ∈ got'.items ∨
      ¬ row.Readable ∧ (row.id ∈ got'.found.ids ∨ 0 < sweep'.seen)) :
    WalkSpec device rows floor retried (row :: rest) got sweep walk := by
  have hafter : sweep.next < sweep'.next := hnext ▸ hsegment.behind_lt_head
  constructor
  · exact hgrows.trans h.grows
  · exact fun hgot => h.wellFormed (hwf hgot)
  · exact h.foundSweep.trans hsweep
  · exact h.fromPos.trans hfrom
  · exact hafter.le.trans h.next
  · exact fun hpos => h.seen (hseen hpos)
  · intro _
    exact h.below (hnext ▸ not_lt.1 hfloor)
  · intro r hr hlt hid
    rcases eq_head_or_lt hsegment hr hlt with rfl | hpast
    · rcases hrow hid with hitem | ⟨hunreadable, hleft⟩
      · exact Or.inr (Or.inl (h.grows.items hitem))
      · exact Or.inr (Or.inr ⟨hunreadable, hleft.imp (fun hmem => h.grows.ids hmem) h.seen⟩)
    · exact h.passed r hr (hnext ▸ hpast) hid
  · exact h.boundary
  · intro hstop r hr
    rcases List.mem_cons.1 hr with rfl | hr
    · exact hnext ▸ h.next
    · exact h.pageEnd hstop r hr

/-- A loop that ends on the row it was about to read. -/
private theorem WalkSpec.halt {floor : UploadFloor} {retried : List String}
    {page : List StoredItem} (got : Collected) (sweep : Sweep) (stop : WalkStop)
    (hboundary : stop = .boundary → ∀ row ∈ rows, sweep.next < keysetOf row →
      floor < keysetOf row)
    (hend : stop = .pageEnd → page = []) :
    WalkSpec device rows floor retried page got sweep ⟨got, sweep, stop⟩ := by
  constructor
  · exact Grows.refl got
  · exact id
  · rfl
  · rfl
  · exact le_rfl
  · exact id
  · exact id
  · exact fun row _ hlt _ => Or.inl hlt
  · exact hboundary
  · intro hstop row hrow
    rw [hend hstop] at hrow
    simp at hrow

theorem recordWalked_spec (got : Collected) (row : StoredItem) (sweep : Sweep) :
    Grows got { got with found := (got.found.recordWalked row.id sweep).1 } ∧
      (got.found.WellFormed → (got.found.recordWalked row.id sweep).1.WellFormed) ∧
      (got.found.recordWalked row.id sweep).1.sweep = got.found.sweep ∧
      (got.found.recordWalked row.id sweep).2.fromPos = sweep.fromPos ∧
      (got.found.recordWalked row.id sweep).2.next = sweep.next ∧
      (0 < sweep.seen → 0 < (got.found.recordWalked row.id sweep).2.seen) ∧
      (row.id ∈ (got.found.recordWalked row.id sweep).1.ids ∨
        0 < (got.found.recordWalked row.id sweep).2.seen) := by
  have hgrows := Grows.track got row.id
  have hwf : got.found.WellFormed → (got.found.track row.id).1.WellFormed :=
    wellFormed_track row.id
  have hsweep := track_sweep got.found row.id
  unfold recordWalked
  split
  · rename_i tracked htrack
    rw [htrack] at hgrows hwf hsweep
    have hmem := mem_track_of_ok got.found row.id (by rw [htrack])
    rw [htrack] at hmem
    exact ⟨hgrows, hwf, hsweep, rfl, rfl, id, Or.inl hmem⟩
  · rename_i same htrack
    rw [htrack] at hgrows hwf hsweep
    have hcount : 0 < min (sweep.seen + 1) u32Max := by simp [u32Max]
    exact ⟨hgrows, hwf, hsweep, rfl, rfl, fun _ => hcount, Or.inr hcount⟩

variable (device maxBytes) in
theorem walkRows_spec (floor : UploadFloor) (retried : List String) (page : List StoredItem)
    (got : Collected) (sweep : Sweep) (hsegment : Segment keysetOf rows sweep.next page) :
    WalkSpec device rows floor retried page got sweep
      (walkRows device floor retried maxBytes page got sweep) := by
  induction page generalizing got sweep with
  | nil => exact WalkSpec.halt got sweep .pageEnd (by simp) (fun _ => rfl)
  | cons row rest ih =>
    unfold walkRows
    by_cases hfloor : floor < keysetOf row
    · rw [if_pos hfloor]
      refine WalkSpec.halt got sweep .boundary (fun _ r hr hlt => ?_) (by simp)
      rcases eq_head_or_lt hsegment hr hlt with rfl | hpast
      · exact hfloor
      · exact hfloor.trans hpast
    rw [if_neg hfloor]
    by_cases hretried : row.id ∈ retried
    · rw [if_pos hretried]
      exact (ih got { sweep with next := keysetOf row } hsegment.tail).cons hsegment hfloor
        (Grows.refl got) id rfl rfl id rfl (fun hid => absurd hretried hid)
    rw [if_neg hretried]
    split
    · rename_i item hitem
      split
      · exact WalkSpec.halt got sweep .full (by simp) (by simp)
      · obtain ⟨-, rfl⟩ := toLocal_eq_some device row item hitem
        refine (ih _ { sweep with next := keysetOf row } hsegment.tail).cons hsegment hfloor
          (Grows.push got _) id rfl rfl id rfl (fun _ => Or.inl ?_)
        simp
    · rename_i hnone
      obtain ⟨hgrows, hwf, hsweep, hfrom, -, hseen, hleft⟩ := recordWalked_spec got row sweep
      have hunreadable : ¬ row.Readable := by
        intro hreadable
        simp [toLocal_of_readable device row hreadable] at hnone
      exact (ih _ { (got.found.recordWalked row.id sweep).2 with next := keysetOf row }
        hsegment.tail).cons hsegment hfloor hgrows hwf hsweep hfrom hseen rfl
        (fun _ => Or.inr ⟨hunreadable, hleft⟩)

variable (device maxBytes) in
/-- A walk that resumes past the floor reads no row and only ends its cycle. -/
theorem walkRows_past_floor (floor : UploadFloor) (retried : List String)
    (page : List StoredItem) (got : Collected) (sweep : Sweep)
    (hsegment : Segment keysetOf rows sweep.next page) (hpast : floor < sweep.next) :
    (walkRows device floor retried maxBytes page got sweep).stop = .boundary ∨ page = [] := by
  cases page with
  | nil => exact Or.inr rfl
  | cons row rest =>
    left
    unfold walkRows
    rw [if_pos (hpast.trans hsegment.behind_lt_head)]

theorem length_version_content_le (device : String) (row : StoredItem) :
    (row.version device).content.length ≤ row.content.length := by
  unfold StoredItem.version
  dsimp only
  split <;> simp

variable (device maxBytes) in
/-- With nothing collected yet, a walk that does not meet the floor passes a row. -/
theorem walkRows_advances (floor : UploadFloor) (retried : List String)
    (page : List StoredItem) (got : Collected) (sweep : Sweep)
    (hsegment : Segment keysetOf rows sweep.next page) (hne : page ≠ [])
    (hstop : (walkRows device floor retried maxBytes page got sweep).stop ≠ .boundary)
    (hempty : got.items = []) (hfit : ∀ row ∈ rows, row.content.length ≤ maxBytes) :
    ∃ row ∈ rows, sweep.next < keysetOf row ∧
      keysetOf row ≤ (walkRows device floor retried maxBytes page got sweep).sweep.next := by
  cases page with
  | nil => exact absurd rfl hne
  | cons row rest =>
    refine ⟨row, hsegment.head_stored, hsegment.behind_lt_head, ?_⟩
    have hrest : ∀ got' sweep', sweep'.next = keysetOf row →
        keysetOf row ≤ (walkRows device floor retried maxBytes rest got' sweep').sweep.next := by
      intro got' sweep' hnext
      have hspec := walkRows_spec device maxBytes floor retried rest
        got' sweep' (hnext ▸ hsegment.tail)
      exact hnext ▸ hspec.next
    unfold walkRows at hstop ⊢
    by_cases hfloor : floor < keysetOf row
    · simp [hfloor] at hstop
    rw [if_neg hfloor]
    by_cases hretried : row.id ∈ retried
    · rw [if_pos hretried]
      exact hrest _ _ rfl
    rw [if_neg hretried]
    split
    · rename_i item hitem
      obtain ⟨-, rfl⟩ := toLocal_eq_some device row item hitem
      have hlength := (length_version_content_le device row).trans
        (hfit row hsegment.head_stored)
      have hroom : ¬ maxBytes < contentBytes got.items + (row.version device).content.length := by
        simp only [hempty, contentBytes, List.map_nil, List.sum_nil]
        omega
      rw [if_neg hroom]
      exact hrest _ _ rfl
    · exact hrest _ _ rfl

variable (device maxBytes) in
/-- The walk after its page: either the sweep goes on from the row it reached,
or the cycle ended because no stored row up to the floor lies ahead. -/
theorem walkLeftBehind_cases (hids : (rows.map StoredItem.id).Nodup) (sweep : Sweep)
    (floor : UploadFloor) (retried : List String) (got : Collected) :
    ∃ walk, WalkSpec device rows floor retried
        (page keysetOf rows sweep.next uploadScanLimit) got sweep walk ∧
      (sweep.next ≤ floor ∧
          (got.items = [] → (∀ row ∈ rows, row.content.length ≤ maxBytes) →
            ∃ row ∈ rows, sweep.next < keysetOf row ∧ keysetOf row ≤ walk.sweep.next) ∧
          walkLeftBehind device rows sweep floor retried maxBytes got =
            (walk.got, some walk.sweep) ∨
        (∀ row ∈ rows, walk.sweep.next < keysetOf row → floor < keysetOf row) ∧
          walkLeftBehind device rows sweep floor retried maxBytes got =
            (walk.got, walk.sweep.cycle)) := by
  have hsegment := segment_page (nodup_keysetOf hids) sweep.next uploadScanLimit
  set rowsPage := page keysetOf rows sweep.next uploadScanLimit with hpage
  have hspec := walkRows_spec device maxBytes floor retried rowsPage got
    sweep hsegment
  refine ⟨_, hspec, ?_⟩
  have hbelow : (walkRows device floor retried maxBytes rowsPage got sweep).stop ≠ .boundary →
      rowsPage ≠ [] → sweep.next ≤ floor := by
    intro hstop hne
    by_contra hpast
    rcases walkRows_past_floor device maxBytes floor retried rowsPage
      got sweep hsegment (not_le.1 hpast) with h | h
    · exact hstop h
    · exact hne h
  have hadvance := walkRows_advances device maxBytes floor retried
    rowsPage got sweep hsegment
  unfold walkLeftBehind
  rw [versionsAfter_eq_page, ← hpage]
  cases hstop : (walkRows device floor retried maxBytes rowsPage got sweep).stop with
  | full =>
    have hne : rowsPage ≠ [] := by
      intro hnil
      simp [hnil, walkRows] at hstop
    exact Or.inl ⟨hbelow (by simp [hstop]) hne, hadvance hne (by simp [hstop]),
      by simp only [hstop]⟩
  | boundary =>
    exact Or.inr ⟨hspec.boundary hstop, by simp only [hstop]⟩
  | pageEnd =>
    by_cases hshort : rowsPage.length < uploadScanLimit
    · refine Or.inr ⟨fun row hrow hlt => ?_, by simp only [hstop, if_pos hshort]⟩
      have hmem := (mem_page_iff_of_short hshort row).2 ⟨hrow, hspec.next.trans_lt hlt⟩
      exact absurd (hspec.pageEnd hstop row hmem) (not_le.2 hlt)
    · have hne : rowsPage ≠ [] := by
        intro hnil
        simp [hnil, uploadScanLimit] at hshort
      exact Or.inl ⟨hbelow (by simp [hstop]) hne, hadvance hne (by simp [hstop]),
        by simp only [hstop, if_neg hshort]⟩

theorem mem_cycle {sweep cycled : Sweep} (h : cycled ∈ sweep.cycle) :
    0 < sweep.seen ∧ cycled.next = sweep.fromPos ∧ cycled.fromPos = sweep.fromPos := by
  unfold Sweep.cycle at h
  split at h
  · rename_i hseen
    simp only [Option.mem_def, Option.some.injEq] at h
    subst h
    exact ⟨hseen, rfl, rfl⟩
  · simp at h

variable (device maxBytes) in
/-- What a walk leaves: its sweep starts where it did, resumes at or below the
floor unless it wrapped, and keeps every row of its region. -/
theorem walkLeftBehind_spec (hids : (rows.map StoredItem.id).Nodup) (sweep : Sweep)
    (hordered : sweep.fromPos ≤ sweep.next) (floor : UploadFloor) (retried : List String)
    (got : Collected) (hwf : got.found.WellFormed) :
    Grows got (walkLeftBehind device rows sweep floor retried maxBytes got).1 ∧
      (walkLeftBehind device rows sweep floor retried maxBytes got).1.found.WellFormed ∧
      (∀ left ∈ (walkLeftBehind device rows sweep floor retried maxBytes got).2,
        left.fromPos ≤ left.next ∧ (left.next ≤ floor ∨ left.next = left.fromPos)) ∧
      ∀ row ∈ rows, keysetOf row ≤ floor → row.id ∉ retried → sweep.Walks (keysetOf row) →
        Kept device (walkLeftBehind device rows sweep floor retried maxBytes got).1 row ∨
          ∃ left ∈ (walkLeftBehind device rows sweep floor retried maxBytes got).2,
            left.Walks (keysetOf row) := by
  obtain ⟨walk, hspec, ⟨hnext, -, heq⟩ | ⟨hahead, heq⟩⟩ :=
    walkLeftBehind_cases device maxBytes hids sweep floor retried got
  · rw [heq]
    refine ⟨hspec.grows, hspec.wellFormed hwf, ?_, ?_⟩
    · intro left hleft
      obtain rfl : walk.sweep = left := by simpa using hleft
      refine ⟨?_, Or.inl (hspec.below hnext)⟩
      rw [hspec.fromPos]
      exact hordered.trans hspec.next
    · intro row hrow _ hid hwalks
      have hregion : 0 < walk.sweep.seen → sweep.fromPos < keysetOf row →
          ∃ left ∈ some walk.sweep, left.Walks (keysetOf row) := by
        intro hseen hfrom
        exact ⟨walk.sweep, rfl, Or.inr ⟨hspec.fromPos ▸ hfrom, hseen⟩⟩
      rcases hwalks with hlt | ⟨hfrom, hseen⟩
      · rcases hspec.passed row hrow hlt hid with hstill | hitem | ⟨-, htracked | hseen⟩
        · exact Or.inr ⟨walk.sweep, rfl, Or.inl hstill⟩
        · exact Or.inl (Or.inl hitem)
        · exact Or.inl (Or.inr htracked)
        · exact Or.inr (hregion hseen (hordered.trans_lt hlt))
      · exact Or.inr (hregion (hspec.seen hseen) hfrom)
  · rw [heq]
    refine ⟨hspec.grows, hspec.wellFormed hwf, ?_, ?_⟩
    · intro left hleft
      obtain ⟨-, hnext, hfrom⟩ := mem_cycle hleft
      have hwrapped : left.next = left.fromPos := hnext.trans hfrom.symm
      exact ⟨hwrapped.ge, Or.inr hwrapped⟩
    · intro row hrow hfloor hid hwalks
      have hregion : 0 < walk.sweep.seen → sweep.fromPos < keysetOf row →
          ∃ left ∈ walk.sweep.cycle, left.Walks (keysetOf row) := by
        intro hseen hfrom
        refine ⟨_, by rw [Sweep.cycle, if_pos hseen]; rfl, Or.inl ?_⟩
        exact hspec.fromPos ▸ hfrom
      rcases hwalks with hlt | ⟨hfrom, hseen⟩
      · rcases hspec.passed row hrow hlt hid with hstill | hitem | ⟨-, htracked | hseen⟩
        · exact absurd (hahead row hrow hstill) (not_lt.2 hfloor)
        · exact Or.inl (Or.inl hitem)
        · exact Or.inl (Or.inr htracked)
        · exact Or.inr (hregion hseen (hordered.trans_lt hlt))
      · exact Or.inr (hregion (hspec.seen hseen) hfrom)

end WalkSection

section Reading

/-- Where a sweep may stand for the main page: not past the position being
read, unless it stands at its own start. -/
def SweepBehind (found : UnreadableUploads) (behind : UploadFloor) : Prop :=
  ∀ sweep ∈ found.sweep, sweep.next ≤ behind ∨ sweep.next = sweep.fromPos

/-- What the loop over the main page does. -/
structure ReadSpec (device : String) (rows : List StoredItem) (retried : List String)
    (page : List StoredItem) (got : Collected) (behind : UploadFloor) (reading : Reading) :
    Prop where
  grows : Grows got reading.got
  wellFormed : reading.got.found.WellFormed
  sweeps : ∀ key, got.found.Sweeps key → reading.got.found.Sweeps key
  advances : behind ≤ reading.behind
  passed : ∀ row ∈ rows, behind < keysetOf row → keysetOf row ≤ reading.behind →
    row.id ∉ retried → Kept device reading.got row ∨ reading.got.found.Sweeps (keysetOf row)
  last : reading.cut = false → reading.behind = (page.getLast?.map keysetOf).getD behind

private theorem ReadSpec.cons {retried : List String} {row : StoredItem}
    {rest : List StoredItem} {got got' : Collected} {behind : UploadFloor} {reading : Reading}
    (h : ReadSpec device rows retried rest got' (keysetOf row) reading)
    (hsegment : Segment keysetOf rows behind (row :: rest)) (hgrows : Grows got got')
    (hsweeps : ∀ key, got.found.Sweeps key → got'.found.Sweeps key)
    (hrow : row.id ∉ retried → Kept device got' row ∨ got'.found.Sweeps (keysetOf row)) :
    ReadSpec device rows retried (row :: rest) got behind reading := by
  constructor
  · exact hgrows.trans h.grows
  · exact h.wellFormed
  · exact fun key hkey => h.sweeps key (hsweeps key hkey)
  · exact hsegment.behind_lt_head.le.trans h.advances
  · intro r hr hlt hle hid
    rcases eq_head_or_lt hsegment hr hlt with rfl | hpast
    · rcases hrow hid with hkept | hswept
      · exact Or.inl (h.grows.kept hkept)
      · exact Or.inr (h.sweeps _ hswept)
    · exact h.passed r hr hpast hle hid
  · intro hcut
    rw [h.last hcut]
    cases rest with
    | nil => simp
    | cons next more => simp [List.getLast?_cons]

private theorem sweepBehind_mono {found : UnreadableUploads} {behind behind' : UploadFloor}
    (h : SweepBehind found behind) (hle : behind ≤ behind') : SweepBehind found behind' :=
  fun sweep hsweep => (h sweep hsweep).imp_left (fun hnext => hnext.trans hle)

private theorem sweepBehind_sweepFrom {found : UnreadableUploads} {behind : UploadFloor}
    (h : SweepBehind found behind) : SweepBehind (found.sweepFrom behind) behind := by
  intro sweep hsweep
  unfold sweepFrom at hsweep
  split at hsweep
  · split at hsweep
    · exact h sweep hsweep
    · simp only [Option.mem_def, Option.some.injEq] at hsweep
      subst hsweep
      exact Or.inl le_rfl
  · simp only [Option.mem_def, Option.some.injEq] at hsweep
    subst hsweep
    exact Or.inl le_rfl

/-- An unreadable row of the main page is tracked, or the sweep reaches back to it. -/
private theorem leave_spec (device : String) (got : Collected) (row : StoredItem)
    (behind : UploadFloor) (hwf : got.found.WellFormed) (hbehind : SweepBehind got.found behind)
    (hlt : behind < keysetOf row) (found : UnreadableUploads)
    (hfound : found = match got.found.track row.id with
      | (tracked, true) => tracked
      | (same, false) => same.sweepFrom behind) :
    found.WellFormed ∧ SweepBehind found behind ∧ Grows got { got with found := found } ∧
      (∀ key, got.found.Sweeps key → found.Sweeps key) ∧
      (Kept device { got with found := found } row ∨ found.Sweeps (keysetOf row)) := by
  cases hok : (got.found.track row.id).2 with
  | true =>
    have heq : found = (got.found.track row.id).1 := by
      rw [hfound]
      split
      · rename_i htrack
        rw [htrack]
      · rename_i htrack
        simp [htrack] at hok
    subst heq
    refine ⟨wellFormed_track _ hwf, ?_, Grows.track got row.id, ?_, ?_⟩
    · intro sweep hsweep
      rw [track_sweep] at hsweep
      exact hbehind sweep hsweep
    · exact fun key hkey => (sweeps_track row.id).2 hkey
    · exact Or.inl (Or.inr (mem_track_of_ok got.found row.id hok))
  | false =>
    obtain ⟨-, hsame⟩ := track_full got.found row.id hok
    have heq : found = got.found.sweepFrom behind := by
      rw [hfound]
      split
      · rename_i htrack
        simp [htrack] at hok
      · rename_i htrack
        rw [← hsame, htrack]
    subst heq
    refine ⟨wellFormed_sweepFrom hwf, sweepBehind_sweepFrom hbehind, ?_, ?_, Or.inr ?_⟩
    · exact ⟨List.Subset.refl _, by simp⟩
    · exact fun key hkey => sweeps_sweepFrom hwf hkey
    · refine sweepFrom_sweeps (fun sweep hsweep hfrom => ?_) hlt
      rcases hbehind sweep hsweep with hnext | hnext
      · exact hnext
      · exact hnext ▸ hfrom

theorem readRows_spec (retried : List String) (page : List StoredItem) (got : Collected)
    (behind : UploadFloor) (hsegment : Segment keysetOf rows behind page)
    (hwf : got.found.WellFormed) (hbehind : SweepBehind got.found behind) :
    ReadSpec device rows retried page got behind
      (readRows device retried maxBytes page got behind) := by
  induction page generalizing got behind with
  | nil =>
    refine ⟨Grows.refl got, hwf, fun _ hkey => hkey, le_rfl, ?_, fun _ => rfl⟩
    exact fun row _ hlt hle => absurd hle (not_le.2 hlt)
  | cons row rest ih =>
    have hle : behind ≤ keysetOf row := hsegment.behind_lt_head.le
    unfold readRows
    by_cases hretried : row.id ∈ retried
    · rw [if_pos hretried]
      exact (ih got (keysetOf row) hsegment.tail hwf (sweepBehind_mono hbehind hle)).cons hsegment
        (Grows.refl got) (fun _ hkey => hkey) (fun hid => absurd hretried hid)
    rw [if_neg hretried]
    split
    · rename_i item hitem
      split
      · -- The budget ends the page: nothing past `behind` counts as read.
        refine ⟨Grows.refl got, hwf, fun _ hkey => hkey, le_rfl, ?_, by simp⟩
        exact fun r _ hlt hle' => absurd hle' (not_le.2 hlt)
      · obtain ⟨-, rfl⟩ := toLocal_eq_some device row item hitem
        refine (ih { got with items := got.items ++ [row.version device] } (keysetOf row)
          hsegment.tail hwf (sweepBehind_mono hbehind hle)).cons hsegment (Grows.push got _)
          (fun _ hkey => hkey) (fun _ => Or.inl (Or.inl ?_))
        simp
    · obtain ⟨hwf', hbehind', hgrows, hsweeps, hrow⟩ :=
        leave_spec device got row behind hwf hbehind hsegment.behind_lt_head _ rfl
      exact (ih { got with found := _ } (keysetOf row) hsegment.tail hwf'
        (sweepBehind_mono hbehind' hle)).cons hsegment hgrows hsweeps (fun _ => hrow)

end Reading

section ScanSection

variable (hids : (rows.map StoredItem.id).Nodup) {previous : UnreadableUploads}
  (hprevious : previous.WellFormed)

include hids hprevious

variable (device maxBytes) in
/-- Before the main page, every row at or below the floor that the record
covered is kept or still swept. -/
theorem revisit_spec (floor : UploadFloor) :
    (revisit device rows floor previous maxBytes).found.WellFormed ∧
      SweepBehind (revisit device rows floor previous maxBytes).found floor ∧
      (∀ row ∈ rows, row.id ∈ previous.ids →
        Kept device (revisit device rows floor previous maxBytes) row) ∧
      (previous.resetFloor = false → ∀ row ∈ rows, keysetOf row ≤ floor →
        Covered previous row →
        Kept device (revisit device rows floor previous maxBytes) row ∨
          (revisit device rows floor previous maxBytes).found.Sweeps (keysetOf row)) := by
  obtain ⟨hwf, -, hnone, hkept⟩ :=
    retry_spec device rows maxBytes previous.ids
      hprevious.bounded
  unfold revisit
  dsimp only
  split
  · rename_i hcarried
    refine ⟨hwf, ?_, hkept, ?_⟩
    · intro sweep hsweep
      rw [hnone] at hsweep
      simp at hsweep
    · intro hreset row hrow _ hcovered
      rcases hcovered with hid | ⟨sweep, hsweep, -⟩
      · exact Or.inl (hkept row hrow hid)
      · rw [hreset] at hcarried
        have hsome : previous.sweep = some sweep := hsweep
        simp [hsome] at hcarried
  · rename_i sweep hcarried
    have hsweep : sweep ∈ previous.sweep := by
      split at hcarried
      · simp at hcarried
      · exact hcarried
    obtain ⟨hgrows, hwf', hleft, hregion⟩ :=
      walkLeftBehind_spec device maxBytes hids sweep
        (hprevious.ordered sweep hsweep) floor previous.ids _ hwf
    refine ⟨⟨hwf'.nodup, hwf'.bounded, fun left h => (hleft left h).1⟩,
      fun left h => (hleft left h).2, fun row hrow hid => hgrows.kept (hkept row hrow hid), ?_⟩
    intro _ row hrow hfloor hcovered
    by_cases hid : row.id ∈ previous.ids
    · exact Or.inl (hgrows.kept (hkept row hrow hid))
    · have hwalks : sweep.Walks (keysetOf row) := by
        rcases hcovered with h | ⟨other, hother, hwalks⟩
        · exact absurd h hid
        · obtain rfl : other = sweep := Option.mem_unique hother hsweep
          exact hwalks
      exact hregion row hrow hfloor hid hwalks

variable (device maxBytes) in
/-- The main page of a scan, read after the retry and the walk. -/
theorem reading_spec (floor : UploadFloor) :
    ReadSpec device rows previous.ids (page keysetOf rows floor uploadScanLimit)
      (revisit device rows floor previous maxBytes) floor
      (readRows device previous.ids maxBytes (page keysetOf rows floor uploadScanLimit)
        (revisit device rows floor previous maxBytes) floor) := by
  obtain ⟨hwf, hbehind, -, -⟩ :=
    revisit_spec device maxBytes hids hprevious floor
  exact readRows_spec previous.ids _ _ floor
    (segment_page (nodup_keysetOf hids) floor uploadScanLimit) hwf hbehind

variable (since : UploadFloor) (epoch : UInt64)

theorem wellFormed_scan :
    (scanBounded device rows since epoch previous maxBytes).unreadable.WellFormed := by
  unfold scanBounded
  dsimp only
  rw [versionsAfter_eq_page]
  have h := (reading_spec device maxBytes hids hprevious
    (if previous.resetFloor then UploadFloor.default else since)).wellFormed
  exact ⟨h.nodup, h.bounded, h.ordered⟩

variable (device maxBytes) in
/-- A row at or below the scan's position that the record covered is offered or
covered by the record the scan leaves. -/
theorem scan_keeps_covered (hreset : previous.resetFloor = false) {row : StoredItem}
    (hrow : row ∈ rows) (hsince : keysetOf row ≤ since) (hcovered : Covered previous row) :
    row.version device ∈ (scanBounded device rows since epoch previous maxBytes).items ∨
      Covered (scanBounded device rows since epoch previous maxBytes).unreadable row := by
  unfold scanBounded
  simp only [hreset, Bool.false_eq_true, if_false]
  rw [versionsAfter_eq_page]
  have hread := reading_spec device maxBytes hids hprevious since
  obtain ⟨-, -, -, hkept⟩ :=
    revisit_spec device maxBytes hids hprevious since
  rcases hkept hreset row hrow hsince hcovered with hkept | hswept
  · rcases hread.grows.kept hkept with hitem | htracked
    · exact Or.inl hitem
    · exact Or.inr (Or.inl htracked)
  · exact Or.inr (Or.inr (hread.sweeps _ hswept))

/-- The rows a scan answers for: past its start and, when it was truncated, not
past the last offered position. -/
def Offer.Reaches (offer : Offer) (key : UploadFloor) : Prop :=
  offer.started < key ∧ (offer.truncated = false ∨ key ≤ offer.last)

/-- Every row a scan answers for is offered or covered by the record it leaves. -/
theorem scan_keeps_reached {row : StoredItem} (hrow : row ∈ rows)
    (hreach : Offer.Reaches (scanBounded device rows since epoch previous maxBytes).offer
      (keysetOf row)) :
    row.version device ∈ (scanBounded device rows since epoch previous maxBytes).items ∨
      Covered (scanBounded device rows since epoch previous maxBytes).unreadable row := by
  revert hreach
  unfold scanBounded
  dsimp only
  generalize (if previous.resetFloor then UploadFloor.default else since) = floor
  rw [versionsAfter_eq_page]
  have hread := reading_spec device maxBytes hids hprevious floor
  obtain ⟨-, -, hretried, -⟩ :=
    revisit_spec device maxBytes hids hprevious floor
  set reading := readRows device previous.ids maxBytes (page keysetOf rows floor uploadScanLimit)
    (revisit device rows floor previous maxBytes) floor with hreading
  rintro ⟨hstarted, hlast⟩
  dsimp only at hstarted hlast
  have hbehind : keysetOf row ≤ reading.behind := by
    cases hcut : reading.cut with
    | true => simpa [hcut] using hlast
    | false =>
      rw [hread.last hcut]
      simp only [hcut, Bool.or_false, decide_eq_false_iff_not, not_le, Bool.false_eq_true,
        if_false] at hlast
      rcases hlast with hshort | hle
      · -- The page was short, so the row is on it and not past its last row.
        have hmem := (mem_page_iff_of_short hshort row).2 ⟨hrow, hstarted⟩
        exact (segment_page (nodup_keysetOf hids) floor uploadScanLimit).le_last hmem floor
      · exact hle
  by_cases hid : row.id ∈ previous.ids
  · rcases hread.grows.kept (hretried row hrow hid) with hitem | htracked
    · exact Or.inl hitem
    · exact Or.inr (Or.inl htracked)
  · rcases hread.passed row hrow hstarted hbehind hid with (hitem | htracked) | hswept
    · exact Or.inl hitem
    · exact Or.inr (Or.inl htracked)
    · exact Or.inr (Or.inr hswept)

end ScanSection

end CopyPaste.Upload.Coverage
