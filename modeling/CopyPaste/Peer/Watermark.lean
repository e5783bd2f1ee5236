import CopyPaste.Peer.Plan

/-!
What a plan does with each version offered, and where the cursor may stand after
the session. An offered version is put off for its stamp, loses to the local one,
or stands behind a wanted version of its id; a wanted version is asked for or put
off. The cursor stays at or below whatever is put off or was asked for in vain.
-/

namespace CopyPaste.Peer.Watermark

open Lib.Rows Merge.Comparator Plan Plan.SummaryWorkspace

/-- The latest stamp a session takes at `now`. -/
def ceilingAt (now : Int) : Int := min (now + maxFutureSkewMs) maxStamp

/-- A wanted version of the id that ranks as high. -/
def StoodFor (workspace : SummaryWorkspace) (row : ItemSummary) : Prop :=
  ∃ item ∈ workspace.wanted, item.itemId = row.itemId ∧ row.key ≤ item.key

/-- What planning has made of the rows it has gone through. -/
structure Considered (base : SummaryWorkspace) (ceiling : Int) (rows : List ItemSummary)
    (workspace : SummaryWorkspace) : Prop where
  comparison : workspace.comparison = base.comparison
  advertised : workspace.advertised = base.advertised
  nodup : (workspace.wanted.map ItemSummary.itemId).Nodup
  wanted : ∀ item ∈ workspace.wanted,
    item ∈ rows ∧ base.remoteWins item = true ∧ summaryKey item ≤ ceiling
  placed : ∀ row ∈ rows, (ceiling < summaryKey row ∧ row.itemId ∈ workspace.deferred) ∨
    base.remoteWins row = false ∨ StoodFor workspace row

variable {base workspace : SummaryWorkspace} {ceiling : Int} {rows : List ItemSummary}

theorem remoteWins_congr (h : workspace.comparison = base.comparison) (item : ItemSummary) :
    workspace.remoteWins item = base.remoteWins item := by
  unfold remoteWins
  rw [h]

theorem Considered.later (h : Considered base ceiling rows workspace) {row : ItemSummary}
    {after : SummaryWorkspace} (hcomparison : after.comparison = workspace.comparison)
    (hadvertised : after.advertised = workspace.advertised)
    (hwanted : after.wanted = workspace.wanted)
    (hdeferred : workspace.deferred ⊆ after.deferred)
    (hrow : (ceiling < summaryKey row ∧ row.itemId ∈ after.deferred) ∨
      base.remoteWins row = false ∨ StoodFor after row) :
    Considered base ceiling (rows ++ [row]) after := by
  refine ⟨hcomparison.trans h.comparison, hadvertised.trans h.advertised, hwanted ▸ h.nodup,
    fun item hitem => ?_, fun other hother => ?_⟩
  · obtain ⟨hmem, hrest⟩ := h.wanted item (hwanted ▸ hitem)
    exact ⟨List.mem_append_left _ hmem, hrest⟩
  · rcases List.mem_append.1 hother with hold | hnew
    · rcases h.placed other hold with ⟨hlate, hin⟩ | hloses | hstood
      · exact Or.inl ⟨hlate, hdeferred hin⟩
      · exact Or.inr (Or.inl hloses)
      · exact Or.inr (Or.inr (by unfold StoodFor at hstood ⊢; rwa [hwanted]))
    · rw [List.mem_singleton.1 hnew]
      exact hrow

/-- The step lemma of planning. -/
theorem Considered.planRow (h : Considered base ceiling rows workspace) (stats : SyncStats)
    (row : ItemSummary) :
    Considered base ceiling (rows ++ [row]) (planRow ceiling (workspace, stats) row).1 := by
  unfold SummaryWorkspace.planRow
  dsimp only
  by_cases hlate : ceiling < summaryKey row
  · rw [if_pos hlate]
    exact h.later rfl rfl rfl (List.subset_cons_self _ _) (Or.inl ⟨hlate, List.mem_cons_self⟩)
  rw [if_neg hlate]
  by_cases hwins : workspace.remoteWins row = true
  · rw [hwins, Bool.not_true, if_neg Bool.false_ne_true]
    rw [remoteWins_congr h.comparison] at hwins
    unfold considerWanted
    split
    · -- A version of the id is wanted that the row does not beat.
      rename_i hseen
      obtain ⟨seen, hfound, hkeeps⟩ := (Option.any_eq_true _ _).1 hseen
      obtain ⟨hmem, hid⟩ := lookup_eq_some hfound
      rw [decide_eq_true_eq, Ne, mergeDecisionBySummary_takeRemote_iff, not_lt] at hkeeps
      exact h.later rfl rfl rfl (List.Subset.refl _) (Or.inr (Or.inr ⟨seen, hmem, hid, hkeeps⟩))
    · rename_i hseen
      refine ⟨h.comparison, h.advertised, nodup_put _ _ h.nodup, fun item hitem => ?_,
        fun other hother => ?_⟩
      · rcases (mem_put _ _ _).1 hitem with ⟨hold, -⟩ | rfl
        · obtain ⟨hmem, hrest⟩ := h.wanted item hold
          exact ⟨List.mem_append_left _ hmem, hrest⟩
        · exact ⟨List.mem_append_right _ (List.mem_singleton_self _), hwins, not_lt.1 hlate⟩
      · have hnew : StoodFor { workspace with
            wanted := put ItemSummary.itemId workspace.wanted row } row :=
          ⟨row, (mem_put _ _ _).2 (Or.inr rfl), rfl, le_rfl⟩
        rcases List.mem_append.1 hother with hold | hlast
        · rcases h.placed other hold with hdeferred | hloses | ⟨item, hitem, hid, hle⟩
          · exact Or.inl hdeferred
          · exact Or.inr (Or.inl hloses)
          · refine Or.inr (Or.inr ?_)
            by_cases hsame : item.itemId = row.itemId
            · -- The row takes the place of the wanted version it beats.
              have hbeats : item.key < row.key := by
                by_contra hkeeps
                refine hseen ((Option.any_eq_true _ _).2 ⟨item, ?_, ?_⟩)
                · rw [← hsame]
                  exact lookup_of_mem h.nodup hitem
                · rwa [decide_eq_true_eq, Ne, mergeDecisionBySummary_takeRemote_iff]
              exact ⟨row, (mem_put _ _ _).2 (Or.inr rfl), hsame.symm.trans hid,
                hle.trans hbeats.le⟩
            · exact ⟨item, (mem_put _ _ _).2 (Or.inl ⟨hitem, hsame⟩), hid, hle⟩
        · rw [List.mem_singleton.1 hlast]
          exact Or.inr (Or.inr hnew)
  · rw [Bool.not_eq_true] at hwins
    rw [hwins, Bool.not_false, if_pos rfl]
    rw [remoteWins_congr h.comparison] at hwins
    exact h.later rfl rfl rfl (List.Subset.refl _) (Or.inr (Or.inl hwins))

/-- The run lemma. -/
theorem Considered.foldl_planRow (h : Considered base ceiling rows workspace)
    (later : List ItemSummary) (stats : SyncStats) :
    Considered base ceiling (rows ++ later)
      (later.foldl (SummaryWorkspace.planRow ceiling) (workspace, stats)).1 := by
  induction later generalizing rows workspace stats with
  | nil =>
    rw [List.append_nil]
    exact h
  | cons row rest ih =>
    rw [List.foldl_cons, ← List.singleton_append, ← List.append_assoc]
    exact ih (h.planRow stats row) _

/-- A row in time that wins is wanted, where the rows have one version of an id. -/
theorem Considered.wanted_of_wins (h : Considered base ceiling rows workspace)
    {versions : List ItemSummary} (hrows : ∀ row ∈ rows, row ∈ versions)
    (hunique : (versions.map ItemSummary.itemId).Nodup) {row : ItemSummary} (hrow : row ∈ rows)
    (hclock : summaryKey row ≤ ceiling) (hwins : base.remoteWins row = true) :
    row ∈ workspace.wanted := by
  rcases h.placed row hrow with ⟨hlate, -⟩ | hloses | ⟨item, hitem, hid, -⟩
  · exact absurd hclock (not_le.2 hlate)
  · rw [hwins] at hloses
    exact absurd hloses (by simp)
  · have hsame : item = row :=
      List.inj_on_of_nodup_map hunique (hrows item (h.wanted item hitem).1) (hrows row hrow) hid
    exact hsame ▸ hitem

structure Planned (base workspace : SummaryWorkspace) (now : Int) (selected : List ItemSummary) :
    Prop where
  considered : Considered base (ceilingAt now) base.remote workspace
  chosen : ∀ item ∈ selected, item ∈ workspace.wanted
  distinct : (selected.map ItemSummary.itemId).Nodup
  deferred : ∀ item ∈ workspace.wanted, item ∈ selected ∨ item.itemId ∈ workspace.deferred
  full : selected.length = min maxRequestIdsPerMessage workspace.wanted.length

variable {arrange : List ItemSummary → List ItemSummary}

theorem planned (harrange : ∀ rows, (arrange rows).Perm rows) (hwanted : base.wanted = [])
    (now : Int) (stats : SyncStats) :
    Planned base (base.planWorkspace arrange now stats).1 now
      (base.planWorkspace arrange now stats).2.1 := by
  have hstart : Considered base (ceilingAt now) [] base := by
    refine ⟨rfl, rfl, ?_, fun item hitem => ?_, fun row hrow => absurd hrow List.not_mem_nil⟩
    · rw [hwanted]
      exact List.nodup_nil
    · rw [hwanted] at hitem
      exact absurd hitem List.not_mem_nil
  have hconsidered := hstart.foldl_planRow base.remote stats
  rw [List.nil_append] at hconsidered
  obtain ⟨last, hlast⟩ : ∃ last : SummaryWorkspace, last =
      (base.remote.foldl (SummaryWorkspace.planRow (ceilingAt now)) (base, stats)).1 := ⟨_, rfl⟩
  obtain ⟨ordered, hordered⟩ : ∃ ordered, ordered =
      (arrange last.wanted).insertionSort fun a b => b.createdAt ≤ a.createdAt := ⟨_, rfl⟩
  have hperm : ordered.Perm last.wanted := by
    rw [hordered]
    exact (List.perm_insertionSort _ _).trans (harrange _)
  have hplan : base.planWorkspace arrange now stats =
      ({ last with
          deferred := (ordered.drop maxRequestIdsPerMessage).map ItemSummary.itemId ++
            last.deferred },
        ordered.take maxRequestIdsPerMessage,
        (base.planWorkspace arrange now stats).2.2) := by
    rw [hordered, hlast]
    rfl
  rw [hplan]
  rw [← hlast] at hconsidered
  refine ⟨⟨hconsidered.comparison, hconsidered.advertised, hconsidered.nodup, hconsidered.wanted,
    fun row hrow => ?_⟩, fun item hitem => ?_, ?_, fun item hitem => ?_, ?_⟩
  · rcases hconsidered.placed row hrow with ⟨hlate, hin⟩ | hrest
    · exact Or.inl ⟨hlate, List.mem_append_right _ hin⟩
    · exact Or.inr hrest
  · exact hperm.mem_iff.1 (List.mem_of_mem_take hitem)
  · refine List.Nodup.sublist ((List.take_sublist _ _).map _) ?_
    exact (hperm.map ItemSummary.itemId).nodup_iff.2 hconsidered.nodup
  · have hin := hperm.mem_iff.2 hitem
    rw [← List.take_append_drop maxRequestIdsPerMessage ordered, List.mem_append] at hin
    rcases hin with htaken | hdropped
    · exact Or.inl htaken
    · exact Or.inr (List.mem_append_left _ (List.mem_map_of_mem hdropped))
  · show (ordered.take maxRequestIdsPerMessage).length = _
    rw [List.length_take, hperm.length_eq]

theorem nothing_selected (harrange : ∀ rows, (arrange rows).Perm rows) (hwanted : base.wanted = [])
    (hremote : base.remote = []) (now : Int) (stats : SyncStats) :
    (base.planWorkspace arrange now stats).2.1 = [] := by
  have hplan := planned harrange hwanted now stats
  rw [List.eq_nil_iff_forall_not_mem]
  intro item hitem
  have hrow := (hplan.considered.wanted item (hplan.chosen item hitem)).1
  rw [hremote] at hrow
  exact absurd hrow List.not_mem_nil

/-- The newest are asked for: a wanted version with a request's worth of newer ones is not. -/
theorem not_selected_of_newer (harrange : ∀ rows, (arrange rows).Perm rows) (now : Int)
    (stats : SyncStats) {version : ItemSummary} {newer : List ItemSummary} (hnodup : newer.Nodup)
    (hnewer : ∀ other ∈ newer, other ∈ (base.planWorkspace arrange now stats).1.wanted ∧
      version.createdAt < other.createdAt) (hmany : maxRequestIdsPerMessage ≤ newer.length) :
    version ∉ (base.planWorkspace arrange now stats).2.1 := by
  obtain ⟨last, hlast⟩ : ∃ last : SummaryWorkspace, last =
      (base.remote.foldl (SummaryWorkspace.planRow (ceilingAt now)) (base, stats)).1 := ⟨_, rfl⟩
  obtain ⟨ordered, hordered⟩ : ∃ ordered, ordered =
      (arrange last.wanted).insertionSort fun a b => b.createdAt ≤ a.createdAt := ⟨_, rfl⟩
  have hwanted : (base.planWorkspace arrange now stats).1.wanted = last.wanted := by
    rw [hlast]
    rfl
  have hselected : (base.planWorkspace arrange now stats).2.1 =
      ordered.take maxRequestIdsPerMessage := by
    rw [hordered, hlast]
    rfl
  have hperm : ordered.Perm last.wanted := by
    rw [hordered]
    exact (List.perm_insertionSort _ _).trans (harrange _)
  have hsorted : ordered.Pairwise fun a b => b.createdAt ≤ a.createdAt := by
    rw [hordered]
    have : IsTrans ItemSummary fun a b => b.createdAt ≤ a.createdAt :=
      ⟨fun _ _ _ hab hbc => le_trans hbc hab⟩
    have : Std.Total fun a b : ItemSummary => b.createdAt ≤ a.createdAt :=
      ⟨fun a b => le_total b.createdAt a.createdAt⟩
    exact List.pairwise_insertionSort _ _
  rw [hselected]
  intro htaken
  rw [← List.take_append_drop maxRequestIdsPerMessage ordered, List.pairwise_append] at hsorted
  have hsub : (version :: newer).Subperm (ordered.take maxRequestIdsPerMessage) := by
    have hnot : version ∉ newer := fun hin => lt_irrefl _ (hnewer version hin).2
    apply (List.nodup_cons.2 ⟨hnot, hnodup⟩).subperm
    intro other hother
    rcases List.mem_cons.1 hother with rfl | hin
    · exact htaken
    · obtain ⟨hmem, hlater⟩ := hnewer other hin
      have hlisted := hperm.mem_iff.2 (hwanted ▸ hmem)
      rw [← List.take_append_drop maxRequestIdsPerMessage ordered, List.mem_append] at hlisted
      rcases hlisted with hbefore | hafter
      · exact hbefore
      · exact absurd (hsorted.2.2 version htaken other hafter) (not_le.2 hlater)
  have hlen := hsub.length_le
  rw [List.length_cons, List.length_take] at hlen
  omega

section Mark

variable (workspace : SummaryWorkspace) (wanted : List ItemSummary) (attempted : List String)

/-- What one summary does to the stamps reached and blocked. -/
def markRow (marks : Int × Int) (summary : ItemSummary) : Int × Int :=
  if workspace.unresolved wanted attempted summary.itemId then
    (marks.1, min marks.2 (summaryKey summary))
  else (max marks.1 (summaryKey summary), marks.2)

theorem watermark_eq (previous : Int) :
    workspace.watermark previous wanted attempted =
      min (workspace.remote.foldl (markRow workspace wanted attempted) (previous, maxStamp)).1
        (workspace.remote.foldl (markRow workspace wanted attempted) (previous, maxStamp)).2 :=
  rfl

/-- The stamps of a run over the summaries: the one reached does not fall, and the one
blocked falls to the unresolved ones only. -/
theorem foldl_markRow (rows : List ItemSummary) (marks : Int × Int) :
    marks.1 ≤ (rows.foldl (markRow workspace wanted attempted) marks).1 ∧
    (rows.foldl (markRow workspace wanted attempted) marks).2 ≤ marks.2 ∧
    (∀ row ∈ rows, workspace.unresolved wanted attempted row.itemId = true →
      (rows.foldl (markRow workspace wanted attempted) marks).2 ≤ summaryKey row) ∧
    ((rows.foldl (markRow workspace wanted attempted) marks).2 = marks.2 ∨
      ∃ row ∈ rows, workspace.unresolved wanted attempted row.itemId = true ∧
        (rows.foldl (markRow workspace wanted attempted) marks).2 = summaryKey row) := by
  induction rows generalizing marks with
  | nil => exact ⟨le_rfl, le_rfl, fun row hrow => absurd hrow List.not_mem_nil, Or.inl rfl⟩
  | cons first rest ih =>
    rw [List.foldl_cons]
    obtain ⟨hreached, hblocked, hrest, hleast⟩ := ih (markRow workspace wanted attempted marks first)
    by_cases hfirst : workspace.unresolved wanted attempted first.itemId = true
    · have hmarks : markRow workspace wanted attempted marks first =
          (marks.1, min marks.2 (summaryKey first)) := if_pos hfirst
      rw [hmarks] at hreached hblocked hrest hleast ⊢
      refine ⟨hreached, hblocked.trans (min_le_left _ _), fun row hrow hrow' => ?_, ?_⟩
      · rcases List.mem_cons.1 hrow with rfl | hlater
        · exact hblocked.trans (min_le_right _ _)
        · exact hrest row hlater hrow'
      · rcases hleast with heq | ⟨row, hrow, hrow', heq⟩
        · rcases min_choice marks.2 (summaryKey first) with hold | hnew
          · exact Or.inl (heq.trans hold)
          · exact Or.inr ⟨first, List.mem_cons_self, hfirst, heq.trans hnew⟩
        · exact Or.inr ⟨row, List.mem_cons_of_mem _ hrow, hrow', heq⟩
    · have hmarks : markRow workspace wanted attempted marks first =
          (max marks.1 (summaryKey first), marks.2) := if_neg hfirst
      rw [hmarks] at hreached hblocked hrest hleast ⊢
      refine ⟨(le_max_left _ _).trans hreached, hblocked, fun row hrow hrow' => ?_, ?_⟩
      · rcases List.mem_cons.1 hrow with rfl | hlater
        · exact absurd hrow' hfirst
        · exact hrest row hlater hrow'
      · rcases hleast with heq | ⟨row, hrow, hrow', heq⟩
        · exact Or.inl heq
        · exact Or.inr ⟨row, List.mem_cons_of_mem _ hrow, hrow', heq⟩

variable {workspace wanted attempted}

theorem watermark_le (previous : Int) {row : ItemSummary} (hrow : row ∈ workspace.remote)
    (hunresolved : workspace.unresolved wanted attempted row.itemId = true) :
    workspace.watermark previous wanted attempted ≤ summaryKey row := by
  rw [watermark_eq]
  apply (min_le_right _ _).trans
  exact (foldl_markRow workspace wanted attempted _ _).2.2.1 row hrow hunresolved

/-- The cursor does not pass what bounds the one before it and every version offered. -/
theorem watermark_le_of_le {previous bound : Int} (hprevious : previous ≤ bound)
    (h : ∀ row ∈ workspace.remote, summaryKey row ≤ bound) :
    workspace.watermark previous wanted attempted ≤ bound := by
  have hreached : ∀ (rows : List ItemSummary) (marks : Int × Int), marks.1 ≤ bound →
      (∀ row ∈ rows, summaryKey row ≤ bound) →
      (rows.foldl (markRow workspace wanted attempted) marks).1 ≤ bound := by
    intro rows
    induction rows with
    | nil => exact fun marks hmarks _ => hmarks
    | cons row rest ih =>
      intro marks hmarks hrows
      rw [List.forall_mem_cons] at hrows
      apply ih _ _ hrows.2
      unfold markRow
      split
      · exact hmarks
      · exact max_le hmarks hrows.1
  rw [watermark_eq]
  exact (min_le_left _ _).trans (hreached _ _ hprevious h)

/-- The cursor falls back to the key of an unresolved version, and no further. -/
theorem watermark_fallback (previous : Int)
    (h : workspace.watermark previous wanted attempted < min previous maxStamp) :
    ∃ row ∈ workspace.remote, workspace.unresolved wanted attempted row.itemId = true ∧
      workspace.watermark previous wanted attempted = summaryKey row := by
  rw [watermark_eq] at h ⊢
  obtain ⟨hreached, hblocked, -, hleast⟩ :=
    foldl_markRow workspace wanted attempted workspace.remote (previous, maxStamp)
  rcases hleast with heq | ⟨row, hrow, hunresolved, heq⟩
  · rw [heq] at h
    exact absurd (min_le_min_right maxStamp hreached) (not_le.2 h)
  · refine ⟨row, hrow, hunresolved, ?_⟩
    rw [min_eq_right, heq]
    by_contra hlt
    rw [not_le] at hlt
    rw [min_eq_left hlt.le] at h
    exact absurd ((min_le_left _ _).trans hreached) (not_le.2 h)

end Mark

end CopyPaste.Peer.Watermark
