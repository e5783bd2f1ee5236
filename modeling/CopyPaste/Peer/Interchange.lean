import Mathlib.Data.List.Dedup
import CopyPaste.Peer.Workspaces

/-!
Sessions on any workspace come to the same. A scan in bounded pages is a fold over the
received summaries, so planning and the watermark compute on every backend what they
compute on the maps, and that is what the planner over plain maps decides.
-/

namespace CopyPaste.Peer.Interchange

open Lib.Rows Merge.Comparator Plan Plan.SummaryWorkspace Wire.Messages Backends Workspaces
open Lib.JsonText Lib.JsonFields
open Wire.Codec (sampleLibraries)

variable {libs : Texts}

section Scan

variable {W S : Type} {backend : Backend W} {Feeding Planning : SummaryWorkspace → W → Prop}
  {row : W × S → ItemSummary → Outcome (W × S)}
  {step : SummaryWorkspace × S → ItemSummary → SummaryWorkspace × S}

theorem memoryPage_eq (remote : List ItemSummary) (after limit : ℕ) :
    memoryPage remote after limit =
      (((remote.drop after).take limit).zipIdx after).map fun (item, i) => (i + 1, item) := by
  unfold memoryPage
  congr 1
  refine List.ext_getElem? fun i => ?_
  simp only [List.getElem?_take, List.getElem?_drop, List.getElem?_zipIdx, Nat.zero_add]
  split
  · rfl
  · rfl

/-- What one row of a scan does to the maps, done to a backend. -/
def Follows (libs : Texts) (Planning : SummaryWorkspace → W → Prop)
    (row : W × S → ItemSummary → Outcome (W × S))
    (step : SummaryWorkspace × S → ItemSummary → SummaryWorkspace × S) : Prop :=
  ∀ maps w state item, Planning maps w → Sound libs item →
    (step (maps, state) item).1.remote = maps.remote ∧
    ∃ w', row (w, state) item = .ok (w', (step (maps, state) item).2) ∧
      Planning (step (maps, state) item).1 w'

/-- The rows of one page are taken one after the other, and the cursor ends behind them. -/
theorem foldlM_page (hrow : Follows libs Planning row step) (rows : List ItemSummary) (n : ℕ)
    {maps : SummaryWorkspace} {w : W} (state : S) (h : Planning maps w)
    (hrows : ∀ item ∈ rows, Sound libs item) :
    (rows.foldl step (maps, state)).1.remote = maps.remote ∧
    ∃ w', ((rows.zipIdx n).map fun (item, i) => (i + 1, item)).foldlM
        (fun (_, state) (next, summary) => do return (next, ← row state summary)) (n, (w, state)) =
      .ok (n + rows.length, (w', (rows.foldl step (maps, state)).2)) ∧
      Planning (rows.foldl step (maps, state)).1 w' := by
  induction rows generalizing n maps w state with
  | nil => exact ⟨rfl, w, rfl, h⟩
  | cons item rest ih =>
    obtain ⟨hremote, w₁, hok, h₁⟩ := hrow maps w state item h (hrows item List.mem_cons_self)
    obtain ⟨hremote', w₂, hrest, h₂⟩ := ih (n + 1) _ h₁ fun other hother =>
      hrows other (List.mem_cons_of_mem _ hother)
    refine ⟨hremote'.trans hremote, w₂, ?_, h₂⟩
    simp only [List.zipIdx_cons, List.map_cons, List.foldlM_cons, hok, List.foldl_cons,
      List.length_cons]
    rw [show n + (rest.length + 1) = n + 1 + rest.length by omega]
    exact hrest

theorem split_page (remote : List ItemSummary) (cursor limit : ℕ) :
    remote.drop cursor = (remote.drop cursor).take limit ++
      remote.drop (cursor + ((remote.drop cursor).take limit).length) := by
  rw [← List.drop_drop, List.length_take]
  rcases Nat.le_total limit (remote.drop cursor).length with hle | hle
  · rw [Nat.min_eq_left hle, List.take_append_drop]
  · rw [Nat.min_eq_right hle, List.take_of_length_le hle, List.drop_length, List.append_nil]

/-- With enough fuel a scan is a fold over the summaries behind the cursor. -/
theorem scan_eq (hmirrors : Mirrors libs backend Feeding Planning)
    (hrow : Follows libs Planning row step) (fuel : ℕ) {maps : SummaryWorkspace} {w : W}
    (state : S) (cursor : ℕ) (h : Planning maps w) (hlength : maps.remote.length < 2 ^ 63)
    (hcursor : cursor ≤ maps.remote.length) (hfuel : maps.remote.length - cursor < fuel) :
    ((maps.remote.drop cursor).foldl step (maps, state)).1.remote = maps.remote ∧
    ∃ w', backend.scan row fuel cursor (w, state) =
        .ok (some (w', ((maps.remote.drop cursor).foldl step (maps, state)).2)) ∧
      Planning ((maps.remote.drop cursor).foldl step (maps, state)).1 w' := by
  induction fuel generalizing maps w state cursor with
  | zero => omega
  | succ fuel ih =>
    have hpage : backend.remotePage w cursor scanPage =
        .ok (memoryPage maps.remote cursor scanPage) :=
      hmirrors.remotePage h (by omega) (by decide)
    have hsound : ∀ item ∈ (maps.remote.drop cursor).take scanPage, Sound libs item := fun item hitem =>
      (hmirrors.held h).soundRemote item (List.mem_of_mem_drop (List.mem_of_mem_take hitem))
    have hsplit := split_page maps.remote cursor scanPage
    obtain ⟨rows, hrows⟩ : ∃ rows, rows = (maps.remote.drop cursor).take scanPage := ⟨_, rfl⟩
    rw [← hrows] at hsound hsplit
    rw [memoryPage_eq, ← hrows] at hpage
    have hshort : cursor + rows.length ≤ maps.remote.length := by
      rw [hrows, List.length_take, List.length_drop]
      omega
    unfold Backend.scan
    simp only [hpage, bind, Except.bind]
    cases rows with
    | nil =>
      have hdone : maps.remote.drop cursor = [] := by
        rcases List.take_eq_nil_iff.1 hrows.symm with hzero | hnil
        · exact absurd hzero (by decide)
        · exact hnil
      rw [hdone]
      exact ⟨rfl, w, rfl, h⟩
    | cons first rest =>
      obtain ⟨hremote, w₁, hfold, h₁⟩ := foldlM_page hrow (first :: rest) cursor state h hsound
      rw [List.length_cons] at hshort hsplit hfold
      obtain ⟨hremote', w₂, hscan, h₂⟩ := ih
        ((first :: rest).foldl step (maps, state)).2 (cursor + (rest.length + 1)) h₁
        (by rw [hremote]; exact hlength) (by rw [hremote]; exact hshort) (by rw [hremote]; omega)
      rw [hremote, ← List.foldl_append, ← hsplit] at hremote' hscan h₂
      refine ⟨hremote', w₂, ?_, h₂⟩
      rw [if_neg (by simp)]
      simp only [bind, Except.bind] at hfold
      rw [hfold]
      exact hscan

end Scan

section Planning

variable {W : Type} {backend : Backend W} {Feeding Planning : SummaryWorkspace → W → Prop}

theorem planRow_follows (hmirrors : Mirrors libs backend Feeding Planning) (ceiling : Int) :
    Follows libs Planning (backend.planRow ceiling) (SummaryWorkspace.planRow ceiling) := by
  intro maps w stats item h hitem
  refine ⟨remote_planRow ceiling (maps, stats) item, ?_⟩
  unfold Backend.planRow SummaryWorkspace.planRow
  dsimp only
  split
  · obtain ⟨w', hok, h'⟩ := hmirrors.defer h item.itemId
    exact ⟨w', by simp only [hok]; rfl, h'⟩
  · simp only [hmirrors.remoteWins h, bind, Except.bind]
    split
    · exact ⟨w, rfl, h⟩
    · obtain ⟨w', hok, h'⟩ := hmirrors.considerWanted h hitem
      exact ⟨w', by simp only [hok]; rfl, h'⟩

/-- What planning has made of the maps when it starts to choose. -/
def weighed (maps : SummaryWorkspace) (now : Int) (stats : SyncStats) : SummaryWorkspace × SyncStats :=
  maps.remote.foldl (SummaryWorkspace.planRow (min (now + maxFutureSkewMs) maxStamp)) (maps, stats)

def dropMore (stats : SyncStats) (dropped : ℕ) : SyncStats :=
  { stats with skipped := stats.skipped + dropped, deferred := stats.deferred + dropped }

/-- Planning on a backend weighs the summaries as the maps do and keeps the newest. -/
theorem planWorkspace_ok (hmirrors : Mirrors libs backend Feeding Planning) {maps : SummaryWorkspace}
    {w : W} (h : Planning maps w) (hlength : maps.remote.length < 2 ^ 63) {fuel : ℕ}
    (hfuel : maps.remote.length < fuel) (now : Int) (stats : SyncStats) :
    (weighed maps now stats).1.remote = maps.remote ∧
    ∃ ordered w', Newest (weighed maps now stats).1.wanted ordered ∧
      backend.planWorkspace fuel w now stats =
        .ok (some (w', ordered.take maxRequestIdsPerMessage,
          dropMore (weighed maps now stats).2 (ordered.length - maxRequestIdsPerMessage))) ∧
      Planning (deferRest (weighed maps now stats).1 (ordered.drop maxRequestIdsPerMessage)) w' := by
  obtain ⟨hremote, w₁, hscan, h₁⟩ := scan_eq hmirrors
    (planRow_follows hmirrors (min (now + maxFutureSkewMs) maxStamp)) fuel stats 0 h hlength
    (Nat.zero_le _) (by omega)
  rw [List.drop_zero] at hremote hscan h₁
  obtain ⟨ordered, w₂, hnewest, hfinish, h₂⟩ := hmirrors.finishPlan h₁
    (show maxRequestIdsPerMessage < 2 ^ 63 by decide)
  have hnodup : ((ordered.take maxRequestIdsPerMessage).map ItemSummary.itemId).Nodup :=
    ((hnewest.perm.map _).nodup_iff.2 (hmirrors.held h₁).wanted).sublist
      ((List.take_sublist _ _).map _)
  refine ⟨hremote, ordered, w₂, hnewest, ?_, h₂⟩
  unfold Backend.planWorkspace
  simp only [hscan, bind, Except.bind, hfinish, foldl_put _ [] hnodup, List.nil_append]
  rfl

/-- The maps' own unresolved rows, with the wanted ones as a map. -/
def watermarkStep (wanted : List ItemSummary) (attempted : List String)
    (state : SummaryWorkspace × Int × Int) (summary : ItemSummary) : SummaryWorkspace × Int × Int :=
  let (maps, reached, blocked) := state
  (maps,
    if decide (summary.itemId ∈ maps.deferred) ||
        (lookup ItemSummary.itemId wanted summary.itemId).isSome && summary.itemId ∉ attempted then
      (reached, min blocked (summaryKey summary))
    else (max reached (summaryKey summary), blocked))

theorem watermarkRow_follows (hmirrors : Mirrors libs backend Feeding Planning)
    (wanted : List ItemSummary) (attempted : List String) :
    Follows libs Planning (backend.watermarkRow wanted attempted) (watermarkStep wanted attempted) := by
  intro maps w state item h hitem
  refine ⟨rfl, w, ?_, h⟩
  unfold Backend.watermarkRow
  simp only [hmirrors.isDeferred h, bind, Except.bind]
  rfl

theorem foldl_watermarkStep (wanted : List ItemSummary) (attempted : List String) (decided : Plan)
    (maps : SummaryWorkspace) (hwanted : ∀ id, (lookup ItemSummary.itemId wanted id).isSome =
      (lookup ItemSummary.itemId decided.wanted id).isSome)
    (hdeferred : ∀ id, id ∈ maps.deferred ↔ id ∈ decided.deferred) (rows : List ItemSummary)
    (marks : Int × Int) :
    rows.foldl (watermarkStep wanted attempted) (maps, marks) =
      (maps, rows.foldl (fun (reached, blocked) summary =>
        if summary.itemId ∈ decided.deferred ||
            (lookup ItemSummary.itemId decided.wanted summary.itemId).isSome &&
              summary.itemId ∉ attempted then
          (reached, min blocked (summaryKey summary))
        else (max reached (summaryKey summary), blocked)) marks) := by
  induction rows generalizing marks with
  | nil => rfl
  | cons row rest ih =>
    rw [List.foldl_cons, List.foldl_cons, ← ih]
    simp only [watermarkStep, hdeferred, hwanted]

/-- The watermark of a backend is that of the plan it agrees with. -/
theorem workspaceWatermark_ok (hmirrors : Mirrors libs backend Feeding Planning)
    {maps : SummaryWorkspace} {w : W} (h : Planning maps w) (hlength : maps.remote.length < 2 ^ 63)
    {fuel : ℕ} (hfuel : maps.remote.length < fuel) {wanted : List ItemSummary} {decided : Plan}
    (hwanted : ∀ id, (lookup ItemSummary.itemId wanted id).isSome =
      (lookup ItemSummary.itemId decided.wanted id).isSome)
    (hdeferred : ∀ id, id ∈ maps.deferred ↔ id ∈ decided.deferred) (previous : Int)
    (attempted : List String) :
    backend.workspaceWatermark fuel previous w wanted attempted =
      .ok (some (planWatermark previous maps.remote decided attempted)) := by
  obtain ⟨-, w', hscan, -⟩ := scan_eq hmirrors (watermarkRow_follows hmirrors wanted attempted) fuel
    (previous, maxStamp) 0 h hlength (Nat.zero_le _) (by omega)
  rw [List.drop_zero, foldl_watermarkStep wanted attempted decided maps hwanted hdeferred] at hscan
  unfold Backend.workspaceWatermark
  rw [hscan]
  rfl

end Planning

section Reference

/-- Weighing on the maps and over plain maps decide the same, row by row. -/
theorem planRow_eq (ceiling : Int) (maps : SummaryWorkspace) (stats : SyncStats)
    (summary : ItemSummary) :
    let next := SummaryWorkspace.planRow ceiling (maps, stats) summary
    considerRow maps.comparison ceiling ({ wanted := maps.wanted, deferred := maps.deferred }, stats)
        summary = ({ wanted := next.1.wanted, deferred := next.1.deferred }, next.2) ∧
      next.1.comparison = maps.comparison := by
  unfold considerRow SummaryWorkspace.planRow SummaryWorkspace.remoteWins
  dsimp only
  split
  · exact ⟨rfl, rfl⟩
  split
  · exact ⟨rfl, rfl⟩
  rcases considerWanted_cases maps summary with ⟨heq, hseen⟩ | ⟨heq, hseen⟩
  · rw [heq, if_pos hseen]
    exact ⟨rfl, rfl⟩
  · rw [heq, if_neg (by rw [hseen]; exact Bool.false_ne_true)]
    exact ⟨rfl, rfl⟩

theorem foldl_considerRow (ceiling : Int) (rows : List ItemSummary) (maps : SummaryWorkspace)
    (stats : SyncStats) :
    let last := rows.foldl (SummaryWorkspace.planRow ceiling) (maps, stats)
    rows.foldl (considerRow maps.comparison ceiling)
        ({ wanted := maps.wanted, deferred := maps.deferred }, stats) =
      ({ wanted := last.1.wanted, deferred := last.1.deferred }, last.2) := by
  induction rows generalizing maps stats with
  | nil => rfl
  | cons row rest ih =>
    obtain ⟨hrow, hcomparison⟩ := planRow_eq ceiling maps stats row
    dsimp only at hrow ⊢
    rw [List.foldl_cons, List.foldl_cons, hrow, ← hcomparison]
    exact ih _ _

/-- Distinct stamps leave one order from the newest on. -/
theorem newest_unique {wanted a b : List ItemSummary}
    (hdistinct : (wanted.map ItemSummary.createdAt).Nodup) (ha : Newest wanted a)
    (hb : Newest wanted b) : a = b := by
  refine (ha.perm.trans hb.perm.symm).eq_of_pairwise (fun x y hx hy hxy hyx => ?_) ha.sorted hb.sorted
  exact List.inj_on_of_nodup_map hdistinct (ha.perm.mem_iff.1 hx) (hb.perm.mem_iff.1 hy)
    (le_antisymm hyx hxy)

/-- What a plan over plain maps comes to: the newest are asked for, the others deferred. -/
structure Chosen (decided : Plan) (stats : SyncStats) (ordered : List ItemSummary)
    (outcome : Plan × SyncStats) : Prop where
  wanted : ∀ id, lookup ItemSummary.itemId outcome.1.wanted id =
    lookup ItemSummary.itemId (ordered.take maxRequestIdsPerMessage) id
  deferred : ∀ id, id ∈ outcome.1.deferred ↔
    id ∈ (ordered.drop maxRequestIdsPerMessage).map ItemSummary.itemId ++ decided.deferred
  stats : outcome.2 = dropMore stats (ordered.length - maxRequestIdsPerMessage)

theorem lookup_take {wanted ordered : List ItemSummary}
    (hnodup : (wanted.map ItemSummary.itemId).Nodup) (hperm : ordered.Perm wanted) (limit : ℕ)
    (id : String) :
    lookup ItemSummary.itemId (ordered.take limit) id =
      if id ∈ (ordered.take limit).map ItemSummary.itemId then lookup ItemSummary.itemId wanted id
      else none := by
  cases htaken : lookup ItemSummary.itemId (ordered.take limit) id with
  | none =>
    have habsent : id ∉ (ordered.take limit).map ItemSummary.itemId := by
      rintro hmem
      obtain ⟨row, hrow, hid⟩ := List.mem_map.1 hmem
      exact lookup_eq_none_iff.1 htaken row hrow hid
    rw [if_neg habsent]
  | some row =>
    obtain ⟨hrow, rfl⟩ := lookup_eq_some htaken
    rw [if_pos (List.mem_map_of_mem hrow),
      lookup_of_mem hnodup (hperm.mem_iff.1 (List.mem_of_mem_take hrow))]

theorem cutPlan_chosen {arrange : List ItemSummary → List ItemSummary} {decided : Plan}
    (harrange : (arrange decided.wanted).Perm decided.wanted)
    (hnodup : (decided.wanted.map ItemSummary.itemId).Nodup) (stats : SyncStats) :
    Chosen decided stats
      ((arrange decided.wanted).insertionSort fun a b => b.createdAt ≤ a.createdAt)
      (cutPlan arrange decided stats) := by
  have hnewest := newest_insertionSort harrange
  obtain ⟨ordered, hordered⟩ : ∃ ordered, ordered =
    (arrange decided.wanted).insertionSort fun a b => b.createdAt ≤ a.createdAt := ⟨_, rfl⟩
  have hids := (hnewest.perm.map ItemSummary.itemId).nodup_iff.2 hnodup
  unfold cutPlan
  rw [← hordered] at hnewest hids ⊢
  have hkeep : ((ordered.take maxRequestIdsPerMessage).map ItemSummary.itemId).dedup =
      (ordered.take maxRequestIdsPerMessage).map ItemSummary.itemId :=
    List.dedup_eq_self.2 (hids.sublist ((List.take_sublist _ _).map _))
  have hlength := hnewest.perm.length_eq
  split
  · dsimp only
    rw [hkeep]
    have hdropped : decided.wanted.length -
        ((ordered.take maxRequestIdsPerMessage).map ItemSummary.itemId).length =
          ordered.length - maxRequestIdsPerMessage := by
      rw [List.length_map, List.length_take]
      omega
    refine ⟨fun id => ?_, fun id => ?_, ?_⟩
    · rw [lookup_filter (fun id => id ∈ (ordered.take maxRequestIdsPerMessage).map _),
        lookup_take hnodup hnewest.perm]
    · rw [List.mem_append, List.mem_append, mem_others hnodup hnewest.perm]
    · rw [hdropped]
      rfl
  · rename_i hfew
    have hall : ordered.length ≤ maxRequestIdsPerMessage := by omega
    refine ⟨fun id => ?_, fun id => ?_, ?_⟩
    · rw [List.take_of_length_le hall]
      exact (lookup_perm hnewest.perm hids id).symm
    · rw [List.drop_eq_nil_of_le hall]
      exact Iff.rfl
    · rw [Nat.sub_eq_zero_of_le hall]
      rfl

theorem plan_chosen {arrange : List ItemSummary → List ItemSummary}
    (harrange : ∀ rows, (arrange rows).Perm rows) {maps : SummaryWorkspace}
    (hwanted : maps.wanted = []) (hdeferred : maps.deferred = []) (now : Int) (stats : SyncStats)
    (hnodup : ((weighed maps now stats).1.wanted.map ItemSummary.itemId).Nodup) :
    Chosen ⟨(weighed maps now stats).1.wanted, (weighed maps now stats).1.deferred⟩
      (weighed maps now stats).2
      ((arrange (weighed maps now stats).1.wanted).insertionSort fun a b => b.createdAt ≤ a.createdAt)
      (plan arrange maps.comparison maps.remote now stats) := by
  have hfold := foldl_considerRow (min (now + maxFutureSkewMs) maxStamp) maps.remote maps stats
  rw [hwanted, hdeferred] at hfold
  unfold plan
  dsimp only at hfold ⊢
  rw [hfold]
  exact cutPlan_chosen (harrange _) hnodup _

end Reference

section Runs

variable {W : Type} {backend : Backend W} {Feeding Planning : SummaryWorkspace → W → Prop}

def feedMaps (maps : SummaryWorkspace) : Feed → SummaryWorkspace
  | .advertised items => maps.addAdvertised items
  | .comparison items => maps.addComparison items
  | .remote items => maps.addRemote items

/-- The arguments of a call are within their types. -/
def CallSound (libs : Texts) : Call → Prop
  | .remotePage after limit => after < 2 ^ 63 ∧ limit < 2 ^ 63
  | .setWanted item => Sound libs item
  | .considerWanted item => Sound libs item
  | _ => True

variable {maps : SummaryWorkspace} {w : W}

theorem feedAll_ok (hmirrors : Mirrors libs backend Feeding Planning) (feeds : List Feed)
    (hfeeds : ∀ feed ∈ feeds, ∀ item ∈ feed.items, Sound libs item) (h : Feeding maps w) :
    ∃ w', backend.feedAll w feeds = .ok w' ∧ Feeding (feeds.foldl feedMaps maps) w' := by
  induction feeds generalizing maps w with
  | nil => exact ⟨w, rfl, h⟩
  | cons feed rest ih =>
    have hitems := hfeeds feed List.mem_cons_self
    obtain ⟨w₁, hok, h₁⟩ : ∃ w', backend.feed w feed = .ok w' ∧ Feeding (feedMaps maps feed) w' := by
      cases feed with
      | advertised items => exact hmirrors.addAdvertised h hitems
      | comparison items => exact hmirrors.addComparison h hitems
      | remote items => exact hmirrors.addRemote h hitems
    obtain ⟨w₂, hrest, h₂⟩ := ih (fun other hother => hfeeds other (List.mem_cons_of_mem _ hother)) h₁
    refine ⟨w₂, ?_, h₂⟩
    rw [Backend.feedAll, List.foldlM_cons, hok]
    exact hrest

/-- One call is answered as by the maps. -/
theorem perform_ok (hmirrors : Mirrors libs backend Feeding Planning) (order : HashOrder) {call : Call}
    (hcall : CallSound libs call) (h : Planning maps w) :
    ∃ maps' w' answer, (memory order).perform maps call = .ok (maps', answer) ∧
      backend.perform w call = .ok (w', answer) ∧ Planning maps' w' := by
  cases call with
  | advertised id => exact ⟨maps, w, _, rfl, by rw [Backend.perform, hmirrors.advertised h]; rfl, h⟩
  | comparison id => exact ⟨maps, w, _, rfl, by rw [Backend.perform, hmirrors.comparison h]; rfl, h⟩
  | wanted id => exact ⟨maps, w, _, rfl, by rw [Backend.perform, hmirrors.wanted h]; rfl, h⟩
  | remotePage after limit =>
    exact ⟨maps, w, _, rfl, by rw [Backend.perform, hmirrors.remotePage h hcall.1 hcall.2]; rfl, h⟩
  | remoteWins item => exact ⟨maps, w, _, rfl, by rw [Backend.perform, hmirrors.remoteWins h]; rfl, h⟩
  | isDeferred id => exact ⟨maps, w, _, rfl, by rw [Backend.perform, hmirrors.isDeferred h]; rfl, h⟩
  | setWanted item =>
    obtain ⟨w', hok, h'⟩ := hmirrors.setWanted h hcall
    exact ⟨_, w', _, rfl, by rw [Backend.perform, hok]; rfl, h'⟩
  | considerWanted item =>
    obtain ⟨w', hok, h'⟩ := hmirrors.considerWanted h hcall
    exact ⟨_, w', _, rfl, by rw [Backend.perform, hok]; rfl, h'⟩
  | defer id =>
    obtain ⟨w', hok, h'⟩ := hmirrors.defer h id
    exact ⟨_, w', _, rfl, by rw [Backend.perform, hok]; rfl, h'⟩

theorem performAll_ok (hmirrors : Mirrors libs backend Feeding Planning) (order : HashOrder)
    (calls : List Call) (hcalls : ∀ call ∈ calls, CallSound libs call) (h : Planning maps w) :
    ∃ maps' w' answers, (memory order).performAll maps calls = .ok (maps', answers) ∧
      backend.performAll w calls = .ok (w', answers) ∧ Planning maps' w' := by
  induction calls generalizing maps w with
  | nil => exact ⟨maps, w, [], rfl, rfl, h⟩
  | cons call rest ih =>
    obtain ⟨maps₁, w₁, answer, hmaps, hw, h₁⟩ :=
      perform_ok hmirrors order (hcalls call List.mem_cons_self) h
    obtain ⟨maps₂, w₂, answers, hmaps', hw', h₂⟩ :=
      ih (fun other hother => hcalls other (List.mem_cons_of_mem _ hother)) h₁
    refine ⟨maps₂, w₂, answer :: answers, ?_, ?_, h₂⟩
    · rw [Backend.performAll, hmaps]
      simp only [bind, Except.bind, hmaps']
      rfl
    · rw [Backend.performAll, hw]
      simp only [bind, Except.bind, hw']
      rfl

/-- The choice a workspace makes: the `kept` summaries are asked for, the `others` are
deferred beside what was deferred before. -/
structure Chooses (backend : Backend W) (w : W) (maps : SummaryWorkspace) (limit : ℕ)
    (kept others : List ItemSummary) : Prop where
  perm : (kept ++ others).Perm maps.wanted
  length : kept.length = min limit maps.wanted.length
  newest : (kept ++ others).Pairwise fun a b => b.createdAt ≤ a.createdAt
  finishes : ∃ w', backend.finishPlan w limit = .ok (w', kept, others.length) ∧
    ∀ id, backend.isDeferred w' id =
      .ok (decide (id ∈ others.map ItemSummary.itemId ∨ id ∈ maps.deferred))

theorem finishPlan_chooses (hmirrors : Mirrors libs backend Feeding Planning) (h : Planning maps w)
    {limit : ℕ} (hlimit : limit < 2 ^ 63) :
    ∃ ordered, Newest maps.wanted ordered ∧
      Chooses backend w maps limit (ordered.take limit) (ordered.drop limit) := by
  obtain ⟨ordered, w', hnewest, hok, h'⟩ := hmirrors.finishPlan h hlimit
  refine ⟨ordered, hnewest, ⟨?_, ?_, ?_, w', ?_, ?_⟩⟩
  · rw [List.take_append_drop]
    exact hnewest.perm
  · rw [List.length_take, hnewest.perm.length_eq]
  · rw [List.take_append_drop]
    exact hnewest.sorted
  · rw [hok, List.length_drop]
  · intro id
    rw [hmirrors.isDeferred h']
    simp only [deferRest, List.mem_append]

/-- A planned session and a plan over plain maps ask for the same, defer the same, count the
same and reach the same watermark. -/
structure Agrees (backend : Backend W) (fuel : ℕ) (remote : List ItemSummary)
    (planned : W × List ItemSummary × SyncStats) (reference : Plan × SyncStats) : Prop where
  wanted : ∀ id, lookup ItemSummary.itemId planned.2.1 id =
    lookup ItemSummary.itemId reference.1.wanted id
  stats : planned.2.2 = reference.2
  deferred : ∀ id, backend.isDeferred planned.1 id = .ok (decide (id ∈ reference.1.deferred))
  watermark : ∀ previous attempted,
    backend.workspaceWatermark fuel previous planned.1 planned.2.1 attempted =
      .ok (some (planWatermark previous remote reference.1 attempted))

def DistinctStamps (remote : List ItemSummary) : Prop :=
  ∀ a ∈ remote, ∀ b ∈ remote, a.createdAt = b.createdAt → a.itemId = b.itemId

theorem weighed_distinct (hwanted : maps.wanted = []) {now : Int} {stats : SyncStats}
    (hdistinct : DistinctStamps maps.remote)
    (hnodup : ((weighed maps now stats).1.wanted.map ItemSummary.itemId).Nodup) :
    ((weighed maps now stats).1.wanted.map ItemSummary.createdAt).Nodup := by
  have hmem : ∀ item ∈ (weighed maps now stats).1.wanted, item ∈ maps.remote := by
    intro item hitem
    rcases wanted_foldl_planRow maps.remote hitem with hold | hrow
    · rw [hwanted] at hold
      exact absurd hold List.not_mem_nil
    · exact hrow
  refine List.Nodup.map_on (fun a ha b hb hstamp => ?_) hnodup.of_map
  exact List.inj_on_of_nodup_map hnodup ha hb (hdistinct a (hmem a ha) b (hmem b hb) hstamp)

/-- Planning comes to what the planner over plain maps decides: for one of the orders its hash
map may have, and for every order when no two items share a stamp. -/
def PlansAs (backend : Backend W) (fuel : ℕ) (w : W) (maps : SummaryWorkspace) (now : Int)
    (stats : SyncStats) : Prop :=
  ∃ planned, backend.planWorkspace fuel w now stats = .ok (some planned) ∧
    (∃ arrange, (∀ rows, (arrange rows).Perm rows) ∧ Agrees backend fuel maps.remote planned
      (plan arrange maps.comparison maps.remote now stats)) ∧
    (DistinctStamps maps.remote → ∀ arrange, (∀ rows, (arrange rows).Perm rows) →
      Agrees backend fuel maps.remote planned
        (plan arrange maps.comparison maps.remote now stats))

theorem planWorkspace_agrees (hmirrors : Mirrors libs backend Feeding Planning) (h : Planning maps w)
    (hwanted : maps.wanted = []) (hdeferred : maps.deferred = [])
    (hlength : maps.remote.length < 2 ^ 63) {fuel : ℕ} (hfuel : maps.remote.length < fuel)
    (now : Int) (stats : SyncStats) : PlansAs backend fuel w maps now stats := by
  obtain ⟨hremote, ordered, w', hnewest, hok, h'⟩ :=
    planWorkspace_ok hmirrors h hlength hfuel now stats
  have hnodup := (hmirrors.held h').wanted
  have hagrees : ∀ arrange, (∀ rows, (arrange rows).Perm rows) →
      (arrange (weighed maps now stats).1.wanted).insertionSort
        (fun a b => b.createdAt ≤ a.createdAt) = ordered →
      Agrees backend fuel maps.remote (w', ordered.take maxRequestIdsPerMessage,
          dropMore (weighed maps now stats).2 (ordered.length - maxRequestIdsPerMessage))
        (plan arrange maps.comparison maps.remote now stats) := by
    intro arrange harrange hsorted
    have hchosen := plan_chosen harrange hwanted hdeferred now stats hnodup
    rw [hsorted] at hchosen
    have hsame : ∀ id, (lookup ItemSummary.itemId (ordered.take maxRequestIdsPerMessage) id).isSome =
        (lookup ItemSummary.itemId
          (plan arrange maps.comparison maps.remote now stats).1.wanted id).isSome := by
      intro id
      rw [hchosen.wanted]
    refine ⟨fun id => (hchosen.wanted id).symm, hchosen.stats.symm, fun id => ?_, ?_⟩
    · rw [hmirrors.isDeferred h']
      exact congrArg Except.ok (decide_eq_decide.2 (hchosen.deferred id).symm)
    · intro previous attempted
      rw [← hremote] at hlength hfuel
      have hmark := workspaceWatermark_ok hmirrors h' hlength hfuel hsame
        (fun id => (hchosen.deferred id).symm) previous attempted
      rwa [show (deferRest (weighed maps now stats).1
        (ordered.drop maxRequestIdsPerMessage)).remote = maps.remote from hremote] at hmark
  refine ⟨_, hok, ?_, ?_⟩
  · -- the reference may list its map in the order the workspace came to
    let arrange rows := if rows = (weighed maps now stats).1.wanted then ordered else rows
    have harrange : ∀ rows, (arrange rows).Perm rows := by
      intro rows
      unfold arrange
      split
      · rename_i hrows
        rw [hrows]
        exact hnewest.perm
      · exact List.Perm.refl rows
    refine ⟨arrange, harrange, hagrees arrange harrange ?_⟩
    unfold arrange
    rw [if_pos rfl]
    exact hnewest.sorted.insertionSort_eq
  · intro hdistinct arrange harrange
    refine hagrees arrange harrange ?_
    exact newest_unique (weighed_distinct hwanted hdistinct hnodup)
      (newest_insertionSort (harrange _)) hnewest

theorem foldl_feedMaps_empty (feeds : List Feed) (hwanted : maps.wanted = [])
    (hdeferred : maps.deferred = []) :
    (feeds.foldl feedMaps maps).wanted = [] ∧ (feeds.foldl feedMaps maps).deferred = [] := by
  induction feeds generalizing maps with
  | nil => exact ⟨hwanted, hdeferred⟩
  | cons feed rest ih =>
    cases feed with
    | advertised items | comparison items | remote items => exact ih hwanted hdeferred

theorem empty_held : Held libs {} := by
  refine ⟨?_, ?_, ?_, ?_, ?_, ?_, ?_⟩ <;> simp

/-- Whatever is fed to them and wherever the move to the database falls, the workspaces in
memory and on disk answer the same calls alike, choose the newest and defer exactly the
others, and plan and reach the watermark that the planner over plain maps gives. -/
theorem workspaces_interchangeable (spill : Spill) (order : HashOrder)
    (hdisk : spill.newDisk = .ok {}) (feeds : List Feed)
    (hfeeds : ∀ feed ∈ feeds, ∀ item ∈ feed.items, Sound spill.libs item) :
    ∃ m s, (memory order).feedAll {} feeds = .ok m ∧ (spilling spill).feedAll {} feeds = .ok s ∧
      (∀ calls, (∀ call ∈ calls, CallSound spill.libs call) →
        ∃ m' s' answers, (memory order).performAll m calls = .ok (m', answers) ∧
          (spilling spill).performAll s calls = .ok (s', answers) ∧
          ∀ limit, limit < 2 ^ 63 → ∃ kept others kept' others',
            Chooses (memory order) m' m' limit kept others ∧
            Chooses (spilling spill) s' m' limit kept' others' ∧
            ((m'.wanted.map ItemSummary.createdAt).Nodup → kept = kept' ∧ others = others')) ∧
      (m.remote.length < 2 ^ 63 → ∀ fuel, m.remote.length < fuel → ∀ now stats,
        PlansAs (memory order) fuel m m now stats ∧
          PlansAs (spilling spill) fuel s m now stats) := by
  have hmemory := @memory_mirrors spill.libs order
  have hspilling := spilling_mirrors hdisk
  obtain ⟨m, hfeed, rfl, hheld⟩ := feedAll_ok hmemory feeds hfeeds ⟨rfl, empty_held⟩
  obtain ⟨s, hfeed', hopen⟩ := feedAll_ok hspilling feeds hfeeds
    (show SpilledOpen spill {} {} from ⟨⟨rfl, empty_held⟩, rfl, rfl⟩)
  obtain ⟨hwanted, hdeferred⟩ := foldl_feedMaps_empty feeds
    (show ({} : SummaryWorkspace).wanted = [] from rfl) rfl
  have hplanning := hspilling.begin hopen
  refine ⟨_, s, hfeed, hfeed', ?_, ?_⟩
  · intro calls hcalls
    obtain ⟨m', s', answers, hm, hs, h'⟩ := performAll_ok hspilling order calls hcalls hplanning
    refine ⟨m', s', answers, hm, hs, ?_⟩
    intro limit hlimit
    obtain ⟨ordered, hnewest, hchooses⟩ :=
      finishPlan_chooses hmemory ⟨rfl, hspilling.held h'⟩ hlimit
    obtain ⟨ordered', hnewest', hchooses'⟩ := finishPlan_chooses hspilling h' hlimit
    refine ⟨_, _, _, _, hchooses, hchooses', ?_⟩
    intro hdistinct
    rw [newest_unique hdistinct hnewest hnewest']
    exact ⟨rfl, rfl⟩
  · intro hlength fuel hfuel now stats
    exact ⟨planWorkspace_agrees hmemory ⟨rfl, hheld⟩ hwanted hdeferred hlength hfuel now stats,
      planWorkspace_agrees hspilling hplanning hwanted hdeferred hlength hfuel now stats⟩

end Runs

/-- Hash maps that list their entries backwards. -/
def backwards : HashOrder where
  advertised := List.reverse
  comparison := List.reverse
  wanted := List.reverse
  deferred := List.reverse
  planned := List.reverse
  advertised_perm := List.reverse_perm
  comparison_perm := List.reverse_perm
  wanted_perm := List.reverse_perm
  deferred_perm := List.reverse_perm
  planned_perm := List.reverse_perm

/-- A budget that the first page of summaries exceeds. -/
def smallSpill : Spill where
  libs := ⟨plainTokens, sampleLibraries.spelling⟩
  order := backwards
  summarySize := 112
  memoryBudget := 1000
  newDisk := .ok {}

def offered (id : String) (createdAt : Int) : ItemSummary where
  itemId := id
  createdAt := createdAt
  deleted := false
  contentHash := "h"
  originDeviceId := "o"
  pinned := false
  pinOrder := none
  pinUpdatedAt := createdAt

def offeredFeeds : List Feed :=
  [.advertised [offered "mine" 1], .comparison [offered "one" 3], .remote [offered "one" 4,
    offered "two" 5, offered "two" 2]]

theorem offered_sound (id : String) {createdAt : Int} (h : StampTyped createdAt) :
    Sound smallSpill.libs (offered id createdAt) where
  created := h
  pinned := h
  order := by
    intro rank hrank
    exact absurd hrank (by simp [offered])
  kept := fun rank _ => keeps_of_faithful plainTokens_faithful rank

theorem offered_interchangeable :
    ∃ m s, (memory backwards).feedAll {} offeredFeeds = .ok m ∧
      (spilling smallSpill).feedAll {} offeredFeeds = .ok s ∧
      PlansAs (memory backwards) 4 m m 100 {} ∧ PlansAs (spilling smallSpill) 4 s m 100 {} := by
  have hfeeds : ∀ feed ∈ offeredFeeds, ∀ item ∈ feed.items, Sound smallSpill.libs item := by
    intro feed hfeed item hitem
    simp only [offeredFeeds, List.mem_cons, List.not_mem_nil, or_false] at hfeed
    rcases hfeed with rfl | rfl | rfl <;>
      simp only [Feed.items, List.mem_cons, List.not_mem_nil, or_false] at hitem
    · exact hitem ▸ offered_sound "mine" (by unfold StampTyped; omega)
    · exact hitem ▸ offered_sound "one" (by unfold StampTyped; omega)
    · rcases hitem with rfl | rfl | rfl
      · exact offered_sound "one" (by unfold StampTyped; omega)
      · exact offered_sound "two" (by unfold StampTyped; omega)
      · exact offered_sound "two" (by unfold StampTyped; omega)
  obtain ⟨m, s, hm, hs, -, hplans⟩ :=
    workspaces_interchangeable smallSpill backwards rfl offeredFeeds hfeeds
  have hthree : m.remote.length = 3 := by
    cases hm
    rfl
  obtain ⟨hmemory, hspilling⟩ := hplans (by omega) 4 (by omega) 100 {}
  exact ⟨m, s, hm, hs, hmemory, hspilling⟩

/-- The rank of the double 51.248178375505404. -/
def fineRank : Int := 0x40499FC44F1B2F60

/-- A parser that scales the digits of a fraction by a power of ten rounds twice: of the
text of that double it makes the next one. -/
def roundedTwice : Number → Number
  | .double rank low high =>
    if h : rank = fineRank then .double (fineRank + 1) (by decide) (by decide)
    else .double rank low high
  | value => value

/-- The pin order of a summary that moved to disk is another, so the summary is answered
differently there. -/
theorem moved_order_differs :
    let spill : Spill := { smallSpill with
      libs := ⟨roundingTokens roundedTwice fun _ _ _ => rfl, sampleLibraries.spelling⟩ }
    let summary := { offered "mine" 1 with pinned := true, pinOrder := some fineRank }
    let feeds : List Feed := [.advertised [summary], .advertised [offered "one" 3]]
    (do (memory backwards).advertised (← (memory backwards).feedAll {} feeds) "mine") =
        .ok (some summary) ∧
      (do (spilling spill).advertised (← (spilling spill).feedAll {} feeds) "mine") =
        .ok (some { summary with pinOrder := some (fineRank + 1) }) := by
  decide +kernel

end CopyPaste.Peer.Interchange
