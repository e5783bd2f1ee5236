import CopyPaste.Lib.Best
import Mathlib

/-!
The window of loaded history pages and its eviction. A page that is not resident keeps its
identifiers, cursors and pins; what a pass of the eviction lets go is the rows of one page,
or those of one of its two lanes.
-/

namespace CopyPaste.History.WindowIndex

open Lib.Best

structure HistoryFile where
  name : Option String
  mimeType : Option String
  sourceReference : Option String
  deriving DecidableEq, Repr

structure HistoryClip where
  id : String
  contentType : String
  preview : String
  origin : Option String := none
  sourceApp : Option String := none
  sourceAppIconId : Option String := none
  body : Option String := none
  file : Option HistoryFile := none
  pinned : Bool
  deriving DecidableEq, Repr

/-- What stays of a page when its rows go. An extent is here how far it was measured. -/
structure Ledger where
  inputCursor : Option String
  nextCursor : Option String
  ids : List String
  createdAtMillis : List Int
  pinnedIds : List String
  skippedUndecryptable : ℕ
  extent : Option Int := none
  pinnedExtent : Option Int := none
  recentExtent : Option Int := none
  deriving DecidableEq, Repr

def Ledger.hasExactExtent (ledger : Ledger) : Bool :=
  ledger.extent.isSome || ledger.pinnedExtent.isSome && ledger.recentExtent.isSome

structure HistoryWindowPage where
  ledger : Ledger
  items : Option (List HistoryClip)
  deriving DecidableEq, Repr

structure HistoryWindowIndex where
  maxPages : Int
  maxBytes : Int
  independentPins : Bool
  pages : List HistoryWindowPage
  deriving DecidableEq, Repr

/-- An integer of Dart, of 64 bits. -/
def wrapped (n : Int) : Int := n.bmod (2 ^ 64)

def units (text : String) : ℕ :=
  (text.toList.map fun c => if c.val < 0x10000 then 1 else 2).sum

def optionalUnits (text : Option String) : ℕ := text.elim 0 units

def clipBytes (item : HistoryClip) : ℕ :=
  2 * (units item.id + units item.contentType + units item.preview + optionalUnits item.origin +
    optionalUnits item.sourceApp + optionalUnits item.sourceAppIconId + optionalUnits item.body +
    optionalUnits (item.file.bind HistoryFile.name) +
    optionalUnits (item.file.bind HistoryFile.mimeType) +
    optionalUnits (item.file.bind HistoryFile.sourceReference))

def HistoryWindowPage.resident (page : HistoryWindowPage) : Bool := page.items.isSome

def HistoryWindowPage.rows (page : HistoryWindowPage) : List HistoryClip := page.items.getD []

/-- The rows an eviction is about: the pins, the others, or all of a page. -/
inductive Lane
  | pins
  | recent
  | all
  deriving DecidableEq, Repr

def Lane.holds : Lane → HistoryClip → Bool
  | .pins, item => item.pinned
  | .recent, item => !item.pinned
  | .all, _ => true

namespace HistoryWindowIndex

def residentBytes (index : HistoryWindowIndex) : ℕ :=
  (index.pages.map fun page => (page.rows.map clipBytes).sum).sum

/-- How many resident pages have a row of a lane. -/
def laneCount (index : HistoryWindowIndex) (lane : Lane) : ℕ :=
  index.pages.countP fun page => page.rows.any lane.holds

def exceedsLimits (index : HistoryWindowIndex) : Bool :=
  if !index.independentPins then
    decide (index.maxPages < (index.pages.countP HistoryWindowPage.resident : Int)) ||
      decide (index.maxBytes < wrapped index.residentBytes)
  else
    decide (index.maxPages < (index.laneCount .pins : Int)) ||
      decide (index.maxPages < (index.laneCount .recent : Int)) ||
      decide (wrapped (index.maxBytes * 2) < wrapped index.residentBytes)

def trimmed (index : HistoryWindowIndex) : Lane :=
  if index.independentPins && decide (index.maxPages < (index.laneCount .pins : Int)) then .pins
  else if index.independentPins && decide (index.maxPages < (index.laneCount .recent : Int)) then
    .recent
  else .all

section Eviction

variable (activeIndex : Int) (protectedIds : List String)

/-- Whether a pass may take a page: not the active one, nor one with a protected row that
would go, nor one without a row of the lane. -/
def evictable (index : HistoryWindowIndex) (i : ℕ) (page : HistoryWindowPage) : Bool :=
  match page.items with
  | none => false
  | some rows =>
    let protectedRows := rows.filter fun item => decide (item.id ∈ protectedIds)
    let protectedSurvives :=
      match index.trimmed with
      | .recent => protectedRows.all fun item => item.pinned
      | .pins => protectedRows.all fun item => !item.pinned
      | .all => false
    (index.independentPins || page.ledger.hasExactExtent) && decide ((i : Int) ≠ activeIndex) &&
      (protectedRows.isEmpty || protectedSurvives) &&
      match index.trimmed with
      | .pins => rows.any fun item => item.pinned
      | .recent => rows.any fun item => !item.pinned
      | .all => true

def distance (i : ℕ) : ℕ := (wrapped ((i : Int) - activeIndex)).natAbs

/-- The evictable page farthest from the active one, the first of several. -/
def victim (index : HistoryWindowIndex) : Option ℕ :=
  ((index.pages.zipIdx.filter fun entry =>
      index.evictable activeIndex protectedIds entry.2 entry.1).map Prod.snd).foldl
    (fun farthest i => best (distance activeIndex) farthest (some i)) none

/-- The rows a page keeps when a lane of it is trimmed. -/
def kept (lane : Lane) (rows : List HistoryClip) : Option (List HistoryClip) :=
  match lane with
  | .pins => if rows.any fun item => !item.pinned then some (rows.filter fun item => !item.pinned)
      else none
  | .recent => if rows.any fun item => item.pinned then some (rows.filter fun item => item.pinned)
      else none
  | .all => none

/-- The pages with one of them trimmed. -/
def evict (index : HistoryWindowIndex) (i : ℕ) : HistoryWindowIndex :=
  { index with
    pages := index.pages.modify i fun page =>
      { page with items := page.items.bind (kept index.trimmed) } }

/-- One turn of the loop; nothing where it stops. -/
def pass (index : HistoryWindowIndex) : Option HistoryWindowIndex :=
  if index.exceedsLimits then (index.victim activeIndex protectedIds).map index.evict else none

variable {index next : HistoryWindowIndex} {i : ℕ}

theorem evictable_iff {page : HistoryWindowPage} :
    index.evictable activeIndex protectedIds i page = true ↔
      ∃ rows, page.items = some rows ∧
        (index.independentPins = true ∨ page.ledger.hasExactExtent = true) ∧
        (i : Int) ≠ activeIndex ∧
        (∀ item ∈ rows, item.id ∈ protectedIds →
          index.trimmed ≠ .all ∧ index.trimmed.holds item = false) ∧
        (index.trimmed = .all ∨ ∃ item ∈ rows, index.trimmed.holds item = true) := by
  unfold evictable
  cases hitems : page.items with
  | none => simp
  | some rows =>
    -- no protected row at all, or only such as the pass leaves
    have hprotected : ∀ p : HistoryClip → Bool,
        ((rows.filter fun item => decide (item.id ∈ protectedIds)).isEmpty = true ∨
          ((rows.filter fun item => decide (item.id ∈ protectedIds)).all p) = true) ↔
        ∀ item ∈ rows, item.id ∈ protectedIds → p item = true := by
      intro p
      simp only [List.isEmpty_iff, List.filter_eq_nil_iff, List.all_eq_true, List.mem_filter,
        decide_eq_true_eq, and_imp]
      constructor
      · rintro (hnone | hall)
        · exact fun item hitem hid => absurd hid (hnone item hitem)
        · exact hall
      · exact Or.inr
    cases index.trimmed with
    | pins | recent =>
      simp only [Bool.and_eq_true, Bool.or_eq_true, decide_eq_true_eq, hprotected, and_assoc]
      simp [Lane.holds]
    | all => simp [Lane.holds, and_assoc]

/-- How much there is still to evict of a page: its rows, and itself. -/
def pageWeight (page : HistoryWindowPage) : ℕ :=
  page.items.elim 0 fun rows => rows.length + 1

def weight (index : HistoryWindowIndex) : ℕ :=
  (index.pages.map pageWeight).sum

/-- The rows of one lane go, and the others stay if there are any. -/
theorem kept_eq_some_iff {lane : Lane} {rows rest : List HistoryClip} :
    kept lane rows = some rest ↔ lane ≠ .all ∧ (∃ item ∈ rows, lane.holds item = false) ∧
      (rows.filter fun item => !lane.holds item) = rest := by
  cases lane with
  | all => simp [kept]
  | pins | recent =>
    simp only [kept, Option.ite_none_right_eq_some, Option.some.injEq]
    simp [Lane.holds]

theorem pageWeight_kept {lane : Lane} {rows : List HistoryClip} (ledger : Ledger)
    (h : lane = .all ∨ ∃ item ∈ rows, lane.holds item = true) :
    pageWeight ⟨ledger, kept lane rows⟩ < pageWeight ⟨ledger, some rows⟩ := by
  cases hkept : kept lane rows with
  | none => exact Nat.succ_pos _
  | some rest =>
    obtain ⟨hlane, -, rfl⟩ := kept_eq_some_iff.mp hkept
    obtain ⟨item, hitem, hholds⟩ := h.resolve_left hlane
    refine Nat.succ_lt_succ (List.length_filter_lt_length_iff_exists.mpr ⟨item, hitem, ?_⟩)
    simp [hholds]

theorem pass_eq_some (h : index.pass activeIndex protectedIds = some next) :
    ∃ i page, index.pages[i]? = some page ∧
      index.evictable activeIndex protectedIds i page = true ∧ next = index.evict i := by
  unfold pass at h
  split at h
  · obtain ⟨i, hvictim, rfl⟩ := Option.map_eq_some_iff.mp h
    obtain ⟨hfrom, -, -⟩ := foldl_best _ hvictim
    obtain ⟨⟨page, i'⟩, hmem, rfl⟩ := List.mem_map.mp (hfrom.resolve_left (by simp))
    obtain ⟨hmem, hevictable⟩ := List.mem_filter.mp hmem
    exact ⟨i', page, List.mem_zipIdx_iff_getElem?.mp hmem, hevictable, rfl⟩
  · cases h

/-- Where the loop stops. -/
theorem pass_eq_none (h : index.pass activeIndex protectedIds = none) :
    index.exceedsLimits = false ∨ ∀ i page, index.pages[i]? = some page →
      index.evictable activeIndex protectedIds i page = false := by
  unfold pass at h
  split at h
  · refine Or.inr fun i page hpage => ?_
    have hvictim := Option.map_eq_none_iff.mp h
    unfold victim at hvictim
    have hsome := foldl_best_isSome (distance activeIndex)
      ((index.pages.zipIdx.filter fun entry =>
        index.evictable activeIndex protectedIds entry.2 entry.1).map Prod.snd) none
    rw [hvictim] at hsome
    rw [← Bool.not_eq_true]
    intro hevictable
    have hmem : (page, i) ∈ index.pages.zipIdx.filter fun entry =>
        index.evictable activeIndex protectedIds entry.2 entry.1 :=
      List.mem_filter.mpr ⟨List.mem_zipIdx_iff_getElem?.mpr hpage, hevictable⟩
    have hnil : (index.pages.zipIdx.filter fun entry =>
        index.evictable activeIndex protectedIds entry.2 entry.1) = [] := by
      simpa using hsome.symm
    rw [hnil] at hmem
    exact List.not_mem_nil hmem
  · rename_i hwithin
    exact Or.inl (Bool.eq_false_iff.mpr hwithin)

theorem sum_modify_lt {α : Type} (f : α → ℕ) (g : α → α) {l : List α} {a : α} (h : l[i]? = some a)
    (hlt : f (g a) < f a) : ((l.modify i g).map f).sum < (l.map f).sum := by
  induction l generalizing i with
  | nil => simp at h
  | cons b l ih =>
    cases i with
    | zero =>
      obtain rfl : b = a := by simpa using h
      simpa using hlt
    | succ i =>
      have hrest := ih (i := i) (by simpa using h)
      simpa using hrest

theorem weight_pass_lt (h : index.pass activeIndex protectedIds = some next) :
    next.weight < index.weight := by
  obtain ⟨i, page, hpage, hevictable, rfl⟩ := pass_eq_some activeIndex protectedIds h
  obtain ⟨rows, hitems, -, -, -, hlane⟩ := (evictable_iff activeIndex protectedIds).mp hevictable
  refine sum_modify_lt _ _ hpage ?_
  rw [hitems, Option.bind_some]
  exact (pageWeight_kept page.ledger hlane).trans_eq (by rw [← hitems])

/-- Pages go until the limits hold or none can. -/
def retainAround (index : HistoryWindowIndex) : HistoryWindowIndex :=
  match _hpass : index.pass activeIndex protectedIds with
  | none => index
  | some next => retainAround next
  termination_by index.weight
  decreasing_by exact weight_pass_lt activeIndex protectedIds _hpass

/-- The loop cut off after so many turns; nothing where it would go on. -/
def loop : ℕ → HistoryWindowIndex → Option HistoryWindowIndex
  | 0, _ => none
  | turns + 1, index =>
    match index.pass activeIndex protectedIds with
    | none => some index
    | some next => loop turns next

theorem loop_retainAround {turns : ℕ} (h : index.weight < turns) :
    loop activeIndex protectedIds turns index =
      some (index.retainAround activeIndex protectedIds) := by
  induction turns generalizing index with
  | zero => exact absurd h (Nat.not_lt_zero _)
  | succ turns ih =>
    rw [loop, retainAround]
    cases hpass : index.pass activeIndex protectedIds with
    | none => rfl
    | some next =>
      have hlt := weight_pass_lt activeIndex protectedIds hpass
      exact ih (hlt.trans_le (Nat.le_of_lt_succ h))

/-- What the eviction may do to a page. -/
structure PageKept (i : ℕ) (before after : HistoryWindowPage) : Prop where
  ledger : after.ledger = before.ledger
  active : (i : Int) = activeIndex → after.items = before.items
  lanes : after.items = before.items ∨ after.items = none ∨ ∃ rows, ∃ lane : Lane,
    before.items = some rows ∧ lane ≠ .all ∧ after.items = some (rows.filter fun item => !lane.holds item)
  guarded : ∀ item ∈ before.rows, item.id ∈ protectedIds → item ∈ after.rows

/-- What the eviction leaves of a window. -/
structure Retained (before after : HistoryWindowIndex) : Prop where
  settings : after.maxPages = before.maxPages ∧ after.maxBytes = before.maxBytes ∧
    after.independentPins = before.independentPins
  length : after.pages.length = before.pages.length
  pages : ∀ i page page', before.pages[i]? = some page → after.pages[i]? = some page' →
    PageKept activeIndex protectedIds i page page'

/-- Why a resident page may still be there where the limits do not hold. -/
def Stays (index : HistoryWindowIndex) (i : ℕ) (page : HistoryWindowPage) : Prop :=
  (i : Int) = activeIndex ∨
    (∃ item ∈ page.rows, item.id ∈ protectedIds ∧ index.trimmed.holds item = true) ∨
    (index.independentPins = false ∧ page.ledger.hasExactExtent = false) ∨
    ∀ item ∈ page.rows, index.trimmed.holds item = false

theorem Retained.pass {before : HistoryWindowIndex}
    (h : Retained activeIndex protectedIds before index)
    (hpass : index.pass activeIndex protectedIds = some next) :
    Retained activeIndex protectedIds before next := by
  obtain ⟨i, page, hpage, hevictable, rfl⟩ := pass_eq_some activeIndex protectedIds hpass
  obtain ⟨rows, hitems, -, hactive, hguarded, hlane⟩ :=
    (evictable_iff activeIndex protectedIds).mp hevictable
  refine ⟨h.settings, ?_, ?_⟩
  · unfold evict
    rw [List.length_modify, h.length]
  · intro k first last hfirst hlast
    unfold evict at hlast
    rw [List.getElem?_modify] at hlast
    obtain ⟨middle, hmiddle, rfl⟩ := Option.map_eq_some_iff.mp hlast
    have hkept := h.pages k first middle hfirst hmiddle
    by_cases hk : i = k
    · subst hk
      obtain rfl : middle = page := Option.some.inj (hmiddle.symm.trans hpage)
      simp only [if_true, hitems, Option.bind_some]
      refine ⟨hkept.ledger, fun habs => absurd habs hactive, ?_, ?_⟩
      · rcases hkept.lanes with hsame | hnone | ⟨rows₀, lane, -, hlane₀, hrows⟩
        · cases hrest : kept index.trimmed rows with
          | none => exact Or.inr (Or.inl rfl)
          | some rest =>
            obtain ⟨hall, -, rfl⟩ := kept_eq_some_iff.mp hrest
            exact Or.inr (Or.inr ⟨rows, index.trimmed, hsame.symm.trans hitems, hall, rfl⟩)
        · rw [hitems] at hnone
          cases hnone
        · -- what is left of a page is of one lane, and goes as a whole
          rw [hitems] at hrows
          obtain rfl := Option.some.inj hrows
          refine Or.inr (Or.inl ?_)
          rw [← Option.not_isSome_iff_eq_none, Option.isSome_iff_exists]
          rintro ⟨rest, hrest⟩
          obtain ⟨hall, ⟨other, hother, hleft⟩, -⟩ := kept_eq_some_iff.mp hrest
          obtain ⟨gone, hgone, hheld⟩ := hlane.resolve_left hall
          have hgone := (List.mem_filter.mp hgone).2
          have hother := (List.mem_filter.mp hother).2
          cases lane <;> cases htrimmed : index.trimmed <;> simp_all [Lane.holds]
      · intro item hitem hid
        have hmem := hkept.guarded item hitem hid
        unfold HistoryWindowPage.rows at hmem ⊢
        rw [hitems, Option.getD_some] at hmem
        obtain ⟨hall, hother⟩ := hguarded item hmem hid
        rw [kept_eq_some_iff.mpr ⟨hall, ⟨item, hmem, hother⟩, rfl⟩, Option.getD_some]
        exact List.mem_filter.mpr ⟨hmem, by simp [hother]⟩
    · simp only [hk, if_false]
      exact hkept

theorem Retained.refl (index : HistoryWindowIndex) :
    Retained activeIndex protectedIds index index := by
  refine ⟨⟨rfl, rfl, rfl⟩, rfl, ?_⟩
  intro i page page' hpage hpage'
  obtain rfl := Option.some.inj (hpage.symm.trans hpage')
  exact ⟨rfl, fun _ => rfl, Or.inl rfl, fun _ hitem _ => hitem⟩

theorem stays_of_not_evictable {page : HistoryWindowPage} (hresident : page.resident = true)
    (h : index.evictable activeIndex protectedIds i page = false) :
    Stays activeIndex protectedIds index i page := by
  obtain ⟨rows, hitems⟩ := Option.isSome_iff_exists.mp hresident
  have hrows : page.rows = rows := by
    unfold HistoryWindowPage.rows
    rw [hitems, Option.getD_some]
  unfold Stays
  rw [hrows]
  by_contra hgoes
  simp only [not_or, not_exists, not_and, not_forall, Bool.not_eq_true, Bool.not_eq_false]
    at hgoes
  obtain ⟨hactive, hguarded, hextent, item, hitem, hholds⟩ := hgoes
  rw [← Bool.not_eq_true] at h
  refine h ((evictable_iff activeIndex protectedIds).mpr ⟨rows, hitems, ?_, hactive, ?_, ?_⟩)
  · by_cases hpins : index.independentPins = true
    · exact Or.inl hpins
    · exact Or.inr (hextent (Bool.eq_false_iff.mpr hpins))
  · intro other hother hid
    have hspared := hguarded other hother hid
    refine ⟨?_, hspared⟩
    intro hall
    rw [hall] at hspared
    cases hspared
  · exact Or.inr ⟨item, hitem, hholds⟩

theorem retainAround_respects_protections (index : HistoryWindowIndex) :
    (∃ turns, loop activeIndex protectedIds turns index =
        some (index.retainAround activeIndex protectedIds)) ∧
      Retained activeIndex protectedIds index (index.retainAround activeIndex protectedIds) ∧
      ((index.retainAround activeIndex protectedIds).exceedsLimits = false ∨
        ∀ i page, (index.retainAround activeIndex protectedIds).pages[i]? = some page →
          page.resident = true →
          Stays activeIndex protectedIds (index.retainAround activeIndex protectedIds) i page) := by
  have hrun : ∀ reached, Retained activeIndex protectedIds index reached →
      Retained activeIndex protectedIds index (reached.retainAround activeIndex protectedIds) ∧
        (reached.retainAround activeIndex protectedIds).pass activeIndex protectedIds = none := by
    intro reached hreached
    fun_induction retainAround activeIndex protectedIds reached with
    | case1 reached hpass => exact ⟨hreached, hpass⟩
    | case2 reached next hpass ih =>
      exact ih (Retained.pass activeIndex protectedIds hreached hpass)
  obtain ⟨hretained, hstopped⟩ := hrun index (Retained.refl activeIndex protectedIds index)
  refine ⟨⟨_, loop_retainAround activeIndex protectedIds (Nat.lt_succ_self _)⟩, hretained, ?_⟩
  rcases pass_eq_none activeIndex protectedIds hstopped with hwithin | hnone
  · exact Or.inl hwithin
  · refine Or.inr fun i page hpage hresident => ?_
    exact stays_of_not_evictable activeIndex protectedIds hresident (hnone i page hpage)

end Eviction

end HistoryWindowIndex

end CopyPaste.History.WindowIndex
