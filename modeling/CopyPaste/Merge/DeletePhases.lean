import Mathlib.Data.String.Basic
import Mathlib.Data.List.Basic

/-!
The phases of an id that meets a live version and a tombstone of the same stamp without
a hash. The tombstone is compared under the hash of the row it finds, so what it is worth
depends on when it arrives and on where pages are cut.
-/

namespace CopyPaste.Merge.DeletePhases

/-- Where an id stands: as it was before the two versions, with the live one, with the
tombstone under some hash, or with the live one under a later stamp. -/
inductive Phase
  | before
  | alive
  | gone (hash : String)
  | risen
  deriving DecidableEq, Repr

def Phase.isGone : Phase → Bool
  | .gone _ => true
  | _ => false

/-- What decides the course of the two versions: the hash found first and the live
version's own, whether the dedup index admits the live version, and whether a choice
about secrecy restamps it. -/
structure Meeting where
  heldHash : String
  itemHash : String
  admitted : Bool
  restamped : Bool

namespace Meeting

variable (m : Meeting)

/-- The phase a row is planned to lead to, if it wins. -/
def plan : Phase → Bool → Option Phase
  | .before, false => some .alive
  | .before, true => some (.gone m.heldHash)
  | .alive, true => some (.gone m.itemHash)
  | .gone hash, false => if hash < m.itemHash then some .alive else none
  | _, _ => none

example (hash : String) (h : hash < m.itemHash) : m.plan (.gone hash) false = some .alive := by
  simp only [plan, if_pos h]

/-- The phase a winning row is written to. -/
def write (stored planned : Phase) (deleted : Bool) : Phase :=
  if deleted then planned
  else if !m.admitted then stored
  else if stored = .before ∧ m.restamped then .risen
  else .alive

/-- One row of a page, on the planned phase and the stored one. -/
def row (phases : Phase × Phase) (deleted : Bool) : Phase × Phase :=
  match m.plan phases.1 deleted with
  | none => phases
  | some planned => (planned, m.write phases.2 planned deleted)

def page (stored : Phase) (rows : List Bool) : Phase :=
  (rows.foldl m.row (stored, stored)).2

def pages (stored : Phase) (rows : List (List Bool)) : Phase :=
  rows.foldl m.page stored

theorem plan_tombstone {phase next : Phase} (h : m.plan phase true = some next) :
    ∃ hash, next = .gone hash := by
  cases phase <;> cases h <;> exact ⟨_, rfl⟩

theorem plan_item {phase next : Phase} (h : m.plan phase false = some next) : next = .alive := by
  cases phase with
  | gone hash =>
    rw [plan] at h
    split at h <;> cases h
    rfl
  | _ => cases h <;> rfl

theorem pages_cons (stored : Phase) (first : List Bool) (rest : List (List Bool)) :
    m.pages stored (first :: rest) = m.pages (m.page stored first) rest := rfl

/-- Only a live version that is planned and not stored parts the two phases. -/
theorem row_in_step {phases : Phase × Phase} (h : phases.1 = phases.2 ∨ phases.1 = .alive)
    (deleted : Bool) :
    (m.row phases deleted).1 = (m.row phases deleted).2 ∨ (m.row phases deleted).1 = .alive := by
  obtain ⟨planned, stored⟩ := phases
  cases deleted with
  | true => cases planned <;> simp_all [row, plan, write]
  | false =>
    cases planned with
    | gone hash =>
      unfold row plan
      dsimp only at h ⊢
      by_cases hlt : hash < m.itemHash
      · exact Or.inr (by rw [if_pos hlt])
      · rw [if_neg hlt]
        exact h
    | _ => simp_all [row, plan]

/-- A tombstone has nothing left to win against once a page has had it. -/
theorem row_settled (phases : Phase × Phase) (h : phases.1 = phases.2 ∨ phases.1 = .alive)
    (hadmitted : m.admitted = false) (rows : List Bool)
    (hrows : true ∈ rows ∨ phases.2.isGone ∨ phases.2 = .risen) :
    m.plan (rows.foldl m.row phases).2 true = none := by
  induction rows generalizing phases with
  | nil =>
    rcases hrows with hrows | hrows | hrows
    · cases hrows
    · rw [List.foldl_nil]
      cases hstored : phases.2 <;> simp_all [Phase.isGone, plan]
    · rw [List.foldl_nil, hrows]
      rfl
  | cons deleted rest ih =>
    rw [List.foldl_cons]
    refine ih _ (m.row_in_step h deleted) ?_
    obtain ⟨planned, stored⟩ := phases
    cases deleted with
    | true =>
      clear ih hrows
      cases planned <;> cases stored <;> simp_all [row, plan, write, Phase.isGone]
    | false =>
      rcases hrows with hrows | hrows
      · exact Or.inl (by simpa using hrows)
      · right
        unfold row
        cases m.plan planned false with
        | none => exact hrows
        | some next => simpa [write, hadmitted] using hrows

variable {hash : String}

/-- Nothing wins against the tombstone under the live version's own hash. -/
theorem foldl_settled (hhash : m.itemHash ≤ hash) (stored : Phase) (rows : List Bool) :
    rows.foldl m.row (.gone hash, stored) = (.gone hash, stored) := by
  induction rows with
  | nil => rfl
  | cons deleted rest ih =>
    have hrow : m.row (.gone hash, stored) deleted = (.gone hash, stored) := by
      cases deleted <;> simp [row, plan, not_lt.2 hhash]
    rw [List.foldl_cons, hrow, ih]

theorem foldl_alive (stored : Phase) (rows : List Bool) :
    rows.foldl m.row (.alive, stored) =
      if true ∈ rows then (.gone m.itemHash, .gone m.itemHash) else (.alive, stored) := by
  induction rows with
  | nil => rfl
  | cons deleted rest ih =>
    rw [List.foldl_cons]
    cases deleted with
    | true =>
      rw [if_pos List.mem_cons_self]
      exact m.foldl_settled le_rfl _ rest
    | false =>
      have hrow : m.row (.alive, stored) false = (.alive, stored) := rfl
      rw [hrow, ih]
      simp

theorem pages_settled (hhash : m.itemHash ≤ hash) (rows : List (List Bool)) :
    m.pages (.gone hash) rows = .gone hash := by
  induction rows with
  | nil => rfl
  | cons first rest ih =>
    rw [pages_cons, page, m.foldl_settled hhash]
    exact ih

theorem pages_alive (rows : List (List Bool)) :
    (m.pages .alive rows).isGone = true ↔ true ∈ rows.flatten := by
  induction rows with
  | nil => simp [pages, Phase.isGone]
  | cons first rest ih =>
    rw [pages_cons, page, foldl_alive, List.flatten_cons, List.mem_append]
    by_cases hfirst : true ∈ first
    · rw [if_pos hfirst, m.pages_settled le_rfl]
      simp [hfirst, Phase.isGone]
    · rw [if_neg hfirst, ih]
      simp [hfirst]

/-- Without the live version the id is gone once the tombstone has come. -/
theorem foldl_refused (hadmitted : m.admitted = false) (phases : Phase × Phase)
    (h : phases.1 = phases.2 ∨ phases.1 = .alive)
    (hstored : phases.2 = .before ∨ phases.2.isGone) (rows : List Bool) :
    ((rows.foldl m.row phases).2 = .before ∨ (rows.foldl m.row phases).2.isGone) ∧
      ((rows.foldl m.row phases).2.isGone ↔ phases.2.isGone ∨ true ∈ rows) := by
  induction rows generalizing phases with
  | nil => simpa using hstored
  | cons deleted rest ih =>
    have hrow : ((m.row phases deleted).2 = .before ∨ (m.row phases deleted).2.isGone) ∧
        ((m.row phases deleted).2.isGone ↔ phases.2.isGone ∨ deleted = true) := by
      obtain ⟨planned, stored⟩ := phases
      cases deleted with
      | true =>
        clear ih
        cases planned <;> cases stored <;> simp_all [row, plan, write, Phase.isGone]
      | false =>
        unfold row
        cases m.plan planned false with
        | none => simpa using hstored
        | some next => simpa [write, hadmitted] using hstored
    obtain ⟨hnext, hgone⟩ := ih _ (m.row_in_step h deleted) hrow.1
    refine ⟨hnext, ?_⟩
    rw [List.foldl_cons, hgone, hrow.2, List.mem_cons, or_assoc, @eq_comm _ true deleted]

theorem pages_refused (hadmitted : m.admitted = false) (stored : Phase)
    (hstored : stored = .before ∨ stored.isGone) (rows : List (List Bool)) :
    (m.pages stored rows).isGone = true ↔ stored.isGone ∨ true ∈ rows.flatten := by
  induction rows generalizing stored with
  | nil => simp [pages]
  | cons first rest ih =>
    obtain ⟨hnext, hgone⟩ := m.foldl_refused hadmitted (stored, stored) (Or.inl rfl) hstored first
    rw [pages_cons, page, ih _ hnext, hgone, List.flatten_cons, List.mem_append, or_assoc]

/-- A restamped version is past the tombstone, unless that stands on the same page. -/
theorem pages_restamped (hadmitted : m.admitted = true) (hrestamped : m.restamped = true)
    (hhash : m.heldHash = m.itemHash) (rows : List (List Bool)) :
    (m.pages .before rows).isGone = true ↔
      ∃ first, rows.find? (fun page => page ≠ []) = some first ∧ true ∈ first := by
  have hrisen : ∀ rows, m.pages .risen rows = .risen := by
    have hpage : ∀ page, m.page .risen page = .risen := by
      have hfold : ∀ page : List Bool, page.foldl m.row (.risen, .risen) = (.risen, .risen) := by
        intro page
        induction page with
        | nil => rfl
        | cons deleted rest ih => exact ih
      intro page
      rw [Meeting.page, hfold]
    intro rows
    induction rows with
    | nil => rfl
    | cons first rest ih =>
      rw [pages_cons, hpage, ih]
  induction rows with
  | nil => simp [pages, Phase.isGone]
  | cons first rest ih =>
    cases first with
    | nil => exact ih.trans (by simp)
    | cons deleted later =>
      have hfind : ((deleted :: later) :: rest).find? (fun page => decide (page ≠ [])) =
          some (deleted :: later) := by simp
      simp only [hfind, Option.some.injEq, exists_eq_left']
      rw [pages_cons, page, List.foldl_cons]
      cases deleted with
      | true =>
        have hrow : m.row (.before, .before) true = (.gone m.itemHash, .gone m.itemHash) := by
          simp [row, plan, write, hhash]
        rw [hrow, m.foldl_settled le_rfl, m.pages_settled le_rfl]
        simp [Phase.isGone]
      | false =>
        have hrow : m.row (.before, .before) false = (.alive, .risen) := by
          simp [row, plan, write, hadmitted, hrestamped]
        rw [hrow, foldl_alive]
        by_cases hlater : true ∈ later
        · rw [if_pos hlater, m.pages_settled le_rfl]
          simp [hlater, Phase.isGone]
        · rw [if_neg hlater, hrisen]
          simp [hlater, Phase.isGone]

/-- One row by itself. -/
def step (phase : Phase) (deleted : Bool) : Phase :=
  (m.plan phase deleted).getD phase

theorem foldl_in_step (hadmitted : m.admitted = true) (hstamp : m.restamped = false)
    (phase : Phase) (rows : List Bool) :
    rows.foldl m.row (phase, phase) = (rows.foldl m.step phase, rows.foldl m.step phase) := by
  induction rows generalizing phase with
  | nil => rfl
  | cons deleted rest ih =>
    have hrow : m.row (phase, phase) deleted = (m.step phase deleted, m.step phase deleted) := by
      unfold row step
      cases hplan : m.plan phase deleted with
      | none => rfl
      | some planned =>
        cases deleted with
        | true => simp [write]
        | false =>
          simp [write, hadmitted, hstamp, m.plan_item hplan]
    rw [List.foldl_cons, hrow, ih]
    rfl

theorem pages_in_step (hadmitted : m.admitted = true) (hstamp : m.restamped = false)
    (phase : Phase) (rows : List (List Bool)) :
    m.pages phase rows = rows.flatten.foldl m.step phase := by
  induction rows generalizing phase with
  | nil => rfl
  | cons first rest ih =>
    rw [pages_cons, ih, page, m.foldl_in_step hadmitted hstamp, List.flatten_cons,
      List.foldl_append]

theorem foldl_step_settled (hhash : m.itemHash ≤ hash) (rows : List Bool) :
    rows.foldl m.step (.gone hash) = .gone hash := by
  induction rows with
  | nil => rfl
  | cons deleted rest ih =>
    have hstep : m.step (.gone hash) deleted = .gone hash := by
      cases deleted <;> simp [step, plan, not_lt.2 hhash]
    rw [List.foldl_cons, hstep, ih]

theorem foldl_step_alive (rows : List Bool) :
    (rows.foldl m.step .alive).isGone = true ↔ true ∈ rows := by
  induction rows with
  | nil => simp [Phase.isGone]
  | cons deleted rest ih =>
    rw [List.foldl_cons]
    cases deleted with
    | true =>
      have hstep : m.step .alive true = .gone m.itemHash := rfl
      rw [hstep, m.foldl_step_settled le_rfl]
      simp [Phase.isGone]
    | false =>
      have hstep : m.step .alive false = .alive := rfl
      rw [hstep, ih]
      simp

/-- Under a smaller hash the tombstone gives way to the live version, and comes back
only when it is delivered again. -/
theorem foldl_step_outranked (hhash : hash < m.itemHash) (rows : List Bool) :
    (rows.foldl m.step (.gone hash)).isGone = true ↔ false ∉ rows ∨ [false, true].Sublist rows := by
  induction rows with
  | nil => simp [Phase.isGone]
  | cons deleted rest ih =>
    rw [List.foldl_cons]
    cases deleted with
    | true =>
      have hstep : m.step (.gone hash) true = .gone hash := rfl
      have hsub : [false, true].Sublist (true :: rest) ↔ [false, true].Sublist rest := by
        simp [List.cons_sublist_cons']
      rw [hstep, ih, hsub]
      simp
    | false =>
      have hstep : m.step (.gone hash) false = .alive := by simp [step, plan, hhash]
      rw [hstep, foldl_step_alive]
      simp

theorem foldl_step_before (rows : List Bool) (hitem : false ∈ rows) (hgone : true ∈ rows) :
    (rows.foldl m.step .before).isGone = true ↔
      m.itemHash ≤ m.heldHash ∨ [false, true].Sublist rows := by
  cases rows with
  | nil => cases hitem
  | cons deleted rest =>
    rw [List.foldl_cons]
    cases deleted with
    | false =>
      have hstep : m.step .before false = .alive := rfl
      have hrest : true ∈ rest := by simpa using hgone
      rw [hstep, foldl_step_alive]
      simp [hrest]
    | true =>
      have hstep : m.step .before true = .gone m.heldHash := rfl
      have hrest : false ∈ rest := by simpa using hitem
      rw [hstep]
      rcases le_or_gt m.itemHash m.heldHash with hle | hlt
      · rw [m.foldl_step_settled hle]
        simp [hle, Phase.isGone]
      · rw [m.foldl_step_outranked hlt]
        simp [hrest, not_le.2 hlt, List.cons_sublist_cons']

/-- When the id ends with the tombstone. -/
theorem pages_gone_iff (hhash : m.restamped = true → m.heldHash = m.itemHash) (start : Phase)
    (hstart : start = .before ∨ start = .alive) (rows : List (List Bool))
    (hitem : false ∈ rows.flatten) (hgone : true ∈ rows.flatten) :
    (m.pages start rows).isGone = true ↔
      start = .alive ∨ m.admitted = false ∨
        if m.restamped then
          ∃ first, rows.find? (fun page => page ≠ []) = some first ∧ true ∈ first
        else m.itemHash ≤ m.heldHash ∨ [false, true].Sublist rows.flatten := by
  rcases hstart with rfl | rfl
  · cases hadmitted : m.admitted with
    | false => simp [m.pages_refused hadmitted .before (Or.inl rfl), hgone]
    | true =>
      cases hstamp : m.restamped with
      | true => simp [m.pages_restamped hadmitted hstamp (hhash hstamp)]
      | false =>
        rw [m.pages_in_step hadmitted hstamp, m.foldl_step_before _ hitem hgone]
        simp
  · simp [pages_alive, hgone]

end Meeting

end CopyPaste.Merge.DeletePhases
