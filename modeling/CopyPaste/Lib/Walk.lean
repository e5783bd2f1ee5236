import Mathlib.Data.List.Sort
import Mathlib.Order.WithBot

/-!
Walking a table page by page, with each page resumed at a cursor. What lies ahead of a
position is the sorted run of the rows past it; a page is a first part of that run, and
its cursor is the key of its last row. Between two pages the table may change.
-/

namespace CopyPaste.Lib.Walk

variable {α γ τ P : Type*} [LinearOrder P] (key : α → P)

/-- The rows past a position, in the order of their keys. -/
structure Ahead (rows : List α) (since : WithBot P) (ahead : List α) : Prop where
  mem : ∀ r, r ∈ ahead ↔ r ∈ rows ∧ since < (key r : WithBot P)
  sorted : ahead.Pairwise fun a b => key a < key b

/-- A page of what lies ahead: a first part, all of it when there is no cursor. -/
structure Reads (ahead run : List α) (next : Option P) : Prop where
  front : run <+: ahead
  done : next = none → run = ahead
  resume : ∀ c ∈ next, ∃ last, run.getLast? = some last ∧ key last = c

/-- The position a cursor resumes from; without one it is before every row. -/
def position (place : γ → P) (cursor : Option γ) : WithBot P :=
  cursor.elim ⊥ fun c => (place c : WithBot P)

/-- Read one page from each table in turn until a page has no cursor. -/
def walk (read : τ → Option γ → List α × Option γ) : List τ → Option γ → Option (List α)
  | [], _ => none
  | table :: tables, cursor =>
    match read table cursor with
    | (run, none) => some run
    | (run, some next) => (walk read tables (some next)).map (run ++ ·)

variable {key}

theorem nodup_of_sorted {ahead : List α} (h : ahead.Pairwise fun a b => key a < key b) :
    ahead.Nodup :=
  h.imp fun hlt heq => absurd (heq ▸ hlt) (lt_irrefl _)

theorem Ahead.unique {rows ahead other : List α} {since : WithBot P}
    (h : Ahead key rows since ahead) (hother : Ahead key rows since other) : ahead = other := by
  have hperm : ahead.Perm other := by
    refine (List.perm_ext_iff_of_nodup (nodup_of_sorted h.sorted)
      (nodup_of_sorted hother.sorted)).2 fun r => ?_
    rw [h.mem, hother.mem]
  exact List.Perm.eq_of_pairwise
    (fun a b _ _ hab hba => absurd hba (lt_asymm hab)) h.sorted hother.sorted hperm

section

variable {rows ahead run : List α} {since : WithBot P} {place : γ → P} {cursor : γ}

/-- A page that is resumed from has rows up to its cursor, and the rest is what lies
ahead of the cursor. -/
theorem Reads.split {next : P} (hahead : Ahead key rows since ahead)
    (hread : Reads key ahead run (some next)) :
    ∃ rest, ahead = run ++ rest ∧ run ≠ [] ∧ since < (next : WithBot P) ∧
      (∀ r ∈ run, key r ≤ next) ∧ Ahead key rows next rest := by
  obtain ⟨rest, rfl⟩ := hread.front
  obtain ⟨last, hlast, rfl⟩ := hread.resume next rfl
  obtain ⟨front, rfl⟩ := List.getLast?_eq_some_iff.1 hlast
  have hsorted := List.pairwise_append.1 hahead.sorted
  have hfront : ∀ r ∈ front ++ [last], key r ≤ key last := by
    intro r hr
    rcases List.mem_append.1 hr with hr | hr
    · exact ((List.pairwise_append.1 hsorted.1).2.2 r hr last (by simp)).le
    · rw [List.mem_singleton.1 hr]
  have habove : since < (key last : WithBot P) := ((hahead.mem last).1 (by simp)).2
  refine ⟨rest, rfl, by simp, habove, hfront, ?_, hsorted.2.1⟩
  intro r
  rw [WithBot.coe_lt_coe]
  constructor
  · intro hr
    exact ⟨((hahead.mem r).1 (List.mem_append_right _ hr)).1,
      hsorted.2.2 last (by simp) r hr⟩
  · rintro ⟨hr, hlt⟩
    have hin := (hahead.mem r).2 ⟨hr, habove.trans (WithBot.coe_lt_coe.2 hlt)⟩
    rcases List.mem_append.1 hin with hin | hin
    · exact absurd hlt (not_lt.2 (hfront r hin))
    · exact hin

end

section

variable (rowsOf : τ → List α) {place : γ → P} {read : τ → Option γ → List α × Option γ}

/-- Every page is one of what lies ahead of its cursor. -/
def Pages (key : α → P) (place : γ → P) (read : τ → Option γ → List α × Option γ) (table : τ) :
    Prop :=
  ∀ cursor, ∃ ahead, Ahead key (rowsOf table) (position place cursor) ahead ∧
    Reads key ahead (read table cursor).1 ((read table cursor).2.map place)

variable {rowsOf}

/-- Following the cursors of a table that does not change ends with what lies ahead. -/
theorem walk_static {table : τ} (hpages : Pages rowsOf key place read table) (cursor : Option γ)
    {ahead : List α} (hahead : Ahead key (rowsOf table) (position place cursor) ahead) :
    ∃ count ≤ ahead.length + 1,
      walk read (List.replicate count table) cursor = some ahead := by
  induction hsize : ahead.length using Nat.strong_induction_on generalizing cursor ahead with
  | _ size ih =>
    obtain ⟨found, hfound, hread⟩ := hpages cursor
    obtain rfl := hfound.unique hahead
    rcases hpage : read table cursor with ⟨run, next⟩
    rw [hpage] at hread
    dsimp only at hread
    cases next with
    | none =>
      have hrun : run = found := hread.done rfl
      exact ⟨1, by omega, by rw [List.replicate_one, walk, hpage, hrun]⟩
    | some next =>
      obtain ⟨rest, rfl, hne, -, -, hrest⟩ := Reads.split hahead hread
      have hpos : 0 < run.length := List.length_pos_iff.2 hne
      rw [List.length_append] at hsize
      obtain ⟨count, hcount, hwalk⟩ := ih rest.length (by omega) (some next) hrest rfl
      refine ⟨count + 1, by omega, ?_⟩
      rw [List.replicate_succ, walk, hpage]
      simp only [hwalk, Option.map_some]

variable {tables : List τ} {cursor : Option γ} {yielded : List α}

theorem walk_above (hpages : ∀ table ∈ tables, Pages rowsOf key place read table)
    (hwalk : walk read tables cursor = some yielded) :
    ∀ r ∈ yielded, position place cursor < (key r : WithBot P) := by
  induction tables generalizing cursor yielded with
  | nil => cases hwalk
  | cons table tables ih =>
    obtain ⟨ahead, hahead, hread⟩ := hpages table (List.mem_cons_self ..) cursor
    rcases hpage : read table cursor with ⟨run, next⟩
    rw [hpage] at hread
    dsimp only at hread
    have hrun : ∀ r ∈ run, position place cursor < (key r : WithBot P) := fun r hr =>
      ((hahead.mem r).1 (hread.front.subset hr)).2
    rw [walk, hpage] at hwalk
    cases next with
    | none =>
      cases hwalk
      exact hrun
    | some next =>
      obtain ⟨later, hlater, rfl⟩ := Option.map_eq_some_iff.1 hwalk
      obtain ⟨rest, -, -, hnext, -⟩ := Reads.split hahead hread
      intro r hr
      rcases List.mem_append.1 hr with hr | hr
      · exact hrun r hr
      · exact hnext.trans
          (ih (fun other hother => hpages other (List.mem_cons_of_mem _ hother)) hlater r hr)

theorem walk_mem (hpages : ∀ table ∈ tables, Pages rowsOf key place read table)
    (hwalk : walk read tables cursor = some yielded) :
    ∀ r ∈ yielded, ∃ table ∈ tables, r ∈ rowsOf table := by
  induction tables generalizing cursor yielded with
  | nil => cases hwalk
  | cons table tables ih =>
    obtain ⟨ahead, hahead, hread⟩ := hpages table (List.mem_cons_self ..) cursor
    have hrun : ∀ r ∈ (read table cursor).1, r ∈ rowsOf table := fun r hr =>
      ((hahead.mem r).1 (hread.front.subset hr)).1
    rcases hpage : read table cursor with ⟨run, next⟩
    rw [hpage] at hrun
    rw [walk, hpage] at hwalk
    cases next with
    | none =>
      cases hwalk
      exact fun r hr => ⟨table, List.mem_cons_self .., hrun r hr⟩
    | some next =>
      obtain ⟨later, hlater, rfl⟩ := Option.map_eq_some_iff.1 hwalk
      intro r hr
      rcases List.mem_append.1 hr with hr | hr
      · exact ⟨table, List.mem_cons_self .., hrun r hr⟩
      · obtain ⟨other, hother, hin⟩ :=
          ih (fun other hother => hpages other (List.mem_cons_of_mem _ hother)) hlater r hr
        exact ⟨other, List.mem_cons_of_mem _ hother, hin⟩

theorem filter_key_eq_nil {run : List α} {k : P} (h : ∀ r ∈ run, key r ≠ k) :
    (run.filter fun r => key r = k) = [] := by
  rw [List.filter_eq_nil_iff]
  intro r hr
  simpa using h r hr

theorem length_filter_key {run : List α} (hsorted : run.Pairwise fun a b => key a < key b) {r : α}
    (hr : r ∈ run) : (run.filter fun other => key other = key r).length = 1 := by
  obtain ⟨front, rest, rfl⟩ := List.append_of_mem hr
  rw [List.pairwise_append, List.pairwise_cons] at hsorted
  have hfront : (front.filter fun other => key other = key r) = [] :=
    filter_key_eq_nil fun other hother => (hsorted.2.2 other hother r (List.mem_cons_self ..)).ne
  have hrest : (rest.filter fun other => key other = key r) = [] :=
    filter_key_eq_nil fun other hother => (hsorted.2.1.1 other hother).ne'
  rw [List.filter_append, hfront, List.filter_cons_of_pos (by simp), hrest]
  rfl

/-- A key that a row has in every table is yielded by exactly one page. -/
theorem walk_once (hpages : ∀ table ∈ tables, Pages rowsOf key place read table)
    (hwalk : walk read tables cursor = some yielded) {k : P}
    (hk : position place cursor < (k : WithBot P))
    (hstays : ∀ table ∈ tables, ∃ r ∈ rowsOf table, key r = k) :
    (yielded.filter fun r => key r = k).length = 1 := by
  induction tables generalizing cursor yielded with
  | nil => cases hwalk
  | cons table tables ih =>
    have hothers := fun other hother => hpages other (List.mem_cons_of_mem table hother)
    obtain ⟨ahead, hahead, hread⟩ := hpages table (List.mem_cons_self ..) cursor
    obtain ⟨r, hr, rfl⟩ := hstays table (List.mem_cons_self ..)
    have hin : r ∈ ahead := (hahead.mem r).2 ⟨hr, hk⟩
    rcases hpage : read table cursor with ⟨run, next⟩
    rw [hpage] at hread
    dsimp only at hread
    rw [walk, hpage] at hwalk
    cases next with
    | none =>
      cases hwalk
      have hrun : yielded = ahead := hread.done rfl
      rw [hrun]
      exact length_filter_key hahead.sorted hin
    | some next =>
      obtain ⟨later, hlater, rfl⟩ := Option.map_eq_some_iff.1 hwalk
      obtain ⟨rest, rfl, -, -, hle, hrest⟩ := Reads.split hahead hread
      rw [List.filter_append, List.length_append]
      rcases le_or_gt (key r) (place next) with hbefore | hafter
      · -- The row is on this page, and every later page is past it.
        have hrun : r ∈ run := by
          rcases List.mem_append.1 hin with hin | hin
          · exact hin
          · have hlt := WithBot.coe_lt_coe.1 ((hrest.mem r).1 hin).2
            exact absurd hlt (not_lt.2 hbefore)
        have hnone : (later.filter fun other => key other = key r) = [] := by
          refine filter_key_eq_nil fun other hother => ?_
          have hpast := walk_above hothers hlater other hother
          exact (lt_of_le_of_lt hbefore (WithBot.coe_lt_coe.1 hpast)).ne'
        rw [length_filter_key (List.pairwise_append.1 hahead.sorted).1 hrun, hnone]
        rfl
      · have hnone : (run.filter fun other => key other = key r) = [] :=
          filter_key_eq_nil fun other hother => (lt_of_le_of_lt (hle other hother) hafter).ne
        rw [hnone, ih hothers hlater (WithBot.coe_lt_coe.2 hafter)
          fun other hother => hstays other (List.mem_cons_of_mem _ hother)]
        rfl

end

end CopyPaste.Lib.Walk
