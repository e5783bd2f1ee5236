import Mathlib.Data.Prod.Lex
import Mathlib.Order.WithBot
import Mathlib.Data.String.Basic
import Mathlib.Data.List.Sort

/-!
Keyset pagination over an arbitrary linear order. A position is a stamp with an
optional tie-break; an absent tie-break lies before every row of its stamp. A
page is the first rows strictly above a boundary, in key order. A segment is a
run of rows with no stored row missing between its boundary and its last row,
which is what a loop over a page consumes one row at a time.
-/

namespace CopyPaste.Lib.Keyset

/-- A resumable position in a history ordered by stamp and then by identifier. -/
structure Position (ι : Type*) where
  createdAt : Int
  itemId : Option ι
  deriving DecidableEq, Repr

namespace Position

variable {ι : Type*}

def rank (p : Position ι) : Int ×ₗ WithBot ι :=
  toLex (p.createdAt, p.itemId.elim ⊥ WithBot.some)

theorem rank_injective : Function.Injective (rank (ι := ι)) := by
  rintro ⟨a, i⟩ ⟨b, j⟩ h
  simp only [rank, EmbeddingLike.apply_eq_iff_eq, Prod.mk.injEq] at h
  obtain ⟨rfl, h⟩ := h
  cases i <;> cases j <;> simp_all

instance [LinearOrder ι] : LinearOrder (Position ι) := LinearOrder.lift' rank rank_injective

variable [LinearOrder ι]

theorem lt_iff_rank (p q : Position ι) : p < q ↔ p.rank < q.rank := Iff.rfl

/-- Before a row means at an earlier stamp, or at its stamp with an absent or
smaller tie-break. -/
theorem lt_row_iff (p : Position ι) (stamp : Int) (row : ι) :
    p < ⟨stamp, some row⟩ ↔
      p.createdAt < stamp ∨ p.createdAt = stamp ∧ ∀ i ∈ p.itemId, i < row := by
  obtain ⟨a, i⟩ := p
  rw [lt_iff_rank]
  cases i with
  | none | some i => simp [rank, Prod.Lex.toLex_lt_toLex]

theorem createdAt_le_of_le {p q : Position ι} (h : p ≤ q) : p.createdAt ≤ q.createdAt := by
  rcases h.lt_or_eq with h | rfl
  · rw [lt_iff_rank, rank, rank, Prod.Lex.toLex_lt_toLex] at h
    rcases h with h | ⟨h, _⟩
    · exact h.le
    · exact h.le
  · exact le_rfl

theorem lt_of_createdAt_lt {p q : Position ι} (h : p.createdAt < q.createdAt) : p < q := by
  rw [lt_iff_rank, rank, rank, Prod.Lex.toLex_lt_toLex]
  exact Or.inl h

/-- The position of a bare stamp is the least one at that stamp. -/
theorem bare_le_iff (stamp : Int) (p : Position ι) :
    ⟨stamp, none⟩ ≤ p ↔ stamp ≤ p.createdAt := by
  refine ⟨fun h => createdAt_le_of_le h, fun h => ?_⟩
  by_contra hp
  rw [not_le] at hp
  have hstamp := createdAt_le_of_le hp.le
  have heq : p.createdAt = stamp := le_antisymm hstamp h
  rw [lt_iff_rank, rank, rank, Prod.Lex.toLex_lt_toLex] at hp
  simp [heq] at hp

theorem bare_lt_row (stamp : Int) (row : ι) : (⟨stamp, none⟩ : Position ι) < ⟨stamp, some row⟩ := by
  simp [lt_row_iff]

end Position

section Pages

variable {α P : Type*} [LinearOrder P] (key : α → P)

/-- The first rows strictly above a boundary, in key order. -/
def page (rows : List α) (since : P) (limit : Nat) : List α :=
  ((rows.filter fun r => since < key r).insertionSort fun a b => key a ≤ key b).take limit

/-- A run of rows above a boundary from which no stored row is missing. -/
structure Segment (rows : List α) (behind : P) (run : List α) : Prop where
  stored : ∀ r ∈ run, r ∈ rows
  above : ∀ r ∈ run, behind < key r
  sorted : run.Pairwise fun a b => key a < key b
  gapless : ∀ r ∈ rows, behind < key r → ∀ s ∈ run, key r ≤ key s → r ∈ run

variable {key} {rows : List α} {since behind : P} {limit : Nat} {run : List α}

private theorem sorted_filter (rows : List α) (since : P) :
    ((rows.filter fun r => since < key r).insertionSort fun a b => key a ≤ key b).Pairwise
      fun a b => key a ≤ key b := by
  have : IsTrans α fun a b => key a ≤ key b := ⟨fun _ _ _ => le_trans⟩
  have : Std.Total (fun a b : α => key a ≤ key b) := ⟨fun a b => le_total (key a) (key b)⟩
  exact List.pairwise_insertionSort _ _

theorem mem_page_iff_of_short (hshort : (page key rows since limit).length < limit) (r : α) :
    r ∈ page key rows since limit ↔ r ∈ rows ∧ since < key r := by
  unfold page at hshort ⊢
  rw [List.take_of_length_le]
  · simp
  · simp only [List.length_take] at hshort
    omega

/-- A page is a segment: every stored row up to its last one is on it. -/
theorem segment_page (hd : (rows.map key).Nodup) (since : P) (limit : Nat) :
    Segment key rows since (page key rows since limit) := by
  set kept := (rows.filter fun r => since < key r).insertionSort fun a b => key a ≤ key b
    with hkept
  have hmem : ∀ r, r ∈ kept ↔ r ∈ rows ∧ since < key r := by
    intro r
    simp [hkept]
  have hsorted : kept.Pairwise fun a b => key a < key b := by
    have hne : kept.Pairwise fun a b => key a ≠ key b := by
      have hsym : ∀ a b : α, key a ≠ key b → key b ≠ key a := fun _ _ h => h.symm
      refine ((List.perm_insertionSort _ _).pairwise_iff (fun {a b} => hsym a b)).2 ?_
      exact (List.pairwise_map.1 hd).sublist List.filter_sublist
    refine ((sorted_filter rows since).and hne).imp ?_
    rintro a b ⟨hle, hne⟩
    exact lt_of_le_of_ne hle hne
  have hpage : page key rows since limit = kept.take limit := rfl
  rw [hpage]
  constructor
  · intro r hr
    exact ((hmem r).1 (List.mem_of_mem_take hr)).1
  · intro r hr
    exact ((hmem r).1 (List.mem_of_mem_take hr)).2
  · exact hsorted.sublist (List.take_sublist _ _)
  · intro r hr hsince s hs hle
    have hin : r ∈ kept := (hmem r).2 ⟨hr, hsince⟩
    rw [← List.take_append_drop limit kept] at hin hsorted
    rcases List.mem_append.1 hin with htake | hdrop
    · exact htake
    · have hlt := (List.pairwise_append.1 hsorted).2.2 s hs r hdrop
      exact absurd hlt (not_lt.2 hle)

namespace Segment

variable {x : α}

/-- The head of a segment is the only stored row between the boundary and itself. -/
theorem head_unique (h : Segment key rows behind (x :: run)) {r : α} (hr : r ∈ rows)
    (hbehind : behind < key r) (hle : key r ≤ key x) : r = x := by
  have hmem := h.gapless r hr hbehind x (List.mem_cons_self) hle
  rcases List.mem_cons.1 hmem with heq | htail
  · exact heq
  · have hlt := (List.pairwise_cons.1 h.sorted).1 r htail
    exact absurd hlt (not_lt.2 hle)

theorem behind_lt_head (h : Segment key rows behind (x :: run)) : behind < key x :=
  h.above x List.mem_cons_self

theorem head_stored (h : Segment key rows behind (x :: run)) : x ∈ rows :=
  h.stored x List.mem_cons_self

/-- Consuming the head moves the boundary onto it. -/
theorem tail (h : Segment key rows behind (x :: run)) : Segment key rows (key x) run := by
  refine ⟨fun r hr => h.stored r (List.mem_cons_of_mem _ hr), ?_, (List.pairwise_cons.1 h.sorted).2,
    ?_⟩
  · exact (List.pairwise_cons.1 h.sorted).1
  · intro r hr hlt s hs hle
    have hmem := h.gapless r hr (lt_trans h.behind_lt_head hlt) s (List.mem_cons_of_mem _ hs) hle
    rcases List.mem_cons.1 hmem with heq | htail
    · subst heq
      exact absurd hlt (lt_irrefl _)
    · exact htail

theorem le_last (h : Segment key rows behind run) {r : α} (hr : r ∈ run) (default : P) :
    key r ≤ (run.getLast?.map key).getD default := by
  obtain ⟨last, hlast⟩ := Option.isSome_iff_exists.1
    (List.getLast?_isSome.2 (List.ne_nil_of_mem hr))
  obtain ⟨front, hfront⟩ := List.getLast?_eq_some_iff.1 hlast
  have hsorted := h.sorted
  rw [hlast, Option.map_some, Option.getD_some]
  rw [hfront] at hr hsorted
  rcases List.mem_append.1 hr with hin | hin
  · exact ((List.pairwise_append.1 hsorted).2.2 r hin last (by simp)).le
  · rw [List.mem_singleton.1 hin]

end Segment

end Pages

end CopyPaste.Lib.Keyset
