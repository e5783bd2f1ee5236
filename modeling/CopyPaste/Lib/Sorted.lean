import Mathlib.Data.List.Nodup
import Mathlib.Data.List.Sort
import Mathlib.Order.OrderDual

/-!
Lists sorted by a key that has no ties. Such a list is the only sorted one of its
elements, a part of it is sorted alike, and the other direction is its reverse. The first
elements of two lists together are among the first of each.
-/

namespace CopyPaste.Lib.Sorted

variable {α K : Type*} [LinearOrder K] {key : α → K} {rows sorted : List α}

/-- Elements in the strict order of their keys are what sorting them gives. -/
theorem insertionSort_eq (hperm : sorted.Perm rows)
    (hsorted : sorted.Pairwise fun a b => key a < key b) :
    rows.insertionSort (fun a b => key a ≤ key b) = sorted := by
  have hsame : (rows.insertionSort fun a b => key a ≤ key b).Perm sorted :=
    (List.perm_insertionSort _ rows).trans hperm.symm
  refine List.Perm.eq_of_pairwise ?_ (List.pairwise_insertionSort _ _) (hsorted.imp le_of_lt) hsame
  intro a b ha hb hab hba
  have hapart : (sorted.map key).Nodup := List.pairwise_map.2 (hsorted.imp ne_of_lt)
  exact List.inj_on_of_nodup_map hapart (hsame.subset ha) hb (le_antisymm hab hba)

theorem insertionSort_sorted (hkeys : (rows.map key).Nodup) :
    (rows.insertionSort fun a b => key a ≤ key b).Pairwise fun a b => key a < key b := by
  have hle : (rows.insertionSort fun a b => key a ≤ key b).Pairwise fun a b => key a ≤ key b :=
    List.pairwise_insertionSort _ _
  have hne : (rows.insertionSort fun a b => key a ≤ key b).Pairwise fun a b => key a ≠ key b :=
    List.pairwise_map.1 (((List.perm_insertionSort _ rows).map key).nodup_iff.2 hkeys)
  exact (hle.and hne).imp fun h => lt_of_le_of_ne h.1 h.2

theorem insertionSort_filter (hkeys : (rows.map key).Nodup) (p : α → Bool) :
    (rows.filter p).insertionSort (fun a b => key a ≤ key b) =
      (rows.insertionSort fun a b => key a ≤ key b).filter p :=
  insertionSort_eq ((List.perm_insertionSort _ rows).filter p)
    ((insertionSort_sorted hkeys).filter p)

theorem insertionSort_reverse (hkeys : (rows.map key).Nodup) :
    rows.insertionSort (fun a b => key b ≤ key a) =
      (rows.insertionSort fun a b => key a ≤ key b).reverse := by
  have hdown : (rows.insertionSort fun a b => key a ≤ key b).reverse.Pairwise fun a b =>
      OrderDual.toDual (key a) < OrderDual.toDual (key b) :=
    List.pairwise_reverse.2 (insertionSort_sorted hkeys)
  have hperm : (rows.insertionSort fun a b => key a ≤ key b).reverse.Perm rows :=
    (List.reverse_perm _).trans (List.perm_insertionSort _ rows)
  exact insertionSort_eq hperm hdown

/-- The elements of the least keys, in order. -/
def firsts (key : α → K) (limit : ℕ) (rows : List α) : List α :=
  (rows.insertionSort fun a b => key a ≤ key b).take limit

theorem firsts_sublist (limit : ℕ) :
    (firsts key limit rows).Sublist (rows.insertionSort fun a b => key a ≤ key b) :=
  List.take_sublist _ _

variable {limit : ℕ} {row : α}

theorem mem_of_mem_firsts (h : row ∈ firsts key limit rows) : row ∈ rows :=
  (List.perm_insertionSort _ rows).subset ((firsts_sublist limit).subset h)

theorem firsts_sorted (hkeys : (rows.map key).Nodup) (limit : ℕ) :
    (firsts key limit rows).Pairwise fun a b => key a < key b :=
  (insertionSort_sorted hkeys).sublist (firsts_sublist limit)

theorem firsts_keys (hkeys : (rows.map key).Nodup) (limit : ℕ) :
    ((firsts key limit rows).map key).Nodup :=
  List.pairwise_map.2 ((firsts_sorted hkeys limit).imp ne_of_lt)

/-- Sorting what is sorted changes nothing. -/
theorem insertionSort_firsts (hkeys : (rows.map key).Nodup) (limit : ℕ) :
    (firsts key limit rows).insertionSort (fun a b => key a ≤ key b) = firsts key limit rows :=
  insertionSort_eq (List.Perm.refl _) (firsts_sorted hkeys limit)

private theorem mem_take_filter {p : α → Bool} {list : List α} (h : row ∈ list.take limit)
    (hp : p row = true) : row ∈ (list.filter p).take limit := by
  have hsplit : list.filter p = (list.take limit).filter p ++ (list.drop limit).filter p := by
    rw [← List.filter_append, List.take_append_drop]
  have hlength : ((list.take limit).filter p).length ≤ limit :=
    (List.length_filter_le _ _).trans (List.length_take_le _ _)
  rw [hsplit, List.take_append, List.take_of_length_le hlength]
  exact List.mem_append_left _ (List.mem_filter.2 ⟨h, hp⟩)

private theorem take_filter_of_mem {p : α → Bool} {list : List α}
    (h : ∀ row ∈ list.take limit, p row = true) : (list.filter p).take limit = list.take limit := by
  have hsplit : list.filter p = list.take limit ++ (list.drop limit).filter p := by
    nth_rewrite 1 [← List.take_append_drop limit list]
    rw [List.filter_append, List.filter_eq_self.2 h]
  rw [hsplit, List.take_append, List.length_take]
  rcases Nat.le_total limit list.length with hle | hle
  · rw [Nat.min_eq_left hle, Nat.sub_self, List.take_zero, List.append_nil, List.take_take,
      Nat.min_self]
  · rw [List.drop_of_length_le hle, List.filter_nil, List.take_nil, List.append_nil,
      List.take_take, Nat.min_self]

/-- A part of a list is sorted as it stands in the sorted list. -/
theorem insertionSort_part [DecidableEq α] {part : List α} (hkeys : (rows.map key).Nodup)
    (hdistinct : part.Nodup) (hpart : part ⊆ rows) :
    part.insertionSort (fun a b => key a ≤ key b) =
      (rows.insertionSort fun a b => key a ≤ key b).filter fun row => decide (row ∈ part) := by
  refine insertionSort_eq ?_ ((insertionSort_sorted hkeys).filter _)
  have hrows : (rows.insertionSort fun a b => key a ≤ key b).Nodup :=
    (List.perm_insertionSort _ rows).nodup_iff.2 hkeys.of_map
  refine (List.perm_ext_iff_of_nodup (hrows.filter _) hdistinct).2 fun row => ?_
  rw [List.mem_filter, (List.perm_insertionSort _ rows).mem_iff, decide_eq_true_eq]
  exact ⟨And.right, fun hrow => ⟨hpart hrow, hrow⟩⟩

private theorem mem_firsts_of_part [DecidableEq α] {part : List α} (hkeys : (rows.map key).Nodup)
    (hdistinct : part.Nodup) (hpart : part ⊆ rows) (h : row ∈ firsts key limit rows)
    (hrow : row ∈ part) : row ∈ firsts key limit part := by
  unfold firsts
  rw [insertionSort_part hkeys hdistinct hpart]
  exact mem_take_filter h (decide_eq_true hrow)

/-- The first elements of two lists together are those of the first of each. -/
theorem firsts_append_firsts {other : List α} (hkeys : ((rows ++ other).map key).Nodup)
    (limit : ℕ) :
    firsts key limit (firsts key limit rows ++ firsts key limit other) =
      firsts key limit (rows ++ other) := by
  classical
  have hrows : (rows ++ other).Nodup := hkeys.of_map
  have hboth := List.nodup_append.1 hrows
  have hparts := List.map_append ▸ hkeys
  set part := firsts key limit rows ++ firsts key limit other with hpart
  have hsub : part ⊆ rows ++ other := by
    intro row hrow
    exact List.mem_append.2 ((List.mem_append.1 hrow).imp mem_of_mem_firsts mem_of_mem_firsts)
  have hdistinct : part.Nodup := by
    refine List.nodup_append.2 ⟨(firsts_keys (List.nodup_append.1 hparts).1 limit).of_map,
      (firsts_keys (List.nodup_append.1 hparts).2.1 limit).of_map, fun a ha b hb => ?_⟩
    exact hboth.2.2 a (mem_of_mem_firsts ha) b (mem_of_mem_firsts hb)
  rw [firsts, insertionSort_part hkeys hdistinct hsub, firsts]
  refine take_filter_of_mem fun row hrow => decide_eq_true (List.mem_append.2 ?_)
  have hin : row ∈ rows ++ other := mem_of_mem_firsts hrow
  exact (List.mem_append.1 hin).imp
    (mem_firsts_of_part hkeys hboth.1 (List.subset_append_left _ _) hrow)
    (mem_firsts_of_part hkeys hboth.2.1 (List.subset_append_right _ _) hrow)

end CopyPaste.Lib.Sorted
