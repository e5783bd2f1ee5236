import Mathlib.Data.List.Basic

/-!
A list cut into pieces of one width, the last one shorter. The pieces by their index and
the pieces taken off one after another are the same, and any cut into non-empty parts
that are full but for the last is this one.
-/

namespace CopyPaste.Lib.Pieces

variable {α : Type*} (width : Nat)

/-- How many pieces a length takes. -/
def count (n : Nat) : Nat := (n + width - 1) / width

def piece (list : List α) (index : Nat) : List α := (list.drop (index * width)).take width

def pieces (list : List α) : List (List α) :=
  (List.range (count width list.length)).map (piece width list)

variable {width}

theorem count_zero (hwidth : 0 < width) : count width 0 = 0 := by
  unfold count
  exact Nat.div_eq_of_lt (by omega)

theorem count_pos (hwidth : 0 < width) {n : Nat} (hn : 0 < n) :
    count width n = count width (n - width) + 1 := by
  unfold count
  by_cases hle : n ≤ width
  · have hzero : n - width + width - 1 = width - 1 := by omega
    have hone : n + width - 1 = (n - 1) + width := by omega
    have hlast : width - 1 < width := by omega
    have hfirst : n - 1 < width := by omega
    rw [hzero, hone, Nat.add_div_right _ hwidth, Nat.div_eq_of_lt hlast, Nat.div_eq_of_lt hfirst]
  · have hnext : n + width - 1 = (n - width + width - 1) + width := by omega
    rw [hnext, Nat.add_div_right _ hwidth]

theorem lt_count_iff (hwidth : 0 < width) (n index : Nat) :
    index < count width n ↔ index * width < n := by
  unfold count
  rw [Nat.lt_iff_add_one_le, Nat.le_div_iff_mul_le hwidth, Nat.add_mul]
  omega

theorem length_piece (list : List α) (index : Nat) :
    (piece width list index).length = min width (list.length - index * width) := by
  simp [piece]

theorem pieces_nil (hwidth : 0 < width) : pieces width ([] : List α) = [] := by
  simp [pieces, count_zero hwidth]

/-- The first piece, and the pieces of the rest. -/
theorem pieces_eq_cons (hwidth : 0 < width) {list : List α} (h : list ≠ []) :
    pieces width list = list.take width :: pieces width (list.drop width) := by
  unfold pieces
  rw [List.length_drop, count_pos hwidth (List.length_pos_iff.2 h), List.range_succ_eq_map,
    List.map_cons, List.map_map]
  congr 1
  · simp [piece]
  · refine List.map_congr_left fun index _ => ?_
    unfold piece
    simp only [Function.comp_apply]
    rw [List.drop_drop]
    congr 2
    rw [Nat.succ_mul]
    omega

theorem flatten_pieces (hwidth : 0 < width) (list : List α) :
    (pieces width list).flatten = list := by
  induction hn : list.length using Nat.strongRecOn generalizing list with
  | ind n ih =>
    by_cases h : list = []
    · subst h
      simp [pieces_nil hwidth]
    · have hpos := List.length_pos_iff.2 h
      rw [pieces_eq_cons hwidth h, List.flatten_cons,
        ih (list.drop width).length (by rw [List.length_drop]; omega) _ rfl, List.take_append_drop]

/-- A cut into non-empty parts, full but for the last, is the cut into pieces. -/
theorem eq_pieces (hwidth : 0 < width) (parts : List (List α)) (hne : ∀ part ∈ parts, part ≠ [])
    (hle : ∀ part ∈ parts, part.length ≤ width)
    (hfull : ∀ part ∈ parts.dropLast, part.length = width) :
    parts = pieces width parts.flatten := by
  induction parts with
  | nil => simp [pieces_nil hwidth]
  | cons part rest ih =>
    have hpart : part ++ rest.flatten ≠ [] := by
      simp [hne part List.mem_cons_self]
    rw [List.flatten_cons, pieces_eq_cons hwidth hpart]
    cases rest with
    | nil =>
      have hlength := hle part List.mem_cons_self
      simp [List.take_of_length_le hlength, List.drop_eq_nil_of_le hlength, pieces_nil hwidth]
    | cons next rest =>
      have hlength : part.length = width := hfull part (by simp)
      have hrest := ih (fun other hother => hne other (List.mem_cons_of_mem _ hother))
        (fun other hother => hle other (List.mem_cons_of_mem _ hother))
        (fun other hother => hfull other (by
          rw [List.dropLast_cons_of_ne_nil (by simp)]
          exact List.mem_cons_of_mem _ hother))
      rw [List.take_append_of_le_length (by omega), List.take_of_length_le (by omega),
        List.drop_append_of_le_length (by omega), List.drop_eq_nil_of_le (by omega),
        List.nil_append, ← hrest]

theorem length_pieces (list : List α) : (pieces width list).length = count width list.length := by
  simp [pieces]

theorem getElem?_pieces (list : List α) {index : Nat} (h : index < count width list.length) :
    (pieces width list)[index]? = some (piece width list index) := by
  simp [pieces, h]

end CopyPaste.Lib.Pieces
