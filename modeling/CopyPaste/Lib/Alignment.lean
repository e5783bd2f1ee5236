import Mathlib.Tactic.Common

/-!
The distance between prefixes of two words when a letter may be deleted, inserted or
replaced and two adjacent letters may be swapped, no letter being touched twice: the table
of optimal string alignment. A step along a row, a column or the diagonal changes it by one
at most, so a row that is all above a bound keeps every later row above it.
-/

namespace CopyPaste.Lib.Alignment

variable {α : Type*} [DecidableEq α] (query word : List α)

/-- The distance of the first letters of a query to the first of a word. -/
def table : ℕ → ℕ → ℕ
  | 0, j => j
  | i + 1, 0 => i + 1
  | i + 1, j + 1 =>
    let plain := min (min (table i (j + 1) + 1) (table (i + 1) j + 1))
      (table i j + if query[i]? = word[j]? then 0 else 1)
    if 0 < i ∧ 0 < j ∧ query[i]? = word[j - 1]? ∧ query[i - 1]? = word[j]? then
      min plain (table (i - 1) (j - 1) + 1)
    else plain
  termination_by i j => (i, j)

def distance : ℕ := table query word query.length word.length

@[simp]
theorem table_zero (j : ℕ) : table query word 0 j = j := by
  rw [table]

@[simp]
theorem table_column (i : ℕ) : table query word i 0 = i := by
  cases i with
  | zero | succ => rw [table]

theorem table_succ (i j : ℕ) :
    table query word (i + 1) (j + 1) =
      (let plain := min (min (table query word i (j + 1) + 1) (table query word (i + 1) j + 1))
        (table query word i j + if query[i]? = word[j]? then 0 else 1)
      if 0 < i ∧ 0 < j ∧ query[i]? = word[j - 1]? ∧ query[i - 1]? = word[j]? then
        min plain (table query word (i - 1) (j - 1) + 1)
      else plain) := by
  rw [table]

theorem table_le_steps (i j : ℕ) :
    table query word (i + 1) (j + 1) ≤ table query word i (j + 1) + 1 ∧
      table query word (i + 1) (j + 1) ≤ table query word (i + 1) j + 1 ∧
      table query word (i + 1) (j + 1) ≤ table query word i j + 1 := by
  rw [table_succ]
  dsimp only
  split <;> split <;> omega

/-- The distance is at least the difference of the lengths. -/
theorem le_table (i j : ℕ) : i ≤ table query word i j + j ∧ j ≤ table query word i j + i := by
  fun_induction table query word i j with
  | case1 | case2 => omega
  | case3 i j plain hswap habove hbeside hcorner hswapped
  | case4 i j plain hswap habove hbeside hcorner =>
    dsimp only [plain]
    split <;> omega

/-- A row lies at most one above the row before it, so what exceeds a bound goes on to. -/
theorem row_exceeds {bound width i : ℕ} (h : ∀ j ≤ width, bound < table query word i j)
    (k j : ℕ) (hj : j ≤ width) : bound < table query word (i + k) j := by
  induction k generalizing j with
  | zero => exact h j hj
  | succ k ih =>
    induction j with
    | zero =>
      have hcolumn := ih 0 hj
      rw [table_column] at hcolumn ⊢
      omega
    | succ j ihj =>
      have habove := ih (j + 1) hj
      have hbeside := ihj (by omega)
      have hcorner := ih j (by omega)
      rw [← Nat.add_assoc] at hbeside ⊢
      rw [table_succ]
      dsimp only
      split
      · -- a swap starts two rows back, one step along the diagonal from the row before
        rename_i hswap
        have hdiagonal := (table_le_steps query word (i + k - 1) (j - 1)).2.2
        rw [Nat.sub_add_cancel hswap.1, Nat.sub_add_cancel hswap.2.1] at hdiagonal
        split <;> omega
      · split <;> omega

/-- The letters further on have no part in it. -/
theorem table_take (width i j : ℕ) (hj : j ≤ width) :
    table query (word.take width) i j = table query word i j := by
  fun_induction table query word i j with
  | case1 j => rw [table_zero]
  | case2 i => rw [table_column]
  | case3 i j plain hswap habove hbeside hcorner hswapped =>
    rw [table_succ, habove hj, hbeside (by omega), hcorner (by omega), hswapped (by omega),
      List.getElem?_take_of_lt (by omega), List.getElem?_take_of_lt (by omega), if_pos hswap]
    rfl
  | case4 i j plain hswap habove hbeside hcorner =>
    rw [table_succ, habove hj, hbeside (by omega), hcorner (by omega),
      List.getElem?_take_of_lt (by omega), List.getElem?_take_of_lt (by omega)]
    exact if_neg hswap

theorem distance_take {width : ℕ} (h : width ≤ word.length) :
    distance query (word.take width) = table query word query.length width := by
  unfold distance
  rw [List.length_take, Nat.min_eq_left h]
  exact table_take query word width query.length width (Nat.le_refl _)

end CopyPaste.Lib.Alignment
