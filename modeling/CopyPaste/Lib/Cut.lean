import Mathlib

/-!
The shortest part at the front of a list that is enough, or all of the list where none
is. A count is enough once it is taken; a weight is enough once the running total has come
to it.
-/

namespace CopyPaste.Lib.Cut

variable {α : Type*}

/-- The shortest prefix that fits, or the list where no prefix does. -/
def Shortest (fits : List α → Prop) (list part : List α) : Prop :=
  part <+: list ∧ (fits part ∨ part = list) ∧
    ∀ other, other <+: list → other.length < part.length → ¬ fits other

variable {list : List α}

theorem Shortest.congr {fits fits' : List α → Prop} {part : List α} (h : Shortest fits list part)
    (hsame : ∀ other, other <+: list → (fits other ↔ fits' other)) : Shortest fits' list part := by
  obtain ⟨hpart, henough, hleast⟩ := h
  refine ⟨hpart, ?_, fun other hother hlength hfits =>
    hleast other hother hlength ((hsame other hother).2 hfits)⟩
  exact henough.imp (hsame part hpart).1 id

theorem shortest_nil {fits : List α → Prop} (h : fits [] ∨ list = []) : Shortest fits list [] :=
  ⟨List.nil_prefix, h.imp id Eq.symm, fun _ _ hlength => absurd hlength (Nat.not_lt_zero _)⟩

theorem shortest_take (list : List α) (count : ℕ) :
    Shortest (fun part => count ≤ part.length) list (list.take count) := by
  refine ⟨List.take_prefix _ _, ?_, fun other _ hlength henough => ?_⟩
  · rcases Nat.le_total count list.length with hle | hle
    · left
      show count ≤ (list.take count).length
      rw [List.length_take]
      omega
    · exact Or.inr (List.take_of_length_le hle)
  · rw [List.length_take] at hlength
    omega

/-- Each element with the total up to it. -/
def running (weight : α → ℕ) : ℕ → List α → List (α × ℕ)
  | _, [] => []
  | total, a :: rest => (a, total + weight a) :: running weight (total + weight a) rest

theorem weight_le_of_mem_running {weight : α → ℕ} {total : ℕ} {entry : α × ℕ}
    (h : entry ∈ running weight total list) : weight entry.1 ≤ entry.2 := by
  induction list generalizing total with
  | nil => cases h
  | cons a rest ih =>
    rcases List.mem_cons.1 h with rfl | hrest
    · exact Nat.le_add_left _ _
    · exact ih hrest

/-- The elements before which the total falls short of an amount. -/
def reached (weight : α → ℕ) (amount total : ℕ) (list : List α) : List α :=
  ((running weight total list).filter fun entry =>
    decide (entry.2 - weight entry.1 < amount)).map Prod.fst

theorem reached_of_le (weight : α → ℕ) {amount total : ℕ} (h : amount ≤ total) (list : List α) :
    reached weight amount total list = [] := by
  induction list generalizing total with
  | nil => rfl
  | cons a rest ih =>
    have hrest := ih (show amount ≤ total + weight a by omega)
    unfold reached at hrest ⊢
    rw [running, List.filter_cons_of_neg (by simpa using h)]
    exact hrest

/-- The running total cuts the list where it first comes to the amount. -/
theorem shortest_reached (weight : α → ℕ) (amount total : ℕ) (list : List α) :
    Shortest (fun part => amount ≤ total + (part.map weight).sum) list
      (reached weight amount total list) := by
  induction list generalizing total with
  | nil => exact shortest_nil (Or.inr rfl)
  | cons a rest ih =>
    rcases Nat.lt_or_ge total amount with hshort | henough
    · have hcons : reached weight amount total (a :: rest) =
          a :: reached weight amount (total + weight a) rest := by
        unfold reached
        rw [running, List.filter_cons_of_pos (by simpa using hshort)]
        rfl
      obtain ⟨hpart, hfits, hleast⟩ := ih (total + weight a)
      rw [hcons]
      refine ⟨(List.prefix_cons_inj a).2 hpart, ?_, fun other hother hlength hother' => ?_⟩
      · refine hfits.imp (fun h => ?_) (congrArg (a :: ·))
        simp only [List.map_cons, List.sum_cons] at h ⊢
        omega
      · cases other with
        | nil =>
          rw [List.map_nil, List.sum_nil] at hother'
          omega
        | cons b other =>
          obtain ⟨rfl, hprefix⟩ := List.cons_prefix_cons.1 hother
          rw [List.map_cons, List.sum_cons] at hother'
          refine hleast other hprefix ?_ (by omega)
          simpa using hlength
    · rw [reached_of_le weight henough]
      exact shortest_nil (Or.inl (by simpa using henough))

end CopyPaste.Lib.Cut
