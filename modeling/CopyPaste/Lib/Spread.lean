import Mathlib.Data.Set.Insert
import Mathlib.Order.Lattice
import Mathlib.Order.MinMax

/-!
Values that spread between parties by pairwise exchanges, where the receiver keeps the
greater of the two. Whatever the order of the exchanges, a party has the greatest of
the first values that have come to it, directly or through others.
-/

namespace CopyPaste.Lib.Spread

variable {ι K : Type*} [DecidableEq ι]

/-- The second party learns what the first one knows. -/
def tell (known : ι → Set ι) (step : ι × ι) : ι → Set ι :=
  Function.update known step.2 (known step.2 ∪ known step.1)

/-- Whose first values have come to a party. -/
def heard (steps : List (ι × ι)) : ι → Set ι :=
  steps.foldl tell fun i => {i}

variable [LinearOrder K]

/-- The second party keeps the greater value. -/
def join (state : ι → K) (step : ι × ι) : ι → K :=
  Function.update state step.2 (max (state step.2) (state step.1))

structure Greatest (start : ι → K) (known : Set ι) (value : K) : Prop where
  own : ∃ j ∈ known, value = start j
  most : ∀ j ∈ known, start j ≤ value

variable {start : ι → K}

omit [DecidableEq ι] in
theorem Greatest.max {known other : Set ι} {value more : K} (h : Greatest start known value)
    (hmore : Greatest start other more) : Greatest start (known ∪ other) (max value more) := by
  refine ⟨?_, ?_⟩
  · rcases max_choice value more with hmax | hmax
    · obtain ⟨j, hj, heq⟩ := h.own
      exact ⟨j, Or.inl hj, hmax.trans heq⟩
    · obtain ⟨j, hj, heq⟩ := hmore.own
      exact ⟨j, Or.inr hj, hmax.trans heq⟩
  · rintro j (hj | hj)
    · exact (h.most j hj).trans (le_max_left _ _)
    · exact (hmore.most j hj).trans (le_max_right _ _)

theorem greatest_join {state : ι → K} {known : ι → Set ι}
    (h : ∀ i, Greatest start (known i) (state i)) (step : ι × ι) (i : ι) :
    Greatest start (tell known step i) (join state step i) := by
  unfold tell join
  by_cases hi : i = step.2
  · subst hi
    rw [Function.update_self, Function.update_self]
    exact (h step.2).max (h step.1)
  · rw [Function.update_of_ne hi, Function.update_of_ne hi]
    exact h i

/-- Every party has the greatest value it has heard of. -/
theorem greatest_heard (start : ι → K) (steps : List (ι × ι)) (i : ι) :
    Greatest start (heard steps i) (steps.foldl join start i) := by
  suffices hrun : ∀ (known : ι → Set ι) (state : ι → K),
      (∀ i, Greatest start (known i) (state i)) →
        ∀ i, Greatest start (steps.foldl tell known i) (steps.foldl join state i) by
    refine hrun (fun i => {i}) start (fun i => ⟨⟨i, rfl, rfl⟩, ?_⟩) i
    rintro j rfl
    exact le_rfl
  induction steps with
  | nil => exact fun known state h => h
  | cons step rest ih => exact fun known state h => ih _ _ (greatest_join h step)

omit [DecidableEq ι] in
/-- Two parties that have heard of everybody have the same. -/
theorem Greatest.unique {value other : K} (h : Greatest start Set.univ value)
    (hother : Greatest start Set.univ other) : value = other := by
  obtain ⟨j, -, rfl⟩ := h.own
  obtain ⟨k, -, rfl⟩ := hother.own
  exact le_antisymm (hother.most j trivial) (h.most k trivial)

end CopyPaste.Lib.Spread
