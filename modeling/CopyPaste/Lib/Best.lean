import Mathlib.Order.Lattice
import Mathlib.Order.Defs.LinearOrder
import Mathlib.Data.List.Basic

/-!
The better of two optional values, by a rank; of two of the same rank the first is
kept. Three values in two orders give the same one where the rank tells the last two
apart, and a requirement that holds of everything better may be asked before or after.
-/

namespace CopyPaste.Lib.Best

variable {α ρ : Type*} [LinearOrder ρ] (rank : α → ρ)

def best : Option α → Option α → Option α
  | none, second => second
  | some first, none => some first
  | some first, some second => if rank second ≤ rank first then some first else some second

@[simp] theorem none_best (second : Option α) : best rank none second = second := rfl

@[simp] theorem best_none (first : Option α) : best rank first none = first := by
  cases first <;> rfl

theorem best_isSome (first second : Option α) :
    (best rank first second).isSome = (first.isSome || second.isSome) := by
  cases first with
  | none => simp
  | some first =>
    cases second with
    | none => rfl
    | some second =>
      simp only [best]
      split <;> rfl

theorem best_eq_some {first second : Option α} {value : α} (h : best rank first second = some value) :
    first = some value ∨ second = some value := by
  cases first with
  | none => exact Or.inr h
  | some a =>
    cases second with
    | none => exact Or.inl h
    | some b =>
      simp only [best] at h
      split at h
      · exact Or.inl h
      · exact Or.inr h

/-- Of a run of values one that is not below any of them is kept. -/
theorem foldl_best {given : List α} {first : Option α} {kept : α}
    (h : given.foldl (fun kept value => best rank kept (some value)) first = some kept) :
    (first = some kept ∨ kept ∈ given) ∧ (∀ value ∈ first, rank value ≤ rank kept) ∧
      ∀ value ∈ given, rank value ≤ rank kept := by
  induction given generalizing first with
  | nil =>
    refine ⟨Or.inl h, fun value hvalue => ?_, by simp⟩
    rw [List.foldl_nil, Option.mem_def.1 hvalue] at h
    rw [Option.some.inj h]
  | cons value rest ih =>
    obtain ⟨hfrom, hfirst, hrest⟩ := ih h
    have hbest : ∃ better, best rank first (some value) = some better ∧
        (first = some better ∨ better = value) ∧ rank value ≤ rank better ∧
        ∀ other ∈ first, rank other ≤ rank better := by
      cases first with
      | none => exact ⟨value, rfl, Or.inr rfl, le_rfl, by simp⟩
      | some held =>
        by_cases hle : rank value ≤ rank held
        · refine ⟨held, by simp [best, hle], Or.inl rfl, hle, fun other hother => ?_⟩
          rw [Option.some.inj hother]
        · refine ⟨value, by simp [best, hle], Or.inr rfl, le_rfl, fun other hother => ?_⟩
          rw [← Option.some.inj hother]
          exact (not_le.1 hle).le
    obtain ⟨better, hbetter, hcame, hvalue, hheld⟩ := hbest
    have hle := hfirst better hbetter
    refine ⟨?_, fun other hother => le_trans (hheld other hother) hle, ?_⟩
    · rcases hfrom with hkept | hkept
      · obtain rfl : better = kept := Option.some.inj (hbetter.symm.trans hkept)
        rcases hcame with hcame | rfl
        · exact Or.inl hcame
        · exact Or.inr List.mem_cons_self
      · exact Or.inr (List.mem_cons_of_mem _ hkept)
    · intro other hother
      rcases List.mem_cons.1 hother with rfl | hother
      · exact le_trans hvalue hle
      · exact hrest other hother

theorem foldl_best_isSome (given : List α) (first : Option α) :
    (given.foldl (fun kept value => best rank kept (some value)) first).isSome =
      (first.isSome || !given.isEmpty) := by
  induction given generalizing first with
  | nil => simp
  | cons value rest ih =>
    rw [List.foldl_cons, ih, best_isSome]
    simp

/-- The order of the last two does not matter where the rank tells them apart. -/
theorem best_right_comm {first second third : Option α}
    (h : ∀ a b, second = some a → third = some b → rank a = rank b → a = b) :
    best rank (best rank first second) third = best rank (best rank first third) second := by
  cases second with
  | none => simp
  | some b =>
  cases third with
  | none => simp
  | some c =>
  have hapart : rank b = rank c → b = c := h b c rfl rfl
  cases first with
  | none =>
    simp only [best]
    rcases lt_trichotomy (rank b) (rank c) with hlt | heq | hgt
    · rw [if_neg (not_le.2 hlt), if_pos (le_of_lt hlt)]
    · rw [if_pos (le_of_eq heq.symm), if_pos (le_of_eq heq), hapart heq]
    · rw [if_pos (le_of_lt hgt), if_neg (not_le.2 hgt)]
  | some a =>
    by_cases hb : rank b ≤ rank a
    · by_cases hc : rank c ≤ rank a
      · simp [best, hb, hc]
      · have hbc : rank b ≤ rank c := le_trans hb (le_of_lt (not_le.1 hc))
        simp [best, hb, hc, hbc]
    · by_cases hc : rank c ≤ rank a
      · have hcb : rank c ≤ rank b := le_trans hc (le_of_lt (not_le.1 hb))
        simp [best, hb, hc, hcb]
      · simp only [best, hb, hc, if_false]
        rcases lt_trichotomy (rank b) (rank c) with hlt | heq | hgt
        · rw [if_neg (not_le.2 hlt), if_pos (le_of_lt hlt)]
        · rw [if_pos (le_of_eq heq.symm), if_pos (le_of_eq heq), hapart heq]
        · rw [if_pos (le_of_lt hgt), if_neg (not_le.2 hgt)]

theorem best_best_self (first second : Option α) :
    best rank (best rank first second) second = best rank first second := by
  cases second with
  | none => simp
  | some b =>
  cases first with
  | none => simp [best]
  | some a =>
    by_cases h : rank b ≤ rank a
    · simp [best, h]
    · simp [best, h]

/-- A requirement on the better one is a requirement on both. -/
theorem filter_best {p : α → Bool} (hp : ∀ a b, rank b ≤ rank a → p b = true → p a = true)
    (first second : Option α) :
    (best rank first second).filter p = best rank (first.filter p) (second.filter p) := by
  cases first with
  | none => simp
  | some a =>
  cases second with
  | none => simp
  | some b =>
  by_cases h : rank b ≤ rank a
  · cases ha : p a with
    | true => cases hb : p b <;> simp [best, h, ha, hb, Option.filter]
    | false =>
      have hb : p b = false := by
        by_contra hb
        rw [hp a b h (by simpa using hb)] at ha
        simp at ha
      simp [best, h, ha, hb, Option.filter]
  · cases hb : p b with
    | true => cases ha : p a <;> simp [best, h, ha, hb, Option.filter]
    | false =>
      have ha : p a = false := by
        by_contra ha
        rw [hp b a (le_of_lt (not_le.1 h)) (by simpa using ha)] at hb
        simp at hb
      simp [best, h, ha, hb, Option.filter]

end CopyPaste.Lib.Best
