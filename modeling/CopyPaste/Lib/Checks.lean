import Mathlib.Data.List.Basic

/-!
Chains of steps that may fail: a chain succeeds where every step of it does.
-/

namespace CopyPaste.Lib.Checks

universe u v

variable {ε : Type v} {α β : Type u}

theorem bind_ok_iff {first : Except ε α} {next : α → Except ε β} {b : β} :
    (first >>= next) = .ok b ↔ ∃ a, first = .ok a ∧ next a = .ok b := by
  cases first with
  | error e | ok a => simp [bind, Except.bind]

theorem exists_unit {p : Unit → Prop} : (∃ a, p a) ↔ p () :=
  ⟨fun ⟨(), h⟩ => h, fun h => ⟨(), h⟩⟩

theorem forM_ok_iff {check : α → Except ε Unit} {xs : List α} :
    xs.forM check = .ok () ↔ ∀ x ∈ xs, check x = .ok () := by
  induction xs with
  | nil => simp [pure, Except.pure]
  | cons x xs ih =>
    have hcons : (x :: xs).forM check = (check x >>= fun _ => xs.forM check) := rfl
    rw [hcons, bind_ok_iff, exists_unit, ih, List.forall_mem_cons]

theorem pure_ok_iff {a b : α} : (pure a : Except ε α) = .ok b ↔ a = b :=
  ⟨fun h => Except.ok.inj h, fun h => congrArg _ h⟩

theorem mapError_ok_iff {ε' : Type v} {f : ε → ε'} {x : Except ε α} {a : α} :
    x.mapError f = .ok a ↔ x = .ok a := by
  cases x with
  | error e | ok b => simp [Except.mapError]

/-- A step behind a check that fails the chain. -/
theorem unless_ok_iff {p : Prop} [Decidable p] {error : ε} {next : Except ε α} {a : α} :
    (if p then ((throw error : Except ε PUnit) >>= fun _ => next) else next) = .ok a ↔
      ¬ p ∧ next = .ok a := by
  split
  · next hp => exact ⟨nofun, fun h => absurd hp h.1⟩
  · next hp => exact ⟨fun h => ⟨hp, h⟩, And.right⟩

end CopyPaste.Lib.Checks
