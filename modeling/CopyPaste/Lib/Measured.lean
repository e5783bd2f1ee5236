import Mathlib.Data.List.TakeWhile
import Mathlib.Logic.Function.Basic

/-!
Fields written after their lengths. The number of a field ends at a mark that no number
holds, so what stands behind it can be anything: as many fields are read back whatever
follows them.
-/

namespace CopyPaste.Lib.Measured

/-- Numbers written in an alphabet, and the mark that ends one. -/
structure Numerals (α : Type*) where
  write : ℕ → List α
  mark : α
  injective : Function.Injective write
  mark_not_mem : ∀ n, mark ∉ write n

variable {α : Type*} (numerals : Numerals α) (bar : α)

def field (body : List α) : List α :=
  bar :: (numerals.write body.length ++ numerals.mark :: body)

def fields (bodies : List (List α)) : List α :=
  bodies.flatMap (field numerals bar)

variable {numerals}

theorem Numerals.write_mark_inj {m n : ℕ} {rest other : List α}
    (h : numerals.write m ++ numerals.mark :: rest = numerals.write n ++ numerals.mark :: other) :
    m = n ∧ rest = other := by
  rcases List.append_eq_append_iff.1 h with ⟨gap, hn, hrest⟩ | ⟨gap, hm, hrest⟩
  · cases gap with
    | nil =>
      rw [List.append_nil] at hn
      rw [List.nil_append, List.cons_inj_right] at hrest
      exact ⟨numerals.injective hn.symm, hrest⟩
    | cons c gap =>
      rw [List.cons_append, List.cons.injEq] at hrest
      exact absurd (by simp [hn, hrest.1]) (numerals.mark_not_mem n)
  · cases gap with
    | nil =>
      rw [List.append_nil] at hm
      rw [List.nil_append, List.cons_inj_right] at hrest
      exact ⟨numerals.injective hm, hrest.symm⟩
    | cons c gap =>
      rw [List.cons_append, List.cons.injEq] at hrest
      exact absurd (by simp [hm, hrest.1]) (numerals.mark_not_mem m)

variable {bar}

theorem field_inj {body other rest tail : List α}
    (h : field numerals bar body ++ rest = field numerals bar other ++ tail) :
    body = other ∧ rest = tail := by
  simp only [field, List.cons_append, List.append_assoc, List.cons_inj_right] at h
  obtain ⟨hlength, hbodies⟩ := Numerals.write_mark_inj h
  exact List.append_inj hbodies hlength

theorem fields_inj {bodies others : List (List α)} {rest tail : List α}
    (hlength : bodies.length = others.length)
    (h : fields numerals bar bodies ++ rest = fields numerals bar others ++ tail) :
    bodies = others ∧ rest = tail := by
  induction bodies generalizing others with
  | nil =>
    cases others with
    | nil => exact ⟨rfl, h⟩
    | cons other others => cases hlength
  | cons body bodies ih =>
    cases others with
    | nil => cases hlength
    | cons other others =>
      simp only [fields, List.flatMap_cons, List.append_assoc] at h
      obtain ⟨rfl, hothers⟩ := field_inj h
      obtain ⟨rfl, htail⟩ := ih (Nat.succ.inj hlength) hothers
      exact ⟨rfl, htail⟩

end CopyPaste.Lib.Measured
