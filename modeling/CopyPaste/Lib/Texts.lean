import Mathlib.Data.Nat.Digits.Defs
import Mathlib.Data.String.Basic

/-!
Texts and what they measure: a decimal number ends where a colon stands, and a text of
one-byte characters has as many bytes as characters.
-/

namespace CopyPaste.Lib.Texts

/-- A number is read up to the colon after it. -/
theorem number_colon_inj {m n : Nat} {rest other : String}
    (h : toString m ++ ":" ++ rest = toString n ++ ":" ++ other) : m = n ∧ rest = other := by
  have hdigits : ∀ k : Nat, ∀ c ∈ (toString k).toList, c ≠ ':' := by
    intro k c hc hcolon
    rw [Nat.toString_eq_repr, Nat.toList_repr] at hc
    have hdigit := Nat.isDigit_of_mem_toDigits (by decide) (by decide) hc
    rw [hcolon] at hdigit
    cases hdigit
  have hlists := congrArg String.toList h
  simp only [String.toList_append] at hlists
  have htake : ∀ k : Nat, ∀ tail : List Char,
      ((toString k).toList ++ ":".toList ++ tail).takeWhile (· ≠ ':') = (toString k).toList := by
    intro k tail
    rw [List.append_assoc, List.takeWhile_append_of_pos fun c hc => by simpa using hdigits k c hc]
    simp
  have hnumber : (toString m).toList = (toString n).toList := by
    rw [← htake m rest.toList, ← htake n other.toList, hlists]
  have hm : m = n := by
    rw [Nat.toString_eq_repr, Nat.toString_eq_repr, Nat.toList_repr, Nat.toList_repr] at hnumber
    rw [← Nat.ofDigitChars_ten_toDigits (n := m), hnumber, Nat.ofDigitChars_ten_toDigits]
  subst hm
  exact ⟨rfl, String.append_right_inj _ |>.1 h⟩

theorem utf8Len_eq_length {text : List Char} (h : ∀ c ∈ text, c.utf8Size = 1) :
    String.utf8Len text = text.length := by
  induction text with
  | nil => rfl
  | cons c rest ih =>
    rw [String.utf8Len_cons, ih fun d hd => h d (List.mem_cons_of_mem _ hd), h c List.mem_cons_self]
    rfl

theorem length_le_utf8Len (text : List Char) : text.length ≤ String.utf8Len text := by
  induction text with
  | nil => exact Nat.le_refl _
  | cons c rest ih =>
    have hpos := c.utf8Size_pos
    rw [String.utf8Len_cons, List.length_cons]
    omega

end CopyPaste.Lib.Texts
