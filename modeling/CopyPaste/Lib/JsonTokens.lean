import CopyPaste.Lib.JsonText
import Mathlib

/-!
A spelling of the tokens: in a string the quote and the backslash stand behind a
backslash, a whole number is decimal, and a double is its rank with a fraction.
-/

namespace CopyPaste.Lib.JsonText

def escape (c : Char) : List Char :=
  if c = '\x22' ∨ c = '\\' then ['\\', c] else [c]

/-- Read to the closing quote; the flag says that a backslash stands before. -/
def unescape : Bool → List Char → Option (List Char × List Char)
  | _, [] => none
  | true, c :: rest => (unescape false rest).map fun (text, rest) => (c :: text, rest)
  | false, c :: rest =>
    if c = '\x22' then some ([], rest)
    else if c = '\\' then unescape true rest
    else (unescape false rest).map fun (text, rest) => (c :: text, rest)

theorem unescape_escape (text rest : List Char) :
    unescape false (text.flatMap escape ++ '\x22' :: rest) = some (text, rest) := by
  induction text with
  | nil => rw [List.flatMap_nil, List.nil_append, unescape, if_pos rfl]
  | cons c text ih =>
    rw [List.flatMap_cons, List.append_assoc]
    by_cases h : c = '\x22' ∨ c = '\\'
    · rw [escape, if_pos h, List.cons_append, List.cons_append, List.nil_append, unescape,
        if_neg (by decide), if_pos rfl, unescape, ih, Option.map_some]
    · rw [escape, if_neg h, List.cons_append, List.nil_append, unescape]
      rw [not_or] at h
      rw [if_neg h.1, if_neg h.2, ih, Option.map_some]

def digitOf (n : ℕ) : Char :=
  Char.ofNat (48 + n % 10)

/-- The decimal digits of a number below ten to the power of one more than the fuel. -/
def decimal : ℕ → ℕ → List Char
  | 0, n => [digitOf n]
  | fuel + 1, n => if n < 10 then [digitOf n] else decimal fuel (n / 10) ++ [digitOf n]

theorem decimal_succ (fuel n : ℕ) :
    decimal (fuel + 1) n = if n < 10 then [digitOf n] else decimal fuel (n / 10) ++ [digitOf n] :=
  rfl

def readDecimal (digits : List Char) : ℕ :=
  digits.foldl (fun value c => value * 10 + (c.toNat - 48)) 0

theorem toNat_digitOf (n : ℕ) : (digitOf n).toNat - 48 = n % 10 := by
  have hdigit : ∀ d < 10, (Char.ofNat (48 + d)).toNat - 48 = d := by decide
  exact hdigit _ (Nat.mod_lt _ (by omega))

theorem isDigit_digitOf (n : ℕ) : (digitOf n).isDigit = true := by
  have hdigit : ∀ d < 10, (Char.ofNat (48 + d)).isDigit = true := by decide
  exact hdigit _ (Nat.mod_lt _ (by omega))

theorem readDecimal_decimal {fuel n : ℕ} (h : n < 10 ^ (fuel + 1)) :
    readDecimal (decimal fuel n) = n := by
  induction fuel generalizing n with
  | zero =>
    have hmod : n % 10 = n := Nat.mod_eq_of_lt (by simpa using h)
    change readDecimal [digitOf n] = n
    simp [readDecimal, toNat_digitOf, hmod]
  | succ fuel ih =>
    rw [decimal_succ]
    split
    · have hmod : n % 10 = n := Nat.mod_eq_of_lt (by omega)
      simp [readDecimal, toNat_digitOf, hmod]
    · have hhigh : n / 10 < 10 ^ (fuel + 1) := by
        rw [Nat.div_lt_iff_lt_mul (by omega)]
        rw [Nat.pow_succ] at h
        exact h
      have hrest := ih hhigh
      unfold readDecimal at hrest ⊢
      rw [List.foldl_append, hrest, List.foldl_cons, List.foldl_nil, toNat_digitOf]
      omega

theorem all_isDigit_decimal (fuel n : ℕ) : ∀ c ∈ decimal fuel n, c.isDigit = true := by
  induction fuel generalizing n with
  | zero =>
    intro c hc
    change c ∈ [digitOf n] at hc
    rw [List.mem_singleton] at hc
    rw [hc]
    exact isDigit_digitOf n
  | succ fuel ih =>
    intro c hc
    rw [decimal_succ] at hc
    split at hc
    · rw [List.mem_singleton] at hc
      rw [hc]
      exact isDigit_digitOf n
    · rcases List.mem_append.1 hc with hc | hc
      · exact ih _ c hc
      · rw [List.mem_singleton] at hc
        rw [hc]
        exact isDigit_digitOf n

theorem exists_decimal (fuel n : ℕ) : ∃ c cs, decimal fuel n = c :: cs := by
  cases fuel with
  | zero => exact ⟨_, _, rfl⟩
  | succ fuel =>
    rw [decimal_succ]
    split
    · exact ⟨_, _, rfl⟩
    · cases decimal fuel (n / 10) with
      | nil | cons c cs => exact ⟨_, _, rfl⟩

def signed (value : Int) : List Char :=
  if value < 0 then '-' :: decimal 19 value.natAbs else decimal 19 value.natAbs

def fraction : List Char := ['.', '0']

/-- Digits and maybe a fraction. -/
def readUnsigned (text : List Char) : (ℕ × Bool) × List Char :=
  let value := readDecimal (text.takeWhile Char.isDigit)
  let rest := text.dropWhile Char.isDigit
  if fraction.isPrefixOf rest then ((value, true), rest.drop 2) else ((value, false), rest)

/-- A sign, digits and maybe a fraction. -/
def readSigned (text : List Char) : (Int × Bool) × List Char :=
  if text.head? = some '-' then
    let ((value, double), rest) := readUnsigned (text.drop 1)
    ((-value, double), rest)
  else
    let ((value, double), rest) := readUnsigned text
    ((value, double), rest)

theorem takeWhile_digits {digits tail : List Char} (hdigits : ∀ c ∈ digits, c.isDigit = true)
    (htail : ∀ c ∈ tail.head?, c.isDigit = false) :
    (digits ++ tail).takeWhile Char.isDigit = digits ∧
      (digits ++ tail).dropWhile Char.isDigit = tail := by
  rw [List.takeWhile_append_of_pos hdigits, List.dropWhile_append_of_pos hdigits]
  cases tail with
  | nil => simp
  | cons c tail =>
    have hc := htail c rfl
    simp [hc]

/-- What follows a number, with its fraction or without. -/
def tailOf (whole : Bool) (rest : List Char) : List Char :=
  if whole then rest else fraction ++ rest

variable {rest : List Char}

theorem tailOf_head (whole : Bool) (hrest : Ends rest) :
    ∀ c ∈ (tailOf whole rest).head?, c.isDigit = false := by
  intro c hc
  cases whole with
  | false =>
    obtain rfl : c = '.' := by simpa [tailOf, fraction, eq_comm] using hc
    decide
  | true => rcases hrest c hc with rfl | rfl | rfl <;> decide

theorem fraction_tailOf (whole : Bool) (hrest : Ends rest) :
    fraction.isPrefixOf (tailOf whole rest) = !whole := by
  cases whole with
  | false => exact List.isPrefixOf_iff_prefix.2 (List.prefix_append _ _)
  | true =>
    cases rest with
    | nil => rfl
    | cons c rest => rcases hrest c rfl with rfl | rfl | rfl <;> rfl

theorem readUnsigned_decimal {n : ℕ} (h : n < 10 ^ 20) (whole : Bool) (hrest : Ends rest) :
    readUnsigned (decimal 19 n ++ tailOf whole rest) = ((n, !whole), rest) := by
  obtain ⟨htake, hdrop⟩ := takeWhile_digits (all_isDigit_decimal 19 n) (tailOf_head whole hrest)
  rw [readUnsigned]
  simp only [htake, hdrop, @readDecimal_decimal 19 n h, fraction_tailOf whole hrest]
  cases whole <;> rfl

/-- A number is read back, with what follows it. -/
theorem readSigned_signed {value : Int} (h : value.natAbs < 10 ^ 20) (whole : Bool)
    {rest : List Char} (hrest : Ends rest) :
    readSigned (signed value ++ tailOf whole rest) = ((value, !whole), rest) := by
  have hread := readUnsigned_decimal h whole hrest
  unfold readSigned signed
  by_cases hnegative : value < 0
  · rw [if_pos hnegative, List.cons_append, List.head?_cons, if_pos rfl, List.drop_one,
      List.tail_cons, hread]
    have hvalue : -(value.natAbs : Int) = value := by omega
    simp only [hvalue]
  · obtain ⟨c, cs, hdecimal⟩ := exists_decimal 19 value.natAbs
    have hc : c.isDigit = true := all_isDigit_decimal 19 value.natAbs c (by simp [hdecimal])
    have hsign : ¬ (decimal 19 value.natAbs ++ tailOf whole rest).head? = some '-' := by
      rw [hdecimal, List.cons_append, List.head?_cons, Option.some.injEq]
      rintro rfl
      exact absurd hc (by decide)
    rw [if_neg hnegative, if_neg hsign, hread]
    have hvalue : (value.natAbs : Int) = value := by omega
    simp only [hvalue]

/-- The number of a value and whether it had a fraction. -/
def toNumber (value : Int) (double : Bool) : Option Number :=
  if double then
    if h : -0x7FF0000000000001 < value ∧ value < 0x7FF0000000000000 then
      h.elim fun low high => some (.double value low high)
    else none
  else if h : -2 ^ 63 ≤ value ∧ value < 2 ^ 64 then
    h.elim fun low high => some (.whole value low high)
  else none

/-- The reader makes of a number's text what `round` makes of the number. -/
def roundingTokens (round : Number → Number)
    (hwhole : ∀ value low high, round (.whole value low high) = .whole value low high) :
    Tokens where
  quote text := text.toList.flatMap escape ++ ['\x22']
  unquote text := (unescape false text).map fun (text, rest) => (String.ofList text, rest)
  digits
    | .whole value _ _ => signed value
    | .double rank _ _ => signed rank ++ fraction
  number text :=
    let ((value, double), rest) := readSigned text
    (toNumber value double).map fun number => (round number, rest)
  reread := round
  unquote_quote text rest := by
    rw [List.append_assoc, List.singleton_append, unescape_escape, Option.map_some]
    dsimp only
    rw [String.ofList_toList]
  quote_plain text hplain := by
    have hsame : text.toList.flatMap escape = text.toList.flatMap fun c => [c] := by
      refine List.flatMap_congr fun c hc => ?_
      have hpc := List.all_eq_true.1 hplain c hc
      rw [escape, if_neg]
      rintro (rfl | rfl)
      · exact absurd hpc (by decide)
      · exact absurd hpc (by decide)
    rw [hsame, List.flatMap_singleton']
  number_digits value rest hrest := by
    cases value with
    | whole value low high =>
      have hread := @readSigned_signed value (by omega) true rest hrest
      rw [tailOf, if_pos rfl] at hread
      simp only [hread, toNumber, Bool.not_true, Bool.false_eq_true, if_false]
      rw [dif_pos ⟨low, high⟩, Option.map_some]
    | double rank low high =>
      have hread := @readSigned_signed rank (by omega) false rest hrest
      rw [tailOf, if_neg (by decide), ← List.append_assoc] at hread
      simp only [hread, toNumber, Bool.not_false, if_true]
      rw [dif_pos ⟨low, high⟩, Option.map_some]
  reread_whole := hwhole
  digits_head value := by
    have hsigned : ∀ n : Int, ∃ c cs, signed n = c :: cs ∧ startsNumber c := by
      intro n
      unfold signed
      split
      · exact ⟨'-', _, rfl, by decide⟩
      · obtain ⟨c, cs, hdecimal⟩ := exists_decimal 19 n.natAbs
        have hc := all_isDigit_decimal 19 n.natAbs c (by simp [hdecimal])
        exact ⟨c, cs, hdecimal, by simp [startsNumber, hc]⟩
    cases value with
    | whole value low high => exact hsigned value
    | double rank low high =>
      obtain ⟨c, cs, hdigits, hc⟩ := hsigned rank
      refine ⟨c, cs ++ fraction, ?_, hc⟩
      dsimp only
      rw [hdigits, List.cons_append]

def plainTokens : Tokens := roundingTokens id fun _ _ _ => rfl

theorem plainTokens_faithful : plainTokens.Faithful := fun _ => rfl

end CopyPaste.Lib.JsonText
