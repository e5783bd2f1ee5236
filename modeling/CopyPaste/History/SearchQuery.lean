import CopyPaste.Merge.Payload
import Mathlib.Data.List.Basic

/-!
Search queries. User input is turned into a conjunction of terms for the full-text
index, and the conjunction is taken apart again where terms are widened. A term is a
bareword with one star behind it or a quoted phrase, so nothing the user typed is read
as grammar.
-/

namespace CopyPaste.History.SearchQuery

open Merge.Payload (trim isWhitespace)

/-- The letters and digits of Unicode: on ASCII what they are there, and never a space. -/
structure Tables where
  isAlphanumeric : Char → Bool
  ascii : ∀ c : Char, c.toNat < 128 → isAlphanumeric c = c.isAlphanum
  not_whitespace : ∀ c, isAlphanumeric c = true → isWhitespace c = false

variable (tables : Tables)

def isUnicode61TokenChar (c : Char) : Bool :=
  tables.isAlphanumeric c || decide (0xE000 ≤ c.toNat ∧ c.toNat ≤ 0xF8FF) ||
    decide (0xF0000 ≤ c.toNat ∧ c.toNat ≤ 0xFFFFD)

/-- Marks that continue a token and do not start one. -/
def isUnicode61Diacritic (c : Char) : Bool :=
  let code := c.toNat
  if 0x0300 ≤ code ∧ code ≤ 0x031F then Nat.testBit 0x08029FDF (code - 0x0300)
  else if 0x0320 ≤ code ∧ code ≤ 0x0331 then Nat.testBit 0x000361F8 (code - 0x0320)
  else false

def reserved : List (List Char) :=
  [['N', 'O', 'T'], ['O', 'R'], ['A', 'N', 'D'], ['N', 'E', 'A', 'R']]

def eqIgnoreAsciiCase (word token : List Char) : Bool :=
  word.map Char.toLower = token.map Char.toLower

def isReserved (token : List Char) : Bool :=
  reserved.any (eqIgnoreAsciiCase · token)

def hasTokenChar (text : List Char) : Bool :=
  text.any (isUnicode61TokenChar tables)

def cleanChar (c : Char) : Char :=
  if c = '-' then ' '
  else if isUnicode61TokenChar tables c || isUnicode61Diacritic c || c = '_' || c = '\x22' ||
      c = '*' || c = ' ' || c = '\t' then c
  else ' '

/-- What separates the terms outside phrases. -/
def separates (c : Char) : Bool :=
  isWhitespace c || c = '_' || c = '*'

def pushUnquotedTokens (raw : List Char) : List (List Char) :=
  (((raw.splitOnP separates).filter (hasTokenChar tables)).filter (!isReserved ·)).map (· ++ ['*'])

def quoted (phrase : List Char) : List Char :=
  '\x22' :: (phrase ++ ['\x22'])

def isQuote (c : Char) : Bool := c = '\x22'

theorem length_tail_dropWhile (text : List Char) :
    (text.dropWhile (!isQuote ·)).tail.length ≤ text.length := by
  have hsuffix := (List.tail_suffix _).trans (List.dropWhile_suffix (l := text) (!isQuote ·))
  exact hsuffix.length_le

/-- The terms of a cleaned text, with what stood outside phrases before it. -/
def extract (text outside : List Char) : List (List Char) :=
  match text with
  | [] => pushUnquotedTokens tables outside
  | c :: rest =>
    if c ≠ '\x22' then extract rest (outside ++ [c])
    else
      let phrase := trim (rest.takeWhile (!isQuote ·))
      let after := (rest.dropWhile (!isQuote ·)).tail
      pushUnquotedTokens tables outside ++
        if hasTokenChar tables phrase then
          if after.head? = some '*' then (quoted phrase ++ ['*']) :: extract after.tail []
          else quoted phrase :: extract after []
        else extract after []
termination_by text.length
decreasing_by
  all_goals
    have hlength := length_tail_dropWhile rest
    simp only [List.length_cons, List.length_tail] at hlength ⊢
    omega

/-- The terms with the operator between them. -/
def join : List (List Char) → List Char
  | [] => []
  | term :: terms => term ++ terms.flatMap ([' ', 'A', 'N', 'D', ' '] ++ ·)

def countQuotes (text : List Char) : ℕ :=
  text.countP isQuote

def sanitizeFts5Query (raw : List Char) : Option (List Char) :=
  let cleaned := trim (raw.map (cleanChar tables))
  if cleaned = [] then none
  else
    let cleaned :=
      if countQuotes cleaned % 2 = 1 then trim (cleaned.filter (!isQuote ·)) else cleaned
    if cleaned = [] then none
    else
      let tokens := extract tables cleaned []
      if tokens = [] then none else some (join tokens)

/-- A part of a text, if it is one. -/
def slice (text : List Char) (start stop : ℕ) : Option (List Char) :=
  if start ≤ stop then some ((text.drop start).take (stop - start)) else none

/-- The parts of an expression from a position on; a slice with its end before its start
stops the program. -/
def queryPartsFrom (text : List Char) : List Char → ℕ → Bool → ℕ → Option (List (List Char))
  | [], _, _, start => (slice text start text.length).map fun part => [part]
  | c :: rest, index, inside, start =>
    if c = '\x22' then queryPartsFrom text rest (index + 1) (!inside) start
    else if !inside && [' ', 'A', 'N', 'D', ' '].isPrefixOf (c :: rest) then do
      let part ← slice text start index
      let parts ← queryPartsFrom text rest (index + 1) inside (index + 5)
      return part :: parts
    else queryPartsFrom text rest (index + 1) inside start

def queryParts (expression : List Char) : Option (List (List Char)) :=
  queryPartsFrom expression expression 0 false 0

/-- A character of a bareword. -/
def isWord (c : Char) : Bool :=
  isUnicode61TokenChar tables c || isUnicode61Diacritic c

/-- A bareword of token characters and marks with a star behind it, or a phrase. -/
inductive Term : List Char → Prop
  | bareword (word : List Char) (chars : ∀ c ∈ word, isWord tables c = true)
    (token : hasTokenChar tables word = true) (plain : isReserved word = false) :
    Term (word ++ ['*'])
  | phrase (text : List Char) (star : Bool) (chars : ∀ c ∈ text, cleanChar tables c = c)
    (unquoted : ∀ c ∈ text, c ≠ '"') (trimmed : trim text = text)
    (token : hasTokenChar tables text = true) :
    Term (quoted text ++ if star then ['*'] else [])

variable {tables}

variable {c : Char} {term text rest : List Char} {terms : List (List Char)}

theorem isWord_ascii (hascii : c.toNat < 128) : isWord tables c = c.isAlphanum := by
  have hdiacritic : isUnicode61Diacritic c = false := by
    unfold isUnicode61Diacritic
    dsimp only
    rw [if_neg (by omega), if_neg (by omega)]
  unfold isWord isUnicode61TokenChar
  rw [tables.ascii c hascii, hdiacritic, decide_eq_false (by omega), decide_eq_false (by omega)]
  simp only [Bool.or_false]

theorem ne_of_isWord {d : Char} (h : isWord tables c = true) (hascii : d.toNat < 128)
    (hd : d.isAlphanum = false) : c ≠ d := by
  rintro rfl
  rw [isWord_ascii hascii, hd] at h
  cases h

theorem not_whitespace_of_isWord (h : isWord tables c = true) : isWhitespace c = false := by
  have hrange : ∀ {low high : ℕ}, low ≤ c.toNat ∧ c.toNat ≤ high →
      0x300 ≤ low ∧ high ≤ 0x331 ∨ 0xE000 ≤ low → isWhitespace c = false := by
    intro low high hc hlow
    unfold isWhitespace
    simp only [Bool.or_eq_false_iff, decide_eq_false_iff_not, beq_eq_false_iff_ne, ne_eq]
    omega
  unfold isWord isUnicode61TokenChar at h
  simp only [Bool.or_eq_true, decide_eq_true_eq] at h
  rcases h with ((halpha | hprivate) | hplane) | hdiacritic
  · exact tables.not_whitespace c halpha
  · exact hrange hprivate (Or.inr (by omega))
  · exact hrange hplane (Or.inr (by omega))
  · unfold isUnicode61Diacritic at hdiacritic
    dsimp only at hdiacritic
    split at hdiacritic
    · next hcode => exact hrange hcode (Or.inl (by omega))
    · split at hdiacritic
      · next hcode => exact hrange hcode (Or.inl (by omega))
      · cases hdiacritic

theorem not_separates_of_isWord (h : isWord tables c = true) : separates c = false := by
  unfold separates
  rw [not_whitespace_of_isWord h,
    decide_eq_false (ne_of_isWord h (by decide : ('_' : Char).toNat < 128) (by decide)),
    decide_eq_false (ne_of_isWord h (by decide : ('*' : Char).toNat < 128) (by decide))]
  rfl

theorem cleanChar_of_isWord (h : isWord tables c = true) : cleanChar tables c = c := by
  have hdash : c ≠ '-' := ne_of_isWord h (by decide) (by decide)
  unfold isWord at h
  unfold cleanChar
  simp only [if_neg hdash, h, Bool.true_or, if_true]

theorem cleanChar_cleanChar (c : Char) : cleanChar tables (cleanChar tables c) = cleanChar tables c := by
  have hspace : cleanChar tables ' ' = ' ' := by
    unfold cleanChar
    rw [if_neg (by decide)]
    split <;> rfl
  by_cases hc : cleanChar tables c = c
  · rw [hc, hc]
  · have hblank : cleanChar tables c = ' ' := by
      unfold cleanChar at hc ⊢
      split
      · rfl
      · next hdash =>
        rw [if_neg hdash] at hc
        split
        · next hkept => exact absurd (if_pos hkept) hc
        · rfl
    rw [hblank, hspace]

/-- What is left between quotes, spaces and stars is a bareword. -/
theorem isWord_of_clean (hclean : cleanChar tables c = c) (hquote : c ≠ '"')
    (hsep : separates c = false) : isWord tables c = true := by
  have hspace : c ≠ ' ' := by
    rintro rfl
    cases hsep
  have htab : c ≠ '	' := by
    rintro rfl
    cases hsep
  unfold separates at hsep
  simp only [Bool.or_eq_false_iff, decide_eq_false_iff_not] at hsep
  unfold cleanChar at hclean
  split at hclean
  · exact absurd hclean.symm hspace
  · split at hclean
    · next hkept =>
      simp only [Bool.or_eq_true, decide_eq_true_eq, hsep, hquote, hspace, htab, or_false] at hkept
      unfold isWord
      rw [Bool.or_eq_true]
      exact hkept
    · exact absurd hclean.symm hspace

theorem mem_splitOnP {α : Type} {p : α → Bool} {text piece : List α}
    (h : piece ∈ text.splitOnP p) : ∀ c ∈ piece, c ∈ text ∧ p c = false := by
  induction text generalizing piece with
  | nil =>
    rw [List.splitOnP_nil, List.mem_singleton] at h
    rw [h]
    intro c hc
    cases hc
  | cons d text ih =>
    rw [List.splitOnP_cons_eq_if_modifyHead] at h
    split at h
    · rcases List.mem_cons.1 h with rfl | h
      · intro c hc
        cases hc
      · exact fun c hc => ⟨List.mem_cons_of_mem _ (ih h c hc).1, (ih h c hc).2⟩
    · next hd =>
      cases hpieces : text.splitOnP p with
      | nil => exact absurd hpieces (List.splitOnP_ne_nil p text)
      | cons first pieces =>
        rw [hpieces, List.modifyHead_cons] at h
        rcases List.mem_cons.1 h with rfl | h
        · intro c hc
          rcases List.mem_cons.1 hc with rfl | hc
          · exact ⟨List.mem_cons_self, Bool.eq_false_iff.2 hd⟩
          · have hfirst := ih (hpieces ▸ List.mem_cons_self) c hc
            exact ⟨List.mem_cons_of_mem _ hfirst.1, hfirst.2⟩
        · have hrest := ih (hpieces ▸ List.mem_cons_of_mem _ h)
          exact fun c hc => ⟨List.mem_cons_of_mem _ (hrest c hc).1, (hrest c hc).2⟩

theorem term_of_unquoted {raw : List Char} (hclean : ∀ c ∈ raw, cleanChar tables c = c ∧ c ≠ '"')
    (h : term ∈ pushUnquotedTokens tables raw) : Term tables term := by
  obtain ⟨word, hword, rfl⟩ := List.mem_map.1 h
  obtain ⟨hword, hplain⟩ := List.mem_filter.1 hword
  obtain ⟨hpiece, htoken⟩ := List.mem_filter.1 hword
  refine Term.bareword word ?_ htoken (by simpa using hplain)
  intro c hc
  obtain ⟨hmem, hsep⟩ := mem_splitOnP hpiece c hc
  exact isWord_of_clean (hclean c hmem).1 (hclean c hmem).2 hsep

theorem mem_of_mem_trim (h : c ∈ trim text) : c ∈ text := by
  obtain ⟨before, after, htext⟩ := Merge.Payload.trim_infix text
  rw [htext]
  exact List.mem_append_left _ (List.mem_append_right _ h)

theorem isQuote_eq_false_iff : (!isQuote c) = true ↔ c ≠ '"' := by
  rw [isQuote, Bool.not_eq_true', decide_eq_false_iff_not]

/-- The phrase behind an opening quote. -/
theorem term_of_phrase (hclean : ∀ c ∈ rest, cleanChar tables c = c)
    (htoken : hasTokenChar tables (trim (rest.takeWhile (!isQuote ·))) = true) (star : Bool) :
    Term tables (quoted (trim (rest.takeWhile (!isQuote ·))) ++ if star then ['*'] else []) := by
  refine Term.phrase _ star ?_ ?_ (Merge.Payload.trim_trim _) htoken
  · intro c hc
    exact hclean c ((List.takeWhile_sublist _).subset (mem_of_mem_trim hc))
  · intro c hc
    have htaken := List.mem_takeWhile_imp (mem_of_mem_trim hc)
    exact isQuote_eq_false_iff.1 htaken

theorem mem_of_mem_after (h : c ∈ (rest.dropWhile (!isQuote ·)).tail) : c ∈ rest :=
  (List.dropWhile_sublist _).subset (List.mem_of_mem_tail h)

theorem term_of_extract {outside : List Char} (htext : ∀ c ∈ text, cleanChar tables c = c)
    (houtside : ∀ c ∈ outside, cleanChar tables c = c ∧ c ≠ '"') :
    ∀ term ∈ extract tables text outside, Term tables term := by
  induction text, outside using extract.induct with
  | case1 outside =>
    intro term hterm
    rw [extract] at hterm
    exact term_of_unquoted houtside hterm
  | case2 outside c rest hquote ih =>
    intro term hterm
    rw [extract, if_pos hquote] at hterm
    refine ih (fun d hd => htext d (List.mem_cons_of_mem _ hd)) ?_ term hterm
    intro d hd
    rcases List.mem_append.1 hd with hd | hd
    · exact houtside d hd
    · rw [List.mem_singleton.1 hd]
      exact ⟨htext c List.mem_cons_self, hquote⟩
  | case3 outside c rest hquote after ih₁ ih₂ =>
    have hrest : ∀ d ∈ rest, cleanChar tables d = d := fun d hd =>
      htext d (List.mem_cons_of_mem _ hd)
    have hafter : ∀ d ∈ after, cleanChar tables d = d := fun d hd => hrest d (mem_of_mem_after hd)
    have hnone : ∀ d ∈ ([] : List Char), cleanChar tables d = d ∧ d ≠ '\x22' := by
      intro d hd
      cases hd
    have hstarred := ih₁ (fun d hd => hafter d (List.mem_of_mem_tail hd)) hnone
    have hplain := ih₂ hafter hnone
    intro term hterm
    rw [extract, if_neg hquote] at hterm
    rcases List.mem_append.1 hterm with hterm | hterm
    · exact term_of_unquoted houtside hterm
    · split at hterm
      · next htoken =>
        split at hterm
        · rcases List.mem_cons.1 hterm with rfl | hterm
          · exact term_of_phrase hrest htoken true
          · exact hstarred term hterm
        · rcases List.mem_cons.1 hterm with rfl | hterm
          · have hphrase := term_of_phrase hrest htoken false
            rwa [if_neg Bool.false_ne_true, List.append_nil] at hphrase
          · exact hplain term hterm
      · exact hplain term hterm

/-- A separator outside phrases ends what stood before it. -/
theorem pushUnquotedTokens_append (before after : List Char) {c : Char} (h : separates c = true) :
    pushUnquotedTokens tables (before ++ c :: after) =
      pushUnquotedTokens tables before ++ pushUnquotedTokens tables after := by
  unfold pushUnquotedTokens
  rw [List.splitOnP_append_cons before after h, List.filter_append, List.filter_append,
    List.map_append]

theorem extract_append (text before after : List Char) (h : separates c = true) :
    extract tables text (before ++ c :: after) =
      pushUnquotedTokens tables before ++ extract tables text after := by
  induction text generalizing after with
  | nil =>
    rw [extract, extract]
    exact pushUnquotedTokens_append before after h
  | cons d text ih =>
    by_cases hd : d ≠ '\x22'
    · rw [extract, if_pos hd, extract, if_pos hd, List.append_assoc, List.cons_append, ih]
    · rw [extract, if_neg hd, extract, if_neg hd, pushUnquotedTokens_append before after h,
        List.append_assoc]

theorem extract_outside (h : ∀ c ∈ text, c ≠ '\x22') (rest outside : List Char) :
    extract tables (text ++ rest) outside = extract tables rest (outside ++ text) := by
  induction text generalizing outside with
  | nil => rw [List.nil_append, List.append_nil]
  | cons c text ih =>
    rw [List.cons_append, extract, if_pos (h c List.mem_cons_self),
      ih fun d hd => h d (List.mem_cons_of_mem _ hd), List.append_assoc, List.singleton_append]

theorem pushUnquotedTokens_word {word : List Char} (hchars : ∀ c ∈ word, isWord tables c = true) :
    pushUnquotedTokens tables word =
      if hasTokenChar tables word = true ∧ isReserved word = false then [word ++ ['*']] else [] := by
  have hsplit : word.splitOnP separates = [word] :=
    List.splitOnP_eq_singleton fun c hc => not_separates_of_isWord (hchars c hc)
  unfold pushUnquotedTokens
  rw [hsplit]
  by_cases htoken : hasTokenChar tables word = true
  · by_cases hplain : isReserved word = false
    · simp [htoken, hplain]
    · simp [htoken, hplain]
  · simp [htoken]

/-- The operator between two terms is not a term. -/
theorem pushUnquotedTokens_and : pushUnquotedTokens tables [' ', 'A', 'N', 'D'] = [] := by
  have hchars : ∀ c ∈ ['A', 'N', 'D'], isWord tables c = true := by
    intro c hc
    have hcases : c = 'A' ∨ c = 'N' ∨ c = 'D' := by simpa using hc
    rcases hcases with rfl | rfl | rfl <;> exact isWord_ascii (by decide)
  have hreserved : isReserved ['A', 'N', 'D'] = true := by decide
  have hblank : pushUnquotedTokens tables [] = [] := rfl
  have hsplit := @pushUnquotedTokens_append tables [] ['A', 'N', 'D'] ' ' rfl
  rw [List.nil_append] at hsplit
  rw [hsplit, hblank, pushUnquotedTokens_word hchars, hreserved]
  simp

/-- The terms behind the first, each with the operator before it. -/
def rendered (terms : List (List Char)) : List Char :=
  terms.flatMap ([' ', 'A', 'N', 'D', ' '] ++ ·)

theorem rendered_cons (term : List Char) (terms : List (List Char)) :
    rendered (term :: terms) = [' ', 'A', 'N', 'D', ' '] ++ (term ++ rendered terms) := by
  rw [rendered, List.flatMap_cons, List.append_assoc]
  rfl

theorem head_rendered (terms : List (List Char)) : (rendered terms).head? ≠ some '*' := by
  cases terms with
  | nil =>
    intro h
    cases h
  | cons term terms =>
    rw [rendered_cons, List.cons_append, List.head?_cons]
    decide

theorem takeWhile_phrase (h : ∀ c ∈ text, c ≠ '\x22') (rest : List Char) :
    (text ++ '\x22' :: rest).takeWhile (!isQuote ·) = text ∧
      (text ++ '\x22' :: rest).dropWhile (!isQuote ·) = '\x22' :: rest := by
  have hall : ∀ c ∈ text, (!isQuote c) = true := fun c hc => isQuote_eq_false_iff.2 (h c hc)
  rw [List.takeWhile_append_of_pos hall, List.dropWhile_append_of_pos hall]
  exact ⟨List.append_nil _, rfl⟩

/-- A term at the start is the first term that is taken. -/
theorem extract_term (h : Term tables term) (hrest : rest.head? ≠ some '*') :
    extract tables (term ++ rest) [] = term :: extract tables rest [] := by
  cases h with
  | bareword word hchars htoken hplain =>
    have hquotes : ∀ c ∈ word ++ ['*'], c ≠ '\x22' := by
      intro c hc
      rcases List.mem_append.1 hc with hc | hc
      · exact ne_of_isWord (hchars c hc) (by decide) (by decide)
      · rw [List.mem_singleton.1 hc]
        decide
    rw [extract_outside hquotes, List.nil_append, extract_append rest word [] (by decide),
      pushUnquotedTokens_word hchars, if_pos ⟨htoken, hplain⟩]
    rfl
  | phrase text star hchars hunquoted htrimmed htoken =>
    have hempty : pushUnquotedTokens tables [] = [] := rfl
    obtain ⟨htake, hdrop⟩ := takeWhile_phrase hunquoted ((if star then ['*'] else []) ++ rest)
    have htext : quoted text ++ (if star then ['*'] else []) ++ rest =
        '\x22' :: (text ++ '\x22' :: ((if star then ['*'] else []) ++ rest)) := by
      rw [quoted, List.cons_append, List.cons_append, List.append_assoc, List.append_assoc,
        List.singleton_append]
    rw [htext, extract, if_neg (by decide), htake, hdrop, htrimmed]
    dsimp only
    rw [if_pos htoken, hempty, List.nil_append, List.tail_cons]
    cases star with
    | true =>
      rw [if_pos rfl, List.singleton_append, List.head?_cons, if_pos rfl, List.tail_cons]
    | false =>
      rw [if_neg Bool.false_ne_true, List.nil_append, if_neg hrest, List.append_nil]

theorem extract_rendered (h : ∀ term ∈ terms, Term tables term) :
    extract tables (rendered terms) [] = terms := by
  induction terms with
  | nil =>
    rw [rendered, List.flatMap_nil, extract]
    rfl
  | cons term terms ih =>
    have hand : ∀ c ∈ [' ', 'A', 'N', 'D', ' '], c ≠ '\x22' := by
      intro c hc
      simp only [List.mem_cons, List.not_mem_nil, or_false] at hc
      rcases hc with rfl | rfl | rfl | rfl | rfl <;> decide
    have hsplit : [] ++ [' ', 'A', 'N', 'D', ' '] = [' ', 'A', 'N', 'D'] ++ ' ' :: [] := rfl
    rw [rendered_cons, extract_outside hand, hsplit, extract_append _ _ _ (by decide),
      pushUnquotedTokens_and, List.nil_append,
      extract_term (h term List.mem_cons_self) (head_rendered terms),
      ih fun other hother => h other (List.mem_cons_of_mem _ hother)]

theorem extract_join (h : ∀ term ∈ terms, Term tables term) :
    extract tables (join terms) [] = terms := by
  cases terms with
  | nil =>
    rw [join, extract]
    rfl
  | cons term terms =>
    rw [join]
    refine (extract_term (h term List.mem_cons_self) (head_rendered terms)).trans ?_
    rw [extract_rendered fun other hother => h other (List.mem_cons_of_mem _ hother)]

/-- A text that begins and ends with something. -/
structure Edged (text : List Char) : Prop where
  first : ∃ c cs, text = c :: cs ∧ isWhitespace c = false
  last : ∃ cs c, text = cs ++ [c] ∧ isWhitespace c = false

theorem trim_eq_self (h : Edged text) : trim text = text := by
  obtain ⟨c, cs, hfirst, hc⟩ := h.first
  obtain ⟨ds, d, hlast, hd⟩ := h.last
  have hdrop : text.dropWhile isWhitespace = text := by
    rw [hfirst, List.dropWhile_cons_of_neg (Bool.eq_false_iff.1 hc)]
  unfold trim
  rw [hdrop, hlast, List.reverse_append, List.reverse_singleton, List.singleton_append,
    List.dropWhile_cons_of_neg (Bool.eq_false_iff.1 hd), List.reverse_cons, List.reverse_reverse]

theorem Edged.append {other : List Char} (h : Edged text) (hother : Edged other)
    (between : List Char) : Edged (text ++ between ++ other) := by
  obtain ⟨c, cs, rfl, hc⟩ := h.first
  obtain ⟨ds, d, rfl, hd⟩ := hother.last
  constructor
  · exact ⟨c, cs ++ between ++ (ds ++ [d]), rfl, hc⟩
  · exact ⟨c :: cs ++ between ++ ds, d, (List.append_assoc _ _ _).symm, hd⟩

theorem edged_term (h : Term tables term) : Edged term := by
  cases h with
  | bareword word hchars htoken hplain =>
    constructor
    · cases word with
      | nil => cases htoken
      | cons c cs => exact ⟨c, cs ++ ['*'], rfl, not_whitespace_of_isWord (hchars c List.mem_cons_self)⟩
    · exact ⟨word, '*', rfl, by decide⟩
  | phrase text star hchars hunquoted htrimmed htoken =>
    constructor
    · exact ⟨'\x22', _, rfl, by decide⟩
    · cases star with
      | true => exact ⟨quoted text, '*', rfl, by decide⟩
      | false => exact ⟨'\x22' :: text, '\x22', List.append_nil _, by decide⟩

theorem edged_rendered (h : ∀ term ∈ terms, Term tables term) (htext : Edged text) :
    Edged (text ++ rendered terms) := by
  induction terms generalizing text with
  | nil => rwa [rendered, List.flatMap_nil, List.append_nil]
  | cons term terms ih =>
    have hedged := htext.append (edged_term (h term List.mem_cons_self)) [' ', 'A', 'N', 'D', ' ']
    have hall := ih (fun other hother => h other (List.mem_cons_of_mem _ hother)) hedged
    rw [rendered_cons, ← List.append_assoc, ← List.append_assoc]
    exact hall

theorem clean_term (h : Term tables term) : ∀ c ∈ term, cleanChar tables c = c := by
  have hstar : cleanChar tables '*' = '*' := by simp [cleanChar]
  have hquote : cleanChar tables '\x22' = '\x22' := by simp [cleanChar]
  intro c hc
  cases h with
  | bareword word hchars htoken hplain =>
    rcases List.mem_append.1 hc with hc | hc
    · exact cleanChar_of_isWord (hchars c hc)
    · rw [List.mem_singleton.1 hc, hstar]
  | phrase text star hchars hunquoted htrimmed htoken =>
    rcases List.mem_append.1 hc with hc | hc
    · rcases List.mem_cons.1 hc with rfl | hc
      · exact hquote
      · rcases List.mem_append.1 hc with hc | hc
        · exact hchars c hc
        · rw [List.mem_singleton.1 hc, hquote]
    · cases star with
      | true => rw [List.mem_singleton.1 hc, hstar]
      | false => cases hc

theorem clean_rendered (h : ∀ term ∈ terms, Term tables term) :
    ∀ c ∈ rendered terms, cleanChar tables c = c := by
  have hand : ∀ c ∈ [' ', 'A', 'N', 'D', ' '], cleanChar tables c = c := by
    intro c hc
    have hcases : c = ' ' ∨ c = 'A' ∨ c = 'N' ∨ c = 'D' := by
      revert hc
      simp only [List.mem_cons, List.not_mem_nil, or_false]
      tauto
    rcases hcases with rfl | rfl | rfl | rfl
    · simp [cleanChar]
    all_goals exact cleanChar_of_isWord ((isWord_ascii (by decide)).trans rfl)
  intro c hc
  obtain ⟨term, hterm, hc⟩ := List.mem_flatMap.1 hc
  rcases List.mem_append.1 hc with hc | hc
  · exact hand c hc
  · exact clean_term (h term hterm) c hc

theorem countQuotes_append (text other : List Char) :
    countQuotes (text ++ other) = countQuotes text + countQuotes other :=
  List.countP_append

theorem countQuotes_eq_zero (h : ∀ c ∈ text, c ≠ '\x22') : countQuotes text = 0 := by
  refine List.countP_eq_zero.2 fun c hc hquote => h c hc ?_
  exact of_decide_eq_true hquote

theorem countQuotes_term (h : Term tables term) : countQuotes term % 2 = 0 := by
  cases h with
  | bareword word hchars htoken hplain =>
    rw [countQuotes_append, countQuotes_eq_zero fun c hc =>
      ne_of_isWord (hchars c hc) (by decide) (by decide)]
    rfl
  | phrase text star hchars hunquoted htrimmed htoken =>
    have hquoted : countQuotes (quoted text) = 2 := by
      have hcons : quoted text = ['\x22'] ++ (text ++ ['\x22']) := rfl
      rw [hcons, countQuotes_append, countQuotes_append, countQuotes_eq_zero hunquoted]
      rfl
    rw [countQuotes_append, hquoted]
    cases star <;> rfl

theorem countQuotes_rendered (h : ∀ term ∈ terms, Term tables term) :
    countQuotes (rendered terms) % 2 = 0 := by
  induction terms with
  | nil => rfl
  | cons term terms ih =>
    have hterm := countQuotes_term (h term List.mem_cons_self)
    have hrest := ih fun other hother => h other (List.mem_cons_of_mem _ hother)
    have hand : countQuotes [' ', 'A', 'N', 'D', ' '] = 0 := rfl
    rw [rendered_cons, countQuotes_append, countQuotes_append, hand]
    omega

theorem sanitize_join (hne : terms ≠ []) (h : ∀ term ∈ terms, Term tables term) :
    sanitizeFts5Query tables (join terms) = some (join terms) := by
  obtain ⟨term, others, rfl⟩ := List.exists_cons_of_ne_nil hne
  have hterm := h term List.mem_cons_self
  have hothers : ∀ other ∈ others, Term tables other := fun other hother =>
    h other (List.mem_cons_of_mem _ hother)
  have hedged : Edged (join (term :: others)) := edged_rendered hothers (edged_term hterm)
  have hclean : (join (term :: others)).map (cleanChar tables) = join (term :: others) := by
    refine (List.map_congr_left fun c hc => ?_).trans (List.map_id _)
    rcases List.mem_append.1 hc with hc | hc
    · exact clean_term hterm c hc
    · exact clean_rendered hothers c hc
  have hquotes : countQuotes (join (term :: others)) % 2 = 0 := by
    have hfirst := countQuotes_term hterm
    have hrest := countQuotes_rendered hothers
    have hsum : countQuotes (join (term :: others)) =
        countQuotes term + countQuotes (rendered others) := countQuotes_append _ _
    omega
  have hnil : join (term :: others) ≠ [] := by
    obtain ⟨c, cs, hfirst, -⟩ := hedged.first
    rw [hfirst]
    exact List.cons_ne_nil _ _
  unfold sanitizeFts5Query
  rw [hclean, trim_eq_self hedged]
  dsimp only
  rw [if_neg hnil, hquotes, if_neg Nat.zero_ne_one, if_neg hnil, extract_join h, if_neg hne]

/-- Whatever is typed, what is left of it is a conjunction of terms. -/
theorem sanitize_eq (raw : List Char) :
    sanitizeFts5Query tables raw = none ∨
      ∃ terms, terms ≠ [] ∧ (∀ term ∈ terms, Term tables term) ∧
        sanitizeFts5Query tables raw = some (join terms) := by
  have hclean : ∀ c ∈ trim (raw.map (cleanChar tables)), cleanChar tables c = c := by
    intro c hc
    obtain ⟨d, -, rfl⟩ := List.mem_map.1 (mem_of_mem_trim hc)
    exact cleanChar_cleanChar d
  unfold sanitizeFts5Query
  dsimp only
  generalize trim (raw.map (cleanChar tables)) = cleaned at hclean ⊢
  have hbalanced : ∀ c ∈ (if countQuotes cleaned % 2 = 1 then
      trim (cleaned.filter (!isQuote ·)) else cleaned), cleanChar tables c = c := by
    intro c hc
    split at hc
    · exact hclean c (List.mem_of_mem_filter (mem_of_mem_trim hc))
    · exact hclean c hc
  generalize (if countQuotes cleaned % 2 = 1 then
    trim (cleaned.filter (!isQuote ·)) else cleaned) = balanced at hbalanced ⊢
  split
  · exact Or.inl rfl
  · split
    · exact Or.inl rfl
    · split
      · exact Or.inl rfl
      · next hne =>
        right
        refine ⟨extract tables balanced [], hne, ?_, rfl⟩
        apply term_of_extract hbalanced
        intro c hc
        cases hc

/-- Over a text without quotes and spaces no cut is made. -/
theorem queryPartsFrom_word {word : List Char} (h : ∀ c ∈ word, c ≠ '\x22' ∧ c ≠ ' ')
    (rest : List Char) (index start : ℕ) :
    queryPartsFrom text (word ++ rest) index false start =
      queryPartsFrom text rest (index + word.length) false start := by
  induction word generalizing index with
  | nil => rfl
  | cons c word ih =>
    obtain ⟨hquote, hspace⟩ := h c List.mem_cons_self
    have hprefix : [' ', 'A', 'N', 'D', ' '].isPrefixOf (c :: (word ++ rest)) = false := by
      rw [List.isPrefixOf, beq_eq_false_iff_ne.2 hspace.symm, Bool.false_and]
    rw [List.cons_append, queryPartsFrom, if_neg hquote, hprefix, Bool.and_false,
      if_neg Bool.false_ne_true, ih fun d hd => h d (List.mem_cons_of_mem _ hd), List.length_cons]
    congr 1
    omega

/-- Nor inside quotes, whatever stands there. -/
theorem queryPartsFrom_inside {phrase : List Char} (h : ∀ c ∈ phrase, c ≠ '\x22') (rest : List Char)
    (index start : ℕ) :
    queryPartsFrom text (phrase ++ rest) index true start =
      queryPartsFrom text rest (index + phrase.length) true start := by
  induction phrase generalizing index with
  | nil => rfl
  | cons c phrase ih =>
    rw [List.cons_append, queryPartsFrom, if_neg (h c List.mem_cons_self), Bool.not_true,
      Bool.false_and, if_neg Bool.false_ne_true, ih fun d hd => h d (List.mem_cons_of_mem _ hd),
      List.length_cons]
    congr 1
    omega

theorem queryPartsFrom_quote (text rest : List Char) (index start : ℕ) (inside : Bool) :
    queryPartsFrom text ('\x22' :: rest) index inside start =
      queryPartsFrom text rest (index + 1) (!inside) start := by
  rw [queryPartsFrom, if_pos rfl]

theorem queryPartsFrom_term (h : Term tables term) (rest : List Char) (index start : ℕ) :
    queryPartsFrom text (term ++ rest) index false start =
      queryPartsFrom text rest (index + term.length) false start := by
  have hstar : ∀ c ∈ ['*'], c ≠ '\x22' ∧ c ≠ ' ' := by
    intro c hc
    rw [List.mem_singleton.1 hc]
    decide
  cases h with
  | bareword word hchars htoken hplain =>
    apply queryPartsFrom_word
    intro c hc
    rcases List.mem_append.1 hc with hc | hc
    · exact ⟨ne_of_isWord (hchars c hc) (by decide) (by decide),
        ne_of_isWord (hchars c hc) (by decide) (by decide)⟩
    · exact hstar c hc
  | phrase phrase star hchars hunquoted htrimmed htoken =>
    have hlast : ∀ c ∈ (if star then ['*'] else []), c ≠ '\x22' ∧ c ≠ ' ' := by
      cases star with
      | true => exact hstar
      | false =>
        intro c hc
        cases hc
    rw [quoted, List.cons_append, List.cons_append, queryPartsFrom_quote, List.append_assoc,
      List.append_assoc, Bool.not_false, queryPartsFrom_inside hunquoted, List.singleton_append,
      queryPartsFrom_quote, Bool.not_true, queryPartsFrom_word hlast]
    congr 1
    simp only [List.length_cons, List.length_append, List.length_nil]
    omega

/-- What follows the operator does not begin with the rest of another. -/
theorem not_prefix_term (h : Term tables term) (rest : List Char) :
    [' ', 'A', 'N', 'D', ' '].isPrefixOf (' ' :: (term ++ rest)) = false := by
  rw [Bool.eq_false_iff]
  intro hprefix
  have htail : ['A', 'N', 'D', ' '] <+: term ++ rest := by
    rw [List.isPrefixOf_iff_prefix] at hprefix
    exact (List.cons_prefix_cons.1 hprefix).2
  cases h with
  | bareword word hchars htoken hplain =>
    have hwhole : word ++ ['*'] <+: word ++ ['*'] ++ rest := List.prefix_append _ _
    rcases List.prefix_or_prefix_of_prefix htail hwhole with hshort | hlong
    · have hspace : ' ' ∈ word ++ ['*'] := hshort.subset (by decide)
      rcases List.mem_append.1 hspace with hspace | hspace
      · exact ne_of_isWord (hchars ' ' hspace) (by decide : (' ' : Char).toNat < 128) (by decide) rfl
      · exact absurd hspace (by decide)
    · have hstar : '*' ∈ ['A', 'N', 'D', ' '] := hlong.subset (List.mem_append_right _ List.mem_cons_self)
      exact absurd hstar (by decide)
  | phrase phrase star hchars hunquoted htrimmed htoken =>
    obtain ⟨more, hmore⟩ := htail
    cases hmore

/-- The operator is cut out, and the next part starts behind it. -/
theorem queryPartsFrom_operator (h : Term tables term) (rest : List Char) (index start : ℕ) :
    queryPartsFrom text ([' ', 'A', 'N', 'D', ' '] ++ (term ++ rest)) index false start = (do
      let part ← slice text start index
      let parts ← queryPartsFrom text (term ++ rest) (index + 5) false (index + 5)
      return part :: parts) := by
  have hword : ∀ c ∈ ['A', 'N', 'D'], c ≠ '\x22' ∧ c ≠ ' ' := by
    intro c hc
    simp only [List.mem_cons, List.not_mem_nil, or_false] at hc
    rcases hc with rfl | rfl | rfl <;> decide
  have hcut : [' ', 'A', 'N', 'D', ' '].isPrefixOf
      (' ' :: (['A', 'N', 'D'] ++ ' ' :: (term ++ rest))) = true := by
    rw [List.isPrefixOf_iff_prefix]
    exact ⟨term ++ rest, rfl⟩
  have hlist : [' ', 'A', 'N', 'D', ' '] ++ (term ++ rest) =
      ' ' :: (['A', 'N', 'D'] ++ ' ' :: (term ++ rest)) := rfl
  have hspace : queryPartsFrom text (' ' :: (term ++ rest)) (index + 1 + 3) false (index + 5) =
      queryPartsFrom text (term ++ rest) (index + 5) false (index + 5) := by
    rw [queryPartsFrom, if_neg (by decide), not_prefix_term h, Bool.and_false,
      if_neg Bool.false_ne_true]
  rw [hlist, queryPartsFrom, if_neg (by decide), hcut, Bool.not_false, Bool.true_and, if_pos rfl,
    queryPartsFrom_word hword]
  simp only [List.length_cons, List.length_nil, Nat.zero_add, Nat.reduceAdd]
  rw [hspace]

theorem slice_between (before part after : List Char) :
    slice (before ++ (part ++ after)) before.length (before.length + part.length) = some part := by
  rw [slice, if_pos (Nat.le_add_right _ _), List.drop_left, Nat.add_sub_cancel_left,
    List.take_left]

theorem queryPartsFrom_terms (h : ∀ other ∈ term :: terms, Term tables other) (before : List Char) :
    queryPartsFrom (before ++ (term ++ rendered terms)) (term ++ rendered terms) before.length
      false before.length = some (term :: terms) := by
  induction terms generalizing term before with
  | nil =>
    have hterm := h term List.mem_cons_self
    have hend : (before ++ (term ++ rendered [])).length = before.length + term.length := by
      rw [List.length_append, List.length_append]
      rfl
    rw [queryPartsFrom_term hterm]
    have hslice := slice_between before term (rendered [])
    rw [← hend] at hslice
    have hnil : rendered [] = [] := rfl
    rw [hnil] at hslice ⊢
    rw [queryPartsFrom, hslice, Option.map_some]
  | cons next terms ih =>
    have hnext := h next (List.mem_cons_of_mem _ List.mem_cons_self)
    have hrest := ih (fun other hother => h other (List.mem_cons_of_mem _ hother))
      (before ++ term ++ [' ', 'A', 'N', 'D', ' '])
    have htext : before ++ term ++ [' ', 'A', 'N', 'D', ' '] ++ (next ++ rendered terms) =
        before ++ (term ++ rendered (next :: terms)) := by
      rw [rendered_cons, List.append_assoc, List.append_assoc]
    have hlength : (before ++ term ++ [' ', 'A', 'N', 'D', ' ']).length =
        before.length + term.length + 5 := by
      rw [List.length_append, List.length_append]
      rfl
    rw [htext, hlength] at hrest
    have hslice := slice_between before term (rendered (next :: terms))
    rw [queryPartsFrom_term (h term List.mem_cons_self)]
    conv_lhs =>
      arg 2
      rw [rendered_cons]
    rw [queryPartsFrom_operator hnext, hslice, hrest]
    rfl

/-- The conjunction is taken apart into its terms. -/
theorem queryParts_join (hne : terms ≠ []) (h : ∀ term ∈ terms, Term tables term) :
    queryParts (join terms) = some terms := by
  obtain ⟨term, others, rfl⟩ := List.exists_cons_of_ne_nil hne
  exact queryPartsFrom_terms h []

/-- The sanitizer leaves nothing, or a conjunction of well-formed terms that it would not
change again and that comes apart into the same terms. -/
theorem sanitizer_well_formed (tables : Tables) (raw : List Char) :
    sanitizeFts5Query tables raw = none ∨
      ∃ terms, terms ≠ [] ∧ (∀ term ∈ terms, Term tables term) ∧
        sanitizeFts5Query tables raw = some (join terms) ∧
        sanitizeFts5Query tables (join terms) = some (join terms) ∧
        queryParts (join terms) = some terms := by
  rcases @sanitize_eq tables raw with hnone | ⟨terms, hne, hterms, hraw⟩
  · exact Or.inl hnone
  · right
    exact ⟨terms, hne, hterms, hraw, sanitize_join hne hterms, queryParts_join hne hterms⟩

/-- Tables that know the letters and digits of ASCII only. -/
def asciiTables : Tables where
  isAlphanumeric c := decide (c.toNat < 128) && c.isAlphanum
  ascii c h := by rw [decide_eq_true h, Bool.true_and]
  not_whitespace c h := by
    simp only [Bool.and_eq_true, decide_eq_true_eq, Char.isAlphanum, Char.isAlpha, Char.isUpper,
      Char.isLower, Char.isDigit, Bool.or_eq_true, UInt32.le_iff_toNat_le] at h
    have hrange : 48 ≤ c.toNat ∧ c.toNat < 128 := by
      refine ⟨?_, h.1⟩
      rcases h.2 with (⟨hlow, -⟩ | ⟨hlow, -⟩) | ⟨hlow, -⟩
      · exact Nat.le_trans (by decide) hlow
      · exact Nat.le_trans (by decide) hlow
      · exact hlow
    unfold isWhitespace
    simp only [Bool.or_eq_false_iff, decide_eq_false_iff_not, beq_eq_false_iff_ne, ne_eq]
    omega

example : sanitizeFts5Query asciiTables "priv-key OR \"a AND b\"*".toList =
    some "priv* AND key* AND \"a AND b\"*".toList := by
  decide +kernel

end CopyPaste.History.SearchQuery
