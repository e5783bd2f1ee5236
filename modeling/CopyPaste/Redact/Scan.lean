import CopyPaste.Redact.Paths

/-!
The scan of a message, word by word: outside a path, or inside one that was opened with a
quote or without. Where it is outside, what comes before has no part in what follows.
-/

namespace CopyPaste.Redact.Scan

open Merge.Payload Paths

/-- A word with the white space that ends it. -/
def Whole (word : Text) : Prop :=
  ∃ body c, word = body ++ [c] ∧ isWhitespace c = true ∧ ∀ x ∈ body, isWhitespace x = false

/-- A word at the end of a message. -/
def Part (word : Text) : Prop :=
  word ≠ [] ∧ ∀ x ∈ word, isWhitespace x = false

/-- The words of some message. -/
def Shape : List Text → Prop
  | [] => True
  | [word] => Whole word ∨ Part word
  | word :: rest => Whole word ∧ Shape rest

variable {word : Text} {words rest : List Text} {opened : Bool} {quote : Option Char}

theorem tokens_whole (h : Whole word) (rest : Text) :
    tokens (word ++ rest) = word :: tokens rest := by
  obtain ⟨body, c, rfl, hc, hbody⟩ := h
  induction body with
  | nil => simp [tokens, hc]
  | cons x body ih =>
    have hx := hbody x List.mem_cons_self
    have hrest := ih fun y hy => hbody y (List.mem_cons_of_mem _ hy)
    simp only [List.cons_append] at hrest ⊢
    rw [tokens, hrest, hx]
    rfl

theorem tokens_part (h : Part word) : tokens word = [word] := by
  obtain ⟨hne, hword⟩ := h
  induction word with
  | nil => exact absurd rfl hne
  | cons x word ih =>
    rw [tokens, hword x List.mem_cons_self]
    cases word with
    | nil => rfl
    | cons y word =>
      rw [ih (by simp) fun z hz => hword z (List.mem_cons_of_mem _ hz)]
      rfl

theorem tokens_of_shape (h : Shape words) : tokens words.flatten = words := by
  induction words with
  | nil => rfl
  | cons word rest ih =>
    cases rest with
    | nil =>
      rw [List.flatten_cons, List.flatten_nil, List.append_nil]
      rcases h with hwhole | hpart
      · have hword := tokens_whole hwhole []
        rwa [List.append_nil] at hword
      · exact tokens_part hpart
    | cons next rest => rw [List.flatten_cons, tokens_whole h.1, ih h.2]

theorem shape_cons (hword : Whole word) (hrest : Shape rest) : Shape (word :: rest) := by
  cases rest with
  | nil => exact Or.inl hword
  | cons next rest => exact ⟨hword, hrest⟩

theorem Shape.tail (h : Shape (word :: rest)) : Shape rest := by
  cases rest with
  | nil => trivial
  | cons next rest => exact h.2

theorem Shape.head (h : Shape (word :: rest)) : Whole word ∨ Part word := by
  cases rest with
  | nil => exact h
  | cons next rest => exact Or.inl h.1

theorem shape_tokens (text : Text) : Shape (tokens text) := by
  induction text with
  | nil => trivial
  | cons c rest ih =>
    unfold tokens
    split
    · rename_i hc
      exact shape_cons ⟨[], c, rfl, hc, fun _ habs => absurd habs List.not_mem_nil⟩ ih
    · rename_i hc
      have hc : isWhitespace c = false := Bool.eq_false_iff.mpr hc
      have hbody : ∀ body : Text, (∀ x ∈ body, isWhitespace x = false) →
          ∀ x ∈ c :: body, isWhitespace x = false := by
        intro body hall x hx
        rcases List.mem_cons.mp hx with rfl | hx
        · exact hc
        · exact hall x hx
      have hwhole : ∀ word, Whole word → Whole (c :: word) := by
        rintro word ⟨body, last, rfl, hlast, hall⟩
        exact ⟨c :: body, last, rfl, hlast, hbody body hall⟩
      split
      · exact Or.inr ⟨by simp, hbody [] fun _ habs => absurd habs List.not_mem_nil⟩
      · rename_i token more htokens
        rw [htokens] at ih
        cases more with
        | nil =>
          rcases ih with hword | ⟨_, hall⟩
          · exact Or.inl (hwhole token hword)
          · exact Or.inr ⟨by simp, hbody token hall⟩
        | cons next more => exact ⟨hwhole token ih.1, ih.2⟩

theorem tokens_flatten (text : Text) : (tokens text).flatten = text := by
  induction text with
  | nil => rfl
  | cons c rest ih =>
    unfold tokens
    split
    · rw [List.flatten_cons, ih]
      rfl
    · split
      · rename_i htokens
        rw [htokens] at ih
        rw [← ih]
        rfl
      · rename_i token more htokens
        rw [htokens, List.flatten_cons] at ih
        rw [List.flatten_cons, List.cons_append, ih]

theorem tokens_ne_nil {text : Text} (h : text ≠ []) : tokens text ≠ [] := by
  intro hnil
  have hflat := tokens_flatten text
  rw [hnil] at hflat
  exact h hflat.symm

/-- Whether a word of the message begins after this text. -/
def AtWord (before : Text) : Prop :=
  before = [] ∨ ∃ body c, before = body ++ [c] ∧ isWhitespace c = true

theorem tokens_append {before : Text} (h : AtWord before) (rest : Text) :
    tokens (before ++ rest) = tokens before ++ tokens rest := by
  rcases h with rfl | ⟨body, c, rfl, hc⟩
  · rfl
  · induction body with
    | nil => simp [tokens, hc]
    | cons x body ih =>
      simp only [List.cons_append] at ih ⊢
      rw [tokens, ih, tokens]
      split
      · rfl
      · cases htokens : tokens (body ++ [c]) with
        | nil => exact absurd htokens (tokens_ne_nil (by simp))
        | cons token more => rfl

/-- Where the scan stands between two words. A path remembers whether it was opened with a
quote, and the quote it waits for. -/
inductive Mode
  | outside
  | inside (opened : Bool) (quote : Option Char)
  deriving DecidableEq, Repr

/-- Inside a path, after one of its words. -/
def next (opened : Bool) (quote : Option Char) (word : Text) : Mode :=
  match quote with
  | some delimiter =>
    if endsWithQuote word delimiter then .outside
    else if endsWithEscapedQuote word delimiter then .inside opened none
    else .inside opened (some delimiter)
  | none => if endsLine word then .outside else .inside opened none

def step : Mode → Text → Mode
  | .outside, word =>
    if looksLikePath (trimEnd word) then
      next (openingQuote (trimEnd word)).isSome (openingQuote (trimEnd word)) word
    else .outside
  | .inside opened quote, word => next opened quote word

def modeAfter (words : List Text) : Mode := words.foldl step .outside

theorem next_opened {opened' : Bool} {quote' : Option Char}
    (h : next opened quote word = .inside opened' quote') : opened' = opened := by
  cases quote with
  | none =>
    rw [next] at h
    split at h
    · exact absurd h (by simp)
    · exact (Mode.inside.inj h).1.symm
  | some delimiter =>
    rw [next] at h
    split at h
    · exact absurd h (by simp)
    · split at h
      · exact (Mode.inside.inj h).1.symm
      · exact (Mode.inside.inj h).1.symm

theorem next_outside (h : next opened quote word = .outside) :
    quote.isSome = true ∨ endsLine word = true := by
  cases quote with
  | none =>
    rw [next] at h
    split at h
    · rename_i hline
      exact Or.inr hline
    · exact absurd h (by simp)
  | some delimiter => exact Or.inl rfl

theorem next_unquoted {opened' : Bool} (h : next opened none word = .inside opened' quote) :
    quote = none ∧ endsLine word = false := by
  rw [next] at h
  split at h
  · exact absurd h (by simp)
  · rename_i hline
    exact ⟨(Mode.inside.inj h).2.symm, Bool.eq_false_iff.mpr hline⟩

theorem region_cons (opened : Bool) (quote : Option Char) (last word : Text) (rest : List Text) :
    region quote last (word :: rest) =
      match next opened quote last with
      | .outside => (last, quote, word :: rest)
      | .inside _ quote => region quote word rest := by
  cases quote with
  | none =>
    rw [region, next]
    cases endsLine last <;> rfl
  | some delimiter =>
    rw [region, next]
    cases endsWithQuote last delimiter
    · cases endsWithEscapedQuote last delimiter <;> rfl
    · rfl

theorem region_closed {last : Text} (h : next opened quote last = .outside) (rest : List Text) :
    region quote last rest = (last, quote, rest) := by
  cases rest with
  | nil => rfl
  | cons word rest => rw [region_cons opened, h]

/-- A path that is over before some words does not depend on them. -/
theorem region_append {last : Text} (h : words.foldl step (next opened quote last) = .outside)
    (rest : List Text) :
    ∃ last' quote' after, region quote last words = (last', quote', after) ∧
      region quote last (words ++ rest) = (last', quote', after ++ rest) ∧
      modeAfter after = .outside := by
  induction words generalizing quote last with
  | nil => exact ⟨last, quote, [], rfl, region_closed h rest, rfl⟩
  | cons word words ih =>
    cases hnext : next opened quote last with
    | outside =>
      rw [hnext] at h
      exact ⟨last, quote, word :: words, region_closed hnext _, region_closed hnext _, h⟩
    | inside opened' quote' =>
      obtain rfl := next_opened hnext
      rw [hnext, List.foldl_cons] at h
      rw [List.cons_append, region_cons opened', region_cons opened', hnext]
      exact ih h

theorem scrubTokens_append (h : modeAfter words = .outside) (rest : List Text) :
    scrubTokens (words ++ rest) = scrubTokens words ++ scrubTokens rest := by
  induction hlength : words.length using Nat.strongRecOn generalizing words with
  | _ length ih =>
    cases words with
    | nil => simp [scrubTokens]
    | cons word words =>
      unfold modeAfter at h
      rw [List.foldl_cons, step] at h
      rw [List.cons_append, scrubTokens, scrubTokens]
      split
      · rename_i hpath
        rw [if_pos hpath] at h
        obtain ⟨last, quote, after, hregion, hregion', hafter⟩ := region_append h rest
        have hle := region_length_le (openingQuote (trimEnd word)) word words
        rw [hregion] at hle
        simp only [List.length_cons] at hlength hle
        simp only [hregion, hregion', List.cons_append]
        rw [ih after.length (by omega) hafter rfl]
      · rename_i hpath
        rw [if_neg hpath] at h
        rw [List.cons_append, ih words.length (by simp only [List.length_cons] at hlength; omega) h
          rfl]

end CopyPaste.Redact.Scan
