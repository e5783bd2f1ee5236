import CopyPaste.Redact.Scan

/-!
What the scrubbed message keeps: words that do not look like a path, the lines without one,
and the line end after a path without quotes.
-/

namespace CopyPaste.Redact.Lines

open Merge.Payload Paths Scan

variable {quote : Option Char} {last word before rest : Text} {after words : List Text} {c : Char}

theorem region_suffix {quote' : Option Char} {last' : Text} {rest : List Text}
    (h : region quote last rest = (last', quote', after)) :
    last' :: after <:+ last :: rest ∧
      (after = [] ∨ quote'.isSome = true ∨ endsLine last' = true) := by
  induction rest generalizing quote last with
  | nil =>
    cases h
    exact ⟨List.suffix_rfl, Or.inl rfl⟩
  | cons word rest ih =>
    rw [region_cons false] at h
    cases hnext : next false quote last with
    | outside =>
      rw [hnext] at h
      cases h
      exact ⟨List.suffix_rfl, Or.inr (next_outside hnext)⟩
    | inside opened quote =>
      rw [hnext] at h
      obtain ⟨hsuffix, hends⟩ := ih h
      exact ⟨hsuffix.trans (List.suffix_cons last _), hends⟩

theorem shape_suffix {words' : List Text} (h : Shape words) (hsuffix : words' <:+ words) :
    Shape words' := by
  induction words with
  | nil => rwa [List.suffix_nil.mp hsuffix]
  | cons word rest ih =>
    rcases List.suffix_cons_iff.mp hsuffix with rfl | hsuffix
    · exact h
    · exact ih h.tail hsuffix

theorem trimEnd_append {body space : Text} (hbody : ∀ x ∈ body, isWhitespace x = false)
    (hspace : ∀ x ∈ space, isWhitespace x = true) : trimEnd (body ++ space) = body := by
  unfold trimEnd List.rdropWhile
  rw [List.reverse_append,
    List.dropWhile_append_of_pos fun x hx => hspace x (List.mem_reverse.mp hx)]
  have hkept : body.reverse.dropWhile isWhitespace = body.reverse := by
    cases hlast : body.reverse with
    | nil => rfl
    | cons x rest =>
      have hx : x ∈ body := List.mem_reverse.mp (hlast ▸ List.mem_cons_self)
      rw [List.dropWhile_cons, hbody x hx]
      rfl
  rw [hkept, List.reverse_reverse]

/-- The mark with at most the white space of the word that it stands for. -/
theorem marked_eq (h : Whole last ∨ Part last) (quote : Option Char) :
    ∃ space, marked last quote = mark ++ space ∧
      (space = [] ∨ ∃ c, isWhitespace c = true ∧ space = [c]) ∧
      (Whole last → quote.isSome = true ∨ endsLine last = true → space ≠ []) := by
  refine ⟨_, rfl, ?_⟩
  rcases h with ⟨body, c, rfl, hc, hbody⟩ | ⟨hne, hall⟩
  · rw [trimEnd_append hbody fun x hx => by rwa [List.mem_singleton.mp hx], List.drop_left]
    split
    · exact ⟨Or.inr ⟨c, hc, rfl⟩, fun _ _ => by simp⟩
    · rename_i hends
      exact ⟨Or.inl rfl, fun _ habs => absurd (by simpa using habs) hends⟩
  · have htrim := @trimEnd_append last [] hall fun _ hx => absurd hx List.not_mem_nil
    rw [List.append_nil] at htrim
    rw [htrim, List.drop_length, ite_self]
    refine ⟨Or.inl rfl, ?_⟩
    rintro ⟨body, c, rfl, hc, _⟩
    exact absurd (hall c (by simp)) (by simp [hc])

theorem forall_of_all {p : Char → Bool} {text : Text} (h : (text.all fun x => !p x) = true) :
    ∀ x ∈ text, p x = false := by
  simpa using h

theorem isWhitespace_mark : ∀ x ∈ mark, isWhitespace x = false := forall_of_all (by decide)

theorem looksLikePath_mark : looksLikePath mark = false := by decide

/-- What is left after scrubbing is words of a message, and none of them looks like a path. -/
theorem scrubTokens_clean (h : Shape words) :
    Shape (scrubTokens words) ∧
      ∀ word ∈ scrubTokens words, looksLikePath (trimEnd word) = false := by
  induction hlength : words.length using Nat.strongRecOn generalizing words with
  | _ length ih =>
    cases words with
    | nil => simp [scrubTokens, Shape]
    | cons word words =>
      simp only [List.length_cons] at hlength
      rw [scrubTokens]
      split
      · obtain ⟨⟨last, quote, after⟩, hregion⟩ :
            ∃ found, region (openingQuote (trimEnd word)) word words = found := ⟨_, rfl⟩
        obtain ⟨hsuffix, hends⟩ := region_suffix hregion
        have hlast := shape_suffix h hsuffix
        have hle := region_length_le (openingQuote (trimEnd word)) word words
        rw [hregion] at hle
        simp only at hle
        obtain ⟨hshape, hnone⟩ := ih after.length (by omega) hlast.tail rfl
        obtain ⟨space, hmarked, hspace, hkept⟩ := marked_eq hlast.head quote
        have hwhite : ∀ x ∈ space, isWhitespace x = true := by
          rcases hspace with rfl | ⟨c, hc, rfl⟩
          · exact fun _ habs => absurd habs List.not_mem_nil
          · exact fun x hx => by rwa [List.mem_singleton.mp hx]
        simp only [hregion]
        refine ⟨?_, List.forall_mem_cons.mpr ⟨?_, hnone⟩⟩
        · rw [hmarked]
          rcases hspace with rfl | ⟨c, hc, rfl⟩
          · cases after with
            | nil =>
              rw [scrubTokens]
              exact Or.inr ⟨by decide, isWhitespace_mark⟩
            | cons next after =>
              exact absurd rfl (hkept hlast.1 (hends.resolve_left (by simp)))
          · exact shape_cons ⟨mark, c, rfl, hc, isWhitespace_mark⟩ hshape
        · rw [hmarked, trimEnd_append isWhitespace_mark hwhite]
          exact looksLikePath_mark
      · rename_i hpath
        obtain ⟨hshape, hnone⟩ := ih words.length (by omega) h.tail rfl
        refine ⟨?_, List.forall_mem_cons.mpr ⟨Bool.eq_false_iff.mpr hpath, hnone⟩⟩
        cases words with
        | nil => rwa [scrubTokens]
        | cons next words => exact shape_cons h.1 hshape

theorem scrubTokens_of_clean (h : ∀ word ∈ words, looksLikePath (trimEnd word) = false) :
    scrubTokens words = words := by
  induction words with
  | nil => rw [scrubTokens]
  | cons word words ih =>
    obtain ⟨hword, hwords⟩ := List.forall_mem_cons.mp h
    rw [scrubTokens, if_neg (by simp [hword]), ih hwords]

theorem modeAfter_of_clean (h : ∀ word ∈ words, looksLikePath (trimEnd word) = false) :
    modeAfter words = .outside := by
  induction words with
  | nil => rfl
  | cons word words ih =>
    obtain ⟨hword, hwords⟩ := List.forall_mem_cons.mp h
    rw [modeAfter, List.foldl_cons, step, if_neg (by simp [hword])]
    exact ih hwords

theorem tokens_scrubPaths (message : Text) :
    tokens (scrubPaths message) = scrubTokens (tokens message) :=
  tokens_of_shape (scrubTokens_clean (shape_tokens message)).1

theorem scrubPaths_clean (message : Text) :
    ∀ word ∈ tokens (scrubPaths message), looksLikePath (trimEnd word) = false := by
  rw [tokens_scrubPaths]
  exact (scrubTokens_clean (shape_tokens message)).2

theorem scrubPaths_scrubPaths (message : Text) :
    scrubPaths (scrubPaths message) = scrubPaths message := by
  rw [scrubPaths, scrubTokens_of_clean (scrubPaths_clean message), tokens_flatten]

/-- A path opened without a quote waits for no quote. -/
def Mode.Fits (mode : Mode) : Prop :=
  ∀ opened quote, mode = .inside opened quote → opened = true ∨ quote = none

theorem step_opened {mode : Mode} (h : Mode.Fits mode) {opened : Bool}
    (hstep : step mode word = .inside opened quote) :
    opened = true ∨ quote = none ∧ endsLine word = false := by
  cases mode with
  | outside =>
    rw [step] at hstep
    split at hstep
    · cases hquote : openingQuote (trimEnd word) with
      | some delimiter =>
        rw [hquote] at hstep
        exact Or.inl (next_opened hstep)
      | none =>
        rw [hquote] at hstep
        exact Or.inr (next_unquoted hstep)
    · exact absurd hstep (by simp)
  | inside opened' quote' =>
    rw [step] at hstep
    rcases h opened' quote' rfl with rfl | rfl
    · exact Or.inl (next_opened hstep)
    · exact Or.inr (next_unquoted hstep)

theorem foldl_fits {mode : Mode} (h : Mode.Fits mode) (words : List Text) :
    Mode.Fits (words.foldl step mode) := by
  induction words generalizing mode with
  | nil => exact h
  | cons word words ih =>
    exact ih fun _ _ hstep => (step_opened h hstep).imp_right And.left

theorem modeAfter_fits (words : List Text) : Mode.Fits (modeAfter words) :=
  foldl_fits (fun _ _ habs => absurd habs (by simp)) words

theorem isWhitespace_of_isLineEnd (h : isLineEnd c = true) : isWhitespace c = true := by
  unfold isLineEnd at h
  rcases Bool.or_eq_true _ _ ▸ h with h | h
  · rw [eq_of_beq h]
    decide
  · rw [eq_of_beq h]
    decide

theorem exists_last_word (text : Text) :
    ∃ front back, text = front ++ back ∧ AtWord front ∧ ∀ x ∈ back, isWhitespace x = false := by
  induction text using List.reverseRecOn with
  | nil => exact ⟨[], [], rfl, Or.inl rfl, fun _ habs => absurd habs List.not_mem_nil⟩
  | append_singleton body c ih =>
    cases hc : isWhitespace c with
    | true =>
      exact ⟨body ++ [c], [], by simp, Or.inr ⟨body, c, rfl, hc⟩,
        fun _ habs => absurd habs List.not_mem_nil⟩
    | false =>
      obtain ⟨front, back, rfl, hfront, hback⟩ := ih
      refine ⟨front, back ++ [c], by simp, hfront, fun x hx => ?_⟩
      rcases List.mem_append.mp hx with hx | hx
      · exact hback x hx
      · rwa [List.mem_singleton.mp hx]

theorem eq_nil_or_line (h : before.getLast?.all isLineEnd = true) :
    before = [] ∨ ∃ body c, before = body ++ [c] ∧ isLineEnd c = true := by
  rcases List.eq_nil_or_concat' before with rfl | ⟨body, c, rfl⟩
  · exact Or.inl rfl
  · rw [List.getLast?_concat, Option.all_some] at h
    exact Or.inr ⟨body, c, rfl, h⟩

theorem atWord_of_line (h : before.getLast?.all isLineEnd = true) : AtWord before := by
  rcases eq_nil_or_line h with rfl | ⟨body, c, rfl, hc⟩
  · exact Or.inl rfl
  · exact Or.inr ⟨body, c, rfl, isWhitespace_of_isLineEnd hc⟩

/-- After a line of the message only a path that was opened with a quote goes on. -/
theorem modeAfter_line (h : before.getLast?.all isLineEnd = true) :
    modeAfter (tokens before) = .outside ∨
      ∃ quote, modeAfter (tokens before) = .inside true quote := by
  rcases eq_nil_or_line h with rfl | ⟨body, c, rfl, hc⟩
  · exact Or.inl rfl
  · obtain ⟨front, back, rfl, hfront, hback⟩ := exists_last_word body
    have hword : tokens (back ++ [c]) = [back ++ [c]] := by
      have hwhole := tokens_whole ⟨back, c, rfl, isWhitespace_of_isLineEnd hc, hback⟩ []
      rwa [List.append_nil] at hwhole
    rw [List.append_assoc, tokens_append hfront, hword]
    cases hmode : modeAfter (tokens front ++ [back ++ [c]]) with
    | outside => exact Or.inl rfl
    | inside opened quote =>
      rw [modeAfter, List.foldl_append] at hmode
      rcases step_opened (modeAfter_fits (tokens front)) hmode with rfl | ⟨_, hline⟩
      · exact Or.inr ⟨quote, rfl⟩
      · exact absurd hline (by simp [endsLine, hc])

/-- A line without paths stays, unless a path that was opened with a quote goes on there. -/
theorem scrubPaths_line {line after : Text} (hbefore : before.getLast?.all isLineEnd = true)
    (hline : after = [] ∨ line.getLast?.all isLineEnd = true)
    (hnone : ∀ word ∈ tokens line, looksLikePath (trimEnd word) = false)
    (hquoted : ∀ quote, modeAfter (tokens before) ≠ .inside true quote) :
    scrubPaths (before ++ line ++ after) = scrubPaths before ++ line ++ scrubPaths after := by
  have hmode : modeAfter (tokens before) = .outside := by
    rcases modeAfter_line hbefore with hmode | ⟨quote, hmode⟩
    · exact hmode
    · exact absurd hmode (hquoted quote)
  have hwords : tokens (line ++ after) = tokens line ++ tokens after := by
    rcases hline with rfl | hend
    · rw [tokens, List.append_nil, List.append_nil]
    · exact tokens_append (atWord_of_line hend) after
  rw [List.append_assoc, scrubPaths, tokens_append (atWord_of_line hbefore), scrubTokens_append hmode,
    hwords, scrubTokens_append (modeAfter_of_clean hnone), scrubTokens_of_clean hnone,
    List.flatten_append, List.flatten_append, tokens_flatten, ← List.append_assoc]
  rfl

/-- A path whose words so far leave it open ends with the first word that closes it, or with
the message. -/
theorem region_run {opened : Bool} {first : Text} {init : List Text}
    (hinit : ∀ word ∈ init, next opened quote word = .inside opened quote)
    (hlast : next opened quote last = .outside ∨ after = [])
    (hwords : first :: words = init ++ last :: after) :
    region quote first words = (last, quote, after) := by
  induction init generalizing first words with
  | nil =>
    obtain ⟨rfl, rfl⟩ := List.cons.inj hwords
    rcases hlast with hlast | rfl
    · exact region_closed hlast words
    · rfl
  | cons word init ih =>
    obtain ⟨hword, hothers⟩ := List.forall_mem_cons.mp hinit
    obtain ⟨rfl, hrest⟩ := List.cons.inj hwords
    obtain ⟨second, third, hsecond⟩ : ∃ second third, init ++ last :: after = second :: third :=
      List.exists_cons_of_ne_nil (by simp)
    rw [hrest, List.append_eq, hsecond, region_cons opened, hword]
    exact ih hothers hsecond.symm

theorem scrubTokens_path {first : Text} {init : List Text}
    (hwords : first :: words = init ++ last :: after) (hpath : looksLikePath (trimEnd first) = true)
    (hquote : openingQuote (trimEnd first) = quote)
    (hinit : ∀ word ∈ init, next quote.isSome quote word = .inside quote.isSome quote)
    (hlast : next quote.isSome quote last = .outside ∨ after = []) :
    scrubTokens (init ++ last :: after) = marked last quote :: scrubTokens after := by
  have hregion := region_run hinit hlast hwords
  rw [← hwords, scrubTokens, if_pos hpath]
  simp only [hquote, hregion]

theorem mem_of_mem_tokens {text : Text} (h : word ∈ tokens text) (hc : c ∈ word) : c ∈ text := by
  rw [← tokens_flatten text]
  exact List.mem_flatten.mpr ⟨word, h, hc⟩

/-- The first word of a message that begins with this text. -/
theorem tokens_first {token : Text} (hne : token ≠ []) (hbody : ∀ x ∈ token, isWhitespace x = false)
    (hrest : rest.head?.all isWhitespace = true) :
    ∃ space words, tokens (token ++ rest) = (token ++ space) :: words ∧
      trimEnd (token ++ space) = token := by
  cases rest with
  | nil =>
    refine ⟨[], [], ?_, trimEnd_append hbody fun _ habs => absurd habs List.not_mem_nil⟩
    rw [List.append_nil]
    exact tokens_part ⟨hne, hbody⟩
  | cons c rest =>
    have hc : isWhitespace c = true := hrest
    refine ⟨[c], tokens rest, ?_, trimEnd_append hbody fun x hx => by rwa [List.mem_singleton.mp hx]⟩
    rw [← tokens_whole ⟨token, c, rfl, hc, hbody⟩ rest]
    simp

/-- No path is open where the text ends, and the next word of the message begins there. -/
def Outside (before : Text) : Prop :=
  AtWord before ∧ modeAfter (tokens before) = .outside

/-- A path without quotes: its first word and what follows it on the line. -/
structure Unquoted (token tail : Text) : Prop where
  word : ∀ x ∈ token, isWhitespace x = false
  path : looksLikePath token = true
  unquoted : openingQuote token = none
  apart : tail.head?.all isWhitespace = true
  line : ∀ x ∈ tail, isLineEnd x = false

theorem head?_append_all {p : Char → Bool} {tail : Text} (htail : tail.head?.all p = true)
    (hrest : rest.head?.all p = true) : (tail ++ rest).head?.all p = true := by
  cases tail with
  | nil => exact hrest
  | cons x tail => exact htail

theorem isLineEnd_of_isWhitespace (h : isWhitespace c = false) : isLineEnd c = false := by
  cases hline : isLineEnd c with
  | false => rfl
  | true => exact absurd (isWhitespace_of_isLineEnd hline) (by simp [h])

theorem endsLine_of_none (h : ∀ x ∈ word, isLineEnd x = false) : endsLine word = false := by
  unfold endsLine
  cases hlast : word.getLast? with
  | none => rfl
  | some c => exact h c (List.mem_of_getLast? hlast)

/-- The words of a path without quotes up to the one that ends its line. -/
theorem tokens_line {path : Text} (hne : path ≠ []) (hnone : ∀ x ∈ path, isLineEnd x = false)
    (hrest : rest.head?.all isLineEnd = true) :
    ∃ init last, tokens (path ++ rest) = init ++ last :: tokens (rest.drop 1) ∧
      (∀ word ∈ init, endsLine word = false) ∧
      (endsLine last = true ∨ tokens (rest.drop 1) = []) ∧
      marked last none = mark ++ rest.take 1 := by
  have hwords : ∀ word ∈ tokens path, endsLine word = false := fun word hword =>
    endsLine_of_none fun x hx => hnone x (mem_of_mem_tokens hword hx)
  cases rest with
  | nil =>
    rw [List.append_nil]
    rcases List.eq_nil_or_concat' (tokens path) with hnil | ⟨init, last, hconcat⟩
    · exact absurd hnil (tokens_ne_nil hne)
    · rw [hconcat] at hwords ⊢
      have hlast := hwords last (by simp)
      exact ⟨init, last, rfl, fun word hword => hwords word (List.mem_append_left _ hword),
        Or.inr rfl, by simp [marked, hlast]⟩
  | cons c rest =>
    have hc : isLineEnd c = true := hrest
    obtain ⟨front, back, rfl, hfront, hback⟩ := exists_last_word path
    refine ⟨tokens front, back ++ [c], ?_, fun word hword => ?_, Or.inl (by simp [endsLine, hc]), ?_⟩
    · rw [List.append_assoc, tokens_append hfront, List.append_cons,
        tokens_whole ⟨back, c, rfl, isWhitespace_of_isLineEnd hc, hback⟩]
      rfl
    · exact endsLine_of_none fun x hx =>
        hnone x (List.mem_append_left _ (mem_of_mem_tokens hword hx))
    · have htrim : trimEnd (back ++ [c]) = back := trimEnd_append hback fun x hx => by
        rw [List.mem_singleton.mp hx]
        exact isWhitespace_of_isLineEnd hc
      simp [marked, endsLine, hc, htrim]

/-- A path without quotes leaves its mark and the line end after it. -/
theorem scrubPaths_unquoted {token tail : Text} (hbefore : Outside before)
    (hpath : Unquoted token tail) (hrest : rest.head?.all isLineEnd = true) :
    scrubPaths (before ++ (token ++ tail ++ rest)) =
      scrubPaths before ++ (mark ++ rest.take 1 ++ scrubPaths (rest.drop 1)) := by
  obtain ⟨hbody, hlooks, hquote, htail, hline⟩ := hpath
  have hnone : ∀ x ∈ token ++ tail, isLineEnd x = false := by
    intro x hx
    rcases List.mem_append.mp hx with hx | hx
    · exact isLineEnd_of_isWhitespace (hbody x hx)
    · exact hline x hx
  have hne : token ≠ [] := by
    rintro rfl
    exact absurd hlooks (by decide)
  have hwhite : rest.head?.all isWhitespace = true := by
    cases rest with
    | nil => rfl
    | cons c rest => exact isWhitespace_of_isLineEnd hrest
  obtain ⟨space, words, hfirst, htrim⟩ := tokens_first hne hbody (head?_append_all htail hwhite)
  obtain ⟨init, last, hsplit, hinit, hlast, hmarked⟩ := tokens_line (by simp [hne]) hnone hrest
  rw [List.append_assoc, hfirst] at hsplit
  have hscrub := scrubTokens_path hsplit (by rwa [htrim]) (by rw [htrim, hquote])
    (fun word hword => by simp [next, hinit word hword])
    (hlast.imp_left fun hends => by simp [next, hends])
  rw [scrubPaths, tokens_append hbefore.1, scrubTokens_append hbefore.2, List.append_assoc, hfirst,
    hsplit, hscrub, hmarked, List.flatten_append, List.flatten_cons]
  rfl

end CopyPaste.Redact.Lines
