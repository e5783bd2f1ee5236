import Mathlib.Data.List.Infix
import CopyPaste.Redact.Lines

/-!
Nothing of a path is left in a scrubbed message: two messages that differ only in the text of
one path, quoted or not, are scrubbed to the same message.
-/

namespace CopyPaste.Redact.Leaks

open Merge.Payload Paths Scan Lines

variable {words : List Text} {word lead rest label opener text closing : Text} {c quote : Char}

/-- A path that a text leaves open goes on with the next word. -/
theorem region_inside {opened opened' : Bool} {quote quote' : Option Char} {last : Text}
    (h : words.foldl step (next opened quote last) = .inside opened' quote') :
    (∀ word rest, region quote last (words ++ word :: rest) = region quote' word rest) ∨
      ∃ last' found after, after.length ≤ words.length ∧
        modeAfter after = .inside opened' quote' ∧
        ∀ rest, region quote last (words ++ rest) = (last', found, after ++ rest) := by
  induction words generalizing quote last with
  | nil =>
    rw [List.foldl_nil] at h
    refine Or.inl fun word rest => ?_
    rw [List.nil_append, region_cons opened, h]
  | cons word words ih =>
    cases hnext : next opened quote last with
    | outside =>
      rw [hnext] at h
      exact Or.inr ⟨last, quote, word :: words, Nat.le_refl _, h, fun _ => region_closed hnext _⟩
    | inside open' found =>
      obtain rfl := next_opened hnext
      rw [hnext, List.foldl_cons] at h
      simp only [List.cons_append, region_cons open', hnext]
      exact (ih h).imp_right fun ⟨last', found', after, hle, hafter, hregion⟩ =>
        ⟨last', found', after, Nat.le_succ_of_le hle, hafter, hregion⟩

theorem scrubTokens_inside {opened : Bool} {quote : Option Char}
    (h : modeAfter words = .inside opened quote) :
    ∃ kept, ∀ word rest last found after, region quote word rest = (last, found, after) →
      scrubTokens (words ++ word :: rest) = kept ++ marked last found :: scrubTokens after := by
  induction hlength : words.length using Nat.strongRecOn generalizing words with
  | _ length ih =>
    cases words with
    | nil => exact absurd h (by simp [modeAfter])
    | cons first words =>
      simp only [List.length_cons] at hlength
      unfold modeAfter at h
      rw [List.foldl_cons, step] at h
      split at h
      · rename_i hpath
        rcases region_inside h with hopen | ⟨last', found', left, hle, hleft, hregion⟩
        · refine ⟨[], fun word rest last found after hfound => ?_⟩
          rw [List.cons_append, scrubTokens, if_pos hpath]
          simp only [hopen, hfound, List.nil_append]
        · obtain ⟨kept, hkept⟩ := ih left.length (by omega) hleft rfl
          refine ⟨marked last' found' :: kept, fun word rest last found after hfound => ?_⟩
          rw [List.cons_append, scrubTokens, if_pos hpath]
          simp only [hregion, hkept word rest last found after hfound, List.cons_append]
      · rename_i hpath
        obtain ⟨kept, hkept⟩ := ih words.length (by omega) h rfl
        refine ⟨first :: kept, fun word rest last found after hfound => ?_⟩
        rw [List.cons_append, scrubTokens, if_neg hpath, hkept word rest last found after hfound,
          List.cons_append]

/-- Whether a word stands in a path that no quote ends. -/
def InUnquoted (before word : Text) : Prop :=
  (∃ opened, modeAfter (tokens before) = .inside opened none) ∨
    modeAfter (tokens before) = .outside ∧ looksLikePath word = true ∧ openingQuote word = none

theorem scrubPaths_lineEnd {before : Text} (hbefore : AtWord before)
    (hword : ∀ x ∈ word, isWhitespace x = false) (hc : isLineEnd c = true)
    (hpath : InUnquoted before word) :
    ∃ kept, ∀ after, scrubPaths (before ++ (word ++ c :: after)) =
      kept ++ (mark ++ c :: scrubPaths after) := by
  have htrim : trimEnd (word ++ [c]) = word := trimEnd_append hword fun x hx => by
    rw [List.mem_singleton.mp hx]
    exact isWhitespace_of_isLineEnd hc
  have hends : endsLine (word ++ [c]) = true := by simp [endsLine, hc]
  have hmarked : marked (word ++ [c]) none = mark ++ [c] := by simp [marked, hends, htrim]
  have hwords : ∀ after, tokens (before ++ (word ++ c :: after)) =
      tokens before ++ (word ++ [c]) :: tokens after := by
    intro after
    rw [tokens_append hbefore, List.append_cons,
      tokens_whole ⟨word, c, rfl, isWhitespace_of_isLineEnd hc, hword⟩]
  have hregion : ∀ opened rest, region none (word ++ [c]) rest = (word ++ [c], none, rest) :=
    fun opened => @region_closed opened _ _ (by simp [next, hends])
  rcases hpath with ⟨opened, hmode⟩ | ⟨hmode, hlooks, hquote⟩
  · obtain ⟨kept, hkept⟩ := scrubTokens_inside hmode
    refine ⟨kept.flatten, fun after => ?_⟩
    rw [scrubPaths, hwords, hkept _ _ _ _ _ (hregion opened _), hmarked, List.flatten_append,
      List.flatten_cons, List.append_assoc mark]
    rfl
  · refine ⟨scrubPaths before, fun after => ?_⟩
    rw [scrubPaths, hwords, scrubTokens_append hmode, scrubTokens, htrim, if_pos hlooks]
    simp only [hquote, hregion true, hmarked, List.flatten_append, List.flatten_cons,
      List.append_assoc mark]
    rfl

/-- The label of a path, with the sign after it. -/
def Label (label : Text) : Prop :=
  label = [] ∨ ∃ name separator, label = name ++ [separator] ∧ isLabel name = true ∧
    (separator = '=' ∨ separator = ':')

/-- What a quoted path begins with: brackets, a label and the quote. -/
def Opener (opener : Text) (quote : Char) : Prop :=
  ∃ brackets label, opener = brackets ++ (label ++ [quote]) ∧ isQuote quote = true ∧
    (∀ x ∈ brackets, isBracket x = true) ∧ Label label

theorem splitOnce_label {name : Text} (h : ∀ x ∈ name, isLabelChar x = true) {separator : Char}
    (hseparator : isLabelChar separator = false) (rest : Text) :
    splitOnce separator (name ++ separator :: rest) = some (name, rest) := by
  have hname : ∀ x ∈ name, (x != separator) = true := by
    intro x hx
    refine bne_iff_ne.mpr ?_
    rintro rfl
    exact absurd (h x hx) (by simp [hseparator])
  rw [splitOnce, if_pos (by simp), List.takeWhile_append_of_pos hname,
    List.dropWhile_append_of_pos hname]
  simp

theorem isLabel_of_mem {value : Text} (h : c ∈ value) (hc : isLabelChar c = false) :
    isLabel value = false := by
  have hall : value.all isLabelChar = false := List.all_eq_false.mpr ⟨c, h, by simp [hc]⟩
  rw [isLabel, hall, Bool.and_false]

theorem splitOnce_other {separator : Char} (hne : c ≠ separator) (hlead : separator ∉ lead)
    (hc : isLabelChar c = false) :
    (splitOnce separator (lead ++ c :: rest)).filter (fun parts => isLabel parts.1) = none := by
  have hname : ∀ x ∈ lead, (x != separator) = true := by
    intro x hx
    refine bne_iff_ne.mpr ?_
    rintro rfl
    exact hlead hx
  rw [splitOnce]
  split
  · rw [List.takeWhile_append_of_pos hname, List.takeWhile_cons, if_pos (bne_iff_ne.mpr hne),
      Option.filter_some, isLabel_of_mem (List.mem_append_right _ List.mem_cons_self) hc]
    rfl
  · rfl

theorem quote_cases (h : isQuote quote = true) :
    isLabelChar quote = false ∧ isBracket quote = false ∧ isClosing quote = false ∧
      isWhitespace quote = false ∧ quote ≠ '=' ∧ quote ≠ ':' ∧ quote ≠ '/' ∧ quote ≠ '\\' := by
  unfold isQuote at h
  simp only [Bool.or_eq_true, beq_iff_eq] at h
  rcases h with (rfl | rfl) | rfl <;> decide

theorem pathValue_label (hlabel : Label label) (hquote : isQuote quote = true) (rest : Text) :
    pathValue (label ++ quote :: rest) = quote :: rest := by
  obtain ⟨hchar, -, -, -, hequals, hcolon, -⟩ := quote_cases hquote
  unfold pathValue
  rcases hlabel with rfl | ⟨name, separator, rfl, hname, hseparator⟩
  · have hnone : ∀ separator, quote ≠ separator →
        (splitOnce separator (quote :: rest)).filter (fun parts => isLabel parts.1) = none :=
      fun separator hne => @splitOnce_other [] rest quote separator hne List.not_mem_nil hchar
    rw [List.nil_append, hnone '=' hequals, hnone ':' hcolon]
    rfl
  · have hall : ∀ x ∈ name, isLabelChar x = true := by
      unfold isLabel at hname
      exact List.all_eq_true.mp (Bool.and_eq_true_iff.mp hname).2
    rw [List.append_assoc, List.singleton_append]
    rcases hseparator with rfl | rfl
    · rw [splitOnce_label hall (by decide), Option.filter_some, if_pos hname]
      rfl
    · have hequals : '=' ∉ name := fun hmem => absurd (hall '=' hmem) (by decide)
      rw [splitOnce_other (by decide) hequals (by decide), splitOnce_label hall (by decide),
        Option.filter_some, if_pos hname]
      rfl

/-- A label begins with a character that no path is stripped of. -/
theorem label_head (hlabel : Label label) (hne : label ≠ []) (rest : Text) :
    ∃ c more, label ++ rest = c :: more ∧ isBracket c = false ∧ isQuote c = false := by
  obtain ⟨name, separator, rfl, hname, -⟩ := hlabel.resolve_left hne
  unfold isLabel at hname
  obtain ⟨hlength, hall⟩ := Bool.and_eq_true_iff.mp hname
  cases name with
  | nil => exact absurd hlength (by decide)
  | cons c name =>
    have hc : isLabelChar c = true := List.all_eq_true.mp hall c List.mem_cons_self
    refine ⟨c, _, rfl, ?_, ?_⟩
    · cases hbracket : isBracket c with
      | false => rfl
      | true =>
        simp only [isBracket, Bool.or_eq_true, beq_iff_eq] at hbracket
        rcases hbracket with (rfl | rfl) | rfl <;> exact absurd hc (by decide)
    · cases hquote : isQuote c with
      | false => rfl
      | true => exact absurd hc (by simp [(quote_cases hquote).1])

theorem openingQuote_opener (h : Opener opener quote) (rest : Text) :
    openingQuote (opener ++ rest) = some quote := by
  obtain ⟨brackets, label, rfl, hquote, hbrackets, hlabel⟩ := h
  have hstrip : (label ++ quote :: rest).dropWhile isBracket = label ++ quote :: rest := by
    by_cases hne : label = []
    · subst hne
      simp [(quote_cases hquote).2.1]
    · obtain ⟨c, more, hcons, hc, -⟩ := label_head hlabel hne (quote :: rest)
      rw [hcons, List.dropWhile_cons, hc]
      rfl
  rw [openingQuote, List.append_assoc, List.append_assoc, List.singleton_append,
    List.dropWhile_append_of_pos hbrackets, hstrip, pathValue_label hlabel hquote]
  simp [hquote]

theorem slash_of_toLower (h : c.toLower = '/') : c = '/' := by
  unfold Char.toLower at h
  split at h
  · rename_i hupper
    have hnumber := congrArg Char.val h
    simp only [ge_iff_le, UInt32.le_iff_toNat_le] at hupper
    simp only [← UInt32.toNat_inj, UInt32.toNat_add] at hnumber
    grind
  · exact h

theorem startsWith_slash {value : Text} (h : startsWithIgnoreAsciiCase value lead = true)
    (hlead : '/' ∈ lead) : '/' ∈ value := by
  have hmem : '/' ∈ (value.take lead.length).map Char.toLower := by
    rw [eq_of_beq h]
    exact List.mem_map.mpr ⟨'/', hlead, by decide⟩
  obtain ⟨c, hc, hlower⟩ := List.mem_map.mp hmem
  exact slash_of_toLower hlower ▸ List.mem_of_mem_take hc

theorem isPath_closing {core : Text} (h : ∀ x ∈ core, isClosing x = true) : isPath core = false := by
  have hstarts : ∀ lead : Text, lead.all isClosing = false → lead.isPrefixOf core = false := by
    intro lead hlead
    obtain ⟨x, hx, hnot⟩ := List.all_eq_false.mp hlead
    refine Bool.eq_false_iff.mpr fun habs => hnot ?_
    exact h x ((List.isPrefixOf_iff_prefix.mp habs).subset hx)
  have hcontains : ∀ part : Text, '/' ∈ part → contains core part = false := by
    intro part hpart
    refine List.any_eq_false.mpr fun tail htail habs => ?_
    have hslash := (List.isPrefixOf_iff_prefix.mp habs).subset hpart
    exact absurd (h '/' (((List.mem_tails _ _).mp htail).subset hslash)) (by decide)
  have hfile : startsWithIgnoreAsciiCase core "file://".toList = false :=
    Bool.eq_false_iff.mpr fun habs =>
      absurd (h '/' (startsWith_slash habs (by decide))) (by decide)
  have hvariable : startsWithPathVariable core = false := by
    unfold startsWithPathVariable
    split
    · exact absurd (h '$' List.mem_cons_self) (by decide)
    · exact absurd (h '%' List.mem_cons_self) (by decide)
    · rfl
  have hdrive : startsWithWindowsDrive core = false := by
    unfold startsWithWindowsDrive
    split
    · exact absurd (h ':' (by simp)) (by decide)
    · rfl
  have hleads : ["/", "~/", "~\\", "./", ".\\", "../", "..\\"].any
      (fun lead => lead.toList.isPrefixOf core) = false := by
    refine List.any_eq_false.mpr fun lead hlead => Bool.eq_false_iff.mp (hstarts _ ?_)
    revert lead
    decide
  rw [isPath, hleads, hfile, hcontains _ (by decide), hcontains _ (by decide), hvariable,
    hstarts _ (by decide), hdrive, hstarts _ (by decide)]
  rfl

theorem closing_cases (h : isClosing c = true) :
    isBracket c = false ∧ isQuote c = false ∧ c ≠ '=' ∧ c ≠ ':' ∧ c ≠ '/' := by
  unfold isClosing at h
  simp only [Bool.or_eq_true, beq_iff_eq] at h
  rcases h with ((((rfl | rfl) | rfl) | rfl) | rfl) | rfl <;> decide

theorem not_mem_label (hlabel : Label label) : '/' ∉ label := by
  rcases hlabel with rfl | ⟨name, separator, rfl, hname, hseparator⟩
  · exact List.not_mem_nil
  · unfold isLabel at hname
    intro hmem
    rcases List.mem_append.mp hmem with hmem | hmem
    · exact absurd (List.all_eq_true.mp (Bool.and_eq_true_iff.mp hname).2 '/' hmem) (by decide)
    · rcases hseparator with rfl | rfl <;> exact absurd hmem (by decide)

/-- A quote that only closing punctuation follows opens no path. -/
theorem looksLikePath_opener {closers : Text} (h : Opener opener quote)
    (hclosers : ∀ x ∈ closers, isClosing x = true) : looksLikePath (opener ++ closers) = false := by
  obtain ⟨brackets, label, rfl, hquote, hbrackets, hlabel⟩ := h
  have hstrip : ∀ p : Char → Bool, (∀ x ∈ closers, p x = false) → closers.dropWhile p = closers := by
    intro p hp
    cases closers with
    | nil => rfl
    | cons c closers => rw [List.dropWhile_cons, hp c List.mem_cons_self, if_neg (by simp)]
  have hquotes := hstrip isQuote fun x hx => (closing_cases (hclosers x hx)).2.1
  obtain ⟨core, hcore, hslash, hvalue⟩ : ∃ core,
      (brackets ++ (label ++ [quote]) ++ closers).dropWhile (fun c => isBracket c || isQuote c) = core ∧
        '/' ∉ core ∧ (pathValue core).dropWhile isQuote = closers := by
    rw [List.append_assoc, List.append_assoc, List.singleton_append,
      List.dropWhile_append_of_pos fun x hx => by simp [hbrackets x hx]]
    by_cases hne : label = []
    · subst hne
      have hnone : ∀ separator, (∀ x ∈ closers, x ≠ separator) →
          splitOnce separator closers = none := fun separator hall =>
        if_neg fun hmem => hall separator hmem rfl
      refine ⟨closers, ?_, fun hmem => (closing_cases (hclosers '/' hmem)).2.2.2.2 rfl, ?_⟩
      · rw [List.nil_append, List.dropWhile_cons, hquote, Bool.or_true, if_pos rfl]
        exact hstrip _ fun x hx => by simp [closing_cases (hclosers x hx)]
      · rw [pathValue, hnone '=' fun x hx => (closing_cases (hclosers x hx)).2.2.1,
          hnone ':' fun x hx => (closing_cases (hclosers x hx)).2.2.2.1]
        exact hquotes
    · obtain ⟨c, more, hcons, hbracket, hquote'⟩ := label_head hlabel hne (quote :: closers)
      refine ⟨label ++ quote :: closers, ?_, ?_, ?_⟩
      · rw [hcons, List.dropWhile_cons, hbracket, hquote']
        rfl
      · simp only [List.mem_append, List.mem_cons, not_or]
        exact ⟨not_mem_label hlabel, (quote_cases hquote).2.2.2.2.2.2.1.symm,
          fun hmem => (closing_cases (hclosers '/' hmem)).2.2.2.2 rfl⟩
      · rw [pathValue_label hlabel hquote, List.dropWhile_cons, if_pos hquote, hquotes]
  have hfile : ¬ startsWithIgnoreAsciiCase core "file://".toList = true := fun habs =>
    hslash (startsWith_slash habs (by decide))
  unfold looksLikePath
  simp only [hcore, hvalue, if_neg hfile, isPath_closing hclosers, ite_self]

theorem rdropWhile_append {p : Char → Bool} {tail : Text} (hlead : lead.getLast? = some c)
    (hc : p c = false) : (lead ++ tail).rdropWhile p = lead ++ tail.rdropWhile p := by
  induction tail using List.reverseRecOn with
  | nil =>
    obtain ⟨body, rfl⟩ := List.getLast?_eq_some_iff.mp hlead
    simp [hc]
  | append_singleton tail x ih =>
    rw [← List.append_assoc, List.rdropWhile_concat, List.rdropWhile_concat, ih]
    split
    · rfl
    · rw [List.append_assoc]

theorem Opener.getLast? (h : Opener opener quote) : opener.getLast? = some quote := by
  obtain ⟨brackets, label, rfl, -⟩ := h
  simp

/-- The word that opens a path closes it only with a quote of its own text. -/
theorem beforeQuote_opener (h : Opener opener quote)
    (hlooks : looksLikePath (trimEnd (opener ++ word)) = true)
    (hword : beforeQuote word quote = none) : beforeQuote (opener ++ word) quote = none := by
  obtain ⟨-, -, hclosing, hwhite, -⟩ := quote_cases h.choose_spec.choose_spec.2.1
  have htrim : trimEnd (opener ++ word) = opener ++ trimEnd word :=
    rdropWhile_append h.getLast? hwhite
  have hbare : (opener ++ trimEnd word).rdropWhile isClosing =
      opener ++ (trimEnd word).rdropWhile isClosing := rdropWhile_append h.getLast? hclosing
  rw [beforeQuote, htrim, hbare]
  rw [beforeQuote] at hword
  rcases List.eq_nil_or_concat' ((trimEnd word).rdropWhile isClosing) with hnil | ⟨body, c, hconcat⟩
  · have hall := List.rdropWhile_eq_nil_iff.mp hnil
    rw [htrim, looksLikePath_opener h hall] at hlooks
    exact absurd hlooks (by simp)
  · rw [hconcat] at hword ⊢
    simpa [← List.append_assoc] using hword

theorem isWhitespace_labelChar (h : isLabelChar c = true) : isWhitespace c = false := by
  have hnumber : 48 ≤ c.toNat ∧ c.toNat ≤ 122 := by
    unfold isLabelChar isAsciiAlphabetic at h
    simp only [Bool.or_eq_true, decide_eq_true_eq, beq_iff_eq, Char.le_def,
      UInt32.le_iff_toNat_le] at h
    rcases h with ((h | h) | h) | rfl
    · exact ⟨Nat.le_trans (by decide) h.1, h.2⟩
    · exact ⟨Nat.le_trans (by decide) h.1, Nat.le_trans h.2 (by decide)⟩
    · exact ⟨h.1, Nat.le_trans h.2 (by decide)⟩
    · decide
  unfold isWhitespace
  simp
  omega

theorem isWhitespace_opener (h : Opener opener quote) : ∀ x ∈ opener, isWhitespace x = false := by
  obtain ⟨brackets, label, rfl, hquote, hbrackets, hlabel⟩ := h
  intro x hx
  rcases List.mem_append.mp hx with hx | hx
  · have hbracket := hbrackets x hx
    simp only [isBracket, Bool.or_eq_true, beq_iff_eq] at hbracket
    rcases hbracket with (rfl | rfl) | rfl <;> decide
  · rcases List.mem_append.mp hx with hx | hx
    · rcases hlabel with rfl | ⟨name, separator, rfl, hname, hseparator⟩
      · exact absurd hx List.not_mem_nil
      · rcases List.mem_append.mp hx with hx | hx
        · unfold isLabel at hname
          exact isWhitespace_labelChar
            (List.all_eq_true.mp (Bool.and_eq_true_iff.mp hname).2 x hx)
        · rw [List.mem_singleton.mp hx]
          rcases hseparator with rfl | rfl <;> decide
    · rw [List.mem_singleton.mp hx]
      exact (quote_cases hquote).2.2.2.1

theorem isWhitespace_closing (h : isClosing c = true) : isWhitespace c = false := by
  unfold isClosing at h
  simp only [Bool.or_eq_true, beq_iff_eq] at h
  rcases h with ((((rfl | rfl) | rfl) | rfl) | rfl) | rfl <;> decide

theorem tokens_joined (hopener : ∀ x ∈ opener, isWhitespace x = false)
    (h : tokens text = word :: words) : tokens (opener ++ text) = (opener ++ word) :: words := by
  induction opener with
  | nil => exact h
  | cons c opener ih =>
    obtain ⟨hc, hopener⟩ := List.forall_mem_cons.mp hopener
    rw [List.cons_append, tokens, ih hopener, hc]
    rfl

/-- The word that closes a quoted path. -/
theorem tokens_closing (hquote : isQuote quote = true) (hlead : ∀ x ∈ lead, isWhitespace x = false)
    (hescaped : lead.getLast? ≠ some '\\') (hclosing : ∀ x ∈ closing, isClosing x = true)
    (hrest : rest.head?.all isWhitespace = true) :
    ∃ last, tokens (lead ++ quote :: closing ++ rest) = last :: tokens (rest.drop 1) ∧
      endsWithQuote last quote = true ∧ marked last (some quote) = mark ++ rest.take 1 := by
  obtain ⟨-, -, hplain, hwhite, -⟩ := quote_cases hquote
  have hbody : ∀ x ∈ lead ++ quote :: closing, isWhitespace x = false := by
    intro x hx
    rcases List.mem_append.mp hx with hx | hx
    · exact hlead x hx
    · rcases List.mem_cons.mp hx with rfl | hx
      · exact hwhite
      · exact isWhitespace_closing (hclosing x hx)
  have hspace : ∀ x ∈ rest.take 1, isWhitespace x = true := by
    cases rest with
    | nil => exact fun _ habs => absurd habs List.not_mem_nil
    | cons c rest => exact fun x hx => by rwa [List.mem_singleton.mp hx]
  have htrim := trimEnd_append hbody hspace
  refine ⟨lead ++ quote :: closing ++ rest.take 1, ?_, ?_, ?_⟩
  · cases rest with
    | nil =>
      rw [List.append_nil, List.take_nil, List.append_nil]
      exact tokens_part ⟨by simp, hbody⟩
    | cons c rest =>
      have hwhole := tokens_whole ⟨_, c, rfl, hrest, hbody⟩ rest
      rwa [List.append_assoc] at hwhole
  · have hbare : (lead ++ quote :: closing).rdropWhile isClosing = lead ++ [quote] := by
      rw [List.append_cons, rdropWhile_append List.getLast?_concat hplain,
        List.rdropWhile_eq_nil_iff.mpr hclosing, List.append_nil]
    rw [endsWithQuote, beforeQuote, htrim, hbare]
    simp [hescaped]
  · rw [marked, htrim, List.drop_left]
    rfl

/-- A quoted path: no word of its text ends with the quote, and the text does not escape the
quote that closes it. -/
structure Quoted (opener text closing : Text) (quote : Char) : Prop where
  opens : Opener opener quote
  path : looksLikePath
    ((opener ++ (text ++ quote :: closing)).takeWhile fun c => !isWhitespace c) = true
  inner : ∀ word ∈ tokens text, beforeQuote word quote = none
  unescaped : text.getLast? ≠ some '\\'
  closes : ∀ x ∈ closing, isClosing x = true

theorem tokens_quoted (h : Quoted opener text closing quote)
    (hrest : rest.head?.all isWhitespace = true)
    (hfirst : ∀ word words, tokens (opener ++ (text ++ quote :: closing) ++ rest) = word :: words →
      looksLikePath (trimEnd word) = true) :
    ∃ init last, tokens (opener ++ (text ++ quote :: closing) ++ rest) =
        init ++ last :: tokens (rest.drop 1) ∧
      (∀ word ∈ init, beforeQuote word quote = none) ∧ endsWithQuote last quote = true ∧
      marked last (some quote) = mark ++ rest.take 1 := by
  obtain ⟨hopener, -, htext, hescaped, hclosing⟩ := h
  have hquote := hopener.choose_spec.choose_spec.2.1
  have hwhite := isWhitespace_opener hopener
  obtain ⟨front, back, rfl, hfront, hback⟩ := exists_last_word text
  rcases hfront with rfl | hspace
  · have hlast : (opener ++ back).getLast? ≠ some '\\' := by
      rw [List.getLast?_append, hopener.getLast?]
      cases hend : back.getLast? with
      | none => simpa using (quote_cases hquote).2.2.2.2.2.2.2
      | some c => simpa [hend] using hescaped
    have hlead : ∀ x ∈ opener ++ back, isWhitespace x = false := fun x hx =>
      (List.mem_append.mp hx).elim (hwhite x) (hback x)
    obtain ⟨last, htokens, hends, hmarked⟩ := tokens_closing hquote hlead hlast hclosing hrest
    refine ⟨[], last, ?_, fun _ habs => absurd habs List.not_mem_nil, hends, hmarked⟩
    rw [← htokens]
    simp
  · have hlast : back.getLast? ≠ some '\\' := by
      cases hend : back.getLast? with
      | none => simp
      | some c => simpa [hend] using hescaped
    obtain ⟨last, htokens, hends, hmarked⟩ := tokens_closing hquote hback hlast hclosing hrest
    obtain ⟨body, c, rfl, hc⟩ := hspace
    obtain ⟨word, words, hwords⟩ : ∃ word words, tokens (body ++ [c]) = word :: words :=
      List.exists_cons_of_ne_nil (tokens_ne_nil (by simp))
    rw [tokens_append (Or.inr ⟨body, c, rfl, hc⟩), hwords, List.cons_append] at htext
    obtain ⟨hword, hothers⟩ := List.forall_mem_cons.mp htext
    have hjoined := tokens_joined hwhite hwords
    have hsplit : tokens (opener ++ (body ++ [c] ++ back ++ quote :: closing) ++ rest) =
        (opener ++ word) :: words ++ last :: tokens (rest.drop 1) := by
      rw [← hjoined, ← htokens, ← tokens_append (Or.inr ⟨opener ++ body, c, by simp, hc⟩)]
      simp
    refine ⟨(opener ++ word) :: words, last, hsplit, List.forall_mem_cons.mpr ⟨?_, ?_⟩, hends, hmarked⟩
    · exact beforeQuote_opener hopener (hfirst _ _ hsplit) hword
    · exact fun other hother => hothers other (List.mem_append_left _ hother)

/-- A quoted path leaves its mark and the white space after it. -/
theorem scrubPaths_quoted {before : Text} (hbefore : Outside before)
    (h : Quoted opener text closing quote) (hrest : rest.head?.all isWhitespace = true) :
    scrubPaths (before ++ (opener ++ (text ++ quote :: closing) ++ rest)) =
      scrubPaths before ++ (mark ++ rest.take 1 ++ scrubPaths (rest.drop 1)) := by
  obtain ⟨token, tail, hpath, hword, htail, htoken⟩ : ∃ token tail,
      opener ++ (text ++ quote :: closing) = token ++ tail ∧
        (∀ x ∈ token, isWhitespace x = false) ∧ tail.head?.all isWhitespace = true ∧
        looksLikePath token = true ∧ openingQuote token = some quote := by
    refine ⟨_, _, (List.takeWhile_append_dropWhile (p := fun c => !isWhitespace c)).symm,
      fun x hx => by simpa using List.mem_takeWhile_imp hx, ?_, h.path, ?_⟩
    · have hhead := List.head?_dropWhile_not (fun c => !isWhitespace c)
        (opener ++ (text ++ quote :: closing))
      split at hhead
      · rename_i hsome
        simpa [hsome] using hhead
      · rename_i hnone
        simp [hnone]
    · rw [List.takeWhile_append_of_pos fun x hx => by simp [isWhitespace_opener h.opens x hx]]
      exact openingQuote_opener h.opens _
  have hne : token ≠ [] := by
    rintro rfl
    exact absurd htoken.1 (by decide)
  obtain ⟨space, words, hfirst, htrim⟩ := tokens_first hne hword (head?_append_all htail hrest)
  rw [← List.append_assoc, ← hpath] at hfirst
  obtain ⟨init, last, hsplit, hinit, hlast, hmarked⟩ := tokens_quoted h hrest
    fun word words hwords => by
      rw [hfirst] at hwords
      obtain ⟨rfl, -⟩ := List.cons.inj hwords
      rw [htrim]
      exact htoken.1
  rw [hfirst] at hsplit
  have hscrub := scrubTokens_path hsplit (by rw [htrim, htoken.1]) (by rw [htrim, htoken.2])
    (fun word hword => by simp [next, endsWithQuote, endsWithEscapedQuote, hinit word hword])
    (Or.inl (by simp [next, hlast]))
  rw [scrubPaths, tokens_append hbefore.1, scrubTokens_append hbefore.2, hfirst, hsplit, hscrub,
    hmarked, List.flatten_append, List.flatten_cons]
  rfl

theorem scrubPaths_leaks_nothing :
    (∀ message, scrubPaths (scrubPaths message) = scrubPaths message ∧
      ∀ word ∈ tokens (scrubPaths message), looksLikePath (trimEnd word) = false) ∧
    (∀ before line after, before.getLast?.all isLineEnd = true →
      (after = [] ∨ line.getLast?.all isLineEnd = true) →
      (∀ word ∈ tokens line, looksLikePath (trimEnd word) = false) →
      (∀ quote, modeAfter (tokens before) ≠ .inside true quote) →
      scrubPaths (before ++ line ++ after) = scrubPaths before ++ line ++ scrubPaths after) ∧
    (∀ before word c, AtWord before → (∀ x ∈ word, isWhitespace x = false) → isLineEnd c = true →
      InUnquoted before word →
      ∃ kept, ∀ after, scrubPaths (before ++ (word ++ c :: after)) =
        kept ++ (mark ++ c :: scrubPaths after)) ∧
    (∀ before token tail token' tail' rest, Outside before → Unquoted token tail →
      Unquoted token' tail' → rest.head?.all isLineEnd = true →
      scrubPaths (before ++ (token ++ tail ++ rest)) =
        scrubPaths (before ++ (token' ++ tail' ++ rest))) ∧
    (∀ before opener text text' closing rest quote, Outside before →
      Quoted opener text closing quote → Quoted opener text' closing quote →
      rest.head?.all isWhitespace = true →
      scrubPaths (before ++ (opener ++ (text ++ quote :: closing) ++ rest)) =
        scrubPaths (before ++ (opener ++ (text' ++ quote :: closing) ++ rest))) := by
  refine ⟨fun message => ⟨scrubPaths_scrubPaths message, scrubPaths_clean message⟩, ?_, ?_, ?_, ?_⟩
  · intro before line after hbefore hline hnone hquoted
    exact scrubPaths_line hbefore hline hnone hquoted
  · intro before word c hbefore hword hc hpath
    exact scrubPaths_lineEnd hbefore hword hc hpath
  · intro before token tail token' tail' rest hbefore hpath hpath' hrest
    rw [scrubPaths_unquoted hbefore hpath hrest, scrubPaths_unquoted hbefore hpath' hrest]
  · intro before opener text text' closing rest quote hbefore hpath hpath' hrest
    rw [scrubPaths_quoted hbefore hpath hrest, scrubPaths_quoted hbefore hpath' hrest]

theorem scrubPaths_leaks_nothing_retry :
    scrubPaths ("cannot open ".toList ++
        ("/Users/ana/Desk".toList ++ " top".toList ++ "\nretry".toList)) =
      scrubPaths ("cannot open ".toList ++ ("~/x".toList ++ [] ++ "\nretry".toList)) ∧
    scrubPaths ("cannot open ".toList ++
        ("path=\"".toList ++ ("/home/ana/my file".toList ++ '"' :: ".".toList) ++ " Retry".toList)) =
      scrubPaths ("cannot open ".toList ++
        ("path=\"".toList ++ ("/x".toList ++ '"' :: ".".toList) ++ " Retry".toList)) := by
  have hbefore : Outside "cannot open ".toList :=
    ⟨Or.inr ⟨"cannot open".toList, ' ', by decide, by decide⟩, by decide⟩
  have hopener : Opener "path=\"".toList '"' :=
    ⟨[], "path=".toList, by decide, by decide, List.forall_mem_nil _,
      Or.inr ⟨"path".toList, '=', by decide, by decide, Or.inl rfl⟩⟩
  obtain ⟨-, -, -, hunquoted, hquoted⟩ := scrubPaths_leaks_nothing
  have hdesk : Unquoted "/Users/ana/Desk".toList " top".toList :=
    ⟨forall_of_all (by decide), by decide, by decide, by decide, forall_of_all (by decide)⟩
  have hshort : Unquoted "~/x".toList [] :=
    ⟨forall_of_all (by decide), by decide, by decide, by decide, forall_of_all (by decide)⟩
  have hfile : Quoted "path=\"".toList "/home/ana/my file".toList ".".toList '"' :=
    ⟨hopener, by decide, by decide, by decide, List.all_eq_true.mp (by decide)⟩
  have hroot : Quoted "path=\"".toList "/x".toList ".".toList '"' :=
    ⟨hopener, by decide, by decide, by decide, List.all_eq_true.mp (by decide)⟩
  exact ⟨hunquoted "cannot open ".toList _ _ _ _ "\nretry".toList hbefore hdesk hshort (by decide),
    hquoted "cannot open ".toList _ _ _ _ " Retry".toList '"' hbefore hfile hroot (by decide)⟩

end CopyPaste.Redact.Leaks
