import Mathlib

/-!
JSON text. Values are written without spaces and read with any between the tokens, to
a bounded depth. How strings and numbers are spelled is a parameter; what is written
of a value is read as that value, where its doubles survive their text.
-/

namespace CopyPaste.Lib.JsonText

/-- A number the text can hold: one of 64 bits, signed or not, or a finite double by
its rank in the order of the doubles. -/
inductive Number
  | whole (value : Int) (low : -2 ^ 63 ≤ value) (high : value < 2 ^ 64)
  | double (rank : Int) (low : -0x7FF0000000000001 < rank) (high : rank < 0x7FF0000000000000)
  deriving DecidableEq

inductive Json
  | null
  | bool (value : Bool)
  | number (value : Number)
  | string (value : String)
  | array (values : List Json)
  | object (fields : List (String × Json))

/-- Where a value may end. -/
def Ends (rest : List Char) : Prop :=
  ∀ c ∈ rest.head?, c = ',' ∨ c = ']' ∨ c = '\x7d'

def isPlain (c : Char) : Bool :=
  c.isLower || c = '_'

def startsNumber (c : Char) : Bool :=
  c = '-' || c.isDigit

/-- The spelling of strings, behind their opening quote, and of numbers. Whole numbers are
read back; of a double's text the reader makes the double it comes to. -/
structure Tokens where
  quote : String → List Char
  unquote : List Char → Option (String × List Char)
  digits : Number → List Char
  number : List Char → Option (Number × List Char)
  reread : Number → Number
  unquote_quote : ∀ text rest, unquote (quote text ++ rest) = some (text, rest)
  quote_plain : ∀ text : String, text.toList.all isPlain → quote text = text.toList ++ ['\x22']
  number_digits : ∀ value rest, Ends rest →
    number (digits value ++ rest) = some (reread value, rest)
  reread_whole : ∀ value low high, reread (.whole value low high) = .whole value low high
  digits_head : ∀ value, ∃ c cs, digits value = c :: cs ∧ startsNumber c

/-- A reader to which every double's text gives that double. -/
def Tokens.Faithful (tokens : Tokens) : Prop :=
  ∀ value, tokens.reread value = value

def isSpace (c : Char) : Bool :=
  c = ' ' || c = '\n' || c = '\t' || c = '\r'

def skipSpace (text : List Char) : List Char :=
  text.dropWhile isSpace

/-- The texts of the members of a list, with commas between. -/
def separate : List (List Char) → List Char
  | [] => []
  | [text] => text
  | text :: texts => text ++ ',' :: separate texts

def nullText : List Char := ['n', 'u', 'l', 'l']

def trueText : List Char := ['t', 'r', 'u', 'e']

def falseText : List Char := ['f', 'a', 'l', 's', 'e']

section

variable {α : Type} (element : List Char → Option (α × List Char)) (close : Char)

/-- The members of a list after its first comma or its opening, of at most so many. -/
def members : ℕ → List Char → Option (List α × List Char)
  | 0, _ => none
  | count + 1, text =>
    match element text with
    | none => none
    | some (first, rest) =>
      match skipSpace rest with
      | [] => none
      | c :: rest =>
        if c = ',' then (members count rest).map fun (others, rest) => (first :: others, rest)
        else if c = close then some ([first], rest)
        else none

def membersOf (text : List Char) : Option (List α × List Char) :=
  match skipSpace text with
  | [] => none
  | c :: rest => if c = close then some ([], rest) else members element close text.length text

end

def readWord (text : List Char) : Option (Json × List Char) :=
  if nullText.isPrefixOf text then some (.null, text.drop nullText.length)
  else if trueText.isPrefixOf text then some (.bool true, text.drop trueText.length)
  else if falseText.isPrefixOf text then some (.bool false, text.drop falseText.length)
  else none

variable (tokens : Tokens)

mutual

def Json.write : Json → List Char
  | .null => nullText
  | .bool true => trueText
  | .bool false => falseText
  | .number value => tokens.digits value
  | .string value => '\x22' :: tokens.quote value
  | .array values => '[' :: (separate (writeAll values) ++ [']'])
  | .object fields => '\x7b' :: (separate (writeFields fields) ++ ['\x7d'])

def writeAll : List Json → List (List Char)
  | [] => []
  | value :: values => value.write :: writeAll values

def writeFields : List (String × Json) → List (List Char)
  | [] => []
  | (key, value) :: fields =>
    ('\x22' :: (tokens.quote key ++ ':' :: value.write)) :: writeFields fields

end

/-- A name and the value after it. -/
def readField (value : List Char → Option (Json × List Char)) (text : List Char) :
    Option ((String × Json) × List Char) :=
  match skipSpace text with
  | [] => none
  | c :: rest =>
    if c ≠ '\x22' then none
    else
      match tokens.unquote rest with
      | none => none
      | some (key, rest) =>
        match skipSpace rest with
        | [] => none
        | c :: rest =>
          if c ≠ ':' then none
          else (value rest).map fun (value, rest) => ((key, value), rest)

/-- Read one value, with lists and objects in it to this depth. -/
def readValue : ℕ → List Char → Option (Json × List Char)
  | depth, text =>
    match skipSpace text with
    | [] => none
    | c :: rest =>
      if c = '\x22' then (tokens.unquote rest).map fun (value, rest) => (.string value, rest)
      else if startsNumber c then
        (tokens.number (c :: rest)).map fun (value, rest) => (.number value, rest)
      else if c = '[' then
        match depth with
        | 0 => none
        | depth + 1 =>
          (membersOf (readValue depth) ']' rest).map fun (values, rest) => (.array values, rest)
      else if c = '\x7b' then
        match depth with
        | 0 => none
        | depth + 1 =>
          (membersOf (readField tokens (readValue depth)) '\x7d' rest).map
            fun (fields, rest) => (.object fields, rest)
      else readWord (c :: rest)

example (depth : ℕ) : readValue tokens depth [' '] = none := by
  rw [readValue]
  rfl

def depthLimit : ℕ := 127

/-- Read a text that is one value. -/
def parse (text : List Char) : Option Json :=
  match readValue tokens depthLimit text with
  | some (value, rest) => if skipSpace rest = [] then some value else none
  | none => none

/-- A value whose text is read back: lists and objects in it only to this depth, and only
numbers that are themselves read back. -/
inductive Legible : ℕ → Json → Prop
  | null (depth : ℕ) : Legible depth .null
  | bool (depth : ℕ) (value : Bool) : Legible depth (.bool value)
  | string (depth : ℕ) (value : String) : Legible depth (.string value)
  | number (depth : ℕ) {value : Number} (h : tokens.reread value = value) :
    Legible depth (.number value)
  | array {depth : ℕ} {values : List Json} (h : ∀ value ∈ values, Legible depth value) :
    Legible (depth + 1) (.array values)
  | object {depth : ℕ} {fields : List (String × Json)}
      (h : ∀ field ∈ fields, Legible depth field.2) :
    Legible (depth + 1) (.object fields)

variable {tokens} in
theorem Legible.mono {depth more : ℕ} {value : Json} (h : Legible tokens depth value)
    (hle : depth ≤ more) : Legible tokens more value := by
  induction h generalizing more with
  | null depth => exact .null more
  | bool depth value => exact .bool more value
  | string depth value => exact .string more value
  | number depth h => exact .number more h
  | array h ih =>
    obtain ⟨more, rfl⟩ : ∃ n, more = n + 1 := ⟨more - 1, by omega⟩
    exact .array fun value hvalue => ih value hvalue (by omega)
  | object h ih =>
    obtain ⟨more, rfl⟩ : ∃ n, more = n + 1 := ⟨more - 1, by omega⟩
    exact .object fun field hfield => ih field hfield (by omega)

theorem skipSpace_cons {c : Char} (h : isSpace c = false) (text : List Char) :
    skipSpace (c :: text) = c :: text := by
  rw [skipSpace, List.dropWhile_cons_of_neg (by simp [h])]

theorem writeAll_eq (values : List Json) :
    writeAll tokens values = values.map (Json.write tokens) := by
  induction values with
  | nil => rfl
  | cons value values ih => exact congrArg (value.write tokens :: ·) ih

theorem write_array (values : List Json) :
    (Json.array values).write tokens =
      '[' :: (separate (values.map (Json.write tokens)) ++ [']']) :=
  congrArg (fun texts => '[' :: (separate texts ++ [']'])) (writeAll_eq tokens values)

def fieldText (field : String × Json) : List Char :=
  '\x22' :: (tokens.quote field.1 ++ ':' :: field.2.write tokens)

theorem writeFields_eq (fields : List (String × Json)) :
    writeFields tokens fields = fields.map (fieldText tokens) := by
  induction fields with
  | nil => rfl
  | cons field fields ih => exact congrArg (fieldText tokens field :: ·) ih

theorem write_object (fields : List (String × Json)) :
    (Json.object fields).write tokens =
      '\x7b' :: (separate (fields.map (fieldText tokens)) ++ ['\x7d']) :=
  congrArg (fun texts => '\x7b' :: (separate texts ++ ['\x7d'])) (writeFields_eq tokens fields)

theorem ne_of_startsNumber {c d : Char} (hc : startsNumber c = true)
    (hd : startsNumber d = false) : c ≠ d := by
  rintro rfl
  rw [hc] at hd
  cases hd

theorem isSpace_of_startsNumber {c : Char} (h : startsNumber c = true) : isSpace c = false := by
  have hspace := @ne_of_startsNumber c ' ' h (by decide)
  have hline := @ne_of_startsNumber c '\n' h (by decide)
  have htab := @ne_of_startsNumber c '\t' h (by decide)
  have hreturn := @ne_of_startsNumber c '\r' h (by decide)
  simp [isSpace, hspace, hline, htab, hreturn]

/-- What a value's text starts with. -/
theorem write_head (value : Json) :
    ∃ c cs, value.write tokens = c :: cs ∧ isSpace c = false ∧ c ≠ ']' := by
  cases value with
  | null => exact ⟨_, _, rfl, by decide, by decide⟩
  | bool value => cases value <;> exact ⟨_, _, rfl, by decide, by decide⟩
  | number value =>
    obtain ⟨c, cs, hdigits, hc⟩ := tokens.digits_head value
    exact ⟨c, cs, hdigits, isSpace_of_startsNumber hc, ne_of_startsNumber hc (by decide)⟩
  | string value | array values | object fields => exact ⟨_, _, rfl, by decide, by decide⟩

section

variable {α : Type} {element : List Char → Option (α × List Char)} {close : Char}
  {text : α → List Char} {xs : List α}

/-- The members that were written are read, when each of them is. -/
theorem members_separate (hclose : close = ']' ∨ close = '\x7d') (hne : xs ≠ [])
    (helement : ∀ x ∈ xs, ∀ rest, Ends rest → element (text x ++ rest) = some (x, rest))
    {count : ℕ} (hcount : xs.length ≤ count) (rest : List Char) :
    members element close count (separate (xs.map text) ++ close :: rest) = some (xs, rest) := by
  induction xs generalizing count with
  | nil => exact absurd rfl hne
  | cons x xs ih =>
    obtain ⟨count, rfl⟩ : ∃ n, count = n + 1 := ⟨count - 1, by
      rw [List.length_cons] at hcount
      omega⟩
    rw [List.length_cons] at hcount
    have hx := helement x (List.mem_cons_self ..)
    rw [members]
    cases xs with
    | nil =>
      have hends : Ends (close :: rest) := by
        intro c hc
        rw [List.head?_cons, Option.mem_some_iff] at hc
        exact Or.inr (hc ▸ hclose)
      have hspace : isSpace close = false := by rcases hclose with rfl | rfl <;> decide
      have hcomma : close ≠ ',' := by rcases hclose with rfl | rfl <;> decide
      simp only [List.map_cons, List.map_nil, separate, hx _ hends, skipSpace_cons hspace,
        if_neg hcomma, if_true]
    | cons y ys =>
      have hends : Ends (',' :: (separate ((y :: ys).map text) ++ close :: rest)) := by
        intro c hc
        rw [List.head?_cons, Option.mem_some_iff] at hc
        exact Or.inl hc.symm
      have hrest := ih (by simp) (fun z hz => helement z (List.mem_cons_of_mem _ hz))
        (Nat.le_of_succ_le_succ hcount)
      rw [List.map_cons] at hends hrest
      have hspace : isSpace ',' = false := by decide
      simp only [List.map_cons, separate, List.append_assoc, List.cons_append, hx _ hends,
        skipSpace_cons hspace, if_true, hrest, Option.map_some]

theorem length_le_separate (hne : ∀ x ∈ xs, text x ≠ []) :
    xs.length ≤ (separate (xs.map text)).length := by
  induction xs with
  | nil => exact Nat.zero_le _
  | cons x xs ih =>
    have hx : 0 < (text x).length := List.length_pos_iff.2 (hne x (List.mem_cons_self ..))
    have hxs := ih fun z hz => hne z (List.mem_cons_of_mem _ hz)
    cases xs with
    | nil =>
      rw [List.map_cons, List.map_nil, separate]
      exact hx
    | cons y ys =>
      rw [List.map_cons] at hxs
      have hsplit : separate (text x :: text y :: ys.map text) =
          text x ++ ',' :: separate (text y :: ys.map text) := rfl
      rw [List.map_cons, List.map_cons, hsplit, List.length_append]
      simp only [List.length_cons] at hxs ⊢
      omega

theorem membersOf_separate (hclose : close = ']' ∨ close = '\x7d')
    (hhead : ∀ x ∈ xs, ∃ c cs, text x = c :: cs ∧ isSpace c = false ∧ c ≠ close)
    (helement : ∀ x ∈ xs, ∀ rest, Ends rest → element (text x ++ rest) = some (x, rest))
    (rest : List Char) :
    membersOf element close (separate (xs.map text) ++ close :: rest) = some (xs, rest) := by
  cases xs with
  | nil =>
    have hspace : isSpace close = false := by rcases hclose with rfl | rfl <;> decide
    rw [List.map_nil, separate, List.nil_append, membersOf, skipSpace_cons hspace]
    exact if_pos rfl
  | cons x xs =>
    have hmembers := @members_separate α element close text (x :: xs) hclose (by simp) helement
      (separate ((x :: xs).map text) ++ close :: rest).length (by
        have := @length_le_separate α text (x :: xs) (by
          intro y hy
          obtain ⟨c, cs, htext, -⟩ := hhead y hy
          rw [htext]
          simp)
        rw [List.length_append]
        omega) rest
    obtain ⟨c, cs, htext, hspace, hne⟩ := hhead x (List.mem_cons_self ..)
    obtain ⟨tail, htail⟩ : ∃ tail, separate ((x :: xs).map text) ++ close :: rest = c :: tail := by
      rw [List.map_cons, htext]
      cases xs with
      | nil | cons y ys => exact ⟨_, rfl⟩
    rw [htail] at hmembers ⊢
    rw [membersOf, skipSpace_cons hspace]
    exact (if_neg hne).trans hmembers

end

theorem readField_fieldText {value : List Char → Option (Json × List Char)}
    {field : String × Json} {rest : List Char}
    (hvalue : value (field.2.write tokens ++ rest) = some (field.2, rest)) :
    readField tokens value (fieldText tokens field ++ rest) = some (field, rest) := by
  have hquote : isSpace '\x22' = false := by decide
  have hcolon : isSpace ':' = false := by decide
  rw [fieldText, readField, List.cons_append, skipSpace_cons hquote, List.append_assoc]
  simp only [ne_eq, not_true_eq_false, if_false, tokens.unquote_quote, List.cons_append,
    skipSpace_cons hcolon, hvalue, Option.map_some]

theorem readValue_number (depth : ℕ) (value : Number) {rest : List Char} (hrest : Ends rest) :
    readValue tokens depth (tokens.digits value ++ rest) =
      some (.number (tokens.reread value), rest) := by
  obtain ⟨c, cs, hdigits, hc⟩ := tokens.digits_head value
  have hnumber := tokens.number_digits value rest hrest
  have hquote : c ≠ '\x22' := ne_of_startsNumber hc (by decide)
  rw [hdigits, List.cons_append] at hnumber ⊢
  rw [readValue, skipSpace_cons (isSpace_of_startsNumber hc)]
  simp only [if_neg hquote, if_pos hc, hnumber, Option.map_some]

theorem readValue_string (depth : ℕ) (value : String) (rest : List Char) :
    readValue tokens depth ('\x22' :: (tokens.quote value ++ rest)) =
      some (.string value, rest) := by
  have hquote : isSpace '\x22' = false := by decide
  rw [readValue, skipSpace_cons hquote]
  simp only [if_true, tokens.unquote_quote, Option.map_some]

theorem readValue_array {depth : ℕ} {values : List Json}
    (hvalues : ∀ x ∈ values, ∀ rest, Ends rest →
      readValue tokens depth (x.write tokens ++ rest) = some (x, rest)) (rest : List Char) :
    readValue tokens (depth + 1) ((Json.array values).write tokens ++ rest) =
      some (.array values, rest) := by
  have hopen : isSpace '[' = false := by decide
  have hmembers := @membersOf_separate Json (readValue tokens depth) ']' (Json.write tokens) values
    (Or.inl rfl) (fun x _ => write_head tokens x) hvalues rest
  rw [write_array, List.cons_append, List.append_assoc, readValue,
    skipSpace_cons hopen]
  simp only [List.cons_append, List.nil_append, hmembers, Option.map_some]
  rfl

theorem readValue_object {depth : ℕ} {fields : List (String × Json)}
    (hfields : ∀ field ∈ fields, ∀ rest, Ends rest →
      readValue tokens depth (field.2.write tokens ++ rest) = some (field.2, rest))
    (rest : List Char) :
    readValue tokens (depth + 1) ((Json.object fields).write tokens ++ rest) =
      some (.object fields, rest) := by
  have hopen : isSpace '\x7b' = false := by decide
  have hmembers := @membersOf_separate _ (readField tokens (readValue tokens depth)) '\x7d'
    (fieldText tokens) fields (Or.inr rfl)
    (fun field _ => ⟨'\x22', _, rfl, by decide, by decide⟩)
    (fun field hfield rest hrest => readField_fieldText tokens (hfields field hfield rest hrest))
    rest
  rw [write_object, List.cons_append, List.append_assoc, readValue,
    skipSpace_cons hopen]
  simp only [List.cons_append, List.nil_append, hmembers, Option.map_some]
  rfl

/-- What is written of a value is read as that value. -/
theorem readValue_write {depth : ℕ} {value : Json} (h : Legible tokens depth value)
    {rest : List Char} (hrest : Ends rest) :
    readValue tokens depth (value.write tokens ++ rest) = some (value, rest) := by
  induction h generalizing rest with
  | null depth => cases depth <;> rfl
  | bool depth value => cases depth <;> cases value <;> rfl
  | string depth value => exact readValue_string tokens depth value rest
  | @number depth value h =>
    have hread := readValue_number tokens depth value hrest
    rwa [h] at hread
  | array h ih => exact readValue_array tokens (fun x hx _ hends => ih x hx hends) rest
  | object h ih =>
    exact readValue_object tokens (fun field hfield _ hends => ih field hfield hends) rest

/-- Such a value that is not too deep is parsed from its text. -/
theorem parse_write {value : Json} (h : Legible tokens depthLimit value) :
    parse tokens (value.write tokens) = some value := by
  have hread := @readValue_write tokens depthLimit value h [] (by simp [Ends])
  rw [List.append_nil] at hread
  rw [parse, hread]
  rfl

end CopyPaste.Lib.JsonText
