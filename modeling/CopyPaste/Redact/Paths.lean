import CopyPaste.Merge.Payload

/-!
Which words of a message look like a filesystem path, and the message without them. A path
without quotes runs to the end of its line, a quoted one to its closing quote; an escaped
quote in its place makes it a path without quotes.
-/

namespace CopyPaste.Redact.Paths

open Merge.Payload

abbrev Text := List Char

/-- The words of a message, each with the white space character that ends it. -/
def tokens : Text → List Text
  | [] => []
  | c :: rest =>
    if isWhitespace c then [c] :: tokens rest
    else
      match tokens rest with
      | [] => [[c]]
      | token :: more => (c :: token) :: more

def trimEnd (token : Text) : Text := token.rdropWhile isWhitespace

def isBracket (c : Char) : Bool := c == '(' || c == '[' || c == '\x7b'

def isQuote (c : Char) : Bool := c == '"' || c == '\'' || c == '`'

def isClosing (c : Char) : Bool :=
  c == ')' || c == ']' || c == '\x7d' || c == ',' || c == ';' || c == '.'

def isAsciiAlphabetic (c : Char) : Bool :=
  decide ('a' ≤ c ∧ c ≤ 'z') || decide ('A' ≤ c ∧ c ≤ 'Z')

def isLabelChar (c : Char) : Bool :=
  isAsciiAlphabetic c || decide ('0' ≤ c ∧ c ≤ '9') || c == '_'

def isLabel (value : Text) : Bool := decide (1 < value.length) && value.all isLabelChar

/-- The parts before and after the first of a character. -/
def splitOnce (separator : Char) (value : Text) : Option (Text × Text) :=
  if separator ∈ value then
    some (value.takeWhile (· != separator), (value.dropWhile (· != separator)).drop 1)
  else none

/-- What stands after a label. -/
def pathValue (token : Text) : Text :=
  (((splitOnce '=' token).filter fun parts => isLabel parts.1).or
    ((splitOnce ':' token).filter fun parts => isLabel parts.1)).elim token Prod.snd

def startsWithIgnoreAsciiCase (value lead : Text) : Bool :=
  (value.take lead.length).map Char.toLower == lead.map Char.toLower

def isSlash (c : Char) : Bool := c == '/' || c == '\\'

def startsWithPathVariable (value : Text) : Bool :=
  match value with
  | '$' :: rest =>
    !(rest.takeWhile isLabelChar).isEmpty && (rest.dropWhile isLabelChar).head?.any isSlash
  | '%' :: rest =>
    match splitOnce '%' rest with
    | some (name, more) => !name.isEmpty && more.head?.any isSlash
    | none => false
  | _ => false

def startsWithWindowsDrive : Text → Bool
  | drive :: ':' :: slash :: _ => isAsciiAlphabetic drive && isSlash slash
  | _ => false

def isWebAddress (core : Text) : Bool :=
  startsWithIgnoreAsciiCase core "http://".toList ||
    startsWithIgnoreAsciiCase core "https://".toList

def contains (value part : Text) : Bool := value.tails.any fun tail => part.isPrefixOf tail

/-- How a path may begin, or what gives a home directory away. -/
def isPath (core : Text) : Bool :=
  ["/", "~/", "~\\", "./", ".\\", "../", "..\\"].any (fun lead => lead.toList.isPrefixOf core) ||
    startsWithIgnoreAsciiCase core "file://".toList ||
    contains core "/Users/".toList || contains core "/home/".toList ||
    startsWithPathVariable core || "\\\\".toList.isPrefixOf core ||
    startsWithWindowsDrive core || "copypaste-v2.db".toList.isPrefixOf core

def looksLikePath (token : Text) : Bool :=
  let core := token.dropWhile fun c => isBracket c || isQuote c
  if core.isEmpty then false
  else if isWebAddress core then false
  else if startsWithIgnoreAsciiCase core "file://".toList then true
  else
    let core := (pathValue core).dropWhile isQuote
    if isWebAddress core then false else isPath core

def openingQuote (token : Text) : Option Char :=
  (pathValue (token.dropWhile isBracket)).head?.filter isQuote

/-- What stands before a quote that a word ends with, closing punctuation apart. -/
def beforeQuote (token : Text) (quote : Char) : Option Text :=
  let bare := (trimEnd token).rdropWhile isClosing
  if bare.getLast? = some quote then some bare.dropLast else none

def endsWithQuote (token : Text) (quote : Char) : Bool :=
  (beforeQuote token quote).any fun before => before.getLast? != some '\\'

def endsWithEscapedQuote (token : Text) (quote : Char) : Bool :=
  (beforeQuote token quote).any fun before => before.getLast? == some '\\'

def isLineEnd (c : Char) : Bool := c == '\r' || c == '\n'

def endsLine (token : Text) : Bool := token.getLast?.any isLineEnd

/-- The last word of a path, the quote still open there, and the words after it. -/
def region (quote : Option Char) (last : Text) : List Text → Text × Option Char × List Text
  | [] => (last, quote, [])
  | next :: rest =>
    match quote with
    | some delimiter =>
      if endsWithQuote last delimiter then (last, quote, next :: rest)
      else if endsWithEscapedQuote last delimiter then region none next rest
      else region quote next rest
    | none => if endsLine last then (last, none, next :: rest) else region none next rest

theorem region_length_le (quote : Option Char) (last : Text) (rest : List Text) :
    (region quote last rest).2.2.length ≤ rest.length := by
  induction rest generalizing quote last with
  | nil => exact Nat.le_refl 0
  | cons next rest ih =>
    unfold region
    split
    · split
      · exact Nat.le_refl _
      · split
        · exact Nat.le_succ_of_le (ih _ _)
        · exact Nat.le_succ_of_le (ih _ _)
    · split
      · exact Nat.le_refl _
      · exact Nat.le_succ_of_le (ih _ _)

def mark : Text := "<path>".toList

/-- What stands for a path: the white space after it stays, but where a path without quotes
ends the message. -/
def marked (last : Text) (quote : Option Char) : Text :=
  mark ++ if quote.isSome || endsLine last then last.drop (trimEnd last).length else []

def scrubTokens : List Text → List Text
  | [] => []
  | token :: rest =>
    if looksLikePath (trimEnd token) then
      match _hregion : region (openingQuote (trimEnd token)) token rest with
      | (last, quote, after) => marked last quote :: scrubTokens after
    else token :: scrubTokens rest
  termination_by words => words.length
  decreasing_by
    · have hle := region_length_le (openingQuote (trimEnd token)) token rest
      rw [_hregion] at hle
      exact Nat.lt_succ_of_le hle
    · exact Nat.lt_succ_self _

def scrubPaths (message : Text) : Text := (scrubTokens (tokens message)).flatten

end CopyPaste.Redact.Paths
