import DesignTokens.Text.Chars

/-!
# Texts as lists of characters

Scanning is done on `List Char`; records keep `String`. This module has the
operations on character lists that every other part shares: trimming, cutting
at a separator, looking for a word, and comparing without regard to ASCII case.
-/

namespace DesignTokens.Text

/-! ## Trimming -/

/-- The text without the characters of a class at its end. -/
def dropEndWhile (p : Char → Bool) (cs : List Char) : List Char :=
  (cs.reverse.dropWhile p).reverse

/-- The text without white space at its end. -/
def trimEnd (cs : List Char) : List Char := dropEndWhile isWhiteSpace cs

/-- The text without white space at either end. -/
def trim (cs : List Char) : List Char := trimEnd (cs.dropWhile isWhiteSpace)

/-- The string without white space at either end. -/
def trimmed (s : String) : String := String.ofList (trim s.toList)

/-- Whether a string holds nothing but white space. -/
def isBlankText (s : String) : Bool := s.toList.all isWhiteSpace

/-! ## Cutting -/

/-- What stands before and after the first separator, if there is one. -/
def cut? (sep : Char) : List Char → Option (List Char × List Char)
  | [] => none
  | c :: cs =>
    if c = sep then some ([], cs)
    else (cut? sep cs).map fun (before, after) => (c :: before, after)

/-- The pieces between separators; a text without separator is its own only piece. -/
def pieces (isSep : Char → Bool) : List Char → List (List Char)
  | [] => [[]]
  | c :: cs =>
    match isSep c, pieces isSep cs with
    | true, ps => [] :: ps
    | false, [] => [[c]]
    | false, p :: ps => (c :: p) :: ps

/-- The trimmed, non-empty pieces of a comma-separated list. -/
def listItems (cs : List Char) : List String :=
  ((pieces (· = ',') cs).map trim).filterMap fun p =>
    if p.isEmpty then none else some (String.ofList p)

/-- Items joined by a comma and a space. -/
def commaList (items : List String) : String := ", ".intercalate items

/-! ## Comparing and searching -/

/-- The rest of a text that starts with the given characters. -/
def after? : List Char → List Char → Option (List Char)
  | [], rest => some rest
  | _ :: _, [] => none
  | p :: ps, c :: cs => if p = c then after? ps cs else none

/-- The rest of a text that starts with the given characters up to ASCII case. -/
def afterFolded? : List Char → List Char → Option (List Char)
  | [], rest => some rest
  | _ :: _, [] => none
  | p :: ps, c :: cs => if sameLetter p c then afterFolded? ps cs else none

/-- Whether a text holds the given characters in a row. -/
def holds (part : List Char) : List Char → Bool
  | [] => part.isEmpty
  | c :: cs => (after? part (c :: cs)).isSome || holds part cs

/-- Equality of strings up to the case of ASCII letters. -/
def sameFolded (a b : String) : Bool :=
  a.toList.map Char.toLower = b.toList.map Char.toLower

/-- The string in lower case, as far as ASCII letters go. -/
def lowered (cs : List Char) : List Char := cs.map Char.toLower

/-- Whether an optional character is a word character. -/
def wordAt (c : Option Char) : Bool := c.any isWord

/-- A word boundary lies between two neighbours of which exactly one is a word character. -/
def isBoundary (before after : Option Char) : Bool := wordAt before != wordAt after

/-- Whether the name stands at the start of the text with a word boundary on each side,
`before` being the character in front of it. -/
def startsWithName (name : List Char) (before : Option Char) (rest : List Char) : Bool :=
  isBoundary before rest.head? &&
    match after? name rest with
    | some behind => isBoundary (name.getLast?.or before) behind.head?
    | none => false

/-- Whether the name stands somewhere in the text with a word boundary on each side. -/
def holdsNameFrom (name : List Char) : Option Char → List Char → Bool
  | before, [] => startsWithName name before []
  | before, c :: cs => startsWithName name before (c :: cs) || holdsNameFrom name (some c) cs

/-- Whether the name stands somewhere in the text as a word of its own. -/
def holdsName (name text : List Char) : Bool := holdsNameFrom name none text

/-- The text without the blanks that it starts with. -/
def skipBlanks (cs : List Char) : List Char := cs.dropWhile isBlank

/-- The maximal runs of non-blank characters with their positions, where `atStart` tells
whether a run may start here: at the start of the text or behind a blank. -/
def wordsFrom (atStart : Bool) (i : Nat) : List Char → List (Nat × List Char)
  | [] => []
  | c :: cs =>
    let later := wordsFrom (isBlank c) (i + 1) cs
    if atStart && !isBlank c then (i, (c :: cs).takeWhile fun d => !isBlank d) :: later
    else later

/-- The maximal runs of non-blank characters, each with the number of characters before it. -/
def words (cs : List Char) : List (Nat × List Char) := wordsFrom true 0 cs

end DesignTokens.Text
