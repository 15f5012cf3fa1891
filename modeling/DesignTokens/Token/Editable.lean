import DesignTokens.Token.Scan
import DesignTokens.Text.Pattern

/-!
# Editable properties

The tokens inside the string literals of a program, each with the place where
an editor finds it and the name of the key or attribute that the literal
belongs to. A literal is what stands between two equal quotes; only a backtick
literal goes over line ends, and a backslash has no meaning here.
-/

namespace DesignTokens

open Text

/-- Where an editable token stands, and whose class string it is in. -/
structure Locator where
  line : Nat
  column : Nat
  context : String
  deriving Repr, DecidableEq

/-- One token that can be edited on its own. -/
structure EditableProperty where
  property : Property
  token : String
  pixels : Option Nat
  locator : Locator
  deriving Repr, DecidableEq

/-! ## String literals -/

/-- Whether the character opens a string literal. -/
def isQuote (c : Char) : Bool := c = '"' || c = '\'' || c = '\x60'

/-- Whether a literal opened by `quote` can go on over this character. -/
def staysInLiteral (quote c : Char) : Bool := c ≠ quote && (quote = '\x60' || c ≠ '\n')

/-- A string literal: a quote, what it can hold, and the same quote again. -/
def literalPattern : Pattern := fun _ rest =>
  match rest with
  | [] => none
  | q :: cs =>
    if isQuote q then
      let body := cs.takeWhile (staysInLiteral q)
      if (cs.drop body.length).head? = some q then some (body.length + 2) else none
    else none

/-- The string literals of a text, quotes included. -/
def stringLiterals (text : List Char) : List Span := literalPattern.spans text

/-! ## The owner of a literal -/

/-- How many bytes in front of a literal are searched for its owner. -/
def ownerWindow : Nat := 120

/-- The longest end of the text that takes at most `n` bytes. -/
def takeLastBytes (n : Nat) (cs : List Char) : List Char := (takeWithin n cs.reverse).reverse

/-- Whether a character may go on in the name of an owner. -/
def isOwnerChar (c : Char) : Bool := isIdent c || c = '-'

/-- What may stand between an owner's name and the literal: a colon, or an equals sign with an
opening brace or without, then perhaps the name of a function and its opening parenthesis. -/
def leadsToLiteral (cs : List Char) : Bool :=
  match skipBlanks cs with
  | ':' :: rest => callOrNothing (skipBlanks rest)
  | '=' :: '{' :: rest => callOrNothing (skipBlanks rest)
  | '=' :: rest => callOrNothing (skipBlanks rest)
  | _ => false
where
  /-- Whether nothing but blanks is left, or a function name and its parenthesis before them. -/
  callOrNothing (cs : List Char) : Bool :=
    let callee := cs.takeWhile fun c => isIdent c || c = '.'
    match callee.isEmpty, cs.drop callee.length with
    | false, '(' :: rest => (skipBlanks rest).isEmpty
    | true, [] => true
    | _, _ => false

/-- The name of the key or attribute that a literal belongs to, given the text in front of it. -/
def owner? : List Char → Option (List Char)
  | [] => none
  | c :: cs =>
    let name := c :: cs.takeWhile isOwnerChar
    if isIdentStart c && leadsToLiteral ((c :: cs).drop name.length) then some name
    else owner? cs

/-- The owner of the literal at a position, or the word "literal" if none is found. -/
def ownerAt (text : List Char) (pos : Nat) : String :=
  match owner? (takeLastBytes ownerWindow (text.take pos)) with
  | some name => String.ofList name
  | none => "literal"

/-! ## The list -/

/-- The editable tokens of one string literal. -/
def editableInLiteral (text : List Char) (literal : Span) : List EditableProperty :=
  let body := ((literal.of text).drop 1).dropLast
  (words body).filterMap fun (offset, word) =>
    (classify? word).map fun (property, pixels) =>
      let place := LineColumn.behind (text.take (literal.start + 1 + offset))
      ⟨property, String.ofList word, some pixels,
        ⟨place.line, place.column, ownerAt text literal.start⟩⟩

/-- The editable tokens of a program, in the order of the text. -/
def editableProperties (text : List Char) : List EditableProperty :=
  (stringLiterals text).flatMap (editableInLiteral text)

end DesignTokens
