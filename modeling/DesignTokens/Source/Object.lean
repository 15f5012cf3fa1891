import DesignTokens.Source.Region
import DesignTokens.Text.Basic

/-!
# Object literals

An object literal reaches from an opening brace in code to the closing brace
that matches it. Its inside is cut at the commas in code that no bracket
encloses; a piece is an *entry* if it starts with a key and a colon.

In front of a key there may be blanks and comments. A piece is read as the
longest row of blanks and comments that lets a key follow; so where nothing
behind a comment is a key, a key inside that comment is found instead, the one
nearest to its end for a line comment and the first one behind a closing mark
for a block comment.
-/

namespace DesignTokens.Source

open Text

/-! ## Matching braces -/

/-- The position of the brace that closes the `depth` open ones, counted from `pos`. -/
def closingFrom (depth pos : Nat) : List (Char × Region) → Option Nat
  | [] => none
  | (c, r) :: cs =>
    if r = .code && c = '{' then closingFrom (depth + 1) (pos + 1) cs
    else if r = .code && c = '}' then
      match depth with
      | 0 => none
      | 1 => some pos
      | depth + 2 => closingFrom (depth + 1) (pos + 1) cs
    else closingFrom depth (pos + 1) cs

/-- The position of the brace that matches the one at the given position. -/
def matchingBrace? (text : List Char) (opening : Nat) : Option Nat :=
  closingFrom 0 opening (regions (text.drop opening))

/-! ## Pieces between commas -/

/-- The pieces between the commas in code that lie in no bracket, as their positions and
characters; `depth` brackets are open. -/
def segmentsFrom (depth pos : Nat) : List (Char × Region) → List (Nat × List Char)
  | [] => [(pos, [])]
  | (c, r) :: cs =>
    if r = .code && depth = 0 && c = ',' then (pos, []) :: segmentsFrom 0 (pos + 1) cs
    else
      let inside :=
        if r ≠ .code then depth
        else if c = '{' || c = '[' || c = '(' then depth + 1
        else if c = '}' || c = ']' || c = ')' then depth - 1
        else depth
      match segmentsFrom inside (pos + 1) cs with
      | (_, piece) :: later => (pos, c :: piece) :: later
      | [] => [(pos, [c])]

/-! ## Keys -/

/-- A key at the front of a piece: its text, whether it is quoted, and how many characters of the
piece come from the key on and from the value on. -/
structure Key where
  text : List Char
  quoted : Bool
  fromKey : Nat
  fromValue : Nat
  deriving Repr, DecidableEq

/-- A colon with blanks around it; what comes behind. -/
def colonBehind? (cs : List Char) : Option (List Char) :=
  match skipBlanks cs with
  | ':' :: rest => some (skipBlanks rest)
  | _ => none

/-- A key and its colon right at the start of the characters. -/
def keyHere? : List Char → Option Key
  | [] => none
  | c :: cs =>
    if isIdentStart c then
      let name := c :: cs.takeWhile isIdent
      (colonBehind? (cs.drop (name.length - 1))).map fun value =>
        ⟨name, false, cs.length + 1, value.length⟩
    else if c = '"' || c = '\'' then
      let name := cs.takeWhile fun d => d ≠ c && d ≠ '\n'
      match cs.drop name.length with
      | d :: rest =>
        if d = c then
          (colonBehind? rest).map fun value => ⟨name, true, cs.length + 1, value.length⟩
        else none
      | [] => none
    else none

/-- What can be read of a piece from one place on. -/
structure KeyChoices where
  /-- The key behind blanks and comments that start here. -/
  here : Option Key := none
  /-- The key behind the line comment that goes on here. -/
  inLine : Option Key := none
  /-- The key behind the block comment that goes on here. -/
  inBlock : Option Key := none

/-- The choices at a place and at the one behind it. A line comment may end at any place of its
line, the later the better; a block comment may end at any closing mark, the earlier the better. -/
def keyChoices : List Char → KeyChoices × KeyChoices
  | [] => ({}, {})
  | c :: cs =>
    let (next, afterNext) := keyChoices cs
    let here :=
      if isBlank c then next.here
      else match c, cs.head? with
        | '/', some '/' => afterNext.inLine
        | '/', some '*' => afterNext.inBlock
        | _, _ => keyHere? (c :: cs)
    let inLine := if c = '\n' then here else next.inLine.or here
    let inBlock :=
      if c = '*' && cs.head? = some '/' then afterNext.here.or next.inBlock else next.inBlock
    (⟨here, inLine, inBlock⟩, next)

/-- The key of a piece, if it is an entry. -/
def key? (piece : List Char) : Option Key := (keyChoices piece).1.here

/-! ## Entries -/

/-- An entry of an object literal: its key, whether that is quoted, and where the key, with its
quote, and the value start. -/
structure Entry where
  key : List Char
  quoted : Bool
  keyStart : Nat
  valueStart : Nat
  deriving Repr, DecidableEq

/-- The characters between an opening and a closing position. -/
def between (text : List Char) (opening closing : Nat) : List Char :=
  (text.drop (opening + 1)).take (closing - (opening + 1))

/-- The entries of the object literal between two braces. -/
def entries (text : List Char) (opening closing : Nat) : List Entry :=
  (segmentsFrom 0 (opening + 1) (regions (between text opening closing))).filterMap
    fun (pos, piece) => (key? piece).map fun k =>
      ⟨k.text, k.quoted, pos + (piece.length - k.fromKey), pos + (piece.length - k.fromValue)⟩

end DesignTokens.Source
