import DesignTokens.Json.Basic
import DesignTokens.Text.Basic

/-!
# The lexemes of a JSON text

A JSON text is cut into punctuation, numbers, strings and the three words before
its structure is looked at. No two values ever stand side by side in a
well-formed text, so a cut inside something that is no number at all, as in
`01`, is refused later on for the two numbers in a row that it makes.

An escape that names half of a surrogate pair without its other half is no
error here: the string is kept as missing, because a reader may skip it.
-/

namespace DesignTokens.Json

open Text Number

/-- The smallest parts of a JSON text. -/
inductive Lexeme where
  | openObject
  | closeObject
  | openArray
  | closeArray
  | comma
  | colon
  | null
  | bool (b : Bool)
  | number (n : JsonNumber)
  | string (s : Option String)
  deriving Repr, DecidableEq

/-! ## Strings -/

/-- The value of a hexadecimal digit. -/
def hexValue? (c : Char) : Option Nat :=
  if c.isDigit then some (c.toNat - '0'.toNat)
  else if 'a' ≤ c && c ≤ 'f' then some (c.toNat - 'a'.toNat + 10)
  else if 'A' ≤ c && c ≤ 'F' then some (c.toNat - 'A'.toNat + 10)
  else none

/-- The value of four hexadecimal digits. -/
def hex4? (a b c d : Char) : Option Nat := do
  let a ← hexValue? a
  let b ← hexValue? b
  let c ← hexValue? c
  let d ← hexValue? d
  some (((a * 16 + b) * 16 + c) * 16 + d)

/-- The character of a one-letter escape. -/
def shortEscape? : Char → Option Char
  | '"' => some '"'
  | '\\' => some '\\'
  | '/' => some '/'
  | 'b' => some '\x08'
  | 'f' => some '\x0c'
  | 'n' => some '\n'
  | 'r' => some '\r'
  | 't' => some '\t'
  | _ => none

/-- Whether a number is the first half of a surrogate pair. -/
def isHighHalf (n : Nat) : Bool := 0xd800 ≤ n && n < 0xdc00

/-- Whether a number is the second half of a surrogate pair. -/
def isLowHalf (n : Nat) : Bool := 0xdc00 ≤ n && n < 0xe000

/-- The character of a surrogate pair. -/
def pairChar (high low : Nat) : Char :=
  Char.ofNat (0x10000 + (high - 0xd800) * 0x400 + (low - 0xdc00))

/-- What a string has given so far: its characters in reverse, a first half that waits for its
second one, and whether it is still Unicode. -/
structure StringSoFar where
  done : List Char := []
  half : Option Nat := none
  unicode : Bool := true

namespace StringSoFar

/-- The string behind a further character. -/
def push (s : StringSoFar) (c : Char) : StringSoFar :=
  ⟨c :: s.done, none, s.unicode && s.half.isNone⟩

/-- The string behind a further UTF-16 unit. -/
def pushUnit (s : StringSoFar) (n : Nat) : StringSoFar :=
  if isHighHalf n then ⟨s.done, some n, s.unicode && s.half.isNone⟩
  else if isLowHalf n then
    match s.half with
    | some high => ⟨pairChar high n :: s.done, none, s.unicode⟩
    | none => ⟨s.done, none, false⟩
  else s.push (Char.ofNat n)

/-- The finished string, missing if it is not Unicode. -/
def finish (s : StringSoFar) : Option String :=
  if s.unicode && s.half.isNone then some (String.ofList s.done.reverse) else none

end StringSoFar

/-- Reads the rest of a string behind its opening quote. -/
def readString (s : StringSoFar) : List Char → Option (Option String × List Char)
  | '"' :: rest => some (s.finish, rest)
  | '\\' :: 'u' :: a :: b :: c :: d :: rest =>
    match hex4? a b c d with
    | some n => readString (s.pushUnit n) rest
    | none => none
  | '\\' :: e :: rest =>
    match shortEscape? e with
    | some c => readString (s.push c) rest
    | none => none
  | c :: rest => if c.toNat < 0x20 then none else readString (s.push c) rest
  | [] => none

/-- The quote ends a string. -/
theorem readString_quote {s : StringSoFar} {rest : List Char} :
    readString s ('"' :: rest) = some (s.finish, rest) := by
  rw [readString]

/-! ## Numbers -/

/-- The part of a number behind its whole digits: a point needs a digit behind it. -/
def readFraction : List Char → Option (List Char × List Char)
  | '.' :: cs =>
    if (cs.takeWhile Char.isDigit).isEmpty then none
    else some (cs.takeWhile Char.isDigit, cs.dropWhile Char.isDigit)
  | cs => some ([], cs)

/-- The exponent of a number: the letter needs a digit behind it or behind a sign. -/
def readExponent : List Char → Option (Option Int × List Char)
  | e :: cs =>
    if e = 'e' || e = 'E' then
      let (negative, digits) := match cs with
        | '+' :: more => (false, more)
        | '-' :: more => (true, more)
        | _ => (false, cs)
      let value := digitsValue (digits.takeWhile Char.isDigit)
      if (digits.takeWhile Char.isDigit).isEmpty then none
      else some (some (if negative then -(value : Int) else value), digits.dropWhile Char.isDigit)
    else some (none, e :: cs)
  | [] => some (none, [])

/-- The digits before the point: a zero stands alone. -/
def readWhole : List Char → Option (Nat × List Char)
  | '0' :: cs => some (0, cs)
  | cs =>
    if (cs.takeWhile Char.isDigit).isEmpty then none
    else some (digitsValue (cs.takeWhile Char.isDigit), cs.dropWhile Char.isDigit)

/-- Reads a number at the start of a text. -/
def readNumber (cs : List Char) : Option (JsonNumber × List Char) := do
  let (negative, digits) := match cs with
    | '-' :: more => (true, more)
    | _ => (false, cs)
  let (whole, cs) ← readWhole digits
  let (fraction, cs) ← readFraction cs
  let (exponent, cs) ← readExponent cs
  some (⟨negative, whole, fraction, exponent⟩, cs)

/-! ## Lexemes -/

/-- Whether a character may stand between lexemes. -/
def isSpace (c : Char) : Bool := c = ' ' || c = '\t' || c = '\n' || c = '\r'

/-- Reads one of the three words at the start of a text. -/
def readWord (cs : List Char) : Option (Lexeme × List Char) :=
  match after? "null".toList cs, after? "true".toList cs, after? "false".toList cs with
  | some rest, _, _ => some (.null, rest)
  | _, some rest, _ => some (.bool true, rest)
  | _, _, some rest => some (.bool false, rest)
  | _, _, _ => none

/-- Reads the lexeme at the start of a text. -/
def readLexeme : List Char → Option (Lexeme × List Char)
  | '{' :: rest => some (.openObject, rest)
  | '}' :: rest => some (.closeObject, rest)
  | '[' :: rest => some (.openArray, rest)
  | ']' :: rest => some (.closeArray, rest)
  | ',' :: rest => some (.comma, rest)
  | ':' :: rest => some (.colon, rest)
  | '"' :: rest => (readString {} rest).map fun (s, rest) => (.string s, rest)
  | cs =>
    match readNumber cs with
    | some (n, rest) => some (.number n, rest)
    | none => readWord cs

/-- The lexemes of a text, at most `n` of them. -/
def lexemesWithin : Nat → List Char → Option (List Lexeme)
  | n, cs =>
    match cs.dropWhile isSpace with
    | [] => some []
    | c :: rest =>
      match n with
      | 0 => none
      | n + 1 => do
        let (l, rest) ← readLexeme (c :: rest)
        let ls ← lexemesWithin n rest
        some (l :: ls)

/-- The lexemes of a text. Each takes a character at least, so the length of the text bounds their
number. -/
def lexemes (cs : List Char) : Option (List Lexeme) := lexemesWithin cs.length cs

end DesignTokens.Json
