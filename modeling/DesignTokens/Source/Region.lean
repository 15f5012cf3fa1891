import DesignTokens.Text.Chars

/-!
# Code, strings and comments

A program text is divided into code, string literals and comments. A string is
opened by a quote of one of three kinds and closed by the same quote; a
backslash takes the next character with it; a line end closes a string that is
not in backticks. Comments run to the end of their line or to their closing
mark. What stands inside a backtick string is string all through, expressions in
it included.

`regions` divides a text, starting in code, and keeps every character. A line
end that closes a string or a comment is itself code.
-/

namespace DesignTokens.Source

/-- What a character of a program belongs to. -/
inductive Region where
  | code
  | string
  | comment
  deriving Repr, DecidableEq

/-- What the characters before have opened. -/
inductive Mode where
  | code
  | string (quote : Char)
  | lineComment
  | blockComment
  deriving Repr, DecidableEq

/-- Whether the character opens a string. -/
def opensString (c : Char) : Bool := c = '"' || c = '\'' || c = '\x60'

/-- Divides a text, starting in the given mode. -/
def regionsFrom : Mode → List Char → List (Char × Region)
  | _, [] => []
  | .code, '/' :: '/' :: cs =>
    ('/', .comment) :: ('/', .comment) :: regionsFrom .lineComment cs
  | .code, '/' :: '*' :: cs =>
    ('/', .comment) :: ('*', .comment) :: regionsFrom .blockComment cs
  | .code, c :: cs =>
    if opensString c then (c, .string) :: regionsFrom (.string c) cs
    else (c, .code) :: regionsFrom .code cs
  | .string q, '\\' :: c :: cs => ('\\', .string) :: (c, .string) :: regionsFrom (.string q) cs
  | .string q, c :: cs =>
    if c = q then (c, .string) :: regionsFrom .code cs
    else if c = '\n' && q ≠ '\x60' then (c, .code) :: regionsFrom .code cs
    else (c, .string) :: regionsFrom (.string q) cs
  | .lineComment, c :: cs =>
    if c = '\n' then (c, .code) :: regionsFrom .code cs
    else (c, .comment) :: regionsFrom .lineComment cs
  | .blockComment, '*' :: '/' :: cs =>
    ('*', .comment) :: ('/', .comment) :: regionsFrom .code cs
  | .blockComment, c :: cs => (c, .comment) :: regionsFrom .blockComment cs

/-- Divides a text that starts in code. -/
def regions (text : List Char) : List (Char × Region) := regionsFrom .code text

/-- The characters of a text that are code, in order. -/
def codeChars (text : List Char) : List Char :=
  (regions text).filterMap fun (c, r) => if r = .code then some c else none

/-- Dividing a text keeps its characters. -/
theorem map_fst_regionsFrom (m : Mode) (text : List Char) :
    (regionsFrom m text).map (·.1) = text := by
  fun_induction regionsFrom m text <;> simp_all

/-- Dividing a text keeps its characters. -/
theorem map_fst_regions (text : List Char) : (regions text).map (·.1) = text :=
  map_fst_regionsFrom .code text

end DesignTokens.Source
