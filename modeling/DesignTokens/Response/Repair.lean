import DesignTokens.Response.Braces
import DesignTokens.Text.Lines

/-!
# Repairs

The usual defects of JSON that was not written by a program: curly quotation
marks, comments up to the end of a line, and commas in front of a closing
bracket. Only comments respect strings.
-/

namespace DesignTokens.Response

open Text

/-- The plain form of a curly quotation mark; any other character stays. -/
def straight (c : Char) : Char :=
  if c = '\u201c' || c = '\u201d' then '"'
  else if c = '\u2018' || c = '\u2019' then '\''
  else c

/-- A line without the comment at its end; two slashes in a string are no comment. -/
def dropComment : Quoting → List Char → List Char
  | _, [] => []
  | .outside, '/' :: '/' :: _ => []
  | q, c :: cs => c :: dropComment (q.behind c) cs

/-- The text without comments, every line ended with a line feed. -/
def dropComments (text : List Char) : List Char :=
  (lines text).flatMap fun line => dropComment .outside line ++ ['\n']

/-- Whether the next character that is not blank closes a list or an object. -/
def closesNext (cs : List Char) : Bool :=
  match skipBlanks cs with
  | c :: _ => c = '}' || c = ']'
  | [] => false

/-- The text without commas in front of a closing bracket. -/
def dropTrailingCommas : List Char → List Char
  | [] => []
  | c :: cs =>
    if c = ',' && closesNext cs then dropTrailingCommas cs else c :: dropTrailingCommas cs

/-- The text with the usual defects repaired. -/
def repaired (text : List Char) : List Char :=
  dropTrailingCommas (dropComments (text.map straight))

end DesignTokens.Response
