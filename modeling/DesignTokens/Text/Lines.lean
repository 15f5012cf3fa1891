import DesignTokens.Text.Basic

/-!
# Lines

A line ends with a line feed, which may have a carriage return in front of it.
A carriage return anywhere else belongs to its line.
-/

namespace DesignTokens.Text

/-- The text with every line end written as a line feed alone. -/
def unifyLineEnds : List Char → List Char
  | '\r' :: '\n' :: cs => '\n' :: unifyLineEnds cs
  | c :: cs => c :: unifyLineEnds cs
  | [] => []

/-- The list without its last item if that is empty. -/
def dropEmptyLast (lines : List (List Char)) : List (List Char) :=
  if lines.getLast? = some [] then lines.dropLast else lines

/-- The lines of a text; what stands behind the last line end is a line unless it is empty. -/
def lines (cs : List Char) : List (List Char) :=
  dropEmptyLast (pieces (· = '\n') (unifyLineEnds cs))

end DesignTokens.Text
