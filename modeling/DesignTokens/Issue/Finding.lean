import DesignTokens.Issue.Typography

/-!
# Findings read from advice

The sentences of a report are read back into findings. A sentence that has none
of the four forms says nothing that could be offered. What stands behind a
form's opening words must not go over a line end.
-/

namespace DesignTokens

open Text Number

/-- What a sentence of advice says. -/
inductive Finding where
  | missingValues (dimension : String) (values : List String)
  /-- A property lacks lengths, of which there is one at least; the wording is kept. -/
  | spacing (property : Property) (first : Nat) (others : List Nat) (wording : String)
  | themeColors
  | literalColors (literals : List String)
  deriving Repr, DecidableEq

namespace Finding

/-- A name between backticks behind the given words, and what comes after it. -/
def named? (opening : String) (cs : List Char) : Option (List Char × List Char) := do
  let rest ← after? (opening.toList ++ ['\x60']) cs
  let name := rest.takeWhile (· ≠ '\x60')
  if name.isEmpty then none
  else match rest.drop name.length with
    | _ :: behind => some (name, behind)
    | [] => none

/-- The text if it stays on one line. -/
def oneLine? (cs : List Char) : Option (List Char) := if cs.contains '\n' then none else some cs

/-- Digits directly followed by the unit of pixels. -/
def tightLength : Pattern := fun _ rest =>
  let digits := rest.takeWhile Char.isDigit
  match digits.isEmpty, rest.drop digits.length with
  | false, 'p' :: 'x' :: _ => some (digits.length + 2)
  | _, _ => none

/-- The lengths in a text that are not above the greatest number of pixels. -/
def lengths (cs : List Char) : List Nat :=
  (tightLength.spans cs).filterMap fun s => leadingNumber? (s.of cs)

/-- A finding of missing values. -/
def missingValues? (cs : List Char) : Option Finding := do
  let (dimension, rest) ← named? "Add missing " cs
  let rest ← after? " values:".toList rest
  let list ← oneLine? (skipBlanks rest)
  some (.missingValues (String.ofList dimension) (listItems list))

/-- A finding of missing lengths. -/
def spacing? (cs : List Char) : Option Finding := do
  let (name, rest) ← named? "Set " cs
  let rest ← after? " to ".toList rest
  let wording ← oneLine? rest
  let property ← Property.ofLooseName? (String.ofList name)
  match lengths wording with
  | [] => none
  | first :: others => some (.spacing property first others (String.ofList wording))

/-- A finding that no color is referred to by theme. -/
def themeColors? (cs : List Char) : Option Finding :=
  (after? "Use theme color tokens".toList cs).map fun _ => .themeColors

/-- A finding of literal colors. -/
def literalColors? (cs : List Char) : Option Finding := do
  let rest ← after? "Replace hardcoded colors with theme tokens:".toList cs
  let list ← oneLine? (skipBlanks rest)
  match listItems list with
  | [] => none
  | literals => some (.literalColors literals)

/-- What a sentence of advice says; white space around it does not count. -/
def read? (sentence : String) : Option Finding :=
  let cs := trim sentence.toList
  (missingValues? cs).or ((spacing? cs).or ((themeColors? cs).or (literalColors? cs)))

end Finding

end DesignTokens
