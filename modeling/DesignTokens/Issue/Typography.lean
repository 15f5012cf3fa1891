import DesignTokens.Token.Basic
import DesignTokens.Text.Pattern

/-!
# Typography lines

A typography line gives a font weight, by number or by name, or a font size or
line height in pixels. Lines that give none of these are kept as free text.
-/

namespace DesignTokens

open Text Number

/-- A whole number of pixels in free text: digits, blanks perhaps, and the unit. -/
def looseLength : Pattern := fun _ rest =>
  let digits := rest.takeWhile Char.isDigit
  let behind := rest.drop digits.length
  match digits.isEmpty, skipBlanks behind with
  | false, 'p' :: 'x' :: behind' => some (rest.length - behind'.length)
  | _, _ => none

/-- A weight in figures: a digit from 1 to 9 and two zeros, as a word of their own. -/
def weightFigure : Pattern := fun before rest =>
  match rest with
  | d :: '0' :: '0' :: behind =>
    if '1' ≤ d && d ≤ '9' && !wordAt before && !wordAt behind.head? then some 3 else none
  | _ => none

/-- The number at the start of a match, if it is not above the greatest number of pixels. -/
def leadingNumber? (cs : List Char) : Option Nat :=
  let n := digitsValue (cs.takeWhile Char.isDigit)
  if n ≤ maxPixels then some n else none

/-- The first entry of the weight scale whose name is one of the words of a text. -/
def weightName? (value : List Char) : Option (String × Nat) :=
  let ws := pieces (fun c => !c.isAlphanum) value
  Property.fontWeightScale.find? fun e => ws.contains e.1.toList

/-- The property and the number that a typography line gives. -/
def typography? (line : String) : Option (Property × Nat) :=
  let lower := lowered line.toList
  let (label, value) := (cut? ':' lower).getD ([], lower)
  let labelHas (word : String) : Bool := holds word.toList label
  if labelHas "weight" || (!holds ['p', 'x'] value && (weightName? value).isSome) then
    match weightFigure.first? value with
    | some s => (leadingNumber? (s.of value)).map fun n => (.fontWeight, n)
    | none => (weightName? value).map fun e => (.fontWeight, e.2)
  else do
    let s ← looseLength.first? value
    let n ← leadingNumber? (s.of value)
    some (if labelHas "line" || labelHas "leading" then .lineHeight else .fontSize, n)

end DesignTokens
