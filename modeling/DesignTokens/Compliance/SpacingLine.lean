import DesignTokens.Token.Basic

/-!
# Spacing lines of a spec

A spacing line has the form `label: length`, as in "Base height: 40px". The
label names a property in free words. Lines that name no property or give no
whole length ask for nothing. Lines that speak of the same property form a
group, and any one length of a group satisfies it.
-/

namespace DesignTokens

open Text Number

/-- What a spacing line asks for. -/
structure SpacingRequirement where
  name : String
  property : Property
  pixels : Nat
  line : String
  deriving Repr, DecidableEq

/-- The characters without the blanks at either end. -/
def stripBlanks (cs : List Char) : List Char := dropEndWhile isBlank (skipBlanks cs)

/-- A length at the start of a text: a decimal and its unit, which a word character must not
follow. -/
def length? (cs : List Char) : Option (Decimal × LengthUnit) := do
  let (d, rest) ← Decimal.read? cs
  match skipBlanks rest with
  | 'p' :: 'x' :: behind => if wordAt behind.head? then none else some (d, .px)
  | 'r' :: 'e' :: 'm' :: behind => if wordAt behind.head? then none else some (d, .rem)
  | _ => none

/-- What a spacing line asks for, if it asks for anything. Lengths above the greatest number of
pixels count as that number. -/
def spacingRequirement? (line : String) : Option SpacingRequirement := do
  let (label, rest) ← cut? ':' line.toList
  let (d, u) ← length? (skipBlanks rest)
  let pixels ← wholePixels? d u
  let name := String.ofList (stripBlanks label)
  let property ← Property.ofLabel? name
  some ⟨name, property, min pixels maxPixels, trimmed line⟩

/-- The lengths asked for a property, in the order of the lines. -/
abbrev SpacingGroup := Property × List Nat

/-- Adds a requirement to its group, or opens a group for it at the end. -/
def addRequirement (property : Property) (pixels : Nat) : List SpacingGroup → List SpacingGroup
  | [] => [(property, [pixels])]
  | (p, values) :: groups =>
    if p = property then
      (p, if values.contains pixels then values else values ++ [pixels]) :: groups
    else (p, values) :: addRequirement property pixels groups

/-- The requirements of spacing lines, grouped by property in the order of first mention. -/
def spacingGroups (lines : List String) : List SpacingGroup :=
  (lines.filterMap spacingRequirement?).foldl
    (fun groups r => addRequirement r.property r.pixels groups) []

end DesignTokens
