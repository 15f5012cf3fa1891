import DesignTokens.Text.Basic

/-!
# Properties and their scales

A *property* is a length or weight that a utility class can set: a height, a
padding, a font size. Each one has a utility name, which its classes start
with, and a scale: the keys that may follow the name, each with the number of
pixels (for a weight: the number) that it stands for.

Properties are found in three ways: by their own name, by their utility name,
and by the words of a free label such as "Base height".
-/

namespace DesignTokens

/-- A property that a utility class can set. -/
inductive Property where
  | height
  | width
  | padding
  | paddingX
  | paddingY
  | margin
  | marginX
  | marginY
  | gap
  | borderRadius
  | fontSize
  | fontWeight
  | lineHeight
  deriving Repr, DecidableEq, Inhabited

namespace Property

/-- Every property, in the order in which searches try them. -/
def all : List Property :=
  [height, width, padding, paddingX, paddingY, margin, marginX, marginY, gap, borderRadius,
   fontSize, fontWeight, lineHeight]

theorem mem_all (p : Property) : p ∈ all := by cases p <;> decide

/-- What the utility classes of the property start with. -/
def utility : Property → String
  | height => "h"
  | width => "w"
  | padding => "p"
  | paddingX => "px"
  | paddingY => "py"
  | margin => "m"
  | marginX => "mx"
  | marginY => "my"
  | gap => "gap"
  | borderRadius => "rounded"
  | fontSize => "text"
  | fontWeight => "font"
  | lineHeight => "leading"

/-- The name of the property as style sheets write it. -/
def name : Property → String
  | height => "height"
  | width => "width"
  | padding => "padding"
  | paddingX => "padding-x"
  | paddingY => "padding-y"
  | margin => "margin"
  | marginX => "margin-x"
  | marginY => "margin-y"
  | gap => "gap"
  | borderRadius => "border-radius"
  | fontSize => "font-size"
  | fontWeight => "font-weight"
  | lineHeight => "line-height"

/-- The properties that set space or size, as opposed to shape and type. -/
def isSpacing : Property → Bool
  | height | width | padding | paddingX | paddingY | margin | marginX | marginY | gap => true
  | _ => false

/-- The properties that set type. -/
def isTypography : Property → Bool
  | fontSize | fontWeight | lineHeight => true
  | _ => false

/-- The unit of a bracketed value; weights have none. -/
def unit : Property → String
  | fontWeight => ""
  | _ => "px"

/-! ## Scales -/

/-- The keys of a scale with what they stand for. -/
abbrev Scale := List (String × Nat)

/-- The scale of sizes and distances. -/
def spacingScale : Scale :=
  [("0", 0), ("px", 1), ("0.5", 2), ("1", 4), ("1.5", 6), ("2", 8), ("2.5", 10), ("3", 12),
   ("3.5", 14), ("4", 16), ("5", 20), ("6", 24), ("7", 28), ("8", 32), ("9", 36), ("10", 40),
   ("11", 44), ("12", 48), ("14", 56), ("16", 64), ("20", 80), ("24", 96), ("28", 112),
   ("32", 128), ("36", 144), ("40", 160), ("44", 176), ("48", 192), ("52", 208), ("56", 224),
   ("60", 240), ("64", 256), ("72", 288), ("80", 320), ("96", 384)]

/-- The scale of font sizes. -/
def fontSizeScale : Scale :=
  [("xs", 12), ("sm", 14), ("base", 16), ("lg", 18), ("xl", 20), ("2xl", 24), ("3xl", 30),
   ("4xl", 36), ("5xl", 48), ("6xl", 60), ("7xl", 72), ("8xl", 96), ("9xl", 128)]

/-- The scale of font weights, whose numbers are weights and not pixels. -/
def fontWeightScale : Scale :=
  [("thin", 100), ("extralight", 200), ("light", 300), ("normal", 400), ("medium", 500),
   ("semibold", 600), ("bold", 700), ("extrabold", 800), ("black", 900)]

/-- The scale of line heights. -/
def lineHeightScale : Scale :=
  [("3", 12), ("4", 16), ("5", 20), ("6", 24), ("7", 28), ("8", 32), ("9", 36), ("10", 40)]

/-- The scale of corner radii; the empty key belongs to the bare utility name. -/
def radiusScale : Scale :=
  [("none", 0), ("sm", 2), ("", 4), ("md", 6), ("lg", 8), ("xl", 12), ("2xl", 16), ("3xl", 24),
   ("full", 9999)]

/-- The scale of a property. -/
def scale : Property → Scale
  | borderRadius => radiusScale
  | fontSize => fontSizeScale
  | fontWeight => fontWeightScale
  | lineHeight => lineHeightScale
  | _ => spacingScale

/-! ## Finding a property -/

/-- The property with exactly this name. -/
def ofName? (s : String) : Option Property := all.find? fun p => p.name = s

/-- The property with this name, where white space around it and ASCII case do not count. -/
def ofLooseName? (s : String) : Option Property :=
  all.find? fun p => Text.sameFolded p.name (Text.trimmed s)

/-- The property whose utility classes start with exactly this. -/
def ofUtility? (s : String) : Option Property := all.find? fun p => p.utility = s

/-- Which axis a label speaks of. -/
inductive Axis where
  | both
  | horizontal
  | vertical
  deriving Repr, DecidableEq

/-- The property that a label speaks of. Words are looked for anywhere and without regard to ASCII
case, and the more particular ones first, so that a line height is not taken for a height. -/
def ofLabel? (label : String) : Option Property :=
  let lower := Text.lowered label.toList
  let mentions (words : List String) : Bool := words.any fun w => Text.holds w.toList lower
  let axis : Axis :=
    if mentions ["horizontal", "-x", " x", "inline"] then .horizontal
    else if mentions ["vertical", "-y", " y", "block"] then .vertical
    else .both
  if mentions ["line height", "line-height", "leading"] then some lineHeight
  else if mentions ["font size", "font-size", "text size"] then some fontSize
  else if mentions ["weight"] then some fontWeight
  else if mentions ["radius", "rounded", "corner"] then some borderRadius
  else if mentions ["height"] then some height
  else if mentions ["width"] then some width
  else if mentions ["padding"] then
    some (match axis with
      | .horizontal => paddingX
      | .vertical => paddingY
      | .both => padding)
  else if mentions ["margin"] then
    some (match axis with
      | .horizontal => marginX
      | .vertical => marginY
      | .both => margin)
  else if mentions ["gap"] then some gap
  else none

/-- The property that a user means: by name, by utility name, or by the words of a label. -/
def ofUserText? (s : String) : Option Property :=
  let t := Text.trimmed s
  (ofLooseName? t).or ((ofUtility? t).or (ofLabel? t))

theorem ofName?_name (p : Property) : ofName? p.name = some p := by cases p <;> decide

theorem ofUtility?_utility (p : Property) : ofUtility? p.utility = some p := by
  cases p <;> decide

end Property

end DesignTokens
