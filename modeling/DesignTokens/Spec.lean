import DesignTokens.Text.Basic

/-!
# Specs and reports

A *spec* says what a component should look like: the variant dimensions with
their values, and lines of text for colors, spacing and typography. A *report*
says how far a source text follows a spec.
-/

namespace DesignTokens

/-- What a component should look like. Dimensions keep the order in which they were written, and
their names are distinct. -/
structure Spec where
  name : String := ""
  description : String := ""
  category : String := ""
  variants : List (String × List String) := []
  colors : List String := []
  spacing : List String := []
  typography : List String := []
  deriving Repr, DecidableEq, Inhabited

namespace Spec

/-- The values that the spec gives for a dimension. -/
def valuesOf? (spec : Spec) (dimension : String) : Option (List String) :=
  spec.variants.lookup dimension

/-- The name to show for the component. -/
def displayName (spec : Spec) : String :=
  if Text.isBlankText spec.name then "component" else spec.name

end Spec

/-- How far a source text follows a spec. -/
structure Report where
  hasRequiredVariants : Bool
  hasCorrectSpacing : Bool
  hasThemeColors : Bool
  missingVariants : List String
  spacingIssues : List String
  colorIssues : List String
  overallMatch : Nat
  recommendations : List String
  deriving Repr, DecidableEq, Inhabited

namespace Report

/-- How many of the three categories have failed. -/
def failedCategories (r : Report) : Nat :=
  [r.hasRequiredVariants, r.hasCorrectSpacing, r.hasThemeColors].countP fun passed => !passed

/-- Whether no category has failed. -/
def isFullyCompliant (r : Report) : Bool := r.failedCategories = 0

end Report

end DesignTokens
