import DesignTokens.Token.Basic
import DesignTokens.Policy

/-!
# Advice

A report gives its advice in sentences. Each sentence has one of four forms;
their wording is fixed here, because the same sentences are read again when
findings are offered as mapping issues.
-/

namespace DesignTokens

open Text

/-- The forms of advice that a report gives. -/
inductive Advice where
  /-- Values of a variant dimension are missing. -/
  | missingValues (dimension : String) (values : List String)
  /-- A property has none of the lengths asked for. -/
  | spacing (property : Property) (pixels : List Nat)
  /-- Colors are written out. -/
  | literalColors (literals : List String)
  /-- No color is referred to by theme; some tokens that would do so. -/
  | themeColors (examples : List String)
  deriving Repr, DecidableEq

/-- Lengths with their tokens, any one of which will do. -/
def describeTargets (property : Property) (pixels : List Nat) : String :=
  " or ".intercalate (pixels.map fun n => toString n ++ "px (" ++ property.token n ++ ")")

namespace Advice

/-- The sentence of an advice. -/
def text : Advice → String
  | .missingValues dimension values =>
    "Add missing `" ++ dimension ++ "` values: " ++ commaList values
  | .spacing property pixels =>
    "Set `" ++ property.name ++ "` to " ++ describeTargets property pixels
  | .literalColors literals =>
    "Replace hardcoded colors with theme tokens: " ++ commaList literals
  | .themeColors examples =>
    "Use theme color tokens (e.g. " ++ commaList examples ++ ") instead of literal colors"

/-- The advice to use theme colors, with the policy's first tokens as examples. -/
def themeColorsOf (policy : Policy) : Advice := .themeColors (policy.themeTokens.take 2)

end Advice

end DesignTokens
