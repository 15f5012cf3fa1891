import DesignTokens.MappingSet
import DesignTokens.Source.Structure
import DesignTokens.Spec

/-!
# Previews and saved components

A preview is what a selection would make of the loaded source. A saved
component is the preview's outcome together with what it was made from.
-/

namespace DesignTokens.Review

/-- A rewritten source with its fresh report. -/
structure Preview where
  text : String
  mappings : MappingSet
  report : Report
  scoreBefore : Nat
  scoreAfter : Nat
  check : Source.StructureCheck
  deriving Repr, DecidableEq

/-- By how much the rewriting has changed the score. -/
def Preview.scoreDelta (p : Preview) : Int := (p.scoreAfter : Int) - p.scoreBefore

/-- What is handed to a store. -/
structure SavedComponent where
  name : String
  savedAt : String
  spec : Spec
  source : String
  report : Report
  mappings : MappingSet
  deriving Repr, DecidableEq

end DesignTokens.Review
