import DesignTokens.Issue.Basic
import DesignTokens.Text.Basic

/-!
# Mapping sets

A mapping set is what a rewriting is asked to do: colors to replace, tokens to
put in place, and variant values to add. `MappingSet.ofSelection` makes one
from the issues that a user has chosen and the value chosen for each.
-/

namespace DesignTokens

open Text

/-- A literal color and what to write instead. -/
structure ColorMapping where
  issueId : String
  literal : String
  replacement : String
  deriving Repr, DecidableEq

/-- A token to put in the place of a property's token. -/
structure SpacingMapping where
  issueId : String
  property : Property
  token : String
  deriving Repr, DecidableEq

/-- Values that a variant dimension is to have. -/
structure VariantMapping where
  issueId : String
  dimension : String
  values : List String
  deriving Repr, DecidableEq

/-- What a rewriting is asked to do. The order of each list counts. -/
structure MappingSet where
  colors : List ColorMapping := []
  spacing : List SpacingMapping := []
  variants : List VariantMapping := []
  deriving Repr, DecidableEq, Inhabited

namespace MappingSet

/-- The number of mappings. -/
def size (m : MappingSet) : Nat := m.colors.length + m.spacing.length + m.variants.length

/-- Whether there is nothing to do. -/
def isEmpty (m : MappingSet) : Bool := m.colors.isEmpty && m.spacing.isEmpty && m.variants.isEmpty

/-- The mapping set with the mapping of one chosen issue added. A blank choice means the suggestion;
for values of a dimension the suggestion means the values that the issue itself names. -/
def addChoice (m : MappingSet) (issue : Issue) (choice : String) : MappingSet :=
  let value := if isBlankText choice then trimmed issue.suggestion else trimmed choice
  match issue.target with
  | some (.color literal) => { m with colors := m.colors ++ [⟨issue.id, literal, value⟩] }
  | some (.utility property) => { m with spacing := m.spacing ++ [⟨issue.id, property, value⟩] }
  | some (.variant dimension values) =>
    let picked :=
      if isBlankText choice || value = trimmed issue.suggestion then values
      else listItems value.toList
    { m with variants := m.variants ++ [⟨issue.id, dimension, picked⟩] }
  | none => m

/-- Adds the choices from left to right, where `seen` holds the ids chosen so far. -/
def addChoices (issues : List Issue) (seen : List String) (m : MappingSet) :
    List (String × String) → Except String MappingSet
  | [] => .ok m
  | (id, choice) :: rest =>
    match issues.find? fun i => i.id = id with
    | none => .error id
    | some issue =>
      if seen.contains id then addChoices issues seen m rest
      else addChoices issues (id :: seen) (m.addChoice issue choice) rest

/-- The mapping set of the chosen ids and values, in the order of choice; of several choices of one
id the first counts. An id that no issue has is the error. -/
def ofSelection (issues : List Issue) (choices : List (String × String)) :
    Except String MappingSet :=
  addChoices issues [] {} choices

end MappingSet

end DesignTokens
