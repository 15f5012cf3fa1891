/-!
# States and actions of a review

A review goes from a draft over a loaded, a validated and a selected component
to a preview and a saved record. Each action is allowed in some states only.
-/

namespace DesignTokens.Review

/-- How far a review has come. -/
inductive State where
  | draft
  | generated
  | validated
  | mappingSelected
  | previewed
  | saved
  deriving Repr, DecidableEq, Inhabited

/-- The name of a state. -/
def State.name : State → String
  | draft => "draft"
  | generated => "generated"
  | validated => "validated"
  | mappingSelected => "mapping_selected"
  | previewed => "previewed"
  | saved => "saved"

/-- What can be done in a review. -/
inductive Action where
  | load
  | generate
  | validate
  | select
  | deselect
  | preview
  | back
  | commit
  /-- Anything that needs a component to be there. -/
  | useComponent
  deriving Repr, DecidableEq

/-- The words for an action in a message. -/
def Action.words : Action → String
  | load => "load a component"
  | generate => "generate"
  | validate => "validate"
  | select => "select a mapping"
  | deselect => "deselect a mapping"
  | preview => "preview"
  | back => "return to selection"
  | commit => "commit"
  | useComponent => "use component"

/-- The states in which an action is allowed. -/
def Action.allowed : Action → List State
  | load | generate => [.draft]
  | validate => [.generated, .validated]
  | select => [.validated, .mappingSelected, .previewed]
  | deselect => [.mappingSelected, .previewed]
  | preview => [.mappingSelected]
  | back => [.previewed]
  | commit => [.previewed]
  | useComponent => [.generated, .validated, .mappingSelected, .previewed, .saved]

end DesignTokens.Review
