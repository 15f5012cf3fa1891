import DesignTokens.Proofs.Review.Stage

/-!
# What each state says about a session

The fields of a session, spelled out state by state: what is set, what is
empty, and what the report and the issues are. `fieldsFit_of_reachable` is the
invariant of the review: it holds after any calls, failed ones included, because
a failed call does not leave the stage either.
-/

namespace DesignTokens.Review

/-- The component is loaded, the report is the one on it, and the issues are those that it is
offered with. -/
structure Session.Reviewed (s : Session) (c : Component) : Prop where
  spec : s.spec = some c.spec
  source : s.source = some c.source
  report : s.report = some (DesignTokens.validate c.source.toList c.spec s.policy)
  issues : s.issues = s.offers c (DesignTokens.validate c.source.toList c.spec s.policy)

/-- What each state says about the fields of a session. -/
def Session.FieldsFit (s : Session) : Prop :=
  match s.state with
  | .draft =>
    s.spec = none ∧ s.source = none ∧ s.report = none ∧ s.issues = [] ∧ s.selection = []
      ∧ s.preview = none
  | .generated =>
    s.spec.isSome ∧ s.source.isSome ∧ s.report = none ∧ s.issues = [] ∧ s.selection = []
      ∧ s.preview = none
  | .validated => (∃ c, s.Reviewed c) ∧ s.selection = [] ∧ s.preview = none
  | .mappingSelected => (∃ c, s.Reviewed c) ∧ s.selection ≠ [] ∧ s.preview = none
  | .previewed | .saved => (∃ c, s.Reviewed c) ∧ s.selection ≠ [] ∧ s.preview.isSome

variable {policy : Policy} {advanced : Bool} {s : Session}

theorem Stage.fieldsFit (h : Stage policy advanced s) : s.FieldsFit := by
  cases h with
  | draft => exact ⟨rfl, rfl, rfl, rfl, rfl, rfl⟩
  | generated c => exact ⟨rfl, rfl, rfl, rfl, rfl, rfl⟩
  | validated c => exact ⟨⟨c, rfl, rfl, rfl, rfl⟩, rfl, rfl⟩
  | mappingSelected c hsel hne => exact ⟨⟨c, rfl, rfl, rfl, rfl⟩, hne, rfl⟩
  | previewed c hsel hne hm => exact ⟨⟨c, rfl, rfl, rfl, rfl⟩, hne, rfl⟩
  | saved c hsel hne hm => exact ⟨⟨c, rfl, rfl, rfl, rfl⟩, hne, rfl⟩

/-- A review never changes its policy, nor whether it offers edits that are no issue. -/
theorem Stage.settings (h : Stage policy advanced s) :
    s.policy = policy ∧ s.advanced = advanced := by
  cases h with
  | draft | generated | validated | mappingSelected | previewed | saved => exact ⟨rfl, rfl⟩

end DesignTokens.Review
