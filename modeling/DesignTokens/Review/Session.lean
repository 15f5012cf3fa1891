import DesignTokens.Issue.Extraction
import DesignTokens.Response.Component
import DesignTokens.Review.Record
import DesignTokens.Rewrite.Apply

/-!
# Review sessions

A session takes one component from a draft to a saved record. Every operation
answers with the session behind it and with what came of it, so that a failure
does not by itself say that nothing has changed. The loaded source is only ever
read: a preview is made from it afresh, whatever has been previewed before.

The generative service and the store are given to the operations that need
them, as functions.
-/

namespace DesignTokens.Review

/-- What is known and chosen in a review. -/
structure Session where
  policy : Policy
  /-- Whether edits that are no issue are offered too. -/
  advanced : Bool
  state : State
  spec : Option Spec
  source : Option String
  report : Option Report
  issues : List Issue
  /-- The chosen ids with the values chosen for them, in the order of choice. -/
  selection : List (String × String)
  preview : Option Preview

/-- A service that answers a prompt. -/
abbrev Generator := String → Outcome String

/-- A store over its own state: it takes a component and answers with a location. -/
abbrev Store (σ : Type) := SavedComponent → σ → σ × Outcome String

/-- A store that keeps everything in a list and counts its locations. -/
def Store.memory : Store (List SavedComponent) := fun c saved =>
  (saved ++ [c], .ok ("memory:" ++ toString saved.length))

/-- What a mapping set makes of a component. -/
def Preview.of (c : Component) (m : MappingSet) (policy : Policy) (scoreBefore : Nat) : Preview :=
  let text := Rewrite.applyMappings c.source.toList m policy
  let report := DesignTokens.validate text c.spec policy
  { text := String.ofList text
    mappings := m
    report
    scoreBefore
    scoreAfter := report.overallMatch
    check := Source.checkStructure policy.variantCall.toList text }

/-- What is handed to a store, given the component, its preview and the time. -/
def SavedComponent.of (c : Component) (p : Preview) (now : String) : SavedComponent where
  name := c.spec.name
  savedAt := now
  spec := c.spec
  source := p.text
  report := p.report
  mappings := p.mappings

namespace Session

/-- A session in which nothing has happened. -/
def new (policy : Policy) (advanced : Bool) : Session where
  policy
  advanced
  state := .draft
  spec := none
  source := none
  report := none
  issues := []
  selection := []
  preview := none

/-- Does what an action is to do, if the action is allowed in the state of the session. -/
def allowing {α : Type} (s : Session) (a : Action) (result : Session × Outcome α) :
    Session × Outcome α :=
  if s.state ∈ a.allowed then result else (s, .error (.invalidTransition s.state a))

/-- The loaded component. -/
def loaded (s : Session) : Outcome Component :=
  match s.spec, s.source with
  | some spec, some source => .ok ⟨spec, source⟩
  | _, _ => .error (.invalidTransition s.state .useComponent)

/-- Whether an issue of this id is there. -/
def hasIssue (s : Session) (id : String) : Bool := s.issues.any fun i => i.id = id

/-- Whether an id is chosen. -/
def isSelected (s : Session) (id : String) : Bool := s.selection.any fun c => c.1 = id

/-! ## Loading and validating -/

/-- Takes a component that was made elsewhere. -/
def load (s : Session) (c : Component) : Session × Outcome Unit :=
  s.allowing .load
    ({ s with spec := some c.spec, source := some c.source, state := .generated }, .ok ())

/-- Takes the component that a service answers a prompt with. -/
def generate (s : Session) (service : Generator) (prompt : String) : Session × Outcome Unit :=
  s.allowing .generate
    (match (service prompt).bind Component.ofResponse with
     | .error f => (s, .error f)
     | .ok c => s.load c)

/-- The issues to choose from, given the report on a component. -/
def offers (s : Session) (c : Component) (report : Report) : List Issue :=
  let input : ExtractionInput := ⟨c.spec, report, s.policy, some c.source.toList⟩
  if s.advanced then input.allProperties else input.issues

/-- Reports on the loaded component and lists what there is to choose. -/
def validate (s : Session) : Session × Outcome Report :=
  s.allowing .validate
    (match s.loaded with
     | .error f => (s, .error f)
     | .ok c =>
       let report := DesignTokens.validate c.source.toList c.spec s.policy
       ({ s with
          report := some report
          issues := s.offers c report
          selection := []
          preview := none
          state := .validated }, .ok report))

/-! ## Choosing -/

/-- Chooses a value for an issue, in place if the issue is chosen already. An empty value means the
suggestion. -/
def select (s : Session) (id value : String) : Session × Outcome Unit :=
  s.allowing .select
    (if s.hasIssue id then
       ({ s with
          selection := Json.putMember id value s.selection
          preview := none
          state := .mappingSelected }, .ok ())
     else (s, .error (.unknownIssue id)))

/-- Drops a choice and tells whether there was one. -/
def deselect (s : Session) (id : String) : Session × Outcome Bool :=
  s.allowing .deselect
    (let rest := s.selection.filter fun c => c.1 ≠ id
     ({ s with
        selection := rest
        preview := none
        state := if rest.isEmpty then .validated else .mappingSelected }, .ok (s.isSelected id)))

/-- Drops the choice of an issue, or chooses its suggestion, and tells whether it is chosen now. -/
def toggle (s : Session) (id : String) : Session × Outcome Bool :=
  if s.isSelected id then
    let (next, result) := s.deselect id
    (next, result.map fun _ => false)
  else
    let (next, result) := s.select id ""
    (next, result.map fun _ => true)

/-- The mapping set of what is chosen. -/
def mappings (s : Session) : Outcome MappingSet :=
  (MappingSet.ofSelection s.issues s.selection).mapError .unknownIssue

/-! ## Previewing and saving -/

/-- Makes the preview of what is chosen. -/
def makePreview (s : Session) : Session × Outcome Preview :=
  s.allowing .preview
    (match s.mappings, s.loaded with
     | .error f, _ => (s, .error f)
     | _, .error f => (s, .error f)
     | .ok m, .ok c =>
       let p := Preview.of c m s.policy ((s.report.map (·.overallMatch)).getD 0)
       ({ s with preview := some p, state := .previewed }, .ok p))

/-- Leaves the preview and goes on choosing. -/
def back (s : Session) : Session × Outcome Unit :=
  s.allowing .back ({ s with preview := none, state := .mappingSelected }, .ok ())

/-- What the session hands to a store. -/
def toSave (s : Session) (now : String) : Outcome SavedComponent := do
  let c ← s.loaded
  let p ← orFail (.invalidTransition s.state .commit) s.preview
  return .of c p now

/-- Hands the preview to a store and answers with the location. The state of the store goes along
with the session. -/
def commit {σ : Type} (s : Session) (store : Store σ) (now : String) (kept : σ) :
    Session × σ × Outcome String :=
  if s.state ∈ Action.commit.allowed then
    match s.toSave now with
    | .error f => (s, kept, .error f)
    | .ok record =>
      match store record kept with
      | (kept, .error f) => (s, kept, .error f)
      | (kept, .ok location) => ({ s with state := .saved }, kept, .ok location)
  else (s, kept, .error (.invalidTransition s.state .commit))

/-- Throws everything away and starts over. -/
def reset (s : Session) : Session := new s.policy s.advanced

end Session

end DesignTokens.Review
