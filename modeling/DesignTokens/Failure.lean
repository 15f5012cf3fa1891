import DesignTokens.Policy
import DesignTokens.Response.Attempt
import DesignTokens.Review.State

/-!
# Failures

Everything that can go wrong, by its cause. `Failure.message` is the one place
where failures are worded, and `Failure.exitCode` the one place where they get
the code that a command ends with. The wording of failed reading of JSON and of
failed input and output belongs to the system and is not fixed here.
-/

namespace DesignTokens

/-- What can go wrong, by its cause. -/
inductive Failure where
  /-- A text is no JSON, or not that of the record it should be. -/
  | json
  /-- A file could not be read or written. -/
  | io
  | invalidArgument (message : String)
  | missingPath (path : String)
  | policy (fault : Policy.Fault)
  | unreadableResponse (attempts : List Response.Attempt)
  | invalidTransition (state : Review.State) (action : Review.Action)
  | unknownIssue (id : String)
  /-- A collaborator or a command ends with a code and words of its own. -/
  | exit (code : Int) (message : String)
  deriving Repr, DecidableEq

namespace Failure

/-- The wording of a failure. -/
def message : Failure → String
  | json => "JSON error"
  | io => "I/O error"
  | invalidArgument m => "invalid argument: " ++ m
  | missingPath path => "required path does not exist: " ++ path
  | policy fault => "policy validation failed: " ++ fault.message
  | unreadableResponse attempts =>
    "could not parse generation response (tried: "
      ++ Text.commaList (attempts.map Response.Attempt.words) ++ ")"
  | invalidTransition state action =>
    "cannot " ++ action.words ++ " while review is " ++ state.name
  | unknownIssue id => "unknown mapping issue: " ++ id
  | exit _ m => m

/-- The code that a command ends with. -/
def exitCode : Failure → Int
  | exit code _ => code
  | invalidArgument _ | missingPath _ => 2
  | invalidTransition _ _ | unknownIssue _ => 3
  | json | io | policy _ | unreadableResponse _ => 1

end Failure

/-- What may fail. -/
abbrev Outcome (α : Type) := Except Failure α

/-- A missing value as a failure. -/
def orFail {α : Type} (f : Failure) : Option α → Outcome α
  | some a => .ok a
  | none => .error f

end DesignTokens
