import DesignTokens.CommandLine.Command
import DesignTokens.Issue.Extraction
import DesignTokens.Record.Write

/-!
# Commands that look

Scoring a component, listing what there is to choose or to edit, and converting
between pixels and tokens. Of these only the list of issues may go to a file.
-/

namespace DesignTokens.CommandLine

open Json Text

/-- A component with its spec and the policy. -/
structure Inputs where
  spec : Spec
  source : String
  policy : Policy

/-- Reads the input: the spec first, then the source, then the policy. -/
def InputPaths.load (paths : InputPaths) (files : Reading) : Outcome Inputs := do
  let spec ← files.record Spec.read paths.spec
  let source ← files.text paths.source
  let policy ← files.policy paths.policy
  return ⟨spec, source, policy⟩

/-- The report on the input. -/
def Inputs.report (i : Inputs) : Report := validate i.source.toList i.spec i.policy

/-- What there is to choose. -/
def Inputs.issues (i : Inputs) (advanced : Bool) : List Issue :=
  let input : ExtractionInput := ⟨i.spec, i.report, i.policy, some i.source.toList⟩
  if advanced then input.allProperties else input.issues

/-- The word for a category that has passed or failed. -/
def passFail (passed : Bool) : String := if passed then "pass" else "fail"

/-- The words for a score. -/
def outOfHundred (score : Nat) : String := toString score ++ "/100"

/-- How scoring ends, given the least score that is asked for. -/
def verdict (score : Nat) : Option Nat → Outcome Unit
  | none => .ok ()
  | some least =>
    if score < least then
      .error (.exit 1
        ("overall match " ++ toString score ++ " is below --fail-under " ++ toString least))
    else .ok ()

/-- Scores a component. -/
def validatePlan (files : Reading) (paths : InputPaths) (failUnder : Option Nat) (v : Voice) :
    Outcome Plan := do
  let input ← paths.load files
  let report := input.report
  let said :=
    v.heading (input.spec.displayName ++ " compliance")
      ++ v.info ("overall match: " ++ outOfHundred report.overallMatch)
      ++ v.info ("variants: " ++ passFail report.hasRequiredVariants
          ++ " | spacing: " ++ passFail report.hasCorrectSpacing
          ++ " | colors: " ++ passFail report.hasThemeColors)
      ++ report.recommendations.flatMap v.warning
      ++ (if report.isFullyCompliant then v.success "component follows the design tokens" else [])
      ++ v.answer
        [("command", .string "validate"), ("status", .string "ok"),
         ("component", .string input.spec.name), ("report", report.write), Voice.integration]
  return ⟨said, verdict report.overallMatch failUnder⟩

/-- Lists what there is to choose. -/
def issuesPlan (files : Reading) (paths : InputPaths) (advanced : Bool) (output : Option String)
    (v : Voice) : Outcome Plan := do
  let input ← paths.load files
  let issues := input.issues advanced
  let content := indented (.array (issues.map Issue.write))
  match output with
  | none => return ⟨[.out (content ++ "\n")], .ok ()⟩
  | some path =>
    let said :=
      v.success (toString issues.length ++ " issue(s) written to " ++ path)
        ++ v.answer
          [("command", .string "issues"), ("status", .string "ok"), ("count", .nat issues.length),
           ("output", .string path), Voice.integration]
    return ⟨.write path content :: said, .ok ()⟩

/-- Converts between pixels and tokens of a property. -/
def convertPlan (property : String) (pixels : Option Nat) (token : Option String) (v : Voice) :
    Outcome Plan := do
  let p ← orFail (.invalidArgument ("unknown property '" ++ property ++ "'"))
    (Property.ofUserText? property)
  match pixels, token with
  | some n, none =>
    let options := p.tokenOptions n
    let said :=
      v.info (toString n ++ "px -> " ++ p.token n)
        ++ v.info ("options: " ++ commaList options)
        ++ v.answer
          [("command", .string "convert"), ("property", .string p.name), ("pixels", .nat n),
           ("token", .string (p.token n)), ("options", strings options)]
    return ⟨said, .ok ()⟩
  | none, some token =>
    let found := p.pixels? token.toList
    let line := match found with
      | some n => v.info (token ++ " -> " ++ toString n ++ "px")
      | none => v.warning (token ++ " has no pixel value for " ++ p.name)
    let said := line ++ v.answer
      [("command", .string "convert"), ("property", .string p.name), ("token", .string token),
       ("pixels", optionalNat found)]
    return ⟨said, .ok ()⟩
  | _, _ => throw (.invalidArgument "exactly one of --pixels or --token is required")

/-- Lists the tokens that can be edited. -/
def propertiesPlan (files : Reading) (source : String) : Outcome Plan := do
  let text ← files.text source
  let content := indented (.array ((editableProperties text.toList).map EditableProperty.write))
  return ⟨[.out (content ++ "\n")], .ok ()⟩

end DesignTokens.CommandLine
