import DesignTokens.Issue.Extraction
import DesignTokens.Record.Write
import DesignTokens.Source.Structure
import DesignTokens.Token.Editable

/-!
# Summaries

A summary puts everything that is known of a component into one record: how far
it follows its spec, what could be changed, what could be edited, and whether
its source is whole.
-/

namespace DesignTokens

/-- All that is known of a component. -/
structure Summary where
  title : String
  component : String
  sourcePath : String
  generatedAt : String
  overallMatch : Nat
  failedCategories : Nat
  report : Report
  issues : List Issue
  editable : List EditableProperty
  check : Source.StructureCheck
  deriving Repr

namespace Summary

/-- The summary of a source text. -/
def of (spec : Spec) (source : List Char) (policy : Policy) (title sourcePath now : String) :
    Summary :=
  let report := validate source spec policy
  let input : ExtractionInput := ⟨spec, report, policy, some source⟩
  { title
    component := spec.name
    sourcePath
    generatedAt := now
    overallMatch := report.overallMatch
    failedCategories := report.failedCategories
    report
    issues := input.allProperties
    editable := editableProperties source
    check := Source.checkStructure policy.variantCall.toList source }

open Json in
/-- A summary as a value. -/
def write (s : Summary) : Value :=
  .object
    [("title", .string s.title), ("component", .string s.component),
     ("source_path", .string s.sourcePath), ("generated_at", .string s.generatedAt),
     ("overall_match", .nat s.overallMatch), ("failed_categories", .nat s.failedCategories),
     ("report", s.report.write),
     ("issues", .array (s.issues.map Issue.write)),
     ("editable_properties", .array (s.editable.map EditableProperty.write)),
     ("structure", s.check.write)]

end Summary

end DesignTokens
