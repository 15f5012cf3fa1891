import DesignTokens.Json.Basic
import DesignTokens.MappingSet
import DesignTokens.Policy
import DesignTokens.Review.Record
import DesignTokens.Rewrite.Apply
import DesignTokens.Spec
import DesignTokens.Token.Editable

/-!
# Records written as JSON

How each record of the library is written: as an object with its members in a
fixed order. A missing number is null; a missing target is left out.
-/

namespace DesignTokens

open Json

/-- A spec as a value. -/
def Spec.write (s : Spec) : Value :=
  .object
    [("name", .string s.name), ("description", .string s.description),
     ("category", .string s.category),
     ("variants", .object (s.variants.map fun (d, vs) => (d, strings vs))),
     ("colors", strings s.colors), ("spacing", strings s.spacing),
     ("typography", strings s.typography)]

/-- A report as a value. -/
def Report.write (r : Report) : Value :=
  .object
    [("hasRequiredVariants", .bool r.hasRequiredVariants),
     ("hasCorrectSpacing", .bool r.hasCorrectSpacing), ("hasThemeColors", .bool r.hasThemeColors),
     ("missingVariants", strings r.missingVariants), ("spacingIssues", strings r.spacingIssues),
     ("colorIssues", strings r.colorIssues), ("overallMatch", .nat r.overallMatch),
     ("recommendations", strings r.recommendations)]

/-- A target as a value, with a member for its kind. -/
def Target.write : Target → Value
  | .color literal => .object [("kind", .string "color"), ("literal", .string literal)]
  | .utility property => .object [("kind", .string "utility"), ("property", .string property.name)]
  | .variant dimension values =>
    .object
      [("kind", .string "variant"), ("dimension", .string dimension), ("values", strings values)]

/-- An issue as a value. -/
def Issue.write (i : Issue) : Value :=
  .object
    ([("id", .string i.id), ("type", .string i.kind.name), ("title", .string i.title),
      ("specRequirement", .string i.requirement), ("currentValue", .string i.current),
      ("suggestedFix", .string i.suggestion), ("options", strings i.options),
      ("isIssue", .bool i.isIssue)]
      ++ (i.target.map fun t => ("target", t.write)).toList)

/-- A color mapping as a value. -/
def ColorMapping.write (m : ColorMapping) : Value :=
  .object
    [("issueId", .string m.issueId), ("from", .string m.literal), ("to", .string m.replacement)]

/-- A spacing mapping as a value. -/
def SpacingMapping.write (m : SpacingMapping) : Value :=
  .object
    [("issueId", .string m.issueId), ("property", .string m.property.name),
     ("token", .string m.token)]

/-- A variant mapping as a value. -/
def VariantMapping.write (m : VariantMapping) : Value :=
  .object
    [("issueId", .string m.issueId), ("dimension", .string m.dimension),
     ("values", strings m.values)]

/-- A mapping set as a value. -/
def MappingSet.write (m : MappingSet) : Value :=
  .object
    [("colors", .array (m.colors.map ColorMapping.write)),
     ("spacing", .array (m.spacing.map SpacingMapping.write)),
     ("variants", .array (m.variants.map VariantMapping.write))]

/-- An editable property as a value. -/
def EditableProperty.write (e : EditableProperty) : Value :=
  .object
    [("property", .string e.property.name), ("token", .string e.token),
     ("pixels", optionalNat e.pixels),
     ("locator", .object
       [("line", .nat e.locator.line), ("column", .nat e.locator.column),
        ("context", .string e.locator.context)])]

/-- The outcome of a structure check as a value. -/
def Source.StructureCheck.write (c : Source.StructureCheck) : Value :=
  .object [("valid", .bool c.valid), ("errors", strings c.errors)]

/-- A preview as a value. -/
def Review.Preview.write (p : Review.Preview) : Value :=
  .object
    [("text", .string p.text), ("mappings", p.mappings.write), ("report", p.report.write),
     ("scoreBefore", .nat p.scoreBefore), ("scoreAfter", .nat p.scoreAfter),
     ("structure", p.check.write)]

/-- A saved component as a value. -/
def Review.SavedComponent.write (c : Review.SavedComponent) : Value :=
  .object
    [("name", .string c.name), ("savedAt", .string c.savedAt), ("spec", c.spec.write),
     ("source", .string c.source), ("report", c.report.write), ("mappings", c.mappings.write)]

/-- The record of a change as a value. -/
def Rewrite.Record.write (r : Rewrite.Record) : Value :=
  .object
    [("pass", .string r.pass.name), ("issue_id", optionalString r.issueId),
     ("description", .string r.description), ("before_snippet", .string r.before),
     ("after_snippet", .string r.after)]

/-- The numbers of a rewriting as a value. -/
def Rewrite.Stats.write (s : Rewrite.Stats) : Value :=
  .object
    [("passes_executed", .nat s.passesExecuted), ("transformations", .nat s.transformations),
     ("by_pass", .object (s.byPass.map fun e => (e.1, .nat e.2)))]

/-- A policy as a value. -/
def Policy.write (p : Policy) : Value :=
  .object
    [("schema_version", .string p.schemaVersion), ("variant_call", .string p.variantCall),
     ("interaction_state_dimensions", strings p.interactionDimensions),
     ("generic_state_values", strings p.genericValues),
     ("color_reference_prefixes", strings p.colorReferences),
     ("theme_color_tokens", strings p.themeTokens),
     ("reserved_attributes",
       .object (p.reserved.map fun (name, renamed) => (name, .string renamed)))]

end DesignTokens
