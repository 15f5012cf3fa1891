import DesignTokens.Compliance.Validation
import DesignTokens.Issue.Basic
import DesignTokens.Issue.Finding
import DesignTokens.Issue.ThemeToken

/-!
# Issues from a spec and its report

The findings that a report's advice says become issues, one for each missing
dimension, property and literal color. On request every further line of the
spec is offered as well, as an edit that is no issue, unless an issue already
covers it. The source text, where it is known, only fills in what is there now.
-/

namespace DesignTokens

open Text

/-- What issues are made from. -/
structure ExtractionInput where
  spec : Spec
  report : Report
  policy : Policy
  source : Option (List Char)

namespace ExtractionInput

/-- What is shown where the source has no token of a property. -/
def notFound : String := "not found"

/-- The first token of a property in the source. -/
def currentToken (e : ExtractionInput) (p : Property) : String :=
  match e.source.bind p.occurrence? with
  | some o => String.ofList o.token
  | none => notFound

/-- The suggested token and the policy's theme tokens, each once. -/
def colorOptions (e : ExtractionInput) (suggested : String) : List String :=
  e.policy.themeTokens.foldl (fun done t => if done.contains t then done else done ++ [t])
    [suggested]

/-- The token suggested for a literal color that the spec does not name. -/
def defaultColorToken (e : ExtractionInput) : String := e.policy.themeTokens.head?.getD "bg-primary"

/-! ## Issues from findings -/

/-- The issue of a dimension with missing values. -/
def missingValuesIssue (e : ExtractionInput) (dimension : String) (values : List String) :
    Issue where
  kind := .variant
  title := "Missing `" ++ dimension ++ "` variant values"
  requirement := dimension ++ ": " ++ commaList ((e.spec.valuesOf? dimension).getD values)
  current :=
    if e.report.missingVariants.contains dimension then "not defined"
    else "missing: " ++ commaList values
  suggestion := "Add `" ++ dimension ++ "` variants: " ++ commaList values
  options := values
  isIssue := true
  target := some (.variant dimension values)

/-- The spacing lines of the spec that speak of a property. -/
def spacingLinesOf (e : ExtractionInput) (p : Property) : List String :=
  e.spec.spacing.filter fun line => (spacingRequirement? line).any fun r => r.property = p

/-- The issue of a property that lacks lengths. -/
def spacingIssueOf (e : ExtractionInput) (p : Property) (first : Nat) (others : List Nat)
    (wording : String) : Issue where
  kind := .spacing
  title := "Spacing `" ++ p.name ++ "`"
  requirement :=
    match e.spacingLinesOf p with
    | [] => wording
    | lines => "; ".intercalate lines
  current := e.currentToken p
  suggestion := p.token first
  options := ((first :: others).flatMap p.tokenOptions).foldl
    (fun done o => if done.contains o then done else done ++ [o]) []
  isIssue := true
  target := some (.utility p)

/-- The issue that no color is referred to by theme. -/
def themeColorsIssue (e : ExtractionInput) : Issue where
  kind := .color
  title := "Theme color tokens"
  requirement :=
    if e.spec.colors.isEmpty then "Reference colors through theme tokens"
    else "; ".intercalate e.spec.colors
  current :=
    if e.report.colorIssues.contains noThemeColor then noThemeColor else "literal colors only"
  suggestion := e.policy.themeTokens.head?.getD ""
  options := e.policy.themeTokens
  isIssue := true
  target := none

/-- The spec's color line whose value is the literal up to ASCII case, with its purpose. -/
def declaredColor? (e : ExtractionInput) (literal : String) : Option (String × String) :=
  e.spec.colors.findSome? fun line =>
    match colorLine? line with
    | some (purpose, value) => if sameFolded value literal then some (purpose, line) else none
    | none => none

/-- The issue of a literal color. -/
def literalColorIssue (e : ExtractionInput) (literal : String) : Issue :=
  let declared := e.declaredColor? literal
  let suggested := (declared.map fun d => themeTokenFor d.1).getD e.defaultColorToken
  { kind := .color
    title := "Hardcoded color `" ++ literal ++ "`"
    requirement := (declared.map (·.2)).getD "Use a theme color token"
    current := literal
    suggestion := suggested
    options := e.colorOptions suggested
    isIssue := true
    target := some (.color literal) }

/-- The issues of one finding. -/
def ofFinding (e : ExtractionInput) : Finding → List Issue
  | .missingValues dimension values => [e.missingValuesIssue dimension values]
  | .spacing p first others wording => [e.spacingIssueOf p first others wording]
  | .themeColors => [e.themeColorsIssue]
  | .literalColors literals => literals.map e.literalColorIssue

/-- The issues of the report's findings, without ids. -/
def derived (e : ExtractionInput) : List Issue :=
  (e.report.recommendations.filterMap Finding.read?).flatMap e.ofFinding

/-! ## Edits for the other lines of the spec -/

/-- The edit of a variant dimension. -/
def dimensionEdit (e : ExtractionInput) : String × List String → Issue
  | (dimension, values) =>
    { kind := .variant
      title := "Variant `" ++ dimension ++ "`"
      requirement := dimension ++ ": " ++ commaList values
      current :=
        match e.source with
        | some source => "present: " ++ commaList (values.filter fun v => holds v.toList source)
        | none => "defined in spec"
      suggestion := commaList values
      options := values
      isIssue := false
      target := some (.variant dimension values) }

/-- The first token of a property in the source, or the given one where no source is known. -/
def currentOr (e : ExtractionInput) (p : Property) (pixels : Nat) : String :=
  if e.source.isSome then e.currentToken p else p.token pixels

/-- The edit of a spacing line, if the line asks for anything. -/
def spacingEdit? (e : ExtractionInput) (line : String) : Option Issue :=
  (spacingRequirement? line).map fun r =>
    { kind := .spacing
      title := "Spacing `" ++ r.property.name ++ "` (" ++ r.name ++ ")"
      requirement := r.line
      current := e.currentOr r.property r.pixels
      suggestion := r.property.token r.pixels
      options := r.property.tokenOptions r.pixels
      isIssue := false
      target := some (.utility r.property) }

/-- The edit of a color line, if the line has a purpose and a value. Only a literal value can be
rewritten. -/
def colorEdit? (e : ExtractionInput) (line : String) : Option Issue :=
  (colorLine? line).map fun (purpose, value) =>
    let suggested := themeTokenFor purpose
    { kind := .color
      title := "Color `" ++ purpose ++ "`"
      requirement := trimmed line
      current := value
      suggestion := suggested
      options := e.colorOptions suggested
      isIssue := false
      target := if value.toList.head? = some '#' then some (.color value) else none }

/-- The edit of a typography line; free text is offered without anything to choose. -/
def typographyEdit (e : ExtractionInput) (line : String) : Issue :=
  match typography? line with
  | some (p, n) =>
    { kind := .typography
      title := "Typography `" ++ p.name ++ "`"
      requirement := trimmed line
      current := e.currentOr p n
      suggestion := p.token n
      options := p.tokenOptions n
      isIssue := false
      target := some (.utility p) }
  | none =>
    { kind := .typography
      title := "Typography `" ++ trimmed line ++ "`"
      requirement := trimmed line
      current := notFound
      suggestion := ""
      options := []
      isIssue := false
      target := none }

/-- An edit for every line of the spec that can have one, without ids. -/
def edits (e : ExtractionInput) : List Issue :=
  e.spec.variants.map e.dimensionEdit
    ++ e.spec.spacing.filterMap e.spacingEdit?
    ++ e.spec.colors.filterMap e.colorEdit?
    ++ e.spec.typography.map e.typographyEdit

/-- The edits that none of the issues covers, without ids. -/
def uncoveredEdits (e : ExtractionInput) (found : List Issue) : List Issue :=
  e.edits.filter fun c => !found.any fun i => i.covers c

/-! ## The lists -/

/-- The issues of the report, with ids made from the given digest. -/
def issuesBy (digestOf : Issue → String) (e : ExtractionInput) : List Issue :=
  Issue.assignIds digestOf e.derived

/-- The issues of the report and then the edits that none of them covers. All of them get their ids
once more, made from the given digest. -/
def allPropertiesBy (digestOf : Issue → String) (e : ExtractionInput) : List Issue :=
  let found := e.issuesBy digestOf
  Issue.assignIds digestOf (found ++ e.uncoveredEdits found)

/-- The issues of the report. -/
def issues (e : ExtractionInput) : List Issue := e.issuesBy Issue.digest

/-- The issues of the report and then the edits that none of them covers. -/
def allProperties (e : ExtractionInput) : List Issue := e.allPropertiesBy Issue.digest

end ExtractionInput

end DesignTokens
