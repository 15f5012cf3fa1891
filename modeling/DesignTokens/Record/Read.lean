import DesignTokens.Json.Reader
import DesignTokens.MappingSet
import DesignTokens.Policy
import DesignTokens.Review.Record
import DesignTokens.Spec
import DesignTokens.Token.Editable

/-!
# Records read from JSON

How each record of the library is read. A spec and a mapping set take defaults
for members that are missing; every other record needs its members, apart from
those that may be null. A policy refuses members that it does not know, and is
only accepted if nothing is wrong with it.
-/

namespace DesignTokens

open Json

/-- The greatest number of an 8-bit word. -/
def maxByte : Nat := 255

/-- Reads a property by its name. -/
def Property.read : Reader Property := readChoice Property.ofName?

/-- Reads the kind of an issue by its name. -/
def IssueKind.read : Reader IssueKind :=
  readChoice fun s => IssueKind.all.find? fun k => k.name = s

/-- Reads a spec; every member has a default. -/
def Spec.read : Reader Spec := fun d => do
  match ← readFields .passed
    ["name", "description", "category", "variants", "colors", "spacing", "typography"] d with
  | [name, description, category, variants, colors, spacing, typography] =>
    some {
      name := ← withDefault "" readText name
      description := ← withDefault "" readText description
      category := ← withDefault "" readText category
      variants := ← withDefault [] (readMap readTexts) variants
      colors := ← withDefault [] readTexts colors
      spacing := ← withDefault [] readTexts spacing
      typography := ← withDefault [] readTexts typography }
  | _ => none

/-- Reads a report. -/
def Report.read : Reader Report := fun d => do
  match ← readFields .passed
    ["hasRequiredVariants", "hasCorrectSpacing", "hasThemeColors", "missingVariants",
     "spacingIssues", "colorIssues", "overallMatch", "recommendations"] d with
  | [variants, spacing, colors, missing, spacingIssues, colorIssues, overall, advice] =>
    some {
      hasRequiredVariants := ← required readBool variants
      hasCorrectSpacing := ← required readBool spacing
      hasThemeColors := ← required readBool colors
      missingVariants := ← required readTexts missing
      spacingIssues := ← required readTexts spacingIssues
      colorIssues := ← required readTexts colorIssues
      overallMatch := ← required (readNatUpTo maxByte) overall
      recommendations := ← required readTexts advice }
  | _ => none

/-! ## Issues -/

/-- Reads the property of a target; an object with its name alone may also hold an empty object. -/
def Target.readProperty : Reader Property
  | .object [(some name, .object [])] => Property.ofName? name
  | d => Property.read d

/-- Reads the members of a target of the given kind. -/
def Target.readKind (kind : String) (members : Document) : Option Target := do
  match kind with
  | "color" =>
    match ← readFields .passed ["literal"] members with
    | [literal] => some (.color (← required readText literal))
    | _ => none
  | "utility" =>
    match ← readFields .passed ["property"] members with
    | [property] => some (.utility (← required Target.readProperty property))
    | _ => none
  | "variant" =>
    match ← readFields .passed ["dimension", "values"] members with
    | [dimension, values] =>
      some (.variant (← required readText dimension) (← required readTexts values))
    | _ => none
  | _ => none

/-- Reads a target: a member tells its kind, or the first item of a list does. The whole of it must
be a value, inside `depth` lists and objects at most. -/
def Target.read (depth : Nat) : Reader Target := fun d => do
  let _ ← d.value? depth
  match d with
  | .object members =>
    match members.filter fun m => m.1 = some "kind" with
    | [(_, .string (some kind))] =>
      Target.readKind kind (.object (members.filter fun m => m.1 ≠ some "kind"))
    | _ => none
  | .array (.string (some kind) :: rest) => Target.readKind kind (.array rest)
  | _ => none

/-- Reads an issue. -/
def Issue.read : Reader Issue := fun d => do
  match ← readFields .passed
    ["id", "type", "title", "specRequirement", "currentValue", "suggestedFix", "options", "isIssue",
     "target"] d with
  | [id, kind, title, requirement, current, suggestion, options, isIssue, target] =>
    some {
      id := ← required readText id
      kind := ← required IssueKind.read kind
      title := ← required readText title
      requirement := ← required readText requirement
      current := ← required readText current
      suggestion := ← required readText suggestion
      options := ← required readTexts options
      isIssue := ← required readBool isIssue
      target := ← withDefault none (readNullable (Target.read (maxDepth - 1))) target }
  | _ => none

/-! ## Mapping sets -/

/-- Reads a color mapping. -/
def ColorMapping.read : Reader ColorMapping := fun d => do
  match ← readFields .passed ["issueId", "from", "to"] d with
  | [id, literal, replacement] =>
    some ⟨← required readText id, ← required readText literal, ← required readText replacement⟩
  | _ => none

/-- Reads a spacing mapping. -/
def SpacingMapping.read : Reader SpacingMapping := fun d => do
  match ← readFields .passed ["issueId", "property", "token"] d with
  | [id, property, token] =>
    some ⟨← required readText id, ← required Property.read property, ← required readText token⟩
  | _ => none

/-- Reads a variant mapping. -/
def VariantMapping.read : Reader VariantMapping := fun d => do
  match ← readFields .passed ["issueId", "dimension", "values"] d with
  | [id, dimension, values] =>
    some ⟨← required readText id, ← required readText dimension, ← required readTexts values⟩
  | _ => none

/-- Reads a mapping set; every member has a default. -/
def MappingSet.read : Reader MappingSet := fun d => do
  match ← readFields .passed ["colors", "spacing", "variants"] d with
  | [colors, spacing, variants] =>
    some {
      colors := ← withDefault [] (readList ColorMapping.read) colors
      spacing := ← withDefault [] (readList SpacingMapping.read) spacing
      variants := ← withDefault [] (readList VariantMapping.read) variants }
  | _ => none

/-! ## Editable properties -/

/-- Reads the place of an editable property. -/
def Locator.read : Reader Locator := fun d => do
  match ← readFields .passed ["line", "column", "context"] d with
  | [line, column, context] =>
    some ⟨← required (readNatUpTo maxLongWord) line, ← required (readNatUpTo maxLongWord) column,
      ← required readText context⟩
  | _ => none

/-- Reads a member that may be null, and may be missing where the record is an object. -/
def readOptional {α : Type} (record : Document) (read : Reader α) (d : Option Document) :
    Option (Option α) :=
  match record, d with
  | .object _, none => some none
  | _, d => required (readNullable read) d

/-- Reads an editable property. -/
def EditableProperty.read : Reader EditableProperty := fun d => do
  match ← readFields .passed ["property", "token", "pixels", "locator"] d with
  | [property, token, pixels, locator] =>
    some ⟨← required Property.read property, ← required readText token,
      ← readOptional d (readNatUpTo maxPixels) pixels, ← required Locator.read locator⟩
  | _ => none

/-! ## Previews and saved components -/

/-- Reads the outcome of a structure check. -/
def Source.StructureCheck.read : Reader Source.StructureCheck := fun d => do
  match ← readFields .passed ["valid", "errors"] d with
  | [valid, errors] => some ⟨← required readBool valid, ← required readTexts errors⟩
  | _ => none

/-- Reads a preview. -/
def Review.Preview.read : Reader Review.Preview := fun d => do
  match ← readFields .passed
    ["text", "mappings", "report", "scoreBefore", "scoreAfter", "structure"] d with
  | [text, mappings, report, scoreBefore, scoreAfter, check] =>
    some {
      text := ← required readText text
      mappings := ← required MappingSet.read mappings
      report := ← required Report.read report
      scoreBefore := ← required (readNatUpTo maxByte) scoreBefore
      scoreAfter := ← required (readNatUpTo maxByte) scoreAfter
      check := ← required Source.StructureCheck.read check }
  | _ => none

/-- Reads a saved component. -/
def Review.SavedComponent.read : Reader Review.SavedComponent := fun d => do
  match ← readFields .passed
    ["name", "savedAt", "spec", "source", "report", "mappings"] d with
  | [name, savedAt, spec, source, report, mappings] =>
    some {
      name := ← required readText name
      savedAt := ← required readText savedAt
      spec := ← required Spec.read spec
      source := ← required readText source
      report := ← required Report.read report
      mappings := ← required MappingSet.read mappings }
  | _ => none

/-! ## Policies -/

/-- Members sorted by name. -/
def sortByName {α : Type} (members : List (String × α)) : List (String × α) :=
  members.mergeSort fun a b => a.1 ≤ b.1

/-- Reads a policy, whatever may be wrong with what it says. -/
def Policy.readUnchecked : Reader Policy := fun d => do
  match ← readFields .refused
    ["schema_version", "variant_call", "interaction_state_dimensions", "generic_state_values",
     "color_reference_prefixes", "theme_color_tokens", "reserved_attributes"] d with
  | [version, call, dimensions, values, references, tokens, reserved] =>
    some {
      schemaVersion := ← required readText version
      variantCall := ← required readText call
      interactionDimensions := ← required readTexts dimensions
      genericValues := ← required readTexts values
      colorReferences := ← required readTexts references
      themeTokens := ← required readTexts tokens
      reserved := sortByName (← required (readMap readText) reserved) }
  | _ => none

end DesignTokens
