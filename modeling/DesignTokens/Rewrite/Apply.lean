import DesignTokens.Rewrite.Color
import DesignTokens.Rewrite.Reserved
import DesignTokens.Rewrite.Spacing
import DesignTokens.Rewrite.Variant

/-!
# Applying a mapping set

The four passes run one after the other: colors, spacing, variants, and, whatever
the mapping set asks for, reserved names. What does not fit the text is passed
over. `applyTraced` keeps the records; `applyMappings` is its text.
-/

namespace DesignTokens.Rewrite

/-- The version of the rewriting that results are marked with. -/
def version : String := "themefit-mutator-v1"

/-- What has been done, in numbers. -/
structure Stats where
  passesExecuted : Nat
  transformations : Nat
  /-- The number of records of each pass that has any, sorted by the name of the pass. -/
  byPass : List (String × Nat)
  deriving Repr, DecidableEq

/-- A rewritten text and what has been done to it. -/
structure Result where
  version : String
  text : List Char
  records : List Record
  stats : Stats
  deriving Repr, DecidableEq

/-- The edits of a pass. -/
def Pass.edits (m : MappingSet) (policy : Policy) : Pass → List Edit
  | .colors => colorEdits m.colors
  | .spacing => spacingEdits m.spacing
  | .variants => variantEdits policy.variantCall.toList m.variants
  | .reservedNames => reservedEdits policy.variantCall.toList policy.reserved

/-- The text and the records behind a row of passes. -/
def runPasses (m : MappingSet) (policy : Policy) : List Pass → List Char → List Char × List Record
  | [], text => (text, [])
  | p :: ps, text =>
    let (changed, records) := runEdits (p.edits m policy) text
    let (last, later) := runPasses m policy ps changed
    (last, records ++ later)

/-- The numbers of a list of records. -/
def Stats.of (records : List Record) : Stats :=
  let counts := Pass.all.filterMap fun p =>
    let n := records.countP fun r => r.pass = p
    if n = 0 then none else some (p.name, n)
  ⟨Pass.all.length, records.length, counts.mergeSort fun a b => a.1 ≤ b.1⟩

/-- Applies a mapping set and keeps the records. -/
def applyTraced (text : List Char) (m : MappingSet) (policy : Policy) : Result :=
  let (changed, records) := runPasses m policy Pass.all text
  ⟨version, changed, records, Stats.of records⟩

/-- The text that a mapping set makes of a text. -/
def applyMappings (text : List Char) (m : MappingSet) (policy : Policy) : List Char :=
  (applyTraced text m policy).text

end DesignTokens.Rewrite
