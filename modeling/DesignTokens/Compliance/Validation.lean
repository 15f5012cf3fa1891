import DesignTokens.Compliance.Advice
import DesignTokens.Compliance.Score
import DesignTokens.Compliance.SpacingLine
import DesignTokens.Spec
import DesignTokens.Token.Scan
import DesignTokens.Text.Pattern

/-!
# Checking a source text against a spec

Three categories are checked.

* *Variants*: every dimension of the spec and each of its values stands in the
  source as a word. Dimensions and values that describe a passing state are not
  asked for.
* *Spacing*: for every property that the spec's spacing lines name, one of the
  lengths asked for is there, as a length, as a token or in brackets.
* *Colors*: no color is written out, and some color is referred to by theme.

`validate` puts the findings, the score and one advice a finding into a report.
-/

namespace DesignTokens

open Text

/-! ## Variants -/

/-- What is missing of a dimension: all of it, or some of its values. -/
inductive VariantGap where
  | dimension (name : String) (required : List String)
  | values (name : String) (absent : List String)
  deriving Repr, DecidableEq

namespace VariantGap

/-- The entries of a gap in the list of missing variants. -/
def missing : VariantGap → List String
  | .dimension name _ => [name]
  | .values name absent => absent.map fun v => name ++ "." ++ v

/-- The advice for a gap. -/
def advice : VariantGap → Advice
  | .dimension name required => .missingValues name required
  | .values name absent => .missingValues name absent

end VariantGap

/-- Whether the trimmed name stands in the source as a word. -/
def namesWord (source : List Char) (name : String) : Bool := holdsName (trim name.toList) source

/-- What is missing of one dimension. -/
def variantGap? (source : List Char) (policy : Policy) : String × List String → Option VariantGap
  | (dimension, values) =>
    let required := values.filter fun v => !policy.isGenericValue v
    let absent := required.filter fun v => !namesWord source v
    if policy.isInteractionDimension dimension then none
    else if !namesWord source dimension then some (.dimension dimension required)
    else if absent.isEmpty then none
    else some (.values dimension absent)

/-- What is missing of the spec's dimensions. -/
def variantGaps (source : List Char) (spec : Spec) (policy : Policy) : List VariantGap :=
  spec.variants.filterMap (variantGap? source policy)

/-! ## Spacing -/

/-- A number of pixels written as a length: no digit or point before it, the unit behind it and no
word character behind that. -/
def pixelLiteral (pixels : Nat) : Pattern := fun before rest =>
  let literal := (toString pixels).toList ++ ['p', 'x']
  if before.any fun c => c.isDigit || c = '.' then none
  else
    match after? literal rest with
    | some behind => if wordAt behind.head? then none else some literal.length
    | none => none

/-- Whether a source has a property at one of the given lengths. -/
def satisfiesSpacing (source : List Char) : SpacingGroup → Bool
  | (property, values) => values.any fun n =>
    (pixelLiteral n).occurs source
      || holdsToken source (property.token n).toList
      || holds (property.bracketToken n).toList source

/-- The groups of the spec's spacing lines that the source does not satisfy. -/
def spacingGaps (source : List Char) (spec : Spec) : List SpacingGroup :=
  (spacingGroups spec.spacing).filter fun g => !satisfiesSpacing source g

/-- The finding for a group that is not satisfied. -/
def spacingIssue : SpacingGroup → String
  | (property, values) => property.name ++ ": expected " ++ describeTargets property values

/-! ## Colors -/

/-- A color written out: a hash sign and three to six hexadecimal digits that end as a word. -/
def literalColor : Pattern := fun _ rest =>
  match rest with
  | '#' :: cs =>
    let digits := (cs.takeWhile isHexDigit).take 6
    if 3 ≤ digits.length && !wordAt (cs.drop digits.length).head? then some (digits.length + 1)
    else none
  | _ => none

/-- The colors written out in a source, each once, in the order of the text. -/
def literalColors (source : List Char) : List String :=
  ((literalColor.spans source).map fun s => String.ofList (s.of source)).foldl
    (fun seen c => if seen.contains c then seen else seen ++ [c]) []

/-- The finding for a source that refers to no color by theme. -/
def noThemeColor : String := "no theme color token referenced"

/-! ## The report -/

/-- How far a source text follows a spec under a policy. -/
def validate (source : List Char) (spec : Spec) (policy : Policy) : Report :=
  let gaps := variantGaps source spec policy
  let spacing := spacingGaps source spec
  let literals := literalColors source
  let themed := (policy.colorReference? source).isSome
  let missingVariants := gaps.flatMap VariantGap.missing
  let spacingIssues := spacing.map spacingIssue
  let colorIssues := literals ++ if themed then [] else [noThemeColor]
  let advice := gaps.map VariantGap.advice
    ++ spacing.map (fun g => .spacing g.1 g.2)
    ++ (if literals.isEmpty then [] else [.literalColors literals])
    ++ if themed then [] else [.themeColorsOf policy]
  { hasRequiredVariants := missingVariants.isEmpty
    hasCorrectSpacing := spacingIssues.isEmpty
    hasThemeColors := colorIssues.isEmpty
    missingVariants
    spacingIssues
    colorIssues
    overallMatch := score
      ⟨missingVariants.length, spacingIssues.length, colorIssues.length, holdsSpacingToken source⟩
    recommendations := advice.map Advice.text }

end DesignTokens
