import DesignTokens.Source.Object
import DesignTokens.Text.Pattern

/-!
# The variant block

The variants of a component are defined in an object literal behind the word
`variants` and a colon. The one that follows the policy's variant call is
preferred; if none follows it, the first one of the text is taken.
-/

namespace DesignTokens.Source

open Text

/-- The name of a call as a word and its opening parenthesis. -/
def callPattern (call : List Char) : Pattern := fun before rest =>
  if !isBoundary before rest.head? then none
  else match (after? call rest).map skipBlanks with
    | some ('(' :: behind) => some (rest.length - behind.length)
    | _ => none

/-- The word `variants`, a colon and an opening brace. -/
def variantsPattern : Pattern := fun before rest =>
  if wordAt before then none
  else match (after? "variants".toList rest).map skipBlanks with
    | some (':' :: more) =>
      match skipBlanks more with
      | '{' :: behind => some (rest.length - behind.length)
      | _ => none
    | _ => none

/-- An object literal by the positions of its two braces. -/
structure Block where
  opening : Nat
  closing : Nat
  deriving Repr, DecidableEq

/-- The object literal of the variants, given the name of the variant call. -/
def variantBlock? (call text : List Char) : Option Block := do
  let start := (((callPattern call).first? text).map Span.stop).getD 0
  let found ← (variantsPattern.firstBehind? text start).or (variantsPattern.first? text)
  let opening := found.stop - 1
  let closing ← matchingBrace? text opening
  some ⟨opening, closing⟩

end DesignTokens.Source
