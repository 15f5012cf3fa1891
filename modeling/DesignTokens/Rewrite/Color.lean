import DesignTokens.MappingSet
import DesignTokens.Rewrite.Record
import DesignTokens.Text.Pattern

/-!
# Replacing literal colors

Every occurrence of a literal color, without regard to ASCII case, becomes the
theme token chosen for it. A utility with the color in brackets keeps its own
name and takes the slot of the token: with `bg-primary` chosen,
`text-[#3b82f6]` becomes `text-primary`. A token without a slot fills the
brackets instead.
-/

namespace DesignTokens.Rewrite

open Text

/-- The utilities that take a color. -/
def colorUtilities : List String :=
  ["bg", "text", "border", "ring", "outline", "fill", "stroke", "decoration", "accent", "caret",
   "divide", "placeholder", "shadow", "from", "via", "to"]

/-- The slot that a color token names: what follows the name of its utility. -/
def themeSlot? (token : List Char) : Option (List Char) := do
  let (utility, slot) ← cut? '-' token
  if colorUtilities.contains (String.ofList utility) && !slot.isEmpty && slot.head? ≠ some '['
  then some slot
  else none

/-- A literal without regard to ASCII case; one that ends in a letter or digit ends as a word. -/
def literalPattern (literal : List Char) : Pattern := fun _ rest =>
  match afterFolded? literal rest with
  | none => none
  | some behind =>
    if literal.getLast?.any Char.isAlphanum && wordAt behind.head? then none
    else some literal.length

/-- Whether a character may go on in the name of a utility. -/
def isUtilityChar (c : Char) : Bool := isWord c || c = '-'

/-- The name of a utility with the dash behind it, if an opening bracket follows. -/
def utilityName? : Pattern := fun before rest =>
  let name := rest.takeWhile isUtilityChar
  if !wordAt before && (rest.head?.any Char.isAlpha) && 2 ≤ name.length
    && name.getLast? = some '-' && (rest.drop name.length).head? = some '['
  then some name.length
  else none

/-- A utility with the literal in brackets. -/
def bracketedPattern (literal : List Char) : Pattern := fun before rest => do
  let n ← utilityName? before rest
  let behind ← afterFolded? literal (rest.drop (n + 1))
  if behind.head? = some ']' then some (n + 1 + literal.length + 1) else none

/-- A utility with the slot in the place of its brackets. -/
def withSlot (slot found : List Char) : List Char := found.takeWhile isUtilityChar ++ slot

/-- The first place where a mapping applies. -/
def firstColor? (literal : List Char) (slot : Option (List Char)) (text : List Char) :
    Option Span :=
  (slot.bind fun _ => (bracketedPattern literal).first? text).or
    ((literalPattern literal).first? text)

/-- The text with the bracketed literals rewritten, and their number. -/
def replaceBracketed (literal : List Char) (slot : Option (List Char)) (text : List Char) :
    List Char × Nat :=
  match slot with
  | none => (text, 0)
  | some s =>
    ((bracketedPattern literal).replace (withSlot s) text,
      ((bracketedPattern literal).spans text).length)

/-- The edit of one color mapping. -/
def colorEdit (m : ColorMapping) : Edit := fun text => do
  let literal := trim m.literal.toList
  let replacement := trim m.replacement.toList
  if literal.isEmpty || replacement.isEmpty then none
  else
    let slot := themeSlot? replacement
    let first ← firstColor? literal slot text
    let (bracketless, inBrackets) := replaceBracketed literal slot text
    let bare := (literalPattern literal).spans bracketless
    let changed := rewriteSpans (fun _ => replacement) 0 bare bracketless
    let start := byteOffset text first.start
    some (changed,
      { pass := .colors
        issueId := some m.issueId
        description := "replaced " ++ toString (inBrackets + bare.length) ++ " occurrence(s) of "
          ++ String.ofList literal ++ " with " ++ String.ofList replacement
        before := snippet text start (byteOffset text first.stop)
        after := snippet changed start (start + byteLength replacement) })

/-- The edits of the color mappings. -/
def colorEdits (ms : List ColorMapping) : List Edit := ms.map colorEdit

end DesignTokens.Rewrite
