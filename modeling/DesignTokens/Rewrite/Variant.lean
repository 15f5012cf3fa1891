import DesignTokens.MappingSet
import DesignTokens.Policy
import DesignTokens.Rewrite.Record
import DesignTokens.Source.Block

/-!
# Adding variant values

A mapping names a dimension and the values that it is to have. Values that are
missing are added to the dimension's object in the variant block, each with an
empty class string; a dimension that is missing is added with all its values.
Only keys without quotes count as being there.

A mapping changes a text by one insertion: a row of characters put in behind the
last entry of an object, in the layout that the object already has.
-/

namespace DesignTokens.Rewrite

open Text Source

/-! ## Layout -/

/-- The characters of a line up to a position. -/
def lineBefore (text : List Char) (pos : Nat) : List Char := lastLine (text.take pos)

/-- Whether a character indents. -/
def isIndent (c : Char) : Bool := c = ' ' || c = '\t'

/-- The indentation of the line that a position is on. -/
def lineIndent (text : List Char) (pos : Nat) : List Char :=
  (text.drop (pos - (lineBefore text pos).length)).takeWhile isIndent

/-- The indentation in front of a position, if nothing else is in front of it on its line. -/
def ownIndent? (text : List Char) (pos : Nat) : Option (List Char) :=
  if (lineBefore text pos).all isIndent then some (lineBefore text pos) else none

/-- The indentation of the entries of an object: that of its first entry if that stands on a line
of its own, and one step more than the given one otherwise. -/
def entryIndent (text : List Char) (es : List Entry) (outer : List Char) : List Char :=
  (es.head?.bind fun e => ownIndent? text e.keyStart).getD (outer ++ [' ', ' '])

/-- A key as it is written: an identifier as it stands, anything else in quotes. -/
def writtenKey (key : String) : List Char :=
  if isIdentifier key then key.toList
  else '"' :: key.toList.flatMap (fun c => if c = '"' then ['\\', '"'] else [c]) ++ ['"']

/-- A value with an empty class string, on a line of its own. -/
def valueLine (indent : List Char) (value : String) : List Char :=
  '\n' :: indent ++ writtenKey value ++ ": \"\",".toList

/-- A dimension with its values, on lines of their own. -/
def dimensionLines (indent : List Char) (dimension : String) (values : List String) : List Char :=
  '\n' :: indent ++ writtenKey dimension ++ ": \x7b".toList
    ++ values.flatMap (valueLine (indent ++ [' ', ' ']))
    ++ '\n' :: indent ++ "\x7d,".toList

/-! ## Insertions -/

/-- What is put into a text. -/
structure Insertion where
  /-- The number of characters before the inserted ones. -/
  position : Nat
  segment : List Char
  /-- The position of the brace that closes the extended object. -/
  closing : Nat
  /-- The values that are added. -/
  added : List String
  deriving Repr, DecidableEq

/-- The text with the insertion. -/
def Insertion.apply (i : Insertion) (text : List Char) : List Char :=
  text.take i.position ++ i.segment ++ text.drop i.position

/-- The insertion of lines behind the last entry of an object. A comma is put in front where the
last entry has none, and a line end behind where the closing brace would not be on a line of its
own. -/
def insertBeforeClosing (text : List Char) (opening closing : Nat) (lines closingIndent : List Char)
    (added : List String) : Insertion :=
  let inside := between text opening closing
  let kept := trimEnd inside
  let comma := match kept.getLast? with
    | some c => if c = ',' || c = '\x7b' then [] else [',']
    | none => []
  let lineEnd := if (inside.drop kept.length).contains '\n' then [] else '\n' :: closingIndent
  ⟨opening + 1 + kept.length, comma ++ lines ++ lineEnd, closing, added⟩

/-- The values to add, trimmed, without blank ones and each once. -/
def wantedValues (m : VariantMapping) : List String :=
  (m.values.map trimmed).foldl
    (fun done v => if v = "" || done.contains v then done else done ++ [v]) []

/-- The insertion into the object of a dimension that is there. -/
def valuesInsertion? (text : List Char) (entry : Entry) (values : List String) :
    Option Insertion := do
  if text[entry.valueStart]? ≠ some '\x7b' then none
  else
    let closing ← matchingBrace? text entry.valueStart
    let existing := entries text entry.valueStart closing
    let missing := values.filter fun v => !existing.any fun e => !e.quoted && e.key = v.toList
    if missing.isEmpty then none
    else
      let indent := lineIndent text entry.keyStart
      let lines := missing.flatMap (valueLine (entryIndent text existing indent))
      some (insertBeforeClosing text entry.valueStart closing lines indent missing)

/-- The insertion of a dimension that is not there. -/
def dimensionInsertion (text : List Char) (block : Block) (es : List Entry) (dimension : String)
    (values : List String) : Insertion :=
  let indent := lineIndent text block.opening
  let lines := dimensionLines (entryIndent text es indent) dimension values
  insertBeforeClosing text block.opening block.closing lines indent values

/-- The insertion that a mapping asks for, given the name of the variant call. -/
def insertion? (call : List Char) (m : VariantMapping) (text : List Char) : Option Insertion := do
  let dimension := trimmed m.dimension
  let values := wantedValues m
  if dimension = "" || values.isEmpty then none
  else
    let block ← variantBlock? call text
    let es := entries text block.opening block.closing
    match es.find? fun e => !e.quoted && e.key = dimension.toList with
    | some entry => valuesInsertion? text entry values
    | none => some (dimensionInsertion text block es dimension values)

/-- The edit of one variant mapping. -/
def variantEdit (call : List Char) (m : VariantMapping) : Edit := fun text => do
  let i ← insertion? call m text
  let changed := i.apply text
  let closing := byteOffset text i.closing
  let start := byteOffset text i.position
  some (changed,
    { pass := .variants
      issueId := some m.issueId
      description := "added `" ++ trimmed m.dimension ++ "` values: " ++ commaList i.added
      before := snippet text closing (closing + 1)
      after := snippet changed start (start + byteLength i.segment) })

/-- The edits of the variant mappings. -/
def variantEdits (call : List Char) (ms : List VariantMapping) : List Edit :=
  ms.map (variantEdit call)

end DesignTokens.Rewrite
