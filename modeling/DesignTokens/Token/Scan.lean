import DesignTokens.Token.Basic
import DesignTokens.Text.Position

/-!
# Tokens in a text

Class strings are recognised by the characters around them and not by parsing
the program they stand in. A token starts at the start of the text or behind a
*lead* character (a blank, a quote, a colon, an opening brace or parenthesis, a
comma) and reaches to the next *trail* character or to the end of the text. No
token holds a lead or a trail character, so the tokens of a text never overlap
and each is found by looking at its own word alone.

* `Property.occurrences` lists the tokens of one property,
* `firstOccurrence?` is the earliest one among several properties,
* `Occurrence.replaceIn` puts another token in the place of one,
* `holdsToken` and `holdsSpacingToken` answer whether a text has a token.
-/

namespace DesignTokens

open Text Number

/-- Whether a character may stand directly in front of a token. -/
def isLead (c : Char) : Bool :=
  isBlank c || c = '"' || c = '\'' || c = '\x60' || c = ':' || c = '{' || c = '(' || c = ','

/-- Whether a character may stand directly behind a token. -/
def isTrail (c : Char) : Bool :=
  isBlank c || c = '"' || c = '\'' || c = '\x60' || c = ',' || c = ')' || c = '}'

/-- Whether a token may end here, the text going on with the given characters. -/
def endsHere (rest : List Char) : Bool := rest.head?.all isTrail

/-- The places of a text where a token may start, each as its position and the text from there on.
`atLead` tells whether the first place is one. -/
def startsFrom (atLead : Bool) (pos : Nat) : List Char → List (Nat × List Char)
  | [] => if atLead then [(pos, [])] else []
  | c :: cs =>
    let later := startsFrom (isLead c) (pos + 1) cs
    if atLead then (pos, c :: cs) :: later else later

/-- The places of a text where a token may start. -/
def tokenStarts (text : List Char) : List (Nat × List Char) := startsFrom true 0 text

/-- The characters up to the next place where a token may end. -/
def tokenWord (rest : List Char) : List Char := rest.takeWhile fun c => !isTrail c

/-! ## The tokens of a property -/

namespace Property

/-- Whether a key is one that a scanned token may have: a non-empty key of the scale or one number
in brackets. -/
def isKey (p : Property) (key : List Char) : Bool :=
  (p.scale.any fun e => e.1 ≠ "" && e.1.toList = key)
    || match bracket? key with
       | some (_, _, []) => true
       | _ => false

/-- Whether a word is a token of the property as scanning knows it. -/
def isToken (p : Property) (word : List Char) : Bool :=
  (p = .borderRadius && word = p.utility.toList)
    || match after? (p.utility.toList ++ ['-']) word with
       | some key => p.isKey key
       | none => false

end Property

/-- A token of a property in a text: its place, its text and the pixels it stands for. -/
structure Occurrence where
  property : Property
  start : Nat
  token : List Char
  pixels : Option Nat
  deriving Repr, DecidableEq

namespace Occurrence

/-- The position behind the token. -/
def stop (o : Occurrence) : Nat := o.start + o.token.length

/-- The number of bytes of the text before the token. -/
def byteStart (o : Occurrence) (text : List Char) : Nat := byteOffset text o.start

/-- The number of bytes of the text up to the end of the token. -/
def byteStop (o : Occurrence) (text : List Char) : Nat := o.byteStart text + byteLength o.token

/-- The text with another token in the place of this one. -/
def replaceIn (o : Occurrence) (text token : List Char) : List Char :=
  text.take o.start ++ token ++ text.drop o.stop

end Occurrence

/-- The tokens of a property in a text, in the order of the text. -/
def Property.occurrences (p : Property) (text : List Char) : List Occurrence :=
  (tokenStarts text).filterMap fun (pos, rest) =>
    let word := tokenWord rest
    if p.isToken word then some ⟨p, pos, word, p.pixels? word⟩ else none

/-- The first token of a property in a text. -/
def Property.occurrence? (p : Property) (text : List Char) : Option Occurrence :=
  (p.occurrences text).head?

/-- The earlier of two occurrences, the first one if both start at the same place. -/
def Occurrence.earlier (a b : Occurrence) : Occurrence := if b.start < a.start then b else a

/-- The earliest token among several properties. -/
def firstOccurrence? (properties : List Property) (text : List Char) : Option Occurrence :=
  match properties.filterMap fun p => p.occurrence? text with
  | [] => none
  | o :: os => some (os.foldl .earlier o)

/-- The text with the first token of a property replaced, if the property has one. -/
def Property.replaceFirst? (p : Property) (text token : List Char) : Option (List Char) :=
  (p.occurrence? text).map fun o => o.replaceIn text token

/-! ## Whether a text has a token -/

/-- Whether exactly this token stands in the text. The token may be any string. -/
def holdsToken (text token : List Char) : Bool :=
  (tokenStarts text).any fun (_, rest) =>
    match after? token rest with
    | some behind => endsHere behind
    | none => false

/-- The utility names of spacing classes, longer ones included that no property owns. -/
def spacingUtilities : List String :=
  ["h", "w", "size", "p", "px", "py", "pt", "pr", "pb", "pl", "m", "mx", "my", "mt", "mr", "mb",
   "ml", "gap", "gap-x", "gap-y", "space-x", "space-y"]

/-- Whether a value has the shape of a spacing value: a decimal, `px`, or a length in brackets. -/
def isSpacingValue (value : List Char) : Bool :=
  value = ['p', 'x']
    || (match Decimal.read? value with
        | some (_, []) => true
        | _ => false)
    || match bracket? value with
       | some (_, .px, []) => true
       | some (_, .rem, []) => true
       | _ => false

/-- Whether a word has the shape of a spacing token, with or without a minus sign in front. -/
def isSpacingShape (word : List Char) : Bool :=
  let bare := (after? ['-'] word).getD word
  spacingUtilities.any fun u =>
    match after? (u.toList ++ ['-']) bare with
    | some value => isSpacingValue value
    | none => false

/-- Whether anything shaped like a spacing token stands in the text. -/
def holdsSpacingToken (text : List Char) : Bool :=
  (tokenStarts text).any fun (_, rest) => isSpacingShape (tokenWord rest)

end DesignTokens
