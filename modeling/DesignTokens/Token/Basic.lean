import DesignTokens.Property
import DesignTokens.Number.Binary64

/-!
# Utility tokens

A utility token names a property and a value: `h-10` is a height of 40 pixels.
The value is a key of the property's scale or a number in brackets, as in
`h-[42px]`; the bare utility name stands for the empty key.

* `Property.token` writes any number of pixels, by the scale where it can;
* `Property.pixels?` reads a token of a given property, past modifiers such as
  `hover:` in front of it;
* `classify?` reads a token of any property;
* `Property.tokenOptions` offers a value and its neighbours on the scale.
-/

namespace DesignTokens

open Text Number

/-- The greatest number of pixels that a token can stand for. -/
def maxPixels : Nat := 4294967295

namespace Property

/-! ## Writing -/

/-- The token of a scale key; the empty key gives the bare utility name. -/
def keyToken (p : Property) (key : String) : String :=
  if key = "" then p.utility else p.utility ++ "-" ++ key

/-- The token with the value in brackets. -/
def bracketToken (p : Property) (pixels : Nat) : String :=
  p.utility ++ "-[" ++ toString pixels ++ p.unit ++ "]"

/-- The token of the scale entry with exactly this value, if there is one. -/
def scaleToken? (p : Property) (pixels : Nat) : Option String :=
  (p.scale.find? fun e => e.2 = pixels).map fun e => p.keyToken e.1

/-- The token for a number of pixels: the scale's own where it has one, brackets otherwise. -/
def token (p : Property) (pixels : Nat) : String :=
  (p.scaleToken? pixels).getD (p.bracketToken pixels)

end Property

/-! ## Reading -/

/-- The unit that a bracketed number may carry. -/
inductive LengthUnit where
  | none
  | px
  | rem
  deriving Repr, DecidableEq

/-- A bracketed number at the start of a text: `[40]`, `[40px]` or `[2.5rem]`. -/
def bracket? : List Char → Option (Decimal × LengthUnit × List Char)
  | '[' :: cs =>
    match Decimal.read? cs with
    | some (d, 'p' :: 'x' :: ']' :: rest) => some (d, .px, rest)
    | some (d, 'r' :: 'e' :: 'm' :: ']' :: rest) => some (d, .rem, rest)
    | some (d, ']' :: rest) => some (d, .none, rest)
    | _ => Option.none
  | _ => Option.none

/-- The first bracketed number of a text, wherever it starts. -/
def firstBracket? : List Char → Option (Decimal × LengthUnit)
  | [] => none
  | c :: cs =>
    match bracket? (c :: cs) with
    | some (d, u, _) => some (d, u)
    | none => firstBracket? cs

/-- A length in pixels, a rem being sixteen of them. Only whole numbers count. -/
def wholePixels? (d : Decimal) (u : LengthUnit) : Option Nat := do
  let x ← d.toBinary64?
  let scaled ← match u with
    | .rem => x.timesSixteen?
    | _ => some x
  scaled.toNat?

/-- The pixels of the first bracketed number in a key, if they are whole and not too many. -/
def bracketPixels? (key : List Char) : Option Nat := do
  let (d, u) ← firstBracket? key
  let n ← wholePixels? d u
  if n ≤ maxPixels then some n else none

/-- The text behind its last colon; the whole text if it has none. -/
def afterLastColon (cs : List Char) : List Char := (cs.reverse.takeWhile (· ≠ ':')).reverse

/-- The token without the modifiers in front of it: everything up to the last colon that comes
before any bracket is dropped. -/
def stripModifiers (token : List Char) : List Char :=
  afterLastColon (token.takeWhile (· ≠ '[')) ++ token.dropWhile (· ≠ '[')

namespace Property

/-- The key of a bare token, if the token belongs to this property's utility name. -/
def key? (p : Property) (token : List Char) : Option (List Char) :=
  if token = p.utility.toList then some []
  else after? (p.utility.toList ++ ['-']) token

/-- The value of a scale key. -/
def keyPixels? (p : Property) (key : List Char) : Option Nat :=
  (p.scale.find? fun e => e.1.toList = key).map (·.2)

/-- The pixels of a token without modifiers. -/
def barePixels? (p : Property) (token : List Char) : Option Nat := do
  let key ← p.key? token
  if key.head? = some '[' then bracketPixels? key else p.keyPixels? key

/-- The pixels that a token of this property stands for. -/
def pixels? (p : Property) (token : List Char) : Option Nat :=
  p.barePixels? (stripModifiers (trim token))

end Property

/-- The property and the pixels of a token; the first property that can read it has it. -/
def classify? (token : List Char) : Option (Property × Nat) :=
  Property.all.findSome? fun p => (p.pixels? token).map fun n => (p, n)

/-! ## Offering -/

namespace Property

/-- The entry with the greatest value below the given one; of equal values the last entry. -/
def below? (p : Property) (pixels : Nat) : Option (String × Nat) :=
  p.scale.foldl (fun best e =>
    if pixels ≤ e.2 then best
    else match best with
      | some b => if e.2 < b.2 then best else some e
      | none => some e) none

/-- The entry with the least value above the given one; of equal values the first entry. -/
def above? (p : Property) (pixels : Nat) : Option (String × Nat) :=
  p.scale.foldl (fun best e =>
    if e.2 ≤ pixels then best
    else match best with
      | some b => if e.2 < b.2 then some e else best
      | none => some e) none

/-- The tokens offered for a value: the scale's own, its neighbours below and above on the scale,
and the bracketed one last. -/
def tokenOptions (p : Property) (pixels : Nat) : List String :=
  (p.scaleToken? pixels).toList
    ++ ((p.below? pixels).map fun e => p.keyToken e.1).toList
    ++ ((p.above? pixels).map fun e => p.keyToken e.1).toList
    ++ [p.bracketToken pixels]

/-! ## The expression for a property's values -/

/-- A key with its points escaped, as an expression that matches just the key. -/
def escapedKey (key : String) : String :=
  String.ofList (key.toList.flatMap fun c => if c = '.' then ['\\', '.'] else [c])

/-- The expression for every value that may follow the utility name: the keys, longest first, and
the bracketed numbers. -/
def valueExpression (p : Property) : String :=
  let keys := (p.scale.map (·.1)).filter fun k => k ≠ ""
  let longestFirst := keys.mergeSort fun a b => b.length ≤ a.length
  "|".intercalate (longestFirst.map escapedKey ++ ["\\[\\d+(?:\\.\\d+)?(?:px|rem)?\\]"])

end Property

end DesignTokens
