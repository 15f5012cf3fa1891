/-!
# Binary floating point, as far as lengths need it

A length in a text is a decimal; it is measured with the precision of IEEE 754
binary64. A finite non-negative value of that format is `mantissa * 2 ^ exponent`
with a mantissa below `2 ^ 53` and an exponent of at least `-1074`; here it is
held as exactly that, so rounding is a statement about natural numbers.

`Binary64.ofRatio?` rounds a quotient to the nearest such value, a tie going to
the even mantissa, and answers `none` when the quotient is too large for the
format. `Binary64.toNat?` reads the value back when it is a whole number.
-/

namespace DesignTokens.Number

/-- A finite non-negative binary64 value `mantissa * 2 ^ exponent`. -/
structure Binary64 where
  mantissa : Nat
  exponent : Int
  deriving Repr, DecidableEq

/-- The quotient `num / den` rounded to the nearest whole number, a tie going to the even one. -/
def roundHalfEven (num den : Nat) : Nat :=
  let q := num / den
  let r := num % den
  if 2 * r < den then q
  else if den < 2 * r then q + 1
  else if q % 2 = 0 then q else q + 1

namespace Binary64

/-- The least exponent of the format. -/
def minExponent : Int := -1074

/-- The greatest exponent of the format. -/
def maxExponent : Int := 971

/-- The power of two by which a positive quotient is divided so that 53 binary digits stand before
the point, or the least exponent of the format if that is greater. -/
def exponentOf (num den : Nat) : Int :=
  let a := num.log2
  let b := den.log2
  let below : Bool := if b ≤ a then num < den * Nat.pow 2 (a - b) else num * Nat.pow 2 (b - a) < den
  let e : Int := (a : Int) - b - (if below then 53 else 52)
  max e minExponent

/-- The value nearest to `num / den`, or `none` if it is too large for the format. -/
def ofRatio? (num den : Nat) : Option Binary64 :=
  if num = 0 then some ⟨0, 0⟩
  else
    let e := exponentOf num den
    let m :=
      if 0 ≤ e then roundHalfEven num (den * Nat.pow 2 e.toNat)
      else roundHalfEven (num * Nat.pow 2 (-e).toNat) den
    if maxExponent < e ∨ (e = maxExponent ∧ m = Nat.pow 2 53) then none else some ⟨m, e⟩

/-- The value nearest to a natural number, or `none` if it is too large. -/
def ofNat? (n : Nat) : Option Binary64 := ofRatio? n 1

/-- The value nearest to the product of two values, or `none` if it is too large. -/
def product? (x y : Binary64) : Option Binary64 :=
  let e := x.exponent + y.exponent
  ofRatio? (x.mantissa * y.mantissa * Nat.pow 2 e.toNat) (Nat.pow 2 (-e).toNat)

/-- The value times sixteen, or `none` if that is too large for the format. -/
def timesSixteen? (x : Binary64) : Option Binary64 :=
  if Nat.pow 2 1024 ≤ x.mantissa * Nat.pow 2 (x.exponent + 4).toNat then none
  else some ⟨x.mantissa, x.exponent + 4⟩

/-- The value as a natural number, if it is a whole number. -/
def toNat? (x : Binary64) : Option Nat :=
  if 0 ≤ x.exponent then some (x.mantissa * Nat.pow 2 x.exponent.toNat)
  else
    let scale := Nat.pow 2 (-x.exponent).toNat
    if x.mantissa % scale = 0 then some (x.mantissa / scale) else none

end Binary64

/-- The number that a row of decimal digits stands for. -/
def digitsValue (digits : List Char) : Nat :=
  digits.foldl (fun n c => 10 * n + (c.toNat - '0'.toNat)) 0

/-- A decimal without sign or exponent: the digits before and after its point. -/
structure Decimal where
  whole : List Char
  fraction : List Char
  deriving Repr, DecidableEq

namespace Decimal

/-- The binary64 value nearest to the decimal, or `none` if it is too large. -/
def toBinary64? (d : Decimal) : Option Binary64 :=
  Binary64.ofRatio? (digitsValue (d.whole ++ d.fraction)) (Nat.pow 10 d.fraction.length)

/-- Reads `digits` or `digits.digits` at the start of a text. -/
def read? (cs : List Char) : Option (Decimal × List Char) :=
  let whole := cs.takeWhile Char.isDigit
  let rest := cs.dropWhile Char.isDigit
  if whole.isEmpty then none
  else
    match rest with
    | '.' :: more =>
      let fraction := more.takeWhile Char.isDigit
      if fraction.isEmpty then some (⟨whole, []⟩, rest)
      else some (⟨whole, fraction⟩, more.dropWhile Char.isDigit)
    | _ => some (⟨whole, []⟩, rest)

end Decimal

end DesignTokens.Number
