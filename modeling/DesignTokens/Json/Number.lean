import DesignTokens.Number.Binary64

/-!
# Numbers of a JSON text

A number is kept as it is written. Where it is settled as a value it must be in
range, and the range is that of a binary64 value found in two roundings: the
leading digits, as many as fit in a 64-bit word, are rounded, the power of ten
that is left is rounded, and the product of the two must not be too large. The
digits behind the leading ones count for their places alone. So near the
greatest binary64 value a number can be out of range although it is smaller than
one that is in range.
-/

namespace DesignTokens

/-- The greatest number of a 64-bit word. -/
def maxLongWord : Nat := 18446744073709551615

/-- A number as it is written. The grammar has no leading zeros, so the digits before the point are
kept as a number; the fraction keeps its digits and is empty when there is no point. -/
structure JsonNumber where
  negative : Bool
  whole : Nat
  fraction : List Char
  exponent : Option Int
  deriving Repr, DecidableEq

namespace JsonNumber

/-- A natural number, written without point or exponent. -/
def ofNat (n : Nat) : JsonNumber := ⟨false, n, [], none⟩

/-- An integer, written without point or exponent. -/
def ofInt (n : Int) : JsonNumber := ⟨n < 0, n.natAbs, [], none⟩

/-- The natural number that is written here without sign, point or exponent. -/
def toNat? (n : JsonNumber) : Option Nat :=
  if n.negative || !n.fraction.isEmpty || n.exponent.isSome then none else some n.whole

/-! ## Range -/

/-- The value of the leading digits, read on from `value` as long as they fit in a 64-bit word, and
the number of digits behind them. -/
def leadingFrom (value : Nat) : List Char → Nat × Nat
  | [] => (value, 0)
  | d :: ds =>
    let next := 10 * value + (d.toNat - '0'.toNat)
    if next ≤ maxLongWord then leadingFrom next ds else (value, ds.length + 1)

/-- The value of the leading digits of a number, those behind its point included, and the number of
digits behind them. -/
def leading (n : JsonNumber) : Nat × Nat := leadingFrom 0 (Nat.toDigits 10 n.whole ++ n.fraction)

/-- The power of ten that the leading digits are to be multiplied by. -/
def leadingPower (n : JsonNumber) : Int := n.exponent.getD 0 + n.leading.2 - n.fraction.length

/-- The greatest power of ten that is a binary64 value. -/
def maxPower : Nat := 308

/-- Whether the product of two natural numbers, each of them rounded, is in range. -/
def productInRange (a b : Nat) : Bool :=
  match Number.Binary64.ofNat? a, Number.Binary64.ofNat? b with
  | some x, some y => (x.product? y).isSome
  | _, _ => false

/-- Whether the number is in range. Powers below one only make it smaller, and zero stays zero. -/
def inRange (n : JsonNumber) : Bool :=
  let power := n.leadingPower
  if n.leading.1 = 0 || power ≤ 0 then true
  else power ≤ maxPower && productInRange n.leading.1 (Nat.pow 10 power.toNat)

theorem toNat?_ofNat (n : Nat) : (ofNat n).toNat? = some n := rfl

end JsonNumber

end DesignTokens
