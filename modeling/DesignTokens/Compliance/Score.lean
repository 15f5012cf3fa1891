/-!
# The compliance score

The score starts at 100. Each failed category takes away a penalty that grows
with the number of its findings up to a cap; two failed categories or more take
away a little on top; and where spacing has failed but the source does use
spacing tokens, a part is given back. Counts are narrowed to 32-bit words and
the penalties are computed on words that stop at the greatest one.
-/

namespace DesignTokens

/-- What the score depends on. -/
structure ScoreInputs where
  missingVariants : Nat
  spacingIssues : Nat
  colorIssues : Nat
  hasSpacingToken : Bool
  deriving Repr, DecidableEq

namespace Score

/-- The greatest 32-bit word. -/
def maxWord : UInt32 := 0xffffffff

/-- A count as a word, the greatest one if the count does not fit. -/
def narrow (n : Nat) : UInt32 := if n < Nat.pow 2 32 then UInt32.ofNat n else maxWord

/-- The sum of two words, the greatest one if the sum does not fit. -/
def addCapped (a b : UInt32) : UInt32 := narrow (a.toNat + b.toNat)

/-- The product of two words, the greatest one if the product does not fit. -/
def mulCapped (a b : UInt32) : UInt32 := narrow (a.toNat * b.toNat)

/-- How a category turns its findings into a penalty. -/
structure Penalty where
  base : UInt32
  perItem : UInt32
  cap : UInt32

/-- The penalty of a category with the given number of findings. -/
def Penalty.of (p : Penalty) (count : Nat) : UInt32 :=
  if count = 0 then 0
  else min (addCapped p.base (mulCapped p.perItem (narrow count))) p.cap

/-- The penalty for missing variants. -/
def variantPenalty : Penalty := ⟨10, 3, 20⟩

/-- The penalty for wrong spacing. -/
def spacingPenalty : Penalty := ⟨0, 10, 30⟩

/-- The penalty for color findings. -/
def colorPenalty : Penalty := ⟨10, 2, 20⟩

/-- What a second failed category takes away on top. -/
def severalPenalty : Int := 5

/-- What the use of spacing tokens gives back where spacing has failed. -/
def spacingCredit : Int := 5

end Score

/-- The score from 0 to 100. -/
def score (i : ScoreInputs) : Nat :=
  let failed := [i.missingVariants, i.spacingIssues, i.colorIssues].countP fun n => 0 < n
  let left : Int := 100 - (Score.variantPenalty.of i.missingVariants).toNat
    - (Score.spacingPenalty.of i.spacingIssues).toNat - (Score.colorPenalty.of i.colorIssues).toNat
  let left := if 2 ≤ failed then left - Score.severalPenalty else left
  let left := if 0 < i.spacingIssues && i.hasSpacingToken then left + Score.spacingCredit else left
  (min (max left 0) 100).toNat

end DesignTokens
