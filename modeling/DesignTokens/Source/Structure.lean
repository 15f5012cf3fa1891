import DesignTokens.Source.Block

/-!
# The structure check

A quick look at whether a source is still whole: braces and parentheses in code
are as many opening as closing, the variant call is there, and something is
exported. The check prevents nothing; what to do with its errors is for others
to decide.
-/

namespace DesignTokens.Source

open Text

/-- What the structure check finds. -/
structure StructureCheck where
  valid : Bool
  errors : List String
  deriving Repr, DecidableEq, Inhabited

/-- The error of brackets that are not as many opening as closing. -/
def balanceError? (what : String) (opening closing : Nat) : Option String :=
  if opening = closing then none
  else some ("unbalanced " ++ what ++ ": " ++ toString opening ++ " opening, "
    ++ toString closing ++ " closing")

/-- What the structure check finds in a text, given the name of the variant call. -/
def checkStructure (call text : List Char) : StructureCheck :=
  let code := codeChars text
  let errors :=
    (balanceError? "braces" (code.count '{') (code.count '}')).toList
      ++ (balanceError? "parentheses" (code.count '(') (code.count ')')).toList
      ++ (if (callPattern call).occurs text then []
          else ["missing `" ++ String.ofList call ++ "(` variant definition call"])
      ++ (if holdsName "export".toList text then [] else ["missing export statement"])
  ⟨errors.isEmpty, errors⟩

end DesignTokens.Source
