import DesignTokens.Text.Basic

/-!
# Paths

A path is a text with names between slashes. Empty names and single dots say
nothing and are passed over; two dots go up. How a path is written is kept
wherever it is shown, and so the functions on written paths work on the text.
-/

namespace DesignTokens.Files

open Text

/-- What a written path says. -/
structure Path where
  absolute : Bool
  /-- The names to follow, with `..` for going up. -/
  names : List String
  /-- Whether the end of the path says that it leads to a directory. -/
  toDirectory : Bool
  /-- Whether the path ends with a single dot, slashes behind it apart. -/
  endsWithDot : Bool
  deriving Repr, DecidableEq

/-- The parts of a written path between its slashes. -/
def parts (path : String) : List String := (pieces (· = '/') path.toList).map String.ofList

/-- Whether a part of a path says nothing. -/
def isVoid (part : String) : Bool := part = "" || part = "."

/-- Reads a written path. -/
def Path.ofString (path : String) : Path where
  absolute := path.toList.head? = some '/'
  names := (parts path).filter fun p => !isVoid p
  toDirectory := ((parts path).getLast?.map isVoid).getD true
  endsWithDot := ((parts path).filter fun p => p ≠ "").getLast? = some "."

/-- How many bytes the name of an entry may take. -/
def maxNameBytes : Nat := 255

/-- How many bytes a written path may take. -/
def maxPathBytes : Nat := 4095

/-- Whether an entry can have this name. -/
def isName (name : String) : Bool := name.utf8ByteSize ≤ maxNameBytes

/-- Whether a written path can lead anywhere. -/
def isPath (path : String) : Bool :=
  path ≠ "" && path.utf8ByteSize ≤ maxPathBytes && !path.toList.contains '\x00'

/-! ## Written paths -/

/-- The last part of a written path. -/
def fileName (path : String) : String := (parts path).getLast?.getD ""

/-- The name of a file up to its last dot; a dot at the start does not count. -/
def stem (name : String) : String :=
  match (name.toList.reverse.dropWhile (· ≠ '.')).drop 1 with
  | [] => name
  | before => String.ofList before.reverse

/-- The parts without those at the end that say nothing, the first one apart. -/
def dropVoidEnd : List String → List String
  | [] => []
  | p :: ps => p :: (ps.reverse.dropWhile isVoid).reverse

/-- The path in front of the last name of a written path. -/
def inFront (path : String) : String :=
  "/".intercalate (dropVoidEnd ((parts path).reverse.dropWhile isVoid).tail.reverse)

/-- The path of the entry of another name beside a file. -/
def beside (path name : String) : String :=
  "/".intercalate (dropVoidEnd (parts path).dropLast ++ [name])

/-- The path of an entry inside a directory. -/
def inside (directory name : String) : String :=
  if directory.toList.getLast? = some '/' then directory ++ name else directory ++ "/" ++ name

end DesignTokens.Files
