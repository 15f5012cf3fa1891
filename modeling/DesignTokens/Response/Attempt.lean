/-!
# Attempts at reading a response

A response is searched for its object in three ways, one after the other. Each
one that leads to nothing is named in the failure, with a remark if it did find
an object but no source.
-/

namespace DesignTokens.Response

/-- The ways in which the object of a response is looked for. -/
inductive Strategy where
  | fencedJson
  | bareObject
  | cleaned
  deriving Repr, DecidableEq

/-- The ways in the order in which they are tried. -/
def Strategy.all : List Strategy := [fencedJson, bareObject, cleaned]

/-- The name of a way. -/
def Strategy.name : Strategy → String
  | fencedJson => "fenced-json"
  | bareObject => "bare-object"
  | cleaned => "cleaned"

/-- An attempt that has led to nothing. -/
structure Attempt where
  strategy : Strategy
  foundObject : Bool
  deriving Repr, DecidableEq

/-- The words for an attempt in a message. -/
def Attempt.words (a : Attempt) : String :=
  if a.foundObject then a.strategy.name ++ " (no component source)" else a.strategy.name

end DesignTokens.Response
