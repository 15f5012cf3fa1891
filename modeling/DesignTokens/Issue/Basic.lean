import DesignTokens.Property
import DesignTokens.Digest.Sha256

/-!
# Mapping issues

A mapping issue is one fix that a user can select. It says what the spec asks
for, what the source has, what is suggested and what else could be chosen, and
its *target* says what selecting it rewrites; an issue without target is advice
that nothing can carry out.

Every issue has an id made of its kind and a digest of its kind, title and
requirement, so ids do not change when the list is made again. Issues with equal
digests are told apart by their number; the digest is a parameter of `assignIds`,
so ids are distinct whatever it gives.
-/

namespace DesignTokens

/-- The kinds of issues. -/
inductive IssueKind where
  | color
  | spacing
  | variant
  | typography
  deriving Repr, DecidableEq, Inhabited

/-- The name of a kind. -/
def IssueKind.name : IssueKind → String
  | color => "color"
  | spacing => "spacing"
  | variant => "variant"
  | typography => "typography"

/-- Every kind of issue. -/
def IssueKind.all : List IssueKind := [color, spacing, variant, typography]

/-- What selecting an issue rewrites. -/
inductive Target where
  /-- A literal color, everywhere. -/
  | color (literal : String)
  /-- The token of a property. -/
  | utility (property : Property)
  /-- A variant dimension, by the values it lacks. -/
  | variant (dimension : String) (values : List String)
  deriving Repr, DecidableEq

/-- One fix that a user can select. -/
structure Issue where
  id : String := ""
  kind : IssueKind
  title : String
  requirement : String
  current : String
  suggestion : String
  options : List String
  isIssue : Bool
  target : Option Target
  deriving Repr, DecidableEq, Inhabited

namespace Issue

/-- What an issue is about, for telling whether two issues are about the same thing. -/
def subject? (i : Issue) : Option String :=
  i.target.map fun
    | .color literal => String.ofList (literal.toList.map Char.toLower)
    | .utility property => property.name
    | .variant dimension _ => dimension

/-- Whether another issue of the same kind has the same title or is about the same thing. -/
def covers (existing candidate : Issue) : Bool :=
  existing.kind = candidate.kind &&
    (existing.title = candidate.title ||
      match existing.subject?, candidate.subject? with
      | some a, some b => a = b
      | _, _ => false)

/-! ## Ids -/

/-- The digest of an issue: ten hexadecimal digits. -/
def digest (i : Issue) : String :=
  Sha256.hexOfString 5 (i.kind.name ++ "|" ++ i.title ++ "|" ++ i.requirement)

/-- The id of an issue that is the first with its digest. -/
def baseId (digestOf : Issue → String) (i : Issue) : String := i.kind.name ++ "-" ++ digestOf i

/-- The `n`-th id made from a base: the base itself, then the base with the number behind it. -/
def numberedId (base : String) (n : Nat) : String :=
  if n ≤ 1 then base else base ++ "-" ++ toString n

/-- The issues with their ids, where `used` holds the bases of the issues before them. -/
def assignIdsAfter (digestOf : Issue → String) (used : List String) : List Issue → List Issue
  | [] => []
  | i :: is =>
    let base := baseId digestOf i
    { i with id := numberedId base (used.count base + 1) } ::
      assignIdsAfter digestOf (base :: used) is

/-- The issues with their ids. -/
def assignIds (digestOf : Issue → String) (issues : List Issue) : List Issue :=
  assignIdsAfter digestOf [] issues

end Issue

end DesignTokens
