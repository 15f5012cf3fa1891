import DesignTokens.MappingSet
import DesignTokens.Rewrite.Record
import DesignTokens.Token.Scan

/-!
# Replacing spacing tokens

Properties fall into four buckets, and a rewriting puts at most one token into
each: the one of the last mapping of the bucket. It takes the place of the
earliest token that any property of the bucket has in the text.
-/

namespace DesignTokens.Rewrite

open Text

/-- The properties that share one token. -/
inductive Bucket where
  | height
  | padding
  | gap
  | other
  deriving Repr, DecidableEq

namespace Bucket

/-- The name of a bucket. -/
def name : Bucket → String
  | height => "height"
  | padding => "padding"
  | gap => "gap"
  | other => "other"

/-- The bucket of a property. -/
def of : Property → Bucket
  | .height => height
  | .padding | .paddingX | .paddingY => padding
  | .gap => gap
  | _ => other

/-- The properties of a bucket. -/
def members (b : Bucket) : List Property := Property.all.filter fun p => of p = b

theorem mem_members {b : Bucket} {p : Property} : p ∈ b.members ↔ of p = b := by
  simp [members, Property.mem_all]

end Bucket

/-- Puts a mapping in the place of an earlier one of its bucket, or at the end. -/
def putWinner (m : SpacingMapping) : List SpacingMapping → List SpacingMapping
  | [] => [m]
  | w :: ws => if Bucket.of w.property = Bucket.of m.property then m :: ws else w :: putWinner m ws

/-- The last mapping of each bucket, the buckets in the order of their first mappings. -/
def winners (ms : List SpacingMapping) : List SpacingMapping :=
  ms.foldl (fun ws m => putWinner m ws) []

/-- The edit of the last mapping of a bucket. -/
def spacingEdit (m : SpacingMapping) : Edit := fun text => do
  let token := trim m.token.toList
  let bucket := Bucket.of m.property
  if token.isEmpty then none
  else
    let found ← firstOccurrence? bucket.members text
    if found.token = token then none
    else
      let changed := found.replaceIn text token
      let start := found.byteStart text
      some (changed,
        { pass := .spacing
          issueId := some m.issueId
          description := bucket.name ++ ": " ++ String.ofList found.token ++ " -> "
            ++ String.ofList token
          before := snippet text start (found.byteStop text)
          after := snippet changed start (start + byteLength token) })

/-- The edits of the spacing mappings. -/
def spacingEdits (ms : List SpacingMapping) : List Edit := (winners ms).map spacingEdit

end DesignTokens.Rewrite
