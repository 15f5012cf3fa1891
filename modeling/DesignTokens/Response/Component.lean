import DesignTokens.Failure
import DesignTokens.Json.Parser
import DesignTokens.Record.Read
import DesignTokens.Response.Fence
import DesignTokens.Response.Repair

/-!
# Components out of responses

A generative service is asked for an object with a spec and a source, and
answers with more or less text around it. The object is looked for in three
ways, and the first one that leads to a spec and a source wins. The spec is
the member `spec`, or the object itself; the source is a member of the object,
or else a fenced block of the response.
-/

namespace DesignTokens

open Json Text

/-- What a generative service hands over. -/
structure Component where
  spec : Spec
  source : String
  deriving Repr, DecidableEq

namespace Response

/-- The object that a text is, white space around it apart. -/
def object? (text : List Char) : Option Value := do
  match ← parseValue? (String.ofList (trim text)) with
  | .object members => some (.object members)
  | _ => none

/-- The body of the first block of JSON. -/
def jsonBlock? (response : List Char) : Option (List Char) := fencedBody? ["json"] response

/-- The texts that a way takes for the object, the likeliest first. -/
def Strategy.candidates (response : List Char) : Strategy → List (List Char)
  | fencedJson => (jsonBlock? response).toList
  | bareObject => (balancedObject? response).toList
  | cleaned =>
    ([jsonBlock? response, balancedObject? response, outermostBraces? response].filterMap id).map
      repaired

/-- The object that a way finds in a response. -/
def Strategy.object? (response : List Char) (s : Strategy) : Option Value :=
  (s.candidates response).findSome? Response.object?

/-- The members that may hold the source, the likeliest first. -/
def sourceMembers : List String := ["code", "componentCode", "source"]

/-- The languages of a block that may hold the source. -/
def sourceLanguages : List String := ["tsx", "jsx", "typescript", "ts", "javascript", "js"]

/-- The value of a member that is a string. -/
def stringMember? (object : Value) (name : String) : Option String :=
  match object.member? name with
  | some (.string s) => some s
  | _ => none

/-- The part of an object that says the spec. -/
def specPart (object : Value) : Value :=
  match object.member? "spec" with
  | some (.object members) => .object members
  | _ => object

/-- The source that goes with an object of a response. -/
def source? (object : Value) (response : List Char) : Option String :=
  (sourceMembers.findSome? (stringMember? object)).or
    ((fencedBody? sourceLanguages response).map String.ofList)

/-- The component that an object of a response describes. A source with nothing but white space is
none. -/
def component? (object : Value) (response : List Char) : Option Component := do
  let spec ← Spec.read (document (specPart object))
  let source ← source? object response
  if isBlankText source then none
  else some ⟨spec, String.ofList (unifyLineEnds source.toList)⟩

/-- What a way finds in a response: a component, or a failed attempt. -/
def Strategy.attempt (response : List Char) (s : Strategy) : Except Attempt Component :=
  match s.object? response with
  | none => .error ⟨s, false⟩
  | some found =>
    match component? found response with
    | none => .error ⟨s, true⟩
    | some c => .ok c

/-- The component that the first successful way finds, or the attempts that have failed. -/
def firstComponent (response : List Char) : List Strategy → Except (List Attempt) Component
  | [] => .error []
  | s :: ss =>
    match s.attempt response with
    | .ok c => .ok c
    | .error a => (firstComponent response ss).mapError (a :: ·)

end Response

/-- Reads the answer of a generative service. -/
def Component.ofResponse (response : String) : Outcome Component :=
  (Response.firstComponent response.toList Response.Strategy.all).mapError .unreadableResponse

end DesignTokens
