import DesignTokens.Json.Number

/-!
# JSON documents and values

A JSON *document* is what a text says: members in their order with every
repetition, numbers digit by digit, and strings that may fail to be Unicode
because an escape names half of a surrogate pair. A JSON *value* is what a
document means once it is settled: every string is a string, every number is in
range, and of repeated members the last one counts. Both are the same tree over
a different kind of string, `Option String` for documents and `String` for values.

`Json.value?` settles a document. Readers of records work on documents, because
a record may refuse what a value would forgive.
-/

namespace DesignTokens

/-- A JSON tree over a type of strings. -/
inductive Json (σ : Type) where
  | null
  | bool (b : Bool)
  | number (n : JsonNumber)
  | string (s : σ)
  | array (items : List (Json σ))
  | object (members : List (σ × Json σ))
  deriving Inhabited

namespace Json

/-- What a text says: a string is missing where it is not Unicode. -/
abbrev Document := Json (Option String)

/-- What a document means once it is settled. -/
abbrev Value := Json String

/-- A natural number as a value. -/
def nat {σ : Type} (n : Nat) : Json σ := .number (.ofNat n)

/-- A list of strings as a value. -/
def strings (items : List String) : Value := .array (items.map .string)

/-- A string, or null where there is none. -/
def optionalString (s : Option String) : Value :=
  match s with
  | some s => .string s
  | none => .null

/-- A number, or null where there is none. -/
def optionalNat (n : Option Nat) : Value :=
  match n with
  | some n => .nat n
  | none => .null

/-- Puts a member at the end, or in the place of an earlier one of the same name. -/
def putMember {α : Type} (name : String) (v : α) : List (String × α) → List (String × α)
  | [] => [(name, v)]
  | (n, w) :: rest => if n = name then (n, v) :: rest else (n, w) :: putMember name v rest

/-- The members with repetitions settled: the last one counts, at the place of the first. -/
def lastWins {α : Type} (members : List (String × α)) : List (String × α) :=
  members.foldl (fun done (name, v) => putMember name v done) []

/-- The member of an object with the given name. -/
def member? {σ : Type} [DecidableEq σ] (name : σ) : Json σ → Option (Json σ)
  | .object members => (members.find? fun m => m.1 = name).map (·.2)
  | _ => none

mutual

/-- The value that a document means: at most `depth` lists and objects inside each other, every
number in range and every string Unicode. -/
def value? (depth : Nat) : Document → Option Value
  | .null => some .null
  | .bool b => some (.bool b)
  | .number n => if n.inRange then some (.number n) else none
  | .string s => s.map .string
  | .array items =>
    match depth with
    | 0 => none
    | depth + 1 => (itemValues? depth items).map .array
  | .object members =>
    match depth with
    | 0 => none
    | depth + 1 => (memberValues? depth members).map fun ms => .object (lastWins ms)

/-- The values of a list of documents. -/
def itemValues? (depth : Nat) : List Document → Option (List Value)
  | [] => some []
  | d :: ds => do
    let v ← value? depth d
    let vs ← itemValues? depth ds
    some (v :: vs)

/-- The values of a list of members. -/
def memberValues? (depth : Nat) : List (Option String × Document) → Option (List (String × Value))
  | [] => some []
  | (name, d) :: ds => do
    let n ← name
    let v ← value? depth d
    let vs ← memberValues? depth ds
    some ((n, v) :: vs)

end

/-- How many lists and objects a document may have inside each other when it is settled. -/
def maxDepth : Nat := 127

mutual

/-- A value as the document that says it. -/
def document : Value → Document
  | .null => .null
  | .bool b => .bool b
  | .number n => .number n
  | .string s => .string (some s)
  | .array items => .array (itemDocuments items)
  | .object members => .object (memberDocuments members)

/-- The documents of a list of values. -/
def itemDocuments : List Value → List Document
  | [] => []
  | v :: vs => document v :: itemDocuments vs

/-- The documents of a list of members. -/
def memberDocuments : List (String × Value) → List (Option String × Document)
  | [] => []
  | (n, v) :: ms => (some n, document v) :: memberDocuments ms

end

end Json

end DesignTokens
