import DesignTokens.Json.Basic

/-!
# Reading records from JSON

A reader takes a document and gives what it holds, or nothing if the document
has another form. Records are written as objects; as a second form a list of
the members in their fixed order is understood. An unknown member is passed
over unless the record refuses it, and then its value does not matter. A known
member that is repeated is refused; in a map, whose names are free, the last
value counts.
-/

namespace DesignTokens.Json

/-- What reads a document as a value of a type. -/
abbrev Reader (α : Type) := Document → Option α

/-! ## Plain values -/

/-- Reads a string. -/
def readText : Reader String
  | .string s => s
  | _ => none

/-- Reads one of the two truth values. -/
def readBool : Reader Bool
  | .bool b => some b
  | _ => none

/-- Reads a natural number up to a limit, written without point and exponent. -/
def readNatUpTo (limit : Nat) : Reader Nat
  | .number n => n.toNat?.bind fun n => if n ≤ limit then some n else none
  | _ => none

/-- Reads what a reader reads, or null. -/
def readNullable {α : Type} (read : Reader α) : Reader (Option α)
  | .null => some none
  | d => (read d).map some

/-- Reads a list. -/
def readList {α : Type} (read : Reader α) : Reader (List α)
  | .array items => items.mapM read
  | _ => none

/-- Reads a list of strings. -/
def readTexts : Reader (List String) := readList readText

/-- Reads an object with free names; of repeated names the last value counts. -/
def readMap {α : Type} (read : Reader α) : Reader (List (String × α))
  | .object members =>
    (members.mapM fun (m : Option String × Document) => do
      let n ← m.1
      let v ← read m.2
      some (n, v)).map lastWins
  | _ => none

/-- Reads one of several named choices: its name, or an object with the name alone and null. -/
def readChoice {α : Type} (ofName? : String → Option α) : Reader α
  | .string (some s) => ofName? s
  | .object [(some s, .null)] => ofName? s
  | _ => none

/-! ## Records -/

/-- Whether a record passes over members that it does not know or refuses them. -/
inductive Unknown where
  | passed
  | refused
  deriving Repr, DecidableEq

/-- The members of a record in their fixed order, each one missing or there once. -/
def readFields (unknown : Unknown) (names : List String) : Reader (List (Option Document))
  | .object members => do
    let named ← members.mapM fun (m : Option String × Document) => m.1.map fun n => (n, m.2)
    if unknown = .refused && named.any fun m => !names.contains m.1 then none
    else names.mapM fun n =>
      match named.filter fun m => m.1 = n with
      | [] => some none
      | [(_, d)] => some (some d)
      | _ => none
  | .array items =>
    if items.length ≤ names.length then
      some (items.map some ++ List.replicate (names.length - items.length) none)
    else none
  | _ => none

/-- Reads a member that must be there. -/
def required {α : Type} (read : Reader α) (d : Option Document) : Option α := d.bind read

/-- Reads a member that has a default. -/
def withDefault {α : Type} (default : α) (read : Reader α) : Option Document → Option α
  | none => some default
  | some d => read d

end DesignTokens.Json
