import DesignTokens.Failure
import DesignTokens.Json.Parser
import DesignTokens.Record.Read

/-!
# Records read from text

A text is read straight into a record, so that a repeated member of the record
is refused. A policy must also have nothing wrong with it.
-/

namespace DesignTokens

open Json

/-- Reads a text as the record that a reader reads. -/
def parseRecord {α : Type} (read : Reader α) (text : String) : Outcome α :=
  orFail .json ((parse? text).bind read)

/-- Accepts a policy that has nothing wrong with it. -/
def Policy.checked (p : Policy) : Outcome Policy :=
  match p.fault? with
  | some fault => .error (.policy fault)
  | none => .ok p

/-- Reads a document as a policy with nothing wrong with it. -/
def Policy.ofDocument (d : Document) : Outcome Policy :=
  (orFail .json (Policy.readUnchecked d)).bind Policy.checked

/-- Reads a text as a policy with nothing wrong with it. -/
def Policy.parse (text : String) : Outcome Policy :=
  (orFail .json (parse? text)).bind Policy.ofDocument

end DesignTokens
