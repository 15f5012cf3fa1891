import DesignTokens.Json.Lexeme

/-!
# Reading a JSON text

The structure of a text is found by going once over its lexemes. What has been
read lies on a stack of open lists and objects; the state says what may come
next. So reading ends with the lexemes, however deep the text is, and a text is
a document exactly if one value is left and nothing is open.
-/

namespace DesignTokens.Json

/-- A list or object whose end has not been read: what it has so far, in reverse, and for an object
the name of the member being read. -/
inductive Frame where
  | array (done : List Document)
  | object (done : List (Option String × Document)) (name : Option String)

/-- What may come next, above the open lists and objects. -/
inductive Reading where
  /-- A value must follow. -/
  | value (frames : List Frame)
  /-- A list has been opened: its first item or its end. -/
  | firstItem (frames : List Frame)
  /-- An object has been opened: its first name or its end. -/
  | firstName (frames : List Frame)
  /-- A comma has been read in an object: a name must follow. -/
  | name (done : List (Option String × Document)) (frames : List Frame)
  /-- A name has been read: a colon must follow. -/
  | colon (done : List (Option String × Document)) (name : Option String) (frames : List Frame)
  /-- A value is complete. -/
  | behind (d : Document) (frames : List Frame)

namespace Reading

/-- A value starts with this lexeme. -/
def start (frames : List Frame) : Lexeme → Option Reading
  | .openObject => some (.firstName frames)
  | .openArray => some (.firstItem frames)
  | .null => some (.behind .null frames)
  | .bool b => some (.behind (.bool b) frames)
  | .number n => some (.behind (.number n) frames)
  | .string s => some (.behind (.string s) frames)
  | _ => none

/-- The reading behind one more lexeme. -/
def step : Reading → Lexeme → Option Reading
  | .value frames, l => start frames l
  | .firstItem frames, .closeArray => some (.behind (.array []) frames)
  | .firstItem frames, l => start (.array [] :: frames) l
  | .firstName frames, .closeObject => some (.behind (.object []) frames)
  | .firstName frames, .string s => some (.colon [] s frames)
  | .name done frames, .string s => some (.colon done s frames)
  | .colon done s frames, .colon => some (.value (.object done s :: frames))
  | .behind d (.array done :: frames), .comma => some (.value (.array (d :: done) :: frames))
  | .behind d (.array done :: frames), .closeArray =>
    some (.behind (.array (d :: done).reverse) frames)
  | .behind d (.object done s :: frames), .comma => some (.name ((s, d) :: done) frames)
  | .behind d (.object done s :: frames), .closeObject =>
    some (.behind (.object ((s, d) :: done).reverse) frames)
  | _, _ => none

/-- The document of a finished reading. -/
def finished? : Reading → Option Document
  | .behind d [] => some d
  | _ => none

end Reading

/-- The document that a row of lexemes writes. -/
def ofLexemes? (ls : List Lexeme) : Option Document :=
  (ls.foldlM Reading.step (.value [])).bind Reading.finished?

/-- The document that a text writes. -/
def parse? (text : String) : Option Document := (lexemes text.toList).bind ofLexemes?

/-- The value that a text means. -/
def parseValue? (text : String) : Option Value := (parse? text).bind (value? maxDepth)

end DesignTokens.Json
