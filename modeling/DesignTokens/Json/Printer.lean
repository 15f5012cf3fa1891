import DesignTokens.Json.Basic

/-!
# Writing a JSON text

Values are written in two layouts: compact, without any space, and indented by
two spaces a level with one item a line. Strings escape quotes, backslashes and
control characters and nothing else.
-/

namespace DesignTokens.Json

/-- A hexadecimal digit in lower case. -/
def hexDigit (n : Nat) : Char :=
  if n < 10 then Char.ofNat ('0'.toNat + n) else Char.ofNat ('a'.toNat + (n - 10))

/-- A character inside a written string. -/
def escaped (c : Char) : List Char :=
  match c with
  | '"' => ['\\', '"']
  | '\\' => ['\\', '\\']
  | '\x08' => ['\\', 'b']
  | '\x0c' => ['\\', 'f']
  | '\n' => ['\\', 'n']
  | '\r' => ['\\', 'r']
  | '\t' => ['\\', 't']
  | c =>
    if c.toNat < 0x20 then
      ['\\', 'u', '0', '0', hexDigit (c.toNat / 16), hexDigit (c.toNat % 16)]
    else [c]

/-- A written string with its quotes. -/
def quoted (s : String) : List Char := '"' :: s.toList.flatMap escaped ++ ['"']

/-- A written number. -/
def JsonNumber.text (n : JsonNumber) : List Char :=
  (if n.negative then ['-'] else [])
    ++ Nat.toDigits 10 n.whole
    ++ (if n.fraction.isEmpty then [] else '.' :: n.fraction)
    ++ match n.exponent with
       | some e => 'e' :: (toString e).toList
       | none => []

/-- A written word or number or string; lists and objects are written by layout. -/
def atom : Value → List Char
  | .null => "null".toList
  | .bool true => "true".toList
  | .bool false => "false".toList
  | .number n => JsonNumber.text n
  | .string s => quoted s
  | _ => []

/-! ## Compact -/

mutual

/-- The value without any space. -/
def compactChars : Value → List Char
  | .array items => '[' :: compactItems items ++ [']']
  | .object members => '{' :: compactMembers members ++ ['}']
  | v => atom v

/-- The items with commas between them. -/
def compactItems : List Value → List Char
  | [] => []
  | [v] => compactChars v
  | v :: vs => compactChars v ++ ',' :: compactItems vs

/-- The members with commas between them. -/
def compactMembers : List (String × Value) → List Char
  | [] => []
  | [(n, v)] => quoted n ++ ':' :: compactChars v
  | (n, v) :: ms => quoted n ++ ':' :: (compactChars v ++ ',' :: compactMembers ms)

end

/-- The compact text of a value. -/
def compact (v : Value) : String := String.ofList (compactChars v)

/-! ## Indented -/

/-- A line break and the indentation of a level. -/
def newLine (level : Nat) : List Char := '\n' :: List.replicate (2 * level) ' '

mutual

/-- The value with one item a line, standing at the given level. -/
def indentedChars (level : Nat) : Value → List Char
  | .array [] => ['[', ']']
  | .array items => '[' :: indentedItems (level + 1) items ++ newLine level ++ [']']
  | .object [] => ['{', '}']
  | .object members => '{' :: indentedMembers (level + 1) members ++ newLine level ++ ['}']
  | v => atom v

/-- The items of a list, each on a line of its own. -/
def indentedItems (level : Nat) : List Value → List Char
  | [] => []
  | [v] => newLine level ++ indentedChars level v
  | v :: vs => newLine level ++ indentedChars level v ++ ',' :: indentedItems level vs

/-- The members of an object, each on a line of its own. -/
def indentedMembers (level : Nat) : List (String × Value) → List Char
  | [] => []
  | [(n, v)] => newLine level ++ quoted n ++ ':' :: ' ' :: indentedChars level v
  | (n, v) :: ms =>
    newLine level ++ quoted n ++ ':' :: ' ' ::
      (indentedChars level v ++ ',' :: indentedMembers level ms)

end

/-- The indented text of a value. -/
def indented (v : Value) : String := String.ofList (indentedChars 0 v)

end DesignTokens.Json
