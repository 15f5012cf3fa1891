import DesignTokens.Text.Basic

/-!
# Positions

Inside this library a position is the number of characters before it. Two other
measures are shown to readers: the number of bytes that those characters take
in UTF-8, and the line and column that an editor shows. A *snippet* is the part
of a text around a stretch of bytes, cut where whole characters end.
-/

namespace DesignTokens.Text

/-! ## Bytes -/

/-- The number of bytes that the characters take in UTF-8. -/
def byteLength : List Char → Nat
  | [] => 0
  | c :: cs => c.utf8Size + byteLength cs

@[simp] theorem byteLength_nil : byteLength [] = 0 := rfl

@[simp] theorem byteLength_append (a b : List Char) :
    byteLength (a ++ b) = byteLength a + byteLength b := by
  induction a with
  | nil => simp
  | cons c cs ih => simp [byteLength, ih, Nat.add_assoc]

/-- The number of bytes before a position of the text. -/
def byteOffset (text : List Char) (position : Nat) : Nat := byteLength (text.take position)

/-- The position that has exactly the given number of bytes before it, if one has. -/
def positionOf? : List Char → Nat → Option Nat
  | _, 0 => some 0
  | [], _ + 1 => none
  | c :: cs, n => if c.utf8Size ≤ n then (positionOf? cs (n - c.utf8Size)).map (· + 1) else none

/-! ## Lines and columns -/

/-- A place as an editor shows it; both numbers start at 1. -/
structure LineColumn where
  line : Nat
  column : Nat
  deriving Repr, DecidableEq

/-- The characters of the text behind its last line break. -/
def lastLine (cs : List Char) : List Char := (cs.reverse.takeWhile (· ≠ '\n')).reverse

/-- The place behind the given characters. -/
def LineColumn.behind (before : List Char) : LineColumn :=
  ⟨before.count '\n' + 1, (lastLine before).length + 1⟩

/-- The place that has the given number of bytes before it; numbers past the end mean the end,
and there is no place inside a character. -/
def lineColumn? (text : List Char) (offset : Nat) : Option LineColumn :=
  (positionOf? text (min offset (byteLength text))).map fun p => .behind (text.take p)

/-! ## Snippets -/

/-- The shortest start of the text that takes at least `n` bytes. -/
def takeBytes : Nat → List Char → List Char
  | _, [] => []
  | 0, _ :: _ => []
  | n, c :: cs => c :: takeBytes (n - c.utf8Size) cs

/-- The text without the longest start that takes at most `n` bytes. -/
def dropBytes : Nat → List Char → List Char
  | _, [] => []
  | n, c :: cs => if c.utf8Size ≤ n then dropBytes (n - c.utf8Size) cs else c :: cs

/-- The longest start of the text that takes at most `n` bytes. -/
def takeWithin : Nat → List Char → List Char
  | _, [] => []
  | n, c :: cs => if c.utf8Size ≤ n then c :: takeWithin (n - c.utf8Size) cs else []

/-- How many bytes of context a snippet shows on either side. -/
def snippetMargin : Nat := 24

/-- The text around the bytes from `start` to `stop`, on one line: cuts that would fall inside a
character move outwards, and line breaks become spaces. -/
def snippet (text : List Char) (start stop : Nat) : String :=
  String.ofList
    ((dropBytes (start - snippetMargin) (takeBytes (stop + snippetMargin) text)).map
      fun c => if c = '\n' then ' ' else c)

end DesignTokens.Text
