/-!
# Braces

Where an object may stand in a text that is not all JSON: from the first brace
to the one that closes it, or from the first brace to the last closing one.
Braces inside strings do not count, and a backslash in a string covers the
character behind it.
-/

namespace DesignTokens.Response

/-- Where a reader stands with regard to strings. -/
inductive Quoting where
  | outside
  | inside
  /-- Inside a string, behind a backslash. -/
  | escaped
  deriving Repr, DecidableEq

/-- Where the reader stands behind a character. -/
def Quoting.behind : Quoting → Char → Quoting
  | outside, '"' => inside
  | outside, _ => outside
  | inside, '\\' => escaped
  | inside, '"' => outside
  | inside, _ => inside
  | escaped, _ => inside

/-- The text up to the brace that closes the last of `depth` open ones, with that brace. -/
def untilClosed? : Quoting → Nat → List Char → Option (List Char)
  | _, _, [] => none
  | .outside, depth, '{' :: cs => (untilClosed? .outside (depth + 1) cs).map ('{' :: ·)
  | .outside, depth, '}' :: cs =>
    if depth ≤ 1 then some ['}'] else (untilClosed? .outside (depth - 1) cs).map ('}' :: ·)
  | q, depth, c :: cs => (untilClosed? (q.behind c) depth cs).map (c :: ·)

section

variable {q : Quoting} {depth : Nat} {c : Char} {cs : List Char}

theorem untilClosed?_open : untilClosed? .outside depth ('{' :: cs)
    = (untilClosed? .outside (depth + 1) cs).map ('{' :: ·) := rfl

theorem untilClosed?_close : untilClosed? .outside depth ('}' :: cs)
    = if depth ≤ 1 then some ['}']
      else (untilClosed? .outside (depth - 1) cs).map ('}' :: ·) := rfl

/-- A brace counts outside of strings only, and nothing else counts anywhere. -/
theorem untilClosed?_other (hopen : q = .outside → c ≠ '{') (hclose : q = .outside → c ≠ '}') :
    untilClosed? q depth (c :: cs) = (untilClosed? (q.behind c) depth cs).map (c :: ·) := by
  rw [untilClosed?]
  · exact hopen
  · exact hclose

end

/-- The text from its first brace on. -/
def fromBrace (text : List Char) : List Char := text.dropWhile (· ≠ '{')

/-- The text from its first brace to the one that closes it. -/
def balancedObject? (text : List Char) : Option (List Char) :=
  untilClosed? .outside 0 (fromBrace text)

/-- The text from its first brace to its last closing one, if that stands behind the first. -/
def outermostBraces? (text : List Char) : Option (List Char) :=
  match ((fromBrace text).reverse.dropWhile (· ≠ '}')).reverse with
  | [] => none
  | cs => some cs

end DesignTokens.Response
