/-!
# Character classes

The classes that the rules of this library are written in. Four of them are
ASCII classes: *blank* and *layout* characters, *word* characters (which decide
where a word starts and ends) and *identifier* characters. The fifth, white
space, is the Unicode property; it is what trimming a text removes.

Vertical tab is blank and white space but not layout, which is why the three
classes are kept apart.
-/

namespace DesignTokens.Text

/-- The six ASCII blanks that may separate the parts of a pattern. -/
def isBlank (c : Char) : Bool :=
  c = ' ' || c = '\t' || c = '\n' || c = '\x0b' || c = '\x0c' || c = '\r'

/-- The five ASCII blanks of program layout; vertical tab is not one. -/
def isLayout (c : Char) : Bool :=
  c = ' ' || c = '\t' || c = '\n' || c = '\x0c' || c = '\r'

/-- A character of a word: an ASCII letter, a digit or an underscore. -/
def isWord (c : Char) : Bool := c.isAlphanum || c = '_'

/-- A character of an identifier: a word character or a dollar sign. -/
def isIdent (c : Char) : Bool := isWord c || c = '$'

/-- A character that an identifier may start with. -/
def isIdentStart (c : Char) : Bool := c.isAlpha || c = '_' || c = '$'

/-- A hexadecimal digit in either case. -/
def isHexDigit (c : Char) : Bool :=
  c.isDigit || ('a' ≤ c && c ≤ 'f') || ('A' ≤ c && c ≤ 'F')

/-- The Unicode property `White_Space`, as ranges of code points. -/
def whiteSpaceRanges : List (Nat × Nat) :=
  [(0x09, 0x0d), (0x20, 0x20), (0x85, 0x85), (0xa0, 0xa0), (0x1680, 0x1680), (0x2000, 0x200a),
   (0x2028, 0x2029), (0x202f, 0x202f), (0x205f, 0x205f), (0x3000, 0x3000)]

/-- Whether the character has the Unicode property `White_Space`. -/
def isWhiteSpace (c : Char) : Bool :=
  whiteSpaceRanges.any fun r => r.1 ≤ c.toNat && c.toNat ≤ r.2

/-- Equality up to the case of ASCII letters. -/
def sameLetter (a b : Char) : Bool := a.toLower = b.toLower

/-- Every blank is white space, so trimming also removes blanks. -/
theorem isWhiteSpace_of_isBlank {c : Char} (h : isBlank c = true) : isWhiteSpace c = true := by
  simp only [isBlank, Bool.or_eq_true, decide_eq_true_eq] at h
  rcases h with ((((rfl | rfl) | rfl) | rfl) | rfl) | rfl <;> decide

/-- Layout characters are blanks. -/
theorem isBlank_of_isLayout {c : Char} (h : isLayout c = true) : isBlank c = true := by
  simp only [isLayout, isBlank, Bool.or_eq_true, decide_eq_true_eq] at *
  rcases h with (((h | h) | h) | h) | h <;> simp [h]

/-! ## Lists of characters

What holds of the characters of a list is decided along the list, and not by
going over all characters that there are.
-/

instance (priority := high) decidableForallMem (p : Char → Prop) [DecidablePred p]
    (cs : List Char) : Decidable (∀ c ∈ cs, p c) :=
  List.decidableBAll p cs

instance (priority := high) decidableExistsMem (p : Char → Prop) [DecidablePred p]
    (cs : List Char) : Decidable (∃ c ∈ cs, p c) :=
  List.decidableBEx p cs

end DesignTokens.Text
