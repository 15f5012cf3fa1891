import DesignTokens.Text.Basic

/-!
# Patterns

A pattern looks at one place of a text, given as the character in front of it
and the text from there on, and answers how many characters it takes. All
patterns of this library take at least one character when they match, so the
matches of a text are found from left to right without a place being looked at
twice: behind a match the search goes on where the match ended.

* `Pattern.spans` lists the matches of a text,
* `Pattern.first?` is the leftmost one,
* `Pattern.replace` rewrites each of them.
-/

namespace DesignTokens.Text

/-- How many characters a pattern takes, given the character in front and the text behind. -/
abbrev Pattern := Option Char → List Char → Option Nat

/-- A stretch of a text: the number of characters before it and its own length. -/
structure Span where
  start : Nat
  length : Nat
  deriving Repr, DecidableEq

namespace Span

/-- The number of characters up to the end of the stretch. -/
def stop (s : Span) : Nat := s.start + s.length

/-- The characters of a text that the stretch covers. -/
def of (s : Span) (text : List Char) : List Char := (text.drop s.start).take s.length

end Span

/-- The text with each of the given stretches rewritten. The stretches follow each other without
overlap, and `pos` is the number of characters before the text. -/
def rewriteSpans (rewrite : List Char → List Char) (pos : Nat) :
    List Span → List Char → List Char
  | [], cs => cs
  | s :: ss, cs =>
    let here := cs.drop (s.start - pos)
    cs.take (s.start - pos) ++ rewrite (here.take s.length)
      ++ rewriteSpans rewrite s.stop ss (here.drop s.length)

namespace Pattern

/-- The matches in a text whose first `skip` characters belong to an earlier match. -/
def spansFrom (p : Pattern) (before : Option Char) (pos skip : Nat) : List Char → List Span
  | [] => []
  | c :: cs =>
    match skip with
    | skip + 1 => p.spansFrom (some c) (pos + 1) skip cs
    | 0 =>
      match p before (c :: cs) with
      | some n => ⟨pos, n⟩ :: p.spansFrom (some c) (pos + 1) (n - 1) cs
      | none => p.spansFrom (some c) (pos + 1) 0 cs

/-- The matches of a pattern in a text, from left to right and without overlap. -/
def spans (p : Pattern) (text : List Char) : List Span := p.spansFrom none 0 0 text

/-- The leftmost match in a text that starts behind `before` at the given position. -/
def firstFrom? (p : Pattern) (before : Option Char) (pos : Nat) : List Char → Option Span
  | [] => none
  | c :: cs =>
    match p before (c :: cs) with
    | some n => some ⟨pos, n⟩
    | none => p.firstFrom? (some c) (pos + 1) cs

/-- The leftmost match of a pattern in a text. -/
def first? (p : Pattern) (text : List Char) : Option Span := p.firstFrom? none 0 text

/-- The leftmost match that starts at or behind a position of the text. -/
def firstBehind? (p : Pattern) (text : List Char) (position : Nat) : Option Span :=
  p.firstFrom? (text.take position).getLast? position (text.drop position)

/-- Whether the pattern matches anywhere in a text. -/
def occurs (p : Pattern) (text : List Char) : Bool := (p.first? text).isSome

/-- The text with each match of the pattern rewritten. -/
def replace (p : Pattern) (rewrite : List Char → List Char) (text : List Char) : List Char :=
  rewriteSpans rewrite 0 (p.spans text) text

/-! ## A pattern that does not occur -/

theorem firstFrom?_eq_none_iff {p : Pattern} {before : Option Char} {k : Nat} {text : List Char} :
    p.firstFrom? before k text = none ↔ p.spansFrom before k 0 text = [] := by
  induction text generalizing before k with
  | nil => simp [firstFrom?, spansFrom]
  | cons c cs ih =>
    simp only [firstFrom?, spansFrom]
    cases p before (c :: cs) with
    | none => simpa using ih
    | some n => simp

/-- A pattern occurs exactly when its list of matches is not empty. -/
theorem occurs_iff {p : Pattern} {text : List Char} :
    p.occurs text = true ↔ p.spans text ≠ [] := by
  rw [occurs, Option.isSome_iff_ne_none, first?, spans, Ne, Ne, firstFrom?_eq_none_iff]

/-- A pattern without a match leaves the text as it is. -/
theorem replace_of_not_occurs {p : Pattern} {rewrite : List Char → List Char} {text : List Char}
    (h : p.occurs text = false) : p.replace rewrite text = text := by
  have hs : p.spans text = [] :=
    Decidable.byContradiction fun hn => by simp [occurs_iff.mpr hn] at h
  rw [replace, hs, rewriteSpans]

end Pattern

end DesignTokens.Text
