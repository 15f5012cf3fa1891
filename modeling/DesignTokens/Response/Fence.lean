import DesignTokens.Text.Basic

/-!
# Fenced blocks

A fenced block opens with three back quotes, the letters of a language and
blanks up to the end of the line. Its body is the text from the next line up to
the first three back quotes. Blocks are read from left to right, and the quotes
that close one block do not open another.
-/

namespace DesignTokens.Response

open Text

/-- The characters of a fence. -/
def fence : List Char := ['\x60', '\x60', '\x60']

/-- A block of a response. -/
structure FencedBlock where
  language : List Char
  body : List Char
  /-- How many characters the block takes, its fences included. -/
  length : Nat
  deriving Repr, DecidableEq

/-- The text up to the first fence. -/
def untilFence? : List Char → Option (List Char)
  | [] => none
  | c :: cs =>
    if (after? fence (c :: cs)).isSome then some [] else (untilFence? cs).map (c :: ·)

/-- The rest of a text that starts with a line end. -/
def afterLineEnd? : List Char → Option (List Char)
  | '\r' :: '\n' :: cs => some cs
  | '\n' :: cs => some cs
  | _ => none

/-- The block that a text starts with. -/
def blockAt? (text : List Char) : Option FencedBlock := do
  let opened ← after? fence text
  let language := opened.takeWhile Char.isAlpha
  let tail := (opened.dropWhile Char.isAlpha).dropWhile fun c => c = ' ' || c = '\t'
  let inside ← afterLineEnd? tail
  let body ← untilFence? inside
  some ⟨language, body, text.length - inside.length + body.length + fence.length⟩

/-- The blocks of a text whose first `skip` characters belong to an earlier block. -/
def blocksFrom : Nat → List Char → List FencedBlock
  | _, [] => []
  | skip + 1, _ :: cs => blocksFrom skip cs
  | 0, c :: cs =>
    match blockAt? (c :: cs) with
    | some b => b :: blocksFrom (b.length - 1) cs
    | none => blocksFrom 0 cs

/-- The blocks of a text from left to right. -/
def fencedBlocks (text : List Char) : List FencedBlock := blocksFrom 0 text

/-- The body of the first block in one of the given languages, whose names are in lower case. -/
def fencedBody? (languages : List String) (text : List Char) : Option (List Char) :=
  ((fencedBlocks text).find? fun b =>
    languages.contains (String.ofList (lowered b.language))).map FencedBlock.body

end DesignTokens.Response
