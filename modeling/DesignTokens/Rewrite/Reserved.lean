import DesignTokens.Rewrite.Record
import DesignTokens.Source.Block

/-!
# Renaming reserved dimensions

A dimension must not have the name of an attribute of the host. One that does is
renamed wherever it is bound: as a key or declared property, as a binding or
shorthand property, and, once anything was bound to it, wherever it is read.
Names of attributes, members, keywords and words in plain text stay.

Only names in code are looked at; the kind of a site is told from the
characters around it, layout left out.
-/

namespace DesignTokens.Rewrite

open Text Source

/-! ## A name that is free -/

/-- The names to choose from: the name itself, then a form of it, then that form with numbers. -/
def candidateName (name : String) : Nat → String
  | 0 => name
  | 1 => name ++ "Variant"
  | n + 2 => name ++ "Variant" ++ toString (n + 2)

/-- The first of the names to choose from that is no word of the text. There are more of them than
the text has characters. -/
def freeName (text : List Char) (name : String) : String :=
  candidateName name
    (((List.range (text.length + 3)).find? fun n =>
      !holdsName (candidateName name n).toList text).getD (text.length + 3))

/-! ## Sites of a name -/

/-- What a name does where it stands. -/
inductive SiteKind where
  /-- An object key or a declared property. -/
  | declaration
  /-- A binding, a shorthand property, or an expression slot that holds just the name. -/
  | binding
  /-- Any other expression. -/
  | read
  deriving Repr, DecidableEq

/-- Words that may follow an expression. -/
def joiningWords : List String := ["as", "in", "instanceof", "satisfies"]

/-- The identifier at the start of the characters. -/
def leadingWord (cs : List Char) : String := String.ofList (cs.takeWhile isIdent)

/-- What a name does between the characters before it, nearest first, and those behind it; nothing
if it is no use of a binding. -/
def siteKind? (before after : List Char) : Option SiteKind :=
  let before := before.dropWhile isLayout
  let after := after.dropWhile isLayout
  let prev := before.head?
  let next := after.head?
  let next2 := after[1]?
  let assigns := next = some '=' && next2 ≠ some '=' && next2 ≠ some '>'
  let wordBefore := String.ofList (before.takeWhile isIdent).reverse
  let arrow := prev = some '>' && before[1]? = some '='
  if prev ≠ some '?' && (next = some ':' || (next = some '?' && next2 = some ':')) then
    some .declaration
  else if (prev = some '\x7b' || prev = some ',')
      && (next = some ',' || next = some '\x7d' || assigns) then
    some .binding
  else if assigns then none
  else if next.any (fun c => isIdent c && !c.isDigit)
      && !joiningWords.contains (leadingWord after) then none
  else if wordBefore = "import" || wordBefore = "export" then none
  else if (prev = some '>' && !arrow) || next = some '<' then none
  else some .read

/-- Whether an optional character goes on an identifier. -/
def identAt (c : Option Char) : Bool := c.any isIdent

/-- The places where a name stands in code and what it does there; `before` holds the characters in
front, nearest first. -/
def sitesFrom (name : List Char) (pos : Nat) (before : List Char) :
    List Char → List Region → List (Nat × SiteKind)
  | c :: cs, r :: rs =>
    let later := sitesFrom name (pos + 1) (c :: before) cs rs
    match r, after? name (c :: cs) with
    | .code, some behind =>
      if identAt before.head? || before.head? = some '.' || identAt behind.head? then later
      else match siteKind? before behind with
        | some k => (pos, k) :: later
        | none => later
    | _, _ => later
  | _, _ => []

/-- The places where a name stands in code and what it does there. -/
def sites (name text : List Char) : List (Nat × SiteKind) :=
  if name.isEmpty then [] else sitesFrom name 0 [] text ((regions text).map (·.2))

/-- The places to rename. Reads are renamed only where something is bound. -/
def renamedSites (name text : List Char) : List Nat :=
  let all := sites name text
  let bound := all.any fun s => s.2 = .binding
  (all.filter fun s => bound || s.2 ≠ .read).map (·.1)

/-! ## The edit -/

/-- Whether the variant block has the name as a dimension. -/
def isDimension (call name text : List Char) : Bool :=
  match variantBlock? call text with
  | some b => (entries text b.opening b.closing).any fun e => !e.quoted && e.key = name
  | none => false

/-- The edit of one renaming. -/
def reservedEdit (call : List Char) (reserved renamed : String) : Edit := fun text =>
  let name := reserved.toList
  if !isDimension call name text then none
  else
    let free := freeName text renamed
    let places := renamedSites name text
    match places with
    | [] => none
    | first :: _ =>
      let spans : List Span := places.map fun p => ⟨p, name.length⟩
      let changed := rewriteSpans (fun _ => free.toList) 0 spans text
      let start := byteOffset text first
      some (changed,
        { pass := .reservedNames
          issueId := none
          description := "renamed " ++ toString places.length ++ " occurrence(s) of reserved `"
            ++ reserved ++ "` to `" ++ free ++ "`"
          before := snippet text start (start + byteLength name)
          after := snippet changed start (start + byteLength free.toList) })

/-- The edits of a policy's renamings. -/
def reservedEdits (call : List Char) (renamings : List (String × String)) : List Edit :=
  renamings.map fun r => reservedEdit call r.1 r.2

end DesignTokens.Rewrite
