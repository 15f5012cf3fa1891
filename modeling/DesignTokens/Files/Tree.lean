import DesignTokens.Failure
import DesignTokens.Files.Path

/-!
# File trees

A tree of directories and files, with a directory that paths start from. Every
operation answers with the tree behind it: one that fails may have made some
directories before it did.
-/

namespace DesignTokens.Files

/-- What stands at a place of a tree. -/
inductive Entry where
  | directory
  | file (content : String)
  deriving Repr, DecidableEq

/-- What a reader finds at a path. -/
inductive FileState where
  | missing
  /-- Something is there, but no text can be read from it. -/
  | unreadable
  | text (content : String)
  deriving Repr, DecidableEq

/-- Directories and files by the names that lead to them from the root. -/
structure Tree where
  workingDirectory : List String
  entries : List (List String × Entry)
  deriving Repr, DecidableEq

namespace Tree

/-- The entry at a place; the root is always there. -/
def entry? (t : Tree) (place : List String) : Option Entry :=
  if place = [] then some .directory else t.entries.lookup place

/-- Whether a directory stands at a place. -/
def isDirectory (t : Tree) (place : List String) : Bool := t.entry? place = some .directory

/-- The tree with an entry put at a place. -/
def put (t : Tree) (place : List String) (e : Entry) : Tree :=
  { t with entries := (place, e) :: t.entries.filter fun x => x.1 ≠ place }

/-- Where a path starts. -/
def start (t : Tree) (p : Path) : List String := if p.absolute then [] else t.workingDirectory

/-- The place that names lead to from another place, through directories that are there. -/
def locate? (t : Tree) (place : List String) : List String → Option (List String)
  | [] => some place
  | name :: names =>
    if !t.isDirectory place then none
    else if name = ".." then t.locate? place.dropLast names
    else if isName name then t.locate? (place ++ [name]) names
    else none

/-- What a reader finds at a path. -/
def read (t : Tree) (path : String) : FileState :=
  let p := Path.ofString path
  match if isPath path then (t.locate? (t.start p) p.names).bind t.entry? else none with
  | none => .missing
  | some .directory => .unreadable
  | some (.file content) => if p.toDirectory then .missing else .text content

/-- Makes the directories that names lead to, as far as they are missing. -/
def makeDirectoriesFrom (t : Tree) (place : List String) : List String → Tree × Outcome Unit
  | [] => (t, .ok ())
  | name :: names =>
    if name = ".." then t.makeDirectoriesFrom place.dropLast names
    else
      match t.entry? (place ++ [name]) with
      | some .directory => t.makeDirectoriesFrom (place ++ [name]) names
      | some (.file _) => (t, .error .io)
      | none =>
        if isName name then
          (t.put (place ++ [name]) .directory).makeDirectoriesFrom (place ++ [name]) names
        else (t, .error .io)

/-- Makes a directory and those in front of it. A dot at the end is looked up in a directory, so
the directory that it stands in must be there already. -/
def makeDirectory (t : Tree) (path : String) : Tree × Outcome Unit :=
  let p := Path.ofString path
  if !isPath path then (t, .error .io)
  else if p.endsWithDot then
    match t.makeDirectoriesFrom (t.start p) p.names.dropLast with
    | (made, .ok ()) =>
      if (made.locate? (made.start p) p.names).any made.isDirectory then (made, .ok ())
      else (made, .error .io)
    | failed => failed
  else t.makeDirectoriesFrom (t.start p) p.names

/-- Makes the directories in front of the last name of a path. -/
def makeInFront (t : Tree) (path : String) : Tree × Outcome Unit :=
  let p := Path.ofString path
  if p.names.dropLast.isEmpty || isPath (inFront path) then
    t.makeDirectoriesFrom (t.start p) p.names.dropLast
  else (t, .error .io)

/-- Puts a text into a file whose directory is there. -/
def fill (t : Tree) (p : Path) (content : String) : Tree × Outcome Unit :=
  match t.locate? (t.start p) p.names with
  | none => (t, .error .io)
  | some place =>
    if t.isDirectory place || p.toDirectory then (t, .error .io)
    else (t.put place (.file content), .ok ())

/-- Writes a file, and makes the directories in front of it first. -/
def write (t : Tree) (path content : String) : Tree × Outcome Unit :=
  match t.makeInFront path with
  | (made, .ok ()) =>
    if isPath path then made.fill (Path.ofString path) content else (made, .error .io)
  | failed => failed

end Tree

end DesignTokens.Files
