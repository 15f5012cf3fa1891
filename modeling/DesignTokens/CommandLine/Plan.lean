import DesignTokens.Files.Tree
import DesignTokens.Json.Printer
import DesignTokens.Record.Parse
import DesignTokens.Record.Write
import DesignTokens.Review.Session
import DesignTokens.Text.Slug

/-!
# Plans

A command first reads and then acts. What it does is a *plan*: a list of effects
in their order and the outcome when all of them have succeeded. A plan is made
from what the files hold, without touching them, so that what a command does to
files can be read off its plan. `Plan.run` carries a plan out on a file tree; the
first effect that fails ends it.
-/

namespace DesignTokens.CommandLine

open Files Json

/-- What a command does to the world. -/
inductive Effect where
  | out (text : String)
  | err (text : String)
  /-- Makes a directory and those in front of it. -/
  | makeDirectory (path : String)
  /-- Writes a file, and makes the directories in front of it first. -/
  | write (path content : String)
  deriving Repr, DecidableEq

/-- What a command does and how it ends. -/
structure Plan where
  effects : List Effect
  outcome : Outcome Unit

/-- The plan of a command that may have failed before it did anything. -/
def Plan.ofOutcome : Outcome Plan → Plan
  | .ok p => p
  | .error f => ⟨[], .error f⟩

/-! ## Carrying plans out -/

/-- What has come of a plan. -/
structure Transcript where
  tree : Tree
  out : String
  err : String
  outcome : Outcome Unit

/-- Carries out effects on a file tree. -/
def runEffects (last : Outcome Unit) (tree : Tree) : List Effect → Transcript
  | [] => ⟨tree, "", "", last⟩
  | .out text :: rest =>
    let later := runEffects last tree rest
    { later with out := text ++ later.out }
  | .err text :: rest =>
    let later := runEffects last tree rest
    { later with err := text ++ later.err }
  | .makeDirectory path :: rest =>
    match tree.makeDirectory path with
    | (made, .ok ()) => runEffects last made rest
    | (made, .error f) => ⟨made, "", "", .error f⟩
  | .write path content :: rest =>
    match tree.write path content with
    | (written, .ok ()) => runEffects last written rest
    | (written, .error f) => ⟨written, "", "", .error f⟩

/-- Carries out a plan on a file tree. -/
def Plan.run (p : Plan) (tree : Tree) : Transcript := runEffects p.outcome tree p.effects

/-! ## Reading -/

/-- What a command sees of the files. -/
abbrev Reading := String → FileState

/-- The text of a file. -/
def Reading.text (files : Reading) (path : String) : Outcome String :=
  match files path with
  | .missing => .error (.missingPath path)
  | .unreadable => .error .io
  | .text content => .ok content

/-- The record that a file holds. -/
def Reading.record {α : Type} (files : Reading) (read : Reader α) (path : String) : Outcome α :=
  (files.text path).bind (parseRecord read)

/-- The policy that a file holds, or the built-in one where no file is named. -/
def Reading.policy (files : Reading) : Option String → Outcome Policy
  | none => .ok .builtin
  | some path => (files.text path).bind Policy.parse

/-! ## Saying -/

/-- How a command talks: in lines for people, or with one line of JSON for programs. -/
inductive Voice where
  | lines
  | json
  deriving Repr, DecidableEq

namespace Voice

/-- Effects for people only. -/
def toPeople (v : Voice) (effects : List Effect) : List Effect :=
  match v with
  | lines => effects
  | json => []

/-- A heading. -/
def heading (v : Voice) (title : String) : List Effect :=
  v.toPeople [.out ("--- " ++ title ++ " ---\n")]

/-- Something to know. -/
def info (v : Voice) (message : String) : List Effect :=
  v.toPeople [.out ("[INFO] " ++ message ++ "\n")]

/-- Something that has been done. -/
def success (v : Voice) (message : String) : List Effect :=
  v.toPeople [.out ("[OK] " ++ message ++ "\n")]

/-- Something to mind. -/
def warning (v : Voice) (message : String) : List Effect :=
  v.toPeople [.err ("[WARN] " ++ message ++ "\n")]

/-- The errors of a structure check. -/
def structureWarnings (v : Voice) (check : Source.StructureCheck) : List Effect :=
  check.errors.flatMap fun e => v.warning ("structure: " ++ e)

/-- The answer for programs. -/
def answer (v : Voice) (members : List (String × Value)) : List Effect :=
  match v with
  | lines => []
  | json => [.out (compact (.object members) ++ "\n")]

/-- How the answer for programs describes the setting that it is given in. -/
def integration : String × Value :=
  ("integration", .object
    [("fastapi_mode", .string "plain"), ("fastapi_agent", .bool true), ("fastapi_ci", .bool false),
     ("fastapi_tty", .bool false), ("sqlmodel_mode", .string "json"),
     ("sqlmodel_agent", .bool true)])

end Voice

/-! ## Saving -/

/-- The store that keeps every component in a file of a directory, named by its slug. Its state are
the effects so far. -/
def directoryStore (root : String) : Review.Store (List Effect) := fun c effects =>
  let path := inside root (Text.slug c.name ++ ".json")
  (effects ++ [.makeDirectory root, .write path (indented c.write)], .ok path)

end DesignTokens.CommandLine
