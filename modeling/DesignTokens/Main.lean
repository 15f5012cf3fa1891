import DesignTokens.CommandLine.Change
import DesignTokens.CommandLine.Clock
import Std.Time.DateTime.Timestamp

/-!
# The program

Reads the files that a command needs, makes its plan, and carries the plan out
on the file system.
-/

namespace DesignTokens.Program

open CommandLine Files

/-- What is printed where there is no command to carry out. -/
def usage : String :=
  "usage: themefit COMMAND [OPTION]...\n\n"
    ++ "  validate        score a component against its spec\n"
    ++ "  issues          list selectable mapping issues as JSON\n"
    ++ "  apply           rewrite a source file with a mapping set\n"
    ++ "  review          validate, select fixes, preview and optionally save\n"
    ++ "  convert         convert between pixel values and utility tokens\n"
    ++ "  parse-response  split a generated response into spec and source files\n"
    ++ "  properties      list editable utility occurrences in a source file\n"
    ++ "  report          write HTML and JSON compliance reports\n"

/-- The number of the error for a path that leads through a file, which is told with either sign. -/
def notADirectory : List UInt32 := [20, 0 - 20]

/-- What a reader finds at a path of the file system. -/
def stateOf (path : String) : IO FileState := do
  match ← (IO.FS.readFile path).toBaseIO with
  | .ok content => return .text content
  | .error (.noFileOrDirectory ..) => return .missing
  | .error (.inappropriateType _ code _) =>
    return if notADirectory.contains code then .missing else .unreadable
  | .error _ => return .unreadable

/-- The directory that an entry is in, where the path names one. -/
def directoryOf (path : String) : Option String :=
  match beside path "" with
  | "" => none
  | directory => some directory

/-- Carries out an effect on the file system. -/
def perform : Effect → IO Unit
  | .out text => IO.print text
  | .err text => IO.eprint text
  | .makeDirectory path => IO.FS.createDirAll path
  | .write path content => do
    match directoryOf path with
    | some directory => IO.FS.createDirAll directory
    | none => pure ()
    IO.FS.writeFile path content

/-- The present moment as a text. -/
def now : IO String := do
  return clockText (← Std.Time.Timestamp.now).toSecondsSinceUnixEpoch.val.toNat

/-- Carries out a command on the file system. -/
def runCommand (c : Command) : IO UInt32 := do
  let seen ← c.reads.mapM fun path => do return (path, ← stateOf path)
  let plan := c.plan (fun path => (seen.lookup path).getD .missing) (← now)
  plan.effects.forM perform
  match plan.outcome with
  | .ok () => return 0
  | .error f =>
    IO.eprintln f.message
    return UInt32.ofNat f.exitCode.toNat

end DesignTokens.Program

open DesignTokens in
/-- Runs the command that the arguments ask for. -/
def main (arguments : List String) : IO UInt32 := do
  match CommandLine.Command.ofArguments arguments with
  | .error refusal =>
    match refusal with
    | .help => IO.print Program.usage
    | .misuse => IO.eprint Program.usage
    return UInt32.ofNat refusal.exitCode
  | .ok c =>
    try Program.runCommand c
    catch e =>
      IO.eprintln (Failure.io.message ++ ": " ++ toString e)
      return 1
