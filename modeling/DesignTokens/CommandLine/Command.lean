import DesignTokens.CommandLine.Arguments
import DesignTokens.CommandLine.Plan

/-!
# Commands

What can be asked for on the command line, and how it is read from arguments:
the first argument names the command, the others are its options.
-/

namespace DesignTokens.CommandLine

/-- Where a component, its spec and the policy are to be read from. -/
structure InputPaths where
  spec : String
  source : String
  policy : Option String
  deriving Repr, DecidableEq

/-- What can be asked for. -/
inductive Command where
  /-- Scores a component against its spec. -/
  | validate (input : InputPaths) (failUnder : Option Nat) (voice : Voice)
  /-- Lists what there is to choose. -/
  | issues (input : InputPaths) (advanced : Bool) (output : Option String) (voice : Voice)
  /-- Applies a mapping set to a source. -/
  | apply (source mappings : String) (policy output : Option String) (voice : Voice)
  /-- Chooses, previews and perhaps saves. -/
  | review (input : InputPaths) (choices : List String) (advanced : Bool) (store : Option String)
      (save : Bool) (output : Option String) (voice : Voice)
  /-- Converts between pixels and tokens. -/
  | convert (property : String) (pixels : Option Nat) (token : Option String) (voice : Voice)
  /-- Takes the answer of a generative service apart. -/
  | parseResponse (input directory : String) (voice : Voice)
  /-- Lists the tokens that can be edited. -/
  | properties (source : String)
  /-- Writes a summary as JSON and as a page. -/
  | report (input : InputPaths) (page record : Option String) (title : String) (voice : Voice)
  deriving Repr, DecidableEq

/-- The paths that are read for the input. -/
def InputPaths.all (paths : InputPaths) : List String :=
  [paths.spec, paths.source] ++ paths.policy.toList

/-- The paths that a command reads. -/
def Command.reads : Command → List String
  | validate input .. | issues input .. | review input .. | report input .. => input.all
  | apply source mappings policy .. => [source, mappings] ++ policy.toList
  | convert .. => []
  | parseResponse input .. => [input]
  | properties source => [source]

/-- The names that commands go by. -/
inductive CommandName where
  | validate
  | issues
  | apply
  | review
  | convert
  | parseResponse
  | properties
  | report
  deriving Repr, DecidableEq

namespace CommandName

/-- All names. -/
def all : List CommandName :=
  [validate, issues, apply, review, convert, parseResponse, properties, report]

/-- How a name is written. -/
def text : CommandName → String
  | validate => "validate"
  | issues => "issues"
  | apply => "apply"
  | review => "review"
  | convert => "convert"
  | parseResponse => "parse-response"
  | properties => "properties"
  | report => "report"

/-- The name that a text writes. -/
def ofText? (s : String) : Option CommandName := all.find? fun n => n.text = s

/-- The options for the paths of the input. -/
def inputOptions : List Declaration := [.path "spec", .path "source", .path "policy"]

/-- The greatest score that a command can ask for. -/
def maxThreshold : Nat := 100

/-- The options of a command. -/
def options : CommandName → List Declaration
  | validate => inputOptions ++ [.number "fail-under" maxThreshold, .flag "json"]
  | issues => inputOptions ++ [.flag "advanced", .path "output", .flag "json"]
  | apply => [.path "source", .path "mappings", .path "policy", .path "output", .flag "json"]
  | review =>
    inputOptions ++ [.texts "select", .flag "advanced", .path "store", .flag "save", .path "output",
      .flag "json"]
  | convert => [.text "property", .number "pixels" maxPixels, .text "token", .flag "json"]
  | parseResponse => [.path "input", .path "out-dir", .flag "json"]
  | properties => [.path "source"]
  | report =>
    inputOptions ++ [.path "output-html", .path "output-json", .text "title", .flag "json"]

end CommandName

/-- The title of a summary that is given none. -/
def defaultTitle : String := "Theme Compliance Report"

/-- The voice that options ask for. -/
def Given.voice (g : Given) : Voice := if g.has "json" then .json else .lines

/-- The paths of the input. -/
def Given.input? (g : Given) : Option InputPaths := do
  some ⟨← g.value? "spec", ← g.value? "source", g.value? "policy"⟩

/-- The command of a name with its options, unless one is missing or two exclude each other. -/
def Command.ofGiven? (g : Given) : CommandName → Option Command
  | .validate => do
    some (.validate (← g.input?) (g.number? "fail-under" CommandName.maxThreshold) g.voice)
  | .issues => do some (.issues (← g.input?) (g.has "advanced") (g.value? "output") g.voice)
  | .apply => do
    some (.apply (← g.value? "source") (← g.value? "mappings") (g.value? "policy")
      (g.value? "output") g.voice)
  | .review => do
    some (.review (← g.input?) (g.values "select") (g.has "advanced") (g.value? "store")
      (g.has "save") (g.value? "output") g.voice)
  | .convert => do
    let property ← g.value? "property"
    if g.has "pixels" && g.has "token" then none
    else some (.convert property (g.number? "pixels" maxPixels) (g.value? "token") g.voice)
  | .parseResponse => do
    some (.parseResponse (← g.value? "input") (← g.value? "out-dir") g.voice)
  | .properties => do some (.properties (← g.value? "source"))
  | .report => do
    some (.report (← g.input?) (g.value? "output-html") (g.value? "output-json")
      ((g.value? "title").getD defaultTitle) g.voice)

/-- Whether an argument in front of any command asks for help or the version. -/
def asksForInfo (arg : String) : Bool :=
  asksForHelp arg || arg = "--version" || (Text.after? ['-', 'V'] arg.toList).isSome

/-- What comes of asking for help by name. -/
def helpOn : List String → Refusal
  | [] => .help
  | [name] => if name = "help" || (CommandName.ofText? name).isSome then .help else .misuse
  | _ => .misuse

/-- Reads a command from the arguments of a command line. -/
def Command.ofArguments : List String → Except Refusal Command
  | [] => .error .misuse
  | arg :: rest =>
    match CommandName.ofText? arg with
    | some name =>
      match scan name.options [] rest with
      | .error r => .error r
      | .ok given =>
        match Command.ofGiven? given name with
        | some c => .ok c
        | none => .error .misuse
    | none =>
      if arg = "help" then .error (helpOn rest)
      else if asksForInfo arg then .error .help
      else .error .misuse

end DesignTokens.CommandLine
