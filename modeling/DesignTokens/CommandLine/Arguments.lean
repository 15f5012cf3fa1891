import DesignTokens.Text.Basic

/-!
# Arguments

The grammar of options. An option is written `--name value` or `--name=value`, a
flag `--name`. Unless it may be repeated, an option is given at most once. A
value of its own does not start with a dash, a single dash apart; nothing stands
between options, and nothing but the end stands behind `--`. Arguments are taken
from left to right, and the first one that asks for help or is out of order
settles the matter.
-/

namespace DesignTokens.CommandLine

open Text

/-- What ends a command line before there is a command. -/
inductive Refusal where
  /-- Help or the version is asked for. -/
  | help
  /-- The arguments are out of order. -/
  | misuse
  deriving Repr, DecidableEq

/-- The code that a refused command line ends with. -/
def Refusal.exitCode : Refusal → Nat
  | help => 0
  | misuse => 2

/-- How often an option may be given, and whether it has a value. -/
inductive Arity where
  | flag
  | once
  | repeated
  deriving Repr, DecidableEq

/-- An option of a command. -/
structure Declaration where
  name : String
  arity : Arity
  /-- Whether a value is one that the option can have. -/
  accepts : String → Bool

/-- The options that are given, in their order; a flag has an empty value. -/
abbrev Given := List (String × String)

/-- The number that a text writes in decimal, if it is at most `limit`. A sign may stand in
front. -/
def numberUpTo? (limit : Nat) (text : String) : Option Nat :=
  let (negative, digits) := match text.toList with
    | '-' :: ds => (true, ds)
    | '+' :: ds => (false, ds)
    | ds => (false, ds)
  if digits.isEmpty || !digits.all Char.isDigit then none
  else
    let n := digits.foldl (fun n d => 10 * n + (d.toNat - '0'.toNat)) 0
    if n ≤ limit && !(negative && n ≠ 0) then some n else none

namespace Declaration

/-- A flag. -/
def flag (name : String) : Declaration := ⟨name, .flag, fun _ => true⟩

/-- An option with any text for its value. -/
def text (name : String) : Declaration := ⟨name, .once, fun _ => true⟩

/-- An option with a path, which is never empty. -/
def path (name : String) : Declaration := ⟨name, .once, fun v => v ≠ ""⟩

/-- An option with a number up to a limit. -/
def number (name : String) (limit : Nat) : Declaration :=
  ⟨name, .once, fun v => (numberUpTo? limit v).isSome⟩

/-- An option with any text that may be given several times. -/
def texts (name : String) : Declaration := ⟨name, .repeated, fun _ => true⟩

end Declaration

/-- Whether an argument can be the value of the option in front of it. -/
def isValue (arg : String) : Bool := arg = "-" || arg.toList.head? ≠ some '-'

/-- Whether an argument asks for help, in full or by its first letter. -/
def asksForHelp (arg : String) : Bool := arg = "--help" || (after? ['-', 'h'] arg.toList).isSome

/-- The name of an option and the value attached to it. -/
def option? (arg : String) : Option (String × Option String) :=
  (after? ['-', '-'] arg.toList).map fun body =>
    match cut? '=' body with
    | some (name, value) => (String.ofList name, some (String.ofList value))
    | none => (String.ofList body, none)

/-- The given options with one more, if it may be given and can have the value. -/
def take (d : Declaration) (value : String) (given : Given) : Except Refusal Given :=
  if d.accepts value && (d.arity = .repeated || !given.any fun g => g.1 = d.name) then
    .ok (given ++ [(d.name, value)])
  else .error .misuse

/-- The options that arguments give, behind those given so far. -/
def scan (declared : List Declaration) (given : Given) : List String → Except Refusal Given
  | [] => .ok given
  | ["--"] => .ok given
  | arg :: rest =>
    if asksForHelp arg then .error .help
    else
      match option? arg with
      | none => .error .misuse
      | some (name, attached) =>
        match declared.find? fun d => d.name = name with
        | none => .error .misuse
        | some d =>
          match d.arity, attached, rest with
          | .flag, some _, _ => .error .misuse
          | .flag, none, rest => (take d "" given).bind fun given => scan declared given rest
          | _, some value, rest => (take d value given).bind fun given => scan declared given rest
          | _, none, value :: rest =>
            if isValue value then (take d value given).bind fun given => scan declared given rest
            else .error .misuse
          | _, none, [] => .error .misuse

namespace Given

/-- Whether a flag is given. -/
def has (g : Given) (name : String) : Bool := g.any fun o => o.1 = name

/-- The value of an option. -/
def value? (g : Given) (name : String) : Option String := g.lookup name

/-- All values of an option that may be repeated. -/
def values (g : Given) (name : String) : List String :=
  (g.filter fun o => o.1 = name).map (·.2)

/-- The value of an option that is a number. -/
def number? (g : Given) (name : String) (limit : Nat) : Option Nat :=
  (g.value? name).bind (numberUpTo? limit)

end Given

end DesignTokens.CommandLine
