import DesignTokens.Text.Basic

/-!
# Policies

A policy is the vocabulary that checking and rewriting rely on: the call that
wraps the variant definition, the dimensions and values that describe passing
states, what shows that colors are referred to by theme, which theme tokens can
stand for a literal color, and which dimension names clash with an attribute of
the host. `Policy.fault?` finds the first thing that is wrong with a policy.
-/

namespace DesignTokens

open Text

/-- The vocabulary that checking and rewriting rely on. Renamings are sorted by the reserved name,
and the reserved names are distinct. -/
structure Policy where
  schemaVersion : String
  variantCall : String
  interactionDimensions : List String
  genericValues : List String
  colorReferences : List String
  themeTokens : List String
  reserved : List (String × String)
  deriving Repr, DecidableEq, Inhabited

/-- Whether a string is an identifier of ASCII letters, digits, underscores and dollar signs. -/
def isIdentifier (s : String) : Bool :=
  match s.toList with
  | [] => false
  | c :: cs => isIdentStart c && cs.all isIdent

namespace Policy

/-- The one schema that policies are written in. -/
def supportedSchema : String := "themefit-policy-v1"

/-- The policy in force where none is given. -/
def builtin : Policy where
  schemaVersion := supportedSchema
  variantCall := "cva"
  interactionDimensions := ["state", "states", "interaction"]
  genericValues := ["enabled", "hover", "focused", "pressed", "disabled"]
  colorReferences :=
    ["bg-primary", "bg-secondary", "bg-destructive", "bg-muted", "bg-accent", "bg-background",
     "bg-card", "bg-popover", "text-foreground", "text-primary", "text-secondary",
     "text-muted-foreground", "text-destructive", "text-accent-foreground", "border-input",
     "border-border", "ring-ring", "var(--"]
  themeTokens :=
    ["bg-primary", "bg-secondary", "bg-destructive", "bg-muted", "bg-accent", "bg-background",
     "text-foreground", "text-primary-foreground", "text-muted-foreground", "border-input",
     "ring-ring"]
  reserved := [("type", "inputType")]

/-! ## What can be wrong with a policy -/

/-- The ways in which a policy can be wrong. -/
inductive Fault where
  | unsupportedSchema (version : String)
  | callNotIdentifier (call : String)
  | noColorReference
  | noThemeToken
  | renamingNotIdentifiers (name renamed : String)
  | renamedToItself (name : String)
  deriving Repr, DecidableEq

/-- The wording of a fault. -/
def Fault.message : Fault → String
  | .unsupportedSchema version =>
    "unsupported schema_version '" ++ version ++ "' (expected '" ++ supportedSchema ++ "')"
  | .callNotIdentifier call => "variant_call '" ++ call ++ "' is not an identifier"
  | .noColorReference => "color_reference_prefixes must not be empty"
  | .noThemeToken => "theme_color_tokens must not be empty"
  | .renamingNotIdentifiers name renamed =>
    "reserved attribute rename '" ++ name ++ "' -> '" ++ renamed ++ "' must use identifiers"
  | .renamedToItself name => "reserved attribute '" ++ name ++ "' is renamed to itself"

/-- What is wrong with one renaming. -/
def renamingFault? : String × String → Option Fault
  | (name, renamed) =>
    if !isIdentifier name || !isIdentifier renamed then some (.renamingNotIdentifiers name renamed)
    else if name = renamed then some (.renamedToItself name)
    else none

/-- The first thing that is wrong with a policy. -/
def fault? (p : Policy) : Option Fault :=
  if p.schemaVersion ≠ supportedSchema then some (.unsupportedSchema p.schemaVersion)
  else if !isIdentifier p.variantCall then some (.callNotIdentifier p.variantCall)
  else if p.colorReferences.all isBlankText then some .noColorReference
  else if p.themeTokens.isEmpty then some .noThemeToken
  else p.reserved.findSome? renamingFault?

theorem fault?_builtin : builtin.fault? = none := by decide

/-! ## Questions to a policy -/

/-- Whether a dimension describes a passing state of the component. -/
def isInteractionDimension (p : Policy) (dimension : String) : Bool :=
  p.interactionDimensions.any fun d => sameFolded d (trimmed dimension)

/-- Whether a value describes a passing state of the component. -/
def isGenericValue (p : Policy) (value : String) : Bool :=
  p.genericValues.any fun v => sameFolded v (trimmed value)

/-- The first of the policy's color references that the text holds. -/
def colorReference? (p : Policy) (text : List Char) : Option String :=
  p.colorReferences.find? fun r => r ≠ "" && holds r.toList text

end Policy

end DesignTokens
