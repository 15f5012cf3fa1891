import DesignTokens.Text.Basic

/-!
# Slugs

A slug is a name that is safe in a path: the ASCII letters and digits of a
display name in lower case, with a single dash where anything else stood
between them. A name without letters and digits gets a slug of its own.
-/

namespace DesignTokens.Text

/-- The maximal runs of ASCII letters and digits. -/
def slugWords (cs : List Char) : List (List Char) :=
  (pieces (fun c => !c.isAlphanum) cs).filter fun w => !w.isEmpty

/-- The slug of a name that has no letter and no digit. -/
def emptySlug : String := "component"

/-- The slug of a display name. -/
def slug (name : String) : String :=
  match slugWords name.toList with
  | [] => emptySlug
  | ws => String.ofList (lowered (['-'].intercalate ws))

end DesignTokens.Text
