import DesignTokens.Text.Basic

/-!
# Theme tokens by purpose

A spec names colors by purpose, as in "Primary text". The purpose tells the
slot of the theme and what the color is for, and so the token that would carry it.
-/

namespace DesignTokens

open Text

/-- The slots of a theme, the more particular ones first. -/
def themeSlots : List String :=
  ["destructive", "secondary", "primary", "muted", "accent", "background", "foreground", "card",
   "popover", "border", "input", "ring"]

/-- The theme token that carries a color of the given purpose. -/
def themeTokenFor (purpose : String) : String :=
  let lower := lowered purpose.toList
  let has (word : String) : Bool := holds word.toList lower
  let slot := (themeSlots.find? has).getD "primary"
  if has "border" || has "outline" then "border-" ++ slot
  else if has "text" || has "foreground" || has "label" then
    if slot = "foreground" || slot = "background" then "text-foreground"
    else "text-" ++ slot ++ "-foreground"
  else if slot = "ring" then "ring-ring"
  else "bg-" ++ slot

/-- The purpose and the value of a color line: what stands before and after its first colon. -/
def colorLine? (line : String) : Option (String × String) := do
  let (purpose, value) ← cut? ':' line.toList
  let purpose := trim purpose
  let value := trim value
  if purpose.isEmpty || value.isEmpty then none
  else some (String.ofList purpose, String.ofList value)

end DesignTokens
