import DesignTokens.Summary.Basic

/-!
# Summary pages

A summary as a page of HTML. The frame of a page is markup as it stands; every
text that comes from outside goes through a function that writes it so that it
is no markup. Pages are laid out for any such function (`pageWith`), and `page`
is the one that is written with `escaped`.
-/

namespace DesignTokens.Summary

/-- A stretch of a page. -/
abbrev Html := List Char

/-- How a character is written where it is no markup. -/
def escapedChar : Char → Html
  | '&' => "&amp;".toList
  | '<' => "&lt;".toList
  | '>' => "&gt;".toList
  | '"' => "&quot;".toList
  | '\'' => "&#x27;".toList
  | '/' => "&#x2f;".toList
  | c => [c]

/-- A text that is no markup. -/
def escaped (text : String) : Html := text.toList.flatMap escapedChar

/-- A number. -/
def digits (n : Nat) : Html := Nat.toDigits 10 n

/-- Markup as it stands. -/
def markup (text : String) : Html := text.toList

/-- The style of a page. -/
def style : String :=
  "    body \x7b font-family: ui-sans-serif, -apple-system, Segoe UI, Roboto, Arial, sans-serif; "
    ++ "margin: 24px; background: #0f1115; color: #e7ebf3; \x7d\n"
    ++ "    h1, h2 \x7b margin: 0 0 12px; \x7d\n"
    ++ "    .meta \x7b margin-bottom: 20px; color: #a8b0c5; \x7d\n"
    ++ "    .score \x7b font-size: 42px; font-weight: 700; margin-bottom: 16px; \x7d\n"
    ++ "    .score.ok \x7b color: #2cb67d; \x7d\n"
    ++ "    .score.warn \x7b color: #f5a524; \x7d\n"
    ++ "    .score.fail \x7b color: #ef4565; \x7d\n"
    ++ "    .grid \x7b display: grid; "
    ++ "grid-template-columns: repeat(auto-fit, minmax(320px, 1fr)); gap: 16px; "
    ++ "margin-bottom: 24px; \x7d\n"
    ++ "    .card \x7b border: 1px solid #2a3142; border-radius: 10px; padding: 14px; "
    ++ "background: #171b24; \x7d\n"
    ++ "    .ok \x7b border-left: 5px solid #2cb67d; \x7d\n"
    ++ "    .fail \x7b border-left: 5px solid #ef4565; \x7d\n"
    ++ "    .row \x7b margin: 4px 0; font-size: 13px; color: #c8d0e3; \x7d\n"
    ++ "    .label \x7b color: #8a95b5; display: inline-block; min-width: 130px; \x7d\n"
    ++ "    table \x7b border-collapse: collapse; width: 100%; font-size: 13px; \x7d\n"
    ++ "    th, td \x7b text-align: left; padding: 6px 8px; border-bottom: 1px solid #2a3142; "
    ++ "vertical-align: top; \x7d\n"
    ++ "    code \x7b color: #b9c6ee; \x7d\n"
    ++ "    .pill \x7b font-size: 11px; border: 1px solid #3a4460; border-radius: 999px; "
    ++ "padding: 2px 8px; margin-left: 8px; color: #b9c6ee; \x7d\n"

/-- The class that colors a score. -/
def scoreClass (score : Nat) : String :=
  if 90 ≤ score && score ≤ 100 then "ok" else if 60 ≤ score && score ≤ 89 then "warn" else "fail"

section

variable (escape : String → Html)

/-- The head of a page. -/
def head (title : String) : Html :=
  markup "<!doctype html>\n<html lang=\"en\">\n<head>\n  <meta charset=\"utf-8\">\n"
    ++ markup "  <meta name=\"viewport\" content=\"width=device-width, initial-scale=1\">\n"
    ++ markup "  <title>" ++ escape title ++ markup "</title>\n"
    ++ markup "  <style>\n" ++ markup style ++ markup "  </style>\n</head>\n<body>\n"

/-- The card of a category with what was found in it. -/
def card (name : String) (passed : Bool) (findings : List String) : Html :=
  markup "<section class=\"card " ++ markup (if passed then "ok" else "fail") ++ markup "\">\n"
    ++ markup "<h2>" ++ escape name ++ markup " <span class=\"pill\">"
    ++ markup (if passed then "pass" else "fail") ++ markup "</span></h2>\n"
    ++ findings.flatMap (fun f =>
        markup "<div class=\"row\">" ++ escape f ++ markup "</div>\n")
    ++ markup "</section>\n"

/-- The list of recommendations, if there are any. -/
def recommendationList : List String → Html
  | [] => []
  | items =>
    markup "<h2>Recommendations</h2>\n<ul>\n"
      ++ items.flatMap (fun i => markup "<li>" ++ escape i ++ markup "</li>\n")
      ++ markup "</ul>\n"

/-- The row of an issue. -/
def issueRow (i : Issue) : Html :=
  markup "<tr><td><code>" ++ escape i.id ++ markup "</code></td><td>" ++ markup i.kind.name
    ++ markup "</td><td>" ++ escape i.title ++ markup "</td><td>" ++ escape i.current
    ++ markup "</td><td><code>" ++ escape i.suggestion ++ markup "</code></td><td>"
    ++ escape (Text.commaList i.options) ++ markup "</td></tr>\n"

/-- The table of issues, if there are any. -/
def issueTable : List Issue → Html
  | [] => []
  | issues =>
    markup "<h2>Mapping issues</h2>\n<table>\n<tr><th>id</th><th>type</th><th>title</th>"
      ++ markup "<th>current</th><th>suggested</th><th>options</th></tr>\n"
      ++ issues.flatMap (issueRow escape)
      ++ markup "</table>\n"

/-- What a summary is about, and its score. -/
def banner (s : Summary) : Html :=
  markup "<h1>" ++ escape s.title ++ markup "</h1>\n"
    ++ markup "<div class=\"meta\">component=" ++ escape s.component
    ++ markup " | source=" ++ escape s.sourcePath
    ++ markup " | generated_at=" ++ escape s.generatedAt ++ markup "</div>\n"
    ++ markup "<div class=\"score " ++ markup (scoreClass s.overallMatch) ++ markup "\">"
    ++ digits s.overallMatch ++ markup "/100</div>\n"

/-- The cards of the four categories. -/
def cards (s : Summary) : Html :=
  markup "<div class=\"grid\">\n"
    ++ card escape "Variants" s.report.hasRequiredVariants s.report.missingVariants
    ++ card escape "Spacing" s.report.hasCorrectSpacing s.report.spacingIssues
    ++ card escape "Colors" s.report.hasThemeColors s.report.colorIssues
    ++ card escape "Structure" s.check.valid s.check.errors
    ++ markup "</div>\n"

/-- The page of a summary, with its texts written by the given function. -/
def pageWith (s : Summary) : Html :=
  head escape s.title ++ banner escape s ++ cards escape s
    ++ recommendationList escape s.report.recommendations
    ++ issueTable escape s.issues
    ++ markup "<div class=\"meta\">editable properties: " ++ digits s.editable.length
    ++ markup "</div>\n</body>\n</html>\n"

end

/-- The page of a summary. -/
def page (s : Summary) : Html := pageWith escaped s

end DesignTokens.Summary
