import DesignTokens.Summary.Page

/-!
# The markup of a page

The markup of a page is its frame, whatever the texts are: two summaries that
differ in their texts alone (`Alike`) have pages with the same angle brackets in
the same order (`angles_pageWith`), as long as the texts are written without
any. So a summary cannot add to the markup of its page
(`angles_pageWith_withoutTexts`).
-/

namespace DesignTokens

/-- The target with all its texts empty. -/
def Target.withoutTexts : Target → Target
  | .color _ => .color ""
  | .utility property => .utility property
  | .variant _ values => .variant "" (values.map fun _ => "")

/-- The issue with all its texts empty. -/
def Issue.withoutTexts (i : Issue) : Issue :=
  { id := ""
    kind := i.kind
    title := ""
    requirement := ""
    current := ""
    suggestion := ""
    options := i.options.map fun _ => ""
    isIssue := i.isIssue
    target := i.target.map Target.withoutTexts }

/-- The report with all its texts empty. -/
def Report.withoutTexts (r : Report) : Report :=
  { r with
    missingVariants := r.missingVariants.map fun _ => ""
    spacingIssues := r.spacingIssues.map fun _ => ""
    colorIssues := r.colorIssues.map fun _ => ""
    recommendations := r.recommendations.map fun _ => "" }

/-- The editable token with all its texts empty. -/
def EditableProperty.withoutTexts (e : EditableProperty) : EditableProperty :=
  { e with token := "", locator := { e.locator with context := "" } }

namespace Summary

/-- The summary with all its texts empty; lists keep their lengths, and numbers, flags and kinds
stay. -/
def withoutTexts (s : Summary) : Summary :=
  { title := ""
    component := ""
    sourcePath := ""
    generatedAt := ""
    overallMatch := s.overallMatch
    failedCategories := s.failedCategories
    report := s.report.withoutTexts
    issues := s.issues.map Issue.withoutTexts
    editable := s.editable.map EditableProperty.withoutTexts
    check := { s.check with errors := s.check.errors.map fun _ => "" } }

/-! ## Angle brackets -/

/-- The angle brackets of a stretch, in order. -/
def angles (h : Html) : Html := h.filter fun c => c = '<' || c = '>'

@[simp] theorem angles_append (a b : Html) : angles (a ++ b) = angles a ++ angles b :=
  List.filter_append ..

/-- Texts are written without angle brackets. -/
def Inert (escape : String → Html) : Prop := ∀ text, '<' ∉ escape text ∧ '>' ∉ escape text

theorem not_mem_escapedChar (c : Char) : '<' ∉ escapedChar c ∧ '>' ∉ escapedChar c := by
  unfold escapedChar
  split
  case h_7 h1 h2 h3 h4 h5 h6 =>
    exact ⟨fun h => h2 (List.mem_singleton.mp h).symm, fun h => h3 (List.mem_singleton.mp h).symm⟩
  all_goals decide

theorem inert_escaped : Inert escaped := by
  refine fun text => ⟨fun h => ?_, fun h => ?_⟩ <;> obtain ⟨c, -, hc⟩ := List.mem_flatMap.mp h
  · exact (not_mem_escapedChar c).1 hc
  · exact (not_mem_escapedChar c).2 hc

/-! ## Summaries that differ in their texts -/

/-- All that the frame of a page goes by. -/
structure Alike (s s' : Summary) : Prop where
  overallMatch : s.overallMatch = s'.overallMatch
  variants : s.report.hasRequiredVariants = s'.report.hasRequiredVariants
  spacing : s.report.hasCorrectSpacing = s'.report.hasCorrectSpacing
  colors : s.report.hasThemeColors = s'.report.hasThemeColors
  valid : s.check.valid = s'.check.valid
  missingVariants : s.report.missingVariants.length = s'.report.missingVariants.length
  spacingIssues : s.report.spacingIssues.length = s'.report.spacingIssues.length
  colorIssues : s.report.colorIssues.length = s'.report.colorIssues.length
  errors : s.check.errors.length = s'.check.errors.length
  recommendations : s.report.recommendations.length = s'.report.recommendations.length
  issues : s.issues.length = s'.issues.length
  editable : s.editable.length = s'.editable.length

theorem alike_withoutTexts (s : Summary) : s.Alike s.withoutTexts := by
  constructor <;> simp [withoutTexts, Report.withoutTexts]

/-- Rows that have the same markup each have it together, as many rows as there are. -/
theorem angles_flatMap {α : Type} {row : α → Html} (hrow : ∀ x y, angles (row x) = angles (row y)) :
    ∀ {xs ys : List α}, xs.length = ys.length → angles (xs.flatMap row) = angles (ys.flatMap row)
  | [], [], _ => rfl
  | x :: xs, y :: ys, h => by
      rw [List.flatMap_cons, List.flatMap_cons, angles_append, angles_append, hrow x y,
        angles_flatMap hrow (Nat.succ.inj h)]

section

variable {escape : String → Html}

theorem angles_escape (h : Inert escape) (text : String) : angles (escape text) = [] := by
  refine List.filter_eq_nil_iff.mpr fun c hc hangle => ?_
  simp only [Bool.or_eq_true, decide_eq_true_eq] at hangle
  rcases hangle with rfl | rfl
  · exact (h text).1 hc
  · exact (h text).2 hc

theorem angles_head (h : Inert escape) (title title' : String) :
    angles (head escape title) = angles (head escape title') := by
  simp only [head, angles_append, angles_escape h]

theorem angles_card (h : Inert escape) (name : String) {passed passed' : Bool}
    {xs ys : List String} (hpassed : passed = passed') (hlength : xs.length = ys.length) :
    angles (card escape name passed xs) = angles (card escape name passed' ys) := by
  have hrow : ∀ x y : String,
      angles (markup "<div class=\"row\">" ++ escape x ++ markup "</div>\n")
        = angles (markup "<div class=\"row\">" ++ escape y ++ markup "</div>\n") :=
    fun x y => by simp only [angles_append, angles_escape h]
  simp only [card, angles_append, angles_flatMap hrow hlength, hpassed]

theorem angles_recommendationList (h : Inert escape) : ∀ {xs ys : List String},
    xs.length = ys.length →
      angles (recommendationList escape xs) = angles (recommendationList escape ys)
  | [], [], _ => rfl
  | x :: xs, y :: ys, hlength => by
      have hrow : ∀ x y : String, angles (markup "<li>" ++ escape x ++ markup "</li>\n")
          = angles (markup "<li>" ++ escape y ++ markup "</li>\n") :=
        fun x y => by simp only [angles_append, angles_escape h]
      simp only [recommendationList, angles_append, angles_flatMap hrow hlength]

theorem angles_kind (k k' : IssueKind) : angles (markup k.name) = angles (markup k'.name) := by
  cases k <;> cases k' <;> decide

theorem angles_issueRow (h : Inert escape) (i j : Issue) :
    angles (issueRow escape i) = angles (issueRow escape j) := by
  simp only [issueRow, angles_append, angles_escape h, angles_kind i.kind j.kind]

theorem angles_issueTable (h : Inert escape) : ∀ {xs ys : List Issue},
    xs.length = ys.length → angles (issueTable escape xs) = angles (issueTable escape ys)
  | [], [], _ => rfl
  | x :: xs, y :: ys, hlength => by
      simp only [issueTable, angles_append, angles_flatMap (angles_issueRow h) hlength]

theorem angles_banner (h : Inert escape) {s s' : Summary}
    (hscore : s.overallMatch = s'.overallMatch) :
    angles (banner escape s) = angles (banner escape s') := by
  simp only [banner, angles_append, angles_escape h, hscore]

theorem angles_cards (h : Inert escape) {s s' : Summary} (halike : s.Alike s') :
    angles (cards escape s) = angles (cards escape s') := by
  simp only [cards, angles_append, angles_card h "Variants" halike.variants halike.missingVariants,
    angles_card h "Spacing" halike.spacing halike.spacingIssues,
    angles_card h "Colors" halike.colors halike.colorIssues,
    angles_card h "Structure" halike.valid halike.errors]

/-- The markup of a page does not depend on the texts of its summary. -/
theorem angles_pageWith (h : Inert escape) {s s' : Summary} (halike : s.Alike s') :
    angles (pageWith escape s) = angles (pageWith escape s') := by
  simp only [pageWith, angles_append, angles_head h s.title s'.title,
    angles_banner h halike.overallMatch, angles_cards h halike,
    angles_recommendationList h halike.recommendations, angles_issueTable h halike.issues,
    halike.editable]

end

/-- No text of a summary adds to the markup of its page, or takes from it, however texts are
written, as long as they are written without angle brackets. -/
theorem angles_pageWith_withoutTexts {escape : String → Html}
    (hescape : ∀ text, '<' ∉ escape text ∧ '>' ∉ escape text) (s : Summary) :
    angles (pageWith escape s) = angles (pageWith escape s.withoutTexts) :=
  angles_pageWith hescape (alike_withoutTexts s)

/-- A summary whose texts are full of markup, one of each kind. -/
def scriptedSummary : Summary :=
  { title := "</title><script>alert(1)</script>"
    component := "Button <Primary>"
    sourcePath := "<img src=x onerror='alert(2)'>.tsx"
    generatedAt := "<time>"
    overallMatch := 75
    failedCategories := 2
    report :=
      { hasRequiredVariants := false
        hasCorrectSpacing := true
        hasThemeColors := false
        missingVariants := ["size: <sm>", "</div>"]
        spacingIssues := []
        colorIssues := ["<!-- #fff"]
        overallMatch := 75
        recommendations := ["Add missing `<b>` values: </li></ul>"] }
    issues :=
      [{ id := "\"><td>", kind := .variant, title := "<h1>", requirement := "<>", current := "]]>"
         suggestion := "</code>", options := ["<sm>", "</table>"], isIssue := true
         target := some (.variant "<b>" ["</li></ul>"]) }]
    editable := [⟨.height, "hover:h-9", some 36, ⟨1, 1, "<svg>"⟩⟩]
    check := ⟨false, ["missing `<cva>(` variant definition call"]⟩ }

theorem angles_pageWith_withoutTexts_scripted :
    (∀ text, '<' ∉ escaped text ∧ '>' ∉ escaped text) ∧
      angles scriptedSummary.page = angles scriptedSummary.withoutTexts.page :=
  ⟨inert_escaped, angles_pageWith_withoutTexts inert_escaped scriptedSummary⟩

end Summary

end DesignTokens
