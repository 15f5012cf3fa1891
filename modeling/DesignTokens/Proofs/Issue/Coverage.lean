import DesignTokens.Proofs.Compliance.SpacingLine
import DesignTokens.Proofs.Issue.Stable
import DesignTokens.Proofs.Text.Template

/-!
# What the list of all properties covers

All properties are the issues of a report and behind them the edits of the spec
that no issue covers. So each line of the spec that can have an entry has one,
its own edit or the issue that stands for it, and no edit is about what an issue
is about already (`covers_allProperties`). The spec and the report need not fit
together.

An edit is left out where an issue of its kind has its title or its subject.
Both are texts. Equal subjects are about the same thing because the kind tells
the form of a target (`covers_iff_alike`), and the titles of issues are no titles
of edits of the same kind, but for colors, where the title is all that is asked
for (`FindingShape`).
-/

namespace DesignTokens

open Text

/-! ## Entries about the same thing -/

/-- Two targets that stand for the same thing: literals up to ASCII case, a property, or a
dimension, whatever values it lacks. -/
inductive Target.SameSubject : Target → Target → Prop
  | color {a b : String} (h : sameFolded a b = true) : SameSubject (.color a) (.color b)
  | utility (p : Property) : SameSubject (.utility p) (.utility p)
  | variant (dimension : String) (values values' : List String) :
      SameSubject (.variant dimension values) (.variant dimension values')

/-- Two entries of one kind that have the same title or are about the same thing. -/
structure Issue.Alike (i c : Issue) : Prop where
  kind_eq : i.kind = c.kind
  same : i.title = c.title ∨
    ∃ s t, i.target = some s ∧ c.target = some t ∧ s.SameSubject t

/-- Each line of a spec that can have an entry has one in the list. -/
structure CoversSpec (spec : Spec) (entries : List Issue) : Prop where
  /-- A dimension has a variant entry that targets it. -/
  variants : ∀ x ∈ spec.variants, ∃ c ∈ entries, c.kind = .variant ∧
    ∃ values, c.target = some (.variant x.1 values)
  /-- A line that asks for a length has a spacing entry that targets its property. -/
  spacing : ∀ line ∈ spec.spacing, ∀ r, spacingRequirement? line = some r →
    ∃ c ∈ entries, c.kind = .spacing ∧ c.target = some (.utility r.property)
  /-- A line with a purpose and a value around its first colon has a color entry that is titled
  with the purpose or targets the value. -/
  colors : ∀ line ∈ spec.colors, ∀ purpose value, line.toList = purpose ++ ':' :: value →
    ':' ∉ purpose → trim purpose ≠ [] → trim value ≠ [] →
    ∃ c ∈ entries, c.kind = .color ∧
      (c.title = "Color `" ++ String.ofList (trim purpose) ++ "`" ∨
        ∃ literal, c.target = some (.color literal) ∧
          sameFolded literal (String.ofList (trim value)) = true)
  /-- A line on typography has a typography entry that asks for it. -/
  typography : ∀ line ∈ spec.typography, ∃ c ∈ entries, c.kind = .typography ∧
    c.requirement = trimmed line

/-- The entries are the issues with edits behind them, and no edit is about what one of the issues
is about. -/
def AddsEdits (issues entries : List Issue) : Prop :=
  (∀ i ∈ issues, i.isIssue = true) ∧
    ∃ edits, entries = issues ++ edits ∧
      ∀ c ∈ edits, c.isIssue = false ∧ ∀ i ∈ issues, ¬i.Alike c

/-! ## Titles and subjects -/

/-- The forms of target that entries of a kind have. -/
inductive Target.Fits : IssueKind → Target → Prop
  | color (literal : String) : Fits .color (.color literal)
  | spacing (p : Property) : Fits .spacing (.utility p)
  | variant (dimension : String) (values : List String) : Fits .variant (.variant dimension values)
  | typography (p : Property) : Fits .typography (.utility p)

namespace Issue

/-- The target of the entry has a form that its kind has. -/
def Fits (i : Issue) : Prop := ∀ t, i.target = some t → t.Fits i.kind

theorem covers_iff {i c : Issue} : i.covers c = true ↔
    i.kind = c.kind ∧ (i.title = c.title ∨ ∃ s, i.subject? = some s ∧ c.subject? = some s) := by
  rw [covers, Bool.and_eq_true, decide_eq_true_iff, Bool.or_eq_true, decide_eq_true_iff]
  refine and_congr_right fun _ => or_congr_right ?_
  cases i.subject? <;> cases c.subject? <;> simp [eq_comm]

/-- An entry about the same thing as an issue is one that the issue covers. -/
theorem Alike.covers {i c : Issue} (h : i.Alike c) : i.covers c = true := by
  refine covers_iff.mpr ⟨h.kind_eq, h.same.imp_right ?_⟩
  rintro ⟨s, t, hs, ht, hst⟩
  rw [subject?, subject?, hs, ht]
  cases hst with
  | color hfold => exact ⟨_, rfl, congrArg (some ∘ String.ofList) (of_decide_eq_true hfold).symm⟩
  | utility p => exact ⟨_, rfl, rfl⟩
  | variant dimension values values' => exact ⟨_, rfl, rfl⟩

/-- Entries are covered by what is about the same thing, and by nothing else. -/
theorem covers_iff_alike {i c : Issue} (hi : i.Fits) (hc : c.Fits) :
    i.covers c = true ↔ i.Alike c := by
  refine ⟨fun h => ?_, Alike.covers⟩
  obtain ⟨hkind, hsame⟩ := covers_iff.mp h
  refine ⟨hkind, hsame.imp_right ?_⟩
  rintro ⟨a, ha, ha'⟩
  obtain ⟨s, hs, hsa⟩ := Option.map_eq_some_iff.mp ha
  obtain ⟨t, ht, hta⟩ := Option.map_eq_some_iff.mp ha'
  have hfits := hi s hs
  rw [hkind] at hfits
  have hfits' := hc t ht
  refine ⟨s, t, hs, ht, ?_⟩
  have heq := hsa.trans hta.symm
  generalize c.kind = kind at hfits hfits'
  cases hfits <;> cases hfits'
  case color => exact .color (decide_eq_true (String.ofList_inj.mp heq))
  case variant =>
    obtain rfl := heq
    exact .variant _ _ _
  all_goals
    obtain rfl := name_inj heq
    exact .utility _

/-- The kind, the title and the target of an issue that a finding makes. -/
inductive FindingShape : IssueKind → String → Option Target → Prop
  | variant (dimension : String) (values : List String) :
      FindingShape .variant ("Missing `" ++ dimension ++ "` variant values")
        (some (.variant dimension values))
  | spacing (p : Property) :
      FindingShape .spacing ("Spacing `" ++ p.name ++ "`") (some (.utility p))
  | themeColors : FindingShape .color "Theme color tokens" none
  | literalColor (literal : String) :
      FindingShape .color ("Hardcoded color `" ++ literal ++ "`") (some (.color literal))

namespace FindingShape

theorem fits {i : Issue} (h : FindingShape i.kind i.title i.target) : i.Fits := by
  intro t ht
  generalize i.kind = kind, i.title = title at h
  rw [ht] at h
  cases h <;> constructor

variable {kind : IssueKind} {title : String} {target : Option Target}

theorem of_variant (h : FindingShape kind title target) (hkind : kind = .variant) :
    ∃ dimension, title = "Missing `" ++ dimension ++ "` variant values" := by
  cases h with
  | variant dimension values => exact ⟨dimension, rfl⟩
  | _ => cases hkind

theorem of_spacing (h : FindingShape kind title target) (hkind : kind = .spacing) :
    ∃ p : Property, title = "Spacing `" ++ p.name ++ "`" := by
  cases h with
  | spacing p => exact ⟨p, rfl⟩
  | _ => cases hkind

theorem kind_ne (h : FindingShape kind title target) : kind ≠ .typography := by
  cases h <;> exact IssueKind.noConfusion

end FindingShape

end Issue

namespace ExtractionInput

open Issue

variable {e : ExtractionInput} {digestOf : Issue → String}

theorem shape_of_mem_ofFinding {f : Finding} {i : Issue} (hi : i ∈ e.ofFinding f) :
    FindingShape i.kind i.title i.target ∧ i.isIssue = true := by
  cases f with
  | missingValues dimension values =>
      obtain rfl := List.mem_singleton.mp hi
      exact ⟨.variant dimension values, rfl⟩
  | spacing p first others wording =>
      obtain rfl := List.mem_singleton.mp hi
      exact ⟨.spacing p, rfl⟩
  | themeColors =>
      obtain rfl := List.mem_singleton.mp hi
      exact ⟨.themeColors, rfl⟩
  | literalColors literals =>
      obtain ⟨literal, -, rfl⟩ := List.mem_map.mp hi
      exact ⟨.literalColor literal, rfl⟩

theorem shape_of_mem_issuesBy {i : Issue} (hi : i ∈ e.issuesBy digestOf) :
    FindingShape i.kind i.title i.target ∧ i.isIssue = true := by
  obtain ⟨j, hj, id, rfl⟩ := exists_of_mem_assignIds hi
  obtain ⟨f, -, hj⟩ := List.mem_flatMap.mp hj
  have hshape := shape_of_mem_ofFinding hj
  exact hshape

theorem fits_of_mem_edits {c : Issue} (hc : c ∈ e.edits) : c.Fits ∧ c.isIssue = false := by
  simp only [edits, List.mem_append, List.mem_map, List.mem_filterMap] at hc
  rcases hc with ((⟨x, -, rfl⟩ | ⟨line, -, hedit⟩) | ⟨line, -, hedit⟩) | ⟨line, -, rfl⟩
  · refine ⟨?_, rfl⟩
    rintro t ⟨⟩
    exact .variant x.1 x.2
  · obtain ⟨r, -, rfl⟩ := Option.map_eq_some_iff.mp hedit
    refine ⟨?_, rfl⟩
    rintro t ⟨⟩
    exact .spacing r.property
  · obtain ⟨⟨purpose, value⟩, -, rfl⟩ := Option.map_eq_some_iff.mp hedit
    refine ⟨fun t ht => ?_, rfl⟩
    obtain ⟨-, ht⟩ := Option.ite_none_right_eq_some.mp ht
    obtain rfl := Option.some.inj ht
    exact .color value
  · rw [typographyEdit]
    cases typography? line with
    | none =>
        refine ⟨?_, rfl⟩
        rintro t ⟨⟩
    | some p =>
        refine ⟨?_, rfl⟩
        rintro t ⟨⟩
        exact .typography p.1

/-! ## Edits and the issues that stand for them -/

/-- An edit is in the list, up to its id, unless an issue in the list is about the same thing. -/
theorem exists_of_mem_edits (digestOf : Issue → String) {c : Issue} (hc : c ∈ e.edits) :
    (∃ id, { c with id := id } ∈ e.allPropertiesBy digestOf) ∨
      ∃ i ∈ e.issuesBy digestOf, i.Alike c ∧
        ∃ id, { i with id := id } ∈ e.allPropertiesBy digestOf := by
  by_cases hcovered : ∃ i ∈ e.issuesBy digestOf, i.covers c = true
  · obtain ⟨i, hi, hcovers⟩ := hcovered
    have halike := (covers_iff_alike (shape_of_mem_issuesBy hi).1.fits (fits_of_mem_edits hc).1).mp
      hcovers
    exact .inr ⟨i, hi, halike, exists_mem_assignIds (List.mem_append_left _ hi)⟩
  · refine .inl (exists_mem_assignIds (List.mem_append_right _ (List.mem_filter.mpr ⟨hc, ?_⟩)))
    rw [Bool.not_eq_true', ← Bool.not_eq_true, List.any_eq_true]
    exact hcovered

theorem exists_variant_entry {x : String × List String} (hx : x ∈ e.spec.variants) :
    ∃ c ∈ e.allPropertiesBy digestOf, c.kind = .variant ∧
      ∃ values, c.target = some (.variant x.1 values) := by
  have hc : e.dimensionEdit x ∈ e.edits := by
    simp only [edits, List.mem_append]
    exact .inl (.inl (.inl (List.mem_map_of_mem hx)))
  obtain ⟨id, hid⟩ | ⟨i, hi, halike, id, hid⟩ := exists_of_mem_edits digestOf hc
  · exact ⟨_, hid, rfl, x.2, rfl⟩
  · refine ⟨_, hid, halike.kind_eq, ?_⟩
    rcases halike.same with htitle | ⟨s, t, hs, ht, hst⟩
    · -- the titles start with different letters
      obtain ⟨dimension, htitle'⟩ := (shape_of_mem_issuesBy hi).1.of_variant halike.kind_eq
      have hhead := congrArg (·.toList.head?) (htitle'.symm.trans htitle)
      simp [dimensionEdit, String.toList_append] at hhead
    · obtain rfl : .variant x.1 x.2 = t := Option.some.inj ht
      cases hst with
      | variant _ values => exact ⟨values, hs⟩

theorem exists_spacing_entry {line : String} (hline : line ∈ e.spec.spacing)
    {r : SpacingRequirement} (hr : spacingRequirement? line = some r) :
    ∃ c ∈ e.allPropertiesBy digestOf, c.kind = .spacing ∧
      c.target = some (.utility r.property) := by
  obtain ⟨c, hedit, hkind, htitle, htarget⟩ : ∃ c, e.spacingEdit? line = some c ∧
      c.kind = .spacing ∧ c.title = "Spacing `" ++ r.property.name ++ "` (" ++ r.name ++ ")" ∧
        c.target = some (.utility r.property) := by
    rw [spacingEdit?, hr]
    exact ⟨_, rfl, rfl, rfl, rfl⟩
  have hc : c ∈ e.edits := by
    simp only [edits, List.mem_append]
    exact .inl (.inl (.inr (List.mem_filterMap.mpr ⟨line, hline, hedit⟩)))
  obtain ⟨id, hid⟩ | ⟨i, hi, halike, id, hid⟩ := exists_of_mem_edits digestOf hc
  · exact ⟨_, hid, hkind, htarget⟩
  · have hkind' := halike.kind_eq.trans hkind
    refine ⟨_, hid, hkind', ?_⟩
    rcases halike.same with hsame | ⟨s, t, hs, ht, hst⟩
    · -- the titles end in different marks
      obtain ⟨p, htitle'⟩ := (shape_of_mem_issuesBy hi).1.of_spacing hkind'
      rw [htitle, htitle'] at hsame
      have hlast := congrArg (·.toList.getLast?) hsame
      simp [String.toList_append, List.getLast?_cons, List.getLast?_append] at hlast
    · obtain rfl : .utility r.property = t := Option.some.inj (htarget.symm.trans ht)
      cases hst with
      | utility => exact hs

theorem exists_color_entry {line : String} (hline : line ∈ e.spec.colors)
    {purpose value : List Char} (hcolon : line.toList = purpose ++ ':' :: value)
    (hfirst : ':' ∉ purpose) (hpurpose : trim purpose ≠ []) (hvalue : trim value ≠ []) :
    ∃ c ∈ e.allPropertiesBy digestOf, c.kind = .color ∧
      (c.title = "Color `" ++ String.ofList (trim purpose) ++ "`" ∨
        ∃ literal, c.target = some (.color literal) ∧
          sameFolded literal (String.ofList (trim value)) = true) := by
  have hread : colorLine? line
      = some (String.ofList (trim purpose), String.ofList (trim value)) := by
    have hcut := cut?_eq_some_iff.mpr ⟨hcolon, hfirst⟩
    simp [colorLine?, hcut, hpurpose, hvalue]
  obtain ⟨c, hedit, hkind, htitle, htarget⟩ : ∃ c, e.colorEdit? line = some c ∧
      c.kind = .color ∧ c.title = "Color `" ++ String.ofList (trim purpose) ++ "`" ∧
        ∀ t, c.target = some t → t = .color (String.ofList (trim value)) := by
    rw [colorEdit?, hread]
    refine ⟨_, rfl, rfl, rfl, fun t ht => ?_⟩
    exact (Option.some.inj (Option.ite_none_right_eq_some.mp ht).2).symm
  have hc : c ∈ e.edits := by
    simp only [edits, List.mem_append]
    exact .inl (.inr (List.mem_filterMap.mpr ⟨line, hline, hedit⟩))
  obtain ⟨id, hid⟩ | ⟨i, hi, halike, id, hid⟩ := exists_of_mem_edits digestOf hc
  · exact ⟨_, hid, hkind, .inl htitle⟩
  · refine ⟨_, hid, halike.kind_eq.trans hkind, ?_⟩
    rcases halike.same with hsame | ⟨s, t, hs, ht, hst⟩
    · exact .inl (hsame.trans htitle)
    · obtain rfl := htarget t ht
      cases hst with
      | color hfold => exact .inr ⟨_, hs, hfold⟩

theorem exists_typography_entry {line : String} (hline : line ∈ e.spec.typography) :
    ∃ c ∈ e.allPropertiesBy digestOf, c.kind = .typography ∧ c.requirement = trimmed line := by
  have hc : e.typographyEdit line ∈ e.edits := by
    simp only [edits, List.mem_append]
    exact .inr (List.mem_map_of_mem hline)
  have hedit : (e.typographyEdit line).kind = .typography ∧
      (e.typographyEdit line).requirement = trimmed line := by
    rw [typographyEdit]
    cases typography? line <;> exact ⟨rfl, rfl⟩
  obtain ⟨id, hid⟩ | ⟨i, hi, halike, -⟩ := exists_of_mem_edits digestOf hc
  · exact ⟨_, hid, hedit⟩
  · exact absurd (halike.kind_eq.trans hedit.1) (shape_of_mem_issuesBy hi).1.kind_ne

/-- An entry for each line of the spec, made or found. -/
theorem coversSpec_allPropertiesBy : CoversSpec e.spec (e.allPropertiesBy digestOf) where
  variants _ hx := exists_variant_entry hx
  spacing _ hline _ hr := exists_spacing_entry hline hr
  colors _ hline _ _ := exists_color_entry hline
  typography _ hline := exists_typography_entry hline

/-! ## Edits beside the issues -/

theorem addsEdits_allProperties (e : ExtractionInput) : AddsEdits e.issues e.allProperties := by
  have hbare : ∀ i : Issue, digest i.bare = digest i := fun _ => rfl
  -- behind the issues stand the edits that none of them covers
  obtain ⟨used, heq⟩ := exists_assignIds_append hbare e.derived (e.uncoveredEdits e.issues)
  refine ⟨fun i hi => (shape_of_mem_issuesBy hi).2, _, heq, fun c hc => ?_⟩
  obtain ⟨c', hc', n, -, rfl⟩ := exists_of_mem_assignIdsAfter hc
  obtain ⟨hedit, hfree⟩ := List.mem_filter.mp hc'
  have hnone : ¬∃ i ∈ e.issues, i.covers c' = true := by
    rwa [Bool.not_eq_true', ← Bool.not_eq_true, List.any_eq_true] at hfree
  have hisIssue := (fits_of_mem_edits hedit).2
  exact ⟨hisIssue, fun i hi halike => hnone ⟨i, hi, halike.covers⟩⟩

end ExtractionInput

/-- All properties cover the spec, and no edit among them is about what an issue is about. -/
theorem covers_allProperties (spec : Spec) (report : Report) (policy : Policy)
    (source : Option (List Char)) :
    CoversSpec spec (⟨spec, report, policy, source⟩ : ExtractionInput).allProperties ∧
      AddsEdits (⟨spec, report, policy, source⟩ : ExtractionInput).issues
        (⟨spec, report, policy, source⟩ : ExtractionInput).allProperties :=
  ⟨ExtractionInput.coversSpec_allPropertiesBy (e := ⟨spec, report, policy, source⟩),
    ExtractionInput.addsEdits_allProperties _⟩

end DesignTokens
