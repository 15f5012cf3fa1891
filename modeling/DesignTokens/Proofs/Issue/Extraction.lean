import DesignTokens.Issue.Extraction
import DesignTokens.MappingSet
import DesignTokens.Proofs.Compliance.Report
import DesignTokens.Proofs.Compliance.SpacingLine
import DesignTokens.Proofs.Issue.Finding
import DesignTokens.Proofs.Issue.Ids
import DesignTokens.Proofs.Rewrite.Color

/-!
# Issues and what they come from

An issue of a validated source comes from a finding, and the finding from a
sentence of the report, and so from one of the validator's findings
(`exists_of_mem_issues`); for each kind of issue one lemma says which. As every
issue has an id of its own, choosing some of them adds just their mappings
(`ofSelection_issues`).
-/

namespace DesignTokens

open Text Finding Rewrite

/-! ## Choosing issues -/

namespace ExtractionInput

theorem find?_issues {e : ExtractionInput} {i : Issue} (hi : i ∈ e.issues) :
    e.issues.find? (fun j => j.id = i.id) = some i :=
  Issue.find?_id (Issue.pairwise_id_assignIds Issue.dash_not_mem_digest e.derived) hi

theorem addChoices_issues {e : ExtractionInput} : ∀ {is : List Issue} {seen : List String}
    {m : MappingSet} (choice : Issue → String), (∀ i ∈ is, i ∈ e.issues) →
      is.Pairwise (fun i j => i.id ≠ j.id) → (∀ i ∈ is, i.id ∉ seen) →
      MappingSet.addChoices e.issues seen m (is.map fun i => (i.id, choice i))
        = .ok (is.foldl (fun m i => m.addChoice i (choice i)) m)
  | [], _, _, _, _, _, _ => rfl
  | i :: is, seen, m, choice, hmem, hids, hseen => by
      obtain ⟨hi, his⟩ := List.forall_mem_cons.mp hmem
      obtain ⟨hfirst, hlater⟩ := List.pairwise_cons.mp hids
      have hnew : ∀ j ∈ is, j.id ∉ i.id :: seen := by
        intro j hj hid
        rcases List.mem_cons.mp hid with hid | hid
        · exact hfirst j hj hid.symm
        · exact hseen j (List.mem_cons_of_mem i hj) hid
      have hfree : seen.contains i.id = false := by
        simpa using hseen i (List.mem_cons_self ..)
      rw [List.map_cons, MappingSet.addChoices, find?_issues hi]
      simp only [hfree, Bool.false_eq_true, if_false]
      exact addChoices_issues choice his hlater hnew

/-- Choosing some issues adds their mappings one after the other, and no others. -/
theorem ofSelection_issues {e : ExtractionInput} {is : List Issue} (h : is.Sublist e.issues)
    (choice : Issue → String) :
    MappingSet.ofSelection e.issues (is.map fun i => (i.id, choice i))
      = .ok (is.foldl (fun m i => m.addChoice i (choice i)) {}) :=
  addChoices_issues choice (fun _ hi => h.subset hi)
    ((Issue.pairwise_id_assignIds Issue.dash_not_mem_digest e.derived).sublist h) (by simp)

theorem ofSelection_issue {e : ExtractionInput} {i : Issue} (hi : i ∈ e.issues) (choice : String) :
    MappingSet.ofSelection e.issues [(i.id, choice)]
      = .ok (({} : MappingSet).addChoice i choice) :=
  ofSelection_issues (List.singleton_sublist.mpr hi) fun _ => choice

end ExtractionInput

/-! ## Findings of a validated source -/

section

variable {source : List Char} {spec : Spec} {policy : Policy}

/-- What the validator gives advice on. -/
inductive Advised (source : List Char) (spec : Spec) (policy : Policy) : Advice → Prop
  | missing (g : VariantGap) (hg : g ∈ variantGaps source spec policy) :
      Advised source spec policy g.advice
  | spacing (g : SpacingGroup) (hg : g ∈ spacingGaps source spec) :
      Advised source spec policy (.spacing g.1 g.2)
  | literals (hne : literalColors source ≠ []) :
      Advised source spec policy (.literalColors (literalColors source))
  | theme (hnone : policy.colorReference? source = none) :
      Advised source spec policy (.themeColorsOf policy)

/-- The advice on a gap of a dimension asks for the values that the source lacks, at least. -/
theorem exists_of_variantGap {x : String × List String} {g : VariantGap}
    (h : variantGap? source policy x = some g) :
    ∃ asked, g.advice = .missingValues x.1 asked ∧
      ∀ v ∈ x.2, policy.isGenericValue v = false → namesWord source v = false → v ∈ asked := by
  obtain ⟨-, hnone⟩ | ⟨-, g', hgap, -, hadvice⟩ := variantGap?_cases source policy x
  · rw [hnone] at h
    cases h
  · obtain rfl := Option.some.inj (hgap.symm.trans h)
    exact ⟨_, hadvice, fun v hv hgeneric hlacks => mem_askedValues hv hgeneric hlacks⟩

theorem exists_advised {s : String} (h : s ∈ (validate source spec policy).recommendations) :
    ∃ a, Advised source spec policy a ∧ s = a.text := by
  obtain ⟨a, ha, rfl⟩ := List.mem_map.mp h
  refine ⟨a, ?_, rfl⟩
  rcases List.mem_append.mp ha with ha | ha
  · rcases List.mem_append.mp ha with ha | ha
    · rcases List.mem_append.mp ha with ha | ha
      · obtain ⟨g, hg, rfl⟩ := List.mem_map.mp ha
        exact .missing g hg
      · obtain ⟨g, hg, rfl⟩ := List.mem_map.mp ha
        exact .spacing g hg
    · split at ha
      case isTrue => cases ha
      case isFalse hne =>
        obtain rfl := List.mem_singleton.mp ha
        exact .literals (by simpa using hne)
  · split at ha
    case isTrue => cases ha
    case isFalse hnone =>
      obtain rfl := List.mem_singleton.mp ha
      exact .theme (by simpa using hnone)

end

namespace ExtractionInput

/-- The input of an extraction whose report is the validator's. -/
def ofValidated (source : List Char) (spec : Spec) (policy : Policy) (shown : Option (List Char)) :
    ExtractionInput :=
  ⟨spec, validate source spec policy, policy, shown⟩

variable {source : List Char} {spec : Spec} {policy : Policy} {shown : Option (List Char)}

/-- An issue of a validated source is made of a finding that some advice of the validator is read
back as. -/
theorem exists_of_mem_issues {i : Issue}
    (hi : i ∈ (ofValidated source spec policy shown).issues) :
    ∃ a f j id, Advised source spec policy a ∧ Finding.read? a.text = some f ∧
      j ∈ (ofValidated source spec policy shown).ofFinding f ∧ i = { j with id := id } := by
  obtain ⟨j, hj, id, rfl⟩ := Issue.exists_of_mem_assignIds hi
  obtain ⟨f, hf, hj⟩ := List.mem_flatMap.mp hj
  obtain ⟨s, hs, hread⟩ := List.mem_filterMap.mp hf
  obtain ⟨a, ha, rfl⟩ := exists_advised hs
  exact ⟨a, f, j, id, ha, hread, hj, rfl⟩

/-- A spacing issue suggests the token of a length that a group of the spec asks for and the source
does not satisfy. -/
theorem exists_of_spacing_issue {i : Issue}
    (hi : i ∈ (ofValidated source spec policy shown).issues) (hkind : i.kind = .spacing) :
    ∃ p n pixels, (p, n :: pixels) ∈ spacingGaps source spec ∧
      i.target = some (.utility p) ∧ i.suggestion = p.token n := by
  obtain ⟨a, f, j, id, ha, hread, hj, rfl⟩ := exists_of_mem_issues hi
  cases ha with
  | missing g =>
      cases g <;> obtain ⟨d, vs, rfl⟩ := hasForm_of_read hread
      all_goals
        obtain rfl := List.mem_singleton.mp hj
        cases hkind
  | spacing g hg =>
      obtain ⟨p, values⟩ := g
      have hwell := wellGrouped_spacingGroups spec.spacing
      have hmem := (List.mem_filter.mp hg).1
      obtain ⟨n, pixels, rfl⟩ := List.exists_cons_of_ne_nil (hwell.ne_nil _ hmem)
      obtain ⟨others, hback, -⟩ := Finding.exists_read_spacing p (hwell.bounded _ hmem)
      obtain rfl := Option.some.inj (hback.symm.trans hread)
      obtain rfl := List.mem_singleton.mp hj
      exact ⟨p, n, pixels, hg, rfl, rfl⟩
  | literals =>
      obtain ⟨literals, rfl⟩ := hasForm_of_read hread
      obtain ⟨l, -, rfl⟩ := List.mem_map.mp hj
      cases hkind
  | theme =>
      obtain rfl := hasForm_of_read hread
      obtain rfl := List.mem_singleton.mp hj
      cases hkind

theorem read?_literals (hne : literalColors source ≠ []) :
    read? (Advice.literalColors (literalColors source)).text
      = some (.literalColors (literalColors source)) := by
  refine read?_text_literalColors hne fun l hl => ?_
  obtain ⟨ds, hds, -, -, hhex⟩ := (mem_literalColors_iff.mp hl).1
  refine ⟨fun hempty => ?_, fun c hc => ?_⟩
  · rw [hempty] at hds
    cases hds
  · rw [hds] at hc
    rcases List.mem_cons.mp hc with rfl | hc
    · decide
    · have hword := isWord_of_isHexDigit (hhex c hc)
      exact ⟨isWhiteSpace_of_isWord hword, fun h => absurd (h ▸ hword) (by decide)⟩

/-- A color issue with a target suggests a token for a color that is written out. -/
theorem exists_of_color_issue {i : Issue}
    (hi : i ∈ (ofValidated source spec policy shown).issues) (hkind : i.kind = .color)
    (htarget : i.target ≠ none) :
    ∃ l ∈ literalColors source, i.target = some (.color l) ∧
      i.suggestion = ((ofValidated source spec policy shown).literalColorIssue l).suggestion := by
  obtain ⟨a, f, j, id, ha, hread, hj, rfl⟩ := exists_of_mem_issues hi
  cases ha with
  | missing g =>
      cases g <;> obtain ⟨d, vs, rfl⟩ := hasForm_of_read hread
      all_goals
        obtain rfl := List.mem_singleton.mp hj
        cases hkind
  | spacing g =>
      obtain ⟨p, n, others, wording, rfl⟩ := hasForm_of_read hread
      obtain rfl := List.mem_singleton.mp hj
      cases hkind
  | literals hne =>
      obtain rfl := Option.some.inj ((read?_literals hne).symm.trans hread)
      obtain ⟨l, hl, rfl⟩ := List.mem_map.mp hj
      exact ⟨l, hl, rfl, rfl⟩
  | theme =>
      obtain rfl := hasForm_of_read hread
      obtain rfl := List.mem_singleton.mp hj
      exact absurd rfl htarget

/-- Every color that is written out has a color issue. -/
theorem exists_color_issue {l : String} (hl : l ∈ literalColors source) :
    ∃ i ∈ (ofValidated source spec policy shown).issues, i.kind = .color ∧
      i.target = some (.color l) := by
  have hne : literalColors source ≠ [] := List.ne_nil_of_mem hl
  have hadvice : (Advice.literalColors (literalColors source)).text
      ∈ (validate source spec policy).recommendations := by
    refine List.mem_map_of_mem (List.mem_append_left _ (List.mem_append_right _ ?_))
    rw [if_neg (by simpa using hne)]
    exact List.mem_singleton_self _
  have hderived : (ofValidated source spec policy shown).literalColorIssue l
      ∈ (ofValidated source spec policy shown).derived :=
    List.mem_flatMap.mpr ⟨_, List.mem_filterMap.mpr ⟨_, hadvice, read?_literals hne⟩,
      List.mem_map_of_mem hl⟩
  obtain ⟨id, hid⟩ : ∃ id, { (ofValidated source spec policy shown).literalColorIssue l with id }
      ∈ (ofValidated source spec policy shown).issues := Issue.exists_mem_assignIds hderived
  exact ⟨_, hid, rfl, rfl⟩

/-- A variant issue names a dimension of the spec and all the values that the source lacks, but for
those with a comma, unless the name of the dimension is cut when it is read back. -/
theorem exists_of_variant_issue {i : Issue}
    (hi : i ∈ (ofValidated source spec policy shown).issues) (hkind : i.kind = .variant) :
    ∃ x ∈ spec.variants, ∃ dimension values, i.target = some (.variant dimension values) ∧
      ((dimension ++ "` values:").toList <+: x.1.toList ∨ dimension = x.1 ∧
        ∀ v ∈ x.2, policy.isGenericValue v = false → namesWord source v = false →
          ',' ∉ v.toList → trimmed v ≠ "" → trimmed v ∈ values) := by
  obtain ⟨a, f, j, id, ha, hread, hj, rfl⟩ := exists_of_mem_issues hi
  cases ha with
  | missing g hg =>
      obtain ⟨x, hx, hgap⟩ := List.mem_filterMap.mp hg
      obtain ⟨asked, hadvice, hasked⟩ := exists_of_variantGap hgap
      rw [hadvice] at hread
      obtain ⟨dimension, values, rfl, hvalues⟩ := exists_of_read_missingValues hread
      obtain rfl := List.mem_singleton.mp hj
      refine ⟨x, hx, dimension, values, rfl, hvalues.imp_right ?_⟩
      exact fun ⟨hname, hvalues⟩ =>
        ⟨hname, fun v hv hgeneric hlacks => hvalues v (hasked v hv hgeneric hlacks)⟩
  | spacing g =>
      obtain ⟨p, n, others, wording, rfl⟩ := hasForm_of_read hread
      obtain rfl := List.mem_singleton.mp hj
      cases hkind
  | literals hne =>
      obtain ⟨literals, rfl⟩ := hasForm_of_read hread
      obtain ⟨l, -, rfl⟩ := List.mem_map.mp hj
      cases hkind
  | theme =>
      obtain rfl := hasForm_of_read hread
      obtain rfl := List.mem_singleton.mp hj
      cases hkind

end ExtractionInput

end DesignTokens
