import Mathlib.Data.List.TFAE
import Mathlib.Tactic.TFAE
import DesignTokens.Compliance.Validation
import DesignTokens.Proofs.Compliance.Score

/-!
# Reports agree with themselves

A report says the same thing several times: as flags, as lists of findings, as a
score and as advice. `coherent_validate` says that these agree, and how many
sentences of advice there are. A dimension gives one, however much of it is
missing (`Lacking`); a spacing finding gives one of its own; the colors that are
written out share one.
-/

namespace DesignTokens

open Text

section

variable {source : List Char} {policy : Policy}

/-! ## Dimensions with something missing -/

/-- The values of a dimension that are asked for. -/
def requiredValues (policy : Policy) (values : List String) : List String :=
  values.filter fun v => !policy.isGenericValue v

/-- The required values that the source does not have. -/
def absentValues (source : List Char) (policy : Policy) (values : List String) : List String :=
  (requiredValues policy values).filter fun v => !namesWord source v

/-- The values of a dimension that the advice on it asks for: all that are required where the
source does not have the dimension, and else those that it does not have. -/
def askedValues (source : List Char) (policy : Policy) (x : String × List String) : List String :=
  if namesWord source x.1 then absentValues source policy x.2 else requiredValues policy x.2

/-- A dimension is asked for, and the source has not got it or one of its required values. -/
def Lacking (source : List Char) (policy : Policy) (x : String × List String) : Prop :=
  policy.isInteractionDimension x.1 = false ∧
    (namesWord source x.1 = false ∨ ∃ v ∈ requiredValues policy x.2, namesWord source v = false)

instance (source : List Char) (policy : Policy) : DecidablePred (Lacking source policy) :=
  fun _ => inferInstanceAs (Decidable (_ ∧ (_ ∨ _)))

theorem absentValues_ne_nil_iff {values : List String} :
    absentValues source policy values ≠ [] ↔
      ∃ v ∈ requiredValues policy values, namesWord source v = false := by
  simp [absentValues, List.filter_eq_nil_iff]

theorem mem_askedValues {x : String × List String} {v : String} (hv : v ∈ x.2)
    (hgeneric : policy.isGenericValue v = false) (hlacks : namesWord source v = false) :
    v ∈ askedValues source policy x := by
  have hrequired : v ∈ requiredValues policy x.2 :=
    List.mem_filter.mpr ⟨hv, by rw [hgeneric]; rfl⟩
  rw [askedValues]
  split
  case isTrue => exact List.mem_filter.mpr ⟨hrequired, by rw [hlacks]; rfl⟩
  case isFalse => exact hrequired

/-- A dimension has a gap just if it is lacking. The gap has entries in the list of missing
variants, and its advice names the dimension and the values asked for. -/
theorem variantGap?_cases (source : List Char) (policy : Policy) (x : String × List String) :
    ¬Lacking source policy x ∧ variantGap? source policy x = none ∨
      Lacking source policy x ∧ ∃ g, variantGap? source policy x = some g ∧ g.missing ≠ [] ∧
        g.advice = .missingValues x.1 (askedValues source policy x) := by
  have hgap : variantGap? source policy x =
      if policy.isInteractionDimension x.1 then none
      else if !namesWord source x.1 then some (.dimension x.1 (requiredValues policy x.2))
      else if (absentValues source policy x.2).isEmpty then none
      else some (.values x.1 (absentValues source policy x.2)) := rfl
  rw [hgap, Lacking, askedValues, ← absentValues_ne_nil_iff]
  cases policy.isInteractionDimension x.1 with
  | true => exact .inl ⟨by simp, rfl⟩
  | false =>
      cases namesWord source x.1 with
      | false => exact .inr ⟨by simp, _, rfl, List.cons_ne_nil _ _, rfl⟩
      | true =>
          by_cases h : absentValues source policy x.2 = []
          · exact .inl ⟨by simp [h], by simp [h]⟩
          · refine .inr ⟨⟨rfl, .inr h⟩, .values x.1 (absentValues source policy x.2), by simp [h],
              ?_, rfl⟩
            simpa [VariantGap.missing] using h

end

/-! ## The parts of a report -/

section

variable (source : List Char) (spec : Spec) (policy : Policy)

/-- A dimension that is lacking gives one sentence of advice. -/
theorem length_variantGaps :
    (variantGaps source spec policy).length
      = spec.variants.countP fun x => Lacking source policy x := by
  rw [variantGaps, List.length_filterMap_eq_countP]
  refine List.countP_congr fun x _ => ?_
  obtain ⟨hlacking, hgap⟩ | ⟨hlacking, g, hgap, -⟩ := variantGap?_cases source policy x
  · simp [hlacking, hgap]
  · simp [hlacking, hgap]

theorem missingVariants_eq_nil_iff :
    (validate source spec policy).missingVariants = [] ↔
      spec.variants.countP (fun x => Lacking source policy x) = 0 := by
  have hmissing : ∀ g ∈ variantGaps source spec policy, g.missing ≠ [] := by
    intro g hg
    obtain ⟨x, -, hgap⟩ := List.mem_filterMap.mp hg
    obtain ⟨-, hnone⟩ | ⟨-, g', hgap', hne, -⟩ := variantGap?_cases source policy x
    · rw [hnone] at hgap
      cases hgap
    · obtain rfl := Option.some.inj (hgap'.symm.trans hgap)
      exact hne
  change (variantGaps source spec policy).flatMap VariantGap.missing = [] ↔ _
  rw [List.flatMap_eq_nil_iff, ← length_variantGaps source spec, List.length_eq_zero_iff,
    List.eq_nil_iff_forall_not_mem]
  exact ⟨fun h g hg => hmissing g hg (h g hg), fun h g hg => absurd hg (h g)⟩

theorem colorIssues_eq_nil_iff :
    (validate source spec policy).colorIssues = [] ↔
      literalColors source = [] ∧ policy.colorReference? source ≠ none := by
  cases hreference : policy.colorReference? source with
  | none => simp [validate, hreference]
  | some r => simp [validate, hreference]

theorem overallMatch_validate :
    (validate source spec policy).overallMatch
      = score ⟨(validate source spec policy).missingVariants.length,
        (validate source spec policy).spacingIssues.length,
        (validate source spec policy).colorIssues.length, holdsSpacingToken source⟩ := rfl

theorem length_recommendations :
    (validate source spec policy).recommendations.length
      = spec.variants.countP (fun x => Lacking source policy x)
        + (validate source spec policy).spacingIssues.length
        + (if literalColors source = [] then 0 else 1)
        + if policy.colorReference? source = none then 1 else 0 := by
  rw [← length_variantGaps]
  simp only [validate, List.length_map, List.length_append, List.isEmpty_iff,
    ← Option.not_isSome_iff_eq_none]
  split <;> split <;> simp_all

end

/-! ## What agrees in a report -/

theorem Report.failedCategories_eq_zero_iff {r : Report} :
    r.failedCategories = 0 ↔
      r.hasRequiredVariants = true ∧ r.hasCorrectSpacing = true ∧ r.hasThemeColors = true := by
  rw [failedCategories, List.countP_eq_zero]
  simp

/-- The flags, the score and the advice of a report on a source agree with its findings. -/
structure Report.Coherent (source : List Char) (spec : Spec) (policy : Policy) (r : Report) :
    Prop where
  variants_iff : r.hasRequiredVariants = true ↔ r.missingVariants = []
  spacing_iff : r.hasCorrectSpacing = true ↔ r.spacingIssues = []
  colors_iff : r.hasThemeColors = true ↔ r.colorIssues = []
  score_eq : r.overallMatch = score ⟨r.missingVariants.length, r.spacingIssues.length,
    r.colorIssues.length, holdsSpacingToken source⟩
  /-- No advice, no finding, full marks and no failed category are the same. -/
  compliant : [r.recommendations = [],
    r.missingVariants = [] ∧ r.spacingIssues = [] ∧ r.colorIssues = [],
    r.overallMatch = 100, r.failedCategories = 0].TFAE
  /-- Each lacking dimension and each spacing finding gives one sentence, and so do the literal
  colors together and the want of a theme color. -/
  length_advice : r.recommendations.length
    = spec.variants.countP (fun x => Lacking source policy x) + r.spacingIssues.length
      + (if literalColors source = [] then 0 else 1)
      + if policy.colorReference? source = none then 1 else 0

theorem coherent_validate (source : List Char) (spec : Spec) (policy : Policy) :
    (validate source spec policy).Coherent source spec policy where
  variants_iff := List.isEmpty_iff
  spacing_iff := List.isEmpty_iff
  colors_iff := List.isEmpty_iff
  score_eq := overallMatch_validate source spec policy
  compliant := by
    have hcolors := colorIssues_eq_nil_iff source spec policy
    have hvariants := missingVariants_eq_nil_iff source spec policy
    tfae_have 1 ↔ 2 := by
      rw [← List.length_eq_zero_iff, length_recommendations, hvariants, hcolors,
        ← List.length_eq_zero_iff (l := (validate source spec policy).spacingIssues)]
      split <;> split <;> simp_all
    tfae_have 2 ↔ 3 := by
      rw [overallMatch_validate, score_eq_hundred_iff]
      simp only [List.length_eq_zero_iff]
    tfae_have 2 ↔ 4 := by
      rw [Report.failedCategories_eq_zero_iff, ← List.isEmpty_iff, ← List.isEmpty_iff,
        ← List.isEmpty_iff]
      rfl
    tfae_finish
  length_advice := length_recommendations source spec policy

end DesignTokens
