import DesignTokens.Proofs.Issue.Extraction

/-!
# Findings are not lost

A report says its findings in sentences, and the issues are made from what is
read back. A sentence is read by the form that wrote it, so the issues of a kind
come from the advice of that kind (`filter_kind_issues`), and the findings on
spacing and colors come back one for one, in their order
(`spacing_and_color_issues`).
-/

namespace DesignTokens

open Text Finding

/-! ## Kinds -/

/-- The kind of issue that an advice is about. -/
def Advice.kind : Advice → IssueKind
  | .missingValues .. => .variant
  | .spacing .. => .spacing
  | .literalColors _ | .themeColors _ => .color

/-- The kind of issue that a finding gives. -/
def Finding.kind : Finding → IssueKind
  | .missingValues .. => .variant
  | .spacing .. => .spacing
  | .literalColors _ | .themeColors => .color

theorem Finding.kind_of_read {a : Advice} {f : Finding} (h : read? a.text = some f) :
    f.kind = a.kind := by
  have hform := hasForm_of_read h
  cases a with
  | missingValues =>
      obtain ⟨_, _, rfl⟩ := hform
      rfl
  | spacing =>
      obtain ⟨_, _, _, _, rfl⟩ := hform
      rfl
  | literalColors =>
      obtain ⟨_, rfl⟩ := hform
      rfl
  | themeColors =>
      obtain rfl := hform
      rfl

namespace ExtractionInput

theorem kind_of_mem_ofFinding {e : ExtractionInput} {f : Finding} {i : Issue}
    (h : i ∈ e.ofFinding f) : i.kind = f.kind := by
  cases f with
  | literalColors literals =>
      obtain ⟨l, -, rfl⟩ := List.mem_map.mp h
      rfl
  | _ =>
      obtain rfl := List.mem_singleton.mp h
      rfl

/-- The issues that the sentence of one advice gives. -/
def ofAdvice (e : ExtractionInput) (a : Advice) : List Issue :=
  (read? a.text).toList.flatMap e.ofFinding

theorem ofAdvice_of_read {e : ExtractionInput} {a : Advice} {f : Finding}
    (h : read? a.text = some f) : e.ofAdvice a = e.ofFinding f := by
  rw [ofAdvice, h, Option.toList_some, List.flatMap_singleton]

theorem kind_of_mem_ofAdvice {e : ExtractionInput} {a : Advice} {i : Issue}
    (h : i ∈ e.ofAdvice a) : i.kind = a.kind := by
  obtain ⟨f, hf, hi⟩ := List.mem_flatMap.mp h
  exact (kind_of_mem_ofFinding hi).trans (kind_of_read (Option.mem_toList.mp hf))

/-- The issues of a kind come from the advice of that kind. -/
theorem filter_kind_flatMap (e : ExtractionInput) (k : IssueKind) : ∀ advice : List Advice,
    (advice.flatMap e.ofAdvice).filter (fun i => i.kind = k)
      = (advice.filter fun a => a.kind = k).flatMap e.ofAdvice
  | [] => rfl
  | a :: advice => by
      rw [List.flatMap_cons, List.filter_append, filter_kind_flatMap e k advice, List.filter_cons]
      split
      case isTrue hk =>
        rw [List.flatMap_cons, List.filter_eq_self.mpr]
        intro i hi
        rw [kind_of_mem_ofAdvice hi]
        exact hk
      case isFalse hk =>
        rw [List.filter_eq_nil_iff.mpr, List.nil_append]
        intro i hi
        rw [kind_of_mem_ofAdvice hi]
        exact hk

end ExtractionInput

/-! ## Issues without their ids -/

namespace Issue

/-- The issue without its id. -/
def unnumbered (i : Issue) : Issue := { i with id := "" }

theorem map_unnumbered_filter (k : IssueKind) (issues : List Issue) :
    (issues.filter fun i => i.kind = k).map unnumbered
      = (issues.map unnumbered).filter fun i => i.kind = k := by
  rw [List.filter_map]
  rfl

end Issue

section

variable (source : List Char) (spec : Spec) (policy : Policy) (shown : Option (List Char))

/-- The advice of a report on one kind of issue. -/
def adviceOf : IssueKind → List Advice
  | .variant => (variantGaps source spec policy).map VariantGap.advice
  | .spacing => (spacingGaps source spec).map fun g => .spacing g.1 g.2
  | .color =>
      (if (literalColors source).isEmpty then [] else [.literalColors (literalColors source)])
        ++ if (policy.colorReference? source).isSome then [] else [.themeColorsOf policy]
  | .typography => []

/-- The advice whose sentences a report gives. -/
def adviceOn : List Advice :=
  adviceOf source spec policy .variant ++ adviceOf source spec policy .spacing
    ++ adviceOf source spec policy .color

theorem recommendations_eq :
    (validate source spec policy).recommendations
      = (adviceOn source spec policy).map Advice.text := by
  simp only [adviceOn, adviceOf, ← List.append_assoc]
  rfl

theorem kind_of_mem_adviceOf {k : IssueKind} {a : Advice}
    (h : a ∈ adviceOf source spec policy k) : a.kind = k := by
  cases k with
  | variant =>
      obtain ⟨g, -, rfl⟩ := List.mem_map.mp h
      cases g <;> rfl
  | spacing =>
      obtain ⟨g, -, rfl⟩ := List.mem_map.mp h
      rfl
  | color =>
      rcases List.mem_append.mp h with h | h
      all_goals
        split at h
        · cases h
        · obtain rfl := List.mem_singleton.mp h
          rfl
  | typography => cases h

theorem filter_kind_adviceOn (k : IssueKind) :
    (adviceOn source spec policy).filter (fun a => a.kind = k) = adviceOf source spec policy k := by
  have hfilter : ∀ k', (adviceOf source spec policy k').filter (fun a => a.kind = k)
      = if k' = k then adviceOf source spec policy k' else [] := by
    intro k'
    split
    case isTrue hk =>
      refine List.filter_eq_self.mpr fun a ha => decide_eq_true ?_
      rw [kind_of_mem_adviceOf source spec policy ha, hk]
    case isFalse hk =>
      refine List.filter_eq_nil_iff.mpr fun a ha => ?_
      rw [kind_of_mem_adviceOf source spec policy ha]
      simpa using hk
  rw [adviceOn, List.filter_append, List.filter_append, hfilter, hfilter, hfilter]
  cases k <;> simp [adviceOf]

namespace ExtractionInput

theorem derived_ofValidated :
    (ofValidated source spec policy shown).derived
      = (adviceOn source spec policy).flatMap (ofValidated source spec policy shown).ofAdvice := by
  have hadvice : (ofValidated source spec policy shown).report.recommendations
      = (adviceOn source spec policy).map Advice.text := recommendations_eq source spec policy
  rw [derived, hadvice, List.filterMap_map, List.filterMap_eq_flatMap_toList, List.flatMap_assoc]
  rfl

/-- The issues of a kind, but for their ids, are those that the advice of that kind gives. -/
theorem filter_kind_issues (k : IssueKind) :
    ((ofValidated source spec policy shown).issues.filter fun i => i.kind = k).map Issue.unnumbered
      = ((adviceOf source spec policy k).flatMap
          (ofValidated source spec policy shown).ofAdvice).map Issue.unnumbered := by
  rw [← filter_kind_adviceOn source spec policy k, ← filter_kind_flatMap, ← derived_ofValidated,
    Issue.map_unnumbered_filter, Issue.map_unnumbered_filter, issues, issuesBy, Issue.assignIds,
    Issue.map_assignIdsAfter fun _ _ => rfl]

end ExtractionInput

end

/-! ## Spacing and colors -/

theorem nodup_foldl_distinct : ∀ {l seen : List String}, seen.Nodup →
    (l.foldl (fun seen c => if seen.contains c then seen else seen ++ [c]) seen).Nodup
  | [], _, h => h
  | c :: l, seen, h => by
      rw [List.foldl_cons]
      refine nodup_foldl_distinct ?_
      split
      case isTrue => exact h
      case isFalse hc =>
        rw [List.contains_iff_mem] at hc
        exact List.concat_eq_append ▸ h.concat hc

namespace Property

theorem token_mem_tokenOptions (p : Property) (n : Nat) : p.token n ∈ p.tokenOptions n := by
  rw [token, tokenOptions]
  cases p.scaleToken? n <;> simp

theorem bracketToken_mem_tokenOptions (p : Property) (n : Nat) :
    p.bracketToken n ∈ p.tokenOptions n := by
  simp [tokenOptions]

end Property

/-- The issue of a group of spacing lines: it is on the property of the group, suggests the token
of its first length and offers each of its lengths by token and in brackets. -/
structure FitsGap (g : SpacingGroup) (i : Issue) : Prop where
  target_eq : i.target = some (.utility g.1)
  suggestion_eq : g.2.head?.map g.1.token = some i.suggestion
  suggestion_mem : i.suggestion ∈ i.options
  tokens_mem : ∀ n ∈ g.2, g.1.token n ∈ i.options ∧ g.1.bracketToken n ∈ i.options
  nodup_options : i.options.Nodup

theorem fitsGap_unnumbered {g : SpacingGroup} {i : Issue} :
    FitsGap g i.unnumbered ↔ FitsGap g i :=
  ⟨fun h => ⟨h.target_eq, h.suggestion_eq, h.suggestion_mem, h.tokens_mem, h.nodup_options⟩,
    fun h => ⟨h.target_eq, h.suggestion_eq, h.suggestion_mem, h.tokens_mem, h.nodup_options⟩⟩

theorem forall₂_fitsGap_unnumbered {gs : List SpacingGroup} {issues : List Issue} :
    List.Forall₂ FitsGap gs (issues.map Issue.unnumbered) ↔ List.Forall₂ FitsGap gs issues := by
  simp only [List.forall₂_map_right_iff, fitsGap_unnumbered]

theorem fitsGap_spacingIssueOf (e : ExtractionInput) (p : Property) {n : Nat}
    {pixels others : List Nat} (wording : String) (hothers : ∀ m ∈ n :: pixels, m ∈ n :: others) :
    FitsGap (p, n :: pixels) (e.spacingIssueOf p n others wording) := by
  have hoption : ∀ m ∈ n :: pixels, ∀ o ∈ p.tokenOptions m,
      o ∈ (e.spacingIssueOf p n others wording).options := fun m hm o ho =>
    Rewrite.mem_foldl_distinct.mpr (.inr (List.mem_flatMap.mpr ⟨m, hothers m hm, ho⟩))
  exact {
    target_eq := rfl
    suggestion_eq := rfl
    suggestion_mem := hoption n (List.mem_cons_self ..) _ (p.token_mem_tokenOptions n)
    tokens_mem := fun m hm => ⟨hoption m hm _ (p.token_mem_tokenOptions m),
      hoption m hm _ (p.bracketToken_mem_tokenOptions m)⟩
    nodup_options := nodup_foldl_distinct List.nodup_nil }

namespace ExtractionInput

/-- Each group of lengths that can be written gives one issue. -/
theorem forall₂_fitsGap (e : ExtractionInput) : ∀ {gs : List SpacingGroup},
    (∀ g ∈ gs, g.2 ≠ [] ∧ ∀ n ∈ g.2, n ≤ maxPixels) →
      List.Forall₂ FitsGap gs ((gs.map fun g => Advice.spacing g.1 g.2).flatMap e.ofAdvice)
  | [], _ => .nil
  | (p, values) :: gs, h => by
      obtain ⟨⟨hne, hmax⟩, hgs⟩ := List.forall_mem_cons.mp h
      obtain ⟨n, pixels, rfl⟩ := List.exists_cons_of_ne_nil hne
      obtain ⟨others, hread, hothers⟩ := exists_read_spacing p hmax
      rw [List.map_cons, List.flatMap_cons, ofAdvice_of_read hread]
      exact .cons (fitsGap_spacingIssueOf e p _ hothers) (forall₂_fitsGap e hgs)

theorem ofAdvice_themeColorsOf (e : ExtractionInput) (policy : Policy) :
    e.ofAdvice (.themeColorsOf policy) = [e.themeColorsIssue] := by
  rw [Advice.themeColorsOf, ofAdvice_of_read (read?_text_themeColors _), ofFinding]

theorem ofAdvice_literalColors (e : ExtractionInput) {source : List Char}
    (hne : literalColors source ≠ []) :
    e.ofAdvice (.literalColors (literalColors source))
      = (literalColors source).map e.literalColorIssue := by
  rw [ofAdvice_of_read (read?_literals hne), ofFinding]

/-- The advice on colors gives an issue for each literal color, and one without target if the source
refers to no color by theme. -/
theorem map_target_color (e : ExtractionInput) (source : List Char) (spec : Spec)
    (policy : Policy) :
    ((adviceOf source spec policy .color).flatMap e.ofAdvice).map (·.target)
      = (literalColors source).map (fun l => some (Target.color l))
        ++ if policy.colorReference? source = none then [none] else [] := by
  have hliterals : ((if (literalColors source).isEmpty then []
      else [Advice.literalColors (literalColors source)]).flatMap e.ofAdvice).map (·.target)
        = (literalColors source).map fun l => some (Target.color l) := by
    split
    case isTrue hempty =>
      rw [List.isEmpty_iff.mp hempty]
      rfl
    case isFalse hne =>
      rw [List.isEmpty_iff] at hne
      rw [List.flatMap_singleton, ofAdvice_literalColors e hne, List.map_map]
      rfl
  have htheme : ((if (policy.colorReference? source).isSome then []
      else [Advice.themeColorsOf policy]).flatMap e.ofAdvice).map (·.target)
        = if policy.colorReference? source = none then [none] else [] := by
    cases policy.colorReference? source with
    | none =>
        rw [if_neg (by decide), if_pos rfl, List.flatMap_singleton, ofAdvice_themeColorsOf]
        rfl
    | some r => rfl
  rw [adviceOf, List.flatMap_append, List.map_append, hliterals, htheme]

/-- The issues on spacing are those of the groups that the source does not satisfy, one for each
property, and those on colors have the literal colors of the source as their targets, and no target
behind them if the source refers to no color by theme. -/
theorem spacing_and_color_issues (source : List Char) (spec : Spec) (policy : Policy)
    (shown : Option (List Char)) :
    List.Forall₂ FitsGap (spacingGaps source spec)
        ((ofValidated source spec policy shown).issues.filter fun i => i.kind = .spacing) ∧
      ((spacingGaps source spec).map (·.1)).Nodup ∧
      (((ofValidated source spec policy shown).issues.filter fun i => i.kind = .color).map
          (·.target))
        = (literalColors source).map (fun l => some (Target.color l))
          ++ if policy.colorReference? source = none then [none] else [] := by
  have hwell := wellGrouped_spacingGroups spec.spacing
  refine ⟨?_, hwell.nodup.sublist (List.filter_sublist.map _), ?_⟩
  · have hgaps : ∀ g ∈ spacingGaps source spec, g.2 ≠ [] ∧ ∀ n ∈ g.2, n ≤ maxPixels := by
      intro g hg
      have hmem := (List.mem_filter.mp hg).1
      exact ⟨hwell.ne_nil g hmem, hwell.bounded g hmem⟩
    have hissues := filter_kind_issues source spec policy shown .spacing
    rw [adviceOf] at hissues
    rw [← forall₂_fitsGap_unnumbered, hissues, forall₂_fitsGap_unnumbered]
    exact forall₂_fitsGap _ hgaps
  · have htarget : ∀ issues : List Issue,
        issues.map (·.target) = (issues.map Issue.unnumbered).map (·.target) := fun issues => by
      rw [List.map_map]
      rfl
    rw [htarget, filter_kind_issues, ← htarget, map_target_color]

end ExtractionInput

end DesignTokens
