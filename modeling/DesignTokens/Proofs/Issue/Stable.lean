import DesignTokens.Issue.Extraction
import DesignTokens.Proofs.Issue.Ids

/-!
# Ids that stay

What the ids are made from, an issue's kind, title and requirement, comes from
the spec and the report alone; the policy and the source only fill in what is
there now, what is suggested and what else can be chosen. So the lists made with
two policies or for two sources are the same but for these fields (`Issue.bare`),
and their ids are the same.

The list of all properties gets its ids in a second pass, which gives the issues
in front the ids that they have (`exists_assignIds_append`). Which digest is
used does not matter (`settledIds_digest`).
-/

namespace DesignTokens

open Text

namespace Issue

/-- The digest of an issue that a given hash makes. -/
def digestBy (hash : String → String) (i : Issue) : String :=
  hash (i.kind.name ++ "|" ++ i.title ++ "|" ++ i.requirement)

/-- The issue without its id and without what the policy and the source fill in. -/
def bare (i : Issue) : Issue :=
  { i with id := "", current := "", suggestion := "", options := [] }

theorem covers_bare (i j : Issue) : i.bare.covers j.bare = i.covers j := rfl

theorem digestBy_bare (hash : String → String) (i : Issue) :
    digestBy hash i.bare = digestBy hash i := rfl

/-! ## Assigning ids -/

section

variable {digestOf : Issue → String}

/-- Issues that are added behind others change no id of theirs. -/
theorem assignIdsAfter_append (more : List Issue) : ∀ (issues : List Issue) (used : List String),
    assignIdsAfter digestOf used (issues ++ more)
      = assignIdsAfter digestOf used issues
        ++ assignIdsAfter digestOf ((issues.map (baseId digestOf)).reverse ++ used) more
  | [], _ => rfl
  | i :: is, used => by
      rw [List.cons_append, assignIdsAfter, assignIdsAfter_append more is, assignIdsAfter,
        List.cons_append, List.map_cons, List.reverse_cons, List.append_assoc,
        List.singleton_append]

variable (hbare : ∀ i, digestOf i.bare = digestOf i)

include hbare

theorem baseId_bare (i : Issue) : baseId digestOf i.bare = baseId digestOf i := by
  rw [baseId, hbare, baseId]
  rfl

theorem map_id_assignIdsAfter_bare : ∀ (issues : List Issue) (used : List String),
    (assignIdsAfter digestOf used (issues.map bare)).map (·.id)
      = (assignIdsAfter digestOf used issues).map (·.id)
  | [], _ => rfl
  | i :: is, used => by
      rw [List.map_cons, assignIdsAfter, assignIdsAfter, List.map_cons, List.map_cons,
        baseId_bare hbare, map_id_assignIdsAfter_bare is]

/-- Issues that are the same but for what the policy and the source fill in have the same ids. -/
theorem map_id_assignIds_congr {issues issues' : List Issue}
    (h : issues.map bare = issues'.map bare) :
    (assignIds digestOf issues).map (·.id) = (assignIds digestOf issues').map (·.id) := by
  rw [assignIds, assignIds, ← map_id_assignIdsAfter_bare hbare, h, map_id_assignIdsAfter_bare hbare]

theorem assignIdsAfter_assignIdsAfter : ∀ (issues : List Issue) (used old : List String),
    assignIdsAfter digestOf used (assignIdsAfter digestOf old issues)
      = assignIdsAfter digestOf used issues
  | [], _, _ => rfl
  | i :: is, used, old => by
      have hbase : ∀ id, baseId digestOf { i with id := id } = baseId digestOf i := fun id =>
        (baseId_bare hbare { i with id := id }).symm.trans (baseId_bare hbare i)
      rw [assignIdsAfter, assignIdsAfter, hbase, assignIdsAfter_assignIdsAfter is, assignIdsAfter]

/-- A list that has its ids keeps them when it gets ids together with issues behind it. -/
theorem exists_assignIds_append (issues more : List Issue) : ∃ used,
    assignIds digestOf (assignIds digestOf issues ++ more)
      = assignIds digestOf issues ++ assignIdsAfter digestOf used more := by
  have hkept : assignIdsAfter digestOf [] (assignIds digestOf issues) = assignIds digestOf issues :=
    assignIdsAfter_assignIdsAfter hbare issues [] []
  refine ⟨((assignIds digestOf issues).map (baseId digestOf)).reverse ++ [], ?_⟩
  rw [assignIds, assignIdsAfter_append, hkept]

theorem prefix_assignIds_append (issues more : List Issue) :
    assignIds digestOf issues <+: assignIds digestOf (assignIds digestOf issues ++ more) := by
  obtain ⟨used, heq⟩ := exists_assignIds_append hbare issues more
  rw [heq]
  exact List.prefix_append _ _

end

end Issue

namespace ExtractionInput

open Issue

/-! ## What policy and source leave alone -/

section

variable (spec : Spec) (report : Report) (policy policy' : Policy)
  (source source' : Option (List Char))

theorem map_bare_ofFinding (f : Finding) :
    ((⟨spec, report, policy, source⟩ : ExtractionInput).ofFinding f).map bare
      = ((⟨spec, report, policy', source'⟩ : ExtractionInput).ofFinding f).map bare := by
  cases f with
  | literalColors literals =>
      rw [ofFinding, ofFinding, List.map_map, List.map_map]
      rfl
  | _ => rfl

theorem map_bare_derived :
    (⟨spec, report, policy, source⟩ : ExtractionInput).derived.map bare
      = (⟨spec, report, policy', source'⟩ : ExtractionInput).derived.map bare := by
  rw [derived, derived, List.map_flatMap, List.map_flatMap]
  exact List.flatMap_congr fun f _ => map_bare_ofFinding spec report policy policy' source source' f

theorem map_bare_edits :
    (⟨spec, report, policy, source⟩ : ExtractionInput).edits.map bare
      = (⟨spec, report, policy', source'⟩ : ExtractionInput).edits.map bare := by
  have htypography : ∀ line,
      bare ((⟨spec, report, policy, source⟩ : ExtractionInput).typographyEdit line)
        = bare ((⟨spec, report, policy', source'⟩ : ExtractionInput).typographyEdit line) := by
    intro line
    rw [typographyEdit, typographyEdit]
    cases typography? line <;> rfl
  have hspacing : ∀ line,
      ((⟨spec, report, policy, source⟩ : ExtractionInput).spacingEdit? line).map bare
        = ((⟨spec, report, policy', source'⟩ : ExtractionInput).spacingEdit? line).map bare := by
    intro line
    rw [spacingEdit?, spacingEdit?]
    cases spacingRequirement? line <;> rfl
  have hcolor : ∀ line,
      ((⟨spec, report, policy, source⟩ : ExtractionInput).colorEdit? line).map bare
        = ((⟨spec, report, policy', source'⟩ : ExtractionInput).colorEdit? line).map bare := by
    intro line
    rw [colorEdit?, colorEdit?]
    cases colorLine? line <;> rfl
  simp only [edits, List.map_append, List.map_map, List.map_filterMap, hspacing, hcolor]
  congr 1
  exact List.map_congr_left fun line _ => htypography line

/-- What the edits are compared with shows in neither source nor policy. -/
theorem map_bare_uncoveredEdits {found found' : List Issue}
    (h : found.map bare = found'.map bare) :
    ((⟨spec, report, policy, source⟩ : ExtractionInput).uncoveredEdits found).map bare
      = ((⟨spec, report, policy', source'⟩ : ExtractionInput).uncoveredEdits found').map bare := by
  have hfilter : ∀ (e : ExtractionInput) (found : List Issue), (e.uncoveredEdits found).map bare
      = (e.edits.map bare).filter fun c => !(found.map bare).any fun i => i.covers c := by
    intro e found
    rw [uncoveredEdits, List.filter_map]
    congr 2
    funext c
    rw [Function.comp_apply, List.any_map]
    simp only [Function.comp_def, covers_bare]
  rw [hfilter, hfilter, h, map_bare_edits spec report policy policy' source source']

end

end ExtractionInput

/-! ## The ids of a spec and a report -/

/-- What the ids of a spec and a report, made with a digest, are good for. -/
structure SettledIds (digestOf : Issue → String) (spec : Spec) (report : Report) : Prop where
  /-- Each issue has an id of its own. -/
  nodup_issues : ∀ policy source,
    (((⟨spec, report, policy, source⟩ : ExtractionInput).issuesBy digestOf).map (·.id)).Nodup
  nodup_allProperties : ∀ policy source,
    (((⟨spec, report, policy, source⟩ : ExtractionInput).allPropertiesBy digestOf).map
      (·.id)).Nodup
  /-- All properties start with the issues, ids included. -/
  prefix_allProperties : ∀ policy source,
    (⟨spec, report, policy, source⟩ : ExtractionInput).issuesBy digestOf
      <+: (⟨spec, report, policy, source⟩ : ExtractionInput).allPropertiesBy digestOf
  /-- Neither the policy nor the source has a part in an id. -/
  issues_eq : ∀ policy policy' source source',
    ((⟨spec, report, policy, source⟩ : ExtractionInput).issuesBy digestOf).map (·.id)
      = ((⟨spec, report, policy', source'⟩ : ExtractionInput).issuesBy digestOf).map (·.id)
  allProperties_eq : ∀ policy policy' source source',
    ((⟨spec, report, policy, source⟩ : ExtractionInput).allPropertiesBy digestOf).map (·.id)
      = ((⟨spec, report, policy', source'⟩ : ExtractionInput).allPropertiesBy digestOf).map (·.id)

theorem settledIds_of {digestOf : Issue → String} (hdash : ∀ i, '-' ∉ (digestOf i).toList)
    (hbare : ∀ i, digestOf i.bare = digestOf i) (spec : Spec) (report : Report) :
    SettledIds digestOf spec report where
  nodup_issues _ _ := List.pairwise_map.mpr (Issue.pairwise_id_assignIds hdash _)
  nodup_allProperties _ _ := List.pairwise_map.mpr (Issue.pairwise_id_assignIds hdash _)
  prefix_allProperties _ _ := Issue.prefix_assignIds_append hbare _ _
  issues_eq policy policy' source source' := Issue.map_id_assignIds_congr hbare
    (ExtractionInput.map_bare_derived spec report policy policy' source source')
  allProperties_eq policy policy' source source' := by
    have hfound : ((⟨spec, report, policy, source⟩ : ExtractionInput).issuesBy digestOf).map
          Issue.bare
        = ((⟨spec, report, policy', source'⟩ : ExtractionInput).issuesBy digestOf).map
          Issue.bare := by
      rw [ExtractionInput.issuesBy, ExtractionInput.issuesBy, Issue.assignIds, Issue.assignIds,
        Issue.map_assignIdsAfter fun _ _ => rfl, Issue.map_assignIdsAfter fun _ _ => rfl,
        ExtractionInput.map_bare_derived spec report policy policy' source source']
    refine Issue.map_id_assignIds_congr hbare ?_
    rw [List.map_append, List.map_append, hfound,
      ExtractionInput.map_bare_uncoveredEdits spec report policy policy' source source' hfound]

/-- The ids are settled by the spec and the report, and would be with any other hash whose values
have no dash, such as one that gives the same ten digits to several issues. -/
theorem settledIds_digest (spec : Spec) (report : Report) :
    SettledIds Issue.digest spec report ∧
      ∀ hash : String → String, (∀ s, '-' ∉ (hash s).toList) →
        SettledIds (Issue.digestBy hash) spec report := by
  refine ⟨settledIds_of Issue.dash_not_mem_digest (fun _ => rfl) spec report, fun hash hdash => ?_⟩
  have hdigest : ∀ i, '-' ∉ (Issue.digestBy hash i).toList := fun _ => hdash _
  exact settledIds_of hdigest (Issue.digestBy_bare hash) spec report

/-- A report whose sentences give three issues, two of them alike. -/
def repeatedReport : Report :=
  { (default : Report) with
    recommendations := ["Use theme color tokens", "Set `gap` to 8px", "Use theme color tokens"] }

theorem settledIds_digest_repeated :
    SettledIds (Issue.digestBy fun _ => "0123456789") {} repeatedReport ∧
      ((⟨{}, repeatedReport, Policy.builtin, none⟩ : ExtractionInput).issuesBy
          (Issue.digestBy fun _ => "0123456789")).map (·.id)
        = ["color-0123456789", "spacing-0123456789", "color-0123456789-2"] :=
  ⟨(settledIds_digest {} repeatedReport).2 _ fun _ => by decide, by decide⟩

end DesignTokens
